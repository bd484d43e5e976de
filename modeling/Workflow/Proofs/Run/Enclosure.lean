import Workflow.Proofs.Run.Roam
import Workflow.Proofs.Value.Entries
/-!
Layers that keep certain names to themselves and pass on all others. What is written in front of such a layer
changes what lies behind it only by writes of other names, and the layer goes on as it is.
-/

namespace Workflow

namespace Scope

variable {names : List String} {key name : String} {s s' t near far : Scope} {l : Layer}

/-- A scope after some writes of names other than certain ones. -/
inductive Spares (names : List String) (s : Scope) : Scope → Prop
  | refl : Spares names s s
  | set {s' : Scope} {key : String} (h : Spares names s s') (hk : key ∉ names) (v : Value) :
      Spares names s (s'.set key v)

namespace Spares

theorem trans (h : Spares names s s') (k : Spares names s' t) : Spares names s t := by
  induction k with
  | refl => exact h
  | set _ hk v ih => exact ih.set hk v

theorem written (h : Spares names s s') : s.Written s' := by
  induction h with
  | refl => exact .refl s
  | set _ _ v ih => exact ih.set _ v

theorem ne_nil (h : Spares names s s') (hs : s ≠ []) : s' ≠ [] := by
  rw [← List.length_pos_iff] at hs ⊢
  rwa [h.written.length]

theorem find? (h : Spares names s s') (hs : s ≠ []) (hn : name ∈ names) : s'.find? name = s.find? name := by
  induction h with
  | refl => rfl
  | set h hk v ih =>
    rw [find?_set (h.ne_nil hs), if_neg (ne_of_mem_of_not_mem hn hk), ih]

end Spares

end Scope

/-- A layer that binds certain names and passes on all others. -/
structure Layer.IsSeal (names : List String) (l : Layer) : Prop where
  shared : l.shared = true
  binds : ∀ name, Entries.contains name l.bindings = true ↔ name ∈ names

namespace Scope

variable {names : List String} {key name : String} {s' near far : Scope} {l : Layer}

theorem find?_seal (hl : l.IsSeal names) (hn : name ∉ names) : find? name (l :: far) = far.find? name := by
  have hfree : Entries.find? name l.bindings = none := by
    have hc := mt (hl.binds name).mp hn
    simpa [Entries.contains] using hc
  rw [find?, hfree]

/-- One of the names stays in the layer, and any other goes to what lies behind. -/
theorem set_seal (hl : l.IsSeal names) (hf : far ≠ []) (key : String) (v : Value) :
    (key ∉ names ∧ set key v (l :: far) = l :: far.set key v) ∨
      key ∈ names ∧ ∃ l', l'.IsSeal names ∧ set key v (l :: far) = l' :: far := by
  have hfar : far.isEmpty = false := List.isEmpty_eq_false_iff.mpr hf
  rw [set, hl.shared, hfar]
  by_cases hk : key ∈ names
  · refine .inr ⟨hk, { l with bindings := Entries.insert key v l.bindings }, ⟨hl.shared, fun name => ?_⟩, ?_⟩
    · rw [Entries.contains_iff, Entries.mem_keys_insert, ← Entries.contains_iff, hl.binds]
      exact ⟨fun h => h.elim (fun he => he ▸ hk) id, .inr⟩
    · rw [if_neg (by simp [(hl.binds key).mpr hk]), hl.shared]
  · refine .inl ⟨hk, if_pos ?_⟩
    simpa using mt (hl.binds key).mp hk

theorem set_sealed (hl : l.IsSeal names) (hf : far ≠ []) (near : Scope) (key : String) (v : Value) :
    ∃ near' l' far', (near ++ l :: far).set key v = near' ++ l' :: far' ∧ near'.length = near.length ∧
      l'.IsSeal names ∧ Spares names far far' := by
  induction near with
  | nil =>
    obtain ⟨hk, he⟩ | ⟨-, l', hl', he⟩ := set_seal hl hf key v
    · exact ⟨[], l, _, he, rfl, hl, .set .refl hk v⟩
    · exact ⟨[], l', far, he, rfl, hl', .refl⟩
  | cons k near ih =>
    obtain ⟨near', l', far', he, hlen, hl', hfar⟩ := ih
    rw [List.cons_append, set]
    split
    · exact ⟨k :: near', l', far', by rw [he]; rfl, by simp [hlen], hl', hfar⟩
    · exact ⟨{ k with bindings := Entries.insert key v k.bindings } :: near, l, far, rfl, rfl, hl, .refl⟩

theorem Written.sealed (h : Written (near ++ l :: far) s') (hl : l.IsSeal names) (hf : far ≠ []) :
    ∃ near' l' far', s' = near' ++ l' :: far' ∧ near'.length = near.length ∧ l'.IsSeal names ∧
      Spares names far far' := by
  induction h with
  | refl => exact ⟨near, l, far, rfl, rfl, hl, .refl⟩
  | set _ key v ih =>
    obtain ⟨near₁, l₁, far₁, rfl, hlen₁, hl₁, hfar₁⟩ := ih
    obtain ⟨near₂, l₂, far₂, he, hlen₂, hl₂, hfar₂⟩ := set_sealed hl₁ (hfar₁.ne_nil hf) near₁ key v
    exact ⟨near₂, l₂, far₂, he, hlen₂.trans hlen₁, hl₂, hfar₁.trans hfar₂⟩

/-- Of all that is written in front, what lies behind gets the writes of other names. -/
theorem update_seal (hl : l.IsSeal names) (hf : far ≠ []) (values : Entries Value) :
    ∃ l', l'.IsSeal names ∧ Scope.update (l :: far) values = l' :: far.update (values.filter (·.1 ∉ names)) := by
  induction values generalizing l far with
  | nil => exact ⟨l, hl, rfl⟩
  | cons e values ih =>
    have hstep (s : Scope) : s.update (e :: values) = (s.set e.1 e.2).update values := rfl
    rw [hstep]
    obtain ⟨hk, he⟩ | ⟨hk, l', hl', he⟩ := set_seal hl hf e.1 e.2
    · rw [he, List.filter_cons_of_pos (by simpa using hk)]
      exact ih hl (set_ne_nil hf e.1 e.2)
    · rw [he, List.filter_cons_of_neg (by simpa using hk)]
      exact ih hl' hf

end Scope

namespace Machine

variable {names : List String} {is behind layers : List Nat} {i size : Nat} {m n : Machine}

/-- Some layers keep certain names to themselves and pass on all others. -/
def Seals (names : List String) (is : List Nat) (m : Machine) : Prop :=
  ∀ i ∈ is, ∃ l, m.layers[i]? = some l ∧ l.IsSeal names

/-- Layers among which some, if they are there, have certain others behind them. -/
structure Threads (is behind : List Nat) (size : Nat) (layers : List Nat) : Prop extends IsChain size layers where
  behind : ∀ i ∈ is, ∀ near far, layers = near ++ i :: far → far = behind
  known : ∀ i ∈ is, i < size

/-- Layers among which one is of some that have certain others behind them. -/
structure Within (is behind : List Nat) (size : Nat) (layers : List Nat) : Prop
    extends Threads is behind size layers where
  within : ∃ i ∈ is, i ∈ layers

namespace Threads

/-- Where a run begins, there are none of these yet. -/
theorem root : Threads [] behind 1 rootLayers :=
  ⟨⟨by simp [rootLayers], by simp [rootLayers], by simp [rootLayers]⟩, nofun, nofun⟩

theorem split (h : Threads is behind size layers) (hi : i ∈ is) (hl : i ∈ layers) :
    ∃ near, layers = near ++ i :: behind := by
  obtain ⟨near, far, rfl⟩ := List.append_of_mem hl
  exact ⟨near, by rw [h.behind i hi near far rfl]⟩

/-- A layer that has been made later is not among these. -/
theorem cons (h : Threads is behind size layers) : Threads (size :: is) behind (size + 1) layers where
  toIsChain := widens_isChain.mono (Nat.le_succ size) h.toIsChain
  behind i hi near far he := by
    rcases List.mem_cons.mp hi with rfl | hi
    · exact absurd (h.lt i (by simp [he])) (Nat.lt_irrefl i)
    · exact h.behind i hi near far he
  known i hi := by
    rcases List.mem_cons.mp hi with rfl | hi
    · exact Nat.lt_succ_self i
    · exact Nat.lt_succ_of_lt (h.known i hi)

end Threads

theorem widens_threads (is behind : List Nat) : Widens (Threads is behind) where
  mono hs h := ⟨widens_isChain.mono hs h.toIsChain, h.behind, fun i hi => Nat.lt_of_lt_of_le (h.known i hi) hs⟩
  push {size layers} h := by
    refine ⟨widens_isChain.push h.toIsChain, fun i hi near far he => ?_, fun i hi => Nat.lt_succ_of_lt (h.known i hi)⟩
    cases near with
    | nil =>
      cases he
      exact absurd (h.known _ hi) (Nat.lt_irrefl _)
    | cons j near =>
      cases he
      exact h.behind i hi near far rfl

theorem widens_within (is behind : List Nat) : Widens (Within is behind) where
  mono hs h := ⟨(widens_threads is behind).mono hs h.toThreads, h.within⟩
  push h := ⟨(widens_threads is behind).push h.toThreads,
    h.within.imp fun _ hi => hi.imp_right (List.mem_cons_of_mem _)⟩

theorem Within.cons (h : Within is behind size layers) : Within (size :: is) behind (size + 1) layers :=
  ⟨h.toThreads.cons, h.within.imp fun _ hi => hi.imp_left (List.mem_cons_of_mem _)⟩

/-- A new layer in front of certain others. -/
theorem Threads.within (h : Threads is behind size behind) :
    Within (size :: is) behind (size + 1) (size :: behind) where
  toIsChain := widens_isChain.push h.toIsChain
  known := h.cons.known
  within := ⟨size, List.mem_cons_self, List.mem_cons_self⟩
  behind i hi near far he := by
    cases near with
    | nil =>
      cases he
      rfl
    | cons j near =>
      cases he
      exact h.cons.behind i hi near far rfl

theorem scope_append (m : Machine) (near far : List Nat) : m.scope (near ++ far) = m.scope near ++ m.scope far :=
  List.map_append

theorem scope_congr (h : n.layers = m.layers) (layers : List Nat) : n.scope layers = m.scope layers := by
  rw [scope, h, ← scope]

theorem scope_push (m : Machine) {n : Machine} {l : Layer} (hn : n.layers = m.layers.push l)
    (hl : ∀ i ∈ layers, i < m.layers.size) : n.scope layers = m.scope layers := by
  refine List.map_congr_left fun i hi => ?_
  rw [hn, Array.getElem?_push_lt (hl i hi), Array.getElem?_eq_getElem (hl i hi)]

/-- A write through a scope, behind a layer that keeps certain names to itself. -/
theorem putScope_sealed {near : List Nat} {s : Scope} {l : Layer} (hc : IsChain m.layers.size (near ++ i :: behind))
    (hb : behind ≠ []) (hs : (m.scope (near ++ i :: behind)).Written s) (hi : m.layers[i]? = some l)
    (hl : l.IsSeal names) : (∃ l', (m.putScope (near ++ i :: behind) s).layers[i]? = some l' ∧ l'.IsSeal names) ∧
      Scope.Spares names (m.scope behind) ((m.putScope (near ++ i :: behind) s).scope behind) := by
  have hscope : m.scope (near ++ i :: behind) = m.scope near ++ l :: m.scope behind := by
    rw [scope_append]
    simp [scope, hi]
  have hput := scope_putScope (m := m) (hc.descends.imp fun h => Nat.ne_of_gt h) hc.lt
    (hs.length.trans (by simp [scope]))
  rw [hscope] at hs
  obtain ⟨near', l', far', rfl, hlen, hl', hfar⟩ := hs.sealed hl (by simpa [scope] using hb)
  have hlt : i < (m.putScope (near ++ i :: behind) (near' ++ l' :: far')).layers.size := by
    rw [size_putScope]
    exact hc.lt i (by simp)
  generalize m.putScope (near ++ i :: behind) (near' ++ l' :: far') = n at hput hlt ⊢
  rw [scope_append] at hput
  obtain ⟨-, hfront⟩ := List.append_inj hput (by simpa [scope] using hlen.symm)
  obtain ⟨hfirst, hrest⟩ := List.cons.inj (show (n.layers[i]?).getD {} :: n.scope behind = l' :: far' from hfront)
  rw [Array.getElem?_eq_getElem hlt] at hfirst ⊢
  exact ⟨⟨_, rfl, by rwa [show n.layers[i] = l' from hfirst]⟩, hrest ▸ hfar⟩

/-- Whatever is written through layers of which such ones have certain others behind them, they go on as they
are. -/
theorem Spreads.seals (h : Spreads (Threads is behind) m n) (hb : behind ≠ []) (hm : m.Seals names is) :
    n.Seals names is := by
  induction h with
  | same he => exact fun i hi => he ▸ hm i hi
  | @put n o layers s _ hl hs ho ih =>
    intro i hi
    obtain ⟨l, hn, hseal⟩ := ih i hi
    rw [ho]
    by_cases hmem : i ∈ layers
    · obtain ⟨near, rfl⟩ := hl.split hi hmem
      exact (putScope_sealed hl.toIsChain hb hs hn hseal).1
    · exact ⟨l, (layers_putScope fun _ hz => absurd (List.of_mem_zip hz).1 hmem).trans hn, hseal⟩
  | add _ ho ih =>
    intro i hi
    obtain ⟨l, hn, hseal⟩ := ih i hi
    obtain ⟨hlt, -⟩ := Array.getElem?_eq_some_iff.mp hn
    exact ⟨l, by rw [ho, Array.getElem?_push, if_neg (Nat.ne_of_lt hlt), hn], hseal⟩

theorem Spreads.mono {P Q : Nat → List Nat → Prop} (h : Spreads P m n)
    (hPQ : ∀ size layers, P size layers → Q size layers) : Spreads Q m n := by
  induction h with
  | same he => exact .same he
  | put _ hl hs ho ih => exact .put ih (hPQ _ _ hl) hs ho
  | add _ ho ih => exact .add ih ho

/-- What is written in front of such layers spares their names in what lies behind. -/
theorem Spreads.spares (h : Spreads (Within is behind) m n) (hb : IsChain m.layers.size behind)
    (hm : m.Seals names is) : Scope.Spares names (m.scope behind) (n.scope behind) := by
  have hseals {n : Machine} (h : Spreads (Within is behind) m n) : n.Seals names is :=
    (h.mono fun _ _ hw => hw.toThreads).seals hb.ne_nil hm
  induction h with
  | same he => rw [scope_congr he]; exact .refl
  | @put n o layers s h hl hs ho ih =>
    obtain ⟨i, hi, hmem⟩ := hl.within
    obtain ⟨near, rfl⟩ := hl.split hi hmem
    obtain ⟨l, hn, hseal⟩ := hseals h i hi
    have hspares := (putScope_sealed hl.toIsChain hb.ne_nil hs hn hseal).2
    rw [scope_congr ho]
    exact ih.trans hspares
  | @add n o l h ho ih =>
    rw [scope_push n ho fun i hi => Nat.lt_of_lt_of_le (hb.lt i hi) h.size_le]
    exact ih

section front

variable (hm : m.Seals names is) (hi : i ∈ is)

include hm hi

/-- Through such a layer other names are read as they are behind it. -/
theorem Seals.find? {name : String} (hn : name ∉ names) :
    (m.scope (i :: behind)).find? name = (m.scope behind).find? name := by
  obtain ⟨l, hl, hseal⟩ := hm i hi
  have hscope : m.scope (i :: behind) = l :: m.scope behind := by simp [scope, hl]
  rw [hscope, Scope.find?_seal hseal hn]

/-- Through such a layer other names are written as they are behind it. -/
theorem Seals.write (hc : IsChain m.layers.size (i :: behind)) (hb : behind ≠ []) (values : Entries Value) :
    (m.write (i :: behind) values).scope behind =
      (m.scope behind).update (values.filter (·.1 ∉ names)) := by
  obtain ⟨l, hl, hseal⟩ := hm i hi
  have hscope : m.scope (i :: behind) = l :: m.scope behind := by simp [scope, hl]
  have hne : m.scope behind ≠ [] := by simpa [scope] using hb
  obtain ⟨l', -, he⟩ := Scope.update_seal hseal hne values
  have hput := scope_write hc values
  rw [hscope, he] at hput
  exact (List.cons.inj hput).2

end front

end Machine

end Workflow
