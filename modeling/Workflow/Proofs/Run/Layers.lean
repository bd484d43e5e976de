import Workflow.Proofs.Run.Update
/-!
What writing to variables does to the layers of a run. A write through a scope stops at the first
layer that shares nothing, and whatever a run does to its layers is a sequence of writes through
scopes and of new layers.
-/

namespace Workflow

namespace Scope

variable {s s' t : Scope}

/-- A scope after some writes. -/
inductive Written : Scope → Scope → Prop
  | refl (s : Scope) : Written s s
  | set {s s' : Scope} (h : Written s s') (key : String) (v : Value) : Written s (s'.set key v)

theorem Written.trans (h : Written s s') (k : Written s' t) : Written s t := by
  induction k with
  | refl => exact h
  | set _ key v ih => exact ih.set key v

theorem Written.foldl {α : Type} {f : Scope → α → Scope} (hf : ∀ s a, Written s (f s a)) (as : List α)
    (s : Scope) : Written s (as.foldl f s) := by
  induction as generalizing s with
  | nil => exact .refl s
  | cons a as ih => exact (hf s a).trans (ih (f s a))

theorem Written.update (s : Scope) (entries : Entries Value) : Written s (s.update entries) :=
  .foldl (fun s (e : String × Value) => (Written.refl s).set e.1 e.2) entries s

theorem set_shared (key : String) (v : Value) (s : Scope) :
    (s.set key v).map Layer.shared = s.map Layer.shared := by
  induction s with
  | nil => rfl
  | cons l s ih =>
    unfold set
    split
    · simp [ih]
    · rfl

/-- A write leaves what lies behind a layer that shares nothing as it is. -/
theorem set_append (key : String) (v : Value) (pre rest : Scope) {l : Layer} (hl : l.shared = false) :
    ∃ near, (pre ++ l :: rest).set key v = near ++ rest ∧ near.length = pre.length + 1 := by
  induction pre with
  | nil => exact ⟨[{ l with bindings := Entries.insert key v l.bindings }], by simp [set, hl], rfl⟩
  | cons k pre ih =>
    obtain ⟨near, hn, hlen⟩ := ih
    rw [List.cons_append, set]
    split
    · exact ⟨k :: near, by rw [hn]; rfl, by simp [hlen]⟩
    · exact ⟨{ k with bindings := Entries.insert key v k.bindings } :: (pre ++ [l]), by simp, by simp⟩

namespace Written

theorem shared (h : Written s s') : s'.map Layer.shared = s.map Layer.shared := by
  induction h with
  | refl => rfl
  | set _ key v ih => rw [set_shared, ih]

theorem length (h : Written s s') : s'.length = s.length := by
  simpa using congrArg List.length h.shared

/-- However much is written, what lies behind a layer that shares nothing stays as it is. -/
theorem append {pre rest : Scope} {l : Layer} (h : Written (pre ++ l :: rest) s')
    (hl : l.shared = false) : ∃ near, s' = near ++ rest ∧ near.length = pre.length + 1 := by
  induction h with
  | refl => exact ⟨pre ++ [l], by simp, by simp⟩
  | set h key v ih =>
    obtain ⟨near, rfl, hlen⟩ := ih
    have hshared := h.shared
    obtain ⟨near', k, rfl⟩ : ∃ near' k, near = near' ++ [k] := by
      refine ⟨near.dropLast, near.getLast (List.ne_nil_of_length_eq_add_one hlen), ?_⟩
      exact (List.dropLast_concat_getLast _).symm
    have hlen : near'.length = pre.length := by simpa using hlen
    have hk : k.shared = false := by
      have hat := congrArg (·[near'.length]?) hshared
      rw [← hl]
      simpa [hlen] using hat
    obtain ⟨near, hn, hlen'⟩ := set_append key v near' rest hk
    exact ⟨near, by simpa using hn, by rw [hlen', hlen]⟩

end Written

/-- After a write a name is bound to what was written, and all other names to what they were. -/
theorem find?_set (hs : s ≠ []) (key name : String) (v : Value) :
    (s.set key v).find? name = if name = key then some v else s.find? name := by
  induction s with
  | nil => exact absurd rfl hs
  | cons l s ih =>
    unfold set
    split
    · rename_i hc
      simp only [Bool.and_eq_true, Bool.not_eq_true', List.isEmpty_eq_false_iff] at hc
      rw [find?, ih hc.1.2]
      by_cases hn : name = key
      · have hfree : Entries.find? key l.bindings = none := by
          simpa [Entries.contains] using hc.2
        rw [if_pos hn, if_pos hn, hn, hfree]
      · rw [if_neg hn, if_neg hn, find?]
    · by_cases hn : name = key
      · rw [if_pos hn, find?, hn, Entries.find?_insert_self]
      · rw [if_neg hn, find?, find?, Entries.find?_insert_of_ne hn]

theorem set_ne_nil (hs : s ≠ []) (key : String) (v : Value) : s.set key v ≠ [] := by
  cases s with
  | nil => exact absurd rfl hs
  | cons l s =>
    unfold set
    split <;> simp

end Scope

namespace Machine

variable {P : Nat → List Nat → Prop} {m n o : Machine}

section putAll

variable {i : Nat} (ls : List (Nat × Layer)) (a : Array Layer)

theorem size_putAll : (ls.foldl (fun a (i, l) => a.setIfInBounds i l) a).size = a.size := by
  induction ls generalizing a with
  | nil => rfl
  | cons e ls ih => simp [ih]

/-- What holds of a layer still does if it holds of all that is written in its place. -/
theorem getElem?_putAll {Q : Option Layer → Prop} (ha : Q a[i]?)
    (h : ∀ l, (i, l) ∈ ls → i < a.size → Q (some l)) :
    Q (ls.foldl (fun a (i, l) => a.setIfInBounds i l) a)[i]? := by
  induction ls generalizing a with
  | nil => exact ha
  | cons e ls ih =>
    refine ih _ ?_ fun l hl hi => h l (List.mem_cons_of_mem _ hl) (by simpa using hi)
    rw [Array.getElem?_setIfInBounds]
    split
    · rename_i he
      split
      · rename_i hi
        exact h e.2 (by simp [← he]) (he ▸ hi)
      · rename_i hi
        rwa [Array.getElem?_eq_none (by omega)] at ha
    · exact ha

/-- A layer that is written in one way only. -/
theorem getElem?_putAll_of_mem {l : Layer} (hl : (i, l) ∈ ls) (hu : ∀ l', (i, l') ∈ ls → l' = l)
    (hi : i < a.size) : (ls.foldl (fun a (i, l) => a.setIfInBounds i l) a)[i]? = some l := by
  obtain ⟨before, after, rfl⟩ := List.append_of_mem hl
  rw [List.foldl_append, List.foldl_cons]
  refine getElem?_putAll (Q := (· = some l)) _ _ ?_ fun l' hl' _ => ?_
  · rw [Array.getElem?_setIfInBounds_self_of_lt (by rwa [size_putAll])]
  · rw [hu l' (by simp [hl'])]

end putAll

theorem size_putScope (m : Machine) (layers : List Nat) (s : Scope) :
    (m.putScope layers s).layers.size = m.layers.size :=
  size_putAll _ _

theorem putScope_append (m : Machine) {layers : List Nat} {s : Scope} (h : layers.length = s.length)
    (layers' : List Nat) (s' : Scope) :
    m.putScope (layers ++ layers') (s ++ s') = (m.putScope layers s).putScope layers' s' := by
  simp only [putScope, List.zip_append h, List.foldl_append]

/-- A layer whose place in the scope holds what it is itself is not changed. -/
theorem layers_putScope {layers : List Nat} {s : Scope} {i : Nat}
    (h : ∀ l, (i, l) ∈ layers.zip s → l = (m.layers[i]?).getD {}) :
    (m.putScope layers s).layers[i]? = m.layers[i]? := by
  refine getElem?_putAll (Q := (· = m.layers[i]?)) _ _ rfl fun l hl hi => ?_
  rw [h l hl, Array.getElem?_eq_getElem hi]
  rfl

/-- Writing a scope back, as far as a layer shares what it shares itself. -/
theorem shared_putScope {layers : List Nat} {s : Scope} (hs : (m.scope layers).Written s) (i : Nat) :
    ((m.putScope layers s).layers[i]?).map Layer.shared = (m.layers[i]?).map Layer.shared := by
  refine getElem?_putAll (Q := fun l => l.map Layer.shared = (m.layers[i]?).map Layer.shared) _ _
    rfl fun l hl hi => ?_
  obtain ⟨j, hj, he⟩ := List.getElem_of_mem hl
  have hat : s[j]?.map Layer.shared = (m.scope layers)[j]?.map Layer.shared := by
    rw [← List.getElem?_map, ← List.getElem?_map, hs.shared]
  simp only [List.getElem_zip, Prod.mk.injEq, List.length_zip, Nat.lt_min] at he hj
  rw [List.getElem?_eq_getElem hj.2, he.2] at hat
  rw [hat]
  simp [scope, List.getElem?_eq_getElem hj.1, he.1, Array.getElem?_eq_getElem hi]

/-- A scope of layers that are all different holds what was last written to it as a whole. -/
theorem scope_putScope {layers : List Nat} {s : Scope} (hn : layers.Nodup)
    (hlt : ∀ i ∈ layers, i < m.layers.size) (hs : s.length = layers.length) :
    (m.putScope layers s).scope layers = s := by
  refine List.ext_getElem (by simp [scope, hs]) fun k hk hk' => ?_
  have hkl : k < layers.length := hs ▸ hk'
  have hmem : (layers[k], s[k]) ∈ layers.zip s :=
    List.mem_iff_getElem.mpr ⟨k, by rw [List.length_zip]; omega, by simp⟩
  have hat : (m.putScope layers s).layers[layers[k]]? = some s[k] := by
    refine getElem?_putAll_of_mem _ _ hmem (fun l hl => ?_) (hlt _ (List.getElem_mem hkl))
    obtain ⟨j, hj, he⟩ := List.getElem_of_mem hl
    simp only [List.getElem_zip, Prod.mk.injEq] at he
    have hjl : j < layers.length := by rw [List.length_zip] at hj; omega
    have hne := List.pairwise_iff_getElem.mp hn
    obtain rfl : j = k := by
      rcases Nat.lt_trichotomy j k with h | h | h
      · exact absurd he.1 (hne j k hjl hkl h)
      · exact h
      · exact absurd he.1.symm (hne k j hkl hjl h)
    exact he.2.symm
  simp [scope, hat]

/-- What a run has done to its layers: writes through scopes whose layers are of some kind, and new
layers. -/
inductive Spreads (P : Nat → List Nat → Prop) (m : Machine) : Machine → Prop
  | same {n : Machine} (h : n.layers = m.layers) : Spreads P m n
  | put {n o : Machine} {layers : List Nat} {s : Scope} (h : Spreads P m n)
      (hl : P n.layers.size layers) (hs : (n.scope layers).Written s)
      (ho : o.layers = (n.putScope layers s).layers) : Spreads P m o
  | add {n o : Machine} {l : Layer} (h : Spreads P m n) (ho : o.layers = n.layers.push l) :
      Spreads P m o

namespace Spreads

theorem refl (m : Machine) : Spreads P m m :=
  .same rfl

theorem trans (h : Spreads P m n) (k : Spreads P n o) : Spreads P m o := by
  induction k with
  | same he =>
    cases h with
    | same hn => exact .same (he.trans hn)
    | put h hl hs ho => exact .put h hl hs (he.trans ho)
    | add h ho => exact .add h (he.trans ho)
  | put _ hl hs ho ih => exact .put ih hl hs ho
  | add _ ho ih => exact .add ih ho

theorem size_le (h : Spreads P m n) : m.layers.size ≤ n.layers.size := by
  induction h with
  | same h => exact Nat.le_of_eq (congrArg Array.size h.symm)
  | put _ _ _ ho ih => rwa [ho, size_putScope]
  | add _ ho ih => rw [ho, Array.size_push]; exact Nat.le_succ_of_le ih

theorem write {layers : List Nat} (h : P m.layers.size layers) (values : Entries Value) :
    Spreads P m (m.write layers values) :=
  .put (.refl m) h (.update _ values) rfl

theorem addLayer (m : Machine) (l : Layer) (layers : List Nat) :
    Spreads P m (m.addLayer l layers).1 :=
  .add (.refl m) rfl

end Spreads

/-- Layers in the order in which they were made, the newest first. -/
structure IsChain (size : Nat) (layers : List Nat) : Prop where
  ne_nil : layers ≠ []
  descends : layers.Pairwise (· > ·)
  lt : ∀ i ∈ layers, i < size

/-- A scope after it has been written to as a whole. -/
theorem scope_write {layers : List Nat} (h : IsChain m.layers.size layers) (values : Entries Value) :
    (m.write layers values).scope layers = (m.scope layers).update values :=
  scope_putScope (h.descends.imp fun hij => Nat.ne_of_gt hij) h.lt
    ((Scope.Written.update _ values).length.trans (by simp [scope]))

/-- Layers in front of one, with others behind it. -/
def Inside (i : Nat) (behind : List Nat) (size : Nat) (layers : List Nat) : Prop :=
  ∃ near, layers = near ++ i :: behind ∧ (∀ j ∈ near, i < j) ∧ i < size

/-- The layers before one are as they were, and that one still shares nothing. -/
structure Keeps (i : Nat) (m n : Machine) : Prop where
  layers : ∀ j < i, n.layers[j]? = m.layers[j]?
  apart : (n.layers[i]?).map Layer.shared = (m.layers[i]?).map Layer.shared

theorem mem_zip_scope {layers : List Nat} {j : Nat} {l : Layer}
    (h : (j, l) ∈ layers.zip (m.scope layers)) : l = (m.layers[j]?).getD {} := by
  have hz := List.zip_map' (f := id) (g := fun i => (m.layers[i]?).getD {}) (l := layers)
  rw [List.map_id] at hz
  rw [scope, hz, List.mem_map] at h
  obtain ⟨a, -, he⟩ := h
  cases he
  rfl

/-- Writes through scopes that lie in front of a layer that shares nothing end there. -/
theorem Spreads.keeps {i : Nat} {behind : List Nat} {l : Layer} (h : Spreads (Inside i behind) m n)
    (hi : m.layers[i]? = some l) (hl : l.shared = false) : Keeps i m n := by
  induction h with
  | same h => exact ⟨fun _ _ => by rw [h], by rw [h]⟩
  | @put n o layers s _ hin hs ho ih =>
    obtain ⟨near, rfl, hnear, hlt⟩ := hin
    have hapart : ∃ k, n.layers[i]? = some k ∧ k.shared = false := by
      have := ih.apart
      rw [hi, Option.map_some, Option.map_eq_some_iff] at this
      obtain ⟨k, hk, hks⟩ := this
      exact ⟨k, hk, by rw [hks, hl]⟩
    obtain ⟨k, hk, hks⟩ := hapart
    refine ⟨fun j hj => ?_, ?_⟩
    · rw [ho, ← ih.layers j hj]
      refine layers_putScope fun l' hl' => ?_
      have hscope : n.scope (near ++ i :: behind) = n.scope near ++ k :: n.scope behind := by
        simp [scope, hk]
      rw [hscope] at hs
      obtain ⟨front, rfl, hlen⟩ := hs.append hks
      rw [List.append_cons, List.zip_append (by simp [hlen, scope])] at hl'
      rcases List.mem_append.mp hl' with hl' | hl'
      · have := (List.of_mem_zip hl').1
        rcases List.mem_append.mp this with hm | hm
        · exact absurd hj (Nat.lt_asymm (hnear j hm))
        · rw [List.mem_singleton.mp hm] at hj
          exact absurd hj (Nat.lt_irrefl _)
      · exact mem_zip_scope hl'
    · rw [ho, ← ih.apart]
      exact shared_putScope hs i
  | @add n o l' _ ho ih =>
    have hlt : i < n.layers.size := by
      have := ih.apart
      rw [hi, Option.map_some, Option.map_eq_some_iff] at this
      obtain ⟨k, hk, -⟩ := this
      exact (Array.getElem?_eq_some_iff.mp hk).1
    have hpush (j : Nat) (hj : j ≤ i) : o.layers[j]? = n.layers[j]? := by
      rw [ho, Array.getElem?_push, if_neg (by omega)]
    exact ⟨fun j hj => by rw [hpush j (Nat.le_of_lt hj), ih.layers j hj],
      by rw [hpush i (Nat.le_refl i), ih.apart]⟩

end Machine

end Workflow
