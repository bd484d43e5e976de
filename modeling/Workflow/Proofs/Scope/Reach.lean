import Workflow.Proofs.Run.Layers
import Workflow.Proofs.Scope.Snapshot
/-!
How far what is done through a scope goes. A write or a deletion changes one layer, and none behind the
owner, which is the nearest layer that shares nothing. All that can be done to a scope as to a map is made of
these two, also emptying it, which takes out first names until the first one lies behind the owner.
-/

namespace Workflow

namespace Layer

def bind (key : String) (v : Value) (l : Layer) : Layer :=
  { l with bindings := Entries.insert key v l.bindings }

def unbind (key : String) (l : Layer) : Layer :=
  { l with bindings := Entries.erase key l.bindings }

def vacate (l : Layer) : Layer :=
  { l with bindings := [] }

/-- A change of what a layer binds, no name twice. -/
structure IsEdit (f : Layer → Layer) : Prop where
  shared : ∀ l, (f l).shared = l.shared
  nodup : ∀ l : Layer, (Entries.keys l.bindings).Nodup → (Entries.keys (f l).bindings).Nodup

theorem isEdit_bind (key : String) (v : Value) : IsEdit (bind key v) :=
  ⟨fun _ => rfl, fun _ h => Entries.nodup_keys_insert h⟩

theorem isEdit_unbind (key : String) : IsEdit (unbind key) :=
  ⟨fun _ => rfl, fun _ h => Entries.nodup_keys_erase h⟩

end Layer

namespace Scope

variable {s s' t : Scope} {l : Layer} {key : String} {v : Value} {i : Nat}

/-- The place of the nearest layer that shares nothing; the farthest one never shares in effect. -/
def owner : Scope → Nat
  | [] => 0
  | l :: s => if l.shared && !s.isEmpty then owner s + 1 else 0

theorem owner_shared (hc : (l.shared && !s.isEmpty) = true) : owner (l :: s) = s.owner + 1 := by
  rw [owner, if_pos hc]

theorem owner_apart (hc : ¬(l.shared && !s.isEmpty) = true) : owner (l :: s) = 0 := by
  rw [owner, if_neg hc]

/-- All layers before the owner share, and the owner itself does not or has none behind it. -/
structure IsOwner (s : Scope) (o : Nat) : Prop where
  lt : o < s.length
  shares : ∀ l ∈ s.take o, l.shared = true
  apart : ∀ l, s[o]? = some l → l.shared = false ∨ o + 1 = s.length

theorem isOwner_owner (hs : s ≠ []) : s.IsOwner s.owner := by
  induction s with
  | nil => exact absurd rfl hs
  | cons l s ih =>
    by_cases hc : (l.shared && !s.isEmpty) = true
    · rw [owner_shared hc]
      rw [Bool.and_eq_true, Bool.not_eq_true', List.isEmpty_eq_false_iff] at hc
      have ho := ih hc.2
      refine ⟨Nat.succ_lt_succ ho.lt, ?_, fun k hk => ?_⟩
      · rw [List.take_succ_cons, List.forall_mem_cons]
        exact ⟨hc.1, ho.shares⟩
      · rw [List.length_cons, Nat.succ_inj]
        exact ho.apart k hk
    · rw [owner_apart hc]
      refine ⟨Nat.succ_pos _, by simp, fun k hk => ?_⟩
      obtain rfl : l = k := Option.some.inj hk
      cases hl : l.shared with
      | false => exact .inl rfl
      | true =>
        rw [hl, Bool.true_and, Bool.not_eq_true', Bool.not_eq_false] at hc
        rw [List.isEmpty_iff.mp hc]
        exact .inr rfl

theorem owner_congr (h : s'.map Layer.shared = s.map Layer.shared) : s'.owner = s.owner := by
  induction s generalizing s' with
  | nil => rw [List.map_eq_nil_iff.mp h]
  | cons l s ih =>
    obtain ⟨l', t, rfl, hl, ht⟩ := List.map_eq_cons_iff.mp h
    have hempty : t.isEmpty = s.isEmpty := by
      rw [← List.isEmpty_map (f := Layer.shared), ht, List.isEmpty_map]
    rw [owner, owner, hl, hempty, ih ht]

/-! Writes and deletions. -/

/-- No layer binds a name. -/
def IsFree (key : String) (s : Scope) : Prop :=
  ∀ l ∈ s, Entries.contains key l.bindings = false

/-- The first layer that binds a name. -/
structure BindsFirst (s : Scope) (key : String) (i : Nat) : Prop where
  free : IsFree key (s.take i)
  bound : ∃ l, s[i]? = some l ∧ Entries.contains key l.bindings = true

theorem BindsFirst.here (h : Entries.contains key l.bindings = true) : BindsFirst (l :: s) key 0 :=
  ⟨by simp [IsFree], l, rfl, h⟩

theorem BindsFirst.succ (hl : Entries.contains key l.bindings = false) (h : s.BindsFirst key i) :
    BindsFirst (l :: s) key (i + 1) := by
  refine ⟨?_, h.bound⟩
  rw [List.take_succ_cons, IsFree, List.forall_mem_cons]
  exact ⟨hl, h.free⟩

/-- Where a write goes: to the first layer up to the owner that binds the name, and else to the owner. -/
def IsTarget (s : Scope) (key : String) (i : Nat) : Prop :=
  i ≤ s.owner ∧ s.BindsFirst key i ∨ i = s.owner ∧ IsFree key (s.take (s.owner + 1))

theorem IsTarget.le (h : s.IsTarget key i) : i ≤ s.owner := by
  obtain ⟨h, -⟩ | ⟨rfl, -⟩ := h
  · exact h
  · exact Nat.le_refl _

theorem IsTarget.succ (hc : (l.shared && !s.isEmpty) = true)
    (hl : Entries.contains key l.bindings = false) (h : s.IsTarget key i) :
    IsTarget (l :: s) key (i + 1) := by
  rw [IsTarget, owner_shared hc, Nat.succ_le_succ_iff, Nat.succ_inj, List.take_succ_cons, IsFree,
    List.forall_mem_cons]
  obtain ⟨hi, hb⟩ | ⟨hi, hf⟩ := h
  · exact .inl ⟨hi, hb.succ hl⟩
  · exact .inr ⟨hi, hl, hf⟩

theorem set_eq_modify (hs : s ≠ []) (key : String) (v : Value) :
    ∃ i, s.IsTarget key i ∧ s.set key v = s.modify i (Layer.bind key v) := by
  induction s with
  | nil => exact absurd rfl hs
  | cons l s ih =>
    cases hl : Entries.contains key l.bindings with
    | true =>
      rw [set, hl, Bool.not_true, Bool.and_false]
      exact ⟨0, .inl ⟨Nat.zero_le _, .here hl⟩, rfl⟩
    | false =>
      rw [set, hl, Bool.not_false, Bool.and_true]
      by_cases hc : (l.shared && !s.isEmpty) = true
      · obtain ⟨i, hi, hset⟩ := ih (by rintro rfl; simp at hc)
        exact ⟨i + 1, hi.succ hc hl, by rw [if_pos hc, hset]; rfl⟩
      · refine ⟨0, .inr ?_, by rw [if_neg hc]; rfl⟩
        rw [owner_apart hc]
        exact ⟨rfl, by simpa [IsFree] using hl⟩

theorem erase?_eq_some (h : s.erase? key = some s') :
    ∃ i ≤ s.owner, s.BindsFirst key i ∧ s' = s.modify i (Layer.unbind key) := by
  induction s generalizing s' with
  | nil => cases h
  | cons l s ih =>
    rw [erase?] at h
    cases hl : Entries.contains key l.bindings with
    | true =>
      rw [hl, if_pos rfl] at h
      cases h
      exact ⟨0, Nat.zero_le _, .here hl, rfl⟩
    | false =>
      rw [hl, if_neg Bool.false_ne_true] at h
      by_cases hc : (l.shared && !s.isEmpty) = true
      · rw [if_pos hc] at h
        obtain ⟨t, ht, rfl⟩ := Option.map_eq_some_iff.mp h
        obtain ⟨i, hi, hb, rfl⟩ := ih ht
        exact ⟨i + 1, by rw [owner_shared hc]; omega, hb.succ hl, rfl⟩
      · rw [if_neg hc] at h
        cases h

theorem erase?_eq_none_iff : s.erase? key = none ↔ IsFree key (s.take (s.owner + 1)) := by
  induction s with
  | nil => simp [erase?, IsFree]
  | cons l s ih =>
    rw [erase?, List.take_succ_cons, IsFree, List.forall_mem_cons]
    cases hl : Entries.contains key l.bindings with
    | true => simp
    | false =>
      rw [if_neg Bool.false_ne_true]
      by_cases hc : (l.shared && !s.isEmpty) = true
      · rw [if_pos hc, owner_shared hc, Option.map_eq_none_iff, ih]
        simp [IsFree]
      · rw [if_neg hc, owner_apart hc]
        simp

/-- Scopes that differ in what one layer binds one name to. -/
structure DiffersAt (i : Nat) (key : String) (w : Option Value) (s s' : Scope) : Prop where
  length : s'.length = s.length
  others : ∀ j, j ≠ i → s'[j]? = s[j]?
  here : ∃ l l', s[i]? = some l ∧ s'[i]? = some l' ∧ l'.shared = l.shared ∧
    ∀ name, Entries.find? name l'.bindings = if name = key then w else Entries.find? name l.bindings

theorem differsAt_modify {f : Layer → Layer} {w : Option Value} (hi : i < s.length)
    (hshared : ∀ l ∈ s, (f l).shared = l.shared)
    (hbind : ∀ l ∈ s, ∀ name, Entries.find? name (f l).bindings =
      if name = key then w else Entries.find? name l.bindings) :
    DiffersAt i key w s (s.modify i f) := by
  have hmem : s[i] ∈ s := List.getElem_mem hi
  refine ⟨List.length_modify .., fun j hj => ?_, s[i], f s[i], List.getElem?_eq_getElem hi, ?_,
    hshared _ hmem, hbind _ hmem⟩
  · rw [List.getElem?_modify_ne _ _ (Ne.symm hj)]
  · rw [List.getElem?_modify_eq, List.getElem?_eq_getElem hi]
    rfl

theorem BindsFirst.lt (h : s.BindsFirst key i) : i < s.length := by
  obtain ⟨l, hl, -⟩ := h.bound
  exact (List.getElem?_eq_some_iff.mp hl).1

/-! Everything that is done to a scope as to a map. -/

/-- A scope after changes of layers up to its owner. -/
inductive Rewritten (s : Scope) : Scope → Prop
  | refl : Rewritten s s
  | edit {t : Scope} {i : Nat} {f : Layer → Layer} (h : Rewritten s t) (hi : i ≤ t.owner)
      (hf : Layer.IsEdit f) : Rewritten s (t.modify i f)

theorem map_shared_modify {f : Layer → Layer} (hf : Layer.IsEdit f) (i : Nat) (s : Scope) :
    (s.modify i f).map Layer.shared = s.map Layer.shared := by
  refine List.ext_getElem? fun j => ?_
  rw [List.getElem?_map, List.getElem?_map, List.getElem?_modify]
  split
  · cases s[j]? with
    | none => rfl
    | some l => exact congrArg some (hf.shared l)
  · simp

theorem IsProper.modify {f : Layer → Layer} (h : s.IsProper) (hf : Layer.IsEdit f) (i : Nat) :
    IsProper (s.modify i f) := by
  intro l hl
  obtain ⟨j, hj⟩ := List.getElem?_of_mem hl
  rw [List.getElem?_modify, Option.map_eq_map, Option.map_eq_some_iff] at hj
  obtain ⟨k, hk, rfl⟩ := hj
  have hk := h k (List.mem_of_getElem? hk)
  split
  · exact hf.nodup k hk
  · exact hk

theorem pop?_eq_some_iff :
    s.pop? key = some (v, s') ↔ s.find? key = some v ∧ s.erase? key = some s' := by
  rw [pop?]
  cases s.find? key with
  | none => simp
  | some w => cases s.erase? key <;> simp

namespace Rewritten

theorem trans (h : Rewritten s s') (k : Rewritten s' t) : Rewritten s t := by
  induction k with
  | refl => exact h
  | edit _ hi hf ih => exact ih.edit hi hf

theorem shared (h : Rewritten s t) : t.map Layer.shared = s.map Layer.shared := by
  induction h with
  | refl => rfl
  | edit _ _ hf ih => rw [map_shared_modify hf, ih]

theorem ne_nil (h : Rewritten s t) (hs : s ≠ []) : t ≠ [] := by
  rintro rfl
  exact hs (List.map_eq_nil_iff.mp h.shared.symm)

theorem isProper (h : Rewritten s t) (hp : s.IsProper) : t.IsProper := by
  induction h with
  | refl => exact hp
  | edit _ _ hf ih => exact ih.modify hf _

/-- Layers behind the owner are as they were. -/
theorem behind (h : Rewritten s t) : t.drop (s.owner + 1) = s.drop (s.owner + 1) := by
  induction h with
  | refl => rfl
  | @edit t i f h hi hf ih =>
    rw [owner_congr h.shared] at hi
    rw [← ih]
    refine List.ext_getElem? fun j => ?_
    have hne : i ≠ s.owner + 1 + j := by omega
    rw [List.getElem?_drop, List.getElem?_drop, List.getElem?_modify_ne f t hne]

theorem set (h : Rewritten s t) (key : String) (v : Value) : Rewritten s (t.set key v) := by
  cases t with
  | nil => exact h
  | cons l t =>
    obtain ⟨i, hi, hset⟩ := set_eq_modify (List.cons_ne_nil l t) key v
    rw [hset]
    exact h.edit hi.le (Layer.isEdit_bind key v)

theorem erase? (h : Rewritten s t) (he : t.erase? key = some s') : Rewritten s s' := by
  obtain ⟨i, hi, -, rfl⟩ := erase?_eq_some he
  exact h.edit hi (Layer.isEdit_unbind key)

theorem update (h : Rewritten s t) (entries : Entries Value) : Rewritten s (t.update entries) := by
  induction entries generalizing t with
  | nil => exact h
  | cons e entries ih => exact ih (h.set e.1 e.2)

theorem getOrSet (h : Rewritten s t) (key : String) (v : Value) :
    Rewritten s (t.getOrSet key v).2 := by
  rw [Scope.getOrSet]
  split
  · exact h
  · exact h.set key v

theorem pop? (h : Rewritten s t) (hp : t.pop? key = some (v, s')) : Rewritten s s' :=
  h.erase? (pop?_eq_some_iff.mp hp).2

end Rewritten

/-! Emptying a scope. -/

/-- Takes out the first name that iterating comes across; nothing if there is none or if it is bound
behind the owner. -/
def popItem? (s : Scope) : Option ((String × Value) × Scope) := do
  let key ← s.keys.head?
  let (v, s) ← s.pop? key
  return ((key, v), s)

/-- First names are taken out of a scope until that is not possible any more. -/
inductive Empties : Scope → Entries Value → Scope → Prop
  | done {s : Scope} (h : s.popItem? = none) : Empties s [] s
  | pop {s s' t : Scope} {e : String × Value} {es : Entries Value} (h : s.popItem? = some (e, s'))
      (rest : Empties s' es t) : Empties s (e :: es) t

/-- Layers up to the owner bind nothing any more, those behind it what they bound. -/
def vacated (s : Scope) : Scope :=
  (s.take (s.owner + 1)).map Layer.vacate ++ s.drop (s.owner + 1)

/-- All that is bound up to the owner, in the order of the layers. -/
def owned (s : Scope) : Entries Value :=
  (s.take (s.owner + 1)).flatMap Layer.bindings

theorem popItem?_bound (e : String × Value) (es : Entries Value) (shared : Bool) (s : Scope) :
    popItem? (⟨e :: es, shared⟩ :: s) = some (e, ⟨es, shared⟩ :: s) := by
  simp [popItem?, keys, Entries.keys, pop?, find?, erase?, Entries.find?, Entries.contains, Entries.erase]

theorem pop?_vacant (key : String) (shared : Bool) (s : Scope) :
    pop? key (⟨[], shared⟩ :: s) =
      if shared && !s.isEmpty then (s.pop? key).map fun (v, t) => (v, ⟨[], shared⟩ :: t) else none := by
  have hfind : find? key (⟨[], shared⟩ :: s) = s.find? key := rfl
  have herase : erase? key (⟨[], shared⟩ :: s) =
      if shared && !s.isEmpty then (s.erase? key).map (⟨[], shared⟩ :: ·) else none := rfl
  rw [pop?, pop?, hfind, herase]
  cases s.find? key with
  | none => split <;> rfl
  | some v => split <;> cases s.erase? key <;> rfl

theorem popItem?_vacant (shared : Bool) (s : Scope) :
    popItem? (⟨[], shared⟩ :: s) =
      if shared && !s.isEmpty then s.popItem?.map fun (e, t) => (e, ⟨[], shared⟩ :: t) else none := by
  have hkeys : keys (⟨[], shared⟩ :: s) = s.keys := List.filter_eq_self.mpr fun _ _ => rfl
  rw [popItem?, hkeys, popItem?]
  cases s.keys.head? with
  | none => split <;> rfl
  | some key =>
    rw [Option.bind_eq_bind, Option.bind_some, Option.bind_eq_bind, Option.bind_some, pop?_vacant]
    split <;> cases s.pop? key <;> rfl

theorem pop?_of_popItem? {e : String × Value} (h : s.popItem? = some (e, s')) :
    s.pop? e.1 = some (e.2, s') := by
  rw [popItem?, Option.bind_eq_bind, Option.bind_eq_some_iff] at h
  obtain ⟨key, -, h⟩ := h
  obtain ⟨⟨v, t⟩, hp, h⟩ := Option.bind_eq_some_iff.mp h
  cases h
  exact hp

theorem Rewritten.popItem? {e : String × Value} (h : Rewritten s t) (hp : t.popItem? = some (e, s')) :
    Rewritten s s' :=
  h.pop? (pop?_of_popItem? hp)

theorem Empties.rewritten {es : Entries Value} (h : Empties s es t) : Rewritten s t := by
  induction h with
  | done => exact .refl
  | pop h _ ih => exact (Rewritten.refl.popItem? h).trans ih

/-- A vacant layer in front that shares is passed over. -/
theorem Empties.behind {es : Entries Value} (h : Empties s es t) (hs : s ≠ []) :
    Empties (⟨[], true⟩ :: s) es (⟨[], true⟩ :: t) := by
  induction h with
  | @done s h =>
    refine .done ?_
    rw [popItem?_vacant, h]
    split <;> rfl
  | @pop s s' t e es h rest ih =>
    have hpop : popItem? (⟨[], true⟩ :: s) = some (e, ⟨[], true⟩ :: s') := by
      rw [popItem?_vacant, h, Bool.true_and, List.isEmpty_eq_false_iff.mpr hs]
      rfl
    exact .pop hpop (ih ((Rewritten.refl.popItem? h).ne_nil hs))

/-- Taking out first names takes all that is bound up to the owner, layer after layer. -/
theorem empties_vacated (s : Scope) : Empties s s.owned s.vacated := by
  induction s with
  | nil => exact .done rfl
  | cons l s ih =>
    obtain ⟨bs, shared⟩ := l
    induction bs with
    | nil =>
      by_cases hc : (shared && !s.isEmpty) = true
      · have howner : owner (⟨[], shared⟩ :: s) = owner s + 1 := owner_shared hc
        rw [owned, vacated, howner]
        rw [Bool.and_eq_true, Bool.not_eq_true', List.isEmpty_eq_false_iff] at hc
        obtain rfl := hc.1
        exact ih.behind hc.2
      · have howner : owner (⟨[], shared⟩ :: s) = 0 := owner_apart hc
        rw [owned, vacated, howner]
        exact .done (by rw [popItem?_vacant, if_neg hc])
    | cons e bs ihb => exact .pop (popItem?_bound e bs shared s) ihb

theorem clearSteps_succ (fuel : Nat) (s : Scope) :
    clearSteps (fuel + 1) s =
      match s.popItem? with
      | some (_, s) => clearSteps fuel s
      | none => s := by
  rw [clearSteps, popItem?]
  cases s.keys.head? with
  | none => rfl
  | some key =>
    rw [Option.bind_some, Option.bind_eq_bind, Option.bind_some]
    cases s.pop? key <;> rfl

theorem Empties.clearSteps_eq {es : Entries Value} (h : Empties s es t) {fuel : Nat}
    (hf : es.length ≤ fuel) : clearSteps fuel s = t := by
  induction h generalizing fuel with
  | done h =>
    cases fuel with
    | zero => rfl
    | succ fuel => rw [clearSteps_succ, h]
  | pop h _ ih =>
    cases fuel with
    | zero => cases hf
    | succ fuel =>
      rw [clearSteps_succ, h]
      exact ih (Nat.le_of_succ_le_succ hf)

theorem length_owned_le (s : Scope) : s.owned.length ≤ s.bindingCount := by
  have hcount (s : Scope) : s.bindingCount = (s.flatMap Layer.bindings).length := by
    induction s with
    | nil => rfl
    | cons l s ih => rw [List.flatMap_cons, List.length_append, ← ih]; rfl
  have hsplit : s.flatMap Layer.bindings = s.owned ++ (s.drop (s.owner + 1)).flatMap Layer.bindings := by
    rw [owned, ← List.flatMap_append, List.take_append_drop]
  rw [hcount, hsplit, List.length_append]
  exact Nat.le_add_right _ _

/-- There are enough steps for all that has to be taken out. -/
theorem clear_eq_vacated (s : Scope) : s.clear = s.vacated :=
  (empties_vacated s).clearSteps_eq (length_owned_le s)

/-! What is done to a scope as a map. -/

/-- What can be done to a scope as to a map. -/
inductive Operation where
  | set (key : String) (v : Value)
  | erase (key : String)
  | pop (key : String)
  | popItem
  | getOrSet (key : String) (v : Value)
  | update (entries : Entries Value)
  | clear

/-- A scope after an operation, as it was if the operation fails. -/
def Operation.perform (s : Scope) : Operation → Scope
  | set key v => s.set key v
  | erase key => (s.erase? key).getD s
  | pop key => ((s.pop? key).map (·.2)).getD s
  | popItem => (s.popItem?.map (·.2)).getD s
  | getOrSet key v => (s.getOrSet key v).2
  | update entries => s.update entries
  | clear => s.clear

theorem Rewritten.perform (h : Rewritten s t) (op : Operation) : Rewritten s (op.perform t) := by
  cases op with
  | set key v => exact h.set key v
  | erase key =>
    rw [Operation.perform]
    cases he : t.erase? key with
    | none => exact h
    | some s' => exact h.erase? he
  | pop key =>
    rw [Operation.perform]
    cases hp : t.pop? key with
    | none => exact h
    | some r => exact h.pop? hp
  | popItem =>
    rw [Operation.perform]
    cases hp : t.popItem? with
    | none => exact h
    | some r => exact h.popItem? hp
  | getOrSet key v => exact h.getOrSet key v
  | update entries => exact h.update entries
  | clear =>
    rw [Operation.perform, clear_eq_vacated]
    exact h.trans (empties_vacated t).rewritten

theorem Rewritten.performAll (h : Rewritten s t) (ops : List Operation) :
    Rewritten s (ops.foldl Operation.perform t) := by
  induction ops generalizing t with
  | nil => exact h
  | cons op ops ih => exact ih (h.perform op)

/-- How far what is done through the first layer of a scope goes. -/
structure IsConfined (s : Scope) : Prop where
  owner : s.IsOwner s.owner
  /-- A write changes one layer and what it binds the name to. -/
  set : ∀ key v, ∃ i, s.IsTarget key i ∧ DiffersAt i key (some v) s (s.set key v)
  read : ∀ key v name, (s.set key v).find? name = if name = key then some v else s.find? name
  /-- A deletion takes the name out of the first layer up to the owner that binds it, if there is one. -/
  erase : ∀ key s', s.erase? key = some s' →
    ∃ i ≤ s.owner, s.BindsFirst key i ∧ DiffersAt i key none s s'
  missing : ∀ key, s.erase? key = none ↔ IsFree key (s.take (s.owner + 1))
  pop : ∀ key v s', s.pop? key = some (v, s') ↔ s.find? key = some v ∧ s.erase? key = some s'
  /-- Whatever is done, the layers stay, each shares what it shared, and those behind the owner bind what
  they bound. -/
  behind : ∀ ops : List Operation,
    (ops.foldl Operation.perform s).map Layer.shared = s.map Layer.shared ∧
    (ops.foldl Operation.perform s).drop (s.owner + 1) = s.drop (s.owner + 1)
  proper : ∀ ops : List Operation, IsProper (ops.foldl Operation.perform s)
  /-- Emptying ends where first names can be taken out no more, and then all is taken out up to the owner. -/
  clear : Empties s s.owned s.clear ∧ s.clear = s.vacated

/-- Whatever layers lie in a scope, what is done through it lands in one layer at a time and does not go
beyond the owner. -/
theorem writes_confined (s : Scope) (hs : s ≠ []) (hp : s.IsProper) : s.IsConfined where
  owner := isOwner_owner hs
  set := fun key v => by
    obtain ⟨i, hi, hset⟩ := set_eq_modify hs key v
    rw [hset]
    exact ⟨i, hi, differsAt_modify (Nat.lt_of_le_of_lt hi.le (isOwner_owner hs).lt) (fun _ _ => rfl)
      fun l _ name => Entries.find?_insert key name v l.bindings⟩
  read := fun key v name => find?_set hs key name v
  erase := fun key s' h => by
    obtain ⟨i, hi, hb, rfl⟩ := erase?_eq_some h
    exact ⟨i, hi, hb, differsAt_modify hb.lt (fun _ _ => rfl)
      fun l hl name => Entries.find?_erase (hp l hl) key name⟩
  missing := fun key => erase?_eq_none_iff
  pop := fun key v s' => pop?_eq_some_iff
  behind := fun ops =>
    have h := Rewritten.refl.performAll ops
    ⟨h.shared, h.behind⟩
  proper := fun ops => (Rewritten.refl.performAll ops).isProper hp
  clear := by
    rw [clear_eq_vacated]
    exact ⟨empties_vacated s, rfl⟩

/-- A loop in a loop in a call that is apart from its caller. -/
def nestedLoops : Scope := [
  { bindings := [("item", .int 3)], shared := true },
  { bindings := [("item", .int 2), ("index", .int 0)], shared := true },
  { bindings := [("x", .int 1)] },
  { bindings := [("x", .bool true), ("y", .str "out")] }]

theorem writes_confined_nestedLoops : nestedLoops ≠ [] ∧ nestedLoops.IsProper ∧
    nestedLoops.owner = 2 ∧ nestedLoops.clear = [
      { bindings := [], shared := true }, { bindings := [], shared := true }, { bindings := [] },
      { bindings := [("x", .bool true), ("y", .str "out")] }] ∧ nestedLoops.IsConfined := by
  have hp : nestedLoops.IsProper := by
    intro l hl
    simp only [nestedLoops, List.mem_cons, List.not_mem_nil, or_false] at hl
    obtain rfl | rfl | rfl | rfl := hl <;> decide
  have hs : nestedLoops ≠ [] := List.cons_ne_nil _ _
  exact ⟨hs, hp, rfl, rfl, writes_confined nestedLoops hs hp⟩

end Scope

end Workflow
