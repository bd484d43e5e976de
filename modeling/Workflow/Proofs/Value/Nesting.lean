import Workflow.Value.Nesting
/-!
What bounds on a value say: how far each value within it lies from its outside, and how many items the lists
within it have. Looking for an excess finds one if and only if there is one.
-/

namespace Workflow

namespace Value

/-- A value lies so many steps inside another: a step leads from a list to an item and from an object to
what a field holds. -/
inductive Inside (w : Value) : Nat → Value → Prop
  | here : Inside w 0 w
  | item {n : Nat} {v : Value} {items : List Value} (hv : v ∈ items) (h : Inside w n v) :
      Inside w (n + 1) (.list items)
  | field {n : Nat} {key : String} {v : Value} {fields : List (String × Value)}
      (hv : (key, v) ∈ fields) (h : Inside w n v) : Inside w (n + 1) (.obj fields)

/-- Everything inside a value that lies at some depth is within bounds. -/
structure IsWithinFrom (b : Bounds) (depth : Nat) (v : Value) : Prop where
  nests : ∀ {n w}, Inside w n v → depth + n ≤ b.depth
  items : ∀ {n items}, Inside (.list items) n v → items.length ≤ b.items

/-- A value nests as deep as bounds allow, and each list in it is as long as they allow. -/
abbrev IsWithin (b : Bounds) (v : Value) : Prop :=
  IsWithinFrom b 0 v

variable {b : Bounds} {depth : Nat} {v : Value}

theorem isWithinFrom_list {items : List Value} : IsWithinFrom b depth (.list items) ↔
    depth ≤ b.depth ∧ items.length ≤ b.items ∧ ∀ v ∈ items, IsWithinFrom b (depth + 1) v := by
  constructor
  · intro h
    refine ⟨h.nests .here, h.items .here, fun v hv => ⟨fun hw => ?_, fun hw => h.items (.item hv hw)⟩⟩
    have hn := h.nests (.item hv hw)
    omega
  · rintro ⟨hd, hl, hall⟩
    refine ⟨fun hw => ?_, fun hw => ?_⟩
    · cases hw with
      | here => exact hd
      | item hv hw =>
        have hn := (hall _ hv).nests hw
        omega
    · cases hw with
      | here => exact hl
      | item hv hw => exact (hall _ hv).items hw

theorem isWithinFrom_obj {fields : List (String × Value)} : IsWithinFrom b depth (.obj fields) ↔
    depth ≤ b.depth ∧ ∀ f ∈ fields, IsWithinFrom b (depth + 1) f.2 := by
  constructor
  · intro h
    refine ⟨h.nests .here, fun f hf => ⟨fun hw => ?_, fun hw => h.items (.field hf hw)⟩⟩
    have hn := h.nests (.field hf hw)
    omega
  · rintro ⟨hd, hall⟩
    refine ⟨fun hw => ?_, fun hw => ?_⟩
    · cases hw with
      | here => exact hd
      | field hv hw =>
        have hn := (hall _ hv).nests hw
        omega
    · cases hw with
      | field hv hw => exact (hall _ hv).items hw

/-- A value with nothing inside it. -/
theorem isWithinFrom_leaf (hl : ∀ items, v ≠ .list items) (ho : ∀ fields, v ≠ .obj fields) :
    IsWithinFrom b depth v ↔ depth ≤ b.depth := by
  refine ⟨fun h => h.nests .here, fun hd => ⟨fun hw => ?_, fun hw => ?_⟩⟩
  · cases hw with
    | here => exact hd
    | item => exact absurd rfl (hl _)
    | field => exact absurd rfl (ho _)
  · cases hw with
    | here => exact absurd rfl (hl _)
    | item => exact absurd rfl (hl _)
    | field => exact absurd rfl (ho _)

theorem excess?_leaf (hl : ∀ items, v ≠ .list items) (ho : ∀ fields, v ≠ .obj fields) :
    excess? b depth v = if depth > b.depth then some (.depth b.depth) else none := by
  rw [excess?]
  · exact hl
  · exact ho

theorem leaf_eq_none_iff (hl : ∀ items, v ≠ .list items) (ho : ∀ fields, v ≠ .obj fields) :
    excess? b depth v = none ↔ IsWithinFrom b depth v := by
  rw [excess?_leaf hl ho, isWithinFrom_leaf hl ho]
  split <;> simp <;> omega

mutual

theorem excess?_eq_none_iff (b : Bounds) (depth : Nat) : (v : Value) →
    (excess? b depth v = none ↔ IsWithinFrom b depth v)
  | .list items => by
    rw [excess?, isWithinFrom_list, ← itemsExcess?_eq_none_iff b (depth + 1) items]
    split
    · simp [Nat.not_le.mpr ‹depth > b.depth›]
    · split
      · simp [Nat.not_le.mpr ‹items.length > b.items›]
      · simp [Nat.not_lt.mp ‹¬depth > b.depth›, Nat.not_lt.mp ‹¬items.length > b.items›]
  | .obj fields => by
    rw [excess?, isWithinFrom_obj, ← fieldsExcess?_eq_none_iff b (depth + 1) fields]
    split
    · simp [Nat.not_le.mpr ‹depth > b.depth›]
    · simp [Nat.not_lt.mp ‹¬depth > b.depth›]
  | .undefined => leaf_eq_none_iff (by simp) (by simp)
  | .null => leaf_eq_none_iff (by simp) (by simp)
  | .bool _ => leaf_eq_none_iff (by simp) (by simp)
  | .num _ => leaf_eq_none_iff (by simp) (by simp)
  | .str _ => leaf_eq_none_iff (by simp) (by simp)

theorem itemsExcess?_eq_none_iff (b : Bounds) (depth : Nat) : (vs : List Value) →
    (itemsExcess? b depth vs = none ↔ ∀ v ∈ vs, IsWithinFrom b depth v)
  | [] => by simp [itemsExcess?]
  | v :: rest => by
    rw [itemsExcess?, Option.or_eq_none_iff, excess?_eq_none_iff b depth v,
      itemsExcess?_eq_none_iff b depth rest, List.forall_mem_cons]

theorem fieldsExcess?_eq_none_iff (b : Bounds) (depth : Nat) : (fs : List (String × Value)) →
    (fieldsExcess? b depth fs = none ↔ ∀ f ∈ fs, IsWithinFrom b depth f.2)
  | [] => by simp [fieldsExcess?]
  | (key, v) :: rest => by
    rw [fieldsExcess?, Option.or_eq_none_iff, excess?_eq_none_iff b depth v,
      fieldsExcess?_eq_none_iff b depth rest, List.forall_mem_cons]

end

/-- An excess tells what a value that lies at some depth has inside it. -/
inductive Exceeds (b : Bounds) (depth : Nat) (v : Value) : Excess → Prop
  | depth {n : Nat} {w : Value} (hw : Inside w n v) (hn : b.depth < depth + n) :
      Exceeds b depth v (.depth b.depth)
  | items {n : Nat} {items : List Value} (hw : Inside (.list items) n v) (hl : b.items < items.length) :
      Exceeds b depth v (.items items.length b.items)

theorem Exceeds.outward {w : Value} {e : Excess} (h : Exceeds b (depth + 1) w e)
    (hin : ∀ {u n}, Inside u n w → Inside u (n + 1) v) : Exceeds b depth v e := by
  cases h with
  | depth hw hn => exact .depth (hin hw) (by omega)
  | items hw hl => exact .items (hin hw) hl

theorem exceeds_leaf {e : Excess} (hl : ∀ items, v ≠ .list items) (ho : ∀ fields, v ≠ .obj fields)
    (h : excess? b depth v = some e) : Exceeds b depth v e := by
  rw [excess?_leaf hl ho] at h
  split at h
  · cases h
    exact .depth .here ‹depth > b.depth›
  · cases h

mutual

theorem exceeds_of_excess? (b : Bounds) (depth : Nat) {e : Excess} : (v : Value) →
    excess? b depth v = some e → Exceeds b depth v e
  | .list items, h => by
    rw [excess?] at h
    split at h
    · cases h
      exact .depth .here ‹depth > b.depth›
    · split at h
      · cases h
        exact .items .here ‹items.length > b.items›
      · obtain ⟨v, hv, he⟩ := exceeds_of_itemsExcess? b (depth + 1) items h
        exact he.outward (.item hv)
  | .obj fields, h => by
    rw [excess?] at h
    split at h
    · cases h
      exact .depth .here ‹depth > b.depth›
    · obtain ⟨f, hf, he⟩ := exceeds_of_fieldsExcess? b (depth + 1) fields h
      exact he.outward (.field hf)
  | .undefined, h => exceeds_leaf (by simp) (by simp) h
  | .null, h => exceeds_leaf (by simp) (by simp) h
  | .bool _, h => exceeds_leaf (by simp) (by simp) h
  | .num _, h => exceeds_leaf (by simp) (by simp) h
  | .str _, h => exceeds_leaf (by simp) (by simp) h

theorem exceeds_of_itemsExcess? (b : Bounds) (depth : Nat) {e : Excess} : (vs : List Value) →
    itemsExcess? b depth vs = some e → ∃ v ∈ vs, Exceeds b depth v e
  | [], h => by cases h
  | v :: rest, h => by
    rw [itemsExcess?, Option.or_eq_some_iff] at h
    obtain h | ⟨-, h⟩ := h
    · exact ⟨v, List.mem_cons_self, exceeds_of_excess? b depth v h⟩
    · obtain ⟨w, hw, he⟩ := exceeds_of_itemsExcess? b depth rest h
      exact ⟨w, List.mem_cons_of_mem v hw, he⟩

theorem exceeds_of_fieldsExcess? (b : Bounds) (depth : Nat) {e : Excess} :
    (fs : List (String × Value)) → fieldsExcess? b depth fs = some e → ∃ f ∈ fs, Exceeds b depth f.2 e
  | [], h => by cases h
  | (key, v) :: rest, h => by
    rw [fieldsExcess?, Option.or_eq_some_iff] at h
    obtain h | ⟨-, h⟩ := h
    · exact ⟨(key, v), List.mem_cons_self, exceeds_of_excess? b depth v h⟩
    · obtain ⟨f, hf, he⟩ := exceeds_of_fieldsExcess? b depth rest h
      exact ⟨f, List.mem_cons_of_mem _ hf, he⟩

end

end Value

end Workflow
