import Mathlib.Data.List.Forall2
import Workflow.Value.Text
/-!
Computations that have a result or fail: what became of the parts, told from what became of the whole.
The text of a value is one: it fails only for whole numbers that are too long to be written.
-/

namespace Workflow

variable {ε α β : Type}

theorem map_ok {x : Except ε α} {g : α → β} {b : β} (h : x.map g = .ok b) : ∃ a, x = .ok a ∧ g a = b := by
  cases x with
  | error e => cases h
  | ok a => exact ⟨a, rfl, Except.ok.inj h⟩

theorem map_error {x : Except ε α} {g : α → β} {e : ε} (h : x.map g = .error e) : x = .error e := by
  cases x with
  | error e' =>
    cases h
    rfl
  | ok a => cases h

theorem exists_map_iff {x : Except ε α} {g : α → β} : (∃ b, x.map g = .ok b) ↔ ∃ a, x = .ok a := by
  cases x with
  | error e => exact iff_of_false (fun ⟨_, h⟩ => by cases h) fun ⟨_, h⟩ => by cases h
  | ok a => exact iff_of_true ⟨g a, rfl⟩ ⟨a, rfl⟩

/-- One thing after another has a result if both have. -/
theorem bind_eq_ok_iff {x : Except ε α} {g : α → Except ε β} {b : β} :
    (x >>= g) = .ok b ↔ ∃ a, x = .ok a ∧ g a = .ok b := by
  cases x <;> simp [bind, Except.bind]

/-- A head and a tail, one after the other. -/
theorem exists_cons_iff {x : Except ε α} {y : Except ε (List β)} {g : α → β} :
    (∃ bs, (do return g (← x) :: (← y)) = .ok bs) ↔ (∃ a, x = .ok a) ∧ ∃ bs, y = .ok bs := by
  simp only [bind_eq_ok_iff]
  constructor
  · rintro ⟨_, a, hx, bs, hy, -⟩
    exact ⟨⟨a, hx⟩, bs, hy⟩
  · rintro ⟨⟨a, hx⟩, bs, hy⟩
    exact ⟨g a :: bs, a, hx, bs, hy, rfl⟩

theorem bind_ok {x : Except ε α} {g : α → Except ε β} {b : β} (h : (x >>= g) = .ok b) :
    ∃ a, x = .ok a ∧ g a = .ok b :=
  bind_eq_ok_iff.mp h

/-- An error of one thing after another is one of the first or of the second. -/
theorem bind_error {x : Except ε α} {g : α → Except ε β} {e : ε} (h : (x >>= g) = .error e) :
    x = .error e ∨ ∃ a, x = .ok a ∧ g a = .error e := by
  cases x with
  | error e' =>
    cases h
    exact .inl rfl
  | ok a => exact .inr ⟨a, rfl, h⟩

theorem mapM_error {g : α → Except ε β} {xs : List α} {e : ε} (h : xs.mapM g = .error e) :
    ∃ x ∈ xs, g x = .error e := by
  induction xs with
  | nil => cases h
  | cons x xs ih =>
    rw [List.mapM_cons] at h
    obtain hx | ⟨y, -, h⟩ := bind_error h
    · exact ⟨x, List.mem_cons_self, hx⟩
    obtain hr | ⟨ys, -, h⟩ := bind_error h
    · obtain ⟨x', hm, hx⟩ := ih hr
      exact ⟨x', List.mem_cons_of_mem x hm, hx⟩
    · cases h

theorem mapM_eq_ok_iff {g : α → Except ε β} {xs : List α} {ys : List β} :
    xs.mapM g = .ok ys ↔ List.Forall₂ (fun x y => g x = .ok y) xs ys := by
  induction xs generalizing ys with
  | nil => cases ys <;> simp [pure, Except.pure]
  | cons x xs ih =>
    simp only [List.mapM_cons, bind_eq_ok_iff, ih]
    constructor
    · rintro ⟨y, hx, ys, hxs, h⟩
      cases h
      exact .cons hx hxs
    · intro h
      cases h with
      | cons hx hxs => exact ⟨_, hx, _, hxs, rfl⟩

theorem exists_mapM_iff {g : α → Except ε β} {xs : List α} :
    (∃ ys, xs.mapM g = .ok ys) ↔ ∀ x ∈ xs, ∃ y, g x = .ok y := by
  simp only [mapM_eq_ok_iff]
  induction xs with
  | nil => simp
  | cons x xs ih =>
    rw [List.forall_mem_cons, ← ih]
    constructor
    · rintro ⟨ys, h⟩
      cases h with
      | cons hx hxs => exact ⟨⟨_, hx⟩, _, hxs⟩
    · rintro ⟨⟨y, hx⟩, ys, hxs⟩
      exact ⟨y :: ys, .cons hx hxs⟩

/-! The text of a value. -/

theorem pow_two_le_pow_ten {k n m : Nat} (hk : k ≤ 23 * n) (hm : 7 * n ≤ m) :
    Nat.pow 2 k ≤ Nat.pow 10 m :=
  calc Nat.pow 2 k
    _ ≤ Nat.pow 2 (23 * n) := Nat.pow_le_pow_right (by decide) hk
    _ = Nat.pow (Nat.pow 2 23) n := Nat.pow_mul 2 23 n
    _ ≤ Nat.pow (Nat.pow 10 7) n := Nat.pow_le_pow_left (by decide) n
    _ = Nat.pow 10 (7 * n) := (Nat.pow_mul 10 7 n).symm
    _ ≤ Nat.pow 10 m := Nat.pow_le_pow_right (by decide) hm

theorem Numeral.writeInt_short {n : Int} (h : n.natAbs.log2 < 14000) :
    writeInt n = .ok (toString n) :=
  if_pos (Bool.or_eq_true_iff.mpr (.inl (decide_eq_true h)))

theorem Numeral.exists_writeInt_iff {n : Int} :
    (∃ s, writeInt n = .ok s) ↔ n.natAbs < Nat.pow 10 digitLimit := by
  unfold writeInt
  split
  · rename_i h
    rw [Bool.or_eq_true, decide_eq_true_eq, decide_eq_true_eq] at h
    refine iff_of_true ⟨_, rfl⟩ ?_
    obtain hlog | hlt := h
    · calc n.natAbs
        _ < Nat.pow 2 (n.natAbs.log2 + 1) := Nat.lt_log2_self
        _ ≤ Nat.pow 10 digitLimit := pow_two_le_pow_ten (n := 609) (by omega) (by decide)
    · exact hlt
  · rename_i h
    rw [Bool.or_eq_true, decide_eq_true_eq, decide_eq_true_eq, not_or] at h
    exact iff_of_false (fun ⟨_, he⟩ => by cases he) h.2

theorem Double.finite?_bounds {x : Float} {f : Finite} (h : finite? x = some f) :
    f.mantissa < 2 * mantissaUnit ∧ f.exponent ≤ 971 := by
  have hfraction : x.toBits.toNat % mantissaUnit < mantissaUnit := Nat.mod_lt _ (by decide)
  have hfield : x.toBits.toNat / mantissaUnit % 2048 < 2048 := Nat.mod_lt _ (by decide)
  unfold finite? at h
  dsimp only at h
  split at h
  · cases h
  · rename_i hpast
    rw [beq_iff_eq] at hpast
    split at h
    · cases h
      dsimp only
      omega
    · cases h
      dsimp only
      omega

theorem Finite.natAbs_truncate_lt {f : Finite} (hm : f.mantissa < 2 * Double.mantissaUnit)
    (he : f.exponent ≤ 971) : f.truncate.natAbs < Nat.pow 10 Numeral.digitLimit := by
  have habs : f.truncate.natAbs =
      f.mantissa * Nat.pow 2 f.exponent.toNat / Nat.pow 2 (-f.exponent).toNat := by
    unfold truncate
    dsimp only [Double.scale]
    split
    · rw [Int.natAbs_neg, Int.natAbs_natCast]
    · rw [Int.natAbs_natCast]
  have hup : 0 < Nat.pow 2 f.exponent.toNat := Nat.pow_pos (by decide)
  have hunit : 2 * Double.mantissaUnit = Nat.pow 2 53 := by decide
  rw [habs]
  calc f.mantissa * Nat.pow 2 f.exponent.toNat / Nat.pow 2 (-f.exponent).toNat
    _ ≤ f.mantissa * Nat.pow 2 f.exponent.toNat := Nat.div_le_self _ _
    _ < Nat.pow 2 53 * Nat.pow 2 f.exponent.toNat := Nat.mul_lt_mul_of_pos_right (hunit ▸ hm) hup
    _ = Nat.pow 2 (53 + f.exponent.toNat) := (Nat.pow_add 2 53 _).symm
    _ ≤ Nat.pow 10 Numeral.digitLimit := pow_two_le_pow_ten (n := 609) (by omega) (by decide)

namespace Value

theorem exists_numberText_float (x : Float) : ∃ s, numberText (.float x) = .ok s := by
  rw [numberText]
  split
  · rename_i f hf
    split
    · obtain ⟨hm, he⟩ := Double.finite?_bounds hf
      exact Numeral.exists_writeInt_iff.mpr (Finite.natAbs_truncate_lt hm he)
    · exact ⟨_, rfl⟩
  · exact ⟨_, rfl⟩

/-- The text of a value as a part of a longer text: none for null and undefined. -/
def partText : Value → Except NumberFault String
  | .undefined | .null => .ok ""
  | v => v.text

theorem itemTexts_cons (v : Value) (rest : List Value) :
    itemTexts (v :: rest) = do return (← v.partText) :: (← itemTexts rest) := by
  cases v <;> rfl

mutual

/-- No whole number with more digits than are written shows in the text of a value. -/
def IsWritable : Value → Prop
  | .int n => n.natAbs < Nat.pow 10 Numeral.digitLimit
  | .list items => AreWritable items
  | _ => True

def AreWritable : List Value → Prop
  | [] => True
  | v :: rest => v.IsWritable ∧ AreWritable rest

end

mutual

theorem exists_text_iff : (v : Value) → ((∃ s, v.text = .ok s) ↔ v.IsWritable)
  | .undefined | .null | .bool _ | .str _ | .obj _ => iff_of_true ⟨_, rfl⟩ trivial
  | .num (.int _) => Numeral.exists_writeInt_iff
  | .num (.float x) => iff_of_true (exists_numberText_float x) trivial
  | .list items => by
    rw [text, IsWritable, ← exists_itemTexts_iff items, exists_map_iff]

theorem exists_itemTexts_iff : (vs : List Value) → ((∃ ts, itemTexts vs = .ok ts) ↔ AreWritable vs)
  | [] => iff_of_true ⟨_, rfl⟩ trivial
  | v :: rest => by
    have hv : (∃ s, v.partText = .ok s) ↔ v.IsWritable := by
      cases v with
      | undefined | null => exact iff_of_true ⟨_, rfl⟩ trivial
      | bool b => exact exists_text_iff (.bool b)
      | num n => exact exists_text_iff (.num n)
      | str s => exact exists_text_iff (.str s)
      | list items => exact exists_text_iff (.list items)
      | obj fields => exact exists_text_iff (.obj fields)
    rw [AreWritable, ← exists_itemTexts_iff rest, ← hv, itemTexts_cons]
    exact exists_cons_iff

end

theorem exists_partText_iff {v : Value} : (∃ s, v.partText = .ok s) ↔ v.IsWritable := by
  rw [← exists_text_iff v]
  cases v with
  | undefined | null => exact iff_of_true ⟨_, rfl⟩ ⟨_, rfl⟩
  | _ => rfl

end Value
end Workflow
