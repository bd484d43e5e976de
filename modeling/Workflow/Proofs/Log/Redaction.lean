import Mathlib.Data.List.Forall2
import Workflow.Log.Secret
/-!
What redaction hides. Entries that come out as the same entry differ in nothing but secrets. The other
way round, an entry comes out as every entry does that differs from it in secrets only, exactly if all
keys of secrets lie where an entry is searched; what lies deeper is written as it is.
-/

namespace Workflow.Log

mutual

/-- Values that differ only in what stands under keys that look like those of secrets. -/
inductive Alike : Value → Value → Prop
  | refl (v : Value) : Alike v v
  | list {vs ws : List Value} (h : AlikeItems vs ws) : Alike (.list vs) (.list ws)
  | obj {fs gs : List (String × Value)} (h : AlikeFields fs gs) : Alike (.obj fs) (.obj gs)

inductive AlikeItems : List Value → List Value → Prop
  | nil : AlikeItems [] []
  | cons {v w : Value} {vs ws : List Value} (h : Alike v w) (t : AlikeItems vs ws) :
      AlikeItems (v :: vs) (w :: ws)

inductive AlikeFields : List (String × Value) → List (String × Value) → Prop
  | nil : AlikeFields [] []
  | secret {key : String} (h : looksSecret key.toList = true) (v w : Value)
      {fs gs : List (String × Value)} (t : AlikeFields fs gs) :
      AlikeFields ((key, v) :: fs) ((key, w) :: gs)
  | plain (key : String) {v w : Value} {fs gs : List (String × Value)} (h : Alike v w)
      (t : AlikeFields fs gs) : AlikeFields ((key, v) :: fs) ((key, w) :: gs)

end

/-- Fields of entries that differ only in secrets. What names the event is no secret. -/
def AlikeField (a b : String × Value) : Prop :=
  a.1 = b.1 ∧ (a.2 = b.2 ∨ a.1 ≠ "event" ∧ (looksSecret a.1.toList = true ∨ Alike a.2 b.2))

/-- Entries that differ only in secrets. -/
def AlikeEntries : Entries Value → Entries Value → Prop :=
  List.Forall₂ AlikeField

mutual

/-- Whether all keys of secrets in a value at some depth lie where values are searched, those inside
other secrets apart. -/
def inReach (depth : Nat) : Value → Bool
  | .obj fields => fieldsInReach depth fields
  | .list items => itemsInReach depth items
  | _ => true

def itemsInReach (depth : Nat) : List Value → Bool
  | [] => true
  | v :: rest => inReach (depth + 1) v && itemsInReach depth rest

def fieldsInReach (depth : Nat) : List (String × Value) → Bool
  | [] => true
  | (k, v) :: rest =>
    (if looksSecret k.toList then decide (depth ≤ depthLimit) else inReach (depth + 1) v)
      && fieldsInReach depth rest

end

/-- Whether all keys of secrets in an entry lie where it is searched. -/
def entryInReach (entry : Entries Value) : Bool :=
  entry.all fun (k, v) => k == "event" || looksSecret k.toList || inReach 0 v

variable {depth : Nat} {v w : Value}

theorem AlikeItems.refl : (vs : List Value) → AlikeItems vs vs
  | [] => .nil
  | v :: vs => .cons (.refl v) (refl vs)

theorem AlikeFields.refl : (fs : List (String × Value)) → AlikeFields fs fs
  | [] => .nil
  | (key, v) :: fs => .plain key (.refl v) (refl fs)

theorem AlikeEntries.refl : (a : Entries Value) → AlikeEntries a a
  | [] => .nil
  | _ :: a => .cons ⟨rfl, .inl rfl⟩ (refl a)

/-! Secrets in reach make no difference. -/

mutual

/-- Where values are not searched any more, there are no secrets in reach. -/
theorem Alike.eq_of_deep : {depth : Nat} → {v w : Value} → depthLimit < depth →
    inReach depth v = true → Alike v w → v = w
  | _, _, _, _, _, .refl _ => rfl
  | _, .list vs, .list ws, hd, hs, .list h => by
    rw [inReach] at hs
    rw [h.eq_of_deep hd hs]
  | _, .obj fs, .obj gs, hd, hs, .obj h => by
    rw [inReach] at hs
    rw [h.eq_of_deep hd hs]

theorem AlikeItems.eq_of_deep : {depth : Nat} → {vs ws : List Value} → depthLimit < depth →
    itemsInReach depth vs = true → AlikeItems vs ws → vs = ws
  | _, [], [], _, _, .nil => rfl
  | _, v :: vs, w :: ws, hd, hs, .cons h t => by
    rw [itemsInReach, Bool.and_eq_true] at hs
    rw [h.eq_of_deep (Nat.lt_succ_of_lt hd) hs.1, t.eq_of_deep hd hs.2]

theorem AlikeFields.eq_of_deep : {depth : Nat} → {fs gs : List (String × Value)} →
    depthLimit < depth → fieldsInReach depth fs = true → AlikeFields fs gs → fs = gs
  | _, [], [], _, _, .nil => rfl
  | _, (key, v) :: fs, (_, w) :: gs, hd, hs, .secret hk _ _ t => by
    rw [fieldsInReach, if_pos hk, Bool.and_eq_true, decide_eq_true_eq] at hs
    exact absurd hs.1 (Nat.not_le_of_lt hd)
  | _, (key, v) :: fs, (_, w) :: gs, hd, hs, .plain _ h t => by
    rw [fieldsInReach, Bool.and_eq_true] at hs
    by_cases hk : looksSecret key.toList = true
    · rw [if_pos hk, decide_eq_true_eq] at hs
      exact absurd hs.1 (Nat.not_le_of_lt hd)
    · rw [if_neg hk] at hs
      rw [h.eq_of_deep (Nat.lt_succ_of_lt hd) hs.1, t.eq_of_deep hd hs.2]

end

mutual

theorem Alike.redactValue_eq : {depth : Nat} → {v w : Value} → inReach depth v = true →
    Alike v w → redactValue depth v = redactValue depth w
  | _, _, _, _, .refl _ => rfl
  | depth, .list vs, .list ws, hs, .list h => by
    rw [inReach] at hs
    rw [redactValue, redactValue]
    by_cases hd : depth > depthLimit
    · rw [if_pos hd, if_pos hd, h.eq_of_deep hd hs]
    · rw [if_neg hd, if_neg hd, h.redactItems_eq hs]
  | depth, .obj fs, .obj gs, hs, .obj h => by
    rw [inReach] at hs
    rw [redactValue, redactValue]
    by_cases hd : depth > depthLimit
    · rw [if_pos hd, if_pos hd, h.eq_of_deep hd hs]
    · rw [if_neg hd, if_neg hd, h.redactFields_eq hs]

theorem AlikeItems.redactItems_eq : {depth : Nat} → {vs ws : List Value} →
    itemsInReach depth vs = true → AlikeItems vs ws → redactItems depth vs = redactItems depth ws
  | _, [], [], _, .nil => rfl
  | depth, v :: vs, w :: ws, hs, .cons h t => by
    rw [itemsInReach, Bool.and_eq_true] at hs
    rw [redactItems, redactItems, h.redactValue_eq hs.1, t.redactItems_eq hs.2]

theorem AlikeFields.redactFields_eq : {depth : Nat} → {fs gs : List (String × Value)} →
    fieldsInReach depth fs = true → AlikeFields fs gs → redactFields depth fs = redactFields depth gs
  | _, [], [], _, .nil => rfl
  | depth, (key, v) :: fs, (_, w) :: gs, hs, .secret hk _ _ t => by
    rw [fieldsInReach, Bool.and_eq_true] at hs
    rw [redactFields, redactFields, if_pos hk, if_pos hk, t.redactFields_eq hs.2]
  | depth, (key, v) :: fs, (_, w) :: gs, hs, .plain _ h t => by
    rw [fieldsInReach, Bool.and_eq_true] at hs
    rw [redactFields, redactFields, t.redactFields_eq hs.2]
    by_cases hk : looksSecret key.toList = true
    · rw [if_pos hk, if_pos hk]
    · rw [if_neg hk] at hs
      rw [if_neg hk, if_neg hk, h.redactValue_eq hs.1]

end

/-! Nothing else is hidden. -/

/-- Whether a value holds no others. -/
def holdsNone : Value → Bool
  | .list _ | .obj _ => false
  | _ => true

theorem eq_of_redactValue_eq (hv : holdsNone v = true)
    (h : redactValue depth v = redactValue depth w) : v = w := by
  cases w <;> cases v <;> grind [redactValue, holdsNone]

mutual

theorem alike_of_redactValue_eq : (depth : Nat) → (v w : Value) →
    redactValue depth v = redactValue depth w → Alike v w
  | depth, .list vs, w, h => by
    cases w with
    | list ws =>
      rw [redactValue, redactValue] at h
      split at h
      · exact h ▸ .refl _
      · exact .list (alikeItems_of_redactItems_eq depth vs ws (Value.list.inj h))
    | _ =>
      rw [redactValue] at h
      split at h <;> grind [redactValue]
  | depth, .obj fs, w, h => by
    cases w with
    | obj gs =>
      rw [redactValue, redactValue] at h
      split at h
      · exact h ▸ .refl _
      · exact .obj (alikeFields_of_redactFields_eq depth fs gs (Value.obj.inj h))
    | _ =>
      rw [redactValue] at h
      split at h <;> grind [redactValue]
  | depth, .undefined, w, h => eq_of_redactValue_eq rfl h ▸ .refl _
  | depth, .null, w, h => eq_of_redactValue_eq rfl h ▸ .refl _
  | depth, .bool _, w, h => eq_of_redactValue_eq rfl h ▸ .refl _
  | depth, .num _, w, h => eq_of_redactValue_eq rfl h ▸ .refl _
  | depth, .str _, w, h => eq_of_redactValue_eq rfl h ▸ .refl _

theorem alikeItems_of_redactItems_eq : (depth : Nat) → (vs ws : List Value) →
    redactItems depth vs = redactItems depth ws → AlikeItems vs ws
  | _, [], [], _ => .nil
  | depth, v :: vs, w :: ws, h => by
    rw [redactItems, redactItems, List.cons.injEq] at h
    exact .cons (alike_of_redactValue_eq _ v w h.1) (alikeItems_of_redactItems_eq depth vs ws h.2)

theorem alikeFields_of_redactFields_eq : (depth : Nat) → (fs gs : List (String × Value)) →
    redactFields depth fs = redactFields depth gs → AlikeFields fs gs
  | _, [], [], _ => .nil
  | depth, (key, v) :: fs, (other, w) :: gs, h => by
    rw [redactFields, redactFields, List.cons.injEq, Prod.mk.injEq] at h
    obtain ⟨⟨rfl, h⟩, ht⟩ := h
    have t := alikeFields_of_redactFields_eq depth fs gs ht
    by_cases hk : looksSecret key.toList = true
    · exact .secret hk v w t
    · rw [if_neg hk, if_neg hk] at h
      exact .plain key (alike_of_redactValue_eq _ v w h) t

end

/-! A secret out of reach shows. -/

/-- There is something else than a value. -/
theorem list_singleton_ne (v : Value) : v ≠ .list [v] := by
  intro h
  have hs := congrArg sizeOf h
  simp only [Value.list.sizeOf_spec, List.cons.sizeOf_spec, List.nil.sizeOf_spec] at hs
  omega

mutual

theorem exists_alike_ne : (depth : Nat) → (v : Value) → inReach depth v = false →
    ∃ w, Alike v w ∧ redactValue depth v ≠ redactValue depth w
  | depth, .list vs, hs => by
    rw [inReach] at hs
    obtain ⟨ws, h, hne, hshown⟩ := exists_alikeItems_ne depth vs hs
    refine ⟨.list ws, .list h, ?_⟩
    rw [redactValue, redactValue]
    by_cases hd : depth > depthLimit
    · rw [if_pos hd, if_pos hd]
      simpa using hne
    · rw [if_neg hd, if_neg hd]
      simpa using hshown (Nat.le_of_not_lt hd)
  | depth, .obj fs, hs => by
    rw [inReach] at hs
    obtain ⟨gs, h, hne, hshown⟩ := exists_alikeFields_ne depth fs hs
    refine ⟨.obj gs, .obj h, ?_⟩
    rw [redactValue, redactValue]
    by_cases hd : depth > depthLimit
    · rw [if_pos hd, if_pos hd]
      simpa using hne
    · rw [if_neg hd, if_neg hd]
      simpa using hshown (Nat.le_of_not_lt hd)

theorem exists_alikeItems_ne : (depth : Nat) → (vs : List Value) → itemsInReach depth vs = false →
    ∃ ws, AlikeItems vs ws ∧ vs ≠ ws ∧
      (depth ≤ depthLimit → redactItems depth vs ≠ redactItems depth ws)
  | depth, v :: vs, hs => by
    rw [itemsInReach] at hs
    cases hv : inReach (depth + 1) v with
    | false =>
      obtain ⟨w, h, hne⟩ := exists_alike_ne (depth + 1) v hv
      refine ⟨w :: vs, .cons h (.refl vs), ?_, fun _ => ?_⟩
      · rintro ⟨⟩
        exact hne rfl
      · simp [redactItems, hne]
    | true =>
      rw [hv, Bool.true_and] at hs
      obtain ⟨ws, h, hne, hshown⟩ := exists_alikeItems_ne depth vs hs
      refine ⟨v :: ws, .cons (.refl v) h, by simpa using hne, fun hd => ?_⟩
      simpa [redactItems] using hshown hd

theorem exists_alikeFields_ne : (depth : Nat) → (fs : List (String × Value)) →
    fieldsInReach depth fs = false → ∃ gs, AlikeFields fs gs ∧ fs ≠ gs ∧
      (depth ≤ depthLimit → redactFields depth fs ≠ redactFields depth gs)
  | depth, (key, v) :: fs, hs => by
    rw [fieldsInReach] at hs
    cases ht : fieldsInReach depth fs with
    | false =>
      obtain ⟨gs, h, hne, hshown⟩ := exists_alikeFields_ne depth fs ht
      refine ⟨(key, v) :: gs, .plain key (.refl v) h, by simpa using hne, fun hd => ?_⟩
      simpa [redactFields] using hshown hd
    | true =>
      rw [ht, Bool.and_true] at hs
      by_cases hk : looksSecret key.toList = true
      · rw [if_pos hk, decide_eq_false_iff_not] at hs
        refine ⟨(key, .list [v]) :: fs, .secret hk _ _ (.refl fs), ?_, fun hd => absurd hd hs⟩
        simpa using list_singleton_ne v
      · rw [if_neg hk] at hs
        obtain ⟨w, h, hne⟩ := exists_alike_ne (depth + 1) v hs
        refine ⟨(key, w) :: fs, .plain key h (.refl fs), ?_, fun _ => ?_⟩
        · rintro ⟨⟩
          exact hne rfl
        · simp [redactFields, hk, hne]

end

/-! Entries. -/

/-- What is written of a field. -/
def redactField (field : String × Value) : String × Value :=
  if field.1 == "event" then field
  else (field.1, if looksSecret field.1.toList then mask else redactValue 0 field.2)

theorem redact_eq_map (entry : Entries Value) : redact entry = entry.map redactField := rfl

theorem redactField_of_ne {key : String} (h : key ≠ "event") (v : Value) : redactField (key, v) =
    (key, if looksSecret key.toList then mask else redactValue 0 v) := by
  rw [redactField, if_neg (by simpa using h)]

theorem redactField_fst (a : String × Value) : (redactField a).1 = a.1 := by
  unfold redactField
  split <;> rfl

theorem alikeField_of_redactField_eq {a b : String × Value} (h : redactField a = redactField b) :
    AlikeField a b := by
  obtain ⟨key, v⟩ := a
  obtain ⟨other, w⟩ := b
  obtain rfl : key = other := by
    simpa only [redactField_fst] using congrArg Prod.fst h
  by_cases he : key = "event"
  · subst he
    exact ⟨rfl, .inl (congrArg Prod.snd h)⟩
  · rw [redactField_of_ne he, redactField_of_ne he, Prod.mk.injEq] at h
    refine ⟨rfl, .inr ⟨he, ?_⟩⟩
    by_cases hk : looksSecret key.toList = true
    · exact .inl hk
    · rw [if_neg hk, if_neg hk] at h
      exact .inr (alike_of_redactValue_eq 0 v w h.2)

theorem AlikeField.redactField_eq {a b : String × Value}
    (hs : (a.1 == "event" || looksSecret a.1.toList || inReach 0 a.2) = true) (h : AlikeField a b) :
    redactField a = redactField b := by
  obtain ⟨key, v⟩ := a
  obtain ⟨other, w⟩ := b
  obtain ⟨rfl : key = other, h⟩ := h
  rcases h with rfl | ⟨he, h⟩
  · rfl
  · rw [redactField_of_ne he, redactField_of_ne he]
    by_cases hk : looksSecret key.toList = true
    · rw [if_pos hk, if_pos hk]
    · have hin : inReach 0 v = true := by simpa [show key ≠ "event" from he, hk] using hs
      rw [if_neg hk, if_neg hk, (h.resolve_left hk).redactValue_eq hin]

/-- Entries that come out as the same entry differ in nothing but secrets. -/
theorem alikeEntries_of_redact_eq : (a b : Entries Value) → redact a = redact b → AlikeEntries a b
  | [], [], _ => .nil
  | _ :: a, _ :: b, h => by
    rw [redact_eq_map, redact_eq_map, List.map_cons, List.map_cons, List.cons.injEq] at h
    exact .cons (alikeField_of_redactField_eq h.1) (alikeEntries_of_redact_eq a b h.2)

theorem AlikeEntries.redact_eq {a b : Entries Value} (hs : entryInReach a = true)
    (h : AlikeEntries a b) : redact a = redact b := by
  induction h with
  | nil => rfl
  | cons h _ ih =>
    rw [entryInReach, List.all_cons, Bool.and_eq_true] at hs
    rw [redact_eq_map, redact_eq_map, List.map_cons, List.map_cons, h.redactField_eq hs.1]
    exact congrArg _ (ih hs.2)

theorem exists_alikeEntries_ne : (a : Entries Value) → entryInReach a = false →
    ∃ b, AlikeEntries a b ∧ redact a ≠ redact b
  | (key, v) :: a, hs => by
    rw [entryInReach, List.all_cons] at hs
    cases ht : entryInReach a with
    | false =>
      obtain ⟨b, h, hne⟩ := exists_alikeEntries_ne a ht
      refine ⟨(key, v) :: b, .cons ⟨rfl, .inl rfl⟩ h, fun he => hne ?_⟩
      exact (List.cons.inj he).2
    | true =>
      rw [show (a.all _) = true from ht, Bool.and_true] at hs
      simp only [Bool.or_eq_false_iff, beq_eq_false_iff_ne] at hs
      obtain ⟨⟨he, hk⟩, hv⟩ := hs
      obtain ⟨w, h, hne⟩ := exists_alike_ne 0 v hv
      refine ⟨(key, w) :: a, .cons ⟨rfl, .inr ⟨he, .inr h⟩⟩ (AlikeEntries.refl a), fun heq => hne ?_⟩
      have hhead : redactField (key, v) = redactField (key, w) := (List.cons.inj heq).1
      rw [redactField_of_ne he, redactField_of_ne he, if_neg (by simp [hk]), if_neg (by simp [hk])] at hhead
      exact congrArg Prod.snd hhead

/-- Redaction hides the secrets in reach and nothing else: entries that come out as the same differ only
in secrets, and those that differ only in secrets from an entry come out as it does, for exactly the
entries whose secrets are all in reach. -/
theorem redaction_exact (a : Entries Value) : (∀ b, redact a = redact b → AlikeEntries a b) ∧
    (entryInReach a = true ↔ ∀ b, AlikeEntries a b → redact a = redact b) := by
  refine ⟨alikeEntries_of_redact_eq a, fun h b hab => hab.redact_eq h, fun h => ?_⟩
  by_contra hs
  obtain ⟨b, hab, hne⟩ := exists_alikeEntries_ne a (by simpa using hs)
  exact hne (h b hab)

/-- An object around another one, and so on. -/
def wrapped : Nat → Value → Value
  | 0, v => v
  | n + 1, v => .obj [("in", wrapped n v)]

/-- An entry with a password inside so many objects. -/
def guarded (depth : Nat) (password : String) : Entries Value :=
  [("event", .str "run_created"), ("scope", wrapped depth (.obj [("password", .str password)]))]

theorem alike_wrapped (h : Alike v w) (n : Nat) : Alike (wrapped n v) (wrapped n w) := by
  induction n with
  | zero => exact h
  | succ n ih => exact .obj (.plain "in" ih .nil)

theorem alikeEntries_guarded (depth : Nat) (p q : String) :
    AlikeEntries (guarded depth p) (guarded depth q) := by
  have hin : Alike (.obj [("password", .str p)]) (.obj [("password", .str q)]) :=
    .obj (.secret (by decide) _ _ .nil)
  exact .cons ⟨rfl, .inl rfl⟩ (.cons ⟨rfl, .inr ⟨by simp, .inr (alike_wrapped hin depth)⟩⟩ .nil)

theorem redact_guarded (p : String) : redact (guarded 9 p) = guarded 9 p := by
  rfl

/-- A password inside nine more objects is written as it is. -/
theorem buried_secret_shown : AlikeEntries (guarded 9 "swordfish") (guarded 9 "opensesame") ∧
    redact (guarded 9 "swordfish") = guarded 9 "swordfish" ∧
    redact (guarded 9 "swordfish") ≠ redact (guarded 9 "opensesame") := by
  refine ⟨alikeEntries_guarded 9 _ _, redact_guarded _, ?_⟩
  rw [redact_guarded, redact_guarded]
  simp [guarded, wrapped]

end Workflow.Log
