import Mathlib.Data.List.Nodup
import Workflow.Value.Entries
/-!
Ordered maps read as maps: what inserting and updating do to look-ups and to keys, and that maps with
distinct keys and the same look-ups have the same entries.
-/

namespace Workflow.Entries

variable {α : Type} {key name : String} {a b : α} {es others fs : Entries α}

theorem find?_insert (key name : String) (a : α) (es : Entries α) :
    find? name (insert key a es) = if name = key then some a else find? name es := by
  by_cases h : name = key
  · rw [if_pos h, h, find?_insert_self]
  · rw [if_neg h, find?_insert_of_ne h]

theorem find?_eq_none_iff : find? key es = none ↔ key ∉ keys es := by
  induction es with
  | nil => simp [find?, keys]
  | cons e es ih =>
    rw [find?]
    by_cases h : e.1 = key
    · simp [keys, h]
    · rw [if_neg (by simpa using h), ih]
      simp [keys, Ne.symm h]

theorem contains_iff : contains key es = true ↔ key ∈ keys es := by
  rw [contains, Option.isSome_iff_ne_none, ne_eq, find?_eq_none_iff, not_not]

theorem mem_of_find? (h : find? key es = some a) : (key, a) ∈ es := by
  induction es with
  | nil => cases h
  | cons e es ih =>
    rw [find?] at h
    split at h
    · rename_i he
      cases h
      rw [← beq_iff_eq.mp he]
      exact List.mem_cons_self
    · exact List.mem_cons_of_mem _ (ih h)

/-- With distinct keys an entry is what its key is bound to. -/
theorem find?_eq_some_iff (hn : (keys es).Nodup) : find? key es = some a ↔ (key, a) ∈ es := by
  refine ⟨mem_of_find?, fun h => ?_⟩
  induction es with
  | nil => cases h
  | cons e es ih =>
    rw [keys, List.map_cons, List.nodup_cons] at hn
    rw [find?]
    obtain rfl | h := List.mem_cons.mp h
    · rw [if_pos (by simp)]
    · have he : e.1 ≠ key := by
        rintro rfl
        exact hn.1 (List.mem_map.mpr ⟨_, h, rfl⟩)
      rw [if_neg (by simpa using he), ih hn.2 h]

theorem mem_keys_insert : name ∈ keys (insert key a es) ↔ name = key ∨ name ∈ keys es := by
  rw [← not_iff_not, not_or, ← find?_eq_none_iff, ← find?_eq_none_iff, find?_insert]
  split <;> simp [*]

theorem nodup_keys_insert (h : (keys es).Nodup) : (keys (insert key a es)).Nodup := by
  induction es with
  | nil => simp [insert, keys]
  | cons e es ih =>
    rw [insert]
    split
    · rename_i he
      rw [beq_iff_eq] at he
      simpa [keys, he] using h
    · rename_i he
      have hk : e.1 ≠ key := by simpa using he
      rw [keys, List.map_cons, List.nodup_cons] at h ⊢
      refine ⟨fun hm => ?_, ih h.2⟩
      exact (mem_keys_insert.mp hm).elim hk h.1

theorem mem_insert (hn : (keys es).Nodup) :
    (name, b) ∈ insert key a es ↔ name = key ∧ b = a ∨ name ≠ key ∧ (name, b) ∈ es := by
  rw [← find?_eq_some_iff (nodup_keys_insert hn), find?_insert, ← find?_eq_some_iff hn]
  by_cases h : name = key
  · simp [h, eq_comm]
  · simp [h]

theorem find?_erase (hn : (keys es).Nodup) (key name : String) :
    find? name (erase key es) = if name = key then none else find? name es := by
  induction es with
  | nil => simp [erase, find?]
  | cons e es ih =>
    rw [keys, List.map_cons, List.nodup_cons] at hn
    rw [erase]
    by_cases he : e.1 = key
    · rw [if_pos (by simpa using he)]
      by_cases h : name = key
      · rw [if_pos h, h, ← he]
        exact find?_eq_none_iff.mpr hn.1
      · rw [if_neg h, find?, if_neg (by simpa [he] using Ne.symm h)]
    · rw [if_neg (by simpa using he), find?, find?, ih hn.2]
      by_cases h : name = key
      · rw [if_pos h, if_pos h, if_neg (by simpa [h] using he)]
      · rw [if_neg h, if_neg h]

theorem erase_sublist (key : String) (es : Entries α) : (erase key es).Sublist es := by
  induction es with
  | nil => exact .refl _
  | cons e es ih =>
    rw [erase]
    split
    · exact .cons _ (.refl _)
    · exact .cons_cons _ ih

theorem keys_erase_sublist (key : String) (es : Entries α) :
    (keys (erase key es)).Sublist (keys es) :=
  (erase_sublist key es).map _

theorem nodup_keys_erase (h : (keys es).Nodup) : (keys (erase key es)).Nodup :=
  h.sublist (keys_erase_sublist key es)

theorem mem_erase (hn : (keys es).Nodup) : (name, a) ∈ erase key es ↔ name ≠ key ∧ (name, a) ∈ es := by
  rw [← find?_eq_some_iff (nodup_keys_erase hn), find?_erase hn, ← find?_eq_some_iff hn]
  by_cases h : name = key <;> simp [h]

/-! Erasing some keys. -/

theorem erases_sublist (es : Entries α) (names : List String) :
    (names.foldl (fun es key => erase key es) es).Sublist es := by
  induction names generalizing es with
  | nil => exact .refl es
  | cons key names ih => exact (ih _).trans (erase_sublist key es)

theorem nodup_keys_erases (h : (keys es).Nodup) (names : List String) :
    (keys (names.foldl (fun es key => erase key es) es)).Nodup :=
  h.sublist ((erases_sublist es names).map _)

theorem mem_erases (hn : (keys es).Nodup) (names : List String) :
    (name, a) ∈ names.foldl (fun es key => erase key es) es ↔ name ∉ names ∧ (name, a) ∈ es := by
  induction names generalizing es with
  | nil => simp
  | cons key names ih =>
    rw [List.foldl_cons, ih (nodup_keys_erase hn), mem_erase hn, List.mem_cons, not_or, and_left_comm,
      and_assoc]

theorem erase_eq_filter (hn : (keys es).Nodup) (key : String) :
    erase key es = es.filter (·.1 ≠ key) := by
  induction es with
  | nil => rfl
  | cons e es ih =>
    rw [keys, List.map_cons, List.nodup_cons] at hn
    rw [erase]
    by_cases he : e.1 = key
    · have hrest : es.filter (·.1 ≠ key) = es := by
        refine List.filter_eq_self.mpr fun f hf => ?_
        have hne : f.1 ≠ key := fun hk => hn.1 (List.mem_map.mpr ⟨f, hf, hk.trans he.symm⟩)
        simpa using hne
      rw [if_pos (by simpa using he), List.filter_cons_of_neg (by simpa using he), hrest]
    · rw [if_neg (by simpa using he), List.filter_cons_of_pos (by simpa using he), ih hn.2]

theorem erases_eq_filter (hn : (keys es).Nodup) (names : List String) :
    names.foldl (fun es key => erase key es) es = es.filter (·.1 ∉ names) := by
  induction names generalizing es with
  | nil => simp
  | cons key names ih =>
    rw [List.foldl_cons, ih (nodup_keys_erase hn), erase_eq_filter hn, List.filter_filter]
    refine List.filter_congr fun e _ => ?_
    simp [Bool.and_comm]

theorem find?_modify (key name : String) (f : α → α) (es : Entries α) :
    find? name (modify key f es) = if name = key then (find? name es).map f else find? name es := by
  have cons (e : String × α) (es : Entries α) : modify key f (e :: es) =
      (if e.1 == key then (e.1, f e.2) else e) :: modify key f es := rfl
  induction es with
  | nil => simp [modify, find?]
  | cons e es ih =>
    rw [cons]
    by_cases he : e.1 = key
    · rw [if_pos (by simpa using he), find?, find?, ih]
      by_cases h : name = key
      · simp [h, he]
      · simp [h, he, Ne.symm h]
    · rw [if_neg (by simpa using he), find?, find?, ih]
      by_cases hn : e.1 = name
      · simp [hn, hn ▸ he]
      · simp [hn]

theorem keys_modify (key : String) (f : α → α) (es : Entries α) : keys (modify key f es) = keys es := by
  rw [keys, keys, modify, List.map_map]
  refine List.map_congr_left fun e _ => ?_
  show (if e.1 == key then (e.1, f e.2) else e).1 = e.1
  split <;> rfl

theorem contains_insert :
    contains name (insert key a es) = true ↔ name = key ∨ contains name es = true := by
  rw [contains_iff, mem_keys_insert, contains_iff]

theorem contains_erase (hn : (keys es).Nodup) :
    contains name (erase key es) = true ↔ name ≠ key ∧ contains name es = true := by
  rw [contains, contains, find?_erase hn]
  by_cases h : name = key <;> simp [h]

theorem contains_modify (f : α → α) : contains name (modify key f es) = contains name es := by
  rw [contains, contains, find?_modify]
  split <;> simp

theorem nodup_keys_update (h : (keys es).Nodup) : (keys (update es others)).Nodup := by
  induction others generalizing es with
  | nil => exact h
  | cons e others ih => exact ih (nodup_keys_insert h)

/-! Keys that are new come last. -/

theorem insert_of_not_mem (h : key ∉ keys es) (a : α) : insert key a es = es ++ [(key, a)] := by
  induction es with
  | nil => rfl
  | cons e es ih =>
    rw [keys, List.map_cons, List.mem_cons, not_or] at h
    rw [insert, if_neg (by simpa using Ne.symm h.1), ih h.2, List.cons_append]

theorem insert_append (h : key ∉ keys es) (a : α) (fs : Entries α) :
    insert key a (es ++ fs) = es ++ insert key a fs := by
  induction es with
  | nil => rfl
  | cons e es ih =>
    rw [keys, List.map_cons, List.mem_cons, not_or] at h
    rw [List.cons_append, insert, if_neg (by simpa using Ne.symm h.1), ih h.2, List.cons_append]

theorem update_append (h : ∀ key ∈ keys others, key ∉ keys es) (fs : Entries α) :
    update (es ++ fs) others = es ++ update fs others := by
  induction others generalizing fs with
  | nil => rfl
  | cons e others ih =>
    rw [keys, List.map_cons, List.forall_mem_cons] at h
    calc update (es ++ fs) (e :: others)
      _ = update (insert e.1 e.2 (es ++ fs)) others := rfl
      _ = update (es ++ insert e.1 e.2 fs) others := by rw [insert_append h.1]
      _ = es ++ update (insert e.1 e.2 fs) others := ih h.2 _

/-- An update with keys that are none of the map's own ones is put behind it. -/
theorem update_of_disjoint (h : ∀ key ∈ keys others, key ∉ keys es) :
    update es others = es ++ ofList others := by
  have happend := update_append h []
  rwa [List.append_nil] at happend

theorem update_eq_append (h : (keys (es ++ others)).Nodup) : update es others = es ++ others := by
  induction others generalizing es with
  | nil => exact (List.append_nil es).symm
  | cons e others ih =>
    have hassoc : es ++ e :: others = (es ++ [e]) ++ others := by simp
    have hkey : e.1 ∉ keys es := by
      intro hmem
      rw [keys, List.map_append, List.nodup_append] at h
      exact h.2.2 _ hmem _ List.mem_cons_self rfl
    calc update es (e :: others)
      _ = update (insert e.1 e.2 es) others := rfl
      _ = update (es ++ [e]) others := by rw [insert_of_not_mem hkey]
      _ = es ++ e :: others := by rw [ih (hassoc ▸ h), hassoc]

theorem ofList_eq_self (h : (keys es).Nodup) : ofList es = es :=
  update_eq_append h

theorem nodup_keys_ofList (es : Entries α) : (keys (ofList es)).Nodup :=
  nodup_keys_update .nil

theorem mem_keys_update : key ∈ keys (update es others) ↔ key ∈ keys es ∨ key ∈ keys others := by
  induction others generalizing es with
  | nil => simp [update, keys]
  | cons e others ih =>
    have hstep : update es (e :: others) = update (insert e.1 e.2 es) others := rfl
    have hcons : key ∈ keys (e :: others) ↔ key = e.1 ∨ key ∈ keys others := List.mem_cons
    rw [hstep, ih, mem_keys_insert, hcons, or_comm (a := key = e.1), or_assoc]

theorem mem_keys_ofList : key ∈ keys (ofList es) ↔ key ∈ keys es := by
  rw [ofList, mem_keys_update]
  simp [keys]

/-- Leaving out other keys does not change what a key is bound to. -/
theorem find?_filter {p : String → Bool} (h : p key = true) (es : Entries α) :
    find? key (es.filter (p ·.1)) = find? key es := by
  induction es with
  | nil => rfl
  | cons e es ih =>
    rw [List.filter_cons]
    by_cases he : e.1 = key
    · rw [if_pos (he ▸ h), find?, find?, if_pos (by simpa using he), if_pos (by simpa using he)]
    · have hrest : find? key (e :: es) = find? key es := by rw [find?, if_neg (by simpa using he)]
      split
      · rw [find?, if_neg (by simpa using he), ih, hrest]
      · rw [ih, hrest]

/-- What a map is updated with lies over what it was. -/
theorem find?_update (h : (keys others).Nodup) :
    find? name (update es others) = (find? name others).or (find? name es) := by
  induction others generalizing es with
  | nil => rfl
  | cons e others ih =>
    rw [keys, List.map_cons, List.nodup_cons] at h
    have hstep : find? name (update es (e :: others)) =
        (find? name others).or (find? name (insert e.1 e.2 es)) := ih h.2
    rw [hstep, find?_insert, find?]
    by_cases he : name = e.1
    · have hfree : find? name others = none := find?_eq_none_iff.mpr (he ▸ h.1)
      rw [if_pos he, if_pos (by simpa using he.symm), hfree]
      rfl
    · rw [if_neg he, if_neg (by simpa using Ne.symm he)]

/-- Maps with distinct keys that bind the same names to the same things have the same entries. -/
theorem perm_of_find?_eq (hes : (keys es).Nodup) (hfs : (keys fs).Nodup)
    (h : ∀ key, find? key es = find? key fs) : es.Perm fs := by
  refine (List.perm_ext_iff_of_nodup (.of_map _ hes) (.of_map _ hfs)).mpr fun ⟨key, a⟩ => ?_
  rw [← find?_eq_some_iff hes, ← find?_eq_some_iff hfs, h]

end Workflow.Entries
