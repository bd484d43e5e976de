/-!
Names with dots between their parts.
-/

namespace Workflow.Text

/-- The parts of a name; one without dots is its only part. -/
def parts (s : String) : List String :=
  (s.toList.splitOn '.').map String.ofList

theorem parts_ne_nil (s : String) : parts s ≠ [] := by
  simp [parts]

theorem intercalate_parts (s : String) : ".".intercalate (parts s) = s := by
  simp [← String.toList_inj, String.toList_intercalate, parts, Function.comp_def]

theorem parts_intercalate {ps : List String} (hne : ps ≠ []) (h : ∀ p ∈ ps, '.' ∉ p.toList) :
    parts (".".intercalate ps) = ps := by
  have hs : (['.'].intercalate (ps.map String.toList)).splitOn '.' = ps.map String.toList := by
    apply List.splitOn_intercalate
    · simpa using h
    · simpa using hne
  simp [parts, String.toList_intercalate, hs, Function.comp_def]

theorem not_mem_of_mem_splitOn {cs p : List Char} (h : p ∈ cs.splitOn '.') : '.' ∉ p := by
  induction cs generalizing p with
  | nil =>
    cases List.mem_singleton.mp h
    simp
  | cons c cs ih =>
    rw [List.splitOn_cons_eq_if_modifyHead] at h
    split at h
    · rcases List.mem_cons.mp h with rfl | h
      · simp
      · exact ih h
    · rename_i hc
      cases hs : cs.splitOn '.' with
      | nil => exact absurd hs (List.splitOn_ne_nil _ _)
      | cons q qs =>
        rw [hs, List.modifyHead_cons] at h
        rcases List.mem_cons.mp h with rfl | h
        · have hq := ih (hs ▸ List.mem_cons_self)
          have hc : c ≠ '.' := by simpa using hc
          simp [hq, hc.symm]
        · exact ih (hs ▸ List.mem_cons_of_mem _ h)

/-- No part of a name has a dot in it. -/
theorem not_mem_of_mem_parts {s p : String} (h : p ∈ parts s) : '.' ∉ p.toList := by
  obtain ⟨q, hq, rfl⟩ := List.mem_map.mp h
  simpa using not_mem_of_mem_splitOn hq

theorem parts_eq_iff {s : String} {ps : List String} :
    parts s = ps ↔ ps ≠ [] ∧ (∀ p ∈ ps, '.' ∉ p.toList) ∧ s = ".".intercalate ps := by
  constructor
  · rintro rfl
    exact ⟨parts_ne_nil s, fun p => not_mem_of_mem_parts, (intercalate_parts s).symm⟩
  · rintro ⟨hne, h, rfl⟩
    exact parts_intercalate hne h

end Workflow.Text
