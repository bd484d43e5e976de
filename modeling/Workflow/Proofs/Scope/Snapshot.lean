import Workflow.Proofs.Value.Entries
import Workflow.Run.Scope
/-!
A scope and its snapshot: a read falls through the layers, the snapshot overlays them from the
farthest one on, and both come to the same map.
-/

namespace Workflow.Scope

variable {s : Scope} {l : Layer} {key : String}

/-- No layer binds a name twice. -/
def IsProper (s : Scope) : Prop :=
  ∀ l ∈ s, (Entries.keys l.bindings).Nodup

theorem IsProper.head (h : IsProper (l :: s)) : (Entries.keys l.bindings).Nodup :=
  h l List.mem_cons_self

theorem IsProper.tail (h : IsProper (l :: s)) : s.IsProper :=
  fun k hk => h k (List.mem_cons_of_mem _ hk)

/-- A read through the layers gives what the snapshot binds. -/
theorem find?_snapshot (h : s.IsProper) : Entries.find? key s.snapshot = s.find? key := by
  induction s with
  | nil => rfl
  | cons l s ih =>
    rw [snapshot, Entries.find?_update h.head, ih h.tail, find?]
    cases Entries.find? key l.bindings <;> rfl

theorem nodup_keys_snapshot (s : Scope) : (Entries.keys s.snapshot).Nodup := by
  cases s with
  | nil => exact List.nodup_nil
  | cons l s => exact Entries.nodup_keys_update (nodup_keys_snapshot s)

theorem contains_cons : contains key (l :: s) = (Entries.contains key l.bindings || contains key s) := by
  rw [contains, contains, find?, Entries.contains]
  cases Entries.find? key l.bindings <;> rfl

/-- The names that iterating comes across are those that are bound. -/
theorem mem_keys_iff : key ∈ s.keys ↔ s.contains key = true := by
  induction s with
  | nil => simp [keys, contains, find?]
  | cons l s ih =>
    rw [keys, List.mem_append, List.mem_filter, ih, contains_cons, ← Entries.contains_iff]
    cases Entries.contains key l.bindings <;> simp

/-- Iterating comes across no name twice. -/
theorem nodup_keys (h : s.IsProper) : s.keys.Nodup := by
  induction s with
  | nil => exact List.nodup_nil
  | cons l s ih =>
    refine List.Nodup.append h.head ((ih h.tail).filter _) fun key hl hs => ?_
    have hfree := (List.mem_filter.mp hs).2
    rw [Entries.contains_iff.mpr hl] at hfree
    cases hfree

theorem contains_snapshot (h : s.IsProper) : Entries.contains key s.snapshot = s.contains key := by
  rw [Entries.contains, find?_snapshot h, contains]

theorem keys_perm_snapshot (h : s.IsProper) : s.keys.Perm (Entries.keys s.snapshot) := by
  refine (List.perm_ext_iff_of_nodup (nodup_keys h) (nodup_keys_snapshot s)).mpr fun key => ?_
  rw [mem_keys_iff, ← contains_snapshot h, Entries.contains_iff]

theorem size_eq_length_snapshot (h : s.IsProper) : s.size = s.snapshot.length := by
  rw [size, (keys_perm_snapshot h).length_eq, Entries.keys, List.length_map]

/-- The visible bindings are those of the names that iterating comes across. -/
theorem keys_visible (s : Scope) : Entries.keys s.visible = s.keys := by
  have hall : ∀ ks : List String, (∀ k ∈ ks, k ∈ s.keys) →
      Entries.keys (ks.filterMap fun k => (s.find? k).map (k, ·)) = ks := by
    intro ks hks
    induction ks with
    | nil => rfl
    | cons k ks ih =>
      obtain ⟨v, hv⟩ := Option.isSome_iff_exists.mp (mem_keys_iff.mp (hks k List.mem_cons_self))
      have hrest := ih fun k hk => hks k (List.mem_cons_of_mem _ hk)
      rw [List.filterMap_cons_some (b := (k, v)) (by rw [hv]; rfl), Entries.keys, List.map_cons]
      exact congrArg (k :: ·) hrest
  exact hall s.keys fun _ hk => hk

theorem nodup_keys_visible (h : s.IsProper) : (Entries.keys s.visible).Nodup := by
  rw [keys_visible]
  exact nodup_keys h

theorem find?_visible (h : s.IsProper) : Entries.find? key s.visible = s.find? key := by
  refine Option.ext fun v => ?_
  rw [Entries.find?_eq_some_iff (nodup_keys_visible h), visible, List.mem_filterMap]
  constructor
  · rintro ⟨k, -, hk⟩
    obtain ⟨w, hw, he⟩ := Option.map_eq_some_iff.mp hk
    cases he
    exact hw
  · intro hv
    exact ⟨key, mem_keys_iff.mpr (by rw [contains, hv]; rfl), by rw [hv]; rfl⟩

/-- As a map, what is visible in a scope is its snapshot. -/
theorem visible_perm_snapshot (h : s.IsProper) : s.visible.Perm s.snapshot :=
  Entries.perm_of_find?_eq (nodup_keys_visible h) (nodup_keys_snapshot s) fun key => by
    rw [find?_visible h, find?_snapshot h]

end Workflow.Scope
