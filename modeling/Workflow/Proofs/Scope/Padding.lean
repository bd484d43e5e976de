import Workflow.Proofs.Run.Layers
/-!
Scopes with one layer more that binds nothing and passes on what is written. As long as there are layers
behind it, reads do not notice it, and all that is written through it lands where it would without it.
-/

namespace Workflow.Scope

/-- A layer that binds nothing and passes on what is written. -/
def hollow : Layer := { shared := true }

/-- A scope has a hollow layer more than another one, behind so many layers and in front of others. -/
def Pads (n : Nat) (s t : Scope) : Prop :=
  ∃ near rest, near.length = n ∧ rest ≠ [] ∧ s = near ++ rest ∧ t = near ++ hollow :: rest

namespace Pads

variable {n : Nat} {s t : Scope}

theorem cons (h : Pads n s t) (l : Layer) : Pads (n + 1) (l :: s) (l :: t) := by
  obtain ⟨near, rest, hn, hr, rfl, rfl⟩ := h
  exact ⟨l :: near, rest, by simp [hn], hr, rfl, rfl⟩

/-- A padded scope is one whose first layer is hollow, or one layer more in front of a padded scope. -/
theorem elim {P : Nat → Scope → Scope → Prop} (h : Pads n s t)
    (here : ∀ s, s ≠ [] → P 0 s (hollow :: s))
    (there : ∀ n s t l, Pads n s t → P n s t → P (n + 1) (l :: s) (l :: t)) : P n s t := by
  obtain ⟨near, rest, rfl, hr, rfl, rfl⟩ := h
  induction near with
  | nil => exact here rest hr
  | cons l near ih => exact there _ _ _ l ⟨near, rest, rfl, hr, rfl, rfl⟩ ih

theorem ne_nil (h : Pads n s t) : s ≠ [] ∧ t ≠ [] := by
  obtain ⟨near, rest, -, hr, rfl, rfl⟩ := h
  simp [hr]

theorem find?_eq (h : Pads n s t) (key : String) : t.find? key = s.find? key := by
  refine h.elim (P := fun _ s t => t.find? key = s.find? key) (fun s _ => rfl) fun n s t l _ ih => ?_
  rw [find?, find?, ih]

theorem contains_eq (h : Pads n s t) (key : String) : t.contains key = s.contains key := by
  rw [contains, contains, h.find?_eq]

theorem keys_eq (h : Pads n s t) : t.keys = s.keys := by
  refine h.elim (P := fun _ s t => t.keys = s.keys) (fun s _ => ?_) fun n s t l _ ih => ?_
  · rw [keys]
    exact List.filter_eq_self.mpr fun _ _ => rfl
  · rw [keys, keys, ih]

theorem snapshot_eq (h : Pads n s t) : t.snapshot = s.snapshot := by
  refine h.elim (P := fun _ s t => t.snapshot = s.snapshot) (fun s _ => rfl) fun n s t l _ ih => ?_
  rw [snapshot, snapshot, ih]

theorem vars_eq (h : Pads n s t) : t.vars = s.vars := by
  unfold vars visible
  simp only [h.keys_eq, h.find?_eq]

theorem set (h : Pads n s t) (key : String) (v : Value) :
    Pads n (Scope.set key v s) (Scope.set key v t) := by
  refine h.elim (P := fun n s t => Pads n (Scope.set key v s) (Scope.set key v t)) (fun s hs => ?_)
    fun n s t l h ih => ?_
  · have hset : Scope.set key v (hollow :: s) = hollow :: Scope.set key v s := by
      rw [Scope.set, if_pos]
      simpa [hollow, Entries.contains, Entries.find?] using hs
    rw [hset]
    exact ⟨[], _, rfl, set_ne_nil hs key v, rfl, rfl⟩
  · have he : t.isEmpty = s.isEmpty := by
      rw [List.isEmpty_eq_false_iff.mpr h.ne_nil.1, List.isEmpty_eq_false_iff.mpr h.ne_nil.2]
    rw [Scope.set, Scope.set, he]
    split
    · exact ih.cons l
    · exact h.cons _

theorem foldl {α : Type} {f : Scope → α → Scope}
    (hf : ∀ {s t} (a : α), Pads n s t → Pads n (f s a) (f t a)) (as : List α) (h : Pads n s t) :
    Pads n (as.foldl f s) (as.foldl f t) := by
  induction as generalizing s t with
  | nil => exact h
  | cons a as ih => exact ih (hf a h)

theorem update (h : Pads n s t) (entries : Entries Value) :
    Pads n (s.update entries) (t.update entries) :=
  foldl (fun e h => h.set e.1 e.2) entries h

/-- Defaults are bound as far as names are free. -/
theorem default (h : Pads n s t) (entries : Entries Value) :
    Pads n (entries.foldl (fun s (name, v) => if Scope.contains name s then s else Scope.set name v s) s)
      (entries.foldl (fun s (name, v) => if Scope.contains name s then s else Scope.set name v s) t) := by
  refine foldl (fun e h => ?_) entries h
  dsimp only
  rw [h.contains_eq]
  split
  · exact h
  · exact h.set _ _

end Pads

end Workflow.Scope
