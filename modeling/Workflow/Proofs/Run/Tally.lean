import Workflow.Proofs.Run.Update
/-!
The attempts that the events of a run begin and end. An event that begins an attempt opens it, and the
attempt that was opened last is the first that an event may end, so that events pair up like brackets.
-/

namespace Workflow

/-- What an event says of the attempt that it begins or ends. -/
structure Tag where
  node : Option Value
  number : Option Value

def Tag.ofPayload (payload : Entries Value) : Tag where
  node := Entries.find? "nodeId" payload
  number := Entries.find? "attempt" payload

def Attempt.tag (a : Attempt) : Tag where
  node := some (.str a.node.id)
  number := some (.nat a.number)

namespace Effect

/-- The attempt that an event begins. -/
def begins? : Effect → Option Tag
  | .emit type payload _ => if type = "node.started" then some (.ofPayload payload) else none
  | _ => none

/-- The attempt that an event ends. -/
def ends? : Effect → Option Tag
  | .emit type payload _ =>
    if type = "node.completed" ∨ type = "node.failed" then some (.ofPayload payload) else none
  | _ => none

/-- Neither begins nor ends an attempt. -/
def IsUnmarked (e : Effect) : Prop :=
  e.begins? = none ∧ e.ends? = none

theorem isUnmarked_emit {type : String} (payload : Entries Value) (view : RunView)
    (h : type ∉ ["node.started", "node.completed", "node.failed"]) :
    (Effect.emit type payload view).IsUnmarked := by
  simp only [List.mem_cons, List.not_mem_nil, not_or] at h
  simp [IsUnmarked, begins?, ends?, h]

theorem IsMute.isUnmarked {e : Effect} (h : e.IsMute) : e.IsUnmarked := by
  cases e <;> first | exact ⟨rfl, rfl⟩ | cases h

theorem ends?_of_begins? {e : Effect} {tag : Tag} (h : e.begins? = some tag) : e.ends? = none := by
  cases e with
  | emit type payload view =>
    simp only [begins?, Option.ite_none_right_eq_some] at h
    simp [ends?, h.1]
  | _ => rfl

end Effect

/-- Some effects, the newest first, turn the attempts that are open into others. -/
inductive Tallies : List Tag → List Effect → List Tag → Prop
  | nil (o : List Tag) : Tallies o [] o
  | skip {o o' : List Tag} {d : List Effect} {e : Effect} (he : e.IsUnmarked) (h : Tallies o d o') :
      Tallies o (e :: d) o'
  | opens {o o' : List Tag} {d : List Effect} {e : Effect} {tag : Tag} (he : e.begins? = some tag)
      (h : Tallies o d o') : Tallies o (e :: d) (tag :: o')
  | closes {o o' : List Tag} {d : List Effect} {e : Effect} {tag : Tag} (he : e.ends? = some tag)
      (h : Tallies o d (tag :: o')) : Tallies o (e :: d) o'

namespace Tallies

variable {o o' o'' : List Tag} {d d' : List Effect} {e : Effect} {tag : Tag}

theorem append (h : Tallies o d o') (k : Tallies o' d' o'') : Tallies o (d' ++ d) o'' := by
  induction k with
  | nil => exact h
  | skip he _ ih => exact .skip he ih
  | opens he _ ih => exact .opens he ih
  | closes he _ ih => exact .closes he ih

theorem unmarked (o : List Tag) (h : ∀ e ∈ d, e.IsUnmarked) : Tallies o d o := by
  induction d with
  | nil => exact .nil o
  | cons e d ih =>
    exact .skip (h e List.mem_cons_self) (ih fun e he => h e (List.mem_cons_of_mem _ he))

/-- An attempt that was begun has been ended since, or it is open. -/
theorem closed_or_open {late early : List Effect} (h : Tallies o (late ++ e :: early) o')
    (he : e.begins? = some tag) : (∃ e' ∈ late, e'.ends? = some tag) ∨ tag ∈ o' := by
  induction late generalizing o' with
  | nil =>
    cases h with
    | skip hu _ =>
      rw [hu.1] at he
      cases he
    | opens hb _ =>
      rw [hb] at he
      cases he
      exact .inr List.mem_cons_self
    | closes hc _ =>
      rw [Effect.ends?_of_begins? he] at hc
      cases hc
  | cons e' late ih =>
    have later : (∃ f ∈ late, f.ends? = some tag) → ∃ f ∈ e' :: late, f.ends? = some tag :=
      fun ⟨f, hf, ht⟩ => ⟨f, List.mem_cons_of_mem _ hf, ht⟩
    cases h with
    | skip _ h => exact (ih h).imp_left later
    | opens _ h => exact (ih h).imp later (List.mem_cons_of_mem _)
    | closes hc h =>
      rcases ih h with hl | hm
      · exact .inl (later hl)
      · rcases List.mem_cons.mp hm with rfl | hm
        · exact .inl ⟨e', List.mem_cons_self, hc⟩
        · exact .inr hm

end Tallies

/-- The attempts that work waits in, the innermost first. -/
def openTags (p : List Pending) : List Tag :=
  p.filterMap fun
    | .attempt a _ => some a.tag
    | _ => none

end Workflow
