import Workflow.Proofs.Run.Post
/-!
A run in any surroundings: its handlers may be planned ones that carry out flows, and anything may
happen before the elements of a live collection. What the surroundings are may change from one step to
the next.
-/

namespace Workflow

/-- What can happen to a run, in any surroundings. -/
inductive Happening where
  | begin (task : TaskId)
  | step (env : Surroundings)
  | tell (task : TaskId) (ticket : Nat)
  | grant (task : TaskId)
  | command (c : Command)
  /-- The task that executes the run is cancelled. -/
  | interrupt

/-- What a move or a command is in a world. -/
def Input.happening (w : World) : Input → Happening
  | .move (.begin t) => .begin t
  | .move (.step now) => .step (w.surroundings now)
  | .move (.tell t ticket) => .tell t ticket
  | .move (.grant t) => .grant t
  | .command c => .command c

namespace Execution

variable {x : Execution} {env : Surroundings} {s : Strand} {t u : TaskId}

/-- What becomes of a run by something that happens, if it can happen at all. -/
def meet (x : Execution) : Happening → Execution
  | .begin t => if x.allows (.begin t) then x.begin t else x
  | .step env => x.stepIn env
  | .tell t ticket => if x.allows (.tell t ticket) then x.put (x.machine.tell t ticket) none else x
  | .grant t => if x.allows (.grant t) then x.grant t else x
  | .command c => x.obey c
  | .interrupt => if x.isIdle then x.put x.machine.interruptMain none else x

/-- What becomes of a run by something that happens: nothing if it cannot happen, else what follows from
it. -/
inductive Undergoes (x : Execution) : Happening → Execution → Prop
  | refused {a : Happening} (ha : ∀ env, a ≠ .step env) : Undergoes x a x
  | begin {t : TaskId} (ha : x.allows (.begin t) = true) : Undergoes x (.begin t) (x.begin t)
  | step (env : Surroundings) : Undergoes x (.step env) (x.stepIn env)
  | tell {t : TaskId} {ticket : Nat} (hi : x.isIdle = true) :
    Undergoes x (.tell t ticket) (x.put (x.machine.tell t ticket) none)
  | grant {t : TaskId} (ha : x.allows (.grant t) = true) : Undergoes x (.grant t) (x.grant t)
  | command {c : Command} (hi : x.isIdle = true) :
    Undergoes x (.command c) (x.put (x.machine.obey c).1 none)
  | interrupt (hi : x.isIdle = true) : Undergoes x .interrupt (x.put x.machine.interruptMain none)

theorem undergoes (x : Execution) (a : Happening) : x.Undergoes a (x.meet a) := by
  unfold meet
  cases a with
  | step env => exact .step env
  | begin t =>
    dsimp only
    split
    · exact .begin (by assumption)
    · exact .refused (by simp)
  | tell t ticket =>
    dsimp only
    split
    · rename_i ha
      simp only [allows, Bool.and_eq_true] at ha
      exact .tell ha.1.1
    · exact .refused (by simp)
  | grant t =>
    dsimp only
    split
    · exact .grant (by assumption)
    · exact .refused (by simp)
  | command c =>
    dsimp only [obey]
    split
    · exact .command (by assumption)
    · exact .refused (by simp)
  | interrupt =>
    dsimp only
    split
    · exact .interrupt (by assumption)
    · exact .refused (by simp)

/-- The execution after some things have happened. -/
def following : List Happening → Execution → Execution
  | [], x => x
  | h :: hs, x => following hs (x.meet h)

theorem following_append (hs js : List Happening) (x : Execution) :
    following (hs ++ js) x = following js (following hs x) := by
  induction hs generalizing x with
  | nil => rfl
  | cons h hs ih => exact ih _

theorem meet_happening (w : World) (i : Input) (x : Execution) :
    x.meet (i.happening w) = x.take w i := by
  cases i with
  | command c => rfl
  | move a =>
    cases a with
    | step now =>
      show x.step w now = x.move w (.step now)
      unfold move
      split
      · rfl
      · rename_i hn
        have hi : x.active = none := by simpa [allows, isIdle] using hn
        unfold step
        rw [hi]
    | _ => rfl

/-- What happens in a world are its moves and commands. -/
theorem following_happening (w : World) (is : List Input) (x : Execution) :
    following (is.map (Input.happening w)) x = after w is x := by
  induction is generalizing x with
  | nil => rfl
  | cons i is ih =>
    rw [List.map_cons, following, meet_happening, ih]
    rfl

end Execution

end Workflow
