import Workflow.Proofs.Run.Failure
import Workflow.Proofs.Run.Recount
/-!
The trace of a run and its events, told side by side. The trace only grows, and it has what the events have
told. In a run that has completed the events that begin and end attempts pair up like brackets, unless a
loop over elements has taken a fault of its body for a failure of the elements.
-/

namespace Workflow

/-- As many attempts end as there were open before and begin, those apart that are open then. -/
theorem Tallies.count {o o' : List Tag} {d : List Effect} (h : Tallies o d o') : o.length + d.countP (·.begins?.isSome) =
    o'.length + d.countP (·.ends?.isSome) := by
  induction h with
  | nil => rfl
  | skip he _ ih => simpa [he.1, he.2] using ih
  | opens he _ ih =>
    rw [List.countP_cons_of_pos (by simp [he]), List.countP_cons_of_neg (by simp [Effect.ends?_of_begins? he]),
      List.length_cons]
    omega
  | @closes _ _ e _ he _ ih =>
    have hb : e.begins? = none := by
      cases hb : e.begins? with
      | none => rfl
      | some tag =>
        rw [Effect.ends?_of_begins? hb] at he
        cases he
    rw [List.countP_cons_of_neg (by simp [hb]), List.countP_cons_of_pos (by simp [he])]
    rw [List.length_cons] at ih
    omega

/-- An answer with which a run breaks off unless some work keeps it from that. -/
def Answer.IsBroken : Answer → Prop
  | .thrown _ | .outcome .cancelled => True
  | _ => False

/-- A fault is handed to a loop over elements. -/
def Stance.catches : Stance → Bool
  | some (.answer (.thrown _), .elements _ :: _) => true
  | _ => false

namespace Machine

variable {m : Machine} {p : List Pending} {a : Answer}

/-- Only a loop over elements keeps a fault from the work below it, and nothing keeps a cancellation. -/
theorem resume_broken (m : Machine) (env : Surroundings) {k : Pending} (hk : k.IsWalk) (ha : a.IsBroken)
    (hc : Stance.catches (some (.answer a, k :: p)) = false) : (m.resume env k a p).2 = .answer a p := by
  cases k with
  | slot held => exact absurd hk id
  | execution => exact absurd hk id
  | subexecution child => exact absurd hk id
  | plan c acts finish => exact absurd hk id
  | saving saveAs => exact absurd hk id
  | rest => exact absurd hk id
  | elements c =>
    cases a with
    | thrown f => cases hc
    | outcome r => cases r <;> first | rfl | cases ha
    | _ => cases ha
  | invocation place node child returns =>
    cases a with
    | thrown f => cases returns <;> rfl
    | outcome r => cases r <;> cases returns <;> rfl
    | _ => cases ha
  | _ =>
    cases a with
    | thrown f => rfl
    | outcome r => cases r <;> first | rfl | cases ha
    | _ => cases ha

theorem status_endPause (m : Machine) : m.endPause.run.status = m.run.status :=
  (congrArg Run.status (Silent.endPause m).mute.run :)

/-- A run that is ended by a failure or a cancellation has not completed. -/
theorem finalize_broken (hs : m.run.status.isTerminal = false) (stamp : Instant) {r : Outcome}
    (hr : ∀ l, r ≠ .completed l) : (m.finalize stamp r).run.status = .failed ∨
      (m.finalize stamp r).run.status = .cancelled := by
  unfold finalize
  rw [hs, if_neg (by simp)]
  dsimp only
  rw [status_endPause]
  split
  · exact .inr rfl
  · cases r with
    | completed l => exact absurd rfl (hr l)
    | failed e node => exact .inl rfl
    | cancelled => exact .inr rfl

/-- What a run breaks off with goes through all work of a walk and then ends the run. -/
theorem Underway.breaks (hu : Underway m p) (hs : m.run.status.isTerminal = false) (env : Surroundings)
    (self : TaskId) (ha : a.IsBroken) (hc : Stance.catches (some (.answer a, p)) = false) :
    let x := m.step env self (.answer a) p
    (x.1.run.status = .failed ∨ x.1.run.status = .cancelled) ∨ ∃ q, x.2 = .answer a q ∧ ¬ IsBottom q := by
  obtain ⟨q, b, rfl, hq, -⟩ := hu.work
  rcases q with _ | ⟨k, q⟩
  · cases a with
    | thrown f => exact .inl (finalize_broken hs _ (by simp))
    | outcome r =>
      cases r with
      | cancelled => exact .inl (finalize_broken hs _ (by simp))
      | _ => exact absurd ha id
    | _ => exact absurd ha id
  · exact .inr ⟨_, resume_broken m env (hq k List.mem_cons_self) ha hc, Machine.not_isBottom q b⟩

/-- What drops an attempt is what a run breaks off with. -/
theorem Stands.broken_of_drops {c : Control} (h : Stands m c p) (hd : Drops c p) :
    ∃ a, c = .answer a ∧ a.IsBroken ∧ ¬ IsBottom p := by
  cases c with
  | answer a =>
    cases p with
    | nil => exact absurd hd id
    | cons k p =>
      cases k with
      | attempt b since =>
        have hb : ¬ IsBottom (.attempt b since :: p) := id
        have met (hm : a.Meets (.attempt b since :: p)) : a.IsBroken := by
          cases a with
          | thrown f => trivial
          | outcome r =>
            cases hd r rfl
            trivial
          | _ => exact absurd hm id
        refine ⟨a, rfl, ?_, hb⟩
        cases h with
        | walk _ _ _ hm _ => exact met hm
        | back _ _ hm => exact met hm
        | unwind => trivial
        | ended _ hp => exact absurd hp hb
      | _ => exact absurd hd id
  | _ => exact absurd hd id

end Machine

namespace Execution

variable {x y : Execution} {w : World} {i : Input} {is : List Input}

/-- What an input adds to the log and to the trace. -/
structure Adds (x y : Execution) (d : List Effect) (xs : List TraceEntry) : Prop where
  log : y.log = d ++ x.log
  trace : y.machine.run.trace.toList = x.machine.run.trace.toList ++ xs
  recounts : Recounts d xs

/-- The walker drops the attempt that it is in. -/
def Drops (x : Execution) : Prop :=
  ∃ c p, x.stance = some (c, p) ∧ Machine.Drops c p

/-- What is added by an input turns the attempts that are open into those that are open after it, unless
one is dropped. -/
def Grows (x y : Execution) : Prop :=
  ∃ d xs, x.Adds y d xs ∧ ∃ o, Tallies x.stance.openTags d o ∧ (¬ x.Drops → o = y.stance.openTags)

theorem treads_grows (h : x.IsSound) {s : Strand} (hs : x.active = some s)
    (hm : x.machine.main = some s.task) (now : Moment) : x.Grows (x.step w now) := by
  have hstance : x.stance = some (s.control, s.pending) := stance_of_walker hs hm
  have ht := step_treads (w := w) h hs hm now
  obtain ⟨late, hl, hmute⟩ := step_log (w := w) hs now
  obtain ⟨o, ⟨d, xs, hd, hx, hr, htally⟩, ho⟩ := Machine.step_records x.machine (w.surroundings now)
    s.task s.control s.pending
  rw [h.1, List.append_nil] at hd
  rw [hd] at hl
  have hrun : (x.step w now).machine.run =
      (x.machine.step (w.surroundings now) s.task s.control s.pending).1.run :=
    (congrArg Machine.run ht.core :)
  refine ⟨late ++ d, xs, ⟨hl, ?_, ?_⟩, o, ?_, fun hdrop => ?_⟩
  · rw [hrun]
    exact hx
  · have hlate : Recounts late [] := .nil fun e he => (hmute e he).isAside.2
    rw [← List.append_nil xs]
    exact hr.append hlate
  · rw [hstance]
    exact htally.append (.unmarked o fun e he => (hmute e he).isUnmarked)
  · rw [ht.stance, Turn.openTags_stance]
    exact ho fun hd => hdrop ⟨_, _, hstance, hd⟩

theorem attends_grows (h : x.Attends y)
    (hl : ∃ late, y.log = late ++ x.log ∧ ∀ e ∈ late, e.IsMute) : x.Grows y := by
  obtain ⟨late, hl, hmute⟩ := hl
  have hrun : y.machine.run = x.machine.run := (congrArg Machine.run h.watchers :)
  refine ⟨late, [], ⟨hl, by rw [hrun, List.append_nil], .nil fun e he => (hmute e he).isAside.2⟩,
    _, .unmarked _ fun e he => (hmute e he).isUnmarked, fun _ => h.stance.openTags.symm⟩

theorem move_grows (h : x.IsSound) (a : Move) : x.Grows (x.move w a) := by
  by_cases hw : ∃ now s, a = .step now ∧ x.active = some s ∧ x.machine.main = some s.task
  · obtain ⟨now, s, rfl, hs, hm⟩ := hw
    have hstep : x.move w (.step now) = x.step w now := if_pos (by simp [allows, isIdle, hs])
    rw [hstep]
    exact treads_grows h hs hm now
  · rcases move_cases (w := w) h a with ha | ⟨now, s, rfl, ht⟩
    · exact attends_grows ha (move_mute h fun now s ha hs hm => hw ⟨now, s, ha, hs, hm⟩)
    · exact absurd ⟨now, s, rfl, ht.active, ht.main⟩ hw

theorem obey_grows (h : x.IsSound) (c : Command) : x.Grows (x.obey c) := by
  have htags : (x.obey c).stance.openTags = x.stance.openTags := by
    obtain hs | ⟨hm, d, hd, -⟩ := obey_cases h c
    · exact hs.openTags
    · rw [hd, Execution.stance, hm]
      rfl
  obtain ⟨d, xs, hd, hx, hr, ht⟩ := Machine.obey_records (o := x.stance.openTags) x.machine c
  rw [h.1, List.append_nil] at hd
  unfold obey at htags ⊢
  split
  · rename_i hi
    rw [if_pos hi] at htags
    exact ⟨d, xs, ⟨congrArg (· ++ x.log) hd, hx, hr⟩, _, ht, fun _ => htags.symm⟩
  · exact ⟨[], [], ⟨rfl, by simp, .nil (by simp)⟩, _, .nil _, fun _ => rfl⟩

theorem take_grows (h : x.IsSound) (i : Input) : x.Grows (x.take w i) := by
  cases i with
  | move a => exact move_grows h a
  | command c => exact obey_grows h c

/-! The trace and the events. -/

theorem Adds.trans {z : Execution} {d d' : List Effect} {xs xs' : List TraceEntry} (h : x.Adds y d xs)
    (k : y.Adds z d' xs') : x.Adds z (d' ++ d) (xs ++ xs') where
  log := by rw [k.log, h.log, List.append_assoc]
  trace := by rw [k.trace, h.trace, List.append_assoc]
  recounts := h.recounts.append k.recounts

theorem after_adds (h : x.IsSound) (is : List Input) : ∃ d xs, x.Adds (after w is x) d xs := by
  induction is generalizing x with
  | nil => exact ⟨[], [], rfl, by simp [after], .nil (by simp)⟩
  | cons i is ih =>
    obtain ⟨d, xs, hadds, -⟩ := take_grows (w := w) h i
    obtain ⟨d', xs', hadds'⟩ := ih (take_isSound h i)
    exact ⟨_, _, hadds.trans hadds'⟩

/-! Brackets. -/

/-- The run has failed or was cancelled, or it is about to. -/
def IsLost (x : Execution) : Prop :=
  (x.machine.run.status = .failed ∨ x.machine.run.status = .cancelled) ∨
    ∃ a p, x.stance = some (.answer a, p) ∧ a.IsBroken ∧ ¬ Machine.IsBottom p

/-- The attempts that have begun and whose end is not told are those that the walker is in, unless the run
is lost. -/
def IsBracketed (x : Execution) : Prop :=
  x.IsLost ∨ Tallies [] x.log x.stance.openTags

theorem Drops.isLost (h : x.IsSound) (hd : x.Drops) : x.IsLost := by
  obtain ⟨c, p, hs, hd⟩ := hd
  obtain hstands | ⟨v, rfl, -⟩ := h.stands hs
  · obtain ⟨a, rfl, ha, hp⟩ := hstands.broken_of_drops hd
    exact .inr ⟨a, p, hs, ha, hp⟩
  · exact absurd hd id

/-- A run that is lost stays so, if no loop over elements is handed a fault. -/
theorem IsLost.take (h : x.IsSound) (hl : x.IsLost) (hc : x.stance.catches = false) (i : Input) :
    (x.take w i).IsLost := by
  rcases hl with hs | ⟨a, p, hs, ha, hp⟩
  · obtain ⟨d, xs, hadds, -⟩ := take_grows (w := w) h i
    have ht : x.machine.run.status.isTerminal = true := by rcases hs with hs | hs <;> rw [hs] <;> rfl
    have hsame := status_eq_of_terminal h (take_isSound (w := w) h i) ht ⟨d, hadds.log⟩
    exact .inl (hsame ▸ hs)
  have stirred {y : Execution} (hy : x.stance.Stirs y.stance) : y.IsLost := by
    rw [hs] at hy
    generalize hb : y.stance = b at hy
    cases hy
    exact .inr ⟨a, p, hb, ha, hp⟩
  cases i with
  | command c =>
    rcases obey_cases h c with hy | ⟨hm, -⟩
    · exact stirred hy
    · rw [Execution.stance, hm] at hs
      cases hs
  | move b =>
    rcases move_cases (w := w) h b with hy | ⟨now, s, rfl, ht⟩
    · exact stirred hy.stance
    have hstance := stance_of_walker ht.active ht.main
    obtain ⟨t, c, q⟩ := s
    cases hs.symm.trans hstance
    rw [hs] at hc
    obtain hstands | ⟨v, hv, -⟩ := h.stands hs
    · obtain ⟨hu, hstatus⟩ := hstands.underway hp
      rcases hu.breaks hstatus (w.surroundings now) t ha hc with hdone | ⟨q, hq, hb⟩
      · have hrun := congrArg (·.run.status) ht.core
        exact .inl (hdone.imp hrun.trans hrun.trans)
      · refine .inr ⟨a, q, ht.stance.trans ?_, ha, hb⟩
        rw [hq]
        rfl
    · cases hv

theorem IsBracketed.take (h : x.IsSound) (hb : x.IsBracketed) (hc : x.stance.catches = false) (i : Input) :
    (x.take w i).IsBracketed := by
  by_cases hl : x.IsLost
  · exact .inl (hl.take h hc i)
  · obtain ⟨d, xs, hadds, o, ht, ho⟩ := take_grows (w := w) h i
    refine .inr ?_
    rw [hadds.log, ← ho fun hd => hl (hd.isLost h)]
    exact (hb.resolve_left hl).append ht

/-- No loop over elements is handed a fault, up to some inputs. -/
def isUncaught (w : World) : List Input → Execution → Bool
  | [], _ => true
  | i :: is, x => !x.stance.catches && isUncaught w is (x.take w i)

theorem IsBracketed.after (h : x.IsSound) (hb : x.IsBracketed) (hn : isUncaught w is x = true) :
    (after w is x).IsBracketed := by
  induction is generalizing x with
  | nil => exact hb
  | cons i is ih =>
    simp only [isUncaught, Bool.and_eq_true, Bool.not_eq_true'] at hn
    exact ih (take_isSound h i) (hb.take h hn.1 i) hn.2

/-- A run that has completed has no attempt open. -/
theorem IsBracketed.tallies (h : x.IsSound) (hb : x.IsBracketed) (hs : x.machine.run.status = .completed) :
    Tallies [] x.log [] := by
  have ht : x.machine.run.status.isTerminal = true := by rw [hs]; rfl
  have bottom {c : Control} {p : List Pending} (hs : x.stance = some (c, p)) : Machine.IsBottom p := by
    obtain hs | ⟨v, -, hv⟩ := h.stands hs
    · exact hs.isBottom ht
    · exact hv.isBottom ht
  have htags : x.stance.openTags = [] := by
    cases hst : x.stance with
    | none => rfl
    | some cp => exact Machine.openTags_of_isBottom (bottom (p := cp.2) hst)
  rcases hb with (hb | ⟨a, p, hst, -, hp⟩) | hb
  · rw [hs] at hb
    rcases hb with hb | hb <;> cases hb
  · exact absurd (bottom hst) hp
  · rwa [htags] at hb

/-- However a run is carried out and whatever is done to it, its trace only grows, and its entries, those
of cancelled attempts apart, are one by one what its events tell of the ends of visits. Once it has
completed, its events that begin and end attempts pair up like brackets, unless a loop over elements was
handed a fault. -/
theorem trace_told (w : World) (id : String) (flow : Flow) (bindings : Entries Value)
    (breakpoints : Breakpoints) (pauseOnStart : Bool) (stamp : Instant) (is : List Input) :
    let x := ofMachine (.create id flow bindings breakpoints pauseOnStart stamp)
    let y := after w is x
    (∀ js, ∃ xs, (after w js y).machine.run.trace.toList = y.machine.run.trace.toList ++ xs) ∧
    Recounts y.log y.machine.run.trace.toList ∧
    (isUncaught w is x = true → y.machine.run.status = .completed → Tallies [] y.log []) := by
  intro x y
  have hx : x.IsSound := create_isSound id flow bindings breakpoints pauseOnStart stamp
  have hy : y.IsSound := after_isSound hx is
  refine ⟨fun js => ?_, ?_, fun hn hs => ?_⟩
  · obtain ⟨d, xs, hadds⟩ := after_adds (w := w) hy js
    exact ⟨xs, hadds.trace⟩
  · obtain ⟨d, xs, hadds⟩ := after_adds (w := w) hx is
    rw [hadds.log, hadds.trace]
    show Recounts (d ++ []) ([] ++ xs)
    rw [List.append_nil, List.nil_append]
    exact hadds.recounts
  · exact (IsBracketed.after hx (.inr (.nil [])) hn).tallies hy hs

/-- A world with one element. -/
def oneElement : World where
  settings := {}
  provider := some { elements := .ok [{ item := .ok (.nat 1) }] }
  calm := by
    intro p hp es hes e he a ha
    cases hp
    cases hes
    cases List.mem_singleton.mp he
    cases ha

/-- A loop over elements in whose body there is a loop with a bound. -/
def looping (bound : Float) : Flow where
  id := "main"
  nodes := [
    { id := "each", kind := "loopElements", policy := some [("onError", .str "continue")]
      config := [("selector", .str "rows"), ("subflowId", .str "body")] }]
  subflows := [("body", {
    id := "body"
    nodes := [
      { id := "loop", kind := "while"
        config := [("maxIterations", .num (.float bound)), ("condition", .bool false),
          ("subflowId", .str "body")] }] })]

/-- A run of a flow that takes up to thirty steps. -/
def thirtySteps (flow : Flow) : List Input :=
  .command (.start false) :: .move (.begin 0) :: List.replicate 30 (.move (.step (knowing flow)))

/-- What comes of a run of the loops. -/
def looped (bound : Float) : Execution :=
  after oneElement (thirtySteps (looping bound)) (ofMachine (.create "" (looping bound) [] [] false 0))

/-- The bound of the inner loop is no number: the attempts at both loops fail, and the run completes. -/
theorem trace_told_looping :
    isUncaught oneElement (thirtySteps (looping Double.notANumber))
      (ofMachine (.create "" (looping Double.notANumber) [] [] false 0)) = true ∧
    (looped Double.notANumber).machine.run.status = .completed ∧
    Tallies [] (looped Double.notANumber).log [] := by
  have hn : isUncaught oneElement (thirtySteps (looping Double.notANumber))
      (ofMachine (.create "" (looping Double.notANumber) [] [] false 0)) = true := by decide +kernel
  have hs : (looped Double.notANumber).machine.run.status = .completed := by decide +kernel
  obtain ⟨-, -, htold⟩ := trace_told oneElement "" (looping Double.notANumber) [] [] false 0
    (thirtySteps (looping Double.notANumber))
  rw [looped] at hs ⊢
  exact ⟨hn, hs, htold hn hs⟩

/-- The bound of the inner loop is infinite: the attempt at it is never told to end, and yet the run
completes. -/
theorem inner_attempt_untold : (looped Double.positiveInfinity).machine.run.status = .completed ∧
    ¬ Tallies [] (looped Double.positiveInfinity).log [] := by
  refine ⟨by decide +kernel, fun h => ?_⟩
  have hcount := h.count
  revert hcount
  decide +kernel

end Execution

end Workflow
