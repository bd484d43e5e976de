import Workflow.Proofs.Run.Stance
/-!
The gist of a run: what its course depends on. Breakpoints, pauses and requests for them, the tasks
and their tickets, the times that are noted and the events are left out of it. Steps of the walker from
states with the same gist lead to states with the same gist, so that no step makes anything of the rest.
-/

namespace Workflow

/-- The status, where a pause makes no difference. -/
def Status.unpaused : Status → Status
  | .paused => .running
  | s => s

namespace Status

variable {s s' : Status}

theorem isTerminal_unpaused : s.unpaused.isTerminal = s.isTerminal := by
  cases s <;> rfl

theorem unpaused_eq_pending : s.unpaused = .pending ↔ s = .pending := by
  cases s <;> simp [unpaused]

theorem unpaused_unpaused : s.unpaused.unpaused = s.unpaused := by
  cases s <;> rfl

theorem unpaused_of_terminal (h : s.isTerminal = true) : s.unpaused = s := by
  cases s <;> first | rfl | cases h

end Status

/-- A step that was traced, without its time. -/
def TraceEntry.undated (e : TraceEntry) : TraceEntry :=
  { e with time := 0 }

/-- The record of a run without its times, its pauses and its breakpoints. -/
def Run.gist (r : Run) : Run :=
  { r with
    status := r.status.unpaused
    trace := r.trace.map TraceEntry.undated
    breakpoints := [], pauseReason := none, createdAt := 0, startedAt := none, finishedAt := none }

theorem Run.gist_gist (r : Run) : r.gist.gist = r.gist := by
  unfold Run.gist
  simp [Status.unpaused_unpaused, TraceEntry.undated, Function.comp_def]

/-- The work that waits without slots that are held, and without the time since which it waits. -/
def Pending.gist? : Pending → Option Pending
  | .slot _ => none
  | .attempt a _ => some (.attempt a 0.0)
  | k => some k

/-- What there is to be done once a wait is over, where the course of the run leaves no choice. -/
def Control.gist : Control → Control
  | .enqueue | .wake (.start _ _) _ _ => .execute
  | .wake .resumption _ _ => .answer .done
  | .wake (.settlement a _ _) _ _ => .wake (.settlement a 0 0) false false
  | .wake (.removal _ o _) _ _ => .answer (.outcome o)
  | .wake (.nap _) _ _ | .wake (.rousing _ _) _ _ | .wake .sleep _ _ => .answer (.rested false)
  | .wake w _ _ => .wake w false false
  | c => c

namespace Stance

/-- The work that waits, as far as the course of the run depends on it. -/
def work (p : List Pending) : List Pending :=
  p.filterMap Pending.gist?

/-- After a pause before a node, or none, the node is come to. -/
def arrived : Control → List Pending → Control × List Pending
  | .answer .done, .checkpoint walk node :: p => (.dispatch walk node, p)
  | c, p => (c, p)

/-- What the walker does next, as far as the course of the run depends on it. -/
def gist : Stance → Stance
  | none => none
  | some (c, p) => some (arrived c.gist (work p))

end Stance

namespace Machine

/-- The run as far as its course depends on it. -/
def gist (m : Machine) : Machine where
  run := m.run.gist
  layers := m.layers
  token := m.token
  standalone := m.standalone
  nextFrame := m.nextFrame

/-- The gist of a step. -/
def StepResult.gist (r : StepResult) : Machine × Stance :=
  (r.1.gist, r.2.stance.gist)

end Machine

/-- Surroundings that differ at most in times, slots and numbers of calls. -/
structure Surroundings.Alike (e f : Surroundings) : Prop where
  settings : e.settings = f.settings
  registry : e.registry = f.registry
  flows : e.flows = f.flows
  provider : e.provider = f.provider

namespace Stance

variable {p q : List Pending}

theorem work_cons (k : Pending) (hp : work p = work q) : work (k :: p) = work (k :: q) := by
  unfold work at *
  rw [List.filterMap_cons, List.filterMap_cons, hp]

theorem work_attempt (a : Attempt) (since : Seconds) (p : List Pending) :
    work (.attempt a since :: p) = .attempt a 0.0 :: work p := rfl

theorem work_work (p : List Pending) : work (work p) = work p := by
  induction p with
  | nil => rfl
  | cons k p ih =>
    cases k <;> first | exact ih | exact congrArg (List.cons _) ih

theorem gist_congr (c : Control) (hp : work p = work q) : gist (some (c, p)) = gist (some (c, q)) := by
  rw [gist, gist, hp]

end Stance

namespace Machine

open Stance (work work_cons)

variable {m n : Machine} {e f : Surroundings} {p q : List Pending} {t u : TaskId}

theorem gist_bare (m : Machine) : m.bare.gist = m.gist := rfl

theorem Mute.gist (h : Mute m n) : n.gist = m.gist := by
  rw [← gist_bare n, h.bare, gist_bare]

/-- The end of a pause changes nothing but tasks. -/
theorem endPause_gist (m : Machine) : m.endPause.gist = m.gist :=
  (Silent.endPause m).mute.gist

theorem gist_gist (m : Machine) : m.gist.gist = m.gist :=
  congrArg (fun run => { m.gist with run }) m.run.gist_gist

/-! What machines of one gist have in common. -/

section

variable (h : m.gist = n.gist)

include h

theorem layers_of_gist : m.layers = n.layers :=
  congrArg (·.layers) h

theorem token_of_gist : m.token = n.token :=
  congrArg (·.token) h

theorem stack_of_gist : m.run.stack = n.run.stack :=
  congrArg (·.run.stack) h

theorem nextFrame_of_gist : m.nextFrame = n.nextFrame :=
  congrArg (·.nextFrame) h

theorem flow_of_gist : m.run.flow = n.run.flow :=
  congrArg (·.run.flow) h

theorem scope_of_gist (layers : List Nat) : m.scope layers = n.scope layers :=
  congrArg (·.scope layers) h

theorem vars_of_gist (layers : List Nat) : m.vars layers = n.vars layers :=
  congrArg (·.vars layers) h

theorem unpaused_of_gist : m.run.status.unpaused = n.run.status.unpaused :=
  congrArg (·.run.status) h

theorem isTerminal_of_gist : m.run.status.isTerminal = n.run.status.isTerminal := by
  rw [← Status.isTerminal_unpaused, unpaused_of_gist h, Status.isTerminal_unpaused]

theorem lookupFlow_of_gist (he : e.Alike f) (flow : Flow) (ref : Value) :
    m.lookupFlow e flow ref = n.lookupFlow f flow ref := by
  unfold lookupFlow
  rw [flow_of_gist h, he.flows]

theorem gist_trace (x : TraceEntry) : (m.trace e x).gist = (n.trace f x).gist := by
  have ht : m.run.trace.map TraceEntry.undated = n.run.trace.map TraceEntry.undated :=
    congrArg (·.run.trace) h
  have hpush (e : Surroundings) (m : Machine) : (m.trace e x).gist = { m.gist with
      run := { m.gist.run with trace := (m.run.trace.map TraceEntry.undated).push x.undated } } := by
    unfold trace gist Run.gist
    simp [TraceEntry.undated]
  rw [hpush, hpush, h, ht]

theorem gist_merge (layers : List Nat) (node : String) (values : Entries Value) :
    (m.merge layers node values).gist = (n.merge layers node values).gist :=
  congrArg (·.write layers values) h

theorem gist_addLayer (l : Layer) (layers : List Nat) :
    (m.addLayer l layers).1.gist = (n.addLayer l layers).1.gist :=
  congrArg (fun g => (g.addLayer l layers).1) h

theorem child_of_gist (l : Layer) (layers : List Nat) :
    (m.addLayer l layers).2 = (n.addLayer l layers).2 := by
  unfold addLayer
  rw [layers_of_gist h]

theorem gist_leaveFrame (key : Nat) (node : String) :
    (m.leaveFrame key node).gist = (n.leaveFrame key node).gist :=
  congrArg (·.leaveFrame key node) h

theorem gist_putScope (layers : List Nat) (s : Scope) :
    (m.putScope layers s).gist = (n.putScope layers s).gist :=
  congrArg (·.putScope layers s) h

theorem gist_stack (stack : List Frame) (k : Nat) :
    ({ m with nextFrame := k, run := { m.run with stack } } : Machine).gist =
      ({ n with nextFrame := k, run := { n.run with stack } } : Machine).gist :=
  congrArg (fun g : Machine => { g with nextFrame := k, run := { g.run with stack } }) h

theorem gist_writeReturns (place : Place) (node : Node) (child : List Nat) (returns : Value) :
    (m.writeReturns place node child returns).gist = (n.writeReturns place node child returns).gist := by
  unfold writeReturns
  rw [scope_of_gist h]
  dsimp only
  split
  · exact h
  · exact gist_merge h _ _ _

theorem gist_cancelToken (reason : Option String) :
    (m.cancelToken reason).gist = (n.cancelToken reason).gist := by
  have freed (m : Machine) (token : CancelToken) : (m.watchers.foldl signal
      { m with token, watchers := [] }).gist = { m.gist with token } :=
    (Silent.foldl .signal m.watchers _).mute.gist
  unfold cancelToken
  rw [token_of_gist h]
  split
  · exact h
  · dsimp only
    rw [freed, freed, h]

theorem gist_finalize (stamp stamp' : Instant) (o : Outcome) :
    (m.finalize stamp o).gist = (n.finalize stamp' o).gist := by
  have cancelled : ({ m.gist with run := { m.gist.run with stack := [], status := .cancelled } } : Machine) =
      { n.gist with run := { n.gist.run with stack := [], status := .cancelled } } := by rw [h]
  have failed (x : ErrorInfo) : ({ m.gist with run := { m.gist.run with
      stack := [], status := .failed, error := some x } } : Machine) =
      { n.gist with run := { n.gist.run with
        stack := [], status := .failed, error := some x } } := by rw [h]
  have completed (values : Entries Value) : ({ m.gist with run := { m.gist.run with
      stack := [], status := .completed, outputs := some values } } : Machine) =
      { n.gist with run := { n.gist.run with
        stack := [], status := .completed, outputs := some values } } := by rw [h]
  unfold finalize
  rw [isTerminal_of_gist h, congrArg CancelToken.cancelled (token_of_gist h)]
  split
  · exact h
  · dsimp only
    rw [endPause_gist, endPause_gist, scope_of_gist h]
    split
    · exact cancelled
    · split
      · exact cancelled
      · exact failed _
      · exact completed _

theorem gist_arrive (frame : Nat) (node : String) :
    (m.arrive frame node).gist = (n.arrive frame node).gist :=
  congrArg (·.arrive frame node) h

end

/-! Steps of the walker. -/

theorem takePause_gist (m : Machine) (node : Node) : (m.takePause node).1.gist = m.gist := by
  unfold takePause
  split
  · rfl
  · split
    · rfl
    · split
      · rfl
      · split <;> rfl

/-- A node is come to, after a pause or at once. -/
theorem next_gist (hs : m.run.status.unpaused = .running) (hc : m.token.cancelled ≠ true) {walk : Walk}
    (hl : ¬ walk.steps + 1 > e.settings.maxStepsPerFrame) (node : Node) :
    (m.next e t walk (some node) p).gist = ((m.arrive walk.frame node.id).gist,
      some (.dispatch { walk with steps := walk.steps + 1 } node, work p)) := by
  unfold next
  dsimp only
  rw [if_neg hc, if_neg hl]
  have hg := takePause_gist (m.arrive walk.frame node.id) node
  have hr : ((m.arrive walk.frame node.id).takePause node).1.run.status.unpaused = .running :=
    (unpaused_of_gist hg).trans hs
  generalize (m.arrive walk.frame node.id).takePause node = x at hg hr ⊢
  obtain ⟨k, reason⟩ := x
  dsimp only at hg hr ⊢
  rw [← hg]
  cases reason with
  | none => rfl
  | some reason =>
    refine Prod.ext ?_ rfl
    exact congrArg (fun s => { k.gist with run := { k.gist.run with status := s } }) hr.symm

/-- A step of the walker from one gist leads to one gist. -/
def StepResult.Agrees (x y : StepResult) : Prop :=
  x.gist = y.gist

section

variable (h : m.gist = n.gist) (hp : work p = work q) (he : e.Alike f)

include h hp

theorem agrees_go (c : Control) : StepResult.Agrees (m, .go c p) (n, .go c q) :=
  Prod.ext h (Stance.gist_congr c hp)

theorem agrees_answer (a : Answer) : StepResult.Agrees (m, .answer a p) (n, .answer a q) :=
  agrees_go h hp _

theorem agrees_outcome (o : Outcome) : StepResult.Agrees (m, .outcome o p) (n, .outcome o q) :=
  agrees_go h hp _

theorem agrees_fail (e : ErrorInfo) : StepResult.Agrees (m, .fail e p) (n, .fail e q) :=
  agrees_go h hp _

theorem rest_agrees (seconds : Seconds) :
    StepResult.Agrees (m.rest seconds p) (n.rest seconds q) := by
  unfold rest
  rw [token_of_gist h]
  split
  · exact agrees_answer h hp _
  · exact Prod.ext h (Stance.gist_congr (.answer (.rested false)) hp)

theorem sleep_agrees (seconds : Seconds) :
    StepResult.Agrees (m.sleep seconds p) (n.sleep seconds q) := by
  unfold sleep
  split <;> exact Prod.ext h (Stance.gist_congr (.wake .sleep false false) hp)

theorem enter_agrees (place : Place) (frame : Nat) :
    StepResult.Agrees (m.enter place frame p) (n.enter place frame q) := by
  unfold enter
  rw [stack_of_gist h]
  dsimp only
  split
  · exact agrees_answer h hp _
  · split
    · exact agrees_go h hp _
    · exact agrees_fail h hp _

include he

theorem call_agrees (flow : Flow) (layers : List Nat) (node : Node) (shared : Bool) :
    StepResult.Agrees (m.call e flow layers node shared p) (n.call f flow layers node shared q) := by
  unfold call
  rw [stack_of_gist h, he.settings, nextFrame_of_gist h]
  split
  · exact agrees_fail h hp _
  · exact agrees_go (gist_stack h _ _) (work_cons _ hp) _

/-- A flow is called with a layer of its own. -/
theorem callAbove_agrees (l : Layer) (layers : List Nat) (flow : Flow) (node : Node) (shared : Bool) :
    StepResult.Agrees
      ((m.addLayer l layers).1.call e flow (m.addLayer l layers).2 node shared p)
      ((n.addLayer l layers).1.call f flow (n.addLayer l layers).2 node shared q) := by
  rw [child_of_gist h]
  exact call_agrees (gist_addLayer h l layers) hp he _ _ _ _

theorem iterate_agrees (loop : Loop) (bound iterations : Nat) :
    StepResult.Agrees (m.iterate e loop bound iterations p) (n.iterate f loop bound iterations q) := by
  unfold iterate
  rw [vars_of_gist h, token_of_gist h]
  dsimp only
  split
  · exact agrees_outcome h hp _
  · split
    · exact agrees_fail h hp _
    · split
      · exact agrees_outcome h hp _
      · exact callAbove_agrees h (work_cons _ hp) he _ _ _ _ _

theorem startWhile_agrees (place : Place) (node : Node) :
    StepResult.Agrees (m.startWhile e place node p) (n.startWhile f place node q) := by
  unfold startWhile
  dsimp only
  rw [lookupFlow_of_gist h he, he.settings]
  split
  · exact agrees_answer h hp _
  · split
    · exact agrees_fail h hp _
    · split
      · exact agrees_fail h hp _
      · exact agrees_go h hp _

theorem nextItem_agrees (loop : Loop) (itemName : String) (indexName : Option String) (index : Nat)
    (items : List Value) :
    StepResult.Agrees (m.nextItem e loop itemName indexName index items p)
      (n.nextItem f loop itemName indexName index items q) := by
  unfold nextItem
  rw [token_of_gist h]
  split
  · exact agrees_outcome h hp _
  · split
    · exact agrees_outcome h hp _
    · exact callAbove_agrees h (work_cons _ hp) he _ _ _ _ _

theorem startForeach_agrees (place : Place) (node : Node) :
    StepResult.Agrees (m.startForeach e place node p) (n.startForeach f place node q) := by
  unfold startForeach
  dsimp only
  rw [lookupFlow_of_gist h he, vars_of_gist h]
  split
  · exact agrees_fail h hp _
  · split
    · exact agrees_fail h hp _
    · exact nextItem_agrees h hp he _ _ _ _ _

omit he in
theorem supply_agrees (c : Collection) : StepResult.Agrees (m.supply c p) (n.supply c q) := by
  unfold supply
  split
  · exact agrees_go h hp _
  · refine agrees_outcome ?_ hp _
    split
    · exact h
    · exact gist_merge h _ _ _

theorem element_agrees (c : Collection) {acts : List Act} (ha : ∀ a ∈ acts, a.IsRest)
    (item : Except HandlerFault Value) :
    StepResult.Agrees (m.element e t c acts item p) (n.element f u c acts item q) := by
  unfold element
  rw [token_of_gist h]
  split
  · exact sleep_agrees h (work_cons _ hp) _
  · exact absurd (ha _ List.mem_cons_self) id
  · exact absurd (ha _ List.mem_cons_self) id
  · split
    · exact agrees_fail h hp _
    · split
      · exact agrees_outcome h hp _
      · exact callAbove_agrees h (work_cons _ hp) he _ _ _ _ _

theorem startElements_agrees (a : Attempt) :
    StepResult.Agrees (m.startElements e a p) (n.startElements f a q) := by
  unfold startElements
  rw [he.provider, vars_of_gist h]
  split
  · exact agrees_fail h hp _
  · split
    · exact agrees_answer h hp _
    · dsimp only
      rw [lookupFlow_of_gist h he]
      split
      · exact agrees_fail h hp _
      · split
        · exact agrees_fail h hp _
        · split
          · exact agrees_fail h hp _
          · exact agrees_go h hp _

theorem invoke_agrees (place : Place) (node : Node) (target : Flow) (args : Entries Value)
    (inline : Bool) (returns : Value) :
    StepResult.Agrees (m.invoke e place node target args inline returns p fun _ p => p)
      (n.invoke f place node target args inline returns q fun _ p => p) := by
  unfold invoke
  have hs (l : Layer) := scope_of_gist (gist_addLayer h l place.layers)
  split
  · dsimp only
    rw [child_of_gist h, hs]
    exact call_agrees (gist_putScope (gist_addLayer h _ _) _ _) (work_cons _ hp) he _ _ _ _
  · dsimp only
    rw [child_of_gist h]
    exact call_agrees (gist_addLayer h _ _) (work_cons _ hp) he _ _ _ _

theorem startExecuteFlow_agrees (place : Place) (node : Node) :
    StepResult.Agrees (m.startExecuteFlow e place node p) (n.startExecuteFlow f place node q) := by
  unfold startExecuteFlow
  rw [vars_of_gist h]
  split
  · exact agrees_answer h hp _
  · rw [lookupFlow_of_gist h he]
    split
    · exact agrees_fail h hp _
    · split
      · exact invoke_agrees h hp he _ _ _ _ _ _
      · exact agrees_fail h hp _

theorem startPrimitive_agrees (a : Attempt) :
    StepResult.Agrees (m.startPrimitive e a p) (n.startPrimitive f a q) := by
  unfold startPrimitive
  rw [he.registry, vars_of_gist h]
  dsimp only
  split
  · exact agrees_outcome h hp _
  · split
    · exact agrees_answer h hp _
    · split
      · exact agrees_fail h hp _
      · exact Prod.ext h (Stance.gist_congr (.wake (.settlement a 0 0) false false) (work_cons _ hp))

theorem attempt_agrees (a : Attempt) :
    StepResult.Agrees (m.attempt e a p) (n.attempt f a q) := by
  have hw : work (.attempt a e.now :: p) = work (.attempt a f.now :: q) := by
    rw [Stance.work_attempt, Stance.work_attempt, hp]
  have hs : (m.emit "node.started" (startedPayload a.node a.number a.place.depth)).gist =
      (n.emit "node.started" (startedPayload a.node a.number a.place.depth)).gist := h
  unfold attempt
  dsimp only
  split
  · rw [vars_of_gist hs]
    exact agrees_outcome hs hw _
  · exact startForeach_agrees hs hw he _ _
  · exact startElements_agrees hs hw he _
  · exact startWhile_agrees hs hw he _ _
  · exact startExecuteFlow_agrees hs hw he _ _
  · exact startPrimitive_agrees hs hw he _

theorem dispatch_agrees (walk : Walk) (node : Node) :
    StepResult.Agrees (m.dispatch e walk node p) (n.dispatch f walk node q) := by
  have hw : work (.visit walk node :: p) = work (.visit walk node :: q) := work_cons _ hp
  unfold dispatch
  rw [token_of_gist h, he.settings]
  dsimp only
  split
  · exact agrees_outcome h hp _
  · split
    · exact agrees_outcome (gist_trace (m := m.emit _ _) (n := n.emit _ _) h _) hw _
    · split
      · exact agrees_go h hw _
      · split
        · exact agrees_outcome (gist_trace (m := m.emit _ _) (n := n.emit _ _) h _) hw _
        · exact agrees_outcome (gist_trace (m := m.emit _ _) (n := n.emit _ _) h _) hw _
        · exact agrees_answer h hw _

/-- A pause before a node makes no difference. -/
theorem next_agrees (hs : m.run.status.unpaused = .running) (walk : Walk) (node : Option Node) :
    StepResult.Agrees (m.next e t walk node p) (n.next f u walk node q) := by
  have hs' : n.run.status.unpaused = .running := (unpaused_of_gist h).symm.trans hs
  cases node with
  | none => exact agrees_outcome h hp _
  | some node =>
    by_cases hc : m.token.cancelled = true
    · unfold next
      rw [← token_of_gist h, hc]
      exact agrees_outcome h hp _
    · by_cases hl : walk.steps + 1 > e.settings.maxStepsPerFrame
      · unfold next
        dsimp only
        rw [← token_of_gist h, ← he.settings, if_neg hc, if_neg hc, if_pos hl, if_pos hl]
        exact agrees_outcome h hp _
      · have hc' : n.token.cancelled ≠ true := token_of_gist h ▸ hc
        have hl' : ¬ walk.steps + 1 > f.settings.maxStepsPerFrame := he.settings ▸ hl
        unfold StepResult.Agrees
        rw [next_gist hs hc hl, next_gist hs' hc' hl', gist_arrive h, hp]

end

/-! Answers to work that waits. -/

section

variable (h : m.gist = n.gist) (hp : work p = work q)

include h hp

theorem afterFailure_agrees (a : Attempt) (since since' : Seconds) (x : ErrorInfo) :
    StepResult.Agrees (m.afterFailure e a since x p) (n.afterFailure f a since' x q) := by
  have ht (y : TraceEntry) : (m.trace e y).gist = (n.trace f y).gist := gist_trace h y
  unfold afterFailure
  dsimp only
  split
  · split
    · exact rest_agrees (m := (m.trace e _).emit _ _) (n := (n.trace f _).emit _ _) (ht _)
        (work_cons _ hp) _
    · exact agrees_answer (ht _) hp _
  · exact agrees_outcome (ht _) hp _
  · exact agrees_outcome (ht _) hp _
  · exact agrees_outcome (ht _) hp _

theorem afterAttempt_agrees (a : Attempt) (since since' : Seconds) (o : Outcome) :
    StepResult.Agrees (m.afterAttempt e a since o p) (n.afterAttempt f a since' o q) := by
  unfold afterAttempt
  split
  · exact agrees_outcome (gist_trace h _) hp _
  · exact agrees_outcome (gist_trace h _) hp _
  · exact afterFailure_agrees h hp _ _ _ _

theorem afterVisit_agrees (walk : Walk) (node : Node) (o : Outcome) :
    StepResult.Agrees (m, afterVisit walk node o p) (n, afterVisit walk node o q) := by
  unfold afterVisit
  split
  · exact agrees_go h hp _
  · exact agrees_outcome h hp _
  · exact agrees_outcome h hp _

theorem backoff_agrees (a : Attempt) (cutShort : Bool) :
    StepResult.Agrees (m.resume e (.backoff a) (.rested cutShort) p)
      (n.resume f (.backoff a) (.rested cutShort) q) := by
  unfold resume
  dsimp only
  rw [token_of_gist h]
  split
  · exact agrees_outcome h hp _
  · exact agrees_go h hp _

theorem primitive_agrees (a : Attempt) (r : HandlerResult) :
    StepResult.Agrees (m.resume e (.primitive a) (.handled r) p)
      (n.resume f (.primitive a) (.handled r) q) := by
  cases r with
  | failure x => exact agrees_fail h hp _
  | success values =>
    refine agrees_outcome ?_ hp _
    split
    · exact h
    · exact gist_merge h _ _ _

/-- Work that waits deals with an answer in one way, whatever is left out of its gist. -/
theorem resume_agrees (he : e.Alike f) {k l : Pending} (hk : k.gist? = some l) (a : Answer) :
    StepResult.Agrees (m.resume e k a p) (n.resume f l a q) := by
  cases k with
  | slot held => cases hk
  | attempt b since =>
    cases hk
    cases a with
    | outcome o => exact afterAttempt_agrees h hp _ _ _ _
    | _ => exact agrees_answer h hp _
  | execution =>
    cases hk
    cases a with
    | outcome o => exact agrees_answer (gist_finalize h _ _ _) hp _
    | thrown x => exact agrees_answer (gist_finalize h _ _ _) hp _
    | interrupted => exact agrees_answer (gist_finalize (gist_cancelToken h _) _ _ _) hp _
    | _ => exact agrees_answer h hp _
  | checkpoint walk node =>
    cases hk
    cases a <;> exact agrees_go h hp _
  | visit walk node =>
    cases hk
    cases a with
    | outcome o => exact afterVisit_agrees h hp _ _ _
    | _ => exact agrees_answer h hp _
  | backoff b =>
    cases hk
    cases a with
    | rested cutShort => exact backoff_agrees h hp _ _
    | _ => exact agrees_answer h hp _
  | primitive b =>
    cases hk
    cases a with
    | handled r => exact primitive_agrees h hp _ _
    | _ => exact agrees_answer h hp _
  | frame key flow node =>
    cases hk
    cases a <;> exact agrees_answer (gist_leaveFrame h _ _) hp _
  | foreach loop itemName indexName index rest =>
    cases hk
    cases a with
    | outcome o =>
      cases o with
      | completed l => exact nextItem_agrees h hp he _ _ _ _ _
      | _ => exact agrees_answer h hp _
    | _ => exact agrees_answer h hp _
  | invocation place node child returns =>
    cases hk
    cases a with
    | outcome o =>
      cases o with
      | completed l =>
        cases returns with
        | some v => exact agrees_outcome (gist_writeReturns h _ _ _ _) hp _
        | none => exact agrees_answer h hp _
      | _ => cases returns <;> exact agrees_answer h hp _
    | _ => cases returns <;> exact agrees_answer h hp _
  | subexecution child =>
    cases hk
    cases a with
    | outcome o =>
      unfold resume
      dsimp only
      rw [scope_of_gist h]
      exact agrees_answer h hp _
    | _ => exact agrees_answer h hp _
  | elements c =>
    cases hk
    cases a with
    | outcome o => cases o <;> exact agrees_go h hp _
    | _ => exact agrees_go h hp _
  | «while» loop bound iterations =>
    cases hk
    cases a with
    | outcome o => cases o <;> exact agrees_go h hp _
    | _ => exact agrees_go h hp _
  | _ =>
    cases hk
    cases a <;> exact agrees_go h hp _

end

/-- A step of the walk, with no answer to be handed on. -/
theorem walk_agrees (h : m.gist = n.gist) (hp : work p = work q) (he : e.Alike f) {c : Control}
    (hc : c.IsWalk) (ha : ∀ a, c ≠ .answer a) (hs : m.run.status.unpaused = .running) :
    StepResult.Agrees (m.step e t c p) (n.step f u c q) := by
  cases c with
  | enter place frame => exact enter_agrees h hp _ _
  | next walk node => exact next_agrees h hp he hs _ _
  | dispatch walk node => exact dispatch_agrees h hp he _ _
  | «try» a => exact attempt_agrees h hp he _
  | iterate loop bound iterations => exact iterate_agrees h hp he _ _ _
  | supply c => exact supply_agrees h hp _
  | element c acts item => exact element_agrees h hp he _ hc.2 _
  | answer a => exact absurd rfl (ha a)
  | _ => exact absurd hc id

/-- A run begins with a frame for its flow. -/
theorem execute_gist (hs : (m.run.status != .pending) ≠ true) (hc : m.token.cancelled ≠ true) :
    (m.execute e p).gist =
      ({ m.gist with
        nextFrame := m.gist.nextFrame + 1
        run := { m.gist.run with
          status := .running
          stack := m.gist.run.stack ++ [{ key := m.gist.nextFrame, flow := m.gist.run.flow.id
                                          invokedBy := none, layers := rootLayers }] } },
      some (.enter ⟨m.gist.run.flow, rootLayers, 0⟩ m.gist.nextFrame, .execution :: work p)) := by
  unfold execute
  rw [if_neg hs, if_neg hc]
  rfl

theorem execute_agrees (h : m.gist = n.gist) (hp : work p = work q) :
    StepResult.Agrees (m.execute e p) (n.execute f q) := by
  have hs : (m.run.status != .pending) = (n.run.status != .pending) := by
    rw [Bool.eq_iff_iff, bne_iff_ne, bne_iff_ne, ne_eq, ne_eq, ← Status.unpaused_eq_pending,
      unpaused_of_gist h, Status.unpaused_eq_pending]
  have hc : m.token.cancelled = n.token.cancelled := congrArg _ (token_of_gist h)
  by_cases hm : (m.run.status != .pending) = true
  · unfold execute
    rw [← hs, if_pos hm, if_pos hm]
    exact agrees_answer h hp _
  · by_cases hl : m.token.cancelled = true
    · unfold execute
      rw [← hs, ← hc, if_neg hm, if_pos hl, if_neg hm, if_pos hl]
      exact agrees_answer (gist_finalize h _ _ _) hp _
    · unfold StepResult.Agrees
      rw [execute_gist hm hl, execute_gist (hs ▸ hm) (hc ▸ hl), h, hp]

end Machine

end Workflow
