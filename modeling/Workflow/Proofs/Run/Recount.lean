import Mathlib.Data.List.Forall2
import Workflow.Proofs.Run.Stage
import Workflow.Proofs.Run.Tally
/-!
What the trace of a run and its events tell of the ends of visits. A step that adds to one of the two adds
the same to the other, whatever the surroundings are, and it opens and closes no attempts but those that
the work of its task waits in.
-/

namespace Workflow

namespace Effect

/-- Whether an effect is an event that tells of the end of a visit. -/
def isReport : Effect → Bool
  | .emit type _ _ => ["node.completed", "node.failed", "node.skipped"].contains type
  | _ => false

/-- An effect that tells neither of the beginning nor of the end of a visit. -/
def IsAside (e : Effect) : Prop :=
  e.IsUnmarked ∧ e.isReport = false

theorem IsMute.isAside {e : Effect} (h : e.IsMute) : e.IsAside := by
  refine ⟨h.isUnmarked, ?_⟩
  cases e <;> first | rfl | cases h

theorem isAside_emit {type : String} (payload : Entries Value) (view : RunView)
    (h : type ∉ ["node.started", "node.completed", "node.failed", "node.skipped"]) :
    (Effect.emit type payload view).IsAside := by
  simp only [List.mem_cons, List.not_mem_nil, or_false, not_or] at h
  exact ⟨isUnmarked_emit payload view (by simp [h]), by simp [isReport, h]⟩

end Effect

/-- An entry of the trace is told by an event: the node, how its visit ended, the attempt if the event has
one, the label it completed under, and what failed. -/
inductive TraceEntry.IsToldBy (x : TraceEntry) : Effect → Prop
  | intro {payload : Entries Value} {view : RunView}
      (node : Entries.find? "nodeId" payload = some (.str x.node))
      (attempt : ∀ v, Entries.find? "attempt" payload = some v → v = .nat x.attempt)
      (numbered : x.outcome ≠ .skipped → Entries.contains "attempt" payload = true)
      (label : x.outcome = .completed → Entries.find? "label" payload = some (.ofText? x.label))
      (error : Entries.find? "error" payload = x.error.map ErrorInfo.toValue) :
      IsToldBy x (.emit ("node." ++ x.outcome.text) payload view)

/-- The entries of a trace, those of cancelled attempts apart, are told one by one by events among some
effects, the newest first, and there are no other events that tell of ends of visits. -/
def Recounts (d : List Effect) (xs : List TraceEntry) : Prop :=
  List.Forall₂ TraceEntry.IsToldBy (xs.filter (·.outcome ≠ .cancelled)) (d.filter Effect.isReport).reverse

namespace Recounts

variable {d d' : List Effect} {xs xs' : List TraceEntry} {x : TraceEntry} {e : Effect}

theorem append (h : Recounts d xs) (k : Recounts d' xs') : Recounts (d' ++ d) (xs ++ xs') := by
  unfold Recounts
  rw [List.filter_append, List.filter_append, List.reverse_append]
  exact List.rel_append h k

theorem nil (h : ∀ e ∈ d, e.isReport = false) : Recounts d [] := by
  have none : d.filter Effect.isReport = [] :=
    List.filter_eq_nil_iff.mpr fun e he => by simp [h e he]
  unfold Recounts
  rw [none]
  exact .nil

theorem of_cancelled (h : x.outcome = .cancelled) : Recounts [] [x] := by
  unfold Recounts
  simp [h]

theorem one (ho : x.outcome ≠ .cancelled) (h : x.IsToldBy e) : Recounts [e] [x] := by
  have he : e.isReport = true := by
    cases h with
    | intro => cases hx : x.outcome <;> first | rfl | exact absurd hx ho
  unfold Recounts
  simp [he, ho, h]

end Recounts

namespace Machine

variable {o o' o'' : List Tag} {m n l : Machine} {p q : List Pending}

/-- A change adds to the trace what its events tell of, and they turn the attempts that are open into
others. -/
def Records (o : List Tag) (m n : Machine) (o' : List Tag) : Prop :=
  ∃ d xs, n.effects = d ++ m.effects ∧ n.run.trace.toList = m.run.trace.toList ++ xs ∧
    Recounts d xs ∧ Tallies o d o'

namespace Records

theorem trans (h : Records o m n o') (k : Records o' n l o'') : Records o m l o'' := by
  obtain ⟨d, xs, hd, hx, hr, ht⟩ := h
  obtain ⟨d', xs', hd', hx', hr', ht'⟩ := k
  refine ⟨d' ++ d, xs ++ xs', ?_, ?_, hr.append hr', ht.append ht'⟩
  · rw [hd', hd, List.append_assoc]
  · rw [hx', hx, List.append_assoc]

/-- Some effects that tell nothing of visits. -/
theorem of_aside {d : List Effect} (he : n.effects = d ++ m.effects) (hd : ∀ e ∈ d, e.IsAside)
    (ht : n.run.trace = m.run.trace) : Records o m n o :=
  ⟨d, [], he, by rw [ht, List.append_nil], .nil fun e h => (hd e h).2, .unmarked o fun e h => (hd e h).1⟩

theorem of_eq (he : n.effects = m.effects) (ht : n.run.trace = m.run.trace) : Records o m n o :=
  of_aside (d := []) he (by simp) ht

theorem refl (m : Machine) : Records o m m o :=
  of_eq rfl rfl

theorem of_mute (h : Mute m n) : Records o m n o := by
  obtain ⟨d, hd, hp⟩ := h.adds
  exact of_aside hd (fun e he => (hp e he).isAside) (by rw [h.run])

theorem effect (m : Machine) {e : Effect} (he : e.IsMute) : Records o m (m.effect e) o :=
  of_aside (d := [e]) rfl (by simpa using he.isAside) rfl

/-- An event that tells nothing of visits. -/
theorem of_emit (type : String) {payload : Entries Value} {view : RunView}
    (h : type ∉ ["node.started", "node.completed", "node.failed", "node.skipped"])
    (he : n.effects = .emit type payload view :: m.effects) (ht : n.run.trace = m.run.trace) :
    Records o m n o :=
  of_aside (d := [_]) he (by simpa using Effect.isAside_emit payload view h) ht

theorem begins (m : Machine) (node : Node) (number depth : Nat) :
    Records o m (m.emit "node.started" (startedPayload node number depth))
      (⟨some (.str node.id), some (.nat number)⟩ :: o) :=
  ⟨[_], [], rfl, by simp [emit, Machine.effect], .nil (by simp [Effect.isReport]), .opens rfl (.nil o)⟩

/-- An end of a visit that is told and goes into the trace. -/
theorem tells {e : Effect} {x : TraceEntry} (he : n.effects = e :: m.effects)
    (ht : n.run.trace = m.run.trace.push x) (ho : x.outcome ≠ .cancelled) (h : x.IsToldBy e)
    (hk : Tallies o [e] o') : Records o m n o' :=
  ⟨[e], [x], he, by simp [ht], .one ho h, hk⟩

theorem spawn (m : Machine) (c : Control) : Records o m (m.spawn c []).1 o :=
  of_mute (Silent.spawn m c []).mute

theorem endPause (m : Machine) : Records o m m.endPause o :=
  .trans (n := { m with paused := [] }) (of_eq rfl rfl) (of_mute (Silent.endPause m).mute)

theorem cancelToken (m : Machine) (reason : Option String) : Records o m (m.cancelToken reason) o := by
  cases h : m.token.cancelled with
  | true => rw [Machine.cancelToken, if_pos h]; exact refl m
  | false =>
    exact .trans (n := { m with token := m.token.cancel reason, watchers := [] }) (of_eq rfl rfl)
      (of_mute (Silent.cancelToken m reason h).mute)

theorem interruptTask (m : Machine) (t : TaskId) : Records o m (m.interruptTask t) o :=
  of_mute (Silent.interruptTask m t).mute

theorem finalize (m : Machine) (stamp : Instant) (r : Outcome) : Records o m (m.finalize stamp r) o := by
  unfold Machine.finalize
  split
  · exact refl m
  · dsimp only
    refine .trans ?_ (.endPause _)
    split
    · exact .of_emit "run.cancelled" (by decide) rfl rfl
    · cases r with
      | cancelled => exact .of_emit "run.cancelled" (by decide) rfl rfl
      | completed l => exact .of_emit "run.completed" (by decide) rfl rfl
      | failed e node => exact .of_emit "run.failed" (by decide) rfl rfl

theorem merge (m : Machine) (layers : List Nat) (node : String) (values : Entries Value) :
    Records o m (m.merge layers node values) o :=
  .of_emit "vars.patch" (by decide) rfl rfl

end Records

/-- A step opens and closes no attempts but those that the work waits in. -/
def Balances (p : List Pending) (m : Machine) (x : StepResult) : Prop :=
  Records (openTags p) m x.1 (openTags x.2.pending)

theorem Balances.after {x : StepResult} (h : Records (openTags p) m n (openTags q)) (k : Balances q n x) :
    Balances p m x :=
  h.trans k

section functions

variable (m p) (env : Surroundings) (self : TaskId)

theorem call_balances (flow : Flow) (layers : List Nat) (node : Node) (shared : Bool) :
    Balances p m (m.call env flow layers node shared p) := by
  unfold call
  split
  · exact .refl m
  · exact .of_eq rfl rfl

theorem rest_balances (seconds : Seconds) : Balances p m (m.rest seconds p) := by
  unfold rest
  split
  · exact .refl m
  · exact .spawn m .watch

theorem sleep_balances (seconds : Seconds) : Balances p m (m.sleep seconds p) := by
  unfold sleep
  split <;> exact .refl m

theorem watch_balances : Balances p m (m.watch self p) := by
  unfold watch
  split
  · exact .refl m
  · exact .of_eq rfl rfl

theorem takeSlot_balances : Balances p m (m.takeSlot env self p) := by
  unfold takeSlot
  split
  · exact .effect m rfl
  · exact .effect m rfl

theorem enqueue_balances : Balances p m (m.enqueue p) := by
  unfold enqueue
  split
  · exact .refl m
  · exact (Records.spawn m .takeSlot).trans (.spawn _ .watch)

theorem execute_balances : Balances p m (m.execute env p) := by
  unfold execute
  split
  · exact .refl m
  · split
    · exact .finalize m _ _
    · exact .of_emit "run.started" (by decide) rfl rfl

theorem enter_balances (place : Place) (frame : Nat) : Balances p m (m.enter place frame p) := by
  unfold enter
  dsimp only
  split
  · exact .refl m
  · split <;> exact .refl m

theorem next_balances (walk : Walk) (node : Option Node) : Balances p m (m.next env self walk node p) := by
  unfold next
  split
  · exact .refl m
  · split
    · exact .refl m
    · split
      · exact .refl m
      · rename_i node _ _
        dsimp only
        rcases takePause_cases (m.arrive walk.frame node.id) node with
          h | ⟨n, reason, h, -, -, hr, he⟩
        · rw [h]
          exact .of_eq rfl rfl
        · rw [h]
          have paused : Records (openTags p) m n (openTags p) := .of_eq he (congrArg Run.trace hr :)
          exact paused.trans (.of_emit "run.paused" (by decide) rfl rfl)

/-- A policy that is refused fails the node at once. -/
theorem refusePolicy_records (walk : Walk) (node : Node) (fault : PolicyFault) :
    Records o m (m.refusePolicy env walk node fault).1 o := by
  refine (Records.begins m node 1 walk.place.depth).trans ?_
  exact .tells rfl rfl (by simp)
    ⟨rfl, fun v hv => (Option.some.inj hv).symm, fun _ => rfl, nofun, rfl⟩
    (.closes (show Effect.ends? _ = some ⟨some (.str node.id), some (.nat 1)⟩ from rfl) (.nil _))

theorem dispatch_balances (walk : Walk) (node : Node) : Balances p m (m.dispatch env walk node p) := by
  unfold dispatch
  dsimp only
  split
  · exact .refl m
  · split
    · exact .tells rfl rfl (by simp) ⟨rfl, nofun, fun h => absurd rfl h, nofun, rfl⟩
        (.unmarked _ (by simp [Effect.isUnmarked_emit]))
    · split
      · exact .refl m
      · split
        · exact refusePolicy_records m env walk node _
        · exact refusePolicy_records m env walk node _
        · exact .refl m

theorem iterate_balances (loop : Loop) (bound iterations : Nat) :
    Balances p m (m.iterate env loop bound iterations p) := by
  unfold iterate
  dsimp only
  split
  · exact .refl m
  · split
    · exact .refl m
    · split
      · exact .refl m
      · exact .after (q := .while loop bound iterations :: p) (.of_eq rfl rfl) (call_balances _ _ env _ _ _ _)

theorem startWhile_balances (place : Place) (node : Node) :
    Balances p m (m.startWhile env place node p) := by
  unfold startWhile
  dsimp only
  split
  · exact .refl m
  · split
    · exact .refl m
    · split <;> exact .refl m

theorem nextItem_balances (loop : Loop) (itemName : String) (indexName : Option String) (index : Nat)
    (items : List Value) : Balances p m (m.nextItem env loop itemName indexName index items p) := by
  unfold nextItem
  split
  · exact .refl m
  · split
    · exact .refl m
    · exact .after (q := .foreach loop _ _ _ _ :: p) (.of_eq rfl rfl) (call_balances _ _ env _ _ _ _)

theorem startForeach_balances (place : Place) (node : Node) :
    Balances p m (m.startForeach env place node p) := by
  unfold startForeach
  dsimp only
  split
  · exact .refl m
  · split
    · exact .refl m
    · exact nextItem_balances m p env _ _ _ _ _

theorem supply_balances (c : Collection) : Balances p m (m.supply c p) := by
  unfold supply
  split
  · exact .refl m
  · dsimp only
    split
    · exact .refl m
    · exact .merge m _ _ _

theorem element_balances (c : Collection) (acts : List Act) (item : Except HandlerFault Value) :
    Balances p m (m.element env self c acts item p) := by
  unfold element
  split
  · exact sleep_balances m (.element c _ item :: p) _
  · exact .cancelToken m _
  · exact watch_balances m (.element c _ item :: p) self
  · split
    · exact .refl m
    · split
      · exact .refl m
      · exact .after (q := .elements _ :: p) (.of_eq rfl rfl) (call_balances _ _ env _ _ _ _)

theorem startElements_balances (a : Attempt) : Balances p m (m.startElements env a p) := by
  unfold startElements
  split
  · exact .refl m
  · split
    · exact .refl m
    · dsimp only
      split
      · exact .refl m
      · split
        · exact .refl m
        · split <;> exact .effect m rfl

theorem invoke_balances (place : Place) (node : Node) (target : Flow) (args : Entries Value)
    (inline : Bool) (returns : Value) {wrap : List Nat → List Pending → List Pending}
    (hw : ∀ child, openTags (wrap child p) = openTags p) :
    Balances p m (m.invoke env place node target args inline returns p wrap) := by
  have wrapped (child : List Nat) (r : Option Value) :
      openTags (.invocation place node child r :: wrap child p) = openTags p := hw child
  unfold invoke
  split
  · refine .after ?_ (call_balances _ _ env _ _ _ _)
    rw [wrapped]
    exact .of_eq rfl rfl
  · refine .after ?_ (call_balances _ _ env _ _ _ _)
    rw [wrapped]
    exact .of_eq rfl rfl

theorem startExecuteFlow_balances (place : Place) (node : Node) :
    Balances p m (m.startExecuteFlow env place node p) := by
  unfold startExecuteFlow
  split
  · exact .refl m
  · split
    · exact .refl m
    · split
      · exact invoke_balances m p env _ _ _ _ _ _ fun _ => rfl
      · exact .refl m

theorem startPrimitive_balances (a : Attempt) : Balances p m (m.startPrimitive env a p) := by
  unfold startPrimitive
  dsimp only
  split
  · exact .refl m
  · split
    · exact .refl m
    · split
      · exact .refl m
      · exact (Records.spawn m _).trans (.spawn _ .watch)

/-- The attempt at a node begins with the event that says so. -/
theorem attempt_balances (a : Attempt) : Balances p m (m.attempt env a p) := by
  have started {x} (hx : Balances (.attempt a env.now :: p)
      (m.emit "node.started" (startedPayload a.node a.number a.place.depth)) x) : Balances p m x :=
    .after (.begins m a.node a.number a.place.depth) hx
  unfold attempt
  dsimp only
  split
  · exact started (.refl _)
  · exact started (startForeach_balances _ _ env _ _)
  · exact started (startElements_balances _ _ env _)
  · exact started (startWhile_balances _ _ env _ _)
  · exact started (startExecuteFlow_balances _ _ env _ _)
  · exact started (startPrimitive_balances _ _ env _)

theorem handle_balances (c : Call) : Balances p m (m.handle env c p) := by
  unfold handle
  split
  · exact .refl m
  · split
    · split
      · exact .refl m
      · exact .refl m
      · exact rest_balances m (.rest :: p) _
    · exact .effect m rfl

theorem subexecute_balances (c : Call) (ref : Value) (args : Entries Value) (inline : Bool)
    (saveAs : Option String) : Balances p m (m.subexecute env c ref args inline saveAs p) := by
  unfold subexecute
  split
  · exact .refl m
  · exact invoke_balances m p env _ _ _ _ _ _ fun _ => rfl

theorem act_balances (c : Call) (acts : List Act) (finish : Finish) :
    Balances p m (m.act env self c acts finish p) := by
  unfold act
  split
  · exact sleep_balances m (.plan c _ finish :: p) _
  · exact watch_balances m (.plan c _ finish :: p) self
  · exact .cancelToken m _
  · split
    · exact .refl m
    · exact .refl m
    · exact .refl m
    · exact subexecute_balances m p env _ _ _ _ _

/-- A failed attempt is over. -/
theorem afterFailure_balances (a : Attempt) (since : Seconds) (e : ErrorInfo) :
    Records (a.tag :: openTags p) m (m.afterFailure env a since e p).1
      (openTags (m.afterFailure env a since e p).2.pending) := by
  have failed (payload : Entries Value)
      (h : ∃ rest, payload = ("nodeId", .str a.node.id) :: ("attempt", .nat a.number) ::
        ("error", e.toValue) :: rest) : Records (a.tag :: openTags p) m
        ((m.trace env { node := a.node.id, outcome := .failed, time := 0, depth := a.place.depth
                        attempt := a.number, error := some e }).emit "node.failed" payload)
        (openTags p) := by
    obtain ⟨rest, rfl⟩ := h
    exact .tells rfl rfl (by simp) ⟨rfl, fun v hv => (Option.some.inj hv).symm, fun _ => rfl, nofun, rfl⟩
      (.closes rfl (.nil _))
  unfold afterFailure
  dsimp only
  split
  · split
    · exact (failed _ ⟨_, rfl⟩).trans (rest_balances _ (.backoff a :: p) _)
    · exact failed _ ⟨_, rfl⟩
  · exact failed _ ⟨_, rfl⟩
  · exact failed _ ⟨_, rfl⟩
  · exact failed _ ⟨_, rfl⟩

/-- The outcome of an attempt, a cancellation apart, is told in the event that ends it. -/
theorem afterAttempt_balances (a : Attempt) (since : Seconds) {r : Outcome} (hr : r ≠ .cancelled) :
    Records (a.tag :: openTags p) m (m.afterAttempt env a since r p).1
      (openTags (m.afterAttempt env a since r p).2.pending) := by
  cases r with
  | cancelled => exact absurd rfl hr
  | completed label =>
    exact .tells rfl rfl (by simp)
      ⟨rfl, fun v hv => (Option.some.inj hv).symm, fun _ => rfl, fun _ => rfl, rfl⟩
      (.closes rfl (.nil _))
  | failed e node => exact afterFailure_balances m p env a since e

theorem writeReturns_records (place : Place) (node : Node) (child : List Nat) (returns : Value) :
    Records o m (m.writeReturns place node child returns) o := by
  unfold writeReturns
  dsimp only
  split
  · exact .refl m
  · exact .merge m _ _ _

/-- Work that waits, attempts apart, takes an answer or hands it on. -/
theorem resume_balances {k : Pending} (hk : ∀ a since, k ≠ .attempt a since) (a : Answer) :
    Balances (k :: p) m (m.resume env k a p) := by
  have same : openTags (k :: p) = openTags p := by
    cases k <;> first | rfl | exact absurd rfl (hk _ _)
  unfold Balances
  rw [same]
  unfold resume
  split
  · have given (held : Bool) : Records (openTags p) m (if held then m.effect .giveSlotBack else m)
        (openTags p) := by
      split
      · exact .effect m rfl
      · exact .refl m
    dsimp only
    split
    · exact given _
    · exact given _
    · exact (given _).trans (.effect _ rfl)
  · exact .finalize m _ _
  · exact .finalize m _ _
  · exact (Records.cancelToken m _).trans (.finalize _ _ _)
  · exact .refl m
  · unfold afterVisit
    split <;> exact .refl m
  · exact absurd rfl (hk _ _)
  · split <;> exact .refl m
  · dsimp only
    split
    · exact .refl m
    · exact .merge m _ _ _
  · exact .refl m
  · exact .of_eq rfl rfl
  · exact .of_eq rfl rfl
  · exact nextItem_balances m p env _ _ _ _ _
  · exact .refl m
  · exact .refl m
  · exact .refl m
  · exact .refl m
  · exact writeReturns_records m _ _ _ _
  · exact .refl m
  · exact .refl m
  · exact .refl m
  · exact .refl m
  · exact .refl m

theorem wakeFromSettlement_balances (a : Attempt) (handler watcher : TaskId) (interrupted : Bool) :
    Balances p m (m.wakeFromSettlement env a handler watcher interrupted p) := by
  have h : Records (openTags p) m (if m.hasEnded watcher = true then m else m.interruptTask watcher)
      (openTags p) := by
    split
    · exact .refl m
    · exact .interruptTask m _
  unfold wakeFromSettlement
  dsimp only
  generalize (if m.hasEnded watcher = true then m else m.interruptTask watcher) = n at h ⊢
  split
  · exact h
  · split
    · exact h
    · split
      · exact h
      · exact h.trans (.interruptTask n _)

theorem wake_balances (w : Wait) (signalled interrupted : Bool) :
    Balances p m (m.wake env self w signalled interrupted p) := by
  have dropped : Records (openTags p) m (m.dropTimer self) (openTags p) := .effect m rfl
  unfold wake
  split
  · dsimp only
    split
    · refine Records.trans ?_ (.interruptTask _ _)
      split
      · exact .effect m rfl
      · exact .interruptTask m _
    · split
      · exact .interruptTask m _
      · exact (Records.interruptTask m _).trans (.interruptTask _ _)
  · have left : Records (openTags p) m (m.effect (.leaveSlotQueue self)) (openTags p) := .effect m rfl
    dsimp only
    split
    · split
      · exact left.trans (.effect _ rfl)
      · exact left
    · exact left.trans (.effect _ rfl)
  · exact .of_eq rfl rfl
  · exact .refl m
  · exact dropped.trans (wakeFromSettlement_balances _ p env _ _ _ _)
  · dsimp only
    split
    · exact dropped
    · split
      · exact dropped
      · exact dropped.trans (.interruptTask _ _)
  · exact .refl m
  · dsimp only
    split
    · exact dropped
    · exact dropped.trans (.interruptTask _ _)
  · split
    · exact .refl m
    · split <;> exact .refl m
  · exact dropped

end functions

/-- The innermost work is an attempt, and it is handed no outcome but that it was cancelled: it is over, and
its end is not told. -/
def Drops : Control → List Pending → Prop
  | .answer a, .attempt _ _ :: _ => ∀ r, a = .outcome r → r = .cancelled
  | _, _ => False

/-- Every step adds to the trace what its events tell of, and it opens and closes attempts like brackets,
unless it drops one. -/
theorem step_records (m : Machine) (env : Surroundings) (self : TaskId) (c : Control) (p : List Pending) :
    ∃ o, Records (openTags p) m (m.step env self c p).1 o ∧
      (¬ Drops c p → o = openTags (m.step env self c p).2.pending) := by
  have balanced (h : Balances p m (m.step env self c p)) : ∃ o,
      Records (openTags p) m (m.step env self c p).1 o ∧
        (¬ Drops c p → o = openTags (m.step env self c p).2.pending) :=
    ⟨_, h, fun _ => rfl⟩
  cases c with
  | enqueue => exact balanced (enqueue_balances m p)
  | takeSlot => exact balanced (takeSlot_balances m p env self)
  | watch => exact balanced (watch_balances m p self)
  | execute => exact balanced (execute_balances m p env)
  | enter place frame => exact balanced (enter_balances m p place frame)
  | next walk node => exact balanced (next_balances m p env self walk node)
  | dispatch walk node => exact balanced (dispatch_balances m p env walk node)
  | «try» a => exact balanced (attempt_balances m p env a)
  | iterate loop bound iterations => exact balanced (iterate_balances m p env loop bound iterations)
  | supply c => exact balanced (supply_balances m p c)
  | element c acts item => exact balanced (element_balances m p env self c acts item)
  | handle c => exact balanced (handle_balances m p env c)
  | act c acts finish => exact balanced (act_balances m p env self c acts finish)
  | wake w signalled interrupted => exact balanced (wake_balances m p env self w signalled interrupted)
  | answer a =>
    cases p with
    | nil => exact balanced (.refl m)
    | cons k p =>
      by_cases hk : ∃ a since, k = .attempt a since
      case neg => exact balanced (resume_balances m p env (fun a since h => hk ⟨a, since, h⟩) a)
      obtain ⟨b, since, rfl⟩ := hk
      cases a with
      | outcome r =>
        by_cases hr : r = .cancelled
        · subst hr
          refine ⟨openTags (.attempt b since :: p), ?_, fun h => absurd (fun r hr => ?_) h⟩
          · exact ⟨[], [_], rfl, Array.toList_push, .of_cancelled rfl, .nil _⟩
          · exact (Answer.outcome.inj hr).symm
        · exact balanced (afterAttempt_balances m p env b since hr)
      | _ => exact ⟨_, .refl m, fun h => absurd (by rintro r ⟨⟩) h⟩

/-- A command neither begins nor ends a visit. -/
theorem obey_records (m : Machine) (c : Command) : Records o m (m.obey c).1 o := by
  have released (n : Machine) (mode : String) (he : n.effects = m.effects) (ht : n.run.trace = m.run.trace) :
      Records o m (n.release mode) o := by
    refine .trans ?_ (.endPause _)
    exact .of_emit "run.resumed" (by decide) (congrArg (_ :: ·) he) ht
  cases c with
  | start slotted =>
    show Records o m (m.start slotted) o
    unfold Machine.start
    split
    · exact .refl m
    · exact (Records.spawn m _).trans (.of_eq rfl rfl)
  | pause =>
    show Records o m m.pause.1 o
    unfold Machine.pause
    split <;> exact .of_eq rfl rfl
  | resume =>
    show Records o m m.resumeRun.1 o
    unfold Machine.resumeRun
    split
    · exact released _ _ rfl rfl
    · exact .refl m
  | stepOver =>
    show Records o m m.stepOver.1 o
    unfold Machine.stepOver
    split
    · exact released _ _ rfl rfl
    · exact .refl m
  | cancel reason stamp =>
    show Records o m (m.cancel reason stamp).1 o
    have halted (reason : Option String) : Records o m (m.cancelToken reason).endPause o :=
      (Records.cancelToken m reason).trans (.endPause _)
    unfold Machine.cancel
    split
    · exact .refl m
    · dsimp only
      -- The reason that is given, and then whether the run has ended with that.
      split <;> split
      all_goals
        first
          | exact (halted _).trans (.finalize _ _ _)
          | exact halted _
  | setVar name v frame =>
    obtain he | ⟨layers, s, depth, he⟩ := m.obey_setVar name v frame
    · rw [he]
      exact .refl m
    · rw [he]
      exact .of_emit "vars.patch" (by decide) rfl rfl
  | edit f => exact .of_eq rfl rfl

end Machine

end Workflow
