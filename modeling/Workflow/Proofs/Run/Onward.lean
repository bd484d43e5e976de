import Workflow.Proofs.Run.Chore
/-!
How the walker goes on when it has not waited just before. It leaves the tasks that there are alone,
and the tasks that it is to wait for are new ones: a handler for an attempt, with the call that the
run's variables make, and watchers.
-/

namespace Workflow

/-- What a task goes on after, if that was a wait. -/
def Control.wait? : Control → Option Wait
  | .wake w _ _ => some w
  | _ => none

/-- The watcher that is to see a cancellation during a wait. -/
def Wait.guard? : Wait → Option TaskId
  | .start _ u | .settlement _ _ u | .nap u => some u
  | _ => none

/-- A wait that comes of another one. -/
def Wait.IsSequel : Wait → Prop
  | .grace _ | .rousing _ _ => True
  | _ => False

namespace Machine

variable {m n : Machine} {env : Surroundings} {p : List Pending} {t : TaskId}

/-- The call of the handler for an attempt at a node, unless the node's config makes no sense. -/
def call? (m : Machine) (a : Attempt) : Option Call :=
  match Template.resolve (m.vars a.place.layers) (.obj a.node.config) with
  | .error _ => none
  | .ok config =>
    some ⟨a.place, a.node, a.number, config.fields, (m.scope a.place.layers).snapshot⟩

theorem call?_congr (h : n.layers = m.layers) (a : Attempt) : n.call? a = m.call? a := by
  unfold call? vars scope
  rw [h]

/-- A step that leaves all tasks alone, and after which its task waits for new ones if for any. -/
structure Onward (m : Machine) (x : StepResult) : Prop where
  old : ∀ {u s}, m.state? u = some s → x.1.state? u = some s
  go : ∀ {c q}, x.2 = .go c q → c.wait? = none
  first : ∀ {w on limit q}, x.2 = .wait w on limit q → ¬ w.IsSequel
  guard : ∀ {w on limit q u}, x.2 = .wait w on limit q → w.guard? = some u →
    m.tasks.size ≤ u ∧ x.1.state? u = some (.fresh .watch false)
  handler : ∀ {a h u on limit q}, x.2 = .wait (.settlement a h u) on limit q →
    ∃ call, m.call? a = some call ∧ x.1.layers = m.layers ∧
      x.1.state? h = some (.fresh (.handle call) false)

namespace Onward

variable {x : StepResult}

theorem of_go {c : Control} (hn : n.tasks = m.tasks) (hc : c.wait? = none) :
    Onward m (n, .go c p) where
  old hs := by rw [state?, hn]; exact hs
  go := by rintro _ _ ⟨⟩; exact hc
  first := by rintro _ _ _ _ ⟨⟩
  guard := by rintro _ _ _ _ _ ⟨⟩
  handler := by rintro _ _ _ _ _ _ ⟨⟩

theorem of_pass : Onward m (m, .pass p) where
  old hs := hs
  go := by rintro _ _ ⟨⟩
  first := by rintro _ _ _ _ ⟨⟩
  guard := by rintro _ _ _ _ _ ⟨⟩
  handler := by rintro _ _ _ _ _ _ ⟨⟩

theorem of_stop (a : Answer) : Onward m (m, .stop a) where
  old hs := hs
  go := by rintro _ _ ⟨⟩
  first := by rintro _ _ _ _ ⟨⟩
  guard := by rintro _ _ _ _ _ ⟨⟩
  handler := by rintro _ _ _ _ _ _ ⟨⟩

/-- A wait that no watcher guards. -/
theorem of_wait (hn : n.tasks = m.tasks) {w : Wait} (hw : w.guard? = none) (hs : ¬ w.IsSequel)
    {on : List TaskId} {limit : Option Seconds} : Onward m (n, .wait w on limit p) where
  old hu := by rw [state?, hn]; exact hu
  go := by rintro _ _ ⟨⟩
  first := by rintro _ _ _ _ ⟨⟩; exact hs
  guard := by
    rintro _ _ _ _ _ ⟨⟩ hg
    rw [hw] at hg
    cases hg
  handler := by
    rintro _ _ _ _ _ _ ⟨⟩
    cases hw

/-- What was done before left tasks and layers alone. -/
theorem after (ht : n.tasks = m.tasks) (hl : n.layers = m.layers) (h : Onward n x) : Onward m x where
  old hs := h.old (by rw [state?, ht]; exact hs)
  go := h.go
  first := h.first
  guard hx hw := by
    obtain ⟨hu, hs⟩ := h.guard hx hw
    exact ⟨ht ▸ hu, hs⟩
  handler hx := by
    obtain ⟨call, hc, hk, hs⟩ := h.handler hx
    exact ⟨call, (call?_congr hl _).symm.trans hc, hk.trans hl, hs⟩

end Onward

theorem state?_spawn_old (c : Control) {u : TaskId} {s : TaskState} (hs : m.state? u = some s) :
    (m.spawn c []).1.state? u = some s := by
  rw [state?_spawn, if_neg (Nat.ne_of_lt (lt_of_state? hs)), hs]

theorem state?_spawn_new (m : Machine) (c : Control) :
    (m.spawn c []).1.state? m.tasks.size = some (.fresh c false) := by
  rw [state?_spawn, if_pos rfl]

theorem size_le_spawn (m : Machine) (c : Control) : m.tasks.size ≤ (m.spawn c []).1.tasks.size :=
  (Tends.spawn m c).size

theorem enqueue_onward (m : Machine) (p : List Pending) : Onward m (m.enqueue p) := by
  unfold enqueue
  split
  · exact .of_go rfl rfl
  · exact {
      old := fun hs => state?_spawn_old _ (state?_spawn_old _ hs)
      go := by rintro _ _ ⟨⟩
      first := by rintro _ _ _ _ ⟨⟩; exact id
      guard := by
        rintro _ _ _ _ _ ⟨⟩ ⟨⟩
        exact ⟨size_le_spawn m _, state?_spawn_new _ _⟩
      handler := by rintro _ _ _ _ _ _ ⟨⟩ }

theorem rest_onward (hn : n.tasks = m.tasks) (seconds : Seconds) :
    Onward m (n.rest seconds p) := by
  unfold rest
  split
  · exact .of_go hn rfl
  · exact {
      old := fun hs => state?_spawn_old _ (by rw [state?, hn]; exact hs)
      go := by rintro _ _ ⟨⟩
      first := by rintro _ _ _ _ ⟨⟩; exact id
      guard := by
        rintro _ _ _ _ _ ⟨⟩ ⟨⟩
        exact ⟨Nat.le_of_eq (by rw [hn]), state?_spawn_new _ _⟩
      handler := by rintro _ _ _ _ _ _ ⟨⟩ }

theorem sleep_onward (seconds : Seconds) : Onward m (m.sleep seconds p) := by
  unfold sleep
  split
  · exact .of_wait rfl rfl id
  · exact .of_pass

theorem call_onward (hn : n.tasks = m.tasks) (flow : Flow) (layers : List Nat) (node : Node)
    (shared : Bool) : Onward m (n.call env flow layers node shared p) := by
  unfold call
  dsimp only
  split <;> exact .of_go hn rfl

theorem iterate_onward (loop : Loop) (bound iterations : Nat) :
    Onward m (m.iterate env loop bound iterations p) := by
  unfold iterate
  dsimp only
  split
  · exact .of_go rfl rfl
  · split
    · exact .of_go rfl rfl
    · split
      · exact .of_go rfl rfl
      · exact call_onward (by rfl) _ _ _ _

theorem startWhile_onward (place : Place) (node : Node) :
    Onward m (m.startWhile env place node p) := by
  unfold startWhile
  dsimp only
  split
  · exact .of_go rfl rfl
  · split
    · exact .of_go rfl rfl
    · split <;> exact .of_go rfl rfl

theorem nextItem_onward (loop : Loop) (itemName : String) (indexName : Option String) (index : Nat)
    (items : List Value) : Onward m (m.nextItem env loop itemName indexName index items p) := by
  unfold nextItem
  split
  · exact .of_go rfl rfl
  · split
    · exact .of_go rfl rfl
    · exact call_onward (by rfl) _ _ _ _

theorem startForeach_onward (place : Place) (node : Node) :
    Onward m (m.startForeach env place node p) := by
  unfold startForeach
  dsimp only
  split
  · exact .of_go rfl rfl
  · split
    · exact .of_go rfl rfl
    · exact nextItem_onward _ _ _ _ _

theorem supply_onward (c : Collection) : Onward m (m.supply c p) := by
  unfold supply
  split
  · exact .of_go rfl rfl
  · refine .of_go ?_ rfl
    split <;> rfl

theorem element_onward (c : Collection) {acts : List Act} (ha : ∀ a ∈ acts, a.IsRest)
    (item : Except HandlerFault Value) : Onward m (m.element env t c acts item p) := by
  unfold element
  split
  · exact sleep_onward _
  · exact absurd (ha _ List.mem_cons_self) id
  · exact absurd (ha _ List.mem_cons_self) id
  · split
    · exact .of_go rfl rfl
    · split
      · exact .of_go rfl rfl
      · exact call_onward (by rfl) _ _ _ _

theorem startElements_onward (a : Attempt) : Onward m (m.startElements env a p) := by
  unfold startElements
  split
  · exact .of_go rfl rfl
  · split
    · exact .of_go rfl rfl
    · dsimp only
      split
      · exact .of_go rfl rfl
      · split
        · exact .of_go rfl rfl
        · split <;> exact .of_go rfl rfl

theorem invoke_onward (place : Place) (node : Node) (target : Flow) (args : Entries Value)
    (inline : Bool) (returns : Value) (wrap : List Nat → List Pending → List Pending) :
    Onward m (m.invoke env place node target args inline returns p wrap) := by
  unfold invoke
  split <;> exact call_onward (by rfl) _ _ _ _

theorem startExecuteFlow_onward (place : Place) (node : Node) :
    Onward m (m.startExecuteFlow env place node p) := by
  unfold startExecuteFlow
  split
  · exact .of_go rfl rfl
  · split
    · exact .of_go rfl rfl
    · split
      · exact invoke_onward _ _ _ _ _ _ _
      · exact .of_go rfl rfl

theorem startPrimitive_onward (a : Attempt) : Onward m (m.startPrimitive env a p) := by
  unfold startPrimitive
  dsimp only
  split
  · exact .of_go rfl rfl
  · split
    · exact .of_go rfl rfl
    · rename_i config hr
      split
      · exact .of_go rfl rfl
      · exact {
          old := fun hs => state?_spawn_old _ (state?_spawn_old _ hs)
          go := by rintro _ _ ⟨⟩
          first := by rintro _ _ _ _ ⟨⟩; exact id
          guard := by
            rintro _ _ _ _ _ ⟨⟩ ⟨⟩
            exact ⟨size_le_spawn m _, state?_spawn_new _ _⟩
          handler := by
            rintro _ _ _ _ _ _ ⟨⟩
            refine ⟨_, ?_, rfl, state?_spawn_old _ (state?_spawn_new _ _)⟩
            unfold call?
            rw [hr] }

theorem attempt_onward (a : Attempt) : Onward m (m.attempt env a p) := by
  refine .after (n := m.emit "node.started" (startedPayload a.node a.number a.place.depth)) rfl rfl ?_
  unfold attempt
  dsimp only
  split
  · exact .of_go rfl rfl
  · exact startForeach_onward _ _
  · exact startElements_onward _
  · exact startWhile_onward _ _
  · exact startExecuteFlow_onward _ _
  · exact startPrimitive_onward _

theorem enter_onward (place : Place) (frame : Nat) : Onward m (m.enter place frame p) := by
  unfold enter
  dsimp only
  split
  · exact .of_go rfl rfl
  · split <;> exact .of_go rfl rfl

theorem next_onward (walk : Walk) (node : Option Node) : Onward m (m.next env t walk node p) := by
  unfold next
  split
  · exact .of_go rfl rfl
  · split
    · exact .of_go rfl rfl
    · split
      · exact .of_go rfl rfl
      · rename_i node _ _
        dsimp only
        have hn : ((m.arrive walk.frame node.id).takePause node).1.tasks = m.tasks := by
          rcases takePause_cases (m.arrive walk.frame node.id) node with h | ⟨n, reason, h, hu, -⟩
          · rw [h]
            rfl
          · rw [h]
            exact (congrArg Machine.tasks hu :)
        split
        · exact .of_go hn rfl
        · exact .of_wait (w := .resumption) (by exact hn) rfl id

theorem dispatch_onward (walk : Walk) (node : Node) : Onward m (m.dispatch env walk node p) := by
  unfold dispatch
  dsimp only
  split
  · exact .of_go rfl rfl
  · split
    · exact .of_go rfl rfl
    · split
      · exact .of_go rfl rfl
      · split <;> exact .of_go rfl rfl

theorem afterFailure_onward (a : Attempt) (since : Seconds) (e : ErrorInfo) :
    Onward m (m.afterFailure env a since e p) := by
  unfold afterFailure
  dsimp only
  split
  · split
    · exact rest_onward (by rfl) _
    · exact .of_go rfl rfl
  · exact .of_go rfl rfl
  · exact .of_go rfl rfl
  · exact .of_go rfl rfl

theorem afterAttempt_onward (a : Attempt) (since : Seconds) (o : Outcome) :
    Onward m (m.afterAttempt env a since o p) := by
  unfold afterAttempt
  split
  · exact .of_go rfl rfl
  · exact .of_go rfl rfl
  · exact afterFailure_onward _ _ _

/-- The end of a run that nothing in it waits to go on with. -/
theorem finalize_tasks (hm : m.paused = []) (stamp : Instant) (o : Outcome) :
    (m.finalize stamp o).tasks = m.tasks := by
  have ended (n : Machine) (hn : n.paused = []) : n.endPause.tasks = n.tasks := by
    unfold endPause
    rw [hn]
    rfl
  unfold finalize
  split
  · rfl
  · dsimp only
    split
    · exact ended _ hm
    · split <;> exact ended _ hm

/-- Work that waits deals with an answer, unless a run is being cancelled that way. -/
theorem resume_onward (hm : m.paused = []) (k : Pending) {a : Answer}
    (ha : k = .execution → a ≠ .interrupted) : Onward m (m.resume env k a p) := by
  cases k with
  | slot held =>
    have given : (if held then m.effect .giveSlotBack else m).tasks = m.tasks := by
      split <;> rfl
    cases a <;> exact .of_go given rfl
  | execution =>
    cases a with
    | outcome o => exact .of_go (finalize_tasks hm _ _) rfl
    | thrown f => exact .of_go (finalize_tasks hm _ _) rfl
    | interrupted => exact absurd rfl (ha rfl)
    | _ => exact .of_go rfl rfl
  | visit walk node =>
    cases a with
    | outcome o =>
      show Onward m (m, afterVisit walk node o p)
      unfold afterVisit
      split <;> exact .of_go rfl rfl
    | _ => exact .of_go rfl rfl
  | attempt b since =>
    cases a with
    | outcome o => exact afterAttempt_onward _ _ _
    | _ => exact .of_go rfl rfl
  | backoff b =>
    cases a with
    | rested cutShort =>
      unfold resume
      dsimp only
      split <;> exact .of_go rfl rfl
    | _ => exact .of_go rfl rfl
  | primitive b =>
    cases a with
    | handled r =>
      cases r with
      | success values =>
        refine .of_go ?_ rfl
        split <;> rfl
      | failure e => exact .of_go rfl rfl
    | _ => exact .of_go rfl rfl
  | foreach loop itemName indexName index rest =>
    cases a with
    | outcome o =>
      cases o with
      | completed l => exact nextItem_onward _ _ _ _ _
      | _ => exact .of_go rfl rfl
    | _ => exact .of_go rfl rfl
  | «while» loop bound iterations =>
    cases a with
    | outcome o => cases o <;> exact .of_go rfl rfl
    | _ => exact .of_go rfl rfl
  | elements c =>
    cases a with
    | outcome o => cases o <;> exact .of_go rfl rfl
    | _ => exact .of_go rfl rfl
  | invocation place node child returns =>
    cases a with
    | outcome o =>
      cases o with
      | completed l =>
        cases returns with
        | some v =>
          refine .of_go ?_ rfl
          unfold writeReturns
          dsimp only
          split <;> rfl
        | none => exact .of_go rfl rfl
      | _ => cases returns <;> exact .of_go rfl rfl
    | _ => cases returns <;> exact .of_go rfl rfl
  | _ => cases a <;> exact .of_go rfl rfl

theorem execute_onward (hm : m.paused = []) : Onward m (m.execute env p) := by
  unfold execute
  split
  · exact .of_go rfl rfl
  · split
    · exact .of_go (finalize_tasks hm _ _) rfl
    · exact .of_go rfl rfl

/-- A step of the walk, with no answer to be handed on. -/
theorem walk_onward {c : Control} (hc : c.IsWalk) (ha : ∀ a, c ≠ .answer a) :
    Onward m (m.step env t c p) := by
  cases c with
  | enter place frame => exact enter_onward _ _
  | next walk node => exact next_onward _ _
  | dispatch walk node => exact dispatch_onward _ _
  | «try» a => exact attempt_onward _
  | iterate loop bound iterations => exact iterate_onward _ _ _
  | supply c => exact supply_onward _
  | element c acts item => exact element_onward _ hc.2 _
  | answer a => exact absurd rfl (ha a)
  | _ => exact absurd hc id

/-- A step of the walker that does not end a wait. -/
theorem Stands.onward {c : Control} (h : Stands m c p) (hm : m.paused = [])
    (hc : c.wait? = none) (env : Surroundings) (t : TaskId) : Onward m (m.step env t c p) := by
  have answered (a : Answer) (ha : p.head? = some .execution → a ≠ .interrupted) :
      Onward m (m.step env t (.answer a) p) := by
    cases p with
    | nil => exact .of_stop a
    | cons k q => exact resume_onward hm k fun hk => ha (congrArg some hk)
  cases h with
  | enqueue h => exact enqueue_onward m _
  | start h t u s i => cases hc
  | execute h hp => exact execute_onward hm
  | walk h hu hw hmeets hl =>
    by_cases ha : ∃ a, c = .answer a
    · obtain ⟨a, rfl⟩ := ha
      refine answered a fun _ => ?_
      rintro rfl
      rcases p with _ | ⟨_ | _, _⟩ <;> exact hmeets
    · exact walk_onward hw fun a he => ha ⟨a, he⟩
  | wake h hu hw hm s i => cases hc
  | resume h hu hm s i => cases hc
  | back h hu hm => exact answered _ fun _ => by simp
  | refuse h hu walk node => exact dispatch_onward walk node
  | unwind h hu => exact answered _ fun _ => by simp
  | ended h hp a =>
    refine answered a fun hk => ?_
    cases p with
    | nil => cases hk
    | cons k q =>
      cases hk
      exact absurd hp id

theorem takeSlot_onward : Onward m (m.takeSlot env t p) := by
  unfold takeSlot
  split
  · exact .of_wait (by rfl) rfl id
  · exact .of_go rfl rfl

theorem watch_onward : Onward m (m.watch t p) := by
  unfold watch
  split
  · exact .of_go rfl rfl
  · exact .of_wait (by rfl) rfl id

theorem handle_onward (w : World) (now : Moment) (call : Call) :
    Onward m (m.handle (w.surroundings now) call p) := by
  unfold handle
  split
  · exact .of_go rfl rfl
  · rename_i reg hreg
    obtain ⟨b, hb⟩ := now.builtin.handler hreg
    rw [hb]
    dsimp only
    split
    · exact .of_go rfl rfl
    · exact .of_go rfl rfl
    · exact rest_onward rfl _

/-- A step of another task that does not end a wait. -/
theorem errand_onward {roles : List Role} {r : Role} {c : Control} (hr : r ≠ .walker)
    (hs : Control.Suits roles r c p) (hc : c.wait? = none) (w : World) (now : Moment) :
    Onward m (m.step (w.surroundings now) t c p) := by
  cases c with
  | takeSlot => exact takeSlot_onward
  | watch => exact watch_onward
  | handle call => exact handle_onward w now call
  | wake v s i => cases hc
  | answer a =>
    cases p with
    | nil => exact .of_stop a
    | cons k q =>
      obtain ⟨rfl, rfl⟩ := hs.of_answer hr
      cases a <;> exact .of_go rfl rfl
  | _ => cases r <;> first | exact absurd rfl hr | exact absurd hs id

end Machine

end Workflow
