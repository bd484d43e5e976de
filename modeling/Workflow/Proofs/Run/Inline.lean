import Workflow.Proofs.Run.Lockstep
/-!
Calls in the scope of the caller. Such a call goes on like the nodes of the called flow carried out in
the caller's place: whatever is done to both, they read and write the same variables, their traces differ
in the depth alone, and they come to the same end.
-/

namespace Workflow

/-- A scope with the defaults of a flow bound where their names are free, and with arguments. -/
def Flow.prepare (flow : Flow) (args : Entries Value) (s : Scope) : Scope :=
  (flow.vars.foldl (fun s (name, v) => if Scope.contains name s then s else Scope.set name v s)
    s).update args

theorem Flow.prepare_written (flow : Flow) (args : Entries Value) (s : Scope) :
    Scope.Written s (flow.prepare args s) := by
  refine .trans (.foldl (fun s e => ?_) _ _) (.update _ args)
  dsimp only
  split
  · exact .refl s
  · exact .set (.refl s) _ _

namespace Machine

/-- An attempt at a node that calls a flow in the scope of the caller. -/
structure CallsInline (m : Machine) (env : Surroundings) (a : Attempt) (target : Flow)
    (args : Entries Value) : Prop where
  kind : a.node.kind = "executeFlow"
  called : ∃ config, Template.resolve (m.vars a.place.layers) (.obj a.node.config) = .ok config ∧
    m.lookupFlow env a.place.flow (config.field "flowId") = some target ∧
    (config.field "args").orElse (.obj []) = .obj args ∧
    ((config.field? "inline").getD (.bool true)).isVacant = false

/-- A call in the scope of the caller goes on in front of a layer that passes on what is written. -/
theorem CallsInline.attempt_eq {m : Machine} {env : Surroundings} {a : Attempt} {target : Flow}
    {args : Entries Value} (h : CallsInline m env a target args) (p : List Pending) :
    let n := ((m.emit "node.started" (startedPayload a.node a.number a.place.depth)).addLayer
      Scope.hollow a.place.layers).1
    let child := m.layers.size :: a.place.layers
    m.attempt env a p = (n.putScope child (target.prepare args (n.scope child))).call env target child
      a.node true (.invocation a.place a.node child none :: .attempt a env.now :: p) := by
  intro n child
  obtain ⟨config, hc, ht, ha, hi⟩ := h.called
  let n := m.emit "node.started" (startedPayload a.node a.number a.place.depth)
  have hc : Template.resolve (n.vars a.place.layers) (.obj a.node.config) = .ok config := hc
  have ht : n.lookupFlow env a.place.flow (config.field "flowId") = some target := ht
  unfold attempt
  rw [h.kind]
  show n.startExecuteFlow env a.place a.node (.attempt a env.now :: p) = _
  unfold startExecuteFlow
  rw [hc]
  dsimp only
  rw [ht]
  dsimp only
  rw [ha]
  dsimp only
  rw [hi]
  rfl

/-- A machine with a frame for a call on its stack. -/
def framed (m : Machine) (flow : Flow) (layers : List Nat) (node : Node) (shared : Bool) : Machine :=
  { m with
    nextFrame := m.nextFrame + 1
    run := { m.run with stack := m.run.stack ++
      [{ key := m.nextFrame, flow := flow.id, invokedBy := some node.id, layers, shared }] } }

/-- A call that is not refused enters its flow in a frame of its own. -/
theorem call_of_lt {m : Machine} {env : Surroundings} (h : m.run.stack.length < env.settings.maxCallDepth)
    (flow : Flow) (layers : List Nat) (node : Node) (shared : Bool) (p : List Pending) :
    m.call env flow layers node shared p = (m.framed flow layers node shared,
      .go (.enter ⟨flow, layers, 0⟩ m.nextFrame) (.frame m.nextFrame flow.id node.id :: p)) :=
  if_neg (Nat.not_le.mpr h)

end Machine

namespace Descent

variable {d : Descent} {p : List Pending} {k : Pending}

/-! Work outside the call. -/

theorem place_of_not_mem {q : Place} (h : d.layer ∉ q.layers) : d.place q = q :=
  if_neg h

theorem pending_eq (h : Lies (d.layer ∉ ·) k.place?) : d.pending k = k := by
  cases k
  case invocation q node child returns =>
    have hq : d.layer ∉ q.layers := h _ rfl
    rw [pending, place_of_not_mem hq, if_neg hq]
  all_goals first
    | rfl
    | simp only [pending, walk, attempt, loop, collection, place_of_not_mem (h _ rfl)]

/-- Work outside the call is the same with the call taken back. -/
theorem work_eq (h : Above (d.layer ∉ ·) [] p) : d.work p = p := by
  obtain ⟨ks, rfl, hk⟩ := h
  rw [List.append_nil, work]
  exact (List.map_congr_left fun k hm => pending_eq (hk k hm)).trans (List.map_id _)

end Descent

namespace Execution

variable {x y : Execution} {w : World}

/-- Whether the walker, in the middle of its steps, began them with work in places whose layers are in
the order in which they were made. -/
def Began (x : Execution) : Prop :=
  ∀ s p, x.active = some s → x.machine.main = some s.task →
    x.machine.pending? s.task = some p → Above (Machine.IsChain x.machine.layers.size) [] p

/-- A task begins its steps with the work that waits in it. -/
theorem begin_pending {t : TaskId} (hx : x.active = none) {s : Strand} (hs : (x.begin t).active = some s) :
    (x.begin t).machine.pending? s.task = some s.pending := by
  have hb := x.begins t
  generalize x.begin t = y at hb hs ⊢
  cases hb with
  | unready => rw [hx] at hs; cases hs
  | dismissed => cases hs
  | fresh _ hp | woken _ hp =>
    cases hs
    exact (Machine.pending?_setState _).trans hp

/-- A task that goes on with its steps keeps what it began them with. -/
theorem step_pending (h : x.IsSound) {s s' : Strand} (hs : x.active = some s) {now : Moment}
    (hs' : (x.step w now).active = some s') : s'.task = s.task ∧
      (s.task < x.machine.tasks.size →
        (x.step w now).machine.pending? s.task = x.machine.pending? s.task) := by
  obtain ⟨-, roles, hsound⟩ := h
  rw [hs] at hsound
  have htends := hsound.step_tends w now
  rw [step_eq hs] at hs' ⊢
  obtain ⟨⟨c, p⟩, hturn, rfl⟩ := Option.map_eq_some_iff.mp hs'
  refine ⟨rfl, fun hlt => Eq.trans ?_ (htends.pending hlt)⟩
  generalize x.machine.step (w.surroundings now) s.task s.control s.pending = r at hturn ⊢
  obtain ⟨m, turn⟩ := r
  cases turn with
  | go c q => rfl
  | _ => cases hturn

theorem step_began (h : x.IsSound) (hb : x.Began) {now : Moment}
    (hsize : x.machine.layers.size ≤ (x.step w now).machine.layers.size) : (x.step w now).Began := by
  intro s' p hs' hm hp
  cases hs : x.active with
  | none =>
    unfold step at hs'
    rw [hs] at hs'
    cases hs.symm.trans hs'
  | some s =>
    obtain ⟨hself, hkept⟩ := step_pending h hs hs'
    rw [hself] at hm hp
    have hmain : x.machine.main = some s.task := by
      by_contra hn
      exact hn ((congrArg Machine.main (step_attends (w := w) h hs hn now).watchers :).symm.trans hm)
    rw [hkept (h.lt_main hmain)] at hp
    exact (hb s p hs hmain hp).mono fun _ => Machine.widens_isChain.mono hsize

theorem take_began (h : x.IsSound) (hr : Roaming Machine.IsChain [] x) (hb : x.Began) (i : Input) :
    (x.take w i).Began := by
  obtain ⟨hy, hsize⟩ : Roaming Machine.IsChain [] (x.take w i) ∧
      (¬ i.IsWrite → x.machine.layers.size ≤ (x.take w i).machine.layers.size) := by
    rcases take_roaming (w := w) Machine.widens_isChain h hr i with hy | hy
    · exact ⟨hy.1, fun hi => (hy.2 hi).size_le⟩
    · exact absurd rfl hy.1
  cases i with
  | command c =>
    show (x.obey c).Began
    unfold obey
    split
    · rintro s p ⟨⟩
    · exact hb
  | move a =>
    by_cases ha : x.allows a = true
    · have hsize := hsize id
      cases a with
      | begin t =>
        rw [show x.take w (.move (.begin t)) = x.begin t from if_pos ha] at hy ⊢
        simp only [allows, isIdle, Bool.and_eq_true, Option.isNone_iff_eq_none] at ha
        intro s p hs hm hp
        cases (begin_pending ha.1 hs).symm.trans hp
        exact (hy.stance _ _ (stance_of_walker hs hm)).2
      | step now =>
        rw [show x.take w (.move (.step now)) = x.step w now from if_pos ha] at hsize ⊢
        exact step_began h hb hsize
      | tell t ticket =>
        rw [show x.take w (.move (.tell t ticket)) = x.put (x.machine.tell t ticket) none from if_pos ha]
        rintro s p ⟨⟩
      | grant t =>
        rw [show x.take w (.move (.grant t)) = x.grant t from if_pos ha]
        intro s p hs hm hp
        exact hb s p hs hm (Machine.pending?_setState .. ▸ hp)
    · rwa [show x.take w (.move a) = x from if_neg ha]

theorem after_began (h : x.IsSound) (hr : Roaming Machine.IsChain [] x) (hb : x.Began)
    (is : List Input) : (after w is x).Began := by
  induction is generalizing x with
  | nil => exact hb
  | cons i is ih =>
    exact ih (take_isSound h i) (after_chained h hr [i]) (take_began h hr hb i)

/-- How a run in which a call goes on compares with the one that carries out the nodes of the called
flow in the caller's place. -/
structure Alike (x y z : Execution) (base : List Pending) : Prop where
  layers : z.machine.layers = y.machine.layers
  /-- The call's own layer binds nothing. -/
  hollow : y.machine.layers[x.machine.layers.size]? = some Scope.hollow
  size_trace : z.machine.run.trace.size = y.machine.run.trace.size
  earlier : ∀ i < x.machine.run.trace.size, z.machine.run.trace[i]? = y.machine.run.trace[i]?
  /-- All that has been carried out since the call is one level deeper in it. -/
  deeper : ∀ i e, x.machine.run.trace.size ≤ i → y.machine.run.trace[i]? = some e →
    1 ≤ e.depth ∧ z.machine.run.trace[i]? = some { e with depth := e.depth - 1 }
  status : z.machine.run.status = y.machine.run.status
  allows : ∀ b, z.allows b = y.allows b
  answer : ∀ b, y.stance = some (.answer b, base) ↔ z.stance = some (.answer b, base)

end Execution

namespace Descent

variable {d : Descent} {x y : Execution}

/-- The walker hands an answer to the work below the call if it does so with the call taken back. -/
theorem Goes.answers (h : d.Goes y) (hb : d.work d.base = d.base) (b : Answer) :
    y.stance = some (.answer b, d.base) ↔ (d.execution y).stance = some (.answer b, d.base) := by
  rw [stance_execution h.main]
  constructor
  · intro hs
    rw [hs, Option.map_some]
    exact congrArg (fun p => some (Control.answer b, p)) hb
  · intro hs
    obtain ⟨⟨c, p⟩, hy, he⟩ := Option.map_eq_some_iff.mp hs
    obtain ⟨-, ks, rfl, -⟩ := h.stance c p hy
    obtain ⟨hc, hp⟩ := Prod.mk.injEq .. ▸ he
    have hks : ks = [] := by
      have hlen := congrArg List.length hp
      simp only [work, List.length_map, List.length_append] at hlen
      exact List.length_eq_zero_iff.mp (by omega)
    subst hks
    cases c <;> cases hc
    exact hy

/-- A run in which the call goes on, beside the one with the call taken back. -/
theorem Goes.alike (h : d.Goes y) (hb : d.work d.base = d.base)
    (hl : d.layer = x.machine.layers.size) (ht : d.traced = x.machine.run.trace.size) :
    Execution.Alike x y (d.execution y) d.base where
  layers := rfl
  hollow := hl ▸ h.lasts.hollow
  size_trace := Array.size_mapIdx
  earlier i hi := by
    show (y.machine.run.trace.mapIdx d.entry)[i]? = _
    rw [Array.getElem?_mapIdx]
    cases y.machine.run.trace[i]? with
    | none => rfl
    | some e => exact congrArg some (if_pos (ht ▸ hi))
  deeper i e hi he := by
    refine ⟨h.lasts.deeper i e (ht ▸ hi) he, ?_⟩
    show (y.machine.run.trace.mapIdx d.entry)[i]? = _
    rw [Array.getElem?_mapIdx, he]
    exact congrArg some (if_neg (Nat.not_lt.mpr (ht ▸ hi)))
  status := rfl
  allows := allows_execution d y
  answer := h.answers hb

end Descent

namespace Execution

variable {x y : Execution} {w : World}

/-! The beginning of a call. -/

section inline

variable {s : Strand} {a : Attempt} {target : Flow} {args : Entries Value} {now : Moment}

/-- The work of a call in the scope of its caller that an attempt makes above other work. -/
def inlineWork (x : Execution) (a : Attempt) (target : Flow) (now : Moment) (p : List Pending) :
    List Pending :=
  .frame x.machine.nextFrame target.id a.node.id :: callWork x a now none p

/-- An attempt that has begun, with a layer for its call. -/
def layered (x : Execution) (a : Attempt) : Machine :=
  ((x.machine.emit "node.started" (Machine.startedPayload a.node a.number a.place.depth)).addLayer
    Scope.hollow a.place.layers).1

/-- An attempt that binds defaults and arguments in a scope. -/
def bound (x : Execution) (a : Attempt) (target : Flow) (args : Entries Value) (layers : List Nat) :
    Machine :=
  (layered x a).putScope layers (target.prepare args ((layered x a).scope layers))

/-- The run in which an attempt, instead of a call, carries out the nodes of the called flow in its own
place, after it has bound what the call would bind. The numbers of the call's layer and of its frame stay
unused. -/
def inPlace (x : Execution) (s : Strand) (a : Attempt) (target : Flow) (args : Entries Value)
    (now : Moment) : Execution :=
  x.put { bound x a target args a.place.layers with nextFrame := x.machine.nextFrame + 1 }
    (some ⟨s.task, .enter ⟨target, a.place.layers, 0⟩ x.machine.nextFrame,
      inlineWork x a target now s.pending⟩)

/-- A call in the scope of the caller that is not refused begins in a frame of its own. -/
theorem callsInline_begins (hs : x.active = some s) (hc : s.control = .try a)
    (hcall : x.machine.CallsInline (w.surroundings now) a target args)
    (hlen : x.machine.run.stack.length < w.settings.maxCallDepth) :
    let child := x.machine.layers.size :: a.place.layers
    x.take w (.move (.step now)) = x.put ((bound x a target args child).framed target child a.node true)
      (some ⟨s.task, .enter ⟨target, child, 0⟩ x.machine.nextFrame,
        inlineWork x a target now s.pending⟩) := by
  intro child
  let m := bound x a target args child
  have hstep : x.machine.step (w.surroundings now) s.task s.control s.pending =
      (m.framed target child a.node true, .go (.enter ⟨target, child, 0⟩ m.nextFrame)
        (.frame m.nextFrame target.id a.node.id :: callWork x a now none s.pending)) := by
    rw [hc]
    exact (hcall.attempt_eq s.pending).trans (Machine.call_of_lt hlen ..)
  rw [show x.take w (.move (.step now)) = x.step w now from if_pos (by simp [allows, isIdle, hs]),
    step_eq hs, hstep]
  rfl

/-- Before it carries out anything, a run in the caller's place has bound defaults and arguments in the
scope of the caller. -/
theorem inPlace_scope (hchain : Machine.IsChain x.machine.layers.size a.place.layers) :
    (inPlace x s a target args now).machine.scope a.place.layers =
      target.prepare args (x.machine.scope a.place.layers) := by
  have hold : (layered x a).scope a.place.layers = x.machine.scope a.place.layers := by
    refine List.map_congr_left fun i hi => ?_
    show (((x.machine.layers.push Scope.hollow)[i]?).getD {}) = _
    rw [Array.getElem?_push, if_neg (Nat.ne_of_lt (hchain.lt i hi))]
  show (bound x a target args a.place.layers).scope a.place.layers = _
  rw [bound, hold]
  refine Machine.scope_putScope (hchain.descends.imp fun hij => Nat.ne_of_gt hij) (fun i hi => ?_) ?_
  · show i < (x.machine.layers.push Scope.hollow).size
    rw [Array.size_push]
    exact Nat.lt_succ_of_lt (hchain.lt i hi)
  · rw [(target.prepare_written args _).length]
    simp [Machine.scope]

/-- The call of an attempt, once it has begun. -/
def descent (x : Execution) (s : Strand) (a : Attempt) (target : Flow) (now : Moment) (logged : Nat)
    (hw : s.task < x.machine.tasks.size)
    (hc : Machine.IsChain x.machine.layers.size a.place.layers) : Descent where
  layer := x.machine.layers.size
  behind := a.place.layers
  behind_ne := hc.ne_nil
  behind_lt := hc.lt
  traced := x.machine.run.trace.size
  tasks := x.machine.tasks.size
  walker := s.task
  walker_lt := hw
  logged
  base := inlineWork x a target now s.pending
  framed := by simp [frameKeys, inlineWork]

variable {logged : Nat} {hwalker : s.task < x.machine.tasks.size}
  {hchain : Machine.IsChain x.machine.layers.size a.place.layers}

/-- Before the call the stack holds a frame for each call that the call is a part of, and the first
one. -/
theorem descent_frames (h : x.IsSound) (hs : x.active = some s) (hc : s.control = .try a) :
    (descent x s a target now logged hwalker hchain).frames = x.machine.run.stack.length := by
  have hstance := stance_of_walker hs (main_of_try h hs hc)
  have hu : x.machine.Underway s.pending := by
    rw [hc] at hstance
    rcases h.stands hstance with hstands | ⟨v, hv, -⟩
    · cases hstands with
      | walk h hu => exact hu
    · cases hv
  obtain ⟨root, hkeys⟩ := hu.keys
  have hlen := congrArg List.length hkeys
  simp only [Machine.stackKeys, List.length_map, List.length_reverse, List.length_append,
    List.length_cons, List.length_nil] at hlen
  exact hlen.symm

theorem not_mem_of_chain {layers : List Nat} (h : Machine.IsChain x.machine.layers.size layers) :
    (descent x s a target now logged hwalker hchain).layer ∉ layers :=
  fun hm => Nat.lt_irrefl _ (h.lt _ hm)

variable (target now logged hwalker hchain) in
/-- The work that waits for the end of the call lies outside it. -/
theorem descent_base (hp : Above (Machine.IsChain x.machine.layers.size) [] s.pending) :
    (descent x s a target now logged hwalker hchain).work (inlineWork x a target now s.pending) =
      inlineWork x a target now s.pending := by
  refine Descent.work_eq ?_
  obtain ⟨ks, hks, hk⟩ := hp
  refine ⟨inlineWork x a target now s.pending, by simp, fun k hm => ?_⟩
  have hplace : Lies (Machine.IsChain x.machine.layers.size) k.place? := by
    simp only [inlineWork, callWork, hks, List.append_nil, List.mem_cons] at hm
    rcases hm with rfl | rfl | rfl | hm
    · exact Machine.lies_none
    · exact Machine.lies_some hchain
    · exact Machine.lies_some hchain
    · exact hk k hm
  exact fun q hq => not_mem_of_chain (hplace q hq)

/-- All tasks that there are when the call begins are the same with the call taken back. -/
theorem descent_task (h : x.IsSound) (hb : x.Began) (hs : x.active = some s) (hc : s.control = .try a)
    {t : TaskId} {k : Task} (hk : x.machine.tasks[t]? = some k) :
    (descent x s a target now logged hwalker hchain).task t k = k := by
  have hlt : t < x.machine.tasks.size := (Array.getElem?_eq_some_iff.mp hk).1
  obtain ⟨state, pending, observers⟩ := k
  by_cases ht : t = s.task
  · subst ht
    have hrunning : state = .running := by
      obtain ⟨-, roles, hr⟩ := h
      have hstate := (hr.strand hs).1
      rw [Machine.state?, hk] at hstate
      exact Option.some.inj hstate
    have hp : (descent x s a target now logged hwalker hchain).work pending = pending := by
      refine Descent.work_eq ?_
      obtain ⟨ks, hks, hk⟩ := hb s pending hs (main_of_try h hs hc) (by rw [Machine.pending?, hk]; rfl)
      exact ⟨ks, hks, fun k hm q hq => not_mem_of_chain (hk k hm q hq)⟩
    have hself : (descent x s a target now logged hwalker hchain).spares s.task = false :=
      Descent.spares_walker _
    rw [Descent.task, Descent.workOf_eq hself, hp, hrunning]
    rfl
  · have hspares : (descent x s a target now logged hwalker hchain).spares t = true := by
      simp [Descent.spares, descent, hlt, ht]
    have hstate : (descent x s a target now logged hwalker hchain).stateOf t state = state := by
      rcases state with _ | _ | ⟨v, _⟩ | ⟨v, _, _⟩ | _
      case waiting => cases v <;> simp [Descent.stateOf, Descent.waitOf, hspares]
      case woken => cases v <;> simp [Descent.stateOf, Descent.waitOf, hspares]
      all_goals simp [Descent.stateOf, Descent.controlOf, hspares]
    rw [Descent.task, hstate, Descent.workOf, if_pos hspares]

variable (target now logged hwalker hchain) in
/-- Bindings are made through the scope behind the call's layer as without that layer. -/
theorem descent_bound (h : x.IsSound) (hb : x.Began) (hs : x.active = some s) (hc : s.control = .try a)
    (args : Entries Value) :
    let d := descent x s a target now logged hwalker hchain
    let child := x.machine.layers.size :: a.place.layers
    let m := (bound x a target args child).framed target child a.node true
    d.Lasts m ∧ d.machine { m with effects := [] } =
      { bound x a target args a.place.layers with
        nextFrame := x.machine.nextFrame + 1, effects := [] } := by
  intro d child m
  have hframes : d.frames = x.machine.run.stack.length := descent_frames h hs hc
  let n : Machine := { (layered x a).framed target child a.node true with effects := [] }
  have hn : d.Lasts n := by
    refine ⟨Array.getElem?_push_size, ?_, Nat.le_refl _, fun i e hi he => ?_, Nat.le_refl _⟩
    · show d.frames < (x.machine.run.stack ++ [_]).length
      simp [hframes]
    · have he : x.machine.run.trace[i]? = some e := he
      exact absurd (Array.getElem?_eq_some_iff.mp he).1 (Nat.not_lt.mpr hi)
  obtain ⟨he, hk⟩ := Descent.rewrite_machine hn d.fronts_self
    (f := target.prepare args) (Descent.defaults_pads target.vars args)
  have hback : d.machine n =
      { layered x a with nextFrame := x.machine.nextFrame + 1, effects := [] } := by
    have hstack : d.stack n.run.stack = x.machine.run.stack := by
      show d.stack (x.machine.run.stack ++ [_]) = _
      simp [Descent.stack, hframes]
    have htrace : n.run.trace.mapIdx d.entry = x.machine.run.trace := by
      refine Array.ext_getElem? fun i => ?_
      rw [Array.getElem?_mapIdx]
      show (x.machine.run.trace[i]?).map (d.entry i) = _
      cases he : x.machine.run.trace[i]? with
      | none => rfl
      | some e => exact congrArg some (if_pos (Array.getElem?_eq_some_iff.mp he).1)
    have htasks : n.tasks.mapIdx d.task = x.machine.tasks := by
      refine Array.ext_getElem? fun t => ?_
      rw [Array.getElem?_mapIdx]
      show (x.machine.tasks[t]?).map (d.task t) = _
      cases hk : x.machine.tasks[t]? with
      | none => rfl
      | some k => exact congrArg some (descent_task h hb hs hc hk)
    rw [Descent.machine, hstack, htrace, htasks]
    rfl
  refine ⟨hk.of_run rfl rfl (Nat.le_refl _), ?_⟩
  rw [d.layers_self, hback] at he
  exact he.symm

variable (hwalker hchain) in
/-- A call in the scope of its caller that has begun goes on, and taken back it is the run in which the
nodes of the called flow are carried out in the caller's place. -/
theorem descent_goes (h : x.IsSound) (hr : Roaming Machine.IsChain [] x) (hb : x.Began)
    (hs : x.active = some s) (hc : s.control = .try a)
    (hcall : x.machine.CallsInline (w.surroundings now) a target args)
    (hlen : x.machine.run.stack.length < w.settings.maxCallDepth) :
    let y := x.take w (.move (.step now))
    let d := descent x s a target now y.log.length hwalker hchain
    d.Goes y ∧ d.execution y = inPlace x s a target args now := by
  intro y d
  have hm := main_of_try h hs hc
  have hy : y = _ := callsInline_begins hs hc hcall hlen
  obtain ⟨hlasts, hback⟩ := descent_bound target now y.log.length hwalker hchain h hb hs hc args
  have hp : Above (Machine.IsChain x.machine.layers.size) [] s.pending :=
    (hr.stance _ _ (stance_of_walker hs hm)).2
  have hself : d.spares s.task = false := Descent.spares_walker d
  have hlayers : d.layers (x.machine.layers.size :: a.place.layers) = a.place.layers := d.layers_self
  have hmain : y.machine.main = some s.task := (main_take h (by simp [hm]) _).trans hm
  have hactive : y.active = some ⟨s.task, .enter ⟨target, _, 0⟩ x.machine.nextFrame,
      inlineWork x a target now s.pending⟩ := congrArg Execution.active hy
  refine ⟨⟨take_isSound h _, hmain, ?_, Nat.le_refl _, ?_⟩, ?_⟩
  · rw [hy]
    exact hlasts.of_run rfl rfl (Nat.le_refl _)
  · intro c p hcp
    cases (stance_of_walker hactive hmain).symm.trans hcp
    exact ⟨d.fronts_self, [], rfl, by simp⟩
  · have hmachine : d.machine y.machine = (inPlace x s a target args now).machine :=
      (congrArg (d.machine ·.machine) hy).trans hback
    have hstrand : y.active.map d.strand = (inPlace x s a target args now).active := by
      rw [hactive, Option.map_some, Descent.strand, Descent.controlOf_eq hself,
        Descent.workOf_eq hself, Descent.control, Descent.place_eq d.fronts_self, hlayers,
        descent_base target now _ hwalker hchain hp]
      rfl
    have hlog : d.log y.log = (inPlace x s a target args now).log := by
      have hold : d.log y.log = y.log := by simp [Descent.log, d, descent]
      rw [hold, hy]
      rfl
    rw [Descent.execution, hmachine, hstrand, hlog]

end inline

/-- A call in the scope of its caller is transparent. Until the called flow has come to its end, whatever
is done to the run, and as long as no call is refused: its run has the same variables in the same layers as
a run that carries out the flow's nodes in the caller's place and scope, the same steps are traced one
level deeper, and it comes to the same end. The layer of the call stays empty. -/
theorem inline_call (w : World) (id : String) (flow : Flow) (bindings : Entries Value)
    (breakpoints : Breakpoints) (pauseOnStart : Bool) (created : Instant) (is js : List Input)
    (now : Moment) (s : Strand) (a : Attempt) (target : Flow) (args : Entries Value) :
    let x := after w is (ofMachine (.create id flow bindings breakpoints pauseOnStart created))
    let y := x.take w (.move (.step now))
    let z := inPlace x s a target args now
    let base := inlineWork x a target now s.pending
    x.active = some s → s.control = .try a →
      x.machine.CallsInline (w.surroundings now) a target args →
      x.machine.run.stack.length < w.settings.maxCallDepth →
      y.machine.scope a.place.layers = target.prepare args (x.machine.scope a.place.layers) ∧
        y.IsAbove base ∧
        ((∀ j ∈ js, ¬ j.IsWrite) → Stays w base js y → Grants w js y →
          Alike x (after w js y) (after w js z) base) := by
  intro x y z base hs hc hcall hlen
  have hcreated : (ofMachine (.create id flow bindings breakpoints pauseOnStart created)).IsSound :=
    create_isSound id flow bindings breakpoints pauseOnStart created
  have hroams := create_chained id flow bindings breakpoints pauseOnStart created
  have hx : x.IsSound := after_isSound hcreated is
  have hr : Roaming Machine.IsChain [] x := after_chained hcreated hroams is
  have hb : x.Began := after_began hcreated hroams (by rintro s p ⟨⟩) is
  have hm := main_of_try hx hs hc
  obtain ⟨hplace, hp⟩ := hr.stance _ _ (stance_of_walker hs hm)
  have hchain : Machine.IsChain x.machine.layers.size a.place.layers := by
    rw [hc] at hplace
    exact hplace _ rfl
  obtain ⟨hg, hz⟩ := descent_goes (hx.lt_main hm) hchain hx hr hb hs hc hcall hlen
  have hbase := descent_base target now y.log.length (hx.lt_main hm) hchain hp
  have hlayers : y.machine.layers = z.machine.layers := congrArg (·.machine.layers) hz
  have hactive : y.active = some ⟨s.task, .enter ⟨target, _, 0⟩ x.machine.nextFrame, base⟩ :=
    congrArg Execution.active (callsInline_begins hs hc hcall hlen)
  refine ⟨?_, ⟨_, [], stance_of_walker hactive hg.main⟩, fun hj hstays hgrants => ?_⟩
  · rw [Machine.scope, hlayers]
    exact inPlace_scope hchain
  · obtain ⟨he, hk⟩ := hg.after rfl hj hstays hgrants
    rw [hz] at he
    rw [he]
    exact hk.alike hbase rfl rfl

/-- A run of one node that calls a flow in the scope of its caller, up to the node's attempt. -/
def sharing : Execution :=
  after { settings := {} }
    (.command (.start false) :: .move (.begin 0) :: List.replicate 4 (.move (.step quietMoment)))
    (ofMachine (.create "" {
      id := "sharing", subflows := [("binding", binding)]
      nodes := [{ id := "call", kind := "executeFlow", config := [("flowId", .str "binding")] }] }
      [("x", .int 1)] [] false 0))

/-- A call of a flow in the scope of its caller until that flow has been carried out. -/
theorem inline_call_binding : ∃ s a,
    sharing.active = some s ∧ s.control = .try a ∧
    sharing.machine.CallsInline (World.surroundings { settings := {} } quietMoment) a binding [] ∧
    sharing.machine.run.stack.length < ({} : Settings).maxCallDepth ∧
    let js := List.replicate 7 (Input.move (.step quietMoment))
    let y := sharing.take { settings := {} } (.move (.step quietMoment))
    let base := inlineWork sharing a binding quietMoment s.pending
    (∀ j ∈ js, ¬ j.IsWrite) ∧ Stays { settings := {} } base js y ∧ Grants { settings := {} } js y ∧
      y.machine.scope a.place.layers = binding.prepare [] (sharing.machine.scope a.place.layers) ∧
      y.IsAbove base ∧ Alike sharing (after { settings := {} } js y)
        (after { settings := {} } js (inPlace sharing s a binding [] quietMoment)) base := by
  have hcall : ∃ s a, sharing.active = some s ∧ s.control = .try a ∧
      sharing.machine.CallsInline (World.surroundings { settings := {} } quietMoment) a binding [] ∧
      Stays { settings := {} } (inlineWork sharing a binding quietMoment s.pending)
        (List.replicate 7 (.move (.step quietMoment)))
        (sharing.take { settings := {} } (.move (.step quietMoment))) :=
    ⟨_, _, rfl, rfl, ⟨rfl, _, rfl, rfl, rfl, rfl⟩, ⟨_, [], rfl⟩, ⟨_, [], rfl⟩, ⟨_, [], rfl⟩,
      ⟨_, [_], rfl⟩, ⟨_, [_, _], rfl⟩, ⟨_, [_], rfl⟩, ⟨_, [], rfl⟩, ⟨_, [], rfl⟩⟩
  have hgrants : Grants { settings := {} } (List.replicate 7 (.move (.step quietMoment)))
      (sharing.take { settings := {} } (.move (.step quietMoment))) :=
    ⟨nofun, nofun, nofun, nofun, nofun, nofun, nofun, nofun⟩
  obtain ⟨s, a, hs, hc, hcall, hstays⟩ := hcall
  have hlen : sharing.machine.run.stack.length < ({} : Settings).maxCallDepth := by decide
  have hj : ∀ j ∈ List.replicate 7 (Input.move (.step quietMoment)), ¬ j.IsWrite := by
    intro j hj
    rw [List.eq_of_mem_replicate hj]
    exact id
  obtain ⟨hscope, hy, hz⟩ := inline_call { settings := {} } "" _ _ _ _ _ _ _ quietMoment s a binding []
    hs hc hcall hlen
  exact ⟨s, a, hs, hc, hcall, hlen, hj, hstays, hgrants, hscope, hy, hz hj hstays hgrants⟩

end Execution

end Workflow
