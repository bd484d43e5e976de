import Workflow.Proofs.Run.Guise
import Workflow.Proofs.Run.Roam
import Workflow.Proofs.Run.Stance
import Workflow.Proofs.Scope.Padding
/-!
A call in the scope of its caller, taken back. The run of the called flow goes on in a frame of its own
and in front of a layer of its own; taken back, it goes on in the caller's frame and without that layer.
What is written by then lands in the same layers, and what is read is read from the same ones.
-/

namespace Workflow

/-- A value that counts something from zero on, counted from one on. -/
def Value.less : Value → Value
  | .int n => .int (n - 1)
  | v => v

@[simp] theorem Value.less_nat {n : Nat} (h : 1 ≤ n) : (Value.nat n).less = .nat (n - 1) := by
  show Value.int (n - 1) = .int ((n - 1 : Nat) : Int)
  rw [Int.ofNat_sub h]
  rfl

/-- The payload of an event that happens in the call. -/
def Effect.backPayload (payload : Entries Value) : Entries Value :=
  payload.map fun (name, v) => (name, if name = "depth" then v.less else v)

def Effect.back : Effect → Effect
  | .emit type payload view => .emit type (backPayload payload) { view with frames := view.frames - 1 }
  | e => e

/-- A call in the scope of its caller, with what there was when it began. -/
structure Descent where
  /-- The call's own layer. -/
  layer : Nat
  /-- The layers of the caller's scope. -/
  behind : List Nat
  behind_ne : behind ≠ []
  behind_lt : ∀ i ∈ behind, i < layer
  /-- The number of steps that had been traced. -/
  traced : Nat
  /-- The number of tasks. -/
  tasks : Nat
  walker : TaskId
  walker_lt : walker < tasks
  /-- The number of effects that had been noted. -/
  logged : Nat
  /-- The work that waits for the end of the call. -/
  base : List Pending
  framed : frameKeys base ≠ []

namespace Descent

/-- The number of frames that there were. -/
def frames (d : Descent) : Nat :=
  (frameKeys d.base).length

theorem frames_pos (d : Descent) : 0 < d.frames :=
  List.length_pos_iff.mpr d.framed

/-! What was made after the call, taken back. -/

section back

variable (d : Descent)

def layers (ls : List Nat) : List Nat :=
  ls.erase d.layer

/-- Places in front of the call's layer are one level deeper than without the call. -/
def place (q : Place) : Place :=
  if d.layer ∈ q.layers then { q with layers := d.layers q.layers, depth := q.depth - 1 } else q

def attempt (a : Attempt) : Attempt := { a with place := d.place a.place }

def call (c : Call) : Call := { c with place := d.place c.place }

def walk (w : Walk) : Walk := { w with place := d.place w.place }

def loop (l : Loop) : Loop := { l with place := d.place l.place }

def collection (c : Collection) : Collection := { c with loop := d.loop c.loop }

def pending : Pending → Pending
  | .checkpoint w node => .checkpoint (d.walk w) node
  | .visit w node => .visit (d.walk w) node
  | .attempt a since => .attempt (d.attempt a) since
  | .backoff a => .backoff (d.attempt a)
  | .primitive a => .primitive (d.attempt a)
  | .foreach l itemName indexName index rest => .foreach (d.loop l) itemName indexName index rest
  | .while l bound iterations => .while (d.loop l) bound iterations
  | .element c acts item => .element (d.collection c) acts item
  | .elements c => .elements (d.collection c)
  | .invocation q node child returns =>
    .invocation (d.place q) node (if d.layer ∈ q.layers then d.layers child else child) returns
  | k => k

def work (p : List Pending) : List Pending :=
  p.map d.pending

def wait : Wait → Wait
  | .settlement a handler watcher => .settlement (d.attempt a) handler watcher
  | w => w

def control : Control → Control
  | .enter q frame => .enter (d.place q) frame
  | .next w node => .next (d.walk w) node
  | .dispatch w node => .dispatch (d.walk w) node
  | .try a => .try (d.attempt a)
  | .iterate l bound iterations => .iterate (d.loop l) bound iterations
  | .supply c => .supply (d.collection c)
  | .element c acts item => .element (d.collection c) acts item
  | .handle c => .handle (d.call c)
  | .wake w signalled interrupted => .wake (d.wait w) signalled interrupted
  | c => c

def turn : Turn → Turn
  | .go c p => .go (d.control c) (d.work p)
  | .wait w on limit p => .wait (d.wait w) on limit (d.work p)
  | .pass p => .pass (d.work p)
  | .stop a => .stop a

/-- Whether a task was there before the call and has no part in it. -/
def spares (t : TaskId) : Bool :=
  t < d.tasks && t != d.walker

def workOf (t : TaskId) (p : List Pending) : List Pending :=
  if d.spares t then p else d.work p

def waitOf (t : TaskId) : Wait → Wait
  | .settlement a handler watcher =>
    .settlement (if d.spares t then a else d.attempt a) handler watcher
  | w => w

def controlOf (t : TaskId) (c : Control) : Control :=
  if d.spares t then c else d.control c

def turnOf (t : TaskId) : Turn → Turn
  | .go c p => .go (d.controlOf t c) (d.workOf t p)
  | .wait w on limit p => .wait (d.waitOf t w) on limit (d.workOf t p)
  | .pass p => .pass (d.workOf t p)
  | .stop a => .stop a

def stateOf (t : TaskId) : TaskState → TaskState
  | .fresh c interrupted => .fresh (d.controlOf t c) interrupted
  | .running => .running
  | .waiting w ticket => .waiting (d.waitOf t w) ticket
  | .woken w signalled interrupted => .woken (d.waitOf t w) signalled interrupted
  | .ended a => .ended a

def task (t : TaskId) (k : Task) : Task :=
  { k with state := d.stateOf t k.state, pending := d.workOf t k.pending }

def strand (s : Strand) : Strand where
  task := s.task
  control := d.controlOf s.task s.control
  pending := d.workOf s.task s.pending

def frame (f : Frame) : Frame := { f with layers := d.layers f.layers }

/-- The stack without the frame of the call. -/
def stack (s : List Frame) : List Frame :=
  s.take d.frames ++ (s.drop (d.frames + 1)).map d.frame

def entry (i : Nat) (e : TraceEntry) : TraceEntry :=
  if i < d.traced then e else { e with depth := e.depth - 1 }

/-- Effects are noted in front of older ones. -/
def log (es : List Effect) : List Effect :=
  (es.take (es.length - d.logged)).map Effect.back ++ es.drop (es.length - d.logged)

def machine (m : Machine) : Machine := { m with
  run := { m.run with stack := d.stack m.run.stack, trace := m.run.trace.mapIdx d.entry }
  tasks := m.tasks.mapIdx d.task
  effects := m.effects.map .back }

def execution (x : Execution) : Execution where
  machine := d.machine x.machine
  active := x.active.map d.strand
  log := d.log x.log

end back

/-! The part of a run that belongs to the call. -/

/-- Layers in front of the call's own. -/
def Fronts (d : Descent) (ls : List Nat) : Prop :=
  ∃ near, ls = near ++ d.layer :: d.behind ∧ d.layer ∉ near

theorem fronts_self (d : Descent) : d.Fronts (d.layer :: d.behind) :=
  ⟨[], rfl, by simp⟩

theorem layers_self (d : Descent) : d.layers (d.layer :: d.behind) = d.behind :=
  List.erase_cons_head ..

/-- A place where a node of the called flow is carried out, or of one that is called there. -/
structure Deep (d : Descent) (q : Place) : Prop where
  fronts : d.Fronts q.layers
  depth : 1 ≤ q.depth

/-- What the walker does next is a part of the call. -/
def Does (d : Descent) : Control → Prop
  | .enter q _ => d.Fronts q.layers
  | .next w _ | .dispatch w _ => d.Deep w.place
  | .try a => d.Deep a.place
  | .iterate l _ _ => d.Deep l.place
  | .supply c | .element c _ _ => d.Deep c.loop.place
  | .wake _ _ _ | .answer _ => True
  | _ => False

/-- The work that waits is a part of the call. -/
def Awaits (d : Descent) : Pending → Prop
  | .checkpoint w _ | .visit w _ => d.Deep w.place
  | .attempt a _ | .backoff a | .primitive a => d.Deep a.place
  | .foreach l _ _ _ _ | .while l _ _ => d.Deep l.place
  | .element c _ _ | .elements c => d.Deep c.loop.place
  | .invocation q _ child _ => d.Deep q ∧ d.Fronts child
  | .frame _ _ _ => True
  | _ => False

/-- Work of the call, above the work that waits for its end. -/
def Works (d : Descent) (p : List Pending) : Prop :=
  ∃ ks, p = ks ++ d.base ∧ ∀ k ∈ ks, d.Awaits k

/-- The walker goes on with the call. -/
def Keeps (d : Descent) : Turn → Prop
  | .go c p => d.Does c ∧ d.Works p
  | .wait _ _ _ p | .pass p => d.Works p
  | .stop _ => False

/-- A machine in which the call goes on. -/
structure Lasts (d : Descent) (m : Machine) : Prop where
  hollow : m.layers[d.layer]? = some Scope.hollow
  stack : d.frames < m.run.stack.length
  traced : d.traced ≤ m.run.trace.size
  /-- Whatever is carried out in the call is carried out at some depth. -/
  deeper : ∀ i e, d.traced ≤ i → m.run.trace[i]? = some e → 1 ≤ e.depth
  tasks : d.tasks ≤ m.tasks.size

variable {d : Descent} {m n : Machine} {q : Place} {ls : List Nat} {k : Pending} {p : List Pending}
  {t u : TaskId}

theorem Works.cons (hk : d.Awaits k) (h : d.Works p) : d.Works (k :: p) := by
  obtain ⟨ks, rfl, hks⟩ := h
  exact ⟨k :: ks, rfl, List.forall_mem_cons.mpr ⟨hk, hks⟩⟩

/-! Layers and places. -/

theorem behind_not_mem (d : Descent) : d.layer ∉ d.behind :=
  fun h => Nat.lt_irrefl _ (d.behind_lt _ h)

theorem Fronts.mem (h : d.Fronts ls) : d.layer ∈ ls := by
  obtain ⟨near, rfl, -⟩ := h
  simp

theorem layers_append {near : List Nat} (h : d.layer ∉ near) :
    d.layers (near ++ d.layer :: d.behind) = near ++ d.behind := by
  rw [layers, List.erase_append_right _ h, List.erase_cons_head]

theorem place_eq (h : d.Fronts q.layers) :
    d.place q = { q with layers := d.layers q.layers, depth := q.depth - 1 } :=
  if_pos h.mem

@[simp] theorem place_flow (d : Descent) (q : Place) : (d.place q).flow = q.flow := by
  unfold place
  split <;> rfl

@[simp] theorem attempt_place (d : Descent) (a : Attempt) : (d.attempt a).place = d.place a.place := rfl
@[simp] theorem attempt_node (d : Descent) (a : Attempt) : (d.attempt a).node = a.node := rfl
@[simp] theorem attempt_policy (d : Descent) (a : Attempt) : (d.attempt a).policy = a.policy := rfl
@[simp] theorem attempt_number (d : Descent) (a : Attempt) : (d.attempt a).number = a.number := rfl
@[simp] theorem walk_place (d : Descent) (w : Walk) : (d.walk w).place = d.place w.place := rfl
@[simp] theorem walk_frame (d : Descent) (w : Walk) : (d.walk w).frame = w.frame := rfl
@[simp] theorem loop_place (d : Descent) (l : Loop) : (d.loop l).place = d.place l.place := rfl

theorem place_layers (h : d.Fronts q.layers) : (d.place q).layers = d.layers q.layers := by
  rw [place_eq h]

theorem place_depth (h : d.Fronts q.layers) : (d.place q).depth = q.depth - 1 := by
  rw [place_eq h]

/-- A new layer comes in front. -/
theorem Fronts.push (h : d.Fronts ls) {i : Nat} (hi : d.layer ≠ i) : d.Fronts (i :: ls) := by
  obtain ⟨near, rfl, hn⟩ := h
  exact ⟨i :: near, rfl, by simp [hi, hn]⟩

theorem layers_push {i : Nat} (hi : d.layer ≠ i) : d.layers (i :: ls) = i :: d.layers ls := by
  rw [layers, List.erase_cons_tail (by simpa using hi.symm)]
  rfl

theorem Lasts.layer_lt (h : d.Lasts m) : d.layer < m.layers.size :=
  (Array.getElem?_eq_some_iff.mp h.hollow).1

theorem scope_behind_ne (d : Descent) (m : Machine) : m.scope d.behind ≠ [] := by
  simpa [Machine.scope] using d.behind_ne

/-- Taken back, a scope lacks nothing but the hollow layer of the call. -/
theorem scope_pads (near : List Nat) (h : d.Lasts m) :
    Scope.Pads near.length (m.scope (near ++ d.behind)) (m.scope (near ++ d.layer :: d.behind)) :=
  ⟨m.scope near, m.scope d.behind, by simp [Machine.scope], d.scope_behind_ne m,
    by simp [Machine.scope], by simp [Machine.scope, h.hollow]⟩

theorem scope_front (h : d.Lasts m) (hl : d.Fronts ls) :
    ∃ n, Scope.Pads n (m.scope (d.layers ls)) (m.scope ls) := by
  obtain ⟨near, rfl, hn⟩ := hl
  exact ⟨near.length, layers_append hn ▸ scope_pads near h⟩

theorem vars_eq (h : d.Lasts m) (hl : d.Fronts ls) : m.vars (d.layers ls) = m.vars ls := by
  obtain ⟨n, hp⟩ := scope_front h hl
  exact hp.vars_eq.symm

theorem snapshot_eq (h : d.Lasts m) (hl : d.Fronts ls) :
    (m.scope (d.layers ls)).snapshot = (m.scope ls).snapshot := by
  obtain ⟨n, hp⟩ := scope_front h hl
  exact hp.snapshot_eq.symm

theorem find?_eq (h : d.Lasts m) (hl : d.Fronts ls) (key : String) :
    Scope.find? key (m.scope (d.layers ls)) = Scope.find? key (m.scope ls) := by
  obtain ⟨n, hp⟩ := scope_front h hl
  exact (hp.find?_eq key).symm

theorem setIfInBounds_self {α : Type} {a : Array α} {i : Nat} {v : α} (h : a[i]? = some v) :
    a.setIfInBounds i v = a := by
  ext j hj hj'
  · simp
  · rw [Array.getElem_setIfInBounds]
    split
    · rename_i hij
      subst hij
      rw [Array.getElem?_eq_getElem hj'] at h
      exact (Option.some.inj h).symm
    · rfl

/-- A padded scope is written back to the same layers as the scope without the hollow layer. -/
theorem putScope_eq {near : List Nat} (h : d.Lasts m) (hn : d.layer ∉ near) {s s' : Scope}
    (hs : Scope.Pads near.length s s') :
    m.putScope (near ++ d.behind) s = m.putScope (near ++ d.layer :: d.behind) s' ∧
      (m.putScope (near ++ d.layer :: d.behind) s').layers[d.layer]? = some Scope.hollow := by
  obtain ⟨front, rest, hlen, -, rfl, rfl⟩ := hs
  have hkept : (m.putScope near front).layers[d.layer]? = some Scope.hollow :=
    Machine.getElem?_putAll (Q := (· = some Scope.hollow)) _ _ h.hollow
      fun l hl _ => absurd (List.of_mem_zip hl).1 hn
  have hput : (m.putScope near front).putScope (d.layer :: d.behind) (Scope.hollow :: rest) =
      (m.putScope near front).putScope d.behind rest := by
    generalize m.putScope near front = n at hkept
    show ({ n with layers := n.layers.setIfInBounds d.layer Scope.hollow } : Machine).putScope _ _ = _
    rw [setIfInBounds_self hkept]
  rw [Machine.putScope_append _ hlen.symm, Machine.putScope_append _ hlen.symm, hput]
  exact ⟨rfl, Machine.getElem?_putAll (Q := (· = some Scope.hollow)) _ _ hkept
    fun l hl _ => absurd (List.of_mem_zip hl).1 d.behind_not_mem⟩

/-! Machines. -/

section machine

theorem Lasts.of_eq (h : d.Lasts m) (hl : n.layers = m.layers) (hs : n.run.stack = m.run.stack)
    (ht : n.run.trace = m.run.trace) (hn : m.tasks.size ≤ n.tasks.size) : d.Lasts n where
  hollow := hl ▸ h.hollow
  stack := hs ▸ h.stack
  traced := ht ▸ h.traced
  deeper := ht ▸ h.deeper
  tasks := Nat.le_trans h.tasks hn

theorem Lasts.of_run (h : d.Lasts m) {n : Machine} (hl : n.layers = m.layers) (hr : n.run = m.run)
    (hn : m.tasks.size ≤ n.tasks.size) : d.Lasts n :=
  h.of_eq hl (by rw [hr]) (by rw [hr]) hn

theorem stack_append {s : List Frame} (h : d.frames < s.length) (f : Frame) :
    d.stack (s ++ [f]) = d.stack s ++ [d.frame f] := by
  rw [stack, stack, List.take_append_of_le_length (Nat.le_of_lt h),
    List.drop_append_of_le_length h, List.map_append, List.append_assoc]
  rfl

theorem length_stack {s : List Frame} (h : d.frames < s.length) :
    (d.stack s).length = s.length - 1 := by
  simp only [stack, List.length_append, List.length_take, List.length_map, List.length_drop]
  omega

theorem machine_view (h : d.Lasts m) :
    (d.machine m).view = { m.view with frames := m.view.frames - 1 } := by
  show ({ m.view with frames := (d.stack m.run.stack).length } : RunView) = _
  rw [length_stack h.stack]
  rfl

/-- An event tells of one frame less, and of a depth that is one less if it tells of any. -/
theorem emit_eq (h : d.Lasts m) (type : String) {payload payload' : Entries Value}
    (hp : payload' = Effect.backPayload payload) :
    (d.machine m).emit type payload' = d.machine (m.emit type payload) := by
  unfold Machine.emit
  rw [machine_view h, hp]
  rfl

theorem Lasts.emit (h : d.Lasts m) (type : String) (payload : Entries Value) :
    d.Lasts (m.emit type payload) :=
  h.of_eq rfl rfl rfl (Nat.le_refl _)

theorem Lasts.effect (h : d.Lasts m) (e : Effect) : d.Lasts (m.effect e) :=
  h.of_eq rfl rfl rfl (Nat.le_refl _)

theorem trace_eq (h : d.Lasts m) (env : Surroundings) {e f : TraceEntry}
    (he : f = { e with depth := e.depth - 1 }) :
    (d.machine m).trace env f = d.machine (m.trace env e) := by
  subst he
  unfold Machine.trace machine
  rw [Array.mapIdx_push, entry, if_neg (Nat.not_lt.mpr h.traced)]

theorem Lasts.trace (h : d.Lasts m) (env : Surroundings) {e : TraceEntry} (he : 1 ≤ e.depth) :
    d.Lasts (m.trace env e) where
  hollow := h.hollow
  stack := h.stack
  traced := by
    show d.traced ≤ (m.run.trace.push _).size
    rw [Array.size_push]
    exact Nat.le_succ_of_le h.traced
  deeper i f hi hf := by
    have hf : (m.run.trace.push { e with time := env.stamp })[i]? = some f := hf
    rw [Array.getElem?_push] at hf
    split at hf
    · cases hf
      exact he
    · exact h.deeper i f hi hf
  tasks := h.tasks

/-! Tasks. -/

theorem spares_new (h : d.Lasts m) : d.spares m.tasks.size = false := by
  simp [spares, Nat.not_lt.mpr h.tasks]

theorem spares_walker (d : Descent) : d.spares d.walker = false := by
  simp [spares]

section

variable (h : d.spares t = false)

include h

theorem workOf_eq (p : List Pending) : d.workOf t p = d.work p := by
  simp [workOf, h]

theorem controlOf_eq (c : Control) : d.controlOf t c = d.control c := by
  simp [controlOf, h]

theorem waitOf_eq (w : Wait) : d.waitOf t w = d.wait w := by
  cases w <;> simp [waitOf, wait, h]

theorem turnOf_eq (x : Turn) : d.turnOf t x = d.turn x := by
  cases x <;> simp [turnOf, turn, workOf_eq h, controlOf_eq h, waitOf_eq h]

end

theorem controlOf_wake (d : Descent) (t : TaskId) (w : Wait) (signalled interrupted : Bool) :
    d.controlOf t (.wake w signalled interrupted) = .wake (d.waitOf t w) signalled interrupted := by
  cases ht : d.spares t with
  | true => cases w <;> simp [controlOf, waitOf, ht]
  | false =>
    rw [controlOf_eq ht, waitOf_eq ht]
    rfl

theorem tells_back (t : TaskId) (ticket : Nat) (e : Effect) : e.back.tells t ticket = e.tells t ticket := by
  cases e <;> rfl

theorem tells_log (d : Descent) (es : List Effect) (t : TaskId) (ticket : Nat) :
    (d.log es).any (Effect.tells t ticket) = es.any (Effect.tells t ticket) := by
  have hback : Effect.tells t ticket ∘ Effect.back = Effect.tells t ticket := funext (tells_back t ticket)
  unfold log
  rw [List.any_append, List.any_map, hback, ← List.any_append, List.take_append_drop]

/-- A run with the call taken back is the run in another guise. -/
def guise (d : Descent) : Guise where
  run r := { r with stack := d.stack r.stack, trace := r.trace.mapIdx d.entry }
  attempt t a := if d.spares t then a else d.attempt a
  control := d.controlOf
  work := d.workOf
  effect := .back
  log := d.log
  work_nil t := by simp [workOf, work]
  control_wake := d.controlOf_wake
  effect_plain e h := by
    cases e with
    | emit => exact h.elim
    | _ => rfl
  tells_log := d.tells_log

theorem state?_machine (d : Descent) (m : Machine) (t : TaskId) :
    (d.machine m).state? t = (m.state? t).map (d.stateOf t) :=
  d.guise.state?_machine m t

theorem ending?_machine (d : Descent) (m : Machine) (t : TaskId) :
    (d.machine m).ending? t = m.ending? t :=
  d.guise.ending?_machine m t

theorem hasEnded_machine (d : Descent) (m : Machine) (t : TaskId) :
    (d.machine m).hasEnded t = m.hasEnded t :=
  d.guise.hasEnded_machine m t

theorem interruptTask_machine (m : Machine) (t : TaskId) :
    (d.machine m).interruptTask t = d.machine (m.interruptTask t) :=
  d.guise.interruptTask_machine m t

theorem spawn_machine (h : d.Lasts m) (c : Control) :
    (d.machine m).spawn (d.control c) [] = (d.machine (m.spawn c []).1, (m.spawn c []).2) := by
  have hs := d.guise.spawn_machine m c []
  rw [d.guise.work_nil] at hs
  rw [← controlOf_eq (spares_new h)]
  exact hs

theorem Lasts.spawn (h : d.Lasts m) (c : Control) : d.Lasts (m.spawn c []).1 :=
  h.of_eq rfl rfl rfl (Machine.Tends.spawn m c).size

theorem cancelToken_machine (m : Machine) (reason : Option String) :
    (d.machine m).cancelToken reason = d.machine (m.cancelToken reason) :=
  d.guise.cancelToken_machine m reason

theorem endPause_machine (m : Machine) : (d.machine m).endPause = d.machine m.endPause :=
  d.guise.endPause_machine m

theorem size_turn (m : Machine) (t : TaskId) (x : Turn) :
    (m.turn t x).1.tasks.size = m.tasks.size := by
  cases x with
  | go c p => rfl
  | wait w on limit p =>
    have hs : (m.turn t (.wait w on limit p)).1.tasks =
        ((m.modifyTask t ({ · with pending := p })).suspend t w on).1.tasks := by
      cases limit <;> rfl
    rw [hs, Machine.size_suspend, Machine.tasks_modifyTask, Array.size_modify]
  | pass p => exact Array.size_modify
  | stop a => exact (congrArg Array.size (Machine.tasks_finish a)).trans Array.size_modify

theorem turn_lasts (h : d.Lasts m) (t : TaskId) (x : Turn) : d.Lasts (m.turn t x).1 := by
  have hc := Machine.turn_core m t x
  exact h.of_eq (congrArg Machine.layers hc :) (congrArg (·.run.stack) hc :)
    (congrArg (·.run.trace) hc :) (Nat.le_of_eq (size_turn m t x).symm)

end machine

end Descent

end Workflow
