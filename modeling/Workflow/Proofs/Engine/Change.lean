import Mathlib.Logic.Relation
import Workflow.Proofs.Clock.Timers
import Workflow.Proofs.Debug.Transparency
import Workflow.Proofs.Engine.Deed
import Workflow.Proofs.Value.Fallible
/-!
What deeds do to an engine. Every deed is made of changes of a few kinds: a run moves on or obeys a
command, a run is made or let go of, the debugger takes note of something, and the rest leaves runs,
events, slots and sessions alone.
-/

namespace Workflow

namespace Engine

variable {d : Deed} {e e' e'' : Engine} {k : MachineId}

/-- Whether a task is going to be told of something. -/
def Pends (e : Engine) (a : Alarm) : Prop :=
  .tell a ∈ e.round ∨ .tell a ∈ e.later ∨ ∃ t ∈ e.timers, t.target = a

/-- Whether a client is going to be told that the run it waits for has ended. -/
def Serves (e : Engine) (c : Client) : Prop :=
  ∃ n, .client c n ∈ e.round ∨ .client c n ∈ e.later

/-- Nothing has changed that runs, their events, their slots or their debugger sessions depend on, unless
handlers or flows are what the deed is about. -/
structure Aside (d : Deed) (e e' : Engine) : Prop where
  settings : e'.settings = e.settings
  provider : e'.provider = e.provider
  registry : (∀ r, d ≠ .setHandlers r) → e'.registry = e.registry
  flows : (∀ f b, d ≠ .keepFlow f b) → (∀ id, d ≠ .deleteFlow id) → e'.flows = e.flows
  machines : e'.machines = e.machines
  runs : e'.runs = e.runs
  stored : e'.stored = e.stored
  bus : e'.bus = e.bus
  debugger : e'.debugger = e.debugger
  slots : e'.slots = e.slots
  active : e'.active = e.active
  emitted : e'.emitted = e.emitted
  pends : ∀ a, e'.Pends a → e.Pends a
  serves : ∀ c, e'.Serves c → e.Serves c

end Engine

/-- Whether a deed may let go of a run: a client discards it, or has waited for the end of one that it
discards. -/
def Deed.LetsGo (e : Engine) (run : String) : Deed → Prop
  | .step => ∃ c, e.Serves c ∧ c.after = .discard run
  | .discard id => id = run
  | _ => False

namespace Engine

variable {d : Deed} {e e' e'' : Engine} {k : MachineId}

/-- A part of what a deed does. -/
inductive Change (d : Deed) : Engine → Engine → Prop
  | aside {e e' : Engine} (h : Aside d e e') : Change d e e'
  /-- The task in the middle of its steps takes the next one. -/
  | turn {e : Engine} {a : Activity} (ha : e.active = some a) : Change d e (e.stepActive a)
  | begin {e : Engine} {k : MachineId} {t : TaskId} {rest : List Job} (ha : e.active = none)
      (hr : e.round = .step k t :: rest) : Change d e ({ e with round := rest }.begin k t)
  | tell {e : Engine} {a : Alarm} {rest : List Job} (ha : e.active = none)
      (hr : e.round = .tell a :: rest) :
      Change d e ({ e with round := rest }.onMachine a.machine (·.tell a.task a.ticket))
  | command {e : Engine} {k : MachineId} (c : Command) (ha : e.active = none) (hk : d.Gives e k c)
      (hs : ∀ s, c = .start s → s = !(e.machine k).standalone) :
      Change d e (e.onMachine k fun m => (m.obey c).1)
  | interrupt {e : Engine} {k : MachineId} {run : String} (ha : e.active = none)
      (hd : d = .cancelTask run) (hk : Entries.find? run e.runs = some k) :
      Change d e (e.onMachine k Machine.interruptMain)
  | release (e : Engine) (run : String) (h : d.LetsGo e run) : Change d e (e.release run)
  | make {e : Engine} (hd : d.Makes) (id : String) (f : Flow) (vars : Entries Value) (breakpoints : Breakpoints)
      (pauses : Bool) (hf : Entries.contains id e.runs = false) :
      Change d e (e.addMachine (.create id f vars breakpoints pauses e.stamp)).1
  | makeStandalone {e : Engine} (hd : d.Makes) (id : String) (f : Flow) (vars : Entries Value)
      (breakpoints : Breakpoints) (pauses : Bool) :
      Change d e (e.addMachine
        { Machine.create id f vars breakpoints pauses e.stamp with standalone := true }).1
  | attach {e : Engine} {given : Value} {k : MachineId} (hd : d = .debug given)
      (ho : Debugger.opOf given = "attach")
      (hk : Entries.find? (given.field "runId").name e.runs = some k) :
      Change d e (Debugger.tellState (given.field "runId").name
        (Debugger.openSession (given.field "runId").name k e))
  | detach {e : Engine} {given : Value} (hd : d = .debug given) (ho : Debugger.opOf given = "detach") :
      Change d e (Debugger.dropRetired (given.field "runId").name
        (Debugger.tellState (given.field "runId").name
          (Debugger.closeSession (given.field "runId").name e)))
  | observers {e : Engine} (ofRun : Entries (List Observer)) (ofAll : List Observer) (next : Nat) :
      Change d e { e with debugger := { e.debugger with ofRun, ofAll, nextObserver := next } }
  | close {e : Engine} (hd : d = .closeDebugger) : Change d e e.closeDebugger

/-- What some changes make of an engine, one after the other. -/
abbrev Changes (d : Deed) : Engine → Engine → Prop :=
  Relation.ReflTransGen (Change d)

theorem Change.one (h : Change d e e') : Changes d e e' :=
  .single h

theorem Aside.change (h : Aside d e e') : Changes d e e' :=
  .single (.aside h)

theorem Aside.refl (e : Engine) : Aside d e e :=
  ⟨rfl, rfl, fun _ => rfl, fun _ _ => rfl, rfl, rfl, rfl, rfl, rfl, rfl, rfl, rfl, fun _ h => h,
    fun _ h => h⟩

/-! Steps. -/

theorem nextRound_aside (h : e.nextRound = some e') : Aside d e e' := by
  unfold nextRound at h
  dsimp only at h
  split at h
  · cases h
  · cases h
    refine ⟨rfl, rfl, fun _ => rfl, fun _ _ => rfl, rfl, rfl, rfl, rfl, rfl, rfl, rfl, rfl, ?_, ?_⟩
    have held {t : Timer Alarm} {fuel : Nat}
        (ht : t ∈ (e.timers.tidy.takeDue (e.now + resolution) fuel).1 ∨
          t ∈ (e.timers.tidy.takeDue (e.now + resolution) fuel).2) : e.Pends t.target :=
      .inr (.inr ⟨t, Timers.mem_tidy (Timers.mem_takeDue ht), rfl⟩)
    rintro a (ha | ha | ⟨t, ht, rfl⟩)
    · simp only [List.mem_append, List.mem_reverse, List.mem_map, List.mem_filter] at ha
      rcases ha with ha | ⟨t, ⟨ht, -⟩, hta⟩
      · exact .inr (.inl ha)
      · cases hta
        exact held (.inl ht)
    · cases ha
    · exact held (.inr ht)
    · rintro c ⟨n, hc | hc⟩
      · refine ⟨n, .inr ?_⟩
        simpa using hc
      · cases hc

/-- A run is let go of whatever else is to be done in the round. -/
theorem release_popped (e : Engine) (run : String) (round : List Job) (served : List Nat) :
    ({ e with round, served } : Engine).release run = { e.release run with round, served } := by
  have told (ls : List Listener) (e : Engine) :
      ls.foldl (fun e (_ : Listener) => { e with debugger := e.debugger.forget run })
          { e with round, served } =
        { ls.foldl (fun e (_ : Listener) => { e with debugger := e.debugger.forget run }) e with
          round, served } := by
    induction ls generalizing e with
    | nil => rfl
    | cons l ls ih => exact ih { e with debugger := e.debugger.forget run }
  exact told _ { e with
    runs := Entries.erase run e.runs, stored := Entries.erase run e.stored, bus := (e.bus.forget run).1 }

/-- A client is served that has waited. -/
theorem serve_changes {c : Client} {rest : List Job} (hr : e.round = .client c 0 :: rest) :
    Changes .step e ({ e with round := rest }.serve c) := by
  have popped (e : Engine) (hr : e.round = .client c 0 :: rest) (ns : List Nat) :
      Aside .step e { e with round := rest, served := ns } := by
    refine ⟨rfl, rfl, fun _ => rfl, fun _ _ => rfl, rfl, rfl, rfl, rfl, rfl, rfl, rfl, rfl, ?_, ?_⟩
    · rintro a (ha | ha)
      · exact .inl (hr ▸ List.mem_cons_of_mem _ ha)
      · exact .inr ha
    · rintro c ⟨n, hc | hc⟩
      · exact ⟨n, .inl (hr ▸ List.mem_cons_of_mem _ hc)⟩
      · exact ⟨n, .inr hc⟩
  unfold serve
  dsimp only
  split
  · exact (popped e hr _).change
  · rename_i run hc
    have hgo : Deed.LetsGo e run .step := ⟨c, ⟨0, .inl (hr ▸ List.mem_cons_self)⟩, hc⟩
    rw [release_popped e run rest (c.number :: e.served)]
    have hround : (e.release run).round = e.round :=
      (congrArg Engine.round (release_popped e run e.round e.served) :)
    exact (Change.one (.release e run hgo)).tail (.aside (popped _ (hround.trans hr) _))

theorem step_changes (h : e.step = some e') : Changes .step e e' := by
  have tick : Aside .step e { e with stamp := e.stamp + 1 } :=
    ⟨rfl, rfl, fun _ => rfl, fun _ _ => rfl, rfl, rfl, rfl, rfl, rfl, rfl, rfl, rfl, fun _ h => h,
    fun _ h => h⟩
  unfold step at h
  dsimp only at h
  split at h
  · rename_i a ha
    cases h
    exact tick.change.tail (.turn ha)
  · rename_i ha
    split at h
    · rename_i j rest hr
      cases h
      cases j with
      | step k t => exact tick.change.tail (.begin ha hr)
      | tell a => exact tick.change.tail (.tell ha hr)
      | client c n =>
        cases n with
        | zero => exact tick.change.trans (serve_changes (e := { e with stamp := e.stamp + 1 }) hr)
        | succ n =>
          refine tick.change.tail (.aside ?_)
          refine ⟨rfl, rfl, fun _ => rfl, fun _ _ => rfl, rfl, rfl, rfl, rfl, rfl, rfl, rfl, rfl, ?_, ?_⟩
          · rintro a (ha | ha | ha)
            · exact .inl (hr ▸ List.mem_cons_of_mem _ ha)
            · exact .inr (.inl ((List.mem_cons.mp ha).resolve_left (by simp)))
            · exact .inr (.inr ha)
          · rintro c' ⟨i, hc | hc⟩
            · exact ⟨i, .inl (hr ▸ List.mem_cons_of_mem _ hc)⟩
            · rcases List.mem_cons.mp hc with hc | hc
              · cases hc
                exact ⟨n + 1, .inl (hr ▸ List.mem_cons_self)⟩
              · exact ⟨i, .inr hc⟩
    · exact tick.change.tail (.aside (nextRound_aside h))

/-! What clients ask for. -/

theorem Aside.freshId (e : Engine) (id : Option String) : Aside d e (e.freshId id).1 := by
  unfold Engine.freshId
  split
  · exact .refl e
  · exact ⟨rfl, rfl, fun _ => rfl, fun _ _ => rfl, rfl, rfl, rfl, rfl, rfl, rfl, rfl, rfl, fun _ h => h,
    fun _ h => h⟩

theorem createFrom_changes (hd : d.Makes) {f : Flow} {r : RunRequest} (h : e.createFrom f r = .ok (e', k)) :
    Changes d e e' := by
  unfold createFrom at h
  dsimp only at h
  split at h
  · cases h
  · rename_i hf
    cases h
    exact (Aside.freshId e r.id).change.tail
      (.make hd _ _ _ _ _ (Bool.or_eq_false_iff.mp (Bool.eq_false_iff.mpr hf)).1)

theorem cancelMachine_changes (ha : e.active = none) (reason : Option String)
    (hk : d.Gives e k (.cancel reason e.stamp)) : Changes d e (e.cancelMachine k reason).1 := by
  unfold cancelMachine
  rw [Debugger.commandRun_onMachine]
  exact .single (.command (.cancel reason e.stamp) ha hk (by simp))

theorem await_changes (e : Engine) (k : MachineId) {a : AfterEnd}
    (hd : ∀ run, a = .discard run → d = .discard run) : Changes d e (e.await k a).1 := by
  have h (cs : List Client) (n : Nat) (ns : List Nat) :
      Aside d e { e with clients := cs, nextClient := n, served := ns } :=
    ⟨rfl, rfl, fun _ => rfl, fun _ _ => rfl, rfl, rfl, rfl, rfl, rfl, rfl, rfl, rfl, fun _ h => h,
      fun _ h => h⟩
  unfold await
  dsimp only
  split
  · exact (h _ _ _).change
  · unfold serve
    dsimp only
    split
    · exact (h e.clients _ _).change
    · cases hd _ rfl
      exact (h e.clients _ _).change.tail (.release _ _ rfl)

/-! Effects. -/

/-- What carrying out an effect leaves alone. -/
structure Rests (e e' : Engine) : Prop where
  settings : e'.settings = e.settings
  provider : e'.provider = e.provider
  registry : e'.registry = e.registry
  flows : e'.flows = e.flows
  active : e'.active = e.active
  round : e'.round = e.round
  size : e'.machines.size = e.machines.size

theorem Rests.refl (e : Engine) : Rests e e :=
  ⟨rfl, rfl, rfl, rfl, rfl, rfl, rfl⟩

theorem Rests.trans (h : Rests e e') (g : Rests e' e'') : Rests e e'' :=
  ⟨g.settings.trans h.settings, g.provider.trans h.provider, g.registry.trans h.registry,
    g.flows.trans h.flows, g.active.trans h.active, g.round.trans h.round, g.size.trans h.size⟩

theorem Rests.foldl {α : Type} {f : Engine → α → Engine} (hf : ∀ e a, Rests e (f e a))
    (as : List α) (e : Engine) : Rests e (as.foldl f e) := by
  induction as generalizing e with
  | nil => exact .refl e
  | cons a as ih => exact (hf e a).trans (ih _)

theorem emit_rests (e : Engine) (k : MachineId) (type : String) (payload : Entries Value)
    (view : RunView) : Rests e (e.emit k type payload view) := by
  unfold emit
  dsimp only
  refine .trans ?_ (.foldl (fun e (_ : Listener) => ?_) _ _) <;> exact ⟨rfl, rfl, rfl, rfl, rfl, rfl, rfl⟩

theorem forget_rests (e : Engine) (run : String) : Rests e (e.forget run) := by
  unfold forget
  dsimp only
  refine .trans ?_ (.foldl (fun e (_ : Listener) => ?_) _ _) <;> exact ⟨rfl, rfl, rfl, rfl, rfl, rfl, rfl⟩

theorem release_rests (e : Engine) (run : String) : Rests e (e.release run) := by
  refine .trans ?_ (forget_rests _ run)
  exact ⟨rfl, rfl, rfl, rfl, rfl, rfl, rfl⟩

theorem prune_rests (e : Engine) : Rests e e.prune :=
  .foldl (fun e run => release_rests e run) _ e

theorem promiseSlot_rests (e : Engine) : Rests e e.promiseSlot := by
  unfold promiseSlot
  split
  · exact .refl e
  · exact ⟨rfl, rfl, rfl, rfl, rfl, rfl, by simp [queue]⟩

theorem ended_rests (e : Engine) (k : MachineId) (t : TaskId) : Rests e (e.ended k t) := by
  unfold ended
  split
  · refine .trans ?_ (.foldl (fun e (_ : Client) => ?_) _ _) <;>
      exact ⟨rfl, rfl, rfl, rfl, rfl, rfl, rfl⟩
  · exact .refl e

theorem apply_rests (k : MachineId) (e : Engine) (x : Effect) : Rests e (apply k e x) := by
  have plain {e' : Engine} (h : e' = { e with
      later := e'.later, timers := e'.timers, slots := e'.slots }) : Rests e e' := by
    rw [h]
    exact ⟨rfl, rfl, rfl, rfl, rfl, rfl, rfl⟩
  cases x with
  | emit type payload view => exact emit_rests e k type payload view
  | giveSlotBack => exact .trans (plain rfl) (promiseSlot_rests _)
  | passSlotOn =>
    show Rests e (if e.slots.free > 0 then e.promiseSlot else e)
    split
    · exact promiseSlot_rests e
    · exact .refl e
  | note c => cases c <;> exact ⟨rfl, rfl, rfl, rfl, rfl, rfl, rfl⟩
  | prune => exact prune_rests e
  | ended t => exact ended_rests e k t
  | _ => exact plain rfl

theorem settleEffects_rests (e : Engine) (k : MachineId) : Rests e (e.settleEffects k) := by
  refine .trans ?_ (.foldl (apply_rests k) _ _)
  exact ⟨rfl, rfl, rfl, rfl, rfl, rfl, by simp⟩

theorem onMachine_rests (e : Engine) (k : MachineId) (f : Machine → Machine) :
    Rests e (e.onMachine k f) := by
  refine .trans ?_ (settleEffects_rests _ k)
  exact ⟨rfl, rfl, rfl, rfl, rfl, rfl, by simp⟩

theorem shutdown_changes (ha : e.active = none) : Changes .shutdown e e.shutdown := by
  unfold shutdown
  generalize Entries.values e.runs = ks
  induction ks generalizing e with
  | nil => exact .refl
  | cons k ks ih =>
    rw [List.foldl_cons]
    split
    · exact ih ha
    · refine (cancelMachine_changes ha (d := .shutdown) _ rfl).trans (ih ?_)
      unfold cancelMachine
      rw [Debugger.commandRun_onMachine]
      exact (onMachine_rests e k _).active.trans ha

end Engine

namespace Debugger

open Work

/-- What is done to an engine by a command that names a run. -/
inductive Handled (e : Engine) (given : Value) (op run : String) : Engine → Prop
  | nothing : Handled e given op run e
  | attach {k : MachineId} (ho : op = "attach") (hk : Entries.find? run e.runs = some k) :
      Handled e given op run (tellState run (openSession run k e))
  | detach (ho : op = "detach") :
      Handled e given op run (dropRetired run (tellState run (closeSession run e)))
  | steer {k : MachineId} (hk : Entries.find? run e.runs = some k)
      (ha : e.debugger.isAttached run = true) {c : Command} (hc : c.Steers op given)
      (ps : List (Nat × Push)) :
      Handled e given op run { (e.onMachine k fun m => (m.obey c).1) with pushed := ps }

variable {e : Engine} {given : Value} {op run : String} {α β : Type} {f : α → Work β}

/-- What a command does after checks that leave the engine as it is. -/
theorem Handled.after {x : Work α} (hx : Looks x)
    (hf : ∀ a, (x.result e).1 = .ok a → Handled e given op run ((f a).result e).2) :
    Handled e given op run ((x >>= f).result e).2 :=
  hx.leads (P := fun y => Handled e given op run y.2) (fun _ => .nothing) hf

/-- What is done with the run that is held under an id. -/
theorem held_ok {r : Rejection} {k : MachineId} (h : (result (do
      match Entries.find? run (← get).runs with
      | some k => return k
      | none => throw r : Work MachineId) e).1 = .ok k) : Entries.find? run e.runs = some k := by
  have hx : (result (match Entries.find? run e.runs with
      | some k => pure k
      | none => throw r : Work MachineId) e).1 = .ok k := h
  split at hx
  · rename_i hk
    cases hx
    exact hk
  · cases hx

theorem requireRun_ok {k : MachineId} (h : ((requireRun run).result e).1 = .ok k) :
    Entries.find? run e.runs = some k :=
  held_ok h

theorem requireMachine_ok {k : MachineId} (h : ((requireMachine run).result e).1 = .ok k) :
    Entries.find? run e.runs = some k :=
  held_ok h

theorem requireAttached_ok {u : Unit} (h : ((requireAttached run).result e).1 = .ok u) :
    e.debugger.isAttached run = true := by
  by_contra hn
  have hf : e.debugger.isAttached run = false := Bool.eq_false_iff.mpr hn
  obtain ⟨r, hr⟩ := requireAttached_rejected hf
  rw [hr] at h
  cases h

theorem attach_handled : Handled e given "attach" run ((attach run).result e).2 :=
  .after (requireRun_looks run) fun _ hk => .attach rfl (requireRun_ok hk)

theorem detach_handled : Handled e given "detach" run ((detach run).result e).2 := by
  have closing : Handled e given "detach" run ((do
      modify (closeSession run)
      modify (tellState run)
      let state ← stateOf run
      modify (dropRetired run)
      return state : Work Reply).result e).2 := .detach rfl
  refine .after Looks.get fun _ he => ?_
  cases he
  split
  · exact .after (requireRun_looks run) fun _ _ => closing
  · exact closing

theorem control_handled (cmd needs : String) (fits : Status → Bool) {c : Command}
    (hc : c.Steers op given) :
    Handled e given op run ((control run cmd needs fits (·.obey c)).result e).2 := by
  refine .after (requireAttached_looks run) fun _ ha => .after (requireMachine_looks run) fun k hk =>
    .after Looks.get fun _ _ => ?_
  dsimp only
  split
  · exact .nothing
  · simp only [commandRun_onMachine]
    exact .steer (requireMachine_ok hk) (requireAttached_ok ha) hc _

theorem changeBreakpoints_handled (ha : e.debugger.isAttached run = true)
    (ho : op ∈ ["setBreakpoints", "addBreakpoint", "removeBreakpoint"]) (f : Breakpoints → Breakpoints) :
    Handled e given op run ((changeBreakpoints run f).result e).2 :=
  .after (requireRun_looks run) fun _ hk => .steer (c := .edit f) (requireRun_ok hk) ha ho _

theorem setBreakpoints_handled (nodes : Value) :
    Handled e given "setBreakpoints" run ((setBreakpoints run nodes).result e).2 := by
  refine .after (requireAttached_looks run) fun _ ha => ?_
  split
  · exact changeBreakpoints_handled (requireAttached_ok ha) (by decide) _
  · exact .nothing

theorem changeBreakpoint_handled (node : Value)
    (ho : op ∈ ["setBreakpoints", "addBreakpoint", "removeBreakpoint"])
    (f : Breakpoints → String → Breakpoints) :
    Handled e given op run ((changeBreakpoint run node f).result e).2 := by
  refine .after (requireAttached_looks run) fun _ ha => ?_
  dsimp only
  split
  · exact .nothing
  · exact changeBreakpoints_handled (requireAttached_ok ha) ho _

theorem setVar_handled : Handled e given "setVar" run
    ((setVar run (given.field "name") (given.field "value") (given.field "frame")).result e).2 := by
  generalize hn : given.field "name" = name
  generalize hv : given.field "value" = v
  generalize hf : given.field "frame" = frame
  refine .after (requireAttached_looks run) fun _ ha => ?_
  dsimp only
  split
  · exact .nothing
  · refine .after (requireMachine_looks run) fun k hk => .after Looks.get fun _ he => ?_
    cases he
    split
    · exact .nothing
    · split
      · exact .nothing
      · rename_i m hm
        split
        · exact .nothing
        · have hc : (e.onMachine k fun _ => m) = e.onMachine k fun n =>
              (n.obey (.setVar name.name v frame)).1 := by
            rw [← commandRun_onMachine e k (·.obey (.setVar name.name v frame))]
            simp only [Engine.commandRun, Machine.obey, hm]
          show Handled e given "setVar" run (e.onMachine k fun _ => m)
          rw [hc]
          refine .steer (requireMachine_ok hk) (requireAttached_ok ha) ?_ _
          rw [← hn, ← hv, ← hf]
          exact ⟨rfl, rfl, rfl, rfl⟩

theorem command_handled (op run : String) (given : Value) :
    Handled e given op run ((command op run given).result e).2 := by
  have looks {x : Work Reply} (h : Looks x) : Handled e given op run (x.result e).2 := by
    rw [h e]
    exact .nothing
  unfold command
  split
  · exact attach_handled
  · exact detach_handled
  · exact control_handled _ _ _ (c := .pause) rfl
  · exact control_handled _ _ _ (c := .resume) rfl
  · exact control_handled _ _ _ (c := .stepOver) rfl
  · exact setBreakpoints_handled _
  · exact changeBreakpoint_handled _ (by decide) _
  · exact changeBreakpoint_handled _ (by decide) _
  · exact setVar_handled
  · exact looks (getVar_looks run _ _)
  · exact looks ((requireAttached_looks run).bind fun _ => stateOf_looks run)

/-- What a command of a debugger does is attaching, detaching, or a command to the run that it names. -/
theorem handle_handled (e : Engine) (given : Value) :
    Handled e given (opOf given) (given.field "runId").name (handle e given).1 := by
  obtain ⟨r, hr⟩ | ⟨-, r, hr⟩ | hr := handle_cases e given
  · rw [hr]
    exact .nothing
  · rw [hr]
    exact .nothing
  · have hc := command_handled (e := e) (opOf given) (given.field "runId").name given
    rw [hr]
    unfold opOf at hc ⊢
    generalize (command _ _ given).result e = y at hc
    obtain ⟨r | r, e'⟩ := y <;> exact hc

end Debugger

namespace Engine

variable {d : Deed} {e e' : Engine}

theorem find_ok {run : String} (h : e.find run = .ok k) : Entries.find? run e.runs = some k := by
  unfold find at h
  split at h <;> cases h
  assumption

theorem keepFlow_aside {f : Flow} {replace : Bool} (h : e.keepFlow f replace = .ok e') :
    Aside (.keepFlow f replace) e e' := by
  obtain ⟨-, -, h⟩ := bind_ok h
  split at h <;> cases h
  exact ⟨rfl, rfl, fun _ => rfl, fun hn => absurd rfl (hn f replace), rfl, rfl, rfl, rfl, rfl, rfl, rfl,
    rfl, fun _ h => h, fun _ h => h⟩

theorem deleteFlow_aside {id : String} (h : e.deleteFlow id = .ok e') :
    Aside (.deleteFlow id) e e' := by
  unfold deleteFlow at h
  split at h <;> cases h
  exact ⟨rfl, rfl, fun _ => rfl, fun _ hn => absurd rfl (hn id), rfl, rfl, rfl, rfl, rfl, rfl, rfl,
    rfl, fun _ h => h, fun _ h => h⟩

theorem startRun_changes {run : String} (ha : e.active = none) (h : e.startRun run = .ok e')
    (hs : ∀ k, Entries.find? run e.runs = some k → (e.machine k).standalone = false) :
    Changes (.start run) e e' := by
  obtain ⟨k, hk, h⟩ := bind_ok h
  have hk := find_ok hk
  dsimp only at h
  split at h
  · cases h
    exact .refl
  · split at h
    · cases h
    · cases h
      refine Change.one (.command (.start true) ha ⟨hk, rfl⟩ ?_)
      rintro _ ⟨⟩
      rw [hs k hk]
      rfl

theorem discard_changes {run : String} {n : Nat} (ha : e.active = none)
    (h : e.discard run = .ok (e', n)) : Changes (.discard run) e e' := by
  have serve (e₁ : Engine) (n : Nat) (s : List Nat) :
      Aside (.discard run) e₁ { e₁ with nextClient := n, served := s } :=
    ⟨rfl, rfl, fun _ => rfl, fun _ _ => rfl, rfl, rfl, rfl, rfl, rfl, rfl, rfl, rfl, fun _ h => h,
    fun _ h => h⟩
  obtain ⟨k, hk, h⟩ := bind_ok h
  split at h
  · have hr : Changes (.discard run) e (e.release run) := Change.one (.release e run rfl)
    generalize e.release run = e₁ at h hr
    cases h
    exact hr.tail (.aside (serve _ _ _))
  · have hc : Changes (.discard run) e
        ((e.cancelMachine k (some "discarded")).1.await k (.discard run)).1 :=
      (cancelMachine_changes ha (d := .discard run) _ ⟨find_ok hk, rfl⟩).trans
        (await_changes _ _ (by rintro _ ⟨⟩; rfl))
    generalize e.cancelMachine k (some "discarded") = y at h hc
    cases h
    exact hc

theorem cancelAndAwait_changes {run : String} {reason : Option String} {waits : Bool} {n : Nat}
    (ha : e.active = none) (h : e.cancelAndAwait run reason = .ok (e', n)) :
    Changes (.cancel run reason waits) e e' := by
  obtain ⟨k, hk, h⟩ := bind_ok h
  have hc : Changes (.cancel run reason waits) e ((e.cancelMachine k reason).1.await k .nothing).1 :=
    (cancelMachine_changes ha (d := .cancel run reason waits) _ ⟨find_ok hk, rfl⟩).trans
      (await_changes _ _ (by rintro _ ⟨⟩))
  generalize e.cancelMachine k reason = y at h hc
  cases h
  exact hc

theorem debug_changes (ha : e.active = none) (given : Value) :
    Changes (.debug given) e (Debugger.handle e given).1 := by
  have push (e : Engine) (ps : List (Nat × Push)) :
      Aside (.debug given) e { e with pushed := ps } :=
    ⟨rfl, rfl, fun _ => rfl, fun _ _ => rfl, rfl, rfl, rfl, rfl, rfl, rfl, rfl, rfl, fun _ h => h,
    fun _ h => h⟩
  have h := Debugger.handle_handled e given
  generalize (Debugger.handle e given).1 = e' at h
  cases h with
  | nothing => exact .refl
  | attach ho hk => exact Change.one (.attach rfl ho hk)
  | detach ho => exact Change.one (.detach rfl ho)
  | steer hk _ hc ps =>
    refine Relation.ReflTransGen.tail
      (Change.one (.command _ ha (d := .debug given) ⟨hk, hc⟩ fun s hs => ?_)) (.aside (push _ ps))
    rw [hs] at hc
    exact absurd hc id

theorem ask_changes (ha : e.active = none)
    (hs : ∀ run k, Entries.find? run e.runs = some k → (e.machine k).standalone = false)
    (h : e.ask d = .ok e') : Changes d e e' := by
  cases d with
  | step | pass t => cases h; exact .refl
  | setHandlers r =>
    cases h
    exact Aside.change ⟨rfl, rfl, fun hn => absurd rfl (hn r), fun _ _ => rfl, rfl, rfl, rfl, rfl, rfl, rfl,
      rfl, rfl, fun _ h => h, fun _ h => h⟩
  | keepFlow f replace => exact (keepFlow_aside h).change
  | deleteFlow id => exact (deleteFlow_aside h).change
  | create f r =>
    obtain ⟨_, hc, rfl⟩ := map_ok h
    obtain ⟨-, -, hc⟩ := bind_ok hc
    exact createFrom_changes trivial hc
  | createOf flow r =>
    obtain ⟨_, hc, rfl⟩ := map_ok h
    obtain ⟨_, _, hc⟩ := bind_ok hc
    exact createFrom_changes trivial hc
  | createStandalone f r =>
    cases h
    exact (Aside.freshId e r.id).change.tail (.makeStandalone (d := .createStandalone f r) trivial _ _ _ _ _)
  | start run => exact startRun_changes ha h (hs run)
  | startStandalone k =>
    cases h
    split
    · rename_i hk
      refine Change.one (.command (.start false) ha (d := .startStandalone k) ⟨rfl, rfl⟩ ?_)
      rintro _ ⟨⟩
      rw [hk]
      rfl
    · exact .refl
  | cancel run reason waits =>
    change (if waits then (e.cancelAndAwait run reason).map (·.1)
      else (e.find run).map fun k => (e.cancelMachine k reason).1) = .ok e' at h
    split at h
    · obtain ⟨_, hc, rfl⟩ := map_ok h
      exact cancelAndAwait_changes ha hc
    · obtain ⟨k, hk, rfl⟩ := map_ok h
      exact cancelMachine_changes ha (d := .cancel run reason waits) reason ⟨find_ok hk, rfl⟩
  | discard run =>
    obtain ⟨_, hc, rfl⟩ := map_ok h
    exact discard_changes ha hc
  | shutdown => cases h; exact shutdown_changes ha
  | cancelTask run =>
    obtain ⟨k, hk, h⟩ := bind_ok h
    cases h
    exact Change.one (.interrupt ha rfl (find_ok hk))
  | command k c =>
    cases h
    split
    · exact .refl
    · rename_i hc
      rw [Debugger.commandRun_onMachine]
      refine Change.one (.command c ha (d := .command k c) ⟨rfl, rfl⟩ ?_)
      rintro s rfl
      exact absurd rfl hc
  | debug given => cases h; exact debug_changes ha given
  | subscribe name run =>
    cases h
    cases run <;> exact Change.one (.observers _ _ _)
  | unsubscribe observer => cases h; exact Change.one (.observers _ _ _)
  | closeDebugger => cases h; exact Change.one (.close rfl)

/-- A deed is made of changes. -/
theorem meet_changes
    (hs : ∀ run k, Entries.find? run e.runs = some k → (e.machine k).standalone = false) (d : Deed) :
    Changes d e (e.meet d) := by
  obtain rfl | ⟨t, rfl⟩ | h | ⟨ha, h⟩ := meet_cases e d
  · show Changes _ e (e.step.getD e)
    cases h : e.step with
    | none => exact .refl
    | some e' => exact step_changes h
  · exact Aside.change ⟨rfl, rfl, fun _ => rfl, fun _ _ => rfl, rfl, rfl, rfl, rfl, rfl, rfl, rfl, rfl,
      fun _ h => h, fun _ h => h⟩
  · rw [h]
  · exact ask_changes ha hs h

end Engine

end Workflow
