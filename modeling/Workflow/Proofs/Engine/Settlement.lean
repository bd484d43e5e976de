import Workflow.Proofs.Engine.Calm
import Workflow.Proofs.Run.Coherence
/-!
The records of the runs of an engine. Each agrees with the status of its run whenever one looks, and
nothing that the engine or a debugger is asked for changes the record, the trace or the variables of a
run that has ended.
-/

namespace Workflow

namespace Machine

/-- A run may stand alone or not. -/
theorem Sound.alone {roles : List Role} {log : List Effect} {active : Option Strand} {m : Machine}
    (h : Sound roles log active m) (alone : Bool) :
    Sound roles log active { m with standalone := alone } where
  fitting := h.fitting.of_tasks rfl
  main := h.main
  watchers := h.watchers
  tickets := {
    told := h.tickets.told
    listed := h.tickets.listed
    waits := h.tickets.waits
    silent := h.tickets.silent
    awaits := h.tickets.awaits
    timed := h.tickets.timed }
  parked hm hs hp :=
    parked_congr (m := m) (n := { m with standalone := alone }) rfl rfl rfl rfl (h.parked hm hs hp)
  unstarted := h.unstarted
  history := h.history
  results := h.results
  paused := h.paused
  strand hs := by
    obtain ⟨hr, r, hrole, hc, hst⟩ := h.strand hs
    exact ⟨hr, r, hrole, hc, fun hw => Stands.congr (m := m) rfl rfl rfl (hst hw)⟩
  running := h.running

theorem IsNew.outset {m : Machine} (h : m.IsNew) :
    (Execution.ofMachine m).IsSound ∧ m.run.IsCoherent := by
  obtain ⟨id, flow, bindings, breakpoints, pauses, stamp, alone, rfl⟩ := h
  exact ⟨⟨rfl, [], (create_sound id flow bindings breakpoints pauses stamp).alone alone⟩,
    Execution.create_coherent id flow bindings breakpoints pauses stamp⟩

end Machine

namespace Debugger

open Work

variable {e : Engine} {run : String} {k : MachineId} {α β : Type}

/-- Work after a check leaves the engine as it is if it does so whenever the check is passed. -/
theorem Work.Looks.then {x : Work α} {f : α → Work β} (hx : Looks x)
    (hf : ∀ a, (x.result e).1 = .ok a → ((f a).result e).2 = e) : ((x >>= f).result e).2 = e :=
  hx.leads (P := fun y => y.2 = e) (fun _ => rfl) hf

/-- The variables of a run that has ended cannot be written by a debugger. -/
theorem setVar_settled (hk : Entries.find? run e.runs = some k)
    (ht : (e.machine k).run.status.isTerminal = true) (name v frame : Value) :
    ((setVar run name v frame).result e).2 = e := by
  refine (requireAttached_looks run).then fun _ _ => ?_
  dsimp only
  split
  · rfl
  · refine (requireMachine_looks run).then fun j hj => Looks.get.then fun e' he => ?_
    cases he
    cases hk.symm.trans (requireMachine_ok hj)
    rw [if_pos ht]
    rfl

theorem handle_settled {given : Value} (ho : opOf given = "setVar")
    (hk : Entries.find? (given.field "runId").name e.runs = some k)
    (ht : (e.machine k).run.status.isTerminal = true) : (handle e given).1 = e := by
  obtain ⟨r, hr⟩ | ⟨-, r, hr⟩ | hr := handle_cases e given
  · rw [hr]
  · rw [hr]
  · have hs := setVar_settled hk ht (given.field "name") (given.field "value") (given.field "frame")
    have hc : ((command (opOf given) (given.field "runId").name given).result e).2 = e := by
      rw [ho]
      exact hs
    rw [hr]
    unfold opOf at hc
    generalize (command _ _ given).result e = y at hc
    obtain ⟨r | r, e'⟩ := y <;> exact hc

end Debugger

/-- Whether a deed writes a variable of a run, past its engine and the debugger. -/
def Deed.Writes (k : MachineId) : Deed → Prop
  | .command j (.setVar _ _ _) => j = k
  | _ => False

namespace Engine

open Execution

variable {d : Deed} {ds : List Deed} {e e' : Engine} {k : MachineId} {x : Execution} {w : World}

/-- Each run of an engine is carried out in a world, with a record that agrees with its status. -/
structure IsCoherent (w : World) (e : Engine) : Prop where
  orderly : e.IsOrderly
  obeys : e.Obeys w
  records : ∀ k, k < e.machines.size → ∃ x, e.Mirrors k x ∧ x.IsSound ∧ x.machine.run.IsCoherent

theorem lt_of_ended (ht : (e.machine k).run.status.isTerminal = true) : k < e.machines.size := by
  refine Nat.lt_of_not_le fun hn => ?_
  rw [machine_of_none (Array.getElem?_eq_none hn)] at ht
  cases ht

theorem IsCoherent.record (h : e.IsCoherent w) (k : MachineId) : (e.machine k).run.IsCoherent := by
  by_cases hk : k < e.machines.size
  · obtain ⟨x, hx, -, hc⟩ := h.records k hk
    rw [hx.machine_eq]
    exact hc
  · rw [machine_of_none (Array.getElem?_eq_none (Nat.le_of_not_lt hk))]
    constructor <;> simp [default, Status.isTerminal]

theorem IsCoherent.change (h : e.IsCoherent w) (hc : Change d e e') (hd : d.IsCalm)
    (hr : ∀ r, d ≠ .setHandlers r) : e'.IsCoherent w where
  orderly := h.orderly.change hc
  obeys := hc.equips.obeys hr h.obeys
  records k hk := by
    have old (hk : k < e.machines.size) :
        ∃ x, e'.Mirrors k x ∧ x.IsSound ∧ x.machine.run.IsCoherent := by
      obtain ⟨x, hx, hs, hrec⟩ := h.records k hk
      obtain ⟨j, new, -, -, -, hact⟩ := hc.takes h.orderly.bounded h.obeys hd
      obtain ⟨is, -, hm, -⟩ := hact k x hx
      exact ⟨_, hm, after_isSound hs is, after_coherent hs hrec is⟩
    rcases hc.sheds with hsheds | ⟨m, hm, rfl, -⟩
    · exact old (hsheds.made ▸ hk)
    · rcases Nat.lt_succ_iff_lt_or_eq.mp (Nat.lt_of_lt_of_eq hk (Array.size_push m)) with hk | rfl
      · exact old hk
      · exact ⟨_, addMachine_mirrors h.orderly.bounded hm.effects, hm.outset⟩

theorem IsCoherent.meet (h : e.IsCoherent w) (hd : d.IsCalm) : (e.meet d).IsCoherent w := by
  by_cases hr : ∃ r, d = .setHandlers r
  · obtain ⟨r, rfl⟩ := hr
    have ho := h.obeys.meet h.orderly hd
    have he := h.orderly.meet (.setHandlers r)
    change Obeys (if e.active.isNone then { e with registry := r } else e) w at ho
    change IsOrderly (if e.active.isNone then { e with registry := r } else e) at he
    show IsCoherent w (if e.active.isNone then { e with registry := r } else e)
    split
    · rename_i ha
      rw [if_pos ha] at ho he
      refine ⟨he, ho, fun k hk => ?_⟩
      obtain ⟨x, hx, hrec⟩ := h.records k hk
      exact ⟨x, ⟨hx.machine, hx.quiet, hx.told, hx.active, hx.queued, hx.running⟩, hrec⟩
    · exact h
  · have hs := h.orderly.meets d
    generalize e.meet d = e' at hs
    induction hs with
    | refl => exact h
    | tail _ hc ih => exact ih.change hc hd fun r hr' => hr ⟨r, hr'⟩

theorem IsCoherent.after (h : e.IsCoherent w) (hd : ∀ d ∈ ds, d.IsCalm) :
    (Engine.after ds e).IsCoherent w :=
  after_keeps (fun d hm _ h => h.meet (hd d hm)) h

theorem opened_isCoherent {registry : Registry} (hr : registry.IsBuiltin) (shared : Entries Value) :
    (opened w.settings registry w.provider shared).IsCoherent w where
  orderly := opened_isOrderly _ _ _ _
  obeys := ⟨rfl, rfl, hr⟩
  records _ hk := absurd hk (Nat.not_lt_zero _)

/-! Runs that have ended. -/

/-- Whether a deed may write a variable of a run. -/
def Stores (d : Deed) (e : Engine) (k : MachineId) : Prop :=
  ∃ name v frame, d.Gives e k (.setVar name v frame)

theorem IsCoherent.change_settles (h : e.IsCoherent w) (hc : Change d e e') (hd : d.IsCalm)
    (ht : (e.machine k).run.status.isTerminal = true) :
    (e.machine k).Settles (Stores d e k) (e'.machine k) := by
  obtain ⟨x, hx, hs, -⟩ := h.records k (lt_of_ended ht)
  obtain ⟨j, new, -, -, -, hact⟩ := hc.takes h.orderly.bounded h.obeys hd
  obtain ⟨is, hsuits, hm, -⟩ := hact k x hx
  rw [hx.machine_eq] at ht
  have hafter := after_settles (w := w.around (e.machine k).standalone) hs ht is
  rw [← hm.machine_eq, ← hx.machine_eq] at hafter
  refine hafter.mono fun ⟨i, hi, hw⟩ => ?_
  have hi := hsuits i hi
  cases i with
  | move a => exact absurd hw id
  | command c =>
    cases c with
    | setVar name v frame => exact ⟨name, v, frame, hi.1⟩
    | _ => exact absurd hw id

/-- Several parts of a deed. -/
theorem IsCoherent.changes_settles (h : e.IsCoherent w) (hc : Changes d e e') (hd : d.IsCalm)
    (hr : ∀ r, d ≠ .setHandlers r) (ht : (e.machine k).run.status.isTerminal = true) {P : Prop}
    (hP : ∀ e₁, Stores d e₁ k → P) : (e.machine k).Settles P (e'.machine k) := by
  have both : e'.IsCoherent w ∧ (e.machine k).Settles P (e'.machine k) := by
    induction hc with
    | refl => exact ⟨h, .refl _⟩
    | tail _ hc ih =>
      obtain ⟨hm, hs⟩ := ih
      exact ⟨hm.change hc hd hr, hs.trans ((hm.change_settles hc hd (hs.status ▸ ht)).mono (hP _))⟩
  exact both.2

/-- A command of a debugger writes no variables of a run that has ended. -/
theorem IsCoherent.debug_settles (h : e.IsCoherent w) (ha : e.active = none) (given : Value)
    (ht : (e.machine k).run.status.isTerminal = true) :
    (e.machine k).Settles False ((Debugger.handle e given).1.machine k) := by
  by_cases hw : Debugger.opOf given = "setVar" ∧
      Entries.find? (given.field "runId").name e.runs = some k
  · rw [Debugger.handle_settled hw.1 hw.2 ht]
    exact .refl _
  · have one {e'} (hc : Change (.debug given) e e') : (e.machine k).Settles False (e'.machine k) :=
      (h.change_settles hc trivial ht).mono fun ⟨name, v, frame, hg⟩ => hw ⟨hg.2.1, hg.1⟩
    have hh := Debugger.handle_handled e given
    generalize (Debugger.handle e given).1 = e' at hh
    cases hh with
    | nothing => exact .refl _
    | attach ho hk => exact one (.attach rfl ho hk)
    | detach ho => exact one (.detach rfl ho)
    | steer hk _ hc ps =>
      have hs := one (.command _ ha (d := .debug given) ⟨hk, hc⟩ (by
        rintro s rfl
        exact absurd hc id))
      exact hs

/-- A deed leaves a run that has ended as it is, but for a write past the engine and the debugger. -/
theorem IsCoherent.meet_settles (h : e.IsCoherent w) (hd : d.IsCalm)
    (ht : (e.machine k).run.status.isTerminal = true) :
    (e.machine k).Settles (d.Writes k) ((e.meet d).machine k) := by
  have changed (hr : ∀ r, d ≠ .setHandlers r) (hP : ∀ e₁, Stores d e₁ k → d.Writes k) :
      (e.machine k).Settles (d.Writes k) ((e.meet d).machine k) :=
    h.changes_settles (h.orderly.meets d) hd hr ht hP
  cases d with
  | setHandlers r =>
    show (e.machine k).Settles _ ((if e.active.isNone then { e with registry := r } else e).machine k)
    split <;> exact .refl _
  | debug given =>
    show (e.machine k).Settles _ ((if e.active.isNone then (Debugger.handle e given).1 else e).machine k)
    split
    · rename_i ha
      exact (h.debug_settles (Option.isNone_iff_eq_none.mp ha) given ht).mono False.elim
    · exact .refl _
  | command j c =>
    refine changed (by simp) ?_
    rintro e₁ ⟨name, v, frame, rfl, rfl⟩
    rfl
  | cancelTask run => exact absurd hd id
  | start run | startStandalone j | cancel run reason waits | discard run =>
    exact changed (by simp) fun e₁ ⟨name, v, frame, hg⟩ => by cases hg.2
  | shutdown => exact changed (by simp) fun e₁ ⟨name, v, frame, hg⟩ => by cases hg
  | _ => exact changed (by simp) fun e₁ ⟨name, v, frame, hg⟩ => absurd hg id

theorem IsCoherent.after_settles (h : e.IsCoherent w) (hd : ∀ d ∈ ds, d.IsCalm)
    (ht : (e.machine k).run.status.isTerminal = true) :
    (e.machine k).Settles (∃ d ∈ ds, d.Writes k) ((Engine.after ds e).machine k) := by
  induction ds generalizing e with
  | nil => exact .refl _
  | cons d ds ih =>
    have hd₀ := hd d List.mem_cons_self
    have hm := h.meet_settles hd₀ ht
    have hms := ih (h.meet hd₀) (fun d hm => hd d (List.mem_cons_of_mem _ hm)) (hm.status ▸ ht)
    exact (hm.mono fun hw => ⟨d, List.mem_cons_self, hw⟩).trans
      (hms.mono fun ⟨j, hj, hw⟩ => ⟨j, List.mem_cons_of_mem _ hj, hw⟩)

/-- The record of a run agrees with its status, whatever its moves are and whatever it is asked for, and
so do the records of all runs of an engine with built-in handlers. Once a run has ended, nothing changes
its record but its breakpoints, and nothing changes its variables but a write from outside: the engine
asks for none, and a debugger's are refused. -/
theorem record_coherent (w : World) :
    (∀ id flow bindings breakpoints pauseOnStart stamp (is js : List Input),
      let x := Execution.after w is (ofMachine (.create id flow bindings breakpoints pauseOnStart stamp))
      x.machine.run.IsCoherent ∧ (x.machine.run.status.isTerminal = true →
        x.machine.Settles (∃ j ∈ js, j.IsWrite) (Execution.after w js x).machine)) ∧
    ∀ (registry : Registry) (shared : Entries Value) (ds es : List Deed) (k : MachineId),
      registry.IsBuiltin → (∀ d ∈ ds, d.IsCalm) → (∀ d ∈ es, d.IsCalm) →
      let e := after ds (opened w.settings registry w.provider shared)
      (e.machine k).run.IsCoherent ∧ ((e.machine k).run.status.isTerminal = true →
        (e.machine k).Settles (∃ d ∈ es, d.Writes k) ((after es e).machine k)) := by
  refine ⟨fun id flow bindings breakpoints pauseOnStart stamp is js => ?_,
    fun registry shared ds es k hr hds hes => ?_⟩
  · have h := create_isSound id flow bindings breakpoints pauseOnStart stamp
    have hc := create_coherent id flow bindings breakpoints pauseOnStart stamp
    exact ⟨after_coherent h hc is,
      fun ht => Execution.after_settles (after_isSound h is) ht js⟩
  · have he := (opened_isCoherent (w := w) hr shared).after hds
    exact ⟨he.record k, he.after_settles hes⟩

/-- A run that was cancelled before it was started. -/
def forsakenRun : Execution :=
  Execution.after { settings := {} } [.command (.cancel none 0)]
    (ofMachine (.create "run" binding [] [] false 0))

/-- An engine with a run that was cancelled before it was started. -/
def forsaken : Engine :=
  after [.create binding { id := some "run" }, .cancel "run" none false] (opened {} [] none [])

/-- A debugger attaches to a run that has ended and tries to write a variable of it. -/
def belated : List Deed := [
  .debug (.obj [("type", .str "attach"), ("runId", .str "run")]),
  .debug (.obj [("type", .str "setVar"), ("runId", .str "run"), ("name", .str "y"), ("value", .int 8)])]

/-- A run that was cancelled before it was started is asked to go on, or to hold another value. -/
theorem record_coherent_forsaken :
    (forsakenRun.machine.run.status.isTerminal = true ∧
      forsakenRun.machine.Settles (∃ j ∈ [Input.command .resume], j.IsWrite)
        (Execution.after { settings := {} } [.command .resume] forsakenRun).machine) ∧
    (forsaken.machine 0).run.status.isTerminal = true ∧
      (forsaken.machine 0).Settles (∃ d ∈ belated, d.Writes 0) ((after belated forsaken).machine 0) := by
  obtain ⟨hrun, hengine⟩ := record_coherent { settings := {} }
  have hx := hrun "run" binding [] [] false 0 [.command (.cancel none 0)] [.command .resume]
  have he := hengine [] []
    [.create binding { id := some "run" }, .cancel "run" none false] belated 0 Registry.isBuiltin_nil
    (by simp [Deed.IsCalm]) (by simp [belated, Deed.IsCalm])
  have hended : (forsaken.machine 0).run.status.isTerminal = true := by decide +kernel
  exact ⟨⟨rfl, hx.2 rfl⟩, hended, he.2 hended⟩

end Engine

end Workflow
