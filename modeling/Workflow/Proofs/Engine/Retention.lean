import Workflow.Proofs.Engine.Pruning
import Workflow.Proofs.Engine.Tenure
import Workflow.Proofs.Run.Slot
/-!
How many ended runs an engine holds. Whenever the task that executes a run ends, as many ended runs are
held as the settings say at most, if all handlers are built in and no task is cancelled from outside.
-/

namespace Workflow

theorem Machine.IsNew.isSound {m : Machine} (h : m.IsNew) (hs : m.standalone = false) :
    (Execution.ofMachine m).IsSound := by
  obtain ⟨_, _, _, _, _, _, _, rfl⟩ := h
  cases hs
  exact Execution.create_isSound ..

namespace Engine

open Execution

variable {d : Deed} {ds : List Deed} {e e' : Engine} {a : Activity} {j k : MachineId} {x : Execution}
  {w : World}

/-- An execution is what an engine makes of a run that asks for a slot when it is started. -/
structure Carries (e : Engine) (k : MachineId) (x : Execution) : Prop where
  mirrors : e.Mirrors k x
  sound : x.IsSound
  slotted : x.IsSlotted

/-- The task that executes a run is about to end. -/
def Closes (e : Engine) : Prop :=
  ∃ a, e.active = some a ∧ (e.machine a.machine).standalone = false ∧
    (e.machine a.machine).main = some a.task ∧ a.control = .answer .done ∧ a.pending = []

/-- No more ended runs are held than are retained. -/
def IsTrim (e : Engine) : Prop :=
  e.endedRuns.length ≤ e.settings.maxRunsRetained

structure IsRetentive (w : World) (e : Engine) : Prop where
  orderly : e.IsOrderly
  accords : e.Accords
  obeys : e.Obeys w
  carries : ∀ {k}, k < e.machines.size → (e.machine k).standalone = false → ∃ x, e.Carries k x
  trim : e.Closes → e.IsTrim

/-! Steps of tasks. -/

theorem replace_machine (hj : j < e.machines.size) (m : Machine) (k : MachineId) :
    (e.replace j m).machine k = if j = k then m else e.machine k := by
  rw [machine, machine, replace_getElem?]
  by_cases h : j = k
  · subst h
    rw [if_pos rfl, if_pos rfl, Array.getElem?_eq_getElem hj]
    rfl
  · rw [if_neg h, if_neg h]

/-- A step of a task is a step of the execution of its run. -/
theorem Carries.steps (h : e.Carries a.machine x) (ho : e.Obeys w) (ha : e.active = some a)
    (hs : (e.machine a.machine).standalone = false) :
    x.active = some ⟨a.task, a.control, a.pending⟩ ∧ ∃ now : Moment,
      x.step w now = x.put (e.stepped a).1 ((e.stepped a).2.map fun (c, p) => ⟨a.task, c, p⟩) := by
  have hxa : x.active = some ⟨a.task, a.control, a.pending⟩ := by
    rw [← h.mirrors.active, ha]
    exact if_pos rfl
  refine ⟨hxa, e.moment a.machine ho.builtin, ?_⟩
  rw [step_eq hxa, stepped, ho.surroundings, hs, h.mirrors.machine_eq]
  rfl

theorem stepped_main (e : Engine) (a : Activity) :
    (e.stepped a).1.main = (e.machine a.machine).main :=
  (show _ = _ from congrArg Machine.main (Machine.turn_core _ a.task _)).trans
    (Machine.step_upholds (e.machine a.machine) (e.surroundings a.machine) a.task a.pending a.control).main

/-- A task that gives its slot back lets the engine prune. -/
theorem stepped_of_slot {held : Bool} (hc : a.control = .answer .done) (hp : a.pending = [.slot held]) :
    .prune ∈ (e.stepped a).1.effects := by
  unfold stepped
  rw [hc, hp]
  exact List.mem_cons_self

/-- A task that ends leaves its run as it is. -/
theorem stepped_of_closing (hc : a.control = .answer .done) (hp : a.pending = []) :
    (e.stepped a).1.run = (e.machine a.machine).run := by
  unfold stepped
  rw [hc, hp]
  exact (Machine.Mute.finish (e.machine a.machine) a.task .done).run

theorem replaced_machine (hj : a.machine < e.machines.size) :
    (e.replace a.machine (e.stepped a).1).machine a.machine = (e.stepped a).1 := by
  rw [replace_machine hj, if_pos rfl]

/-- After a step of a task its run is executed by the same task, which has ended if that of the
execution has. -/
theorem Carries.turned (h : e.Carries a.machine x) (hc : e.Accords) (hj : a.machine < e.machines.size) :
    ((e.stepActive a).machine a.machine).main = x.machine.main ∧
      ((e.stepActive a).machine a.machine).mainEnded = (e.stepped a).1.mainEnded := by
  obtain ⟨hmain, hended⟩ := (stepActive_clears hc a).main a.machine
  rw [replaced_machine hj] at hmain hended
  exact ⟨hmain.trans ((stepped_main e a).trans (congrArg Machine.main h.mirrors.machine_eq)), hended⟩

/-- The task that executes a run gives its slot back before it is about to end. -/
theorem IsRetentive.turn_closes (h : e.IsRetentive w) (ha : e.active = some a)
    (hs : (e.machine a.machine).standalone = false) (hcloses : (e.stepActive a).Closes) :
    (e.stepActive a).IsTrim := by
  have hj := h.orderly.bounded.active a ha
  obtain ⟨x, hx⟩ := h.carries hj hs
  obtain ⟨hxa, now, hstep⟩ := hx.steps h.obeys ha hs
  obtain ⟨b, hb, -, hbm, hbc, hbp⟩ := hcloses
  have hnext : (e.stepped a).2 = some (.answer .done, []) ∧ b.machine = a.machine ∧ b.task = a.task := by
    rw [stepActive_eq] at hb
    obtain ⟨⟨c, p⟩, hcp, rfl⟩ := Option.map_eq_some_iff.mp hb
    rw [hcp, show c = .answer .done from hbc, show p = [] from hbp]
    exact ⟨rfl, rfl, rfl⟩
  obtain ⟨hnext, hbj, hbt⟩ := hnext
  have hm : x.machine.main = some a.task := by
    rw [hbj, hbt] at hbm
    exact (hx.turned h.accords hj).1.symm.trans hbm
  have hactive : (x.step w now).active = some ⟨a.task, .answer .done, []⟩ := by
    rw [hstep, hnext]
    rfl
  have hmain : (x.step w now).machine.main = some a.task := by
    rw [hstep, ← hm, ← hx.mirrors.machine_eq]
    exact stepped_main e a
  obtain ⟨held, hc, hp⟩ := ((step_treads hx.sound hxa hm now).leaves hx.sound hx.slotted).closes
    (stance_of_walker hactive hmain)
  have hr : (e.replace a.machine (e.stepped a).1).Accords := h.accords.congr rfl rfl rfl rfl
  have hpruned := (settleEffects_clears hr a.machine).2 (by
    rw [replaced_machine hj]
    exact stepped_of_slot hc hp)
  rw [IsTrim, (stepActive_clears h.accords a).settings, stepActive_eq]
  exact hpruned

/-- When the task that executes a run ends, no run ends besides. -/
theorem IsRetentive.turn_ends (h : e.IsRetentive w) (ha : e.active = some a)
    (hs : (e.machine a.machine).standalone = false) (hn : (e.machine a.machine).mainEnded = false)
    (he : ((e.stepActive a).machine a.machine).mainEnded = true) : (e.stepActive a).IsTrim := by
  have hj := h.orderly.bounded.active a ha
  obtain ⟨x, hx⟩ := h.carries hj hs
  obtain ⟨hxa, now, hstep⟩ := hx.steps h.obeys ha hs
  have hy : (x.step w now).IsSound := step_isSound hx.sound now
  have hended : (x.step w now).machine.mainEnded = true := by
    rw [hstep]
    exact (hx.turned h.accords hj).2.symm.trans he
  have hm : x.machine.main = some a.task := by
    by_contra hm
    have hstill := (step_attends (w := w) hx.sound hxa hm now).mainEnded hx.sound hy hended
    rw [← hx.mirrors.machine_eq, hn] at hstill
    cases hstill
  obtain ⟨hc, hp⟩ := ((step_treads hx.sound hxa hm now).leaves hx.sound hx.slotted).ends
    (stance_of_mainEnded hy hended)
  have htrim := h.trim ⟨a, ha, hs, hx.mirrors.machine_eq ▸ hm, hc, hp⟩
  have hrun (i : MachineId) : ((e.replace a.machine (e.stepped a).1).machine i).run = (e.machine i).run := by
    rw [replace_machine hj]
    split
    · rename_i hi
      rw [← hi, stepped_of_closing hc hp]
    · rfl
  have hsame : (e.replace a.machine (e.stepped a).1).endedRuns = e.endedRuns := by
    unfold endedRuns
    simp only [hrun]
    rfl
  have hclears := stepActive_clears h.accords a
  rw [IsTrim, hclears.settings]
  exact Nat.le_trans hclears.endedRuns.length_le (hsame ▸ htrim)

/-! Other changes. -/

theorem lt_of_task? {t : TaskId} {task : Task} (h : (e.machine k).task? t = some task) :
    k < e.machines.size := by
  refine Nat.lt_of_not_le fun hn => ?_
  rw [machine_of_none (Array.getElem?_eq_none hn)] at h
  cases h

/-- A task that begins its steps is not about to end. -/
theorem begin_not_closes (ha : e.active = none) (k : MachineId) (t : TaskId)
    (h : k < e.machines.size → (e.machine k).standalone = false → ∃ x : Execution, e.machine k = x.machine ∧ x.IsSound) :
    ¬ (e.begin k t).Closes := by
  have idle {e' : Engine} (h : e'.active = none) : ¬ e'.Closes := by
    rintro ⟨b, hb, -⟩
    rw [h] at hb
    cases hb
  unfold Engine.begin
  dsimp only
  split
  · exact idle ha
  · rename_i task htask
    have hk := lt_of_task? htask
    split
    · rename_i c i hstate
      split
      · exact idle ((onMachine_rests e k _).active.trans ha)
      · rintro ⟨b, hb, hs, hm, hc, -⟩
        cases Option.some.inj hb
        rw [machine_modify, if_pos ⟨rfl, hk⟩] at hs hm
        obtain ⟨x, hx, -, roles, hr⟩ := h hk hs
        rw [hx] at hm htask
        have hst : x.machine.state? t = some (.fresh c i) := by
          rw [Machine.state?, show x.machine.tasks[t]? = some task from htask, Option.map_some, hstate]
        obtain ⟨p, hp⟩ := Machine.exists_pending? hst
        have hopening := (hr.parked hm hst hp).1
        rw [show c = .answer .done from hc] at hopening
        exact hopening
    · rintro ⟨b, hb, -, -, hc, -⟩
      cases Option.some.inj hb
      cases hc
    · exact idle ha

/-- Nothing that has to do with the ends of tasks has changed; perhaps some runs were let go of. -/
theorem trim_of_same (hs : e'.settings = e.settings) (hm : e'.machines = e.machines)
    (hr : e'.runs.Sublist e.runs) (ha : e'.active = e.active) (hl : e.Closes → e.IsTrim)
    (hc : e'.Closes) : e'.IsTrim := by
  have hmachine : e'.machine = e.machine := by
    funext i
    rw [machine, machine, hm]
  unfold Closes at hc
  rw [hmachine, ha] at hc
  have hle : e'.endedRuns.length ≤ e.endedRuns.length := by
    unfold endedRuns
    rw [hmachine]
    exact (hr.filter _).length_le
  rw [IsTrim, hs]
  exact Nat.le_trans hle (hl hc)

/-- A new run has not ended. -/
theorem addMachine_trim (h : e.IsOrderly) {m : Machine} (hm : m.IsNew) (hl : e.Closes → e.IsTrim)
    (hc : (e.addMachine m).1.Closes) : (e.addMachine m).1.IsTrim := by
  have hold {i : MachineId} (hi : i < e.machines.size) : (e.addMachine m).1.machine i = e.machine i := by
    show ((e.machines.push m)[i]?).getD default = _
    rw [Array.getElem?_push_lt hi, machine, Array.getElem?_eq_getElem hi]
  have hnew : (e.addMachine m).1.machine e.machines.size = m := by
    show ((e.machines.push m)[e.machines.size]?).getD default = _
    rw [Array.getElem?_push_size]
    rfl
  obtain ⟨b, hb, hs, hmain, hrest⟩ := hc
  have hbm := hold (h.bounded.active b hb)
  rw [hbm] at hs hmain
  have hkeys : (Entries.keys (e.addMachine m).1.runs).Nodup := by
    show (Entries.keys (if m.standalone then e.runs else _)).Nodup
    split
    · exact h.keys
    · exact Entries.nodup_keys_insert h.keys
  have hsub : (e.addMachine m).1.endedRuns ⊆ e.endedRuns := by
    rintro ⟨run, i⟩ hr
    obtain ⟨hr, ht⟩ := mem_endedRuns.mp hr
    have held (hr : (run, i) ∈ e.runs) : (run, i) ∈ e.endedRuns := by
      have hi := (h.held ((Entries.find?_eq_some_iff h.keys).mpr hr)).1
      exact mem_endedRuns.mpr ⟨hr, hold hi ▸ ht⟩
    have hr : (run, i) ∈ if m.standalone then e.runs
      else Entries.insert m.run.id e.machines.size e.runs := hr
    split at hr
    · exact held hr
    · rw [← Entries.find?_eq_some_iff (Entries.nodup_keys_insert h.keys), Entries.find?_insert] at hr
      split at hr
      · cases hr
        rw [hnew, hm.status] at ht
        cases ht
      · exact held ((Entries.find?_eq_some_iff h.keys).mp hr)
  have hnodup : (e.addMachine m).1.endedRuns.Nodup := (List.Nodup.of_map _ hkeys).filter _
  exact Nat.le_trans (hnodup.subperm hsub).length_le (hl ⟨b, hb, hs, hmain, hrest⟩)

/-- Few ended runs are held by an engine in which the task of a run is about to end. -/
theorem IsRetentive.change_trim (h : e.IsRetentive w) (hc : Change d e e') : e'.Closes → e'.IsTrim := by
  have idle {e' : Engine} (ha : e'.active = none) : e'.Closes → e'.IsTrim := by
    rintro ⟨b, hb, -⟩
    rw [ha] at hb
    cases hb
  cases hc with
  | aside hs => exact trim_of_same hs.settings hs.machines (hs.runs ▸ .refl _) hs.active h.trim
  | @turn a ha =>
    intro hcloses
    have hj := h.orderly.bounded.active a ha
    refine h.turn_closes ha ?_ hcloses
    obtain ⟨b, hb, hs, -⟩ := hcloses
    rw [stepActive_eq] at hb
    obtain ⟨cp, -, rfl⟩ := Option.map_eq_some_iff.mp hb
    exact (congrArg Machine.Origin.standalone ((Change.turn (d := .step) ha).origin h.orderly hj)).symm.trans hs
  | @begin k t rest ha hr =>
    refine fun hcloses => absurd hcloses (begin_not_closes (e := { e with round := rest }) ha k t fun hk hs => ?_)
    obtain ⟨x, hx⟩ := h.carries hk hs
    exact ⟨x, hx.mirrors.machine_eq, hx.sound⟩
  | tell ha hr => exact idle ((onMachine_rests _ _ _).active.trans ha)
  | command c ha hk hs => exact idle ((onMachine_rests _ _ _).active.trans ha)
  | interrupt ha hd hk => exact idle ((onMachine_rests _ _ _).active.trans ha)
  | release run =>
    obtain ⟨g, hs⟩ := release_shape e run
    rw [hs]
    exact trim_of_same (e := e) rfl rfl (Entries.erase_sublist _ _) rfl h.trim
  | make hd id f vars breakpoints pauses hf =>
    exact addMachine_trim h.orderly ⟨_, _, _, _, _, _, false, rfl⟩ h.trim
  | makeStandalone hd id f vars breakpoints pauses =>
    exact addMachine_trim h.orderly ⟨_, _, _, _, _, _, true, rfl⟩ h.trim
  | attach hd ho hk =>
    obtain ⟨g, ps, hs⟩ := Debugger.openSession_sameRuns _ _ e
    rw [hs]
    exact trim_of_same rfl rfl (.refl _) rfl h.trim
  | @detach given hd ho =>
    obtain ⟨g, ps, hs⟩ := Debugger.dropRetired_sameRuns (given.field "runId").name
      (Debugger.tellState (given.field "runId").name (Debugger.closeSession (given.field "runId").name e))
    rw [hs]
    exact trim_of_same rfl rfl (.refl _) rfl h.trim
  | observers => exact trim_of_same rfl rfl (.refl _) rfl h.trim
  | close hd => exact trim_of_same rfl rfl (.refl _) rfl h.trim

/-- A part of a deed leaves every run that asks for a slot one that does. -/
theorem IsRetentive.change_carries (h : e.IsRetentive w) (hc : Change d e e') (hd : d.IsCalm)
    (hk : k < e'.machines.size) (hs : (e'.machine k).standalone = false) : ∃ x, e'.Carries k x := by
  have old (hk : k < e.machines.size) : ∃ x, e'.Carries k x := by
    have hst : (e.machine k).standalone = false :=
      (congrArg Machine.Origin.standalone (hc.origin h.orderly hk)).symm.trans hs
    obtain ⟨x, hx⟩ := h.carries hk hst
    obtain ⟨j, new, -, -, -, hact⟩ := hc.takes h.orderly.bounded h.obeys hd
    obtain ⟨is, hsuits, hm, -⟩ := hact k x hx.mirrors
    refine ⟨_, hm, after_isSound hx.sound is, after_isSlotted hx.sound hx.slotted ?_⟩
    rintro i hi s rfl
    have hslotted := (hsuits _ hi).2 s rfl
    rwa [hst] at hslotted
  rcases hc.sheds with hsheds | ⟨m, hm, rfl, -⟩
  · exact old (hsheds.made ▸ hk)
  · rcases Nat.lt_succ_iff_lt_or_eq.mp (Nat.lt_of_lt_of_eq hk (Array.size_push m)) with hk | rfl
    · exact old hk
    · have hnew := addMachine_mirrors h.orderly.bounded hm.effects
      rw [hnew.machine_eq] at hs
      exact ⟨_, hnew, hm.isSound hs, ofMachine_isSlotted hm.main⟩

theorem IsRetentive.change (h : e.IsRetentive w) (hc : Change d e e') (hd : d.IsCalm)
    (hr : ∀ r, d ≠ .setHandlers r) : e'.IsRetentive w where
  orderly := h.orderly.change hc
  accords := Stirs.accords hc.stirs h.accords
  obeys := hc.equips.obeys hr h.obeys
  carries hk hs := h.change_carries hc hd hk hs
  trim := h.change_trim hc

theorem IsRetentive.meet (h : e.IsRetentive w) (hd : d.IsCalm) : (e.meet d).IsRetentive w := by
  by_cases hr : ∃ r, d = .setHandlers r
  · obtain ⟨r, rfl⟩ := hr
    have ho := h.obeys.meet h.orderly hd
    have he := h.orderly.meet (.setHandlers r)
    change Obeys (if e.active.isNone then { e with registry := r } else e) w at ho
    change IsOrderly (if e.active.isNone then { e with registry := r } else e) at he
    show IsRetentive w (if e.active.isNone then { e with registry := r } else e)
    split
    · rename_i ha
      rw [if_pos ha] at ho he
      refine ⟨he, h.accords.congr rfl rfl rfl rfl, ho, fun hk hs => ?_, h.trim⟩
      obtain ⟨x, hx⟩ := h.carries hk hs
      exact ⟨x, ⟨hx.mirrors.machine, hx.mirrors.quiet, hx.mirrors.told, hx.mirrors.active, hx.mirrors.queued,
        hx.mirrors.running⟩, hx.sound, hx.slotted⟩
    · exact h
  · have hs := h.orderly.meets d
    generalize e.meet d = e' at hs
    induction hs with
    | refl => exact h
    | tail _ hc ih => exact ih.change hc hd fun r hr' => hr ⟨r, hr'⟩

theorem IsRetentive.after (h : e.IsRetentive w) (hd : ∀ d ∈ ds, d.IsCalm) :
    (Engine.after ds e).IsRetentive w :=
  after_keeps (fun d hm _ h => h.meet (hd d hm)) h

theorem opened_isRetentive {registry : Registry} (hr : registry.IsBuiltin) (shared : Entries Value) :
    (opened w.settings registry w.provider shared).IsRetentive w where
  orderly := opened_isOrderly _ _ _ _
  accords := opened_accords _ _ _ _
  obeys := ⟨rfl, rfl, hr⟩
  carries hk := absurd hk (Nat.not_lt_zero _)
  trim := by rintro ⟨a, ⟨⟩, -⟩

/-! The ends of tasks. -/

/-- No task that executes a run has ended. -/
def Awaits (e e' : Engine) (k : MachineId) : Prop :=
  (e'.machine k).mainEnded = true → (e.machine k).mainEnded = true

theorem modify_awaits {f : Machine → Machine} {b : Option Activity}
    (hf : j = k → k < e.machines.size → (f (e.machine k)).mainEnded = true → (e.machine k).mainEnded = true) :
    Awaits e { e with machines := e.machines.modify j f, active := b } k := by
  intro he
  rw [machine_modify] at he
  split at he
  · rename_i h
    exact hf h.1 h.2 he
  · exact he

theorem onMachine_awaits {f : Machine → Machine} (h : e.Accords)
    (hf : j = k → k < e.machines.size → (f (e.machine k)).mainEnded = true → (e.machine k).mainEnded = true) :
    Awaits e (e.onMachine j f) k := by
  let changed : Engine := { e with machines := e.machines.modify j f }
  have hc : changed.Accords := h.congr rfl rfl rfl rfl
  intro he
  refine modify_awaits (b := e.active) hf ?_
  rw [← ((settleEffects_clears hc j).1.main k).2]
  exact he

theorem begin_awaits (h : e.Accords) (j : MachineId) (t : TaskId)
    (hx : k < e.machines.size → ∃ x : Execution, e.machine k = x.machine ∧ x.IsSound) :
    Awaits e (e.begin j t) k := by
  have running {b : Option Activity} : Awaits e { e with
      machines := e.machines.modify j (·.setState t .running), active := b } k := by
    refine modify_awaits fun _ _ he => ?_
    obtain ⟨u, a, hm, hs⟩ := Machine.ended_of_mainEnded he
    rw [Machine.state?_setState] at hs
    split at hs
    · obtain ⟨_, -, ⟨⟩⟩ := Option.map_eq_some_iff.mp hs
    · exact Machine.mainEnded_of_ended hm hs
  unfold Engine.begin
  dsimp only
  split
  · exact id
  · rename_i task htask
    split
    · rename_i c i hstate
      split
      · -- The task that executes a run is never cancelled before it begins.
        rename_i hi
        refine onMachine_awaits h fun hj hk he => ?_
        subst hj
        obtain ⟨x, hx, -, roles, hr⟩ := hx hk
        obtain ⟨u, a, hm, hs⟩ := Machine.ended_of_mainEnded he
        rw [hx] at hm hs htask ⊢
        rw [(Machine.Mute.finish x.machine t .interrupted).main] at hm
        have hst : x.machine.state? t = some (.fresh c i) := by
          rw [Machine.state?, show x.machine.tasks[t]? = some task from htask, Option.map_some, hstate]
        by_cases htu : t = u
        · subst htu
          obtain ⟨p, hp⟩ := Machine.exists_pending? hst
          rw [(hr.fitting.state (hr.main.mpr hm) hst hp).2 rfl] at hi
          cases hi
        · exact Machine.mainEnded_of_ended hm (((Machine.state?_finish _).trans (if_neg htu)).symm.trans hs)
      · exact running
    · exact running
    · exact id

/-- When the task that executes a run ends, few ended runs are held. -/
theorem IsRetentive.step_trim (h : e.IsRetentive w) (hs : e.step = some e')
    (hk : (e.machine k).standalone = false) (hn : (e.machine k).mainEnded = false)
    (he : (e'.machine k).mainEnded = true) : e'.IsTrim := by
  have waits {e' : Engine} (ha : Awaits e e' k) (he : (e'.machine k).mainEnded = true) : e'.IsTrim := by
    rw [ha he] at hn
    cases hn
  have hx (hlt : k < e.machines.size) : ∃ x : Execution, e.machine k = x.machine ∧ x.IsSound := by
    obtain ⟨x, hx⟩ := h.carries hlt hk
    exact ⟨x, hx.mirrors.machine_eq, hx.sound⟩
  have ha (stamp : Instant) (round : List Job) : ({ e with stamp, round } : Engine).Accords :=
    h.accords.congr rfl rfl rfl rfl
  rcases step_cases hs with ⟨a, hactive, rfl⟩ | ⟨-, hp⟩
  · have hticked : ({ e with stamp := e.stamp + 1 } : Engine).IsRetentive w :=
      h.change (d := .step) (.aside ⟨rfl, rfl, fun _ => rfl, fun _ _ => rfl, rfl, rfl, rfl, rfl, rfl, rfl, rfl,
        rfl, fun _ h => h, fun _ h => h⟩) trivial (by rintro r ⟨⟩)
    by_cases hj : a.machine = k
    · subst hj
      exact hticked.turn_ends hactive hk hn he
    · refine waits (fun he => ?_) he
      have hclears := (stepActive_clears hticked.accords a).main k
      rw [hclears.2, replace_machine (hticked.orderly.bounded.active a hactive), if_neg hj] at he
      exact he
  · cases hp with
    | begin stamp rest j t => exact waits (begin_awaits (ha stamp rest) j t hx) he
    | tell stamp rest a =>
      exact waits (onMachine_awaits (ha stamp rest) fun _ _ => (Machine.Upholds.tell _ a.task a.ticket).mainEnded) he
    | release stamp rest served run hd =>
      refine waits (fun he => ?_) he
      obtain ⟨g, hrel⟩ := release_shape { e with stamp, round := rest, served } run
      rw [hrel] at he
      exact he
    | other hm _ =>
      refine waits (fun he => ?_) he
      rw [machine, hm] at he
      exact he

theorem meet_of_step (h : e.step = some e') : e.meet .step = e' := by
  show e.step.getD e = e'
  rw [h]
  rfl

/-- The tables of an engine agree, whatever it has been asked for and however far it has come. The runs
that it holds are those in its store, each under its own id. The bus numbers and keeps events of no others,
but for runs that have told of themselves when they were no longer held. A step lets go of ended runs only,
unless a client discards one. And if all handlers are built in and no task was cancelled, then as many ended
runs as are retained are held at most whenever the task that executes a run has just ended. -/
theorem registries_agree (settings : Settings) (registry : Registry) (provider : Option ElementProvider)
    (shared : Entries Value) (ds : List Deed) :
    let e := after ds (opened settings registry provider shared)
    (e.stored = e.runs ∧ (Entries.keys e.runs).Nodup ∧ ∀ run k, Entries.find? run e.runs = some k →
      k < e.machines.size ∧ (e.machine k).run.id = run) ∧
    (∀ run, e.Recalls run → e.Holds run ∨ Strays run ds (opened settings registry provider shared)) ∧
    ∀ e', e.step = some e' →
      (∀ r ∈ e.runs, r ∈ e'.runs ∨ (e'.machine r.2).run.status.isTerminal = true ∨ e.Discards r.1) ∧
      ∀ w : World, w.settings = settings → w.provider = provider → registry.IsBuiltin →
        (∀ d ∈ ds, d.IsCalm) → ∀ k, (e.machine k).standalone = false → (e.machine k).mainEnded = false →
          (e'.machine k).mainEnded = true → e'.endedRuns.length ≤ settings.maxRunsRetained := by
  intro e
  have hopened := opened_isOrderly settings registry provider shared
  have haccords := opened_accords settings registry provider shared
  have he : e.IsOrderly := hopened.after ds
  have ha : e.Accords := hopened.accords haccords ds
  refine ⟨⟨ha.stored, ha.runs, fun run k hf => ⟨(he.held hf).1, (he.held hf).2.1⟩⟩, fun run hr => ?_,
    fun e' hs => ⟨fun r hr => step_spares ha hs hr, fun w hsettings hprovider hb hd k hk hn hend => ?_⟩⟩
  · rcases after_recalls hopened haccords hr with hh | hs | ⟨hr, -⟩
    · exact .inl hh
    · exact .inr hs
    · rcases hr with ⟨⟨⟩⟩ | ⟨⟨⟩⟩
  · subst hsettings hprovider
    have hretentive := (opened_isRetentive (w := w) hb shared).after hd
    have hkept := (hretentive.meet (d := .step) trivial).obeys.settings
    have htrim := hretentive.step_trim hs hk hn hend
    rw [meet_of_step hs] at hkept
    rwa [IsTrim, hkept] at htrim

/-- An engine that retains no ended runs, with a run that has taken some steps. -/
def forgetful (n : Nat) : Engine :=
  after (.create Tenure.choice { id := some "r" } :: Tenure.started n)
    (opened { maxRunsRetained := 0 } [] none [])

/-- It holds no run when the run has ended. -/
theorem registries_agree_forgetful : ∃ e', (forgetful 24).step = some e' ∧
    (e'.machine 0).run.status = .completed ∧ (e'.machine 0).mainEnded = true ∧ e'.endedRuns.length ≤ 0 := by
  obtain ⟨-, -, hstep⟩ := registries_agree { maxRunsRetained := 0 } [] none []
    (.create Tenure.choice { id := some "r" } :: Tenure.started 24)
  obtain ⟨e', hs⟩ : ∃ e', (forgetful 24).step = some e' :=
    Option.isSome_iff_exists.mp (by decide +kernel)
  have hends : (e'.machine 0).run.status = .completed ∧ (e'.machine 0).mainEnded = true := by
    rw [← meet_of_step hs]
    decide +kernel
  refine ⟨e', hs, hends.1, hends.2, (hstep e' hs).2 { settings := { maxRunsRetained := 0 } } rfl rfl
    (by simp [Registry.IsBuiltin]) ?_ 0 (by decide +kernel) (by decide +kernel) hends.2⟩
  simp [Tenure.started, Deed.IsCalm]

/-- Two clients wait for the end of a run that they discard. When the first one has been served, a run is
made under the name that has become free, and started. -/
def reused : List Deed :=
  [.create Tenure.choice { id := some "r" }, .start "r", .discard "r", .discard "r"] ++
    List.replicate 14 .step ++ [.create Tenure.choice { id := some "r" }, .start "r"] ++
    List.replicate 20 .step

/-- The second client lets go of the new run, and the bus keeps the events that this one goes on to tell. -/
theorem recalls_of_reused : ¬ ∀ run, (after reused (opened {} [] none [])).Recalls run →
    (after reused (opened {} [] none [])).Holds run := by
  intro h
  have hrecalled : "r" ∈ Entries.keys (after reused (opened {} [] none [])).bus.last := by decide +kernel
  have hgone : "r" ∉ Entries.keys (after reused (opened {} [] none [])).runs := by decide +kernel
  exact hgone (h "r" (.inl hrecalled))

end Engine

end Workflow
