import Workflow.Proofs.Engine.Reflection
import Workflow.Proofs.Run.Progress
/-!
Whatever an engine does, each of its runs is an execution to which things happen: it takes its own steps,
is told of what it waits for, is granted slots, and obeys what the engine is asked for.
-/

namespace Workflow

/-- Whether something may happen to a run by a part of a deed. -/
def Happening.Suits (d : Deed) (e : Engine) (k : MachineId) : Happening → Prop
  | .step env => env = e.surroundings k
  | .command c => d.Gives e k c ∧ ∀ s, c = .start s → s = !(e.machine k).standalone
  | .interrupt => ∃ run, d = .cancelTask run ∧ Entries.find? run e.runs = some k
  | _ => True

namespace Machine

variable {m : Machine} {env : Surroundings} {t : TaskId} {c : Control} {p : List Pending}

theorem mem_slotEffects {f : Effect} : f ∈ m.slotEffects ↔ f ∈ m.effects ∧ f.isSlot = true :=
  List.mem_filter

theorem slotEffects_of_effects (he : m.effects = []) : m.slotEffects = [] := by
  rw [slotEffects, he]
  rfl

/-- A task that asks for a slot by a step waits for it then. -/
theorem turn_queues (ht : m.state? t = some .running) (he : m.effects = []) (u : TaskId) :
    let r := m.step env t c p
    .queueForSlot u ∈ (r.1.turn t r.2).1.effects → (r.1.turn t r.2).1.Queues u := by
  intro r hu
  have hu : .queueForSlot u ∈ r.1.slotEffects := by
    rw [← turn_slots r.1 t r.2]
    exact mem_slotEffects.mpr ⟨hu, rfl⟩
  have hm := slotEffects_of_effects he
  by_cases hc : c.Bargains p
  · cases c with
    | takeSlot =>
      have hs : r.1.slotEffects = _ := takeSlot_slots m env t p
      rw [hs, hm] at hu
      cases hl : env.slotsLocked with
      | false => rw [hl] at hu; simp at hu
      | true =>
        rw [hl] at hu
        have hr : r = (m.effect (.queueForSlot t), .wait .grant [] none p) := by
          show m.takeSlot env t p = _
          unfold takeSlot
          rw [if_pos hl]
        cases List.mem_singleton.mp hu
        rw [hr]
        exact ⟨_, state?_turn_wait (m := m.effect (.queueForSlot t)) ht .grant [] none p, trivial⟩
    | wake w s i =>
      cases w with
      | start a b =>
        have hs : r.1.slotEffects = _ := wakeStart_slots m env t p a b s i
        rw [hs, hm] at hu
        split at hu <;> simp at hu
      | grant =>
        have hs : r.1.effects = _ := wakeGrant_effects m env t p s i
        have hu := (mem_slotEffects.mp hu).1
        rw [hs, he] at hu
        cases i <;> cases s <;> simp at hu
      | _ => exact absurd hc id
    | answer a =>
      rcases p with _ | ⟨k, p⟩
      · exact absurd hc id
      · cases k with
        | slot held =>
          have hs : r.1.slotEffects = _ := resumeSlot_slots m env p held a
          rw [hs, hm] at hu
          cases held <;> simp at hu
        | _ => exact absurd hc id
    | _ => exact absurd hc id
  · rw [(step_abides m env t p hc).slots, hm] at hu
    cases hu

/-- A task that has been granted a slot leaves the queue before anything else. -/
theorem turn_leaves (he : m.effects = []) (s i : Bool) :
    let r := m.step env t (.wake .grant s i) p
    ∃ fs, (r.1.turn t r.2).1.effects.reverse = .leaveSlotQueue t :: fs := by
  intro r
  have hr : r.1.effects = _ := wakeGrant_effects m env t p s i
  have ht : (r.1.turn t r.2).1 = r.1 := by
    show ((m.wake env t .grant s i p).1.turn t (m.wake env t .grant s i p).2).1 = _
    unfold wake
    cases i <;> rfl
  rw [ht, hr, he, List.reverse_append, List.reverse_singleton]
  exact ⟨_, rfl⟩

end Machine

namespace Engine

open Execution

variable {d : Deed} {e e' e₁ : Engine} {j k : MachineId} {x y : Execution}

/-- The steps that a run is in the middle of. -/
def strandOf (k : MachineId) : Option Activity → Option Strand
  | some a => if a.machine = k then some ⟨a.task, a.control, a.pending⟩ else none
  | none => none

/-- An execution is what an engine makes of one of its machines. -/
structure Mirrors (e : Engine) (k : MachineId) (x : Execution) : Prop where
  machine : e.machines[k]? = some x.machine
  quiet : x.machine.effects = []
  told : ∀ {t n}, e.Pends ⟨k, t, n⟩ → x.isTold t n = true
  active : strandOf k e.active = x.active
  queued : ∀ {t}, (k, t) ∈ e.slots.queue →
    x.machine.Queues t ∨ ∃ s i p, x.active = some ⟨t, .wake .grant s i, p⟩
  running : ∀ {s}, x.active = some s → x.machine.state? s.task = some .running

theorem Mirrors.reflects (h : e.Mirrors k x) (hx : x.active = none) : e.Reflects k x where
  machine := h.machine
  quiet := h.quiet
  told := h.told
  queued hq := (h.queued hq).resolve_right fun ⟨_, _, _, hs⟩ => by rw [hx] at hs; cases hs

/-- Every machine that something regards is there. -/
structure IsBounded (e : Engine) : Prop where
  vacant : ∀ k, e.machines.size ≤ k → e.Vacant k
  active : ∀ a, e.active = some a → a.machine < e.machines.size

/-- A part of a deed is something that happens to each run, and grants of slots. The events are those
of one run. -/
def Acts (d : Deed) (e e' : Engine) : Prop :=
  ∃ j new, e'.emitted = new ++ e.emitted ∧ (new ≠ [] → j < e.machines.size) ∧
    (∀ ev ∈ new, ev.run = (e.machine j).run.id) ∧
    ∀ k x, e.Mirrors k x → ∃ hs, (∀ h ∈ hs, h.Suits d e k) ∧ e'.Mirrors k (following hs x) ∧
      (following hs x).events = x.events ++ if k = j then new.reverse.map RunEvent.bare else []

theorem Granted.following (h : x.Granted y) : ∃ hs, (∀ h ∈ hs, h.Suits d e k) ∧ y = following hs x := by
  obtain ⟨ts, rfl⟩ := h
  refine ⟨_, fun h hm => ?_, rfl⟩
  obtain ⟨t, -, rfl⟩ := List.mem_map.mp hm
  trivial

theorem events_of_log (h : y.log = x.log) : y.events = x.events := by
  rw [events, events, h]

theorem events_put (m : Machine) (s : Option Strand) :
    (x.put m s).events = x.events ++ m.effects.reverse.filterMap Effect.event? := by
  simp [events, put]

theorem events_awarded (h : x.Granted y) : y.events = x.events :=
  events_of_log h.awarded.log

/-- Nothing is emitted. -/
theorem Acts.silent (he : e'.emitted = e.emitted)
    (h : ∀ k x, e.Mirrors k x → ∃ hs, (∀ h ∈ hs, h.Suits d e k) ∧ e'.Mirrors k (following hs x) ∧
      (following hs x).events = x.events) : Acts d e e' := by
  refine ⟨0, [], he, fun h => absurd rfl h, by simp, fun k x hx => ?_⟩
  obtain ⟨hs, hsuits, hm, hev⟩ := h k x hx
  exact ⟨hs, hsuits, hm, by simpa using hev⟩

/-- Nothing happens to the runs. -/
theorem Acts.still (he : e'.emitted = e.emitted) (hm : e'.machines = e.machines)
    (hq : e'.slots.queue = e.slots.queue) (ha : e'.active = e.active)
    (hp : ∀ a, e'.Pends a → e.Pends a) : Acts d e e' :=
  .silent he fun k x hx => ⟨[], by simp, {
    machine := hm ▸ hx.machine
    quiet := hx.quiet
    told := fun h => hx.told (hp _ h)
    active := ha ▸ hx.active
    queued := fun h => hx.queued (hq ▸ h)
    running := hx.running }, rfl⟩

/-- A machine changes, and what it asks for is carried out. -/
theorem settle_acts {m₀ m : Machine} {a : Option Activity} (hm₀ : e.machines[j]? = some m₀)
    (hm : e₁.machines[j]? = some m) (hid : m.run.id = m₀.run.id)
    (others : ∀ k, k ≠ j → e₁.machines[k]? = e.machines[k]?) (hq : e₁.slots.queue = e.slots.queue)
    (hp : ∀ a, e₁.Pends a → e.Pends a) (he : e₁.emitted = e.emitted)
    (idle : ∀ k, k ≠ j → strandOf k e.active = none) (ha : ∀ b, a = some b → b.machine = j)
    (own : ∀ x, e.Mirrors j x → ∃ h : Happening, h.Suits d e j ∧ x.meet h = x.put m (strandOf j a) ∧
      (∀ u, .queueForSlot u ∈ m.effects → m.Queues u) ∧
      (∀ u, (j, u) ∈ e.slots.queue →
        m.Queues u ∨ ∃ fs, m.effects.reverse = .leaveSlotQueue u :: fs) ∧
      ∀ s, strandOf j a = some s → m.state? s.task = some .running) :
    Acts d e { e₁.settleEffects j with active := a } := by
  obtain ⟨new, hnew, hevents, hrun⟩ := settleEffects_emitted e₁ j
  rw [machine_of_getElem? hm] at hevents hrun
  refine ⟨j, new, hnew.trans (by rw [he]), fun _ => ?_, fun ev hev => ?_, fun k x hx => ?_⟩
  · exact (Array.getElem?_eq_some_iff.mp hm₀).1
  · rw [hrun ev hev, hid, machine_of_getElem? hm₀]
  · by_cases hk : k = j
    · subst hk
      obtain ⟨h, hsuits, hmeet, queues, hqueued, runs⟩ := own x hx
      obtain ⟨y, hy, hr⟩ := settleEffects_self hm (x := x) (strandOf k a) (fun hpe => hx.told (hp _ hpe))
        queues (fun u hu => hqueued u (hq ▸ hu))
      have hw := hy.awarded
      obtain ⟨hs, hgs, rfl⟩ := Granted.following (d := d) (e := e) (k := k) hy
      have hf : following (h :: hs) x = following hs (x.put m (strandOf k a)) := by
        rw [following, hmeet]
      refine ⟨h :: hs, List.forall_mem_cons.mpr ⟨hsuits, hgs⟩, ?_, ?_⟩
      · rw [hf]
        refine ⟨hr.machine, hr.quiet, hr.told, hw.active.symm, fun hu => .inl (hr.queued hu), fun {s} hs' => ?_⟩
        rw [hw.active] at hs'
        obtain ⟨s', hst, hsh⟩ := hw.upholds.old (runs s hs')
        rw [hst, hsh.running_iff.mpr rfl]
      · rw [hf, events_awarded hy, events_put, hevents, if_pos rfl]
    · have hx' : x.active = none := hx.active ▸ idle k hk
      have hr : e₁.Reflects k x := by
        have h := hx.reflects hx'
        exact ⟨(others k hk).trans h.machine, h.quiet, fun h' => h.told (hp _ h'), fun h' => h.queued (hq ▸ h')⟩
      obtain ⟨y, hy, hr⟩ := settleEffects_other (Ne.symm hk) hr
      obtain ⟨hs, hgs, rfl⟩ := Granted.following (d := d) (e := e) (k := k) hy
      have hw := hy.awarded
      refine ⟨hs, hgs, ⟨hr.machine, hr.quiet, hr.told, ?_, fun hu => .inl (hr.queued hu), ?_⟩, ?_⟩
      · show strandOf k a = _
        rw [hw.active, hx']
        cases a with
        | none => rfl
        | some b => exact if_neg fun h => hk (h.symm.trans (ha b rfl))
      · rw [hw.active, hx']
        rintro s ⟨⟩
      · rw [events_awarded hy, if_neg hk, List.append_nil]

theorem machine_of_none (h : e.machines[j]? = none) : e.machine j = default := by
  rw [machine, h]
  rfl

/-- A machine after a change to one of them. -/
theorem machine_modify (e : Engine) (j : MachineId) (f : Machine → Machine) (a : Option Activity)
    (k : MachineId) : ({ e with machines := e.machines.modify j f, active := a } : Engine).machine k =
      if j = k ∧ k < e.machines.size then f (e.machine k) else e.machine k := by
  show ((e.machines.modify j f)[k]?).getD default = _
  rw [Array.getElem?_modify, machine]
  by_cases hj : j = k
  · by_cases hk : k < e.machines.size
    · rw [if_pos hj, if_pos ⟨hj, hk⟩, Array.getElem?_eq_getElem hk]
      rfl
    · rw [if_pos hj, if_neg fun h => hk h.2, Array.getElem?_eq_none (Nat.le_of_not_lt hk)]
      rfl
  · rw [if_neg hj, if_neg fun h => hj h.1]

/-- What is asked of a machine that there is not is not done. -/
theorem onMachine_of_none (h : e.machines[j]? = none) (f : Machine → Machine) : e.onMachine j f = e := by
  have hsize : e.machines.size ≤ j := Array.getElem?_eq_none_iff.mp h
  have modify (g : Machine → Machine) : e.machines.modify j g = e.machines := by
    refine Array.ext (by simp) fun i hi _ => ?_
    rw [Array.getElem_modify, if_neg]
    rintro rfl
    exact absurd hi (by simpa using hsize)
  have he : (e.machine j).effects = [] := by
    rw [machine_of_none h]
    rfl
  unfold onMachine
  rw [modify]
  unfold settleEffects
  dsimp only
  rw [modify, he]
  rfl

/-- A machine changes while no task is in the middle of its steps. -/
theorem onMachine_acts {f : Machine → Machine} (ha : e.active = none) (hm : e₁.machines = e.machines)
    (hs : e₁.slots.queue = e.slots.queue) (ha₁ : e₁.active = none) (hp : ∀ a, e₁.Pends a → e.Pends a)
    (he : e₁.emitted = e.emitted)
    (hf : ∀ m, (f m).origin = m.origin ∧ (f m).slotEffects = m.slotEffects)
    (own : ∀ x, e.Mirrors j x → x.active = none →
      ∃ h : Happening, h.Suits d e j ∧ x.meet h = x.put (f x.machine) none ∧
        ∀ u, x.machine.Queues u → (f x.machine).Queues u) :
    Acts d e (e₁.onMachine j f) := by
  cases hj : e.machines[j]? with
  | none =>
    rw [onMachine_of_none (hm ▸ hj)]
    exact .still he hm hs (ha₁.trans ha.symm) hp
  | some m₀ =>
    have hmod (k : MachineId) : (e₁.machines.modify j f)[k]? =
        if j = k then e.machines[k]?.map f else e.machines[k]? := by
      rw [hm, Array.getElem?_modify]
    have h : Acts d e { settleEffects { e₁ with machines := e₁.machines.modify j f } j with
        active := none } := by
      refine settle_acts hj (m := f m₀) ?_ (congrArg Machine.Origin.id (hf m₀).1) (fun k hk => ?_) hs hp he
        (fun k _ => by rw [ha]; rfl) (by simp) fun x hx => ?_
      · show (e₁.machines.modify j f)[j]? = _
        rw [hmod, if_pos rfl, hj]
        rfl
      · exact (hmod k).trans (if_neg (Ne.symm hk))
      · have hx' : x.active = none := by
          rw [← hx.active, ha]
          rfl
        have hmx : m₀ = x.machine := Option.some.inj (hj.symm.trans hx.machine)
        obtain ⟨h, hsuits, hmeet, queues⟩ := own x hx hx'
        subst hmx
        refine ⟨h, hsuits, hmeet, fun u hu => ?_, fun u hu => .inl ?_, by rintro s ⟨⟩⟩
        · have hu := Machine.mem_slotEffects.mpr ⟨hu, rfl⟩
          rw [(hf _).2, Machine.slotEffects_of_effects hx.quiet] at hu
          cases hu
        · exact queues u ((hx.reflects hx').queued hu)
    have hact : (e₁.onMachine j f).active = none := (onMachine_rests e₁ j f).active.trans ha₁
    generalize hn : e₁.onMachine j f = n at hact
    have hset : settleEffects { e₁ with machines := e₁.machines.modify j f } j = n := hn
    rw [hset] at h
    cases n
    cases hact
    exact h

/-- The engine with a machine in the place of one of its own, and no task in the middle of its steps. -/
def replace (e : Engine) (j : MachineId) (m : Machine) : Engine :=
  { e with machines := (e.machines.modify j fun _ => default).modify j fun _ => m, active := none }

theorem replace_getElem? (e : Engine) (j : MachineId) (m : Machine) (k : MachineId) :
    (e.replace j m).machines[k]? = if j = k then e.machines[k]?.map fun _ => m else e.machines[k]? := by
  show ((e.machines.modify j _).modify j _)[k]? = _
  rw [Array.getElem?_modify, Array.getElem?_modify]
  split
  · rw [Option.map_map]
    rfl
  · rfl

/-- What a step of a task makes of its machine, and how the task goes on. -/
def stepped (e : Engine) (a : Activity) : Machine × Option (Control × List Pending) :=
  let r := (e.machine a.machine).step (e.surroundings a.machine) a.task a.control a.pending
  r.1.turn a.task r.2

/-- A step of a task changes its machine, and what that asks for is carried out. -/
theorem stepActive_eq (e : Engine) (a : Activity) : e.stepActive a =
    { (e.replace a.machine (e.stepped a).1).settleEffects a.machine with
      active := (e.stepped a).2.map fun (c, p) => { a with control := c, pending := p } } := by
  have hact : ((e.replace a.machine (e.stepped a).1).settleEffects a.machine).active = none :=
    (settleEffects_rests _ _).active
  unfold stepActive
  dsimp only
  split
  · rename_i c p hs
    rw [show (e.stepped a).2 = some (c, p) from hs]
    rfl
  · rename_i hs
    rw [show (e.stepped a).2 = none from hs]
    show (e.replace a.machine (e.stepped a).1).settleEffects a.machine = _
    generalize (e.replace a.machine (e.stepped a).1).settleEffects a.machine = n at hact
    cases n
    cases hact
    rfl

/-- The task in the middle of its steps takes the next one. -/
theorem stepActive_acts (hb : e.IsBounded) {a : Activity} (ha : e.active = some a) :
    Acts d e (e.stepActive a) := by
  obtain ⟨m₀, hm₀⟩ : ∃ m, e.machines[a.machine]? = some m :=
    ⟨_, Array.getElem?_eq_getElem (hb.active a ha)⟩
  have hm := machine_of_getElem? hm₀
  let r := m₀.step (e.surroundings a.machine) a.task a.control a.pending
  let m := (r.1.turn a.task r.2).1
  let next := (r.1.turn a.task r.2).2.map fun (c, p) => { a with control := c, pending := p }
  let e₁ : Engine := e.replace a.machine m
  have hstep : e.stepActive a = { e₁.settleEffects a.machine with active := next } := by
    rw [stepActive_eq, stepped, hm]
  have hnext : strandOf a.machine next =
      (r.1.turn a.task r.2).2.map fun (c, p) => ⟨a.task, c, p⟩ := by
    cases hn : (r.1.turn a.task r.2).2 with
    | none => simp only [next, hn]; rfl
    | some cp => simp only [next, hn, Option.map_some]; exact if_pos rfl
  have hmod := e.replace_getElem? a.machine m
  rw [hstep]
  refine settle_acts hm₀ (m := m) ?_ ?_ (fun k hk => ?_) rfl (fun _ h => h) rfl (fun k hk => ?_)
    (fun b hb => ?_) fun x hx => ?_
  · rw [hmod, if_pos rfl, hm₀]
    rfl
  · exact congrArg Machine.Origin.id
      ((Machine.turn_origin _ _ _).1.trans (Machine.step_upholds _ _ _ _ _).origin)
  · rw [hmod, if_neg (Ne.symm hk)]
  · rw [ha]
    exact if_neg (Ne.symm hk)
  · obtain ⟨cp, -, rfl⟩ := Option.map_eq_some_iff.mp hb
    rfl
  · cases Option.some.inj (hm₀.symm.trans hx.machine)
    have hxa : x.active = some ⟨a.task, a.control, a.pending⟩ := by
      rw [← hx.active, ha]
      exact if_pos rfl
    have hrun : x.machine.state? a.task = some .running := hx.running hxa
    refine ⟨.step (e.surroundings a.machine), rfl, ?_, Machine.turn_queues hrun hx.quiet, fun u hu => ?_,
      fun s hs => ?_⟩
    · rw [hnext]
      exact stepIn_eq hxa _
    · rcases hx.queued hu with hq | ⟨s, i, p, hs⟩
      · left
        obtain ⟨st, hst, hq'⟩ := id hq
        have hne : a.task ≠ u := by
          rintro rfl
          rw [hrun] at hst
          cases hst
          exact hq'
        obtain ⟨st', hst', hq'⟩ := hq.upholds (Machine.step_upholds _ (e.surroundings a.machine) a.task
          a.pending a.control)
        exact ⟨st', (Machine.state?_turn_other _ hne).trans hst', hq'⟩
      · right
        rw [hxa] at hs
        obtain ⟨t, c, q⟩ := a
        cases hs
        exact Machine.turn_leaves hx.quiet s i
    · rw [hnext] at hs
      obtain ⟨⟨c, p⟩, hcp, rfl⟩ := Option.map_eq_some_iff.mp hs
      have hgo : m = r.1 := by
        show (r.1.turn a.task r.2).1 = r.1
        generalize r.2 = turn at hcp
        cases turn with
        | go c p => rfl
        | wait w on limit p => cases limit <;> cases hcp
        | pass p => cases hcp
        | stop a => cases hcp
      rw [hgo]
      exact Machine.step_running _ _ _ _ hrun _

theorem put_self (hq : x.machine.effects = []) (ha : x.active = none) :
    x.put x.machine none = x := by
  obtain ⟨m, a, l⟩ := x
  cases ha
  rw [put, hq]
  cases m
  cases hq
  rfl

/-- A task is told of what it waits for. -/
theorem tell_acts {a : Alarm} {rest : List Job} (ha : e.active = none) (hr : e.round = .tell a :: rest) :
    Acts d e ({ e with round := rest }.onMachine a.machine (·.tell a.task a.ticket)) := by
  refine onMachine_acts ha rfl rfl ha (fun b hb => ?_) rfl (fun m => ?_) fun x hx hxa => ?_
  · rcases hb with hb | hb
    · exact .inl (hr ▸ List.mem_cons_of_mem _ hb)
    · exact .inr hb
  · refine ⟨(Machine.Upholds.tell m a.task a.ticket).origin, ?_⟩
    unfold Machine.tell
    split
    · split
      · exact Machine.slotEffects_signal _ _
      · rfl
    · rfl
  · refine ⟨.tell a.task a.ticket, trivial, ?_, fun u hu => hu.upholds (.tell _ _ _)⟩
    have htold : x.isTold a.task a.ticket = true := hx.told (.inl (hr ▸ List.mem_cons_self))
    show (if x.allows (.tell a.task a.ticket) then x.put (x.machine.tell a.task a.ticket) none else x) = _
    split
    · rfl
    · rename_i hn
      have hm : x.machine.tell a.task a.ticket = x.machine := by
        unfold Machine.tell
        split
        · rename_i w n hs
          refine if_neg fun hwn => hn ?_
          simp [allows, isIdle, hxa, htold, hs, beq_iff_eq.mp hwn]
        · rfl
      rw [hm]
      exact (put_self hx.quiet hxa).symm

/-- What a task that is ready begins with. -/
inductive Opens : TaskState → Control → Prop
  | fresh (c : Control) : Opens (.fresh c false) c
  | woken (w : Wait) (s i : Bool) : Opens (.woken w s i) (.wake w s i)

theorem begin_of_opens {task : Task} {c : Control} {t : TaskId} (hx : x.active = none)
    (ht : x.machine.task? t = some task) (hc : Opens task.state c) :
    x.meet (.begin t) =
      { x with machine := x.machine.setState t .running, active := some ⟨t, c, task.pending⟩ } := by
  have hs : x.machine.state? t = some task.state := congrArg (Option.map Task.state) ht
  show (if x.allows (.begin t) then x.begin t else x) = _
  rw [if_pos]
  · unfold Execution.begin
    rw [ht]
    obtain ⟨st, p, o⟩ := task
    cases hc <;> rfl
  · simp only [allows, isIdle, hx, hs]
    obtain ⟨st, p, o⟩ := task
    cases hc <;> rfl

/-- A task begins with its steps. -/
theorem go_acts {task : Task} {c : Control} {t : TaskId} (ha : e.active = none)
    (ht : (e.machine k).task? t = some task) (hc : Opens task.state c)
    (hm : e₁.machines = e.machines.modify k (·.setState t .running))
    (ha₁ : e₁.active = some ⟨k, t, c, task.pending⟩) (hq : e₁.slots.queue = e.slots.queue)
    (hp : ∀ a, e₁.Pends a → e.Pends a) (he : e₁.emitted = e.emitted) : Acts d e e₁ := by
  refine .silent he fun i x hx => ?_
  have hxa : x.active = none := by
    rw [← hx.active, ha]
    rfl
  have hr := hx.reflects hxa
  by_cases hi : i = k
  · subst hi
    rw [hr.machine_eq] at ht
    have hs : x.machine.state? t = some task.state := congrArg (Option.map Task.state) ht
    refine ⟨[.begin t], List.forall_mem_singleton.mpr trivial, ?_, ?_⟩
    · rw [following, begin_of_opens hxa ht hc]
      refine ⟨?_, hr.quiet, fun h => hr.told (hp _ h), ?_, fun {u} hu => ?_, fun {s} hs' => ?_⟩
      · rw [hm, Array.getElem?_modify, if_pos rfl, hr.machine]
        rfl
      · rw [ha₁]
        exact if_pos rfl
      · obtain ⟨st, hst, hqs⟩ := hr.queued (hq ▸ hu)
        by_cases htu : t = u
        · subst htu
          rw [hs] at hst
          cases hst
          right
          obtain ⟨st, p, o⟩ := task
          cases hc with
          | fresh => exact absurd hqs id
          | woken w s i =>
            cases w with
            | grant => exact ⟨s, i, p, rfl⟩
            | _ => exact absurd hqs id
        · left
          refine ⟨st, ?_, hqs⟩
          show (x.machine.setState t .running).state? u = _
          rw [Machine.state?_setState, if_neg htu]
          exact hst
      · cases hs'
        show (x.machine.setState t .running).state? t = _
        rw [Machine.state?_setState, if_pos rfl, hs]
        rfl
    · rw [following, begin_of_opens hxa ht hc]
      rfl
  · refine ⟨[], by simp, ?_, rfl⟩
    refine ⟨?_, hr.quiet, fun h => hr.told (hp _ h), ?_, fun hu => .inl (hr.queued (hq ▸ hu)), hx.running⟩
    · rw [hm, Array.getElem?_modify, if_neg (Ne.symm hi)]
      exact hr.machine
    · rw [ha₁]
      exact (if_neg (Ne.symm hi)).trans hxa.symm

theorem begin_acts {t : TaskId} {rest : List Job} (ha : e.active = none)
    (hr : e.round = .step k t :: rest) : Acts d e ({ e with round := rest }.begin k t) := by
  have hp : ∀ a, ({ e with round := rest } : Engine).Pends a → e.Pends a := by
    rintro a (h | h)
    · exact .inl (hr ▸ List.mem_cons_of_mem _ h)
    · exact .inr h
  have still : Acts d e { e with round := rest } := .still rfl rfl rfl rfl hp
  unfold Engine.begin
  dsimp only
  split
  · exact still
  · rename_i task ht
    have ht : (e.machine k).task? t = some task := ht
    split
    · rename_i c i hs
      split
      · rename_i hi
        refine onMachine_acts ha rfl rfl ha hp rfl (fun m => ?_) fun x hx hxa => ?_
        · exact ⟨(Machine.turn_origin m t (.stop .interrupted)).1, Machine.turn_slots m t (.stop .interrupted)⟩
        · rw [(hx.reflects hxa).machine_eq] at ht
          have hst : x.machine.state? t = some task.state := congrArg (Option.map Task.state) ht
          refine ⟨.begin t, trivial, ?_, fun u hu => ?_⟩
          · show (if x.allows (.begin t) then x.begin t else x) = _
            rw [if_pos]
            · unfold Execution.begin
              rw [ht]
              dsimp only
              rw [hs, hi]
              rfl
            · simp only [allows, isIdle, hxa, hst, hs]
              rfl
          · obtain ⟨st, hu, hq⟩ := hu
            refine ⟨st, ?_, hq⟩
            rw [Machine.state?_finish, if_neg]
            · exact hu
            · rintro rfl
              rw [hst, hs] at hu
              cases hu
              exact hq
      · rename_i hi
        have hopen : Opens task.state c := by
          rw [hs, Bool.eq_false_iff.mpr hi]
          exact .fresh c
        exact go_acts ha ht hopen rfl rfl rfl hp rfl
    · rename_i w s i hs
      have hopen : Opens task.state (.wake w s i) := by
        rw [hs]
        exact .woken w s i
      exact go_acts ha ht hopen rfl rfl rfl hp rfl
    · exact still

theorem addMachine_acts (e : Engine) (m : Machine) : Acts d e (e.addMachine m).1 := by
  refine .silent rfl fun k x hx => ⟨[], by simp, ?_, rfl⟩
  refine ⟨?_, hx.quiet, hx.told, hx.active, hx.queued, hx.running⟩
  show (e.machines.push m)[k]? = _
  have hk := (Array.getElem?_eq_some_iff.mp hx.machine).1
  rw [Array.getElem?_push, if_neg (Nat.ne_of_lt hk)]
  exact hx.machine

theorem command_acts (c : Command) (ha : e.active = none) (hk : d.Gives e k c)
    (hs : ∀ s, c = .start s → s = !(e.machine k).standalone) :
    Acts d e (e.onMachine k fun m => (m.obey c).1) := by
  refine onMachine_acts ha rfl rfl ha (fun _ h => h) rfl (fun m => ?_) fun x hx hxa => ?_
  · exact ⟨Machine.obey_origin m c, Machine.obey_slots m c⟩
  · refine ⟨.command c, ⟨hk, hs⟩, ?_, fun u hu => ?_⟩
    · show x.obey c = _
      unfold obey
      rw [if_pos (by simp [isIdle, hxa])]
    · cases c with
      | start s =>
        obtain ⟨st, hst, hq⟩ := hu.upholds (Machine.start_upholds x.machine s)
        exact ⟨st, hst, hq⟩
      | _ => exact hu.upholds (Machine.obey_abides x.machine (by simp)).toUpholds

theorem interrupt_acts {run : String} (ha : e.active = none) (hd : d = .cancelTask run)
    (hk : Entries.find? run e.runs = some k) : Acts d e (e.onMachine k Machine.interruptMain) := by
  refine onMachine_acts ha rfl rfl ha (fun _ h => h) rfl (fun m => ?_) fun x hx hxa => ?_
  · have h := Machine.interruptMain_abides m
    exact ⟨h.origin, h.slots⟩
  · refine ⟨.interrupt, ⟨run, hd, hk⟩, ?_, fun u hu => ?_⟩
    · show (if x.isIdle then x.put x.machine.interruptMain none else x) = _
      rw [if_pos (by simp [isIdle, hxa])]
    · exact hu.upholds (Machine.interruptMain_abides x.machine).toUpholds

/-- Every part of a deed is something that happens to each run. -/
theorem Change.acts (h : Change d e e') (hb : e.IsBounded) : Acts d e e' := by
  cases h with
  | aside h => exact .still h.emitted h.machines (by rw [h.slots]) h.active h.pends
  | turn ha => exact stepActive_acts hb ha
  | begin ha hr => exact begin_acts ha hr
  | tell ha hr => exact tell_acts ha hr
  | command c ha hk hs => exact command_acts c ha hk hs
  | interrupt ha hd hk => exact interrupt_acts ha hd hk
  | release run =>
    obtain ⟨g, h⟩ := release_shape e run
    rw [h]
    exact .still rfl rfl rfl rfl fun _ h => h
  | make hd id f vars breakpoints pauses hf => exact addMachine_acts e _
  | makeStandalone hd id f vars breakpoints pauses => exact addMachine_acts e _
  | attach hd ho hk =>
    obtain ⟨g, ps, h⟩ := Debugger.openSession_sameRuns _ _ e
    rw [h]
    exact .still rfl rfl rfl rfl fun _ h => h
  | @detach given hd ho =>
    obtain ⟨g, ps, h⟩ := Debugger.dropRetired_sameRuns (given.field "runId").name
      (Debugger.tellState (given.field "runId").name (Debugger.closeSession (given.field "runId").name e))
    rw [h]
    exact .still rfl rfl rfl rfl fun _ h => h
  | observers => exact .still rfl rfl rfl rfl fun _ h => h
  | close hd => exact .still rfl rfl rfl rfl fun _ h => h

/-! Machines that there are not yet. -/

theorem Vacant.of_eq (h : e.Vacant k) (hq : e'.slots.queue = e.slots.queue)
    (hp : ∀ a, e'.Pends a → e.Pends a) : e'.Vacant k where
  pends t n h' := h.pends t n (hp _ h')
  queue t h' := h.queue t (hq ▸ h')

theorem IsBounded.of_eq (h : e.IsBounded) (hm : e.machines.size ≤ e'.machines.size)
    (ha : e'.active = e.active) (hq : e'.slots.queue = e.slots.queue)
    (hp : ∀ a, e'.Pends a → e.Pends a) : e'.IsBounded where
  vacant k hk := (h.vacant k (Nat.le_trans hm hk)).of_eq hq hp
  active a h' := Nat.lt_of_lt_of_le (h.active a (ha ▸ h')) hm

/-- What a machine asks for is carried out. -/
theorem IsBounded.settle (h : e.IsBounded) (hj : j < e.machines.size) {a : Option Activity}
    (ha : ∀ b, a = some b → b.machine = j) : IsBounded { e.settleEffects j with active := a } where
  vacant k hk := by
    have hk : e.machines.size ≤ k := (settleEffects_rests e j).size ▸ hk
    have hkj : k ≠ j := fun h => absurd hj (Nat.not_lt.mpr (h ▸ hk))
    have hv := settleEffects_vacant hkj (h.vacant k hk)
    exact ⟨hv.pends, hv.queue⟩
  active b hb := by
    show b.machine < (e.settleEffects j).machines.size
    rw [ha b hb, (settleEffects_rests e j).size]
    exact hj

theorem IsBounded.onMachine (h : e.IsBounded) (ha : e.active = none) (k : MachineId)
    (f : Machine → Machine) : (e.onMachine k f).IsBounded := by
  by_cases hk : k < e.machines.size
  · have h₁ : IsBounded { e with machines := e.machines.modify k f } :=
      h.of_eq (by simp) rfl rfl fun _ h => h
    have hs := h₁.settle (j := k) (by simpa using hk) (a := none) (by simp)
    have hact : (e.onMachine k f).active = none := (onMachine_rests e k f).active.trans ha
    exact hs.of_eq (Nat.le_refl _) hact rfl fun _ h => h
  · rw [onMachine_of_none (Array.getElem?_eq_none_iff.mpr (Nat.le_of_not_lt hk))]
    exact h

theorem IsBounded.stepActive (h : e.IsBounded) {a : Activity} (ha : e.active = some a) :
    (e.stepActive a).IsBounded := by
  have hlt := h.active a ha
  have h₁ (m : Machine) : IsBounded { e with
      machines := (e.machines.modify a.machine fun _ => default).modify a.machine fun _ => m
      active := none } :=
    ⟨fun k hk => (h.vacant k (by simpa using hk)).of_eq rfl fun _ h => h, by simp⟩
  unfold Engine.stepActive
  dsimp only
  split
  · rename_i c p hc
    exact (h₁ _).settle (by simpa using hlt) (a := some { a with control := c, pending := p })
      (by simp)
  · refine ((h₁ _).settle (by simpa using hlt) (a := none) (by simp)).of_eq (Nat.le_refl _) ?_ rfl
      fun _ h => h
    exact (settleEffects_rests _ _).active

theorem begin_isBounded (h : e.IsBounded) (ha : e.active = none) {t : TaskId} :
    (e.begin k t).IsBounded := by
  have goes (task : Task) (ht : (e.machine k).task? t = some task) (c : Control) : IsBounded { e with
      machines := e.machines.modify k (·.setState t .running)
      active := some ⟨k, t, c, task.pending⟩ } := by
    refine ⟨fun i hi => (h.vacant i (by simpa using hi)).of_eq rfl fun _ h => h, ?_⟩
    rintro a ⟨⟩
    show k < (e.machines.modify k _).size
    rw [Array.size_modify]
    by_contra hk
    rw [machine_of_none (Array.getElem?_eq_none_iff.mpr (Nat.le_of_not_lt hk))] at ht
    cases ht
  unfold Engine.begin
  dsimp only
  split
  · exact h
  · rename_i task ht
    split
    · split
      · exact h.onMachine ha _ _
      · exact goes task ht _
    · exact goes task ht _
    · exact h

theorem Change.isBounded (h : Change d e e') (hb : e.IsBounded) : e'.IsBounded := by
  have popped {j : Job} {rest : List Job} (hr : e.round = j :: rest) :
      IsBounded { e with round := rest } := by
    refine hb.of_eq (Nat.le_refl _) rfl rfl ?_
    rintro a (h | h)
    · exact .inl (hr ▸ List.mem_cons_of_mem _ h)
    · exact .inr h
  have same {b : Bus Listener} {g : Debugger} {r s : Entries MachineId} {ps : List (Nat × Push)} :
      IsBounded { e with bus := b, debugger := g, runs := r, stored := s, pushed := ps } :=
    hb.of_eq (Nat.le_refl _) rfl rfl fun _ h => h
  have added (m : Machine) : (e.addMachine m).1.IsBounded := by
    refine hb.of_eq ?_ rfl rfl fun _ h => h
    show _ ≤ (e.machines.push m).size
    simp
  cases h with
  | aside h => exact hb.of_eq (Nat.le_of_eq (by rw [h.machines])) h.active (by rw [h.slots]) h.pends
  | turn ha => exact hb.stepActive ha
  | begin ha hr => exact begin_isBounded (popped hr) ha
  | tell ha hr => exact (popped hr).onMachine ha _ _
  | command c ha hk hs => exact hb.onMachine ha _ _
  | interrupt ha hd hk => exact hb.onMachine ha _ _
  | release run =>
    obtain ⟨g, h⟩ := release_shape e run
    rw [h]
    exact same
  | make hd id f vars breakpoints pauses hf => exact added _
  | makeStandalone hd id f vars breakpoints pauses => exact added _
  | attach hd ho hk =>
    obtain ⟨g, ps, h⟩ := Debugger.openSession_sameRuns _ _ e
    rw [h]
    exact same
  | @detach given hd ho =>
    obtain ⟨g, ps, h⟩ := Debugger.dropRetired_sameRuns (given.field "runId").name
      (Debugger.tellState (given.field "runId").name (Debugger.closeSession (given.field "runId").name e))
    rw [h]
    exact same
  | observers => exact same
  | close hd => exact same

end Engine

end Workflow
