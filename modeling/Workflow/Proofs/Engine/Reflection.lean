import Workflow.Proofs.Engine.Change
import Workflow.Proofs.Run.Happening
import Workflow.Proofs.Run.Upholding
/-!
An engine carries out what one of its runs asks for. No other run notices, but that a slot may be
granted to it.
-/

namespace Workflow

namespace TaskState

/-- A task waits for a slot or has just stopped to. -/
def Queues : TaskState → Prop
  | .waiting .grant _ | .woken .grant _ _ => True
  | _ => False

theorem Queues.shifts {s s' : TaskState} (h : s.Queues) (k : Shifts s s') : s'.Queues := by
  induction k with
  | refl => exact h
  | signal _ ih | interrupt _ ih =>
    rename_i s' _
    rcases s' with _ | _ | ⟨_ | _ | _ | _ | _ | _ | _ | _ | _ | _, _⟩ |
      ⟨_ | _ | _ | _ | _ | _ | _ | _ | _ | _, _, _⟩ | _ <;>
      first | exact trivial | exact absurd ih id
  | handOn _ ih => exact absurd ih id

end TaskState

namespace Machine

def Queues (m : Machine) (t : TaskId) : Prop :=
  ∃ s, m.state? t = some s ∧ s.Queues

variable {m n : Machine} {t : TaskId}

theorem Queues.upholds (h : m.Queues t) (k : Upholds m n) : n.Queues t := by
  obtain ⟨s, hs, hq⟩ := h
  obtain ⟨s', hs', hk⟩ := k.old hs
  exact ⟨s', hs', hq.shifts hk⟩

theorem Queues.grant {w : Wait} {k : Nat} (h : m.Queues t) (hs : m.state? t = some (.waiting w k)) :
    w = .grant := by
  obtain ⟨s, hs', hq⟩ := h
  rw [hs] at hs'
  cases hs'
  cases w <;> first | rfl | exact absurd hq id

end Machine

namespace Execution

variable {x y z : Execution} {t : TaskId}

/-- Some slots are granted. -/
def Granted (x y : Execution) : Prop :=
  ∃ ts : List TaskId, y = following (ts.map .grant) x

theorem Granted.refl (x : Execution) : Granted x x :=
  ⟨[], rfl⟩

theorem Granted.trans (h : Granted x y) (k : Granted y z) : Granted x z := by
  obtain ⟨ts, rfl⟩ := h
  obtain ⟨us, rfl⟩ := k
  exact ⟨ts ++ us, by rw [List.map_append, following_append]⟩

/-- What being granted a slot leaves alone. -/
structure Awarded (x y : Execution) : Prop where
  upholds : x.machine.Upholds y.machine
  run : y.machine.run = x.machine.run
  layers : y.machine.layers = x.machine.layers
  effects : y.machine.effects = x.machine.effects
  active : y.active = x.active
  log : y.log = x.log

theorem Granted.awarded (h : Granted x y) : Awarded x y := by
  obtain ⟨ts, rfl⟩ := h
  induction ts generalizing x with
  | nil => exact ⟨.refl _, rfl, rfl, rfl, rfl, rfl⟩
  | cons t ts ih =>
    rw [List.map_cons, following]
    have h : Awarded x (x.meet (.grant t)) := by
      show Awarded x (if x.allows (.grant t) then x.grant t else x)
      split
      · rename_i ha
        obtain ⟨k, hk⟩ := allows_grant.mp ha
        exact ⟨.setState hk (.signal (.refl _)), rfl, rfl, rfl, rfl, rfl⟩
      · exact ⟨.refl _, rfl, rfl, rfl, rfl, rfl⟩
    have k := ih (x := x.meet (.grant t))
    exact ⟨h.upholds.trans k.upholds, k.run.trans h.run, k.layers.trans h.layers,
      k.effects.trans h.effects, k.active.trans h.active, k.log.trans h.log⟩

end Execution

/-- The type and the payload of an event. -/
def RunEvent.bare (ev : RunEvent) : String × Entries Value :=
  (ev.type, ev.payload)

namespace Engine

open Execution

variable {e e' : Engine} {j k : MachineId} {x y : Execution} {f : Effect}

/-- An engine has a machine as it is in an execution; the steps in progress are left open. -/
structure Reflects (e : Engine) (k : MachineId) (x : Execution) : Prop where
  machine : e.machines[k]? = some x.machine
  quiet : x.machine.effects = []
  told : ∀ {t n}, e.Pends ⟨k, t, n⟩ → x.isTold t n = true
  queued : ∀ {t}, (k, t) ∈ e.slots.queue → x.machine.Queues t

theorem machine_of_getElem? {m : Machine} (h : e.machines[k]? = some m) : e.machine k = m := by
  rw [machine, h]
  rfl

theorem Reflects.machine_eq (h : e.Reflects k x) : e.machine k = x.machine :=
  machine_of_getElem? h.machine

/-- What runs do not notice. -/
structure Unnoticed (e e' : Engine) : Prop where
  machines : e'.machines = e.machines
  queue : e'.slots.queue = e.slots.queue
  pends : ∀ a, e'.Pends a → e.Pends a

/-! What the engine does for a run. -/

theorem emit_shape (e : Engine) (k : MachineId) (type : String) (payload : Entries Value)
    (view : RunView) :
    let told := e.bus.emit e.now (e.machine k).run.id type payload
    ∃ debugger pushed, e.emit k type payload view =
      { e with bus := told.1, debugger, pushed, emitted := told.2.1 :: e.emitted } := by
  have told (ls : List Listener) (event : RunEvent) (run : String) (e : Engine) :
      ∃ debugger pushed, ls.foldl (fun e (_ : Listener) =>
        { e with debugger := (e.debugger.observe event (e.viewOf run k view)).1 }.push
          (e.debugger.observe event (e.viewOf run k view)).2) e = { e with debugger, pushed } := by
    induction ls generalizing e with
    | nil => exact ⟨_, _, rfl⟩
    | cons l ls ih =>
      obtain ⟨d, p, h⟩ := ih _
      exact ⟨d, p, h⟩
  unfold emit
  dsimp only
  exact told _ _ _ _

theorem forget_shape (e : Engine) (run : String) :
    ∃ debugger, e.forget run = { e with bus := (e.bus.forget run).1, debugger } := by
  have told (ls : List Listener) (e : Engine) : ∃ debugger,
      ls.foldl (fun e (_ : Listener) => { e with debugger := e.debugger.forget run }) e =
        { e with debugger } := by
    induction ls generalizing e with
    | nil => exact ⟨_, rfl⟩
    | cons l ls ih =>
      obtain ⟨d, h⟩ := ih _
      exact ⟨d, h⟩
  exact told _ _

theorem release_shape (e : Engine) (run : String) :
    ∃ debugger, e.release run = { e with
      runs := Entries.erase run e.runs, stored := Entries.erase run e.stored
      bus := (e.bus.forget run).1, debugger } :=
  forget_shape
    { e with runs := Entries.erase run e.runs, stored := Entries.erase run e.stored } run

theorem prune_shape (e : Engine) :
    ∃ runs stored bus debugger, e.prune = { e with runs, stored, bus, debugger } := by
  have gone (ids : List String) (e : Engine) : ∃ runs stored bus debugger,
      ids.foldl release e = { e with runs, stored, bus, debugger } := by
    induction ids generalizing e with
    | nil => exact ⟨_, _, _, _, rfl⟩
    | cons id ids ih =>
      obtain ⟨d, h⟩ := release_shape e id
      obtain ⟨r', s', b', d', h'⟩ := ih (e.release id)
      rw [h] at h'
      exact ⟨r', s', b', d', by rw [List.foldl_cons, h]; exact h'⟩
  exact gone _ e

theorem ended_shape (e : Engine) (k : MachineId) (t : TaskId) : ∃ clients later,
    e.ended k t = { e with clients, later } ∧ ∀ a, .tell a ∈ later → .tell a ∈ e.later := by
  have queued (cs : List Client) (e : Engine) : ∃ later,
      cs.foldl (fun e c => e.queue (.client c 2)) e = { e with later } ∧
        ∀ a, .tell a ∈ later → .tell a ∈ e.later := by
    induction cs generalizing e with
    | nil => exact ⟨_, rfl, fun _ h => h⟩
    | cons c cs ih =>
      obtain ⟨l, h, hl⟩ := ih (e.queue (.client c 2))
      exact ⟨l, h, fun a ha => (List.mem_cons.mp (hl a ha)).resolve_left (by simp)⟩
  unfold ended
  split
  · obtain ⟨l, h, hl⟩ := queued _ { e with clients := (e.clients.partition (·.machine == k)).2 }
    exact ⟨_, l, h, hl⟩
  · exact ⟨_, _, rfl, fun _ h => h⟩

/-- What one effect of a run does to the runs. -/
structure Noticed (j : MachineId) (f : Effect) (e e' : Engine) : Prop where
  machines : ∀ k, e'.machines[k]? = e.machines[k]? ∨ ∃ m t w n, (k, t) ∈ e.slots.queue ∧
    e.machines[k]? = some m ∧ m.state? t = some (.waiting w n) ∧
      e'.machines[k]? = some (m.setState t (.woken w true false))
  queue : ∀ k t, (k, t) ∈ e'.slots.queue → (k, t) ∈ e.slots.queue ∨ k = j ∧ f = .queueForSlot t
  pends : ∀ k t n, e'.Pends ⟨k, t, n⟩ → e.Pends ⟨k, t, n⟩ ∨ k = j ∧ f.tells t n = true

theorem Unnoticed.noticed (h : Unnoticed e e') : Noticed j f e e' where
  machines k := .inl (by rw [h.machines])
  queue k t hq := .inl (h.queue ▸ hq)
  pends k t n hp := .inl (h.pends _ hp)

theorem Unnoticed.of_shape (h : e'.machines = e.machines) (hs : e'.slots.queue = e.slots.queue)
    (hr : e'.round = e.round) (hl : ∀ a, .tell a ∈ e'.later → .tell a ∈ e.later)
    (ht : e'.timers = e.timers) : Unnoticed e e' where
  machines := h
  queue := hs
  pends := by
    rintro a (ha | ha | ha)
    · exact .inl (hr ▸ ha)
    · exact .inr (.inl (hl a ha))
    · exact .inr (.inr (ht ▸ ha))

theorem promiseSlot_noticed (e : Engine) : Noticed j f e e.promiseSlot := by
  unfold promiseSlot
  split
  · exact Unnoticed.noticed ⟨rfl, rfl, fun _ h => h⟩
  · rename_i i u hf
    refine ⟨fun k => ?_, fun k t hq => .inl hq, fun k t n hp => .inl ?_⟩
    · have hm : (i, u) ∈ e.slots.queue := List.mem_of_find?_eq_some hf
      have hw : e.isWaiting (i, u) = true := List.find?_some hf
      show (e.machines.modify i _)[k]? = _ ∨ _
      by_cases hik : i = k
      · subst hik
        rw [Array.getElem?_modify, if_pos rfl]
        cases hi : e.machines[i]? with
        | none => exact .inl rfl
        | some m =>
          unfold isWaiting at hw
          rw [machine_of_getElem? hi] at hw
          dsimp only at hw
          split at hw
          · rename_i w n hs
            refine .inr ⟨m, u, w, n, hm, rfl, hs, ?_⟩
            show (e.machines.modify i _)[i]? = _
            rw [Array.getElem?_modify, if_pos rfl, hi, Option.map_some, hs]
          · cases hw
      · exact .inl (by rw [Array.getElem?_modify, if_neg hik])
    · rcases hp with hp | hp | hp
      · exact .inl hp
      · exact .inr (.inl ((List.mem_cons.mp hp).resolve_left (by simp)))
      · exact .inr (.inr hp)

theorem apply_noticed (j : MachineId) (e : Engine) (f : Effect) : Noticed j f e (apply j e f) := by
  have plain {e' : Engine} (h : Unnoticed e e') : Noticed j f e e' := h.noticed
  cases f with
  | emit type payload view =>
    obtain ⟨d, p, h⟩ := emit_shape e j type payload view
    refine plain ?_
    show Unnoticed e (e.emit j type payload view)
    rw [h]
    exact .of_shape rfl rfl rfl (fun _ h => h) rfl
  | ready t =>
    exact plain (.of_shape rfl rfl rfl (fun a ha => (List.mem_cons.mp ha).resolve_left (by simp)) rfl)
  | tell t n =>
    refine ⟨fun k => .inl rfl, fun k u hq => .inl hq, fun k u i hp => ?_⟩
    rcases hp with hp | hp | hp
    · exact .inl (.inl hp)
    · rcases List.mem_cons.mp hp with hp | hp
      · cases hp
        exact .inr ⟨rfl, by simp [Effect.tells]⟩
      · exact .inl (.inr (.inl hp))
    · exact .inl (.inr (.inr hp))
  | startTimer t n after =>
    refine ⟨fun k => .inl rfl, fun k u hq => .inl hq, fun k u i hp => ?_⟩
    rcases hp with hp | hp | ⟨a, ha, hp⟩
    · exact .inl (.inl hp)
    · exact .inl (.inr (.inl hp))
    · rcases Timers.mem_start ha with ha | rfl
      · exact .inl (.inr (.inr ⟨a, ha, hp⟩))
      · cases hp
        exact .inr ⟨rfl, by simp [Effect.tells]⟩
  | stopTimer t =>
    refine ⟨fun k => .inl rfl, fun k u hq => .inl hq, fun k u i hp => .inl ?_⟩
    rcases hp with hp | hp | ⟨a, ha, hp⟩
    · exact .inl hp
    · exact .inr (.inl hp)
    · have ha : a ∈ e.timers.stop fun b => b.machine == j && b.task == t := ha
      obtain ⟨b, hb, hba⟩ := Timers.mem_stop ha
      exact .inr (.inr ⟨b, hb, hba.trans hp⟩)
  | takeSlot => exact plain (.of_shape rfl rfl rfl (fun _ h => h) rfl)
  | queueForSlot t =>
    refine ⟨fun k => .inl rfl, fun k u hq => ?_, fun k u i hp => .inl hp⟩
    rcases List.mem_append.mp hq with hq | hq
    · exact .inl hq
    · cases List.mem_singleton.mp hq
      exact .inr ⟨rfl, rfl⟩
  | leaveSlotQueue t =>
    exact ⟨fun k => .inl rfl, fun k u hq => .inl (List.mem_filter.mp hq).1, fun k u i hp => .inl hp⟩
  | giveSlotBack =>
    have h : Noticed j .giveSlotBack { e with slots := { e.slots with free := e.slots.free + 1 } }
        e.giveSlotBack := promiseSlot_noticed _
    exact ⟨h.machines, h.queue, h.pends⟩
  | passSlotOn =>
    show Noticed j _ e (if e.slots.free > 0 then e.promiseSlot else e)
    split
    · exact promiseSlot_noticed e
    · exact plain ⟨rfl, rfl, fun _ h => h⟩
  | note c => cases c <;> exact plain (.of_shape rfl rfl rfl (fun _ h => h) rfl)
  | prune =>
    obtain ⟨r, s, b, d, h⟩ := prune_shape e
    refine plain ?_
    show Unnoticed e e.prune
    rw [h]
    exact .of_shape rfl rfl rfl (fun _ h => h) rfl
  | ended t =>
    obtain ⟨c, l, h, hl⟩ := ended_shape e j t
    refine plain ?_
    show Unnoticed e (e.ended j t)
    rw [h]
    exact .of_shape rfl rfl rfl hl rfl

/-! What a run notices. -/

theorem Noticed.reflects (n : Noticed j f e e') (h : e.Reflects k x)
    (hq : k = j → ∀ t, f = .queueForSlot t → x.machine.Queues t)
    (ht : k = j → ∀ t i, f.tells t i = true → x.isTold t i = true) :
    ∃ y, x.Granted y ∧ e'.Reflects k y := by
  have told {t i} (hp : e'.Pends ⟨k, t, i⟩) : x.isTold t i = true :=
    (n.pends k t i hp).elim (h.told ·) fun ⟨hj, hf⟩ => ht hj t i hf
  have queued {t} (hm : (k, t) ∈ e'.slots.queue) : x.machine.Queues t :=
    (n.queue k t hm).elim (h.queued ·) fun ⟨hj, hf⟩ => hq hj t hf
  rcases n.machines k with hm | ⟨m, t, w, i, ht, hm, hs, hm'⟩
  · exact ⟨x, .refl x, hm.trans h.machine, h.quiet, told, queued⟩
  · rw [h.machine] at hm
    cases hm
    cases (h.queued ht).grant hs
    have hg : x.Granted (x.grant t) := by
      refine ⟨[t], ?_⟩
      show _ = if x.allows (.grant t) = true then x.grant t else x
      rw [if_pos (allows_grant.mpr ⟨i, hs⟩)]
    have ha := hg.awarded
    refine ⟨_, hg, hm', ha.effects.trans h.quiet, fun hp => ?_, fun hq => (queued hq).upholds ha.upholds⟩
    rw [isTold, ha.log]
    exact told hp

/-- The effects of a run, one after the other. -/
theorem foldl_apply_reflects (fs : List Effect) (h : e.Reflects k x)
    (hq : k = j → ∀ t, .queueForSlot t ∈ fs → x.machine.Queues t)
    (ht : k = j → ∀ f ∈ fs, ∀ t i, f.tells t i = true → x.isTold t i = true) :
    ∃ y, x.Granted y ∧ (fs.foldl (apply j) e).Reflects k y := by
  induction fs generalizing e x with
  | nil => exact ⟨x, .refl x, h⟩
  | cons f fs ih =>
    obtain ⟨y, hy, hr⟩ := (apply_noticed j e f).reflects h
      (fun hj t hf => hq hj t (hf ▸ List.mem_cons_self)) (fun hj => ht hj f List.mem_cons_self)
    have ha := hy.awarded
    obtain ⟨z, hz, hr⟩ := ih hr
      (fun hj t hm => (hq hj t (List.mem_cons_of_mem _ hm)).upholds ha.upholds)
      (fun hj g hg t i hi => by rw [isTold, ha.log]; exact ht hj g (List.mem_cons_of_mem _ hg) t i hi)
    exact ⟨z, hy.trans hz, hr⟩

theorem settleEffects_other (hj : j ≠ k) (h : e.Reflects k x) :
    ∃ y, x.Granted y ∧ (e.settleEffects j).Reflects k y := by
  refine foldl_apply_reflects _ (x := x) ?_ (fun h => absurd h hj.symm) (fun h => absurd h hj.symm)
  refine ⟨?_, h.quiet, h.told, h.queued⟩
  show (e.machines.modify j _)[k]? = _
  rw [Array.getElem?_modify, if_neg hj]
  exact h.machine

/-- A run whose effects are still to be carried out. A task that has been granted a slot leaves the
queue before anything else. -/
theorem settleEffects_self {m : Machine} (hm : e.machines[k]? = some m)
    (s : Option Strand) (told : ∀ {t n}, e.Pends ⟨k, t, n⟩ → x.isTold t n = true)
    (hq : ∀ t, .queueForSlot t ∈ m.effects → m.Queues t)
    (queued : ∀ t, (k, t) ∈ e.slots.queue →
      m.Queues t ∨ ∃ fs, m.effects.reverse = .leaveSlotQueue t :: fs) :
    ∃ y, (x.put m s).Granted y ∧ (e.settleEffects k).Reflects k y := by
  have told' {t n} (h : x.isTold t n = true) : (x.put m s).isTold t n = true := by
    simp only [isTold, put, List.any_append, Bool.or_eq_true] at h ⊢
    exact .inr h
  have ht (f : Effect) (hf : f ∈ m.effects.reverse) (t : TaskId) (i : Nat) (hi : f.tells t i = true) :
      (x.put m s).isTold t i = true := by
    simp only [isTold, put, List.any_append, Bool.or_eq_true]
    exact .inl (List.any_eq_true.mpr ⟨f, List.mem_reverse.mp hf, hi⟩)
  have hmod : (e.machines.modify k ({ · with effects := [] }))[k]? = some { m with effects := [] } := by
    rw [Array.getElem?_modify, if_pos rfl, hm]
    rfl
  unfold settleEffects
  dsimp only
  rw [machine_of_getElem? hm]
  by_cases hl : ∃ t fs, m.effects.reverse = .leaveSlotQueue t :: fs
  · obtain ⟨t, fs, hfs⟩ := hl
    rw [hfs, List.foldl_cons]
    have mem {f : Effect} (hf : f ∈ fs) : f ∈ m.effects.reverse := hfs ▸ List.mem_cons_of_mem _ hf
    refine foldl_apply_reflects fs (x := x.put m s) ⟨hmod, rfl, fun hp => told' (told hp), fun {u} hu => ?_⟩
      (fun _ u hu => hq u (List.mem_reverse.mp (mem hu))) (fun _ f hf => ht f (mem hf))
    obtain ⟨hu, hne⟩ := List.mem_filter.mp hu
    rcases queued u hu with hu | ⟨gs, hgs⟩
    · exact hu
    · rw [hfs] at hgs
      cases hgs
      simp at hne
  · refine foldl_apply_reflects _ (x := x.put m s) ⟨hmod, rfl, fun hp => told' (told hp), fun hu => ?_⟩
      (fun _ u hu => hq u (List.mem_reverse.mp hu)) (fun _ f hf => ht f hf)
    exact (queued _ hu).resolve_right fun hfs => hl ⟨_, hfs⟩

/-! Events. -/

/-- The events of some effects of a run, in the order of the effects. -/
theorem apply_emitted (j : MachineId) (e : Engine) (f : Effect) : ∃ new,
    (apply j e f).emitted = new ++ e.emitted ∧ new.reverse.map RunEvent.bare = f.event?.toList ∧
      ∀ ev ∈ new, ev.run = (e.machine j).run.id := by
  have none {e' : Engine} (h : e'.emitted = e.emitted) (hf : f.event? = none) : ∃ new,
      e'.emitted = new ++ e.emitted ∧ new.reverse.map RunEvent.bare = f.event?.toList ∧
        ∀ ev ∈ new, ev.run = (e.machine j).run.id :=
    ⟨[], h, by rw [hf]; rfl, by simp⟩
  have promised (e : Engine) : e.promiseSlot.emitted = e.emitted := by
    unfold promiseSlot
    split <;> rfl
  cases f with
  | emit type payload view =>
    obtain ⟨d, p, h⟩ := emit_shape e j type payload view
    refine ⟨[(e.bus.emit e.now (e.machine j).run.id type payload).2.1], ?_, rfl,
      fun ev hev => by rw [List.mem_singleton.mp hev]; rfl⟩
    show (e.emit j type payload view).emitted = _
    rw [h]
    rfl
  | giveSlotBack => exact none (promised _) rfl
  | passSlotOn =>
    refine none ?_ rfl
    show (if e.slots.free > 0 then e.promiseSlot else e).emitted = _
    split
    · exact promised e
    · rfl
  | note c => cases c <;> exact none rfl rfl
  | prune =>
    obtain ⟨r, s, b, d, h⟩ := prune_shape e
    exact none (show e.prune.emitted = _ by rw [h]) rfl
  | ended t =>
    obtain ⟨c, l, h, -⟩ := ended_shape e j t
    exact none (show (e.ended j t).emitted = _ by rw [h]) rfl
  | _ => exact none rfl rfl

theorem Noticed.run_eq (n : Noticed j f e e') (i : MachineId) :
    (e'.machine i).run = (e.machine i).run := by
  rcases n.machines i with h | ⟨m, t, w, k, -, hm, -, hm'⟩
  · rw [machine, machine, h]
  · rw [machine_of_getElem? hm, machine_of_getElem? hm']
    rfl

theorem foldl_apply_emitted (j : MachineId) (fs : List Effect) (e : Engine) : ∃ new,
    (fs.foldl (apply j) e).emitted = new ++ e.emitted ∧
      new.reverse.map RunEvent.bare = fs.filterMap Effect.event? ∧
        ∀ ev ∈ new, ev.run = (e.machine j).run.id := by
  induction fs generalizing e with
  | nil => exact ⟨[], rfl, rfl, by simp⟩
  | cons f fs ih =>
    obtain ⟨as, ha, hf, har⟩ := apply_emitted j e f
    obtain ⟨bs, hb, hfs, hbr⟩ := ih (apply j e f)
    refine ⟨bs ++ as, by rw [List.foldl_cons, hb, ha, List.append_assoc], ?_, ?_⟩
    · rw [List.reverse_append, List.map_append, hf, hfs]
      cases hv : f.event? <;> simp [hv]
    · intro ev hev
      rcases List.mem_append.mp hev with hev | hev
      · rw [hbr ev hev, (apply_noticed j e f).run_eq]
      · exact har ev hev

theorem settleEffects_emitted (e : Engine) (j : MachineId) : ∃ new,
    (e.settleEffects j).emitted = new ++ e.emitted ∧
      new.reverse.map RunEvent.bare = (e.machine j).effects.reverse.filterMap Effect.event? ∧
        ∀ ev ∈ new, ev.run = (e.machine j).run.id := by
  obtain ⟨new, h, hf, hr⟩ := foldl_apply_emitted j (e.machine j).effects.reverse
    { e with machines := e.machines.modify j ({ · with effects := [] }) }
  refine ⟨new, h, hf, fun ev hev => (hr ev hev).trans ?_⟩
  rw [machine, machine, Array.getElem?_modify, if_pos rfl]
  cases e.machines[j]? <;> rfl

/-! Machines that there are not yet. -/

/-- Nothing regards a machine. -/
structure Vacant (e : Engine) (k : MachineId) : Prop where
  pends : ∀ t n, ¬ e.Pends ⟨k, t, n⟩
  queue : ∀ t, (k, t) ∉ e.slots.queue

theorem Noticed.vacant (n : Noticed j f e e') (hj : k ≠ j) (h : e.Vacant k) : e'.Vacant k where
  pends t i hp := h.pends t i ((n.pends k t i hp).resolve_right fun g => hj g.1)
  queue t hq := h.queue t ((n.queue k t hq).resolve_right fun g => hj g.1)

theorem settleEffects_vacant (hj : k ≠ j) (h : e.Vacant k) : (e.settleEffects j).Vacant k := by
  have fold (fs : List Effect) (e : Engine) (h : e.Vacant k) : (fs.foldl (apply j) e).Vacant k := by
    induction fs generalizing e with
    | nil => exact h
    | cons f fs ih => exact ih _ ((apply_noticed j e f).vacant hj h)
  exact fold _ _ ⟨h.pends, h.queue⟩

end Engine

end Workflow
