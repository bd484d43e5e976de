import Workflow.Proofs.Debug.Attachment
import Workflow.Proofs.Debug.Notice
import Workflow.Proofs.Engine.Pruning
/-!
How an engine tells observers of what its runs do. While nothing is let go of, the notices of each event are
told as it is emitted, and they show the run that is held under its id as the deed leaves it.
-/

namespace Workflow.Engine

open Debugger

variable {d : Deed} {e e' e'' e₁ : Engine} {k : MachineId} {evs : List RunEvent}
  {stand : String → Option Stand}

/-- Whether only the debugger listens to the engine. -/
def IsHeard (e : Engine) : Prop :=
  e.bus.ofRun = [] ∧ e.bus.ofAll = [.debugger] ∧ e.bus.onForget = [.debugger]

/-- How the run stands that is held under an id. -/
def standOf (e : Engine) (run : String) : Option Stand :=
  (e.machine? run).map Machine.stand

theorem standOf_congr (hr : e'.runs = e.runs) (hm : ∀ i, (e'.machine i).run = (e.machine i).run) :
    e'.standOf = e.standOf := by
  funext run
  have hs (i : MachineId) : (e'.machine i).stand = (e.machine i).stand := by
    simp only [Machine.stand, Machine.view, RunView.stand, hm]
  simp only [standOf, machine?, hr, Option.map_map]
  congr 1
  funext i
  exact hs i

/-- Some events are emitted, noted and told. -/
structure Speaks (stand : String → Option Stand) (evs : List RunEvent) (e e' : Engine) : Prop where
  emitted : e'.emitted = evs.reverse ++ e.emitted
  debugger : e'.debugger = evs.foldl note e.debugger
  told : ∃ ps, e'.messages = e.messages ++ ps ∧
    Notice.Told e.debugger.audience (notices stand e.debugger evs) ps
  heard : e'.IsHeard

/-- Nobody is told anything, and the same observers are there. -/
structure Hushed (e e' : Engine) : Prop where
  emitted : e'.emitted = e.emitted
  messages : e'.messages = e.messages
  ofRun : e'.debugger.ofRun = e.debugger.ofRun
  ofAll : e'.debugger.ofAll = e.debugger.ofAll
  next : e'.debugger.nextObserver = e.debugger.nextObserver

theorem messages_push (e : Engine) (ps : List Push) : (e.push ps).messages = e.messages ++ ps := by
  simp only [messages, push, List.reverse_append, List.reverse_reverse, List.map_append, List.map_map]
  congr 1
  exact List.map_id ps

theorem foldl_note_observers (evs : List RunEvent) (d : Debugger) :
    (evs.foldl note d).ofRun = d.ofRun ∧ (evs.foldl note d).ofAll = d.ofAll ∧
      (evs.foldl note d).nextObserver = d.nextObserver := by
  induction evs generalizing d with
  | nil => exact ⟨rfl, rfl, rfl⟩
  | cons ev evs ih =>
    obtain ⟨hr, ha, hn⟩ := note_observers d ev
    obtain ⟨hrs, has, hns⟩ := ih (d.note ev)
    exact ⟨hrs.trans hr, has.trans ha, hns.trans hn⟩

theorem foldl_note_audience (evs : List RunEvent) (d : Debugger) :
    (evs.foldl note d).audience = d.audience :=
  audience_congr (foldl_note_observers evs d).1 (foldl_note_observers evs d).2.1

namespace Speaks

theorem silent (stand : String → Option Stand) (he : e'.emitted = e.emitted)
    (hd : e'.debugger = e.debugger) (hm : e'.messages = e.messages) (hh : e'.IsHeard) :
    Speaks stand [] e e' :=
  ⟨he, hd, ⟨[], hm.trans (List.append_nil _).symm, .nil⟩, hh⟩

theorem trans {evs' : List RunEvent} (h : Speaks stand evs e e') (g : Speaks stand evs' e' e'') :
    Speaks stand (evs ++ evs') e e'' := by
  obtain ⟨ps, hp, ht⟩ := h.told
  obtain ⟨qs, hq, hu⟩ := g.told
  refine ⟨?_, ?_, ⟨ps ++ qs, ?_, ?_⟩, g.heard⟩
  · rw [g.emitted, h.emitted, List.reverse_append, List.append_assoc]
  · rw [g.debugger, h.debugger, List.foldl_append]
  · rw [hq, hp, List.append_assoc]
  · rw [notices_append]
    refine ht.append ?_
    rwa [h.debugger, foldl_note_audience] at hu

theorem congr {stand' : String → Option Stand} (h : Speaks stand evs e e')
    (hs : ∀ ev ∈ evs, stand' ev.run = stand ev.run) : Speaks stand' evs e e' := by
  obtain ⟨ps, hp, ht⟩ := h.told
  exact ⟨h.emitted, h.debugger, ⟨ps, hp, by rwa [notices_congr hs]⟩, h.heard⟩

end Speaks

namespace Hushed

theorem refl (e : Engine) : Hushed e e :=
  ⟨rfl, rfl, rfl, rfl, rfl⟩

theorem trans (h : Hushed e e') (g : Hushed e' e'') : Hushed e e'' :=
  ⟨g.emitted.trans h.emitted, g.messages.trans h.messages, g.ofRun.trans h.ofRun, g.ofAll.trans h.ofAll,
    g.next.trans h.next⟩

theorem foldl {α : Type} {f : Engine → α → Engine} (hf : ∀ e a, Hushed e (f e a)) (as : List α)
    (e : Engine) : Hushed e (as.foldl f e) := by
  induction as generalizing e with
  | nil => exact .refl e
  | cons a as ih => exact (hf e a).trans (ih _)

end Hushed

/-! What is done for a run. -/

/-- An event is told with the run that is held under its id. -/
theorem emit_speaks (hl : e.IsHeard) (k : MachineId) (type : String) (payload : Entries Value) (view : RunView)
    (hv : view.stand = (e.machine k).stand) :
    ∃ ev : RunEvent, ev.run = (e.machine k).run.id ∧
      Speaks e.standOf [ev] e (e.emit k type payload view) := by
  obtain ⟨h₁, h₂, h₃⟩ := hl
  have told : (e.bus.emit e.now (e.machine k).run.id type payload).2.2 = [.debugger] := by
    show e.bus.listenersOf _ ++ e.bus.ofAll = _
    rw [Bus.listenersOf, h₁, h₂]
    rfl
  generalize hev : (e.bus.emit e.now (e.machine k).run.id type payload).2.1 = ev
  have hrun : ev.run = (e.machine k).run.id := by rw [← hev]; rfl
  have hview : (e.viewOf (e.machine k).run.id k view).map RunView.stand = e.standOf ev.run := by
    rw [hrun, viewOf, standOf, machine?]
    cases Entries.find? (e.machine k).run.id e.runs with
    | none => rfl
    | some j =>
      by_cases hj : j = k
      · subst hj
        simp [hv]
      · simp [hj, Machine.stand]
  obtain ⟨hd, ht⟩ := observe_told e.debugger ev hview
  have hemit : e.emit k type payload view =
      { e with
        bus := (e.bus.emit e.now (e.machine k).run.id type payload).1
        emitted := ev :: e.emitted
        debugger := (e.debugger.observe ev (e.viewOf (e.machine k).run.id k view)).1 }.push
        (e.debugger.observe ev (e.viewOf (e.machine k).run.id k view)).2 := by
    unfold emit
    dsimp only
    rw [told, hev]
    rfl
  refine ⟨ev, hrun, ?_⟩
  rw [hemit]
  refine ⟨rfl, hd, ⟨_, messages_push _ _, ?_⟩, h₁, h₂, h₃⟩
  rwa [note_audience] at ht

theorem promiseSlot_speaks (stand : String → Option Stand) (hl : e.IsHeard) :
    Speaks stand [] e e.promiseSlot := by
  unfold promiseSlot
  split <;> exact .silent stand rfl rfl rfl hl

theorem giveSlotBack_speaks (stand : String → Option Stand) (hl : e.IsHeard) :
    Speaks stand [] e e.giveSlotBack := by
  have freed : Speaks stand [] e { e with slots := { e.slots with free := e.slots.free + 1 } } :=
    .silent stand rfl rfl rfl hl
  exact freed.trans (promiseSlot_speaks stand freed.heard)

/-- What a run asks for is told if it is an event that shows the run as it stands. -/
theorem apply_speaks (hl : e.IsHeard) (k : MachineId) {f : Effect} (hp : f ≠ .prune)
    (hf : ∀ s, f.stand? = some s → s = (e.machine k).stand) :
    ∃ evs : List RunEvent, (∀ ev ∈ evs, ev.run = (e.machine k).run.id) ∧
      (f.stand? = none → evs = []) ∧ Speaks e.standOf evs e (apply k e f) := by
  have silent {e' : Engine} (h : Speaks e.standOf [] e e') : ∃ evs : List RunEvent,
      (∀ ev ∈ evs, ev.run = (e.machine k).run.id) ∧ (f.stand? = none → evs = []) ∧
        Speaks e.standOf evs e e' :=
    ⟨[], fun _ => nofun, fun _ => rfl, h⟩
  cases f with
  | emit type payload view =>
    obtain ⟨ev, hrun, h⟩ := emit_speaks hl k type payload view (hf _ rfl)
    exact ⟨[ev], by simpa using hrun, nofun, h⟩
  | giveSlotBack => exact silent (giveSlotBack_speaks _ hl)
  | passSlotOn =>
    refine silent ?_
    show Speaks _ [] e (if e.slots.free > 0 then e.promiseSlot else e)
    split
    · exact promiseSlot_speaks _ hl
    · exact .silent _ rfl rfl rfl hl
  | note c => cases c <;> exact silent (.silent _ rfl rfl rfl hl)
  | prune => exact absurd rfl hp
  | ended t =>
    obtain ⟨cs, l, h, -⟩ := ended_shape e k t
    refine silent ?_
    show Speaks _ [] e (e.ended k t)
    rw [h]
    exact .silent _ rfl rfl rfl hl
  | _ => exact silent (.silent _ rfl rfl rfl hl)

theorem foldl_apply_speaks (k : MachineId) {fs : List Effect} (hp : .prune ∉ fs) (hl : e.IsHeard)
    (hf : ∀ f ∈ fs, ∀ s, f.stand? = some s → s = (e.machine k).stand) :
    ∃ evs : List RunEvent, (∀ ev ∈ evs, ev.run = (e.machine k).run.id) ∧
      (fs.filterMap Effect.stand? = [] → evs = []) ∧ Speaks e.standOf evs e (fs.foldl (apply k) e) := by
  induction fs generalizing e with
  | nil => exact ⟨[], fun _ => nofun, fun _ => rfl, .silent _ rfl rfl rfl hl⟩
  | cons f fs ih =>
    have hf' := List.forall_mem_cons.mp hf
    have hp' := not_or.mp (hp ∘ List.mem_cons.mpr)
    have hrun := (apply_noticed k e f).run_eq
    have hstand : (apply k e f).standOf = e.standOf := standOf_congr (apply_runs k e f (Ne.symm hp'.1)) hrun
    obtain ⟨as, has, hnone, h⟩ := apply_speaks hl k (Ne.symm hp'.1) hf'.1
    have hsame : ((apply k e f).machine k).stand = (e.machine k).stand := by
      simp only [Machine.stand, Machine.view, RunView.stand, hrun]
    obtain ⟨bs, hbs, hnone', g⟩ := ih hp'.2 h.heard (hsame ▸ hf'.2)
    rw [hrun] at hbs
    rw [hstand] at g
    refine ⟨as ++ bs, ?_, fun hs => ?_, h.trans g⟩
    · simp only [List.mem_append]
      rintro ev (hev | hev)
      · exact has ev hev
      · exact hbs ev hev
    · rw [List.filterMap_cons] at hs
      split at hs
      · rename_i hfs
        rw [hnone hfs, hnone' hs]
        rfl
      · cases hs

/-! Runs that are let go of. -/

theorem release_hushed (e : Engine) (run : String) : Hushed e (e.release run) := by
  have told (ls : List Listener) (e : Engine) : Hushed e
      (ls.foldl (fun e (_ : Listener) => { e with debugger := e.debugger.forget run }) e) := by
    refine .foldl (fun e _ => ?_) ls e
    obtain ⟨h₁, h₂, h₃⟩ := forget_observers e.debugger run
    exact ⟨rfl, rfl, h₁, h₂, h₃⟩
  refine Hushed.trans ?_ (told e.bus.onForget _)
  exact ⟨rfl, rfl, rfl, rfl, rfl⟩

theorem prune_hushed (e : Engine) : Hushed e e.prune :=
  .foldl release_hushed _ e

theorem apply_hushed (k : MachineId) (e : Engine) {f : Effect} (hf : f.stand? = none) :
    Hushed e (apply k e f) := by
  have promised (e : Engine) : Hushed e e.promiseSlot := by
    unfold promiseSlot
    split <;> exact ⟨rfl, rfl, rfl, rfl, rfl⟩
  cases f with
  | emit type payload view => cases hf
  | giveSlotBack =>
    refine Hushed.trans ?_ (promised _)
    exact ⟨rfl, rfl, rfl, rfl, rfl⟩
  | passSlotOn =>
    show Hushed e (if e.slots.free > 0 then e.promiseSlot else e)
    split
    · exact promised e
    · exact .refl e
  | note c => cases c <;> exact ⟨rfl, rfl, rfl, rfl, rfl⟩
  | prune => exact prune_hushed e
  | ended t =>
    obtain ⟨cs, l, h, -⟩ := ended_shape e k t
    show Hushed e (e.ended k t)
    rw [h]
    exact ⟨rfl, rfl, rfl, rfl, rfl⟩
  | _ => exact ⟨rfl, rfl, rfl, rfl, rfl⟩

theorem foldl_apply_hushed (k : MachineId) {fs : List Effect} (hf : fs.filterMap Effect.stand? = [])
    (e : Engine) : Hushed e (fs.foldl (apply k) e) := by
  induction fs generalizing e with
  | nil => exact .refl e
  | cons f fs ih =>
    rw [List.filterMap_eq_nil_iff] at hf
    obtain ⟨hf, hfs⟩ := List.forall_mem_cons.mp hf
    exact (apply_hushed k e hf).trans (ih (List.filterMap_eq_nil_iff.mpr hfs) _)

/-! Machines that change. -/

theorem foldl_apply_run (k : MachineId) (fs : List Effect) (e : Engine) (i : MachineId) :
    ((fs.foldl (apply k) e).machine i).run = (e.machine i).run := by
  induction fs generalizing e with
  | nil => rfl
  | cons f fs ih => rw [List.foldl_cons, ih, (apply_noticed k e f).run_eq]

/-- A machine whose effects have been taken. -/
theorem machine_quieted (e : Engine) (k i : MachineId) :
    (({ e with machines := e.machines.modify k ({ · with effects := [] }) } : Engine).machine i).run =
      (e.machine i).run := by
  rw [machine, machine, Array.getElem?_modify]
  cases e.machines[i]? <;> split <;> rfl

theorem settleEffects_run (e : Engine) (k i : MachineId) :
    ((e.settleEffects k).machine i).run = (e.machine i).run :=
  (foldl_apply_run k _ _ i).trans (machine_quieted e k i)

theorem stand_of_run {m n : Machine} (h : n.run = m.run) : n.stand = m.stand := by
  simp only [Machine.stand, Machine.view, RunView.stand, h]

/-- A machine that shows itself as it stands, and does not ask for pruning, is told of as it stands. -/
theorem settleEffects_speaks (hl : e.IsHeard) (k : MachineId) (hf : (e.machine k).IsFrank)
    (hp : .prune ∉ (e.machine k).effects) : ∃ evs : List RunEvent,
      (∀ ev ∈ evs, ev.run = (e.machine k).run.id) ∧ ((e.machine k).shown = [] → evs = []) ∧
        Speaks e.standOf evs e (e.settleEffects k) := by
  have hstand : ({ e with machines := e.machines.modify k ({ · with effects := [] }) } : Engine).standOf =
      e.standOf := standOf_congr rfl (machine_quieted e k)
  obtain ⟨evs, hrun, hnone, h⟩ := foldl_apply_speaks k
    (e := { e with machines := e.machines.modify k ({ · with effects := [] }) })
    (fun h => hp (List.mem_reverse.mp h)) hl fun f hfs s hs => by
      rw [stand_of_run (machine_quieted e k k)]
      exact hf s (List.mem_filterMap.mpr ⟨f, List.mem_reverse.mp hfs, hs⟩)
  rw [machine_quieted] at hrun
  rw [hstand] at h
  have quieted : Speaks e.standOf [] e
      { e with machines := e.machines.modify k ({ · with effects := [] }) } := .silent _ rfl rfl rfl hl
  refine ⟨evs, hrun, fun hs => hnone ?_, quieted.trans h⟩
  rw [List.filterMap_reverse, List.reverse_eq_nil_iff]
  exact hs

/-- How the run stands after something that was held under an id before. -/
def standing (e e' : Engine) (run : String) : Option Stand :=
  (Entries.find? run e.runs).map fun k => (e'.machine k).stand

/-- The runs that are held are told of as they stand in the end, and then some may be let go of. -/
def Tells (e e' : Engine) : Prop :=
  ∃ evs e₁, Speaks (e.standing e') evs e e₁ ∧ Hushed e₁ e'

theorem Hushed.tells (hl : e.IsHeard) (h : Hushed e e') : Tells e e' :=
  ⟨[], e, .silent _ rfl rfl rfl hl, h⟩

/-- What nobody is told of may come first. -/
theorem Tells.after (h : Tells e₁ e') (hs : ∀ stand, Speaks stand [] e e₁) (hr : e₁.runs = e.runs) :
    Tells e e' := by
  obtain ⟨evs, e₂, g, hh⟩ := h
  refine ⟨evs, e₂, (hs _).trans (g.congr fun ev _ => ?_), hh⟩
  rw [standing, standing, hr]

/-- What lets go of runs, and leaves all of them as they stand, may come last. -/
theorem Tells.before (h : Tells e e₁) (hs : ∀ i, (e'.machine i).stand = (e₁.machine i).stand)
    (g : Hushed e₁ e') : Tells e e' := by
  obtain ⟨evs, e₂, hsp, hh⟩ := h
  refine ⟨evs, e₂, hsp.congr fun ev _ => ?_, hh.trans g⟩
  simp only [standing, hs]

theorem settleEffects_hushed (hs : (e.machine k).shown = []) : Hushed e (e.settleEffects k) := by
  refine Hushed.trans ?_ (foldl_apply_hushed k ?_ _)
  · exact ⟨rfl, rfl, rfl, rfl, rfl⟩
  · rw [List.filterMap_reverse, List.reverse_eq_nil_iff]
    exact hs

theorem settleEffects_tells (hl : e.IsHeard) (k : MachineId) (hm : (e.machine k).IsForthright) :
    Tells e (e.settleEffects k) := by
  have hstand : e.standing (e.settleEffects k) = e.standOf := by
    funext run
    simp only [standing, standOf, machine?, Option.map_map]
    congr 1
    funext i
    exact stand_of_run (settleEffects_run e k i)
  by_cases hp : .prune ∈ (e.machine k).effects
  · exact Hushed.tells hl (settleEffects_hushed (hm.tactful hp))
  · obtain ⟨evs, -, -, h⟩ := settleEffects_speaks hl k hm.frank hp
    exact ⟨evs, _, hstand ▸ h, .refl _⟩

theorem machine_modify_self (e : Engine) {k : MachineId} (hk : k < e.machines.size) (f : Machine → Machine) :
    ({ e with machines := e.machines.modify k f } : Engine).machine k = f (e.machine k) :=
  (machine_modify e k f e.active k).trans (if_pos ⟨rfl, hk⟩)

/-- A machine is changed, and what it asks for is done. -/
theorem onMachine_tells (hl : e.IsHeard) (k : MachineId) (f : Machine → Machine)
    (hm : (f (e.machine k)).IsForthright) : Tells e (e.onMachine k f) := by
  by_cases hk : k < e.machines.size
  · have hl₁ : IsHeard { e with machines := e.machines.modify k f } := hl
    have changed (stand : String → Option Stand) :
        Speaks stand [] e { e with machines := e.machines.modify k f } := .silent _ rfl rfl rfl hl₁
    refine (settleEffects_tells hl₁ k ?_).after changed rfl
    rw [machine_modify_self e hk]
    exact hm
  · rw [onMachine_of_none (Array.getElem?_eq_none_iff.mpr (Nat.le_of_not_lt hk))]
    exact Hushed.tells hl (.refl e)

/-- A machine is changed without anyone noticing. -/
theorem onMachine_hushed (hq : (e.machine k).effects = []) {f : Machine → Machine}
    (hf : Machine.Still (e.machine k) (f (e.machine k))) : Hushed e (e.onMachine k f) := by
  by_cases hk : k < e.machines.size
  · have hs := hf.shown.trans (Machine.shown_of_effects hq)
    have changed : Hushed e { e with machines := e.machines.modify k f } := ⟨rfl, rfl, rfl, rfl, rfl⟩
    exact changed.trans (settleEffects_hushed (machine_modify_self e hk f ▸ hs))
  · rw [onMachine_of_none (Array.getElem?_eq_none_iff.mpr (Nat.le_of_not_lt hk))]
    exact .refl e

/-! Steps. -/

theorem IsOrderly.quiet (h : e.IsOrderly) (k : MachineId) : (e.machine k).effects = [] := by
  by_cases hk : k < e.machines.size
  · obtain ⟨x, hx⟩ := h.mirrored k hk
    rw [hx.machine_eq]
    exact hx.quiet
  · rw [machine_of_none (Array.getElem?_eq_none_iff.mpr (Nat.le_of_not_lt hk))]
    rfl

theorem stepActive_tells (hl : e.IsHeard) {a : Activity} (ha : a.machine < e.machines.size)
    (hq : (e.machine a.machine).effects = []) : Tells e (e.stepActive a) := by
  have hl₁ : (e.replace a.machine (e.stepped a).1).IsHeard := hl
  have hm : (e.replace a.machine (e.stepped a).1).machine a.machine = (e.stepped a).1 := by
    refine machine_of_getElem? ?_
    rw [replace_getElem?, if_pos rfl, Array.getElem?_eq_getElem ha]
    rfl
  have replaced (stand : String → Option Stand) : Speaks stand [] e (e.replace a.machine (e.stepped a).1) :=
    .silent _ rfl rfl rfl hl₁
  have forthright : (e.stepped a).1.IsForthright := Machine.turn_forthright hq _ _ _ _
  have settled := settleEffects_tells hl₁ a.machine (hm.symm ▸ forthright)
  rw [stepActive_eq]
  exact (settled.after replaced rfl).before (fun _ => rfl) ⟨rfl, rfl, rfl, rfl, rfl⟩

theorem begin_tells (hl : e.IsHeard) (hq : (e.machine k).effects = []) (t : TaskId) :
    Tells e (e.begin k t) := by
  unfold Engine.begin
  dsimp only
  split
  · exact Hushed.tells hl (.refl e)
  · split
    · split
      · exact onMachine_tells hl k _ ((Machine.Still.of_mute (.finish _ t _)).forthright hq)
      · exact Hushed.tells hl ⟨rfl, rfl, rfl, rfl, rfl⟩
    · exact Hushed.tells hl ⟨rfl, rfl, rfl, rfl, rfl⟩
    · exact Hushed.tells hl (.refl e)

theorem tell_tells (hl : e.IsHeard) (hq : (e.machine k).effects = []) (t : TaskId) (ticket : Nat) :
    Tells e (e.onMachine k (·.tell t ticket)) :=
  onMachine_tells hl k _ ((Machine.Still.of_mute (Machine.Silent.tell _ t ticket).mute).forthright hq)

theorem serve_hushed (e : Engine) (c : Client) : Hushed e (e.serve c) := by
  unfold serve
  dsimp only
  split
  · exact ⟨rfl, rfl, rfl, rfl, rfl⟩
  · refine Hushed.trans ?_ (release_hushed _ _)
    exact ⟨rfl, rfl, rfl, rfl, rfl⟩

theorem nextRound_hushed (h : e.nextRound = some e') : Hushed e e' := by
  unfold nextRound at h
  dsimp only at h
  split at h
  · cases h
  · cases h
    exact ⟨rfl, rfl, rfl, rfl, rfl⟩

theorem run_tells (hl : e.IsHeard) (hq : ∀ k, (e.machine k).effects = []) (j : Job) : Tells e (e.run j) := by
  cases j with
  | step k t => exact begin_tells hl (hq k) t
  | tell a => exact tell_tells hl (hq a.machine) a.task a.ticket
  | client c n =>
    cases n with
    | zero => exact Hushed.tells hl (serve_hushed e c)
    | succ n => exact Hushed.tells hl ⟨rfl, rfl, rfl, rfl, rfl⟩

theorem step_tells (he : e.IsOrderly) (hl : e.IsHeard) (h : e.step = some e') : Tells e e' := by
  have hl₁ (stamp : Instant) (round : List Job) : IsHeard { e with stamp, round } := hl
  have stamped (stamp : Instant) (round : List Job) (stand : String → Option Stand) :
      Speaks stand [] e { e with stamp, round } := .silent _ rfl rfl rfl (hl₁ stamp round)
  unfold step at h
  dsimp only at h
  split at h
  · rename_i a ha
    cases h
    exact (stepActive_tells (hl₁ (e.stamp + 1) e.round) (he.bounded.active a ha) (he.quiet _)).after
      (stamped (e.stamp + 1) e.round) rfl
  · split at h
    · rename_i j rest hr
      cases h
      exact (run_tells (hl₁ (e.stamp + 1) rest) he.quiet j).after (stamped (e.stamp + 1) rest) rfl
    · have hn := nextRound_hushed h
      exact Hushed.tells hl ⟨hn.emitted, hn.messages, hn.ofRun, hn.ofAll, hn.next⟩

end Workflow.Engine
