import Workflow.Proofs.Engine.Holding
/-!
Engines with built-in handlers only, on which no task is cancelled from outside. Each of their runs is
carried out in one world, and what an engine does is moves of its runs and commands to them.
-/

namespace Workflow

/-- A deed that cancels no task and brings in no handlers but built-in ones. -/
def Deed.IsCalm : Deed → Prop
  | .setHandlers r => r.IsBuiltin
  | .cancelTask _ => False
  | _ => True

/-- The world of a run, which may stand alone. -/
def World.around (w : World) (alone : Bool) : World :=
  if alone then { settings := w.settings } else w

namespace Engine

open Execution

variable {d : Deed} {ds : List Deed} {e e' e'' : Engine} {j k : MachineId} {x : Execution} {w : World}

/-- An engine is as a world says. -/
structure Obeys (e : Engine) (w : World) : Prop where
  settings : e.settings = w.settings
  provider : e.provider = w.provider
  builtin : e.registry.IsBuiltin

/-- What a step of a run finds around it. -/
def moment (e : Engine) (k : MachineId) (h : e.registry.IsBuiltin) : Moment where
  registry := e.registry
  builtin := h
  flows := if (e.machine k).standalone then [] else e.flows
  slotsLocked := e.slotsLocked
  calls := e.calls
  now := e.now
  stamp := e.stamp

theorem Obeys.surroundings (h : e.Obeys w) (k : MachineId) :
    e.surroundings k =
      (w.around (e.machine k).standalone).surroundings (e.moment k h.builtin) := by
  unfold Engine.surroundings World.around World.surroundings moment
  cases (e.machine k).standalone <;> simp [h.settings, h.provider]

/-- What a change leaves of what runs find around them. -/
structure Equips (d : Deed) (e e' : Engine) : Prop where
  settings : e'.settings = e.settings
  provider : e'.provider = e.provider
  registry : (∀ r, d ≠ .setHandlers r) → e'.registry = e.registry
  flows : (∀ f b, d ≠ .keepFlow f b) → (∀ id, d ≠ .deleteFlow id) → e'.flows = e.flows

theorem Rests.equips (h : Rests e e') : Equips d e e' :=
  ⟨h.settings, h.provider, fun _ => h.registry, fun _ _ => h.flows⟩

theorem Equips.trans (h : Equips d e e') (g : Equips d e' e'') : Equips d e e'' :=
  ⟨g.settings.trans h.settings, g.provider.trans h.provider,
    fun hn => (g.registry hn).trans (h.registry hn), fun hf hi => (g.flows hf hi).trans (h.flows hf hi)⟩

theorem stepActive_equips (e : Engine) (a : Activity) : Equips d e (e.stepActive a) := by
  have h (m : Machine) : Equips d e (settleEffects { e with
      machines := (e.machines.modify a.machine fun _ => default).modify a.machine fun _ => m
      active := none } a.machine) := by
    refine Equips.trans ?_ (settleEffects_rests _ _).equips
    exact ⟨rfl, rfl, fun _ => rfl, fun _ _ => rfl⟩
  unfold stepActive
  dsimp only
  split
  · exact (h _).trans ⟨rfl, rfl, fun _ => rfl, fun _ _ => rfl⟩
  · exact h _

theorem begin_equips (e : Engine) (k : MachineId) (t : TaskId) : Equips d e (e.begin k t) := by
  have same (ms : Array Machine) (a : Option Activity) : Equips d e { e with machines := ms, active := a } :=
    ⟨rfl, rfl, fun _ => rfl, fun _ _ => rfl⟩
  unfold Engine.begin
  dsimp only
  split
  · exact same _ _
  · split
    · split
      · exact (onMachine_rests _ _ _).equips
      · exact same _ _
    · exact same _ _
    · exact same _ _

theorem Change.equips (h : Change d e e') : Equips d e e' := by
  have of_shape {e : Engine} {ms : Array Machine} {rs ss : Entries MachineId} {b : Bus Listener}
      {g : Debugger} {ps : List (Nat × Push)} {n : Instant} : Equips d e { e with
        machines := ms, runs := rs, stored := ss, bus := b, debugger := g, pushed := ps, stamp := n } :=
    ⟨rfl, rfl, fun _ => rfl, fun _ _ => rfl⟩
  have popped (e : Engine) (rest : List Job) : Equips d e { e with round := rest } :=
    ⟨rfl, rfl, fun _ => rfl, fun _ _ => rfl⟩
  cases h with
  | aside h => exact ⟨h.settings, h.provider, h.registry, h.flows⟩
  | turn ha => exact stepActive_equips _ _
  | begin ha hr => exact (popped _ _).trans (begin_equips _ _ _)
  | tell ha hr => exact (popped _ _).trans (onMachine_rests _ _ _).equips
  | command c ha hk hs => exact (onMachine_rests _ _ _).equips
  | interrupt ha hd hk => exact (onMachine_rests _ _ _).equips
  | release run => exact (release_rests _ _).equips
  | make hd id f vars breakpoints pauses hf => exact of_shape
  | makeStandalone hd id f vars breakpoints pauses => exact of_shape
  | attach hd ho hk =>
    obtain ⟨g, ps, h⟩ := Debugger.openSession_sameRuns _ _ e
    rw [h]
    exact of_shape
  | @detach given hd ho =>
    obtain ⟨g, ps, h⟩ := Debugger.dropRetired_sameRuns (given.field "runId").name
      (Debugger.tellState (given.field "runId").name (Debugger.closeSession (given.field "runId").name e))
    rw [h]
    exact of_shape
  | observers => exact of_shape
  | close hd => exact of_shape

theorem Equips.obeys (h : Equips d e e') (hd : ∀ r, d ≠ .setHandlers r) (ho : e.Obeys w) : e'.Obeys w :=
  ⟨h.settings.trans ho.settings, h.provider.trans ho.provider, h.registry hd ▸ ho.builtin⟩

theorem Obeys.changes (ho : e.Obeys w) (hd : ∀ r, d ≠ .setHandlers r) (h : Changes d e e') :
    e'.Obeys w := by
  induction h with
  | refl => exact ho
  | tail _ h ih => exact h.equips.obeys hd ih

theorem Obeys.meet (ho : e.Obeys w) (he : e.IsOrderly) (hd : d.IsCalm) : (e.meet d).Obeys w := by
  by_cases hr : ∃ r, d = .setHandlers r
  · obtain ⟨r, rfl⟩ := hr
    show Obeys (if e.active.isNone then { e with registry := r } else e) w
    split
    · exact ⟨ho.settings, ho.provider, hd⟩
    · exact ho
  · exact ho.changes (fun r h => hr ⟨r, h⟩) (he.meets d)

theorem Obeys.after (ho : e.Obeys w) (he : e.IsOrderly) (hd : ∀ d ∈ ds, d.IsCalm) :
    (after ds e).Obeys w :=
  (after_keeps (P := fun e => e.IsOrderly ∧ e.Obeys w)
    (fun d hm _ h => ⟨h.1.meet d, h.2.meet h.1 (hd d hm)⟩) ⟨he, ho⟩).2

end Engine

open Engine in
/-- Whether something may come in to a run by a part of a deed. -/
def Input.Suits (d : Deed) (e : Engine) (k : MachineId) : Input → Prop
  | .move (.step now) =>
    now.registry = e.registry ∧ now.flows = if (e.machine k).standalone then [] else e.flows
  | .command c => d.Gives e k c ∧ ∀ s, c = .start s → s = !(e.machine k).standalone
  | _ => True

namespace Engine

open Execution

variable {d : Deed} {ds : List Deed} {e e' e'' : Engine} {j k : MachineId} {x : Execution} {w : World}

theorem Obeys.input (ho : e.Obeys w) (hd : d.IsCalm) {h : Happening} (hs : h.Suits d e k) :
    ∃ i : Input, i.happening (w.around (e.machine k).standalone) = h ∧ i.Suits d e k := by
  cases h with
  | begin t => exact ⟨.move (.begin t), rfl, trivial⟩
  | step env =>
    refine ⟨.move (.step (e.moment k ho.builtin)), ?_, rfl, rfl⟩
    rw [show env = e.surroundings k from hs, ho.surroundings]
    rfl
  | tell t n => exact ⟨.move (.tell t n), rfl, trivial⟩
  | grant t => exact ⟨.move (.grant t), rfl, trivial⟩
  | command c => exact ⟨.command c, rfl, hs⟩
  | interrupt =>
    obtain ⟨run, rfl, -⟩ := hs
    exact absurd hd id

theorem Obeys.inputs (ho : e.Obeys w) (hd : d.IsCalm) {hs : List Happening}
    (h : ∀ a ∈ hs, a.Suits d e k) : ∃ is : List Input,
      is.map (Input.happening (w.around (e.machine k).standalone)) = hs ∧ ∀ i ∈ is, i.Suits d e k := by
  induction hs with
  | nil => exact ⟨[], rfl, by simp⟩
  | cons a hs ih =>
    obtain ⟨is, his, hi⟩ := ih fun a ha => h a (List.mem_cons_of_mem _ ha)
    obtain ⟨i, hia, hsuits⟩ := ho.input hd (h a List.mem_cons_self)
    exact ⟨i :: is, by rw [List.map_cons, hia, his], List.forall_mem_cons.mpr ⟨hsuits, hi⟩⟩

/-- A part of a deed is moves of each run and commands to it. The events are those of one run. -/
theorem Change.takes (h : Change d e e') (hb : e.IsBounded) (ho : e.Obeys w) (hd : d.IsCalm) :
    ∃ j new, e'.emitted = new ++ e.emitted ∧ (new ≠ [] → j < e.machines.size) ∧
      (∀ ev ∈ new, ev.run = (e.machine j).run.id) ∧
      ∀ k x, e.Mirrors k x → ∃ is, (∀ i ∈ is, i.Suits d e k) ∧
        e'.Mirrors k (Execution.after (w.around (e.machine k).standalone) is x) ∧
        (Execution.after (w.around (e.machine k).standalone) is x).events =
          x.events ++ if k = j then new.reverse.map RunEvent.bare else [] := by
  obtain ⟨j, new, he, hj, hrun, hact⟩ := h.acts hb
  refine ⟨j, new, he, hj, hrun, fun k x hx => ?_⟩
  obtain ⟨hs, hsuits, hm, hev⟩ := hact k x hx
  obtain ⟨is, rfl, hi⟩ := ho.inputs hd hsuits
  rw [following_happening] at hm hev
  exact ⟨is, hi, hm, hev⟩

end Engine

end Workflow
