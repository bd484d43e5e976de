import Workflow.Proofs.Engine.Separation
/-!
Concurrent runs do not interfere. What a run of an engine with built-in handlers traces, how it ends and
what events it has, with their numbers, does not depend on the other runs of the engine.
-/

namespace Workflow

open Engine Execution

/-- A run of an engine with built-in handlers: what the engine has done until it made the run, and what it
has done since, as long as it holds the run. -/
structure Tenure where
  world : World
  registry : Registry
  shared : Entries Value
  before : List Deed
  flow : Flow
  request : RunRequest
  /-- The engine when it had made the run. -/
  made : Engine
  machine : MachineId
  since : List Deed
  builtin : registry.IsBuiltin
  calm : ∀ d ∈ before, d.IsCalm
  making : (after before (opened world.settings registry world.provider shared)).createFrom flow request =
    .ok (made, machine)
  steady : ∀ d ∈ since, d.IsSteady
  sole : (after since made).Sole (made.machine machine).run.id machine
  held : Entries.find? (made.machine machine).run.id (after since made).runs = some machine

namespace Tenure

variable {a b t : Tenure} {is : List Input}

/-- The name of the run. -/
def run (t : Tenure) : String :=
  (t.made.machine t.machine).run.id

/-- The variables that the run started with. -/
def vars (t : Tenure) : Entries Value :=
  (after t.before (opened t.world.settings t.registry t.world.provider t.shared)).startValues t.flow t.request

/-- The run alone, of which nothing has been asked yet. -/
def outset (t : Tenure) : Execution :=
  ofMachine (t.made.machine t.machine)

/-- The engine as it is in the end. -/
def now (t : Tenure) : Engine :=
  after t.since t.made

/-- The record of the run in the end. -/
def record (t : Tenure) : Run :=
  (t.now.machine t.machine).run

/-- The numbered events of the run in the end, but for the times that they tell. -/
def chronicle (t : Tenure) : List (Nat × String × Entries Value) :=
  (t.now.tale t.run).map fun ev => (ev.seq, undated ev.bare)

/-- Nothing was asked of the run but that it starts. -/
def IsLeft (t : Tenure) : Prop :=
  ∀ d ∈ t.since, ∀ c, d.Asks t.run t.machine c → c.isStart = true

/-- What has come in to the run, if it came to where it is alone. -/
structure Reads (t : Tenure) (is : List Input) : Prop where
  comes : ∀ i ∈ is, i.Comes t.made.registry t.made.flows fun c => ∃ d ∈ t.since, d.Asks t.run t.machine c
  machine : t.now.machine t.machine = (Execution.after t.world is t.outset).machine
  events : (t.now.tale t.run).map RunEvent.bare = (Execution.after t.world is t.outset).events

/-- Two runs of one flow, with the same variables, handlers and flows, perhaps of different engines. -/
structure Resembles (a b : Tenure) : Prop where
  world : a.world = b.world
  registry : a.made.registry = b.made.registry
  flows : a.made.flows = b.made.flows
  run : a.run = b.run
  flow : a.flow = b.flow
  vars : a.vars = b.vars

/-- A run that has just been made follows the machine that it was made from. -/
theorem follows (t : Tenure) :
    Follows t.world t.made.registry t.made.flows t.run t.machine t.made t.outset ∧
      t.made.IsNumbered t.run ∧ ∃ stamp, t.made.machine t.machine =
        .create t.run t.flow t.vars t.request.breakpoints t.request.pauseOnStart stamp := by
  have he := opened_isOrderly t.world.settings t.registry t.world.provider t.shared
  have ho : (opened t.world.settings t.registry t.world.provider t.shared).Obeys t.world := ⟨rfl, rfl, t.builtin⟩
  have hauthored : (opened t.world.settings t.registry t.world.provider t.shared).IsAuthored := by
    rintro ev ⟨⟩
  have hsilent (hn : (after t.before (opened t.world.settings t.registry t.world.provider t.shared)).tale t.run = []) :=
    after_isNumbered (k := 0) he (.inl hn) (.inl hn) (opened_isNumbered _ _ _ _ t.run)
  have hmade : t.made.IsOrderly := (he.after t.before).changes (d := .create t.flow t.request)
    (createFrom_changes trivial t.making)
  obtain ⟨h, hn, hm⟩ := createFrom_follows (he.after t.before) (ho.after he t.calm)
    (hauthored.after he t.before) hsilent t.making rfl (t.sole.since hmade)
  refine ⟨⟨h.orderly, h.obeys, rfl, rfl, h.mirrors, h.named, h.held, h.tale⟩, hn, hm⟩

theorem outset_isSound (t : Tenure) : t.outset.IsSound := by
  obtain ⟨-, -, stamp, hm⟩ := t.follows
  rw [outset, hm]
  exact create_isSound ..

theorem outset_undisturbed (t : Tenure) (r : Registry) : t.outset.Undisturbed r := by
  obtain ⟨-, -, stamp, hm⟩ := t.follows
  rw [outset, hm]
  exact create_undisturbed ..

/-- Runs of one flow with the same variables start from one point of their course. -/
theorem Resembles.bearing (h : a.Resembles b) : a.outset.bearing 0 = b.outset.bearing 0 := by
  obtain ⟨-, -, stamp, ha⟩ := a.follows
  obtain ⟨-, -, stamp', hb⟩ := b.follows
  rw [outset, outset, ha, hb, h.run, h.flow, h.vars]
  rfl

/-- A run of which nothing else was asked has only moved since it started. -/
theorem Reads.isPlain (h : t.Reads is) (hl : t.IsLeft) :
    ∀ i ∈ is, i.IsPlain t.made.registry t.made.flows :=
  fun i hi => Input.Comes.isPlain (h.comes i hi) fun c ⟨d, hd, hc⟩ => hl d hd c hc

theorem Reads.isControlled (h : t.Reads is) (hl : t.IsLeft) :
    ∀ i ∈ is, i.Controls t.made.registry t.made.flows :=
  fun i hi => controls_of_isPlain (h.isPlain hl i hi)

theorem numbered (t : Tenure) :
    (t.now.tale t.run).map (·.seq) = List.range' 1 (t.now.tale t.run).length := by
  obtain ⟨h, hn, -⟩ := t.follows
  exact (after_isNumbered h.orderly (.inr h.lt) (.inr t.held) hn).seqs

theorem Reads.chronicle_eq (h : t.Reads is) : t.chronicle =
    (List.range' 1 (heard (Execution.after t.world is t.outset).log).length).zip
      (heard (Execution.after t.world is t.outset).log).reverse := by
  have htold : (t.now.tale t.run).map (fun ev => undated ev.bare) =
      (heard (Execution.after t.world is t.outset).log).reverse := by
    rw [← undated_events, ← h.events, List.map_map]
    rfl
  have hlength := congrArg List.length htold
  rw [List.length_map, List.length_reverse] at hlength
  rw [chronicle, ← List.zip_map', htold, t.numbered, hlength]

/-- Concurrent runs do not interfere with each other. Whatever else an engine does, each of its runs comes
to where it is by moves of its own and by what was asked of it, as it would alone; its events are those
that it would have alone, numbered from one on. A run of which nothing is asked but that it starts has,
when it has ended, the trace, status, error, outputs and numbered events of every other such run of its
flow, be it alone on its engine or not, if the same handlers ended in time. And then nothing that the
engine does changes them, even if it no longer holds the run. -/
theorem runs_apart :
    (∀ t : Tenure, ∃ is, t.Reads is ∧
      (t.now.tale t.run).map (·.seq) = List.range' 1 (t.now.tale t.run).length) ∧
    (∀ (a b : Tenure) (is js : List Input), a.Resembles b → a.Reads is → b.Reads js →
      a.IsLeft → b.IsLeft → a.record.status.isTerminal = true → b.record.status.isTerminal = true →
      Agree (verdicts a.world is a.outset) (verdicts b.world js b.outset) →
      a.record.result = b.record.result ∧ a.chronicle = b.chronicle) ∧
    ∀ (t : Tenure) (later : List Deed), t.IsLeft → t.record.status.isTerminal = true →
      (∀ d ∈ later, d.IsSteady) → (∀ d ∈ later, ∀ c, d.Asks t.run t.machine c → c.isStart = true) →
      (after later t.now).Sole t.run t.machine →
      ((after later t.now).machine t.machine).run.result = t.record.result ∧
        (after later t.now).tale t.run = t.now.tale t.run := by
  refine ⟨fun t => ?_, fun a b is js hab hi hj ha hb hta htb hagree => ?_, fun t later hl ht hd hc hs => ?_⟩
  · obtain ⟨h, -, -⟩ := t.follows
    obtain ⟨is, hi, hf⟩ := h.meets t.steady t.sole
    exact ⟨is, ⟨hi, hf.mirrors.machine_eq, hf.tale⟩, t.numbered⟩
  · obtain ⟨inTime, hvi, hvj⟩ := hagree.exists_inTime
    have hra := hi.chronicle_eq
    have hrb := hj.chronicle_eq
    rw [record, hi.machine] at hta ⊢
    rw [record, hj.machine] at htb ⊢
    have hpj := hj.isPlain hb
    rw [← hab.world] at hvj htb hrb ⊢
    rw [← hab.registry, ← hab.flows] at hpj
    obtain ⟨hgist, -⟩ := after_gist a.outset_isSound (a.outset_undisturbed _) b.outset_isSound
      (b.outset_undisturbed _) hab.bearing (hi.isControlled ha) (fun j hm => controls_of_isPlain (hpj j hm))
      hvi hvj hta htb
    have hheard := after_heard a.outset_isSound (a.outset_undisturbed _) b.outset_isSound
      (b.outset_undisturbed _) hab.bearing (hi.isPlain ha) hpj hvi hvj hta htb rfl
    exact ⟨Machine.result_of_gist hgist hta, by rw [hra, hrb, hheard]⟩
  · obtain ⟨h, -, -⟩ := t.follows
    obtain ⟨is, hi, hf⟩ := h.meets t.steady t.sole
    have hreads : t.Reads is := ⟨hi, hf.mirrors.machine_eq, hf.tale⟩
    obtain ⟨hsound, hundisturbed⟩ := after_undisturbed (w := t.world) t.outset_isSound
      (t.outset_undisturbed _) (hreads.isControlled hl)
    rw [record, hreads.machine] at ht
    obtain ⟨hgist, htale⟩ := hf.ended hsound hundisturbed ht hd hc hs
    refine ⟨(Machine.result_of_gist hgist.symm ?_).symm, htale⟩
    rw [show (after t.since t.made).machine t.machine = _ from hreads.machine]
    exact ht

/-- A flow with one node, which chooses a label. -/
def choice : Flow :=
  { id := "f", nodes := [{ id := "n", kind := "if", config := [("condition", .bool true)] }] }

/-- An engine that has made a run of that flow. -/
def choosing (before : List Deed) : Engine :=
  match (after before (opened {} [] none [])).createFrom choice { id := some "r" } with
  | .ok made => made.1
  | .error _ => opened {} [] none []

/-- A run is started, and its engine takes some steps. -/
def started (n : Nat) : List Deed :=
  .start "r" :: List.replicate n .step

theorem started_isSteady (n : Nat) : ∀ d ∈ started n, d.IsSteady := by
  simp [started, List.mem_replicate, Deed.IsSteady]

/-- The run alone on its engine. -/
def alone : Tenure where
  world := { settings := {} }
  registry := []
  shared := []
  before := []
  flow := choice
  request := { id := some "r" }
  made := choosing []
  machine := 0
  since := started 28
  builtin := by simp [Registry.IsBuiltin]
  calm := by simp
  making := by with_unfolding_all rfl
  steady := started_isSteady 28
  sole := by
    show ∀ j, j < _ → _
    decide +kernel
  held := by decide +kernel

/-- Another run of the flow, which is going to pause. -/
def other : List Deed :=
  [.create choice { id := some "s", breakpoints := ["n"] }, .start "s"]

/-- The run beside the other one. -/
def beside : Tenure where
  world := { settings := {} }
  registry := []
  shared := []
  before := other
  flow := choice
  request := { id := some "r" }
  made := choosing other
  machine := 1
  since := started 52
  builtin := by simp [Registry.IsBuiltin]
  calm := by simp [other, Deed.IsCalm]
  making := by with_unfolding_all rfl
  steady := started_isSteady 52
  sole := by
    show ∀ j, j < _ → _
    decide +kernel
  held := by decide +kernel

/-- A run that takes its steps in turn with another one ends as it does alone. -/
theorem runs_apart_choosing : ∃ is js, alone.Reads is ∧ beside.Reads js ∧
    Agree (verdicts alone.world is alone.outset) (verdicts beside.world js beside.outset) ∧
    alone.record.status.isTerminal = true ∧ beside.record.status.isTerminal = true ∧
    alone.record.result = beside.record.result ∧ alone.chronicle = beside.chronicle ∧
    (after [.step] beside.now).tale "r" = beside.now.tale "r" := by
  obtain ⟨reads, resembling, ended⟩ := runs_apart
  obtain ⟨is, hi, -⟩ := reads alone
  obtain ⟨js, hj, -⟩ := reads beside
  have hleft (n k : Nat) : ∀ d ∈ started n, ∀ c, d.Asks "r" k c → c.isStart = true := by
    simp [started, List.mem_replicate, Deed.Asks]
  have hrun : alone.run = "r" ∧ beside.run = "r" := by decide +kernel
  have ha : alone.IsLeft := by
    rw [IsLeft, hrun.1]
    exact hleft 28 0
  have hb : beside.IsLeft := by
    rw [IsLeft, hrun.2]
    exact hleft 52 1
  have hab : alone.Resembles beside :=
    ⟨rfl, by with_unfolding_all rfl, by with_unfolding_all rfl, hrun.1.trans hrun.2.symm, rfl,
      by with_unfolding_all rfl⟩
  -- The course of the run leads past no handler.
  have hcourse : (∀ j, j < 31 → ((Bearing.next (alone.world.background [] []) fun _ => true)^[j]
      (alone.outset.bearing 0)).settled = 0) ∧
      ((Bearing.next (alone.world.background [] []) fun _ => true)^[30]
        (alone.outset.bearing 0)).stance.isNone = true := by decide +kernel
  have hunsettled (j : Nat) : ((Bearing.next (alone.world.background [] []) fun _ => true)^[j]
      (alone.outset.bearing 0)).settled = 0 := by
    by_cases hj : j < 31
    · exact hcourse.1 j hj
    · obtain ⟨i, rfl⟩ := Nat.exists_eq_add_of_le' (show 30 ≤ j by omega)
      rw [Bearing.iterate_idle (Option.isNone_iff_eq_none.mp hcourse.2)]
      exact hcourse.1 30 (by decide)
  have hnone : verdicts alone.world is alone.outset = [] := by
    have hbare : alone.made.registry = [] ∧ alone.made.flows = [] :=
      ⟨by with_unfolding_all rfl, by with_unfolding_all rfl⟩
    have hmoved := hi.isControlled ha
    rw [hbare.1, hbare.2] at hmoved
    exact verdicts_eq_nil alone.outset_isSound (alone.outset_undisturbed _) hmoved hunsettled
  have hta : alone.record.status.isTerminal = true := by decide +kernel
  have htb : beside.record.status.isTerminal = true := by decide +kernel
  have hagree : Agree (verdicts alone.world is alone.outset) (verdicts beside.world js beside.outset) := by
    rw [hnone]
    rintro k u v ⟨⟩
  obtain ⟨hresult, hchronicle⟩ := resembling alone beside is js hab hi hj ha hb hta htb hagree
  refine ⟨is, js, hi, hj, hagree, hta, htb, hresult, hchronicle, ?_⟩
  have hend := (ended beside [.step] hb htb (by simp [Deed.IsSteady]) (by simp [Deed.Asks]) (by
    show ∀ j, j < _ → _
    decide +kernel)).2
  rwa [hrun.2] at hend

end Tenure

end Workflow
