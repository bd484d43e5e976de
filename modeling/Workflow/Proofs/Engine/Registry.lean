import Workflow.Proofs.Engine.Tale
/-!
The tables in which an engine keeps its runs. The runs that it holds are those in its store, and the bus
numbers and recalls events of no others, but for runs that go on to tell of themselves after they have
been let go of.
-/

namespace Workflow.Engine

variable {d : Deed} {ds : List Deed} {e e' e'' : Engine} {run : String}

/-- The tables have distinct keys, and what is stored is what is held. -/
structure Accords (e : Engine) : Prop where
  stored : e.stored = e.runs
  runs : (Entries.keys e.runs).Nodup
  last : (Entries.keys e.bus.last).Nodup
  recent : (Entries.keys e.bus.recent).Nodup

def Holds (e : Engine) (run : String) : Prop :=
  run ∈ Entries.keys e.runs

/-- Whether the bus has numbered events of a run or keeps some. -/
def Recalls (e : Engine) (run : String) : Prop :=
  run ∈ Entries.keys e.bus.last ∨ run ∈ Entries.keys e.bus.recent

theorem Accords.congr (h : e.Accords) (hr : e'.runs = e.runs) (hs : e'.stored = e.stored)
    (hl : e'.bus.last = e.bus.last) (hk : e'.bus.recent = e.bus.recent) : e'.Accords :=
  ⟨by rw [hs, hr, h.stored], hr ▸ h.runs, hl ▸ h.last, hk ▸ h.recent⟩

/-- What a part of a deed does to the tables, as far as they tell of a run. -/
inductive Turns (run : String) (e e' : Engine) : Prop
  | same (hh : e.Holds run → e'.Holds run) (hr : e'.Recalls run → e.Recalls run)
      (ht : e'.tale run = e.tale run)
  | tells (ht : e'.tale run ≠ e.tale run)
  | forgets (hr : ¬ e'.Recalls run)

theorem Turns.of_eq (hr : e'.runs = e.runs) (hl : e'.bus.last = e.bus.last)
    (hk : e'.bus.recent = e.bus.recent) (he : e'.emitted = e.emitted) : Turns run e e' :=
  .same (by rw [Holds, Holds, hr]; exact id) (by rw [Recalls, Recalls, hl, hk]; exact id) (tale_congr he)

theorem emit_turns (h : e.Accords) (k : MachineId) (type : String) (payload : Entries Value)
    (view : RunView) : (e.emit k type payload view).Accords ∧ Turns run e (e.emit k type payload view) := by
  obtain ⟨g, p, hs⟩ := emit_shape e k type payload view
  have hrun : (e.bus.emit e.now (e.machine k).run.id type payload).2.1.run = (e.machine k).run.id := rfl
  have hnew : (e.emit k type payload view).emitted =
      [(e.bus.emit e.now (e.machine k).run.id type payload).2.1] ++ e.emitted := congrArg Engine.emitted hs
  have ht := tale_append hnew run
  rw [List.filter_singleton, hrun] at ht
  rw [hs] at ht ⊢
  refine ⟨⟨h.stored, h.runs, Entries.nodup_keys_insert h.last, Entries.nodup_keys_insert h.recent⟩, ?_⟩
  by_cases hr : (e.machine k).run.id = run
  · refine .tells ?_
    rw [ht]
    simp [hr]
  · refine .same id (Or.imp (fun hm => ?_) fun hm => ?_) ?_
    · exact (Entries.mem_keys_insert.mp hm).resolve_left (Ne.symm hr)
    · exact (Entries.mem_keys_insert.mp hm).resolve_left (Ne.symm hr)
    · rw [ht, beq_eq_false_iff_ne.mpr hr]
      exact List.append_nil _

theorem release_turns (h : e.Accords) (other : String) :
    (e.release other).Accords ∧ Turns run e (e.release other) := by
  obtain ⟨g, hs⟩ := release_shape e other
  have erased {α : Type} {es : Entries α} (hn : (Entries.keys es).Nodup) :
      run ∈ Entries.keys (Entries.erase other es) ↔ run ≠ other ∧ run ∈ Entries.keys es := by
    rw [← Entries.contains_iff, Entries.contains_erase hn, Entries.contains_iff]
  rw [hs]
  refine ⟨⟨congrArg (Entries.erase other) h.stored, Entries.nodup_keys_erase h.runs,
    Entries.nodup_keys_erase h.last, Entries.nodup_keys_erase h.recent⟩, ?_⟩
  by_cases hr : run = other
  · refine .forgets fun hm => ?_
    rcases hm with hm | hm
    · exact ((erased h.last).mp hm).1 hr
    · exact ((erased h.recent).mp hm).1 hr
  · exact .same (fun hm => (erased h.runs).mpr ⟨hr, hm⟩)
      (Or.imp (fun hm => ((erased h.last).mp hm).2) fun hm => ((erased h.recent).mp hm).2) rfl

/-- A part of a deed keeps the tables in accord. -/
theorem Stir.turns (h : Stir d e e') (ha : e.Accords) (run : String) : e'.Accords ∧ Turns run e e' := by
  have same {e' : Engine} (hr : e'.runs = e.runs) (hs : e'.stored = e.stored)
      (hl : e'.bus.last = e.bus.last) (hk : e'.bus.recent = e.bus.recent)
      (he : e'.emitted = e.emitted) : e'.Accords ∧ Turns run e e' :=
    ⟨ha.congr hr hs hl hk, .of_eq hr hl hk he⟩
  cases h with
  | still h =>
    exact same (congrArg Books.runs h) (congrArg Books.stored h) (congrArg (·.bus.last) h)
      (congrArg (·.bus.recent) h) (congrArg Books.emitted h)
  | emit k type payload view => exact emit_turns ha k type payload view
  | release other => exact release_turns ha other
  | hold hd id hf h =>
    have hr : e'.runs = Entries.insert id e.machines.size e.runs := congrArg Books.runs h
    have hs : e'.stored = Entries.insert id e.machines.size e.stored := congrArg Books.stored h
    have hl : e'.bus.last = e.bus.last := congrArg (·.bus.last) h
    have hk : e'.bus.recent = e.bus.recent := congrArg (·.bus.recent) h
    refine ⟨⟨by rw [hs, hr, ha.stored], hr ▸ Entries.nodup_keys_insert ha.runs, hl ▸ ha.last,
      hk ▸ ha.recent⟩, .same (fun hh => ?_) ?_ (tale_congr (congrArg Books.emitted h))⟩
    · rw [Holds, hr, Entries.mem_keys_insert]
      exact .inr hh
    · rw [Recalls, Recalls, hl, hk]
      exact fun hm => hm
  | make hd h =>
    exact same (congrArg Books.runs h) (congrArg Books.stored h) (congrArg (·.bus.last) h)
      (congrArg (·.bus.recent) h) (congrArg Books.emitted h)
  | attach hd hk =>
    obtain ⟨g, ps, h⟩ := Debugger.openSession_sameRuns _ _ e
    rw [h]
    exact same rfl rfl rfl rfl rfl
  | @detach other hd =>
    obtain ⟨g, ps, h⟩ := Debugger.dropRetired_sameRuns other (Debugger.closeSession other e)
    rw [h]
    exact same rfl rfl rfl rfl rfl
  | close hd => exact same rfl rfl rfl rfl rfl

theorem Stirs.accords (h : Stirs d e e') (ha : e.Accords) : e'.Accords := by
  induction h with
  | refl => exact ha
  | tail _ h ih => exact (h.turns ih "").1

/-- Of what the bus recalls after a deed it was told by the deed, or the run is held, unless the bus
recalled a run before that was not held. -/
theorem Stirs.recalls (h : Stirs d e e') (ha : e.Accords) (hr : e'.Recalls run) :
    e'.Holds run ∨ e'.tale run ≠ e.tale run ∨ e.Recalls run ∧ ¬ e.Holds run := by
  induction h with
  | refl => exact (Classical.em (e.Holds run)).imp_right fun hn => .inr ⟨hr, hn⟩
  | @tail f f' h g ih =>
    obtain ⟨as, has⟩ := (Stirs.grows h).emitted
    obtain ⟨bs, hbs⟩ := (Stir.grows g).emitted
    have ht := tale_append has run
    have ht' := tale_append hbs run
    rcases (g.turns (Stirs.accords h ha) run).2 with ⟨hh, hm, hs⟩ | hs | hn
    · rw [hs]
      exact (ih (hm hr)).imp_left hh
    · refine .inr (.inl fun he => hs ?_)
      rw [ht', ht, List.append_assoc] at he
      rw [ht', (List.append_eq_nil_iff.mp (List.append_right_eq_self.mp he)).2, List.append_nil]
    · exact absurd hr hn

/-- Whether one of some deeds tells of a run that is not held after it. -/
def Strays (run : String) : List Deed → Engine → Prop
  | [], _ => False
  | d :: ds, e => (e.meet d).tale run ≠ e.tale run ∧ ¬ (e.meet d).Holds run ∨ Strays run ds (e.meet d)

theorem IsOrderly.accords (he : e.IsOrderly) (ha : e.Accords) (ds : List Deed) : (Engine.after ds e).Accords :=
  (after_keeps (P := fun e => e.IsOrderly ∧ e.Accords)
    (fun d _ _ h => ⟨h.1.meet d, Stirs.accords (h.1.meets d).stirs h.2⟩) ⟨he, ha⟩).2

theorem after_recalls (he : e.IsOrderly) (ha : e.Accords) (hr : (after ds e).Recalls run) :
    (after ds e).Holds run ∨ Strays run ds e ∨ e.Recalls run ∧ ¬ e.Holds run := by
  induction ds generalizing e with
  | nil => exact (Classical.em (e.Holds run)).imp_right fun hn => .inr ⟨hr, hn⟩
  | cons d ds ih =>
    rcases ih (he.meet d) (Stirs.accords (he.meets d).stirs ha) hr with hh | hs | ⟨hm, hn⟩
    · exact .inl hh
    · exact .inr (.inl (.inr hs))
    · rcases Stirs.recalls (he.meets d).stirs ha hm with hh | ht | hb
      · exact absurd hh hn
      · exact .inr (.inl (.inl ⟨ht, hn⟩))
      · exact .inr (.inr hb)

theorem opened_accords (settings : Settings) (registry : Registry) (provider : Option ElementProvider)
    (shared : Entries Value) : (opened settings registry provider shared).Accords :=
  ⟨rfl, List.nodup_nil, List.nodup_nil, List.nodup_nil⟩

end Workflow.Engine
