import Workflow.Proofs.Engine.Mirror
import Workflow.Proofs.Engine.Stir
/-!
What an engine holds: under each id one run of that id, which is one of its machines, and of each
machine it is known how it came to where it is.
-/

namespace Workflow

/-- A run of which nothing has been asked yet. -/
def Machine.IsNew (m : Machine) : Prop :=
  ∃ id flow bindings breakpoints pauses stamp alone,
    m = { create id flow bindings breakpoints pauses stamp with standalone := alone }

namespace Machine.IsNew

variable {m : Machine}

theorem effects (h : m.IsNew) : m.effects = [] := by
  obtain ⟨_, _, _, _, _, _, _, rfl⟩ := h
  rfl

theorem main (h : m.IsNew) : m.main = none := by
  obtain ⟨_, _, _, _, _, _, _, rfl⟩ := h
  rfl

theorem status (h : m.IsNew) : m.run.status = .pending := by
  obtain ⟨_, _, _, _, _, _, _, rfl⟩ := h
  rfl

end Machine.IsNew

namespace Execution

variable {x : Execution}

theorem stepIn_origin (x : Execution) (env : Surroundings) :
    (x.stepIn env).machine.origin = x.machine.origin := by
  cases hx : x.active with
  | none =>
    unfold stepIn
    rw [hx]
  | some s =>
    rw [stepIn_eq hx]
    exact (Machine.turn_origin _ _ _).1.trans (Machine.step_upholds _ _ _ _ _).origin

/-- Whatever happens to a run, it stays the run that was made. -/
theorem meet_origin (x : Execution) (h : Happening) : (x.meet h).machine.origin = x.machine.origin := by
  have hu := x.undergoes h
  generalize x.meet h = y at hu ⊢
  cases hu with
  | refused => rfl
  | @begin t =>
    have hb := x.begins t
    generalize x.begin t = y at hb ⊢
    cases hb with
    | dismissed => exact (Machine.turn_origin x.machine t (.stop .interrupted)).1
    | _ => rfl
  | step env => exact stepIn_origin x env
  | tell => exact (Machine.Upholds.tell x.machine _ _).origin
  | grant => rfl
  | @command c => exact Machine.obey_origin x.machine c
  | interrupt => exact (Machine.interruptMain_abides x.machine).origin

theorem following_origin (hs : List Happening) (x : Execution) :
    (following hs x).machine.origin = x.machine.origin := by
  induction hs generalizing x with
  | nil => rfl
  | cons h hs ih => rw [following, ih, meet_origin]

end Execution

namespace Engine

open Execution

variable {d : Deed} {e e' e'' : Engine} {k : MachineId} {x : Execution} {run : String}

/-- No run has been made, and at most some are let go of. -/
structure Sheds (e e' : Engine) : Prop where
  made : e'.machines.size = e.machines.size
  keys : (Entries.keys e.runs).Nodup → (Entries.keys e'.runs).Nodup
  held : (Entries.keys e.runs).Nodup → ∀ {run k}, Entries.find? run e'.runs = some k →
    Entries.find? run e.runs = some k

theorem Sheds.trans (h : Sheds e e') (g : Sheds e' e'') : Sheds e e'' where
  made := g.made.trans h.made
  keys hn := g.keys (h.keys hn)
  held hn _ _ hf := h.held hn (g.held (h.keys hn) hf)

theorem Sheds.of_books (h : e'.books = e.books) : Sheds e e' := by
  have hr : e'.runs = e.runs := congrArg Books.runs h
  exact ⟨congrArg Books.made h, fun hn => hr ▸ hn, fun _ _ _ hf => hr ▸ hf⟩

theorem release_sheds (e : Engine) (run : String) : Sheds e (e.release run) := by
  have hr : (e.release run).runs = Entries.erase run e.runs := by
    obtain ⟨g, h⟩ := release_shape e run
    exact congrArg Engine.runs h
  refine ⟨(release_rests e run).size, fun hn => ?_, fun hn r k hf => ?_⟩
  · rw [hr]
    exact Entries.nodup_keys_erase hn
  · rw [hr, Entries.find?_erase hn] at hf
    split at hf
    · cases hf
    · exact hf

theorem Stir.sheds (h : Stir .step e e') : Sheds e e' := by
  cases h with
  | still h => exact .of_books h
  | emit k type payload view =>
    obtain ⟨g, p, h⟩ := emit_shape e k type payload view
    rw [h]
    exact ⟨rfl, id, fun _ _ _ hf => hf⟩
  | release run => exact release_sheds e run
  | hold hd i hf h => exact absurd hd id
  | make hd h => exact absurd hd id
  | attach hd hk => exact absurd hd id
  | detach hd => exact absurd hd id
  | close hd => cases hd

theorem Stirs.sheds (h : Stirs .step e e') : Sheds e e' := by
  induction h with
  | refl => exact .of_books rfl
  | tail _ h ih => exact ih.trans h.sheds

/-- A part of a deed makes one run at most. -/
theorem Change.sheds (h : Change d e e') : Sheds e e' ∨ ∃ m : Machine, m.IsNew ∧
    e' = (e.addMachine m).1 ∧
      (m.standalone = false → Entries.contains m.run.id e.runs = false) := by
  cases h with
  | aside h =>
    exact .inl (.of_books
      (by simp [books, h.machines, h.runs, h.stored, h.bus, h.debugger, h.emitted]))
  | turn ha => exact .inl (stepActive_stirs _ _).sheds
  | @begin k t rest ha hr =>
    have h := (begin_stirs (d := .step) { e with round := rest } k t).sheds
    exact .inl ⟨h.made, h.keys, h.held⟩
  | @tell a rest ha hr =>
    have h := (onMachine_stirs (d := .step) { e with round := rest } a.machine (·.tell a.task a.ticket)).sheds
    exact .inl ⟨h.made, h.keys, h.held⟩
  | command c ha hk hs => exact .inl (onMachine_stirs _ _ _).sheds
  | interrupt ha hd hk => exact .inl (onMachine_stirs _ _ _).sheds
  | release run => exact .inl (release_sheds e run)
  | make hd id f vars breakpoints pauses hf => exact .inr ⟨_, ⟨_, _, _, _, _, _, false, rfl⟩, rfl, fun _ => hf⟩
  | makeStandalone hd id f vars breakpoints pauses => exact .inr ⟨_, ⟨_, _, _, _, _, _, true, rfl⟩, rfl, by rintro ⟨⟩⟩
  | attach hd ho hk =>
    obtain ⟨g, ps, h⟩ := Debugger.openSession_sameRuns _ _ e
    rw [h]
    exact .inl ⟨rfl, id, fun _ _ _ hf => hf⟩
  | @detach given hd ho =>
    obtain ⟨g, ps, h⟩ := Debugger.dropRetired_sameRuns (given.field "runId").name
      (Debugger.tellState (given.field "runId").name (Debugger.closeSession (given.field "runId").name e))
    rw [h]
    exact .inl ⟨rfl, id, fun _ _ _ hf => hf⟩
  | observers => exact .inl ⟨rfl, id, fun _ _ _ hf => hf⟩
  | close hd => exact .inl ⟨rfl, id, fun _ _ _ hf => hf⟩

structure IsOrderly (e : Engine) : Prop where
  bounded : e.IsBounded
  mirrored : ∀ k, k < e.machines.size → ∃ x, e.Mirrors k x
  keys : (Entries.keys e.runs).Nodup
  held : ∀ {run k}, Entries.find? run e.runs = some k → k < e.machines.size ∧
    (e.machine k).run.id = run ∧ (e.machine k).standalone = false

theorem Mirrors.machine_eq (h : e.Mirrors k x) : e.machine k = x.machine :=
  machine_of_getElem? h.machine

/-- A machine that has just been made. -/
theorem addMachine_mirrors (h : e.IsBounded) {m : Machine} (hm : m.effects = []) :
    (e.addMachine m).1.Mirrors e.machines.size (ofMachine m) := by
  have hv := h.vacant e.machines.size (Nat.le_refl _)
  refine ⟨?_, hm, fun hp => absurd hp (hv.pends _ _), ?_, fun hq => absurd hq (hv.queue _), by rintro s ⟨⟩⟩
  · show (e.machines.push m)[e.machines.size]? = _
    rw [Array.getElem?_push, if_pos rfl]
    rfl
  · show strandOf e.machines.size e.active = none
    cases ha : e.active with
    | none => rfl
    | some a => exact if_neg (Nat.ne_of_lt (h.active a ha))

/-- A part of a deed leaves every run the run that it is. -/
theorem Change.origin (h : Change d e e') (he : e.IsOrderly) (hk : k < e.machines.size) :
    (e'.machine k).origin = (e.machine k).origin := by
  obtain ⟨j, new, -, -, -, hact⟩ := h.acts he.bounded
  obtain ⟨x, hx⟩ := he.mirrored k hk
  obtain ⟨hs, -, hm, -⟩ := hact k x hx
  rw [hm.machine_eq, hx.machine_eq, following_origin]

theorem IsOrderly.change (he : e.IsOrderly) (h : Change d e e') : e'.IsOrderly := by
  have kept {run k} (hf : Entries.find? run e.runs = some k) :
      (e'.machine k).run.id = run ∧ (e'.machine k).standalone = false := by
    obtain ⟨hk, hid, hs⟩ := he.held hf
    have ho := h.origin he hk
    exact ⟨(congrArg Machine.Origin.id ho).trans hid, (congrArg Machine.Origin.standalone ho).trans hs⟩
  have mirrored (k) (hk : k < e.machines.size) : ∃ x, e'.Mirrors k x := by
    obtain ⟨j, new, -, -, -, hact⟩ := h.acts he.bounded
    obtain ⟨x, hx⟩ := he.mirrored k hk
    obtain ⟨hs, -, hm, -⟩ := hact k x hx
    exact ⟨_, hm⟩
  rcases h.sheds with hs | ⟨m, hm, rfl, hid⟩
  · refine ⟨h.isBounded he.bounded, fun k hk => mirrored k (hs.made ▸ hk), hs.keys he.keys, fun hf => ?_⟩
    have hf := hs.held he.keys hf
    exact ⟨hs.made.symm ▸ (he.held hf).1, kept hf⟩
  · have hsize : (e.addMachine m).1.machines.size = e.machines.size + 1 := Array.size_push m
    have hnew := addMachine_mirrors he.bounded hm.effects
    refine ⟨h.isBounded he.bounded, fun k hk => ?_, ?_, fun {run k} hf => ?_⟩
    · rw [hsize] at hk
      rcases Nat.lt_succ_iff_lt_or_eq.mp hk with hk | rfl
      · exact mirrored k hk
      · exact ⟨_, hnew⟩
    · show (Entries.keys (if m.standalone then e.runs else _)).Nodup
      split
      · exact he.keys
      · exact Entries.nodup_keys_insert he.keys
    · rw [hsize]
      have old (hf : Entries.find? run e.runs = some k) : k < e.machines.size + 1 ∧ _ :=
        ⟨Nat.lt_succ_of_lt (he.held hf).1, kept hf⟩
      have hf : Entries.find? run (if m.standalone then e.runs
        else Entries.insert m.run.id e.machines.size e.runs) = some k := hf
      split at hf
      · exact old hf
      · rename_i hst
        rw [Entries.find?_insert] at hf
        split at hf
        · rename_i hr
          cases hf
          rw [hnew.machine_eq]
          exact ⟨Nat.lt_succ_self _, hr.symm, Bool.eq_false_iff.mpr hst⟩
        · exact old hf

theorem IsOrderly.changes (he : e.IsOrderly) (h : Changes d e e') : e'.IsOrderly := by
  induction h with
  | refl => exact he
  | tail _ h ih => exact ih.change h

/-- A run that has just been made. -/
theorem createFrom_shape {f : Flow} {q : RunRequest} (h : e.createFrom f q = .ok (e', k)) :
    ∃ e₀ id stamp, Aside .step e e₀ ∧ Entries.contains id e₀.runs = false ∧ k = e₀.machines.size ∧
      e' = (e₀.addMachine (.create id f (e.startValues f q) q.breakpoints q.pauseOnStart stamp)).1 := by
  have hvars : (e.freshId q.id).1.startValues f q = e.startValues f q := by
    unfold Engine.freshId
    split <;> rfl
  unfold createFrom at h
  dsimp only at h
  split at h
  · cases h
  · rename_i hf
    have h := Except.ok.inj h
    rw [hvars] at h
    exact ⟨_, _, _, .freshId e q.id, (Bool.or_eq_false_iff.mp (Bool.eq_false_iff.mpr hf)).1,
      (congrArg (·.2) h).symm, (congrArg (·.1) h).symm⟩

/-- A deed is made of changes. -/
theorem IsOrderly.meets (he : e.IsOrderly) (d : Deed) : Changes d e (e.meet d) :=
  meet_changes (fun _ _ hf => (he.held hf).2.2) d

theorem IsOrderly.meet (he : e.IsOrderly) (d : Deed) : (e.meet d).IsOrderly :=
  he.changes (he.meets d)

theorem IsOrderly.after (he : e.IsOrderly) (ds : List Deed) : (after ds e).IsOrderly :=
  after_keeps (fun d _ _ h => h.meet d) he

theorem opened_isOrderly (settings : Settings) (registry : Registry)
    (provider : Option ElementProvider) (shared : Entries Value) :
    (opened settings registry provider shared).IsOrderly where
  bounded := ⟨fun k _ => ⟨by
    rintro t n (h | h | ⟨u, hu, -⟩)
    · cases h
    · cases h
    · simp [opened, create] at hu, by rintro t ⟨⟩⟩, by rintro a ⟨⟩⟩
  mirrored k hk := absurd hk (Nat.not_lt_zero k)
  keys := List.nodup_nil
  held hf := by cases hf

/-! Each run. -/

/-- Something holds of the execution of each run. -/
def Each (Q : Execution → Prop) (e : Engine) : Prop :=
  ∀ k, k < e.machines.size → ∃ x, e.Mirrors k x ∧ Q x

section each

variable {Q : Execution → Prop} (new : ∀ m : Machine, m.IsNew → Q (ofMachine m))
  (kept : ∀ x h, Q x → Q (x.meet h))

include kept in
theorem following_kept (hs : List Happening) (hx : Q x) : Q (following hs x) := by
  induction hs generalizing x with
  | nil => exact hx
  | cons h hs ih => exact ih (kept x h hx)

include new kept

/-- What holds of a run that has just been made, and whatever happens to a run keeps, holds of each run. -/
theorem Each.change (h : e.Each Q) (he : e.IsOrderly) (hc : Change d e e') : e'.Each Q := by
  have old (k) (hk : k < e.machines.size) : ∃ x, e'.Mirrors k x ∧ Q x := by
    obtain ⟨j, made, -, -, -, hact⟩ := hc.acts he.bounded
    obtain ⟨x, hx, hq⟩ := h k hk
    obtain ⟨hs, -, hm, -⟩ := hact k x hx
    exact ⟨_, hm, following_kept kept hs hq⟩
  intro k hk
  rcases hc.sheds with hs | ⟨m, hm, rfl, -⟩
  · exact old k (hs.made ▸ hk)
  · rcases Nat.lt_succ_iff_lt_or_eq.mp (Nat.lt_of_lt_of_eq hk (Array.size_push m)) with hk | rfl
    · exact old k hk
    · exact ⟨_, addMachine_mirrors he.bounded hm.effects, new m hm⟩

theorem Each.meet (h : e.Each Q) (he : e.IsOrderly) (d : Deed) : (e.meet d).Each Q := by
  have hs := he.meets d
  generalize e.meet d = e' at hs
  have both : e'.IsOrderly ∧ e'.Each Q := by
    induction hs with
    | refl => exact ⟨he, h⟩
    | tail _ hc ih => exact ⟨ih.1.change hc, ih.2.change new kept ih.1 hc⟩
  exact both.2

theorem each_after (settings : Settings) (registry : Registry) (provider : Option ElementProvider)
    (shared : Entries Value) (ds : List Deed) :
    (after ds (opened settings registry provider shared)).Each Q :=
  (after_keeps (P := fun e => e.IsOrderly ∧ e.Each Q)
    (fun d _ _ h => ⟨h.1.meet d, h.2.meet new kept h.1 d⟩)
    ⟨opened_isOrderly _ _ _ _, fun _ hk => absurd hk (Nat.not_lt_zero _)⟩).2

end each

end Engine

end Workflow
