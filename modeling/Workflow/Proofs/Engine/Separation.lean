import Workflow.Proofs.Engine.Tale
import Workflow.Proofs.Run.Story
/-!
Runs of one engine do not interfere with each other. Whatever else an engine does meanwhile, each of its
runs is an execution of its own: it moves and obeys what is asked of it, and its events, which the engine
numbers, are those of that execution.
-/

namespace Workflow

/-- A deed that leaves handlers and flows as they are and cancels no task. -/
def Deed.IsSteady : Deed → Prop
  | .setHandlers _ | .keepFlow _ _ | .deleteFlow _ | .cancelTask _ => False
  | _ => True

theorem Deed.IsSteady.isCalm {d : Deed} (h : d.IsSteady) : d.IsCalm := by
  cases d <;> first | exact trivial | exact absurd h id

/-- Whether a deed may ask a run for something. -/
def Deed.Asks (run : String) (k : MachineId) (c : Command) : Deed → Prop
  | .start r => r = run ∧ c.isStart = true
  | .startStandalone j => j = k ∧ c.isStart = true
  | .cancel r _ _ | .discard r => r = run ∧ c.isCancel = true
  | .shutdown => c.isCancel = true
  | .command j c' => j = k ∧ c = c'
  | .debug given => (given.field "runId").name = run ∧ c.Steers (Debugger.opOf given) given
  | _ => False

/-- What may come in to a run of which something is asked. -/
def Input.Comes (r : Registry) (flows : Entries Flow) (asked : Command → Prop) : Input → Prop
  | .move a => (Input.move a).Controls r flows
  | .command c => asked c

theorem Input.Comes.mono {r : Registry} {flows : Entries Flow} {i : Input}
    {asked asked' : Command → Prop} (h : i.Comes r flows asked) (ha : ∀ c, asked c → asked' c) : i.Comes r flows asked' := by
  cases i with
  | move a => exact h
  | command c => exact ha c h

theorem Input.Comes.isPlain {r : Registry} {flows : Entries Flow} {i : Input} {asked : Command → Prop}
    (h : i.Comes r flows asked) (ha : ∀ c, asked c → c.isStart = true) : i.IsPlain r flows := by
  cases i with
  | move a => exact h
  | command c =>
    have hs := ha c h
    cases c with
    | start slotted => exact ⟨slotted, rfl⟩
    | _ => cases hs

namespace Engine

open Execution

variable {d : Deed} {ds : List Deed} {e e' : Engine} {k : MachineId} {run : String} {x : Execution}
  {w : World} {r : Registry} {flows : Entries Flow} {c : Command}

theorem IsOrderly.asks (he : e.IsOrderly) (hid : (e.machine k).run.id = run) (h : d.Gives e k c) :
    d.Asks run k c := by
  have same {other : String} (hf : Entries.find? other e.runs = some k) : other = run :=
    (he.held hf).2.1.symm.trans hid
  cases d with
  | start other => exact ⟨same h.1, h.2⟩
  | cancel other reason waits => exact ⟨same h.1, h.2⟩
  | discard other => exact ⟨same h.1, h.2⟩
  | debug given => exact ⟨same h.1, h.2⟩
  | startStandalone j => exact h
  | shutdown => exact h
  | command j c' => exact h
  | _ => exact absurd h id

/-- No other run of the engine has the name of this one. -/
def Sole (run : String) (k : MachineId) (e : Engine) : Prop :=
  ∀ j, j < e.machines.size → (e.machine j).run.id = run → j = k

theorem Sole.before (h : Change d e e') (he : e.IsOrderly) (hs : e'.Sole run k) : e.Sole run k := by
  intro j hj hid
  refine hs j (Nat.lt_of_lt_of_le hj (Stirs.grows h.stirs).made) ?_
  exact (congrArg Machine.Origin.id (h.origin he hj)).trans hid

/-- An execution is what an engine has made of one of its runs. It goes where the machine goes, and has
the events that the engine has emitted. -/
structure Follows (w : World) (r : Registry) (flows : Entries Flow) (run : String) (k : MachineId)
    (e : Engine) (x : Execution) : Prop where
  orderly : e.IsOrderly
  obeys : e.Obeys w
  registry : e.registry = r
  flows : e.flows = flows
  mirrors : e.Mirrors k x
  named : (e.machine k).run.id = run
  held : (e.machine k).standalone = false
  tale : (e.tale run).map RunEvent.bare = x.events

theorem Follows.lt (h : Follows w r flows run k e x) : k < e.machines.size :=
  (Array.getElem?_eq_some_iff.mp h.mirrors.machine).1

/-- By a part of a deed a run makes moves and obeys what is asked of it. -/
theorem Follows.change (h : Follows w r flows run k e x) (hc : Change d e e') (hd : d.IsSteady)
    (hs : e'.Sole run k) : ∃ is : List Input, (∀ i ∈ is, i.Comes r flows fun c => d.Asks run k c) ∧
      Follows w r flows run k e' (Execution.after w is x) := by
  have horigin := hc.origin h.orderly h.lt
  have hsole := hs.before hc h.orderly
  have hnew : ∀ r, d ≠ .setHandlers r := by
    rintro r rfl
    exact hd
  obtain ⟨j, new, hemitted, hj, hrun, hact⟩ := hc.takes h.orderly.bounded h.obeys hd.isCalm
  obtain ⟨is, hsuits, hm, hev⟩ := hact k x h.mirrors
  have hw : w.around (e.machine k).standalone = w := by
    rw [h.held]
    rfl
  rw [hw] at hm hev
  refine ⟨is, fun i hi => ?_, h.orderly.change hc, hc.equips.obeys hnew h.obeys,
    (hc.equips.registry hnew).trans h.registry, ?_, hm, ?_, ?_, ?_⟩
  · have hi := hsuits i hi
    cases i with
    | command c => exact h.orderly.asks h.named hi.1
    | move a =>
      cases a with
      | step now =>
        obtain ⟨hr, hf⟩ := hi
        rw [h.held, if_neg (by decide), h.flows] at hf
        exact ⟨hr.trans h.registry, hf⟩
      | _ => trivial
  · refine (hc.equips.flows ?_ ?_).trans h.flows
    · rintro f b rfl
      exact hd
    · rintro id rfl
      exact hd
  · exact (congrArg Machine.Origin.id horigin).trans h.named
  · exact (congrArg Machine.Origin.standalone horigin).trans h.held
  · -- The new events are all of this run, or none is.
    rw [tale_append hemitted, List.map_append, h.tale, hev]
    congr 1
    by_cases hkj : k = j
    · subst hkj
      have hall : new.filter (·.run == run) = new :=
        List.filter_eq_self.mpr fun ev hm => beq_iff_eq.mpr ((hrun ev hm).trans h.named)
      rw [hall, if_pos rfl]
    · have hnone : new.filter (·.run == run) = [] := by
        refine List.filter_eq_nil_iff.mpr fun ev hm hev => hkj (hsole j (hj ?_) ?_).symm
        · rintro rfl
          cases hm
        · exact (hrun ev hm).symm.trans (beq_iff_eq.mp hev)
      rw [hnone, if_neg hkj]
      rfl

theorem Sole.changes (h : Changes d e e') (he : e.IsOrderly) (hs : e'.Sole run k) : e.Sole run k := by
  induction h with
  | refl => exact hs
  | tail hc h ih => exact ih (hs.before h (he.changes hc))

theorem Sole.since (he : e.IsOrderly) (hs : (after ds e).Sole run k) : e.Sole run k := by
  induction ds generalizing e with
  | nil => exact hs
  | cons d ds ih => exact (ih (he.meet d) hs).changes (he.meets d) he

theorem Follows.changes (h : Follows w r flows run k e x) (hc : Changes d e e') (hd : d.IsSteady)
    (hs : e'.Sole run k) : ∃ is : List Input, (∀ i ∈ is, i.Comes r flows fun c => d.Asks run k c) ∧
      Follows w r flows run k e' (Execution.after w is x) := by
  induction hc with
  | refl => exact ⟨[], by simp, h⟩
  | tail hc hlast ih =>
    obtain ⟨is, hi, hf⟩ := ih (hs.before hlast (h.orderly.changes hc))
    obtain ⟨js, hj, hg⟩ := hf.change hlast hd hs
    rw [← Execution.after_append] at hg
    exact ⟨is ++ js, List.forall_mem_append.mpr ⟨hi, hj⟩, hg⟩

/-- Whatever else an engine does, a run makes moves and obeys what is asked of it. -/
theorem Follows.meets (h : Follows w r flows run k e x) (hd : ∀ d ∈ ds, d.IsSteady)
    (hs : (after ds e).Sole run k) : ∃ is : List Input,
      (∀ i ∈ is, i.Comes r flows fun c => ∃ d ∈ ds, d.Asks run k c) ∧
        Follows w r flows run k (after ds e) (Execution.after w is x) := by
  induction ds generalizing e x with
  | nil => exact ⟨[], by simp, h⟩
  | cons d ds ih =>
    obtain ⟨is, hi, hf⟩ := h.changes (h.orderly.meets d) (hd d List.mem_cons_self)
      (hs.since (h.orderly.meet d))
    obtain ⟨js, hj, hg⟩ := ih hf (fun d hm => hd d (List.mem_cons_of_mem _ hm)) hs
    rw [← Execution.after_append] at hg
    refine ⟨is ++ js, List.forall_mem_append.mpr ⟨fun i hm => ?_, fun i hm => ?_⟩, hg⟩
    · exact Input.Comes.mono (hi i hm) fun c ha => ⟨d, List.mem_cons_self, ha⟩
    · exact Input.Comes.mono (hj i hm) fun c ⟨d, hd, ha⟩ => ⟨d, List.mem_cons_of_mem _ hd, ha⟩

/-! How the events are numbered. -/

theorem after_grows (he : e.IsOrderly) (ds : List Deed) : Grows e (after ds e) := by
  induction ds generalizing e with
  | nil => exact .refl e
  | cons d ds ih => exact (Stirs.grows (he.meets d).stirs).trans (ih (he.meet d))

/-- The events of a run are numbered as long as it is held, or says nothing. -/
theorem after_isNumbered (he : e.IsOrderly) (hm : (after ds e).tale run = [] ∨ k < e.machines.size)
    (hk : (after ds e).Keeps run k) (ht : e.IsNumbered run) : (after ds e).IsNumbered run := by
  induction ds generalizing e with
  | nil => exact ht
  | cons d ds ih =>
    have hg := after_grows (he.meet d) ds
    have hd := Stirs.grows (he.meets d).stirs
    have hsize := hm.imp_right fun hk => Nat.lt_of_lt_of_le hk hd.made
    refine ih (he.meet d) hsize hk ?_
    exact Stirs.isNumbered (he.meets d).stirs he.keys (hm.imp_left hg.tale)
      (hk.before hg (he.meet d).keys hsize) ht

theorem opened_isNumbered (settings : Settings) (registry : Registry)
    (provider : Option ElementProvider) (shared : Entries Value) (run : String) :
    (opened settings registry provider shared).IsNumbered run :=
  ⟨rfl, rfl, List.nodup_nil⟩

/-- Every event is one of a run of the engine. -/
def IsAuthored (e : Engine) : Prop :=
  ∀ ev ∈ e.emitted, ∃ j, j < e.machines.size ∧ (e.machine j).run.id = ev.run

theorem IsAuthored.change (h : e.IsAuthored) (he : e.IsOrderly) (hc : Change d e e') : e'.IsAuthored := by
  obtain ⟨j, new, hemitted, hj, hrun, -⟩ := hc.acts he.bounded
  have kept {i : MachineId} {id : String} (hi : i < e.machines.size) (hid : (e.machine i).run.id = id) :
      ∃ i, i < e'.machines.size ∧ (e'.machine i).run.id = id :=
    ⟨i, Nat.lt_of_lt_of_le hi (Stirs.grows hc.stirs).made,
      (congrArg Machine.Origin.id (hc.origin he hi)).trans hid⟩
  intro ev hev
  rw [hemitted] at hev
  rcases List.mem_append.mp hev with hev | hev
  · refine kept (hj ?_) (hrun ev hev).symm
    rintro rfl
    cases hev
  · obtain ⟨i, hi, hid⟩ := h ev hev
    exact kept hi hid

theorem IsAuthored.changes (h : e.IsAuthored) (he : e.IsOrderly) (hc : Changes d e e') : e'.IsAuthored := by
  induction hc with
  | refl => exact h
  | tail hc hlast ih => exact ih.change (he.changes hc) hlast

theorem IsAuthored.after (h : e.IsAuthored) (he : e.IsOrderly) (ds : List Deed) : (after ds e).IsAuthored := by
  induction ds generalizing e with
  | nil => exact h
  | cons d ds ih => exact ih (h.changes he (he.meets d)) (he.meet d)

/-! Runs that have ended. -/

/-- A run that has ended stays as it ended and says nothing more, whatever else an engine does. -/
theorem Follows.ended (h : Follows w r flows run k e x) (hx : x.IsSound) (hx' : x.Undisturbed r)
    (ht : x.machine.run.status.isTerminal = true) (hd : ∀ d ∈ ds, d.IsSteady)
    (ha : ∀ d ∈ ds, ∀ c, d.Asks run k c → c.isStart = true) (hs : (after ds e).Sole run k) :
    ((after ds e).machine k).gist = (e.machine k).gist ∧ (after ds e).tale run = e.tale run := by
  obtain ⟨is, hi, hf⟩ := h.meets hd hs
  obtain ⟨hgist, hevents⟩ := after_ended (w := w) hx hx' ht fun i hm =>
    Input.Comes.isPlain (hi i hm) fun c ⟨d, hd, hc⟩ => ha d hd c hc
  refine ⟨by rw [hf.mirrors.machine_eq, h.mirrors.machine_eq, hgist], ?_⟩
  obtain ⟨new, hnew⟩ := (after_grows h.orderly ds).emitted
  have htale := tale_append hnew run
  have hsame : ((after ds e).tale run).map RunEvent.bare = (e.tale run).map RunEvent.bare := by
    rw [hf.tale, hevents, h.tale]
  rw [htale, List.map_append, List.append_right_eq_self, List.map_eq_nil_iff] at hsame
  rw [htale, hsame, List.append_nil]

/-! Runs that have just been made. -/

/-- A run that has just been made, and whose name no other run has, has said nothing yet. -/
theorem createFrom_follows {f : Flow} {q : RunRequest} (he : e.IsOrderly) (ho : e.Obeys w)
    (ha : e.IsAuthored) (hn : e.tale run = [] → e.IsNumbered run)
    (hc : e.createFrom f q = .ok (e', k)) (hrun : (e'.machine k).run.id = run) (hs : e'.Sole run k) :
    Follows w e.registry e.flows run k e' (ofMachine (e'.machine k)) ∧ e'.IsNumbered run ∧
      ∃ stamp, e'.machine k =
        .create run f (e.startValues f q) q.breakpoints q.pauseOnStart stamp := by
  have hchanges : Changes (.create f q) e e' := createFrom_changes trivial hc
  have hsole : e.Sole run k := hs.changes hchanges he
  obtain ⟨e₀, id, stamp, haside, -, rfl, rfl⟩ := createFrom_shape hc
  have hm := addMachine_mirrors ((he.changes haside.change).bounded)
    (show (Machine.create id f (e.startValues f q) q.breakpoints q.pauseOnStart stamp).effects = [] from rfl)
  rw [hm.machine_eq] at hrun
  subst hrun
  have htale : e.tale id = [] := by
    refine List.reverse_eq_nil_iff.mpr (List.filter_eq_nil_iff.mpr fun ev hev hid => ?_)
    obtain ⟨j, hj, hauthor⟩ := ha ev hev
    have hk : j = e₀.machines.size := hsole j hj (hauthor.trans (beq_iff_eq.mp hid))
    rw [hk, haside.machines] at hj
    exact absurd hj (Nat.lt_irrefl _)
  have hemitted : (e₀.addMachine (.create id f (e.startValues f q) q.breakpoints q.pauseOnStart
    stamp)).1.emitted = e.emitted := haside.emitted
  rw [hm.machine_eq]
  refine ⟨⟨he.changes hchanges, ho.changes (by rintro r ⟨⟩) hchanges, haside.registry (by rintro r ⟨⟩),
    haside.flows (by rintro f b ⟨⟩) (by rintro i ⟨⟩), hm, ?_, ?_, ?_⟩, ?_, stamp, rfl⟩
  · rw [hm.machine_eq]
  · rw [hm.machine_eq]
    rfl
  · rw [tale_congr hemitted, show e.tale (Machine.run _).id = [] from htale]
    rfl
  · exact (hn htale).congr hemitted (congrArg Bus.last haside.bus :)

end Engine

end Workflow
