import Workflow.Proofs.Debug.Audience
import Workflow.Proofs.Event.Numbering
/-!
What an observer receives in the course of some deeds: the notices of the runs that it is told of by then,
one after the other, whatever other observers raise.
-/

namespace Workflow

namespace Debugger

variable {d : Debugger} {es : List RunEvent} {run : String} {x : Notice} {stand : String → Option Stand}

theorem note_isAttached (d : Debugger) (e : RunEvent) (run : String) :
    (d.note e).isAttached run = d.isAttached run := by
  obtain ⟨f, hf, h⟩ := takePosition_shape (d.takeValues e) e
  obtain ⟨lv, hv⟩ := takeValues_shape d e
  rw [note, h, hv]
  exact Engine.any_modify hf e.run d.sessions

/-- Nobody is told of the events of a run without an attached session. -/
theorem attached_of_mem_notices (h : x ∈ notices stand d es) : d.isAttached x.run = true := by
  induction es generalizing d with
  | nil => cases h
  | cons e es ih =>
    rcases List.mem_append.mp h with h | h
    · have hx : (d.note e).isAttached e.run = true ∧ x.run = e.run := by
        unfold noticesOf at h
        split at h
        · rename_i ha
          refine ⟨ha, ?_⟩
          rcases List.mem_append.mp h with h | h <;> split at h
          · rw [List.mem_singleton.mp h]; rfl
          · cases h
          · rw [List.mem_singleton.mp h]; rfl
          · cases h
        · cases h
      rw [hx.2, ← note_isAttached d e]
      exact hx.1
    · rw [← note_isAttached d e]
      exact ih h

end Debugger

namespace Engine

open Debugger

variable {d : Deed} {ds : List Deed} {e e' : Engine} {n : Nat} {run : String} {x : Notice}

/-! Who is told. -/

/-- Whether an observer comes to be told of a run by a deed. -/
def enrols (e : Engine) (n : Nat) (run : String) : Deed → Bool
  | .subscribe _ target => e.active.isNone && (n == e.debugger.nextObserver && isAbout target run)
  | _ => false

/-- Whether an observer is told of nothing any more after a deed. -/
def dismisses (e : Engine) (n : Nat) : Deed → Bool
  | .unsubscribe m => e.active.isNone && n == m
  | _ => false

theorem IsAttended.isHeard (h : e.IsAttended) : e.IsHeard :=
  h.tidy.listens

/-- A deed that is about observers is carried out while no task is in the middle of its steps. -/
theorem meet_enrolment (hd : d.IsEnrolment = true) : (e.active = none ∧ e.ask d = .ok (e.meet d)) ∨
    (e.active ≠ none ∧ e.meet d = e) := by
  have hm : e.meet d = if e.active.isNone then (e.ask d).toOption.getD e else e := by
    cases d <;> first | rfl | cases hd
  rw [hm]
  cases ha : e.active with
  | some a => exact .inr ⟨Option.some_ne_none a, rfl⟩
  | none =>
    refine .inl ⟨rfl, ?_⟩
    cases d <;> first | rfl | cases hd

theorem meet_roster (he : e.IsOrderly) (hl : e.IsHeard) (hr : e.debugger.HasRoster) (hd : d ≠ .closeDebugger) :
    (e.meet d).debugger.HasRoster ∧ ∀ n run, (e.meet d).debugger.hears n run =
      (e.debugger.hears n run && !e.dismisses n d || e.enrols n run d) := by
  cases hen : d.IsEnrolment with
  | false =>
    have h := meet_announces he hl hen
    refine ⟨hr.congr h.ofRun h.ofAll h.next, fun n run => ?_⟩
    have hno : e.dismisses n d = false ∧ e.enrols n run d = false := by
      cases d <;> first | exact ⟨rfl, rfl⟩ | cases hen
    rw [hno.1, hno.2, hears, hears, audience_congr h.ofRun h.ofAll, Bool.not_false, Bool.and_true, Bool.or_false]
  | true =>
    obtain ⟨ha, h⟩ | ⟨ha, h⟩ := meet_enrolment (e := e) hen
    · cases d with
      | subscribe name target =>
        rw [← Except.ok.inj h]
        refine ⟨hr.subscribe name target, fun n run => ?_⟩
        have hno : e.dismisses n (.subscribe name target) = false := rfl
        rw [subscribe_hears, hno, enrols, ha]
        simp
      | unsubscribe m =>
        rw [← Except.ok.inj h]
        refine ⟨hr.unsubscribe m, fun n run => ?_⟩
        have hno : e.enrols n run (.unsubscribe m) = false := rfl
        rw [unsubscribe_hears hr.keys, hno, dismisses, ha]
        simp [bne]
      | closeDebugger => exact absurd rfl hd
      | _ => cases hen
    · rw [h]
      refine ⟨hr, fun n run => ?_⟩
      have hno : e.dismisses n d = false ∧ e.enrols n run d = false := by
        cases ha' : e.active with
        | none => exact absurd ha' ha
        | some a => cases d <;> simp [dismisses, enrols, ha']
      rw [hno.1, hno.2, Bool.not_false, Bool.and_true, Bool.or_false]

/-! What is told. -/

theorem meet_messages (he : e.IsOrderly) (hl : e.IsHeard) (hd : d ≠ .closeDebugger) :
    ∃ ps, (e.meet d).messages = e.messages ++ ps ∧ Notice.Told e.debugger.audience (e.noticesBy d) ps := by
  cases hen : d.IsEnrolment with
  | false => exact (meet_announces he hl hen).told
  | true =>
    have same (hm : (e.meet d).messages = e.messages) (hemit : (e.meet d).emitted = e.emitted) :
        ∃ ps, (e.meet d).messages = e.messages ++ ps ∧ Notice.Told e.debugger.audience (e.noticesBy d) ps := by
      refine ⟨[], hm.trans (List.append_nil _).symm, ?_⟩
      have hr : e.reply d = [] := by cases d <;> first | rfl | cases hen
      rw [noticesBy, hr, notices_of_emitted _ hemit]
      exact .nil
    obtain ⟨-, h⟩ | ⟨-, h⟩ := meet_enrolment (e := e) hen
    · cases d with
      | subscribe name target =>
        have h := Except.ok.inj h
        exact same (h ▸ rfl) (h ▸ rfl)
      | unsubscribe m =>
        have h := Except.ok.inj h
        exact same (h ▸ rfl) (h ▸ rfl)
      | closeDebugger => exact absurd rfl hd
      | _ => cases hen
    · exact same (h.symm ▸ rfl) (h.symm ▸ rfl)

/-- But for attaching and detaching itself, nobody is told of a run without an attached session. -/
theorem attached_of_mem_noticesBy (h : x ∈ e.noticesBy d) :
    e.debugger.isAttached x.run = true ∨ d.Attaches x.run ∨ d.Detaches x.run := by
  rcases List.mem_append.mp h with h | h
  · exact .inl (attached_of_mem_notices h)
  · cases d with
    | debug given =>
      simp only [reply] at h
      split at h
      · rename_i hc
        cases List.mem_singleton.mp h
        simp only [Bool.and_eq_true, List.contains_iff_mem] at hc
        obtain ⟨⟨-, hok⟩, hop⟩ := hc
        show e.debugger.isAttached (given.field "runId").name = true ∨ (opOf given = "attach" ∧ _) ∨
          (opOf given = "detach" ∧ _)
        cases hatt : e.debugger.isAttached (given.field "runId").name with
        | true => exact .inl rfl
        | false =>
          by_cases ha : opOf given = "attach"
          · exact .inr (.inl ⟨ha, rfl⟩)
          · by_cases hd : opOf given = "detach"
            · exact .inr (.inr ⟨hd, rfl⟩)
            · have hnot : opOf given ∉ ["attach", "detach", "listRuns"] := by
                simp only [List.mem_cons, List.not_mem_nil, or_false, not_or]
                refine ⟨ha, hd, fun hl => ?_⟩
                rw [hl] at hop
                exact absurd hop (by decide)
              obtain ⟨r, hr⟩ := handle_unattached e hnot hatt
              rw [hr] at hok
              cases hok
      · cases h
    | _ => cases h

/-- What an observer is to be told of in the course of some deeds. -/
def noticesFor (n : Nat) : List Deed → Engine → List Notice
  | [], _ => []
  | d :: ds, e => (e.noticesBy d).filter (fun x => e.debugger.hears n x.run) ++ noticesFor n ds (e.meet d)

/-- Messages with those they are for. -/
def addressed (e : Engine) : List (Observer × Value) :=
  e.messages.map fun p => (p.observer, p.message)

/-- The messages to an observer among others. -/
def messagesTo (n : Nat) (ps : List (Observer × Value)) : List Value :=
  (ps.filter (·.1.number == n)).map (·.2)

theorem after_messages (he : e.IsAttended) (hr : e.debugger.HasRoster) (hds : .closeDebugger ∉ ds) :
    ∃ ps, (after ds e).messages = e.messages ++ ps ∧ ∀ n, List.Forall₂ Notice.Fits (noticesFor n ds e)
      ((ps.filter (·.observer.number == n)).map (·.message)) := by
  induction ds generalizing e with
  | nil => exact ⟨[], (List.append_nil _).symm, fun _ => .nil⟩
  | cons d ds ih =>
    obtain ⟨hd, hds⟩ := not_or.mp (hds ∘ List.mem_cons.mpr)
    have hd := Ne.symm hd
    obtain ⟨ps, hp, ht⟩ := meet_messages he.orderly he.isHeard hd
    obtain ⟨qs, hq, hs⟩ := ih (he.meet hd) (meet_roster he.orderly he.isHeard hr hd).1 hds
    refine ⟨ps ++ qs, ?_, fun n => ?_⟩
    · show (after ds (e.meet d)).messages = _
      rw [hq, hp, List.append_assoc]
    · rw [List.filter_append, List.map_append]
      exact List.rel_append (ht.heard hr.nodup n) (hs n)

theorem opened_roster (settings : Settings) (registry : Registry) (provider : Option ElementProvider)
    (shared : Entries Value) : (opened settings registry provider shared).debugger.HasRoster :=
  ⟨List.nodup_nil, fun _ _ => nofun, fun _ => List.nodup_nil⟩

theorem after_roster (he : e.IsAttended) (hr : e.debugger.HasRoster) (hds : .closeDebugger ∉ ds) :
    (after ds e).debugger.HasRoster := by
  induction ds generalizing e with
  | nil => exact hr
  | cons d ds ih =>
    obtain ⟨hd, hds⟩ := not_or.mp (hds ∘ List.mem_cons.mpr)
    exact ih (he.meet (Ne.symm hd)) (meet_roster he.orderly he.isHeard hr (Ne.symm hd)).1 hds

/-- In the course of any deeds an observer receives the notices of the runs that it is told of by then, and
nothing else, each once and in order, whatever it or others raise. It is told of a run from the time when it
subscribes until it unsubscribes, and of no run without an attached session but that a debugger attaches
itself to it or detaches itself from it. -/
theorem observers_told (settings : Settings) (registry : Registry) (provider : Option ElementProvider)
    (shared : Entries Value) (hds : .closeDebugger ∉ ds) {σ : Type} (react : Reaction σ Observer Value) (s : σ)
    (n : Nat) :
    let e₀ := opened settings registry provider shared
    let e := after ds e₀
    List.Forall₂ Notice.Fits (noticesFor n ds e₀)
      (messagesTo n ((react.tellAll e.addressed s).1.map Telling.call)) ∧
    (∀ d, d ≠ .closeDebugger → ∀ run, (e.meet d).debugger.hears n run =
      (e.debugger.hears n run && !e.dismisses n d || e.enrols n run d)) ∧
    ∀ d, ∀ x ∈ e.noticesBy d,
      e.debugger.isAttached x.run = true ∨ d.Attaches x.run ∨ d.Detaches x.run := by
  intro e₀ e
  have he₀ : e₀.IsAttended := opened_isAttended settings registry provider shared
  have hr₀ : e₀.debugger.HasRoster := opened_roster settings registry provider shared
  have he : e.IsAttended := he₀.after hds
  refine ⟨?_, fun d hd run => ?_, fun d x hx => attached_of_mem_noticesBy hx⟩
  · obtain ⟨ps, hp, hs⟩ := after_messages he₀ hr₀ hds
    have hp : e.messages = ps := hp
    have hto : messagesTo n e.addressed = (ps.filter (·.observer.number == n)).map (·.message) := by
      rw [addressed, hp, messagesTo, List.filter_map, List.map_map]
      rfl
    rw [react.tellAll_calls, hto]
    exact hs n
  · exact (meet_roster he.orderly he.isHeard (after_roster he₀ hr₀ hds) hd).2 n run

/-- Two runs with debuggers attached to them, an observer of one of them and one of both, who leaves before
they are cancelled. -/
def watched : List Deed := [
  .create waiting { id := some "r" }, .create waiting { id := some "s" }, .subscribe "one" (some "r"),
  .subscribe "both" none, .debug (givenFor "attach" "r"), .debug (givenFor "attach" "s"), .unsubscribe 1,
  .cancel "r" none false, .cancel "s" none false]

/-- Observers who always raise receive no less. -/
theorem observers_told_raising :
    let e₀ := opened {} [] none []
    let raising : Reaction Unit Observer Value := fun _ _ => throw "no"
    let told := (raising.tellAll (after watched e₀).addressed ()).1.map Telling.call
    .closeDebugger ∉ watched ∧
      List.Forall₂ Notice.Fits (noticesFor 0 watched e₀) (messagesTo 0 told) ∧
      List.Forall₂ Notice.Fits (noticesFor 1 watched e₀) (messagesTo 1 told) ∧
      (noticesFor 0 watched e₀).length = 3 ∧ (noticesFor 1 watched e₀).length = 2 := by
  intro e₀ raising told
  have hds : .closeDebugger ∉ watched := by simp [watched]
  exact ⟨hds, (observers_told {} [] none [] hds raising () 0).1, (observers_told {} [] none [] hds raising () 1).1,
    by decide +kernel, by decide +kernel⟩

/-- A run that is debugged until it has ended and is let go of, and the next one of its id, which is cancelled
before it starts. -/
def again : List Deed :=
  [.create waiting { id := some "r" }, .debug (givenFor "attach" "r"), .start "r"] ++
    List.replicate 25 .step ++
    [.discard "r", .create waiting { id := some "r" }, .subscribe "o" (some "r"), .cancel "r" none false]

/-- An observer of a run that has come to no node is told of the node of the earlier run. -/
theorem earlier_node_told : let e := after again (opened {} [] none [])
    (messagesTo 0 e.addressed).map (fun v =>
        ((v.field "type").text?, ((v.field "state").field "currentNodeId").text?)) =
      [(some "run.cancelled", none), (some "debug.state", some "n")] ∧
    (e.machine? "r").map (·.run.current) = some none := by
  decide +kernel

end Engine

end Workflow
