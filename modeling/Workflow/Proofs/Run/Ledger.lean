import Workflow.Proofs.Run.Answer
import Workflow.Proofs.Run.Progress
import Workflow.Proofs.Value.Fallible
/-!
What all tasks but the walker account for, and what commands do: no attempt begins or ends with them,
and no task is left with a failure of the run itself.
-/

namespace Workflow

/-- If it is an answer, it is no failure of the run itself. -/
def Control.IsOrdinary (c : Control) : Prop :=
  ∀ a, c = .answer a → a.IsOrdinary

def Turn.IsOrdinary : Turn → Prop
  | .go c _ => c.IsOrdinary
  | .stop a => a.IsOrdinary
  | _ => True

theorem Turn.IsOrdinary.answer {a : Answer} {p : List Pending} (h : a.IsOrdinary) :
    (Turn.answer a p).IsOrdinary := by
  rintro b ⟨⟩
  exact h

theorem Turn.IsSafe.isOrdinary {x : Turn} (h : x.IsSafe) : x.IsOrdinary := by
  cases x with
  | go c p =>
    rintro a rfl
    exact h.1.2.1
  | stop a => exact h
  | _ => trivial

/-- A refusal names its code. -/
theorem HandlerResult.isOrdinary_refuse {code : String} (h : code ≠ "internal") (message : String)
    (data : Value) : (refuse code message data).IsOrdinary :=
  h

namespace Builtin

/-- A built-in handler never fails as the run itself does. -/
theorem reply_isOrdinary {b : Builtin} {config vars : Entries Value} {r : HandlerResult}
    {line : Option (String × Value)} (h : b.act config vars = .ok (.reply r line)) : r.IsOrdinary := by
  cases b with
  | wait =>
    obtain ⟨ms, -, h⟩ := map_ok h
    cases h
  | assign =>
    obtain ⟨values, -, h⟩ := map_ok h
    cases h
    trivial
  | append =>
    obtain ⟨s, hs, h⟩ := map_ok h
    cases h
    obtain ⟨v, -, hs⟩ := bind_ok hs
    have hs := Except.ok.inj hs
    subst hs
    split
    · trivial
    · trivial
    · exact HandlerResult.isOrdinary_refuse (by decide) _ _
  | evaluate =>
    obtain ⟨s, hs, h⟩ := map_ok h
    cases h
    obtain ⟨v, -, hs⟩ := bind_ok hs
    obtain ⟨e, -, hs⟩ := bind_ok hs
    cases hs
    trivial
  | log =>
    cases h
    trivial
  | assert =>
    cases h
    unfold asserted
    dsimp only
    split
    · split
      · trivial
      · exact HandlerResult.isOrdinary_refuse (by decide) _ _
    · split
      · trivial
      · exact HandlerResult.isOrdinary_refuse (by decide) _ _

theorem rested_isOrdinary (cutShort : Bool) : (rested cutShort).IsOrdinary := by
  cases cutShort
  · trivial
  · exact HandlerResult.isOrdinary_refuse (by decide) _ _

end Builtin

namespace Machine

variable {roles : List Role} {r : Role} {o : List Tag} {m n : Machine} {t u : TaskId}
  {c : Control} {p : List Pending}

/-! How a task goes on. -/

theorem IsCandid.turn (h : m.IsCandid) (t : TaskId) {x : Turn} (hx : x.IsOrdinary) :
    (m.turn t x).1.IsCandid := by
  intro u s hs
  by_cases htu : t = u
  · subst htu
    have became (s' : TaskState) (hs' : s'.IsCandid)
        (hk : (m.turn t x).1.state? t = (m.state? t).map fun _ => s') : s.IsCandid := by
      rw [hk] at hs
      obtain ⟨-, -, rfl⟩ := Option.map_eq_some_iff.mp hs
      exact hs'
    cases x with
    | go c p => exact h t s hs
    | wait w on limit p =>
      refine became (.waiting w m.nextTicket) trivial ?_
      have he : (m.turn t (.wait w on limit p)).1 = (m.putPending t p).lull t w on limit := by
        cases limit <;> rfl
      rw [he, state?_lull, if_pos rfl, state?_putPending]
      rfl
    | pass p =>
      refine became (.woken .sleep true false) trivial ?_
      have he : (m.turn t (.pass p)).1 =
          ((m.putPending t p).setState t (.woken .sleep true false)).effect (.ready t) :=
        congrArg (·.effect (.ready t)) (modifyTask_eq m t p _)
      rw [he, state?_effect, state?_setState, if_pos rfl, state?_putPending]
    | stop a => exact became (.ended a) hx ((state?_finish a).trans (if_pos rfl))
  · rw [state?_turn_other x htu] at hs
    exact h u s hs

theorem turn_adds (m : Machine) (t : TaskId) (x : Turn) : Adds Effect.IsMute m (m.turn t x).1 := by
  cases x with
  | go c p => exact .refl m
  | wait w on limit p =>
    have he : (m.turn t (.wait w on limit p)).1 = (m.putPending t p).lull t w on limit := by
      cases limit <;> rfl
    rw [he]
    exact (Mute.lull (m.putPending t p) t w on limit).adds
  | pass p => exact .effect _ rfl
  | stop a => exact (Mute.finish m t a).adds

theorem Notes.turn (m : Machine) (t : TaskId) {x : Turn} (hx : x.IsOrdinary) :
    Notes o m (m.turn t x).1 o :=
  of_adds (turn_adds m t x) (congrArg Machine.run (turn_core m t x) :) fun h => h.turn t hx

/-! Takers, watchers and handlers. -/

theorem handle_notes (m : Machine) (w : World) (now : Moment) (c : Call) :
    Notes o m (m.handle (w.surroundings now) c []).1 o ∧
      (m.handle (w.surroundings now) c []).2.IsOrdinary := by
  unfold handle
  split
  · exact ⟨.refl m, .answer trivial⟩
  · rename_i reg hreg
    obtain ⟨b, hb⟩ := now.builtin.handler hreg
    rw [hb]
    dsimp only
    split
    · exact ⟨.refl m, .answer trivial⟩
    · rename_i hr
      exact ⟨.refl m, .answer (Builtin.reply_isOrdinary hr)⟩
    · unfold rest
      split
      · exact ⟨.refl m, .answer trivial⟩
      · exact ⟨.spawn m (by simp), trivial⟩

/-- What a task that does not walk does after a wait. -/
theorem wake_isOrdinary (m : Machine) (env : Surroundings) (self : TaskId) {v : Wait} {s i : Bool}
    (hr : r ≠ .walker) (hc : (Control.wake v s i).Suits roles r p) :
    (m.wake env self v s i p).2.IsOrdinary := by
  have answered {a : Answer} (ha : a.IsOrdinary) : (Turn.answer a p).IsOrdinary := .answer ha
  cases v with
  | grant =>
    unfold wake
    dsimp only
    split <;> exact answered trivial
  | cancellation =>
    refine answered ?_
    split <;> trivial
  | nap u =>
    unfold wake
    dsimp only
    split
    · exact answered trivial
    · trivial
  | rousing u before =>
    unfold wake
    dsimp only
    split
    · exact answered trivial
    · split <;> exact answered trivial
  | _ => cases r <;> first | exact absurd rfl hr | exact absurd hc.1 id

/-- A step of a task that does not walk. -/
theorem errand_notes (h : m.Fitting roles) (w : World) (now : Moment) (hs : roles[t]? = some r)
    (hr : r ≠ .walker) (hc : c.Suits roles r p) (ho : c.IsOrdinary) :
    Notes o m (m.step (w.surroundings now) t c p).1 o ∧
      (m.step (w.surroundings now) t c p).2.IsOrdinary := by
  cases c with
  | takeSlot =>
    have : r = .taker := by cases r <;> first | rfl | exact absurd rfl hr | exact absurd hc id
    subst this
    have hp : p = [] := hc
    subst hp
    refine ⟨.of_aside h (takeSlot_aside h _).1, ?_⟩
    show (m.takeSlot _ t []).2.IsOrdinary
    unfold takeSlot
    split
    · trivial
    · exact .answer trivial
  | watch =>
    have : r = .watcher := by cases r <;> first | rfl | exact absurd rfl hr | exact absurd hc id
    subst this
    have hp : p = [] := hc
    subst hp
    refine ⟨.of_aside h (watch_aside h hs).1, ?_⟩
    show (m.watch t []).2.IsOrdinary
    unfold watch
    split
    · exact .answer trivial
    · trivial
  | handle call =>
    have : r = .handler := by cases r <;> first | rfl | exact absurd rfl hr | exact absurd hc id
    subst this
    have hp : p = [] := hc
    subst hp
    exact handle_notes m w now call
  | wake v s i =>
    have hstart : ∀ t u, v ≠ .start t u := by
      rintro t u rfl
      cases r <;> first | exact hr rfl | exact hc.1
    obtain ⟨ha, -⟩ := wake_aside (p := p) t h (w.surroundings now) s hc.1
      (fun hw => absurd hw hr) (fun hw => absurd hw hr) hstart
    exact ⟨.of_aside h ha, wake_isOrdinary m _ t hr hc⟩
  | answer a =>
    refine ⟨.of_aside h (answer_aside h _ hr hc).1, ?_⟩
    have ha : a.IsOrdinary := ho a rfl
    cases p with
    | nil => exact ha
    | cons k q =>
      have : r = .handler := by
        cases r <;> first | rfl | exact absurd rfl hr | cases (show k :: q = [] from hc)
      subst this
      cases q with
      | nil =>
        cases k <;> cases a <;> first
          | exact absurd hc id
          | exact .answer (Builtin.rested_isOrdinary _)
          | exact .answer trivial
      | cons l q => cases k <;> cases a <;> exact absurd hc id
  | _ => cases r <;> first | exact absurd rfl hr | exact absurd hc id

/-! Commands. -/

theorem Notes.release (m : Machine) (mode : String) : Notes o m (m.release mode) o := by
  refine .trans ?_ (.endPause _)
  exact .of_emit "run.resumed" (by decide) rfl rfl rfl rfl

theorem Notes.halt (m : Machine) (text : String) : Notes o m (m.halt text) o := by
  refine .trans ?_ (.endPause _)
  refine .trans (n := { m with
    token := m.token.cancel (some text), watchers := (m.cancelToken (some text)).watchers })
    (.of_eq rfl rfl rfl rfl) (.of_mute (cancelToken_silent m _).mute fun hc => ?_)
  refine hc.of_size (.trans (n := m) (.of_tasks rfl) (.cancelToken m _)) ?_
  unfold cancelToken
  split
  · rfl
  · exact size_signals m.watchers _

/-- A command neither begins nor ends an attempt. -/
theorem obey_notes (m : Machine) (c : Command) : Notes o m (m.obey c).1 o := by
  cases c with
  | start slotted =>
    show Notes o m (m.start slotted) o
    cases hm : m.main with
    | none =>
      rw [start_eq hm]
      refine .trans (.spawn m ?_) (.of_eq rfl rfl rfl rfl)
      cases slotted <;> simp
    | some t =>
      unfold start
      rw [hm]
      exact .refl m
  | pause =>
    show Notes o m m.pause.1 o
    unfold pause
    split <;> exact .of_eq rfl rfl rfl rfl
  | resume =>
    show Notes o m m.resumeRun.1 o
    unfold resumeRun
    split
    · exact .trans (n := { m with stepArmed := false }) (.of_eq rfl rfl rfl rfl) (.release _ _)
    · exact .refl m
  | stepOver =>
    show Notes o m m.stepOver.1 o
    unfold stepOver
    split
    · exact .trans (n := { m with stepArmed := true }) (.of_eq rfl rfl rfl rfl) (.release _ _)
    · exact .refl m
  | cancel reason stamp =>
    show Notes o m (m.cancel reason stamp).1 o
    obtain ⟨-, he⟩ | ⟨-, text, ⟨-, he⟩ | ⟨-, -, he⟩⟩ := cancel_cases m reason stamp
    · rw [he]
      exact .refl m
    · rw [he]
      exact .halt m text
    · rw [he]
      exact (Notes.halt m text).trans (finalize_notes (r := .cancelled) _ stamp trivial)
  | setVar name v frame =>
    obtain he | ⟨layers, s, depth, he⟩ := m.obey_setVar name v frame
    · rw [he]
      exact .refl m
    · rw [he]
      exact .of_emit "vars.patch" (by decide) rfl rfl rfl rfl
  | edit f => exact .of_eq rfl rfl rfl rfl

end Machine

namespace Execution

variable {x : Execution} {w : World}

/-- A step of a task adds to the log what it adds to the effects, and nothing else that is an event. -/
theorem step_log {s : Strand} (hs : x.active = some s) (now : Moment) : ∃ late,
    (x.step w now).log = late ++
      (x.machine.step (w.surroundings now) s.task s.control s.pending).1.effects ++ x.log ∧
    ∀ e ∈ late, e.IsMute := by
  obtain ⟨late, hl, hm⟩ := Machine.turn_adds
    (x.machine.step (w.surroundings now) s.task s.control s.pending).1 s.task
    (x.machine.step (w.surroundings now) s.task s.control s.pending).2
  refine ⟨late, ?_, hm⟩
  rw [step_eq hs, ← hl]
  rfl

/-- No event is in the log but by steps of the walker and by commands. -/
theorem move_mute (h : x.IsSound) {a : Move}
    (ha : ∀ now s, a = .step now → x.active = some s → x.machine.main ≠ some s.task) :
    ∃ late, (x.move w a).log = late ++ x.log ∧ ∀ e ∈ late, e.IsMute := by
  have same {y : Execution} (hy : y.log = x.log) : ∃ late, y.log = late ++ x.log ∧ ∀ e ∈ late, e.IsMute :=
    ⟨[], hy, by simp⟩
  have put {m : Machine} (hm : Machine.Adds Effect.IsMute x.machine m) (s : Option Strand) :
      ∃ late, (x.put m s).log = late ++ x.log ∧ ∀ e ∈ late, e.IsMute := by
    obtain ⟨late, hl, hm⟩ := hm
    rw [h.1, List.append_nil] at hl
    exact ⟨late, congrArg (· ++ x.log) hl, hm⟩
  unfold move
  split
  · cases a with
    | begin t =>
      show ∃ late, (x.begin t).log = late ++ x.log ∧ _
      have hb := x.begins t
      generalize x.begin t = y at hb ⊢
      cases hb with
      | dismissed => exact put (Machine.Mute.finish x.machine t .interrupted).adds none
      | _ => exact same rfl
    | step now =>
      show ∃ late, (x.step w now).log = late ++ x.log ∧ _
      cases hs : x.active with
      | none =>
        unfold step
        rw [hs]
        exact same rfl
      | some s =>
        obtain ⟨hquiet, roles, hr⟩ := h
        rw [hs] at hr
        obtain ⟨-, r, hrole, hsuits, -⟩ := hr.strand rfl
        have hne : r ≠ .walker := by
          rintro rfl
          exact ha now s rfl hs (hr.main.mp hrole)
        obtain ⟨more, haside, -⟩ := Machine.step_aside hr.fitting w now hrole hne hsuits
        obtain ⟨d, hd, hmute⟩ := haside.silent.mute.adds
        have hd : _ = d ++ x.machine.effects := hd
        obtain ⟨late, hl, hlate⟩ := step_log (w := w) hs now
        rw [hd, hquiet, List.append_nil] at hl
        exact ⟨late ++ d, hl, fun e he => (List.mem_append.mp he).elim (hlate e) (hmute e)⟩
    | tell t k => exact put (Machine.Silent.tell x.machine t k).mute.adds none
    | grant t => exact same rfl
  · exact same rfl

end Execution

end Workflow
