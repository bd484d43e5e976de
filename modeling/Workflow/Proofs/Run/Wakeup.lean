import Workflow.Proofs.Run.Lifecycle
/-!
A pause can be ended as long as it lasts. The task that waits for the end of a pause is the one that the status
of the run tells of, and each command that ends pauses finds it and wakes it.
-/

namespace Workflow

/-- A command that ends a pause. -/
inductive Command.EndsPause : Command → Prop
  | resume : EndsPause .resume
  | stepOver : EndsPause .stepOver
  | cancel (reason : Option String) (stamp : Instant) : EndsPause (.cancel reason stamp)

namespace Machine

variable {roles : List Role} {log : List Effect} {active : Option Strand} {m : Machine} {t : TaskId} {k : Nat}

/-- A task is held up before a node, in a run that is paused and not cancelled. -/
structure IsHeldUp (m : Machine) (t : TaskId) : Prop where
  main : m.main = some t
  listed : t ∈ m.paused
  status : m.run.status = .paused
  live : m.token.cancelled = false
  work : ∃ walk node p, m.pending? t = some (.checkpoint walk node :: p)

/-- A task that waits for the end of a pause is held up before a node. -/
theorem Sound.isHeldUp (h : Sound roles log active m) (hs : m.state? t = some (.waiting .resumption k)) :
    m.IsHeldUp t := by
  obtain ⟨r, hr⟩ := exists_role h.fitting hs
  obtain ⟨p, hp⟩ := exists_pending? hs
  have hfit : Wait.resumption.Suits roles r p := h.fitting.state hr hs hp
  have hwalker : r = .walker := by cases r <;> first | rfl | exact absurd hfit id
  have hm : m.main = some t := h.main.mp (hwalker ▸ hr)
  have hpark : Waits m .resumption p := h.parked hm hs hp
  cases hpark with
  | walk _ _ hw => exact absurd hw id
  | pause hstatus hl hu hd hq =>
    obtain ⟨u, hu⟩ := List.exists_mem_of_ne_nil _ hq
    obtain ⟨hmain, -⟩ := h.paused u hu
    rw [hm] at hmain
    cases hmain
    refine ⟨hm, hu, hstatus, hl, ?_⟩
    rcases p with _ | ⟨k, p⟩
    · exact absurd hd id
    · cases k with
      | checkpoint walk node => exact ⟨walk, node, p, hp⟩
      | _ => exact absurd hd id

/-- The end of the pauses wakes a task that waits for it. -/
theorem endPause_wakes (hs : m.state? t = some (.waiting .resumption k)) (hp : t ∈ m.paused) :
    m.endPause.state? t = some (.woken .resumption true false) := by
  rw [endPause_state?, if_pos hp, hs]
  rfl

theorem IsHeldUp.release_wakes (h : m.IsHeldUp t) (hs : m.state? t = some (.waiting .resumption k))
    (mode : String) : (m.release mode).state? t = some (.woken .resumption true false) := by
  unfold release
  exact endPause_wakes hs h.listed

theorem Sound.halt_wakes (h : Sound roles log active m) (hs : m.state? t = some (.waiting .resumption k))
    (text : String) : (m.halt text).state? t = some (.woken .resumption true false) := by
  have hm := h.isHeldUp hs
  have hnot : t ∉ m.watchers := fun ht => by
    have := h.watchers t ht
    rw [h.main.mpr hm.main] at this
    cases this
  have hstate : (m.cancelToken (some text)).state? t = some (.waiting .resumption k) := by
    rw [← hs]
    unfold cancelToken
    split
    · rfl
    · exact (state?_signals _ _).trans (if_neg hnot)
  refine endPause_wakes hstate ?_
  rw [(cancelToken_silent m _).mute.paused]
  exact hm.listed

/-- Each command that ends pauses is accepted and wakes the task that is held up. -/
theorem Sound.woken_of_endsPause (h : Sound roles log active m)
    (hs : m.state? t = some (.waiting .resumption k)) {c : Command} (hc : c.EndsPause) :
    (m.obey c).2 = true ∧ (m.obey c).1.state? t = some (.woken .resumption true false) := by
  have hm := h.isHeldUp hs
  have hpaused : (m.run.status == .paused) = true := beq_iff_eq.mpr hm.status
  cases hc with
  | resume =>
    show m.resumeRun.2 = true ∧ m.resumeRun.1.state? t = _
    unfold resumeRun
    rw [if_pos hpaused]
    have held : IsHeldUp { m with stepArmed := false } t := ⟨hm.main, hm.listed, hm.status, hm.live, hm.work⟩
    exact ⟨rfl, held.release_wakes hs _⟩
  | stepOver =>
    show m.stepOver.2 = true ∧ m.stepOver.1.state? t = _
    unfold stepOver
    rw [if_pos hpaused]
    have held : IsHeldUp { m with stepArmed := true } t := ⟨hm.main, hm.listed, hm.status, hm.live, hm.work⟩
    exact ⟨rfl, held.release_wakes hs _⟩
  | cancel reason stamp =>
    show (m.cancel reason stamp).2 = true ∧ (m.cancel reason stamp).1.state? t = _
    obtain ⟨ht, -⟩ | ⟨-, text, ⟨-, he⟩ | ⟨hpending, -⟩⟩ := m.cancel_cases reason stamp
    · rw [hm.status] at ht
      cases ht
    · rw [he]
      exact ⟨rfl, h.halt_wakes hs text⟩
    · rw [hm.status] at hpending
      cases hpending

end Machine

namespace Execution

/-- However a run is carried out and whatever it is commanded, if a task waits for the end of a pause, then the
run is paused and not cancelled, and resuming, stepping and cancelling are all accepted and wake the task, which
can then go on. -/
theorem pause_can_end (w : World) (id : String) (flow : Flow) (bindings : Entries Value)
    (breakpoints : Breakpoints) (pauseOnStart : Bool) (stamp : Instant) (is : List Input) :
    let x := after w is (ofMachine (.create id flow bindings breakpoints pauseOnStart stamp))
    ∀ t k, x.machine.state? t = some (.waiting .resumption k) →
      x.machine.run.status = .paused ∧ x.machine.token.cancelled = false ∧
      ∀ c : Command, c.EndsPause → (x.machine.obey c).2 = true ∧
        (x.machine.obey c).1.state? t = some (.woken .resumption true false) ∧
        (x.isIdle = true → (x.obey c).allows (.begin t) = true) := by
  intro x t k hs
  obtain ⟨-, roles, hx⟩ := after_isSound (w := w)
    (create_isSound id flow bindings breakpoints pauseOnStart stamp) is
  have hm := hx.isHeldUp hs
  refine ⟨hm.status, hm.live, fun c hc => ?_⟩
  obtain ⟨ha, hwoken⟩ := hx.woken_of_endsPause hs hc
  refine ⟨ha, hwoken, fun hi => ?_⟩
  have hput : x.obey c = x.put (x.machine.obey c).1 none := if_pos hi
  have hstate : (x.obey c).machine.state? t = some (.woken .resumption true false) := by
    rw [hput]
    exact hwoken
  unfold allows
  dsimp only
  rw [hstate, hput]
  rfl

/-- A run of one node that is paused before it. -/
def holding : Execution :=
  let flow : Flow := { id := "", nodes := [{ id := "a", kind := "log" }] }
  after { settings := {} } (.command (.start false) :: .move (.begin 0) ::
      List.replicate 3 (.move (.step { registry := [], builtin := Registry.isBuiltin_nil })))
    (ofMachine (.create "" flow [] [] true 0))

/-- The walker of the run is held up, and a cancellation wakes it. -/
theorem pause_can_end_holding : (∃ k, holding.machine.state? 0 = some (.waiting .resumption k)) ∧
    holding.machine.run.status = .paused ∧
    (holding.obey (.cancel none 0)).allows (.begin 0) = true := by
  obtain ⟨k, hk⟩ : ∃ k, holding.machine.state? 0 = some (.waiting .resumption k) := ⟨_, rfl⟩
  obtain ⟨hs, -, hc⟩ := pause_can_end _ _ _ _ _ _ _ _ 0 k hk
  exact ⟨⟨k, hk⟩, hs, (hc _ (.cancel none 0)).2.2 rfl⟩

end Execution

end Workflow
