import Workflow.Proofs.Run.Sound
/-!
Commands keep the invariant of a run: starting, pausing and resuming, cancelling, and writing
variables, at any moment at which no task is in the middle of its steps.
-/

namespace Workflow.Machine

variable {roles : List Role} {log : List Effect} {m n o : Machine} {t u : TaskId} {c : Control}
  {p : List Pending}

/-- What a command to a run may change. -/
structure Changes (m n : Machine) : Prop where
  tends : Tends m n
  fitting : ∀ {roles}, m.Fitting roles → n.Fitting roles
  main : n.main = m.main
  watchers : ∀ t ∈ n.watchers, t ∈ m.watchers
  ticket : n.nextTicket = m.nextTicket
  story : ∃ d, n.effects = d ++ m.effects ∧ Status.Passes m.run.status d n.run.status ∧
    ∀ e ∈ d, e.IsUntold ∧ ¬ e.IsBarred
  results : n.run.error = m.run.error ∧ n.run.outputs = m.run.outputs

theorem Changes.endPause (k : Changes m n) : Changes m n.endPause := by
  have hs := Silent.endPause n
  exact {
    tends := k.tends.trans (.endPause n)
    fitting := fun hf => (k.fitting hf).endPause
    main := hs.mute.main.trans k.main
    watchers := fun t ht => k.watchers t (hs.mute.watchers ▸ ht)
    ticket := hs.mute.nextTicket.trans k.ticket
    story := by
      obtain ⟨d, hd, hp, hu⟩ := k.story
      obtain ⟨f, hf, hq⟩ := hs.adds
      have hf : n.endPause.effects = f ++ n.effects := hf
      refine ⟨f ++ d, by rw [hf, hd, List.append_assoc], ?_, fun e he => ?_⟩
      · rw [show n.endPause.run = n.run from hs.mute.run]
        exact hp.append (.mute _ fun e he => (hq e he).1)
      · exact (List.mem_append.mp he).elim (fun he => ⟨(hq e he).2, (hq e he).1.not_isBarred⟩) (hu e)
    results := by
      rw [show n.endPause.run = n.run from hs.mute.run]
      exact k.results }

theorem Changes.trans (k : Changes m n) (l : Changes n o) : Changes m o where
  tends := k.tends.trans l.tends
  fitting hf := l.fitting (k.fitting hf)
  main := l.main.trans k.main
  watchers t ht := k.watchers t (l.watchers t ht)
  ticket := l.ticket.trans k.ticket
  story := by
    obtain ⟨d, hd, hp, hu⟩ := k.story
    obtain ⟨f, hf, hq, hv⟩ := l.story
    refine ⟨f ++ d, by rw [hf, hd, List.append_assoc], hp.append hq, fun e he => ?_⟩
    exact (List.mem_append.mp he).elim (hv e) (hu e)
  results := ⟨l.results.1.trans k.results.1, l.results.2.trans k.results.2⟩

/-- A command keeps the invariant if it leaves the walker in a stage that the status allows. -/
theorem Changes.sound (h : Sound roles log none m) (k : Changes m n)
    (hpaused : ∀ t ∈ n.paused, t ∈ m.paused ∧ n.state? t = m.state? t)
    (hun : m.main = none → IsUnbegun n)
    (hpark : ∀ {t s p}, m.main = some t → n.state? t = some s → m.pending? t = some p →
      s.Parked n p) : Sound roles log none n where
  fitting := k.fitting h.fitting
  main := by rw [k.main]; exact h.main
  watchers t ht := h.watchers t (k.watchers t ht)
  tickets := by
    obtain ⟨d, hd, -, hu⟩ := k.story
    exact h.tickets.tends k.tends k.ticket ⟨d, hd, fun e he => (hu e he).1⟩
  parked {u s p} hu hs hp := by
    rw [k.main] at hu
    rw [k.tends.pending (h.fitting.lt (h.main.mpr hu))] at hp
    exact hpark hu hs hp
  unstarted hu := hun (k.main ▸ hu)
  history := by
    obtain ⟨d, hd, hpass, -⟩ := k.story
    rw [hd, List.append_assoc]
    exact h.history.append hpass
  results hc hf := by
    obtain ⟨d, -, hpass, -⟩ := k.story
    rw [k.results.1, k.results.2]
    refine h.results (fun hs => hc ?_) fun hs => hf ?_
    · rw [hs] at hpass
      exact hpass.eq_of_terminal rfl
    · rw [hs] at hpass
      exact hpass.eq_of_terminal rfl
  paused u hu := by
    obtain ⟨hm, hs⟩ := hpaused u hu
    obtain ⟨hmain, j, hj⟩ := h.paused u hm
    exact ⟨by rw [k.main]; exact hmain, j, by rw [hs, hj]⟩
  strand hs := by cases hs
  running hu := h.running (k.tends.running_iff.mp hu)

/-- A command that changes neither tasks nor the record keeps the invariant. -/
theorem Sound.of_same (h : Sound roles log none m) (ht : n.tasks = m.tasks) (hmain : n.main = m.main)
    (hw : n.watchers = m.watchers) (hk : n.nextTicket = m.nextTicket) (hp : n.paused = m.paused)
    (hs : n.run.status = m.run.status) (hstack : n.run.stack = m.run.stack) (hl : n.token = m.token)
    (hres : n.run.error = m.run.error ∧ n.run.outputs = m.run.outputs)
    (he : ∃ d, n.effects = d ++ m.effects ∧
      ∀ e ∈ d, e.kernelType? = none ∧ e.IsUntold ∧ ¬ e.IsBarred) :
    Sound roles log none n := by
  have hstate (u : TaskId) : n.state? u = m.state? u := by rw [state?, ht, ← state?]
  refine Changes.sound h ⟨.of_tasks ht, fun hf => hf.of_tasks ht, hmain, fun t ht => hw ▸ ht, hk, ?_,
    hres⟩ (fun t ht => ⟨hp ▸ ht, hstate t⟩) (fun hm => (h.unstarted hm).congr hs hstack)
    fun hm hu hq => parked_congr hs hstack hl hp (h.parked hm (hstate _ ▸ hu) hq)
  obtain ⟨d, hd, hq⟩ := he
  refine ⟨d, hd, ?_, fun e he => (hq e he).2⟩
  rw [hs]
  clear hd
  induction d with
  | nil => exact .nil _
  | cons e d ih =>
    exact .skip (hq e List.mem_cons_self).1 (ih fun e he => hq e (List.mem_cons_of_mem _ he))

/-! Pauses. -/

theorem pause_sound (h : Sound roles log none m) : Sound roles log none m.pause.1 := by
  unfold pause
  split <;> exact h.of_same rfl rfl rfl rfl rfl rfl rfl rfl ⟨rfl, rfl⟩ ⟨[], rfl, by simp⟩

/-- A pause that is over leads back to the walk. -/
theorem Stands.released (h : Stands m c p) (hm : m.run.status = .paused)
    (hn : n.run.status = .running) (hk : n.run.stack = m.run.stack) : Stands n c p := by
  have unbegun : ¬ IsUnbegun m := by
    rintro (h | h)
    · rw [hm] at h
      cases h.1
    · rw [hm] at h
      cases h
  cases h with
  | enqueue h => exact absurd h unbegun
  | start h => exact absurd h unbegun
  | execute h => exact absurd h unbegun
  | walk h => rw [hm] at h; cases h
  | wake h => rw [hm] at h; cases h
  | resume h hu hd s i => exact .resume (.inl hn) (hu.congr hk) hd s i
  | back h hu hd => exact .walk hn (hu.congr hk) trivial hd False.elim
  | refuse h hu walk node => exact .walk hn (hu.congr hk) trivial trivial False.elim
  | unwind h hu => exact .walk hn (hu.congr hk) trivial trivial False.elim
  | ended h => rw [hm] at h; cases h

theorem endPause_state? : m.endPause.state? u =
    if u ∈ m.paused then (m.state? u).map TaskState.signalled else m.state? u :=
  state?_signals m.paused { m with paused := [] }

/-- The walker of a paused run waits for the end of the pause. -/
theorem Waits.paused (h : Sound roles log none m) {w : Wait} {t : TaskId} (hm : m.main = some t)
    (hw : Waits m w p) (hs : m.run.status = .paused) : w = .resumption ∧ t ∈ m.paused := by
  cases hw with
  | start h =>
    obtain ⟨h, -⟩ | h := h
    · rw [hs] at h
      cases h
    · rw [hs] at h
      cases h
  | walk h => rw [hs] at h; cases h
  | pause _ _ _ _ hq =>
    obtain ⟨u, hu⟩ := List.exists_mem_of_ne_nil _ hq
    obtain ⟨hmain, -⟩ := h.paused u hu
    rw [hm] at hmain
    cases hmain
    exact ⟨rfl, hu⟩

/-- The run goes on after a pause. -/
theorem release_sound (h : Sound roles log none m) (hs : m.run.status = .paused) (mode : String) :
    Sound roles log none (m.release mode) := by
  let n : Machine := ({ m with
    pauseRequested := false
    run := { m.run with status := .running, pauseReason := none } } : Machine).emit "run.resumed" [
      ("nodeId", .ofText? m.run.current), ("mode", .str mode)]
  have hmoved : (m.run.status, "run.resumed", Status.running) ∈ Status.moves := by
    rw [hs]
    decide
  have hk : Changes m n := {
    tends := .of_tasks rfl
    fitting := fun hf => hf.of_tasks rfl
    main := rfl
    watchers := fun t ht => ht
    ticket := rfl
    story := by
      refine ⟨_, List.singleton_append.symm, ?_, ?_⟩
      · exact .move (kernelType?_emit (by decide) _ _) hmoved (.nil _)
      · intro e he
        rw [List.mem_singleton.mp he]
        exact ⟨fun _ _ => rfl, not_isBarred_emit (by decide) _ _⟩
    results := ⟨rfl, rfl⟩ }
  have hrun : n.endPause.run = n.run := (Silent.endPause n).mute.run
  have hstatus : n.endPause.run.status = .running := congrArg Run.status hrun
  have hstack : n.endPause.run.stack = m.run.stack := (congrArg Run.stack hrun).trans rfl
  have hpaused : n.endPause.paused = [] := (Silent.endPause n).mute.paused
  refine Changes.sound h hk.endPause (fun t ht => ?_) (fun hm => ?_) fun {t s p} hm hu hq => ?_
  · have ht : t ∈ n.endPause.paused := ht
    rw [hpaused] at ht
    cases ht
  · obtain ⟨hu, -⟩ | hu := h.unstarted hm
    · rw [hs] at hu
      cases hu
    · rw [hs] at hu
      cases hu
  · have hu : (if t ∈ m.paused then (m.state? t).map TaskState.signalled else m.state? t) = some s := by
      rw [← hu]
      exact (endPause_state? (m := n)).symm
    obtain ⟨s', hs'⟩ : ∃ s', m.state? t = some s' := by
      cases hst : m.state? t with
      | none => simp [hst] at hu
      | some s' => exact ⟨s', rfl⟩
    have hpark := h.parked hm hs' hq
    rw [hs'] at hu
    cases s' with
    | fresh c i =>
      obtain ⟨-, -, ⟨hb, -⟩ | hb⟩ := hpark
      · rw [hs] at hb
        cases hb
      · rw [hs] at hb
        cases hb
    | waiting w k =>
      obtain ⟨rfl, hin⟩ := Waits.paused h hm hpark hs
      rw [if_pos hin] at hu
      cases hu
      cases hpark with
      | walk hr => rw [hs] at hr; cases hr
      | pause _ _ hw hd => exact Stands.resume (.inl hstatus) (hw.congr hstack) hd true false
    | woken w a i =>
      have hs'' : s = .woken w a i := by
        split at hu <;> exact (Option.some.inj hu).symm
      subst hs''
      exact Stands.released hpark hs hstatus hstack
    | running =>
      have hs'' : s = .running := by
        split at hu <;> exact (Option.some.inj hu).symm
      subst hs''
      trivial
    | ended a =>
      have hb : m.run.status.isTerminal = true := hpark
      rw [hs] at hb
      cases hb

theorem resumeRun_sound (h : Sound roles log none m) : Sound roles log none m.resumeRun.1 := by
  unfold resumeRun
  split
  · rename_i hs
    exact release_sound (m := { m with stepArmed := false }) (h.of_same rfl rfl rfl rfl rfl rfl rfl rfl
      ⟨rfl, rfl⟩ ⟨[], rfl, by simp⟩) (beq_iff_eq.mp hs) _
  · exact h

theorem stepOver_sound (h : Sound roles log none m) : Sound roles log none m.stepOver.1 := by
  unfold stepOver
  split
  · rename_i hs
    exact release_sound (m := { m with stepArmed := true }) (h.of_same rfl rfl rfl rfl rfl rfl rfl rfl
      ⟨rfl, rfl⟩ ⟨[], rfl, by simp⟩) (beq_iff_eq.mp hs) _
  · exact h

/-! Cancelling. -/

/-- A cancellation wakes only those who watch for it. -/
theorem cancelToken_state? (h : Sound roles log none m) (hm : m.main = some t)
    (reason : Option String) : (m.cancelToken reason).state? t = m.state? t := by
  unfold cancelToken
  split
  · rfl
  · dsimp only
    rw [state?_signals, if_neg]
    · rfl
    · intro ht
      have := h.watchers t ht
      rw [h.main.mpr hm] at this
      cases this

/-- The token is the only thing that a cancellation changes besides tasks. -/
theorem cancelToken_silent (m : Machine) (reason : Option String) :
    Silent { m with token := m.token.cancel reason, watchers := (m.cancelToken reason).watchers }
      (m.cancelToken reason) := by
  cases hc : m.token.cancelled with
  | true =>
    have hm : m.cancelToken reason = m := by
      unfold cancelToken
      rw [if_pos hc]
    have ht : m.token.cancel reason = m.token := by
      unfold CancelToken.cancel
      rw [if_pos hc]
    rw [hm, ht]
    exact .refl m
  | false =>
    have hs := Silent.cancelToken m reason hc
    have hw : (m.cancelToken reason).watchers = [] := hs.mute.watchers
    rw [hw]
    exact hs

theorem cancelToken_changes (m : Machine) (reason : Option String) :
    Changes m (m.cancelToken reason) where
  tends := .cancelToken m reason
  fitting hf := hf.cancelToken reason
  main := (cancelToken_silent m reason).mute.main
  watchers t ht := by
    unfold cancelToken at ht
    split at ht
    · exact ht
    · rw [(Silent.foldl Silent.signal m.watchers _).mute.watchers] at ht
      cases ht
  ticket := (cancelToken_silent m reason).mute.nextTicket
  story := by
    have hs := cancelToken_silent m reason
    obtain ⟨d, hd, hq⟩ := hs.adds
    refine ⟨d, hd, ?_, fun e he => ⟨(hq e he).2, (hq e he).1.not_isBarred⟩⟩
    rw [show (m.cancelToken reason).run = m.run from hs.mute.run]
    exact .mute _ fun e he => (hq e he).1
  results := by
    rw [show (m.cancelToken reason).run = m.run from (cancelToken_silent m reason).mute.run]
    exact ⟨rfl, rfl⟩

theorem cancelToken_cancelled (m : Machine) (reason : Option String) :
    (m.cancelToken reason).token.cancelled = true := by
  have hs : (m.cancelToken reason).token = m.token.cancel reason :=
    (cancelToken_silent m reason).mute.token
  rw [hs]
  exact CancelToken.cancel_cancelled _ _

/-- A wait that a cancellation finds is still one that the stage allows, a pause apart. -/
theorem Waits.cancelled {w : Wait} (h : Waits m w p) (hw : w ≠ .resumption)
    (hs : n.run.status = m.run.status) (hk : n.run.stack = m.run.stack) : Waits n w p := by
  cases h with
  | start h t u => exact .start (h.congr hs hk) t u
  | walk h hu hw hm => exact .walk (hs.trans h) (hu.congr hk) hw hm
  | pause => exact absurd rfl hw

theorem Stands.cancelled {w : Wait} {s i : Bool} (h : Stands m (.wake w s i) p)
    (hs : n.run.status = m.run.status) (hk : n.run.stack = m.run.stack)
    (ht : n.token.cancelled = true) : Stands n (.wake w s i) p := by
  cases h with
  | start h t u s i => exact .start (h.congr hs hk) t u s i
  | walk h hu hc => exact absurd hc id
  | wake h hu hw hm s i => exact .wake (hs.trans h) (hu.congr hk) hw hm s i
  | resume h hu hm s i =>
    exact .resume (h.imp hs.trans fun h => ⟨hs.trans h.1, ht⟩) (hu.congr hk) hm s i

/-- A run whose walker has been made is cancelled. -/
theorem endPause_cancelToken_sound (h : Sound roles log none m) (hm : m.main = some t)
    (reason : Option String) : Sound roles log none (m.cancelToken reason).endPause := by
  let k := m.cancelToken reason
  have hsilent := Silent.endPause k
  have hrun : k.endPause.run = m.run :=
    (show k.endPause.run = k.run from hsilent.mute.run).trans (cancelToken_silent m reason).mute.run
  have htoken : k.endPause.token.cancelled = true := by
    rw [show k.endPause.token = k.token from hsilent.mute.token]
    exact cancelToken_cancelled m reason
  have hkpaused : k.paused = m.paused := (cancelToken_silent m reason).mute.paused
  have hpaused : k.endPause.paused = [] := hsilent.mute.paused
  have hstatus := congrArg Run.status hrun
  have hstack := congrArg Run.stack hrun
  refine Changes.sound h (cancelToken_changes m reason).endPause (fun u hu => ?_) (fun hn => ?_)
    fun {u s p} hmain hu hq => ?_
  · rw [show (m.cancelToken reason).endPause.paused = [] from hpaused] at hu
    cases hu
  · rw [hm] at hn
    cases hn
  · rw [endPause_state?, cancelToken_state? h hmain, show (m.cancelToken reason).paused = m.paused from
      hkpaused] at hu
    obtain ⟨s', hs'⟩ : ∃ s', m.state? u = some s' := by
      cases hst : m.state? u with
      | none => simp [hst] at hu
      | some s' => exact ⟨s', rfl⟩
    have hpark := h.parked hmain hs' hq
    rw [hs'] at hu
    cases s' with
    | waiting w j =>
      by_cases hw : w = .resumption
      · subst hw
        cases hpark with
        | walk _ _ hw => exact absurd hw id
        | pause hp _ hunder hd hne =>
          obtain ⟨-, hin⟩ := Waits.paused h hmain (.pause hp ‹_› hunder hd hne) hp
          rw [if_pos hin] at hu
          cases hu
          exact Stands.resume (.inr ⟨hstatus.trans hp, htoken⟩) (hunder.congr hstack) hd true false
      · have hnot : u ∉ m.paused := by
          intro hin
          obtain ⟨-, j', hj⟩ := h.paused u hin
          rw [hs'] at hj
          cases hj
          exact hw rfl
        rw [if_neg hnot] at hu
        cases hu
        exact Waits.cancelled hpark hw hstatus hstack
    | fresh c i =>
      have hs'' : s = .fresh c i := by
        split at hu <;> exact (Option.some.inj hu).symm
      subst hs''
      exact ⟨hpark.1, hpark.2.1, hpark.2.2.congr hstatus hstack⟩
    | woken w a i =>
      have hs'' : s = .woken w a i := by
        split at hu <;> exact (Option.some.inj hu).symm
      subst hs''
      exact Stands.cancelled hpark hstatus hstack htoken
    | running =>
      have hs'' : s = .running := by
        split at hu <;> exact (Option.some.inj hu).symm
      subst hs''
      trivial
    | ended a =>
      have hs'' : s = .ended a := by
        split at hu <;> exact (Option.some.inj hu).symm
      subst hs''
      exact (congrArg Status.isTerminal hstatus).trans hpark

/-- A cancelled run that has not ended ends. -/
theorem finalize_changes (hs : m.run.status.isTerminal = false) (hc : m.token.cancelled = true)
    (stamp : Instant) (o : Outcome) : Changes m (m.finalize stamp o) := by
  have hb : m.run.status = .running ∨ m.run.status.isTerminal = false ∧ m.token.cancelled = true :=
    .inr ⟨hs, hc⟩
  have ha := finalize_advance stamp o hb
  obtain ⟨run, type, payload, he, -⟩ := finalize_eq m stamp o hb
  have hsilent := Silent.endPause (({ m with run } : Machine).emit type payload)
  exact {
    tends := by
      rw [he]
      exact Tends.trans (n := ({ m with run } : Machine).emit type payload) (.of_tasks rfl) (.endPause _)
    fitting := fun hf => by
      rw [he]
      exact Fitting.endPause (hf.of_tasks rfl)
    main := by rw [he]; exact hsilent.mute.main
    watchers := fun t ht => by rw [he, hsilent.mute.watchers] at ht; exact ht
    ticket := by rw [he]; exact hsilent.mute.nextTicket
    story := by
      obtain ⟨d, hd, hp, hu, hl⟩ := ha.story
      exact ⟨d, hd, hp, fun e he => ⟨hu e he, hl hc e he⟩⟩
    results := ha.results.resolve_right fun h => by
      rw [hc] at h
      cases h.1 }

/-- The token of a run is cancelled and all its pauses end. -/
def halt (m : Machine) (text : String) : Machine :=
  (m.cancelToken (some text)).endPause

theorem halt_changes (m : Machine) (text : String) : Changes m (m.halt text) :=
  (cancelToken_changes m (some text)).endPause

theorem halt_run (m : Machine) (text : String) : (m.halt text).run = m.run :=
  (show _ = (m.cancelToken (some text)).run from (Silent.endPause _).mute.run).trans
    (cancelToken_silent m _).mute.run

theorem halt_cancelled (m : Machine) (text : String) : (m.halt text).token.cancelled = true := by
  rw [halt, show (m.cancelToken (some text)).endPause.token = (m.cancelToken (some text)).token from
    (Silent.endPause _).mute.token]
  exact cancelToken_cancelled m _

/-- A cancellation is refused once the run has ended; it ends a run that was never started. -/
theorem cancel_cases (m : Machine) (reason : Option String) (stamp : Instant) :
    m.run.status.isTerminal = true ∧ m.cancel reason stamp = (m, false) ∨
    m.run.status.isTerminal = false ∧ ∃ text,
      (¬ (m.run.status = .pending ∧ m.main = none) ∧ m.cancel reason stamp = (m.halt text, true) ∨
      m.run.status = .pending ∧ m.main = none ∧
        m.cancel reason stamp = ((m.halt text).finalize stamp .cancelled, true)) := by
  unfold cancel
  split
  · exact .inl ⟨‹_›, rfl⟩
  · rename_i hs
    have hiff (text : String) : (((m.halt text).run.status == .pending &&
        (m.halt text).main.isNone) = true) ↔ m.run.status = .pending ∧ m.main = none := by
      rw [Bool.and_eq_true, beq_iff_eq, Option.isNone_iff_eq_none, halt_run, (halt_changes m text).main]
    by_cases hn : m.run.status = .pending ∧ m.main = none
    · exact .inr ⟨Bool.eq_false_iff.mpr hs, _, .inr ⟨hn.1, hn.2, if_pos ((hiff _).mpr hn)⟩⟩
    · exact .inr ⟨Bool.eq_false_iff.mpr hs, _, .inl ⟨hn, if_neg fun h => hn ((hiff _).mp h)⟩⟩

theorem cancel_sound (h : Sound roles log none m) (reason : Option String) (stamp : Instant) :
    Sound roles log none (m.cancel reason stamp).1 := by
  obtain ⟨-, he⟩ | ⟨hs, text, ⟨hn, he⟩ | ⟨hs, hm, he⟩⟩ := cancel_cases m reason stamp
  · rw [he]
    exact h
  · rw [he]
    cases hm : m.main with
    | some t => exact endPause_cancelToken_sound h hm _
    | none =>
      obtain ⟨hp, -⟩ | ht := h.unstarted hm
      · exact absurd ⟨hp, hm⟩ hn
      · rw [hs] at ht
        cases ht
  · rw [he]
    have ht : (m.halt text).run.status.isTerminal = false := by
      rw [halt_run, hs]
      rfl
    have hterminal : (m.halt text).run.status = .running ∨
        (m.halt text).run.status.isTerminal = false ∧ (m.halt text).token.cancelled = true :=
      .inr ⟨ht, halt_cancelled m text⟩
    have hk := (halt_changes m text).trans
      (finalize_changes ht (halt_cancelled m text) stamp .cancelled)
    refine Changes.sound h hk (fun u hu => ?_) (fun _ => .inr (finalize_terminal _ _ hterminal)) fun hmain => ?_
    · obtain ⟨run, type, payload, hf, -⟩ := finalize_eq (m.halt text) stamp .cancelled hterminal
      have hu : u ∈ ((m.halt text).finalize stamp .cancelled).paused := hu
      rw [hf, (Silent.endPause _).mute.paused] at hu
      cases hu
    · rw [hm] at hmain
      cases hmain

/-! Starting, and writing variables. -/

theorem start_sound (h : Sound roles log none m) (slotted : Bool) :
    ∃ more, Sound (roles ++ more) log none (m.start slotted) := by
  unfold start
  split
  · exact ⟨[], by rw [List.append_nil]; exact h⟩
  · rename_i hm
    refine ⟨[.walker], ?_⟩
    let c : Control := if slotted then .enqueue else .execute
    have hc : c.IsOpening := by
      dsimp only [c]
      split <;> trivial
    have hsuits : c.Suits roles .walker [] := by
      cases hc' : c <;> first | trivial | (rw [hc'] at hc; exact absurd hc id)
    have hwalker (t : TaskId) : roles[t]? ≠ some .walker := by
      intro ht
      rw [h.main.mp ht] at hm
      cases hm
    have hfit := h.fitting.spawn hsuits
    have ht : Tends m (m.spawn c []).1 := .spawn m c
    have hs := Silent.spawn m c []
    exact {
      fitting := hfit.of_tasks rfl
      main := fun {t} => by
        show (roles ++ [.walker])[t]? = some .walker ↔ some m.tasks.size = some t
        rw [List.getElem?_append]
        split
        · rename_i hlt
          rw [h.fitting.size] at hlt
          refine ⟨fun hw => absurd hw (hwalker t), fun he => ?_⟩
          cases he
          exact absurd hlt (Nat.lt_irrefl _)
        · rename_i hge
          rw [h.fitting.size] at hge ⊢
          rw [List.getElem?_singleton]
          constructor
          · intro he
            split at he
            · rename_i hz
              rw [Nat.le_antisymm (Nat.le_of_not_lt hge) (Nat.le_of_sub_eq_zero hz)]
            · cases he
          · intro he
            rw [← Option.some.inj he, Nat.sub_self]
            rfl
      watchers := fun t ht => getElem?_of_append (h.watchers t ht)
      tickets := (h.tickets.tends ht rfl (hs.adds.mono fun _ he => he.2)).congr (fun _ => rfl)
        (fun _ => rfl) rfl rfl
      parked := fun {t s p} hmain hst hp => by
        cases (show some m.tasks.size = some t from hmain)
        have hst : (m.spawn c []).1.state? m.tasks.size = some s := hst
        have hp : (m.spawn c []).1.pending? m.tasks.size = some p := hp
        rw [state?_spawn, if_pos rfl] at hst
        rw [pending?_spawn, if_pos rfl] at hp
        cases hst
        cases hp
        exact ⟨hc, rfl, h.unstarted hm⟩
      unstarted := fun hmain => by cases hmain
      history := history_of_mute (n := (m.spawn c []).1) h.history hs.mute.adds rfl
      results := h.results
      paused := fun t ht => by
        obtain ⟨hmain, -⟩ := h.paused t ht
        rw [hm] at hmain
        cases hmain
      strand := fun hs => by cases hs
      running := fun hu => h.running (ht.running_iff.mp hu) }

theorem setVar_sound (h : Sound roles log none m) (name : String) (v frame : Value) :
    Sound roles log none (m.obey (.setVar name v frame)).1 := by
  obtain he | ⟨layers, s, depth, he⟩ := m.obey_setVar name v frame
  · rw [he]
    exact h
  · rw [he]
    refine h.of_same rfl rfl rfl rfl rfl rfl rfl rfl ⟨rfl, rfl⟩ ⟨_, List.singleton_append.symm, ?_⟩
    intro e he
    rw [List.mem_singleton.mp he]
    exact ⟨rfl, fun _ _ => rfl, not_isBarred_emit (by decide) _ _⟩

/-- A command keeps the invariant. -/
theorem Sound.obey (h : Sound roles log none m) (c : Command) :
    ∃ more, Sound (roles ++ more) log none (m.obey c).1 := by
  have same {n : Machine} (hn : Sound roles log none n) : ∃ more, Sound (roles ++ more) log none n :=
    ⟨[], by rw [List.append_nil]; exact hn⟩
  cases c with
  | start slotted => exact start_sound h slotted
  | pause => exact same (pause_sound h)
  | resume => exact same (resumeRun_sound h)
  | stepOver => exact same (stepOver_sound h)
  | cancel reason stamp => exact same (cancel_sound h reason stamp)
  | setVar name v frame => exact same (setVar_sound h name v frame)
  | edit f => exact same (h.of_same rfl rfl rfl rfl rfl rfl rfl rfl ⟨rfl, rfl⟩ ⟨[], rfl, by simp⟩)

end Workflow.Machine
