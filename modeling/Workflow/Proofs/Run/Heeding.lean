import Workflow.Proofs.Run.Poise
import Workflow.Proofs.Run.Tacit
/-!
A run is as the signs say that there have been, whatever happens in it: what decides about its pauses, and where
its tasks stand.
-/

namespace Workflow

namespace Machine

variable {past : List Sign} {m n : Machine} {env : Surroundings} {t : TaskId} {c : Control} {p : List Pending}
  {x : StepResult}

/-- Whoever waits for the end of a pause is not told of anything. -/
theorem tell_holds {k : Nat} (hk : m.state? t ≠ some (.waiting .resumption k)) : Holds m (m.tell t k) := by
  intro u j hu _
  unfold tell
  split
  · rename_i w k' hs
    split
    · rename_i hkk
      refine .inl ?_
      rw [state?_signal, if_neg, hu]
      rintro rfl
      rw [hu] at hs
      cases hs
      exact hk (by simpa [beq_iff_eq.mp hkk] using hu)
    · exact .inl hu
  · exact .inl hu

theorem interruptMain_steady {types : List String} (m : Machine) : Steady types m m.interruptMain := by
  unfold interruptMain
  split
  · exact .interruptTask m _
  · exact .refl m

end Machine

namespace Execution

variable {first : Bool} {past : List Sign} {x y : Execution} {env : Surroundings} {s : Strand} {t u : TaskId}
  {c d : Control} {p q : List Pending}

theorem stepIn_idle (hx : x.active = none) : x.stepIn env = x := by
  unfold stepIn
  rw [hx]

theorem stopped?_of_comes (hs : x.active = some s) {walk : Walk} {node : Node}
    (h : Machine.Comes x.machine walk node s.pending (x.machine.step env s.task s.control s.pending)) :
    (x.stepIn env).stopped? = x.machine.gauge.reason? node := by
  rw [stepIn_eq hs]
  generalize x.machine.step env s.task s.control s.pending = r at h ⊢
  obtain ⟨n, turn⟩ := r
  have ht := h.turn
  cases hr : x.machine.gauge.reason? node with
  | none =>
    rw [hr] at ht
    cases ht
    rfl
  | some reason =>
    rw [hr] at ht
    cases ht
    exact h.reason reason hr

theorem begin_gauge (x : Execution) (t : TaskId) : (x.begin t).machine.gauge = x.machine.gauge := by
  have hb := x.begins t
  generalize x.begin t = y at hb ⊢
  cases hb with
  | dismissed => exact (Machine.Mute.finish x.machine t .interrupted).gauge
  | _ => rfl

/-- Whatever happens changes what decides about pauses as its sign says. -/
theorem meet_heeds (x : Execution) (a : Happening) : x.machine.gauge.Heeds (x.sign? a) (x.meet a).machine.gauge := by
  have hu := x.undergoes a
  cases a with
  | step env =>
    show x.machine.gauge.Heeds (x.sign? (.step env)) (x.stepIn env).machine.gauge
    cases hs : x.active with
    | none =>
      rw [stepIn_idle hs]
      unfold sign?
      rw [hs]
      exact .nothing (.of_eq rfl)
    | some s =>
      have hg : (x.stepIn env).machine.gauge = (x.machine.step env s.task s.control s.pending).1.gauge := by
        rw [stepIn_eq hs]
        exact Machine.turn_gauge _ _ _
      rw [hg]
      unfold sign?
      rw [hs]
      exact (Machine.step_strides x.machine env s.task s.pending s.control).heeds (stopped?_of_comes hs) _
  | command c =>
    show x.machine.gauge.Heeds (if x.isIdle then _ else _) (x.obey c).machine.gauge
    unfold obey
    split
    · exact Machine.obey_signs x.machine c _
    · exact .nothing (.of_eq rfl)
  | begin t =>
    refine Gauge.Keeps.heeds (.of_eq ?_) _
    generalize x.meet (.begin t) = y at hu ⊢
    cases hu with
    | refused => rfl
    | begin => exact begin_gauge x t
  | tell t k =>
    refine Gauge.Keeps.heeds (.of_eq ?_) _
    generalize x.meet (.tell t k) = y at hu ⊢
    cases hu with
    | refused => rfl
    | tell => exact (Machine.Silent.tell x.machine t k).mute.gauge
  | grant t =>
    refine Gauge.Keeps.heeds (.of_eq ?_) _
    generalize x.meet (.grant t) = y at hu ⊢
    cases hu <;> rfl
  | interrupt =>
    refine Gauge.Keeps.heeds (.of_eq ?_) _
    generalize x.meet .interrupt = y at hu ⊢
    cases hu with
    | refused => rfl
    | interrupt => exact (x.machine.interruptMain_steady : Machine.Steady [] _ _).gauge

/-- A run is as the signs say that there have been. -/
structure Recalls (first : Bool) (past : List Sign) (x : Execution) : Prop where
  gauge : x.machine.gauge.Recalls first past
  poised : ∀ {t c q}, x.post t = some (.doing c q) → Poised past x.machine t c q
  roused : x.machine.IsRoused
  awake : ∀ {u s i q}, x.active = some ⟨u, .wake .resumption s i, q⟩ → s = true ∨ i = true
  manned : x.IsManned
  tacit : x.machine.Tacit x.log
  spent : x.machine.effects = []

theorem create_recalls (id : String) (flow : Flow) (bindings : Entries Value) (breakpoints : Breakpoints)
    (pauseOnStart : Bool) (stamp : Instant) :
    (ofMachine (.create id flow bindings breakpoints pauseOnStart stamp)).Recalls pauseOnStart [] where
  gauge := {
    pauseOnStart := by simp [Machine.gauge, ofMachine, Machine.create, IsFirst]
    stepArmed := by simp [Machine.gauge, ofMachine, Machine.create, IsArmed, Since]
    pauseRequested := by simp [Machine.gauge, ofMachine, Machine.create, IsRequested, Since]
    fresh := fun _ => ⟨by simp [Machine.gauge, ofMachine, Machine.create], rfl⟩ }
  poised h := by cases h
  roused := { woken := fun h => by (cases h), fresh := fun h => by (cases h) }
  awake h := by cases h
  manned := .of_idle rfl
  tacit := {
    told := fun h => by obtain ⟨e, he, -⟩ := h; cases he
    listed := fun h => by cases h
    held := fun h => by cases h }
  spent := rfl

namespace Recalls

/-- What is done from outside while no task is in the middle of its steps. -/
theorem put (h : x.Recalls first past) (hi : x.isIdle = true) {n : Machine} (hd : Machine.Discreet x.machine n)
    {s : Option Sign} (hg : x.machine.gauge.Heeds s n.gauge) (hs : ∀ a ∈ s, a.task? = none)
    (hf : Machine.Holds x.machine n ∨ ∃ b, s = some (.released b)) :
    (x.put n none).Recalls first (s.toList ++ past) where
  gauge := h.gauge.heeds hg
  poised {t c q} hp := by
    have hx : x.active = none := by simpa [isIdle] using hi
    have old : ∀ t, True → ∀ c q, x.machine.post t = some (.doing c q) → Poised past x.machine t c q :=
      fun t _ c q hq => h.poised ((post_idle hx).trans hq)
    have hn : Poised (s.toList ++ past) n t c q :=
      hd.poised old (fun t _ a ha => by simp [hs a ha]) (hf.imp_right .inl) trivial hp
    exact hn.congr rfl rfl
  roused := (hd.isRoused h.roused).of_state? .inl
  awake hs' := by cases hs'
  manned := .of_idle rfl
  tacit := (h.tacit.discreet hd).put
  spent := rfl

/-- A task that begins its steps stands where it stood. -/
theorem begins (h : x.Recalls first past) (hx : x.active = none) (hp : x.machine.post t = some (.doing c p))
    (hw : ∀ s i, c = .wake .resumption s i → s = true ∨ i = true)
    (hm : IsManned { x with machine := x.machine.setState t .running, active := some ⟨t, c, p⟩ }) :
    Recalls first past { x with machine := x.machine.setState t .running, active := some ⟨t, c, p⟩ } where
  gauge := h.gauge
  poised {u d q} hu := (h.poised ((post_begun hx hp u).symm.trans hu)).congr rfl rfl
  roused := h.roused.set (fun _ => Machine.state?_setState _) (by simp) (by simp)
  awake := by
    rintro u s i q ⟨⟩
    exact hw s i rfl
  manned := hm
  tacit := h.tacit.setState nofun
  spent := h.spent

theorem begin (h : x.Recalls first past) (ha : x.allows (.begin t) = true) : (x.begin t).Recalls first past := by
  have hx : x.active = none := by
    simp only [allows, Bool.and_eq_true] at ha
    simpa [isIdle] using ha.1
  have hb := x.begins t
  have hm := h.manned.begin t
  have hg := begin_gauge x t
  generalize x.begin t = y at hb hm hg ⊢
  cases hb with
  | unready => exact h
  | fresh hs hp =>
    refine h.begins hx ?_ (fun s i he => absurd he (h.roused.fresh hs s i)) hm
    rw [Machine.post_of_state? hs, hp]
    rfl
  | woken hs hp =>
    refine h.begins hx ?_ (fun s i he => by cases he; exact h.roused.woken hs) hm
    rw [Machine.post_of_state? hs, hp]
    rfl
  | dismissed hs =>
    have hmute := Machine.Mute.finish x.machine t .interrupted
    refine ⟨?_, fun {u d q} hu => ?_, ?_, (fun hp => by cases hp), hm, (h.tacit.finish _).put, rfl⟩
    · exact hg ▸ h.gauge
    · rw [post_dismissed hx hs] at hu
      split at hu
      · cases hu
      · exact (h.poised hu).congr hmute.main hmute.token
    · exact h.roused.set (fun _ => Machine.state?_finish _) (by simp) (by simp)

theorem grant (h : x.Recalls first past) (ha : x.allows (.grant t) = true) (hm : (x.grant t).IsManned) :
    (x.grant t).Recalls first past := by
  refine ⟨h.gauge, fun {u d q} hu => ?_, ?_, h.awake, hm, h.tacit.setState nofun, h.spent⟩
  · rcases post_grant ha u with he | ⟨-, p, hold, hnew⟩
    · exact (h.poised (he.symm.trans hu)).congr rfl rfl
    · cases hnew.symm.trans hu
      exact Poised.congr (Poised.aim (d := .wake .grant true false) (h.poised hold) rfl nofun) rfl rfl
  · exact h.roused.set (fun _ => Machine.state?_setState _) (by rintro w a i ⟨⟩; exact .inl rfl) (by simp)

/-- Whatever happens to others, a task stands where it stands, and its own step takes it on. -/
theorem stepIn_poised (h : x.Recalls first past) (hx : x.active = some ⟨t, c, p⟩)
    (hu : (x.stepIn env).post u = some (.doing d q)) :
    Poised ((x.sign? (.step env)).toList ++ past) (x.stepIn env).machine u d q := by
  have hs := x.machine.step_strides env t p c
  have hp := h.poised (post_self hx)
  have hsign : x.sign? (.step env) = c.sign? x.machine env t (x.stepIn env).stopped? (x.endsBy (.step env)) := by
    unfold sign?
    rw [hx]
  have hcore : (x.stepIn env).machine.core = (x.machine.step env t c p).1.core := by
    rw [stepIn_eq hx]
    exact Machine.turn_core _ _ _
  have hmain : (x.stepIn env).machine.main = (x.machine.step env t c p).1.main := (congrArg Machine.main hcore :)
  have htoken : (x.stepIn env).machine.token = (x.machine.step env t c p).1.token := (congrArg Machine.token hcore :)
  have hrun : (x.stepIn env).machine.run = (x.machine.step env t c p).1.run := (congrArg Machine.run hcore :)
  refine Poised.congr ?_ hmain htoken
  rw [hsign]
  by_cases htu : t = u
  · subst htu
    rw [post_stepIn hx (Machine.step_running x.machine env t p (h.manned _ hx) c)] at hu
    refine hs.poised hp (fun s i hw => ?_) (stopped?_of_comes hx) (Option.some.inj hu)
    subst hw
    exact h.awake hx
  · have hends : x.machine.run.status.isTerminal = false →
        (x.machine.step env t c p).1.run.status.isTerminal = true → x.endsBy (.step env) = true := by
      intro hlive hended
      show (!_ && (x.stepIn env).machine.run.status.isTerminal) = true
      rw [hrun, hlive]
      exact hended
    have other {u : TaskId} (htu : t ≠ u) : x.post u = x.machine.post u :=
      post_other fun s hs => by
        cases hx.symm.trans hs
        exact htu
    rw [post_stepIn_other hx htu] at hu
    refine hs.discreet.poised (A := (t ≠ ·)) (fun u htu c q hq => h.poised ((other htu).trans hq))
      (fun u htu a ha => Control.task?_sign a ha u htu) ?_ htu hu
    refine (hs.holds (fun hm => (hp.inner hm).2) hends).imp_right fun ⟨he, hm⟩ => .inr ⟨he, fun u htu hm' => ?_⟩
    exact htu (Option.some.inj (hm.symm.trans hm'))

theorem stepIn (h : x.Recalls first past) (env : Surroundings) :
    (x.stepIn env).Recalls first ((x.sign? (.step env)).toList ++ past) := by
  cases hx : x.active with
  | none =>
    have hn : x.sign? (.step env) = none := by
      unfold sign?
      rw [hx]
    rw [stepIn_idle hx, hn]
    exact h
  | some s =>
    obtain ⟨t, c, p⟩ := s
    have hs := x.machine.step_strides env t p c
    have hp := h.poised (post_self hx)
    refine ⟨h.gauge.heeds (x.meet_heeds (.step env)), h.stepIn_poised hx, ?_, ?_, h.manned.stepIn env, ?_, ?_⟩
    · rw [stepIn_eq hx]
      exact ((hs.discreet.isRoused h.roused).turn t _).of_state? .inl
    · -- No task goes on from a pause in the same step: what it does next is not yet the end of the pause.
      intro u s i q ha
      rw [stepIn_eq hx] at ha
      obtain ⟨⟨d, q'⟩, hd, he⟩ := Option.map_eq_some_iff.mp ha
      cases he
      have hgo : (x.machine.step env t c p).2 = .go (.wake .resumption s i) q := by
        generalize (x.machine.step env t c p).2 = turn at hd
        cases turn <;> cases hd
        rfl
      cases hgo.symm.trans (hs.eq_wait hp (congrArg Turn.post hgo))
    · rw [stepIn_eq hx]
      refine ((h.tacit.discreet hs.discreet).turn
        (Machine.step_running x.machine env t p (h.manned _ hx) c) fun he => ?_).put
      cases he.symm.trans (hs.eq_wait hp (congrArg Turn.post he))
      exact ⟨rfl, rfl⟩
    · rw [stepIn_eq hx]
      rfl

/-- The start of a run makes the task that executes it, which has come to no node. -/
theorem start (h : x.Recalls first past) (hi : x.isIdle = true) (slotted : Bool) (ends : Bool) :
    (x.put (x.machine.start slotted) none).Recalls first
      ((Command.sign? (.start slotted) x.machine ends).toList ++ past) := by
  have hx : x.active = none := by simpa [isIdle] using hi
  have hg : x.machine.gauge.Heeds _ (x.machine.start slotted).gauge := x.machine.obey_signs (.start slotted) ends
  have hs : ∀ a ∈ Command.sign? (.start slotted) x.machine ends, a.task? = none := Command.task?_sign
  generalize Command.sign? (.start slotted) x.machine ends = s at hg hs ⊢
  cases hm : x.machine.main with
  | some t =>
    have he : x.machine.start slotted = x.machine := by
      unfold Machine.start
      rw [hm]
    rw [he] at hg ⊢
    exact h.put hi (.refl _) hg hs (.inl fun ht _ => .inl ht)
  | none =>
    have he := Machine.start_eq hm slotted
    have hc (a i : Bool) : (if slotted then .enqueue else .execute : Control) ≠ .wake .resumption a i := by
      cases slotted <;> simp
    have hstate (u : TaskId) : (x.machine.start slotted).state? u =
        if u = x.machine.tasks.size then some (.fresh (if slotted then .enqueue else .execute) false)
        else x.machine.state? u := by
      rw [he]
      exact Machine.state?_spawn _ _
    have hpending (u : TaskId) : (x.machine.start slotted).pending? u =
        if u = x.machine.tasks.size then some [] else x.machine.pending? u := by
      rw [he]
      exact Machine.pending?_spawn _ _
    have hmain : (x.machine.start slotted).main = some x.machine.tasks.size := by rw [he]
    have htoken : (x.machine.start slotted).token = x.machine.token := by
      rw [he]
      rfl
    have htacit : (x.machine.start slotted).Tacit x.log := by
      rw [he]
      exact (h.tacit.spawn (if slotted then .enqueue else .execute)).congr rfl rfl rfl
    refine ⟨h.gauge.heeds hg, fun {u d q} hu => ?_, ?_, (fun hp => by cases hp), .of_idle rfl, htacit.put, rfl⟩
    · have hu : (x.machine.start slotted).post u = some (.doing d q) := hu
      by_cases hnew : u = x.machine.tasks.size
      · rw [Machine.post_of_state? ((hstate u).trans (if_pos hnew)), hpending, if_pos hnew] at hu
        cases hu
        refine ⟨.aside ?_ (by simp), fun hn => absurd (hnew ▸ hmain) hn⟩
        cases slotted <;> trivial
      · have hpost : (x.machine.start slotted).post u = x.machine.post u :=
          Machine.post_congr ((hstate u).trans (if_neg hnew)) ((hpending u).trans (if_neg hnew))
        refine (h.poised ((post_idle hx).trans (hpost.symm.trans hu))).mono ?_ (htoken ▸ id) fun a ha => by
          simp [hs a ha]
        show (x.machine.start slotted).main = some u ↔ x.machine.main = some u
        rw [hmain, hm]
        simp [Ne.symm hnew]
    · refine h.roused.of_state? fun {u s'} hu => ?_
      rw [show (x.put (x.machine.start slotted) none).machine.state? u = _ from hstate u] at hu
      split at hu
      · cases hu
        exact .inr ⟨by simp, by rintro _ _ ⟨⟩; exact hc⟩
      · exact .inl hu

theorem command (h : x.Recalls first past) (hi : x.isIdle = true) (c : Command) (ends : Bool) :
    (x.put (x.machine.obey c).1 none).Recalls first ((c.sign? x.machine ends).toList ++ past) := by
  by_cases hc : ∃ s, c = .start s
  · obtain ⟨s, rfl⟩ := hc
    exact h.start hi s ends
  · have hc : ∀ s, c ≠ .start s := fun s hs => hc ⟨s, hs⟩
    exact h.put hi (Machine.obey_discreet _ hc) (Machine.obey_signs _ _ _) Command.task?_sign
      (Machine.obey_holds _ hc _)

/-- That the run has ended takes nothing from where its tasks stand. -/
theorem ended (h : x.Recalls first past) (b : Bool) :
    x.Recalls first ((if b then some .ended else none : Option Sign).toList ++ past) := by
  refine ⟨h.gauge.heeds (Gauge.Keeps.heeds (.of_eq rfl) b), fun hp => ?_, h.roused, h.awake, h.manned, h.tacit,
    h.spent⟩
  exact (h.poised hp).mono Iff.rfl id (by cases b <;> simp [Sign.task?])

/-- Whatever happens, a run stays as the signs say. -/
theorem meet (h : x.Recalls first past) (a : Happening) :
    (x.meet a).Recalls first ((x.sign? a).toList ++ past) := by
  have hu := x.undergoes a
  have hm := h.manned.meet a
  cases a with
  | step env => exact h.stepIn env
  | command c =>
    show (x.obey c).Recalls first ((if x.isIdle then _ else _ : Option Sign).toList ++ past)
    unfold obey
    split
    · exact h.command (by assumption) c _
    · exact h
  | begin t =>
    refine ended ?_ _
    generalize x.meet (.begin t) = y at hu ⊢
    cases hu with
    | refused => exact h
    | begin ha => exact h.begin ha
  | grant t =>
    refine ended ?_ _
    generalize x.meet (.grant t) = y at hu hm ⊢
    cases hu with
    | refused => exact h
    | grant ha => exact h.grant ha hm
  | interrupt =>
    refine ended ?_ _
    generalize x.meet .interrupt = y at hu ⊢
    cases hu with
    | refused => exact h
    | interrupt hi =>
      have hs : Machine.Steady [] _ _ := x.machine.interruptMain_steady
      exact h.put hi hs.toDiscreet (s := none) (.nothing (.of_eq hs.gauge)) (by simp) (.inl hs.held)
  | tell t k =>
    refine ended ?_ _
    show Recalls first past (if x.allows (.tell t k) then x.put (x.machine.tell t k) none else x)
    split
    · rename_i ha
      simp only [allows, Bool.and_eq_true] at ha
      have htold : Machine.Tells x.log x.machine t k := by
        obtain ⟨e, he, ht⟩ := List.any_eq_true.mp ha.1.2
        exact ⟨e, List.mem_append_right _ he, ht⟩
      refine h.put ha.1.1 (.tell _ t k) (s := none) (.nothing (.of_eq ?_)) (by simp) (.inl ?_)
      · exact (Machine.Silent.tell x.machine t k).mute.gauge
      · exact Machine.tell_holds fun hs => (h.tacit.held hs).2.1 htold
    · exact h

theorem following (h : x.Recalls first past) (hs : List Happening) :
    (following hs x).Recalls first (signs hs x ++ past) := by
  induction hs generalizing x past with
  | nil => exact h
  | cons a hs ih =>
    rw [signs, List.append_assoc]
    exact ih (h.meet a)

end Recalls

end Execution

end Workflow
