import Workflow.Proofs.Run.Ledger
import Workflow.Proofs.Run.Slot
import Workflow.Proofs.Run.Tiers
import Workflow.Proofs.Settings.Sound
/-!
The discipline of the call stack. While a run is under way it has a frame at least and no more than are
allowed, each frame above another one was invoked by the node that the one below has come to, the run is
where its innermost frame is, and events tell how deep they are. However the work at a node ends, it
leaves the frames as it found them.
-/

namespace Workflow

/-- Whether frames are the one that a run begins with. -/
def IsRoot (fs : List Frame) : Prop :=
  ∃ root : Frame, fs = [root] ∧ root.invokedBy = none

/-- A frame was invoked by the node that the frame below has come to. -/
def Frame.IsInvoked (f below : Frame) : Prop :=
  ∃ node, below.current = some node ∧ f.invokedBy = some node

theorem Tiers.linked {b p : List Pending} {fs : List Frame} (h : Tiers IsRoot b p fs) :
    fs.IsChain Frame.IsInvoked ∧ ∀ f ∈ fs.getLast?, f.invokedBy = none := by
  induction h with
  | base h =>
    obtain ⟨root, rfl, hr⟩ := h
    refine ⟨.singleton root, fun f hf => ?_⟩
    cases hf
    exact hr
  | work _ _ _ ih => exact ih
  | frame _ hi hc ih => exact ⟨.cons_cons ⟨_, hc, hi⟩ ih.1, ih.2⟩

namespace Machine

variable {roles : List Role} {m : Machine} {c : Control} {p : List Pending}

/-- A step that leaves a run that is not under way as it is, or begins it with one frame. -/
def Sets (limit : Nat) (m : Machine) (p : List Pending) (x : StepResult) : Prop :=
  Adds Effect.IsPlaced m x.1 ∧ (x.1.run.status = .running ∨ x.1.run.status = .paused →
    IsBottom p ∧ x.2.Rests limit IsRoot (.execution :: p) x.1)

section outset

variable (hs : ¬ (m.run.status = .running ∨ m.run.status = .paused))

include hs

theorem Level.sets {limit : Nat} {x : StepResult} (ha : Adds Effect.IsPlaced m x.1) (hr : x.1.run = m.run) :
    m.Sets limit p x :=
  ⟨ha, fun h => absurd (hr ▸ h) hs⟩

theorem execute_sets (h : IsUnbegun m) (hp : IsBottom p) (env : Surroundings)
    (hpos : 0 < env.settings.maxCallDepth) : m.Sets env.settings.maxCallDepth p (m.execute env p) := by
  unfold execute
  split
  · exact Level.sets hs (.refl m) rfl
  · rename_i hn
    have hpend : m.run.status = .pending := by simpa using hn
    split
    · rename_i hc
      have ht : (m.finalize env.stamp .cancelled).run.status.isTerminal = true :=
        finalize_terminal _ _ (.inr ⟨by rw [hpend]; rfl, hc⟩)
      refine ⟨finalize_adds m _ _, fun h => ?_⟩
      rcases h with h | h <;> rw [h] at ht <;> cases ht
    · have hstack : m.run.stack = [] := by
        rcases h with h | h
        · exact h.2
        · rw [hpend] at h
          cases h
      refine ⟨.trans (.of_eq rfl) (.effect _ (e := .emit _ _ _) nofun), fun _ => ⟨hp, ?_⟩⟩
      refine ⟨{ key := m.nextFrame, flow := m.run.flow.id, invokedBy := none, layers := rootLayers }, [],
        ⟨?_, .base ⟨_, rfl, rfl⟩, List.pairwise_singleton _ _, Nat.lt_succ_self _, hpos, .inr rfl⟩, rfl, trivial⟩
      show (m.run.stack ++ [_]).reverse = _
      rw [hstack]
      rfl

/-- A step of the walker of a run that is not under way. -/
theorem Stands.sets (h : Stands m c p) (hf : m.Fitting roles) (w : World) (now : Moment) (t : TaskId)
    (hsuits : c.Suits roles .walker p) (hpos : 0 < w.settings.maxCallDepth) :
    m.Sets w.settings.maxCallDepth p (m.step (w.surroundings now) t c p) := by
  cases h with
  | enqueue h =>
    refine Level.sets hs ?_ (enqueue_step m).1
    show Adds Effect.IsPlaced m (m.enqueue []).1
    unfold Machine.enqueue
    split
    · exact .of_eq rfl
    · exact (Level.of_mute ((Silent.spawn m .takeSlot []).trans (.spawn _ .watch [])).mute).adds
  | start h u v s i =>
    refine Level.sets hs ?_ (opening_step hf _ hsuits).1
    cases hsuits.2 rfl
    obtain ⟨n, held, he, ha⟩ := wakeFromStart_aside (p := []) t hf (w.surroundings now) s hsuits.1.1 hsuits.1.2
    show Adds Effect.IsPlaced m (m.wake (w.surroundings now) t (.start u v) s false []).1
    rw [he]
    exact (Level.of_aside ha).adds
  | execute h hp => exact execute_sets hs h hp (w.surroundings now) hpos
  | walk h | wake h => exact absurd (.inl h) hs
  | resume h => exact absurd (h.imp_right And.left) hs
  | back h | refuse h | unwind h => exact absurd (.inr h.1) hs
  | ended h hp a =>
    refine Level.sets hs ?_ (bottom_step _ hp a).1
    rcases p with _ | ⟨k, _ | ⟨l, q⟩⟩
    · exact .refl m
    · obtain ⟨held, rfl⟩ : ∃ held, k = .slot held := by
        cases k <;> first | exact ⟨_, rfl⟩ | exact absurd hp id
      have given : Level m (if held then m.effect .giveSlotBack else m) := by
        split
        · exact .effect m trivial
        · exact .refl m
      have pruned := given.trans (.effect _ (e := .prune) trivial)
      cases a <;> first | exact given.adds | exact pruned.adds
    · cases k <;> exact absurd hp id

end outset

end Machine

namespace Execution

variable {x y : Execution} {w : World} {limit : Nat} {floor : List Frame → Prop} {base : List Pending}

/-- A move is a step of the walker, or it adds no event to the log and changes at most what the walker
waits for. -/
theorem move_sorts (h : x.IsSound) (a : Move) :
    (x.Attends (x.move w a) ∧ ∃ late, (x.move w a).log = late ++ x.log ∧ ∀ e ∈ late, e.IsMute) ∨
      ∃ now s, Treads w now s x (x.move w a) ∧ x.move w a = x.step w now := by
  by_cases hw : ∃ now s, a = .step now ∧ x.active = some s ∧ x.machine.main = some s.task
  · obtain ⟨now, s, rfl, hs, hm⟩ := hw
    have hstep : x.move w (.step now) = x.step w now := if_pos (by simp [allows, isIdle, hs])
    refine .inr ⟨now, s, ?_, hstep⟩
    rw [hstep]
    exact step_treads h hs hm now
  · refine .inl ⟨?_, move_mute h fun now s ha hs hm => hw ⟨now, s, ha, hs, hm⟩⟩
    rcases move_cases (w := w) h a with ha | ⟨now, s, ha, ht⟩
    · exact ha
    · exact absurd ⟨now, s, ha, ht.active, ht.main⟩ hw

/-- The frames of a run are those of the work that its walker does above some work. -/
def IsTiered (limit : Nat) (floor : List Frame → Prop) (base : List Pending) (x : Execution) : Prop :=
  ∃ c p f fs, x.stance = some (c, p) ∧ x.machine.Stacks limit floor base f fs p ∧ c.Rests f fs.length p

namespace IsTiered

theorem congr (h : x.IsTiered limit floor base) (hs : x.stance.Stirs y.stance)
    (hk : y.machine.run.stack = x.machine.run.stack) (hc : y.machine.run.current = x.machine.run.current)
    (hn : y.machine.nextFrame = x.machine.nextFrame) : y.IsTiered limit floor base := by
  obtain ⟨c, p, f, fs, hx, hm, hr⟩ := h
  generalize ha : x.stance = a at hs
  generalize hb : y.stance = b at hs
  cases hs with
  | refl => exact ⟨c, p, f, fs, hb.trans (ha.symm.trans hx), hm.congr hk hc hn, hr⟩
  | wake v s i s' i' q =>
    cases ha.symm.trans hx
    exact ⟨.wake v s' i', p, f, fs, hb, hm.congr hk hc hn, hr⟩

theorem attends (h : x.IsTiered limit floor base) (ha : x.Attends y) : y.IsTiered limit floor base :=
  h.congr ha.stance (congrArg Run.stack ha.run) (congrArg Run.current ha.run)
    (congrArg Machine.nextFrame ha.watchers :)

theorem isAbove (h : x.IsTiered limit floor base) : x.IsAbove base := by
  obtain ⟨c, p, f, fs, hx, hm, -⟩ := h
  obtain ⟨ks, rfl⟩ := hm.tiers.suffix
  exact ⟨c, ks, hx⟩

end IsTiered

/-- The frames after a step of the walker are those of the work that is left. -/
theorem Treads.tiered {now : Moment} {s : Strand} (ht : Treads w now s x y)
    (hr : Turn.Rests limit floor base (x.machine.step (w.surroundings now) s.task s.control s.pending).1
      (x.machine.step (w.surroundings now) s.task s.control s.pending).2) : y.IsTiered limit floor base := by
  have hstance := ht.stance
  have hrun := ht.run
  have hnext : y.machine.nextFrame =
      (x.machine.step (w.surroundings now) s.task s.control s.pending).1.nextFrame :=
    (congrArg Machine.nextFrame ht.core :)
  generalize x.machine.step (w.surroundings now) s.task s.control s.pending = r at hr hstance hrun hnext
  obtain ⟨n, turn⟩ := r
  have settled {f : Frame} {fs : List Frame} {p : List Pending} (h : n.Stacks limit floor base f fs p) :
      y.machine.Stacks limit floor base f fs p :=
    h.congr (congrArg Run.stack hrun) (congrArg Run.current hrun) hnext
  cases turn with
  | go c p =>
    obtain ⟨f, fs, hm, hc⟩ := hr
    exact ⟨c, p, f, fs, hstance, settled hm, hc⟩
  | wait v on limit p | pass p =>
    obtain ⟨f, fs, hm, hc⟩ := hr
    exact ⟨_, p, f, fs, hstance, settled hm, hc⟩
  | stop a => exact absurd hr id

/-- Events that a step of a task adds to the log tell their depth, if those that it has as effects do. -/
theorem step_placed (h : x.IsSound) {s : Strand} (hs : x.active = some s) {now : Moment}
    (ha : Machine.Adds Effect.IsPlaced x.machine
      (x.machine.step (w.surroundings now) s.task s.control s.pending).1) :
    ∃ late, (x.step w now).log = late ++ x.log ∧ ∀ e ∈ late, e.IsPlaced := by
  obtain ⟨d, hd, hp⟩ := ha
  obtain ⟨late, hl, hm⟩ := step_log (w := w) hs now
  rw [hd, h.1, List.append_nil] at hl
  exact ⟨late ++ d, hl, fun e he => (List.mem_append.mp he).elim (fun he => (hm e he).isPlaced) (hp e)⟩

theorem obey_placed (h : x.IsSound) {c : Command}
    (ha : Machine.Adds Effect.IsPlaced x.machine (x.machine.obey c).1) :
    ∃ late, (x.obey c).log = late ++ x.log ∧ ∀ e ∈ late, e.IsPlaced := by
  obtain ⟨d, hd, hp⟩ := ha
  unfold obey
  split
  · refine ⟨d, ?_, hp⟩
    show (x.machine.obey c).1.effects ++ x.log = _
    rw [hd, h.1, List.append_nil]
  · exact ⟨[], rfl, by simp⟩

/-- What an input does to a walker above some work, unless the walker hands an answer to that work. -/
theorem take_tiered (h : x.IsSound) (hc : x.machine.run.IsCoherent)
    (hx : x.IsTiered w.settings.maxCallDepth floor base) (hbase : base ≠ [])
    (hfloor : ∀ f fs node, IsFloor base → floor (f :: fs) → floor ({ f with current := some node } :: fs))
    (i : Input) :
    ((x.take w i).IsTiered w.settings.maxCallDepth floor base ∧
      ∃ late, (x.take w i).log = late ++ x.log ∧ ∀ e ∈ late, e.IsPlaced) ∨
      x.Hands base ∧ ∃ now s, Treads w now s x (x.take w i) ∧ x.take w i = x.step w now := by
  cases i with
  | move a =>
    rcases move_sorts (w := w) h a with ⟨ha, late, hl, hm⟩ | ⟨now, s, ht, hstep⟩
    · exact .inl ⟨hx.attends ha, late, hl, fun e he => (hm e he).isPlaced⟩
    · by_cases hb : x.Hands base
      · exact .inr ⟨hb, now, s, ht, hstep⟩
      · obtain ⟨c, p, f, fs, hp, hm, hr⟩ := hx
        obtain ⟨roles, hf, hsuits, hs⟩ := ht.stands h
        cases hp.symm.trans (stance_of_walker ht.active ht.main)
        have hk := hs.climbs hf w now s.task hsuits hm hr hbase (fun a ha he => hb ⟨a, by rw [hp, ha, he]⟩)
          (hfloor f fs)
        refine .inl ⟨ht.tiered hk.turn, ?_⟩
        show ∃ late, (x.move w a).log = _ ∧ _
        rw [hstep]
        exact step_placed h ht.active hk.adds
  | command c =>
    obtain ⟨d, p, f, fs, hp, hm, -⟩ := id hx
    have hk : x.machine.run.stack ≠ [] := by
      intro hk
      have := hm.length
      rw [hk] at this
      cases this
    have hs : x.machine.run.status ≠ .pending := by
      intro hs
      rcases hc.stack.mp hk with h | h <;> rw [hs] at h <;> cases h
    obtain hl | ⟨hl, -⟩ := x.machine.obey_level c
    · refine .inl ⟨?_, obey_placed h hl.adds⟩
      show (x.obey c).IsTiered _ _ _
      rcases obey_cases h c with hst | ⟨hmain, -⟩
      · refine hx.congr hst ?_ ?_ ?_ <;> unfold obey <;> split
        · exact hl.stack
        · rfl
        · exact hl.current
        · rfl
        · exact hl.nextFrame
        · rfl
      · rw [stance, hmain] at hp
        cases hp
    · exact absurd hl hs

/-! The frames of a whole run. -/

/-- The end of the execution of a run is the end of the run. -/
theorem Treads.ends (h : x.IsSound) {now : Moment} {s : Strand} (ht : Treads w now s x y) {b : List Pending}
    (hh : x.Hands (.execution :: b)) : y.machine.run.status.isTerminal = true ∧
      Machine.Adds Effect.IsPlaced x.machine
        (x.machine.step (w.surroundings now) s.task s.control s.pending).1 := by
  obtain ⟨a, ha⟩ := hh
  obtain ⟨roles, -, -, hs⟩ := ht.stands h
  have hstance := ha.symm.trans (stance_of_walker ht.active ht.main)
  rw [ht.run]
  obtain ⟨t, c, p⟩ := s
  cases hstance
  have hlive : x.machine.run.status = .running ∨
      x.machine.run.status.isTerminal = false ∧ x.machine.token.cancelled = true := by
    cases hs with
    | walk h => exact .inl h
    | back _ _ hm => exact absurd hm id
    | unwind h => exact .inr ⟨by rw [h.1]; rfl, h.2⟩
    | ended _ hp => cases b <;> exact absurd hp id
  rcases hs.ends_walk with ⟨o, rfl⟩ | ⟨f, rfl⟩
  · exact ⟨Machine.finalize_terminal _ _ hlive, Machine.finalize_adds _ _ _⟩
  · exact ⟨Machine.finalize_terminal _ _ hlive, Machine.finalize_adds _ _ _⟩

/-- While a run is under way its frames are those of the work above its execution, and the events so far
tell how deep they are. -/
structure IsDisciplined (w : World) (x : Execution) : Prop where
  tiered : x.machine.run.status = .running ∨ x.machine.run.status = .paused →
    ∃ b, Machine.IsBottom b ∧ x.IsTiered w.settings.maxCallDepth IsRoot (.execution :: b)
  placed : ∀ e ∈ x.log, e.IsPlaced

theorem take_disciplined (hpos : 0 < w.settings.maxCallDepth) (h : x.IsSound)
    (hc : x.machine.run.IsCoherent) (hx : x.IsDisciplined w) (i : Input) : (x.take w i).IsDisciplined w := by
  have placed {y : Execution} (hy : ∃ late, y.log = late ++ x.log ∧ ∀ e ∈ late, e.IsPlaced) :
      ∀ e ∈ y.log, e.IsPlaced := by
    obtain ⟨late, hl, hp⟩ := hy
    rw [hl]
    exact fun e he => (List.mem_append.mp he).elim (hp e) (hx.placed e)
  have ended {y : Execution} {P : Prop} (hy : y.machine.run.status.isTerminal = true)
      (hs : y.machine.run.status = .running ∨ y.machine.run.status = .paused) : P := by
    rcases hs with hs | hs <;> rw [hs] at hy <;> cases hy
  by_cases hs : x.machine.run.status = .running ∨ x.machine.run.status = .paused
  · obtain ⟨b, hb, ht⟩ := hx.tiered hs
    have hfloor (f : Frame) (fs : List Frame) (node : String) (hr : IsRoot (f :: fs)) :
        IsRoot ({ f with current := some node } :: fs) := by
      obtain ⟨root, he, hi⟩ := hr
      cases he
      exact ⟨_, rfl, hi⟩
    rcases take_tiered h hc ht (List.cons_ne_nil _ _) (fun f fs node _ => hfloor f fs node) i with
      ⟨hy, hl⟩ | ⟨hh, now, s, htread, hstep⟩
    · exact ⟨fun _ => ⟨b, hb, hy⟩, placed hl⟩
    · obtain ⟨hterm, hadds⟩ := htread.ends h hh
      refine ⟨ended hterm, placed ?_⟩
      rw [hstep]
      exact step_placed h htread.active hadds
  · cases i with
    | move a =>
      show (x.move w a).IsDisciplined w
      rcases move_sorts (w := w) h a with ⟨ha, late, hl, hm⟩ | ⟨now, s, ht, hstep⟩
      · exact ⟨fun hy => absurd (ha.run ▸ hy) hs, placed ⟨late, hl, fun e he => (hm e he).isPlaced⟩⟩
      · obtain ⟨roles, hf, hsuits, hstands⟩ := ht.stands h
        obtain ⟨hadds, hbegun⟩ := hstands.sets hs hf w now s.task hsuits hpos
        refine ⟨fun hy => ?_, ?_⟩
        · rw [ht.run] at hy
          obtain ⟨hb, hr⟩ := hbegun hy
          exact ⟨s.pending, hb, ht.tiered hr⟩
        · rw [hstep]
          exact placed (step_placed h ht.active hadds)
    | command c =>
      show (x.obey c).IsDisciplined w
      have hstack : x.machine.run.stack = [] := Classical.not_not.mp (mt hc.stack.mp hs)
      obtain hl | ⟨-, hterm, hadds⟩ := x.machine.obey_level c
      · refine ⟨fun hy => absurd ?_ hs, placed (obey_placed h hl.adds)⟩
        have hk := (take_coherent (w := w) h hc (.command c)).stack.mpr hy
        refine absurd ?_ hk
        show (x.obey c).machine.run.stack = []
        unfold obey
        split
        · exact hl.stack.trans hstack
        · exact hstack
      · refine ⟨fun hy => ?_, placed (obey_placed h hadds)⟩
        unfold obey at hy
        split at hy
        · exact ended (y := x.put (x.machine.obey c).1 none) hterm hy
        · exact absurd hy hs

theorem after_disciplined (hpos : 0 < w.settings.maxCallDepth) (h : x.IsSound)
    (hc : x.machine.run.IsCoherent) (hx : x.IsDisciplined w) (is : List Input) :
    (after w is x).IsDisciplined w := by
  induction is generalizing x with
  | nil => exact hx
  | cons i is ih => exact ih (take_isSound h i) (take_coherent h hc i) (take_disciplined hpos h hc hx i)

/-- While no task is in the middle of its steps, the walker waits or has not yet begun. -/
theorem IsSound.opens_or_wakes (h : x.IsSound) (hi : x.active = none) {c : Control} {p : List Pending}
    (hs : x.stance = some (c, p)) : c.IsOpening ∨ ∃ v s i, c = .wake v s i := by
  obtain ⟨-, roles, hr⟩ := h
  cases hm : x.machine.main with
  | none =>
    rw [stance, hm] at hs
    cases hs
  | some t =>
    rw [stance_of_idle hm hi, Machine.stance] at hs
    obtain ⟨s, hst, hs⟩ := Option.bind_eq_some_iff.mp hs
    obtain ⟨q, hq⟩ := Machine.exists_pending? hst
    have hpark := hr.parked hm hst hq
    cases s <;> cases hs
    · exact .inl hpark.1
    · exact .inr ⟨_, _, _, rfl⟩
    · exact .inr ⟨_, _, _, rfl⟩

/-- The frames of a run that is under way. -/
structure HasStack (limit : Nat) (x : Execution) : Prop where
  pos : 1 ≤ x.machine.run.stack.length
  bounded : x.machine.run.stack.length ≤ limit
  root : ∀ f ∈ x.machine.run.stack.head?, f.invokedBy = none
  linked : x.machine.run.stack.IsChain fun below f => f.IsInvoked below
  /-- The run is where its innermost frame is. Only in the middle of the steps that call a flow the frame
  has not yet come to a node. -/
  top : ∃ f, x.machine.run.stack.getLast? = some f ∧
    (x.machine.run.current = f.current ∨ f.current = none ∧ x.active ≠ none)

theorem IsTiered.hasStack (h : x.IsSound) {b : List Pending} (hx : x.IsTiered limit IsRoot b) :
    x.HasStack limit := by
  obtain ⟨c, p, f, fs, hp, hm, hr⟩ := hx
  obtain ⟨hlink, hroot⟩ := hm.tiers.linked
  have hstack : x.machine.run.stack = (f :: fs).reverse := by rw [← hm.stack, List.reverse_reverse]
  refine ⟨?_, ?_, ?_, ?_, f, ?_, ?_⟩
  · rw [hm.length]
    exact Nat.succ_pos _
  · rw [hm.length]
    exact hm.bound
  · rw [hstack, List.head?_reverse]
    exact hroot
  · rw [hstack]
    exact List.isChain_reverse.mpr hlink
  · rw [hstack, List.getLast?_reverse]
    rfl
  · refine hm.current.imp_right fun hn => ⟨hn, fun hi => ?_⟩
    rcases h.opens_or_wakes hi hp with ho | ⟨v, s, i, rfl⟩
    · cases c <;> first | exact absurd ho id | exact absurd hr id
    · exact absurd hn hr

/-! The work at one node. -/

section dispatch

variable {now : Moment} {s : Strand} {walk : Walk} {node : Node} {rest : List Pending}

/-- The work after a node takes over with the frames as they are. -/
theorem Treads.leaves_visit (ht : Treads w now s x y) (hh : x.Hands (.visit walk node :: rest)) :
    (∃ c, y.stance = some (c, rest)) ∧ y.machine.run.stack = x.machine.run.stack := by
  obtain ⟨a, ha⟩ := hh
  have hstance := ha.symm.trans (stance_of_walker ht.active ht.main)
  rw [ht.stance, ht.run]
  obtain ⟨t, c, p⟩ := s
  cases hstance
  cases a with
  | outcome o => cases o with
    | failed e at_ => cases at_ <;> exact ⟨⟨_, rfl⟩, rfl⟩
    | _ => exact ⟨⟨_, rfl⟩, rfl⟩
  | _ => exact ⟨⟨_, rfl⟩, rfl⟩

/-- What an input does while a node is carried out. -/
theorem take_visit (h : x.IsSound) (hc : x.machine.run.IsCoherent)
    (hx : x.IsTiered w.settings.maxCallDepth floor (.visit walk node :: rest)) (i : Input) :
    (x.take w i).IsTiered w.settings.maxCallDepth floor (.visit walk node :: rest) ∨
      x.Hands (.visit walk node :: rest) ∧ ¬ (x.take w i).IsAbove (.visit walk node :: rest) ∧
        (x.take w i).machine.run.stack = x.machine.run.stack := by
  rcases take_tiered h hc hx (List.cons_ne_nil _ _) (fun _ _ _ hf => absurd hf id) i with
    ⟨hy, -⟩ | ⟨hh, now, s, ht, -⟩
  · exact .inl hy
  · obtain ⟨⟨c, hc⟩, hk⟩ := ht.leaves_visit hh
    exact .inr ⟨hh, not_isAbove_rest hc, hk⟩

/-- While a node is carried out, the frames are those of its work above those that it found. -/
theorem stays_tiered (h : x.IsSound) (hc : x.machine.run.IsCoherent)
    (hx : x.IsTiered w.settings.maxCallDepth floor (.visit walk node :: rest)) {is : List Input}
    (hs : Stays w (.visit walk node :: rest) is x) :
    (after w is x).IsTiered w.settings.maxCallDepth floor (.visit walk node :: rest) := by
  induction is generalizing x with
  | nil => exact hx
  | cons i is ih =>
    obtain ⟨-, hs⟩ := hs
    rcases take_visit h hc hx i with hy | ⟨-, hn, -⟩
    · exact ih (take_isSound h i) (take_coherent h hc i) hy hs
    · refine absurd ?_ hn
      cases is with
      | nil => exact hs
      | cons j js => exact hs.1

/-- A node that is about to be carried out, unless the run is cancelled, is so above the frames that
there are. -/
theorem dispatch_begins (h : x.IsSound) (hx : x.IsDisciplined w) (hs : x.active = some s)
    (hc : s.control = .dispatch walk node) (hl : x.machine.token.cancelled = false) :
    (x.take w (.move (.step now))).IsTiered w.settings.maxCallDepth (· = x.machine.run.stack.reverse)
      (.visit walk node :: s.pending) := by
  have hm : x.machine.main = some s.task := main_of_walker h hs fun roles r hsuits => by
    rw [hc] at hsuits
    cases r with
    | walker => rfl
    | _ => exact absurd hsuits id
  have hstep : x.take w (.move (.step now)) = x.step w now := if_pos (by simp [allows, isIdle, hs])
  have ht : Treads w now s x (x.take w (.move (.step now))) := by
    rw [hstep]
    exact step_treads h hs hm now
  obtain ⟨roles, -, -, hstands⟩ := ht.stands h
  rw [hc] at hstands
  have hlive : x.machine.run.status = .running ∨ x.machine.run.status = .paused := by
    cases hstands with
    | walk h => exact .inl h
    | refuse h => exact .inr h.1
  obtain ⟨b, -, c, p, f, fs, hp, hk, hr⟩ := hx.tiered hlive
  cases hp.symm.trans (stance_of_walker hs hm)
  rw [hc] at hr
  have hv : x.machine.Stacks (w.surroundings now).settings.maxCallDepth (· = x.machine.run.stack.reverse)
      (.visit walk node :: s.pending) f fs (.visit walk node :: s.pending) :=
    { hk with tiers := .base hk.stack.symm }
  refine ht.tiered ?_
  rw [hc]
  exact (Machine.dispatch_visits hv hr.2.1 hl).turn

end dispatch

/-- What holds of the frames as long as a node is carried out, and once that ends. -/
structure Balanced (w : World) (x z : Execution) (base : List Pending) : Prop where
  kept : x.machine.run.stack <+: z.machine.run.stack
  restored : ∀ i, ¬ (z.take w i).IsAbove base → (∃ a, z.stance = some (.answer a, base)) ∧
    z.machine.run.stack = x.machine.run.stack ∧ (z.take w i).machine.run.stack = x.machine.run.stack

theorem Balanced.of_tiered {z : Execution} {walk : Walk} {node : Node} {rest : List Pending} (h : z.IsSound)
    (hc : z.machine.run.IsCoherent) (hz : z.IsTiered w.settings.maxCallDepth
      (· = x.machine.run.stack.reverse) (.visit walk node :: rest)) :
    Balanced w x z (.visit walk node :: rest) where
  kept := by
    obtain ⟨c, p, f, fs, -, hm, -⟩ := hz
    obtain ⟨es, gs, he, rfl⟩ := hm.tiers.above
    refine ⟨es.reverse, ?_⟩
    rw [← List.reverse_reverse z.machine.run.stack, hm.stack, he, List.reverse_append, List.reverse_reverse]
  restored i hi := by
    rcases take_visit h hc hz i with hy | ⟨hh, -, hk⟩
    · exact absurd hy.isAbove hi
    · obtain ⟨a, ha⟩ := hh
      obtain ⟨c, p, f, fs, hp, hm, -⟩ := hz
      cases ha.symm.trans hp
      have hs : z.machine.run.stack = x.machine.run.stack :=
        List.reverse_injective (hm.stack.trans hm.tiers.of_base)
      exact ⟨⟨a, ha⟩, hs, hk.trans hs⟩

/-- Whatever comes in to a run, its frames while it is running or paused are at least one and no more
than the settings allow, each above another one was invoked by the node that the one below has come to,
and the run is where the innermost is. Every event that tells its depth tells the number of frames less
one. A node that is carried out leaves the frames as it found them, with whatever answer its work
ends. -/
theorem call_stack_disciplined (w : World) (given : Entries Value)
    (hread : Settings.ofFields given = .ok w.settings) (id : String) (flow : Flow) (bindings : Entries Value)
    (breakpoints : Breakpoints) (pauseOnStart : Bool) (created : Instant) (is js : List Input)
    (now : Moment) (s : Strand) (walk : Walk) (node : Node) :
    let x := after w is (ofMachine (.create id flow bindings breakpoints pauseOnStart created))
    let y := x.take w (.move (.step now))
    let base := .visit walk node :: s.pending
    (x.machine.run.status = .running ∨ x.machine.run.status = .paused →
        x.HasStack w.settings.maxCallDepth) ∧
      (∀ e ∈ x.log, e.IsPlaced) ∧
      (x.active = some s → s.control = .dispatch walk node → x.machine.token.cancelled = false →
        y.IsAbove base ∧ (Stays w base js y → Balanced w x (after w js y) base)) := by
  intro x y base
  have hcreated := create_isSound id flow bindings breakpoints pauseOnStart created
  have hcoherent := create_coherent id flow bindings breakpoints pauseOnStart created
  have hx : x.IsSound := after_isSound hcreated is
  have hc : x.machine.run.IsCoherent := after_coherent hcreated hcoherent is
  have hd : x.IsDisciplined w := by
    refine after_disciplined (Settings.maxCallDepth_pos hread) hcreated hcoherent ⟨?_, ?_⟩ is
    · rintro (h | h) <;> cases h
    · simp [ofMachine]
  refine ⟨fun hs => ?_, hd.placed, fun hs hcontrol hl => ?_⟩
  · obtain ⟨b, -, ht⟩ := hd.tiered hs
    exact ht.hasStack hx
  · have hy : y.IsTiered w.settings.maxCallDepth (· = x.machine.run.stack.reverse) base :=
      dispatch_begins hx hd hs hcontrol hl
    refine ⟨hy.isAbove, fun hstays => ?_⟩
    have hys := take_isSound (w := w) hx (.move (.step now))
    have hyc := take_coherent (w := w) hx hc (.move (.step now))
    exact .of_tiered (after_isSound hys js) (after_coherent hys hyc js) (stays_tiered hys hyc hy hstays)

/-- A run of one node that calls a flow, up to that node. -/
def nesting : Execution :=
  after { settings := {} }
    (.command (.start false) :: .move (.begin 0) :: List.replicate 3 (.move (.step quietMoment)))
    (ofMachine (.create "" {
      id := "nesting", subflows := [("binding", binding)]
      nodes := [{ id := "call", kind := "executeFlow", config := [("flowId", .str "binding")] }] }
      [] [] false 0))

/-- A node that calls a flow is carried out until its work ends. -/
theorem call_stack_disciplined_nesting : ∃ s walk node,
    Settings.ofFields [] = .ok {} ∧ nesting.machine.run.status = .running ∧ nesting.HasStack 16 ∧
    nesting.active = some s ∧ s.control = .dispatch walk node ∧ nesting.machine.token.cancelled = false ∧
    let js := List.replicate 11 (Input.move (.step quietMoment))
    let y := nesting.take { settings := {} } (.move (.step quietMoment))
    let base := .visit walk node :: s.pending
    Stays { settings := {} } base js y ∧ y.IsAbove base ∧
      Balanced { settings := {} } nesting (after { settings := {} } js y) base := by
  have hdispatch : ∃ s walk node, nesting.active = some s ∧ s.control = .dispatch walk node ∧
      Stays { settings := {} } (.visit walk node :: s.pending)
        (List.replicate 11 (.move (.step quietMoment)))
        (nesting.take { settings := {} } (.move (.step quietMoment))) :=
    ⟨_, _, _, rfl, rfl, ⟨_, [], rfl⟩, ⟨_, [_, _, _], rfl⟩, ⟨_, [_, _, _], rfl⟩, ⟨_, [_, _, _], rfl⟩,
      ⟨_, [_, _, _, _], rfl⟩, ⟨_, [_, _, _, _, _], rfl⟩, ⟨_, [_, _, _, _], rfl⟩, ⟨_, [_, _, _], rfl⟩,
      ⟨_, [_, _, _], rfl⟩, ⟨_, [_, _], rfl⟩, ⟨_, [_], rfl⟩, ⟨_, [], rfl⟩⟩
  obtain ⟨s, walk, node, hs, hc, hstays⟩ := hdispatch
  have hread : Settings.ofFields [] = .ok {} := rfl
  have hrunning : nesting.machine.run.status = .running := rfl
  have hlive : nesting.machine.token.cancelled = false := rfl
  obtain ⟨hstack, -, hbegins⟩ := call_stack_disciplined { settings := {} } [] hread "" _ _ _ _ _ _
    (List.replicate 11 (.move (.step quietMoment))) quietMoment s walk node
  obtain ⟨hy, hz⟩ := hbegins hs hc hlive
  exact ⟨s, walk, node, hread, hrunning, hstack (.inl hrunning), hs, hc, hlive, hstays, hy, hz hstays⟩

end Execution

end Workflow
