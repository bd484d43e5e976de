import Workflow.Proofs.Run.Happening
import Workflow.Proofs.Run.Roam
import Workflow.Proofs.Run.Upholding
/-!
Where a run is carried out, whatever its surroundings are. The layers of its frames, and of all places in
which its tasks do something or are going to, are of the kind of layers that the run began with or lie in
front of such layers. Handlers that carry out flows are no exception, nor are tasks that outlive the node
they were made for.
-/

namespace Workflow

/-- Where work that waits is carried out, for a flow or for a handler. -/
def Pending.site? : Pending → Option Place
  | .plan c _ _ => some c.place
  | k => k.place?

/-- Where a task does what it does next, for a flow or for a handler. -/
def Control.site? : Control → Option Place
  | .handle c | .act c _ _ => some c.place
  | c => c.place?

/-- The work that a step leaves alone: what waits, but for the first of it where that is handed an
answer. -/
def Control.rest (c : Control) (p : List Pending) : List Pending :=
  match c with
  | .answer _ => p.tail
  | _ => p

/-- Work on top of other work, at sites of some kind. -/
def Heaped (P : List Nat → Prop) (base p : List Pending) : Prop :=
  ∃ ks, p = ks ++ base ∧ ∀ k ∈ ks, Lies P k.site?

namespace Heaped

variable {P Q : List Nat → Prop} {base p : List Pending} {k : Pending}

theorem refl (P : List Nat → Prop) (base : List Pending) : Heaped P base base :=
  ⟨[], rfl, by simp⟩

theorem one (base : List Pending) (hk : Lies P k.site?) : Heaped P base (k :: base) :=
  ⟨[k], rfl, by simpa using hk⟩

theorem trans {q : List Pending} (h : Heaped P base p) (k : Heaped P p q) : Heaped P base q := by
  obtain ⟨ks, rfl, hk⟩ := h
  obtain ⟨ls, rfl, hl⟩ := k
  refine ⟨ls ++ ks, by simp, fun l hm => ?_⟩
  rcases List.mem_append.mp hm with hm | hm
  · exact hl l hm
  · exact hk l hm

theorem mono (h : Heaped P base p) (hPQ : ∀ layers, P layers → Q layers) : Heaped Q base p := by
  obtain ⟨ks, rfl, hk⟩ := h
  exact ⟨ks, rfl, fun k hm q hq => hPQ _ (hk k hm q hq)⟩

theorem all (h : Heaped P base p) (hb : ∀ k ∈ base, Lies P k.site?) : ∀ k ∈ p, Lies P k.site? := by
  obtain ⟨ks, rfl, hk⟩ := h
  exact fun k hm => (List.mem_append.mp hm).elim (hk k) (hb k)

end Heaped

/-- Whether a task goes on on top of some work, at sites of some kind. -/
def Turn.Sits (P : List Nat → Prop) (base : List Pending) : Turn → Prop
  | .go c p => Workflow.Lies P c.site? ∧ Heaped P base p
  | .wait _ _ _ p | .pass p => Heaped P base p
  | .stop _ => base = []

theorem TaskState.Shifts.fresh {s : TaskState} {c : Control} {i : Bool} (h : s.Shifts (.fresh c i)) :
    ∃ j, s = .fresh c j := by
  generalize he : TaskState.fresh c i = s' at h
  induction h generalizing i with
  | refl => exact ⟨i, he.symm⟩
  | @signal s' h ih =>
    cases s' with
    | fresh d j => exact ih he
    | waiting w n => cases w <;> cases he
    | _ => cases he
  | @interrupt s' h ih =>
    cases s' with
    | fresh d j => cases he; exact ih rfl
    | _ => cases he
  | handOn => cases he

namespace Machine

variable {P : Nat → List Nat → Prop} {m n o : Machine} {base p : List Pending}

/-- What a step does to the frames, the layers and the tasks that there are: new frames and new tasks are
at sites of some kind. -/
structure Houses (P : Nat → List Nat → Prop) (m n : Machine) : Prop extends Upholds m n where
  grows : m.layers.size ≤ n.layers.size
  frames : ∀ f ∈ n.run.stack, (∃ g ∈ m.run.stack, g.layers = f.layers) ∨ P n.layers.size f.layers
  made : ∀ {t c i}, m.tasks.size ≤ t → n.state? t = some (.fresh c i) →
    Lies (P n.layers.size) c.site?
  blank : ∀ {t}, m.tasks.size ≤ t → (n.pending? t).getD [] = []

namespace Houses

/-- No task is made. -/
theorem of_upholds (h : Upholds m n) (ht : n.tasks.size = m.tasks.size)
    (hl : m.layers.size ≤ n.layers.size)
    (hf : ∀ f ∈ n.run.stack, (∃ g ∈ m.run.stack, g.layers = f.layers) ∨ P n.layers.size f.layers) :
    Houses P m n where
  toUpholds := h
  grows := hl
  frames := hf
  made hle hs := absurd (lt_of_state? hs) (Nat.not_lt.mpr (ht ▸ hle))
  blank hle := by
    rw [pending?, Array.getElem?_eq_none (ht ▸ hle)]
    rfl

theorem kept (h : n.run.stack = m.run.stack) :
    ∀ f ∈ n.run.stack, (∃ g ∈ m.run.stack, g.layers = f.layers) ∨ P n.layers.size f.layers :=
  fun f hf => .inl ⟨f, h ▸ hf, rfl⟩

/-- What has been changed is neither a task nor a frame nor a layer. -/
theorem same (h : (n.origin, n.main, n.tasks, n.layers.size, n.run.stack) =
    (m.origin, m.main, m.tasks, m.layers.size, m.run.stack)) : Houses P m n := by
  obtain ⟨ho, hm, ht, hl, hf⟩ : _ ∧ _ ∧ _ ∧ _ ∧ _ := by simpa only [Prod.mk.injEq] using h
  exact of_upholds (.same ho hm ht) (congrArg Array.size ht) (Nat.le_of_eq hl.symm) (kept hf)

theorem refl (m : Machine) : Houses P m m :=
  same rfl

theorem putScope (m : Machine) (layers : List Nat) (s : Scope) : Houses P m (m.putScope layers s) :=
  of_upholds (.same rfl rfl rfl) rfl (Nat.le_of_eq (size_putScope m layers s).symm) (kept rfl)

theorem silent {o : Machine} (h : Upholds m n) (ht : n.tasks.size = m.tasks.size) (hs : Silent o n)
    (hl : o.layers = m.layers) (hr : o.run = m.run) : Houses P m n :=
  of_upholds h ht (by rw [hs.mute.layers, hl]) (kept (by rw [hs.mute.run, hr]))

theorem trans (hP : Widens P) (h : Houses P m n) (k : Houses P n o) : Houses P m o where
  toUpholds := h.toUpholds.trans k.toUpholds
  grows := Nat.le_trans h.grows k.grows
  frames f hf := by
    obtain ⟨g, hg, he⟩ | hp := k.frames f hf
    · obtain h' | hp := h.frames g hg
      · exact .inl (he ▸ h')
      · exact .inr (hP.mono k.grows (he ▸ hp))
    · exact .inr hp
  made {t c i} hle hs := by
    by_cases hlt : t < n.tasks.size
    · obtain ⟨s, hn⟩ := exists_state? hlt
      obtain ⟨s', hs', hk⟩ := k.old hn
      rw [hs] at hs'
      cases hs'
      obtain ⟨j, rfl⟩ := hk.fresh
      exact fun q hq => hP.mono k.grows (h.made hle hn q hq)
    · exact k.made (Nat.le_of_not_lt hlt) hs
  blank {t} hle := by
    by_cases hlt : t < n.tasks.size
    · rw [k.pending hlt]
      exact h.blank hle
    · exact k.blank (Nat.le_of_not_lt hlt)

theorem spawn (m : Machine) {c : Control} (hc : Lies (P m.layers.size) c.site?) :
    Houses P m (m.spawn c []).1 where
  toUpholds := .spawn m c
  grows := Nat.le_refl _
  frames := kept rfl
  made {t d i} hle hs := by
    rw [state?_spawn] at hs
    split at hs
    · cases hs
      exact hc
    · exact absurd (lt_of_state? hs) (Nat.not_lt.mpr hle)
  blank hle := (Tends.spawn m c).blank hle |>.1

theorem addLayer (m : Machine) (l : Layer) (layers : List Nat) : Houses P m (m.addLayer l layers).1 :=
  of_upholds (.same rfl rfl rfl) rfl (Nat.le_of_lt (Nat.lt_of_lt_of_eq (Nat.lt_succ_self _)
    (Array.size_push l).symm)) (kept rfl)

theorem tell (m : Machine) (t : TaskId) (ticket : Nat) : Houses P m (m.tell t ticket) := by
  refine silent (.tell m t ticket) ?_ (.tell m t ticket) rfl rfl
  unfold Machine.tell
  split
  · split
    · exact size_signal
    · rfl
  · rfl

theorem endPause (m : Machine) : Houses P m m.endPause :=
  silent (.endPause m) (size_signals _ _) (.endPause m) rfl rfl

theorem cancelToken (m : Machine) (reason : Option String) : Houses P m (m.cancelToken reason) := by
  cases h : m.token.cancelled with
  | true => rw [Machine.cancelToken, if_pos h]; exact refl m
  | false =>
    refine silent (.cancelToken m reason) ?_ (.cancelToken m reason h) rfl rfl
    rw [Machine.cancelToken, if_neg (by simp [h])]
    exact size_signals _ _

theorem interruptTask (m : Machine) (t : TaskId) : Houses P m (m.interruptTask t) :=
  silent (.interruptTask m t) (size_interrupt _ _ _) (.interruptTask m t) rfl rfl

theorem finalize (m : Machine) (stamp : Instant) (o : Outcome) : Houses P m (m.finalize stamp o) := by
  have ended (n : Machine) (h : Upholds m n.endPause) (ht : n.tasks = m.tasks)
      (hl : n.layers = m.layers) (hf : n.run.stack = []) : Houses P m n.endPause := by
    have hs := (Silent.endPause n).mute
    refine of_upholds h ((size_signals _ _).trans (congrArg Array.size ht)) ?_ fun f hf' => ?_
    · rw [hs.layers]
      exact Nat.le_of_eq (congrArg Array.size hl.symm)
    · rw [hs.run] at hf'
      change f ∈ n.run.stack at hf'
      rw [hf] at hf'
      cases hf'
  have h := Upholds.finalize m stamp o
  unfold Machine.finalize at h ⊢
  dsimp only at h ⊢
  split
  · exact refl m
  · rename_i hn
    rw [if_neg hn] at h
    split
    · rename_i hc
      rw [if_pos hc] at h
      exact ended _ h rfl rfl rfl
    · rename_i hc
      rw [if_neg hc] at h
      cases o <;> exact ended _ h rfl rfl rfl

end Houses

/-- A step on top of some work that leaves everything at sites of some kind. -/
structure Lodges (P : Nat → List Nat → Prop) (m : Machine) (base : List Pending) (x : StepResult) :
    Prop where
  houses : Houses P m x.1
  turn : x.2.Sits (P x.1.layers.size) base

namespace Lodges

variable {x : StepResult}

theorem go (h : Houses P m n) {c : Control} (hc : Lies (P n.layers.size) c.site?) :
    Lodges P m base (n, .go c base) :=
  ⟨h, hc, .refl _ _⟩

theorem answer (h : Houses P m n) (a : Answer) : Lodges P m base (n, .answer a base) :=
  go h lies_none

theorem wait (h : Houses P m n) (w : Wait) (on : List TaskId) (limit : Option Seconds) :
    Lodges P m base (n, .wait w on limit base) :=
  ⟨h, .refl _ _⟩

theorem after (hP : Widens P) (h : Houses P m n) (k : Lodges P n base x) : Lodges P m base x :=
  ⟨h.trans hP k.houses, k.turn⟩

/-- A step on top of work that is itself on top of other work. -/
theorem above (hP : Widens P) (h : Lodges P m p x) (hp : Heaped (P m.layers.size) base p) :
    Lodges P m base x := by
  have hp : Heaped (P x.1.layers.size) base p := hp.mono fun _ => hP.mono h.houses.grows
  refine ⟨h.houses, ?_⟩
  have ht := h.turn
  cases hx : x.2 with
  | go c q =>
    rw [hx] at ht
    exact ⟨ht.1, hp.trans ht.2⟩
  | wait w on limit q =>
    rw [hx] at ht
    exact Heaped.trans hp ht
  | pass q =>
    rw [hx] at ht
    exact Heaped.trans hp ht
  | stop a =>
    rw [hx] at ht
    obtain ⟨ks, he, -⟩ := hp
    exact (List.append_eq_nil_iff.mp (he.symm.trans ht)).2

theorem under (hP : Widens P) {k : Pending} (h : Lodges P m (k :: base) x)
    (hk : Lies (P m.layers.size) k.site?) : Lodges P m base x :=
  h.above hP (.one base hk)

end Lodges

section functions

variable (hP : Widens P) (m : Machine) (env : Surroundings) (self : TaskId) (p : List Pending)

theorem call_lodges (flow : Flow) {layers : List Nat} (node : Node) (shared : Bool)
    (h : P m.layers.size layers) : Lodges P m p (m.call env flow layers node shared p) := by
  unfold call
  split
  · exact .answer (.refl m) _
  · refine ⟨.of_upholds (.same rfl rfl rfl) rfl (Nat.le_refl _) fun f hf => ?_, lies_some h,
      .one p lies_none⟩
    rcases List.mem_append.mp hf with hf | hf
    · exact .inl ⟨f, hf, rfl⟩
    · rw [List.mem_singleton.mp hf]
      exact .inr h

theorem rest_lodges (seconds : Seconds) : Lodges P m p (m.rest seconds p) := by
  unfold rest
  split
  · exact .answer (.refl m) _
  · exact .wait (.spawn m lies_none) _ _ _

theorem sleep_lodges (seconds : Seconds) : Lodges P m p (m.sleep seconds p) := by
  unfold sleep
  split
  · exact .wait (.refl m) _ _ _
  · exact ⟨.refl m, .refl _ _⟩

theorem watch_lodges : Lodges P m p (m.watch self p) := by
  unfold watch
  split
  · exact .answer (.refl m) _
  · exact .wait (.same (by rfl)) _ _ _

theorem takeSlot_lodges : Lodges P m p (m.takeSlot env self p) := by
  unfold takeSlot
  split
  · exact .wait (.same (by rfl)) _ _ _
  · exact .answer (.same (by rfl)) _

theorem execute_lodges (h : P m.layers.size rootLayers) : Lodges P m p (m.execute env p) := by
  unfold execute
  split
  · exact .answer (.refl m) _
  · split
    · exact .answer (.finalize m _ _) _
    · refine ⟨.of_upholds (.same rfl rfl rfl) rfl (Nat.le_refl _) fun f hf => ?_, lies_some h,
        .one p lies_none⟩
      rcases List.mem_append.mp hf with hf | hf
      · exact .inl ⟨f, hf, rfl⟩
      · rw [List.mem_singleton.mp hf]
        exact .inr h

theorem enter_lodges {place : Place} (frame : Nat) (h : P m.layers.size place.layers) :
    Lodges P m p (m.enter place frame p) := by
  unfold enter
  dsimp only
  split
  · exact .answer (.refl m) _
  · split
    · exact .go (.refl m) (lies_some h)
    · exact .answer (.refl m) _

theorem merge_houses (layers : List Nat) (node : String) (values : Entries Value) :
    Houses P m (m.merge layers node values) :=
  .of_upholds (.same rfl rfl rfl) rfl (Nat.le_of_eq (size_putScope _ _ _).symm) (Houses.kept rfl)

theorem writeReturns_houses (place : Place) (node : Node) (child : List Nat) (returns : Value) :
    Houses P m (m.writeReturns place node child returns) := by
  unfold writeReturns
  dsimp only
  split
  · exact .refl m
  · exact merge_houses m _ _ _

theorem startWhile_lodges {place : Place} (node : Node) (h : P m.layers.size place.layers) :
    Lodges P m p (m.startWhile env place node p) := by
  unfold startWhile
  dsimp only
  split
  · exact .answer (.refl m) _
  · split
    · exact .answer (.refl m) _
    · split
      · exact .answer (.refl m) _
      · exact .go (.refl m) (lies_some h)

theorem supply_lodges {c : Collection} (h : P m.layers.size c.loop.place.layers) :
    Lodges P m p (m.supply c p) := by
  unfold supply
  split
  · exact .go (.refl m) (lies_some h)
  · dsimp only
    split
    · exact .answer (.refl m) _
    · exact .answer (merge_houses m _ _ _) _

theorem startElements_lodges {a : Attempt} (h : P m.layers.size a.place.layers) :
    Lodges P m p (m.startElements env a p) := by
  unfold startElements
  split
  · exact .answer (.refl m) _
  · split
    · exact .answer (.refl m) _
    · dsimp only
      split
      · exact .answer (.refl m) _
      · split
        · exact .answer (.refl m) _
        · split
          · exact .answer (.same (by rfl)) _
          · exact .go (.same (by rfl)) (lies_some h)

theorem afterVisit_lodges {walk : Walk} (node : Node) (o : Outcome)
    (h : P m.layers.size walk.place.layers) : Lodges P m p (m, afterVisit walk node o p) := by
  unfold afterVisit
  split
  · exact .go (.refl m) (lies_some h)
  · exact .answer (.refl m) _
  · exact .answer (.refl m) _

theorem primitive_lodges (a : Attempt) (r : HandlerResult) :
    Lodges P m p (m.resume env (.primitive a) (.handled r) p) := by
  cases r with
  | failure e => exact .answer (.refl m) _
  | success values =>
    refine .answer ?_ _
    split
    · exact .refl m
    · exact merge_houses m _ _ _

theorem slot_lodges (held : Bool) (a : Answer) : Lodges P m p (m.resume env (.slot held) a p) := by
  unfold resume
  dsimp only
  split <;> exact .answer (by split <;> exact .same (by rfl)) _

theorem frame_houses (key : Nat) (node : String) : Houses P m (m.leaveFrame key node) := by
  refine .of_upholds (.same rfl rfl rfl) rfl (Nat.le_refl _) fun f hf => .inl ⟨f, ?_, rfl⟩
  unfold leaveFrame at hf
  dsimp only at hf
  split at hf
  · split at hf
    · exact List.mem_of_mem_dropLast hf
    · exact hf
  · cases hf

include hP

theorem wakeFromSettlement_lodges (a : Attempt) (handler watcher : TaskId) (interrupted : Bool) :
    Lodges P m p (m.wakeFromSettlement env a handler watcher interrupted p) := by
  have h : Houses P m (if m.hasEnded watcher = true then m else m.interruptTask watcher) := by
    split
    · exact .refl m
    · exact .interruptTask m _
  unfold wakeFromSettlement
  dsimp only
  generalize (if m.hasEnded watcher = true then m else m.interruptTask watcher) = n at h ⊢
  split
  · exact .answer h _
  · split
    · exact .answer h _
    · split
      · exact .wait h _ _ _
      · exact .wait (h.trans hP (.interruptTask n _)) _ _ _

theorem wakeFromStart_lodges (taker watcher : TaskId) (signalled interrupted : Bool) :
    Lodges P m p (m.wake env self (.start taker watcher) signalled interrupted p) := by
  have dropped (n : Machine) (t : TaskId) (h : Houses P m n) : Houses P m (n.interruptTask t) :=
    h.trans hP (.interruptTask n t)
  unfold wake
  dsimp only
  split
  · refine .answer (dropped _ _ ?_) _
    split
    · exact .same (by rfl)
    · exact .interruptTask m _
  · split
    · exact ⟨.interruptTask m _, lies_none, .one p lies_none⟩
    · exact ⟨dropped _ _ (.interruptTask m _), lies_none, .one p lies_none⟩

theorem wake_lodges (w : Wait) (signalled interrupted : Bool) :
    Lodges P m p (m.wake env self w signalled interrupted p) := by
  have timed : Houses P m (m.dropTimer self) := .same (by rfl)
  cases w with
  | start taker watcher => exact wakeFromStart_lodges hP m env self p _ _ _ _
  | grant =>
    show Lodges P m p (if interrupted = true then _ else _)
    split
    · exact .answer (by split <;> exact .same (by rfl)) _
    · exact .answer (.same (by rfl)) _
  | cancellation => exact .answer (.same (by rfl)) _
  | resumption => exact .answer (.refl m) _
  | settlement a handler watcher => exact (wakeFromSettlement_lodges hP _ env p _ _ _ _).after hP timed
  | grace handler =>
    show Lodges P m p (if interrupted = true then _ else _)
    split
    · exact .answer timed _
    · split
      · exact .answer timed _
      · exact .wait (timed.trans hP (.interruptTask _ _)) _ _ _
  | removal handler o passedOn => exact .answer (.refl m) _
  | nap watcher =>
    show Lodges P m p (if (m.dropTimer self).hasEnded watcher = true then _ else _)
    split
    · exact .answer timed _
    · exact .wait (timed.trans hP (.interruptTask _ _)) _ _ _
  | rousing watcher before =>
    show Lodges P m p (if (interrupted || before) = true then _ else _)
    split
    · exact .answer (.refl m) _
    · split <;> exact .answer (.refl m) _
  | sleep => exact .answer timed _

theorem execution_lodges (a : Answer) : Lodges P m p (m.resume env .execution a p) := by
  cases a with
  | outcome o => exact .answer (.finalize m _ _) _
  | thrown f => exact .answer (.finalize m _ _) _
  | interrupted => exact .answer ((Houses.cancelToken m _).trans hP (.finalize _ _ _)) _
  | _ => exact .answer (.refl m) _

theorem enqueue_lodges : Lodges P m p (m.enqueue p) := by
  unfold enqueue
  split
  · exact ⟨.refl m, lies_none, .one p lies_none⟩
  · exact .wait ((Houses.spawn m lies_none).trans hP (.spawn _ lies_none)) _ _ _

/-- A flow is carried out with a new layer in front, in which something may have been written. -/
theorem body_lodges {layers : List Nat} (h : P m.layers.size layers) (hn : Houses P m n)
    (hl : n.layers.size = m.layers.size + 1) (flow : Flow) (node : Node) (shared : Bool)
    {q : List Pending} (hq : Heaped (P (m.layers.size + 1)) p q) :
    Lodges P m p (n.call env flow (m.layers.size :: layers) node shared q) :=
  .after hP hn ((call_lodges n env q flow node shared (hl ▸ hP.push h)).above hP (hl ▸ hq))

/-- A node carries a body out and waits for its end. -/
theorem loop_lodges {place : Place} (h : P m.layers.size place.layers) (l : Layer) (flow : Flow)
    (node : Node) (shared : Bool) {k : Pending} (hk : k.site? = some place) :
    Lodges P m p ((m.addLayer l place.layers).1.call env flow (m.addLayer l place.layers).2 node shared
      (k :: p)) := by
  refine body_lodges hP m env p h (.addLayer m l _) (Array.size_push l) flow node shared (.one p ?_)
  rw [hk]
  exact lies_some (hP.mono (Nat.le_succ _) h)

theorem iterate_lodges {loop : Loop} (bound iterations : Nat)
    (h : P m.layers.size loop.place.layers) :
    Lodges P m p (m.iterate env loop bound iterations p) := by
  unfold iterate
  dsimp only
  split
  · exact .answer (.refl m) _
  · split
    · exact .answer (.refl m) _
    · split
      · exact .answer (.refl m) _
      · exact loop_lodges hP m env p h _ _ _ _ rfl

theorem nextItem_lodges {loop : Loop} (itemName : String) (indexName : Option String) (index : Nat)
    (items : List Value) (h : P m.layers.size loop.place.layers) :
    Lodges P m p (m.nextItem env loop itemName indexName index items p) := by
  unfold nextItem
  split
  · exact .answer (.refl m) _
  · split
    · exact .answer (.refl m) _
    · exact loop_lodges hP m env p h _ _ _ _ rfl

theorem startForeach_lodges {place : Place} (node : Node) (h : P m.layers.size place.layers) :
    Lodges P m p (m.startForeach env place node p) := by
  unfold startForeach
  dsimp only
  split
  · exact .answer (.refl m) _
  · split
    · exact .answer (.refl m) _
    · exact nextItem_lodges hP m env p _ _ _ _ h

theorem element_lodges {c : Collection} (acts : List Act) (item : Except HandlerFault Value)
    (h : P m.layers.size c.loop.place.layers) : Lodges P m p (m.element env self c acts item p) := by
  unfold element
  split
  · exact .under hP (sleep_lodges m _ _) (lies_some h)
  · have hs := Houses.cancelToken (P := P) m
    exact .go (hs _) (lies_some (hP.mono (hs _).grows h))
  · exact .under hP (watch_lodges m _ _) (lies_some h)
  · split
    · exact .answer (.refl m) _
    · split
      · exact .answer (.refl m) _
      · exact loop_lodges hP m env p h _ _ _ _ (k := .elements _) rfl

theorem invoke_lodges {place : Place} (node : Node) (target : Flow) (args : Entries Value)
    (inline : Bool) (returns : Value) {wrap : List Nat → List Pending → List Pending}
    (hw : ∀ child, Heaped (P (m.layers.size + 1)) p (wrap child p)) (h : P m.layers.size place.layers) :
    Lodges P m p (m.invoke env place node target args inline returns p wrap) := by
  have invoked (child : List Nat) (returns : Option Value) :
      Heaped (P (m.layers.size + 1)) p (.invocation place node child returns :: wrap child p) :=
    (hw child).trans (.one _ (lies_some (hP.mono (Nat.le_succ _) h)))
  unfold invoke
  dsimp only
  split
  · refine body_lodges hP m env p h ((Houses.addLayer m _ place.layers).trans hP
      (.putScope _ _ _)) ?_ _ _ _ (invoked _ _)
    rw [size_putScope]
    exact Array.size_push _
  · exact body_lodges hP m env p h (.addLayer m _ place.layers) (Array.size_push _) _ _ _ (invoked _ _)

theorem startExecuteFlow_lodges {place : Place} (node : Node) (h : P m.layers.size place.layers) :
    Lodges P m p (m.startExecuteFlow env place node p) := by
  unfold startExecuteFlow
  split
  · exact .answer (.refl m) _
  · split
    · exact .answer (.refl m) _
    · split
      · exact invoke_lodges hP m env p _ _ _ _ _ (fun _ => .refl _ p) h
      · exact .answer (.refl m) _

theorem startPrimitive_lodges {a : Attempt} (h : P m.layers.size a.place.layers) :
    Lodges P m p (m.startPrimitive env a p) := by
  unfold startPrimitive
  dsimp only
  split
  · exact .answer (.refl m) _
  · split
    · exact .answer (.refl m) _
    · split
      · exact .answer (.refl m) _
      · exact .under hP (k := .primitive a) (.wait ((Houses.spawn m (lies_some h)).trans hP
          (.spawn _ lies_none)) _ _ _) (lies_some h)

/-- An attempt goes on on top of the work that waits for its outcome. -/
theorem attempt_awaited {a : Attempt} (h : P m.layers.size a.place.layers) :
    Lodges P m (.attempt a env.now :: p) (m.attempt env a p) := by
  unfold attempt
  dsimp only
  have started {x} (hx : Lodges P (m.emit "node.started" (startedPayload a.node a.number a.place.depth))
      (.attempt a env.now :: p) x) : Lodges P m (.attempt a env.now :: p) x :=
    .after hP (.same (by rfl)) hx
  split
  · exact started (.answer (.refl _) _)
  · exact started (startForeach_lodges hP _ env _ _ h)
  · exact started (startElements_lodges _ env _ h)
  · exact started (startWhile_lodges _ env _ _ h)
  · exact started (startExecuteFlow_lodges hP _ env _ _ h)
  · exact started (startPrimitive_lodges hP _ env _ h)

theorem attempt_lodges {a : Attempt} (h : P m.layers.size a.place.layers) :
    Lodges P m p (m.attempt env a p) :=
  .under hP (attempt_awaited hP m env p h) (lies_some h)

theorem next_lodges {walk : Walk} (node : Option Node) (h : P m.layers.size walk.place.layers) :
    Lodges P m p (m.next env self walk node p) := by
  have taken (node : Node) : Houses P m ((m.arrive walk.frame node.id).takePause node).1 := by
    have came : Houses P m (m.arrive walk.frame node.id) := by
      refine .of_upholds (.same rfl rfl rfl) rfl (Nat.le_refl _) fun f hf => ?_
      obtain ⟨g, hg, rfl⟩ := List.mem_map.mp hf
      exact .inl ⟨g, hg, by split <;> rfl⟩
    refine came.trans hP ?_
    unfold takePause
    repeat' split
    all_goals exact .same (by rfl)
  unfold next
  split
  · exact .answer (.refl m) _
  · split
    · exact .answer (.refl m) _
    · split
      · exact .answer (.refl m) _
      · rename_i node _ _
        have hn := taken node
        dsimp only
        split
        · exact .go hn (lies_some (hP.mono hn.grows h))
        · exact .after hP hn (.under hP (k := .checkpoint _ _) (.wait (.same (by rfl)) _ _ _)
            (lies_some (hP.mono hn.grows h)))

theorem dispatch_lodges {walk : Walk} (node : Node) (h : P m.layers.size walk.place.layers) :
    Lodges P m p (m.dispatch env walk node p) := by
  unfold dispatch
  dsimp only
  split
  · exact .answer (.refl m) _
  · split
    · exact .under hP (k := .visit walk node) (.answer (.same (by rfl)) _) (lies_some h)
    · split
      · exact .under hP (k := .visit walk node) (.go (.refl m) (lies_some h)) (lies_some h)
      · split
        · exact .under hP (k := .visit walk node) (.answer (.same (by rfl)) _) (lies_some h)
        · exact .under hP (k := .visit walk node) (.answer (.same (by rfl)) _) (lies_some h)
        · exact .under hP (k := .visit walk node) (.answer (.refl m) _) (lies_some h)

theorem afterFailure_lodges {a : Attempt} (since : Seconds) (e : ErrorInfo)
    (h : P m.layers.size a.place.layers) : Lodges P m p (m.afterFailure env a since e p) := by
  unfold afterFailure
  dsimp only
  split
  · split
    · exact .after hP (.same (by rfl)) (.under hP (k := .backoff a) (rest_lodges _ _ _) (lies_some h))
    · exact .answer (.same (by rfl)) _
  · exact .answer (.same (by rfl)) _
  · exact .answer (.same (by rfl)) _
  · exact .answer (.same (by rfl)) _

theorem afterAttempt_lodges {a : Attempt} (since : Seconds) (o : Outcome)
    (h : P m.layers.size a.place.layers) : Lodges P m p (m.afterAttempt env a since o p) := by
  unfold afterAttempt
  split
  · exact .answer (.same (by rfl)) _
  · exact .answer (.same (by rfl)) _
  · exact afterFailure_lodges hP m env p since _ h

theorem handle_lodges {c : Call} (h : P m.layers.size c.place.layers) :
    Lodges P m p (m.handle env c p) := by
  unfold handle
  split
  · exact .answer (.refl m) _
  · split
    · split
      · exact .answer (.refl m) _
      · exact .answer (.refl m) _
      · exact .under hP (rest_lodges m _ _) lies_none
    · exact .go (.same (by rfl)) (lies_some h)

theorem act_lodges {c : Call} (acts : List Act) (finish : Finish) (h : P m.layers.size c.place.layers) :
    Lodges P m p (m.act env self c acts finish p) := by
  unfold act
  split
  · exact .under hP (sleep_lodges m _ _) (lies_some h)
  · exact .under hP (watch_lodges m _ _) (lies_some h)
  · have hs := Houses.cancelToken (P := P) m
    exact .go (hs _) (lies_some (hP.mono (hs _).grows h))
  · split
    · exact .answer (.refl m) _
    · exact .answer (.refl m) _
    · exact .answer (.refl m) _
    · unfold subexecute
      split
      · exact .answer (.refl m) _
      · exact invoke_lodges hP m env p _ _ _ _ _
          (fun _ => .trans (.one p (k := .saving _) lies_none) (.one _ lies_none)) h

/-- What is done about an answer is done where the work is carried out that waited for it. -/
theorem resume_lodges {k : Pending} (hk : Lies (P m.layers.size) k.site?) (a : Answer) :
    Lodges P m p (m.resume env k a p) := by
  have passed : Lodges P m p (m, .answer a p) := .answer (.refl m) a
  cases k with
  | slot held => exact slot_lodges m env p held a
  | execution => exact execution_lodges hP m env p a
  | checkpoint walk node =>
    cases a with
    | done => exact .go (.refl m) hk
    | _ => exact passed
  | visit walk node =>
    cases a with
    | outcome o => exact afterVisit_lodges m p node o (hk _ rfl)
    | _ => exact passed
  | attempt b since =>
    cases a with
    | outcome o => exact afterAttempt_lodges hP m env p since o (hk _ rfl)
    | _ => exact passed
  | backoff b =>
    cases a with
    | rested cutShort =>
      unfold resume
      dsimp only
      split
      · exact .answer (.refl m) _
      · exact .go (.refl m) (lies_some (hk _ rfl))
    | _ => exact passed
  | primitive b =>
    cases a with
    | handled r => exact primitive_lodges m env p b r
    | _ => exact passed
  | frame key flow node => cases a <;> exact .answer (frame_houses m key node) _
  | foreach loop itemName indexName index rest =>
    cases a with
    | outcome o =>
      cases o with
      | completed l => exact nextItem_lodges hP m env p _ _ _ _ (hk _ rfl)
      | _ => exact passed
    | _ => exact passed
  | «while» loop bound iterations =>
    cases a with
    | outcome o =>
      cases o with
      | completed l => exact .go (.refl m) hk
      | _ => exact passed
    | _ => exact passed
  | element c acts item =>
    cases a with
    | rested cutShort => exact .go (.refl m) hk
    | _ => exact passed
  | elements c =>
    cases a with
    | outcome o =>
      cases o with
      | completed l => exact .go (.refl m) hk
      | _ => exact passed
    | thrown f => exact .answer (.refl m) _
    | _ => exact passed
  | invocation place node child returns =>
    cases returns with
    | none => cases a <;> exact passed
    | some returns =>
      cases a with
      | outcome o =>
        cases o with
        | completed l => exact .answer (writeReturns_houses m place node child returns) _
        | _ => exact passed
      | _ => exact passed
  | subexecution child => cases a <;> exact .answer (.refl m) _
  | plan c acts finish =>
    cases a with
    | rested cutShort => exact .go (.refl m) hk
    | _ => exact passed
  | saving saveAs => cases a <;> exact .answer (.refl m) _
  | rest => cases a <;> exact .answer (.refl m) _

/-- Every step leaves all at sites of the kind that it found it at, and goes on on top of the work that it
leaves alone. -/
theorem step_lodges {c : Control} (hc : Lies (P m.layers.size) c.site?)
    (hp : ∀ a k q, c = .answer a → p = k :: q → Lies (P m.layers.size) k.site?)
    (hroot : c = .execute → P m.layers.size rootLayers) :
    Lodges P m (c.rest p) (m.step env self c p) := by
  cases c with
  | enqueue => exact enqueue_lodges hP m p
  | takeSlot => exact takeSlot_lodges m env self p
  | watch => exact watch_lodges m self p
  | execute => exact execute_lodges m env p (hroot rfl)
  | enter place frame => exact enter_lodges m p frame (hc _ rfl)
  | next walk node => exact next_lodges hP m env self p node (hc _ rfl)
  | dispatch walk node => exact dispatch_lodges hP m env p node (hc _ rfl)
  | «try» a => exact attempt_lodges hP m env p (hc _ rfl)
  | iterate loop bound iterations => exact iterate_lodges hP m env p bound iterations (hc _ rfl)
  | supply d => exact supply_lodges m p (hc _ rfl)
  | element d acts item => exact element_lodges hP m env self p acts item (hc _ rfl)
  | handle d => exact handle_lodges hP m env p (hc _ rfl)
  | act d acts finish => exact act_lodges hP m env self p acts finish (hc _ rfl)
  | wake w s i => exact wake_lodges hP m env self p w s i
  | answer a =>
    cases p with
    | nil => exact ⟨.refl m, rfl⟩
    | cons k p => exact resume_lodges hP m env p (hp a k p rfl rfl) a

end functions

/-! Whole runs. -/

/-- A run all of whose frames and work are at sites of some kind. -/
structure IsHoused (P : Nat → List Nat → Prop) (m : Machine) : Prop where
  root : P m.layers.size rootLayers
  frames : ∀ f ∈ m.run.stack, P m.layers.size f.layers
  begins : ∀ {t c i}, m.state? t = some (.fresh c i) → Lies (P m.layers.size) c.site?
  waits : ∀ {t p}, m.pending? t = some p → ∀ k ∈ p, Lies (P m.layers.size) k.site?

namespace IsHoused

theorem create (hroot : P 1 rootLayers) (id : String) (flow : Flow) (bindings : Entries Value)
    (breakpoints : Breakpoints) (pauses : Bool) (stamp : Instant) :
    (Machine.create id flow bindings breakpoints pauses stamp).IsHoused P where
  root := hroot
  frames _ hf := nomatch hf
  begins {t c i} h := by
    change (#[] : Array Task)[t]?.map _ = _ at h
    simp at h
  waits {t p} h := by
    change (#[] : Array Task)[t]?.map _ = _ at h
    simp at h

theorem houses (hP : Widens P) (h : m.IsHoused P) (k : Houses P m n) : n.IsHoused P where
  root := hP.mono k.grows h.root
  frames f hf := by
    obtain ⟨g, hg, he⟩ | hp := k.frames f hf
    · exact he ▸ hP.mono k.grows (h.frames g hg)
    · exact hp
  begins {t c i} hs := by
    by_cases hlt : t < m.tasks.size
    · obtain ⟨s, hm⟩ := exists_state? hlt
      obtain ⟨s', hs', hk⟩ := k.old hm
      rw [hs] at hs'
      cases hs'
      obtain ⟨j, rfl⟩ := hk.fresh
      exact fun q hq => hP.mono k.grows (h.begins hm q hq)
    · exact k.made (Nat.le_of_not_lt hlt) hs
  waits {t p} hp := by
    by_cases hlt : t < m.tasks.size
    · rw [k.pending hlt] at hp
      exact fun l hl q hq => hP.mono k.grows (h.waits hp l hl q hq)
    · have hb := k.blank (Nat.le_of_not_lt hlt)
      rw [hp] at hb
      cases hb
      simp

/-- One task gets a state that it does not begin from, with work at such sites. -/
theorem of_others {t : TaskId} {s : TaskState} {q : List Pending} (h : m.IsHoused P)
    (hl : n.layers = m.layers) (hr : n.run = m.run)
    (hs : ∀ u, n.state? u = if t = u then (m.state? u).map fun _ => s else m.state? u)
    (hp : ∀ u, n.pending? u = if t = u then (m.pending? u).map fun _ => q else m.pending? u)
    (hown : ∀ c i, s ≠ .fresh c i) (hq : ∀ k ∈ q, Lies (P m.layers.size) k.site?) : n.IsHoused P where
  root := hl ▸ h.root
  frames f hf := hl ▸ h.frames f (hr ▸ hf)
  begins {u c i} hu := by
    rw [hs] at hu
    split at hu
    · obtain ⟨s', -, he⟩ := Option.map_eq_some_iff.mp hu
      exact absurd he (hown c i)
    · exact hl ▸ h.begins hu
  waits {u p} hu := by
    rw [hp] at hu
    split at hu
    · obtain ⟨p', -, rfl⟩ := Option.map_eq_some_iff.mp hu
      exact hl ▸ hq
    · exact hl ▸ h.waits hu

/-- A task gets a state that it does not begin from. -/
theorem setState {t : TaskId} {s : TaskState} (h : m.IsHoused P) (hs : ∀ c i, s ≠ .fresh c i) :
    (m.setState t s).IsHoused P where
  root := h.root
  frames := h.frames
  begins {u c i} hu := by
    rw [state?_setState] at hu
    split at hu
    · obtain ⟨s', -, he⟩ := Option.map_eq_some_iff.mp hu
      exact absurd he (hs c i)
    · exact h.begins hu
  waits hu := h.waits ((pending?_setState s).symm.trans hu)

end IsHoused

/-- Wherever a task goes on after a step, all stays at such sites. -/
theorem turn_isHoused {t : TaskId} {x : Turn} (h : m.IsHoused P) (hx : x.Sits (P m.layers.size) base)
    (hb : ∀ k ∈ base, Lies (P m.layers.size) k.site?) : (m.turn t x).1.IsHoused P ∧
      ∀ c p, (m.turn t x).2 = some (c, p) → Lies (P m.layers.size) c.site? ∧
        ∀ k ∈ p, Lies (P m.layers.size) k.site? := by
  have hl := turn_layers m t x
  cases x with
  | go c p =>
    refine ⟨h, fun d q he => ?_⟩
    cases he
    exact ⟨hx.1, hx.2.all hb⟩
  | wait w on limit p =>
    have he : m.turn t (.wait w on limit p) = ((m.putPending t p).lull t w on limit, none) := by
      cases limit <;> rfl
    rw [he] at hl ⊢
    refine ⟨h.of_others (t := t) (s := .waiting w m.nextTicket) hl (Mute.lull _ _ _ _ _).run
      (fun u => ?_) (fun u => ?_) ?_ (Heaped.all hx hb), ?_⟩
    · rw [state?_lull, state?_putPending]
      rfl
    · rw [pending?_lull, pending?_putPending]
    · simp
    · simp
  | pass p =>
    have he : m.turn t (.pass p) =
        (((m.putPending t p).setState t (.woken .sleep true false)).effect (.ready t), none) :=
      congrArg (fun n : Machine => (n.effect (.ready t), none)) (modifyTask_eq m t p _)
    rw [he] at hl ⊢
    refine ⟨h.of_others (t := t) (s := .woken .sleep true false) hl rfl (fun u => ?_) (fun u => ?_) ?_
      (Heaped.all hx hb), ?_⟩
    · rw [state?_effect, state?_setState, state?_putPending]
    · rw [pending?_effect, pending?_setState, pending?_putPending]
    · simp
    · simp
  | stop a =>
    have he : m.turn t (.stop a) = (m.finish t a, none) := rfl
    rw [he] at hl ⊢
    refine ⟨h.of_others (t := t) (s := .ended a) (q := []) hl (Mute.finish m t a).run
      (fun _ => state?_finish a) (fun _ => pending?_finish a) ?_ ?_, ?_⟩
    · simp
    · simp
    · simp

/-- What is done from outside leaves all at such sites. -/
theorem obey_isHoused (hP : Widens P) (h : m.IsHoused P) (c : Command) : (m.obey c).1.IsHoused P := by
  have released (n : Machine) (mode : String) (hn : Houses P m n) (hs : n.run.stack = m.run.stack) :
      (n.release mode).IsHoused P := by
    refine (h.houses hP hn).houses hP (.trans hP ?_ (.endPause _))
    exact .same (by rfl)
  cases c with
  | start s =>
    show (m.start s).IsHoused P
    unfold Machine.start
    split
    · exact h
    · have made := h.houses hP (.spawn m (c := if s then .enqueue else .execute) (by split <;> exact lies_none))
      exact ⟨made.root, made.frames, made.begins, made.waits⟩
  | pause =>
    show m.pause.1.IsHoused P
    unfold Machine.pause
    split
    · exact h.houses hP (.same (by rfl))
    · exact h.houses hP (.same (by rfl))
    · exact h
  | resume =>
    show m.resumeRun.1.IsHoused P
    unfold Machine.resumeRun
    split
    · exact released _ _ (.same (by rfl)) rfl
    · exact h
  | stepOver =>
    show m.stepOver.1.IsHoused P
    unfold Machine.stepOver
    split
    · exact released _ _ (.same (by rfl)) rfl
    · exact h
  | cancel reason stamp =>
    have halted (reason : Option String) : Houses P m (m.cancelToken reason).endPause :=
      (Houses.cancelToken m reason).trans hP (.endPause _)
    refine h.houses hP ?_
    show Houses P m (m.cancel reason stamp).1
    unfold Machine.cancel
    split
    · exact .refl m
    · dsimp only
      -- The reason that is given, and then whether the run has ended with that.
      split <;> split
      all_goals
        dsimp only
        first
          | exact (halted _).trans hP (.finalize _ _ _)
          | exact halted _
  | setVar name v frame =>
    obtain he | ⟨layers, s, depth, he⟩ := m.obey_setVar name v frame
    · rw [he]
      exact h
    · rw [he]
      exact h.houses hP ((Houses.putScope _ _ _).trans hP (.same (by rfl)))
  | edit f => exact h.houses hP (.same (by rfl))

end Machine

namespace Execution

variable {P : Nat → List Nat → Prop} {x : Execution}

/-- A run all of whose frames and work are at sites of some kind, also what its active task does. -/
structure IsHoused (P : Nat → List Nat → Prop) (x : Execution) : Prop where
  machine : x.machine.IsHoused P
  active : ∀ s, x.active = some s → Lies (P x.machine.layers.size) s.control.site? ∧
    ∀ k ∈ s.pending, Lies (P x.machine.layers.size) k.site?

namespace IsHoused

theorem put {m : Machine} (h : m.IsHoused P) {t : TaskId} {next : Option (Control × List Pending)}
    (hn : ∀ c p, next = some (c, p) → Lies (P m.layers.size) c.site? ∧
      ∀ k ∈ p, Lies (P m.layers.size) k.site?) :
    (x.put m (next.map fun (c, p) => ⟨t, c, p⟩)).IsHoused P := by
  refine ⟨⟨h.root, h.frames, h.begins, h.waits⟩, fun s hs => ?_⟩
  obtain ⟨⟨c, p⟩, he, rfl⟩ := Option.map_eq_some_iff.mp hs
  exact hn c p he

theorem rest {m : Machine} (h : m.IsHoused P) : (x.put m none).IsHoused P :=
  ⟨⟨h.root, h.frames, h.begins, h.waits⟩, fun s hs => by cases hs⟩

theorem stepIn (hP : Widens P) (h : x.IsHoused P) (env : Surroundings) : (x.stepIn env).IsHoused P := by
  cases hx : x.active with
  | none =>
    unfold Execution.stepIn
    rw [hx]
    exact h
  | some s =>
    obtain ⟨hc, hp⟩ := h.active s hx
    have hs := Machine.step_lodges hP x.machine env s.task s.pending hc
      (fun _ k _ _ he => hp k (he ▸ List.mem_cons_self)) fun _ => h.machine.root
    rw [stepIn_eq hx]
    generalize x.machine.step env s.task s.control s.pending = r at hs ⊢
    have hbase : ∀ k ∈ s.control.rest s.pending, Lies (P r.1.layers.size) k.site? := fun k hk q hq => by
      refine hP.mono hs.houses.grows (hp k ?_ q hq)
      unfold Control.rest at hk
      split at hk
      · exact List.mem_of_mem_tail hk
      · exact hk
    obtain ⟨hm, hnext⟩ := Machine.turn_isHoused (t := s.task) (h.machine.houses hP hs.houses) hs.turn hbase
    refine put hm fun c p he => ?_
    rw [Machine.turn_layers]
    exact hnext c p he

/-- A task begins with what it was made for, or goes on after its wait. -/
theorem begin (h : x.IsHoused P) (t : TaskId) : (x.begin t).IsHoused P := by
  have go {c : Control} {p : List Pending} (hp : x.machine.pending? t = some p)
      (hc : Lies (P x.machine.layers.size) c.site?) :
      IsHoused P { x with machine := x.machine.setState t .running, active := some ⟨t, c, p⟩ } :=
    ⟨h.machine.setState (by simp), by rintro _ ⟨⟩; exact ⟨hc, h.machine.waits hp⟩⟩
  have hb := x.begins t
  generalize x.begin t = y at hb ⊢
  cases hb with
  | unready => exact h
  | dismissed =>
    exact rest (Machine.turn_isHoused (x := .stop .interrupted) h.machine (show [] = [] from rfl) (by simp)).1
  | fresh hs hp => exact go hp (h.machine.begins hs)
  | woken hs hp => exact go hp Machine.lies_none

/-- Whatever happens to a run, all stays at such sites. -/
theorem meet (hP : Widens P) (h : x.IsHoused P) (a : Happening) : (x.meet a).IsHoused P := by
  have hu := x.undergoes a
  generalize x.meet a = y at hu ⊢
  cases hu with
  | refused => exact h
  | begin => exact h.begin _
  | step env => exact h.stepIn hP env
  | tell => exact rest (h.machine.houses hP (.tell _ _ _))
  | grant => exact ⟨h.machine.setState (by simp), h.active⟩
  | @command c => exact rest (Machine.obey_isHoused hP h.machine c)
  | interrupt =>
    refine rest ?_
    unfold Machine.interruptMain
    split
    · exact h.machine.houses hP (.interruptTask _ _)
    · exact h.machine

end IsHoused

end Execution

end Workflow
