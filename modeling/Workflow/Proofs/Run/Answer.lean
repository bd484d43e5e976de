import Workflow.Proofs.Run.Account
/-!
What the walker accounts for when an attempt is over and when work that waits is answered, and from
these for each of its steps, whatever stage it is in.
-/

namespace Workflow.Machine

variable {m n : Machine} {p : List Pending}

section functions

variable (m : Machine) (env : Surroundings) (hp : IsSafeWork p)

include hp

theorem afterFailure_accounts {a : Attempt} (hf : a.place.flow.IsValid) (since : Seconds)
    {e : ErrorInfo} (he : e.IsOrdinary) (hs : (Decision.make a e == .retry && a.isOverdue) = false) :
    Accounts (a.tag :: openTags p) m (m.afterFailure env a since e p) := by
  have failed (x : TraceEntry) (payload : Entries Value) (ht : Tag.ofPayload payload = a.tag) :
      Notes (a.tag :: openTags p) m ((m.trace env x).emit "node.failed" payload) (openTags p) :=
    (Notes.trace m env x).trans (.ends _ (.inr rfl) ht)
  unfold afterFailure
  dsimp only
  split
  · rename_i hd
    split
    · exact .after (failed _ _ rfl) (rest_accounts (p := .backoff a :: p) _
        (hp.cons (by simpa [Pending.flows] using hf)) _)
    · rename_i hn
      rw [hd, Attempt.isOverdue, hn] at hs
      cases hs
  · exact .outcome (failed _ _ rfl) trivial hp
  · exact .outcome (failed _ _ rfl) trivial hp
  · exact .outcome (failed _ _ rfl) he hp

/-- The outcome of an attempt, a cancellation apart, is told in the event that ends it. -/
theorem afterAttempt_accounts {a : Attempt} (hf : a.place.flow.IsValid) (since : Seconds)
    {r : Outcome} (hr : r.IsOrdinary) (hc : r ≠ .cancelled)
    (hs : m.strains (.answer (.outcome r)) (.attempt a since :: p) = false) :
    Accounts (a.tag :: openTags p) m (m.afterAttempt env a since r p) := by
  cases r with
  | cancelled => exact absurd rfl hc
  | completed l =>
    exact .outcome ((Notes.trace m env _).trans (.ends _ (.inl rfl) rfl)) trivial hp
  | failed e node => exact afterFailure_accounts m env hp hf since hr hs

theorem afterVisit_accounts {walk : Walk} (hf : walk.place.flow.IsValid) (node : Node) {r : Outcome}
    (hr : r.IsOrdinary) : Accounts (openTags p) m (m, afterVisit walk node r p) := by
  unfold afterVisit
  split
  · exact .go (.refl m) ⟨by simpa [Control.flows] using hf, trivial⟩ hp
  · exact .outcome (.refl m) hr hp
  · exact .outcome (.refl m) hr hp

omit hp in
/-- What a frame's work hands on is a failure of the node that called the flow. -/
theorem afterCall_isOrdinary (flow : String) {r : Outcome} (hr : r.IsOrdinary) :
    (afterCall flow r).IsOrdinary := by
  cases r <;> simp [afterCall, Outcome.IsOrdinary]

omit hp in
/-- An answer, a cancellation apart, is taken by the work that waits for it or handed on. -/
theorem resume_accounts {k : Pending} (hk : k.IsWalk) {a : Answer} (hm : a.Meets (k :: p))
    (ha : a.IsOrdinary) (ht : ¬ a.IsThrown) (hc : a ≠ .outcome .cancelled)
    (hp : IsSafeWork (k :: p)) (hs : m.strains (.answer a) (k :: p) = false) :
    Accounts (openTags (k :: p)) m (m.resume env k a p) := by
  have hq := hp.tail
  have hl := hp.head
  have passed : Accounts (openTags p) m (m, .answer a p) := .answer (.refl m) ha ht hq
  cases k with
  | slot held => exact absurd hk id
  | execution => exact absurd hk id
  | plan c acts finish => exact absurd hk id
  | saving saveAs => exact absurd hk id
  | rest => exact absurd hk id
  | subexecution child => exact absurd hk id
  | checkpoint walk node =>
    cases a with
    | done => exact .go (.refl m) ⟨hl, trivial⟩ hq
    | _ => exact passed
  | visit walk node =>
    cases a with
    | outcome r => exact afterVisit_accounts m hq (hl _ (by simp [Pending.flows])) node ha
    | _ => exact passed
  | attempt b since =>
    cases a with
    | outcome r =>
      refine afterAttempt_accounts m env hq (hl _ (by simp [Pending.flows])) since ha ?_ hs
      rintro rfl
      exact hc rfl
    | thrown f => exact absurd trivial ht
    | _ => exact absurd hm id
  | backoff b =>
    cases a with
    | rested cutShort =>
      unfold resume
      dsimp only
      split
      · exact .outcome (.refl m) trivial hq
      · exact .go (.refl m) ⟨hl, trivial⟩ hq
    | _ => exact passed
  | primitive b =>
    cases a with
    | handled r =>
      cases r with
      | failure e =>
        refine .fail (.refl m) ?_ hq
        cases e with
        | none => exact ErrorInfo.isOrdinary_ofHandler _
        | some e => exact ha
      | success values =>
        refine .outcome (p := p) ?_ trivial hq
        split
        · exact .refl m
        · exact .merge m _ _ _
    | _ => exact passed
  | frame key flow node =>
    have left : Notes (openTags p) m (m.leaveFrame key node) (openTags p) := .of_eq rfl rfl rfl rfl
    cases a with
    | outcome r => exact .outcome left (afterCall_isOrdinary flow ha) hq
    | _ => exact .answer left ha ht hq
  | foreach loop itemName indexName index rest =>
    cases a with
    | outcome r =>
      cases r with
      | completed l => exact nextItem_accounts m env hq hl _ _ _ _
      | _ => exact passed
    | _ => exact passed
  | «while» loop bound iterations =>
    cases a with
    | outcome r =>
      cases r with
      | completed l => exact .go (.refl m) ⟨hl, trivial⟩ hq
      | _ => exact passed
    | _ => exact passed
  | element c acts item =>
    cases a with
    | rested cutShort => exact .go (.refl m) ⟨hl, trivial⟩ hq
    | _ => exact passed
  | elements c =>
    cases a with
    | outcome r =>
      cases r with
      | completed l => exact .go (.refl m) ⟨hl, trivial⟩ hq
      | _ => exact passed
    | thrown f => exact absurd trivial ht
    | _ => exact passed
  | invocation place node child returns =>
    cases returns with
    | none => cases a <;> exact passed
    | some returns =>
      cases a with
      | outcome r =>
        cases r with
        | completed l => exact .outcome (.writeReturns m _ _ _ _) trivial hq
        | _ => exact passed
      | _ => exact passed

end functions

/-! The stages of the walker. -/

theorem finalize_notes {o : List Tag} (m : Machine) (stamp : Instant) {r : Outcome} (hr : r.IsOrdinary) :
    Notes o m (m.finalize stamp r) o := by
  unfold finalize
  split
  · exact .refl m
  · dsimp only
    refine .trans ?_ (.endPause _)
    split
    · exact .of_emit "run.cancelled" (by decide) rfl rfl rfl rfl
    · cases r with
      | cancelled => exact .of_emit "run.cancelled" (by decide) rfl rfl rfl rfl
      | completed l => exact .of_emit "run.completed" (by decide) rfl rfl rfl rfl
      | failed e node =>
        refine ⟨⟨[_], rfl, .skip (Effect.isUnmarked_emit _ _ (by decide)) (.nil o)⟩, rfl, fun e' he => ?_,
          fun h => h.of_size (.of_tasks rfl) rfl⟩
        cases he
        exact .inr hr

theorem execute_accounts (m : Machine) (env : Surroundings) (hr : m.run.flow.IsValid)
    (hp : IsSafeWork p) : Accounts (openTags p) m (m.execute env p) := by
  unfold execute
  split
  · exact .answer (.refl m) trivial id hp
  · split
    · exact .answer (finalize_notes m _ trivial) trivial id hp
    · exact .go (p := .execution :: p) (.of_emit "run.started" (by decide) rfl rfl rfl rfl)
        ⟨by simpa [Control.flows] using hr, trivial⟩ (hp.cons (by simp [Pending.flows]))

theorem enqueue_accounts (m : Machine) : Accounts [] m (m.enqueue []) := by
  have none : IsSafeWork [] := by simp [IsSafeWork]
  unfold enqueue
  split
  · exact .go (p := [.slot false]) (.refl m) ⟨by simp [Control.flows], trivial⟩
      (none.cons (by simp [Pending.flows]))
  · exact ⟨(Notes.spawn m (by simp)).trans (.spawn _ (by simp)), trivial, none⟩

/-- What a handler's end means for an attempt. -/
theorem settled_isOrdinary (m : Machine) {a : Answer} (ha : a.IsOrdinary) :
    (m.settled a).IsOrdinary ∧ ¬ (m.settled a).IsThrown := by
  unfold settled
  split
  · split <;> exact ⟨by simp [Answer.IsOrdinary, Outcome.IsOrdinary], id⟩
  · exact ⟨by simp [Answer.IsOrdinary, Outcome.IsOrdinary], id⟩
  · split
    · exact ⟨trivial, id⟩
    · cases a <;> first | exact ⟨ha, id⟩ | simp_all

theorem ending?_isOrdinary (h : m.IsCandid) (ht : Tends m n) {t : TaskId} {a : Answer}
    (ha : n.ending? t = some a) : a.IsOrdinary := by
  refine h t (.ended a) (ht.ended_iff.mp ?_)
  unfold ending? at ha
  split at ha
  · cases ha
    assumption
  · cases ha

/-- What the walker does after a wait that is not for its start. -/
theorem wake_accounts {roles : List Role} (hf : m.Fitting roles) (env : Surroundings) (self : TaskId)
    {v : Wait} (s : Bool) (hv : (Control.wake v s false).Suits roles .walker p) (hm : v.Meets p)
    (hstart : ∀ t u, v ≠ .start t u) (ho : v.IsOrdinary) (hc : m.IsCandid) (hp : IsSafeWork p) :
    Accounts (openTags p) m (m.wake env self v s false p) := by
  obtain ⟨ha, -⟩ := wake_aside self hf env s hv.1 hv.2 (fun _ => hm) hstart
  have noted : Notes (openTags p) m (m.wake env self v s false p).1 (openTags p) := .of_aside hf ha
  suffices h : (m.wake env self v s false p).2.IsSafe ∧ (m.wake env self v s false p).2.pending = p from
    ⟨by rw [h.2]; exact noted, h.1⟩
  have answered {a : Answer} (ha : a.IsOrdinary) (ht : ¬ a.IsThrown) :
      (Turn.answer a p).IsSafe ∧ (Turn.answer a p).pending = p := ⟨⟨.answer ha ht, hp⟩, rfl⟩
  clear ha noted
  cases v with
  | start t u => exact absurd rfl (hstart t u)
  | grant => exact absurd hv.1 id
  | cancellation => exact absurd hv.1 id
  | resumption => exact answered trivial id
  | settlement a handler watcher =>
    have hd := dropTimer_aside hf self
    have hk : Tends m (if (m.dropTimer self).hasEnded watcher then m.dropTimer self
        else (m.dropTimer self).interruptTask watcher) := by
      split
      · exact hd.tends
      · exact hd.tends.trans (Aside.interruptTask hd.fits hv.1.2 (by decide)).tends
    unfold wake wakeFromSettlement
    dsimp only
    generalize (if (m.dropTimer self).hasEnded watcher then m.dropTimer self
        else (m.dropTimer self).interruptTask watcher) = n at hk ⊢
    rw [if_neg (by simp)]
    split
    · rename_i a he
      obtain ⟨ha, ht⟩ := settled_isOrdinary n (ending?_isOrdinary hc hk he)
      exact answered ha ht
    · split
      · exact ⟨⟨trivial, hp⟩, rfl⟩
      · exact ⟨⟨ErrorInfo.isOrdinary_timeout _ _, hp⟩, rfl⟩
  | grace handler =>
    unfold wake
    dsimp only
    rw [if_neg (by simp)]
    split
    · exact answered trivial id
    · exact ⟨⟨trivial, hp⟩, rfl⟩
  | removal handler r i =>
    unfold wake
    dsimp only
    split
    · exact answered trivial id
    · exact answered ho id
  | nap watcher =>
    unfold wake
    dsimp only
    split
    · exact answered trivial id
    · exact ⟨⟨trivial, hp⟩, rfl⟩
  | rousing watcher before =>
    unfold wake
    dsimp only
    split
    · exact answered trivial id
    · split <;> exact answered trivial id
  | sleep => exact answered trivial id

/-- A step within a walk, answers apart. -/
theorem walk_accounts {c : Control} (w : World) (now : Moment) (t : TaskId) (hw : c.IsWalk)
    (ha : ∀ a, c ≠ .answer a) (hr : m.run.flow.IsValid) (he : ∀ e ∈ now.flows, e.2.IsValid)
    (hc : c.IsSafe) (hp : IsSafeWork p) (hs : m.strains c p = false) :
    Accounts (openTags p) m (m.step (w.surroundings now) t c p) := by
  obtain ⟨hf, -⟩ := hc
  cases c with
  | enter place frame => exact enter_accounts m hp (hf _ (by simp [Control.flows])) frame
  | next walk node => exact next_accounts m _ hp t (hf _ (by simp [Control.flows])) node
  | dispatch walk node => exact dispatch_accounts m _ hp (hf _ (by simp [Control.flows])) hs
  | «try» a => exact attempt_accounts m _ hp hr he (hf _ (by simp [Control.flows])) hs
  | iterate loop bound iterations => exact iterate_accounts m _ hp hf bound iterations
  | supply d => exact supply_accounts m hp hf
  | element d acts item => exact element_accounts m _ hp t hf hw.2 item
  | answer a => exact absurd rfl (ha a)
  | _ => exact absurd hw id

theorem not_isBottom (q b : List Pending) : ¬ IsBottom (q ++ .execution :: b) := by
  intro hb
  rcases q with _ | ⟨k, q⟩
  · exact hb
  · have hq : IsBottom (k :: (q ++ .execution :: b)) := hb
    cases k <;> first | exact hq | (cases q <;> exact hq)

theorem Underway.not_isBottom (h : Underway m p) : ¬ IsBottom p := by
  obtain ⟨q, b, rfl, -⟩ := h.work
  exact Machine.not_isBottom q b

theorem finalize_cancelled (hs : m.run.status.isTerminal = false) (stamp : Instant) :
    (m.finalize stamp .cancelled).run.status = .cancelled := by
  unfold finalize
  rw [hs, if_neg (by simp)]
  dsimp only
  refine (congrArg Run.status (Silent.endPause _).mute.run :).trans ?_
  split <;> rfl

/-- A cancellation goes through all work of a walk and then ends the run. No attempt is ended by it. -/
theorem Underway.unwinds (hu : Underway m p) (hs : m.run.status.isTerminal = false) (env : Surroundings)
    (self : TaskId) (hp : IsSafeWork p) :
    let x := m.step env self (.answer (.outcome .cancelled)) p
    (∀ o, Notes o m x.1 o) ∧ x.2.IsSafe ∧
      (x.1.run.status = .cancelled ∨ ∃ q, x.2 = .outcome .cancelled q ∧ ¬ IsBottom q) := by
  obtain ⟨q, b, rfl, hq, -⟩ := hu.work
  rcases q with _ | ⟨k, q⟩
  · exact ⟨fun o => finalize_notes (r := .cancelled) m _ trivial, ⟨.answer trivial id, hp.tail⟩,
      .inl (finalize_cancelled hs _)⟩
  · have handed (n : Machine) (hn : ∀ o, Notes o m n o)
        (he : m.resume env k (.outcome .cancelled) (q ++ .execution :: b) =
          (n, .outcome .cancelled (q ++ .execution :: b))) :
        let x := m.step env self (.answer (.outcome .cancelled)) (k :: q ++ .execution :: b)
        (∀ o, Notes o m x.1 o) ∧ x.2.IsSafe ∧
          (x.1.run.status = .cancelled ∨ ∃ q, x.2 = .outcome .cancelled q ∧ ¬ IsBottom q) := by
      intro x
      rw [show x = (n, .outcome .cancelled (q ++ .execution :: b)) from he]
      exact ⟨hn, ⟨.answer trivial id, hp.tail⟩, .inr ⟨_, rfl, Machine.not_isBottom q b⟩⟩
    by_cases hk : frameKeys [k] = []
    · obtain ⟨n, he, hn⟩ := resume_cancelled m env (hq k List.mem_cons_self) hk (q ++ .execution :: b)
      refine handed n (fun o => ?_) he
      rcases hn with rfl | ⟨e, rfl⟩
      · exact .refl _
      · exact .trace m env e
    · obtain ⟨key, flow, node, rfl⟩ : ∃ key flow node, k = .frame key flow node := by
        cases k <;> first | exact ⟨_, _, _, rfl⟩ | exact absurd rfl hk
      exact handed (m.leaveFrame key node) (fun o => .of_eq rfl rfl rfl rfl) rfl

/-- A step of the walker, whatever stage it is in, unless it hands a cancellation on. -/
theorem Stands.accounts {roles : List Role} {c : Control} (h : Stands m c p) (hf : m.Fitting roles)
    (w : World) (now : Moment) (t : TaskId) (hv : c.Suits roles .walker p) (hr : m.run.flow.IsValid)
    (he : ∀ e ∈ now.flows, e.2.IsValid) (hd : m.IsCandid) (hc : c.IsSafe) (hp : IsSafeWork p)
    (hn : c = .answer (.outcome .cancelled) → IsBottom p) (hs : m.strains c p = false) :
    Accounts (openTags p) m (m.step (w.surroundings now) t c p) := by
  have resumed {a : Answer} (hu : Underway m p) (hm : a.Meets p) (ha : c = .answer a) :
      Accounts (openTags p) m (m.step (w.surroundings now) t c p) := by
    subst ha
    obtain ⟨q, b, rfl, hq, -⟩ := hu.work
    cases q with
    | nil =>
      cases a with
      | outcome r => exact .answer (p := b) (finalize_notes m _ hc.2.1) trivial id hp.tail
      | thrown f => exact absurd trivial hc.2.2
      | _ => exact absurd hm id
    | cons k q =>
      refine resume_accounts m _ (hq k List.mem_cons_self) hm hc.2.1 hc.2.2 (fun hx => ?_) hp hs
      exact hu.not_isBottom (hn (by rw [hx]))
  cases h with
  | enqueue h => exact enqueue_accounts m
  | start h u v s i =>
    cases hv.2 rfl
    obtain ⟨n, held, he, ha⟩ := wakeFromStart_aside (p := []) t hf (w.surroundings now) s
      hv.1.1 hv.1.2
    show Accounts [] m (m.wake (w.surroundings now) t (.start u v) s false [])
    rw [he]
    exact .go (p := [.slot held]) (.of_aside hf ha) ⟨by simp [Control.flows], trivial⟩
      (hp.cons (by simp [Pending.flows]))
  | execute h hb => exact execute_accounts m _ hr hp
  | walk h hu hw hm hl =>
    by_cases ha : ∃ a, c = .answer a
    · obtain ⟨a, rfl⟩ := ha
      exact resumed hu hm rfl
    · exact walk_accounts w now t hw (fun a he => ha ⟨a, he⟩) hr he hc hp hs
  | wake h hu hw hm s i =>
    cases hv.2 rfl
    refine wake_accounts hf _ t s hv hm ?_ hc.2 hd hp
    rintro u v rfl
    exact hw
  | resume h hu hm s i =>
    cases hv.2 rfl
    exact .answer (.refl m) trivial id hp
  | back h hu hm => exact resumed hu hm rfl
  | refuse h hu walk node =>
    exact walk_accounts w now t trivial (by simp) hr he hc hp hs
  | unwind h hu => exact absurd (hn rfl) hu.not_isBottom
  | ended h hb a =>
    rcases p with _ | ⟨k, _ | ⟨l, q⟩⟩
    · exact ⟨.refl m, hc.2.1⟩
    · obtain ⟨held, rfl⟩ : ∃ held, k = .slot held := by
        cases k <;> first | exact ⟨_, rfl⟩ | exact absurd hb id
      have given : Notes [] m (if held then m.effect .giveSlotBack else m) [] := by
        split
        · exact .effect m rfl
        · exact .refl m
      have pruned := given.trans (.effect _ (e := .prune) rfl)
      cases a with
      | thrown f => exact absurd trivial hc.2.2
      | interrupted => exact .answer (p := []) given trivial id hp.tail
      | _ => exact .answer (p := []) pruned hc.2.1 id hp.tail
    · cases k <;> exact absurd hb id

end Workflow.Machine
