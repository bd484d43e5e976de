import Workflow.Proofs.Run.Role
/-!
What the walker's steps do. Between its waits the walker changes the layers, the trace, the stack of
frames and the effects, and nothing else; it may make new tasks, and what it does next or waits for,
and the work that it leaves to be done, fits a walk.
-/

namespace Workflow

/-- Work that waits within the walk of a flow. -/
def Pending.IsWalk : Pending → Prop
  | .slot _ | .execution | .rest | .plan _ _ _ | .saving _ | .subexecution _ => False
  | .element c acts _ => c.IsCalm ∧ ∀ a ∈ acts, a.IsRest
  | .elements c => c.IsCalm
  | _ => True

/-- What a task does next within the walk of a flow. -/
def Control.IsWalk : Control → Prop
  | .enqueue | .takeSlot | .watch | .execute | .handle _ | .act _ _ _ | .wake _ _ _ => False
  | .supply c => c.IsCalm
  | .element c acts _ => c.IsCalm ∧ ∀ a ∈ acts, a.IsRest
  | _ => True

/-- Whether an answer is one that the work waits for, or one that goes through all work. -/
def Answer.Meets : Answer → List Pending → Prop
  | .done, .checkpoint _ _ :: _ => True
  | .rested _, .backoff _ :: _ | .rested _, .element _ _ _ :: _ => True
  | .handled _, .primitive _ :: _ => True
  | .outcome _, _ | .thrown _, _ => True
  | _, _ => False

def Control.Meets : Control → List Pending → Prop
  | .answer a, p => a.Meets p
  | _, _ => True

/-- What a task only does if the run has not been cancelled. -/
def Control.IsLive : Control → Prop
  | .try _ | .answer (.handled _) => True
  | _ => False

/-- What a task waits for within the walk of a flow, pauses apart. -/
def Wait.IsWalk : Wait → Prop
  | .settlement _ _ _ | .grace _ | .removal _ _ _ | .nap _ | .rousing _ _ | .sleep => True
  | _ => False

/-- Whether the work waits for what comes of a wait. -/
def Wait.Meets : Wait → List Pending → Prop
  | .resumption, p => Answer.done.Meets p
  | .settlement _ _ _, p => (Answer.handled (.failure none)).Meets p
  | .nap _, p | .rousing _ _, p | .sleep, p => (Answer.rested false).Meets p
  | _, _ => True

/-- The tasks whose ends a task is told of while it waits. -/
def Wait.awaited : Wait → List TaskId
  | .start t w => [t, w]
  | .settlement _ h w => [h, w]
  | .grace h | .removal h _ _ => [h]
  | .nap w | .rousing w _ => [w]
  | .grant | .cancellation | .resumption | .sleep => []

/-- Whether a wait ends after some time. -/
def Wait.isTimed : Wait → Bool
  | .settlement _ _ _ | .grace _ | .nap _ | .sleep => true
  | _ => false

/-- The part of a task that begins with an errand. -/
def Control.role : Control → Role
  | .watch => .watcher
  | .takeSlot => .taker
  | .handle _ => .handler
  | _ => .walker

/-- What the tasks begin with that the walker makes. -/
def Control.IsErrand (c : Control) : Prop :=
  c.role ≠ .walker

namespace Effect

/-- An effect that tells no task, and an event only of one of some types. -/
def Among (types : List String) (e : Effect) : Prop :=
  (∀ x, e.event? = some x → x.1 ∈ types) ∧ ∀ t ticket, e.tells t ticket = false

theorem IsPlain.among {e : Effect} (h : e.IsPlain) (types : List String) : e.Among types := by
  refine ⟨fun x hx => ?_, h.2⟩
  rw [h.1] at hx
  cases hx

theorem ready_plain (t : TaskId) : (Effect.ready t).IsPlain :=
  ⟨rfl, fun _ _ => rfl⟩

theorem note_plain (c : CallNote) : (Effect.note c).IsPlain :=
  ⟨rfl, fun _ _ => rfl⟩

end Effect

/-- The types of events that a walk may have after its cancellation. -/
def lateTypes : List String := ["node.completed", "node.failed", "vars.patch"]

/-- The types of events that a walk may have. -/
def walkTypes : List String := "node.started" :: "node.skipped" :: lateTypes

/-- The keys of the frames that work waits in, the innermost first. -/
def frameKeys (p : List Pending) : List Nat :=
  p.filterMap fun
    | .frame key _ _ => some key
    | _ => none

namespace Turn

def pending : Turn → List Pending
  | .go _ p | .wait _ _ _ p | .pass p => p
  | .stop _ => []

def IsLive : Turn → Prop
  | .go c _ => c.IsLive
  | _ => False

/-- Whether a task goes on with a walk above some work. -/
def Within (roles : List Role) (base : List Pending) : Turn → Prop
  | .go c p => (c.IsWalk ∧ c.Meets p) ∧ ∃ ks, p = ks ++ base ∧ ∀ k ∈ ks, k.IsWalk
  | .wait w on limit p => (w.IsWalk ∧ w.Meets p ∧ w.Suits roles .walker p ∧ w.awaited = on ∧
      limit.isSome = w.isTimed) ∧ ∃ ks, p = ks ++ base ∧ ∀ k ∈ ks, k.IsWalk
  | .pass p => (Answer.rested false).Meets p ∧ ∃ ks, p = ks ++ base ∧ ∀ k ∈ ks, k.IsWalk
  | .stop _ => False

theorem Within.under {roles : List Role} {base : List Pending} {k : Pending} {t : Turn}
    (h : t.Within roles (k :: base)) (hk : k.IsWalk) : t.Within roles base := by
  have above : ∀ p, (∃ ks, p = ks ++ k :: base ∧ ∀ k ∈ ks, k.IsWalk) →
      ∃ ks, p = ks ++ base ∧ ∀ k ∈ ks, k.IsWalk := by
    rintro p ⟨ks, rfl, hks⟩
    refine ⟨ks ++ [k], by simp, fun l hl => ?_⟩
    rcases List.mem_append.mp hl with hl | hl
    · exact hks l hl
    · rw [List.mem_singleton.mp hl]
      exact hk
  cases t with
  | go c p => exact ⟨h.1, above p h.2⟩
  | wait w on limit p => exact ⟨h.1, above p h.2⟩
  | pass p => exact ⟨h.1, above p h.2⟩
  | stop a => exact h

end Turn

namespace Machine

/-- The machine without what a walk changes. -/
def standing (m : Machine) : Machine :=
  { m with
    run := { m.run with current := none, stack := [], trace := #[] }
    layers := #[], nextFrame := 0, effects := [] }

/-- The keys of the frames on the stack, the innermost first. -/
def stackKeys (m : Machine) : List Nat :=
  m.run.stack.reverse.map (·.key)

/-- Makes tasks for some errands. -/
def spawnAll (m : Machine) (cs : List Control) : Machine :=
  cs.foldl (fun m c => (m.spawn c []).1) m

/-- Nothing has changed but what a walk may change, and the stack has kept its frames. -/
structure Quiet (types : List String) (m n : Machine) : Prop where
  standing : n.standing = m.standing
  keys : n.stackKeys = m.stackKeys
  adds : Adds (Effect.Among types) m n

namespace Quiet

variable {types : List String} {m n o : Machine}

theorem refl (m : Machine) : Quiet types m m :=
  ⟨rfl, rfl, .refl m⟩

theorem trans (h : Quiet types m n) (k : Quiet types n o) : Quiet types m o :=
  ⟨k.standing.trans h.standing, k.keys.trans h.keys, h.adds.trans k.adds⟩

theorem of_eq (hs : n.standing = m.standing) (hk : n.stackKeys = m.stackKeys)
    (he : n.effects = m.effects) : Quiet types m n :=
  ⟨hs, hk, .of_eq he⟩

theorem effect (m : Machine) {e : Effect} (he : e.Among types) : Quiet types m (m.effect e) :=
  ⟨rfl, rfl, .effect m he⟩

theorem emit (m : Machine) {type : String} (payload : Entries Value) (h : type ∈ types) :
    Quiet types m (m.emit type payload) :=
  effect m ⟨fun x hx => by cases hx; exact h, fun _ _ => rfl⟩

theorem note (m : Machine) (c : CallNote) : Quiet types m (m.effect (.note c)) :=
  effect m ((Effect.note_plain c).among types)

theorem trace (m : Machine) (env : Surroundings) (e : TraceEntry) : Quiet types m (m.trace env e) :=
  of_eq rfl rfl rfl

theorem addLayer (m : Machine) (l : Layer) (layers : List Nat) :
    Quiet types m (m.addLayer l layers).1 :=
  of_eq rfl rfl rfl

theorem putScope (m : Machine) (layers : List Nat) (s : Scope) : Quiet types m (m.putScope layers s) :=
  of_eq rfl rfl rfl

theorem merge (m : Machine) (layers : List Nat) (node : String) (values : Entries Value)
    (h : "vars.patch" ∈ types) : Quiet types m (m.merge layers node values) :=
  (putScope m layers _).trans (emit _ _ h)

theorem arrive (m : Machine) (frame : Nat) (node : String) : Quiet types m (m.arrive frame node) := by
  refine of_eq rfl ?_ rfl
  simp only [stackKeys, Machine.arrive, ← List.map_reverse, List.map_map]
  congr 1
  funext f
  by_cases hf : f.key = frame <;> simp [hf]

theorem writeReturns (m : Machine) (place : Place) (node : Node) (child : List Nat)
    (returns : Value) (h : "vars.patch" ∈ types) :
    Quiet types m (m.writeReturns place node child returns) := by
  unfold Machine.writeReturns
  dsimp only
  split
  · exact refl m
  · exact merge m _ _ _ h

end Quiet

/-- The walker goes on with its walk above some work, having made tasks for some errands. -/
structure Walks (types : List String) (roles : List Role) (cs : List Control) (m : Machine)
    (base : List Pending) (r : StepResult) : Prop where
  standing : r.1.standing = (m.spawnAll cs).standing
  adds : Adds (Effect.Among types) m r.1
  turn : r.2.Within (roles ++ cs.map Control.role) base
  keys : ∀ tail, m.stackKeys = frameKeys base ++ tail →
    r.1.stackKeys = frameKeys r.2.pending ++ tail
  errands : ∀ c ∈ cs, c.IsErrand
  live : r.2.IsLive → r.1.token.cancelled = false

namespace Walks

variable {types : List String} {roles : List Role} {cs : List Control} {m n : Machine}
  {base : List Pending} {r : StepResult}

theorem mono (h : Walks lateTypes roles cs m base r) : Walks walkTypes roles cs m base r where
  standing := h.standing
  adds := h.adds.mono fun _ he =>
    ⟨fun x hx => List.mem_cons_of_mem _ (List.mem_cons_of_mem _ (he.1 x hx)), he.2⟩
  turn := h.turn
  keys := h.keys
  errands := h.errands
  live := h.live

theorem answer (q : Quiet types m n) {a : Answer} (ha : a.Meets base)
    (hl : ¬ (Control.answer a).IsLive) : Walks types roles [] m base (n, .answer a base) where
  standing := q.standing
  adds := q.adds
  turn := ⟨⟨trivial, ha⟩, [], rfl, by simp⟩
  keys _ h := q.keys.trans h
  errands := by simp
  live h := absurd h hl

theorem outcome (q : Quiet types m n) (o : Outcome) :
    Walks types roles [] m base (n, .outcome o base) :=
  answer q trivial id

theorem fail (q : Quiet types m n) (e : ErrorInfo) :
    Walks types roles [] m base (n, .fail e base) :=
  answer q trivial id

theorem go (q : Quiet types m n) {c : Control} (hc : c.IsWalk)
    (hm : c.Meets base) (hl : c.IsLive → n.token.cancelled = false) :
    Walks types roles [] m base (n, .go c base) where
  standing := q.standing
  adds := q.adds
  turn := ⟨⟨hc, hm⟩, [], rfl, by simp⟩
  keys _ h := q.keys.trans h
  errands := by simp
  live := hl

theorem spawnAll_standing (h : n.standing = m.standing) :
    (n.spawnAll cs).standing = (m.spawnAll cs).standing := by
  induction cs generalizing m n with
  | nil => exact h
  | cons c cs ih =>
    refine ih (m := (m.spawn c []).1) (n := (n.spawn c []).1) ?_
    have hs : (n.standing.spawn c []).1.standing = (m.standing.spawn c []).1.standing := by rw [h]
    exact hs

theorem after (q : Quiet types m n) (h : Walks types roles cs n base r) :
    Walks types roles cs m base r where
  standing := h.standing.trans (spawnAll_standing q.standing)
  adds := q.adds.trans h.adds
  turn := h.turn
  keys tail hm := h.keys tail (q.keys.trans hm)
  errands := h.errands
  live := h.live

theorem under {k : Pending} (h : Walks types roles cs m (k :: base) r) (hk : k.IsWalk)
    (hf : frameKeys [k] = []) : Walks types roles cs m base r where
  standing := h.standing
  adds := h.adds
  turn := h.turn.under hk
  keys tail hm := by
    refine h.keys tail ?_
    rw [hm, ← List.singleton_append, frameKeys, frameKeys, List.filterMap_append]
    simp only [frameKeys] at hf
    rw [hf, List.nil_append]
  errands := h.errands
  live := h.live

end Walks

section functions

variable (roles : List Role) (m : Machine) (env : Surroundings) (p : List Pending)

theorem call_walks (flow : Flow) (layers : List Nat) (node : Node) (shared : Bool) :
    Walks lateTypes roles [] m p (m.call env flow layers node shared p) := by
  unfold call
  split
  · exact .fail (.refl m) _
  · refine ⟨rfl, .of_eq rfl, ⟨⟨trivial, trivial⟩, [.frame m.nextFrame flow.id node.id], rfl, by simp [Pending.IsWalk]⟩, ?_, by simp,
      False.elim⟩
    intro tail h
    simp only [stackKeys, frameKeys] at h ⊢
    simp [Turn.pending, h]

theorem iterate_walks (loop : Loop) (bound iterations : Nat) :
    Walks lateTypes roles [] m p (m.iterate env loop bound iterations p) := by
  unfold iterate
  dsimp only
  split
  · exact .outcome (.refl m) _
  · split
    · exact .fail (.refl m) _
    · split
      · exact .outcome (.refl m) _
      · exact .after (.addLayer m _ loop.place.layers) (.under (call_walks _ _ _ _ _ _ _ _) trivial rfl)

theorem startWhile_walks (place : Place) (node : Node) :
    Walks lateTypes roles [] m p (m.startWhile env place node p) := by
  unfold startWhile
  dsimp only
  split
  · exact .answer (.refl m) trivial id
  · split
    · exact .fail (.refl m) _
    · split
      · exact .fail (.refl m) _
      · exact .go (.refl m) trivial trivial False.elim

theorem nextItem_walks (loop : Loop) (itemName : String) (indexName : Option String) (index : Nat)
    (items : List Value) :
    Walks lateTypes roles [] m p (m.nextItem env loop itemName indexName index items p) := by
  unfold nextItem
  split
  · exact .outcome (.refl m) _
  · split
    · exact .outcome (.refl m) _
    · exact .after (.addLayer m _ loop.place.layers)
        (.under (call_walks _ _ _ _ _ _ _ _) trivial rfl)

theorem startForeach_walks (place : Place) (node : Node) :
    Walks lateTypes roles [] m p (m.startForeach env place node p) := by
  unfold startForeach
  dsimp only
  split
  · exact .fail (.refl m) _
  · split
    · exact .fail (.refl m) _
    · exact nextItem_walks _ _ _ _ _ _ _ _ _

theorem supply_walks {c : Collection} (hc : c.IsCalm) :
    Walks lateTypes roles [] m p (m.supply c p) := by
  unfold supply
  split
  · rename_i e rest hr
    refine .go (.refl m) ⟨fun e' he => ?_, hc e (by simp [hr])⟩ trivial False.elim
    exact hc e' (by rw [hr]; exact List.mem_cons_of_mem _ he)
  · refine .outcome ?_ _
    split
    · exact .refl m
    · exact .merge m _ _ _ (by decide)

theorem sleep_walks (seconds : Seconds) {k : Pending} (hk : k.IsWalk) (hf : frameKeys [k] = [])
    (hm : (Answer.rested false).Meets (k :: p)) :
    Walks lateTypes roles [] m p (m.sleep seconds (k :: p)) := by
  refine .under (k := k) ?_ hk hf
  unfold sleep
  split
  · exact ⟨rfl, .refl m, ⟨⟨trivial, hm, trivial, rfl, rfl⟩, [], rfl, by simp⟩, fun _ => id, by simp,
      False.elim⟩
  · exact ⟨rfl, .refl m, ⟨hm, [], rfl, by simp⟩, fun _ => id, by simp, False.elim⟩

theorem element_walks (self : TaskId) {c : Collection} {acts : List Act} (hc : c.IsCalm)
    (ha : ∀ a ∈ acts, a.IsRest) (item : Except HandlerFault Value) :
    Walks lateTypes roles [] m p (m.element env self c acts item p) := by
  unfold element
  split
  · exact sleep_walks _ _ _ _ ⟨hc, fun a h => ha a (List.mem_cons_of_mem _ h)⟩ rfl trivial
  · exact absurd (ha _ List.mem_cons_self) id
  · exact absurd (ha _ List.mem_cons_self) id
  · split
    · exact .fail (.refl m) _
    · split
      · exact .outcome (.refl m) _
      · exact .after (.addLayer m _ c.loop.place.layers)
          (.under (call_walks _ _ _ _ _ _ _ _) hc rfl)

theorem startElements_walks (w : World) (now : Moment) (a : Attempt) :
    Walks lateTypes roles [] m p (m.startElements (w.surroundings now) a p) := by
  unfold startElements
  split
  · exact .fail (.refl m) _
  · rename_i provider hp
    split
    · exact .answer (.refl m) trivial id
    · dsimp only
      split
      · exact .fail (.refl m) _
      · split
        · exact .fail (.refl m) _
        · split
          · exact .fail (.note m _) _
          · rename_i rest hr
            exact .go (.note m _) (w.calm provider hp rest hr) trivial False.elim

theorem invoke_walks (place : Place) (node : Node) (target : Flow) (args : Entries Value)
    (inline : Bool) (returns : Value) :
    Walks lateTypes roles [] m p (m.invoke env place node target args inline returns p fun _ p => p) := by
  unfold invoke
  split
  · exact .after (.addLayer m _ place.layers) (.after (.putScope _ (m.layers.size :: place.layers) _)
      (.under (call_walks _ _ _ _ _ _ _ _) trivial rfl))
  · exact .after (.addLayer m _ place.layers) (.under (call_walks _ _ _ _ _ _ _ _) trivial rfl)

theorem startExecuteFlow_walks (place : Place) (node : Node) :
    Walks lateTypes roles [] m p (m.startExecuteFlow env place node p) := by
  unfold startExecuteFlow
  split
  · exact .answer (.refl m) trivial id
  · split
    · exact .fail (.refl m) _
    · split
      · exact invoke_walks _ _ _ _ _ _ _ _ _ _
      · exact .fail (.refl m) _

theorem rest_walks (hs : roles.length = m.tasks.size) (hm : ∀ b, (Answer.rested b).Meets p)
    (seconds : Seconds) :
    ∃ cs, Walks lateTypes roles cs m p (m.rest seconds p) := by
  unfold rest
  split
  · exact ⟨[], .answer (.refl m) (hm _) id⟩
  · refine ⟨[.watch], rfl, .effect _ ((Effect.ready_plain _).among _), ⟨⟨trivial, hm false, ?_, rfl,
      rfl⟩, [], rfl, by simp⟩, fun _ => id, by simp [Control.IsErrand, Control.role], False.elim⟩
    simp [Wait.Suits, spawn, ← hs, Control.role]

theorem startPrimitive_walks (hs : roles.length = m.tasks.size) (a : Attempt) :
    ∃ cs, Walks lateTypes roles cs m p (m.startPrimitive env a p) := by
  unfold startPrimitive
  dsimp only
  split
  · exact ⟨[], .outcome (.refl m) _⟩
  · split
    · exact ⟨[], .answer (.refl m) trivial id⟩
    · split
      · exact ⟨[], .fail (.refl m) _⟩
      · refine ⟨[.handle _, .watch], rfl, ?_, ⟨⟨trivial, trivial, ?_, rfl, rfl⟩,
          [.primitive a], rfl, by simp [Pending.IsWalk]⟩, fun _ => id, by simp [Control.IsErrand, Control.role],
          False.elim⟩
        · exact (Adds.effect _ ((Effect.ready_plain _).among _)).trans
            (.effect _ ((Effect.ready_plain _).among _))
        · simp [Wait.Suits, spawn, effect, ← hs, Control.role]

theorem attempt_walks (hs : roles.length = m.tasks.size) (w : World) (now : Moment) (a : Attempt) :
    ∃ cs, Walks walkTypes roles cs m p (m.attempt (w.surroundings now) a p) := by
  have started : Quiet walkTypes m
      (m.emit "node.started" (startedPayload a.node a.number a.place.depth)) :=
    .emit _ _ (by decide)
  have within {cs r} (h : Walks lateTypes roles cs
      (m.emit "node.started" (startedPayload a.node a.number a.place.depth))
      (.attempt a (w.surroundings now).now :: p) r) : ∃ cs, Walks walkTypes roles cs m p r :=
    ⟨cs, .after started (.under h.mono trivial rfl)⟩
  unfold attempt
  dsimp only
  split
  · exact within (.outcome (.refl _) _)
  · exact within (startForeach_walks _ _ _ _ _ _)
  · exact within (startElements_walks _ _ _ _ _ _)
  · exact within (startWhile_walks _ _ _ _ _ _)
  · exact within (startExecuteFlow_walks _ _ _ _ _ _)
  · obtain ⟨cs, h⟩ := startPrimitive_walks roles
      (m.emit "node.started" (startedPayload a.node a.number a.place.depth)) (w.surroundings now)
      (.attempt a (w.surroundings now).now :: p) hs a
    exact within h

/-! Answers to work that waits. -/

theorem afterFailure_walks (hs : roles.length = m.tasks.size) (a : Attempt) (since : Seconds)
    (e : ErrorInfo) : ∃ cs, Walks lateTypes roles cs m p (m.afterFailure env a since e p) := by
  have failed (x : TraceEntry) (payload : Entries Value) :
      Quiet lateTypes m ((m.trace env x).emit "node.failed" payload) :=
    (Quiet.trace m env x).trans (.emit _ payload (by decide))
  unfold afterFailure
  dsimp only
  split
  · split
    · obtain ⟨cs, h⟩ := rest_walks roles ((m.trace env _).emit "node.failed" _) (.backoff a :: p) hs (fun _ => trivial) _
      exact ⟨cs, .after (failed _ _) (h.under trivial rfl)⟩
    · exact ⟨[], .answer (failed _ _) trivial id⟩
  · exact ⟨[], .outcome (failed _ _) _⟩
  · exact ⟨[], .outcome (failed _ _) _⟩
  · exact ⟨[], .outcome (failed _ _) _⟩

theorem afterAttempt_walks (hs : roles.length = m.tasks.size) (a : Attempt) (since : Seconds)
    (o : Outcome) : ∃ cs, Walks lateTypes roles cs m p (m.afterAttempt env a since o p) := by
  unfold afterAttempt
  split
  · exact ⟨[], .outcome (.trace m env _) _⟩
  · exact ⟨[], .outcome ((Quiet.trace m env _).trans (.emit _ _ (by decide))) _⟩
  · exact afterFailure_walks roles m env p hs a since _

theorem afterVisit_walks (walk : Walk) (node : Node) (o : Outcome) :
    Walks lateTypes roles [] m p (m, afterVisit walk node o p) := by
  unfold afterVisit
  split
  · exact .go (.refl m) trivial trivial False.elim
  · exact .outcome (.refl m) _
  · exact .outcome (.refl m) _

theorem enter_walks (place : Place) (frame : Nat) :
    Walks lateTypes roles [] m p (m.enter place frame p) := by
  unfold enter
  dsimp only
  split
  · exact .answer (.refl m) trivial id
  · split
    · exact .go (.refl m) trivial trivial False.elim
    · exact .fail (.refl m) _

theorem dispatch_walks (walk : Walk) (node : Node) :
    Walks walkTypes roles [] m p (m.dispatch env walk node p) := by
  have refused (fault : PolicyFault) (o : Outcome) :
      Walks walkTypes roles [] m p ((m.refusePolicy env walk node fault).1,
        .outcome o (.visit walk node :: p)) :=
    .under (k := .visit walk node) (.outcome (((Quiet.emit m _ (by decide)).trans
      (.trace _ env _)).trans (.emit _ _ (by decide))) o) trivial rfl
  unfold dispatch
  dsimp only
  split
  · exact .outcome (.refl m) _
  · rename_i hn
    split
    · exact .under (k := .visit walk node)
        (.outcome ((Quiet.emit m _ (by decide)).trans (.trace _ env _)) _) trivial rfl
    · split
      · exact .under (k := .visit walk node)
          (.go (.refl m) trivial trivial fun _ => Bool.eq_false_iff.mpr hn) trivial rfl
      · split
        · exact refused _ _
        · exact refused _ _
        · exact .under (k := .visit walk node) (.answer (.refl m) trivial id) trivial rfl

theorem backoff_walks (a : Attempt) (cutShort : Bool) :
    Walks lateTypes roles [] m p (m.resume env (.backoff a) (.rested cutShort) p) := by
  unfold resume
  dsimp only
  split
  · exact .outcome (.refl m) _
  · rename_i hn
    rw [Bool.or_eq_true, not_or] at hn
    exact .go (.refl m) trivial trivial fun _ => Bool.eq_false_iff.mpr hn.2

theorem primitive_walks (a : Attempt) (r : HandlerResult) :
    Walks lateTypes roles [] m p (m.resume env (.primitive a) (.handled r) p) := by
  cases r with
  | failure e => exact .fail (.refl m) _
  | success values =>
    have written : Quiet lateTypes m
        (if values.isEmpty then m else m.merge a.place.layers a.node.id values) := by
      split
      · exact .refl m
      · exact .merge m _ _ _ (by decide)
    exact .outcome written _

theorem thrown_walks {k : Pending} (hk : k.IsWalk) (hf : frameKeys [k] = []) (f : HandlerFault) :
    Walks lateTypes roles [] m p (m.resume env k (.thrown f) p) := by
  cases k with
  | elements c => exact .fail (.refl m) _
  | frame key flow node => simp [frameKeys] at hf
  | slot held => exact absurd hk id
  | execution => exact absurd hk id
  | invocation place node child returns =>
    cases returns <;> exact .answer (a := .thrown f) (.refl m) trivial id
  | _ => exact .answer (a := .thrown f) (.refl m) trivial id

theorem outcome_walks (hs : roles.length = m.tasks.size) {k : Pending} (hk : k.IsWalk)
    (hf : frameKeys [k] = []) (o : Outcome) :
    ∃ cs, Walks lateTypes roles cs m p (m.resume env k (.outcome o) p) := by
  cases k with
  | slot held => exact absurd hk id
  | execution => exact absurd hk id
  | subexecution child => exact absurd hk id
  | frame key flow node => simp [frameKeys] at hf
  | visit walk node => exact ⟨[], afterVisit_walks _ _ _ _ _ _⟩
  | attempt a since => exact afterAttempt_walks _ _ _ _ hs _ _ _
  | foreach loop itemName indexName index rest =>
    cases o with
    | completed l => exact ⟨[], nextItem_walks _ _ _ _ _ _ _ _ _⟩
    | _ => exact ⟨[], .outcome (.refl m) _⟩
  | «while» loop bound iterations =>
    cases o with
    | completed l => exact ⟨[], .go (.refl m) trivial trivial False.elim⟩
    | _ => exact ⟨[], .outcome (.refl m) _⟩
  | elements c =>
    cases o with
    | completed l => exact ⟨[], .go (.refl m) hk trivial False.elim⟩
    | _ => exact ⟨[], .outcome (.refl m) _⟩
  | invocation place node child returns =>
    cases o with
    | completed l =>
      cases returns with
      | some v => exact ⟨[], .outcome (.writeReturns m _ _ _ _ (by decide)) _⟩
      | none => exact ⟨[], .outcome (.refl m) _⟩
    | _ => cases returns <;> exact ⟨[], .outcome (.refl m) _⟩
  | _ => exact ⟨[], .outcome (.refl m) _⟩

/-- The walker hands an answer to work within its walk that waits for it. -/
theorem resume_walks (hs : roles.length = m.tasks.size) {k : Pending} (hk : k.IsWalk)
    (hf : frameKeys [k] = []) {a : Answer} (ha : a.Meets (k :: p)) :
    ∃ cs, Walks lateTypes roles cs m p (m.resume env k a p) := by
  cases a with
  | outcome o => exact outcome_walks _ _ _ _ hs hk hf o
  | thrown f => exact ⟨[], thrown_walks _ _ _ _ hk hf f⟩
  | interrupted => exact absurd ha id
  | done =>
    cases k with
    | checkpoint walk node => exact ⟨[], .go (.refl m) trivial trivial False.elim⟩
    | _ => exact absurd ha id
  | rested cutShort =>
    cases k with
    | backoff at_ => exact ⟨[], backoff_walks _ _ _ _ _ _⟩
    | element c acts item => exact ⟨[], .go (.refl m) hk trivial False.elim⟩
    | _ => exact absurd ha id
  | handled r =>
    cases k with
    | primitive at_ => exact ⟨[], primitive_walks _ _ _ _ _ _⟩
    | _ => exact absurd ha id

end functions

/-! Frames. -/

theorem resume_frame (m : Machine) (env : Surroundings) {key : Nat} {flow node : String} {a : Answer}
    {p : List Pending} (ha : a.Meets (.frame key flow node :: p)) :
    ∃ b, m.resume env (.frame key flow node) a p = (m.leaveFrame key node, .answer b p) ∧
      b.Meets p ∧ ¬ (Control.answer b).IsLive := by
  cases a with
  | outcome o => exact ⟨_, rfl, trivial, id⟩
  | thrown f => exact ⟨_, rfl, trivial, id⟩
  | _ => exact absurd ha id

theorem leaveFrame_standing (m : Machine) (key : Nat) (node : String) :
    (m.leaveFrame key node).standing = m.standing := rfl

theorem leaveFrame_keys (m : Machine) {key : Nat} (node : String) {keys : List Nat}
    (h : m.stackKeys = key :: keys) : (m.leaveFrame key node).stackKeys = keys := by
  unfold leaveFrame stackKeys at *
  obtain ⟨f, fs, hr, hf, rfl⟩ := List.map_eq_cons_iff.mp h
  have hs : m.run.stack = fs.reverse ++ [f] := by
    rw [← List.reverse_reverse m.run.stack, hr, List.reverse_cons]
  simp [hs, hf]

/-! Pauses. -/

/-- The machine without what a walk or a pause changes. -/
def unpaused (m : Machine) : Machine :=
  { m.standing with
    run := { m.standing.run with status := .running, pauseReason := none, breakpoints := [] }
    pauseOnStart := false, pauseRequested := false, stepArmed := false, paused := [] }

/-- The walker pauses before a node. -/
structure Pauses (walker : TaskId) (m : Machine) (base : List Pending) (r : StepResult) : Prop where
  turn : ∃ walk node, r.2 = .wait .resumption [] none (.checkpoint walk node :: base)
  status : r.1.run.status = .paused
  paused : r.1.paused = m.paused ++ [walker]
  unpaused : r.1.unpaused = m.unpaused
  keys : r.1.stackKeys = m.stackKeys
  effects : ∃ payload view, r.1.effects = .emit "run.paused" payload view :: m.effects
  live : m.token.cancelled = false

theorem takePause_cases (m : Machine) (node : Node) :
    m.takePause node = (m, none) ∨
      ∃ n reason, m.takePause node = (n, some reason) ∧ n.unpaused = m.unpaused ∧
        n.paused = m.paused ∧ n.run = m.run ∧ n.effects = m.effects := by
  unfold takePause
  split
  · exact .inr ⟨_, _, rfl, rfl, rfl, rfl, rfl⟩
  · split
    · exact .inr ⟨_, _, rfl, rfl, rfl, rfl, rfl⟩
    · split
      · exact .inr ⟨_, _, rfl, rfl, rfl, rfl, rfl⟩
      · split
        · exact .inr ⟨_, _, rfl, rfl, rfl, rfl, rfl⟩
        · exact .inl rfl

theorem next_cases (roles : List Role) (m : Machine) (env : Surroundings) (self : TaskId)
    (walk : Walk) (node : Option Node) (p : List Pending) :
    Walks lateTypes roles [] m p (m.next env self walk node p) ∨
      Pauses self m p (m.next env self walk node p) := by
  unfold next
  split
  · exact .inl (.outcome (.refl m) _)
  · split
    · exact .inl (.outcome (.refl m) _)
    · rename_i hn
      split
      · exact .inl (.outcome (.refl m) _)
      · rename_i node _
        dsimp only
        have ha : Quiet lateTypes m (m.arrive walk.frame node.id) := .arrive m _ _
        rcases takePause_cases (m.arrive walk.frame node.id) node with
          h | ⟨n, reason, h, hu, hp, hr, he⟩
        · rw [h]
          exact .inl (.go ha trivial trivial False.elim)
        · rw [h]
          refine .inr ⟨⟨_, _, rfl⟩, rfl, ?_, ?_, ?_, ?_, ?_⟩
          · exact congrArg (· ++ [self]) hp
          · exact hu
          · show List.map _ n.run.stack.reverse = _
            rw [hr]
            exact ha.keys
          · exact ⟨_, _, congrArg _ he⟩
          · exact Bool.eq_false_iff.mpr hn

end Machine

end Workflow
