import Workflow.Proofs.Run.Cancel
import Workflow.Proofs.Run.Layers
/-!
Where the walker writes. All that a walk does and leaves to be done is carried out in places whose
layers lie where those of the places before it lie, or in front of them, and it writes through no
other layers.
-/

namespace Workflow

/-- Where work that waits is carried out, if that is a part of a walk. -/
def Pending.place? : Pending → Option Place
  | .checkpoint walk _ | .visit walk _ => some walk.place
  | .attempt a _ | .backoff a | .primitive a => some a.place
  | .foreach loop _ _ _ _ | .while loop _ _ => some loop.place
  | .element c _ _ | .elements c => some c.loop.place
  | .invocation place _ _ _ => some place
  | _ => none

/-- Where a task does what it does next, if that is a part of a walk. -/
def Control.place? : Control → Option Place
  | .enter place _ => some place
  | .next walk _ | .dispatch walk _ => some walk.place
  | .try a => some a.place
  | .iterate loop _ _ => some loop.place
  | .supply c | .element c _ _ => some c.loop.place
  | _ => none

/-- The place, if there is one, has layers of some kind. -/
def Lies (P : List Nat → Prop) (place : Option Place) : Prop :=
  ∀ q, place = some q → P q.layers

/-- Work above other work, in places of some kind. -/
def Above (P : List Nat → Prop) (base p : List Pending) : Prop :=
  ∃ ks, p = ks ++ base ∧ ∀ k ∈ ks, Lies P k.place?

namespace Above

variable {P Q : List Nat → Prop} {base p : List Pending} {k : Pending}

theorem refl (P : List Nat → Prop) (base : List Pending) : Above P base base :=
  ⟨[], rfl, by simp⟩

theorem mono (h : Above P base p) (hPQ : ∀ layers, P layers → Q layers) : Above Q base p := by
  obtain ⟨ks, rfl, hk⟩ := h
  exact ⟨ks, rfl, fun k hm q hq => hPQ _ (hk k hm q hq)⟩

theorem under (h : Above P (k :: base) p) (hk : Lies P k.place?) : Above P base p := by
  obtain ⟨ks, rfl, hks⟩ := h
  refine ⟨ks ++ [k], by simp, fun l hl => ?_⟩
  rcases List.mem_append.mp hl with hl | hl
  · exact hks l hl
  · rw [List.mem_singleton.mp hl]
    exact hk

theorem trans {q : List Pending} (h : Above P base p) (k : Above P p q) : Above P base q := by
  obtain ⟨ks, rfl, hk⟩ := h
  obtain ⟨ls, rfl, hl⟩ := k
  refine ⟨ls ++ ks, by simp, fun l hm => ?_⟩
  rcases List.mem_append.mp hm with hm | hm
  · exact hl l hm
  · exact hk l hm

end Above

/-- Whether a task goes on above some work, in places of some kind. -/
def Turn.Lies (P : List Nat → Prop) (base : List Pending) : Turn → Prop
  | .go c p => Workflow.Lies P c.place? ∧ Above P base p
  | .wait _ _ _ p | .pass p => Above P base p
  | .stop _ => base = []

/-- Layers of some kind stay of that kind when there are more layers, also with a new one in front. -/
structure Widens (P : Nat → List Nat → Prop) : Prop where
  mono : ∀ {size size' layers}, size ≤ size' → P size layers → P size' layers
  push : ∀ {size layers}, P size layers → P (size + 1) (size :: layers)

namespace Machine

theorem widens_isChain : Widens IsChain where
  mono hs h := ⟨h.ne_nil, h.descends, fun i hi => Nat.lt_of_lt_of_le (h.lt i hi) hs⟩
  push {size layers} h := by
    refine ⟨by simp, List.pairwise_cons.mpr ⟨h.lt, h.descends⟩, fun i hi => ?_⟩
    rcases List.mem_cons.mp hi with rfl | hi
    · exact Nat.lt_succ_self _
    · exact Nat.lt_succ_of_lt (h.lt i hi)

/-- A step above some work that writes through layers of some kind, and leaves work in such places. -/
structure Roams (P : Nat → List Nat → Prop) (m : Machine) (base : List Pending) (x : StepResult) :
    Prop where
  spreads : Spreads P m x.1
  turn : x.2.Lies (P x.1.layers.size) base

namespace Roams

variable {P : Nat → List Nat → Prop} {m n : Machine} {base : List Pending} {x : StepResult}

theorem go (h : Spreads P m n) {c : Control} (hc : Lies (P n.layers.size) c.place?) :
    Roams P m base (n, .go c base) :=
  ⟨h, hc, .refl _ _⟩

theorem answer (h : Spreads P m n) (a : Answer) : Roams P m base (n, .answer a base) :=
  go h (by simp [Lies, Control.place?])

theorem wait (h : Spreads P m n) (w : Wait) (on : List TaskId) (limit : Option Seconds) :
    Roams P m base (n, .wait w on limit base) :=
  ⟨h, .refl _ _⟩

theorem after (h : Spreads P m n) (k : Roams P n base x) : Roams P m base x :=
  ⟨h.trans k.spreads, k.turn⟩

theorem under (hP : Widens P) {k : Pending} (h : Roams P m (k :: base) x)
    (hk : Lies (P m.layers.size) k.place?) : Roams P m base x := by
  have hk : Lies (P x.1.layers.size) k.place? := fun q hq => hP.mono h.spreads.size_le (hk q hq)
  refine ⟨h.spreads, ?_⟩
  have ht := h.turn
  cases hx : x.2 with
  | go c p =>
    rw [hx] at ht
    exact ⟨ht.1, ht.2.under hk⟩
  | wait w on limit p =>
    rw [hx] at ht
    exact Above.under ht hk
  | pass p =>
    rw [hx] at ht
    exact Above.under ht hk
  | stop a =>
    rw [hx] at ht
    cases ht

/-- A step above work that is itself above other work. -/
theorem above (hP : Widens P) {p : List Pending} (h : Roams P m p x)
    (hp : Above (P m.layers.size) base p) : Roams P m base x := by
  have hp : Above (P x.1.layers.size) base p := hp.mono fun _ => hP.mono h.spreads.size_le
  refine ⟨h.spreads, ?_⟩
  have ht := h.turn
  cases hx : x.2 with
  | go c q =>
    rw [hx] at ht
    exact ⟨ht.1, hp.trans ht.2⟩
  | wait w on limit q =>
    rw [hx] at ht
    exact Above.trans hp ht
  | pass q =>
    rw [hx] at ht
    exact Above.trans hp ht
  | stop a =>
    rw [hx] at ht
    obtain ⟨ks, he, -⟩ := hp
    exact (List.append_eq_nil_iff.mp (he.symm.trans ht)).2

end Roams

theorem lies_some {P : List Nat → Prop} {place : Place} (h : P place.layers) :
    Lies P (some place) := by
  rintro q ⟨⟩
  exact h

theorem lies_none {P : List Nat → Prop} : Lies P none := by
  rintro q ⟨⟩

section functions

variable {P : Nat → List Nat → Prop} (hP : Widens P) (m : Machine) (env : Surroundings)
  (p : List Pending)

theorem call_roams (flow : Flow) {layers : List Nat} (node : Node) (shared : Bool)
    (h : P m.layers.size layers) : Roams P m p (m.call env flow layers node shared p) := by
  unfold call
  split
  · exact .answer (.refl m) _
  · exact ⟨.same rfl, lies_some h, [.frame _ _ _], rfl, by simp [Lies, Pending.place?]⟩

theorem rest_roams (seconds : Seconds) : Roams P m p (m.rest seconds p) := by
  unfold rest
  split
  · exact .answer (.refl m) _
  · exact .wait (.same (by rfl)) _ _ _

theorem sleep_roams (seconds : Seconds) : Roams P m p (m.sleep seconds p) := by
  unfold sleep
  split
  · exact .wait (.refl m) _ _ _
  · exact ⟨.refl m, .refl _ _⟩

include hP

/-- A body is carried out in a new layer. -/
theorem body_roams {flow : Flow} {place : Place} {node : Node} {shared : Bool} (l : Layer) {k : Pending}
    (h : P m.layers.size place.layers) (hk : k.place? = some place) :
    Roams P m p ((m.addLayer l place.layers).1.call env flow (m.addLayer l place.layers).2 node shared
      (k :: p)) := by
  have hs : (m.addLayer l place.layers).1.layers.size = m.layers.size + 1 := Array.size_push _
  have hn : P (m.addLayer l place.layers).1.layers.size (m.addLayer l place.layers).2 := by
    rw [hs]
    exact hP.push h
  refine .after (.addLayer m l place.layers) (.under hP (call_roams _ env _ _ _ _ hn) ?_)
  rw [hk, hs]
  exact lies_some (hP.mono (Nat.le_succ _) h)

theorem iterate_roams {loop : Loop} (bound iterations : Nat)
    (h : P m.layers.size loop.place.layers) :
    Roams P m p (m.iterate env loop bound iterations p) := by
  unfold iterate
  dsimp only
  split
  · exact .answer (.refl m) _
  · split
    · exact .answer (.refl m) _
    · split
      · exact .answer (.refl m) _
      · exact body_roams hP m env p _ h rfl

theorem nextItem_roams {loop : Loop} (itemName : String) (indexName : Option String) (index : Nat)
    (items : List Value) (h : P m.layers.size loop.place.layers) :
    Roams P m p (m.nextItem env loop itemName indexName index items p) := by
  unfold nextItem
  split
  · exact .answer (.refl m) _
  · split
    · exact .answer (.refl m) _
    · exact body_roams hP m env p _ h rfl

theorem startForeach_roams {place : Place} (node : Node) (h : P m.layers.size place.layers) :
    Roams P m p (m.startForeach env place node p) := by
  unfold startForeach
  dsimp only
  split
  · exact .answer (.refl m) _
  · split
    · exact .answer (.refl m) _
    · exact nextItem_roams hP m env p _ _ _ _ h

omit hP in
theorem startWhile_roams {place : Place} (node : Node) (h : P m.layers.size place.layers) :
    Roams P m p (m.startWhile env place node p) := by
  unfold startWhile
  dsimp only
  split
  · exact .answer (.refl m) _
  · split
    · exact .answer (.refl m) _
    · split
      · exact .answer (.refl m) _
      · exact .go (.refl m) (lies_some h)

omit hP in
theorem merge_spreads {layers : List Nat} (node : String) (values : Entries Value)
    (h : P m.layers.size layers) : Spreads P m (m.merge layers node values) :=
  (Spreads.write h values).trans (.same (by rfl))

omit hP in
theorem supply_roams {c : Collection} (h : P m.layers.size c.loop.place.layers) :
    Roams P m p (m.supply c p) := by
  unfold supply
  split
  · exact .go (.refl m) (lies_some h)
  · dsimp only
    split
    · exact .answer (.refl m) _
    · exact .answer (merge_spreads m _ _ h) _

theorem element_roams (self : TaskId) {c : Collection} {acts : List Act} (ha : ∀ a ∈ acts, a.IsRest)
    (item : Except HandlerFault Value) (h : P m.layers.size c.loop.place.layers) :
    Roams P m p (m.element env self c acts item p) := by
  unfold element
  split
  · exact .under hP (sleep_roams m _ _) (lies_some h)
  · exact absurd (ha _ List.mem_cons_self) id
  · exact absurd (ha _ List.mem_cons_self) id
  · split
    · exact .answer (.refl m) _
    · split
      · exact .answer (.refl m) _
      · exact body_roams hP m env p (k := .elements _) _ (show P _ c.loop.place.layers from h) rfl

omit hP in
theorem startElements_roams {a : Attempt} (h : P m.layers.size a.place.layers) :
    Roams P m p (m.startElements env a p) := by
  unfold startElements
  split
  · exact .answer (.refl m) _
  · split
    · exact .answer (.refl m) _
    · dsimp only
      split
      · exact .answer (.refl m) _
      · split
        · exact .answer (.refl m) _
        · split
          · exact .answer (.same (by rfl)) _
          · exact .go (.same (by rfl)) (lies_some h)

/-- A call within the caller's scope writes its arguments through it. -/
theorem invokeInline_roams {place : Place} (node : Node) (target : Flow) (args : Entries Value)
    (returns : Value) (h : P m.layers.size place.layers) :
    Roams P m p (m.invoke env place node target args true returns p fun _ p => p) := by
  let n := (m.addLayer { shared := true } place.layers).1
  have hs : n.layers.size = m.layers.size + 1 := Array.size_push _
  have hn : P n.layers.size (m.layers.size :: place.layers) := by
    rw [hs]
    exact hP.push h
  have written : (n.scope (m.layers.size :: place.layers)).Written
      ((target.vars.foldl (fun s e => if Scope.contains e.1 s then s else s.set e.1 e.2)
        (n.scope (m.layers.size :: place.layers))).update args) := by
    refine .trans (.foldl (fun s e => ?_) _ _) (.update _ args)
    split
    · exact .refl s
    · exact .set (.refl s) _ _
  unfold invoke
  rw [if_pos rfl]
  refine .after ((Spreads.addLayer m { shared := true } place.layers).trans
    (.put (.refl n) hn written rfl)) (.under hP (call_roams _ env _ _ _ _ ?_) (lies_some ?_))
  · rw [size_putScope]
    exact hn
  · rw [size_putScope, hs]
    exact hP.mono (Nat.le_succ _) h

theorem invoke_roams {place : Place} (node : Node) (target : Flow) (args : Entries Value)
    (inline : Bool) (returns : Value) (h : P m.layers.size place.layers) :
    Roams P m p (m.invoke env place node target args inline returns p fun _ p => p) := by
  cases inline with
  | true => exact invokeInline_roams hP m env p node target args returns h
  | false =>
    unfold invoke
    rw [if_neg (by simp)]
    exact body_roams hP m env p _ h rfl

theorem startExecuteFlow_roams {place : Place} (node : Node) (h : P m.layers.size place.layers) :
    Roams P m p (m.startExecuteFlow env place node p) := by
  unfold startExecuteFlow
  split
  · exact .answer (.refl m) _
  · split
    · exact .answer (.refl m) _
    · split
      · exact invoke_roams hP m env p _ _ _ _ _ h
      · exact .answer (.refl m) _

theorem startPrimitive_roams {a : Attempt} (h : P m.layers.size a.place.layers) :
    Roams P m p (m.startPrimitive env a p) := by
  unfold startPrimitive
  dsimp only
  split
  · exact .answer (.refl m) _
  · split
    · exact .answer (.refl m) _
    · split
      · exact .answer (.refl m) _
      · exact .under hP (k := .primitive a) (.wait (.same (by rfl)) _ _ _) (lies_some h)

theorem attempt_roams {a : Attempt} (h : P m.layers.size a.place.layers) :
    Roams P m p (m.attempt env a p) := by
  unfold attempt
  dsimp only
  have started {x} (hx : Roams P (m.emit "node.started" (startedPayload a.node a.number a.place.depth))
      (.attempt a env.now :: p) x) : Roams P m p x :=
    .after (.same (by rfl)) (.under hP hx (lies_some h))
  split
  · exact started (.answer (.refl _) _)
  · exact started (startForeach_roams hP _ env _ _ h)
  · exact started (startElements_roams _ env _ h)
  · exact started (startWhile_roams _ env _ _ h)
  · exact started (startExecuteFlow_roams hP _ env _ _ h)
  · exact started (startPrimitive_roams hP _ env _ h)

omit hP in
theorem enter_roams {place : Place} (frame : Nat) (h : P m.layers.size place.layers) :
    Roams P m p (m.enter place frame p) := by
  unfold enter
  dsimp only
  split
  · exact .answer (.refl m) _
  · split
    · exact .go (.refl m) (lies_some h)
    · exact .answer (.refl m) _

theorem next_roams (self : TaskId) {walk : Walk} (node : Option Node)
    (h : P m.layers.size walk.place.layers) : Roams P m p (m.next env self walk node p) := by
  have kept (m : Machine) (node : Node) : (m.takePause node).1.layers = m.layers := by
    unfold takePause
    split
    · rfl
    · split
      · rfl
      · split
        · rfl
        · split <;> rfl
  unfold next
  split
  · exact .answer (.refl m) _
  · split
    · exact .answer (.refl m) _
    · split
      · exact .answer (.refl m) _
      · rename_i node _ _
        have hk : ((m.arrive walk.frame node.id).takePause node).1.layers = m.layers := kept _ _
        dsimp only
        generalize (m.arrive walk.frame node.id).takePause node = r at hk ⊢
        obtain ⟨n, reason⟩ := r
        have hn : P n.layers.size walk.place.layers := by
          rw [show n.layers = m.layers from hk]
          exact h
        cases reason with
        | none => exact .go (.same hk) (lies_some hn)
        | some reason =>
          exact .after (.same hk) (.under hP (k := .checkpoint _ _) (.wait (.same (by rfl)) _ _ _)
            (lies_some hn))

theorem dispatch_roams {walk : Walk} (node : Node) (h : P m.layers.size walk.place.layers) :
    Roams P m p (m.dispatch env walk node p) := by
  unfold dispatch
  dsimp only
  split
  · exact .answer (.refl m) _
  · split
    · exact .under hP (k := .visit walk node) (.answer (.same (by rfl)) _) (lies_some h)
    · split
      · exact .under hP (k := .visit walk node) (.go (.refl m) (lies_some h)) (lies_some h)
      · split
        · exact .under hP (k := .visit walk node) (.answer (.same (by rfl)) _) (lies_some h)
        · exact .under hP (k := .visit walk node) (.answer (.same (by rfl)) _) (lies_some h)
        · exact .under hP (k := .visit walk node) (.answer (.refl m) _) (lies_some h)

theorem afterFailure_roams {a : Attempt} (since : Seconds) (e : ErrorInfo)
    (h : P m.layers.size a.place.layers) : Roams P m p (m.afterFailure env a since e p) := by
  unfold afterFailure
  dsimp only
  split
  · split
    · exact .after (.same (by rfl)) (.under hP (k := .backoff a) (rest_roams _ _ _) (lies_some h))
    · exact .answer (.same (by rfl)) _
  · exact .answer (.same (by rfl)) _
  · exact .answer (.same (by rfl)) _
  · exact .answer (.same (by rfl)) _

theorem afterAttempt_roams {a : Attempt} (since : Seconds) (o : Outcome)
    (h : P m.layers.size a.place.layers) : Roams P m p (m.afterAttempt env a since o p) := by
  unfold afterAttempt
  split
  · exact .answer (.same (by rfl)) _
  · exact .answer (.same (by rfl)) _
  · exact afterFailure_roams hP m env p since _ h

omit hP in
theorem writeReturns_spreads {place : Place} (node : Node) (child : List Nat) (returns : Value)
    (h : P m.layers.size place.layers) : Spreads P m (m.writeReturns place node child returns) := by
  unfold writeReturns
  dsimp only
  split
  · exact .refl m
  · exact merge_spreads m _ _ h

omit hP in
theorem afterVisit_roams {walk : Walk} (node : Node) (o : Outcome)
    (h : P m.layers.size walk.place.layers) : Roams P m p (m, afterVisit walk node o p) := by
  unfold afterVisit
  split
  · exact .go (.refl m) (lies_some h)
  · exact .answer (.refl m) _
  · exact .answer (.refl m) _

omit hP in
theorem primitive_roams {a : Attempt} (r : HandlerResult) (h : P m.layers.size a.place.layers) :
    Roams P m p (m.resume env (.primitive a) (.handled r) p) := by
  cases r with
  | failure e => exact .answer (.refl m) _
  | success values =>
    refine .answer ?_ _
    split
    · exact .refl m
    · exact merge_spreads m _ _ h

omit hP in
theorem slot_roams (held : Bool) (a : Answer) : Roams P m p (m.resume env (.slot held) a p) := by
  have given : (if held then m.effect .giveSlotBack else m).layers = m.layers := by
    split <;> rfl
  unfold resume
  dsimp only
  split
  · exact .answer (.same given) _
  · exact .answer (.same given) _
  · exact .answer (.same (n := (if held then m.effect .giveSlotBack else m).effect .prune) given) _

omit hP in
theorem execution_roams (a : Answer) : Roams P m p (m.resume env .execution a p) := by
  have halted : (m.cancelToken (some "task_cancelled")).layers = m.layers :=
    (cancelToken_silent m _).mute.layers
  cases a with
  | outcome o => exact .answer (.same (finalize_layers _ _ _)) _
  | thrown f => exact .answer (.same (finalize_layers _ _ _)) _
  | interrupted =>
    exact .answer (.same ((finalize_layers _ _ _).trans halted)) _
  | _ => exact .answer (.refl m) _

/-- What is done about an answer is done where the work is carried out that waited for it. -/
theorem resume_roams {k : Pending} (hk : Lies (P m.layers.size) k.place?) (a : Answer) :
    Roams P m p (m.resume env k a p) := by
  have passed : Roams P m p (m, .answer a p) := .answer (.refl m) a
  cases k with
  | slot held => exact slot_roams m env p held a
  | execution => exact execution_roams m env p a
  | checkpoint walk node =>
    cases a with
    | done => exact .go (.refl m) hk
    | _ => exact passed
  | visit walk node =>
    cases a with
    | outcome o => exact afterVisit_roams m p node o (hk _ rfl)
    | _ => exact passed
  | attempt b since =>
    cases a with
    | outcome o => exact afterAttempt_roams hP m env p since o (hk _ rfl)
    | _ => exact passed
  | backoff b =>
    cases a with
    | rested cutShort =>
      unfold resume
      dsimp only
      split
      · exact .answer (.refl m) _
      · exact .go (.refl m) (lies_some (hk _ rfl))
    | _ => exact passed
  | primitive b =>
    cases a with
    | handled r => exact primitive_roams m env p r (hk _ rfl)
    | _ => exact passed
  | frame key flow node => cases a <;> exact .answer (.same (by rfl)) _
  | foreach loop itemName indexName index rest =>
    cases a with
    | outcome o =>
      cases o with
      | completed l => exact nextItem_roams hP m env p _ _ _ _ (hk _ rfl)
      | _ => exact passed
    | _ => exact passed
  | «while» loop bound iterations =>
    cases a with
    | outcome o =>
      cases o with
      | completed l => exact .go (.refl m) hk
      | _ => exact passed
    | _ => exact passed
  | element c acts item =>
    cases a with
    | rested cutShort => exact .go (.refl m) hk
    | _ => exact passed
  | elements c =>
    cases a with
    | outcome o =>
      cases o with
      | completed l => exact .go (.refl m) hk
      | _ => exact passed
    | thrown f => exact .answer (.refl m) _
    | _ => exact passed
  | invocation place node child returns =>
    cases returns with
    | none => cases a <;> exact passed
    | some returns =>
      cases a with
      | outcome o =>
        cases o with
        | completed l => exact .answer (writeReturns_spreads m node child returns (hk _ rfl)) _
        | _ => exact passed
      | _ => exact passed
  | subexecution child => cases a <;> exact .answer (.refl m) _
  | plan c acts finish =>
    cases a with
    | rested cutShort => exact .go (.refl m) lies_none
    | _ => exact passed
  | saving saveAs => cases a <;> exact .answer (.refl m) _
  | rest => cases a <;> exact .answer (.refl m) _

end functions

/-- A step within a walk, answers apart. -/
theorem walk_roams {P : Nat → List Nat → Prop} (hP : Widens P) {m : Machine} {c : Control}
    {p : List Pending} (w : World) (now : Moment) (t : TaskId) (hw : c.IsWalk)
    (ha : ∀ a, c ≠ .answer a) (hc : Lies (P m.layers.size) c.place?) :
    Roams P m p (m.step (w.surroundings now) t c p) := by
  cases c with
  | enter place frame => exact enter_roams m p frame (hc _ rfl)
  | next walk node => exact next_roams hP m _ p t node (hc _ rfl)
  | dispatch walk node => exact dispatch_roams hP m _ p node (hc _ rfl)
  | «try» a => exact attempt_roams hP m _ p (hc _ rfl)
  | iterate loop bound iterations => exact iterate_roams hP m _ p bound iterations (hc _ rfl)
  | supply d => exact supply_roams m p (hc _ rfl)
  | element d acts item => exact element_roams hP m _ p t hw.2 item (hc _ rfl)
  | answer a => exact absurd rfl (ha a)
  | _ => exact absurd hw id

theorem enqueue_roams {P : Nat → List Nat → Prop} (m : Machine) : Roams P m [] (m.enqueue []) := by
  unfold enqueue
  split
  · exact ⟨.refl m, lies_none, [.slot false], rfl, by simp [Lies, Pending.place?]⟩
  · exact .wait (.same (by rfl)) _ _ _

theorem execute_roams {P : Nat → List Nat → Prop} (m : Machine) (env : Surroundings)
    (p : List Pending) (h : P m.layers.size rootLayers) : Roams P m p (m.execute env p) := by
  unfold execute
  split
  · exact .answer (.refl m) _
  · split
    · exact .answer (.same (finalize_layers _ _ _)) _
    · exact ⟨.same rfl, lies_some h, [.execution], rfl, by simp [Lies, Pending.place?]⟩

/-- The walker writes in the places that it stands in, whatever stage it is in. -/
theorem Stands.roams {P : Nat → List Nat → Prop} (hP : Widens P) {roles : List Role} {m : Machine}
    {c : Control} {p base : List Pending} (h : Stands m c p) (hf : m.Fitting roles) (w : World)
    (now : Moment) (t : TaskId) (hs : c.Suits roles .walker p)
    (hc : Lies (P m.layers.size) c.place?) (hp : Above (P m.layers.size) base p)
    (hroot : IsBottom p → P m.layers.size rootLayers)
    (hb : base ≠ [] → ∀ a, c = .answer a → p ≠ base) :
    Roams P m base (m.step (w.surroundings now) t c p) := by
  have answered (a : Answer) (ha : c = .answer a) :
      Roams P m base (m.step (w.surroundings now) t (.answer a) p) := by
    obtain ⟨ks, rfl, hk⟩ := hp
    cases ks with
    | nil =>
      cases base with
      | nil => exact ⟨.refl m, rfl⟩
      | cons k base => exact absurd rfl (hb (by simp) a ha)
    | cons k ks =>
      refine .above hP (p := ks ++ base) ?_ ⟨ks, rfl, fun l hl => hk l (List.mem_cons_of_mem _ hl)⟩
      exact resume_roams hP m (w.surroundings now) _ (hk k List.mem_cons_self) a
  have lifted {x} (hx : Roams P m p x) : Roams P m base x := hx.above hP hp
  cases h with
  | enqueue h => exact lifted (enqueue_roams m)
  | start h u v s i =>
    cases hs.2 rfl
    obtain ⟨n, held, he, ha⟩ := wakeFromStart_aside (p := []) t hf (w.surroundings now) s
      hs.1.1 hs.1.2
    show Roams P m base (m.wake (w.surroundings now) t (.start u v) s false [])
    rw [he]
    exact lifted ⟨.same ha.silent.mute.layers, lies_none, [.slot held], rfl,
      by simp [Lies, Pending.place?]⟩
  | execute h hp => exact lifted (execute_roams m _ p (hroot hp))
  | walk h hu hw hm hl =>
    by_cases ha : ∃ a, c = .answer a
    · obtain ⟨a, rfl⟩ := ha
      exact answered a rfl
    · exact lifted (walk_roams hP w now t hw (fun a he => ha ⟨a, he⟩) hc)
  | wake h hu hw hm s i =>
    have hstart : ∀ u v, ‹Wait› ≠ .start u v := by
      rintro u v rfl
      exact hw
    obtain ⟨ha, ht⟩ := wake_aside t hf (w.surroundings now) s hs.1 hs.2 (fun _ => hm) hstart
    refine lifted ⟨.same ha.silent.mute.layers, ?_⟩
    show (m.wake (w.surroundings now) t _ s i p).2.Lies _ p
    generalize (m.wake (w.surroundings now) t _ s i p).2 = turn at ht ⊢
    cases ht with
    | answer a => exact ⟨lies_none, .refl _ _⟩
    | wait v on limit => exact Above.refl _ _
  | resume h hu hm s i => exact lifted (.answer (.refl m) _)
  | back h hu hm => exact answered _ rfl
  | refuse h hu walk node => exact lifted (dispatch_roams hP m _ p node (hc _ rfl))
  | unwind h hu => exact answered _ rfl
  | ended h hp a => exact answered a rfl

end Machine

end Workflow
