import Workflow.Proofs.Run.Gist
/-!
What a run tells of itself as it goes along its course. But for the times that are told, its events are
determined by what determines the course.
-/

namespace Workflow

/-- An event without the time that something took. -/
def undated (event : String × Entries Value) : String × Entries Value :=
  (event.1, Entries.erase "tookMs" event.2)

/-- It makes no difference how long something took. -/
theorem undated_took (type : String) {before : Entries Value} (h : ∀ x ∈ before, x.1 ≠ "tookMs")
    (v v' : Value) (after : Entries Value) :
    undated (type, before ++ ("tookMs", v) :: after) = undated (type, before ++ ("tookMs", v') :: after) := by
  have erased (v : Value) : Entries.erase "tookMs" (before ++ ("tookMs", v) :: after) = before ++ after := by
    induction before with
    | nil => exact if_pos (beq_self_eq_true _)
    | cons x before ih =>
      have hx : ¬ (x.1 == "tookMs") = true := by
        rw [beq_iff_eq]
        exact h x List.mem_cons_self
      exact (if_neg hx).trans (congrArg (x :: ·) (ih fun y hy => h y (List.mem_cons_of_mem _ hy)))
  exact congrArg (type, ·) ((erased v).trans (erased v').symm)

namespace Effect

def told? (e : Effect) : Option (String × Entries Value) :=
  e.event?.map undated

theorem IsMute.told? {e : Effect} (h : e.IsMute) : e.told? = none := by
  rw [Effect.told?, h]
  rfl

end Effect

/-- What is told by effects, the newest first. -/
def heard (es : List Effect) : List (String × Entries Value) :=
  es.filterMap Effect.told?

theorem heard_append (es fs : List Effect) : heard (es ++ fs) = heard es ++ heard fs :=
  List.filterMap_append

theorem heard_mute {es : List Effect} (h : ∀ e ∈ es, e.IsMute) : heard es = [] :=
  List.filterMap_eq_nil_iff.mpr fun e he => (h e he).told?

namespace Machine

variable {m n o m' n' : Machine} {e f : Surroundings} {p q : List Pending} {t u : TaskId}

/-- Some events have been told since. -/
def Utters (es : List (String × Entries Value)) (m n : Machine) : Prop :=
  ∃ d, n.effects = d ++ m.effects ∧ heard d = es

/-- Nothing has been told since. -/
abbrev Hushes (m n : Machine) : Prop :=
  Utters [] m n

namespace Utters

variable {es fs : List (String × Entries Value)}

theorem trans (h : Utters es m n) (k : Utters fs n o) : Utters (fs ++ es) m o := by
  obtain ⟨d, hd, rfl⟩ := h
  obtain ⟨c, hc, rfl⟩ := k
  exact ⟨c ++ d, by rw [hc, hd, List.append_assoc], heard_append c d⟩

end Utters

namespace Hushes

theorem of_adds (h : Adds Effect.IsMute m n) : Hushes m n := by
  obtain ⟨d, hd, hm⟩ := h
  exact ⟨d, hd, heard_mute hm⟩

theorem of_mute (h : Mute m n) : Hushes m n :=
  of_adds h.adds

theorem same (h : n.effects = m.effects) : Hushes m n :=
  ⟨[], h, rfl⟩

theorem refl (m : Machine) : Hushes m m :=
  same rfl

theorem effect (m : Machine) {x : Effect} (h : x.IsMute) : Hushes m (m.effect x) :=
  of_adds (.effect m h)

theorem spawn (m : Machine) (c : Control) : Hushes m (m.spawn c []).1 :=
  of_mute (Silent.spawn m c []).mute

theorem after (h : Hushes m n) (k : Hushes n o) : Hushes m o :=
  Utters.trans h k

end Hushes

/-- Two runs have told the same. -/
def Echoes (m n m' n' : Machine) : Prop :=
  ∃ es, Utters es m m' ∧ Utters es n n'

namespace Echoes

theorem trans {m'' n'' : Machine} (h : Echoes m n m' n') (k : Echoes m' n' m'' n'') :
    Echoes m n m'' n'' := by
  obtain ⟨es, hm, hn⟩ := h
  obtain ⟨fs, km, kn⟩ := k
  exact ⟨_, hm.trans km, hn.trans kn⟩

theorem hush (h : Hushes m m') (k : Hushes n n') : Echoes m n m' n' :=
  ⟨[], h, k⟩

theorem refl (m n : Machine) : Echoes m n m n :=
  hush (.refl m) (.refl n)

theorem emit {type : String} {payload payload' : Entries Value}
    (h : undated (type, payload) = undated (type, payload')) :
    Echoes m n (m.emit type payload) (n.emit type payload') :=
  ⟨[undated (type, payload)], ⟨[_], rfl, rfl⟩, ⟨[_], rfl, congrArg (fun x => [x]) h.symm⟩⟩

theorem merge (layers : List Nat) (node : String) (values : Entries Value) :
    Echoes m n (m.merge layers node values) (n.merge layers node values) :=
  .trans (hush (.same rfl) (.same rfl)) (.emit rfl)

/-- It makes no difference how long it took. -/
theorem took (type : String) (before : Entries Value) (h : ∀ x ∈ before, x.1 ≠ "tookMs") (v v' : Value)
    (after : Entries Value) :
    Echoes m n (m.emit type (before ++ ("tookMs", v) :: after))
      (n.emit type (before ++ ("tookMs", v') :: after)) :=
  .emit (undated_took type h v v' after)

theorem trace (x y : TraceEntry) : Echoes m n (m.trace e x) (n.trace f y) :=
  hush (.same rfl) (.same rfl)

end Echoes

/-! Steps that tell nothing. -/

section

variable (m) (p) (e)

theorem call_hushes (flow : Flow) (layers : List Nat) (node : Node) (shared : Bool) :
    Hushes m (m.call e flow layers node shared p).1 := by
  unfold call
  split <;> exact .same rfl

theorem rest_hushes (seconds : Seconds) : Hushes m (m.rest seconds p).1 := by
  unfold rest
  split
  · exact .refl m
  · exact .spawn m _

theorem sleep_hushes (seconds : Seconds) : Hushes m (m.sleep seconds p).1 := by
  unfold sleep
  split <;> exact .refl m

theorem body_hushes (l : Layer) (layers : List Nat) (flow : Flow) (node : Node) (shared : Bool) :
    Hushes m ((m.addLayer l layers).1.call e flow (m.addLayer l layers).2 node shared p).1 :=
  .after (.same rfl) (call_hushes (m.addLayer l layers).1 e p _ _ _ _)

theorem iterate_hushes (loop : Loop) (bound iterations : Nat) :
    Hushes m (m.iterate e loop bound iterations p).1 := by
  unfold iterate
  dsimp only
  split
  · exact .refl m
  · split
    · exact .refl m
    · split
      · exact .refl m
      · exact body_hushes m e _ _ _ _ _ _

theorem nextItem_hushes (loop : Loop) (itemName : String) (indexName : Option String) (index : Nat)
    (items : List Value) : Hushes m (m.nextItem e loop itemName indexName index items p).1 := by
  unfold nextItem
  split
  · exact .refl m
  · split
    · exact .refl m
    · exact body_hushes m e _ _ _ _ _ _

theorem startForeach_hushes (place : Place) (node : Node) :
    Hushes m (m.startForeach e place node p).1 := by
  unfold startForeach
  dsimp only
  split
  · exact .refl m
  · split
    · exact .refl m
    · exact nextItem_hushes m e p _ _ _ _ _

theorem startWhile_hushes (place : Place) (node : Node) :
    Hushes m (m.startWhile e place node p).1 := by
  unfold startWhile
  dsimp only
  split
  · exact .refl m
  · split
    · exact .refl m
    · split <;> exact .refl m

theorem element_hushes (self : TaskId) (c : Collection) {acts : List Act} (ha : ∀ a ∈ acts, a.IsRest)
    (item : Except HandlerFault Value) : Hushes m (m.element e self c acts item p).1 := by
  unfold element
  split
  · exact sleep_hushes m _ _
  · exact absurd (ha _ List.mem_cons_self) id
  · exact absurd (ha _ List.mem_cons_self) id
  · split
    · exact .refl m
    · split
      · exact .refl m
      · exact body_hushes m e _ _ _ _ _ _

theorem startElements_hushes (a : Attempt) : Hushes m (m.startElements e a p).1 := by
  unfold startElements
  split
  · exact .refl m
  · split
    · exact .refl m
    · dsimp only
      split
      · exact .refl m
      · split
        · exact .refl m
        · split <;> exact .effect m rfl

theorem invoke_hushes (place : Place) (node : Node) (target : Flow) (args : Entries Value)
    (inline : Bool) (returns : Value) :
    Hushes m (m.invoke e place node target args inline returns p fun _ p => p).1 := by
  unfold invoke
  split
  · exact .after (.same rfl) (call_hushes _ e _ _ _ _ _)
  · exact body_hushes m e _ _ _ _ _ _

theorem startExecuteFlow_hushes (place : Place) (node : Node) :
    Hushes m (m.startExecuteFlow e place node p).1 := by
  unfold startExecuteFlow
  split
  · exact .refl m
  · split
    · exact .refl m
    · split
      · exact invoke_hushes m e p _ _ _ _ _ _
      · exact .refl m

theorem startPrimitive_hushes (a : Attempt) : Hushes m (m.startPrimitive e a p).1 := by
  unfold startPrimitive
  dsimp only
  split
  · exact .refl m
  · split
    · exact .refl m
    · split
      · exact .refl m
      · exact .after (.spawn m _) (.spawn _ _)

theorem enter_hushes (place : Place) (frame : Nat) : Hushes m (m.enter place frame p).1 := by
  unfold enter
  dsimp only
  split
  · exact .refl m
  · split <;> exact .refl m

theorem cancelToken_hushes (reason : Option String) : Hushes m (m.cancelToken reason) := by
  obtain ⟨d, hd, hm⟩ := (cancelToken_silent m reason).mute.adds
  exact ⟨d, hd, heard_mute hm⟩

/-- A node is come to without a word, or the run pauses. -/
theorem next_hushes (self : TaskId) (walk : Walk) (node : Option Node) :
    Hushes m (m.next e self walk node p).1 ∨ (m.next e self walk node p).1.run.status = .paused := by
  unfold next
  split
  · exact .inl (.refl m)
  · split
    · exact .inl (.refl m)
    · split
      · exact .inl (.refl m)
      · dsimp only
        rename_i node _ _
        rcases takePause_cases (m.arrive walk.frame node.id) node with h | ⟨k, reason, h, -⟩
        · rw [h]
          exact .inl (.same rfl)
        · rw [h]
          exact .inr rfl

/-- A run of which no pause is asked comes to a node without a word. -/
theorem gist_next_hushes (self : TaskId) (walk : Walk) (node : Option Node) :
    Hushes m.gist (m.gist.next e self walk node p).1 := by
  unfold next
  split
  · exact .refl _
  · split
    · exact .refl _
    · split
      · exact .refl _
      · exact .same rfl

theorem attempt_echoes (a : Attempt) : Echoes m n (m.attempt e a p).1 (n.attempt f a q).1 := by
  have started {x y : Machine}
      (hx : Hushes (m.emit "node.started" (startedPayload a.node a.number a.place.depth)) x)
      (hy : Hushes (n.emit "node.started" (startedPayload a.node a.number a.place.depth)) y) :
      Echoes m n x y :=
    .trans (.emit rfl) (.hush hx hy)
  unfold attempt
  dsimp only
  split
  · exact started (.refl _) (.refl _)
  · exact started (startForeach_hushes _ e _ _ _) (startForeach_hushes _ f _ _ _)
  · exact started (startElements_hushes _ e _ _) (startElements_hushes _ f _ _)
  · exact started (startWhile_hushes _ e _ _ _) (startWhile_hushes _ f _ _ _)
  · exact started (startExecuteFlow_hushes _ e _ _ _) (startExecuteFlow_hushes _ f _ _ _)
  · exact started (startPrimitive_hushes _ e _ _) (startPrimitive_hushes _ f _ _)

theorem supply_echoes (c : Collection) : Echoes m n (m.supply c p).1 (n.supply c q).1 := by
  unfold supply
  split
  · exact .refl m n
  · dsimp only
    split
    · exact .refl m n
    · exact .merge _ _ _

theorem afterFailure_echoes (a : Attempt) (since since' : Seconds) (x : ErrorInfo) :
    Echoes m n (m.afterFailure e a since x p).1 (n.afterFailure f a since' x q).1 := by
  have failed (y z : TraceEntry) (v v' : Value) : Echoes m n
      ((m.trace e y).emit "node.failed" ([("nodeId", .str a.node.id), ("attempt", .nat a.number),
        ("error", x.toValue), ("decision", .str (Decision.make a x).text)] ++
          ("tookMs", v) :: [("depth", .nat a.place.depth)]))
      ((n.trace f z).emit "node.failed" ([("nodeId", .str a.node.id), ("attempt", .nat a.number),
        ("error", x.toValue), ("decision", .str (Decision.make a x).text)] ++
          ("tookMs", v') :: [("depth", .nat a.place.depth)])) :=
    (Echoes.trace y z).trans (.took _ _ (by simp) v v' _)
  unfold afterFailure
  dsimp only
  split
  · split
    · exact (failed _ _ _ _).trans (.hush (rest_hushes _ _ _) (rest_hushes _ _ _))
    · exact failed _ _ _ _
  · exact failed _ _ _ _
  · exact failed _ _ _ _
  · exact failed _ _ _ _

theorem afterAttempt_echoes (a : Attempt) (since since' : Seconds) (o : Outcome) :
    Echoes m n (m.afterAttempt e a since o p).1 (n.afterAttempt f a since' o q).1 := by
  unfold afterAttempt
  split
  · exact .trace _ _
  · exact (Echoes.trace _ _).trans (.took "node.completed" [("nodeId", .str a.node.id),
      ("label", .ofText? _), ("attempt", .nat a.number)] (by simp) _ _ _)
  · exact afterFailure_echoes m e p _ _ _ _

theorem primitive_echoes (a : Attempt) (r : HandlerResult) :
    Echoes m n (m.resume e (.primitive a) (.handled r) p).1
      (n.resume f (.primitive a) (.handled r) q).1 := by
  cases r with
  | failure x => exact .refl m n
  | success values =>
    unfold resume
    dsimp only
    split
    · exact .refl m n
    · exact .merge _ _ _

end

/-! Steps that tell of variables, of settings, or of how the run stands. -/

section

variable (h : m.gist = n.gist)

include h

theorem writeReturns_echoes (place : Place) (node : Node) (child : List Nat) (returns : Value) :
    Echoes m n (m.writeReturns place node child returns) (n.writeReturns place node child returns) := by
  unfold writeReturns
  rw [scope_of_gist h]
  dsimp only
  split
  · exact .refl m n
  · exact .merge _ _ _

theorem finalize_echoes (stamp stamp' : Instant) (o : Outcome) :
    Echoes m n (m.finalize stamp o) (n.finalize stamp' o) := by
  have still (x : Machine) : Hushes x x.endPause :=
    (Hushes.same rfl).after (o := x.endPause) (.of_mute (m := { x with paused := [] }) (Silent.endPause x).mute)
  have ended {x y : Machine} (h : Echoes m n x y) : Echoes m n x.endPause y.endPause :=
    h.trans (.hush (still x) (still y))
  have said {run run' : Run} (type : String) (before : Entries Value) (w w' : Value)
      (hb : ∀ x ∈ before, x.1 ≠ "tookMs") :
      Echoes m n (({ m with run } : Machine).emit type (before ++ [("tookMs", w)]))
        (({ n with run := run' } : Machine).emit type (before ++ [("tookMs", w')])) :=
    .trans (.hush (.same rfl) (.same rfl)) (.took type before hb _ _ _)
  unfold finalize
  rw [isTerminal_of_gist h, scope_of_gist h]
  split
  · exact .refl m n
  · dsimp only
    rw [token_of_gist h]
    refine ended ?_
    split
    · exact said _ [("reason", _)] _ _ (by simp)
    · split
      · exact said _ [("reason", _)] _ _ (by simp)
      · exact said _ [("nodeId", _), ("error", _)] _ _ (by simp)
      · exact said _ [("outputs", _)] _ _ (by simp)

theorem execute_echoes : Echoes m n (m.execute e p).1 (n.execute f q).1 := by
  have hs : (m.run.status != .pending) = (n.run.status != .pending) := by
    rw [Bool.eq_iff_iff, bne_iff_ne, bne_iff_ne, ne_eq, ne_eq, ← Status.unpaused_eq_pending,
      unpaused_of_gist h, Status.unpaused_eq_pending]
  unfold execute
  rw [hs, token_of_gist h, flow_of_gist h]
  split
  · exact .refl m n
  · split
    · exact finalize_echoes h _ _ _
    · have began (x : Machine) (env : Surroundings) (type : String) (payload : Entries Value) :
          Utters [undated (type, payload)] x
            ({ x with run := { x.run with status := .running, startedAt := some env.stamp } }.emit type
              payload) := ⟨[_], rfl, rfl⟩
      exact ⟨_, began m e _ _, began n f _ _⟩

theorem dispatch_echoes (he : e.Alike f) (walk : Walk) (node : Node) :
    Echoes m n (m.dispatch e walk node p).1 (n.dispatch f walk node q).1 := by
  unfold dispatch
  rw [token_of_gist h, he.settings]
  dsimp only
  split
  · exact .refl m n
  · split
    · exact (Echoes.emit rfl).trans (.trace _ _)
    · split
      · exact .refl m n
      · split
        · exact ((Echoes.emit rfl).trans (.trace _ _)).trans (.emit rfl)
        · exact ((Echoes.emit rfl).trans (.trace _ _)).trans (.emit rfl)
        · exact .refl m n

/-- Work that waits tells the same about an answer, whatever is left out of its gist. -/
theorem resume_echoes {k l : Pending} (hk : k.gist? = some l) (a : Answer) :
    Echoes m n (m.resume e k a p).1 (n.resume f l a q).1 := by
  have still {x y : Machine} (hx : x.effects = m.effects) (hy : y.effects = n.effects) :
      Echoes m n x y := .hush (.same hx) (.same hy)
  cases k with
  | slot held => cases hk
  | attempt b since =>
    cases hk
    cases a with
    | outcome o => exact afterAttempt_echoes m e p _ _ _ _
    | _ => exact .refl m n
  | execution =>
    cases hk
    cases a with
    | outcome o => exact finalize_echoes h _ _ _
    | thrown x => exact finalize_echoes h _ _ _
    | interrupted =>
      exact .trans (.hush (cancelToken_hushes m _) (cancelToken_hushes n _))
        (finalize_echoes (gist_cancelToken h _) _ _ _)
    | _ => exact .refl m n
  | primitive b =>
    cases hk
    cases a with
    | handled r => exact primitive_echoes m e p _ _
    | _ => exact .refl m n
  | backoff b =>
    cases hk
    cases a with
    | rested cutShort =>
      unfold resume
      dsimp only
      rw [token_of_gist h]
      split <;> exact .refl m n
    | _ => exact .refl m n
  | frame key flow node =>
    cases hk
    cases a <;> exact still rfl rfl
  | foreach loop itemName indexName index rest =>
    cases hk
    cases a with
    | outcome o =>
      cases o with
      | completed l => exact .hush (nextItem_hushes m e p _ _ _ _ _) (nextItem_hushes n f q _ _ _ _ _)
      | _ => exact .refl m n
    | _ => exact .refl m n
  | invocation place node child returns =>
    cases hk
    cases a with
    | outcome o =>
      cases o with
      | completed l =>
        cases returns with
        | some v => exact writeReturns_echoes h _ _ _ _
        | none => exact .refl m n
      | _ => cases returns <;> exact .refl m n
    | _ => cases returns <;> exact .refl m n
  | visit walk node =>
    cases hk
    cases a with
    | outcome o => exact .refl m n
    | _ => exact .refl m n
  | elements c =>
    cases hk
    cases a with
    | outcome o => cases o <;> exact .refl m n
    | _ => exact .refl m n
  | «while» loop bound iterations =>
    cases hk
    cases a with
    | outcome o => cases o <;> exact .refl m n
    | _ => exact .refl m n
  | _ =>
    cases hk
    cases a <;> exact .refl m n

end

/-- A step of the walk, with no answer to be handed on, tells the same, or the run pauses with it. -/
theorem walk_echoes (h : m.gist = n.gist) (he : e.Alike f) {c : Control} (hc : c.IsWalk)
    (ha : ∀ a, c ≠ .answer a) :
    Echoes m n.gist (m.step e t c p).1 (n.gist.step f u c q).1 ∨
      (m.step e t c p).1.run.status = .paused := by
  have h : m.gist = n.gist.gist := h.trans n.gist_gist.symm
  cases c with
  | enter place frame => exact .inl (.hush (enter_hushes m p _ _) (enter_hushes n.gist q _ _))
  | next walk node =>
    exact (next_hushes m e p t walk node).imp_left fun hm => .hush hm (gist_next_hushes n f q u walk node)
  | dispatch walk node => exact .inl (dispatch_echoes h he _ _)
  | «try» a => exact .inl (attempt_echoes m e p _)
  | iterate loop bound iterations =>
    exact .inl (.hush (iterate_hushes m e p _ _ _) (iterate_hushes n.gist f q _ _ _))
  | supply c => exact .inl (supply_echoes m p _)
  | element c acts item =>
    exact .inl (.hush (element_hushes m e p t _ hc.2 _) (element_hushes n.gist f q u _ hc.2 _))
  | answer a => exact absurd rfl (ha a)
  | _ => exact absurd hc id

end Machine

end Workflow
