import Workflow.Proofs.Run.Sign
/-!
What a node does that carries out a body again and again. The node's attempt is followed along the steps of the
task that makes it, whatever else happens to the run between them: each check of a condition is noted, each
body run as it begins, what comes of it, and what comes of the attempt in the end.
-/

namespace Workflow

/-- A task goes on at the entry of a flow, if there, with more work than some other work, and it goes on to
execute the run only if it may. -/
def Turn.Deepens (starts : Prop) (base : List Pending) : Turn → Prop
  | .go (.enter _ _) q => base.length < q.length
  | .go .enqueue _ | .go .execute _ | .go (.wake (.start _ _) _ _) _ | .wait (.start _ _) _ _ _ => starts
  | _ => True

theorem Turn.Deepens.isInner {starts : Prop} {base q : List Pending} {x : Turn} {d : Control}
    (h : x.Deepens starts base) (hs : ¬ starts) (hd : x.post = .doing d q) : d.IsInner := by
  cases x with
  | go c p =>
    cases hd
    cases d with
    | wake w s i => cases w <;> trivial
    | _ => trivial
  | wait w on limit p => cases hd; cases w <;> trivial
  | pass p => cases hd; trivial
  | stop a => cases hd

namespace Machine

variable {starts : Prop} {base : List Pending}

section functions

variable (m : Machine) (env : Surroundings) (self : TaskId) (p : List Pending)

theorem call_deepens (flow : Flow) (layers : List Nat) (node : Node) (shared : Bool) {q : List Pending}
    (h : base.length ≤ q.length) : (m.call env flow layers node shared q).2.Deepens starts base := by
  unfold call
  split
  · trivial
  · exact Nat.lt_succ_of_le h

theorem rest_deepens (seconds : Seconds) : (m.rest seconds p).2.Deepens starts base := by
  unfold rest
  split <;> trivial

theorem sleep_deepens (seconds : Seconds) : (m.sleep seconds p).2.Deepens starts base := by
  unfold sleep
  split <;> trivial

theorem watch_deepens : (m.watch self p).2.Deepens starts base := by
  unfold watch
  split <;> trivial

theorem iterate_deepens (loop : Loop) (bound iterations : Nat) :
    (m.iterate env loop bound iterations p).2.Deepens starts p := by
  unfold iterate
  dsimp only
  repeat' split
  all_goals first | trivial | exact call_deepens _ _ _ _ _ _ (Nat.le_succ _)

theorem nextItem_deepens (loop : Loop) (itemName : String) (indexName : Option String) (index : Nat)
    (items : List Value) : (m.nextItem env loop itemName indexName index items p).2.Deepens starts p := by
  unfold nextItem
  dsimp only
  repeat' split
  all_goals first | trivial | exact call_deepens _ _ _ _ _ _ (Nat.le_succ _)

theorem element_deepens (c : Collection) (acts : List Act) (item : Except HandlerFault Value) :
    (m.element env self c acts item p).2.Deepens starts p := by
  unfold element
  split
  · exact sleep_deepens _ _ _
  · trivial
  · exact watch_deepens _ _ _
  · dsimp only
    repeat' split
    all_goals first | trivial | exact call_deepens _ _ _ _ _ _ (Nat.le_succ _)

theorem invoke_deepens (place : Place) (node : Node) (target : Flow) (args : Entries Value) (inline : Bool)
    (returns : Value) {wrap : List Nat → List Pending → List Pending}
    (hw : ∀ child, p.length ≤ (wrap child p).length) :
    (m.invoke env place node target args inline returns p wrap).2.Deepens starts p := by
  have higher (k : Pending) (child : List Nat) : p.length ≤ (k :: wrap child p).length :=
    Nat.le_succ_of_le (hw child)
  unfold invoke
  split
  · exact call_deepens _ _ _ _ _ _ (higher _ _)
  · exact call_deepens _ _ _ _ _ _ (higher _ _)

theorem attempt_deepens (a : Attempt) : (m.attempt env a p).2.Deepens starts p := by
  have above {x : Turn} (h : x.Deepens starts (.attempt a env.now :: p)) : x.Deepens starts p := by
    cases x with
    | go c q =>
      cases c with
      | enter place frame => exact Nat.lt_of_succ_lt h
      | wake w s i => cases w <;> exact h
      | _ => exact h
    | wait w on limit q => cases w <;> exact h
    | _ => exact h
  unfold attempt
  dsimp only
  split
  · trivial
  · unfold startForeach
    dsimp only
    repeat' split
    all_goals first | trivial | exact above (nextItem_deepens _ _ _ _ _ _ _ _)
  · unfold startElements
    dsimp only
    repeat' split
    all_goals trivial
  · unfold startWhile
    dsimp only
    repeat' split
    all_goals trivial
  · unfold startExecuteFlow
    dsimp only
    repeat' split
    all_goals first | trivial | exact above (invoke_deepens _ _ _ _ _ _ _ _ _ fun _ => Nat.le_refl _)
  · unfold startPrimitive
    dsimp only
    repeat' split
    all_goals trivial

theorem act_deepens (c : Call) (acts : List Act) (finish : Finish) :
    (m.act env self c acts finish p).2.Deepens starts p := by
  unfold act
  split
  · exact sleep_deepens _ _ _
  · exact watch_deepens _ _ _
  · trivial
  · split
    · trivial
    · trivial
    · trivial
    · unfold subexecute
      split
      · trivial
      · exact invoke_deepens _ _ _ _ _ _ _ _ _ fun _ => by simp only [List.length_cons]; omega

theorem afterVisit_deepens (walk : Walk) (node : Node) (o : Outcome) :
    (afterVisit walk node o p).Deepens starts p := by
  unfold afterVisit
  split <;> trivial

theorem afterAttempt_deepens (a : Attempt) (since : Seconds) (o : Outcome) :
    (m.afterAttempt env a since o p).2.Deepens starts p := by
  unfold afterAttempt
  split
  · trivial
  · trivial
  · unfold afterFailure
    dsimp only
    split
    · split
      · exact rest_deepens _ _ _
      · trivial
    all_goals trivial

theorem resume_deepens (k : Pending) (a : Answer) : (m.resume env k a p).2.Deepens starts p := by
  unfold resume
  dsimp only
  split
  all_goals first
    | trivial
    | exact afterVisit_deepens _ _ _ _
    | exact afterAttempt_deepens _ _ _ _ _ _
    | exact nextItem_deepens _ _ _ _ _ _ _ _
    | (split <;> trivial)

theorem wake_deepens (w : Wait) (signalled interrupted : Bool) :
    (m.wake env self w signalled interrupted p).2.Deepens
      (¬ (Control.wake w signalled interrupted).IsInner) p := by
  unfold wake
  dsimp only
  split
  case h_1 =>
    repeat' split
    all_goals first | trivial | exact id
  case h_5 =>
    unfold wakeFromSettlement
    dsimp only
    repeat' split
    all_goals trivial
  all_goals
    repeat' split
    all_goals trivial

/-- A flow is entered only on top of the frame that it is walked in, and a task that does not execute the run
goes on so. -/
theorem step_deepens (c : Control) : (m.step env self c p).2.Deepens (¬ c.IsInner) (c.rest p) := by
  cases c with
  | enqueue =>
    show (m.enqueue p).2.Deepens _ p
    unfold enqueue
    split <;> exact id
  | takeSlot => show (m.takeSlot env self p).2.Deepens _ p; unfold takeSlot; split <;> trivial
  | watch => exact watch_deepens m self p
  | execute =>
    show (m.execute env p).2.Deepens _ p
    unfold execute
    split
    · trivial
    · split
      · trivial
      · exact Nat.lt_succ_self _
  | enter place frame =>
    show (m.enter place frame p).2.Deepens _ p
    unfold enter
    dsimp only
    repeat' split
    all_goals trivial
  | next walk node =>
    show (m.next env self walk node p).2.Deepens _ p
    unfold next
    dsimp only
    repeat' split
    all_goals trivial
  | dispatch walk node =>
    show (m.dispatch env walk node p).2.Deepens _ p
    unfold dispatch
    dsimp only
    repeat' split
    all_goals trivial
  | «try» a => exact attempt_deepens m env p a
  | iterate loop bound iterations => exact iterate_deepens m env p loop bound iterations
  | supply c =>
    show (m.supply c p).2.Deepens _ p
    unfold supply
    split <;> trivial
  | element c acts item => exact element_deepens m env self p c acts item
  | handle c =>
    show (m.handle env c p).2.Deepens _ p
    unfold handle
    split
    · trivial
    · split
      · split
        · trivial
        · trivial
        · exact rest_deepens _ _ _
      · trivial
  | act c acts finish => exact act_deepens m env self p c acts finish
  | wake w s i => exact wake_deepens m env self p w s i
  | answer a =>
    cases p with
    | nil => trivial
    | cons k p => exact resume_deepens m env p k a

/-- A call of a flow is refused, or the flow is entered in a new frame. -/
theorem call_cases (flow : Flow) (layers : List Nat) (node : Node) (shared : Bool) :
    m.call env flow layers node shared p = (m, .fail (.callDepth env.settings.maxCallDepth) p) ∨
    ∃ n key, m.call env flow layers node shared p =
      (n, .go (.enter ⟨flow, layers, 0⟩ key) (.frame key flow.id node.id :: p)) ∧ n.layers = m.layers := by
  unfold call
  split
  · exact .inl rfl
  · exact .inr ⟨_, _, rfl, rfl⟩

end functions

end Machine

/-- What a node is answered that has called a flow. -/
def Answer.called (flow : String) : Answer → Answer
  | .outcome o => .outcome (Machine.afterCall flow o)
  | b => b

/-- What a node is answered when a flow that it has called completes. -/
def Answer.onward : Answer :=
  .outcome (.completed (some Label.default))

/-- A run of a body as it begins: the flow, the layers of its scope, and what these are then. -/
structure Round where
  flow : Flow
  layers : List Nat
  scope : Scope

/-- What has come so far of an attempt at a node that carries out a body again and again. -/
structure Rounds where
  /-- What the condition was, each time it was checked. -/
  checks : List Bool := []
  /-- The runs of the body that have begun. -/
  runs : List Round := []
  /-- What the walks of the body have answered to their frames. -/
  walks : List Answer := []
  /-- What the node has been answered for its calls of the body. -/
  results : List Answer := []
  /-- Whether the run was cancelled at one of the steps. -/
  cancelled : Bool := false
  /-- What the attempt results in, once that is known. -/
  ending : Option Answer := none

namespace Rounds

/-- The check that is made by a step, on so much other work. -/
def checked (a : Attempt) (height : Nat) (m : Machine) (s : Strand) : List Bool :=
  match s.control with
  | .iterate _ _ _ =>
    if s.pending.length = height then
      [Condition.holds (m.vars a.place.layers) ((Value.obj a.node.config).field "condition")]
    else []
  | _ => []

/-- The run that begins with a step, upon the work of the node and that of the frame. -/
def begun (height : Nat) (r : Machine.StepResult) : List Round :=
  match r.2 with
  | .go (.enter place _) q =>
    if q.length = height + 2 then [⟨place.flow, place.layers, r.1.scope place.layers⟩] else []
  | _ => []

def walked (height : Nat) (s : Strand) : List Answer :=
  match s.control, s.pending with
  | .answer b, .frame _ _ _ :: q => if q.length = height + 1 then [b] else []
  | _, _ => []

def heard (height : Nat) (s : Strand) : List Answer :=
  match s.control with
  | .answer b => if s.pending.length = height + 1 then [b] else []
  | _ => []

def result? (height : Nat) : Turn → Option Answer
  | .go (.answer b) q => if q.length = height then some b else none
  | _ => none

/-- Takes a step of the task into account, for an attempt that is made on so much other work. -/
def note (v : Rounds) (a : Attempt) (height : Nat) (m : Machine) (s : Strand) (r : Machine.StepResult) :
    Rounds where
  checks := v.checks ++ checked a height m s
  runs := v.runs ++ begun height r
  walks := v.walks ++ walked height s
  results := v.results ++ heard height s
  cancelled := v.cancelled || m.token.cancelled
  ending := result? height r.2

end Rounds

namespace Execution

/-- Takes something that happens into account, if it is a step of the task. -/
def noted (t : TaskId) (height : Nat) (a : Attempt) (x : Execution) (h : Happening) (v : Rounds) : Rounds :=
  match h, x.stride? t h with
  | .step env, some s => v.note a height x.machine s (x.machine.step env s.task s.control s.pending)
  | _, _ => v

/-- What comes of an attempt that a task makes, on so much other work, while some things happen. -/
def rounds (t : TaskId) (height : Nat) (a : Attempt) : List Happening → Execution → Rounds → Rounds
  | [], _, v => v
  | h :: hs, x, v => if v.ending.isSome then v else rounds t height a hs (x.meet h) (x.noted t height a h v)

end Execution

namespace Rounds

variable {v w : Rounds} {R : Nat → Round → Prop} {body : Flow} {a : Attempt} {i r n d : Nat} {k : Pending}
  {u p : List Pending} {c : Control} {m : Machine} {env : Surroundings} {t : TaskId} {b : Answer}

/-- The body is run one time after the other. -/
structure IsSerial (v : Rounds) (body : Flow) (R : Nat → Round → Prop) : Prop where
  /-- The runs are as they should be. -/
  fit : ∀ i z, v.runs[i]? = some z → R i z
  /-- Each of them but the last one has completed. -/
  serial : ∀ i, i + 1 < v.runs.length → v.results[i]? = some .onward
  /-- The node is answered what came of the body, or that it must not be called. -/
  answered : ∀ i b, v.results[i]? = some b → (∃ e, v.walks[i]? = some e ∧ b = e.called body.id) ∨
    i = v.runs.length ∧ ∃ limit, b = .outcome (.failed (.callDepth limit) none)
  /-- The first one that does not complete is the last one, and the attempt results in what came of it. -/
  stopped : ∀ b ∈ v.results, b ≠ .onward → v.ending = some b

/-- How many runs have begun, how many walks have ended, and how many have completed; there may be an answer
behind these. -/
structure Tally (v : Rounds) (body : Flow) (R : Nat → Round → Prop) (runs walks done : Nat)
    (last : Option Answer) : Prop where
  runs : v.runs.length = runs
  fit : ∀ i z, v.runs[i]? = some z → R i z
  walks : v.walks.length = walks
  results : v.results = List.replicate done .onward ++ last.toList
  completed : ∀ i e, v.walks[i]? = some e → i < done → e.called body.id = .onward

/-- What stands in a list with one more behind it. -/
theorem getElem?_concat_cases {α : Type} {l : List α} {x y : α} (h : (l ++ [x])[i]? = some y) :
    l[i]? = some y ∨ i = l.length ∧ x = y := by
  rw [List.getElem?_append] at h
  split at h
  · exact .inl h
  · cases hi : i - l.length with
    | zero => rw [hi] at h; exact .inr ⟨by omega, Option.some.inj h⟩
    | succ j => rw [hi] at h; cases h

namespace Tally

theorem congr {last : Option Answer} (h : v.Tally body R r n d last) (hr : w.runs = v.runs)
    (hw : w.walks = v.walks) (hd : w.results = v.results) : w.Tally body R r n d last where
  runs := hr ▸ h.runs
  fit := hr ▸ h.fit
  walks := hw ▸ h.walks
  results := hd ▸ h.results
  completed := hw ▸ h.completed

/-- A run that has completed has answered that to its frame. -/
theorem returned {last : Option Answer} (h : v.Tally body R r n d last) (hn : d ≤ n)
    (hb : (List.replicate d Answer.onward)[i]? = some b) : ∃ e, v.walks[i]? = some e ∧ b = e.called body.id := by
  rw [List.getElem?_replicate] at hb
  split at hb
  · rename_i hi
    obtain ⟨e, he⟩ : ∃ e, v.walks[i]? = some e := ⟨_, List.getElem?_eq_getElem (by rw [h.walks]; omega)⟩
    exact ⟨e, he, (Option.some.inj hb).symm.trans (h.completed i e he hi).symm⟩
  · cases hb

/-- As long as all runs complete. -/
theorem isSerial (h : v.Tally body R r n d none) (hr : r ≤ d + 1) (hn : d ≤ n) : v.IsSerial body R := by
  have hres : v.results = List.replicate d .onward := h.results.trans (List.append_nil _)
  refine ⟨h.fit, fun i hi => ?_, fun i b hb => ?_, fun b hb hne => ?_⟩
  · rw [h.runs] at hi
    rw [hres, List.getElem?_replicate, if_pos (by omega)]
  · exact .inl (h.returned hn (hres ▸ hb))
  · rw [hres] at hb
    exact absurd (List.eq_of_mem_replicate hb) hne

/-- With the first run that does not complete. -/
theorem isSerial_stopped (h : v.Tally body R r n d (some b)) (he : v.ending = some b) (hr : r ≤ d + 1)
    (hn : d ≤ n) (hb : (∃ e, v.walks[d]? = some e ∧ b = e.called body.id) ∨
      d = r ∧ ∃ limit, b = .outcome (.failed (.callDepth limit) none)) : v.IsSerial body R := by
  have hres : v.results = List.replicate d .onward ++ [b] := h.results
  refine ⟨h.fit, fun i hi => ?_, fun i b' hb' => ?_, fun b' hb' hne => ?_⟩
  · rw [h.runs] at hi
    rw [hres, List.getElem?_append_left (by rw [List.length_replicate]; omega), List.getElem?_replicate,
      if_pos (by omega)]
  · rw [hres] at hb'
    obtain hb' | ⟨hi, rfl⟩ := getElem?_concat_cases hb'
    · exact .inl (h.returned hn hb')
    · rw [List.length_replicate] at hi
      rw [h.runs, hi]
      exact hb
  · rw [hres] at hb'
    rcases List.mem_append.mp hb' with hb' | hb'
    · exact absurd (List.eq_of_mem_replicate hb') hne
    · rw [he, List.mem_singleton.mp hb']

end Tally

/-- Where the task is while a round is gone through: the call of the body is refused, or the body is walked, or
the walk has ended. -/
inductive Runs (v : Rounds) (body : Flow) (R : Nat → Round → Prop) (i : Nat) (k : Pending) (u : List Pending) :
    Control → List Pending → Prop
  | refused (ht : v.Tally body R i i i none) (limit : Nat) :
    Runs v body R i k u (.answer (.outcome (.failed (.callDepth limit) none))) (k :: u)
  | walking (ht : v.Tally body R (i + 1) i i none) (c : Control) (ks : List Pending) (key : Nat)
      (node : String) : Runs v body R i k u c (ks ++ .frame key body.id node :: k :: u)
  | returning (ht : v.Tally body R (i + 1) (i + 1) i none) {e : Answer} (he : v.walks[i]? = some e) :
    Runs v body R i k u (.answer (e.called body.id)) (k :: u)

theorem Runs.aim {c d : Control} (h : v.Runs body R i k u c p) (hd : d.aim = c.aim) :
    v.Runs body R i k u d p := by
  cases h with
  | refused ht limit => exact Control.eq_answer hd ▸ .refused ht limit
  | walking ht c ks key node => exact .walking ht d ks key node
  | returning ht he => exact Control.eq_answer hd ▸ .returning ht he

/-- What the node is answered at the end of a round. -/
inductive Hears (v : Rounds) (body : Flow) (R : Nat → Round → Prop) (i : Nat) : Answer → Prop
  | refused (ht : v.Tally body R i i i none) (limit : Nat) :
    Hears v body R i (.outcome (.failed (.callDepth limit) none))
  | returning (ht : v.Tally body R (i + 1) (i + 1) i none) {e : Answer} (he : v.walks[i]? = some e) :
    Hears v body R i (e.called body.id)

theorem called_onward {flow : String} {e : Answer} {l : Option String}
    (h : e.called flow = .outcome (.completed l)) : e.called flow = .onward := by
  cases e with
  | outcome o =>
    cases o with
    | completed l => rfl
    | _ => cases h
  | _ => cases h

section note

variable (v : Rounds) (a : Attempt) (m : Machine) (env : Surroundings) (t : TaskId) (u : List Pending)

/-- A step that leaves more work alone than that of the node and of a frame is of no account. -/
theorem note_inside {c : Control} {p : List Pending} (h : u.length + 1 < (c.rest p).length) :
    v.note a u.length m ⟨t, c, p⟩ (m.step env t c p) =
      { v with cancelled := v.cancelled || m.token.cancelled, ending := none } := by
  have hchecked : checked a u.length m ⟨t, c, p⟩ = [] := by
    cases c with
    | iterate loop bound iterations =>
      have h : u.length + 1 < p.length := h
      exact if_neg (show p.length ≠ u.length by omega)
    | _ => rfl
  have hwalked : walked u.length ⟨t, c, p⟩ = [] := by
    unfold walked
    dsimp only
    split
    · exact if_neg (Nat.ne_of_gt h)
    · rfl
  have hheard : heard u.length ⟨t, c, p⟩ = [] := by
    cases c with
    | answer b =>
      have h : u.length + 1 < p.tail.length := h
      rw [List.length_tail] at h
      exact if_neg (show p.length ≠ _ by omega)
    | _ => rfl
  obtain ⟨d, ks, hpost⟩ := m.step_post env t (c := c) (p := p) (List.ne_nil_of_length_pos (by omega))
  have hdeep := m.step_deepens env t p c
  generalize m.step env t c p = r at hpost hdeep
  have hbegun : begun u.length r = [] := by
    unfold begun
    split
    · rename_i he
      rw [he] at hdeep
      have hdeep : (c.rest p).length < _ := hdeep
      exact if_neg (by omega)
    · rfl
  have hresult : result? u.length r.2 = none := by
    unfold result?
    split
    · rename_i he
      rw [he] at hpost
      cases hpost
      exact if_neg (by rw [List.length_append]; omega)
    · rfl
  unfold note
  rw [hchecked, hwalked, hheard, hbegun, hresult]
  simp only [List.append_nil]

/-- The walk of the body ends. -/
theorem note_walk (b : Answer) (key : Nat) (flow node : String) (k : Pending) (hu : u.length + 1 = (k :: u).length) :
    v.note a u.length m ⟨t, .answer b, .frame key flow node :: k :: u⟩
        (m.step env t (.answer b) (.frame key flow node :: k :: u)) =
      { v with walks := v.walks ++ [b], cancelled := v.cancelled || m.token.cancelled, ending := none } := by
  have hstep : (m.step env t (.answer b) (.frame key flow node :: k :: u)).2 =
      .answer (b.called flow) (k :: u) := by
    cases b <;> rfl
  have hbegun : begun u.length (m.step env t (.answer b) (.frame key flow node :: k :: u)) = [] := by
    unfold begun
    rw [hstep]
    rfl
  have hheard : heard u.length ⟨t, .answer b, .frame key flow node :: k :: u⟩ = [] := if_neg (by simp)
  have hwalked : walked u.length ⟨t, .answer b, .frame key flow node :: k :: u⟩ = [b] := if_pos hu.symm
  have hresult : result? u.length (m.step env t (.answer b) (.frame key flow node :: k :: u)).2 = none := by
    rw [hstep]
    exact if_neg (by simp)
  unfold note
  rw [hbegun, hheard, hwalked, hresult]
  simp [checked]

/-- The node is handed an answer. -/
theorem note_heard (b : Answer) (k : Pending) (hk : ∀ x y z, k ≠ .frame x y z) (r : Machine.StepResult) :
    v.note a u.length m ⟨t, .answer b, k :: u⟩ r =
      { checks := v.checks, runs := v.runs ++ begun u.length r, walks := v.walks
        results := v.results ++ [b], cancelled := v.cancelled || m.token.cancelled
        ending := result? u.length r.2 } := by
  have hwalked : walked u.length ⟨t, .answer b, k :: u⟩ = [] := by
    cases k with
    | frame x y z => exact absurd rfl (hk x y z)
    | _ => rfl
  have hheard : heard u.length ⟨t, .answer b, k :: u⟩ = [b] := if_pos rfl
  unfold note
  rw [hwalked, hheard]
  simp [checked]

/-- The attempt begins. -/
theorem note_try (b : Attempt) (height : Nat) (p : List Pending) (r : Machine.StepResult) :
    ({} : Rounds).note a height m ⟨t, .try b, p⟩ r =
      { runs := begun height r, cancelled := m.token.cancelled, ending := result? height r.2 } := by
  simp [note, checked, walked, heard]

/-- The condition is checked. -/
theorem note_check (loop : Loop) (bound iterations : Nat) (r : Machine.StepResult) :
    v.note a u.length m ⟨t, .iterate loop bound iterations, u⟩ r =
      { v with
        checks := v.checks ++ [Condition.holds (m.vars a.place.layers) ((Value.obj a.node.config).field "condition")]
        runs := v.runs ++ begun u.length r, cancelled := v.cancelled || m.token.cancelled
        ending := result? u.length r.2 } := by
  have hchecked : checked a u.length m ⟨t, .iterate loop bound iterations, u⟩ = [_] := if_pos rfl
  unfold note
  rw [hchecked]
  simp [walked, heard]

end note

/-- What a step makes of a round that is gone through, unless the node is answered. -/
theorem Runs.step (h : v.Runs body R i k u c p) (a : Attempt) (m : Machine) (env : Surroundings) (t : TaskId) :
    let w := v.note a u.length m ⟨t, c, p⟩ (m.step env t c p)
    (w.checks = v.checks ∧ w.ending = none ∧
      ∃ d q, (m.step env t c p).2.post = .doing d q ∧ w.Runs body R i k u d q) ∨
    ∃ b, c = .answer b ∧ p = k :: u ∧ v.Hears body R i b := by
  intro w
  cases h with
  | refused ht limit => exact .inr ⟨_, rfl, rfl, .refused ht limit⟩
  | returning ht he => exact .inr ⟨_, rfl, rfl, .returning ht he⟩
  | walking ht c ks key node =>
    left
    -- The frame is left alone, unless it is the frame that is handed an answer.
    have above (ls : List Pending) (hrest : c.rest (ks ++ .frame key body.id node :: k :: u) =
        ls ++ .frame key body.id node :: k :: u) : w.checks = v.checks ∧ w.ending = none ∧
        ∃ d q, (m.step env t c (ks ++ .frame key body.id node :: k :: u)).2.post = .doing d q ∧
          w.Runs body R i k u d q := by
      have hw : w = _ := note_inside v a m env t u (by
        rw [hrest, List.length_append, List.length_cons, List.length_cons]
        omega)
      obtain ⟨d, ms, hd⟩ := m.step_post env t (c := c) (p := ks ++ .frame key body.id node :: k :: u)
        (by rw [hrest]; simp)
      rw [hw]
      refine ⟨rfl, rfl, d, _, hd, ?_⟩
      rw [hrest, ← List.append_assoc]
      exact .walking (ht.congr (w := { v with cancelled := v.cancelled || m.token.cancelled, ending := none })
        rfl rfl rfl) d (ms ++ ls) key node
    cases c with
    | answer b =>
      rcases ks with _ | ⟨l, ks⟩
      · have hw : w = _ := note_walk v a m env t u b key body.id node k rfl
        rw [hw]
        refine ⟨rfl, rfl, .answer (b.called body.id), k :: u, ?_, ?_⟩
        · cases b <;> rfl
        · have hlast : (v.walks ++ [b])[i]? = some b := by
            rw [← ht.walks, List.getElem?_concat_length]
          have hlen : (v.walks ++ [b]).length = i + 1 := by
            rw [List.length_append, ht.walks]
            rfl
          refine .returning (v := { v with
              walks := v.walks ++ [b], cancelled := v.cancelled || m.token.cancelled, ending := none })
            ⟨ht.runs, ht.fit, hlen, ht.results, fun j e he hj => ht.completed j e ?_ hj⟩ hlast
          have he : (v.walks ++ [b])[j]? = some e := he
          rwa [List.getElem?_append_left (by rw [ht.walks]; exact hj)] at he
      · exact above ks rfl
    | _ => exact above ks rfl

/-- The next round begins, with a call of the body. -/
theorem Tally.call (h : v.Tally body R i i i none) (n : Machine) (env : Surroundings) (layers : List Nat)
    (node : Node) (hz : R i ⟨body, layers, n.scope layers⟩) :
    let r := n.call env body layers node true (k :: u)
    result? u.length r.2 = none ∧
      ∀ w : Rounds, w.runs = v.runs ++ begun u.length r → w.walks = v.walks → w.results = v.results →
        ∃ d q, r.2.post = .doing d q ∧ w.Runs body R i k u d q := by
  intro r
  obtain he | ⟨o, key, he, hl⟩ := n.call_cases env (k :: u) body layers node true
  · have hr : r = _ := he
    rw [hr]
    refine ⟨if_neg (by simp), fun w hw hn hd => ⟨_, _, rfl, .refused (h.congr ?_ hn hd) _⟩⟩
    exact hw.trans (List.append_nil _)
  · have hr : r = _ := he
    have hscope : o.scope layers = n.scope layers := by rw [Machine.scope, hl, ← Machine.scope]
    have hbegun : begun u.length r = [⟨body, layers, n.scope layers⟩] := by
      rw [hr, ← hscope]
      exact if_pos rfl
    rw [hbegun, hr]
    refine ⟨rfl, fun w hw hn hd => ⟨_, _, rfl, .walking ⟨?_, fun j z hj => ?_, ?_, ?_, ?_⟩ _ [] _ _⟩⟩
    · rw [hw, List.length_append, h.runs]
      rfl
    · rw [hw] at hj
      obtain hj | ⟨rfl, rfl⟩ := getElem?_concat_cases hj
      · exact h.fit j z hj
      · rwa [h.runs]
    · exact hn ▸ h.walks
    · exact hd ▸ h.results
    · exact hn ▸ h.completed

/-- After an answer that the body has completed the next round may begin. -/
theorem Hears.onward {l : Option String} (h : v.Hears body R i (.outcome (.completed l))) :
    l = some Label.default ∧ v.Tally body R (i + 1) (i + 1) i none ∧
      ∃ e, v.walks[i]? = some e ∧ e.called body.id = .onward := by
  generalize hb : Answer.outcome (.completed l) = b at h
  cases h with
  | refused => cases hb
  | @returning ht e he =>
    have hcalled := called_onward hb.symm
    rw [hcalled] at hb
    cases hb
    exact ⟨rfl, ht, e, he, hcalled⟩

/-- A body run that completes is one more that has. -/
theorem Tally.next {e : Answer} (h : v.Tally body R (i + 1) (i + 1) i none) (he : v.walks[i]? = some e)
    (hc : e.called body.id = .onward) (hr : w.runs = v.runs) (hw : w.walks = v.walks)
    (hd : w.results = v.results ++ [.onward]) : w.Tally body R (i + 1) (i + 1) (i + 1) none where
  runs := hr ▸ h.runs
  fit := hr ▸ h.fit
  walks := hw ▸ h.walks
  results := by
    have hres : v.results = List.replicate i .onward := h.results.trans (List.append_nil _)
    rw [hd, hres, List.replicate_succ']
    simp
  completed j e' he' hj := by
    rw [hw] at he'
    rcases Nat.lt_succ_iff_lt_or_eq.mp hj with hj | rfl
    · exact h.completed j e' he' hj
    · cases he.symm.trans he'
      exact hc

/-- The node stops at an answer that the body has not completed. -/
theorem Hears.tally (h : v.Hears body R i b) (hr : w.runs = v.runs) (hw : w.walks = v.walks)
    (hd : w.results = v.results ++ [b]) : ∃ runs walks, w.Tally body R runs walks i (some b) ∧
      i ≤ runs ∧ runs ≤ i + 1 ∧ i ≤ walks ∧ ((∃ e, w.walks[i]? = some e ∧ b = e.called body.id) ∨
        i = runs ∧ ∃ limit, b = .outcome (.failed (.callDepth limit) none)) := by
  have stopped {runs walks : Nat} (ht : v.Tally body R runs walks i none) : w.Tally body R runs walks i (some b) := by
    have hres : v.results = List.replicate i .onward := ht.results.trans (List.append_nil _)
    exact ⟨hr ▸ ht.runs, hr ▸ ht.fit, hw ▸ ht.walks, by rw [hd, hres]; rfl, hw ▸ ht.completed⟩
  cases h with
  | refused ht limit =>
    exact ⟨i, i, stopped ht, Nat.le_refl i, Nat.le_succ i, Nat.le_refl i, .inr ⟨rfl, limit, rfl⟩⟩
  | @returning ht e hwalk =>
    exact ⟨i + 1, i + 1, stopped ht, Nat.le_succ i, Nat.le_refl _, Nat.le_succ i, .inl ⟨e, hw ▸ hwalk, rfl⟩⟩

end Rounds

namespace Execution

variable {x : Execution} {v : Rounds} {t : TaskId} {c : Control} {p : List Pending} {height : Nat} {a : Attempt}

theorem noted_none {h : Happening} (hs : x.stride? t h = none) : x.noted t height a h v = v := by
  unfold noted
  rw [hs]
  cases h <;> rfl

theorem noted_step {env : Surroundings} (hs : x.active = some ⟨t, c, p⟩) :
    x.noted t height a (.step env) v = v.note a height x.machine ⟨t, c, p⟩ (x.machine.step env t c p) := by
  have hsome : x.stride? t (.step env) = some ⟨t, c, p⟩ := by simp [stride?, hs]
  unfold noted
  rw [hsome]

/-- What happens after the end of the attempt is of no account. -/
theorem rounds_of_ending (he : v.ending ≠ none) (hs : List Happening) : rounds t height a hs x v = v := by
  cases hs with
  | nil => rfl
  | cons h hs =>
    unfold rounds
    rw [if_pos (Option.isSome_iff_ne_none.mpr he)]

theorem rounds_cons (he : v.ending = none) (k : Happening) (hs : List Happening) :
    rounds t height a (k :: hs) x v = rounds t height a hs (x.meet k) (x.noted t height a k v) := by
  rw [rounds, he]
  rfl

/-- If every step of the task leads to the end of the attempt or keeps it under way, then so does all that
happens. -/
theorem rounds_goes (height : Nat) (a : Attempt) (Goes : Rounds → Control → List Pending → Prop) (Over : Rounds → Prop)
    (aim : ∀ {v c d p}, Goes v c p → d.aim = c.aim → Goes v d p)
    (step : ∀ {v c p}, Goes v c p → v.ending = none → ∀ m env,
      let w := v.note a height m ⟨t, c, p⟩ (m.step env t c p)
      (w.ending ≠ none ∧ Over w) ∨
        w.ending = none ∧ ∃ d q, (m.step env t c p).2.post = .doing d q ∧ Goes w d q)
    (h : Goes v c p) (he : v.ending = none) (hx : x.IsAt t c p) (hs : List Happening) :
    let w := rounds t height a hs x v
    (w.ending ≠ none ∧ Over w) ∨
      w.ending = none ∧ ∃ d q, Goes w d q ∧ (following hs x).IsAt t d q := by
  induction hs generalizing x v c p with
  | nil => exact .inr ⟨he, c, p, h, hx⟩
  | cons k hs ih =>
    rw [rounds_cons he]
    obtain ⟨hnone, d, hd, hx⟩ | ⟨env, rfl, ha, ht⟩ := hx.stays k
    · rw [noted_none hnone]
      exact ih (aim h hd) he hx
    · rw [noted_step ha]
      obtain ⟨hover, hdone⟩ | ⟨hon, d, q, hpost, hgo⟩ := step h he x.machine env
      · left
        rw [rounds_of_ending hover]
        exact ⟨hover, hdone⟩
      · exact ih hgo hon (.stepIn ha ht hpost)

end Execution

end Workflow
