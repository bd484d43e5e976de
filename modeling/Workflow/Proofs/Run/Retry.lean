import Workflow.Proofs.Run.Site
import Workflow.Proofs.Run.Transit
/-!
How often a node is tried, and what comes of the last attempt. A visit of a node is followed along the steps
of the task that makes it, whatever else happens to the run between them, and a failure is followed on its
way up through the nodes around the one that it began at.
-/

namespace Workflow

namespace ErrorInfo

/-- A failure is another one, wrapped as often as there are flows that failed by it. -/
inductive Wraps : ErrorInfo → ErrorInfo → Prop
  | refl (e : ErrorInfo) : Wraps e e
  | ofSubflow {e e' : ErrorInfo} (flow : String) (node : Option String) (h : Wraps e e') :
      Wraps (.ofSubflow flow node e) e'

theorem Wraps.trans {e e' e'' : ErrorInfo} (h : e.Wraps e') (k : e'.Wraps e'') : e.Wraps e'' := by
  induction h with
  | refl => exact k
  | ofSubflow flow node _ ih => exact .ofSubflow flow node (ih k)

theorem Wraps.retryable {e e' : ErrorInfo} (h : e.Wraps e') : e.retryable = e'.retryable := by
  induction h with
  | refl => rfl
  | ofSubflow _ _ _ ih => exact ih

end ErrorInfo

namespace Policy

/-- A failure is one that a policy has retried, if there is a retry left. -/
structure Admits (q : Policy) (e : ErrorInfo) : Prop where
  retries : q.onError = .retry
  retryable : e.retryable = true
  ordinary : e.code ∉ fatalCodes
  listed : ∀ codes, q.retryOn = some codes → e.code ∈ codes

/-- However many retries are asked for, there are no more than the settings allow. -/
theorem retries_le {settings : Settings} {layers : List Value} {q : Policy}
    (h : resolve settings layers = .ok q) : q.retries ≤ settings.maxRetriesHardCap := by
  unfold resolve at h
  cases hm : merge layers with
  | error f => rw [hm] at h; cases h
  | ok fields =>
    rw [hm] at h
    simp only [bind, Except.bind, ofFields, pure, Except.pure] at h
    repeat' split at h
    all_goals cases h
    all_goals exact Nat.min_le_right _ _

/-- A policy goes on after a failure that is not retried. -/
def GoesOn (q : Policy) : Prop :=
  q.onError = .continue ∨ q.onError = .retry ∧ q.fallback = .continue

end Policy

namespace Attempt

/-- A failed attempt is to be followed by another one. -/
structure IsDue (a : Attempt) (e : ErrorInfo) : Prop where
  admits : a.policy.Admits e
  left : a.number ≤ a.policy.retries

/-- What comes of a visit whose last attempt this is: by the result of the attempt, and by whether the wait
for a further one is cut short. -/
inductive Concludes (a : Attempt) (cutShort : Bool) : Outcome → Outcome → Prop
  | completed (label : Option String) : Concludes a cutShort (.completed label) (.completed label)
  | cancelled : Concludes a cutShort .cancelled .cancelled
  | fatal {e : ErrorInfo} (n : Option String) (hf : e.code ∈ Policy.fatalCodes) :
      Concludes a cutShort (.failed e n) (.failed e (some a.node.id))
  | cutShort {e : ErrorInfo} (n : Option String) (hd : a.IsDue e) (hc : cutShort = true) :
      Concludes a cutShort (.failed e n) .cancelled
  | continued {e : ErrorInfo} (n : Option String) (hf : e.code ∉ Policy.fatalCodes) (hd : ¬ a.IsDue e)
      (hg : a.policy.GoesOn) : Concludes a cutShort (.failed e n) (.completed (some Label.default))
  | rerouted {e : ErrorInfo} (n : Option String) (hf : e.code ∉ Policy.fatalCodes) (hd : ¬ a.IsDue e)
      (hg : ¬ a.policy.GoesOn) (he : (a.place.flow.edge? a.node.id Label.onError).isSome = true) :
      Concludes a cutShort (.failed e n) (.completed (some Label.onError))
  | stopped {e : ErrorInfo} (n : Option String) (hf : e.code ∉ Policy.fatalCodes) (hd : ¬ a.IsDue e)
      (hg : ¬ a.policy.GoesOn) (he : (a.place.flow.edge? a.node.id Label.onError).isSome = false) :
      Concludes a cutShort (.failed e n) (.failed e (some a.node.id))

variable {a : Attempt} {e : ErrorInfo}

theorem isDue_iff (hf : e.code ∉ Policy.fatalCodes) :
    a.IsDue e ↔ a.policy.allowsRetry e a.number = true := by
  unfold Policy.allowsRetry
  constructor
  · rintro ⟨⟨hr, he, -, hl⟩, hn⟩
    cases ho : a.policy.retryOn with
    | none => simp [hr, he, hn]
    | some codes => simp [hr, he, hn, hl codes ho]
  · intro h
    simp only [Bool.and_eq_true, beq_iff_eq, decide_eq_true_eq] at h
    obtain ⟨⟨⟨hr, he⟩, hl⟩, hn⟩ := h
    refine ⟨⟨hr, he, hf, fun codes ho => ?_⟩, hn⟩
    rw [ho] at hl
    simpa using hl

/-- What is decided about a failed attempt: another one, or what comes of the visit. -/
theorem decides (a : Attempt) (e : ErrorInfo) (n : Option String) (cutShort : Bool) :
    match Decision.make a e with
    | .retry => a.IsDue e
    | .continue => a.Concludes cutShort (.failed e n) (.completed (some Label.default))
    | .reroute => a.Concludes cutShort (.failed e n) (.completed (some Label.onError))
    | .stop => a.Concludes cutShort (.failed e n) (.failed e (some a.node.id)) := by
  unfold Decision.make
  dsimp only
  by_cases hf : e.code ∈ Policy.fatalCodes
  · rw [if_pos (by simpa using hf)]
    exact .fatal n hf
  rw [if_neg (by simpa using hf)]
  by_cases hd : a.IsDue e
  · rw [if_pos ((isDue_iff hf).mp hd)]
    exact hd
  rw [if_neg fun h => hd ((isDue_iff hf).mpr h)]
  -- Whatever it is computed from, the condition for going on is that of the policy.
  have rest (goesOn : Bool) (hg : goesOn = true ↔ a.policy.GoesOn) :
      match (if goesOn = true then Decision.continue
        else if (a.place.flow.edge? a.node.id Label.onError).isSome then .reroute else .stop) with
      | .retry => a.IsDue e
      | .continue => a.Concludes cutShort (.failed e n) (.completed (some Label.default))
      | .reroute => a.Concludes cutShort (.failed e n) (.completed (some Label.onError))
      | .stop => a.Concludes cutShort (.failed e n) (.failed e (some a.node.id)) := by
    cases goesOn with
    | true => exact .continued n hf hd (hg.mp rfl)
    | false =>
      have hg : ¬ a.policy.GoesOn := fun h => nomatch hg.mpr h
      cases he : (a.place.flow.edge? a.node.id Label.onError).isSome with
      | true => exact .rerouted n hf hd hg he
      | false => exact .stopped n hf hd hg he
  refine rest _ ?_
  unfold Policy.GoesOn
  cases a.policy.onError <;> simp

end Attempt

/-- The policy of a node where a walk is. -/
def Walk.policy (walk : Walk) (settings : Settings) (node : Node) : Except PolicyFault Policy :=
  Policy.resolve settings ([walk.place.flow.policy, node.policy].map fun p => (p.map Value.obj).getD .null)

/-- What has come of a visit of a node so far. -/
structure Visit where
  /-- The numbers of the attempts that have begun. -/
  numbers : List Nat := []
  /-- The results of those that have ended. -/
  results : List Outcome := []
  /-- Whether the last wait for another attempt was cut short, or the run was cancelled in it. -/
  cutShort : Bool := false
  /-- What the visit answers, once it is over. -/
  ending : Option Answer := none

namespace Visit

/-- Takes a step of the task into account, for a visit whose work lies on so much other work. -/
def note (v : Visit) (height : Nat) (m : Machine) (s : Strand) : Visit :=
  match s.control with
  | .try a => if s.pending.length = height then { v with numbers := v.numbers ++ [a.number] } else v
  | .answer b =>
    if s.pending.length = height then { v with ending := some b }
    else
      match b, s.pending with
      | .outcome o, .attempt _ _ :: p =>
        if p.length = height then { v with results := v.results ++ [o] } else v
      | .rested cut, .backoff _ :: p =>
        if p.length = height then { v with cutShort := cut || m.token.cancelled } else v
      | _, _ => v
  | _ => v

/-- The attempts of a visit are decided by the policy of its first one. -/
structure IsDecided (v : Visit) (a : Attempt) : Prop where
  numbered : v.numbers = List.range' 1 v.numbers.length
  bounded : v.numbers.length ≤ a.policy.retries + 1
  answered : v.results.length ≤ v.numbers.length ∧ v.numbers.length ≤ v.results.length + 1
  retried : ∀ o ∈ v.results.take (v.numbers.length - 1), ∃ e n, o = .failed e n ∧ a.policy.Admits e
  ended : ∀ o, v.ending = some (.outcome o) → v.results.length = v.numbers.length ∧
    ∃ r, v.results.getLast? = some r ∧
      ({ a with number := v.numbers.length } : Attempt).Concludes v.cutShort r o

/-- A visit makes no attempt and goes on along the default edge. -/
structure IsSkipped (v : Visit) : Prop where
  numbers : v.numbers = []
  results : v.results = []
  ended : ∀ b, v.ending = some b → b = .outcome (.completed (some Label.default))

end Visit

namespace Execution

/-- What comes of a visit that a task makes, on so much other work, while some things happen. -/
def visit (t : TaskId) (height : Nat) : List Happening → Execution → Visit → Visit
  | [], _, v => v
  | a :: hs, x, v =>
    if v.ending.isSome then v
    else visit t height hs (x.meet a) ((x.stride? t a).elim v (v.note height x.machine))

/-- What a failure is handed to on its way up, and as which failure, while some things happen. -/
def rise (t : TaskId) : List Happening → Execution → List (Pending × ErrorInfo)
  | [], _ => []
  | a :: hs, x =>
    match x.stride? t a with
    | none => rise t hs (x.meet a)
    | some ⟨_, .answer (.outcome (.failed e _)), k :: _⟩ => (k, e) :: rise t hs (x.meet a)
    | some _ => []

end Execution

/-! One step. -/

/-- A task rests before another attempt, or has rested. -/
def Control.Naps : Control → Prop
  | .wake (.nap _) _ _ | .wake (.rousing _ _) _ _ => True
  | .answer (.rested _) | .answer .interrupted => True
  | _ => False

namespace Control

variable {c d : Control}

theorem eq_try {a : Attempt} (h : d.aim = (Control.try a).aim) : d = .try a :=
  eq_of_aim h fun _ _ _ h => Control.noConfusion h

theorem Naps.aim (h : c.Naps) (hd : d.aim = c.aim) : d.Naps := by
  cases c with
  | wake w s i =>
    cases w with
    | nap u =>
      cases d with
      | wake w' s' i' => cases w' <;> cases hd; trivial
      | _ => cases hd
    | rousing u b =>
      cases d with
      | wake w' s' i' => cases w' <;> cases hd; trivial
      | _ => cases hd
    | _ => exact absurd h id
  | answer b => exact eq_answer hd ▸ h
  | _ => exact absurd h id

end Control

namespace Machine

variable {m : Machine} {env : Surroundings} {t : TaskId} {a : Attempt} {c d : Control} {p q u : List Pending}

/-- Layers of any kind. -/
theorem widens_trivial : Widens fun _ _ => True :=
  ⟨fun _ _ => trivial, fun _ => trivial⟩

theorem Lodges.post {P : Nat → List Nat → Prop} {x : StepResult} (h : Lodges P m p x) (hp : p ≠ []) :
    ∃ d ks, x.2.post = .doing d (ks ++ p) := by
  have ht := h.turn
  cases hx : x.2 with
  | go d q =>
    rw [hx] at ht
    obtain ⟨-, ks, rfl, -⟩ := ht
    exact ⟨_, ks, rfl⟩
  | wait w on limit q =>
    rw [hx] at ht
    obtain ⟨ks, rfl, -⟩ := ht
    exact ⟨_, ks, rfl⟩
  | pass q =>
    rw [hx] at ht
    obtain ⟨ks, rfl, -⟩ := ht
    exact ⟨_, ks, rfl⟩
  | stop b =>
    rw [hx] at ht
    exact absurd ht hp

/-- A step goes on on top of the work that it leaves alone. -/
theorem step_post (m : Machine) (env : Surroundings) (t : TaskId) (hp : c.rest p ≠ []) :
    ∃ d ks, (m.step env t c p).2.post = .doing d (ks ++ c.rest p) :=
  (step_lodges widens_trivial m env t p (fun _ _ => trivial) (fun _ _ _ _ _ _ _ => trivial) fun _ => trivial).post hp

theorem attempt_post (m : Machine) (env : Surroundings) (a : Attempt) (p : List Pending) :
    ∃ d ks, (m.attempt env a p).2.post = .doing d (ks ++ .attempt a env.now :: p) :=
  (attempt_awaited widens_trivial m env p trivial).post (by simp)

/-- A rest ends, or it goes on. -/
theorem rest_post (m : Machine) (s : Seconds) (p : List Pending) :
    ∃ c, (m.rest s p).2.post = .doing c p ∧ c.Naps := by
  unfold rest
  split
  · exact ⟨_, rfl, trivial⟩
  · exact ⟨_, rfl, trivial⟩

/-- After an attempt its visit is over, or there is a rest before another attempt. -/
theorem afterAttempt_post (m : Machine) (env : Surroundings) (a : Attempt) (since : Seconds) (o : Outcome)
    (p : List Pending) :
    (∃ b, (m.afterAttempt env a since o p).2.post = .doing (.answer b) p ∧
      ∀ r, b = .outcome r → ∀ cut, a.Concludes cut o r) ∨
    ∃ e n c, o = .failed e n ∧ a.IsDue e ∧ c.Naps ∧
      (m.afterAttempt env a since o p).2.post = .doing c (.backoff a :: p) := by
  cases o with
  | completed label => exact .inl ⟨_, rfl, by rintro r ⟨⟩ cut; exact .completed label⟩
  | cancelled => exact .inl ⟨_, rfl, by rintro r ⟨⟩ cut; exact .cancelled⟩
  | failed e n =>
    have hd := a.decides e n
    unfold afterAttempt afterFailure
    dsimp only
    cases hm : Decision.make a e with
    | retry =>
      rw [hm] at hd
      dsimp only
      split
      · obtain ⟨c, hc, hn⟩ := rest_post (m := _) _ (.backoff a :: p)
        exact .inr ⟨e, n, c, rfl, hd false, hn, hc⟩
      · exact .inl ⟨_, rfl, nofun⟩
    | «continue» => exact .inl ⟨_, rfl, by rintro r ⟨⟩ cut; have h := hd cut; rw [hm] at h; exact h⟩
    | reroute => exact .inl ⟨_, rfl, by rintro r ⟨⟩ cut; have h := hd cut; rw [hm] at h; exact h⟩
    | stop => exact .inl ⟨_, rfl, by rintro r ⟨⟩ cut; have h := hd cut; rw [hm] at h; exact h⟩

/-- A rest before another attempt goes on, or it is over. -/
theorem wake_naps {w : Wait} {s i : Bool} (hc : (Control.wake w s i).Naps) (m : Machine) (env : Surroundings)
    (t : TaskId) (p : List Pending) :
    ∃ d, (m.wake env t w s i p).2.post = .doing d p ∧ d.Naps := by
  cases w with
  | nap watcher =>
    unfold wake
    dsimp only
    split
    · exact ⟨_, rfl, trivial⟩
    · exact ⟨_, rfl, trivial⟩
  | rousing watcher before =>
    unfold wake
    dsimp only
    split
    · exact ⟨_, rfl, trivial⟩
    · split <;> exact ⟨_, rfl, trivial⟩
  | _ => exact absurd hc id

/-- A failure is handed on as it is, or as the failure of a flow, if it is handed on as a failure. -/
theorem resume_failed (m : Machine) (env : Surroundings) (k : Pending) (e : ErrorInfo) (n : Option String)
    (p : List Pending) : ∃ d q, (m.resume env k (.outcome (.failed e n)) p).2.post = .doing d q ∧
      ∀ e' n', d = .answer (.outcome (.failed e' n')) → e'.Wraps e := by
  have same (d : Control) (hd : ∀ e' n', d = .answer (.outcome (.failed e' n')) → e' = e) :
      ∀ e' n', d = .answer (.outcome (.failed e' n')) → e'.Wraps e :=
    fun e' n' h => hd e' n' h ▸ .refl _
  cases k with
  | visit walk node =>
    cases n with
    | none => exact ⟨_, _, rfl, same _ (by rintro _ _ ⟨⟩; rfl)⟩
    | some n => exact ⟨_, _, rfl, same _ (by rintro _ _ ⟨⟩; rfl)⟩
  | attempt a since =>
    obtain ⟨b, hb, hr⟩ | ⟨_, _, c, -, -, hc, hb⟩ := m.afterAttempt_post env a since (.failed e n) p
    · refine ⟨_, _, hb, same _ fun e' n' h => ?_⟩
      cases h
      cases hr _ rfl false <;> rfl
    · refine ⟨_, _, hb, fun e' n' h => ?_⟩
      subst h
      exact absurd hc id
  | frame key flow node => exact ⟨_, _, rfl, by rintro _ _ ⟨⟩; exact .ofSubflow _ _ (.refl e)⟩
  | invocation place node child returns =>
    cases returns with
    | none => exact ⟨_, _, rfl, same _ (by rintro _ _ ⟨⟩; rfl)⟩
    | some returns => exact ⟨_, _, rfl, same _ (by rintro _ _ ⟨⟩; rfl)⟩
  | _ => exact ⟨_, _, rfl, same _ (by rintro _ _ ⟨⟩ <;> rfl)⟩

end Machine

namespace Visit

variable {v : Visit} {a : Attempt} {u p q : List Pending} {c d : Control} {m : Machine} {t : TaskId}

/-- All attempts that have ended are to be followed by other ones. -/
def Retried (v : Visit) (a : Attempt) : Prop :=
  ∀ o ∈ v.results, ∃ e n, o = .failed e n ∧ a.policy.Admits e

/-- Where the task is that makes a visit, as long as the visit is not over. The work below the visit is
given, and what the first attempt is made with. -/
inductive Goes (v : Visit) (a : Attempt) (u : List Pending) : Control → List Pending → Prop
  | trying (hn : v.numbers = List.range' 1 v.results.length) (hr : v.Retried a)
      (hk : v.results.length ≤ a.policy.retries) :
      Goes v a u (.try { a with number := v.results.length + 1 }) u
  | carrying (hn : v.numbers = List.range' 1 (v.results.length + 1)) (hr : v.Retried a)
      (hk : v.results.length ≤ a.policy.retries) (c : Control) (ks : List Pending) (since : Seconds) :
      Goes v a u c (ks ++ .attempt { a with number := v.results.length + 1 } since :: u)
  | waiting (hn : v.numbers = List.range' 1 v.results.length) (hr : v.Retried a)
      {e : ErrorInfo} {n : Option String} (hl : v.results.getLast? = some (.failed e n))
      (hd : ({ a with number := v.results.length } : Attempt).IsDue e) {c : Control} (hc : c.Naps) :
      Goes v a u c (.backoff { a with number := v.results.length } :: u)
  | answering (b : Answer) (h : ({ v with ending := some b } : Visit).IsDecided a) :
      Goes v a u (.answer b) u

theorem Retried.take (h : v.Retried a) (k : Nat) :
    ∀ o ∈ v.results.take k, ∃ e n, o = .failed e n ∧ a.policy.Admits e :=
  fun o ho => h o (List.mem_of_mem_take ho)

/-- As many attempts have begun as have ended, or one more. -/
theorem Retried.isDecided {k : Nat} (h : v.Retried a) (hn : v.numbers = List.range' 1 k)
    (hk : v.results.length ≤ k ∧ k ≤ v.results.length + 1) (hb : k ≤ a.policy.retries + 1)
    (he : v.ending = none) : v.IsDecided a where
  numbered := by rw [hn, List.length_range']
  bounded := by rw [hn, List.length_range']; exact hb
  answered := by rw [hn, List.length_range']; exact hk
  retried := h.take _
  ended o ho := by rw [he] at ho; cases ho

theorem Goes.isDecided (h : v.Goes a u c p) (he : v.ending = none) : v.IsDecided a := by
  cases h with
  | trying hn hr hk => exact hr.isDecided hn (by omega) (by omega) he
  | carrying hn hr hk => exact hr.isDecided hn (by omega) (by omega) he
  | waiting hn hr _ hd => exact hr.isDecided hn (by omega) (Nat.le_succ_of_le hd.left) he
  | answering b h =>
    refine ⟨h.numbered, h.bounded, h.answered, h.retried, fun o ho => ?_⟩
    rw [he] at ho
    cases ho

theorem Goes.aim (h : v.Goes a u c p) (hd : d.aim = c.aim) : v.Goes a u d p := by
  cases h with
  | trying hn hr hk => exact Control.eq_try hd ▸ .trying hn hr hk
  | carrying hn hr hk c ks since => exact .carrying hn hr hk d ks since
  | waiting hn hr hl hdue hc => exact .waiting hn hr hl hdue (hc.aim hd)
  | answering b h => exact Control.eq_answer hd ▸ .answering b h

section note

variable (v : Visit) (m : Machine) (t : TaskId) (u : List Pending)

theorem note_try (a : Attempt) : v.note u.length m ⟨t, .try a, u⟩ =
    { v with numbers := v.numbers ++ [a.number] } :=
  if_pos rfl

theorem note_answer (b : Answer) : v.note u.length m ⟨t, .answer b, u⟩ = { v with ending := some b } :=
  if_pos rfl

theorem note_result (a : Attempt) (since : Seconds) (o : Outcome) :
    v.note u.length m ⟨t, .answer (.outcome o), .attempt a since :: u⟩ =
      { v with results := v.results ++ [o] } := by
  simp [note]

theorem note_rested (a : Attempt) (cut : Bool) :
    v.note u.length m ⟨t, .answer (.rested cut), .backoff a :: u⟩ =
      { v with cutShort := cut || m.token.cancelled } := by
  simp [note]

theorem note_passed (a : Attempt) (since : Seconds) {b : Answer} (hb : ∀ o, b ≠ .outcome o) :
    v.note u.length m ⟨t, .answer b, .attempt a since :: u⟩ = v := by
  cases b <;> first | exact absurd rfl (hb _) | simp [note]

/-- A step in the middle of an attempt leaves the visit as it is. -/
theorem note_above {c : Control} {p : List Pending} (hp : u.length < p.length)
    (hc : (∀ b, c ≠ .answer b) ∨ u.length + 1 < p.length) : v.note u.length m ⟨t, c, p⟩ = v := by
  have hne : p.length ≠ u.length := Nat.ne_of_gt hp
  unfold note
  dsimp only
  cases c with
  | «try» a => exact if_neg hne
  | answer b =>
    have hp : u.length + 1 < p.length := hc.resolve_left fun h => h b rfl
    dsimp only
    rw [if_neg hne]
    split
    · exact if_neg (by simp only [List.length_cons] at hp; omega)
    · exact if_neg (by simp only [List.length_cons] at hp; omega)
    · rfl
  | _ => rfl

end note

/-- What a step of the task makes of the visit: it is over, or it goes on. -/
def Moves (v : Visit) (a : Attempt) (u : List Pending) (x : Post) : Prop :=
  (v.ending ≠ none ∧ v.IsDecided a) ∨ (v.ending = none ∧ ∃ d q, x = .doing d q ∧ v.Goes a u d q)

variable {env : Surroundings}

/-- An attempt begins. -/
theorem trying_moves (hn : v.numbers = List.range' 1 v.results.length) (hr : v.Retried a)
    (hk : v.results.length ≤ a.policy.retries) (he : v.ending = none) :
    let b : Attempt := { a with number := v.results.length + 1 }
    (v.note u.length m ⟨t, .try b, u⟩).Moves a u (m.step env t (.try b) u).2.post := by
  intro b
  rw [note_try]
  obtain ⟨d, ks, hd⟩ := m.attempt_post env b u
  refine .inr ⟨he, d, _, hd, ?_⟩
  refine Goes.carrying (v := { v with numbers := v.numbers ++ [b.number] }) ?_ hr hk d ks env.now
  show v.numbers ++ [v.results.length + 1] = List.range' 1 (v.results.length + 1)
  rw [hn, List.range'_concat, Nat.one_mul, Nat.add_comm 1]

/-- An attempt ends, and with it the visit, or a rest begins. -/
theorem result_moves (hn : v.numbers = List.range' 1 (v.results.length + 1)) (hr : v.Retried a)
    (hk : v.results.length ≤ a.policy.retries) (he : v.ending = none) (since : Seconds) (o : Outcome) :
    let p := .attempt { a with number := v.results.length + 1 } since :: u
    (v.note u.length m ⟨t, .answer (.outcome o), p⟩).Moves a u
      (m.step env t (.answer (.outcome o)) p).2.post := by
  intro p
  have hlen : (v.results ++ [o]).length = v.results.length + 1 := by simp
  rw [note_result]
  obtain ⟨b, hb, hc⟩ | ⟨e, n, c, rfl, hd, hc, hb⟩ :=
    m.afterAttempt_post env { a with number := v.results.length + 1 } since o u
  · refine .inr ⟨he, _, _, hb, .answering b ?_⟩
    have hnum : v.numbers.length = v.results.length + 1 := by rw [hn, List.length_range']
    refine ⟨by rw [hnum]; exact hn, by rw [hnum]; exact Nat.succ_le_succ hk,
      ⟨Nat.le_of_eq (hlen.trans hnum.symm), ?_⟩, fun o' ho' => ?_, fun r hr' => ?_⟩
    · rw [hnum, hlen]
      exact Nat.le_succ _
    · refine hr o' ?_
      change o' ∈ (v.results ++ [o]).take (v.numbers.length - 1) at ho'
      rwa [hnum, Nat.add_sub_cancel, List.take_left] at ho'
    · refine ⟨hlen.trans hnum.symm, o, by simp, ?_⟩
      show ({ a with number := v.numbers.length } : Attempt).Concludes _ _ _
      rw [hnum]
      exact hc r (Option.some.inj hr') _
  · refine .inr ⟨he, _, _, hb, ?_⟩
    have h : Goes { v with results := v.results ++ [.failed e n] } a u c
        (.backoff { a with number := (v.results ++ [Outcome.failed e n]).length } :: u) := by
      refine Goes.waiting (v := { v with results := v.results ++ [.failed e n] }) (e := e) (n := n)
        (by rw [hlen]; exact hn) (fun o ho => ?_) (by simp) ?_ hc
      · rcases List.mem_append.mp ho with ho | ho
        · exact hr o ho
        · exact ⟨e, n, List.mem_singleton.mp ho, hd.admits⟩
      · rw [hlen]
        exact hd
    rwa [hlen] at h

/-- What is no outcome goes through to the visit. -/
theorem passed_moves (hn : v.numbers = List.range' 1 (v.results.length + 1)) (hr : v.Retried a)
    (hk : v.results.length ≤ a.policy.retries) (he : v.ending = none) (since : Seconds) {b : Answer}
    (hb : ∀ o, b ≠ .outcome o) :
    let p := .attempt { a with number := v.results.length + 1 } since :: u
    (v.note u.length m ⟨t, .answer b, p⟩).Moves a u (m.step env t (.answer b) p).2.post := by
  intro p
  have hpost : (m.step env t (.answer b) p).2 = .answer b u := by
    cases b <;> first | exact absurd rfl (hb _) | rfl
  have hdec := hr.isDecided hn (by omega) (Nat.succ_le_succ hk) he
  rw [note_passed v m t u _ since hb, hpost]
  exact .inr ⟨he, _, _, rfl, .answering b ⟨hdec.numbered, hdec.bounded, hdec.answered, hdec.retried,
    fun o ho => absurd (Option.some.inj ho) (hb o)⟩⟩

/-- The rest before another attempt goes on, or it is over. -/
theorem waiting_moves (hn : v.numbers = List.range' 1 v.results.length) (hr : v.Retried a)
    {e : ErrorInfo} {n : Option String} (hl : v.results.getLast? = some (.failed e n))
    (hd : ({ a with number := v.results.length } : Attempt).IsDue e) (hc : c.Naps) (he : v.ending = none) :
    let p := .backoff { a with number := v.results.length } :: u
    (v.note u.length m ⟨t, c, p⟩).Moves a u (m.step env t c p).2.post := by
  intro p
  have hnum : v.numbers.length = v.results.length := by rw [hn, List.length_range']
  have ends (cut : Bool) (b : Answer) (hb : ∀ o, b = .outcome o → cut = true ∧ o = .cancelled) :
      Goes { v with cutShort := cut } a u (.answer b) u := by
    have hdec := hr.isDecided hn (by omega) (Nat.le_succ_of_le hd.left) he
    refine Goes.answering (v := { v with cutShort := cut }) b
      ⟨hdec.numbered, hdec.bounded, hdec.answered, hdec.retried, fun o ho => ?_⟩
    obtain ⟨hcut, rfl⟩ := hb o (Option.some.inj ho)
    refine ⟨hnum.symm, _, hl, ?_⟩
    show ({ a with number := v.numbers.length } : Attempt).Concludes cut _ _
    rw [hnum]
    exact .cutShort n hd hcut
  cases c with
  | wake w s i =>
    obtain ⟨d, hpost, hd'⟩ := Machine.wake_naps hc m env t p
    rw [note_above (c := .wake w s i) v m t u (by simp [p]) (.inl nofun)]
    exact .inr ⟨he, d, p, hpost, .waiting hn hr hl hd hd'⟩
  | answer b =>
    cases b with
    | rested cut =>
      rw [note_rested]
      show Moves _ a u (m.resume env (.backoff _) (.rested cut) u).2.post
      unfold Machine.resume
      dsimp only
      split
      · rename_i h
        exact .inr ⟨he, _, _, rfl, ends _ (.outcome .cancelled) (by rintro o ⟨⟩; exact ⟨h, rfl⟩)⟩
      · exact .inr ⟨he, _, _, rfl, .trying hn hr hd.left⟩
    | interrupted =>
      have hnote : v.note u.length m ⟨t, .answer .interrupted, p⟩ = v := by simp [note, p]
      rw [hnote]
      exact .inr ⟨he, _, _, rfl, ends v.cutShort .interrupted nofun⟩
    | _ => exact absurd hc id
  | _ => exact absurd hc id

/-- A step in the middle of an attempt. -/
theorem carrying_moves (hn : v.numbers = List.range' 1 (v.results.length + 1)) (hr : v.Retried a)
    (hk : v.results.length ≤ a.policy.retries) (he : v.ending = none) (c : Control) (ks : List Pending)
    (since : Seconds) :
    let p := ks ++ .attempt { a with number := v.results.length + 1 } since :: u
    (v.note u.length m ⟨t, c, p⟩).Moves a u (m.step env t c p).2.post := by
  intro p
  -- What the step leaves alone has the attempt in it, unless it is the attempt that is handed an answer.
  have above (ls : List Pending) (hnote : v.note u.length m ⟨t, c, p⟩ = v)
      (hrest : c.rest p = ls ++ .attempt { a with number := v.results.length + 1 } since :: u) :
      (v.note u.length m ⟨t, c, p⟩).Moves a u (m.step env t c p).2.post := by
    obtain ⟨d, ms, hd⟩ := m.step_post env t (c := c) (p := p) (by rw [hrest]; simp)
    rw [hnote, hd, hrest, ← List.append_assoc]
    exact .inr ⟨he, d, _, rfl, .carrying hn hr hk d (ms ++ ls) since⟩
  have hp : u.length < p.length := by simp [p]; omega
  cases c with
  | answer b =>
    rcases ks with _ | ⟨k, ks⟩
    · by_cases hb : ∃ o, b = .outcome o
      · obtain ⟨o, rfl⟩ := hb
        exact result_moves hn hr hk he since o
      · exact passed_moves hn hr hk he since fun o ho => hb ⟨o, ho⟩
    · refine above ks (note_above v m t u hp (.inr ?_)) rfl
      simp only [p, List.length_cons, List.length_append]
      omega
  | _ => exact above ks (note_above v m t u hp (.inl nofun)) rfl

theorem Goes.moves (h : v.Goes a u c p) (he : v.ending = none) :
    (v.note u.length m ⟨t, c, p⟩).Moves a u (m.step env t c p).2.post := by
  cases h with
  | trying hn hr hk => exact trying_moves hn hr hk he
  | carrying hn hr hk c ks since => exact carrying_moves hn hr hk he c ks since
  | waiting hn hr hl hd hc => exact waiting_moves hn hr hl hd hc he
  | answering b h =>
    rw [note_answer]
    exact .inl ⟨nofun, h⟩

end Visit

/-! Whole runs. -/

namespace Execution

variable {x : Execution} {t : TaskId} {c d : Control} {p q u : List Pending} {a : Attempt} {v : Visit}

theorem visit_isDecided (h : v.Goes a u c p) (he : v.ending = none) (hx : x.IsAt t c p)
    (hs : List Happening) : (visit t u.length hs x v).IsDecided a := by
  induction hs generalizing x v c p with
  | nil => exact h.isDecided he
  | cons b hs ih =>
    unfold visit
    rw [he, if_neg (by decide)]
    obtain ⟨hnone, d, hd, hx⟩ | ⟨env, hsome, hx⟩ := hx.meet b
    · rw [hnone]
      exact ih (h.aim hd) he hx
    · rw [hsome]
      have hmoves : (v.note u.length x.machine ⟨t, c, p⟩).Moves a u (x.machine.step env t c p).2.post :=
        h.moves he
      obtain ⟨hover, hdec⟩ | ⟨hon, d, q, hpost, hgo⟩ := hmoves
      · show (visit t u.length hs (x.meet b) (v.note u.length x.machine ⟨t, c, p⟩)).IsDecided a
        cases hs with
        | nil => exact hdec
        | cons b' hs =>
          unfold visit
          rw [if_pos (Option.isSome_iff_ne_none.mpr hover)]
          exact hdec
      · exact ih hgo hon (hx d q hpost)

/-- A visit that is at its end comes to it by the next step of the task. -/
theorem visit_answered {b : Answer} (hx : x.IsAt t (.answer b) u) (he : v.ending = none)
    (hs : List Happening) :
    visit t u.length hs x v = v ∨ visit t u.length hs x v = { v with ending := some b } := by
  induction hs generalizing x with
  | nil => exact .inl rfl
  | cons k hs ih =>
    unfold visit
    rw [he, if_neg (by decide)]
    obtain ⟨hnone, d, hd, hx⟩ | ⟨env, hsome, -⟩ := hx.meet k
    · rw [hnone]
      exact ih (Control.eq_answer hd ▸ hx)
    · rw [hsome, Option.elim_some, Visit.note_answer]
      cases hs <;> exact .inr rfl

/-- Nothing rises where no failure does. -/
theorem rise_eq_nil (hx : x.IsAt t c p) (hc : ∀ e n, c ≠ .answer (.outcome (.failed e n)))
    (hs : List Happening) : rise t hs x = [] := by
  induction hs generalizing x c with
  | nil => rfl
  | cons b hs ih =>
    unfold rise
    obtain ⟨hnone, d, hd, hx⟩ | ⟨env, hsome, -⟩ := hx.meet b
    · rw [hnone]
      refine ih hx ?_
      rintro e n rfl
      exact hc e n (Control.eq_answer hd.symm)
    · rw [hsome]
      split
      · rename_i h
        cases h
      · rename_i h
        cases h
        exact absurd rfl (hc _ _)
      · rfl

/-- Whatever a failure is handed to on its way up is handed this failure, wrapped. -/
theorem rise_wraps {e e₀ : ErrorInfo} {n : Option String}
    (hx : x.IsAt t (.answer (.outcome (.failed e n))) p) (hw : e.Wraps e₀) (hs : List Happening) :
    ∀ z ∈ rise t hs x, z.2.Wraps e₀ := by
  induction hs generalizing x e n p with
  | nil => simp [rise]
  | cons b hs ih =>
    unfold rise
    obtain ⟨hnone, d, hd, hx⟩ | ⟨env, hsome, hx⟩ := hx.meet b
    · rw [hnone]
      exact ih (Control.eq_answer hd ▸ hx) hw
    · rw [hsome]
      cases p with
      | nil => simp
      | cons k p =>
        obtain ⟨d, q, hpost, hd⟩ := x.machine.resume_failed env k e n p
        have hx := hx d q hpost
        intro z hz
        rcases List.mem_cons.mp hz with rfl | hz
        · exact hw
        by_cases hfail : ∃ e' n', d = .answer (.outcome (.failed e' n'))
        · obtain ⟨e', n', rfl⟩ := hfail
          exact ih hx ((hd e' n' rfl).trans hw) z hz
        · rw [rise_eq_nil hx (fun e' n' he => hfail ⟨e', n', he⟩)] at hz
          cases hz

/-- A visit begins with its first attempt. -/
theorem IsManned.visits (hm : x.IsManned) {walk : Walk} {node : Node} {q : Policy} {env : Surroundings}
    (hx : x.active = some ⟨t, .dispatch walk node, p⟩) (hl : x.machine.token.cancelled = false)
    (hn : node.disabled = false) (hq : walk.policy env.settings node = .ok q) :
    (x.stepIn env).IsAt t (.try ⟨walk.place, node, q, 1⟩) (.visit walk node :: p) := by
  refine .stepIn hx (hm _ hx) ?_
  show (x.machine.dispatch env walk node p).2.post = _
  unfold Machine.dispatch
  dsimp only
  rw [if_neg (by simp [hl]), if_neg (by simp [hn])]
  unfold Walk.policy at hq
  rw [hq]
  rfl

/-- A node that is disabled is passed over. -/
theorem IsManned.skips (hm : x.IsManned) {walk : Walk} {node : Node} (env : Surroundings)
    (hx : x.active = some ⟨t, .dispatch walk node, p⟩) (hl : x.machine.token.cancelled = false)
    (hn : node.disabled = true) : (x.stepIn env).IsAt t
      (.answer (.outcome (.completed (some Label.default)))) (.visit walk node :: p) := by
  refine .stepIn hx (hm _ hx) ?_
  show (x.machine.dispatch env walk node p).2.post = _
  unfold Machine.dispatch
  dsimp only
  rw [if_neg (by simp [hl]), if_pos hn]
  rfl

/-- However a run is carried out, a node that is disabled is passed over without an attempt. The attempts
at another node are numbered from one, and there are no more of them than its policy and the settings allow.
Each but the last failed in a way that the policy has retried, and what comes of the visit is the last result
as the policy decides about it, unless the wait for another attempt was cut short. A failure that is not to
be retried is not retried at any node that it rises to. -/
theorem attempts_decided (id : String) (flow : Flow) (bindings : Entries Value) (breakpoints : Breakpoints)
    (pauseOnStart : Bool) (stamp : Instant) (before : List Happening) :
    let x := following before (ofMachine (.create id flow bindings breakpoints pauseOnStart stamp))
    (∀ t walk node p env, x.active = some ⟨t, .dispatch walk node, p⟩ → x.machine.token.cancelled = false →
      (node.disabled = true → ∀ hs, (visit t (p.length + 1) hs (x.stepIn env) {}).IsSkipped) ∧
      (node.disabled = false → ∀ q, walk.policy env.settings node = .ok q →
        q.retries ≤ env.settings.maxRetriesHardCap ∧
        ∀ hs, (visit t (p.length + 1) hs (x.stepIn env) {}).IsDecided ⟨walk.place, node, q, 1⟩)) ∧
    (∀ t e n p, x.active = some ⟨t, .answer (.outcome (.failed e n)), p⟩ → e.retryable = false →
      ∀ hs a since e', (.attempt a since, e') ∈ rise t hs x → e'.Wraps e ∧ Decision.make a e' ≠ .retry) := by
  intro x
  have hm : x.IsManned := (IsManned.of_idle rfl).following before
  refine ⟨fun t walk node p env hx hl => ⟨fun hn hs => ?_,
    fun hn q hq => ⟨Policy.retries_le hq, fun hs => ?_⟩⟩, fun t e n p hx he hs a since e' hz => ?_⟩
  · have hended := visit_answered (v := {}) (hm.skips env hx hl hn) rfl hs
    rw [List.length_cons] at hended
    rcases hended with h | h <;> rw [h]
    · exact ⟨rfl, rfl, nofun⟩
    · exact ⟨rfl, rfl, fun b hb => (Option.some.inj hb).symm⟩
  · have htry : ({} : Visit).Goes ⟨walk.place, node, q, 1⟩ (.visit walk node :: p)
        (.try ⟨walk.place, node, q, 1⟩) (.visit walk node :: p) := .trying rfl nofun (Nat.zero_le _)
    exact visit_isDecided htry rfl (hm.visits hx hl hn hq) hs
  · have hw : e'.Wraps e := rise_wraps (.active hx (hm _ hx)) (.refl e) hs _ hz
    refine ⟨hw, fun hr => ?_⟩
    have hdue : a.IsDue e' := by
      have h := a.decides e' none false
      rw [hr] at h
      exact h
    have hretry := hdue.admits.retryable
    rw [hw.retryable, he] at hretry
    cases hretry

/-- Surroundings in which the elements of live collections are not to be had. -/
def forlorn (registry : Registry) : Surroundings where
  settings := {}
  registry
  flows := []
  provider := some ⟨.error (.raised "RuntimeError" "gone")⟩
  slotsLocked := false
  calls := []
  now := 0.0
  stamp := 0

/-- A flow with one node that is tried again once, after a wait, and then passed over. -/
def enduring (kind : String) (config : Entries Value) (wait : Nat) : Flow where
  id := "main"
  nodes := [{
    id := "first", kind, config
    policy := some [("onError", .str "retry"), ("retries", .int 1), ("backoffMs", .int wait),
      ("fallback", .str "continue")] }]
  subflows := [("body", { id := "body", nodes := [{ id := "second", kind := "busy" }] })]

/-- A loop over elements that are not to be had. -/
def looking (wait : Nat) : Flow :=
  enduring "loopElements" [("selector", .str "rows"), ("subflowId", .str "body")] wait

/-- A call of a flow that fails. -/
def summoning : Flow :=
  enduring "executeFlow" [("flowId", .str "body")] 0

/-- The run of a flow begins, and its walk takes some steps. -/
def walking (registry : Registry) (steps : Nat) : List Happening :=
  .command (.start false) :: .begin 0 :: List.replicate steps (.step (forlorn registry))

/-- A run when its walk has taken some steps. -/
def walked (registry : Registry) (flow : Flow) (steps : Nat) : Execution :=
  following (walking registry steps) (ofMachine (.create "" flow [] [] false 0))

/-- What comes of the visit of the node while some things happen. -/
def firstVisit (registry : Registry) (flow : Flow) (hs : List Happening) : Visit :=
  visit 0 2 hs ((walked registry flow 3).stepIn (forlorn registry)) {}

/-- A loop over elements fails twice and is passed over. A node of a kind that nobody carries out fails, and
the call of its flow is not tried again. -/
theorem attempts_decided_enduring :
    (∃ walk node q, (walked [] (looking 0) 3).active = some ⟨0, .dispatch walk node, [.execution]⟩ ∧
      (walked [] (looking 0) 3).machine.token.cancelled = false ∧ node.disabled = false ∧
      walk.policy {} node = .ok q ∧
      let v := firstVisit [] (looking 0) (List.replicate 8 (.step (forlorn [])))
      v.IsDecided ⟨walk.place, node, q, 1⟩ ∧ v.numbers = [1, 2]) ∧
    ∃ e n p, (walked [] summoning 9).active = some ⟨0, .answer (.outcome (.failed e n)), p⟩ ∧
      e.retryable = false ∧
      ∃ a since e', (.attempt a since, e') ∈ rise 0 (List.replicate 5 (.step (forlorn []))) (walked [] summoning 9) ∧
        a.node.id = "first" ∧ e'.Wraps e ∧ Decision.make a e' ≠ .retry := by
  refine ⟨?_, ?_⟩
  · obtain ⟨walk, node, hx, hl, hn, q, hq⟩ : ∃ walk node,
        (walked [] (looking 0) 3).active = some ⟨0, .dispatch walk node, [.execution]⟩ ∧
        (walked [] (looking 0) 3).machine.token.cancelled = false ∧ node.disabled = false ∧
        ∃ q, walk.policy {} node = .ok q := ⟨_, _, rfl, rfl, rfl, _, rfl⟩
    have hdec := ((attempts_decided "" (looking 0) [] [] false 0 (walking [] 3)).1 0 walk node [.execution]
      (forlorn []) hx hl).2 hn q hq
    exact ⟨walk, node, q, hx, hl, hn, hq, hdec.2 _, by decide +kernel⟩
  · obtain ⟨e, n, p, hx, he⟩ : ∃ e n p,
        (walked [] summoning 9).active = some ⟨0, .answer (.outcome (.failed e n)), p⟩ ∧ e.retryable = false :=
      ⟨_, _, _, rfl, rfl⟩
    obtain ⟨a, since, e', hz, ha⟩ : ∃ a since e',
        (rise 0 (List.replicate 5 (.step (forlorn []))) (walked [] summoning 9)).getLast? =
          some (.attempt a since, e') ∧ a.node.id = "first" := ⟨_, _, _, rfl, rfl⟩
    have hz := List.mem_of_getLast? hz
    obtain ⟨hw, hd⟩ := (attempts_decided "" summoning [] [] false 0 (walking [] 9)).2 0 e n p hx he _ a since e' hz
    exact ⟨e, n, p, hx, he, a, since, e', hz, ha, hw, hd⟩

/-- The attempt fails, and while the run waits for another one it is cancelled. -/
def cancelling : List Happening :=
  [.step (forlorn []), .step (forlorn []), .command (.cancel none 0), .begin 1, .step (forlorn []),
    .step (forlorn []), .tell 0 0, .begin 0, .step (forlorn []), .step (forlorn []), .step (forlorn [])]

/-- A handler that fails in a way that may be tried again, because of a failure that may not. -/
def misled : Registry :=
  [("busy", { handler := .planned [.reply (.failure (some {
    code := "busy", message := "busy"
    cause := some { code := "gone", message := "gone", retryable := false } }))] })]

/-- The flow is called, the handler of its node fails, and the failure rises. -/
def misleading : List Happening :=
  List.replicate 5 (.step (forlorn misled)) ++
    [.begin 1, .step (forlorn misled), .step (forlorn misled), .step (forlorn misled), .tell 0 0, .begin 0] ++
    List.replicate 10 (.step (forlorn misled))

/-- A visit whose last attempt failed is cancelled, although its policy goes on after failures that are not
fatal. A call is tried again after a failure whose innermost cause is not to be retried. -/
theorem cut_short_and_misled :
    (∃ walk node q e, (walked [] (looking 1000) 3).active = some ⟨0, .dispatch walk node, [.execution]⟩ ∧
      walk.policy {} node = .ok q ∧ q.onError = .retry ∧ q.fallback = .continue ∧
      e.code ∉ Policy.fatalCodes ∧
      let v := firstVisit [] (looking 1000) cancelling
      v.results = [.failed e none] ∧ v.ending = some (.outcome .cancelled)) ∧
    ∃ e c d, c.cause = some d ∧ d.cause = none ∧ d.retryable = false ∧ e.cause = some c ∧
      let v := firstVisit misled summoning misleading
      v.results = [.failed e none] ∧ v.numbers = [1, 2] :=
  ⟨⟨_, _, _, _, rfl, rfl, rfl, rfl, by decide, rfl, rfl⟩, _, _, _, rfl, rfl, rfl, rfl, rfl, rfl⟩

end Execution

end Workflow
