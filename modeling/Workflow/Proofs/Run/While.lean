import Workflow.Proofs.Run.Rounds
import Workflow.Proofs.Run.Strain
/-!
Loops with a condition. The condition is checked before each run of the body and once more in the end; the
number of runs is bounded, and a bound that is none is refused before anything is checked.
-/

namespace Workflow

/-- The positive number that a value is read as; a truth value is none. -/
def Value.positive? : Value → Option Nat
  | bool _ => none
  | v =>
    match v.toWhole with
    | .ok n => if 0 < n then some n.toNat else none
    | .error _ => none

namespace Machine

variable {v : Value} {n : Nat}

theorem givenBound_of_toWhole {k : Int} (hb : ∀ b, v ≠ .bool b) (h : v.toWhole = .ok k) :
    givenBound v = .ok k := by
  unfold givenBound
  split
  · exact absurd rfl (hb _)
  · rw [h]

theorem givenBound_of_positive (h : v.positive? = some n) :
    ∃ k : Int, givenBound v = .ok k ∧ 0 < k ∧ k.toNat = n := by
  unfold Value.positive? at h
  split at h
  · cases h
  · rename_i hb
    split at h
    · rename_i k hk
      split at h
      · exact ⟨k, givenBound_of_toWhole hb hk, by assumption, Option.some.inj h⟩
      · cases h
    · cases h

/-- What is no positive number is none at all, unless it is infinite. -/
theorem givenBound_of_none (h : v.positive? = none) (hi : v.isInfinite = false) :
    ∃ k : Int, givenBound v = .ok k ∧ k ≤ 0 := by
  unfold Value.positive? at h
  split at h
  · exact ⟨0, rfl, Int.le_refl 0⟩
  · rename_i hb
    split at h
    · rename_i k hk
      split at h
      · cases h
      · exact ⟨k, givenBound_of_toWhole hb hk, by omega⟩
    · rename_i f hf
      refine ⟨0, ?_, Int.le_refl 0⟩
      unfold givenBound
      split
      · rfl
      · rw [hf]
        obtain hk | ⟨-, hinf⟩ := Value.toWhole_error hf
        · dsimp only
          rcases hk with hk | hk <;> rw [hk] <;> rfl
        · rw [hi] at hinf
          cases hinf

section startWhile

variable (m : Machine) (env : Surroundings) {place : Place} {node : Node} {body : Flow}

theorem startWhile_bounded (p : List Pending)
    (hn : ((Value.obj node.config).field "maxIterations").positive? = some n)
    (hb : m.lookupFlow env place.flow ((Value.obj node.config).field "subflowId") = some body) :
    m.startWhile env place node p =
      (m, .go (.iterate ⟨place, node, body⟩ (min n env.settings.maxLoopIterations) 0) p) := by
  obtain ⟨k, hgiven, hpos, rfl⟩ := givenBound_of_positive hn
  unfold startWhile
  dsimp only
  rw [hgiven]
  dsimp only
  rw [if_neg (by omega), hb]

/-- Without a positive bound a loop is refused. -/
theorem startWhile_unbounded (place : Place) (p : List Pending)
    (hn : ((Value.obj node.config).field "maxIterations").positive? = none)
    (hi : ((Value.obj node.config).field "maxIterations").isInfinite = false) :
    m.startWhile env place node p =
      (m, .fail (.invalid ("while node '" ++ node.id ++ "' requires a positive maxIterations")
        [("maxIterations", (Value.obj node.config).field "maxIterations")]) p) := by
  obtain ⟨k, hgiven, hneg⟩ := givenBound_of_none hn hi
  unfold startWhile
  dsimp only
  rw [hgiven]
  dsimp only
  rw [if_pos hneg]

end startWhile

end Machine

namespace Rounds

variable {v : Rounds} {R : Nat → Round → Prop} {body : Flow} {a : Attempt} {i n r bound : Nat}
  {u p : List Pending} {c d : Control} {last : Option Answer}

/-- The condition is checked once before each run of the body, and at most once more. -/
structure IsPaced (v : Rounds) : Prop where
  paced : v.runs.length ≤ v.checks.length ∧ v.checks.length ≤ v.runs.length + 1
  /-- There is a run only behind a check that holds. -/
  held : ∀ i < v.runs.length, v.checks[i]? = some true
  /-- There is another check only behind a run that completes. -/
  again : ∀ i, i + 1 < v.checks.length → v.results[i]? = some .onward

/-- A body is run while a condition holds, no more than so many times. -/
structure IsBounded (v : Rounds) (a : Attempt) (body : Flow) (bound : Nat) : Prop
    extends v.IsSerial body (fun _ z => z.flow = body), v.IsPaced where
  bounded : v.runs.length ≤ bound
  /-- When the condition does not hold any more, the loop is left. -/
  exits : ∀ k, v.checks = List.replicate k true ++ [false] → v.runs.length = k ∧
    v.ending = some (.outcome (.completed (some Label.loopExit)))
  /-- When it still holds after the last run that there may be, that is a failure. -/
  exceeds : v.checks = List.replicate (bound + 1) true → v.runs.length = bound ∧
    v.ending = some (.outcome (.failed (.loopLimit a.node.id bound) none))
  /-- The attempt ends in these ways, by a body run that does not complete, or because it is cancelled. -/
  ended : ∀ b, v.ending = some b → (∃ k, v.checks = List.replicate k true ++ [false]) ∨
    v.checks = List.replicate (bound + 1) true ∨ (b ∈ v.results ∧ b ≠ .onward) ∨
    (b = .outcome .cancelled ∧ v.cancelled = true)

theorem replicate_ne_concat {n k : Nat} : List.replicate n true ≠ List.replicate k true ++ [false] := by
  intro h
  have hmem : false ∈ List.replicate n true := by
    rw [h]
    simp
  cases List.eq_of_mem_replicate hmem

/-- Checks that have held, and maybe one that has not. -/
theorem Tally.isPaced {walks done : Nat} {more : List Bool} (ht : v.Tally body R r walks done last)
    (hc : v.checks = List.replicate n true ++ more) (hr : r ≤ n) (hn : n + more.length ≤ r + 1)
    (hd : n + more.length ≤ done + 1) : v.IsPaced := by
  have hlen : v.checks.length = n + more.length := by
    rw [hc, List.length_append, List.length_replicate]
  refine ⟨by rw [ht.runs]; omega, fun i hi => ?_, fun i hi => ?_⟩
  · rw [ht.runs] at hi
    rw [hc, List.getElem?_append_left (by rw [List.length_replicate]; omega), List.getElem?_replicate,
      if_pos (by omega)]
  · rw [ht.results, List.getElem?_append_left (by rw [List.length_replicate]; omega), List.getElem?_replicate,
      if_pos (by omega)]

/-- As long as no more checks have held than there may be runs, the loop goes on unless something else ends
it. -/
theorem IsPaced.isBounded (hp : v.IsPaced) (hs : v.IsSerial body fun _ z => z.flow = body)
    (hc : v.checks = List.replicate n true) (hn : n ≤ bound)
    (he : ∀ b, v.ending = some b → (b ∈ v.results ∧ b ≠ .onward) ∨ (b = .outcome .cancelled ∧ v.cancelled = true)) :
    v.IsBounded a body bound where
  toIsSerial := hs
  toIsPaced := hp
  bounded := by
    have hle := hp.paced.1
    rw [hc, List.length_replicate] at hle
    exact Nat.le_trans hle hn
  exits _ hk := absurd (hc.symm.trans hk) replicate_ne_concat
  exceeds hk := by
    have hlen := congrArg List.length (hc.symm.trans hk)
    simp only [List.length_replicate] at hlen
    omega
  ended b hb := (he b hb).elim (fun h => .inr (.inr (.inl h))) fun h => .inr (.inr (.inr h))

/-- The condition does not hold any more. -/
theorem Tally.isBounded_exit (ht : v.Tally body (fun _ z => z.flow = body) i i i none)
    (hc : v.checks = List.replicate i true ++ [false]) (hi : i ≤ bound)
    (he : v.ending = some (.outcome (.completed (some Label.loopExit)))) : v.IsBounded a body bound where
  toIsSerial := ht.isSerial (Nat.le_succ i) (Nat.le_refl i)
  toIsPaced := ht.isPaced hc (Nat.le_refl i) (Nat.le_refl _) (Nat.le_refl _)
  bounded := ht.runs.symm ▸ hi
  exits k hk := by
    have hlen := congrArg List.length (hc.symm.trans hk)
    simp only [List.length_append, List.length_replicate, List.length_singleton] at hlen
    exact ⟨ht.runs.trans (by omega), he⟩
  exceeds hk := absurd (hk.symm.trans hc) replicate_ne_concat
  ended _ _ := .inl ⟨i, hc⟩

/-- The condition still holds after the last run. -/
theorem Tally.isBounded_limit (ht : v.Tally body (fun _ z => z.flow = body) bound bound bound none)
    (hc : v.checks = List.replicate (bound + 1) true)
    (he : v.ending = some (.outcome (.failed (.loopLimit a.node.id bound) none))) : v.IsBounded a body bound where
  toIsSerial := ht.isSerial (Nat.le_succ _) (Nat.le_refl _)
  toIsPaced := ht.isPaced (hc.trans (List.append_nil _).symm) (Nat.le_succ _) (Nat.le_refl _)
    (Nat.le_refl _)
  bounded := Nat.le_of_eq ht.runs
  exits _ hk := absurd (hc.symm.trans hk) replicate_ne_concat
  exceeds _ := ⟨ht.runs, he⟩
  ended _ _ := .inr (.inl hc)

/-- Where the task is while the loop goes on. -/
inductive Loops (v : Rounds) (a : Attempt) (body : Flow) (bound : Nat) (u : List Pending) :
    Control → List Pending → Prop
  | checking (i : Nat) (ht : v.Tally body (fun _ z => z.flow = body) i i i none)
      (hc : v.checks = List.replicate i true) (hi : i ≤ bound) :
    Loops v a body bound u (.iterate ⟨a.place, a.node, body⟩ bound i) u
  | running (i : Nat) (hc : v.checks = List.replicate (i + 1) true) (hi : i < bound) {c : Control}
      {p : List Pending}
      (h : v.Runs body (fun _ z => z.flow = body) i (.while ⟨a.place, a.node, body⟩ bound i) u c p) :
    Loops v a body bound u c p

theorem Loops.aim (h : v.Loops a body bound u c p) (hd : d.aim = c.aim) : v.Loops a body bound u d p := by
  cases h with
  | checking i ht hc hi => exact Control.eq_of_aim hd (by simp) ▸ .checking i ht hc hi
  | running i hc hi h => exact .running i hc hi (h.aim hd)

theorem Loops.isBounded (h : v.Loops a body bound u c p) (he : v.ending = none) : v.IsBounded a body bound := by
  have open_ : ∀ b, v.ending = some b → (b ∈ v.results ∧ b ≠ .onward) ∨
      (b = .outcome .cancelled ∧ v.cancelled = true) := by
    rw [he]
    simp
  have hnil {n : Nat} (hc : v.checks = List.replicate n true) : v.checks = List.replicate n true ++ [] :=
    hc.trans (List.append_nil _).symm
  cases h with
  | checking i ht hc hi =>
    exact (ht.isPaced (hnil hc) (Nat.le_refl i) (Nat.le_succ i) (Nat.le_succ i)).isBounded
      (ht.isSerial (Nat.le_succ i) (Nat.le_refl i)) hc hi open_
  | running i hc hi h =>
    cases h with
    | refused ht limit =>
      exact (ht.isPaced (hnil hc) (Nat.le_succ i) (Nat.le_refl _) (Nat.le_refl _)).isBounded
        (ht.isSerial (Nat.le_succ i) (Nat.le_refl i)) hc hi open_
    | walking ht | returning ht =>
      exact (ht.isPaced (hnil hc) (Nat.le_refl _) (Nat.le_succ _) (Nat.le_refl _)).isBounded
        (ht.isSerial (Nat.le_refl _) (by omega)) hc hi open_

/-- The loop is over, or it goes on. -/
def Turns (v : Rounds) (a : Attempt) (body : Flow) (bound : Nat) (u : List Pending) (x : Post) : Prop :=
  (v.ending ≠ none ∧ v.IsBounded a body bound) ∨
    (v.ending = none ∧ ∃ d q, x = .doing d q ∧ v.Loops a body bound u d q)

section steps

variable (m : Machine) (env : Surroundings) (t : TaskId)

theorem checking_turns (ht : v.Tally body (fun _ z => z.flow = body) i i i none)
    (hc : v.checks = List.replicate i true) (hi : i ≤ bound) :
    let loop : Loop := ⟨a.place, a.node, body⟩
    (v.note a u.length m ⟨t, .iterate loop bound i, u⟩ (m.step env t (.iterate loop bound i) u)).Turns a body bound u
      (m.step env t (.iterate loop bound i) u).2.post := by
  intro loop
  rw [note_check]
  show Turns _ a body bound u (m.iterate env loop bound i u).2.post
  have hstep : m.step env t (.iterate loop bound i) u = m.iterate env loop bound i u := rfl
  rw [hstep]
  unfold Machine.iterate
  dsimp only
  cases hcond : Condition.holds (m.vars a.place.layers) ((Value.obj a.node.config).field "condition") with
  | false =>
    rw [if_pos (by rfl)]
    have hend : result? u.length (Turn.outcome (.completed (some Label.loopExit)) u) =
        some (.outcome (.completed (some Label.loopExit))) := if_pos rfl
    refine .inl ⟨by rw [hend]; simp, Tally.isBounded_exit (i := i) ?_ (by rw [hc]) hi hend⟩
    exact ht.congr (List.append_nil _) rfl rfl
  | true =>
    have hmore : v.checks ++ [true] = List.replicate (i + 1) true := by rw [hc, List.replicate_succ']
    rw [if_neg (by simp), hmore]
    split
    · obtain rfl : i = bound := by omega
      have hend : result? u.length (Turn.fail (.loopLimit a.node.id i) u) =
          some (.outcome (.failed (.loopLimit a.node.id i) none)) := if_pos rfl
      refine .inl ⟨by rw [hend]; simp, Tally.isBounded_limit ?_ rfl hend⟩
      exact ht.congr (List.append_nil _) rfl rfl
    · have hlt : i < bound := by omega
      split
      · rename_i hcut
        have hend : result? u.length (Turn.outcome .cancelled u) = some (.outcome .cancelled) := if_pos rfl
        refine .inl ⟨by rw [hend]; simp, ?_⟩
        let w : Rounds := { v with
          checks := List.replicate (i + 1) true, runs := v.runs ++ [], cancelled := v.cancelled || m.token.cancelled
          ending := result? u.length (Turn.outcome .cancelled u) }
        have htally : w.Tally body (fun _ z => z.flow = body) i i i none := ht.congr (List.append_nil _) rfl rfl
        refine IsPaced.isBounded (v := w) (n := i + 1) ?_ (htally.isSerial (Nat.le_succ i) (Nat.le_refl i)) rfl hlt
          fun b hb => .inr ⟨?_, ?_⟩
        · exact htally.isPaced (List.append_nil _).symm (Nat.le_succ i) (Nat.le_refl _) (Nat.le_refl _)
        · exact (Option.some.inj (hend.symm.trans hb)).symm
        · show (v.cancelled || m.token.cancelled) = true
          rw [hcut, Bool.or_true]
      · obtain ⟨hend, hgo⟩ := ht.call (k := .while loop bound i) (u := u)
          (m.addLayer { shared := true } a.place.layers).1 env (m.addLayer { shared := true } a.place.layers).2 a.node
          rfl
        obtain ⟨d, q, hpost, hruns⟩ := hgo { v with
          checks := List.replicate (i + 1) true, runs := v.runs ++ _, cancelled := v.cancelled || m.token.cancelled
          ending := _ } rfl rfl rfl
        exact .inr ⟨hend, d, q, hpost, .running i rfl hlt hruns⟩

theorem hearing_turns (hc : v.checks = List.replicate (i + 1) true) (hi : i < bound) {b : Answer}
    (h : v.Hears body (fun _ z => z.flow = body) i b) :
    let p := .while ⟨a.place, a.node, body⟩ bound i :: u
    (v.note a u.length m ⟨t, .answer b, p⟩ (m.step env t (.answer b) p)).Turns a body bound u
      (m.step env t (.answer b) p).2.post := by
  intro p
  rw [note_heard v a m t u b (.while ⟨a.place, a.node, body⟩ bound i) nofun]
  -- Every answer but a completion is handed on, and the loop is over.
  have stops (hstep : m.step env t (.answer b) p = (m, .answer b u)) (hne : b ≠ .onward) :
      Turns { checks := v.checks, runs := v.runs ++ begun u.length (m.step env t (.answer b) p), walks := v.walks
              results := v.results ++ [b], cancelled := v.cancelled || m.token.cancelled
              ending := result? u.length (m.step env t (.answer b) p).2 } a body bound u
        (m.step env t (.answer b) p).2.post := by
    rw [hstep]
    have hend : result? u.length (Turn.answer b u) = some b := if_pos rfl
    rw [hend]
    refine .inl ⟨by simp, ?_⟩
    obtain ⟨runs, walks, ht, hr, hr', hn, hb⟩ := h.tally (w := { v with
      runs := v.runs ++ [], results := v.results ++ [b], cancelled := v.cancelled || m.token.cancelled
      ending := some b }) (List.append_nil _) rfl rfl
    refine (ht.isPaced (hc.trans (List.append_nil _).symm) hr' (Nat.succ_le_succ hr) (Nat.le_refl _)).isBounded
      (ht.isSerial_stopped rfl hr' hn hb) hc hi fun b' hb' => .inl ?_
    cases hb'
    exact ⟨List.mem_append_right _ List.mem_cons_self, hne⟩
  cases b with
  | outcome o =>
    cases o with
    | completed l =>
      obtain ⟨rfl, ht, e, he, hcalled⟩ := h.onward
      exact .inr ⟨rfl, _, _, rfl, .checking (i + 1) (ht.next he hcalled (List.append_nil _) rfl rfl) hc hi⟩
    | _ => exact stops rfl nofun
  | _ => exact stops rfl nofun

theorem Loops.turns (h : v.Loops a body bound u c p) :
    (v.note a u.length m ⟨t, c, p⟩ (m.step env t c p)).Turns a body bound u (m.step env t c p).2.post := by
  cases h with
  | checking i ht hc hi => exact checking_turns m env t ht hc hi
  | running i hc hi h =>
    obtain ⟨hsame, hend, d, q, hpost, hruns⟩ | ⟨b, rfl, rfl, hb⟩ := h.step a m env t
    · exact .inr ⟨hend, d, q, hpost, .running i (hsame.trans hc) hi hruns⟩
    · exact hearing_turns m env t hc hi hb

end steps

end Rounds

namespace Execution

/-- However a run is carried out, an attempt at a loop with a condition checks it once before each run of the
body, and runs the body no more often than its bound and the settings allow. The loop is left as soon as the
condition does not hold; if it holds once more than the body may be run, or if a body run does not complete,
the attempt results in that. If no positive bound is given, that is all the attempt results in. -/
theorem while_bounded (id : String) (flow : Flow) (bindings : Entries Value) (breakpoints : Breakpoints)
    (pauseOnStart : Bool) (stamp : Instant) (before : List Happening) :
    let x := following before (ofMachine (.create id flow bindings breakpoints pauseOnStart stamp))
    ∀ t a p, x.active = some ⟨t, .try a, p⟩ → a.node.kind = "while" → ∀ env hs,
      let config := Value.obj a.node.config
      let v := rounds t (p.length + 1) a (.step env :: hs) x {}
      (∀ n body, (config.field "maxIterations").positive? = some n →
        x.machine.lookupFlow env a.place.flow (config.field "subflowId") = some body →
          v.IsBounded a body (min n env.settings.maxLoopIterations)) ∧
      ((config.field "maxIterations").positive? = none → (config.field "maxIterations").isInfinite = false →
        v.checks = [] ∧ v.runs = [] ∧ ∃ e, v.ending = some (.outcome (.failed e none)) ∧
          e.code = "validation_error" ∧ e.retryable = false) ∧
      ∀ bound, Decision.make a (.loopLimit a.node.id bound) = .stop := by
  intro x t a p hx hkind env hs config v
  have hm : x.IsManned := (IsManned.of_idle rfl).following before
  let n := x.machine.emit "node.started" (Machine.startedPayload a.node a.number a.place.depth)
  have hstep : x.machine.step env t (.try a) p = n.startWhile env a.place a.node (.attempt a env.now :: p) := by
    show x.machine.attempt env a p = _
    unfold Machine.attempt
    rw [hkind]
    rfl
  have hv : v = rounds t (p.length + 1) a hs (x.stepIn env)
      { runs := Rounds.begun (p.length + 1) (x.machine.step env t (.try a) p)
        cancelled := x.machine.token.cancelled
        ending := Rounds.result? (p.length + 1) (x.machine.step env t (.try a) p).2 } := by
    show rounds t (p.length + 1) a (.step env :: hs) x {} = _
    rw [rounds_cons rfl, noted_step hx, Rounds.note_try]
    rfl
  refine ⟨fun k body hk hbody => ?_, fun hk hi => ?_, fun _ => rfl⟩
  · let loop : Loop := ⟨a.place, a.node, body⟩
    let bound := min k env.settings.maxLoopIterations
    let u := .attempt a env.now :: p
    have hgo : x.machine.step env t (.try a) p = (n, .go (.iterate loop bound 0) u) :=
      hstep.trans (n.startWhile_bounded env u hk hbody)
    rw [hgo] at hv
    let start : Rounds := { cancelled := x.machine.token.cancelled }
    have hstart : start.Loops a body bound u (.iterate loop bound 0) u :=
      .checking 0 ⟨rfl, nofun, rfl, rfl, nofun⟩ rfl (Nat.zero_le _)
    have hat := IsAt.stepIn hx (hm _ hx) (congrArg (·.2.post) hgo)
    rw [hv]
    obtain ⟨-, h⟩ | ⟨he, c, q, h, -⟩ := rounds_goes (p.length + 1) a
      (fun v => v.Loops a body bound u) (fun v => v.IsBounded a body bound)
      Rounds.Loops.aim (fun h _ m env => h.turns m env t) hstart rfl hat hs
    · exact h
    · exact h.isBounded he
  · have hfail : x.machine.step env t (.try a) p = (n, .fail _ (.attempt a env.now :: p)) :=
      hstep.trans (n.startWhile_unbounded env a.place (.attempt a env.now :: p) hk hi)
    have hresult (e : ErrorInfo) : Rounds.result? (p.length + 1) (.fail e (.attempt a env.now :: p)) =
        some (.outcome (.failed e none)) := if_pos rfl
    rw [hfail, hresult] at hv
    rw [hv, rounds_of_ending (by simp)]
    exact ⟨rfl, rfl, _, rfl, rfl, rfl⟩

/-- A loop whose body sees to it that its condition does not hold any more. -/
def spinning (bound : Value) : Flow where
  id := "main"
  nodes := [{
    id := "spin", kind := "while"
    config := [("condition", .obj [("var", .str "go")]), ("maxIterations", bound), ("subflowId", .str "body")] }]
  subflows := [
    ("body", { id := "body", nodes := [{
      id := "halt", kind := "executeFlow"
      config := [("flowId", .str "rest"), ("args", .obj [("go", .bool false)])] }] }),
    ("rest", { id := "rest", nodes := [{ id := "done", kind := "log", disabled := true }] })]

/-- Its run up to the attempt. -/
def spun (bound : Value) : Execution :=
  following (walking [] 4) (ofMachine (.create "" (spinning bound) [("go", .bool true)] [] false 0))

/-- The body is run once, as the condition holds and then does not. Without a bound nothing is checked. -/
theorem while_bounded_spinning :
    (∃ a p body, (spun (.int 3)).active = some ⟨0, .try a, p⟩ ∧ a.node.kind = "while" ∧
      ((Value.obj a.node.config).field "maxIterations").positive? = some 3 ∧
      (spun (.int 3)).machine.lookupFlow (forlorn []) a.place.flow ((Value.obj a.node.config).field "subflowId") =
        some body ∧
      let v := rounds 0 (p.length + 1) a (.step (forlorn []) :: List.replicate 18 (.step (forlorn [])))
        (spun (.int 3)) {}
      v.IsBounded a body (min 3 10000) ∧ v.checks = [true, false] ∧ v.runs.length = 1) ∧
    ∃ a p, (spun (.bool true)).active = some ⟨0, .try a, p⟩ ∧ a.node.kind = "while" ∧
      ((Value.obj a.node.config).field "maxIterations").positive? = none ∧
      ((Value.obj a.node.config).field "maxIterations").isInfinite = false ∧
      let v := rounds 0 (p.length + 1) a [.step (forlorn [])] (spun (.bool true)) {}
      v.checks = [] ∧ v.runs = [] ∧ v.ending.isSome = true := by
  refine ⟨?_, ?_⟩
  · obtain ⟨a, p, body, hx, hkind, hbound, hbody, hchecks⟩ : ∃ a p body,
        (spun (.int 3)).active = some ⟨0, .try a, p⟩ ∧ a.node.kind = "while" ∧
        ((Value.obj a.node.config).field "maxIterations").positive? = some 3 ∧
        (spun (.int 3)).machine.lookupFlow (forlorn []) a.place.flow ((Value.obj a.node.config).field "subflowId") =
          some body ∧
        (rounds 0 (p.length + 1) a (.step (forlorn []) :: List.replicate 18 (.step (forlorn [])))
          (spun (.int 3)) {}).checks = [true, false] :=
      ⟨_, _, _, rfl, rfl, rfl, rfl, by decide +kernel⟩
    have h := (while_bounded "" (spinning (.int 3)) [("go", .bool true)] [] false 0 (walking [] 4) 0 a p hx hkind
      (forlorn []) (List.replicate 18 (.step (forlorn [])))).1 3 body hbound hbody
    exact ⟨a, p, body, hx, hkind, hbound, hbody, h, hchecks, (h.exits 1 hchecks).1⟩
  · obtain ⟨a, p, hx, hkind, hbound, hfinite⟩ : ∃ a p,
        (spun (.bool true)).active = some ⟨0, .try a, p⟩ ∧ a.node.kind = "while" ∧
        ((Value.obj a.node.config).field "maxIterations").positive? = none ∧
        ((Value.obj a.node.config).field "maxIterations").isInfinite = false := ⟨_, _, rfl, rfl, rfl, rfl⟩
    obtain ⟨hchecks, hruns, e, hend, -⟩ := (while_bounded "" (spinning (.bool true)) [("go", .bool true)] [] false 0
      (walking [] 4) 0 a p hx hkind (forlorn []) []).2.1 hbound hfinite
    exact ⟨a, p, hx, hkind, hbound, hfinite, hchecks, hruns, Option.isSome_iff_exists.mpr ⟨_, hend⟩⟩

end Execution

end Workflow
