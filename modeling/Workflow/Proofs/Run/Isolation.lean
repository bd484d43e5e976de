import Workflow.Proofs.Run.Roam
import Workflow.Proofs.Run.Stance
/-!
Calls in a scope of their own. Whatever the called flow does, it writes to no layer that was there
before the call; when it completes, what it returns is written in the caller's scope, and nothing is
when it does not.
-/

namespace Workflow

/-- Whether a variable is written from outside. -/
def Input.IsWrite : Input → Prop
  | .command (.setVar _ _ _) => True
  | _ => False

namespace Machine

theorem size_obey (m : Machine) (c : Command) : (m.obey c).1.layers.size = m.layers.size := by
  by_cases hc : ∃ name v frame, c = .setVar name v frame
  · obtain ⟨name, v, frame, rfl⟩ := hc
    obtain he | ⟨layers, s, depth, he⟩ := m.obey_setVar name v frame
    · rw [he]
    · rw [he]
      exact size_putScope _ _ _
  · exact congrArg Array.size (obey_layers m fun name v frame hs => hc ⟨name, v, frame, hs⟩)

/-- What is returned from a child's scope that binds it, under the caller's names. -/
def returned (m : Machine) (child : List Nat) : Option Value → Entries Value
  | none => []
  | some returns => (returnNames returns).filterMap fun (parent, name) =>
      ((m.scope child).find? name).map (parent, ·)

/-- A call of another flow hands every answer on, and writes at most what is returned. -/
theorem resume_invocation (m : Machine) (env : Surroundings) (place : Place) (node : Node)
    (child : List Nat) (returns : Option Value) (a : Answer) (p : List Pending) :
    m.resume env (.invocation place node child returns) a p =
      (match a, returns with
        | .outcome (.completed _), some returns => m.writeReturns place node child returns
        | _, _ => m, .answer a p) := by
  cases a with
  | outcome o => cases o <;> cases returns <;> rfl
  | _ => cases returns <;> rfl

/-- An attempt at a node that calls a flow in a scope of its own. -/
structure CallsApart (m : Machine) (env : Surroundings) (a : Attempt) (target : Flow)
    (args : Entries Value) (returns : Option Value) : Prop where
  kind : a.node.kind = "executeFlow"
  called : ∃ config, Template.resolve (m.vars a.place.layers) (.obj a.node.config) = .ok config ∧
    m.lookupFlow env a.place.flow (config.field "flowId") = some target ∧
    (config.field "args").orElse (.obj []) = .obj args ∧
    ((config.field? "inline").getD (.bool true)).isVacant = true ∧
    returns = if (config.field "returns").isVacant then none else some (config.field "returns")

theorem call_layers (m : Machine) (env : Surroundings) (flow : Flow) (layers : List Nat) (node : Node)
    (shared : Bool) (p : List Pending) : (m.call env flow layers node shared p).1.layers = m.layers := by
  unfold call
  split <;> rfl

/-- A call in a scope of its own goes on in a new layer, in front of those of the caller. -/
theorem CallsApart.attempt_eq {m : Machine} {env : Surroundings} {a : Attempt} {target : Flow}
    {args : Entries Value} {returns : Option Value} (h : CallsApart m env a target args returns)
    (p : List Pending) :
    ∃ bindings, m.attempt env a p =
      (((m.emit "node.started" (startedPayload a.node a.number a.place.depth)).addLayer
          { bindings } a.place.layers).1.call env target (m.layers.size :: a.place.layers) a.node false
        (.invocation a.place a.node (m.layers.size :: a.place.layers) returns ::
          .attempt a env.now :: p)) := by
  obtain ⟨config, hc, ht, ha, hi, rfl⟩ := h.called
  refine ⟨target.vars.foldl (fun bs e =>
    if Entries.contains e.1 args then bs else Entries.insert e.1 e.2 bs) args, ?_⟩
  let n := m.emit "node.started" (startedPayload a.node a.number a.place.depth)
  have hc : Template.resolve (n.vars a.place.layers) (.obj a.node.config) = .ok config := hc
  have ht : n.lookupFlow env a.place.flow (config.field "flowId") = some target := ht
  unfold attempt
  rw [h.kind]
  show n.startExecuteFlow env a.place a.node (.attempt a env.now :: p) = _
  unfold startExecuteFlow
  rw [hc]
  dsimp only
  rw [ht]
  dsimp only
  rw [ha]
  dsimp only
  rw [hi]
  rfl

end Machine

namespace Execution

variable {x y z : Execution} {w : World} {P : Nat → List Nat → Prop} {base : List Pending}

/-- Whether all that the walker does and leaves to be done above some work is carried out in places
whose layers are of some kind. -/
structure Roaming (P : Nat → List Nat → Prop) (base : List Pending) (x : Execution) : Prop where
  stance : ∀ c p, x.stance = some (c, p) →
    Lies (P x.machine.layers.size) c.place? ∧ Above (P x.machine.layers.size) base p
  root : Machine.IsBottom base → P x.machine.layers.size Machine.rootLayers
  stands : base ≠ [] → x.stance ≠ none

/-- Whether some work is still to be done. -/
def IsAbove (base : List Pending) (x : Execution) : Prop :=
  ∃ c ks, x.stance = some (c, ks ++ base)

/-- Whether some work is still to be done during some moves and commands. -/
def Stays (w : World) (base : List Pending) : List Input → Execution → Prop
  | [], x => x.IsAbove base
  | i :: is, x => x.IsAbove base ∧ Stays w base is (x.take w i)

/-- Whether the walker is about to hand an answer to some work. -/
def Hands (base : List Pending) (x : Execution) : Prop :=
  ∃ a, x.stance = some (.answer a, base)

theorem isBottom_of_above {Q : List Nat → Prop} {p : List Pending} (h : Above Q base p)
    (hp : Machine.IsBottom p) : Machine.IsBottom base := by
  obtain ⟨ks, rfl, -⟩ := h
  rcases ks with _ | ⟨k, _ | ⟨l, ks⟩⟩
  · exact hp
  · cases base with
    | nil => trivial
    | cons l base => cases k <;> exact absurd hp id
  · cases k <;> exact absurd hp id

namespace Roaming

/-- A change that keeps the number of layers and at most wakes the walker. -/
theorem stirs (h : Roaming P base x) (hs : x.stance.Stirs y.stance)
    (hl : y.machine.layers.size = x.machine.layers.size) : Roaming P base y where
  stance c p hc := by
    rw [hl]
    generalize hx : x.stance = a at hs
    generalize y.stance = b at hs hc
    cases hs with
    | refl => exact h.stance c p (hx.trans hc)
    | wake v s i s' i' q =>
      cases hc
      exact ⟨Machine.lies_none, (h.stance _ _ hx).2⟩
  root hb := by
    rw [hl]
    exact h.root hb
  stands hb hy := h.stands hb (hs.eq_none hy)

theorem isAbove (h : Roaming P base x) (hb : base ≠ []) : x.IsAbove base := by
  obtain ⟨⟨c, p⟩, hx⟩ := Option.ne_none_iff_exists'.mp (h.stands hb)
  obtain ⟨ks, rfl, -⟩ := (h.stance c p hx).2
  exact ⟨c, ks, hx⟩

end Roaming

/-- The walker takes a step above some work, without handing an answer to it. -/
theorem Treads.roams (hP : Widens P) (h : x.IsSound) (hr : Roaming P base x) {now : Moment} {s : Strand}
    (ht : Treads w now s x y) (hb : base ≠ [] → ¬ x.Hands base) :
    Machine.Roams P x.machine base
      (x.machine.step (w.surroundings now) s.task s.control s.pending) := by
  obtain ⟨-, roles, hs⟩ := h
  have hstance := stance_of_walker ht.active ht.main
  obtain ⟨hc, hp⟩ := hr.stance _ _ hstance
  obtain ⟨-, r, hrole, hsuits, hstands⟩ := hs.strand ht.active
  rw [hs.main.mpr ht.main] at hrole
  cases hrole
  refine (hstands rfl).roams hP hs.fitting w now s.task hsuits hc hp
    (fun hbottom => hr.root (isBottom_of_above hp hbottom)) fun hne a ha he => hb hne ⟨a, ?_⟩
  rw [hstance, ha, he]

/-- Where the walker stands after a step above some work. -/
theorem Treads.roaming (hP : Widens P)
    (hr : Machine.IsBottom base → P x.machine.layers.size Machine.rootLayers) {now : Moment}
    {s : Strand} (ht : Treads w now s x y) (hm : Machine.Roams P x.machine base
      (x.machine.step (w.surroundings now) s.task s.control s.pending)) : Roaming P base y := by
  have hl := ht.layers
  have hstance := ht.stance
  generalize x.machine.step (w.surroundings now) s.task s.control s.pending = r at hm hl hstance
  obtain ⟨n, turn⟩ := r
  constructor
  · intro c p hc
    rw [hl]
    have hturn := hm.turn
    rw [hstance] at hc
    cases turn with
    | go c' p' =>
      cases hc
      exact hturn
    | wait v on limit p' =>
      cases hc
      exact ⟨Machine.lies_none, hturn⟩
    | pass p' =>
      cases hc
      exact ⟨Machine.lies_none, hturn⟩
    | stop a => cases hc
  · intro hb
    rw [hl]
    exact hP.mono hm.spreads.size_le (hr hb)
  · intro hb hn
    rw [hstance] at hn
    cases turn with
    | stop a => exact hb hm.turn
    | _ => cases hn

/-- What an input does to a walker above some work, unless the walker hands an answer to that work. -/
theorem take_roaming (hP : Widens P) (h : x.IsSound) (hr : Roaming P base x) (i : Input) :
    Roaming P base (x.take w i) ∧ (¬ i.IsWrite → x.machine.Spreads P (x.take w i).machine) ∨
      base ≠ [] ∧ x.Hands base ∧ ∃ now s, Treads w now s x (x.take w i) := by
  cases i with
  | move a =>
    rcases move_cases (w := w) h a with ha | ⟨now, s, -, ht⟩
    · exact .inl ⟨hr.stirs ha.stance (congrArg Array.size ha.layers), fun _ => .same ha.layers⟩
    · by_cases hb : base ≠ [] ∧ x.Hands base
      · exact .inr ⟨hb.1, hb.2, now, s, ht⟩
      · have hm := ht.roams hP h hr fun hne hh => hb ⟨hne, hh⟩
        exact .inl ⟨ht.roaming hP hr.root hm, fun _ => hm.spreads.trans (.same ht.layers)⟩
  | command c =>
    have hl : (x.obey c).machine.layers.size = x.machine.layers.size := by
      unfold obey
      split
      · exact x.machine.size_obey c
      · rfl
    refine .inl ⟨?_, fun hi => .same ?_⟩
    · rcases obey_cases h c with hs | ⟨hm, d, hs, hd⟩
      · exact hr.stirs hs hl
      · have hbase : base = [] := Classical.byContradiction fun hne => hr.stands hne (by
          rw [stance, hm]
          rfl)
        subst hbase
        refine ⟨fun c' p hc => ?_, fun hbottom => ?_, fun hne => absurd rfl hne⟩
        · cases hs.symm.trans hc
          refine ⟨?_, .refl _ _⟩
          cases d <;> first | exact Machine.lies_none | exact absurd hd id
        · show P (x.obey c).machine.layers.size _
          rw [hl]
          exact hr.root hbottom
    · show (x.obey c).machine.layers = _
      unfold obey
      split
      · refine Machine.obey_layers x.machine fun name v frame hv => hi ?_
        rw [hv]
        trivial
      · rfl

/-- All scopes of a run have their layers in the order in which they were made. -/
theorem after_chained (h : x.IsSound) (hr : Roaming Machine.IsChain [] x) (is : List Input) :
    Roaming Machine.IsChain [] (after w is x) := by
  induction is generalizing x with
  | nil => exact hr
  | cons i is ih =>
    rcases take_roaming (w := w) Machine.widens_isChain h hr i with hy | hy
    · exact ih (take_isSound h i) hy.1
    · exact absurd rfl hy.1

theorem create_chained (id : String) (flow : Flow) (bindings : Entries Value)
    (breakpoints : Breakpoints) (pauseOnStart : Bool) (stamp : Instant) :
    Roaming Machine.IsChain []
      (ofMachine (.create id flow bindings breakpoints pauseOnStart stamp)) where
  stance c p hc := by cases hc
  root _ := ⟨by simp [Machine.rootLayers], by simp [Machine.rootLayers],
    by simp [Machine.rootLayers, ofMachine, Machine.create]⟩
  stands hne := absurd rfl hne

/-! The course of a call. -/

section call

variable {place : Place} {node : Node} {child : List Nat} {returns : Option Value}
  {rest : List Pending}

/-- Work that is gone cannot still be there. -/
theorem not_isAbove_rest {k : Pending} {c : Control} (h : x.stance = some (c, rest)) :
    ¬ x.IsAbove (k :: rest) := by
  rintro ⟨d, ks, hx⟩
  rw [h] at hx
  have := congrArg List.length (Prod.ext_iff.mp (Option.some.inj hx)).2
  simp only [List.length_append, List.length_cons] at this
  omega

end call

/-- A task that does what only the walker does is the walker. -/
theorem main_of_walker (h : x.IsSound) {s : Strand} (hs : x.active = some s)
    (hw : ∀ roles r, s.control.Suits roles r s.pending → r = .walker) : x.machine.main = some s.task := by
  obtain ⟨-, roles, hr⟩ := h
  obtain ⟨-, r, hrole, hsuits, -⟩ := hr.strand hs
  cases hw roles r hsuits
  exact hr.main.mp hrole

/-- Only the walker attempts nodes. -/
theorem main_of_try (h : x.IsSound) {s : Strand} {a : Attempt} (hs : x.active = some s)
    (hc : s.control = .try a) : x.machine.main = some s.task :=
  main_of_walker h hs fun roles r hsuits => by
    rw [hc] at hsuits
    cases r with
    | walker => rfl
    | _ => exact absurd hsuits id

section isolated

variable {s : Strand} {a : Attempt} {target : Flow} {args : Entries Value} {returns : Option Value}
  {now : Moment}

/-- The work of a call in a scope of its own that an attempt makes above other work. -/
def callWork (x : Execution) (a : Attempt) (now : Moment) (returns : Option Value)
    (p : List Pending) : List Pending :=
  .invocation a.place a.node (x.machine.layers.size :: a.place.layers) returns ::
    .attempt a now.now :: p

end isolated

/-- The moment of a run whose kinds are all those that it needs. -/
def quietMoment : Moment where
  registry := []
  builtin := Registry.isBuiltin_nil

/-- A flow that binds a variable and does nothing with it. -/
def binding : Flow where
  id := "binding"
  vars := [("y", .int 7)]
  nodes := [{ id := "check", kind := "if" }]

end Execution

end Workflow
