import Workflow.Proofs.Run.Coherence
/-!
The frames of a run and the work of its walker. The work that waits in the walker lies in tiers, one for
each frame: all the work of a tier is done at the node that the frame has come to, and a frame above
another one was invoked by the node that the frame below has come to.
-/

namespace Workflow

/-- The frames that a run has and the depth that an event tells, if it tells one. -/
def Effect.IsPlaced : Effect → Prop
  | .emit _ payload view => ∀ d, Entries.find? "depth" payload = some d →
      0 < view.frames ∧ d = .nat (view.frames - 1)
  | _ => True

theorem Effect.IsMute.isPlaced {e : Effect} (h : e.IsMute) : e.IsPlaced := by
  cases e with
  | emit type payload view => cases h
  | _ => trivial

/-- Something is done at a node, in a frame with so many frames below it. -/
def Frame.Holds (f : Frame) (below : Nat) (place : Place) (node : Node) : Prop :=
  place.depth = below ∧ f.current = some node.id

/-- Whether the work is what the walk of a flow begins upon. -/
def IsFloor : List Pending → Prop
  | .frame _ _ _ :: _ | .execution :: _ => True
  | _ => False

namespace Pending

/-- Work after which the walk of a flow goes on. -/
def IsVisit : Pending → Prop
  | .checkpoint _ _ | .visit _ _ => True
  | _ => False

/-- Work that waits in a frame with so many frames below it. -/
def Rests (f : Frame) (below : Nat) : Pending → Prop
  | .checkpoint walk node | .visit walk node => walk.frame = f.key ∧ f.Holds below walk.place node
  | .attempt a _ | .backoff a | .primitive a => f.Holds below a.place a.node
  | .foreach loop _ _ _ _ | .while loop _ _ => f.Holds below loop.place loop.node
  | .element c _ _ | .elements c => f.Holds below c.loop.place c.loop.node
  | .invocation place node _ _ => f.Holds below place node
  | _ => False

theorem Rests.current {f : Frame} {below : Nat} {k : Pending} (h : k.Rests f below) : f.current ≠ none := by
  have held {place : Place} {node : Node} (h : f.Holds below place node) : f.current ≠ none := by
    rw [h.2]
    exact Option.some_ne_none _
  cases k with
  | checkpoint | visit => exact held h.2
  | attempt | backoff | primitive | foreach | «while» | element | elements | invocation => exact held h
  | _ => exact absurd h id

end Pending

/-- What the walker does next in a frame with so many frames below it, upon some work. -/
def Control.Rests (f : Frame) (below : Nat) (p : List Pending) : Control → Prop
  | .enter _ frame => frame = f.key ∧ IsFloor p
  | .next walk _ => walk.frame = f.key ∧ walk.place.depth = below ∧ IsFloor p
  | .dispatch walk node => walk.frame = f.key ∧ f.Holds below walk.place node ∧ IsFloor p
  | .try a => f.Holds below a.place a.node
  | .iterate loop _ _ => f.Holds below loop.place loop.node
  | .supply c | .element c _ _ => f.Holds below c.loop.place c.loop.node
  | .wake _ _ _ => f.current ≠ none
  | .answer _ => True
  | _ => False

/-- The frames, the innermost first, that belong to the work above some other work, and those that
belong to that. -/
inductive Tiers (floor : List Frame → Prop) (base : List Pending) : List Pending → List Frame → Prop
  | base {fs : List Frame} (h : floor fs) : Tiers floor base base fs
  | work {k : Pending} {p : List Pending} {f : Frame} {fs : List Frame} (h : Tiers floor base p (f :: fs))
      (hk : k.Rests f fs.length) (hf : k.IsVisit → IsFloor p) : Tiers floor base (k :: p) (f :: fs)
  | frame {flow node : String} {p : List Pending} {f g : Frame} {fs : List Frame}
      (h : Tiers floor base p (g :: fs)) (hi : f.invokedBy = some node) (hc : g.current = some node) :
      Tiers floor base (.frame f.key flow node :: p) (f :: g :: fs)

namespace Tiers

variable {floor : List Frame → Prop} {base p : List Pending} {f : Frame} {fs : List Frame}

theorem suffix (h : Tiers floor base p fs) : ∃ ks, p = ks ++ base := by
  induction h with
  | base => exact ⟨[], rfl⟩
  | work _ _ _ ih =>
    obtain ⟨ks, rfl⟩ := ih
    exact ⟨_ :: ks, rfl⟩
  | frame _ _ _ ih =>
    obtain ⟨ks, rfl⟩ := ih
    exact ⟨_ :: ks, rfl⟩

theorem length_le (h : Tiers floor base p fs) : base.length ≤ p.length := by
  obtain ⟨ks, rfl⟩ := h.suffix
  simp

/-- The frames of the work below are still there. -/
theorem above (h : Tiers floor base p fs) : ∃ es gs, fs = es ++ gs ∧ floor gs := by
  induction h with
  | base h => exact ⟨[], _, rfl, h⟩
  | work _ _ _ ih => exact ih
  | frame _ _ _ ih =>
    obtain ⟨es, gs, he, hg⟩ := ih
    exact ⟨_ :: es, gs, by rw [he]; rfl, hg⟩

/-- With no work above it there are no other frames. -/
theorem of_base (h : Tiers floor base base fs) : floor fs := by
  have shorter {k : Pending} {p : List Pending} {gs : List Frame} (h : Tiers floor (k :: p) p gs) : False := by
    have := h.length_le
    rw [List.length_cons] at this
    omega
  generalize hp : base = p at h
  cases h with
  | base h => exact h
  | work h =>
    subst hp
    exact (shorter h).elim
  | frame h =>
    subst hp
    exact (shorter h).elim

/-- A frame comes to a node. -/
theorem arrive (h : Tiers floor base p (f :: fs)) (hp : IsFloor p) (node : Option String)
    (hfloor : IsFloor base → floor (f :: fs) → floor ({ f with current := node } :: fs)) :
    Tiers floor base p ({ f with current := node } :: fs) := by
  generalize hg : f :: fs = gs at h
  cases h with
  | base h =>
    subst hg
    exact .base (hfloor hp h)
  | @work k p g gs h hk =>
    cases k <;> first | exact absurd hp id | exact absurd hk id
  | @frame flow node' p f' g gs h hi hc =>
    cases hg
    exact .frame (f := { f with current := node }) h hi hc

end Tiers

namespace Machine

variable {limit : Nat} {floor : List Frame → Prop} {base p : List Pending} {m n : Machine} {f : Frame}
  {fs : List Frame}

/-- The frames of a run, the innermost first, are those of some work. They are not more than allowed,
and the run is where its innermost frame is, once that has come to a node. -/
structure Stacks (limit : Nat) (floor : List Frame → Prop) (base : List Pending) (m : Machine) (f : Frame)
    (fs : List Frame) (p : List Pending) : Prop where
  stack : m.run.stack.reverse = f :: fs
  tiers : Tiers floor base p (f :: fs)
  keys : (f :: fs).Pairwise fun above below => below.key < above.key
  fresh : f.key < m.nextFrame
  bound : fs.length < limit
  current : m.run.current = f.current ∨ f.current = none

/-- The frames and the place of the run are as they were, and events tell their depth. -/
structure Level (m n : Machine) : Prop where
  stack : n.run.stack = m.run.stack
  current : n.run.current = m.run.current
  nextFrame : n.nextFrame = m.nextFrame
  adds : Adds Effect.IsPlaced m n

namespace Level

variable {o : Machine}

theorem refl (m : Machine) : Level m m :=
  ⟨rfl, rfl, rfl, .refl m⟩

theorem trans (h : Level m n) (k : Level n o) : Level m o :=
  ⟨k.stack.trans h.stack, k.current.trans h.current, k.nextFrame.trans h.nextFrame, h.adds.trans k.adds⟩

theorem effect (m : Machine) {e : Effect} (he : e.IsPlaced) : Level m (m.effect e) :=
  ⟨rfl, rfl, rfl, .effect m he⟩

theorem note (m : Machine) (c : CallNote) : Level m (m.effect (.note c)) :=
  effect m trivial

theorem trace (m : Machine) (env : Surroundings) (e : TraceEntry) : Level m (m.trace env e) :=
  ⟨rfl, rfl, rfl, .of_eq rfl⟩

theorem addLayer (m : Machine) (l : Layer) (layers : List Nat) : Level m (m.addLayer l layers).1 :=
  ⟨rfl, rfl, rfl, .of_eq rfl⟩

theorem putScope (m : Machine) (layers : List Nat) (s : Scope) : Level m (m.putScope layers s) :=
  ⟨rfl, rfl, rfl, .of_eq rfl⟩

theorem merge (m : Machine) (layers : List Nat) (node : String) (values : Entries Value) :
    Level m (m.merge layers node values) :=
  (putScope m layers _).trans (effect _ nofun)

theorem writeReturns (m : Machine) (place : Place) (node : Node) (child : List Nat) (returns : Value) :
    Level m (m.writeReturns place node child returns) := by
  unfold Machine.writeReturns
  dsimp only
  split
  · exact refl m
  · exact merge m _ _ _

theorem of_mute (h : Mute m n) : Level m n :=
  ⟨by rw [h.run], by rw [h.run], (congrArg Machine.nextFrame h.bare :), h.adds.mono fun _ he => he.isPlaced⟩

theorem of_aside {roles more : List Role} (h : Aside roles more m n) : Level m n :=
  have hl := of_mute h.silent.mute
  ⟨hl.stack, hl.current, hl.nextFrame, hl.adds⟩

end Level

namespace Stacks

theorem congr (h : m.Stacks limit floor base f fs p) (hs : n.run.stack = m.run.stack)
    (hc : n.run.current = m.run.current) (hn : n.nextFrame = m.nextFrame) :
    n.Stacks limit floor base f fs p where
  stack := by rw [hs]; exact h.stack
  tiers := h.tiers
  keys := h.keys
  fresh := by rw [hn]; exact h.fresh
  bound := h.bound
  current := by rw [hc]; exact h.current

theorem level (h : m.Stacks limit floor base f fs p) (hl : Level m n) : n.Stacks limit floor base f fs p :=
  h.congr hl.stack hl.current hl.nextFrame

theorem work (h : m.Stacks limit floor base f fs p) {k : Pending} (hk : k.Rests f fs.length)
    (hv : k.IsVisit → IsFloor p) : m.Stacks limit floor base f fs (k :: p) :=
  { h with tiers := .work h.tiers hk hv }

theorem length (h : m.Stacks limit floor base f fs p) : m.run.stack.length = fs.length + 1 := by
  rw [← List.length_reverse, h.stack, List.length_cons]

/-- An event tells the depth of the innermost frame. -/
theorem emit (h : m.Stacks limit floor base f fs p) (type : String) {payload : Entries Value}
    (hd : ∀ d, Entries.find? "depth" payload = some d → d = .nat fs.length) :
    Level m (m.emit type payload) := by
  refine .effect m fun d hp => ?_
  show 0 < m.run.stack.length ∧ d = .nat (m.run.stack.length - 1)
  rw [h.length]
  exact ⟨Nat.succ_pos _, hd d hp⟩

theorem trace_emit (h : m.Stacks limit floor base f fs p) (env : Surroundings) (e : TraceEntry)
    (type : String) {payload : Entries Value}
    (hd : ∀ d, Entries.find? "depth" payload = some d → d = .nat fs.length) :
    Level m ((m.trace env e).emit type payload) :=
  (Level.trace m env e).trans ((h.level (.trace m env e)).emit type hd)

/-- The walk of the innermost frame comes to a node. -/
theorem arrive (h : m.Stacks limit floor base f fs p) (hp : IsFloor p) (node : String)
    (hfloor : IsFloor base → floor (f :: fs) → floor ({ f with current := some node } :: fs)) :
    (m.arrive f.key node).Stacks limit floor base { f with current := some node } fs p where
  stack := by
    have hkeys := (List.pairwise_cons.mp h.keys).1
    have hrest : fs.map (fun g => if g.key == f.key then { g with current := some node } else g) = fs := by
      refine (List.map_congr_left fun g hg => ?_).trans fs.map_id
      rw [if_neg (by simpa using Nat.ne_of_lt (hkeys g hg))]
      rfl
    show (m.run.stack.map _).reverse = _
    rw [← List.map_reverse, h.stack, List.map_cons, hrest, if_pos (beq_self_eq_true _)]
  tiers := h.tiers.arrive hp _ hfloor
  keys := List.pairwise_cons.mpr (List.pairwise_cons.mp h.keys)
  fresh := h.fresh
  bound := h.bound
  current := .inl rfl

/-- The innermost frame is left for the one below. -/
theorem leaveFrame {key : Nat} {flow node : String} (h : m.Stacks limit floor base f fs (.frame key flow node :: p))
    (hb : .frame key flow node :: p ≠ base) :
    ∃ g gs, fs = g :: gs ∧ (m.leaveFrame key node).Stacks limit floor base g gs p := by
  obtain ⟨hstack, htiers, hkeys, hfresh, hbound, -⟩ := h
  cases htiers with
  | base => exact absurd rfl hb
  | work _ hk => exact absurd hk id
  | @frame _ _ _ _ g gs htiers hi hc =>
    refine ⟨g, gs, rfl, ?_, htiers, (List.pairwise_cons.mp hkeys).2, ?_, Nat.lt_of_succ_lt hbound, .inl hc.symm⟩
    · have hs : m.run.stack = (g :: gs).reverse ++ [f] := by
        rw [← List.reverse_reverse m.run.stack, hstack, List.reverse_cons]
      unfold Machine.leaveFrame
      dsimp only
      rw [hs, List.getLast?_concat]
      simp
    · exact Nat.lt_trans ((List.pairwise_cons.mp hkeys).1 g List.mem_cons_self) hfresh

end Stacks

end Machine

/-- The walker goes on in the innermost of the frames of its work. -/
def Turn.Rests (limit : Nat) (floor : List Frame → Prop) (base : List Pending) (m : Machine) : Turn → Prop
  | .go c p => ∃ f fs, m.Stacks limit floor base f fs p ∧ c.Rests f fs.length p
  | .wait _ _ _ p | .pass p => ∃ f fs, m.Stacks limit floor base f fs p ∧ f.current ≠ none
  | .stop _ => False

namespace Machine

/-- A step after which the frames are those of the work that is left, with events that tell their depth. -/
structure Climbs (limit : Nat) (floor : List Frame → Prop) (base : List Pending) (m : Machine)
    (x : StepResult) : Prop where
  turn : x.2.Rests limit floor base x.1
  adds : Adds Effect.IsPlaced m x.1

namespace Climbs

variable {limit : Nat} {floor : List Frame → Prop} {base p : List Pending} {m n : Machine} {f : Frame}
  {fs : List Frame} {x : StepResult}

theorem go (h : m.Stacks limit floor base f fs p) (hl : Level m n) {c : Control}
    (hc : c.Rests f fs.length p) : m.Climbs limit floor base (n, .go c p) :=
  ⟨⟨f, fs, h.level hl, hc⟩, hl.adds⟩

theorem answer (h : m.Stacks limit floor base f fs p) (hl : Level m n) (a : Answer) :
    m.Climbs limit floor base (n, .answer a p) :=
  go h hl trivial

theorem wait (h : m.Stacks limit floor base f fs p) (hl : Level m n) (hc : f.current ≠ none) (w : Wait)
    (on : List TaskId) (time : Option Seconds) : m.Climbs limit floor base (n, .wait w on time p) :=
  ⟨⟨f, fs, h.level hl, hc⟩, hl.adds⟩

theorem after (hl : Level m n) (h : n.Climbs limit floor base x) : m.Climbs limit floor base x :=
  ⟨h.turn, hl.adds.trans h.adds⟩

end Climbs

section functions

variable {floor : List Frame → Prop} {base p : List Pending} {m : Machine} {f : Frame}
  {fs : List Frame} {env : Surroundings} (h : m.Stacks env.settings.maxCallDepth floor base f fs p)

include h

theorem call_climbs {node : Node} (hn : f.current = some node.id) (flow : Flow) (layers : List Nat)
    (shared : Bool) :
    m.Climbs env.settings.maxCallDepth floor base (m.call env flow layers node shared p) := by
  unfold call
  split
  · exact .answer h (.refl m) _
  · rename_i hl
    rw [ge_iff_le, Nat.not_le, h.length] at hl
    let e : Frame := { key := m.nextFrame, flow := flow.id, invokedBy := some node.id, layers, shared }
    refine ⟨⟨e, f :: fs, ⟨?_, .frame (f := e) h.tiers rfl hn, ?_, Nat.lt_succ_self _, hl, .inr rfl⟩, rfl,
      trivial⟩, .of_eq rfl⟩
    · show (m.run.stack ++ [e]).reverse = _
      rw [List.reverse_append, h.stack]
      rfl
    · refine List.pairwise_cons.mpr ⟨fun g hg => ?_, h.keys⟩
      rcases List.mem_cons.mp hg with rfl | hg
      · exact h.fresh
      · exact Nat.lt_trans ((List.pairwise_cons.mp h.keys).1 g hg) h.fresh

/-- A body is carried out in a frame of its own, above the work that waits for it. -/
theorem body_climbs (l : Layer) {k : Pending} (hk : k.Rests f fs.length) (hv : ¬ k.IsVisit) {node : Node}
    (hn : f.current = some node.id) (flow : Flow) (layers : List Nat) (shared : Bool) :
    m.Climbs env.settings.maxCallDepth floor base
      ((m.addLayer l layers).1.call env flow (m.addLayer l layers).2 node shared (k :: p)) :=
  .after (.addLayer m l layers) (call_climbs ((h.level (.addLayer m l layers)).work hk fun hk => absurd hk hv) hn
    flow _ shared)

theorem iterate_climbs {loop : Loop} (hk : f.Holds fs.length loop.place loop.node) (bound iterations : Nat) :
    m.Climbs env.settings.maxCallDepth floor base (m.iterate env loop bound iterations p) := by
  unfold iterate
  dsimp only
  split
  · exact .answer h (.refl m) _
  · split
    · exact .answer h (.refl m) _
    · split
      · exact .answer h (.refl m) _
      · exact body_climbs h _ (k := .while loop bound iterations) hk id hk.2 _ _ _

theorem startWhile_climbs {place : Place} {node : Node} (hk : f.Holds fs.length place node) :
    m.Climbs env.settings.maxCallDepth floor base (m.startWhile env place node p) := by
  unfold startWhile
  dsimp only
  split
  · exact .answer h (.refl m) _
  · split
    · exact .answer h (.refl m) _
    · split
      · exact .answer h (.refl m) _
      · exact .go h (.refl m) hk

theorem nextItem_climbs {loop : Loop} (hk : f.Holds fs.length loop.place loop.node) (itemName : String)
    (indexName : Option String) (index : Nat) (items : List Value) :
    m.Climbs env.settings.maxCallDepth floor base
      (m.nextItem env loop itemName indexName index items p) := by
  unfold nextItem
  split
  · exact .answer h (.refl m) _
  · split
    · exact .answer h (.refl m) _
    · exact body_climbs h _ (k := .foreach loop itemName indexName _ _) hk id hk.2 _ _ _

theorem startForeach_climbs {place : Place} {node : Node} (hk : f.Holds fs.length place node) :
    m.Climbs env.settings.maxCallDepth floor base (m.startForeach env place node p) := by
  unfold startForeach
  dsimp only
  split
  · exact .answer h (.refl m) _
  · split
    · exact .answer h (.refl m) _
    · exact nextItem_climbs h hk _ _ _ _

theorem supply_climbs {c : Collection} (hk : f.Holds fs.length c.loop.place c.loop.node) :
    m.Climbs env.settings.maxCallDepth floor base (m.supply c p) := by
  unfold supply
  split
  · exact .go h (.refl m) hk
  · refine .answer h ?_ _
    split
    · exact .refl m
    · exact .merge m _ _ _

theorem element_climbs (self : TaskId) {c : Collection} (hk : f.Holds fs.length c.loop.place c.loop.node)
    {acts : List Act} (ha : ∀ a ∈ acts, a.IsRest) (item : Except HandlerFault Value) :
    m.Climbs env.settings.maxCallDepth floor base (m.element env self c acts item p) := by
  unfold element
  split
  · rename_i ms acts
    have hw := h.work (k := .element c acts item) hk False.elim
    have hc := Pending.Rests.current (k := .element c acts item) hk
    unfold sleep
    split
    · exact .wait hw (.refl m) hc _ _ _
    · exact ⟨⟨f, fs, hw, hc⟩, .refl m⟩
  · exact absurd (ha _ List.mem_cons_self) id
  · exact absurd (ha _ List.mem_cons_self) id
  · split
    · exact .answer h (.refl m) _
    · split
      · exact .answer h (.refl m) _
      · exact body_climbs h (k := .elements { c with collected := c.collected ++ [_] }) _ hk id hk.2
          c.loop.body c.loop.place.layers true

theorem startElements_climbs {a : Attempt} (hk : f.Holds fs.length a.place a.node) :
    m.Climbs env.settings.maxCallDepth floor base (m.startElements env a p) := by
  unfold startElements
  split
  · exact .answer h (.refl m) _
  · split
    · exact .answer h (.refl m) _
    · dsimp only
      split
      · exact .answer h (.refl m) _
      · split
        · exact .answer h (.refl m) _
        · split
          · exact .answer h (.note m _) _
          · exact .go h (.note m _) hk

theorem invoke_climbs {place : Place} {node : Node} (hk : f.Holds fs.length place node) (target : Flow)
    (args : Entries Value) (inline : Bool) (returns : Value) :
    m.Climbs env.settings.maxCallDepth floor base
      (m.invoke env place node target args inline returns p fun _ p => p) := by
  unfold invoke
  split
  · refine .after (.addLayer m { shared := true } place.layers)
      (.after (.putScope _ (m.layers.size :: place.layers) _) (call_climbs
        (.work ?_ (k := .invocation place node _ none) hk False.elim) hk.2 _ _ _))
    exact (h.level (.addLayer m _ place.layers)).level (.putScope _ (m.layers.size :: place.layers) _)
  · exact body_climbs h _ (k := .invocation place node _ _) hk id hk.2 _ _ _

theorem startExecuteFlow_climbs {place : Place} {node : Node} (hk : f.Holds fs.length place node) :
    m.Climbs env.settings.maxCallDepth floor base (m.startExecuteFlow env place node p) := by
  unfold startExecuteFlow
  split
  · exact .answer h (.refl m) _
  · split
    · exact .answer h (.refl m) _
    · split
      · exact invoke_climbs h hk _ _ _ _
      · exact .answer h (.refl m) _

theorem startPrimitive_climbs {a : Attempt} (hk : f.Holds fs.length a.place a.node) :
    m.Climbs env.settings.maxCallDepth floor base (m.startPrimitive env a p) := by
  unfold startPrimitive
  dsimp only
  split
  · exact .answer h (.refl m) _
  · split
    · exact .answer h (.refl m) _
    · split
      · exact .answer h (.refl m) _
      · have hl (c : Control) : Level m ((m.spawn c []).1.spawn .watch []).1 :=
          .of_mute ((Silent.spawn m c []).trans (.spawn _ .watch [])).mute
        exact .wait (h.work (k := .primitive a) hk False.elim) (hl _)
          (Pending.Rests.current (k := .primitive a) hk) _ _ _

theorem attempt_climbs {a : Attempt} (hk : f.Holds fs.length a.place a.node) :
    m.Climbs env.settings.maxCallDepth floor base (m.attempt env a p) := by
  have hl : Level m (m.emit "node.started" (startedPayload a.node a.number a.place.depth)) :=
    h.emit _ fun d hd => by
      cases hd
      rw [hk.1]
  have hn := (h.level hl).work (k := .attempt a env.now) hk False.elim
  unfold attempt
  dsimp only
  split
  · exact .after hl (.answer hn (.refl _) _)
  · exact .after hl (startForeach_climbs hn hk)
  · exact .after hl (startElements_climbs hn hk)
  · exact .after hl (startWhile_climbs hn hk)
  · exact .after hl (startExecuteFlow_climbs hn hk)
  · exact .after hl (startPrimitive_climbs hn hk)

theorem enter_climbs {place : Place} {key : Nat} (hk : key = f.key) (hp : IsFloor p) :
    m.Climbs env.settings.maxCallDepth floor base (m.enter place key p) := by
  have hd : m.run.stack.length - 1 = fs.length := by rw [h.length, Nat.add_sub_cancel]
  unfold enter
  dsimp only
  split
  · exact .answer h (.refl m) _
  · split
    · exact .go h (.refl m) ⟨hk, hd, hp⟩
    · exact .answer h (.refl m) _

omit h in
theorem takePause_level (m : Machine) (node : Node) : Level m (m.takePause node).1 := by
  have same {n : Machine} (h : n.run = m.run) (hn : n.nextFrame = m.nextFrame) (he : n.effects = m.effects) :
      Level m n :=
    ⟨by rw [h], by rw [h], hn, .of_eq he⟩
  unfold takePause
  split
  · exact same rfl rfl rfl
  · split
    · exact same rfl rfl rfl
    · split
      · exact same rfl rfl rfl
      · split <;> exact .refl m

theorem next_climbs (self : TaskId) {walk : Walk} (hk : walk.frame = f.key)
    (hd : walk.place.depth = fs.length) (hp : IsFloor p) (node : Option Node)
    (hfloor : ∀ node, IsFloor base → floor (f :: fs) → floor ({ f with current := some node } :: fs)) :
    m.Climbs env.settings.maxCallDepth floor base (m.next env self walk node p) := by
  unfold next
  split
  · exact .answer h (.refl m) _
  · split
    · exact .answer h (.refl m) _
    · split
      · exact .answer h (.refl m) _
      · rename_i node _ _
        have ha := h.arrive hp node.id (hfloor node.id)
        have hl := takePause_level (m.arrive f.key node.id) node
        rw [hk]
        dsimp only
        generalize (m.arrive f.key node.id).takePause node = r at hl ⊢
        obtain ⟨n, reason⟩ := r
        have hn : n.Stacks env.settings.maxCallDepth floor base { f with current := some node.id } fs p := ha.level hl
        have hadds : Adds Effect.IsPlaced m n := .trans (.of_eq rfl) hl.adds
        cases reason with
        | none => exact ⟨⟨_, fs, hn, rfl, ⟨hd, rfl⟩, hp⟩, hadds⟩
        | some reason =>
          let run := { n.run with status := .paused, pauseReason := some reason }
          have hq : ({ n with run, paused := n.paused ++ [self] } : Machine).Stacks
              env.settings.maxCallDepth floor base { f with current := some node.id } fs p :=
            hn.level ⟨rfl, rfl, rfl, .of_eq rfl⟩
          let payload : Entries Value := [
            ("reason", .str reason), ("nodeId", .str node.id), ("depth", .nat walk.place.depth)]
          have hdepth (d : Value) (hp : Entries.find? "depth" payload = some d) : d = .nat fs.length := by
            cases hp
            rw [hd]
          have he := hq.emit "run.paused" hdepth
          exact ⟨⟨_, fs, (hq.level he).work (k := .checkpoint _ node) ⟨rfl, hd, rfl⟩ fun _ => hp,
            Option.some_ne_none _⟩, .trans hadds he.adds⟩

omit h in
/-- A node is carried out above the work that goes on after it, unless the run is cancelled. -/
theorem dispatch_visits {walk : Walk} {node : Node}
    (hv : m.Stacks env.settings.maxCallDepth floor base f fs (.visit walk node :: p))
    (hh : f.Holds fs.length walk.place node) (hc : m.token.cancelled = false) :
    m.Climbs env.settings.maxCallDepth floor base (m.dispatch env walk node p) := by
  have refused (fault : PolicyFault) : Level m (m.refusePolicy env walk node fault).1 := by
    have hs : Level m (m.emit "node.started" (startedPayload node 1 walk.place.depth)) :=
      hv.emit _ fun d hd => by
        cases hd
        rw [hh.1]
    exact hs.trans ((hv.level hs).trace_emit env _ _ nofun)
  unfold dispatch
  dsimp only
  rw [hc, if_neg Bool.false_ne_true]
  split
  · have hs : Level m (m.emit "node.skipped" [("nodeId", .str node.id), ("kind", .str node.kind),
        ("depth", .nat walk.place.depth), ("reason", .str "disabled")]) :=
      hv.emit _ fun d hd => by
        cases hd
        rw [hh.1]
    exact .answer hv (hs.trans (.trace _ env _)) _
  · split
    · exact .go hv (.refl m) hh
    · split
      · exact .answer hv (refused _) _
      · exact .answer hv (refused _) _
      · exact .answer hv (.refl m) _

theorem dispatch_climbs {walk : Walk} {node : Node} (hk : walk.frame = f.key)
    (hh : f.Holds fs.length walk.place node) (hp : IsFloor p) :
    m.Climbs env.settings.maxCallDepth floor base (m.dispatch env walk node p) := by
  cases hc : m.token.cancelled with
  | true =>
    unfold dispatch
    rw [if_pos hc]
    exact .answer h (.refl m) _
  | false => exact dispatch_visits (h.work (k := .visit walk node) ⟨hk, hh⟩ fun _ => hp) hh hc

theorem rest_climbs {k : Pending} (hk : k.Rests f fs.length) (hv : ¬ k.IsVisit) (seconds : Seconds) :
    m.Climbs env.settings.maxCallDepth floor base (m.rest seconds (k :: p)) := by
  have hs := h.work hk fun hk => absurd hk hv
  unfold rest
  split
  · exact .answer hs (.refl m) _
  · exact .wait hs (.of_mute (Silent.spawn m .watch []).mute) hk.current _ _ _

theorem afterFailure_climbs {a : Attempt} (hk : f.Holds fs.length a.place a.node) (since : Seconds)
    (e : ErrorInfo) :
    m.Climbs env.settings.maxCallDepth floor base (m.afterFailure env a since e p) := by
  have hl (entry : TraceEntry) (decision : String) (took : Int) : Level m
      ((m.trace env entry).emit "node.failed" [("nodeId", .str a.node.id), ("attempt", .nat a.number),
        ("error", e.toValue), ("decision", .str decision), ("tookMs", .int took),
        ("depth", .nat a.place.depth)]) :=
    h.trace_emit env entry _ fun d hd => by
      cases hd
      rw [hk.1]
  unfold afterFailure
  dsimp only
  split
  · split
    · exact .after (hl _ _ _) (rest_climbs (h.level (hl _ _ _)) (k := .backoff a) hk id _)
    · exact .answer h (hl _ _ _) _
  · exact .answer h (hl _ _ _) _
  · exact .answer h (hl _ _ _) _
  · exact .answer h (hl _ _ _) _

theorem afterAttempt_climbs {a : Attempt} (hk : f.Holds fs.length a.place a.node) (since : Seconds)
    (o : Outcome) :
    m.Climbs env.settings.maxCallDepth floor base (m.afterAttempt env a since o p) := by
  unfold afterAttempt
  split
  · exact .answer h (.trace m env _) _
  · refine .answer h (h.trace_emit env _ _ fun d hd => ?_) _
    cases hd
    rw [hk.1]
  · exact afterFailure_climbs h hk since _

theorem afterVisit_climbs {walk : Walk} {node : Node} (hk : walk.frame = f.key)
    (hh : f.Holds fs.length walk.place node) (hp : IsFloor p) (o : Outcome) :
    m.Climbs env.settings.maxCallDepth floor base (m, afterVisit walk node o p) := by
  unfold afterVisit
  split
  · exact .go h (.refl m) ⟨hk, hh.1, hp⟩
  · exact .answer h (.refl m) _
  · exact .answer h (.refl m) _

theorem primitive_climbs (a : Attempt) (r : HandlerResult) :
    m.Climbs env.settings.maxCallDepth floor base (m.resume env (.primitive a) (.handled r) p) := by
  cases r with
  | failure e => exact .answer h (.refl m) _
  | success values =>
    refine .answer h ?_ _
    split
    · exact .refl m
    · exact .merge m _ _ _

omit h in
/-- Work within a walk is done with, or its frame is left. -/
theorem resume_climbs {k : Pending} (h : m.Stacks env.settings.maxCallDepth floor base f fs (k :: p))
    (hb : k :: p ≠ base) (a : Answer) :
    m.Climbs env.settings.maxCallDepth floor base (m.resume env k a p) := by
  by_cases hf : ∃ key flow node, k = .frame key flow node
  · obtain ⟨key, flow, node, rfl⟩ := hf
    obtain ⟨g, gs, rfl, hg⟩ := h.leaveFrame hb
    cases a <;> exact ⟨⟨g, gs, hg, trivial⟩, .of_eq rfl⟩
  obtain ⟨hs, hk, hv⟩ : m.Stacks env.settings.maxCallDepth floor base f fs p ∧ k.Rests f fs.length ∧
      (k.IsVisit → IsFloor p) := by
    obtain ⟨hstack, htiers, hkeys, hfresh, hbound, hcurrent⟩ := h
    cases htiers with
    | base => exact absurd rfl hb
    | work ht hk hv => exact ⟨⟨hstack, ht, hkeys, hfresh, hbound, hcurrent⟩, hk, hv⟩
    | frame => exact absurd ⟨_, _, _, rfl⟩ hf
  have passed : m.Climbs env.settings.maxCallDepth floor base (m, .answer a p) := .answer hs (.refl m) a
  cases k with
  | checkpoint walk node =>
    cases a with
    | done => exact .go hs (.refl m) ⟨hk.1, hk.2, hv trivial⟩
    | _ => exact passed
  | visit walk node =>
    cases a with
    | outcome o => exact afterVisit_climbs hs hk.1 hk.2 (hv trivial) o
    | _ => exact passed
  | attempt b since =>
    cases a with
    | outcome o => exact afterAttempt_climbs hs hk since o
    | _ => exact passed
  | backoff b =>
    cases a with
    | rested cutShort =>
      unfold resume
      dsimp only
      split
      · exact .answer hs (.refl m) _
      · exact .go hs (.refl m) hk
    | _ => exact passed
  | primitive b =>
    cases a with
    | handled r => exact primitive_climbs hs b r
    | _ => exact passed
  | foreach loop itemName indexName index rest =>
    cases a with
    | outcome o =>
      cases o with
      | completed l => exact nextItem_climbs hs hk _ _ _ _
      | _ => exact passed
    | _ => exact passed
  | «while» loop bound iterations =>
    cases a with
    | outcome o =>
      cases o with
      | completed l => exact .go hs (.refl m) hk
      | _ => exact passed
    | _ => exact passed
  | element c acts item =>
    cases a with
    | rested cutShort => exact .go hs (.refl m) hk
    | _ => exact passed
  | elements c =>
    cases a with
    | outcome o =>
      cases o with
      | completed l => exact .go hs (.refl m) hk
      | _ => exact passed
    | thrown f => exact .answer hs (.refl m) _
    | _ => exact passed
  | invocation place node child returns =>
    rw [resume_invocation]
    refine .answer hs ?_ a
    split
    · exact .writeReturns m _ _ _ _
    · exact .refl m
  | frame key flow node => exact absurd ⟨key, flow, node, rfl⟩ hf
  | _ => exact absurd hk id

end functions

/-- A step of the walker that hands no answer to the work below. -/
theorem Stands.climbs {roles : List Role} {floor : List Frame → Prop} {base p : List Pending} {m : Machine}
    {f : Frame} {fs : List Frame} {c : Control} (hs : Stands m c p) (hf : m.Fitting roles) (w : World)
    (now : Moment) (t : TaskId) (hsuits : c.Suits roles .walker p)
    (h : m.Stacks w.settings.maxCallDepth floor base f fs p) (hc : c.Rests f fs.length p)
    (hbase : base ≠ []) (hb : ∀ a, c = .answer a → p ≠ base)
    (hfloor : ∀ node, IsFloor base → floor (f :: fs) → floor ({ f with current := some node } :: fs)) :
    m.Climbs w.settings.maxCallDepth floor base (m.step (w.surroundings now) t c p) := by
  have h : m.Stacks (w.surroundings now).settings.maxCallDepth floor base f fs p := h
  have hne : p ≠ [] := by
    rintro rfl
    exact hbase (List.eq_nil_of_length_eq_zero (Nat.le_zero.mp h.tiers.length_le))
  have answered (a : Answer) (ha : c = .answer a) :
      m.Climbs w.settings.maxCallDepth floor base (m.step (w.surroundings now) t (.answer a) p) := by
    cases p with
    | nil => exact absurd rfl hne
    | cons k p => exact resume_climbs h (hb a ha) a
  cases hs with
  | enqueue => exact absurd hc id
  | start => exact absurd rfl hne
  | execute => exact absurd hc id
  | walk _ _ hw =>
    cases c with
    | enter place key => exact enter_climbs h hc.1 hc.2
    | next walk node => exact next_climbs h t hc.1 hc.2.1 hc.2.2 node hfloor
    | dispatch walk node => exact dispatch_climbs h hc.1 hc.2.1 hc.2.2
    | «try» a => exact attempt_climbs h hc
    | iterate loop bound iterations => exact iterate_climbs h hc _ _
    | supply d => exact supply_climbs h hc
    | element d acts item => exact element_climbs h t hc hw.2 item
    | answer a => exact answered a rfl
    | _ => exact absurd hw id
  | wake _ _ hw hm s i =>
    have hstart : ∀ u v, ‹Wait› ≠ .start u v := by
      rintro u v rfl
      exact hw
    obtain ⟨ha, ht⟩ := wake_aside t hf (w.surroundings now) s hsuits.1 hsuits.2 (fun _ => hm) hstart
    have hl := Level.of_aside ha
    show m.Climbs _ floor base (m.wake (w.surroundings now) t _ s i p)
    generalize m.wake (w.surroundings now) t _ s i p = r at ht hl ⊢
    obtain ⟨n, turn⟩ := r
    cases ht with
    | answer a => exact .answer h hl a
    | wait v on limit => exact .wait h hl hc _ _ _
  | resume => exact .answer h (.refl m) _
  | back => exact answered _ rfl
  | refuse _ _ walk node => exact dispatch_climbs h hc.1 hc.2.1 hc.2.2
  | unwind => exact answered _ rfl
  | ended _ _ a => exact answered a rfl

/-! The end of a run, and commands. -/

variable {m n : Machine}

theorem Level.endPause (h : Level m n) : Level m n.endPause :=
  (h.trans (o := { n with paused := [] }) ⟨rfl, rfl, rfl, .of_eq rfl⟩).trans (.of_mute (Silent.endPause n).mute)

theorem Level.halt (m : Machine) (text : String) : Level m (m.halt text) := by
  have hs := (cancelToken_silent m (some text)).mute
  have hl := Level.of_mute hs
  exact .endPause ⟨hl.stack, hl.current, hl.nextFrame, hl.adds⟩

/-- The end of a run is told without a depth. -/
theorem finalize_adds (m : Machine) (stamp : Instant) (o : Outcome) :
    Adds Effect.IsPlaced m (m.finalize stamp o) := by
  have told (n : Machine) (type : String) (payload : Entries Value) (he : n.effects = m.effects)
      (hp : Entries.find? "depth" payload = none) : Adds Effect.IsPlaced m (n.emit type payload).endPause := by
    refine Adds.trans (Adds.trans (.of_eq he) (.effect n ?_)) (Level.endPause (.refl _)).adds
    intro d hd
    rw [hp] at hd
    cases hd
  unfold finalize
  split
  · exact .refl m
  · dsimp only
    split
    · exact told _ _ _ rfl rfl
    · split
      · exact told _ _ _ rfl rfl
      · exact told _ _ _ rfl rfl
      · exact told _ _ _ rfl rfl

theorem Level.release (h : Level m n) (mode : String) : Level m (n.release mode) := by
  have hs : Level m { n with pauseRequested := false
                             run := { n.run with status := .running, pauseReason := none } } :=
    h.trans ⟨rfl, rfl, rfl, .of_eq rfl⟩
  exact .endPause (hs.trans (.effect _ nofun))

/-- A command leaves the frames as they are, unless it ends a run that has not begun; it is told without
a depth. -/
theorem obey_level (m : Machine) (c : Command) :
    Level m (m.obey c).1 ∨ m.run.status = .pending ∧ (m.obey c).1.run.status.isTerminal = true ∧
      Adds Effect.IsPlaced m (m.obey c).1 := by
  cases c with
  | start slotted =>
    refine .inl ?_
    show Level m (m.start slotted)
    unfold start
    split
    · exact .refl m
    · exact (Level.of_mute (Silent.spawn m _ []).mute).trans ⟨rfl, rfl, rfl, .of_eq rfl⟩
  | pause =>
    refine .inl ?_
    show Level m m.pause.1
    unfold pause
    split <;> exact ⟨rfl, rfl, rfl, .of_eq rfl⟩
  | resume =>
    refine .inl ?_
    show Level m m.resumeRun.1
    unfold resumeRun
    split
    · have hl : Level m { m with stepArmed := false } := ⟨rfl, rfl, rfl, .of_eq rfl⟩
      exact hl.release _
    · exact .refl m
  | stepOver =>
    refine .inl ?_
    show Level m m.stepOver.1
    unfold stepOver
    split
    · have hl : Level m { m with stepArmed := true } := ⟨rfl, rfl, rfl, .of_eq rfl⟩
      exact hl.release _
    · exact .refl m
  | cancel reason stamp =>
    show Level m (m.cancel reason stamp).1 ∨ _ ∧ (m.cancel reason stamp).1.run.status.isTerminal = true ∧
      Adds _ m (m.cancel reason stamp).1
    obtain ⟨-, he⟩ | ⟨-, text, ⟨-, he⟩ | ⟨hs, -, he⟩⟩ := cancel_cases m reason stamp
    · rw [he]
      exact .inl (.refl m)
    · rw [he]
      exact .inl (.halt m text)
    · rw [he]
      have ht : (m.halt text).run.status.isTerminal = false := by rw [halt_run, hs]; rfl
      exact .inr ⟨hs, finalize_terminal _ _ (.inr ⟨ht, halt_cancelled m text⟩),
        (Level.halt m text).adds.trans (finalize_adds _ _ _)⟩
  | setVar name v frame =>
    refine .inl ?_
    obtain he | ⟨layers, s, depth, he⟩ := m.obey_setVar name v frame
    · rw [he]
      exact .refl m
    · rw [he]
      exact (Level.putScope m layers _).trans (.effect _ nofun)
  | edit f => exact .inl ⟨rfl, rfl, rfl, .of_eq rfl⟩

end Machine

end Workflow
