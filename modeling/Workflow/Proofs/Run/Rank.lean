import Mathlib.Algebra.GroupWithZero.Nat
import Mathlib.Data.Multiset.DershowitzManna
import Mathlib.Data.Prod.Lex
import Workflow.Proofs.Run.Stance
/-!
A walk comes to its end. What the walker does next and each piece of the work that waits in it have a
rank. A step puts finitely many things of lower ranks in the place of one thing, or of one that waited
and its answer. The ranks descend with the frames, which may not be too many, and within a frame with
the steps, the attempts, the iterations and the items that are left.
-/

namespace Workflow

/-- A level, and how much is left to be done at that level. -/
abbrev Rank := Nat ×ₗ Nat

namespace Rank

/-- The rank of an answer. -/
def bottom : Rank := toLex (0, 0)

/-- A rank at one of the levels that each frame has, those of inner frames below those of outer ones. -/
def level (s : Settings) (p : List Pending) (n k : Nat) : Rank :=
  toLex (10 * (s.maxCallDepth - (frameKeys p).length) + n, k)

variable {s : Settings} {p : List Pending} {n n' k k' : Nat}

theorem level_lt_level : level s p n k < level s p n' k' ↔ n < n' ∨ n = n' ∧ k < k' := by
  unfold level
  rw [Prod.Lex.toLex_lt_toLex]
  simp only
  omega

theorem bottom_lt_level (h : 0 < n) : bottom < level s p n k := by
  unfold bottom level
  rw [Prod.Lex.toLex_lt_toLex]
  exact .inl (by simp only; omega)

theorem level_cons {k : Pending} (hk : frameKeys [k] = []) :
    level s (k :: p) n n' = level s p n n' := by
  have hf : frameKeys (k :: p) = frameKeys p := by
    rw [← List.singleton_append, frameKeys, List.filterMap_append]
    simp only [frameKeys] at hk ⊢
    rw [hk, List.nil_append]
  rw [level, level, hf]

/-- The levels of an inner frame, as long as frames are not too many. -/
theorem level_frame_lt {key : Nat} {flow node : String} (hp : (frameKeys p).length < s.maxCallDepth)
    (hn : n < 10) : level s (.frame key flow node :: p) n k < level s p n' k' := by
  have hf : (frameKeys (.frame key flow node :: p)).length = (frameKeys p).length + 1 := rfl
  unfold level
  rw [Prod.Lex.toLex_lt_toLex, hf]
  exact .inl (by simp only; omega)

end Rank

/-- There is only another attempt if one is left. -/
theorem Decision.le_retries_of_retry {a : Attempt} {e : ErrorInfo} (h : make a e = .retry) :
    a.number ≤ a.policy.retries := by
  unfold make at h
  split at h
  · cases h
  · split at h
    · rename_i ha
      simp only [Policy.allowsRetry, Bool.and_eq_true, decide_eq_true_eq] at ha
      exact ha.2
    · grind

open Rank

/-- What is left to be done for the elements that have not come yet. -/
def Collection.left (c : Collection) : Nat :=
  (c.rest.map fun e => 2 * e.acts.length + 3).sum

/-- How many waits of one kind may follow each other. -/
def Wait.left : Wait → Nat
  | .settlement _ _ _ => 3
  | .grace _ | .nap _ => 2
  | _ => 1

/-- The rank of what is done next above some work. -/
def Control.rank (s : Settings) (p : List Pending) : Control → Rank
  | .enqueue => level s p 9 0
  | .wake (.start _ _) _ _ => level s p 8 0
  | .execute => level s p 7 0
  | .enter _ _ => level s p 6 0
  | .next walk _ => level s p 5 (4 * (s.maxStepsPerFrame - walk.steps))
  | .dispatch walk _ => level s p 5 (4 * (s.maxStepsPerFrame - walk.steps) + 2)
  | .try a => level s p 4 (3 * (a.policy.retries + 1 - a.number) + 2)
  | .iterate _ bound iterations => level s p 3 (2 * (bound - iterations))
  | .supply c => level s p 3 c.left
  | .element c acts _ => level s p 3 (c.left + 2 * acts.length + 2)
  | .wake w _ _ => level s p 1 w.left
  | _ => bottom

/-- The rank of work that waits above other work. -/
def Pending.rank (s : Settings) (p : List Pending) : Pending → Rank
  | .visit walk _ => level s p 5 (4 * (s.maxStepsPerFrame - walk.steps) + 1)
  | .checkpoint walk _ => level s p 5 (4 * (s.maxStepsPerFrame - walk.steps) + 3)
  | .attempt a _ => level s p 4 (3 * (a.policy.retries + 1 - a.number) + 1)
  | .backoff a => level s p 4 (3 * (a.policy.retries - a.number) + 3)
  | .foreach _ _ _ _ items => level s p 3 items.length
  | .while _ bound iterations => level s p 3 (2 * (bound - (iterations + 1)) + 1)
  | .element c acts _ => level s p 3 (c.left + 2 * acts.length + 3)
  | .elements c => level s p 3 (c.left + 1)
  | _ => level s p 1 0

/-- The ranks of all work that waits. -/
def ranks (s : Settings) : List Pending → Multiset Rank
  | [] => 0
  | k :: p => k.rank s p ::ₘ ranks s p

/-- The ranks of all that is left to be done where the walker stands. -/
def Stance.ranks (s : Settings) : Stance → Multiset Rank
  | none => 0
  | some (c, p) => c.rank s p ::ₘ Workflow.ranks s p

theorem Stance.Stirs.ranks {s : Settings} {a b : Stance} (h : a.Stirs b) :
    Stance.ranks s b = Stance.ranks s a := by
  cases h with
  | refl => rfl
  | wake w _ _ _ _ p =>
    rw [Stance.ranks, Stance.ranks]
    cases w <;> rfl

/-- A wait for the end of a watcher that is told to end. -/
def Wait.IsRousing : Wait → Prop
  | .rousing _ _ => True
  | _ => False

namespace Turn

/-- All that a task goes on with above some work has lower ranks than some rank. -/
def Sinks (s : Settings) (v : Rank) (base : List Pending) (t : Turn) : Prop :=
  ∃ new, t.stance.ranks s = new + Workflow.ranks s base ∧ ∀ r ∈ new, r < v

/-- A task that waits after all does not wait for the end of a watcher that is told to end. -/
def IsFresh (t : Turn) : Prop :=
  ∀ w on limit p, t = .wait w on limit p → ¬ w.IsRousing

/-- A step that leads to lower ranks, and to no wait that only follows another wait. -/
structure Descends (s : Settings) (v : Rank) (base : List Pending) (t : Turn) : Prop where
  sinks : t.Sinks s v base
  fresh : t.IsFresh

variable {s : Settings} {v : Rank} {base : List Pending}

theorem Sinks.go {c : Control} (hc : c.rank s base < v) : (Turn.go c base).Sinks s v base :=
  ⟨{c.rank s base}, rfl, by simpa using hc⟩

theorem Sinks.wait {w : Wait} {on : List TaskId} {limit : Option Seconds}
    (hw : (Control.wake w false false).rank s base < v) :
    (Turn.wait w on limit base).Sinks s v base :=
  ⟨{(Control.wake w false false).rank s base}, rfl, by simpa using hw⟩

theorem Sinks.mono {v' : Rank} {t : Turn} (h : t.Sinks s v base) (hv : v < v') :
    t.Sinks s v' base := by
  obtain ⟨new, hn, hlt⟩ := h
  exact ⟨new, hn, fun r hr => (hlt r hr).trans hv⟩

theorem Sinks.under {k : Pending} {t : Turn} (h : t.Sinks s v (k :: base))
    (hk : k.rank s base < v) : t.Sinks s v base := by
  obtain ⟨new, hn, hlt⟩ := h
  refine ⟨k.rank s base ::ₘ new, ?_, fun r hr => ?_⟩
  · rw [hn, Workflow.ranks, Multiset.add_cons, Multiset.cons_add]
  · rcases Multiset.mem_cons.mp hr with rfl | hr
    · exact hk
    · exact hlt r hr

namespace Descends

theorem go {c : Control} (hc : c.rank s base < v) : (Turn.go c base).Descends s v base :=
  ⟨.go hc, by rintro w on limit p ⟨⟩⟩

theorem answer (a : Answer) (hv : bottom < v) : (Turn.answer a base).Descends s v base :=
  go hv

theorem wait {w : Wait} {on : List TaskId} {limit : Option Seconds}
    (hw : (Control.wake w false false).rank s base < v) (hr : ¬ w.IsRousing) :
    (Turn.wait w on limit base).Descends s v base :=
  ⟨.wait hw, by rintro _ _ _ _ ⟨⟩; exact hr⟩

theorem pass (hv : (Control.wake .sleep true false).rank s base < v) :
    (Turn.pass base).Descends s v base :=
  ⟨⟨{_}, rfl, by simpa using hv⟩, by rintro w on limit p ⟨⟩⟩

theorem mono {v' : Rank} {t : Turn} (h : t.Descends s v base) (hv : v < v') :
    t.Descends s v' base :=
  ⟨h.sinks.mono hv, h.fresh⟩

theorem under {k : Pending} {t : Turn} (h : t.Descends s v (k :: base)) (hk : k.rank s base < v) :
    t.Descends s v base :=
  ⟨h.sinks.under hk, h.fresh⟩

end Descends

end Turn

namespace Machine

open Turn

/-- The stack has a frame for each one that work waits in, and the run's own. -/
def Deep (m : Machine) (p : List Pending) : Prop :=
  m.run.stack.length = (frameKeys p).length + 1

theorem Underway.deep {m : Machine} {p : List Pending} (h : Underway m p) : Deep m p := by
  obtain ⟨root, hr⟩ := h.keys
  have := congrArg List.length hr
  simpa [stackKeys, Deep] using this

section functions

variable {s : Settings} (m : Machine) (env : Surroundings) (p : List Pending)

theorem call_descends (flow : Flow) (layers : List Nat) (node : Node) (shared : Bool)
    (hd : m.Deep p) : (m.call env flow layers node shared p).2.Descends env.settings
      (level env.settings p 2 0) p := by
  unfold call
  split
  · exact .answer _ (bottom_lt_level (by omega))
  · rename_i hc
    rw [hd] at hc
    refine .under (k := .frame m.nextFrame flow.id node.id) (.go ?_)
      (level_lt_level.mpr (by omega))
    exact level_frame_lt (by omega) (by omega)

/-- A flow is called for work that is to go on afterwards. -/
theorem body_descends {v : Rank} {k : Pending} (flow : Flow) (layers : List Nat) (node : Node)
    (shared : Bool) (hk : frameKeys [k] = []) (hd : m.Deep p) (hr : k.rank env.settings p < v)
    (hv : level env.settings p 2 0 < v) :
    (m.call env flow layers node shared (k :: p)).2.Descends env.settings v p := by
  refine .under ((call_descends m env (k :: p) flow layers node shared ?_).mono ?_) hr
  · rw [Deep, hd, ← List.singleton_append, frameKeys, frameKeys, List.filterMap_append]
    simp only [frameKeys] at hk
    rw [hk, List.nil_append]
  · rw [level_cons hk]
    exact hv

theorem rest_descends (seconds : Seconds) :
    (m.rest seconds p).2.Descends s (level s p 2 0) p := by
  unfold rest
  split
  · exact .answer _ (bottom_lt_level (by omega))
  · exact .wait (level_lt_level.mpr (by omega)) id

theorem sleep_descends (seconds : Seconds) :
    (m.sleep seconds p).2.Descends s (level s p 2 0) p := by
  unfold sleep
  split
  · exact .wait (level_lt_level.mpr (by omega)) id
  · exact .pass (level_lt_level.mpr (by omega))

theorem watch_descends (self : TaskId) : (m.watch self p).2.Descends s (level s p 2 0) p := by
  unfold watch
  split
  · exact .answer _ (bottom_lt_level (by omega))
  · exact .wait (level_lt_level.mpr (by omega)) id

theorem iterate_descends (loop : Loop) (bound iterations : Nat) (hd : m.Deep p) :
    (m.iterate env loop bound iterations p).2.Descends env.settings
      ((Control.iterate loop bound iterations).rank env.settings p) p := by
  have hb : bottom < (Control.iterate loop bound iterations).rank env.settings p :=
    bottom_lt_level (by omega)
  unfold iterate
  dsimp only
  split
  · exact .answer _ hb
  · split
    · exact .answer _ hb
    · split
      · exact .answer _ hb
      · exact body_descends _ env p _ _ _ _ rfl hd (level_lt_level.mpr (by omega))
          (level_lt_level.mpr (by omega))

/-- An item less is left with each body that is carried out. -/
theorem nextItem_descends (loop : Loop) (itemName : String) (indexName : Option String)
    (index : Nat) (items : List Value) (hd : m.Deep p) :
    (m.nextItem env loop itemName indexName index items p).2.Descends env.settings
      (level env.settings p 3 items.length) p := by
  have hb : bottom < level env.settings p 3 items.length := bottom_lt_level (by omega)
  unfold nextItem
  split
  · exact .answer _ hb
  · split
    · exact .answer _ hb
    · exact body_descends _ env p _ _ _ _ rfl hd (level_lt_level.mpr (.inr ⟨rfl, by simp⟩))
        (level_lt_level.mpr (by omega))

theorem startForeach_descends (place : Place) (node : Node) (hd : m.Deep p) :
    (m.startForeach env place node p).2.Descends env.settings (level env.settings p 4 0) p := by
  have hb : bottom < level env.settings p 4 0 := bottom_lt_level (by omega)
  unfold startForeach
  dsimp only
  split
  · exact .answer _ hb
  · split
    · exact .answer _ hb
    · exact (nextItem_descends _ _ _ _ _ _ _ _ hd).mono (level_lt_level.mpr (by omega))

theorem startWhile_descends (place : Place) (node : Node) :
    (m.startWhile env place node p).2.Descends env.settings (level env.settings p 4 0) p := by
  have hb : bottom < level env.settings p 4 0 := bottom_lt_level (by omega)
  unfold startWhile
  dsimp only
  split
  · exact .answer _ hb
  · split
    · exact .answer _ hb
    · split
      · exact .answer _ hb
      · exact .go (level_lt_level.mpr (by omega))

/-- An element less is left with each one that comes. -/
theorem supply_descends (c : Collection) :
    (m.supply c p).2.Descends s ((Control.supply c).rank s p) p := by
  unfold supply
  split
  · rename_i e rest hr
    refine .go (level_lt_level.mpr (.inr ⟨rfl, ?_⟩))
    simp only [Collection.left, hr, List.map_cons, List.sum_cons]
    omega
  · exact .answer _ (bottom_lt_level (by omega))

theorem element_descends (self : TaskId) (c : Collection) (acts : List Act)
    (item : Except HandlerFault Value) (hd : m.Deep p) :
    (m.element env self c acts item p).2.Descends env.settings
      ((Control.element c acts item).rank env.settings p) p := by
  have hb : bottom < (Control.element c acts item).rank env.settings p :=
    bottom_lt_level (by omega)
  unfold element
  split
  · exact .under (k := .element c _ item)
      ((sleep_descends m _ _).mono (level_lt_level.mpr (.inl (by omega))))
      (level_lt_level.mpr (.inr ⟨rfl, by simp only [List.length_cons]; omega⟩))
  · exact .go (level_lt_level.mpr (.inr ⟨rfl, by simp only [List.length_cons]; omega⟩))
  · exact .under (k := .element c _ item)
      ((watch_descends m _ self).mono (level_lt_level.mpr (.inl (by omega))))
      (level_lt_level.mpr (.inr ⟨rfl, by simp only [List.length_cons]; omega⟩))
  · split
    · exact .answer _ hb
    · split
      · exact .answer _ hb
      · exact body_descends _ env p (k := .elements _) _ _ _ _ rfl hd
          (level_lt_level.mpr (.inr ⟨rfl, by simp [Collection.left]⟩))
          (level_lt_level.mpr (by omega))

theorem startElements_descends (a : Attempt) :
    (m.startElements env a p).2.Descends s (level s p 4 0) p := by
  have hb : bottom < level s p 4 0 := bottom_lt_level (by omega)
  unfold startElements
  split
  · exact .answer _ hb
  · split
    · exact .answer _ hb
    · dsimp only
      split
      · exact .answer _ hb
      · split
        · exact .answer _ hb
        · split
          · exact .answer _ hb
          · exact .go (level_lt_level.mpr (by omega))

theorem invoke_descends (place : Place) (node : Node) (target : Flow) (args : Entries Value)
    (inline : Bool) (returns : Value) (hd : m.Deep p) :
    (m.invoke env place node target args inline returns p fun _ p => p).2.Descends env.settings
      (level env.settings p 4 0) p := by
  unfold invoke
  split <;>
    exact body_descends _ env p _ _ _ _ rfl hd (level_lt_level.mpr (by omega))
      (level_lt_level.mpr (by omega))

theorem startExecuteFlow_descends (place : Place) (node : Node) (hd : m.Deep p) :
    (m.startExecuteFlow env place node p).2.Descends env.settings (level env.settings p 4 0) p := by
  have hb : bottom < level env.settings p 4 0 := bottom_lt_level (by omega)
  unfold startExecuteFlow
  split
  · exact .answer _ hb
  · split
    · exact .answer _ hb
    · split
      · exact invoke_descends m env p _ _ _ _ _ _ hd
      · exact .answer _ hb

theorem startPrimitive_descends (a : Attempt) :
    (m.startPrimitive env a p).2.Descends s (level s p 4 0) p := by
  have hb : bottom < level s p 4 0 := bottom_lt_level (by omega)
  unfold startPrimitive
  dsimp only
  split
  · exact .answer _ hb
  · split
    · exact .answer _ hb
    · split
      · exact .answer _ hb
      · exact .under (k := .primitive a) (.wait (level_lt_level.mpr (.inl (by omega))) id)
          (level_lt_level.mpr (by omega))

/-- An attempt is at a higher level than all that it is made of. -/
theorem attempt_descends (a : Attempt) (hd : m.Deep p) :
    (m.attempt env a p).2.Descends env.settings ((Control.try a).rank env.settings p) p := by
  have within {x : StepResult}
      (hx : x.2.Descends env.settings (level env.settings (.attempt a env.now :: p) 4 0)
        (.attempt a env.now :: p)) :
      x.2.Descends env.settings ((Control.try a).rank env.settings p) p :=
    .under (hx.mono (level_lt_level.mpr (.inr ⟨rfl, by omega⟩)))
      (level_lt_level.mpr (.inr ⟨rfl, by omega⟩))
  have hd' : (m.emit "node.started" (startedPayload a.node a.number a.place.depth)).Deep
      (.attempt a env.now :: p) := hd
  unfold attempt
  dsimp only
  split
  · exact within (.answer _ (bottom_lt_level (by omega)))
  · exact within (startForeach_descends _ env _ _ _ hd')
  · exact within (startElements_descends _ env _ _)
  · exact within (startWhile_descends _ env _ _ _)
  · exact within (startExecuteFlow_descends _ env _ _ _ hd')
  · exact within (startPrimitive_descends _ env _ _)

theorem enter_descends (place : Place) (frame : Nat) :
    (m.enter place frame p).2.Descends s ((Control.enter place frame).rank s p) p := by
  have hb : bottom < (Control.enter place frame).rank s p := bottom_lt_level (by omega)
  unfold enter
  dsimp only
  split
  · exact .answer _ hb
  · split
    · exact .go (level_lt_level.mpr (by omega))
    · exact .answer _ hb

/-- A step less is left to the frame with each node that is come to. -/
theorem next_descends (self : TaskId) (walk : Walk) (node : Option Node) :
    (m.next env self walk node p).2.Descends env.settings
      ((Control.next walk node).rank env.settings p) p := by
  have hb : bottom < (Control.next walk node).rank env.settings p := bottom_lt_level (by omega)
  unfold next
  split
  · exact .answer _ hb
  · split
    · exact .answer _ hb
    · split
      · exact .answer _ hb
      · rename_i node _ hs
        dsimp only
        split
        · exact .go (level_lt_level.mpr (.inr ⟨rfl, by simp only; omega⟩))
        · exact .under (k := .checkpoint _ _) (.wait (level_lt_level.mpr (.inl (by omega))) id)
            (level_lt_level.mpr (.inr ⟨rfl, by simp only; omega⟩))

theorem dispatch_descends (walk : Walk) (node : Node) :
    (m.dispatch env walk node p).2.Descends env.settings
      ((Control.dispatch walk node).rank env.settings p) p := by
  have hb : bottom < (Control.dispatch walk node).rank env.settings p := bottom_lt_level (by omega)
  have visits {t : Turn} (ht : t.Descends env.settings
      ((Control.dispatch walk node).rank env.settings p) (.visit walk node :: p)) :
      t.Descends env.settings ((Control.dispatch walk node).rank env.settings p) p :=
    .under ht (level_lt_level.mpr (.inr ⟨rfl, by omega⟩))
  unfold dispatch
  dsimp only
  split
  · exact .answer _ hb
  · split
    · exact visits (.answer _ hb)
    · split
      · exact visits (.go (level_lt_level.mpr (.inl (by omega))))
      · split <;> exact visits (.answer _ hb)

/-- An attempt less is left with each one that fails. -/
theorem afterFailure_descends (a : Attempt) (since since' : Seconds) (e : ErrorInfo) :
    (m.afterFailure env a since e p).2.Descends s ((Pending.attempt a since').rank s p) p := by
  have hb : bottom < (Pending.attempt a since').rank s p := bottom_lt_level (by omega)
  unfold afterFailure
  dsimp only
  split
  · rename_i hr
    have hn := Decision.le_retries_of_retry hr
    split
    · exact .under (k := .backoff a) ((rest_descends _ _ _).mono (level_lt_level.mpr (.inl (by omega))))
        (level_lt_level.mpr (.inr ⟨rfl, by omega⟩))
    · exact .answer _ hb
  · exact .answer _ hb
  · exact .answer _ hb
  · exact .answer _ hb

theorem afterAttempt_descends (a : Attempt) (since : Seconds) (o : Outcome) :
    (m.afterAttempt env a since o p).2.Descends s ((Pending.attempt a since).rank s p) p := by
  unfold afterAttempt
  split
  · exact .answer _ (bottom_lt_level (by omega))
  · exact .answer _ (bottom_lt_level (by omega))
  · exact afterFailure_descends m env p a since since _

theorem afterVisit_descends (walk : Walk) (node : Node) (o : Outcome) :
    (afterVisit walk node o p).Descends s ((Pending.visit walk node).rank s p) p := by
  unfold afterVisit
  split
  · exact .go (level_lt_level.mpr (.inr ⟨rfl, by omega⟩))
  · exact .answer _ (bottom_lt_level (by omega))
  · exact .answer _ (bottom_lt_level (by omega))

/-- What is done about an answer has lower ranks than the work that waited for it. -/
theorem resume_descends (k : Pending) (a : Answer) (hd : k.IsWalk → frameKeys [k] = [] → m.Deep p) :
    (m.resume env k a p).2.Descends env.settings (k.rank env.settings p) p := by
  have hb : bottom < k.rank env.settings p := by
    cases k <;> exact bottom_lt_level (by omega)
  have passed (n : Machine) (a : Answer) :
      (n, Turn.answer a p).2.Descends env.settings (k.rank env.settings p) p := .answer a hb
  cases k with
  | slot held => cases a <;> exact passed _ _
  | execution => cases a <;> exact passed _ _
  | checkpoint walk node =>
    cases a with
    | done => exact .go (level_lt_level.mpr (.inr ⟨rfl, by omega⟩))
    | _ => exact passed _ _
  | visit walk node =>
    cases a with
    | outcome o => exact afterVisit_descends p walk node o
    | _ => exact passed _ _
  | attempt b since =>
    cases a with
    | outcome o => exact afterAttempt_descends m env p b since o
    | _ => exact passed _ _
  | backoff b =>
    cases a with
    | rested cutShort =>
      unfold resume
      dsimp only
      split
      · exact .answer _ hb
      · exact .go (level_lt_level.mpr (.inr ⟨rfl, by simp only; omega⟩))
    | _ => exact passed _ _
  | primitive b =>
    cases a with
    | handled r => cases r <;> exact passed _ _
    | _ => exact passed _ _
  | frame key flow node => cases a <;> exact passed _ _
  | foreach loop itemName indexName index items =>
    cases a with
    | outcome o =>
      cases o with
      | completed l => exact nextItem_descends m env p loop itemName indexName index items (hd trivial rfl)
      | _ => exact passed _ _
    | _ => exact passed _ _
  | «while» loop bound iterations =>
    cases a with
    | outcome o =>
      cases o with
      | completed l => exact .go (level_lt_level.mpr (.inr ⟨rfl, by omega⟩))
      | _ => exact passed _ _
    | _ => exact passed _ _
  | element c acts item =>
    cases a with
    | rested cutShort => exact .go (level_lt_level.mpr (.inr ⟨rfl, by omega⟩))
    | _ => exact passed _ _
  | elements c =>
    cases a with
    | outcome o =>
      cases o with
      | completed l => exact .go (level_lt_level.mpr (.inr ⟨rfl, by omega⟩))
      | _ => exact passed _ _
    | _ => exact passed _ _
  | invocation place node child returns =>
    cases returns with
    | none => cases a <;> exact passed _ _
    | some returns =>
      cases a with
      | outcome o => cases o <;> exact passed _ _
      | _ => exact passed _ _
  | subexecution child => cases a <;> exact passed _ _
  | plan c acts finish =>
    cases a with
    | rested cutShort => exact .go hb
    | _ => exact passed _ _
  | saving saveAs => cases a <;> exact passed _ _
  | rest => cases a <;> exact passed _ _

theorem enqueue_descends : (m.enqueue []).2.Descends s (Control.enqueue.rank s []) [] := by
  unfold enqueue
  split
  · exact .under (k := .slot false) (.go (level_lt_level.mpr (by omega)))
      (level_lt_level.mpr (by omega))
  · exact .wait (level_lt_level.mpr (by omega)) id

theorem execute_descends : (m.execute env p).2.Descends s (Control.execute.rank s p) p := by
  have hb : bottom < Control.execute.rank s p := bottom_lt_level (by omega)
  unfold execute
  split
  · exact .answer _ hb
  · split
    · exact .answer _ hb
    · exact .under (k := .execution) (.go (level_lt_level.mpr (by omega)))
        (level_lt_level.mpr (by omega))

/-- A wait is followed by an answer or by a wait of a kind of which fewer may follow. -/
theorem wake_sinks (self : TaskId) (w : Wait) (signalled interrupted : Bool) :
    (m.wake env self w signalled interrupted p).2.Sinks s
      ((Control.wake w signalled interrupted).rank s p) p := by
  have hb : bottom < (Control.wake w signalled interrupted).rank s p := by
    cases w <;> exact bottom_lt_level (by omega)
  have answered (n : Machine) (a : Answer) : (n, Turn.answer a p).2.Sinks s
      ((Control.wake w signalled interrupted).rank s p) p := .go hb
  unfold wake
  cases w with
  | start taker watcher =>
    have begun (held : Bool) : (Turn.go .execute (.slot held :: p)).Sinks s
        ((Control.wake (.start taker watcher) signalled interrupted).rank s p) p :=
      .under (k := .slot held) (.go (level_lt_level.mpr (by omega))) (level_lt_level.mpr (by omega))
    dsimp only
    split
    · exact answered _ _
    · split
      · exact begun true
      · exact begun false
  | grant =>
    dsimp only
    split <;> exact answered _ _
  | cancellation => exact answered _ _
  | resumption => exact answered _ _
  | settlement a handler watcher =>
    unfold wakeFromSettlement removeHandler
    dsimp only
    split
    · exact answered _ _
    · split
      · exact answered _ _
      · split <;> exact .wait (level_lt_level.mpr (.inr ⟨rfl, by simp [Wait.left]⟩))
  | grace handler =>
    unfold removeHandler
    dsimp only
    split
    · exact answered _ _
    · split
      · exact answered _ _
      · exact .wait (level_lt_level.mpr (.inr ⟨rfl, by simp [Wait.left]⟩))
  | removal handler o passedOn => exact answered _ _
  | nap watcher =>
    dsimp only
    split
    · exact answered _ _
    · exact .wait (level_lt_level.mpr (.inr ⟨rfl, by simp [Wait.left]⟩))
  | rousing watcher before =>
    dsimp only
    split
    · exact answered _ _
    · split <;> exact answered _ _
  | sleep => exact answered _ _

/-- A step within a walk, answers apart. -/
theorem walk_descends (self : TaskId) {c : Control} (hw : c.IsWalk) (ha : ∀ a, c ≠ .answer a)
    (hd : m.Deep p) : (m.step env self c p).2.Descends env.settings (c.rank env.settings p) p := by
  cases c with
  | enter place frame => exact enter_descends m p place frame
  | next walk node => exact next_descends m env p self walk node
  | dispatch walk node => exact dispatch_descends m env p walk node
  | «try» a => exact attempt_descends m env p a hd
  | iterate loop bound iterations => exact iterate_descends m env p loop bound iterations hd
  | supply d => exact supply_descends m p d
  | element d acts item => exact element_descends m env p self d acts item hd
  | answer a => exact absurd rfl (ha a)
  | _ => exact absurd hw id

end functions

/-- A step of the walker puts lower ranks in the place of some. -/
theorem Stands.sinks {m : Machine} {c : Control} {p : List Pending} (h : Stands m c p)
    (env : Surroundings) (self : TaskId) :
    Multiset.IsDershowitzMannaLT (Stance.ranks env.settings (m.step env self c p).2.stance)
      (Stance.ranks env.settings (some (c, p))) := by
  have lower {t : Turn} (ht : t.Sinks env.settings (c.rank env.settings p) p) :
      Multiset.IsDershowitzMannaLT (t.stance.ranks env.settings)
        (Stance.ranks env.settings (some (c, p))) := by
    obtain ⟨new, hn, hlt⟩ := ht
    refine ⟨ranks env.settings p, new, {c.rank env.settings p}, by simp, ?_, ?_, ?_⟩
    · rw [hn, add_comm]
    · rw [Stance.ranks, ← Multiset.singleton_add, add_comm]
    · simpa using hlt
  have answered (a : Answer) (hc : c = .answer a)
      (hd : ∀ k q, p = k :: q → k.IsWalk → frameKeys [k] = [] → m.Deep q) :
      Multiset.IsDershowitzMannaLT (Stance.ranks env.settings (m.step env self c p).2.stance)
        (Stance.ranks env.settings (some (c, p))) := by
    subst hc
    cases p with
    | nil => exact ⟨0, 0, {bottom}, by simp, rfl, rfl, by simp⟩
    | cons k q =>
      obtain ⟨new, hn, hlt⟩ := (resume_descends m env q k a (hd k q rfl)).sinks
      refine ⟨ranks env.settings q, new, {bottom, k.rank env.settings q}, by simp, ?_, ?_,
        fun r hr => ⟨k.rank env.settings q, by simp, hlt r hr⟩⟩
      · exact hn.trans (add_comm _ _)
      · rw [Stance.ranks, ranks, add_comm, Multiset.insert_eq_cons, Multiset.cons_add,
          Multiset.singleton_add]
        rfl
  have underway (hu : Underway m p) :
      ∀ k q, p = k :: q → k.IsWalk → frameKeys [k] = [] → m.Deep q := by
    rintro k q rfl hk hf
    exact (hu.tail hk hf).deep
  cases h with
  | enqueue h => exact lower (enqueue_descends m).sinks
  | start h t u s i => exact lower (wake_sinks m env [] self _ s i)
  | execute h hp => exact lower (execute_descends m env p).sinks
  | walk h hu hc hm hl =>
    by_cases ha : ∃ a, c = .answer a
    · obtain ⟨a, rfl⟩ := ha
      exact answered a rfl (underway hu)
    · exact lower (walk_descends m env p self hc (fun a he => ha ⟨a, he⟩) hu.deep).sinks
  | wake h hu hw hm s i => exact lower (wake_sinks m env p self _ s i)
  | resume h hu hm s i => exact lower (wake_sinks m env p self _ s i)
  | back h hu hm => exact answered _ rfl (underway hu)
  | refuse h hu walk node => exact lower (dispatch_descends m env p walk node).sinks
  | unwind h hu => exact answered _ rfl (underway hu)
  | ended h hp a =>
    refine answered a rfl ?_
    rintro k q rfl hk -
    cases k <;> first | exact absurd hk id | exact absurd hp id

end Machine

end Workflow
