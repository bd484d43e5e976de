import Workflow.Clock.Basic
/-!
Timers in a binary heap, the earliest on top. Of timers for one time the one that is on top goes
first; stopped timers stay in the heap until they come to its top or become too many.
-/

namespace Workflow

structure Timer (α : Type) where
  time : Seconds
  target : α
  stopped : Bool := false

/-- A heap: no timer is earlier than its parent, the one at half its place. -/
abbrev Timers (α : Type) := Array (Timer α)

namespace Timers

variable {α : Type}

/-- Whether the timer at one place is earlier than that at another. -/
def earlier (ts : Timers α) (i j : Nat) : Bool :=
  match ts[i]?, ts[j]? with
  | some a, some b => a.time < b.time
  | _, _ => false

/-- Lifts a timer above all parents that are later, but not above a place. -/
def lift (floor : Nat) : Nat → Nat → Timers α → Timers α
  | 0, _, ts => ts
  | fuel + 1, i, ts =>
    if i ≤ floor then ts
    else
      let parent := (i - 1) / 2
      if earlier ts i parent then lift floor fuel parent (ts.swapIfInBounds i parent) else ts

/-- The child that goes first, the right one of two for one time. -/
def firstChild (ts : Timers α) (i : Nat) : Nat :=
  let left := 2 * i + 1
  if left + 1 < ts.size && !earlier ts left (left + 1) then left + 1 else left

/-- Lets a timer sink to a leaf, and lifts it again as far as it may go. -/
def sink (floor : Nat) : Nat → Nat → Timers α → Timers α
  | 0, _, ts => ts
  | fuel + 1, i, ts =>
    if 2 * i + 1 < ts.size then
      let child := firstChild ts i
      sink floor fuel child (ts.swapIfInBounds i child)
    else lift floor ts.size i ts

def start (ts : Timers α) (time : Seconds) (target : α) : Timers α :=
  lift 0 (ts.size + 1) ts.size (ts.push { time, target })

/-- Stops the timers for some targets. -/
def stop (ts : Timers α) (isFor : α → Bool) : Timers α :=
  ts.map fun t => if isFor t.target then { t with stopped := true } else t

/-- The timer on top and the heap without it. -/
def pop? (ts : Timers α) : Option (Timer α × Timers α) :=
  match ts[0]? with
  | none => none
  | some top =>
    let rest := (ts.swapIfInBounds 0 (ts.size - 1)).pop
    some (top, sink 0 (rest.size + 1) 0 rest)

/-- Takes stopped timers from the top. -/
def dropStopped : Nat → Timers α → Timers α
  | 0, ts => ts
  | fuel + 1, ts =>
    match pop? ts with
    | some (top, rest) => if top.stopped then dropStopped fuel rest else ts
    | none => ts

/-- Makes a heap of timers in any order. -/
def heapify (ts : Timers α) : Timers α :=
  (List.range (ts.size / 2)).reverse.foldl (fun ts i => sink i (ts.size + 1) i ts) ts

/-- Removes stopped timers: all of them if most of many are stopped, otherwise those on top. -/
def tidy (ts : Timers α) : Timers α :=
  let live := ts.filter (!·.stopped)
  if ts.size > 100 && 2 * (ts.size - live.size) > ts.size then heapify live
  else dropStopped (ts.size + 1) ts

/-- Takes all timers that are due before a time, in order. -/
def takeDue (before : Seconds) : Nat → Timers α → List (Timer α) × Timers α
  | 0, ts => ([], ts)
  | fuel + 1, ts =>
    match pop? ts with
    | none => ([], ts)
    | some (top, rest) =>
      if top.time < before then
        let (due, rest) := takeDue before fuel rest
        (top :: due, rest)
      else ([], ts)

/-- The time of the next timer that is not stopped. -/
def next? (ts : Timers α) : Option Seconds :=
  ((tidy ts)[0]?).map (·.time)

end Timers

end Workflow
