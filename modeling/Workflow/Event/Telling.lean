import Workflow.Event.Bus
/-!
Telling listeners: one after another they are called, and what one of them raises is noted and goes no
further.
-/

namespace Workflow

/-- A listener that was told something, with the text of what it raised, if it did. -/
structure Telling (L M : Type) where
  listener : L
  message : M
  fault : Option String

/-- How listeners take what they are told. What they have done by then stays done when they raise. -/
abbrev Reaction (σ L M : Type) := L → M → ExceptT String (StateM σ) Unit

namespace Reaction

variable {σ L M : Type} (react : Reaction σ L M)

/-- Tells one listener. -/
def tell (listener : L) (message : M) : StateM σ (Telling L M) := do
  match ← (react listener message).run with
  | .ok () => return ⟨listener, message, none⟩
  | .error text => return ⟨listener, message, some text⟩

/-- Tells listeners in turn. -/
def tellAll : List (L × M) → StateM σ (List (Telling L M))
  | [] => return []
  | (listener, message) :: rest => do
    let first ← react.tell listener message
    return first :: (← tellAll rest)

end Reaction

namespace Bus

variable {σ L : Type} [BEq L]

/-- Emits an event to its listeners. -/
def announce (b : Bus L) (react : Reaction σ L RunEvent) (time : Seconds) (run type : String)
    (payload : Entries Value) : StateM σ (Bus L × RunEvent × List (Telling L RunEvent)) := do
  let (b, e, told) := b.emit time run type payload
  return (b, e, ← react.tellAll (told.map (·, e)))

/-- Forgets a run, and tells those who want to know. -/
def dismiss (b : Bus L) (react : Reaction σ L String) (run : String) :
    StateM σ (Bus L × List (Telling L String)) := do
  let (b, told) := b.forget run
  return (b, ← react.tellAll (told.map (·, run)))

end Bus

end Workflow
