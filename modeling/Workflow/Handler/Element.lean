import Workflow.Handler.Plan
import Workflow.Value.Shape
/-!
Live collections: what is there before each element comes, and how the supply may break off.
-/

namespace Workflow

/-- The next element of a collection, or the fault that it breaks off with, after some acts. -/
structure Element where
  acts : List Act := []
  item : Except HandlerFault Value

/-- Who supplies the elements of collections: all elements to come, or the fault of the request. -/
structure ElementProvider where
  elements : Except HandlerFault (List Element)

namespace ElementProvider

/-- The items of a value; null has none. -/
def ofValue (v : Value) : ElementProvider :=
  ⟨match v with
    | .null => .ok []
    | v =>
      match v.iterate with
      | .ok items => .ok (items.map fun item => { item := .ok item })
      | .error f => .error (.ofShape f)⟩

/-- The elements of a stream: it breaks off before one place, cancels the run before another, and
rests before each element. -/
def streamed (failAt cancelAt : Option Nat) (pause : List Act) : Nat → List Value → List Element
  | _, [] => []
  | index, v :: rest =>
    if failAt == some index then
      [{ item := .error (.raised "ConnectionError" "stream broke") }]
    else
      { acts := (if cancelAt == some index then [.cancel (some "provider")] else []) ++ pause
        item := .ok v } :: streamed failAt cancelAt pause (index + 1) rest

def stream (items : List Value) (failAt cancelAt : Option Nat) (restMs : Option Float) :
    ElementProvider :=
  ⟨.ok (streamed failAt cancelAt ((restMs.map Act.sleep).toList) 0 items)⟩

end ElementProvider

end Workflow
