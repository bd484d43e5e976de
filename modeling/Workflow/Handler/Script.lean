import Workflow.Handler.Element
import Workflow.Handler.Registry
/-!
Plans, and suppliers of elements, described by values: an object names the acts of a plan and its
ending.
-/

namespace Workflow

namespace HandlerFault

/-- The fault that a list describes: its type and its text. A fault about a key quotes the key. -/
def ofDescription (v : Value) : HandlerFault :=
  match v with
  | .list (.str type :: .str text :: _) =>
    raised type (if type == FaultKind.key.name && !text.isEmpty then Text.quoted text else text)
  | .list (.str type :: _) => raised type ""
  | _ => raised "" ""

end HandlerFault

namespace Finish

/-- The failure that a plan ends with. -/
def failed (v code : Value) : HandlerResult :=
  .failure (some {
    code := code.name
    message := v.textField "message" "scripted failure"
    retryable := v.isSet "retryable" true
    data := v.field "data" })

def ofValue (v : Value) : Finish :=
  if v.isSet "cancel_self" then stop
  else
    match v.given? "raise", v.given? "sub", v.given? "fail" with
    | some raised, _, _ => .fault (.ofDescription raised)
    | _, some sub, _ =>
      subflow (sub.field "flow") (sub.field "args").fields (sub.isSet "inline")
        (v.textField? "save")
    | _, _, some code => result (failed v code)
    | _, _, _ =>
      result (if v.isSet "bare_failure" then .failure none else .ofValue (v.field "return"))

end Finish

namespace Plan

/-- The acts of a plan, in the order in which they are carried out. -/
def actsOf (v : Value) : List Act :=
  [(v.given? "sleep").map fun ms => Act.sleep ms.millis,
    if v.isSet "wait_cancel" then some .awaitCancel else none,
    (v.given? "cleanup").map fun ms => .sleep ms.millis,
    (v.given? "cancel").map fun _ => .cancel (v.textField? "cancel")].filterMap id

def ofValue (v : Value) : Plan :=
  ⟨actsOf v, .ofValue v⟩

end Plan

namespace ElementProvider

/-- A place in a stream. -/
def placeField? (key : String) (v : Value) : Option Nat :=
  match v.field key with
  | .int n => if n < 0 then none else some n.toNat
  | _ => none

/-- The supplier that an object describes, if it describes one. -/
def ofDescription (v : Value) : Option ElementProvider :=
  let supply := v.field "items"
  match v.textField "mode" with
  | "" => none
  | "none" => some (ofValue .null)
  | "raise" => some ⟨.error (.ofDescription (v.field "error"))⟩
  | "stream" =>
    let pause := v.field "delay"
    some (stream supply.items (placeField? "fail_at" v) (placeField? "cancel_at" v)
      (if pause.isVacant then none else some pause.millis))
  | _ => some (ofValue supply)

end ElementProvider

namespace Handler

/-- What a handler gives back that is called with nothing to wait for. -/
def call (h : Handler) (config vars : Entries Value) : Except ShapeFault HandlerResult :=
  match h with
  | .builtin b =>
    (b.act config vars).map fun
      | .reply r _ => r
      | .rest _ => Builtin.rested false
  | .planned plans =>
    .ok (match (Plan.ofCall plans 0).finish with
      | .result r => r
      | _ => .success [])

end Handler

end Workflow
