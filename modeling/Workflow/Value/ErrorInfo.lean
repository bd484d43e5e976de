import Workflow.Value.Shown
/-!
What a failed node, frame or run carries: a stable code, a message, whether a retry makes sense, and
the failure underneath.
-/

namespace Workflow

structure ErrorInfo where
  code : String
  message : String
  retryable : Bool := true
  data : Value := .null
  cause : Option ErrorInfo := none

instance : Inhabited ErrorInfo := ⟨⟨"", "", true, .null, none⟩⟩

namespace ErrorInfo

/-- Data and cause are written only if there are any. -/
def toValue : ErrorInfo → Value
  | ⟨code, message, retryable, data, cause⟩ =>
    .ofFields [
      ("code", some (.str code)),
      ("message", some (.str message)),
      ("retryable", some (.bool retryable)),
      ("data", if data.isVacant then none else some data),
      ("cause", match cause with
        | none => none
        | some c => some (toValue c))]

/-- Text of a field, or a default where the field is vacant or missing. -/
def nameOr (default key : String) (fields : Entries Value) : String :=
  match Entries.find? key fields with
  | some v => if v.isVacant then default else v.name
  | none => default

mutual

/-- Reads the description of a failure; what is not an object describes nothing. -/
def ofValue : Value → ErrorInfo
  | .obj fields => {
      code := nameOr "handler_error" "code" fields
      message := nameOr "handler reported failure" "message" fields
      retryable := match Entries.find? "retryable" fields with
        | some v => !v.isVacant
        | none => true
      data := (Entries.find? "data" fields).getD .null
      cause := causeIn fields }
  | _ => { code := "handler_error", message := "handler reported failure" }

/-- The cause among the fields of a failure, if it is an object. -/
def causeIn : List (String × Value) → Option ErrorInfo
  | [] => none
  | (k, v) :: rest =>
    if k == "cause" then if v.isObject then some (ofValue v) else none
    else causeIn rest

end

end ErrorInfo

end Workflow
