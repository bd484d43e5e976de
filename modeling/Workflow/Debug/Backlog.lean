import Workflow.Value.Basic
/-!
Messages to a client, queued up to a bound. A client that is too slow loses the backlog and gets a
mark in its place that says how much was lost.
-/

namespace Workflow

structure Backlog where
  /-- The most messages that are queued; zero means no bound. -/
  bound : Nat
  /-- Queued messages, the oldest first. -/
  messages : List Value := []

namespace Backlog

def isFull (b : Backlog) : Bool :=
  b.bound != 0 && b.messages.length ≥ b.bound

/-- Queues a message, if there is room. -/
def put (b : Backlog) (message : Value) : Option Backlog :=
  if b.isFull then none else some { b with messages := b.messages ++ [message] }

/-- The mark for lost messages, as part of the queue of the message that was too many. -/
def resync (message : Value) (lost : Nat) : Value :=
  .obj [
    ("type", .str "debug.state"), ("runId", message.field "runId"), ("resync", .bool true),
    ("dropped", .nat lost)]

/-- Queues a message; a full queue is emptied for it. Nothing, if there is no room even then. -/
def enqueue (b : Backlog) (message : Value) : Option Backlog :=
  if b.isFull then do
    let emptied : Backlog := { b with messages := [] }
    let marked ← emptied.put (resync message b.messages.length)
    marked.put message
  else b.put message

/-- Takes the oldest message. -/
def take? (b : Backlog) : Option (Value × Backlog) :=
  match b.messages with
  | [] => none
  | m :: rest => some (m, { b with messages := rest })

end Backlog

end Workflow
