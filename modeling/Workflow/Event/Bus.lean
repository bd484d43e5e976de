import Workflow.Clock.Basic
import Workflow.Value.Basic
/-!
Run events: numbered per run, kept up to a limit, and handed to the listeners of the run and of all
runs. The bus says who is to be told; telling them is the caller's part.
-/

namespace Workflow

structure RunEvent where
  type : String
  run : String
  seq : Nat
  time : Seconds
  payload : Entries Value

namespace RunEvent

/-- An event as JSON; the payload may name the fields of the envelope anew. -/
def toValue (e : RunEvent) : Value :=
  .obj (Entries.update
    [("type", .str e.type), ("runId", .str e.run), ("seq", .nat e.seq),
      ("ts", .float (e.time * 1000.0))] e.payload)

/-- Fields that no payload may have. -/
def reservedFields : List String := ["self", "run_id", "event_type"]

end RunEvent

/-- A bus with listeners of type `L`; equal listeners are not told apart. -/
structure Bus (L : Type) where
  historyLimit : Nat := 1000
  /-- The number of the last event of each run. -/
  last : Entries Nat := []
  /-- The last events of each run, the newest first. -/
  recent : Entries (List RunEvent) := []
  /-- The listeners of each run in the order of subscription. -/
  ofRun : Entries (List L) := []
  /-- The listeners of all runs. -/
  ofAll : List L := []
  /-- Who is told when a run is forgotten. -/
  onForget : List L := []

namespace Bus

variable {L : Type} [BEq L]

def listenersOf (b : Bus L) (run : String) : List L :=
  (Entries.find? run b.ofRun).getD []

/-- Numbers and keeps an event; the answer names who is to be told, in order. -/
def emit (b : Bus L) (time : Seconds) (run type : String) (payload : Entries Value) :
    Bus L × RunEvent × List L :=
  let seq := (Entries.find? run b.last).getD 0 + 1
  let e : RunEvent := { type, run, seq, time, payload }
  let kept := (e :: (Entries.find? run b.recent).getD []).take b.historyLimit
  ({ b with last := Entries.insert run seq b.last, recent := Entries.insert run kept b.recent },
    e, b.listenersOf run ++ b.ofAll)

/-- Subscribes to one run or to all. -/
def subscribe (b : Bus L) (listener : L) (run : Option String) : Bus L :=
  match run with
  | none => { b with ofAll := b.ofAll ++ [listener] }
  | some run =>
    { b with ofRun := Entries.insert run (b.listenersOf run ++ [listener]) b.ofRun }

/-- Takes back the first subscription of an equal listener, if there is one. -/
def unsubscribe (b : Bus L) (listener : L) (run : Option String) : Bus L :=
  match run with
  | none => { b with ofAll := b.ofAll.erase listener }
  | some run =>
    match (b.listenersOf run).erase listener with
    | [] => { b with ofRun := Entries.erase run b.ofRun }
    | rest => { b with ofRun := Entries.insert run rest b.ofRun }

/-- The kept events of a run with numbers above `after`, in order. -/
def history (b : Bus L) (run : String) (after : Int) : List RunEvent :=
  (((Entries.find? run b.recent).getD []).filter fun e => (e.seq : Int) > after).reverse

def subscribeForget (b : Bus L) (listener : L) : Bus L :=
  { b with onForget := b.onForget ++ [listener] }

def unsubscribeForget (b : Bus L) (listener : L) : Bus L :=
  { b with onForget := b.onForget.erase listener }

/-- Drops a run's numbers, events and listeners; the answer names who is to be told. -/
def forget (b : Bus L) (run : String) : Bus L × List L :=
  ({ b with
      last := Entries.erase run b.last
      recent := Entries.erase run b.recent
      ofRun := Entries.erase run b.ofRun }, b.onForget)

end Bus

end Workflow
