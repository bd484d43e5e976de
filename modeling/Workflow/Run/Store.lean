import Workflow.Run.Record
/-!
The store of flows and runs. What it says of runs needs only their place in it, their flow, their
status and two points in time.
-/

namespace Workflow

/-- What a store knows of a run of any kind. -/
structure RunKey where
  id : String
  flow : String
  status : Status
  createdAt : Instant
  finishedAt : Option Instant

def Run.key (r : Run) : RunKey :=
  ⟨r.id, r.flow.id, r.status, r.createdAt, r.finishedAt⟩

/-- Flows and runs under their ids, in the order in which the ids first came. -/
structure Store (R : Type) where
  flows : Entries Flow := []
  runs : Entries R := []

namespace Store

variable {R : Type}

/-- All flows in the order of their ids. -/
def sortedFlows (flows : Entries Flow) : List Flow :=
  (Entries.values flows).mergeSort fun a b => decide (a.id ≤ b.id)

/-- Keeps a flow under its id, an older one only if it is to be replaced. -/
def saveFlow (flows : Entries Flow) (f : Flow) (replace : Bool) : Except Flow (Entries Flow) :=
  match Entries.find? f.id flows with
  | some old => if replace then .ok (Entries.insert f.id f flows) else .error old
  | none => .ok (Entries.insert f.id f flows)

/-- The runs of a flow and a status, the newest first, runs of one time in the order of the store. -/
def select (key : R → RunKey) (runs : List R) (flow : Option String) (status : Option Status) :
    List R :=
  let chosen := runs.filter fun r =>
    flow.all (· == (key r).flow) && status.all (· == (key r).status)
  chosen.mergeSort fun a b => decide ((key b).createdAt ≤ (key a).createdAt)

/-- The first `n` of a list, or all but the last `-n`; a limit of zero is none. -/
def limit (n : Int) (rs : List R) : List R :=
  if n == 0 then rs
  else if n > 0 then rs.take n.toNat
  else rs.take (rs.length - (-n).toNat)

/-- When a run ended, or when it was created. -/
def endTime (k : RunKey) : Instant :=
  k.finishedAt.getD k.createdAt

/-- The ended runs beyond the last `keep` of them, the oldest first. -/
def excess (key : R → RunKey) (runs : List R) (keep : Int) : List R :=
  let ended := runs.filter fun r => (key r).status.isTerminal
  let ordered := ended.mergeSort fun a b => decide (endTime (key a) ≤ endTime (key b))
  ordered.take ((ordered.length : Int) - keep).toNat

/-- Keeps a run under its id, in place of an older one. -/
def saveRun (key : R → RunKey) (s : Store R) (r : R) : Store R :=
  { s with runs := Entries.insert (key r).id r s.runs }

def deleteRun (s : Store R) (id : String) : Store R :=
  { s with runs := Entries.erase id s.runs }

/-- Lets go of the ended runs beyond the last `keep` of them; with their ids, the oldest first. -/
def prune (key : R → RunKey) (s : Store R) (keep : Int) : Store R × List String :=
  let gone := (excess key (Entries.values s.runs) keep).map fun r => (key r).id
  ({ s with runs := gone.foldl (fun runs id => Entries.erase id runs) s.runs }, gone)

end Store

end Workflow
