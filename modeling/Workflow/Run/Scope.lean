import Workflow.Expr.Eval
import Workflow.Value.Entries
/-!
Variable scopes: layers of bindings, the nearest first. Reads fall through to farther layers. Writes
land in the nearest layer, except that a shared layer passes on what it does not bind itself.
-/

namespace Workflow

structure Layer where
  bindings : Entries Value := []
  /-- Whether names that the layer does not bind are written to the next one. -/
  shared : Bool := false

/-- Layers, the nearest first. The farthest one is never shared in effect. -/
abbrev Scope := List Layer

namespace Scope

def find? (key : String) : Scope → Option Value
  | [] => none
  | l :: rest =>
    match Entries.find? key l.bindings with
    | some v => some v
    | none => find? key rest

def contains (key : String) (s : Scope) : Bool :=
  (find? key s).isSome

/-- Binds a name in the nearest layer, whatever that layer shares. -/
def setLocal (key : String) (v : Value) : Scope → Scope
  | [] => []
  | l :: rest => { l with bindings := Entries.insert key v l.bindings } :: rest

/-- Writes a name. -/
def set (key : String) (v : Value) : Scope → Scope
  | [] => []
  | l :: rest =>
    if l.shared && !rest.isEmpty && !Entries.contains key l.bindings then l :: set key v rest
    else { l with bindings := Entries.insert key v l.bindings } :: rest

/-- Removes a name from the layer that a write would change, if it is bound there. -/
def erase? (key : String) : Scope → Option Scope
  | [] => none
  | l :: rest =>
    if Entries.contains key l.bindings then
      some ({ l with bindings := Entries.erase key l.bindings } :: rest)
    else if l.shared && !rest.isEmpty then (erase? key rest).map (l :: ·)
    else none

/-- Every visible name once, those of nearer layers first. -/
def keys : Scope → List String
  | [] => []
  | l :: rest =>
    Entries.keys l.bindings ++ (keys rest).filter fun k => !Entries.contains k l.bindings

def size (s : Scope) : Nat :=
  (keys s).length

/-- All visible bindings, farther layers first and overlaid by nearer ones. -/
def snapshot : Scope → Entries Value
  | [] => []
  | l :: rest => Entries.update (snapshot rest) l.bindings

/-- The visible bindings in the order of their names. -/
def visible (s : Scope) : Entries Value :=
  (keys s).filterMap fun k => (find? k s).map (k, ·)

def update (s : Scope) (entries : Entries Value) : Scope :=
  entries.foldl (fun s e => set e.1 e.2 s) s

/-- What a name is bound to, or a default that is bound to it first. -/
def getOrSet (key : String) (v : Value) (s : Scope) : Value × Scope :=
  match find? key s with
  | some w => (w, s)
  | none => (v, set key v s)

/-- Takes a name out; nothing if it is not bound where a write would change it. -/
def pop? (key : String) (s : Scope) : Option (Value × Scope) := do
  let v ← find? key s
  let s ← erase? key s
  return (v, s)

/-- Takes out the first visible name until that is not possible. -/
def clearSteps : Nat → Scope → Scope
  | 0, s => s
  | fuel + 1, s =>
    match (keys s).head?.bind (pop? · s) with
    | some (_, s) => clearSteps fuel s
    | none => s

/-- The number of bindings in all layers. -/
def bindingCount (s : Scope) : Nat :=
  s.foldr (fun l n => l.bindings.length + n) 0

def clear (s : Scope) : Scope :=
  clearSteps (bindingCount s) s

/-- A scope as what expressions see under `vars`. -/
def vars (s : Scope) : Variables :=
  ⟨.obj (visible s), fun key => find? key s⟩

end Scope

end Workflow
