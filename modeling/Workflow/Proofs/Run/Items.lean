import Workflow.Proofs.Run.Enclosure
import Workflow.Proofs.Run.Rounds
/-!
The items of a list, and a body that is run for them. It is run for one after the other, each time with the item
and its position bound in a layer of its own.
-/

namespace Workflow

namespace Machine

variable {config : Value} {item : String} {index : Option String} {i : Nat} {v : Value}

/-- The layer that an item and its position are bound in. -/
def itemLayer (item : String) (index : Option String) (i : Nat) (v : Value) : Layer where
  bindings := Entries.ofList ((item, v) :: index.toList.map fun name => (name, Value.nat i))
  shared := true

theorem itemLayer_isSeal (item : String) (index : Option String) (i : Nat) (v : Value) :
    (itemLayer item index i v).IsSeal (item :: index.toList) where
  shared := rfl
  binds name := by
    rw [Entries.contains_iff]
    cases index with
    | none =>
      have hb : (itemLayer item none i v).bindings = Entries.insert item v [] := rfl
      rw [hb, Entries.mem_keys_insert]
      simp [Entries.keys]
    | some other =>
      have hb : (itemLayer item (some other) i v).bindings =
          Entries.insert other (.nat i) (Entries.insert item v []) := rfl
      rw [hb, Entries.mem_keys_insert, Entries.mem_keys_insert]
      simp [Entries.keys, or_comm]

/-- A loop over a list is over, or the body is called for the next item. -/
theorem nextItem_cases (m : Machine) (env : Surroundings) (loop : Loop) (item : String) (index : Option String)
    (i : Nat) (items : List Value) (p : List Pending) :
    (items = [] ∧ m.nextItem env loop item index i items p =
      (m, .outcome (.completed (some Label.loopExit)) p)) ∨
    (items ≠ [] ∧ m.token.cancelled = true ∧
      m.nextItem env loop item index i items p = (m, .outcome .cancelled p)) ∨
    ∃ v rest, items = v :: rest ∧ m.nextItem env loop item index i items p =
      (m.addLayer (itemLayer item index i v) loop.place.layers).1.call env loop.body
        (m.layers.size :: loop.place.layers) loop.node true (.foreach loop item index (i + 1) rest :: p) := by
  unfold nextItem
  split
  · exact .inl ⟨rfl, rfl⟩
  · split
    · exact .inr (.inl ⟨by simp, by assumption, rfl⟩)
    · exact .inr (.inr ⟨_, _, rfl, rfl⟩)

end Machine

/-- A run of a body for an item of a list: the item and its position are bound, in front of all else that is
bound where the loop is. -/
structure Round.Takes (body : Flow) (place : Place) (items : List Value) (item : String) (index : Option String)
    (i : Nat) (z : Round) : Prop where
  flow : z.flow = body
  item : ∃ v, items[i]? = some v ∧ z.scope.find? item = some v
  index : ∀ name, index = some name → z.scope.find? name = some (.nat i)
  behind : ∃ j, z.layers = j :: place.layers

namespace Rounds

variable {v w : Rounds} {body : Flow} {a : Attempt} {items rest : List Value} {item : String}
  {index : Option String} {i : Nat} {u p : List Pending} {c d : Control} {b : Answer}

/-- A body is run for the items of a list, one after the other. -/
structure IsExact (v : Rounds) (body : Flow) (place : Place) (items : List Value) (item : String)
    (index : Option String) : Prop extends v.IsSerial body (Round.Takes body place items item index) where
  /-- When it has completed for all items, the loop is left. -/
  exits : v.results = List.replicate items.length .onward → v.runs.length = items.length ∧
    v.ending = some (.outcome (.completed (some Label.loopExit)))
  /-- The attempt ends in this way, by a body run that does not complete, or because it is cancelled. -/
  ended : ∀ b, v.ending = some b → v.results = List.replicate items.length .onward ∨
    (b ∈ v.results ∧ b ≠ .onward) ∨ (b = .outcome .cancelled ∧ v.cancelled = true)

/-- Where the task is while the loop goes on. -/
def Draws (v : Rounds) (a : Attempt) (body : Flow) (items : List Value) (item : String) (index : Option String)
    (u : List Pending) (c : Control) (p : List Pending) : Prop :=
  ∃ i, i < items.length ∧ v.Runs body (Round.Takes body a.place items item index) i
    (.foreach ⟨a.place, a.node, body⟩ item index (i + 1) (items.drop (i + 1))) u c p

theorem Draws.aim (h : v.Draws a body items item index u c p) (hd : d.aim = c.aim) :
    v.Draws a body items item index u d p :=
  h.imp fun _ h => h.imp_right fun h => h.aim hd

section steps

variable (m : Machine) (env : Surroundings) (t : TaskId)

end steps

end Rounds

end Workflow
