/-!
Ordered maps: the entries of an object in the order in which their keys first came.
-/

namespace Workflow

/-- Keys with what they are bound to. Every operation here keeps the keys distinct. -/
abbrev Entries (α : Type) := List (String × α)

namespace Entries

variable {α β : Type}

def find? (key : String) : Entries α → Option α
  | [] => none
  | (k, a) :: rest => if k == key then some a else find? key rest

def contains (key : String) (es : Entries α) : Bool :=
  (find? key es).isSome

/-- Binds a key, in its old place if it was bound and last otherwise. -/
def insert (key : String) (a : α) : Entries α → Entries α
  | [] => [(key, a)]
  | (k, b) :: rest => if k == key then (k, a) :: rest else (k, b) :: insert key a rest

def erase (key : String) : Entries α → Entries α
  | [] => []
  | (k, b) :: rest => if k == key then rest else (k, b) :: erase key rest

def keys (es : Entries α) : List String :=
  es.map (·.1)

def values (es : Entries α) : List α :=
  es.map (·.2)

/-- Binds all of the second map's keys in the first one. -/
def update (es others : Entries α) : Entries α :=
  others.foldl (fun es e => insert e.1 e.2 es) es

def ofList (es : List (String × α)) : Entries α :=
  update [] es

def mapValues (f : α → β) (es : Entries α) : Entries β :=
  es.map fun e => (e.1, f e.2)

/-- Changes what a key is bound to, if it is bound. -/
def modify (key : String) (f : α → α) (es : Entries α) : Entries α :=
  es.map fun e => if e.1 == key then (e.1, f e.2) else e

@[simp] theorem find?_insert_self (key : String) (a : α) (es : Entries α) :
    find? key (insert key a es) = some a := by
  induction es with
  | nil => simp [insert, find?]
  | cons e rest ih =>
    rw [insert]
    split <;> rename_i h
    · simp [find?, h]
    · simp [find?, h, ih]

theorem find?_insert_of_ne {key other : String} (h : other ≠ key) (a : α) (es : Entries α) :
    find? other (insert key a es) = find? other es := by
  induction es with
  | nil => simp [insert, find?, Ne.symm h]
  | cons e rest ih =>
    rw [insert]
    split <;> rename_i hk
    · have : e.1 = key := by simpa using hk
      simp [find?, this, Ne.symm h]
    · simp [find?, ih]

end Entries

end Workflow
