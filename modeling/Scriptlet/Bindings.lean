/-!
# Bindings

Values by name, in the order in which the names were first bound. Binding a name again changes its
value and keeps its place.

Main statements: `Bindings.find?_insert_self` and `Bindings.find?_insert_of_ne`.
-/

namespace Scriptlet

/-- Values by name. -/
structure Bindings (α : Type) where
  entries : List (String × α) := []
deriving DecidableEq, Inhabited, Repr

namespace Bindings

variable {α : Type}

/-- No name is bound. -/
def empty : Bindings α := {}

/-- The number of names. -/
def size (b : Bindings α) : Nat := b.entries.length

/-- The value of a name. -/
def find? (b : Bindings α) (name : String) : Option α := b.entries.lookup name

/-- Binds a name in a list of entries. -/
def insertEntry (name : String) (a : α) : List (String × α) → List (String × α)
  | [] => [(name, a)]
  | (other, old) :: rest =>
    if name == other then (other, a) :: rest else (other, old) :: insertEntry name a rest

/-- Binds a name. -/
def insert (b : Bindings α) (name : String) (a : α) : Bindings α :=
  ⟨insertEntry name a b.entries⟩

/-- The place of a name. -/
def index? (b : Bindings α) (name : String) : Option Nat :=
  b.entries.findIdx? fun e => e.1 = name

/-- The name and the value at a place. -/
def get? (b : Bindings α) (i : Nat) : Option (String × α) := b.entries[i]?

theorem lookup_insertEntry_self (name : String) (a : α) (entries : List (String × α)) :
    (insertEntry name a entries).lookup name = some a := by
  induction entries with
  | nil => simp [insertEntry]
  | cons e rest ih =>
    rw [insertEntry]
    split
    next h => rw [eq_of_beq h, List.lookup_cons_self]
    next h => rw [List.lookup_cons, eq_false_of_ne_true h, ih]

theorem lookup_insertEntry_of_ne {name other : String} (a : α) (h : other ≠ name)
    (entries : List (String × α)) :
    (insertEntry name a entries).lookup other = entries.lookup other := by
  have hne : (other == name) = false := by simpa using h
  induction entries with
  | nil => rw [insertEntry, List.lookup_cons, hne]
  | cons e rest ih =>
    rw [insertEntry]
    split
    next hk =>
      rw [List.lookup_cons, List.lookup_cons, ← eq_of_beq hk, hne]
    next => rw [List.lookup_cons, List.lookup_cons, ih]

theorem find?_insert_self (b : Bindings α) (name : String) (a : α) :
    (b.insert name a).find? name = some a :=
  lookup_insertEntry_self name a b.entries

theorem find?_insert_of_ne (b : Bindings α) {name other : String} (a : α) (h : other ≠ name) :
    (b.insert name a).find? other = b.find? other :=
  lookup_insertEntry_of_ne a h b.entries

end Bindings

end Scriptlet
