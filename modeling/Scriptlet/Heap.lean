import Scriptlet.Fault
import Scriptlet.Value

/-!
# The heap

Objects live in slots and carry a count of the places that hold them: variables, globals, elements,
fields, constants and bound receivers, but not operands. A `Handle` names a slot and the generation
of its object; freeing an object ends its generation, so a handle to a freed object is found out
instead of naming the next object in the slot.

A count that falls to zero frees nothing by itself; `Heap.sweep` does that later. Operations that
can fail leave behind what they have done so far (`Heap.Action`).

Main statements: `Heap.find?_allocate` (a new handle refers to the new object, with count zero).
-/

namespace Scriptlet

/-- What a function reference calls. -/
inductive Callee where
  /-- A function of the program, by its number. -/
  | declared (id : UInt32)
  | native (f : Native)
deriving DecidableEq, Inhabited, Repr

/-- An object of the heap. -/
inductive Object where
  | string (text : String)
  | array (items : Array Value)
  | record (type : UInt32) (fields : Array Value)
  /-- An instance of a native structure, by its number in the registry. -/
  | nativeRecord (kind : Nat) (storage : Array Value)
  /-- A reference to a function; a receiver is passed to it as first argument. -/
  | function (callee : Callee) (receiver : Option Handle)
deriving DecidableEq, Inhabited, Repr

namespace Object

/-- The name of an object's kind. -/
def typeName : Object → String
  | string _ => "string"
  | array _ => "array"
  | record .. => "structure"
  | nativeRecord .. => "native structure"
  | function .. => "function"

/-- The values that an object holds in numbered places. -/
def elements? : Object → Option (Array Value)
  | array items => some items
  | record _ fields => some fields
  | nativeRecord _ storage => some storage
  | string _ | function .. => none

/-- Changes the values that an object holds in numbered places. -/
def mapElements (f : Array Value → Array Value) : Object → Object
  | array items => array (f items)
  | record type fields => record type (f fields)
  | nativeRecord kind storage => nativeRecord kind (f storage)
  | o => o

/-- The handles that an object counts on, one per occurrence. -/
def children : Object → List Handle
  | string _ => []
  | array vs | record _ vs | nativeRecord _ vs => vs.toList.filterMap Value.handle?
  | function _ receiver => receiver.toList

end Object

/-- An object with the number of places that hold it. -/
structure Cell where
  count : Nat
  object : Object
deriving DecidableEq, Inhabited, Repr

/-- A slot of the heap. Its generation counts the objects that were freed from it. -/
structure Slot where
  generation : UInt32 := 0
  cell : Option Cell
deriving DecidableEq, Inhabited, Repr

/-- Traffic counters of a heap. -/
structure HeapStats where
  allocations : Nat := 0
  retains : Nat := 0
  releases : Nat := 0
  swept : Nat := 0
deriving DecidableEq, Inhabited, Repr

/-- The heap: its slots, the indices of those without an object, the number of objects, and the
number of allocations since the last sweep. -/
structure Heap where
  slots : Array Slot := #[]
  free : List UInt32 := []
  live : Nat := 0
  sinceSweep : Nat := 0
  stats : HeapStats := {}
deriving DecidableEq, Inhabited, Repr

namespace Heap

/-- An operation on a heap that may fault; what it has changed until then stays. -/
abbrev Action := EStateM Fault Heap

/-- The heap without objects. -/
def empty : Heap := {}

/-! ## Looking up -/

/-- The object of a handle with its count, unless the handle is stale. -/
def find? (h : Heap) (x : Handle) : Option Cell :=
  match h.slots[x.index.toNat]? with
  | some slot => if slot.generation = x.generation then slot.cell else none
  | none => none

/-- The handle refers to an object. -/
def contains (h : Heap) (x : Handle) : Bool := (h.find? x).isSome

/-- The object of a handle. -/
def object? (h : Heap) (x : Handle) : Option Object := (h.find? x).map Cell.object

/-- The count of the object of a handle. -/
def count? (h : Heap) (x : Handle) : Option Nat := (h.find? x).map Cell.count

/-- The text of a value that is a string. -/
def string? (h : Heap) (v : Value) : Option String :=
  match v.handle?.bind h.object? with
  | some (.string text) => some text
  | _ => none

/-- The name of a value's kind, with a look at what a handle refers to. -/
def kindName (h : Heap) (v : Value) : String :=
  match v with
  | .object x => (h.object? x).elim "collected object" Object.typeName
  | v => v.typeName

/-! ## Changing -/

/-- Changes the object of a handle. -/
def modifyCell (h : Heap) (x : Handle) (f : Cell → Cell) : Heap :=
  { h with
    slots := h.slots.modify x.index.toNat fun slot => { slot with cell := slot.cell.map f } }

/-- Stores an object with a count of zero. A slot that was freed is used again first. -/
def allocate (h : Heap) (o : Object) : Handle × Heap :=
  let live := h.live + 1
  let sinceSweep := h.sinceSweep + 1
  let stats := { h.stats with allocations := h.stats.allocations + 1 }
  match h.free with
  | index :: free =>
    let generation := (h.slots[index.toNat]?).elim 0 Slot.generation
    let slots := h.slots.modify index.toNat fun slot => { slot with cell := some ⟨0, o⟩ }
    (⟨index, generation⟩, { slots, free, live, sinceSweep, stats })
  | [] =>
    let index := UInt32.ofNat h.slots.size
    let slots := h.slots.push { cell := some ⟨0, o⟩ }
    (⟨index, 0⟩, { slots, free := [], live, sinceSweep, stats })

/-- The object of a handle; a stale handle is a fault. -/
def get (x : Handle) : Action Object := fun h =>
  match h.object? x with
  | some o => .ok o h
  | none => .error .staleHandle h

/-- Counts one more place that holds a value. -/
def retain (v : Value) : Action Unit := fun h =>
  match v with
  | .object x =>
    if h.contains x then
      let h := h.modifyCell x fun c => { c with count := c.count + 1 }
      .ok () { h with stats := { h.stats with retains := h.stats.retains + 1 } }
    else .error .staleHandle h
  | _ => .ok () h

/-- Counts one place less that holds a value; a count of zero stays zero. -/
def release (v : Value) : Action Unit := fun h =>
  match v with
  | .object x =>
    if h.contains x then
      let h := h.modifyCell x fun c => { c with count := c.count - 1 }
      .ok () { h with stats := { h.stats with releases := h.stats.releases + 1 } }
    else .error .staleHandle h
  | _ => .ok () h

/-- Counts one more place for each of several values, up to the first fault. -/
def retainAll : List Value → Action Unit
  | [] => pure ()
  | v :: vs => do
    retain v
    retainAll vs

/-- Counts one place less for each of several values, up to the first fault. -/
def releaseAll : List Value → Action Unit
  | [] => pure ()
  | v :: vs => do
    release v
    releaseAll vs

/-- Allocates in an action. -/
def allocateM (o : Object) : Action Handle := fun h =>
  let (x, h) := h.allocate o
  .ok x h

/-- What overwriting a place leaves behind: the place, the heap, and whether it went through. -/
structure Replaced where
  outcome : Except Fault Unit
  place : Value
  heap : Heap

/-- Overwrites a place outside of the heap, and moves one count from the old value to the new. The
new value is counted first; if the old one then cannot be released, the place has already
changed. -/
def replace (h : Heap) (place new : Value) : Replaced :=
  match retain new h with
  | .error e h => ⟨.error e, place, h⟩
  | .ok _ h =>
    match release place h with
    | .error e h => ⟨.error e, new, h⟩
    | .ok _ h => ⟨.ok (), new, h⟩

/-- Overwrites an element of an array, a structure or a native structure, and moves one count from
the old value to the new. The element changes before the counts do. -/
def setElement (x : Handle) (index : Nat) (v : Value) : Action Unit := fun h =>
  match h.object? x with
  | none => .error .staleHandle h
  | some o =>
    match o.elements? with
    | none => .error (.typeMismatch "[]=" o.typeName v.typeName) h
    | some vs =>
      match vs[index]? with
      | none => .error (.indexOutOfBounds index vs.size) h
      | some old =>
        let changed := h.modifyCell x fun c =>
          { c with object := c.object.mapElements fun vs => vs.setIfInBounds index v }
        (do retain v; release old : Action Unit) changed

/-- Puts another object in the place of a handle's object, and answers the old one. Counts stay as
they are. -/
def exchange (x : Handle) (o : Object) : Action Object := fun h =>
  match h.object? x with
  | none => .error .staleHandle h
  | some old => .ok old (h.modifyCell x fun c => { c with object := o })

/-! ## Lemmas -/

/-- A new handle refers to the new object, which nothing holds yet. -/
theorem find?_allocate (h : Heap) (o : Object) (hsize : h.slots.size < UInt32.size)
    (hfree : ∀ i ∈ h.free, i.toNat < h.slots.size) :
    (h.allocate o).2.find? (h.allocate o).1 = some ⟨0, o⟩ := by
  unfold allocate
  split
  next index free hf =>
    have hi : index.toNat < h.slots.size := hfree index (by simp [hf])
    simp [find?, Array.getElem_modify, hi]
  next =>
    have : h.slots.size % 2 ^ 32 = h.slots.size := Nat.mod_eq_of_lt hsize
    rw [find?]
    simp only [UInt32.toNat_ofNat', this, Array.getElem?_push_size, if_true]

end Heap

end Scriptlet
