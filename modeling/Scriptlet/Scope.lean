import Scriptlet.Pool

/-!
# Scopes

The names that are visible while a function is compiled, in nested blocks. A name's slot is the
number of names declared before it that are still active, so two visible names never share a slot.
-/

namespace Scriptlet

/-- What a block is. -/
inductive BlockKind where
  /-- The outermost block of a function or of the main program. -/
  | function
  | plain
  /-- The body of a loop. -/
  | loop
deriving DecidableEq, Inhabited, Repr

/-- A block with its names in the order of their declaration. -/
structure Block where
  kind : BlockKind
  names : List Symbol := []
deriving DecidableEq, Inhabited, Repr

/-- Why a name cannot be declared. -/
inductive DeclareError where
  /-- The innermost block declares the name already. -/
  | duplicate
  /-- There is no slot left, or no block at all. -/
  | exhausted
deriving DecidableEq, Inhabited, Repr

/-- The blocks of the function that is being compiled, innermost first. -/
structure Scope where
  blocks : List Block := []
deriving DecidableEq, Inhabited, Repr

namespace Scope

/-- The scope outside of all blocks. -/
def empty : Scope := {}

/-- The number of slots that a function can use. -/
def maxSlots : Nat := 256

/-- The scope at the start of a function: nothing is visible. -/
def function : Scope := ⟨[{ kind := .function }]⟩

/-- Opens a block. -/
def enter (s : Scope) (kind : BlockKind) : Scope := ⟨{ kind } :: s.blocks⟩

/-- Closes the innermost block, and tells how many slots it held. -/
def leave (s : Scope) : Nat × Scope :=
  match s.blocks with
  | [] => (0, s)
  | b :: bs => (b.names.length, ⟨bs⟩)

/-- The number of names in some blocks. -/
def countNames : List Block → Nat
  | [] => 0
  | b :: bs => b.names.length + countNames bs

/-- The number of slots in use. -/
def liveSlots (s : Scope) : Nat := countNames s.blocks

/-- Declares a name in the innermost block, and tells its slot. -/
def declare (s : Scope) (name : Symbol) : Except DeclareError (UInt8 × Scope) :=
  match s.blocks with
  | [] => .error .exhausted
  | b :: bs =>
    if b.names.contains name then .error .duplicate
    else if maxSlots ≤ s.liveSlots then .error .exhausted
    else .ok (UInt8.ofNat s.liveSlots, ⟨{ b with names := b.names ++ [name] } :: bs⟩)

/-- The slot of a name in some blocks, the innermost declaration winning. In one block a name stands
once, since `declare` refuses it a second time, so its first place is its last one. -/
def slotIn? (name : Symbol) : List Block → Option Nat
  | [] => none
  | b :: bs =>
    match b.names.idxOf? name with
    | some i => some (countNames bs + i)
    | none => slotIn? name bs

/-- The slot of a name, if it is visible. -/
def slot? (s : Scope) (name : Symbol) : Option UInt8 :=
  (slotIn? name s.blocks).map UInt8.ofNat

/-- The number of slots to release in order to leave the innermost loop body. -/
def loopSlotsIn? : List Block → Option Nat
  | [] => none
  | b :: bs =>
    match b.kind with
    | .loop => some b.names.length
    | .function => none
    | .plain => (loopSlotsIn? bs).map (b.names.length + ·)

/-- The slots that are declared inside the innermost loop of the function; none outside of loops. -/
def loopSlots? (s : Scope) : Option Nat := loopSlotsIn? s.blocks

end Scope

end Scriptlet
