import Scriptlet.Instruction.Codec
import Scriptlet.Span

/-!
# Relocatable code

A `Fragment` is code whose place in the program is not known yet: bytes, the jump operands that
still wait for their addresses, and source positions. Offsets count from the fragment's first byte.
`Fragment.append` puts one fragment behind another, and `Fragment.place` writes the addresses once
the place is known.

Main statements: `Fragment.size_append`, `Fragment.size_emit` and `Fragment.size_emitJump`.
-/

namespace Scriptlet

/-- Where a jump should land. -/
inductive JumpTarget where
  /-- An offset in the fragment that holds the jump. -/
  | offset (n : Nat)
  /-- Just past the innermost loop around the jump. -/
  | loopExit
  /-- The condition of the innermost loop around the jump. -/
  | loopStart
deriving DecidableEq, Inhabited, Repr

namespace JumpTarget

/-- The same target after `base` bytes were put in front of the fragment. -/
def shift (base : Nat) : JumpTarget → JumpTarget
  | offset n => offset (n + base)
  | t => t

/-- The text by which diagnostics call a target. -/
def text : JumpTarget → String
  | offset n => "Offset(" ++ toString n ++ ")"
  | loopExit => "Break"
  | loopStart => "Continue"

end JumpTarget

/-- A jump operand that waits for its address: where its four bytes start, and its target. -/
structure Relocation where
  site : Nat
  target : JumpTarget
deriving DecidableEq, Inhabited, Repr

/-- The two sorts of jump. -/
inductive JumpKind where
  | always
  | ifFalse
deriving DecidableEq, Inhabited, Repr

/-- The operation code of a jump. -/
def JumpKind.opcode : JumpKind → Opcode
  | always => .jump
  | ifFalse => .jumpIfFalse

/-- Code whose place is not known yet. -/
structure Fragment where
  code : Array UInt8 := #[]
  relocations : Array Relocation := #[]
  positions : Array (Nat × Span) := #[]
deriving DecidableEq, Inhabited, Repr

/-- Code at a known place. -/
structure PlacedCode where
  code : Array UInt8
  positions : Array (Nat × Span)
deriving DecidableEq, Inhabited, Repr

namespace Fragment

/-- No code. -/
def empty : Fragment := {}

/-- The number of bytes. -/
def size (f : Fragment) : Nat := f.code.size

/-- Goes on with an instruction. -/
def emit (f : Fragment) (i : Instruction) : Fragment :=
  { f with code := f.code ++ i.encode.toArray }

/-- Says that what follows comes from a source region. Of two regions for one offset the later
counts. -/
def mark (f : Fragment) (span : Span) : Fragment :=
  match f.positions.back? with
  | some (last, _) =>
    if last = f.size then { f with positions := f.positions.pop.push (f.size, span) }
    else { f with positions := f.positions.push (f.size, span) }
  | none => { f with positions := f.positions.push (f.size, span) }

/-- Goes on with an instruction that comes from a source region. -/
def emitAt (f : Fragment) (i : Instruction) (span : Span) : Fragment :=
  (f.mark span).emit i

/-- Goes on with a jump whose address is filled in later. -/
def emitJump (f : Fragment) (kind : JumpKind) (target : JumpTarget) : Fragment :=
  { f with
    code := f.code ++ #[kind.opcode.toByte, 0, 0, 0, 0]
    relocations := f.relocations.push ⟨f.size + 1, target⟩ }

/-- Puts one fragment behind another. -/
def append (f g : Fragment) : Fragment :=
  { code := f.code ++ g.code
    relocations :=
      f.relocations ++ g.relocations.map fun r => ⟨r.site + f.size, r.target.shift f.size⟩
    positions := f.positions ++ g.positions.map fun p => (p.1 + f.size, p.2) }

instance : Append Fragment := ⟨append⟩

/-- Points the jumps that leave or repeat the innermost loop at offsets. -/
def bindLoop (f : Fragment) (start exit : Nat) : Fragment :=
  { f with
    relocations := f.relocations.map fun r =>
      match r.target with
      | .offset _ => r
      | .loopExit => { r with target := .offset exit }
      | .loopStart => { r with target := .offset start } }

/-- Overwrites bytes from an offset on. -/
def overwrite (code : Array UInt8) (offset : Nat) : List UInt8 → Array UInt8
  | [] => code
  | b :: bs => overwrite (code.setIfInBounds offset b) (offset + 1) bs

/-- Writes the addresses of jumps into code that starts at `base`; fails on the first jump of a loop
that was never bound. -/
def patch (base : Nat) (code : Array UInt8) : List Relocation → Except Relocation (Array UInt8)
  | [] => .ok code
  | r :: rs =>
    match r.target with
    | .offset n => patch base (overwrite code r.site (wordBytes (UInt32.ofNat (base + n)))) rs
    | _ => .error r

/-- The code of a fragment that starts at `base`. -/
def place (f : Fragment) (base : Nat) : Except Relocation PlacedCode :=
  match patch base f.code f.relocations.toList with
  | .ok code => .ok { code, positions := f.positions.map fun p => (p.1 + base, p.2) }
  | .error r => .error r

/-! ## Guarded code -/

/-- The bytes of a jump. -/
def jumpWidth : Nat := 5

/-- A condition and the code that it guards. -/
structure Guarded where
  condition : Fragment
  body : Fragment
deriving DecidableEq, Inhabited, Repr

/-- The size of guarded code with its conditional jump, and with a jump behind it if wanted. -/
def Guarded.size (g : Guarded) (trailingJump : Bool) : Nat :=
  g.condition.size + jumpWidth + g.body.size + (if trailingJump then jumpWidth else 0)

/-! ## Sizes -/

theorem size_append (f g : Fragment) : (f ++ g).size = f.size + g.size :=
  Array.size_append

theorem size_emit (f : Fragment) (i : Instruction) : (f.emit i).size = f.size + i.width := by
  simp [emit, size, Instruction.length_encode]

theorem size_emitJump (f : Fragment) (kind : JumpKind) (target : JumpTarget) :
    (f.emitJump kind target).size = f.size + jumpWidth := by
  simp [emitJump, size, jumpWidth]

end Fragment

end Scriptlet
