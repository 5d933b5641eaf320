import Scriptlet.Heap

/-!
# Sweeping the heap

`Heap.sweep` frees the objects that nothing holds, except those that the caller pins. Freeing an
object releases its children, and a child that falls to zero is freed in the same pass. Objects on
a cycle hold each other and stay.

Each round frees one object, so a heap of `n` slots is swept in at most `n` rounds.
-/

namespace Scriptlet.Heap

/-- An object that a sweep has freed. -/
structure Freed where
  object : Object
  index : UInt32
deriving DecidableEq, Inhabited, Repr

/-- The handle of the object in a slot, if there is one and nothing holds it. -/
def unheld? (slot : Slot) (index : Nat) : Option Handle :=
  match slot.cell with
  | some ⟨0, _⟩ => some ⟨UInt32.ofNat index, slot.generation⟩
  | _ => none

/-- The objects that nothing holds and that are not pinned, in the order of their slots. -/
def unheld (h : Heap) (pinned : Handle → Bool) : List Handle :=
  (h.slots.toList.zipIdx.filterMap fun s => unheld? s.1 s.2).filter fun x => !pinned x

/-- The first of some handles whose object can be freed, with its object and the handles behind
it. -/
def nextUnheld (h : Heap) : List Handle → Option (Handle × Object × List Handle)
  | [] => none
  | x :: rest =>
    match h.find? x with
    | some ⟨0, o⟩ => some (x, o, rest)
    | _ => nextUnheld h rest

/-- Frees the object in a slot, and ends its generation. -/
def clear (h : Heap) (index : UInt32) : Heap :=
  { h with
    slots := h.slots.modify index.toNat fun slot => ⟨slot.generation + 1, none⟩
    free := index :: h.free
    live := h.live - 1 }

/-- Releases the children of a freed object. A child that falls to zero and is not pinned is put in
front of the handles that wait. -/
def releaseChildren (pinned : Handle → Bool) :
    List Handle → List Handle → Heap → List Handle × Heap
  | [], waiting, h => (waiting, h)
  | x :: xs, waiting, h =>
    match h.find? x with
    | none => releaseChildren pinned xs waiting h
    | some c =>
      let changed := h.modifyCell x fun c => { c with count := c.count - 1 }
      let counted :=
        { changed with stats := { changed.stats with releases := changed.stats.releases + 1 } }
      let waiting := if c.count ≤ 1 && !pinned x then x :: waiting else waiting
      releaseChildren pinned xs waiting counted

/-- Frees objects that wait, one in each round, until there is none left. -/
def sweepRounds (pinned : Handle → Bool) : Nat → List Handle → Heap → List Freed × Heap
  | 0, _, h => ([], h)
  | n + 1, waiting, h =>
    match h.nextUnheld waiting with
    | none => ([], h)
    | some (x, o, rest) =>
      let (waiting, h) := releaseChildren pinned o.children rest (h.clear x.index)
      let (freed, h) := sweepRounds pinned n waiting h
      (⟨o, x.index⟩ :: freed, h)

/-- Frees every object that nothing holds and that is not pinned, and answers what was freed. -/
def sweep (h : Heap) (pinned : Handle → Bool) : List Freed × Heap :=
  let (freed, h) := sweepRounds pinned h.slots.size (h.unheld pinned) h
  (freed, { h with
    sinceSweep := 0
    stats := { h.stats with swept := h.stats.swept + freed.length } })

end Scriptlet.Heap
