/-!
# Interned text

A `Pool` keeps the distinct names and string literals of a program in the order of their first
occurrence. A `Symbol` is the index of an entry, and stays valid for the life of the pool.

Main statements: `Pool.get?_intern` (the returned symbol stands for the text) and
`Pool.get?_intern_of_get?` (interning never disturbs earlier symbols).
-/

namespace Scriptlet

/-- The index of an entry of a `Pool`. Instructions carry symbols as four-byte operands. -/
abbrev Symbol := UInt32

/-- Distinct texts in the order of their first occurrence. -/
structure Pool where
  entries : Array String := #[]
deriving DecidableEq, Inhabited, Repr

namespace Pool

/-- The pool without entries. -/
def empty : Pool := {}

/-- The number of entries. -/
def size (p : Pool) : Nat := p.entries.size

/-- The symbol of a text that is already present. -/
def find? (p : Pool) (text : String) : Option Symbol :=
  (p.entries.finIdxOf? text).map fun i : Fin p.entries.size => UInt32.ofNat i.val

/-- The symbol of a text, together with the pool that holds it: a new text takes the next index. -/
def intern (p : Pool) (text : String) : Symbol × Pool :=
  match p.find? text with
  | some s => (s, p)
  | none => (UInt32.ofNat p.entries.size, { entries := p.entries.push text })

/-- The text of a symbol. -/
def get? (p : Pool) (s : Symbol) : Option String :=
  p.entries[s.toNat]?

/-- The text of a symbol, with a placeholder for symbols that stand for nothing. -/
def name (p : Pool) (s : Symbol) : String :=
  (p.get? s).getD "<unknown>"

/-- The pool that interning the listed texts in order leaves behind. -/
def ofList (texts : List String) : Pool :=
  texts.foldl (fun p t => (p.intern t).2) empty

/-- The entries in index order. -/
def toList (p : Pool) : List String := p.entries.toList

/-- The symbol that `intern` returns stands for the text, while indices fit in a symbol. -/
theorem get?_intern (p : Pool) (text : String) (h : p.size < UInt32.size) :
    (p.intern text).2.get? (p.intern text).1 = some text := by
  unfold size at h
  unfold intern
  split
  next s hs =>
    obtain ⟨i, hi, rfl⟩ := Option.map_eq_some_iff.1 hs
    have hget := (Array.finIdxOf?_eq_some_iff.1 hi).1
    have : i.val % 2 ^ 32 = i.val := Nat.mod_eq_of_lt (Nat.lt_trans i.isLt h)
    simp only [get?, UInt32.toNat_ofNat', this]
    rw [Array.getElem?_eq_getElem i.isLt]
    exact congrArg some hget
  next =>
    have : p.entries.size % 2 ^ 32 = p.entries.size := Nat.mod_eq_of_lt h
    rw [get?, UInt32.toNat_ofNat', this, Array.getElem?_push_size]

/-- Interning leaves every symbol that stood for something with the text it had. -/
theorem get?_intern_of_get? {p : Pool} {s : Symbol} {old : String} (text : String)
    (h : p.get? s = some old) : (p.intern text).2.get? s = some old := by
  unfold intern
  split
  · exact h
  · have hlt : s.toNat < p.entries.size := (Array.getElem?_eq_some_iff.1 h).1
    simp only [get?] at h ⊢
    rw [Array.getElem?_push_lt hlt, ← Array.getElem?_eq_getElem hlt, h]

end Pool

end Scriptlet
