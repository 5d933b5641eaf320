/-!
# Regions of source text

A `Span` says where a token, a tree node or a diagnostic stands: two byte offsets into the whole
source, and the line and column of the first of them.

Main statements: `Span.len_pos` (a marker is always visible), `Span.merge_self` and
`Span.merge_assoc` (joining regions keeps the position of the first one).
-/

namespace Scriptlet

/-- A region of source text. `start` and `stop` are byte offsets into the whole source; `line` and
`column` count from one, the column in bytes, and describe `start`. -/
structure Span where
  start : Nat := 0
  stop : Nat := 0
  line : Nat := 0
  column : Nat := 0
deriving DecidableEq, Inhabited, Repr

namespace Span

/-- The region that covers both arguments, positioned at the first. -/
def merge (a b : Span) : Span :=
  { start := min a.start b.start, stop := max a.stop b.stop, line := a.line, column := a.column }

/-- Width in bytes, never less than one, so that a marker is always visible. -/
def len (s : Span) : Nat :=
  max (s.stop - s.start) 1

/-- The position as diagnostics write it: `line:column`. -/
def text (s : Span) : String :=
  toString s.line ++ ":" ++ toString s.column

theorem len_pos (s : Span) : 0 < s.len := by
  unfold len; omega

theorem merge_self (s : Span) : s.merge s = s := by
  simp [merge]

theorem merge_assoc (a b c : Span) : (a.merge b).merge c = a.merge (b.merge c) := by
  simp only [merge, Span.mk.injEq, and_self, and_true]
  omega

end Span

end Scriptlet
