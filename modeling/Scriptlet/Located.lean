import Scriptlet.Span

/-!
# Causes with a place

Everything that is refused before a program runs is refused for a cause at a place. Causes are
inductive types of their own (`Token.Cause`, `Program.Cause`, `Compile.Cause`); `Located` adds the
place, and its message ends by naming it.
-/

namespace Scriptlet

/-- A cause of refusal at a place of the source. -/
structure Located (ε : Type) where
  cause : ε
  span : Span
deriving DecidableEq, Inhabited, Repr

/-- The message of a cause, followed by its place. -/
def Located.message {ε : Type} (describe : ε → String) (e : Located ε) : String :=
  describe e.cause ++ " at " ++ e.span.text

end Scriptlet
