import Scriptlet.Proofs.Reading.Exactness
import Scriptlet.Proofs.Reading.Trees
import Scriptlet.Proofs.Scanning.Positions

/-!
# Regions nest like the tree

`Program.regions_nest`: in a program that is read from the tokens of a source, the region of every
expression, statement, arm and binder has the position of the first token that it was read from and
holds the regions of its parts, which are apart and in the order of the source. The region of an
expression holds all tokens that it was read from, parentheses around it among them.
-/

namespace Scriptlet.Program

open Token Text in
/-- The tokens of a source are in its order. -/
theorem scan_successive {source : String} {tokens : Tokens} {pool : Pool}
    (h : scan source = .ok (tokens, pool)) :
    ∃ body last, tokens = body ++ [last] ∧ last.kind = .endOfFile ∧
      (∀ t ∈ body, t.kind ≠ .endOfFile) ∧ Successive body := by
  obtain ⟨body, last, rfl, hlast, -, hbody, hordered⟩ := scan_places h
  refine ⟨body, last, rfl, hlast, fun t ht => (hbody t ht).1, fun t ht => ?_, hordered⟩
  obtain ⟨-, before, text, behind, -, hne, -, hspan⟩ := hbody t ht
  have hpos : byteSize text ≠ 0 := fun h0 => hne (eq_nil_of_byteSize h0.symm)
  rw [hspan]
  exact Nat.lt_add_of_pos_right (Nat.pos_of_ne_zero hpos)

/-- The trees of a program: its statements and all their parts. -/
inductive Occurs (p : Program) : Tree → Prop
  | statement {s : Stmt} (h : s ∈ p.body) : Occurs p (.stmt s)
  | part {t t' : Tree} (h : Occurs p t) (hpart : t' ∈ t.parts) : Occurs p t'

/-- A tree is read from a stretch of tokens, and its region and those of its parts lie as the tree
does. -/
structure Nested (tokens : Tokens) (t : Tree) : Prop where
  starts : ∃ first more, first :: more <:+: tokens ∧ Written (first :: more) (.tree t) ∧
    t.span.start = first.span.start ∧ t.span.line = first.span.line ∧
    t.span.column = first.span.column ∧
    /- The region of an expression holds all its tokens, parentheses around it among them. -/
    ∀ e, t = .expr e → ∀ token ∈ first :: more,
      e.span.start ≤ token.span.start ∧ token.span.stop ≤ e.span.stop
  within : ∀ p ∈ t.parts, t.span.start ≤ p.span.start ∧ p.span.stop ≤ t.span.stop
  apart : t.parts.Pairwise fun a b => a.span.stop ≤ b.span.start

theorem Written.nested {ts tokens : Tokens} {t : Tree} (h : Written ts (.tree t))
    (hs : Successive ts) (hts : ts <:+: tokens) : Nested tokens t where
  starts := by
    obtain ⟨a, b, ha, -, hspan⟩ := h.span_eq hs
    obtain ⟨more, rfl⟩ := List.head?_eq_some_iff.1 ha
    refine ⟨a, more, hts, h, by rw [hspan], by rw [hspan], by rw [hspan], ?_⟩
    rintro e rfl token htoken
    have hfits : e.span = extent (a :: more) := (h.fits hs).2
    rw [hfits]
    exact hs.mem_extent htoken
  within p hp := h.within hs hp
  apart := h.consecutive.pairwise hs

/-- Everything in a program is read from a stretch of the tokens that the program is read from. -/
theorem Occurs.written {p : Program} {ts : Tokens} {t : Tree}
    (hp : Written ts (.sequence (p.body.map .stmt))) (h : Occurs p t) :
    ∃ us, us <:+: ts ∧ Written us (.tree t) := by
  induction h with
  | statement h => exact hp.consecutive.written_of_mem (List.mem_map_of_mem h)
  | part _ hpart ih =>
    obtain ⟨us, hus, hwritten⟩ := ih
    obtain ⟨vs, hvs, hwritten⟩ := hwritten.consecutive.written_of_mem hpart
    exact ⟨vs, hvs.trans hus, hwritten⟩

/-- A program is written in all tokens but the end of the file. -/
theorem read_written {body : Tokens} {last : Token Symbol} {pool : Pool} {p : Program}
    (hlast : last.kind = .endOfFile) (hbody : ∀ t ∈ body, t.kind ≠ .endOfFile)
    (h : read (body ++ [last]) pool = .ok p) : Written body (.sequence (p.body.map .stmt)) := by
  obtain ⟨c', h⟩ := read_eq_ok.1 h
  obtain ⟨ts, hp, hend, hwritten⟩ := topLevels_written _ h
  have hrest : body ++ [last] = ts ++ c'.rest := hp.rest
  -- The end of the file is not passed, and the reader goes on up to it.
  rcases List.append_eq_append_iff.1 hrest with ⟨r, rfl, hr⟩ | ⟨r, rfl, hr⟩
  · cases r with
    | nil => rwa [List.append_nil] at hwritten
    | cons t r =>
      obtain ⟨rfl, -⟩ := List.cons.inj hr
      exact absurd hlast (hp.filled last (by simp))
  · cases r with
    | nil => rwa [List.append_nil]
    | cons t r =>
      have ht : c'.current = t := by rw [Cursor.current, hr]; rfl
      exact absurd (ht ▸ hend) (hbody t (by simp))

/-- In a program that is read from a source, regions nest like the tree. -/
theorem regions_nest {source : String} {tokens : Tokens} {pool : Pool} {p : Program}
    (hscan : Token.scan source = .ok (tokens, pool)) (hread : read tokens pool = .ok p) :
    (∀ t, Occurs p t → Nested tokens t) ∧
      (∃ body last, tokens = body ++ [last] ∧ Written body (.sequence (p.body.map .stmt))) ∧
      p.body.Pairwise fun a b => a.span.stop ≤ b.span.start := by
  obtain ⟨body, last, rfl, hlast, hbody, hs⟩ := scan_successive hscan
  have hwritten := read_written hlast hbody hread
  refine ⟨fun t ht => ?_, ⟨body, last, rfl, hwritten⟩, ?_⟩
  · obtain ⟨us, hus, hu⟩ := ht.written hwritten
    exact hu.nested (hs.stretch hus) (hus.trans (List.prefix_append body [last]).isInfix)
  · exact List.pairwise_map.1 (hwritten.consecutive.pairwise hs)

/-- The tokens of a loop over three lines, with a condition in parentheses and a sign in front of a
chain. -/
def looping : Tokens :=
  [⟨kw .while_, ⟨0, 5, 1, 1⟩⟩, ⟨sep .leftParen, ⟨6, 7, 1, 7⟩⟩, ⟨.name 0, ⟨7, 8, 1, 8⟩⟩,
    ⟨sep .rightParen, ⟨8, 9, 1, 9⟩⟩, ⟨sep .leftBrace, ⟨10, 11, 1, 11⟩⟩,
    ⟨.operator .minus, ⟨14, 15, 2, 3⟩⟩, ⟨.name 1, ⟨15, 16, 2, 4⟩⟩, ⟨sep .dot, ⟨16, 17, 2, 5⟩⟩,
    ⟨.name 2, ⟨17, 18, 2, 6⟩⟩, ⟨sep .leftParen, ⟨18, 19, 2, 7⟩⟩,
    ⟨.literal (.int 2), ⟨19, 20, 2, 8⟩⟩, ⟨sep .rightParen, ⟨20, 21, 2, 9⟩⟩,
    ⟨sep .semicolon, ⟨21, 22, 2, 10⟩⟩, ⟨sep .rightBrace, ⟨23, 24, 3, 1⟩⟩,
    ⟨.endOfFile, ⟨24, 24, 3, 2⟩⟩]

theorem regions_nest_looping :
    Token.scan "while (a) \x7b\n  -x.y(2);\n\x7d" = .ok (looping, ⟨#["a", "x", "y"]⟩) ∧
    ∃ p, read looping ⟨#["a", "x", "y"]⟩ = .ok p ∧ (∀ t, Occurs p t → Nested looping t) ∧
      (∃ body last, looping = body ++ [last] ∧ Written body (.sequence (p.body.map .stmt))) ∧
      p.body.Pairwise fun a b => a.span.stop ≤ b.span.start := by
  have hscan : Token.scan "while (a) \x7b\n  -x.y(2);\n\x7d" =
      .ok (looping, ⟨#["a", "x", "y"]⟩) := by
    decide +kernel
  have hread : read looping ⟨#["a", "x", "y"]⟩ = .ok ⟨[.loop (.name 0 ⟨6, 9, 1, 7⟩)
      [.expression (.unary .negate (.methodCall (.name 1 ⟨15, 16, 2, 4⟩) 2
        [.literal (.int 2) ⟨19, 20, 2, 8⟩] ⟨15, 21, 2, 4⟩) ⟨14, 21, 2, 3⟩) ⟨14, 22, 2, 3⟩]
      ⟨0, 24, 1, 1⟩]⟩ := rfl
  exact ⟨hscan, _, hread, regions_nest hscan hread⟩

end Scriptlet.Program
