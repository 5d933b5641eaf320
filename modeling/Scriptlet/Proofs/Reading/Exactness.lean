import Scriptlet.Proofs.Reading.Completeness

/-!
# The reader accepts the grammar

`Program.read_iff_spells`: tokens up to the end of the file are read to a program exactly if they
spell it, and they spell one program at most. What is read is spelled (`topLevels_sound`) and what
is spelled is read within the steps that are granted (`topLevels_gives`). Reading is a function, so
two programs that the same tokens spell are one.
-/

namespace Scriptlet.Program

open Grammar

variable {tokens : List (Token Symbol)} {last : Token Symbol} {pool : Pool}

/-- The cursor in front of all tokens. -/
theorem start_at (hlast : last.kind = .endOfFile) (htokens : ∀ t ∈ tokens, t.kind ≠ .endOfFile) :
    Cursor.At pool [] (tokens.map Token.kind)
      { pool, rest := tokens ++ [last], last := {}, types := [] } where
  pool := rfl
  types := rfl
  kinds := by rw [List.map_append, List.map_singleton, hlast]
  ended hmem := by
    obtain ⟨t, ht, hkind⟩ := List.mem_map.1 hmem
    exact htokens t ht hkind

theorem read_eq_ok {p : Program} : read tokens pool = .ok p ↔
    ∃ c', topLevels (steps tokens) { pool, rest := tokens, last := {}, types := [] } =
      .ok (p.body, c') := by
  unfold read
  dsimp only [StateT.run]
  cases h : topLevels (steps tokens) { pool, rest := tokens, last := {}, types := [] } with
  | error e => exact ⟨nofun, nofun⟩
  | ok r =>
    constructor
    · intro hp
      cases hp
      exact ⟨r.2, rfl⟩
    · rintro ⟨c', hr⟩
      cases hr
      rfl

theorem spells_of_read {p : Program} (hlast : last.kind = .endOfFile)
    (htokens : ∀ t ∈ tokens, t.kind ≠ .endOfFile) (h : read (tokens ++ [last]) pool = .ok p) :
    Spells pool (tokens.map Token.kind) p.bare := by
  obtain ⟨c', h⟩ := read_eq_ok.1 h
  exact topLevels_sound _ (start_at hlast htokens) h

theorem read_of_spells {p : Program} (hlast : last.kind = .endOfFile)
    (htokens : ∀ t ∈ tokens, t.kind ≠ .endOfFile) (h : Spells pool (tokens.map Token.kind) p) :
    ∃ q, read (tokens ++ [last]) pool = .ok q ∧ q.bare = p := by
  obtain ⟨_, body, c', hread, -, hbody⟩ := topLevels_gives h (steps (tokens ++ [last]))
    (start_at hlast htokens) (by simp only [steps, List.length_append, List.length_map]; omega)
  exact ⟨⟨body⟩, read_eq_ok.2 ⟨c', hread⟩, congrArg Program.mk hbody⟩

/-- Tokens up to the end of the file are read to a program exactly if they spell it, regions of
source text apart. They spell at most one. -/
theorem read_iff_spells (tokens : List (Token Symbol)) (last : Token Symbol) (pool : Pool)
    (hlast : last.kind = .endOfFile) (htokens : ∀ t ∈ tokens, t.kind ≠ .endOfFile) :
    (∀ p, (∃ q, read (tokens ++ [last]) pool = .ok q ∧ q.bare = p) ↔
      Spells pool (tokens.map Token.kind) p) ∧
    ∀ p p', Spells pool (tokens.map Token.kind) p → Spells pool (tokens.map Token.kind) p' →
      p = p' := by
  refine ⟨fun p => ⟨?_, read_of_spells hlast htokens⟩, fun p p' hp hp' => ?_⟩
  · rintro ⟨q, hread, rfl⟩
    exact spells_of_read hlast htokens hread
  · obtain ⟨q, hread, rfl⟩ := read_of_spells hlast htokens hp
    obtain ⟨q', hread', rfl⟩ := read_of_spells hlast htokens hp'
    cases hread.symm.trans hread'
    rfl

/-- `type P { x; }  P(1).m(a < a || !a);` with the names `P`, `x`, `a` and `m` as symbols. -/
def constructing : List (Token Symbol) :=
  [kw .type, .name 0, sep .leftBrace, .name 1, sep .semicolon, sep .rightBrace, .name 0,
    sep .leftParen, .literal (.int 1), sep .rightParen, sep .dot, .name 3, sep .leftParen, .name 2,
    .operator .less, .name 2, .operator .orOr, .operator .bang, .name 2, sep .rightParen,
    sep .semicolon].map (⟨·, {}⟩)

/-- The tree of `constructing`: a method of a construction, with a comparison of a disjunction. -/
def constructingTree : Program :=
  ⟨[.type ⟨0, [⟨1, .any, {}⟩], {}⟩ {},
    .expression (.methodCall (.construct 0 [.literal (.int 1) {}] {}) 3
      [.binary .less (.name 2 {})
        (.binary .or (.name 2 {}) (.unary .not (.name 2 {}) {}) {}) {}] {}) {}]⟩

theorem read_iff_spells_constructing : (∀ t ∈ constructing, t.kind ≠ .endOfFile) ∧
    Spells {} (constructing.map Token.kind) constructingTree ∧
    ∀ p, Spells {} (constructing.map Token.kind) p → p = constructingTree := by
  have hall : ∀ t ∈ constructing, t.kind ≠ .endOfFile := by decide
  obtain ⟨hiff, hunique⟩ := read_iff_spells constructing ⟨.endOfFile, {}⟩ {} rfl hall
  have hspells := (hiff constructingTree).1 ⟨constructingTree, rfl, rfl⟩
  exact ⟨hall, hspells, fun p hp => hunique p _ hp hspells⟩

end Scriptlet.Program
