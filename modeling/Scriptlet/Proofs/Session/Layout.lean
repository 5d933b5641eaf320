import Scriptlet.Proofs.Code.Regions
import Scriptlet.Proofs.Scanning.Respacing
import Scriptlet.Session

/-!
# Layout does not matter

A source with other blanks and comments between its tokens compiles to the same code and tables, or is
refused in the same phase for the same cause. Scanning finds the same kinds of tokens
(`Token.scan_spaced`), and neither reading nor compiling looks at where they stand
(`Program.read_congr`, `Program.compile_congr`).

Main statement: `Session.compile_spaced`.
-/

namespace Scriptlet.Session

open Token Text

/-- Two compilations have the same outcome: the same code, texts and tables, or a refusal in the same
phase for the same cause. -/
inductive SameOutcome (s s' : Session) : Prop where
  | compiled {b b' : Bytecode} (hs : s.bytecode = some b ∧ s.failure = none)
      (hs' : s'.bytecode = some b' ∧ s'.failure = none) (code : b'.code = b.code)
      (strings : b'.strings = b.strings) (functions : b'.functions = b.functions)
      (structs : b'.structs = b.structs)
  | notRead {e e' : Program.Error} (hs : s.bytecode = none ∧ s.failure = some (.read e))
      (hs' : s'.bytecode = none ∧ s'.failure = some (.read e')) (cause : e'.cause = e.cause)
  | notCompiled {e e' : Compile.Error} (hs : s.bytecode = none ∧ s.failure = some (.compile e))
      (hs' : s'.bytecode = none ∧ s'.failure = some (.compile e')) (cause : e'.cause = e.cause)

/-- Where regions are all that can differ, both succeed or both fail for the same cause. -/
theorem of_bareResult {ε α : Type} {f : α → α} {x y : Except (Located ε) α}
    (h : bareResult f y = bareResult f x) :
    (∃ a b, x = .ok a ∧ y = .ok b ∧ f b = f a) ∨
      ∃ e e', x = .error e ∧ y = .error e' ∧ e'.cause = e.cause := by
  cases x with
  | ok a =>
    cases y with
    | ok b => exact .inl ⟨a, b, rfl, rfl, Except.ok.inj h⟩
    | error e' => cases h
  | error e =>
    cases y with
    | ok b => cases h
    | error e' =>
      have hbare : e'.bare = e.bare := Except.error.inj h
      have hcause : e'.bare.cause = e.bare.cause := by rw [hbare]
      exact .inr ⟨e, e', rfl, rfl, hcause⟩

/-- Sources with the same kinds of tokens and the same pool have the same outcome. -/
theorem sameOutcome_of_kinds {source source' : String} {tokens tokens' : List (Token Symbol)}
    {pool : Pool} (h : scan source = .ok (tokens, pool)) (h' : scan source' = .ok (tokens', pool))
    (hkinds : tokens'.map (·.kind) = tokens.map (·.kind)) :
    SameOutcome (compile source) (compile source') := by
  unfold compile
  rw [h, h']
  dsimp only
  rcases of_bareResult (Program.read_congr hkinds pool) with
    ⟨p, p', hp, hp', hbare⟩ | ⟨e, e', he, he', hcause⟩
  · rw [hp, hp']
    dsimp only
    rcases of_bareResult (Program.compile_congr hbare pool) with
      ⟨b, b', hb, hb', hbare⟩ | ⟨e, e', he, he', hcause⟩
    · rw [hb, hb']
      exact .compiled ⟨rfl, rfl⟩ ⟨rfl, rfl⟩ (congrArg (·.code) hbare) (congrArg (·.strings) hbare)
        (congrArg (·.functions) hbare) (congrArg (·.structs) hbare)
    · rw [he, he']
      exact .notCompiled ⟨rfl, rfl⟩ ⟨rfl, rfl⟩ hcause
  · rw [he, he']
    exact .notRead ⟨rfl, rfl⟩ ⟨rfl, rfl⟩ hcause

/-- With any other separators between the texts of its tokens, a source scans to the same kinds with
the same symbols and the same pool, and compiles with the same outcome. -/
theorem compile_spaced {source : String} {tokens : List (Token Symbol)} {pool : Pool}
    {before : List Char} {behind : List (List Char)} (h : scan source = .ok (tokens, pool))
    (hseps : Separators before behind (texts source tokens).length) :
    (∃ tokens', scan (.ofList (spaced before (texts source tokens) behind)) = .ok (tokens', pool) ∧
      tokens'.map (·.kind) = tokens.map (·.kind)) ∧
    SameOutcome (compile source)
      (compile (.ofList (spaced before (texts source tokens) behind))) := by
  obtain ⟨tokens', h', hkinds⟩ := scan_spaced h hseps
  exact ⟨⟨tokens', h', hkinds⟩, sameOutcome_of_kinds h h' hkinds⟩

/-- A comment in front, a line end and a comment inside, and no blank where none is needed. -/
theorem compile_spaced_lines : ∃ tokens pool, scan "x=1;#y\n" = .ok (tokens, pool) ∧
    (∃ tokens', scan "# z\nx\r\n=#=\n1\t; " = .ok (tokens', pool) ∧
      tokens'.map (·.kind) = tokens.map (·.kind)) ∧
    SameOutcome (compile "x=1;#y\n") (compile "# z\nx\r\n=#=\n1\t; ") := by
  have hscan : ∃ tokens pool, scan "x=1;#y\n" = .ok (tokens, pool) ∧
      texts "x=1;#y\n" tokens = [['x'], ['='], ['1'], [';']] :=
    ⟨[⟨.name 0, ⟨0, 1, 1, 1⟩⟩, ⟨.operator .equal, ⟨1, 2, 1, 2⟩⟩, ⟨.literal (.int 1), ⟨2, 3, 1, 3⟩⟩,
        ⟨.separator .semicolon, ⟨3, 4, 1, 4⟩⟩, ⟨.endOfFile, ⟨7, 7, 2, 1⟩⟩], ⟨#["x"]⟩,
      by decide +kernel, by decide +kernel⟩
  obtain ⟨tokens, pool, h, htexts⟩ := hscan
  have hblank : ∀ c : Char, isBlank c = true → Separating [c] := fun c hc => .blank hc .nil
  have hwords : '\n' ∉ [' ', 'z'] := by decide
  have hsign : '\n' ∉ ['='] := by decide
  have hseps : Separators ['#', ' ', 'z', '\n'] [['\r', '\n'], ['#', '=', '\n'], ['\t'], [' ']]
      (texts "x=1;#y\n" tokens).length := by
    rw [htexts]
    refine ⟨rfl, .comment hwords .nil, ?_, by decide⟩
    simp only [List.forall_mem_cons, List.not_mem_nil, false_imp_iff, implies_true, and_true]
    exact ⟨.blank (by decide) (hblank _ (by decide)), .comment hsign .nil,
      hblank _ (by decide), hblank _ (by decide)⟩
  have hspaced : String.ofList (spaced ['#', ' ', 'z', '\n'] (texts "x=1;#y\n" tokens)
      [['\r', '\n'], ['#', '=', '\n'], ['\t'], [' ']]) = "# z\nx\r\n=#=\n1\t; " := by
    rw [htexts]
    decide +kernel
  have hboth := compile_spaced h hseps
  rw [hspaced] at hboth
  exact ⟨tokens, pool, h, hboth⟩

end Scriptlet.Session
