import Scriptlet.Proofs.Code.FaultPoints
import Scriptlet.Proofs.Code.Places
import Scriptlet.Proofs.Reading.Places
import Scriptlet.Proofs.Scanning.Failures
import Scriptlet.Proofs.Scanning.LineNumbers
import Scriptlet.Report

/-!
# What reports show

A failure with a region is reported with the line that the region starts in. Such a region starts at
a character of the source, whatever phase fails: the scanner stops in front of a character, refusals
of the reader and of the compiler start at tokens, and so do the positions in the code, which faults
have their regions from. Only the reader can also point to the end of the file
(`Session.Fails.points`). A report lacks the line exactly if that end is behind a newline, since no
line of the source is there.

Main statement: `Report.failure_shown_iff`.
-/

namespace Scriptlet

open Text

/-! ## Regions of faults -/

/-- The closest position is one of the table. -/
theorem Bytecode.mem_of_spanAt? {b : Bytecode} {offset : Nat} {s : Span}
    (h : b.spanAt? offset = some s) : ∃ x ∈ b.positions, x.2 = s := by
  unfold spanAt? at h
  split at h
  · next start span hget =>
    split at h
    · cases h
      exact ⟨_, Array.mem_of_getElem? hget, rfl⟩
    · cases h
  · cases h

/-- Whenever a run ends in a fault, the region comes from the table of positions. -/
theorem Machine.span_of_runFor {n : Nat} {m m' : Machine} {e : RuntimeFault}
    (h : runFor n m = .error e m') : e.span = m.bytecode.spanAt? e.pc := by
  induction n generalizing m with
  | zero => cases h
  | succ n ih =>
    simp only [runFor] at h
    split at h
    · next hstep =>
      cases h
      have hfault : m.nextFault? = some e := by rw [nextFault?, hstep]
      obtain ⟨hpc, hspan⟩ := of_nextFault? hfault
      rw [hspan, hpc]
    · cases h
    · next m₁ hstep =>
      have hnext : m.next = m₁ := by rw [next, hstep]
      rw [ih h, ← hnext, m.extends_next.bytecode]

/-! ## How sessions fail -/

namespace Session

/-- The phase in which a session fails, and what came before it. -/
inductive Fails (limit : Nat) (source : String) : Failure → Prop where
  | scan {e : Token.Error} (h : Token.scan source = .error e) : Fails limit source (.scan e)
  | read {tokens : List (Token Symbol)} {pool : Pool} {e : Program.Error}
      (hscan : Token.scan source = .ok (tokens, pool)) (h : Program.read tokens pool = .error e) :
      Fails limit source (.read e)
  | compile {tokens : List (Token Symbol)} {pool : Pool} {p : Program} {e : Compile.Error}
      (hscan : Token.scan source = .ok (tokens, pool)) (hread : Program.read tokens pool = .ok p)
      (h : p.compile pool = .error e) : Fails limit source (.compile e)
  | run {tokens : List (Token Symbol)} {pool : Pool} {p : Program} {b : Bytecode} {m : Machine}
      {e : RuntimeFault} (hscan : Token.scan source = .ok (tokens, pool))
      (hread : Program.read tokens pool = .ok p) (hcompile : p.compile pool = .ok b)
      (h : Machine.runFor limit (Machine.new b {}) = .error e m) : Fails limit source (.run e)

theorem fails_of_run {limit : Nat} {source : String} {f : Failure}
    (h : (run limit source {}).failure = some f) : Fails limit source f := by
  unfold run compile at h
  dsimp only at h
  cases hscan : Token.scan source with
  | error e =>
    rw [hscan] at h
    cases h
    exact .scan hscan
  | ok r =>
    obtain ⟨tokens, pool⟩ := r
    rw [hscan] at h
    cases hread : Program.read tokens pool with
    | error e =>
      simp only [hread] at h
      cases h
      exact .read hscan hread
    | ok p =>
      simp only [hread] at h
      cases hcompile : p.compile pool with
      | error e =>
        simp only [hcompile] at h
        cases h
        exact .compile hscan hread hcompile
      | ok b =>
        simp only [hcompile, runMachine] at h
        cases hrun : Machine.runFor limit (Machine.new b {}) with
        | error e m =>
          simp only [hrun] at h
          cases h
          exact .run hscan hread hcompile hrun
        | ok status m =>
          simp only [hrun] at h
          cases status <;> cases h

/-! ## Where failures point -/

section points

open Program Compile

variable {source : String} {tokens : List (Token Symbol)} {pool : Pool} {p : Program}

/-- Scanning stops in front of a character. -/
theorem points_of_scan_error {e : Token.Error} (h : Token.scan source = .error e) :
    Points source.toList e.span := by
  have hscan := Token.scan_eq_error.1 h
  rw [Token.scanText, Token.scanLines_eq .nil] at hscan
  obtain ⟨ts, before, rest, hreaches, ⟨c, cs, rfl, hblank, -⟩, hspan⟩ :=
    Token.reaches_of_scanFrom (Token.map_eq_error hscan) .nil
  obtain ⟨passed, hsource, hpassed⟩ := hreaches.split
  have hc : c ≠ '\n' := by
    rintro rfl
    rw [isBlank_newline] at hblank
    cases hblank
  rw [hspan, hpassed]
  exact ⟨passed, c, cs, hsource, hc, rfl, rfl⟩

/-- Reading stops where a token starts. -/
theorem points_of_read_error {e : Program.Error} (hscan : Token.scan source = .ok (tokens, pool))
    (h : read tokens pool = .error e) :
    Points source.toList e.span ∨
      e.span.start = source.utf8ByteSize ∧ e.span.line = 1 + source.toList.count '\n' := by
  have htokens := scan_successive hscan
  obtain ⟨t, ht, hstart, hline, -⟩ := read_error_starts htokens h
  obtain ⟨body, last, rfl, -⟩ := htokens
  obtain ⟨hpoints, hend, hcount⟩ := Token.points_of_scan hscan
  rcases List.mem_append.1 ht with ht | ht
  · exact .inl ((hpoints t ht).congr hstart hline)
  · obtain rfl := List.mem_singleton.1 ht
    exact .inr ⟨hstart.trans hend, hline.trans hcount⟩

/-- The trees of a program start at characters of its source. -/
theorem points_of_region (hscan : Token.scan source = .ok (tokens, pool))
    (hread : read tokens pool = .ok p) {s : Span} (h : RegionOf p s) : Points source.toList s := by
  obtain ⟨body, last, rfl, hlast, hbody, hs⟩ := scan_successive hscan
  obtain ⟨hpoints, -⟩ := Token.points_of_scan hscan
  obtain ⟨t, ht, rfl⟩ := h
  obtain ⟨us, hus, hwritten⟩ := ht.written (read_written hlast hbody hread)
  obtain ⟨first, more, hmore, -, hstart, hline, -⟩ := (hwritten.nested (hs.stretch hus) hus).starts
  exact (hpoints first (hmore.subset List.mem_cons_self)).congr hstart hline

/-- Compiling a program that is read refers to regions of it. -/
theorem refers_of_read (hscan : Token.scan source = .ok (tokens, pool))
    (hread : read tokens pool = .ok p) :
    Refers p (fun b => ∀ x ∈ b.positions, RegionOf p x.2) (p.compile pool) := by
  obtain ⟨body, last, rfl, hlast, hbody, -⟩ := scan_successive hscan
  exact compile_refers (read_written hlast hbody hread) pool

/-- A failure points to a character of the source, or it is the reader that fails at its end. -/
theorem Fails.points {limit : Nat} {f : Failure} {s : Span} (h : Fails limit source f)
    (hs : f.span? = some s) :
    Points source.toList s ∨
      (∃ e, f = .read e) ∧ s.start = source.utf8ByteSize ∧ s.line = 1 + source.toList.count '\n' := by
  cases h with
  | scan h =>
    cases hs
    exact .inl (points_of_scan_error h)
  | @read _ _ e hscan h =>
    cases hs
    exact (points_of_read_error hscan h).imp_right fun h => ⟨⟨e, rfl⟩, h⟩
  | compile hscan hread h =>
    cases hs
    exact .inl (points_of_region hscan hread ((refers_of_read hscan hread).error _ h))
  | run hscan hread hcompile h =>
    have hspan := (Machine.span_of_runFor h).symm.trans hs
    obtain ⟨x, hx, rfl⟩ := Bytecode.mem_of_spanAt? hspan
    exact .inl (points_of_region hscan hread ((refers_of_read hscan hread).ok _ hcompile x hx))

end points

end Session

/-! ## Reports -/

namespace Report

/-- A report shows the place of a region, the line of the source that it starts in, and a marker below
it that does not reach beyond the line. -/
def Shows (file source : String) (f : Failure) (s : Span) (err : String) : Prop :=
  ∃ line width, IsLine source.toList s.line line ∧ 1 ≤ width ∧
    width ≤ max 1 (byteSize line - (s.column - 1)) ∧
    err = unlines [
      "error: " ++ f.message,
      "--> " ++ file ++ ":" ++ toString s.line ++ ":" ++ toString s.column,
      blanks (toString s.line).length ++ " |",
      toString s.line ++ " | " ++ String.ofList line,
      blanks (toString s.line).length ++ " | " ++ blanks (s.column - 1) ++
        String.ofList (List.replicate width '~')]

/-- A region starts at the end of a source, in an empty last line. -/
def BehindLines (source : String) (s : Span) : Prop :=
  lastLine source.toList = [] ∧ s.start = source.utf8ByteSize

instance (source : String) (s : Span) : Decidable (BehindLines source s) :=
  inferInstanceAs (Decidable (_ ∧ _))

section shows

variable {file source : String} {f : Failure} {s : Span} {line : List Char}

theorem shows_of_line (hs : f.span? = some s)
    (hget : (lines (split source.toList))[s.line - 1]? = some line)
    (hline : IsLine source.toList s.line line) :
    Shows file source f s (unlines (failureLines file source f)) := by
  have hlower : 1 ≤ markerWidth s line := Nat.le_max_right _ _
  have hupper : markerWidth s line ≤ max 1 (byteSize line - (s.column - 1)) := by
    unfold markerWidth
    omega
  refine ⟨line, markerWidth s line, hline, hlower, hupper, ?_⟩
  unfold failureLines
  rw [hs]
  dsimp only
  rw [hget]
  rfl

theorem failureLines_of_no_line (hs : f.span? = some s)
    (hget : (lines (split source.toList))[s.line - 1]? = none) :
    failureLines file source f = ["error: " ++ f.message] := by
  unfold failureLines
  rw [hs]
  dsimp only
  rw [hget]

/-- The message alone does not show the place. -/
theorem not_shows : ¬ Shows file source f s (unlines ["error: " ++ f.message]) := by
  rintro ⟨line, width, -, -, -, heq⟩
  have hlength := congrArg String.length heq
  simp [unlines] at hlength

end shows

/-- A session that fails with a region is reported with exit code one, and with the line of the
region, unless that starts behind the last newline of the source. Then only the reader can have failed,
and the report has its message and nothing else. -/
theorem failure_shown_iff {limit : Nat} {source : String} {f : Failure} {s : Span}
    (h : (Session.run limit source {}).failure = some f) (hs : f.span? = some s) (file : String)
    (showBytecode : Bool) :
    let r := run limit file showBytecode (.ok source)
    r.exit = 1 ∧ (Shows file source f s r.err ↔ ¬ BehindLines source s) ∧
      (BehindLines source s → (∃ e, f = .read e) ∧ r.err = unlines ["error: " ++ f.message]) := by
  intro r
  have hr : r.exit = 1 ∧ r.err = unlines (failureLines file source f) := by
    simp only [r, run, ofSession, h, and_self]
  rw [hr.2]
  refine ⟨hr.1, ?_⟩
  rcases (Session.fails_of_run h).points hs with hpoints | ⟨hread, hstart, hnumber⟩
  · have hnot : ¬ BehindLines source s := by
      rintro ⟨-, hend⟩
      have hlt := hpoints.start_lt
      rw [byteSize_toList] at hlt
      omega
    obtain ⟨line, hget, hline⟩ := hpoints.exists_line
    exact ⟨iff_of_true (shows_of_line hs hget hline) hnot, fun hbehind => absurd hbehind hnot⟩
  · -- At the end of the file it depends on whether there is a line behind the last newline.
    have hlength := length_lines source.toList
    by_cases hlast : lastLine source.toList = []
    · have hget : (lines (split source.toList))[s.line - 1]? = none := by
        rw [if_pos hlast] at hlength
        exact List.getElem?_eq_none (by omega)
      rw [failureLines_of_no_line hs hget]
      exact ⟨iff_of_false not_shows fun hnot => hnot ⟨hlast, hstart⟩, fun _ => ⟨hread, rfl⟩⟩
    · obtain ⟨line, hget, hline⟩ : ∃ line, (lines (split source.toList))[s.line - 1]? = some line ∧
          IsLine source.toList s.line line := by
        rw [if_neg hlast] at hlength
        exact Text.exists_line (by omega) (by omega)
      exact ⟨iff_of_true (shows_of_line hs hget hline) fun hbehind => hlast hbehind.1,
        fun hbehind => absurd hbehind.1 hlast⟩

/-- An index out of bounds in the second line, with a wide character in front of it. -/
theorem failure_shown_iff_index :
    let source := "let a = [1];\r\n  print(\"é\", a[2]);\r\n"
    let f : Failure := .run ⟨.indexOutOfBounds 2 1, 24, some ⟨28, 32, 2, 15⟩⟩
    let r := run 20 "prog.sb" false (.ok source)
    (Session.run 20 source {}).failure = some f ∧ r.exit = 1 ∧
      Shows "prog.sb" source f ⟨28, 32, 2, 15⟩ r.err := by
  intro source f r
  have hrun : (Session.run 20 source {}).failure = some f := by decide +kernel
  obtain ⟨hexit, hshows, -⟩ := failure_shown_iff hrun rfl "prog.sb" false
  exact ⟨hrun, hexit, hshows.2 (by decide +kernel)⟩

/-- An expression that the end of the file interrupts is reported without its place, if there is a
newline in front of the end. -/
theorem unexpected_end_not_shown :
    let source := "let a = 1 +\n"
    let f : Failure := .read ⟨.unexpectedEnd, ⟨12, 12, 2, 1⟩⟩
    let r := run 0 "prog.sb" false (.ok source)
    (Session.run 0 source {}).failure = some f ∧
      r.err = "error: Parser error: Unexpected end of file at 2:1\n" ∧
      ¬ Shows "prog.sb" source f ⟨12, 12, 2, 1⟩ r.err := by
  intro source f r
  have herr : r.err = unlines ["error: " ++ f.message] := by decide +kernel
  refine ⟨by decide +kernel, by decide +kernel, ?_⟩
  rw [herr]
  exact not_shows

end Report

end Scriptlet
