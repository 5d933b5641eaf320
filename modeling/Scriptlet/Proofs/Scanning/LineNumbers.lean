import Scriptlet.Proofs.Scanning.Positions

/-!
# Line numbers

The scanner counts lines by the newlines that it has passed, and a report looks a line up among the
lines of the source. `Text.isLine_of_lines`: what it finds is the line with that number.
`Text.length_lines`: it finds all of them, but for an empty line behind the last newline. So a region
that starts at a character always has a line (`Text.Points.exists_line`), and the end of the file has
one if the last line is not empty.
-/

namespace Scriptlet

namespace Text

/-! ## Lines of a text -/

/-- The line of a text with a number from one on, without its end. -/
def IsLine (cs : List Char) (number : Nat) (line : List Char) : Prop :=
  ∃ before ending rest, cs = before ++ (line ++ (ending ++ rest)) ∧ lastLine before = [] ∧
    number = 1 + before.count '\n' ∧ '\n' ∉ line ∧
    (ending = ['\n'] ∧ line.getLast? ≠ some '\r' ∨ ending = ['\r', '\n'] ∨ ending = [] ∧ rest = [])

/-- A text is a line, or a line in front of a newline and other lines. -/
theorem line_induction {P : List Char → Prop} (last : ∀ line, '\n' ∉ line → P line)
    (line : ∀ line more, '\n' ∉ line → P more → P (line ++ '\n' :: more)) (cs : List Char) : P cs := by
  induction hlen : cs.length using Nat.strong_induction_on generalizing cs with
  | _ n ih =>
  by_cases hcs : '\n' ∈ cs
  · obtain ⟨first, more, rfl, hfirst⟩ := List.eq_append_cons_of_mem hcs
    have hlt : more.length < n := by
      rw [← hlen, List.length_append, List.length_cons]
      omega
    exact line first more hfirst (ih _ hlt more rfl)
  · exact last cs hcs

theorem lastLine_of_newline_not_mem {line : List Char} (h : '\n' ∉ line) : lastLine line = line :=
  lastLine_append h []

theorem lastLine_append_newline (pre cs : List Char) : lastLine (pre ++ '\n' :: cs) = lastLine cs := by
  induction cs using List.reverseRecOn with
  | nil => exact lastLine_newline pre
  | append_singleton cs c ih =>
    rw [← List.cons_append, ← List.append_assoc]
    by_cases hc : c = '\n'
    · rw [hc, lastLine_newline, lastLine_newline]
    · have hline : '\n' ∉ [c] := by simpa using Ne.symm hc
      rw [lastLine_append hline, lastLine_append hline, ih]

theorem lines_last {line : List Char} (h : '\n' ∉ line) :
    lines (split line) = if line = [] then [] else [line] := by
  rw [split_of_newline_not_mem h, lines]
  simp only [List.isEmpty_iff]

theorem lines_line {line : List Char} (h : '\n' ∉ line) (more : List Char) :
    lines (split (line ++ '\n' :: more)) = dropReturn line :: lines (split more) := by
  obtain ⟨next, others, hnext⟩ := List.exists_cons_of_ne_nil (split_ne_nil more)
  rw [split_line h, hnext]
  rfl

/-- A line in front of a newline is the line without its carriage return. -/
theorem isLine_first {line : List Char} (h : '\n' ∉ line) (more : List Char) :
    IsLine (line ++ '\n' :: more) 1 (dropReturn line) := by
  unfold dropReturn
  split
  · next hreturn =>
    obtain ⟨body, rfl⟩ := List.getLast?_eq_some_iff.1 hreturn
    rw [List.dropLast_concat]
    exact ⟨[], ['\r', '\n'], more, by simp, rfl, rfl, fun hm => h (by simp [hm]), .inr (.inl rfl)⟩
  · next hreturn => exact ⟨[], ['\n'], more, rfl, rfl, rfl, h, .inl ⟨rfl, hreturn⟩⟩

theorem IsLine.behind {cs line first : List Char} {number : Nat} (h : IsLine cs number line)
    (hfirst : '\n' ∉ first) : IsLine (first ++ '\n' :: cs) (number + 1) line := by
  obtain ⟨before, ending, rest, rfl, hbefore, rfl, hline⟩ := h
  refine ⟨first ++ '\n' :: before, ending, rest, by simp, ?_, ?_, hline⟩
  · rw [lastLine_append_newline, hbefore]
  · rw [List.count_append, List.count_cons_self, List.count_eq_zero.2 hfirst]
    omega

/-- What stands in a place among the lines is the line with that number. -/
theorem isLine_of_lines {cs line : List Char} {n : Nat} (h : (lines (split cs))[n]? = some line) :
    IsLine cs (n + 1) line := by
  induction cs using line_induction generalizing n with
  | last cs hcs =>
    rw [lines_last hcs] at h
    split at h
    · cases h
    · cases n with
      | zero =>
        cases h
        exact ⟨[], [], [], by simp, rfl, rfl, hcs, .inr (.inr ⟨rfl, rfl⟩)⟩
      | succ n => cases h
  | line first more hfirst ih =>
    rw [lines_line hfirst] at h
    cases n with
    | zero =>
      cases h
      exact isLine_first hfirst more
    | succ n => exact (ih h).behind hfirst

/-- There is a line for every newline, and one for what is behind the last of them. -/
theorem length_lines (cs : List Char) :
    (lines (split cs)).length = cs.count '\n' + if lastLine cs = [] then 0 else 1 := by
  induction cs using line_induction with
  | last cs hcs =>
    rw [lines_last hcs, lastLine_of_newline_not_mem hcs, List.count_eq_zero.2 hcs]
    split <;> rfl
  | line first more hfirst ih =>
    rw [lines_line hfirst, List.length_cons, ih, lastLine_append_newline, List.count_append,
      List.count_cons_self, List.count_eq_zero.2 hfirst]
    omega

theorem exists_line {cs : List Char} {number : Nat} (hpos : 0 < number)
    (h : number ≤ (lines (split cs)).length) :
    ∃ line, (lines (split cs))[number - 1]? = some line ∧ IsLine cs number line := by
  have hlt : number - 1 < (lines (split cs)).length := by omega
  have hget := List.getElem?_eq_getElem hlt
  have hline := isLine_of_lines hget
  rw [Nat.sub_add_cancel hpos] at hline
  exact ⟨_, hget, hline⟩

/-! ## Regions that start at a character -/

/-- A region starts at a character of a text, other than a newline. -/
def Points (cs : List Char) (s : Span) : Prop :=
  ∃ before c rest, cs = before ++ c :: rest ∧ c ≠ '\n' ∧ s.start = byteSize before ∧
    s.line = 1 + before.count '\n'

section points

variable {cs before text rest : List Char} {s s' : Span}

theorem Points.congr (h : Points cs s) (hstart : s'.start = s.start) (hline : s'.line = s.line) :
    Points cs s' := by
  obtain ⟨before, c, rest, hcs, hc, hs, hnumber⟩ := h
  exact ⟨before, c, rest, hcs, hc, hstart.trans hs, hline.trans hnumber⟩

theorem points_behind (htext : text ≠ []) (hline : '\n' ∉ text) :
    Points (before ++ text ++ rest) (.behind before text) := by
  obtain ⟨c, more, rfl⟩ := List.exists_cons_of_ne_nil htext
  have hc : c ≠ '\n' := fun he => hline (he ▸ List.mem_cons_self)
  exact ⟨before, c, more ++ rest, by simp, hc, rfl, rfl⟩

/-- It starts in front of the end of the text. -/
theorem Points.start_lt (h : Points cs s) : s.start < byteSize cs := by
  obtain ⟨before, c, rest, rfl, -, hstart, -⟩ := h
  have hpos := c.utf8Size_pos
  rw [hstart, byteSize_append, byteSize]
  omega

theorem lastLine_ne_nil {c : Char} (hc : c ≠ '\n') (hrest : '\n' ∉ rest) (before : List Char) :
    lastLine (before ++ c :: rest) ≠ [] := by
  have hline : '\n' ∉ c :: rest := fun h => (List.mem_cons.1 h).elim (fun h => hc h.symm) hrest
  rw [lastLine_append hline]
  exact List.append_ne_nil_of_right_ne_nil _ (List.cons_ne_nil _ _)

/-- The line of a character is among the lines of its text. -/
theorem Points.exists_line (h : Points cs s) :
    ∃ line, (lines (split cs))[s.line - 1]? = some line ∧ IsLine cs s.line line := by
  obtain ⟨before, c, rest, rfl, hc, -, hnumber⟩ := h
  refine Text.exists_line (by omega) ?_
  rw [length_lines, List.count_append, List.count_cons_of_ne hc, hnumber]
  -- Either there is a newline behind the character, or it is in the last line.
  by_cases hrest : '\n' ∈ rest
  · have := List.count_pos_iff.2 hrest
    omega
  · rw [if_neg (lastLine_ne_nil hc hrest before)]
    omega

end points

end Text

open Text

/-! ## Tokens of a source -/

/-- Tokens start at characters of their source, but for the end of the file, which is behind them in
the last line. -/
theorem Token.points_of_scan {source : String} {body : List (Token Symbol)} {last : Token Symbol}
    {pool : Pool} (h : scan source = .ok (body ++ [last], pool)) :
    (∀ t ∈ body, Points source.toList t.span) ∧ last.span.start = source.utf8ByteSize ∧
      last.span.line = 1 + source.toList.count '\n' := by
  obtain ⟨body', last', heq, -, hend, hbody, -⟩ := scan_places h
  obtain ⟨rfl, hlast⟩ := List.append_inj' heq rfl
  obtain rfl := List.singleton_inj.1 hlast
  rw [hend]
  refine ⟨fun t ht => ?_, byteSize_toList source, rfl⟩
  obtain ⟨-, before, text, behind, hsource, hne, hline, hspan⟩ := hbody t ht
  rw [hspan, hsource]
  exact points_behind hne hline

end Scriptlet
