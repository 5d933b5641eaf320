import Mathlib.Data.List.DropRight
import Scriptlet.Proofs.Scanning.Lexemes
import Scriptlet.Token.Scan

/-!
# Scanning as a walk through the text

A source is scanned line by line. `Token.Laid pre cs ts` describes the outcome without lines: behind
the text `pre`, the text `cs` consists of blanks, comments and the tokens `ts`, each of which has the
region that its own text takes behind what precedes it (`Span.behind`). A token may look as far as the
end of its line (`Text.lineRest`).

Main statement: `Token.scanText_iff_laid`, a source is scanned to tokens exactly if it is laid out as
them.
-/

namespace Scriptlet

namespace Text

/-! ## Lines -/

/-- The part of a text behind its last newline. -/
def lastLine (cs : List Char) : List Char := cs.rtakeWhile (· ≠ '\n')

/-- What is left of a line, without its end. -/
def lineRest (cs : List Char) : List Char := dropReturn (cs.takeWhile (· ≠ '\n'))

theorem lastLine_newline (cs : List Char) : lastLine (cs ++ ['\n']) = [] :=
  List.rtakeWhile_concat_neg _ _ _ (by simp)

theorem lastLine_append {text : List Char} (h : '\n' ∉ text) (cs : List Char) :
    lastLine (cs ++ text) = lastLine cs ++ text := by
  induction text using List.reverseRecOn with
  | nil => rw [List.append_nil, List.append_nil]
  | append_singleton text c ih =>
    have hc : c ≠ '\n' := fun hc => h (by simp [hc])
    rw [← List.append_assoc, lastLine, List.rtakeWhile_concat_pos _ _ _ (by simpa using hc)]
    rw [← List.append_assoc, ← ih fun hm => h (List.mem_append_left _ hm), lastLine]

theorem ne_newline_of_mem {text : List Char} (h : '\n' ∉ text) :
    ∀ c ∈ text, decide (c ≠ '\n') = true := fun c hc => by
  have hne : c ≠ '\n' := fun he => h (he ▸ hc)
  simpa using hne

theorem takeWhile_newline_append {text : List Char} (h : '\n' ∉ text) (cs : List Char) :
    (text ++ cs).takeWhile (· ≠ '\n') = text ++ cs.takeWhile (· ≠ '\n') :=
  List.takeWhile_append_of_pos (ne_newline_of_mem h)

theorem dropWhile_newline_append {text : List Char} (h : '\n' ∉ text) (cs : List Char) :
    (text ++ cs).dropWhile (· ≠ '\n') = cs.dropWhile (· ≠ '\n') :=
  List.dropWhile_append_of_pos (ne_newline_of_mem h)

theorem dropReturn_append (text : List Char) {cs : List Char} (h : cs ≠ [] ∨ text.getLast? ≠ some '\r') :
    dropReturn (text ++ cs) = text ++ dropReturn cs := by
  cases cs with
  | nil =>
    rw [List.append_nil, dropReturn, if_neg (h.resolve_left (fun h => h rfl))]
    exact (List.append_nil text).symm
  | cons c cs =>
    unfold dropReturn
    rw [List.getLast?_append_of_ne_nil _ (by simp), List.dropLast_append_of_ne_nil (by simp)]
    split <;> rfl

theorem lineRest_append {text cs : List Char} (hline : '\n' ∉ text)
    (h : cs.takeWhile (· ≠ '\n') ≠ [] ∨ text.getLast? ≠ some '\r') :
    lineRest (text ++ cs) = text ++ lineRest cs := by
  rw [lineRest, takeWhile_newline_append hline, dropReturn_append text h, lineRest]

theorem dropReturn_isPrefix (line : List Char) : dropReturn line <+: line := by
  unfold dropReturn
  split
  · exact List.dropLast_prefix line
  · exact List.prefix_refl _

/-- What is left of a line is a beginning of the text that has no newline. -/
theorem lineRest_isPrefix (cs : List Char) : lineRest cs <+: cs :=
  (dropReturn_isPrefix _).trans (List.takeWhile_prefix _)

theorem newline_not_mem_lineRest (cs : List Char) : '\n' ∉ lineRest cs := fun h => by
  have := List.mem_takeWhile_imp ((dropReturn_isPrefix _).subset h)
  simp at this

/-- A text is its first line, and the others behind a newline if there is one. -/
theorem split_eq (cs : List Char) : split cs = cs.takeWhile (· ≠ '\n') ::
    match cs.dropWhile (· ≠ '\n') with
    | [] => []
    | _ :: more => split more := by
  induction cs with
  | nil => rfl
  | cons c cs ih =>
    rw [split]
    by_cases hc : c = '\n'
    · rw [if_pos hc]
      simp [hc]
    · rw [if_neg hc, ih]
      simp [hc]

theorem split_of_newline_not_mem {cs : List Char} (h : '\n' ∉ cs) : split cs = [cs] := by
  have htake := takeWhile_newline_append h []
  have hdrop := List.dropWhile_eq_nil_iff.2 (ne_newline_of_mem h)
  rw [List.append_nil] at htake
  rw [split_eq, hdrop, htake]
  simp

theorem split_line {line : List Char} (h : '\n' ∉ line) (more : List Char) :
    split (line ++ '\n' :: more) = line :: split more := by
  rw [split_eq, takeWhile_newline_append h, dropWhile_newline_append h]
  simp

end Text

open Text

/-! ## Places -/

/-- The region of a text that stands behind another one. -/
def Span.behind (pre text : List Char) : Span where
  start := byteSize pre
  stop := byteSize pre + byteSize text
  line := 1 + pre.count '\n'
  column := 1 + byteSize (lastLine pre)

namespace Token

/-- The place behind a text, as the scanner counts it: a line, and a byte column in it. -/
structure LineStart.Behind (pre : List Char) (start : LineStart) (column : Nat) : Prop where
  number : start.number = 1 + pre.count '\n'
  offset : start.offset + column = byteSize pre
  column : column = byteSize (lastLine pre)

namespace LineStart.Behind

variable {pre text : List Char} {start : LineStart} {column : Nat}

theorem nil : LineStart.Behind [] ⟨1, 0⟩ 0 := ⟨rfl, rfl, rfl⟩

theorem append (h : start.Behind pre column) (htext : '\n' ∉ text) :
    start.Behind (pre ++ text) (column + byteSize text) where
  number := by rw [h.number, List.count_append, List.count_eq_zero.2 htext, Nat.add_zero]
  offset := by rw [← Nat.add_assoc, h.offset, byteSize_append]
  column := by rw [lastLine_append htext, byteSize_append, ← h.column]

theorem newline (h : start.Behind pre column) :
    LineStart.Behind (pre ++ ['\n']) ⟨start.number + 1, start.offset + column + 1⟩ 0 where
  number := by
    rw [h.number, List.count_append]
    rfl
  offset := by
    rw [h.offset, byteSize_append]
    rfl
  column := by rw [lastLine_newline]; rfl

theorem span (h : start.Behind pre column) (text : List Char) :
    start.span column (byteSize text) = .behind pre text := by
  rw [LineStart.span, Span.behind, h.offset, h.number, ← h.column, Nat.add_comm column]

end LineStart.Behind

/-! ## Lines without the end of the file -/

/-- The tokens of lines, the first of them from a byte column on. -/
def scanFrom (start : LineStart) (column : Nat) : List (List Char) → Except Error (List (Token String))
  | [] => .ok []
  | line :: lines =>
    match scanLine start column (dropReturn line) with
    | .error e => .error e
    | .ok tokens =>
      (scanFrom ⟨start.number + 1, start.offset + column + byteSize line + 1⟩ 0 lines).map (tokens ++ ·)

/-- The end of the file behind a text. -/
def endBehind (cs : List Char) : Token String :=
  ⟨.endOfFile, ⟨byteSize cs, byteSize cs, 1 + cs.count '\n', byteSize (dropReturn (lastLine cs)) + 1⟩⟩

theorem map_eq_ok {ε α β : Type} {f : α → β} {x : Except ε α} {b : β} (h : x.map f = .ok b) :
    ∃ a, x = .ok a ∧ b = f a := by
  cases x with
  | error e => cases h
  | ok a =>
    cases h
    exact ⟨a, rfl, rfl⟩

section walk

variable {start : LineStart} {column : Nat} {c : Char} {cs text : List Char}

theorem scanFrom_nil : scanFrom start column (split []) = .ok [] := by
  simp [split, scanFrom, scanLine, dropReturn, Except.map]

/-- The rest of a line, and the lines behind it. -/
theorem scanFrom_split (start : LineStart) (column : Nat) (cs : List Char) :
    scanFrom start column (split cs) =
      match scanLine start column (lineRest cs) with
      | .error e => .error e
      | .ok tokens => Except.map (tokens ++ ·)
          (scanFrom ⟨start.number + 1,
            start.offset + column + byteSize (cs.takeWhile (· ≠ '\n')) + 1⟩ 0
            (match cs.dropWhile (· ≠ '\n') with
            | [] => []
            | _ :: more => split more)) := by
  rw [split_eq, scanFrom, lineRest]

/-- The lines behind do not matter for how a line goes on. -/
theorem scanFrom_congr {column' : Nat} {cs' : List Char}
    (hline : scanLine start column (lineRest cs) = scanLine start column' (lineRest cs'))
    (hsize : column + byteSize (cs.takeWhile (· ≠ '\n')) =
      column' + byteSize (cs'.takeWhile (· ≠ '\n')))
    (hdrop : cs.dropWhile (· ≠ '\n') = cs'.dropWhile (· ≠ '\n')) :
    scanFrom start column (split cs) = scanFrom start column' (split cs') := by
  have hoffset : start.offset + column + byteSize (cs.takeWhile (· ≠ '\n')) =
      start.offset + column' + byteSize (cs'.takeWhile (· ≠ '\n')) := by
    omega
  rw [scanFrom_split, scanFrom_split start column', hline, hdrop, hoffset]

theorem scanFrom_newline : scanFrom start column (split ('\n' :: cs)) =
    scanFrom ⟨start.number + 1, start.offset + column + 1⟩ 0 (split cs) := by
  rw [split, if_pos rfl, scanFrom, dropReturn, if_neg (by simp), scanLine]
  simp only [byteSize, Nat.add_zero]
  cases scanFrom ⟨start.number + 1, start.offset + column + 1⟩ 0 (split cs) <;> rfl

theorem scanFrom_blank (hc : isBlank c = true) (hne : c ≠ '\n') :
    scanFrom start column (split (c :: cs)) = scanFrom start (column + c.utf8Size) (split cs) := by
  have htake : (c :: cs).takeWhile (· ≠ '\n') = c :: cs.takeWhile (· ≠ '\n') := by simp [hne]
  refine scanFrom_congr ?_ (by rw [htake, byteSize, Nat.add_assoc]) (by simp [hne])
  rw [lineRest, htake, lineRest]
  -- A carriage return at the end of the line is dropped and not skipped.
  by_cases hr : cs.takeWhile (· ≠ '\n') = [] ∧ c = '\r'
  · rw [hr.1, hr.2]
    simp [dropReturn, scanLine]
  · have hdrop : dropReturn (c :: cs.takeWhile (· ≠ '\n')) = c :: dropReturn (cs.takeWhile (· ≠ '\n')) := by
      refine dropReturn_append [c] ?_
      by_cases hnil : cs.takeWhile (· ≠ '\n') = []
      · exact .inr fun h => hr ⟨hnil, by simpa using h⟩
      · exact .inl hnil
    rw [hdrop, scanLine, if_pos hc]

theorem scanLine_comment : scanLine start column ('#' :: cs) = .ok [] := by
  rw [scanLine, if_neg (by decide), if_pos rfl]

theorem lineRest_comment (cs : List Char) : ∃ more, lineRest ('#' :: cs) = '#' :: more := by
  have htake : ('#' :: cs).takeWhile (· ≠ '\n') = '#' :: cs.takeWhile (· ≠ '\n') := by simp
  rw [lineRest, htake]
  exact ⟨_, dropReturn_append ['#'] (.inr (by simp))⟩

theorem scanFrom_comment (htext : '\n' ∉ text) :
    scanFrom start column (split ('#' :: (text ++ '\n' :: cs))) =
      scanFrom start (column + byteSize ('#' :: text)) (split ('\n' :: cs)) := by
  obtain ⟨more, hmore⟩ := lineRest_comment (text ++ '\n' :: cs)
  have hline : '\n' ∉ '#' :: text := by simpa using htext
  have htake := takeWhile_newline_append hline ('\n' :: cs)
  refine scanFrom_congr ?_ ?_ ?_
  · rw [hmore, scanLine_comment]
    simp [lineRest, dropReturn, scanLine]
  · rw [← List.cons_append, htake, byteSize_append, Nat.add_assoc]
  · rw [← List.cons_append, dropWhile_newline_append hline]

theorem scanFrom_lastComment (htext : '\n' ∉ text) :
    scanFrom start column (split ('#' :: text)) = .ok [] := by
  obtain ⟨more, hmore⟩ := lineRest_comment text
  have hdrop : ('#' :: text).dropWhile (· ≠ '\n') = [] :=
    List.dropWhile_eq_nil_iff.2 (ne_newline_of_mem (by simpa using htext))
  rw [scanFrom_split, hmore, scanLine_comment, hdrop]
  rfl

theorem newline_not_mem_cons {more : List Char} (hblank : isBlank c = false) (hmore : '\n' ∉ more) :
    '\n' ∉ c :: more := fun h => by
  rcases List.mem_cons.1 h with h | h
  · rw [← h, isBlank_newline] at hblank
    cases hblank
  · exact hmore h

theorem lineRest_cons (hblank : isBlank c = false) (cs : List Char) :
    lineRest (c :: cs) = c :: lineRest cs := by
  have hne : ∀ d, isBlank d = true → c ≠ d := fun d hd he => by
    rw [he, hd] at hblank
    cases hblank
  have hline : '\n' ∉ [c] := by simpa using (hne '\n' (by decide)).symm
  have hreturn : [c].getLast? ≠ some '\r' := by simpa using hne '\r' (by decide)
  exact lineRest_append hline (.inr hreturn)

/-- Where no token begins, scanning ends. -/
theorem scanFrom_unread (start : LineStart) (column : Nat) (hblank : isBlank c = false) (hc : c ≠ '#')
    {cause : Cause} (hread : lexeme c (lineRest cs) = .error cause) :
    scanFrom start column (split (c :: cs)) = .error ⟨cause, start.span column 0⟩ := by
  rw [scanFrom_split, lineRest_cons hblank, scanLine, hblank, if_neg Bool.false_ne_true, if_neg hc, hread]

/-- A token, and what is behind it on its line and on the others. -/
theorem scanFrom_token {more : List Char} {kind : Kind String} (hblank : isBlank c = false) (hc : c ≠ '#')
    (hmore : '\n' ∉ more) (hread : lexeme c (more ++ lineRest cs) = .ok (kind, more.length)) :
    scanFrom start column (split (c :: (more ++ cs))) =
      Except.map (⟨kind, start.span column (byteSize (c :: more))⟩ :: ·)
        (scanFrom start (column + byteSize (c :: more)) (split cs)) := by
  have hclosed : more.getLast? ≠ some '\r' := by
    obtain ⟨-, text, rest, htext, hlen, hspells⟩ := spells_of_lexeme hread
    rw [(List.append_inj htext hlen).1]
    exact hspells.closed
  have hline := newline_not_mem_cons hblank hmore
  have hrest : lineRest (c :: (more ++ cs)) = c :: (more ++ lineRest cs) := by
    rw [lineRest_cons hblank, lineRest_append hmore (.inr hclosed)]
  have htake : (c :: (more ++ cs)).takeWhile (· ≠ '\n') = c :: more ++ cs.takeWhile (· ≠ '\n') :=
    takeWhile_newline_append hline cs
  have hdrop : (c :: (more ++ cs)).dropWhile (· ≠ '\n') = cs.dropWhile (· ≠ '\n') :=
    dropWhile_newline_append hline cs
  have hscan : scanLine start column (c :: (more ++ lineRest cs)) =
      (scanLine start (column + byteSize (c :: more)) (lineRest cs)).map
        (⟨kind, start.span column (byteSize (c :: more))⟩ :: ·) := by
    rw [scanLine, hblank, if_neg Bool.false_ne_true, if_neg hc, hread]
    simp only [List.take_left, List.drop_left, byteSize]
    cases scanLine start (column + (c.utf8Size + byteSize more)) (lineRest cs) <;> rfl
  rw [scanFrom_split, hrest, hscan, htake, hdrop, scanFrom_split start _ cs, byteSize_append,
    ← Nat.add_assoc, ← Nat.add_assoc]
  cases scanLine start (column + byteSize (c :: more)) (lineRest cs) with
  | error e => rfl
  | ok tokens =>
    dsimp only [Except.map]
    split <;> rfl

end walk

/-! ## Texts laid out as tokens -/

/-- Behind a text, another one consists of blanks, comments and the given tokens. -/
inductive Laid : List Char → List Char → List (Token String) → Prop where
  | nil (pre : List Char) : Laid pre [] []
  | blank {pre cs : List Char} {c : Char} {ts : List (Token String)} (hc : isBlank c = true)
      (h : Laid (pre ++ [c]) cs ts) : Laid pre (c :: cs) ts
  | comment {pre text cs : List Char} {ts : List (Token String)} (htext : '\n' ∉ text)
      (h : Laid (pre ++ '#' :: text ++ ['\n']) cs ts) : Laid pre ('#' :: (text ++ '\n' :: cs)) ts
  | lastComment {pre text : List Char} (htext : '\n' ∉ text) : Laid pre ('#' :: text) []
  | token {pre more cs : List Char} {c : Char} {kind : Kind String} {ts : List (Token String)}
      (hblank : isBlank c = false) (hc : c ≠ '#') (hmore : '\n' ∉ more)
      (hread : lexeme c (more ++ lineRest cs) = .ok (kind, more.length))
      (h : Laid (pre ++ c :: more) cs ts) :
      Laid pre (c :: (more ++ cs)) (⟨kind, .behind pre (c :: more)⟩ :: ts)

section laid

variable {pre cs : List Char} {ts : List (Token String)} {start : LineStart} {column : Nat}

/-- Behind a newline the next line starts, behind another blank the column moves on. -/
theorem scanFrom_isBlank (cs : List Char) {c : Char} (hc : isBlank c = true)
    (hbehind : start.Behind pre column) :
    ∃ start' column', LineStart.Behind (pre ++ [c]) start' column' ∧
      scanFrom start column (split (c :: cs)) = scanFrom start' column' (split cs) := by
  by_cases hne : c = '\n'
  · subst hne
    exact ⟨_, _, hbehind.newline, scanFrom_newline⟩
  · have hline : '\n' ∉ [c] := by simpa using Ne.symm hne
    exact ⟨_, _, hbehind.append hline, scanFrom_blank hc hne⟩

theorem scanFrom_of_laid (h : Laid pre cs ts) (hbehind : start.Behind pre column) :
    scanFrom start column (split cs) = .ok ts := by
  induction h generalizing start column with
  | nil pre => exact scanFrom_nil
  | blank hc _ ih =>
    obtain ⟨start', column', hbehind', hscan⟩ := scanFrom_isBlank _ hc hbehind
    rw [hscan, ih hbehind']
  | @comment pre text cs ts htext _ ih =>
    have hline : '\n' ∉ '#' :: text := by simpa using htext
    have hbehind' := hbehind.append hline
    rw [scanFrom_comment htext, scanFrom_newline, ih hbehind'.newline]
  | lastComment htext => exact scanFrom_lastComment htext
  | @token pre more cs c kind ts hblank hc hmore hread _ ih =>
    rw [scanFrom_token hblank hc hmore hread, ih (hbehind.append (newline_not_mem_cons hblank hmore)),
      hbehind.span]
    rfl

theorem laid_of_scanFrom (h : scanFrom start column (split cs) = .ok ts)
    (hbehind : start.Behind pre column) : Laid pre cs ts := by
  -- The induction is on the length, since a token may take any number of characters.
  induction hlen : cs.length using Nat.strong_induction_on generalizing cs pre start column ts with
  | _ n ih =>
  subst hlen
  cases cs with
  | nil =>
    rw [scanFrom_nil] at h
    cases h
    exact .nil pre
  | cons c cs =>
    by_cases hblank : isBlank c = true
    · obtain ⟨start', column', hbehind', hscan⟩ := scanFrom_isBlank cs hblank hbehind
      rw [hscan] at h
      exact .blank hblank (ih _ (Nat.lt_succ_self _) h hbehind' rfl)
    · by_cases hc : c = '#'
      · subst hc
        by_cases hline : '\n' ∈ cs
        · obtain ⟨text, rest, rfl, htext⟩ := List.eq_append_cons_of_mem hline
          have hwords : '\n' ∉ '#' :: text := by simpa using htext
          have hbehind' := hbehind.append hwords
          rw [scanFrom_comment htext, scanFrom_newline] at h
          exact .comment htext (ih _ (by simp; omega) h hbehind'.newline rfl)
        · rw [scanFrom_lastComment hline] at h
          cases h
          exact .lastComment hline
      · cases hread : lexeme c (lineRest cs) with
        | error cause =>
          rw [scanFrom_unread start column (Bool.eq_false_iff.2 hblank) hc hread] at h
          cases h
        | ok r =>
          obtain ⟨kind, n⟩ := r
          obtain ⟨-, more, rest, htext, rfl, hspells⟩ := spells_of_lexeme hread
          have hpre : more <+: lineRest cs := ⟨rest, htext.symm⟩
          have hmore : '\n' ∉ more := fun hm => newline_not_mem_lineRest cs (hpre.subset hm)
          obtain ⟨cs, rfl⟩ := hpre.trans (lineRest_isPrefix cs)
          have hblank := Bool.eq_false_iff.2 hblank
          rw [lineRest_append hmore (.inr hspells.closed)] at hread
          rw [scanFrom_token hblank hc hmore hread] at h
          obtain ⟨tokens, hscan, rfl⟩ := map_eq_ok h
          rw [hbehind.span]
          have hlt : cs.length < (c :: (more ++ cs)).length := by
            rw [List.length_cons, List.length_append]
            omega
          exact .token hblank hc hmore hread
            (ih _ hlt hscan (hbehind.append (newline_not_mem_cons hblank hmore)) rfl)

theorem eq_nil_of_byteSize {text : List Char} (h : 0 = byteSize text) : text = [] := by
  cases text with
  | nil => rfl
  | cons c text =>
    rw [byteSize] at h
    have := c.utf8Size_pos
    omega

/-- The last line ends with the end of the file. -/
theorem scanLines_last (hbehind : start.Behind pre 0) (hcs : '\n' ∉ cs) :
    scanLines start [cs] = (scanFrom start 0 [cs]).map (· ++ [endBehind (pre ++ cs)]) := by
  have hend : endBehind (pre ++ cs) = ⟨.endOfFile, ⟨start.offset + byteSize cs,
      start.offset + byteSize cs, start.number, byteSize (dropReturn cs) + 1⟩⟩ := by
    have hoffset := hbehind.offset
    rw [Nat.add_zero] at hoffset
    rw [endBehind, byteSize_append, lastLine_append hcs, eq_nil_of_byteSize hbehind.column,
      List.count_append, List.count_eq_zero.2 hcs, hoffset, hbehind.number]
    rfl
  rw [hend, scanLines, scanFrom]
  cases scanLine start 0 (dropReturn cs) with
  | error e => rfl
  | ok tokens => simp [scanFrom, Except.map]

/-- The lines end with the end of the file. -/
theorem scanLines_eq (hbehind : start.Behind pre 0) :
    scanLines start (split cs) = (scanFrom start 0 (split cs)).map (· ++ [endBehind (pre ++ cs)]) := by
  induction hlen : cs.length using Nat.strong_induction_on generalizing cs pre start with
  | _ n ih =>
  by_cases hline : '\n' ∈ cs
  · obtain ⟨line, more, rfl, hfirst⟩ := List.eq_append_cons_of_mem hline
    obtain ⟨next, others, hnext⟩ := List.exists_cons_of_ne_nil (split_ne_nil more)
    have hrest := ih more.length (by rw [← hlen]; simp; omega) (hbehind.append hfirst).newline rfl
    rw [Nat.zero_add, List.append_assoc, List.append_assoc, List.singleton_append] at hrest
    rw [hnext] at hrest
    rw [split_line hfirst, hnext, scanLines, scanFrom]
    cases scanLine start 0 (dropReturn line) with
    | error e => rfl
    | ok tokens =>
      simp only [Nat.add_zero, hrest]
      cases scanFrom ⟨start.number + 1, start.offset + byteSize line + 1⟩ 0 (next :: others) with
      | error e => rfl
      | ok later => simp [Except.map]
  · rw [split_of_newline_not_mem hline, scanLines_last hbehind hline]

/-- A source is scanned to tokens exactly if it is laid out as them. -/
theorem scanText_iff_laid {source : List Char} {tokens : List (Token String)} :
    scanText source = .ok tokens ↔
      ∃ body, Laid [] source body ∧ tokens = body ++ [endBehind source] := by
  rw [scanText, scanLines_eq .nil]
  constructor
  · intro h
    obtain ⟨body, hbody, rfl⟩ := map_eq_ok h
    exact ⟨body, laid_of_scanFrom hbody .nil, rfl⟩
  · rintro ⟨body, hbody, rfl⟩
    rw [scanFrom_of_laid hbody .nil]
    rfl

end laid

end Token

end Scriptlet
