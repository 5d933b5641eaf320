import Scriptlet.Proofs.Scanning.Interning
import Scriptlet.Proofs.Scanning.Walk

/-!
# Where tokens stand

The regions of tokens are those of texts in the source, in the order of the source and apart from each
other. Between them, in front of the first and behind the last there are only blanks and comments
(`Text.Separating`, `Text.Trailing`), so scanning loses nothing.

Main statement: `Token.scan_faithful`.
-/

namespace Scriptlet

namespace Text

/-! ## Parts of a text by byte offsets -/

/-- A text without its first bytes. -/
def dropBytes : Nat → List Char → List Char
  | _, [] => []
  | n, c :: cs => if n = 0 then c :: cs else dropBytes (n - c.utf8Size) cs

/-- The characters of a text that fit in a number of bytes. -/
def takeBytes : Nat → List Char → List Char
  | _, [] => []
  | n, c :: cs => if n < c.utf8Size then [] else c :: takeBytes (n - c.utf8Size) cs

/-- The part of a text between two byte offsets. -/
def between (cs : List Char) (start stop : Nat) : List Char :=
  takeBytes (stop - start) (dropBytes start cs)

/-- The parts of a text in front of, between and behind regions, from a byte offset on. -/
def gaps (cs : List Char) (start : Nat) : List Span → List (List Char)
  | [] => [between cs start (byteSize cs)]
  | span :: spans => between cs start span.start :: gaps cs span.stop spans

theorem dropBytes_append (pre cs : List Char) : dropBytes (byteSize pre) (pre ++ cs) = cs := by
  induction pre with
  | nil => cases cs <;> simp [byteSize, dropBytes]
  | cons c pre ih =>
    have hpos := c.utf8Size_pos
    rw [List.cons_append, dropBytes, byteSize, if_neg (by omega), Nat.add_sub_cancel_left, ih]

theorem takeBytes_append (text cs : List Char) : takeBytes (byteSize text) (text ++ cs) = text := by
  induction text with
  | nil =>
    cases cs with
    | nil => rfl
    | cons c cs => rw [List.nil_append, takeBytes, if_pos (by simpa [byteSize] using c.utf8Size_pos)]
  | cons c text ih =>
    rw [List.cons_append, takeBytes, byteSize, if_neg (by omega), Nat.add_sub_cancel_left, ih]

theorem between_append (pre text cs : List Char) :
    between (pre ++ (text ++ cs)) (byteSize pre) (byteSize (pre ++ text)) = text := by
  rw [between, dropBytes_append, byteSize_append, Nat.add_sub_cancel_left, takeBytes_append]

theorem byteSize_eq (cs : List Char) : byteSize cs = (String.ofList cs).utf8ByteSize := by
  induction cs with
  | nil => rfl
  | cons c cs ih =>
    rw [byteSize, ih, String.ofList_cons, String.utf8ByteSize_append, String.utf8ByteSize_singleton]

theorem byteSize_toList (text : String) : byteSize text.toList = text.utf8ByteSize := by
  rw [byteSize_eq, String.ofList_toList]

/-! ## Blanks and comments -/

/-- Blanks, and comments up to and with the newline that ends them. -/
inductive Separating : List Char → Prop where
  | nil : Separating []
  | blank {c : Char} {cs : List Char} (hc : isBlank c = true) (h : Separating cs) : Separating (c :: cs)
  | comment {text cs : List Char} (htext : '\n' ∉ text) (h : Separating cs) :
      Separating ('#' :: (text ++ '\n' :: cs))

/-- Blanks and comments, the last of which may run to the end of the text. -/
def Trailing (cs : List Char) : Prop :=
  ∃ gap comment, cs = gap ++ comment ∧ Separating gap ∧
    (comment = [] ∨ ∃ text, comment = '#' :: text ∧ '\n' ∉ text)

theorem Separating.append {a b : List Char} (ha : Separating a) (hb : Separating b) :
    Separating (a ++ b) := by
  induction ha with
  | nil => exact hb
  | blank hc _ ih => exact .blank hc ih
  | @comment text cs htext _ ih =>
    rw [List.cons_append, List.append_assoc, List.cons_append]
    exact .comment htext ih

theorem Separating.trailing {cs : List Char} (h : Separating cs) : Trailing cs :=
  ⟨cs, [], (List.append_nil cs).symm, h, .inl rfl⟩

end Text

open Text

namespace Token

/-! ## Texts laid out as tokens -/

section laid

variable {pre cs : List Char} {ts : List (Token String)}

/-- Every token has the region of a text in one line, and it is not the end of the file. -/
theorem place_of_laid (h : Laid pre cs ts) : ∀ t ∈ ts, t.kind ≠ .endOfFile ∧
    ∃ before text behind, pre ++ cs = before ++ text ++ behind ∧ byteSize pre ≤ byteSize before ∧
      text ≠ [] ∧ '\n' ∉ text ∧ t.span = .behind before text := by
  induction h with
  | nil pre => nofun
  | @blank pre cs c ts _ _ ih =>
    intro t ht
    obtain ⟨hkind, before, text, behind, heq, hle, hrest⟩ := ih t ht
    rw [byteSize_append] at hle
    exact ⟨hkind, before, text, behind, by rw [← heq, List.append_assoc]; rfl, by omega, hrest⟩
  | @comment pre words cs ts _ _ ih =>
    intro t ht
    obtain ⟨hkind, before, text, behind, heq, hle, hrest⟩ := ih t ht
    rw [byteSize_append, byteSize_append] at hle
    exact ⟨hkind, before, text, behind, by rw [← heq]; simp, by omega, hrest⟩
  | lastComment => nofun
  | @token pre more cs c kind ts hblank _ hmore hread _ ih =>
    intro t ht
    rcases List.mem_cons.1 ht with rfl | ht
    · exact ⟨(spells_of_lexeme hread).1, pre, c :: more, cs, by simp, Nat.le_refl _, by simp,
        newline_not_mem_cons hblank hmore, rfl⟩
    · obtain ⟨hkind, before, text, behind, heq, hle, hrest⟩ := ih t ht
      rw [byteSize_append] at hle
      exact ⟨hkind, before, text, behind, by rw [← heq]; simp, by omega, hrest⟩

/-- Every token ends before the next one starts. -/
theorem pairwise_of_laid (h : Laid pre cs ts) : ts.Pairwise fun t s => t.span.stop ≤ s.span.start := by
  induction h with
  | nil pre => exact .nil
  | blank _ _ ih => exact ih
  | comment _ _ ih => exact ih
  | lastComment => exact .nil
  | @token pre more cs c kind ts _ _ _ _ hlaid ih =>
    refine .cons (fun s hs => ?_) ih
    obtain ⟨-, before, text, behind, -, hle, -, -, hspan⟩ := place_of_laid hlaid s hs
    rw [byteSize_append] at hle
    rw [hspan]
    exact hle

/-- Around the tokens there are only blanks and comments. `gap` is what was passed since the last
token. -/
theorem gaps_of_laid (h : Laid pre cs ts) {before gap : List Char} (hpre : pre = before ++ gap)
    (hgap : Separating gap) :
    ∃ inner last, gaps (pre ++ cs) (byteSize before) (ts.map (·.span)) = inner ++ [last] ∧
      (∀ g ∈ inner, Separating g) ∧ Trailing last := by
  induction h generalizing before gap with
  | nil pre =>
    subst hpre
    refine ⟨[], gap, ?_, nofun, hgap.trailing⟩
    rw [List.map_nil, gaps, List.append_nil, List.nil_append]
    have := between_append before gap []
    rw [List.append_nil] at this
    rw [this]
  | @blank pre cs c ts hc _ ih =>
    have hpre' : pre ++ [c] = before ++ (gap ++ [c]) := by rw [hpre, List.append_assoc]
    have := ih hpre' (hgap.append (.blank hc .nil))
    rwa [List.append_assoc] at this
  | @comment pre words cs ts hwords _ ih =>
    have hpre' : pre ++ '#' :: words ++ ['\n'] = before ++ (gap ++ '#' :: (words ++ ['\n'])) := by
      rw [hpre]
      simp
    have := ih hpre' (hgap.append (.comment hwords .nil))
    simpa using this
  | @lastComment pre words hwords =>
    subst hpre
    refine ⟨[], gap ++ '#' :: words, ?_, nofun, gap, '#' :: words, rfl, hgap, .inr ⟨words, rfl, hwords⟩⟩
    rw [List.map_nil, gaps, List.append_assoc, List.nil_append]
    have := between_append before (gap ++ '#' :: words) []
    rw [List.append_nil] at this
    rw [this]
  | @token pre more cs c kind ts _ _ _ _ _ ih =>
    have hpre' : pre ++ c :: more = (pre ++ c :: more) ++ [] := (List.append_nil _).symm
    obtain ⟨inner, last, hgaps, hinner, hlast⟩ := ih hpre' .nil
    refine ⟨gap :: inner, last, ?_, List.forall_mem_cons.2 ⟨hgap, hinner⟩, hlast⟩
    rw [byteSize_append, List.append_assoc, List.cons_append] at hgaps
    rw [List.map_cons, gaps, List.cons_append, ← hgaps]
    congr 1
    subst hpre
    have := between_append before gap (c :: (more ++ cs))
    rwa [← List.append_assoc] at this

end laid

/-! ## Scanned sources -/

/-- The tokens of a source stand where they are laid out, in its order, with the end of the file behind
them. -/
theorem scan_places {source : String} {tokens : List (Token Symbol)} {pool : Pool}
    (h : scan source = .ok (tokens, pool)) :
    ∃ body last, tokens = body ++ [last] ∧ last.kind = .endOfFile ∧
      last.span = (endBehind source.toList).span ∧
      (∀ t ∈ body, t.kind ≠ .endOfFile ∧ ∃ before text behind,
        source.toList = before ++ text ++ behind ∧ text ≠ [] ∧ '\n' ∉ text ∧
        t.span = .behind before text) ∧
      body.Pairwise fun t s => t.span.stop ≤ s.span.start := by
  obtain ⟨all, hscan, htokens⟩ := map_eq_ok h
  obtain ⟨ts, hlaid, rfl⟩ := scanText_iff_laid.1 hscan
  rw [internAll_append, Prod.mk.injEq] at htokens
  obtain ⟨rfl, rfl⟩ := htokens
  have hspans := spans_internAll .empty ts
  refine ⟨_, _, rfl, rfl, rfl, fun t ht => ⟨?_, ?_⟩, ?_⟩
  · exact ne_endOfFile_of_mem_internAll _ (fun t ht => (place_of_laid hlaid t ht).1) t ht
  · have hmem : t.span ∈ ts.map Token.span := hspans ▸ List.mem_map_of_mem ht
    obtain ⟨s, hs, hst⟩ := List.mem_map.1 hmem
    obtain ⟨-, before, text, behind, heq, -, hne, hline, hspan⟩ := place_of_laid hlaid s hs
    exact ⟨before, text, behind, heq, hne, hline, hst.symm.trans hspan⟩
  · have hordered := (pairwise_of_laid hlaid).map (S := fun a b : Span => a.stop ≤ b.start)
      Token.span fun _ _ h => h
    rw [← hspans] at hordered
    exact List.pairwise_map.1 hordered

/-- What the tokens of a source tell about it. -/
structure Faithful {τ : Type} (source : String) (body : List (Token τ)) (last : Token τ) : Prop where
  /-- The end of the file comes last, behind the whole source. -/
  ends : last.kind = .endOfFile ∧ last.span.start = source.utf8ByteSize ∧
    last.span.stop = source.utf8ByteSize
  /-- No other token is the end of the file, or empty. -/
  filled : ∀ t ∈ body, t.kind ≠ .endOfFile ∧ t.span.start < t.span.stop
  /-- Regions are in the order of the source, and disjoint. -/
  ordered : (body ++ [last]).Pairwise fun t s => t.span.stop ≤ s.span.start
  /-- A region is that of a text in one line, and tells its line and column. -/
  placed : ∀ t ∈ body, ∃ before text behind : String, source = before ++ text ++ behind ∧
    '\n' ∉ text.toList ∧ t.span.start = before.utf8ByteSize ∧
    t.span.stop = (before ++ text).utf8ByteSize ∧
    t.span.line = 1 + before.toList.count '\n' ∧
    t.span.column = 1 + (String.ofList (lastLine before.toList)).utf8ByteSize
  /-- Around the tokens there are only blanks and comments. -/
  apart : ∃ inner final, gaps source.toList 0 (body.map (·.span)) = inner ++ [final] ∧
    (∀ gap ∈ inner, Separating gap) ∧ Trailing final

/-- Scanning tells faithfully where tokens stand, and loses nothing but blanks and comments. -/
theorem scan_faithful {source : String} {tokens : List (Token Symbol)} {pool : Pool}
    (h : scan source = .ok (tokens, pool)) :
    ∃ body last, tokens = body ++ [last] ∧ Faithful source body last := by
  obtain ⟨all, hscan, htokens⟩ := map_eq_ok h
  obtain ⟨ts, hlaid, rfl⟩ := scanText_iff_laid.1 hscan
  rw [internAll_append, Prod.mk.injEq] at htokens
  obtain ⟨rfl, rfl⟩ := htokens
  have hsize : byteSize source.toList = source.utf8ByteSize := by
    rw [byteSize_eq, String.ofList_toList]
  have hspan : ∀ t ∈ (internAll .empty ts).1, ∃ s ∈ ts, s.span = t.span := fun t ht => by
    have := List.mem_map_of_mem (f := Token.span) ht
    rwa [spans_internAll, List.mem_map] at this
  have hplace : ∀ t ∈ (internAll .empty ts).1, ∃ before text behind,
      source.toList = before ++ text ++ behind ∧ text ≠ [] ∧ '\n' ∉ text ∧ t.span = .behind before text := by
    intro t ht
    obtain ⟨s, hs, hst⟩ := hspan t ht
    obtain ⟨-, before, text, behind, heq, -, hne, hline, hs⟩ := place_of_laid hlaid s hs
    exact ⟨before, text, behind, heq, hne, hline, hst ▸ hs⟩
  refine ⟨_, _, rfl, ⟨rfl, hsize, hsize⟩, fun t ht => ⟨?_, ?_⟩, ?_, fun t ht => ?_, ?_⟩
  · exact ne_endOfFile_of_mem_internAll _ (fun s hs => (place_of_laid hlaid s hs).1) t ht
  · obtain ⟨before, text, behind, -, hne, -, ht⟩ := hplace t ht
    have hpos : byteSize text ≠ 0 := fun h0 => hne (eq_nil_of_byteSize h0.symm)
    rw [ht]
    exact Nat.lt_add_of_pos_right (Nat.pos_of_ne_zero hpos)
  · refine List.pairwise_append.2 ⟨?_, List.pairwise_singleton _ _, fun t ht s hs => ?_⟩
    · have := (pairwise_of_laid hlaid).map (S := fun a b : Span => a.stop ≤ b.start) Token.span
        fun _ _ h => h
      rw [← spans_internAll .empty] at this
      exact List.pairwise_map.1 this
    · obtain ⟨before, text, behind, heq, -, -, ht⟩ := hplace t ht
      cases List.mem_singleton.1 hs
      rw [ht]
      change byteSize before + byteSize text ≤ byteSize source.toList
      rw [heq, byteSize_append, byteSize_append]
      omega
  · obtain ⟨before, text, behind, heq, -, hline, ht⟩ := hplace t ht
    refine ⟨.ofList before, .ofList text, .ofList behind, ?_, ?_, ?_⟩
    · rw [← String.ofList_append, ← String.ofList_append, ← heq, String.ofList_toList]
    · rwa [String.toList_ofList]
    · rw [← String.ofList_append, ← byteSize_eq, ← byteSize_eq, ← byteSize_eq, String.toList_ofList,
        byteSize_append, ht]
      exact ⟨rfl, rfl, rfl, rfl⟩
  · rw [spans_internAll]
    have hstart : ([] : List Char) = [] ++ [] := rfl
    exact gaps_of_laid hlaid hstart .nil

/-- Two lines with wide characters, a carriage return and a comment that the end of the file ends. -/
theorem scan_faithful_lines : ∃ tokens pool, scan "x = \"é\"\r\n  y # ü" = .ok (tokens, pool) ∧
    ∃ body last, tokens = body ++ [last] ∧ Faithful "x = \"é\"\r\n  y # ü" body last := by
  have h : scan "x = \"é\"\r\n  y # ü" = .ok
      ([⟨.name 0, ⟨0, 1, 1, 1⟩⟩, ⟨.operator .equal, ⟨2, 3, 1, 3⟩⟩, ⟨.literal (.text 1), ⟨4, 8, 1, 5⟩⟩,
        ⟨.name 2, ⟨12, 13, 2, 3⟩⟩, ⟨.endOfFile, ⟨18, 18, 2, 9⟩⟩], ⟨#["x", "é", "y"]⟩) := by
    decide +kernel
  exact ⟨_, _, h, scan_faithful h⟩

end Token

end Scriptlet
