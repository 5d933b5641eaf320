import Scriptlet.Proofs.Scanning.Positions

/-!
# Other separators between tokens

The text of a token of a scanned source writes its kind (`Token.Writes`): it does so in front of
anything apart from it. Texts that write kinds can be put one behind the other with any separators
between them (`Text.spaced`), and are scanned to these kinds.

Main statement: `Token.scan_spaced`, a source scans to the same kinds and the same pool with other
separators between the texts of its tokens.
-/

namespace Scriptlet

namespace Text

/-- Texts with separators: one in front of the first text, and one behind every text. -/
def spaced (before : List Char) (texts behind : List (List Char)) : List Char :=
  before ++ (List.zipWith (· ++ ·) texts behind).flatten

/-- Separators for a number of texts: only the first and the last of them may be empty. -/
structure Separators (before : List Char) (behind : List (List Char)) (n : Nat) : Prop where
  length : behind.length = n
  first : Separating before
  others : ∀ sep ∈ behind, Separating sep
  filled : ∀ sep ∈ behind.dropLast, sep ≠ []

/-- What begins with a separator is apart. -/
theorem Separating.apart {sep : List Char} (h : Separating sep) (hne : sep ≠ []) (cs : List Char) :
    Apart (sep ++ cs) := by
  cases h with
  | nil => exact absurd rfl hne
  | blank hc _ =>
    intro d hd
    cases hd
    exact .inl hc
  | comment =>
    intro d hd
    cases hd
    exact .inr rfl

theorem Apart.lineRest {cs : List Char} (h : Apart cs) : Apart (lineRest cs) := fun d hd => by
  obtain ⟨more, hmore⟩ := List.head?_eq_some_iff.1 hd
  obtain ⟨rest, hrest⟩ := lineRest_isPrefix cs
  refine h d ?_
  rw [← hrest, hmore]
  rfl

end Text

open Text

namespace Token

/-! ## Texts that write kinds -/

/-- A text writes a kind: it begins like a token, stays in a line, and spells the kind. -/
structure Writes (kind : Kind String) (text : List Char) : Prop where
  exists_spells : ∃ c more, text = c :: more ∧ isBlank c = false ∧ c ≠ '#' ∧ '\n' ∉ more ∧
    Spells kind c more

/-- A text that was read as a token writes its kind. -/
theorem writes_of_lexeme {c : Char} {more : List Char} {kind : Kind String} (rest : List Char)
    (hblank : isBlank c = false) (hc : c ≠ '#') (hmore : '\n' ∉ more)
    (h : lexeme c (more ++ rest) = .ok (kind, more.length)) : Writes kind (c :: more) := by
  obtain ⟨-, text, others, htext, hlen, hspells⟩ := spells_of_lexeme h
  obtain ⟨rfl, -⟩ := List.append_inj htext hlen
  exact ⟨c, more, rfl, hblank, hc, hmore, hspells⟩

section laid

variable {pre cs sep text : List Char} {ts : List (Token String)} {kind : Kind String}

theorem laid_separating (h : Separating sep) (hlaid : Laid (pre ++ sep) cs ts) :
    Laid pre (sep ++ cs) ts := by
  induction h generalizing pre with
  | nil => rwa [List.append_nil] at hlaid
  | @blank c sep hc _ ih => exact .blank hc (ih (by rwa [List.append_assoc]))
  | @comment words sep hwords _ ih =>
    rw [List.cons_append, List.append_assoc]
    refine .comment hwords (ih ?_)
    rwa [List.append_assoc, List.append_assoc, List.cons_append]

theorem laid_writes (h : Writes kind text) (hcs : Apart cs) (hlaid : Laid (pre ++ text) cs ts) :
    Laid pre (text ++ cs) (⟨kind, .behind pre text⟩ :: ts) := by
  obtain ⟨c, more, rfl, hblank, hc, hmore, hspells⟩ := h.exists_spells
  exact .token hblank hc hmore (hspells.read _ hcs.lineRest) hlaid

/-- Texts that write kinds are laid out as tokens of these kinds. -/
theorem exists_laid (pre : List Char) {kinds : List (Kind String)} {texts behind : List (List Char)}
    (hwrites : List.Forall₂ Writes kinds texts) (hlen : behind.length = texts.length)
    (hseps : ∀ sep ∈ behind, Separating sep) (hfilled : ∀ sep ∈ behind.dropLast, sep ≠ []) :
    ∃ ts, Laid pre (List.zipWith (· ++ ·) texts behind).flatten ts ∧ ts.map (·.kind) = kinds := by
  induction hwrites generalizing pre behind with
  | nil => exact ⟨[], .nil pre, rfl⟩
  | @cons kind text kinds texts hkind _ ih =>
    cases behind with
    | nil => cases hlen
    | cons sep behind =>
      obtain ⟨ts, hlaid, hkinds⟩ := ih (pre ++ text ++ sep) (Nat.succ.inj hlen)
        (fun s hs => hseps s (List.mem_cons_of_mem _ hs)) fun s hs => hfilled s <| by
          cases behind with
          | nil => cases hs
          | cons next behind => exact List.mem_cons_of_mem _ hs
      refine ⟨⟨kind, .behind pre text⟩ :: ts, ?_, by rw [List.map_cons, hkinds]⟩
      rw [List.zipWith_cons_cons, List.flatten_cons, List.append_assoc]
      refine laid_writes hkind ?_ (laid_separating (hseps sep (List.mem_cons_self ..)) hlaid)
      -- Only behind the last text there may be nothing.
      by_cases hsep : sep = []
      · cases behind with
        | nil =>
          rw [List.zipWith_nil_right, hsep]
          exact apart_nil
        | cons next behind => exact absurd hsep (hfilled sep (List.mem_cons_self ..))
      · exact (hseps sep (List.mem_cons_self ..)).apart hsep _

/-- The text in the region of a token writes its kind. -/
theorem writes_of_laid (h : Laid pre cs ts) :
    List.Forall₂ Writes (ts.map (·.kind))
      (ts.map fun t => between (pre ++ cs) t.span.start t.span.stop) := by
  induction h with
  | nil pre => exact .nil
  | blank _ _ ih => rwa [List.append_assoc] at ih
  | comment _ _ ih => simpa using ih
  | lastComment => exact .nil
  | @token pre more cs c kind ts hblank hc hmore hread _ ih =>
    refine .cons ?_ (by rwa [List.append_assoc, List.cons_append] at ih)
    have hbetween := between_append pre (c :: more) cs
    rw [byteSize_append, List.cons_append] at hbetween
    change Writes kind (between _ (byteSize pre) (byteSize pre + byteSize (c :: more)))
    rw [hbetween]
    exact writes_of_lexeme _ hblank hc hmore hread

end laid

/-! ## Scanning -/

/-- Texts that write kinds are scanned to these kinds, whatever the separators between them. -/
theorem scan_of_writes {kinds : List (Kind String)} {texts behind : List (List Char)}
    {before : List Char} (hwrites : List.Forall₂ Writes kinds texts)
    (hseps : Separators before behind texts.length) :
    ∃ ts, scan (.ofList (spaced before texts behind)) =
        .ok (internAll .empty (ts ++ [endBehind (spaced before texts behind)])) ∧
      ts.map (·.kind) = kinds := by
  obtain ⟨ts, hlaid, hkinds⟩ := exists_laid ([] ++ before) hwrites hseps.length hseps.others
    hseps.filled
  refine ⟨ts, ?_, hkinds⟩
  have hscan := scanText_iff_laid.2 ⟨ts, laid_separating hseps.first hlaid, rfl⟩
  rw [scan, String.toList_ofList, spaced, hscan]
  rfl

/-- The texts of the tokens of a source, but for the end of the file. -/
def texts {τ : Type} [DecidableEq τ] (source : String) (tokens : List (Token τ)) : List (List Char) :=
  (tokens.filter fun t => t.kind ≠ .endOfFile).map fun t =>
    between source.toList t.span.start t.span.stop

/-- Interning does not change the texts. -/
theorem texts_internAll (source : String) {ts : List (Token String)} {last : Token String}
    (hts : ∀ t ∈ ts, t.kind ≠ .endOfFile) (hlast : last.kind = .endOfFile) :
    texts source (internAll .empty (ts ++ [last])).1 =
      ts.map fun t => between source.toList t.span.start t.span.stop := by
  have hbody := List.filter_eq_self.2 fun t ht =>
    decide_eq_true (ne_endOfFile_of_mem_internAll .empty hts t ht)
  have hend : ∀ pool, ((internAll pool [last]).1.filter fun t => t.kind ≠ .endOfFile) = [] := fun pool => by
    simp [internAll, hlast, Kind.intern]
  rw [texts, internAll_append, List.filter_append, hend, hbody, List.append_nil]
  have hspans := congrArg (List.map fun span => between source.toList span.start span.stop)
    (spans_internAll .empty ts)
  rwa [List.map_map, List.map_map] at hspans

/-- With other separators between the texts of its tokens, a source has the same kinds of tokens, with
the same symbols, and the same pool. -/
theorem scan_spaced {source : String} {tokens : List (Token Symbol)} {pool : Pool}
    {before : List Char} {behind : List (List Char)} (h : scan source = .ok (tokens, pool))
    (hseps : Separators before behind (texts source tokens).length) :
    ∃ tokens', scan (.ofList (spaced before (texts source tokens) behind)) = .ok (tokens', pool) ∧
      tokens'.map (·.kind) = tokens.map (·.kind) := by
  obtain ⟨all, hscan, htokens⟩ := map_eq_ok h
  obtain ⟨ts, hlaid, rfl⟩ := scanText_iff_laid.1 hscan
  have hend : (endBehind source.toList).kind = .endOfFile := rfl
  have htexts := texts_internAll source (fun t ht => (place_of_laid hlaid t ht).1) hend
  rw [← htokens] at htexts
  have hwrites := writes_of_laid hlaid
  rw [List.nil_append, ← htexts] at hwrites
  obtain ⟨ts', hscan', hkinds⟩ := scan_of_writes hwrites hseps
  have hall : ∀ rest, (ts' ++ [endBehind rest]).map (·.kind) =
      (ts ++ [endBehind source.toList]).map (·.kind) := fun rest => by
    rw [List.map_append, hkinds, List.map_append]
    rfl
  obtain ⟨hkinds', hpool⟩ := internAll_congr .empty (hall _)
  rw [← htokens] at hkinds' hpool
  exact ⟨_, hscan'.trans (congrArg Except.ok (Prod.ext rfl hpool)), hkinds'⟩

end Token

end Scriptlet
