import Scriptlet.Proofs.Scanning.Parting
import Scriptlet.Proofs.Scanning.Positions

/-!
# Where scanning fails

`Token.Reaches pre cs ts before rest` is a walk through a text that need not come to its end: behind
`pre`, the text `cs` consists of blanks, comments and the tokens `ts` up to a place, with `before` in
front of the place and `rest` behind it. Scanning fails exactly where a walk reaches a text that is not
a token. Such a walk depends neither on what is cut off at its place (`Token.laid_of_reaches`) nor on
what stands behind the line of the place (`Token.reaches_congr`).

Main statement: `Token.scan_error_first_unread`.
-/

namespace Scriptlet

open Text

namespace Token

/-- Behind a text, another one consists of blanks, comments and the given tokens up to a place. -/
inductive Reaches : List Char → List Char → List (Token String) → List Char → List Char → Prop where
  | here (pre cs : List Char) : Reaches pre cs [] pre cs
  | blank {pre cs before rest : List Char} {c : Char} {ts : List (Token String)} (hc : isBlank c = true)
      (h : Reaches (pre ++ [c]) cs ts before rest) : Reaches pre (c :: cs) ts before rest
  | comment {pre text cs before rest : List Char} {ts : List (Token String)} (htext : '\n' ∉ text)
      (h : Reaches (pre ++ '#' :: text ++ ['\n']) cs ts before rest) :
      Reaches pre ('#' :: (text ++ '\n' :: cs)) ts before rest
  | token {pre more cs before rest : List Char} {c : Char} {kind : Kind String}
      {ts : List (Token String)} (hblank : isBlank c = false) (hc : c ≠ '#') (hmore : '\n' ∉ more)
      (hread : lexeme c (more ++ lineRest cs) = .ok (kind, more.length))
      (h : Reaches (pre ++ c :: more) cs ts before rest) :
      Reaches pre (c :: (more ++ cs)) (⟨kind, .behind pre (c :: more)⟩ :: ts) before rest

/-- A text that begins with no blank, no comment and no token, and why. -/
def Unread (cause : Cause) (rest : List Char) : Prop :=
  ∃ c cs, rest = c :: cs ∧ isBlank c = false ∧ c ≠ '#' ∧ lexeme c (lineRest cs) = .error cause

section reaches

variable {pre cs before rest : List Char} {ts : List (Token String)} {start : LineStart} {column : Nat}

/-- What a walk passed is the text up to its place. -/
theorem Reaches.split (h : Reaches pre cs ts before rest) :
    ∃ body, cs = body ++ rest ∧ before = pre ++ body := by
  induction h with
  | here pre cs => exact ⟨[], rfl, (List.append_nil pre).symm⟩
  | @blank pre cs before rest c ts _ _ ih =>
    obtain ⟨body, rfl, rfl⟩ := ih
    exact ⟨c :: body, rfl, by simp⟩
  | @comment pre text cs before rest ts _ _ ih =>
    obtain ⟨body, rfl, rfl⟩ := ih
    exact ⟨'#' :: (text ++ '\n' :: body), by simp, by simp⟩
  | @token pre more cs before rest c kind ts _ _ _ _ _ ih =>
    obtain ⟨body, rfl, rfl⟩ := ih
    exact ⟨c :: (more ++ body), by simp, by simp⟩

/-- Scanning fails where a walk reaches a text that is not a token. -/
theorem scanFrom_of_reaches {cause : Cause} (h : Reaches pre cs ts before rest)
    (hrest : Unread cause rest) (hbehind : start.Behind pre column) :
    scanFrom start column (Text.split cs) = .error ⟨cause, .behind before []⟩ := by
  induction h generalizing start column with
  | here pre cs =>
    obtain ⟨c, cs, rfl, hblank, hc, hread⟩ := hrest
    have hspan := hbehind.span []
    rw [byteSize] at hspan
    rw [scanFrom_unread start column hblank hc hread, hspan]
  | blank hc _ ih =>
    obtain ⟨start', column', hbehind', hscan⟩ := scanFrom_isBlank _ hc hbehind
    rw [hscan, ih hrest hbehind']
  | @comment pre text cs before rest ts htext _ ih =>
    have hline : '\n' ∉ '#' :: text := by simpa using htext
    have hbehind' := hbehind.append hline
    rw [scanFrom_comment htext, scanFrom_newline, ih hrest hbehind'.newline]
  | token hblank hc hmore hread _ ih =>
    rw [scanFrom_token hblank hc hmore hread,
      ih hrest (hbehind.append (newline_not_mem_cons hblank hmore))]
    rfl

theorem map_eq_error {ε α β : Type} {f : α → β} {x : Except ε α} {e : ε} (h : x.map f = .error e) :
    x = .error e := by
  cases x with
  | error e' =>
    cases h
    rfl
  | ok a => cases h

/-- Scanning fails only where a walk reaches a text that is not a token. -/
theorem reaches_of_scanFrom {e : Error} (h : scanFrom start column (Text.split cs) = .error e)
    (hbehind : start.Behind pre column) :
    ∃ ts before rest, Reaches pre cs ts before rest ∧ Unread e.cause rest ∧
      e.span = .behind before [] := by
  -- The induction is on the length, since a token may take any number of characters.
  induction hlen : cs.length using Nat.strong_induction_on generalizing cs pre start column with
  | _ n ih =>
  subst hlen
  cases cs with
  | nil =>
    rw [scanFrom_nil] at h
    cases h
  | cons c cs =>
    by_cases hblank : isBlank c = true
    · obtain ⟨start', column', hbehind', hscan⟩ := scanFrom_isBlank cs hblank hbehind
      rw [hscan] at h
      obtain ⟨ts, before, rest, hreaches, hrest⟩ := ih _ (Nat.lt_succ_self _) h hbehind' rfl
      exact ⟨ts, before, rest, .blank hblank hreaches, hrest⟩
    · by_cases hc : c = '#'
      · subst hc
        by_cases hline : '\n' ∈ cs
        · obtain ⟨text, more, rfl, htext⟩ := List.eq_append_cons_of_mem hline
          have hwords : '\n' ∉ '#' :: text := by simpa using htext
          have hbehind' := hbehind.append hwords
          rw [scanFrom_comment htext, scanFrom_newline] at h
          obtain ⟨ts, before, rest, hreaches, hrest⟩ := ih _ (by simp; omega) h hbehind'.newline rfl
          exact ⟨ts, before, rest, .comment htext hreaches, hrest⟩
        · rw [scanFrom_lastComment hline] at h
          cases h
      · have hblank := Bool.eq_false_iff.2 hblank
        cases hread : lexeme c (lineRest cs) with
        | error cause =>
          have hspan := hbehind.span []
          rw [byteSize] at hspan
          rw [scanFrom_unread start column hblank hc hread, hspan] at h
          cases h
          exact ⟨[], pre, c :: cs, .here .., ⟨c, cs, rfl, hblank, hc, hread⟩, rfl⟩
        | ok r =>
          obtain ⟨kind, n⟩ := r
          obtain ⟨-, more, rest, htext, rfl, hspells⟩ := spells_of_lexeme hread
          have hpre : more <+: lineRest cs := ⟨rest, htext.symm⟩
          have hmore : '\n' ∉ more := fun hm => newline_not_mem_lineRest cs (hpre.subset hm)
          obtain ⟨cs, rfl⟩ := hpre.trans (lineRest_isPrefix cs)
          rw [lineRest_append hmore (.inr hspells.closed)] at hread
          rw [scanFrom_token hblank hc hmore hread] at h
          have hlt : cs.length < (c :: (more ++ cs)).length := by
            rw [List.length_cons, List.length_append]
            omega
          obtain ⟨ts, before, rest, hreaches, hrest⟩ := ih _ hlt (map_eq_error h)
            (hbehind.append (newline_not_mem_cons hblank hmore)) rfl
          exact ⟨_, before, rest, .token hblank hc hmore hread hreaches, hrest⟩

/-! ## Cutting a text at the place of a walk -/

/-- The text in front of a place is parted from the text behind it. -/
theorem Reaches.parted (h : Reaches pre cs ts before rest) (hpre : Parted pre cs) :
    Parted before rest := by
  induction h with
  | here => exact hpre
  | @blank pre cs before rest c ts hc _ ih =>
    refine ih (parted_of_getLast? List.getLast?_concat ?_)
    rw [Bool.eq_false_iff]
    intro hname
    have hsolid := isSolid_of_isNameChar hname
    simp [isSolid, hc] at hsolid
  | comment _ _ ih => exact ih (parted_of_getLast? List.getLast?_concat (by decide))
  | @token pre more cs before rest c kind ts _ _ _ hread _ ih =>
    refine ih ((parted_append (List.cons_ne_nil c more)).2 fun x d hx hd hname => ?_)
    by_contra hno
    rw [Bool.not_eq_false] at hno
    -- A name character that follows the token would stand on its line.
    obtain ⟨cs, rfl⟩ : ∃ more, cs = d :: more := List.head?_eq_some_iff.1 hd
    have hsolid := isSolid_of_isNameChar hno
    have hblank : isBlank d = false := by
      simp only [isSolid, Bool.and_eq_true, Bool.not_eq_true'] at hsolid
      exact hsolid.1
    rw [lineRest_cons hblank] at hread
    rw [parted_of_lexeme hread x d hx rfl hname] at hno
    cases hno

/-- A line that is cut in front of a solid character is the line without what is cut off, or without
the carriage return that then is at its end. -/
theorem lineRest_cut (body : List Char) {c : Char} (hblank : isBlank c = false) (cs : List Char) :
    ∃ b, lineRest (body ++ c :: cs) = lineRest body ++ b ∧
      ∀ d, b.head? = some d → isNameChar d = true → lineRest body = body ∧ d = c := by
  by_cases hline : '\n' ∈ body
  · obtain ⟨line, more, rfl, hfirst⟩ := List.eq_append_cons_of_mem hline
    refine ⟨[], ?_, nofun⟩
    rw [List.append_nil, List.append_assoc, lineRest, lineRest, takeWhile_newline_append hfirst,
      takeWhile_newline_append hfirst]
    simp
  · have htake : (c :: cs).takeWhile (· ≠ '\n') ≠ [] := by
      have hne : c ≠ '\n' := fun hc => by rw [hc, isBlank_newline] at hblank; cases hblank
      simp [hne]
    have hbody : lineRest body = dropReturn body := by
      have := takeWhile_newline_append hline []
      rw [List.append_nil] at this
      rw [lineRest, this]
      simp
    rw [lineRest_append hline (.inl htake), lineRest_cons hblank, hbody]
    by_cases hreturn : body.getLast? = some '\r'
    · obtain ⟨init, rfl⟩ := List.getLast?_eq_some_iff.1 hreturn
      refine ⟨'\r' :: c :: lineRest cs, ?_, fun d hd hname => ?_⟩
      · rw [dropReturn, if_pos hreturn, List.dropLast_concat, List.append_assoc]
        rfl
      · cases hd
        exact absurd hname (by decide)
    · rw [dropReturn, if_neg hreturn]
      exact ⟨c :: lineRest cs, rfl, fun d hd _ => ⟨rfl, (Option.some.inj hd).symm⟩⟩

/-- Up to the place of a walk the text consists of the tokens that the walk passed. -/
theorem laid_of_reaches (h : Reaches pre cs ts before rest) {cause : Cause} (hrest : Unread cause rest)
    (hparted : Parted before rest) {body : List Char} (hbody : cs = body ++ rest) : Laid pre body ts := by
  induction h generalizing body with
  | here pre cs =>
    rw [List.self_eq_append_left.1 hbody]
    exact .nil pre
  | @blank pre cs before rest c ts hc h ih =>
    obtain ⟨body', rfl, -⟩ := h.split
    rw [← List.cons_append, List.append_left_inj] at hbody
    subst hbody
    exact .blank hc (ih hrest hparted rfl)
  | @comment pre text cs before rest ts htext h ih =>
    obtain ⟨body', rfl, -⟩ := h.split
    have heq : body = '#' :: (text ++ '\n' :: body') := by
      refine (List.append_left_inj rest).1 ?_
      rw [← hbody]
      simp
    subst heq
    exact .comment htext (ih hrest hparted rfl)
  | @token pre more cs before rest c kind ts hblank hc hmore hread h ih =>
    obtain ⟨body', rfl, rfl⟩ := h.split
    have heq : body = c :: (more ++ body') := by
      refine (List.append_left_inj rest).1 ?_
      rw [← hbody]
      simp
    subst heq
    refine .token hblank hc hmore ?_ (ih hrest hparted rfl)
    obtain ⟨d, cs, rfl, hd, -⟩ := hrest
    obtain ⟨b, hb, hhead⟩ := lineRest_cut body' hd cs
    rw [hb] at hread
    refine lexeme_of_parted hread fun x e hx he hname => ?_
    by_contra hno
    rw [Bool.not_eq_false] at hno
    obtain ⟨hline, rfl⟩ := hhead e he hno
    rw [hline] at hx
    have hlast : (pre ++ c :: more ++ body').getLast? = some x := by
      rw [List.append_assoc, List.cons_append, List.getLast?_append_of_ne_nil _ (List.cons_ne_nil _ _), hx]
    rw [hparted x e hlast rfl hname] at hno
    cases hno

/-! ## Going on differently behind the line of a place -/

/-- Two texts that begin with no line end and go on in the same way on their line do so behind any
other text. -/
theorem lineRest_append_congr (body : List Char) {rest' : List Char} (hne : lineRest rest ≠ [])
    (hline : lineRest rest' = lineRest rest) : lineRest (body ++ rest') = lineRest (body ++ rest) := by
  have htake : ∀ r, lineRest r ≠ [] → r.takeWhile (· ≠ '\n') ≠ [] := by
    intro r hr hnil
    rw [lineRest, hnil] at hr
    exact hr rfl
  by_cases hmem : '\n' ∈ body
  · obtain ⟨line, more, rfl, hfirst⟩ := List.eq_append_cons_of_mem hmem
    rw [List.append_assoc, List.append_assoc, lineRest, lineRest, takeWhile_newline_append hfirst,
      takeWhile_newline_append hfirst]
    simp
  · rw [lineRest_append hmem (.inl (htake rest' (hline ▸ hne))),
      lineRest_append hmem (.inl (htake rest hne)), hline]

theorem Unread.lineRest_ne_nil {cause : Cause} (h : Unread cause rest) : lineRest rest ≠ [] := by
  obtain ⟨c, cs, rfl, hblank, -⟩ := h
  rw [lineRest_cons hblank]
  exact List.cons_ne_nil _ _

/-- Whether a text begins with a token depends on its line only. -/
theorem Unread.congr {cause : Cause} {rest' : List Char} (h : Unread cause rest)
    (hline : lineRest rest' = lineRest rest) : Unread cause rest' := by
  obtain ⟨c, cs, rfl, hblank, hc, hread⟩ := h
  rw [lineRest_cons hblank] at hline
  obtain ⟨cs', rfl⟩ : ∃ cs', rest' = c :: cs' := by
    obtain ⟨more, hmore⟩ := lineRest_isPrefix rest'
    rw [hline] at hmore
    exact ⟨_, hmore.symm⟩
  rw [lineRest_cons hblank] at hline
  exact ⟨c, cs', rfl, hblank, hc, (List.cons.inj hline).2 ▸ hread⟩

/-- A walk depends on the text behind its place only as far as the line goes. -/
theorem reaches_congr (h : Reaches pre cs ts before rest) {rest' body : List Char}
    (hne : lineRest rest ≠ []) (hline : lineRest rest' = lineRest rest) (hbody : cs = body ++ rest) :
    Reaches pre (body ++ rest') ts before rest' := by
  induction h generalizing body with
  | here pre cs =>
    rw [List.self_eq_append_left.1 hbody]
    exact .here pre rest'
  | @blank pre cs before rest c ts hc h ih =>
    obtain ⟨body', rfl, -⟩ := h.split
    rw [← List.cons_append, List.append_left_inj] at hbody
    subst hbody
    exact .blank hc (ih hne hline rfl)
  | @comment pre text cs before rest ts htext h ih =>
    obtain ⟨body', rfl, -⟩ := h.split
    have heq : body = '#' :: (text ++ '\n' :: body') := by
      refine (List.append_left_inj rest).1 ?_
      rw [← hbody]
      simp
    subst heq
    have := ih hne hline rfl
    rw [List.cons_append, List.append_assoc]
    exact .comment htext this
  | @token pre more cs before rest c kind ts hblank hc hmore hread h ih =>
    obtain ⟨body', rfl, rfl⟩ := h.split
    have heq : body = c :: (more ++ body') := by
      refine (List.append_left_inj rest).1 ?_
      rw [← hbody]
      simp
    subst heq
    rw [← lineRest_append_congr body' hne hline] at hread
    rw [List.cons_append, List.append_assoc]
    exact .token hblank hc hmore hread (ih hne hline rfl)

end reaches

/-! ## Lines that agree -/

section lines

variable {before rest source' : List Char}

/-- A text whose first lines are those of another one, up to the line that a place is on, begins as
that one does up to the place, and goes on in the same way on the line. -/
theorem eq_append_of_take_split
    (h : (Text.split source').take (1 + before.count '\n') =
      (Text.split (before ++ rest)).take (1 + before.count '\n')) :
    ∃ rest', source' = before ++ rest' ∧ lineRest rest' = lineRest rest := by
  rw [Nat.add_comm] at h
  induction before generalizing source' with
  | nil =>
    rw [split_eq source', split_eq ([] ++ rest), List.take_succ_cons, List.take_succ_cons] at h
    refine ⟨source', rfl, ?_⟩
    rw [lineRest, (List.cons.inj h).1]
    rfl
  | cons c before ih =>
    by_cases hc : c = '\n'
    · subst hc
      rw [List.count_cons_self, List.cons_append, Text.split, if_pos rfl, split_eq source',
        List.take_succ_cons, List.take_succ_cons, List.cons.injEq] at h
      obtain ⟨hfirst, hothers⟩ := h
      have hsource := List.takeWhile_append_dropWhile (p := (· ≠ '\n')) (l := source')
      rw [hfirst, List.nil_append] at hsource
      rw [hsource] at hothers
      cases source' with
      | nil =>
        obtain ⟨next, others, hnext⟩ := List.exists_cons_of_ne_nil (split_ne_nil (before ++ rest))
        rw [hnext] at hothers
        cases hothers
      | cons d more =>
        have hd : d = '\n' := by
          by_contra hne
          simp [hne] at hfirst
        obtain ⟨rest', rfl, hline⟩ := ih hothers
        exact ⟨rest', by rw [hd]; rfl, hline⟩
    · rw [List.count_cons_of_ne hc, List.cons_append, split_eq source', split_eq (c :: (before ++ rest)),
        List.takeWhile_cons_of_pos (by simpa using hc), List.dropWhile_cons_of_pos (by simpa using hc),
        List.take_succ_cons, List.take_succ_cons, List.cons.injEq] at h
      obtain ⟨hfirst, hothers⟩ := h
      cases source' with
      | nil => cases hfirst
      | cons d more =>
        have hd : d ≠ '\n' := by
          rintro rfl
          simp at hfirst
        rw [List.takeWhile_cons_of_pos (by simpa using hd), List.cons.injEq] at hfirst
        rw [List.dropWhile_cons_of_pos (by simpa using hd)] at hothers
        have hmore : (Text.split more).take (before.count '\n' + 1) =
            (Text.split (before ++ rest)).take (before.count '\n' + 1) := by
          rw [split_eq more, split_eq (before ++ rest), List.take_succ_cons, List.take_succ_cons,
            hfirst.2, hothers]
        obtain ⟨rest', rfl, hline⟩ := ih hmore
        exact ⟨rest', by rw [hfirst.1]; rfl, hline⟩

end lines

/-! ## Sources that are not scanned -/

/-- What an error tells about a source that is cut at its place. -/
structure FailsAt (e : Error) (before rest : String) : Prop where
  /-- The error is in front of a character, with the line and the column of this character. -/
  place : e.span = ⟨before.utf8ByteSize, before.utf8ByteSize, 1 + before.toList.count '\n',
    1 + (String.ofList (lastLine before.toList)).utf8ByteSize⟩
  /-- What stands there is no blank, no comment and no token. -/
  unread : Unread e.cause rest.toList
  /-- The text in front of it is scanned, to tokens that end there at the latest. -/
  scanned : ∃ tokens pool, scan before = .ok (tokens, pool) ∧ ∀ t ∈ tokens, t.span.stop ≤ e.span.start
  /-- The error depends on its line and on what precedes it only. -/
  agreed : ∀ rest' : String, lineRest rest'.toList = lineRest rest.toList →
    scan (before ++ rest') = .error e

theorem scan_eq_error {source : String} {e : Error} :
    scan source = .error e ↔ scanText source.toList = .error e := by
  rw [scan]
  cases scanText source.toList <;> simp [Except.map]

/-- A walk to a text that is not a token is what an error tells. -/
theorem failsAt_of_reaches {ts : List (Token String)} {before rest : List Char} {cause : Cause}
    (h : Reaches [] (before ++ rest) ts before rest) (hrest : Unread cause rest) :
    FailsAt ⟨cause, .behind before []⟩ (.ofList before) (.ofList rest) where
  place := by
    rw [String.toList_ofList, ← byteSize_eq, ← byteSize_eq, Span.behind, byteSize, Nat.add_zero]
  unread := by
    rw [String.toList_ofList]
    exact hrest
  scanned := by
    have hlaid := laid_of_reaches h hrest (h.parted (parted_nil _)) rfl
    have hscan := scanText_iff_laid.2 ⟨ts, hlaid, rfl⟩
    refine ⟨_, _, by rw [scan, String.toList_ofList, hscan]; rfl, fun t ht => ?_⟩
    have hspan := List.mem_map_of_mem (f := Token.span) ht
    rw [spans_internAll, List.map_append, List.mem_append, List.mem_map, List.map_singleton,
      List.mem_singleton] at hspan
    rcases hspan with ⟨s, hs, hst⟩ | hend
    · obtain ⟨-, pre, text, behind, heq, -, -, -, hs⟩ := place_of_laid hlaid s hs
      rw [← hst, hs]
      change byteSize pre + byteSize text ≤ byteSize before
      rw [List.nil_append] at heq
      rw [heq, byteSize_append, byteSize_append]
      omega
    · rw [hend]
      exact Nat.le_refl _
  agreed rest' hline := by
    rw [String.toList_ofList] at hline
    rw [scan_eq_error, String.toList_append, String.toList_ofList, scanText, scanLines_eq .nil,
      scanFrom_of_reaches (reaches_congr h hrest.lineRest_ne_nil hline rfl) (hrest.congr hline) .nil]
    rfl

/-- A source that is not scanned is cut by its error into tokens and a text that begins with none. Any
source with the same lines up to that of the error has this error. -/
theorem scan_error_first_unread {source : String} {e : Error} (h : scan source = .error e) :
    (∃ before rest, source = before ++ rest ∧ FailsAt e before rest) ∧
    ∀ source' : String, (Text.split source'.toList).take e.span.line =
      (Text.split source.toList).take e.span.line → scan source' = .error e := by
  rw [scan_eq_error, scanText, scanLines_eq .nil] at h
  obtain ⟨ts, before, rest, hreaches, hrest, hspan⟩ := reaches_of_scanFrom (map_eq_error h) .nil
  obtain ⟨body, hbody, hbefore⟩ := hreaches.split
  rw [List.nil_append] at hbefore
  subst hbefore
  rw [hbody] at hreaches
  have hfails := failsAt_of_reaches hreaches hrest
  rw [← hspan] at hfails
  constructor
  · refine ⟨.ofList before, .ofList rest, ?_, hfails⟩
    rw [← String.ofList_append, ← hbody, String.ofList_toList]
  · intro source' hlines
    rw [hspan, hbody] at hlines
    obtain ⟨rest', hsource, hline⟩ := eq_append_of_take_split hlines
    have := hfails.agreed (.ofList rest') (by rwa [String.toList_ofList, String.toList_ofList])
    rwa [← String.ofList_append, ← hsource, String.ofList_toList] at this

/-- The first text that is no token is behind a wide character, on a line that ends with a carriage
return. -/
theorem scan_error_first_unread_digits : scan "x = \"é\"\r\n  1.5.2x\r\ny $" =
      .error ⟨.unexpectedChar '2', ⟨16, 16, 2, 7⟩⟩ ∧
    ∀ source' : String, (Text.split source'.toList).take 2 =
      (Text.split "x = \"é\"\r\n  1.5.2x\r\ny $".toList).take 2 →
      scan source' = .error ⟨.unexpectedChar '2', ⟨16, 16, 2, 7⟩⟩ := by
  have h : scan "x = \"é\"\r\n  1.5.2x\r\ny $" = .error ⟨.unexpectedChar '2', ⟨16, 16, 2, 7⟩⟩ := by
    decide +kernel
  exact ⟨h, (scan_error_first_unread h).2⟩

end Token

end Scriptlet
