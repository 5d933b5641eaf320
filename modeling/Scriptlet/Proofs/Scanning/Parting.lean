import Mathlib.Data.List.Basic
import Scriptlet.Proofs.Scanning.Lexemes

/-!
# A token does not depend on a text that is cut off

`Token.Parted text rest` says that no run of name characters goes on from a text into the next one. A
token is always parted from what follows it, and a text that is cut where its parts are parted still
begins with the token that it began with. The readers of numbers are the reason for the condition:
behind `1` and a dot, `5x` makes it no fraction, but `5` alone would.

Main statements: `Token.parted_of_lexeme` and `Token.lexeme_of_parted`.
-/

namespace Scriptlet.Token

/-- No run of name characters goes on from a text into what follows it. -/
def Parted (text rest : List Char) : Prop :=
  ∀ c d, text.getLast? = some c → rest.head? = some d → isNameChar c = true → isNameChar d = false

section parted

variable {text rest a b : List Char}

theorem parted_nil (rest : List Char) : Parted [] rest := by
  intro c d hc
  cases hc

theorem parted_of_atBoundary (h : atBoundary rest = true) : Parted text rest :=
  fun _ d _ hd _ => atBoundary_iff.1 h d hd

theorem parted_of_getLast? {c : Char} (hc : text.getLast? = some c) (hname : isNameChar c = false) :
    Parted text rest := by
  intro d e hd _ hd'
  rw [hc, Option.some.injEq] at hd
  rw [← hd, hname] at hd'
  cases hd'

/-- What stands in front of the last characters of a text does not matter. -/
theorem parted_append (ha : a ≠ []) : Parted (text ++ a) b ↔ Parted a b := by
  unfold Parted
  rw [List.getLast?_append_of_ne_nil _ ha]

theorem atBoundary_of_append (h : atBoundary (a ++ b) = true) : atBoundary a = true := by
  cases a with
  | nil => rfl
  | cons d a => exact h

/-- Behind a text that ends with a name character, a boundary stays one when more is parted from it. -/
theorem atBoundary_append {c : Char} (hc : text.getLast? = some c) (hname : isNameChar c = true)
    (h : atBoundary rest = true) (hparted : Parted (text ++ rest) b) : atBoundary (rest ++ b) = true := by
  cases rest with
  | nil =>
    rw [List.append_nil] at hparted
    exact atBoundary_iff.2 fun d hd => hparted c d hc hd hname
  | cons d rest => exact h

end parted

/-! ## Numbers -/

section numbers

variable {c : Char} {cs text rest more a b : List Char} {n : Nat} {kind : Kind String}

/-- The texts that numbers with a fraction or with the suffix `f` have. -/
def FloatText (text : List Char) : Prop :=
  ∃ whole fraction suffix, text = stem whole fraction ++ suffix ∧ (∀ d ∈ whole, d.isDigit = true) ∧
    (∀ d ∈ fraction, d.isDigit = true) ∧ (suffix = ['f'] ∨ suffix = [] ∧ fraction ≠ [])

/-- The texts that numbers in base sixteen have. -/
def HexadecimalText (text : List Char) : Prop :=
  ∃ x body suffix, text = '0' :: x :: (body ++ suffix) ∧ (x = 'x' ∨ x = 'X') ∧ body ≠ [] ∧
    (∀ d ∈ body, isHexDigit d = true) ∧ (suffix = [] ∨ suffix = ['u'])

theorem FloatText.ends (h : FloatText text) : ∃ c, text.getLast? = some c ∧ isNameChar c = true := by
  obtain ⟨whole, fraction, suffix, rfl, -, hfraction, hsuffix⟩ := h
  rcases hsuffix with rfl | ⟨rfl, hne⟩
  · exact ⟨'f', by simp, by decide⟩
  · refine ⟨fraction.getLast hne, ?_, isNameChar_of_isDigit (hfraction _ (List.getLast_mem hne))⟩
    have hdots : '.' :: fraction ≠ [] := List.cons_ne_nil _ _
    rw [List.append_nil, stem, if_neg (by simpa using hne), List.getLast?_append_of_ne_nil _ hdots,
      List.getLast?_cons, List.getLast?_eq_some_getLast hne]
    rfl

theorem HexadecimalText.ends (h : HexadecimalText text) :
    ∃ c, text.getLast? = some c ∧ isNameChar c = true := by
  obtain ⟨x, body, suffix, rfl, -, hne, hbody, hsuffix⟩ := h
  have hlast : ∀ tail : List Char, tail ≠ [] → ('0' :: x :: tail).getLast? = tail.getLast? :=
    fun tail htail => List.getLast?_append_of_ne_nil ['0', x] htail
  rcases hsuffix with rfl | rfl
  · refine ⟨body.getLast hne, ?_, isNameChar_of_isHexDigit (hbody _ (List.getLast_mem hne))⟩
    rw [List.append_nil, hlast body hne, List.getLast?_eq_some_getLast hne]
  · refine ⟨'u', ?_, by decide⟩
    rw [hlast _ (by simp)]
    simp

/-- A text begins with a number that has a fraction or the suffix `f` exactly if the text of one is
followed by a boundary. -/
theorem float?_isSome_iff : (float? cs).isSome = true ↔
    ∃ text rest, cs = text ++ rest ∧ FloatText text ∧ atBoundary rest = true := by
  constructor
  · intro h
    obtain ⟨whole, fraction, tail, rfl, hends⟩ := exists_stem cs
    rw [float?_stem hends] at h
    by_cases hf : tail.head? = some 'f'
    · obtain ⟨more, rfl⟩ : ∃ more, tail = 'f' :: more := List.head?_eq_some_iff.1 hf
      have hmore : atBoundary more = true := by
        by_contra hno
        rw [Bool.not_eq_true] at hno
        simp [hno] at h
      exact ⟨stem whole fraction ++ ['f'], more, by simp,
        ⟨whole, fraction, ['f'], rfl, hends.wholes, hends.fractions, .inl rfl⟩, hmore⟩
    · have hcond : fraction ≠ [] ∧ atBoundary tail = true := by
        by_contra hno
        rw [not_and_or, Decidable.not_not, Bool.not_eq_true] at hno
        rcases hno with rfl | hno
        · simp [hf] at h
        · simp [hf, hno] at h
      exact ⟨stem whole fraction, tail, rfl,
        ⟨whole, fraction, [], (List.append_nil _).symm, hends.wholes, hends.fractions,
          .inr ⟨rfl, hcond.1⟩⟩, hcond.2⟩
  · rintro ⟨text, rest, rfl, ⟨whole, fraction, suffix, rfl, hwhole, hfraction, hsuffix⟩, hrest⟩
    rcases hsuffix with rfl | ⟨rfl, hne⟩
    · have hends : StemEnds whole fraction ('f' :: rest) := ⟨hwhole, hfraction, by simp, by simp⟩
      rw [List.append_assoc, List.singleton_append, float?_stem hends]
      simp only [List.head?_cons, if_true, List.drop_succ_cons, List.drop_zero, hrest]
      split
      · simp_all
      · split <;> rfl
    · have hends : StemEnds whole fraction rest := by
        refine ⟨hwhole, hfraction, fun d hd => ?_, fun hnil => absurd hnil hne⟩
        exact not_isDigit_of_not_isNameChar (atBoundary_iff.1 hrest d hd)
      have hf : rest.head? ≠ some 'f' := head?_ne_of_atBoundary hrest (by decide)
      rw [List.append_nil, float?_stem hends]
      simp only [hf, if_false, List.drop_zero, hrest]
      split
      · simp_all
      · split <;> rfl

/-- A text begins with a number in base sixteen exactly if the text of one is followed by a
boundary. -/
theorem hexadecimal?_isSome_iff : (hexadecimal? cs).isSome = true ↔
    ∃ text rest, cs = text ++ rest ∧ HexadecimalText text ∧ atBoundary rest = true := by
  constructor
  · intro h
    obtain ⟨r, hr⟩ := Option.isSome_iff_exists.1 h
    obtain ⟨x, body, rest, rfl, hx, hne, hbody, hint⟩ := of_hexadecimal? hr
    rw [integer?_append] at hint
    by_cases hu : rest.head? = some 'u'
    · obtain ⟨more, rfl⟩ : ∃ more, rest = 'u' :: more := List.head?_eq_some_iff.1 hu
      have hmore : atBoundary more = true := by
        by_contra hno
        rw [Bool.not_eq_true] at hno
        simp [hno] at hint
      exact ⟨'0' :: x :: (body ++ ['u']), more, by simp, ⟨x, body, ['u'], rfl, hx, hne, hbody, .inr rfl⟩,
        hmore⟩
    · have hrest : atBoundary rest = true := by
        by_contra hno
        rw [Bool.not_eq_true] at hno
        simp [hu, hno] at hint
      exact ⟨'0' :: x :: body, rest, rfl, ⟨x, body, [], by simp, hx, hne, hbody, .inl rfl⟩, hrest⟩
  · rintro ⟨text, rest, rfl, ⟨x, body, suffix, rfl, hx, hne, hbody, hsuffix⟩, hrest⟩
    have hends : ∀ d, (suffix ++ rest).head? = some d → isHexDigit d = false := by
      intro d hd
      rcases hsuffix with rfl | rfl
      · have := atBoundary_iff.1 hrest d hd
        exact Bool.eq_false_iff.2 fun hh => by simp [isNameChar_of_isHexDigit hh] at this
      · cases hd
        decide
    rw [List.cons_append, List.cons_append, List.append_assoc, hexadecimal?_append hx hne hbody hends,
      integer?_append]
    rcases hsuffix with rfl | rfl
    · have hu : rest.head? ≠ some 'u' := head?_ne_of_atBoundary hrest (by decide)
      simp only [List.nil_append, hu, if_false, hrest, Bool.not_true, Bool.false_eq_true]
      split <;> rfl
    · simp only [List.singleton_append, List.head?_cons, if_true, List.drop_succ_cons, List.drop_zero,
        hrest, Bool.not_true, Bool.false_eq_true, if_false]
      split <;> rfl

/-- A number that a text begins with is not lost by what follows the text. -/
theorem begins_append {p : List Char → Prop}
    (hends : ∀ text, p text → ∃ c, text.getLast? = some c ∧ isNameChar c = true)
    (h : ∃ text rest, cs = text ++ rest ∧ p text ∧ atBoundary rest = true) (hparted : Parted cs b) :
    ∃ text rest, cs ++ b = text ++ rest ∧ p text ∧ atBoundary rest = true := by
  obtain ⟨text, rest, rfl, htext, hrest⟩ := h
  obtain ⟨c, hc, hname⟩ := hends text htext
  exact ⟨text, rest ++ b, List.append_assoc .., htext, atBoundary_append hc hname hrest hparted⟩

theorem float?_of_parted (h : float? (cs ++ b) = none) (hparted : Parted cs b) : float? cs = none := by
  by_contra hsome
  have hbegins := float?_isSome_iff.1 (Option.isSome_iff_ne_none.2 hsome)
  have := float?_isSome_iff.2 (begins_append (fun _ => FloatText.ends) hbegins hparted)
  rw [h] at this
  cases this

theorem hexadecimal?_of_parted (h : hexadecimal? (cs ++ b) = none) (hparted : Parted cs b) :
    hexadecimal? cs = none := by
  by_contra hsome
  have hbegins := hexadecimal?_isSome_iff.1 (Option.isSome_iff_ne_none.2 hsome)
  have := hexadecimal?_isSome_iff.2 (begins_append (fun _ => HexadecimalText.ends) hbegins hparted)
  rw [h] at this
  cases this

/-- A number is what the first reader finds that finds one. -/
theorem number_eq_ok_iff (hc : c.isDigit = true) : number c cs = .ok (kind, n) ↔
    (float? (c :: cs) <|> hexadecimal? (c :: cs) <|> decimal? (c :: cs)) = some (.ok (kind, n + 1)) := by
  constructor
  · intro h
    unfold number at h
    dsimp only at h
    split at h
    · next reading hreading =>
      cases reading with
      | error cause => cases h
      | ok r =>
        obtain ⟨-, text, rest, -, hlen, hne, -⟩ := readers_ok ⟨c, cs, rfl, hc⟩ hreading
        have hpos := List.length_pos_iff.2 hne
        cases h
        rw [hreading, Nat.sub_add_cancel (by omega)]
    · cases h
  · intro h
    rw [number, h]
    rfl

/-- The reader that finds a number finds it in the text that is cut, and a boundary behind it. -/
theorem number_of_parted (hc : c.isDigit = true)
    (h : number c (more ++ rest) = .ok (kind, more.length)) :
    atBoundary rest = true ∧ ∀ a b, rest = a ++ b → Parted (c :: (more ++ a)) b →
      number c (more ++ a) = .ok (kind, more.length) := by
  -- The text that a reader finds is the number, since it has its length.
  have hsame : ∀ {text behind : List Char}, c :: (more ++ rest) = text ++ behind →
      more.length + 1 = text.length → text = c :: more ∧ behind = rest := by
    intro text behind heq hlen
    rw [← List.cons_append] at heq
    have := List.append_inj heq hlen
    exact ⟨this.1.symm, this.2.symm⟩
  have hall : ∀ {a b : List Char}, rest = a ++ b → c :: (more ++ rest) = c :: (more ++ a) ++ b := by
    rintro a b rfl
    simp
  rw [number_eq_ok_iff hc] at h
  cases hfloat : float? (c :: (more ++ rest)) with
  | some r =>
    rw [hfloat] at h
    cases h
    obtain ⟨-, text, behind, heq, hbehind, hlen, -, -, hagain⟩ := float?_ok hfloat
    obtain ⟨rfl, rfl⟩ := hsame heq hlen
    refine ⟨hbehind, fun a b hab _ => ?_⟩
    rw [number_eq_ok_iff hc, ← List.cons_append, hagain a (atBoundary_of_append (hab ▸ hbehind))]
    rfl
  | none =>
    cases hhex : hexadecimal? (c :: (more ++ rest)) with
    | some r =>
      rw [hfloat, hhex] at h
      cases h
      obtain ⟨-, text, behind, heq, hbehind, hlen, -, -, hagain⟩ := hexadecimal?_ok hhex
      obtain ⟨rfl, rfl⟩ := hsame heq hlen
      refine ⟨hbehind, fun a b hab _ => ?_⟩
      obtain ⟨hnone, hsome⟩ := hagain a (atBoundary_of_append (hab ▸ hbehind))
      rw [number_eq_ok_iff hc, ← List.cons_append, hnone, hsome]
      rfl
    | none =>
      rw [hfloat, hhex] at h
      obtain ⟨-, text, behind, heq, hbehind, hlen, -, -, -, hagain⟩ := decimal?_ok ⟨c, _, rfl, hc⟩ h
      obtain ⟨rfl, rfl⟩ := hsame heq hlen
      refine ⟨hbehind, fun a b hab hparted => ?_⟩
      rw [hall hab] at hfloat hhex
      have hsome := hagain a (atBoundary_of_append (hab ▸ hbehind))
      rw [List.cons_append] at hsome
      rw [number_eq_ok_iff hc, float?_of_parted hfloat hparted, hexadecimal?_of_parted hhex hparted,
        hsome]
      rfl

end numbers

/-! ## Symbols -/

section symbols

variable {c : Char} {more rest a b : List Char} {kind : Kind String}

theorem not_isNameChar_of_mem_spelling (op : Operator) :
    ∀ d ∈ op.spelling.toList, isNameChar d = false := by
  have hall : op.spelling.toList.all (fun d => !isNameChar d) = true := by cases op <;> decide
  intro d hd
  simpa using List.all_eq_true.1 hall d hd

/-- Behind the first character of a symbol there are no name characters. -/
theorem not_isNameChar_of_symbol (h : symbol c (more ++ rest) = .ok (kind, more.length)) :
    ∀ d ∈ more, isNameChar d = false := by
  intro d hd
  obtain ⟨e, more, rfl⟩ := List.exists_cons_of_ne_nil (List.ne_nil_of_mem hd)
  unfold symbol at h
  split at h
  · next harrow =>
    simp only [List.cons_append, List.head?_cons, Bool.and_eq_true, decide_eq_true_eq,
      Option.some.injEq] at harrow
    have hnil : more = [] := by
      have := (Prod.mk.inj (Except.ok.inj h)).2
      exact List.eq_nil_of_length_eq_zero (Nat.succ.inj this).symm
    rw [hnil, harrow.2, List.mem_singleton] at hd
    rw [hd]
    decide
  · split at h
    · next op hfind =>
      have hfound := List.find?_some hfind
      have hpre := List.isPrefixOf_iff_prefix.1 hfound
      have hlen : op.spelling.toList.length = (c :: e :: more).length := by
        have := (Prod.mk.inj (Except.ok.inj h)).2
        simp only [String.length_toList, List.length_cons] at this ⊢
        omega
      have hwhole : c :: e :: more <+: c :: (e :: more ++ rest) := List.prefix_append (c :: e :: more) rest
      have heq := (List.prefix_of_prefix_length_le hpre hwhole (Nat.le_of_eq hlen)).eq_of_length hlen
      exact not_isNameChar_of_mem_spelling op d (heq ▸ List.mem_cons_of_mem _ hd)
    · split at h
      · cases h
      · cases h

/-- A symbol is found in the text that is cut anywhere behind it. -/
theorem symbol_of_append (h : symbol c (more ++ (a ++ b)) = .ok (kind, more.length)) :
    symbol c (more ++ a) = .ok (kind, more.length) := by
  have hcut : c :: (more ++ a) <+: c :: (more ++ (a ++ b)) := ⟨b, by simp⟩
  have hhead : ∀ d, (more ++ a).head? = some d → (more ++ (a ++ b)).head? = some d := by
    intro d hd
    rw [← List.append_assoc, List.head?_append, hd]
    rfl
  by_cases harrow : (c = '-' && (more ++ (a ++ b)).head? = some '>') = true
  · rw [symbol, if_pos harrow] at h
    obtain ⟨d, rfl⟩ : ∃ d, more = [d] := by
      refine List.length_eq_one_iff.1 ?_
      exact (Prod.mk.inj (Except.ok.inj h)).2.symm
    rw [symbol, if_pos (by simpa using harrow)]
    exact h
  · have hno : ¬(c = '-' && (more ++ a).head? = some '>') = true := by
      intro hcut
      simp only [Bool.and_eq_true, decide_eq_true_eq] at hcut harrow
      exact harrow ⟨hcut.1, hhead _ hcut.2⟩
    rw [symbol, if_neg harrow] at h
    rw [symbol, if_neg hno]
    -- An operator that the cut text does not begin with is not found earlier there.
    cases hfind : Operator.all.find? fun op => op.spelling.toList.isPrefixOf (c :: (more ++ (a ++ b))) with
    | some op =>
      rw [hfind] at h
      have hlen : op.spelling.toList.length ≤ (c :: (more ++ a)).length := by
        have := (Prod.mk.inj (Except.ok.inj h)).2
        simp only [String.length_toList, List.length_cons, List.length_append]
        omega
      rw [List.find?_eq_some_iff_append] at hfind
      obtain ⟨hop, before, behind, hall, hbefore⟩ := hfind
      have hself : (Operator.all.find? fun op => op.spelling.toList.isPrefixOf (c :: (more ++ a))) =
          some op := by
        rw [List.find?_eq_some_iff_append]
        refine ⟨?_, before, behind, hall, fun o ho => ?_⟩
        · rw [List.isPrefixOf_iff_prefix] at hop ⊢
          exact List.prefix_of_prefix_length_le hop hcut hlen
        · have := hbefore o ho
          rw [Bool.not_eq_true', Bool.eq_false_iff, Ne, List.isPrefixOf_iff_prefix] at this ⊢
          exact fun hpre => this (hpre.trans hcut)
      rw [hself]
      exact h
    | none =>
      rw [hfind] at h
      have hnone : (Operator.all.find? fun op => op.spelling.toList.isPrefixOf (c :: (more ++ a))) =
          none := by
        rw [List.find?_eq_none] at hfind ⊢
        intro op hop hpre
        rw [List.isPrefixOf_iff_prefix] at hpre
        exact hfind op hop (List.isPrefixOf_iff_prefix.2 (hpre.trans hcut))
      rw [hnone]
      exact h

end symbols

/-! ## Tokens -/

section lexeme

variable {c : Char} {more rest a b : List Char} {kind : Kind String}

theorem not_isNameChar_of_not_start (hstart : ¬isNameStart c = true) (hdigit : ¬c.isDigit = true) :
    isNameChar c = false := by
  rw [isNameStart_iff, not_or] at hstart
  rw [Bool.eq_false_iff, Ne, isNameChar_iff]
  rintro (halpha | hd | hline)
  · exact hstart.1 halpha
  · exact hdigit hd
  · exact hstart.2 hline

/-- A word is a whole run of name characters. -/
theorem atBoundary_of_word (h : word c (more ++ rest) = (kind, more.length)) : atBoundary rest = true := by
  rw [word, Prod.mk.injEq] at h
  have hsplit := List.takeWhile_append_dropWhile (p := isNameChar) (l := more ++ rest)
  have hrest : (more ++ rest).dropWhile isNameChar = rest := (List.append_inj hsplit h.2).2
  refine atBoundary_iff.2 fun d hd => ?_
  have := List.head?_dropWhile_not isNameChar (more ++ rest)
  rw [hrest, hd] at this
  simpa using this

/-- A quoted text ends with its quote. -/
theorem eq_quoted {quote : Char} {body behind : List Char} (h : more ++ rest = body ++ quote :: behind)
    (hlen : more.length = body.length + 1) : more = body ++ [quote] := by
  have hlen' : more.length = (body ++ [quote]).length := by
    rw [hlen, List.length_append, List.length_singleton]
  rw [← List.singleton_append, ← List.append_assoc] at h
  exact (List.append_inj h hlen').1

/-- A token is parted from what follows it. -/
theorem parted_of_lexeme (h : lexeme c (more ++ rest) = .ok (kind, more.length)) :
    Parted (c :: more) rest := by
  have hquoted : ∀ {quote : Char} {body : List Char}, isNameChar quote = false → more = body ++ [quote] →
      Parted (c :: more) rest := by
    rintro quote body hquote rfl
    refine parted_of_getLast? ?_ hquote
    rw [← List.cons_append, List.getLast?_concat]
  unfold lexeme at h
  split at h
  · exact parted_of_atBoundary (atBoundary_of_word (Except.ok.inj h))
  · next hstart =>
    split at h
    · next hdigit => exact parted_of_atBoundary (number_of_parted hdigit h).1
    · next hdigit =>
      split at h
      · obtain ⟨-, body, behind, heq, hlen, -⟩ := character_ok h
        exact hquoted (by decide) (eq_quoted heq hlen)
      · split at h
        · obtain ⟨-, body, behind, heq, hlen, -⟩ := text_ok h
          exact hquoted (by decide) (eq_quoted heq hlen)
        · intro d e hd _ hname
          have hc := not_isNameChar_of_not_start hstart hdigit
          have hall : ∀ x ∈ c :: more, isNameChar x = false :=
            List.forall_mem_cons.2 ⟨hc, not_isNameChar_of_symbol h⟩
          rw [hall d (List.mem_of_getLast? hd)] at hname
          cases hname

/-- A token is the same in front of a part of what follows it, if what is cut off is parted from the
text. -/
theorem lexeme_of_parted (h : lexeme c (more ++ (a ++ b)) = .ok (kind, more.length))
    (hparted : Parted (c :: (more ++ a)) b) : lexeme c (more ++ a) = .ok (kind, more.length) := by
  unfold lexeme at h ⊢
  split at h
  · next hstart =>
    have hword := Except.ok.inj h
    rw [if_pos hstart]
    -- The run of name characters is over where the text goes on.
    have hboundary := atBoundary_of_append (atBoundary_of_word hword)
    rw [word, Prod.mk.injEq] at hword
    have hrun : more = (more ++ (a ++ b)).takeWhile isNameChar :=
      (List.prefix_of_prefix_length_le (List.prefix_append ..) (List.takeWhile_prefix _)
        (Nat.le_of_eq hword.2.symm)).eq_of_length hword.2.symm
    have hnames : ∀ d ∈ more, isNameChar d = true := by
      intro d hd
      rw [hrun] at hd
      exact List.mem_takeWhile_imp hd
    rw [word, takeWhile_run hnames (atBoundary_iff.1 hboundary), ← hword.1, ← hrun]
  · next hstart =>
    rw [if_neg hstart]
    split at h
    · next hdigit =>
      rw [if_pos hdigit]
      exact (number_of_parted hdigit h).2 a b rfl hparted
    · next hdigit =>
      rw [if_neg hdigit]
      split at h
      · next hquote =>
        obtain ⟨-, body, behind, heq, hlen, hagain⟩ := character_ok h
        rw [if_pos hquote, ← hagain a, eq_quoted heq hlen, List.append_assoc, List.singleton_append]
      · next hquote =>
        rw [if_neg hquote]
        split at h
        · next hquotes =>
          obtain ⟨-, body, behind, heq, hlen, hagain⟩ := text_ok h
          rw [if_pos hquotes, ← hagain a, eq_quoted heq hlen, List.append_assoc, List.singleton_append]
        · next hquotes =>
          rw [if_neg hquotes]
          exact symbol_of_append h

end lexeme

end Scriptlet.Token
