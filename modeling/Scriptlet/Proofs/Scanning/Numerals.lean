import Mathlib.Data.Nat.Digits.Defs
import Scriptlet.Proofs.Scanning.Failures

/-!
# Integer literals are exact or fatal

A `Token.Numeral` is an integer literal as it can be written: digits of a radix, in any number and with
any zeros in front, and the suffix of the unsigned integers or none. Its value is that of its digits,
whatever integers the language has. A source that consists of a numeral has one token, which carries
this value, or is refused as out of range.

Main statement: `Token.scan_numeral`.
-/

namespace Scriptlet.Token

open Text

/-! ## Radixes -/

/-- How the digits of a literal count. The mark of base sixteen has two forms. -/
inductive Radix where
  | decimal
  | hexadecimal (upper : Bool)
deriving DecidableEq, Repr

namespace Radix

def base : Radix → Nat
  | decimal => 10
  | hexadecimal _ => 16

/-- What stands in front of the digits. -/
def mark : Radix → List Char
  | decimal => []
  | hexadecimal upper => ['0', if upper then 'X' else 'x']

/-- The digits in the order of their values, without those that differ in case only. -/
def alphabet : Radix → List Char
  | decimal => ['0', '1', '2', '3', '4', '5', '6', '7', '8', '9']
  | hexadecimal _ =>
    ['0', '1', '2', '3', '4', '5', '6', '7', '8', '9', 'a', 'b', 'c', 'd', 'e', 'f']

/-- The value of a digit is its place among the digits. -/
def digit (r : Radix) (c : Char) : Nat := r.alphabet.idxOf c.toLower

end Radix

/-! ## Numerals -/

/-- An integer literal as it can be written. -/
structure Numeral where
  radix : Radix
  digits : List Char
  unsigned : Bool
  nonempty : digits ≠ []
  valid : ∀ d ∈ digits, d.toLower ∈ radix.alphabet

namespace Numeral

variable (n : Numeral)

def suffix : List Char := if n.unsigned then ['u'] else []

/-- The numeral as a source writes it. -/
def text : String := .ofList (n.radix.mark ++ n.digits ++ n.suffix)

/-- What the digits amount to. -/
def value : Nat := Nat.ofDigits n.radix.base (n.digits.reverse.map n.radix.digit)

/-- The largest integer of the type that the suffix names. -/
def limit : Nat := if n.unsigned then 2 ^ 32 - 1 else 2 ^ 31 - 1

/-- A literal is an integer of the type that the suffix names, with the value of the digits. -/
def Denotes {τ : Type} : Literal τ → Prop
  | .int i => n.unsigned = false ∧ i.toInt = n.value
  | .uint i => n.unsigned = true ∧ i.toNat = n.value
  | _ => False

end Numeral

/-! ## Digits -/

section digits

variable {c : Char} {r : Radix}

/-- Only letters have another lower case. -/
theorem toNat_lt_or_toLower_eq (c : Char) : c.toNat < 128 ∨ c.toLower = c := by
  unfold Char.toLower
  split
  · next h =>
    have hupper : c.toNat ≤ 90 := h.2
    omega
  · exact .inr rfl

/-- Digits are characters below a bound, so what holds of them can be tried out. -/
theorem of_digit {p : Char → Prop} (h : c.toLower ∈ (Radix.hexadecimal false).alphabet)
    (hall : ∀ k < 128, (Char.ofNat k).toLower ∈ (Radix.hexadecimal false).alphabet →
      p (Char.ofNat k)) : p c := by
  have hcode : c.toNat < 128 := by
    rcases toNat_lt_or_toLower_eq c with hlt | heq
    · exact hlt
    · rw [heq] at h
      have hsmall : (Radix.hexadecimal false).alphabet.all (fun d => d.toNat < 128) = true := by
        decide +kernel
      exact of_decide_eq_true (List.all_eq_true.1 hsmall c h)
  have := hall c.toNat hcode
  rw [Char.ofNat_toNat] at this
  exact this h

theorem isHexDigit_of_mem (h : c.toLower ∈ (Radix.hexadecimal false).alphabet) :
    isHexDigit c = true := by
  apply of_digit h
  decide +kernel

theorem digitValue_of_mem (h : c.toLower ∈ (Radix.hexadecimal false).alphabet) :
    digitValue c = (Radix.hexadecimal false).digit c := by
  apply of_digit h
  decide +kernel

theorem mem_hexadecimal (h : c.toLower ∈ r.alphabet) :
    c.toLower ∈ (Radix.hexadecimal false).alphabet := by
  cases r with
  | decimal => exact List.mem_append_left ['a', 'b', 'c', 'd', 'e', 'f'] h
  | hexadecimal upper => exact h

theorem isDigit_of_mem_decimal (h : c.toLower ∈ Radix.decimal.alphabet) : c.isDigit = true := by
  have hall : ∀ k < 128, (Char.ofNat k).toLower ∈ (Radix.hexadecimal false).alphabet →
      (Char.ofNat k).toLower ∈ Radix.decimal.alphabet → (Char.ofNat k).isDigit = true := by
    decide +kernel
  exact of_digit (p := fun c => c.toLower ∈ Radix.decimal.alphabet → c.isDigit = true)
    (mem_hexadecimal h) hall h

theorem digit_eq (h : c.toLower ∈ r.alphabet) : digitValue c = r.digit c := by
  rw [digitValue_of_mem (mem_hexadecimal h)]
  cases r with
  | decimal =>
    have happend : (Radix.hexadecimal false).alphabet =
        Radix.decimal.alphabet ++ ['a', 'b', 'c', 'd', 'e', 'f'] := rfl
    rw [Radix.digit, Radix.digit, happend, List.idxOf_append_of_mem h]
  | hexadecimal upper => rfl

/-- The scanner adds up digits from the left. -/
theorem digitsValue_eq {ds : List Char} (h : ∀ d ∈ ds, d.toLower ∈ r.alphabet) :
    digitsValue r.base ds = Nat.ofDigits r.base (ds.reverse.map r.digit) := by
  induction ds using List.reverseRecOn with
  | nil => rfl
  | append_singleton ds d ih =>
    have hds : ∀ e ∈ ds, e.toLower ∈ r.alphabet := fun e he => h e (List.mem_append_left _ he)
    have hd : d.toLower ∈ r.alphabet := h d (by simp)
    rw [List.reverse_append, List.reverse_singleton, List.singleton_append, List.map_cons,
      Nat.ofDigits_cons, ← ih hds, ← digit_eq hd, digitsValue, List.foldl_append, Nat.add_comm,
      Nat.mul_comm]
    rfl

end digits

/-! ## Reading a numeral -/

namespace Numeral

variable (n : Numeral)

/-- The numeral without its suffix. -/
def body : List Char := n.radix.mark ++ n.digits

theorem toList_text : n.text.toList = n.body ++ n.suffix := String.toList_ofList

/-- What the scanner makes of a numeral. -/
def literal {τ : Type} : Literal τ :=
  if n.unsigned then .uint (UInt32.ofNat n.value) else .int (Int32.ofNat n.value)

theorem denotes_literal {τ : Type} (h : n.value ≤ n.limit) : n.Denotes (n.literal : Literal τ) := by
  unfold literal
  unfold limit at h
  cases hu : n.unsigned with
  | false =>
    rw [hu, if_neg Bool.false_ne_true] at h
    exact ⟨hu, Int32.toInt_ofNat_of_lt (by omega)⟩
  | true =>
    rw [hu, if_pos rfl] at h
    exact ⟨hu, UInt32.toNat_ofNat_of_lt (by change _ < 2 ^ 32; omega)⟩

theorem isNameChar_of_mem : ∀ c ∈ n.text.toList, isNameChar c = true := by
  have hdigits : ∀ c ∈ n.digits, isNameChar c = true := fun c hc =>
    isNameChar_of_isHexDigit (isHexDigit_of_mem (mem_hexadecimal (n.valid c hc)))
  have hmark : ∀ r : Radix, r.mark.all isNameChar = true := by
    intro r
    cases r with
    | decimal => rfl
    | hexadecimal upper => cases upper <;> decide +kernel
  intro c hc
  rw [toList_text, body, List.mem_append, List.mem_append] at hc
  rcases hc with (hc | hc) | hc
  · exact List.all_eq_true.1 (hmark n.radix) c hc
  · exact hdigits c hc
  · unfold suffix at hc
    split at hc
    · rw [List.mem_singleton.1 hc]
      decide
    · cases hc

theorem suffix_cases : n.suffix = [] ∨ n.suffix = ['u'] := by
  unfold suffix
  split
  · exact .inr rfl
  · exact .inl rfl

/-- A numeral begins with a digit. -/
theorem exists_digit : ∃ c more, n.text.toList = c :: more ∧ c.isDigit = true := by
  rw [toList_text, body]
  cases hr : n.radix with
  | decimal =>
    obtain ⟨c, more, hdigits⟩ := List.exists_cons_of_ne_nil n.nonempty
    have hvalid := n.valid c (by simp [hdigits])
    rw [hr] at hvalid
    exact ⟨c, more ++ n.suffix, by rw [hdigits]; rfl, isDigit_of_mem_decimal hvalid⟩
  | hexadecimal upper => exact ⟨'0', _, rfl, rfl⟩

/-- The reader of integers decides about a numeral by its value. -/
theorem integer?_text : integer? n.text.toList n.value n.body.length =
    some (if n.value ≤ n.limit then .ok (.literal n.literal, n.text.toList.length)
      else .error (.numberOutOfRange n.text)) := by
  rw [toList_text, integer?_append]
  unfold literal limit text suffix
  cases n.unsigned with
  | false =>
    simp only [List.head?_nil, reduceCtorEq, if_false, atBoundary, Bool.not_true, Bool.false_eq_true,
      List.append_nil, body]
    by_cases h : n.value ≤ 2 ^ 31 - 1
    · rw [if_pos h, if_pos (by change _ < 2 ^ 31; omega)]
    · rw [if_neg h, if_neg (by change ¬ _ < 2 ^ 31; omega)]
  | true =>
    simp only [List.head?_cons, if_true, List.drop_succ_cons, List.drop_zero, atBoundary, Bool.not_true,
      Bool.false_eq_true, if_false, List.length_append, List.length_singleton, body]
    by_cases h : n.value ≤ 2 ^ 32 - 1
    · rw [if_pos h, if_pos (by change _ < 2 ^ 32; omega)]
    · rw [if_neg h, if_neg (by change ¬ _ < 2 ^ 32; omega)]

/-- The readers of other numbers pass a numeral on to the reader of its radix. -/
theorem readers_text : (float? n.text.toList <|> hexadecimal? n.text.toList <|> decimal? n.text.toList) =
    integer? n.text.toList n.value n.body.length := by
  have hapart := endsInteger_append n.suffix_cases apart_nil
  rw [List.append_nil] at hapart
  have hvalue := digitsValue_eq n.valid
  have hsome := n.integer?_text
  rw [toList_text] at hsome ⊢
  unfold body at hsome ⊢
  cases hr : n.radix with
  | decimal =>
    rw [hr, Radix.mark, List.nil_append] at hsome
    rw [hr] at hvalue
    have hdigits : ∀ d ∈ n.digits, d.isDigit = true := fun d hd =>
      isDigit_of_mem_decimal (by have := n.valid d hd; rwa [hr] at this)
    have hfloat : float? (n.digits ++ n.suffix) = none := by
      refine float?_eq_none hdigits fun d hd => ?_
      have := hapart d hd
      exact ⟨this.1, fun he => this.2 (by simp [he]), fun he => this.2 (by simp [he])⟩
    rw [Radix.mark, List.nil_append, hfloat, hexadecimal?_eq_none hdigits n.nonempty hapart,
      decimal?_append hdigits fun d hd => (hapart d hd).1]
    rw [value, hr, ← hvalue]
    rfl
  | hexadecimal upper =>
    rw [hr] at hsome hvalue
    have hx : (if upper then 'X' else 'x') = 'x' ∨ (if upper then 'X' else 'x') = 'X' := by
      cases upper <;> simp
    have hdigits : ∀ d ∈ n.digits, isHexDigit d = true := fun d hd =>
      isHexDigit_of_mem (mem_hexadecimal (n.valid d hd))
    have hfloat : float? ((Radix.hexadecimal upper).mark ++ n.digits ++ n.suffix) = none := by
      have hzero : ∀ d ∈ ['0'], d.isDigit = true := fun d hd => by
        rw [List.mem_singleton.1 hd]
        rfl
      have hsplit : (Radix.hexadecimal upper).mark ++ n.digits ++ n.suffix =
          ['0'] ++ ((if upper then 'X' else 'x') :: (n.digits ++ n.suffix)) := rfl
      rw [hsplit]
      refine float?_eq_none hzero fun d hd => ?_
      cases hd
      cases upper <;> decide
    have hends : ∀ d, n.suffix.head? = some d → isHexDigit d = false := by
      intro d hd
      rcases n.suffix_cases with h | h
      · rw [h] at hd
        cases hd
      · rw [h] at hd
        cases hd
        decide
    have hsame : digitsValue 16 n.digits = n.value := by
      rw [value, hr]
      exact hvalue
    have hhex : hexadecimal? ((Radix.hexadecimal upper).mark ++ n.digits ++ n.suffix) =
        integer? ((Radix.hexadecimal upper).mark ++ n.digits ++ n.suffix) n.value
          ((Radix.hexadecimal upper).mark ++ n.digits).length := by
      rw [← hsame]
      exact hexadecimal?_append hx n.nonempty hdigits hends
    rw [hfloat, hhex, hsome]
    rfl

/-- A numeral is one token, or out of range. -/
theorem lexeme_text {c : Char} {more : List Char} (h : n.text.toList = c :: more) :
    lexeme c more = if n.value ≤ n.limit then .ok (.literal n.literal, more.length)
      else .error (.numberOutOfRange n.text) := by
  obtain ⟨d, ds, hd, hdigit⟩ := n.exists_digit
  rw [h, List.cons.injEq] at hd
  obtain ⟨rfl, rfl⟩ := hd
  have hread := n.readers_text.trans n.integer?_text
  rw [h] at hread
  rw [lexeme, not_isNameStart_of_isDigit hdigit, if_neg Bool.false_ne_true, if_pos hdigit, number]
  rw [hread]
  by_cases hfits : n.value ≤ n.limit
  · rw [if_pos hfits, if_pos hfits]
    rfl
  · rw [if_neg hfits, if_neg hfits]
    rfl

theorem intern_literal (span : Span) (last : Token String) :
    internAll .empty [⟨.literal n.literal, span⟩, last] =
      (⟨.literal n.literal, span⟩ :: (internAll .empty [last]).1, (internAll .empty [last]).2) := by
  unfold literal
  cases n.unsigned <;> rfl

end Numeral

section solid

variable {cs : List Char}

theorem newline_not_mem_of_isSolid (h : ∀ d ∈ cs, isSolid d = true) : '\n' ∉ cs :=
  fun hm => absurd (h _ hm) (by decide)

theorem dropReturn_of_isSolid (h : ∀ d ∈ cs, isSolid d = true) : dropReturn cs = cs :=
  if_neg fun hlast => ne_return_of_isSolid (h _ (List.mem_of_getLast? hlast)) rfl

/-- A text of solid characters is a line of its own. -/
theorem lineRest_of_isSolid (h : ∀ d ∈ cs, isSolid d = true) : lineRest cs = cs := by
  have htake := takeWhile_newline_append (newline_not_mem_of_isSolid h) []
  rw [List.append_nil, List.takeWhile_nil, List.append_nil] at htake
  rw [lineRest, htake, dropReturn_of_isSolid h]

end solid

/-- A numeral that fits in its type is scanned to one token with its value, and any other one is
refused. -/
theorem scan_numeral (n : Numeral) :
    if n.value ≤ n.limit then
      ∃ x, n.Denotes x ∧ scan n.text = .ok ([⟨.literal x, ⟨0, n.text.utf8ByteSize, 1, 1⟩⟩,
        ⟨.endOfFile, ⟨n.text.utf8ByteSize, n.text.utf8ByteSize, 1, n.text.utf8ByteSize + 1⟩⟩], .empty)
    else scan n.text = .error ⟨.numberOutOfRange n.text, ⟨0, 0, 1, 1⟩⟩ := by
  obtain ⟨c, more, htext, -⟩ := n.exists_digit
  have hsolid : ∀ d ∈ c :: more, isSolid d = true := fun d hd =>
    isSolid_of_isNameChar (n.isNameChar_of_mem d (htext ▸ hd))
  have hmore := lineRest_of_isSolid fun d hd => hsolid d (List.mem_cons_of_mem _ hd)
  have hblank : isBlank c = false ∧ c ≠ '#' := by
    simpa [isSolid] using hsolid c (List.mem_cons_self ..)
  have hlexeme := n.lexeme_text htext
  split
  · next hfits =>
    rw [if_pos hfits] at hlexeme
    refine ⟨n.literal, n.denotes_literal hfits, ?_⟩
    have hread : lexeme c (more ++ lineRest []) = .ok (.literal n.literal, more.length) := by
      change lexeme c (more ++ []) = _
      rw [List.append_nil, hlexeme]
    have hline := newline_not_mem_of_isSolid hsolid
    have hlaid : Laid [] (c :: (more ++ [])) [⟨.literal n.literal, .behind [] (c :: more)⟩] :=
      .token hblank.1 hblank.2 (fun hm => hline (List.mem_cons_of_mem _ hm)) hread (.nil _)
    rw [List.append_nil, ← htext] at hlaid
    have hscan := scanText_iff_laid.2 ⟨_, hlaid, rfl⟩
    have hend : endBehind n.text.toList = ⟨.endOfFile, ⟨n.text.utf8ByteSize, n.text.utf8ByteSize, 1,
        n.text.utf8ByteSize + 1⟩⟩ := by
      have hlast : lastLine n.text.toList = n.text.toList := by
        rw [htext]
        exact lastLine_append hline []
      rw [endBehind, hlast, dropReturn_of_isSolid (htext ▸ hsolid), byteSize_toList, htext,
        List.count_eq_zero.2 hline]
    have hspan : Span.behind [] n.text.toList = ⟨0, n.text.utf8ByteSize, 1, 1⟩ := by
      rw [Span.behind, byteSize_toList, byteSize, Nat.zero_add]
      rfl
    rw [scan, hscan, hend, hspan]
    simp only [Except.map, List.singleton_append, n.intern_literal]
    rfl
  · next hlarge =>
    rw [if_neg hlarge] at hlexeme
    have hunread : Unread (.numberOutOfRange n.text) n.text.toList :=
      ⟨c, more, htext, hblank.1, hblank.2, by rw [hmore, hlexeme]⟩
    rw [scan_eq_error, scanText, scanLines_eq .nil, scanFrom_of_reaches (.here [] _) hunread .nil]
    rfl

example : scan "0X0080000000" = .error ⟨.numberOutOfRange "0X0080000000", ⟨0, 0, 1, 1⟩⟩ := by
  decide +kernel

end Scriptlet.Token
