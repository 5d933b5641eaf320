import Mathlib.Data.List.TakeWhile
import Scriptlet.Text.Blank
import Scriptlet.Token.Lexeme

/-!
# A token does not depend on what is apart from it

Every reader of tokens looks past the token that it finds. What it sees there does not matter as long
as it is apart (`Text.Apart`): nothing, a blank or a comment. `Token.Spells kind c more` says that the
text `c :: more` is read as one token of a kind in front of whatever is apart from it.

Main statement: `Token.spells_of_lexeme`, a text that was read as a token once spells it.
-/

namespace Scriptlet

open Text (isBlank)

/-! ## What is apart -/

/-- A text that begins with a blank or a comment, if it is not empty. -/
def Text.Apart (rest : List Char) : Prop :=
  ∀ d, rest.head? = some d → isBlank d = true ∨ d = '#'

namespace Token

open Text (Apart)

/-- A character that nothing apart begins with. -/
def isSolid (c : Char) : Bool := !isBlank c && c ≠ '#'

section apart

variable {rest : List Char} {c d : Char}

theorem apart_nil : Apart [] := fun _ h => by cases h

theorem not_solid_of_apart (h : Apart rest) (hd : rest.head? = some d) : isSolid d = false := by
  rcases h d hd with hb | rfl
  · simp [isSolid, hb]
  · decide

theorem head?_ne_of_apart (h : Apart rest) (hd : isSolid d = true) : rest.head? ≠ some d := fun he => by
  rw [not_solid_of_apart h he] at hd
  cases hd

theorem ne_return_of_isSolid (h : isSolid c = true) : c ≠ '\r' := fun hc => by
  rw [hc] at h
  exact absurd h (by decide)

/-- Letters as code points. -/
theorem isAlpha_iff : c.isAlpha = true ↔
    (65 ≤ c.toNat ∧ c.toNat ≤ 90) ∨ (97 ≤ c.toNat ∧ c.toNat ≤ 122) := by
  have hupper : c.isUpper = true ↔ 65 ≤ c.toNat ∧ c.toNat ≤ 90 := by
    change decide ('A'.val ≤ c.val ∧ c.val ≤ 'Z'.val) = true ↔ _
    rw [decide_eq_true_eq]
    rfl
  have hlower : c.isLower = true ↔ 97 ≤ c.toNat ∧ c.toNat ≤ 122 := by
    change (decide ('a'.val ≤ c.val) && decide (c.val ≤ 'z'.val)) = true ↔ _
    rw [Bool.and_eq_true, decide_eq_true_eq, decide_eq_true_eq]
    rfl
  change (c.isUpper || c.isLower) = true ↔ _
  rw [Bool.or_eq_true, hupper, hlower]

/-- Digits as code points. -/
theorem isDigit_iff : c.isDigit = true ↔ 48 ≤ c.toNat ∧ c.toNat ≤ 57 := by
  change (decide ('0'.val ≤ c.val) && decide (c.val ≤ '9'.val)) = true ↔ _
  rw [Bool.and_eq_true, decide_eq_true_eq, decide_eq_true_eq]
  rfl

theorem isNameStart_iff : isNameStart c = true ↔ c.isAlpha = true ∨ c = '_' := by
  rw [isNameStart, Bool.or_eq_true, decide_eq_true_eq]

theorem isNameChar_iff : isNameChar c = true ↔ c.isAlpha = true ∨ c.isDigit = true ∨ c = '_' := by
  change ((c.isAlpha || c.isDigit) || decide (c = '_')) = true ↔ _
  rw [Bool.or_eq_true, Bool.or_eq_true, decide_eq_true_eq, or_assoc]

theorem isSolid_of_isNameChar (h : isNameChar c = true) : isSolid c = true := by
  have hranges : ((65 ≤ c.toNat ∧ c.toNat ≤ 90) ∨ (97 ≤ c.toNat ∧ c.toNat ≤ 122)) ∨
      (48 ≤ c.toNat ∧ c.toNat ≤ 57) ∨ c = '_' := by
    rwa [isNameChar_iff, isAlpha_iff, isDigit_iff] at h
  by_cases hline : c = '_'
  · subst hline
    decide
  · have hne : c ≠ '#' := by
      rintro rfl
      exact absurd hranges (by decide)
    have hcode := hranges.imp_right fun h => h.resolve_right hline
    simp [isSolid, isBlank, Text.blankRanges, hne]
    omega

theorem isNameChar_of_isDigit (h : c.isDigit = true) : isNameChar c = true :=
  isNameChar_iff.2 (.inr (.inl h))

theorem isSolid_of_isDigit (h : c.isDigit = true) : isSolid c = true :=
  isSolid_of_isNameChar (isNameChar_of_isDigit h)

theorem isNameChar_of_isHexDigit (h : isHexDigit c = true) : isNameChar c = true := by
  simp only [isHexDigit, Bool.or_eq_true, decide_eq_true_eq, Bool.and_eq_true] at h
  rcases h with (h | h) | h
  · exact isNameChar_of_isDigit h
  · have hcode : 97 ≤ c.toNat ∧ c.toNat ≤ 102 := h
    exact isNameChar_iff.2 (.inl (isAlpha_iff.2 (by omega)))
  · have hcode : 65 ≤ c.toNat ∧ c.toNat ≤ 70 := h
    exact isNameChar_iff.2 (.inl (isAlpha_iff.2 (by omega)))

theorem isNameChar_of_isNameStart (h : isNameStart c = true) : isNameChar c = true := by
  rw [isNameStart_iff] at h
  exact isNameChar_iff.2 (h.imp_right .inr)

theorem not_isNameStart_of_isDigit (h : c.isDigit = true) : isNameStart c = false := by
  rw [isDigit_iff] at h
  rw [Bool.eq_false_iff, Ne, isNameStart_iff, isAlpha_iff]
  rintro (hletter | rfl)
  · omega
  · exact absurd h (by decide)

theorem not_isDigit_of_not_isNameChar (h : isNameChar c = false) : c.isDigit = false := by
  cases hd : c.isDigit with
  | false => rfl
  | true => rw [isNameChar_of_isDigit hd] at h; cases h

/-- Where no name character begins what follows, none is at its start. -/
theorem atBoundary_iff : atBoundary rest = true ↔ ∀ d, rest.head? = some d → isNameChar d = false := by
  cases rest with
  | nil => simp [atBoundary]
  | cons d rest => simp [atBoundary]

theorem head?_ne_of_atBoundary (h : atBoundary rest = true) (hd : isNameChar d = true) :
    rest.head? ≠ some d := fun he => by
  rw [atBoundary_iff.1 h d he] at hd
  cases hd

theorem atBoundary_of_apart (h : Apart rest) : atBoundary rest = true := by
  refine atBoundary_iff.2 fun d hd => ?_
  have hsolid := not_solid_of_apart h hd
  cases hn : isNameChar d with
  | false => rfl
  | true =>
    rw [isSolid_of_isNameChar hn] at hsolid
    cases hsolid

/-- A maximal run ends where a text begins that does not go on with it. -/
theorem takeWhile_run {p : Char → Bool} {run : List Char} (hrun : ∀ d ∈ run, p d = true)
    (hrest : ∀ d, rest.head? = some d → p d = false) : (run ++ rest).takeWhile p = run := by
  rw [List.takeWhile_append_of_pos hrun]
  cases rest with
  | nil => simp
  | cons d rest => simp [hrest d rfl]

theorem not_nameChar_of_apart (h : Apart rest) : ∀ d, rest.head? = some d → isNameChar d = false :=
  atBoundary_iff.1 (atBoundary_of_apart h)

end apart

/-- A text is read as one token of a kind in front of whatever is apart from it, and does not end with
a carriage return. -/
structure Spells (kind : Kind String) (c : Char) (more : List Char) : Prop where
  read : ∀ rest, Apart rest → lexeme c (more ++ rest) = .ok (kind, more.length)
  closed : more.getLast? ≠ some '\r'

/-! ## Words -/

section words

variable {c : Char} {cs rest : List Char}

theorem lexeme_word (hc : isNameStart c = true) : lexeme c cs = .ok (word c cs) := by
  rw [lexeme, if_pos hc]

theorem spells_word (hc : isNameStart c = true) {more : List Char}
    (hmore : ∀ d ∈ more, isNameChar d = true) :
    Spells (wordKind (String.ofList (c :: more))) c more where
  read rest hrest := by
    rw [lexeme_word hc, word, takeWhile_run hmore (not_nameChar_of_apart hrest)]
  closed h := by
    have := isSolid_of_isNameChar (hmore _ (List.mem_of_getLast? h))
    exact ne_return_of_isSolid this rfl

theorem wordKind_ne_endOfFile (text : String) : wordKind text ≠ .endOfFile := by
  unfold wordKind
  split
  · simp
  · simp
  · simp
  · split <;> simp

end words

/-! ## Integers -/

section integers

variable {cs body rest : List Char} {value n m : Nat} {kind : Kind String}

/-- What stands behind the digits of an integer. -/
theorem integer?_append (body rest : List Char) (value : Nat) :
    integer? (body ++ rest) value body.length =
      if rest.head? = some 'u' then
        if !atBoundary (rest.drop 1) then none
        else if value < UInt32.size then
          some (.ok (.literal (.uint (UInt32.ofNat value)), body.length + 1))
        else some (.error (.numberOutOfRange (String.ofList (body ++ ['u']))))
      else
        if !atBoundary rest then none
        else if value < Nat.pow 2 31 then
          some (.ok (.literal (.int (Int32.ofNat value)), body.length))
        else some (.error (.numberOutOfRange (String.ofList body))) := by
  unfold integer?
  rw [List.drop_left, ← List.drop_drop, List.drop_left, outOfRange, outOfRange, List.take_left]
  by_cases hu : rest.head? = some 'u'
  · obtain ⟨more, rfl⟩ : ∃ more, rest = 'u' :: more := by
      cases rest with
      | nil => cases hu
      | cons d more =>
        cases hu
        exact ⟨more, rfl⟩
    rw [List.take_length_add_append]
    rfl
  · simp only [if_neg hu]

/-- The suffix of an integer, and that what follows does not matter as long as no name character
begins it. -/
theorem integer?_ok (h : integer? (body ++ rest) value body.length = some (.ok (kind, m))) :
    kind ≠ .endOfFile ∧ ∃ suffix more, rest = suffix ++ more ∧ atBoundary more = true ∧
      m = (body ++ suffix).length ∧ (suffix = [] ∨ suffix = ['u']) ∧ ∀ rest', atBoundary rest' = true →
        integer? (body ++ (suffix ++ rest')) value body.length = some (.ok (kind, m)) := by
  rw [integer?_append] at h
  by_cases hu : rest.head? = some 'u'
  · obtain ⟨more, rfl⟩ : ∃ more, rest = 'u' :: more := List.head?_eq_some_iff.1 hu
    rw [if_pos hu] at h
    split at h
    · cases h
    · next hmore =>
      split at h
      · next hvalue =>
        cases h
        refine ⟨nofun, ['u'], more, rfl, by simpa using hmore, by simp, .inr rfl,
          fun rest' hrest => ?_⟩
        rw [List.singleton_append, integer?_append, if_pos List.head?_cons, if_pos hvalue]
        simp [hrest]
      · cases h
  · rw [if_neg hu] at h
    split at h
    · cases h
    · next hmore =>
      split at h
      · next hvalue =>
        cases h
        refine ⟨nofun, [], rest, rfl, by simpa using hmore, by simp, .inl rfl, fun rest' hrest => ?_⟩
        rw [List.nil_append, integer?_append, if_neg (head?_ne_of_atBoundary hrest (by decide)),
          if_pos hvalue]
        simp [hrest]
      · cases h

/-- Digits in base ten, and what follows them. -/
theorem decimal?_append (hbody : ∀ d ∈ body, d.isDigit = true)
    (hrest : ∀ d, rest.head? = some d → d.isDigit = false) :
    decimal? (body ++ rest) = integer? (body ++ rest) (digitsValue 10 body) body.length := by
  rw [decimal?, takeWhile_run hbody hrest]

/-- Digits in base sixteen, and what follows them. -/
theorem hexadecimal?_append {x : Char} (hx : x = 'x' ∨ x = 'X') (hne : body ≠ [])
    (hbody : ∀ d ∈ body, isHexDigit d = true)
    (hrest : ∀ d, rest.head? = some d → isHexDigit d = false) :
    hexadecimal? ('0' :: x :: (body ++ rest)) =
      integer? ('0' :: x :: body ++ rest) (digitsValue 16 body) ('0' :: x :: body).length := by
  have hcond : ((x = 'x' || x = 'X') && !body.isEmpty) = true := by
    rcases hx with rfl | rfl <;> simp [hne]
  rw [hexadecimal?, takeWhile_run hbody hrest, if_pos hcond]
  rfl

/-- A number in base sixteen begins with a zero and an `x`. -/
theorem of_hexadecimal? {r : Except Cause Reading} (h : hexadecimal? cs = some r) :
    ∃ x body rest, cs = '0' :: x :: (body ++ rest) ∧ (x = 'x' ∨ x = 'X') ∧ body ≠ [] ∧
      (∀ d ∈ body, isHexDigit d = true) ∧
      integer? ('0' :: x :: body ++ rest) (digitsValue 16 body) ('0' :: x :: body).length = some r := by
  unfold hexadecimal? at h
  split at h
  · next x more =>
    dsimp only at h
    split at h
    · next hcond =>
      simp only [Bool.and_eq_true, Bool.or_eq_true, decide_eq_true_eq, Bool.not_eq_eq_eq_not,
        Bool.not_true, List.isEmpty_eq_false_iff] at hcond
      refine ⟨x, more.takeWhile isHexDigit, more.dropWhile isHexDigit, ?_, hcond.1, hcond.2,
        fun d hd => List.mem_takeWhile_imp hd, ?_⟩
      · rw [List.takeWhile_append_dropWhile]
      · rw [List.cons_append, List.cons_append, List.takeWhile_append_dropWhile]
        exact h
    · cases h
  · cases h

end integers

/-! ## Floats -/

section floats

variable {cs whole fraction tail rest : List Char} {m : Nat} {kind : Kind String}

/-- A number without its suffix. -/
def stem (whole fraction : List Char) : List Char :=
  whole ++ if fraction.isEmpty then [] else '.' :: fraction

/-- The digits of a number are all that there are: it goes on neither with a digit nor with a fraction
that was left out. -/
structure StemEnds (whole fraction tail : List Char) : Prop where
  wholes : ∀ d ∈ whole, d.isDigit = true
  fractions : ∀ d ∈ fraction, d.isDigit = true
  digit : ∀ d, tail.head? = some d → d.isDigit = false
  dot : fraction = [] → ∀ more, tail = '.' :: more → more.takeWhile Char.isDigit = []

/-- Every text begins with the stem of a number, be it empty. -/
theorem exists_stem (cs : List Char) :
    ∃ whole fraction tail, cs = stem whole fraction ++ tail ∧ StemEnds whole fraction tail := by
  have hdigits : ∀ ds : List Char, ∀ d ∈ ds.takeWhile Char.isDigit, d.isDigit = true := fun ds d hd =>
    List.mem_takeWhile_imp hd
  have hends : ∀ (ds : List Char) (d : Char), (ds.dropWhile Char.isDigit).head? = some d →
      d.isDigit = false := fun ds d hd => by
    simpa [hd] using List.head?_dropWhile_not Char.isDigit ds
  have hsplit := List.takeWhile_append_dropWhile (p := Char.isDigit) (l := cs)
  by_cases h : ∃ more, cs.dropWhile Char.isDigit = '.' :: more ∧ more.takeWhile Char.isDigit ≠ []
  · obtain ⟨more, hmore, hne⟩ := h
    refine ⟨cs.takeWhile Char.isDigit, more.takeWhile Char.isDigit, more.dropWhile Char.isDigit, ?_,
      hdigits cs, hdigits more, hends more, fun hnil => absurd hnil hne⟩
    rw [stem, if_neg (by simpa using hne), List.append_assoc, List.cons_append,
      List.takeWhile_append_dropWhile, ← hmore, hsplit]
  · refine ⟨cs.takeWhile Char.isDigit, [], cs.dropWhile Char.isDigit, ?_, hdigits cs, nofun, hends cs,
      fun _ more hmore => ?_⟩
    · rw [stem, List.isEmpty_nil, if_pos rfl, List.append_nil, hsplit]
    · exact Decidable.not_not.1 fun hne => h ⟨more, hmore, hne⟩

/-- A number whose digits are known. -/
theorem float?_of_digits (hwhole : cs.takeWhile Char.isDigit = whole)
    (hfraction : (match cs.drop whole.length with
      | '.' :: more => more.takeWhile Char.isDigit
      | _ => []) = fraction) {stop : Nat}
    (hstop : (if fraction.isEmpty then whole.length else whole.length + 1 + fraction.length) = stop) :
    float? cs =
      let n := if (cs.drop stop).head? = some 'f' then stop + 1 else stop
      let x := Decimal.toSingle ⟨digitsValue 10 (whole ++ fraction), -fraction.length⟩
      if (fraction.isEmpty && (cs.drop stop).head? ≠ some 'f') || !atBoundary (cs.drop n) then none
      else if x.isFinite then some (.ok (.literal (.float x), n))
      else some (.error (outOfRange cs n)) := by
  subst hwhole hfraction hstop
  simp only [decide_not]
  rfl

/-- What stands behind the stem of a number decides whether it is one. -/
theorem float?_stem (h : StemEnds whole fraction tail) :
    float? (stem whole fraction ++ tail) =
      let suffix := if tail.head? = some 'f' then 1 else 0
      let n := (stem whole fraction).length + suffix
      let x := Decimal.toSingle ⟨digitsValue 10 (whole ++ fraction), -fraction.length⟩
      if (fraction.isEmpty && tail.head? ≠ some 'f') || !atBoundary (tail.drop suffix) then none
      else if x.isFinite then some (.ok (.literal (.float x), n))
      else some (.error (outOfRange (stem whole fraction ++ tail) n)) := by
  have hwhole : (stem whole fraction ++ tail).takeWhile Char.isDigit = whole := by
    rw [stem, List.append_assoc]
    refine takeWhile_run h.wholes fun d hd => ?_
    cases fraction with
    | nil => exact h.digit d hd
    | cons f fs =>
      cases hd
      rfl
  have hfraction : (match (stem whole fraction ++ tail).drop whole.length with
      | '.' :: more => more.takeWhile Char.isDigit
      | _ => []) = fraction := by
    rw [stem, List.append_assoc, List.drop_left]
    cases fraction with
    | nil =>
      rw [List.isEmpty_nil, if_pos rfl, List.nil_append]
      split
      · next more => exact h.dot rfl more rfl
      · rfl
    | cons f fs => exact takeWhile_run h.fractions h.digit
  have hstop : (if fraction.isEmpty then whole.length else whole.length + 1 + fraction.length) =
      (stem whole fraction).length := by
    unfold stem
    split
    · simp
    · simp [Nat.add_assoc, Nat.add_comm 1]
  rw [float?_of_digits hwhole hfraction hstop, List.drop_left]
  by_cases hf : tail.head? = some 'f'
  · simp only [hf, if_true, ← List.drop_drop, List.drop_left]
  · simp only [hf, if_false, List.drop_left, List.drop_zero, Nat.add_zero]

theorem float?_eq_none (hwhole : ∀ d ∈ whole, d.isDigit = true)
    (htail : ∀ d, tail.head? = some d → d.isDigit = false ∧ d ≠ '.' ∧ d ≠ 'f') :
    float? (whole ++ tail) = none := by
  have hends : StemEnds whole [] tail := by
    refine ⟨hwhole, nofun, fun d hd => (htail d hd).1, fun _ more hmore => ?_⟩
    rw [hmore] at htail
    exact absurd rfl (htail '.' rfl).2.1
  have hf : tail.head? ≠ some 'f' := fun hd => (htail 'f' hd).2.2 rfl
  have := float?_stem hends
  simpa [stem, hf] using this

/-- The suffix of a number with a fraction, and that what follows does not matter as long as no name
character begins it. -/
theorem float?_ok (h : float? cs = some (.ok (kind, m))) :
    kind ≠ .endOfFile ∧ ∃ text more, cs = text ++ more ∧ atBoundary more = true ∧ m = text.length ∧
      text ≠ [] ∧ (∀ d ∈ text, isSolid d = true) ∧
      ∀ rest', atBoundary rest' = true → float? (text ++ rest') = some (.ok (kind, m)) := by
  obtain ⟨whole, fraction, tail, rfl, hends⟩ := exists_stem cs
  have hstem : ∀ d ∈ stem whole fraction, isSolid d = true := fun d hd => by
    unfold stem at hd
    rcases List.mem_append.1 hd with hd | hd
    · exact isSolid_of_isDigit (hends.wholes d hd)
    · split at hd
      · cases hd
      · rcases List.mem_cons.1 hd with rfl | hd
        · decide
        · exact isSolid_of_isDigit (hends.fractions d hd)
  rw [float?_stem hends] at h
  by_cases hf : tail.head? = some 'f'
  · -- the suffix makes a number of any stem, with or without a fraction
    obtain ⟨more, rfl⟩ : ∃ more, tail = 'f' :: more := List.head?_eq_some_iff.1 hf
    simp only [hf, if_true] at h
    split at h
    · cases h
    · next hcond =>
      split at h
      · next hfinite =>
        cases h
        refine ⟨nofun, stem whole fraction ++ ['f'], more, by simp, by simpa using hcond, by simp,
          by simp, fun d hd => ?_, fun rest' hrest => ?_⟩
        · rcases List.mem_append.1 hd with hd | hd
          · exact hstem d hd
          · cases List.mem_singleton.1 hd
            decide
        · have hends' : StemEnds whole fraction ('f' :: rest') :=
            ⟨hends.wholes, hends.fractions, by simp, by simp⟩
          rw [List.append_assoc, List.singleton_append, float?_stem hends']
          simp [hfinite, hrest]
      · cases h
  · simp only [hf, if_false] at h
    split at h
    · cases h
    · next hcond =>
      -- without the suffix it is the fraction that tells the number from an integer
      have hne : fraction ≠ [] := fun hnil => hcond (by simp [hnil, hf])
      have htail : atBoundary tail = true := by simpa [hne] using hcond
      split at h
      · next hfinite =>
        cases h
        refine ⟨nofun, stem whole fraction, tail, rfl, htail, rfl, by simp [stem, hne], hstem,
          fun rest' hrest => ?_⟩
        have hends' : StemEnds whole fraction rest' := by
          refine ⟨hends.wholes, hends.fractions, fun d hd => ?_, fun hnil => absurd hnil hne⟩
          exact not_isDigit_of_not_isNameChar (atBoundary_iff.1 hrest d hd)
        rw [float?_stem hends']
        simp [head?_ne_of_atBoundary hrest (d := 'f') (by decide), hne, hfinite, hrest]
      · cases h

end floats

/-! ## Numbers -/

section numbers

variable {c : Char} {cs body suffix rest : List Char} {m n : Nat} {kind : Kind String}

/-- What may stand behind the digits of an integer. -/
def EndsInteger (tail : List Char) : Prop :=
  ∀ d, tail.head? = some d → d.isDigit = false ∧ d ∉ ['.', 'f', 'x', 'X']

theorem endsInteger_append (hsuffix : suffix = [] ∨ suffix = ['u']) (hrest : Apart rest) :
    EndsInteger (suffix ++ rest) := fun d hd => by
  rcases hsuffix with rfl | rfl
  · have hsolid := not_solid_of_apart hrest hd
    refine ⟨?_, fun hm => ?_⟩
    · exact not_isDigit_of_not_isNameChar (not_nameChar_of_apart hrest d hd)
    · have hall : ['.', 'f', 'x', 'X'].all isSolid = true := by decide
      rw [List.all_eq_true.1 hall d hm] at hsolid
      cases hsolid
  · cases hd
    decide

theorem hexadecimal?_eq_none (hbody : ∀ d ∈ body, d.isDigit = true) (hne : body ≠ [])
    (hends : EndsInteger rest) : hexadecimal? (body ++ rest) = none := by
  refine Option.eq_none_iff_forall_ne_some.2 fun r hr => ?_
  obtain ⟨x, digits, more, heq, hx, -⟩ := of_hexadecimal? hr
  have hx' : x.isDigit = false ∧ x ∈ ['.', 'f', 'x', 'X'] := by rcases hx with rfl | rfl <;> decide
  match body, hne with
  | [d], _ =>
    rw [List.singleton_append, List.cons.injEq] at heq
    exact (hends x (by rw [heq.2]; rfl)).2 hx'.2
  | d :: e :: ds, _ =>
    rw [List.cons_append, List.cons_append, List.cons.injEq, List.cons.injEq] at heq
    have := hbody e (by simp)
    rw [heq.2.1, hx'.1] at this
    cases this

theorem isSolid_of_mem_suffix (hsuffix : suffix = [] ∨ suffix = ['u']) :
    ∀ d ∈ suffix, isSolid d = true := by
  rcases hsuffix with rfl | rfl
  · nofun
  · intro d hd
    rw [List.mem_singleton.1 hd]
    decide

/-- A number in base sixteen, which is found again in front of anything that no name character begins.
It does not begin as a number with a fraction does. -/
theorem hexadecimal?_ok {all : List Char} (h : hexadecimal? all = some (.ok (kind, m))) :
    kind ≠ .endOfFile ∧ ∃ text rest, all = text ++ rest ∧ atBoundary rest = true ∧ m = text.length ∧
      text ≠ [] ∧ (∀ d ∈ text, isSolid d = true) ∧ ∀ rest', atBoundary rest' = true →
        float? (text ++ rest') = none ∧ hexadecimal? (text ++ rest') = some (.ok (kind, m)) := by
  obtain ⟨x, body, rest, rfl, hx, hne, hbody, hint⟩ := of_hexadecimal? h
  obtain ⟨hkind, suffix, more, rfl, hmore, hlen, hu, hagain⟩ := integer?_ok hint
  refine ⟨hkind, '0' :: x :: body ++ suffix, more, by simp, hmore, hlen, by simp, fun d hd => ?_,
    fun rest' hrest => ?_⟩
  · rcases List.mem_append.1 hd with hd | hd
    · apply isSolid_of_isNameChar
      rcases List.mem_cons.1 hd with rfl | hd
      · decide
      · rcases List.mem_cons.1 hd with rfl | hd
        · rcases hx with rfl | rfl <;> decide
        · exact isNameChar_of_isHexDigit (hbody d hd)
    · exact isSolid_of_mem_suffix hu d hd
  · rw [List.append_assoc, List.cons_append, List.cons_append]
    constructor
    · have hdigits : ∀ d ∈ ['0'], d.isDigit = true := fun d hd => by
        rw [List.mem_singleton.1 hd]
        rfl
      refine float?_eq_none hdigits fun d hd => ?_
      cases hd
      rcases hx with rfl | rfl <;> decide
    · have hends : ∀ d, (suffix ++ rest').head? = some d → isHexDigit d = false := fun d hd => by
        rcases hu with rfl | rfl
        · have := atBoundary_iff.1 hrest d hd
          exact Bool.eq_false_iff.2 fun hh => by simp [isNameChar_of_isHexDigit hh] at this
        · cases hd
          decide
      rw [hexadecimal?_append hx hne hbody hends]
      exact hagain rest' hrest

/-- A number in base ten, which is found again in front of anything that no name character begins. In
front of what is apart the other readers do not find one. -/
theorem decimal?_ok {all : List Char} (hc : ∃ c cs, all = c :: cs ∧ c.isDigit = true)
    (h : decimal? all = some (.ok (kind, m))) :
    kind ≠ .endOfFile ∧ ∃ text rest, all = text ++ rest ∧ atBoundary rest = true ∧ m = text.length ∧
      text ≠ [] ∧ (∀ d ∈ text, isSolid d = true) ∧
      (∀ rest', Apart rest' → float? (text ++ rest') = none ∧ hexadecimal? (text ++ rest') = none) ∧
      ∀ rest', atBoundary rest' = true → decimal? (text ++ rest') = some (.ok (kind, m)) := by
  have hsplit := List.takeWhile_append_dropWhile (p := Char.isDigit) (l := all)
  have hbody : ∀ d ∈ all.takeWhile Char.isDigit, d.isDigit = true := fun d hd =>
    List.mem_takeWhile_imp hd
  have hne : all.takeWhile Char.isDigit ≠ [] := by
    obtain ⟨c, cs, rfl, hc⟩ := hc
    simp [hc]
  have hint : integer? (all.takeWhile Char.isDigit ++ all.dropWhile Char.isDigit)
      (digitsValue 10 (all.takeWhile Char.isDigit)) (all.takeWhile Char.isDigit).length =
        some (.ok (kind, m)) := by
    rw [hsplit]
    exact h
  obtain ⟨hkind, suffix, more, hmore, hboundary, hlen, hu, hagain⟩ := integer?_ok hint
  refine ⟨hkind, all.takeWhile Char.isDigit ++ suffix, more, ?_, hboundary, hlen, by simp [hne],
    fun d hd => ?_, fun rest' hrest => ?_, fun rest' hrest => ?_⟩
  · rw [List.append_assoc, ← hmore, hsplit]
  · rcases List.mem_append.1 hd with hd | hd
    · exact isSolid_of_isDigit (hbody d hd)
    · exact isSolid_of_mem_suffix hu d hd
  · have hends := endsInteger_append hu hrest
    rw [List.append_assoc]
    refine ⟨float?_eq_none hbody fun d hd => ?_, hexadecimal?_eq_none hbody hne hends⟩
    have := hends d hd
    exact ⟨this.1, fun he => this.2 (by simp [he]), fun he => this.2 (by simp [he])⟩
  · have hdigit : ∀ d, (suffix ++ rest').head? = some d → d.isDigit = false := fun d hd => by
      rcases hu with rfl | rfl
      · exact not_isDigit_of_not_isNameChar (atBoundary_iff.1 hrest d hd)
      · cases hd
        decide
    rw [List.append_assoc, decimal?_append hbody hdigit]
    exact hagain rest' hrest

/-- One of the three readers of numbers finds a number, and finds it again in front of anything apart
from it. -/
theorem readers_ok {all : List Char} (hc : ∃ c cs, all = c :: cs ∧ c.isDigit = true)
    (h : (float? all <|> hexadecimal? all <|> decimal? all) = some (.ok (kind, m))) :
    kind ≠ .endOfFile ∧ ∃ text rest, all = text ++ rest ∧ m = text.length ∧ text ≠ [] ∧
      (∀ d ∈ text, isSolid d = true) ∧ ∀ rest', Apart rest' →
        (float? (text ++ rest') <|> hexadecimal? (text ++ rest') <|> decimal? (text ++ rest')) =
          some (.ok (kind, m)) := by
  cases hfloat : float? all with
  | some r =>
    rw [hfloat] at h
    cases h
    obtain ⟨hkind, text, rest, heq, -, hlen, hne, hsolid, hagain⟩ := float?_ok hfloat
    refine ⟨hkind, text, rest, heq, hlen, hne, hsolid, fun rest' hrest => ?_⟩
    rw [hagain rest' (atBoundary_of_apart hrest)]
    rfl
  | none =>
    cases hhex : hexadecimal? all with
    | some r =>
      rw [hfloat, hhex] at h
      cases h
      obtain ⟨hkind, text, rest, heq, -, hlen, hne, hsolid, hagain⟩ := hexadecimal?_ok hhex
      refine ⟨hkind, text, rest, heq, hlen, hne, hsolid, fun rest' hrest => ?_⟩
      obtain ⟨hnone, hsome⟩ := hagain rest' (atBoundary_of_apart hrest)
      rw [hnone, hsome]
      rfl
    | none =>
      rw [hfloat, hhex] at h
      obtain ⟨hkind, text, rest, heq, -, hlen, hne, hsolid, hothers, hagain⟩ := decimal?_ok hc h
      refine ⟨hkind, text, rest, heq, hlen, hne, hsolid, fun rest' hrest => ?_⟩
      obtain ⟨hno, hnone⟩ := hothers rest' hrest
      rw [hno, hnone, hagain rest' (atBoundary_of_apart hrest)]
      rfl

/-- A number, and that what is apart from it does not matter. -/
theorem number_ok (hc : c.isDigit = true) (h : number c cs = .ok (kind, n)) :
    kind ≠ .endOfFile ∧ ∃ more rest, cs = more ++ rest ∧ n = more.length ∧
      (∀ d ∈ more, isSolid d = true) ∧
      ∀ rest', Apart rest' → number c (more ++ rest') = .ok (kind, n) := by
  obtain ⟨m, hm, hread⟩ : ∃ m, m - 1 = n ∧
      (float? (c :: cs) <|> hexadecimal? (c :: cs) <|> decimal? (c :: cs)) = some (.ok (kind, m)) := by
    unfold number at h
    dsimp only at h
    split at h
    · next reading hreading =>
      cases reading with
      | error cause => cases h
      | ok r =>
        cases h
        exact ⟨r.2, rfl, hreading⟩
    · cases h
  obtain ⟨hkind, text, rest, heq, hlen, hne, hsolid, hagain⟩ := readers_ok ⟨c, cs, rfl, hc⟩ hread
  obtain ⟨d, more, rfl⟩ := List.exists_cons_of_ne_nil hne
  obtain ⟨rfl, rfl⟩ := List.cons.inj heq
  refine ⟨hkind, more, rest, rfl, by rw [← hm, hlen]; rfl,
    fun d hd => hsolid d (List.mem_cons_of_mem _ hd), fun rest' hrest => ?_⟩
  have := hagain rest' hrest
  rw [List.cons_append] at this
  rw [number, this, ← hm]
  rfl

end numbers

/-! ## Quoted characters and strings -/

section quoted

variable {cs : List Char} {n : Nat} {kind : Kind String}

/-- A quoted character ends with its quote, and what follows does not matter. -/
theorem character_ok (h : character cs = .ok (kind, n)) :
    kind ≠ .endOfFile ∧ ∃ body rest, cs = body ++ '\'' :: rest ∧ n = body.length + 1 ∧
      ∀ rest', character (body ++ '\'' :: rest') = .ok (kind, n) := by
  unfold character at h
  split at h
  · next e more =>
    cases he : unescape e with
    | error cause =>
      rw [he] at h
      cases h
    | ok c =>
      simp only [he] at h
      split at h
      · next hquote =>
        cases h
        obtain ⟨rest, rfl⟩ : ∃ rest, more = '\'' :: rest := List.head?_eq_some_iff.1 hquote
        exact ⟨nofun, ['\\', e], rest, rfl, rfl, fun rest' => by simp [character, he]⟩
      · cases h
  · cases h
  · next c more hescape hend =>
    split at h
    · next hcond =>
      cases h
      simp only [Bool.and_eq_true, decide_eq_true_eq] at hcond
      obtain ⟨rest, rfl⟩ : ∃ rest, more = '\'' :: rest := List.head?_eq_some_iff.1 hcond.2
      have hne : c ≠ '\\' := fun hc => hescape '\'' rest hc rfl
      refine ⟨nofun, [c], rest, rfl, rfl, fun rest' => ?_⟩
      rw [List.singleton_append, character]
      · simp [hcond.1]
      · exact fun _ _ hc _ => hne hc
      · exact fun hc _ => hne hc
    · cases h
  · cases h

/-- The contents of a string end with a quote, and what follows does not matter. -/
theorem textBody_ok {r : List Char} (h : textBody cs = .ok (r, n)) :
    ∃ body rest, cs = body ++ '"' :: rest ∧ n = body.length + 1 ∧
      ∀ rest', textBody (body ++ '"' :: rest') = .ok (r, n) := by
  fun_induction textBody cs generalizing r n with
  | case1 => cases h
  | case2 more =>
    cases h
    exact ⟨[], more, rfl, rfl, fun rest' => rfl⟩
  | case3 => cases h
  | case4 e more cause he => cases h
  | case5 e more c he ih =>
    cases hread : textBody more with
    | error cause =>
      rw [hread] at h
      cases h
    | ok r =>
      rw [hread] at h
      cases h
      obtain ⟨body, rest, rfl, hlen, hagain⟩ := ih hread
      refine ⟨'\\' :: e :: body, rest, rfl, by rw [hlen]; rfl, fun rest' => ?_⟩
      rw [List.cons_append, List.cons_append, textBody, he, hagain]
      rfl
  | case6 c more hquote hend hescape ih =>
    cases hread : textBody more with
    | error cause =>
      rw [hread] at h
      cases h
    | ok r =>
      rw [hread] at h
      cases h
      have hne : c ≠ '\\' := fun hc => by
        cases more with
        | nil => exact hend hc rfl
        | cons d more => exact hescape d more hc rfl
      obtain ⟨body, rest, rfl, hlen, hagain⟩ := ih hread
      refine ⟨c :: body, rest, rfl, by rw [hlen]; rfl, fun rest' => ?_⟩
      rw [List.cons_append, textBody, hagain]
      · rfl
      · exact hquote
      · exact fun hc _ => hne hc
      · exact fun _ _ hc _ => hne hc

/-- A string ends with its quote, and what follows does not matter. -/
theorem text_ok (h : text cs = .ok (kind, n)) :
    kind ≠ .endOfFile ∧ ∃ body rest, cs = body ++ '"' :: rest ∧ n = body.length + 1 ∧
      ∀ rest', text (body ++ '"' :: rest') = .ok (kind, n) := by
  unfold text at h
  cases hread : textBody cs with
  | error cause =>
    rw [hread] at h
    cases h
  | ok r =>
    rw [hread] at h
    cases h
    obtain ⟨body, rest, heq, hlen, hagain⟩ := textBody_ok hread
    exact ⟨nofun, body, rest, heq, hlen, fun rest' => by rw [text, hagain]; rfl⟩

end quoted

/-! ## Symbols -/

section symbols

variable {c : Char} {cs text rest : List Char} {n : Nat} {kind : Kind String}

theorem isSolid_of_mem_spelling (op : Operator) : ∀ d ∈ op.spelling.toList, isSolid d = true := by
  have hall : op.spelling.toList.all isSolid = true := by cases op <;> decide
  exact List.all_eq_true.1 hall

theorem spelling_ne_nil (op : Operator) : op.spelling.toList ≠ [] := by
  cases op <;> decide

/-- Operators do not reach into what is apart. -/
theorem spelling_isPrefix_of_apart {op : Operator} (hrest : Apart rest)
    (h : op.spelling.toList <+: text ++ rest) : op.spelling.toList <+: text := by
  rcases List.prefix_or_prefix_of_prefix h (List.prefix_append text rest) with h | ⟨more, hmore⟩
  · exact h
  · rw [← hmore, List.prefix_append_right_inj] at h
    cases more with
    | nil =>
      rw [List.append_nil] at hmore
      exact hmore ▸ List.prefix_refl _
    | cons d more =>
      obtain ⟨others, rfl⟩ := h
      have hd := isSolid_of_mem_spelling op d (by rw [← hmore]; simp)
      exact absurd rfl (head?_ne_of_apart hrest hd)

/-- The operator that is found in front of what is apart is the one that is found in the text. -/
theorem find?_spelling_append (hrest : Apart rest) :
    (Operator.all.find? fun op => op.spelling.toList.isPrefixOf (text ++ rest)) =
      Operator.all.find? fun op => op.spelling.toList.isPrefixOf text := by
  congr 1
  funext op
  rw [Bool.eq_iff_iff, List.isPrefixOf_iff_prefix, List.isPrefixOf_iff_prefix]
  exact ⟨spelling_isPrefix_of_apart hrest, fun h => h.trans (List.prefix_append text rest)⟩

/-- The operator that is found in a text is found without what follows it. -/
theorem find?_spelling_self {op : Operator} (htext : op.spelling.toList = text)
    (h : (Operator.all.find? fun op => op.spelling.toList.isPrefixOf (text ++ rest)) = some op) :
    (Operator.all.find? fun op => op.spelling.toList.isPrefixOf text) = some op := by
  rw [List.find?_eq_some_iff_append] at h ⊢
  obtain ⟨-, before, behind, hall, hbefore⟩ := h
  refine ⟨List.isPrefixOf_iff_prefix.2 (htext ▸ List.prefix_refl _), before, behind, hall,
    fun a ha => ?_⟩
  have := hbefore a ha
  rw [Bool.not_eq_true', Bool.eq_false_iff, Ne, List.isPrefixOf_iff_prefix] at this ⊢
  exact fun hpre => this (hpre.trans (List.prefix_append text rest))

/-- A symbol, and that what is apart from it does not matter. -/
theorem symbol_ok (h : symbol c cs = .ok (kind, n)) :
    kind ≠ .endOfFile ∧ ∃ more rest, cs = more ++ rest ∧ n = more.length ∧
      (∀ d ∈ more, isSolid d = true) ∧
      ∀ rest', Apart rest' → symbol c (more ++ rest') = .ok (kind, n) := by
  unfold symbol at h
  split at h
  · next harrow =>
    cases h
    simp only [Bool.and_eq_true, decide_eq_true_eq] at harrow
    obtain ⟨rest, rfl⟩ : ∃ rest, cs = '>' :: rest := List.head?_eq_some_iff.1 harrow.2
    refine ⟨nofun, ['>'], rest, rfl, rfl, fun d hd => ?_, fun rest' _ => ?_⟩
    · rw [List.mem_singleton.1 hd]
      decide
    · simp [symbol, harrow.1]
  · next harrow =>
    -- In front of what is apart, an arrow is not found either.
    have hno : ∀ more rest rest' : List Char, cs = more ++ rest → Apart rest' →
        ¬(c = '-' && (more ++ rest').head? = some '>') = true := by
      rintro more rest rest' rfl hrest h
      cases more with
      | nil =>
        simp only [List.nil_append, Bool.and_eq_true, decide_eq_true_eq] at h
        exact head?_ne_of_apart hrest (d := '>') (by decide) h.2
      | cons d more => exact harrow h
    split at h
    · next op hfind =>
      cases h
      have hpre := List.find?_some hfind
      obtain ⟨rest, hrest⟩ := List.isPrefixOf_iff_prefix.1 hpre
      obtain ⟨d, more, hspelling⟩ := List.exists_cons_of_ne_nil (spelling_ne_nil op)
      rw [hspelling, List.cons_append, List.cons.injEq] at hrest
      obtain ⟨rfl, rfl⟩ := hrest
      have hlen : op.spelling.length - 1 = more.length := by
        rw [← String.length_toList, hspelling]
        rfl
      refine ⟨nofun, more, rest, rfl, hlen, fun e he => ?_, fun rest' hapart => ?_⟩
      · exact isSolid_of_mem_spelling op e (by rw [hspelling]; exact List.mem_cons_of_mem _ he)
      · rw [symbol, if_neg (hno more rest rest' rfl hapart), ← List.cons_append,
          find?_spelling_append hapart]
        rw [find?_spelling_self hspelling hfind]
    · next hfind =>
      split at h
      · next mark hmark =>
        cases h
        refine ⟨nofun, [], cs, rfl, rfl, nofun, fun rest' hapart => ?_⟩
        have hnone : (Operator.all.find? fun op => op.spelling.toList.isPrefixOf [c]) = none := by
          rw [List.find?_eq_none] at hfind ⊢
          intro op hop hpre
          refine hfind op hop ?_
          rw [List.isPrefixOf_iff_prefix] at hpre ⊢
          exact hpre.trans (List.prefix_append [c] cs)
        rw [symbol, if_neg (hno [] cs rest' rfl hapart), List.nil_append,
          ← List.singleton_append, find?_spelling_append hapart, hnone, hmark]
      · cases h

end symbols

/-! ## Tokens -/

/-- A text that is read as a token once spells it, whatever stood behind it then. -/
theorem spells_of_lexeme {c : Char} {cs : List Char} {kind : Kind String} {n : Nat}
    (h : lexeme c cs = .ok (kind, n)) :
    kind ≠ .endOfFile ∧ ∃ more rest, cs = more ++ rest ∧ n = more.length ∧ Spells kind c more := by
  have hclosed : ∀ more : List Char, (∀ d ∈ more, isSolid d = true) → more.getLast? ≠ some '\r' :=
    fun more hmore hlast => ne_return_of_isSolid (hmore _ (List.mem_of_getLast? hlast)) rfl
  unfold lexeme at h
  split at h
  · next hc =>
    cases h
    refine ⟨wordKind_ne_endOfFile _, cs.takeWhile isNameChar, cs.dropWhile isNameChar,
      List.takeWhile_append_dropWhile.symm, rfl, spells_word hc fun d hd => List.mem_takeWhile_imp hd⟩
  · next hword =>
    split at h
    · next hdigit =>
      obtain ⟨hkind, more, rest, heq, hlen, hsolid, hagain⟩ := number_ok hdigit h
      refine ⟨hkind, more, rest, heq, hlen, fun rest' hrest => ?_, hclosed more hsolid⟩
      rw [lexeme, if_neg hword, if_pos hdigit, hagain rest' hrest, hlen]
    · next hdigit =>
      split at h
      · next hquote =>
        obtain ⟨hkind, body, rest, heq, hlen, hagain⟩ := character_ok h
        refine ⟨hkind, body ++ ['\''], rest, by simp [heq], by simp [hlen], fun rest' _ => ?_, by simp⟩
        rw [lexeme, if_neg hword, if_neg hdigit, if_pos hquote, List.append_assoc,
          List.singleton_append, hagain rest', hlen]
        simp
      · next hquote =>
        split at h
        · next hquotes =>
          obtain ⟨hkind, body, rest, heq, hlen, hagain⟩ := text_ok h
          refine ⟨hkind, body ++ ['"'], rest, by simp [heq], by simp [hlen], fun rest' _ => ?_, by simp⟩
          rw [lexeme, if_neg hword, if_neg hdigit, if_neg hquote, if_pos hquotes, List.append_assoc,
            List.singleton_append, hagain rest', hlen]
          simp
        · next hquotes =>
          obtain ⟨hkind, more, rest, heq, hlen, hsolid, hagain⟩ := symbol_ok h
          refine ⟨hkind, more, rest, heq, hlen, fun rest' hrest => ?_, hclosed more hsolid⟩
          rw [lexeme, if_neg hword, if_neg hdigit, if_neg hquote, if_neg hquotes, hagain rest' hrest,
            hlen]

end Token

end Scriptlet
