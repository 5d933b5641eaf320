import Mathlib.Data.List.Forall2
import Scriptlet.Proofs.Scanning.Respacing

/-!
# Scanning undoes rendering

`Token.Kind.rendered` writes a kind of token as a source does: numbers in base ten, characters and
strings in quotes with a backslash where one is needed. What is rendered writes its kind again, so
kinds rendered with single spaces between them are scanned to these kinds.

Main statement: `Token.scan_rendered`.
-/

namespace Scriptlet

open Text

namespace Token

/-! ## Rendering -/

/-- A character between quotes: newlines, backslashes and the quote itself need a backslash. -/
def escaped (quote c : Char) : List Char :=
  if c = '\n' then ['\\', 'n'] else if c = '\\' ∨ c = quote then ['\\', c] else [c]

/-- A kind as it is written in a source. -/
def Kind.rendered : Kind String → String
  | .literal (.int n) => toString n.toInt
  | .literal (.uint n) => toString n.toNat ++ "u"
  | .literal (.float x) => x.plain ++ "f"
  | .literal (.char c) => .ofList ('\'' :: (escaped '\'' (Char.ofNat c.toNat) ++ ['\'']))
  | .literal (.text t) => .ofList ('"' :: (t.toList.flatMap (escaped '"') ++ ['"']))
  | .literal (.bool b) => if b then "true" else "false"
  | .literal .null => "null"
  | .name t => t
  | .keyword word => word.spelling
  | .arrow => "->"
  | .operator op => op.spelling
  | .separator mark => String.singleton mark.char
  | .endOfFile => ""

/-- A text that is a name: a name character that is no digit, then name characters, and not one of the
words of the language. -/
def IsName (text : String) : Prop :=
  (∃ c more, text.toList = c :: more ∧ isNameStart c = true ∧ ∀ d ∈ more, isNameChar d = true) ∧
    text ∉ ["true", "false", "null"] ∧ ∀ word : Keyword, word.spelling ≠ text

/-- The kinds that can be written: no negative integers, only ASCII characters, proper names, and
neither floats nor the end of the file. -/
def Kind.Renderable : Kind String → Prop
  | .literal (.int n) => 0 ≤ n.toInt
  | .literal (.float _) => False
  | .literal (.char c) => c.toNat < 128
  | .name t => IsName t
  | .endOfFile => False
  | _ => True

/-! ## Solid texts -/

theorem not_isBlank_of_isSolid {c : Char} (h : isSolid c = true) : isBlank c = false ∧ c ≠ '#' := by
  simpa [isSolid] using h

/-- A text without blanks that is read as a token writes its kind. -/
theorem writes_of_isSolid {c : Char} {more : List Char} {kind : Kind String}
    (hsolid : ∀ d ∈ c :: more, isSolid d = true) (h : lexeme c more = .ok (kind, more.length)) :
    Writes kind (c :: more) := by
  obtain ⟨hblank, hc⟩ := not_isBlank_of_isSolid (hsolid c (List.mem_cons_self ..))
  refine writes_of_lexeme [] hblank hc (fun hline => ?_) (by rwa [List.append_nil])
  exact absurd (hsolid '\n' (List.mem_cons_of_mem _ hline)) (by decide)

/-- A check that a text without blanks is read as one token of a kind. -/
def readsAs (kind : Kind String) (text : List Char) : Bool :=
  match text with
  | [] => false
  | c :: more => text.all isSolid && lexeme c more = .ok (kind, more.length)

theorem writes_of_readsAs {kind : Kind String} {text : List Char} (h : readsAs kind text = true) :
    Writes kind text := by
  cases text with
  | nil => cases h
  | cons c more =>
    simp only [readsAs, Bool.and_eq_true, List.all_eq_true, decide_eq_true_eq] at h
    exact writes_of_isSolid h.1 h.2

theorem readsAs_keyword (word : Keyword) : readsAs (.keyword word) word.spelling.toList = true := by
  cases word <;> decide

theorem readsAs_operator (op : Operator) : readsAs (.operator op) op.spelling.toList = true := by
  cases op <;> decide

theorem readsAs_separator (mark : Separator) : readsAs (.separator mark) [mark.char] = true := by
  cases mark <;> decide

theorem writes_name {text : String} (h : IsName text) : Writes (.name text) text.toList := by
  obtain ⟨⟨c, more, htext, hc, hmore⟩, hliteral, hword⟩ := h
  have hkind : wordKind (String.ofList (c :: more)) = .name text := by
    rw [← htext, String.ofList_toList]
    have hnone : Keyword.ofSpelling? text = none :=
      List.find?_eq_none.2 fun word _ => by simpa using hword word
    unfold wordKind
    split
    · exact absurd (by simp) hliteral
    · exact absurd (by simp) hliteral
    · exact absurd (by simp) hliteral
    · rw [hnone]
  rw [htext, ← hkind]
  refine writes_of_isSolid (List.forall_mem_cons.2 ⟨?_, fun d hd => ?_⟩) ?_
  · exact isSolid_of_isNameChar (isNameChar_of_isNameStart hc)
  · exact isSolid_of_isNameChar (hmore d hd)
  · have := (spells_word hc hmore).read [] apart_nil
    rwa [List.append_nil] at this

/-! ## Numbers -/

section numbers

variable {suffix : List Char} {kind : Kind String}

theorem digitsValue_toDigits (n : Nat) : digitsValue 10 (Nat.toDigits 10 n) = n := by
  have hfold : ∀ (ds : List Char) (init : Nat), (∀ d ∈ ds, d.isDigit = true) →
      ds.foldl (fun n c => n * 10 + digitValue c) init = Nat.ofDigitChars 10 ds init := by
    intro ds
    induction ds with
    | nil => intro init _; rfl
    | cons d ds ih =>
      intro init hds
      rw [List.foldl_cons, ih _ fun e he => hds e (List.mem_cons_of_mem _ he), Nat.ofDigitChars_cons,
        digitValue, if_pos (hds d (List.mem_cons_self ..)), Nat.mul_comm]
  rw [digitsValue, hfold _ _ fun d hd => Nat.isDigit_of_mem_toDigits (by decide) (by decide) hd]
  exact Nat.ofDigitChars_ten_toDigits

/-- A decimal number with its suffix is read as what its digits and its suffix say. -/
theorem writes_digits {n : Nat} (hsuffix : suffix = [] ∨ suffix = ['u'])
    (h : integer? (Nat.toDigits 10 n ++ suffix) n (Nat.toDigits 10 n).length =
      some (.ok (kind, (Nat.toDigits 10 n ++ suffix).length))) :
    Writes kind (Nat.toDigits 10 n ++ suffix) := by
  have hdigits : ∀ d ∈ Nat.toDigits 10 n, d.isDigit = true := fun d hd =>
    Nat.isDigit_of_mem_toDigits (by decide) (by decide) hd
  have hends : EndsInteger suffix := by
    have := endsInteger_append hsuffix apart_nil
    rwa [List.append_nil] at this
  have hsolid : ∀ d ∈ Nat.toDigits 10 n ++ suffix, isSolid d = true := fun d hd => by
    rcases List.mem_append.1 hd with hd | hd
    · exact isSolid_of_isDigit (hdigits d hd)
    · rcases hsuffix with rfl | rfl
      · cases hd
      · cases List.mem_singleton.1 hd
        decide
  have hfloat := float?_eq_none hdigits fun d hd =>
    ⟨(hends d hd).1, fun he => (hends d hd).2 (by simp [he]), fun he => (hends d hd).2 (by simp [he])⟩
  have hhex := hexadecimal?_eq_none hdigits Nat.toDigits_ne_nil hends
  have hdecimal := decimal?_append hdigits fun d hd => (hends d hd).1
  rw [digitsValue_toDigits, h] at hdecimal
  obtain ⟨c, ds, hds⟩ := List.exists_cons_of_ne_nil (Nat.toDigits_ne_nil (n := n) (b := 10))
  have hc : c.isDigit = true := hdigits c (by rw [hds]; exact List.mem_cons_self ..)
  rw [hds] at hsolid hfloat hhex hdecimal ⊢
  rw [List.cons_append] at hsolid hfloat hhex hdecimal ⊢
  refine writes_of_isSolid hsolid ?_
  rw [lexeme, not_isNameStart_of_isDigit hc, if_neg Bool.false_ne_true, if_pos hc, number, hfloat, hhex,
    hdecimal]
  rfl

theorem writes_int {n : Int32} (h : 0 ≤ n.toInt) : Writes (.literal (.int n)) (toString n.toInt).toList := by
  obtain ⟨m, hm⟩ := Int.eq_ofNat_of_zero_le h
  have hlt : m < Nat.pow 2 31 := by
    have := n.toInt_lt
    rw [hm] at this
    exact_mod_cast this
  have hn : Int32.ofNat m = n := by
    rw [← Int32.ofInt_toInt n, hm]
    rfl
  have htext : (toString n.toInt).toList = Nat.toDigits 10 m ++ [] := by
    rw [hm, List.append_nil]
    exact Nat.toList_repr
  rw [htext]
  refine writes_digits (.inl rfl) ?_
  rw [integer?_append, if_neg (by simp), if_neg (by simp [atBoundary]), if_pos hlt, hn, List.append_nil]

theorem writes_uint (n : UInt32) : Writes (.literal (.uint n)) (toString n.toNat ++ "u").toList := by
  have htext : (toString n.toNat ++ "u").toList = Nat.toDigits 10 n.toNat ++ ['u'] := by
    rw [String.toList_append]
    exact congrArg (· ++ ['u']) Nat.toList_repr
  rw [htext]
  refine writes_digits (.inr rfl) ?_
  rw [integer?_append, if_pos (by simp), if_neg (by simp [atBoundary]), if_pos n.toNat_lt_size,
    UInt32.ofNat_toNat, List.length_append]
  rfl

end numbers

/-! ## Quoted texts -/

theorem newline_not_mem_escaped (quote c : Char) : '\n' ∉ escaped quote c := by
  unfold escaped
  split
  · decide
  · next hc =>
    split
    · simp [Ne.symm hc]
    · simp [Ne.symm hc]

theorem character_escaped {c : Char} (h : c.toNat < 128) :
    character (escaped '\'' c ++ ['\'']) =
      .ok (.literal (.char (UInt8.ofNat c.toNat)), (escaped '\'' c ++ ['\'']).length) := by
  unfold escaped
  split
  · next hc => subst hc; rfl
  · split
    · next hc => rcases hc with rfl | rfl <;> rfl
    · next hline hc =>
      have hquote : c ≠ '\'' := fun he => hc (.inr he)
      rw [List.singleton_append, character]
      · simp [h, hquote]
      · exact fun _ _ he _ => hc (.inl he)
      · exact fun he _ => hc (.inl he)

theorem writes_char {c : UInt8} (h : c.toNat < 128) :
    Writes (.literal (.char c)) ('\'' :: (escaped '\'' (Char.ofNat c.toNat) ++ ['\''])) := by
  have hc : (Char.ofNat c.toNat).toNat = c.toNat := by
    rw [Char.ofNat, dif_pos (.inl (by omega))]
    rfl
  refine writes_of_lexeme [] (by decide) (by decide) (fun hline => ?_) ?_
  · rcases List.mem_append.1 hline with hline | hline
    · exact newline_not_mem_escaped _ _ hline
    · exact absurd (List.mem_singleton.1 hline) (by decide)
  · rw [List.append_nil, lexeme, if_neg (by decide), if_neg (by decide), if_pos rfl,
      character_escaped (by rwa [hc]), hc, UInt8.ofNat_toNat]

/-- A character that needs no backslash stands for itself, and one that needs it is found again. -/
theorem textBody_escaped (c : Char) (cs : List Char) :
    textBody (escaped '"' c ++ cs) =
      (textBody cs).map fun r => (c :: r.1, r.2 + (escaped '"' c).length) := by
  unfold escaped
  split
  · next hc => subst hc; rfl
  · split
    · next hc => rcases hc with rfl | rfl <;> rfl
    · next hline hc =>
      rw [List.singleton_append, textBody]
      · rfl
      · exact fun h => hc (.inr h)
      · exact fun h _ => hc (.inl h)
      · exact fun _ _ h _ => hc (.inl h)

theorem textBody_rendered (text : List Char) :
    textBody (text.flatMap (escaped '"') ++ ['"']) =
      .ok (text, (text.flatMap (escaped '"') ++ ['"']).length) := by
  induction text with
  | nil => rfl
  | cons c text ih =>
    have hlen : ∀ cs, (escaped '"' c ++ cs).length = cs.length + (escaped '"' c).length := fun cs => by
      rw [List.length_append, Nat.add_comm]
    rw [List.flatMap_cons, List.append_assoc, textBody_escaped, ih, hlen]
    rfl

theorem writes_text (t : String) :
    Writes (.literal (.text t)) ('"' :: (t.toList.flatMap (escaped '"') ++ ['"'])) := by
  refine writes_of_lexeme [] (by decide) (by decide) (fun hline => ?_) ?_
  · rcases List.mem_append.1 hline with hline | hline
    · obtain ⟨c, -, hc⟩ := List.mem_flatMap.1 hline
      exact newline_not_mem_escaped _ _ hc
    · exact absurd (List.mem_singleton.1 hline) (by decide)
  · rw [List.append_nil, lexeme, if_neg (by decide), if_neg (by decide), if_neg (by decide), if_pos rfl,
      text, textBody_rendered]
    simp only [Except.map, String.ofList_toList]

/-! ## Kinds -/

theorem writes_rendered {kind : Kind String} (h : kind.Renderable) : Writes kind kind.rendered.toList := by
  unfold Kind.rendered
  split
  · exact writes_int h
  · exact writes_uint _
  · cases h
  · rw [String.toList_ofList]
    exact writes_char h
  · rw [String.toList_ofList]
    exact writes_text _
  · next b => cases b <;> exact writes_of_readsAs (by decide)
  · exact writes_of_readsAs (by decide)
  · exact writes_name h
  · exact writes_of_readsAs (readsAs_keyword _)
  · exact writes_of_readsAs (by decide)
  · exact writes_of_readsAs (readsAs_operator _)
  · rw [String.toList_singleton]
    exact writes_of_readsAs (readsAs_separator _)
  · cases h

/-- Texts with single spaces between them. -/
theorem spaced_intercalate (texts : List (List Char)) :
    ∃ behind, Separators [] behind texts.length ∧ [' '].intercalate texts = spaced [] texts behind := by
  induction texts with
  | nil => exact ⟨[], ⟨rfl, .nil, nofun, nofun⟩, rfl⟩
  | cons text texts ih =>
    cases texts with
    | nil =>
      refine ⟨[[]], ⟨rfl, .nil, fun sep hsep => ?_, nofun⟩, by simp [spaced]⟩
      rw [List.mem_singleton.1 hsep]
      exact .nil
    | cons next texts =>
      obtain ⟨behind, hseps, heq⟩ := ih
      have hne : behind ≠ [] := List.ne_nil_of_length_pos (by rw [hseps.length]; exact Nat.succ_pos _)
      refine ⟨[' '] :: behind, ⟨congrArg Nat.succ hseps.length, .nil, ?_, ?_⟩, ?_⟩
      · exact List.forall_mem_cons.2 ⟨.blank isBlank_space .nil, hseps.others⟩
      · rw [List.dropLast_cons_of_ne_nil hne]
        exact List.forall_mem_cons.2 ⟨by simp, hseps.filled⟩
      · rw [List.intercalate_cons_cons, heq]
        simp [spaced]

/-- Rendered kinds are scanned to these kinds, each name and each string with the place of its text
among the distinct texts. -/
theorem scan_rendered {kinds : List (Kind String)} (h : ∀ kind ∈ kinds, kind.Renderable) :
    ∃ tokens pool, scan (" ".intercalate (kinds.map Kind.rendered)) = .ok (tokens, pool) ∧
      pool.toList = (kinds.filterMap Kind.text?).eraseDups ∧
      tokens.map (·.kind) =
        kinds.map (Kind.mapText fun t => UInt32.ofNat (pool.toList.idxOf t)) ++ [.endOfFile] := by
  have hwrites : List.Forall₂ Writes kinds ((kinds.map Kind.rendered).map String.toList) := by
    rw [List.map_map, List.forall₂_map_right_iff]
    exact List.forall₂_same.2 fun kind hkind => writes_rendered (h kind hkind)
  obtain ⟨behind, hseps, hsource⟩ := spaced_intercalate ((kinds.map Kind.rendered).map String.toList)
  obtain ⟨ts, hscan, hkinds⟩ := scan_of_writes hwrites hseps
  have hsource' : (" ".intercalate (kinds.map Kind.rendered)).toList =
      spaced [] ((kinds.map Kind.rendered).map String.toList) behind :=
    String.toList_intercalate.trans hsource
  rw [← hsource', String.ofList_toList] at hscan
  refine ⟨_, _, hscan, ?_, ?_⟩
  · rw [pool_internAll, ← hkinds, List.filterMap_map, List.filterMap_append]
    change [] ++ ((_ ++ []).removeAll []).eraseDups = _
    rw [List.nil_append, List.append_nil, List.removeAll_nil]
    rfl
  · have hmap : ∀ f : Kind String → Kind Symbol, kinds.map f = ts.map fun t => f t.kind := fun f => by
      rw [← hkinds, List.map_map]
      rfl
    rw [kinds_internAll, List.map_append, hmap]
    rfl

/-- A name that occurs twice, a string with a comment sign, a quote and a newline in it, and symbols
that begin alike. -/
theorem scan_rendered_alike :
    ∃ tokens pool, scan "x -= \"# \\\"é\\n\" -> '\\'' 7u x" = .ok (tokens, pool) ∧
      pool.toList = ["x", "# \"é\n"] ∧
      tokens.map (·.kind) = [.name 0, .operator .minusEqual, .literal (.text 1), .arrow,
        .literal (.char 39), .literal (.uint 7), .name 0, .endOfFile] := by
  have hname : IsName "x" := by
    refine ⟨⟨'x', [], by decide, by decide, nofun⟩, by decide, fun word => ?_⟩
    cases word <;> decide
  have hall : ∀ kind ∈ [.name "x", .operator .minusEqual, .literal (.text "# \"é\n"), .arrow,
      .literal (.char 39), .literal (.uint 7), .name "x"], Kind.Renderable kind := by
    have hchar : UInt8.toNat 39 < 128 := by decide
    simp only [List.forall_mem_cons, List.not_mem_nil, false_imp_iff, implies_true, and_true]
    exact ⟨hname, trivial, trivial, trivial, hchar, trivial, hname⟩
  obtain ⟨tokens, pool, hscan, hpool, hkinds⟩ := scan_rendered hall
  rw [hpool] at hkinds
  exact ⟨tokens, pool, hscan, hpool, hkinds⟩

end Token

end Scriptlet
