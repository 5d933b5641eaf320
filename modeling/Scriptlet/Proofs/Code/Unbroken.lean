import Scriptlet.Proofs.Code.Listings
import Scriptlet.Proofs.Code.NamesInCode
import Scriptlet.Session

/-!
# Lines of listings stay lines

A listing shows texts of the pool in two ways. Strings stand in quotes, with newlines escaped
(`Text.unbroken_quoted`); everything else is the name of a field, a method or a declaration, and names
have no newline in them. So no line of a listing is broken (`Listing.unbroken_lines`), and the text that
is shown consists of these lines: `Text.split_lines`.

Main statement: `Listing.lists_program`.
-/

namespace Scriptlet

/-! ## Texts without newlines -/

namespace Text

/-- A text that stays on one line. -/
def Unbroken (s : String) : Prop := '\n' ∉ s.toList

instance (s : String) : Decidable (Unbroken s) := inferInstanceAs (Decidable (¬ '\n' ∈ s.toList))

theorem unbroken_append {s t : String} : Unbroken (s ++ t) ↔ Unbroken s ∧ Unbroken t := by
  simp [Unbroken]

theorem Unbroken.append {s t : String} (hs : Unbroken s) (ht : Unbroken t) : Unbroken (s ++ t) :=
  unbroken_append.2 ⟨hs, ht⟩

theorem unbroken_replicate {c : Char} (hc : c ≠ '\n') (n : Nat) :
    Unbroken (String.ofList (List.replicate n c)) := by
  simp [Unbroken, hc.symm]

theorem unbroken_intercalate {sep : String} (hsep : Unbroken sep) :
    ∀ {ss : List String}, (∀ s ∈ ss, Unbroken s) → Unbroken (sep.intercalate ss)
  | [], _ => by simp [Unbroken]
  | [s], h => by simpa [Unbroken] using h s List.mem_cons_self
  | s :: t :: ss, h => by
    have hrest : Unbroken (sep.intercalate (t :: ss)) :=
      unbroken_intercalate hsep fun u hu => h u (List.mem_cons_of_mem _ hu)
    have hs : Unbroken s := h s List.mem_cons_self
    unfold Unbroken at hs hsep hrest ⊢
    rw [String.toList_intercalate] at hrest ⊢
    rw [List.map_cons] at hrest
    rw [List.map_cons, List.map_cons, List.intercalate_cons_cons]
    simp only [List.mem_append, not_or]
    exact ⟨⟨hs, hsep⟩, hrest⟩

/-! ### Numbers -/

theorem digitChar_ne_newline : ∀ d < 16, Nat.digitChar d ≠ '\n' := by
  decide

theorem newline_not_mem_toDigits {base : Nat} (hbase : 1 < base) (hle : base ≤ 16) (n : Nat) :
    '\n' ∉ Nat.toDigits base n := by
  induction n using Nat.strong_induction_on with
  | _ n ih =>
    rw [Nat.toDigits_eq_if hbase]
    split
    · next hlt =>
      have := digitChar_ne_newline _ (Nat.lt_of_lt_of_le hlt hle)
      simp [this.symm]
    · next hge =>
      have hrest := ih (n / base) (Nat.div_lt_self (by omega) hbase)
      have hdigit := digitChar_ne_newline _ (Nat.lt_of_lt_of_le (Nat.mod_lt n (by omega)) hle)
      simp [hrest, hdigit.symm]

theorem unbroken_nat (n : Nat) : Unbroken (toString n) := by
  rw [Unbroken, Nat.toString_eq_ofList_toDigits, String.toList_ofList]
  exact newline_not_mem_toDigits (by decide) (by decide) n

theorem unbroken_int (n : Int) : Unbroken (toString n) := by
  change Unbroken n.repr
  rw [Int.repr_eq_if]
  split
  · exact unbroken_nat _
  · exact Unbroken.append (by decide) (unbroken_nat _)

theorem unbroken_offset (n : Nat) : Unbroken (offset n) :=
  (unbroken_replicate (by decide) _).append (unbroken_nat n)

theorem unbroken_column (n : Nat) : Unbroken (column n) :=
  (unbroken_replicate (by decide) _).append (unbroken_nat n)

theorem Unbroken.padRight {s : String} (h : Unbroken s) (width : Nat) : Unbroken (padRight width s) :=
  h.append (unbroken_replicate (by decide) _)

end Text

open Text

namespace Decimal

theorem unbroken_positional (d : Decimal) : Unbroken d.positional := by
  have hdigits : '\n' ∉ d.characters := unbroken_nat d.digits
  unfold positional
  dsimp only
  split
  · simp [Unbroken, hdigits]
  · split
    · have htake : '\n' ∉ d.characters.take (d.characters.length + d.exponent).toNat :=
        fun h => hdigits (List.mem_of_mem_take h)
      have hdrop : '\n' ∉ d.characters.drop (d.characters.length + d.exponent).toNat :=
        fun h => hdigits (List.mem_of_mem_drop h)
      simp [Unbroken, htake, hdrop]
    · refine Unbroken.append (by decide) ?_
      simp [Unbroken, hdigits]

theorem unbroken_scientific (d : Decimal) : Unbroken d.scientific := by
  have hdigits : '\n' ∉ d.characters := unbroken_nat d.digits
  have htake : '\n' ∉ d.characters.take 1 := fun h => hdigits (List.mem_of_mem_take h)
  have hdrop : '\n' ∉ d.characters.drop 1 := fun h => hdigits (List.mem_of_mem_drop h)
  unfold scientific
  dsimp only
  refine (Unbroken.append ?_ (by decide)).append (unbroken_int _)
  split
  · simpa [Unbroken] using htake
  · simp only [Unbroken, String.toList_ofList, List.mem_append, List.mem_cons, not_or]
    exact ⟨htake, by decide, hdrop⟩

end Decimal

theorem Single.unbroken_general (x : Single) : Unbroken x.general := by
  have hsign : ∀ negative, Unbroken (signText negative) := by decide
  unfold general withFinite
  split
  · decide
  · exact (hsign _).append (by decide)
  · refine (hsign _).append ?_
    dsimp only
    split
    · exact Decimal.unbroken_scientific _
    · split
      · exact (Decimal.unbroken_positional _).append (by decide)
      · exact Decimal.unbroken_positional _

namespace Text

/-! ### Texts of the source -/

theorem newline_not_mem_quoteChar (quote c : Char) :
    '\n' ∉ quoteChar quote c := by
  unfold quoteChar
  split
  · decide
  · split
    · decide
    · split
      · decide
      · split
        · decide
        · next hne =>
          split
          · simp [Ne.symm hne]
          · split
            · have : '\n' ∉ Nat.toDigits 16 c.toNat :=
                newline_not_mem_toDigits (by decide) (by decide) _
              simp [this]
            · simp [Ne.symm hne]

/-- Newlines in quotes are escaped. -/
theorem unbroken_quoted {quote : Char} (hquote : quote ≠ '\n') (cs : List Char) :
    Unbroken (quoted quote cs) := by
  rw [Unbroken, quoted, String.toList_ofList]
  simp only [List.cons_append, List.mem_cons, List.mem_append, List.mem_flatMap, List.not_mem_nil,
    or_false, not_or, not_exists, not_and]
  exact ⟨hquote.symm, fun c _ => newline_not_mem_quoteChar quote c, hquote.symm⟩

theorem unbroken_of_isName {s : String} (h : Token.IsName s) : Unbroken s := by
  obtain ⟨⟨c, more, hs, hc, hmore⟩, -⟩ := h
  have hall : ∀ d ∈ s.toList, Token.isNameChar d = true := by
    rw [hs]
    exact List.forall_mem_cons.2 ⟨Token.isNameChar_of_isNameStart hc, hmore⟩
  intro hmem
  exact absurd (hall _ hmem) (by decide)

/-- Lines without newlines are the pieces of a text that ends each of them with one. -/
theorem split_lines : ∀ {ls : List (List Char)}, (∀ l ∈ ls, '\n' ∉ l) →
    split (ls.flatMap (· ++ ['\n'])) = ls ++ [[]]
  | [], _ => rfl
  | l :: ls, h => by
    have hl : '\n' ∉ l := h l List.mem_cons_self
    rw [List.flatMap_cons, List.append_assoc, List.singleton_append, split_line hl,
      split_lines fun l hl => h l (List.mem_cons_of_mem _ hl), List.cons_append]

end Text

namespace Annotation

theorem unbroken_text (a : Annotation) : Unbroken a.text := by
  cases a with
  | named type => exact Unbroken.append (by decide) (unbroken_nat _)
  | _ => decide

end Annotation

/-- A source that is compiled has been scanned and read. -/
theorem Session.of_bytecode {source : String} {b : Bytecode}
    (h : (Session.compile source).bytecode = some b) :
    ∃ tokens pool p, Token.scan source = .ok (tokens, pool) ∧ Program.read tokens pool = .ok p ∧
      p.compile pool = .ok b := by
  unfold Session.compile at h
  cases hscan : Token.scan source with
  | error e =>
    rw [hscan] at h
    cases h
  | ok r =>
    obtain ⟨tokens, pool⟩ := r
    rw [hscan] at h
    cases hread : Program.read tokens pool with
    | error e =>
      simp only [hread] at h
      cases h
    | ok p =>
      simp only [hread] at h
      cases hcompile : p.compile pool with
      | error e =>
        simp only [hcompile] at h
        cases h
      | ok b' =>
        simp only [hcompile] at h
        cases h
        exact ⟨tokens, pool, p, rfl, hread, hcompile⟩

/-! ## Lines of listings -/

namespace Listing

open Compile (Named)

variable {b : Bytecode}

theorem unbroken_binders {xs : List (Symbol × Annotation)}
    (h : ∀ q ∈ xs, Token.IsName (b.text q.1)) : Unbroken (binders b xs) := by
  refine unbroken_intercalate (by decide) fun s hs => ?_
  obtain ⟨q, hq, rfl⟩ := List.mem_map.1 hs
  exact ((unbroken_of_isName (h q hq)).append (by decide)).append q.2.unbroken_text

theorem unbroken_opcode (op : Opcode) : Unbroken op.name := by
  cases op with
  | binary op => cases op <;> decide
  | unary op => cases op <;> decide
  | _ => decide

theorem unbroken_operandText (hb : Named b) {offset : Nat} {i : Instruction}
    (hi : (offset, i) ∈ b.instructions) {s : String} (hs : operandText b i = some s) : Unbroken s := by
  have hname : ∀ n, i.name? = some n → Unbroken (b.text n) := fun n hn =>
    unbroken_of_isName (hb.code _ hi n hn)
  have hfunction : ∀ id, Unbroken ((b.function? id).elim "?" fun f => b.text f.name) := by
    intro id
    cases hf : b.function? id with
    | none => exact (by decide : Unbroken "?")
    | some f =>
      rw [Bytecode.function?, ← Array.getElem?_toList] at hf
      exact unbroken_of_isName (hb.functions f (List.mem_of_getElem? hf)).1
  have hstruct : ∀ id, Unbroken ((b.struct? id).elim "?" fun f => b.text f.name) := by
    intro id
    cases hf : b.struct? id with
    | none => exact (by decide : Unbroken "?")
    | some f =>
      rw [Bytecode.struct?, ← Array.getElem?_toList] at hf
      exact unbroken_of_isName (hb.structs f (List.mem_of_getElem? hf)).1
  cases i with
  | pushInt n =>
    obtain rfl := Option.some.inj hs
    exact unbroken_int _
  | pushUInt n =>
    obtain rfl := Option.some.inj hs
    exact (unbroken_nat _).append (by decide)
  | pushFloat x =>
    obtain rfl := Option.some.inj hs
    exact x.unbroken_general
  | pushChar c =>
    obtain rfl := Option.some.inj hs
    exact unbroken_quoted (by decide) _
  | pushString n =>
    obtain rfl := Option.some.inj hs
    exact ((unbroken_column _).append (by decide)).append (unbroken_quoted (by decide) _)
  | getField n | setField n =>
    obtain rfl := Option.some.inj hs
    exact (((unbroken_column _).append (by decide)).append (hname n rfl)).append (by decide)
  | pushFunction id | callFunction id =>
    obtain rfl := Option.some.inj hs
    exact (((unbroken_column _).append (by decide)).append (hfunction id)).append (by decide)
  | getLocal n | setLocal n | call n | shrinkLocals n | createArray n =>
    obtain rfl := Option.some.inj hs
    exact unbroken_column _
  | jump target | jumpIfFalse target =>
    obtain rfl := Option.some.inj hs
    exact Unbroken.append (by decide) (unbroken_offset _)
  | construct type args =>
    obtain rfl := Option.some.inj hs
    exact ((((unbroken_column _).append (by decide)).append (hstruct type)).append (by decide)).append
      (unbroken_nat _)
  | callMethod n args =>
    obtain rfl := Option.some.inj hs
    exact ((((unbroken_column _).append (by decide)).append (hname n rfl)).append (by decide)).append
      (unbroken_nat _)
  | _ => cases hs

theorem unbroken_codeLine (hb : Named b) {offset : Nat} {i : Instruction}
    (hi : (offset, i) ∈ b.instructions) : Unbroken (codeLine b offset i) := by
  refine ((unbroken_offset _).append (by decide)).append ?_
  unfold instructionText
  split
  · next operands hoperands =>
    exact (((unbroken_opcode _).padRight 20).append (by decide)).append
      (unbroken_operandText hb hi hoperands)
  · exact unbroken_opcode _

theorem unbroken_header (hb : Named b) {f : FunctionEntry} {id : Nat}
    (hf : (f, id) ∈ b.functions.toList.zipIdx) : Unbroken (header b f id) := by
  obtain ⟨hname, hparams⟩ := hb.functions f
    (List.mem_of_getElem? (List.mk_mem_zipIdx_iff_getElem?.1 hf))
  have htext := unbroken_of_isName hname
  have hbinders := unbroken_binders hparams
  exact ((((((Unbroken.append (by decide) (unbroken_nat _)).append (by decide)).append htext).append
    (by decide)).append hbinders).append (by decide))

theorem unbroken_structLine (hb : Named b) {s : StructEntry} (hs : s ∈ b.structs.toList) (id : Nat) :
    Unbroken (structLine b s id) := by
  obtain ⟨hname, hfields⟩ := hb.structs s hs
  have htext := unbroken_of_isName hname
  have hbinders := unbroken_binders hfields
  exact ((((((Unbroken.append (by decide) (unbroken_nat _)).append (by decide)).append htext).append
    (by decide)).append hbinders).append (by decide))

theorem unbroken_lines (hb : Named b) (hl : ListsExactly b) : ∀ line ∈ lines b, Unbroken line := by
  intro line hline
  rw [hl.lines] at hline
  rcases List.mem_append.1 hline with hline | hline
  · rcases List.mem_cons.1 hline with rfl | hline
    · decide
    · obtain ⟨x, hx, hline⟩ := List.mem_flatMap.1 hline
      rcases List.mem_append.1 hline with hline | hline
      · obtain ⟨f, id, hf, -, rfl⟩ := of_mem_heading hline
        exact unbroken_header hb hf
      · rw [List.mem_singleton.1 hline]
        exact unbroken_codeLine hb hx
  · rw [hl.structures] at hline
    split at hline
    · cases hline
    · rcases List.mem_cons.1 hline with rfl | hline
      · decide
      · obtain ⟨s, hs, rfl⟩ := List.mem_map.1 hline
        refine unbroken_structLine hb ?_ _
        exact List.mem_of_getElem? (List.mk_mem_zipIdx_iff_getElem?.1 hs)

/-- The text of a listing consists of its lines. -/
theorem split_text (h : ∀ line ∈ lines b, Unbroken line) :
    split (text b).toList = (lines b).map String.toList ++ [[]] := by
  have htext : (text b).toList = ((lines b).map String.toList).flatMap (· ++ ['\n']) := by
    simp [text, String.toList_join, List.flatMap_map]
  rw [htext]
  refine split_lines fun l hl => ?_
  obtain ⟨line, hline, rfl⟩ := List.mem_map.1 hl
  exact h line hline

/-! ## Listings of sources -/

/-- The listing of a program that is compiled from a source shows each of its instructions in one line,
each function by one heading, and each structure in one line; and what is shown consists of these
lines, as long as the places of the pool fit into symbols. The listing of any code ends, and goes along
with the decoding of the code as long as that goes on. -/
theorem lists_program :
    (∀ (source : String) (b : Bytecode), (Session.compile source).bytecode = some b →
      ListsExactly b ∧ (b.strings.size ≤ 2 ^ 32 →
        split (text b).toList = (lines b).map String.toList ++ [[]])) ∧
    ∀ b : Bytecode, ∃ turns, FollowsDecoding b turns := by
  refine ⟨fun source b h => ?_, turns_follow_decoding⟩
  obtain ⟨tokens, pool, p, hscan, hread, hcompile⟩ := Session.of_bytecode h
  obtain ⟨hasc, hstarts⟩ := Program.functions_apart hcompile
  have hlists := listsExactly_of_reads (Compile.reads_of_compile hcompile) hasc hstarts
  refine ⟨hlists, fun hsize => split_text (unbroken_lines ?_ hlists)⟩
  obtain ⟨env, hi⟩ := Compile.image_of_compile hcompile
  rw [hi.strings] at hsize
  exact Compile.named_of_compile hscan hsize hread hcompile

theorem lists_program_methods : ∃ b,
    (Session.compile
      "type P \x7b x \x7d func f(a) \x7b return a.x; \x7d f(P('\\n')).g(\"\\n\");").bytecode = some b ∧
    b.strings.size ≤ 2 ^ 32 ∧ b.functions.size = 1 ∧ b.structs.size = 1 ∧
    ListsExactly b ∧ split (text b).toList = (lines b).map String.toList ++ [[]] ∧
    ∃ turns, FollowsDecoding b turns := by
  have hcompiles : ((Session.compile
      "type P \x7b x \x7d func f(a) \x7b return a.x; \x7d f(P('\\n')).g(\"\\n\");").bytecode.any fun b =>
        b.strings.size ≤ 2 ^ 32 ∧ b.functions.size = 1 ∧ b.structs.size = 1) = true := by
    decide +kernel
  obtain ⟨b, hb, hsizes⟩ := (Option.any_eq_true _ _).1 hcompiles
  obtain ⟨hstrings, hfunctions, hstructs⟩ := of_decide_eq_true hsizes
  obtain ⟨hlists, hsplit⟩ := lists_program.1 _ b hb
  exact ⟨b, hb, hstrings, hfunctions, hstructs, hlists, hsplit hstrings, lists_program.2 b⟩

end Listing

end Scriptlet
