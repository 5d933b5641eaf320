import Scriptlet.Proofs.Code.Origins
import Scriptlet.Proofs.Code.RoundTrip
import Scriptlet.Report

/-!
# Listings list the program

A listing goes through the code turn by turn: a turn writes the heading of the function that starts at
its offset, if one does, and a line for what stands there, and goes on behind it. As long as
instructions are read these turns are those of `Instruction.decodeAll` (`Listing.codeLines_of_reads`).
In compiled code they are the whole code, and every function starts at one of them and apart from the
others (`Program.functions_apart`), so every heading is written once.

Main statement: `Listing.turns_follow_decoding`.
-/

namespace Scriptlet

/-- What is read from a place on is a beginning of what is read from there to the end. -/
theorem Reads.isPrefix {code : Array UInt8} {lo mid : Nat} {is js : List (Nat × Instruction)}
    (h : Reads code lo mid is) (h' : Reads code lo code.size js) : is <+: js := by
  induction h generalizing js with
  | nil => exact List.nil_prefix
  | @cons pc stop i is hd _ ih =>
    cases h' with
    | nil => exact absurd (Instruction.lt_of_decode hd) (Nat.lt_irrefl _)
    | cons hd' rest =>
      rw [hd] at hd'
      cases hd'
      exact List.cons_prefix_cons.2 ⟨rfl, ih rest⟩

/-- Instructions of a range have offsets of their own, in order. -/
theorem Reads.ascending {code : Array UInt8} {lo hi : Nat} {is : List (Nat × Instruction)}
    (h : Reads code lo hi is) : (is.map Prod.fst).Pairwise (· < ·) := by
  induction h with
  | nil => exact .nil
  | @cons pc stop i is _ rest ih =>
    refine .cons (fun q hq => ?_) ih
    obtain ⟨⟨q, j⟩, hj, rfl⟩ := List.mem_map.1 hq
    have := (rest.of_mem hj).1
    have := i.width_pos
    dsimp only
    omega

/-! ## Where functions start -/

namespace Compile

variable {env : Env}

/-- Statements that end with a return have code. -/
theorem stmts_size_pos {ss : List Stmt} {sc last : Scope} {f : Fragment}
    (h : stmts env sc ss = .ok (f, last)) (hr : endsWithReturn ss = true) : 0 < f.size := by
  induction ss generalizing sc f with
  | nil => cases hr
  | cons s ss ih =>
    obtain ⟨fs, next, fss, hs, hss, rfl⟩ := stmts_cons h
    rw [Fragment.size_append]
    cases ss with
    | nil =>
      cases s with
      | giveBack value span =>
        cases stmt_code hs with
        | giveBack =>
          rw [Fragment.size_emit]
          have := Instruction.ret.width_pos
          omega
        | giveBackValue =>
          rw [Fragment.size_emit]
          have := Instruction.retValue.width_pos
          omega
      | _ => cases hr
    | cons t ss =>
      rw [endsWithReturn_cons] at hr
      have := ih hss hr
      omega

theorem functionBody_size_pos {d : Function} {f : Fragment} (h : functionBody env d = .ok f) :
    0 < f.size := by
  obtain ⟨sc, fb, last, -, hbody, rfl⟩ := functionBody_ok h
  split
  · next hr => exact stmts_size_pos hbody hr
  · rw [Fragment.size_emit]
    have := Instruction.ret.width_pos
    omega

/-- Bodies that stand one behind the other consist of instructions, and each starts with one. -/
theorem BodiesAt.reads {table : Array FunctionEntry} {code : Array UInt8} {k offset : Nat}
    {ds : List Function} (h : BodiesAt env table code k offset ds) (hk : table.size = k + ds.length) :
    ∃ stop is, Reads code offset stop is ∧
      ((table.toList.drop k).map FunctionEntry.offset).Pairwise (· < ·) ∧
      ∀ e ∈ table.toList.drop k, ∃ i, (e.offset, i) ∈ is := by
  induction ds generalizing k offset with
  | nil =>
    have hnil : table.toList.drop k = [] := by
      apply List.drop_eq_nil_of_le
      rw [Array.length_toList, hk]
      exact Nat.le_refl k
    rw [hnil]
    exact ⟨offset, [], .nil offset, .nil, nofun⟩
  | cons d ds ih =>
    obtain ⟨f, hentry, hf, hp, hat⟩ := h
    obtain ⟨is, hr, -⟩ := ((functionBody_traced hf).charted (hp ⟨0, 0⟩)).traced
    rw [List.length_cons] at hk
    obtain ⟨stop, js, hr', hasc, hstarts⟩ := ih hat (by omega)
    have hpos := functionBody_size_pos hf
    rw [← Array.getElem?_toList] at hentry
    obtain ⟨hlt, hget⟩ := List.getElem?_eq_some_iff.1 hentry
    rw [List.drop_eq_getElem_cons hlt, hget]
    refine ⟨stop, is ++ js, hr.append hr', ?_, ?_⟩
    · refine .cons (fun q hq => ?_) hasc
      obtain ⟨e, he, rfl⟩ := List.mem_map.1 hq
      obtain ⟨i, hi⟩ := hstarts e he
      have := (hr'.of_mem hi).1
      dsimp only
      omega
    · intro e he
      rcases List.mem_cons.1 he with rfl | he
      · obtain ⟨i, hi⟩ := hr.exists_mem_start (by omega)
        exact ⟨i, List.mem_append_left _ hi⟩
      · obtain ⟨i, hi⟩ := hstarts e he
        exact ⟨i, List.mem_append_right _ hi⟩

theorem reads_of_compile {p : Program} {pool : Pool} {b : Bytecode} (h : p.compile pool = .ok b) :
    Reads b.code 0 b.size b.instructions := by
  obtain ⟨is, hr, -⟩ := (charted_of_compile h).traced
  rwa [Bytecode.instructions, Instruction.decodeAll, hr.decodeFrom_eq rfl]

end Compile

open Compile in
/-- The functions of a compiled program start one behind the other, each with an instruction. -/
theorem Program.functions_apart {p : Program} {pool : Pool} {b : Bytecode}
    (h : p.compile pool = .ok b) :
    (b.functions.toList.map FunctionEntry.offset).Pairwise (· < ·) ∧
      ∀ f ∈ b.functions.toList, ∃ i, (f.offset, i) ∈ b.instructions := by
  obtain ⟨env, hi⟩ := image_of_compile h
  obtain ⟨fm, last, hstmts, hp, hat⟩ := hi.code
  have hmain : (fm.emit .halt).Traced _ := (stmts_traced hstmts).emit rfl
  obtain ⟨is, hr, -⟩ := (hmain.charted (hp ⟨0, 0⟩)).traced
  rw [Nat.zero_add] at hr
  obtain ⟨stop, js, hr', hasc, hstarts⟩ := hat.reads (by rw [hi.size, Nat.zero_add])
  rw [List.drop_zero] at hasc hstarts
  have hprefix := (hr.append hr').isPrefix (reads_of_compile h)
  refine ⟨hasc, fun f hf => ?_⟩
  obtain ⟨i, hi⟩ := hstarts f hf
  exact ⟨i, hprefix.subset (List.mem_append_right _ hi)⟩

namespace Listing

variable {b : Bytecode}

/-! ## Turns -/

/-- The line of an instruction. -/
def codeLine (b : Bytecode) (offset : Nat) (i : Instruction) : String :=
  Text.offset offset ++ " " ++ instructionText b i

/-- The line of a place where no instruction starts. -/
def stopLine (b : Bytecode) (offset : Nat) : String :=
  match Instruction.decode b.code offset with
  | .unknown byte => Text.offset offset ++ " Unknown opcode " ++ toString byte.toNat
  | _ => Text.offset offset ++ " <truncated>"

/-- The lines of turns: of each the heading, if there is one, and its own line. -/
def turnLines (b : Bytecode) (turns : List (Nat × String)) : List String :=
  turns.flatMap fun t => heading b t.1 ++ [t.2]

/-- The turns of instructions. -/
def decodedTurns (b : Bytecode) (is : List (Nat × Instruction)) : List (Nat × String) :=
  is.map fun x => (x.1, codeLine b x.1 x.2)

theorem codeLines_of_le {offset : Nat} (h : b.size ≤ offset) : codeLines b offset = [] := by
  have hlt : ¬ offset < b.code.size := Nat.not_lt.2 h
  rw [codeLines, if_neg hlt]

theorem codeLines_of_instruction {offset : Nat} {i : Instruction}
    (h : Instruction.decode b.code offset = .instruction i) :
    codeLines b offset = heading b offset ++ codeLine b offset i :: codeLines b (offset + i.width) := by
  rw [codeLines, if_pos (Instruction.lt_of_decode h), h]
  rfl

/-- While instructions are read, turns are theirs. -/
theorem codeLines_of_reads {lo hi : Nat} {is : List (Nat × Instruction)} (h : Reads b.code lo hi is) :
    codeLines b lo = turnLines b (decodedTurns b is) ++ codeLines b hi := by
  induction h with
  | nil => rfl
  | @cons pc stop i is hd _ ih =>
    rw [codeLines_of_instruction hd, ih]
    simp [turnLines, decodedTurns]

/-- Where all code is read, turns are those of its instructions. -/
theorem codeLines_whole (h : Reads b.code 0 b.size b.instructions) :
    codeLines b 0 = turnLines b (decodedTurns b b.instructions) := by
  rw [codeLines_of_reads h, codeLines_of_le (Nat.le_refl b.size), List.append_nil]

/-- Every listing of code is made of turns that go on through the code. -/
theorem exists_turns (b : Bytecode) (offset : Nat) : ∃ turns,
    codeLines b offset = turnLines b turns ∧ (turns.map Prod.fst).Pairwise (· < ·) ∧
      (∀ t ∈ turns, offset ≤ t.1 ∧ t.1 < b.size) ∧
      ((∀ i, Instruction.decode b.code offset ≠ .instruction i) → offset < b.size →
        ∃ more, turns = (offset, stopLine b offset) :: more) := by
  induction hn : b.size - offset using Nat.strong_induction_on generalizing offset with
  | _ n ih =>
  subst hn
  by_cases hlt : offset < b.size
  · -- What a turn goes on with is made of turns behind it.
    have hstep : ∀ next line, offset < next →
        codeLines b offset = heading b offset ++ line :: codeLines b next →
        ∃ turns, codeLines b offset = turnLines b turns ∧ (turns.map Prod.fst).Pairwise (· < ·) ∧
          (∀ t ∈ turns, offset ≤ t.1 ∧ t.1 < b.size) ∧
          ∃ more, turns = (offset, line) :: more := by
      intro next line hnext hlines
      obtain ⟨turns, hrest, hasc, hin, -⟩ := ih _ (by omega) next rfl
      refine ⟨(offset, line) :: turns, ?_, ?_, ?_, turns, rfl⟩
      · rw [hlines, hrest]
        simp [turnLines]
      · refine .cons (fun q hq => ?_) hasc
        obtain ⟨t, ht, rfl⟩ := List.mem_map.1 hq
        have := hin t ht
        omega
      · intro t ht
        rcases List.mem_cons.1 ht with rfl | ht
        · exact ⟨Nat.le_refl _, hlt⟩
        · have := hin t ht
          omega
    have hsize : offset < b.code.size := hlt
    cases hd : Instruction.decode b.code offset with
    | instruction i =>
      have := i.width_pos
      obtain ⟨turns, hlines, hasc, hin, -⟩ := hstep _ _ (by omega) (codeLines_of_instruction hd)
      exact ⟨turns, hlines, hasc, hin, fun h => absurd rfl (h i)⟩
    | truncated =>
      have hline : stopLine b offset = Text.offset offset ++ " <truncated>" := by rw [stopLine, hd]
      have hlines : codeLines b offset =
          heading b offset ++ stopLine b offset :: codeLines b b.size := by
        rw [codeLines_of_le (Nat.le_refl b.size), codeLines, if_pos hsize, hd, hline]
      obtain ⟨turns, hlines, hasc, hin, hfirst⟩ := hstep _ _ hlt hlines
      exact ⟨turns, hlines, hasc, hin, fun _ _ => hfirst⟩
    | unknown byte =>
      have hline : stopLine b offset =
          Text.offset offset ++ " Unknown opcode " ++ toString byte.toNat := by
        rw [stopLine, hd]
      have hlines : codeLines b offset =
          heading b offset ++ stopLine b offset :: codeLines b (offset + 1) := by
        rw [codeLines, if_pos hsize, hd, hline]
      obtain ⟨turns, hlines, hasc, hin, hfirst⟩ := hstep _ _ (Nat.lt_succ_self _) hlines
      exact ⟨turns, hlines, hasc, hin, fun _ _ => hfirst⟩
  · refine ⟨[], ?_, .nil, nofun, fun _ h => absurd h hlt⟩
    rw [codeLines_of_le (Nat.not_lt.1 hlt)]
    rfl

theorem length_le_of_ascending {ns : List Nat} {size : Nat} (h : ns.Pairwise (· < ·))
    (hlt : ∀ n ∈ ns, n < size) : ns.length ≤ size := by
  have hnodup : ns.Nodup := h.imp fun hab => Nat.ne_of_lt hab
  have hsub : ns ⊆ List.range size := fun n hn => List.mem_range.2 (hlt n hn)
  have := (hnodup.subperm hsub).length_le
  rwa [List.length_range] at this

/-- The listing of any code ends, after at most one turn for each byte. Its turns are those of the
instructions that decoding reads, and no others unless decoding stops short of the end; then the
next turn shows what decoding stopped at. -/
structure FollowsDecoding (b : Bytecode) (turns : List (Nat × String)) : Prop where
  lines : codeLines b 0 = turnLines b turns
  ascending : (turns.map Prod.fst).Pairwise (· < ·)
  inside : ∀ t ∈ turns, t.1 < b.size
  bounded : turns.length ≤ b.size
  decoded : ∃ rest, turns = decodedTurns b b.instructions ++ rest ∧
    (rest = [] ∧ Reads b.code 0 b.size b.instructions ∨
      ∃ stop more, Reads b.code 0 stop b.instructions ∧ Instruction.StopsAt b.code stop ∧
        rest = (stop, stopLine b stop) :: more)

theorem turns_follow_decoding (b : Bytecode) : ∃ turns, FollowsDecoding b turns := by
  obtain ⟨stop, hr, hstop⟩ := Instruction.reads_decodeFrom b.code 0 (Nat.zero_le _)
  obtain ⟨more, hmore, hasc, hin, hfirst⟩ := exists_turns b stop
  have hlines := codeLines_of_reads hr
  rw [hmore] at hlines
  have hturns : codeLines b 0 = turnLines b (decodedTurns b b.instructions ++ more) := by
    rw [hlines, turnLines, turnLines, turnLines, List.flatMap_append]
    rfl
  have hoffsets : (decodedTurns b b.instructions).map Prod.fst = b.instructions.map Prod.fst := by
    simp [decodedTurns]
  have hasc' : ((decodedTurns b b.instructions ++ more).map Prod.fst).Pairwise (· < ·) := by
    rw [List.map_append, hoffsets]
    refine List.pairwise_append.2 ⟨hr.ascending, hasc, fun p hp q hq => ?_⟩
    obtain ⟨x, hx, rfl⟩ := List.mem_map.1 hp
    obtain ⟨t, ht, rfl⟩ := List.mem_map.1 hq
    have := (hr.of_mem hx).2.1
    have := x.2.width_pos
    have := (hin t ht).1
    omega
  have hin' : ∀ t ∈ decodedTurns b b.instructions ++ more, t.1 < b.size := by
    intro t ht
    rcases List.mem_append.1 ht with ht | ht
    · obtain ⟨x, hx, rfl⟩ := List.mem_map.1 ht
      exact Instruction.lt_of_decode (hr.of_mem hx).2.2
    · exact (hin t ht).2
  refine ⟨_, hturns, hasc', hin', ?_, more, rfl, ?_⟩
  · have hlt : ∀ n ∈ (decodedTurns b b.instructions ++ more).map Prod.fst, n < b.size := by
      intro n hn
      obtain ⟨t, ht, rfl⟩ := List.mem_map.1 hn
      exact hin' t ht
    have := length_le_of_ascending hasc' hlt
    rwa [List.length_map] at this
  · rcases hstop with rfl | hstop
    · refine .inl ⟨?_, hr⟩
      refine List.eq_nil_iff_forall_not_mem.2 fun t ht => ?_
      have := hin t ht
      rw [Bytecode.size] at this
      omega
    · obtain ⟨byte, hbyte, hkind⟩ := hstop
      obtain ⟨more', rfl⟩ := hfirst (fun i hi => by
        rcases hkind with ⟨-, hd⟩ | ⟨op, -, -, hd⟩
        · rw [hi] at hd
          cases hd
        · rw [hi] at hd
          cases hd) (Array.getElem?_eq_some_iff.1 hbyte).1
      exact .inr ⟨stop, more', hr, ⟨byte, hbyte, hkind⟩, rfl⟩

/-! ## Headings -/

/-- The heading of a function with its number. -/
def header (b : Bytecode) (f : FunctionEntry) (id : Nat) : String :=
  "== #" ++ toString id ++ " " ++ b.text f.name ++ "(" ++ binders b f.params ++ ") =="

theorem heading_of_mem {f : FunctionEntry} {id : Nat}
    (h : (b.functions.toList.map FunctionEntry.offset).Pairwise (· < ·))
    (hf : (f, id) ∈ b.functions.toList.zipIdx) : heading b f.offset = [header b f id] := by
  have hget := List.mk_mem_zipIdx_iff_getElem?.1 hf
  cases hfind : b.functions.toList.zipIdx.find? fun x => x.1.offset = f.offset with
  | none =>
    have := List.find?_eq_none.1 hfind (f, id) hf
    simp at this
  | some x =>
    obtain ⟨g, id'⟩ := x
    have hoffset : g.offset = f.offset := by simpa using List.find?_some hfind
    have hget' := List.mk_mem_zipIdx_iff_getElem?.1 (List.mem_of_find?_eq_some hfind)
    -- Functions with one offset are one function.
    have hsame : id = id' := by
      refine (List.getElem?_inj ?_ (h.imp fun hab => Nat.ne_of_lt hab)).1 ?_
      · rw [List.length_map]
        exact (List.getElem?_eq_some_iff.1 hget).1
      · rw [List.getElem?_map, List.getElem?_map, hget, hget']
        exact congrArg some hoffset.symm
    subst hsame
    cases hget.symm.trans hget'
    rw [heading, hfind]
    rfl

theorem of_mem_heading {offset : Nat} {line : String} (h : line ∈ heading b offset) :
    ∃ f id, (f, id) ∈ b.functions.toList.zipIdx ∧ f.offset = offset ∧ line = header b f id := by
  unfold heading at h
  split at h
  · next f id hfind =>
    refine ⟨f, id, List.mem_of_find?_eq_some hfind, ?_, List.mem_singleton.1 h⟩
    simpa using List.find?_some hfind
  · cases h

theorem toList_header (b : Bytecode) (f : FunctionEntry) (id : Nat) : ∃ more,
    (header b f id).toList = '=' :: '=' :: ' ' :: '#' :: (Nat.toDigits 10 id ++ ' ' :: more) := by
  refine ⟨(b.text f.name ++ "(" ++ binders b f.params ++ ") ==").toList, ?_⟩
  simp [header]

/-- Headings of different functions differ in the number. -/
theorem header_inj {f g : FunctionEntry} {id id' : Nat} (h : header b f id = header b g id') :
    id = id' := by
  obtain ⟨more, hmore⟩ := toList_header b f id
  obtain ⟨more', hmore'⟩ := toList_header b g id'
  rw [h, hmore'] at hmore
  simp only [List.cons.injEq, true_and] at hmore
  have hdigits : ∀ (n : Nat) (rest : List Char),
      (Nat.toDigits 10 n ++ ' ' :: rest).takeWhile Char.isDigit = Nat.toDigits 10 n := by
    intro n rest
    rw [List.takeWhile_append_of_pos fun d hd => Nat.isDigit_of_mem_toDigits (by decide) (by decide) hd]
    simp
  have := congrArg (List.takeWhile Char.isDigit) hmore
  rw [hdigits, hdigits] at this
  have hvalue := congrArg (fun ds => Nat.ofDigitChars 10 ds 0) this
  simpa using hvalue.symm

theorem isDigit_offset (n : Nat) : ∀ c ∈ (Text.offset n).toList, c.isDigit = true := by
  intro c hc
  rw [Text.offset, Text.padLeft, String.toList_append, String.toList_ofList, List.mem_append] at hc
  rcases hc with hc | hc
  · rw [List.eq_of_mem_replicate hc]
    rfl
  · rw [Nat.toString_eq_ofList_toDigits, String.toList_ofList] at hc
    exact Nat.isDigit_of_mem_toDigits (by decide) (by decide) hc

theorem offset_ne_nil (n : Nat) : (Text.offset n).toList ≠ [] := by
  have hdigits : (toString n).toList ≠ [] := by
    rw [Nat.toString_eq_ofList_toDigits, String.toList_ofList]
    exact Nat.toDigits_ne_nil
  rw [Text.offset, Text.padLeft, String.toList_append]
  exact List.append_ne_nil_of_right_ne_nil _ hdigits

/-- Lines of instructions begin with a digit, and headings do not. -/
theorem codeLine_ne_header {offset : Nat} {i : Instruction} {f : FunctionEntry} {id : Nat} :
    codeLine b offset i ≠ header b f id := by
  intro h
  obtain ⟨more, hmore⟩ := toList_header b f id
  obtain ⟨c, cs, hcs⟩ := List.exists_cons_of_ne_nil (offset_ne_nil offset)
  have hdigit := isDigit_offset offset c (hcs ▸ List.mem_cons_self)
  rw [← h, codeLine, String.toList_append, String.toList_append, hcs] at hmore
  have hc := (List.cons.inj hmore).1
  rw [hc] at hdigit
  exact absurd hdigit (by decide)

theorem header_not_mem_structLines {f : FunctionEntry} {id : Nat} :
    header b f id ∉ structLines b := by
  intro h
  obtain ⟨more, hmore⟩ := toList_header b f id
  unfold structLines at h
  split at h
  · cases h
  · rcases List.mem_cons.1 h with h | h
    · rw [h] at hmore
      simp at hmore
    · obtain ⟨s, -, hs⟩ := List.mem_map.1 h
      rw [← hs, structLine] at hmore
      simp at hmore

/-- A heading is written at the offset of its function only. -/
theorem header_not_mem_turnLines {f : FunctionEntry} {id : Nat} {is : List (Nat × Instruction)}
    (hf : (f, id) ∈ b.functions.toList.zipIdx) (his : ∀ x ∈ is, x.1 ≠ f.offset) :
    header b f id ∉ turnLines b (decodedTurns b is) := by
  intro h
  obtain ⟨t, ht, h⟩ := List.mem_flatMap.1 h
  obtain ⟨x, hx, rfl⟩ := List.mem_map.1 ht
  rcases List.mem_append.1 h with h | h
  · obtain ⟨g, id', hg, hoffset, hheader⟩ := of_mem_heading h
    obtain rfl := header_inj hheader
    have hget := List.mk_mem_zipIdx_iff_getElem?.1 hf
    rw [List.mk_mem_zipIdx_iff_getElem?.1 hg] at hget
    cases hget
    exact his x hx hoffset.symm
  · exact codeLine_ne_header (List.mem_singleton.1 h).symm

end Listing

/-! ## Listings of compiled programs -/

namespace Listing

/-- The listing of a program that is read as a whole. -/
structure ListsExactly (b : Bytecode) : Prop where
  /-- There is one line for each instruction, in order, with the heading of the function that starts
  there in front of it. -/
  lines : lines b = "== main ==" ::
    (b.instructions.flatMap fun x => heading b x.1 ++ [codeLine b x.1 x.2]) ++ structLines b
  /-- A line begins with the offset and the name of the operation code. -/
  begins : ∀ x ∈ b.instructions, ∃ rest,
    codeLine b x.1 x.2 = Text.offset x.1 ++ " " ++ x.2.opcode.name ++ rest
  /-- The heading of a function is written once, immediately in front of the line at its offset. -/
  headed : ∀ f id, (f, id) ∈ b.functions.toList.zipIdx →
    (Listing.lines b).count (header b f id) = 1 ∧
    ∃ i, (f.offset, i) ∈ b.instructions ∧ [header b f id, codeLine b f.offset i] <:+: Listing.lines b
  /-- There is one line for each structure, under a line of their own. -/
  structures : structLines b = if b.structs.isEmpty then []
    else "== structures ==" :: b.structs.toList.zipIdx.map fun s => structLine b s.1 s.2

theorem listsExactly_of_reads {b : Bytecode} (hr : Reads b.code 0 b.size b.instructions)
    (hasc : (b.functions.toList.map FunctionEntry.offset).Pairwise (· < ·))
    (hstarts : ∀ f ∈ b.functions.toList, ∃ i, (f.offset, i) ∈ b.instructions) : ListsExactly b where
  lines := by
    rw [Listing.lines, codeLines_whole hr, turnLines, decodedTurns, List.flatMap_map]
  begins x _ := by
    unfold codeLine instructionText
    split
    · next operands _ =>
      refine ⟨String.ofList (List.replicate (20 - x.2.opcode.name.length) ' ') ++ " " ++ operands, ?_⟩
      rw [Text.padRight]
      simp only [String.append_assoc]
    · exact ⟨"", String.append_empty.symm⟩
  headed f id hf := by
    have hget := List.mk_mem_zipIdx_iff_getElem?.1 hf
    obtain ⟨i, hi⟩ := hstarts f (List.mem_of_getElem? hget)
    obtain ⟨before, after, hsplit⟩ := List.append_of_mem hi
    -- The offset of the function is that of no other instruction.
    have hoffsets := hr.ascending
    rw [hsplit, List.map_append, List.map_cons, List.pairwise_append, List.pairwise_cons] at hoffsets
    obtain ⟨-, ⟨hlater, -⟩, hearlier⟩ := hoffsets
    have hbefore : header b f id ∉ turnLines b (decodedTurns b before) :=
      header_not_mem_turnLines hf fun x hx =>
        Nat.ne_of_lt (hearlier x.1 (List.mem_map_of_mem hx) f.offset List.mem_cons_self)
    have hafter : header b f id ∉ turnLines b (decodedTurns b after) :=
      header_not_mem_turnLines hf fun x hx =>
        (Nat.ne_of_lt (hlater x.1 (List.mem_map_of_mem hx))).symm
    have hlines : Listing.lines b = ("== main ==" :: turnLines b (decodedTurns b before)) ++
        [header b f id, codeLine b f.offset i] ++
        (turnLines b (decodedTurns b after) ++ structLines b) := by
      rw [Listing.lines, codeLines_whole hr, hsplit]
      simp [turnLines, decodedTurns, heading_of_mem hasc hf]
    have hmain : header b f id ≠ "== main ==" := by
      intro h
      obtain ⟨more, hmore⟩ := toList_header b f id
      rw [h] at hmore
      simp at hmore
    refine ⟨?_, i, hi, hlines ▸ List.infix_append _ _ _⟩
    rw [hlines, List.count_append, List.count_append, List.count_append, List.count_cons_of_ne hmain.symm,
      List.count_eq_zero.2 hbefore, List.count_eq_zero.2 hafter,
      List.count_eq_zero.2 header_not_mem_structLines, List.count_cons_self,
      List.count_cons_of_ne codeLine_ne_header, List.count_nil]
  structures := rfl

end Listing

end Scriptlet
