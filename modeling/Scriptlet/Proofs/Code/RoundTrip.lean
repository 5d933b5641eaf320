import Scriptlet.Proofs.Code.Stretches

/-!
# Instructions and their bytes

Writing instructions and reading them back are inverse to each other. The bytes of the instruction that
is read at an offset stand there (`bytesAt_of_decode`, against `decode_of_bytesAt`), so a range that is
read as whole instructions holds their bytes and nothing else (`Reads.bytesAt`). Reading goes on up to
the end of the code or a place where no instruction starts (`reads_decodeFrom`).

Main statement: `Instruction.codec_round_trip`.
-/

namespace Scriptlet

/-- The operation code of a byte has that byte. -/
theorem Opcode.toByte_of_ofByte? {b : UInt8} {op : Opcode} (h : ofByte? b = some op) :
    op.toByte = b := by
  have hnodup : table.toList.Nodup := by decide
  rw [ofByte?, ← Array.getElem?_toList] at h
  obtain ⟨hlt, rfl⟩ := List.getElem?_eq_some_iff.1 h
  rw [toByte, hnodup.idxOf_getElem _ hlt, UInt8.ofNat_toNat]

/-! ## Words -/

/-- A word is the number whose digits to the base 256 are its bytes. -/
theorem toNat_wordOfBytes (a b c d : UInt8) : (wordOfBytes a b c d).toNat =
    a.toNat * 2 ^ 24 + (b.toNat * 2 ^ 16 + (c.toNat * 2 ^ 8 + d.toNat)) := by
  have ha := a.toNat_lt
  have hb := b.toNat_lt
  have hc := c.toNat_lt
  have hd := d.toNat_lt
  have hor : ∀ x k y : Nat, y < 2 ^ k → x * 2 ^ k < 2 ^ 32 →
      x <<< k % 2 ^ 32 ||| y = x * 2 ^ k + y := fun x k y hy hx => by
    rw [← Nat.shiftLeft_eq] at hx ⊢
    rw [Nat.mod_eq_of_lt hx, Nat.shiftLeft_add_eq_or_of_lt hy]
  calc (wordOfBytes a b c d).toNat
      = a.toNat <<< 24 % 2 ^ 32 ||| (b.toNat <<< 16 % 2 ^ 32 |||
          (c.toNat <<< 8 % 2 ^ 32 ||| d.toNat)) := by
        rw [← Nat.or_assoc, ← Nat.or_assoc]
        rfl
    _ = a.toNat * 2 ^ 24 + (b.toNat * 2 ^ 16 + (c.toNat * 2 ^ 8 + d.toNat)) := by
        rw [hor c.toNat 8 _ hd (by omega), hor b.toNat 16 _ (by omega) (by omega),
          hor a.toNat 24 _ (by omega) (by omega)]

/-- The bytes of a word that was put together from bytes. -/
theorem wordBytes_wordOfBytes (a b c d : UInt8) : wordBytes (wordOfBytes a b c d) = [a, b, c, d] := by
  have ha := a.toNat_lt
  have hb := b.toNat_lt
  have hc := c.toNat_lt
  have hd := d.toNat_lt
  simp only [wordBytes, List.cons.injEq, and_true, ← UInt8.toNat_inj, UInt32.toNat_toUInt8,
    UInt32.toNat_shiftRight, Nat.shiftRight_eq_div_pow, toNat_wordOfBytes, UInt32.reduceToNat,
    Nat.reduceMod]
  omega

theorem bytesAt_of_wordAt? {code : Array UInt8} {offset : Nat} {w : UInt32}
    (h : wordAt? code offset = some w) : BytesAt code offset (wordBytes w) := by
  simp only [wordAt?, Option.bind_eq_bind, Option.bind_eq_some_iff] at h
  obtain ⟨a, ha, b, hb, c, hc, d, hd, hw⟩ := h
  cases hw
  rw [wordBytes_wordOfBytes]
  exact ⟨ha, hb, hc, hd, trivial⟩

namespace Instruction

variable {code : Array UInt8} {offset : Nat} {i : Instruction}

/-! ## One instruction -/

/-- Operands that are read stand in the code, and belong to the operation code. -/
theorem bytesAt_of_withOperandsAt? {op : Opcode} (h : withOperandsAt? code offset op = some i) :
    i.opcode = op ∧ BytesAt code offset (i.operands.flatMap Operand.bytes) := by
  have hword : ∀ {w : UInt32}, wordAt? code offset = some w →
      BytesAt code offset (wordBytes w ++ []) := fun h => by
    rw [List.append_nil]
    exact bytesAt_of_wordAt? h
  have hbyte : ∀ {b : UInt8}, code[offset]? = some b → BytesAt code offset ([b] ++ []) :=
    fun h => ⟨h, trivial⟩
  have hboth : ∀ {w : UInt32} {b : UInt8}, wordAt? code offset = some w →
      code[offset + 4]? = some b → BytesAt code offset (wordBytes w ++ ([b] ++ [])) :=
    fun hw hb => bytesAt_append.2 ⟨bytesAt_of_wordAt? hw, hb, trivial⟩
  cases op with
  | pushInt =>
    obtain ⟨w, hw, rfl⟩ := Option.map_eq_some_iff.1 h
    refine ⟨rfl, ?_⟩
    rw [← UInt32.toUInt32_toInt32 w] at hw
    exact hword hw
  | pushFloat | pushUInt | pushString | pushFunction | getField | setField | createArray
  | callFunction | jump | jumpIfFalse =>
    obtain ⟨w, hw, rfl⟩ := Option.map_eq_some_iff.1 h
    exact ⟨rfl, hword hw⟩
  | pushChar | getLocal | setLocal | call | shrinkLocals =>
    obtain ⟨b, hb, rfl⟩ := Option.map_eq_some_iff.1 h
    exact ⟨rfl, hbyte hb⟩
  | construct | callMethod =>
    simp only [withOperandsAt?, Option.bind_eq_bind, Option.bind_eq_some_iff] at h
    obtain ⟨w, hw, b, hb, he⟩ := h
    cases he
    exact ⟨rfl, hboth hw hb⟩
  | _ =>
    cases h
    exact ⟨rfl, trivial⟩

/-- What stands at an offset inside of a code. -/
theorem decode_cases (hlt : offset < code.size) :
    ∃ b, code[offset]? = some b ∧
      ((Opcode.ofByte? b = none ∧ decode code offset = .unknown b) ∨
        ∃ op, Opcode.ofByte? b = some op ∧
          ((withOperandsAt? code (offset + 1) op = none ∧ decode code offset = .truncated) ∨
            ∃ i, withOperandsAt? code (offset + 1) op = some i ∧
              decode code offset = .instruction i)) := by
  have hb := Array.getElem?_eq_getElem hlt
  refine ⟨_, hb, ?_⟩
  simp only [decode, hb]
  cases hop : Opcode.ofByte? code[offset] with
  | none => exact .inl ⟨rfl, rfl⟩
  | some op =>
    refine .inr ⟨op, rfl, ?_⟩
    dsimp only
    cases hi : withOperandsAt? code (offset + 1) op with
    | none => exact .inl ⟨rfl, rfl⟩
    | some i => exact .inr ⟨i, rfl, rfl⟩

theorem lt_of_decode (h : decode code offset = .instruction i) : offset < code.size := by
  by_contra hlt
  simp only [decode, Array.getElem?_eq_none (Nat.not_lt.1 hlt)] at h
  cases h

/-- The bytes of an instruction stand where it is read. -/
theorem bytesAt_of_decode (h : decode code offset = .instruction i) : BytesAt code offset i.encode := by
  obtain ⟨b, hb, ⟨-, hd⟩ | ⟨op, hop, ⟨-, hd⟩ | ⟨j, hj, hd⟩⟩⟩ := decode_cases (lt_of_decode h)
  · rw [h] at hd
    cases hd
  · rw [h] at hd
    cases hd
  · rw [h] at hd
    cases hd
    obtain ⟨hopcode, hoperands⟩ := bytesAt_of_withOperandsAt? hj
    refine ⟨?_, hoperands⟩
    rw [hb, hopcode, Opcode.toByte_of_ofByte? hop]

/-- No instruction starts at an offset of a code: its byte is not that of an operation code, or the code
ends within the operands. -/
def StopsAt (code : Array UInt8) (offset : Nat) : Prop :=
  ∃ b, code[offset]? = some b ∧
    ((Opcode.ofByte? b = none ∧ decode code offset = .unknown b) ∨
      ∃ op, Opcode.ofByte? b = some op ∧ code.size < offset + op.width ∧
        decode code offset = .truncated)

theorem lt_of_wordAt?_eq_none (h : wordAt? code offset = none) : code.size < offset + 4 := by
  by_contra hle
  simp only [wordAt?, Array.getElem?_eq_getElem (show offset < code.size by omega),
    Array.getElem?_eq_getElem (show offset + 1 < code.size by omega),
    Array.getElem?_eq_getElem (show offset + 2 < code.size by omega),
    Array.getElem?_eq_getElem (show offset + 3 < code.size by omega)] at h
  cases h

/-- Operands that cannot be read are not all there. -/
theorem lt_of_withOperandsAt?_eq_none {op : Opcode} (h : withOperandsAt? code offset op = none) :
    code.size < offset + op.operandSize := by
  have hbyte : ∀ {k : Nat}, code[offset + k]? = none → code.size < offset + (k + 1) := fun h => by
    have := Array.getElem?_eq_none_iff.1 h
    omega
  cases op with
  | pushInt | pushFloat | pushUInt | pushString | pushFunction | getField | setField | createArray
  | callFunction | jump | jumpIfFalse =>
    exact lt_of_wordAt?_eq_none (Option.map_eq_none_iff.1 h)
  | pushChar | getLocal | setLocal | call | shrinkLocals =>
    exact hbyte (k := 0) (Option.map_eq_none_iff.1 h)
  | construct | callMethod =>
    cases hw : wordAt? code offset with
    | none => exact Nat.lt_succ_of_lt (lt_of_wordAt?_eq_none hw)
    | some w =>
      simp only [withOperandsAt?, hw] at h
      cases hb : code[offset + 4]? with
      | none => exact hbyte hb
      | some b =>
        rw [hb] at h
        cases h
  | _ => cases h

theorem stopsAt_of_decode (hlt : offset < code.size)
    (h : ∀ i, decode code offset ≠ .instruction i) : StopsAt code offset := by
  obtain ⟨b, hb, hunknown | ⟨op, hop, ⟨hoperands, hd⟩ | ⟨i, -, hd⟩⟩⟩ := decode_cases hlt
  · exact ⟨b, hb, .inl hunknown⟩
  · have := lt_of_withOperandsAt?_eq_none hoperands
    exact ⟨b, hb, .inr ⟨op, hop, by rw [Opcode.width]; omega, hd⟩⟩
  · exact (h i hd).elim

/-! ## Instructions one behind the other -/

/-- Instructions that stand one behind the other, with their offsets: each is as far behind the one
before it as that is wide. -/
def inRow (offset : Nat) (is : List Instruction) : List (Nat × Instruction) :=
  ((is.map width).scanl (· + ·) offset).zip is

theorem inRow_cons (offset : Nat) (i : Instruction) (is : List Instruction) :
    inRow offset (i :: is) = (offset, i) :: inRow (offset + i.width) is := by
  simp [inRow]

/-- Where the bytes of instructions stand, these are read. -/
theorem reads_of_bytesAt {is : List Instruction} (h : BytesAt code offset (encodeAll is)) :
    Reads code offset (offset + (encodeAll is).length) (inRow offset is) := by
  induction is generalizing offset with
  | nil => exact .nil offset
  | cons i is ih =>
    have hsplit : encodeAll (i :: is) = i.encode ++ encodeAll is := rfl
    rw [hsplit] at h ⊢
    obtain ⟨hi, his⟩ := bytesAt_append.1 h
    rw [length_encode] at his
    rw [inRow_cons, List.length_append, length_encode, ← Nat.add_assoc]
    exact .cons (decode_of_bytesAt hi) (ih his)

/-- A range that is read as instructions holds their bytes, one behind the other. -/
theorem bytesAt_of_reads {lo hi : Nat} {is : List (Nat × Instruction)} (h : Reads code lo hi is) :
    is = inRow lo (is.map Prod.snd) ∧ BytesAt code lo (encodeAll (is.map Prod.snd)) ∧
      hi = lo + (encodeAll (is.map Prod.snd)).length := by
  induction h with
  | nil pc => exact ⟨rfl, trivial, rfl⟩
  | @cons pc stop i is h rest ih =>
    obtain ⟨hrow, hbytes, hstop⟩ := ih
    have hsplit : encodeAll (((pc, i) :: is).map Prod.snd) =
        i.encode ++ encodeAll (is.map Prod.snd) := rfl
    refine ⟨?_, ?_, ?_⟩
    · rw [List.map_cons, inRow_cons, ← hrow]
    · rw [hsplit, bytesAt_append, length_encode]
      exact ⟨bytesAt_of_decode h, hbytes⟩
    · rw [hsplit, List.length_append, length_encode, hstop, Nat.add_assoc]

/-- Bytes that stand in a code end before it does. -/
theorem le_of_bytesAt {bs : List UInt8} (h : BytesAt code offset bs) (hle : offset ≤ code.size) :
    offset + bs.length ≤ code.size := by
  induction bs generalizing offset with
  | nil => exact hle
  | cons b bs ih =>
    have hlt := (Array.getElem?_eq_some_iff.1 h.1).1
    have := ih h.2 hlt
    rw [List.length_cons]
    omega

theorem eq_append_of_bytesAt {bs : List UInt8} (h : BytesAt code 0 bs) :
    code.toList = bs ++ code.toList.drop bs.length := by
  have hle := le_of_bytesAt h (Nat.zero_le _)
  have htake : code.toList.take bs.length = bs := by
    apply List.ext_getElem?
    intro k
    by_cases hk : k < bs.length
    · have hbyte := bytesAt_iff.1 h k hk
      rw [Nat.zero_add] at hbyte
      rw [List.getElem?_take_of_lt hk, Array.getElem?_toList, hbyte]
    · rw [List.getElem?_eq_none (Nat.not_lt.1 hk), List.getElem?_eq_none]
      exact Nat.le_trans (List.length_take_le _ _) (Nat.not_lt.1 hk)
  conv => lhs; rw [← List.take_append_drop bs.length code.toList, htake]

/-- Reading goes on up to the end of the code or a place where it stops. -/
theorem reads_decodeFrom (code : Array UInt8) (offset : Nat) (hle : offset ≤ code.size) :
    ∃ stop, Reads code offset stop (decodeFrom code offset) ∧
      (stop = code.size ∨ StopsAt code stop) := by
  fun_induction decodeFrom code offset with
  | case1 offset hlt i hd ih =>
    have hnext := le_of_bytesAt (bytesAt_of_decode hd) hle
    rw [length_encode] at hnext
    obtain ⟨stop, hreads, hstop⟩ := ih hnext
    exact ⟨stop, .cons hd hreads, hstop⟩
  | case2 offset hlt hd => exact ⟨offset, .nil offset, .inr (stopsAt_of_decode hlt hd)⟩
  | case3 offset hlt => exact ⟨offset, .nil offset, .inl (Nat.le_antisymm hle (Nat.not_lt.1 hlt))⟩

theorem decodeAll_encodeAll (is : List Instruction) :
    decodeAll (encodeAll is).toArray = inRow 0 is := by
  have hbytes : BytesAt (encodeAll is).toArray 0 (encodeAll is) :=
    bytesAt_iff.2 fun k _ => by rw [Nat.zero_add, List.getElem?_toArray]
  refine (reads_of_bytesAt hbytes).decodeFrom_eq ?_
  rw [Nat.zero_add, List.size_toArray]

/-- Reading undoes writing, and writing undoes reading. Instructions that are written one behind the
other are read back, each at the sum of the widths before it. What is read from any bytes is written as
those bytes again, up to where reading stops; there is the end, or a byte at which no instruction
starts. -/
theorem codec_round_trip :
    (∀ is : List Instruction, decodeAll (encodeAll is).toArray = inRow 0 is) ∧
    ∀ code : Array UInt8,
      let is := (decodeAll code).map Prod.snd
      decodeAll code = inRow 0 is ∧
      ∃ rest, code.toList = encodeAll is ++ rest ∧
        (rest = [] ∨ StopsAt code (encodeAll is).length) := by
  refine ⟨decodeAll_encodeAll, fun code => ?_⟩
  obtain ⟨stop, hreads, hstop⟩ := reads_decodeFrom code 0 (Nat.zero_le _)
  obtain ⟨hrow, hbytes, hlen⟩ := bytesAt_of_reads hreads
  rw [Nat.zero_add] at hlen
  refine ⟨hrow, _, eq_append_of_bytesAt hbytes, ?_⟩
  rw [hlen] at hstop
  refine hstop.imp_left fun hend => List.drop_eq_nil_of_le ?_
  rw [Array.length_toList]
  exact Nat.le_of_eq hend.symm

end Instruction

end Scriptlet
