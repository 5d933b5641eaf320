import Scriptlet.Fragment

/-!
# Reading instructions back

`BytesAt`: bytes stand in a code from an offset on. Where the bytes of an instruction stand, that
instruction is read (`decode_of_bytesAt`).
-/

namespace Scriptlet

/-- The bytes stand in the code from an offset on. -/
def BytesAt (code : Array UInt8) (offset : Nat) : List UInt8 → Prop
  | [] => True
  | b :: bs => code[offset]? = some b ∧ BytesAt code (offset + 1) bs

theorem bytesAt_append {code : Array UInt8} {bs cs : List UInt8} {offset : Nat} :
    BytesAt code offset (bs ++ cs) ↔
      BytesAt code offset bs ∧ BytesAt code (offset + bs.length) cs := by
  induction bs generalizing offset with
  | nil => simp [BytesAt]
  | cons b bs ih =>
    rw [List.cons_append, BytesAt, BytesAt, ih, and_assoc, List.length_cons]
    rw [show offset + 1 + bs.length = offset + (bs.length + 1) by omega]

theorem bytesAt_iff {code : Array UInt8} {bs : List UInt8} {offset : Nat} :
    BytesAt code offset bs ↔ ∀ k < bs.length, code[offset + k]? = bs[k]? := by
  induction bs generalizing offset with
  | nil => simp [BytesAt]
  | cons b bs ih =>
    rw [BytesAt, ih]
    constructor
    · rintro ⟨hb, hbs⟩ k hk
      cases k with
      | zero => exact hb
      | succ k =>
        rw [List.getElem?_cons_succ, ← hbs k (by simpa using hk),
          show offset + 1 + k = offset + (k + 1) by omega]
    · refine fun h => ⟨h 0 (by simp), fun k hk => ?_⟩
      have := h (k + 1) (by simpa using hk)
      rw [show offset + 1 + k = offset + (k + 1) by omega, this, List.getElem?_cons_succ]

theorem getElem?_append_toArray (code : Array UInt8) (bs : List UInt8) (k : Nat) :
    (code ++ bs.toArray)[k]? = if k < code.size then code[k]? else bs[k - code.size]? := by
  rw [Array.getElem?_append]
  split
  · rfl
  · exact List.getElem?_toArray

/-- The bits of a word, byte by byte. -/
theorem bitVec_bytes (x : BitVec 32) :
    ((((x >>> 24).setWidth 8).setWidth 32 <<< 24 ||| ((x >>> 16).setWidth 8).setWidth 32 <<< 16) |||
      ((x >>> 8).setWidth 8).setWidth 32 <<< 8) ||| (x.setWidth 8).setWidth 32 = x := by
  ext i hi
  have hbyte : ∀ k : Nat, (!decide (i < k) && (decide (i - k < 8) && x.getLsbD (k + (i - k)))) =
      (decide (k ≤ i ∧ i < k + 8) && x[i]) := by
    intro k
    rw [← BitVec.getLsbD_eq_getElem hi]
    by_cases hk : i < k
    · simp [hk, Nat.not_le.2 hk]
    · rw [Nat.add_sub_of_le (Nat.not_lt.1 hk)]
      simp [hk, Nat.not_lt.1 hk, show i - k < 8 ↔ i < k + 8 by omega]
  simp only [BitVec.getElem_or, BitVec.getElem_shiftLeft, BitVec.getElem_setWidth,
    BitVec.getLsbD_setWidth, BitVec.getLsbD_ushiftRight, hbyte]
  rw [BitVec.getLsbD_eq_getElem hi]
  cases x[i]
  · simp
  · simp
    omega

theorem wordOfBytes_wordBytes (w : UInt32) :
    wordOfBytes (w >>> 24).toUInt8 (w >>> 16).toUInt8 (w >>> 8).toUInt8 w.toUInt8 = w :=
  UInt32.eq_of_toBitVec_eq (bitVec_bytes w.toBitVec)

theorem wordAt?_of_bytesAt {code : Array UInt8} {offset : Nat} {w : UInt32}
    (h : BytesAt code offset (wordBytes w)) : wordAt? code offset = some w := by
  obtain ⟨h₀, h₁, h₂, h₃, -⟩ := h
  simp only [wordAt?, bind, Option.bind, h₀, h₁, h₂, h₃, pure]
  rw [wordOfBytes_wordBytes]

theorem wordAt?_of_getElem? {code code' : Array UInt8} {offset : Nat} {w : UInt32}
    (h : ∀ (k : Nat) (b : UInt8), code[k]? = some b → code'[k]? = some b)
    (hw : wordAt? code offset = some w) : wordAt? code' offset = some w := by
  simp only [wordAt?, Option.bind_eq_bind, Option.bind_eq_some_iff] at hw ⊢
  obtain ⟨b₀, h₀, b₁, h₁, b₂, h₂, b₃, h₃, hw⟩ := hw
  exact ⟨b₀, h _ _ h₀, b₁, h _ _ h₁, b₂, h _ _ h₂, b₃, h _ _ h₃, hw⟩

namespace Instruction

theorem withOperandsAt?_of_bytesAt {code : Array UInt8} {offset : Nat} {i : Instruction}
    (h : BytesAt code offset (i.operands.flatMap Operand.bytes)) :
    withOperandsAt? code offset i.opcode = some i := by
  have hword : ∀ {w : UInt32} {bs : List UInt8}, BytesAt code offset (wordBytes w ++ bs) →
      wordAt? code offset = some w := fun h => wordAt?_of_bytesAt (bytesAt_append.1 h).1
  have hlast : ∀ {w : UInt32} {n : UInt8}, BytesAt code offset (wordBytes w ++ [n]) →
      code[offset + 4]? = some n := fun h => (bytesAt_append.1 h).2.1
  cases i with
  | pushInt n => simp only [withOperandsAt?, opcode, hword h]; simp
  | pushFloat x => simp only [withOperandsAt?, opcode, hword h]; rfl
  | pushUInt n | pushString n | pushFunction n | getField n | setField n | createArray n
  | callFunction n | jump n | jumpIfFalse n => simp only [withOperandsAt?, opcode, hword h]; rfl
  | pushChar n | getLocal n | setLocal n | call n | shrinkLocals n =>
    simp only [withOperandsAt?, opcode, h.1]; rfl
  | construct n args | callMethod n args =>
    simp only [withOperandsAt?, opcode, hword h, hlast h]; rfl
  | _ => rfl

/-- Where the bytes of an instruction stand, that instruction is read. -/
theorem decode_of_bytesAt {code : Array UInt8} {offset : Nat} {i : Instruction}
    (h : BytesAt code offset i.encode) : decode code offset = .instruction i := by
  obtain ⟨hop, hoperands⟩ := h
  simp only [decode, hop, Opcode.ofByte?_toByte, withOperandsAt?_of_bytesAt hoperands]

end Instruction

/-- The jump of a kind to an address. -/
def JumpKind.jump : JumpKind → UInt32 → Instruction
  | always => .jump
  | ifFalse => .jumpIfFalse

theorem JumpKind.width_jump (kind : JumpKind) (t : UInt32) :
    (kind.jump t).width = Fragment.jumpWidth := by
  cases kind <;> rfl

theorem JumpKind.decode_jump {code : Array UInt8} {offset : Nat} {kind : JumpKind} {t : UInt32}
    (hop : code[offset]? = some kind.opcode.toByte) (ht : wordAt? code (offset + 1) = some t) :
    Instruction.decode code offset = .instruction (kind.jump t) := by
  simp only [Instruction.decode, hop, Opcode.ofByte?_toByte]
  cases kind <;> simp only [opcode, Instruction.withOperandsAt?, ht] <;> rfl

end Scriptlet
