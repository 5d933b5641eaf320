import Mathlib.Algebra.Ring.Int.Defs
import Mathlib.Algebra.Ring.Nat
import Scriptlet.Proofs.Number

/-!
# The integer operators and their mathematical meaning

A number that is not a float is an integer of one of three kinds (`Number.integer?`). An operator
takes both operands to the wider kind, `k.wrap`, and then is the operator of the integers, brought
back into the range of that kind.

`Represents k toInt`: a type of machine integers whose operators are those of `k`, when its elements
are read as integers. It is shown once for each kind (`represents_int32`, `represents_uint32`,
`represents_uint8`); everything after that is about `Represents`. `Number.integer_operators_exact` is
the result, with one field for each operator in `Number.Exact`.
-/

namespace Scriptlet

/-- The kinds of integers, from the narrowest to the widest. -/
inductive IntKind where
  | char
  | uint
  | int
deriving DecidableEq, Repr

namespace IntKind

/-- The wider of two kinds. -/
def wider : IntKind → IntKind → IntKind
  | int, _ | _, int => int
  | uint, _ | _, uint => uint
  | char, char => char

/-- The number of bits of a kind. -/
@[simp] def width : IntKind → Nat
  | char => 8
  | uint | int => 32

/-- The integer of the kind's range that differs from `z` by a multiple of `2 ^ width`. -/
def wrap : IntKind → Int → Int
  | char, z => z % 2 ^ 8
  | uint, z => z % 2 ^ 32
  | int, z => z.bmod (2 ^ 32)

/-- The two's complement bits of an integer. -/
def bits (k : IntKind) (z : Int) : BitVec k.width := BitVec.ofInt k.width z

/-- How far a shift by `z` goes. -/
def amount (k : IntKind) (z : Int) : Nat := (z % k.width).toNat

@[simp] theorem wrap_emod (k : IntKind) (x : Int) : k.wrap x % 2 ^ k.width = x % 2 ^ k.width := by
  cases k with
  | char => exact Int.emod_emod x (2 ^ 8)
  | uint => exact Int.emod_emod x (2 ^ 32)
  | int => exact Int.bmod_emod

@[simp] theorem amount_natCast (k : IntKind) (n : Nat) : k.amount n = n % k.width := rfl

/-- Wrapping forgets multiples of `2 ^ width` and nothing else. -/
theorem wrap_eq_wrap_iff (k : IntKind) (x y : Int) :
    k.wrap x = k.wrap y ↔ x % 2 ^ k.width = y % 2 ^ k.width := by
  constructor
  · intro h
    rw [← wrap_emod k x, h, wrap_emod]
  · intro h
    cases k with
    | char => exact h
    | uint => exact h
    | int =>
      show x.bmod (2 ^ 32) = y.bmod (2 ^ 32)
      rw [← Int.emod_bmod, show x % ((2 ^ 32 : Nat) : Int) = y % ((2 ^ 32 : Nat) : Int) from h,
        Int.emod_bmod]

theorem wrap_natCast {k : IntKind} (hk : k ≠ .int) {n : Nat} (hn : n < 2 ^ k.width) :
    k.wrap n = n := by
  cases k with
  | char => exact Int.emod_eq_of_lt (by omega) (by simp at hn; omega)
  | uint => exact Int.emod_eq_of_lt (by omega) (by simp at hn; omega)
  | int => exact absurd rfl hk

@[simp] theorem wrap_wrap (k : IntKind) (x : Int) : k.wrap (k.wrap x) = k.wrap x := by
  rw [wrap_eq_wrap_iff, wrap_emod]

@[simp] theorem wrap_wrap_add (k : IntKind) (x y : Int) : k.wrap (k.wrap x + y) = k.wrap (x + y) := by
  rw [wrap_eq_wrap_iff, Int.add_emod, wrap_emod, ← Int.add_emod]

@[simp] theorem wrap_add_wrap (k : IntKind) (x y : Int) : k.wrap (x + k.wrap y) = k.wrap (x + y) := by
  rw [wrap_eq_wrap_iff, Int.add_emod, wrap_emod, ← Int.add_emod]

@[simp] theorem wrap_wrap_mul (k : IntKind) (x y : Int) : k.wrap (k.wrap x * y) = k.wrap (x * y) := by
  rw [wrap_eq_wrap_iff, Int.mul_emod, wrap_emod, ← Int.mul_emod]

/-- The quotient times the divisor and the remainder make up the dividend, also where the quotient
does not fit into the kind. -/
theorem wrap_tdiv_mul_add_tmod (k : IntKind) (x y : Int) :
    k.wrap (k.wrap (k.wrap (x.tdiv y) * y) + k.wrap (x.tmod y)) = k.wrap x := by
  rw [wrap_wrap_add, wrap_add_wrap, wrap_eq_wrap_iff, Int.add_emod, Int.mul_emod, wrap_emod,
    ← Int.mul_emod, ← Int.add_emod, Int.tdiv_mul_add_tmod]

theorem wider_comm (i j : IntKind) : i.wider j = j.wider i := by
  cases i <;> cases j <;> rfl

@[simp] theorem wider_wider_right (i j : IntKind) : (i.wider j).wider j = i.wider j := by
  cases i <;> cases j <;> rfl

@[simp] theorem wider_wider_self (i j : IntKind) : i.wider (i.wider j) = i.wider j := by
  cases i <;> cases j <;> rfl

@[simp] theorem wider_self (k : IntKind) : k.wider k = k := by
  cases k <;> rfl

end IntKind

/-! ## Machine integers -/

/-- The elements of `α` are the integers of kind `k`, and its operators are those of the integers
brought back into range. -/
structure Represents {α : Type} [Add α] [Sub α] [Mul α] [Div α] [Mod α] [OfNat α 0] [AndOp α] [OrOp α]
    [XorOp α] [ShiftLeft α] [ShiftRight α] (k : IntKind) (toInt : α → Int) : Prop where
  range : ∀ a, k.wrap (toInt a) = toInt a
  zero : ∀ a, a = 0 ↔ toInt a = 0
  add : ∀ a b, toInt (a + b) = k.wrap (toInt a + toInt b)
  sub : ∀ a b, toInt (a - b) = k.wrap (toInt a - toInt b)
  mul : ∀ a b, toInt (a * b) = k.wrap (toInt a * toInt b)
  div : ∀ a b, toInt (a / b) = k.wrap ((toInt a).tdiv (toInt b))
  mod : ∀ a b, toInt (a % b) = k.wrap ((toInt a).tmod (toInt b))
  and : ∀ a b, k.bits (toInt (a &&& b)) = k.bits (toInt a) &&& k.bits (toInt b)
  or : ∀ a b, k.bits (toInt (a ||| b)) = k.bits (toInt a) ||| k.bits (toInt b)
  xor : ∀ a b, k.bits (toInt (a ^^^ b)) = k.bits (toInt a) ^^^ k.bits (toInt b)
  shiftLeft : ∀ a b, toInt (a <<< b) = k.wrap (toInt a * 2 ^ k.amount (toInt b))
  shiftRight : ∀ a b, toInt (a >>> b) = toInt a / 2 ^ k.amount (toInt b)

theorem bits_toInt (a : Int32) : IntKind.int.bits a.toInt = a.toBitVec := BitVec.ofInt_toInt

/-- A shift of a signed number goes as far as the number of its five lowest bits. -/
theorem toNat_smod_eq_amount (b : Int32) :
    (b.toBitVec.smod 32).toNat = IntKind.int.amount b.toInt := by
  have hs : (b.toBitVec.smod 32).toInt = b.toInt % 32 := by
    rw [BitVec.toInt_smod]
    exact Int.fmod_eq_emod_of_nonneg _ (by decide)
  have h0 : 0 ≤ b.toInt % 32 := Int.emod_nonneg _ (by decide)
  have h1 : b.toInt % 32 < 32 := Int.emod_lt_of_pos _ (by decide)
  rw [BitVec.toInt_eq_toNat_cond] at hs
  show _ = (b.toInt % 32).toNat
  split at hs <;> omega

theorem represents_int32 : Represents .int Int32.toInt where
  range a := Int32.toInt_bmod a
  zero a := by rw [← Int32.toInt_inj]; rfl
  add a b := Int32.toInt_add a b
  sub a b := Int32.toInt_sub a b
  mul a b := Int32.toInt_mul a b
  div a b := Int32.toInt_div a b
  mod a b := by
    rw [← Int32.toInt_mod]
    exact (Int32.toInt_bmod _).symm
  and a b := by
    simp only [bits_toInt, Int32.toBitVec_and]
    rfl
  or a b := by
    simp only [bits_toInt, Int32.toBitVec_or]
    rfl
  xor a b := by
    simp only [bits_toInt, Int32.toBitVec_xor]
    rfl
  shiftLeft a b := by
    show (a <<< b).toBitVec.toInt = _
    rw [Int32.toBitVec_shiftLeft, BitVec.shiftLeft_eq', BitVec.toInt_shiftLeft, toNat_smod_eq_amount,
      Nat.shiftLeft_eq, Int.natCast_mul, Int.natCast_pow]
    have ha : ((a.toBitVec.toNat : Int)).bmod (2 ^ 32) = a.toInt.bmod (2 ^ 32) := by
      rw [Int32.toInt, BitVec.toInt_eq_toNat_bmod, Int.bmod_bmod]
    show Int.bmod _ (2 ^ 32) = Int.bmod _ (2 ^ 32)
    rw [← Int.bmod_mul_bmod, ha, Int.bmod_mul_bmod]
    rfl
  shiftRight a b := by
    show (a >>> b).toBitVec.toInt = _
    rw [Int32.toBitVec_shiftRight, BitVec.sshiftRight_eq', BitVec.toInt_sshiftRight,
      Int.shiftRight_eq_div_pow, toNat_smod_eq_amount]
    rfl

theorem represents_uint32 : Represents .uint fun a : UInt32 => (a.toNat : Int) where
  range a := IntKind.wrap_natCast (by decide) a.toNat_lt
  zero a := by rw [← UInt32.toNat_inj]; simp
  add a b := by simp [IntKind.wrap]
  sub a b := by
    have := b.toNat_lt
    simp only [IntKind.wrap, UInt32.toNat_sub]
    omega
  mul a b := by simp [IntKind.wrap]
  div a b := by
    rw [← Int.ofNat_tdiv, ← UInt32.toNat_div]
    exact (IntKind.wrap_natCast (by decide) (a / b).toNat_lt).symm
  mod a b := by
    rw [← Int.ofNat_tmod, ← UInt32.toNat_mod]
    exact (IntKind.wrap_natCast (by decide) (a % b).toNat_lt).symm
  and a b := by
    simp [IntKind.bits]
    rfl
  or a b := by
    simp [IntKind.bits]
    rfl
  xor a b := by
    simp [IntKind.bits]
    rfl
  shiftLeft a b := by simp [IntKind.wrap, Nat.shiftLeft_eq]
  shiftRight a b := by simp [Nat.shiftRight_eq_div_pow]

theorem represents_uint8 : Represents .char fun a : UInt8 => (a.toNat : Int) where
  range a := IntKind.wrap_natCast (by decide) a.toNat_lt
  zero a := by rw [← UInt8.toNat_inj]; simp
  add a b := by simp [IntKind.wrap]
  sub a b := by
    have := b.toNat_lt
    simp only [IntKind.wrap, UInt8.toNat_sub]
    omega
  mul a b := by simp [IntKind.wrap]
  div a b := by
    rw [← Int.ofNat_tdiv, ← UInt8.toNat_div]
    exact (IntKind.wrap_natCast (by decide) (a / b).toNat_lt).symm
  mod a b := by
    rw [← Int.ofNat_tmod, ← UInt8.toNat_mod]
    exact (IntKind.wrap_natCast (by decide) (a % b).toNat_lt).symm
  and a b := by
    simp [IntKind.bits]
    rfl
  or a b := by
    simp [IntKind.bits]
    rfl
  xor a b := by
    simp [IntKind.bits]
    rfl
  shiftLeft a b := by simp [IntKind.wrap, Nat.shiftLeft_eq]
  shiftRight a b := by simp [Nat.shiftRight_eq_div_pow]

/-! ## Numbers -/

/-- The kind and the integers of a pair that is not of floats. -/
def NumberPair.integers? : NumberPair → Option (IntKind × Int × Int)
  | .floats _ _ => none
  | .ints m n => some (.int, m.toInt, n.toInt)
  | .uints m n => some (.uint, m.toNat, n.toNat)
  | .chars c d => some (.char, c.toNat, d.toNat)

namespace Number

/-- The kind and the integer of a number that is not a float. -/
def integer? : Number → Option (IntKind × Int)
  | float _ => none
  | int n => some (.int, n.toInt)
  | uint n => some (.uint, n.toNat)
  | char c => some (.char, c.toNat)

/-- The outcome of an operator is the integer `z` of kind `k`. -/
def Gives (r : Except Fault Value) (k : IntKind) (z : Int) : Prop :=
  ∃ n : Number, r = .ok n.toValue ∧ n.integer? = some (k, z)

/-- The outcome of an operator is the integer of kind `k` with these bits. -/
def GivesBits (r : Except Fault Value) (k : IntKind) (w : BitVec k.width) : Prop :=
  ∃ z, Gives r k z ∧ k.bits z = w

/-- What the operators give on `a` and `b` once they are promoted to `x` and `y` of kind `k`. A
shift to the right divides and rounds down: for a signed number it repeats the sign, for an unsigned
one zeros come in. -/
structure Exact (a b : Number) (k : IntKind) (x y : Int) : Prop where
  add : Gives (arithmetic (.binary .add) a b) k (k.wrap (x + y))
  sub : Gives (arithmetic (.binary .sub) a b) k (k.wrap (x - y))
  mul : Gives (arithmetic (.binary .mul) a b) k (k.wrap (x * y))
  div_fault : arithmetic (.binary .div) a b = .error .divisionByZero ↔ y = 0
  div : y ≠ 0 → Gives (arithmetic (.binary .div) a b) k (k.wrap (x.tdiv y))
  mod_fault : arithmetic (.binary .mod) a b = .error .divisionByZero ↔ y = 0
  mod : y ≠ 0 → Gives (arithmetic (.binary .mod) a b) k (k.wrap (x.tmod y))
  bitAnd : GivesBits (bitwise (.binary .bitAnd) a b) k (k.bits x &&& k.bits y)
  bitOr : GivesBits (bitwise (.binary .bitOr) a b) k (k.bits x ||| k.bits y)
  bitXor : GivesBits (bitwise (.binary .bitXor) a b) k (k.bits x ^^^ k.bits y)
  shiftLeft : Gives (bitwise (.binary .shiftLeft) a b) k (k.wrap (x * 2 ^ k.amount y))
  shiftRight : Gives (bitwise (.binary .shiftRight) a b) k (x / 2 ^ k.amount y)

theorem gives_map {α : Type} {k : IntKind} {toInt : α → Int} {make : α → Number}
    (hm : ∀ e, (make e).integer? = some (k, toInt e)) {r : Except Fault α} {e : α} {z : Int}
    (hr : r = .ok e) (hz : toInt e = z) : Gives (r.map fun e => (make e).toValue) k z := by
  subst hr hz
  exact ⟨make e, rfl, hm e⟩

theorem map_eq_error {α β : Type} {f : α → β} {r : Except Fault α} {e : Fault} :
    r.map f = .error e ↔ r = .error e := by
  cases r <;> simp [Except.map]

section Represents

variable {α : Type} [Add α] [Sub α] [Mul α] [Div α] [Mod α] [OfNat α 0] [DecidableEq α] [AndOp α]
  [OrOp α] [XorOp α] [ShiftLeft α] [ShiftRight α] {k : IntKind} {toInt : α → Int}
  {make : α → Number} {a b : Number} {c d : α}

/-- The operators of a kind, from the machine integers that stand for it. -/
theorem exact_of_represents (R : Represents k toInt) (hm : ∀ e, (make e).integer? = some (k, toInt e))
    (harith : ∀ op, arithmetic op a b = (wrapping op c d).map fun e => (make e).toValue)
    (hbits : ∀ op, bitwise op a b =
      (bits (mismatch op a.kind b.kind) op c d).map fun e => (make e).toValue) :
    Exact a b k (toInt c) (toInt d) := by
  have hz : d = 0 ↔ toInt d = 0 := R.zero d
  constructor
  · rw [harith]
    exact gives_map hm rfl (R.add c d)
  · rw [harith]
    exact gives_map hm rfl (R.sub c d)
  · rw [harith]
    exact gives_map hm rfl (R.mul c d)
  · rw [harith, map_eq_error, ← hz]
    simp [wrapping]
  · intro h
    rw [harith]
    exact gives_map hm (if_neg fun hd => h (hz.1 hd)) (R.div c d)
  · rw [harith, map_eq_error, ← hz]
    simp [wrapping]
  · intro h
    rw [harith]
    exact gives_map hm (if_neg fun hd => h (hz.1 hd)) (R.mod c d)
  · rw [hbits]
    exact ⟨_, gives_map hm rfl rfl, R.and c d⟩
  · rw [hbits]
    exact ⟨_, gives_map hm rfl rfl, R.or c d⟩
  · rw [hbits]
    exact ⟨_, gives_map hm rfl rfl, R.xor c d⟩
  · rw [hbits]
    exact gives_map hm rfl (R.shiftLeft c d)
  · rw [hbits]
    exact gives_map hm rfl (R.shiftRight c d)

end Represents

variable {a b : Number} {i j k : IntKind} {x y : Int}

theorem wrap_of_integer? (ha : a.integer? = some (k, x)) : k.wrap x = x := by
  cases a with
  | float _ => cases ha
  | int n => cases ha; exact represents_int32.range n
  | uint n => cases ha; exact represents_uint32.range n
  | char c => cases ha; exact represents_uint8.range c

theorem toInt_toInt32 (n : UInt32) : n.toInt32.toInt = IntKind.int.wrap n.toNat :=
  BitVec.toInt_eq_toNat_bmod _

theorem wrap_uint_toNat (c : UInt8) : IntKind.uint.wrap c.toNat = c.toNat :=
  IntKind.wrap_natCast (by decide) (Nat.lt_trans c.toNat_lt (by decide))

/-- Both numbers are taken to the wider of their kinds. -/
theorem integers?_promote (ha : a.integer? = some (i, x)) (hb : b.integer? = some (j, y)) :
    (promote a b).integers? = some (i.wider j, (i.wider j).wrap x, (i.wider j).wrap y) := by
  have hx := wrap_of_integer? ha
  have hy := wrap_of_integer? hb
  cases a <;> cases b <;> cases ha <;> cases hb <;>
    simp [promote, NumberPair.integers?, IntKind.wider, hx, hy, toInt_toInt32, wrap_uint_toNat]

theorem exact_of_promote (h : (promote a b).integers? = some (k, x, y)) : Exact a b k x y := by
  cases hp : promote a b with
  | floats _ _ =>
    rw [hp] at h
    cases h
  | ints m n =>
    rw [hp] at h
    cases h
    apply exact_of_represents represents_int32 fun e => (rfl : (int e).integer? = _)
    · simp [arithmetic, hp, toValue]
    · simp [bitwise, hp, toValue]
  | uints m n =>
    rw [hp] at h
    cases h
    apply exact_of_represents represents_uint32 fun e => (rfl : (uint e).integer? = _)
    · simp [arithmetic, hp, toValue]
    · simp [bitwise, hp, toValue]
  | chars c d =>
    rw [hp] at h
    cases h
    apply exact_of_represents represents_uint8 fun e => (rfl : (char e).integer? = _)
    · simp [arithmetic, hp, toValue]
    · simp [bitwise, hp, toValue]

theorem exact_promoted (ha : a.integer? = some (i, x)) (hb : b.integer? = some (j, y))
    (hk : i.wider j = k) : Exact a b k (k.wrap x) (k.wrap y) := by
  subst hk
  exact exact_of_promote (integers?_promote ha hb)

theorem compare_of_promote (h : (promote a b).integers? = some (k, x, y)) :
    compare a b = some (Ord.compare x y) := by
  cases hp : promote a b with
  | floats _ _ =>
    rw [hp] at h
    cases h
  | ints m n =>
    rw [hp] at h
    cases h
    simp [compare, hp, Ord.compare, compareOfLessAndEq, Int32.lt_iff_toInt_lt, Int32.toInt_inj]
  | uints m n =>
    rw [hp] at h
    cases h
    simp [compare, hp, Ord.compare, compareOfLessAndEq, UInt32.lt_iff_toNat_lt,
      UInt32.toNat_inj]
  | chars c d =>
    rw [hp] at h
    cases h
    simp [compare, hp, Ord.compare, compareOfLessAndEq, UInt8.lt_iff_toNat_lt,
      UInt8.toNat_inj]

/-- Integers are ordered after promotion, by their values. -/
theorem compare_integers (ha : a.integer? = some (i, x)) (hb : b.integer? = some (j, y)) :
    compare a b = some (Ord.compare ((i.wider j).wrap x) ((i.wider j).wrap y)) :=
  compare_of_promote (integers?_promote ha hb)

/-- Every operator on two numbers that are not floats is the operator of the integers on their
promoted values, brought back into the range of the wider kind (`Exact`). A quotient by a divisor
that is not zero, multiplied with it again and added to the remainder, gives a number equal to the
dividend, also where the quotient leaves the range. -/
theorem integer_operators_exact (ha : a.integer? = some (i, x)) (hb : b.integer? = some (j, y)) :
    let k := i.wider j
    Exact a b k (k.wrap x) (k.wrap y) ∧
      (k.wrap y ≠ 0 → ∃ q p r s : Number,
        arithmetic (.binary .div) a b = .ok q.toValue ∧
        arithmetic (.binary .mul) q b = .ok p.toValue ∧
        arithmetic (.binary .mod) a b = .ok r.toValue ∧
        arithmetic (.binary .add) p r = .ok s.toValue ∧
        s.integer? = some (k, k.wrap x) ∧ compare a s = some .eq) := by
  intro k
  have hab : Exact a b k (k.wrap x) (k.wrap y) := exact_promoted ha hb rfl
  refine ⟨hab, ?_⟩
  intro hy
  obtain ⟨q, hdiv, hq⟩ := hab.div hy
  obtain ⟨r, hmod, hr⟩ := hab.mod hy
  -- the quotient has the wider kind already, so the divisor is promoted as it was before
  have hqb : Exact q b k _ _ := exact_promoted hq hb (IntKind.wider_wider_right i j)
  obtain ⟨p, hmul, hp⟩ := hqb.mul
  have hpr : Exact p r k _ _ := exact_promoted hp hr (IntKind.wider_self k)
  obtain ⟨s, hadd, hs⟩ := hpr.add
  rw [IntKind.wrap_wrap, IntKind.wrap_wrap, IntKind.wrap_wrap, IntKind.wrap_tdiv_mul_add_tmod,
    IntKind.wrap_wrap] at hs
  refine ⟨q, p, r, s, hdiv, hmul, hmod, hadd, hs, ?_⟩
  rw [compare_integers ha hs, IntKind.wider_wider_self, IntKind.wrap_wrap]
  simp [Ord.compare, compareOfLessAndEq]

/-- The least signed number and the largest unsigned one, which is promoted to minus one. -/
theorem integer_operators_exact_min :
    Exact (int (-2147483648)) (uint 4294967295) .int (-2147483648) (-1) ∧
      ∃ q p r s : Number,
        arithmetic (.binary .div) (int (-2147483648)) (uint 4294967295) = .ok q.toValue ∧
        arithmetic (.binary .mul) q (uint 4294967295) = .ok p.toValue ∧
        arithmetic (.binary .mod) (int (-2147483648)) (uint 4294967295) = .ok r.toValue ∧
        arithmetic (.binary .add) p r = .ok s.toValue ∧
        s.integer? = some (.int, -2147483648) ∧ compare (int (-2147483648)) s = some .eq := by
  have ha : (int (-2147483648)).integer? = some (.int, -2147483648) := by decide
  have hb : (uint 4294967295).integer? = some (.uint, 4294967295) := by decide
  have hx : IntKind.int.wrap (-2147483648) = -2147483648 := by decide
  have hy : IntKind.int.wrap 4294967295 = -1 := by decide
  have h := integer_operators_exact ha hb
  simp only [IntKind.wider, hx, hy] at h
  exact ⟨h.1, h.2 (by decide)⟩

end Number

end Scriptlet
