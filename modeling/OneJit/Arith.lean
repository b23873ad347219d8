import OneJit.Value
import OneJit.Lib.MonoidOn

/-!
# Fixed-width arithmetic

The meaning of the operators on Bool, integer and Ptr kinds. A value of such a kind is kept in 64
bits, sign-extended for the signed kinds and zero-extended for the others: `Kind.wrap` brings any
pattern to that form by its low bits. The functions of `Value` are then compared with the meaning.
-/

namespace OneJit

namespace Kind

/-- Bool, signed and unsigned integers and Ptr, without SIMD repetitions. -/
def isScalar (k : Kind) : Bool :=
  k.simd == 0 && (k.group == .gBool || k.group == .gInt || k.group == .gUint || k.group == .gPtr)

/-- The low bits of a pattern, extended to 64 bits. -/
def wrap (k : Kind) (b : BitVec 64) : BitVec 64 :=
  if k.group = .gInt then (b.setWidth k.bitsize).signExtend 64
  else (b.setWidth k.bitsize).setWidth 64

theorem bitsize_pos {k : Kind} (h : k.isScalar) : 0 < k.bitsize := by
  obtain ⟨e, s⟩ := k
  cases e <;> simp_all [isScalar, group, EKind.kgroup, bitsize, EKind.kbits, simdn]

theorem bitsize_le {k : Kind} (h : k.isScalar) : k.bitsize ≤ 64 := by
  obtain ⟨e, s⟩ := k
  cases e <;> simp_all [isScalar, group, EKind.kgroup, bitsize, EKind.kbits, simdn]

theorem simd_eq_zero {k : Kind} (h : k.isScalar) : k.simd = 0 := by
  simp only [isScalar, Bool.and_eq_true, beq_iff_eq] at h
  exact h.1

theorem ne_float32 {k : Kind} (h : k.isScalar) : k ≠ .float32 := by
  intro hk
  subst hk
  cases h

theorem ne_float64 {k : Kind} (h : k.isScalar) : k ≠ .float64 := by
  intro hk
  subst hk
  cases h

theorem ne_bad {k : Kind} (h : k.isScalar) : k ≠ .bad := by
  intro hk
  subst hk
  cases h

theorem not_isFloat {k : Kind} (h : k.isScalar) : k.isFloat = false := by
  obtain ⟨e, s⟩ := k
  cases e <;> simp_all [isScalar, group, EKind.kgroup, isFloat]

/-- `wrap` depends on the low bits only. -/
theorem wrap_congr {k : Kind} {a b : BitVec 64}
    (h : a.setWidth k.bitsize = b.setWidth k.bitsize) : k.wrap a = k.wrap b := by
  rw [wrap, wrap, h]

theorem setWidth_wrap {k : Kind} (h : k.isScalar) (a : BitVec 64) :
    (k.wrap a).setWidth k.bitsize = a.setWidth k.bitsize := by
  have hle := bitsize_le h
  rw [wrap]
  split
  · apply BitVec.eq_of_getLsbD_eq
    intro i hi
    have hi64 : i < 64 := Nat.lt_of_lt_of_le hi hle
    simp only [BitVec.getLsbD_setWidth, BitVec.getLsbD_signExtend, hi, hi64, decide_true,
      Bool.true_and, if_true]
  · simp [hle]

@[simp] theorem wrap_wrap {k : Kind} (h : k.isScalar) (a : BitVec 64) :
    k.wrap (k.wrap a) = k.wrap a := wrap_congr (setWidth_wrap h a)

theorem wrap_add_left {k : Kind} (h : k.isScalar) (a b : BitVec 64) :
    k.wrap (k.wrap a + b) = k.wrap (a + b) := by
  have hle := bitsize_le h
  apply wrap_congr
  rw [BitVec.setWidth_add _ _ hle, BitVec.setWidth_add _ _ hle, setWidth_wrap h]

theorem wrap_add_right {k : Kind} (h : k.isScalar) (a b : BitVec 64) :
    k.wrap (a + k.wrap b) = k.wrap (a + b) := by
  rw [BitVec.add_comm, wrap_add_left h, BitVec.add_comm]

theorem wrap_mul_left {k : Kind} (h : k.isScalar) (a b : BitVec 64) :
    k.wrap (k.wrap a * b) = k.wrap (a * b) := by
  have hle := bitsize_le h
  apply wrap_congr
  rw [BitVec.setWidth_mul _ _ hle, BitVec.setWidth_mul _ _ hle, setWidth_wrap h]

theorem wrap_mul_right {k : Kind} (h : k.isScalar) (a b : BitVec 64) :
    k.wrap (a * k.wrap b) = k.wrap (a * b) := by
  rw [BitVec.mul_comm, wrap_mul_left h, BitVec.mul_comm]

theorem wrap_neg {k : Kind} (h : k.isScalar) (a : BitVec 64) :
    k.wrap (-k.wrap a) = k.wrap (-a) := by
  have hle := bitsize_le h
  apply wrap_congr
  rw [BitVec.setWidth_neg_of_le hle, BitVec.setWidth_neg_of_le hle, setWidth_wrap h]

theorem wrap_not {k : Kind} (h : k.isScalar) (a : BitVec 64) :
    k.wrap (~~~k.wrap a) = k.wrap (~~~a) := by
  have hle := bitsize_le h
  apply wrap_congr
  rw [BitVec.setWidth_not hle, BitVec.setWidth_not hle, setWidth_wrap h]

theorem wrap_sub {k : Kind} (h : k.isScalar) (a b : BitVec 64) :
    k.wrap (k.wrap a - k.wrap b) = k.wrap (a - b) := by
  rw [BitVec.sub_eq_add_neg, BitVec.sub_eq_add_neg, wrap_add_left h, ← wrap_add_right h,
    wrap_neg h, wrap_add_right h]

theorem wrap_shiftLeft {k : Kind} (h : k.isScalar) (a : BitVec 64) (n : Nat) :
    k.wrap (k.wrap a <<< n) = k.wrap (a <<< n) := by
  have hle := bitsize_le h
  apply wrap_congr
  rw [BitVec.setWidth_shiftLeft_of_le hle, BitVec.setWidth_shiftLeft_of_le hle, setWidth_wrap h]

theorem wrap_and {k : Kind} (a b : BitVec 64) : k.wrap (a &&& b) = k.wrap a &&& k.wrap b := by
  rw [wrap, wrap, wrap]
  split <;> simp

theorem wrap_or {k : Kind} (a b : BitVec 64) : k.wrap (a ||| b) = k.wrap a ||| k.wrap b := by
  rw [wrap, wrap, wrap]
  split <;> simp

theorem wrap_xor {k : Kind} (a b : BitVec 64) : k.wrap (a ^^^ b) = k.wrap a ^^^ k.wrap b := by
  rw [wrap, wrap, wrap]
  split <;> simp

/-- The scalar kinds, one by one. -/
theorem scalar_cases {P : Kind → Prop} (hbool : P .bool) (hptr : P .ptr)
    (hi8 : P .int8) (hi16 : P .int16) (hi32 : P .int32) (hi64 : P .int64)
    (hu8 : P .uint8) (hu16 : P .uint16) (hu32 : P .uint32) (hu64 : P .uint64)
    {k : Kind} (h : k.isScalar) : P k := by
  obtain ⟨e, s⟩ := k
  have hs : s = 0 := simd_eq_zero h
  subst hs
  cases e <;> first | assumption | cases h

theorem wrap_zero {k : Kind} (h : k.isScalar) : k.wrap 0 = 0 := by
  revert h
  apply scalar_cases <;> decide

theorem wrap_one {k : Kind} (h : k.isScalar) : k.wrap 1 = 1 := by
  revert h
  apply scalar_cases <;> decide

/-! ## The meaning of the operators -/

/-- The order of a kind on its values. -/
def less (k : Kind) (a b : BitVec 64) : Bool := if k.group = .gInt then a.slt b else a.ult b

/-- A value as a number. -/
def number (k : Kind) (a : BitVec 64) : Int := if k.group = .gInt then a.toInt else a.toNat

theorem less_iff (k : Kind) (a b : BitVec 64) : k.less a b ↔ k.number a < k.number b := by
  rw [less, number, number]
  split
  · rw [BitVec.slt_iff_toInt_lt]
  · rw [BitVec.ult_iff_toNat_lt]
    omega

theorem number_inj {k : Kind} {a b : BitVec 64} (h : k.number a = k.number b) : a = b := by
  rw [number, number] at h
  split at h
  · exact BitVec.eq_of_toInt_eq h
  · exact BitVec.eq_of_toNat_eq (by omega)

/-- The least value of a kind. -/
def minimum (k : Kind) : BitVec 64 :=
  if k.group = .gInt then (BitVec.intMin k.bitsize).signExtend 64 else 0

/-- The greatest value of a kind. -/
def maximum (k : Kind) : BitVec 64 :=
  if k.group = .gInt then (BitVec.intMax k.bitsize).setWidth 64
  else (BitVec.allOnes k.bitsize).setWidth 64

/-- The kinds of the result and the operand of `Op1` agree. -/
def typed1 (k : Kind) (op : Op1) (kx : Kind) : Bool :=
  match op with
  | .bad1 => false
  | .xor1 | .neg1 => k == kx && k.isScalar
  | .not1 => k == .bool && kx.isScalar
  | .cast | .bitcopy => k.isScalar && kx.isScalar

/-- The kinds of the result and the operands of `Op2` agree. -/
def typed2 (k : Kind) (op : Op2) (kx ky : Kind) : Bool :=
  match op with
  | .bad2 => false
  | .sub | .quo | .rem => k == kx && k == ky && k.isScalar
  | .shl | .shr => k == kx && k.isScalar && ky.isScalar
  | .land | .lor => k == .bool && kx == .bool && ky == .bool
  | .lss | .leq | .neq | .eql | .gtr | .geq => k == .bool && kx == ky && kx.isScalar

/-- `Op1` on a value, with a result of kind `k`. -/
def evalUnary (k : Kind) (op : Op1) (a : BitVec 64) : Option (BitVec 64) :=
  match op with
  | .bad1 => none
  | .xor1 => some (k.wrap (~~~a))
  | .not1 => some (if a = 0 then 1 else 0)
  | .neg1 => some (k.wrap (-a))
  | .cast | .bitcopy => some (k.wrap a)

/-- `Op2` on two values, the first one of kind `k`. Division by zero is undefined, and so is a
shift by 64 or more. -/
def evalBinary (k : Kind) (op : Op2) (a b : BitVec 64) : Option (BitVec 64) :=
  let bool (p : Bool) : Option (BitVec 64) := some (if p then 1 else 0)
  match op with
  | .bad2 => none
  | .land => some (if a = 0 then 0 else b)
  | .lor => some (if a = 0 then b else 1)
  | .sub => some (k.wrap (a - b))
  | .quo =>
    if b = 0 then none
    else if k.group = .gInt then some (k.wrap (BitVec.ofInt 64 (a.toInt.tdiv b.toInt)))
    else some (k.wrap (a / b))
  | .rem =>
    if b = 0 then none
    else if k.group = .gInt then some (k.wrap (BitVec.ofInt 64 (a.toInt.tmod b.toInt)))
    else some (k.wrap (a % b))
  | .shl => if 64 ≤ b.toNat then none else some (k.wrap (a <<< b.toNat))
  | .shr =>
    if 64 ≤ b.toNat then none
    else if k.group = .gInt then some (k.wrap (a.sshiftRight b.toNat))
    else some (k.wrap (a >>> b.toNat))
  | .lss => bool (k.less a b)
  | .leq => bool (!k.less b a)
  | .neq => bool (a != b)
  | .eql => bool (a == b)
  | .gtr => bool (k.less b a)
  | .geq => bool (!k.less a b)

/-- A commutative `OpN` on two values. -/
def tupleOp (k : Kind) (op : OpN) (a b : BitVec 64) : BitVec 64 :=
  match op with
  | .add => k.wrap (a + b)
  | .mul => k.wrap (a * b)
  | .and => a &&& b
  | .or => a ||| b
  | .xor => a ^^^ b
  | .max => if k.less a b then b else a
  | .min => if k.less b a then b else a
  | _ => b

/-- The value of a commutative `OpN` without operands. -/
def tupleUnit (k : Kind) (op : OpN) : BitVec 64 :=
  match op with
  | .mul => 1
  | .and => k.wrap (BitVec.allOnes 64)
  | .max => k.minimum
  | .min => k.maximum
  | _ => 0

theorem minimum_normal {k : Kind} (h : k.isScalar) : k.wrap k.minimum = k.minimum := by
  revert h
  apply scalar_cases <;> decide

theorem maximum_normal {k : Kind} (h : k.isScalar) : k.wrap k.maximum = k.maximum := by
  revert h
  apply scalar_cases <;> decide

theorem number_minimum {k : Kind} (h : k.isScalar) :
    k.number k.minimum = if k.group = .gInt then -2 ^ (k.bitsize - 1) else 0 := by
  revert h
  apply scalar_cases <;> decide

theorem number_maximum {k : Kind} (h : k.isScalar) :
    k.number k.maximum = if k.group = .gInt then 2 ^ (k.bitsize - 1) - 1
      else 2 ^ k.bitsize - 1 := by
  revert h
  apply scalar_cases <;> decide

/-- The numbers of a kind lie between its extremes. -/
theorem number_bounds {k : Kind} (h : k.isScalar) {a : BitVec 64} (ha : k.wrap a = a) :
    k.number k.minimum ≤ k.number a ∧ k.number a ≤ k.number k.maximum := by
  have hle := bitsize_le h
  rw [number_minimum h, number_maximum h, ← ha, number, wrap]
  by_cases hint : k.group = .gInt
  · simp only [if_pos hint]
    rw [BitVec.toInt_signExtend_of_le hle]
    have hlo := BitVec.le_toInt (a.setWidth k.bitsize)
    have hhi := BitVec.toInt_lt (x := a.setWidth k.bitsize)
    omega
  · simp only [if_neg hint]
    rw [BitVec.toNat_setWidth_of_le hle]
    have hlt : ((a.setWidth k.bitsize).toNat : Int) < 2 ^ k.bitsize := by
      exact_mod_cast (a.setWidth k.bitsize).isLt
    omega

theorem not_less_self (k : Kind) (a : BitVec 64) : k.less a a = false := by
  rw [Bool.eq_false_iff, Ne, less_iff]
  exact Int.lt_irrefl _

theorem number_max (k : Kind) (a b : BitVec 64) :
    k.number (tupleOp k .max a b) = max (k.number a) (k.number b) := by
  simp only [tupleOp, less_iff]
  split
  · next hab => rw [Int.max_eq_right (Int.le_of_lt hab)]
  · next hab => rw [Int.max_eq_left (Int.not_lt.mp hab)]

theorem number_min (k : Kind) (a b : BitVec 64) :
    k.number (tupleOp k .min a b) = min (k.number a) (k.number b) := by
  simp only [tupleOp, less_iff]
  split
  · next hba => rw [Int.min_eq_right (Int.le_of_lt hba)]
  · next hba => rw [Int.min_eq_left (Int.not_lt.mp hba)]

/-- The commutative operators are monoids on the values of a kind. -/
def tupleMonoid (k : Kind) (h : k.isScalar) (op : OpN) (hop : op.isCommutative) :
    MonoidOn (BitVec 64) where
  valid a := k.wrap a = a
  op := tupleOp k op
  unit := tupleUnit k op
  valid_op a b ha hb := by
    cases op <;> simp_all [tupleOp, wrap_and, wrap_or, wrap_xor, OpN.isCommutative] <;>
      split <;> assumption
  valid_unit := by
    cases op with
    | mul => exact wrap_one h
    | and => exact wrap_wrap h _
    | max => exact minimum_normal h
    | min => exact maximum_normal h
    | _ => exact wrap_zero h
  comm a b ha hb := by
    cases op with
    | add => simp only [tupleOp, BitVec.add_comm]
    | mul => simp only [tupleOp, BitVec.mul_comm]
    | and => simp only [tupleOp, BitVec.and_comm]
    | or => simp only [tupleOp, BitVec.or_comm]
    | xor => simp only [tupleOp, BitVec.xor_comm]
    | max => exact number_inj (by rw [number_max, number_max, Int.max_comm])
    | min => exact number_inj (by rw [number_min, number_min, Int.min_comm])
    | _ => cases hop
  assoc a b c ha hb hc := by
    cases op with
    | add => simp only [tupleOp, wrap_add_left h, wrap_add_right h, BitVec.add_assoc]
    | mul => simp only [tupleOp, wrap_mul_left h, wrap_mul_right h, BitVec.mul_assoc]
    | and => simp only [tupleOp, BitVec.and_assoc]
    | or => simp only [tupleOp, BitVec.or_assoc]
    | xor => simp only [tupleOp, BitVec.xor_assoc]
    | max => exact number_inj (k := k) (by simp only [number_max, Int.max_assoc])
    | min => exact number_inj (k := k) (by simp only [number_min, Int.min_assoc])
    | _ => cases hop
  unit_op a ha := by
    have hbounds := number_bounds h ha
    cases op with
    | add => simpa [tupleOp, tupleUnit] using ha
    | mul => simpa [tupleOp, tupleUnit] using ha
    | and =>
      simp only [tupleOp, tupleUnit]
      rw [← ha, ← wrap_and, BitVec.allOnes_and]
    | or => simp [tupleOp, tupleUnit]
    | xor => simp [tupleOp, tupleUnit]
    | max => exact number_inj (by rw [number_max]; exact Int.max_eq_right hbounds.1)
    | min => exact number_inj (by rw [number_min]; exact Int.min_eq_right hbounds.2)
    | _ => cases hop

end Kind

namespace Value

/-- The pattern is in the form of its kind. -/
def Normal (v : Value) : Prop := v.kind.wrap v.bits = v.bits

instance (v : Value) : Decidable v.Normal := inferInstanceAs (Decidable (_ = _))

/-- `extend_or_truncate` brings the bits to the form of the kind. -/
theorem extendOrTruncate_eq {k : Kind} (h : k.isScalar) (b : BitVec 64) :
    extendOrTruncate k b = ⟨k.wrap b, k⟩ := by
  have hpos := Kind.bitsize_pos h
  have hle := Kind.bitsize_le h
  have hmask : ∀ i, (BitVec.allOnes 64 >>> (64 - k.bitsize)).getLsbD i = decide (i < k.bitsize) := by
    intro i
    rw [BitVec.getLsbD_ushiftRight, BitVec.getLsbD_allOnes]
    simp only [decide_eq_decide]
    omega
  have hhalf : ∀ i, (BitVec.allOnes 64 >>> (64 - k.bitsize) >>> 1).getLsbD i =
      decide (i + 1 < k.bitsize) := by
    intro i
    rw [BitVec.getLsbD_ushiftRight, hmask, Nat.add_comm]
  have hlo : ∀ i, (b &&& BitVec.allOnes 64 >>> (64 - k.bitsize)).getLsbD i =
      (b.getLsbD i && decide (i < k.bitsize)) := by
    intro i
    rw [BitVec.getLsbD_and, hmask]
  simp only [extendOrTruncate]
  rw [if_neg (by omega)]
  generalize hlodef : b &&& BitVec.allOnes 64 >>> (64 - k.bitsize) = lo at hlo
  have hsign : lo &&& BitVec.allOnes 64 >>> (64 - k.bitsize) >>> 1 ≠ lo ↔
      b.getLsbD (k.bitsize - 1) = true := by
    constructor
    · intro hne
      by_contra hbit
      apply hne
      apply BitVec.eq_of_getLsbD_eq
      intro i hi
      rw [BitVec.getLsbD_and, hlo, hhalf]
      by_cases hlast : i = k.bitsize - 1
      · subst hlast
        simp [hbit]
      · by_cases hi : i < k.bitsize
        · simp [hi, show i + 1 < k.bitsize by omega]
        · simp [hi]
    · intro hbit heq
      have hlast := congrArg (fun x => x.getLsbD (k.bitsize - 1)) heq
      simp only [BitVec.getLsbD_and, hlo, hhalf, hbit] at hlast
      simp [show k.bitsize - 1 < k.bitsize by omega,
        show ¬(k.bitsize - 1 + 1 < k.bitsize) by omega] at hlast
  by_cases hint : k.group = .gInt
  · by_cases hbit : b.getLsbD (k.bitsize - 1) = true
    · rw [if_pos ⟨hint, hsign.mpr hbit⟩]
      congr 1
      rw [Kind.wrap, if_pos hint]
      apply BitVec.eq_of_getLsbD_eq
      intro i hi
      rw [BitVec.getLsbD_or, hlo, BitVec.getLsbD_not, hmask, BitVec.getLsbD_signExtend,
        BitVec.msb_eq_getLsbD_last, BitVec.getLsbD_setWidth, BitVec.getLsbD_setWidth]
      by_cases hik : i < k.bitsize
      · simp [hi, hik]
      · simp [hi, hik, hbit, show k.bitsize - 1 < k.bitsize by omega]
    · rw [if_neg (fun hx => hbit (hsign.mp hx.2))]
      congr 1
      rw [Kind.wrap, if_pos hint]
      apply BitVec.eq_of_getLsbD_eq
      intro i hi
      rw [hlo, BitVec.getLsbD_signExtend, BitVec.msb_eq_getLsbD_last, BitVec.getLsbD_setWidth,
        BitVec.getLsbD_setWidth]
      by_cases hik : i < k.bitsize
      · simp [hi, hik]
      · simp [hi, hik, hbit]
  · rw [if_neg (fun hx => hint hx.1)]
    congr 1
    rw [Kind.wrap, if_neg hint]
    apply BitVec.eq_of_getLsbD_eq
    intro i hi
    rw [hlo, BitVec.getLsbD_setWidth, BitVec.getLsbD_setWidth]
    simp [hi, Bool.and_comm]

/-- What the pattern of a constant stands for. -/
def meaning (v : Value) : BitVec 64 := v.kind.wrap v.bits

theorem Normal.meaning {v : Value} (h : v.Normal) : v.meaning = v.bits := h

theorem arith_eq {f32 : Float32 → Float32 → Float32} {f64 : Float → Float → Float}
    {u64 : BitVec 64 → BitVec 64 → BitVec 64} {a b : Value} (h : a.kind.isScalar)
    (hk : a.kind = b.kind) : arith f32 f64 u64 a b = ⟨a.kind.wrap (u64 a.bits b.bits), a.kind⟩ := by
  rw [arith, if_neg (not_not_intro hk), if_neg (Kind.ne_float32 h), if_neg (Kind.ne_float64 h),
    extendOrTruncate_eq h]

theorem bitwise_eq {u64 : BitVec 64 → BitVec 64 → BitVec 64} {a b : Value} (h : a.kind.isScalar)
    (hk : a.kind = b.kind) : bitwise u64 a b = ⟨u64 a.bits b.bits, a.kind⟩ := by
  have h32 := Kind.ne_float32 h
  have h64 := Kind.ne_float64 h
  rw [bitwise, if_neg (by simp [hk ▸ h32, hk ▸ h64, hk])]

theorem relation_eq {f32 : Float32 → Float32 → Bool} {f64 : Float → Float → Bool}
    {i64 u64 : BitVec 64 → BitVec 64 → Bool} {a b : Value} (h : a.kind.isScalar)
    (hk : a.kind = b.kind) :
    relation f32 f64 i64 u64 a b =
      ofBool (if a.kind.group = .gInt then i64 a.bits b.bits else u64 a.bits b.bits) := by
  rw [relation, if_neg (not_not_intro hk), if_neg (Kind.ne_float32 h), if_neg (Kind.ne_float64 h)]
  split <;> rfl

theorem lt_eq {a b : Value} (h : a.kind.isScalar) (hk : a.kind = b.kind) :
    a.lt b = ofBool (a.kind.less a.bits b.bits) := by
  rw [lt, relation_eq h hk, Kind.less]

theorem eq_eq {a b : Value} (h : a.kind.isScalar) (hk : a.kind = b.kind) :
    a.eq b = ofBool (a.bits == b.bits) := by
  rw [eq, relation_eq h hk]
  split <;> rfl

theorem ne_eq {a b : Value} (h : a.kind.isScalar) (hk : a.kind = b.kind) :
    a.ne b = ofBool (a.bits != b.bits) := by
  rw [ne, relation_eq h hk]
  split <;> rfl

theorem le_eq {a b : Value} (h : a.kind.isScalar) (hk : a.kind = b.kind) :
    a.le b = ofBool (!a.kind.less b.bits a.bits) := by
  rw [le, relation_eq h hk, Kind.less]
  split
  · rw [BitVec.sle_eq_not_slt]
  · rw [BitVec.ule_eq_not_ult]

@[simp] theorem boolean_ofBool (b : Bool) : (ofBool b).boolean = b := by
  cases b <;> rfl

@[simp] theorem bits_ofBool (b : Bool) : (ofBool b).bits = if b then 1 else 0 := by
  cases b <;> rfl

@[simp] theorem kind_ofBool (b : Bool) : (ofBool b).kind = .bool := rfl

theorem toBool_eq {v : Value} (h : v.kind.isScalar) : v.toBool = (v.bits != 0) := by
  rw [toBool, ne_eq (b := zero v.kind) h rfl, boolean_ofBool]
  rfl

theorem isValid_of_isScalar {v : Value} (h : v.kind.isScalar) : v.isValid := by
  have hne := Kind.ne_bad h
  obtain ⟨bits, e, s⟩ := v
  simp only [isValid, Bool.or_eq_true, bne_iff_ne]
  by_contra hbad
  simp only [not_or, not_not] at hbad
  exact hne (by rw [hbad.1, hbad.2])

/-- A constant of kind `k` cast to another scalar kind. -/
theorem cast_eq {v : Value} {k : Kind} (hv : v.kind.isScalar) (hk : k.isScalar)
    (hne : v.kind ≠ k) : v.cast k = ⟨k.wrap v.bits, k⟩ := by
  rw [cast, if_neg hne, if_neg (Kind.ne_float32 hk), if_neg (Kind.ne_float64 hk),
    if_neg (Kind.ne_float32 hv), if_neg (Kind.ne_float64 hv), extendOrTruncate_eq hk]

end Value

end OneJit
