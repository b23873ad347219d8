import Mathlib.Data.Int.ModEq
import OneJit.Arith

/-!
# Arithmetic modulo a power of two

The operators of `Value` as operations on numbers. A value in the form of its kind is a number; the
result of an operator is in the same form, and it is the number of the result modulo `2 ^ w`.
-/

namespace OneJit

namespace Kind

/-- The pattern of a number, in 64 bits. -/
theorem ofInt_number (k : Kind) (a : BitVec 64) : BitVec.ofInt 64 (k.number a) = a := by
  rw [number]
  split
  · exact BitVec.ofInt_toInt
  · rw [BitVec.ofInt_natCast, BitVec.ofNat_toNat, BitVec.setWidth_eq]

/-- The low bits of a pattern, as a number. -/
theorem number_wrap {k : Kind} (h : k.isScalar) (b : BitVec 64) :
    k.number (k.wrap b) ≡ b.toNat [ZMOD 2 ^ k.bitsize] := by
  have hle := bitsize_le h
  rw [number, wrap]
  split
  · rw [BitVec.toInt_signExtend_of_le hle, BitVec.toInt_setWidth]
    exact Int.bmod_emod
  · rw [BitVec.toNat_setWidth_of_le hle, BitVec.toNat_setWidth, Int.natCast_mod]
    exact Int.mod_modEq _ _

/-- The number that a pattern is made from, modulo `2 ^ w`. -/
theorem number_wrap_ofInt {k : Kind} (h : k.isScalar) (n : Int) :
    k.number (k.wrap (BitVec.ofInt 64 n)) ≡ n [ZMOD 2 ^ k.bitsize] := by
  have hdvd : (2 ^ k.bitsize : Int) ∣ 2 ^ 64 := pow_dvd_pow 2 (bitsize_le h)
  have hnat : ((BitVec.ofInt 64 n).toNat : Int) ≡ n [ZMOD 2 ^ 64] := by
    have hpos : 0 ≤ n % (2 ^ 64 : Nat) := Int.emod_nonneg _ (by decide)
    rw [BitVec.toNat_ofInt, Int.toNat_of_nonneg hpos]
    exact Int.mod_modEq _ _
  exact (number_wrap h _).trans (hnat.of_dvd hdvd)

/-- A number of the kind that is not negative is its own pattern. -/
theorem number_eq_toNat {k : Kind} {a : BitVec 64} (h : 0 ≤ k.number a) :
    k.number a = a.toNat := by
  rw [number] at h ⊢
  by_cases hint : k.group = .gInt
  · rw [if_pos hint] at h ⊢
    exact BitVec.toInt_eq_toNat_of_lt (BitVec.toInt_pos_iff.mp h)
  · rw [if_neg hint]

@[simp] theorem number_zero (k : Kind) : k.number 0 = 0 := by
  rw [number]
  split <;> rfl

theorem number_eq_zero {k : Kind} {a : BitVec 64} : k.number a = 0 ↔ a = 0 := by
  constructor
  · intro h
    exact number_inj (h.trans (number_zero k).symm)
  · rintro rfl
    exact number_zero k

end Kind

namespace Value

/-- A value as a number. -/
def number (v : Value) : Int := v.kind.number v.bits

/-- A value of a kind, in the form of the kind. -/
structure NormalOf (k : Kind) (v : Value) : Prop where
  kind : v.kind = k
  normal : v.Normal

/-- A value in the form of its kind that is a number modulo `2 ^ w`. -/
structure Represents (k : Kind) (n : Int) (v : Value) : Prop extends NormalOf k v where
  number : v.number ≡ n [ZMOD 2 ^ k.bitsize]

/-- The bits of the result are those of the operands, combined one by one. -/
structure Combines (k : Kind) (f : Bool → Bool → Bool) (a b v : Value) : Prop
    extends NormalOf k v where
  bit : ∀ i < k.bitsize, v.bits.getLsbD i = f (a.bits.getLsbD i) (b.bits.getLsbD i)

/-- The result of a comparison that tells whether a proposition holds. -/
structure Decides (p : Prop) [Decidable p] (v : Value) : Prop extends NormalOf .bool v where
  eq : v = ofBool p

variable {k : Kind} {a b : Value}

theorem represents_wrap (h : k.isScalar) {n : Int} {bits : BitVec 64}
    (hbits : BitVec.ofInt 64 n = bits) : Represents k n ⟨k.wrap bits, k⟩ where
  kind := rfl
  normal := Kind.wrap_wrap h bits
  number := by
    subst hbits
    exact Kind.number_wrap_ofInt h n

/-! ## The operators on numbers -/

theorem represents_arith (h : k.isScalar) (ha : NormalOf k a) (hb : NormalOf k b)
    {f32 : Float32 → Float32 → Float32} {f64 : Float → Float → Float}
    {u64 : BitVec 64 → BitVec 64 → BitVec 64} {op : Int → Int → Int}
    (hop : ∀ m n, BitVec.ofInt 64 (op m n) = u64 (BitVec.ofInt 64 m) (BitVec.ofInt 64 n)) :
    Represents k (op a.number b.number) (arith f32 f64 u64 a b) := by
  obtain rfl := ha.kind
  rw [arith_eq h hb.kind.symm]
  apply represents_wrap h
  rw [hop, number, number, Kind.ofInt_number, Kind.ofInt_number]

theorem represents_add (h : k.isScalar) (ha : NormalOf k a) (hb : NormalOf k b) :
    Represents k (a.number + b.number) (a.add b) :=
  represents_arith h ha hb fun _ _ => BitVec.ofInt_add ..

theorem represents_sub (h : k.isScalar) (ha : NormalOf k a) (hb : NormalOf k b) :
    Represents k (a.number - b.number) (a.sub b) :=
  represents_arith h ha hb fun m n => by
    rw [Int.sub_eq_add_neg, BitVec.ofInt_add, BitVec.ofInt_neg, BitVec.sub_eq_add_neg]

theorem represents_mul (h : k.isScalar) (ha : NormalOf k a) (hb : NormalOf k b) :
    Represents k (a.number * b.number) (a.mul b) :=
  represents_arith h ha hb fun _ _ => BitVec.ofInt_mul ..

theorem represents_neg (h : k.isScalar) (ha : NormalOf k a) : Represents k (-a.number) a.neg := by
  obtain rfl := ha.kind
  rw [neg, if_neg (Kind.ne_float32 h), if_neg (Kind.ne_float64 h), extendOrTruncate_eq h]
  apply represents_wrap h
  rw [BitVec.ofInt_neg, number, Kind.ofInt_number]

/-- The complement of a number. -/
theorem represents_compl (h : k.isScalar) (ha : NormalOf k a) :
    Represents k (-a.number - 1) a.compl := by
  obtain rfl := ha.kind
  have hnot : ¬(a.kind = .float32 ∨ a.kind = .float64) :=
    not_or.mpr ⟨Kind.ne_float32 h, Kind.ne_float64 h⟩
  rw [compl, if_neg hnot, extendOrTruncate_eq h]
  apply represents_wrap h
  rw [Int.sub_eq_add_neg, BitVec.ofInt_add, BitVec.ofInt_neg, number, Kind.ofInt_number,
    BitVec.not_eq_neg_add, BitVec.sub_eq_add_neg]
  rfl

theorem combines_bitwise (h : k.isScalar) (ha : NormalOf k a) (hb : NormalOf k b)
    {u64 : BitVec 64 → BitVec 64 → BitVec 64} {f : Bool → Bool → Bool}
    (hwrap : ∀ x y, k.wrap (u64 x y) = u64 (k.wrap x) (k.wrap y))
    (hbit : ∀ x y i, (u64 x y).getLsbD i = f (x.getLsbD i) (y.getLsbD i)) :
    Combines k f a b (bitwise u64 a b) := by
  obtain rfl := ha.kind
  have hbn : a.kind.wrap b.bits = b.bits := hb.kind ▸ hb.normal
  have han : a.kind.wrap a.bits = a.bits := ha.normal
  rw [bitwise_eq h hb.kind.symm]
  refine ⟨⟨rfl, ?_⟩, fun i _ => hbit _ _ i⟩
  change a.kind.wrap (u64 a.bits b.bits) = u64 a.bits b.bits
  rw [hwrap, han, hbn]

/-! ## Shifts and divisions -/

/-- Neither `invalid` nor a floating point operation. -/
theorem not_mixed (h : k.isScalar) (ha : NormalOf k a) (hb : NormalOf k b) :
    ¬(a.kind ≠ b.kind ∨ a.kind = .float32 ∨ a.kind = .float64) := by
  rw [ha.kind, hb.kind]
  simp [Kind.ne_float32 h, Kind.ne_float64 h]

/-- A count below the width is the same count as a pattern. -/
theorem count_eq (h : k.isScalar) (hlo : 0 ≤ b.number) (hhi : b.number < k.bitsize) :
    b.number.toNat = b.bits.toNat ∧ b.bits.toNat < 64 := by
  have hle := Kind.bitsize_le h
  have hnum : b.number = b.bits.toNat := Kind.number_eq_toNat hlo
  omega

theorem natCast_two_pow (n : Nat) : ((2 ^ n : Nat) : Int) = 2 ^ n := by
  rw [Nat.cast_pow, Nat.cast_ofNat]

theorem represents_shl (h : k.isScalar) (ha : NormalOf k a) (hb : NormalOf k b)
    (hlo : 0 ≤ b.number) (hhi : b.number < k.bitsize) :
    ∃ v, a.shl b = some v ∧ Represents k (a.number * 2 ^ b.number.toNat) v := by
  have hnot := not_mixed h ha hb
  obtain ⟨hcount, hlt⟩ := count_eq h hlo hhi
  obtain rfl := ha.kind
  rw [shl, if_neg hnot, if_neg (Nat.not_le.mpr hlt), extendOrTruncate_eq h]
  refine ⟨_, rfl, represents_wrap h ?_⟩
  have hpow : BitVec.ofInt 64 (2 ^ b.bits.toNat) = BitVec.twoPow 64 b.bits.toNat := by
    rw [← natCast_two_pow b.bits.toNat, BitVec.ofInt_natCast]
    apply BitVec.eq_of_toNat_eq
    rw [BitVec.toNat_ofNat, BitVec.toNat_twoPow]
  rw [BitVec.ofInt_mul, number, Kind.ofInt_number, hcount, BitVec.shiftLeft_eq_mul_twoPow, hpow]

/-- The shift to the right rounds down. -/
theorem represents_shr (h : k.isScalar) (ha : NormalOf k a) (hb : NormalOf k b)
    (hlo : 0 ≤ b.number) (hhi : b.number < k.bitsize) :
    ∃ v, a.shr b = some v ∧ Represents k (a.number / 2 ^ b.number.toNat) v := by
  have hnot := not_mixed h ha hb
  obtain ⟨hcount, hlt⟩ := count_eq h hlo hhi
  obtain rfl := ha.kind
  rw [shr, if_neg hnot, if_neg (Nat.not_le.mpr hlt), hcount]
  by_cases hint : a.kind.group = .gInt
  · rw [if_pos hint, extendOrTruncate_eq h]
    refine ⟨_, rfl, represents_wrap h ?_⟩
    rw [number, Kind.number, if_pos hint, ← natCast_two_pow, ← Int.shiftRight_eq_div_pow,
      ← BitVec.toInt_sshiftRight, BitVec.ofInt_toInt]
  · rw [if_neg hint, extendOrTruncate_eq h]
    refine ⟨_, rfl, represents_wrap h ?_⟩
    have hdiv : (a.bits.toNat : Int) / 2 ^ b.bits.toNat = (a.bits >>> b.bits.toNat).toNat := by
      rw [BitVec.toNat_ushiftRight, Nat.shiftRight_eq_div_pow, Int.natCast_ediv, natCast_two_pow]
    rw [number, Kind.number, if_neg hint, hdiv, BitVec.ofInt_natCast, BitVec.ofNat_toNat,
      BitVec.setWidth_eq]

/-- The host divides: the divisor is not zero, and the quotient is a number of the kind. -/
def Divides (k : Kind) (a b : Value) : Prop :=
  b.number ≠ 0 ∧ ¬(a.number = k.number k.minimum ∧ b.number = -1)

theorem intDivDefined_of_divides (h : k.isScalar) (ha : NormalOf k a) (hb : NormalOf k b)
    (hint : k.group = .gInt) (hdiv : Divides k a b) : intDivDefined a.bits b.bits := by
  have hne : b.bits ≠ 0 := fun hz => hdiv.1 (Kind.number_eq_zero.mpr hz)
  rw [intDivDefined, Bool.and_eq_true, bne_iff_ne, Bool.not_eq_true', Bool.and_eq_false_iff,
    beq_eq_false_iff_ne, beq_eq_false_iff_ne]
  refine ⟨hne, ?_⟩
  by_contra hover
  rw [not_or, not_not, not_not] at hover
  obtain ⟨hmin, hone⟩ := hover
  apply hdiv.2
  have hbn : b.number = -1 := by
    rw [number, hb.kind, Kind.number, if_pos hint, hone]
    rfl
  have han : a.number = -2 ^ 63 := by
    rw [number, ha.kind, Kind.number, if_pos hint, hmin]
    rfl
  have hbounds := Kind.number_bounds h (ha.kind ▸ ha.normal : k.wrap a.bits = a.bits)
  have hleast : -2 ^ 63 ≤ k.number k.minimum := by
    clear hbounds han hdiv hint
    revert h
    apply Kind.scalar_cases <;> decide
  have hnum : k.number a.bits = -2 ^ 63 := by rw [← han, number, ha.kind]
  exact ⟨by omega, hbn⟩

theorem represents_quo (h : k.isScalar) (ha : NormalOf k a) (hb : NormalOf k b)
    (hdiv : Divides k a b) : ∃ v, a.quo b = some v ∧ Represents k (a.number.tdiv b.number) v := by
  have hdef := fun hint => intDivDefined_of_divides h ha hb hint hdiv
  have hne : b.bits ≠ 0 := fun hz => hdiv.1 (Kind.number_eq_zero.mpr hz)
  have hbk := hb.kind
  obtain rfl := ha.kind
  rw [quo, if_neg (not_not_intro hbk.symm), if_neg (Kind.ne_float32 h),
    if_neg (Kind.ne_float64 h), number, number, hbk, Kind.number, Kind.number]
  by_cases hint : a.kind.group = .gInt
  · rw [if_pos hint, if_pos (hdef hint), extendOrTruncate_eq h]
    refine ⟨_, rfl, represents_wrap h ?_⟩
    rw [if_pos hint, if_pos hint]
  · rw [if_neg hint, if_neg hne, extendOrTruncate_eq h]
    refine ⟨_, rfl, represents_wrap h ?_⟩
    rw [if_neg hint, if_neg hint, ← Int.ofNat_tdiv, BitVec.ofInt_natCast]
    apply BitVec.eq_of_toNat_eq
    rw [BitVec.toNat_udiv, BitVec.toNat_ofNat, Nat.mod_eq_of_lt]
    exact Nat.lt_of_le_of_lt (Nat.div_le_self _ _) a.bits.isLt

theorem represents_rem (h : k.isScalar) (ha : NormalOf k a) (hb : NormalOf k b)
    (hdiv : Divides k a b) : ∃ v, a.rem b = some v ∧ Represents k (a.number.tmod b.number) v := by
  have hdef := fun hint => intDivDefined_of_divides h ha hb hint hdiv
  have hne : b.bits ≠ 0 := fun hz => hdiv.1 (Kind.number_eq_zero.mpr hz)
  have hnot := not_mixed h ha hb
  have hbk := hb.kind
  obtain rfl := ha.kind
  rw [rem, if_neg hnot, number, number, hbk, Kind.number, Kind.number]
  by_cases hint : a.kind.group = .gInt
  · rw [if_pos hint, if_pos (hdef hint), extendOrTruncate_eq h]
    refine ⟨_, rfl, represents_wrap h ?_⟩
    rw [if_pos hint, if_pos hint]
  · rw [if_neg hint, if_neg hne, extendOrTruncate_eq h]
    refine ⟨_, rfl, represents_wrap h ?_⟩
    rw [if_neg hint, if_neg hint, ← Int.ofNat_tmod, BitVec.ofInt_natCast]
    apply BitVec.eq_of_toNat_eq
    rw [BitVec.toNat_umod, BitVec.toNat_ofNat, Nat.mod_eq_of_lt]
    exact Nat.lt_of_le_of_lt (Nat.mod_le _ _) a.bits.isLt

/-! ## Comparisons -/

theorem decides_ofBool {p : Prop} [Decidable p] {c : Bool} (hc : c = decide p) :
    Decides p (ofBool c) where
  kind := rfl
  normal := by cases c <;> rfl
  eq := congrArg ofBool hc

theorem number_lt_iff (ha : NormalOf k a) (hb : NormalOf k b) :
    a.number < b.number ↔ a.kind.less a.bits b.bits := by
  rw [Kind.less_iff, number, number, ha.kind, hb.kind]

theorem number_eq_iff (ha : NormalOf k a) (hb : NormalOf k b) :
    a.number = b.number ↔ a.bits = b.bits := by
  rw [number, number, ha.kind, hb.kind]
  exact ⟨Kind.number_inj, congrArg _⟩

theorem decides_lt (h : k.isScalar) (ha : NormalOf k a) (hb : NormalOf k b) :
    Decides (a.number < b.number) (a.lt b) := by
  rw [lt_eq (ha.kind ▸ h) (ha.kind.trans hb.kind.symm)]
  apply decides_ofBool
  rw [Bool.eq_iff_iff, decide_eq_true_iff, number_lt_iff ha hb]

theorem decides_le (h : k.isScalar) (ha : NormalOf k a) (hb : NormalOf k b) :
    Decides (a.number ≤ b.number) (a.le b) := by
  rw [le_eq (ha.kind ▸ h) (ha.kind.trans hb.kind.symm)]
  apply decides_ofBool
  rw [Bool.eq_iff_iff, decide_eq_true_iff, ← Int.not_lt, number_lt_iff hb ha, ha.kind, hb.kind,
    Bool.not_eq_true', Bool.not_eq_true]

theorem decides_eq (h : k.isScalar) (ha : NormalOf k a) (hb : NormalOf k b) :
    Decides (a.number = b.number) (a.eq b) := by
  rw [eq_eq (ha.kind ▸ h) (ha.kind.trans hb.kind.symm)]
  apply decides_ofBool
  rw [Bool.eq_iff_iff, decide_eq_true_iff, number_eq_iff ha hb, beq_iff_eq]

theorem decides_ne (h : k.isScalar) (ha : NormalOf k a) (hb : NormalOf k b) :
    Decides (a.number ≠ b.number) (a.ne b) := by
  rw [ne_eq (ha.kind ▸ h) (ha.kind.trans hb.kind.symm)]
  apply decides_ofBool
  rw [Bool.eq_iff_iff, decide_eq_true_iff, Ne, number_eq_iff ha hb, bne_iff_ne]

/-! ## All operators -/

/-- Each operator on two values is that of the numbers modulo `2 ^ w`. -/
structure Modular (k : Kind) (a b : Value) : Prop where
  add : Represents k (a.number + b.number) (a.add b)
  sub : Represents k (a.number - b.number) (a.sub b)
  mul : Represents k (a.number * b.number) (a.mul b)
  neg : Represents k (-a.number) a.neg
  compl : Represents k (-a.number - 1) a.compl
  and : Combines k Bool.and a b (a.and b)
  or : Combines k Bool.or a b (a.or b)
  xor : Combines k Bool.xor a b (a.xor b)
  shl : 0 ≤ b.number → b.number < k.bitsize →
    ∃ v, a.shl b = some v ∧ Represents k (a.number * 2 ^ b.number.toNat) v
  shr : 0 ≤ b.number → b.number < k.bitsize →
    ∃ v, a.shr b = some v ∧ Represents k (a.number / 2 ^ b.number.toNat) v
  quo : Divides k a b → ∃ v, a.quo b = some v ∧ Represents k (a.number.tdiv b.number) v
  rem : Divides k a b → ∃ v, a.rem b = some v ∧ Represents k (a.number.tmod b.number) v
  lt : Decides (a.number < b.number) (a.lt b)
  le : Decides (a.number ≤ b.number) (a.le b)
  gt : Decides (b.number < a.number) (a.gt b)
  ge : Decides (b.number ≤ a.number) (a.ge b)
  eq : Decides (a.number = b.number) (a.eq b)
  ne : Decides (a.number ≠ b.number) (a.ne b)

/-- Each operator on two values gives the invalid value. -/
structure Rejected (a b : Value) : Prop where
  add : a.add b = invalid
  sub : a.sub b = invalid
  mul : a.mul b = invalid
  and : a.and b = invalid
  or : a.or b = invalid
  xor : a.xor b = invalid
  shl : a.shl b = some invalid
  shr : a.shr b = some invalid
  quo : a.quo b = some invalid
  rem : a.rem b = some invalid
  lt : a.lt b = invalid
  le : a.le b = invalid
  gt : a.gt b = invalid
  ge : a.ge b = invalid
  eq : a.eq b = invalid
  ne : a.ne b = invalid

theorem modular_of_normal (h : k.isScalar) (ha : NormalOf k a) (hb : NormalOf k b) :
    Modular k a b where
  add := represents_add h ha hb
  sub := represents_sub h ha hb
  mul := represents_mul h ha hb
  neg := represents_neg h ha
  compl := represents_compl h ha
  and := combines_bitwise h ha hb Kind.wrap_and fun _ _ _ => BitVec.getLsbD_and
  or := combines_bitwise h ha hb Kind.wrap_or fun _ _ _ => BitVec.getLsbD_or
  xor := combines_bitwise h ha hb Kind.wrap_xor fun _ _ _ => BitVec.getLsbD_xor
  shl := represents_shl h ha hb
  shr := represents_shr h ha hb
  quo := represents_quo h ha hb
  rem := represents_rem h ha hb
  lt := decides_lt h ha hb
  le := decides_le h ha hb
  gt := decides_lt h hb ha
  ge := decides_le h hb ha
  eq := decides_eq h ha hb
  ne := decides_ne h ha hb

theorem rejected_of_mixed (h : a.kind ≠ b.kind) : Rejected a b where
  add := if_pos h
  sub := if_pos h
  mul := if_pos h
  and := if_pos (.inl h)
  or := if_pos (.inl h)
  xor := if_pos (.inl h)
  shl := if_pos (.inl h)
  shr := if_pos (.inl h)
  quo := if_pos h
  rem := if_pos (.inl h)
  lt := if_pos h
  le := if_pos h
  gt := if_pos h.symm
  ge := if_pos h.symm
  eq := if_pos h
  ne := if_pos h

/-- On values of one kind in the form of the kind, the operators are those of the numbers modulo
`2 ^ w`; on values of different kinds the result is invalid. -/
theorem operators_modular (a b : Value) :
    (∀ k : Kind, k.isScalar → NormalOf k a → NormalOf k b → Modular k a b) ∧
      (a.kind ≠ b.kind → Rejected a b) :=
  ⟨fun _ h ha hb => modular_of_normal h ha hb, rejected_of_mixed⟩

/-- `-128 / 3` on `Int8`, and a sum of a Bool and a number. -/
theorem operators_modular_int8 :
    Modular .int8 ⟨-128, .int8⟩ ⟨3, .int8⟩ ∧ Rejected (ofBool true) ⟨3, .int8⟩ :=
  ⟨(operators_modular ⟨-128, .int8⟩ ⟨3, .int8⟩).1 .int8 rfl ⟨rfl, by decide⟩ ⟨rfl, by decide⟩,
    (operators_modular (ofBool true) ⟨3, .int8⟩).2 (by decide)⟩

end Value

end OneJit
