import OneJit.Go.ConstantOp
import Mathlib.Data.Rat.Lemmas

/-!
# Operators on integer constants

What the Go specification says of the operators on integer and rune constants, and where `UnaryOp`
and `BinaryOp` follow it.
-/

namespace OneJit.Go.Constant

open Types (Arch)

/-! ## The specification -/

/-- An integer or rune constant. The untyped kinds have one type each. -/
structure IsInteger (arch : Arch) (n : Int) (t : CType) : Prop where
  range : intRange arch t.kind n
  basic : t.kind.isUntyped = true → t.address = none

def unaryOperators : List Token := [.add, .sub, .not, .xor, .mul, .and, .arrow]

def binaryOperators : List Token :=
  [.add, .sub, .mul, .quo, .rem, .and, .or, .xor, .shl, .shr, .andNot, .land, .lor, .eql, .lss,
    .gtr, .neq, .leq, .geq]

/-- The number of bits of the types of an unsigned kind. -/
def unsignedBits (arch : Arch) : Kind → Option Nat
  | .uint | .uintptr => some arch.bits
  | .uint8 => some 8
  | .uint16 => some 16
  | .uint32 => some 32
  | .uint64 => some 64
  | _ => none

/-- The value of a unary operation. The complement has the bits of the type only, where this is
unsigned. -/
def goUnary (arch : Arch) (op : Token) (k : Kind) (n : Int) : Option Int :=
  match op with
  | .add => some n
  | .sub => some (-n)
  | .xor =>
    match unsignedBits arch k with
    | some bits => some ((-1 : Int).xor n % 2 ^ bits)
    | none => some ((-1 : Int).xor n)
  | _ => none

/-- A value that is a constant of type `t`. -/
def typedAs (arch : Arch) (t : CType) (n : Int) : Option (CValue × CType) :=
  if intRange arch t.kind n then some (.int n, t) else none

/-- A unary operation: its value and type, or none where it is an error. -/
def goUnaryOp (arch : Arch) (op : Token) (n : Int) (t : CType) : Option (CValue × CType) :=
  (goUnary arch op t.kind n).bind (typedAs arch t)

/-- The type to which the operands are converted. Of two untyped operands it is that of the kind
that comes later in the order integer, rune. -/
def operandType (xt yt : CType) : Option CType :=
  if xt = yt then some xt
  else if xt.kind.isUntyped then
    if yt.kind.isUntyped then some (if xt.kind = .untypedRune then xt else yt) else some yt
  else if yt.kind.isUntyped then some xt
  else none

/-- The value of an arithmetic operation. -/
def goBinary (op : Token) (x y : Int) : Option Int :=
  match op with
  | .add => some (x + y)
  | .sub => some (x - y)
  | .mul => some (x * y)
  | .quo => if y = 0 then none else some (x.tdiv y)
  | .rem => if y = 0 then none else some (x.tmod y)
  | .and => some (x.land y)
  | .or => some (x.lor y)
  | .xor => some (x.xor y)
  | .andNot => some (x.ldiff y)
  | _ => none

/-- The value of a comparison. -/
def goCompare (op : Token) (x y : Int) : Option Bool :=
  match op with
  | .eql => some (x = y)
  | .neq => some (x ≠ y)
  | .lss => some (x < y)
  | .leq => some (x ≤ y)
  | .gtr => some (y < x)
  | .geq => some (y ≤ x)
  | _ => none

/-- The value of a shift. -/
def goShift (op : Token) (x : Int) (s : Nat) : Int := if op = .shl then x * 2 ^ s else x / 2 ^ s

/-- Both operands are constants of the type. -/
def Both (arch : Arch) (t : CType) (x y : Int) : Prop :=
  intRange arch t.kind x ∧ intRange arch t.kind y

instance (arch : Arch) (t : CType) (x y : Int) : Decidable (Both arch t x y) := by
  unfold Both
  infer_instance

/-- A binary operation that is no shift, on operands that are converted to `t`. -/
def goBinaryAs (arch : Arch) (op : Token) (x y : Int) (t : CType) : Option (CValue × CType) :=
  if Both arch t x y then
    match goCompare op x y with
    | some flag => some (.bool flag, basicType .untypedBool)
    | none => (goBinary op x y).bind (typedAs arch t)
  else none

/-- A binary operation. The count of a shift is not negative, and a `uint` holds it where it is
untyped. -/
def goBinaryOp (arch : Arch) (op : Token) (x : Int) (xt : CType) (y : Int) (yt : CType) :
    Option (CValue × CType) :=
  if op = .shl ∨ op = .shr then
    if y < 0 ∨ yt.kind.isUntyped ∧ 2 ^ arch.bits ≤ y then none
    else typedAs arch xt (goShift op x y.toNat)
  else (operandType xt yt).bind (goBinaryAs arch op x y)

/-- A result follows the specification: it is the constant, or it is invalid and has an error. -/
def Follows (r : Option Value) (e : Option (CValue × CType)) : Prop :=
  ∃ w, r = some w ∧
    match e with
    | some (c, t) => w = constant c t
    | none => w.isValid = false ∧ (w.bind Data.err).isSome

theorem not_follows_none (e : Option (CValue × CType)) : ¬ Follows none e := by
  intro ⟨w, hw, _⟩
  exact absurd hw (by simp)

theorem follows_constant (c : CValue) (t : CType) (e : Option (CValue × CType)) :
    Follows (some (constant c t)) e ↔ e = some (c, t) := by
  constructor
  · intro ⟨w, hw, hres⟩
    rw [← Option.some.inj hw] at hres
    cases e with
    | none => exact absurd hres.1 (by simp)
    | some p => simp_all [constant, Prod.ext_iff]
  · intro he
    subst he
    exact ⟨_, rfl, rfl⟩

theorem follows_failed (err : Err) (e : Option (CValue × CType)) :
    Follows (some (failed err)) e ↔ e = none := by
  constructor
  · intro ⟨w, hw, hres⟩
    rw [← Option.some.inj hw] at hres
    cases e with
    | none => rfl
    | some p => exact absurd hres.symm (constant_ne_failed _ _ _)
  · intro he
    subst he
    exact ⟨_, rfl, rfl, rfl⟩

/-- A validated number follows the specification if and only if the specification has the same
number, or has an error and the number is out of range. -/
theorem follows_validate (lib : Inexact) (arch : Arch) {t : CType} (ht : t.kind.category = .int)
    (n : Int) (e : Option (CValue × CType)) :
    Follows (validate lib arch (some (.int n)) (some t)) e ↔ e = typedAs arch t n := by
  rw [validate_int lib arch n ht, typedAs]
  by_cases h : intRange arch t.kind n
  · rw [if_pos h, if_pos h, follows_constant]
  · rw [if_neg h, if_neg h, follows_failed]

theorem typedAs_eq_none {arch : Arch} {t : CType} {n : Int} :
    none = typedAs arch t n ↔ ¬ intRange arch t.kind n := by
  rw [typedAs]
  split <;> simp_all

/-! ## Unary operators -/

/-- Where `UnaryOp` follows the specification: not for the complement of a number of a signed type
that is not negative, and not for what is no operator on integers. -/
def UnaryFine (op : Token) (n : Int) (k : Kind) : Prop :=
  op = .add ∨ op = .sub ∨
    op = .xor ∧ (k ∈ [Kind.int, .int8, .int16, .int32, .int64] → n < 0)

instance (op : Token) (n : Int) (k : Kind) : Decidable (UnaryFine op n k) := by
  unfold UnaryFine
  infer_instance

theorem neg_one_xor (n : Int) : (-1 : Int).xor n = -n - 1 := by
  cases n with
  | ofNat n =>
    have h : (-1 : Int).xor (Int.ofNat n) = Int.negSucc (0 ^^^ n) := rfl
    rw [h, Nat.zero_xor, Int.negSucc_eq, Int.ofNat_eq_natCast]
    omega
  | negSucc n =>
    have h : (-1 : Int).xor (Int.negSucc n) = ((0 ^^^ n : Nat) : Int) := rfl
    rw [h, Nat.zero_xor, Int.negSucc_eq]
    omega

/-- The range of a signed kind in terms of its size. -/
theorem signed_range (arch : Arch) {k : Kind}
    (hk : k = .int ∨ k = .int8 ∨ k = .int16 ∨ k = .int32 ∨ k = .int64) (n : Int) :
    ∃ b : Nat, k.size arch * 8 = b + 1 ∧ (intRange arch k n ↔ -2 ^ b ≤ n ∧ n < 2 ^ b) := by
  rcases hk with rfl | rfl | rfl | rfl | rfl
  · refine ⟨arch.bits - 1, ?_, Iff.rfl⟩
    rcases bits_cases arch with h | h <;> simp [Kind.size, Kind.ksize, h]
  · exact ⟨7, rfl, Iff.rfl⟩
  · exact ⟨15, rfl, Iff.rfl⟩
  · exact ⟨31, rfl, Iff.rfl⟩
  · exact ⟨63, rfl, Iff.rfl⟩

theorem unsignedBits_size (arch : Arch) {k : Kind}
    (hk : k = .uint ∨ k = .uint8 ∨ k = .uint16 ∨ k = .uint32 ∨ k = .uint64 ∨ k = .uintptr) :
    unsignedBits arch k = some (k.size arch * 8) ∧ 0 < k.size arch * 8 := by
  have hbits := bits_cases arch
  rcases hk with rfl | rfl | rfl | rfl | rfl | rfl <;> rcases hbits with h | h <;>
    simp [unsignedBits, Kind.size, Kind.ksize, h]

/-- The complement of `UnaryOp`, in the bits of the kind. -/
theorem unaryOp_xor (lib : Inexact) (arch : Arch) (n : Int) (t : CType) :
    unaryOp lib arch .xor (constant (.int n) t) =
      validate lib arch (some (.int (if 0 < t.kind.size arch * 8 then
        (-n - 1) % 2 ^ (t.kind.size arch * 8) else -n - 1))) (some t) := rfl

/-- The complement of a number that is not negative, in the bits of a signed kind, is out of
range. -/
theorem complement_signed {arch : Arch} {k : Kind}
    (hk : k = .int ∨ k = .int8 ∨ k = .int16 ∨ k = .int32 ∨ k = .int64) {n : Int}
    (hn : intRange arch k n) :
    intRange arch k (-n - 1) ∧ 0 < k.size arch * 8 ∧
      (intRange arch k ((-n - 1) % 2 ^ (k.size arch * 8)) ↔ n < 0) ∧
      (n < 0 → (-n - 1) % 2 ^ (k.size arch * 8) = -n - 1) := by
  obtain ⟨b, hb, hrange⟩ := signed_range arch hk n
  have hrange' : ∀ m, intRange arch k m ↔ -2 ^ b ≤ m ∧ m < 2 ^ b := by
    intro m
    obtain ⟨b', hb', h⟩ := signed_range arch hk m
    have hbb : b' = b := by omega
    rwa [hbb] at h
  have hpos : (0 : Int) < 2 ^ b := Int.pow_pos (by omega)
  have hpow : (2 : Int) ^ (b + 1) = 2 * 2 ^ b := by rw [Int.pow_succ]; omega
  obtain ⟨hlo, hhi⟩ := hrange.mp hn
  rw [hb, hrange', hrange', hpow]
  generalize (2 : Int) ^ b = p at *
  refine ⟨by omega, by omega, ?_, ?_⟩
  · by_cases hneg : n < 0
    · rw [Int.emod_eq_of_lt (by omega) (by omega)]
      omega
    · have hmod : (-n - 1) % (2 * p) = 2 * p - n - 1 := by
        rw [← Int.add_emod_right, Int.emod_eq_of_lt (by omega) (by omega)]
        omega
      rw [hmod]
      omega
  · intro hneg
    exact Int.emod_eq_of_lt (by omega) (by omega)

theorem xor_iff (lib : Inexact) (arch : Arch) {n : Int} {t : CType}
    (hn : intRange arch t.kind n) :
    Follows (unaryOp lib arch .xor (constant (.int n) t)) (goUnaryOp arch .xor n t) ↔
      UnaryFine .xor n t.kind := by
  have ht := category_of_intRange hn
  rw [unaryOp_xor, follows_validate lib arch ht, goUnaryOp, goUnary, neg_one_xor]
  obtain ⟨k, address⟩ := t
  dsimp only at hn ht ⊢
  rcases integer_cases ht with h | h | rfl | rfl
  · obtain ⟨hrange, hpos, hmod, hneg⟩ := complement_signed h hn
    have hmem : k ∈ [Kind.int, .int8, .int16, .int32, .int64] := by
      rcases h with rfl | rfl | rfl | rfl | rfl <;> decide
    have hbits : unsignedBits arch k = none := by
      rcases h with rfl | rfl | rfl | rfl | rfl <;> rfl
    simp only [hbits, Option.bind_some, if_pos hpos, UnaryFine, hmem, true_implies, reduceCtorEq,
      true_and, false_or]
    rw [typedAs, if_pos hrange]
    by_cases hlt : n < 0
    · rw [hneg hlt, typedAs, if_pos hrange]
      simp [hlt]
    · rw [typedAs, if_neg (mt hmod.mp hlt)]
      simp [hlt]
  · obtain ⟨hbits, hpos⟩ := unsignedBits_size arch h
    have hmem : k ∉ [Kind.int, .int8, .int16, .int32, .int64] := by
      rcases h with rfl | rfl | rfl | rfl | rfl | rfl <;> decide
    simp [hbits, hpos, UnaryFine, hmem]
  · simp [unsignedBits, Kind.size, Kind.ksize, UnaryFine]
  · simp [unsignedBits, Kind.size, Kind.ksize, UnaryFine]

theorem unary_iff (lib : Inexact) (arch : Arch) (op : Token) (hop : op ∈ unaryOperators) (n : Int)
    (t : CType) (hn : IsInteger arch n t) :
    Follows (unaryOp lib arch op (constant (.int n) t)) (goUnaryOp arch op n t) ↔
      UnaryFine op n t.kind := by
  have ht := category_of_intRange hn.range
  simp only [unaryOperators, List.mem_cons, List.not_mem_nil, or_false] at hop
  rcases hop with rfl | rfl | rfl | rfl | rfl | rfl | rfl
  case inr.inr.inr.inl => exact xor_iff lib arch hn.range
  case inl =>
    have hcode : unaryOp lib arch .add (constant (.int n) t) =
      validate lib arch (some (.int n)) (some t) := rfl
    rw [hcode, follows_validate lib arch ht]
    simp [goUnaryOp, goUnary, UnaryFine]
  case inr.inl =>
    have hcode : unaryOp lib arch .sub (constant (.int n) t) =
      validate lib arch (some (.int (-n))) (some t) := rfl
    rw [hcode, follows_validate lib arch ht]
    simp [goUnaryOp, goUnary, UnaryFine]
  all_goals
    simp only [UnaryFine, reduceCtorEq, false_and, or_self, iff_false]
    exact not_follows_none _

/-! ## Binary operators -/

theorem typed_code {k : Kind} (hk : k.category = .int) :
    k.isUntyped = false ∧ k.code < Kind.untypedInt.code ∧ k.code < Kind.untypedRune.code ∨
      k.isUntyped = true ∧ (k = .untypedInt ∨ k = .untypedRune) := by
  cases k <;> simp [Kind.category] at hk <;> decide

/-- `combine` finds the type of the specification. -/
theorem combine_eq {arch : Arch} {x y : Int} {xt yt : CType} (hx : IsInteger arch x xt)
    (hy : IsInteger arch y yt) : combine (some xt) (some yt) = operandType xt yt := by
  have hxk := typed_code (category_of_intRange hx.range)
  have hyk := typed_code (category_of_intRange hy.range)
  have hxb := hx.basic
  have hyb := hy.basic
  obtain ⟨xk, xa⟩ := xt
  obtain ⟨yk, ya⟩ := yt
  dsimp only at hxk hyk hxb hyb
  rcases hxk with ⟨hxu, hxi, hxr⟩ | ⟨hxu, hxk⟩ <;> rcases hyk with ⟨hyu, hyi, hyr⟩ | ⟨hyu, hyk⟩
  · by_cases hlt : xk.code < yk.code <;> simp [combine, operandType, isTyped, hxu, hyu, hlt]
  · have hne : xk ≠ yk := fun h => by simp [h, hyu] at hxu
    rcases hyk with rfl | rfl <;>
      simp [combine, operandType, isTyped, hxu, hyu, hne, hxi, hxr]
  · have hne : xk ≠ yk := fun h => by simp [h, hyu] at hxu
    rcases hxk with rfl | rfl <;>
      simp [combine, operandType, isTyped, hxu, hyu, hne, hyi.le.not_gt, hyr.le.not_gt]
  · simp only [hxb hxu, hyb hyu]
    rcases hxk with rfl | rfl <;> rcases hyk with rfl | rfl <;> rfl

/-- The type of the operands is of an integer kind. -/
theorem operandType_category {arch : Arch} {x y : Int} {xt yt t : CType}
    (hx : IsInteger arch x xt) (hy : IsInteger arch y yt) (ht : operandType xt yt = some t) :
    t.kind.category = .int := by
  have hxk := category_of_intRange hx.range
  have hyk := category_of_intRange hy.range
  unfold operandType at ht
  split_ifs at ht <;> simp only [Option.some.injEq] at ht <;> subst ht <;> assumption

/-- Where `BinaryOp` follows the specification on operands that are converted to `t`: not for the
logical operators, division by zero, integer division with a remainder or of typed numbers, nor
where an untyped operand is no constant of `t` and the result is one. -/
def BinaryFineAs (arch : Arch) (op : Token) (x y : Int) (t : CType) : Prop :=
  match op with
  | .land | .lor => False
  | .quo => y ≠ 0 ∧
    if t.kind.isUntyped then y ∣ x else ¬ (Both arch t x y ∧ intRange arch t.kind (x.tdiv y))
  | .rem => y ≠ 0 ∧ (Both arch t x y ∨ ¬ intRange arch t.kind (x.tmod y))
  | op => Both arch t x y ∨ ∃ r, goBinary op x y = some r ∧ ¬ intRange arch t.kind r

/-- Where `BinaryOp` follows the specification: for a shift not with a typed count that no `uint`
holds, unless the result is out of range anyway. -/
def BinaryFine (arch : Arch) (op : Token) (x : Int) (xt : CType) (y : Int) (yt : CType) : Prop :=
  if op = .shl ∨ op = .shr then
    yt.kind.isUntyped = true ∨ y < 2 ^ arch.bits ∨
      ¬ intRange arch xt.kind (goShift op x y.toNat)
  else ∀ t, operandType xt yt = some t → BinaryFineAs arch op x y t

section Binary

variable (lib : Inexact) {arch : Arch} {op : Token} {x y : Int} {xt yt t : CType}

/-- An operator that is no comparison, on operands of one type. -/
theorem binaryOp_arith (hx : IsInteger arch x xt) (hy : IsInteger arch y yt)
    (ht : operandType xt yt = some t) (hop : op ≠ .shl ∧ op ≠ .shr)
    (hcmp : isComparison op = false) :
    binaryOp lib arch (constant (.int x) xt) op (constant (.int y) yt) =
      ((CValue.int x).binaryOp lib op (.int y)).bind fun c =>
        validate lib arch (some c) (some t) := by
  have hcombine : combine (constant (.int x) xt).type (constant (.int y) yt).type = some t := by
    rw [constant_type, constant_type, combine_eq hx hy, ht]
  simp only [binaryOp, constant_isValid, Bool.not_true, Bool.or_self, Bool.false_eq_true, if_false,
    hop.1, hop.2, or_self, hcombine, hcmp]
  rfl

/-- A comparison on operands of one type. -/
theorem binaryOp_compare (hx : IsInteger arch x xt) (hy : IsInteger arch y yt)
    (ht : operandType xt yt = some t) (hop : op ≠ .shl ∧ op ≠ .shr)
    (hcmp : isComparison op = true) :
    binaryOp lib arch (constant (.int x) xt) op (constant (.int y) yt) =
      (CValue.compareOrd (compare x y) op).map fun flag =>
        constant (.bool flag) (basicType .untypedBool) := by
  have hcombine : combine (constant (.int x) xt).type (constant (.int y) yt).type = some t := by
    rw [constant_type, constant_type, combine_eq hx hy, ht]
  simp only [binaryOp, constant_isValid, Bool.not_true, Bool.or_self, Bool.false_eq_true, if_false,
    hop.1, hop.2, or_self, hcombine, hcmp, if_true]
  have hcode : (CValue.int x).compare lib op (.int y) = CValue.compareOrd (compare x y) op := rfl
  have hval : ∀ flag, validate lib arch (some (.bool flag)) (some (basicType .untypedBool)) =
      some (constant (.bool flag) (basicType .untypedBool)) := fun flag => rfl
  have hxc : (constant (.int x) xt).cval = some (.int x) := rfl
  have hyc : (constant (.int y) yt).cval = some (.int y) := rfl
  simp only [hxc, hyc, Option.bind_eq_bind, Option.bind_some, hcode, hval]
  cases CValue.compareOrd (compare x y) op <;> rfl

theorem compareOrd_eq (op : Token) (x y : Int) :
    CValue.compareOrd (compare x y) op = goCompare op x y := by
  rcases lt_trichotomy x y with h | h | h
  · have hord : compare x y = .lt := compare_lt_iff_lt.mpr h
    cases op <;> simp [CValue.compareOrd, goCompare, hord, h.ne, h, h.le, h.not_gt]
  · subst h
    cases op <;> simp [CValue.compareOrd, goCompare]
  · have hord : compare x y = .gt := compare_gt_iff_gt.mpr h
    cases op <;> simp [CValue.compareOrd, goCompare, hord, h.ne', h, h.le, h.not_gt]

/-- The comparisons are right on constants of the type. -/
theorem compare_iff (hx : IsInteger arch x xt) (hy : IsInteger arch y yt)
    (ht : operandType xt yt = some t) (hop : op ≠ .shl ∧ op ≠ .shr)
    (hcmp : isComparison op = true) :
    Follows (binaryOp lib arch (constant (.int x) xt) op (constant (.int y) yt))
      (goBinaryAs arch op x y t) ↔ Both arch t x y := by
  have hflag : ∃ flag, goCompare op x y = some flag := by
    cases op <;> first | exact ⟨_, rfl⟩ | exact absurd hcmp (by decide)
  obtain ⟨flag, hflag⟩ := hflag
  rw [binaryOp_compare lib hx hy ht hop hcmp, compareOrd_eq, hflag, Option.map_some,
    follows_constant, goBinaryAs, hflag]
  by_cases hboth : Both arch t x y <;> simp [hboth]

/-- The operators that `go/constant` has in common with the specification. -/
theorem arith_iff (hx : IsInteger arch x xt) (hy : IsInteger arch y yt)
    (ht : operandType xt yt = some t) (hop : op ≠ .shl ∧ op ≠ .shr)
    (hcmp : isComparison op = false) {r : Int}
    (hcode : (CValue.int x).binaryOp lib op (.int y) = some (.int r))
    (hspec : goBinary op x y = some r) :
    Follows (binaryOp lib arch (constant (.int x) xt) op (constant (.int y) yt))
      (goBinaryAs arch op x y t) ↔ Both arch t x y ∨ ¬ intRange arch t.kind r := by
  have hnone : goCompare op x y = none := by
    cases op <;> first | rfl | exact absurd hcmp (by decide)
  rw [binaryOp_arith lib hx hy ht hop hcmp, hcode, Option.bind_some,
    follows_validate lib arch (operandType_category hx hy ht), goBinaryAs, hnone]
  by_cases hboth : Both arch t x y
  · simp [hboth, hspec]
  · simp only [hboth, if_false, false_or]
    exact typedAs_eq_none

/-- An exact quotient is an integer if and only if it has no remainder. -/
theorem toInt_div (hy : y ≠ 0) :
    CValue.toInt (.float ((x : Rat) / y)) = if y ∣ x then .int (x.tdiv y) else .unknown := by
  have hy' : (y : Rat) ≠ 0 := by exact_mod_cast hy
  by_cases hdvd : y ∣ x
  · obtain ⟨k, rfl⟩ := hdvd
    have hq : ((y * k : Int) : Rat) / y = k := by
      rw [Int.cast_mul, mul_comm, mul_div_assoc, div_self hy', mul_one]
    rw [if_pos (Dvd.intro k rfl), hq, Int.mul_tdiv_cancel_left k hy]
    simp [CValue.toInt]
  · have hden : ((x : Rat) / y).den ≠ 1 := by
      intro hden
      have hnum := (Rat.den_eq_one_iff _).mp hden
      have hmul : (((x : Rat) / y).num : Rat) * y = x := by
        rw [hnum, div_mul_cancel₀ _ hy']
      have hint : ((x : Rat) / y).num * y = x := by exact_mod_cast hmul
      exact hdvd (Dvd.intro_left _ hint)
    simp [CValue.toInt, hden, hdvd]

/-- Division: a typed quotient is always refused, an untyped one unless it has no remainder. -/
theorem quo_iff (hx : IsInteger arch x xt) (hy : IsInteger arch y yt)
    (ht : operandType xt yt = some t) :
    Follows (binaryOp lib arch (constant (.int x) xt) .quo (constant (.int y) yt))
      (goBinaryAs arch .quo x y t) ↔ BinaryFineAs arch .quo x y t := by
  have hcat := operandType_category hx hy ht
  rw [binaryOp_arith lib hx hy ht (by decide) (by decide), BinaryFineAs]
  by_cases hzero : y = 0
  · have hcode : (CValue.int x).binaryOp lib .quo (.int y) = none := by simp [CValue.binaryOp, hzero]
    rw [hcode]
    simp only [hzero, ne_eq, not_true_eq_false, false_and, iff_false]
    exact not_follows_none _
  · have hcode : (CValue.int x).binaryOp lib .quo (.int y) = some (.float ((x : Rat) / y)) := by
      simp [CValue.binaryOp, hzero]
    have hspec : goBinaryAs arch .quo x y t =
        if Both arch t x y then typedAs arch t (x.tdiv y) else none := by
      simp [goBinaryAs, goCompare, goBinary, hzero]
    rw [hcode, Option.bind_some, hspec]
    simp only [ne_eq, hzero, not_false_eq_true, true_and]
    obtain ⟨k, address⟩ := t
    dsimp only at hcat ⊢
    rcases typed_code hcat with ⟨huntyped, _⟩ | ⟨huntyped, hk⟩
    · have hval : ∃ e, validate lib arch (some (.float ((x : Rat) / y))) (some ⟨k, address⟩) =
          some (failed e) := by
        rcases integer_cases hcat with
          (rfl | rfl | rfl | rfl | rfl) | (rfl | rfl | rfl | rfl | rfl | rfl) | rfl | rfl <;>
          first | exact ⟨_, rfl⟩ | exact absurd huntyped (by decide)
      obtain ⟨e, hval⟩ := hval
      rw [hval, follows_failed, huntyped]
      by_cases hboth : Both arch ⟨k, address⟩ x y <;> simp [hboth, typedAs]
    · have hrange : ∀ n, intRange arch k n := by
        rcases hk with rfl | rfl <;> exact fun n => trivial
      have hval : validate lib arch (some (.float ((x : Rat) / y))) (some ⟨k, address⟩) =
          some (if y ∣ x then constant (.int (x.tdiv y)) ⟨k, address⟩
            else failed (.type (.cval .unknown) (some ⟨k, address⟩))) := by
        have hint := toInt_div hzero (x := x)
        rcases hk with rfl | rfl <;> by_cases hdvd : y ∣ x <;>
          simp [validate, check, CValue.kind, hint, hdvd, constant, failed]
      have hboth : Both arch ⟨k, address⟩ x y := ⟨hrange x, hrange y⟩
      rw [hval, huntyped, if_pos hboth, typedAs, if_pos (hrange _)]
      simp only [if_true]
      by_cases hdvd : y ∣ x
      · rw [if_pos hdvd, follows_constant]
        simp [hdvd]
      · rw [if_neg hdvd, follows_failed]
        simp [hdvd]

/-- The remainder. -/
theorem rem_iff (hx : IsInteger arch x xt) (hy : IsInteger arch y yt)
    (ht : operandType xt yt = some t) :
    Follows (binaryOp lib arch (constant (.int x) xt) .rem (constant (.int y) yt))
      (goBinaryAs arch .rem x y t) ↔ BinaryFineAs arch .rem x y t := by
  rw [BinaryFineAs]
  by_cases hzero : y = 0
  · rw [binaryOp_arith lib hx hy ht (by decide) (by decide)]
    have hcode : (CValue.int x).binaryOp lib .rem (.int y) = none := by simp [CValue.binaryOp, hzero]
    rw [hcode]
    simp only [hzero, ne_eq, not_true_eq_false, false_and, iff_false]
    exact not_follows_none _
  · have hcode : (CValue.int x).binaryOp lib .rem (.int y) = some (.int (x.tmod y)) := by
      simp [CValue.binaryOp, hzero]
    have hspec : goBinary .rem x y = some (x.tmod y) := by simp [goBinary, hzero]
    rw [arith_iff lib hx hy ht (by decide) (by decide) hcode hspec]
    simp [hzero]

/-- The operators on operands of one type. -/
theorem binaryAs_iff (hop : op ∈ binaryOperators) (hshift : op ≠ .shl ∧ op ≠ .shr)
    (hx : IsInteger arch x xt) (hy : IsInteger arch y yt) (ht : operandType xt yt = some t) :
    Follows (binaryOp lib arch (constant (.int x) xt) op (constant (.int y) yt))
      (goBinaryAs arch op x y t) ↔ BinaryFineAs arch op x y t := by
  simp only [binaryOperators, List.mem_cons, List.not_mem_nil, or_false] at hop
  rcases hop with rfl | rfl | rfl | rfl | rfl | rfl | rfl | rfl | rfl | rfl | rfl | rfl | rfl | rfl |
    rfl | rfl | rfl | rfl | rfl
  case inr.inr.inr.inl => exact quo_iff lib hx hy ht
  case inr.inr.inr.inr.inl => exact rem_iff lib hx hy ht
  case inr.inr.inr.inr.inr.inr.inr.inr.inl => exact absurd rfl hshift.1
  case inr.inr.inr.inr.inr.inr.inr.inr.inr.inl => exact absurd rfl hshift.2
  case inl | inr.inl | inr.inr.inl | inr.inr.inr.inr.inr.inl | inr.inr.inr.inr.inr.inr.inl |
      inr.inr.inr.inr.inr.inr.inr.inl | inr.inr.inr.inr.inr.inr.inr.inr.inr.inr.inl =>
    rw [arith_iff lib hx hy ht hshift rfl rfl rfl]
    simp [BinaryFineAs, goBinary]
  case inr.inr.inr.inr.inr.inr.inr.inr.inr.inr.inr.inl |
      inr.inr.inr.inr.inr.inr.inr.inr.inr.inr.inr.inr.inl =>
    rw [binaryOp_arith lib hx hy ht hshift rfl]
    simp only [BinaryFineAs, iff_false]
    exact not_follows_none _
  all_goals
    rw [compare_iff lib hx hy ht hshift rfl]
    simp [BinaryFineAs, goBinary]

/-! ## Shifts -/

/-- The count of a shift, as a `uint`. -/
theorem count_toType (hy : IsInteger arch y yt) :
    (0 ≤ y ∧ y < 2 ^ arch.bits) ∧ (∃ t, toType lib arch (constant (.int y) yt)
        (some (basicType .uint)) = some (constant (.int y) t)) ∨
      ¬ (0 ≤ y ∧ y < 2 ^ arch.bits) ∧ ∃ e, toType lib arch (constant (.int y) yt)
        (some (basicType .uint)) = some (failed e) := by
  by_cases htype : yt = basicType .uint
  · exact .inl ⟨by simpa [htype, intRange, basicType] using hy.range, yt, by
      simp [toType, constant, htype]⟩
  · by_cases hkind : yt.kind = .uint
    · have hkind' : yt.kind = (basicType .uint).kind := hkind
      refine .inl ⟨by simpa [hkind, intRange] using hy.range, yt, ?_⟩
      simp only [toType, constant]
      rw [if_neg htype, if_pos hkind']
    · have hkind' : yt.kind ≠ (basicType .uint).kind := hkind
      have hval : toType lib arch (constant (.int y) yt) (some (basicType .uint)) =
          validate lib arch (some (.int y)) (some (basicType .uint)) := by
        simp only [toType, constant]
        rw [if_neg htype, if_neg hkind']
        rfl
      rw [hval, validate_int lib arch y rfl]
      by_cases h : intRange arch .uint y
      · exact .inl ⟨h, _, by rw [basicType, if_pos h]⟩
      · exact .inr ⟨h, _, by rw [basicType, if_neg h]⟩

/-- The left operand of a shift stays as it is. -/
theorem shiftOperand_eq (hx : IsInteger arch x xt) (op : Token) (y : Int) :
    shiftOperand lib arch (constant (.int x) xt) op y = some (constant (.int x) xt) := by
  have hcat := category_of_intRange hx.range
  obtain ⟨k, address⟩ := xt
  rcases integer_cases hcat with
    (rfl | rfl | rfl | rfl | rfl) | (rfl | rfl | rfl | rfl | rfl | rfl) | rfl | rfl <;> rfl

theorem shift_iff (hop : op = .shl ∨ op = .shr) (hx : IsInteger arch x xt)
    (hy : IsInteger arch y yt) :
    Follows (binaryOp lib arch (constant (.int x) xt) op (constant (.int y) yt))
      (goBinaryOp arch op x xt y yt) ↔ BinaryFine arch op x xt y yt := by
  have hcode : binaryOp lib arch (constant (.int x) xt) op (constant (.int y) yt) =
      shift lib arch (constant (.int x) xt) op (constant (.int y) yt) := by
    simp [binaryOp, hop]
  have hcount : 2 ^ arch.bits ≤ (2 : Int) ^ 64 := by
    rcases bits_cases arch with h | h <;> simp [h]
  rw [hcode, goBinaryOp, if_pos hop, BinaryFine, if_pos hop, shift]
  rcases count_toType lib hy with ⟨⟨hlo, hhi⟩, t, hto⟩ | ⟨hout, e, hto⟩
  · have hval : (CValue.int y).uint64Val.1 = y := rfl
    have hyc : (constant (.int y) t).cval = some (.int y) := rfl
    have hxc : (constant (.int x) xt).cval = some (.int x) := rfl
    have hshift : (CValue.int x).shift op y.toNat = some (.int (goShift op x y.toNat)) := by
      rcases hop with rfl | rfl <;> rfl
    simp only [hto, Option.bind_eq_bind, Option.bind_some, constant_isValid, Bool.not_true,
      Bool.false_eq_true, if_false, hyc, hval, shiftOperand_eq lib hx, hxc, hshift, constant_type]
    rw [follows_validate lib arch (category_of_intRange hx.range),
      if_neg (by omega)]
    simp [hhi]
  · simp only [hto, Option.bind_eq_bind, Option.bind_some, failed_isValid, Bool.not_false, if_true]
    rw [follows_failed]
    by_cases hneg : y < 0
    · have hlt : y < 2 ^ arch.bits := hneg.trans (Int.pow_pos (by omega))
      simp [hneg, hlt]
    · have hge : ¬ y < 2 ^ arch.bits := fun h => hout ⟨by omega, h⟩
      cases huntyped : yt.kind.isUntyped with
      | true => simp [Int.not_lt.mp hge]
      | false =>
        simp only [hneg, Bool.false_eq_true, false_and, or_self, if_false, hge, false_or]
        rw [eq_comm, typedAs_eq_none]

end Binary

theorem binary_iff (lib : Inexact) (arch : Arch) (op : Token) (hop : op ∈ binaryOperators)
    (x : Int) (xt : CType) (y : Int) (yt : CType) (hx : IsInteger arch x xt)
    (hy : IsInteger arch y yt) :
    Follows (binaryOp lib arch (constant (.int x) xt) op (constant (.int y) yt))
      (goBinaryOp arch op x xt y yt) ↔ BinaryFine arch op x xt y yt := by
  by_cases hshift : op = .shl ∨ op = .shr
  · exact shift_iff lib hshift hx hy
  · rw [goBinaryOp, if_neg hshift, BinaryFine, if_neg hshift]
    have hne : op ≠ .shl ∧ op ≠ .shr := not_or.mp hshift
    cases ht : operandType xt yt with
    | none =>
      have hcombine : combine (constant (.int x) xt).type (constant (.int y) yt).type = none := by
        rw [constant_type, constant_type, combine_eq hx hy, ht]
      simp only [binaryOp, constant_isValid, Bool.not_true, Bool.or_self, Bool.false_eq_true,
        if_false, hne.1, hne.2, or_self, hcombine, Option.bind_none, reduceCtorEq, false_implies,
        implies_true, iff_true]
      exact (follows_failed _ _).mpr rfl
    | some t =>
      rw [Option.bind_some, binaryAs_iff lib hop hne hx hy ht]
      simp

/-- Where the operators on integer and rune constants follow the specification. -/
theorem operators_iff (lib : Inexact) (arch : Arch) :
    (∀ op ∈ unaryOperators, ∀ (n : Int) (t : CType), IsInteger arch n t →
      (Follows (unaryOp lib arch op (constant (.int n) t)) (goUnaryOp arch op n t) ↔
        UnaryFine op n t.kind)) ∧
    ∀ op ∈ binaryOperators, ∀ (x : Int) (xt : CType) (y : Int) (yt : CType),
      IsInteger arch x xt → IsInteger arch y yt →
      (Follows (binaryOp lib arch (constant (.int x) xt) op (constant (.int y) yt))
        (goBinaryOp arch op x xt y yt) ↔ BinaryFine arch op x xt y yt) :=
  ⟨unary_iff lib arch, binary_iff lib arch⟩

/-- The complement of the untyped number 5, and the product of two numbers of type `int8`. -/
theorem operators_iff_small :
    Follows (unaryOp noFloats .amd64 .xor (constant (.int 5) (basicType .untypedInt)))
        (some (.int (-6), basicType .untypedInt)) ∧
      Follows (binaryOp noFloats .amd64 (constant (.int 3) (basicType .int8)) .mul
        (constant (.int 4) (basicType .int8))) (some (.int 12, basicType .int8)) :=
  ⟨((operators_iff noFloats .amd64).1 .xor (by decide) 5 (basicType .untypedInt)
      ⟨by decide, fun _ => rfl⟩).mpr (by decide),
    ((operators_iff noFloats .amd64).2 .mul (by decide) 3 (basicType .int8) 4 (basicType .int8)
      ⟨by decide, fun _ => rfl⟩ ⟨by decide, fun _ => rfl⟩).mpr (by
        intro t ht
        have heq : t = basicType .int8 := (Option.some.inj ht).symm
        subst heq
        exact .inl (by decide))⟩

/-- The quotients 7/2 and 6/3 are refused, the first one for untyped and the second one for typed
numbers; 1/0 and `!1` panic; the complement of the number 5 of type `int8` overflows; and 128 is
accepted as an operand of type `int8`. -/
theorem operators_astray :
    (∃ e, binaryOp noFloats .amd64 (constant (.int 7) (basicType .untypedInt)) .quo
        (constant (.int 2) (basicType .untypedInt)) = some (failed e)) ∧
      (∃ e, binaryOp noFloats .amd64 (constant (.int 6) (basicType .int)) .quo
        (constant (.int 3) (basicType .int)) = some (failed e)) ∧
      binaryOp noFloats .amd64 (constant (.int 1) (basicType .untypedInt)) .quo
        (constant (.int 0) (basicType .untypedInt)) = none ∧
      unaryOp noFloats .amd64 .not (constant (.int 1) (basicType .untypedInt)) = none ∧
      unaryOp noFloats .amd64 .xor (constant (.int 5) (basicType .int8)) =
        some (failed (.overflow (.int 250) .int8)) ∧
      binaryOp noFloats .amd64 (constant (.int (-1)) (basicType .int8)) .add
        (constant (.int 128) (basicType .untypedInt)) =
          some (constant (.int 127) (basicType .int8)) ∧
      ¬ Follows (binaryOp noFloats .amd64 (constant (.int 7) (basicType .untypedInt)) .quo
        (constant (.int 2) (basicType .untypedInt)))
        (goBinaryOp .amd64 .quo 7 (basicType .untypedInt) 2 (basicType .untypedInt)) ∧
      ¬ Follows (unaryOp noFloats .amd64 .xor (constant (.int 5) (basicType .int8)))
        (goUnaryOp .amd64 .xor 5 (basicType .int8)) := by
  have hquo : binaryOp noFloats .amd64 (constant (.int 7) (basicType .untypedInt)) .quo
      (constant (.int 2) (basicType .untypedInt)) =
        some (failed (.type (.cval .unknown) (some (basicType .untypedInt)))) := by decide +kernel
  have hxor : unaryOp noFloats .amd64 .xor (constant (.int 5) (basicType .int8)) =
      some (failed (.overflow (.int 250) .int8)) := by decide +kernel
  refine ⟨⟨_, hquo⟩, ⟨.type (.cval (.float 2)) (some (basicType .int)), by decide +kernel⟩, rfl, rfl,
    hxor, by decide +kernel, ?_, ?_⟩
  · rw [hquo, follows_failed]
    decide
  · rw [hxor, follows_failed]
    decide

end OneJit.Go.Constant
