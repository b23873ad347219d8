import OneJit.Op

/-!
# Constant values and their operators

`class Value` is a 64-bit pattern with a kind. Floating point arithmetic is the host's, which
is Lean's `Float32` and `Float`. An integer division or shift that has no defined result on the
host (divisor zero, the overflowing signed division, a shift count of 64 or more) is `none`.
-/

namespace OneJit

/-- `class Value`. -/
@[ext] structure Value where
  bits : BitVec 64
  kind : Kind
  deriving DecidableEq, Repr

namespace Value

/-- `Value{}`. -/
def invalid : Value := ⟨0, .bad⟩

/-- `Value::is_valid`. -/
def isValid (v : Value) : Bool := v.kind.ekind != .bad || v.kind.simd != 0

def ofBool (b : Bool) : Value := ⟨(BitVec.ofBool b).setWidth 64, .bool⟩
def ofInt32 (i : BitVec 32) : Value := ⟨i.signExtend 64, .int32⟩
def ofUint64 (u : BitVec 64) : Value := ⟨u, .uint64⟩
def ofFloat32 (f : Float32) : Value := ⟨f.toBits.toBitVec.setWidth 64, .float32⟩
def ofFloat64 (f : Float) : Value := ⟨f.toBits.toBitVec, .float64⟩

/-- `Value::boolean`. -/
def boolean (v : Value) : Bool := v.bits != 0
def float32 (v : Value) : Float32 := Float32.ofBits (UInt32.ofBitVec (v.bits.setWidth 32))
def float64 (v : Value) : Float := Float.ofBits (UInt64.ofBitVec v.bits)

/-- `Value::zero`. -/
def zero (k : Kind) : Value := ⟨0, k⟩

/-- `extend_or_truncate`. -/
def extendOrTruncate (k : Kind) (bits : BitVec 64) : Value :=
  let bitsize := k.bitsize
  if bitsize = 0 then ⟨0, k⟩
  else
    let lomask := BitVec.allOnes 64 >>> (64 - bitsize)
    let lo := bits &&& lomask
    if k.group = .gInt ∧ lo &&& (lomask >>> 1) ≠ lo then
      -- sign-extend to 64 bits
      ⟨lo ||| ~~~lomask, k⟩
    else ⟨lo, k⟩

/-- `Value::bitcopy`. -/
def bitcopy (v : Value) (dst : Kind) : Value := extendOrTruncate dst v.bits

/-- The number a non-float kind stands for when it is cast to a float kind. -/
private def castToFloat {α : Type} (ofSigned : Int64 → α) (ofUnsigned : UInt64 → α)
    (v : Value) : Option α :=
  if v.kind.simd ≠ 0 then none
  else match v.kind.ekind with
    | .void => some (ofUnsigned 0)
    | .bool => some (ofUnsigned (if v.boolean then 1 else 0))
    | .int8 | .int16 | .int32 | .int64 => some (ofSigned (Int64.ofBitVec v.bits))
    | .uint8 | .uint16 | .uint32 | .uint64 | .ptr => some (ofUnsigned (UInt64.ofBitVec v.bits))
    | _ => none

/-- The bits of a float cast to a kind without SIMD repetitions. -/
private def castOfFloat (f : Float) (dst : Kind) : Option (BitVec 64) :=
  if dst.simd ≠ 0 then none
  else match dst.ekind with
    | .void => some 0
    | .bool => some (if f != 0 then 1 else 0)
    | .int8 => some (f.toInt8.toBitVec.signExtend 64)
    | .int16 => some (f.toInt16.toBitVec.signExtend 64)
    | .int32 => some (f.toInt32.toBitVec.signExtend 64)
    | .int64 => some f.toInt64.toBitVec
    | .uint8 => some (f.toUInt8.toBitVec.setWidth 64)
    | .uint16 => some (f.toUInt16.toBitVec.setWidth 64)
    | .uint32 => some (f.toUInt32.toBitVec.setWidth 64)
    | .uint64 | .ptr => some f.toUInt64.toBitVec
    | .float32 => some (f.toFloat32.toBits.toBitVec.setWidth 64)
    | .float64 | .float128 => some f.toBits.toBitVec
    | _ => none

/-- `Value::cast`. -/
def cast (v : Value) (dst : Kind) : Value :=
  if v.kind = dst then v
  else if dst = .float32 then
    match castToFloat Int64.toFloat32 UInt64.toFloat32 v with
    | some f => ofFloat32 f
    | none => if v.kind = .float64 ∨ v.kind = .float128 then ofFloat32 v.float64.toFloat32
      else invalid
  else if dst = .float64 then
    match castToFloat Int64.toFloat UInt64.toFloat v with
    | some f => ofFloat64 f
    | none => if v.kind = .float32 then ofFloat64 v.float32.toFloat
      else if v.kind = .float128 then ofFloat64 v.float64
      else invalid
  else if v.kind = .float32 then
    match castOfFloat v.float32.toFloat dst with
    | some bits => ⟨bits, dst⟩
    | none => invalid
  else if v.kind = .float64 then
    match castOfFloat v.float64 dst with
    | some bits => ⟨bits, dst⟩
    | none => invalid
  else extendOrTruncate dst v.bits

/-- `Value::one`. -/
def one (k : Kind) : Value := (ofInt32 1).cast k

/-- `Value::minus_one`. -/
def minusOne (k : Kind) : Value := (ofInt32 (-1)).cast k

/-- `Value::max`. -/
def max (k : Kind) : Value :=
  if k = .float32 then ofFloat32 (1.0 / 0.0)
  else if k = .float64 then ofFloat64 (1.0 / 0.0)
  else
    let bitsize := k.bitsize
    let bits : BitVec 64 := if bitsize = 0 then 0 else BitVec.allOnes 64 >>> (64 - bitsize)
    ⟨if k.isSigned then bits >>> 1 else bits, k⟩

/-- `Value::min`. The pattern of a narrow signed kind is not sign-extended. -/
def min (k : Kind) : Value :=
  if k.isUnsigned then zero k
  else if k = .float32 then ofFloat32 (-1.0 / 0.0)
  else if k = .float64 then ofFloat64 (-1.0 / 0.0)
  else ⟨1 <<< (k.bitsize - 1), k⟩

/-- `Value::identity(Kind, Op2)`. -/
def identity2 (k : Kind) : Op2 → Value
  | .sub | .shl | .shr => (ofUint64 0).cast k
  | .quo => (ofUint64 1).cast k
  | _ => invalid

/-- `Value::identity(Kind, OpN)`. -/
def identityN (k : Kind) (op : OpN) : Value :=
  if op.isBitwise && k.isFloat then invalid
  else match op with
    | .add | .or | .xor => (ofUint64 0).cast k
    | .mul => (ofUint64 1).cast k
    | .and => (ofUint64 (-1)).cast k
    | .max => min k
    | .min => max k
    | .comma => (ofUint64 0).cast k
    | _ => invalid

/-- `Value::absorbing`. -/
def absorbing (k : Kind) (op : OpN) : Value :=
  if op.isBitwise && k.isFloat then invalid
  else match op with
    | .or => (ofUint64 (-1)).cast k
    | .mul | .and => (ofUint64 0).cast k
    | .max => max k
    | .min => min k
    | _ => invalid

/-- `operator~`. -/
def compl (a : Value) : Value :=
  if a.kind = .float32 ∨ a.kind = .float64 then invalid
  else extendOrTruncate a.kind (~~~a.bits)

/-- `operator-(Value)`. -/
def neg (a : Value) : Value :=
  if a.kind = .float32 then ofFloat32 (-a.float32)
  else if a.kind = .float64 then ofFloat64 (-a.float64)
  else extendOrTruncate a.kind (-a.bits)

/-- The operators `+`, `-` and `*`, which differ only in the host operation. -/
def arith (f32 : Float32 → Float32 → Float32) (f64 : Float → Float → Float)
    (u64 : BitVec 64 → BitVec 64 → BitVec 64) (a b : Value) : Value :=
  if a.kind ≠ b.kind then invalid
  else if a.kind = .float32 then ofFloat32 (f32 a.float32 b.float32)
  else if a.kind = .float64 then ofFloat64 (f64 a.float64 b.float64)
  else extendOrTruncate a.kind (u64 a.bits b.bits)

def add (a b : Value) : Value := arith (· + ·) (· + ·) (· + ·) a b
def sub (a b : Value) : Value := arith (· - ·) (· - ·) (· - ·) a b
def mul (a b : Value) : Value := arith (· * ·) (· * ·) (· * ·) a b

/-- The host's `int64_t` division has a result: no zero divisor and no overflow. -/
def intDivDefined (a b : BitVec 64) : Bool :=
  b != 0 && !(a == BitVec.intMin 64 && b == -1)

/-- `operator/`. -/
def quo (a b : Value) : Option Value :=
  if a.kind ≠ b.kind then some invalid
  else if a.kind = .float32 then some (ofFloat32 (a.float32 / b.float32))
  else if a.kind = .float64 then some (ofFloat64 (a.float64 / b.float64))
  else if a.kind.group = .gInt then
    if intDivDefined a.bits b.bits then
      some (extendOrTruncate a.kind (BitVec.ofInt 64 (a.bits.toInt.tdiv b.bits.toInt)))
    else none
  else if b.bits = 0 then none
  else some (extendOrTruncate a.kind (a.bits / b.bits))

/-- `operator%`. -/
def rem (a b : Value) : Option Value :=
  if a.kind ≠ b.kind ∨ a.kind = .float32 ∨ a.kind = .float64 then some invalid
  else if a.kind.group = .gInt then
    if intDivDefined a.bits b.bits then
      some (extendOrTruncate a.kind (BitVec.ofInt 64 (a.bits.toInt.tmod b.bits.toInt)))
    else none
  else if b.bits = 0 then none
  else some (extendOrTruncate a.kind (a.bits % b.bits))

/-- The operators `&`, `|` and `^`, which differ only in the host operation. -/
def bitwise (u64 : BitVec 64 → BitVec 64 → BitVec 64) (a b : Value) : Value :=
  if a.kind ≠ b.kind ∨ a.kind = .float32 ∨ a.kind = .float64 then invalid
  else ⟨u64 a.bits b.bits, a.kind⟩

def and (a b : Value) : Value := bitwise (· &&& ·) a b
def or (a b : Value) : Value := bitwise (· ||| ·) a b
def xor (a b : Value) : Value := bitwise (· ^^^ ·) a b

/-- `operator<<`. -/
def shl (a b : Value) : Option Value :=
  if a.kind ≠ b.kind ∨ a.kind = .float32 ∨ a.kind = .float64 then some invalid
  else if 64 ≤ b.bits.toNat then none
  else some (extendOrTruncate a.kind (a.bits <<< b.bits.toNat))

/-- `operator>>`. A negative count of a signed kind is at least 64 as a pattern. -/
def shr (a b : Value) : Option Value :=
  if a.kind ≠ b.kind ∨ a.kind = .float32 ∨ a.kind = .float64 then some invalid
  else if 64 ≤ b.bits.toNat then none
  else if a.kind.group = .gInt then
    some (extendOrTruncate a.kind (a.bits.sshiftRight b.bits.toNat))
  else some (extendOrTruncate a.kind (a.bits >>> b.bits.toNat))

/-- The relational operators: `Value{}` for different kinds, else the host's comparison. -/
def relation (f32 : Float32 → Float32 → Bool) (f64 : Float → Float → Bool)
    (i64 u64 : BitVec 64 → BitVec 64 → Bool) (a b : Value) : Value :=
  if a.kind ≠ b.kind then invalid
  else if a.kind = .float32 then ofBool (f32 a.float32 b.float32)
  else if a.kind = .float64 then ofBool (f64 a.float64 b.float64)
  else if a.kind.group = .gInt then ofBool (i64 a.bits b.bits)
  else ofBool (u64 a.bits b.bits)

/-- `operator==`. -/
def eq (a b : Value) : Value := relation (· == ·) (· == ·) (· == ·) (· == ·) a b
/-- `operator!=`. -/
def ne (a b : Value) : Value := relation (· != ·) (· != ·) (· != ·) (· != ·) a b
/-- `operator<`. -/
def lt (a b : Value) : Value :=
  relation (fun x y => decide (x < y)) (fun x y => decide (x < y)) BitVec.slt BitVec.ult a b
/-- `operator<=`. -/
def le (a b : Value) : Value :=
  relation (fun x y => decide (x ≤ y)) (fun x y => decide (x ≤ y)) BitVec.sle BitVec.ule a b
/-- `operator>`. -/
def gt (a b : Value) : Value := b.lt a
/-- `operator>=`. -/
def ge (a b : Value) : Value := b.le a

/-- `operator bool`: the value differs from zero. -/
def toBool (v : Value) : Bool := (v.ne (zero v.kind)).boolean

/-- `operator!`. -/
def isZero (v : Value) : Value := v.eq (zero v.kind)

/-- `and_`. -/
def logicalAnd (a b : Value) : Value :=
  if a.kind = .bool ∧ b.kind = .bool then ofBool (a.boolean && b.boolean) else invalid

/-- `or_`. -/
def logicalOr (a b : Value) : Value :=
  if a.kind = .bool ∧ b.kind = .bool then ofBool (a.boolean || b.boolean) else invalid

end Value

end OneJit
