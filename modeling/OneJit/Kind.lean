import Mathlib.Data.BitVec
import Mathlib.Data.Fintype.Basic

/-!
# Kinds, groups and node types

A `Kind` is one byte: the low nibble selects one of sixteen element kinds and the high
nibble is the logarithm of the number of SIMD repetitions. Both nibbles are exhausted by
the two fields below, so the model and the byte are in bijection.
-/

namespace OneJit

/-- `enum eKind`. -/
inductive EKind
  | bad | void | bool
  | int8 | int16 | int32 | int64
  | uint8 | uint16 | uint32 | uint64
  | float16 | float32 | float64 | float128
  | ptr
  deriving DecidableEq, Repr

/-- `enum Group`. -/
inductive Group
  | gVoid | gBool | gInt | gUint | gFloat | gPtr
  deriving DecidableEq, Repr

namespace EKind

/-- The numeric value of the enumerator. -/
def toNat : EKind → Nat
  | bad => 0 | void => 1 | bool => 2
  | int8 => 3 | int16 => 4 | int32 => 5 | int64 => 6
  | uint8 => 7 | uint16 => 8 | uint32 => 9 | uint64 => 10
  | float16 => 11 | float32 => 12 | float64 => 13 | float128 => 14
  | ptr => 15

/-- The enumerator of a nibble; larger numbers are not nibbles. -/
def ofVal : Nat → EKind
  | 0 => bad | 1 => void | 2 => bool
  | 3 => int8 | 4 => int16 | 5 => int32 | 6 => int64
  | 7 => uint8 | 8 => uint16 | 9 => uint32 | 10 => uint64
  | 11 => float16 | 12 => float32 | 13 => float64 | 14 => float128
  | 15 => ptr
  | _ => bad

@[simp] theorem ofVal_toNat (e : EKind) : ofVal e.toNat = e := by
  cases e <;> rfl

theorem toNat_lt (e : EKind) : e.toNat < 16 := by
  cases e <;> decide

/-- The table `kbits[]`: size in bits of one element. -/
def kbits : EKind → Nat
  | bad | void => 0
  | bool => 1
  | int8 | uint8 => 8
  | int16 | uint16 | float16 => 16
  | int32 | uint32 | float32 => 32
  | int64 | uint64 | float64 | ptr => 64
  | float128 => 128

/-- The table `kgroup[]`. -/
def kgroup : EKind → Group
  | bad | void => .gVoid
  | bool => .gBool
  | int8 | int16 | int32 | int64 => .gInt
  | uint8 | uint16 | uint32 | uint64 => .gUint
  | float16 | float32 | float64 | float128 => .gFloat
  | ptr => .gPtr

end EKind

instance simd_neZero : NeZero 16 := ⟨by decide⟩

/-- `class Kind`: an element kind and the logarithm of its SIMD repetitions. -/
structure Kind where
  ekind : EKind
  simd : Fin 16 := 0
  deriving DecidableEq, Repr

namespace Kind

abbrev bad : Kind := ⟨.bad, 0⟩
abbrev void : Kind := ⟨.void, 0⟩
abbrev bool : Kind := ⟨.bool, 0⟩
abbrev int8 : Kind := ⟨.int8, 0⟩
abbrev int16 : Kind := ⟨.int16, 0⟩
abbrev int32 : Kind := ⟨.int32, 0⟩
abbrev int64 : Kind := ⟨.int64, 0⟩
abbrev uint8 : Kind := ⟨.uint8, 0⟩
abbrev uint16 : Kind := ⟨.uint16, 0⟩
abbrev uint32 : Kind := ⟨.uint32, 0⟩
abbrev uint64 : Kind := ⟨.uint64, 0⟩
abbrev float32 : Kind := ⟨.float32, 0⟩
abbrev float64 : Kind := ⟨.float64, 0⟩
abbrev float128 : Kind := ⟨.float128, 0⟩
abbrev ptr : Kind := ⟨.ptr, 0⟩

/-- The byte `val_`. -/
def val (k : Kind) : BitVec 8 :=
  BitVec.ofNat 8 (k.simd.val * 16 + k.ekind.toNat)

/-- `Kind(uint8_t val)`. -/
def ofVal (b : BitVec 8) : Kind :=
  ⟨EKind.ofVal (b.toNat % 16), Fin.ofNat 16 (b.toNat / 16)⟩

@[simp] theorem ofVal_val (k : Kind) : ofVal k.val = k := by
  have he := k.ekind.toNat_lt
  have hs := k.simd.isLt
  have hb : k.val.toNat = k.simd.val * 16 + k.ekind.toNat := by
    simp only [val, BitVec.toNat_ofNat]
    omega
  have hlo : k.val.toNat % 16 = k.ekind.toNat := by omega
  have hhi : k.val.toNat / 16 = k.simd.val := by omega
  simp [ofVal, hlo, hhi]

/-- Number of SIMD repetitions. -/
def simdn (k : Kind) : Nat := 2 ^ k.simd.val

/-- `Kind::nosimd`. -/
def nosimd (k : Kind) : Kind := ⟨k.ekind, 0⟩

/-- `Kind::bitsize`. -/
def bitsize (k : Kind) : Nat := k.ekind.kbits * k.simdn

def group (k : Kind) : Group := k.ekind.kgroup

/-- `Kind::is_float`. -/
def isFloat (k : Kind) : Bool := k.ekind == .float32 || k.ekind == .float64

/-- `Kind::is_signed`. -/
def isSigned (k : Kind) : Bool := k.group == .gInt || k.group == .gFloat

/-- `Kind::is_unsigned`: everything that is not signed, `Bool` and `Ptr` included. -/
def isUnsigned (k : Kind) : Bool := !k.isSigned

/-- `Kind::operator bool`. -/
def isValid (k : Kind) : Bool := k != bad

end Kind

/-- `enum Type`. Only four bits of it are stored, so the value without an enumerator
that four bits can hold is listed too. -/
inductive NodeType
  | stmt0 | stmt1 | stmt2 | stmt3 | stmt4 | stmtN
  | var | mem | unary | binary | tuple | label | const
  | ftype | name
  | type15
  deriving DecidableEq, Repr

namespace NodeType

/-- The numeric value of the enumerator. -/
def toNat : NodeType → Nat
  | stmt0 => 0 | stmt1 => 1 | stmt2 => 2 | stmt3 => 3 | stmt4 => 4 | stmtN => 5
  | var => 6 | mem => 7 | unary => 8 | binary => 9 | tuple => 10 | label => 11 | const => 12
  | ftype => 13 | name => 14 | type15 => 15

/-- The enumerator of a nibble; larger numbers are not nibbles. -/
def ofVal : Nat → NodeType
  | 0 => stmt0 | 1 => stmt1 | 2 => stmt2 | 3 => stmt3 | 4 => stmt4 | 5 => stmtN
  | 6 => var | 7 => mem | 8 => unary | 9 => binary | 10 => tuple | 11 => label | 12 => const
  | 13 => ftype | 14 => name
  | _ => type15

@[simp] theorem ofVal_toNat (t : NodeType) : ofVal t.toNat = t := by
  cases t <;> rfl

theorem toNat_lt (t : NodeType) : t.toNat < 16 := by
  cases t <;> decide

/-- `is_list`: the node stores its number of children. -/
def isList : NodeType → Bool
  | stmtN | mem | tuple | ftype => true
  | _ => false

/-- The table `tchildren[]` read by `to_children`. The list types and the value without an
enumerator hold `-1`, which is `2^32 - 1` as `uint32_t`. -/
def toChildren : NodeType → Nat
  | stmt0 | var | label | const | ftype | name => 0
  | stmt1 | mem | unary => 1
  | stmt2 | binary => 2
  | stmt3 => 3
  | stmt4 => 4
  | stmtN | tuple | type15 => 2 ^ 32 - 1

/-- `Expr::is_allowed_type`. -/
def isExpr (t : NodeType) : Bool := 6 ≤ t.toNat && t.toNat ≤ 12

end NodeType

end OneJit
