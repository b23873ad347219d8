import OneJit.Go.Types
import Mathlib.Algebra.Group.Int.Defs
import Mathlib.Algebra.Group.Nat.Defs

/-!
# Constants

`constant.Value`, which pairs a constant of `go/constant` with a type, and its functions `Make`,
`To` and `validate`. The numbers of `go/constant` are exact; what it does with numbers that are not
integers is a parameter. `none` is a panic.
-/

namespace OneJit.Go.Constant

open Types (Arch)

/-! ## Kinds -/

/-- `token.Kind`. -/
inductive Kind
  | invalid
  | bool | int | int8 | int16 | int32 | int64 | uint | uint8 | uint16 | uint32 | uint64 | uintptr
  | float32 | float64 | complex64 | complex128
  | array | chan | func | interface | map | ptr | slice | string | struct | unsafePointer
  | untypedBool | untypedInt | untypedRune | untypedFloat | untypedComplex | untypedString
  | untypedNil
  deriving DecidableEq, Repr

namespace Kind

/-- The number of a kind. -/
def code (k : Kind) : Nat := k.ctorIdx

/-- `ksize`: the number of bytes, or of words where it is negative. -/
def ksize : Kind → Int
  | bool | int8 | uint8 => 1
  | int16 | uint16 => 2
  | int32 | uint32 | float32 => 4
  | int64 | uint64 | float64 | complex64 => 8
  | complex128 => 16
  | int | uint | uintptr | chan | func | map | ptr | unsafePointer => -1
  | interface | string => -2
  | slice => -3
  | _ => 0

/-- `Size`. -/
def size (arch : Arch) (k : Kind) : Nat :=
  if k.ksize < 0 then (-k.ksize).toNat * (arch.bits / 8) else k.ksize.toNat

/-- `IsInteger`. -/
def isInteger (k : Kind) : Bool :=
  int.code ≤ k.code && k.code ≤ uintptr.code || k = untypedInt || k = untypedRune

/-- `IsUntyped`. -/
def isUntyped (k : Kind) : Bool := untypedBool.code ≤ k.code

/-- `Category`. -/
def category : Kind → Kind
  | bool | untypedBool => bool
  | int | int8 | int16 | int32 | int64 | uint | uint8 | uint16 | uint32 | uint64 | uintptr
  | untypedInt | untypedRune => int
  | float32 | float64 | untypedFloat => float64
  | complex64 | complex128 | untypedComplex => complex128
  | string | untypedString => string
  | k => k

end Kind

/-! ## Constants of `go/constant` -/

/-- `go/constant.Value`. -/
inductive CValue
  | unknown
  | bool (b : Bool)
  | string (s : Bytes)
  | int (n : Int)
  | float (q : Rat)
  | complex (re im : Rat)
  deriving DecidableEq

/-- `go/constant.Kind`. -/
inductive CKind
  | unknown | bool | string | int | float | complex
  deriving DecidableEq, Repr

/-- What `go/constant` does with floating-point and complex numbers. -/
structure Inexact where
  toFloat : CValue → CValue
  toComplex : CValue → CValue
  /-- Whether a number is a number of a floating-point or complex kind. -/
  exact : Kind → CValue → Bool
  unaryOp : Token → CValue → Option CValue
  binaryOp : CValue → Token → CValue → Option CValue
  compare : CValue → Token → CValue → Option Bool

namespace CValue

/-- `Kind`. -/
def kind : CValue → CKind
  | unknown => .unknown
  | bool _ => .bool
  | string _ => .string
  | int _ => .int
  | float _ => .float
  | complex _ _ => .complex

/-- `ToInt`: the number as an integer, if it is one. -/
def toInt : CValue → CValue
  | int n => int n
  | float q => if q.den = 1 then int q.num else unknown
  | complex re im => if im = 0 ∧ re.den = 1 then int re.num else unknown
  | _ => unknown

/-- `Int64Val`, for integers: the number and whether an `int64` holds it. The number is undefined
where none does. -/
def int64Val : CValue → Int × Bool
  | int n => (n, -2 ^ 63 ≤ n ∧ n < 2 ^ 63)
  | _ => (0, false)

/-- `Uint64Val`, for integers. -/
def uint64Val : CValue → Int × Bool
  | int n => (n, 0 ≤ n ∧ n < 2 ^ 64)
  | _ => (0, false)

end CValue

/-! ## Types and values -/

/-- A pointer to a complete type: a basic type, or a type that has another address. -/
structure CType where
  kind : Kind
  address : Option Nat
  deriving DecidableEq

/-- `BasicType`. -/
def basicType (kind : Kind) : CType := ⟨kind, none⟩

/-- The Go value that `Make` is called with. A `*big.Int` may be nil. -/
inductive GoValue
  | bool (b : Bool)
  | string (s : Bytes)
  | int (n : Int)
  | uint (n : Nat)
  | bigInt (n : Option Int)
  | float (c : CValue)
  | complex (c : CValue)
  | nil
  | other
  deriving DecidableEq

/-- What the text of an error is about. -/
inductive ErrText
  | goValue (x : GoValue)
  | cval (c : CValue)
  | mismatched (x : Option CValue) (op : Token) (y : Option CValue) (xt yt : Option CType)
  | shift (x : Option CValue) (op : Token) (y : Int)
  deriving DecidableEq

/-- The errors of values. -/
inductive Err
  | invalid
  | overflow (cval : CValue) (kind : Kind)
  | type (str : ErrText) (typ : Option CType)
  deriving DecidableEq

/-- `value`. -/
structure Data where
  cval : Option CValue
  typ : Option CType
  err : Option Err
  deriving DecidableEq

/-- `Value`, which is nil in `Value{}`. -/
abbrev Value := Option Data

/-- `invalid`. -/
def invalid : Value := some ⟨some .unknown, none, some .invalid⟩

/-- `untypedNil`, whose type is that of the untyped booleans. -/
def untypedNil : Value := some ⟨some .unknown, some (basicType .untypedBool), none⟩

namespace Value

/-- `IsValid`. -/
def isValid (v : Value) : Bool := (v.bind Data.typ).isSome

/-- `Type`. -/
def type (v : Value) : Option CType := v.bind Data.typ

/-- `Kind`. -/
def kind (v : Value) : Kind := (v.type.map CType.kind).getD .invalid

end Value

/-! ## Validation -/

/-- `int64fits`. -/
def int64fits (arch : Arch) (i : Int) (kind : Kind) : Bool :=
  let bits := kind.size arch * 8
  let mask : Nat := (2 ^ 64 - 1) >>> (65 - bits)
  let i := if i < 0 then -i - 1 else i
  i ≤ mask

/-- `uint64fits`. -/
def uint64fits (arch : Arch) (n : Int) (kind : Kind) : Bool :=
  let bits := kind.size arch * 8
  let mask : Nat := (2 ^ 64 - 1) >>> (64 - bits)
  n ≤ mask

/-- The switch of `validate`: the constant, `badkind` and `exact`. -/
def check (lib : Inexact) (arch : Arch) (c : CValue) (kind : Kind) :
    Option CValue × Bool × Bool :=
  let ckind := c.kind
  match kind with
  | .invalid => (some c, true, false)
  | .bool | .untypedBool => (some c, ckind ≠ .bool, true)
  | .int | .int8 | .int16 | .int32 | .int64 =>
    if ckind = .int then
      let (i, iexact) := c.int64Val
      (some c, false, iexact && int64fits arch i kind)
    else (some c, true, false)
  | .uint | .uint8 | .uint16 | .uint32 | .uint64 | .uintptr =>
    if ckind = .int then
      let (n, nexact) := c.uint64Val
      (some c, false, nexact && uint64fits arch n kind)
    else (some c, true, false)
  | .float32 | .float64 =>
    if ckind = .int ∨ ckind = .float then (some c, false, lib.exact kind c) else (some c, true, false)
  | .complex64 | .complex128 =>
    if ckind = .int ∨ ckind = .float ∨ ckind = .complex then (some c, false, lib.exact kind c)
    else (some c, true, false)
  | .string | .untypedString => (some c, ckind ≠ .string, true)
  | .untypedInt | .untypedRune => (some c.toInt, false, true)
  | .untypedFloat => (some (lib.toFloat c), false, true)
  | .untypedComplex => (some (lib.toComplex c), false, true)
  | .untypedNil => (none, false, true)
  | _ => (some c, false, false)

/-- `validate`. -/
def validate (lib : Inexact) (arch : Arch) (c : Option CValue) (t : Option CType) :
    Option Value :=
  match c, t with
  | some c, some t =>
    if c.kind = .unknown then some invalid
    else
      let (c, badkind, exact) := check lib arch c t.kind
      match c with
      | none => none
      | some c =>
        if badkind || c.kind = .unknown then
          some (some ⟨some .unknown, none, some (.type (.cval c) (some t))⟩)
        else if !exact then some (some ⟨some .unknown, none, some (.overflow c t.kind)⟩)
        else some (some ⟨some c, some t, none⟩)
  | _, _ => some invalid

/-! ## Conversion and creation -/

/-- `To`. A value of the kind of `t` keeps its own type. -/
def toType (lib : Inexact) (arch : Arch) (v : Value) (t : Option CType) : Option Value :=
  match v, t with
  | some ⟨cval, some typ, err⟩, some t =>
    if typ = t then some v
    else if typ.kind = t.kind then some (some ⟨cval, some typ, err⟩)
    else
      let c := match t.kind.category with
        | .int => some (cval.elim .unknown CValue.toInt)
        | .float64 => some (cval.elim .unknown lib.toFloat)
        | .complex64 | .complex128 | .untypedComplex => some (cval.elim .unknown lib.toComplex)
        | _ => none
      validate lib arch c (some t)
  | _, _ => some invalid

/-- `makeInt`. Its result `badkind` is always false. -/
def makeInt : GoValue → Option CValue
  | .int n => some (.int n)
  | .uint n => some (.int n)
  | _ => none

/-- The switch of `Make`: the constant, `badkind`, and whether to validate it. The outer `none` is a
panic, on a nil `*big.Int`. -/
def convert (kind : Kind) (x : GoValue) : Option (Option CValue × Bool × Bool) :=
  let needvalidate := !kind.isUntyped
  match kind.category with
  | .bool => match x with
    | .bool b => some (some (.bool b), false, false)
    | _ => some (none, true, needvalidate)
  | .int => match x with
    | .bigInt none => none
    | .bigInt (some n) => some (some (.int n), false, needvalidate)
    | x => some (makeInt x, false, needvalidate)
  | .float64 => match x with
    | .float c => some (some c, false, needvalidate)
    | _ => some (none, true, needvalidate)
  | .complex128 => match x with
    | .complex c => some (some c, false, needvalidate)
    | _ => some (none, true, needvalidate)
  | .string => match x with
    | .string s => some (some (.string s), false, false)
    | _ => some (none, true, needvalidate)
  | _ => some (none, true, needvalidate)

/-- `Make`. -/
def make (lib : Inexact) (arch : Arch) (t : Option CType) (x : GoValue) : Option Value :=
  match t with
  | none => some invalid
  | some t =>
    if t.kind = .untypedNil ∧ x = .nil then some untypedNil
    else
      match convert t.kind x with
      | none => none
      | some (c, badkind, needvalidate) =>
        if badkind then some (some ⟨some .unknown, none, some (.type (.goValue x) (some t))⟩)
        else if needvalidate then validate lib arch c (some t)
        else some (some ⟨c, some t, none⟩)

end OneJit.Go.Constant
