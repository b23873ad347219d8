import OneJit.Go.Conversion
import Mathlib.Data.Int.Bitwise

/-!
# Operators on constants

`UnaryOp` and `BinaryOp`, which forward the operator to `go/constant`. `none` is a panic.
-/

namespace OneJit.Go.Constant

open Types (Arch)

/-! ## The operators of `go/constant` -/

namespace CValue

/-- `go/constant.UnaryOp`. On a bound of `prec` bits the complement keeps the low bits only. -/
def unaryOp (lib : Inexact) (op : Token) (y : CValue) (prec : Nat) : Option CValue :=
  match y with
  | unknown => some unknown
  | int n =>
    match op with
    | .add => some (int n)
    | .sub => some (int (-n))
    | .xor => some (int (if 0 < prec then (-n - 1) % 2 ^ prec else -n - 1))
    | _ => none
  | bool b => if op = .not then some (bool !b) else none
  | string _ => none
  | y => lib.unaryOp op y

/-- `go/constant.BinaryOp`. The quotient of integers is a rational number, and `QUO_ASSIGN` is the
integer division. -/
def binaryOp (lib : Inexact) (x : CValue) (op : Token) (y : CValue) : Option CValue :=
  match x, y with
  | unknown, _ | _, unknown => some unknown
  | int a, int b =>
    match op with
    | .add => some (int (a + b))
    | .sub => some (int (a - b))
    | .mul => some (int (a * b))
    | .quo => if b = 0 then none else some (float ((a : Rat) / b))
    | .quoAssign => if b = 0 then none else some (int (a.tdiv b))
    | .rem => if b = 0 then none else some (int (a.tmod b))
    | .and => some (int (a.land b))
    | .or => some (int (a.lor b))
    | .xor => some (int (a.xor b))
    | .andNot => some (int (a.ldiff b))
    | _ => none
  | bool a, bool b =>
    match op with
    | .land => some (bool (a && b))
    | .lor => some (bool (a || b))
    | _ => none
  | string a, string b => if op = .add then some (string (a ++ b)) else none
  | float _, _ | complex _ _, _ | _, float _ | _, complex _ _ => lib.binaryOp x op y
  | _, _ => none

/-- A comparison of `go/constant.Compare` in an order. -/
def compareOrd (o : Ordering) : Token → Option Bool
  | .eql => some (o == .eq)
  | .neq => some (o != .eq)
  | .lss => some (o == .lt)
  | .leq => some (o != .gt)
  | .gtr => some (o == .gt)
  | .geq => some (o != .lt)
  | _ => none

/-- `go/constant.Compare`. -/
def compare (lib : Inexact) (x : CValue) (op : Token) (y : CValue) : Option Bool :=
  match x, y with
  | unknown, _ | _, unknown => some false
  | int a, int b => compareOrd (Ord.compare a b) op
  | bool a, bool b =>
    match op with
    | .eql => some (a == b)
    | .neq => some (a != b)
    | _ => none
  | string a, string b => compareOrd (Ord.compare (a.map UInt8.toNat) (b.map UInt8.toNat)) op
  | float _, _ | complex _ _, _ | _, float _ | _, complex _ _ => lib.compare x op y
  | _, _ => none

/-- `go/constant.Shift`. -/
def shift (x : CValue) (op : Token) (s : Nat) : Option CValue :=
  match x with
  | unknown => some unknown
  | int n =>
    match op with
    | .shl => some (int (n * 2 ^ s))
    | .shr => some (int (n / 2 ^ s))
    | _ => none
  | _ => none

end CValue

/-! ## The operators of values -/

def isTyped (k : Kind) : Bool := !k.isUntyped

def isUntypedNumeric (k : Kind) : Bool :=
  Kind.untypedInt.code ≤ k.code && k.code ≤ Kind.untypedComplex.code

/-- `combine`. -/
def combine (xt yt : Option CType) : Option CType :=
  match xt, yt with
  | some xt, some yt =>
    if xt = yt then some xt
    else
      let (xt, yt) := if xt.kind.code < yt.kind.code then (yt, xt) else (xt, yt)
      let x := xt.kind
      let y := yt.kind
      if isTyped x && isTyped y then none
      else if isTyped x then some xt
      else if isTyped y then some yt
      else if isUntypedNumeric x && isUntypedNumeric y then some xt
      else none
  | _, _ => none

/-- The field `cval`. -/
def Value.cval (v : Value) : Option CValue := v.bind Data.cval

/-- `UnaryOp`. -/
def unaryOp (lib : Inexact) (arch : Arch) (op : Token) (v : Value) : Option Value :=
  if !v.isValid then some v
  else do
    let c ← v.cval
    let c ← c.unaryOp lib op (v.kind.size arch * 8)
    validate lib arch (some c) v.type

/-- The left operand of a shift: an untyped number becomes an untyped integer, and what is no
integer is refused. -/
def shiftOperand (lib : Inexact) (arch : Arch) (xv : Value) (op : Token) (y : Int) :
    Option Value :=
  let xkind := xv.kind
  if xkind.isUntyped then
    if xkind ≠ .untypedInt ∧ xkind ≠ .untypedRune then
      toType lib arch xv (some (basicType .untypedInt))
    else some xv
  else if !xkind.isInteger then
    some (failed (.type (.shift xv.cval op y) (some (basicType .int))))
  else some xv

/-- `shift`. -/
def shift (lib : Inexact) (arch : Arch) (xv : Value) (op : Token) (yv : Value) : Option Value := do
  let yv ← toType lib arch yv (some (basicType .uint))
  if !yv.isValid then some yv
  else
    let y := (← yv.cval).uint64Val.1
    let xv ← shiftOperand lib arch xv op y
    if !xv.isValid then some xv
    else
      let c ← (← xv.cval).shift op y.toNat
      validate lib arch (some c) xv.type

/-- The comparison operators. -/
def isComparison (op : Token) : Bool := op ∈ [Token.eql, .lss, .gtr, .neq, .leq, .geq]

/-- `BinaryOp`. -/
def binaryOp (lib : Inexact) (arch : Arch) (xv : Value) (op : Token) (yv : Value) :
    Option Value :=
  if !xv.isValid || !yv.isValid then some invalid
  else if op = .shl ∨ op = .shr then shift lib arch xv op yv
  else
    match combine xv.type yv.type with
    | none => some (failed (.type (.mismatched xv.cval op yv.cval xv.type yv.type) none))
    | some t =>
      if isComparison op then do
        let flag ← (← xv.cval).compare lib op (← yv.cval)
        validate lib arch (some (.bool flag)) (some (basicType .untypedBool))
      else do
        let c ← (← xv.cval).binaryOp lib op (← yv.cval)
        validate lib arch (some c) (some t)

end OneJit.Go.Constant
