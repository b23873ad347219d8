import OneJit.X64.Inst

/-!
# Memory operands of x64

A memory operand is a node whose children are a label, an offset, a base, an index and the factor of
the index; the accessors deduce from its children which of them are there.
-/

namespace OneJit.X64

/-- `class Scale`. -/
inductive Scale
  | scale0 | scale1 | scale2 | scale4 | scale8
  deriving DecidableEq, Repr

namespace Scale

/-- `Scale(uint8_t)`. -/
def ofVal (val : BitVec 8) : Scale :=
  if val = 0 then scale0
  else if val = 1 then scale1
  else if val = 2 then scale2
  else if val = 4 then scale4
  else if val = 8 then scale8
  else scale0

/-- `Scale::val`. -/
def val : Scale → Nat
  | scale0 => 0 | scale1 => 1 | scale2 => 2 | scale4 => 4 | scale8 => 8

/-- `Scale::bits`. -/
def bits : Scale → Nat
  | scale0 => 0 | scale1 => 0 | scale2 => 1 | scale4 => 2 | scale8 => 3

/-- `Scale::operator bool`. -/
def isValid (s : Scale) : Bool := s != scale0

end Scale

/-- `class Label`: its index and its address. -/
structure Label where
  index : BitVec 16
  address : BitVec 64
  deriving DecidableEq, Repr

/-- `is<Var>().local()`. -/
def regOf : Expr → Reg
  | .var kind id => ⟨kind, id⟩
  | _ => .absent

/-- `is<Const>().val()`, as its bits. -/
def bitsOf : Expr → BitVec 64
  | .const v _ => v.bits
  | _ => 0

/-- `is<Label>()`. -/
def labelOf : Expr → Option Label
  | .label index address => some ⟨index, address⟩
  | _ => none

/-- `class x64::Mem`: a node with the operator `X86_MEM`. -/
structure Mem where
  kind : Kind
  children : List Expr

namespace Mem

/-- `child(i)`. -/
def child (m : Mem) (i : Nat) : Expr := m.children.getD i .none

/-- `Mem::label`. -/
def label (m : Mem) : Option Label := labelOf (m.child 0)

/-- `Mem::offset`. -/
def offset (m : Mem) : BitVec 32 := (bitsOf (m.child 1)).setWidth 32

/-- `Mem::base`. -/
def base (m : Mem) : Reg := regOf (m.child 2)

/-- `Mem::index`. -/
def index (m : Mem) : Reg := regOf (m.child 3)

/-- `Mem::scale`. -/
def scale (m : Mem) : Scale := .ofVal ((bitsOf (m.child 4)).setWidth 8)

end Mem

/-- The operand of an x64 statement: a generic expression, or a memory operand of x64. -/
inductive Operand
  | expr (e : Expr)
  | mem (m : Mem)

end OneJit.X64
