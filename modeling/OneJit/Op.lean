import OneJit.Kind

/-!
# Operators

The operator enumerations of expressions and statements, with the tables of `op.cpp` and
`opstmt.cpp`. Statement operators that no modelled function singles out are collected in one
constructor that keeps their number.
-/

namespace OneJit

/-- `enum Op1`. -/
inductive Op1
  | bad1 | xor1 | not1 | neg1 | cast | bitcopy
  deriving DecidableEq, Repr

/-- `enum Op2`. -/
inductive Op2
  | bad2
  | sub | quo | rem | shl | shr
  | land | lor
  | lss | leq | neq | eql | gtr | geq
  deriving DecidableEq, Repr

/-- `enum OpN`. -/
inductive OpN
  | badN
  | add | mul | and | or | xor | max | min | comma | call | memOp
  | mirMem | x86Mem | arm64Mem | mirRets
  deriving DecidableEq, Repr

namespace Op1

/-- The numeric value of the enumerator. -/
def val : Op1 → Nat
  | bad1 => 0 | xor1 => 1 | not1 => 2 | neg1 => 3 | cast => 4 | bitcopy => 5

end Op1

namespace Op2

/-- The numeric value of the enumerator. -/
def val : Op2 → Nat
  | bad2 => 0 | sub => 1 | quo => 2 | rem => 3 | shl => 4 | shr => 5
  | land => 6 | lor => 7
  | lss => 8 | leq => 9 | neq => 10 | eql => 11 | gtr => 12 | geq => 13

/-- `is_comparison`. -/
def isComparison : Op2 → Bool
  | lss | leq | neq | eql | gtr | geq => true
  | _ => false

/-- `swap_comparison`: the comparison of the exchanged operands. -/
def swapComparison : Op2 → Op2
  | lss => gtr
  | leq => geq
  | gtr => lss
  | geq => leq
  | op => op

/-- `not_comparison`: the comparison that holds when this one does not. -/
def notComparison : Op2 → Op2
  | lss => geq
  | leq => gtr
  | neq => eql
  | eql => neq
  | gtr => leq
  | geq => lss
  | op => op

end Op2

namespace OpN

/-- The numeric value of the enumerator. -/
def val : OpN → Nat
  | badN => 0
  | add => 1 | mul => 2 | and => 3 | or => 4 | xor => 5 | max => 6 | min => 7
  | comma => 8 | call => 9 | memOp => 10
  | mirMem => 11 | x86Mem => 12 | arm64Mem => 13 | mirRets => 14

/-- `is_arithmetic`. -/
def isArithmetic : OpN → Bool
  | add | mul | and | or | xor | max | min | comma => true
  | _ => false

/-- `is_associative`. -/
def isAssociative : OpN → Bool
  | add | mul | and | or | xor | max | min | comma => true
  | _ => false

/-- `is_commutative`. -/
def isCommutative : OpN → Bool
  | add | mul | and | or | xor | max | min => true
  | _ => false

/-- `is_bitwise`. -/
def isBitwise : OpN → Bool
  | and | or | xor => true
  | _ => false

end OpN

/-- `enum OpStmt0`. -/
inductive OpStmt0
  | bad | brk | cont | fallthrough
  | other (code : Nat)
  deriving DecidableEq, Repr

/-- `enum OpStmt1`: the generic operators, the jumps of the MIR and x86 families, and the rest. -/
inductive OpStmt1
  | badSt1 | goto | inc | dec
  | mirJmp
  | x86Ja | x86Jae | x86Jb | x86Jbe | x86Je | x86Jg | x86Jge | x86Jl | x86Jle | x86Jne
  | x86Jno | x86Jnp | x86Jns | x86Jo | x86Jp | x86Js | x86Jmp
  | other (code : Nat)
  deriving DecidableEq, Repr

/-- `enum OpStmt2`. -/
inductive OpStmt2
  | badSt2
  | addAssign | subAssign | mulAssign | quoAssign | remAssign
  | andAssign | orAssign | xorAssign | shlAssign | shrAssign
  | assign
  | case | default | jumpIf
  | x86Xbegin
  | other (code : Nat)
  deriving DecidableEq, Repr

/-- `enum OpStmt3`. The comparing branches of the MIR family, `MIR_BEQ` to `MIR_LDBGE`, are one
constructor with a number. -/
inductive OpStmt3
  | badSt3 | if_
  | asmJa | asmJae | asmJb | asmJbe | asmJe | asmJg | asmJge | asmJl | asmJle | asmJne
  | mirBranch (code : Nat)
  | other (code : Nat)
  deriving DecidableEq, Repr

/-- `enum OpStmt4`. -/
inductive OpStmt4
  | badSt4 | for_
  | other (code : Nat)
  deriving DecidableEq, Repr

/-- `enum OpStmtN`. -/
inductive OpStmtN
  | badStN | assignCall | block | cond | return | switch | set
  | mirSwitch | mirCall | mirRet | x86Call | x86Ret
  deriving DecidableEq, Repr

namespace OpStmt2

/-- `is_assign`. -/
def isAssign : OpStmt2 → Bool
  | addAssign | subAssign | mulAssign | quoAssign | remAssign
  | andAssign | orAssign | xorAssign | shlAssign | shrAssign | assign => true
  | _ => false

/-- `to_op2`: the binary operator of a compound assignment, `BAD2` when it has none. -/
def toOp2 : OpStmt2 → Op2
  | subAssign => .sub
  | quoAssign => .quo
  | remAssign => .rem
  | shlAssign => .shl
  | shrAssign => .shr
  | _ => .bad2

/-- `to_opn`: the n-ary operator of a compound assignment, `BADN` when it has none. -/
def toOpN : OpStmt2 → OpN
  | addAssign => .add
  | mulAssign => .mul
  | andAssign => .and
  | orAssign => .or
  | xorAssign => .xor
  | _ => .badN

end OpStmt2

/-- `to_assign_op(Op2)`. -/
def Op2.toAssignOp : Op2 → OpStmt2
  | .sub => .subAssign
  | .quo => .quoAssign
  | .rem => .remAssign
  | .shl => .shlAssign
  | .shr => .shrAssign
  | _ => .badSt2

/-- `to_assign_op(OpN)`. -/
def OpN.toAssignOp : OpN → OpStmt2
  | .add => .addAssign
  | .mul => .mulAssign
  | .and => .andAssign
  | .or => .orAssign
  | .xor => .xorAssign
  | _ => .badSt2

/-- `negate_condjump`, with exactly the eight cases its `switch` lists. -/
def OpStmt3.negateCondjump : OpStmt3 → OpStmt3
  | .asmJa => .asmJbe
  | .asmJae => .asmJb
  | .asmJb => .asmJae
  | .asmJbe => .asmJa
  | .asmJe => .asmJne
  | .asmJg => .asmJle
  | .asmJge => .asmJl
  | .asmJne => .asmJe
  | op => op

/-- A real condition-jump opcode, `ASM_JA` to `ASM_JNE`. -/
def OpStmt3.isCondJump : OpStmt3 → Bool
  | .asmJa | .asmJae | .asmJb | .asmJbe | .asmJe
  | .asmJg | .asmJge | .asmJl | .asmJle | .asmJne => true
  | _ => false

/-- Compound assignments and their operators correspond. -/
theorem Op2.toOp2_toAssignOp (op : Op2) (h : op.toAssignOp ≠ .badSt2) :
    op.toAssignOp.toOp2 = op ∧ op.toAssignOp.toOpN = .badN := by
  cases op <;> simp_all [Op2.toAssignOp, OpStmt2.toOp2, OpStmt2.toOpN]

theorem OpN.toOpN_toAssignOp (op : OpN) (h : op.toAssignOp ≠ .badSt2) :
    op.toAssignOp.toOpN = op ∧ op.toAssignOp.toOp2 = .bad2 := by
  cases op <;> simp_all [OpN.toAssignOp, OpStmt2.toOp2, OpStmt2.toOpN]

end OneJit
