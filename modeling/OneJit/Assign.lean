import OneJit.Effects
import OneJit.OptimizerTuple

/-!
# The optimizer on an assignment

`simplify_assign`, `make_assign` and `try_optimize(Assign)`. The absent statement is `Node{}`, for
which the caller rebuilds the assignment.
-/

namespace OneJit

namespace Optimizer

open Expr

/-- `simplify_assign`: `(op= dst const)`. -/
def simplifyAssign (o : Optimizer) (assignOp : OpStmt2) (dst : Expr) (val : Value) : Option Stmt :=
  let kind := dst.kind
  let pure := deepPure o.allowMaskPure dst
  let op := assignOp.toOpN
  let op2 := assignOp.toOp2
  if op ≠ .badN then
    let absorbing := Value.absorbing kind op
    if (val.eq absorbing).toBool then some (.stmt2 .assign dst (ofValue absorbing))
    else if (val.eq (Value.identityN kind op)).toBool && pure then some voidExpr
    else if op = .add then
      if (val.eq (Value.one kind)).toBool then some (.stmt1 .inc dst)
      else if (val.eq (Value.minusOne kind)).toBool then some (.stmt1 .dec dst)
      else .none
    else .none
  else if op2 ≠ .bad2 then
    if (val.eq (Value.identity2 kind op2)).toBool && pure then some voidExpr
    else if op2 = .sub then
      if (val.eq (Value.one kind)).toBool then some (.stmt1 .dec dst)
      else if (val.eq (Value.minusOne kind)).toBool then some (.stmt1 .inc dst)
      else .none
    else .none
  else .none

/-- `(op= dst dst)`. -/
def simplifySameAssign (assignOp : OpStmt2) (dst : Expr) : Option Stmt :=
  let kind := dst.kind
  match assignOp with
  | .addAssign => some (.stmt2 .mulAssign dst (two kind))
  | .subAssign | .remAssign | .xorAssign => some (.stmt2 .assign dst (zero kind))
  | .quoAssign => some (.stmt2 .assign dst (one kind))
  | .andAssign | .orAssign | .assign => some voidExpr
  -- `MUL_ASSIGN` is a square
  | _ => .none

/-- The rules for a source that is not a constant, with `folded` for those on
`(= dst (op dst y))`. -/
def simplifyAssignExpr (o : Optimizer) (assignOp : OpStmt2) (dst src : Expr)
    (folded : Option Stmt) : Option Stmt :=
  if !src.isValid || !dst.isValid then .none
  else if deepEqual o.allowMaskPure dst src then simplifySameAssign assignOp dst
  else if assignOp = .assign then folded
  else .none

/-- `try_optimize(OpStmt2, Expr, Expr)`, with `make_assign` where it calls itself. -/
def tryOptimizeAssign (o : Optimizer) (assignOp : OpStmt2) (dst : Expr) : Expr → Option Stmt
  | .const c place =>
    if (Expr.const c place).isValid && dst.isValid then o.simplifyAssign assignOp dst c else .none
  | .binary kind op x y place =>
    o.simplifyAssignExpr assignOp dst (.binary kind op x y place)
      (if op.toAssignOp ≠ .badSt2 && deepEqual o.allowMaskPure dst x then
        some ((tryOptimizeAssign o op.toAssignOp dst y).getD (.stmt2 op.toAssignOp dst y))
      else .none)
  | .tuple kind op [x, y] place =>
    o.simplifyAssignExpr assignOp dst (.tuple kind op [x, y] place)
      (if op.toAssignOp ≠ .badSt2 && deepEqual o.allowMaskPure dst x then
        some ((tryOptimizeAssign o op.toAssignOp dst y).getD (.stmt2 op.toAssignOp dst y))
      else .none)
  | src => o.simplifyAssignExpr assignOp dst src .none

end Optimizer

end OneJit
