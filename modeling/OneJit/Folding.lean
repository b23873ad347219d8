import OneJit.AssignHazards
import OneJit.CompileExpr
import OneJit.EvalConst

/-!
# The operations that constant folding executes

`eval_binary_op` computes with the integer operators of the host. It is called by the optimizer on
a `Binary` with two constants, by `compile(JumpIf)` on a test of two constants, and by `eval_const`.
Each caller is compared with the list of operations that it hands over: it returns if and only if
all of them are defined on the host.
-/

namespace OneJit

/-- A call of `eval_binary_op`. -/
structure Fold where
  op : Op2
  x : Value
  y : Value
  deriving DecidableEq

namespace Fold

/-- The host has a result: a division of two integers of one kind is not by zero and does not
overflow, and a shift is by less than 64. -/
def Defined (f : Fold) : Prop :=
  f.x.kind = f.y.kind → f.x.kind ≠ .float32 → f.x.kind ≠ .float64 →
    hostDefined f.x.kind f.op f.x.bits f.y.bits

/-- The call of `eval_binary_op` returns. -/
def Returns (f : Fold) : Prop := ∃ v, evalBinaryOp f.op f.x f.y = some v

theorem returns_iff (f : Fold) : f.Returns ↔ f.Defined := evalBinaryOp_returns_iff

end Fold

/-! ## The optimizer -/

/-- `try_optimize(Binary)` folds two valid constants. -/
def Step.folds (o : Optimizer) : Step → List Fold
  | .binary op x y =>
    match x.toExpr, y.toExpr with
    | .const v _, .const w _ =>
      if o.flags.foldConstant && v.isValid && w.isValid then [⟨op, v, w⟩] else []
    | _, _ => []
  | _ => []

namespace Optimizer

open Expr

/-- The operations that a run hands over, in its order. -/
def folds (o : Optimizer) (fuel : Nat) (e : Expr) : List Fold :=
  (o.steps fuel e).flatMap (Step.folds o)

mutual

/-- `optimize(Node)` on a statement: the children first, and then the rules for an assignment. The
other statements are rebuilt. -/
def optimizeStmt (o : Optimizer) : Stmt → Option Stmt
  | .expr e => do
    let e' ← o.optimize (optimizeFuel e) e
    some (.expr e')
  | .stmt0 op => some (.stmt0 op)
  | .stmt1 op arg => do
    let arg' ← o.optimize (optimizeFuel arg) arg
    some (.stmt1 op arg')
  | .stmt2 op a b => do
    let a' ← optimizeStmt o a
    let b' ← optimizeStmt o b
    some (match a, b, a', b' with
      | .expr dst, .expr src, .expr dst', .expr src' =>
        if op.isAssign then
          (o.tryOptimizeAssign op dst'.toExpr src'.toExpr).getD (rebuildAssign op dst src dst' src')
        else .stmt2 op a' b'
      | _, _, _, _ => .stmt2 op a' b')
  | .stmt3 op a b c => do
    let a' ← optimizeStmt o a
    let b' ← optimizeStmt o b
    let c' ← optimizeStmt o c
    some (.stmt3 op a' b' c')
  | .stmt4 op a b c d => do
    let a' ← optimizeStmt o a
    let b' ← optimizeStmt o b
    let c' ← optimizeStmt o c
    let d' ← optimizeStmt o d
    some (.stmt4 op a' b' c' d')
  | .stmtN op args => do
    let args' ← optimizeStmts o args
    some (.stmtN op args')

def optimizeStmts (o : Optimizer) : List Stmt → Option (List Stmt)
  | [] => some []
  | st :: sts => do
    let st' ← optimizeStmt o st
    let sts' ← optimizeStmts o sts
    some (st' :: sts')

end

mutual

/-- The operations that a run on a statement hands over. -/
def stmtFolds (o : Optimizer) : Stmt → List Fold
  | .expr e => o.folds (optimizeFuel e) e
  | .stmt0 _ => []
  | .stmt1 _ arg => o.folds (optimizeFuel arg) arg
  | .stmt2 _ a b => stmtFolds o a ++ stmtFolds o b
  | .stmt3 _ a b c => stmtFolds o a ++ stmtFolds o b ++ stmtFolds o c
  | .stmt4 _ a b c d => stmtFolds o a ++ stmtFolds o b ++ stmtFolds o c ++ stmtFolds o d
  | .stmtN _ args => stmtsFolds o args

def stmtsFolds (o : Optimizer) : List Stmt → List Fold
  | [] => []
  | st :: sts => stmtFolds o st ++ stmtsFolds o sts

end

end Optimizer

/-! ## Tests of jumps -/

mutual

/-- The operations that `eval_const` hands over. -/
def constFolds : Expr → List Fold
  | .unary _ _ x _ => constFolds x
  | .binary _ op x y _ =>
    constFolds x ++ constFolds y ++ (evalConst x).toList.flatMap fun v =>
      (evalConst y).toList.map (Fold.mk op v)
  | .tuple k op args _ =>
    if op.isArithmetic then constFoldsArgs k op (Value.identityN k op) args else []
  | _ => []

/-- An invalid partial result ends the loop over the operands of a `Tuple`. -/
def constFoldsArgs (k : Kind) (op : OpN) (v : Value) : List Expr → List Fold
  | [] => []
  | x :: xs =>
    if v.isValid then
      constFolds x ++ (evalConst x).toList.flatMap fun vi =>
        constFoldsArgs k op (evalTupleOp k op [v, vi]) xs
    else []

end

end OneJit
