import OneJit.Compiler

/-!
# Compiling expressions

Every `compile` returns the compiled node, and whether it is another node than the one it was
given. The source compiles some results a second time, where it copies them to a variable or
branches on them: `again` is what it calls there.
-/

namespace OneJit

/-- `is_assign`, `ASSIGN` and the rest of `class Assign`. -/
abbrev Stmt.assign (op : OpStmt2) (dst src : Expr) : Stmt := .stmt2 op (.expr dst) (.expr src)

/-- `Goto`. -/
abbrev Stmt.goto (target : Expr) : Stmt := .stmt1 .goto target

namespace Expr

/-- `Unary{func, op, x}`, which autodetects the kind. -/
def newUnary (op : Op1) (x : Expr) : Expr :=
  unary (if op = .not1 then .bool else x.kind) op x .fresh

/-- `Call{func, fheader, args}`. -/
def rebuildCall (fn address : Expr) (args : List Expr) : Expr :=
  match fn with
  | .ftype results params =>
    tuple (params.head?.getD .void) .call (.ftype results params :: address.toExpr :: args) .fresh
  | _ => tuple .void .call (.none :: address.toExpr :: args) .fresh

end Expr

namespace Compiler

open Expr

/-- A compiled node, and whether it is another one than before. -/
abbrev Compiled := Expr × Bool

/-- `compile(Assign)`, from the compiled place and the compiled source. -/
def compileAssign (op : OpStmt2) (dst src : Expr) (place : CompileM Expr)
    (comp : CompileM Compiled) : CompileM Unit := do
  let compDst ← place
  let (compSrc, changed) ← comp
  if changed || !sameNode dst compSrc then add (.assign op compDst compSrc)
  else add (.assign op dst src)

/-- `comparison_to_condjump`. -/
def comparisonToCondjump (op : Op2) (isSigned : Bool) : OpStmt3 :=
  match op with
  | .lss => if isSigned then .asmJl else .asmJb
  | .leq => if isSigned then .asmJle else .asmJbe
  | .neq => .asmJne
  | .eql => .asmJe
  | .gtr => if isSigned then .asmJg else .asmJa
  | .geq => if isSigned then .asmJge else .asmJae
  | _ => .badSt3

/-- The loop of `compile(JumpIf)` over the `NOT1`s of a test. -/
def peelNot : Expr → Bool × Expr
  | .unary k op x p =>
    if op = .not1 then
      let (negate, test) := peelNot x
      (!negate, test)
    else (false, .unary k op x p)
  | e => (false, e)

/-- The operator and the operands that `compile(JumpIf)` compares. -/
def testOperands (test : Expr) : Op2 × Expr × Expr :=
  match test with
  | .binary _ op x y _ =>
    if op = .bad2 then (.neq, test, zero test.kind) else (op, x.toExpr, y.toExpr)
  | _ => (.neq, test, zero test.kind)

/-- The value of a test on two constants, where it has one. An integer division by zero has no
result on the host. -/
def constTest (op : Op2) (x y : Expr) : Option Value :=
  match x, y with
  | .const v _, .const w _ => (evalBinaryOp op v w).filter Value.isValid
  | _, _ => .none

/-- `compile(JumpIf)`, from the compiled test. -/
def compileJumpIf (target : Expr) (comp : CompileM Compiled) : CompileM Unit := do
  let (test, _) ← comp
  let (negate, test) := peelNot test
  let (op, x, y) := testOperands test
  match constTest op x y with
  | some v => if if negate then v.isZero.toBool else v.toBool then add (.goto target)
  | .none =>
    let jop := comparisonToCondjump op x.kind.isSigned
    add (.stmt3 (if negate then jop.negateCondjump else jop) (.expr target) (.expr x) (.expr y))

/-- `to_var`: a variable that holds the result of an expression. -/
def toVar (e : Expr) (comp : CompileM Compiled) : CompileM Expr := do
  if e.isVar then return e
  else if e.toExpr.isValid then
    let v ← newVar e.kind
    -- the place is a variable, which is compiled to itself
    compileAssign .assign v e (pure v) comp
    return v
  else return .none

/-- `to_var_mem_const`. -/
def toVarMemConst (e : Expr) (comp : CompileM Compiled) : CompileM Compiled :=
  match e with
  | .var _ _ | .mem _ _ _ | .const _ _ | .label _ _ => pure (e, false)
  | e => do return (← toVar e comp, true)

/-- `to_var_const`. -/
def toVarConst (e : Expr) (comp : CompileM Compiled) : CompileM Expr :=
  match e with
  | .var _ _ | .const _ _ | .label _ _ => pure e
  | e => toVar e comp

/-- The end of `simplify_land` and `simplify_lor`: the left operand, or the constant that stands for
it when it is a comparison, decides whether the right one is assigned too. -/
def simplifyBranch (again : Expr → CompileM Compiled) (decided : Expr) (test : Expr → Expr)
    (x y : Expr) : CompileM Expr := do
  let dst ← newVar .bool
  let label ← newLabel
  let comparison := match x with
    | .binary _ op _ _ _ => op.isComparison
    | _ => false
  if comparison then
    add (.assign .assign dst decided)
    compileJumpIf label (again (test x))
  else
    add (.assign .assign dst x)
    compileJumpIf label (again (test dst))
  compileAssign .assign dst y (pure dst) (again y)
  add (.expr label)
  return dst

/-- `simplify_land`. The empty expression stands for no simplification. -/
def simplifyLand (again : Expr → CompileM Compiled) (x y : Expr) : CompileM Expr :=
  match x, y with
  | .const xc _, _ => pure (if xc.toBool then y else x)
  | _, .const yc _ => if yc.toBool then pure x else do
      add (.expr x)
      return y
  | _, .var _ _ => pure .none
  | _, _ => simplifyBranch again falseExpr (newUnary .not1) x y

/-- `simplify_lor`. -/
def simplifyLor (again : Expr → CompileM Compiled) (x y : Expr) : CompileM Expr :=
  match x, y with
  | .const xc _, _ => pure (if xc.toBool then x else y)
  | _, .const yc _ => if yc.toBool then do
      add (.expr x)
      return y
    else pure x
  | _, .var _ _ => pure .none
  | _, _ => simplifyBranch again trueExpr id x y

/-- `simplify_boolean`. -/
def simplifyBoolean (again : Expr → CompileM Compiled) (op : Op2) (x y : Expr) : CompileM Expr :=
  match op with
  | .land => simplifyLand again x y
  | .lor => simplifyLor again x y
  | _ => pure .none

/-- The end of `compile(Tuple)`. A rebuilt node has type `TUPLE`, a memory operand too. -/
def rebuildChildren (e : Expr) (kind : Kind) (op : OpN) (nodes : List Expr) (changed : Bool) :
    Compiled :=
  if op.isArithmetic then
    match nodes with
    | [] => (ofValue (Value.identityN kind op), true)
    | [x] => (x.toExpr, true)
    | _ => if changed then (.tuple kind op nodes .fresh, true) else (e, false)
  else if changed then (.tuple kind op nodes .fresh, true) else (e, false)

mutual

/-- `compile(Expr)`. -/
def compileExprWith (again : Expr → CompileM Compiled) : Expr → CompileM Compiled
  | .unary k op x p => do
    let (x', changed) ← compileExprWith again x
    return if changed then (newUnary op x', true) else (.unary k op x p, false)
  | .binary k op x y p => do
    let (x', changedX) ← compileExprWith again x
    let (y', changedY) ← compileExprWith again y
    let e ← simplifyBoolean again op x' y'
    return if e.isValid then (e, true)
      else if changedX || changedY then (newBinary op x' y', true)
      else (.binary k op x y p, false)
  | .mem k args p => do
    let (nodes, changed) ← compileChildren again args
    return rebuildChildren (.mem k args p) k .memOp nodes changed
  | .tuple k .call (fn :: address :: args) p => do
    let call ← if args.all isVar then pure (.tuple k .call (fn :: address :: args) p)
      else rebuildCall fn address <$> compileArgs again args
    let dst ← newVar call.kind
    add (.assign .assign dst call)
    return (dst, true)
  | .tuple k op args p => do
    let (nodes, changed) ← compileChildren again args
    return rebuildChildren (.tuple k op args p) k op nodes changed
  | e => pure (e, false)

/-- The loop of `compile(Tuple)`. An absent child is an invalid statement. -/
def compileChildren (again : Expr → CompileM Compiled) :
    List Expr → CompileM (List Expr × Bool)
  | [] => pure ([], false)
  | .none :: xs => do
    error (.expr .none) "bad Stmt0"
    let (nodes, _) ← compileChildren again xs
    return (voidExpr :: nodes, true)
  | x :: xs => do
    let (x', changed) ← compileExprWith again x
    let (node, copied) ← toVarMemConst x' (again x')
    let (nodes, changedRest) ← compileChildren again xs
    return (node :: nodes, changed || copied || changedRest)

/-- `to_vars` on the arguments of a call. -/
def compileArgs (again : Expr → CompileM Compiled) : List Expr → CompileM (List Expr)
  | [] => pure []
  | x :: xs => do
    let v ← toVar x (compileExprWith again x)
    let vs ← compileArgs again xs
    return v :: vs

end

/-- `compile(Expr)`. What is compiled already is left alone, see `compileExpr_again`. -/
def compileExpr : Expr → CompileM Compiled := compileExprWith fun e => pure (e, false)

end Compiler

end OneJit
