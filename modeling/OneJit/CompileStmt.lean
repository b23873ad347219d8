import OneJit.CompileExpr

/-!
# Compiling statements

Every `compile` of a statement returns `VoidConst`, and that of an expression the compiled
expression. `compile_add` appends what it returns; a `Block` drops it.
-/

namespace OneJit

namespace Stmt

/-- `child_is<Expr>()`. -/
def toExpr : Stmt → Expr
  | expr e => e.toExpr
  | _ => .none

/-- `child_is<Label>()`. -/
def toLabel : Stmt → Expr
  | expr (.label index address) => .label index address
  | _ => .none

/-- `child_is<Var>()`. -/
def isVar : Stmt → Bool
  | expr e => e.isVar
  | _ => false

/-- The type of the node is `CONST`. -/
def isConst : Stmt → Bool
  | expr e => e.isConst
  | _ => false

end Stmt

namespace Compiler

open Expr

/-- `to_place`. -/
def toPlace (e : Expr) : CompileM Expr :=
  match e with
  | .mem k args _ => do
    let (address, _) ← compileExpr (.tuple .ptr .add args .fresh)
    let address ← toVarConst address (compileExpr address)
    return .mem k [address] .fresh
  | e => pure e.toExpr

/-- `to_places`. -/
def toPlaces : List Stmt → CompileM (List Stmt)
  | [] => pure []
  | e :: es => do
    let place ← toPlace e.toExpr
    let places ← toPlaces es
    return .expr place :: places

/-- `compile(Stmt0)`. -/
def compileStmt0 (op : OpStmt0) : CompileM Unit := do
  let jump (label : Expr) (msg : String) : CompileM Unit :=
    if label.isValid then add (.goto label) else error (.stmt0 op) msg
  match op with
  | .brk => jump (← labelBreak) "misplaced Break"
  | .cont => jump (← labelContinue) "misplaced Continue"
  | .fallthrough => jump (← labelFallthrough) "misplaced Fallthrough"
  | _ => error (.stmt0 op) "bad Stmt0"

/-- `compile(Call)` where the call is not copied to a variable. -/
def compileCall (call : Expr) : CompileM Compiled :=
  match call with
  | .tuple k .call (fn :: address :: args) p =>
    if args.all isVar then pure (.tuple k .call (fn :: address :: args) p, false)
    else do
      let args ← compileArgs (fun e => pure (e, false)) args
      return (rebuildCall fn address args, true)
  | e => pure (e, false)

/-- `compile(AssignCall)`. -/
def compileAssignCall (args : List Stmt) : CompileM Unit :=
  match args.getLast? with
  | .none => add (.stmtN .assignCall args)
  | some last => do
    let (call, changed) ← compileCall last.toExpr
    if !changed && args.dropLast.all Stmt.isVar then add (.stmtN .assignCall args)
    else
      let places ← toPlaces args.dropLast
      add (.stmtN .assignCall (places ++ [.expr call]))

/-- `func_->results()`. -/
def getResults : CompileM (List Expr) := fun c => (c.results, .empty, c)

/-- A step that is taken or left out. -/
def takeIf (b : Bool) (m : CompileM Unit) : CompileM Unit := if b then m else pure ()

/-- A label of its own, or the one that is used otherwise. -/
def newLabelOr (b : Bool) (label : Expr) : CompileM Expr := if b then newLabel else pure label

/-- The loop of `compile(Return)`. -/
def compileResults (st : Stmt) : List Expr → List Stmt → CompileM Unit
  | result :: results, child :: children => do
    let expr := child.toExpr
    takeIf (result.kind != expr.kind)
      (error st "return value kind does not match function signature")
    takeIf (!sameNode expr result) do
      let (expr, _) ← compileExpr expr
      add (.assign .assign result expr)
    compileResults st results children
  | _, _ => pure ()

/-- The children of a `Return` are the variables that hold the results. -/
def usesFuncResults (results : List Expr) (children : List Stmt) : Bool :=
  (results.zip children).all fun (result, child) =>
    match child with
    | .expr e => sameNode e result
    | _ => false

/-- `compile(Return)`. -/
def compileReturn (children : List Stmt) : CompileM Unit := do
  let results ← getResults
  if children.length ≠ results.length then
    error (.stmtN .return children) "number of return values does not match function signature"
    add (.stmtN .return children)
  else if usesFuncResults results children then add (.stmtN .return children)
  else
    compileResults (.stmtN .return children) results children
    add (.stmtN .return (results.map .expr))

/-- The checks of `compile(Switch)` on its cases. -/
def switchError (haveDefault : Bool) : List Stmt → Option Error
  | [] => .none
  | .stmt2 .case _ _ :: cases => switchError haveDefault cases
  | .stmt2 .default a b :: cases =>
    if haveDefault then some ⟨.stmt2 .default a b,
      "unexpected duplicate Default in Switch, expecting at most one"⟩
    else switchError true cases
  | node :: _ => some ⟨node, "unexpected node in Switch, expecting Case or Default"⟩

/-- The test of a `For`: absent, or a constant for which only the initialization is compiled, or an
expression. -/
def loopHasTest (test : Expr) : Bool :=
  match test with
  | .const v p => !sameNode (.const v p) voidExpr || v.isZero.toBool
  | _ => true

/-- `compile_add`, from the compiled node. -/
def compileAdd (comp : CompileM Expr) : CompileM Unit := do
  let node ← comp
  add (.expr node)

/-- `compile(If)` where the test is not a constant. -/
def compileIfElse (haveElse : Bool) (test : Expr) (thn els : CompileM Expr) : CompileM Unit := do
  let elseLabel ← newLabel
  let endifLabel ← newLabelOr haveElse elseLabel
  compileJumpIf elseLabel (compileExpr (newUnary .not1 test))
  compileAdd thn
  takeIf haveElse do
    add (.goto endifLabel)
    add (.expr elseLabel)
    compileAdd els
  add (.expr endifLabel)

/-- `compile(If)`, from the compiled test and the compiled branches. -/
def compileIf (haveElse : Bool) (test : CompileM Compiled) (thn els : CompileM Expr) :
    CompileM Unit := do
  let (test, _) ← test
  match test with
  | .const v _ => if v.toBool then compileAdd thn else compileAdd els
  | test => compileIfElse haveElse test thn els

/-- The loop that `compile(For)` emits after the initialization. -/
def compileLoop (haveTest : Bool) (test : Expr) (post body : CompileM Expr) : CompileM Unit := do
  let loop ← newLabel
  let cont ← newLabelOr haveTest loop
  let brk ← newLabel
  takeIf haveTest (add (.goto cont))
  add (.expr loop)
  enterLoop brk cont
  compileAdd body
  compileAdd post
  exitLoop
  if haveTest then
    add (.expr cont)
    compileJumpIf loop (compileExpr test)
    add (.expr brk)
  else
    add (.goto loop)
    add (.expr brk)

/-- `compile(For)`, from its compiled statements. -/
def compileFor (test : Expr) (init post body : CompileM Expr) : CompileM Unit := do
  compileAdd init
  takeIf (!(test.isConst && loopHasTest test)) (compileLoop (!test.isConst) test post body)

/-- `compile(Cond)`, from its compiled branches. -/
def compileCond (sts : List Stmt) (branches : Expr → CompileM Unit) : CompileM Unit := do
  if sts.isEmpty then pure ()
  else if sts.length % 2 = 1 then
    error (.stmtN .cond sts)
      "unexpected odd number of children in Cond: expecting an even number of them"
    add (.stmtN .cond sts)
  else
    let last ← newLabel
    branches last

/-- One turn of the loop of `compile(Cond)`. -/
def compileBranch (last : Expr) (isLast : Bool) (test : Expr) (body : CompileM Expr) :
    CompileM Unit := do
  let next ← newLabelOr (!isLast) last
  compileJumpIf next (compileExpr (newUnary .not1 test))
  compileAdd body
  takeIf (!isLast) (add (.goto last))
  add (.expr next)

/-- `compile(Switch)` where the cases are well formed, from its compiled cases. -/
def compileSwitchOn (e : Expr) (cases : Expr → Expr → CompileM Unit) : CompileM Unit := do
  let expr ← toVar e (compileExpr e)
  let brk ← newLabel
  cases expr brk
  add (.expr brk)

/-- The labels that the loop of `compile(Switch)` passes on: where the previous case continues with
its test and with `fallthrough`, and where `Default` is. -/
structure CaseLabels where
  this : Expr
  fall : Expr
  dflt : Expr

/-- What the loop of `compile(Switch)` emits before a body: the test of a `Case`, or the jump over
a `Default` that is not the last one. It returns the label of the body and that of `Default`. -/
def compileCaseTest (expr next : Expr) (isLast : Bool) (labels : CaseLabels) (op : OpStmt2)
    (e : Expr) : CompileM (Expr × Expr) := do
  if op = .default then
    if isLast then pure (labels.fall, labels.dflt)
    else
      add (.goto next)
      let label ← newLabelOr (!labels.fall.isValid) labels.fall
      pure (label, label)
  else
    compileJumpIf next (compileExpr (newBinary .neq expr e))
    pure (labels.fall, labels.dflt)

/-- One turn of the loop of `compile(Switch)`. -/
def compileCase (expr brk : Expr) (isLast : Bool) (labels : CaseLabels) (op : OpStmt2) (e : Expr)
    (body : CompileM Expr) : CompileM CaseLabels := do
  let next ← newLabelOr (!isLast) (if labels.dflt.isValid then labels.dflt else brk)
  let fall ← newLabelOr (!isLast) brk
  takeIf labels.this.isValid (add (.expr labels.this))
  let (thisFall, dflt) ← compileCaseTest expr next isLast labels op e
  takeIf thisFall.isValid (add (.expr thisFall))
  enterCase brk fall
  compileAdd body
  exitCase
  takeIf (!isLast) (add (.goto brk))
  return ⟨next, fall, dflt⟩

/-- `compile(Stmt2)`. -/
def compileStmt2 (op : OpStmt2) (a b : Stmt) : CompileM Unit :=
  match op with
  | .case => do
    error (.stmt2 op a b) "misplaced Case"
    add (.stmt2 op a b)
  | .default => do
    error (.stmt2 op a b) "misplaced Default"
    add (.stmt2 op a b)
  | .jumpIf => compileJumpIf a.toLabel (compileExpr b.toExpr)
  | _ =>
    if op.isAssign then
      compileAssign op a.toExpr b.toExpr (do
        let (dst, _) ← compileExpr a.toExpr
        toPlace dst) (compileExpr b.toExpr)
    else add (.stmt2 op a b)

/-- What the compilation of a statement returns. -/
def returnVoid (m : CompileM Unit) : CompileM Expr := do
  m
  return voidExpr

mutual

/-- `compile(Node)`. -/
def compileStmt : Stmt → CompileM Expr
  | .expr .none => returnVoid (error (.expr .none) "bad Stmt0")
  | .expr e => Prod.fst <$> compileExpr e
  | .stmt0 op => returnVoid (compileStmt0 op)
  | .stmt1 op arg => returnVoid do
    let (arg, _) ← compileExpr arg
    add (.stmt1 op arg)
  | .stmt2 op a b => returnVoid (compileStmt2 op a b)
  | .stmt3 .if_ test thn els => returnVoid
    (compileIf (!els.isConst) (compileExpr test.toExpr) (compileStmt thn) (compileStmt els))
  | .stmt3 op a b c => returnVoid (add (.stmt3 op a b c))
  | .stmt4 .for_ init test post body => returnVoid
    (compileFor test.toExpr (compileStmt init) (compileStmt post) (compileStmt body))
  | .stmt4 op a b c d => returnVoid (add (.stmt4 op a b c d))
  | .stmtN .assignCall args => returnVoid (compileAssignCall args)
  | .stmtN .block args => returnVoid (compileBlock args)
  | .stmtN .cond args => returnVoid (compileCond args fun last => compileBranches last args)
  | .stmtN .return args => returnVoid (compileReturn args)
  | .stmtN .switch args => returnVoid (compileSwitch args)
  | .stmtN op args => returnVoid (add (.stmtN op args))

/-- `compile(Block)`. -/
def compileBlock : List Stmt → CompileM Unit
  | [] => pure ()
  | st :: sts => do
    let _ ← compileStmt st
    compileBlock sts

/-- The loop of `compile(Cond)`. -/
def compileBranches (last : Expr) : List Stmt → CompileM Unit
  | test :: body :: sts => do
    compileBranch last sts.isEmpty test.toExpr (compileStmt body)
    compileBranches last sts
  | _ => pure ()

/-- `compile(Switch)`. -/
def compileSwitch : List Stmt → CompileM Unit
  | [] => do
    let brk ← newLabel
    add (.expr brk)
  | e :: cases =>
    match switchError false cases with
    | some err => error err.node err.msg
    | .none => compileSwitchOn e.toExpr fun expr brk =>
        compileCases expr brk ⟨.none, .none, .none⟩ cases

/-- The loop of `compile(Switch)`. -/
def compileCases (expr brk : Expr) (labels : CaseLabels) : List Stmt → CompileM Unit
  | .stmt2 op e body :: cases => do
    let labels ← compileCase expr brk cases.isEmpty labels op e.toExpr (compileStmt body)
    compileCases expr brk labels cases
  | _ => pure ()

end

end Compiler

end OneJit
