import OneJit.LoweringSound
import OneJit.CompileFunc
import OneJit.Lib.Structured

/-!
# Running structured statements

What a function body does before it is compiled. Loops take a bounded number of turns; `Continue`
goes on with the test of the loop. A `Switch` evaluates its cases in order up to the first that is
equal, and a `Return` evaluates all its expressions before it stores any. Labels and jumps that the
input places itself are left out, and so is `AssignCall`.
-/

namespace OneJit

open FlatCode

/-- The result of a statement. What it returns are the values of its expressions. -/
abbrev StmtResult := FlatCode.Result State (List (BitVec 64))

namespace Expr

variable (w : Host)

/-- An expression that stands where a statement does. -/
def performAt (e : Expr) (s : State) : Option State :=
  (e.runAt w s).map fun r => { s with heap := r.2 }

/-- Whether an expression is other than zero. -/
def testAt (e : Expr) (s : State) : Option (Bool × State) :=
  (e.runAt w s).map fun r => (r.1 != 0, { s with heap := r.2 })

/-- Whether an expression has this value. -/
def equalsAt (v : BitVec 64) (e : Expr) (s : State) : Option (Bool × State) :=
  (e.runAt w s).map fun r => (v == r.1, { s with heap := r.2 })

end Expr

namespace Stmt

variable (w : Host) (turns : Nat)

mutual

/-- The result of a statement whose loops take at most so many turns. -/
def outcome : Stmt → State → StmtResult
  | expr e => fun s => .ofOption (e.performAt w s)
  | stmt0 .brk => .ends .brk
  | stmt0 .cont => .ends .cont
  | stmt0 .fallthrough => .ends .fall
  | stmt1 .inc dst => fun s => .ofOption (stepEffect w 1 dst s)
  | stmt1 .dec dst => fun s => .ofOption (stepEffect w (-1) dst s)
  | stmt2 op a b => fun s =>
    if op.isAssign then .ofOption (assignEffect w op a.toExpr b.toExpr s) else .trap
  | stmt3 .if_ test thn els => fun s =>
    .branch (test.toExpr.testAt w s) (outcome thn) (outcome els)
  | stmt4 .for_ init test post body => fun s => (outcome init s).andThen
    (.loop (test.toExpr.testAt w) (fun s => (outcome body s).andThen (outcome post)) turns)
  | stmtN .block args => outcomeBlock args
  | stmtN .cond args => outcomeCond args
  | stmtN .return args => fun s =>
    match Expr.runList w s.vars (args.map toExpr) s.heap with
    | some (vs, h) => .ends (.ret vs) { s with heap := h }
    | none => .trap
  | stmtN .switch args => outcomeSwitch args
  | _ => fun _ => .trap

/-- The statements of a `Block`. -/
def outcomeBlock : List Stmt → State → StmtResult
  | [] => .ends .normal
  | st :: sts => fun s => (outcome st s).andThen (outcomeBlock sts)

/-- The tests and bodies of a `Cond`. -/
def outcomeCond : List Stmt → State → StmtResult
  | test :: body :: sts => fun s =>
    .branch (test.toExpr.testAt w s) (outcome body) (outcomeCond sts)
  | _ => .ends .normal

/-- The expression and the cases of a `Switch`. -/
def outcomeSwitch : List Stmt → State → StmtResult
  | [] => .ends .normal
  | e :: cases => fun s =>
    match e.toExpr.runAt w s with
    | some (v, h) => outcomeCases v (.ends .normal) cases { s with heap := h }
    | none => .trap

/-- The first case with this value, or `Default`. -/
def outcomeCases (v : BitVec 64) (dflt : State → StmtResult) : List Stmt → State → StmtResult
  | stmt2 .default _ body :: cases =>
    outcomeCases v (fun s => (outcome body s).orFall (outcomeBodies cases)) cases
  | stmt2 _ e body :: cases => fun s =>
    .branch (e.toExpr.equalsAt w v s) (fun s => (outcome body s).orFall (outcomeBodies cases))
      (outcomeCases v dflt cases)
  | _ => dflt

/-- The bodies of a `Switch` from one on. -/
def outcomeBodies : List Stmt → State → StmtResult
  | stmt2 _ _ body :: cases => fun s => (outcome body s).orFall (outcomeBodies cases)
  | _ => .ends .normal

end

end Stmt

/-! ## Statements that are lowered right -/

namespace Expr

/-- An expression of the function that computes what it should, with variables below the bound. -/
def usable (n : Nat) (e : Expr) : Bool := e.computes && e.typed && e.varsBelow n

/-- A variable, or a memory operand that is evaluated where it stands. -/
def isPlace (n : Nat) (e : Expr) : Bool :=
  match e with
  | var k id => k.isScalar && decide (id < n)
  | mem k args p => (mem k args p).lowered && (mem k args p).typed && (mem k args p).varsBelow n
  | _ => false

/-- A test that is branched on, negated or not. -/
def isTest (n : Nat) (negate : Bool) (e : Expr) : Bool :=
  e.usable n && (outline e).jumpsRight negate

/-- An expression whose copy holds its value. -/
def isCopied (n : Nat) (e : Expr) : Bool :=
  e.usable n && (e.kind == e.valueKind && e.valueKind.isScalar)

/-- A test of a `For` that is not absent. A constant one is taken for zero. -/
def isLoopTest (n : Nat) (e : Expr) : Bool :=
  match e with
  | const v p => !sameNode (const v p) voidExpr && v.meaning == 0
  | e => e.isTest n false

/-- The expression reads the variable. -/
def reads (r e : Expr) : Bool :=
  match r with
  | var k id => e.usesVar k id
  | _ => false

end Expr

namespace Stmt

/-- No expression of a `Return` reads the variable of an earlier result, unless this one keeps its
value. -/
def inOrder (n : Nat) : List Expr → List Stmt → Bool
  | r :: rs, arg :: args => arg.toExpr.isCopied n &&
    (Expr.sameNode arg.toExpr r || args.all fun a => !r.reads a.toExpr) && inOrder n rs args
  | _, _ => true

/-- What is evaluated for its calls. -/
def isEvaluated (n : Nat) (e : Expr) : Bool :=
  Expr.sameNode e Expr.voidExpr || e.usable n && (Expr.outline e).type != .label

mutual

/-- The lowered statement does what the statement does, see `compileStmt_simulates`. -/
def lowersRight (n : Nat) (results : List Expr) : Stmt → Bool
  | expr e => isEvaluated n e
  | stmt0 _ => true
  | stmt1 op dst => (op == .inc || op == .dec) && dst.isPlace n
  | stmt2 op a b => op.isAssign && a.toExpr.isPlace n && b.toExpr.usable n
  | stmt3 .if_ test thn els =>
    test.toExpr.isTest n true && lowersRight n results thn && lowersRight n results els
  | stmt4 .for_ init test post body => lowersRight n results init && test.toExpr.isLoopTest n &&
    lowersRight n results body && lowersRight n results post
  | stmtN .block args => blockLowersRight n results args
  | stmtN .cond args => condLowersRight n results args
  | stmtN .return args => Compiler.usesFuncResults results args || inOrder n results args
  | stmtN .switch args => switchLowersRight n results args
  | _ => false

/-- A `Block` drops what compiling its statements returns. -/
def blockLowersRight (n : Nat) (results : List Expr) : List Stmt → Bool
  | [] => true
  | expr e :: sts => isEvaluated n e && !(Expr.outline e).mayTrap && blockLowersRight n results sts
  | st :: sts => lowersRight n results st && blockLowersRight n results sts

def condLowersRight (n : Nat) (results : List Expr) : List Stmt → Bool
  | test :: body :: sts => test.toExpr.isTest n true && lowersRight n results body &&
    condLowersRight n results sts
  | _ => true

def switchLowersRight (n : Nat) (results : List Expr) : List Stmt → Bool
  | [] => true
  | e :: cases => e.toExpr.isCopied n && casesLowerRight n results e.toExpr.valueKind cases

/-- Cases with values of this kind. -/
def casesLowerRight (n : Nat) (results : List Expr) (k : Kind) : List Stmt → Bool
  | stmt2 op e body :: cases =>
    (op == .default || e.toExpr.usable n && e.toExpr.valueKind == k &&
      (Expr.outline e.toExpr).type.isExpr) &&
      lowersRight n results body && casesLowerRight n results k cases
  | _ => true

end

end Stmt

end OneJit
