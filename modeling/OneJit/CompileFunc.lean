import OneJit.CompileStmt
import OneJit.FlowGraph

/-!
# Compiling a function

`compile(Func)` puts the address of the function and its parameters before the compiled body, and a
`Return` of its results after it. What the optimizer makes of the body comes in as the body.
-/

namespace OneJit

/-- `class Func`, as far as it is compiled: the kinds of its parameters and results, for which
`reset` takes the first variables, the number of its variables and labels, and its body. The first
label is the address of the function. -/
structure Func where
  paramKinds : List Kind
  resultKinds : List Kind
  vars : Nat
  labels : Nat
  body : Stmt
  vars_le : paramKinds.length + resultKinds.length ≤ vars
  labels_pos : 0 < labels

namespace Func

/-- The variable with this index in `vars_`. -/
def varAt (kind : Kind) (i : Nat) : Expr :=
  .var kind (if kind = .void then 0 else i + Compiler.firstId)

/-- `address`. -/
def address : Expr := .label 0 0

/-- `params`. -/
def params (f : Func) : List Expr := f.paramKinds.mapIdx fun i kind => varAt kind i

/-- `results`. -/
def results (f : Func) : List Expr :=
  f.resultKinds.mapIdx fun i kind => varAt kind (f.paramKinds.length + i)

/-- The state in which `compile` starts. -/
def start (f : Func) : Compiler where
  labels := f.labels
  vars := f.vars
  results := f.results
  breaks := []
  continues := []
  fallthroughs := []

end Func

namespace Compiler

/-- `add_prologue`. -/
def addPrologue (f : Func) : CompileM Unit := do
  add (.expr Func.address)
  takeIf (!f.params.isEmpty) (add (.stmtN .set (f.params.map .expr)))

/-- `add_epilogue`. -/
def addEpilogue (f : Func) (o : Output) : Output :=
  if o.nodes.getLast?.any Stmt.isReturn then o
  else ⟨o.nodes ++ [.stmtN .return (f.results.map .expr)], o.errors⟩

/-- `compile(Func)`, up to `finish`. -/
def compileFunc (f : Func) : Output :=
  addEpilogue f ((addPrologue f >>= fun _ => compileAdd (compileStmt f.body)) f.start).2.1

/-- `finish`. -/
def finish : List Stmt → Stmt
  | [] => .expr Expr.voidExpr
  | [node] => node
  | nodes => .stmtN .block nodes

end Compiler

end OneJit
