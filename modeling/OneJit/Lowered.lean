import OneJit.Run
import OneJit.CompileShape

/-!
# What an expression is lowered to

A lowered expression is evaluated where it stands: calls, short circuits and nested operands of
n-ary operators have been copied to variables before it. The outline of an expression says what its
lowered form looks like, and whether the copies may trap or call.
-/

namespace OneJit

/-- The nodes that `to_var_mem_const` keeps. -/
def NodeType.isOperand : NodeType → Bool
  | var | mem | const | label => true
  | _ => false

/-- `LAND` and `LOR`. -/
def Op2.isLogical : Op2 → Bool
  | land | lor => true
  | _ => false

/-- A constant left operand that is the result of a logical operator. -/
def Op2.decidedByConst (op : Op2) (v : Value) : Bool := v.toBool == (op == .lor)

/-- An operator whose node is kept with so many operands. -/
def OpN.isKept (op : OpN) (n : Nat) : Bool :=
  if op == .call then decide (n < 2) else !op.isArithmetic || decide (2 ≤ n)

/-- The operator is undefined on some left operand, with this constant as the right one. -/
def Op2.mayTrap (op : Op2) (c : Option Value) : Bool :=
  match op with
  | bad2 => true
  | quo | rem => c.all fun v => v.meaning == 0
  | shl | shr => c.all fun v => decide (64 ≤ v.meaning.toNat)
  | _ => false

/-- The operator is undefined on so many operands. -/
def OpN.mayTrap (op : OpN) (n : Nat) : Bool :=
  if op == .comma then n == 0 else !(op.isCommutative || op == .call)

/-- The kind of `Binary{func, op, x, y}`. -/
def Op2.resultKind (op : Op2) (k : Kind) : Kind := if op.val ≤ Op2.shr.val then k else .bool

/-- `comparison_to_condjump` and `negate_condjump` have a jump for the comparison. Its kind is the
one of the node, `vk` the one of the value. -/
def Op2.hasCondjump (op : Op2) (negate : Bool) (k vk : Kind) : Bool :=
  match op with
  | neq | eql => true
  | gtr | geq => k.isSigned == (vk.group == .gInt)
  | lss | leq => k.isSigned == (vk.group == .gInt) && !(negate && k.isSigned)
  | _ => false

/-- The jump on an operator, or on the constant that it is evaluated to. -/
def Op2.jumpsRight (op : Op2) (negate : Bool) (k vk : Kind) (cx cy : Option Value) : Bool :=
  match cx, cy with
  | some v, some w =>
    Kind.typed2 (op.resultKind v.kind) op v.kind w.kind && decide (binaryFolds op v w) &&
      ((evalBinaryOp op v w).filter Value.isValid).isSome
  | _, _ => op.hasCondjump negate k vk

namespace Expr

mutual

/-- Compiling the expression changes nothing. -/
def lowered : Expr → Bool
  | unary _ _ x _ => lowered x
  | binary _ op x y _ => lowered x && lowered y && (!op.isLogical || !x.isConst && y.isVar)
  | mem _ args _ => loweredOperands args
  | tuple _ op args _ => op.isKept args.length && loweredOperands args
  | _ => true

def loweredOperands : List Expr → Bool
  | [] => true
  | x :: xs => x.type.isOperand && lowered x && loweredOperands xs

end

mutual

/-- The memory is read. -/
def readsMem : Expr → Bool
  | mem _ _ _ => true
  | unary _ _ x _ => readsMem x
  | binary _ _ x y _ => readsMem x || readsMem y
  | tuple _ _ args _ => readsMemAny args
  | _ => false

def readsMemAny : List Expr → Bool
  | [] => false
  | x :: xs => readsMem x || readsMemAny xs

end

mutual

/-- The evaluation may be undefined. -/
def mayTrap : Expr → Bool
  | none => true
  | unary _ op x _ => op == .bad1 || mayTrap x
  | binary _ op x y _ => op.mayTrap (value? y) || mayTrap x || mayTrap y
  | mem _ args _ => mayTrapAny args
  | tuple _ op args _ => op.mayTrap args.length || mayTrapAny args
  | _ => false

def mayTrapAny : List Expr → Bool
  | [] => false
  | x :: xs => mayTrap x || mayTrapAny xs

end

/-- A comparison. -/
def isCompare : Expr → Bool
  | binary _ op _ _ _ => op.isComparison
  | _ => false

/-- The jump on an expression, negated or not, goes where it should. -/
def jumpsRight : Expr → Bool → Bool
  | unary _ op x _, negate => if op = .not1 then jumpsRight x (!negate) else true
  | binary _ op x y _, negate => x.type.isExpr && y.type.isExpr &&
      op.jumpsRight negate x.kind x.valueKind (value? x) (value? y)
  | const v _, _ => v.kind.isScalar && decide v.Normal
  | _, _ => true

end Expr

/-- What is known of the lowered form of an expression, and of what is emitted before it. -/
structure Outline where
  type : NodeType
  kind : Kind
  readsMem : Bool
  mayTrap : Bool
  isCompare : Bool
  jumpsRight : Bool → Bool
  /-- what is emitted may trap or call -/
  eager : Bool

namespace Outline

/-- A variable. -/
def var (k : Kind) (eager : Bool) : Outline :=
  ⟨.var, k, false, false, false, fun _ => true, eager⟩

/-- An expression that is compiled to itself. -/
def ofLowered (e : Expr) : Outline :=
  ⟨e.type, e.kind, e.readsMem, e.mayTrap, e.isCompare, e.jumpsRight, false⟩

/-- The same expression, after something else is emitted. -/
def after (s : Outline) (eager : Bool) : Outline := { s with eager := eager || s.eager }

/-- What `to_var_mem_const` makes of it. -/
def operand (s : Outline) : Outline :=
  if s.type.isOperand then s else var s.kind (s.eager || s.mayTrap)

/-- What `simplify_land` and `simplify_lor` make of the operands, with the constants that these
are. -/
def logical (op : Op2) (cx cy : Option Value) (x y : Outline) : Outline :=
  match cx, cy with
  | some v, _ => if op.decidedByConst v then x.after y.eager else y.after x.eager
  | none, some w =>
    if op.decidedByConst w then y.after (x.eager || x.mayTrap) else x.after y.eager
  | none, none =>
    if y.type == .var then
      ⟨.binary, .bool, x.readsMem, x.mayTrap, false, fun _ => false, x.eager || y.eager⟩
    else var .bool (x.eager || y.eager || x.mayTrap || y.mayTrap)

end Outline

namespace Expr

mutual

/-- The outline of what an expression is compiled to. -/
def outline : Expr → Outline
  | unary k op x _ =>
    { outline x with
      type := .unary
      kind := k
      isCompare := false
      jumpsRight := if op = .not1 then fun negate => (outline x).jumpsRight (!negate)
        else fun _ => true }
  | binary k op x y _ =>
    if op.isLogical then .logical op (constantOf x) (constantOf y) (outline x) (outline y)
    else
      { type := .binary
        kind := k
        readsMem := (outline x).readsMem || (outline y).readsMem
        mayTrap := op.mayTrap (constantOf y) || (outline x).mayTrap || (outline y).mayTrap
        isCompare := op.isComparison
        jumpsRight := fun negate => (outline x).type.isExpr && (outline y).type.isExpr &&
          op.jumpsRight negate (outline x).kind x.valueKind (constantOf x) (constantOf y)
        eager := (outline x).eager || (outline y).eager }
  | tuple k op args _ =>
    if op == .call then .var k true
    else
      match outlines args with
      | [] => .ofLowered (ofValue (Value.identityN k op))
      | [s] => s
      | ss =>
        { type := .tuple
          kind := k
          readsMem := ss.any Outline.readsMem
          mayTrap := false
          isCompare := false
          jumpsRight := fun _ => true
          eager := ss.any Outline.eager }
  | e => .ofLowered e

/-- The outlines of the operands of an n-ary operator. -/
def outlines : List Expr → List Outline
  | [] => []
  | x :: xs => (outline x).operand :: outlines xs

end

/-- The left operand decides, or nothing of the right one is emitted before it does; where the left
one is branched on, the branch is right. -/
def logicalComputes (op : Op2) (cx cy : Option Value) (x y : Outline) : Bool :=
  cx.all (fun v => decide v.Normal) && cy.all (fun v => decide v.Normal) &&
    (!y.eager || cx.any fun v => !op.decidedByConst v) &&
    (cx.isSome || cy.isSome || y.type == .var || !x.isCompare || x.jumpsRight (op == .land))

/-- A copy of a compiled operand holds the value of the expression. -/
def copies (e : Expr) : Bool :=
  (outline e).type.isOperand || (outline e).kind == e.valueKind && e.valueKind.isScalar

/-- A copy of an argument holds its value. -/
def copiesArg (e : Expr) : Bool := e.isVar || e.kind == e.valueKind && e.valueKind.isScalar

mutual

/-- The compiled expression computes the value of the expression, see `compileExpr_runs`. -/
def computes : Expr → Bool
  | none => false
  | unary k op x _ =>
    computes x && (lowered x || k == if op = .not1 then .bool else (outline x).kind)
  | binary k op x y p =>
    computes x && computes y && !((outline x).readsMem && hasCall y) &&
      if op.isLogical then
        logicalComputes op (constantOf x) (constantOf y) (outline x) (outline y)
      else
        lowered (binary k op x y p) ||
          k == op.resultKind (outline x).kind
  | mem k args p => lowered (mem k args p)
  | tuple k .call (ftype _ params :: address :: args) _ =>
    (k.isScalar || k == .void) && (args.all isVar ||
      k == params.head?.getD .void && address.type.isExpr && !hasCall address &&
        !(readsMem address && hasCallList args) && computesList args && args.all copiesArg)
  | tuple _ .call _ _ => false
  | tuple _ _ args _ => computesOperands args
  | _ => true

/-- Every expression of the list. -/
def computesList : List Expr → Bool
  | [] => true
  | x :: xs => computes x && computesList xs

/-- The operands of an n-ary operator: no call comes after a memory operand. -/
def computesOperands : List Expr → Bool
  | [] => true
  | x :: xs => computes x && copies x && !((outline x).type == .mem && hasCallList xs) &&
      computesOperands xs

end

end Expr

end OneJit
