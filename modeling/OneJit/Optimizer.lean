import Mathlib.Data.List.Sort
import OneJit.DeepEqual

/-!
# The optimizer on expressions

`Optimizer::optimize` and the rewriting rules it applies bottom up. `Expr.none` is the invalid
expression that the rules return when they do not apply. Constants are folded by the host: the
result of a fold that traps is `none`. The order in which `std::sort` leaves nodes that compare
equal is not specified, so the sort is a parameter.
-/

namespace OneJit

/-- The bits of `enum Opt`. -/
structure Opt where
  foldConstant : Bool
  simplifyExpr : Bool
  removeDeadCode : Bool
  fastMath : Bool
  deriving DecidableEq, Repr

/-- `OptAll`. -/
def Opt.all : Opt := ⟨true, true, true, true⟩

/-- The bits of `enum Check`. -/
structure Check where
  divisionByZero : Bool
  nullPointerAccess : Bool
  deriving DecidableEq, Repr

/-- `CheckNone`. -/
def Check.none : Check := ⟨false, false⟩

/-- `class Optimizer`. The sort is by `deep_compare`; a sort permutes its argument. -/
structure Optimizer where
  flags : Opt
  check : Check
  sort : List Expr → List Expr
  sort_perm : ∀ nodes, (sort nodes).Perm nodes

/-- The default checks, with a stable sort. -/
def Optimizer.ofFlags (flags : Opt) : Optimizer where
  flags := flags
  check := .none
  sort nodes := nodes.insertionSort fun a b => Expr.deepCompare b a ≠ .lt
  sort_perm nodes := List.perm_insertionSort _ nodes

namespace Expr

/-- `operator bool`. -/
def isValid (e : Expr) : Bool := e.kind != .bad

/-- `is<Expr>()`. -/
def toExpr (e : Expr) : Expr := if e.type.isExpr then e else none

/-- `Const{func, value}`. -/
def ofValue (v : Value) : Expr :=
  if v.isValid then const (Imm.readBack v) (if Imm.directOf v ≠ 0 then .direct else .fresh)
  else none

/-- `Const{kind, uint16_t}`. -/
def ofUint16 (k : Kind) (val : BitVec 16) : Expr :=
  const (Imm.toConst (Imm.directOfUint16 k.nosimd val)) .direct

def voidExpr : Expr := ofUint16 .void 0
def trueExpr : Expr := ofUint16 .bool 1
def falseExpr : Expr := ofUint16 .bool 0

/-- `Zero`. -/
def zero (k : Kind) : Expr := ofUint16 k 0

/-- `One`. -/
def one (k : Kind) : Expr :=
  if k = .float32 then ofValue (.ofFloat32 1)
  else if k = .float64 ∨ k = .float128 then ofValue (.ofFloat64 1)
  else ofUint16 k 1

/-- `Two`. -/
def two (k : Kind) : Expr :=
  if k = .float32 then ofValue (.ofFloat32 2)
  else if k = .float64 ∨ k = .float128 then ofValue (.ofFloat64 2)
  else ofUint16 k 2

/-- `Binary{func, op, x, y}`, which autodetects the kind. -/
def newBinary (op : Op2) (x y : Expr) : Expr :=
  binary (if op = .bad2 then .bad else if op.val ≤ Op2.shr.val then x.kind else .bool) op x y .fresh

/-- `Tuple{func, op, x, y}`. -/
def newTuple (op : OpN) (x y : Expr) : Expr := tuple x.kind op [x, y] .fresh

/-- The node has type `TUPLE` and this kind and operator. -/
def hasHeader (k : Kind) (op : OpN) : Expr → Bool
  | tuple k' op' _ _ => k' == k && op' == op
  | _ => false

def isVar : Expr → Bool
  | var _ _ => true
  | _ => false

def isConst : Expr → Bool
  | const _ _ => true
  | _ => false

end Expr

namespace Optimizer

open Expr

/-- `same_children`. -/
def sameChildren : List Expr → List Expr → Bool
  | [], [] => true
  | x :: xs, y :: ys => sameNode x y && sameChildren xs ys
  | _, _ => false

/-- `allow_mask_pure`. -/
def allowMaskPure (o : Optimizer) : Allow :=
  ⟨!o.check.divisionByZero, !o.check.nullPointerAccess, false⟩

/-! ## Unary expressions -/

/-- `simplify_unary`. -/
def simplifyUnary (kind : Kind) (op : Op1) (x : Expr) : Expr :=
  let self := if (op == .cast || op == .bitcopy) && kind == x.kind then x else .none
  match x with
  | .unary _ xop xx _ =>
    let xx := xx.toExpr
    if xx.isValid then
      match op, xop with
      | .xor1, .xor1 => xx
      | .neg1, .neg1 => xx
      | .neg1, .xor1 => newTuple .add xx (one xx.kind)
      | .xor1, .neg1 => newBinary .sub xx (one xx.kind)
      | _, _ => self
    else self
  | .binary _ bop bx by' _ =>
    if op == .not1 && bop.isComparison then newBinary bop.notComparison bx.toExpr by'.toExpr
    else self
  | _ => self

/-- `try_optimize(Unary)`. -/
def tryOptimizeUnary (o : Optimizer) (kind : Kind) (op : Op1) (x : Expr) : Expr :=
  let x := x.toExpr
  let simplified := if o.flags.simplifyExpr then simplifyUnary kind op x else .none
  if x.isValid then
    match x with
    | .const v _ =>
      let folded := evalUnaryOp kind op v
      if o.flags.foldConstant && v.isValid && folded.isValid then ofValue folded else simplified
    | _ => simplified
  else .none

/-! ## Binary expressions -/

/-- `simplify_comma`. -/
def simplifyComma (o : Optimizer) (args : List Expr) : Expr :=
  match args.getLast? with
  | Option.none => voidExpr
  | some last =>
    let kept := args.dropLast.filter fun arg => !arg.deepPure o.allowMaskPure
    if kept.isEmpty then last else .tuple .void .comma (kept ++ [last]) .fresh

/-- The operands of a comparison with constants to the right. -/
def swapsOperands (op : Op2) (x y : Expr) : Bool :=
  decide (y.type.toNat < x.type.toNat) && op.isComparison

/-- `partial_eval_binary`. -/
def partialEvalBinary (op : Op2) (x y : Expr) : Expr :=
  let changed := swapsOperands op x y
  let op' := if changed then op.swapComparison else op
  let x' := if changed then y else x
  let y' := if changed then x else y
  let swapped := if changed && x'.isValid && y'.isValid then newBinary op' x' y' else .none
  match y' with
  | .const c _ =>
    let identity := Value.identity2 x'.kind op'
    if identity.isValid && (identity.eq c).toBool then x' else swapped
  | _ => swapped

/-- `simplify_sub`, `simplify_quo` and `simplify_rem`: an operator on twice the same operand. -/
def simplifySelf (o : Optimizer) (x y result : Expr) : Expr :=
  if deepEqual o.allowMaskPure x y then result else .none

def simplifySub (o : Optimizer) (x y : Expr) : Expr := o.simplifySelf x y (zero x.kind)
def simplifyQuo (o : Optimizer) (x y : Expr) : Expr := o.simplifySelf x y (one x.kind)
def simplifyRem (o : Optimizer) (x y : Expr) : Expr := o.simplifySelf x y (zero x.kind)

/-- `simplify_boolean`. -/
def simplifyBoolean (o : Optimizer) (op : Op2) (x y : Expr) : Expr :=
  match op, x, y with
  | .land, .const xc _, y => if xc.toBool then y else x
  | .land, x, .const yc _ => if yc.toBool then x else o.simplifyComma [x, y]
  | .lor, .const xc _, y => if xc.toBool then x else y
  | .lor, x, .const yc _ => if yc.toBool then o.simplifyComma [x, y] else x
  | _, _, _ => .none

/-- `simplify_comparison`. -/
def simplifyComparison (o : Optimizer) (op : Op2) (x y : Expr) : Expr :=
  match y with
  | .const cy _ =>
    if y.kind.isUnsigned && cy.isZero.toBool then
      match op with
      | .lss => o.simplifyComma [x, falseExpr]
      | .leq => newBinary .eql x y
      | .geq => o.simplifyComma [x, trueExpr]
      | .gtr => newBinary .neq x y
      | _ => .none
    else .none
  | _ =>
    if deepEqual o.allowMaskPure x y then
      match op with
      | .lss | .neq | .gtr => falseExpr
      | .leq | .eql | .geq => trueExpr
      | _ => .none
    else .none

/-- The rules of one operator, tried after `partial_eval_binary`. -/
def simplifyOp (o : Optimizer) (op : Op2) (x y : Expr) : Expr :=
  match op with
  | .sub => o.simplifySub x y
  | .quo => o.simplifyQuo x y
  | .rem => o.simplifyRem x y
  | .land | .lor => o.simplifyBoolean op x y
  | .lss | .leq | .neq | .eql | .gtr | .geq => o.simplifyComparison op x y
  -- `simplify_shift` does nothing
  | .shl | .shr | .bad2 => .none

/-- `simplify_binary`. -/
def simplifyBinary (o : Optimizer) (op : Op2) (x y : Expr) : Expr :=
  let expr := partialEvalBinary op x y
  if expr.isValid then
    match expr with
    | .binary _ op' x' y' _ =>
      let expr2 := o.simplifyOp op' x'.toExpr y'.toExpr
      if expr2.isValid then expr2 else expr
    | _ => expr
  else o.simplifyOp op x y

/-- `try_optimize(Binary)`. -/
def tryOptimizeBinary (o : Optimizer) (op : Op2) (x y : Expr) : Option Expr :=
  let x := x.toExpr
  let y := y.toExpr
  let simplified := if o.flags.simplifyExpr then o.simplifyBinary op x y else .none
  if x.isValid && y.isValid then
    match x, y with
    | .const v _, .const w _ =>
      if o.flags.foldConstant && v.isValid && w.isValid then do
        let folded ← evalBinaryOp op v w
        some (if folded.isValid then ofValue folded else simplified)
      else some simplified
    | _, _ => some simplified
  else some .none

/-! ## Tuples -/

/-- The operands in the order in which they are folded. -/
def arrange (o : Optimizer) (op : OpN) (children : List Expr) : List Expr :=
  if 1 < children.length && op.isCommutative then o.sort children else children

/-- The constants at the head of a list, and the rest. -/
def leadingConsts : List Expr → List Value × List Expr
  | .const v _ :: rest =>
    let (vs, kept) := leadingConsts rest
    (v :: vs, kept)
  | rest => ([], rest)

/-- The end of `partial_eval_tuple`, with `v` for the folded constants. -/
def rebuildTuple (kind : Kind) (op : OpN) (args : List Expr) (place : Place) (children : List Expr) :
    Expr :=
  if sameChildren args children then .tuple kind op args place
  else .tuple kind op children .fresh

/-- `partial_eval_tuple`. -/
def partialEvalTuple (o : Optimizer) (kind : Kind) (op : OpN) (args : List Expr) (place : Place)
    (children : List Expr) : Expr :=
  if op.isAssociative && (o.flags.fastMath || !kind.isFloat) then
    let identity := Value.identityN kind op
    let nodes := o.arrange op children
    -- constants are folded from the right
    let (consts, kept) :=
      if o.flags.foldConstant then leadingConsts nodes.reverse else ([], nodes.reverse)
    let v := consts.foldl (fun v c => evalTupleOp kind op [c, v]) identity
    if children.isEmpty then ofValue identity
    else if !consts.isEmpty && (v.ne identity).toBool then
      if (v.eq (Value.absorbing kind op)).toBool && kept.all isVar then ofValue v
      else if kept.isEmpty then (ofValue v).toExpr
      else rebuildTuple kind op args place (kept.reverse ++ [ofValue v])
    else
      match kept with
      | [] => ofValue v
      | [x] => x.toExpr
      | _ => rebuildTuple kind op args place kept.reverse
  else rebuildTuple kind op args place children

mutual

/-- `optimize(Node)` on an expression. The fuel bounds the depth of the calls; `optimizeFuel` is
enough. -/
def optimize (o : Optimizer) : Nat → Expr → Option Expr
  | 0, e => some e
  | fuel + 1, e =>
    match e with
    | .none | .const _ _ | .var _ _ | .label _ _ | .ftype _ _ => some e
    | .tuple kind op args place =>
      if o.flags.simplifyExpr then do
        let children ← flattenChildren o fuel kind op args
        let ret := o.partialEvalTuple kind op args place children
        some (if ret.isValid then ret else e)
      else some e
    | .mem kind args _ => do
      let children ← args.mapM (optimize o fuel)
      some (if sameChildren args children then e else .mem kind children .fresh)
    | .unary kind op x _ => do
      let x' ← optimize o fuel x
      let ret := o.tryOptimizeUnary kind op x'
      some (if ret.isValid then ret
        else if sameNode x x' then e else .unary kind op x' .fresh)
    | .binary kind op x y _ => do
      let x' ← optimize o fuel x
      let y' ← optimize o fuel y
      let ret ← o.tryOptimizeBinary op x' y'
      some (if ret.isValid then ret
        else if sameNode x x' && sameNode y y' then e else .binary kind op x' y' .fresh)

/-- `flatten_children_tobuf`, with the children optimized: what is appended to the buffer. -/
def flattenChildren (o : Optimizer) : Nat → Kind → OpN → List Expr → Option (List Expr)
  | 0, _, _, args => some args
  | fuel + 1, kind, op, args => do
    let chunks ← args.mapM fun child =>
      if child.hasHeader kind op then flattenChildren o fuel kind op child.children
      else do
        let child' ← optimize o fuel child
        if child'.hasHeader kind op then flattenChildren o fuel kind op child'.children
        else some [child']
    some chunks.flatten

end

mutual

/-- The nodes of a tree. -/
def size : Expr → Nat
  | .none | .const _ _ | .var _ _ | .label _ _ | .ftype _ _ => 1
  | .mem _ args _ => 1 + sizeList args
  | .unary _ _ x _ => 1 + size x
  | .binary _ _ x y _ => 1 + size x + size y
  | .tuple _ _ args _ => 1 + sizeList args

def sizeList : List Expr → Nat
  | [] => 0
  | x :: xs => size x + sizeList xs

end

/-- The fuel that `optimize` needs. -/
def optimizeFuel (e : Expr) : Nat := 2 * size e

end Optimizer

end OneJit
