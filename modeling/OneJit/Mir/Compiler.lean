import OneJit.CompileFunc
import OneJit.Mir.Insn

/-!
# From compiled nodes to MIR

`mir::Compiler` turns the nodes that `Compiler` has made of a function into MIR instructions, whose
operands are simple. It makes new variables of the function for what does not fit an operand.
-/

namespace OneJit.Mir

/-- `mir::Compiler`, with the kinds of the variables of its `Func` and the number of its labels. -/
structure Compiler where
  vars : List Kind
  labels : Nat
  nodes : List Insn
  errors : List Error

abbrev MirM := StateM Compiler

/-- `enum Mask`: what a simplified expression may be besides a variable. -/
structure Mask where
  const : Bool
  mem : Bool
  deriving DecidableEq, Repr

namespace Mask

def toVar : Mask := ⟨false, false⟩
def toVarOrConst : Mask := ⟨true, false⟩
def toVarOrMem : Mask := ⟨false, true⟩
def toAny : Mask := ⟨true, true⟩

/-- The mask beside an operand: an instruction has one memory operand. -/
def beside (e : Expr) : Mask := if e.type = .mem then toVarOrConst else toAny

def and (m m' : Mask) : Mask := ⟨m.const && m'.const, m.mem && m'.mem⟩

end Mask

/-- `MinusOne`. -/
def minusOne (kind : Kind) : Expr := .ofValue (Value.minusOne kind)

/-- `Tuple{func, Void, MIR_RETS, nodes}`. -/
def mirRets (nodes : List Expr) : Expr := .tuple .void .mirRets nodes .fresh

namespace Compiler

open Expr

/-- `add`. -/
def add (insn : Insn) : MirM Unit := modify fun c => { c with nodes := c.nodes ++ [insn] }

/-- `add`, under a condition. -/
def addIf (b : Bool) (insn : Insn) : MirM Unit := if b then add insn else pure ()

/-- `error`. -/
def error (node : Stmt) (msg : String) : MirM Unit :=
  modify fun c => { c with errors := c.errors ++ [⟨node, msg⟩] }

/-- `error`, under a condition. -/
def errorIf (b : Bool) (node : Stmt) (msg : String) : MirM Unit :=
  if b then error node msg else pure ()

/-- The variable of a function with this kind and position. -/
def varOf (kind : Kind) (i : Nat) : Expr :=
  .var kind (if kind = .void then 0 else i + OneJit.Compiler.firstId)

/-- `Var{func, kind}`. -/
def newVar (kind : Kind) : MirM Expr := fun c =>
  if kind ≠ .bad ∧ (kind = .void ∨ c.vars.length + OneJit.Compiler.firstId < 2 ^ 24) then
    (varOf kind c.vars.length, { c with vars := c.vars ++ [kind] })
  else (.none, c)

/-- `Func::new_label`. -/
def newLabel : MirM Expr := fun c =>
  if c.labels ≤ 0xFFFF then
    (.label (BitVec.ofNat 16 c.labels) 0, { c with labels := c.labels + 1 })
  else (.none, c)

/-- `opt_dst ? opt_dst : Var{func, kind}`. -/
def dstOr (optDst : Expr) (kind : Kind) : MirM Expr :=
  if optDst.isValid then pure optDst else newVar kind

/-- `to_var`. -/
def toVar (e optDst : Expr) : MirM Expr :=
  if !e.isValid then do
    error (.expr e) "invalid Expr"
    return .none
  else if optDst.isVar then do
    add (.insn2 (mirMov optDst.kind) optDst e)
    return optDst
  else if e.isVar then pure e
  else do
    let v ← newVar e.kind
    add (.insn2 (mirMov v.kind) v e)
    return v

/-! ## Memory operands -/

/-- `class Address`. -/
structure Address where
  offset : BitVec 64
  base : Expr
  index : Expr
  scale : BitVec 64

/-- The product of an expression and a constant, which may become a scaled index. -/
def scaledIndex : Expr → Option (Expr × BitVec 64)
  | .tuple _ .mul [x, .const v _] _ =>
    if x.isValid && v.isValid && !v.kind.isFloat then some (x, v.bits) else .none
  | _ => .none

/-- A power of two between 1 and 8. -/
def isScale (scale : BitVec 64) : Bool := scale == 1 || scale == 2 || scale == 4 || scale == 8

/-- The end of `Address::insert`. What comes after the index is dropped. -/
def insertFallback (address : Address) (e : Expr) : MirM Address :=
  if !address.base.isValid then do
    let v ← toVar e .none
    return { address with base := v }
  else if !address.index.isValid then do
    let v ← toVar e .none
    return { address with index := v, scale := 1 }
  else pure address

/-- `Address::insert`. A constant becomes the offset, and is taken again for the base. -/
def insertAddress (address : Address) (e : Expr) : MirM (Option Address) :=
  if !e.toExpr.isValid then pure .none
  else match e with
    | .const v _ =>
      some <$> insertFallback
        (if address.offset = 0 ∧ ¬e.kind.isFloat then { address with offset := v.bits } else address) e
    | _ =>
      match if address.index.isValid then .none else scaledIndex e with
      | some (x, scale) => do
        let v ← toVar x .none
        if v.isValid && isScale scale then return some { address with index := v, scale := scale }
        else some <$> insertFallback address e
      | .none => some <$> insertFallback address e

/-- `Address::insert` on a list. -/
def insertAll : List Expr → Address → MirM (Option Address)
  | [], address => pure (some address)
  | e :: es, address => do
    match ← insertAddress address e with
    | some address => insertAll es address
    | .none => return .none

/-- The children of `Mem::create`. -/
def memChildren (address : Address) : List Expr :=
  let offset := if address.offset ≠ 0 then ofValue ⟨address.offset, .int64⟩ else .none
  if address.index.isValid then
    [offset, address.base, address.index, ofUint16 ⟨.uint8, 0⟩ (address.scale.setWidth 16)]
  else if address.base.isValid then [offset, address.base]
  else if address.offset ≠ 0 then [offset]
  else []

/-- `Mem{comp, kind, children}`. -/
def createMem (kind : Kind) (children : List Expr) : MirM Expr := do
  match ← insertAll children ⟨0, .none, .none, 1⟩ with
  | some address => return .mem kind (memChildren address) .fresh
  | .none => return .none

/-! ## Expressions -/

/-- `simplify(Const)`. -/
def simplifyConst (e : Expr) (mask : Mask) (optDst : Expr) : MirM Expr :=
  if mask.const then pure e else toVar e optDst

/-- What `simplify(Unary)` emits for its simplified operand. -/
def emitUnary (e : Expr) (kind : Kind) (op : Op1) (x optDst : Expr) : MirM Expr := do
  let kfrom := x.kind
  let dst ← dstOr optDst kind
  let c := if kfrom.bitsize = 64 then OpClass.l else .s
  match op with
  | .xor1 =>
    add (.insn3 (.arith .xor c) dst x (minusOne kfrom))
    return dst
  | .not1 =>
    add (.insn3 (.compare .eq c) dst x (zero kfrom))
    return dst
  | .neg1 =>
    add (.insn2 (mirNeg kfrom) dst x)
    return dst
  | .cast =>
    add (.insn2 (mirCast kind kfrom) dst x)
    return dst
  | .bitcopy =>
    error (.expr e) "unimplemented Unary operand: BITCOPY"
    return dst
  | .bad1 =>
    error (.expr e) "unexpected Unary expression operand"
    return .none

/-- The operator of `simplify(Binary)`. -/
def binaryOp (op : OneJit.Op2) (kind : Kind) : Option Op3 :=
  match op with
  | .sub | .quo | .rem | .shl | .shr => some (mirArith2 op kind)
  | .lss | .leq | .neq | .eql | .gtr | .geq => some (mirCompare op kind)
  | .land | .lor | .bad2 => none

/-- What `simplify(Binary)` emits for its simplified operands. -/
def emitBinary (e : Expr) (kind : Kind) (op : OneJit.Op2) (x y optDst : Expr) : MirM Expr :=
  match binaryOp op kind with
  | .none => do
    error (.expr e) "unexpected Binary expression operand"
    return .none
  | some op => do
    let dst ← dstOr optDst kind
    add (.insn3 op dst x y)
    return dst

/-- `prepare_call_results`: what is returned, and the tuple of results. -/
def prepareCallResults (call fn address optDst : Expr) : MirM (Option (Expr × Expr)) :=
  match fn with
  | .ftype results _ =>
    if !address.isValid then do
      error (.expr call) "invalid Call: first two arguments must be FuncType, Expr"
      return .none
    else if optDst.isValid then
      match optDst with
      | .tuple _ op rets _ =>
        if rets.length ≠ results.length then do
          error (.expr call) "invalid Call destination: number of results does not match"
          return .none
        else if op ≠ .mirRets then do
          error (.expr optDst) "invalid Call destination OpN, expecting MIR_RETS"
          return .none
        else pure (some (optDst, optDst))
      | .var _ _ | .mem _ _ _ =>
        if results.length ≠ 1 then do
          error (.expr call) "invalid Call destination: number of results does not match"
          return .none
        else pure (some (optDst, mirRets [optDst]))
      | _ => do
        error (.expr optDst) "invalid Call destination type"
        return .none
    else do
      let vars ← results.mapM newVar
      return some (mirRets vars, mirRets vars)
  | _ => do
    error (.expr call) "invalid Call: first two arguments must be FuncType, Expr"
    return .none

/-- The loop of `simplify(Tuple)` on arithmetic operators. The operands are given by how they are
simplified. -/
def foldArith (op : Op3) (kind : Kind) (optDst : Expr) :
    Mask → Expr → List (Mask → MirM Expr) → MirM Expr
  | _, x, [] => pure x
  | mask, x, arg :: args => do
    let mask := mask.and (.beside x)
    let y ← arg mask
    let dst ← dstOr (if args.isEmpty then optDst else .none) kind
    add (.insn3 op dst x y)
    foldArith op kind optDst mask dst args

/-- The loop of `simplify(Tuple)` on `MAX` and `MIN`. -/
def foldMinMax (mov : Op2) (jmp : Op3) (optDst x : Expr) :
    Mask → Expr → List (Mask → MirM Expr) → MirM Expr
  | _, dst, [] => pure dst
  | mask, dst, arg :: args => do
    let mask := mask.and (.beside x)
    let y ← arg mask
    let last := args.isEmpty && optDst.isValid
    let dst' := if last then optDst else dst
    addIf last (.insn2 mov optDst dst)
    let l ← newLabel
    add (.insn3 jmp l dst' y)
    add (.insn2 mov dst' y)
    add (.label l)
    foldMinMax mov jmp optDst x mask dst' args

/-- `simplify(Tuple)` on the operators that are not `CALL`. -/
def simplifyTuple (e : Expr) (kind : Kind) (op : OpN) (optDst : Expr) (args : List (Mask → MirM Expr)) :
    MirM Expr :=
  let few : MirM Expr := do
    error (.expr e) "unexpected Tuple number of arguments, should be > 1"
    return .none
  match op with
  | .max | .min =>
    match args with
    | arg :: arg' :: args => do
      let mask := Mask.beside optDst
      let x ← arg mask
      let dst ← newVar kind
      add (.insn2 (mirMov kind) dst x)
      foldMinMax (mirMov kind) (mirJump (if op = .max then .geq else .leq) kind) optDst x mask dst
        (arg' :: args)
    | _ => few
  | .add | .mul | .and | .or | .xor =>
    match args with
    | arg :: arg' :: args => do
      let mask := Mask.beside optDst
      let x ← arg mask
      foldArith (mirArithN op kind) kind optDst mask x (arg' :: args)
    | _ => few
  | _ => do
    error (.expr e) "unexpected Tuple operand"
    return .none

/-- The sum of the children of a memory operand that `Mem{comp, kind, children}` rejects. -/
def createMemOfSum (again : Expr → Mask → MirM Expr) (kind : Kind) (children : List Expr) :
    MirM Expr := do
  let arg ← simplifyTuple (.tuple .ptr .add children .fresh) .ptr .add .none
    (children.map fun child mask => again child mask)
  createMem kind [arg]

/-- What `simplify(Mem)` returns for a memory operand. -/
def emitMov (e : Expr) (kind : Kind) (mask : Mask) (optDst mem : Expr) : MirM Expr :=
  if !mem.isValid then do
    error (.expr e) "internal error: failed to compile onejit::mir::Mem"
    return .none
  else if mask.mem then pure mem
  else do
    let dst ← dstOr (if optDst.isVar then optDst else .none) kind
    add (.insn2 (mirMov kind) dst mem)
    return dst

/-- What `simplify(Mem)` does with its simplified children. -/
def emitMem (again : Expr → Mask → MirM Expr) (e : Expr) (kind : Kind) (children : List Expr)
    (mask : Mask) (optDst : Expr) : MirM Expr := do
  let mem ← createMem kind children
  if mem.isValid then emitMov e kind mask optDst mem
  else do
    let mem ← createMemOfSum again kind children
    emitMov e kind mask optDst mem

mutual

/-- `simplify(Expr)`. What is simplified already is simplified once more where a memory operand has
a child that is invalid, see `simplify`. -/
def simplifyWith (again : Expr → Mask → MirM Expr) (e : Expr) (mask : Mask) (optDst : Expr) :
    MirM Expr :=
  match e with
  | .var kind id => pure (.var kind id)
  | .label index address => pure (.label index address)
  | .const v p => simplifyConst (.const v p) mask optDst
  | .mem kind args p => do
    let children ← simplifyArgs again args .toVarOrConst
    emitMem again (.mem kind args p) kind children mask optDst
  | .unary kind op x p => do
    let x' ← simplifyWith again x (.beside optDst) .none
    emitUnary (.unary kind op x p) kind op x' optDst
  | .binary kind op x y p => do
    let mask := Mask.beside optDst
    let x' ← simplifyWith again x mask .none
    let y' ← simplifyWith again y (mask.and (.beside x')) .none
    emitBinary (.binary kind op x y p) kind op x' y' optDst
  | .tuple kind .call (fn :: address :: args) p => do
    match ← prepareCallResults (.tuple kind .call (fn :: address :: args) p) fn address optDst with
    | .none => return .none
    | some (ret, results) =>
      let children ← simplifyArgs again args .toVar
      add (.call fn address results children)
      return ret
  | .tuple kind .call args p => do
    error (.expr (.tuple kind .call args p))
      "invalid Call: first two arguments must be FuncType, Expr"
    return .none
  | .tuple kind op args p =>
    simplifyTuple (.tuple kind op args p) kind op optDst (operands again args)
  | _ => do
    error (.expr .none) "unexpected Expr"
    return .none

/-- The loop that simplifies a list of operands. -/
def simplifyArgs (again : Expr → Mask → MirM Expr) (args : List Expr) (mask : Mask) :
    MirM (List Expr) :=
  match args with
  | [] => pure []
  | arg :: args => do
    let e ← simplifyWith again arg mask .none
    let es ← simplifyArgs again args mask
    return e :: es

/-- How the operands of a tuple are simplified. -/
def operands (again : Expr → Mask → MirM Expr) : List Expr → List (Mask → MirM Expr)
  | [] => []
  | arg :: args => (fun mask => simplifyWith again arg mask .none) :: operands again args

end

/-- `simplify(Expr)`. A simplified expression is a variable, a constant, a label, a memory operand,
the results of a call or invalid, and has no memory operand with an invalid child. -/
def simplify : Expr → Mask → Expr → MirM Expr :=
  simplifyWith fun e mask => simplifyWith (fun e _ => pure e) e mask .none

/-! ## Statements -/

/-- The operand of `INC` and `DEC`: an instruction has one memory operand. -/
def memToVar (e : Expr) : MirM Expr := if e.type = .mem then toVar e .none else pure e

/-- `compile(Stmt1)`. -/
def compileStmt1 (op : OpStmt1) (arg : Expr) : MirM Unit := do
  let e ← simplify arg .toAny .none
  match op with
  | .goto => add (.jmp e)
  | .inc | .dec =>
    let tmp ← memToVar e
    add (.insn3 (.arith (if op = .inc then .add else .sub) .l) e tmp (one e.kind))
  | _ => error (.stmt1 op arg) "unexpected Stmt1 operation"

/-- The operand that stands for the destination of a compound assignment. -/
def toTmp (dst : Expr) : MirM Expr :=
  if dst.isVar then pure dst
  else do
    let tmp ← newVar dst.kind
    add (.insn2 (mirMov dst.kind) tmp dst)
    return tmp

/-- `compile(Assign)`. -/
def compileAssign (op : OpStmt2) (dst src : Expr) : MirM Unit := do
  let dst ← simplify dst .toAny .none
  if op = .assign then do
    let src ← simplify src (.beside dst) dst
    -- a source is simplified to a memory operand only when that is the destination
    addIf (!(sameNode src dst || dst.type = .mem && src.type = .mem))
      (.insn2 (mirMov dst.kind) dst src)
  else do
    let tmp ← toTmp dst
    let src ← simplify src (if dst.isVar then .toAny else .toVarOrConst) .none
    add (.insn3 (mirArith op dst.kind) dst tmp src)

/-- `compile(Stmt2)`. -/
def compileStmt2 (op : OpStmt2) (a b : Stmt) : MirM Unit :=
  if op.isAssign then compileAssign op (a.toExpr) (b.toExpr)
  else error (.stmt2 op a b) "unexpected Stmt2"

/-- `compile(Stmt3)`. -/
def compileStmt3 (op : OpStmt3) (a b c : Stmt) : MirM Unit :=
  match op with
  | .asmJa | .asmJae | .asmJb | .asmJbe | .asmJe | .asmJg | .asmJge | .asmJl | .asmJle | .asmJne =>
    do
    let x ← simplify (b.toExpr) .toAny .none
    let y ← simplify (c.toExpr) .toAny .none
    add (.insn3 (mirJumpAsm op x.kind) (a.toLabel) x y)
  | _ => error (.stmt3 op a b c) "unexpected Stmt3"

/-- The children of a statement, simplified one after another. -/
def simplifyAll (mask : Mask) : List Stmt → MirM (List Expr)
  | [] => pure []
  | st :: sts => do
    let e ← simplify (st.toExpr) mask .none
    let es ← simplifyAll mask sts
    return e :: es

/-- `is<Call>()`. -/
def isCall : Stmt → Bool
  | .expr (.tuple _ .call _ _) => true
  | _ => false

/-- `compile(AssignCall)`. The loop over the destinations goes on to the call itself, which is
simplified there once more. -/
def compileAssignCall (args : List Stmt) : MirM Unit :=
  match args.getLast? with
  | some call =>
    if isCall call then do
      let all ← simplifyAll .toVarOrMem args
      let dst := mirRets all.dropLast
      let results ← simplify (call.toExpr) .toAny dst
      -- the results are the destination, or invalid
      errorIf (!results.isValid) (.stmtN .assignCall args)
        "internal error: miscompiled Call, results are not stored in expected variables"
    else error (.stmtN .assignCall args) "missing Call inside AssignCall"
  | .none => error (.stmtN .assignCall args) "missing Call inside AssignCall"

mutual

/-- `compile(Node)`. -/
def compile : Stmt → MirM Unit
  | .stmt0 op => error (.stmt0 op) "unexpected Stmt0"
  | .stmt1 op arg => compileStmt1 op arg
  | .stmt2 op a b => compileStmt2 op a b
  | .stmt3 op a b c => compileStmt3 op a b c
  | .stmt4 op a b c d => error (.stmt4 op a b c d) "unexpected Stmt4"
  | .stmtN .assignCall args => compileAssignCall args
  | .stmtN .block args => compileBlock args
  | .stmtN .return args => do
    let es ← simplifyAll .toVar args
    add (.ret es)
  | .stmtN .set _ => pure ()
  | .stmtN op args => error (.stmtN op args) "unexpected StmtN"
  | .expr e =>
    if e.toExpr.isValid then do
      let e ← simplify e .toAny .none
      addIf (e.type = .label) (.label e)
    else if e.type = .stmt0 then error (.expr e) "unexpected Stmt0"
    else error (.expr e) "unexpected Node"

/-- `compile(Block)`. -/
def compileBlock : List Stmt → MirM Unit
  | [] => pure ()
  | st :: sts => do
    compile st
    compileBlock sts

end

end Compiler

end OneJit.Mir
