import OneJit.GoJit.Optimize
import OneJit.GoJit.SoftRegs

/-!
# The compiler of expressions and statements

`Comp` turns expression trees into a list of assembly instructions, with temporary soft registers
for the inner results. Ids of temporary registers come from a counter, which only the free of the
topmost one takes back.
-/

namespace OneJit.GoJit

def firstTempRegId : Nat := 0x800000

def lastTempRegId : Nat := 0xFFFFFF

namespace SoftReg

/-- `MakeSoftReg`: only the low 24 bits of the id fit. -/
def make (id : Nat) (kind : Kind) : SoftReg := ⟨BitVec.ofNat 24 id, kind⟩

/-- The zero value. -/
def zero : SoftReg := ⟨0, .invalid⟩

/-- `Valid`. -/
def valid (s : SoftReg) : Bool := s.kind != .invalid

/-- `IsTemp`. -/
def isTemp (s : SoftReg) : Bool := firstTempRegId ≤ s.id.toNat

end SoftReg

/-- An operand of the compiler's code: an operand of the assembler or a soft register. -/
inductive Leaf
  | arg (a : Arg)
  | soft (s : SoftReg)
  deriving DecidableEq, Repr

def Leaf.kind : Leaf → Kind
  | arg a => a.kind
  | soft s => s.kind

/-- Operators of unary expressions: conversions, `NEG` and `NOT`. -/
inductive ExprOp1
  | cast (kind : Kind)
  | neg
  | not
  deriving DecidableEq, Repr

/-- `Op1.Asm`. -/
def ExprOp1.asm : ExprOp1 → Op2
  | cast _ => .cast
  | neg => .neg2
  | not => .not2

/-- `Expr`: `Expr1` and `Expr2` have the kind of their value. -/
inductive Expr
  | leaf (l : Leaf)
  | expr1 (x : Expr) (op : ExprOp1) (k : Kind)
  | expr2 (x y : Expr) (op : Op3) (k : Kind)
  deriving DecidableEq, Repr

namespace Expr

def kind : Expr → Kind
  | leaf l => l.kind
  | expr1 _ _ k => k
  | expr2 _ _ _ k => k

/-- `IsLeaf`. -/
def isLeaf : Expr → Bool
  | leaf _ => true
  | _ => false

end Expr

/-- An instruction with its operands, in the order of the assembler. -/
inductive AsmCode
  | op1 (op : ExprOp1) (src dst : Leaf)
  | op2 (op : Op3) (a b dst : Leaf)
  | inst1 (inst : Op1) (dst : Leaf)
  | inst2 (inst : Op2) (src dst : Leaf)
  | inst3 (inst : Op3) (dst darg src : Leaf)
  | alloc (s : SoftReg)
  | free (s : SoftReg)
  deriving DecidableEq, Repr

/-- What `Comp` keeps. The list of the numbers that `newTempReg` took is for the theorems only. -/
structure Comp where
  code : List AsmCode
  nextTempReg : Nat
  taken : List Nat
  deriving DecidableEq, Repr

namespace Comp

/-- What `InitArch` sets. -/
def init : Comp := ⟨[], firstTempRegId, []⟩

def emit (c : Comp) (i : AsmCode) : Comp := { c with code := c.code ++ [i] }

/-- `Code.Inst2`. -/
def inst2 (c : Comp) (inst : Op2) (dst src : Leaf) : Comp :=
  if inst ≠ .mov ∨ src ≠ dst then c.emit (.inst2 inst src dst) else c

/-- `newTempReg`. -/
def newTempReg (c : Comp) (kind : Kind) : SoftReg × Comp :=
  let id := c.nextTempReg
  let s := SoftReg.make id kind
  (s, { c with nextTempReg := (id + 1) % 2 ^ 32, taken := c.taken ++ [id] }.emit (.alloc s))

/-- `freeTempReg`. -/
def freeTempReg (c : Comp) (s : SoftReg) : Comp :=
  if s.valid && s.isTemp then
    { c with nextTempReg := if s.id.toNat + 1 = c.nextTempReg then c.nextTempReg - 1
                            else c.nextTempReg }.emit (.free s)
  else c

/-- The soft register that a destination is, or the zero value. -/
def dsoft : Option Leaf → SoftReg
  | some (.soft s) => s
  | _ => .zero

/-- The destination that is handed down to the left operand. -/
def dto (dst : Option Leaf) : Option Leaf := if (dsoft dst).valid then dst else none

/-- The end of `expr1` and of `expr2`. -/
def finish (c : Comp) (dst : Leaf) (dsoft tofree : SoftReg) : (Leaf × SoftReg) × Comp :=
  if dsoft.valid ∧ .soft dsoft ≠ dst then
    ((dst, .zero), (c.inst2 .mov dst (.soft dsoft)).freeTempReg tofree)
  else ((dst, dsoft), c)

/-- A temporary register of this kind is the destination, and is freed. -/
def fresh (c : Comp) (k : Kind) : (SoftReg × SoftReg) × Comp :=
  let (s, c) := c.newTempReg k
  ((s, s), c)

/-- The destination of `expr1`: the destination, its soft register and what is to be freed. -/
def dest1 (c : Comp) (k : Kind) (dst : Option Leaf) (ssoft : SoftReg) :
    (Leaf × SoftReg × SoftReg) × Comp :=
  match dst with
  | none =>
    if ssoft.valid then
      let s : SoftReg := ⟨ssoft.id, k⟩
      ((.soft s, s, .zero), c)
    else
      let ((s, tofree), c) := c.fresh k
      ((.soft s, s, tofree), c)
  | some d =>
    if d.kind ≠ k then
      if (dsoft dst).valid then
        let s : SoftReg := ⟨(dsoft dst).id, k⟩
        ((.soft s, s, .zero), c)
      else
        let ((s, tofree), c) := c.fresh k
        ((.soft s, s, tofree), c)
    else ((d, dsoft dst, .zero), c)

/-- The destination of `expr2`. A given one of another kind is kept. -/
def dest2 (c : Comp) (op : Op3) (k : Kind) (dst : Option Leaf) (soft1 soft2 : SoftReg) :
    (Leaf × SoftReg × SoftReg) × Comp :=
  match dst with
  | none =>
    if soft1.valid then
      let s : SoftReg := ⟨soft1.id, k⟩
      ((.soft s, s, .zero), c)
    else if soft2.valid && op.isCommutative then
      let s : SoftReg := ⟨soft2.id, k⟩
      ((.soft s, s, .zero), c)
    else
      let ((s, tofree), c) := c.fresh k
      ((.soft s, s, tofree), c)
  | some d =>
    if d.kind ≠ k then
      if (dsoft dst).valid then ((d, ⟨(dsoft dst).id, k⟩, .zero), c)
      else
        let ((s, tofree), c) := c.fresh k
        ((d, s, tofree), c)
    else ((d, dsoft dst, .zero), c)

/-- The free of an operand that is not the destination. -/
def freeOther (c : Comp) (s dsoft : SoftReg) : Comp :=
  if s.id ≠ dsoft.id then c.freeTempReg s else c

/-- `Comp.expr`, with `expr1` and `expr2`. -/
def expr : Expr → Option Leaf → Comp → (Leaf × SoftReg) × Comp
  | .leaf l, _, c => ((l, .zero), c)
  | .expr1 x op k, dst, c =>
    let ((src, ssoft), c) := expr x (dto dst) c
    let ((d, ds, tofree), c) := c.dest1 k dst ssoft
    let c := c.emit (.op1 op src d)
    let c := c.freeOther ssoft ds
    c.finish d ds tofree
  | .expr2 x y op k, dst, c =>
    let ((src1, soft1), c) := expr x (dto dst) c
    let ((src2, soft2), c) := expr y none c
    let ((d, ds, tofree), c) := c.dest2 op k dst soft1 soft2
    let c := c.emit (.op2 op src1 src2 d)
    let c := c.freeOther soft1 ds
    let c := c.freeOther soft2 ds
    c.finish d ds tofree

end Comp

/-- `checkAssignable`. -/
def checkAssignable : Leaf → Except String Unit
  | .arg (.const _) => .error "cannot assign to constant"
  | _ => .ok ()

/-- `Stmt`. A unary statement without an instruction is a `NOP`. -/
inductive Stmt
  | stmt1 (inst : Option Op1) (dst : Expr)
  | stmt2 (inst : Op2) (dst src : Expr)
  | stmt3 (inst : Op3) (dst darg src : Expr)
  | stmtN (dst src : List Expr)
  deriving DecidableEq, Repr

namespace Comp

/-- `Stmt1`. -/
def stmt1 (c : Comp) (inst : Option Op1) (tdst : Expr) : Except String Comp := do
  let ((dst, soft), c) := expr tdst none c
  match inst with
  | none => return c.freeTempReg soft
  | some inst =>
    checkAssignable dst
    return (c.emit (.inst1 inst dst)).freeTempReg soft

/-- `Stmt2`. The destination may be overwritten early only by a plain `ASSIGN`. -/
def stmt2 (c : Comp) (inst : Op2) (tdst tsrc : Expr) : Except String Comp := do
  let ((dst, dsoft), c) := expr tdst none c
  checkAssignable dst
  let ((src, ssoft), c) := expr tsrc (if inst = .mov then some dst else none) c
  let c := (c.inst2 inst dst src).freeTempReg dsoft
  return c.freeOther ssoft dsoft

/-- `Stmt3`. -/
def stmt3 (c : Comp) (inst : Op3) (tdst tdarg tsrc : Expr) : Except String Comp :=
  let ((dst, dsoft), c) := expr tdst none c
  let ((darg, dasoft), c) := expr tdarg none c
  let ((src, ssoft), c) := expr tsrc none c
  .ok ((((c.emit (.inst3 inst dst darg src)).freeTempReg dsoft).freeTempReg dasoft).freeTempReg
    ssoft)

/-- The destinations of `StmtN`. -/
def dests : List Expr → Comp → Except String (List Leaf × Comp)
  | [], c => .ok ([], c)
  | x :: xs, c => do
    let ((e, _), c) := expr x none c
    checkAssignable e
    let (es, c) ← dests xs c
    return (e :: es, c)

/-- A source of `StmtN`: a memory operand is copied. -/
def source (x : Expr) (c : Comp) : Leaf × Comp :=
  let ((e, soft), c) := expr x none c
  match e with
  | .arg (.mem m) =>
    if soft.valid then (e, c)
    else
      let (s, c) := c.newTempReg m.reg.kind
      (.soft s, c.inst2 .mov (.soft s) e)
  | _ => (e, c)

/-- The sources of `StmtN`. -/
def sources : List Expr → Comp → List Leaf × Comp
  | [], c => ([], c)
  | x :: xs, c =>
    let (e, c) := source x c
    let (es, c) := sources xs c
    (e :: es, c)

/-- The assignments of `StmtN`. -/
def assigns : List Leaf → List Leaf → Comp → Comp
  | d :: ds, s :: ss, c => assigns ds ss (c.inst2 .mov d s)
  | _, _, c => c

/-- The end of `StmtN`, from the last operand to the first. -/
def freeAll (ls : List Leaf) (c : Comp) : Comp :=
  ls.foldr (fun l c => match l with
    | .soft s => if s.valid then c.freeTempReg s else c
    | _ => c) c

/-- `StmtN`. -/
def stmtN (c : Comp) (tdst tsrc : List Expr) : Except String Comp := do
  if tdst.length ≠ tsrc.length then
    throw "assignment mismatch"
  let (dst, c) ← dests tdst c
  let (src, c) := sources tsrc c
  return freeAll dst (freeAll src (assigns dst src c))

/-- `Stmt`. -/
def stmt (c : Comp) : Stmt → Except String Comp
  | .stmt1 inst dst => c.stmt1 inst dst
  | .stmt2 inst dst src => c.stmt2 inst dst src
  | .stmt3 inst dst darg src => c.stmt3 inst dst darg src
  | .stmtN dst src => c.stmtN dst src

end Comp

end OneJit.GoJit
