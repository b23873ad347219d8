import OneJit.Value

/-!
# Intermediate representation

Expressions and statements as trees. A node of the source is a header with either the data of a
direct leaf or the position of its children in the code; `Place` keeps that position, because
two nodes are identical when their positions are, and nothing else depends on it.
-/

namespace OneJit

/-- Where a node is: a direct leaf, a node at an offset of the code, or a node that a pass has
just appended, which is identical to no other. -/
inductive Place
  | direct
  | at (offset : Nat)
  | fresh
  deriving DecidableEq, Repr

/-- `class Expr`. A constant carries the value that is read back from the code, and a memory
operand is a generic one, with operator `MEM_OP`. -/
inductive Expr
  | none
  | const (v : Value) (place : Place)
  | var (kind : Kind) (id : Nat)
  | label (index : BitVec 16) (address : BitVec 64)
  | ftype (results params : List Kind)
  | mem (kind : Kind) (args : List Expr) (place : Place)
  | unary (kind : Kind) (op : Op1) (x : Expr) (place : Place)
  | binary (kind : Kind) (op : Op2) (x y : Expr) (place : Place)
  | tuple (kind : Kind) (op : OpN) (args : List Expr) (place : Place)

/-- Statements. `Expr` is a node like any other, so it may stand where a statement does. -/
inductive Stmt
  | expr (e : Expr)
  | stmt0 (op : OpStmt0)
  | stmt1 (op : OpStmt1) (arg : Expr)
  | stmt2 (op : OpStmt2) (a b : Stmt)
  | stmt3 (op : OpStmt3) (a b c : Stmt)
  | stmt4 (op : OpStmt4) (a b c d : Stmt)
  | stmtN (op : OpStmtN) (args : List Stmt)

instance : Coe Expr Stmt := ⟨.expr⟩

namespace Expr

instance : Inhabited Expr := ⟨.none⟩

def kind : Expr → Kind
  | none => .bad
  | const v _ => v.kind
  | var k _ => k
  | label _ _ => .void
  | ftype results _ => results.head?.getD .void
  | mem k _ _ => k
  | unary k _ _ _ => k
  | binary k _ _ _ _ => k
  | tuple k _ _ _ => k

def type : Expr → NodeType
  | none => .stmt0
  | const _ _ => .const
  | var _ _ => .var
  | label _ _ => .label
  | ftype _ _ => .ftype
  | mem _ _ _ => .mem
  | unary _ _ _ _ => .unary
  | binary _ _ _ _ _ => .binary
  | tuple _ _ _ _ => .tuple

/-- `child(i)` for every `i`. -/
def children : Expr → List Expr
  | none | const _ _ | var _ _ | label _ _ | ftype _ _ => []
  | mem _ args _ => args
  | unary _ _ x _ => [x]
  | binary _ _ x y _ => [x, y]
  | tuple _ _ args _ => args

/-- `is<Label>().index()`. -/
def labelIndex : Expr → Option (BitVec 16)
  | label index _ => some index
  | _ => Option.none

/-- Induction over an expression and all lists of children in it. -/
theorem induct {P : Expr → Prop} (hnone : P none) (hconst : ∀ v p, P (const v p))
    (hvar : ∀ k i, P (var k i)) (hlabel : ∀ i a, P (label i a)) (hftype : ∀ r p, P (ftype r p))
    (hmem : ∀ k args p, (∀ a ∈ args, P a) → P (mem k args p))
    (hunary : ∀ k op x p, P x → P (unary k op x p))
    (hbinary : ∀ k op x y p, P x → P y → P (binary k op x y p))
    (htuple : ∀ k op args p, (∀ a ∈ args, P a) → P (tuple k op args p)) (e : Expr) : P e :=
  Expr.rec (motive_1 := P) (motive_2 := fun es => ∀ a ∈ es, P a)
    hnone hconst hvar hlabel hftype hmem hunary hbinary htuple
    (by simp) (fun x xs hx hxs => by simpa using ⟨hx, hxs⟩) e

/-- Induction over an expression by its children. -/
theorem induct_children {P : Expr → Prop} (h : ∀ e : Expr, (∀ x ∈ e.children, P x) → P e)
    (e : Expr) : P e := by
  induction e using Expr.induct with
  | hunary k op x p ih => exact h _ (by simpa [children] using ih)
  | hbinary k op x y p ihx ihy => exact h _ (by simpa [children] using ⟨ihx, ihy⟩)
  | hmem k args p ih | htuple k op args p ih => exact h _ ih
  | _ => exact h _ (by simp [children])

/-- `s` is `e` or an expression in it. -/
inductive Within (s : Expr) : Expr → Prop
  | self : Within s s
  | child {x e : Expr} (hx : x ∈ e.children) (h : Within s x) : Within s e

theorem Within.trans {r s e : Expr} (hr : r.Within s) (hs : s.Within e) : r.Within e := by
  induction hs with
  | self => exact hr
  | child hx _ ih => exact .child hx ih

end Expr

namespace Stmt

/-- `is<Label>()` of `child(0)`, as the index of the label. -/
def childLabel : Stmt → Option (BitVec 16)
  | stmt1 _ arg => arg.labelIndex
  | stmt2 _ (expr e) _ => e.labelIndex
  | stmt3 _ (expr e) _ _ => e.labelIndex
  | stmt4 _ (expr e) _ _ _ => e.labelIndex
  | expr e => (e.children.head?).bind Expr.labelIndex
  | _ => none

/-- Induction over a statement and all lists of children in it. -/
theorem induct {P : Stmt → Prop} (hexpr : ∀ e, P (expr e)) (hstmt0 : ∀ op, P (stmt0 op))
    (hstmt1 : ∀ op arg, P (stmt1 op arg)) (hstmt2 : ∀ op a b, P a → P b → P (stmt2 op a b))
    (hstmt3 : ∀ op a b c, P a → P b → P c → P (stmt3 op a b c))
    (hstmt4 : ∀ op a b c d, P a → P b → P c → P d → P (stmt4 op a b c d))
    (hstmtN : ∀ op args, (∀ st ∈ args, P st) → P (stmtN op args)) (st : Stmt) : P st :=
  Stmt.rec (motive_1 := P) (motive_2 := fun sts => ∀ st ∈ sts, P st)
    hexpr hstmt0 hstmt1 hstmt2 hstmt3 hstmt4 hstmtN
    (by simp) (fun x xs hx hxs => by simpa using ⟨hx, hxs⟩) st

end Stmt

end OneJit
