import OneJit.Imm
import OneJit.Refines

/-!
# Comparing trees

`deep_equal`, `deep_pure` and `deep_compare`. The first one compares the headers of two leaves
that are not direct, and nothing of what they hold: it takes two different out-of-line constants
of one kind for equal. `SameTree` is the equality it should decide.
-/

namespace OneJit

/-- The bits of `enum Allow` that are looked at. -/
structure Allow where
  division : Bool
  memAccess : Bool
  call : Bool
  deriving DecidableEq, Repr

namespace Expr

/-- The first index that does not fit a direct variable. -/
def directIds : Nat := 2 ^ 21

/-- `is_direct`. -/
def isDirect : Expr → Bool
  | none => true
  | const _ p => p == .direct
  | var _ id => id < directIds
  | _ => false

/-- `op()` of the header. -/
def opVal : Expr → Nat
  | none | const _ _ | var _ _ => 0
  | label index _ => index.toNat
  | ftype results _ => results.length
  | mem _ _ _ => OpN.memOp.val
  | unary _ op _ _ => op.val
  | binary _ op _ _ _ => op.val
  | tuple _ op _ _ => op.val

/-- The position of a node in the code. -/
def place : Expr → Place
  | const _ p | mem _ _ p | unary _ _ _ p | binary _ _ _ _ p | tuple _ _ _ p => p
  | _ => .direct

/-- Both nodes are the one at some offset. -/
def samePlace (p q : Place) : Bool :=
  match p, q with
  | .at m, .at n => m == n
  | _, _ => false

/-- `operator==`: both are the same node. Out-of-line variables, labels and function types are
created once. -/
def sameNode : Expr → Expr → Bool
  | none, none => true
  | const v p, const w q => (p == .direct && q == .direct && v == w) || samePlace p q
  | var k i, var k' j => k == k' && i == j
  | label i a, label j b => i == j && a == b
  | ftype r p, ftype r' p' => r == r' && p == p'
  | mem _ _ p, mem _ _ q => samePlace p q
  | unary _ _ _ p, unary _ _ _ q => samePlace p q
  | binary _ _ _ _ p, binary _ _ _ _ q => samePlace p q
  | tuple _ _ _ p, tuple _ _ _ q => samePlace p q
  | _, _ => false

mutual

/-- `deep_equal`. -/
def deepEqual (allow : Allow) : Expr → Expr → Bool
  | .none, .none => true
  | .const v p, .const w q =>
    v.kind == w.kind && (p == .direct) == (q == .direct) && (p != .direct || v.bits == w.bits)
  | .var k i, .var k' j =>
    k == k' && decide (i < directIds) == decide (j < directIds) && (!decide (i < directIds) || i == j)
  | .label i _, .label j _ => i == j
  | .ftype r ps, .ftype r' ps' =>
    r.length == r'.length && r.head? == r'.head? && r ++ ps == r' ++ ps'
  | .mem k xs p, .mem k' ys q =>
    k == k' && allow.memAccess && (samePlace p q || deepEqualList allow xs ys)
  | .unary k op x p, .unary k' op' y q =>
    k == k' && op == op' && (samePlace p q || deepEqual allow x y)
  | .binary k op x1 x2 p, .binary k' op' y1 y2 q =>
    k == k' && op == op' && (allow.division || (op != .quo && op != .rem)) &&
      (samePlace p q || (deepEqual allow x1 y1 && deepEqual allow x2 y2))
  | .tuple k op xs p, .tuple k' op' ys q =>
    k == k' && op == op' && (allow.call || op != .call) &&
      (samePlace p q || deepEqualList allow xs ys)
  | _, _ => false

def deepEqualList (allow : Allow) : List Expr → List Expr → Bool
  | [], [] => true
  | x :: xs, y :: ys => deepEqual allow x y && deepEqualList allow xs ys
  | _, _ => false

end

mutual

/-- `deep_pure`. -/
def deepPure (allow : Allow) : Expr → Bool
  | .none => false
  | .const _ _ | .var _ _ | .label _ _ | .ftype _ _ => true
  | .mem _ args _ => allow.memAccess && deepPureList allow args
  | .unary _ _ x _ => deepPure allow x
  | .binary _ op x y _ =>
    (allow.division || (op != .quo && op != .rem)) && deepPure allow x && deepPure allow y
  | .tuple _ op args _ => (allow.call || op != .call) && deepPureList allow args

def deepPureList (allow : Allow) : List Expr → Bool
  | [] => true
  | x :: xs => deepPure allow x && deepPureList allow xs

end

/-- `Header::order`. -/
def headerOrder (e : Expr) : Nat := (e.type.toNat * 2 ^ 8 + e.kind.val.toNat) * 2 ^ 16 + e.opVal

/-- The item of a direct leaf. -/
def directItem : Expr → Nat
  | const v _ => (Imm.directOf v).toNat
  | var _ id => id
  | _ => 0

mutual

/-- `deep_compare`. -/
def deepCompare (a b : Expr) : Ordering :=
  match compare a.headerOrder b.headerOrder with
  | .eq =>
    if a.isDirect != b.isDirect then if a.isDirect then .lt else .gt
    else if a.isDirect then compare a.directItem b.directItem
    else match a, b with
      | .mem _ xs p, .mem _ ys q => if samePlace p q then .eq else deepCompareList xs ys
      | .unary _ _ x p, .unary _ _ y q => if samePlace p q then .eq else deepCompare x y
      | .binary _ _ x1 x2 p, .binary _ _ y1 y2 q =>
        if samePlace p q then .eq else (deepCompare x1 y1).then (deepCompare x2 y2)
      | .tuple _ _ xs p, .tuple _ _ ys q => if samePlace p q then .eq else deepCompareList xs ys
      | .ftype r ps, .ftype r' ps' =>
        compare ((r ++ ps).map fun k => k.val.toNat) ((r' ++ ps').map fun k => k.val.toNat)
      | _, _ => .eq
  | cmp => cmp

def deepCompareList : List Expr → List Expr → Ordering
  | [], [] => .eq
  | [], _ :: _ => .lt
  | _ :: _, [] => .gt
  | x :: xs, y :: ys => (deepCompare x y).then (deepCompareList xs ys)

end

mutual

/-- The trees agree in everything but the places of their nodes. -/
def sameTree : Expr → Expr → Bool
  | .none, .none => true
  | .const v _, .const w _ => v == w
  | .var k i, .var k' j => k == k' && i == j
  | .label i a, .label j b => i == j && a == b
  | .ftype r ps, .ftype r' ps' => r == r' && ps == ps'
  | .mem k xs _, .mem k' ys _ => k == k' && sameTreeList xs ys
  | .unary k op x _, .unary k' op' y _ => k == k' && op == op' && sameTree x y
  | .binary k op x1 x2 _, .binary k' op' y1 y2 _ =>
    k == k' && op == op' && sameTree x1 y1 && sameTree x2 y2
  | .tuple k op xs _, .tuple k' op' ys _ => k == k' && op == op' && sameTreeList xs ys
  | _, _ => false

def sameTreeList : List Expr → List Expr → Bool
  | [], [] => true
  | x :: xs, y :: ys => sameTree x y && sameTreeList xs ys
  | _, _ => false

end

theorem evalList_of_sameTreeList {xs ys : List Expr} (h : sameTreeList xs ys)
    (hxs : ∀ x ∈ xs, ∀ y, sameTree x y → ∀ ρ, eval ρ x = eval ρ y) (ρ : Valuation) :
    evalList ρ xs = evalList ρ ys := by
  induction xs generalizing ys with
  | nil =>
    cases ys with
    | nil => rfl
    | cons y ys => simp [sameTreeList] at h
  | cons x xs ih =>
    cases ys with
    | nil => simp [sameTreeList] at h
    | cons y ys =>
      simp only [sameTreeList, Bool.and_eq_true] at h
      simp only [List.forall_mem_cons] at hxs
      rw [evalList, evalList, hxs.1 y h.1 ρ, ih h.2 hxs.2]

theorem valueKind_of_sameTreeList {xs ys : List Expr} (h : sameTreeList xs ys)
    (hxs : ∀ x ∈ xs, ∀ y, sameTree x y → x.valueKind = y.valueKind) :
    xs.map valueKind = ys.map valueKind := by
  induction xs generalizing ys with
  | nil =>
    cases ys with
    | nil => rfl
    | cons y ys => simp [sameTreeList] at h
  | cons x xs ih =>
    cases ys with
    | nil => simp [sameTreeList] at h
    | cons y ys =>
      simp only [sameTreeList, Bool.and_eq_true] at h
      simp only [List.forall_mem_cons] at hxs
      rw [List.map_cons, List.map_cons, hxs.1 y h.1, ih h.2 hxs.2]

/-- What the same trees have in common. -/
structure Agree (x y : Expr) : Prop where
  kind : x.kind = y.kind
  valueKind : x.valueKind = y.valueKind
  eval : ∀ ρ, eval ρ x = eval ρ y

/-- The same trees have the same kind and value. -/
theorem agree_of_sameTree {x y : Expr} (h : sameTree x y) : Agree x y := by
  induction x using Expr.induct generalizing y with
  | hnone =>
    cases y <;> simp only [sameTree, Bool.false_eq_true] at h
    exact ⟨rfl, rfl, fun _ => rfl⟩
  | hconst v p =>
    cases y <;> simp only [sameTree, Bool.false_eq_true, beq_iff_eq] at h
    subst h
    exact ⟨rfl, rfl, fun _ => rfl⟩
  | hvar k i =>
    cases y <;> simp only [sameTree, Bool.false_eq_true, Bool.and_eq_true, beq_iff_eq] at h
    obtain ⟨rfl, rfl⟩ := h
    exact ⟨rfl, rfl, fun _ => rfl⟩
  | hlabel i a =>
    cases y <;> simp only [sameTree, Bool.false_eq_true, Bool.and_eq_true, beq_iff_eq] at h
    obtain ⟨rfl, rfl⟩ := h
    exact ⟨rfl, rfl, fun _ => rfl⟩
  | hftype r ps =>
    cases y <;> simp only [sameTree, Bool.false_eq_true, Bool.and_eq_true, beq_iff_eq] at h
    obtain ⟨rfl, rfl⟩ := h
    exact ⟨rfl, rfl, fun _ => rfl⟩
  | hmem k xs p ih =>
    cases y <;> simp only [sameTree, Bool.false_eq_true, Bool.and_eq_true, beq_iff_eq] at h
    obtain ⟨rfl, hlist⟩ := h
    have heval := evalList_of_sameTreeList hlist fun x hx y hy => (ih x hx hy).eval
    exact ⟨rfl, rfl, fun ρ => by rw [Expr.eval, Expr.eval, heval ρ]⟩
  | hunary k op x p ih =>
    cases y <;> simp only [sameTree, Bool.false_eq_true, Bool.and_eq_true, beq_iff_eq] at h
    obtain ⟨⟨rfl, rfl⟩, hx⟩ := h
    exact ⟨rfl, rfl, fun ρ => by rw [Expr.eval, Expr.eval, (ih hx).eval ρ]⟩
  | hbinary k op x1 x2 p ih1 ih2 =>
    cases y <;> simp only [sameTree, Bool.false_eq_true, Bool.and_eq_true, beq_iff_eq] at h
    obtain ⟨⟨⟨rfl, rfl⟩, h1⟩, h2⟩ := h
    have heq := ih1 h1
    exact ⟨rfl, rfl, fun ρ => by
      rw [Expr.eval, Expr.eval, heq.eval ρ, heq.valueKind, (ih2 h2).eval ρ]⟩
  | htuple k op xs p ih =>
    cases y <;> simp only [sameTree, Bool.false_eq_true, Bool.and_eq_true, beq_iff_eq] at h
    obtain ⟨⟨rfl, rfl⟩, hlist⟩ := h
    have heval := evalList_of_sameTreeList hlist fun x hx y hy => (ih x hx hy).eval
    have hkinds := valueKind_of_sameTreeList hlist fun x hx y hy => (ih x hx hy).valueKind
    refine ⟨rfl, ?_, fun ρ => by rw [Expr.eval, Expr.eval, heval ρ]⟩
    by_cases hop : op = .comma
    · subst hop
      exact lastKind_congr hkinds
    · rw [valueKind_tuple hop, valueKind_tuple hop]

end Expr

end OneJit
