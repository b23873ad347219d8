import OneJit.OptimizerCall
import OneJit.OptimizerSound
import OneJit.Run

/-!
# What the optimizer keeps in a tree

The rules build operators, constants and `COMMA`s around operands that they are given, and never a
variable, a memory operand or a call. A property that a node has when its operands do is kept: that
nothing is called, or that the variables are below a bound.
-/

namespace OneJit

namespace Expr

/-- A node has the property when its operands do; a call may exclude it, and keeps it when its
operands are replaced. -/
structure Hereditary (P : Expr → Prop) : Prop where
  atNone : P none
  atConst : ∀ v p, P (const v p)
  atUnary : ∀ {k op x p}, P (unary k op x p) ↔ P x
  atBinary : ∀ {k op x y p}, P (binary k op x y p) ↔ P x ∧ P y
  atMem : ∀ {k args p}, P (mem k args p) ↔ ∀ x ∈ args, P x
  atTuple : ∀ {k op args p}, op ≠ OpN.call → (P (tuple k op args p) ↔ ∀ x ∈ args, P x)
  args : ∀ {k op args p}, P (tuple k op args p) → ∀ x ∈ args, P x
  replace : ∀ {k op args xs p q}, P (tuple k op args p) → (∀ x ∈ xs, P x) → P (tuple k op xs q)

theorem hereditary_hasCall : Hereditary fun e => e.hasCall = false where
  atNone := rfl
  atConst _ _ := rfl
  atUnary := .rfl
  atBinary := by simp [hasCall]
  atMem := by simp [hasCall, hasCallList_eq_false]
  atTuple hop := by simp [hasCall, hasCallList_eq_false, hop]
  args h := by
    rw [hasCall, Bool.or_eq_false_iff] at h
    exact hasCallList_eq_false.mp h.2
  replace h hxs := by
    rw [hasCall, Bool.or_eq_false_iff] at h ⊢
    exact ⟨h.1, hasCallList_eq_false.mpr hxs⟩

namespace Hereditary

variable {P : Expr → Prop} (hP : Hereditary P)

include hP

theorem toExpr {e : Expr} (h : P e) : P e.toExpr := by
  rw [Expr.toExpr]
  split
  · exact h
  · exact hP.atNone

theorem ofValue (v : Value) : P (ofValue v) := by
  rw [Expr.ofValue]
  split
  · exact hP.atConst _ _
  · exact hP.atNone

theorem one (k : Kind) : P (one k) := by
  rw [Expr.one]
  split
  · exact hP.ofValue _
  · split
    · exact hP.ofValue _
    · exact hP.atConst _ _

theorem newBinary {op : Op2} {x y : Expr} (hx : P x) (hy : P y) : P (newBinary op x y) :=
  hP.atBinary.mpr ⟨hx, hy⟩

end Hereditary

end Expr

namespace Optimizer

open Expr

variable {P : Expr → Prop} (hP : Hereditary P)

include hP

/-! ## The rules keep a property -/

theorem simplifyUnary_keeps (kind : Kind) (op : Op1) {x : Expr} (h : P x) :
    P (simplifyUnary kind op x) := by
  have hself : ∀ b : Bool, P (if b then x else .none) := by
    intro b
    split
    · exact h
    · exact hP.atNone
  unfold simplifyUnary
  cases x with
  | unary k xop xx q =>
    dsimp only
    have hxx : P xx.toExpr := hP.toExpr (hP.atUnary.mp h)
    split
    · split
      · exact hxx
      · exact hxx
      · exact (hP.atTuple (by decide)).mpr (by simp [hxx, hP.one])
      · exact hP.newBinary hxx (hP.one _)
      · exact hself _
    · exact hself _
  | binary k bop bx by' q =>
    dsimp only
    obtain ⟨hx, hy⟩ := hP.atBinary.mp h
    split
    · exact hP.newBinary (hP.toExpr hx) (hP.toExpr hy)
    · exact hself _
  | _ => exact hself _

theorem tryOptimizeUnary_keeps (o : Optimizer) (kind : Kind) (op : Op1) {x : Expr} (h : P x) :
    P (o.tryOptimizeUnary kind op x) := by
  have hrule : P (if o.flags.simplifyExpr then simplifyUnary kind op x.toExpr else .none) := by
    split
    · exact simplifyUnary_keeps hP kind op (hP.toExpr h)
    · exact hP.atNone
  unfold tryOptimizeUnary
  dsimp only
  split
  · split
    · split
      · exact hP.ofValue _
      · exact hrule
    · exact hrule
  · exact hP.atNone

theorem simplifyComma_keeps (o : Optimizer) {x y : Expr} (hx : P x) (hy : P y) :
    P (o.simplifyComma [x, y]) := by
  unfold simplifyComma
  by_cases hpure : deepPure o.allowMaskPure x
  · simpa [hpure] using hy
  · simp [hpure, hP.atTuple, hx, hy]

theorem partialEvalBinary_keeps (op : Op2) {x y : Expr} (hx : P x) (hy : P y) :
    P (partialEvalBinary op x y) := by
  have hnew : ∀ {op x y}, P x → P y → P (newBinary op x y) := hP.newBinary
  have hnone := hP.atNone
  unfold partialEvalBinary
  by_cases hchanged : swapsOperands op x y
  · simp only [hchanged, if_true]
    split <;> repeat' split
    all_goals first | assumption | exact hnew hy hx
  · simp only [hchanged, Bool.false_and, Bool.false_eq_true, if_false]
    split <;> repeat' split
    all_goals assumption

theorem simplifyOp_keeps (o : Optimizer) (op : Op2) {x y : Expr} (hx : P x) (hy : P y) :
    P (o.simplifyOp op x y) := by
  have hnone := hP.atNone
  have hself : ∀ result, P result → P (o.simplifySelf x y result) := by
    intro result hresult
    rw [simplifySelf]
    split
    · exact hresult
    · exact hnone
  have hcomma := simplifyComma_keeps hP o hx hy
  have hboolean : ∀ op, P (o.simplifyBoolean op x y) := by
    intro op
    unfold simplifyBoolean
    split <;> first | exact hnone | (split <;> assumption)
  have hcomparison : ∀ op, P (o.simplifyComparison op x y) := by
    intro op
    unfold simplifyComparison
    split
    · split
      · split <;> first
          | exact hnone
          | exact simplifyComma_keeps hP o hx (hP.atConst _ _)
          | exact hP.newBinary hx hy
      · exact hnone
    · split
      · split <;> first | exact hnone | exact hP.atConst _ _
      · exact hnone
  cases op with
  | sub | rem => exact hself _ (hP.atConst _ _)
  | quo => exact hself _ (hP.one _)
  | land => exact hboolean .land
  | lor => exact hboolean .lor
  | lss => exact hcomparison .lss
  | leq => exact hcomparison .leq
  | neq => exact hcomparison .neq
  | eql => exact hcomparison .eql
  | gtr => exact hcomparison .gtr
  | geq => exact hcomparison .geq
  | shl | shr | bad2 => exact hnone

theorem simplifyBinary_keeps (o : Optimizer) (op : Op2) {x y : Expr} (hx : P x) (hy : P y) :
    P (o.simplifyBinary op x y) := by
  have hfold := partialEvalBinary_keeps hP op hx hy
  unfold simplifyBinary
  dsimp only
  split
  · split
    · next k op' x' y' p heq =>
      have hbinary := hfold
      rw [heq] at hbinary
      obtain ⟨hx', hy'⟩ := hP.atBinary.mp hbinary
      split
      · exact simplifyOp_keeps hP o op' (hP.toExpr hx') (hP.toExpr hy')
      · exact hfold
    · exact hfold
  · exact simplifyOp_keeps hP o op hx hy

theorem tryOptimizeBinary_keeps {o : Optimizer} {op : Op2} {x y e : Expr} (hx : P x) (hy : P y)
    (h : o.tryOptimizeBinary op x y = some e) : P e := by
  have hrule : P (if o.flags.simplifyExpr then
      o.simplifyBinary op x.toExpr y.toExpr else .none) := by
    split
    · exact simplifyBinary_keeps hP o op (hP.toExpr hx) (hP.toExpr hy)
    · exact hP.atNone
  unfold tryOptimizeBinary at h
  dsimp only at h
  split at h
  · split at h
    · split at h
      · obtain ⟨r, -, h⟩ := Option.bind_eq_some_iff.mp h
        rw [← Option.some.inj h]
        split
        · exact hP.ofValue _
        · exact hrule
      · rwa [← Option.some.inj h]
    · rwa [← Option.some.inj h]
  · rw [← Option.some.inj h]
    exact hP.atNone

omit hP in
theorem leadingConsts_keeps {es : List Expr} (h : ∀ e ∈ es, P e) :
    ∀ e ∈ (leadingConsts es).2, P e := by
  induction es with
  | nil => exact h
  | cons e es ih =>
    cases e with
    | const v p => exact ih fun e he => h e (List.mem_cons_of_mem _ he)
    | _ => exact h

theorem rebuildTuple_keeps {kind : Kind} {op : OpN} {args : List Expr} {place : Place}
    {children : List Expr} (h : P (tuple kind op args place)) (hchildren : ∀ e ∈ children, P e) :
    P (rebuildTuple kind op args place children) := by
  rw [rebuildTuple]
  split
  · exact h
  · exact hP.replace h hchildren

theorem partialEvalTuple_keeps (o : Optimizer) {kind : Kind} {op : OpN} {args : List Expr}
    {place : Place} {children : List Expr} (h : P (tuple kind op args place))
    (hchildren : ∀ e ∈ children, P e) : P (o.partialEvalTuple kind op args place children) := by
  have harranged : ∀ e ∈ (o.arrange op children).reverse, P e := by
    intro e he
    rw [List.mem_reverse, arrange] at he
    split at he
    · exact hchildren e ((o.sort_perm children).mem_iff.mp he)
    · exact hchildren e he
  unfold partialEvalTuple
  split
  · dsimp only
    generalize hcut : (if o.flags.foldConstant then leadingConsts (o.arrange op children).reverse
      else ([], (o.arrange op children).reverse)) = cut
    have hkept : ∀ e ∈ cut.2, P e := by
      rw [← hcut]
      split
      · exact leadingConsts_keeps harranged
      · exact harranged
    obtain ⟨consts, kept⟩ := cut
    dsimp only at hkept ⊢
    split
    · exact hP.ofValue _
    · split
      · split
        · exact hP.ofValue _
        · split
          · exact hP.toExpr (hP.ofValue _)
          · apply rebuildTuple_keeps hP h
            intro e he
            rcases List.mem_append.mp he with he | he
            · exact hkept e (List.mem_reverse.mp he)
            · rw [List.mem_singleton.mp he]
              exact hP.ofValue _
      · split
        · exact hP.ofValue _
        · exact hP.toExpr (hkept _ (List.mem_singleton_self _))
        · exact rebuildTuple_keeps hP h fun e he => hkept e (List.mem_reverse.mp he)
  · exact rebuildTuple_keeps hP h hchildren

/-! ## A run keeps a property -/

omit hP in
theorem mapM_keeps {f : Expr → Option Expr} {xs ys : List Expr}
    (hf : ∀ x y, P x → f x = some y → P y) (hxs : ∀ x ∈ xs, P x) (h : xs.mapM f = some ys) :
    ∀ y ∈ ys, P y := by
  have hall := List.mapM_eq_some.mp h
  clear h
  induction hall with
  | nil => exact hxs
  | cons hx _ ih =>
    rw [List.forall_mem_cons] at hxs ⊢
    exact ⟨hf _ _ hxs.1 hx, ih hxs.2⟩

theorem children_keep {kind : Kind} {op : OpN} {e : Expr} (h : P e) (hheader : e.hasHeader kind op) :
    ∀ x ∈ e.children, P x := by
  obtain ⟨args, p, rfl⟩ := hasHeader_iff.mp hheader
  exact hP.args h

/-- A property of a node that its operands have is kept by a run, and by one on the operands of a
tuple. -/
theorem optimize_keeps (o : Optimizer) (fuel : Nat) :
    (∀ e e', P e → o.optimize fuel e = some e' → P e') ∧
      ∀ kind op args cs, (∀ a ∈ args, P a) → o.flattenChildren fuel kind op args = some cs →
        ∀ c ∈ cs, P c := by
  induction fuel with
  | zero =>
    constructor
    · intro e e' he h
      rwa [← Option.some.inj h]
    · intro kind op args cs hargs h
      rwa [← Option.some.inj h]
  | succ fuel ih =>
    constructor
    · intro e e' he h
      cases e with
      | tuple kind op args place =>
        rw [optimize] at h
        split at h
        · obtain ⟨children, hchildren, h⟩ := Option.bind_eq_some_iff.mp h
          rw [← Option.some.inj h]
          split
          · exact partialEvalTuple_keeps hP o he (ih.2 _ _ _ _ (hP.args he) hchildren)
          · exact he
        · rwa [← Option.some.inj h]
      | mem kind args place =>
        rw [optimize] at h
        obtain ⟨children, hchildren, h⟩ := Option.bind_eq_some_iff.mp h
        rw [← Option.some.inj h]
        split
        · exact he
        · exact hP.atMem.mpr (mapM_keeps ih.1 (hP.atMem.mp he) hchildren)
      | unary kind op x place =>
        rw [optimize] at h
        obtain ⟨x', hx', h⟩ := Option.bind_eq_some_iff.mp h
        have hx := ih.1 x x' (hP.atUnary.mp he) hx'
        rw [← Option.some.inj h]
        split
        · exact tryOptimizeUnary_keeps hP o kind op hx
        · split
          · exact he
          · exact hP.atUnary.mpr hx
      | binary kind op x y place =>
        rw [optimize] at h
        obtain ⟨x', hx', h⟩ := Option.bind_eq_some_iff.mp h
        obtain ⟨y', hy', h⟩ := Option.bind_eq_some_iff.mp h
        obtain ⟨ret, hret, h⟩ := Option.bind_eq_some_iff.mp h
        obtain ⟨hx, hy⟩ := hP.atBinary.mp he
        have hx' := ih.1 x x' hx hx'
        have hy' := ih.1 y y' hy hy'
        rw [← Option.some.inj h]
        split
        · exact tryOptimizeBinary_keeps hP hx' hy' hret
        · split
          · exact he
          · exact hP.atBinary.mpr ⟨hx', hy'⟩
      | _ =>
        rw [optimize] at h
        rwa [← Option.some.inj h]
    · intro kind op args cs hargs h
      rw [flattenChildren_succ, Option.map_eq_some_iff] at h
      obtain ⟨chunks, hchunks, rfl⟩ := h
      have hall := List.mapM_eq_some.mp hchunks
      clear hchunks
      induction hall with
      | nil => exact hargs
      | @cons child chunk _ _ hchunk _ ihrest =>
        rw [List.forall_mem_cons] at hargs
        rw [List.flatten_cons, List.forall_mem_append]
        refine ⟨?_, ihrest hargs.2⟩
        rw [flattenChild] at hchunk
        split at hchunk
        · next hheader => exact ih.2 _ _ _ _ (children_keep hP hargs.1 hheader) hchunk
        · obtain ⟨child', hchild', hchunk⟩ := Option.bind_eq_some_iff.mp hchunk
          have hkept := ih.1 child child' hargs.1 hchild'
          split at hchunk
          · next hheader => exact ih.2 _ _ _ _ (children_keep hP hkept hheader) hchunk
          · obtain rfl := Option.some.inj hchunk
            simpa using hkept

end Optimizer

end OneJit
