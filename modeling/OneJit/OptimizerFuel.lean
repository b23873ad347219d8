import OneJit.Lib.MapM
import OneJit.Optimizer

/-!
# The fuel of the optimizer

No rule makes a tree larger, so twice the size of a tree bounds the depth of the calls, those on
the operands that a child was rewritten to included.
-/

namespace OneJit

namespace Optimizer

open Expr

theorem size_pos (e : Expr) : 0 < size e := by
  cases e <;> simp [size, Nat.add_assoc]

theorem sizeList_append (xs ys : List Expr) : sizeList (xs ++ ys) = sizeList xs + sizeList ys := by
  induction xs with
  | nil => simp [sizeList]
  | cons x xs ih => simp [sizeList, ih, Nat.add_assoc]

theorem size_le_sizeList {x : Expr} {xs : List Expr} (h : x ∈ xs) : size x ≤ sizeList xs := by
  induction xs with
  | nil => cases h
  | cons y ys ih =>
    rw [sizeList]
    rcases List.mem_cons.mp h with rfl | h
    · exact Nat.le_add_right _ _
    · exact Nat.le_trans (ih h) (Nat.le_add_left _ _)

theorem sizeList_perm {xs ys : List Expr} (h : xs.Perm ys) : sizeList xs = sizeList ys := by
  induction h with
  | nil => rfl
  | cons x _ ih => rw [sizeList, sizeList, ih]
  | swap x y l => simp only [sizeList, Nat.add_left_comm]
  | trans _ _ ih1 ih2 => exact ih1.trans ih2

/-! ## The rules do not enlarge a node -/

theorem size_toExpr (e : Expr) : size e.toExpr ≤ size e := by
  rw [toExpr]
  split
  · exact Nat.le_refl _
  · exact size_pos e

@[simp] theorem size_ofValue (v : Value) : size (ofValue v) = 1 := by
  rw [ofValue]
  split <;> rfl

@[simp] theorem size_one (k : Kind) : size (one k) = 1 := by
  rw [one]
  split
  · exact size_ofValue _
  · split
    · exact size_ofValue _
    · rfl

@[simp] theorem size_zero (k : Kind) : size (zero k) = 1 := rfl

@[simp] theorem size_newBinary (op : Op2) (x y : Expr) :
    size (newBinary op x y) = 1 + size x + size y := rfl

@[simp] theorem size_newTuple (op : OpN) (x y : Expr) :
    size (newTuple op x y) = 1 + (size x + size y) := rfl

theorem size_simplifyUnary (kind : Kind) (op : Op1) (x : Expr) :
    size (simplifyUnary kind op x) ≤ 1 + size x := by
  have hself : ∀ b : Bool, size (if b then x else .none) ≤ 1 + size x := by
    intro b
    split
    · exact Nat.le_add_left _ _
    · exact Nat.le_add_right _ _
  unfold simplifyUnary
  cases x with
  | unary k xop xx q =>
    dsimp only
    have hxx := size_toExpr xx
    split
    · split
      · simp only [size]
        omega
      · simp only [size]
        omega
      · rw [size_newTuple, size_one, size]
        omega
      · rw [size_newBinary, size_one, size]
        omega
      · exact hself _
    · exact hself _
  | binary k bop bx by' q =>
    dsimp only
    have hx := size_toExpr bx
    have hy := size_toExpr by'
    split
    · rw [size_newBinary, size]
      omega
    · exact hself _
  | _ => exact hself _

theorem size_tryOptimizeUnary (o : Optimizer) (kind : Kind) (op : Op1) (x : Expr) :
    size (o.tryOptimizeUnary kind op x) ≤ 1 + size x := by
  have hx := size_toExpr x
  have hrule : size (if o.flags.simplifyExpr then simplifyUnary kind op x.toExpr else .none) ≤
      1 + size x := by
    split
    · exact Nat.le_trans (size_simplifyUnary kind op _) (Nat.add_le_add_left hx 1)
    · exact Nat.le_add_right _ _
  unfold tryOptimizeUnary
  dsimp only
  split
  · split
    · split
      · rw [size_ofValue]
        exact Nat.le_add_right _ _
      · exact hrule
    · exact hrule
  · exact Nat.le_add_right _ _

theorem size_simplifyComma (o : Optimizer) (x y : Expr) :
    size (o.simplifyComma [x, y]) ≤ 1 + size x + size y := by
  have hy := size_pos y
  unfold simplifyComma
  by_cases hpure : deepPure o.allowMaskPure x
  · simp [hpure]
  · simp [hpure, size, sizeList, Nat.add_assoc]

theorem size_partialEvalBinary (op : Op2) (x y : Expr) :
    size (partialEvalBinary op x y) ≤ 1 + size x + size y := by
  unfold partialEvalBinary
  by_cases hchanged : swapsOperands op x y
  · simp only [hchanged, if_true]
    split <;> repeat' split
    all_goals first
      | omega
      | (rw [size_newBinary]; omega)
      | (rw [size]; omega)
  · simp only [hchanged, Bool.false_and, Bool.false_eq_true, if_false]
    split <;> repeat' split
    all_goals first
      | omega
      | (rw [size]; omega)

theorem size_simplifyOp (o : Optimizer) (op : Op2) (x y : Expr) :
    size (o.simplifyOp op x y) ≤ 1 + size x + size y := by
  have hnone : size .none ≤ 1 + size x + size y := by
    rw [size]
    omega
  have hself : ∀ result, size result = 1 → size (o.simplifySelf x y result) ≤ 1 + size x + size y := by
    intro result hresult
    rw [simplifySelf]
    split
    · rw [hresult]
      omega
    · exact hnone
  have hboolean : ∀ op, size (o.simplifyBoolean op x y) ≤ 1 + size x + size y := by
    intro op
    have hcomma := size_simplifyComma o x y
    unfold simplifyBoolean
    split <;> first | exact hnone | (split <;> first | exact hcomma | omega)
  have hconst : ∀ e, size e = 1 → size (o.simplifyComma [x, e]) ≤ 1 + size x + size y := by
    intro e he
    have hpos := size_pos y
    have hcomma := size_simplifyComma o x e
    omega
  have hcomparison : ∀ op, size (o.simplifyComparison op x y) ≤ 1 + size x + size y := by
    intro op
    unfold simplifyComparison
    split
    · split
      · split <;> first
          | exact hnone
          | exact hconst _ rfl
          | exact Nat.le_refl _
      · exact hnone
    · split
      · split <;> exact hnone
      · exact hnone
  cases op with
  | sub | rem => exact hself _ (size_zero _)
  | quo => exact hself _ (size_one _)
  | land => exact hboolean .land
  | lor => exact hboolean .lor
  | lss => exact hcomparison .lss
  | leq => exact hcomparison .leq
  | neq => exact hcomparison .neq
  | eql => exact hcomparison .eql
  | gtr => exact hcomparison .gtr
  | geq => exact hcomparison .geq
  | shl | shr | bad2 => exact hnone

theorem size_simplifyBinary (o : Optimizer) (op : Op2) (x y : Expr) :
    size (o.simplifyBinary op x y) ≤ 1 + size x + size y := by
  have hfold := size_partialEvalBinary op x y
  unfold simplifyBinary
  dsimp only
  split
  · split
    · next k op' x' y' p heq =>
      have hbinary := hfold
      rw [heq, size] at hbinary
      have hx := size_toExpr x'
      have hy := size_toExpr y'
      have hrule := size_simplifyOp o op' x'.toExpr y'.toExpr
      split
      · omega
      · exact hfold
    · exact hfold
  · exact size_simplifyOp o op x y

theorem size_tryOptimizeBinary {o : Optimizer} {op : Op2} {x y e : Expr}
    (h : o.tryOptimizeBinary op x y = some e) : size e ≤ 1 + size x + size y := by
  have hx := size_toExpr x
  have hy := size_toExpr y
  have hnone : size .none ≤ 1 + size x + size y := by
    rw [size]
    omega
  have hrule : size (if o.flags.simplifyExpr then o.simplifyBinary op x.toExpr y.toExpr else .none) ≤
      1 + size x + size y := by
    split
    · have hsimplify := size_simplifyBinary o op x.toExpr y.toExpr
      omega
    · exact hnone
  unfold tryOptimizeBinary at h
  dsimp only at h
  split at h
  · split at h
    · split at h
      · obtain ⟨r, -, h⟩ := Option.bind_eq_some_iff.mp h
        rw [← Option.some.inj h]
        split
        · rw [size_ofValue]
          exact hnone
        · exact hrule
      · rw [← Option.some.inj h]
        exact hrule
    · rw [← Option.some.inj h]
      exact hrule
  · rw [← Option.some.inj h]
    exact hnone

theorem sizeList_leadingConsts (es : List Expr) :
    (leadingConsts es).1.length + sizeList (leadingConsts es).2 ≤ sizeList es := by
  induction es with
  | nil => exact Nat.le_refl _
  | cons e es ih =>
    cases e with
    | const v p =>
      have hcut : leadingConsts (.const v p :: es) =
          (v :: (leadingConsts es).1, (leadingConsts es).2) := rfl
      rw [hcut, sizeList, size]
      dsimp only [List.length_cons]
      omega
    | _ => exact Nat.le_of_eq (Nat.zero_add _)

theorem sizeList_reverse (xs : List Expr) : sizeList xs.reverse = sizeList xs :=
  sizeList_perm (List.reverse_perm xs)

theorem size_rebuildTuple {kind : Kind} {op : OpN} {args : List Expr} {place : Place}
    {children : List Expr} (h : sizeList children ≤ sizeList args) :
    size (rebuildTuple kind op args place children) ≤ 1 + sizeList args := by
  rw [rebuildTuple]
  split
  · exact Nat.le_refl _
  · exact Nat.add_le_add_left h 1

theorem size_partialEvalTuple (o : Optimizer) (kind : Kind) (op : OpN) {args : List Expr}
    (place : Place) {children : List Expr} (h : sizeList children ≤ sizeList args) :
    size (o.partialEvalTuple kind op args place children) ≤ 1 + sizeList args := by
  have hone : 1 ≤ 1 + sizeList args := Nat.le_add_right _ _
  have harrange : sizeList (o.arrange op children).reverse = sizeList children := by
    rw [sizeList_reverse, arrange]
    split
    · exact sizeList_perm (o.sort_perm children)
    · rfl
  unfold partialEvalTuple
  split
  · dsimp only
    generalize hcut : (if o.flags.foldConstant then leadingConsts (o.arrange op children).reverse
      else ([], (o.arrange op children).reverse)) = cut
    have hkept : cut.1.length + sizeList cut.2 ≤ sizeList args := by
      rw [← hcut]
      split
      · exact Nat.le_trans (sizeList_leadingConsts _) (harrange ▸ h)
      · exact Nat.le_trans (Nat.le_of_eq (Nat.zero_add _)) (harrange ▸ h)
    obtain ⟨consts, kept⟩ := cut
    dsimp only at hkept ⊢
    split
    · rw [size_ofValue]
      exact hone
    · split
      · next hfolded =>
        have hsome : 0 < consts.length := by
          cases consts
          · simp at hfolded
          · exact Nat.succ_pos _
        split
        · rw [size_ofValue]
          exact hone
        · split
          · have hle := size_toExpr (ofValue
              (consts.foldl (fun v c => evalTupleOp kind op [c, v]) (Value.identityN kind op)))
            rw [size_ofValue] at hle
            exact Nat.le_trans hle hone
          · apply size_rebuildTuple
            rw [sizeList_append, sizeList_reverse, sizeList, size_ofValue, sizeList]
            omega
      · split
        · rw [size_ofValue]
          exact hone
        · next x =>
          have hle := size_toExpr x
          rw [sizeList, sizeList] at hkept
          omega
        · apply size_rebuildTuple
          rw [sizeList_reverse]
          omega
  · exact size_rebuildTuple h

/-! ## A run does not enlarge a tree -/

theorem sizeList_forall₂ {xs ys : List Expr} (h : List.Forall₂ (fun x y => size y ≤ size x) xs ys) :
    sizeList ys ≤ sizeList xs := by
  induction h with
  | nil => exact Nat.le_refl _
  | cons hx _ ih => exact Nat.add_le_add hx ih

theorem sizeList_flatten {xs : List Expr} {chunks : List (List Expr)}
    (h : List.Forall₂ (fun x ys => sizeList ys ≤ size x) xs chunks) :
    sizeList chunks.flatten ≤ sizeList xs := by
  induction h with
  | nil => exact Nat.le_refl _
  | cons hx _ ih =>
    rw [List.flatten_cons, sizeList_append]
    exact Nat.add_le_add hx ih

theorem sizeList_children {kind : Kind} {op : OpN} {e : Expr} (h : e.hasHeader kind op) :
    size e = 1 + sizeList e.children := by
  cases e <;> first | rfl | cases h

/-- One child of the tuple that is flattened. -/
def flattenChild (o : Optimizer) (fuel : Nat) (kind : Kind) (op : OpN) (child : Expr) :
    Option (List Expr) :=
  if child.hasHeader kind op then o.flattenChildren fuel kind op child.children
  else do
    let child' ← o.optimize fuel child
    if child'.hasHeader kind op then o.flattenChildren fuel kind op child'.children
    else some [child']

theorem flattenChildren_succ (o : Optimizer) (fuel : Nat) (kind : Kind) (op : OpN)
    (args : List Expr) :
    o.flattenChildren (fuel + 1) kind op args =
      (args.mapM (o.flattenChild fuel kind op)).map List.flatten := by
  rw [flattenChildren]
  change (args.mapM (o.flattenChild fuel kind op)).bind _ = _
  rw [Option.map_eq_bind]
  rfl

theorem size_optimize (o : Optimizer) (fuel : Nat) :
    (∀ e e', o.optimize fuel e = some e' → size e' ≤ size e) ∧
      ∀ kind op args cs, o.flattenChildren fuel kind op args = some cs →
        sizeList cs ≤ sizeList args := by
  induction fuel with
  | zero =>
    constructor
    · intro e e' h
      obtain rfl := Option.some.inj h
      exact Nat.le_refl _
    · intro kind op args cs h
      obtain rfl := Option.some.inj h
      exact Nat.le_refl _
  | succ fuel ih =>
    obtain ⟨ihe, ihc⟩ := ih
    constructor
    · intro e e' h
      cases e with
      | tuple kind op args place =>
        rw [optimize] at h
        split at h
        · obtain ⟨children, hchildren, h⟩ := Option.bind_eq_some_iff.mp h
          rw [← Option.some.inj h]
          split
          · exact size_partialEvalTuple o kind op place (ihc kind op args children hchildren)
          · exact Nat.le_refl _
        · rw [Option.some.inj h]
      | mem kind args place =>
        rw [optimize] at h
        obtain ⟨children, hchildren, h⟩ := Option.bind_eq_some_iff.mp h
        rw [← Option.some.inj h]
        split
        · exact Nat.le_refl _
        · have hle := sizeList_forall₂ ((List.mapM_eq_some.mp hchildren).imp fun x y => ihe x y)
          exact Nat.add_le_add_left hle 1
      | unary kind op x place =>
        rw [optimize] at h
        obtain ⟨x', hx', h⟩ := Option.bind_eq_some_iff.mp h
        have hx := ihe x x' hx'
        have hstep := size_tryOptimizeUnary o kind op x'
        rw [← Option.some.inj h, size]
        split
        · omega
        · split
          · exact Nat.le_refl _
          · rw [size]
            omega
      | binary kind op x y place =>
        rw [optimize] at h
        obtain ⟨x', hx', h⟩ := Option.bind_eq_some_iff.mp h
        obtain ⟨y', hy', h⟩ := Option.bind_eq_some_iff.mp h
        obtain ⟨ret, hret, h⟩ := Option.bind_eq_some_iff.mp h
        have hx := ihe x x' hx'
        have hy := ihe y y' hy'
        have hstep := size_tryOptimizeBinary hret
        rw [← Option.some.inj h, size]
        split
        · omega
        · split
          · exact Nat.le_refl _
          · rw [size]
            omega
      | _ =>
        rw [optimize] at h
        rw [Option.some.inj h]
    · intro kind op args cs h
      rw [flattenChildren_succ, Option.map_eq_some_iff] at h
      obtain ⟨chunks, hchunks, rfl⟩ := h
      apply sizeList_flatten
      apply (List.mapM_eq_some.mp hchunks).imp
      intro child chunk hchunk
      rw [flattenChild] at hchunk
      split at hchunk
      · next hheader =>
        rw [sizeList_children hheader]
        exact Nat.le_trans (ihc kind op _ chunk hchunk) (Nat.le_add_left _ _)
      · obtain ⟨child', hchild', hchunk⟩ := Option.bind_eq_some_iff.mp hchunk
        have hle := ihe child child' hchild'
        split at hchunk
        · next hheader =>
          rw [sizeList_children hheader] at hle
          have hrest := ihc kind op _ chunk hchunk
          omega
        · rw [← Option.some.inj hchunk]
          exact hle

/-! ## More fuel does not change a run -/

theorem optimize_succ (o : Optimizer) (fuel : Nat) :
    (∀ e, 2 * size e ≤ fuel → o.optimize (fuel + 1) e = o.optimize fuel e) ∧
      ∀ kind op args, 2 * sizeList args + 1 ≤ fuel →
        o.flattenChildren (fuel + 1) kind op args = o.flattenChildren fuel kind op args := by
  induction fuel with
  | zero =>
    constructor
    · intro e h
      have hpos := size_pos e
      omega
    · intro kind op args h
      omega
  | succ fuel ih =>
    obtain ⟨ihe, ihc⟩ := ih
    constructor
    · intro e h
      cases e with
      | tuple kind op args place =>
        rw [size] at h
        rw [optimize, optimize, ihc kind op args (by omega)]
      | mem kind args place =>
        rw [size] at h
        have hargs : args.mapM (o.optimize (fuel + 1)) = args.mapM (o.optimize fuel) := by
          apply List.mapM_congr_of_mem
          intro x hx
          have hle := size_le_sizeList hx
          exact ihe x (by omega)
        rw [optimize, optimize, hargs]
      | unary kind op x place =>
        rw [size] at h
        rw [optimize, optimize, ihe x (by omega)]
      | binary kind op x y place =>
        rw [size] at h
        rw [optimize, optimize, ihe x (by omega), ihe y (by omega)]
      | _ => rw [optimize, optimize]
    · intro kind op args h
      rw [flattenChildren_succ, flattenChildren_succ]
      congr 1
      apply List.mapM_congr_of_mem
      intro child hchild
      have hle := size_le_sizeList hchild
      rw [flattenChild, flattenChild, ihe child (by omega)]
      split
      · next hheader =>
        rw [sizeList_children hheader] at hle
        exact ihc kind op _ (by omega)
      · cases hopt : o.optimize fuel child with
        | none => rfl
        | some child' =>
          have hsmall := (size_optimize o fuel).1 child child' hopt
          dsimp only [Option.bind_eq_bind, Option.bind_some]
          split
          · next hheader =>
            rw [sizeList_children hheader] at hsmall
            exact ihc kind op _ (by omega)
          · rfl

/-- `optimizeFuel` is enough. -/
theorem optimize_fuel (o : Optimizer) (e : Expr) {fuel : Nat} (h : optimizeFuel e ≤ fuel) :
    o.optimize fuel e = o.optimize (optimizeFuel e) e := by
  induction fuel, h using Nat.le_induction with
  | base => rfl
  | succ fuel h ih => rw [(o.optimize_succ fuel).1 e h, ih]

end Optimizer

end OneJit
