import OneJit.CompileSteps

/-!
# Which expressions compile to constants

The compiler decides on the compiled operands and the compiled tests. Whether these are constants
depends on the expression alone.
-/

namespace OneJit

namespace Expr

/-- `is<Const>().val()`. -/
def value? : Expr → Option Value
  | const v _ => some v
  | _ => Option.none

/-- The constant that a logical operator leaves, from those that its operands are: an operand that
decides is the result, and the left one is dropped when it does not. -/
def decidedConstant (decides : Value → Bool) (a b : Option Value) : Option Value :=
  (match a with
    | some a => if decides a then some a else b
    | Option.none => b.filter decides).filter fun v => v.kind != Kind.bad

/-- The constant that `simplify_boolean` leaves. -/
def booleanConstant (op : Op2) (a b : Option Value) : Option Value :=
  match op with
  | .land => decidedConstant (fun v => !v.toBool) a b
  | .lor => decidedConstant Value.toBool a b
  | _ => Option.none

/-- The constant that an expression compiles to. -/
def constantOf : Expr → Option Value
  | const v _ => some v
  | binary _ op x y _ => booleanConstant op (constantOf x) (constantOf y)
  | tuple k op [] _ =>
    if op.isArithmetic then value? (ofValue (Value.identityN k op)) else Option.none
  | tuple _ op [none] _ => if op.isArithmetic then value? voidExpr else Option.none
  | tuple _ op [x] _ => if op.isArithmetic then constantOf x else Option.none
  | _ => Option.none

/-- The constant that a child of an n-ary operator compiles to. -/
def childConstant : Expr → Option Value
  | none => value? voidExpr
  | e => constantOf e

/-- The constant that an n-ary operator with these compiled children is replaced with. -/
def tupleConstant (k : Kind) (op : OpN) (vs : List (Option Value)) : Option Value :=
  if op.isArithmetic then
    match vs with
    | [] => value? (ofValue (Value.identityN k op))
    | [v] => v
    | _ => Option.none
  else Option.none

theorem constantOf_tuple (k : Kind) (op : OpN) (args : List Expr) (p : Place) :
    constantOf (tuple k op args p) = tupleConstant k op (args.map childConstant) := by
  cases args with
  | nil =>
    rw [constantOf]
    rfl
  | cons x xs =>
    cases xs with
    | nil => cases x <;> rfl
    | cons y ys =>
      rw [constantOf, tupleConstant]
      · exact (ite_self _).symm
      all_goals simp

/-- The label that a logical operator leaves: that of the operand which does not decide. -/
def decidedLabel (decides : Value → Bool) (a b : Option Value) (x y : Option (BitVec 16)) :
    Option (BitVec 16) :=
  match a, b with
  | some v, _ => if decides v then Option.none else y
  | Option.none, some v => if decides v then Option.none else x
  | Option.none, Option.none => Option.none

/-- The label that `simplify_boolean` leaves. -/
def booleanLabel (op : Op2) (a b : Option Value) (x y : Option (BitVec 16)) :
    Option (BitVec 16) :=
  match op with
  | .land => decidedLabel (fun v => !v.toBool) a b x y
  | .lor => decidedLabel Value.toBool a b x y
  | _ => Option.none

/-- The label that an expression compiles to. -/
def labelOf : Expr → Option (BitVec 16)
  | label index _ => some index
  | binary _ op x y _ => booleanLabel op (constantOf x) (constantOf y) (labelOf x) (labelOf y)
  | tuple _ op [x] _ => if op.isArithmetic then labelOf x else Option.none
  | _ => Option.none

/-- The label that an n-ary operator with these compiled children is replaced with. -/
def tupleLabel (op : OpN) (labels : List (Option (BitVec 16))) : Option (BitVec 16) :=
  if op.isArithmetic then
    match labels with
    | [index] => index
    | _ => Option.none
  else Option.none

theorem labelOf_tuple (k : Kind) (op : OpN) (args : List Expr) (p : Place) :
    labelOf (tuple k op args p) = tupleLabel op (args.map labelOf) := by
  cases args with
  | nil =>
    rw [tupleLabel]
    · exact (ite_self _).symm
    · simp
  | cons x xs =>
    cases xs with
    | nil => rfl
    | cons y ys =>
      rw [tupleLabel]
      · exact (ite_self _).symm
      · simp

end Expr

namespace Compiler

open Expr CompileM

/-- A variable, or the absent expression where no variable could be taken. -/
def IsCopy (e : Expr) : Prop := e = .none ∨ ∃ k id, e = .var k id

theorem IsCopy.value? {e : Expr} (h : IsCopy e) : e.value? = .none := by
  obtain rfl | ⟨k, id, rfl⟩ := h <;> rfl

theorem IsCopy.labelIndex {e : Expr} (h : IsCopy e) : e.labelIndex = .none := by
  obtain rfl | ⟨k, id, rfl⟩ := h <;> rfl

theorem newVar_isCopy (kind : Kind) : Returns IsCopy (newVar kind) := by
  intro c
  unfold newVar
  dsimp only
  split
  · exact .inr ⟨_, _, rfl⟩
  · exact .inl rfl

theorem toVar_isCopy (e : Expr) (comp : CompileM Compiled) : Returns IsCopy (toVar e comp) := by
  refine .ite _ (fun h => .pure ?_) fun _ => .ite _ (fun _ => ?_) fun _ => .pure (.inl rfl)
  · cases e <;> first | exact .inr ⟨_, _, rfl⟩ | cases h
  · exact (newVar_isCopy _).bind fun v hv => .bind_const fun _ => .pure hv

theorem simplifyBranch_isCopy (again : Expr → CompileM Compiled) (decided : Expr)
    (test : Expr → Expr) (x y : Expr) :
    Returns IsCopy (simplifyBranch again decided test x y) := by
  refine (newVar_isCopy _).bind fun dst hdst => .bind_const fun label => ?_
  refine .ite _ (fun _ => ?_) fun _ => ?_
  all_goals
    refine .bind_const fun _ => .bind_const fun _ => .bind_const fun _ => .bind_const fun _ => ?_
    exact .pure hdst

/-- A child of an n-ary operator is kept, or copied where it is neither constant nor label. -/
theorem toVarMemConst_cases (e : Expr) (comp : CompileM Compiled) :
    Returns (fun r => r.1 = e ∨ IsCopy r.1 ∧ value? e = .none ∧ e.labelIndex = .none)
      (toVarMemConst e comp) := by
  have hcopy : value? e = .none → e.labelIndex = .none →
      Returns (fun r => r.1 = e ∨ IsCopy r.1 ∧ value? e = .none ∧ e.labelIndex = .none)
        (do return (← toVar e comp, true)) := by
    intro hvalue hlabel
    exact (toVar_isCopy e comp).bind fun v hv => .pure (.inr ⟨hv, hvalue, hlabel⟩)
  cases e with
  | const _ _ | var _ _ | mem _ _ _ | label _ _ => exact .pure (.inl rfl)
  | _ => exact hcopy rfl rfl

theorem value?_toVarMemConst (e : Expr) (comp : CompileM Compiled) :
    Returns (fun r => value? r.1 = value? e) (toVarMemConst e comp) := by
  intro c
  obtain h | ⟨hcopy, hvalue, -⟩ := toVarMemConst_cases e comp c
  · exact congrArg value? h
  · exact hcopy.value?.trans hvalue.symm

theorem labelIndex_toVarMemConst (e : Expr) (comp : CompileM Compiled) :
    Returns (fun r => r.1.labelIndex = e.labelIndex) (toVarMemConst e comp) := by
  intro c
  obtain h | ⟨hcopy, -, hlabel⟩ := toVarMemConst_cases e comp c
  · exact congrArg Expr.labelIndex h
  · exact hcopy.labelIndex.trans hlabel.symm

theorem value?_eq_none {e : Expr} (h : ∀ v p, e = const v p → False) : value? e = .none := by
  cases e with
  | const v p => exact (h v p rfl).elim
  | _ => rfl

theorem value?_of_isValid (e : Expr) :
    (if e.isValid then value? e else .none) = (value? e).filter fun v => v.kind != Kind.bad := by
  cases e with
  | const v p =>
    rw [value?, Option.filter]
    rfl
  | _ =>
    simp only [value?, ite_self]
    rfl

/-- The constant that a valid result of `simplify_boolean` is. -/
theorem simplifyBoolean_value? (again : Expr → CompileM Compiled) (op : Op2) (x y : Expr) :
    Returns (fun e => (if e.isValid then value? e else .none) =
      booleanConstant op (value? x) (value? y)) (simplifyBoolean again op x y) := by
  simp only [value?_of_isValid]
  unfold simplifyBoolean
  split
  · rw [booleanConstant]
    unfold simplifyLand
    split
    · next xc p =>
      apply Returns.pure
      rw [value?, decidedConstant]
      cases xc.toBool <;> rfl
    · next yc p hx =>
      rw [value?_eq_none hx, value?]
      refine .ite _ (fun hy => .pure ?_) fun hy => .bind_const fun _ => .pure ?_
      · rw [value?_eq_none hx]
        simp [decidedConstant, Option.filter_some, hy]
      · simp [decidedConstant, Option.filter_some, hy, value?]
    · next k id hx =>
      rw [value?_eq_none hx]
      exact .pure rfl
    · next hx hy _ =>
      rw [value?_eq_none hx, value?_eq_none hy]
      intro c
      rw [(simplifyBranch_isCopy _ _ _ _ _ c).value?]
      rfl
  · rw [booleanConstant]
    unfold simplifyLor
    split
    · next xc p =>
      apply Returns.pure
      rw [value?, decidedConstant]
      cases xc.toBool <;> rfl
    · next yc p hx =>
      rw [value?_eq_none hx, value?]
      refine .ite _ (fun hy => .bind_const fun _ => .pure ?_) fun hy => .pure ?_
      · simp [decidedConstant, Option.filter_some, hy, value?]
      · rw [value?_eq_none hx]
        simp [decidedConstant, Option.filter_some, hy]
    · next k id hx =>
      rw [value?_eq_none hx]
      exact .pure rfl
    · next hx hy _ =>
      rw [value?_eq_none hx, value?_eq_none hy]
      intro c
      rw [(simplifyBranch_isCopy _ _ _ _ _ c).value?]
      rfl
  · next hland hlor =>
    rw [booleanConstant]
    · exact .pure rfl
    · exact hland
    · exact hlor

theorem value?_rebuildChildren {e : Expr} (he : value? e = .none) (k : Kind) (op : OpN)
    (nodes : List Expr) (changed : Bool) :
    value? (rebuildChildren e k op nodes changed).1 = tupleConstant k op (nodes.map value?) := by
  have hrebuilt : value? (if changed then (tuple k op nodes .fresh, true) else (e, false)).1 =
      .none := by
    split
    · rfl
    · exact he
  unfold rebuildChildren tupleConstant
  by_cases hop : op.isArithmetic
  · rw [if_pos hop, if_pos hop]
    cases nodes with
    | nil => rfl
    | cons x xs =>
      cases xs with
      | nil => cases x <;> rfl
      | cons y ys => exact hrebuilt
  · rw [if_neg hop, if_neg hop]
    exact hrebuilt

theorem simplifyBoolean_labelIndex (again : Expr → CompileM Compiled) (op : Op2) (x y : Expr) :
    Returns (fun e => e.labelIndex =
      booleanLabel op (value? x) (value? y) x.labelIndex y.labelIndex)
      (simplifyBoolean again op x y) := by
  unfold simplifyBoolean
  split
  · rw [booleanLabel]
    unfold simplifyLand
    split
    · next xc p =>
      apply Returns.pure
      rw [value?, decidedLabel]
      cases xc.toBool <;> rfl
    · next yc p hx =>
      rw [value?_eq_none hx, value?, decidedLabel]
      refine .ite _ (fun hy => .pure ?_) fun hy => .bind_const fun _ => .pure ?_
      · rw [hy]
        rfl
      · rw [Bool.not_eq_true] at hy
        rw [hy]
        rfl
    · next k id hx =>
      rw [value?_eq_none hx]
      exact .pure rfl
    · next hx hy _ =>
      rw [value?_eq_none hx, value?_eq_none hy]
      exact fun c => (simplifyBranch_isCopy _ _ _ _ _ c).labelIndex
  · rw [booleanLabel]
    unfold simplifyLor
    split
    · next xc p =>
      apply Returns.pure
      rw [value?, decidedLabel]
      cases xc.toBool <;> rfl
    · next yc p hx =>
      rw [value?_eq_none hx, value?, decidedLabel]
      refine .ite _ (fun hy => .bind_const fun _ => .pure ?_) fun hy => .pure ?_
      · rw [hy]
        rfl
      · rw [Bool.not_eq_true] at hy
        rw [hy]
        rfl
    · next k id hx =>
      rw [value?_eq_none hx]
      exact .pure rfl
    · next hx hy _ =>
      rw [value?_eq_none hx, value?_eq_none hy]
      exact fun c => (simplifyBranch_isCopy _ _ _ _ _ c).labelIndex
  · next hland hlor =>
    rw [booleanLabel]
    · exact .pure rfl
    · exact hland
    · exact hlor

theorem labelIndex_rebuildChildren {e : Expr} (he : e.labelIndex = .none) (k : Kind) (op : OpN)
    (nodes : List Expr) (changed : Bool) :
    (rebuildChildren e k op nodes changed).1.labelIndex =
      tupleLabel op (nodes.map Expr.labelIndex) := by
  have hrebuilt : (if changed then (tuple k op nodes .fresh, true) else (e, false)).1.labelIndex =
      .none := by
    split
    · rfl
    · exact he
  have hvalue : ∀ v, (ofValue v).labelIndex = .none := by
    intro v
    unfold ofValue
    split <;> rfl
  unfold rebuildChildren tupleLabel
  by_cases hop : op.isArithmetic
  · rw [if_pos hop, if_pos hop]
    cases nodes with
    | nil => exact hvalue _
    | cons x xs =>
      cases xs with
      | nil => cases x <;> rfl
      | cons y ys => exact hrebuilt
  · rw [if_neg hop, if_neg hop]
    exact hrebuilt

/-- The compiled expression is the predicted constant, or the predicted label. -/
structure HasShape (e e' : Expr) : Prop where
  value : value? e' = constantOf e
  label : e'.labelIndex = labelOf e

/-- `HasShape` for the children of an n-ary operator. -/
structure HaveShapes (args nodes : List Expr) : Prop where
  value : nodes.map value? = args.map childConstant
  label : nodes.map Expr.labelIndex = args.map labelOf

theorem compileExprWith_shape (again : Expr → CompileM Compiled) :
    (∀ e, Returns (fun r => HasShape e r.1) (compileExprWith again e)) ∧
    (∀ _ : List Expr, True) ∧
    (∀ args, Returns (fun r => HaveShapes args r.1) (compileChildren again args)) := by
  apply compileExprWith.mutual_induct
  case case1 =>
    intro k op x p hx
    refine .bind_const fun r => .pure ?_
    split <;> exact ⟨rfl, rfl⟩
  case case2 =>
    intro k op x y p hx hy
    refine hx.bind fun x' hx' => hy.bind fun y' hy' => ?_
    have hboth : Returns (fun e => (if e.isValid then value? e else .none) =
          booleanConstant op (constantOf x) (constantOf y) ∧
        e.labelIndex = booleanLabel op (constantOf x) (constantOf y) (labelOf x) (labelOf y))
        (simplifyBoolean again op x'.1 y'.1) := by
      rw [← hx'.value, ← hy'.value, ← hx'.label, ← hy'.label]
      exact fun c => ⟨simplifyBoolean_value? again op x'.1 y'.1 c,
        simplifyBoolean_labelIndex again op x'.1 y'.1 c⟩
    refine hboth.bind fun e he => ?_
    obtain ⟨hvalue, hlabel⟩ := he
    refine .pure ⟨?_, ?_⟩
    · rw [constantOf, ← hvalue]
      split
      · rfl
      · split <;> rfl
    · rw [labelOf, ← hlabel]
      split
      · rfl
      · next hinvalid =>
        have hnone : e.labelIndex = .none := by
          cases e with
          | label _ _ => exact absurd rfl hinvalid
          | _ => rfl
        rw [hnone]
        split <;> rfl
  case case3 =>
    intro k args p hargs
    exact .bind_const fun r => .pure ⟨value?_rebuildChildren (e := .mem k args p) rfl _ _ _ _,
      labelIndex_rebuildChildren (e := .mem k args p) rfl _ _ _ _⟩
  case case4 =>
    intro k fn address args p hvars
    rw [compileExprWith, if_pos hvars]
    refine .bind_const fun call => (newVar_isCopy _).bind fun v hv => .bind_const fun _ => .pure ?_
    exact ⟨by rw [hv.value?, constantOf_tuple]; rfl, by rw [hv.labelIndex, labelOf_tuple]; rfl⟩
  case case5 =>
    intro k fn address args p hvars hargs
    rw [compileExprWith, if_neg hvars]
    refine .bind_const fun call => (newVar_isCopy _).bind fun v hv => .bind_const fun _ => .pure ?_
    exact ⟨by rw [hv.value?, constantOf_tuple]; rfl, by rw [hv.labelIndex, labelOf_tuple]; rfl⟩
  case case6 =>
    intro k op args p hop hargs
    rw [compileExprWith]
    · refine hargs.bind fun r hr => .pure ⟨?_, ?_⟩
      · rw [value?_rebuildChildren (e := .tuple k op args p) rfl, hr.value, constantOf_tuple]
      · rw [labelIndex_rebuildChildren (e := .tuple k op args p) rfl, hr.label, labelOf_tuple]
    · exact hop
  case case7 =>
    intro e hunary hbinary hmem hcall htuple
    rw [compileExprWith]
    · refine Returns.pure ?_
      cases e with
      | unary k op x p => exact (hunary k op x p rfl).elim
      | binary k op x y p => exact (hbinary k op x y p rfl).elim
      | tuple k op args p => exact (htuple k op args p rfl).elim
      | _ => exact ⟨rfl, rfl⟩
    all_goals assumption
  case case8 | case9 => intros; trivial
  case case10 => exact .pure ⟨rfl, rfl⟩
  case case11 =>
    intro xs hxs
    refine .bind_const fun _ => hxs.bind fun r hr => .pure ⟨?_, ?_⟩
    · rw [List.map_cons, List.map_cons, hr.value]
      rfl
    · rw [List.map_cons, List.map_cons, hr.label]
      rfl
  case case12 =>
    intro x xs hx hcomp hxs
    rw [compileChildren]
    · refine hcomp.bind fun r hr => ?_
      have hnode : Returns (fun node => HasShape x node.1) (toVarMemConst r.1 (again r.1)) :=
        fun c => ⟨(value?_toVarMemConst r.1 _ c).trans hr.value,
          (labelIndex_toVarMemConst r.1 _ c).trans hr.label⟩
      refine hnode.bind fun node hnode => hxs.bind fun rs hrs => .pure ⟨?_, ?_⟩
      · rw [List.map_cons, List.map_cons, hrs.value, hnode.value, childConstant]
        exact hx
      · rw [List.map_cons, List.map_cons, hrs.label, hnode.label]
    · exact hx

theorem compileExpr_shape (e : Expr) (c : Compiler) : HasShape e (compileExpr e c).1.1 :=
  (compileExprWith_shape fun e => pure (e, false)).1 e c

/-! ## What is compiled already -/

theorem IsCopy.settled {e : Expr} (h : IsCopy e) : HasShape e e := by
  obtain rfl | ⟨k, id, rfl⟩ := h <;> exact ⟨rfl, rfl⟩

theorem tuple_settled (k : Kind) {op : OpN} {args : List Expr} (p : Place)
    (h : op.isArithmetic → 2 ≤ args.length) : HasShape (tuple k op args p) (tuple k op args p) := by
  have htwo : op.isArithmetic → ∃ x y zs, args = x :: y :: zs := by
    intro hop
    have hlength := h hop
    match args, hlength with
    | x :: y :: zs, _ => exact ⟨x, y, zs, rfl⟩
  by_cases hop : op.isArithmetic
  · obtain ⟨x, y, zs, rfl⟩ := htwo hop
    constructor
    · rw [constantOf_tuple]
      unfold tupleConstant
      rw [if_pos hop]
      rfl
    · rw [labelOf_tuple]
      unfold tupleLabel
      rw [if_pos hop]
      rfl
  · constructor
    · rw [constantOf_tuple]
      unfold tupleConstant
      rw [if_neg hop]
      rfl
    · rw [labelOf_tuple]
      unfold tupleLabel
      rw [if_neg hop]
      rfl

theorem labelIndex_of_invalid {e : Expr} (h : ¬e.isValid) : e.labelIndex = .none := by
  cases e with
  | label _ _ => exact absurd rfl h
  | _ => rfl

theorem simplifyBoolean_cases (again : Expr → CompileM Compiled) (op : Op2) (x y : Expr) :
    Returns (fun e => e = x ∨ e = y ∨ IsCopy e) (simplifyBoolean again op x y) := by
  have hnone : ∀ e : Expr, e = .none → e = x ∨ e = y ∨ IsCopy e := fun _ h => .inr (.inr (.inl h))
  have hbranch : ∀ decided test,
      Returns (fun e => e = x ∨ e = y ∨ IsCopy e) (simplifyBranch again decided test x y) :=
    fun _ _ c => .inr (.inr (simplifyBranch_isCopy again _ _ x y c))
  unfold simplifyBoolean
  split
  · unfold simplifyLand
    split
    · apply Returns.pure
      split
      · exact .inr (.inl rfl)
      · exact .inl rfl
    · exact .ite _ (fun _ => .pure (.inl rfl)) fun _ => .bind_const fun _ => .pure (.inr (.inl rfl))
    · exact .pure (hnone _ rfl)
    · exact hbranch _ _
  · unfold simplifyLor
    split
    · apply Returns.pure
      split
      · exact .inl rfl
      · exact .inr (.inl rfl)
    · exact .ite _ (fun _ => .bind_const fun _ => .pure (.inr (.inl rfl))) fun _ => .pure (.inl rfl)
    · exact .pure (hnone _ rfl)
    · exact hbranch _ _
  · exact .pure (hnone _ rfl)

/-- A node that is not replaced has at least two children, or is no arithmetic. -/
theorem rebuildChildren_settled {e : Expr} {k : Kind} {op : OpN} {nodes : List Expr}
    {changed : Bool} (he : (op.isArithmetic → 2 ≤ nodes.length) → HasShape e e)
    (hnodes : ∀ x ∈ nodes, HasShape x x) :
    HasShape (rebuildChildren e k op nodes changed).1 (rebuildChildren e k op nodes changed).1 := by
  have hkept : (op.isArithmetic → 2 ≤ nodes.length) → ∀ r : Compiled,
      r = (if changed then (tuple k op nodes .fresh, true) else (e, false)) →
      HasShape r.1 r.1 := by
    rintro h r rfl
    split
    · exact tuple_settled k .fresh h
    · exact he h
  unfold rebuildChildren
  by_cases hop : op.isArithmetic
  · rw [if_pos hop]
    cases nodes with
    | nil =>
      change HasShape (ofValue _) (ofValue _)
      unfold ofValue
      split <;> exact ⟨rfl, rfl⟩
    | cons x xs =>
      cases xs with
      | nil =>
        have hx := hnodes x (List.mem_singleton_self x)
        change HasShape x.toExpr x.toExpr
        unfold Expr.toExpr
        split
        · exact hx
        · exact ⟨rfl, rfl⟩
      | cons y ys => exact hkept (fun _ => by simp) _ rfl
  · rw [if_neg hop]
    exact hkept (fun h => absurd h hop) _ rfl

/-- An expression compiled to this has the same shape when it is compiled again. -/
theorem compileExprWith_settled (again : Expr → CompileM Compiled) :
    (∀ e, Returns (fun r => HasShape r.1 r.1) (compileExprWith again e)) ∧
    (∀ _ : List Expr, True) ∧
    (∀ args, Returns (fun r => r.1.length = args.length ∧ ∀ x ∈ r.1, HasShape x x)
      (compileChildren again args)) := by
  apply compileExprWith.mutual_induct
  case case1 =>
    intro k op x p hx
    refine .bind_const fun r => .pure ?_
    split <;> exact ⟨rfl, rfl⟩
  case case2 =>
    intro k op x y p hx hy
    have hshape := (compileExprWith_shape again).1
    have hxs : Returns (fun r => HasShape x r.1 ∧ HasShape r.1 r.1) (compileExprWith again x) :=
      fun c => ⟨hshape x c, hx c⟩
    have hys : Returns (fun r => HasShape y r.1 ∧ HasShape r.1 r.1) (compileExprWith again y) :=
      fun c => ⟨hshape y c, hy c⟩
    refine hxs.bind fun x' hx' => hys.bind fun y' hy' => ?_
    have hall : Returns (fun e => ((if e.isValid then value? e else .none) =
          booleanConstant op (value? x'.1) (value? y'.1) ∧
        e.labelIndex =
          booleanLabel op (value? x'.1) (value? y'.1) x'.1.labelIndex y'.1.labelIndex) ∧
        (e = x'.1 ∨ e = y'.1 ∨ IsCopy e)) (simplifyBoolean again op x'.1 y'.1) :=
      fun c => ⟨⟨simplifyBoolean_value? again op x'.1 y'.1 c,
        simplifyBoolean_labelIndex again op x'.1 y'.1 c⟩, simplifyBoolean_cases again op x'.1 y'.1 c⟩
    refine hall.bind fun e he => .pure ?_
    obtain ⟨⟨hvalue, hlabel⟩, hcases⟩ := he
    split
    · obtain rfl | rfl | h := hcases
      · exact hx'.2
      · exact hy'.2
      · exact h.settled
    · next hinvalid =>
      rw [if_neg hinvalid] at hvalue
      rw [labelIndex_of_invalid hinvalid] at hlabel
      split
      · constructor
        · change value? (newBinary op x'.1 y'.1) = constantOf (newBinary op x'.1 y'.1)
          rw [newBinary, constantOf, ← hx'.2.value, ← hy'.2.value, ← hvalue]
          rfl
        · change (newBinary op x'.1 y'.1).labelIndex = labelOf (newBinary op x'.1 y'.1)
          rw [newBinary, labelOf, ← hx'.2.value, ← hy'.2.value, ← hx'.2.label, ← hy'.2.label,
            ← hlabel]
          rfl
      · constructor
        · change value? (binary k op x y p) = constantOf (binary k op x y p)
          rw [constantOf, ← hx'.1.value, ← hy'.1.value, ← hvalue]
          rfl
        · change (binary k op x y p).labelIndex = labelOf (binary k op x y p)
          rw [labelOf, ← hx'.1.value, ← hy'.1.value, ← hx'.1.label, ← hy'.1.label, ← hlabel]
          rfl
  case case3 =>
    intro k args p hargs
    exact hargs.bind fun r hr => .pure (rebuildChildren_settled (fun _ => ⟨rfl, rfl⟩) hr.2)
  case case4 =>
    intro k fn address args p hvars
    rw [compileExprWith, if_pos hvars]
    exact .bind_const fun call => (newVar_isCopy _).bind fun v hv => .bind_const fun _ =>
      .pure hv.settled
  case case5 =>
    intro k fn address args p hvars hargs
    rw [compileExprWith, if_neg hvars]
    exact .bind_const fun call => (newVar_isCopy _).bind fun v hv => .bind_const fun _ =>
      .pure hv.settled
  case case6 =>
    intro k op args p hop hargs
    rw [compileExprWith]
    · refine hargs.bind fun r hr => .pure (rebuildChildren_settled (fun h => ?_) hr.2)
      exact tuple_settled k p fun harith => hr.1 ▸ h harith
    · exact hop
  case case7 =>
    intro e hunary hbinary hmem hcall htuple
    rw [compileExprWith]
    · refine Returns.pure ?_
      cases e with
      | unary k op x p => exact (hunary k op x p rfl).elim
      | binary k op x y p => exact (hbinary k op x y p rfl).elim
      | tuple k op args p => exact (htuple k op args p rfl).elim
      | _ => exact ⟨rfl, rfl⟩
    all_goals assumption
  case case8 | case9 => intros; trivial
  case case10 => exact .pure ⟨rfl, fun x hx => absurd hx List.not_mem_nil⟩
  case case11 =>
    intro xs hxs
    refine .bind_const fun _ => hxs.bind fun r hr => .pure ⟨congrArg (· + 1) hr.1, ?_⟩
    exact List.forall_mem_cons.mpr ⟨⟨rfl, rfl⟩, hr.2⟩
  case case12 =>
    intro x xs hx hcomp hxs
    rw [compileChildren]
    · refine hcomp.bind fun r hr => ?_
      have hnode : Returns (fun node => HasShape node.1 node.1) (toVarMemConst r.1 (again r.1)) := by
        intro c
        obtain h | ⟨h, -, -⟩ := toVarMemConst_cases r.1 (again r.1) c
        · rw [h]
          exact hr
        · exact h.settled
      refine hnode.bind fun node hnode => hxs.bind fun rs hrs =>
        .pure ⟨congrArg (· + 1) hrs.1, ?_⟩
      exact List.forall_mem_cons.mpr ⟨hnode, hrs.2⟩
    · exact hx

theorem compileExpr_settled (e : Expr) (c : Compiler) :
    HasShape (compileExpr e c).1.1 (compileExpr e c).1.1 :=
  (compileExprWith_settled fun e => pure (e, false)).1 e c

end Compiler

end OneJit
