import OneJit.LoweredCalls

/-!
# Lowered expressions compute what they should

By induction over an expression: the lowered expression has its value after what is emitted for it,
with the same calls made, and no value where it has none.
-/

namespace OneJit

open FlatCode Stmt

namespace Compiler

open Expr CompileM

variable {w : Host}

/-- An operand that is evaluated where it stands calls nothing. -/
theorem operand_hasCall (e : Expr) (htype : e.type.isOperand) (hl : e.lowered) :
    e.hasCall = false := by
  have hlist : ∀ xs : List Expr, loweredOperands xs →
      (∀ x ∈ xs, x.type.isOperand → x.lowered → x.hasCall = false) → hasCallList xs = false := by
    intro xs
    induction xs with
    | nil => exact fun _ _ => rfl
    | cons x xs ih =>
      intro hxs hall
      rw [loweredOperands, Bool.and_eq_true, Bool.and_eq_true] at hxs
      rw [List.forall_mem_cons] at hall
      rw [hasCallList, hall.1 hxs.1.1 hxs.1.2, ih hxs.2 hall.2]
      rfl
  induction e using Expr.induct with
  | hmem k args p ih => exact hlist args hl ih
  | hconst | hvar | hlabel => rfl
  | _ => cases htype

/-- An expression that computes what it should is lowered to its value. -/
theorem compileExpr_makes (e : Expr) (he : e.computes)
    (ht : e.typed) (c : Compiler) (hbelow : e.varsBelow (bound c)) :
    Makes (compileExprWith compiled e) c (LoweredTo w (bound c) e) := by
  induction e using Expr.induct generalizing c with
  | hnone => cases he
  | hconst | hvar | hlabel | hftype => exact lowered_makes rfl rfl ht rfl hbelow
  | hmem k args p ih =>
    have hl : (Expr.mem k args p).lowered := he
    exact lowered_makes hl (operand_hasCall (.mem k args p) rfl hl) ht rfl hbelow
  | hunary k op x p ih =>
    rw [computes, Bool.and_eq_true, Bool.or_eq_true, beq_iff_eq] at he
    have htx := ht
    rw [Expr.typed, Bool.and_eq_true] at htx
    exact unary_makes ht he.2 (ih he.1 htx.1 c hbelow)
  | hbinary k op x y p ihx ihy =>
    rw [computes, Bool.and_eq_true, Bool.and_eq_true, Bool.and_eq_true, Bool.not_eq_true'] at he
    obtain ⟨⟨⟨hcx, hcy⟩, hmem⟩, hop⟩ := he
    have hts := ht
    rw [Expr.typed, Bool.and_eq_true, Bool.and_eq_true] at hts
    have hvars := hbelow
    rw [varsBelow, Bool.and_eq_true] at hvars
    refine binary_makes hbelow hmem ?_ (ihx hcx hts.1.1 c hvars.1)
      (fun c₁ hn => ihy hcy hts.1.2 c₁ (varsBelow_mono hn y hvars.2)) ?_
    · intro n r hr s a ha hdec
      cases hlogical : op.isLogical with
      | true =>
        rw [hlogical, if_pos rfl] at hop
        exact logical_quiet hlogical ht hr hop ha hdec
      | false =>
        rw [decidedBy_of_not_logical hlogical a] at hdec
        cases hdec
    · intro r r' c₂ hn hr hr'
      cases hlogical : op.isLogical with
      | true =>
        rw [hlogical, if_pos rfl] at hop
        exact logical_makes hlogical ht hr hr' hn hop
      | false =>
        rw [hlogical, if_neg Bool.false_ne_true, Bool.or_eq_true, beq_iff_eq] at hop
        exact plain_makes hlogical ht hop hr hr'
  | htuple k op args p ih =>
    by_cases hop : op = .call
    · subst hop
      obtain _ | ⟨fn, _ | ⟨address, args⟩⟩ := args
      · cases he
      · cases fn <;> cases he
      · cases fn with
        | ftype rs params =>
          refine call_makes he ht hbelow fun x hx c hcx htx hbx => ih x ?_ hcx htx c hbx
          exact List.mem_cons_of_mem _ (List.mem_cons_of_mem _ hx)
        | _ => cases he
    · have hoperands : computesOperands args := by
        cases op <;> first | exact he | exact absurd rfl hop
      have hchildren : Makes (compileChildren compiled args) c
          (LoweredList w (bound c) args) := by
        have hts := ht
        rw [Expr.typed, Bool.and_eq_true] at hts
        exact children_makes hoperands hts.1 hbelow
          fun x hx c hcx htx hbx => ih x hx hcx htx c hbx
      rw [compileExprWith]
      rotate_left
      · rintro fn address args' rfl
        exact absurd rfl hop
      refine hchildren.bind ((grows_basic.compileExprWith compiled_grows).2.2 args)
        (fun _ => grows_basic.pure _) ?_
      intro rs o c' _ hrs
      apply Makes.pure
      rw [List.append_nil]
      obtain _ | ⟨x, _ | ⟨y, zs⟩⟩ := args
      · exact empty_lowered hop ht hrs
      · exact single_lowered hop ht hrs
      · exact many_lowered hop ht hrs

end Compiler

namespace Expr

/-- The operator is replaced with an operand or a constant: an n-ary one with at most one operand,
or a short circuit with a constant operand. -/
def isReplaced : Expr → Bool
  | tuple _ op args _ => op.isArithmetic && decide (args.length < 2)
  | binary _ op x y _ => op.isLogical && ((constantOf x).isSome || (constantOf y).isSome)
  | _ => false

/-- The same class of nodes and the same kind, or a variable of that kind. -/
def KeepsClass (e r : Expr) : Prop := (r.type = e.type ∨ r.type = .var) ∧ r.kind = e.kind

/-- The outline of an operator that is not replaced. -/
theorem outline_keepsClass {e : Expr} (he : e.computes) (ht : e.typed)
    (hreplaced : e.isReplaced = false) :
    ((outline e).type = e.type ∨ (outline e).type = .var) ∧ (outline e).kind = e.kind := by
  cases e with
  | none | const v p | var k id | label i a | ftype r p | mem k args p | unary k op x p =>
    exact ⟨.inl rfl, rfl⟩
  | binary k op x y p =>
    cases hop : op.isLogical with
    | false =>
      rw [outline, hop]
      exact ⟨.inl rfl, rfl⟩
    | true =>
      obtain ⟨rfl, -⟩ := Compiler.logical_kinds hop ht
      rw [isReplaced, hop, Bool.true_and, Bool.or_eq_false_iff, Option.isSome_eq_false_iff,
        Option.isSome_eq_false_iff, Option.isNone_iff_eq_none, Option.isNone_iff_eq_none]
        at hreplaced
      rw [Compiler.outline_logical hop, hreplaced.1, hreplaced.2, Outline.logical]
      split
      · exact ⟨.inl rfl, rfl⟩
      · exact ⟨.inr rfl, rfl⟩
  | tuple k op args p =>
    by_cases hop : op = .call
    · subst hop
      exact ⟨.inr rfl, rfl⟩
    · obtain ⟨harith, -⟩ := Compiler.tuple_typed hop ht
      rw [isReplaced, harith, Bool.true_and, decide_eq_false_iff_not, Nat.not_lt] at hreplaced
      obtain _ | ⟨x, _ | ⟨y, zs⟩⟩ := args
      · cases hreplaced
      · exact absurd hreplaced (Nat.not_le.mpr Nat.one_lt_two)
      · rw [Compiler.outline_many hop]
        exact ⟨.inl rfl, rfl⟩

end Expr

namespace Compiler

open Expr

/-- A lowered expression keeps its class and its kind, and it has its value after what was emitted
for it, with the same calls made. -/
theorem compileExpr_preserves {e : Expr} (he : e.computes) (ht : e.typed) {c : Compiler}
    (hbelow : e.varsBelow (bound c)) (hroom : Room (compileExpr e c).2.2) :
    (compileExpr e c).1.1.valueKind = e.valueKind ∧
      (e.isReplaced = false → e.KeepsClass (compileExpr e c).1.1) ∧
      ∀ s : State, (runPiece w (compileExpr e c).2.1.nodes s).bind
        ((compileExpr e c).1.1.runAt w) = e.runAt w s := by
  have hlowered := compileExpr_makes (w := w) e he ht c hbelow hroom
  refine ⟨hlowered.describes.valueKind, fun hreplaced => ?_, hlowered.value⟩
  have hclass := outline_keepsClass he ht hreplaced
  rw [← hlowered.describes.type, ← hlowered.describes.kind] at hclass
  exact hclass

/-- A host whose calls return seven and leave the memory as it is. -/
def sevens : Host := ⟨fun _ => 0, fun _ _ h => (7, h.mem)⟩

/-- Every variable holds its identifier, and the memory is zero. -/
def identifiers : State := ⟨fun _ id => BitVec.ofNat 64 id, ⟨fun _ => 0, []⟩⟩

/-- A function with two variables. -/
def twoVars : Compiler := ⟨0, 2, [], [], [], []⟩

/-- The negated sum of a variable and the result of a call. -/
def sumWithCall : Expr :=
  .unary .int64 .neg1 (.tuple .int64 .add [.var .int64 0x1000,
    .tuple .int64 .call [.ftype [.int64] [.int64], .label 3 0, .var .int64 0x1001] .fresh] .fresh)
    .fresh

theorem compileExpr_preserves_sum :
    sumWithCall.KeepsClass (compileExpr sumWithCall twoVars).1.1 ∧
      (runPiece sevens (compileExpr sumWithCall twoVars).2.1.nodes identifiers).bind
        ((compileExpr sumWithCall twoVars).1.1.runAt sevens) =
      sumWithCall.runAt sevens identifiers := by
  obtain ⟨-, hclass, hvalue⟩ := compileExpr_preserves (w := sevens) (e := sumWithCall) (by decide)
    (by decide) (c := twoVars) (by decide) ⟨by decide, by decide⟩
  exact ⟨hclass (by decide), hvalue identifiers⟩

/-- A sum of one constant is replaced with the constant. -/
theorem not_keepsClass_sum :
    ¬(Expr.tuple .int32 .add [.const ⟨3, .int32⟩ .direct] .fresh).KeepsClass
      (compileExpr (.tuple .int32 .add [.const ⟨3, .int32⟩ .direct] .fresh) twoVars).1.1 := by
  intro hkeeps
  obtain hsame | hvar := hkeeps.1
  · cases hsame
  · cases hvar

/-! ## Short circuits -/

/-- The code for a short circuit has the value of the left operand where this decides, and that of
the right one otherwise; what this one calls or traps on happens only then. -/
def ShortCircuits (w : Host) (op : Op2) (x y r : Expr) (nodes : List Stmt) : Prop :=
  ∀ s : State, (runPiece w nodes s).bind (r.runAt w) = (x.runAt w s).bind fun v =>
    if op.decidedBy v.1 then some v else y.run w s.vars v.2

/-- An expression of kind Bool is zero or one. -/
theorem typed_bit {e : Expr} (ht : e.typed) (hk : e.valueKind = .bool) {ρ : Vars} {h h' : Heap}
    {a : BitVec 64} (ha : e.run w ρ h = some (a, h')) : a = 0 ∨ a = 1 := by
  have hnormal := run_normal e ht (hk ▸ rfl) ha
  rw [hk] at hnormal
  exact bool_cases hnormal

/-- A short circuit calls and traps as its operands do, where what is emitted for the right one does
not. -/
theorem compileExpr_shortCircuits {k : Kind} {op : Op2} {x y : Expr} {p : Place}
    (hop : op.isLogical) (he : (Expr.binary k op x y p).computes)
    (ht : (Expr.binary k op x y p).typed) {c : Compiler}
    (hbelow : (Expr.binary k op x y p).varsBelow (bound c))
    (hroom : Room (compileExpr (.binary k op x y p) c).2.2) :
    ShortCircuits w op x y (compileExpr (.binary k op x y p) c).1.1
      (compileExpr (.binary k op x y p) c).2.1.nodes := by
  intro s
  have hlowered := compileExpr_makes (w := w) (.binary k op x y p) he ht c hbelow hroom
  obtain ⟨-, hkx, hky⟩ := logical_kinds hop ht
  have htyped := ht
  rw [Expr.typed, Bool.and_eq_true, Bool.and_eq_true] at htyped
  exact (hlowered.value s).trans
    (runAt_logical_of_bits hop hkx (typed_bit htyped.1.1 hkx) (typed_bit htyped.1.2 hky))

/-- A division that is guarded by a comparison with zero. -/
theorem compileExpr_shortCircuits_quo :
    ShortCircuits sevens .land
      (.binary .bool .neq (.var .int64 0x1000) (.const ⟨0, .int64⟩ .direct) .fresh)
      (.binary .bool .eql (.binary .int64 .quo (.var .int64 0x1001) (.var .int64 0x1000) .fresh)
        (.var .int64 0x1001) .fresh)
      (compileExpr (.binary .bool .land
        (.binary .bool .neq (.var .int64 0x1000) (.const ⟨0, .int64⟩ .direct) .fresh)
        (.binary .bool .eql (.binary .int64 .quo (.var .int64 0x1001) (.var .int64 0x1000) .fresh)
          (.var .int64 0x1001) .fresh) .fresh) twoVars).1.1
      (compileExpr (.binary .bool .land
        (.binary .bool .neq (.var .int64 0x1000) (.const ⟨0, .int64⟩ .direct) .fresh)
        (.binary .bool .eql (.binary .int64 .quo (.var .int64 0x1001) (.var .int64 0x1000) .fresh)
          (.var .int64 0x1001) .fresh) .fresh) twoVars).2.1.nodes :=
  compileExpr_shortCircuits rfl (by decide) (by decide) (by decide) ⟨by decide, by decide⟩

/-- A call of kind Bool without arguments but a Bool. -/
def boolCall : Expr :=
  .tuple .bool .call [.ftype [.bool] [.bool], .label 3 0, .var .bool 0x1001] .fresh

/-- The call in a right operand is made before the left one is looked at. -/
theorem not_shortCircuits_call :
    ¬ShortCircuits sevens .land (.var .bool 0x1000) boolCall
      (compileExpr (.binary .bool .land (.var .bool 0x1000) boolCall .fresh) twoVars).1.1
      (compileExpr (.binary .bool .land (.var .bool 0x1000) boolCall .fresh) twoVars).2.1.nodes := by
  intro hcode
  have hcalls := congrArg (Option.map fun r => r.2.calls.length) (hcode identifiers)
  revert hcalls
  decide

end Compiler

end OneJit
