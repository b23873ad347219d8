import OneJit.Hazards
import OneJit.OptimizerSound

/-!
# The optimizer and the checks

Every rule but three kinds of them performs exactly what its node does. The rules on twice the same
operand and the comma expressions drop operands, and with the former the operator goes too: a
division is not among the operands that `deep_equal` compares.
-/

namespace OneJit

namespace Expr

/-! ## Unary expressions -/

@[simp] theorem performs_zero {ρ : Valuation} {h : Hazard} (k : Kind) : ¬performs ρ (zero k) h :=
  performs_const _ _

@[simp] theorem performs_one {ρ : Valuation} {h : Hazard} (k : Kind) : ¬performs ρ (one k) h := by
  rw [one]
  split
  · exact performs_ofValue _
  · split
    · exact performs_ofValue _
    · exact performs_const _ _

theorem performs_toExpr {ρ : Valuation} {h : Hazard} {e : Expr} (he : e.toExpr.isValid) :
    performs ρ e.toExpr h ↔ performs ρ e h := by
  rw [isValid_toExpr he]

theorem comparison_total {op : Op2} (hop : op.isComparison) :
    (op ≠ .land ∧ op ≠ .lor) ∧ ∀ b, op.hazard b = .none := by
  cases op <;> first | exact ⟨by decide, fun _ => rfl⟩ | cases hop

theorem performs_comparison {op : Op2} (hop : op.isComparison) {ρ : Valuation} {h : Hazard}
    {k : Kind} {x y : Expr} {p : Place} :
    performs ρ (binary k op x y p) h ↔ performs ρ x h ∨ performs ρ y h :=
  performs_total (comparison_total hop).1 (comparison_total hop).2

theorem honours_simplifyUnary {c : Check} {k : Kind} {op : Op1} {x : Expr} {p : Place}
    (ht : (unary k op x p).typed) (hvalid : (Optimizer.simplifyUnary k op x).isValid) :
    Honours c (unary k op x p) (Optimizer.simplifyUnary k op x) := by
  have hself : ∀ self, self = (if (op == .cast || op == .bitcopy) && k == x.kind then x
      else none) → self.isValid → Honours c (unary k op x p) self := by
    intro self hself hv
    subst hself
    split at hv
    · next hcast =>
      rw [if_pos hcast]
      exact .of_iff fun _ _ => Iff.rfl
    · cases hv
  unfold Optimizer.simplifyUnary at hvalid ⊢
  generalize hdef : (if (op == .cast || op == .bitcopy) && k == x.kind then x else none) = self
    at hvalid ⊢
  replace hself := hself self hdef.symm
  cases x with
  | unary k' xop xx q =>
    dsimp only at hvalid ⊢
    by_cases hxx : xx.toExpr.isValid
    · rw [if_pos hxx] at hvalid ⊢
      rw [isValid_toExpr hxx] at hvalid ⊢
      split
      · exact .of_iff fun _ _ => Iff.rfl
      · exact .of_iff fun _ _ => Iff.rfl
      · refine .of_iff fun ρ h => ?_
        rw [newTuple, performs_tuple]
        simp [performs]
      · refine .of_iff fun ρ h => ?_
        rw [newBinary, performs_total (by decide) fun _ => rfl]
        simp [performs]
      · apply hself
        split at hvalid <;> simp_all
    · rw [if_neg hxx] at hvalid ⊢
      exact hself hvalid
  | binary k' bop bx by' q =>
    dsimp only at hvalid ⊢
    by_cases hcmp : (op == .not1 && bop.isComparison) = true
    · rw [if_pos hcmp]
      simp only [Bool.and_eq_true, beq_iff_eq] at hcmp
      obtain ⟨rfl, hbop⟩ := hcmp
      rw [typed, Bool.and_eq_true, typed_comparison hbop] at ht
      obtain ⟨⟨-, hx, hy, hkinds, hscalar⟩, -⟩ := ht
      rw [(valid_of_scalar hx hscalar).1, (valid_of_scalar hy (hkinds ▸ hscalar)).1]
      refine .of_iff fun ρ h => ?_
      rw [newBinary, performs_comparison (compares_notComparison hbop .bool 0 0).1,
        performs, performs_comparison hbop]
    · rw [if_neg hcmp] at hvalid ⊢
      exact hself hvalid
  | _ => exact hself hvalid

theorem honours_tryOptimizeUnary {c : Check} {o : Optimizer} {k : Kind} {op : Op1} {x : Expr}
    {p : Place} (ht : (unary k op x p).typed) (hvalid : (o.tryOptimizeUnary k op x).isValid) :
    Honours c (unary k op x p) (o.tryOptimizeUnary k op x) := by
  have htyped := ht
  rw [typed, Bool.and_eq_true] at htyped
  obtain ⟨hxe, hxv⟩ := valid_of_scalar htyped.1 (typed1_scalar htyped.2).2
  have hrule : (if o.flags.simplifyExpr then Optimizer.simplifyUnary k op x else none).isValid →
      Honours c (unary k op x p)
        (if o.flags.simplifyExpr then Optimizer.simplifyUnary k op x else none) := by
    intro hv
    split at hv
    · next hflag =>
      rw [if_pos hflag]
      exact honours_simplifyUnary ht hv
    · cases hv
  unfold Optimizer.tryOptimizeUnary at hvalid ⊢
  rw [hxe] at hvalid ⊢
  dsimp only at hvalid ⊢
  rw [if_pos hxv] at hvalid ⊢
  cases x with
  | const v q =>
    dsimp only at hvalid ⊢
    split
    · refine .of_iff fun ρ h => ?_
      rw [performs]
      simp
    · next hfold =>
      rw [if_neg hfold] at hvalid
      exact hrule hvalid
  | _ => exact hrule hvalid

/-! ## Binary expressions -/

/-- The condition of the rules on twice the same operand: what is replaced by a constant is pure, its
operator included. -/
def ruleHonours (o : Optimizer) (op : Op2) (x y : Expr) : Bool :=
  let pure := !deepEqual o.allowMaskPure x y || deepPure o.allowMaskPure (newBinary op x y)
  match op with
  | .sub | .quo | .rem => pure
  | .lss | .leq | .neq | .eql | .gtr | .geq => y.isConst || pure
  | .land | .lor | .shl | .shr | .bad2 => true

/-- The condition on the checks of the step on an `Op2`. -/
def binaryHonours (o : Optimizer) (op : Op2) (x y : Expr) : Bool :=
  match x, y with
  | .const _ _, .const _ _ =>
    o.flags.foldConstant || !o.flags.simplifyExpr || rulesMeet (ruleHonours o) op x y
  | _, _ => !o.flags.simplifyExpr || rulesMeet (ruleHonours o) op x y

/-- The identity of an operator is not a divisor nor a count that traps. -/
theorem hazard_identity {k : Kind} {op : Op2} {v : Value} (hv : v.kind.isScalar)
    (hvalid : (Value.identity2 k op).isValid) (h : ((Value.identity2 k op).eq v).toBool) :
    (op ≠ .land ∧ op ≠ .lor) ∧ op.hazard v.meaning = .none := by
  have heq : Value.identity2 k op = v := Value.eq_toBool hv h
  have hbits := Value.identity2_bits (heq ▸ hv)
  rw [heq] at hbits
  rw [Value.meaning]
  rcases hbits with ⟨rfl, hone, -⟩ | ⟨rfl | rfl | rfl, hzero⟩
  · rw [hone, Kind.wrap_one hv]
    exact ⟨by decide, rfl⟩
  · exact ⟨by decide, rfl⟩
  · rw [hzero, Kind.wrap_zero hv]
    exact ⟨by decide, rfl⟩
  · rw [hzero, Kind.wrap_zero hv]
    exact ⟨by decide, rfl⟩

theorem honours_partialEvalBinary {c : Check} {k : Kind} {op : Op2} {x y : Expr} {p : Place}
    (ht : (binary k op x y p).typed) (hvalid : (Optimizer.partialEvalBinary op x y).isValid) :
    Honours c (binary k op x y p) (Optimizer.partialEvalBinary op x y) := by
  rw [typed, Bool.and_eq_true, Bool.and_eq_true] at ht
  rcases partialEvalBinary_cases hvalid with ⟨hop, heq⟩ | ⟨v, q, rfl, hident, hequal, heq⟩
  · rw [heq]
    refine .of_iff fun ρ h => ?_
    rw [newBinary, performs_comparison (compares_swapComparison hop .bool 0 0).1,
      performs_comparison hop, or_comm]
  · rw [heq]
    obtain ⟨hop, hnone⟩ := hazard_identity ht.1.2 hident hequal
    refine .of_iff fun ρ h => ?_
    rw [performs_binary hop]
    simp [eval, hnone]

/-- What is replaced by a constant performs nothing that is checked. -/
theorem honours_constant {o : Optimizer} {k : Kind} {op : Op2} {x y result : Expr} {p : Place}
    (hpure : !deepEqual o.allowMaskPure x y || deepPure o.allowMaskPure (newBinary op x y))
    (hequal : deepEqual o.allowMaskPure x y) (hnone : ∀ ρ h, ¬performs ρ result h) :
    Honours o.check (binary k op x y p) result := by
  rw [hequal, Bool.not_true, Bool.false_or] at hpure
  exact .of_pure (fun ρ h hc => performs_pure (e := binary k op x y p) hpure hc) hnone

theorem honours_simplifySelf {o : Optimizer} {k : Kind} {op : Op2} {x y result : Expr} {p : Place}
    (hpure : !deepEqual o.allowMaskPure x y || deepPure o.allowMaskPure (newBinary op x y))
    (hnone : ∀ ρ h, ¬performs ρ result h) (hvalid : (o.simplifySelf x y result).isValid) :
    Honours o.check (binary k op x y p) (o.simplifySelf x y result) := by
  rw [Optimizer.simplifySelf] at hvalid ⊢
  split at hvalid
  · next hequal =>
    rw [if_pos hequal]
    exact honours_constant hpure hequal hnone
  · cases hvalid

/-- `simplify_comma` drops a pure operand only. -/
theorem honours_simplifyComma {o : Optimizer} {e x y : Expr} (hy : ∀ ρ h, ¬performs ρ y h)
    (he : ∀ ρ h, performs ρ e h ↔ performs ρ x h) : Honours o.check e (o.simplifyComma [x, y]) := by
  unfold Optimizer.simplifyComma
  by_cases hpure : deepPure o.allowMaskPure x
  · simp only [List.getLast?_cons_cons, List.getLast?_singleton, List.dropLast_cons_cons,
      List.dropLast_singleton, List.filter_cons, hpure, Bool.not_true, Bool.false_eq_true, if_false,
      List.filter_nil, List.isEmpty_nil, if_true]
    exact .of_pure (fun ρ h hc hp => performs_pure hpure hc ((he ρ h).mp hp)) hy
  · refine .of_iff fun ρ h => ?_
    rw [he]
    simp [hpure, performs_tuple, hy]

/-- The rules for the logical operators. -/
theorem honours_simplifyBoolean {o : Optimizer} {k : Kind} {op : Op2} {x y : Expr} {p : Place}
    (hop : op = .land ∨ op = .lor) (ht : (binary k op x y p).typed) (hx : constNormal x)
    (hvalid : (o.simplifyBoolean op x y).isValid) :
    Honours o.check (binary k op x y p) (o.simplifyBoolean op x y) := by
  have hhazard : ∀ b, op.hazard b = .none := by
    rcases hop with rfl | rfl <;> exact fun _ => rfl
  have hperforms : ∀ ρ h, performs ρ (binary k op x y p) h ↔
      performs ρ x h ∨ (op.needs (eval ρ x) ∧ performs ρ y h) := by
    intro ρ h
    rw [performs]
    simp [hhazard]
  obtain ⟨heqx, heqy, hnone⟩ := simplifyBoolean_eq (o := o) hop (x := x) (y := y)
  by_cases hcx : x.isConst
  · obtain ⟨c, q, rfl⟩ := isConst_iff.mp hcx
    rw [heqx c q rfl]
    obtain ⟨-, ⟨-, hck⟩, -⟩ := typed_logical hop ht
    have hneeds : ∀ ρ, op.needs (eval ρ (const c q)) ↔ ¬c.toBool = (op == .lor) := by
      intro ρ
      rw [← meaning_decides hop hck (of_decide_eq_true hx)]
      have hbool := meaning_bool hck (of_decide_eq_true hx)
      rcases hop with rfl | rfl <;> cases hb : c.toBool <;>
        simp [Op2.needs, eval, Op2.decidedBy, hbool, hb]
    refine .of_iff fun ρ h => ?_
    rw [hperforms, hneeds]
    split
    · next hstop => simp [hstop]
    · next hstop => simp [hstop]
  · by_cases hcy : y.isConst
    · obtain ⟨c, q, rfl⟩ := isConst_iff.mp hcy
      rw [heqy c q (by simpa using hcx) rfl]
      have hleft : ∀ ρ h, performs ρ (binary k op x (const c q) p) h ↔ performs ρ x h := by
        intro ρ h
        rw [hperforms]
        simp
      split
      · exact honours_simplifyComma (fun _ _ => performs_const _ _) hleft
      · exact .of_iff fun ρ h => (hleft ρ h).symm
    · rw [hnone (by simpa using hcx) (by simpa using hcy)] at hvalid
      cases hvalid

/-- The rules for the comparisons. -/
theorem honours_simplifyComparison {o : Optimizer} {k : Kind} {op : Op2} {x y : Expr} {p : Place}
    (hop : op.isComparison) (hok : ruleHonours o op x y)
    (hvalid : (o.simplifyComparison op x y).isValid) :
    Honours o.check (binary k op x y p) (o.simplifyComparison op x y) := by
  unfold Optimizer.simplifyComparison at hvalid ⊢
  by_cases hconst : y.isConst
  · obtain ⟨c, q, rfl⟩ := isConst_iff.mp hconst
    have hleft : ∀ ρ h, performs ρ (binary k op x (const c q) p) h ↔ performs ρ x h := by
      intro ρ h
      rw [performs_comparison hop]
      simp
    have hnew : ∀ op', op'.isComparison →
        Honours o.check (binary k op x (const c q) p) (newBinary op' x (const c q)) := by
      intro op' hop'
      refine .of_iff fun ρ h => ?_
      rw [newBinary, performs_comparison hop', hleft]
      simp
    dsimp only at hvalid ⊢
    split at hvalid
    · next hzero =>
      rw [if_pos hzero]
      cases op with
      | lss | geq => exact honours_simplifyComma (fun _ _ => performs_const _ _) hleft
      | leq | gtr => exact hnew _ rfl
      | _ => cases hvalid
    · cases hvalid
  · have hpure : !deepEqual o.allowMaskPure x y || deepPure o.allowMaskPure (newBinary op x y) := by
      have hy : y.isConst = false := by simpa using hconst
      cases op <;> first | simpa [ruleHonours, hy] using hok | cases hop
    have hequal : deepEqual o.allowMaskPure x y := by
      by_contra hne
      simp only [hne, if_false] at hvalid
      cases y <;> first | cases hvalid | exact hconst rfl
    have hresult : ∀ result, (∀ ρ h, ¬performs ρ result h) →
        Honours o.check (binary k op x y p) result :=
      fun _ hnone => honours_constant hpure hequal hnone
    cases y with
    | const c q => exact absurd rfl hconst
    | _ =>
      simp only [hequal, if_true] at hvalid ⊢
      cases op <;> first | exact hresult _ (fun _ _ => performs_const _ _) | cases hvalid

theorem honours_simplifyOp {o : Optimizer} {k : Kind} {op : Op2} {x y : Expr} {p : Place}
    (ht : (binary k op x y p).typed) (hok : ruleOk o op x y) (hpure : ruleHonours o op x y)
    (hvalid : (o.simplifyOp op x y).isValid) :
    Honours o.check (binary k op x y p) (o.simplifyOp op x y) := by
  have hlogical : op = .land ∨ op = .lor → (o.simplifyBoolean op x y).isValid →
      Honours o.check (binary k op x y p) (o.simplifyBoolean op x y) := by
    intro hop hv
    have hnormal : constNormal x ∧ constNormal y := by
      rcases hop with rfl | rfl <;> simpa [ruleOk] using hok
    exact honours_simplifyBoolean hop ht hnormal.1 hv
  cases op with
  | sub => exact honours_simplifySelf hpure (fun _ _ => performs_zero _) hvalid
  | quo => exact honours_simplifySelf hpure (fun _ _ => performs_one _) hvalid
  | rem => exact honours_simplifySelf hpure (fun _ _ => performs_zero _) hvalid
  | land => exact hlogical (.inl rfl) hvalid
  | lor => exact hlogical (.inr rfl) hvalid
  | lss | leq | neq | eql | gtr | geq => exact honours_simplifyComparison rfl hpure hvalid
  | shl | shr | bad2 => cases hvalid

theorem honours_simplifyBinary {o : Optimizer} {k : Kind} {op : Op2} {x y : Expr} {p : Place}
    (ht : (binary k op x y p).typed) (hok : simplifyBinaryOk o op x y)
    (hpure : rulesMeet (ruleHonours o) op x y) (hvalid : (o.simplifyBinary op x y).isValid) :
    Honours o.check (binary k op x y p) (o.simplifyBinary op x y) := by
  unfold Optimizer.simplifyBinary at hvalid ⊢
  unfold simplifyBinaryOk at hok
  unfold rulesMeet at hpure
  by_cases hfold : (Optimizer.partialEvalBinary op x y).isValid
  · have hrefines := partialEvalBinary_refines ht hfold
    have hhonours := honours_partialEvalBinary (c := o.check) ht hfold
    simp only [hfold, if_true] at hok hpure hvalid ⊢
    generalize Optimizer.partialEvalBinary op x y = e at hok hpure hvalid hrefines hhonours ⊢
    cases e with
    | binary k' op' x' y' q =>
      obtain ⟨hx, hy⟩ := operands_valid hrefines.typed
      dsimp only at hok hpure hvalid ⊢
      rw [hx.1, hy.1] at hvalid ⊢
      by_cases hrule : (o.simplifyOp op' x' y').isValid
      · rw [if_pos hrule]
        exact hhonours.trans (honours_simplifyOp hrefines.typed hok hpure hrule)
      · rw [if_neg hrule]
        exact hhonours
    | _ => exact hhonours
  · simp only [hfold] at hok hpure hvalid ⊢
    exact honours_simplifyOp ht hok hpure hvalid

/-- Two constants are folded where the host does not trap. -/
theorem honours_foldBinary {c : Check} {k : Kind} {op : Op2} {v w r : Value} {q q' p : Place}
    (hf : binaryFolds op v w) :
    Honours c (binary k op (const v q) (const w q') p) (ofValue r) := by
  refine .of_pure ?_ fun _ _ => performs_ofValue _
  intro ρ h hc hp
  rw [performs] at hp
  simp only [performs_const, and_false, false_or, eval, Option.some.injEq, exists_eq_left'] at hp
  cases op <;> simp only [Op2.hazard, reduceCtorEq] at hp
  all_goals
    split at hp
    · next hzero =>
      obtain rfl := Option.some.inj hp
      first
        | cases hc
        | (obtain ⟨-, hnormal, hne, -⟩ := hf
           rw [hnormal.meaning] at hzero
           exact hne hzero)
    · cases hp

theorem honours_tryOptimizeBinary {o : Optimizer} {k : Kind} {op : Op2} {x y e : Expr} {p : Place}
    (ht : (binary k op x y p).typed) (hok : binaryOk o op x y) (hpure : binaryHonours o op x y)
    (he : o.tryOptimizeBinary op x y = some e) (hvalid : e.isValid) :
    Honours o.check (binary k op x y p) e := by
  obtain ⟨⟨hxe, hxv⟩, hye, hyv⟩ := operands_valid ht
  have hrule : (!o.flags.simplifyExpr || simplifyBinaryOk o op x y) = true →
      (!o.flags.simplifyExpr || rulesMeet (ruleHonours o) op x y) = true →
      ((if o.flags.simplifyExpr then o.simplifyBinary op x y else none).isValid) →
      Honours o.check (binary k op x y p)
        (if o.flags.simplifyExpr then o.simplifyBinary op x y else none) := by
    intro hok hpure hv
    by_cases hflag : o.flags.simplifyExpr
    · rw [if_pos hflag] at hv ⊢
      rw [hflag, Bool.not_true, Bool.false_or] at hok hpure
      exact honours_simplifyBinary ht hok hpure hv
    · rw [if_neg hflag] at hv
      cases hv
  unfold Optimizer.tryOptimizeBinary at he
  simp only [hxe, hye, hxv, hyv, Bool.and_self, if_true] at he
  by_cases hconst : x.isConst ∧ y.isConst
  · obtain ⟨v, q, rfl⟩ := isConst_iff.mp hconst.1
    obtain ⟨w, q', rfl⟩ := isConst_iff.mp hconst.2
    have htyped := ht
    rw [typed, Bool.and_eq_true, Bool.and_eq_true] at htyped
    obtain ⟨-, hkv, hkw⟩ := typed2_scalar htyped.2
    have hvv : v.isValid := Value.isValid_of_isScalar hkv
    have hwv : w.isValid := Value.isValid_of_isScalar hkw
    by_cases hfold : o.flags.foldConstant
    · have hfolds : binaryFolds op v w := by simpa [binaryOk, hfold] using hok
      simp only [hfold, hvv, hwv, Bool.and_self, if_true] at he
      obtain ⟨r, hr, he⟩ := Option.bind_eq_some_iff.mp he
      obtain rfl := Option.some.inj he
      by_cases hrv : r.isValid
      · rw [if_pos hrv]
        exact honours_foldBinary hfolds
      · rw [if_neg hrv] at hvalid ⊢
        have hop : op = .shl ∨ op = .shr := by
          by_contra hop
          rw [not_or] at hop
          exact hrv (evalBinaryOp_isValid htyped.2 hop hr)
        apply hrule _ _ hvalid
        · rw [simplifyBinaryOk_shift hop, Bool.or_true]
        · have hrule : ruleHonours o op (const v q) (const w q') := by
            rcases hop with rfl | rfl <;> rfl
          rw [rulesMeet_shift hop hrule, Bool.or_true]
    · simp only [hfold, Bool.false_and, if_false, Bool.false_eq_true] at he
      obtain rfl := Option.some.inj he
      apply hrule _ _ hvalid
      · simpa [binaryOk, hfold] using hok
      · simpa [binaryHonours, hfold] using hpure
  · have hstep : binaryOk o op x y = (!o.flags.simplifyExpr || simplifyBinaryOk o op x y) ∧
        binaryHonours o op x y = (!o.flags.simplifyExpr || rulesMeet (ruleHonours o) op x y) := by
      cases x <;> first
        | exact ⟨rfl, rfl⟩
        | (cases y <;> first | exact ⟨rfl, rfl⟩ | exact absurd ⟨rfl, rfl⟩ hconst)
    rw [hstep.1] at hok
    rw [hstep.2] at hpure
    have hsome : o.tryOptimizeBinary op x y =
        some (if o.flags.simplifyExpr then o.simplifyBinary op x y else none) := by
      unfold Optimizer.tryOptimizeBinary
      simp only [hxe, hye, hxv, hyv, Bool.and_self, if_true]
      cases x <;> first
        | rfl
        | (cases y <;> first | rfl | exact absurd ⟨rfl, rfl⟩ hconst)
    unfold Optimizer.tryOptimizeBinary at hsome
    simp only [hxe, hye, hxv, hyv, Bool.and_self, if_true] at hsome
    rw [hsome] at he
    obtain rfl := Option.some.inj he
    exact hrule hok hpure hvalid

/-! ## Tuples -/

/-- The operands that are folded perform nothing. -/
theorem performs_cut {o : Optimizer} {op : OpN} {children : List Expr} {ρ : Valuation} {h : Hazard} :
    (∃ x ∈ (cut o op children).2, performs ρ x h) ↔ ∃ x ∈ children, performs ρ x h := by
  obtain ⟨cs, hcs, hconsts⟩ := cut_spec o op children
  have hmem : ∀ x, x ∈ children ↔ x ∈ cs ∨ x ∈ (cut o op children).2 := by
    intro x
    rw [← List.mem_append, ← hcs, List.mem_reverse]
    exact (arrange_perm o op children).mem_iff.symm
  constructor
  · intro ⟨x, hx, hp⟩
    exact ⟨x, (hmem x).mpr (.inr hx), hp⟩
  · intro ⟨x, hx, hp⟩
    rcases (hmem x).mp hx with hx | hx
    · obtain ⟨v, -, p, rfl⟩ := List.Forall₂.exists_right hconsts x hx
      exact absurd hp (performs_const _ _)
    · exact ⟨x, hx, hp⟩

/-- The step on an `OpN` leaves the node or performs what the operands do. -/
theorem performs_partialEvalTuple {o : Optimizer} {k : Kind} {op : OpN} {args : List Expr}
    {place : Place} {children : List Expr}
    (hvalid : (o.partialEvalTuple k op args place children).isValid) :
    o.partialEvalTuple k op args place children = tuple k op args place ∨
      ∀ ρ h, performs ρ (o.partialEvalTuple k op args place children) h ↔
        ∃ x ∈ children, performs ρ x h := by
  have hrebuild : ∀ xs : List Expr,
      (∀ ρ h, (∃ x ∈ xs, performs ρ x h) ↔ ∃ x ∈ children, performs ρ x h) →
      Optimizer.rebuildTuple k op args place xs = tuple k op args place ∨
        ∀ ρ h, performs ρ (Optimizer.rebuildTuple k op args place xs) h ↔
          ∃ x ∈ children, performs ρ x h := by
    intro xs hxs
    rw [Optimizer.rebuildTuple]
    split
    · exact .inl rfl
    · refine .inr fun ρ h => ?_
      rw [performs_tuple, hxs]
  by_cases hcond : (op.isAssociative && (o.flags.fastMath || !k.isFloat)) = true
  · rw [Bool.and_eq_true] at hcond
    rw [partialEvalTuple_eq hcond.1 hcond.2] at hvalid ⊢
    have hkept : ∀ ρ h, (∃ x ∈ (cut o op children).2, performs ρ x h) ↔
        ∃ x ∈ children, performs ρ x h := fun ρ h => performs_cut
    dsimp only at hvalid ⊢
    generalize (cut o op children).1 = consts at hvalid ⊢
    generalize (cut o op children).2 = kept at hkept hvalid ⊢
    generalize consts.foldl (fun v c => evalTupleOp k op [c, v]) (Value.identityN k op) = v
      at hvalid ⊢
    split
    · next hempty =>
      rw [List.isEmpty_iff] at hempty
      refine .inr fun ρ h => ?_
      simp [hempty]
    · next hempty =>
      rw [if_neg hempty] at hvalid
      split
      · next hne =>
        rw [if_pos hne] at hvalid
        split
        · next hvars =>
          rw [Bool.and_eq_true, List.all_eq_true] at hvars
          refine .inr fun ρ h => ?_
          rw [← hkept ρ h]
          have hnone : ∀ x ∈ kept, ¬performs ρ x h := by
            intro x hx
            have hvar := hvars.2 x hx
            cases x <;> first | exact performs_var _ _ | cases hvar
          simpa using hnone
        · split
          · next hvars hnil =>
            rw [if_neg hvars, if_pos hnil] at hvalid
            rw [List.isEmpty_iff] at hnil
            refine .inr fun ρ h => ?_
            rw [performs_toExpr hvalid, ← hkept ρ h]
            simp [hnil]
          · apply hrebuild
            intro ρ h
            rw [← hkept ρ h]
            simp [or_and_right, exists_or]
      · next hne =>
        rw [if_neg hne] at hvalid
        obtain _ | ⟨x, _ | ⟨y, rest⟩⟩ := kept
        · refine .inr fun ρ h => ?_
          rw [← hkept ρ h]
          simp
        · refine .inr fun ρ h => ?_
          rw [performs_toExpr hvalid, ← hkept ρ h]
          simp
        · apply hrebuild
          intro ρ h
          rw [← hkept ρ h]
          simp only [List.mem_reverse]
  · have hstep : o.partialEvalTuple k op args place children =
        Optimizer.rebuildTuple k op args place children := by
      unfold Optimizer.partialEvalTuple
      rw [if_neg hcond]
    rw [hstep]
    exact hrebuild children fun _ _ => Iff.rfl

theorem honours_partialEvalTuple {c : Check} {o : Optimizer} {k : Kind} {op : OpN}
    {args : List Expr} {place : Place} {children : List Expr}
    (hchildren : Honours c (tuple k op args place) (tuple k op children .fresh))
    (hvalid : (o.partialEvalTuple k op args place children).isValid) :
    Honours c (tuple k op args place) (o.partialEvalTuple k op args place children) := by
  rcases performs_partialEvalTuple hvalid with heq | hiff
  · rw [heq]
    exact .refl _
  · refine hchildren.trans (.of_iff fun ρ h => ?_)
    rw [hiff, performs_tuple]

end Expr

/-! ## Runs -/

/-- The condition of a step on the checks. -/
def Step.honours (o : Optimizer) : Step → Bool
  | .binary op x y => Expr.binaryHonours o op x y
  | .unary _ _ _ | .tuple _ _ _ | .splice _ => true

namespace Optimizer

open Expr

/-- A run on an expression honours the checks. -/
def HonoursExpr (o : Optimizer) (fuel : Nat) : Prop :=
  ∀ e e', e.typed → (∀ s ∈ steps o fuel e, s.ok o && s.honours o) →
    o.optimize fuel e = some e' → Refines e e' ∧ Honours o.check e e'

/-- A run on the operands of a tuple honours the checks. -/
def HonoursOperands (o : Optimizer) (fuel : Nat) : Prop :=
  ∀ kind op args p cs, (tuple kind op args p).typed →
    (∀ s ∈ childSteps o fuel kind op args, s.ok o && s.honours o) →
    o.flattenChildren fuel kind op args = some cs →
    Honours o.check (tuple kind op args p) (tuple kind op cs .fresh)

theorem flattenChild_honours {o : Optimizer} {fuel : Nat} (ihe : HonoursExpr o fuel)
    (ihc : HonoursOperands o fuel) {kind : Kind} {op : OpN} {child : Expr} {chunk : List Expr}
    (ht : child.typed) (hok : ∀ s ∈ stepsOfChild o fuel kind op child, s.ok o && s.honours o)
    (h : o.flattenChild fuel kind op child = some chunk) :
    Honours o.check child (tuple kind op chunk .fresh) := by
  have hgroup : ∀ e, e.typed → e.hasHeader kind op →
      (∀ s ∈ Step.splice op :: childSteps o fuel kind op e.children, s.ok o && s.honours o) →
      o.flattenChildren fuel kind op e.children = some chunk →
      Honours o.check e (tuple kind op chunk .fresh) := by
    intro e he hheader hok hchunk
    obtain ⟨args, p, rfl⟩ := hasHeader_iff.mp hheader
    rw [List.forall_mem_cons] at hok
    exact ihc kind op args p chunk he hok.2 hchunk
  rw [flattenChild] at h
  rw [stepsOfChild] at hok
  by_cases hheader : child.hasHeader kind op
  · rw [if_pos hheader] at hok h
    exact hgroup child ht hheader hok h
  · rw [if_neg hheader] at hok h
    obtain ⟨child', hchild', h⟩ := Option.bind_eq_some_iff.mp h
    rw [List.forall_mem_append] at hok
    obtain ⟨hrefines, hhonours⟩ := ihe child child' ht hok.1 hchild'
    rw [hchild'] at hok
    by_cases hheader' : child'.hasHeader kind op
    · rw [if_pos hheader'] at h
      exact hhonours.trans (hgroup child' hrefines.typed hheader' (by simpa [hheader'] using hok.2) h)
    · rw [if_neg hheader'] at h
      obtain rfl := Option.some.inj h
      refine hhonours.trans (.of_iff fun ρ h => ?_)
      simp [performs_tuple]

/-- The step on a tuple whose operands are flattened. -/
theorem flatten_honours {o : Optimizer} {fuel : Nat} (ihe : HonoursExpr o fuel)
    (ihc : HonoursOperands o fuel) : HonoursOperands o (fuel + 1) := by
  intro kind op args p cs ht hok h
  rw [childSteps, List.forall_mem_flatMap] at hok
  rw [typed, Bool.and_eq_true, typedList_iff] at ht
  rw [flattenChildren_succ, Option.map_eq_some_iff] at h
  obtain ⟨chunks, hchunks, rfl⟩ := h
  have hall : List.Forall₂ (fun a chunk => Honours o.check a (tuple kind op chunk .fresh))
      args chunks :=
    List.forall₂_of_mapM hchunks fun a ha chunk hchunk =>
      flattenChild_honours ihe ihc (ht.1 a ha) (hok a ha) hchunk
  have hmap : List.Forall₂ (Honours o.check) args
      (chunks.map fun chunk => tuple kind op chunk .fresh) := by
    rw [List.forall₂_map_right_iff]
    exact hall
  have hcongr : Honours o.check (tuple kind op args p)
      (tuple kind op (chunks.map fun chunk => tuple kind op chunk .fresh) .fresh) :=
    .tuple_congr hmap
  refine hcongr.trans (.of_iff fun ρ h => ?_)
  simp only [performs_tuple, List.mem_flatten, List.mem_map]
  constructor
  · rintro ⟨x, ⟨chunk, hchunk, hx⟩, hp⟩
    exact ⟨_, ⟨chunk, hchunk, rfl⟩, performs_tuple.mpr ⟨x, hx, hp⟩⟩
  · rintro ⟨e, ⟨chunk, hchunk, he⟩, hp⟩
    rw [← he, performs_tuple] at hp
    obtain ⟨x, hx, hp⟩ := hp
    exact ⟨x, ⟨chunk, hchunk, hx⟩, hp⟩

/-- One more level of a run: every step honours the checks. -/
theorem optimize_honoursExpr {o : Optimizer} {fuel : Nat} (ihe : HonoursExpr o fuel)
    (ihc : HonoursOperands o fuel) : HonoursExpr o (fuel + 1) := by
  intro e e' ht hok h
  have hrefines : Refines e e' := by
    obtain ⟨e'', he'', hr⟩ := (o.optimize_refines (fuel + 1)).1 e ht
      fun s hs => (Bool.and_eq_true_iff.mp (hok s hs)).1
    rw [h] at he''
    rwa [Option.some.inj he'']
  refine ⟨hrefines, ?_⟩
  cases e with
  | tuple kind op args place =>
    rw [optimize] at h
    rw [steps] at hok
    split at h
    · next hflag =>
      rw [if_pos hflag, List.forall_mem_append] at hok
      obtain ⟨children, hchildren, h⟩ := Option.bind_eq_some_iff.mp h
      have hhonours := ihc kind op args place children ht hok.1 hchildren
      rw [← Option.some.inj h]
      split
      · next hvalid => exact honours_partialEvalTuple hhonours hvalid
      · exact .refl _
    · rw [← Option.some.inj h]
      exact .refl _
  | mem kind args place =>
    rw [optimize] at h
    rw [steps, List.forall_mem_flatMap] at hok
    obtain ⟨children, hchildren, h⟩ := Option.bind_eq_some_iff.mp h
    rw [← Option.some.inj h]
    split
    · exact .refl _
    · rw [typed, Bool.and_eq_true, typedList_iff] at ht
      have hpairs : List.Forall₂ (fun a c => Refines a c ∧ Honours o.check a c) args children :=
        List.forall₂_of_mapM hchildren fun a ha c hrun => ihe a c (ht.2 a ha) (hok a ha) hrun
      exact .mem_congr (hpairs.imp fun _ _ hp => hp.2) (hpairs.imp fun _ _ hp => hp.1) ht.2
  | unary kind op x place =>
    rw [optimize] at h
    rw [steps, List.forall_mem_append] at hok
    obtain ⟨x', hx', h⟩ := Option.bind_eq_some_iff.mp h
    have htyped := ht
    rw [typed, Bool.and_eq_true] at htyped
    obtain ⟨hrx, hhx⟩ := ihe x x' htyped.1 hok.1 hx'
    have hcongr : Honours o.check (unary kind op x place) (unary kind op x' .fresh) :=
      .unary_congr hhx
    rw [← Option.some.inj h]
    split
    · next hvalid =>
      exact hcongr.trans (honours_tryOptimizeUnary (unary_congr (q := .fresh) ht hrx).typed hvalid)
    · split
      · exact .refl _
      · exact hcongr
  | binary kind op x y place =>
    rw [optimize] at h
    rw [steps, List.forall_mem_append, List.forall_mem_append] at hok
    obtain ⟨x', hx', h⟩ := Option.bind_eq_some_iff.mp h
    obtain ⟨y', hy', h⟩ := Option.bind_eq_some_iff.mp h
    obtain ⟨ret, hret, h⟩ := Option.bind_eq_some_iff.mp h
    have htyped := ht
    rw [typed, Bool.and_eq_true, Bool.and_eq_true] at htyped
    obtain ⟨hrx, hhx⟩ := ihe x x' htyped.1.1 hok.1.1 hx'
    obtain ⟨hry, hhy⟩ := ihe y y' htyped.1.2 hok.1.2 hy'
    have hcongr : Honours o.check (binary kind op x y place) (binary kind op x' y' .fresh) :=
      .binary_congr hhx hrx htyped.1.1 hhy hry htyped.1.2
    rw [hx', hy'] at hok
    have hstep := Bool.and_eq_true_iff.mp (hok.2 _ (List.mem_singleton_self _))
    rw [← Option.some.inj h]
    split
    · next hvalid =>
      exact hcongr.trans (honours_tryOptimizeBinary (binary_congr (q := .fresh) ht hrx hry).typed
        hstep.1 hstep.2 hret hvalid)
    · split
      · exact .refl _
      · exact hcongr
  | _ =>
    rw [optimize] at h
    rw [← Option.some.inj h]
    exact .refl _

/-- A run whose steps all meet their conditions honours the checks. -/
theorem optimize_honours (o : Optimizer) (fuel : Nat) :
    HonoursExpr o fuel ∧ HonoursOperands o fuel := by
  induction fuel with
  | zero =>
    constructor
    · intro e e' ht _ h
      obtain rfl := Option.some.inj h
      exact ⟨.refl ht, .refl _⟩
    · intro kind op args p cs _ _ h
      obtain rfl := Option.some.inj h
      refine .of_iff fun ρ h => ?_
      rw [performs_tuple, performs_tuple]
  | succ fuel ih => exact ⟨optimize_honoursExpr ih.1 ih.2, flatten_honours ih.1 ih.2⟩

end Optimizer

end OneJit
