import OneJit.Optimizer

/-!
# The optimizer on one unary expression

A rule returns the invalid expression or, on the condition of its step, a refinement of its node.
-/

namespace OneJit

namespace Expr

/-! ## Constants -/

theorem readBack_meaning {v : Value} (h : v.kind.isScalar) :
    (Imm.readBack v).kind = v.kind ∧ (Imm.readBack v).meaning = v.meaning := by
  rw [Imm.readBack]
  split
  · next hdirect =>
    have hvoid : Imm.atMostVoid v.kind = false := by
      revert h
      generalize v.kind = k
      apply Kind.scalar_cases <;> decide
    rw [Imm.toConst_directOf v hvoid hdirect]
    exact ⟨rfl, rfl⟩
  · refine ⟨rfl, ?_⟩
    rw [Imm.indirectBits]
    split
    · rfl
    · next hsize =>
      have hsmall : v.kind.bitsize ≤ 32 := by
        revert h hsize
        generalize v.kind = k
        apply Kind.scalar_cases <;> decide
      apply Kind.wrap_congr
      change ((v.bits.setWidth 32).setWidth 64).setWidth v.kind.bitsize = _
      rw [BitVec.setWidth_setWidth_of_le _ (Nat.le_trans hsmall (by decide)),
        BitVec.setWidth_setWidth_of_le _ hsmall]

theorem ofValue_eq {v : Value} (h : v.kind.isScalar) :
    ∃ p, ofValue v = const (Imm.readBack v) p := by
  rw [ofValue, if_pos (Value.isValid_of_isScalar h)]
  exact ⟨_, rfl⟩

theorem zero_eq {k : Kind} (h : k.isScalar) : zero k = const ⟨0, k⟩ .direct := by
  revert h
  apply Kind.scalar_cases <;> rfl

theorem one_eq {k : Kind} (h : k.isScalar) : one k = const ⟨1, k⟩ .direct := by
  revert h
  apply Kind.scalar_cases <;> rfl

/-- An expression refined by a constant. -/
theorem refines_const {e : Expr} {w : Value} {p : Place} (hk : w.kind = e.valueKind)
    (hs : w.kind.isScalar) (heval : ∀ ρ v, eval ρ e = some v → v = w.meaning) :
    Refines e (const w p) := by
  refine ⟨hs, hk, ?_⟩
  intro ρ v hv
  rw [eval, heval ρ v hv]

theorem refines_ofValue {e : Expr} {w : Value} (hk : w.kind = e.valueKind)
    (hs : w.kind.isScalar) (heval : ∀ ρ v, eval ρ e = some v → v = w.meaning) :
    Refines e (ofValue w) := by
  obtain ⟨p, hp⟩ := ofValue_eq hs
  have hback := readBack_meaning hs
  rw [hp]
  apply refines_const
  · rw [hback.1, hk]
  · rw [hback.1]
    exact hs
  · intro ρ v hv
    rw [hback.2]
    exact heval ρ v hv

/-! ## Operands -/

/-- An operand with a value is an expression and is valid. -/
theorem valid_of_scalar {e : Expr} (ht : e.typed) (hk : e.valueKind.isScalar) :
    e.toExpr = e ∧ e.isValid := by
  have hexpr : e.type.isExpr := by
    cases e with
    | none => cases ht
    | ftype r p => cases hk
    | _ => rfl
  refine ⟨if_pos hexpr, ?_⟩
  rw [isValid, bne_iff_ne]
  intro hbad
  cases e with
  | none => cases ht
  | label i a => cases hk
  | ftype r p => cases hk
  | tuple k op args p =>
    rw [kind] at hbad
    by_cases hop : op = .comma
    · subst hop
      simp only [typed, Kind.typedN, Bool.and_eq_true, beq_iff_eq] at ht
      rw [ht.2.1] at hbad
      cases hbad
    · rw [valueKind_tuple hop, hbad] at hk
      cases hk
  | _ =>
    rw [kind] at hbad
    have hscalar : (Kind.bad).isScalar := by
      rw [← hbad]
      exact hk
    cases hscalar

/-- The operand of kind `k` of a node whose kind is not `Void`. -/
theorem valueKind_of_kind {e : Expr} {k : Kind} (ht : e.typed) (hk : k.isScalar)
    (he : e.toExpr = e) (h : k = e.kind) : e.valueKind = k := by
  subst h
  apply valueKind_eq ht hk
  intro hf
  cases e <;> simp [type] at hf
  rw [toExpr] at he
  simp [type, NodeType.isExpr, NodeType.toNat] at he

/-! ## Unary expressions -/

/-- The condition of the step on an `Op1`: the folded constant means what the operator means, and
a new sum or difference is not built on a `COMMA`, whose kind is `Void`. -/
def unaryOk (o : Optimizer) (kind : Kind) (op : Op1) (x : Expr) : Bool :=
  match x with
  | .const v _ => !o.flags.foldConstant || decide (unaryFolds kind op v)
  | .unary _ xop xx _ =>
    let rebuilds := (op == .neg1 && xop == .xor1) || (op == .xor1 && xop == .neg1)
    !(o.flags.simplifyExpr && rebuilds) || xx.kind == xx.valueKind
  | _ => true

theorem refines_cast {k : Kind} {op : Op1} {x : Expr} {p : Place} (ht : (unary k op x p).typed)
    (hop : op = .cast ∨ op = .bitcopy) (hk : k = x.kind) : Refines (unary k op x p) x := by
  rw [typed, Bool.and_eq_true] at ht
  obtain ⟨hscalar, hx⟩ := typed1_scalar ht.2
  have hvk := valueKind_of_kind ht.1 hscalar (valid_of_scalar ht.1 hx).1 hk
  refine ⟨ht.1, hvk, ?_⟩
  intro ρ v hv
  obtain ⟨a, ha, hv⟩ := eval_unary.mp hv
  have hnormal := eval_normal ρ x ht.1 hx a ha
  have hcast : k.evalUnary op a = some (k.wrap a) := by
    rcases hop with rfl | rfl <;> rfl
  rw [hvk] at hnormal
  rw [ha, ← hv, hcast, hnormal]

/-- Two operators on top of each other, on an operand of the same kind. -/
theorem typed_unary_unary {k k' : Kind} {op op' : Op1} {x : Expr} {p p' : Place}
    (hop : op = .xor1 ∨ op = .neg1) (hop' : op' = .xor1 ∨ op' = .neg1)
    (ht : (unary k op (unary k' op' x p') p).typed) :
    x.typed ∧ k' = k ∧ x.valueKind = k ∧ k.isScalar := by
  have hkinds : ∀ {k kx : Kind} {op : Op1}, op = .xor1 ∨ op = .neg1 → k.typed1 op kx →
      kx = k ∧ k.isScalar := by
    intro k kx op hop h
    rcases hop with rfl | rfl
    all_goals
      simp only [Kind.typed1, Bool.and_eq_true, beq_iff_eq] at h
      exact ⟨h.1.symm, h.2⟩
  rw [typed, typed, Bool.and_eq_true, Bool.and_eq_true] at ht
  obtain ⟨⟨hx, hinner⟩, houter⟩ := ht
  obtain ⟨hk, hscalar⟩ := hkinds hop houter
  have hk' : k' = k := hk
  subst hk'
  exact ⟨hx, rfl, (hkinds hop' hinner).1, hscalar⟩

/-- The value of two operators on top of each other. -/
theorem eval_unary_unary {ρ : Valuation} {k k' : Kind} {op op' : Op1} {x : Expr} {p p' : Place}
    {v : BitVec 64} (h : eval ρ (unary k op (unary k' op' x p') p) = some v) :
    ∃ a b, eval ρ x = some a ∧ k'.evalUnary op' a = some b ∧ k.evalUnary op b = some v := by
  obtain ⟨b, hb, hv⟩ := eval_unary.mp h
  obtain ⟨a, ha, hb⟩ := eval_unary.mp hb
  exact ⟨a, b, ha, hb, hv⟩

theorem refines_xor_xor {k k' : Kind} {x : Expr} {p p' : Place}
    (ht : (unary k .xor1 (unary k' .xor1 x p') p).typed) :
    Refines (unary k .xor1 (unary k' .xor1 x p') p) x := by
  obtain ⟨hx, rfl, hk, hscalar⟩ := typed_unary_unary (.inl rfl) (.inl rfl) ht
  refine ⟨hx, hk, ?_⟩
  intro ρ v hv
  obtain ⟨a, b, ha, hb, hv⟩ := eval_unary_unary hv
  have hnormal := eval_normal ρ x hx (hk ▸ hscalar) a ha
  rw [hk] at hnormal
  rw [ha, ← hv, ← Option.some.inj hb, Kind.evalUnary, Kind.wrap_not hscalar, BitVec.not_not,
    hnormal]

theorem refines_neg_neg {k k' : Kind} {x : Expr} {p p' : Place}
    (ht : (unary k .neg1 (unary k' .neg1 x p') p).typed) :
    Refines (unary k .neg1 (unary k' .neg1 x p') p) x := by
  obtain ⟨hx, rfl, hk, hscalar⟩ := typed_unary_unary (.inr rfl) (.inr rfl) ht
  refine ⟨hx, hk, ?_⟩
  intro ρ v hv
  obtain ⟨a, b, ha, hb, hv⟩ := eval_unary_unary hv
  have hnormal := eval_normal ρ x hx (hk ▸ hscalar) a ha
  rw [hk] at hnormal
  rw [ha, ← hv, ← Option.some.inj hb, Kind.evalUnary, Kind.wrap_neg hscalar, BitVec.neg_neg,
    hnormal]

/-- `-~x` is `x + 1`. -/
theorem refines_neg_xor {k k' : Kind} {x : Expr} {p p' : Place}
    (ht : (unary k .neg1 (unary k' .xor1 x p') p).typed) (hk : x.kind = x.valueKind) :
    Refines (unary k .neg1 (unary k' .xor1 x p') p) (newTuple .add x (one x.kind)) := by
  obtain ⟨hx, rfl, hkx, hscalar⟩ := typed_unary_unary (.inr rfl) (.inl rfl) ht
  rw [newTuple, hk, hkx, one_eq hscalar]
  refine ⟨?_, rfl, ?_⟩
  · simp [typed, typedList, hx, hscalar, Kind.typedN, OpN.isCommutative, hkx, valueKind, kind]
  · intro ρ v hv
    obtain ⟨a, b, ha, hb, hv⟩ := eval_unary_unary hv
    refine eval_tuple.mpr ⟨[a, 1], ?_, ?_⟩
    · rw [evalList, evalList, evalList, ha, eval, Value.meaning, Kind.wrap_one hscalar]
      rfl
    · rw [← hv, ← Option.some.inj hb, apply_commutative rfl, Kind.evalUnary,
        Kind.wrap_neg hscalar, BitVec.neg_eq_not_add, BitVec.not_not]
      simp [Kind.tupleOp, Kind.tupleUnit, Kind.wrap_add_right hscalar]

/-- `~-x` is `x - 1`. -/
theorem refines_xor_neg {k k' : Kind} {x : Expr} {p p' : Place}
    (ht : (unary k .xor1 (unary k' .neg1 x p') p).typed) (hk : x.kind = x.valueKind) :
    Refines (unary k .xor1 (unary k' .neg1 x p') p) (newBinary .sub x (one x.kind)) := by
  obtain ⟨hx, rfl, hkx, hscalar⟩ := typed_unary_unary (.inl rfl) (.inr rfl) ht
  have hbinary : newBinary .sub x (one x.kind) =
      binary k' .sub x (const ⟨1, k'⟩ .direct) .fresh := by
    rw [newBinary, hk, hkx, one_eq hscalar]
    rfl
  rw [hbinary]
  refine ⟨?_, rfl, ?_⟩
  · simp [typed, hx, hscalar, Kind.typed2, hkx, valueKind, kind]
  · intro ρ v hv
    obtain ⟨a, b, ha, hb, hv⟩ := eval_unary_unary hv
    refine eval_binary.mpr ⟨a, ha, ?_⟩
    rw [if_neg (by simp [Op2.decidedBy])]
    refine ⟨1, ?_, ?_⟩
    · rw [eval, Value.meaning, Kind.wrap_one hscalar]
    · rw [← hv, ← Option.some.inj hb, Kind.evalUnary, Kind.wrap_not hscalar, hkx]
      simp [Kind.evalBinary, BitVec.not_neg]

/-! ### Comparisons -/

/-- A comparison and its operands, as a Bool. -/
def compares (k : Kind) (op : Op2) (a b : BitVec 64) : Bool :=
  match op with
  | .lss => k.less a b
  | .leq => !k.less b a
  | .neq => a != b
  | .eql => a == b
  | .gtr => k.less b a
  | .geq => !k.less a b
  | _ => false

theorem evalBinary_comparison {op : Op2} (hop : op.isComparison) (k : Kind) (a b : BitVec 64) :
    k.evalBinary op a b = some (if compares k op a b then 1 else 0) := by
  cases op <;> first | rfl | cases hop

theorem compares_notComparison {op : Op2} (hop : op.isComparison) (k : Kind) (a b : BitVec 64) :
    op.notComparison.isComparison ∧ compares k op.notComparison a b = !compares k op a b := by
  cases op <;> simp [Op2.isComparison] at hop <;>
    simp [Op2.notComparison, Op2.isComparison, compares, bne]

theorem compares_swapComparison {op : Op2} (hop : op.isComparison) (k : Kind) (a b : BitVec 64) :
    op.swapComparison.isComparison ∧ compares k op.swapComparison b a = compares k op a b := by
  cases op <;> simp [Op2.isComparison] at hop <;>
    simp [Op2.swapComparison, Op2.isComparison, compares, Bool.beq_comm, bne]

theorem typed2_comparison {op : Op2} (hop : op.isComparison) {k kx ky : Kind} :
    k.typed2 op kx ky ↔ k = .bool ∧ kx = ky ∧ kx.isScalar := by
  cases op <;> simp [Op2.isComparison] at hop <;> simp [Kind.typed2, and_assoc]

theorem decidedBy_comparison {op : Op2} (hop : op.isComparison) (a : BitVec 64) :
    op.decidedBy a = false := by
  cases op <;> first | rfl | cases hop

theorem newBinary_comparison {op : Op2} (hop : op.isComparison) (x y : Expr) :
    newBinary op x y = binary .bool op x y .fresh := by
  cases op <;> first | rfl | cases hop

theorem typed_comparison {op : Op2} (hop : op.isComparison) {k : Kind} {x y : Expr} {p : Place} :
    (binary k op x y p).typed ↔
      k = .bool ∧ x.typed ∧ y.typed ∧ x.valueKind = y.valueKind ∧ x.valueKind.isScalar := by
  rw [typed, Bool.and_eq_true, Bool.and_eq_true, typed2_comparison hop]
  tauto

theorem eval_comparison {op : Op2} (hop : op.isComparison) {ρ : Valuation} {k : Kind}
    {x y : Expr} {p : Place} {v : BitVec 64} :
    eval ρ (binary k op x y p) = some v ↔ ∃ a b, eval ρ x = some a ∧ eval ρ y = some b ∧
      (if compares x.valueKind op a b then 1 else 0) = v := by
  rw [eval_binary]
  simp only [decidedBy_comparison hop, Bool.false_eq_true, if_false,
    evalBinary_comparison hop, Option.some.injEq]
  constructor
  · intro ⟨a, ha, b, hb, hv⟩
    exact ⟨a, b, ha, hb, hv⟩
  · intro ⟨a, b, ha, hb, hv⟩
    exact ⟨a, ha, b, hb, hv⟩

theorem refines_not_comparison {k k' : Kind} {op : Op2} (hop : op.isComparison) {x y : Expr}
    {p p' : Place} (ht : (unary k .not1 (binary k' op x y p') p).typed) :
    Refines (unary k .not1 (binary k' op x y p') p)
      (newBinary op.notComparison x.toExpr y.toExpr) := by
  rw [typed, Bool.and_eq_true, typed_comparison hop] at ht
  obtain ⟨⟨-, hx, hy, hkinds, hscalar⟩, hnot⟩ := ht
  have hk : k = .bool := by
    simp only [Kind.typed1, Bool.and_eq_true, beq_iff_eq] at hnot
    exact hnot.1
  have hnop := fun a b => compares_notComparison hop x.valueKind a b
  rw [(valid_of_scalar hx hscalar).1, (valid_of_scalar hy (hkinds ▸ hscalar)).1,
    newBinary_comparison (hnop 0 0).1]
  refine ⟨(typed_comparison (hnop 0 0).1).mpr ⟨rfl, hx, hy, hkinds, hscalar⟩, hk.symm, ?_⟩
  intro ρ v hv
  obtain ⟨c, hc, hv⟩ := eval_unary.mp hv
  obtain ⟨a, b, ha, hb, hc⟩ := (eval_comparison hop).mp hc
  refine (eval_comparison (hnop a b).1).mpr ⟨a, b, ha, hb, ?_⟩
  rw [(hnop a b).2, ← Option.some.inj hv, ← hc]
  cases compares x.valueKind op a b <;> rfl

/-- Every rule for an `Op1` refines its node. -/
theorem simplifyUnary_refines {kind : Kind} {op : Op1} {x : Expr} {p : Place}
    (ht : (unary kind op x p).typed)
    (hok : ∀ k xop xx q, x = unary k xop xx q →
      (op = .neg1 ∧ xop = .xor1 ∨ op = .xor1 ∧ xop = .neg1) → xx.kind = xx.valueKind)
    (hvalid : (Optimizer.simplifyUnary kind op x).isValid) :
    Refines (unary kind op x p) (Optimizer.simplifyUnary kind op x) := by
  have hself : ∀ self, self = (if (op == .cast || op == .bitcopy) && kind == x.kind then x
      else none) → self.isValid → Refines (unary kind op x p) self := by
    intro self hself hv
    subst hself
    split at hv
    · next hcast =>
      simp only [Bool.and_eq_true, Bool.or_eq_true, beq_iff_eq] at hcast
      rw [if_pos (by simpa using hcast)]
      exact refines_cast ht hcast.1 hcast.2
    · cases hv
  unfold Optimizer.simplifyUnary at hvalid ⊢
  generalize hdef : (if (op == .cast || op == .bitcopy) && kind == x.kind then x else none) = self
    at hvalid ⊢
  replace hself := hself self hdef.symm
  cases x with
  | unary k xop xx q =>
    dsimp only at hvalid ⊢
    by_cases hxx : xx.toExpr.isValid
    · rw [if_pos hxx] at hvalid ⊢
      have hxe : xx.toExpr = xx := by
        rw [toExpr] at hxx ⊢
        split at hxx
        · next htype => rw [if_pos htype]
        · cases hxx
      rw [hxe] at hvalid ⊢
      split
      · exact refines_xor_xor ht
      · exact refines_neg_neg ht
      · exact refines_neg_xor ht (hok _ _ _ _ rfl (.inl ⟨rfl, rfl⟩))
      · exact refines_xor_neg ht (hok _ _ _ _ rfl (.inr ⟨rfl, rfl⟩))
      · next h1 h2 h3 h4 =>
        apply hself
        split at hvalid <;> simp_all
    · rw [if_neg hxx] at hvalid ⊢
      exact hself hvalid
  | binary k bop bx by' q =>
    dsimp only at hvalid ⊢
    by_cases hcmp : (op == .not1 && bop.isComparison) = true
    · rw [if_pos hcmp]
      simp only [Bool.and_eq_true, beq_iff_eq] at hcmp
      obtain ⟨rfl, hbop⟩ := hcmp
      exact refines_not_comparison hbop ht
    · rw [if_neg hcmp] at hvalid ⊢
      exact hself hvalid
  | _ => exact hself hvalid

theorem refines_foldUnary {kind : Kind} {op : Op1} {v : Value} {q p : Place}
    (ht : (unary kind op (const v q) p).typed) (hf : unaryFolds kind op v) :
    Refines (unary kind op (const v q) p) (ofValue (evalUnaryOp kind op v)) := by
  rw [typed, Bool.and_eq_true] at ht
  have hsound := evalUnaryOp_sound ht.2 hf
  apply refines_ofValue hsound.1
  · rw [hsound.1]
    exact (typed1_scalar ht.2).1
  · intro ρ w hw
    obtain ⟨a, ha, hw⟩ := eval_unary.mp hw
    rw [eval] at ha
    rw [← Option.some.inj ha, hsound.2] at hw
    exact (Option.some.inj hw).symm

theorem tryOptimizeUnary_refines {o : Optimizer} {kind : Kind} {op : Op1} {x : Expr} {p : Place}
    (ht : (unary kind op x p).typed) (hok : unaryOk o kind op x)
    (hvalid : (o.tryOptimizeUnary kind op x).isValid) :
    Refines (unary kind op x p) (o.tryOptimizeUnary kind op x) := by
  have htyped := ht
  rw [typed, Bool.and_eq_true] at htyped
  have hx := valid_of_scalar htyped.1 (typed1_scalar htyped.2).2
  have hrule : ∀ e, e = (if o.flags.simplifyExpr then Optimizer.simplifyUnary kind op x
      else none) → e.isValid → Refines (unary kind op x p) e := by
    intro e he hv
    subst he
    by_cases hflag : o.flags.simplifyExpr
    · rw [if_pos hflag] at hv ⊢
      apply simplifyUnary_refines ht _ hv
      intro k xop xx q hxx hop
      subst hxx
      rcases hop with ⟨rfl, rfl⟩ | ⟨rfl, rfl⟩ <;> simpa [unaryOk, hflag] using hok
    · rw [if_neg hflag] at hv
      cases hv
  unfold Optimizer.tryOptimizeUnary at hvalid ⊢
  simp only [hx.1, hx.2, if_true] at hvalid ⊢
  cases x with
  | const v q =>
    dsimp only at hvalid ⊢
    by_cases hfold : (o.flags.foldConstant && v.isValid &&
        (evalUnaryOp kind op v).isValid) = true
    · rw [if_pos hfold]
      simp only [Bool.and_eq_true] at hfold
      apply refines_foldUnary ht
      simpa [unaryOk, hfold.1.1] using hok
    · rw [if_neg hfold] at hvalid ⊢
      exact hrule _ rfl hvalid
  | _ => exact hrule _ rfl hvalid

end Expr

end OneJit
