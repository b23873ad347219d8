import OneJit.LabelPlacement
import OneJit.Lowered
import OneJit.Machine
import OneJit.OptimizerUnary

/-!
# The jump on a lowered test

What `compile(JumpIf)` emits for a compiled test, and when it jumps exactly where the test is not
zero: `negate_condjump` lacks the signed `<` and `<=`, and an operator that is no comparison has no
jump.
-/

namespace OneJit

open FlatCode

/-- A folded constant is in normal form. -/
theorem evalBinaryOp_normal {op : Op2} {x y v : Value} (hx : x.kind.isScalar)
    (h : evalBinaryOp op x y = some v) (hv : v.isValid) : v.Normal := by
  have hinvalid : ¬Value.invalid.isValid := by decide
  have hextend : ∀ b, (Value.extendOrTruncate x.kind b).Normal := by
    intro b
    rw [Value.extendOrTruncate_eq hx]
    exact Kind.wrap_wrap hx b
  have hbool : ∀ b, (Value.ofBool b).Normal := by
    intro b
    cases b <;> rfl
  have hrelation : ∀ f32 f64 i64 u64 (a c : Value), (Value.relation f32 f64 i64 u64 a c).isValid →
      (Value.relation f32 f64 i64 u64 a c).Normal := by
    intro f32 f64 i64 u64 a c hvalid
    unfold Value.relation at hvalid ⊢
    split at hvalid
    · exact absurd hvalid hinvalid
    · split
      · contradiction
      · split
        · exact hbool _
        · split
          · exact hbool _
          · split <;> exact hbool _
  have h32 := Kind.ne_float32 hx
  have h64 := Kind.ne_float64 hx
  cases op with
  | bad2 =>
    cases h
    exact absurd hv hinvalid
  | sub =>
    obtain rfl := Option.some.inj h
    unfold Value.sub Value.arith at hv ⊢
    rw [if_neg h32, if_neg h64] at hv ⊢
    split
    · next hne =>
      rw [if_pos hne] at hv
      exact absurd hv hinvalid
    · exact hextend _
  | quo =>
    change Value.quo x y = some v at h
    unfold Value.quo at h
    rw [if_neg h32, if_neg h64] at h
    split at h
    · cases h
      exact absurd hv hinvalid
    · split at h <;> split at h <;> cases h <;> exact hextend _
  | rem =>
    change Value.rem x y = some v at h
    unfold Value.rem at h
    split at h
    · cases h
      exact absurd hv hinvalid
    · split at h <;> split at h <;> cases h <;> exact hextend _
  | shl =>
    change Value.shl x y = some v at h
    unfold Value.shl at h
    split at h
    · cases h
      exact absurd hv hinvalid
    · split at h <;> cases h
      exact hextend _
  | shr =>
    change Value.shr x y = some v at h
    unfold Value.shr at h
    split at h
    · cases h
      exact absurd hv hinvalid
    · split at h
      · cases h
      · split at h <;> cases h <;> exact hextend _
  | land =>
    obtain rfl := Option.some.inj h
    unfold Value.logicalAnd at hv ⊢
    split
    · exact hbool _
    · next hne =>
      rw [if_neg hne] at hv
      exact absurd hv hinvalid
  | lor =>
    obtain rfl := Option.some.inj h
    unfold Value.logicalOr at hv ⊢
    split
    · exact hbool _
    · next hne =>
      rw [if_neg hne] at hv
      exact absurd hv hinvalid
  | _ =>
    obtain rfl := Option.some.inj h
    exact hrelation _ _ _ _ _ _ hv

/-- The condition of the jump that `comparison_to_condjump` gives, negated or not. -/
theorem holds_condjump {op : Op2} {negate : Bool} {k vk : Kind} (h : op.hasCondjump negate k vk)
    (a b : BitVec 64) :
    (if negate then (Compiler.comparisonToCondjump op k.isSigned).negateCondjump
      else Compiler.comparisonToCondjump op k.isSigned).holds a b =
      some (Expr.compares vk op a b ^^ negate) := by
  have hless : k.isSigned = (vk.group == .gInt) →
      ∀ a b, vk.less a b = if k.isSigned then a.slt b else a.ult b := by
    intro hsigned a b
    rw [Kind.less, hsigned]
    simp only [beq_iff_eq]
  cases op with
  | neq | eql =>
    cases negate <;> simp [Compiler.comparisonToCondjump, OpStmt3.negateCondjump, OpStmt3.holds,
      Expr.compares, bne]
  | gtr | geq =>
    rw [Op2.hasCondjump, beq_iff_eq] at h
    simp only [Expr.compares, hless h]
    cases k.isSigned <;> cases negate <;>
      simp [Compiler.comparisonToCondjump, OpStmt3.negateCondjump, OpStmt3.holds]
  | lss | leq =>
    rw [Op2.hasCondjump, Bool.and_eq_true, beq_iff_eq] at h
    simp only [Expr.compares, hless h.1]
    cases hsigned : k.isSigned <;> cases negate <;>
      simp [Compiler.comparisonToCondjump, OpStmt3.negateCondjump, OpStmt3.holds, hsigned] at h ⊢
  | _ => cases h

namespace Compiler

open Expr

/-- What `compile(JumpIf)` appends for a compiled test. -/
def jumpNodes (target test : Expr) : List Stmt :=
  let (negate, test) := peelNot test
  let (op, x, y) := testOperands test
  match constTest op x y with
  | some v => if if negate then v.isZero.toBool else v.toBool then [.goto target] else []
  | .none =>
    let jop := comparisonToCondjump op x.kind.isSigned
    [.stmt3 (if negate then jop.negateCondjump else jop) (.expr target) (.expr x) (.expr y)]

theorem compileJumpIf_eq (target : Expr) (comp : CompileM Compiled) :
    compileJumpIf target comp =
      comp >>= fun test c => ((), ⟨jumpNodes target test.1, []⟩, c) := by
  unfold compileJumpIf jumpNodes
  congr 1
  funext test c
  generalize hnegate : (peelNot test.1).1 = negate
  generalize hconst : constTest (testOperands (peelNot test.1).2).1
    (testOperands (peelNot test.1).2).2.1 (testOperands (peelNot test.1).2).2.2 = value
  simp only [hnegate, hconst]
  cases value with
  | none => rfl
  | some v =>
    dsimp only
    split <;> split <;> rfl

end Compiler

namespace Expr

open Compiler

theorem zero_const (k : Kind) : ∃ k', zero k = const ⟨0, k'⟩ .direct := by
  have hbits : ∀ e : EKind, (Imm.toConst (Imm.directOfUint16 ⟨e, 0⟩ 0)).bits = 0 := by
    intro e
    cases e <;> decide
  refine ⟨(Imm.toConst (Imm.directOfUint16 k.nosimd 0)).kind, ?_⟩
  rw [zero, ofUint16]
  exact congrArg (const · .direct) (Value.ext (hbits k.ekind) rfl)

theorem wrap_zero_any (k : Kind) : k.wrap 0 = 0 := by
  unfold Kind.wrap
  split
  · change ((0#64).setWidth k.bitsize).signExtend 64 = 0#64
    rw [BitVec.setWidth_zero, BitVec.signExtend_eq_setWidth_of_msb_false BitVec.msb_zero,
      BitVec.setWidth_zero]
  · change ((0#64).setWidth k.bitsize).setWidth 64 = 0#64
    rw [BitVec.setWidth_zero, BitVec.setWidth_zero]

theorem run_zero (w : Host) (ρ : Vars) (k : Kind) (h : Heap) : run w ρ (zero k) h = some (0, h) := by
  obtain ⟨k', hk'⟩ := zero_const k
  rw [hk', run, Value.meaning, wrap_zero_any]

theorem jumpsRight_peelNot (t : Expr) (negate : Bool) :
    t.jumpsRight negate = (peelNot t).2.jumpsRight (negate ^^ (peelNot t).1) := by
  induction t using Expr.induct generalizing negate with
  | hunary k op x p ih =>
    rw [jumpsRight, peelNot]
    split
    · rw [ih]
      simp
    · next hop =>
      rw [jumpsRight, if_neg hop]
  | _ =>
    rw [peelNot, Bool.xor_false]
    all_goals
      intros
      contradiction

/-- What is left of a test has the value of the test, up to the `NOT1`s. -/
theorem run_peelNot {w : Host} {ρ : Vars} {t : Expr} {h h' : Heap} {v : BitVec 64}
    (hrun : run w ρ t h = some (v, h')) :
    ∃ a, run w ρ (peelNot t).2 h = some (a, h') ∧ (v != 0) = (a != 0 ^^ (peelNot t).1) := by
  induction t using Expr.induct generalizing v with
  | hunary k op x p ih =>
    rw [peelNot]
    split
    · next hop =>
      subst hop
      obtain ⟨b, hb, hv⟩ := run_unary.mp hrun
      obtain ⟨a, ha, heq⟩ := ih hb
      refine ⟨a, ha, ?_⟩
      rw [Kind.evalUnary, Option.some.injEq] at hv
      subst hv
      simp only
      rw [Bool.xor_not, ← heq]
      split
      · next hzero =>
        rw [hzero]
        rfl
      · next hzero =>
        rw [bne_self_eq_false, bne_iff_ne.mpr hzero]
        rfl
    · exact ⟨v, hrun, by simp⟩
  | _ =>
    refine ⟨v, ?_, ?_⟩
    · rw [peelNot]
      · exact hrun
      · intros
        contradiction
    · rw [peelNot]
      · simp
      · intros
        contradiction

/-- The constant that a test on two constants is evaluated to. -/
theorem constTest_spec {op : Op2} {negate : Bool} {k : Kind} {x y : Expr} {cv cw : Value}
    (hx : value? x = some cv) (hy : value? y = some cw)
    (h : op.jumpsRight negate k cv.kind (some cv) (some cw)) {v : BitVec 64}
    (hv : cv.kind.evalBinary op cv.meaning cw.meaning = some v) :
    ∃ r, constTest op x y = some r ∧ r.toBool = (v != 0) ∧ r.isZero.toBool = !(v != 0) := by
  simp only [Op2.jumpsRight, Bool.and_eq_true, decide_eq_true_eq] at h
  obtain ⟨⟨ht, hfolds⟩, hsome⟩ := h
  obtain ⟨r, hr, hsound⟩ := evalBinaryOp_sound ht hfolds
  obtain ⟨hk, hkx, -⟩ := typed2_scalar ht
  have hvalid : r.isValid := by
    rw [hr, Option.filter] at hsome
    by_contra hinvalid
    rw [if_neg hinvalid] at hsome
    cases hsome
  obtain ⟨hkind, hmeaning⟩ := hsound hvalid
  have hscalar : r.kind.isScalar := hkind ▸ hk
  have hbits : r.bits = v := (evalBinaryOp_normal hkx hr hvalid).meaning.symm.trans (hmeaning v hv)
  refine ⟨r, ?_, ?_, ?_⟩
  · have htest : constTest op x y = (evalBinaryOp op cv cw).filter Value.isValid := by
      cases x <;> cases hx
      cases y <;> cases hy
      rfl
    rw [htest, hr, Option.filter, if_pos hvalid]
  · rw [Value.toBool_eq hscalar, hbits]
  · rw [Value.isZero_eq hscalar, toBool_ofBool, hbits, bne, Bool.not_not]

theorem hasCondjump_isComparison {op : Op2} {negate : Bool} {k vk : Kind}
    (h : op.hasCondjump negate k vk) : op.isComparison := by
  cases op <;> first | rfl | cases h

/-- The conditional jump on two operands. -/
theorem condjump_effect {w : Host} {op : Op2} {negate : Bool} {x y : Expr}
    (h : op.hasCondjump negate x.kind x.valueKind) {s : State} {a b v : BitVec 64} {h₁ h' : Heap}
    (hx : run w s.vars x s.heap = some (a, h₁)) (hy : run w s.vars y h₁ = some (b, h'))
    (hv : x.valueKind.evalBinary op a b = some v) (i : BitVec 16) (address : BitVec 64) :
    Stmt.effect w (.stmt3 (if negate
        then (comparisonToCondjump op x.kind.isSigned).negateCondjump
        else comparisonToCondjump op x.kind.isSigned) (.expr (.label i address)) (.expr x) (.expr y))
      s = some (if (v != 0) ^^ negate then .jump i { s with heap := h' }
        else .fall { s with heap := h' }) := by
  have hop := hasCondjump_isComparison h
  rw [evalBinary_comparison hop, Option.some.injEq] at hv
  have hvalue : (v != 0) = compares x.valueKind op a b := by
    rw [← hv]
    cases compares x.valueKind op a b <;> rfl
  rw [Stmt.effect, hx, hvalue]
  simp only [Option.bind_eq_bind, Option.bind_some, hy, holds_condjump h a b]

/-- The operands that a jump compares. -/
theorem testOperands_binary {k : Kind} {op : Op2} {x y : Expr} {p : Place} {negate : Bool}
    (h : (binary k op x y p).jumpsRight negate) :
    testOperands (binary k op x y p) = (op, x, y) := by
  simp only [jumpsRight, Bool.and_eq_true] at h
  obtain ⟨⟨hxe, hye⟩, hjumps⟩ := h
  have hop : op ≠ .bad2 := by
    rintro rfl
    cases hx : value? x <;> cases hy : value? y <;> rw [hx, hy] at hjumps <;> cases hjumps
  rw [testOperands, if_neg hop, toExpr, if_pos hxe, toExpr, if_pos hye]

/-- What is emitted for a jump. -/
theorem jumpNodes_cases (target t : Expr) :
    (∃ b : Bool, jumpNodes target t = if b then [.goto target] else []) ∨
      ∃ op x y, jumpNodes target t = [.stmt3 op (.expr target) (.expr x) (.expr y)] := by
  unfold jumpNodes
  dsimp only
  split
  · exact .inl ⟨_, rfl⟩
  · exact .inr ⟨_, _, _, rfl⟩

/-- The jump on operands that are not both constants. -/
theorem jumpNodes_compare {t x y : Expr} {op : Op2}
    (hoperands : testOperands (peelNot t).2 = (op, x, y))
    (hvalue : value? x = .none ∨ value? y = .none) (target : Expr) :
    jumpNodes target t = [.stmt3 (if (peelNot t).1
      then (comparisonToCondjump op x.kind.isSigned).negateCondjump
      else comparisonToCondjump op x.kind.isSigned) (.expr target) (.expr x) (.expr y)] := by
  rw [jumpNodes]
  simp only [hoperands, constTest_eq_none hvalue]

/-- The jump on a lowered test is taken exactly where the test is not zero; the node is left out
where the test is the constant zero. -/
theorem jumpNodes_spec {w : Host} {t : Expr} (hright : t.jumpsRight false) {s : State}
    {v : BitVec 64} {h' : Heap} (hrun : run w s.vars t s.heap = some (v, h')) (i : BitVec 16)
    (address : BitVec 64) :
    (∃ j, jumpNodes (label i address) t = [j] ∧
      Stmt.effect w j s = some (if v != 0 then .jump i { s with heap := h' }
        else .fall { s with heap := h' })) ∨
    jumpNodes (label i address) t = [] ∧ v = 0 ∧ h' = s.heap := by
  rw [jumpsRight_peelNot, Bool.false_xor] at hright
  obtain ⟨a, ha, hva⟩ := run_peelNot hrun
  -- a jump whose condition is known
  have hconst : ∀ op x y r, testOperands (peelNot t).2 = (op, x, y) →
      constTest op x y = some r → r.toBool = (a != 0) → r.isZero.toBool = !(a != 0) →
      h' = s.heap →
      (∃ j, jumpNodes (label i address) t = [j] ∧
        Stmt.effect w j s = some (if v != 0 then .jump i { s with heap := h' }
          else .fall { s with heap := h' })) ∨
      jumpNodes (label i address) t = [] ∧ v = 0 ∧ h' = s.heap := by
    intro op x y r hoperands htest hbool hzero hheap
    have htaken : (if (peelNot t).1 then r.isZero.toBool else r.toBool) = (v != 0) := by
      rw [hva, hbool, hzero]
      cases (peelNot t).1 <;> simp
    have hnodes : jumpNodes (label i address) t =
        if (v != 0) = true then [.goto (label i address)] else [] := by
      rw [jumpNodes]
      simp only [hoperands, htest]
      rw [← htaken]
    cases hv : v != 0 with
    | true =>
      rw [hnodes, hv]
      exact .inl ⟨_, rfl, by rw [hheap]; rfl⟩
    | false =>
      rw [hnodes, hv]
      exact .inr ⟨rfl, by simpa using hv, hheap⟩
  -- a comparison of two operands
  have hcompare : ∀ op x y b h₁ v', testOperands (peelNot t).2 = (op, x, y) →
      value? x = .none ∨ value? y = .none → op.hasCondjump (peelNot t).1 x.kind x.valueKind →
      run w s.vars x s.heap = some (b, h₁) → ∀ d, run w s.vars y h₁ = some (d, h') →
      x.valueKind.evalBinary op b d = some v' → (v' != 0) = (a != 0) →
      ∃ j, jumpNodes (label i address) t = [j] ∧
        Stmt.effect w j s = some (if v != 0 then .jump i { s with heap := h' }
          else .fall { s with heap := h' }) := by
    intro op x y b h₁ v' hoperands hvalue hjump hx d hy hv' heq
    refine ⟨_, jumpNodes_compare hoperands hvalue _, ?_⟩
    rw [hva, ← heq]
    exact condjump_effect hjump hx hy hv' i address
  -- what is no comparison is compared with zero
  have hplain : ∀ u, (peelNot t).2 = u →
      testOperands u = (.neq, u, zero u.kind) → value? u = .none →
      ∃ j, jumpNodes (label i address) t = [j] ∧
        Stmt.effect w j s = some (if v != 0 then .jump i { s with heap := h' }
          else .fall { s with heap := h' }) := by
    intro u hu hoperands hvalue
    rw [← hu] at hoperands hvalue
    refine hcompare .neq _ _ a h' (if (a != 0) = true then 1 else 0) hoperands (.inl hvalue) rfl ha
      0 (run_zero w s.vars _ h') rfl ?_
    cases a != 0 <;> rfl
  cases hu : (peelNot t).2 with
  | const cv p =>
    rw [hu] at ha hright
    rw [jumpsRight, Bool.and_eq_true, decide_eq_true_eq] at hright
    obtain ⟨hscalar, hnormal⟩ := hright
    have hne : cv.ne ⟨0, cv.kind⟩ = .ofBool (a != 0) := by
      rw [Value.ne_eq (b := ⟨0, cv.kind⟩) hscalar rfl]
      cases ha
      rw [hnormal.meaning]
    have hkind : (Value.ofBool (a != 0)).kind.isScalar := rfl
    refine hconst .neq (.const cv p) (.const ⟨0, cv.kind⟩ .direct) (.ofBool (a != 0)) ?_ ?_
      (toBool_ofBool _) ?_ ?_
    · rw [hu, ← zero_eq hscalar]
      rfl
    · change (some (cv.ne ⟨0, cv.kind⟩)).filter Value.isValid = _
      rw [hne, Option.filter, if_pos (Value.isValid_of_isScalar hkind)]
    · rw [Value.isZero_eq hkind, toBool_ofBool]
      cases a != 0 <;> rfl
    · cases ha
      rfl
  | binary k op x y p =>
    rw [hu] at ha hright
    have hjumps := hright
    rw [jumpsRight, Bool.and_eq_true] at hjumps
    replace hjumps := hjumps.2
    have hoperands : testOperands (peelNot t).2 = (op, x, y) := by
      rw [hu]
      exact testOperands_binary hright
    obtain ⟨b, h₁, hx, hrest⟩ := run_binary.mp ha
    have hother : value? x = .none ∨ value? y = .none →
        op.hasCondjump (peelNot t).1 x.kind x.valueKind →
        ∃ j, jumpNodes (label i address) t = [j] ∧
          Stmt.effect w j s = some (if v != 0 then .jump i { s with heap := h' }
            else .fall { s with heap := h' }) := by
      intro hvalue hcond
      obtain ⟨hdec, -⟩ | ⟨-, d, hy, hv⟩ := hrest
      · rw [decidedBy_comparison (hasCondjump_isComparison hcond)] at hdec
        cases hdec
      · exact hcompare op x y b h₁ a hoperands hvalue hcond hx d hy hv rfl
    cases hvx : value? x with
    | none => exact .inl (hother (.inl hvx) (by rwa [hvx] at hjumps))
    | some cv =>
      cases hvy : value? y with
      | none => exact .inl (hother (.inr hvy) (by rwa [hvx, hvy] at hjumps))
      | some cw =>
        rw [hvx, hvy] at hjumps
        have hxc : x.valueKind = cv.kind ∧ b = cv.meaning ∧ h₁ = s.heap := by
          cases x <;> cases hvx
          cases hx
          exact ⟨rfl, rfl, rfl⟩
        have hyc : ∀ h, run w s.vars y h = some (cw.meaning, h) := by
          intro h
          cases y <;> cases hvy
          rfl
        obtain ⟨hvk, rfl, rfl⟩ := hxc
        rw [hvk] at hjumps hrest
        have hvalue : cv.kind.evalBinary op cv.meaning cw.meaning = some a ∧ h' = s.heap := by
          obtain ⟨hdec, hheap, hv⟩ | ⟨-, d, hy, hv⟩ := hrest
          · exact ⟨(evalBinary_decided hdec _ _).trans hv, hheap⟩
          · rw [hyc] at hy
            cases hy
            exact ⟨hv, rfl⟩
        obtain ⟨r, htest, hbool, hzero⟩ := constTest_spec hvx hvy hjumps hvalue.1
        exact hconst op x y r hoperands htest hbool hzero hvalue.2
  | _ => exact .inl (hplain _ hu rfl rfl)

/-- What is emitted for a jump is one statement, which jumps nowhere else, or none. -/
theorem jumpNodes_shape (w : Host) (t : Expr) (i : BitVec 16) (address : BitVec 64) :
    jumpNodes (label i address) t = [] ∨ ∃ j, jumpNodes (label i address) t = [j] ∧
      j.labelIndex = Option.none ∧
      ∀ s l s', Stmt.effect w j s = some (.jump l s') → l = i := by
  have hgoto : ∀ s l s', Stmt.effect w (.goto (label i address)) s = some (.jump l s') → l = i := by
    intro s l s' heffect
    cases heffect
    rfl
  have hjump : ∀ op x y s l s',
      Stmt.effect w (.stmt3 op (.expr (label i address)) (.expr x) (.expr y)) s =
        some (.jump l s') → l = i := by
    intro op x y s l s' heffect
    obtain ⟨a, -, heffect⟩ := Option.bind_eq_some_iff.mp heffect
    obtain ⟨b, -, heffect⟩ := Option.bind_eq_some_iff.mp heffect
    obtain ⟨taken, -, heffect⟩ := Option.bind_eq_some_iff.mp heffect
    cases taken <;> cases heffect
    rfl
  obtain ⟨b, hb⟩ | ⟨op, x, y, hjumps⟩ := jumpNodes_cases (label i address) t
  · cases b with
    | false => exact .inl hb
    | true => exact .inr ⟨_, hb, rfl, hgoto⟩
  · exact .inr ⟨_, hjumps, rfl, hjump op x y⟩

theorem run_peelNot_none {w : Host} {ρ : Vars} {t : Expr} {h : Heap}
    (hrun : run w ρ t h = .none) : run w ρ (peelNot t).2 h = .none := by
  induction t using Expr.induct with
  | hunary k op x p ih =>
    rw [peelNot]
    split
    · next hop =>
      subst hop
      apply ih
      rw [run] at hrun
      cases hx : run w ρ x h with
      | none => rfl
      | some r =>
        rw [hx] at hrun
        cases hrun
    · exact hrun
  | _ =>
    rw [peelNot]
    · exact hrun
    · intros
      contradiction

/-- A comparison without a value is compared where the jump stands. -/
theorem jumpNodes_stuck {w : Host} {t : Expr} (hright : t.jumpsRight false)
    (hcompare : (peelNot t).2.isCompare) {s : State} (hrun : run w s.vars t s.heap = .none)
    (i : BitVec 16) (address : BitVec 64) :
    ∃ j, jumpNodes (label i address) t = [j] ∧ Stmt.effect w j s = .none := by
  rw [jumpsRight_peelNot, Bool.false_xor] at hright
  have hnone := run_peelNot_none hrun
  cases hu : (peelNot t).2 with
  | binary k op x y p =>
    rw [hu] at hright hnone hcompare
    have hoperands : testOperands (peelNot t).2 = (op, x, y) := by
      rw [hu]
      exact testOperands_binary hright
    have hop : op.isComparison := hcompare
    -- one of the operands has no value
    have hrest : run w s.vars x s.heap = .none ∨ ∃ a h₁, run w s.vars x s.heap = some (a, h₁) ∧
        run w s.vars y h₁ = .none := by
      rw [run] at hnone
      cases hx : run w s.vars x s.heap with
      | none => exact .inl rfl
      | some r =>
        obtain ⟨a, h₁⟩ := r
        refine .inr ⟨a, h₁, rfl, ?_⟩
        cases hy : run w s.vars y h₁ with
        | none => rfl
        | some r' =>
          simp [hx, hy, decidedBy_comparison hop, evalBinary_comparison hop] at hnone
    have hconst : value? x = .none ∨ value? y = .none := by
      by_contra hboth
      rw [not_or] at hboth
      cases x <;> first | exact hboth.1 rfl | skip
      cases y <;> first | exact hboth.2 rfl | skip
      obtain hx | ⟨a, h₁, -, hy⟩ := hrest
      · cases hx
      · cases hy
    refine ⟨_, jumpNodes_compare hoperands hconst _, ?_⟩
    obtain hx | ⟨a, h₁, hx, hy⟩ := hrest
    · rw [Stmt.effect, hx]
      rfl
    · rw [Stmt.effect, hx]
      simp only [Option.bind_eq_bind, Option.bind_some, hy, Option.bind_none]
  | _ =>
    rw [hu] at hcompare
    cases hcompare

/-- `comparison_to_condjump` and `negate_condjump` have a jump. -/
theorem condjump_real {op : Op2} {negate : Bool} {k vk : Kind} (h : op.hasCondjump negate k vk) :
    (if negate then (comparisonToCondjump op k.isSigned).negateCondjump
      else comparisonToCondjump op k.isSigned).isCondJump :=
  OpStmt3.isCondJump_of_holds (holds_condjump h 0 0)

/-- A jump that is right has a condition. -/
theorem jumpNodes_real {t : Expr} (hright : t.jumpsRight false) (target : Expr) :
    ∀ st ∈ jumpNodes target t, st.realJump := by
  rw [jumpsRight_peelNot, Bool.false_xor] at hright
  have hcompare : ∀ op x y, testOperands (peelNot t).2 = (op, x, y) →
      value? x = .none ∨ value? y = .none → op.hasCondjump (peelNot t).1 x.kind x.valueKind →
      ∀ st ∈ jumpNodes target t, st.realJump := by
    intro op x y hoperands hvalue hjump st hst
    rw [jumpNodes_compare hoperands hvalue, List.mem_singleton] at hst
    rw [hst]
    exact condjump_real hjump
  have hgoto : ∀ op x y, testOperands (peelNot t).2 = (op, x, y) → (constTest op x y).isSome →
      ∀ st ∈ jumpNodes target t, st.realJump := by
    intro op x y hoperands hsome st hst
    obtain ⟨v, hv⟩ := Option.isSome_iff_exists.mp hsome
    rw [jumpNodes] at hst
    simp only [hoperands, hv] at hst
    rw [List.mem_singleton.mp (List.mem_ite_nil_right.mp hst).2]
    rfl
  cases hu : (peelNot t).2 with
  | const cv p =>
    rw [hu, jumpsRight, Bool.and_eq_true] at hright
    refine hgoto .neq (.const cv p) (.const ⟨0, cv.kind⟩ .direct) ?_ ?_
    · rw [hu, ← zero_eq hright.1]
      rfl
    · change ((some (cv.ne ⟨0, cv.kind⟩)).filter Value.isValid).isSome
      rw [Value.ne_eq (b := ⟨0, cv.kind⟩) hright.1 rfl]
      cases cv.bits != 0 <;> rfl
  | binary k op x y p =>
    rw [hu] at hright
    have hoperands : testOperands (peelNot t).2 = (op, x, y) := by
      rw [hu]
      exact testOperands_binary hright
    rw [jumpsRight, Bool.and_eq_true] at hright
    have hjumps := hright.2
    cases hvx : value? x with
    | none => exact hcompare op x y hoperands (.inl hvx) (by rwa [hvx] at hjumps)
    | some cv =>
      cases hvy : value? y with
      | none => exact hcompare op x y hoperands (.inr hvy) (by rwa [hvx, hvy] at hjumps)
      | some cw =>
        rw [hvx, hvy] at hjumps
        rw [Op2.jumpsRight, Bool.and_eq_true] at hjumps
        refine hgoto op x y hoperands ?_
        cases x <;> cases hvx
        cases y <;> cases hvy
        exact hjumps.2
  | _ =>
    refine hcompare .neq _ _ (by rw [hu]; rfl) (.inl rfl) rfl

end Expr

end OneJit
