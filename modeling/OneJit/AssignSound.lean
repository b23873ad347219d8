import OneJit.Assign

/-!
# The assignment optimizer preserves effects

Soundness rests on `deep_equal` being right about the destination: where it takes an operand for
equal to the destination, the operand has to be the same tree.
-/

namespace OneJit

namespace Valuation

theorem Agree.symm {ρ σ : Valuation} (h : ρ.Agree σ) : σ.Agree ρ :=
  ⟨fun k id => (h.var k id).symm, h.mem.symm, h.label.symm, h.call.symm⟩

end Valuation

open Expr

/-- `deep_equal` does not take another tree for equal to the destination. -/
def equalOk (o : Optimizer) (dst e : Expr) : Bool :=
  !deepEqual o.allowMaskPure dst e || sameTree dst e

/-- The condition on the operands that the rules for an assignment compare. -/
def assignOk (o : Optimizer) (assignOp : OpStmt2) (dst : Expr) : Expr → Bool
  | .const _ _ => true
  | .binary kind op x y place =>
    equalOk o dst (.binary kind op x y place) &&
      (assignOp != .assign || op.toAssignOp == .badSt2 ||
        !deepEqual o.allowMaskPure dst x || (equalOk o dst x && assignOk o op.toAssignOp dst y))
  | .tuple kind op [x, y] place =>
    equalOk o dst (.tuple kind op [x, y] place) &&
      (assignOp != .assign || op.toAssignOp == .badSt2 ||
        !deepEqual o.allowMaskPure dst x || (equalOk o dst x && assignOk o op.toAssignOp dst y))
  | src => equalOk o dst src

/-- The kind of the source of an assignment: a shift takes a count of any kind. -/
def OpStmt2.takes (op : OpStmt2) (k ks : Kind) : Bool :=
  match op with
  | .shlAssign | .shrAssign => ks.isScalar
  | _ => ks == k

/-- A rewritten assignment leaves the same values in all locations. -/
def SameEffect (st st' : Stmt) : Prop :=
  ∀ ρ σ, st.exec ρ = some σ → ∃ σ', st'.exec ρ = some σ' ∧ σ'.Agree σ

theorem SameEffect.refl (st : Stmt) : SameEffect st st := fun _ σ hσ => ⟨σ, hσ, .refl σ⟩

theorem SameEffect.trans {st st' st'' : Stmt} (h : SameEffect st st') (h' : SameEffect st' st'') :
    SameEffect st st'' := by
  intro ρ σ hσ
  obtain ⟨σ', hσ', hagree⟩ := h ρ σ hσ
  obtain ⟨σ'', hσ'', hagree'⟩ := h' ρ σ' hσ'
  refine ⟨σ'', hσ'', ?_⟩
  exact ⟨fun k id => (hagree'.var k id).trans (hagree.var k id), hagree'.mem.trans hagree.mem,
    hagree'.label.trans hagree.label, hagree'.call.trans hagree.call⟩

/-! ## The effect of an assignment -/

theorem exec_assign {ρ σ : Valuation} {dst src : Expr} :
    (Stmt.stmt2 .assign dst src).exec ρ = some σ ↔
      ∃ b, eval ρ src = some b ∧ ρ.store dst b = some σ := by
  rw [Stmt.exec]
  exact Option.bind_eq_some_iff

theorem exec_compound {ρ σ : Valuation} {op : OpStmt2} (hop : op ≠ .assign) {dst src : Expr} :
    (Stmt.stmt2 op dst src).exec ρ = some σ ↔
      ∃ a b v, eval ρ dst = some a ∧ eval ρ src = some b ∧ op.compute dst.kind a b = some v ∧
        ρ.store dst v = some σ := by
  have hexec : (Stmt.stmt2 op dst src).exec ρ = (do
      let a ← eval ρ dst
      let b ← eval ρ src
      let v ← op.compute dst.kind a b
      ρ.store dst v) := by
    cases op <;> first | rfl | exact absurd rfl hop
  rw [hexec]
  constructor
  · intro h
    obtain ⟨a, ha, h⟩ := Option.bind_eq_some_iff.mp h
    obtain ⟨b, hb, h⟩ := Option.bind_eq_some_iff.mp h
    obtain ⟨v, hv, h⟩ := Option.bind_eq_some_iff.mp h
    exact ⟨a, b, v, ha, hb, hv, h⟩
  · intro ⟨a, b, v, ha, hb, hv, h⟩
    rw [ha, hb]
    dsimp only [Option.bind_eq_bind, Option.bind_some]
    rw [hv]
    exact h

/-- Nothing is done in place of writing the value of the destination back. -/
theorem sameEffect_void {st : Stmt} {dst : Expr} (hdst : dst.IsPlace)
    (h : ∀ ρ σ, st.exec ρ = some σ → ∃ a, eval ρ dst = some a ∧ ρ.store dst a = some σ) :
    SameEffect st voidExpr := by
  intro ρ σ hσ
  obtain ⟨a, ha, hstore⟩ := h ρ σ hσ
  exact ⟨ρ, rfl, (hdst.store_self ha hstore).symm⟩

/-- A constant is stored. -/
theorem sameEffect_const {st : Stmt} {dst e : Expr} {v : BitVec 64}
    (he : ∀ ρ, eval ρ e = some v)
    (h : ∀ ρ σ, st.exec ρ = some σ → ρ.store dst v = some σ) :
    SameEffect st (.stmt2 .assign dst e) := by
  intro ρ σ hσ
  exact ⟨σ, exec_assign.mpr ⟨v, he ρ, h ρ σ hσ⟩, .refl σ⟩

theorem sameEffect_inc {st : Stmt} {dst : Expr}
    (h : ∀ ρ σ, st.exec ρ = some σ →
      ∃ a, eval ρ dst = some a ∧ ρ.store dst (dst.kind.wrap (a + 1)) = some σ) :
    SameEffect st (.stmt1 .inc dst) := by
  intro ρ σ hσ
  obtain ⟨a, ha, hstore⟩ := h ρ σ hσ
  refine ⟨σ, ?_, .refl σ⟩
  rw [Stmt.exec, ha]
  exact hstore

theorem sameEffect_dec {st : Stmt} {dst : Expr}
    (h : ∀ ρ σ, st.exec ρ = some σ →
      ∃ a, eval ρ dst = some a ∧ ρ.store dst (dst.kind.wrap (a - 1)) = some σ) :
    SameEffect st (.stmt1 .dec dst) := by
  intro ρ σ hσ
  obtain ⟨a, ha, hstore⟩ := h ρ σ hσ
  refine ⟨σ, ?_, .refl σ⟩
  rw [Stmt.exec, ha]
  exact hstore

/-! ## Constants -/

theorem compute_opN {op : OpStmt2} (hop : op.toOpN ≠ .badN) (k : Kind) (a b : BitVec 64) :
    op.compute k a b = some (k.tupleOp op.toOpN a b) := by
  rw [OpStmt2.compute, if_pos hop]

theorem compute_op2 {op : OpStmt2} (hop : op.toOpN = .badN) (hop2 : op.toOp2 ≠ .bad2) (k : Kind)
    (a b : BitVec 64) : op.compute k a b = k.evalBinary op.toOp2 a b := by
  rw [OpStmt2.compute, if_neg (not_not_intro hop), if_pos hop2]

/-- The operators of compound assignments. -/
theorem toOpN_commutative {op : OpStmt2} (hop : op.toOpN ≠ .badN) :
    op.toOpN.isCommutative ∧ op ≠ .assign ∧
      (op ≠ .shlAssign ∧ op ≠ .shrAssign) ∧ op.toOp2 = .bad2 := by
  cases op <;> first | exact absurd rfl hop | decide

theorem toOp2_cases {op : OpStmt2} (hop : op.toOp2 ≠ .bad2) :
    op.toOpN = .badN ∧ op ≠ .assign ∧ ∀ a, op.toOp2.decidedBy a = false := by
  cases op <;> first | exact absurd rfl hop | exact ⟨rfl, by decide, fun _ => rfl⟩

theorem one_bits {k : Kind} (h : k.isScalar) :
    (Value.one k).bits = 1 ∧ k.wrap (Value.minusOne k).bits = k.wrap (-1) ∧
      (Value.one k).kind = k ∧ (Value.minusOne k).kind = k := by
  revert h
  apply Kind.scalar_cases <;> decide

/-- The exact effect of a compound assignment of a constant. -/
theorem exec_compound_const {ρ σ : Valuation} {op : OpStmt2} (hop : op ≠ .assign) {dst : Expr}
    {c : Value} {p : Place} (h : (Stmt.stmt2 op dst (const c p)).exec ρ = some σ) :
    ∃ a v, eval ρ dst = some a ∧ op.compute dst.kind a c.meaning = some v ∧
      ρ.store dst v = some σ := by
  obtain ⟨a, b, v, ha, hb, hv, hσ⟩ := (exec_compound hop).mp h
  rw [eval] at hb
  obtain rfl := Option.some.inj hb
  exact ⟨a, v, ha, hv, hσ⟩

section Const

variable {o : Optimizer} {op : OpStmt2} {dst : Expr} {c : Value} {p : Place}

theorem simplifyAssign_opN (hdst : dst.IsPlace) (hc : c.kind = dst.kind)
    (hop : op.toOpN ≠ .badN) {st : Stmt} (h : o.simplifyAssign op dst c = some st) :
    SameEffect (.stmt2 op dst (const c p)) st := by
  obtain ⟨hcomm, hassign, -, -⟩ := toOpN_commutative hop
  have hscalar := hdst.scalar
  have hcs : c.kind.isScalar := hc ▸ hscalar
  let m := dst.kind.tupleMonoid hscalar op.toOpN hcomm
  have hexec : ∀ ρ σ, (Stmt.stmt2 op dst (const c p)).exec ρ = some σ →
      ∃ a, eval ρ dst = some a ∧ dst.kind.wrap a = a ∧
        ρ.store dst (dst.kind.tupleOp op.toOpN a c.meaning) = some σ := by
    intro ρ σ hσ
    obtain ⟨a, v, ha, hv, hσ⟩ := exec_compound_const hassign hσ
    rw [compute_opN hop] at hv
    obtain rfl := Option.some.inj hv
    exact ⟨a, ha, hdst.normal ha, hσ⟩
  obtain ⟨hone, hminus, honek, hminusk⟩ := one_bits hscalar
  have heq : ∀ w : Value, (c.eq w).toBool → c = w := by
    intro w hw
    by_cases hk : c.kind = w.kind
    · exact Value.eq_toBool (hk ▸ hcs) hw
    · rw [Value.eq, Value.relation, if_pos hk] at hw
      cases hw
  unfold Optimizer.simplifyAssign at h
  dsimp only at h
  rw [if_pos hop] at h
  split at h
  · next habsorb =>
    obtain rfl := Option.some.inj h
    have hw := heq _ habsorb
    rw [← hw]
    obtain ⟨q, hq⟩ := ofValue_eq hcs
    have hback := readBack_meaning hcs
    apply sameEffect_const (v := c.meaning)
    · intro ρ
      rw [hq, eval, hback.2]
    · intro ρ σ hσ
      obtain ⟨a, -, hvalid, hσ⟩ := hexec ρ σ hσ
      have hsound := absorbing_sound hscalar hcomm (hw ▸ hc) a hvalid
      rw [← hw] at hsound
      rwa [hsound] at hσ
  · split at h
    · next hident =>
      obtain rfl := Option.some.inj h
      rw [Bool.and_eq_true] at hident
      have hw := heq _ hident.1
      apply sameEffect_void hdst
      intro ρ σ hσ
      obtain ⟨a, ha, hvalid, hσ⟩ := hexec ρ σ hσ
      have hunit : dst.kind.tupleOp op.toOpN a c.meaning = a := by
        rw [hw, identityN_meaning hscalar]
        exact m.op_unit hvalid
      rw [hunit] at hσ
      exact ⟨a, ha, hσ⟩
    · split at h
      · next hadd =>
        split at h
        · next hcone =>
          obtain rfl := Option.some.inj h
          have hw := heq _ hcone
          apply sameEffect_inc
          intro ρ σ hσ
          obtain ⟨a, ha, -, hσ⟩ := hexec ρ σ hσ
          rw [hadd, Value.meaning, hw, honek, hone, Kind.wrap_one hscalar] at hσ
          exact ⟨a, ha, hσ⟩
        · split at h
          · next hcminus =>
            obtain rfl := Option.some.inj h
            have hw := heq _ hcminus
            apply sameEffect_dec
            intro ρ σ hσ
            obtain ⟨a, ha, -, hσ⟩ := hexec ρ σ hσ
            rw [hadd, Value.meaning, hw, hminusk, hminus, Kind.tupleOp,
              Kind.wrap_add_right hscalar, ← BitVec.sub_eq_add_neg] at hσ
            exact ⟨a, ha, hσ⟩
          · cases h
      · cases h

theorem simplifyAssign_op2 (hdst : dst.IsPlace) (hcs : c.kind.isScalar)
    (htakes : op.takes dst.kind c.kind) (hop : op.toOp2 ≠ .bad2) {st : Stmt}
    (h : o.simplifyAssign op dst c = some st) : SameEffect (.stmt2 op dst (const c p)) st := by
  obtain ⟨hopN, hassign, -⟩ := toOp2_cases hop
  have hscalar := hdst.scalar
  have hexec : ∀ ρ σ, (Stmt.stmt2 op dst (const c p)).exec ρ = some σ →
      ∃ a v, eval ρ dst = some a ∧ dst.kind.wrap a = a ∧
        dst.kind.evalBinary op.toOp2 a c.meaning = some v ∧ ρ.store dst v = some σ := by
    intro ρ σ hσ
    obtain ⟨a, v, ha, hv, hσ⟩ := exec_compound_const hassign hσ
    rw [compute_op2 hopN hop] at hv
    exact ⟨a, v, ha, hdst.normal ha, hv, hσ⟩
  obtain ⟨hone, hminus, honek, hminusk⟩ := one_bits hscalar
  have heq : ∀ w : Value, (c.eq w).toBool → c = w := by
    intro w hw
    by_cases hk : c.kind = w.kind
    · exact Value.eq_toBool (hk ▸ hcs) hw
    · rw [Value.eq, Value.relation, if_pos hk] at hw
      cases hw
  unfold Optimizer.simplifyAssign at h
  dsimp only at h
  rw [if_neg (not_not_intro hopN), if_pos hop] at h
  split at h
  · next hident =>
    obtain rfl := Option.some.inj h
    rw [Bool.and_eq_true] at hident
    have hw := heq _ hident.1
    have hbits := Value.identity2_bits (hw ▸ hcs)
    rw [← hw] at hbits
    apply sameEffect_void hdst
    intro ρ σ hσ
    obtain ⟨a, v, ha, hvalid, hv, hσ⟩ := hexec ρ σ hσ
    have htyped : dst.kind.typed2 op.toOp2 dst.kind c.kind := by
      cases op with
      | subAssign | quoAssign | remAssign =>
        simp only [OpStmt2.takes, beq_iff_eq] at htakes
        simp [Kind.typed2, OpStmt2.toOp2, hscalar, htakes]
      | shlAssign | shrAssign => simp [Kind.typed2, OpStmt2.toOp2, hscalar, hcs]
      | _ => exact absurd rfl hop
    have hident : dst.kind = dst.kind ∧ v = a := by
      apply evalBinary_identity htyped hvalid _ hv
      rcases hbits with ⟨hq, hb, -⟩ | hb
      · exact .inl ⟨hq, hb⟩
      · exact .inr hb
    rw [hident.2] at hσ
    exact ⟨a, ha, hσ⟩
  · split at h
    · next hsub =>
      split at h
      · next hcone =>
        obtain rfl := Option.some.inj h
        have hw := heq _ hcone
        apply sameEffect_dec
        intro ρ σ hσ
        obtain ⟨a, v, ha, -, hv, hσ⟩ := hexec ρ σ hσ
        rw [hsub, Value.meaning, hw, honek, hone, Kind.wrap_one hscalar] at hv
        rw [← Option.some.inj hv] at hσ
        exact ⟨a, ha, hσ⟩
      · split at h
        · next hcminus =>
          obtain rfl := Option.some.inj h
          have hw := heq _ hcminus
          apply sameEffect_inc
          intro ρ σ hσ
          obtain ⟨a, v, ha, hvalid, hv, hσ⟩ := hexec ρ σ hσ
          rw [hsub, Value.meaning, hw, hminusk, hminus, Kind.evalBinary] at hv
          have hwrap : dst.kind.wrap (a - dst.kind.wrap (-1)) = dst.kind.wrap (a + 1) := by
            have hsubw := Kind.wrap_sub hscalar a (-1)
            rw [hvalid] at hsubw
            rw [hsubw, BitVec.sub_neg]
          rw [← Option.some.inj hv, hwrap] at hσ
          exact ⟨a, ha, hσ⟩
        · cases h
    · cases h

theorem simplifyAssign_preserves (hdst : dst.IsPlace) (hcs : c.kind.isScalar)
    (htakes : op.takes dst.kind c.kind) {st : Stmt} (h : o.simplifyAssign op dst c = some st) :
    SameEffect (.stmt2 op dst (const c p)) st := by
  by_cases hopN : op.toOpN = .badN
  · by_cases hop2 : op.toOp2 = .bad2
    · unfold Optimizer.simplifyAssign at h
      dsimp only at h
      rw [if_neg (not_not_intro hopN), if_neg (not_not_intro hop2)] at h
      cases h
    · exact simplifyAssign_op2 hdst hcs htakes hop2 h
  · have hk : c.kind = dst.kind := by
      obtain ⟨-, -, hshift, -⟩ := toOpN_commutative hopN
      cases op <;> first
        | exact absurd rfl hopN
        | simpa [OpStmt2.takes] using htakes
    exact simplifyAssign_opN hdst hk hopN h

end Const

/-! ## The destination and the same tree -/

section Same

variable {op : OpStmt2} {dst src : Expr}

/-- The effect of a compound assignment of the destination to itself. -/
theorem exec_same (hop : op ≠ .assign) (hdst : dst.IsPlace) (hsame : sameTree dst src)
    {ρ σ : Valuation} (h : (Stmt.stmt2 op dst src).exec ρ = some σ) :
    ∃ a v, eval ρ dst = some a ∧ dst.kind.wrap a = a ∧ op.compute dst.kind a a = some v ∧
      ρ.store dst v = some σ := by
  obtain ⟨a, b, v, ha, hb, hv, hσ⟩ := (exec_compound hop).mp h
  rw [← (agree_of_sameTree hsame).eval ρ, ha] at hb
  obtain rfl := Option.some.inj hb
  exact ⟨a, v, ha, hdst.normal ha, hv, hσ⟩

theorem two_eq {k : Kind} (h : k.isInteger) : two k = const ⟨2, k⟩ .direct ∧ k.wrap 2 = 2 := by
  obtain ⟨e, s⟩ := k
  simp only [Kind.isInteger, Bool.and_eq_true, beq_iff_eq] at h
  obtain ⟨rfl, h⟩ := h
  cases e <;> first | (simp [Kind.group, EKind.kgroup] at h; done) | exact ⟨rfl, by decide⟩

theorem meaning_const {k : Kind} {b : BitVec 64} (hb : k.wrap b = b) (q : Place)
    (ρ : Valuation) : eval ρ (const ⟨b, k⟩ q) = some b := by
  rw [eval, Value.meaning, hb]

theorem simplifySameAssign_preserves (hdst : dst.IsPlace) (hsame : sameTree dst src) {st : Stmt}
    (h : Optimizer.simplifySameAssign op dst = some st) :
    SameEffect (.stmt2 op dst src) st := by
  have hscalar := hdst.scalar
  have hzero := meaning_const (Kind.wrap_zero hscalar) .direct
  have hone := meaning_const (Kind.wrap_one hscalar) .direct
  cases op with
  | addAssign =>
    obtain rfl := Option.some.inj h
    obtain ⟨htwo, hwrap⟩ := two_eq hdst.integer
    intro ρ σ hσ
    obtain ⟨a, v, ha, -, hv, hσ⟩ := exec_same (by decide) hdst hsame hσ
    have htwov : eval ρ (two dst.kind) = some 2 := by
      rw [htwo]
      exact meaning_const hwrap .direct ρ
    refine ⟨σ, (exec_compound (by decide)).mpr ⟨a, 2, v, ha, htwov, ?_, hσ⟩, .refl σ⟩
    rw [← hv, compute_opN (by decide), compute_opN (by decide)]
    change some (dst.kind.wrap (a * 2)) = some (dst.kind.wrap (a + a))
    have htwice : a * 2 = a + a := BitVec.mul_two
    rw [htwice]
  | subAssign =>
    obtain rfl := Option.some.inj h
    rw [zero_eq hscalar]
    apply sameEffect_const hzero
    intro ρ σ hσ
    obtain ⟨a, v, -, -, hv, hσ⟩ := exec_same (by decide) hdst hsame hσ
    rw [compute_op2 rfl (by decide)] at hv
    rwa [evalBinary_self hscalar (.inl rfl) hv] at hσ
  | remAssign =>
    obtain rfl := Option.some.inj h
    rw [zero_eq hscalar]
    apply sameEffect_const hzero
    intro ρ σ hσ
    obtain ⟨a, v, -, -, hv, hσ⟩ := exec_same (by decide) hdst hsame hσ
    rw [compute_op2 rfl (by decide)] at hv
    rwa [evalBinary_self hscalar (.inr (.inr rfl)) hv] at hσ
  | quoAssign =>
    obtain rfl := Option.some.inj h
    rw [one_eq hscalar]
    apply sameEffect_const hone
    intro ρ σ hσ
    obtain ⟨a, v, -, -, hv, hσ⟩ := exec_same (by decide) hdst hsame hσ
    rw [compute_op2 rfl (by decide)] at hv
    rwa [evalBinary_self hscalar (.inr (.inl rfl)) hv] at hσ
  | xorAssign =>
    obtain rfl := Option.some.inj h
    rw [zero_eq hscalar]
    apply sameEffect_const hzero
    intro ρ σ hσ
    obtain ⟨a, v, -, -, hv, hσ⟩ := exec_same (by decide) hdst hsame hσ
    rw [compute_opN (by decide)] at hv
    change some (a ^^^ a) = some v at hv
    rw [BitVec.xor_self] at hv
    rwa [← Option.some.inj hv] at hσ
  | andAssign =>
    obtain rfl := Option.some.inj h
    apply sameEffect_void hdst
    intro ρ σ hσ
    obtain ⟨a, v, ha, -, hv, hσ⟩ := exec_same (by decide) hdst hsame hσ
    rw [compute_opN (by decide)] at hv
    change some (a &&& a) = some v at hv
    rw [BitVec.and_self] at hv
    exact ⟨a, ha, Option.some.inj hv ▸ hσ⟩
  | orAssign =>
    obtain rfl := Option.some.inj h
    apply sameEffect_void hdst
    intro ρ σ hσ
    obtain ⟨a, v, ha, -, hv, hσ⟩ := exec_same (by decide) hdst hsame hσ
    rw [compute_opN (by decide)] at hv
    change some (a ||| a) = some v at hv
    rw [BitVec.or_self] at hv
    exact ⟨a, ha, Option.some.inj hv ▸ hσ⟩
  | assign =>
    obtain rfl := Option.some.inj h
    apply sameEffect_void hdst
    intro ρ σ hσ
    obtain ⟨b, hb, hσ⟩ := exec_assign.mp hσ
    rw [← (agree_of_sameTree hsame).eval ρ] at hb
    exact ⟨b, hb, hσ⟩
  | _ => cases h

end Same

/-! ## `(= dst (op dst y))` -/

theorem sameEffect_foldBinary {k : Kind} {op : Op2} {dst x y : Expr} {p : Place}
    (hdst : dst.IsPlace) (hop : op.toAssignOp ≠ .badSt2) (hsame : sameTree dst x) :
    SameEffect (.stmt2 .assign dst (Expr.binary k op x y p)) (.stmt2 op.toAssignOp dst y) := by
  intro ρ σ hσ
  obtain ⟨v, hv, hσ⟩ := exec_assign.mp hσ
  obtain ⟨a, ha, hv⟩ := eval_binary.mp hv
  obtain ⟨hop2, hopN⟩ := Op2.toOp2_toAssignOp op hop
  have hbad : op.toAssignOp.toOp2 ≠ .bad2 := by
    intro hc
    rw [hop2] at hc
    subst hc
    exact hop rfl
  obtain ⟨-, hassign, hdecided⟩ := toOp2_cases hbad
  rw [hop2] at hdecided
  rw [hdecided, if_neg (by decide)] at hv
  obtain ⟨b, hb, hv⟩ := hv
  have hagree := agree_of_sameTree hsame
  rw [← hagree.eval ρ] at ha
  rw [← hagree.valueKind, hdst.valueKind] at hv
  refine ⟨σ, (exec_compound hassign).mpr ⟨a, b, v, ha, hb, ?_, hσ⟩, .refl σ⟩
  rw [compute_op2 hopN hbad, hop2, hv]

theorem sameEffect_foldTuple {k : Kind} {op : OpN} {dst x y : Expr} {p : Place} (ht : (tuple k op [x, y] p).typed) (hk : k = dst.kind)
    (hop : op.toAssignOp ≠ .badSt2) (hsame : sameTree dst x) :
    SameEffect (.stmt2 .assign dst (Expr.tuple k op [x, y] p)) (.stmt2 op.toAssignOp dst y) := by
  subst hk
  intro ρ σ hσ
  obtain ⟨v, hv, hσ⟩ := exec_assign.mp hσ
  obtain ⟨hopN, -⟩ := OpN.toOpN_toAssignOp op hop
  have hbad : op.toAssignOp.toOpN ≠ .badN := by
    intro hc
    rw [hopN] at hc
    subst hc
    exact hop rfl
  obtain ⟨hcomm, hassign, -⟩ := toOpN_commutative hbad
  rw [hopN] at hcomm
  obtain ⟨hscalar, hxs⟩ := (typed_commutative hcomm).mp ht
  obtain ⟨vs, hvs, hv⟩ := (eval_commutative hscalar hcomm).mp hv
  have hvalid := evalList_valid hscalar hxs hvs
  obtain ⟨a, us, ha, hus, rfl⟩ := evalList_cons.mp hvs
  obtain ⟨b, ws, hb, hws, rfl⟩ := evalList_cons.mp hus
  obtain rfl := Option.some.inj hws
  rw [← (agree_of_sameTree hsame).eval ρ] at ha
  refine ⟨σ, (exec_compound hassign).mpr ⟨a, b, v, ha, hb, ?_, hσ⟩, .refl σ⟩
  rw [compute_opN hbad, hopN, ← hv, MonoidOn.fold_cons,
    MonoidOn.fold_singleton _ (hvalid b (by simp))]
  rfl

/-! ## `try_optimize(Assign)` -/

theorem equalOk_same {o : Optimizer} {dst e : Expr} (hok : equalOk o dst e)
    (h : deepEqual o.allowMaskPure dst e) : sameTree dst e := by
  simpa [equalOk, h] using hok

/-- `make_assign` on the rest of the source. -/
theorem sameEffect_getD {dst y : Expr} {op : OpStmt2} {r : Option Stmt}
    (h : ∀ st, r = some st → SameEffect (.stmt2 op dst y) st) :
    SameEffect (.stmt2 op dst y) (r.getD (.stmt2 op dst y)) := by
  cases r with
  | none => exact .refl _
  | some st => exact h st rfl

theorem simplifyAssignExpr_preserves {o : Optimizer} {op : OpStmt2} {dst src : Expr}
    (hdst : dst.IsPlace) (hok : equalOk o dst src) {folded : Option Stmt}
    (hfolded : op = .assign → ∀ st, folded = some st → SameEffect (.stmt2 op dst src) st)
    {st : Stmt} (h : o.simplifyAssignExpr op dst src folded = some st) :
    SameEffect (.stmt2 op dst src) st := by
  unfold Optimizer.simplifyAssignExpr at h
  split at h
  · cases h
  · split at h
    · next hequal => exact simplifySameAssign_preserves hdst (equalOk_same hok hequal) h
    · split at h
      · next hop => exact hfolded hop st h
      · cases h

theorem takes_fold2 {op : Op2} (hop : op.toAssignOp ≠ .badSt2) {k kx ky : Kind}
    (ht : k.typed2 op kx ky) : op.toAssignOp.takes k ky := by
  cases op with
  | sub | quo | rem =>
    simp only [Kind.typed2, Bool.and_eq_true, beq_iff_eq] at ht
    simp [Op2.toAssignOp, OpStmt2.takes, ← ht.1.2]
  | shl | shr =>
    simp only [Kind.typed2, Bool.and_eq_true, beq_iff_eq] at ht
    exact ht.2
  | _ => exact absurd rfl hop

theorem takes_foldN {op : OpN} (hop : op.toAssignOp ≠ .badSt2) (k : Kind) :
    op.isCommutative ∧ op.toAssignOp.takes k k := by
  cases op <;> first | exact absurd rfl hop | exact ⟨rfl, beq_self_eq_true k⟩

/-- The assignment optimizer leaves the same value in the same location and changes no other one,
if no operand that it takes for equal to the destination is another tree. -/
theorem tryOptimizeAssign_preserves (o : Optimizer) {op : OpStmt2} {dst src : Expr}
    (hdst : dst.IsPlace) (hsrc : src.typed) (htakes : op.takes dst.kind src.valueKind)
    (hok : assignOk o op dst src) {st : Stmt} (h : o.tryOptimizeAssign op dst src = some st) :
    SameEffect (.stmt2 op dst src) st := by
  induction src using Expr.induct generalizing op st with
  | hconst c p =>
    rw [Optimizer.tryOptimizeAssign] at h
    split at h
    · exact simplifyAssign_preserves hdst hsrc htakes h
    · cases h
  | hbinary k op2 x y p _ ihy =>
    rw [Optimizer.tryOptimizeAssign] at h
    rw [assignOk, Bool.and_eq_true] at hok
    apply simplifyAssignExpr_preserves hdst hok.1 _ h
    rintro rfl st hst
    split at hst
    · next hfires =>
      obtain rfl := Option.some.inj hst
      simp only [ne_eq, Bool.and_eq_true, decide_eq_true_eq] at hfires
      obtain ⟨hop2, hequal⟩ := hfires
      have hrest : equalOk o dst x ∧ assignOk o op2.toAssignOp dst y := by
        simpa [hop2, hequal] using hok.2
      rw [typed, Bool.and_eq_true, Bool.and_eq_true] at hsrc
      have hk : k = dst.kind := by simpa [OpStmt2.takes, valueKind, kind] using htakes
      have htakes' := takes_fold2 hop2 hsrc.2
      rw [hk] at htakes'
      apply (sameEffect_foldBinary hdst hop2 (equalOk_same hrest.1 hequal)).trans
      exact sameEffect_getD fun st hst => ihy hsrc.1.2 htakes' hrest.2 hst
    · cases hst
  | htuple k opN args p ih =>
    obtain _ | ⟨x, _ | ⟨y, _ | ⟨z, rest⟩⟩⟩ := args
    case cons.cons.nil =>
      rw [Optimizer.tryOptimizeAssign] at h
      rw [assignOk, Bool.and_eq_true] at hok
      apply simplifyAssignExpr_preserves hdst hok.1 _ h
      rintro rfl st hst
      split at hst
      · next hfires =>
        obtain rfl := Option.some.inj hst
        simp only [ne_eq, Bool.and_eq_true, decide_eq_true_eq] at hfires
        obtain ⟨hopN, hequal⟩ := hfires
        have hrest : equalOk o dst x ∧ assignOk o opN.toAssignOp dst y := by
          simpa [hopN, hequal] using hok.2
        obtain ⟨hcomm, htakes'⟩ := takes_foldN hopN dst.kind
        have hk : k = dst.kind := by
          rw [valueKind_tuple (commutative_ne_comma hcomm)] at htakes
          simpa [OpStmt2.takes] using htakes
        obtain ⟨-, hxs⟩ := (typed_commutative hcomm).mp hsrc
        obtain ⟨hy, hyk⟩ := hxs y (by simp)
        have htakesY : opN.toAssignOp.takes dst.kind y.valueKind := by
          rw [hyk.trans hk]
          exact htakes'
        apply (sameEffect_foldTuple hsrc hk hopN (equalOk_same hrest.1 hequal)).trans
        exact sameEffect_getD fun st hst => ih y (by simp) hy htakesY hrest.2 hst
      · cases hst
    all_goals
      exact simplifyAssignExpr_preserves hdst hok (fun _ st hst => by cases hst) h
  | _ => exact simplifyAssignExpr_preserves hdst hok (fun _ st hst => by cases hst) h

/-- `x = x - 1` becomes a decrement. -/
theorem tryOptimizeAssign_preserves_decrement :
    let x := var .int32 0x1000
    SameEffect (.stmt2 .assign x (binary .int32 .sub x (const ⟨1, .int32⟩ .direct) (.at 0)))
      (.stmt1 .dec x) :=
  tryOptimizeAssign_preserves (.ofFlags .all) ⟨rfl, .inl rfl, rfl⟩ rfl rfl (by decide) rfl

/-- The memory operand of kind Int32 at an offset that is not direct. -/
def memAt (offset : BitVec 64) (place : Nat) : Expr :=
  mem .int32 [var .ptr 0x1000, const ⟨offset, .ptr⟩ (.at place)] (.at (place + 4))

/-- `deep_equal` takes the two addresses for equal, and `*(p + 0x12345678) = *(p + 0x12345680)` is
dropped. -/
theorem tryOptimizeAssign_loses_copy :
    ¬∀ (o : Optimizer) (op : OpStmt2) (dst src : Expr), dst.IsPlace → src.typed →
      op.takes dst.kind src.valueKind → ∀ st, o.tryOptimizeAssign op dst src = some st →
      SameEffect (.stmt2 op dst src) st := by
  intro h
  have heffect := h (.ofFlags .all) .assign (memAt 0x12345678 0) (memAt 0x12345680 12)
    ⟨rfl, .inr rfl, rfl⟩ rfl rfl voidExpr rfl
  let ρ : Valuation := ⟨fun _ _ => 0, fun p => if p = 0x12345680 then 1 else 0, fun _ => 0,
    fun _ _ => 0⟩
  have hwritten : ∃ σ, (Stmt.stmt2 .assign (memAt 0x12345678 0) (memAt 0x12345680 12)).exec ρ =
      some σ ∧ σ.mem 0x12345678 = 1 := ⟨_, rfl, by decide⟩
  obtain ⟨σ, hσ, hmem⟩ := hwritten
  obtain ⟨σ', hσ', hagree⟩ := heffect ρ σ hσ
  obtain rfl : ρ = σ' := Option.some.inj hσ'
  rw [← hagree.mem] at hmem
  exact absurd hmem (by decide)

end OneJit
