import OneJit.GoJit.CompEval

/-!
# Assignments that hand their destination down

`Stmt2` with `ASSIGN` lets the expression write a soft register early. The value of the expression
arrives if no right operand reads the register after that, and if the kinds agree.
-/

namespace OneJit.GoJit

/-- An operand holds a number, and no other register of the user and no other memory has changed. -/
structure Assigned (τ τ' : SoftState) (d : Leaf) (v : BitVec 64) : Prop where
  number : d.number τ' = v
  soft : ∀ id ∈ userRegs, (∀ s, d = .soft s → id ≠ s.id) → τ'.soft id = τ.soft id
  regs : ∀ id, (∀ r, d = .arg (.reg r) → id ≠ r.id) → τ'.state.regs id = τ.state.regs id
  mem : ∀ x, (∀ m, d = .arg (.mem m) → ¬ (x - τ.state.addr m).toNat < m.reg.kind.size) →
    τ'.state.mem x = τ.state.mem x

section Assign

variable {M : Machine} {c c' : Comp} {τ τ' : SoftState} {live live' : Live} {k : Kind}

/-- A write to an operand changes nothing else. -/
theorem assigned_put {d : Leaf} {v : BitVec 64} (hd : ∀ c, d ≠ .arg (.const c))
    (h : Agrees userRegs τ τ') : Assigned τ (M.put τ' v d) d (d.kind.extend v) := by
  refine ⟨number_put hd, fun id hid hne => ?_, fun id hne => ?_, fun x hne => ?_⟩
  · rw [← h.soft id hid]
    cases d with
    | soft s => exact Function.update_of_ne (hne s rfl) _ _
    | arg a => cases a <;> rfl
  · rw [← h.state]
    cases d with
    | soft s => rfl
    | arg a =>
      cases a with
      | const c => rfl
      | reg r => exact Function.update_of_ne (hne r rfl) _ _
      | mem m => rfl
  · rw [← h.state]
    cases d with
    | soft s => rfl
    | arg a =>
      cases a with
      | const c => rfl
      | reg r => rfl
      | mem m =>
        have hout := hne m rfl
        rw [← h.state] at hout
        exact if_neg hout

/-- The move at the end of an assignment. -/
theorem executes_mov {d l : Leaf} {v : BitVec 64} (hd : ∀ c, d ≠ .arg (.const c))
    (hkind : l.kind = d.kind) (hv : l.number τ = v) :
    ∃ τ', Executes M c (c.inst2 .mov d l) τ τ' ∧ Assigned τ τ' d v := by
  rw [Comp.inst2]
  split_ifs with hne
  · refine ⟨M.put τ (l.number τ) d, executes_emit rfl, ?_⟩
    have hput : Assigned τ (M.put τ (l.number τ) d) d (d.kind.extend (l.number τ)) :=
      assigned_put hd .refl
    rw [← hkind, number_extend, hv] at hput
    rw [hv]
    exact hput
  · have heq : l = d := by simpa using hne
    subst heq
    exact ⟨τ, .refl, hv, fun _ _ _ => rfl, fun _ _ => rfl, fun _ _ => rfl⟩

/-- An expression writes a register or memory operand at the end. -/
theorem arg_executes (M : Machine) {e : Expr} (he : e.Proper) {a : Arg}
    (hleaf : e.isLeaf = false) (hfit : e.kind = a.kind) (hu : Users live) (hc : Counts c live)
    (hr : InRange (Comp.expr e (some (.arg a)) c).2) (v : BitVec 64) (hv : e.value τ = some v) :
    (Comp.expr e (some (.arg a)) c).1 = (.arg a, .zero) ∧ a.kind.extend v = v ∧
      ∃ τ₂, Executes M c (Comp.expr e (some (.arg a)) c).2 τ (M.put τ₂ v (.arg a)) ∧
        Agrees live τ τ₂ := by
  cases e with
  | leaf l => cases hleaf
  | expr1 x op k =>
    obtain ⟨u, hx, rfl⟩ := Option.map_eq_some_iff.mp hv
    have hka : a.kind = k := hfit.symm
    have hdest : ∀ (s : SoftReg) (c : Comp),
        c.dest1 k (some (.arg a)) s = ((.arg a, .zero, .zero), c) :=
      fun s c => if_neg (not_not.mpr hka)
    rw [expr1_eq] at hr ⊢
    dsimp only at hr ⊢
    rw [hdest, show Comp.dto (some (.arg a)) = none from rfl] at hr ⊢
    dsimp only at hr ⊢
    rw [finish_zero] at hr ⊢
    have hr₁ : InRange (Comp.expr x none c).2 := fun id hid => hr id (by simpa using hid)
    obtain ⟨τ₁, hrun, heval⟩ := expr_executes M he.1 none c live trivial
      (fun d hd => by cases hd) hu hc hr₁ τ u hx
    refine ⟨rfl, by rw [hka]; exact on_extend op k u, τ₁, ?_, heval.agrees⟩
    have hexec : (AsmCode.op1 op (Comp.expr x none c).1.1 (.arg a)).exec M τ₁ =
        some (M.put τ₁ (op.on k u) (.arg a)) := by
      simp only [AsmCode.exec, heval.number, Leaf.kind, hka]
    exact (hrun.trans (executes_emit hexec)).trans executes_freeOther
  | expr2 x y op k =>
    obtain ⟨u, hx, hv⟩ := Option.bind_eq_some_iff.mp hv
    obtain ⟨w, hy, hv⟩ := Option.bind_eq_some_iff.mp hv
    have hka : a.kind = k := hfit.symm
    have hdest : ∀ (s s' : SoftReg) (c : Comp),
        c.dest2 op k (some (.arg a)) s s' = ((.arg a, .zero, .zero), c) :=
      fun s s' c => if_neg (not_not.mpr hka)
    rw [expr2_eq] at hr ⊢
    dsimp only at hr ⊢
    rw [hdest, show Comp.dto (some (.arg a)) = none from rfl] at hr ⊢
    dsimp only at hr ⊢
    rw [finish_zero] at hr ⊢
    have hr₂ : InRange (Comp.expr y none (Comp.expr x none c).2).2 :=
      fun id hid => hr id (by simpa using hid)
    have hr₁ : InRange (Comp.expr x none c).2 :=
      fun id hid => hr₂ id ((expr_taken y none _).subset hid)
    have hnone : SoftDst none := fun d hd => by cases hd
    obtain ⟨live₁, hres₁⟩ := expr_result he.1 none c live hnone.usable hc hr₁
    have hu₁ : Users live₁ := hu.mono hres₁.subset
    obtain ⟨τ₁, hrun₁, heval₁⟩ := expr_executes M he.1 none c live trivial hnone hu hc hr₁ τ u hx
    have hy₁ : y.value τ₁ = some w := by
      rw [← hy]
      exact value_congr heval₁.state fun id hid =>
        heval₁.agrees.soft id (softIds_users he.2.1 hu id hid)
    obtain ⟨τ₂, hrun₂, heval₂⟩ := expr_executes M he.2.1 none _ live₁ trivial hnone hu₁
      hres₁.counts hr₂ τ₁ w hy₁
    have hnum : (Comp.expr x none c).1.1.number τ₂ = u :=
      (heval₂.agrees.number (hres₁.usable.isIn hu₁)).trans heval₁.number
    have hagree : Agrees live τ τ₂ := heval₁.agrees.trans (heval₂.agrees.mono hres₁.subset)
    refine ⟨rfl, by rw [hka]; exact Op3.on_extend hv, τ₂, ?_, hagree⟩
    have hexec : (AsmCode.op2 op (Comp.expr x none c).1.1
        (Comp.expr y none (Comp.expr x none c).2).1.1 (.arg a)).exec M τ₂ =
          some (M.put τ₂ v (.arg a)) := by
      simp only [AsmCode.exec, hnum, heval₂.number, hagree.state, Leaf.kind, hka, hv,
        Option.map_some]
    exact ((hrun₁.trans hrun₂).trans (executes_emit hexec)).trans
      (executes_freeOther.trans executes_freeOther)

/-- What `Stmt2` does with a leaf as destination. -/
theorem stmt2_leaf {d : Leaf} {e : Expr} (h : c.stmt2 .mov (.leaf d) e = .ok c') :
    c' = ((Comp.expr e (some d) c).2.inst2 .mov d (Comp.expr e (some d) c).1.1).freeOther
      (Comp.expr e (some d) c).1.2 .zero := by
  have heq := stmt2_ok h
  dsimp only [Comp.expr] at heq
  rwa [if_pos rfl, freeTempReg_zero] at heq

/-- The result of an operator with a soft register as destination. -/
theorem expr_soft {e : Expr} {s : SoftReg} (hleaf : e.isLeaf = false) (hv : s.valid = true)
    (hfwd : e.Forwards s) :
    (Comp.expr e (some (.soft s)) c).1 = (.soft ⟨s.id, e.kind⟩, ⟨s.id, e.kind⟩) := by
  cases e with
  | leaf l => cases hleaf
  | expr1 x op k =>
    rw [expr1_eq]
    dsimp only
    rw [dest1_soft hv]
    dsimp only
    rw [finish_same]
    rfl
  | expr2 x y op k =>
    have hk : k = s.kind := hfwd.1
    subst hk
    rw [expr2_eq]
    dsimp only
    rw [dest2_soft hv]
    dsimp only
    rw [finish_same]
    rfl

theorem inst2_self {d : Leaf} : c.inst2 .mov d d = c := if_neg (by simp)

theorem kinded_mov {d l : Leaf} (h : l.kind.size = d.kind.size) : Kinded c (c.inst2 .mov d l) := by
  rw [Comp.inst2]
  split_ifs
  · exact kinded_emit h
  · exact .refl

/-- The code of an assignment is well-kinded. -/
theorem stmt2_kinded {d : Leaf} {e : Expr} (he : e.WellKinded) (hkind : e.kind = d.kind)
    (hfwd : ∀ s, d = .soft s → e.Forwards s) (h : c.stmt2 .mov (.leaf d) e = .ok c') :
    Kinded c c' := by
  have hfit : e.Fits (some d) := by
    cases d with
    | soft s => exact hfwd s rfl
    | arg a => exact hkind
  obtain ⟨hcode, hres⟩ := expr_kinded he (some d) c hfit
  rw [stmt2_leaf h]
  exact (hcode.trans (kinded_mov (by rw [hres, hkind]))).trans kinded_freeOther

/-- The code of an assignment leaves the value of the expression in the destination. -/
theorem stmt2_executes (M : Machine) {d : Leaf} {e : Expr} (hd : ∀ c, d ≠ .arg (.const c))
    (hp : d.Proper) (he : e.Proper) (hkind : e.kind = d.kind)
    (hfwd : ∀ s, d = .soft s → e.Forwards s) (hc : firstTempRegId ≤ c.nextTempReg)
    (h : c.stmt2 .mov (.leaf d) e = .ok c') (hr : InRange c') (v : BitVec 64)
    (hv : e.value τ = some v) :
    ∃ τ', Executes M c c' τ τ' ∧ Assigned τ τ' d v := by
  have heq := stmt2_leaf h
  have hr' : InRange (Comp.expr e (some d) c).2 := by
    intro id hid
    rw [heq] at hr
    exact hr id (by simpa using hid)
  rw [heq]
  cases hleaf : e.isLeaf with
  | true =>
    cases e with
    | leaf l =>
      dsimp only [Comp.expr]
      rw [freeOther_zero]
      exact executes_mov hd hkind (Option.some.inj hv)
    | expr1 x op k => cases hleaf
    | expr2 x y op k => cases hleaf
  | false =>
    cases d with
    | arg a =>
      obtain ⟨hres, hext, τ₂, hrun, hagree⟩ := arg_executes M he hleaf hkind users_userRegs
        (counts_userRegs hc) hr' v hv
      rw [hres]
      dsimp only
      rw [inst2_self, freeOther_zero]
      have hput : Assigned τ (M.put τ₂ v (.arg a)) (.arg a) (a.kind.extend v) :=
        assigned_put hd hagree
      rw [hext] at hput
      exact ⟨_, hrun, hput⟩
    | soft s =>
      have hval : s.valid = true := make_valid hp.1
      have hst : s.isTemp = false := hp.2 s rfl
      have hdst : SoftDst (some (.soft s)) := by
        rintro d hd
        exact ⟨s, (Option.some.inj hd).symm, hval, hst⟩
      obtain ⟨τ', hrun, heval⟩ := expr_executes M he (some (.soft s)) c userRegs (hfwd s rfl) hdst
        users_userRegs (counts_userRegs hc) hr' τ v hv
      have hs : (⟨s.id, e.kind⟩ : SoftReg) = s := by
        rw [hkind]
        rfl
      have hres := expr_soft (c := c) hleaf hval (hfwd s rfl)
      rw [hs] at hres
      rw [hres] at heval ⊢
      dsimp only at heval ⊢
      rw [inst2_self, Comp.freeOther, freeTempReg_of_not (.inr hst), ite_self]
      refine ⟨τ', hrun, heval.number, fun id hid hne => ?_, fun id _ => ?_, fun x _ => ?_⟩
      · refine heval.keeps id hid fun t ht => ?_
        exact hne t (Option.some.inj ht)
      · rw [heval.state]
      · rw [heval.state]

end Assign

/-! ## The assignment as a whole -/

/-- The assignment `d = e`, with kinds that fit and registers of the user. -/
structure Assignment (d : Leaf) (e : Expr) : Prop where
  dst_not_const : ∀ c, d ≠ .arg (.const c)
  dst_proper : d.Proper
  proper : e.Proper
  wellKinded : e.WellKinded
  kind : e.kind = d.kind

/-- The code of an assignment is well-kinded, it leaves the value of the expression in the
destination, and it changes nothing else, on every machine and from every state. -/
def Preserves (c c' : Comp) (d : Leaf) (e : Expr) : Prop :=
  Kinded c c' ∧ ∀ (M : Machine) (τ : SoftState) (v : BitVec 64), e.value τ = some v →
    ∃ τ', Executes M c c' τ τ' ∧ Assigned τ τ' d v

/-- An assignment preserves the value of its expression, if the destination can be handed down and
the ids of temporary registers do not run out. -/
theorem assign_preserves {d : Leaf} {e : Expr} (ha : Assignment d e)
    (hfwd : ∀ s, d = .soft s → e.Forwards s) (c c' : Comp) (hc : firstTempRegId ≤ c.nextTempReg)
    (h : c.stmt2 .mov (.leaf d) e = .ok c') (hr : InRange c') : Preserves c c' d e :=
  ⟨stmt2_kinded ha.wellKinded ha.kind hfwd h, fun M _ v hv => stmt2_executes M ha.dst_not_const
    ha.dst_proper ha.proper ha.kind hfwd hc h hr v hv⟩

/-- The soft register of the user with this id. -/
def userReg (id : BitVec 24) : Leaf := .soft ⟨id, .int64⟩

theorem userReg_proper {id : BitVec 24} (h : id.toNat < firstTempRegId) : (userReg id).Proper := by
  refine ⟨show Kind.int64 ≠ .invalid by decide, fun s hs => ?_⟩
  rw [← Leaf.soft.inj hs]
  simpa [SoftReg.isTemp] using h

/-- `s0 = -(s1 * s2)`. -/
def negProduct : Expr :=
  .expr1 (.expr2 (.leaf (userReg 1)) (.leaf (userReg 2)) .mul3 .int64) .neg .int64

theorem negProduct_assignment : Assignment (userReg 0) negProduct :=
  ⟨by simp [userReg], userReg_proper (by decide),
    ⟨⟨userReg_proper (by decide), userReg_proper (by decide), by decide⟩, by decide⟩,
    ⟨⟨rfl, rfl, rfl, rfl, rfl⟩, rfl, rfl, by simp⟩, rfl⟩

theorem negProduct_forwards : ∀ s, userReg 0 = .soft s → negProduct.Forwards s := by
  intro s hs
  rw [← Leaf.soft.inj hs]
  exact ⟨rfl, trivial, by simp [Expr.isLeaf]⟩

theorem assign_preserves_neg : ∃ c', Preserves .init c' (userReg 0) negProduct :=
  ⟨_, assign_preserves negProduct_assignment negProduct_forwards .init _ (Nat.le_refl _) rfl
    (by decide)⟩

/-- `s1 = (s2 + s3) - s1`: the sum is in `s1` when the difference reads it. -/
def overwritten : Expr :=
  .expr2 (.expr2 (.leaf (userReg 2)) (.leaf (userReg 3)) .add3 .int64) (.leaf (userReg 1)) .sub3
    .int64

theorem overwritten_assignment : Assignment (userReg 1) overwritten :=
  ⟨by simp [userReg], userReg_proper (by decide), ⟨⟨userReg_proper (by decide),
    userReg_proper (by decide), by decide⟩, userReg_proper (by decide), by decide⟩,
    ⟨⟨rfl, rfl, rfl, rfl, rfl⟩, rfl, rfl, rfl, rfl⟩, rfl⟩

/-- The destination is overwritten before it is read. -/
theorem overwrites_early : ¬ ∀ (d : Leaf) (e : Expr), Assignment d e → ∀ c c' : Comp,
    firstTempRegId ≤ c.nextTempReg → c.stmt2 .mov (.leaf d) e = .ok c' → InRange c' →
      Preserves c c' d e := by
  intro h
  obtain ⟨_, hrun⟩ := h _ _ overwritten_assignment .init _ (Nat.le_refl _) rfl (by decide)
  let M : Machine := ⟨fun _ _ v => v, fun _ _ _ => rfl, fun _ => 0⟩
  let τ : SoftState := ⟨⟨fun _ => 0, fun _ => 0⟩, fun id => id.setWidth 64⟩
  obtain ⟨τ', ⟨is, hcode, hexec⟩, hassign⟩ := hrun M τ 4 (by decide)
  have his : is = [.op2 .add3 (userReg 2) (userReg 3) (userReg 1),
      .op2 .sub3 (userReg 1) (userReg 1) (userReg 1)] :=
    (List.nil_append is).symm.trans (hcode.symm.trans rfl)
  subst his
  have hzero : (execAll M τ [.op2 .add3 (userReg 2) (userReg 3) (userReg 1),
      .op2 .sub3 (userReg 1) (userReg 1) (userReg 1)]).map (fun τ => (userReg 1).number τ) =
        some 0 := by decide
  rw [hexec, Option.map_some, hassign.number] at hzero
  exact absurd hzero (by decide)

end OneJit.GoJit
