import OneJit.AssignSound
import OneJit.OptimizerCall
import OneJit.OptimizerHazards

/-!
# The optimizer and the checks, on assignments

The destination of an assignment is accessed once, whether it is read, written or both. The rules
on a destination that is also the source drop the access, or the division by it.
-/

namespace OneJit

open Expr hiding none

/-- What an assignment, an increment, a decrement or an expression performs. -/
def Stmt.performs (ρ : Valuation) : Stmt → Hazard → Prop
  | .expr e, h => e.performs ρ h
  | .stmt1 _ dst, h => dst.performs ρ h
  | .stmt2 op (.expr dst) (.expr src), h =>
    dst.performs ρ h ∨ src.performs ρ h ∨ ∃ b, eval ρ src = some b ∧ op.toOp2.hazard b = some h
  | _, _ => False

namespace Stmt

/-- What a statement performs is undefined and not checked nowhere. -/
def Defined (c : Check) (ρ : Valuation) (st : Stmt) : Prop :=
  ¬st.performs ρ .shift ∧ (c.divisionByZero ∨ ¬st.performs ρ .division)

/-- What a rewriting of a statement owes to the checks. -/
structure Honours (c : Check) (st st' : Stmt) : Prop where
  keeps : ∀ ρ h, h.checked c → st.performs ρ h → st'.performs ρ h
  addsNone : ∀ ρ, st.Defined c ρ → ∀ h, st'.performs ρ h → st.performs ρ h

theorem Defined.expr {c : Check} {ρ : Valuation} {st : Stmt} {x : Expr} (hd : st.Defined c ρ)
    (h : ∀ h, x.performs ρ h → st.performs ρ h) : Expr.Defined c ρ x :=
  ⟨fun hs => hd.1 (h _ hs), hd.2.imp_right fun hdiv hs => hdiv (h _ hs)⟩

namespace Honours

variable {c : Check} {st st' st'' : Stmt}

theorem of_iff (h : ∀ ρ h, st'.performs ρ h ↔ st.performs ρ h) : Honours c st st' :=
  ⟨fun ρ hz _ hp => (h ρ hz).mpr hp, fun ρ _ hz hp => (h ρ hz).mp hp⟩

theorem refl (st : Stmt) : Honours c st st := of_iff fun _ _ => Iff.rfl

theorem trans (h : Honours c st st') (h' : Honours c st' st'') : Honours c st st'' where
  keeps ρ hz hc hp := h'.keeps ρ hz hc (h.keeps ρ hz hc hp)
  addsNone ρ hd hz hp := by
    have hd' : st'.Defined c ρ := ⟨fun hs => hd.1 (h.addsNone ρ hd _ hs),
      hd.2.imp_right fun hdiv hs => hdiv (h.addsNone ρ hd _ hs)⟩
    exact h.addsNone ρ hd hz (h'.addsNone ρ hd' hz hp)

/-- Nothing is done in place of what performs nothing that is checked. -/
theorem void (hpure : ∀ ρ h, h.checked c → ¬st.performs ρ h) : Honours c st voidExpr where
  keeps ρ hz hc hp := absurd hp (hpure ρ hz hc)
  addsNone ρ _ hz hp := by
    have hnone : ¬voidExpr.performs ρ hz := performs_const _ _
    exact absurd hp hnone

theorem stmt2_congr {op : OpStmt2} {dst dst' src src' : Expr} (hdst : Expr.Honours c dst dst')
    (hsrc : Expr.Honours c src src') (hr : Refines src src') (ht : src.typed) :
    Honours c (.stmt2 op dst src) (.stmt2 op dst' src') := by
  constructor
  · intro ρ h hc hp
    rcases hp with hp | hp | ⟨b, hb, hop⟩
    · exact .inl (hdst.keeps ρ h hc hp)
    · exact .inr (.inl (hsrc.keeps ρ h hc hp))
    · exact .inr (.inr ⟨b, hr.eval ρ b hb, hop⟩)
  · intro ρ hd h hp
    have hdd : Expr.Defined c ρ dst := hd.expr fun _ hp => .inl hp
    have hds : Expr.Defined c ρ src := hd.expr fun _ hp => .inr (.inl hp)
    rcases hp with hp | hp | ⟨b, hb, hop⟩
    · exact .inl (hdst.addsNone ρ hdd h hp)
    · exact .inr (.inl (hsrc.addsNone ρ hds h hp))
    · rw [hsrc.eval_eq hr ht hds] at hb
      exact .inr (.inr ⟨b, hb, hop⟩)

end Honours

end Stmt

/-- The condition of the rules on a destination that is also the source: a division by it is not
dropped where divisions are checked, and the destination only if it is pure. -/
def sameHonours (o : Optimizer) (assignOp : OpStmt2) (dst : Expr) : Bool :=
  match assignOp with
  | .quoAssign | .remAssign => o.allowMaskPure.division
  | .andAssign | .orAssign | .assign => deepPure o.allowMaskPure dst
  | _ => true

/-- The condition on the checks of the rules for an assignment. -/
def assignHonours (o : Optimizer) (assignOp : OpStmt2) (dst : Expr) : Expr → Bool
  | .const _ _ => true
  | .binary kind op x y place =>
    (!deepEqual o.allowMaskPure dst (.binary kind op x y place) || sameHonours o assignOp dst) &&
      (assignOp != .assign || op.toAssignOp == .badSt2 ||
        !deepEqual o.allowMaskPure dst x || assignHonours o op.toAssignOp dst y)
  | .tuple kind op [x, y] place =>
    (!deepEqual o.allowMaskPure dst (.tuple kind op [x, y] place) || sameHonours o assignOp dst) &&
      (assignOp != .assign || op.toAssignOp == .badSt2 ||
        !deepEqual o.allowMaskPure dst x || assignHonours o op.toAssignOp dst y)
  | src => !deepEqual o.allowMaskPure dst src || sameHonours o assignOp dst

section Rules

variable {o : Optimizer} {op : OpStmt2} {dst src : Expr}

/-- An assignment of a constant by which nothing is divided or shifted. -/
theorem performs_assign_const {v : Value} {p : Place} (hop : op.toOp2.hazard v.meaning = none)
    {ρ : Valuation} {h : Hazard} :
    (Stmt.stmt2 op dst (const v p)).performs ρ h ↔ dst.performs ρ h := by
  rw [Stmt.performs]
  simp [eval, hop]

/-- Nothing is divided or shifted by a commutative operator. -/
theorem hazard_opN (hop : op.toOpN ≠ .badN) (b : BitVec 64) : op.toOp2.hazard b = none := by
  rw [(toOpN_commutative hop).2.2.2]
  rfl

theorem hazard_assign (b : BitVec 64) : OpStmt2.assign.toOp2.hazard b = none := rfl

theorem performs_assign_ofValue {v : Value} {ρ : Valuation} {h : Hazard} :
    (Stmt.stmt2 .assign dst (ofValue v)).performs ρ h ↔ dst.performs ρ h := by
  rw [Stmt.performs]
  simp [hazard_assign]

theorem honours_simplifyAssign {v : Value} {p : Place} (hv : v.kind.isScalar) {st : Stmt}
    (h : o.simplifyAssign op dst v = some st) :
    Stmt.Honours o.check (.stmt2 op dst (const v p)) st := by
  have hinc : ∀ op', op.toOp2.hazard v.meaning = none →
      Stmt.Honours o.check (.stmt2 op dst (const v p)) (.stmt1 op' dst) := by
    intro op' hop
    exact .of_iff fun ρ h => (performs_assign_const hop).symm
  have hvoid : op.toOp2.hazard v.meaning = none → deepPure o.allowMaskPure dst →
      Stmt.Honours o.check (.stmt2 op dst (const v p)) voidExpr := by
    intro hop hpure
    exact .void fun ρ h hc hp => performs_pure hpure hc ((performs_assign_const hop).mp hp)
  unfold Optimizer.simplifyAssign at h
  dsimp only at h
  split at h
  · next hopN =>
    have hnone := hazard_opN hopN v.meaning
    split at h
    · obtain rfl := Option.some.inj h
      refine .of_iff fun ρ h => ?_
      rw [performs_assign_const hnone, performs_assign_ofValue]
    · split at h
      · next hident =>
        obtain rfl := Option.some.inj h
        rw [Bool.and_eq_true] at hident
        exact hvoid hnone hident.2
      · split at h
        · split at h
          · obtain rfl := Option.some.inj h
            exact hinc .inc hnone
          · split at h
            · obtain rfl := Option.some.inj h
              exact hinc .dec hnone
            · cases h
        · cases h
  · split at h
    · split at h
      · next hident =>
        obtain rfl := Option.some.inj h
        rw [Bool.and_eq_true] at hident
        have heq : v = Value.identity2 dst.kind op.toOp2 := by
          by_cases hk : v.kind = (Value.identity2 dst.kind op.toOp2).kind
          · exact Value.eq_toBool (hk ▸ hv) hident.1
          · rw [Value.eq, Value.relation, if_pos hk] at hident
            cases hident.1
        have hvalid : (Value.identity2 dst.kind op.toOp2).isValid := by
          rw [← heq]
          exact Value.isValid_of_isScalar hv
        have hself : ((Value.identity2 dst.kind op.toOp2).eq v).toBool := by
          rw [← heq]
          rw [← heq] at hident
          exact hident.1
        exact hvoid (hazard_identity hv hvalid hself).2 hident.2
      · split at h
        · next hsub =>
          have hnone : op.toOp2.hazard v.meaning = none := by
            rw [hsub]
            rfl
          split at h
          · obtain rfl := Option.some.inj h
            exact hinc .dec hnone
          · split at h
            · obtain rfl := Option.some.inj h
              exact hinc .inc hnone
            · cases h
        · cases h
    · cases h

/-- The rules on a destination that is also the source. -/
theorem honours_simplifySameAssign (hsame : sameTree dst src) (hok : sameHonours o op dst)
    {st : Stmt} (h : Optimizer.simplifySameAssign op dst = some st) :
    Stmt.Honours o.check (.stmt2 op dst src) st := by
  have hperforms : ∀ ρ h, (∀ b, op.toOp2.hazard b ≠ some h) →
      ((Stmt.stmt2 op dst src).performs ρ h ↔ dst.performs ρ h) := by
    intro ρ h hnone
    rw [Stmt.performs]
    constructor
    · rintro (hp | hp | ⟨b, -, hop⟩)
      · exact hp
      · exact performs_sameTree hsame ρ h hp
      · exact absurd hop (hnone b)
    · exact .inl
  have hvoid : (∀ b, op.toOp2.hazard b = none) → deepPure o.allowMaskPure dst →
      Stmt.Honours o.check (.stmt2 op dst src) voidExpr := by
    intro hnone hpure
    refine .void fun ρ h hc hp => performs_pure hpure hc ((hperforms ρ h ?_).mp hp)
    simp [hnone]
  have hconst : ∀ op' (e : Expr), (∀ ρ h, ¬e.performs ρ h) → (∀ b, op'.toOp2.hazard b = none) →
      (∀ b h, h.checked o.check → op.toOp2.hazard b ≠ some h) →
      Stmt.Honours o.check (.stmt2 op dst src) (.stmt2 op' dst e) := by
    intro op' e he hop' hop
    have hnew : ∀ ρ h, (Stmt.stmt2 op' dst e).performs ρ h ↔ dst.performs ρ h := by
      intro ρ h
      rw [Stmt.performs]
      simp [he, hop']
    constructor
    · intro ρ h hc hp
      exact (hnew ρ h).mpr ((hperforms ρ h fun b => hop b h hc).mp hp)
    · intro ρ _ h hp
      exact .inl ((hnew ρ h).mp hp)
  have hdivision : (op = .quoAssign ∨ op = .remAssign) →
      ∀ b h, h.checked o.check → op.toOp2.hazard b ≠ some h := by
    intro hop b h hc hb
    have hdiv : o.check.divisionByZero = false := by
      rcases hop with rfl | rfl <;> simpa [sameHonours, Optimizer.allowMaskPure] using hok
    have hh : h = .division := by
      rcases hop with rfl | rfl
      all_goals
        simp only [OpStmt2.toOp2, Op2.hazard] at hb
        split at hb
        · exact (Option.some.inj hb).symm
        · cases hb
    rw [hh, Hazard.checked, hdiv] at hc
    cases hc
  cases op with
  | addAssign =>
    obtain rfl := Option.some.inj h
    refine hconst _ _ ?_ (fun _ => rfl) (fun _ _ _ hb => by cases hb)
    intro ρ h
    rw [two]
    split
    · exact performs_ofValue _
    · split
      · exact performs_ofValue _
      · exact performs_const _ _
  | subAssign | xorAssign =>
    obtain rfl := Option.some.inj h
    exact hconst _ _ (fun _ _ => performs_zero _) (fun _ => rfl) (fun _ _ _ hb => by cases hb)
  | remAssign =>
    obtain rfl := Option.some.inj h
    exact hconst _ _ (fun _ _ => performs_zero _) (fun _ => rfl) (hdivision (.inr rfl))
  | quoAssign =>
    obtain rfl := Option.some.inj h
    exact hconst _ _ (fun _ _ => performs_one _) (fun _ => rfl) (hdivision (.inl rfl))
  | andAssign | orAssign | assign =>
    obtain rfl := Option.some.inj h
    exact hvoid (fun _ => rfl) hok
  | _ => cases h

/-- `(= dst (op dst y))` performs what `(op= dst y)` does. -/
theorem performs_fold {e : Expr} {x y : Expr} (hsame : sameTree dst x) {ρ : Valuation} {h : Hazard}
    (he : e.performs ρ h ↔ x.performs ρ h ∨ y.performs ρ h ∨
      ∃ b, eval ρ y = some b ∧ op.toOp2.hazard b = some h) :
    (Stmt.stmt2 op dst y).performs ρ h ↔ (Stmt.stmt2 .assign dst e).performs ρ h := by
  rw [Stmt.performs, Stmt.performs, he]
  constructor
  · rintro (hp | hp | hp)
    · exact .inl hp
    · exact .inr (.inl (.inr (.inl hp)))
    · exact .inr (.inl (.inr (.inr hp)))
  · rintro (hp | (hp | hp | hp) | ⟨b, -, hp⟩)
    · exact .inl hp
    · exact .inl (performs_sameTree hsame ρ h hp)
    · exact .inr (.inl hp)
    · exact .inr (.inr hp)
    · cases hp

theorem honours_foldBinary {c : Check} {k : Kind} {op : Op2} {dst x y : Expr} {p : Place}
    (hop : op.toAssignOp ≠ .badSt2) (hsame : sameTree dst x) :
    Stmt.Honours c (.stmt2 .assign dst (Expr.binary k op x y p)) (.stmt2 op.toAssignOp dst y) := by
  refine .of_iff fun ρ h => performs_fold hsame ?_
  have hboth : op ≠ .land ∧ op ≠ .lor := by
    cases op <;> first | exact absurd rfl hop | decide
  rw [performs_binary hboth, (Op2.toOp2_toAssignOp op hop).1]

theorem honours_foldTuple {c : Check} {k : Kind} {op : OpN} {dst x y : Expr} {p : Place}
    (hop : op.toAssignOp ≠ .badSt2) (hsame : sameTree dst x) :
    Stmt.Honours c (.stmt2 .assign dst (Expr.tuple k op [x, y] p))
      (.stmt2 op.toAssignOp dst y) := by
  refine .of_iff fun ρ h => performs_fold hsame ?_
  have hopN : op.toAssignOp.toOpN ≠ .badN := by
    cases op <;> first | exact absurd rfl hop | decide
  rw [performs_tuple]
  simp [hazard_opN hopN]

/-- `make_assign` on the rest of the source. -/
theorem honours_getD {c : Check} {dst y : Expr} {op : OpStmt2} {r : Option Stmt}
    (h : ∀ st, r = some st → Stmt.Honours c (.stmt2 op dst y) st) :
    Stmt.Honours c (.stmt2 op dst y) (r.getD (.stmt2 op dst y)) := by
  cases r with
  | none => exact .refl _
  | some st => exact h st rfl

theorem honours_simplifyAssignExpr (heq : equalOk o dst src)
    (hok : !deepEqual o.allowMaskPure dst src || sameHonours o op dst) {folded : Option Stmt}
    (hfolded : op = .assign → ∀ st, folded = some st →
      Stmt.Honours o.check (.stmt2 op dst src) st)
    {st : Stmt} (h : o.simplifyAssignExpr op dst src folded = some st) :
    Stmt.Honours o.check (.stmt2 op dst src) st := by
  unfold Optimizer.simplifyAssignExpr at h
  split at h
  · cases h
  · split at h
    · next hequal =>
      rw [hequal, Bool.not_true, Bool.false_or] at hok
      exact honours_simplifySameAssign (equalOk_same heq hequal) hok h
    · split at h
      · next hop => exact hfolded hop st h
      · cases h

theorem honours_tryOptimizeAssign {op : OpStmt2} {dst src : Expr} (hsrc : src.typed)
    (heq : assignOk o op dst src) (hok : assignHonours o op dst src) {st : Stmt}
    (h : o.tryOptimizeAssign op dst src = some st) :
    Stmt.Honours o.check (.stmt2 op dst src) st := by
  induction src using Expr.induct generalizing op st with
  | hconst v p =>
    rw [Optimizer.tryOptimizeAssign] at h
    split at h
    · exact honours_simplifyAssign hsrc h
    · cases h
  | hbinary k op2 x y p _ ihy =>
    rw [Optimizer.tryOptimizeAssign] at h
    rw [assignOk, Bool.and_eq_true] at heq
    rw [assignHonours, Bool.and_eq_true] at hok
    apply honours_simplifyAssignExpr heq.1 hok.1 _ h
    rintro rfl st hst
    split at hst
    · next hfires =>
      obtain rfl := Option.some.inj hst
      simp only [ne_eq, Bool.and_eq_true, decide_eq_true_eq] at hfires
      obtain ⟨hop2, hequal⟩ := hfires
      have heqs : equalOk o dst x ∧ assignOk o op2.toAssignOp dst y := by
        simpa [hop2, hequal] using heq.2
      have hrest : assignHonours o op2.toAssignOp dst y := by
        simpa [hop2, hequal] using hok.2
      rw [typed, Bool.and_eq_true, Bool.and_eq_true] at hsrc
      apply (honours_foldBinary hop2 (equalOk_same heqs.1 hequal)).trans
      exact honours_getD fun st hst => ihy hsrc.1.2 heqs.2 hrest hst
    · cases hst
  | htuple k opN args p ih =>
    obtain _ | ⟨x, _ | ⟨y, _ | ⟨z, rest⟩⟩⟩ := args
    case cons.cons.nil =>
      rw [Optimizer.tryOptimizeAssign] at h
      rw [assignOk, Bool.and_eq_true] at heq
      rw [assignHonours, Bool.and_eq_true] at hok
      apply honours_simplifyAssignExpr heq.1 hok.1 _ h
      rintro rfl st hst
      split at hst
      · next hfires =>
        obtain rfl := Option.some.inj hst
        simp only [ne_eq, Bool.and_eq_true, decide_eq_true_eq] at hfires
        obtain ⟨hopN, hequal⟩ := hfires
        have heqs : equalOk o dst x ∧ assignOk o opN.toAssignOp dst y := by
          simpa [hopN, hequal] using heq.2
        have hrest : assignHonours o opN.toAssignOp dst y := by
          simpa [hopN, hequal] using hok.2
        rw [typed, Bool.and_eq_true, typedList_iff] at hsrc
        have hy : y.typed := hsrc.1 y (by simp)
        apply (honours_foldTuple hopN (equalOk_same heqs.1 hequal)).trans
        exact honours_getD fun st hst => ih y (by simp) hy heqs.2 hrest hst
      · cases hst
    all_goals
      exact honours_simplifyAssignExpr heq hok (fun _ st hst => by cases hst) h
  | _ => exact honours_simplifyAssignExpr heq hok (fun _ st hst => by cases hst) h

end Rules

/-! ## Runs -/

namespace Optimizer

/-- `configure`. -/
def configure (o : Optimizer) (check : Check) : Optimizer := { o with check := check }

/-- An assignment with new operands, or itself if they are its own. -/
def rebuildAssign (op : OpStmt2) (dst src dst' src' : Expr) : Stmt :=
  if sameNode dst dst' && sameNode src src' then .stmt2 op dst src else .stmt2 op dst' src'

/-- `optimize(Node)` on an assignment: the operands first. -/
def optimizeAssign (o : Optimizer) (fuel : Nat) (op : OpStmt2) (dst src : Expr) : Option Stmt := do
  let dst' ← o.optimize fuel dst
  let src' ← o.optimize fuel src
  some ((o.tryOptimizeAssign op dst'.toExpr src'.toExpr).getD
    (rebuildAssign op dst src dst' src'))

/-- The fuel that the operands of an assignment need. -/
def assignFuel (dst src : Expr) : Nat := optimizeFuel dst + optimizeFuel src

/-- The conditions of the steps of a run on an expression. -/
def runHonours (o : Optimizer) (e : Expr) : Bool :=
  (o.steps (optimizeFuel e) e).all fun s => s.ok o && s.honours o

/-- The conditions of the steps of a run on an assignment: those on the operands, and the rules
for the assignment of the optimized operands. -/
def runHonoursAssign (o : Optimizer) (op : OpStmt2) (dst src : Expr) : Bool :=
  o.runHonours dst && o.runHonours src &&
    (o.optimize (optimizeFuel dst) dst).toList.all fun dst' =>
      (o.optimize (optimizeFuel src) src).toList.all fun src' =>
        assignOk o op dst' src' && assignHonours o op dst' src'

theorem optimize_honours_expr (o : Optimizer) {e : Expr} (ht : e.typed) (hok : o.runHonours e) :
    ∃ e', o.Returns e e' ∧ Refines e e' ∧ Expr.Honours o.check e e' := by
  rw [runHonours, List.all_eq_true] at hok
  obtain ⟨e', he', -⟩ := (o.optimize_refines (optimizeFuel e)).1 e ht
    fun s hs => (Bool.and_eq_true_iff.mp (hok s hs)).1
  exact ⟨e', returns_iff.mpr he', (o.optimize_honours (optimizeFuel e)).1 e e' ht hok he'⟩

/-- The optimizer leaves a variable, and a memory operand is still one of its kind. -/
theorem optimize_place {o : Optimizer} {dst dst' : Expr} (hdst : dst.IsPlace)
    (h : o.Returns dst dst') : dst'.toExpr = dst' := by
  have hrun := returns_iff.mp h
  cases dst with
  | var k id =>
    rw [optimizeFuel, size, optimize] at hrun
    obtain rfl := Option.some.inj hrun
    rfl
  | mem k args p =>
    have hfuel : optimizeFuel (mem k args p) = 2 * sizeList args + 1 + 1 := by
      rw [optimizeFuel, size]
      omega
    rw [hfuel, optimize] at hrun
    obtain ⟨children, -, hrun⟩ := Option.bind_eq_some_iff.mp hrun
    rw [← Option.some.inj hrun]
    split <;> rfl
  | _ =>
    have hplace := hdst.place
    simp [type] at hplace

theorem optimize_honours_assign (o : Optimizer) {op : OpStmt2} {dst src : Expr}
    (hdst : dst.IsPlace) (hsrc : src.typed) (htakes : op.takes dst.kind src.valueKind)
    (hok : o.runHonoursAssign op dst src) :
    ∃ st', (∀ fuel, assignFuel dst src ≤ fuel → o.optimizeAssign fuel op dst src = some st') ∧
      Stmt.Honours o.check (.stmt2 op dst src) st' := by
  rw [runHonoursAssign, Bool.and_eq_true, Bool.and_eq_true] at hok
  obtain ⟨⟨hokd, hoks⟩, hok⟩ := hok
  obtain ⟨dst', hd, hrd, hhd⟩ := o.optimize_honours_expr hdst.typed hokd
  obtain ⟨src', hs, hrs, hhs⟩ := o.optimize_honours_expr hsrc hoks
  rw [returns_iff.mp hd, returns_iff.mp hs] at hok
  simp only [Option.toList_some, List.all_cons, List.all_nil, Bool.and_true, Bool.and_eq_true] at hok
  have hscalar : src.valueKind.isScalar := by
    cases op with
    | shlAssign | shrAssign => exact htakes
    | _ =>
      rw [eq_of_beq htakes]
      exact hdst.scalar
  have hse : src'.toExpr = src' := (valid_of_scalar hrs.typed (hrs.kind ▸ hscalar)).1
  have hcongr : Stmt.Honours o.check (.stmt2 op dst src) (.stmt2 op dst' src') :=
    .stmt2_congr hhd hhs hrs hsrc
  refine ⟨(o.tryOptimizeAssign op dst'.toExpr src'.toExpr).getD
    (rebuildAssign op dst src dst' src'), ?_, ?_⟩
  · intro fuel hfuel
    have hfd : optimizeFuel dst ≤ fuel := Nat.le_trans (Nat.le_add_right _ _) hfuel
    have hfs : optimizeFuel src ≤ fuel := Nat.le_trans (Nat.le_add_left _ _) hfuel
    rw [optimizeAssign, hd fuel hfd, hs fuel hfs]
    rfl
  · rw [optimize_place hdst hd, hse]
    cases hret : o.tryOptimizeAssign op dst' src' with
    | none =>
      rw [Option.getD_none, rebuildAssign]
      split
      · exact .refl _
      · exact hcongr
    | some st =>
      rw [Option.getD_some]
      exact hcongr.trans (honours_tryOptimizeAssign hrs.typed hok.1 hok.2 hret)

/-- The optimizer honours the checks it is configured with: what it returns for an expression or an
assignment performs every checked division by zero and access that the original does, and no other
one where that is defined, if every step of the run meets its conditions. -/
theorem optimize_honours_checks (o : Optimizer) :
    (∀ e : Expr, e.typed → o.runHonours e →
      ∃ e', o.Returns e e' ∧ Expr.Honours o.check e e') ∧
    ∀ (op : OpStmt2) (dst src : Expr), dst.IsPlace → src.typed → op.takes dst.kind src.valueKind →
      o.runHonoursAssign op dst src →
      ∃ st', (∀ fuel, assignFuel dst src ≤ fuel → o.optimizeAssign fuel op dst src = some st') ∧
        Stmt.Honours o.check (.stmt2 op dst src) st' := by
  constructor
  · intro e ht hok
    obtain ⟨e', he', -, hhonours⟩ := o.optimize_honours_expr ht hok
    exact ⟨e', he', hhonours⟩
  · intro op dst src hdst hsrc htakes hok
    exact o.optimize_honours_assign hdst hsrc htakes hok

/-- The optimizer with all rules and all checks. -/
def checking : Optimizer := (Optimizer.ofFlags .all).configure ⟨true, true⟩

/-- `*p / (x + 0)`, and `x = x / y`. -/
theorem checking_honours :
    (∃ e', checking.Returns (binary .int32 .quo (mem .int32 [var .ptr 0x1000] (.at 0))
          (tuple .int32 .add [var .int32 0x1001, const ⟨0, .int32⟩ .direct] (.at 4)) (.at 8)) e' ∧
      Expr.Honours checking.check (binary .int32 .quo (mem .int32 [var .ptr 0x1000] (.at 0))
          (tuple .int32 .add [var .int32 0x1001, const ⟨0, .int32⟩ .direct] (.at 4)) (.at 8)) e') ∧
    ∃ st', (∀ fuel, assignFuel (var .int32 0x1000)
          (binary .int32 .quo (var .int32 0x1000) (var .int32 0x1001) (.at 0)) ≤ fuel →
        checking.optimizeAssign fuel .assign (var .int32 0x1000)
          (binary .int32 .quo (var .int32 0x1000) (var .int32 0x1001) (.at 0)) = some st') ∧
      Stmt.Honours checking.check (.stmt2 .assign (var .int32 0x1000)
        (binary .int32 .quo (var .int32 0x1000) (var .int32 0x1001) (.at 0))) st' :=
  ⟨(optimize_honours_checks checking).1 _ rfl (by decide),
    (optimize_honours_checks checking).2 .assign _ _ ⟨rfl, .inl rfl, rfl⟩ rfl rfl (by decide)⟩

/-- `x / x` becomes `1`, whatever the checks. -/
theorem checking_drops_division :
    ¬∀ (o : Optimizer) (e e' : Expr), e.typed → o.Returns e e' → Expr.Honours o.check e e' := by
  intro h
  have hrun : checking.Returns
      (binary .int32 .quo (var .int32 0x1000) (var .int32 0x1000) (.at 0))
      (const ⟨1, .int32⟩ .direct) := by
    rw [returns_iff]
    rfl
  have hkeeps := (h checking _ _ rfl hrun).keeps ⟨fun _ _ => 0, fun _ => 0, fun _ => 0, fun _ _ => 0⟩
    .division rfl
  refine performs_const _ _ (hkeeps ?_)
  rw [performs]
  exact .inr (.inr ⟨0, rfl, rfl⟩)

end Optimizer

end OneJit
