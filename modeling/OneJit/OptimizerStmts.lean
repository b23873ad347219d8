import OneJit.Lib.Defined
import OneJit.OptimizerRuns

/-!
# Running optimized statements

An optimized body does what the body does where that is defined, in as many turns of its loops. Each
expression of the body has to be optimized right, and each assignment that is rewritten has to
compare trees that are the same.
-/

namespace OneJit

open FlatCode Expr

/-- The state with the variables and the memory of a valuation. -/
def State.after (s : State) (σ : Valuation) : State := ⟨σ.var, ⟨σ.mem, s.heap.calls⟩⟩

theorem State.after_agree (s : State) {σ σ' : Valuation} (h : σ.Agree σ') :
    (s.after σ).Agree (s.after σ') :=
  ⟨h.var, by rw [State.after, State.after, h.mem]⟩

/-! ## Assignments without calls -/

namespace Stmt

variable {w : Host} {turns : Nat}

/-- A place without calls denotes a location, which is the one that is stored to, or none. -/
theorem locate_store {dst : Expr} (hdst : dst.hasCall = false) (s : State) :
    (dst.locate w s.vars s.heap = Option.none ∧
      ∀ v, (w.valuation s.vars s.heap).store dst v = Option.none) ∨
    ∃ loc, dst.locate w s.vars s.heap = some (loc, s.heap) ∧ loc.kind = dst.kind ∧
      eval (w.valuation s.vars s.heap) dst = some (loc.read s) ∧
      ∀ v, ((w.valuation s.vars s.heap).store dst v).map s.after = some (loc.write s v) := by
  cases dst with
  | var k id => exact .inr ⟨.var k id, rfl, rfl, rfl, fun v => rfl⟩
  | mem k args p =>
    have hargs := runList_eq_eval (w := w) (ρ := s.vars) (hasCallList_eq_false.mp hdst) s.heap
    cases hvs : evalList (w.valuation s.vars s.heap) args with
    | none =>
      rw [hvs] at hargs
      refine .inl ⟨by rw [locate, hargs]; rfl, fun v => by rw [Valuation.store, hvs]; rfl⟩
    | some vs =>
      rw [hvs] at hargs
      refine .inr ⟨.mem k vs.sum, by rw [locate, hargs]; rfl, rfl, by rw [eval, hvs]; rfl,
        fun v => by rw [Valuation.store, hvs]; rfl⟩
  | _ => exact .inl ⟨rfl, fun v => rfl⟩

theorem assignEffect_exec {dst src : Expr} (hdst : dst.hasCall = false)
    (hsrc : src.hasCall = false) (op : OpStmt2) (s : State) :
    assignEffect w op dst src s =
      ((stmt2 op dst src).exec (w.valuation s.vars s.heap)).map s.after := by
  have hrun := run_eq_eval (w := w) (ρ := s.vars) src hsrc s.heap
  obtain ⟨hlocate, hstore⟩ | ⟨loc, hlocate, hkind, hread, hstore⟩ := locate_store (w := w) hdst s
  · have hnone : (stmt2 op dst src).exec (w.valuation s.vars s.heap) = Option.none := by
      refine Option.eq_none_iff_forall_ne_some.mpr fun σ hσ => ?_
      by_cases hop : op = .assign
      · subst hop
        obtain ⟨b, -, hσ⟩ := exec_assign.mp hσ
        rw [hstore] at hσ
        cases hσ
      · obtain ⟨a, b, v, -, -, -, hσ⟩ := (exec_compound hop).mp hσ
        rw [hstore] at hσ
        cases hσ
    rw [assignEffect, hlocate, hnone]
    rfl
  · rw [assignEffect, hlocate, Option.bind_eq_bind, Option.bind_some]
    dsimp only
    rw [hrun]
    by_cases hop : op = .assign
    · subst hop
      rw [exec]
      cases eval (w.valuation s.vars s.heap) src with
      | none => rfl
      | some b => exact (hstore b).symm
    · have hexec : (stmt2 op dst src).exec (w.valuation s.vars s.heap) = (do
          let b ← eval (w.valuation s.vars s.heap) src
          let v ← op.compute dst.kind (loc.read s) b
          Valuation.store (w.valuation s.vars s.heap) dst v) := by
        have hwhole : (stmt2 op dst src).exec (w.valuation s.vars s.heap) = (do
            let a ← eval (w.valuation s.vars s.heap) dst
            let b ← eval (w.valuation s.vars s.heap) src
            let v ← op.compute dst.kind a b
            Valuation.store (w.valuation s.vars s.heap) dst v) := by
          cases op <;> first | rfl | exact absurd rfl hop
        rw [hwhole, hread]
        rfl
      rw [hexec]
      cases eval (w.valuation s.vars s.heap) src with
      | none => rfl
      | some b =>
        simp only [Option.map_some, Option.bind_eq_bind, Option.bind_some, OpStmt2.stored,
          if_neg hop, hkind]
        cases op.compute dst.kind (loc.read s) b with
        | none => rfl
        | some v => exact (hstore v).symm

theorem stepEffect_store {dst : Expr} (hdst : dst.hasCall = false) (step : BitVec 64) (s : State) :
    stepEffect w step dst s = (do
      let a ← eval (w.valuation s.vars s.heap) dst
      Valuation.store (w.valuation s.vars s.heap) dst (dst.kind.wrap (a + step))).map s.after := by
  obtain ⟨hlocate, hstore⟩ | ⟨loc, hlocate, hkind, hread, hstore⟩ := locate_store (w := w) hdst s
  · rw [stepEffect, hlocate]
    cases eval (w.valuation s.vars s.heap) dst with
    | none => rfl
    | some a => exact congrArg (Option.map s.after) (hstore _).symm
  · rw [stepEffect, hlocate, hread, ← hkind]
    exact (hstore _).symm

/-- A statement without calls that `exec` is about. -/
def isSimple : Stmt → Bool
  | expr e => !e.hasCall
  | stmt1 op dst => (op == .inc || op == .dec) && !dst.hasCall
  | stmt2 op (expr dst) (expr src) =>
    op.isAssign && !dst.hasCall && dst.type != .ftype && !src.hasCall && src.type != .ftype
  | _ => false

theorem toExpr_of_type {e : Expr} (h : e.type ≠ .ftype) : e.toExpr = e := by
  cases e <;> first | rfl | exact absurd rfl h

/-- `exec` is what such a statement does. -/
theorem outcome_exec {st : Stmt} (h : st.isSimple) (s : State) :
    st.outcome w turns s = .ofOption ((st.exec (w.valuation s.vars s.heap)).map s.after) := by
  cases st with
  | expr e =>
    have he : e.hasCall = false := by simpa [isSimple] using h
    rw [outcome, exec]
    dsimp only
    rw [performAt, runAt, run_eq_eval e he]
    cases eval (w.valuation s.vars s.heap) e <;> rfl
  | stmt1 op dst =>
    rw [isSimple, Bool.and_eq_true, Bool.or_eq_true, beq_iff_eq, beq_iff_eq, Bool.not_eq_true'] at h
    obtain ⟨rfl | rfl, hdst⟩ := h
    · rw [outcome, exec]
      dsimp only
      rw [stepEffect_store hdst]
    · rw [outcome, exec]
      dsimp only
      rw [stepEffect_store hdst]
      simp only [BitVec.sub_eq_add_neg]
  | stmt2 op a b =>
    cases a with
    | expr dst =>
      cases b with
      | expr src =>
        simp only [isSimple, Bool.and_eq_true, Bool.not_eq_true', bne_iff_ne] at h
        obtain ⟨⟨⟨⟨hop, hdst⟩, hdstType⟩, hsrc⟩, hsrcType⟩ := h
        rw [outcome]
        dsimp only
        rw [if_pos hop, toExpr, toExpr, toExpr_of_type hdstType, toExpr_of_type hsrcType,
          assignEffect_exec hdst hsrc]
      | _ => cases h
    | _ => cases h
  | _ => cases h

end Stmt

/-! ## Assignments that are rewritten -/

section Rewrite

variable {o : Optimizer} {op : OpStmt2} {dst src : Expr} {st : Stmt}

/-- The rules for an assignment leave simple statements with the same effect. -/
def Rewrites (st st' : Stmt) : Prop := st'.isSimple ∧ SameEffect st st'

theorem type_ofValue (v : Value) : (ofValue v).type ≠ .ftype := by
  rw [ofValue]
  split <;> exact fun h => by cases h

theorem type_one (k : Kind) : (one k).type ≠ .ftype := by
  rw [one]
  split
  · exact type_ofValue _
  · split
    · exact type_ofValue _
    · exact fun h => by cases h

theorem type_two (k : Kind) : (two k).type ≠ .ftype ∧ (two k).hasCall = false := by
  rw [two]
  split
  · exact ⟨type_ofValue _, hereditary_hasCall.ofValue _⟩
  · split
    · exact ⟨type_ofValue _, hereditary_hasCall.ofValue _⟩
    · exact ⟨fun h => (by cases h), rfl⟩

theorem isSimple_assign (hop : op.isAssign) (hdst : dst.hasCall = false) (hplace : dst.type ≠ .ftype)
    (hsrc : src.hasCall = false) (htype : src.type ≠ .ftype) :
    (Stmt.stmt2 op (.expr dst) (.expr src)).isSimple := by
  simp [Stmt.isSimple, hop, hdst, hplace, hsrc, htype]

section Rules

variable (hdst : dst.hasCall = false) (hplace : dst.type ≠ .ftype)

include hdst hplace

theorem simplifyAssign_simple {c : Value} (h : o.simplifyAssign op dst c = some st) :
    st.isSimple := by
  have hinc : (Stmt.stmt1 .inc dst).isSimple := by simp [Stmt.isSimple, hdst]
  have hdec : (Stmt.stmt1 .dec dst).isSimple := by simp [Stmt.isSimple, hdst]
  unfold Optimizer.simplifyAssign at h
  dsimp only at h
  repeat' split at h
  all_goals first | cases h; done | (obtain rfl := Option.some.inj h)
  · exact isSimple_assign rfl hdst hplace (hereditary_hasCall.ofValue _) (type_ofValue _)
  all_goals first | exact hinc | exact hdec | rfl

theorem simplifySameAssign_simple (h : Optimizer.simplifySameAssign op dst = some st) :
    st.isSimple := by
  unfold Optimizer.simplifySameAssign at h
  split at h <;> first | cases h; done | (obtain rfl := Option.some.inj h)
  · exact isSimple_assign rfl hdst hplace (type_two _).2 (type_two _).1
  all_goals first
    | rfl
    | exact isSimple_assign rfl hdst hplace rfl nofun
    | exact isSimple_assign rfl hdst hplace (hereditary_hasCall.one _) (type_one _)

end Rules

theorem IsPlace.type_ne (h : dst.IsPlace) : dst.type ≠ .ftype := by
  obtain hvar | hmem := h.place
  · rw [hvar]
    decide
  · rw [hmem]
    decide

/-- `(= dst (op dst y))`, with the rules for what remains. -/
theorem rewrites_folded {op' : OpStmt2} {y : Expr} {r : Option Stmt} (hdst : dst.IsPlace)
    (hcall : dst.hasCall = false) (hop : op'.isAssign) (hy : y.hasCall = false)
    (htype : y.type ≠ .ftype) (heffect : SameEffect (.stmt2 op dst src) (.stmt2 op' dst y))
    (hr : ∀ st, r = some st → Rewrites (.stmt2 op' dst y) st) :
    Rewrites (.stmt2 op dst src) (r.getD (.stmt2 op' dst y)) := by
  cases r with
  | none => exact ⟨isSimple_assign hop hcall (IsPlace.type_ne hdst) hy htype, heffect⟩
  | some st => exact ⟨(hr st rfl).1, heffect.trans (hr st rfl).2⟩

theorem simplifyAssignExpr_rewrites (hdst : dst.IsPlace) (hcall : dst.hasCall = false)
    (hok : equalOk o dst src) {folded : Option Stmt}
    (hfolded : op = .assign → ∀ st, folded = some st → Rewrites (.stmt2 op dst src) st)
    (h : o.simplifyAssignExpr op dst src folded = some st) : Rewrites (.stmt2 op dst src) st := by
  unfold Optimizer.simplifyAssignExpr at h
  split at h
  · cases h
  · split at h
    · next hequal =>
      exact ⟨simplifySameAssign_simple hcall (IsPlace.type_ne hdst) h,
        simplifySameAssign_preserves hdst (equalOk_same hok hequal) h⟩
    · split at h
      · next hop => exact hfolded hop st h
      · cases h

theorem toAssignOp2_isAssign {op : Op2} (h : op.toAssignOp ≠ .badSt2) : op.toAssignOp.isAssign := by
  cases op <;> first | rfl | exact absurd rfl h

theorem toAssignOpN_isAssign {op : OpN} (h : op.toAssignOp ≠ .badSt2) : op.toAssignOp.isAssign := by
  cases op <;> first | rfl | exact absurd rfl h

theorem type_of_scalar {e : Expr} (hk : e.valueKind.isScalar) : e.type ≠ .ftype := by
  cases e with
  | ftype => cases hk
  | _ => nofun

/-- The rules for an assignment without calls leave a simple statement with the same effect. -/
theorem tryOptimizeAssign_rewrites (hdst : dst.IsPlace) (hcall : dst.hasCall = false)
    (hsrc : src.typed) (hfree : src.hasCall = false) (htakes : op.takes dst.kind src.valueKind)
    (hok : assignOk o op dst src) (h : o.tryOptimizeAssign op dst src = some st) :
    Rewrites (.stmt2 op dst src) st := by
  induction src using Expr.induct generalizing op st with
  | hconst c p =>
    rw [Optimizer.tryOptimizeAssign] at h
    split at h
    · exact ⟨simplifyAssign_simple hcall (IsPlace.type_ne hdst) h,
        simplifyAssign_preserves hdst hsrc htakes h⟩
    · cases h
  | hbinary k op2 x y p _ ihy =>
    rw [Optimizer.tryOptimizeAssign] at h
    rw [assignOk, Bool.and_eq_true] at hok
    refine simplifyAssignExpr_rewrites hdst hcall hok.1 ?_ h
    rintro rfl st hst
    split at hst
    · next hfires =>
      obtain rfl := Option.some.inj hst
      simp only [ne_eq, Bool.and_eq_true, decide_eq_true_eq] at hfires
      obtain ⟨hop, hequal⟩ := hfires
      have hrest : equalOk o dst x ∧ assignOk o op2.toAssignOp dst y := by
        simpa [hop, hequal] using hok.2
      rw [typed, Bool.and_eq_true, Bool.and_eq_true] at hsrc
      rw [hasCall, Bool.or_eq_false_iff] at hfree
      obtain rfl : k = dst.kind := by simpa [OpStmt2.takes, valueKind, kind] using htakes
      exact rewrites_folded hdst hcall (toAssignOp2_isAssign hop) hfree.2
        (type_of_scalar (typed2_scalar hsrc.2).2.2)
        (sameEffect_foldBinary hdst hop (equalOk_same hrest.1 hequal))
        fun st hst => ihy hsrc.1.2 hfree.2 (takes_fold2 hop hsrc.2) hrest.2 hst
    · cases hst
  | htuple k opN args p ih =>
    obtain _ | ⟨x, _ | ⟨y, _ | ⟨z, rest⟩⟩⟩ := args
    case cons.cons.nil =>
      rw [Optimizer.tryOptimizeAssign] at h
      rw [assignOk, Bool.and_eq_true] at hok
      refine simplifyAssignExpr_rewrites hdst hcall hok.1 ?_ h
      rintro rfl st hst
      split at hst
      · next hfires =>
        obtain rfl := Option.some.inj hst
        simp only [ne_eq, Bool.and_eq_true, decide_eq_true_eq] at hfires
        obtain ⟨hop, hequal⟩ := hfires
        have hrest : equalOk o dst x ∧ assignOk o opN.toAssignOp dst y := by
          simpa [hop, hequal] using hok.2
        obtain ⟨hcomm, hself⟩ := takes_foldN hop dst.kind
        obtain rfl : k = dst.kind := by
          rw [valueKind_tuple (commutative_ne_comma hcomm)] at htakes
          simpa [OpStmt2.takes] using htakes
        obtain ⟨hscalar, hxs⟩ := (typed_commutative hcomm).mp hsrc
        obtain ⟨hy, hyk⟩ := hxs y (by simp)
        rw [hasCall, Bool.or_eq_false_iff] at hfree
        have hyfree := hasCallList_eq_false.mp hfree.2 y (by simp)
        exact rewrites_folded hdst hcall (toAssignOpN_isAssign hop) hyfree
          (type_of_scalar (hyk ▸ hscalar))
          (sameEffect_foldTuple hsrc rfl hop (equalOk_same hrest.1 hequal))
          fun st hst => ih y (by simp) hy hyfree (hyk ▸ hself) hrest.2 hst
      · cases hst
    all_goals
      exact simplifyAssignExpr_rewrites hdst hcall hok (fun _ st hst => by cases hst) h
  | _ => exact simplifyAssignExpr_rewrites hdst hcall hok (fun _ st hst => by cases hst) h

end Rewrite

/-! ## Statements that are optimized right -/

namespace Stmt

/-- An assignment of optimized operands is left as it is, or rewritten right. -/
def rewritesRight (o : Optimizer) (op : OpStmt2) (dst src : Expr) : Bool :=
  (o.tryOptimizeAssign op dst src).isNone ||
    (dst.typed && (dst.type == .var || dst.type == .mem) && dst.kind.isInteger && !dst.hasCall &&
      src.typed && !src.hasCall && op.takes dst.kind src.valueKind && assignOk o op dst src)

/-- The operands of an assignment, optimized. -/
def assignRight (o : Optimizer) (op : OpStmt2) (a b : Stmt) : Bool :=
  match o.optimizeStmt a, o.optimizeStmt b with
  | some (expr dst), some (expr src) => rewritesRight o op dst.toExpr src.toExpr
  | _, _ => true

/-- A case of a `Switch`. -/
def isCase : Stmt → Bool
  | stmt2 op _ _ => !op.isAssign
  | _ => false

mutual

/-- Every expression of the statement and every assignment is optimized right. -/
def optimizesRight (o : Optimizer) : Stmt → Bool
  | expr e => e.optimizesRight o
  | stmt0 _ => true
  | stmt1 _ arg => arg.optimizesRight o
  | stmt2 op a b => optimizesRight o a && optimizesRight o b && (!op.isAssign || assignRight o op a b)
  | stmt3 _ a b c => optimizesRight o a && optimizesRight o b && optimizesRight o c
  | stmt4 _ a b c d =>
    optimizesRight o a && optimizesRight o b && optimizesRight o c && optimizesRight o d
  | stmtN op args => allOptimizeRight o args && (op != .switch || args.tail.all isCase)

def allOptimizeRight (o : Optimizer) : List Stmt → Bool
  | [] => true
  | st :: sts => optimizesRight o st && allOptimizeRight o sts

end

variable {w : Host} {turns : Nat} {o : Optimizer}

theorem rewritesRight_runs {op : OpStmt2} {dst src : Expr} (hright : rewritesRight o op dst src)
    {st : Stmt} (h : o.tryOptimizeAssign op dst src = some st) {s t : State}
    (heffect : assignEffect w op dst src s = some t) :
    ∃ t', st.outcome w turns s = .ends .normal t' ∧ t.Agree t' := by
  rw [rewritesRight, h, Option.isNone_some, Bool.false_or] at hright
  simp only [Bool.and_eq_true, Bool.or_eq_true, beq_iff_eq, Bool.not_eq_true'] at hright
  obtain ⟨⟨⟨⟨⟨⟨⟨ht, hplace⟩, hinteger⟩, hcall⟩, hsrc⟩, hfree⟩, htakes⟩, hok⟩ := hright
  obtain ⟨hsimple, hsame⟩ := tryOptimizeAssign_rewrites ⟨ht, hplace, hinteger⟩ hcall hsrc hfree htakes
    hok h
  rw [assignEffect_exec hcall hfree] at heffect
  obtain ⟨σ, hσ, rfl⟩ := Option.map_eq_some_iff.mp heffect
  obtain ⟨σ', hσ', hagree⟩ := hsame _ _ hσ
  refine ⟨s.after σ', ?_, s.after_agree hagree.symm⟩
  rw [outcome_exec hsimple, hσ']
  rfl

/-- An assignment to the same location of the same value. -/
theorem assignEffect_runs {op : OpStmt2} {dst dst' src src' : Expr} (hdst : dst.LocatesAs dst')
    (hsrc : src.RunsAs src') {s s' t : State} (hs : s.Agree s')
    (h : assignEffect w op dst src s = some t) :
    ∃ t', assignEffect w op dst' src' s' = some t' ∧ t.Agree t' := by
  rw [assignEffect] at h ⊢
  obtain ⟨⟨loc, h₁⟩, hloc, h⟩ := Option.bind_eq_some_iff.mp h
  obtain ⟨⟨b, h₂⟩, hb, h⟩ := Option.bind_eq_some_iff.mp h
  obtain ⟨v, hv, h⟩ := Option.bind_eq_some_iff.mp h
  obtain rfl := Option.some.inj h
  rw [locate_wrap hs.vars, hs.heap] at hloc
  rw [run_wrap hs.vars] at hb
  rw [hdst w _ _ _ hloc, Option.bind_eq_bind, Option.bind_some]
  dsimp only
  rw [hsrc w _ _ _ hb, Option.bind_eq_bind, Option.bind_some]
  dsimp only
  rw [← (hs.withHeap h₂).read loc, hv]
  exact ⟨_, rfl, (hs.withHeap h₂).write v loc⟩

theorem stepEffect_runs {dst dst' : Expr} (hdst : dst.LocatesAs dst') {s s' t : State}
    (hs : s.Agree s') (step : BitVec 64) (h : stepEffect w step dst s = some t) :
    ∃ t', stepEffect w step dst' s' = some t' ∧ t.Agree t' := by
  rw [stepEffect] at h ⊢
  obtain ⟨⟨loc, h₁⟩, hloc, h⟩ := Option.bind_eq_some_iff.mp h
  obtain rfl := Option.some.inj h
  rw [locate_wrap hs.vars, hs.heap] at hloc
  rw [hdst w _ _ _ hloc, Option.bind_eq_bind, Option.bind_some]
  dsimp only
  rw [← (hs.withHeap h₁).read loc]
  exact ⟨_, rfl, (hs.withHeap h₁).write _ loc⟩

/-! ## Statements -/

/-- A statement does what another one does where that is defined. -/
def Follows (w : Host) (turns : Nat) (st st' : Stmt) : Prop :=
  ∀ s s' : State, s.Agree s' →
    Result.Refines State.Agree (st.outcome w turns s) (st'.outcome w turns s')

/-- What is kept of a statement: what it does, its value where an expression stands, and, of a case,
the value and the body. -/
structure Kept (w : Host) (turns : Nat) (st st' : Stmt) : Prop where
  follows : Follows w turns st st'
  runsAs : st.toExpr.RunsAs st'.toExpr
  ofCase : ∀ op e body, st = .stmt2 op e body → op.isAssign = false →
    ∃ e' body', st' = .stmt2 op e' body' ∧ e.toExpr.RunsAs e'.toExpr ∧ Follows w turns body body'

theorem refines_ofOption {r r' : Option State}
    (h : ∀ t, r = some t → ∃ t', r' = some t' ∧ t.Agree t') :
    Result.Refines State.Agree (.ofOption r : StmtResult) (.ofOption r') := by
  cases r with
  | none => exact .trap _
  | some t =>
    obtain ⟨t', rfl, ht⟩ := h t rfl
    exact .ends ht

theorem testAt_refines {e e' : Expr} (h : e.RunsAs e') {s s' : State} (hs : s.Agree s') :
    Result.TestRefines State.Agree (e.testAt w s) (e'.testAt w s') := by
  intro b t ht
  obtain ⟨r, hr, heq⟩ := Option.map_eq_some_iff.mp ht
  cases heq
  rw [testAt, h.runAt hs hr]
  exact ⟨_, rfl, hs.withHeap r.2⟩

theorem equalsAt_refines {e e' : Expr} (h : e.RunsAs e') (v : BitVec 64) {s s' : State}
    (hs : s.Agree s') : Result.TestRefines State.Agree (e.equalsAt w v s) (e'.equalsAt w v s') := by
  intro b t ht
  obtain ⟨r, hr, heq⟩ := Option.map_eq_some_iff.mp ht
  cases heq
  rw [equalsAt, h.runAt hs hr]
  exact ⟨_, rfl, hs.withHeap r.2⟩

theorem expr_follows {e e' : Expr} (h : e.RunsAs e') :
    Follows w turns (.expr e) (.expr e') := by
  intro s s' hs
  rw [outcome, outcome]
  refine refines_ofOption fun t ht => ?_
  obtain ⟨r, hr, rfl⟩ := Option.map_eq_some_iff.mp ht
  rw [performAt, h.runAt hs hr]
  exact ⟨_, rfl, hs.withHeap r.2⟩

section Lists

variable {sts sts' : List Stmt} (hall : List.Forall₂ (Kept w turns) sts sts')

include hall

theorem block_follows {s s' : State} (hs : s.Agree s') :
    Result.Refines State.Agree (outcomeBlock w turns sts s) (outcomeBlock w turns sts' s') := by
  induction hall generalizing s s' with
  | nil =>
    rw [outcomeBlock]
    exact .ends hs
  | cons hst _ ih =>
    rw [outcomeBlock, outcomeBlock]
    exact (hst.follows s s' hs).andThen fun t t' => ih

theorem runList_follows {s s' : State} (hs : s.Agree s') {r : List (BitVec 64) × Heap}
    (hr : runList w s.vars (sts.map toExpr) s.heap = some r) :
    runList w s'.vars (sts'.map toExpr) s'.heap = some r := by
  rw [runList_wrap hs.vars, hs.heap] at hr
  refine RunsAs.list ?_ hr
  rw [List.forall₂_map_left_iff, List.forall₂_map_right_iff]
  exact hall.imp fun st st' h => h.runsAs

theorem return_follows : Follows w turns (.stmtN .return sts) (.stmtN .return sts') := by
  intro s s' hs
  rw [outcome, outcome]
  dsimp only
  cases hr : runList w s.vars (sts.map toExpr) s.heap with
  | none => exact .trap _
  | some r =>
    rw [runList_follows hall hs hr]
    exact .ends (hs.withHeap r.2)

end Lists

theorem cond_follows : ∀ {sts sts' : List Stmt}, List.Forall₂ (Kept w turns) sts sts' →
    ∀ {s s' : State}, s.Agree s' →
      Result.Refines State.Agree (outcomeCond w turns sts s) (outcomeCond w turns sts' s')
  | _, _, .nil, _, _, hs => by
    rw [outcomeCond]
    · exact .ends hs
    · nofun
  | _, _, .cons _ .nil, _, _, hs => by
    rw [outcomeCond, outcomeCond]
    · exact .ends hs
    all_goals nofun
  | _, _, .cons htest (.cons hbody hrest), _, _, hs => by
    rw [outcomeCond, outcomeCond]
    exact (testAt_refines htest.runsAs hs).branch hbody.follows fun _ _ => cond_follows hrest

section Cases

variable {cases cases' : List Stmt} (hall : List.Forall₂ (Kept w turns) cases cases')
  (hcases : ∀ st ∈ cases, st.isCase)

include hall hcases

theorem bodies_follow {s s' : State} (hs : s.Agree s') :
    Result.Refines State.Agree (outcomeBodies w turns cases s) (outcomeBodies w turns cases' s') := by
  induction hall generalizing s s' with
  | nil =>
    rw [outcomeBodies]
    · exact .ends hs
    · nofun
  | @cons st st' _ _ hst _ ih =>
    rw [List.forall_mem_cons] at hcases
    match st, hcases.1 with
    | .stmt2 op e body, hop =>
      obtain ⟨e', body', rfl, -, hbody⟩ := hst.ofCase op e body rfl (by simpa [isCase] using hop)
      rw [outcomeBodies, outcomeBodies]
      exact (hbody s s' hs).orFall fun t t' => ih hcases.2

theorem cases_follow (v : BitVec 64) {dflt dflt' : State → StmtResult}
    (hdflt : ∀ s s', s.Agree s' → Result.Refines State.Agree (dflt s) (dflt' s')) {s s' : State}
    (hs : s.Agree s') : Result.Refines State.Agree (outcomeCases w turns v dflt cases s)
      (outcomeCases w turns v dflt' cases' s') := by
  induction hall generalizing dflt dflt' s s' with
  | nil =>
    rw [outcomeCases, outcomeCases]
    · exact hdflt s s' hs
    all_goals nofun
  | @cons st st' rest rest' hst hrest ih =>
    rw [List.forall_mem_cons] at hcases
    match st, hcases.1 with
    | .stmt2 op e body, hop =>
      obtain ⟨e', body', rfl, he, hbody⟩ := hst.ofCase op e body rfl (by simpa [isCase] using hop)
      have hthen : ∀ t t', t.Agree t' → Result.Refines State.Agree
          ((body.outcome w turns t).orFall (outcomeBodies w turns rest))
          ((body'.outcome w turns t').orFall (outcomeBodies w turns rest')) := fun t t' ht =>
        (hbody t t' ht).orFall fun u u' => bodies_follow hrest hcases.2
      by_cases hdefault : op = .default
      · subst hdefault
        rw [outcomeCases, outcomeCases]
        exact ih hcases.2 hthen hs
      · rw [outcomeCases, outcomeCases]
        · exact (equalsAt_refines he v hs).branch hthen fun t t' => ih hcases.2 hdflt
        all_goals exact hdefault

end Cases

theorem switch_follows {sts sts' : List Stmt} (hall : List.Forall₂ (Kept w turns) sts sts')
    (hcases : ∀ st ∈ sts.tail, st.isCase) {s s' : State} (hs : s.Agree s') :
    Result.Refines State.Agree (outcomeSwitch w turns sts s) (outcomeSwitch w turns sts' s') := by
  cases hall with
  | nil =>
    rw [outcomeSwitch]
    exact .ends hs
  | @cons e e' _ _ he hrest =>
    rw [outcomeSwitch, outcomeSwitch]
    dsimp only
    cases hr : e.toExpr.runAt w s with
    | none => exact .trap _
    | some r =>
      rw [he.runsAs.runAt hs hr]
      exact cases_follow hrest hcases r.1 (fun _ _ => .ends) (hs.withHeap r.2)

/-! ## Every statement -/

theorem follows_of_trap {st : Stmt} (h : ∀ s, st.outcome w turns s = .trap) (st' : Stmt) :
    Follows w turns st st' := by
  intro s s' _
  rw [h]
  exact .trap _

theorem runsAs_none (e : Expr) : Expr.none.RunsAs e := fun _ _ _ _ h => nomatch h

theorem locate_toExpr (e : Expr) (ρ : Vars) (h : Heap) :
    e.toExpr.locate w ρ h = e.locate w ρ h := by
  cases e <;> rfl

theorem locatesAs_toExpr {e e' : Expr} (h : e.LocatesAs e') : e.toExpr.LocatesAs e'.toExpr := by
  intro w ρ hp r hr
  rw [locate_toExpr] at hr ⊢
  exact h w ρ hp r hr

/-- An assignment of two expressions. -/
theorem assign_follows {op : OpStmt2} (hop : op.isAssign) {dst dst' src src' : Expr}
    (hdst : dst.LocatesAs dst') (hsrc : src.toExpr.RunsAs src'.toExpr)
    (hright : rewritesRight o op dst'.toExpr src'.toExpr) :
    Follows w turns (.stmt2 op (.expr dst) (.expr src))
      ((o.tryOptimizeAssign op dst'.toExpr src'.toExpr).getD
        (Optimizer.rebuildAssign op dst src dst' src')) := by
  have hassign : ∀ (d e : Expr) (s : State), (stmt2 op (expr d) (expr e)).outcome w turns s =
      .ofOption (assignEffect w op d.toExpr e.toExpr s) := by
    intro d e s
    rw [outcome]
    exact if_pos hop
  intro s s' hs
  rw [hassign]
  cases heffect : assignEffect w op dst.toExpr src.toExpr s with
  | none => exact .trap _
  | some t =>
    obtain ⟨t', heffect', ht⟩ := assignEffect_runs (locatesAs_toExpr hdst) hsrc hs heffect
    cases htry : o.tryOptimizeAssign op dst'.toExpr src'.toExpr with
    | none =>
      rw [Option.getD_none, Optimizer.rebuildAssign]
      split
      · obtain ⟨t'', hsame, ht''⟩ :=
          assignEffect_runs (fun _ _ _ _ h => h) (.refl src.toExpr) hs heffect
        rw [hassign, hsame]
        exact .ends ht''
      · rw [hassign, heffect']
        exact .ends ht
    | some st =>
      obtain ⟨t'', hout, ht'⟩ : ∃ t'', st.outcome w turns s' = .ends .normal t'' ∧ State.Agree t' t'' :=
        rewritesRight_runs hright htry heffect'
      rw [Option.getD_some, hout]
      exact .ends (ht.trans ht')

theorem stmt2_kept {op : OpStmt2} {a b a' b' : Stmt} (hright : (stmt2 op a b).optimizesRight o)
    (ha : o.optimizeStmt a = some a') (hb : o.optimizeStmt b = some b') (hka : Kept w turns a a')
    (hkb : Kept w turns b b') :
    ∃ st', o.optimizeStmt (.stmt2 op a b) = some st' ∧ Kept w turns (.stmt2 op a b) st' := by
  rw [optimizesRight, Bool.and_eq_true, Bool.and_eq_true] at hright
  obtain ⟨⟨hrighta, -⟩, hassign⟩ := hright
  rw [Optimizer.optimizeStmt, ha, hb]
  refine ⟨_, rfl, ?_⟩
  by_cases hop : op.isAssign
  · rw [hop, Bool.not_true, Bool.false_or, assignRight, ha, hb] at hassign
    have hstuck : (∀ dst src, a = .expr dst → b ≠ .expr src) → ∀ st',
        Follows w turns (.stmt2 op a b) st' := by
      intro hne
      refine follows_of_trap fun s => ?_
      rw [outcome]
      dsimp only
      rw [if_pos hop]
      have hnone : assignEffect w op a.toExpr b.toExpr s = Option.none := by
        cases a with
        | expr dst =>
          cases b with
          | expr src => exact absurd rfl (hne dst src rfl)
          | _ =>
            rw [assignEffect]
            cases Expr.locate w s.vars (expr dst).toExpr s.heap <;> rfl
        | _ => rfl
      rw [hnone]
      rfl
    refine ⟨?_, runsAs_none _, fun op' e body heq hno => ?_⟩
    · split
      · next dst src dst' src' =>
        rw [if_pos hop]
        obtain ⟨dst'', hdst'', heq⟩ := Option.bind_eq_some_iff.mp ha
        cases heq
        exact assign_follows hop (optimize_locates hrighta hdst'') hkb.runsAs hassign
      · next hne =>
        refine hstuck (fun dst src hdst hsrc => ?_) _
        subst hdst hsrc
        obtain ⟨dst', -, heq⟩ := Option.bind_eq_some_iff.mp ha
        obtain ⟨src', -, heq'⟩ := Option.bind_eq_some_iff.mp hb
        cases heq
        cases heq'
        exact hne dst src dst' src' rfl rfl rfl rfl
    · cases heq
      rw [hop] at hno
      cases hno
  · have hkept : Kept w turns (.stmt2 op a b) (.stmt2 op a' b') := by
      refine ⟨follows_of_trap (fun s => ?_) _, runsAs_none _, fun op' e body heq _ => ?_⟩
      · rw [outcome]
        exact if_neg hop
      · cases heq
        exact ⟨a', b', rfl, hka.runsAs, hkb.follows⟩
    split
    · rwa [if_neg hop]
    · exact hkept

/-- A statement that is optimized right is optimized to one that does the same where it is
defined. -/
theorem optimizeStmt_kept {st : Stmt} (h : st.optimizesRight o) :
    ∃ st', o.optimizeStmt st = some st' ∧ Kept w turns st st' := by
  induction st using Stmt.induct with
  | hexpr e =>
    obtain ⟨e', he', hruns, hexpr⟩ := optimize_right h
    rw [Optimizer.optimizeStmt, he']
    exact ⟨_, rfl, expr_follows hruns, hexpr, by intros; contradiction⟩
  | hstmt0 op =>
    refine ⟨_, rfl, fun s s' hs => ?_, .refl _, by intros; contradiction⟩
    cases op <;> rw [outcome] <;> first | exact .ends hs | exact .trap _ | simp
  | hstmt1 op arg =>
    obtain ⟨arg', harg', -, -⟩ := optimize_right h
    have hlocates := optimize_locates h harg'
    rw [Optimizer.optimizeStmt, harg']
    refine ⟨_, rfl, ?_, runsAs_none _, by intros; contradiction⟩
    by_cases hinc : op = .inc
    · subst hinc
      intro s s' hs
      rw [outcome, outcome]
      exact refines_ofOption fun t => stepEffect_runs hlocates hs 1
    by_cases hdec : op = .dec
    · subst hdec
      intro s s' hs
      rw [outcome, outcome]
      exact refines_ofOption fun t => stepEffect_runs hlocates hs (-1)
    refine follows_of_trap (fun s => ?_) _
    cases op <;> first | rfl | exact absurd rfl hinc | exact absurd rfl hdec
  | hstmt2 op a b iha ihb =>
    have hparts := h
    rw [optimizesRight, Bool.and_eq_true, Bool.and_eq_true] at hparts
    obtain ⟨a', ha', hka⟩ := iha hparts.1.1
    obtain ⟨b', hb', hkb⟩ := ihb hparts.1.2
    exact stmt2_kept h ha' hb' hka hkb
  | hstmt3 op a b c iha ihb ihc =>
    rw [optimizesRight, Bool.and_eq_true, Bool.and_eq_true] at h
    obtain ⟨a', ha', hka⟩ := iha h.1.1
    obtain ⟨b', hb', hkb⟩ := ihb h.1.2
    obtain ⟨c', hc', hkc⟩ := ihc h.2
    rw [Optimizer.optimizeStmt, ha', hb', hc']
    refine ⟨_, rfl, ?_, runsAs_none _, by intros; contradiction⟩
    by_cases hif : op = .if_
    · subst hif
      intro s s' hs
      rw [outcome, outcome]
      exact (testAt_refines hka.runsAs hs).branch hkb.follows hkc.follows
    · refine follows_of_trap (fun s => ?_) _
      cases op <;> first | rfl | exact absurd rfl hif
  | hstmt4 op init test post body ihinit ihtest ihpost ihbody =>
    rw [optimizesRight, Bool.and_eq_true, Bool.and_eq_true, Bool.and_eq_true] at h
    obtain ⟨init', hinit', hkinit⟩ := ihinit h.1.1.1
    obtain ⟨test', htest', hktest⟩ := ihtest h.1.1.2
    obtain ⟨post', hpost', hkpost⟩ := ihpost h.1.2
    obtain ⟨body', hbody', hkbody⟩ := ihbody h.2
    rw [Optimizer.optimizeStmt, hinit', htest', hpost', hbody']
    refine ⟨_, rfl, ?_, runsAs_none _, by intros; contradiction⟩
    by_cases hfor : op = .for_
    · subst hfor
      intro s s' hs
      rw [outcome, outcome]
      refine (hkinit.follows s s' hs).andThen fun t t' => ?_
      exact .loop (fun u u' => testAt_refines hktest.runsAs)
        (fun u u' hu => (hkbody.follows u u' hu).andThen hkpost.follows) turns
    · refine follows_of_trap (fun s => ?_) _
      cases op <;> first | rfl | exact absurd rfl hfor
  | hstmtN op args ih =>
    rw [optimizesRight, Bool.and_eq_true] at h
    have hlist : ∃ args', o.optimizeStmts args = some args' ∧
        List.Forall₂ (Kept w turns) args args' := by
      obtain ⟨hall, -⟩ := h
      induction args with
      | nil => exact ⟨[], rfl, .nil⟩
      | cons st sts ihs =>
        rw [allOptimizeRight, Bool.and_eq_true] at hall
        rw [List.forall_mem_cons] at ih
        obtain ⟨st', hst', hkept⟩ := ih.1 hall.1
        obtain ⟨sts', hsts', hrest⟩ := ihs ih.2 hall.2
        rw [Optimizer.optimizeStmts, hst', hsts']
        exact ⟨_, rfl, .cons hkept hrest⟩
    obtain ⟨args', hargs', hall⟩ := hlist
    rw [Optimizer.optimizeStmt, hargs']
    refine ⟨_, rfl, ?_, runsAs_none _, by intros; contradiction⟩
    cases op with
    | block =>
      intro s s' hs
      rw [outcome, outcome]
      exact block_follows hall hs
    | cond =>
      intro s s' hs
      rw [outcome, outcome]
      exact cond_follows hall hs
    | «return» => exact return_follows hall
    | switch =>
      intro s s' hs
      rw [outcome, outcome]
      exact switch_follows hall (by simpa using h.2) hs
    | _ => exact follows_of_trap (fun s => rfl) _

end Stmt

end OneJit
