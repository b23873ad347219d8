import OneJit.StmtSteps

/-!
# Compiled code does what the statements do

By induction over a statement: wherever its code stands in a program whose labels are unique, the
run of the code follows the statement. A branch jumps over the statement that is not taken, a loop
jumps back to its test, and a `Switch` jumps from test to test and from body to body.
-/

namespace OneJit

open FlatCode Stmt

namespace Compiler

open Expr CompileM

variable {w : Host} {prog : List Stmt} {turns n : Nat} {results : List Expr}

theorem marks_label (i : BitVec 16) (address : BitVec 64) :
    (machine w).Marks (.expr (.label i address)) i := ⟨rfl, fun _ => rfl⟩

theorem jumps_goto (i : BitVec 16) (address : BitVec 64) :
    (machine w).Jumps (.goto (.label i address)) i := fun _ => rfl

/-! ## Tests -/

theorem compileJumpIf_grows (target e : Expr) :
    Respects Grows (compileJumpIf target (compileExpr e)) :=
  grows_basic.compileJumpIf _ (grows_basic.compileExpr _)

theorem compileJumpIf_steady (target e : Expr) :
    Respects (fun c _ c' => Steady c c') (compileJumpIf target (compileExpr e)) :=
  steady_basic.compileJumpIf _ (steady_basic.compileExpr _)

/-- The jump on a compiled test stands behind what is emitted for the test. -/
theorem jumpIf_succeeds {target : Expr} {comp : CompileM Compiled} {c : Compiler}
    {Φ : Compiled → List Stmt → Compiler → Prop} {Ψ : List Stmt → Compiler → Prop}
    (h : Succeeds comp c Φ)
    (hjump : ∀ r o c', Φ r o c' → Ψ (o ++ jumpNodes target r.1) c') :
    Succeeds (compileJumpIf target comp) c fun _ o c' => Ψ o c' := by
  rw [compileJumpIf_eq]
  exact h.bind (fun _ c => ⟨Nat.le_refl _, Nat.le_refl _⟩) fun r o c' hr _ _ => hjump r o c' hr

theorem isTest_iff {negate : Bool} {e : Expr} :
    e.isTest n negate ↔ e.usable n ∧ (outline e).jumpsRight negate := by
  rw [isTest, Bool.and_eq_true]

/-- The jump on a test. -/
theorem test_succeeds (hunique : (machine w).Unique prog) {e : Expr} (he : e.isTest n false)
    {c : Compiler} (hc : n ≤ bound c) (i : BitVec 16) :
    Succeeds (compileJumpIf (.label i 0) (compileExpr e)) c fun _ o _ =>
      (machine w).Tests prog (observer w n) o i (e.testAt w) := by
  obtain ⟨husable, hright⟩ := isTest_iff.mp he
  obtain ⟨hbelow, hsucceeds⟩ := compileExpr_succeeds (w := w) husable hc
  refine jumpIf_succeeds hsucceeds fun r o c' ⟨_, hreturn, hr⟩ => ?_
  have hvalue : ∀ t, r.1.runAt w t = (r.1.runAt w t).map fun v => (id v.1, v.2) := by simp
  exact jump_decides hunique hr hreturn hvalue (hr.describes.jumpsRight false hright) hbelow hc i 0

/-- The negation of a lowered test. -/
theorem runAt_not (r : Expr) (t : State) : (newUnary .not1 r).runAt w t =
    (r.runAt w t).map fun v => (if v.1 = 0 then 1 else 0, v.2) := by
  rw [newUnary, runAt_unary]
  cases r.runAt w t <;> rfl

/-- The jump on the negation of a test. -/
theorem not_decides (hunique : (machine w).Unique prog) {e : Expr} {m : Nat} {r : Compiled}
    {o : List Stmt} {c' : Compiler} (hr : LoweredTo w m e r o c')
    (hright : (outline e).jumpsRight true) (hreturn : ∀ st ∈ o, st.isReturn = false)
    (hbelow : e.varsBelow n) (hle : n ≤ m) (i : BitVec 16) :
    (machine w).Tests prog (observer w n)
      (o ++ jumpNodes (.label i 0) (newUnary .not1 r.1)) i
      fun s => (e.testAt w s).map fun q => (!q.1, q.2) := by
  have hdecides := jump_decides hunique hr hreturn
    (f := fun v => if v = 0 then 1 else 0) (runAt_not r.1)
    (hr.describes.jumpsRight true hright) hbelow hle i 0
  have htest : (fun s : State => (e.testAt w s).map fun q => (!q.1, q.2)) =
      fun s => (e.runAt w s).map fun v =>
        ((if v.1 = 0 then 1 else 0 : BitVec 64) != 0, { s with heap := v.2 }) := by
    funext s
    rw [testAt, Option.map_map]
    refine congrArg (fun f => (e.runAt w s).map f) (funext fun v => ?_)
    by_cases hv : v.1 = 0
    · rw [if_pos hv, Function.comp, hv]
      rfl
    · rw [if_neg hv, Function.comp, bne_iff_ne.mpr hv]
      rfl
  rw [htest]
  exact hdecides

theorem not_succeeds (hunique : (machine w).Unique prog) {e : Expr} (he : e.isTest n true)
    {c : Compiler} (hc : n ≤ bound c) (i : BitVec 16) :
    Succeeds (compileJumpIf (.label i 0) (compileExpr (newUnary .not1 e))) c fun _ o _ =>
      (machine w).Tests prog (observer w n) o i
        fun s => (e.testAt w s).map fun q => (!q.1, q.2) := by
  obtain ⟨husable, hright⟩ := isTest_iff.mp he
  obtain ⟨hbelow, hsucceeds⟩ := compileExpr_succeeds (w := w) husable hc
  have hunary : compileExpr (newUnary .not1 e) = compileExpr e >>= fun r =>
      Pure.pure (if r.2 then (newUnary .not1 r.1, true) else (newUnary .not1 e, false)) := by
    change compileExprWith compiled (.unary .bool .not1 e .fresh) = _
    rw [compileExprWith]
    rfl
  have hnot : Succeeds (compileExpr (newUnary .not1 e)) c fun q o _ =>
      (machine w).Tests prog (observer w n) (o ++ jumpNodes (.label i 0) q.1) i
        fun s => (e.testAt w s).map fun q => (!q.1, q.2) := by
    rw [hunary]
    refine hsucceeds.bind (fun _ => grows_basic.pure _) fun r o c' hcompiled => .pure ?_
    obtain ⟨_, hreturn, hr⟩ := hcompiled
    have hnode : (if r.2 then (newUnary .not1 r.1, true) else (newUnary .not1 e, false)).1 =
        newUnary .not1 r.1 := by
      cases hchanged : r.2 with
      | true => rfl
      | false =>
        rw [hr.kept hchanged]
        rfl
    rw [hnode, List.append_nil]
    exact not_decides hunique hr hright hreturn hbelow hc i
  exact jumpIf_succeeds hnot fun _ _ _ h => h

/-! ## If -/

variable (w prog turns n results) in
/-- The compiled statement does what the statement does. -/
def Simulated (st : Stmt) : Prop :=
  Performs w prog turns n results (compileAdd (compileStmt st)) (st.outcome w turns)

theorem compileAdd_steady (st : Stmt) :
    Respects (fun c _ c' => Steady c c') (compileAdd (compileStmt st)) :=
  steady_basic.compileAdd (steady_basic.compileStmts.1 st)

theorem compileAdd_grows (st : Stmt) : Respects Grows (compileAdd (compileStmt st)) :=
  grows_basic.compileAdd (grows_basic.compileStmts.1 st)

theorem Simulated.later {st : Stmt} (h : Simulated w prog turns n results st) {c c' : Compiler}
    (hc : Ready n results c) (hs : Steady c c') :
    Succeeds (compileAdd (compileStmt st)) c' fun _ o c'' => Steady c c'' ∧ ∀ exits,
      ExitsAt w prog c exits →
        (machine w).Simulates prog (observer w n) turns exits o (st.outcome w turns) :=
  Performs.later h (compileAdd_steady st) hc hs

/-- A constant is compiled to nothing. -/
theorem outcome_of_isConst {st : Stmt} (h : st.isConst) (s : State) :
    st.outcome w turns s = .ends .normal s := by
  cases st with
  | expr e =>
    rw [Stmt.outcome]
    dsimp only
    rw [const_performAt h]
    rfl
  | _ => cases h

theorem compileIfElse_grows (haveElse : Bool) (test : Expr) (thn els : Stmt) :
    Respects Grows (compileIfElse haveElse test (compileStmt thn) (compileStmt els)) := by
  refine grows_basic.bind grows_basic.newLabel fun _ =>
    grows_basic.bind (grows_basic.newLabelOr _ _) fun _ =>
    grows_basic.bind (compileJumpIf_grows _ _) fun _ =>
    grows_basic.bind (compileAdd_grows thn) fun _ =>
    grows_basic.bind (grows_basic.takeIf _ ?_) fun _ => grows_basic.add _
  exact grows_basic.bind (grows_basic.add _) fun _ => grows_basic.bind (grows_basic.add _) fun _ =>
    compileAdd_grows els

/-- The constant that a test is lowered to. -/
theorem const_toBool {v : Value} {p : Place} {negate : Bool}
    (h : (Expr.const v p).jumpsRight negate) : v.toBool = (v.meaning != 0) := by
  rw [Expr.jumpsRight, Bool.and_eq_true, decide_eq_true_eq] at h
  rw [Value.toBool_eq h.1, h.2.meaning]

/-- An `If` whose test is lowered to this, which is no constant. -/
theorem ifElse_succeeds (hunique : (machine w).Unique prog) {test : Expr} {thn els : Stmt}
    (htest : test.isTest n true) (hthn : Simulated w prog turns n results thn)
    (hels : Simulated w prog turns n results els) {c c' : Compiler} (hc : Ready n results c)
    (hs : Steady c c') {r : Compiled} {piece : List Stmt}
    (hreturn : ∀ st ∈ piece, st.isReturn = false) (hr : LoweredTo w (bound c) test r piece c') :
    Succeeds (compileIfElse (!els.isConst) r.1 (compileStmt thn) (compileStmt els)) c'
      fun _ o _ => ∀ exits, ExitsAt w prog c exits →
        (machine w).Simulates prog (observer w n) turns exits (piece ++ o) fun s =>
          .branch (test.testAt w s) (thn.outcome w turns) (els.outcome w turns) := by
  obtain ⟨husable, hright⟩ := isTest_iff.mp htest
  have hbelow := (compileExpr_succeeds (w := w) husable hc.vars).1
  have hjump : ∀ i c₁, compileJumpIf (.label i 0) (compileExpr (newUnary .not1 r.1)) c₁ =
      ((), ⟨jumpNodes (.label i 0) (newUnary .not1 r.1), []⟩, c₁) := by
    intro i c₁
    have hself : compileExpr (newUnary .not1 r.1) = Pure.pure (newUnary .not1 r.1, false) :=
      compileExprWith_lowered compiled _ hr.describes.lowered
    rw [compileJumpIf_eq, hself]
    rfl
  have htests := fun i => not_decides hunique hr hright hreturn hbelow hc.vars i
  refine newLabel_then (fun _ => ?_) fun i c₁ hs₁ => ?_
  · refine grows_basic.bind (grows_basic.newLabelOr _ _) fun _ =>
      grows_basic.bind (compileJumpIf_grows _ _) fun _ =>
      grows_basic.bind (compileAdd_grows thn) fun _ =>
      grows_basic.bind (grows_basic.takeIf _ ?_) fun _ => grows_basic.add _
    exact grows_basic.bind (grows_basic.add _) fun _ => grows_basic.bind (grows_basic.add _)
      fun _ => compileAdd_grows els
  cases hconst : els.isConst with
  | true =>
    refine .silent rfl (.emits (hjump i c₁) ((hthn.later hc (hs.trans hs₁)).bind (fun _ =>
      grows_basic.bind (grows_basic.pure _) fun _ => grows_basic.add _) ?_))
    rintro _ o c₂ ⟨_, hsim⟩
    refine .silent rfl fun _ _ exits hexits => ?_
    have hskip := (hsim exits hexits).skipIf hunique (htests i) (marks_label i 0)
    rw [List.append_assoc] at hskip
    refine hskip.congr fun s => ?_
    rw [Result.branch_not]
    exact congrArg _ (funext (outcome_of_isConst hconst))
  | false =>
    refine newLabel_then (fun _ => ?_) fun j c₂ hs₂ => ?_
    · refine grows_basic.bind (compileJumpIf_grows _ _) fun _ =>
        grows_basic.bind (compileAdd_grows thn) fun _ =>
        grows_basic.bind (grows_basic.takeIf _ ?_) fun _ => grows_basic.add _
      exact grows_basic.bind (grows_basic.add _) fun _ => grows_basic.bind (grows_basic.add _)
        fun _ => compileAdd_grows els
    refine .emits (hjump i c₂) ((hthn.later hc ((hs.trans hs₁).trans hs₂)).bind (fun _ => ?_) ?_)
    · refine grows_basic.bind (grows_basic.takeIf _ ?_) fun _ => grows_basic.add _
      exact grows_basic.bind (grows_basic.add _) fun _ => grows_basic.bind (grows_basic.add _)
        fun _ => compileAdd_grows els
    rintro _ o c₃ ⟨hs₃, hthn'⟩
    refine Succeeds.bind (Φ := fun _ o' _ => ∃ o'', o' = .goto (.label j 0) ::
      .expr (.label i 0) :: o'' ∧ ∀ exits, ExitsAt w prog c exits →
        (machine w).Simulates prog (observer w n) turns exits o'' (els.outcome w turns))
      ?_ (fun _ => grows_basic.add _) ?_
    · refine .emits rfl (.emits rfl ((hels.later hc hs₃).mono ?_))
      exact fun _ o'' _ ⟨_, hels'⟩ => ⟨o'', rfl, hels'⟩
    rintro - o' c₄ ⟨o'', rfl, hels'⟩ _ _ exits hexits
    have hskip := (hthn' exits hexits).skipIfElse hunique (htests i)
      ((hels' exits hexits).mark (marks_label j 0)) (jumps_goto j 0) (marks_label i 0)
      (marks_label j 0)
    rw [List.append_assoc] at hskip
    exact hskip.congr fun s => (Result.branch_not _ _ _).symm

/-- An `If`, whose test may be lowered to a constant. -/
theorem if_performs (hunique : (machine w).Unique prog) {test thn els : Stmt}
    (htest : test.toExpr.isTest n true) (hthn : Simulated w prog turns n results thn)
    (hels : Simulated w prog turns n results els) :
    Performs w prog turns n results
      (compileIf (!els.isConst) (compileExpr test.toExpr) (compileStmt thn) (compileStmt els))
      ((stmt3 .if_ test thn els).outcome w turns) := by
  obtain ⟨husable, hright⟩ := isTest_iff.mp htest
  intro c hc
  obtain ⟨hbelow, hsucceeds⟩ := compileExpr_succeeds (w := w) husable hc.vars
  refine hsucceeds.bind (fun r => ?_) fun r o c₁ ⟨hs, hreturn, hr⟩ => ?_
  · dsimp only
    split
    · exact Basic.ite _ (compileAdd_grows thn) (compileAdd_grows els)
    · exact compileIfElse_grows _ _ thn els
  dsimp only
  split
  rotate_left
  · exact ifElse_succeeds hunique htest hthn hels hc hs hreturn hr
  next v p hconst =>
  have hjumps := hr.describes.jumpsRight true hright
  have hbranch : ∀ (st : Stmt), Simulated w prog turns n results st →
      (∀ s v', test.toExpr.runAt w s = some v' → v'.1 = v.meaning →
        (stmt3 .if_ test thn els).outcome w turns s =
          st.outcome w turns { s with heap := v'.2 }) →
      Succeeds (compileAdd (compileStmt st)) c₁ fun _ o' _ => ∀ exits, ExitsAt w prog c exits →
        (machine w).Simulates prog (observer w n) turns exits (o ++ o')
          ((stmt3 .if_ test thn els).outcome w turns) := by
    intro st hst hbranch
    refine (hst.later hc hs).mono fun _ o' _ ⟨_, hsim⟩ exits hexits post hpost s t hsame => ?_
    rw [List.append_assoc] at hpost ⊢
    cases hrun : test.toExpr.runAt w s with
    | none =>
      obtain hstuck | ⟨t', -, hnone, -⟩ := hr.stuck hunique hreturn hpost hbelow hsame hrun
      · rw [Stmt.outcome]
        dsimp only
        rw [testAt, hrun]
        exact hstuck
      · rw [hconst] at hnone
        cases hnone
    | some v' =>
      obtain ⟨t', hreach, -, hsame', hvalue⟩ :=
        hr.arrives hunique hpost hbelow hsame hc.vars hrun
      have hmeaning : v'.1 = v.meaning := by
        rw [hconst] at hvalue
        exact (congrArg Prod.fst (Option.some.inj hvalue)).symm
      rw [hbranch s v' hrun hmeaning]
      exact (hsim exits hexits post ((List.suffix_append o _).trans hpost) _ t' hsame').after_zero
        hreach
  rw [hconst] at hjumps
  have htaken : ∀ s v', test.toExpr.runAt w s = some v' → v'.1 = v.meaning →
      test.toExpr.testAt w s = some (v.toBool, { s with heap := v'.2 }) := by
    intro s v' hrun hmeaning
    rw [testAt, hrun, const_toBool hjumps, Option.map_some, hmeaning]
  cases hbool : v.toBool with
  | true =>
    rw [if_pos rfl]
    refine hbranch thn hthn fun s v' hrun hmeaning => ?_
    rw [Stmt.outcome]
    dsimp only
    rw [htaken s v' hrun hmeaning, hbool]
    rfl
  | false =>
    rw [if_neg Bool.false_ne_true]
    refine hbranch els hels fun s v' hrun hmeaning => ?_
    rw [Stmt.outcome]
    dsimp only
    rw [htaken s v' hrun hmeaning, hbool]
    rfl

/-! ## For -/

theorem simulated_seq {st st' : Stmt} (h : Simulated w prog turns n results st)
    (h' : Simulated w prog turns n results st') : Performs w prog turns n results
      (compileAdd (compileStmt st) >>= fun _ => compileAdd (compileStmt st'))
      fun s => (st.outcome w turns s).andThen (st'.outcome w turns) :=
  h.seq (compileAdd_steady st) h' (compileAdd_grows st')

theorem leads_of_find {i : BitVec 16} {rest : List Stmt} (h : (machine w).find i prog = some rest) :
    Leads w prog (.label i 0) (some rest) := ⟨i, 0, rest, rfl, h, rfl⟩

/-- The statements in a loop, between its labels. -/
theorem inLoop_succeeds {m : CompileM Unit} {exec : State → StmtResult}
    (hm : Performs w prog turns n results m exec)
    (hsteady : Respects (fun c _ c' => Steady c c') m) {c c' : Compiler} (hc : Ready n results c)
    (hs : Steady c c') (b j : BitVec 16) :
    Succeeds m (enterLoop (.label b 0) (.label j 0) c').2.2 fun _ o c'' =>
      n ≤ bound (exitLoop c'').2.2 ∧ ∀ exits post again, ExitsAt w prog c exits →
        (machine w).find b prog = some post → (machine w).find j prog = some again →
        (machine w).Simulates prog (observer w n) turns ⟨some post, some again, exits.fall⟩ o
          exec := by
  have hc' := hc.step hs
  have hready : Ready n results (enterLoop (.label b 0) (.label j 0) c').2.2 :=
    ⟨hc'.vars, hc'.results⟩
  refine ((hm _ hready).steady hsteady).mono fun _ o c'' ⟨hs', hsim⟩ => ⟨?_, ?_⟩
  · have hvars : n ≤ bound c'' := (hready.step hs').vars
    unfold exitLoop
    dsimp only
    split <;> exact hvars
  · intro exits post again hexits hpost hagain
    refine hsim _ ⟨fun l hl => ?_, fun l hl => ?_, (hexits.step hs).fall⟩
    · cases hl
      exact leads_of_find hpost
    · cases hl
      exact leads_of_find hagain

theorem loopEnd_grows (haveTest : Bool) (test loop cont brk : Expr) :
    Respects Grows (loopEnd haveTest test loop cont brk) := by
  refine Basic.ite _ (grows_basic.bind (grows_basic.add _) fun _ => ?_) ?_
  · exact grows_basic.bind (compileJumpIf_grows _ _) fun _ => grows_basic.add _
  · exact grows_basic.bind (grows_basic.add _) fun _ => grows_basic.add _

theorem exitLoop_grows : Respects Grows exitLoop := by
  intro c
  unfold exitLoop
  dsimp only
  split <;> exact ⟨Nat.le_refl _, Nat.le_refl _⟩

theorem enterLoop_grows (brk cont : Expr) : Respects Grows (enterLoop brk cont) :=
  fun _ => ⟨Nat.le_refl _, Nat.le_refl _⟩

/-- The grown state behind each step of a loop. -/
theorem loop_grows (haveTest : Bool) (test loop cont brk : Expr) (body post : Stmt) :
    Respects Grows (takeIf haveTest (add (.goto cont)) >>= fun _ => add (.expr loop) >>= fun _ =>
      enterLoop brk cont >>= fun _ =>
      (compileAdd (compileStmt body) >>= fun _ => compileAdd (compileStmt post)) >>= fun _ =>
      exitLoop >>= fun _ => loopEnd haveTest test loop cont brk) :=
  grows_basic.bind (grows_basic.takeIf _ (grows_basic.add _)) fun _ =>
    grows_basic.bind (grows_basic.add _) fun _ =>
    grows_basic.bind (enterLoop_grows brk cont) fun _ =>
    grows_basic.bind (grows_basic.bind (compileAdd_grows body) fun _ => compileAdd_grows post)
      fun _ => grows_basic.bind exitLoop_grows fun _ => loopEnd_grows _ _ _ _ _

section Loops

variable {test : Expr} {post body : Stmt}

/-- A loop with a test: it is entered at the test, to which `Continue` goes. -/
theorem testLoop_performs (hunique : (machine w).Unique prog) (htest : test.isTest n false)
    (hpost : Simulated w prog turns n results post)
    (hbody : Simulated w prog turns n results body) :
    Performs w prog turns n results (compileLoop true test (compileStmt post) (compileStmt body))
      (.loop (test.testAt w) (fun s => (body.outcome w turns s).andThen (post.outcome w turns))
        turns) := by
  intro c hc
  have hsteady : Respects (fun c _ c' => Steady c c')
      (compileAdd (compileStmt body) >>= fun _ => compileAdd (compileStmt post)) :=
    steady_basic.bind (compileAdd_steady body) fun _ => compileAdd_steady post
  rw [compileLoop_eq]
  refine newLabel_then (fun _ => grows_basic.bind (grows_basic.newLabelOr _ _) fun _ =>
    grows_basic.bind grows_basic.newLabel fun _ => loop_grows _ _ _ _ _ _ _) fun i c₁ hs₁ => ?_
  refine newLabel_then (fun _ => grows_basic.bind grows_basic.newLabel fun _ =>
    loop_grows _ _ _ _ _ _ _) fun j c₂ hs₂ => ?_
  refine newLabel_then (fun _ => loop_grows _ _ _ _ _ _ _) fun b c₃ hs₃ => ?_
  have hinner := inLoop_succeeds (simulated_seq hbody hpost) hsteady hc
    ((hs₁.trans hs₂).trans hs₃) b j
  refine .emits rfl (.emits rfl (.silent rfl (hinner.bind (fun _ =>
    grows_basic.bind exitLoop_grows fun _ => loopEnd_grows _ _ _ _ _) ?_)))
  rintro _ o c₄ ⟨hbound, hsim⟩
  refine .silent rfl (.emits rfl ((test_succeeds hunique htest hbound i).bind
    (fun _ => grows_basic.add _) fun _ o' c₅ htests _ _ exits hexits rest hrest s t hst => ?_))
  change Stmt.goto (.label j 0) :: .expr (.label i 0) ::
    (o ++ .expr (.label j 0) :: (o' ++ [.expr (.label b 0)])) ++ rest <:+ prog at hrest
  change Machine.Follows _ _ _ _ _ _ (Stmt.goto (.label j 0) :: .expr (.label i 0) ::
    (o ++ .expr (.label j 0) :: (o' ++ [.expr (.label b 0)])) ++ rest, t) _
  simp only [List.cons_append, List.append_assoc, List.nil_append] at hrest ⊢
  have hloop := (List.suffix_cons _ _).trans hrest
  have hstart := (List.suffix_cons _ _).trans hloop
  have hcont := (List.suffix_append o _).trans hstart
  have hagain := (List.suffix_cons _ _).trans hcont
  have hend := (List.suffix_append o' _).trans hagain
  have hfindi := (marks_label (w := w) i 0).find hunique hloop
  have hfindj := (marks_label (w := w) j 0).find hunique hcont
  have hfindb := (marks_label (w := w) b 0).find hunique hend
  have hturn := hsim exits _ _ hexits hfindb hfindj _ hstart
  have hdecides := fun s t hst => (htests _ hagain _ hfindi s t hst).goes_on fun t =>
    (Machine.Reaches.fall ((marks_label b 0).2 t)).mono (Nat.zero_le _)
  exact Machine.Follows.after_zero (.jump (jumps_goto j 0 t) hfindj)
    (.loop hdecides hturn (fun t => .fall ((marks_label j 0).2 t)) (Nat.le_refl _) s t hst)

/-- A `For`. With a constant test only the initialization is compiled. -/
theorem for_performs (hunique : (machine w).Unique prog) {init test : Stmt}
    (htest : test.toExpr.isLoopTest n) (hinit : Simulated w prog turns n results init)
    (hpost : Simulated w prog turns n results post)
    (hbody : Simulated w prog turns n results body) :
    Performs w prog turns n results
      (compileFor test.toExpr (compileStmt init) (compileStmt post) (compileStmt body))
      ((stmt4 .for_ init test post body).outcome w turns) := by
  have hloop : Performs w prog turns n results
      (takeIf (!(test.toExpr.isConst && loopHasTest test.toExpr))
        (compileLoop (!test.toExpr.isConst) test.toExpr (compileStmt post) (compileStmt body)))
      (.loop (test.toExpr.testAt w)
        (fun s => (body.outcome w turns s).andThen (post.outcome w turns)) turns) := by
    generalize test.toExpr = e at htest ⊢
    cases hconst : e.isConst with
    | false =>
      have htest' : e.isTest n false := by
        cases e with
        | const v p => cases hconst
        | _ => exact htest
      exact testLoop_performs hunique htest' hpost hbody
    | true =>
      cases e with
      | const v p =>
        rw [isLoopTest, Bool.and_eq_true, beq_iff_eq] at htest
        have hskipped : loopHasTest (const v p) := by
          rw [loopHasTest, htest.1]
          rfl
        rw [hskipped]
        have hfalse : ∀ s, (const v p).testAt w s = some (false, s) := by
          intro s
          rw [testAt, runAt, run, htest.2]
          rfl
        intro c _ _ _ exits _ post _ s t hst
        rw [Result.loop_of_false (hfalse s)]
        split
        · next hturns => exact ⟨_, (Machine.Reaches.refl _).mono hturns.le⟩
        · exact ⟨t, hst, .refl _⟩
      | _ => cases hconst
  exact hinit.seq (compileAdd_steady init) hloop
    (grows_basic.takeIf _ (grows_basic.compileLoop _ _ (grows_basic.compileStmts.1 post)
      (grows_basic.compileStmts.1 body)))

end Loops

/-! ## Cond -/

theorem condLowersRight_cons {test body : Stmt} {sts : List Stmt}
    (h : condLowersRight n results (test :: body :: sts)) : test.toExpr.isTest n true ∧
      body.lowersRight n results ∧ condLowersRight n results sts := by
  rw [condLowersRight, Bool.and_eq_true, Bool.and_eq_true] at h
  exact ⟨h.1.1, h.1.2, h.2⟩

/-- The branches of a `Cond`, from one on. The last one is followed by the label at the end. -/
theorem branches_succeeds (hunique : (machine w).Unique prog) (l : BitVec 16) {sts : List Stmt}
    (hright : condLowersRight n results sts) (heven : sts.length % 2 = 0) (hne : sts ≠ [])
    (hall : ∀ st ∈ sts, st.lowersRight n results → Simulated w prog turns n results st)
    {c c' : Compiler} (hc : Ready n results c) (hs : Steady c c') :
    Succeeds (compileBranches (.label l 0) sts) c' fun _ o _ => ∃ o', o = o' ++ [.expr (.label l 0)] ∧
      ∀ exits, ExitsAt w prog c exits → (machine w).Simulates prog (observer w n) turns exits
        (o' ++ [.expr (.label l 0)]) (outcomeCond w turns sts) := by
  induction sts using List.twoStepInduction generalizing c' with
  | nil => exact absurd rfl hne
  | singleton test => cases heven
  | cons_cons test body sts ih =>
    obtain ⟨htest, hbody, hrest⟩ := condLowersRight_cons hright
    have hsim := hall body (List.mem_cons_of_mem _ List.mem_cons_self) hbody
    have hgrow : ∀ (b : Bool) (next : Expr), Respects Grows
        (compileAdd (compileStmt body) >>= fun _ => takeIf b (add (.goto (.label l 0))) >>= fun _ =>
          add (.expr next)) := fun b next =>
      grows_basic.bind (compileAdd_grows body) fun _ =>
        grows_basic.bind (grows_basic.takeIf _ (grows_basic.add _)) fun _ => grows_basic.add _
    have hbranches : ∀ sts, Respects Grows (compileBranches (.label l 0) sts) :=
      grows_basic.compileStmts.2.2.2.1 _
    rw [compileBranches]
    cases sts with
    | nil =>
      refine Succeeds.bind (Φ := fun _ o _ => ∃ o', o = o' ++ [.expr (.label l 0)] ∧
        ∀ exits, ExitsAt w prog c exits → (machine w).Simulates prog (observer w n) turns exits
          (o' ++ [.expr (.label l 0)]) (outcomeCond w turns [test, body])) ?_ (fun _ => hbranches _) ?_
      · refine .silent rfl (((not_succeeds hunique htest (hc.step hs).vars l).steady
          (compileJumpIf_steady _ _)).bind (fun _ => hgrow _ _) ?_)
        rintro _ o c₁ ⟨hs₁, htests⟩
        refine (hsim.later hc (hs.trans hs₁)).bind (fun _ =>
          grows_basic.bind (grows_basic.takeIf _ (grows_basic.add _)) fun _ => grows_basic.add _) ?_
        rintro _ o' c₂ ⟨_, hbody'⟩
        refine .silent rfl fun _ _ => ⟨o ++ o', (List.append_assoc o o' _).symm, fun exits hexits => ?_⟩
        have hskip := (hbody' exits hexits).skipIf hunique htests (marks_label l 0)
        rw [← List.append_assoc] at hskip
        refine hskip.congr fun s => ?_
        rw [outcomeCond, Result.branch_not, outcomeCond]
        intros; contradiction
      · intro _ o c₁ hdone _ _
        change ∃ o', o ++ [] = o' ++ [.expr (.label l 0)] ∧ _
        rw [List.append_nil]
        exact hdone
    | cons test' sts =>
      have heven' : (test' :: sts).length % 2 = 0 := by
        rw [List.length_cons, List.length_cons] at heven
        omega
      have hall' := fun st hst => hall st (List.mem_cons_of_mem _ (List.mem_cons_of_mem _ hst))
      refine Succeeds.bind (Φ := fun _ o c₁ => Steady c c₁ ∧ ∃ i piece o',
        o = piece ++ (o' ++ [.goto (.label l 0), .expr (.label i 0)]) ∧
        (machine w).Tests prog (observer w n) piece i
          (fun s => (test.toExpr.testAt w s).map fun q => (!q.1, q.2)) ∧
        ∀ exits, ExitsAt w prog c exits → (machine w).Simulates prog (observer w n) turns exits
          o' (body.outcome w turns)) ?_ (fun _ => hbranches _) ?_
      · refine newLabel_then (fun next => grows_basic.bind (compileJumpIf_grows _ _)
          fun _ => hgrow _ _) fun i c₁ hs₁ => ?_
        have hs₁' := hs.trans hs₁
        refine ((not_succeeds hunique htest (hc.step hs₁').vars i).steady
          (compileJumpIf_steady _ _)).bind (fun _ => hgrow _ _) ?_
        rintro _ piece c₂ ⟨hs₂, htests⟩
        refine (hsim.later hc (hs₁'.trans hs₂)).bind (fun _ =>
          grows_basic.bind (grows_basic.takeIf _ (grows_basic.add _)) fun _ => grows_basic.add _) ?_
        rintro _ o' c₃ ⟨hs₃, hbody'⟩
        exact .emits rfl fun _ _ => ⟨hs₃, i, piece, o', rfl, htests, hbody'⟩
      · rintro _ o c₁ ⟨hs₁, i, piece, thn, ho, htests, hthn⟩
        refine (ih hrest heven' (List.cons_ne_nil _ _) hall' hs₁).mono ?_
        rintro - o' c₂ ⟨els, rfl, hels⟩
        refine ⟨piece ++ (thn ++ (.goto (.label l 0) :: .expr (.label i 0) :: els)), ?_,
          fun exits hexits => ?_⟩
        · rw [ho]
          simp only [List.append_assoc, List.cons_append, List.nil_append]
        · have hskip := (hthn exits hexits).skipIfElse hunique htests (hels exits hexits)
            (jumps_goto l 0) (marks_label i 0) (marks_label l 0)
          simp only [List.append_assoc, List.cons_append] at hskip ⊢
          refine hskip.congr fun s => ?_
          rw [outcomeCond, Result.branch_not]

/-- A `Cond`. -/
theorem cond_performs (hunique : (machine w).Unique prog) {args : List Stmt}
    (hright : condLowersRight n results args)
    (hall : ∀ st ∈ args, st.lowersRight n results → Simulated w prog turns n results st) :
    Performs w prog turns n results
      (compileCond args fun last => compileBranches last args) (outcomeCond w turns args) := by
  intro c hc
  unfold compileCond
  cases args with
  | nil =>
    refine .pure fun exits _ => Machine.Simulates.nil.congr fun s => ?_
    rw [outcomeCond]
    nofun
  | cons st sts =>
    rw [if_neg (by simp)]
    by_cases hodd : (st :: sts).length % 2 = 1
    · rw [if_pos hodd]
      exact .error
    · rw [if_neg hodd]
      refine newLabel_then (fun _ => grows_basic.compileStmts.2.2.2.1 _ _) fun l c₁ hs₁ => ?_
      refine (branches_succeeds hunique l hright (by omega) (List.cons_ne_nil _ _) hall hc hs₁).mono ?_
      rintro - o c₂ ⟨o', rfl, hsim⟩
      exact hsim

/-! ## Switch -/

/-- A state in which a variable holds the value of the expression of a `Switch`. -/
def Holds (n : Nat) (k : Kind) (id : Nat) (v : BitVec 64) (s t : State) : Prop :=
  Same n s t ∧ k.wrap (t.vars k id) = v

variable (w prog n) in
/-- The code of a test goes on where the case has the value, and to the other place where it does
not. -/
def Selects (piece : List Stmt) (k : Kind) (id : Nat) (next e : Expr) : Prop :=
  ∀ post, piece ++ post <:+ prog → ∀ rest, Leads w prog next (some rest) → ∀ v s t,
    Holds n k id v s t → match e.equalsAt w v s with
      | some (true, s') => ∃ t', Holds n k id v s' t' ∧
        (machine w).Reaches prog 0 (piece ++ post, t) (post, t')
      | some (false, s') => ∃ t', Holds n k id v s' t' ∧
        (machine w).Reaches prog 0 (piece ++ post, t) (rest, t')
      | .none => ∃ b, (observer w n).stuck b ∧ (machine w).Reaches prog 0 (piece ++ post, t) b

/-- The comparison of the variable with a value of its kind. -/
theorem caseTest_isTest {k : Kind} (hk : k.isScalar) {id m : Nat} (hid : id < m) {e : Expr}
    (he : e.usable n) (hkind : e.valueKind = k) (hexpr : (outline e).type.isExpr) (hle : n ≤ m) :
    (newBinary .neq (.var k id) e).isTest m false := by
  rw [usable, Bool.and_eq_true, Bool.and_eq_true] at he
  obtain ⟨⟨hcomputes, htyped⟩, hbelow⟩ := he
  refine isTest_iff.mpr ⟨?_, ?_⟩
  · rw [usable, Bool.and_eq_true, Bool.and_eq_true]
    refine ⟨⟨?_, ?_⟩, ?_⟩
    · change (true && computes e && !(false && hasCall e) && _) = true
      rw [hcomputes]
      change (Expr.lowered _ || (Kind.bool == .bool)) = true
      rw [beq_self_eq_true, Bool.or_true]
    · change (k.isScalar && e.typed && Kind.typed2 .bool .neq k e.valueKind) = true
      rw [hk, htyped, hkind]
      simp [Kind.typed2, hk]
    · change (decide (id < m) && e.varsBelow m) = true
      rw [decide_eq_true hid, varsBelow_mono hle e hbelow]
      rfl
  · change (true && (outline e).type.isExpr && Op2.jumpsRight .neq false k k .none _) = true
    rw [hexpr]
    cases constantOf e <;> rfl

theorem caseTest_succeeds (hunique : (machine w).Unique prog) {k : Kind} (hk : k.isScalar)
    {id : Nat} {e : Expr} (he : e.usable n) (hkind : e.valueKind = k)
    (hexpr : (outline e).type.isExpr) {c : Compiler} (hc : n ≤ bound c) (hid : id < bound c)
    {next : Expr} (hnext : ∃ i, next = .label i 0) :
    Succeeds (compileJumpIf next (compileExpr (newBinary .neq (.var k id) e))) c fun _ o _ =>
      Selects w prog n o k id next e := by
  obtain ⟨i, rfl⟩ := hnext
  have hbelow := (compileExpr_succeeds (w := w) he hc).1
  have htest := caseTest_isTest hk hid he hkind hexpr hc
  refine (test_succeeds hunique htest (Nat.le_refl _) i).mono fun _ o _ htests => ?_
  rintro post hpost rest ⟨i', a, rest', hi, hfind, hrest⟩ v s t ⟨hst, hv⟩
  cases hi
  cases hrest
  have hvoid : k ≠ .void := by
    rintro rfl
    exact absurd hk (by decide)
  have heval : (newBinary .neq (.var k id) e).testAt w t =
      (e.runAt w s).map fun r => (v != r.1, { t with heap := r.2 }) := by
    have hx : (Expr.var k id).runAt w t = some (v, t.heap) := by
      rw [runAt, run, hv]
    have hneq : ∀ a, Kind.evalBinary k .neq v a = some (if v != a then 1 else 0) := fun _ => rfl
    rw [testAt, newBinary, runAt_binary, hx, Option.bind_some, if_neg (by exact Bool.false_ne_true)]
    change ((e.runAt w t).bind fun r' => (Kind.evalBinary k .neq v r'.1).map (·, r'.2)).map _ = _
    rw [same_runAt hst hbelow]
    cases e.runAt w s with
    | none => rfl
    | some r =>
      simp only [Option.bind_some, hneq, Option.map_some]
      cases v != r.1 <;> rfl
  have hholds : ∀ {h' t'}, Same (bound c) { t with heap := h' } t' →
      Holds n k id v { s with heap := h' } t' := by
    intro h' t' hsame
    refine ⟨⟨hst.vars.trans (hsame.vars.mono hc), hsame.heap⟩, ?_⟩
    rw [← hsame.vars k id hvoid hid]
    exact hv
  have hdecides := htests post hpost rest hfind t t (.refl _ t)
  rw [heval] at hdecides
  rw [equalsAt]
  cases hrun : e.runAt w s with
  | none =>
    rw [hrun] at hdecides
    exact hdecides
  | some r =>
    rw [hrun, Option.map_some] at hdecides
    rw [Option.map_some]
    cases heq : v == r.1 with
    | true =>
      rw [bne, heq] at hdecides
      obtain ⟨t', hsame, hreach⟩ := hdecides
      exact ⟨t', hholds hsame, hreach⟩
    | false =>
      rw [bne, heq] at hdecides
      obtain ⟨t', hsame, hreach⟩ := hdecides
      exact ⟨t', hholds hsame, hreach⟩

/-- A label, where there is one. -/
def placed (l : Expr) : List Stmt := if l.isValid then [.expr l] else []

/-- A label that was taken, or none. -/
def IsTaken (l : Expr) : Prop := l = .none ∨ ∃ i, l = .label i 0

theorem takeIf_place {l : Expr} (hl : IsTaken l) (c : Compiler) :
    takeIf l.isValid (add (.expr l)) c = ((), ⟨placed l, []⟩, c) := by
  obtain rfl | ⟨i, rfl⟩ := hl <;> rfl

theorem IsTaken.label {l : Expr} (hl : IsTaken l) (hvalid : l.isValid) : ∃ i, l = .label i 0 := by
  obtain rfl | hlabel := hl
  · cases hvalid
  · exact hlabel

theorem newLabelOr_then {β : Type} {b : Bool} {l : Expr} {f : Expr → CompileM β} {c : Compiler}
    {Ψ : β → List Stmt → Compiler → Prop} (hgrow : ∀ l, Respects Grows (f l))
    (h : ∀ l' c', Steady c c' → (if b then ∃ i, l' = .label i 0 else l' = l) →
      Succeeds (f l') c' Ψ) : Succeeds (newLabelOr b l >>= f) c Ψ := by
  cases b with
  | true => exact newLabel_then hgrow fun i c' hs => h _ c' hs ⟨i, rfl⟩
  | false => exact .silent rfl (h l c (steady_basic.refl c) rfl)

variable (w prog turns n) in
/-- What is emitted for a case: the test, the label of the body, and the body, which is left to the
end or for the next one. -/
structure CaseCode (c : Compiler) (k : Kind) (id : Nat) (b : BitVec 16) (isLast : Bool)
    (labels labels' : CaseLabels) (op : OpStmt2) (e : Expr) (exec : State → StmtResult)
    (fall : Expr) (test body : List Stmt) : Prop where
  next : ∃ i, labels'.this = .label i 0
  nextFall : ∃ i, labels'.fall = .label i 0
  dflt : IsTaken labels'.dflt
  isTaken : IsTaken fall
  falls : labels.fall.isValid → fall = labels.fall
  last : isLast → labels'.fall = .label b 0 ∧
    labels'.this = if labels.dflt.isValid then labels.dflt else .label b 0
  tested : op ≠ .default → labels'.dflt = labels.dflt ∧ Selects w prog n test k id labels'.this e
  default : op = .default → if isLast then test = [] ∧ labels'.dflt = labels.dflt
    else test = [.goto labels'.this] ∧ labels'.dflt = fall ∧ fall.isValid
  runs : ∀ exits post fallen, ExitsAt w prog c exits → (machine w).find b prog = some post →
    Leads w prog labels'.fall (some fallen) →
    (machine w).Simulates prog (observer w n) turns ⟨some post, exits.cont, some fallen⟩ body exec

theorem enterCase_grows (brk fall : Expr) : Respects Grows (enterCase brk fall) :=
  fun _ => ⟨Nat.le_refl _, Nat.le_refl _⟩

theorem caseEnd_grows (brk : Expr) (isLast : Bool) (labels : CaseLabels) :
    Respects Grows (caseEnd brk isLast labels) := by
  refine grows_basic.bind (fun c => ?_) fun _ =>
    grows_basic.bind (grows_basic.takeIf _ (grows_basic.add _)) fun _ => grows_basic.pure _
  unfold exitCase
  dsimp only
  split <;> exact ⟨Nat.le_refl _, Nat.le_refl _⟩

/-- The body of a case, between the labels that its jumps go to. -/
theorem inCase_succeeds {st : Stmt} (hst : Simulated w prog turns n results st) {c c' : Compiler}
    (hc : Ready n results c) (hs : Steady c c') (b : BitVec 16) (fall : Expr) :
    Succeeds (compileAdd (compileStmt st)) (enterCase (.label b 0) fall c').2.2 fun _ o _ =>
      ∀ exits post fallen, ExitsAt w prog c exits → (machine w).find b prog = some post →
        Leads w prog fall (some fallen) →
        (machine w).Simulates prog (observer w n) turns ⟨some post, exits.cont, some fallen⟩ o
          (st.outcome w turns) := by
  have hc' := hc.step hs
  have hready : Ready n results (enterCase (.label b 0) fall c').2.2 := ⟨hc'.vars, hc'.results⟩
  refine (hst _ hready).mono fun _ o _ hsim exits post fallen hexits hpost hfall => ?_
  refine hsim _ ⟨fun l hl => ?_, (hexits.step hs).cont, fun l hl => ?_⟩
  · cases hl
    exact leads_of_find hpost
  · cases hl
    exact hfall

theorem caseTest_code (hunique : (machine w).Unique prog) {k : Kind} (hk : k.isScalar) {id : Nat}
    {isLast : Bool} {labels : CaseLabels} {op : OpStmt2} {e next : Expr}
    (hop : op = .default ∨ e.usable n ∧ e.valueKind = k ∧ (outline e).type.isExpr)
    (hfall : IsTaken labels.fall) (hdflt : IsTaken labels.dflt) (hnext : ∃ i, next = .label i 0)
    {c : Compiler} (hc : n ≤ bound c) (hid : id < bound c) :
    Succeeds (compileCaseTest (.var k id) next isLast labels op e) c fun r test _ =>
      IsTaken r.1 ∧ IsTaken r.2 ∧ (labels.fall.isValid → r.1 = labels.fall) ∧
      (op ≠ .default → r.2 = labels.dflt ∧ Selects w prog n test k id next e) ∧
      (op = .default → if isLast then test = [] ∧ r.2 = labels.dflt
        else test = [.goto next] ∧ r.2 = r.1 ∧ r.1.isValid) := by
  unfold compileCaseTest
  by_cases hdefault : op = .default
  · rw [if_pos hdefault]
    cases isLast with
    | true => exact .pure ⟨hfall, hdflt, fun _ => rfl, fun h => absurd hdefault h, fun _ => ⟨rfl, rfl⟩⟩
    | false =>
      refine .emits rfl (newLabelOr_then (fun _ => grows_basic.pure _) fun l c' _ hl => .pure ?_)
      have hvalid : IsTaken l ∧ l.isValid ∧ (labels.fall.isValid → l = labels.fall) := by
        cases hv : labels.fall.isValid with
        | true =>
          rw [hv] at hl
          obtain rfl := hl
          exact ⟨hfall, hv, fun _ => rfl⟩
        | false =>
          rw [hv] at hl
          obtain ⟨i, rfl⟩ := hl
          exact ⟨.inr ⟨i, rfl⟩, rfl, nofun⟩
      exact ⟨hvalid.1, hvalid.1, hvalid.2.2, fun h => absurd hdefault h,
        fun _ => ⟨rfl, rfl, hvalid.2.1⟩⟩
  · rw [if_neg hdefault]
    obtain ⟨husable, hkind, hexpr⟩ := hop.resolve_left hdefault
    refine (caseTest_succeeds hunique hk husable hkind hexpr hc hid hnext).bind
      (fun _ => grows_basic.pure _) fun _ test _ hselects => .pure ?_
    rw [List.append_nil]
    exact ⟨hfall, hdflt, fun _ => rfl, fun _ => ⟨rfl, hselects⟩, fun h => absurd h hdefault⟩

/-- One turn of the loop of `compile(Switch)`. -/
theorem case_succeeds (hunique : (machine w).Unique prog) {k : Kind} (hk : k.isScalar) {id : Nat}
    {b : BitVec 16} {isLast : Bool} {labels : CaseLabels} {op : OpStmt2} {e : Expr} {body : Stmt}
    (hop : op = .default ∨ e.usable n ∧ e.valueKind = k ∧ (outline e).type.isExpr)
    (hbody : Simulated w prog turns n results body) (hthis : IsTaken labels.this)
    (hfall : IsTaken labels.fall) (hdflt : IsTaken labels.dflt) {c c' : Compiler}
    (hc : Ready n results c) (hs : Steady c c') (hid : id < bound c') :
    Succeeds (compileCase (.var k id) (.label b 0) isLast labels op e (compileStmt body)) c'
      fun labels' o _ => ∃ fall test piece,
        CaseCode w prog turns n c k id b isLast labels labels' op e (body.outcome w turns) fall test
          piece ∧ o = placed labels.this ++ (test ++ (placed fall ++
            (piece ++ if isLast then [] else [.goto (.label b 0)]))) := by
  have hbodyGrows : ∀ fall labels, Respects Grows (enterCase (.label b 0) fall >>= fun _ =>
      compileAdd (compileStmt body) >>= fun _ => caseEnd (.label b 0) isLast labels) :=
    fun fall labels => grows_basic.bind (enterCase_grows _ _) fun _ =>
      grows_basic.bind (compileAdd_grows body) fun _ => caseEnd_grows _ _ _
  have hgrow : ∀ next fall, Respects Grows (takeIf labels.this.isValid (add (.expr labels.this)) >>=
      fun _ => compileCaseTest (.var k id) next isLast labels op e >>= fun r =>
      takeIf r.1.isValid (add (.expr r.1)) >>= fun _ => enterCase (.label b 0) fall >>= fun _ =>
      compileAdd (compileStmt body) >>= fun _ =>
        caseEnd (.label b 0) isLast ⟨next, fall, r.2⟩) := fun next fall =>
    grows_basic.bind (grows_basic.takeIf _ (grows_basic.add _)) fun _ =>
      grows_basic.bind (grows_basic.compileCaseTest _ _ _ _ _ _) fun _ =>
      grows_basic.bind (grows_basic.takeIf _ (grows_basic.add _)) fun _ => hbodyGrows _ _
  rw [compileCase_eq]
  refine newLabelOr_then (fun _ => grows_basic.bind (grows_basic.newLabelOr _ _) fun _ => hgrow _ _)
    fun next c₁ hs₁ hnext => newLabelOr_then (fun _ => hgrow _ _) fun fall c₂ hs₂ hnextFall => ?_
  have hs₂' := (hs.trans hs₁).trans hs₂
  have hlabel : ∃ i, next = .label i 0 := by
    cases isLast with
    | true =>
      obtain rfl := hnext
      split
      · next hvalid => exact hdflt.label hvalid
      · exact ⟨b, rfl⟩
    | false => exact hnext
  have hlabelFall : ∃ i, fall = .label i 0 := by
    cases isLast with
    | true => exact ⟨b, hnextFall⟩
    | false => exact hnextFall
  have hid' : id < bound c₂ :=
    hid.trans_le (Nat.add_le_add_right ((hs₁.trans hs₂).2.1) _)
  refine .emits (takeIf_place hthis c₂) ((caseTest_code hunique hk hop hfall hdflt hlabel
    (hc.step hs₂').vars hid').steady (steady_basic.compileCaseTest _ _ _ _ _ _) |>.bind
      (fun _ => grows_basic.bind (grows_basic.takeIf _ (grows_basic.add _)) fun _ => hbodyGrows _ _)
      ?_)
  rintro r test c₃ ⟨hs₃, htaken, htaken', hfalls, htested, hdefault⟩
  refine .emits (takeIf_place htaken c₃) (.silent rfl
    ((inCase_succeeds hbody hc (hs₂'.trans hs₃) b fall).bind (fun _ => caseEnd_grows _ _ _) ?_))
  intro _ piece c₄ hruns
  refine .silent rfl fun _ _ => ⟨r.1, test, piece, ⟨hlabel, hlabelFall, htaken', htaken, hfalls, ?_,
    htested, hdefault, hruns⟩, ?_⟩
  · intro hlast
    rw [hlast] at hnext hnextFall
    exact ⟨hnextFall, hnext⟩
  · cases isLast <;> rfl

variable (w prog turns n) in
/-- Where a `Switch` goes on when no case has the value. -/
def DefaultAt (exits : Exits Stmt) (post : List Stmt) (l : Expr) (dflt : State → StmtResult) :
    Prop :=
  if l.isValid then ∃ code, Leads w prog l (some code) ∧ ∀ s t, Same n s t →
    (machine w).Follows prog (observer w n) turns exits post (code, t) (dflt s)
  else dflt = .ends .normal

variable (w prog turns n) in
/-- The code of the cases from one on: their bodies from the label for `Fallthrough`, and their tests
from the label where the previous test goes on. -/
structure CasesFollow (exits : Exits Stmt) (post : List Stmt) (k : Kind) (id : Nat) (v : BitVec 64)
    (labels : CaseLabels) (cases rest : List Stmt) : Prop where
  falls : labels.fall.isValid → ∃ fallen, Leads w prog labels.fall (some fallen) ∧
    ∀ s t, Same n s t → (machine w).Follows prog (observer w n) turns exits post (fallen, t)
      (outcomeBodies w turns cases s)
  tests : ∀ dflt, DefaultAt w prog turns n exits post labels.dflt dflt → ∃ entry,
    (if labels.this.isValid then Leads w prog labels.this (some entry) else entry = rest) ∧
    ∀ s t, Holds n k id v s t → (machine w).Follows prog (observer w n) turns exits post (entry, t)
      (outcomeCases w turns v dflt cases s)

theorem placed_reaches {l : Expr} (hl : IsTaken l) (rest : List Stmt) (t : State) :
    (machine w).Reaches prog 0 (placed l ++ rest, t) (rest, t) := by
  obtain rfl | ⟨i, rfl⟩ := hl
  · exact .refl _
  · exact (Machine.Reaches.fall ((marks_label i 0).2 t)).mono (Nat.zero_le _)

theorem leads_placed (hunique : (machine w).Unique prog) {l : Expr} (hl : IsTaken l)
    (hvalid : l.isValid) {rest : List Stmt} (hsuffix : placed l ++ rest <:+ prog) :
    Leads w prog l (some rest) := by
  obtain ⟨i, rfl⟩ := hl.label hvalid
  exact leads_of_find ((marks_label (w := w) i 0).find hunique hsuffix)

section Cases

variable {exits : Exits Stmt} {post : List Stmt} {k : Kind} {id : Nat} {v : BitVec 64}
  {b : BitVec 16} {labels labels' : CaseLabels}

/-- Behind the last case is the end, to which `Fallthrough` goes, and `Default` or the end. -/
theorem casesFollow_nil (hunique : (machine w).Unique prog)
    (hsuffix : .expr (.label b 0) :: post <:+ prog)
    (hfall : labels.fall.isValid → labels.fall = .label b 0)
    (hthis : if labels.this.isValid
      then labels.this = if labels.dflt.isValid then labels.dflt else .label b 0
      else labels.dflt.isValid = false) :
    CasesFollow w prog turns n exits post k id v labels [] (.expr (.label b 0) :: post) := by
  have hend := leads_of_find ((marks_label (w := w) b 0).find hunique hsuffix)
  constructor
  · intro hvalid
    rw [hfall hvalid]
    refine ⟨post, hend, fun s t hst => ?_⟩
    rw [outcomeBodies]
    · exact ⟨t, hst, .refl _⟩
    · nofun
  · intro dflt hdflt
    have houtcome : outcomeCases w turns v dflt [] = dflt := by
      rw [outcomeCases] <;> nofun
    rw [houtcome]
    rw [DefaultAt] at hdflt
    cases hvalid : labels.this.isValid with
    | true =>
      rw [hvalid, if_pos rfl] at hthis
      cases hd : labels.dflt.isValid with
      | true =>
        rw [hd, if_pos rfl] at hthis hdflt
        obtain ⟨code, hcode, hfollows⟩ := hdflt
        exact ⟨code, hthis ▸ hcode, fun s t hst => hfollows s t hst.1⟩
      | false =>
        rw [hd, if_neg Bool.false_ne_true] at hthis hdflt
        rw [hthis, hdflt]
        exact ⟨post, hend, fun s t hst => ⟨t, hst.1, .refl _⟩⟩
    | false =>
      rw [hvalid, if_neg Bool.false_ne_true] at hthis
      rw [hthis, if_neg Bool.false_ne_true] at hdflt
      rw [hdflt]
      refine ⟨_, rfl, fun s t hst => ⟨t, hst.1, ?_⟩⟩
      exact (Machine.Reaches.fall ((marks_label b 0).2 t)).mono (Nat.zero_le _)

theorem casesFollow_cons (hunique : (machine w).Unique prog) {c : Compiler} {op : OpStmt2}
    {e body : Stmt} {cases rest test piece : List Stmt} {fall : Expr}
    (hcode : CaseCode w prog turns n c k id b cases.isEmpty labels labels' op e.toExpr
      (body.outcome w turns) fall test piece)
    (hthis : IsTaken labels.this) (hexits : ExitsAt w prog c exits)
    (hsuffix : placed labels.this ++ (test ++ (placed fall ++ (piece ++
      ((if cases.isEmpty then [] else [.goto (.label b 0)]) ++ rest)))) <:+ prog)
    (hend : (machine w).find b prog = some post)
    (hrest : cases.isEmpty → rest = .expr (.label b 0) :: post)
    (ih : CasesFollow w prog turns n exits post k id v labels' cases rest) :
    CasesFollow w prog turns n exits post k id v labels (.stmt2 op e body :: cases)
      (placed labels.this ++ (test ++ (placed fall ++ (piece ++
        ((if cases.isEmpty then [] else [.goto (.label b 0)]) ++ rest))))) := by
  obtain ⟨i, hnext⟩ := hcode.next
  obtain ⟨j, hnextFall⟩ := hcode.nextFall
  obtain ⟨fallen, hfallen, hbodies⟩ := ih.falls (hnextFall ▸ rfl)
  generalize hmidEq : (if cases.isEmpty then [] else [Stmt.goto (.label b 0)]) ++ rest = mid
    at hsuffix ⊢
  have htest := (List.suffix_append (placed labels.this) _).trans hsuffix
  have hplaced := (List.suffix_append test _).trans htest
  have hpiece := (List.suffix_append (placed fall) _).trans hplaced
  have hmid : ∀ t, (machine w).Reaches prog 0 (mid, t) (post, t) := by
    intro t
    rw [← hmidEq]
    cases hlast : cases.isEmpty with
    | true =>
      rw [hrest hlast]
      exact (Machine.Reaches.fall ((marks_label b 0).2 t)).mono (Nat.zero_le _)
    | false => exact (Machine.Reaches.jump (jumps_goto b 0 t) hend).mono (Nat.zero_le _)
  -- the body, from which the switch is left or the next body is entered
  have hbody : ∀ s t, Same n s t → (machine w).Follows prog (observer w n) turns exits post
      (piece ++ mid, t) ((body.outcome w turns s).orFall (outcomeBodies w turns cases)) :=
    fun s t hst => (hcode.runs exits post fallen hexits hend hfallen mid hpiece s t hst).orFall
      hmid hbodies
  have henter : ∀ s t, Same n s t → (machine w).Follows prog (observer w n) turns exits post
      (placed fall ++ (piece ++ mid), t)
      ((body.outcome w turns s).orFall (outcomeBodies w turns cases)) :=
    fun s t hst => (hbody s t hst).after_zero (placed_reaches hcode.isTaken _ t)
  constructor
  · intro hvalid
    have hfall := hcode.falls hvalid
    refine ⟨piece ++ mid, ?_, fun s t hst => ?_⟩
    · rw [← hfall] at hvalid ⊢
      exact leads_placed hunique hcode.isTaken hvalid hplaced
    · rw [outcomeBodies]
      exact hbody s t hst
  · intro dflt hdflt
    refine ⟨test ++ (placed fall ++ (piece ++ mid)), ?_, fun s t hst => ?_⟩
    · cases hvalid : labels.this.isValid with
      | true =>
        rw [if_pos rfl]
        exact leads_placed hunique hthis hvalid hsuffix
      | false =>
        have hnil : placed labels.this = [] := by
          rw [placed, hvalid]
          rfl
        rw [if_neg Bool.false_ne_true, hnil]
        rfl
    · by_cases hop : op = .default
      · have hdefault := hcode.default hop
        subst hop
        rw [outcomeCases]
        cases hlast : cases.isEmpty with
        | true =>
          rw [hlast, if_pos rfl] at hdefault
          have hlast' : ∀ f, outcomeCases w turns v f cases = f := by
            intro f
            rw [List.isEmpty_iff.mp hlast, outcomeCases] <;> nofun
          rw [hlast', hdefault.1]
          exact henter s t hst.1
        | false =>
          rw [hlast, if_neg Bool.false_ne_true] at hdefault
          obtain ⟨htestEq, hlabel, hvalid⟩ := hdefault
          have hat : DefaultAt w prog turns n exits post labels'.dflt fun s =>
              (body.outcome w turns s).orFall (outcomeBodies w turns cases) := by
            rw [DefaultAt, hlabel, if_pos hvalid]
            exact ⟨_, leads_placed hunique hcode.isTaken hvalid hplaced, hbody⟩
          obtain ⟨entry, hentry, hfollows⟩ := ih.tests _ hat
          rw [hnext] at hentry
          obtain ⟨i', a, rest', hi, hfind, hrest'⟩ := hentry
          cases hi
          cases hrest'
          rw [htestEq, hnext]
          exact (hfollows s t hst).after_zero
            ((Machine.Reaches.jump (jumps_goto i 0 t) hfind).mono (Nat.zero_le _))
      · obtain ⟨hlabel, hselects⟩ := hcode.tested hop
        rw [← hlabel] at hdflt
        obtain ⟨entry, hentry, hfollows⟩ := ih.tests dflt hdflt
        rw [if_pos (by rw [hnext]; rfl)] at hentry
        have hruns := hselects _ htest entry hentry v s t hst
        rw [outcomeCases]
        rotate_left
        · exact hop
        dsimp only
        cases hequals : e.toExpr.equalsAt w v s with
        | none =>
          rw [hequals] at hruns
          exact hruns
        | some q =>
          obtain ⟨eq, s'⟩ := q
          rw [hequals] at hruns
          cases eq with
          | true =>
            obtain ⟨t', hst', hreach⟩ := hruns
            exact (henter s' t' hst'.1).after_zero hreach
          | false =>
            obtain ⟨t', hst', hreach⟩ := hruns
            exact (hfollows s' t' hst').after_zero hreach

theorem casesLowerRight_cons {op : OpStmt2} {e body : Stmt} {cases : List Stmt}
    (h : casesLowerRight n results k (.stmt2 op e body :: cases)) :
    (op = .default ∨ e.toExpr.usable n ∧ e.toExpr.valueKind = k ∧
      (outline e.toExpr).type.isExpr) ∧ body.lowersRight n results ∧
      casesLowerRight n results k cases := by
  simp only [casesLowerRight, Bool.and_eq_true, Bool.or_eq_true, beq_iff_eq] at h
  exact ⟨h.1.1.imp_right fun h => ⟨h.1.1, h.1.2, h.2⟩, h.1.2, h.2⟩

/-- The loop of `compile(Switch)`. -/
theorem cases_succeeds (hunique : (machine w).Unique prog) (hk : k.isScalar) {cases : List Stmt}
    (hshape : ∀ st ∈ cases, ∃ op e body, st = .stmt2 op e body)
    (hright : casesLowerRight n results k cases)
    (hall : ∀ op e body, .stmt2 op e body ∈ cases → body.lowersRight n results →
      Simulated w prog turns n results body)
    (hthis : IsTaken labels.this) (hfall : IsTaken labels.fall) (hdflt : IsTaken labels.dflt)
    (hnil : cases = [] → (labels.fall.isValid → labels.fall = .label b 0) ∧
      if labels.this.isValid
      then labels.this = if labels.dflt.isValid then labels.dflt else .label b 0
      else labels.dflt.isValid = false)
    {c c' : Compiler} (hc : Ready n results c) (hs : Steady c c') (hid : id < bound c') :
    Succeeds (compileCases (.var k id) (.label b 0) labels cases) c' fun _ o _ =>
      (cases = [] → o = []) ∧ ∀ exits post v, ExitsAt w prog c exits →
        o ++ .expr (.label b 0) :: post <:+ prog →
        CasesFollow w prog turns n exits post k id v labels cases
          (o ++ .expr (.label b 0) :: post) := by
  induction cases generalizing labels c' with
  | nil =>
    have hempty : compileCases (.var k id) (.label b 0) labels [] = Pure.pure () := by
      rw [compileCases]
      intros; contradiction
    rw [hempty]
    obtain ⟨hlabel, hentry⟩ := hnil rfl
    exact .pure ⟨fun _ => rfl, fun exits post v _ hsuffix =>
      casesFollow_nil hunique hsuffix hlabel hentry⟩
  | cons st cases ih =>
    rw [List.forall_mem_cons] at hshape
    obtain ⟨⟨op, e, body, rfl⟩, hshape⟩ := hshape
    obtain ⟨hop, hbody, hrest⟩ := casesLowerRight_cons hright
    have hsim := hall op e body List.mem_cons_self hbody
    rw [compileCases]
    refine ((case_succeeds hunique hk hop hsim hthis hfall hdflt hc hs hid).steady
      (steady_basic.compileCase _ _ _ _ _ _ (steady_basic.compileStmts.1 body))).bind
      (fun _ => grows_basic.compileStmts.2.2.1 _ _ _ _) ?_
    rintro labels' o c₁ ⟨hs₁, fall, test, piece, hcode, ho⟩
    have hnext := hcode.next
    have hnextFall := hcode.nextFall
    have hlast : cases = [] → (labels'.fall.isValid → labels'.fall = .label b 0) ∧
        if labels'.this.isValid
        then labels'.this = if labels'.dflt.isValid then labels'.dflt else .label b 0
        else labels'.dflt.isValid = false := by
      intro hcases
      subst hcases
      obtain ⟨hlabel, hentry⟩ := hcode.last rfl
      obtain ⟨i, hi⟩ := hnext
      have hsame : labels'.dflt = labels.dflt := by
        by_cases hdefault : op = .default
        · exact (hcode.default hdefault).2
        · exact (hcode.tested hdefault).1
      refine ⟨fun _ => hlabel, ?_⟩
      rw [if_pos (by rw [hi]; rfl), hsame]
      exact hentry
    refine (ih hshape hrest (fun op e body hmem => hall op e body (List.mem_cons_of_mem _ hmem))
      (.inr hnext) (.inr hnextFall) hcode.dflt hlast (hs.trans hs₁)
      (hid.trans_le (Nat.add_le_add_right hs₁.2.1 _))).mono ?_
    rintro _ o' c₂ ⟨hempty, hfollow⟩
    refine ⟨fun h => (by cases h), fun exits post v hexits hsuffix => ?_⟩
    have hparts : (o ++ o') ++ .expr (.label b 0) :: post =
        placed labels.this ++ (test ++ (placed fall ++ (piece ++
          ((if cases.isEmpty then [] else [.goto (.label b 0)]) ++
            (o' ++ .expr (.label b 0) :: post))))) := by
      rw [ho]
      simp only [List.append_assoc]
    have hlater : o' ++ .expr (.label b 0) :: post <:+ prog := by
      rw [List.append_assoc] at hsuffix
      exact (List.suffix_append o _).trans hsuffix
    have hend := (marks_label (w := w) b 0).find hunique ((List.suffix_append o' _).trans hlater)
    rw [hparts] at hsuffix ⊢
    refine casesFollow_cons hunique hcode hthis hexits hsuffix hend (fun h => ?_)
      (hfollow exits post v hexits hlater)
    rw [hempty (List.isEmpty_iff.mp h)]
    rfl

end Cases

theorem toVar_kind (e : Expr) (comp : CompileM Compiled) :
    Returns (fun x => x.isVar → ∃ id, x = .var e.kind id) (toVar e comp) := by
  unfold toVar
  refine Returns.ite _ (fun hvar => .pure fun _ => ?_) fun _ => Returns.ite _ (fun _ => ?_)
    fun _ => .pure nofun
  · cases e with
    | var k id => exact ⟨id, rfl⟩
    | _ => cases hvar
  · have hnew : Returns (fun x => x.isVar → ∃ id, x = .var e.kind id) (newVar e.kind) := by
      intro c hvar
      unfold newVar at hvar ⊢
      dsimp only at hvar ⊢
      split
      · exact ⟨_, rfl⟩
      · next h =>
        rw [if_neg h] at hvar
        cases hvar
    exact hnew.bind fun x hx => Returns.bind_const fun _ => .pure hx

/-- The variable that holds the expression of a `Switch`. -/
theorem scrutinee_succeeds (hunique : (machine w).Unique prog) {e : Expr} (he : e.isCopied n)
    {c : Compiler} (hc : n ≤ bound c) : Succeeds (toVar e (compileExpr e)) c fun x o c' =>
      ∃ id, x = .var e.valueKind id ∧ id < bound c' ∧ ∀ post, o ++ post <:+ prog → ∀ s t,
        Same n s t → match e.runAt w s with
          | some (v, h') => ∃ t', Holds n e.valueKind id v { s with heap := h' } t' ∧
            (machine w).Reaches prog 0 (o ++ post, t) (post, t')
          | .none => ∃ b, (observer w n).stuck b ∧
            (machine w).Reaches prog 0 (o ++ post, t) b := by
  rw [isCopied, Bool.and_eq_true, Bool.and_eq_true, beq_iff_eq] at he
  obtain ⟨husable, hkind, hscalar⟩ := he
  rw [usable, Bool.and_eq_true, Bool.and_eq_true] at husable
  obtain ⟨⟨hcomputes, htyped⟩, hbelow⟩ := husable
  have hcopies : copiesArg e := by
    rw [copiesArg, hkind, beq_self_eq_true, hscalar]
    exact Bool.or_true _
  have hmakes := arg_makes (w := w) (c := c) hcopies (varsBelow_mono hc e hbelow) fun c₁ hle =>
    compileExpr_makes e hcomputes htyped c₁ (varsBelow_mono (hc.trans hle) e hbelow)
  intro _ hroom
  have harg := hmakes hroom
  have hreturn := noReturn_toVar e (noReturn_compileExpr e) c
  obtain ⟨id, hid⟩ := toVar_kind e (compileExpr e) c harg.isVar
  change LoweredArg w (bound c) e (toVar e (compileExpr e) c).1
    (toVar e (compileExpr e) c).2.1.nodes (toVar e (compileExpr e) c).2.2 at harg
  generalize toVar e (compileExpr e) c = q at harg hreturn hid
  obtain ⟨x, o, c'⟩ := q
  dsimp only at harg hreturn hid ⊢
  subst hid
  rw [hkind] at harg
  refine ⟨id, by rw [hkind], of_decide_eq_true harg.below, fun post hpost s t hst => ?_⟩
  have hvalue := harg.value t
  rw [same_runAt hst hbelow] at hvalue
  cases hrun : runPiece w o.nodes t with
  | none =>
    rw [hrun] at hvalue
    rw [← hvalue]
    obtain ⟨st, rest, t', hmem, heffect, hreach⟩ :=
      Machine.stuck_of_forward hunique harg.emitted.closed hrun hpost
    exact ⟨(st :: rest, t'), ⟨st, rest, rfl, hreturn st hmem, heffect⟩, hreach⟩
  | some t' =>
    rw [hrun, Option.bind_some] at hvalue
    rw [← hvalue]
    obtain ⟨t'', rfl, hreach⟩ := Machine.runs_of_forward hunique hrun post hpost
    have hagree := (harg.emitted.keeps hrun).1
    exact ⟨t'', ⟨⟨hst.vars.trans (hagree.mono hc), rfl⟩, rfl⟩, hreach⟩

/-- A `Switch`. -/
theorem switch_performs (hunique : (machine w).Unique prog) {args : List Stmt}
    (hright : switchLowersRight n results args)
    (hall : ∀ op e body, .stmt2 op e body ∈ args → body.lowersRight n results →
      Simulated w prog turns n results body) :
    Performs w prog turns n results (compileSwitch args) (outcomeSwitch w turns args) := by
  intro c hc
  cases args with
  | nil =>
    refine newLabel_then (fun _ => grows_basic.add _) fun i c' _ _ _ exits _ => ?_
    refine (Machine.Simulates.nil.mark (marks_label i 0)).congr fun s => ?_
    rw [outcomeSwitch]
  | cons e cases =>
    rw [switchLowersRight, Bool.and_eq_true] at hright
    obtain ⟨hcopied, hcases⟩ := hright
    rw [compileSwitch]
    cases herr : switchError false cases with
    | some err => exact fun herrors => absurd herrors (List.cons_ne_nil _ _)
    | none =>
      have hshape := switchError_shape false cases herr
      have hscalar : e.toExpr.valueKind.isScalar := by
        rw [isCopied, Bool.and_eq_true, Bool.and_eq_true] at hcopied
        exact hcopied.2.2
      have hgrow : ∀ x brk, Respects Grows
          (compileCases x brk ⟨.none, .none, .none⟩ cases >>= fun _ => add (.expr brk)) :=
        fun x brk => grows_basic.bind (grows_basic.compileStmts.2.2.1 _ _ _ _) fun _ =>
          grows_basic.add _
      dsimp only
      unfold compileSwitchOn
      refine ((scrutinee_succeeds hunique hcopied hc.vars).steady
        (steady_basic.toVar _ (steady_basic.compileExpr _))).bind
        (fun _ => grows_basic.bind grows_basic.newLabel fun _ => hgrow _ _) ?_
      rintro x o c₁ ⟨hs₁, id, hx, hid, hscrutinee⟩
      subst hx
      refine newLabel_then (fun _ => hgrow _ _) fun b c₂ hs₂ => ?_
      have hnone : IsTaken .none := .inl rfl
      refine (cases_succeeds hunique hscalar hshape hcases
        (fun op e body hmem => hall op e body (List.mem_cons_of_mem _ hmem)) hnone hnone hnone
        (by exact fun _ => ⟨fun h => (by cases h), rfl⟩) hc (hs₁.trans hs₂)
        (hid.trans_le (Nat.add_le_add_right hs₂.2.1 _))).bind (fun _ => grows_basic.add _) ?_
      rintro _ o' c₃ ⟨_, hfollow⟩ _ _ exits hexits post hpost s t hst
      change (o ++ (o' ++ [Stmt.expr (.label b 0)])) ++ post <:+ prog at hpost
      change Machine.Follows _ _ _ _ _ _ ((o ++ (o' ++ [Stmt.expr (.label b 0)])) ++ post, t) _
      simp only [List.append_assoc, List.cons_append, List.nil_append] at hpost ⊢
      have hrun := hscrutinee _ hpost s t hst
      rw [outcomeSwitch]
      dsimp only
      cases hv : e.toExpr.runAt w s with
      | none =>
        rw [hv] at hrun
        exact hrun
      | some r =>
        obtain ⟨v, h'⟩ := r
        rw [hv] at hrun
        obtain ⟨t', hst', hreach⟩ := hrun
        obtain ⟨entry, rfl, htests⟩ := (hfollow exits post v hexits
          ((List.suffix_append o _).trans hpost)).tests (.ends .normal) rfl
        exact (htests _ t' hst').after_zero hreach

/-! ## Every statement -/

/-- Every statement but an expression is compiled to `VoidConst`. -/
theorem compileStmt_returnVoid {st : Stmt} (h : ∀ e, st ≠ .expr e) :
    ∃ m, compileStmt st = returnVoid m := by
  cases st with
  | expr e => exact absurd rfl (h e)
  | stmt0 | stmt1 | stmt2 => exact ⟨_, by rw [compileStmt]⟩
  | stmt3 op => cases op <;> exact ⟨_, by rw [compileStmt]; try (intros; contradiction)⟩
  | stmt4 op => cases op <;> exact ⟨_, by rw [compileStmt]; try (intros; contradiction)⟩
  | stmtN op => cases op <;> exact ⟨_, by rw [compileStmt] <;> try (intros; contradiction)⟩

/-- The statements of a `Block`, without what compiling them returns. -/
theorem block_performs (hunique : (machine w).Unique prog) {sts : List Stmt}
    (hright : blockLowersRight n results sts)
    (hall : ∀ st ∈ sts, st.lowersRight n results → Simulated w prog turns n results st) :
    Performs w prog turns n results (compileBlock sts) (outcomeBlock w turns sts) := by
  induction sts with
  | nil =>
    refine Performs.nothing.congr fun s => ?_
    rw [outcomeBlock]
  | cons st sts ih =>
    rw [List.forall_mem_cons] at hall
    have hgrow : Respects Grows (compileBlock sts) := grows_basic.compileStmts.2.2.2.2 sts
    have hseq : ∀ m : CompileM Unit, Respects (fun c _ c' => Steady c c') m →
        Performs w prog turns n results m (st.outcome w turns) → blockLowersRight n results sts →
        (compileStmt st >>= fun _ => compileBlock sts) = (m >>= fun _ => compileBlock sts) →
        Performs w prog turns n results (compileBlock (st :: sts))
          (outcomeBlock w turns (st :: sts)) := by
      intro m hsteady hm hrest heq
      rw [compileBlock, heq]
      refine (hm.seq hsteady (ih hrest hall.2) hgrow).congr fun s => ?_
      rw [outcomeBlock]
    by_cases hexpr : ∃ e, st = .expr e
    · obtain ⟨e, rfl⟩ := hexpr
      rw [blockLowersRight, Bool.and_eq_true, Bool.and_eq_true, Bool.not_eq_true'] at hright
      obtain ⟨⟨heval, htrap⟩, hrest⟩ := hright
      refine hseq _ ?_ (dropped_performs hunique heval htrap) hrest ?_
      · exact steady_basic.bind (steady_basic.compileStmts.1 _) fun _ => steady_basic.pure _
      · rw [CompileM.bind_assoc]
        rfl
    · have hne := not_exists.mp hexpr
      rw [blockLowersRight, Bool.and_eq_true] at hright
      rotate_left
      · exact hne
      refine hseq _ (compileAdd_steady st) (hall.1 hright.1) hright.2 ?_
      obtain ⟨m, hm⟩ := compileStmt_returnVoid hne
      rw [hm, compileAdd_returnVoid, returnVoid_then]

/-- Wherever the code of a statement that is lowered right stands, it does what the statement
does. -/
theorem compileStmt_simulates (hunique : (machine w).Unique prog) (hresults : IsResults n results)
    {st : Stmt} (hright : st.lowersRight n results) : Simulated w prog turns n results st := by
  have hboth : (st.lowersRight n results → Simulated w prog turns n results st) ∧
      ∀ op e body, st = .stmt2 op e body → body.lowersRight n results →
        Simulated w prog turns n results body := by
    clear hright
    induction st using Stmt.induct with
    | hexpr e => exact ⟨fun h => expr_performs hunique h, by intros; contradiction⟩
    | hstmt0 op =>
      refine ⟨fun _ => ?_, by intros; contradiction⟩
      rw [Simulated, compileStmt, compileAdd_returnVoid]
      exact stmt0_performs op
    | hstmt1 op dst =>
      refine ⟨fun h => ?_, by intros; contradiction⟩
      rw [lowersRight, Bool.and_eq_true, Bool.or_eq_true, beq_iff_eq, beq_iff_eq] at h
      rw [Simulated, compileStmt, compileAdd_returnVoid]
      obtain ⟨rfl | rfl, hdst⟩ := h
      · rw [Stmt.outcome]
        exact step_performs hdst fun _ => rfl
      · rw [Stmt.outcome]
        exact step_performs hdst fun _ => rfl
    | hstmt2 op a b _ ihb =>
      refine ⟨fun h => ?_, fun op' e body heq hbody => ?_⟩
      · rw [lowersRight, Bool.and_eq_true, Bool.and_eq_true] at h
        obtain ⟨⟨hop, hdst⟩, hsrc⟩ := h
        have hcompile : compileStmt2 op a b = compileAssign op a.toExpr b.toExpr
            (compileExpr a.toExpr >>= fun r => toPlace r.1) (compileExpr b.toExpr) := by
          cases op <;> first | rfl | cases hop
        rw [Simulated, compileStmt, compileAdd_returnVoid, hcompile]
        refine (assign_performs hunique hop hdst hsrc).congr fun s => ?_
        rw [Stmt.outcome]
        exact if_pos hop
      · cases heq
        exact ihb.1 hbody
    | hstmt3 op test thn els _ ihthn ihels =>
      refine ⟨fun h => ?_, by intros; contradiction⟩
      cases op with
      | if_ =>
        rw [lowersRight, Bool.and_eq_true, Bool.and_eq_true] at h
        rw [Simulated, compileStmt, compileAdd_returnVoid]
        exact if_performs hunique h.1.1 (ihthn.1 h.1.2) (ihels.1 h.2)
      | _ =>
        rw [lowersRight] at h
        · cases h
        all_goals (intros; contradiction)
    | hstmt4 op init test post body ihinit _ ihpost ihbody =>
      refine ⟨fun h => ?_, by intros; contradiction⟩
      cases op with
      | for_ =>
        rw [lowersRight, Bool.and_eq_true, Bool.and_eq_true, Bool.and_eq_true] at h
        rw [Simulated, compileStmt, compileAdd_returnVoid]
        exact for_performs hunique h.1.1.2 (ihinit.1 h.1.1.1) (ihpost.1 h.2) (ihbody.1 h.1.2)
      | _ =>
        rw [lowersRight] at h
        · cases h
        all_goals (intros; contradiction)
    | hstmtN op args ih =>
      refine ⟨fun h => ?_, by intros; contradiction⟩
      have hall := fun st hst => (ih st hst).1
      cases op with
      | block =>
        rw [lowersRight] at h
        rw [Simulated, compileStmt, compileAdd_returnVoid, Stmt.outcome]
        exact block_performs hunique h hall
      | cond =>
        rw [lowersRight] at h
        rw [Simulated, compileStmt, compileAdd_returnVoid, Stmt.outcome]
        exact cond_performs hunique h hall
      | «return» =>
        rw [lowersRight] at h
        rw [Simulated, compileStmt, compileAdd_returnVoid]
        exact return_performs hunique hresults h
      | switch =>
        rw [lowersRight] at h
        rw [Simulated, compileStmt, compileAdd_returnVoid, Stmt.outcome]
        exact switch_performs hunique h fun op e body hmem => (ih _ hmem).2 op e body rfl
      | _ =>
        rw [lowersRight] at h
        · cases h
        all_goals (intros; contradiction)
  exact hboth.1 hright

end Compiler

end OneJit
