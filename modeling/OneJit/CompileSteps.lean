import OneJit.CompileStmt

/-!
# What every step of the compiler keeps

A relation that the allocation of a variable or a label, an appended node and an error respect,
and that holds of the body of a loop or of a case together with the labels it is entered with, is
respected by every `compile`.
-/

namespace OneJit

namespace CompileM

open Compiler

variable {R : Compiler → Output → Compiler → Prop}

/-- The steps that all others are made of respect the relation. -/
structure Basic (R : Compiler → Output → Compiler → Prop) : Prop extends Sequential R where
  newVar : ∀ kind, Respects R (newVar kind)
  newLabel : Respects R newLabel
  add : ∀ node, Respects R (add node)
  error : ∀ node msg, Respects R (error node msg)
  inLoop : ∀ brk cont {m : CompileM Unit}, Respects R m → Respects R (do
    enterLoop brk cont
    m
    exitLoop)
  inCase : ∀ brk fall {m : CompileM Unit}, Respects R m → Respects R (do
    enterCase brk fall
    m
    exitCase)

theorem bind_assoc {α β γ : Type} (m : CompileM α) (f : α → CompileM β) (g : β → CompileM γ) :
    m >>= f >>= g = m >>= fun a => f a >>= g := by
  funext c
  rw [bind_run, bind_run, bind_run, bind_run, Output.append_assoc]

namespace Basic

variable {α : Type}

theorem and {R' : Compiler → Output → Compiler → Prop} (h : Basic R) (h' : Basic R') :
    Basic fun c o c' => R c o c' ∧ R' c o c' where
  refl c := ⟨h.refl c, h'.refl c⟩
  trans hr hr' := ⟨h.trans hr.1 hr'.1, h'.trans hr.2 hr'.2⟩
  newVar kind c := ⟨h.newVar kind c, h'.newVar kind c⟩
  newLabel c := ⟨h.newLabel c, h'.newLabel c⟩
  add node c := ⟨h.add node c, h'.add node c⟩
  error node msg c := ⟨h.error node msg c, h'.error node msg c⟩
  inLoop brk cont _ hm c :=
    ⟨h.inLoop brk cont (fun c => (hm c).1) c, h'.inLoop brk cont (fun c => (hm c).2) c⟩
  inCase brk fall _ hm c :=
    ⟨h.inCase brk fall (fun c => (hm c).1) c, h'.inCase brk fall (fun c => (hm c).2) c⟩

theorem ite (p : Prop) [Decidable p] {m m' : CompileM α} (hm : Respects R m)
    (hm' : Respects R m') : Respects R (if p then m else m') := by
  split
  · exact hm
  · exact hm'

theorem compileAssign (h : Basic R) (op : OpStmt2) (dst src : Expr) {place : CompileM Expr}
    {comp : CompileM Compiled} (hplace : Respects R place) (hcomp : Respects R comp) :
    Respects R (compileAssign op dst src place comp) := by
  refine h.bind hplace fun compDst => h.bind hcomp fun compSrc => ?_
  exact ite _ (h.add _) (h.add _)

theorem compileJumpIf (h : Basic R) (target : Expr) {comp : CompileM Compiled}
    (hcomp : Respects R comp) : Respects R (compileJumpIf target comp) := by
  refine h.bind hcomp fun test => ?_
  dsimp only
  split
  · exact ite _ (h.add _) (h.pure _)
  · exact h.add _

theorem toVar (h : Basic R) (e : Expr) {comp : CompileM Compiled} (hcomp : Respects R comp) :
    Respects R (toVar e comp) := by
  refine ite _ (h.pure _) (ite _ ?_ (h.pure _))
  refine h.bind (h.newVar _) fun v => h.bind ?_ fun _ => h.pure _
  exact h.compileAssign .assign v e (h.pure v) hcomp

theorem toVarMemConst (h : Basic R) (e : Expr) {comp : CompileM Compiled}
    (hcomp : Respects R comp) : Respects R (toVarMemConst e comp) := by
  unfold Compiler.toVarMemConst
  split <;> first
    | exact h.pure _
    | exact h.bind (h.toVar _ hcomp) fun _ => h.pure _

theorem toVarConst (h : Basic R) (e : Expr) {comp : CompileM Compiled}
    (hcomp : Respects R comp) : Respects R (toVarConst e comp) := by
  unfold Compiler.toVarConst
  split <;> first
    | exact h.pure _
    | exact h.toVar _ hcomp

variable {again : Expr → CompileM Compiled}

theorem simplifyBranch (h : Basic R) (hagain : ∀ e, Respects R (again e)) (decided : Expr)
    (test : Expr → Expr) (x y : Expr) :
    Respects R (simplifyBranch again decided test x y) := by
  have hassign : ∀ dst, Respects R (Compiler.compileAssign .assign dst y (pure dst) (again y)) :=
    fun dst => h.compileAssign .assign dst y (h.pure dst) (hagain y)
  have hlast : ∀ dst label, Respects R (do
      Compiler.compileAssign .assign dst y (pure dst) (again y)
      Compiler.add (.expr label)
      return dst) :=
    fun dst label => h.bind (hassign dst) fun _ => h.bind (h.add _) fun _ => h.pure _
  refine h.bind (h.newVar _) fun dst => h.bind h.newLabel fun label => ?_
  dsimp only
  refine ite _ ?_ ?_
  · exact h.bind (h.add _) fun _ =>
      h.bind (h.compileJumpIf label (hagain (test x))) fun _ => hlast dst label
  · exact h.bind (h.add _) fun _ =>
      h.bind (h.compileJumpIf label (hagain (test dst))) fun _ => hlast dst label

theorem simplifyBoolean (h : Basic R) (hagain : ∀ e, Respects R (again e)) (op : Op2)
    (x y : Expr) : Respects R (simplifyBoolean again op x y) := by
  unfold Compiler.simplifyBoolean
  split
  · unfold simplifyLand
    split
    · exact h.pure _
    · exact ite _ (h.pure _) (h.bind (h.add _) fun _ => h.pure _)
    · exact h.pure _
    · exact h.simplifyBranch hagain _ _ _ _
  · unfold simplifyLor
    split
    · exact h.pure _
    · exact ite _ (h.bind (h.add _) fun _ => h.pure _) (h.pure _)
    · exact h.pure _
    · exact h.simplifyBranch hagain _ _ _ _
  · exact h.pure _

/-- Compiling an expression, a list of children or of arguments. -/
theorem compileExprWith (h : Basic R) (hagain : ∀ e, Respects R (again e)) :
    (∀ e, Respects R (compileExprWith again e)) ∧
    (∀ args, Respects R (compileArgs again args)) ∧
    (∀ args, Respects R (compileChildren again args)) := by
  apply compileExprWith.mutual_induct
  case case1 =>
    intro k op x p hx
    exact h.bind hx fun _ => h.pure _
  case case2 =>
    intro k op x y p hx hy
    exact h.bind hx fun _ => h.bind hy fun _ =>
      h.bind (h.simplifyBoolean hagain _ _ _) fun _ => h.pure _
  case case3 =>
    intro k args p hargs
    exact h.bind hargs fun _ => h.pure _
  case case4 =>
    intro k fn address args p hvars
    rw [Compiler.compileExprWith, if_pos hvars]
    exact h.bind (h.pure _) fun _ => h.bind (h.newVar _) fun _ => h.bind (h.add _) fun _ => h.pure _
  case case5 =>
    intro k fn address args p hvars hargs
    rw [Compiler.compileExprWith, if_neg hvars]
    exact h.bind (hargs.map _) fun _ =>
      h.bind (h.newVar _) fun _ => h.bind (h.add _) fun _ => h.pure _
  case case6 =>
    intro k op args p hop hargs
    rw [Compiler.compileExprWith]
    · exact h.bind hargs fun _ => h.pure _
    · exact hop
  case case7 =>
    intro e hunary hbinary hmem hcall htuple
    rw [Compiler.compileExprWith]
    · exact h.pure _
    all_goals assumption
  case case8 => exact h.pure _
  case case9 =>
    intro x xs hx hxs
    exact h.bind (h.toVar x hx) fun _ => h.bind hxs fun _ => h.pure _
  case case10 => exact h.pure _
  case case11 =>
    intro xs hxs
    exact h.bind (h.error _ _) fun _ => h.bind hxs fun _ => h.pure _
  case case12 =>
    intro x xs hx hcomp hxs
    rw [Compiler.compileChildren]
    · exact h.bind hcomp fun _ => h.bind (h.toVarMemConst _ (hagain _)) fun _ =>
        h.bind hxs fun _ => h.pure _
    · exact hx

theorem compileExpr (h : Basic R) (e : Expr) : Respects R (compileExpr e) :=
  (h.compileExprWith fun _ => h.pure _).1 e

theorem toPlace (h : Basic R) (e : Expr) : Respects R (toPlace e) := by
  unfold Compiler.toPlace
  split
  · exact h.bind (h.compileExpr _) fun _ =>
      h.bind (h.toVarConst _ (h.compileExpr _)) fun _ => h.pure _
  · exact h.pure _

theorem toPlaces (h : Basic R) (es : List Stmt) : Respects R (toPlaces es) := by
  induction es with
  | nil => exact h.pure _
  | cons e es ih => exact h.bind (h.toPlace _) fun _ => h.bind ih fun _ => h.pure _

theorem compileStmt0 (h : Basic R) (op : OpStmt0) : Respects R (compileStmt0 op) := by
  have hjump : ∀ (label : Expr) msg, Respects R
      (if label.isValid then Compiler.add (.goto label) else Compiler.error (.stmt0 op) msg) :=
    fun label msg => ite _ (h.add _) (h.error _ _)
  unfold Compiler.compileStmt0
  split
  · exact fun c => hjump (c.breaks.headD .none) _ c
  · exact fun c => hjump (c.continues.headD .none) _ c
  · exact fun c => hjump (c.fallthroughs.headD .none) _ c
  · exact h.error _ _

theorem compileAssignCall (h : Basic R) (args : List Stmt) :
    Respects R (compileAssignCall args) := by
  have hcall : ∀ call, Respects R (compileCall call) := by
    intro call
    unfold compileCall
    split
    · exact ite _ (h.pure _) (h.bind ((h.compileExprWith fun _ => h.pure _).2.1 _) fun _ => h.pure _)
    · exact h.pure _
  unfold Compiler.compileAssignCall
  split
  · exact h.add _
  · exact h.bind (hcall _) fun _ => ite _ (h.add _) (h.bind (h.toPlaces _) fun _ => h.add _)

theorem takeIf (h : Basic R) (b : Bool) {m : CompileM Unit} (hm : Respects R m) :
    Respects R (takeIf b m) :=
  ite _ hm (h.pure _)

theorem newLabelOr (h : Basic R) (b : Bool) (label : Expr) : Respects R (newLabelOr b label) :=
  ite _ h.newLabel (h.pure _)

theorem compileResults (h : Basic R) (st : Stmt) (results : List Expr) (children : List Stmt) :
    Respects R (compileResults st results children) := by
  induction results generalizing children with
  | nil => exact h.pure _
  | cons result results ih =>
    cases children with
    | nil => exact h.pure _
    | cons child children =>
      refine h.bind (h.takeIf _ (h.error _ _)) fun _ => h.bind (h.takeIf _ ?_) fun _ => ih _
      exact h.bind (h.compileExpr _) fun _ => h.add _

theorem compileReturn (h : Basic R) (children : List Stmt) :
    Respects R (compileReturn children) := by
  intro c
  have hreturn : Respects R (do
      if children.length ≠ c.results.length then
        Compiler.error (.stmtN .return children)
          "number of return values does not match function signature"
        Compiler.add (.stmtN .return children)
      else if usesFuncResults c.results children then Compiler.add (.stmtN .return children)
      else
        Compiler.compileResults (.stmtN .return children) c.results children
        Compiler.add (.stmtN .return (c.results.map .expr))) := by
    refine ite _ (h.bind (h.error _ _) fun _ => h.add _) (ite _ (h.add _) ?_)
    exact h.bind (h.compileResults _ _ _) fun _ => h.add _
  exact hreturn c

section Stmt

variable {test thn els init post body : CompileM Expr}

theorem compileAdd (h : Basic R) {comp : CompileM Expr} (hcomp : Respects R comp) :
    Respects R (compileAdd comp) :=
  h.bind hcomp fun _ => h.add _

theorem compileIf (h : Basic R) (haveElse : Bool) {test : CompileM Compiled}
    (htest : Respects R test) (hthn : Respects R thn) (hels : Respects R els) :
    Respects R (compileIf haveElse test thn els) := by
  refine h.bind htest fun test => ?_
  dsimp only
  split
  · exact ite _ (h.compileAdd hthn) (h.compileAdd hels)
  · refine h.bind h.newLabel fun elseLabel => h.bind (h.newLabelOr _ _) fun endifLabel => ?_
    refine h.bind (h.compileJumpIf _ (h.compileExpr _)) fun _ => ?_
    refine h.bind (h.compileAdd hthn) fun _ => h.bind (h.takeIf _ ?_) fun _ => h.add _
    exact h.bind (h.add _) fun _ => h.bind (h.add _) fun _ => h.compileAdd hels

theorem compileLoop (h : Basic R) (haveTest : Bool) (test : Expr) (hpost : Respects R post)
    (hbody : Respects R body) : Respects R (compileLoop haveTest test post body) := by
  have hinner : ∀ brk cont (rest : CompileM Unit), Respects R rest → Respects R (do
      enterLoop brk cont
      Compiler.compileAdd body
      Compiler.compileAdd post
      exitLoop
      rest) := by
    intro brk cont rest hrest
    have hloop := h.inLoop brk cont (h.bind (h.compileAdd hbody) fun _ => h.compileAdd hpost)
    have hseq := h.bind hloop fun _ => hrest
    rw [bind_assoc, bind_assoc] at hseq
    simpa only [bind_assoc] using hseq
  refine h.bind h.newLabel fun loop => h.bind (h.newLabelOr _ _) fun cont => ?_
  refine h.bind h.newLabel fun brk => h.bind (h.takeIf _ (h.add _)) fun _ => ?_
  refine h.bind (h.add _) fun _ => hinner brk cont _ (ite _ ?_ ?_)
  · exact h.bind (h.add _) fun _ =>
      h.bind (h.compileJumpIf _ (h.compileExpr _)) fun _ => h.add _
  · exact h.bind (h.add _) fun _ => h.add _

theorem compileFor (h : Basic R) (test : Expr) (hinit : Respects R init)
    (hpost : Respects R post) (hbody : Respects R body) :
    Respects R (compileFor test init post body) :=
  h.bind (h.compileAdd hinit) fun _ => h.takeIf _ (h.compileLoop _ test hpost hbody)

theorem compileCond (h : Basic R) (sts : List Stmt) {branches : Expr → CompileM Unit}
    (hbranches : ∀ last, Respects R (branches last)) : Respects R (compileCond sts branches) := by
  refine ite _ (h.pure _) (ite _ ?_ ?_)
  · exact h.bind (h.error _ _) fun _ => h.add _
  · exact h.bind h.newLabel hbranches

theorem compileBranch (h : Basic R) (last : Expr) (isLast : Bool) (test : Expr)
    (hbody : Respects R body) : Respects R (compileBranch last isLast test body) := by
  refine h.bind (h.newLabelOr _ _) fun next => ?_
  refine h.bind (h.compileJumpIf _ (h.compileExpr _)) fun _ => ?_
  exact h.bind (h.compileAdd hbody) fun _ => h.bind (h.takeIf _ (h.add _)) fun _ => h.add _

theorem compileSwitchOn (h : Basic R) (e : Expr) {cases : Expr → Expr → CompileM Unit}
    (hcases : ∀ expr brk, Respects R (cases expr brk)) :
    Respects R (compileSwitchOn e cases) :=
  h.bind (h.toVar _ (h.compileExpr _)) fun _ => h.bind h.newLabel fun _ =>
    h.bind (hcases _ _) fun _ => h.add _

theorem compileCaseTest (h : Basic R) (expr next : Expr) (isLast : Bool) (labels : CaseLabels)
    (op : OpStmt2) (e : Expr) :
    Respects R (compileCaseTest expr next isLast labels op e) := by
  refine ite _ (ite _ (h.pure _) ?_) ?_
  · exact h.bind (h.add _) fun _ => h.bind (h.newLabelOr _ _) fun _ => h.pure _
  · exact h.bind (h.compileJumpIf _ (h.compileExpr _)) fun _ => h.pure _

theorem compileCase (h : Basic R) (expr brk : Expr) (isLast : Bool) (labels : CaseLabels)
    (op : OpStmt2) (e : Expr) (hbody : Respects R body) :
    Respects R (compileCase expr brk isLast labels op e body) := by
  have hinner : ∀ fall (rest : CompileM CaseLabels), Respects R rest → Respects R (do
      enterCase brk fall
      Compiler.compileAdd body
      exitCase
      rest) := by
    intro fall rest hrest
    have hseq := h.bind (h.inCase brk fall (h.compileAdd hbody)) fun _ => hrest
    simpa only [bind_assoc] using hseq
  refine h.bind (h.newLabelOr _ _) fun next => h.bind (h.newLabelOr _ _) fun fall => ?_
  refine h.bind (h.takeIf _ (h.add _)) fun _ => h.bind (h.compileCaseTest _ _ _ _ _ _) fun _ => ?_
  refine h.bind (h.takeIf _ (h.add _)) fun _ => hinner fall _ ?_
  exact h.bind (h.takeIf _ (h.add _)) fun _ => h.pure _

theorem compileStmt2 (h : Basic R) (op : OpStmt2) (a b : Stmt) :
    Respects R (compileStmt2 op a b) := by
  unfold Compiler.compileStmt2
  split
  · exact h.bind (h.error _ _) fun _ => h.add _
  · exact h.bind (h.error _ _) fun _ => h.add _
  · exact h.compileJumpIf _ (h.compileExpr _)
  · refine ite _ (h.compileAssign _ _ _ ?_ (h.compileExpr _)) (h.add _)
    exact h.bind (h.compileExpr _) fun _ => h.toPlace _

theorem returnVoid (h : Basic R) {m : CompileM Unit} (hm : Respects R m) :
    Respects R (returnVoid m) :=
  h.bind hm fun _ => h.pure _

end Stmt

/-- Compiling a statement, the cases of a `Switch`, the branches of a `Cond` or a `Block`. -/
theorem compileStmts (h : Basic R) :
    (∀ st, Respects R (compileStmt st)) ∧
    (∀ args, Respects R (compileSwitch args)) ∧
    (∀ expr brk labels cases, Respects R (compileCases expr brk labels cases)) ∧
    (∀ last sts, Respects R (compileBranches last sts)) ∧
    (∀ sts, Respects R (compileBlock sts)) := by
  apply compileStmt.mutual_induct
  case case1 => exact h.returnVoid (h.error _ _)
  case case2 =>
    intro e he
    rw [compileStmt]
    · exact (h.compileExpr e).map _
    · exact he
  case case3 =>
    intro op
    exact h.returnVoid (h.compileStmt0 op)
  case case4 =>
    intro op arg
    exact h.returnVoid (h.bind (h.compileExpr arg) fun _ => h.add _)
  case case5 =>
    intro op a b
    exact h.returnVoid (h.compileStmt2 op a b)
  case case6 =>
    intro test thn els hthn hels
    exact h.returnVoid (h.compileIf _ (h.compileExpr _) hthn hels)
  case case8 =>
    intro init test post body hinit hpost hbody
    exact h.returnVoid (h.compileFor _ hinit hpost hbody)
  case case10 =>
    intro args
    exact h.returnVoid (h.compileAssignCall args)
  case case11 =>
    intro args hargs
    exact h.returnVoid hargs
  case case12 =>
    intro args hargs
    exact h.returnVoid (h.compileCond args hargs)
  case case13 =>
    intro args
    exact h.returnVoid (h.compileReturn args)
  case case14 =>
    intro args hargs
    exact h.returnVoid hargs
  case case7 | case9 | case15 =>
    intros
    rw [compileStmt]
    · exact h.returnVoid (h.add _)
    all_goals assumption
  case case16 => exact h.bind h.newLabel fun _ => h.add _
  case case17 =>
    intro e cases err herr
    rw [compileSwitch, herr]
    exact h.error _ _
  case case18 =>
    intro e cases herr hcases
    rw [compileSwitch, herr]
    exact h.compileSwitchOn _ hcases
  case case19 =>
    intro expr brk labels op e body cases hbody hcases
    exact h.bind (h.compileCase _ _ _ _ _ _ hbody) hcases
  case case21 =>
    intro last test body sts hbody hsts
    exact h.bind (h.compileBranch _ _ _ hbody) fun _ => hsts
  case case20 | case22 =>
    intros
    first
      | rw [compileCases]
        · exact h.pure _
        · assumption
      | rw [compileBranches]
        · exact h.pure _
        · assumption
  case case23 => exact h.pure _
  case case24 =>
    intro st sts hst hsts
    exact h.bind hst fun _ => hsts

end Basic

end CompileM

end OneJit
