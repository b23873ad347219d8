import OneJit.CompileShape

/-!
# Break, Continue and Fallthrough

The stacks of labels mirror the nesting of the statements: every statement leaves them as they
were, and a statement inside another one is compiled with the labels of the constructs around it
on top.
-/

namespace OneJit

open Compiler CompileM

/-! ## What a statement leaves unchanged -/

/-- The stacks and the results are the same. -/
structure SameStacks (c c' : Compiler) : Prop where
  breaks : c'.breaks = c.breaks
  continues : c'.continues = c.continues
  fallthroughs : c'.fallthroughs = c.fallthroughs
  results : c'.results = c.results

theorem SameStacks.refl (c : Compiler) : SameStacks c c := ⟨rfl, rfl, rfl, rfl⟩

theorem SameStacks.trans {c c' c'' : Compiler} (h : SameStacks c c') (h' : SameStacks c' c'') :
    SameStacks c c'' :=
  ⟨h'.breaks.trans h.breaks, h'.continues.trans h.continues,
    h'.fallthroughs.trans h.fallthroughs, h'.results.trans h.results⟩

theorem sameStacks_basic : Basic fun c _ c' => SameStacks c c' where
  refl := .refl
  trans := .trans
  newVar kind := by
    intro c
    unfold newVar
    dsimp only
    split <;> exact ⟨rfl, rfl, rfl, rfl⟩
  newLabel := by
    intro c
    rw [newLabel]
    split <;> exact ⟨rfl, rfl, rfl, rfl⟩
  add _ := .refl
  error _ _ := .refl
  inLoop brk cont m hm := by
    intro c
    have h := hm { c with breaks := brk :: c.breaks, continues := cont :: c.continues }
    rw [bind_run, bind_run]
    dsimp only [enterLoop, exitLoop]
    rw [h.breaks, h.continues]
    exact ⟨rfl, rfl, h.fallthroughs, h.results⟩
  inCase brk fall m hm := by
    intro c
    have h := hm { c with breaks := brk :: c.breaks, fallthroughs := fall :: c.fallthroughs }
    rw [bind_run, bind_run]
    dsimp only [enterCase, exitCase]
    rw [h.breaks, h.fallthroughs]
    exact ⟨rfl, h.continues, rfl, h.results⟩

/-- The function has at least as many labels as before. -/
def LabelsGrow (c : Compiler) (_ : Output) (c' : Compiler) : Prop := c.labels ≤ c'.labels

theorem labelsGrow_basic : Basic LabelsGrow where
  refl _ := Nat.le_refl _
  trans h h' := Nat.le_trans h h'
  newVar kind := by
    intro c
    unfold newVar
    dsimp only
    split <;> exact Nat.le_refl _
  newLabel := by
    intro c
    rw [newLabel]
    split
    · exact Nat.le_succ _
    · exact Nat.le_refl _
  add _ _ := Nat.le_refl _
  error _ _ _ := Nat.le_refl _
  inLoop brk cont m hm := by
    intro c
    have h := hm { c with breaks := brk :: c.breaks, continues := cont :: c.continues }
    rw [bind_run, bind_run]
    rw [LabelsGrow]
    dsimp only [enterLoop, exitLoop]
    split <;> exact h
  inCase brk fall m hm := by
    intro c
    have h := hm { c with breaks := brk :: c.breaks, fallthroughs := fall :: c.fallthroughs }
    rw [bind_run, bind_run]
    rw [LabelsGrow]
    dsimp only [enterCase, exitCase]
    split <;> exact h

/-- The stacks are the same, and there are at least as many labels. -/
def Restored (c c' : Compiler) : Prop := SameStacks c c' ∧ c.labels ≤ c'.labels

theorem restored_basic : Basic fun c _ c' => Restored c c' :=
  sameStacks_basic.and labelsGrow_basic

theorem Restored.trans {c c' c'' : Compiler} (h : Restored c c') (h' : Restored c' c'') :
    Restored c c'' :=
  ⟨h.1.trans h'.1, Nat.le_trans h.2 h'.2⟩

/-- The step `n` is taken in the state `c'` when `m` runs from `c`, between these outputs. -/
structure Within {α β : Type} (m : CompileM α) (c : Compiler) (n : CompileM β) (c' : Compiler)
    (pre post : Output) : Prop where
  output : (m c).2.1 = pre ++ (n c').2.1 ++ post
  labels : (n c').2.2.labels ≤ (m c).2.2.labels

namespace Within

variable {α β γ : Type} {m : CompileM α} {n : CompileM β} {c c' c'' : Compiler}
  {pre post pre' post' : Output}

theorem refl (m : CompileM α) (c : Compiler) : Within m c m c .empty .empty :=
  ⟨by rw [Output.empty_append, Output.append_empty], Nat.le_refl _⟩

theorem trans {k : CompileM γ} (h : Within m c n c' pre post) (h' : Within n c' k c'' pre' post') :
    Within m c k c'' (pre ++ pre') (post' ++ post) := by
  constructor
  · rw [h.output, h'.output]
    simp only [Output.append_assoc]
  · exact h'.labels.trans h.labels

/-- The first step of a sequence. -/
theorem bind_left {f : α → CompileM γ} (h : Within m c n c' pre post)
    (hf : ∀ a, Respects LabelsGrow (f a)) :
    Within (m >>= f) c n c' pre (post ++ (f (m c).1 (m c).2.2).2.1) := by
  constructor
  · rw [bind_run, h.output]
    simp only [Output.append_assoc]
  · exact h.labels.trans (hf _ _)

/-- A later step of a sequence. -/
theorem bind_right {f : α → CompileM γ} (h : Within (f (m c).1) (m c).2.2 n c' pre post) :
    Within (m >>= f) c n c' ((m c).2.1 ++ pre) post := by
  constructor
  · rw [bind_run, h.output]
    simp only [Output.append_assoc]
  · exact h.labels

/-- `bind_right` for what the outputs around the inner step are. -/
theorem seq {f : α → CompileM γ} {P : Output → Output → Prop}
    (h : ∃ pre post, Within (f (m c).1) (m c).2.2 n c' pre post ∧ P ((m c).2.1 ++ pre) post) :
    ∃ pre post, Within (m >>= f) c n c' pre post ∧ P pre post := by
  obtain ⟨pre, post, hwithin, hP⟩ := h
  exact ⟨_, post, hwithin.bind_right, hP⟩

theorem returnVoid {m : CompileM Unit} (h : Within m c n c' pre post) :
    Within (returnVoid m) c n c' pre post := by
  have hbind := h.bind_left (f := fun _ => (pure Expr.voidExpr : CompileM Expr))
    fun _ => labelsGrow_basic.pure _
  rwa [pure_run, Output.append_empty] at hbind

theorem compileAdd (comp : CompileM Expr) (c : Compiler) :
    Within (compileAdd comp) c comp c .empty (add (.expr (comp c).1) (comp c).2.2).2.1 := by
  have hbind := (refl comp c).bind_left (f := fun node => add (.expr node))
    fun _ => labelsGrow_basic.add _
  rwa [Output.empty_append] at hbind

end Within

/-! ## One level of nesting -/

/-- A statement with a hole for another one. -/
inductive Frame
  | block (before after : List Stmt)
  | thn (test other : Stmt)
  | els (test other : Stmt)
  | init (test post body : Stmt)
  | post (init test body : Stmt)
  | body (init test post : Stmt)
  | branch (before : List Stmt) (test : Stmt) (after : List Stmt)
  | case (scrutinee : Stmt) (before : List Stmt) (op : OpStmt2) (value : Stmt) (after : List Stmt)

namespace Frame

/-- The compiler gets to the statement in the hole: constant tests and malformed statements keep it
from some. -/
def Compiled (f : Frame) : Prop :=
  match f with
  | block _ _ | init _ _ _ => True
  | thn test _ => ∀ v, Expr.constantOf test.toExpr = some v → v.toBool
  | els test _ => ∀ v, Expr.constantOf test.toExpr = some v → v.toBool = false
  | post _ test _ | body _ test _ => (test.toExpr.isConst && loopHasTest test.toExpr) = false
  | branch before _ after => before.length % 2 = 0 ∧ after.length % 2 = 0
  | case _ before op value after =>
    switchError false (before ++ .stmt2 op value (.stmt0 .bad) :: after) = none

end Frame

/-- The step `n` is taken somewhere in `m`, in a state with the same stacks. -/
def Reaches {α β : Type} (m : CompileM α) (c : Compiler) (n : CompileM β) : Prop :=
  ∃ c' pre post, Within m c n c' pre post ∧ Restored c c'

namespace Reaches

variable {α β γ : Type} {m : CompileM α} {n : CompileM β} {c : Compiler}

theorem refl (m : CompileM α) (c : Compiler) : Reaches m c m := ⟨c, _, _, .refl m c, restored_basic.refl c⟩

theorem left {f : α → CompileM γ} (h : Reaches m c n) (hf : ∀ a, Respects LabelsGrow (f a)) :
    Reaches (m >>= f) c n := by
  obtain ⟨c', pre, post, hwithin, hsame⟩ := h
  exact ⟨c', _, _, hwithin.bind_left hf, hsame⟩

theorem right {f : α → CompileM γ} (hm : Respects (fun c _ c' => Restored c c') m)
    (h : Reaches (f (m c).1) (m c).2.2 n) : Reaches (m >>= f) c n := by
  obtain ⟨c', pre, post, hwithin, hsame⟩ := h
  exact ⟨c', _, _, hwithin.bind_right, (hm c).trans hsame⟩

theorem returnVoid {m : CompileM Unit} (h : Reaches m c n) : Reaches (returnVoid m) c n :=
  h.left fun _ => labelsGrow_basic.pure _

theorem compileAdd (comp : CompileM Expr) (c : Compiler) : Reaches (compileAdd comp) c comp :=
  (refl comp c).left fun _ => labelsGrow_basic.add _

end Reaches

section If

variable {thn els : CompileM Expr}

end If

/-- The label is valid, unless the labels of the function have run out. -/
def Taken (label : Expr) (c : Compiler) : Prop := label.isValid ∨ 0xFFFF < c.labels

theorem newLabel_output (c : Compiler) : (newLabel c).2.1 = .empty := by
  rw [newLabel]
  split <;> rfl

theorem Taken.grow {label : Expr} {c c' : Compiler} (h : Taken label c)
    (hgrow : c.labels ≤ c'.labels) : Taken label c' :=
  h.imp id fun h => h.trans_le hgrow

/-- What `compileLoop` emits after the body and the post statement. -/
def loopEnd (haveTest : Bool) (test loop cont brk : Expr) : CompileM Unit :=
  if haveTest then do
    add (.expr cont)
    compileJumpIf loop (compileExpr test)
    add (.expr brk)
  else do
    add (.goto loop)
    add (.expr brk)

theorem compileLoop_eq (haveTest : Bool) (test : Expr) (post body : CompileM Expr) :
    compileLoop haveTest test post body = newLabel >>= fun loop =>
      newLabelOr haveTest loop >>= fun cont => newLabel >>= fun brk =>
      takeIf haveTest (add (.goto cont)) >>= fun _ => add (.expr loop) >>= fun _ =>
      enterLoop brk cont >>= fun _ => (compileAdd body >>= fun _ => compileAdd post) >>= fun _ =>
      exitLoop >>= fun _ => loopEnd haveTest test loop cont brk := by
  simp only [bind_assoc]
  rfl

/-- What `compileCase` emits from its body on. -/
def caseEnd (brk : Expr) (isLast : Bool) (labels : CaseLabels) : CompileM CaseLabels :=
  exitCase >>= fun _ => takeIf (!isLast) (add (.goto brk)) >>= fun _ => pure labels

theorem compileCase_eq (expr brk : Expr) (isLast : Bool) (labels : CaseLabels) (op : OpStmt2)
    (e : Expr) (body : CompileM Expr) :
    compileCase expr brk isLast labels op e body =
      newLabelOr (!isLast) (if labels.dflt.isValid then labels.dflt else brk) >>= fun next =>
      newLabelOr (!isLast) brk >>= fun fall =>
      takeIf labels.this.isValid (add (.expr labels.this)) >>= fun _ =>
      compileCaseTest expr next isLast labels op e >>= fun r =>
      takeIf r.1.isValid (add (.expr r.1)) >>= fun _ => enterCase brk fall >>= fun _ =>
      compileAdd body >>= fun _ => caseEnd brk isLast ⟨next, fall, r.2⟩ :=
  rfl

/-- Where `Fallthrough` goes: to the next body, or out of the last case. -/
def FallPlaces (after : List Stmt) (brk fall : Expr) (post : List Stmt) : Prop :=
  match after with
  | .stmt2 _ _ next :: _ => fall.isValid →
    ∃ x y c, post = x ++ .expr fall :: (compileAdd (compileStmt next) c).2.1.nodes ++ y
  | _ => fall = brk

theorem FallPlaces.append {after : List Stmt} {brk fall : Expr} {post : List Stmt}
    (h : FallPlaces after brk fall post) (pre nodes : List Stmt) :
    FallPlaces after brk fall (pre ++ post ++ nodes) := by
  unfold FallPlaces at h ⊢
  split at h
  · intro hvalid
    obtain ⟨x, y, c, rfl⟩ := h hvalid
    refine ⟨pre ++ x, y ++ nodes, c, ?_⟩
    simp only [List.append_assoc, List.cons_append]
  · exact h

theorem switchError_shape (haveDefault : Bool) (cases : List Stmt)
    (h : switchError haveDefault cases = .none) :
    ∀ st ∈ cases, ∃ op e body, st = .stmt2 op e body := by
  fun_induction switchError haveDefault cases with
  | case1 => nofun
  | case2 haveDefault a b cases ih | case4 haveDefault a b cases hdefault ih =>
    rw [List.forall_mem_cons]
    exact ⟨⟨_, a, b, rfl⟩, ih h⟩
  | case3 | case5 => cases h

/-- `Break`, `Continue` or `Fallthrough`. -/
def OpStmt0.isJump : OpStmt0 → Bool
  | .brk | .cont | .fallthrough => true
  | _ => false

namespace Frame

/-- Where the construct around the hole places the label of a jump, from what its compilation in the
state `c` emits before and after the hole. -/
def Places (f : Frame) (op : OpStmt0) (label : Expr) (c : Compiler) (pre post : List Stmt) : Prop :=
  match op, f with
  | .brk, _ => ∃ x, post = x ++ [.expr label]
  | .cont, .post start test _ | .cont, .body start test _ =>
    if test.toExpr.isConst then
      ∃ y, pre = (compileAdd (compileStmt start) c).2.1.nodes ++ .expr label :: y
    else ∃ x loop brk c', post = x ++ .expr label ::
      (compileJumpIf loop (compileExpr test.toExpr) c').2.1.nodes ++ [.expr brk]
  | .fallthrough, .case _ _ _ _ (.stmt2 _ _ next :: _) =>
    ∃ x y c', post = x ++ .expr label :: (compileAdd (compileStmt next) c').2.1.nodes ++ y
  | .fallthrough, _ => ∃ x, post = x ++ [.expr label]
  | _, _ => False

end Frame

namespace Frame

end Frame

/-- The hole may be deeper. -/
theorem Frame.Places.inside {f : Frame} {op : OpStmt0} {label : Expr} {c : Compiler}
    {pre post : List Stmt} (h : f.Places op label c pre post) (pre' post' : List Stmt) :
    f.Places op label c (pre ++ pre') (post' ++ post) := by
  have hend : (∃ x, post = x ++ [.expr label]) → ∃ x, post' ++ post = x ++ [.expr label] := by
    intro ⟨x, hx⟩
    exact ⟨post' ++ x, by rw [hx, List.append_assoc]⟩
  have hcontinue : ∀ {start test : Stmt},
      (if test.toExpr.isConst then
        ∃ y, pre = (compileAdd (compileStmt start) c).2.1.nodes ++ .expr label :: y
      else ∃ x loop brk c', post = x ++ .expr label ::
        (compileJumpIf loop (compileExpr test.toExpr) c').2.1.nodes ++ [.expr brk]) →
      if test.toExpr.isConst then
        ∃ y, pre ++ pre' = (compileAdd (compileStmt start) c).2.1.nodes ++ .expr label :: y
      else ∃ x loop brk c', post' ++ post = x ++ .expr label ::
        (compileJumpIf loop (compileExpr test.toExpr) c').2.1.nodes ++ [.expr brk] := by
    intro start test h
    split at h
    · obtain ⟨y, rfl⟩ := h
      rw [if_pos ‹_›]
      exact ⟨y ++ pre', by rw [List.append_assoc, List.cons_append]⟩
    · obtain ⟨x, loop, brk, c', rfl⟩ := h
      rw [if_neg ‹_›]
      exact ⟨post' ++ x, loop, brk, c', by simp only [List.append_assoc]⟩
  unfold Frame.Places at h ⊢
  split at h
  · exact hend h
  · exact hcontinue h
  · exact hcontinue h
  · obtain ⟨x, y, c', rfl⟩ := h
    exact ⟨post' ++ x, y, c', by simp only [List.append_assoc]⟩
  · exact hend h
  · exact h.elim

end OneJit
