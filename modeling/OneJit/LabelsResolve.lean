import OneJit.CompileFunc
import OneJit.LabelPlacement

/-!
# Which jumps of a compiled function find their label

The labels of the input are placed where they are compiled on their own. A `Block` drops what its
statements return, so a label directly in it is lost.
-/

namespace OneJit

open Compiler CompileM Expr

namespace Stmt

/-- The label that compiling the statement returns. -/
def returned : Stmt → Option (BitVec 16)
  | expr e => labelOf e
  | _ => Option.none

mutual

/-- No logical operator in the statement has a label for its left operand. -/
def labelsApart : Stmt → Bool
  | expr e => e.labelsApart
  | stmt0 _ => true
  | stmt1 _ arg => arg.labelsApart
  | stmt2 _ a b => labelsApart a && labelsApart b
  | stmt3 _ a b c => labelsApart a && labelsApart b && labelsApart c
  | stmt4 _ a b c d => labelsApart a && labelsApart b && labelsApart c && labelsApart d
  | stmtN _ args => allLabelsApart args

def allLabelsApart : List Stmt → Bool
  | [] => true
  | st :: sts => labelsApart st && allLabelsApart sts

end

mutual

/-- The labels that compiling the statement places, and those that its jumps go to. -/
def layout : Stmt → Layout
  | stmt1 op arg => if (stmt1 op arg).isJump then .jump (labelOf arg) else .empty
  | stmt2 .jumpIf a b =>
    .jumpIf a.toLabel.labelIndex b.toExpr.mayDecide
  | stmt2 op a b => if op.isAssign then .empty else .jump (stmt2 op a b).target
  | stmt3 .if_ test thn els =>
    match constantOf test.toExpr with
    | some v =>
      if v.toBool then layout thn ++ .label thn.returned else layout els ++ .label els.returned
    | Option.none => (layout thn ++ .label thn.returned) ++ (layout els ++ .label els.returned)
  | stmt3 op a b c => .jump (stmt3 op a b c).target
  | stmt4 .for_ init test post body =>
    (layout init ++ .label init.returned) ++
      if test.toExpr.isConst && loopHasTest test.toExpr then .empty
      else (layout body ++ .label body.returned) ++ (layout post ++ .label post.returned)
  | stmtN .block args => layoutAll args
  | stmtN .cond args => if args.length % 2 = 1 then .empty else layoutBranches args
  | stmtN .switch args => layoutSwitch args
  | _ => .empty

def layoutAll : List Stmt → Layout
  | [] => .empty
  | st :: sts => layout st ++ layoutAll sts

def layoutBranches : List Stmt → Layout
  | _ :: body :: sts => (layout body ++ .label body.returned) ++ layoutBranches sts
  | _ => .empty

def layoutSwitch : List Stmt → Layout
  | [] => .empty
  | _ :: cases =>
    match switchError false cases with
    | some _ => .empty
    | Option.none => layoutCases cases

def layoutCases : List Stmt → Layout
  | stmt2 _ _ body :: cases => (layout body ++ .label body.returned) ++ layoutCases cases
  | _ => .empty

end

theorem toExpr_labelsApart {st : Stmt} (h : st.labelsApart) : st.toExpr.labelsApart := by
  cases st with
  | expr e => exact labelsApart_toExpr h
  | _ => rfl

end Stmt

namespace Lays

variable {α : Type} {known : BitVec 16 → Prop} {lay : Layout}

theorem takeIf {b : Bool} {m : CompileM Unit} (hm : b = true → Lays known m lay)
    (hb : b = false → lay = .empty) : Lays known (takeIf b m) lay := by
  cases b with
  | true => exact hm rfl
  | false =>
    rw [hb rfl]
    exact pure _

/-- What is compiled is appended. -/
theorem compileAdd {comp : CompileM Expr} {l : Option (BitVec 16)} (h : Lays known comp lay)
    (hl : Returns (fun e => e.labelIndex = l) comp) :
    Lays known (compileAdd comp) (lay ++ .label l) := by
  refine bind_of hl h fun e he => ?_
  have hplace : Lays known (add (.expr e)) (.label e.labelIndex) := place e
  rwa [he] at hplace

theorem goto {l : Expr} (hl : ∀ i, l.labelIndex = some i → known i) :
    Lays known (add (.goto l)) .empty :=
  jump rfl hl

/-- The same labels in another order. -/
theorem perm {m : CompileM α} {lay' : Layout} (h : Lays known m lay)
    (hplaced : ∀ i, lay'.placed.count i = lay.placed.count i) (htargets : lay.targets = lay'.targets)
    (hsure : lay.sure = lay'.sure) : Lays known m lay' :=
  h.congr hplaced (fun _ hi => htargets ▸ hi) fun _ hi => hsure ▸ hi

/-- The body of a loop, compiled with the labels of the loop on the stacks. -/
theorem inLoop {m : CompileM Unit} {brk cont : Expr} (h : Lays known m lay)
    (hbrk : ∀ i, brk.labelIndex = some i → known i)
    (hcont : ∀ i, cont.labelIndex = some i → known i) : Lays known (do
      enterLoop brk cont
      m
      exitLoop) lay := by
  intro c hc
  have hstacks : StacksIn known (enterLoop brk cont c).2.2 := by
    intro l hl i hi
    simp only [enterLoop, List.mem_append, List.mem_cons] at hl
    obtain ((rfl | hl) | rfl | hl) | hl := hl
    · exact hbrk i hi
    · exact hc l (by simp [hl]) i hi
    · exact hcont i hi
    · exact hc l (by simp [hl]) i hi
    · exact hc l (by simp [hl]) i hi
  obtain ⟨⟨hsame, hgrow⟩, hp, ht, hs⟩ := h _ hstacks
  have hout : ((exitLoop (m (enterLoop brk cont c).2.2).2.2).2.2 : Compiler) =
      { (m (enterLoop brk cont c).2.2).2.2 with breaks := c.breaks, continues := c.continues } := by
    rw [exitLoop, hsame.breaks, hsame.continues]
    rfl
  rw [bind_run, bind_run]
  dsimp only
  rw [hout]
  have hnodes : ∀ o : Output, (enterLoop brk cont c).2.1 ++ (o ++ (exitLoop (m (enterLoop brk cont c).2.2).2.2).2.1) = o := fun o => Output.append_empty o
  rw [hnodes]
  exact ⟨⟨⟨rfl, rfl, hsame.fallthroughs, hsame.results⟩, hgrow⟩, hp, ht, hs⟩

theorem inCase {m : CompileM Unit} {brk fall : Expr} (h : Lays known m lay)
    (hbrk : ∀ i, brk.labelIndex = some i → known i)
    (hfall : ∀ i, fall.labelIndex = some i → known i) : Lays known (do
      enterCase brk fall
      m
      exitCase) lay := by
  intro c hc
  have hstacks : StacksIn known (enterCase brk fall c).2.2 := by
    intro l hl i hi
    simp only [enterCase, List.mem_append, List.mem_cons] at hl
    obtain ((rfl | hl) | hl) | rfl | hl := hl
    · exact hbrk i hi
    · exact hc l (by simp [hl]) i hi
    · exact hc l (by simp [hl]) i hi
    · exact hfall i hi
    · exact hc l (by simp [hl]) i hi
  obtain ⟨⟨hsame, hgrow⟩, hp, ht, hs⟩ := h _ hstacks
  have hout : ((exitCase (m (enterCase brk fall c).2.2).2.2).2.2 : Compiler) =
      { (m (enterCase brk fall c).2.2).2.2 with
        breaks := c.breaks, fallthroughs := c.fallthroughs } := by
    rw [exitCase, hsame.breaks, hsame.fallthroughs]
    rfl
  rw [bind_run, bind_run]
  dsimp only
  rw [hout]
  have hnodes : ∀ o : Output, (enterCase brk fall c).2.1 ++ (o ++ (exitCase (m (enterCase brk fall c).2.2).2.2).2.1) = o := fun o => Output.append_empty o
  rw [hnodes]
  exact ⟨⟨⟨rfl, hsame.continues, rfl, hsame.results⟩, hgrow⟩, hp, ht, hs⟩

theorem newLabelOr_false {β : Type} (l : Expr) (f : Expr → CompileM β) :
    newLabelOr false l >>= f = f l := rfl

section Control

variable {thn els init post body : CompileM Expr} {lthn lels linit lpost lbody : Layout}

theorem compileIfElse (haveElse : Bool) {test : Expr} (htest : test.labelsApart)
    (hthn : ∀ known, Lays known (Compiler.compileAdd thn) lthn)
    (hels : ∀ known, Lays known (Compiler.compileAdd els) lels)
    (hnone : haveElse = false → lels = .empty) :
    Lays known (compileIfElse haveElse test thn els) (lthn ++ lels) := by
  have hjump : ∀ known l, (∀ i, l.labelIndex = some i → known i) →
      Lays known (Compiler.compileJumpIf l (Compiler.compileExpr (newUnary .not1 test))) .empty :=
    fun _ _ hl => compileJumpIf_known hl (compileExpr htest)
  refine newLabel_bind fun elseLabel => ?_
  cases haveElse with
  | false =>
    rw [hnone rfl, Layout.append_empty]
    rw [newLabelOr_false]
    refine (hjump _ _ fun _ => .inr).silent_then fun _ => ?_
    refine perm ((hthn _).bind fun _ => (pure _).silent_then fun _ => place _) ?_ ?_ ?_
    · intro i
      simp [Layout.label, Layout.labels, Nat.add_comm]
    · simp [Layout.label, Layout.labels]
    · simp [Layout.label, Layout.labels]
  | true =>
    refine newLabel_bind fun endifLabel => ?_
    refine (hjump _ _ fun _ hi => .inl (.inr hi)).silent_then fun _ => ?_
    refine perm ((hthn _).bind fun _ => bind ((goto fun _ => .inr).silent_then fun _ =>
      (place elseLabel).bind fun _ => hels _) fun _ => place endifLabel) ?_ ?_ ?_
    · intro i
      simp only [Layout.placed_append, Layout.label, Layout.labels, List.count_append]
      omega
    · simp [Layout.label, Layout.labels]
    · simp [Layout.label, Layout.labels]

theorem compileIf (haveElse : Bool) {test : Expr} (htest : test.labelsApart)
    (hthn : ∀ known, Lays known (Compiler.compileAdd thn) lthn)
    (hels : ∀ known, Lays known (Compiler.compileAdd els) lels)
    (hnone : haveElse = false → lels = .empty) :
    Lays known (compileIf haveElse (Compiler.compileExpr test) thn els)
      (match constantOf test with
        | some v => if v.toBool then lthn else lels
        | Option.none => lthn ++ lels) := by
  have hshape : Returns (fun r => HasShape test r.1 ∧ r.1.labelsApart) (Compiler.compileExpr test) :=
    fun c => ⟨compileExpr_shape test c, compileExpr_apart htest c⟩
  refine silent_then_of hshape (compileExpr htest) fun r hr => ?_
  rw [← hr.1.value]
  dsimp only
  split
  · next v p hconst =>
    rw [hconst]
    dsimp only [value?]
    split
    · exact hthn _
    · exact hels _
  · next hconst =>
    rw [value?_eq_none hconst]
    exact compileIfElse haveElse hr.2 hthn hels hnone

theorem compileLoop (haveTest : Bool) {test : Expr} (htest : test.labelsApart)
    (hpost : ∀ known, Lays known (Compiler.compileAdd post) lpost)
    (hbody : ∀ known, Lays known (Compiler.compileAdd body) lbody) :
    Lays known (compileLoop haveTest test post body) (lbody ++ lpost) := by
  have hinner : ∀ (known : BitVec 16 → Prop) (brk cont : Expr) (rest : CompileM Unit) lay,
      (∀ i, brk.labelIndex = some i → known i) → (∀ i, cont.labelIndex = some i → known i) →
      Lays known rest lay → Lays known (do
        enterLoop brk cont
        Compiler.compileAdd body
        Compiler.compileAdd post
        exitLoop
        rest) (lbody ++ lpost ++ lay) := by
    intro known brk cont rest lay hbrk hcont hrest
    have hloop := (inLoop ((hbody known).bind fun _ => hpost known) hbrk hcont).bind fun _ => hrest
    simpa only [bind_assoc] using hloop
  have hjump : ∀ known l, (∀ i, l.labelIndex = some i → known i) →
      Lays known (Compiler.compileJumpIf l (Compiler.compileExpr test)) .empty :=
    fun _ _ hl => compileJumpIf_known hl (compileExpr htest)
  refine newLabel_bind fun loop => ?_
  cases haveTest with
  | false =>
    rw [newLabelOr_false]
    refine newLabel_bind fun brk => (pure _).silent_then fun _ => ?_
    refine perm ((place loop).bind fun _ => hinner _ brk loop _ _ (fun _ => .inr)
      (fun _ hi => .inl (.inr hi)) ((goto fun _ hi => .inl (.inr hi)).silent_then fun _ =>
        place brk)) ?_ ?_ ?_
    · intro i
      simp only [Layout.placed_append, Layout.label, Layout.labels, List.count_append]
      omega
    · simp [Layout.label, Layout.labels]
    · simp [Layout.label, Layout.labels]
  | true =>
    refine newLabel_bind fun cont => newLabel_bind fun brk => ?_
    refine (goto fun _ hi => .inl (.inr hi)).silent_then fun _ => ?_
    refine perm ((place loop).bind fun _ => hinner _ brk cont _ _ (fun _ => .inr)
      (fun _ hi => .inl (.inr hi)) ((place cont).bind fun _ =>
        (hjump _ _ fun _ hi => .inl (.inl (.inr hi))).silent_then fun _ => place brk)) ?_ ?_ ?_
    · intro i
      simp only [Layout.placed_append, Layout.label, Layout.labels, List.count_append]
      omega
    · simp [Layout.label, Layout.labels]
    · simp [Layout.label, Layout.labels]

theorem compileFor {test : Expr} (htest : test.labelsApart)
    (hinit : Lays known (Compiler.compileAdd init) linit)
    (hpost : ∀ known, Lays known (Compiler.compileAdd post) lpost)
    (hbody : ∀ known, Lays known (Compiler.compileAdd body) lbody) :
    Lays known (compileFor test init post body)
      (linit ++ if test.isConst && loopHasTest test then .empty else lbody ++ lpost) := by
  refine hinit.bind fun _ => takeIf (fun h => ?_) fun h => ?_
  · rw [Bool.not_eq_true'] at h
    rw [h]
    exact compileLoop _ htest hpost hbody
  · rw [Bool.not_eq_false'] at h
    rw [if_pos h]

theorem compileBranch (last : Expr) (isLast : Bool) {test : Expr} (htest : test.labelsApart)
    (hbody : ∀ known, Lays known (Compiler.compileAdd body) lbody)
    (hlast : ∀ i, last.labelIndex = some i → known i) :
    Lays known (compileBranch last isLast test body)
      (lbody ++ if isLast then .label last.labelIndex else .empty) := by
  have hjump : ∀ known l, (∀ i, l.labelIndex = some i → known i) →
      Lays known (Compiler.compileJumpIf l (Compiler.compileExpr (newUnary .not1 test))) .empty :=
    fun _ _ hl => compileJumpIf_known hl (compileExpr htest)
  cases isLast with
  | true =>
    unfold Compiler.compileBranch
    rw [Bool.not_true, newLabelOr_false]
    refine (hjump _ _ hlast).silent_then fun _ => ?_
    exact (hbody _).bind fun _ => (pure _).silent_then fun _ => place last
  | false =>
    refine newLabel_bind fun next => (hjump _ _ fun _ => .inr).silent_then fun _ => ?_
    refine perm ((hbody _).bind fun _ => (goto fun i hi => .inl (hlast i hi)).silent_then fun _ =>
      place next) ?_ ?_ ?_
    · intro i
      simp [Layout.label, Layout.labels, Layout.empty, Nat.add_comm]
    · simp [Layout.label, Layout.labels]
    · simp [Layout.label, Layout.labels]

/-- The test of a case passes the label for `Fallthrough` on to the body, or takes one for it. -/
theorem compileCaseTest_bind {β : Type} (expr next : Expr) (isLast : Bool) (labels : CaseLabels)
    (op : OpStmt2) {e : Expr} {f : Expr × Expr → CompileM β} {known : BitVec 16 → Prop}
    (hexpr : expr.labelsApart) (he : e.labelsApart)
    (hnext : ∀ i, next.labelIndex = some i → known i)
    (hfall : ∀ i, labels.fall.labelIndex = some i → known i)
    (hdflt : ∀ i, labels.dflt.labelIndex = some i → known i)
    (hf : ∀ (known' : BitVec 16 → Prop) r, (∀ i, known i → known' i) →
      (∀ i, r.2.labelIndex = some i → known' i) →
      Lays known' (f r) (.label r.1.labelIndex ++ lay)) :
    Lays known (compileCaseTest expr next isLast labels op e >>= f)
      (.label labels.fall.labelIndex ++ lay) := by
  have hapart : (newBinary .neq expr e).labelsApart :=
    labelsApart_binary.mpr ⟨fun h => by cases h <;> contradiction, hexpr, he⟩
  unfold compileCaseTest
  by_cases hop : op = .default
  · rw [if_pos hop]
    cases isLast with
    | true => exact hf known (labels.fall, labels.dflt) (fun _ => id) hdflt
    | false =>
      rw [if_neg Bool.false_ne_true, CompileM.bind_assoc]
      refine (goto hnext).silent_then fun _ => ?_
      rw [CompileM.bind_assoc]
      cases hvalid : labels.fall.isValid with
      | true => exact hf known (labels.fall, labels.fall) (fun _ => id) hfall
      | false =>
        rw [labelIndex_of_invalid (by rw [hvalid]; exact Bool.false_ne_true)]
        exact newLabel_bind fun l => hf _ (l, l) (fun _ => .inl) fun _ => .inr
  · rw [if_neg hop, CompileM.bind_assoc]
    refine (compileJumpIf_known hnext (compileExpr hapart)).silent_then fun _ => ?_
    exact hf known (labels.fall, labels.dflt) (fun _ => id) hdflt

theorem addValid (l : Expr) :
    Lays known (Compiler.takeIf l.isValid (add (.expr l))) (.label l.labelIndex) := by
  refine takeIf (fun _ => place l) fun h => ?_
  rw [labelIndex_of_invalid (by rw [h]; exact Bool.false_ne_true)]
  rfl

/-- A case places the labels that the previous one took, and passes new ones on. -/
theorem compileCase_bind (expr brk : Expr) (isLast : Bool) (labels : CaseLabels) (op : OpStmt2)
    {e : Expr} {f : CaseLabels → CompileM Unit} {known : BitVec 16 → Prop}
    (hexpr : expr.labelsApart) (he : e.labelsApart)
    (hbody : ∀ known, Lays known (Compiler.compileAdd body) lbody)
    (hbrk : ∀ i, brk.labelIndex = some i → known i)
    (hfall : ∀ i, labels.fall.labelIndex = some i → known i)
    (hdflt : ∀ i, labels.dflt.labelIndex = some i → known i)
    (hf : ∀ (known' : BitVec 16 → Prop) labels', (∀ i, known i → known' i) →
      (∀ i, labels'.fall.labelIndex = some i → known' i) →
      (∀ i, labels'.dflt.labelIndex = some i → known' i) →
      Lays known' (f labels') (if isLast then lay
        else .label labels'.this.labelIndex ++ .label labels'.fall.labelIndex ++ lay)) :
    Lays known (compileCase expr brk isLast labels op e body >>= f)
      (.label labels.this.labelIndex ++ .label labels.fall.labelIndex ++ (lbody ++ lay)) := by
  have hrest : ∀ (known' : BitVec 16 → Prop) next fall, (∀ i, known i → known' i) →
      (∀ i, next.labelIndex = some i → known' i) → (∀ i, fall.labelIndex = some i → known' i) →
      Lays known' (Compiler.takeIf labels.this.isValid (add (.expr labels.this)) >>= fun _ =>
        compileCaseTest expr next isLast labels op e >>= fun r =>
        Compiler.takeIf r.1.isValid (add (.expr r.1)) >>= fun _ => (do
          enterCase brk fall
          Compiler.compileAdd body
          exitCase) >>= fun _ =>
        Compiler.takeIf (!isLast) (add (.goto brk)) >>= fun _ => f ⟨next, fall, r.2⟩)
      (.label labels.this.labelIndex ++ (.label labels.fall.labelIndex ++ (lbody ++
        if isLast then lay else .label next.labelIndex ++ .label fall.labelIndex ++ lay))) := by
    intro known' next fall hknown hnext hfall'
    refine (addValid _).bind fun _ => ?_
    refine compileCaseTest_bind expr next isLast labels op hexpr he hnext
      (fun i hi => hknown i (hfall i hi)) (fun i hi => hknown i (hdflt i hi)) ?_
    intro known'' r hknown' hr
    have hbrk' : ∀ i, brk.labelIndex = some i → known'' i :=
      fun i hi => hknown' i (hknown i (hbrk i hi))
    have hfall'' : ∀ i, fall.labelIndex = some i → known'' i := fun i hi => hknown' i (hfall' i hi)
    refine (addValid _).bind fun _ => (inCase (hbody known'') hbrk' hfall'').bind fun _ => ?_
    refine (takeIf (fun _ => goto hbrk') fun _ => rfl).silent_then fun _ => ?_
    exact hf known'' ⟨next, fall, r.2⟩ (fun i hi => hknown' i (hknown i hi)) hfall'' hr
  simp only [bind_assoc] at hrest
  simp only [compileCase_eq, bind_assoc, caseEnd]
  cases isLast with
  | true =>
    rw [Bool.not_true, newLabelOr_false, newLabelOr_false]
    refine (hrest known _ brk (fun _ => id) ?_ hbrk).perm ?_ ?_ ?_
    · split
      · exact hdflt
      · exact hbrk
    · intro i
      simp only [Layout.placed_append, Layout.label, Layout.labels, List.count_append, if_true]
      omega
    · simp [Layout.label, Layout.labels]
    · simp [Layout.label, Layout.labels]
  | false =>
    refine newLabel_bind fun next => newLabel_bind fun fall => ?_
    refine (hrest _ next fall (fun _ hi => .inl (.inl hi)) (fun _ hi => .inl (.inr hi))
      fun _ => .inr).perm ?_ ?_ ?_
    · intro i
      simp only [Layout.placed_append, Layout.label, Layout.labels, List.count_append, Bool.false_eq_true,
        if_false]
      omega
    · simp [Layout.label, Layout.labels]
    · simp [Layout.label, Layout.labels]

end Control

section Simple

theorem toPlace {e : Expr} (h : e.labelsApart) : Lays known (toPlace e) .empty := by
  unfold Compiler.toPlace
  split
  · next k args p =>
    have hadd : (Expr.tuple .ptr .add args .fresh).labelsApart := h
    refine silent_then_of (compileExpr_apart hadd) (compileExpr hadd) fun r hr => ?_
    exact (toVarConst _ (compileExpr hr)).then_silent fun _ => pure _
  · exact pure _

theorem toPlaces {es : List Stmt} (h : ∀ e ∈ es, e.labelsApart) :
    Lays known (toPlaces es) .empty := by
  induction es with
  | nil => exact pure _
  | cons e es ih =>
    rw [List.forall_mem_cons] at h
    exact (toPlace (Stmt.toExpr_labelsApart h.1)).silent_then fun _ =>
      (ih h.2).then_silent fun _ => pure _

theorem compileStmt0 (op : OpStmt0) : Lays known (compileStmt0 op) .empty := by
  have hjump : ∀ (l : Expr) msg, (∀ i, l.labelIndex = some i → known i) → Lays known
      (if l.isValid then add (.goto l) else Compiler.error (.stmt0 op) msg) .empty :=
    fun l msg hl => ite _ (goto hl) (error _ _)
  have hhead : ∀ ls : List Expr, (∀ l ∈ ls, ∀ i, l.labelIndex = some i → known i) →
      ∀ i, (ls.headD .none).labelIndex = some i → known i := by
    intro ls hls
    cases ls with
    | nil => nofun
    | cons l ls => exact hls l List.mem_cons_self
  unfold Compiler.compileStmt0
  split
  · exact fun c hc => hjump _ _ (hhead c.breaks fun l hl => hc l (by simp [hl])) c hc
  · exact fun c hc => hjump _ _ (hhead c.continues fun l hl => hc l (by simp [hl])) c hc
  · exact fun c hc => hjump _ _ (hhead c.fallthroughs fun l hl => hc l (by simp [hl])) c hc
  · exact error _ _

theorem stmtN (op : OpStmtN) (args : List Stmt) : Lays known (add (.stmtN op args)) .empty := by
  have htarget : (Stmt.stmtN op args).target = Option.none := ite_self _
  exact jump rfl fun i hi => nomatch htarget.symm.trans hi

theorem compileCall {call : Expr} (h : call.labelsApart) : Lays known (compileCall call) .empty := by
  unfold Compiler.compileCall
  split
  · next k fn address args p =>
    rw [labelsApart, labelsApartAll, labelsApartAll, Bool.and_eq_true, Bool.and_eq_true] at h
    refine ite _ (pure _) (then_silent ?_ fun _ => pure _)
    exact (compileExprWith (fun _ _ => pure _) known).2.1 args h.2.2
  · exact pure _

theorem compileAssignCall {args : List Stmt} (h : ∀ st ∈ args, st.labelsApart) :
    Lays known (compileAssignCall args) .empty := by
  unfold Compiler.compileAssignCall
  split
  · exact stmtN _ _
  · next last hlast =>
    have hapart := Stmt.toExpr_labelsApart (h last (List.mem_of_getLast? hlast))
    refine (compileCall hapart).silent_then fun call => ite _ (stmtN _ _) ?_
    refine (toPlaces fun e he => h e (List.mem_of_mem_dropLast he)).silent_then fun _ => stmtN _ _

theorem compileResults (st : Stmt) (results : List Expr) {children : List Stmt}
    (h : ∀ st ∈ children, st.labelsApart) :
    Lays known (compileResults st results children) .empty := by
  induction results generalizing children with
  | nil => exact pure _
  | cons result results ih =>
    cases children with
    | nil => exact pure _
    | cons child children =>
      rw [List.forall_mem_cons] at h
      refine (takeIf (fun _ => error _ _) fun _ => rfl).silent_then fun _ => ?_
      refine (takeIf (fun _ => ?_) fun _ => rfl).silent_then fun _ => ih h.2
      exact (compileExpr (Stmt.toExpr_labelsApart h.1)).silent_then fun _ => assign _ rfl _ _

theorem compileReturn {children : List Stmt} (h : ∀ st ∈ children, st.labelsApart) :
    Lays known (compileReturn children) .empty := by
  intro c
  have hreturn : Lays known (do
      if children.length ≠ c.results.length then
        Compiler.error (.stmtN .return children)
          "number of return values does not match function signature"
        Compiler.add (.stmtN .return children)
      else if usesFuncResults c.results children then Compiler.add (.stmtN .return children)
      else
        Compiler.compileResults (.stmtN .return children) c.results children
        Compiler.add (.stmtN .return (c.results.map .expr))) .empty := by
    refine ite _ ((error _ _).silent_then fun _ => stmtN _ _) (ite _ (stmtN _ _) ?_)
    exact (compileResults _ _ h).silent_then fun _ => stmtN _ _
  exact hreturn c

theorem compileStmt2 (op : OpStmt2) {a b : Stmt} (ha : a.labelsApart) (hb : b.labelsApart) :
    Lays known (compileStmt2 op a b) (Stmt.stmt2 op a b).layout := by
  have hae := Stmt.toExpr_labelsApart ha
  have hbe := Stmt.toExpr_labelsApart hb
  have hassign : op.isAssign → Lays known (Compiler.compileAssign op a.toExpr b.toExpr (do
      let dst ← Compiler.compileExpr a.toExpr
      Compiler.toPlace dst.1) (Compiler.compileExpr b.toExpr)) .empty := by
    intro hop
    refine compileAssign op hop _ _ ?_ (compileExpr hbe)
    exact silent_then_of (compileExpr_apart hae) (compileExpr hae) fun r hr => toPlace hr
  have hother : op ≠ .case → op ≠ .default → op ≠ .jumpIf →
      Lays known (Compiler.compileStmt2 op a b) (Stmt.stmt2 op a b).layout := by
    intro hcase hdefault hjump
    rw [Compiler.compileStmt2, Stmt.layout]
    · split
      · next hop => exact hassign hop
      · exact node rfl
    all_goals assumption
  cases op with
  | case => exact (error _ _).silent_then fun _ => node rfl
  | default => exact (error _ _).silent_then fun _ => node rfl
  | jumpIf =>
    change Lays known (Compiler.compileJumpIf _ _) (.jumpIf a.toLabel.labelIndex b.toExpr.mayDecide)
    cases hopen : b.toExpr.mayDecide with
    | true => exact compileJumpIf (compileExpr hbe)
    | false =>
      refine compileJumpIf_open (compileExpr hbe) fun c => testConstant_of_mayDecide _ ?_
      exact compileExpr_mayDecide _ hopen c
  | _ =>
    apply hother
    all_goals
      intro heq
      cases heq

end Simple

end Lays

/-- What compiling a statement returns is the label that it is, or no label. -/
theorem compileStmt_returned (st : Stmt) :
    Returns (fun e : Expr => e.labelIndex = st.returned) (compileStmt st) := by
  have hvoid : ∀ m : CompileM Unit,
      Returns (fun e : Expr => e.labelIndex = Option.none) (returnVoid m) :=
    fun m => .bind_const fun _ => .pure rfl
  cases st with
  | expr e =>
    by_cases he : e = .none
    · subst he
      exact hvoid _
    · rw [compileStmt]
      · exact .map fun c => (compileExpr_shape e c).label
      · exact he
  | stmt0 op => exact hvoid _
  | stmt1 op arg => exact hvoid _
  | stmt2 op a b => exact hvoid _
  | stmt3 op a b c => cases op <;> exact hvoid _
  | stmt4 op a b c d => cases op <;> exact hvoid _
  | stmtN op args => cases op <;> exact hvoid _

theorem Stmt.mem_labelsApart {sts : List Stmt} (h : allLabelsApart sts) :
    ∀ st ∈ sts, st.labelsApart := by
  induction sts with
  | nil => nofun
  | cons st sts ih =>
    rw [allLabelsApart, Bool.and_eq_true] at h
    exact List.forall_mem_cons.mpr ⟨h.1, ih h.2⟩

/-- The first case of a `Switch` that has no error. -/
theorem switchError_cons {haveDefault : Bool} {st : Stmt} {cases : List Stmt}
    (h : switchError haveDefault (st :: cases) = Option.none) :
    (∃ op e body, st = .stmt2 op e body) ∧
      ∃ haveDefault', switchError haveDefault' cases = Option.none := by
  cases st with
  | stmt2 op a b =>
    refine ⟨⟨op, a, b, rfl⟩, ?_⟩
    cases op with
    | case => exact ⟨haveDefault, h⟩
    | default =>
      rw [switchError] at h
      split at h
      · cases h
      · exact ⟨true, h⟩
    | _ => cases h
  | _ => cases h

/-- Compiling a statement places its labels and those that it takes, and jumps to no others than
its targets. -/
theorem lays_compileStmts :
    (∀ st : Stmt, st.labelsApart → ∀ known, Lays known (compileStmt st) st.layout) ∧
    (∀ args, Stmt.allLabelsApart args →
      ∀ known, Lays known (compileSwitch args) (Stmt.layoutSwitch args)) ∧
    (∀ (expr brk : Expr) (labels : CaseLabels) (cases : List Stmt), expr.labelsApart →
      Stmt.allLabelsApart cases → (∃ haveDefault, switchError haveDefault cases = Option.none) →
      ∀ known : BitVec 16 → Prop, (∀ i, brk.labelIndex = some i → known i) →
        (∀ i, labels.fall.labelIndex = some i → known i) →
        (∀ i, labels.dflt.labelIndex = some i → known i) →
        Lays known (compileCases expr brk labels cases) (if cases.isEmpty then .empty
          else .label labels.this.labelIndex ++ .label labels.fall.labelIndex ++
            Stmt.layoutCases cases)) ∧
    (∀ (last : Expr) (sts : List Stmt), sts.length % 2 = 0 → Stmt.allLabelsApart sts →
      ∀ known : BitVec 16 → Prop, (∀ i, last.labelIndex = some i → known i) →
        Lays known (compileBranches last sts) (if sts.isEmpty then .empty
          else .label last.labelIndex ++ Stmt.layoutBranches sts)) ∧
    (∀ sts, Stmt.allLabelsApart sts →
      ∀ known, Lays known (compileBlock sts) (Stmt.layoutAll sts)) := by
  have hadd : ∀ st : Stmt, (st.labelsApart → ∀ known, Lays known (compileStmt st) st.layout) →
      st.labelsApart → ∀ known, Lays known (Compiler.compileAdd (compileStmt st))
        (st.layout ++ .label st.returned) :=
    fun st hst h known => (hst h known).compileAdd (compileStmt_returned st)
  have hvoid : ∀ (known : BitVec 16 → Prop) (m : CompileM Unit) lay, Lays known m lay →
      Lays known (returnVoid m) lay := fun _ _ _ h => h.then_silent fun _ => .pure _
  apply compileStmt.mutual_induct
  case case1 => exact fun _ known => hvoid _ _ _ (.error _ _)
  case case2 =>
    intro e he hapart known
    rw [compileStmt]
    · exact (Lays.compileExpr hapart).map _
    · exact he
  case case3 =>
    intro op _ known
    exact hvoid _ _ _ (.compileStmt0 op)
  case case4 =>
    intro op arg hapart known
    refine hvoid _ _ _ ?_
    refine .silent_then_of (P := fun r => HasShape arg r.1) (compileExpr_shape arg)
      (.compileExpr hapart) fun r hr => ?_
    have htarget : (Stmt.stmt1 op r.1).target =
        if (Stmt.stmt1 op arg).isJump then labelOf arg else Option.none := by
      rw [← hr.label, Stmt.target, Stmt.isOtherJump, Bool.or_false]
      · rfl
      all_goals
        intros
        contradiction
    have hnode : Lays known (add (.stmt1 op r.1)) (.jump (Stmt.stmt1 op r.1).target) :=
      Lays.node rfl
    rw [htarget] at hnode
    rw [Stmt.layout]
    by_cases hjump : (Stmt.stmt1 op arg).isJump
    · rw [if_pos hjump] at hnode
      rw [if_pos hjump]
      exact hnode
    · rw [if_neg hjump] at hnode
      rw [if_neg hjump]
      exact hnode
  case case5 =>
    intro op a b hapart known
    rw [Stmt.labelsApart, Bool.and_eq_true] at hapart
    exact hvoid _ _ _ (.compileStmt2 op hapart.1 hapart.2)
  case case6 =>
    intro test thn els hthn hels hapart known
    rw [Stmt.labelsApart, Bool.and_eq_true, Bool.and_eq_true] at hapart
    refine hvoid _ _ _ (.compileIf _ (Stmt.toExpr_labelsApart hapart.1.1)
      (hadd thn hthn hapart.1.2) (hadd els hels hapart.2) fun hconst => ?_)
    rw [Bool.not_eq_false'] at hconst
    cases els with
    | expr e =>
      cases e with
      | const v p => rfl
      | _ => cases hconst
    | _ => cases hconst
  case case8 =>
    intro init test post body hinit hpost hbody hapart known
    rw [Stmt.labelsApart, Bool.and_eq_true, Bool.and_eq_true, Bool.and_eq_true] at hapart
    exact hvoid _ _ _ (.compileFor (Stmt.toExpr_labelsApart hapart.1.1.2)
      (hadd init hinit hapart.1.1.1 _) (hadd post hpost hapart.1.2) (hadd body hbody hapart.2))
  case case10 =>
    intro args hapart known
    exact hvoid _ _ _ (.compileAssignCall (Stmt.mem_labelsApart hapart))
  case case11 =>
    intro args hargs hapart known
    exact hvoid _ _ _ (hargs hapart known)
  case case12 =>
    intro args hargs hapart known
    refine hvoid _ _ _ ?_
    unfold compileCond
    rw [Stmt.layout]
    split
    · next hempty =>
      rw [List.isEmpty_iff] at hempty
      subst hempty
      exact .pure _
    · next hempty =>
      split
      · exact (Lays.error _ _).silent_then fun _ => .stmtN _ _
      · next hodd =>
        refine .newLabel_bind fun last => ?_
        have hlast := hargs last (by omega) hapart (knownWith known last) fun _ => .inr
        rwa [if_neg hempty] at hlast
  case case13 =>
    intro args hapart known
    exact hvoid _ _ _ (.compileReturn (Stmt.mem_labelsApart hapart))
  case case14 =>
    intro args hargs hapart known
    exact hvoid _ _ _ (hargs hapart known)
  case case7 =>
    intro op a b c hop hapart known
    rw [compileStmt, Stmt.layout]
    · exact hvoid _ _ _ (.node rfl)
    all_goals exact hop
  case case9 =>
    intro op a b c d hop hapart known
    have hlayout : (Stmt.stmt4 op a b c d).layout = .empty := by
      cases op <;> first | rfl | exact (hop rfl).elim
    rw [compileStmt, hlayout]
    · exact hvoid _ _ _ (.jump rfl fun i hi => by cases hi)
    · exact hop
  case case15 =>
    intro op args hcall hblock hcond hreturn hswitch hapart known
    have hlayout : (Stmt.stmtN op args).layout = .empty := by
      cases op <;> first | rfl | exact (hblock rfl).elim | exact (hcond rfl).elim |
        exact (hswitch rfl).elim
    rw [compileStmt, hlayout]
    · exact hvoid _ _ _ (.stmtN _ _)
    all_goals assumption
  case case16 =>
    refine fun _ known => .newLabel_bind fun brk => ?_
    rw [Stmt.layoutSwitch, Layout.append_empty]
    exact .place brk
  case case17 =>
    intro e cases err herr hapart known
    rw [compileSwitch, herr, Stmt.layoutSwitch, herr]
    exact .error _ _
  case case18 =>
    intro e cases herr hcases hapart known
    rw [compileSwitch, herr, Stmt.layoutSwitch, herr]
    rw [Stmt.allLabelsApart, Bool.and_eq_true] at hapart
    have hexpr := Stmt.toExpr_labelsApart hapart.1
    refine .silent_then_of (toVar_isCopy _ _) (.toVar _ (.compileExpr hexpr)) fun expr hv => ?_
    refine .newLabel_bind fun brk => ?_
    have hlays := hcases expr brk (labelsApart_copy hv) hapart.2 ⟨false, herr⟩
      (knownWith known brk) (fun _ => .inr) (fun i hi => by cases hi) (fun i hi => by cases hi)
    refine (hlays.bind fun _ => .place brk).perm ?_ ?_ ?_
    · intro i
      cases cases with
      | nil => simp [Layout.label, Layout.labels, Stmt.layoutCases]
      | cons _ _ =>
        simp only [Layout.placed_append, Layout.label, Layout.labels, List.count_append, List.isEmpty_cons,
          Bool.false_eq_true, if_false]
        change _ = 0 + 0 + _ + _
        omega
    · cases cases with
      | nil => simp [Layout.label, Layout.labels, Stmt.layoutCases]
      | cons _ _ => simp [Layout.label, Layout.labels]
    · cases cases with
      | nil => simp [Layout.label, Layout.labels, Stmt.layoutCases]
      | cons _ _ => simp [Layout.label, Layout.labels]
  case case19 =>
    intro expr brk labels op e body cases hbody hcases hexpr hapart herr known hbrk hfall hdflt
    obtain ⟨haveDefault, herr⟩ := herr
    obtain ⟨-, hrest⟩ := switchError_cons herr
    rw [Stmt.allLabelsApart, Stmt.labelsApart, Bool.and_eq_true, Bool.and_eq_true] at hapart
    rw [compileCases, Stmt.layoutCases]
    refine Lays.compileCase_bind _ _ _ _ _ hexpr (Stmt.toExpr_labelsApart hapart.1.1)
      (hadd body hbody hapart.1.2) hbrk hfall hdflt ?_
    intro known' labels' hknown hfall' hdflt'
    have hlays := hcases labels' hexpr hapart.2 hrest known' (fun i hi => hknown i (hbrk i hi))
      hfall' hdflt'
    cases cases with
    | nil => exact hlays
    | cons _ _ => exact hlays
  case case21 =>
    intro last test body sts hbody hsts heven hapart known hlast
    rw [Stmt.allLabelsApart, Stmt.allLabelsApart, Bool.and_eq_true, Bool.and_eq_true] at hapart
    have hrest := hsts (by rwa [List.length_cons, List.length_cons, Nat.add_assoc, Nat.add_mod_right] at heven)
      hapart.2.2 known hlast
    have hbranch := Lays.compileBranch last sts.isEmpty (Stmt.toExpr_labelsApart hapart.1)
      (hadd body hbody hapart.2.1) hlast
    rw [compileBranches, Stmt.layoutBranches]
    refine (hbranch.bind fun _ => hrest).perm ?_ ?_ ?_
    · intro i
      cases sts with
      | nil =>
        simp [Layout.label, Layout.labels, Stmt.layoutBranches, Layout.empty]
        omega
      | cons _ _ =>
        simp only [Layout.placed_append, Layout.label, Layout.labels, Layout.empty, List.count_append,
          List.isEmpty_cons, Bool.false_eq_true, if_false, List.count_nil]
        omega
    · cases sts with
      | nil => simp [Layout.label, Layout.labels, Stmt.layoutBranches, Layout.empty]
      | cons _ _ => simp [Layout.label, Layout.labels, Layout.empty]
    · cases sts with
      | nil => simp [Layout.label, Layout.labels, Stmt.layoutBranches, Layout.empty]
      | cons _ _ => simp [Layout.label, Layout.labels, Layout.empty]
  case case20 =>
    intro cases expr brk labels hcases hexpr hapart herr known hbrk hfall hdflt
    cases cases with
    | nil => exact .pure _
    | cons st cases =>
      obtain ⟨haveDefault, herr⟩ := herr
      obtain ⟨⟨op, e, body, rfl⟩, -⟩ := switchError_cons herr
      exact (hcases op e body cases rfl).elim
  case case22 =>
    intro sts last hsts heven hapart known hlast
    cases sts with
    | nil => exact .pure _
    | cons test sts =>
      cases sts with
      | nil => cases heven
      | cons body sts => exact (hsts test body sts rfl).elim
  case case23 => exact fun _ _ => .pure _
  case case24 =>
    intro st sts hst hsts hapart known
    rw [Stmt.allLabelsApart, Bool.and_eq_true] at hapart
    exact (hst hapart.1 known).bind fun _ => hsts hapart.2 known

namespace Func

/-- The labels that the compiled function places for the input, with its address. -/
def placedLabels (f : Func) : List (BitVec 16) :=
  0 :: (f.body.layout.placed ++ f.body.returned.toList)

/-- The labels that jumps of the body go to. -/
def jumpTargets (f : Func) : List (BitVec 16) := f.body.layout.targets

/-- The labels that jumps of the body go to, without those on a test that the compiler may decide. -/
def sureTargets (f : Func) : List (BitVec 16) := f.body.layout.sure

end Func

theorem addEpilogue_nodes (f : Func) (o : Output) (i : BitVec 16) :
    placedIn (addEpilogue f o).nodes i = placedIn o.nodes i ∧
      (IsTarget (addEpilogue f o).nodes i ↔ IsTarget o.nodes i) := by
  unfold addEpilogue
  split
  · exact ⟨rfl, .rfl⟩
  · have htarget : ¬IsTarget [.stmtN .return (f.results.map .expr)] i := by
      rintro ⟨st, hst, h⟩
      rw [List.mem_singleton] at hst
      subst hst
      cases h
    constructor
    · rw [placedIn_append]
      rfl
    · rw [isTarget_append]
      exact or_iff_left htarget

/-- What the compiled function places and where it jumps to. -/
theorem compileFunc_labels (f : Func) (hapart : f.body.labelsApart) :
    ∃ n, f.labels ≤ n ∧
      (∀ i, placedIn (compileFunc f).nodes i = fresh f.labels n i + f.placedLabels.count i) ∧
      (∀ i, IsTarget (compileFunc f).nodes i →
        i ∈ f.jumpTargets ∨ (f.labels ≤ i.toNat ∧ i.toNat < n)) ∧
      ∀ i ∈ f.sureTargets, IsTarget (compileFunc f).nodes i := by
  have hbody : Lays (fun _ => False) (addPrologue f >>= fun _ => compileAdd (compileStmt f.body))
      (.label (some 0) ++ (f.body.layout ++ .label f.body.returned)) := by
    refine Lays.bind ?_ fun _ =>
      (lays_compileStmts.1 f.body hapart _).compileAdd (compileStmt_returned f.body)
    exact (Lays.place Func.address).then_silent fun _ =>
      .takeIf (fun _ => .stmtN _ _) fun _ => rfl
  have hstart : StacksIn (fun _ => False) f.start := nofun
  obtain ⟨⟨-, hgrow⟩, hplaced, htargets, hsure⟩ := hbody f.start hstart
  refine ⟨_, hgrow, ?_, ?_, ?_⟩
  · intro i
    rw [compileFunc, (addEpilogue_nodes f _ i).1, hplaced]
    rfl
  · intro i hi
    rw [compileFunc, (addEpilogue_nodes f _ i).2] at hi
    obtain h | h | h := htargets i hi
    · exact .inl (by simpa [Layout.label, Layout.labels, Func.jumpTargets] using h)
    · exact h.elim
    · exact .inr h
  · intro i hi
    rw [compileFunc, (addEpilogue_nodes f _ i).2]
    exact hsure i (by simpa [Layout.label, Layout.labels, Func.sureTargets] using hi)

/-- The jumps of a compiled function resolve when those of its body go to labels that are placed
once, and only then, up to jumps on a test that the compiler decides. -/
theorem compileFunc_labelsResolve (f : Func) (hapart : f.body.labelsApart)
    (hlabels : ∀ i ∈ f.placedLabels ++ f.jumpTargets, i.toNat < f.labels) :
    ((∀ i ∈ f.jumpTargets, f.placedLabels.count i = 1) → LabelsResolve (compileFunc f).nodes) ∧
    (LabelsResolve (compileFunc f).nodes → ∀ i ∈ f.sureTargets, f.placedLabels.count i = 1) := by
  obtain ⟨n, hgrow, hplaced, htargets, hsure⟩ := compileFunc_labels f hapart
  have hold : ∀ i : BitVec 16, i.toNat < f.labels → fresh f.labels n i = 0 := by
    intro i hi
    rw [fresh, if_neg (by omega)]
  constructor
  · intro h i hi
    rw [hplaced]
    obtain ht | ht := htargets i hi
    · rw [hold i (hlabels i (List.mem_append_right _ ht)), h i ht]
    · have hcount : f.placedLabels.count i = 0 := by
        apply List.count_eq_zero_of_not_mem
        intro hmem
        have hlt := hlabels i (List.mem_append_left _ hmem)
        omega
      rw [fresh, if_pos ht, hcount]
  · intro h i hi
    have hone := h i (hsure i hi)
    have htarget := f.body.layout.sure_sub i hi
    rw [hplaced, hold i (hlabels i (List.mem_append_right _ htarget)), Nat.zero_add] at hone
    exact hone

/-- A body that jumps forward to a label in the same block. -/
def blockWithLabel : Func where
  paramKinds := []
  resultKinds := []
  vars := 0
  labels := 2
  body := .stmtN .block [.goto (.label 1 0), .expr (.label 1 0)]
  vars_le := Nat.le_refl 0
  labels_pos := by decide

/-- A loop whose initialization jumps to a label that is its body. -/
def loopWithLabel : Func where
  paramKinds := [.bool]
  resultKinds := []
  vars := 1
  labels := 2
  body := .stmt4 .for_ (.goto (.label 1 0)) (Func.varAt .bool 0) (.expr voidExpr)
    (.expr (.label 1 0))
  vars_le := Nat.le_refl 1
  labels_pos := by decide

theorem compileFunc_labelsResolve_loop : LabelsResolve (compileFunc loopWithLabel).nodes := by
  have hplaced : loopWithLabel.placedLabels = [0, 1] := by decide +kernel
  have htargets : loopWithLabel.jumpTargets = [1] := by decide +kernel
  refine (compileFunc_labelsResolve loopWithLabel (by decide +kernel) ?_).1 ?_
  · rw [hplaced, htargets]
    simp [loopWithLabel]
  · rw [hplaced, htargets]
    simp

/-- The label is dropped, so that the jump to it has no destination. -/
theorem compileFunc_block_drops_label : (compileFunc blockWithLabel).errors.length = 0 ∧
    ¬LabelsResolve (compileFunc blockWithLabel).nodes := by
  refine ⟨by decide +kernel, fun h => ?_⟩
  have hplaced : placedIn (compileFunc blockWithLabel).nodes 1 = 0 := by decide +kernel
  have htarget : IsTarget (compileFunc blockWithLabel).nodes 1 := by
    have hmem : some 1 ∈ (compileFunc blockWithLabel).nodes.map Stmt.target := by decide +kernel
    exact List.mem_map.mp hmem
  rw [h 1 htarget] at hplaced
  cases hplaced

end OneJit
