import OneJit.ExprSimulation

/-!
# Compiled statements in a program

What it means that compiled code does what a statement does, wherever it stands in a program, and
that this is so of the statements without statements inside them: an expression, a jump out of a
construct, an assignment, and a `Return`.
-/

namespace OneJit

open FlatCode Stmt

namespace Compiler

open Expr CompileM

/-! ## Steps that succeed -/

/-- The stacks and the results are the same, and variables and labels are only added. -/
def Steady (c c' : Compiler) : Prop := SameStacks c c' ∧ Grows c .empty c'

theorem steady_basic : Basic fun c _ c' => Steady c c' := sameStacks_basic.and grows_basic

theorem Steady.trans {c c' c'' : Compiler} (h : Steady c c') (h' : Steady c' c'') : Steady c c'' :=
  ⟨h.1.trans h'.1, h.2.1.trans h'.2.1, h.2.2.trans h'.2.2⟩

section Succeeds

variable {α β : Type}

/-- Without errors, and with room at its end, the step returns and appends this. -/
def Succeeds (m : CompileM α) (c : Compiler) (Φ : α → List Stmt → Compiler → Prop) : Prop :=
  (m c).2.1.errors = [] → Makes m c Φ

namespace Succeeds

variable {m : CompileM α} {f : α → CompileM β} {c : Compiler}
  {Φ Φ' : α → List Stmt → Compiler → Prop} {Ψ : β → List Stmt → Compiler → Prop}

theorem pure {a : α} (h : Φ a [] c) : Succeeds (Pure.pure a) c Φ := fun _ _ => h

theorem of_makes (h : Makes m c Φ) : Succeeds m c Φ := fun _ => h

theorem mono (hm : Succeeds m c Φ) (h : ∀ a o c', Φ a o c' → Φ' a o c') : Succeeds m c Φ' :=
  fun herrors hroom => h _ _ _ (hm herrors hroom)

theorem steady (hm : Succeeds m c Φ) (h : Respects (fun c _ c' => Steady c c') m) :
    Succeeds m c fun a o c' => Steady c c' ∧ Φ a o c' :=
  fun herrors hroom => ⟨h c, hm herrors hroom⟩

theorem bind (hm : Succeeds m c Φ) (hgrow : ∀ a, Respects Grows (f a))
    (h : ∀ a o c', Φ a o c' → Succeeds (f a) c' fun b o' c'' => Ψ b (o ++ o') c'') :
    Succeeds (m >>= f) c Ψ := by
  intro herrors hroom
  rw [bind_run] at herrors hroom ⊢
  obtain ⟨hfirst, hrest⟩ := List.append_eq_nil_iff.mp herrors
  exact h _ _ _ (hm hfirst ((hgrow _ _).room hroom)) hrest hroom

/-- A step whose run is known. -/
theorem emits {a : α} {o : List Stmt} {c' : Compiler} (hm : m c = (a, ⟨o, []⟩, c'))
    (h : Succeeds (f a) c' fun b o' c'' => Ψ b (o ++ o') c'') : Succeeds (m >>= f) c Ψ := by
  intro herrors hroom
  rw [bind_run, hm] at herrors hroom ⊢
  exact h herrors hroom

/-- A step that appends nothing. -/
theorem silent {a : α} {c' : Compiler} (hm : m c = (a, .empty, c'))
    (h : Succeeds (f a) c' Ψ) : Succeeds (m >>= f) c Ψ := by
  intro herrors hroom
  rw [bind_run, hm] at herrors hroom ⊢
  exact h herrors hroom

theorem error {node : Stmt} {msg : String} {f : Unit → CompileM β} :
    Succeeds (Compiler.error node msg >>= f) c Ψ :=
  fun herrors => absurd herrors (List.cons_ne_nil _ _)

end Succeeds

end Succeeds

theorem newLabel_succeeds (c : Compiler) : Succeeds newLabel c fun l o c' =>
    Steady c c' ∧ o = [] ∧ bound c' = bound c ∧ ∃ i, l = .label i 0 :=
  (Succeeds.of_makes (newLabel_makes c)).steady steady_basic.newLabel

/-- A taken label. -/
theorem newLabel_then {β : Type} {f : Expr → CompileM β} {c : Compiler}
    {Ψ : β → List Stmt → Compiler → Prop} (hgrow : ∀ l, Respects Grows (f l))
    (h : ∀ i c', Steady c c' → Succeeds (f (.label i 0)) c' Ψ) :
    Succeeds (newLabel >>= f) c Ψ := by
  refine (newLabel_succeeds c).bind hgrow ?_
  rintro l o c' ⟨hsteady, rfl, -, i, rfl⟩
  exact h i c' hsteady

/-! ## Statements in a program -/

/-- The function has variables below the bound, and these results. -/
structure Ready (n : Nat) (results : List Expr) (c : Compiler) : Prop where
  vars : n ≤ bound c
  results : c.results = results

theorem Ready.step {n : Nat} {results : List Expr} {c c' : Compiler} (h : Ready n results c)
    (hs : Steady c c') : Ready n results c' :=
  ⟨h.vars.trans (Nat.add_le_add_right hs.2.1 _), hs.1.results.trans h.results⟩

section Performs

variable (w : Host) (prog : List Stmt)

/-- The code behind a label. -/
def Leads (label : Expr) (exit : Option (List Stmt)) : Prop :=
  ∃ i address rest, label = .label i address ∧ (machine w).find i prog = some rest ∧
    exit = some rest

/-- Where the jumps out of a statement go. -/
structure ExitsAt (c : Compiler) (exits : Exits Stmt) : Prop where
  brk : ∀ l ∈ c.breaks.head?, Leads w prog l exits.brk
  cont : ∀ l ∈ c.continues.head?, Leads w prog l exits.cont
  fall : ∀ l ∈ c.fallthroughs.head?, Leads w prog l exits.fall

variable (turns n : Nat) (results : List Expr)

/-- The step appends code that does what the statement does. -/
def Performs (m : CompileM Unit) (exec : State → StmtResult) : Prop :=
  ∀ c, Ready n results c → Succeeds m c fun _ o _ => ∀ exits, ExitsAt w prog c exits →
    (machine w).Simulates prog (observer w n) turns exits o exec

variable {w prog turns n results}

theorem ExitsAt.step {c c' : Compiler} {exits : Exits Stmt} (h : ExitsAt w prog c exits)
    (hs : Steady c c') : ExitsAt w prog c' exits where
  brk := by
    rw [hs.1.breaks]
    exact h.brk
  cont := by
    rw [hs.1.continues]
    exact h.cont
  fall := by
    rw [hs.1.fallthroughs]
    exact h.fall

namespace Performs

variable {m m' : CompileM Unit} {exec exec' : State → StmtResult}

theorem congr (h : Performs w prog turns n results m exec) (heq : ∀ s, exec' s = exec s) :
    Performs w prog turns n results m exec' :=
  fun c hc => (h c hc).mono fun _ _ _ hsim exits hexits => (hsim exits hexits).congr heq

theorem nothing : Performs w prog turns n results (Pure.pure ()) (.ends .normal) :=
  fun _ _ => .pure fun _ _ => .nil

theorem seq (h : Performs w prog turns n results m exec)
    (hsteady : Respects (fun c _ c' => Steady c c') m)
    (h' : Performs w prog turns n results m' exec') (hgrow : Respects Grows m') :
    Performs w prog turns n results (m >>= fun _ => m') fun s => (exec s).andThen exec' := by
  intro c hc
  refine ((h c hc).steady hsteady).bind (fun _ => hgrow) ?_
  rintro - o c' ⟨hs, hsim⟩
  refine (h' c' (hc.step hs)).mono fun _ o' _ hsim' exits hexits => ?_
  exact (hsim exits hexits).append (hsim' exits (hexits.step hs))

/-- The step in a later state. -/
theorem later (h : Performs w prog turns n results m exec)
    (hsteady : Respects (fun c _ c' => Steady c c') m) {c c' : Compiler} (hc : Ready n results c)
    (hs : Steady c c') : Succeeds m c' fun _ o c'' => Steady c c'' ∧ ∀ exits,
      ExitsAt w prog c exits → (machine w).Simulates prog (observer w n) turns exits o exec :=
  ((h c' (hc.step hs)).steady hsteady).mono fun _ _ _ ⟨hs', hsim⟩ =>
    ⟨hs.trans hs', fun exits hexits => hsim exits (hexits.step hs)⟩

/-- A statement that goes on or is stuck. -/
theorem of_option {f : State → Option State} (h : ∀ c, Ready n results c →
      Succeeds m c fun _ o _ => ∀ post, o ++ post <:+ prog → ∀ s t, Same n s t →
        match f s with
        | some s' => ∃ t', Same n s' t' ∧ (machine w).Reaches prog 0 (o ++ post, t) (post, t')
        | .none => ∃ b, (observer w n).stuck b ∧ (machine w).Reaches prog 0 (o ++ post, t) b) :
    Performs w prog turns n results m fun s => .ofOption (f s) := by
  intro c hc
  refine (h c hc).mono fun _ o _ hf exits _ post hpost s t hst => ?_
  have hrun := hf post hpost s t hst
  dsimp only
  cases hs : f s with
  | none =>
    rw [hs] at hrun
    exact hrun
  | some s' =>
    rw [hs] at hrun
    exact hrun

end Performs

/-- What a compiled statement returns is `VoidConst`. -/
theorem compileAdd_returnVoid (m : CompileM Unit) : compileAdd (returnVoid m) = m := by
  funext c
  change ((), (m c).2.1 ++ .empty ++ .empty, (m c).2.2) = m c
  rw [Output.append_empty, Output.append_empty]

theorem returnVoid_then {β : Type} (m : CompileM Unit) (f : CompileM β) :
    (returnVoid m >>= fun _ => f) = m >>= fun _ => f := by
  funext c
  change ((f (m c).2.2).1, (m c).2.1 ++ .empty ++ _, _) = _
  rw [Output.append_empty]
  rfl

/-! ## Jumps out of a construct -/

variable (w prog) in
/-- The jump to the label on top of a stack. -/
theorem jump_succeeds (labels : List Expr) (op : OpStmt0) (msg : String) (c : Compiler) :
    Succeeds (if (labels.headD .none).isValid then add (.goto (labels.headD .none))
        else Compiler.error (.stmt0 op) msg) c fun _ o _ =>
      ∀ exit, (∀ l ∈ labels.head?, Leads w prog l exit) → ∃ rest, exit = some rest ∧
        ∀ post t, (machine w).Reaches prog 1 (o ++ post, t) (rest, t) := by
  cases labels with
  | nil => exact fun herrors => absurd herrors (List.cons_ne_nil _ _)
  | cons l ls =>
    rw [List.headD_cons]
    split
    · intro _ _ exit hleads
      obtain ⟨i, address, rest, rfl, hfind, rfl⟩ := hleads l rfl
      exact ⟨rest, rfl, fun post t => .jump rfl hfind⟩
    · exact fun herrors => absurd herrors (List.cons_ne_nil _ _)

theorem stmt0_performs (op : OpStmt0) :
    Performs w prog turns n results (compileStmt0 op) ((stmt0 op).outcome w turns) := by
  intro c _
  cases op with
  | brk =>
    intro herrors hroom exits hexits post _ s t hst
    obtain ⟨rest, hrest, hreach⟩ := jump_succeeds w prog c.breaks .brk
      "misplaced Break" c herrors hroom exits.brk hexits.brk
    exact ⟨rest, t, hrest, hst, hreach post t⟩
  | cont =>
    intro herrors hroom exits hexits post _ s t hst
    obtain ⟨rest, hrest, hreach⟩ := jump_succeeds w prog c.continues .cont
      "misplaced Continue" c herrors hroom exits.cont hexits.cont
    exact ⟨rest, t, hrest, hst, hreach post t⟩
  | «fallthrough» =>
    intro herrors hroom exits hexits post _ s t hst
    obtain ⟨rest, hrest, hreach⟩ := jump_succeeds w prog c.fallthroughs
      .fallthrough "misplaced Fallthrough" c herrors hroom exits.fall hexits.fall
    exact ⟨rest, t, hrest, hst, hreach post t⟩
  | _ => exact fun herrors => absurd herrors (List.cons_ne_nil _ _)

/-! ## Expressions -/

theorem isVoidConst_expr {e : Expr} (h : isVoidConst (.expr e)) : e.isConst := by
  cases e with
  | const v p => rfl
  | _ => cases h

theorem const_performAt {e : Expr} (h : e.isConst) (s : State) : e.performAt w s = some s := by
  cases e with
  | const v p => rfl
  | _ => cases h

theorem compileAdd_expr {e : Expr} (he : e ≠ .none) :
    compileAdd (compileStmt (.expr e)) = compileExpr e >>= fun r => add (.expr r.1) := by
  have hexpr : compileStmt (.expr e) = Prod.fst <$> compileExpr e := by
    rw [compileStmt]
    exact he
  funext c
  rw [hexpr]
  change (do
    let node ← compileExpr e >>= fun r => pure r.1
    add (.expr node) : CompileM Unit) c = _
  rw [CompileM.bind_assoc]
  rfl

/-- An expression of the function that computes what it should. -/
theorem compileExpr_succeeds {e : Expr} (he : e.usable n) {c : Compiler} (hc : n ≤ bound c) :
    e.varsBelow n ∧ Succeeds (compileExpr e) c fun r o c' => Steady c c' ∧
      (∀ st ∈ o, st.isReturn = false) ∧ LoweredTo w (bound c) e r o c' := by
  rw [usable, Bool.and_eq_true, Bool.and_eq_true] at he
  obtain ⟨⟨hcomputes, htyped⟩, hbelow⟩ := he
  refine ⟨hbelow, fun _ hroom => ⟨steady_basic.compileExpr e c, noReturn_compileExpr e c, ?_⟩⟩
  exact compileExpr_makes e hcomputes htyped c (varsBelow_mono hc e hbelow) hroom

/-- Where an expression that is evaluated for its calls has a value, the run comes to the end of the
piece and the lowered expression has one there. -/
theorem evaluated_succeeds (hunique : (machine w).Unique prog) {e : Expr} (he : isEvaluated n e)
    {c : Compiler} (hc : n ≤ bound c) : Succeeds (compileExpr e) c fun r o _ =>
      r.1.labelIndex = .none ∧ ((outline e).mayTrap = false → ∀ t, r.1.runAt w t ≠ .none) ∧
      ∀ post, o ++ post <:+ prog → ∀ s t, Same n s t →
        match e.performAt w s with
        | some s' => ∃ t' v, Same n s' t' ∧ r.1.runAt w t' = some (v, t'.heap) ∧
          (machine w).Reaches prog 0 (o ++ post, t) (post, t')
        | .none => (∃ b, (observer w n).stuck b ∧ (machine w).Reaches prog 0 (o ++ post, t) b) ∨
          ∃ t', (machine w).Reaches prog 0 (o ++ post, t) (post, t') ∧
            r.1.runAt w t' = .none := by
  rw [isEvaluated, Bool.or_eq_true, Bool.and_eq_true, bne_iff_ne] at he
  obtain hvoid | ⟨husable, htype⟩ := he
  · cases e with
    | const v p =>
      exact fun _ _ => ⟨rfl, fun _ t h => (by cases h),
        fun post _ s t hst => ⟨t, _, hst, rfl, .refl _⟩⟩
    | _ => cases hvoid
  · obtain ⟨hbelow, hsucceeds⟩ := compileExpr_succeeds (w := w) husable hc
    refine hsucceeds.mono fun r o c' hcompiled => ?_
    obtain ⟨_, hreturn, hr⟩ := hcompiled
    refine ⟨?_, ?_, ?_⟩
    · rw [← hr.describes.type] at htype
      generalize r.1 = q at htype
      cases q with
      | label i a => exact absurd rfl htype
      | _ => rfl
    · intro htrap t hnone
      obtain ⟨v, hv⟩ := run_of_not_mayTrap (w := w) (ρ := t.vars) r.1
        (hr.describes.mayTrap htrap) hr.describes.noCall t.heap
      rw [runAt, hv] at hnone
      cases hnone
    · intro post hpost s t hst
      rw [performAt]
      cases hrun : e.runAt w s with
      | none =>
        refine (hr.stuck hunique hreturn hpost hbelow hst hrun).imp_right ?_
        rintro ⟨t', hreach, hnone, _⟩
        exact ⟨t', hreach, hnone⟩
      | some v =>
        obtain ⟨t', hreach, -, hst', hvalue⟩ := hr.arrives hunique hpost hbelow hst hc hrun
        have hheap : t'.heap = v.2 := hst'.heap
        refine ⟨t', v.1, hst', ?_, hreach⟩
        rw [hvalue, ← hheap]

/-- An expression that is evaluated for its calls. -/
theorem expr_performs (hunique : (machine w).Unique prog) {e : Expr} (he : isEvaluated n e) :
    Performs w prog turns n results (compileAdd (compileStmt (.expr e)))
      ((expr e).outcome w turns) := by
  have hne : e ≠ .none := by
    rintro rfl
    cases he
  rw [compileAdd_expr hne]
  refine Performs.of_option fun c hc => ?_
  refine (evaluated_succeeds hunique he hc.vars).bind (fun _ => grows_basic.add _)
    fun r o c' ⟨hlabel, _, hruns⟩ _ _ post hpost s t hst => ?_
  by_cases hvoid : isVoidConst (.expr r.1)
  · have hnothing : (add (.expr r.1) c').2.1.nodes = [] := if_pos hvoid
    rw [hnothing, List.append_nil] at hpost ⊢
    have hrun := hruns post hpost s t hst
    cases hs : e.performAt w s with
    | none =>
      rw [hs] at hrun
      obtain hstuck | ⟨t', -, hnone⟩ := hrun
      · exact hstuck
      · have hconst := isVoidConst_expr hvoid
        generalize r.1 = q at hconst hnone
        cases q with
        | const v p => cases hnone
        | _ => cases hconst
    | some s' =>
      rw [hs] at hrun
      obtain ⟨t', v, hst', -, hreach⟩ := hrun
      exact ⟨t', hst', hreach⟩
  · have hadded : (add (.expr r.1) c').2.1.nodes = [.expr r.1] := if_neg hvoid
    rw [hadded, List.append_assoc] at hpost ⊢
    have hrun := hruns _ hpost s t hst
    cases hs : e.performAt w s with
    | none =>
      rw [hs] at hrun
      obtain hstuck | ⟨t', hreach, hnone⟩ := hrun
      · exact hstuck
      · refine ⟨_, ⟨.expr r.1, post, rfl, rfl, ?_⟩, hreach⟩
        rw [expr_effect hlabel, ← runAt, hnone]
        rfl
    | some s' =>
      rw [hs] at hrun
      obtain ⟨t', v, hst', hvalue, hreach⟩ := hrun
      have heffect : effect w (.expr r.1) t' = some (.fall t') := by
        rw [expr_effect hlabel, ← runAt, hvalue]
        rfl
      exact ⟨t', hst', (hreach.trans (.fall heffect)).mono (Nat.zero_le _)⟩

/-- A `Block` drops what compiling its statements returns; this may not trap. -/
theorem dropped_performs (hunique : (machine w).Unique prog) {e : Expr} (he : isEvaluated n e)
    (htrap : (outline e).mayTrap = false) :
    Performs w prog turns n results (compileStmt (.expr e) >>= fun _ => Pure.pure ())
      ((expr e).outcome w turns) := by
  have hne : e ≠ .none := by
    rintro rfl
    cases he
  have hexpr : (compileStmt (.expr e) >>= fun _ => Pure.pure () : CompileM Unit) =
      compileExpr e >>= fun _ => Pure.pure () := by
    have hcompile : compileStmt (.expr e) = Prod.fst <$> compileExpr e := by
      rw [compileStmt]
      exact hne
    rw [hcompile]
    change (compileExpr e >>= fun r => Pure.pure r.1) >>= _ = _
    rw [CompileM.bind_assoc]
    rfl
  rw [hexpr]
  refine Performs.of_option fun c hc => ?_
  refine (evaluated_succeeds hunique he hc.vars).bind (fun _ => grows_basic.pure _)
    fun r o c' hcompiled _ _ post hpost s t hst => ?_
  obtain ⟨_, hsome, hruns⟩ := hcompiled
  rw [pure_run, Output.nodes_empty, List.append_nil] at hpost ⊢
  have hrun := hruns post hpost s t hst
  cases hs : e.performAt w s with
  | none =>
    rw [hs] at hrun
    obtain hstuck | ⟨t', -, hnone⟩ := hrun
    · exact hstuck
    · exact absurd hnone (hsome htrap t')
  | some s' =>
    rw [hs] at hrun
    obtain ⟨t', v, hst', -, hreach⟩ := hrun
    exact ⟨t', hst', hreach⟩

/-! ## Places -/

theorem wrap_ptr (a : BitVec 64) : Kind.wrap .ptr a = a := by
  rw [Kind.wrap, if_neg (by decide)]
  exact (BitVec.setWidth_eq _).trans (BitVec.setWidth_eq _)

/-- A node that `to_var_const` keeps, whatever is stored in memory, or that is copied as it is. -/
def IsAddress (w : Host) (a : Expr) : Prop :=
  ((∀ comp, toVarConst a comp = pure a) ∧ ∀ (ρ : Vars) (h h' : Heap) (v : BitVec 64),
      a.run w ρ h = some (v, h) → a.run w ρ h' = some (v, h')) ∨
    (a.isVar = false ∧ a.toExpr.isValid ∧ a.kind.isScalar ∧ a.hasCall = false ∧
      toVarConst a = toVar a ∧
      ∀ {s : State} {v : BitVec 64} {h : Heap}, a.runAt w s = some (v, h) → a.kind.wrap v = v)

/-- The sum that the address of a memory operand is compiled to. -/
theorem address_compiled {args : List Expr} (hl : loweredOperands args) (ht : typedList args)
    (hbelow : varsBelowList n args) : ∃ a b,
      compileExpr (.tuple .ptr .add args .fresh) = Pure.pure (a, b) ∧ a.lowered ∧ a.varsBelow n ∧
        IsAddress w a ∧ ∀ s : State, ∃ vs, runListAt w args s = some (vs, s.heap) ∧
          a.runAt w s = some (vs.sum, s.heap) := by
  have hscalar : Kind.ptr.isScalar := by decide
  have hsum : compileChildren compiled args = Pure.pure (args, false) →
      compileExpr (.tuple .ptr .add args .fresh) = Pure.pure
        (rebuildChildren (.tuple .ptr .add args .fresh) .ptr .add args false) := by
    intro hchildren
    change (compileExprWith compiled (.tuple .ptr .add args .fresh) : CompileM Compiled) = _
    rw [compileExprWith, hchildren, CompileM.pure_bind]
    intros; contradiction
  obtain _ | ⟨x, _ | ⟨y, zs⟩⟩ := args
  · have hkind : (Value.identityN .ptr .add).kind = .ptr := identityN_kind hscalar rfl
    obtain ⟨q, hq⟩ := ofValue_eq (v := Value.identityN .ptr .add) (by rw [hkind]; exact hscalar)
    obtain ⟨-, hback⟩ := readBack_meaning (v := Value.identityN .ptr .add)
      (by rw [hkind]; exact hscalar)
    refine ⟨.const (Imm.readBack (Value.identityN .ptr .add)) q, true,
      (hsum rfl).trans (congrArg (fun e => Pure.pure (e, true)) hq), rfl, rfl,
      .inl ⟨fun _ => rfl, ?_⟩, fun s => ⟨[], rfl, ?_⟩⟩
    · intro ρ h h' v hv
      cases hv
      rfl
    change some ((Imm.readBack (Value.identityN .ptr .add)).meaning, s.heap) = _
    rw [hback, identityN_meaning hscalar]
    rfl
  · rw [loweredOperands, Bool.and_eq_true, Bool.and_eq_true] at hl
    rw [typedList, Bool.and_eq_true] at ht
    rw [varsBelowList, Bool.and_eq_true] at hbelow
    obtain ⟨⟨htype, hlx⟩, -⟩ := hl
    have hself : x.toExpr = x := by cases x <;> first | rfl | cases htype
    have hchildren : compileChildren compiled [x] = Pure.pure ([x], false) := by
      rw [compileChildren, compileExprWith_lowered compiled x hlx]
      · cases x <;> first | rfl | cases htype
      · rintro rfl
        cases htype
    refine ⟨x, true, ?_, hlx, hbelow.1, ?_, fun s => ?_⟩
    · rw [hsum hchildren]
      change Pure.pure (x.toExpr, true) = _
      rw [hself]
    · cases x with
      | mem k args p =>
        have hk : k.isScalar := (Bool.and_eq_true _ _ ▸ (ht.1 : (k.isScalar && _) = true)).1
        refine .inr ⟨rfl, bne_iff_ne.mpr (Kind.ne_bad hk), hk, operand_hasCall _ rfl hlx, rfl, ?_⟩
        exact fun hrun => run_normal _ ht.1 hk hrun
      | var | const | label =>
        refine .inl ⟨fun _ => rfl, fun ρ h h' v hv => ?_⟩
        cases hv
        rfl
      | _ => cases htype
    · obtain ⟨v, hv⟩ := run_of_not_mayTrap (w := w) (ρ := s.vars) x (operand_mayTrap x htype hlx)
        (operand_hasCall x htype hlx) s.heap
      refine ⟨[v], ?_, ?_⟩
      · rw [runListAt, runList_cons]
        exact ⟨v, s.heap, [], hv, rfl, rfl⟩
      · rw [runAt, hv, List.sum_cons, List.sum_nil, add_zero]
  · have hkept : (Expr.tuple .ptr .add (x :: y :: zs) .fresh).lowered := by
      rw [Expr.lowered, hl]
      rfl
    refine ⟨_, false, compileExprWith_lowered compiled _ hkept, hkept, hbelow, ?_, fun s => ?_⟩
    · have hcall : hasCallList (x :: y :: zs) = false := by
        have hmem := operand_hasCall (.mem .ptr (x :: y :: zs) .fresh) rfl hl
        exact hmem
      refine .inr ⟨rfl, rfl, hscalar, ?_, rfl, fun _ => wrap_ptr _⟩
      rw [hasCall, hcall]
      rfl
    · have htrap := operand_mayTrap (.mem .ptr (x :: y :: zs) .fresh) rfl hl
      have hcall := operand_hasCall (.mem .ptr (x :: y :: zs) .fresh) rfl hl
      obtain ⟨v, hv⟩ := run_of_not_mayTrap (w := w) (ρ := s.vars)
        (.mem .ptr (x :: y :: zs) .fresh) htrap hcall s.heap
      obtain ⟨vs, hvs, -⟩ := run_mem.mp hv
      refine ⟨vs, hvs, ?_⟩
      rw [runAt_tuple, runListAt, hvs, Option.bind_some]
      change OpN.add.runApply w .ptr vs s.heap = _
      rw [runApply_eq (by decide) .ptr vs _ s.vars, apply_commutative rfl]
      have hfold : ∀ us : List (BitVec 64),
          us.foldr (Kind.ptr.tupleOp .add) (Kind.ptr.tupleUnit .add) = us.sum := by
        intro us
        induction us with
        | nil => rfl
        | cons u us ih =>
          rw [List.foldr_cons, ih, Kind.tupleOp, wrap_ptr, List.sum_cons]
      rw [hfold]
      rfl

/-- What a place is compiled to. It denotes the same location, however the memory is changed before
it is used. -/
structure PlacedAt (w : Host) (n : Nat) (dst place : Expr) (piece : List Stmt) (c' : Compiler) :
    Prop where
  keeps : ∀ st ∈ piece, st.isReturn = false
  runs : ∀ s : State, ∃ s' loc, runPiece w piece s = some s' ∧ Same n s s' ∧
    dst.locate w s.vars s.heap = some (loc, s.heap) ∧ loc.Known n ∧
    ∀ ρ, AgreeBelow (bound c') s'.vars ρ → ∀ h, place.locate w ρ h = some (loc, h)

/-- A place of the function, and its address that is copied where it is read from memory. -/
theorem place_makes {dst : Expr} (hdst : dst.isPlace n) {c : Compiler} (hc : n ≤ bound c) :
    Makes (compileExpr dst >>= fun r => toPlace r.1) c fun place o c' =>
      c.vars ≤ c'.vars ∧ PlacedAt w n dst place o c' := by
  cases dst with
  | var k id =>
    rw [isPlace, Bool.and_eq_true, decide_eq_true_eq] at hdst
    have hk : k ≠ .void := by
      rintro rfl
      exact absurd hdst.1 (by decide)
    exact .pure ⟨Nat.le_refl _, nofun, fun s => ⟨s, _, rfl, .refl n s, rfl, ⟨hk, hdst.2⟩,
      fun _ _ _ => rfl⟩⟩
  | mem k args p =>
    rw [isPlace, Bool.and_eq_true, Bool.and_eq_true] at hdst
    obtain ⟨⟨hlowered, htyped⟩, hbelow⟩ := hdst
    rw [typed, Bool.and_eq_true] at htyped
    obtain ⟨a, b, hcompile, hla, hba, haddress, hvalue⟩ :=
      address_compiled (w := w) hlowered htyped.2 hbelow
    have hstart : (compileExpr (.mem k args p) >>= fun r => toPlace r.1) =
        toVarConst a (compiled a) >>= fun address => Pure.pure (.mem k [address] .fresh) := by
      have hself : compileExpr (.mem k args p) = Pure.pure (.mem k args p, false) :=
        compileExprWith_lowered compiled _ hlowered
      have hagain : compileExpr a = compiled a := compileExprWith_lowered compiled a hla
      rw [hself, CompileM.pure_bind, toPlace, hcompile, CompileM.pure_bind]
      dsimp only
      rw [hagain]
    have hlocate : ∀ s : State, ∀ v, runListAt w args s = some (v, s.heap) →
        (Expr.mem k args p).locate w s.vars s.heap = some (.mem k v.sum, s.heap) := by
      intro s v hv
      rw [locate]
      change (runListAt w args s).bind _ = _
      rw [hv]
      rfl
    have hsingle : ∀ (x : Expr) (ρ : Vars) (h : Heap) (v : BitVec 64),
        x.run w ρ h = some (v, h) → (Expr.mem k [x] .fresh).locate w ρ h = some (.mem k v, h) := by
      intro x ρ h v hv
      have hlist : runList w ρ [x] h = some ([v], h) := runList_cons.mpr ⟨v, h, [], hv, rfl, rfl⟩
      rw [locate, hlist]
      simp only [Option.bind_eq_bind, Option.bind_some, List.sum_cons, List.sum_nil, add_zero]
    rw [hstart]
    obtain ⟨hkept, hany⟩ | ⟨hvar, hvalid, hscalar, hcall, hcopy, hnormal⟩ := haddress
    · rw [hkept, CompileM.pure_bind]
      refine .pure ⟨Nat.le_refl _, nofun, fun s => ?_⟩
      obtain ⟨vs, hvs, ha⟩ := hvalue s
      refine ⟨s, .mem k vs.sum, rfl, .refl n s, hlocate s vs hvs, trivial, fun ρ hagree h => ?_⟩
      have hsame := run_congr (w := w) hagree a (varsBelow_mono hc a hba) s.heap
      exact hsingle a ρ h _ (hany ρ s.heap h _ (hsame.symm.trans ha))
    · rw [hcopy, toVar_compiled hvar hvalid]
      refine (copyTo_makes (Kind.ne_bad hscalar) a c).bind (copyTo_grows _ _)
        (fun _ => grows_basic.pure _) fun v o c' hle hv => ?_
      obtain ⟨-, id, rfl, hlt, hid, rfl⟩ := hv
      refine .pure ⟨hle, fun st hst => ?_, fun s => ?_⟩
      · rw [List.append_nil, List.mem_singleton] at hst
        rw [hst]
        rfl
      · obtain ⟨vs, hvs, ha⟩ := hvalue s
        refine ⟨s.setVar a.kind id vs.sum, .mem k vs.sum, ?_, ⟨?_, rfl⟩, hlocate s vs hvs,
          trivial, fun ρ hagree h => hsingle _ ρ h _ ?_⟩
        · rw [List.append_nil, runPiece_assign, ← runAt, ha]
          rfl
        · exact (State.setVar_agree s (hid.imp_right fun h => hc.trans_eq h.symm) _)
        · have hk : a.kind ≠ .void := by
            intro hk
            rw [hk] at hscalar
            exact absurd hscalar (by decide)
          rw [run, ← hagree a.kind id hk hlt, State.setVar_vars, hnormal ha]
  | _ => cases hdst

/-- A place denotes the same location where the variables of the function and the heap are the
same. -/
theorem locate_same {dst : Expr} (hdst : dst.isPlace n) {s t : State} (hst : Same n s t) :
    dst.locate w t.vars t.heap = dst.locate w s.vars s.heap := by
  cases dst with
  | var k id => rw [locate, locate, hst.heap]
  | mem k args p =>
    rw [isPlace, Bool.and_eq_true, Bool.and_eq_true] at hdst
    rw [locate, locate, hst.heap, runList_congr hst.vars hdst.2]
  | _ => cases hdst

/-! ## Assignments -/

theorem assignEffect_located {op : OpStmt2} {dst src : Expr} {loc : Location} {s : State}
    (hloc : dst.locate w s.vars s.heap = some (loc, s.heap)) :
    assignEffect w op dst src s = (src.runAt w s).bind fun r =>
      (op.stored loc.kind (loc.read { s with heap := r.2 }) r.1).map
        (loc.write { s with heap := r.2 }) := by
  rw [assignEffect, hloc, runAt]
  simp only [Option.bind_eq_bind, Option.bind_some]
  cases src.run w s.vars s.heap with
  | none => rfl
  | some r =>
    rw [Option.bind_some, Option.bind_some]
    cases op.stored loc.kind (loc.read { s with heap := r.2 }) r.1 <;> rfl

theorem compileAssign_nodes (op : OpStmt2) (dst src place : Expr) (r : Compiled) (c : Compiler) :
    ∃ d e, (d = place ∧ e = r.1 ∨ r.2 = false ∧ d = dst ∧ e = src) ∧
      (if r.2 || !sameNode dst r.1 then add (.assign op place r.1) else add (.assign op dst src)) c =
        ((), ⟨[.assign op d e], []⟩, c) := by
  split
  · exact ⟨place, r.1, .inl ⟨rfl, rfl⟩, rfl⟩
  · next h =>
    rw [Bool.or_eq_true, not_or, Bool.not_eq_true] at h
    exact ⟨dst, src, .inr ⟨h.1, rfl, rfl⟩, rfl⟩

/-- An assignment: the place is located before the source is evaluated. -/
theorem assign_performs (hunique : (machine w).Unique prog) {op : OpStmt2} (hop : op.isAssign)
    {dst src : Expr} (hdst : dst.isPlace n) (hsrc : src.usable n) :
    Performs w prog turns n results
      (compileAssign op dst src (compileExpr dst >>= fun r => toPlace r.1) (compileExpr src))
      fun s => .ofOption (assignEffect w op dst src s) := by
  refine Performs.of_option fun c hc => ?_
  refine (Succeeds.of_makes (place_makes (w := w) hdst hc.vars)).bind (fun _ => ?_)
    fun place o c₁ ⟨hle, hplace⟩ => ?_
  · exact grows_basic.bind (grows_basic.compileExpr _) fun _ =>
      Basic.ite _ (grows_basic.add _) (grows_basic.add _)
  have hc₁ : n ≤ bound c₁ := hc.vars.trans (Nat.add_le_add_right hle _)
  obtain ⟨hbelow, hsucceeds⟩ := compileExpr_succeeds (w := w) hsrc hc₁
  refine hsucceeds.bind (fun _ => Basic.ite _ (grows_basic.add _) (grows_basic.add _))
    fun r o' c₂ ⟨_, hreturn, hr⟩ => ?_
  obtain ⟨d, e, hnodes, hadd⟩ := compileAssign_nodes op dst src place r c₂
  intro _ _ post hpost s t hst
  dsimp only at hpost ⊢
  rw [hadd] at hpost ⊢
  simp only [List.append_assoc] at hpost ⊢
  obtain ⟨t₁, loc, hrun₁, hsame, hlocate, hknown, hlater⟩ := hplace.runs t
  obtain ⟨t₁', rfl, hreach₁⟩ := Machine.runs_of_forward hunique hrun₁ _ hpost
  have hpost' : o' ++ ([.assign op d e] ++ post) <:+ prog :=
    (List.suffix_append o _).trans hpost
  have hst₁ : Same n s t₁' := ⟨hst.vars.trans hsame.vars, hsame.heap.trans hst.heap⟩
  have hlocateS : dst.locate w s.vars s.heap = some (loc, s.heap) := by
    rw [← locate_same hdst hst, hlocate, hst.heap]
  have heffect : ∀ t', effect w (.assign op d e) t' = (assignEffect w op d e t').map .fall := by
    intro t'
    rw [effect, if_pos hop]
  rw [assignEffect_located hlocateS]
  cases hrun : src.runAt w s with
  | none =>
    obtain ⟨b, hb, hreach⟩ | ⟨t₂, hreach₂, hnone, hagree⟩ :=
      hr.stuck hunique hreturn hpost' hbelow hst₁ hrun
    · exact ⟨b, hb, hreach₁.trans hreach⟩
    · refine ⟨_, ⟨.assign op d e, post, rfl, rfl, ?_⟩, hreach₁.trans hreach₂⟩
      obtain ⟨hloc, he⟩ : (∃ loc, d.locate w t₂.vars t₂.heap = some (loc, t₂.heap)) ∧ e = r.1 := by
        obtain ⟨rfl, rfl⟩ | ⟨hkept, rfl, rfl⟩ := hnodes
        · exact ⟨⟨loc, hlater _ hagree _⟩, rfl⟩
        · obtain ⟨_, loc₂, -, -, hloc₂, -⟩ := hplace.runs t₂
          exact ⟨⟨loc₂, hloc₂⟩, (hr.kept hkept).symm⟩
      obtain ⟨loc₂, hloc₂⟩ := hloc
      rw [heffect, assignEffect_located hloc₂, he, hnone]
      rfl
  | some v =>
    obtain ⟨v, h'⟩ := v
    obtain ⟨t₂, hreach₂, hagree, hst₂, hvalue⟩ := hr.arrives hunique hpost' hbelow hst₁ hc₁ hrun
    obtain ⟨hloc, he⟩ : d.locate w t₂.vars t₂.heap = some (loc, t₂.heap) ∧ e = r.1 := by
      obtain ⟨rfl, rfl⟩ | ⟨hkept, rfl, rfl⟩ := hnodes
      · exact ⟨hlater _ hagree _, rfl⟩
      · have hself := hr.kept hkept
        have hheap : h' = s.heap := runAt_heap (hself ▸ hr.describes.noCall) hrun
        rw [hheap] at hst₂
        rw [locate_same hdst hst₂, hlocateS, ← hst₂.heap]
        exact ⟨rfl, hself.symm⟩
    have hheap : t₂.heap = h' := hst₂.heap
    have hstate : ({ t₂ with heap := h' } : State) = t₂ := by rw [← hheap]
    have hstep : effect w (.assign op d e) t₂ =
        ((op.stored loc.kind (loc.read { s with heap := h' }) v).map (loc.write t₂)).map .fall := by
      rw [heffect, assignEffect_located hloc, he, hvalue, Option.bind_some]
      dsimp only
      rw [hstate, hst₂.read hknown]
    rw [Option.bind_some]
    dsimp only
    cases hstored : op.stored loc.kind (loc.read { s with heap := h' }) v with
    | none =>
      rw [hstored] at hstep
      exact ⟨_, ⟨.assign op d e, post, rfl, rfl, hstep⟩, hreach₁.trans hreach₂⟩
    | some u =>
      rw [hstored] at hstep
      refine ⟨loc.write t₂ u, hst₂.write loc u, ?_⟩
      exact ((hreach₁.trans hreach₂).trans (.fall hstep)).mono (Nat.zero_le _)

theorem isPlace_lowered {dst : Expr} (hdst : dst.isPlace n) : dst.lowered := by
  cases dst with
  | var k id => rfl
  | mem k args p =>
    rw [isPlace, Bool.and_eq_true, Bool.and_eq_true] at hdst
    exact hdst.1.1
  | _ => cases hdst

theorem isPlace_locates {dst : Expr} (hdst : dst.isPlace n) (s : State) :
    ∃ loc, dst.locate w s.vars s.heap = some (loc, s.heap) ∧ loc.Known n := by
  cases dst with
  | var k id =>
    rw [isPlace, Bool.and_eq_true, decide_eq_true_eq] at hdst
    refine ⟨_, rfl, ?_, hdst.2⟩
    rintro rfl
    exact absurd hdst.1 (by decide)
  | mem k args p =>
    rw [isPlace, Bool.and_eq_true, Bool.and_eq_true] at hdst
    obtain ⟨v, hv⟩ := run_of_not_mayTrap (w := w) (ρ := s.vars) (.mem k args p)
      (operand_mayTrap _ rfl hdst.1.1) (operand_hasCall _ rfl hdst.1.1) s.heap
    obtain ⟨vs, hvs, -⟩ := run_mem.mp hv
    refine ⟨.mem k vs.sum, ?_, trivial⟩
    rw [locate, hvs]
    rfl
  | _ => cases hdst

/-- An increment or a decrement. -/
theorem step_performs {op : OpStmt1} {step : BitVec 64} {dst : Expr} (hdst : dst.isPlace n)
    (heffect : ∀ t, effect w (.stmt1 op dst) t = (stepEffect w step dst t).map .fall) :
    Performs w prog turns n results (compileExpr dst >>= fun r => add (.stmt1 op r.1))
      fun s => .ofOption (stepEffect w step dst s) := by
  refine Performs.of_option fun c _ => ?_
  have hself : compileExpr dst = pure (dst, false) :=
    compileExprWith_lowered compiled dst (isPlace_lowered hdst)
  rw [hself, CompileM.pure_bind]
  intro _ _ post _ s t hst
  obtain ⟨loc, hloc, hknown⟩ := isPlace_locates (w := w) hdst s
  have hloc' := hloc
  rw [← locate_same hdst hst, ← hst.heap] at hloc'
  have hstep : effect w (.stmt1 op dst) t =
      some (.fall (loc.write t (loc.kind.wrap (loc.read s + step)))) := by
    rw [heffect, stepEffect, hloc', ← hst.read hknown]
    rfl
  have hs : stepEffect w step dst s = some (loc.write s (loc.kind.wrap (loc.read s + step))) := by
    rw [stepEffect, hloc]
    rfl
  rw [hs]
  exact ⟨_, hst.write loc _, (Machine.Reaches.fall hstep).mono (Nat.zero_le _)⟩

/-! ## Return -/

/-- Different variables of the function. -/
def IsResults (n : Nat) (results : List Expr) : Prop :=
  (∀ r ∈ results, ∃ k id, r = .var k id ∧ k.isScalar ∧ id < n) ∧ results.Nodup

theorem sameNode_var {e : Expr} {k : Kind} {id : Nat} (h : sameNode e (.var k id)) :
    e = .var k id := by
  cases e with
  | var k' id' =>
    rw [sameNode, Bool.and_eq_true, beq_iff_eq, beq_iff_eq] at h
    rw [h.1, h.2]
  | _ => cases h

/-- One turn of the loop of `compile(Return)`. -/
theorem result_succeeds (hunique : (machine w).Unique prog) {k : Kind} {id : Nat}
    {e : Expr} (he : e.isCopied n) (hkind : k = e.kind)
    {c : Compiler} (hc : n ≤ bound c) :
    Succeeds (takeIf (!sameNode e (.var k id)) do
        let (value, _) ← compileExpr e
        add (.assign .assign (.var k id) value)) c fun _ o _ =>
      ∀ post, o ++ post <:+ prog → ∀ t : State,
        match e.runAt w t with
        | some (v, h') => ∃ t', (machine w).Reaches prog 0 (o ++ post, t) (post, t') ∧
          t'.heap = h' ∧ k.wrap (t'.vars k id) = v ∧
          ∀ k' id', k' ≠ .void → id' < n → sameNode e (.var k id) ∨ ¬(k' = k ∧ id' = id) →
            t'.vars k' id' = t.vars k' id'
        | .none => ∃ b, (observer w n).stuck b ∧ (machine w).Reaches prog 0 (o ++ post, t) b := by
  rw [isCopied, Bool.and_eq_true, Bool.and_eq_true, beq_iff_eq] at he
  obtain ⟨husable, hkindE, hscalar⟩ := he
  cases hsame : sameNode e (.var k id) with
  | true =>
    intro _ _ post _ t
    rw [sameNode_var hsame]
    exact ⟨t, .refl _, rfl, rfl, fun _ _ _ _ _ => rfl⟩
  | false =>
    obtain ⟨hbelow, hsucceeds⟩ := compileExpr_succeeds (w := w) husable hc
    refine hsucceeds.bind (fun _ => grows_basic.add _) fun r o c' ⟨_, hreturn, hr⟩ => ?_
    intro _ _ post hpost t
    change (o ++ [Stmt.assign .assign (.var k id) r.1]) ++ post <:+ prog at hpost
    change match e.runAt w t with
      | some (v, h') => ∃ t', (machine w).Reaches prog 0
          ((o ++ [Stmt.assign .assign (.var k id) r.1]) ++ post, t) (post, t') ∧ _
      | .none => ∃ b, _ ∧ (machine w).Reaches prog 0
          ((o ++ [Stmt.assign .assign (.var k id) r.1]) ++ post, t) b
    rw [List.append_assoc] at hpost ⊢
    cases hrun : e.runAt w t with
    | none =>
      refine hr.stuck_at hunique hreturn hpost hbelow (.refl n t) hrun rfl fun t' hnone => ?_
      rw [assign_effect, ← runAt, hnone]
      rfl
    | some v =>
      obtain ⟨t', hreach, -, hst', hvalue⟩ :=
        hr.arrives hunique hpost hbelow (.refl n t) hc hrun
      have hstep := assign_effect (w := w) k id r.1 t'
      rw [← runAt, hvalue] at hstep
      refine ⟨_, (hreach.trans (.fall hstep)).mono (Nat.zero_le _), rfl, ?_, ?_⟩
      · rw [State.setVar_vars, hkind, hkindE]
        exact hr.describes.normal hscalar hvalue
      · intro k' id' hk' hid' hne
        obtain hne | hne := hne
        · cases hne
        · change (if k' = k ∧ id' = id then v.1 else t'.vars k' id') = _
          rw [if_neg hne]
          exact (hst'.vars k' id' hk' hid').symm

theorem inOrder_cons {r : Expr} {rs : List Expr} {arg : Stmt} {args : List Stmt}
    (h : inOrder n (r :: rs) (arg :: args)) : arg.toExpr.isCopied n ∧
      (sameNode arg.toExpr r ∨ ∀ a ∈ args, r.reads a.toExpr = false) ∧ inOrder n rs args := by
  rw [inOrder, Bool.and_eq_true, Bool.and_eq_true, Bool.or_eq_true, List.all_eq_true] at h
  exact ⟨h.1.1, h.1.2.imp_right fun hall a ha => Bool.not_eq_true' _ ▸ hall a ha, h.2⟩

theorem inOrder_below {rs : List Expr} {args : List Stmt} (hlen : args.length = rs.length)
    (h : inOrder n rs args) : ∀ a ∈ args, a.toExpr.varsBelow n := by
  induction rs generalizing args with
  | nil =>
    rw [List.length_nil, List.length_eq_zero_iff] at hlen
    rw [hlen]
    nofun
  | cons r rs ih =>
    cases args with
    | nil => nofun
    | cons arg args =>
      obtain ⟨hcopied, -, hrest⟩ := inOrder_cons h
      rw [isCopied, usable, Bool.and_eq_true, Bool.and_eq_true] at hcopied
      exact List.forall_mem_cons.mpr ⟨hcopied.1.2, ih (Nat.succ.inj hlen) hrest⟩

/-- The loop of `compile(Return)`: each expression is evaluated with the variables that it reads as
they were, and each result still has its value at the end. -/
theorem results_succeeds (hunique : (machine w).Unique prog) {st : Stmt} {rs : List Expr}
    {args : List Stmt} (hlen : args.length = rs.length) (hrs : IsResults n rs)
    (horder : inOrder n rs args) {c : Compiler} (hc : n ≤ bound c) :
    Succeeds (compileResults st rs args) c fun _ o _ => ∀ post, o ++ post <:+ prog →
      ∀ (ρ : Vars) (t : State),
        (∀ a ∈ args, ∀ k id, a.toExpr.usesVar k id → k ≠ .void → ρ k id = t.vars k id) →
        match runList w ρ (args.map Stmt.toExpr) t.heap with
        | some (vs, h') => ∃ t', (machine w).Reaches prog 0 (o ++ post, t) (post, t') ∧
          t'.heap = h' ∧ runList w t'.vars rs h' = some (vs, h') ∧
          ∀ k id, k ≠ .void → id < n → .var k id ∉ rs → t'.vars k id = t.vars k id
        | .none => ∃ b, (observer w n).stuck b ∧ (machine w).Reaches prog 0 (o ++ post, t) b := by
  induction rs generalizing args c with
  | nil =>
    rw [List.length_nil, List.length_eq_zero_iff] at hlen
    rw [hlen]
    exact .pure fun post _ ρ t _ => ⟨t, .refl _, rfl, rfl, fun _ _ _ _ _ => rfl⟩
  | cons r rs ih =>
    cases args with
    | nil => cases hlen
    | cons arg args =>
      obtain ⟨hcopied, hreads, hrest⟩ := inOrder_cons horder
      obtain ⟨hall, hnodup⟩ := hrs
      rw [List.forall_mem_cons] at hall
      obtain ⟨⟨k, id, rfl, hk, hid⟩, hall⟩ := hall
      rw [List.nodup_cons] at hnodup
      have hlen' := Nat.succ.inj hlen
      rw [compileResults]
      by_cases hkind : k = arg.toExpr.kind
      rotate_left
      · have hne : ((Expr.var k id).kind != arg.toExpr.kind) = true := bne_iff_ne.mpr hkind
        rw [hne]
        exact .error
      have heq : ((Expr.var k id).kind != arg.toExpr.kind) = false := bne_eq_false_iff_eq.mpr hkind
      rw [heq]
      refine .silent rfl ?_
      have hassign : Respects Grows (do
          let (value, _) ← compileExpr arg.toExpr
          add (.assign .assign (.var k id) value)) :=
        grows_basic.bind (grows_basic.compileExpr _) fun _ => grows_basic.add _
      refine (result_succeeds hunique hcopied hkind hc).steady
        (steady_basic.takeIf _ (steady_basic.bind (steady_basic.compileExpr _)
          fun _ => steady_basic.add _)) |>.bind (fun _ => grows_basic.compileResults _ _ _)
        fun _ o c' ⟨hsteady, hfirst⟩ => ?_
      have hc' : n ≤ bound c' := hc.trans (Nat.add_le_add_right hsteady.2.1 _)
      refine (ih hlen' ⟨hall, hnodup.2⟩ hrest hc').mono fun _ o' _ hlast post hpost ρ t hagree => ?_
      rw [List.append_assoc] at hpost ⊢
      rw [List.forall_mem_cons] at hagree
      have hvalue : arg.toExpr.run w ρ t.heap = arg.toExpr.runAt w t :=
        run_congr_on arg.toExpr hagree.1 t.heap
      have hrun := hfirst _ hpost t
      rw [List.map_cons, runList, hvalue]
      cases hv : arg.toExpr.runAt w t with
      | none =>
        rw [hv] at hrun
        exact hrun
      | some v =>
        obtain ⟨v, h'⟩ := v
        rw [hv] at hrun
        obtain ⟨t₁, hreach, rfl, hstored, hkept⟩ := hrun
        have hagree' : ∀ a ∈ args, ∀ k' id', a.toExpr.usesVar k' id' → k' ≠ .void →
            ρ k' id' = t₁.vars k' id' := by
          intro a ha k' id' huse hk'
          have hbelow := varsBelow_usesVar a.toExpr (inOrder_below hlen' hrest a ha) huse
          rw [hkept k' id' hk' hbelow, hagree.2 a ha k' id' huse hk']
          refine hreads.imp_right fun hno => ?_
          rintro ⟨rfl, rfl⟩
          have hnot : a.toExpr.usesVar k' id' = false := hno a ha
          rw [huse] at hnot
          cases hnot
        have hrun' := hlast post ((List.suffix_append o _).trans hpost) ρ t₁ hagree'
        simp only [Option.bind_eq_bind, Option.bind_some]
        cases hvs : runList w ρ (args.map Stmt.toExpr) t₁.heap with
        | none =>
          rw [hvs] at hrun'
          obtain ⟨b, hb, hreach'⟩ := hrun'
          exact ⟨b, hb, hreach.trans hreach'⟩
        | some vs =>
          obtain ⟨vs, h''⟩ := vs
          rw [hvs] at hrun'
          obtain ⟨t₂, hreach', rfl, hlist, hkept'⟩ := hrun'
          have hvoid : k ≠ .void := by
            rintro rfl
            exact absurd hk (by decide)
          refine ⟨t₂, hreach.trans hreach', rfl, ?_, ?_⟩
          · refine runList_cons.mpr ⟨v, t₂.heap, vs, ?_, hlist, rfl⟩
            rw [run, hkept' k id hvoid hid hnodup.1, hstored]
          · intro k' id' hk' hid' hnot
            rw [List.mem_cons, not_or] at hnot
            rw [hkept' k' id' hk' hid' hnot.2, hkept k' id' hk' hid' (.inr ?_)]
            rintro ⟨rfl, rfl⟩
            exact hnot.1 rfl

theorem usesFuncResults_map {results : List Expr} {args : List Stmt}
    (hresults : ∀ r ∈ results, ∃ k id, r = .var k id ∧ k.isScalar ∧ id < n)
    (hlen : args.length = results.length) (huse : usesFuncResults results args) :
    args.map Stmt.toExpr = results := by
  induction results generalizing args with
  | nil =>
    rw [List.length_nil, List.length_eq_zero_iff] at hlen
    rw [hlen]
    rfl
  | cons r rs ih =>
    cases args with
    | nil => cases hlen
    | cons arg args =>
      rw [List.forall_mem_cons] at hresults
      obtain ⟨⟨k, id, rfl, -⟩, hrest⟩ := hresults
      rw [usesFuncResults, List.zip_cons_cons, List.all_cons, Bool.and_eq_true] at huse
      have hargs := ih hrest (Nat.succ.inj hlen) huse.2
      cases arg with
      | expr e =>
        rw [List.map_cons, hargs, sameNode_var huse.1]
        rfl
      | _ => cases huse.1

theorem results_run {results : List Expr}
    (hresults : ∀ r ∈ results, ∃ k id, r = .var k id ∧ k.isScalar ∧ id < n) :
    varsBelowList n results ∧ ∀ (ρ : Vars) (h : Heap), ∃ vs,
      runList w ρ results h = some (vs, h) := by
  induction results with
  | nil => exact ⟨rfl, fun _ _ => ⟨[], rfl⟩⟩
  | cons r rs ih =>
    rw [List.forall_mem_cons] at hresults
    obtain ⟨⟨k, id, rfl, -, hid⟩, hrest⟩ := hresults
    obtain ⟨hbelow, hrun⟩ := ih hrest
    refine ⟨?_, fun ρ h => ?_⟩
    · rw [varsBelowList, hbelow, Bool.and_true]
      exact decide_eq_true hid
    · obtain ⟨vs, hvs⟩ := hrun ρ h
      exact ⟨_, runList_cons.mpr ⟨_, h, vs, rfl, hvs, rfl⟩⟩

theorem results_toExpr {results : List Expr}
    (hresults : ∀ r ∈ results, ∃ k id, r = .var k id ∧ k.isScalar ∧ id < n) :
    (results.map Stmt.expr).map Stmt.toExpr = results := by
  rw [List.map_map, List.map_congr_left (g := id), List.map_id]
  intro r hr
  obtain ⟨k, id, rfl, -⟩ := hresults r hr
  rfl

/-- A `Return` of the variables that hold the results. -/
theorem returned_simulates
    (hresults : ∀ r ∈ results, ∃ k id, r = .var k id ∧ k.isScalar ∧ id < n) {args : List Stmt}
    (hargs : args.map Stmt.toExpr = results) (exits : Exits Stmt) :
    (machine w).Simulates prog (observer w n) turns exits [.stmtN .return args]
      ((stmtN .return args).outcome w turns) := by
  intro post _ s t hst
  obtain ⟨hbelow, hsome⟩ := results_run (w := w) hresults
  obtain ⟨vs, hvs⟩ := hsome s.vars s.heap
  have hvs' := hvs
  rw [runList_congr hst.vars hbelow, ← hst.heap] at hvs'
  rw [Stmt.outcome, hargs]
  dsimp only
  rw [hvs]
  refine ⟨_, ⟨args, post, rfl, ?_⟩, .refl _⟩
  rw [hargs, hvs', hst.heap]

/-- A `Return`, of the variables that hold the results or of expressions that are stored in them. -/
theorem return_performs (hunique : (machine w).Unique prog) (hresults : IsResults n results)
    {args : List Stmt} (hright : usesFuncResults results args || inOrder n results args) :
    Performs w prog turns n results (compileReturn args) ((stmtN .return args).outcome w turns) := by
  intro c hc
  refine .silent rfl ?_
  rw [hc.results]
  by_cases hlen : args.length = results.length
  rotate_left
  · rw [if_pos hlen]
    exact .error
  rw [if_neg (not_not.mpr hlen)]
  by_cases huse : usesFuncResults results args
  · rw [if_pos huse]
    exact fun _ _ exits _ =>
      returned_simulates hresults.1 (usesFuncResults_map hresults.1 hlen huse) exits
  · rw [Bool.or_eq_true, or_iff_right huse] at hright
    rw [if_neg huse]
    refine (results_succeeds (w := w) hunique hlen hresults hright hc.vars).bind
      (fun _ => grows_basic.add _) fun _ o c' hruns => ?_
    intro _ _ exits _ post hpost s t hst
    change (o ++ [Stmt.stmtN .return (results.map .expr)]) ++ post <:+ prog at hpost
    change Machine.Follows _ _ _ _ _ _ ((o ++ [Stmt.stmtN .return (results.map .expr)]) ++ post, t) _
    rw [List.append_assoc] at hpost ⊢
    have hargs : ∀ a ∈ args, ∀ k id, a.toExpr.usesVar k id → k ≠ .void →
        s.vars k id = t.vars k id := fun a ha k id huse hk =>
      hst.vars k id hk (varsBelow_usesVar a.toExpr (inOrder_below hlen hright a ha) huse)
    have hrun := hruns _ hpost s.vars t hargs
    rw [hst.heap] at hrun
    rw [Stmt.outcome]
    dsimp only
    cases hvs : runList w s.vars (args.map Stmt.toExpr) s.heap with
    | none =>
      rw [hvs] at hrun
      exact hrun
    | some vs =>
      obtain ⟨vs, h'⟩ := vs
      rw [hvs] at hrun
      obtain ⟨t', hreach, rfl, hlist, -⟩ := hrun
      refine ⟨_, ⟨_, post, rfl, ?_⟩, hreach⟩
      rw [results_toExpr hresults.1]
      exact hlist

end Performs

end Compiler

end OneJit
