import OneJit.LoweredOperands
import OneJit.ShortCircuit

/-!
# Lowering calls

The arguments of a call are copied to variables from left to right, the callee is evaluated after
them, and the result is assigned to a new variable of the kind of the call.
-/

namespace OneJit

open FlatCode Stmt

namespace Compiler

open Expr CompileM

variable {w : Host}

/-! ## Arguments -/

variable (w) in
/-- What is emitted for an argument that is copied, and the variable that holds it. -/
structure LoweredArg (n : Nat) (x v : Expr) (piece : List Stmt) (c' : Compiler) : Prop where
  isVar : v.isVar
  below : v.varsBelow (bound c')
  emitted : Emitted w n x.hasCall true piece
  value : ∀ s : State, (runPiece w piece s).bind (v.runAt w) = x.runAt w s

/-- What is emitted to assign a compiled expression. -/
theorem assignCompiled_makes {v x : Expr} {c : Compiler}
    (hx : Makes (compileExprWith compiled x) c (LoweredTo w (bound c) x)) :
    Makes (compileAssign .assign v x (pure v) (compileExprWith compiled x)) c fun _ piece c' =>
      ∃ r o, LoweredTo w (bound c) x r o c' ∧ piece = o ++ [.assign .assign v r.1] := by
  unfold compileAssign
  rw [CompileM.pure_bind]
  refine hx.bind (compileExprWith_grows x)
    (fun _ => Basic.ite _ (grows_basic.add _) (grows_basic.add _)) ?_
  intro r o c' _ hr _
  refine ⟨r, o, ?_⟩
  dsimp only
  split
  · exact ⟨hr, rfl⟩
  · next hsame =>
    rw [Bool.or_eq_true, not_or, Bool.not_eq_true] at hsame
    refine ⟨hr, ?_⟩
    rw [hr.kept hsame.1]
    rfl

/-- A variable is left as it is, and another argument is assigned to a new variable. -/
theorem arg_makes {x : Expr} {c : Compiler} (hcopies : copiesArg x) (hbelow : x.varsBelow (bound c))
    (hx : ∀ c₁, bound c ≤ bound c₁ →
      Makes (compileExprWith compiled x) c₁ (LoweredTo w (bound c₁) x)) :
    Makes (toVar x (compileExprWith compiled x)) c (LoweredArg w (bound c) x) := by
  by_cases hvar : x.isVar
  · rw [toVar, if_pos hvar]
    exact .pure ⟨hvar, hbelow, .nil, fun _ => rfl⟩
  · rw [copiesArg, Bool.eq_false_iff.mpr hvar, Bool.false_or, Bool.and_eq_true, beq_iff_eq]
      at hcopies
    obtain ⟨hkind, hscalar⟩ := hcopies
    have hbad : x.kind ≠ .bad := hkind ▸ Kind.ne_bad hscalar
    have hvalid := toExpr_isValid (bne_iff_ne.mpr hbad) hscalar
    have hgrow := fun v => grows_basic.compileAssign .assign v x (grows_basic.pure v)
      (compileExprWith_grows x)
    rw [toVar, if_neg hvar, if_pos hvalid]
    refine (newVar_makes hbad c).bind (grows_basic.newVar _)
      (fun v => grows_basic.bind (hgrow v) fun _ => grows_basic.pure _) ?_
    intro v o c₁ hle hv
    obtain ⟨rfl, hbound, id, rfl, hlt, hid⟩ := hv
    refine (assignCompiled_makes (hx c₁ (by omega))).bind (hgrow _) (fun _ => grows_basic.pure _) ?_
    intro _ piece c₂ hle' hpiece
    obtain ⟨r, o, hr, rfl⟩ := hpiece
    have hn : bound c₁ ≤ bound c₂ := Nat.add_le_add_right hle' _
    have hid : x.kind = .void ∨ bound c ≤ id := hid.imp_right Eq.ge
    have hcopy : Emitted w (bound c) false true [.assign .assign (.var x.kind id) r.1] :=
      (Emitted.assign hid r.1).weaken (fun _ => hr.describes.noCall) (fun h => by cases h)
    have hfirst : Emitted w (bound c) x.hasCall (outline x).eager o :=
      hr.emitted.mono (by omega)
    apply Makes.pure
    rw [List.append_nil, List.nil_append]
    refine ⟨rfl, decide_eq_true (hlt.trans_le hn), ?_, fun s => ?_⟩
    · refine (hfirst.append hcopy (Nat.le_refl _)).weaken (fun hno => ?_) (fun h => by cases h)
      rw [hno]
      rfl
    · rw [runPiece_append hr.emitted.closed, Option.bind_assoc, ← hr.value s]
      refine congrArg _ (funext fun s₁ => copy_value fun {v h} hrun => ?_)
      rw [hkind]
      exact hr.describes.normal hscalar hrun

variable (w) in
/-- What is emitted for the arguments of a call, and the variables that they are replaced with. -/
structure LoweredArgs (n : Nat) (args vars : List Expr) (piece : List Stmt) (c' : Compiler) :
    Prop where
  areVars : vars.all isVar
  below : varsBelowList (bound c') vars
  emitted : Emitted w n (hasCallList args) true piece
  value : ∀ s : State, (runPiece w piece s).bind (runListAt w vars) = runListAt w args s

theorem compileArgs_grows (args : List Expr) : Respects Grows (compileArgs compiled args) :=
  (grows_basic.compileExprWith compiled_grows).2.1 args

/-- A variable has a value in every state, whatever the memory. -/
theorem var_runAt {v : Expr} (hvar : v.isVar) (s : State) : ∃ a, v.runAt w s = some (a, s.heap) := by
  cases v with
  | var k id => exact ⟨_, rfl⟩
  | _ => cases hvar

theorem args_makes {args : List Expr} {c : Compiler} (hargs : computesList args)
    (hcopies : args.all copiesArg) (ht : typedList args) (hbelow : varsBelowList (bound c) args)
    (hall : ∀ x ∈ args, ∀ c, x.computes → x.typed → x.varsBelow (bound c) →
      Makes (compileExprWith compiled x) c (LoweredTo w (bound c) x)) :
    Makes (compileArgs compiled args) c (LoweredArgs w (bound c) args) := by
  induction args generalizing c with
  | nil =>
    rw [compileArgs]
    exact .pure ⟨rfl, rfl, .nil, fun _ => rfl⟩
  | cons x xs ih =>
    rw [computesList, Bool.and_eq_true] at hargs
    rw [List.all_cons, Bool.and_eq_true] at hcopies
    rw [typedList, Bool.and_eq_true] at ht
    rw [varsBelowList, Bool.and_eq_true] at hbelow
    rw [List.forall_mem_cons] at hall
    have hx : Makes (toVar x (compileExprWith compiled x)) c (LoweredArg w (bound c) x) :=
      arg_makes hcopies.1 hbelow.1 fun c₁ hn =>
        hall.1 c₁ hargs.1 ht.1 (varsBelow_mono hn x hbelow.1)
    rw [compileArgs]
    refine hx.bind (grows_basic.toVar x (compileExprWith_grows x))
      (fun _ => grows_basic.bind (compileArgs_grows xs) fun _ => grows_basic.pure _) ?_
    intro v o c₁ hle hv
    have hn : bound c ≤ bound c₁ := Nat.add_le_add_right hle _
    refine (ih hargs.2 hcopies.2 ht.2 (varsBelowList_mono hn hbelow.2) hall.2).bind
      (compileArgs_grows xs) (fun _ => grows_basic.pure _) ?_
    intro vs o' c₂ hle' hvs
    have hn' : bound c₁ ≤ bound c₂ := Nat.add_le_add_right hle' _
    apply Makes.pure
    rw [List.append_nil]
    refine ⟨?_, ?_, ?_, ?_⟩
    · rw [List.all_cons, hv.isVar, hvs.areVars]
      rfl
    · rw [varsBelowList, varsBelow_mono hn' v hv.below, hvs.below]
      rfl
    · exact hv.emitted.append hvs.emitted hn
    · refine runListAt_append hv.emitted hv.value hvs.value hbelow.2 (var_runAt hv.isVar)
        fun s s' hs' => ?_
      have hvar : v.hasCall = false ∧ v.readsMem = false := by
        have hisVar := hv.isVar
        cases v <;> first | exact ⟨rfl, rfl⟩ | cases hisVar
      refine run_kept (hvs.emitted.keeps hs').1 hv.below hvar.1 fun hreads => ?_
      rw [hvar.2] at hreads
      cases hreads

/-! ## The call -/

theorem wrap_void (a : BitVec 64) : Kind.void.wrap a = 0 := by
  rw [Kind.wrap, if_neg (by decide)]
  have hnil : a.setWidth Kind.void.bitsize = 0#0 := BitVec.eq_nil _
  rw [hnil]
  rfl

/-- A call of a kind that has values, or of none, has its result in the form of the kind. -/
theorem invoke_normal {k : Kind} (hk : k.isScalar || k == .void) (vs : List (BitVec 64))
    (h : Heap) : k.wrap (w.invoke k vs h).1 = (w.invoke k vs h).1 := by
  rw [Bool.or_eq_true, beq_iff_eq] at hk
  obtain hk | rfl := hk
  · exact Kind.wrap_wrap hk _
  · change Kind.void.wrap (Kind.void.wrap _) = Kind.void.wrap _
    rw [wrap_void, wrap_void]

variable (w) in
/-- What is emitted before a call, and the call that is evaluated there. -/
structure CallTo (n : Nat) (k : Kind) (e call : Expr) (piece : List Stmt) (c' : Compiler) :
    Prop where
  isCall : ∃ args q, call = .tuple k .call args q
  emitted : Emitted w n true true piece
  value : ∀ s : State, (runPiece w piece s).bind (call.runAt w) = e.runAt w s

/-- A call evaluates the callee and then the arguments. -/
theorem runAt_call {k : Kind} {rs params : List Kind} {address : Expr} {args : List Expr}
    (hcall : address.hasCall = false) (p : Place) (s : State) :
    (Expr.tuple k .call (.ftype rs params :: address :: args) p).runAt w s =
      (address.runAt w s).bind fun r => (runListAt w args s).map fun vs =>
        w.invoke k (0 :: r.1 :: vs.1) vs.2 := by
  rw [runAt_tuple, runListAt_cons]
  change ((runListAt w (address :: args) s).map _).bind _ = _
  rw [runListAt_cons]
  cases ha : address.runAt w s with
  | none => rfl
  | some r =>
    obtain ⟨a, h⟩ := r
    obtain rfl := runAt_heap hcall ha
    change (((runListAt w args s).map _).map _).bind _ = (runListAt w args s).map _
    cases runListAt w args s <;> rfl

/-- The call with its arguments in variables. -/
theorem rebuilt_makes {k : Kind} {rs params : List Kind} {p : Place} {address : Expr}
    {args : List Expr} {c : Compiler} (hkind : k = params.head?.getD .void)
    (hexpr : address.type.isExpr) (hcall : address.hasCall = false)
    (hmem : (readsMem address && hasCallList args) = false)
    (hbelow : address.varsBelow (bound c))
    (hargs : Makes (compileArgs compiled args) c (LoweredArgs w (bound c) args)) :
    Makes (rebuildCall (.ftype rs params) address <$> compileArgs compiled args) c
      (CallTo w (bound c) k (.tuple k .call (.ftype rs params :: address :: args) p)) := by
  refine hargs.map _ fun vars o c' hvars => ?_
  have hcallee : rebuildCall (.ftype rs params) address vars =
      .tuple k .call (.ftype rs params :: address :: vars) .fresh := by
    rw [rebuildCall, Expr.toExpr, if_pos hexpr, hkind]
  rw [hcallee]
  refine ⟨⟨_, _, rfl⟩, hvars.emitted.weaken (fun h => by cases h) id, fun s => ?_⟩
  have hkept : ∀ s', runPiece w o s = some s' →
      address.runAt w s' = (address.runAt w s).map fun r => (r.1, s'.heap) := by
    intro s' hs'
    obtain ⟨hagree, hheap⟩ := hvars.emitted.keeps hs'
    refine run_kept hagree hbelow hcall fun hreads => hheap ?_
    rw [hreads, Bool.true_and] at hmem
    exact hmem
  rw [runAt_call hcall]
  cases ha : address.runAt w s with
  | none =>
    cases hs' : runPiece w o s with
    | none => rfl
    | some s' =>
      rw [Option.bind_some, runAt_call hcall, hkept s' hs', ha]
      rfl
  | some r =>
    rw [Option.bind_some, ← hvars.value s, Option.map_bind]
    refine Option.bind_congr fun s' hs' => ?_
    rw [runAt_call hcall, hkept s' hs', ha]
    rfl

/-- The end of `compile(Call)`. -/
def finishCall (call : Expr) : CompileM Compiled := do
  let dst ← newVar call.kind
  add (.assign .assign dst call)
  return (dst, true)

/-- The call is made, and its result assigned to a new variable. -/
theorem finishCall_makes {k : Kind} {fn address : Expr} {args : List Expr} {p : Place}
    {c : Compiler} (hk : k.isScalar || k == .void) {m : CompileM Expr} (hgrow : Respects Grows m)
    (hm : Makes m c (CallTo w (bound c) k (.tuple k .call (fn :: address :: args) p))) :
    Makes (m >>= finishCall) c
      (LoweredTo w (bound c) (.tuple k .call (fn :: address :: args) p)) := by
  have hbad : k ≠ .bad := by
    rintro rfl
    cases hk
  refine hm.bind hgrow (fun _ => grows_basic.bind (grows_basic.newVar _) fun _ =>
    grows_basic.bind (grows_basic.add _) fun _ => grows_basic.pure _) ?_
  intro call o c₁ hle hcall
  have hn : bound c ≤ bound c₁ := Nat.add_le_add_right hle _
  obtain ⟨cargs, q, rfl⟩ := hcall.isCall
  refine (newVar_makes hbad c₁).bind (grows_basic.newVar k)
    (fun _ => grows_basic.bind (grows_basic.add _) fun _ => grows_basic.pure _) ?_
  intro v o' c₂ _ hv
  obtain ⟨rfl, -, id, rfl, hlt, hid⟩ := hv
  intro _
  have hkind : (Expr.tuple k .call (fn :: address :: args) p).valueKind = k :=
    valueKind_tuple (by decide) _ _
  have hid : k = .void ∨ bound c ≤ id := hid.imp_right fun h => hn.trans_eq h.symm
  refine ⟨?_, (fun h => by cases h), ?_, fun s => ?_⟩
  · exact .var hbad hkind.symm hlt _
  · exact (hcall.emitted.append (Emitted.assign hid _) (Nat.le_refl _)).weaken (fun h => by cases h) (fun h => by cases h)
  · change (runPiece w (o ++ [.assign .assign (.var k id) _]) s).bind _ = _
    rw [runPiece_append hcall.emitted.closed, Option.bind_assoc, ← hcall.value s]
    refine congrArg _ (funext fun s₁ => copy_value fun {v h} hrun => ?_)
    obtain ⟨vs, h₁, -, happly⟩ := run_tuple.mp hrun
    cases happly
    exact invoke_normal hk vs h₁

theorem call_makes {k : Kind} {rs params : List Kind} {address : Expr}
    {args : List Expr} {p : Place} {c : Compiler}
    (hcomputes : (Expr.tuple k .call (.ftype rs params :: address :: args) p).computes)
    (ht : (Expr.tuple k .call (.ftype rs params :: address :: args) p).typed)
    (hbelow : (Expr.tuple k .call (.ftype rs params :: address :: args) p).varsBelow (bound c))
    (hall : ∀ x ∈ args, ∀ c, x.computes → x.typed → x.varsBelow (bound c) →
      Makes (compileExprWith compiled x) c (LoweredTo w (bound c) x)) :
    Makes (compileExprWith compiled (.tuple k .call (.ftype rs params :: address :: args) p)) c
      (LoweredTo w (bound c) (.tuple k .call (.ftype rs params :: address :: args) p)) := by
  have hkinds : (k.isScalar || k == .void) ∧ (args.all isVar ||
      k == params.head?.getD .void && address.type.isExpr && !hasCall address &&
        !(readsMem address && hasCallList args) && computesList args && args.all copiesArg) := by
    rw [computes, Bool.and_eq_true] at hcomputes
    exact hcomputes
  obtain ⟨hk, hargs⟩ := hkinds
  rw [compileExprWith]
  split
  · refine finishCall_makes hk (grows_basic.pure _) (.pure ⟨⟨_, _, rfl⟩, .nil, fun _ => rfl⟩)
  · next hvars =>
    rw [Bool.eq_false_iff.mpr hvars, Bool.false_or] at hargs
    simp only [Bool.and_eq_true, Bool.not_eq_true', beq_iff_eq] at hargs
    obtain ⟨⟨⟨⟨⟨hkind, hexpr⟩, hcall⟩, hmem⟩, hlist⟩, hcopies⟩ := hargs
    simp only [Expr.typed, typedList, Bool.and_eq_true] at ht
    simp only [varsBelow, varsBelowList, Bool.and_eq_true] at hbelow
    exact finishCall_makes hk ((compileArgs_grows args).map _) (rebuilt_makes hkind hexpr hcall hmem
      hbelow.2.1 (args_makes hlist hcopies ht.1.2.2 hbelow.2.2 hall))

end Compiler

end OneJit
