import OneJit.JumpIf
import OneJit.Statements

/-!
# Lowered expressions and tests in a program

The pieces that expressions and tests are lowered to, wherever they stand in a program whose labels
are unique: where the expression has a value the run comes to the end of the piece and the lowered
expression has that value there, and otherwise the run is stuck.
-/

namespace OneJit

open FlatCode Stmt

/-- The variables of the function and the heap are the same. -/
structure Same (n : Nat) (s t : State) : Prop where
  vars : AgreeBelow n s.vars t.vars
  heap : t.heap = s.heap

theorem Same.refl (n : Nat) (s : State) : Same n s s := ⟨.refl n s.vars, rfl⟩

/-- A location of the function: in memory, or a variable below the bound. -/
def Location.Known (n : Nat) : Location → Prop
  | var k id => k ≠ .void ∧ id < n
  | mem _ _ => True

theorem Same.read {n : Nat} {s t : State} (h : Same n s t) {loc : Location} (hloc : loc.Known n) :
    loc.read t = loc.read s := by
  cases loc with
  | var k id => rw [Location.read, Location.read, h.vars k id hloc.1 hloc.2]
  | mem k addr => rw [Location.read, Location.read, h.heap]

theorem Same.write {n : Nat} {s t : State} (h : Same n s t) (loc : Location) (v : BitVec 64) :
    Same n (loc.write s v) (loc.write t v) := by
  cases loc with
  | var k id =>
    refine ⟨fun k' id' hk hid => ?_, h.heap⟩
    simp only [Location.write, State.setVar, h.vars k' id' hk hid]
  | mem k addr =>
    refine ⟨h.vars, ?_⟩
    simp only [Location.write, h.heap]

/-- How compiled code stands for statements: it may hold more variables, it returns where it comes
to a `Return`, and it is stuck at a statement without effect. -/
def observer (w : Host) (n : Nat) : Observer Stmt State State (List (BitVec 64)) where
  rel := Same n
  returns vs s b := ∃ args rest, b.1 = .stmtN .return args :: rest ∧
    Expr.runList w b.2.vars (args.map Stmt.toExpr) b.2.heap = some (vs, s.heap)
  stuck b := ∃ st rest, b.1 = st :: rest ∧ st.isReturn = false ∧ effect w st b.2 = none

namespace Compiler

open Expr CompileM

/-! ## Expressions emit no returns -/

/-- A step emits no return. -/
def NoReturn (_ : Compiler) (o : Output) (_ : Compiler) : Prop :=
  ∀ st ∈ o.nodes, st.isReturn = false

theorem noReturn_sequential : Sequential NoReturn where
  refl _ := nofun
  trans h h' st hst := by
    rw [Output.nodes_append, List.mem_append] at hst
    exact hst.elim (h st) (h' st)

section NoReturn

variable {α : Type}

theorem noReturn_pure (a : α) : Respects NoReturn (pure a : CompileM α) :=
  noReturn_sequential.pure a

theorem noReturn_bind {β : Type} {m : CompileM α} {f : α → CompileM β} (hm : Respects NoReturn m)
    (hf : ∀ a, Respects NoReturn (f a)) : Respects NoReturn (m >>= f) :=
  noReturn_sequential.bind hm hf

theorem noReturn_silent {m : CompileM α} (hm : ∀ c, (m c).2.1.nodes = []) : Respects NoReturn m := by
  intro c st hst
  rw [hm] at hst
  cases hst

theorem noReturn_newVar (kind : Kind) : Respects NoReturn (newVar kind) := by
  apply noReturn_silent
  intro c
  unfold newVar
  dsimp only
  split <;> rfl

theorem noReturn_newLabel : Respects NoReturn newLabel := by
  apply noReturn_silent
  intro c
  unfold newLabel
  split <;> rfl

theorem noReturn_add {node : Stmt} (h : node.isReturn = false) : Respects NoReturn (add node) := by
  intro c st hst
  change st ∈ (if isVoidConst node then [] else [node]) at hst
  split at hst
  · cases hst
  · rw [List.mem_singleton.mp hst]
    exact h

theorem noReturn_ite (p : Prop) [Decidable p] {m m' : CompileM α} (hm : Respects NoReturn m)
    (hm' : Respects NoReturn m') : Respects NoReturn (if p then m else m') := by
  split
  · exact hm
  · exact hm'

theorem noReturn_assign (op : OpStmt2) (dst src : Expr) {place : CompileM Expr}
    {comp : CompileM Compiled} (hplace : Respects NoReturn place) (hcomp : Respects NoReturn comp) :
    Respects NoReturn (compileAssign op dst src place comp) := by
  refine noReturn_bind hplace fun _ => noReturn_bind hcomp fun _ => ?_
  exact noReturn_ite _ (noReturn_add rfl) (noReturn_add rfl)

theorem noReturn_jumpIf (target : Expr) {comp : CompileM Compiled} (hcomp : Respects NoReturn comp) :
    Respects NoReturn (compileJumpIf target comp) := by
  refine noReturn_bind hcomp fun _ => ?_
  dsimp only
  split
  · exact noReturn_ite _ (noReturn_add rfl) (noReturn_pure _)
  · exact noReturn_add rfl

theorem noReturn_toVar (e : Expr) {comp : CompileM Compiled} (hcomp : Respects NoReturn comp) :
    Respects NoReturn (toVar e comp) := by
  refine noReturn_ite _ (noReturn_pure _) (noReturn_ite _ ?_ (noReturn_pure _))
  refine noReturn_bind (noReturn_newVar _) fun v =>
    noReturn_bind ?_ fun _ => noReturn_pure _
  exact noReturn_assign .assign v e (noReturn_pure v) hcomp

theorem noReturn_simplifyBranch (decided : Expr) (test : Expr → Expr) (x y : Expr) :
    Respects NoReturn (simplifyBranch compiled decided test x y) := by
  have hcompiled : ∀ e, Respects NoReturn (compiled e) := fun e => noReturn_pure _
  have hlast : ∀ dst label, Respects NoReturn (do
      compileAssign .assign dst y (pure dst) (compiled y)
      add (.expr label)
      return dst) := fun dst label =>
    noReturn_bind (noReturn_assign .assign dst y (noReturn_pure dst)
      (hcompiled y)) fun _ => noReturn_bind (noReturn_add rfl) fun _ =>
      noReturn_pure _
  refine noReturn_bind (noReturn_newVar _) fun dst =>
    noReturn_bind noReturn_newLabel fun label => ?_
  dsimp only
  refine noReturn_ite _ ?_ ?_
  · exact noReturn_bind (noReturn_add rfl) fun _ =>
      noReturn_bind (noReturn_jumpIf label (hcompiled _)) fun _ => hlast dst label
  · exact noReturn_bind (noReturn_add rfl) fun _ =>
      noReturn_bind (noReturn_jumpIf label (hcompiled _)) fun _ => hlast dst label

theorem noReturn_simplifyBoolean (op : Op2) (x y : Expr) :
    Respects NoReturn (simplifyBoolean compiled op x y) := by
  have hkept : ∀ e : Expr, Respects NoReturn (do
      add (.expr x)
      return e) := fun e =>
    noReturn_bind (noReturn_add rfl) fun _ => noReturn_pure _
  unfold simplifyBoolean
  split
  · unfold simplifyLand
    split
    · exact noReturn_pure _
    · exact noReturn_ite _ (noReturn_pure _) (hkept _)
    · exact noReturn_pure _
    · exact noReturn_simplifyBranch _ _ _ _
  · unfold simplifyLor
    split
    · exact noReturn_pure _
    · exact noReturn_ite _ (hkept _) (noReturn_pure _)
    · exact noReturn_pure _
    · exact noReturn_simplifyBranch _ _ _ _
  · exact noReturn_pure _

/-- Lowering an expression emits no return. -/
theorem noReturn_compileExprWith :
    (∀ e, Respects NoReturn (compileExprWith compiled e)) ∧
    (∀ args, Respects NoReturn (compileArgs compiled args)) ∧
    (∀ args, Respects NoReturn (compileChildren compiled args)) := by
  have hcall : ∀ (m : CompileM Expr), Respects NoReturn m → Respects NoReturn (do
      let call ← m
      let dst ← newVar call.kind
      add (.assign .assign dst call)
      return ((dst, true) : Compiled)) := fun m hm =>
    noReturn_bind hm fun _ => noReturn_bind (noReturn_newVar _) fun _ =>
      noReturn_bind (noReturn_add rfl) fun _ => noReturn_pure _
  apply compileExprWith.mutual_induct
  case case1 =>
    intro k op x p hx
    exact noReturn_bind hx fun _ => noReturn_pure _
  case case2 =>
    intro k op x y p hx hy
    exact noReturn_bind hx fun _ => noReturn_bind hy fun _ =>
      noReturn_bind (noReturn_simplifyBoolean _ _ _) fun _ => noReturn_pure _
  case case3 =>
    intro k args p hargs
    exact noReturn_bind hargs fun _ => noReturn_pure _
  case case4 =>
    intro k fn address args p hvars
    rw [compileExprWith, if_pos hvars]
    exact hcall _ (noReturn_pure _)
  case case5 =>
    intro k fn address args p hvars hargs
    rw [compileExprWith, if_neg hvars]
    exact hcall _ (hargs.map _)
  case case6 =>
    intro k op args p hop hargs
    rw [compileExprWith]
    · exact noReturn_bind hargs fun _ => noReturn_pure _
    · exact hop
  case case7 =>
    intro e hunary hbinary hmem hcall htuple
    rw [compileExprWith]
    · exact noReturn_pure _
    all_goals assumption
  case case8 => exact noReturn_pure _
  case case9 =>
    intro x xs hx hxs
    exact noReturn_bind (noReturn_toVar x hx) fun _ =>
      noReturn_bind hxs fun _ => noReturn_pure _
  case case10 => exact noReturn_pure _
  case case11 =>
    intro xs hxs
    exact noReturn_bind (noReturn_silent fun _ => rfl) fun _ =>
      noReturn_bind hxs fun _ => noReturn_pure _
  case case12 =>
    intro x xs hx hcomp hxs
    have hcopy : ∀ e, Respects NoReturn (toVarMemConst e (compiled e)) := by
      intro e
      unfold toVarMemConst
      split <;> first
        | exact noReturn_pure _
        | exact noReturn_bind (noReturn_toVar _ (noReturn_pure _)) fun _ => noReturn_pure _
    rw [compileChildren]
    · exact noReturn_bind hcomp fun _ => noReturn_bind (hcopy _) fun _ =>
        noReturn_bind hxs fun _ => noReturn_pure _
    · exact hx

theorem noReturn_compileExpr (e : Expr) : Respects NoReturn (compileExpr e) :=
  noReturn_compileExprWith.1 e

end NoReturn

/-! ## The run of a lowered expression -/

section Expressions

variable {w : Host} {prog : List Stmt} {n m : Nat} {e : Expr} {r : Compiled}
  {piece post : List Stmt} {c' : Compiler} {s t : State}

theorem same_runAt (hst : Same n s t) (hbelow : e.varsBelow n) : e.runAt w t = e.runAt w s := by
  rw [runAt, hst.heap]
  exact (run_congr hst.vars e hbelow s.heap).symm

/-- Where the expression has a value the run comes to the end of the piece, and the lowered
expression has it there. -/
theorem LoweredTo.arrives (hunique : (machine w).Unique prog) (h : LoweredTo w m e r piece c')
    (hpost : piece ++ post <:+ prog) (he : e.varsBelow n) (hst : Same n s t) (hle : n ≤ m)
    {v : BitVec 64} {h' : Heap} (hrun : e.runAt w s = some (v, h')) :
    ∃ t', (machine w).Reaches prog 0 (piece ++ post, t) (post, t') ∧ AgreeBelow m t.vars t'.vars ∧
      Same n { s with heap := h' } t' ∧ r.1.runAt w t' = some (v, h') := by
  rw [← same_runAt hst he, ← h.value t] at hrun
  obtain ⟨t', ht', hr⟩ := Option.bind_eq_some_iff.mp hrun
  obtain ⟨t'', rfl, hreach⟩ := Machine.runs_of_forward hunique ht' post hpost
  have hagree := (h.emitted.keeps ht').1
  have hheap := runAt_heap h.describes.noCall hr
  exact ⟨t'', hreach, hagree, ⟨hst.vars.trans (hagree.mono hle), hheap.symm⟩, hr⟩

/-- Where the expression has no value the run is stuck in the piece, or comes to its end, where the
lowered expression has no value. -/
theorem LoweredTo.stuck (hunique : (machine w).Unique prog) (h : LoweredTo w m e r piece c')
    (hreturn : ∀ st ∈ piece, st.isReturn = false) (hpost : piece ++ post <:+ prog)
    (he : e.varsBelow n) (hst : Same n s t) (hrun : e.runAt w s = .none) :
    (∃ b, (observer w n).stuck b ∧ (machine w).Reaches prog 0 (piece ++ post, t) b) ∨
      ∃ t', (machine w).Reaches prog 0 (piece ++ post, t) (post, t') ∧ r.1.runAt w t' = .none ∧
        AgreeBelow m t.vars t'.vars := by
  rw [← same_runAt hst he, ← h.value t] at hrun
  cases ht' : runPiece w piece t with
  | none =>
    obtain ⟨st, rest, t', hmem, heffect, hreach⟩ :=
      Machine.stuck_of_forward hunique h.emitted.closed ht' hpost
    exact .inl ⟨(st :: rest, t'), ⟨st, rest, rfl, hreturn st hmem, heffect⟩, hreach⟩
  | some t' =>
    rw [ht'] at hrun
    obtain ⟨t'', rfl, hreach⟩ := Machine.runs_of_forward hunique ht' post hpost
    exact .inr ⟨t'', hreach, hrun, (h.emitted.keeps ht').1⟩

/-- A statement behind the piece has no effect where the lowered expression has no value. -/
theorem LoweredTo.stuck_at {st : Stmt} (hunique : (machine w).Unique prog)
    (h : LoweredTo w m e r piece c') (hreturn : ∀ st ∈ piece, st.isReturn = false)
    (hpost : piece ++ st :: post <:+ prog) (he : e.varsBelow n) (hst : Same n s t)
    (hrun : e.runAt w s = .none) (hkeep : st.isReturn = false)
    (heffect : ∀ t', r.1.runAt w t' = .none → effect w st t' = .none) :
    ∃ b, (observer w n).stuck b ∧ (machine w).Reaches prog 0 (piece ++ st :: post, t) b := by
  obtain hstuck | ⟨t', hreach, hnone, -⟩ := h.stuck hunique hreturn hpost he hst hrun
  · exact hstuck
  · exact ⟨_, ⟨st, post, rfl, hkeep, heffect t' hnone⟩, hreach⟩

end Expressions

/-! ## The run of a test -/

/-- Two constants that a jump is decided on have a result. -/
theorem constants_defined {op : Op2} {negate : Bool} {k : Kind} {v v' : Value}
    (h : op.jumpsRight negate k v.kind (some v) (some v')) :
    ∃ a, v.kind.evalBinary op v.meaning v'.meaning = some a := by
  simp only [Op2.jumpsRight, Bool.and_eq_true, decide_eq_true_eq] at h
  obtain ⟨⟨-, hfolds⟩, hsome⟩ := h
  have hcount : ∀ x : Option Value, (v.kind ≠ v'.kind → x = some .invalid) →
      (x.filter Value.isValid).isSome → v.kind = v'.kind := by
    intro x hx hsome
    by_contra hne
    rw [hx hne] at hsome
    cases hsome
  cases op with
  | bad2 => cases hsome
  | quo | rem =>
    obtain ⟨-, hnormal, hne, -⟩ := hfolds
    rw [Kind.evalBinary, hnormal.meaning, if_neg hne]
    split <;> exact ⟨_, rfl⟩
  | shl =>
    obtain ⟨hnormal, hlt⟩ := hfolds (hcount (v.shl v') (fun h => if_pos (.inl h)) hsome)
    rw [Kind.evalBinary, hnormal.meaning, if_neg (Nat.not_le.mpr hlt)]
    exact ⟨_, rfl⟩
  | shr =>
    obtain ⟨-, hnormal, hlt⟩ := hfolds (hcount (v.shr v') (fun h => if_pos (.inl h)) hsome)
    rw [Kind.evalBinary, hnormal.meaning, if_neg (Nat.not_le.mpr hlt)]
    split <;> exact ⟨_, rfl⟩
  | _ => exact ⟨_, rfl⟩

section Tests

variable {w : Host} {prog : List Stmt} {n : Nat} {e r : Expr} {post rest : List Stmt} {s t : State}

/-- A jump on a lowered test without a value has no effect. -/
theorem jumpNodes_none (hright : r.jumpsRight false) (hrun : r.runAt w t = .none) (i : BitVec 16)
    (address : BitVec 64) : ∃ j, jumpNodes (.label i address) r = [j] ∧ j.isReturn = false ∧
      effect w j t = .none := by
  have hplain : ∀ u : Expr, (peelNot r).2 = u → testOperands u = (.neq, u, zero u.kind) →
      value? u = .none → ∃ j, jumpNodes (.label i address) r = [j] ∧ j.isReturn = false ∧
        effect w j t = .none := by
    intro u hu hoperands hvalue
    have hnone := run_peelNot_none hrun
    rw [hu] at hnone
    rw [← hu] at hoperands hvalue
    refine ⟨_, jumpNodes_compare hoperands (.inl hvalue) _, rfl, ?_⟩
    rw [effect, hu, hnone]
    rfl
  by_cases hcompare : (peelNot r).2.isCompare
  · obtain ⟨j, hj, heffect⟩ := jumpNodes_stuck hright hcompare hrun i address
    obtain ⟨b, hb⟩ | ⟨op, x, y, hjumps⟩ := jumpNodes_cases (.label i address) r
    · rw [hj] at hb
      cases b with
      | false => cases hb
      | true =>
        cases hb
        exact ⟨_, hj, rfl, heffect⟩
    · rw [hj] at hjumps
      cases hjumps
      exact ⟨_, hj, rfl, heffect⟩
  · cases hu : (peelNot r).2 with
    | const v p =>
      have hnone := run_peelNot_none hrun
      rw [hu] at hnone
      cases hnone
    | binary k op x y p =>
      rw [jumpsRight_peelNot, Bool.false_xor, hu, jumpsRight, Bool.and_eq_true] at hright
      have hnone := run_peelNot_none hrun
      rw [hu] at hnone
      have hcond : value? x = .none ∨ value? y = .none → False := by
        intro hvalue
        have hjumps := hright.2
        have hop : op.isComparison := by
          obtain hx | hy := hvalue
          · rw [hx] at hjumps
            exact hasCondjump_isComparison hjumps
          · rw [hy] at hjumps
            cases hx : value? x <;> rw [hx] at hjumps <;> exact hasCondjump_isComparison hjumps
        exact hcompare (by rw [hu]; exact hop)
      cases x with
      | const v q =>
        cases y with
        | const v' q' =>
          obtain ⟨a, ha⟩ := constants_defined hright.2
          have hsome : run w t.vars (binary k op (const v q) (const v' q') p) t.heap =
              some (a, t.heap) := by
            refine run_binary.mpr ⟨v.meaning, t.heap, rfl, ?_⟩
            cases hdec : op.decidedBy v.meaning with
            | true =>
              rw [evalBinary_decided hdec] at ha
              exact .inl ⟨rfl, rfl, ha⟩
            | false => exact .inr ⟨rfl, v'.meaning, rfl, ha⟩
          rw [hsome] at hnone
          cases hnone
        | _ => exact (hcond (.inr rfl)).elim
      | _ => exact (hcond (.inl rfl)).elim
    | _ => exact hplain _ hu rfl rfl

/-- The jump on a lowered test. -/
theorem jumpNodes_reaches (hright : r.jumpsRight false) {v : BitVec 64}
    (hrun : r.runAt w t = some (v, t.heap)) {i : BitVec 16} {address : BitVec 64}
    (hfind : (machine w).find i prog = some rest) :
    (machine w).Reaches prog 0 (jumpNodes (.label i address) r ++ post, t)
      (if v != 0 then rest else post, t) := by
  obtain ⟨j, hj, heffect⟩ | ⟨hnil, rfl, -⟩ := jumpNodes_spec hright hrun i address
  · rw [hj]
    cases hv : v != 0 with
    | true =>
      rw [hv, if_pos rfl] at heffect
      exact (Machine.Reaches.jump heffect hfind).mono (Nat.zero_le 1)
    | false =>
      rw [hv, if_neg Bool.false_ne_true] at heffect
      exact (Machine.Reaches.fall heffect).mono (Nat.zero_le 1)
  · rw [hnil]
    exact .refl _

/-- The jump on a test with a value that is computed from the one of the expression. -/
theorem jump_decides (hunique : (machine w).Unique prog) {m : Nat} {q : Compiled}
    {piece : List Stmt} {c' : Compiler} (h : LoweredTo w m e q piece c')
    (hreturn : ∀ st ∈ piece, st.isReturn = false) {f : BitVec 64 → BitVec 64}
    (hvalue : ∀ t, r.runAt w t = (q.1.runAt w t).map fun v => (f v.1, v.2))
    (hright : r.jumpsRight false) (he : e.varsBelow n) (hle : n ≤ m) (i : BitVec 16)
    (address : BitVec 64) :
    (machine w).Tests prog (observer w n) (piece ++ jumpNodes (.label i address) r) i
      fun s => (e.runAt w s).map fun v => (f v.1 != 0, { s with heap := v.2 }) := by
  intro post hpost rest hfind s t hst
  rw [List.append_assoc] at hpost ⊢
  dsimp only
  cases hrun : e.runAt w s with
  | none =>
    obtain hstuck | ⟨t', hreach, hnone, -⟩ := h.stuck hunique hreturn hpost he hst hrun
    · exact hstuck
    · have hnone' : r.runAt w t' = .none := by rw [hvalue, hnone]; rfl
      obtain ⟨j, hj, hkeep, heffect⟩ := jumpNodes_none hright hnone' i address
      rw [hj] at hreach ⊢
      exact ⟨_, ⟨j, post, rfl, hkeep, heffect⟩, hreach⟩
  | some u =>
    obtain ⟨v, h'⟩ := u
    obtain ⟨t', hreach, -, hst', hrun'⟩ := h.arrives hunique hpost he hst hle hrun
    have hheap : t'.heap = h' := hst'.heap
    have hr : r.runAt w t' = some (f v, t'.heap) := by
      rw [hvalue, hrun', hheap]
      rfl
    have hjump : (machine w).Reaches prog 0 _ (if f v != 0 then rest else post, t') :=
      hreach.trans (jumpNodes_reaches hright hr hfind)
    rw [Option.map_some]
    cases hv : f v != 0 with
    | true =>
      rw [hv, if_pos rfl] at hjump
      exact ⟨t', hst', hjump⟩
    | false =>
      rw [hv, if_neg Bool.false_ne_true] at hjump
      exact ⟨t', hst', hjump⟩

end Tests

end Compiler

end OneJit
