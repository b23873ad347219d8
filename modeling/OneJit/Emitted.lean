import OneJit.Described

/-!
# What is emitted for an expression

Before a lowered expression stands a piece of code that no jump leaves. It assigns new variables,
and where nothing in it may trap or call, it runs from every state, so that it may stand before a
short circuit. The lowered expression has behind it the value of the expression, or none where that
has none.
-/

namespace OneJit

open FlatCode

namespace Stmt

variable (w : Host)

/-- The run of a piece of compiled code that jumps forwards. -/
def runPiece (piece : List Stmt) (s : State) : Option State := (machine w).forward piece (none, s)

variable {w}

theorem runPiece_append {piece : List Stmt} (h : (machine w).Closed piece) (piece' : List Stmt)
    (s : State) : runPiece w (piece ++ piece') s = (runPiece w piece s).bind (runPiece w piece') :=
  h.forward_append piece' s

/-- An assignment to a variable. -/
theorem assign_effect (k : Kind) (id : Nat) (e : Expr) (s : State) :
    effect w (.assign .assign (.var k id) e) s = ((e.run w s.vars s.heap).map fun r =>
      ({ s with heap := r.2 } : State).setVar k id r.1).map .fall := by
  have hassign : OpStmt2.assign.isAssign = true := rfl
  rw [effect, if_pos hassign, assignEffect, Expr.locate]
  simp only [Option.bind_eq_bind, Option.bind_some]
  cases e.run w s.vars s.heap <;> rfl

theorem runPiece_assign (k : Kind) (id : Nat) (e : Expr) (s : State) :
    runPiece w [.assign .assign (.var k id) e] s = (e.run w s.vars s.heap).map fun r =>
      ({ s with heap := r.2 } : State).setVar k id r.1 :=
  Machine.forward_last (assign_effect k id e s)

theorem assign_closed (k : Kind) (id : Nat) (e : Expr) :
    (machine w).Closed [.assign .assign (.var k id) e] := by
  apply Machine.closed_single
  intro s l s' heffect
  replace heffect := (assign_effect k id e s).symm.trans heffect
  obtain ⟨s₁, -, hnext⟩ := Option.map_eq_some_iff.mp heffect
  cases hnext

/-- An expression that is evaluated for what it calls. -/
theorem expr_effect {e : Expr} (hlabel : e.labelIndex = none) (s : State) :
    effect w (.expr e) s = ((e.run w s.vars s.heap).map fun r => { s with heap := r.2 }).map
      .fall := by
  cases e with
  | label i a => cases hlabel
  | _ =>
    rw [effect]
    · simp only [Option.bind_eq_bind]
      cases Expr.run w s.vars _ s.heap <;> rfl
    · intro i a heq
      cases heq

theorem runPiece_expr {e : Expr} (hlabel : e.labelIndex = none) (s : State) :
    runPiece w [.expr e] s = (e.run w s.vars s.heap).map fun r => { s with heap := r.2 } :=
  Machine.forward_last (expr_effect hlabel s)

theorem expr_closed {e : Expr} (hlabel : e.labelIndex = none) : (machine w).Closed [.expr e] := by
  apply Machine.closed_single
  intro s l s' heffect
  replace heffect := (expr_effect hlabel s).symm.trans heffect
  obtain ⟨s₁, -, hnext⟩ := Option.map_eq_some_iff.mp heffect
  cases hnext

end Stmt

open Stmt

/-- A piece that assigns variables from this one on. It may call, and it may trap or call. -/
structure Emitted (w : Host) (n : Nat) (calls eager : Bool) (piece : List Stmt) : Prop where
  closed : (machine w).Closed piece
  keeps : ∀ {s s' : State}, runPiece w piece s = some s' →
    AgreeBelow n s.vars s'.vars ∧ (calls = false → s'.heap = s.heap)
  quiet : eager = false → ∀ s : State, ∃ s', runPiece w piece s = some s' ∧ s'.heap = s.heap
  jumps : ∀ st ∈ piece, st.realJump

namespace Emitted

variable {w : Host} {n m : Nat} {calls calls' eager eager' : Bool} {piece piece' : List Stmt}

theorem nil : Emitted w n calls eager [] := by
  refine ⟨Machine.closed_nil, ?_, fun _ s => ⟨s, rfl, rfl⟩,
    fun st hst => absurd hst List.not_mem_nil⟩
  intro s s' hrun
  cases hrun
  exact ⟨.refl _ _, fun _ => rfl⟩

theorem weaken (h : Emitted w n calls eager piece) (hcalls : calls' = false → calls = false)
    (heager : eager' = false → eager = false) : Emitted w n calls' eager' piece :=
  ⟨h.closed, fun hrun => ⟨(h.keeps hrun).1, fun hno => (h.keeps hrun).2 (hcalls hno)⟩,
    fun hno => h.quiet (heager hno), h.jumps⟩

theorem mono (h : Emitted w n calls eager piece) (hle : m ≤ n) : Emitted w m calls eager piece :=
  ⟨h.closed, fun hrun => ⟨(h.keeps hrun).1.mono hle, (h.keeps hrun).2⟩, h.quiet, h.jumps⟩

theorem append (h : Emitted w n calls eager piece) (h' : Emitted w m calls' eager' piece')
    (hle : n ≤ m) : Emitted w n (calls || calls') (eager || eager') (piece ++ piece') := by
  refine ⟨h.closed.append h'.closed, ?_, ?_, ?_⟩
  · intro s s' hrun
    rw [runPiece_append h.closed] at hrun
    obtain ⟨s₁, hrun₁, hrun₂⟩ := Option.bind_eq_some_iff.mp hrun
    obtain ⟨hagree, hheap⟩ := h.keeps hrun₁
    obtain ⟨hagree', hheap'⟩ := h'.keeps hrun₂
    refine ⟨hagree.trans (hagree'.mono hle), fun hno => ?_⟩
    rw [Bool.or_eq_false_iff] at hno
    exact (hheap' hno.2).trans (hheap hno.1)
  · intro hno s
    rw [Bool.or_eq_false_iff] at hno
    obtain ⟨s₁, hrun₁, hheap⟩ := h.quiet hno.1 s
    obtain ⟨s₂, hrun₂, hheap'⟩ := h'.quiet hno.2 s₁
    refine ⟨s₂, ?_, hheap'.trans hheap⟩
    rw [runPiece_append h.closed, hrun₁]
    exact hrun₂
  · intro st hst
    exact (List.mem_append.mp hst).elim (h.jumps st) (h'.jumps st)

/-- A copy of an expression to a variable. -/
theorem assign {k : Kind} {id : Nat} (hid : k = .void ∨ n ≤ id) (e : Expr) :
    Emitted w n e.hasCall (e.hasCall || e.mayTrap) [.assign .assign (.var k id) e] := by
  refine ⟨assign_closed k id e, ?_, ?_, fun st hst => List.mem_singleton.mp hst ▸ rfl⟩
  · intro s s' hrun
    rw [runPiece_assign] at hrun
    obtain ⟨⟨v, h⟩, hv, rfl⟩ := Option.map_eq_some_iff.mp hrun
    refine ⟨State.setVar_agree { s with heap := h } hid v, fun hno => ?_⟩
    exact Expr.run_heap hno hv
  · intro hno s
    rw [Bool.or_eq_false_iff] at hno
    obtain ⟨v, hv⟩ := Expr.run_of_not_mayTrap (w := w) (ρ := s.vars) e hno.2 hno.1 s.heap
    refine ⟨s.setVar k id v, ?_, rfl⟩
    rw [runPiece_assign, hv]
    rfl

/-- An expression that is evaluated for what it calls. -/
theorem expr {e : Expr} (hlabel : e.labelIndex = none) :
    Emitted w n e.hasCall (e.hasCall || e.mayTrap) [.expr e] := by
  refine ⟨expr_closed hlabel, ?_, ?_, fun st hst => List.mem_singleton.mp hst ▸ rfl⟩
  · intro s s' hrun
    rw [runPiece_expr hlabel] at hrun
    obtain ⟨⟨v, h⟩, hv, rfl⟩ := Option.map_eq_some_iff.mp hrun
    exact ⟨.refl _ _, fun hno => Expr.run_heap hno hv⟩
  · intro hno s
    rw [Bool.or_eq_false_iff] at hno
    obtain ⟨v, hv⟩ := Expr.run_of_not_mayTrap (w := w) (ρ := s.vars) e hno.2 hno.1 s.heap
    refine ⟨s, ?_, rfl⟩
    rw [runPiece_expr hlabel, hv]
    rfl

end Emitted

namespace Expr

variable {w : Host}

/-- The value of an expression in a state, and what its calls leave. -/
def runAt (w : Host) (e : Expr) (s : State) : Option (BitVec 64 × Heap) := e.run w s.vars s.heap

theorem runAt_unary (k : Kind) (op : Op1) (x : Expr) (p : Place) (s : State) :
    (unary k op x p).runAt w s =
      (x.runAt w s).bind fun r => (k.evalUnary op r.1).map (·, r.2) := by
  rw [runAt, run]
  rfl

theorem runAt_binary (k : Kind) (op : Op2) (x y : Expr) (p : Place) (s : State) :
    (binary k op x y p).runAt w s = (x.runAt w s).bind fun r =>
      if op.decidedBy r.1 then (x.valueKind.evalBinary op r.1 0).map (·, r.2)
      else (y.run w s.vars r.2).bind fun r' =>
        (x.valueKind.evalBinary op r.1 r'.1).map (·, r'.2) := by
  rw [runAt, run]
  rfl

theorem runAt_heap {e : Expr} (he : e.hasCall = false) {s : State} {v : BitVec 64} {h : Heap}
    (hrun : e.runAt w s = some (v, h)) : h = s.heap := run_heap he hrun

/-- A lowered expression keeps its value behind a piece that does not change what it reads. -/
theorem runAt_kept {o : Outline} {n : Nat} {e r : Expr} (h : o.Describes n e r)
    {calls eager : Bool} {piece : List Stmt} (hpiece : Emitted w n calls eager piece)
    (hmem : (o.readsMem && calls) = false) {s s' : State} (hrun : runPiece w piece s = some s') :
    r.runAt w s' = (r.runAt w s).map fun v => (v.1, s'.heap) := by
  obtain ⟨hagree, hheap⟩ := hpiece.keeps hrun
  refine run_kept hagree h.below h.noCall fun hreads => hheap ?_
  rw [h.readsMem_of hreads, Bool.true_and] at hmem
  exact hmem

end Expr

namespace Compiler

open Expr CompileM

theorem compiled_grows (e : Expr) : Respects Grows (compiled e) := grows_basic.pure _

theorem compileExprWith_grows (e : Expr) : Respects Grows (compileExprWith compiled e) :=
  (grows_basic.compileExprWith compiled_grows).1 e

theorem compileAssign_compiled (dst src : Expr) :
    compileAssign .assign dst src (pure dst) (compiled src) = add (.assign .assign dst src) := by
  funext c
  unfold compileAssign
  rw [CompileM.pure_bind]
  change (if (false || !sameNode dst src) = true then add (.assign .assign dst src)
    else add (.assign .assign dst src)) c = _
  rw [ite_self]

/-- What is emitted for an expression, and the lowered expression. -/
structure LoweredTo (w : Host) (n : Nat) (e : Expr) (r : Compiled) (piece : List Stmt)
    (c' : Compiler) : Prop where
  describes : (outline e).Describes (bound c') e r.1
  kept : r.2 = false → r.1 = e
  emitted : Emitted w n e.hasCall (outline e).eager piece
  value : ∀ s : State, (runPiece w piece s).bind (r.1.runAt w) = e.runAt w s

/-- An expression that is lowered already is not replaced. -/
theorem unchanged_of_lowered {e : Expr} (he : e.lowered) (c : Compiler) :
    (compileExprWith compiled e c).1.2 = false := by
  rw [compileExprWith_lowered compiled e he]
  rfl

/-- What is known of a lowered operand. -/
structure Operand (n : Nat) (e : Expr) (r : Compiled) : Prop where
  describes : (outline e).Describes n e r.1
  shape : HasShape e r.1
  kept : r.2 = false → r.1 = e
  same : e.lowered → r.2 = false

variable {w : Host}

theorem LoweredTo.operand {n m : Nat} {e : Expr} {r : Compiled} {piece : List Stmt} {c' : Compiler}
    (h : LoweredTo w n e r piece c') (hm : bound c' ≤ m)
    (hr : HasShape e r.1 ∧ (e.lowered → r.2 = false)) : Operand m e r :=
  ⟨h.describes.mono hm, hr.1, h.kept, hr.2⟩

theorem operand_returns (e : Expr) :
    Returns (fun r => HasShape e r.1 ∧ (e.lowered → r.2 = false)) (compileExprWith compiled e) :=
  fun c => ⟨(compileExprWith_shape compiled).1 e c, fun h => unchanged_of_lowered h c⟩

/-- An expression that is not changed. -/
theorem kept_of_changed {r : Compiled} {e e' : Expr} {b : Bool}
    (h : r = if b then (e', true) else (e, false)) (hr : r.2 = false) : r.1 = e := by
  cases b with
  | false =>
    rw [h]
    rfl
  | true =>
    rw [h] at hr
    cases hr

theorem lowered_makes {e : Expr} (he : e.lowered) (hcall : e.hasCall = false) (ht : e.typed)
    (houtline : outline e = .ofLowered e) {c : Compiler} (hbelow : e.varsBelow (bound c)) :
    Makes (compileExprWith compiled e) c (LoweredTo w (bound c) e) := by
  rw [compileExprWith_lowered compiled e he]
  refine .pure ⟨?_, fun _ => rfl, .nil, fun _ => rfl⟩
  rw [houtline]
  exact .self he hcall ht hbelow

/-! ## Operators -/

theorem unary_makes {k : Kind} {op : Op1} {x : Expr} {p : Place} {c : Compiler}
    (ht : (Expr.unary k op x p).typed)
    (hkind : x.lowered ∨ k = if op = .not1 then .bool else (outline x).kind)
    (hx : Makes (compileExprWith compiled x) c (LoweredTo w (bound c) x)) :
    Makes (compileExprWith compiled (.unary k op x p)) c
      (LoweredTo w (bound c) (.unary k op x p)) := by
  rw [compileExprWith]
  refine (hx.and_returns (operand_returns x)).bind (compileExprWith_grows x)
    (fun _ => grows_basic.pure _) ?_
  intro r o c' _ hr
  obtain ⟨⟨-, hsame⟩, hr⟩ := hr
  apply Makes.pure
  rw [List.append_nil]
  have hform : ∃ q, (if r.2 then (newUnary op r.1, true) else (.unary k op x p, false)).1 =
      Expr.unary k op r.1 q := by
    cases hchanged : r.2 with
    | false =>
      rw [hr.kept hchanged]
      exact ⟨p, rfl⟩
    | true =>
      have hk : k = if op = .not1 then .bool else (outline x).kind := by
        refine hkind.resolve_left fun hlowered => ?_
        rw [hsame hlowered] at hchanged
        cases hchanged
      rw [← hr.describes.kind] at hk
      exact ⟨.fresh, by rw [hk]; rfl⟩
  obtain ⟨q, hq⟩ := hform
  refine ⟨?_, kept_of_changed rfl, hr.emitted, fun s => ?_⟩
  · rw [hq]
    exact hr.describes.unary ht q
  · rw [hq, runAt_unary, ← hr.value s, Option.bind_assoc]
    exact congrArg _ (funext fun s' => runAt_unary k op r.1 q s')

/-- Both operands of an operator are lowered. The memory that the left one reads is not changed
before it is evaluated, and what is emitted for the right one may run although the left one
decides. -/
theorem operands_value {k : Kind} {op : Op2} {x y : Expr} {p q : Place} {n : Nat} {r r' : Compiled}
    {o o' : List Stmt} {c₁ c₂ : Compiler} (hx : LoweredTo w n x r o c₁)
    (hy : LoweredTo w (bound c₁) y r' o' c₂) (hbelow : y.varsBelow n)
    (hmem : ((outline x).readsMem && hasCall y) = false)
    (hquiet : ∀ {s : State} {a : BitVec 64}, r.1.runAt w s = some (a, s.heap) → op.decidedBy a →
      (outline y).eager = false) (s : State) :
    (runPiece w (o ++ o') s).bind ((Expr.binary k op r.1 r'.1 q).runAt w) =
      (Expr.binary k op x y p).runAt w s := by
  rw [runPiece_append hx.emitted.closed, runAt_binary, ← hx.value s]
  cases hs₁ : runPiece w o s with
  | none => rfl
  | some s₁ =>
    have hagree := (hx.emitted.keeps hs₁).1
    have hkept : ∀ s₂, runPiece w o' s₁ = some s₂ →
        r.1.runAt w s₂ = (r.1.runAt w s₁).map fun v => (v.1, s₂.heap) :=
      fun s₂ hs₂ => runAt_kept hx.describes hy.emitted hmem hs₂
    have hyvalue := hy.value s₁
    rw [Option.bind_some, Option.bind_some]
    cases ha : r.1.runAt w s₁ with
    | none =>
      cases hs₂ : runPiece w o' s₁ with
      | none => rfl
      | some s₂ =>
        rw [Option.bind_some, runAt_binary, hkept s₂ hs₂, ha]
        rfl
    | some v =>
      obtain ⟨a, h₁⟩ := v
      obtain rfl := runAt_heap hx.describes.noCall ha
      have hysame : y.run w s.vars s₁.heap = y.runAt w s₁ := run_congr hagree y hbelow s₁.heap
      rw [Option.bind_some, hysame, ← hyvalue]
      cases hs₂ : runPiece w o' s₁ with
      | none =>
        cases hdec : op.decidedBy a with
        | true =>
          obtain ⟨s₂, hrun, -⟩ := hy.emitted.quiet (hquiet ha hdec) s₁
          rw [hrun] at hs₂
          cases hs₂
        | false => rfl
      | some s₂ =>
        rw [Option.bind_some, runAt_binary, hkept s₂ hs₂, ha, hx.describes.valueKind]
        cases hdec : op.decidedBy a with
        | true =>
          obtain ⟨s₂', hrun, hheap⟩ := hy.emitted.quiet (hquiet ha hdec) s₁
          rw [hs₂] at hrun
          cases hrun
          rw [← hheap]
          simp [hdec]
        | false => simp [hdec, runAt]

end Compiler

end OneJit
