import OneJit.CompileFunc
import OneJit.Lowering

/-!
# The variable of a hoisted call

`Call::create` takes the kind of a call from the first parameter of its function type, and
`compile(Call)` assigns the call to a new variable of that kind.
-/

namespace OneJit

/-- `id`. -/
def Expr.varId : Expr → Option Nat
  | var _ id => some id
  | _ => Option.none

namespace Compiler

open CompileM Expr

/-- The variable was made between two states, and no other variable that the function has, or will
have, shares its identifier. -/
def FreshVar (c c' : Compiler) (kind : Kind) (v : Expr) : Prop :=
  ∃ p, c.vars ≤ p ∧ p < c'.vars ∧ v = Func.varAt kind p ∧
    ∀ k i, i ≠ p → (Func.varAt k i).varId ≠ v.varId

/-- A call of this function type has the kind of the first result, and it is assigned, with its
arguments in variables, to a new variable of that kind. -/
structure Hoists (results params : List Kind) (address : Expr) (args : List Expr) (c : Compiler) :
    Prop where
  kind : results.head? = some (rebuildCall (.ftype results params) address args).kind
  assigned : ∃ vars, (compileExpr (rebuildCall (.ftype results params) address args) c).2.1.nodes.getLast? =
      some (.assign .assign
        (compileExpr (rebuildCall (.ftype results params) address args) c).1.1
        (rebuildCall (.ftype results params) address vars))
  fresh : ∀ r ∈ results.head?, FreshVar c
    (compileExpr (rebuildCall (.ftype results params) address args) c).2.2 r
    (compileExpr (rebuildCall (.ftype results params) address args) c).1.1

/-- The identifiers are not used up when the arguments have been compiled. -/
def HasRoom (args : List Expr) (c : Compiler) : Prop :=
  (compileArgs compiled args c).2.2.vars + firstId < 2 ^ 24

/-- The kind of a call is the one of the first parameter. -/
def callKind (params : List Kind) : Kind := params.head?.getD .void

theorem toExpr_toExpr (e : Expr) : e.toExpr.toExpr = e.toExpr := by
  cases e <;> rfl

/-- Arguments that are variables need no others. -/
theorem compileArgs_vars {args : List Expr} (h : args.all isVar) (c : Compiler) :
    (compileArgs compiled args c).2.2 = c := by
  induction args with
  | nil => rw [compileArgs, pure_run]
  | cons x xs ih =>
    rw [List.all_cons, Bool.and_eq_true] at h
    rw [compileArgs, bind_run, bind_run, pure_run, toVar, if_pos h.1, pure_run]
    exact ih h.2

/-- The end of `compile(Call)`: the call has this kind, and is assigned to a new variable. -/
theorem hoist_run (m : CompileM Expr) (kind : Kind) (c : Compiler) (hkind : (m c).1.kind = kind) :
    (m >>= fun call => newVar call.kind >>= fun dst =>
      add (.assign .assign dst call) >>= fun _ => pure (dst, true)) c =
        (((newVar kind (m c).2.2).1, true),
          (m c).2.1 ++ ⟨[.assign .assign (newVar kind (m c).2.2).1 (m c).1], []⟩,
          (newVar kind (m c).2.2).2.2) := by
  subst hkind
  have hsilent : (newVar (m c).1.kind (m c).2.2).2.1 = .empty := by
    unfold newVar
    dsimp only
    split <;> rfl
  rw [bind_run, bind_run, bind_run, pure_run, hsilent, Output.append_empty, Output.empty_append]
  rfl

/-- What `compile(Call)` does: the arguments become variables, and the call is assigned to one more
variable of its kind. -/
theorem compileExpr_call (results params : List Kind) (address : Expr) (args : List Expr)
    (c : Compiler) : ∃ vars o c₁, c.vars ≤ c₁.vars ∧
      c₁.vars = (compileArgs compiled args c).2.2.vars ∧
      compileExpr (rebuildCall (.ftype results params) address args) c =
        (((newVar (callKind params) c₁).1, true),
          o ++ ⟨[.assign .assign (newVar (callKind params) c₁).1
            (rebuildCall (.ftype results params) address vars)], []⟩,
          (newVar (callKind params) c₁).2.2) := by
  rw [compileExpr, rebuildCall, compileExprWith]
  by_cases hvars : args.all isVar
  · rw [if_pos hvars]
    refine ⟨args, .empty, c, Nat.le_refl _, by rw [compileArgs_vars hvars], ?_⟩
    exact hoist_run (pure _) (callKind params) c rfl
  · rw [if_neg hvars]
    have hgrows := (grows_basic.compileExprWith fun e => grows_basic.pure (e, false)).2.1 args c
    have hcall : rebuildCall (.ftype results params) address.toExpr =
        rebuildCall (.ftype results params) address := by
      funext es
      rw [rebuildCall, rebuildCall, toExpr_toExpr]
    have hrun := hoist_run (rebuildCall (.ftype results params) address <$>
      compileArgs compiled args) (callKind params) c rfl
    rw [map_run] at hrun
    rw [hcall]
    exact ⟨(compileArgs compiled args c).1, (compileArgs compiled args c).2.1,
      (compileArgs compiled args c).2.2, hgrows.1, rfl, hrun⟩

theorem varId_varAt (kind : Kind) (i : Nat) :
    (Func.varAt kind i).varId = some (if kind = .void then 0 else i + firstId) := rfl

/-- A new variable is fresh and of its kind, unless the kind is `Void` or there is no room. -/
theorem newVar_fresh_iff {c c' : Compiler} (hle : c.vars ≤ c'.vars) (kind kind' : Kind) :
    FreshVar c (newVar kind c').2.2 kind' (newVar kind c').1 ↔
      kind' = kind ∧ kind ≠ .void ∧ kind ≠ .bad ∧ c'.vars + firstId < 2 ^ 24 := by
  constructor
  · intro h
    obtain ⟨p, -, -, hv, hother⟩ := h
    unfold newVar at hv hother
    dsimp only at hv hother
    by_cases hroom : kind ≠ .bad ∧ (kind = .void ∨ c'.vars + firstId < 2 ^ 24)
    · rw [if_pos hroom] at hv hother
      have hkind : kind' = kind := (Expr.var.inj hv).1.symm
      have hvoid : kind ≠ .void := by
        -- all variables of kind `Void` share their identifier
        intro hvoid
        rw [if_pos hvoid] at hother
        exact hother .void (p + 1) (Nat.succ_ne_self p) rfl
      exact ⟨hkind, hvoid, hroom.1, hroom.2.resolve_left hvoid⟩
    · rw [if_neg hroom] at hv
      cases hv
  · intro h
    obtain ⟨rfl, hvoid, hbad, hroom⟩ := h
    unfold newVar
    dsimp only
    rw [if_pos ⟨hbad, .inr hroom⟩, if_neg hvoid]
    refine ⟨c'.vars, hle, Nat.lt_succ_self _, ?_, ?_⟩
    · rw [Func.varAt, if_neg hvoid]
    · intro k i hi heq
      rw [varId_varAt, Expr.varId, Option.some.injEq] at heq
      split at heq
      · rw [firstId] at heq
        omega
      · omega

/-- A hoisted call gets a variable of the result kind when the first parameter has that kind too. -/
theorem hoists_iff (r : Kind) (results params : List Kind) (address : Expr) (args : List Expr)
    (c : Compiler) : Hoists (r :: results) params address args c ↔
      params.head? = some r ∧ r ≠ .void ∧ r ≠ .bad ∧ HasRoom args c := by
  obtain ⟨vars, o, c', hle, hvars, hrun⟩ := compileExpr_call (r :: results) params address args c
  have hfresh := newVar_fresh_iff hle (callKind params) r
  rw [hvars] at hfresh
  constructor
  · intro h
    have hnew := h.fresh r rfl
    rw [hrun] at hnew
    obtain ⟨hkind, hvoid, hbad, hroom⟩ := hfresh.mp hnew
    rw [← hkind] at hvoid hbad
    refine ⟨?_, hvoid, hbad, hroom⟩
    cases params with
    | nil => exact absurd hkind hvoid
    | cons k ks => rw [hkind, callKind, List.head?_cons, Option.getD_some]
  · intro h
    obtain ⟨hparam, hvoid, hbad, hroom⟩ := h
    have hkind : callKind params = r := by rw [callKind, hparam, Option.getD_some]
    constructor
    · change some r = some (callKind params)
      rw [hkind]
    · refine ⟨vars, ?_⟩
      rw [hrun]
      simp
    · intro r' hr'
      obtain rfl : r = r' := Option.some.inj hr'
      rw [hrun]
      exact hfresh.mpr ⟨hkind.symm, hkind ▸ hvoid, hkind ▸ hbad, hroom⟩

/-- A function without parameters that returns an integer: its call is of kind `Void`. -/
theorem not_hoists_noParams : ¬∀ r results params address args c,
    Hoists (r :: results) params address args c := by
  intro h
  have hkind := (h .int64 [] [] (.label 0 0) [] ⟨1, 1, [], [], [], []⟩).kind
  revert hkind
  decide

end Compiler

end OneJit
