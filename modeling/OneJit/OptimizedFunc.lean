import OneJit.FuncSimulation
import OneJit.OptimizerStmts

/-!
# Compiling a function with the optimizer

`compile(Func, flags)` optimizes the body before it compiles it. Where the body is defined, what is
compiled does what the body did before it was optimized.
-/

namespace OneJit

open FlatCode Stmt

/-- The function with another body: the one that `compile` goes on with. -/
def Func.withBody (f : Func) (body : Stmt) : Func := { f with body := body }

namespace Compiler

variable {w : Host} {o : Optimizer} {f : Func}

theorem outcome_follows {turns : Nat} {body : Stmt} (h : Follows w turns f.body body) (s : State) :
    Result.Refines State.Agree (f.outcome w turns s) ((f.withBody body).outcome w turns s) := by
  refine (h s s (.refl s)).andThen fun t t' ht => ?_
  refine return_follows ?_ t t' ht
  rw [List.forall₂_map_left_iff, List.forall₂_map_right_iff]
  refine List.forall₂_same.mpr fun e _ => ⟨expr_follows (.refl e), .refl _, nofun⟩

/-- The code of an optimized function does what the function does wherever it is defined: it
returns the same values with the same memory and the same calls, it is never stuck, and it runs
forever exactly where the loops of the function do. -/
theorem compileFunc_optimized (hopt : f.body.optimizesRight o) :
    ∃ body, o.optimizeStmt f.body = some body ∧
      ((f.withBody body).lowersRight → (f.withBody body).Compiles →
        ∀ (w : Host) (s : State), (∀ turns, f.outcome w turns s ≠ .trap) →
          (∀ vs h, (f.withBody body).Returns w s vs h ↔
            ∃ turns s', f.outcome w turns s = .ends (.ret vs) s' ∧ s'.heap = h) ∧
          ¬(f.withBody body).Stuck w s ∧
          ((f.withBody body).Diverges w s ↔ ∀ turns, f.outcome w turns s = .timeout)) := by
  obtain ⟨body, hbody, -⟩ := @optimizeStmt_kept sevens 0 _ _ hopt
  refine ⟨body, hbody, fun hright hcompiles w s hdefined => ?_⟩
  -- every number of turns leads to the same result, up to the bits that no variable shows
  have hrefines : ∀ turns, Result.Refines State.Agree (f.outcome w turns s)
      ((f.withBody body).outcome w turns s) := by
    intro turns
    obtain ⟨body', hbody', hkept⟩ := @optimizeStmt_kept w turns _ _ hopt
    rw [hbody] at hbody'
    cases hbody'
    exact outcome_follows hkept.follows s
  refine ⟨fun vs h => (returns_iff hright hcompiles s vs h).trans (exists_congr fun turns => ?_), ?_,
    (diverges_iff hright hcompiles s).trans (forall_congr' fun turns => ?_)⟩
  · exact (hrefines turns).ends_iff (hdefined turns) _ fun t t' ht => by rw [ht.heap]
  · rw [stuck_iff hright hcompiles s]
    rintro ⟨turns, hout⟩
    exact (hrefines turns).not_trap (hdefined turns) hout
  · exact (hrefines turns).timeout_iff (hdefined turns)

/-- The sum of the numbers from the parameter down, written with expressions that the optimizer
folds. -/
def sumFolded : Func :=
  let x := Func.varAt .uint64 0
  let sum := Func.varAt .uint64 1
  sumDown.withBody (.stmt4 .for_
    (.stmt2 .assign (.expr sum) (.expr (.binary .uint64 .sub (.const ⟨2, .uint64⟩ .direct)
      (.const ⟨2, .uint64⟩ .direct) .fresh)))
    (.expr (.binary .bool .gtr x (.const ⟨0, .uint64⟩ .direct) .fresh))
    (.stmt2 .assign (.expr x)
      (.expr (.binary .uint64 .sub x (.const ⟨1, .uint64⟩ .direct) .fresh)))
    (.stmt2 .assign (.expr sum) (.expr (.tuple .uint64 .add [sum, x] .fresh))))

/-- Every variable holds two, and the memory is zero. -/
def twos : State := ⟨fun _ _ => 2, ⟨fun _ => 0, []⟩⟩

theorem sumFolded_defined (turns : Nat) : sumFolded.outcome sevens turns twos ≠ .trap := by
  match turns with
  | 0 | 1 | 2 => nofun
  | n + 3 => nofun

theorem compileFunc_optimized_sumFolded :
    ∃ body, (Optimizer.ofFlags .all).optimizeStmt sumFolded.body = some body ∧
      ∃ h, (sumFolded.withBody body).Returns sevens twos [3] h := by
  obtain ⟨body, hbody, hruns⟩ := compileFunc_optimized (o := .ofFlags .all) (f := sumFolded)
    (by decide +kernel)
  have hall : ((Optimizer.ofFlags .all).optimizeStmt sumFolded.body).all fun body =>
      (sumFolded.withBody body).lowersRight && decide (sumFolded.withBody body).Compiles := by
    decide +kernel
  rw [hbody, Option.all_some, Bool.and_eq_true, decide_eq_true_eq] at hall
  obtain ⟨hreturns, -, -⟩ := hruns hall.1 hall.2 sevens twos sumFolded_defined
  obtain ⟨s', hout⟩ : ∃ s', sumFolded.outcome sevens 3 twos = .ends (.ret [3]) s' := ⟨_, rfl⟩
  exact ⟨body, hbody, s'.heap, (hreturns _ _).mpr ⟨3, s', hout, rfl⟩⟩

end Compiler

end OneJit
