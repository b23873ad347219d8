import OneJit.LabelsResolve
import OneJit.StmtSimulation

/-!
# A compiled function does what its body does

The code of a function is run from behind its prologue, which declares the parameters. It returns
what the body returns, or the variables of the results where the body comes to its end; it is stuck
where the body is undefined, and it runs forever where the loops of the body do.
-/

namespace OneJit

open FlatCode Stmt Compiler Expr

namespace Func

/-- What `add_prologue` appends. -/
def prologue (f : Func) : List Stmt :=
  .expr address :: if f.params.isEmpty then [] else [.stmtN .set (f.params.map .expr)]

/-- What the body is compiled to. -/
def compiledBody (f : Func) : Output := (compileAdd (compileStmt f.body) f.start).2.1

/-- The compiled function. -/
def nodes (f : Func) : List Stmt := (compileFunc f).nodes

/-- The compiled function behind its prologue. -/
def code (f : Func) : List Stmt := f.nodes.drop f.prologue.length

/-- What the function does: its body, and a `Return` of its results. -/
def outcome (w : Host) (turns : Nat) (f : Func) (s : State) : StmtResult :=
  (f.body.outcome w turns s).andThen
    ((stmtN .return (f.results.map .expr)).outcome w turns)

/-- The body is lowered right, without labels and jumps that the input makes itself, and the results
are Bool, integers or pointers. -/
def lowersRight (f : Func) : Bool :=
  f.body.lowersRight (bound f.start) f.results && f.body.labelsApart &&
    (f.body.layout.placed ++ f.body.returned.toList ++ f.jumpTargets).isEmpty &&
    f.resultKinds.all Kind.isScalar

/-- The label of the address is the only one that is not taken by the compiler. -/
theorem lowersRight_labels {f : Func} (h : f.lowersRight) :
    f.body.labelsApart ∧ f.placedLabels = [0] ∧ f.jumpTargets = [] := by
  rw [lowersRight, Bool.and_eq_true, Bool.and_eq_true, Bool.and_eq_true, List.isEmpty_iff,
    List.append_eq_nil_iff] at h
  exact ⟨h.1.1.2, congrArg (0 :: ·) h.1.2.1, h.1.2.2⟩

/-- The function has been compiled without errors, and neither variables nor labels ran out. -/
def Compiles (f : Func) : Prop :=
  (compileFunc f).errors = [] ∧ Room (compileAdd (compileStmt f.body) f.start).2.2

instance (f : Func) : Decidable f.Compiles := inferInstanceAs (Decidable (_ ∧ _ ∧ _))

/-- The code returns these values with this heap. -/
def Returns (w : Host) (f : Func) (s : State) (vs : List (BitVec 64)) (h : Heap) : Prop :=
  ∃ args rest t, (machine w).Reaches f.nodes 0 (f.code, s) (.stmtN .return args :: rest, t) ∧
    runList w t.vars (args.map Stmt.toExpr) t.heap = some (vs, h)

/-- The code comes to a statement that is undefined. -/
def Stuck (w : Host) (f : Func) (s : State) : Prop :=
  ∃ b, (observer w (bound f.start)).stuck b ∧ (machine w).Reaches f.nodes 0 (f.code, s) b

/-- The code takes any number of steps. -/
def Diverges (w : Host) (f : Func) (s : State) : Prop :=
  ∀ n, ∃ b, (machine w).Reaches f.nodes n (f.code, s) b

end Func

namespace Compiler

variable {w : Host} {turns : Nat} {f : Func}

theorem addPrologue_run (f : Func) (c : Compiler) :
    addPrologue f c = ((), ⟨f.prologue, []⟩, c) := by
  rw [Func.prologue]
  unfold addPrologue takeIf
  cases f.params.isEmpty <;> rfl

theorem compileFunc_eq (f : Func) :
    compileFunc f = addEpilogue f (⟨f.prologue, []⟩ ++ f.compiledBody) := by
  rw [compileFunc, CompileM.bind_run, addPrologue_run]
  rfl

/-- The prologue, the body, and a `Return` unless the body ends with one. -/
theorem code_cases (f : Func) : f.nodes = f.prologue ++ f.code ∧
    f.compiledBody.errors = (compileFunc f).errors ∧
    (f.code = f.compiledBody.nodes ∧ (∃ st, f.nodes.getLast? = some st ∧ st.isReturn) ∨
      f.code = f.compiledBody.nodes ++ [.stmtN .return (f.results.map .expr)]) := by
  rw [Func.code, Func.nodes, compileFunc_eq, addEpilogue]
  split
  · next hlast =>
    rw [Output.nodes_append, List.drop_left]
    refine ⟨rfl, rfl, .inl ⟨rfl, ?_⟩⟩
    rw [Output.nodes_append] at hlast
    cases hst : (f.prologue ++ f.compiledBody.nodes).getLast? with
    | none =>
      rw [hst] at hlast
      cases hlast
    | some st =>
      rw [hst] at hlast
      exact ⟨st, rfl, hlast⟩
  · rw [Output.nodes_append, List.append_assoc, List.drop_left]
    exact ⟨rfl, rfl, .inr rfl⟩

/-! ## Labels -/

/-- The labels of the compiled function are different. -/
theorem nodes_unique (hright : f.lowersRight) : (machine w).Unique f.nodes := by
  obtain ⟨hapart, hplaced, -⟩ := Func.lowersRight_labels hright
  obtain ⟨n, -, hcount, -⟩ := compileFunc_labels f hapart
  refine List.nodup_iff_count_le_one.mpr fun i => ?_
  change placedIn (compileFunc f).nodes i ≤ 1
  rw [hcount, hplaced, List.count_singleton]
  have hpos := f.labels_pos
  unfold fresh
  split
  · next h =>
    rw [if_neg, Nat.add_zero]
    rw [beq_iff_eq]
    rintro rfl
    exact absurd h.1 (Nat.not_le.mpr hpos)
  · split <;> decide

/-! ## Results -/

theorem varAt_scalar {k : Kind} (hk : k.isScalar) (i : Nat) :
    Func.varAt k i = .var k (i + firstId) := by
  rw [Func.varAt, if_neg]
  rintro rfl
  exact absurd hk (by decide)

theorem results_isResults (hright : f.lowersRight) : IsResults (bound f.start) f.results := by
  rw [Func.lowersRight, Bool.and_eq_true, List.all_eq_true] at hright
  have hget : ∀ i (hi : i < f.results.length), ∃ k, k.isScalar ∧
      f.results[i] = .var k (f.paramKinds.length + i + firstId) := by
    intro i hi
    rw [Func.results, List.length_mapIdx] at hi
    have hk := hright.2 f.resultKinds[i] (List.getElem_mem hi)
    refine ⟨_, hk, ?_⟩
    rw [← varAt_scalar hk]
    simp only [Func.results, List.getElem_mapIdx]
  have hlen : f.results.length = f.resultKinds.length := by
    rw [Func.results, List.length_mapIdx]
  constructor
  · intro r hr
    obtain ⟨i, hi, rfl⟩ := List.getElem_of_mem hr
    obtain ⟨k, hk, heq⟩ := hget i hi
    refine ⟨k, _, heq, hk, ?_⟩
    have hvars := f.vars_le
    change _ < f.vars + firstId
    omega
  · refine List.nodup_iff_injective_getElem.mpr fun i j hij => ?_
    obtain ⟨k, -, hi⟩ := hget i i.isLt
    obtain ⟨k', -, hj⟩ := hget j j.isLt
    have heq := hi.symm.trans (hij.trans hj)
    injection heq with _ hid
    exact Fin.ext (by omega)

/-! ## The whole function -/

theorem observes (n : Nat) (prog : List Stmt) : (machine w).Observes prog (observer w n) where
  returns := by
    rintro vs s ⟨-, t⟩ ⟨args, rest, rfl, -⟩
    rfl
  stuck := by
    rintro ⟨-, t⟩ ⟨st, rest, rfl, -, heffect⟩
    dsimp only at heffect
    rw [Machine.step, machine]
    dsimp only
    rw [heffect]

/-- The code of a function follows the function. -/
theorem code_follows (hright : f.lowersRight) (hcompiles : f.Compiles) (turns : Nat) (s : State) :
    (machine w).Follows f.nodes (observer w (bound f.start)) turns ⟨.none, .none, .none⟩ []
      (f.code, s) (f.outcome w turns s) := by
  have hunique : (machine w).Unique f.nodes := nodes_unique hright
  have hresults := results_isResults hright
  obtain ⟨hnodes, herrors, hcode⟩ := code_cases f
  rw [Func.lowersRight, Bool.and_eq_true, Bool.and_eq_true, Bool.and_eq_true] at hright
  have hready : Ready (bound f.start) f.results f.start := ⟨Nat.le_refl _, rfl⟩
  have hexits : ExitsAt w f.nodes f.start ⟨.none, .none, .none⟩ := ⟨nofun, nofun, nofun⟩
  have hsuffix : f.code <:+ f.nodes := hnodes ▸ List.suffix_append _ _
  have hbody : (machine w).Simulates f.nodes (observer w (bound f.start)) turns
      ⟨.none, .none, .none⟩ f.compiledBody.nodes (f.body.outcome w turns) :=
    compileStmt_simulates hunique hresults hright.1.1.1 f.start hready
      (herrors.trans hcompiles.1) hcompiles.2 _ hexits
  obtain ⟨hcode, st, hlast, hst⟩ | hcode := hcode
  · have hrun := hbody [] (by rwa [List.append_nil, ← hcode]) s s (.refl _ s)
    rw [List.append_nil, ← hcode] at hrun
    refine hrun.never (Machine.not_reaches_end hlast ?_ ?_ hsuffix ?_) _
    · cases st with
      | stmtN => rfl
      | _ => cases hst
    · intro t
      cases st with
      | stmtN => rfl
      | _ => cases hst
    · rintro hnil
      obtain hnil : f.code = [] := hnil
      rw [hnodes, hnil, List.append_nil, Func.prologue] at hlast
      split at hlast
      · cases hlast
        cases hst
      · cases hlast
        cases hst
  · have hlast : (machine w).Simulates f.nodes (observer w _) turns _ _ _ :=
      returned_simulates hresults.1 (results_toExpr hresults.1) ⟨.none, .none, .none⟩
    have hrun := (hbody.append hlast) [] (by rwa [List.append_nil, ← hcode]) s s (.refl _ s)
    rwa [List.append_nil, ← hcode] at hrun

theorem outcome_normal (hright : f.lowersRight) (turns : Nat) (s s' : State) :
    f.outcome w turns s ≠ .ends .normal s' := by
  have hresults := results_isResults hright
  obtain ⟨-, hsome⟩ := results_run (w := w) hresults.1
  rw [Func.outcome]
  generalize f.body.outcome w turns s = r
  intro h
  cases r with
  | trap | timeout => cases h
  | ends o s₁ =>
    cases o with
    | normal =>
      obtain ⟨vs, hvs⟩ := hsome s₁.vars s₁.heap
      rw [Result.ends_andThen, Stmt.outcome, results_toExpr hresults.1] at h
      dsimp only at h
      rw [hvs] at h
      cases h
    | _ => cases h

section Correct

variable (hright : f.lowersRight) (hcompiles : f.Compiles) (s : State)

include hright hcompiles

theorem returns_iff (vs : List (BitVec 64)) (h : Heap) : f.Returns w s vs h ↔
    ∃ turns s', f.outcome w turns s = .ends (.ret vs) s' ∧ s'.heap = h := by
  have hob : (machine w).Observes f.nodes (observer w (bound f.start)) := observes _ _
  have hfollows := fun turns => code_follows (w := w) hright hcompiles turns s
  have hnormal := fun turns => outcome_normal (w := w) hright turns s
  constructor
  · rintro ⟨args, rest, t, hreach, hvs⟩
    obtain ⟨turns, ⟨vs', s', hout, args', rest', heq, hvs'⟩ | ⟨-, st, rest', heq, hst, -⟩⟩ :=
      Machine.Follows.of_stop hob hfollows hnormal hreach rfl
    · cases heq
      rw [hvs] at hvs'
      cases hvs'
      exact ⟨turns, s', hout, rfl⟩
    · cases heq
      cases hst
  · rintro ⟨turns, s', hout, rfl⟩
    have hrun := hfollows turns
    rw [hout] at hrun
    obtain ⟨⟨is, t⟩, ⟨args, rest, heq, hvs⟩, hreach⟩ := hrun
    obtain rfl : is = _ := heq
    exact ⟨args, rest, t, hreach, hvs⟩

theorem stuck_iff : f.Stuck w s ↔ ∃ turns, f.outcome w turns s = .trap := by
  have hob : (machine w).Observes f.nodes (observer w (bound f.start)) := observes _ _
  have hfollows := fun turns => code_follows (w := w) hright hcompiles turns s
  have hnormal := fun turns => outcome_normal (w := w) hright turns s
  constructor
  · rintro ⟨b, hb, hreach⟩
    obtain ⟨turns, ⟨vs, s', -, args, rest, heq, -⟩ | ⟨hout, -⟩⟩ :=
      Machine.Follows.of_stop hob hfollows hnormal hreach (hob.stuck hb)
    · obtain ⟨st, rest', heq', hst, -⟩ := hb
      rw [heq] at heq'
      cases heq'
      cases hst
    · exact ⟨turns, hout⟩
  · rintro ⟨turns, hout⟩
    have hrun := hfollows turns
    rw [hout] at hrun
    exact hrun

theorem diverges_iff : f.Diverges w s ↔ ∀ turns, f.outcome w turns s = .timeout :=
  Machine.Follows.diverges_iff (observes _ _) (fun turns => code_follows hright hcompiles turns s)
    fun turns => outcome_normal hright turns s

/-- A function that is lowered right and compiles does what its body does: the code returns what the
function returns, is stuck where the function is undefined, and runs forever where no number of
turns is enough for its loops. -/
theorem compileFunc_correct :
    (∀ vs h, f.Returns w s vs h ↔
      ∃ turns s', f.outcome w turns s = .ends (.ret vs) s' ∧ s'.heap = h) ∧
    (f.Stuck w s ↔ ∃ turns, f.outcome w turns s = .trap) ∧
    (f.Diverges w s ↔ ∀ turns, f.outcome w turns s = .timeout) :=
  ⟨returns_iff hright hcompiles s, stuck_iff hright hcompiles s, diverges_iff hright hcompiles s⟩

end Correct

/-- The sum of the numbers from the parameter down, up to where two comes. -/
def sumDown : Func :=
  let x := Func.varAt .uint64 0
  let sum := Func.varAt .uint64 1
  { paramKinds := [.uint64]
    resultKinds := [.uint64]
    vars := 2
    labels := 1
    body := .stmt4 .for_ (.stmt2 .assign (.expr sum) (.expr (.const ⟨0, .uint64⟩ .direct)))
      (.expr (.binary .bool .gtr x (.const ⟨0, .uint64⟩ .direct) .fresh))
      (.stmt1 .dec x)
      (.stmt3 .if_ (.expr (.binary .bool .eql x (.const ⟨2, .uint64⟩ .direct) .fresh))
        (.stmt0 .brk) (.stmt2 .addAssign (.expr sum) (.expr x)))
    vars_le := Nat.le_refl 2
    labels_pos := by decide }

/-- Every variable holds five, and the memory is zero. -/
def fives : State := ⟨fun _ _ => 5, ⟨fun _ => 0, []⟩⟩

/-- The values that were returned, if any were. -/
def returned : StmtResult → Option (List (BitVec 64))
  | .ends (.ret vs) _ => some vs
  | _ => .none

theorem eq_ret_of_returned {r : StmtResult} {vs : List (BitVec 64)} (h : returned r = some vs) :
    ∃ s, r = .ends (.ret vs) s := by
  cases r with
  | ends o s =>
    cases o with
    | ret us =>
      cases h
      exact ⟨s, rfl⟩
    | _ => cases h
  | _ => cases h

theorem compileFunc_correct_sumDown : ∃ h, sumDown.Returns sevens fives [12] h := by
  obtain ⟨hreturns, -, -⟩ := compileFunc_correct (w := sevens) (f := sumDown) (by decide +kernel)
    (by decide +kernel) fives
  obtain ⟨s', hout⟩ := eq_ret_of_returned (r := sumDown.outcome sevens 5 fives)
    (show returned _ = some [12] by decide +kernel)
  exact ⟨s'.heap, (hreturns _ _).mpr ⟨5, s', hout, rfl⟩⟩

end Compiler

end OneJit
