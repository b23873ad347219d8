import OneJit.Folding
import OneJit.OptimizerKept
import OneJit.Statements

/-!
# Running optimized expressions

Without calls, an optimized expression has the value of the expression wherever that has one. The
operands of a call that do not call themselves are optimized one by one. An assignment that is
rewritten leaves the same values in all locations, though a variable may keep the bits above its
kind that writing its own value back would have dropped.
-/

namespace OneJit

open Expr

/-! ## States with the same values -/

/-- The variables hold the same values, and the heap is the same. -/
structure State.Agree (s t : State) : Prop where
  vars : ∀ (k : Kind) (id : Nat), k.wrap (s.vars k id) = k.wrap (t.vars k id)
  heap : s.heap = t.heap

namespace State.Agree

variable {s t u : State}

theorem refl (s : State) : s.Agree s := ⟨fun _ _ => rfl, rfl⟩

theorem trans (h : s.Agree t) (h' : t.Agree u) : s.Agree u :=
  ⟨fun k id => (h.vars k id).trans (h'.vars k id), h.heap.trans h'.heap⟩

theorem withHeap (h : s.Agree t) (heap : Heap) :
    State.Agree { s with heap := heap } { t with heap := heap } := ⟨h.vars, rfl⟩

theorem setVar (h : s.Agree t) (k : Kind) (id : Nat) (v : BitVec 64) :
    (s.setVar k id v).Agree (t.setVar k id v) := by
  refine ⟨fun k' id' => ?_, h.heap⟩
  rw [State.setVar, State.setVar]
  dsimp only
  split
  · rfl
  · exact h.vars k' id'

theorem read (h : s.Agree t) (loc : Location) : loc.read s = loc.read t := by
  cases loc with
  | var k id => exact h.vars k id
  | mem k addr => rw [Location.read, Location.read, h.heap]

theorem write (h : s.Agree t) (v : BitVec 64) (loc : Location) :
    (loc.write s v).Agree (loc.write t v) := by
  cases loc with
  | var k id => exact h.setVar k id v
  | mem k addr =>
    rw [Location.write, Location.write, h.heap]
    exact h.withHeap _

end State.Agree

namespace Expr

variable {w : Host} {ρ ρ' : Vars}

theorem runList_congr_of {xs : List Expr}
    (h : ∀ x ∈ xs, ∀ h, run w ρ x h = run w ρ' x h) (hp : Heap) :
    runList w ρ xs hp = runList w ρ' xs hp := by
  induction xs generalizing hp with
  | nil => rfl
  | cons x xs ih =>
    rw [List.forall_mem_cons] at h
    rw [runList, runList, h.1]
    simp only [ih h.2]

/-- Variables are read through their kinds. -/
theorem run_wrap (h : ∀ (k : Kind) (id : Nat), k.wrap (ρ k id) = k.wrap (ρ' k id)) (e : Expr)
    (hp : Heap) : run w ρ e hp = run w ρ' e hp := by
  induction e using Expr.induct generalizing hp with
  | hnone | hconst | hlabel | hftype => rfl
  | hvar k id => rw [run, run, h]
  | hmem k args p ih => rw [run, run, runList_congr_of ih]
  | hunary k op x p ih => rw [run, run, ih]
  | hbinary k op x y p ihx ihy =>
    rw [run, run, ihx]
    simp only [ihy]
  | htuple k op args p ih => rw [run, run, runList_congr_of ih]

theorem runList_wrap (h : ∀ (k : Kind) (id : Nat), k.wrap (ρ k id) = k.wrap (ρ' k id))
    (xs : List Expr) (hp : Heap) : runList w ρ xs hp = runList w ρ' xs hp :=
  runList_congr_of (fun x _ => run_wrap h x) hp

/-- Without calls, the operands are evaluated with the memory as it is. -/
theorem runList_eq_eval {xs : List Expr} (hxs : ∀ x ∈ xs, x.hasCall = false) (h : Heap) :
    runList w ρ xs h = (evalList (w.valuation ρ h) xs).map (·, h) := by
  induction xs with
  | nil => rfl
  | cons x xs ih =>
    rw [List.forall_mem_cons] at hxs
    rw [runList, evalList, run_eq_eval x hxs.1]
    cases eval (w.valuation ρ h) x with
    | none => rfl
    | some a =>
      simp only [Option.map_some, Option.bind_eq_bind, Option.bind_some, ih hxs.2]
      cases evalList (w.valuation ρ h) xs <;> rfl

/-! ## Expressions that run as another one -/

/-- Where the first expression has a value, the second one has it and makes the same calls. -/
def RunsAs (e e' : Expr) : Prop :=
  ∀ (w : Host) (ρ : Vars) (h : Heap) (r : BitVec 64 × Heap),
    run w ρ e h = some r → run w ρ e' h = some r

theorem RunsAs.refl (e : Expr) : e.RunsAs e := fun _ _ _ _ h => h

theorem RunsAs.of_refines {e e' : Expr} (h : Refines e e') (he : e.hasCall = false)
    (he' : e'.hasCall = false) : e.RunsAs e' := by
  intro w ρ hp r hr
  rw [run_eq_eval e he] at hr
  obtain ⟨v, hv, rfl⟩ := Option.map_eq_some_iff.mp hr
  rw [run_eq_eval e' he', h.eval _ v hv]
  rfl

theorem RunsAs.list {xs ys : List Expr} (hall : List.Forall₂ RunsAs xs ys) {h : Heap}
    {r : List (BitVec 64) × Heap} (hr : runList w ρ xs h = some r) : runList w ρ ys h = some r := by
  induction hall generalizing h r with
  | nil => exact hr
  | cons hx _ ih =>
    obtain ⟨vs, h'⟩ := r
    obtain ⟨a, h₁, ws, ha, hws, rfl⟩ := runList_cons.mp hr
    exact runList_cons.mpr ⟨a, h₁, ws, hx w ρ h _ ha, ih hws, rfl⟩

theorem RunsAs.of_forall₂ {xs ys : List Expr} (h : List.Forall₂ Refines xs ys)
    (hxs : ∀ x ∈ xs, x.hasCall = false) (hys : ∀ y ∈ ys, y.hasCall = false) :
    List.Forall₂ RunsAs xs ys := by
  induction h with
  | nil => exact .nil
  | cons hxy _ ih =>
    rw [List.forall_mem_cons] at hxs hys
    exact .cons (.of_refines hxy hxs.1 hys.1) (ih hxs.2 hys.2)

theorem RunsAs.tuple {xs ys : List Expr} (hall : List.Forall₂ RunsAs xs ys) (k : Kind) (op : OpN)
    (p q : Place) : (tuple k op xs p).RunsAs (tuple k op ys q) := by
  intro w ρ h r hr
  obtain ⟨v, h'⟩ := r
  obtain ⟨vs, h₁, hvs, hv⟩ := run_tuple.mp hr
  exact run_tuple.mpr ⟨vs, h₁, RunsAs.list hall hvs, hv⟩

/-- In a state with the same values. -/
theorem RunsAs.runAt {e e' : Expr} (h : e.RunsAs e') {s t : State} (hst : s.Agree t)
    {r : BitVec 64 × Heap} (hr : e.runAt w s = some r) : e'.runAt w t = some r := by
  rw [Expr.runAt, run_wrap hst.vars, hst.heap] at hr
  exact h w t.vars t.heap r hr

/-- Where the first expression denotes a location, the second one denotes it. -/
def LocatesAs (e e' : Expr) : Prop :=
  ∀ (w : Host) (ρ : Vars) (h : Heap) (r : Location × Heap),
    e.locate w ρ h = some r → e'.locate w ρ h = some r

theorem LocatesAs.mem {xs ys : List Expr} (hall : List.Forall₂ RunsAs xs ys) (k : Kind)
    (p q : Place) : (mem k xs p).LocatesAs (mem k ys q) := by
  intro w ρ h r hr
  rw [locate] at hr ⊢
  obtain ⟨vs, hvs, hr⟩ := Option.bind_eq_some_iff.mp hr
  rw [RunsAs.list hall hvs]
  exact hr

theorem locate_wrap (h : ∀ (k : Kind) (id : Nat), k.wrap (ρ k id) = k.wrap (ρ' k id)) (e : Expr)
    (hp : Heap) : e.locate w ρ hp = e.locate w ρ' hp := by
  cases e with
  | mem k args p => rw [locate, locate, runList_wrap h]
  | _ => rfl

/-! ## Optimized expressions -/

/-- An expression that the optimizer does not look into. -/
def isLeaf : Expr → Bool
  | none | const _ _ | var _ _ | label _ _ | ftype _ _ => true
  | _ => false

/-- A call of operands without calls. -/
def isPlainCall : Expr → Bool
  | tuple _ .call args _ => !hasCallList args
  | _ => false

/-- Every step of the run on the expression is right, and calls are not moved. -/
def optimizesRight (o : Optimizer) (e : Expr) : Bool :=
  e.isLeaf || e.typed && (o.steps (Optimizer.optimizeFuel e) e).all (Step.ok o) &&
    (e.isPlainCall || !e.hasCall && e.valueKind.isScalar)

theorem optimize_leaf {e : Expr} (h : e.isLeaf) (o : Optimizer) (fuel : Nat) :
    o.optimize fuel e = some e := by
  cases fuel with
  | zero => rfl
  | succ fuel => cases e <;> first | rfl | cases h

/-- The operands of a call take the place of themselves. -/
theorem spliced_call {k : Kind} {xs : List Expr} {chunks : List (List Expr)}
    (h : List.Forall₂ (Spliced k .call) xs chunks) : List.Forall₂ Refines xs chunks.flatten := by
  induction h with
  | nil => exact .nil
  | cons hx _ ih =>
    cases hx with
    | single hxy => exact .cons hxy ih
    | group hop => exact absurd rfl hop

/-- A call of optimized operands. -/
theorem optimize_plainCall {o : Optimizer} {k : Kind} {args : List Expr} {p : Place}
    (hcall : hasCallList args = false) (ht : (tuple k .call args p).typed) (fuel : Nat)
    (hsteps : ∀ s ∈ o.steps fuel (tuple k .call args p), s.ok o) :
    ∃ ys q, o.optimize fuel (tuple k .call args p) = some (tuple k .call ys q) ∧
      List.Forall₂ RunsAs args ys := by
  have hself : List.Forall₂ RunsAs args args := List.forall₂_same.mpr fun x _ => .refl x
  cases fuel with
  | zero => exact ⟨args, p, rfl, hself⟩
  | succ fuel =>
    rw [Optimizer.optimize]
    rw [Optimizer.steps] at hsteps
    by_cases hflag : o.flags.simplifyExpr
    · rw [if_pos hflag] at hsteps ⊢
      rw [List.forall_mem_append] at hsteps
      obtain ⟨chunks, hchunks, hspliced⟩ :=
        (o.optimize_refines fuel).2 k .call args p ht hsteps.1
      have hfree := hasCallList_eq_false.mp hcall
      have hkept := (Optimizer.optimize_keeps hereditary_hasCall o fuel).2 k .call args _ hfree
        hchunks
      have hall := RunsAs.of_forall₂ (spliced_call hspliced) hfree hkept
      rw [hchunks]
      dsimp only [Option.bind_eq_bind, Option.bind_some]
      have hret : o.partialEvalTuple k .call args p chunks.flatten =
          Optimizer.rebuildTuple k .call args p chunks.flatten := rfl
      rw [hret, Optimizer.rebuildTuple]
      by_cases hsame : Optimizer.sameChildren args chunks.flatten
      · rw [if_pos hsame, ite_self]
        exact ⟨args, p, rfl, hself⟩
      · rw [if_neg hsame]
        split
        · exact ⟨_, .fresh, rfl, hall⟩
        · exact ⟨args, p, rfl, hself⟩
    · rw [if_neg hflag]
      exact ⟨args, p, rfl, hself⟩

theorem toExpr_of_scalar {e : Expr} (ht : e.typed) (hk : e.valueKind.isScalar) : e.toExpr = e := by
  cases e with
  | none => cases ht
  | ftype => cases hk
  | _ => rfl

/-- What the optimizer makes of an expression runs as it, also where a statement stands. -/
theorem optimize_right {o : Optimizer} {e : Expr} (h : e.optimizesRight o) :
    ∃ e', o.optimize (Optimizer.optimizeFuel e) e = some e' ∧ e.RunsAs e' ∧ e.toExpr.RunsAs e'.toExpr := by
  rw [optimizesRight, Bool.or_eq_true, Bool.and_eq_true, Bool.and_eq_true, List.all_eq_true] at h
  obtain hleaf | ⟨⟨ht, hsteps⟩, hcalls⟩ := h
  · exact ⟨e, optimize_leaf hleaf o _, .refl e, .refl _⟩
  · by_cases hplain : e.isPlainCall
    · cases e with
      | tuple k op args p =>
        cases op with
        | call =>
          have hcall : hasCallList args = false := by simpa [isPlainCall] using hplain
          obtain ⟨ys, q, hret, hall⟩ := optimize_plainCall hcall ht _ hsteps
          exact ⟨_, hret, .tuple hall k .call p q, .tuple hall k .call p q⟩
        | _ => cases hplain
      | _ => cases hplain
    · rw [Bool.not_eq_true] at hplain
      rw [hplain, Bool.false_or, Bool.and_eq_true, Bool.not_eq_true'] at hcalls
      obtain ⟨e', hret, hrefines⟩ := (o.optimize_refines _).1 e ht hsteps
      have hkept := (Optimizer.optimize_keeps hereditary_hasCall o _).1 e e' hcalls.1 hret
      have hruns := RunsAs.of_refines hrefines hcalls.1 hkept
      refine ⟨e', hret, hruns, ?_⟩
      rwa [toExpr_of_scalar ht hcalls.2,
        toExpr_of_scalar hrefines.typed (hrefines.kind ▸ hcalls.2)]

/-- What the optimizer makes of a place denotes the same location. -/
theorem optimize_locates {o : Optimizer} {e e' : Expr} (h : e.optimizesRight o)
    (hret : o.optimize (Optimizer.optimizeFuel e) e = some e') : e.LocatesAs e' := by
  cases e with
  | mem k args p =>
    simp only [optimizesRight, isLeaf, isPlainCall, Bool.false_or, Bool.and_eq_true,
      List.all_eq_true, Bool.not_eq_true'] at h
    obtain ⟨⟨ht, hsteps⟩, hcall, -⟩ := h
    generalize Optimizer.optimizeFuel (mem k args p) = fuel at hsteps hret
    cases fuel with
    | zero =>
      cases hret
      exact fun _ _ _ _ h => h
    | succ fuel =>
      rw [Optimizer.optimize] at hret
      obtain ⟨children, hchildren, heq⟩ := Option.bind_eq_some_iff.mp hret
      rw [Optimizer.steps, List.forall_mem_flatMap] at hsteps
      rw [typed, Bool.and_eq_true, typedList_iff] at ht
      have hfree := hasCallList_eq_false.mp hcall
      have hkept := Optimizer.mapM_keeps
        (Optimizer.optimize_keeps hereditary_hasCall o fuel).1 hfree hchildren
      have hall := List.mapM_eq_some.mp hchildren
      have hruns : List.Forall₂ RunsAs args children := by
        clear hret heq hchildren hcall
        induction hall with
        | nil => exact .nil
        | @cons x y _ _ hxy _ ih =>
          rw [List.forall_mem_cons] at ht hsteps hfree hkept
          obtain ⟨y', hy', hrefines⟩ := (o.optimize_refines fuel).1 x ht.2.1 hsteps.1
          rw [hxy] at hy'
          cases hy'
          exact .cons (.of_refines hrefines hfree.1 hkept.1)
            (ih ⟨ht.1, ht.2.2⟩ hsteps.2 hfree.2 hkept.2)
      cases heq
      split
      · exact fun _ _ _ _ h => h
      · exact .mem hruns k p .fresh
  | var k id =>
    rw [optimize_leaf rfl] at hret
    cases hret
    exact fun _ _ _ _ h => h
  | _ => exact fun _ _ _ _ h => by cases h

end Expr

end OneJit
