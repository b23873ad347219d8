import OneJit.OptimizerFuel
import OneJit.OptimizerTuple

/-!
# The runs of the optimizer

`steps` lists the nodes that the optimizer rewrites while it goes through a tree bottom up, each
with the operands it has by then. A run whose steps all meet the condition of their rules returns
a refinement of the tree.
-/

namespace OneJit

open Expr

/-- One step of the optimizer: the operands are optimized already. -/
inductive Step
  | unary (kind : Kind) (op : Op1) (x : Expr)
  | binary (op : Op2) (x y : Expr)
  | tuple (kind : Kind) (op : OpN) (children : List Expr)
  | splice (op : OpN)

/-- The condition of a step. The operands of a call within a call are not those of the call. -/
def Step.ok (o : Optimizer) : Step → Bool
  | .unary kind op x => unaryOk o kind op x
  | .binary op x y => binaryOk o op x y
  | .tuple kind op children => tupleOk o kind op children
  | .splice op => op != .call

namespace Optimizer

mutual

/-- The steps of `optimize`. -/
def steps (o : Optimizer) : Nat → Expr → List Step
  | 0, _ => []
  | fuel + 1, e =>
    match e with
    | .none | .const _ _ | .var _ _ | .label _ _ | .ftype _ _ => []
    | .tuple kind op args _ =>
      if o.flags.simplifyExpr then
        childSteps o fuel kind op args ++
          (o.flattenChildren fuel kind op args).toList.map (Step.tuple kind op)
      else []
    | .mem _ args _ => args.flatMap (steps o fuel)
    | .unary kind op x _ =>
      steps o fuel x ++ (o.optimize fuel x).toList.map (Step.unary kind op)
    | .binary _ op x y _ =>
      steps o fuel x ++ steps o fuel y ++ (o.optimize fuel x).toList.flatMap fun x' =>
        (o.optimize fuel y).toList.map (Step.binary op x')

/-- The steps of `flatten_children_tobuf`. -/
def childSteps (o : Optimizer) : Nat → Kind → OpN → List Expr → List Step
  | 0, _, _, _ => []
  | fuel + 1, kind, op, args => args.flatMap fun child =>
    if child.hasHeader kind op then Step.splice op :: childSteps o fuel kind op child.children
    else
      steps o fuel child ++ (o.optimize fuel child).toList.flatMap fun child' =>
        if child'.hasHeader kind op then
          Step.splice op :: childSteps o fuel kind op child'.children
        else []

end

end Optimizer

/-! ## Operands in the place of an operand -/

/-- The operands that take the place of an operand: one that refines it, or those of a tuple with
the same header that refines it. -/
inductive Spliced (k : Kind) (op : OpN) (x : Expr) : List Expr → Prop
  | single {y : Expr} (h : Refines x y) : Spliced k op x [y]
  | group {ys : List Expr} {p : Place} (hop : op ≠ .call) (h : Refines x (tuple k op ys p)) :
    Spliced k op x ys

section Commutative

variable {k : Kind} {op : OpN}

theorem Spliced.operands (hop : op.isCommutative) {x : Expr} {ys : List Expr}
    (h : Spliced k op x ys) (hk : x.valueKind = k) :
    ∀ y ∈ ys, y.typed ∧ y.valueKind = k := by
  cases h with
  | single h =>
    intro y hy
    rw [List.mem_singleton.mp hy]
    exact ⟨h.typed, h.kind.trans hk⟩
  | group _ h => exact ((typed_commutative hop).mp h.typed).2

theorem Spliced.fold (hscalar : k.isScalar) (hop : op.isCommutative) {x : Expr} {ys : List Expr}
    (h : Spliced k op x ys) (ht : x.typed) (hk : x.valueKind = k) {ρ : Valuation}
    {v : BitVec 64} (hv : eval ρ x = some v) :
    ∃ ws, evalList ρ ys = some ws ∧ (k.tupleMonoid hscalar op hop).fold ws = v := by
  cases h with
  | single h =>
    have hvalid := eval_normal ρ x ht (hk ▸ hscalar) v hv
    rw [hk] at hvalid
    exact ⟨[v], evalList_cons.mpr ⟨v, [], h.eval ρ v hv, rfl, rfl⟩,
      (k.tupleMonoid hscalar op hop).fold_singleton hvalid⟩
  | group _ h => exact (eval_commutative hscalar hop).mp (h.eval ρ v hv)

theorem spliced_commutative (hop : op.isCommutative) {xs : List Expr} {chunks : List (List Expr)}
    {p q : Place} (ht : (tuple k op xs p).typed) (h : List.Forall₂ (Spliced k op) xs chunks) :
    Refines (tuple k op xs p) (tuple k op chunks.flatten q) := by
  obtain ⟨hscalar, hxs⟩ := (typed_commutative hop).mp ht
  have hne := commutative_ne_comma hop
  have hall : ∀ y ∈ chunks.flatten, y.typed ∧ y.valueKind = k := by
    clear ht
    induction h with
    | nil => simp
    | cons hx _ ih =>
      simp only [List.forall_mem_cons] at hxs
      intro y hy
      rcases List.mem_append.mp hy with hy | hy
      · exact hx.operands hop hxs.1.2 y hy
      · exact ih hxs.2 y hy
  refine ⟨(typed_commutative hop).mpr ⟨hscalar, hall⟩, ?_, ?_⟩
  · rw [valueKind_tuple hne, valueKind_tuple hne]
  · intro ρ v hv
    rw [eval_commutative hscalar hop] at hv ⊢
    obtain ⟨vs, hvs, hv⟩ := hv
    suffices hfold : ∃ ws, evalList ρ chunks.flatten = some ws ∧
        (k.tupleMonoid hscalar op hop).fold ws = (k.tupleMonoid hscalar op hop).fold vs by
      obtain ⟨ws, hws, heq⟩ := hfold
      exact ⟨ws, hws, heq.trans hv⟩
    clear hv ht
    induction h generalizing vs with
    | nil =>
      obtain rfl := Option.some.inj hvs
      exact ⟨[], rfl, rfl⟩
    | cons hx _ ih =>
      simp only [List.forall_mem_cons, List.flatten_cons, List.mem_append] at hxs hall
      obtain ⟨a, us, ha, hus, rfl⟩ := evalList_cons.mp hvs
      obtain ⟨ws, hws, hfold⟩ := hx.fold hscalar hop hxs.1.1 hxs.1.2 ha
      obtain ⟨ws', hws', hfold'⟩ := ih hxs.2 (fun y hy => hall y (.inr hy)) us hus
      refine ⟨ws ++ ws', evalList_append.mpr ⟨ws, ws', hws, hws', rfl⟩, ?_⟩
      rw [MonoidOn.fold_append _ (evalList_valid hscalar (fun y hy => hall y (.inl hy)) hws)
        (evalList_valid hscalar (fun y hy => hall y (.inr hy)) hws'), hfold, hfold']
      rfl

end Commutative

section Comma

theorem typed_comma {k : Kind} {xs : List Expr} {p : Place} :
    (tuple k .comma xs p).typed ↔ k = .void ∧ xs ≠ [] ∧ ∀ x ∈ xs, x.typed := by
  rw [typed, Bool.and_eq_true, typedList_iff, Kind.typedN, Bool.and_eq_true, beq_iff_eq]
  cases xs <;> simp [and_comm]

/-- The last of the operands that take the place of an operand has its kind and value. -/
theorem Spliced.last {x : Expr} {ys : List Expr} (h : Spliced .void .comma x ys) :
    (∀ y ∈ ys, y.typed) ∧ (∃ y, ys.getLast? = some y ∧ y.valueKind = x.valueKind) ∧
      ∀ ρ v, eval ρ x = some v → ∃ ws, evalList ρ ys = some ws ∧ ws.getLast? = some v := by
  cases h with
  | single h =>
    refine ⟨?_, ⟨_, rfl, h.kind⟩, ?_⟩
    · intro y hy
      rw [List.mem_singleton.mp hy]
      exact h.typed
    · intro ρ v hv
      exact ⟨[v], evalList_cons.mpr ⟨v, [], h.eval ρ v hv, rfl, rfl⟩, rfl⟩
  | group _ h =>
    obtain ⟨-, hne, hall⟩ := typed_comma.mp h.typed
    refine ⟨hall, ?_, ?_⟩
    · obtain ⟨y, hy⟩ := Option.isSome_iff_exists.mp (List.getLast?_isSome.mpr hne)
      exact ⟨y, hy, (lastKind_eq hy).symm.trans h.kind⟩
    · intro ρ v hv
      exact eval_tuple.mp (h.eval ρ v hv)

theorem spliced_comma {xs : List Expr} {chunks : List (List Expr)} {p q : Place}
    (ht : (tuple .void .comma xs p).typed)
    (h : List.Forall₂ (Spliced .void .comma) xs chunks) :
    Refines (tuple .void .comma xs p) (tuple .void .comma chunks.flatten q) := by
  obtain ⟨-, hne, -⟩ := typed_comma.mp ht
  have hall : ∀ y ∈ chunks.flatten, y.typed := by
    clear ht hne
    induction h with
    | nil => simp
    | cons hx _ ih =>
      intro y hy
      rcases List.mem_append.mp hy with hy | hy
      · exact hx.last.1 y hy
      · exact ih y hy
  have hlast : ∀ x, xs.getLast? = some x →
      ∃ y, chunks.flatten.getLast? = some y ∧ y.valueKind = x.valueKind := by
    clear ht hne hall
    induction h with
    | nil => simp
    | @cons x ys xs chunks hx hxs ih =>
      intro z hz
      rw [List.flatten_cons, List.getLast?_append]
      cases xs with
      | nil =>
        cases hxs
        obtain ⟨y, hy, hk⟩ := hx.last.2.1
        obtain rfl : x = z := by simpa using hz
        exact ⟨y, by simp [hy], hk⟩
      | cons x' xs' =>
        rw [List.getLast?_cons_cons] at hz
        obtain ⟨y, hy, hk⟩ := ih z hz
        exact ⟨y, by rw [hy]; rfl, hk⟩
  have heval : ∀ ρ vs v, evalList ρ xs = some vs → vs.getLast? = some v →
      ∃ ws, evalList ρ chunks.flatten = some ws ∧ ws.getLast? = some v := by
    intro ρ vs
    clear ht hne hall hlast
    induction h generalizing vs with
    | nil =>
      intro v hvs hv
      obtain rfl := Option.some.inj hvs
      cases hv
    | @cons x ys xs chunks hx hxs ih =>
      intro v hvs hv
      obtain ⟨a, us, ha, hus, rfl⟩ := evalList_cons.mp hvs
      obtain ⟨ws, hws, hwlast⟩ := hx.last.2.2 ρ a ha
      cases xs with
      | nil =>
        cases hxs
        obtain rfl := Option.some.inj hus
        obtain rfl : a = v := by simpa using hv
        exact ⟨ws, by simpa using hws, hwlast⟩
      | cons x' xs' =>
        obtain ⟨b, us', -, -, rfl⟩ := evalList_cons.mp hus
        rw [List.getLast?_cons_cons] at hv
        obtain ⟨ws', hws', hlast'⟩ := ih _ v hus hv
        refine ⟨ws ++ ws', evalList_append.mpr ⟨ws, ws', hws, hws', rfl⟩, ?_⟩
        rw [List.getLast?_append, hlast']
        rfl
  obtain ⟨x, hx⟩ := Option.isSome_iff_exists.mp (List.getLast?_isSome.mpr hne)
  obtain ⟨y, hy, hk⟩ := hlast x hx
  refine ⟨typed_comma.mpr ⟨rfl, ?_, hall⟩, ?_, ?_⟩
  · intro hnil
    rw [hnil] at hy
    cases hy
  · exact (lastKind_eq hy).trans (hk.trans (lastKind_eq hx).symm)
  · intro ρ v hv
    obtain ⟨vs, hvs, hv⟩ := eval_tuple.mp hv
    exact eval_tuple.mpr (heval ρ vs v hvs hv)

end Comma

/-- Operands that take the place of the operands of a tuple. -/
theorem spliced_tuple {k : Kind} {op : OpN} {xs : List Expr} {chunks : List (List Expr)}
    {p q : Place} (ht : (tuple k op xs p).typed) (h : List.Forall₂ (Spliced k op) xs chunks) :
    Refines (tuple k op xs p) (tuple k op chunks.flatten q) := by
  by_cases hop : op.isCommutative
  · exact spliced_commutative hop ht h
  · cases op with
    | comma =>
      obtain ⟨rfl, -⟩ := typed_comma.mp ht
      exact spliced_comma ht h
    | call =>
      have hsingle : List.Forall₂ Refines xs chunks.flatten := by
        clear ht
        induction h with
        | nil => exact .nil
        | cons hx _ ih =>
          cases hx with
          | single hx => exact .cons hx ih
          | group hcall _ => exact absurd rfl hcall
      exact tuple_congr ht (.of_forall₂ hsingle)
    | add | mul | and | or | xor | max | min => exact absurd rfl hop
    | _ =>
      rw [typed, Bool.and_eq_true] at ht
      cases ht.2

namespace Optimizer

theorem hasHeader_iff {k : Kind} {op : OpN} {e : Expr} :
    e.hasHeader k op ↔ ∃ args p, e = tuple k op args p := by
  cases e <;> simp [hasHeader]

/-- The steps on one child of a tuple that is flattened. -/
def stepsOfChild (o : Optimizer) (fuel : Nat) (kind : Kind) (op : OpN) (child : Expr) : List Step :=
  if child.hasHeader kind op then Step.splice op :: childSteps o fuel kind op child.children
  else
    steps o fuel child ++ (o.optimize fuel child).toList.flatMap fun child' =>
      if child'.hasHeader kind op then
        Step.splice op :: childSteps o fuel kind op child'.children
      else []

/-- A run on an expression returns a refinement of it. -/
def OptimizesTo (o : Optimizer) (fuel : Nat) (e : Expr) : Prop :=
  ∃ e', o.optimize fuel e = some e' ∧ Refines e e'

/-- A run on the operands of a tuple returns operands that take their place. -/
def FlattensTo (o : Optimizer) (fuel : Nat) (kind : Kind) (op : OpN) (args : List Expr) : Prop :=
  ∃ chunks, o.flattenChildren fuel kind op args = some chunks.flatten ∧
    List.Forall₂ (Spliced kind op) args chunks

theorem flattenChild_spliced {o : Optimizer} {fuel : Nat} {kind : Kind} {op : OpN} {child : Expr}
    (ihe : ∀ e, e.typed → (∀ s ∈ steps o fuel e, s.ok o) → OptimizesTo o fuel e)
    (ihc : ∀ kind op args p, (tuple kind op args p).typed →
      (∀ s ∈ childSteps o fuel kind op args, s.ok o) → FlattensTo o fuel kind op args)
    (ht : child.typed) (hok : ∀ s ∈ stepsOfChild o fuel kind op child, s.ok o) :
    ∃ ys, o.flattenChild fuel kind op child = some ys ∧ Spliced kind op child ys := by
  have hgroup : ∀ e, Refines child e → e.hasHeader kind op →
      (∀ s ∈ Step.splice op :: childSteps o fuel kind op e.children, s.ok o) →
      ∃ ys, o.flattenChildren fuel kind op e.children = some ys ∧ Spliced kind op child ys := by
    intro e he hheader hok
    obtain ⟨args, p, rfl⟩ := hasHeader_iff.mp hheader
    rw [List.forall_mem_cons] at hok
    obtain ⟨chunks, hchunks, hspliced⟩ := ihc kind op args p he.typed hok.2
    have hop : op ≠ .call := by simpa [Step.ok] using hok.1
    exact ⟨_, hchunks, .group hop (he.trans (spliced_tuple (q := .fresh) he.typed hspliced))⟩
  rw [flattenChild]
  rw [stepsOfChild] at hok
  by_cases hheader : child.hasHeader kind op
  · rw [if_pos hheader] at hok ⊢
    exact hgroup child (.refl ht) hheader hok
  · rw [if_neg hheader] at hok ⊢
    rw [List.forall_mem_append] at hok
    obtain ⟨child', hchild', hrefines⟩ := ihe child ht hok.1
    rw [hchild'] at hok ⊢
    dsimp only [Option.bind_eq_bind, Option.bind_some]
    by_cases hheader' : child'.hasHeader kind op
    · rw [if_pos hheader']
      apply hgroup child' hrefines hheader'
      simpa [hheader'] using hok.2
    · rw [if_neg hheader']
      exact ⟨[child'], rfl, .single hrefines⟩

/-- One more level of a run: every node is rewritten by a step that refines it. -/
theorem optimize_step {o : Optimizer} {fuel : Nat}
    (ihe : ∀ e, e.typed → (∀ s ∈ steps o fuel e, s.ok o) → OptimizesTo o fuel e)
    (ihc : ∀ kind op args p, (tuple kind op args p).typed →
      (∀ s ∈ childSteps o fuel kind op args, s.ok o) → FlattensTo o fuel kind op args)
    {e : Expr} (ht : e.typed) (hok : ∀ s ∈ steps o (fuel + 1) e, s.ok o) :
    OptimizesTo o (fuel + 1) e := by
  cases e with
  | tuple kind op args place =>
    rw [OptimizesTo, optimize]
    rw [steps] at hok
    by_cases hflag : o.flags.simplifyExpr
    · rw [if_pos hflag] at hok ⊢
      rw [List.forall_mem_append] at hok
      obtain ⟨chunks, hchunks, hspliced⟩ := ihc kind op args place ht hok.1
      rw [hchunks] at hok ⊢
      refine ⟨_, rfl, ?_⟩
      split
      · next hvalid =>
        exact partialEvalTuple_refines ht (spliced_tuple ht hspliced)
          (hok.2 _ (List.mem_singleton_self _)) hvalid
      · exact .refl ht
    · rw [if_neg hflag]
      exact ⟨_, rfl, .refl ht⟩
  | mem kind args place =>
    rw [OptimizesTo, optimize]
    rw [steps, List.forall_mem_flatMap] at hok
    have htyped := ht
    rw [typed, Bool.and_eq_true, typedList_iff] at htyped
    obtain ⟨children, hchildren, hrefines⟩ := List.exists_mapM_eq_some
      fun x hx => ihe x (htyped.2 x hx) (hok x hx)
    refine ⟨_, Option.bind_eq_some_iff.mpr ⟨children, hchildren, rfl⟩, ?_⟩
    split
    · exact .refl ht
    · exact mem_congr ht (.of_forall₂ hrefines)
  | unary kind op x place =>
    rw [OptimizesTo, optimize]
    rw [steps, List.forall_mem_append] at hok
    have htyped := ht
    rw [typed, Bool.and_eq_true] at htyped
    obtain ⟨x', hx', hrefines⟩ := ihe x htyped.1 hok.1
    rw [hx'] at hok ⊢
    have hcongr := unary_congr (q := .fresh) ht hrefines
    refine ⟨_, rfl, ?_⟩
    split
    · next hvalid =>
      exact hcongr.trans (tryOptimizeUnary_refines hcongr.typed
        (hok.2 _ (List.mem_singleton_self _)) hvalid)
    · split
      · exact .refl ht
      · exact hcongr
  | binary kind op x y place =>
    rw [OptimizesTo, optimize]
    rw [steps, List.forall_mem_append, List.forall_mem_append] at hok
    have htyped := ht
    rw [typed, Bool.and_eq_true, Bool.and_eq_true] at htyped
    obtain ⟨x', hx', hrefinesx⟩ := ihe x htyped.1.1 hok.1.1
    obtain ⟨y', hy', hrefinesy⟩ := ihe y htyped.1.2 hok.1.2
    rw [hx', hy'] at hok
    have hcongr := binary_congr (q := .fresh) ht hrefinesx hrefinesy
    obtain ⟨ret, hret, hstep⟩ := tryOptimizeBinary_refines hcongr.typed
      (hok.2 _ (List.mem_singleton_self _))
    rw [hx', hy']
    dsimp only [Option.bind_eq_bind, Option.bind_some]
    rw [hret]
    refine ⟨_, rfl, ?_⟩
    split
    · next hvalid => exact hcongr.trans (hstep hvalid)
    · split
      · exact .refl ht
      · exact hcongr
  | _ => exact ⟨_, rfl, .refl ht⟩

/-- The step on a tuple whose operands are flattened. -/
theorem flatten_step {o : Optimizer} {fuel : Nat}
    (ihe : ∀ e, e.typed → (∀ s ∈ steps o fuel e, s.ok o) → OptimizesTo o fuel e)
    (ihc : ∀ kind op args p, (tuple kind op args p).typed →
      (∀ s ∈ childSteps o fuel kind op args, s.ok o) → FlattensTo o fuel kind op args)
    {kind : Kind} {op : OpN} {args : List Expr} {p : Place} (ht : (tuple kind op args p).typed)
    (hok : ∀ s ∈ childSteps o (fuel + 1) kind op args, s.ok o) :
    FlattensTo o (fuel + 1) kind op args := by
  rw [childSteps, List.forall_mem_flatMap] at hok
  rw [typed, Bool.and_eq_true, typedList_iff] at ht
  obtain ⟨chunks, hchunks, hspliced⟩ := List.exists_mapM_eq_some
    fun child hchild => flattenChild_spliced ihe ihc (ht.1 child hchild) (hok child hchild)
  refine ⟨chunks, ?_, hspliced⟩
  rw [flattenChildren_succ, hchunks]
  rfl

/-- A run whose steps all meet their conditions returns, and refines the expression. -/
theorem optimize_refines (o : Optimizer) (fuel : Nat) :
    (∀ e, e.typed → (∀ s ∈ steps o fuel e, s.ok o) → OptimizesTo o fuel e) ∧
      ∀ kind op args p, (tuple kind op args p).typed →
        (∀ s ∈ childSteps o fuel kind op args, s.ok o) → FlattensTo o fuel kind op args := by
  induction fuel with
  | zero =>
    constructor
    · intro e ht _
      exact ⟨e, rfl, .refl ht⟩
    · intro kind op args p ht _
      rw [typed, Bool.and_eq_true, typedList_iff] at ht
      refine ⟨args.map fun x => [x], ?_, ?_⟩
      · rw [flattenChildren, ← List.flatMap_def, List.flatMap_singleton']
      · rw [List.forall₂_map_right_iff, List.forall₂_same]
        exact fun x hx => .single (.refl (ht.1 x hx))
  | succ fuel ih =>
    constructor
    · intro e ht hok
      exact optimize_step ih.1 ih.2 ht hok
    · intro kind op args p ht hok
      exact flatten_step ih.1 ih.2 ht hok

/-- The optimizer returns, and what it returns refines the expression, if every step of the run
meets the condition of its rules. -/
theorem optimize_preserves (o : Optimizer) {e : Expr} (ht : e.typed)
    (hsteps : ∀ s ∈ o.steps (optimizeFuel e) e, s.ok o) :
    ∃ e', (∀ fuel, optimizeFuel e ≤ fuel → o.optimize fuel e = some e') ∧ Refines e e' := by
  obtain ⟨e', he', hrefines⟩ := (o.optimize_refines (optimizeFuel e)).1 e ht hsteps
  refine ⟨e', ?_, hrefines⟩
  intro fuel hfuel
  rw [o.optimize_fuel e hfuel, he']

/-! ## Tuples -/

/-- The n-ary optimizer preserves values in a run whose steps all meet their conditions. -/
theorem optimize_tuple_preserves (o : Optimizer) {kind : Kind} {op : OpN} {args : List Expr}
    {place : Place} (hop : op.isCommutative) (ht : (tuple kind op args place).typed)
    (hsteps : ∀ s ∈ o.steps (optimizeFuel (tuple kind op args place)) (tuple kind op args place),
      s.ok o) :
    ∃ e', (∀ fuel, optimizeFuel (tuple kind op args place) ≤ fuel →
        o.optimize fuel (tuple kind op args place) = some e') ∧
      e'.valueKind = kind ∧
      ∀ ρ v, eval ρ (tuple kind op args place) = some v → eval ρ e' = some v := by
  obtain ⟨e', he', hrefines⟩ := o.optimize_preserves ht hsteps
  have hkind := hrefines.kind
  rw [valueKind_tuple (commutative_ne_comma hop)] at hkind
  exact ⟨e', he', hkind, hrefines.eval⟩

/-- `1 + (2 + x)`. -/
theorem optimize_sum_preserves :
    let x := var .int32 0x1000
    let e := tuple .int32 .add [const ⟨1, .int32⟩ .direct,
      tuple .int32 .add [const ⟨2, .int32⟩ .direct, x] (.at 0)] (.at 4)
    ∃ e', (∀ fuel, optimizeFuel e ≤ fuel → (Optimizer.ofFlags .all).optimize fuel e = some e') ∧
      e'.valueKind = .int32 ∧ ∀ ρ v, eval ρ e = some v → eval ρ e' = some v :=
  optimize_tuple_preserves (.ofFlags .all) rfl rfl (by decide)

/-- `MAX` on a narrow signed kind loses its constants: `max(x, 5)` becomes `x`. -/
theorem optimize_tuple_loses_max :
    ¬∀ (kind : Kind) (op : OpN) (args : List Expr) (place : Place), op.isCommutative →
      (tuple kind op args place).typed →
      ∃ e', (∀ fuel, optimizeFuel (tuple kind op args place) ≤ fuel →
          (Optimizer.ofFlags .all).optimize fuel (tuple kind op args place) = some e') ∧
        e'.valueKind = kind ∧
        ∀ ρ v, eval ρ (tuple kind op args place) = some v → eval ρ e' = some v := by
  intro h
  obtain ⟨e', he', -, heval⟩ :=
    h .int8 .max [var .int8 0x1000, const ⟨5, .int8⟩ .direct] (.at 0) rfl rfl
  have hrun : (Optimizer.ofFlags .all).optimize 6
      (tuple .int8 .max [var .int8 0x1000, const ⟨5, .int8⟩ .direct] (.at 0)) =
        some (var .int8 0x1000) := rfl
  rw [he' 6 (by decide)] at hrun
  obtain rfl := Option.some.inj hrun
  exact absurd (heval ⟨fun _ _ => 0, fun _ => 0, fun _ => 0, fun _ _ => 0⟩ 5 rfl) (by decide)

/-! ## Unary and binary expressions -/

/-- The unary and binary optimizer preserves values in a run whose steps all meet their
conditions. -/
theorem optimize_unary_binary_preserves (o : Optimizer) {e : Expr}
    (htype : e.type = .unary ∨ e.type = .binary) (ht : e.typed)
    (hsteps : ∀ s ∈ o.steps (optimizeFuel e) e, s.ok o) :
    ∃ e', (∀ fuel, optimizeFuel e ≤ fuel → o.optimize fuel e = some e') ∧
      e'.valueKind = e.kind ∧ ∀ ρ v, eval ρ e = some v → eval ρ e' = some v := by
  obtain ⟨e', he', hrefines⟩ := o.optimize_preserves ht hsteps
  have hkind : e.valueKind = e.kind := by
    cases e <;> first | rfl | (simp [type] at htype)
  exact ⟨e', he', hrefines.kind.trans hkind, hrefines.eval⟩

/-- `!(1 < x)`. -/
theorem optimize_not_less_preserves :
    let x := var .int32 0x1000
    let e := unary .bool .not1 (binary .bool .lss (const ⟨1, .int32⟩ .direct) x (.at 0)) (.at 4)
    ∃ e', (∀ fuel, optimizeFuel e ≤ fuel → (Optimizer.ofFlags .all).optimize fuel e = some e') ∧
      e'.valueKind = e.kind ∧ ∀ ρ v, eval ρ e = some v → eval ρ e' = some v :=
  optimize_unary_binary_preserves (.ofFlags .all) (.inl rfl) rfl (by decide)

/-- `(x + 0x12345678) - (x + 0x12345679)`, with constants that are not direct. -/
def differentSums : Expr :=
  binary .int64 .sub
    (tuple .int64 .add [var .int64 0x1000, const ⟨0x12345678, .int64⟩ (.at 0)] (.at 4))
    (tuple .int64 .add [var .int64 0x1000, const ⟨0x12345679, .int64⟩ (.at 8)] (.at 12)) (.at 16)

theorem optimize_differentSums :
    (Optimizer.ofFlags .all).optimize 14 differentSums = some (zero .int64) := by
  rfl

/-- `deep_equal` takes the two constants for equal. -/
theorem optimize_binary_loses_difference :
    ¬∀ e : Expr, e.type = .unary ∨ e.type = .binary → e.typed →
      ∃ e', (∀ fuel, optimizeFuel e ≤ fuel →
          (Optimizer.ofFlags .all).optimize fuel e = some e') ∧
        e'.valueKind = e.kind ∧ ∀ ρ v, eval ρ e = some v → eval ρ e' = some v := by
  intro h
  obtain ⟨e', he', -, heval⟩ := h differentSums (.inr rfl) rfl
  have hrun := optimize_differentSums
  rw [he' 14 (by decide)] at hrun
  obtain rfl := Option.some.inj hrun
  exact absurd (heval ⟨fun _ _ => 0, fun _ => 0, fun _ => 0, fun _ _ => 0⟩ (-1) rfl) (by decide)

end Optimizer

end OneJit
