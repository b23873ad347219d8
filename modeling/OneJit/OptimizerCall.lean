import OneJit.OptimizerFuel

/-!
# The optimizer on calls

A call is a tuple, and goes through the flattening of the associative operators. An argument
that is itself a call with the same header is replaced by its children, function type and address
included.
-/

namespace OneJit

namespace Expr

mutual

/-- Every `CALL` has a function type and an address, as `Call::create` writes them. -/
def callsComplete : Expr → Bool
  | .none | .const _ _ | .var _ _ | .label _ _ | .ftype _ _ => true
  | .mem _ args _ => callsCompleteList args
  | .unary _ _ x _ => callsComplete x
  | .binary _ _ x y _ => callsComplete x && callsComplete y
  | .tuple _ op args _ => (op != .call || decide (2 ≤ args.length)) && callsCompleteList args

def callsCompleteList : List Expr → Bool
  | [] => true
  | x :: xs => callsComplete x && callsCompleteList xs

end

theorem callsCompleteList_iff (xs : List Expr) :
    callsCompleteList xs ↔ ∀ x ∈ xs, x.callsComplete := by
  induction xs with
  | nil => simp [callsCompleteList]
  | cons x xs ih => simp [callsCompleteList, ih]

/-- `Call::create`: the kind of the node is the one of the first parameter. -/
def newCall (results params : List Kind) (address : Expr) (args : List Expr) (place : Place) : Expr :=
  tuple (params.head?.getD .void) .call (ftype results params :: address :: args) place

theorem callsComplete_toExpr {e : Expr} (h : e.callsComplete) : e.toExpr.callsComplete := by
  rw [toExpr]
  split
  · exact h
  · rfl

@[simp] theorem callsComplete_ofValue (v : Value) : (ofValue v).callsComplete := by
  rw [ofValue]
  split <;> rfl

@[simp] theorem callsComplete_one (k : Kind) : (one k).callsComplete := by
  rw [one]
  split
  · exact callsComplete_ofValue _
  · split
    · exact callsComplete_ofValue _
    · rfl

@[simp] theorem callsComplete_newBinary (op : Op2) (x y : Expr) :
    (newBinary op x y).callsComplete = (x.callsComplete && y.callsComplete) := rfl

theorem callsComplete_tuple {k : Kind} {op : OpN} {args : List Expr} {p : Place} :
    (tuple k op args p).callsComplete ↔
      (op = .call → 2 ≤ args.length) ∧ ∀ x ∈ args, x.callsComplete := by
  rw [callsComplete, Bool.and_eq_true, callsCompleteList_iff]
  cases op <;> simp

end Expr

namespace Optimizer

open Expr

/-! ## The rules build no call -/

theorem callsComplete_simplifyUnary (kind : Kind) (op : Op1) {x : Expr} (h : x.callsComplete) :
    (simplifyUnary kind op x).callsComplete := by
  have hself : ∀ b : Bool, (if b then x else .none).callsComplete := by
    intro b
    split
    · exact h
    · rfl
  unfold simplifyUnary
  cases x with
  | unary k xop xx q =>
    dsimp only
    have hxx : xx.toExpr.callsComplete := callsComplete_toExpr h
    split
    · split
      · exact hxx
      · exact hxx
      · simp [newTuple, callsComplete_tuple, hxx]
      · simp [hxx]
      · exact hself _
    · exact hself _
  | binary k bop bx by' q =>
    dsimp only
    rw [callsComplete, Bool.and_eq_true] at h
    split
    · rw [callsComplete_newBinary, callsComplete_toExpr h.1, callsComplete_toExpr h.2]
      rfl
    · exact hself _
  | _ => exact hself _

theorem callsComplete_tryOptimizeUnary (o : Optimizer) (kind : Kind) (op : Op1) {x : Expr}
    (h : x.callsComplete) : (o.tryOptimizeUnary kind op x).callsComplete := by
  have hrule : (if o.flags.simplifyExpr then
      simplifyUnary kind op x.toExpr else .none).callsComplete := by
    split
    · exact callsComplete_simplifyUnary kind op (callsComplete_toExpr h)
    · rfl
  unfold tryOptimizeUnary
  dsimp only
  split
  · split
    · split
      · exact callsComplete_ofValue _
      · exact hrule
    · exact hrule
  · rfl

theorem callsComplete_simplifyComma (o : Optimizer) {x y : Expr} (hx : x.callsComplete)
    (hy : y.callsComplete) : (o.simplifyComma [x, y]).callsComplete := by
  unfold simplifyComma
  by_cases hpure : deepPure o.allowMaskPure x
  · simpa [hpure] using hy
  · simp [hpure, callsComplete_tuple, hx, hy]

theorem callsComplete_partialEvalBinary (op : Op2) {x y : Expr} (hx : x.callsComplete)
    (hy : y.callsComplete) : (partialEvalBinary op x y).callsComplete := by
  unfold partialEvalBinary
  by_cases hchanged : swapsOperands op x y
  · simp only [hchanged, if_true]
    split <;> repeat' split
    all_goals first | assumption | simp [hx, hy] | rfl
  · simp only [hchanged, Bool.false_and, Bool.false_eq_true, if_false]
    split <;> repeat' split
    all_goals first | assumption | rfl

theorem callsComplete_simplifyOp (o : Optimizer) (op : Op2) {x y : Expr} (hx : x.callsComplete)
    (hy : y.callsComplete) : (o.simplifyOp op x y).callsComplete := by
  have hself : ∀ result, result.callsComplete → (o.simplifySelf x y result).callsComplete := by
    intro result hresult
    rw [simplifySelf]
    split
    · exact hresult
    · rfl
  have hcomma := callsComplete_simplifyComma o hx hy
  have hboolean : ∀ op, (o.simplifyBoolean op x y).callsComplete := by
    intro op
    unfold simplifyBoolean
    split <;> first | rfl | (split <;> assumption)
  have hcomparison : ∀ op, (o.simplifyComparison op x y).callsComplete := by
    intro op
    unfold simplifyComparison
    split
    · split
      · split <;> first
          | rfl
          | exact callsComplete_simplifyComma o hx rfl
          | simp [hx, hy]
      · rfl
    · split
      · split <;> rfl
      · rfl
  cases op with
  | sub | rem => exact hself _ rfl
  | quo => exact hself _ (callsComplete_one _)
  | land => exact hboolean .land
  | lor => exact hboolean .lor
  | lss => exact hcomparison .lss
  | leq => exact hcomparison .leq
  | neq => exact hcomparison .neq
  | eql => exact hcomparison .eql
  | gtr => exact hcomparison .gtr
  | geq => exact hcomparison .geq
  | shl | shr | bad2 => rfl

theorem callsComplete_simplifyBinary (o : Optimizer) (op : Op2) {x y : Expr}
    (hx : x.callsComplete) (hy : y.callsComplete) : (o.simplifyBinary op x y).callsComplete := by
  have hfold := callsComplete_partialEvalBinary op hx hy
  unfold simplifyBinary
  dsimp only
  split
  · split
    · next k op' x' y' p heq =>
      have hbinary := hfold
      rw [heq, callsComplete, Bool.and_eq_true] at hbinary
      split
      · exact callsComplete_simplifyOp o op' (callsComplete_toExpr hbinary.1)
          (callsComplete_toExpr hbinary.2)
      · exact hfold
    · exact hfold
  · exact callsComplete_simplifyOp o op hx hy

theorem callsComplete_tryOptimizeBinary {o : Optimizer} {op : Op2} {x y e : Expr}
    (hx : x.callsComplete) (hy : y.callsComplete) (h : o.tryOptimizeBinary op x y = some e) :
    e.callsComplete := by
  have hrule : (if o.flags.simplifyExpr then
      o.simplifyBinary op x.toExpr y.toExpr else .none).callsComplete := by
    split
    · exact callsComplete_simplifyBinary o op (callsComplete_toExpr hx) (callsComplete_toExpr hy)
    · rfl
  unfold tryOptimizeBinary at h
  dsimp only at h
  split at h
  · split at h
    · split at h
      · obtain ⟨r, -, h⟩ := Option.bind_eq_some_iff.mp h
        rw [← Option.some.inj h]
        split
        · exact callsComplete_ofValue _
        · exact hrule
      · rw [← Option.some.inj h]
        exact hrule
    · rw [← Option.some.inj h]
      exact hrule
  · rw [← Option.some.inj h]
    rfl

theorem callsComplete_leadingConsts {es : List Expr} (h : ∀ e ∈ es, e.callsComplete) :
    ∀ e ∈ (leadingConsts es).2, e.callsComplete := by
  induction es with
  | nil => exact h
  | cons e es ih =>
    cases e with
    | const v p => exact ih fun e he => h e (List.mem_cons_of_mem _ he)
    | _ => exact h

theorem callsComplete_rebuildTuple {kind : Kind} {op : OpN} {args : List Expr} {place : Place}
    {children : List Expr} (h : (tuple kind op args place).callsComplete)
    (hchildren : ∀ e ∈ children, e.callsComplete) (hcall : op = .call → 2 ≤ children.length) :
    (rebuildTuple kind op args place children).callsComplete := by
  rw [rebuildTuple]
  split
  · exact h
  · exact callsComplete_tuple.mpr ⟨hcall, hchildren⟩

theorem callsComplete_partialEvalTuple (o : Optimizer) {kind : Kind} {op : OpN} {args : List Expr}
    {place : Place} {children : List Expr} (h : (tuple kind op args place).callsComplete)
    (hchildren : ∀ e ∈ children, e.callsComplete) (hcall : op = .call → 2 ≤ children.length) :
    (o.partialEvalTuple kind op args place children).callsComplete := by
  have harranged : ∀ e ∈ (o.arrange op children).reverse, e.callsComplete := by
    intro e he
    rw [List.mem_reverse, arrange] at he
    split at he
    · exact hchildren e ((o.sort_perm children).mem_iff.mp he)
    · exact hchildren e he
  unfold partialEvalTuple
  split
  · next hassoc =>
    have hnot : op ≠ .call := by
      rintro rfl
      cases hassoc
    dsimp only
    generalize hcut : (if o.flags.foldConstant then leadingConsts (o.arrange op children).reverse
      else ([], (o.arrange op children).reverse)) = cut
    have hkept : ∀ e ∈ cut.2, e.callsComplete := by
      rw [← hcut]
      split
      · exact callsComplete_leadingConsts harranged
      · exact harranged
    obtain ⟨consts, kept⟩ := cut
    dsimp only at hkept ⊢
    split
    · exact callsComplete_ofValue _
    · split
      · split
        · exact callsComplete_ofValue _
        · split
          · exact callsComplete_toExpr (callsComplete_ofValue _)
          · apply callsComplete_rebuildTuple h
            · intro e he
              rcases List.mem_append.mp he with he | he
              · exact hkept e (List.mem_reverse.mp he)
              · rw [List.mem_singleton.mp he]
                exact callsComplete_ofValue _
            · exact fun hop => absurd hop hnot
      · split
        · exact callsComplete_ofValue _
        · exact callsComplete_toExpr (hkept _ (List.mem_singleton_self _))
        · apply callsComplete_rebuildTuple h
          · exact fun e he => hkept e (List.mem_reverse.mp he)
          · exact fun hop => absurd hop hnot
  · exact callsComplete_rebuildTuple h hchildren hcall

/-! ## A run builds no call -/

/-- A run on an expression keeps its calls complete. -/
def KeepsCalls (o : Optimizer) (fuel : Nat) : Prop :=
  ∀ e e', e.callsComplete → o.optimize fuel e = some e' → e'.callsComplete

/-- A run on the operands of a tuple keeps the calls in them complete, and loses no argument. -/
def KeepsArguments (o : Optimizer) (fuel : Nat) : Prop :=
  ∀ kind op args cs, (∀ a ∈ args, a.callsComplete) →
    o.flattenChildren fuel kind op args = some cs →
    (∀ c ∈ cs, c.callsComplete) ∧ (op = .call → args.length ≤ cs.length)

theorem callsComplete_children {kind : Kind} {op : OpN} {e : Expr} (h : e.callsComplete)
    (hheader : e.hasHeader kind op) :
    (op = .call → 2 ≤ e.children.length) ∧ ∀ x ∈ e.children, x.callsComplete := by
  cases e with
  | tuple k op' args p =>
    rw [hasHeader, Bool.and_eq_true, beq_iff_eq, beq_iff_eq] at hheader
    rw [← hheader.2]
    exact callsComplete_tuple.mp h
  | _ => cases hheader

/-- What takes the place of one operand: one expression, unless its header is the one of the
tuple. -/
theorem flattenChild_complete {o : Optimizer} {fuel : Nat} (ihe : KeepsCalls o fuel)
    (ihc : KeepsArguments o fuel) {kind : Kind} {op : OpN} {child : Expr} {chunk : List Expr}
    (hchild : child.callsComplete) (h : o.flattenChild fuel kind op child = some chunk) :
    (∀ c ∈ chunk, c.callsComplete) ∧ (op = .call → 1 ≤ chunk.length ∧
      ((child.hasHeader kind op ∨ ∃ e, o.optimize fuel child = some e ∧ e.hasHeader kind op) →
        2 ≤ chunk.length)) := by
  have hgroup : ∀ e : Expr, e.callsComplete → e.hasHeader kind op →
      o.flattenChildren fuel kind op e.children = some chunk →
      (∀ c ∈ chunk, c.callsComplete) ∧ (op = .call → 2 ≤ chunk.length) := by
    intro e he hheader hchunk
    have hchildren := callsComplete_children he hheader
    have hkept := ihc kind op e.children chunk hchildren.2 hchunk
    exact ⟨hkept.1, fun hop => Nat.le_trans (hchildren.1 hop) (hkept.2 hop)⟩
  rw [flattenChild] at h
  split at h
  · next hheader =>
    have hkept := hgroup child hchild hheader h
    exact ⟨hkept.1, fun hop => ⟨Nat.le_trans (by decide) (hkept.2 hop), fun _ => hkept.2 hop⟩⟩
  · next hheader =>
    obtain ⟨child', hchild', h⟩ := Option.bind_eq_some_iff.mp h
    have hcomplete := ihe child child' hchild hchild'
    split at h
    · next hheader' =>
      have hkept := hgroup child' hcomplete hheader' h
      exact ⟨hkept.1, fun hop => ⟨Nat.le_trans (by decide) (hkept.2 hop), fun _ => hkept.2 hop⟩⟩
    · next hheader' =>
      obtain rfl := Option.some.inj h
      refine ⟨by simpa using hcomplete, fun _ => ⟨Nat.le_refl _, ?_⟩⟩
      rintro (hfalse | ⟨e, he, hfalse⟩)
      · exact absurd hfalse hheader
      · rw [hchild'] at he
        obtain rfl := Option.some.inj he
        exact absurd hfalse hheader'

theorem flattenChildren_complete {o : Optimizer} {fuel : Nat} (ihe : KeepsCalls o fuel)
    (ihc : KeepsArguments o fuel) : KeepsArguments o (fuel + 1) := by
  intro kind op args cs hargs h
  rw [flattenChildren_succ, Option.map_eq_some_iff] at h
  obtain ⟨chunks, hchunks, rfl⟩ := h
  have hall := List.mapM_eq_some.mp hchunks
  clear hchunks
  induction hall with
  | nil => exact ⟨by simp, fun _ => Nat.le_refl _⟩
  | cons hchunk _ ih =>
    rw [List.forall_mem_cons] at hargs
    have hfirst := flattenChild_complete ihe ihc hargs.1 hchunk
    have hrest := ih hargs.2
    rw [List.flatten_cons]
    constructor
    · intro c hc
      rcases List.mem_append.mp hc with hc | hc
      · exact hfirst.1 c hc
      · exact hrest.1 c hc
    · intro hop
      have hone := (hfirst.2 hop).1
      have hmany := hrest.2 hop
      rw [List.length_cons, List.length_append]
      omega

theorem optimize_complete {o : Optimizer} {fuel : Nat} (ihe : KeepsCalls o fuel)
    (ihc : KeepsArguments o fuel) : KeepsCalls o (fuel + 1) := by
  intro e e' hcomplete h
  cases e with
  | tuple kind op args place =>
    rw [optimize] at h
    split at h
    · obtain ⟨children, hchildren, h⟩ := Option.bind_eq_some_iff.mp h
      have htuple := callsComplete_tuple.mp hcomplete
      have hkept := ihc kind op args children htuple.2 hchildren
      rw [← Option.some.inj h]
      split
      · exact callsComplete_partialEvalTuple o hcomplete hkept.1
          fun hop => Nat.le_trans (htuple.1 hop) (hkept.2 hop)
      · exact hcomplete
    · rwa [← Option.some.inj h]
  | mem kind args place =>
    rw [optimize] at h
    obtain ⟨children, hchildren, h⟩ := Option.bind_eq_some_iff.mp h
    have hargs := (callsCompleteList_iff args).mp hcomplete
    rw [← Option.some.inj h]
    split
    · exact hcomplete
    · rw [callsComplete, callsCompleteList_iff]
      intro c hc
      obtain ⟨i, hi, rfl⟩ := List.getElem_of_mem hc
      have hpairs := List.forall₂_iff_get.mp (List.mapM_eq_some.mp hchildren)
      have hi' : i < args.length := by
        rw [hpairs.1]
        exact hi
      exact ihe _ _ (hargs _ (List.getElem_mem hi')) (hpairs.2 i hi' hi)
  | unary kind op x place =>
    rw [optimize] at h
    obtain ⟨x', hx', h⟩ := Option.bind_eq_some_iff.mp h
    have hx := ihe x x' hcomplete hx'
    rw [← Option.some.inj h]
    split
    · exact callsComplete_tryOptimizeUnary o kind op hx
    · split
      · exact hcomplete
      · exact hx
  | binary kind op x y place =>
    rw [optimize] at h
    obtain ⟨x', hx', h⟩ := Option.bind_eq_some_iff.mp h
    obtain ⟨y', hy', h⟩ := Option.bind_eq_some_iff.mp h
    obtain ⟨ret, hret, h⟩ := Option.bind_eq_some_iff.mp h
    have hparts := Bool.and_eq_true_iff.mp hcomplete
    have hx := ihe x x' hparts.1 hx'
    have hy := ihe y y' hparts.2 hy'
    rw [← Option.some.inj h]
    split
    · exact callsComplete_tryOptimizeBinary hx hy hret
    · split
      · exact hcomplete
      · exact Bool.and_eq_true_iff.mpr ⟨hx, hy⟩
  | _ =>
    rw [optimize] at h
    rwa [← Option.some.inj h]

theorem optimize_keepsCalls (o : Optimizer) (fuel : Nat) :
    KeepsCalls o fuel ∧ KeepsArguments o fuel := by
  induction fuel with
  | zero =>
    constructor
    · intro e e' he h
      rwa [← Option.some.inj h]
    · intro kind op args cs hargs h
      rw [← Option.some.inj h]
      exact ⟨hargs, fun _ => Nat.le_refl _⟩
  | succ fuel ih => exact ⟨optimize_complete ih.1 ih.2, flattenChildren_complete ih.1 ih.2⟩

/-! ## The arguments of a call -/

/-- `optimize` returns `e'` for `e`. -/
def Returns (o : Optimizer) (e e' : Expr) : Prop :=
  ∀ fuel, optimizeFuel e ≤ fuel → o.optimize fuel e = some e'

theorem returns_iff {o : Optimizer} {e e' : Expr} :
    o.Returns e e' ↔ o.optimize (optimizeFuel e) e = some e' := by
  constructor
  · intro h
    exact h _ (Nat.le_refl _)
  · intro h fuel hfuel
    rw [o.optimize_fuel e hfuel, h]

/-- The second expression is the node that `optimize` returns for the first. -/
def IsOptimized (o : Optimizer) (e e' : Expr) : Prop :=
  ∃ r, o.Returns e r ∧ (e' = r ∨ sameNode e' r)

/-- A call is returned with its function type, and with its address and each of its arguments in
optimized form. -/
def KeepsCall (o : Optimizer) (results params : List Kind) (address : Expr) (args : List Expr)
    (place : Place) : Prop :=
  ∃ address' args' place', o.Returns (newCall results params address args place)
      (newCall results params address' args' place') ∧
    o.IsOptimized address address' ∧ List.Forall₂ o.IsOptimized args args'

/-- The condition on the address and the arguments of a call of some kind. Where tuples are
rewritten, none is a call of this kind, before or after it is optimized; else none is changed. -/
def Unspliced (o : Optimizer) (kind : Kind) (a : Expr) : Prop :=
  ∃ r, o.Returns a r ∧
    if o.flags.simplifyExpr then ¬a.hasHeader kind .call ∧ ¬r.hasHeader kind .call
    else a = r ∨ sameNode a r

theorem optimize_tuple {o : Optimizer} {kind : Kind} {op : OpN} {args : List Expr} {place : Place} :
    o.optimize (optimizeFuel (tuple kind op args place)) (tuple kind op args place) =
      if o.flags.simplifyExpr then
        (args.mapM (o.flattenChild (2 * sizeList args) kind op)).map fun chunks =>
          let ret := o.partialEvalTuple kind op args place chunks.flatten
          if ret.isValid then ret else tuple kind op args place
      else some (tuple kind op args place) := by
  have hfuel : optimizeFuel (tuple kind op args place) = 2 * sizeList args + 1 + 1 := by
    rw [optimizeFuel, size]
    omega
  rw [hfuel, optimize]
  split
  · rw [flattenChildren_succ]
    cases args.mapM (o.flattenChild (2 * sizeList args) kind op) <;> rfl
  · rfl

theorem sameChildren_iff {xs ys : List Expr} :
    sameChildren xs ys ↔ List.Forall₂ (fun x y => sameNode x y) xs ys := by
  induction xs generalizing ys with
  | nil => cases ys <;> simp [sameChildren]
  | cons x xs ih => cases ys <;> simp [sameChildren, ih]

theorem flattenChild_unspliced {o : Optimizer} {kind : Kind} {op : OpN} {args : List Expr}
    {a r : Expr} (ha : a ∈ args) (hr : o.Returns a r) (hheader : ¬a.hasHeader kind op)
    (hheader' : ¬r.hasHeader kind op) :
    o.flattenChild (2 * sizeList args) kind op a = some [r] := by
  have hfuel : optimizeFuel a ≤ 2 * sizeList args := Nat.mul_le_mul_left 2 (size_le_sizeList ha)
  rw [flattenChild, if_neg hheader, hr _ hfuel]
  exact if_neg hheader'

/-- As many operands as there were, each in the place of at least one, are one for each. -/
theorem length_eq_one_of_flatten {α : Type*} {chunks : List (List α)}
    (hone : ∀ c ∈ chunks, 1 ≤ c.length) (h : chunks.flatten.length ≤ chunks.length) :
    ∀ c ∈ chunks, c.length = 1 := by
  induction chunks with
  | nil => simp
  | cons c cs ih =>
    rw [List.forall_mem_cons] at hone ⊢
    rw [List.flatten_cons, List.length_append, List.length_cons] at h
    have hcs : cs.length ≤ cs.flatten.length := by
      clear h ih
      induction cs with
      | nil => exact Nat.le_refl _
      | cons d ds ih =>
        simp only [List.forall_mem_cons] at hone
        rw [List.flatten_cons, List.length_append, List.length_cons]
        have := ih ⟨hone.1, hone.2.2⟩
        omega
    have hc := hone.1
    exact ⟨by omega, ih hone.2 (by omega)⟩

theorem returns_ftype {o : Optimizer} {results params : List Kind} :
    o.Returns (ftype results params) (ftype results params) := by
  intro fuel _
  cases fuel <;> rfl

section Call

variable {o : Optimizer} {results params : List Kind} {address : Expr} {args : List Expr}
  {place : Place}

/-- The children of a call whose address and arguments are not spliced. -/
theorem flattenChildren_call {kind : Kind} (hsimplify : o.flags.simplifyExpr)
    (h : ∀ a ∈ address :: args, o.Unspliced kind a) :
    ∃ address' args', (ftype results params :: address :: args).mapM
        (o.flattenChild (2 * sizeList (ftype results params :: address :: args)) kind .call) =
          some ([ftype results params] :: [address'] :: args'.map fun a => [a]) ∧
      o.Returns address address' ∧ List.Forall₂ o.Returns args args' := by
  have hone : ∀ a ∈ address :: args, ∃ r, o.Returns a r ∧
      o.flattenChild (2 * sizeList (ftype results params :: address :: args)) kind .call a =
        some [r] := by
    intro a ha
    obtain ⟨r, hr, hheader⟩ := h a ha
    rw [if_pos hsimplify] at hheader
    exact ⟨r, hr, flattenChild_unspliced (List.mem_cons_of_mem _ ha) hr hheader.1 hheader.2⟩
  have hftype : o.flattenChild (2 * sizeList (ftype results params :: address :: args)) kind .call
      (ftype results params) = some [ftype results params] :=
    flattenChild_unspliced List.mem_cons_self returns_ftype (by simp [hasHeader])
      (by simp [hasHeader])
  rw [List.forall_mem_cons] at hone
  obtain ⟨address', haddress, hchild⟩ := hone.1
  obtain ⟨args', hargs⟩ := List.exists_forall₂ hone.2
  refine ⟨address', args', ?_, haddress, hargs.imp fun _ _ h => h.1⟩
  rw [List.mapM_eq_some]
  refine .cons hftype (.cons hchild ?_)
  rw [List.forall₂_map_right_iff]
  exact hargs.imp fun _ _ h => h.2

/-- A call is rebuilt from what takes the place of its children. -/
theorem optimize_call (children : List Expr) (place : Place) (hsimplify : o.flags.simplifyExpr)
    {kind : Kind} (hkind : kind ≠ .bad) :
    o.optimize (optimizeFuel (tuple kind .call children place)) (tuple kind .call children place) =
      (children.mapM (o.flattenChild (2 * sizeList children) kind .call)).map fun chunks =>
        rebuildTuple kind .call children place chunks.flatten := by
  rw [optimize_tuple, if_pos hsimplify]
  congr 1
  funext chunks
  have hret : o.partialEvalTuple kind .call children place chunks.flatten =
      rebuildTuple kind .call children place chunks.flatten := rfl
  have hrebuilt : (rebuildTuple kind .call children place chunks.flatten).isValid := by
    have hk : (rebuildTuple kind .call children place chunks.flatten).kind = kind := by
      rw [rebuildTuple]
      split <;> rfl
    rw [isValid, hk]
    simpa using hkind
  dsimp only
  rw [hret, if_pos hrebuilt]

/-- A call none of whose arguments is spliced is kept. -/
theorem keepsCall_of_unspliced (hsimplify : o.flags.simplifyExpr)
    (hvalid : (newCall results params address args place).isValid)
    (h : ∀ a ∈ address :: args, o.Unspliced (params.head?.getD .void) a) :
    o.KeepsCall results params address args place := by
  obtain ⟨address', args', hchunks, haddress, hargs⟩ :=
    flattenChildren_call hsimplify h
  have hrun := optimize_call (ftype results params :: address :: args) place hsimplify
    (by simpa [isValid, newCall, Expr.kind] using hvalid)
  rw [hchunks, Option.map_some] at hrun
  have hflat : ([ftype results params] :: [address'] :: args'.map fun a => [a]).flatten =
      ftype results params :: address' :: args' := by
    simp [← List.flatMap_def]
  rw [hflat, rebuildTuple] at hrun
  split at hrun
  · next hsame =>
    rw [sameChildren_iff, List.forall₂_cons, List.forall₂_cons] at hsame
    refine ⟨address, args, place, returns_iff.mpr hrun, ⟨address', haddress, .inr hsame.2.1⟩, ?_⟩
    rw [List.forall₂_same]
    intro a ha
    obtain ⟨r, -, hr, hnode⟩ := (hargs.and hsame.2.2).exists_right a ha
    exact ⟨r, hr, .inr hnode⟩
  · exact ⟨address', args', .fresh, returns_iff.mpr hrun, ⟨address', haddress, .inl rfl⟩,
      hargs.imp fun a r hr => ⟨r, hr, .inl rfl⟩⟩

/-- No argument of a call that is kept is spliced. -/
theorem unspliced_of_keepsCall (hsimplify : o.flags.simplifyExpr)
    (hvalid : (newCall results params address args place).isValid)
    (hcomplete : ∀ a ∈ address :: args, a.callsComplete)
    (h : o.KeepsCall results params address args place) :
    ∀ a ∈ address :: args, o.Unspliced (params.head?.getD .void) a := by
  obtain ⟨address', args', place', hcall, haddress, hargs⟩ := h
  have hrun := hcall _ (Nat.le_refl _)
  rw [newCall, optimize_call _ _ hsimplify (by simpa [isValid, newCall, Expr.kind] using hvalid),
    Option.map_eq_some_iff] at hrun
  obtain ⟨chunks, hchunks, hret⟩ := hrun
  have hpairs := List.mapM_eq_some.mp hchunks
  have hkeeps := o.optimize_keepsCalls (2 * sizeList (ftype results params :: address :: args))
  have hchildren : ∀ a ∈ ftype results params :: address :: args, a.callsComplete := by
    rw [List.forall_mem_cons]
    exact ⟨rfl, hcomplete⟩
  have hone : ∀ c ∈ chunks, 1 ≤ c.length := by
    intro c hc
    obtain ⟨a, ha, hchunk⟩ := hpairs.exists_left c hc
    exact ((flattenChild_complete hkeeps.1 hkeeps.2 (hchildren a ha) hchunk).2 rfl).1
  have hlength : chunks.flatten.length = chunks.length := by
    rw [← hpairs.length_eq]
    rw [rebuildTuple] at hret
    split at hret
    · next hsame => exact (sameChildren_iff.mp hsame).length_eq.symm
    · rw [newCall, tuple.injEq] at hret
      rw [hret.2.2.1, List.length_cons, List.length_cons, List.length_cons, List.length_cons,
        hargs.length_eq]
  have hsingle := length_eq_one_of_flatten hone (Nat.le_of_eq hlength)
  have hreturns : ∀ a ∈ address :: args, ∃ r, o.Returns a r := by
    rw [List.forall_mem_cons]
    constructor
    · obtain ⟨r, hr, -⟩ := haddress
      exact ⟨r, hr⟩
    · intro a ha
      obtain ⟨a', -, r, hr, -⟩ := hargs.exists_right a ha
      exact ⟨r, hr⟩
  intro a ha
  obtain ⟨r, hr⟩ := hreturns a ha
  have hmem := List.mem_cons_of_mem (ftype results params) ha
  obtain ⟨c, hc, hchunk⟩ := hpairs.exists_right a hmem
  have htwo := ((flattenChild_complete hkeeps.1 hkeeps.2 (hchildren a hmem) hchunk).2 rfl).2
  have hfuel := hr _ (Nat.mul_le_mul_left 2 (size_le_sizeList hmem))
  refine ⟨r, hr, ?_⟩
  rw [if_pos hsimplify]
  constructor
  · intro hheader
    have hle := htwo (.inl hheader)
    rw [hsingle c hc] at hle
    exact absurd hle (by decide)
  · intro hheader
    have hle := htwo (.inr ⟨r, hfuel, hheader⟩)
    rw [hsingle c hc] at hle
    exact absurd hle (by decide)

/-- Optimizing a call keeps its function type, its address and its arguments if and only if none
of them is a call with the same header, before or after it is optimized. -/
theorem optimize_call_iff (o : Optimizer) (results params : List Kind) (address : Expr)
    (args : List Expr) (place : Place)
    (hvalid : (newCall results params address args place).isValid)
    (hcomplete : ∀ a ∈ address :: args, a.callsComplete) :
    o.KeepsCall results params address args place ↔
      ∀ a ∈ address :: args, o.Unspliced (params.head?.getD .void) a := by
  by_cases hsimplify : o.flags.simplifyExpr
  · exact ⟨unspliced_of_keepsCall hsimplify hvalid hcomplete,
      keepsCall_of_unspliced hsimplify hvalid⟩
  · have hsame : o.Returns (newCall results params address args place)
        (newCall results params address args place) := by
      rw [returns_iff, newCall, optimize_tuple, if_neg hsimplify]
    simp only [Unspliced, if_neg hsimplify]
    constructor
    · intro ⟨address', args', place', hcall, haddress, hargs⟩
      have heq := hsame _ (Nat.le_refl _)
      rw [hcall _ (Nat.le_refl _)] at heq
      simp only [newCall, Option.some.injEq, tuple.injEq, List.cons.injEq, true_and] at heq
      obtain ⟨⟨rfl, rfl⟩, -⟩ := heq
      rw [List.forall_mem_cons]
      exact ⟨haddress, List.forall₂_same.mp hargs⟩
    · intro h
      rw [List.forall_mem_cons] at h
      exact ⟨address, args, place, hsame, h.1, List.forall₂_same.mpr h.2⟩

/-- `f(x + 0)` keeps its argument, as `x`. -/
theorem optimize_call_sum :
    let x := var .int32 0x1000
    let sum := tuple .int32 .add [x, const ⟨0, .int32⟩ .direct] (.at 0)
    (Optimizer.ofFlags .all).KeepsCall [.int32] [.int32] (label 1 0) [sum] (.at 4) ↔
      ∀ a ∈ [label 1 0, sum], (Optimizer.ofFlags .all).Unspliced .int32 a :=
  optimize_call_iff (.ofFlags .all) [.int32] [.int32] (label 1 0)
    [tuple .int32 .add [var .int32 0x1000, const ⟨0, .int32⟩ .direct] (.at 0)] (.at 4) rfl
    (by decide)

/-- `f(f(x))` becomes a call of `f` with three arguments. -/
theorem optimize_call_splices :
    ¬∀ (o : Optimizer) (results params : List Kind) (address : Expr) (args : List Expr)
      (place : Place), (newCall results params address args place).isValid →
      (∀ a ∈ address :: args, a.callsComplete) →
      o.KeepsCall results params address args place := by
  intro h
  let f := label 1 0
  let inner := newCall [.int32] [.int32] f [var .int32 0x1000] (.at 0)
  obtain ⟨address', args', place', hcall, -, hargs⟩ :=
    h (.ofFlags .all) [.int32] [.int32] f [inner] (.at 8) rfl (by decide)
  have hrun : (Optimizer.ofFlags .all).optimize 14 (newCall [.int32] [.int32] f [inner] (.at 8)) =
      some (newCall [.int32] [.int32] f [ftype [.int32] [.int32], f, var .int32 0x1000] .fresh) := rfl
  rw [hcall 14 (by decide)] at hrun
  simp only [newCall, Option.some.injEq, tuple.injEq, List.cons.injEq, true_and] at hrun
  rw [hrun.1.2] at hargs
  exact absurd hargs.length_eq (by decide)

end Call

end Optimizer

end OneJit
