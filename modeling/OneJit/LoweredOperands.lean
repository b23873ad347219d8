import OneJit.Emitted

/-!
# Lowering n-ary operators and calls

The operands of an n-ary operator are variables, memory operands, constants and labels, or copies to
new variables, in the order of their evaluation. The arguments of a call are all variables, and its
result is assigned to one.
-/

namespace OneJit

open FlatCode Stmt

namespace Expr

variable {w : Host}

/-- The values of expressions in a state, one after another, and what their calls leave. -/
def runListAt (w : Host) (xs : List Expr) (s : State) : Option (List (BitVec 64) × Heap) :=
  runList w s.vars xs s.heap

theorem runListAt_cons (x : Expr) (xs : List Expr) (s : State) :
    runListAt w (x :: xs) s = (x.runAt w s).bind fun r =>
      (runList w s.vars xs r.2).map fun rs => (r.1 :: rs.1, rs.2) := by
  rw [runListAt, runList]
  refine Option.bind_congr fun r _ => ?_
  obtain ⟨a, h⟩ := r
  dsimp only
  cases runList w s.vars xs h <;> rfl

theorem runAt_tuple (k : Kind) (op : OpN) (args : List Expr) (p : Place) (s : State) :
    (tuple k op args p).runAt w s =
      (runListAt w args s).bind fun r => op.runApply w k r.1 r.2 := by
  rw [runAt, run]
  rfl

theorem runList_congr {n : Nat} {ρ ρ' : Vars} (hagree : AgreeBelow n ρ ρ') {xs : List Expr}
    (hxs : varsBelowList n xs) (h : Heap) : runList w ρ xs h = runList w ρ' xs h := by
  induction xs generalizing h with
  | nil => rfl
  | cons x xs ih =>
    rw [varsBelowList, Bool.and_eq_true] at hxs
    rw [runList, runList, run_congr hagree x hxs.1]
    simp only [ih hxs.2]

/-- An operand is computed before the others, and keeps its value while they are. -/
theorem runListAt_append {n : Nat} {calls eager : Bool} {o o' : List Stmt} {x q : Expr}
    {xs qs : List Expr} (ho : Emitted w n calls eager o)
    (hx : ∀ s, (runPiece w o s).bind (q.runAt w) = x.runAt w s)
    (hxs : ∀ s, (runPiece w o' s).bind (runListAt w qs) = runListAt w xs s)
    (hbelow : varsBelowList n xs) (htotal : ∀ s, ∃ a, q.runAt w s = some (a, s.heap))
    (hkept : ∀ s s', runPiece w o' s = some s' →
      q.runAt w s' = (q.runAt w s).map fun r => (r.1, s'.heap)) (s : State) :
    (runPiece w (o ++ o') s).bind (runListAt w (q :: qs)) = runListAt w (x :: xs) s := by
  rw [runPiece_append ho.closed, runListAt_cons, ← hx, Option.bind_assoc, Option.bind_assoc]
  refine Option.bind_congr fun s₁ hs₁ => ?_
  obtain ⟨a, ha⟩ := htotal s₁
  have hsame : runList w s.vars xs s₁.heap = runListAt w xs s₁ :=
    runList_congr (ho.keeps hs₁).1 hbelow s₁.heap
  rw [ha, Option.bind_some, hsame, ← hxs, Option.map_bind]
  refine Option.bind_congr fun s₂ hs₂ => ?_
  rw [runListAt_cons, hkept s₁ s₂ hs₂, ha]
  rfl

end Expr

namespace Compiler

open Expr CompileM

variable {w : Host}

/-! ## Copies -/

/-- A copy to a new variable. -/
def copyTo (k : Kind) (e : Expr) : CompileM Expr := do
  let v ← newVar k
  add (.assign .assign v e)
  return v

theorem copyTo_grows (k : Kind) (e : Expr) : Respects Grows (copyTo k e) :=
  grows_basic.bind (grows_basic.newVar k) fun _ =>
    grows_basic.bind (grows_basic.add _) fun _ => grows_basic.pure _

theorem copyTo_makes {k : Kind} (hk : k ≠ .bad) (e : Expr) (c : Compiler) :
    Makes (copyTo k e) c fun v o c' => bound c' = bound c + 1 ∧
      ∃ id, v = .var k id ∧ id < bound c' ∧ (k = .void ∨ id = bound c) ∧
        o = [.assign .assign v e] := by
  refine (newVar_makes hk c).bind (grows_basic.newVar k)
    (fun _ => grows_basic.bind (grows_basic.add _) fun _ => grows_basic.pure _) ?_
  intro v o c' _ hv
  obtain ⟨rfl, hbound, id, rfl, hlt, hid⟩ := hv
  exact fun _ => ⟨hbound, id, rfl, hlt, hid, rfl⟩

/-- What has a scalar value is an expression. -/
theorem toExpr_eq {e : Expr} (hvalid : e.isValid) (hk : e.valueKind.isScalar) : e.toExpr = e := by
  cases e with
  | none => cases hvalid
  | ftype rs ps => cases hk
  | _ => rfl

theorem toExpr_isValid {e : Expr} (hvalid : e.isValid) (hk : e.valueKind.isScalar) :
    e.toExpr.isValid := by
  rw [toExpr_eq hvalid hk]
  exact hvalid

theorem toVar_compiled {e : Expr} (hvar : e.isVar = false) (hvalid : e.toExpr.isValid) :
    toVar e (compiled e) = copyTo e.kind e := by
  rw [toVar, if_neg (by simp [hvar]), if_pos hvalid, copyTo]
  congr 1
  funext v
  rw [compileAssign_compiled]

/-- A copy has the value of what is copied, in the form of the kind of the variable. -/
theorem copy_value {k : Kind} {id : Nat} {e : Expr} {s : State}
    (hnormal : ∀ {v h}, e.runAt w s = some (v, h) → k.wrap v = v) :
    (runPiece w [.assign .assign (.var k id) e] s).bind ((Expr.var k id).runAt w) =
      e.runAt w s := by
  rw [runPiece_assign]
  change ((e.runAt w s).map _).bind _ = _
  cases hrun : e.runAt w s with
  | none => rfl
  | some r =>
    obtain ⟨v, h⟩ := r
    rw [Option.map_some, Option.bind_some, runAt, run, State.setVar_vars, hnormal hrun]
    rfl

variable (w) in
/-- What `to_var_mem_const` makes of a lowered operand: the operand, or a variable that it is copied
to. -/
structure CopiedTo (n : Nat) (x : Expr) (r q : Compiled) (piece : List Stmt) (c' : Compiler) :
    Prop where
  describes : (outline x).operand.Describes (bound c') x q.1
  isOperand : q.1.type.isOperand
  isMem : q.1.type = .mem → (outline x).type = .mem
  kept : q.2 = false → q.1 = r.1
  emitted : Emitted w n false (outline x).operand.eager piece
  value : ∀ s : State, (runPiece w piece s).bind (q.1.runAt w) = r.1.runAt w s

theorem copied_self {n : Nat} {x : Expr} {r : Compiled} {c : Compiler}
    (hx : Operand (bound c) x r) (htype : r.1.type.isOperand) :
    CopiedTo w n x r (r.1, false) [] c := by
  have houtline : (outline x).operand = outline x := by
    rw [Outline.operand, if_pos (hx.describes.type ▸ htype)]
  refine ⟨?_, htype, fun h => hx.describes.type ▸ h, fun _ => rfl, .nil, fun _ => rfl⟩
  rw [houtline]
  exact hx.describes

theorem operand_makes {n : Nat} {x : Expr} {r : Compiled} {c : Compiler}
    (hx : Operand (bound c) x r) (hcopies : copies x) (hn : n ≤ bound c) :
    Makes (toVarMemConst r.1 (compiled r.1)) c (CopiedTo w n x r) := by
  by_cases htype : r.1.type.isOperand
  · have hself : CopiedTo w n x r (r.1, false) [] c := copied_self hx htype
    have hpure : toVarMemConst r.1 (compiled r.1) = pure (r.1, false) := by
      generalize r.1 = e at htype
      cases e <;> first | rfl | cases htype
    rw [hpure]
    exact .pure hself
  · have hnot : (outline x).type.isOperand = false := by
      rw [← hx.describes.type]
      exact Bool.eq_false_iff.mpr htype
    rw [copies, hnot, Bool.false_or, Bool.and_eq_true, beq_iff_eq] at hcopies
    obtain ⟨hkind, hscalar⟩ := hcopies
    have hkindr := hx.describes.kind.trans hkind
    have hcopy : toVarMemConst r.1 (compiled r.1) =
        (do return (← toVar r.1 (compiled r.1), true)) := by
      generalize r.1 = e at htype
      cases e <;> first | rfl | exact absurd rfl htype
    have hvar : r.1.isVar = false := by
      generalize r.1 = e at htype
      cases e <;> first | rfl | exact absurd rfl htype
    have hvalid := toExpr_isValid (hx.describes.valid hscalar) (hx.describes.valueKind ▸ hscalar)
    have hbad : x.valueKind ≠ .bad := Kind.ne_bad hscalar
    have houtline : (outline x).operand =
        .var x.valueKind ((outline x).eager || (outline x).mayTrap) := by
      rw [Outline.operand, hnot, hkind]
      rfl
    rw [hcopy, toVar_compiled hvar hvalid, hkindr]
    refine (copyTo_makes hbad r.1 c).bind (copyTo_grows _ _) (fun _ => grows_basic.pure _) ?_
    intro v o c' _ hv
    obtain ⟨-, id, rfl, hlt, hid, rfl⟩ := hv
    have hid : x.valueKind = .void ∨ n ≤ id := hid.imp_right fun h => hn.trans_eq h.symm
    apply Makes.pure
    rw [List.append_nil]
    refine ⟨?_, rfl, (fun h => by cases h), (fun h => by cases h), ?_, fun s => ?_⟩
    · rw [houtline]
      exact .var hbad rfl hlt _
    · refine (Emitted.assign hid r.1).weaken (fun _ => hx.describes.noCall) fun heager => ?_
      rw [houtline] at heager
      rw [hx.describes.noCall, hx.describes.mayTrap (Bool.or_eq_false_iff.mp heager).2]
      rfl
    · exact copy_value fun hrun => hx.describes.normal hscalar hrun

/-! ## Operands of n-ary operators -/

variable (w) in
/-- What is emitted for the operands of an n-ary operator, and what they are replaced with. -/
structure LoweredList (n : Nat) (args : List Expr) (r : List Expr × Bool) (piece : List Stmt)
    (c' : Compiler) : Prop where
  describes : List.Forall₂ (fun x x' => (outline x).operand.Describes (bound c') x x' ∧
    x'.type.isOperand) args r.1
  kept : r.2 = false → r.1 = args
  emitted : Emitted w n (hasCallList args) ((outlines args).any Outline.eager) piece
  value : ∀ s : State, (runPiece w piece s).bind (runListAt w r.1) = runListAt w args s

/-- An operand that is no memory operand has the same value with every heap. -/
theorem operand_readsMem {e : Expr} (htype : e.type.isOperand) (hmem : e.type ≠ .mem) :
    e.readsMem = false := by
  cases e <;> first | rfl | exact absurd rfl hmem | cases htype

/-- An operand that is evaluated where it stands has a value in every state. -/
theorem operand_mayTrap (e : Expr) (htype : e.type.isOperand) (hl : e.lowered) :
    e.mayTrap = false := by
  have hlist : ∀ xs : List Expr, loweredOperands xs →
      (∀ x ∈ xs, x.type.isOperand → x.lowered → x.mayTrap = false) → mayTrapAny xs = false := by
    intro xs
    induction xs with
    | nil => exact fun _ _ => rfl
    | cons x xs ih =>
      intro hxs hall
      rw [loweredOperands, Bool.and_eq_true, Bool.and_eq_true] at hxs
      rw [List.forall_mem_cons] at hall
      rw [mayTrapAny, hall.1 hxs.1.1 hxs.1.2, ih hxs.2 hall.2]
      rfl
  induction e using Expr.induct with
  | hmem k args p ih => exact hlist args hl ih
  | hconst | hvar | hlabel => rfl
  | _ => cases htype

theorem operand_eager {o : Outline} (h : o.operand.eager = false) : o.eager = false := by
  rw [Outline.operand] at h
  split at h
  · exact h
  · exact (Bool.or_eq_false_iff.mp h).1

theorem children_makes {args : List Expr} {c : Compiler}
    (hargs : computesOperands args) (htyped : typedList args) (hbelow : varsBelowList (bound c) args)
    (hall : ∀ x ∈ args, ∀ c, x.computes → x.typed → x.varsBelow (bound c) →
      Makes (compileExprWith compiled x) c (LoweredTo w (bound c) x)) :
    Makes (compileChildren compiled args) c (LoweredList w (bound c) args) := by
  induction args generalizing c with
  | nil =>
    rw [compileChildren]
    exact .pure ⟨.nil, fun _ => rfl, .nil, fun _ => rfl⟩
  | cons x xs ih =>
    rw [computesOperands, Bool.and_eq_true, Bool.and_eq_true, Bool.and_eq_true,
      Bool.not_eq_true'] at hargs
    obtain ⟨⟨⟨hcomputes, hcopies⟩, hmem⟩, hrest⟩ := hargs
    rw [typedList, Bool.and_eq_true] at htyped
    rw [varsBelowList, Bool.and_eq_true] at hbelow
    rw [List.forall_mem_cons] at hall
    have hgrow := fun args => (grows_basic.compileExprWith compiled_grows).2.2 args
    have hcopy := fun r : Compiled => grows_basic.toVarMemConst r.1 (compiled_grows r.1)
    have hne : x = .none → False := by
      intro hnone
      rw [hnone] at hcomputes
      cases hcomputes
    rw [compileChildren]
    rotate_left
    · exact hne
    refine ((hall.1 c hcomputes htyped.1 hbelow.1).and_returns (operand_returns x)).bind
      (compileExprWith_grows x) (fun r => grows_basic.bind (hcopy r) fun _ =>
        grows_basic.bind (hgrow xs) fun _ => grows_basic.pure _) ?_
    intro r o c₁ hle hr
    obtain ⟨hknown, hr⟩ := hr
    have hn : bound c ≤ bound c₁ := Nat.add_le_add_right hle _
    have hcopied : Makes (toVarMemConst r.1 (compiled r.1)) c₁ (CopiedTo w (bound c) x r) :=
      operand_makes (hr.operand (Nat.le_refl _) hknown) hcopies hn
    refine hcopied.bind (hcopy r)
      (fun _ => grows_basic.bind (hgrow xs) fun _ => grows_basic.pure _) ?_
    intro q o' c₂ hle' hq
    have hn' : bound c₁ ≤ bound c₂ := Nat.add_le_add_right hle' _
    have hbelow' := varsBelowList_mono (hn.trans hn') hbelow.2
    refine (ih hrest htyped.2 hbelow' hall.2).bind (hgrow xs) (fun _ => grows_basic.pure _) ?_
    intro rs o'' c₃ hle'' hrs
    have hn'' : bound c₂ ≤ bound c₃ := Nat.add_le_add_right hle'' _
    have hoperand := hr.emitted.append hq.emitted (Nat.le_refl _)
    apply Makes.pure
    rw [List.append_nil, ← List.append_assoc]
    refine ⟨?_, ?_, ?_, ?_⟩
    · exact .cons ⟨hq.describes.mono hn'', hq.isOperand⟩ hrs.describes
    · intro hchanged
      rw [Bool.or_eq_false_iff, Bool.or_eq_false_iff] at hchanged
      change q.1 :: rs.1 = x :: xs
      rw [hq.kept hchanged.1.2, hr.kept hchanged.1.1, hrs.kept hchanged.2]
    · refine (hoperand.append hrs.emitted (hn.trans hn')).weaken ?_ fun heager => ?_
      · intro hcall
        rw [hasCallList, Bool.or_eq_false_iff] at hcall
        rw [hcall.1, hcall.2]
        rfl
      · rw [outlines, List.any_cons, Bool.or_eq_false_iff] at heager
        rw [heager.1, heager.2, operand_eager heager.1]
        rfl
    · refine runListAt_append hoperand (fun s => ?_) hrs.value hbelow.2 (fun s => ?_)
        fun s s' hs' => ?_
      · rw [runPiece_append hr.emitted.closed, Option.bind_assoc, ← hr.value s]
        exact congrArg _ (funext hq.value)
      · exact run_of_not_mayTrap q.1 (operand_mayTrap q.1 hq.isOperand hq.describes.lowered)
          hq.describes.noCall s.heap
      · obtain ⟨hagree, hheap⟩ := hrs.emitted.keeps hs'
        refine run_kept hagree hq.describes.below hq.describes.noCall fun hreads => hheap ?_
        have htype : q.1.type = .mem := by
          by_contra hno
          rw [operand_readsMem hq.isOperand hno] at hreads
          cases hreads
        rw [hq.isMem htype] at hmem
        exact hmem

/-- The nodes that the operands of an n-ary operator are replaced with. -/
theorem nodes_described {n : Nat} {args nodes : List Expr}
    (h : List.Forall₂ (fun x x' => (outline x).operand.Describes n x x' ∧ x'.type.isOperand)
      args nodes) :
    loweredOperands nodes ∧ hasCallList nodes = false ∧ varsBelowList n nodes ∧
      mayTrapAny nodes = false ∧
      ((outlines args).any Outline.readsMem = false → readsMemAny nodes = false) := by
  induction h with
  | nil => exact ⟨rfl, rfl, rfl, rfl, fun _ => rfl⟩
  | cons hx _ ih =>
    obtain ⟨hdescribes, htype⟩ := hx
    obtain ⟨hlowered, hcall, hbelow, htrap, hmem⟩ := ih
    refine ⟨?_, ?_, ?_, ?_, ?_⟩
    · rw [loweredOperands, htype, hdescribes.lowered, hlowered]
      rfl
    · rw [hasCallList, hdescribes.noCall, hcall]
      rfl
    · rw [varsBelowList, hdescribes.below, hbelow]
      rfl
    · rw [mayTrapAny, operand_mayTrap _ htype hdescribes.lowered, htrap]
      rfl
    · intro hany
      rw [outlines, List.any_cons, Bool.or_eq_false_iff] at hany
      rw [readsMemAny, hdescribes.readsMem hany.1, hmem hany.2]
      rfl

theorem nodes_valueKind {n : Nat} {args nodes : List Expr}
    (h : List.Forall₂ (fun x x' => (outline x).operand.Describes n x x' ∧ x'.type.isOperand)
      args nodes) : nodes.map valueKind = args.map valueKind := by
  induction h with
  | nil => rfl
  | cons hx _ ih => rw [List.map_cons, List.map_cons, hx.1.valueKind, ih]

theorem nodes_normal {n : Nat} {args nodes : List Expr}
    (h : List.Forall₂ (fun x x' => (outline x).operand.Describes n x x' ∧ x'.type.isOperand)
      args nodes) {ρ : Vars} : ∀ x' ∈ nodes, x'.valueKind.isScalar → ∀ h h' v,
        run w ρ x' h = some (v, h') → x'.valueKind.wrap v = v := by
  induction h with
  | nil => exact fun x' hx' => absurd hx' List.not_mem_nil
  | cons hx _ ih =>
    refine List.forall_mem_cons.mpr ⟨fun hscalar h h' v hrun => ?_, ih⟩
    rw [hx.1.valueKind] at hscalar ⊢
    exact hx.1.normal hscalar hrun

/-- An n-ary operator other than a call that is computed with. -/
theorem tuple_typed {k : Kind} {op : OpN} {args : List Expr} {p : Place} (hop : op ≠ .call)
    (ht : (Expr.tuple k op args p).typed) : op.isArithmetic ∧
      ((op = .comma ∧ k = .void ∧ args ≠ []) ∨
        (op.isCommutative ∧ k.isScalar ∧ ∀ x ∈ args, x.valueKind = k)) := by
  rw [Expr.typed, Bool.and_eq_true] at ht
  have hcommutative : op.isCommutative → op.isCommutative ∧ k.isScalar ∧
      ∀ x ∈ args, x.valueKind = k := by
    intro hcomm
    obtain ⟨hk, hkinds⟩ := typedN_commutative hcomm ht.2
    exact ⟨hcomm, hk, fun x hx => hkinds _ (List.mem_map_of_mem hx)⟩
  cases op with
  | call => exact absurd rfl hop
  | comma =>
    rw [Kind.typedN, Bool.and_eq_true, beq_iff_eq] at ht
    refine ⟨rfl, .inl ⟨rfl, ht.2.1, ?_⟩⟩
    rintro rfl
    cases ht.2.2
  | badN | memOp | mirMem | x86Mem | arm64Mem | mirRets => cases ht.2
  | _ => exact ⟨rfl, .inr (hcommutative rfl)⟩

theorem outline_empty {op : OpN} (hop : op ≠ .call) (k : Kind) (p : Place) :
    outline (.tuple k op [] p) = .ofLowered (ofValue (Value.identityN k op)) := by
  rw [outline, if_neg (by simpa using hop), outlines]

theorem outline_single {op : OpN} (hop : op ≠ .call) (k : Kind) (x : Expr) (p : Place) :
    outline (.tuple k op [x] p) = (outline x).operand := by
  rw [outline, if_neg (by simpa using hop), outlines, outlines]

theorem outline_many {op : OpN} (hop : op ≠ .call) (k : Kind) (x y : Expr) (zs : List Expr)
    (p : Place) : outline (.tuple k op (x :: y :: zs) p) =
      { type := .tuple
        kind := k
        readsMem := (outlines (x :: y :: zs)).any Outline.readsMem
        mayTrap := false
        isCompare := false
        jumpsRight := fun _ => true
        eager := (outlines (x :: y :: zs)).any Outline.eager } := by
  rw [outline, if_neg (by simpa using hop), outlines, outlines]

section Tuple

variable {k : Kind} {op : OpN} {n : Nat} {p : Place} {rs : List Expr × Bool} {o : List Stmt}
  {c' : Compiler}

/-- No operands: the identity of the operator. -/
theorem empty_lowered (hop : op ≠ .call) (ht : (Expr.tuple k op [] p).typed)
    (hrs : LoweredList w n [] rs o c') :
    LoweredTo w n (.tuple k op [] p) (rebuildChildren (.tuple k op [] p) k op rs.1 rs.2) o c' := by
  obtain ⟨harith, hcases⟩ := tuple_typed hop ht
  obtain ⟨-, -, hne⟩ | ⟨hcomm, hk, -⟩ := hcases
  · exact absurd rfl hne
  have hnil : rs.1 = [] := List.forall₂_nil_left_iff.mp hrs.describes
  have hkind : (Value.identityN k op).kind = k := by
    apply identityN_kind hk
    cases op <;> first | rfl | cases hcomm
  have hidentity : (Value.identityN k op).kind.isScalar := by
    rw [hkind]
    exact hk
  obtain ⟨q, hq⟩ := ofValue_eq hidentity
  obtain ⟨hbackKind, hback⟩ := readBack_meaning hidentity
  have hresult : rebuildChildren (.tuple k op [] p) k op rs.1 rs.2 =
      (.const (Imm.readBack (Value.identityN k op)) q, true) := by
    unfold rebuildChildren
    rw [if_pos harith, hnil]
    exact congrArg (·, true) hq
  have hvalueKind : (Expr.tuple k op [] p).valueKind = k := by
    apply valueKind_tuple
    rintro rfl
    cases hcomm
  have houtline := outline_empty hop k p
  rw [hq] at houtline
  rw [hresult]
  refine ⟨?_, (fun h => by cases h), ?_, fun s => ?_⟩
  · rw [houtline]
    refine (Outline.Describes.self rfl rfl ?_ rfl).congr ?_
    · rw [Expr.typed, hbackKind, hkind]
      exact hk
    · exact hvalueKind.trans (hbackKind.trans hkind).symm
  · exact hrs.emitted.weaken (fun _ => rfl) fun _ => rfl
  · have hvalue := hrs.value s
    rw [hnil] at hvalue
    obtain ⟨s', hs', hheap⟩ := Option.bind_eq_some_iff.mp hvalue
    have hheap : s'.heap = s.heap := congrArg Prod.snd (Option.some.inj hheap)
    rw [hs', runAt_tuple]
    change some ((Imm.readBack (Value.identityN k op)).meaning, s'.heap) =
      op.runApply w k [] s.heap
    rw [runApply_eq hop k [] _ s.vars, apply_commutative hcomm, hback, identityN_meaning hk, hheap]
    rfl

/-- An n-ary operator has the value of its only operand. -/
theorem runAt_single {x : Expr} (hop : op ≠ .call) (ht : (Expr.tuple k op [x] p).typed)
    (s : State) : (Expr.tuple k op [x] p).runAt w s = x.runAt w s := by
  obtain ⟨-, hcases⟩ := tuple_typed hop ht
  rw [runAt_tuple, runListAt_cons, Option.bind_assoc]
  cases ha : x.runAt w s with
  | none => rfl
  | some r =>
    obtain ⟨a, h⟩ := r
    change op.runApply w k [a] h = some (a, h)
    rw [runApply_eq hop k [a] h s.vars]
    obtain ⟨rfl, -⟩ | ⟨hcomm, hk, hkinds⟩ := hcases
    · rfl
    · have hxk := hkinds x (List.mem_singleton_self x)
      rw [Expr.typed, typedList, Bool.and_eq_true, Bool.and_eq_true] at ht
      have hnormal := run_normal x ht.1.1 (hxk ▸ hk) ha
      rw [hxk] at hnormal
      let m := Kind.tupleMonoid k hk op hcomm
      have hvalue : m.op a m.unit = a :=
        (m.comm a m.unit hnormal m.valid_unit).trans (m.unit_op a hnormal)
      rw [apply_commutative hcomm]
      exact congrArg (fun v => some (v, h)) hvalue

/-- One operand, which has the value of the operator. -/
theorem single_lowered {x : Expr} (hop : op ≠ .call) (ht : (Expr.tuple k op [x] p).typed)
    (hrs : LoweredList w n [x] rs o c') :
    LoweredTo w n (.tuple k op [x] p) (rebuildChildren (.tuple k op [x] p) k op rs.1 rs.2) o
      c' := by
  obtain ⟨harith, hcases⟩ := tuple_typed hop ht
  obtain ⟨x', xs', ⟨hdescribes, htype⟩, hnil, hlist⟩ := List.forall₂_cons_left_iff.mp hrs.describes
  rw [List.forall₂_nil_left_iff] at hnil
  subst hnil
  have hexpr : x'.toExpr = x' := by
    cases x' <;> first | rfl | cases htype
  have hresult : rebuildChildren (.tuple k op [x] p) k op rs.1 rs.2 = (x', true) := by
    unfold rebuildChildren
    rw [if_pos harith, hlist]
    exact congrArg (·, true) hexpr
  have hvalueKind : (Expr.tuple k op [x] p).valueKind = x.valueKind := by
    obtain ⟨rfl, -⟩ | ⟨hcomm, -, hkinds⟩ := hcases
    · rfl
    · rw [hkinds x (List.mem_singleton_self x)]
      apply valueKind_tuple
      rintro rfl
      cases hcomm
  have houtline := outline_single hop k x p
  rw [hresult]
  refine ⟨?_, (fun h => by cases h), ?_, fun s => ?_⟩
  · rw [houtline]
    exact hdescribes.congr hvalueKind
  · refine hrs.emitted.weaken ?_ fun heager => ?_
    · intro hcall
      rw [hasCall, Bool.or_eq_false_iff] at hcall
      exact hcall.2
    · rw [houtline] at heager
      rw [outlines, outlines, List.any_cons, heager]
      rfl
  · have hvalue := hrs.value s
    have hsingle : ∀ y : Expr,
        runListAt w [y] = Option.map (fun r => ([r.1], r.2)) ∘ y.runAt w := by
      intro y
      funext s
      rw [runListAt_cons]
      change _ = (y.runAt w s).map _
      cases y.runAt w s <;> rfl
    rw [hlist, hsingle, hsingle, ← Option.map_bind] at hvalue
    rw [runAt_single hop ht]
    refine Option.map_injective (fun r r' heq => ?_) hvalue
    obtain ⟨hfst, hsnd⟩ := Prod.mk.inj heq
    exact Prod.ext (List.cons.inj hfst).1 hsnd

/-- Two operands or more: the node is kept, or built anew. -/
theorem many_lowered {x y : Expr} {zs : List Expr} (hop : op ≠ .call)
    (ht : (Expr.tuple k op (x :: y :: zs) p).typed)
    (hrs : LoweredList w n (x :: y :: zs) rs o c') :
    LoweredTo w n (.tuple k op (x :: y :: zs) p)
      (rebuildChildren (.tuple k op (x :: y :: zs) p) k op rs.1 rs.2) o c' := by
  obtain ⟨harith, hcases⟩ := tuple_typed hop ht
  obtain ⟨x', xs', -, hrest, hlist⟩ := List.forall₂_cons_left_iff.mp hrs.describes
  obtain ⟨y', zs', -, -, rfl⟩ := List.forall₂_cons_left_iff.mp hrest
  have hbuilt : rebuildChildren (.tuple k op (x :: y :: zs) p) k op rs.1 rs.2 =
      if rs.2 then (.tuple k op rs.1 .fresh, true) else (.tuple k op (x :: y :: zs) p, false) := by
    unfold rebuildChildren
    rw [if_pos harith, hlist]
  have hform : ∃ q, (rebuildChildren (.tuple k op (x :: y :: zs) p) k op rs.1 rs.2).1 =
      .tuple k op rs.1 q := by
    rw [hbuilt]
    cases hchanged : rs.2 with
    | false => exact ⟨p, by rw [hrs.kept hchanged]; rfl⟩
    | true => exact ⟨.fresh, rfl⟩
  obtain ⟨q, hq⟩ := hform
  obtain ⟨hlowered, hcall, hbelow, htrap, hmem⟩ := nodes_described hrs.describes
  have hkinds := nodes_valueKind hrs.describes
  have houtline := outline_many hop k x y zs p
  have hvalueKind : (Expr.tuple k op rs.1 q).valueKind =
      (Expr.tuple k op (x :: y :: zs) p).valueKind := by
    by_cases hcomma : op = .comma
    · subst hcomma
      exact lastKind_congr hkinds
    · rw [valueKind_tuple hcomma, valueKind_tuple hcomma]
  refine ⟨?_, kept_of_changed hbuilt, ?_, fun s => ?_⟩
  · rw [hq, houtline]
    refine ⟨?_, ?_, hbelow, ?_, hvalueKind, ?_, rfl, rfl, ?_, ?_, rfl, fun _ _ => rfl⟩
    · have hkept : op.isKept rs.1.length := by
        rw [hlist, OpN.isKept, if_neg (by simpa using hop)]
        simp
      rw [lowered, hkept, hlowered]
      rfl
    · rw [hasCall, hcall, beq_eq_false_iff_ne.mpr hop]
      rfl
    · intro _
      obtain ⟨-, rfl, -⟩ | ⟨-, hk, -⟩ := hcases
      · rfl
      · exact bne_iff_ne.mpr (Kind.ne_bad hk)
    · intro hscalar w ρ h h' v hrun
      rw [← hvalueKind] at hscalar ⊢
      rw [Expr.typed, Bool.and_eq_true, ← hkinds] at ht
      exact run_tuple_normal ht.2 hscalar (nodes_normal hrs.describes) hrun
    · exact hmem
    · intro _
      have htrapOp : op.mayTrap rs.1.length = false := by
        rw [hlist, OpN.mayTrap]
        obtain ⟨rfl, -⟩ | ⟨hcomm, -⟩ := hcases
        · rfl
        · cases op <;> first | rfl | cases hcomm
      rw [mayTrap, htrapOp, htrap]
      rfl
  · refine hrs.emitted.weaken ?_ fun heager => ?_
    · intro hno
      rw [hasCall, Bool.or_eq_false_iff] at hno
      exact hno.2
    · rw [houtline] at heager
      exact heager
  · rw [hq, runAt_tuple, ← hrs.value s, Option.bind_assoc]
    exact congrArg _ (funext fun s' => runAt_tuple k op rs.1 q s')

end Tuple

end Compiler

end OneJit
