import OneJit.Branch

/-!
# Lowering operators with two operands

Both operands are lowered before `compile(Binary)` looks at the operator. `simplify_land` and
`simplify_lor` replace a short circuit with an operand where one of them is a constant, keep it where
the right one is a variable, and branch on the left one otherwise.
-/

namespace OneJit

open FlatCode Stmt

namespace Compiler

open Expr CompileM

variable {w : Host}

/-- What is emitted after the operands of an operator, and what it is replaced with. -/
structure Finishes (w : Host) (n : Nat) (k : Kind) (op : Op2) (x y : Expr) (p : Place)
    (x' y' : Expr) (r : Compiled) (piece : List Stmt) (c' : Compiler) : Prop where
  describes : (outline (.binary k op x y p)).Describes (bound c') (.binary k op x y p) r.1
  kept : r.2 = false → r.1 = .binary k op x y p
  emitted : Emitted w n false (outline (.binary k op x y p)).eager piece
  quiet : (outline (.binary k op x y p)).eager = false →
    (outline x).eager = false ∧ (outline y).eager = false
  value : ∀ s : State,
    (runPiece w piece s).bind (r.1.runAt w) = (Expr.binary k op x' y' p).runAt w s

/-- The end of `compile(Binary)`. -/
def finishBinary (k : Kind) (op : Op2) (x y : Expr) (p : Place) (r r' : Compiled) :
    CompileM Compiled := do
  let e ← simplifyBoolean compiled op r.1 r'.1
  return if e.isValid then (e, true)
    else if r.2 || r'.2 then (newBinary op r.1 r'.1, true)
    else (.binary k op x y p, false)

theorem finishBinary_grows (k : Kind) (op : Op2) (x y : Expr) (p : Place) (r r' : Compiled) :
    Respects Grows (finishBinary k op x y p r r') :=
  grows_basic.bind (grows_basic.simplifyBoolean compiled_grows op r.1 r'.1)
    fun _ => grows_basic.pure _

/-- The operands are lowered one after another, and then the operator. -/
theorem binary_makes {k : Kind} {op : Op2} {x y : Expr} {p : Place} {c : Compiler}
    (hbelow : (Expr.binary k op x y p).varsBelow (bound c))
    (hmem : ((outline x).readsMem && hasCall y) = false)
    (hquiet : ∀ {n : Nat} {r : Compiled}, Operand n x r → ∀ {s : State} {a : BitVec 64},
      r.1.runAt w s = some (a, s.heap) → op.decidedBy a → (outline y).eager = false)
    (hx : Makes (compileExprWith compiled x) c (LoweredTo w (bound c) x))
    (hy : ∀ c₁, bound c ≤ bound c₁ →
      Makes (compileExprWith compiled y) c₁ (LoweredTo w (bound c₁) y))
    (hrest : ∀ r r' c₂, bound c ≤ bound c₂ → Operand (bound c₂) x r → Operand (bound c₂) y r' →
      Makes (finishBinary k op x y p r r') c₂ (Finishes w (bound c) k op x y p r.1 r'.1)) :
    Makes (compileExprWith compiled (.binary k op x y p)) c
      (LoweredTo w (bound c) (.binary k op x y p)) := by
  rw [compileExprWith]
  rw [varsBelow, Bool.and_eq_true] at hbelow
  have hgrow := finishBinary_grows k op x y p
  refine (hx.and_returns (operand_returns x)).bind (compileExprWith_grows x)
    (fun r => grows_basic.bind (compileExprWith_grows y) (hgrow r)) ?_
  intro r o c₁ hle hr
  obtain ⟨hknown, hr⟩ := hr
  have hn : bound c ≤ bound c₁ := Nat.add_le_add_right hle _
  refine ((hy c₁ hn).and_returns (operand_returns y)).bind (compileExprWith_grows y) (hgrow r) ?_
  intro r' o' c₂ hle' hr'
  obtain ⟨hknown', hr'⟩ := hr'
  have hn' : bound c₁ ≤ bound c₂ := Nat.add_le_add_right hle' _
  refine (hrest r r' c₂ (hn.trans hn') (hr.operand hn' hknown)
    (hr'.operand (Nat.le_refl _) hknown')).mono ?_
  intro q o'' c₃ hq
  rw [← List.append_assoc]
  have hoperands := hr.emitted.append hr'.emitted hn
  refine ⟨hq.describes, hq.kept, ?_, fun s => ?_⟩
  · refine (hoperands.append hq.emitted (Nat.le_refl _)).weaken ?_ fun heager => ?_
    · intro hcall
      rw [hasCall] at hcall
      rw [hcall]
      rfl
    · obtain ⟨hxe, hye⟩ := hq.quiet heager
      rw [hxe, hye, heager]
      rfl
  · rw [runPiece_append hoperands.closed, Option.bind_assoc,
      ← operands_value hr hr' hbelow.2 hmem (hquiet (hr.operand hn' hknown)) s]
    exact congrArg _ (funext hq.value)

/-- The node that is kept, or built anew of the kind of its left operand. -/
theorem rebuilt_binary {k : Kind} {op : Op2} {x y : Expr} {p : Place} {n : Nat} {r r' : Compiled}
    (ht : (Expr.binary k op x y p).typed)
    (hkind : (Expr.binary k op x y p).lowered ∨ k = op.resultKind (outline x).kind)
    (hx : Operand n x r) (hy : Operand n y r') :
    ∃ q, (if (r.2 || r'.2) = true then (newBinary op r.1 r'.1, true)
      else (Expr.binary k op x y p, false)).1 = .binary k op r.1 r'.1 q := by
  cases hchanged : r.2 || r'.2 with
  | false =>
    rw [Bool.or_eq_false_iff] at hchanged
    rw [hx.kept hchanged.1, hy.kept hchanged.2]
    exact ⟨p, rfl⟩
  | true =>
    have hk : k = op.resultKind (outline x).kind := by
      refine hkind.resolve_left fun hlowered => ?_
      rw [lowered, Bool.and_eq_true, Bool.and_eq_true] at hlowered
      rw [hx.same hlowered.1.1, hy.same hlowered.1.2] at hchanged
      cases hchanged
    have hbad : op ≠ .bad2 := by
      intro hbad
      rw [hbad, Expr.typed, Bool.and_eq_true] at ht
      cases ht.2
    rw [← hx.describes.kind] at hk
    rw [hk]
    exact ⟨.fresh, congrArg (Expr.binary · op r.1 r'.1 .fresh) (if_neg hbad)⟩

theorem decidedBy_of_not_logical {op : Op2} (hop : op.isLogical = false) (a : BitVec 64) :
    op.decidedBy a = false := by
  cases op <;> first | rfl | cases hop

/-- An operator that evaluates both operands. -/
theorem plain_makes {k : Kind} {op : Op2} {x y : Expr} {p : Place} {n : Nat} {c₂ : Compiler}
    {r r' : Compiled} (hop : op.isLogical = false) (ht : (Expr.binary k op x y p).typed)
    (hkind : (Expr.binary k op x y p).lowered ∨ k = op.resultKind (outline x).kind)
    (hx : Operand (bound c₂) x r) (hy : Operand (bound c₂) y r') :
    Makes (finishBinary k op x y p r r') c₂ (Finishes w n k op x y p r.1 r'.1) := by
  have hnone : simplifyBoolean compiled op r.1 r'.1 = pure .none := by
    cases op <;> first | rfl | cases hop
  have hinvalid : ¬Expr.none.isValid := by decide
  obtain ⟨q, hq⟩ := rebuilt_binary ht hkind hx hy
  rw [finishBinary, hnone]
  apply Makes.pure
  rw [if_neg hinvalid]
  refine ⟨?_, kept_of_changed rfl, .nil, ?_, fun s => ?_⟩
  · rw [hq]
    exact hx.describes.binary hy.describes hop ht hx.shape.value hy.shape.value q
  · intro heager
    have houtline : (outline (.binary k op x y p)).eager =
        ((outline x).eager || (outline y).eager) := by
      rw [outline, hop]
      rfl
    rwa [houtline, Bool.or_eq_false_iff] at heager
  · rw [hq]
    exact (runAt_binary k op r.1 r'.1 q s).trans (runAt_binary k op r.1 r'.1 p s).symm

/-! ## Logical operators -/

theorem decidedByConst_eq {op : Op2} (hop : op.isLogical) {v : Value} (hk : v.kind.isScalar)
    (hv : v.Normal) : op.decidedByConst v = op.decidedBy v.meaning := by
  rw [Op2.decidedByConst, Value.toBool_eq hk, hv.meaning]
  cases op with
  | land =>
    have hne : (Op2.land == Op2.lor) = false := by decide
    rw [hne, Op2.decidedBy, bne]
    cases v.bits == 0 <;> rfl
  | lor => simp [Op2.decidedBy]
  | _ => cases hop

/-! The four ways in which a logical operator is simplified -/

theorem simplifyBoolean_left {op : Op2} (hop : op.isLogical) {x : Expr} {v : Value}
    (hx : value? x = some v) (y : Expr) :
    simplifyBoolean compiled op x y = pure (if op.decidedByConst v then x else y) := by
  cases x with
  | const u q =>
    cases hx
    cases op with
    | land =>
      change pure (if v.toBool then y else .const v q) = _
      rw [Op2.decidedByConst]
      cases v.toBool <;> rfl
    | lor =>
      change pure (if v.toBool then .const v q else y) = _
      rw [Op2.decidedByConst]
      cases v.toBool <;> rfl
    | _ => cases hop
  | _ => cases hx

theorem simplifyBoolean_right {op : Op2} (hop : op.isLogical) {x y : Expr} {v : Value}
    (hx : value? x = .none) (hy : value? y = some v) :
    simplifyBoolean compiled op x y = if op.decidedByConst v then (do
      add (.expr x)
      return y) else pure x := by
  cases y with
  | const u q =>
    cases hy
    cases op with
    | land =>
      have hland : simplifyBoolean compiled .land x (.const v q) = if v.toBool then pure x else (do
          add (.expr x)
          return .const v q) := by
        cases x <;> first | rfl | cases hx
      rw [hland, Op2.decidedByConst]
      cases v.toBool <;> rfl
    | lor =>
      have hlor : simplifyBoolean compiled .lor x (.const v q) = if v.toBool then (do
          add (.expr x)
          return .const v q) else pure x := by
        cases x <;> first | rfl | cases hx
      rw [hlor, Op2.decidedByConst]
      cases v.toBool <;> rfl
    | _ => cases hop
  | _ => cases hy

theorem simplifyBoolean_var {op : Op2} (hop : op.isLogical) {x y : Expr} (hx : value? x = .none)
    (hy : y.isVar) : simplifyBoolean compiled op x y = pure .none := by
  cases y with
  | var k id =>
    cases op with
    | land | lor => cases x <;> first | rfl | cases hx
    | _ => cases hop
  | _ => cases hy

theorem simplifyBoolean_branch {op : Op2} (hop : op.isLogical) {x y : Expr}
    (hx : value? x = .none) (hy : value? y = .none) (hvar : y.isVar = false) :
    simplifyBoolean compiled op x y = simplifyBranch compiled (decidedExpr op) (branchTest op) x y := by
  cases op with
  | land | lor =>
    cases x with
    | const u q => cases hx
    | _ =>
      cases y with
      | const u q => cases hy
      | var k id => cases hvar
      | _ => rfl
  | _ => cases hop

theorem logical_kinds {k : Kind} {op : Op2} (hop : op.isLogical) {x y : Expr} {p : Place}
    (ht : (Expr.binary k op x y p).typed) :
    k = .bool ∧ x.valueKind = .bool ∧ y.valueKind = .bool := by
  rw [Expr.typed, Bool.and_eq_true] at ht
  cases op with
  | land | lor =>
    simp only [Kind.typed2, Bool.and_eq_true, beq_iff_eq] at ht
    exact ⟨ht.2.1.1, ht.2.1.2, ht.2.2⟩
  | _ => cases hop

theorem outline_logical {k : Kind} {op : Op2} (hop : op.isLogical) (x y : Expr) (p : Place) :
    outline (.binary k op x y p) =
      .logical op (constantOf x) (constantOf y) (outline x) (outline y) := by
  rw [outline, hop]
  rfl

/-- The constant that an operand is lowered to. -/
theorem Operand.constant {n : Nat} {e : Expr} {r : Compiled} (h : Operand n e r)
    (hk : e.valueKind = .bool) {v : Value} (hv : constantOf e = some v) :
    v.kind = .bool ∧ ∀ s, r.1.runAt w s = some (v.meaning, s.heap) := by
  have hvalue := h.shape.value
  rw [hv] at hvalue
  have hkind := h.describes.valueKind
  generalize r.1 = e' at hvalue hkind
  cases e' with
  | const u q =>
    cases hvalue
    exact ⟨hkind.trans hk, fun _ => rfl⟩
  | _ => cases hvalue

/-- An operand of kind Bool is zero or one. -/
theorem Operand.bit {n : Nat} {e : Expr} {r : Compiled} (h : Operand n e r)
    (hk : e.valueKind = .bool) {ρ : Vars} {a : BitVec 64} {h₁ h' : Heap}
    (ha : r.1.run w ρ h₁ = some (a, h')) : a = 0 ∨ a = 1 := by
  have hnormal := h.describes.normal (hk ▸ rfl) ha
  rw [hk] at hnormal
  exact bool_cases hnormal

section Logical

variable {k : Kind} {op : Op2} {x y : Expr} {p : Place} {n : Nat} {c₂ : Compiler} {r r' : Compiled}

/-- The value of a logical operator is that of the operand that is evaluated last. -/
theorem runAt_logical_of_bits (hop : op.isLogical) (hk : x.valueKind = .bool) {s : State}
    (hx : ∀ {a h}, x.runAt w s = some (a, h) → a = 0 ∨ a = 1)
    (hy : ∀ {h a h'}, y.run w s.vars h = some (a, h') → a = 0 ∨ a = 1) :
    (Expr.binary k op x y p).runAt w s = (x.runAt w s).bind fun v =>
      if op.decidedBy v.1 then some v else y.run w s.vars v.2 := by
  rw [runAt_binary]
  refine Option.bind_congr fun v ha => ?_
  obtain ⟨a, h⟩ := v
  have hbit := hx ha
  rw [hk]
  cases hdec : op.decidedBy a with
  | true =>
    have hvalue : Kind.bool.evalBinary op a 0 = some a := by
      cases op with
      | land =>
        obtain rfl : a = 0 := eq_of_beq hdec
        rfl
      | lor =>
        obtain rfl : a = 1 := hbit.resolve_left (bne_iff_ne.mp hdec)
        rfl
      | _ => cases hop
    rw [hvalue]
    rfl
  | false =>
    change (y.run w s.vars h).bind _ = y.run w s.vars h
    cases hb : y.run w s.vars h with
    | none => rfl
    | some u =>
      obtain ⟨b, h'⟩ := u
      have hvalue : Kind.bool.evalBinary op a b = some b := by
        cases op with
        | land =>
          have hne : a ≠ 0 := beq_eq_false_iff_ne.mp hdec
          obtain rfl : a = 1 := hbit.resolve_left hne
          obtain rfl | rfl := hy hb <;> rfl
        | lor =>
          obtain rfl : a = 0 := of_not_not fun hne => by
            rw [Op2.decidedBy, bne_iff_ne.mpr hne] at hdec
            cases hdec
          obtain rfl | rfl := hy hb <;> rfl
        | _ => cases hop
      rw [Option.bind_some, hvalue]
      rfl

theorem runAt_logical (hop : op.isLogical) (hkx : x.valueKind = .bool) (hky : y.valueKind = .bool)
    (hx : Operand n x r) (hy : Operand n y r') (q : Place) (s : State) :
    (Expr.binary k op r.1 r'.1 q).runAt w s = (r.1.runAt w s).bind fun v =>
      if op.decidedBy v.1 then some v else r'.1.runAt w s := by
  rw [runAt_logical_of_bits hop (hx.describes.valueKind.trans hkx) (hx.bit hkx) (hy.bit hky)]
  refine Option.bind_congr fun v ha => ?_
  rw [runAt_heap hx.describes.noCall ha]
  rfl

/-- The left operand is a constant. -/
theorem left_makes (hop : op.isLogical) (ht : (Expr.binary k op x y p).typed)
    (hx : Operand (bound c₂) x r) (hy : Operand (bound c₂) y r') {v : Value}
    (hv : constantOf x = some v) (hnormal : v.Normal) :
    Makes (finishBinary k op x y p r r') c₂ (Finishes w n k op x y p r.1 r'.1) := by
  obtain ⟨hk, hkx, hky⟩ := logical_kinds hop ht
  obtain ⟨hbool, hrun⟩ := hx.constant (w := w) hkx hv
  have hdecide := decidedByConst_eq hop (hbool ▸ rfl) hnormal
  have hvalid : (if op.decidedByConst v then r.1 else r'.1).isValid := by
    split
    · exact hx.describes.valid (hkx ▸ rfl)
    · exact hy.describes.valid (hky ▸ rfl)
  have houtline := outline_logical (k := k) hop x y p
  rw [hv] at houtline
  rw [finishBinary, simplifyBoolean_left hop (hx.shape.value.trans hv), CompileM.pure_bind,
    if_pos hvalid]
  refine .pure ⟨?_, (fun h => by cases h), .nil, ?_, fun s => ?_⟩
  · rw [houtline, Outline.logical]
    split
    · exact (hx.describes.after _).congr (hk.trans hkx.symm)
    · exact (hy.describes.after _).congr (hk.trans hky.symm)
  · intro heager
    rw [houtline, Outline.logical] at heager
    split at heager
    · exact (Bool.or_eq_false_iff.mp heager).symm
    · exact Bool.or_eq_false_iff.mp heager
  · rw [runAt_logical hop hkx hky hx hy, hrun, Option.bind_some, ← hdecide]
    change (if op.decidedByConst v then r.1 else r'.1).runAt w s = _
    split
    · exact hrun s
    · rfl

/-- The right operand is a constant, and the left one is none. -/
theorem right_makes (hop : op.isLogical) (ht : (Expr.binary k op x y p).typed)
    (hx : Operand (bound c₂) x r) (hy : Operand (bound c₂) y r') {v : Value}
    (hvx : constantOf x = .none) (hv : constantOf y = some v) (hnormal : v.Normal) :
    Makes (finishBinary k op x y p r r') c₂ (Finishes w n k op x y p r.1 r'.1) := by
  obtain ⟨hk, hkx, hky⟩ := logical_kinds hop ht
  obtain ⟨hbool, hrun⟩ := hy.constant (w := w) hky hv
  have hdecide := decidedByConst_eq hop (hbool ▸ rfl) hnormal
  have hbit : v.meaning = 0 ∨ v.meaning = 1 := by
    apply bool_cases
    rw [← hbool]
    exact meaning_normal (hbool ▸ rfl)
  have hnone := hx.shape.value.trans hvx
  have houtline := outline_logical (k := k) hop x y p
  rw [hvx, hv] at houtline
  rw [finishBinary, simplifyBoolean_right hop hnone (hy.shape.value.trans hv)]
  cases hdec : op.decidedByConst v with
  | true =>
    have hlabel : r.1.labelIndex = .none := by
      have hkind := hx.describes.valueKind.trans hkx
      generalize r.1 = e at hkind
      cases e <;> first | rfl | cases hkind
    have hadd : (add (.expr r.1) : CompileM Unit) = fun c => ((), ⟨[.expr r.1], []⟩, c) := by
      have hconst : isVoidConst (.expr r.1) = false := by
        generalize r.1 = e at hnone
        cases e <;> first | rfl | cases hnone
      funext c
      rw [add, hconst]
      rfl
    rw [if_pos rfl, hadd]
    intro _
    change Finishes w n k op x y p r.1 r'.1
      (if r'.1.isValid then (r'.1, true) else _) [.expr r.1] c₂
    rw [if_pos (hy.describes.valid (hky ▸ rfl))]
    rw [hdec] at hdecide
    rw [Outline.logical, hdec, if_pos rfl] at houtline
    refine ⟨?_, (fun h => by cases h), ?_, fun heager => ?_, fun s => ?_⟩
    · rw [houtline]
      exact (hy.describes.after _).congr (hk.trans hky.symm)
    · refine (Emitted.expr hlabel).weaken (fun _ => hx.describes.noCall) fun heager => ?_
      rw [houtline] at heager
      have hxe := (Bool.or_eq_false_iff.mp heager).1
      rw [hx.describes.noCall, hx.describes.mayTrap (Bool.or_eq_false_iff.mp hxe).2]
      rfl
    · rw [houtline] at heager
      obtain ⟨hxe, hye⟩ := Bool.or_eq_false_iff.mp heager
      exact ⟨(Bool.or_eq_false_iff.mp hxe).1, hye⟩
    · rw [runAt_logical hop hkx hky hx hy, runPiece_expr hlabel]
      change ((r.1.runAt w s).map _).bind _ = _
      cases ha : r.1.runAt w s with
      | none => rfl
      | some u =>
        obtain ⟨a, h⟩ := u
        obtain rfl := runAt_heap hx.describes.noCall ha
        have hright : r'.1.runAt w s = some (v.meaning, s.heap) := hrun s
        change r'.1.runAt w s = if op.decidedBy a then some (a, s.heap) else r'.1.runAt w s
        split
        · next hdeca =>
          rw [hright, decidedBy_inj hop (hx.bit hkx ha) hbit (hdeca.trans hdecide)]
        · rfl
  | false =>
    rw [if_neg Bool.false_ne_true, CompileM.pure_bind, if_pos (hx.describes.valid (hkx ▸ rfl))]
    rw [hdec] at hdecide
    rw [Outline.logical, hdec, if_neg Bool.false_ne_true] at houtline
    refine .pure ⟨?_, (fun h => by cases h), .nil, fun heager => ?_, fun s => ?_⟩
    · rw [houtline]
      exact (hx.describes.after _).congr (hk.trans hkx.symm)
    · rw [houtline] at heager
      exact (Bool.or_eq_false_iff.mp heager).symm
    · rw [runAt_logical hop hkx hky hx hy]
      change r.1.runAt w s = _
      cases ha : r.1.runAt w s with
      | none => rfl
      | some u =>
        obtain ⟨a, h⟩ := u
        obtain rfl := runAt_heap hx.describes.noCall ha
        change some (a, s.heap) = if op.decidedBy a then some (a, s.heap) else r'.1.runAt w s
        split
        · rfl
        · next hdeca =>
          rw [Bool.not_eq_true] at hdeca
          rw [hrun, decidedBy_inj hop (hx.bit hkx ha) hbit (hdeca.trans hdecide)]

/-- The right operand has become a variable, so that the operator may evaluate it. -/
theorem var_makes (hop : op.isLogical) (ht : (Expr.binary k op x y p).typed)
    (hx : Operand (bound c₂) x r) (hy : Operand (bound c₂) y r') (hvx : constantOf x = .none)
    (hvy : constantOf y = .none) (hvar : (outline y).type = .var) :
    Makes (finishBinary k op x y p r r') c₂ (Finishes w n k op x y p r.1 r'.1) := by
  obtain ⟨hk, hkx, hky⟩ := logical_kinds hop ht
  have hisVar : r'.1.isVar := by
    have htype := hy.describes.type.trans hvar
    generalize r'.1 = e at htype
    cases e <;> first | rfl | cases htype
  have hresult : k = op.resultKind (outline x).kind := by
    rw [hk]
    cases op <;> first | rfl | cases hop
  have hnone := hx.shape.value.trans hvx
  have hinvalid : ¬Expr.none.isValid := by decide
  have houtline := outline_logical (k := k) hop x y p
  have htype : (NodeType.var == NodeType.var) = true := rfl
  rw [hvx, hvy, Outline.logical, hvar, if_pos htype] at houtline
  obtain ⟨q, hq⟩ := rebuilt_binary ht (.inr hresult) hx hy
  rw [finishBinary, simplifyBoolean_var hop hnone hisVar, CompileM.pure_bind, if_neg hinvalid]
  refine .pure ⟨?_, kept_of_changed rfl, .nil, fun heager => ?_, fun s => ?_⟩
  · rw [hq, houtline]
    exact hx.describes.logical hy.describes hop ht hnone hisVar _ q
  · rw [houtline] at heager
    exact Bool.or_eq_false_iff.mp heager
  · rw [hq]
    exact (runAt_binary k op r.1 r'.1 q s).trans (runAt_binary k op r.1 r'.1 p s).symm

/-- The right operand is assigned behind a branch on the left one. -/
theorem branch_makes (hop : op.isLogical) (ht : (Expr.binary k op x y p).typed)
    (hx : Operand (bound c₂) x r) (hy : Operand (bound c₂) y r') (hvx : constantOf x = .none)
    (hvy : constantOf y = .none) (hvar : (outline y).type ≠ .var)
    (hright : (outline x).isCompare → (outline x).jumpsRight (op == .land)) (hn : n ≤ bound c₂) :
    Makes (finishBinary k op x y p r r') c₂ (Finishes w n k op x y p r.1 r'.1) := by
  obtain ⟨hk, hkx, hky⟩ := logical_kinds hop ht
  have hisVar : r'.1.isVar = false := by
    have htype := hy.describes.type
    generalize r'.1 = e at htype
    cases e <;> first | rfl | exact absurd htype.symm hvar
  have hnone := hx.shape.value.trans hvx
  have houtline := outline_logical (k := k) hop x y p
  rw [hvx, hvy, Outline.logical, if_neg (by simpa using hvar)] at houtline
  have hjumps : r.1.isCompare → r.1.jumpsRight (op == .land) := by
    intro hcompare
    rw [hx.describes.isCompare] at hcompare
    exact hx.describes.jumpsRight _ (hright hcompare)
  have hrun := fun i => branchOf_run (w := w) hop hx.describes.noCall hy.describes.noCall
    hx.describes.below hy.describes.below (hx.bit hkx) hjumps i
  rw [finishBinary, simplifyBoolean_branch hop hnone (hy.shape.value.trans hvy) hisVar]
  refine (simplifyBranch_makes _ _ r.1 r'.1 c₂).bind
    (grows_basic.simplifyBranch compiled_grows _ _ _ _) (fun _ => grows_basic.pure _) ?_
  intro d o c₃ _ hd
  obtain ⟨hbound, rfl, i, ho⟩ := hd
  have ho : o = branchOf op (bound c₂) i r.1 r'.1 := ho
  have hvalid : (Expr.var .bool (bound c₂)).isValid := rfl
  apply Makes.pure
  rw [List.append_nil, if_pos hvalid, ho]
  have hvalue : ∀ (s : State) (a : BitVec 64), a = 0 ∨ a = 1 →
      (Expr.var .bool (bound c₂)).runAt w (s.setVar .bool (bound c₂) a) = some (a, s.heap) := by
    intro s a ha
    rw [runAt, run, State.setVar_vars]
    obtain rfl | rfl := ha <;> rfl
  refine ⟨?_, (fun h => by cases h), ?_, fun heager => ?_, fun s => ?_⟩
  · rw [houtline]
    exact .var (by decide) hk.symm (by omega) _
  · refine ⟨branchOf_closed op _ i r.1 r'.1, ?_, fun heager s => ?_, branchOf_jumps hjumps⟩
    · intro s s' hs'
      rw [hrun] at hs'
      obtain ⟨a, -, hrest⟩ := Option.bind_eq_some_iff.mp hs'
      have hset : ∃ b, s' = s.setVar .bool (bound c₂) b := by
        split at hrest
        · exact ⟨a.1, (Option.some.inj hrest).symm⟩
        · obtain ⟨b, -, hb⟩ := Option.map_eq_some_iff.mp hrest
          exact ⟨b.1, hb.symm⟩
      obtain ⟨b, rfl⟩ := hset
      exact ⟨s.setVar_agree (.inr hn) b, fun _ => rfl⟩
    · rw [houtline] at heager
      change ((outline x).eager || (outline y).eager || (outline x).mayTrap ||
        (outline y).mayTrap) = false at heager
      rw [Bool.or_eq_false_iff, Bool.or_eq_false_iff] at heager
      obtain ⟨a, ha⟩ := run_of_not_mayTrap (w := w) (ρ := s.vars) r.1
        (hx.describes.mayTrap heager.1.2) hx.describes.noCall s.heap
      obtain ⟨b, hb⟩ := run_of_not_mayTrap (w := w) (ρ := s.vars) r'.1
        (hy.describes.mayTrap heager.2) hy.describes.noCall s.heap
      rw [hrun, runAt, ha, runAt, hb, Option.bind_some]
      split
      · exact ⟨_, rfl, rfl⟩
      · exact ⟨_, rfl, rfl⟩
  · rw [houtline] at heager
    change ((outline x).eager || (outline y).eager || (outline x).mayTrap ||
      (outline y).mayTrap) = false at heager
    rw [Bool.or_eq_false_iff, Bool.or_eq_false_iff, Bool.or_eq_false_iff] at heager
    exact heager.1.1
  · rw [hrun, runAt_logical hop hkx hky hx hy, Option.bind_assoc]
    refine Option.bind_congr fun a ha => ?_
    obtain ⟨a, h⟩ := a
    obtain rfl := runAt_heap hx.describes.noCall ha
    split
    · exact hvalue s a (hx.bit hkx ha)
    · cases hb : r'.1.runAt w s with
      | none => rfl
      | some b =>
        obtain ⟨b, h⟩ := b
        obtain rfl := runAt_heap hy.describes.noCall hb
        exact hvalue s b (hy.bit hky hb)

/-- What is emitted for the right operand may run where the left one decides. -/
theorem logical_quiet (hop : op.isLogical) (ht : (Expr.binary k op x y p).typed)
    (hx : Operand n x r)
    (hcomputes : logicalComputes op (constantOf x) (constantOf y) (outline x) (outline y))
    {s : State} {a : BitVec 64} (ha : r.1.runAt w s = some (a, s.heap)) (hdec : op.decidedBy a) :
    (outline y).eager = false := by
  rw [logicalComputes, Bool.and_eq_true, Bool.and_eq_true, Bool.and_eq_true, Bool.or_eq_true,
    Bool.not_eq_true'] at hcomputes
  obtain ⟨⟨⟨hnx, -⟩, hquiet⟩, -⟩ := hcomputes
  refine hquiet.resolve_right fun hany => ?_
  obtain ⟨-, hkx, -⟩ := logical_kinds hop ht
  cases hvx : constantOf x with
  | none =>
    rw [hvx] at hany
    cases hany
  | some v =>
    rw [hvx] at hany hnx
    -- the left operand is lowered to a constant that does not decide
    obtain ⟨hbool, hrun⟩ := hx.constant (w := w) hkx hvx
    rw [hrun] at ha
    cases ha
    have hsame := decidedByConst_eq hop (hbool ▸ rfl) (of_decide_eq_true hnx)
    rw [Option.any_some, hsame, hdec] at hany
    cases hany

/-- A logical operator whose operands compute what they should. -/
theorem logical_makes (hop : op.isLogical) (ht : (Expr.binary k op x y p).typed)
    (hx : Operand (bound c₂) x r) (hy : Operand (bound c₂) y r') (hn : n ≤ bound c₂)
    (hcomputes : logicalComputes op (constantOf x) (constantOf y) (outline x) (outline y)) :
    Makes (finishBinary k op x y p r r') c₂ (Finishes w n k op x y p r.1 r'.1) := by
  rw [logicalComputes, Bool.and_eq_true, Bool.and_eq_true, Bool.and_eq_true] at hcomputes
  obtain ⟨⟨⟨hnx, hny⟩, -⟩, hbranch⟩ := hcomputes
  cases hvx : constantOf x with
  | some v =>
    rw [hvx] at hnx
    exact left_makes hop ht hx hy hvx (of_decide_eq_true hnx)
  | none =>
    cases hvy : constantOf y with
    | some v =>
      rw [hvy] at hny
      exact right_makes hop ht hx hy hvx hvy (of_decide_eq_true hny)
    | none =>
      by_cases hvar : (outline y).type = .var
      · exact var_makes hop ht hx hy hvx hvy hvar
      · refine branch_makes hop ht hx hy hvx hvy hvar (fun hcompare => ?_) hn
        rw [hvx, hvy, beq_eq_false_iff_ne.mpr hvar, hcompare] at hbranch
        exact hbranch

end Logical

end Compiler

end OneJit
