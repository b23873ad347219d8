import OneJit.Emitted

/-!
# Branches on the left operand

What `simplify_land` and `simplify_lor` emit where neither operand is a constant and the right one is
no variable: a new variable is assigned the left operand, or the constant that stands for it when it
is a comparison, and the right operand where that does not decide.
-/

namespace OneJit

open FlatCode Stmt

theorem State.setVar_setVar (s : State) (k : Kind) (id : Nat) (a b : BitVec 64) :
    (s.setVar k id a).setVar k id b = s.setVar k id b := by
  rw [setVar, setVar, setVar]
  congr 1
  funext k' id'
  dsimp only
  split <;> rfl

namespace Stmt

variable {w : Host}

/-- An expression without calls is copied to a variable. -/
theorem runPiece_copy {e : Expr} (hcall : e.hasCall = false) (k : Kind) (id : Nat) (s : State) :
    runPiece w [.assign .assign (.var k id) e] s =
      (e.runAt w s).map fun r => s.setVar k id r.1 := by
  rw [runPiece_assign]
  change (e.runAt w s).map _ = _
  cases hrun : e.runAt w s with
  | none => rfl
  | some r =>
    obtain ⟨a, h⟩ := r
    obtain rfl := Expr.runAt_heap hcall hrun
    rfl

theorem label_effect (i : BitVec 16) (address : BitVec 64) (s : State) :
    (machine w).effect (.expr (.label i address)) s = some (.fall s) := rfl

theorem label_closed (i : BitVec 16) (address : BitVec 64) :
    (machine w).Closed [.expr (.label i address)] := by
  apply Machine.closed_single
  intro s l s' heffect
  rw [label_effect] at heffect
  cases heffect

end Stmt

namespace Compiler

open Expr CompileM

/-! ## The statements -/

/-- What is emitted to assign the right operand only when the left one does not decide. -/
def branchNodes (dst label first test y : Expr) : List Stmt :=
  .assign .assign dst first :: (jumpNodes label test ++ [.assign .assign dst y, .expr label])

/-- The end of `simplifyBranch`. -/
def branchOn (dst label first test y : Expr) : CompileM Expr := do
  add (.assign .assign dst first)
  compileJumpIf label (compiled test)
  compileAssign .assign dst y (pure dst) (compiled y)
  add (.expr label)
  return dst

theorem branchOn_compiler (dst label first test y : Expr) (c : Compiler) :
    (branchOn dst label first test y c).2.2 = c := by
  rw [branchOn, compileJumpIf_eq, compileAssign_compiled]
  rfl

theorem branchOn_run (dst first test y : Expr) (i : BitVec 16) (address : BitVec 64)
    (c : Compiler) : branchOn dst (.label i address) first test y c =
      (dst, ⟨branchNodes dst (.label i address) first test y, []⟩, c) := by
  rw [branchOn, compileJumpIf_eq, compileAssign_compiled]
  rfl

theorem simplifyBranch_eq (decided : Expr) (test : Expr → Expr) (x y : Expr) :
    simplifyBranch compiled decided test x y = (do
      let dst ← newVar .bool
      let label ← newLabel
      if x.isCompare then branchOn dst label decided (test x) y
      else branchOn dst label x (test dst) y) := by
  unfold simplifyBranch
  congr 1

theorem simplifyBranch_makes (decided : Expr) (test : Expr → Expr) (x y : Expr) (c : Compiler) :
    Makes (simplifyBranch compiled decided test x y) c fun d o c' =>
      bound c' = bound c + 1 ∧ d = .var .bool (bound c) ∧ ∃ i, o =
        if x.isCompare then branchNodes d (.label i 0) decided (test x) y
        else branchNodes d (.label i 0) x (test d) y := by
  have hgrow : ∀ dst label first t, Respects Grows (branchOn dst label first t y) := by
    intro dst label first t c
    rw [branchOn_compiler]
    exact ⟨Nat.le_refl _, Nat.le_refl _⟩
  rw [simplifyBranch_eq]
  refine (newVar_makes (show Kind.bool ≠ .bad by decide) c).bind (grows_basic.newVar _) ?_ ?_
  · intro dst
    exact grows_basic.bind grows_basic.newLabel fun label => Basic.ite _ (hgrow _ _ _ _) (hgrow _ _ _ _)
  · intro dst o c₁ _ hdst
    obtain ⟨rfl, hbound, id, rfl, -, hid⟩ := hdst
    have hid : id = bound c := hid.resolve_left (by decide)
    subst hid
    refine (newLabel_makes c₁).bind grows_basic.newLabel ?_ ?_
    · exact fun label => Basic.ite _ (hgrow _ _ _ _) (hgrow _ _ _ _)
    · intro label o' c₂ _ hlabel
      obtain ⟨rfl, hbound', i, rfl⟩ := hlabel
      intro _
      have hfinal : bound c₂ = bound c + 1 := hbound'.trans hbound
      split
      · rw [branchOn_run]
        exact ⟨hfinal, rfl, i, rfl⟩
      · rw [branchOn_run]
        exact ⟨hfinal, rfl, i, rfl⟩

/-! ## What they do -/

section Run

variable {w : Host} {m : Nat} {i : BitVec 16} {first test x y : Expr} {op : Op2}

theorem branch_closed (w : Host) (m : Nat) (i : BitVec 16) (first test y : Expr) :
    (machine w).Closed (branchNodes (.var .bool m) (.label i 0) first test y) := by
  have hlast : (machine w).Closed [.assign .assign (.var .bool m) y, .expr (.label i 0)] :=
    (assign_closed .bool m y).append (label_closed i 0)
  refine (assign_closed .bool m first).append ?_
  obtain hnil | ⟨j, hj, -, hjump⟩ := jumpNodes_shape w test i 0
  · rw [hnil]
    exact hlast
  · rw [hj]
    change (machine w).Closed (j :: [_] ++ [_])
    refine Machine.closed_skip hjump (assign_closed .bool m y) ?_ rfl ?_
    · exact fun k hk => List.mem_singleton.mp hk ▸ rfl
    · intro s l s' heffect
      rw [label_effect] at heffect
      cases heffect

theorem branch_jumps (hright : test.jumpsRight false) :
    ∀ st ∈ branchNodes (.var .bool m) (.label i 0) first test y, st.realJump := by
  intro st hst
  obtain rfl | hst := List.mem_cons.mp hst
  · rfl
  · obtain hst | hst := List.mem_append.mp hst
    · exact jumpNodes_real hright _ st hst
    · obtain rfl | hst := List.mem_cons.mp hst
      · rfl
      · rw [List.mem_singleton.mp hst]
        rfl

/-- The right operand is assigned where the test is zero. -/
theorem branch_rest (hright : test.jumpsRight false)
    (hstuck : (peelNot test).2.isCompare ∨ ∀ s, (test.runAt w s).isSome)
    (htest : test.hasCall = false) (hy : y.hasCall = false) (s : State) :
    runPiece w (jumpNodes (.label i 0) test ++ [.assign .assign (.var .bool m) y,
      .expr (.label i 0)]) s = (test.runAt w s).bind fun t =>
        if t.1 = 0 then (y.runAt w s).map fun b => s.setVar .bool m b.1 else some s := by
  have hlast : runPiece w [.assign .assign (.var .bool m) y, .expr (.label i 0)] s =
      (y.runAt w s).map fun b => s.setVar .bool m b.1 := by
    change runPiece w ([.assign .assign (.var .bool m) y] ++ [.expr (.label i 0)]) s = _
    rw [runPiece_append (assign_closed .bool m y), runPiece_copy hy]
    cases y.runAt w s <;> rfl
  cases ht : test.runAt w s with
  | none =>
    have hcompare : (peelNot test).2.isCompare := by
      refine hstuck.resolve_right fun hsome => ?_
      have hs := hsome s
      rw [ht] at hs
      cases hs
    obtain ⟨j, hj, heffect⟩ := jumpNodes_stuck hright hcompare ht i 0
    rw [hj]
    exact Machine.forward_stuck (Machine.pass_stuck heffect) _
  | some v =>
    obtain ⟨t, h⟩ := v
    obtain rfl := runAt_heap htest ht
    obtain ⟨j, hj, heffect⟩ | ⟨hnil, hzero, -⟩ := jumpNodes_spec hright ht i 0
    · rw [hj, Option.bind_some]
      by_cases hzero : t = 0
      · rw [hzero] at heffect
        rw [if_pos hzero, ← hlast]
        exact Machine.forward_cons (Machine.pass_fall heffect) _
      · rw [if_pos (bne_iff_ne.mpr hzero)] at heffect
        rw [if_neg hzero]
        change (machine w).forward (j :: [_] ++ [_]) (none, s) = _
        refine Machine.forward_skip heffect ?_ rfl
        exact fun k hk => List.mem_singleton.mp hk ▸ rfl
    · rw [hnil, Option.bind_some, if_pos hzero]
      exact hlast

theorem branch_run (hright : test.jumpsRight false)
    (hstuck : (peelNot test).2.isCompare ∨ ∀ s, (test.runAt w s).isSome)
    (hfirst : first.hasCall = false) (htest : test.hasCall = false) (hy : y.hasCall = false)
    (hbelow : y.varsBelow m) (s : State) :
    runPiece w (branchNodes (.var .bool m) (.label i 0) first test y) s =
      (first.runAt w s).bind fun a => (test.runAt w (s.setVar .bool m a.1)).bind fun t =>
        if t.1 = 0 then (y.runAt w s).map fun b => s.setVar .bool m b.1
        else some (s.setVar .bool m a.1) := by
  have hsame : ∀ a, y.runAt w (s.setVar .bool m a) = y.runAt w s := fun a =>
    (run_congr (s.setVar_agree (.inr (Nat.le_refl _)) a) y hbelow s.heap).symm
  change runPiece w ([_] ++ (jumpNodes (.label i 0) test ++ [_, _])) s = _
  rw [runPiece_append (assign_closed .bool m first), runPiece_copy hfirst]
  cases first.runAt w s with
  | none => rfl
  | some a =>
    rw [Option.map_some, Option.bind_some, Option.bind_some,
      branch_rest hright hstuck htest hy]
    simp only [hsame, State.setVar_setVar]

end Run

/-! ## Whether the left operand decides -/

theorem bool_cases {a : BitVec 64} (h : Kind.bool.wrap a = a) : a = 0 ∨ a = 1 := by
  have hlt : a.toNat < 2 := by
    rw [← h, Kind.wrap, if_neg (by decide)]
    change ((a.setWidth 1).setWidth 64).toNat < 2
    rw [BitVec.toNat_setWidth, BitVec.toNat_setWidth]
    omega
  obtain hzero | hone : a.toNat = 0 ∨ a.toNat = 1 := by omega
  · exact .inl (BitVec.eq_of_toNat_eq hzero)
  · exact .inr (BitVec.eq_of_toNat_eq hone)

theorem decidedBy_inj {op : Op2} (hop : op.isLogical) {a b : BitVec 64} (ha : a = 0 ∨ a = 1)
    (hb : b = 0 ∨ b = 1) (h : op.decidedBy a = op.decidedBy b) : a = b := by
  have hne : ∀ op : Op2, op.isLogical → op.decidedBy 0 ≠ op.decidedBy 1 := by
    intro op hop
    cases op <;> first | decide | cases hop
  obtain rfl | rfl := ha <;> obtain rfl | rfl := hb
  · rfl
  · exact absurd h (hne op hop)
  · exact absurd h.symm (hne op hop)
  · rfl

/-- The constant that stands for a comparison which decides. -/
def decidedExpr (op : Op2) : Expr := if op = .land then falseExpr else trueExpr

/-- The test of the jump over the right operand. -/
def branchTest (op : Op2) (e : Expr) : Expr := if op = .land then newUnary .not1 e else e

/-- The value of the test. -/
def testValue (op : Op2) (a : BitVec 64) : BitVec 64 :=
  if op = .land then if a = 0 then 1 else 0 else a

/-- The jump is taken where the left operand decides. -/
theorem testValue_eq_zero {op : Op2} (hop : op.isLogical) (a : BitVec 64) :
    testValue op a = 0 ↔ op.decidedBy a = false := by
  cases op with
  | land =>
    rw [testValue, if_pos rfl, Op2.decidedBy, beq_eq_false_iff_ne]
    by_cases hzero : a = 0
    · rw [if_pos hzero]
      exact iff_of_false (by decide) (not_not_intro hzero)
    · rw [if_neg hzero]
      exact iff_of_true rfl hzero
  | lor =>
    rw [testValue, if_neg (by decide), Op2.decidedBy, bne, Bool.not_eq_false', beq_iff_eq]
  | _ => cases hop

section Test

variable {w : Host} {op : Op2} {m : Nat} {x y : Expr}

theorem branchTest_runAt (op : Op2) (e : Expr) (s : State) :
    (branchTest op e).runAt w s = (e.runAt w s).map fun v => (testValue op v.1, v.2) := by
  by_cases hop : op = .land
  · rw [branchTest, if_pos hop, newUnary, runAt_unary]
    simp only [testValue, if_pos hop]
    cases e.runAt w s <;> rfl
  · rw [branchTest, if_neg hop]
    simp only [testValue, if_neg hop]
    cases e.runAt w s <;> rfl

theorem branchTest_jumpsRight (op : Op2) {e : Expr} (he : e.jumpsRight (op == .land)) :
    (branchTest op e).jumpsRight false := by
  by_cases hop : op = .land
  · rw [branchTest, if_pos hop, newUnary, jumpsRight, if_pos rfl]
    rw [hop] at he
    exact he
  · rw [branchTest, if_neg hop]
    rw [beq_eq_false_iff_ne.mpr hop] at he
    exact he

theorem branchTest_hasCall (op : Op2) (e : Expr) : (branchTest op e).hasCall = e.hasCall := by
  rw [branchTest]
  split <;> rfl

theorem branchTest_isCompare (op : Op2) {e : Expr} (he : e.isCompare) :
    (peelNot (branchTest op e)).2.isCompare := by
  cases e with
  | binary k o x y p =>
    rw [branchTest]
    split <;> exact he
  | _ => cases he

/-- The value of the constant that stands for a comparison which decides. -/
theorem decidedExpr_runAt (hop : op.isLogical) (s : State) :
    ∃ d, (decidedExpr op).runAt w s = some (d, s.heap) ∧ (d = 0 ∨ d = 1) ∧ op.decidedBy d := by
  cases op with
  | land => exact ⟨0, rfl, .inl rfl, rfl⟩
  | lor => exact ⟨1, rfl, .inr rfl, rfl⟩
  | _ => cases hop

theorem decidedExpr_hasCall (op : Op2) : (decidedExpr op).hasCall = false := by
  rw [decidedExpr]
  split <;> rfl

/-- The statements of the branch, whether the left operand is a comparison or is copied. -/
def branchOf (op : Op2) (m : Nat) (i : BitVec 16) (x y : Expr) : List Stmt :=
  let dst := Expr.var .bool m
  if x.isCompare then branchNodes dst (.label i 0) (decidedExpr op) (branchTest op x) y
  else branchNodes dst (.label i 0) x (branchTest op dst) y

theorem branchOf_closed (op : Op2) (m : Nat) (i : BitVec 16) (x y : Expr) :
    (machine w).Closed (branchOf op m i x y) := by
  unfold branchOf
  split
  · exact branch_closed w m i _ _ y
  · exact branch_closed w m i _ _ y

theorem branchOf_jumps {i : BitVec 16} (hright : x.isCompare → x.jumpsRight (op == .land)) :
    ∀ st ∈ branchOf op m i x y, st.realJump := by
  unfold branchOf
  split
  · next hcompare => exact branch_jumps (branchTest_jumpsRight op (hright hcompare))
  · exact branch_jumps (branchTest_jumpsRight op rfl)

/-- The variable is assigned the operand that is evaluated last. -/
theorem branchOf_run (hop : op.isLogical) (hxcall : x.hasCall = false) (hycall : y.hasCall = false)
    (hx : x.varsBelow m) (hy : y.varsBelow m)
    (hbit : ∀ {s a h}, x.runAt w s = some (a, h) → a = 0 ∨ a = 1)
    (hright : x.isCompare → x.jumpsRight (op == .land)) (i : BitVec 16) (s : State) :
    runPiece w (branchOf op m i x y) s = (x.runAt w s).bind fun a =>
      if op.decidedBy a.1 then some (s.setVar .bool m a.1)
      else (y.runAt w s).map fun b => s.setVar .bool m b.1 := by
  by_cases hcompare : x.isCompare
  · obtain ⟨d, hd, hdbit, hddec⟩ := decidedExpr_runAt (w := w) hop s
    have hsame : x.runAt w (s.setVar .bool m d) = x.runAt w s :=
      (run_congr (s.setVar_agree (.inr (Nat.le_refl _)) d) x hx s.heap).symm
    rw [branchOf, if_pos hcompare, branch_run (branchTest_jumpsRight op (hright hcompare))
      (.inl (branchTest_isCompare op hcompare)) (decidedExpr_hasCall op)
      ((branchTest_hasCall op x).trans hxcall) hycall hy, hd, Option.bind_some, branchTest_runAt,
      hsame]
    cases ha : x.runAt w s with
    | none => rfl
    | some a =>
      rw [Option.map_some, Option.bind_some, Option.bind_some]
      cases hdec : op.decidedBy a.1 with
      | true =>
        have hne : testValue op a.1 ≠ 0 := by
          rw [ne_eq, testValue_eq_zero hop, hdec]
          exact Bool.noConfusion
        rw [if_neg hne, if_pos rfl, decidedBy_inj hop hdbit (hbit ha) (hddec.trans hdec.symm)]
      | false => rw [if_pos ((testValue_eq_zero hop a.1).mpr hdec), if_neg Bool.false_ne_true]
  · have hvar : ∀ s, ((branchTest op (.var .bool m)).runAt w s).isSome := by
      intro s
      rw [branchTest_runAt]
      rfl
    rw [branchOf, if_neg hcompare, branch_run (branchTest_jumpsRight op rfl) (.inr hvar) hxcall
      (branchTest_hasCall op _) hycall hy]
    refine Option.bind_congr fun a ha => ?_
    have hvalue : (Expr.var .bool m).runAt w (s.setVar .bool m a.1) = some (a.1, s.heap) := by
      rw [runAt, run, State.setVar_vars]
      obtain hzero | hone := hbit ha
      · rw [hzero]
        rfl
      · rw [hone]
        rfl
    rw [branchTest_runAt, hvalue, Option.map_some, Option.bind_some]
    cases hdec : op.decidedBy a.1 with
    | true =>
      have hne : testValue op a.1 ≠ 0 := by
        rw [ne_eq, testValue_eq_zero hop, hdec]
        exact Bool.noConfusion
      rw [if_neg hne, if_pos rfl]
    | false => rw [if_pos ((testValue_eq_zero hop a.1).mpr hdec), if_neg Bool.false_ne_true]

end Test

end Compiler

end OneJit
