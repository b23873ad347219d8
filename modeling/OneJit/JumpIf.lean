import OneJit.LoweringSound

/-!
# Lowering conditional jumps

`compile(JumpIf)` lowers the test, looks through the `NOT1`s around it and compares the operands of
what is left, or compares it with zero.
-/

namespace OneJit

open FlatCode Stmt

namespace Compiler

open Expr CompileM

/-- The run of the nodes ends with a jump to the label exactly where the test has a value other than
zero, and there is no conditional jump without a condition. -/
def JumpsOn (w : Host) (n : Nat) (test : Expr) (i : BitVec 16) (nodes : List Stmt) : Prop :=
  (∀ (s : State) (v : BitVec 64) (h' : Heap), test.runAt w s = some (v, h') →
    ∃ s', AgreeBelow n s.vars s'.vars ∧ s'.heap = h' ∧
      nodes.foldlM (machine w).pass (.none, s) = some (if v = 0 then .none else some i, s')) ∧
    ∀ st ∈ nodes, st.realJump

variable {w : Host}

/-- The jump on a lowered test. -/
theorem jumpNodes_pass {t : Expr} (hright : t.jumpsRight false) (hcall : t.hasCall = false)
    {s : State} {v : BitVec 64} {h' : Heap} (hrun : t.runAt w s = some (v, h')) (i : BitVec 16)
    (address : BitVec 64) :
    (jumpNodes (.label i address) t).foldlM (machine w).pass (.none, s) =
      some (if v = 0 then .none else some i, s) := by
  obtain rfl := runAt_heap hcall hrun
  obtain ⟨j, hj, heffect⟩ | ⟨hnil, hzero, -⟩ := jumpNodes_spec hright hrun i address
  · rw [hj]
    by_cases hzero : v = 0
    · rw [hzero] at heffect
      rw [if_pos hzero, List.foldlM_cons, Machine.pass_fall heffect]
      rfl
    · rw [if_pos (bne_iff_ne.mpr hzero)] at heffect
      rw [if_neg hzero, List.foldlM_cons, Machine.pass_jump heffect]
      rfl
  · rw [hnil, if_pos hzero]
    rfl

/-- A test that computes what it should, with the jump that its lowered form has. -/
theorem compileJumpIf_jumpsOn {test : Expr} (he : test.computes) (ht : test.typed)
    (hright : test.outline.jumpsRight false) {c : Compiler} (hbelow : test.varsBelow (bound c))
    (hroom : Room (compileExpr test c).2.2) (i : BitVec 16) (address : BitVec 64) :
    JumpsOn w (bound c) test i
      (compileJumpIf (.label i address) (compileExpr test) c).2.1.nodes := by
  have hlowered := compileExpr_makes (w := w) test he ht c hbelow hroom
  have hjumps := hlowered.describes.jumpsRight false hright
  have hnodes : (compileJumpIf (.label i address) (compileExpr test) c).2.1.nodes =
      (compileExpr test c).2.1.nodes ++ jumpNodes (.label i address) (compileExpr test c).1.1 := by
    rw [compileJumpIf_eq]
    rfl
  rw [hnodes]
  refine ⟨fun s v h' hrun => ?_, fun st hst => ?_⟩
  · rw [← hlowered.value s] at hrun
    obtain ⟨s', hs', hvalue⟩ := Option.bind_eq_some_iff.mp hrun
    refine ⟨s', (hlowered.emitted.keeps hs').1,
      (runAt_heap hlowered.describes.noCall hvalue).symm, ?_⟩
    have hfirst : (compileExpr test c).2.1.nodes.foldlM (machine w).pass (.none, s) =
        some (.none, s') := Machine.foldlM_of_forward hs'
    rw [List.foldlM_append, hfirst]
    exact jumpNodes_pass hjumps hlowered.describes.noCall hvalue i address
  · obtain hst | hst := List.mem_append.mp hst
    · exact hlowered.emitted.jumps st hst
    · exact jumpNodes_real hjumps _ st hst

/-- An unsigned comparison below two negations, with a division. -/
def quoTest : Expr :=
  .unary .bool .not1 (.unary .bool .not1 (.binary .bool .lss
    (.binary .uint64 .quo (.var .uint64 0x1000) (.var .uint64 0x1001) .fresh)
    (.var .uint64 0x1001) .fresh) .fresh) .fresh

theorem compileJumpIf_jumpsOn_quo :
    JumpsOn sevens (bound twoVars) quoTest 7
      (compileJumpIf (.label 7 0) (compileExpr quoTest) twoVars).2.1.nodes :=
  compileJumpIf_jumpsOn (by decide) (by decide) (by decide) (by decide) ⟨by decide, by decide⟩ 7 0

/-- The negation of a signed comparison. -/
def notLess : Expr :=
  .unary .bool .not1 (.binary .bool .lss (.var .int64 0x1000) (.var .int64 0x1001) .fresh) .fresh

/-- `negate_condjump` leaves the signed `<` as it is. -/
theorem not_jumpsOn_notLess :
    ¬JumpsOn sevens (bound twoVars) notLess 7
      (compileJumpIf (.label 7 0) (compileExpr notLess) twoVars).2.1.nodes := by
  intro hjumps
  obtain ⟨s', -, -, hpass⟩ := hjumps.1 identifiers 0 identifiers.heap rfl
  have htarget : (some (some 7) : Option (Option (BitVec 16))) = some .none :=
    congrArg (Option.map Prod.fst) hpass
  cases htarget

end Compiler

end OneJit
