import OneJit.Mir.KnownVars

/-!
# The registers of a function

The map of registers outlives a function, and only the variables that a function has when it is
compiled for no architecture are declared. So a variable has a register of its function when it is a
parameter, or a declared variable whose identifier no function before has used.
-/

namespace OneJit.Mir

namespace Func

/-- The variables that the compiler starts with are still the first ones at its end. -/
theorem varKinds_prefix (f : Func) : f.varKinds <+: f.lowered.vars := by
  have hknown : Compiler.KnownStmt f.varKinds f.node := f.known
  exact (Compiler.compile_does f.node f.varKinds hknown f.start (List.prefix_refl _)
    fun insn hinsn => by cases hinsn).1

/-- Truncation leaves the variables that there were before. -/
theorem vars_eq (f : Func) : f.vars = f.varKinds := by
  obtain ⟨rest, hrest⟩ := f.varKinds_prefix
  rw [vars, ← hrest, List.take_left]

/-- A variable of the body is one of the function, or one that the lowering has made. -/
theorem bodyVars_known (f : Func) {v : VarId} (hv : v ∈ f.bodyVars) : KnownVar f.lowered.vars v := by
  have hknown : Compiler.KnownStmt f.varKinds f.node := f.known
  have hbody := (Compiler.compile_does f.node f.varKinds hknown f.start (List.prefix_refl _)
    fun insn hinsn => by cases hinsn).2.1
  obtain ⟨insn, hinsn, hv⟩ := List.mem_flatMap.mp hv
  exact hbody insn hinsn v hv

theorem mem_varIds {kinds : List Kind} {v : VarId} : v ∈ varIds kinds ↔ KnownVar kinds v := by
  rw [varIds, List.mem_mapIdx]
  constructor
  · rintro ⟨i, hi, rfl⟩
    exact ⟨i, List.getElem?_eq_getElem hi, rfl⟩
  · rintro ⟨i, hi, hid⟩
    obtain ⟨hlt, hget⟩ := List.getElem?_eq_some_iff.mp hi
    exact ⟨i, hlt, by rw [hget, ← hid]⟩

/-- Variables of one function with the same identifier have the same kind. -/
theorem kind_eq {kinds : List Kind} {v w : VarId} (hv : KnownVar kinds v) (hw : KnownVar kinds w)
    (hid : v.2 = w.2) : v.1 = w.1 := by
  obtain ⟨i, hi, hvid⟩ := hv
  obtain ⟨j, hj, hwid⟩ := hw
  rw [hvid, hwid] at hid
  obtain ⟨hk, -⟩ | ⟨-, -, rfl⟩ := varId_inj hid
  · exact hk
  · rw [hi] at hj
    exact Option.some.inj hj

/-- The function has a variable with the identifier, when it is assembled. -/
def Has (f : Func) (id : Nat) : Prop := ∃ v ∈ varIds f.vars, v.2 = id

/-- The function has a parameter with the identifier. -/
def HasParam (f : Func) (id : Nat) : Prop := ∃ v ∈ varIds f.paramKinds, v.2 = id

theorem paramKinds_prefix (f : Func) : f.paramKinds <+: f.lowered.vars := by
  refine List.IsPrefix.trans ?_ f.varKinds_prefix
  rw [varKinds, List.append_assoc]
  exact List.prefix_append _ _

theorem vars_prefix (f : Func) : f.vars <+: f.lowered.vars := List.take_prefix _ _

end Func

/-! ## The map after the declarations -/

namespace Assembler

theorem set_eq {mvars : Nat → Option Reg} {id i : Nat} {reg : Reg} :
    set mvars id reg i = if i = id then some reg else mvars i := rfl

/-- A parameter gets a register of the function, and other identifiers keep theirs. -/
theorem declareParams_spec (func : Nat) (params : List VarId) (mvars : Nat → Option Reg) (id : Nat) :
    (∃ v ∈ params, v.2 = id ∧ declareParams func params mvars id = some ⟨func, toMirKind v.1⟩) ∨
      (¬∃ v ∈ params, v.2 = id) ∧ declareParams func params mvars id = mvars id := by
  induction params generalizing mvars with
  | nil => exact .inr ⟨by simp, rfl⟩
  | cons param params ih =>
    rw [declareParams]
    obtain ⟨v, hv, hid, hreg⟩ | ⟨hnone, hreg⟩ := ih (set mvars param.2 ⟨func, toMirKind param.1⟩)
    · exact .inl ⟨v, .tail _ hv, hid, hreg⟩
    · rw [hreg, set_eq]
      by_cases hparam : id = param.2
      · rw [if_pos hparam]
        exact .inl ⟨param, List.mem_cons_self, hparam.symm, rfl⟩
      · rw [if_neg hparam]
        refine .inr ⟨?_, rfl⟩
        rintro ⟨v, hv, hid⟩
        obtain rfl | hv := List.mem_cons.mp hv
        · exact hparam hid.symm
        · exact hnone ⟨v, hv, hid⟩

/-- An identifier that has a register keeps it, and another one of a variable gets one. -/
theorem declareVars_spec (func : Nat) (vars : List VarId) (mvars : Nat → Option Reg) (id : Nat) :
    (∀ reg, mvars id = some reg → declareVars func vars mvars id = some reg) ∧
      (mvars id = none → (∃ v ∈ vars, v.2 = id ∧
          declareVars func vars mvars id = some ⟨func, toMirKind v.1⟩) ∨
        (¬∃ v ∈ vars, v.2 = id) ∧ declareVars func vars mvars id = none) := by
  induction vars generalizing mvars with
  | nil => exact ⟨fun _ h => h, fun h => .inr ⟨by simp, h⟩⟩
  | cons var vars ih =>
    rw [declareVars]
    obtain ⟨hkeep, hnew⟩ :=
      ih (if (mvars var.2).isSome then mvars else set mvars var.2 ⟨func, toMirKind var.1⟩)
    constructor
    · intro reg hreg
      apply hkeep
      split
      · exact hreg
      · next hnone =>
        rw [set_eq, if_neg, hreg]
        rintro rfl
        rw [hreg] at hnone
        exact hnone rfl
    · intro hnone
      by_cases hid : id = var.2
      · refine .inl ⟨var, List.mem_cons_self, hid.symm, hkeep _ ?_⟩
        rw [if_neg (by rw [← hid, hnone]; exact Bool.false_ne_true), set_eq, if_pos hid]
      · have hstill : (if (mvars var.2).isSome then mvars
            else set mvars var.2 ⟨func, toMirKind var.1⟩) id = none := by
          split
          · exact hnone
          · rw [set_eq, if_neg hid, hnone]
        obtain ⟨v, hv, hvid, hreg⟩ | ⟨hnot, hreg⟩ := hnew hstill
        · exact .inl ⟨v, .tail _ hv, hvid, hreg⟩
        · refine .inr ⟨?_, hreg⟩
          rintro ⟨v, hv, hvid⟩
          obtain rfl | hv := List.mem_cons.mp hv
          · exact hid hvid.symm
          · exact hnot ⟨v, hv, hvid⟩

/-- The registers of the map are those of functions before, and every identifier of theirs has
one. -/
structure Holds (a : Assembler) (before : List Func) : Prop where
  funcs : a.funcs = before.length
  older : ∀ id reg, a.mvars id = some reg → reg.func < before.length
  has : ∀ id, (a.mvars id).isSome ↔ ∃ g ∈ before, g.Has id

/-- What the map holds for a variable of the function after the declarations. -/
theorem declareMirVars_spec {a : Assembler} {before : List Func} (h : Holds a before) (f : Func)
    (id : Nat) :
    (f.HasParam id ∧ ∃ v ∈ Func.varIds f.paramKinds, v.2 = id ∧
        a.declareMirVars f id = some ⟨before.length, toMirKind v.1⟩) ∨
      (¬f.HasParam id ∧ a.declareMirVars f id = a.mvars id ∧ (a.mvars id).isSome) ∨
      (¬f.HasParam id ∧ a.mvars id = none ∧ ∃ v ∈ Func.varIds f.vars, v.2 = id ∧
        a.declareMirVars f id = some ⟨before.length, toMirKind v.1⟩) ∨
      (¬f.HasParam id ∧ a.mvars id = none ∧ ¬f.Has id ∧ a.declareMirVars f id = none) := by
  unfold declareMirVars
  rw [h.funcs]
  obtain ⟨hkeep, hnew⟩ := declareVars_spec before.length (Func.varIds f.vars)
    (declareParams before.length (Func.varIds f.paramKinds) a.mvars) id
  obtain ⟨v, hv, hid, hreg⟩ | ⟨hnone, hreg⟩ :=
    declareParams_spec before.length (Func.varIds f.paramKinds) a.mvars id
  · exact .inl ⟨⟨v, hv, hid⟩, v, hv, hid, hkeep _ hreg⟩
  · cases hold : a.mvars id with
    | some reg =>
      rw [hold] at hreg
      exact .inr (.inl ⟨hnone, hkeep reg hreg, rfl⟩)
    | none =>
      rw [hold] at hreg
      obtain ⟨v, hv, hid, hnewreg⟩ | ⟨hnot, hnewreg⟩ := hnew hreg
      · exact .inr (.inr (.inl ⟨hnone, rfl, v, hv, hid, hnewreg⟩))
      · exact .inr (.inr (.inr ⟨hnone, rfl, hnot, hnewreg⟩))

theorem hasParam_has {f : Func} {id : Nat} (h : f.HasParam id) : f.Has id := by
  obtain ⟨v, hv, hid⟩ := h
  refine ⟨v, ?_, hid⟩
  rw [Func.mem_varIds, Func.vars_eq]
  refine KnownVar.mono ?_ (Func.mem_varIds.mp hv)
  rw [Func.varKinds, List.append_assoc]
  exact List.prefix_append _ _

/-- One more function is assembled. -/
theorem Holds.assemble {a : Assembler} {before : List Func} (h : Holds a before) (f : Func) :
    Holds (a.assemble f) (before ++ [f]) := by
  refine ⟨?_, fun id reg hreg => ?_, fun id => ?_⟩
  · rw [List.length_append, List.length_singleton, ← h.funcs]
    rfl
  · change a.declareMirVars f id = some reg at hreg
    rw [List.length_append, List.length_singleton]
    obtain ⟨-, v, -, -, heq⟩ | ⟨-, heq, -⟩ | ⟨-, -, v, -, -, heq⟩ | ⟨-, -, -, heq⟩ :=
      declareMirVars_spec h f id
    · rw [heq] at hreg
      cases hreg
      exact Nat.lt_succ_self _
    · rw [heq] at hreg
      exact Nat.lt_succ_of_lt (h.older id reg hreg)
    · rw [heq] at hreg
      cases hreg
      exact Nat.lt_succ_self _
    · rw [heq] at hreg
      cases hreg
  · change (a.declareMirVars f id).isSome ↔ _
    have hsplit : (∃ g ∈ before ++ [f], g.Has id) ↔ (∃ g ∈ before, g.Has id) ∨ f.Has id := by
      simp [or_and_right, exists_or]
    rw [hsplit, ← h.has]
    obtain ⟨hparam, v, -, -, heq⟩ | ⟨-, heq, hold⟩ | ⟨-, -, v, hv, hid, heq⟩ | ⟨-, hold, hnot, heq⟩ :=
      declareMirVars_spec h f id
    · rw [heq]
      exact ⟨fun _ => .inr (hasParam_has hparam), fun _ => rfl⟩
    · rw [heq]
      exact ⟨fun hsome => .inl hsome, fun _ => hold⟩
    · rw [heq]
      exact ⟨fun _ => .inr ⟨v, hv, hid⟩, fun _ => rfl⟩
    · rw [heq, hold]
      simp [hnot]

theorem assembleAll_holds (before : List Func) : Holds (assembleAll before) before := by
  induction before using List.reverseRecOn with
  | nil =>
    constructor
    · rfl
    · intro id reg hreg
      cases hreg
    · intro id
      simp [assembleAll, init]
  | append_singleton before f ih =>
    rw [assembleAll, List.foldl_append]
    exact ih.assemble f

end Assembler

/-! ## Every variable has a register of its function -/

/-- Every variable of a body is mapped to a register of the function that the body is of, with the
type of the kind of the variable, when the body is assembled. -/
def AllDeclared (fs : List Func) : Prop :=
  ∀ before f after, fs = before ++ f :: after → ∀ v ∈ f.bodyVars,
    ∃ reg, (Assembler.assembleAll before).declareMirVars f v.2 = some reg ∧
      reg.func = before.length ∧ reg.type = toMirKind v.1

/-- A variable of a body is a parameter, or a variable that is declared with an identifier that no
function before has used. -/
def FreshLocals (fs : List Func) : Prop :=
  ∀ before f after, fs = before ++ f :: after → ∀ v ∈ f.bodyVars,
    f.HasParam v.2 ∨ f.Has v.2 ∧ ∀ g ∈ before, ¬g.Has v.2

/-- Every variable has a register of its function exactly when no body uses a variable that the
lowering has made, or a result or local variable numbered like one of a function before. -/
theorem allDeclared_iff (fs : List Func) : AllDeclared fs ↔ FreshLocals fs := by
  refine forall_congr' fun before => forall_congr' fun f => forall_congr' fun after =>
    imp_congr_right fun _ => forall_congr' fun v => imp_congr_right fun hv => ?_
  have hholds := Assembler.assembleAll_holds before
  have hknown := f.bodyVars_known hv
  have htype : ∀ {kinds w}, kinds <+: f.lowered.vars → w ∈ Func.varIds kinds → w.2 = v.2 →
      toMirKind w.1 = toMirKind v.1 := by
    intro kinds w hle hw hid
    rw [Func.kind_eq ((Func.mem_varIds.mp hw).mono hle) hknown hid]
  have hbefore : (∀ g ∈ before, ¬g.Has v.2) ↔ (Assembler.assembleAll before).mvars v.2 = none := by
    rw [← Option.not_isSome_iff_eq_none, hholds.has]
    simp only [not_exists, not_and]
  rw [hbefore]
  obtain ⟨hparam, w, hw, hid, heq⟩ | ⟨hparam, heq, hold⟩ | ⟨hparam, hold, w, hw, hid, heq⟩ |
    ⟨hparam, hold, hnot, heq⟩ := Assembler.declareMirVars_spec hholds f v.2
  · exact ⟨fun _ => .inl hparam, fun _ => ⟨_, heq, rfl, htype f.paramKinds_prefix hw hid⟩⟩
  · rw [heq]
    constructor
    · rintro ⟨reg, hreg, hfunc, -⟩
      exact absurd (hholds.older _ _ hreg) (by omega)
    · rintro (hp | ⟨-, hnone⟩)
      · exact absurd hp hparam
      · rw [hnone] at hold
        cases hold
  · exact ⟨fun _ => .inr ⟨⟨w, hw, hid⟩, hold⟩,
      fun _ => ⟨_, heq, rfl, htype f.vars_prefix hw hid⟩⟩
  · rw [heq]
    constructor
    · rintro ⟨reg, hreg, -⟩
      cases hreg
    · rintro (hp | ⟨hhas, -⟩)
      · exact absurd hp hparam
      · exact absurd hhas hnot

/-- A function that returns a constant: the constant is moved to a new variable, which is not
declared. -/
def returnConst : Func where
  paramKinds := []
  resultKinds := [.uint64]
  localKinds := []
  labels := 1
  node := .stmtN .return [.expr (.const ⟨7, .uint64⟩ .direct)]
  known := by simp [stmtVars, stmtsVars, exprVars]

theorem returnConst_not_allDeclared : ¬∀ fs, AllDeclared fs := by
  intro h
  have hvar : (Kind.uint64, 0x1001) ∈ returnConst.bodyVars := by decide
  obtain ⟨reg, hreg, -⟩ := h [returnConst] [] returnConst [] rfl _ hvar
  have hnone : (Assembler.assembleAll []).declareMirVars returnConst 0x1001 = none := by decide
  rw [hnone] at hreg
  cases hreg

end OneJit.Mir
