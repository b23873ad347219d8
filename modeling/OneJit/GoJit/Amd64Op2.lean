import OneJit.GoJit.Amd64Exec

/-!
# Two-argument arithmetic of amd64

What the code of each shape of operands leaves in the destination, and the operands for which that
is the result of the operation.
-/

namespace OneJit.GoJit.Amd64

open X86 (Cpu Loc Source Operation Instruction IsSize fields)

/-- The value of the operation is in the destination, and nothing else that the user sees has
changed. -/
def Meets (visible : RegId → Prop) (op : Op2) (src dst : Arg) (σ σ' : State) : Prop :=
  ∃ v, op.value σ src dst = some v ∧ Sets visible σ dst.kind.size v σ' dst

/-! ## Instructions for each shape -/

/-- The value of an operation that has an instruction is what the instruction gives. -/
theorem value_operation {op : Op2} {o : Operation} (h : operation op = some o) (σ : State)
    (src dst : Arg) :
    op.value σ src dst = o.value (σ.read dst.kind.size dst) (σ.read dst.kind.size src) := by
  rcases operation_cases h with rfl | rfl | rfl | rfl | rfl | rfl <;> cases h <;> rfl

theorem exists_value {op : Op2} {o : Operation} (h : operation op = some o) {w : Nat}
    (d s : BitVec w) : ∃ v, o.value d s = some v := by
  rcases operation_cases h with rfl | rfl | rfl | rfl | rfl | rfl <;> cases h <;> exact ⟨_, rfl⟩

/-- The value of a one-argument operation is what its instruction gives. -/
theorem value_operation1 {op : Op1} {o : Operation} (h : operation1 op = some o) (σ : State)
    (dst : Arg) (s : BitVec (8 * dst.kind.size)) :
    ∃ v, op.value σ dst = some v ∧ o.value (σ.read dst.kind.size dst) s = some v := by
  cases op <;> cases h <;> exact ⟨_, rfl, rfl⟩

theorem isSize_of_isInteger {k : Kind} (h : k.isInteger = true) : IsSize k.size :=
  Kind.size_of_isInteger h

theorem le_eight {n : Nat} (h : IsSize n) : n ≤ 8 := by
  rcases h with rfl | rfl | rfl | rfl <;> decide

section Shapes

variable (enc : Encoders) {op : Op2} {o : Operation}

/-- An instruction on two operands is a step of the machine. -/
theorem effect_loc {e : Emit Unit} {src dst : Arg} (ho : operation op = some o)
    (hs : ValidArg src) (hsc : src.isConst = false) (hd : ValidArg dst)
    (hdc : dst.isConst = false) (hn : IsSize dst.kind.size)
    (he : Emits e (.basic ⟨dst.kind.size, o, loc dst, .loc (loc src)⟩)) :
    Effect e (Instr.op2 op src dst).Step := by
  apply he.effect
  intro c
  obtain ⟨v, hv⟩ := exists_value ho ((view c).read dst.kind.size dst)
    ((view c).read dst.kind.size src)
  obtain ⟨c', hexec, hw⟩ := exec_loc hd hdc (le_eight hn) hs hsc hv
  exact ⟨c', hexec, v, (value_operation ho _ _ _).trans hv, hw⟩

/-- An instruction with a constant. -/
theorem effect_imm {e : Emit Unit} {c : Const} {dst : Arg} (ho : operation op = some o)
    (hd : ValidArg dst) (hdc : dst.isConst = false) (hn : IsSize dst.kind.size)
    (he : EmitsImm e dst.kind.size o (loc dst) c.val) :
    Effect e (Instr.op2 op (.const c) dst).Step := by
  obtain ⟨x, hemits, hx⟩ := he
  apply hemits.effect
  intro cpu
  obtain ⟨v, hv⟩ := exists_value ho ((view cpu).read dst.kind.size dst)
    ((view cpu).read dst.kind.size (.const c))
  have hvalue := (value_operation ho (view cpu) (.const c) dst).trans hv
  have hread : (view cpu).read dst.kind.size (.const c) = x.setWidth _ := hx.symm
  rw [hread] at hv
  obtain ⟨c', hexec, hw⟩ := exec_imm hd hdc (le_eight hn) hv
  exact ⟨c', hexec, v, hvalue, hw⟩

theorem op2RegReg_effect (ho : operation op = some o) {src dst : Reg}
    (hs : amd64.valid src.id = true) (hd : amd64.valid dst.id = true)
    (hn : IsSize dst.kind.size) (hsize : src.kind.size = dst.kind.size) :
    Effect (op2RegReg enc op src dst) (Instr.op2 op (.reg src) (.reg dst)).Step := by
  have h := op2RegReg_emits enc ho hs hd (hsize ▸ hn)
  rw [hsize] at h
  exact effect_loc ho hs rfl hd rfl hn h

theorem op2MemReg_effect (ho : operation op = some o) {src : Mem} {dst : Reg}
    (hs : amd64.valid src.reg.id = true) (hd : amd64.valid dst.id = true)
    (hn : IsSize dst.kind.size) (hsize : src.reg.kind.size = dst.kind.size) :
    Effect (op2MemReg enc op src dst) (Instr.op2 op (.mem src) (.reg dst)).Step := by
  have h := op2MemReg_emits enc ho hs hd (hsize ▸ hn) hsize
  rw [hsize] at h
  exact effect_loc ho hs rfl hd rfl hn h

theorem op2RegMem_effect (ho : operation op = some o) {src : Reg} {dst : Mem}
    (hs : amd64.valid src.id = true) (hd : amd64.valid dst.reg.id = true)
    (hn : IsSize dst.reg.kind.size) (hsize : src.kind.size = dst.reg.kind.size) :
    Effect (op2RegMem enc op src dst) (Instr.op2 op (.reg src) (.mem dst)).Step :=
  effect_loc ho hs rfl hd rfl hn (op2RegMem_emits enc ho hs hd hn hsize)

end Shapes

/-! ## Results by way of a register -/

section Temp

variable {visible : RegId → Prop} {op : Op2} {o : Operation} {σ σ₁ σ' : State} {src dst : Arg}
  {r : Reg}

theorem writes_trans {n : Nat} {u u' : BitVec (8 * n)} {σ₂ : State}
    (h : Writes σ n u σ₁ (.reg r)) (h' : Writes σ₁ n u' σ₂ (.reg r)) : Writes σ n u' σ₂ (.reg r) :=
  ⟨h'.1, fun id hid => (h'.2.1 id hid).trans (h.2.1 id hid), h'.2.2.trans h.2.2⟩

/-- A step whose source is in a register that the user does not see. -/
theorem sets_through (ho : operation op = some o) {u : BitVec (8 * dst.kind.size)}
    (hr : ¬ visible r.id) (hdst : Seen visible dst) (h : Writes σ dst.kind.size u σ₁ (.reg r))
    (h' : (Instr.op2 op (.reg r) dst).Step σ₁ σ') :
    ∃ v, o.value (σ.read dst.kind.size dst) u = some v ∧ Sets visible σ dst.kind.size v σ' dst := by
  obtain ⟨v, hv, hw⟩ := h'
  have hhidden := Hidden.of_writes h hr
  have hreg : σ₁.read dst.kind.size (.reg r) = u := h.1
  rw [value_operation ho, hhidden.read hdst, hreg] at hv
  exact ⟨v, hv, hhidden.sets hdst (.of_writes hw)⟩

/-- The source is copied to the register first. -/
theorem meets_through (ho : operation op = some o) (hr : ¬ visible r.id) (hdst : Seen visible dst)
    (hsize : r.kind.size = dst.kind.size) (h : (Instr.op2 .mov src (.reg r)).Step σ σ₁)
    (h' : (Instr.op2 op (.reg r) dst).Step σ₁ σ') : Meets visible op src dst σ σ' := by
  obtain ⟨u, hu, hw⟩ := h
  cases hu
  change Writes σ r.kind.size (σ.read r.kind.size src) σ₁ (.reg r) at hw
  rw [hsize] at hw
  obtain ⟨v, hv, hsets⟩ := sets_through ho hr hdst hw h'
  exact ⟨v, (value_operation ho σ src dst).trans hv, hsets⟩

/-- A step of the machine does what it should. -/
theorem meets_of_step (h : (Instr.op2 op src dst).Step σ σ') : Meets visible op src dst σ σ' := by
  obtain ⟨v, hv, hw⟩ := h
  exact ⟨v, hv, .of_writes hw⟩

end Temp

/-! ## One-argument instructions -/

section Op1

variable (enc : Encoders) (op2 : Op2 → Arg → Arg → Emit Unit) {op : Op1} {o : Operation}

theorem op1_effect (ho : operation1 op = some o) {dst : Arg} (hd : ValidArg dst)
    (hdc : dst.isConst = false) (hn : IsSize dst.kind.size) :
    Effect (op1 enc op2 op dst) (Instr.op1 op dst).Step := by
  have hjmp : op ≠ .jmp := by
    rintro rfl
    cases ho
  have hemits : Emits (op1 enc op2 op dst)
      (.basic ⟨dst.kind.size, o, loc dst, .loc (loc dst)⟩) := by
    simp only [op1, if_neg hjmp]
    cases dst with
    | const c => simp [Arg.isConst] at hdc
    | reg r => exact op1Reg_emits ho hd hn
    | mem m => exact op1Mem_emits op2 ho hd hn
  apply hemits.effect
  intro c
  obtain ⟨v, hv, hexec⟩ := value_operation1 ho (view c) dst ((view c).read dst.kind.size dst)
  obtain ⟨c', hc', hw⟩ := exec_loc hd hdc (le_eight hn) hd hdc hexec
  exact ⟨c', hc', v, hv, hw⟩

/-- The registers from `R8` on. -/
def IsHigh : Arg → Prop
  | .reg r => X86.highBit (num r.id) = true
  | _ => False

/-- `ZERO`, except for those. -/
theorem zero_effect {dst : Arg} (hd : ValidArg dst) (hdc : dst.isConst = false)
    (hn : IsSize dst.kind.size) (hlow : ¬ IsHigh dst) :
    Effect (op1 enc op2 .zero dst) (Instr.op1 .zero dst).Step := by
  cases dst with
  | const c => simp [Arg.isConst] at hdc
  | reg r =>
    have hemits := zeroReg_emits hd (Bool.eq_false_iff.mpr hlow)
    apply hemits.effect
    intro c
    let x := (c.regs (num r.id)).setWidth 32
    have hmerge : X86.merge 4 (c.regs (num r.id)) (x ^^^ x) = 0 := by
      rw [BitVec.xor_self]
      rfl
    have hset : ((X86.merge 4 (c.regs (num r.id)) (x ^^^ x)).setWidth (8 * r.kind.size)) = 0 := by
      rw [hmerge]
      simp
    exact ⟨_, rfl, 0, rfl, writes_update hd hset⟩
  | mem m =>
    have hmov : operation .mov = some .mov := rfl
    have hemits : EmitsImm (op1 enc op2 .zero (.mem m)) m.reg.kind.size .mov (loc (.mem m)) 0 :=
      @movConstMem_emits m ⟨0, m.reg.kind⟩ op2 hd hn fun _ => fits_of_fits_one (by decide)
        (by decide) (by decide : Fits 1 0)
    apply (@effect_imm _ _ _ ⟨0, m.reg.kind⟩ _ hmov hd rfl hn hemits).mono
    intro σ σ' hstep
    obtain ⟨v, hv, hw⟩ := hstep
    refine ⟨v, ?_, hw⟩
    rw [← hv]
    simp [Op1.value, Op2.value, State.read]

end Op1

/-! ## Constants -/

section Constants

variable (enc : Encoders) (op2 : Op2 → Arg → Arg → Emit Unit) {op : Op2} {k : BitVec 3} {a : Asm}
  {es : List Event} {c : Const} {visible : RegId → Prop}

/-- The byte registers for which the encoder leaves the opcode out. -/
def Unencoded (c : Const) : Arg → Prop
  | .reg r => r.kind.size = 1 ∧ rsp ≤ r.id ∧ Fits 1 c.val
  | _ => False

theorem op2ConstReg_correct (ha : Allocates amd64 a.regIds es)
    (hvis : ∀ id, amd64.valid id = true → a.regIds.inuse id = 0 → ¬ visible id)
    (ho : operation op = some (.alu k)) {dst : Reg} (hd : amd64.valid dst.id = true)
    (hseen : visible dst.id) (hn : IsSize dst.kind.size) (hkind : c.kind = dst.kind)
    (hno : ¬ Unencoded c (.reg dst)) :
    Correct (op2ConstReg enc op c dst) a (Meets visible op (.const c) (.reg dst)) := by
  have himm : ∀ {e}, EmitsImm e dst.kind.size (.alu k) (loc (.reg dst)) c.val →
      Correct e a (Meets visible op (.const c) (.reg dst)) := fun he =>
    ((@effect_imm op (.alu k) _ c (.reg dst) ho hd rfl hn he).mono
      fun _ _ => meets_of_step).correct
  have hother := not_other ho
  simp only [op2ConstReg, if_neg (op2Val_alu ho).2, hother.1, assert, hother.2, ne_eq,
    not_false_eq_true, decide_true, if_true, pure_bind, Bool.false_eq_true, if_false]
  generalize hsize : dst.kind.size = n at hn himm
  rcases hn with rfl | rfl | rfl | rfl
  · by_cases hv : Fits 1 c.val
    · have hlow : dst.id < rsp := by
        by_contra hnot
        exact hno ⟨hsize, BitVec.not_lt.mp hnot, hv⟩
      exact himm (op2ConstReg8_emits ho hd hv hlow)
    · simp only [op2ConstReg8, op2val_eq ho, lohi, lohiId_eq hd, pure_bind, if_neg hv]
      exact correct_errorf _
  · by_cases hv : Fits 2 c.val
    · exact himm (op2ConstReg16_emits ho hd hv)
    · have hone : ¬ Fits 1 c.val := fun h => hv (fits_of_fits_one (by decide) (by decide) h)
      simp only [op2ConstReg16, op2val_eq ho, lohi, lohiId_eq hd, pure_bind, if_neg hv, if_neg hone]
      exact correct_errorf _
  · by_cases hv : Fits 4 c.val
    · exact himm (op2ConstReg32_emits ho hd hv)
    · have hone : ¬ Fits 1 c.val := fun h => hv (fits_of_fits_one (by decide) (by decide) h)
      simp only [op2ConstReg32, op2val_eq ho, lohi, lohiId_eq hd, pure_bind, if_neg hv, if_neg hone]
      exact correct_errorf _
  · by_cases hv : Fits 4 c.val
    · exact himm (op2ConstReg64_emits enc ho hd hv)
    · have hone : ¬ Fits 1 c.val := fun h => hv (fits_of_fits_one (by decide) (by decide) h)
      simp only [op2ConstReg64, op2val_eq ho, lohi, lohiId_eq hd, pure_bind, if_neg hv, if_neg hone]
      apply correct_alloc ha
      intro id hid hfree
      refine ⟨_, (bind_assoc _ _ _).symm, ?_⟩
      have hmov := @effect_imm .mov .mov _ c (.reg ⟨id, c.kind⟩) rfl hid rfl
        (by rw [Arg.kind, hkind, hsize]; exact .inr (.inr (.inr rfl))) 
        (by rw [Arg.kind, hkind, hsize]; exact movConstReg64_emits hid)
      have hop := @op2RegReg_effect enc op (.alu k) ho ⟨id, c.kind⟩ dst hid hd
        (by rw [hsize]; exact .inr (.inr (.inr rfl))) (congrArg Kind.size hkind)
      apply (hmov.bind hop).mono
      rintro σ σ' ⟨σ₁, h, h'⟩
      exact meets_through ho (hvis id hid hfree) hseen (congrArg Kind.size hkind) h h'

theorem op2ConstMem_correct (ha : Allocates amd64 a.regIds es)
    (hvis : ∀ id, amd64.valid id = true → a.regIds.inuse id = 0 → ¬ visible id)
    (ho : operation op = some (.alu k)) {dst : Mem} (hd : amd64.valid dst.reg.id = true)
    (hseen : visible dst.reg.id) (hn : IsSize dst.reg.kind.size) (hkind : c.kind = dst.reg.kind) :
    Correct (op2ConstMem enc op2 op c dst) a (Meets visible op (.const c) (.mem dst)) := by
  by_cases hv : dst.reg.kind.size = 8 → Fits 4 c.val
  · have he := op2ConstMem_emits enc op2 ho hd hn hv
    exact ((@effect_imm op (.alu k) _ c (.mem dst) ho hd rfl hn he).mono
      fun _ _ => meets_of_step).correct
  · rw [Classical.not_imp] at hv
    obtain ⟨hsize, hv⟩ := hv
    have hother := not_other ho
    simp only [op2ConstMem, if_neg (op2Val_alu ho).2, hother.1, assert, hother.2, ne_eq,
      not_false_eq_true, decide_true, if_true, pure_bind, Bool.false_eq_true, if_false,
      op2val_eq ho, lohiId_eq hd, hsize, if_neg hv]
    apply correct_alloc ha
    intro id hid hfree
    refine ⟨_, (bind_assoc _ _ _).symm, ?_⟩
    have hmov := @effect_imm .mov .mov _ c (.reg ⟨id, c.kind⟩) rfl hid rfl
      (by rw [Arg.kind, hkind, hsize]; exact .inr (.inr (.inr rfl)))
      (by rw [Arg.kind, hkind, hsize]; exact movConstReg64_emits hid)
    have hop := @op2RegMem_effect enc op (.alu k) ho ⟨id, c.kind⟩ dst hid hd
      hn (congrArg Kind.size hkind)
    apply (hmov.bind hop).mono
    rintro σ σ' ⟨σ₁, h, h'⟩
    exact meets_through ho (hvis id hid hfree) hseen (congrArg Kind.size hkind) h h'

end Constants

/-! ## All shapes -/

section Args

variable (enc : Encoders) (op2 : Op2 → Arg → Arg → Emit Unit) {op : Op2} {k : BitVec 3} {a : Asm}
  {es : List Event} {visible : RegId → Prop} {src dst : Arg}

theorem op2MemMem_correct {o : Operation} (ha : Allocates amd64 a.regIds es)
    (hvis : ∀ id, amd64.valid id = true → a.regIds.inuse id = 0 → ¬ visible id)
    (ho : operation op = some o) {src dst : Mem} (hs : amd64.valid src.reg.id = true)
    (hd : amd64.valid dst.reg.id = true) (hseen : visible dst.reg.id)
    (hn : IsSize dst.reg.kind.size) (hsize : src.reg.kind.size = dst.reg.kind.size) :
    Correct (op2MemMem enc op src dst) a (Meets visible op (.mem src) (.mem dst)) := by
  have hother := not_other ho
  simp only [op2MemMem, hother.1, assert, hother.2, ne_eq, not_false_eq_true, decide_true, if_true,
    pure_bind, Bool.false_eq_true, if_false]
  apply correct_alloc ha
  intro id hid hfree
  refine ⟨_, (bind_assoc _ _ _).symm, ?_⟩
  have hmov := @op2MemReg_effect enc .mov .mov rfl src ⟨id, src.reg.kind⟩ hs hid (hsize ▸ hn) rfl
  have hop := @op2RegMem_effect enc op o ho ⟨id, src.reg.kind⟩ dst hid hd hn hsize
  apply (hmov.bind hop).mono
  rintro σ σ' ⟨σ₁, h, h'⟩
  exact @meets_through visible op o σ σ₁ σ' (.mem src) (.mem dst) ⟨id, src.reg.kind⟩ ho
    (hvis id hid hfree) hseen hsize h h'

/-- The operands of an operation: they have one kind, and the user sees their registers. -/
structure Operands (visible : RegId → Prop) (src dst : Arg) : Prop where
  src_valid : ValidArg src
  dst_valid : ValidArg dst
  src_seen : Seen visible src
  dst_seen : Seen visible dst
  dst_not_const : dst.isConst = false
  integer : dst.kind.isInteger = true
  kind : src.kind = dst.kind

/-- The operands are a constant and a register for which the encoder leaves the opcode out. -/
def LacksOpcode : Arg → Arg → Prop
  | .const c, dst => Unencoded c dst
  | _, _ => False

theorem op2Args_correct (ha : Allocates amd64 a.regIds es)
    (hvis : ∀ id, amd64.valid id = true → a.regIds.inuse id = 0 → ¬ visible id)
    (ho : operation op = some (.alu k)) (h : Operands visible src dst)
    (hno : ¬ LacksOpcode src dst) :
    Correct (op2Args enc op2 op src dst) a (Meets visible op src dst) := by
  obtain ⟨hs, hd, -, hseen, hdc, hint, hkind⟩ := h
  have hn := isSize_of_isInteger hint
  have hsize := congrArg Kind.size hkind
  cases dst with
  | const c => simp [Arg.isConst] at hdc
  | reg d =>
    cases src with
    | const c => exact op2ConstReg_correct enc ha hvis ho hd hseen hn hkind hno
    | reg s => exact ((op2RegReg_effect enc ho hs hd hn hsize).mono fun _ _ => meets_of_step).correct
    | mem s => exact ((op2MemReg_effect enc ho hs hd hn hsize).mono fun _ _ => meets_of_step).correct
  | mem d =>
    cases src with
    | const c => exact op2ConstMem_correct enc op2 ha hvis ho hd hseen hn hkind
    | reg s => exact ((op2RegMem_effect enc ho hs hd hn hsize).mono fun _ _ => meets_of_step).correct
    | mem s => exact op2MemMem_correct enc ha hvis ho hs hd hseen hn hsize

end Args

/-! ## The rules -/

section Rules

variable (enc : Encoders) {op : Op2} {src dst : Arg} (fuel : Nat)

/-- The operations that `op2` treats as such. -/
def IsPlain (op : Op2) : Prop :=
  op ≠ .cast ∧ op ≠ .div2 ∧ op ≠ .rem2 ∧ op ≠ .neg2 ∧ op ≠ .not2 ∧ op ≠ .andNot2

theorem op2_plain (hop : IsPlain op) (hk : kindsOk op src dst = true) (hd : dst.isConst = false)
    (hopt : optimize2 op src dst = .ok none) :
    op2 enc (fuel + 1) op src dst = op2Args enc (op2 enc fuel) op src dst := by
  obtain ⟨h₁, h₂, h₃, h₄, h₅, h₆⟩ := hop
  simp only [op2, op2Body, if_neg h₁, op2Checked, assert, hk, hd, hopt, if_true, pure_bind,
    Bool.false_eq_true, if_false]

theorem op2_rules {is : List Instr} (hop : op ≠ .cast) (hk : kindsOk op src dst = true)
    (hd : dst.isConst = false) (hopt : optimize2 op src dst = .ok (some is)) :
    op2 enc (fuel + 1) op src dst = is.forM (instr enc (op2 enc fuel)) := by
  simp only [op2, op2Body, if_neg hop, op2Checked, assert, hk, hd, hopt, if_true, pure_bind,
    Bool.false_eq_true, if_false]

/-- Instructions one after another. -/
theorem steps_effect (op2 : Op2 → Arg → Arg → Emit Unit) {is : List Instr}
    (h : ∀ i ∈ is, Effect (instr enc op2 i) i.Step) :
    Effect (is.forM (instr enc op2)) (Steps is) := by
  induction is with
  | nil => exact effect_pure
  | cons i is ih =>
    change Effect (instr enc op2 i >>= fun _ => is.forM (instr enc op2)) _
    exact (h i List.mem_cons_self).bind (ih fun j hj => h j (List.mem_cons_of_mem _ hj))

theorem single_effect (op2 : Op2 → Arg → Arg → Emit Unit) {i : Instr} {P : State → State → Prop}
    (h : Effect (instr enc op2 i) P) : Effect ([i].forM (instr enc op2)) P := by
  apply (h.bind effect_pure).mono
  rintro σ σ' ⟨σ₁, hP, rfl⟩
  exact hP

/-- There is no rule for a register and another destination. -/
theorem optimize2_reg {r : Reg} (hne : ∀ d : Reg, dst = .reg d → r.id ≠ d.id) :
    optimize2 op (.reg r) dst = .ok none := by
  have hsame : ∀ p : Prop, ¬(Arg.reg r = dst ∧ p) := fun p h => hne r h.1.symm rfl
  simp only [optimize2, if_neg (hsame _)]
  cases dst with
  | const c => rfl
  | mem m => rfl
  | reg d =>
    have hid := hne d rfl
    simp [hid]

theorem optimize2_mem {m : Mem} (hop : op ≠ .mov) (hne : .mem m ≠ dst) :
    optimize2 op (.mem m) dst = .ok none := by
  have hsame : ∀ p : Prop, ¬(Arg.mem m = dst ∧ p) := fun p h => hne h.1
  simp only [optimize2, if_neg (hsame _)]
  cases dst <;> simp [hop]

/-- A copy to a register that the source does not use. -/
theorem mov_effect {r : Reg} (hs : ValidArg src) (hsc : src.isConst = false)
    (hr : amd64.valid r.id = true) (hn : IsSize r.kind.size) (hsize : src.kind.size = r.kind.size)
    (hne : ∀ s : Reg, src = .reg s → s.id ≠ r.id) :
    Effect (op2 enc (fuel + 1) .mov src (.reg r)) (Instr.op2 .mov src (.reg r)).Step := by
  have hplain : IsPlain .mov := by simp [IsPlain]
  have hk : kindsOk .mov src (.reg r) = true := decide_eq_true hsize
  cases src with
  | const c => simp [Arg.isConst] at hsc
  | reg s =>
    have hopt : optimize2 .mov (.reg s) (.reg r) = .ok none :=
      optimize2_reg fun d hd => by
        cases hd
        exact hne s rfl
    rw [op2_plain enc fuel hplain hk rfl hopt]
    exact op2RegReg_effect enc rfl hs hr hn hsize
  | mem m =>
    have hopt : optimize2 .mov (.mem m) (.reg r) = .ok none := by simp [optimize2]
    rw [op2_plain enc fuel hplain hk rfl hopt]
    exact op2MemReg_effect enc rfl hs hr hn hsize

theorem optimize2_const {c : Const} (hdc : dst.isConst = false) (hint : c.kind.isInteger = true) :
    optimize2 op (.const c) dst = .ok (constRules2 op (c.kind.extend c.val)
      (.const ⟨c.kind.extend c.val, dst.kind⟩) dst) := by
  have hne : ∀ p : Prop, ¬(Arg.const c = dst ∧ p) := by
    rintro p ⟨heq, -⟩
    rw [← heq] at hdc
    cases hdc
  simp only [optimize2, if_neg (hne _), Const.cast_integer hint, Except.map]

/-- What the rules copy. -/
theorem movConst_effect {n : BitVec 64} (hd : ValidArg dst) (hdc : dst.isConst = false)
    (hint : dst.kind.isInteger = true) (hfix : dst.kind.extend n = n)
    (hn : n = 0 ∧ ¬ IsHigh dst ∨ n = -1) :
    Effect (op2 enc (fuel + 1) .mov (.const ⟨n, dst.kind⟩) dst)
      (Instr.op2 .mov (.const ⟨n, dst.kind⟩) dst).Step := by
  have hsize := isSize_of_isInteger hint
  have hk : kindsOk .mov (.const ⟨n, dst.kind⟩) dst = true := decide_eq_true rfl
  have hopt : optimize2 .mov (.const ⟨n, dst.kind⟩) dst =
      .ok (constRules2 .mov n (.const ⟨n, dst.kind⟩) dst) := by
    rw [@optimize2_const .mov dst ⟨n, dst.kind⟩ hdc hint, hfix]
  rcases hn with ⟨rfl, hlow⟩ | rfl
  · rw [op2_rules enc fuel (by decide) hk hdc hopt]
    have hzero : Effect (instr enc (op2 enc fuel) (.op1 .zero dst)) (Instr.op1 .zero dst).Step :=
      zero_effect enc (op2 enc fuel) hd hdc hsize hlow
    apply (single_effect enc (op2 enc fuel) hzero).mono
    rintro σ σ' ⟨v, hv, hw⟩
    refine ⟨v, ?_, hw⟩
    rw [← hv]
    simp [Op1.value, Op2.value, State.read]
  · have hrule : constRules2 .mov (-1) (.const ⟨-1, dst.kind⟩) dst = none := by
      simp [constRules2]
    rw [hrule] at hopt
    rw [op2_plain enc fuel (by simp [IsPlain]) hk hdc hopt]
    have hmov : operation .mov = some .mov := rfl
    have hle := le_eight hsize
    have hone : 1 ≤ dst.kind.size := by
      rcases hsize with h | h | h | h <;> omega
    have hfits : Fits dst.kind.size (-1) := fits_of_fits_one hone hle (by decide)
    cases dst with
    | const c => simp [Arg.isConst] at hdc
    | reg d =>
      have hne : (-1 : BitVec 64) ≠ 0 := by decide
      exact @effect_imm .mov .mov _ ⟨-1, d.kind⟩ (.reg d) hmov hd rfl hsize
        (@movConstReg_emits ⟨-1, d.kind⟩ d hd hsize hfits hne)
    | mem m =>
      have hfour : Fits 4 (-1) := by decide
      exact @effect_imm .mov .mov _ ⟨-1, m.reg.kind⟩ (.mem m) hmov hd rfl hsize
        (@movConstMem_emits m ⟨-1, m.reg.kind⟩ (op2 enc fuel) hd hsize fun _ => hfour)

/-- Addition, subtraction and the bitwise operations. -/
def IsArith (op : Op2) : Prop :=
  op = .add2 ∨ op = .sub2 ∨ op = .and2 ∨ op = .or2 ∨ op = .xor2 ∨ op = .andNot2

/-- The constants for which there is a rule. -/
def HasRule (op : Op2) (n : BitVec 64) : Prop :=
  n = 0 ∨ n = -1 ∨ n = 1 ∧ (op = .add2 ∨ op = .sub2)

theorem constRules2_none_iff (hop : IsArith op) (n : BitVec 64) :
    constRules2 op n src dst = none ↔ ¬ HasRule op n := by
  have hone : (1 : BitVec 64) ≠ 0 ∧ (1 : BitVec 64) ≠ -1 := by decide
  rcases hop with rfl | rfl | rfl | rfl | rfl | rfl <;> simp only [constRules2, HasRule] <;>
    split_ifs <;> simp_all

/-- The instructions of the rules, except for zero in a register from `R8` on. -/
theorem constRules2_effect {n v : BitVec 64} {is : List Instr} (hop : IsArith op)
    (hd : ValidArg dst) (hdc : dst.isConst = false) (hint : dst.kind.isInteger = true)
    (hn : n = dst.kind.extend v) (hlow : ¬(op = .and2 ∧ n = 0 ∧ IsHigh dst))
    (hrule : constRules2 op n (.const ⟨n, dst.kind⟩) dst = some is) :
    Effect (is.forM (instr enc (op2 enc (fuel + 1)))) (Steps is) := by
  apply steps_effect
  have hsize := isSize_of_isInteger hint
  have hfix : dst.kind.extend n = n := by
    rw [hn, extend_extend hint]
  have hop1 : ∀ {op o}, operation1 op = some o → ∀ i ∈ [Instr.op1 op dst],
      Effect (instr enc (op2 enc (fuel + 1)) i) i.Step := by
    intro op o ho i hi
    rw [List.mem_singleton] at hi
    subst hi
    exact op1_effect enc _ ho hd hdc hsize
  have hmov : n = 0 ∧ ¬ IsHigh dst ∨ n = -1 → ∀ i ∈ [Instr.op2 .mov (.const ⟨n, dst.kind⟩) dst],
      Effect (instr enc (op2 enc (fuel + 1)) i) i.Step := by
    intro h i hi
    rw [List.mem_singleton] at hi
    subst hi
    exact movConst_effect enc fuel hd hdc hint hfix h
  have hnil : ∀ i ∈ ([] : List Instr), Effect (instr enc (op2 enc (fuel + 1)) i) i.Step := by simp
  rcases hop with rfl | rfl | rfl | rfl | rfl | rfl
  · simp only [constRules2] at hrule
    split_ifs at hrule <;> cases hrule
    · exact hnil
    · exact hop1 rfl
    · exact hop1 rfl
  · simp only [constRules2] at hrule
    split_ifs at hrule <;> cases hrule
    · exact hnil
    · exact hop1 rfl
    · exact hop1 rfl
  · simp only [constRules2] at hrule
    split_ifs at hrule with h0 h1 <;> cases hrule
    · exact hmov (.inl ⟨h0, fun hhigh => hlow ⟨rfl, h0, hhigh⟩⟩)
    · exact hnil
  · simp only [constRules2] at hrule
    split_ifs at hrule with h0 h1 <;> cases hrule
    · exact hnil
    · exact hmov (.inr h1)
  · simp only [constRules2] at hrule
    split_ifs at hrule <;> cases hrule
    · exact hnil
    · exact hop1 rfl
  · simp only [constRules2] at hrule
    split_ifs at hrule with h0 h1 <;> cases hrule
    · exact hnil
    · exact hmov (.inr h1)

end Rules

/-! ## Where the code goes wrong -/

/-- The constant that is encoded: that of `AND_NOT2` is complemented. -/
def immediate (op : Op2) (c : Const) : Const :=
  if op = .andNot2 then ⟨~~~c.val, c.kind⟩ else c

/-- The operands for which the code does not do what it should: `AND_NOT2` with a constant `-1`
copies the constant, and with another source it negates where it should complement. Zero cannot be
put in the registers from `R8` on. The encoder leaves out an opcode for a constant and a byte
register from `RSP` on. -/
def Wrong (rs : RegIds) (op : Op2) (src dst : Arg) : Prop :=
  match src with
  | .const c =>
    op = .andNot2 ∧ c.kind.extend c.val = -1 ∨
      op = .and2 ∧ c.kind.extend c.val = 0 ∧ IsHigh dst ∨
      ¬ HasRule op (c.kind.extend c.val) ∧ Unencoded (immediate op c) dst
  | src =>
    if src = dst then (op = .sub2 ∨ op = .xor2 ∨ op = .andNot2) ∧ IsHigh dst
    else op = .andNot2 ∧ ∃ id, amd64.valid id = true ∧ rs.inuse id = 0

theorem wrong_same {rs : RegIds} {op : Op2} {dst : Arg} (hdc : dst.isConst = false) :
    Wrong rs op dst dst ↔ (op = .sub2 ∨ op = .xor2 ∨ op = .andNot2) ∧ IsHigh dst := by
  cases dst <;> simp_all [Wrong, Arg.isConst]

theorem wrong_other {rs : RegIds} {op : Op2} {src dst : Arg} (hsc : src.isConst = false)
    (hne : src ≠ dst) :
    Wrong rs op src dst ↔ op = .andNot2 ∧ ∃ id, amd64.valid id = true ∧ rs.inuse id = 0 := by
  cases src <;> simp_all [Wrong, Arg.isConst]

section Right

variable (enc : Encoders) {op : Op2} {src dst : Arg} {a : Asm} {es : List Event} (fuel : Nat)

theorem not_visible {rs : RegIds} (id : RegId) (_ : amd64.valid id = true) (h : rs.inuse id = 0) :
    ¬ Visible rs id :=
  fun hv => hv.2 h

theorem IsArith.plain (h : IsArith op) (hne : op ≠ .andNot2) :
    IsPlain op ∧ op ≠ .mov ∧ ∃ k, operation op = some (.alu k) := by
  rcases h with rfl | rfl | rfl | rfl | rfl | rfl
  · exact ⟨by simp [IsPlain], by decide, _, rfl⟩
  · exact ⟨by simp [IsPlain], by decide, _, rfl⟩
  · exact ⟨by simp [IsPlain], by decide, _, rfl⟩
  · exact ⟨by simp [IsPlain], by decide, _, rfl⟩
  · exact ⟨by simp [IsPlain], by decide, _, rfl⟩
  · exact absurd rfl hne

theorem IsArith.kindsOk (h : IsArith op) (hk : src.kind = dst.kind) : kindsOk op src dst = true := by
  rcases h with rfl | rfl | rfl | rfl | rfl | rfl <;> exact decide_eq_true hk

theorem IsArith.wellKinded {visible : RegId → Prop} (h : IsArith op)
    (ho : Operands visible src dst) : op.WellKinded src dst := by
  refine ⟨ho.dst_not_const, ?_, ho.integer, ?_⟩
  · rw [ho.kind]
    exact ho.integer
  · rcases h with rfl | rfl | rfl | rfl | rfl | rfl <;> exact ho.kind

theorem IsArith.ne_cast (h : IsArith op) : op ≠ .cast := by
  rcases h with rfl | rfl | rfl | rfl | rfl | rfl <;> decide

/-- `AND_NOT2` of a constant is `AND2` of its complement. -/
theorem Meets.andNot {visible : RegId → Prop} {c : Const} {σ σ' : State}
    (hn : 8 * dst.kind.size ≤ 64)
    (h : Meets visible .and2 (.const ⟨~~~c.val, c.kind⟩) dst σ σ') :
    Meets visible .andNot2 (.const c) dst σ σ' := by
  obtain ⟨v, hv, hs⟩ := h
  refine ⟨v, ?_, hs⟩
  rw [← hv]
  simp only [Op2.value, Op2.toOp3, Option.bind_some, Op3.value, Op3.eval, State.read,
    BitVec.setWidth_not hn]

/-- Constants without a rule. -/
theorem op2_const_correct {c : Const} (hop : IsArith op) (ha : Allocates amd64 a.regIds es)
    (h : Operands (Visible a.regIds) (.const c) dst) (hrule : ¬ HasRule op (c.kind.extend c.val))
    (hno : ¬ Unencoded (immediate op c) dst) :
    Correct (op2 enc (fuel + 1) op (.const c) dst) a
      (Meets (Visible a.regIds) op (.const c) dst) := by
  have hk := hop.kindsOk h.kind
  have hint : c.kind.isInteger = true := (congrArg Kind.isInteger h.kind).trans h.integer
  have hopt : optimize2 op (.const c) dst = .ok none := by
    rw [optimize2_const h.dst_not_const hint, (constRules2_none_iff hop _).mpr hrule]
  by_cases hand : op = .andNot2
  · subst hand
    have hbody : op2 enc (fuel + 1) .andNot2 (.const c) dst =
        op2Args enc (op2 enc fuel) .and2 (.const ⟨~~~c.val, c.kind⟩) dst := by
      simp only [op2, op2Body, if_neg hop.ne_cast, op2Checked, assert, hk, h.dst_not_const, hopt,
        if_true, pure_bind, Bool.false_eq_true, if_false, andNot2]
    rw [hbody]
    have hcorrect := @op2Args_correct enc (op2 enc fuel) .and2 4 a es (Visible a.regIds)
      (.const ⟨~~~c.val, c.kind⟩) dst ha not_visible rfl
      ⟨trivial, h.dst_valid, trivial, h.dst_seen, h.dst_not_const, h.integer, h.kind⟩ hno
    exact hcorrect.mono fun _ _ => Meets.andNot (Kind.width_le h.integer)
  · obtain ⟨hplain, -, k, ho⟩ := hop.plain hand
    rw [op2_plain enc fuel hplain hk h.dst_not_const hopt]
    rw [immediate, if_neg hand] at hno
    exact op2Args_correct enc _ ha not_visible ho h hno

/-- Constants with a rule. -/
theorem op2_rule_correct {c : Const} (hop : IsArith op)
    (h : Operands (Visible a.regIds) (.const c) dst) (hrule : HasRule op (c.kind.extend c.val))
    (hno : ¬ Wrong a.regIds op (.const c) dst) :
    Correct (op2 enc (fuel + 2) op (.const c) dst) a
      (Meets (Visible a.regIds) op (.const c) dst) := by
  have hk := hop.kindsOk h.kind
  have hkind : c.kind = dst.kind := h.kind
  have hint : c.kind.isInteger = true := (congrArg Kind.isInteger h.kind).trans h.integer
  have hsome : ∃ is, constRules2 op (c.kind.extend c.val) (.const ⟨c.kind.extend c.val, dst.kind⟩)
      dst = some is := by
    rw [← Option.ne_none_iff_exists', ne_eq, constRules2_none_iff hop]
    exact not_not_intro hrule
  obtain ⟨is, his⟩ := hsome
  have hopt : optimize2 op (.const c) dst = .ok (some is) := by
    rw [optimize2_const h.dst_not_const hint, his]
  rw [op2_rules enc (fuel + 1) hop.ne_cast hk h.dst_not_const hopt]
  have heffect := constRules2_effect enc fuel hop h.dst_valid h.dst_not_const h.integer
    (by rw [hkind]) (fun hbad => hno (.inr (.inl hbad))) his
  apply (heffect.mono _).correct
  intro σ σ' hsteps
  have hwell := hop.wellKinded h
  obtain ⟨v, hv⟩ := @constRules2_defined σ op c dst is hwell his
  have hexact := @constRules2_exact σ op c dst is v hwell his hv
  have hmiss : ¬ op.Misses σ (.const c) dst := by
    rintro ⟨hminus, hcase⟩
    rw [isMinusOne_iff σ hint] at hminus
    rcases hcase with rfl | ⟨rfl, -⟩
    · exact hno (.inl ⟨rfl, hminus⟩)
    · rcases hop with hop | hop | hop | hop | hop | hop <;> cases hop
  exact ⟨v, hv, .of_writes (hexact.mpr hmiss σ' hsteps)⟩

/-- Another source than the destination. -/
theorem optimize2_other (hop : op ≠ .mov) (hsc : src.isConst = false) (hkind : src.kind = dst.kind)
    (hne : src ≠ dst) : optimize2 op src dst = .ok none := by
  cases src with
  | const c => simp [Arg.isConst] at hsc
  | reg s =>
    apply optimize2_reg
    rintro d rfl hid
    apply hne
    rw [show s = d from by cases s; cases d; simp_all [Arg.kind]]
  | mem m => exact optimize2_mem hop hne

/-- One operand as source and destination. -/
theorem op2_same_correct (hop : IsArith op) (ha : Allocates amd64 a.regIds es)
    (h : Operands (Visible a.regIds) dst dst) (hno : ¬ Wrong a.regIds op dst dst) :
    Correct (op2 enc (fuel + 2) op dst dst) a (Meets (Visible a.regIds) op dst dst) := by
  have hk := hop.kindsOk h.kind
  have hdc := h.dst_not_const
  have hrules : ∀ is, optimize2 op dst dst = .ok (some is) →
      op2 enc (fuel + 2) op dst dst = is.forM (instr enc (op2 enc (fuel + 1))) := fun is hopt =>
    op2_rules enc (fuel + 1) hop.ne_cast hk hdc hopt
  -- the source is already there
  have hself : ∀ σ : State, op = .and2 ∨ op = .or2 →
      Meets (Visible a.regIds) op dst dst σ σ := by
    rintro σ (rfl | rfl)
    · exact ⟨_, congrArg some BitVec.and_self, .self hdc⟩
    · exact ⟨_, congrArg some BitVec.or_self, .self hdc⟩
  have hnil : op = .and2 ∨ op = .or2 → optimize2 op dst dst = .ok (some []) := by
    rintro (rfl | rfl) <;> simp [optimize2]
  have hzero : op = .sub2 ∨ op = .xor2 ∨ op = .andNot2 →
      optimize2 op dst dst = .ok (some [.op1 .zero dst]) := by
    rintro (rfl | rfl | rfl) <;> simp [optimize2]
  by_cases hsame : op = .and2 ∨ op = .or2
  · rw [hrules [] (hnil hsame)]
    apply (effect_pure.mono _).correct
    rintro σ _ rfl
    exact hself _ hsame
  by_cases hclear : op = .sub2 ∨ op = .xor2 ∨ op = .andNot2
  · have hlow : ¬ IsHigh dst := by
      intro hhigh
      exact hno ((wrong_same hdc).mpr ⟨hclear, hhigh⟩)
    rw [hrules _ (hzero hclear)]
    have hone : Effect (instr enc (op2 enc (fuel + 1)) (.op1 .zero dst))
        (Instr.op1 .zero dst).Step :=
      zero_effect enc (op2 enc (fuel + 1)) h.dst_valid hdc (isSize_of_isInteger h.integer) hlow
    apply ((single_effect enc (op2 enc (fuel + 1)) hone).mono _).correct
    rintro σ σ' ⟨v, hv, hw⟩
    cases hv
    refine ⟨0, ?_, .of_writes hw⟩
    rcases hclear with rfl | rfl | rfl
    · exact congrArg some (BitVec.sub_self _)
    · exact congrArg some BitVec.xor_self
    · exact congrArg some (BitVec.and_not_self _)
  · have hadd : op = .add2 := by
      rcases hop with rfl | rfl | rfl | rfl | rfl | rfl <;> simp_all
    subst hadd
    have hopt : optimize2 .add2 dst dst = .ok none := by
      cases dst with
      | const c => simp [Arg.isConst] at hdc
      | reg r => simp [optimize2]
      | mem m => simp [optimize2]
    have hlack : ¬ LacksOpcode dst dst := by
      cases dst with
      | const c => simp [Arg.isConst] at hdc
      | reg r => exact id
      | mem m => exact id
    rw [op2_plain enc (fuel + 1) (by simp [IsPlain]) hk hdc hopt]
    exact op2Args_correct enc _ ha not_visible rfl h hlack

/-- Two operands, none of them a constant. -/
theorem op2_other_correct (hop : IsArith op) (ha : Allocates amd64 a.regIds es)
    (h : Operands (Visible a.regIds) src dst) (hsc : src.isConst = false) (hne : src ≠ dst)
    (hno : ¬ Wrong a.regIds op src dst) :
    Correct (op2 enc (fuel + 1) op src dst) a (Meets (Visible a.regIds) op src dst) := by
  have hk := hop.kindsOk h.kind
  have hdc := h.dst_not_const
  have hmov : op ≠ .mov := by
    rcases hop with rfl | rfl | rfl | rfl | rfl | rfl <;> decide
  have hopt := optimize2_other hmov hsc h.kind hne
  by_cases hand : op = .andNot2
  · subst hand
    have hused : ∀ id, amd64.valid id = true → a.regIds.inuse id ≠ 0 := by
      intro id hid hfree
      exact hno ((wrong_other hsc hne).mpr ⟨rfl, id, hid, hfree⟩)
    have hbody : op2 enc (fuel + 1) .andNot2 src dst = andNot2 enc (op2 enc fuel) src dst := by
      simp only [op2, op2Body, if_neg hop.ne_cast, op2Checked, assert, hk, hdc, hopt,
        if_true, pure_bind, Bool.false_eq_true, if_false]
    rw [hbody]
    cases src with
    | const c => simp [Arg.isConst] at hsc
    | reg r => exact correct_alloc ha fun id hid hfree => absurd hfree (hused id hid)
    | mem m => exact correct_alloc ha fun id hid hfree => absurd hfree (hused id hid)
  · obtain ⟨hplain, -, k, ho⟩ := hop.plain hand
    have hlack : ¬ LacksOpcode src dst := by
      cases src with
      | const c => simp [Arg.isConst] at hsc
      | reg r => exact id
      | mem m => exact id
    rw [op2_plain enc fuel hplain hk hdc hopt]
    exact op2Args_correct enc _ ha not_visible ho h hlack

end Right

/-! ## What it leaves there instead -/

/-- The state in which all registers and bytes are one. -/
def ones : Cpu := ⟨fun _ => 1, fun _ => 1⟩

theorem load_ones (n : Nat) (b : BitVec 64) (hn : 0 < n) :
    ((view ones).load b n).getLsbD 0 = true := by
  obtain ⟨n, rfl⟩ := Nat.exists_eq_succ_of_ne_zero (Nat.pos_iff_ne_zero.mp hn)
  rw [State.load]
  simp [BitVec.getLsbD_append, ones]

theorem read_ones {a : Arg} (ha : ValidArg a) (hac : a.isConst = false) {n : Nat} (hn : 0 < n) :
    ((view ones).read n a).getLsbD 0 = true := by
  cases a with
  | const c => simp [Arg.isConst] at hac
  | reg r =>
    rw [State.read, view_regs _ ha]
    simp [ones, hn]
  | mem m => exact load_ones n _ hn

section Unencoded

variable {b : BitVec 4} {k : BitVec 3} {x : X86.Byte}

/-- The bytes that the encoder emits for a constant and a byte register from `RSP` on. -/
def unencodedBytes (k : BitVec 3) (b : BitVec 4) (x : X86.Byte) : List X86.Byte :=
  [0x40 ||| hi b, 0xC0 ||| fields 0 k 0 ||| lo b, x]

/-- They are read as another instruction, or as none. -/
theorem form_unencoded : ∀ k b, k = 0 ∨ k = 1 ∨ k = 4 ∨ k = 5 ∨ k = 6 →
    X86.isOpcode [0xC0 ||| fields 0 k 0 ||| lo b] = true ∧
      (X86.form (0xC0 ||| fields 0 k 0 ||| lo b) = none ∨
        X86.form (0xC0 ||| fields 0 k 0 ||| lo b) = some .shiftImm ∨
        X86.form (0xC0 ||| fields 0 k 0 ||| lo b) = some .movRm ∨
        k = 6 ∧ X86.form (0xC0 ||| fields 0 k 0 ||| lo b) = some .group3) := by
  decide

theorem takeInt_nil {n : Nat} (hn : 0 < n) : X86.takeInt n [] = none := by
  obtain ⟨n, rfl⟩ := Nat.exists_eq_succ_of_ne_zero (Nat.pos_iff_ne_zero.mp hn)
  rfl

/-- With a REX prefix there are no operands in the second byte of a register. -/
theorem rmOperand_rex {n : Nat} {rex : X86.Rex} {r : BitVec 3} {l : Loc} {bs rest : List X86.Byte}
    (h : X86.rmOperand n true rex bs = some (r, l, rest)) :
    (∃ q, l = .gpr q) ∨ ∃ m, l = .mem m := by
  cases bs with
  | nil => cases h
  | cons y bs =>
    rw [X86.rmOperand] at h
    split_ifs at h
    · cases h
      exact .inl ⟨_, if_neg fun hand => by cases hand.2.1⟩
    · obtain ⟨⟨r', m, rest'⟩, -, heq⟩ := Option.map_eq_some_iff.mp h
      cases heq
      exact .inr ⟨m, rfl⟩

theorem decode_unencoded (hk : k = 0 ∨ k = 1 ∨ k = 4 ∨ k = 5 ∨ k = 6) {i : X86.Insn}
    {rest : List X86.Byte} (h : X86.decode (unencodedBytes k b x) = some (i, rest)) :
    k = 6 ∧ rest = [] ∧ ∃ n l, (n = 1 ∨ n = 4) ∧ ((∃ q, l = .gpr q) ∨ ∃ m, l = .mem m) ∧
      (i = .idiv n l ∨ ∃ o, X86.groupOp .group3 (X86.midField x) = some o ∧
        i = .basic ⟨n, o, l, .loc l⟩) := by
  obtain ⟨hop, hform⟩ := form_unencoded k b hk
  have hdecode := X86.decode_parts false (@isRexPrefix_40_base 1 b (by decide)) hop [x]
  have hbytes : unencodedBytes k b x = (if false then [0x66] else []) ++
      ([0x40 ||| hi b] ++ ((0xC0 ||| fields 0 k 0 ||| lo b) :: [x])) := rfl
  rw [hbytes, hdecode] at h
  generalize 0xC0 ||| fields 0 k 0 ||| lo b = opcode at hform h
  have hsize : X86.opcodeSize false (rexOf 1 0 b) opcode = 1 ∨
      X86.opcodeSize false (rexOf 1 0 b) opcode = 4 := by
    rw [X86.opcodeSize]
    split_ifs
    · exact .inr rfl
    · exact .inl rfl
  change X86.decodeOpcode false true (rexOf 1 0 b) opcode [x] = some (i, rest) at h
  rcases hform with hform | hform | hform | ⟨hsix, hform⟩
  · simp [X86.decodeOpcode, hform] at h
  · simp only [X86.decodeOpcode, hform] at h
    obtain ⟨⟨r, l, rest'⟩, hrm, h⟩ := Option.bind_eq_some_iff.mp h
    obtain ⟨-, rfl⟩ := X86.rmOperand_singleton hrm
    cases h
  · simp only [X86.decodeOpcode, hform] at h
    obtain ⟨⟨r, l, rest'⟩, hrm, h⟩ := Option.bind_eq_some_iff.mp h
    obtain ⟨-, rfl⟩ := X86.rmOperand_singleton hrm
    have htake : X86.takeInt (min (X86.opcodeSize false (rexOf 1 0 b) opcode) 4) [] = none :=
      takeInt_nil (by omega)
    simp only [htake, Option.map_none, ite_self] at h
    cases h
  · simp only [X86.decodeOpcode, hform] at h
    obtain ⟨⟨r, l, rest'⟩, hrm, h⟩ := Option.bind_eq_some_iff.mp h
    obtain ⟨rfl, rfl⟩ := X86.rmOperand_singleton hrm
    have hl := rmOperand_rex hrm
    dsimp only at h
    split_ifs at h with hdiv
    · cases h
      exact ⟨hsix, rfl, _, l, hsize, hl, .inl rfl⟩
    · obtain ⟨o, ho, heq⟩ := Option.map_eq_some_iff.mp h
      cases heq
      exact ⟨hsix, rfl, _, l, hsize, hl, .inr ⟨o, ho, rfl⟩⟩

theorem write_regs {c c' : Cpu} {n : Nat} {v : BitVec (8 * n)} {l : Loc}
    (hl : (∃ q, l = .gpr q) ∨ ∃ m, l = .mem m) (h : c.write n v l = some c') (b : BitVec 4) :
    c'.regs b = c.regs b ∨ l = .gpr b ∧ c'.regs b = X86.merge n (c.regs b) v := by
  rcases hl with ⟨q, rfl⟩ | ⟨m, rfl⟩
  · cases h
    by_cases hq : b = q
    · subst hq
      exact .inr ⟨rfl, Function.update_self ..⟩
    · exact .inl (Function.update_of_ne hq _ _)
  · obtain ⟨a, -, rfl⟩ := Option.map_eq_some_iff.mp h
    exact .inl rfl

/-- No run of them from the state of ones leaves the result in the register. -/
theorem unencoded_runs (hk : k = 0 ∨ k = 1 ∨ k = 4 ∨ k = 5 ∨ k = 6) (hb : ¬ b < 4) {c' : Cpu}
    (hruns : X86.Runs (unencodedBytes k b x) ones c') :
    k = 6 ∧ ((c'.regs b).setWidth 8 = 1 ∨
      (c'.regs b).setWidth 8 = 0xFE ∧ X86.midField x = 2 ∨
      (c'.regs b).setWidth 8 = 0xFF ∧ X86.midField x = 3) := by
  cases hruns with
  | step hdecode hexec hrest =>
    obtain ⟨hsix, rfl, n, l, hn, hl, hi⟩ := decode_unencoded hk hdecode
    obtain rfl := hrest.unique (.nil _)
    refine ⟨hsix, ?_⟩
    have hone : ones.regs b = 1 := rfl
    rcases hi with rfl | ⟨o, ho, rfl⟩
    · left
      obtain ⟨y, -, hexec⟩ := Option.bind_eq_some_iff.mp hexec
      dsimp only at hexec
      split_ifs at hexec
      obtain ⟨c₁, h₁, h₂⟩ := Option.bind_eq_some_iff.mp hexec
      have hne : ∀ {q : BitVec 4}, q < 4 → Loc.gpr q ≠ .gpr b := by
        rintro q hq ⟨⟩
        exact hb hq
      have hregs₁ := (write_regs (.inl ⟨0, rfl⟩) h₁ b).resolve_right
        fun hand => hne (by decide) hand.1
      have hregs₂ := (write_regs (.inl ⟨2, rfl⟩) h₂ b).resolve_right
        fun hand => hne (by decide) hand.1
      rw [hregs₂, hregs₁, hone]
      rfl
    · have hgroup : ∀ r, X86.groupOp .group3 r = none ∨
          X86.groupOp .group3 r = some .not ∧ r = 2 ∨ X86.groupOp .group3 r = some .neg ∧ r = 3 := by
        decide
      obtain ⟨d, hd, hexec⟩ := Option.bind_eq_some_iff.mp hexec
      obtain ⟨s, -, hexec⟩ := Option.bind_eq_some_iff.mp hexec
      obtain ⟨v, hv, hwrite⟩ := Option.bind_eq_some_iff.mp hexec
      dsimp only at hd hv hwrite
      rcases write_regs hl hwrite b with hsame | ⟨rfl, hmerge⟩
      · left
        rw [hsame, hone]
        rfl
      · right
        rw [hmerge, hone]
        cases hd
        rw [hone] at hv
        rcases hgroup (X86.midField x) with hnone | ⟨hnot, hmid⟩ | ⟨hneg, hmid⟩
        · rw [hnone] at ho
          cases ho
        · rw [hnot, Option.some.injEq] at ho
          subst ho
          cases hv
          refine .inl ⟨?_, hmid⟩
          rcases hn with rfl | rfl <;> decide
        · rw [hneg, Option.some.injEq] at ho
          subst ho
          cases hv
          refine .inr ⟨?_, hmid⟩
          rcases hn with rfl | rfl <;> decide

end Unencoded

section Wrong

variable (enc : Encoders) {op : Op2} {src dst : Arg} {a : Asm} {es : List Event} (fuel : Nat)

theorem unencoded_wrong {k : BitVec 3} {b : BitVec 4} {x : X86.Byte} {e : Emit Unit}
    {P : State → State → Prop} (hcode : e = bytes (unencodedBytes k b x))
    (hk : k = 0 ∨ k = 1 ∨ k = 4 ∨ k = 5 ∨ k = 6) (hb : ¬ b < 4) (hx : k = 6 → x ≠ 0)
    (hP : ∀ c', P (view ones) (view c') → k = 6 → (c'.regs b).setWidth 8 = 1 ^^^ x) :
    ¬ Correct e a P := by
  subst hcode
  rintro ⟨bs, hcode, hall⟩
  obtain rfl := List.append_cancel_left hcode
  obtain ⟨c', hruns, hPc⟩ := hall ones
  obtain ⟨hsix, hcases⟩ := unencoded_runs hk hb hruns
  have hne := hx hsix
  rw [hP c' hPc hsix] at hcases
  clear hx hPc hP hruns hall hcode
  revert x
  decide

/-- The code for zero in a register from `R8` on changes another register. -/
theorem zero_high_effect (op2 : Op2 → Arg → Arg → Emit Unit) {r : Reg}
    (hr : amd64.valid r.id = true) (hhigh : IsHigh (.reg r)) :
    Effect (op1 enc op2 .zero (.reg r)) fun σ σ' => σ'.regs r.id = σ.regs r.id := by
  have hemits : Emits (op1 enc op2 .zero (.reg r)) _ := zeroReg_high_emits hr hhigh
  apply hemits.effect
  intro c
  refine ⟨_, rfl, ?_⟩
  have hne : num r.id ≠ num r.id &&& 7 := by
    have hhigh' : X86.highBit (num r.id) = true := hhigh
    generalize num r.id = b at hhigh'
    decide +revert
  rw [view_regs _ hr, view_regs _ hr]
  exact Function.update_of_ne hne _ _

/-- The register that should be zero is still one. -/
theorem not_meets_high {r : Reg} {visible : RegId → Prop} (hr : amd64.valid r.id = true)
    (hn : IsSize r.kind.size) (hzero : op.value (view ones) src (.reg r) = some 0) {σ' : State}
    (h : σ'.regs r.id = (view ones).regs r.id) :
    ¬ Meets visible op src (.reg r) (view ones) σ' := by
  rintro ⟨v, hv, hsets, -⟩
  rw [hzero, Option.some.injEq] at hv
  subst hv
  have hpos : 0 < r.kind.size := by
    rcases hn with h | h | h | h <;> omega
  have hbit := @read_ones (.reg r) hr rfl _ hpos
  rw [State.read, ← h] at hbit
  change (σ'.regs r.id).setWidth (8 * r.kind.size) = 0 at hsets
  rw [hsets] at hbit
  simp at hbit

/-- `AND_NOT2` of `-1` copies the constant. -/
theorem copied_wrong {c : Const} (h : Operands (Visible a.regIds) (.const c) dst)
    (hc : c.kind.extend c.val = -1) :
    ¬ Correct (op2 enc (fuel + 2) .andNot2 (.const c) dst) a
      (Meets (Visible a.regIds) .andNot2 (.const c) dst) := by
  have hop : IsArith .andNot2 := by simp [IsArith]
  have hkind : c.kind = dst.kind := h.kind
  have hint : c.kind.isInteger = true := (congrArg Kind.isInteger h.kind).trans h.integer
  have hopt := @optimize2_const .andNot2 dst c h.dst_not_const hint
  have hrule : constRules2 .andNot2 (-1) (.const ⟨-1, dst.kind⟩) dst =
      some [.op2 .mov (.const ⟨-1, dst.kind⟩) dst] := by
    simp [constRules2]
  rw [hc, hrule] at hopt
  rw [op2_rules enc (fuel + 1) hop.ne_cast (hop.kindsOk h.kind) h.dst_not_const hopt]
  have hfix : dst.kind.extend (-1) = -1 := by
    rw [← hkind, ← hc, extend_extend hint]
  let i : Instr := .op2 .mov (.const ⟨-1, dst.kind⟩) dst
  have hmov : Effect (instr enc (op2 enc (fuel + 1)) i) i.Step :=
    movConst_effect enc fuel h.dst_valid h.dst_not_const h.integer hfix (.inr rfl)
  apply (single_effect enc (op2 enc (fuel + 1)) hmov).not_correct ones
  rintro σ' ⟨u, hu, hw⟩ ⟨v, hv, hs⟩
  have hw' := (Sets.of_writes hw).unique hs
  have hread : (view ones).read dst.kind.size (.const c) = -1#(8 * dst.kind.size) :=
    (tested h.integer hint (congrArg Kind.size h.kind)).minusOne hc
  have hu' : u = -1#(8 * dst.kind.size) := by
    rw [← hread, read_const hint (congrArg Kind.size h.kind), number_const, hc]
    exact (Option.some.inj hu).symm
  have hv' : v = 0 := by
    rw [← Option.some.inj hv, hread, BitVec.neg_one_eq_allOnes]
    simp
  have hsize := isSize_of_isInteger h.integer
  rw [hu', hv'] at hw'
  exact neg_one_ne_zero' (by rcases hsize with h | h | h | h <;> omega) hw'

/-- `AND2` of zero puts zero in the register by way of a copy. -/
theorem cleared_wrong {c : Const} {r : Reg} (h : Operands (Visible a.regIds) (.const c) (.reg r))
    (hc : c.kind.extend c.val = 0) (hhigh : IsHigh (.reg r)) :
    ¬ Correct (op2 enc (fuel + 2) .and2 (.const c) (.reg r)) a
      (Meets (Visible a.regIds) .and2 (.const c) (.reg r)) := by
  have hop : IsArith .and2 := by simp [IsArith]
  have hint : c.kind.isInteger = true := (congrArg Kind.isInteger h.kind).trans h.integer
  have hopt := @optimize2_const .and2 (.reg r) c rfl hint
  have hrule : constRules2 .and2 0 (.const ⟨0, r.kind⟩) (.reg r) =
      some [.op2 .mov (.const ⟨0, r.kind⟩) (.reg r)] := by
    simp [constRules2]
  rw [hc] at hopt
  rw [op2_rules enc (fuel + 1) hop.ne_cast (hop.kindsOk h.kind) rfl (hopt.trans (congrArg _ hrule))]
  have hzero : Effect (op2 enc (fuel + 1) .mov (.const ⟨0, r.kind⟩) (.reg r))
      fun σ σ' => σ'.regs r.id = σ.regs r.id := by
    have hmov : optimize2 .mov (.const ⟨0, r.kind⟩) (.reg r) = .ok (some [.op1 .zero (.reg r)]) := by
      rw [@optimize2_const .mov (.reg r) ⟨0, r.kind⟩ rfl h.integer, extend_zero]
      rfl
    have hk : kindsOk .mov (.const ⟨0, r.kind⟩) (.reg r) = true := decide_eq_true rfl
    rw [op2_rules enc fuel (by decide) hk rfl hmov]
    exact @single_effect enc (op2 enc fuel) (.op1 .zero (.reg r)) _
      (zero_high_effect enc (op2 enc fuel) h.dst_valid hhigh)
  have hone := @single_effect enc (op2 enc (fuel + 1)) (.op2 .mov (.const ⟨0, r.kind⟩) (.reg r)) _
    hzero
  apply hone.not_correct ones
  intro σ' hsame
  have hread : (view ones).read r.kind.size (.const c) = 0 :=
    (tested h.integer hint (congrArg Kind.size h.kind)).zero hc
  apply not_meets_high h.dst_valid (isSize_of_isInteger h.integer) _ hsame
  rw [value_operation (o := .alu 4) rfl]
  change some (_ &&& _) = _
  rw [Arg.kind, hread]
  simp

/-- A register is subtracted from itself. -/
theorem self_wrong {r : Reg} (hop : op = .sub2 ∨ op = .xor2 ∨ op = .andNot2)
    (h : Operands (Visible a.regIds) (.reg r) (.reg r)) (hhigh : IsHigh (.reg r)) :
    ¬ Correct (op2 enc (fuel + 1) op (.reg r) (.reg r)) a
      (Meets (Visible a.regIds) op (.reg r) (.reg r)) := by
  have harith : IsArith op := by
    rcases hop with rfl | rfl | rfl <;> simp [IsArith]
  have hopt : optimize2 op (.reg r) (.reg r) = .ok (some [.op1 .zero (.reg r)]) := by
    rcases hop with rfl | rfl | rfl <;> simp [optimize2]
  rw [op2_rules enc fuel harith.ne_cast (harith.kindsOk rfl) rfl hopt]
  have hone := @single_effect enc (op2 enc fuel) (.op1 .zero (.reg r)) _
    (zero_high_effect enc (op2 enc fuel) h.dst_valid hhigh)
  apply hone.not_correct ones
  intro σ' hsame
  apply not_meets_high h.dst_valid (isSize_of_isInteger h.integer) _ hsame
  rcases hop with rfl | rfl | rfl
  · exact congrArg some (BitVec.sub_self _)
  · exact congrArg some BitVec.xor_self
  · exact congrArg some (BitVec.and_not_self _)

/-- The lowest bit of the negation is that of the number, not of its complement. -/
theorem not_meets_negated {visible : RegId → Prop} {r : Reg} {σ₁ σ₂ σ' : State}
    (h : Operands visible src dst) (hsc : src.isConst = false) (hr : ¬ visible r.id)
    (hsize : r.kind.size = dst.kind.size)
    (h₁ : (Instr.op2 .mov src (.reg r)).Step (view ones) σ₁)
    (h₂ : (Instr.op1 .neg1 (.reg r)).Step σ₁ σ₂) (h₃ : (Instr.op2 .and2 (.reg r) dst).Step σ₂ σ') :
    ¬ Meets visible .andNot2 src dst (view ones) σ' := by
  obtain ⟨u, hu, hw⟩ := h₁
  obtain ⟨u', hu', hw'⟩ := h₂
  have hneg : u' = -(view ones).read r.kind.size src := by
    rw [← Option.some.inj hu']
    exact congrArg Neg.neg (hw.1.trans (Option.some.inj hu).symm)
  have hboth : Writes (view ones) r.kind.size u' σ₂ (.reg r) := writes_trans hw hw'
  rw [hneg, hsize] at hboth
  have hand : operation .and2 = some (.alu 4) := rfl
  obtain ⟨w, hw, hs⟩ := sets_through hand hr h.dst_seen hboth h₃
  rintro ⟨v, hv, hs'⟩
  have heq := hs.unique hs'
  have hpos : 0 < dst.kind.size := by
    rcases isSize_of_isInteger h.integer with h | h | h | h <;> omega
  have hsrc := read_ones h.src_valid hsc hpos
  have hdst := read_ones h.dst_valid h.dst_not_const hpos
  rw [← Option.some.inj hw, ← Option.some.inj hv] at heq
  have hbit := congrArg (fun x => x.getLsbD 0) heq
  simp only [BitVec.getLsbD_and, BitVec.getLsbD_neg, BitVec.getLsbD_not, hsrc, hdst] at hbit
  simp [hpos] at hbit

/-- `AND_NOT2` of a register or memory negates where it should complement. -/
theorem negated_wrong (ha : Allocates amd64 a.regIds es) (h : Operands (Visible a.regIds) src dst)
    (hsc : src.isConst = false) (hne : src ≠ dst)
    (hfree : ∃ id, amd64.valid id = true ∧ a.regIds.inuse id = 0) :
    ¬ Correct (op2 enc (fuel + 2) .andNot2 src dst) a
      (Meets (Visible a.regIds) .andNot2 src dst) := by
  have hop : IsArith .andNot2 := by simp [IsArith]
  have hsize := isSize_of_isInteger h.integer
  have hkind := congrArg Kind.size h.kind
  have hopt := @optimize2_other .andNot2 src dst (by decide) hsc h.kind hne
  have hbody : op2 enc (fuel + 2) .andNot2 src dst = andNot2 enc (op2 enc (fuel + 1)) src dst := by
    simp only [op2, op2Body, if_neg hop.ne_cast, op2Checked, assert, hop.kindsOk h.kind,
      h.dst_not_const, hopt, if_true, pure_bind, Bool.false_eq_true, if_false]
  have hshape : andNot2 enc (op2 enc (fuel + 1)) src dst = (regAlloc src.kind >>= fun r =>
      op2 enc (fuel + 1) .mov src (.reg r) >>= fun _ =>
        op1 enc (op2 enc (fuel + 1)) .neg1 (.reg r) >>= fun _ =>
          op2 enc (fuel + 1) .and2 (.reg r) dst >>= fun _ => regFree r) := by
    cases src with
    | const c => simp [Arg.isConst] at hsc
    | reg r => rfl
    | mem m => rfl
  rw [hbody, hshape]
  apply not_correct_alloc ha hfree ones
  intro id hid hzero
  have hhidden : ¬ Visible a.regIds id := not_visible id hid hzero
  have hsrc : ∀ s : Reg, src = .reg s → s.id ≠ id := by
    rintro s rfl rfl
    exact hhidden h.src_seen
  have hdst : ∀ d : Reg, dst = .reg d → id ≠ d.id := by
    rintro d rfl rfl
    exact hhidden h.dst_seen
  let r : Reg := ⟨id, src.kind⟩
  have hr : ValidArg (.reg r) := hid
  have hrsize : IsSize r.kind.size := by
    change IsSize src.kind.size
    rwa [hkind]
  have hmov := mov_effect enc fuel h.src_valid hsc hid hrsize rfl hsrc
  have hneg := @op1_effect enc (op2 enc (fuel + 1)) .neg1 _ rfl _ hr rfl hrsize
  have hand : Effect (op2 enc (fuel + 1) .and2 (.reg r) dst) (Instr.op2 .and2 (.reg r) dst).Step := by
    have hplain : IsPlain .and2 := by simp [IsPlain]
    have hk : kindsOk .and2 (.reg r) dst = true := decide_eq_true h.kind
    rw [op2_plain enc fuel hplain hk h.dst_not_const (@optimize2_reg .and2 dst r hdst)]
    cases dst with
    | const c => cases h.dst_not_const
    | reg d => exact op2RegReg_effect enc rfl hid h.dst_valid hsize hkind
    | mem m => exact op2RegMem_effect enc rfl hid h.dst_valid hsize hkind
  refine ⟨_, _, ?_, hmov.bind (hneg.bind hand), ?_⟩
  · simp only [bind_assoc]
    rfl
  rintro σ' ⟨σ₁, h₁, σ₂, h₂, h₃⟩
  exact not_meets_negated h hsc hhidden hkind h₁ h₂ h₃

/-- The opcode is missing. -/
theorem lacking_wrong {c : Const} {r : Reg} (hop : IsArith op)
    (h : Operands (Visible a.regIds) (.const c) (.reg r))
    (hrule : ¬ HasRule op (c.kind.extend c.val)) (hno : Unencoded (immediate op c) (.reg r)) :
    ¬ Correct (op2 enc (fuel + 1) op (.const c) (.reg r)) a
      (Meets (Visible a.regIds) op (.const c) (.reg r)) := by
  obtain ⟨hsize, hrsp, hfits⟩ := hno
  have hkind : c.kind = r.kind := h.kind
  have hint : c.kind.isInteger = true := (congrArg Kind.isInteger h.kind).trans h.integer
  have hopt : optimize2 op (.const c) (.reg r) = .ok none := by
    rw [optimize2_const rfl hint, (constRules2_none_iff hop _).mpr hrule]
  have hv : amd64.valid r.id = true := h.dst_valid
  have hnot : ¬ r.id < rsp := BitVec.not_lt.mpr hrsp
  have hb : ¬ num r.id < 4 := by rwa [← lt_rsp_iff hv]
  have hrax : r.id ≠ rax := by
    rintro heq
    rw [heq] at hrsp
    exact absurd hrsp (by decide)
  -- what the encoder of the constant emits
  have hcode : ∀ (op : Op2) (k : BitVec 3) (c : Const), operation op = some (.alu k) →
      Fits 1 c.val → op2Args enc (op2 enc fuel) op (.const c) (.reg r) =
        bytes (unencodedBytes k (num r.id) (c.val.setWidth 8)) := by
    intro op k c ho hfits
    have hother := not_other ho
    simp only [op2Args, op2ConstReg, if_neg (op2Val_alu ho).2, hother.1, assert, hother.2, ne_eq,
      not_false_eq_true, decide_true, if_true, pure_bind, Bool.false_eq_true, if_false, hsize,
      op2ConstReg8, op2val_eq ho, lohi, lohiId_eq hv, if_pos hfits, if_neg hrax, if_neg hnot,
      (op2Val_alu ho).1]
    rfl
  by_cases hand : op = .andNot2
  · subst hand
    have hbody : op2 enc (fuel + 1) .andNot2 (.const c) (.reg r) =
        op2Args enc (op2 enc fuel) .and2 (.const ⟨~~~c.val, c.kind⟩) (.reg r) := by
      simp only [op2, op2Body, if_neg hop.ne_cast, op2Checked, assert, hop.kindsOk h.kind,
        h.dst_not_const, hopt, if_true, pure_bind, Bool.false_eq_true, if_false, andNot2]
    rw [hbody]
    exact unencoded_wrong (hcode .and2 4 _ rfl hfits) (by decide) hb
      (fun hsix => absurd hsix (by decide)) fun c' _ hsix => absurd hsix (by decide)
  · obtain ⟨hplain, -, k, ho⟩ := hop.plain hand
    rw [op2_plain enc fuel hplain (hop.kindsOk h.kind) rfl hopt]
    rw [immediate, if_neg hand] at hfits
    have hk : k = 0 ∨ k = 1 ∨ k = 4 ∨ k = 5 ∨ k = 6 := by
      rcases hop with rfl | rfl | rfl | rfl | rfl | rfl <;> cases ho <;> simp
    apply unencoded_wrong (hcode op k c ho hfits) hk hb
    · rintro - hzero
      apply hrule
      rw [hfits, hzero]
      exact .inl (extend_zero c.kind)
    · rintro c' ⟨v, hv', hs, -⟩ rfl
      rw [value_operation ho] at hv'
      have hsets : (c'.regs (num r.id)).setWidth (8 * r.kind.size) =
          (ones.regs (num r.id)).setWidth (8 * r.kind.size) ^^^ c.val.setWidth (8 * r.kind.size) := by
        rw [← view_regs _ hv, ← view_regs _ hv]
        exact hs.trans (Option.some.inj hv').symm
      rw [hsize] at hsets
      exact hsets

end Wrong

/-- Whatever the operands and the registers in use, the code of `op2` for addition, subtraction and
the bitwise operations leaves the result in the destination and changes nothing else that the user
sees, or there is no code and an error, except for the operands that are `Wrong`. -/
theorem op2_iff (enc : Encoders) (fuel : Nat) (op : Op2) (src dst : Arg) (a : Asm)
    (es : List Event) (hop : IsArith op) (ha : Allocates amd64 a.regIds es)
    (h : Operands (Visible a.regIds) src dst) :
    Correct (op2 enc (fuel + 2) op src dst) a (Meets (Visible a.regIds) op src dst) ↔
      ¬ Wrong a.regIds op src dst := by
  constructor
  · intro hcorrect hwrong
    by_cases hsc : src.isConst = false
    · by_cases hsame : src = dst
      · subst hsame
        obtain ⟨hclear, hhigh⟩ := (wrong_same hsc).mp hwrong
        cases src with
        | const c => cases hsc
        | reg r => exact self_wrong enc (fuel + 1) hclear h hhigh hcorrect
        | mem m => exact hhigh
      · obtain ⟨rfl, hfree⟩ := (wrong_other hsc hsame).mp hwrong
        exact negated_wrong enc fuel ha h hsc hsame hfree hcorrect
    · cases src with
      | reg r => exact hsc rfl
      | mem m => exact hsc rfl
      | const c =>
        rcases hwrong with ⟨rfl, hc⟩ | ⟨rfl, hc, hhigh⟩ | ⟨hrule, hno⟩
        · exact copied_wrong enc fuel h hc hcorrect
        · cases dst with
          | reg r => exact cleared_wrong enc fuel h hc hhigh hcorrect
          | const c => exact hhigh
          | mem m => exact hhigh
        · cases dst with
          | reg r => exact lacking_wrong enc (fuel + 1) hop h hrule hno hcorrect
          | const c => exact hno
          | mem m => exact hno
  · intro hno
    by_cases hsc : src.isConst = false
    · by_cases hsame : src = dst
      · subst hsame
        exact op2_same_correct enc fuel hop ha h hno
      · exact op2_other_correct enc (fuel + 1) hop ha h hsc hsame hno
    · cases src with
      | reg r => exact absurd rfl hsc
      | mem m => exact absurd rfl hsc
      | const c =>
        by_cases hrule : HasRule op (c.kind.extend c.val)
        · exact op2_rule_correct enc fuel hop h hrule hno
        · exact op2_const_correct enc (fuel + 1) hop ha h hrule fun hun =>
            hno (.inr (.inr ⟨hrule, hun⟩))

/-- Encoders that are not called. -/
def noEncoders : Encoders := ⟨fun _ _ _ => errorf "unused", fun _ => errorf "unused"⟩

def r8 : RegId := 0x109

/-- `R8` is in use. -/
def inUse : RegIds := ((RegIds.init amd64).incUse amd64 r8).2

theorem allocates_inUse : Allocates amd64 inUse [.incUse r8] :=
  .incUse .init ⟨by decide, by decide⟩

theorem operands_r8 : Operands (Visible inUse) (.reg ⟨r8, .uint64⟩) (.reg ⟨r8, .uint64⟩) := by
  have hseen : Visible inUse r8 := ⟨by decide, by decide⟩
  exact ⟨hseen.1, hseen.1, hseen, hseen, rfl, rfl, rfl⟩

theorem op2_iff_r8 :
    Correct (op2 noEncoders 2 .add2 (.reg ⟨r8, .uint64⟩) (.reg ⟨r8, .uint64⟩)) ⟨[], inUse⟩
        (Meets (Visible inUse) .add2 (.reg ⟨r8, .uint64⟩) (.reg ⟨r8, .uint64⟩)) ↔
      ¬ Wrong inUse .add2 (.reg ⟨r8, .uint64⟩) (.reg ⟨r8, .uint64⟩) :=
  op2_iff noEncoders 0 .add2 _ _ ⟨[], inUse⟩ [.incUse r8] (.inl rfl) allocates_inUse operands_r8

/-- `SUB2` of `R8` from itself changes `RAX` instead. -/
theorem not_op2 : ¬ ∀ (enc : Encoders) (fuel : Nat) (op : Op2) (src dst : Arg) (a : Asm)
    (es : List Event), IsArith op → Allocates amd64 a.regIds es →
      Operands (Visible a.regIds) src dst →
      Correct (op2 enc (fuel + 2) op src dst) a (Meets (Visible a.regIds) op src dst) := by
  intro hall
  have hhigh : IsHigh (.reg ⟨r8, .uint64⟩) := by
    change X86.highBit (num r8) = true
    decide
  exact @self_wrong noEncoders .sub2 ⟨[], inUse⟩ 1 ⟨r8, .uint64⟩ (.inl rfl) operands_r8 hhigh
    (hall noEncoders 0 .sub2 _ _ ⟨[], inUse⟩ _ (.inr (.inl rfl)) allocates_inUse operands_r8)

end OneJit.GoJit.Amd64
