import OneJit.GoJit.Amd64ShiftVar

/-!
# Three-argument instructions of amd64

The encoder of `op3.go` puts the first argument in a register and applies the two-argument
instruction there. That register is the destination, unless the second argument uses it.
-/

namespace OneJit.GoJit.Amd64

open X86 (Cpu IsSize)

/-! ## The encoder

`op2` is the encoder of two-argument instructions. The encoders of `mul.go`, `div.go` and of indexed
access are the parameter `enc3`. -/

/-- `Op2(op)`. -/
def Op3.toOp2 : Op3 → Option Op2
  | .add3 => some .add2
  | .sub3 => some .sub2
  | .adc3 => some .adc2
  | .sbb3 => some .sbb2
  | .mul3 => some .mul2
  | .div3 => some .div2
  | .rem3 => some .rem2
  | .and3 => some .and2
  | .or3 => some .or2
  | .xor3 => some .xor2
  | .shl3 => some .shl2
  | .shr3 => some .shr2
  | .andNot3 => some .andNot2
  | .land3 => some .land2
  | .lor3 => some .lor2
  | .getidx | .setidx => none

def checkKinds3 (op : Op3) (a b dst : Arg) : Emit Unit :=
  match op with
  | .shl3 | .shr3 => do
    assert (a.kind = dst.kind)
    assert !b.kind.signed
  | .setidx | .getidx => assert (a.kind.size = 8)
  | _ =>
    if a.kind ≠ dst.kind ∨ b.kind ≠ dst.kind then
      errorf "Amd64.op3: arguments a, b, dst must have the same kind"
    else pure ()

section Encoder

variable (enc : Encoders) (enc3 : Op3 → Arg → Arg → Arg → Emit Unit)
  (op2 : Op2 → Arg → Arg → Emit Unit)

/-- The operation in a register of its own. -/
def op3Temp (op : Op2) (a b dst : Arg) : Emit Unit := do
  let r ← regAlloc dst.kind
  op2 .mov a (.reg r)
  op2 op b (.reg r)
  op2 .mov (.reg r) dst
  regFree r

/-- What `op3` does for the operations without an encoder of their own. -/
def op3Args (commutative : Bool) (op : Op2) (a b dst : Arg) : Emit Unit :=
  if a = dst then op2 op b dst
  else if commutative ∧ b = dst then op2 op a dst
  else
    match dst with
    | .reg r =>
      if r.id ≠ b.regId then do
        op2 .mov a dst
        op2 op b dst
      else op3Temp op2 op a b dst
    | dst => op3Temp op2 op a b dst

def op3 (op : Op3) (a b dst : Arg) : Emit Unit := do
  checkKinds3 op a b dst
  if dst.isConst ∧ op ≠ .setidx then errorf "destination cannot be a constant"
  else
    match optimize3 op a b dst with
    | .error msg => errorf msg
    | .ok (some is) => is.forM (instr enc op2)
    | .ok none =>
      if op = .mul3 ∨ op = .div3 ∨ op = .rem3 then enc3 op a b dst
      else
        match Op3.toOp2 op with
        | none => enc3 op a b dst
        | some o => op3Args op2 op.isCommutative o a b dst

/-- The two- and three-argument shift. -/
def IsShift (op : Op2) (op3 : Op3) : Prop := op = .shl2 ∧ op3 = .shl3 ∨ op = .shr2 ∧ op3 = .shr3

/-- No rule simplifies a shift by a variable count. -/
theorem op3_shift {op : Op2} {o : Op3} (hop : IsShift op o) {x count dst : Arg}
    (hkind : x.kind = dst.kind) (hu : count.kind.signed = false) (hc : count.isConst = false)
    (hdc : dst.isConst = false) :
    op3 enc enc3 op2 o x count dst = op3Args op2 false op x count dst := by
  have hopt : optimize3 o x count dst = .ok none := by
    rcases hop with ⟨-, rfl⟩ | ⟨-, rfl⟩ <;> cases x <;> cases count <;>
      simp_all [optimize3, Op3.isCommutative, Arg.isConst]
  rcases hop with ⟨rfl, rfl⟩ | ⟨rfl, rfl⟩ <;>
    simp [op3, checkKinds3, assert, hkind, hu, hdc, hopt, Op3.toOp2, Op3.isCommutative]

end Encoder

/-! ## Copies to a register -/

/-- The constant does not fit in the move instruction. -/
def Overflows (t : Reg) : Arg → Prop
  | .const c => c.kind.extend c.val ≠ 0 ∧ ¬ Fits t.kind.size c.val
  | _ => False

/-- The argument is a zero, and the register is one that zero cannot be put in. -/
def MissesZero (t : Reg) : Arg → Prop
  | .const c => c.kind.extend c.val = 0 ∧ IsHigh (.reg t)
  | _ => False

/-- What happens there instead: another register is changed. -/
def XorsLow (t : Reg) (σ σ' : State) : Prop :=
  ∃ low : Reg, amd64.valid low.id = true ∧ num low.id = num t.id &&& 7 ∧
    Writes σ 8 ((σ.regs low.id ^^^ σ.regs t.id).setWidth (8 * 8)) σ' (.reg low)

section Copies

variable (enc : Encoders) (fuel : Nat) {x : Arg} {t : Reg}

theorem movConst_reg {c : Const} (hint : c.kind.isInteger = true) (hkind : c.kind = t.kind) :
    op2 enc (fuel + 1) .mov (.const c) (.reg t) =
      if c.kind.extend c.val = 0 then
        [Instr.op1 .zero (.reg t)].forM (instr enc (op2 enc fuel))
      else movConstReg c t := by
  have hk : kindsOk .mov (.const c) (.reg t) = true := decide_eq_true (congrArg Kind.size hkind)
  have hopt := @optimize2_const .mov (.reg t) c rfl hint
  by_cases hzero : c.kind.extend c.val = 0
  · rw [if_pos hzero]
    have hrule : optimize2 .mov (.const c) (.reg t) = .ok (some [.op1 .zero (.reg t)]) :=
      hopt.trans (congrArg _ (if_pos hzero))
    exact op2_rules enc fuel (by decide) hk rfl hrule
  · rw [if_neg hzero]
    have hrule : optimize2 .mov (.const c) (.reg t) = .ok none :=
      hopt.trans (congrArg _ (if_neg hzero))
    rw [op2_plain enc fuel (by simp [IsPlain]) hk rfl hrule]
    simp only [op2Args, op2ConstReg, if_true]

theorem copy_effect (hx : ValidArg x) (ht : amd64.valid t.id = true)
    (hint : t.kind.isInteger = true) (hkind : x.kind = t.kind) (hne : x ≠ .reg t)
    (hover : ¬ Overflows t x) (hmiss : ¬ MissesZero t x) :
    Effect (op2 enc (fuel + 1) .mov x (.reg t)) (Instr.op2 .mov x (.reg t)).Step := by
  have hn := isSize_of_isInteger hint
  cases x with
  | reg s =>
    apply mov_effect enc fuel hx rfl ht hn (congrArg Kind.size hkind)
    rintro r ⟨rfl⟩ hid
    obtain ⟨id, k⟩ := s
    obtain ⟨id', k'⟩ := t
    cases hid
    cases hkind
    exact hne rfl
  | mem m =>
    exact mov_effect enc fuel hx rfl ht hn (congrArg Kind.size hkind) fun s hs => by cases hs
  | const c =>
    have hcint : c.kind.isInteger = true := (congrArg Kind.isInteger hkind).trans hint
    have hsize : c.kind.size = t.kind.size := congrArg Kind.size hkind
    rw [movConst_reg enc fuel hcint hkind]
    by_cases hzero : c.kind.extend c.val = 0
    · rw [if_pos hzero]
      have hlow : ¬ IsHigh (.reg t) := fun hhigh => hmiss ⟨hzero, hhigh⟩
      have he : Effect (instr enc (op2 enc fuel) (.op1 .zero (.reg t)))
          (Instr.op1 .zero (.reg t)).Step :=
        @zero_effect enc (op2 enc fuel) (.reg t) ht rfl hn hlow
      apply (single_effect enc (op2 enc fuel) he).mono
      rintro σ σ' ⟨v, hv, hw⟩
      refine ⟨v, ?_, hw⟩
      have hread : σ.read t.kind.size (.const c) = 0 := by
        rw [read_const hcint hsize, number_const, hzero]
        exact BitVec.setWidth_zero _ _
      exact (congrArg some hread).trans hv
    · rw [if_neg hzero]
      have hfits : Fits t.kind.size c.val := Classical.not_not.mp fun hno => hover ⟨hzero, hno⟩
      have hne' : c.val ≠ 0 := fun h => hzero (by rw [h, extend_zero])
      exact @effect_imm .mov .mov _ c (.reg t) rfl ht rfl hn (movConstReg_emits ht hn hfits hne')

theorem copy_overflows (ht : amd64.valid t.id = true) (hint : t.kind.isInteger = true)
    (hkind : x.kind = t.kind) (hover : Overflows t x) :
    ∃ msg, op2 enc (fuel + 1) .mov x (.reg t) = errorf msg := by
  cases x with
  | reg s => exact absurd hover id
  | mem m => exact absurd hover id
  | const c =>
    obtain ⟨hzero, hfits⟩ := hover
    have hne : c.val ≠ 0 := fun h => hzero (by rw [h, extend_zero])
    rw [movConst_reg enc fuel ((congrArg Kind.isInteger hkind).trans hint) hkind, if_neg hzero,
      movConstReg, if_neg hne]
    have hn := isSize_of_isInteger hint
    generalize t.kind.size = n at hn hfits ⊢
    rcases hn with rfl | rfl | rfl | rfl
    · refine ⟨"sign-extended constant overflows 8-bit destination", ?_⟩
      simp only [movConstReg8, lohi, lohiId_eq ht, pure_bind, if_neg hfits]
    · refine ⟨"sign-extended constant overflows 16-bit destination", ?_⟩
      simp only [movConstReg16, lohi, lohiId_eq ht, pure_bind, if_neg hfits]
    · refine ⟨"sign-extended constant overflows 16-bit destination", ?_⟩
      simp only [movConstReg32, lohi, lohiId_eq ht, pure_bind, if_neg hfits]
    · have hwhole : Fits 8 c.val := by
        have hwidth : c.val.setWidth 64 = c.val := BitVec.setWidth_eq _
        change c.val = (c.val.setWidth 64).signExtend 64
        rw [hwidth, BitVec.signExtend_eq]
      exact absurd hwhole hfits

/-- The register with the low bits of this one's number. -/
theorem exists_low (t : Reg) : ∃ low : Reg, amd64.valid low.id = true ∧
    num low.id = num t.id &&& 7 := by
  have hlow : ∀ b : BitVec 4, amd64.valid (amd64.rlo + (b &&& 7).setWidth 16) = true ∧
      num (amd64.rlo + (b &&& 7).setWidth 16) = b &&& 7 := by
    decide
  exact ⟨⟨_, t.kind⟩, hlow (num t.id)⟩

theorem copy_misses (ht : amd64.valid t.id = true) (hint : t.kind.isInteger = true)
    (hkind : x.kind = t.kind) (hmiss : MissesZero t x) :
    Effect (op2 enc (fuel + 1) .mov x (.reg t)) (XorsLow t) := by
  cases x with
  | reg s => exact absurd hmiss id
  | mem m => exact absurd hmiss id
  | const c =>
    obtain ⟨hzero, hhigh⟩ := hmiss
    rw [movConst_reg enc fuel ((congrArg Kind.isInteger hkind).trans hint) hkind, if_pos hzero]
    have hemits : Emits (instr enc (op2 enc fuel) (.op1 .zero (.reg t))) _ :=
      zeroReg_high_emits ht hhigh
    refine single_effect enc (op2 enc fuel) (hemits.effect fun c => ⟨_, rfl, ?_⟩)
    obtain ⟨low, hlow, hnum⟩ := exists_low t
    refine ⟨low, hlow, hnum, ?_⟩
    rw [view_regs _ hlow, view_regs _ ht, ← hnum]
    exact writes_update hlow (X86.setWidth_merge (by decide) _ _)

end Copies

/-! ## Shifts in a register of their own -/

/-- The result is in the destination. -/
def CopiedBack (t : Reg) (dst : Arg) (σ σ' : State) : Prop :=
  .reg t = dst ∧ σ' = σ ∨ .reg t ≠ dst ∧ (Instr.op2 .mov (.reg t) dst).Step σ σ'

/-- The value is moved to a register, is shifted there, and is copied to the destination. -/
def Stages (op : Op2) (count : Arg) (t : Reg) (dst : Arg) (moved : State → State → Prop)
    (σ σ' : State) : Prop :=
  ∃ σ₁, moved σ σ₁ ∧ ∃ σ₃, (∃ σ₂, CountMoved count σ₁ σ₂ ∧ ShiftsCl op (.reg t) σ₂ σ₃) ∧
    CopiedBack t dst σ₃ σ'

/-- A register that the value may be shifted in. -/
structure IsStage (visible : RegId → Prop) (count dst : Arg) (id : RegId) : Prop where
  valid : amd64.valid id = true
  ne_count : count.regId ≠ id
  not_kept : ¬ Kept visible dst id

section Stages

variable (enc : Encoders) (f : Op2 → Arg → Arg → Emit Unit) (fuel : Nat)
  {visible : RegId → Prop} {op : Op2} {x count dst : Arg} {id : RegId}
  {moved : State → State → Prop}

/-- The code of `op3` but for the allocation of the register. -/
def stageCode (op2 : Op2 → Arg → Arg → Emit Unit) (op : Op2) (x count : Arg) (t : Reg)
    (dst : Arg) : Emit Unit := do
  op2 .mov x (.reg t)
  op2 op count (.reg t)
  if .reg t = dst then pure () else op2 .mov (.reg t) dst

theorem copyBack_effect (h : ShiftOperands visible count dst) (hs : IsStage visible count dst id) :
    Effect (if .reg ⟨id, dst.kind⟩ = dst then pure ()
      else op2 enc (fuel + 1) .mov (.reg ⟨id, dst.kind⟩) dst) (CopiedBack ⟨id, dst.kind⟩ dst) := by
  have hn := isSize_of_isInteger h.integer
  split_ifs with heq
  · exact effect_pure.mono fun σ σ' hσ => .inl ⟨heq, hσ⟩
  · refine Effect.mono ?_ fun σ σ' hσ => .inr ⟨heq, hσ⟩
    have hd := h.dst_valid
    have hdc := h.dst_not_const
    cases dst with
    | const c => cases hdc
    | reg d =>
      exact @copy_effect enc fuel (.reg ⟨id, d.kind⟩) d hs.valid hd h.integer rfl heq (fun h => h)
        (fun h => h)
    | mem m =>
      have hopt : optimize2 .mov (.reg ⟨id, m.reg.kind⟩) (.mem m) = .ok none :=
        optimize2_reg fun d hd => by cases hd
      have hk : kindsOk .mov (.reg ⟨id, m.reg.kind⟩) (.mem m) = true := decide_eq_true rfl
      have hcode := op2_plain enc fuel (by simp [IsPlain]) hk rfl hopt
      change Effect (op2 enc (fuel + 1) .mov (.reg ⟨id, m.reg.kind⟩) (.mem m)) _
      rw [hcode]
      exact op2RegMem_effect enc rfl hs.valid hd hn rfl

theorem stage_effect (hop : op = .shl2 ∨ op = .shr2) (h : ShiftOperands visible count dst)
    (hs : IsStage visible count dst id) (hrcx : id ≠ rcx)
    (hmoved : Effect (op2 (enc.withShifts f) (fuel + 1) .mov x (.reg ⟨id, dst.kind⟩)) moved) :
    Effect (stageCode (op2 (enc.withShifts f) (fuel + 1)) op x count ⟨id, dst.kind⟩ dst)
      (Stages op count ⟨id, dst.kind⟩ dst moved) := by
  have hok : ¬ ShiftFails count (.reg ⟨id, dst.kind⟩) := by
    rintro (heq | ⟨hmem, -⟩)
    · exact hrcx heq
    · cases hmem
  have hshift := @shiftArgs_effect enc f op count (.reg ⟨id, dst.kind⟩) hop h.count_valid
    h.count_not_const hs.valid rfl (isSize_of_isInteger h.count_integer)
    (isSize_of_isInteger h.integer) hok
  rw [← op2_shift enc f hop h.count_not_const rfl h.unsigned fuel] at hshift
  exact hmoved.bind (hshift.bind (copyBack_effect (enc.withShifts f) fuel h hs))

variable {σ σ₁ σ' : State}

/-- A write to a register that the operand does not use. -/
theorem read_of_ne {n m : Nat} {v : BitVec (8 * n)} {t : Reg} {a : Arg}
    (h : Writes σ n v σ₁ (.reg t)) (hne : a.regId ≠ t.id) : σ₁.read m a = σ.read m a := by
  have hhidden : Hidden (· ≠ t.id) σ σ₁ := .of_writes h fun hno => hno rfl
  apply hhidden.read
  cases a with
  | const c => trivial
  | reg r => exact hne
  | mem m => exact hne

theorem number_of_ne {n : Nat} {v : BitVec (8 * n)} {t : Reg} {a : Arg}
    (h : Writes σ n v σ₁ (.reg t)) (hne : a.regId ≠ t.id) : σ₁.number a = σ.number a := by
  rw [State.number, State.number, read_of_ne h hne]

/-- A write to the destination after changes that the user does not see otherwise. -/
theorem sets_of_hidden {n : Nat} {v : BitVec (8 * n)} (h : Hidden (Kept visible dst) σ σ₁)
    (hdst : Seen visible dst) (hw : Writes σ₁ n v σ' dst) : Sets visible σ n v σ' dst := by
  cases dst with
  | const c => exact hw
  | mem m => exact Hidden.sets h hdst (.of_writes hw)
  | reg d =>
    refine ⟨hw.1, fun id hid hne => ?_, hw.2.2.trans h.mem⟩
    exact (hw.2.1 id hne).trans (h.regs id ⟨hid, hne⟩)

/-- The shift in a register, from the state in which the value is there. -/
theorem shifted_of_stages {σ₂ σ₃ : State} (h : ShiftOperands visible count dst)
    (hs : IsStage visible count dst id) (hrcx : id ≠ rcx)
    (hclob : IsRcx count ∨ ¬ Kept visible dst rcx)
    (hmoved : CountMoved count σ₁ σ₂) (hshift : ShiftsCl op (.reg ⟨id, dst.kind⟩) σ₂ σ₃)
    (hlt : (σ₁.number count).toNat < 8 * dst.kind.size) :
    σ₃.read dst.kind.size (.reg ⟨id, dst.kind⟩) =
        rawShift op (σ₁.number count).toNat
          (σ₁.read dst.kind.size (.reg ⟨id, dst.kind⟩)) ∧
      Hidden (Kept visible dst) σ₁ σ₃ := by
  have hclob' : IsRcx count ∨ ¬(Kept visible dst rcx ∨ rcx = id) :=
    hclob.imp_right fun hno hor => hor.elim hno fun heq => hrcx heq.symm
  obtain ⟨hvalue, hregs, hmem⟩ := @sets_of_moved (fun r => Kept visible dst r ∨ r = id) op count
    (.reg ⟨id, dst.kind⟩) σ₁ σ₂ σ₃ hmoved hshift h.unsigned (isSize_of_isInteger h.count_integer)
    (isSize_of_isInteger h.integer) (.inr rfl) hclob' hlt
  refine ⟨hvalue, fun r hr => ?_, hmem⟩
  exact hregs r (.inl hr) fun heq : r = id => hs.not_kept (heq ▸ hr)

theorem Stages.sets (h : ShiftOperands visible count dst) (hs : IsStage visible count dst id)
    (hrcx : id ≠ rcx) (hclob : IsRcx count ∨ ¬ Kept visible dst rcx)
    (hst : Stages op count ⟨id, dst.kind⟩ dst (Instr.op2 .mov x (.reg ⟨id, dst.kind⟩)).Step σ σ')
    (hlt : (σ.number count).toNat < 8 * dst.kind.size) :
    Sets visible σ dst.kind.size
      (rawShift op (σ.number count).toNat (σ.read dst.kind.size x)) σ' dst := by
  obtain ⟨σ₁, ⟨v, hv, hw⟩, σ₃, ⟨σ₂, hmoved, hshift⟩, hback⟩ := hst
  have hnumber := number_of_ne hw hs.ne_count
  rw [← hnumber] at hlt ⊢
  obtain ⟨hvalue, hhidden⟩ := shifted_of_stages h hs hrcx hclob hmoved hshift hlt
  have hread : σ₁.read dst.kind.size (.reg ⟨id, dst.kind⟩) = σ.read dst.kind.size x :=
    hw.1.trans (Option.some.inj hv).symm
  rw [hread] at hvalue
  have hall : Hidden (Kept visible dst) σ σ₃ := (Hidden.of_writes hw hs.not_kept).trans hhidden
  apply sets_of_hidden hall h.dst_seen
  rw [← hvalue]
  rcases hback with ⟨heq, rfl⟩ | ⟨-, u, hu, hwu⟩
  · rw [heq]
    exact (writes_self _ h.dst_not_const).mpr rfl
  · obtain rfl := Option.some.inj hu
    exact hwu

end Stages

/-! ## Where the code goes wrong -/

/-- The state in which this register and the one with its low bits are one and everything else is
zero. -/
def lowOnes (t : Reg) : Cpu :=
  ⟨fun b => if b = num t.id ∨ b = num t.id &&& 7 then 1 else 0, fun _ => 0⟩

section Wrong

variable {visible : RegId → Prop} {op : Op2} {x count dst : Arg} {id : RegId} {σ σ' : State}
  {n : Nat} {v : BitVec (8 * n)} {moved : State → State → Prop}

theorem read_after_writes (h : Writes σ n v σ' dst) : σ'.read n dst = v := by
  cases dst with
  | const c => exact absurd h id
  | reg d => exact h.1
  | mem m =>
    have haddr : σ'.addr m = σ.addr m := by rw [State.addr, State.addr, h.2.1]
    rw [State.read, haddr]
    exact h.1

theorem Sets.read_after (h : Sets visible σ n v σ' dst) (hdst : Seen visible dst) :
    σ'.read n dst = v := by
  cases dst with
  | const c => exact absurd h id
  | reg d => exact h.1
  | mem m =>
    have haddr : σ'.addr m = σ.addr m := by rw [State.addr, State.addr, h.2.1 m.reg.id hdst]
    rw [State.read, haddr]
    exact h.1

theorem Kept.mono {visible' : RegId → Prop} (h : Kept visible dst id)
    (himp : visible id → visible' id) : Kept visible' dst id := by
  cases dst with
  | const c => exact himp h
  | mem m => exact himp h
  | reg d => exact ⟨himp h.1, h.2⟩

theorem CopiedBack.read_after {t : Reg} (h : CopiedBack t dst σ σ') :
    σ'.read dst.kind.size dst = σ.read dst.kind.size (.reg t) := by
  rcases h with ⟨rfl, rfl⟩ | ⟨-, u, hu, hw⟩
  · rfl
  · exact (read_after_writes hw).trans (Option.some.inj hu).symm

theorem CopiedBack.kept {t : Reg} (h : CopiedBack t dst σ σ') (hid : Kept visible dst id) :
    σ'.regs id = σ.regs id := by
  rcases h with ⟨-, rfl⟩ | ⟨-, u, -, hw⟩
  · rfl
  · have hall : Sets (fun _ => True) σ dst.kind.size u σ' dst := .of_writes hw
    exact hall.kept (hid.mono fun _ => trivial)

/-- A shift in a register of its own leaves the count in `RCX`. -/
theorem Stages.rcx {c : Cpu} (h : ShiftOperands visible count dst) (hrcx : id ≠ rcx)
    (hvis : Kept visible dst rcx)
    (hmoved : ∀ σ₁, moved (view c) σ₁ → σ₁.number count = 0)
    (hst : Stages op count ⟨id, dst.kind⟩ dst moved (view c) σ') :
    (σ'.regs rcx).setWidth 8 = 0#8 := by
  obtain ⟨σ₁, hcopy, σ₃, ⟨σ₂, hcount, hshift⟩, hback⟩ := hst
  have hlow := rcx_of_moved hcount hshift h.unsigned (isSize_of_isInteger h.count_integer) hrcx
  rw [hmoved σ₁ hcopy] at hlow
  rw [hback.kept hvis]
  exact hlow

/-- From the state in which only `RCX` is not zero, the other register is not changed. -/
theorem XorsLow.number (hid : amd64.valid id = true) (hrcx : id ≠ rcx) {k : Kind}
    (h : XorsLow ⟨id, k⟩ (view rcxTwo) σ') : σ'.number count = (view rcxTwo).number count := by
  obtain ⟨low, hlow, -, hw⟩ := h
  have hzero : (view rcxTwo).regs id = 0 := by
    rw [view_regs _ hid]
    exact if_neg fun heq => hrcx (num_inj hid (by decide) heq)
  have hsame : σ'.regs = (view rcxTwo).regs := by
    funext r
    by_cases hr : r = low.id
    · have hval := hw.1
      simp only [hzero, BitVec.setWidth_eq] at hval
      rw [hr]
      exact hval.trans BitVec.xor_zero
    · exact hw.2.1 r hr
  have hstate : σ' = view rcxTwo := congrArg₂ State.mk hsame hw.2.2
  rw [hstate]

theorem ne_low {t low : Reg} (hmiss : MissesZero t x) (hnum : num low.id = num t.id &&& 7) :
    t.id ≠ low.id := by
  have hhigh : X86.highBit (num t.id) = true := by
    cases x with
    | const c => exact hmiss.2
    | reg r => exact absurd hmiss False.elim
    | mem m => exact absurd hmiss False.elim
  have hdiff : ∀ b : BitVec 4, X86.highBit b = true → b ≠ b &&& 7 := by decide
  exact fun heq => hdiff _ hhigh ((congrArg num heq).trans hnum)

theorem read_zero {t : Reg} (hmiss : MissesZero t x) (hkind : x.kind = t.kind)
    (hint : t.kind.isInteger = true) : σ.read t.kind.size x = 0 := by
  cases x with
  | reg r => exact absurd hmiss False.elim
  | mem m => exact absurd hmiss False.elim
  | const c =>
    rw [read_const ((congrArg Kind.isInteger hkind).trans hint) (congrArg Kind.size hkind),
      number_const, hmiss.1]
    exact BitVec.setWidth_zero _ _

theorem goShift_zero (k : Kind) (w m : Nat) : goShift op k m (0 : BitVec w) = 0 := by
  unfold goShift
  split_ifs <;> simp

theorem rawShift_none {w : Nat} {y : BitVec w} : rawShift op 0 y = y := by
  unfold rawShift
  split_ifs <;> simp

theorem number_lowOnes (t : Reg) (hv : ValidArg count) (hc : count.isConst = false)
    (hu : count.kind.signed = false) : ((view (lowOnes t)).number count).toNat ≤ 1 := by
  have hread : ((view (lowOnes t)).read count.kind.size count).toNat ≤ 1 := by
    cases count with
    | const c => cases hc
    | mem m =>
      have hzero : (view (lowOnes t)).read m.reg.kind.size (.mem m) = 0 :=
        load_zero (fun _ => rfl) _ _
      simp [Arg.kind, hzero]
    | reg r =>
      have hle : ((lowOnes t).regs (num r.id)).toNat ≤ 1 := by
        simp only [lowOnes]
        split_ifs <;> decide
      rw [State.read, view_regs _ hv, BitVec.toNat_setWidth]
      exact (Nat.mod_le _ _).trans hle
  simp only [State.number, hu, Bool.false_eq_true, if_false, BitVec.toNat_setWidth]
  exact (Nat.mod_le _ _).trans hread

/-- What is not a zero is shifted in place of zero. -/
theorem misses_wrong (h : ShiftOperands visible count dst)
    (hs : IsStage visible count dst id) (hrcx : id ≠ rcx)
    (hclob : IsRcx count ∨ ¬ Kept visible dst rcx) (hkind : x.kind = dst.kind)
    (hmiss : MissesZero ⟨id, dst.kind⟩ x)
    (hst : Stages op count ⟨id, dst.kind⟩ dst (XorsLow ⟨id, dst.kind⟩)
      (view (lowOnes ⟨id, dst.kind⟩)) σ') :
    ¬ ShiftsBy visible op x count dst (view (lowOnes ⟨id, dst.kind⟩)) σ' := by
  intro hby
  obtain ⟨σ₁, ⟨low, hlow, hnum, hw⟩, σ₃, ⟨σ₂, hmoved, hshift⟩, hback⟩ := hst
  have hn := isSize_of_isInteger h.integer
  have hstart : ∀ r, amd64.valid r = true → (view (lowOnes ⟨id, dst.kind⟩)).regs r =
      if r = id ∨ r = low.id then 1 else 0 := by
    intro r hr
    rw [view_regs _ hr, lowOnes, ← hnum]
    have hid : num r = num id ↔ r = id := ⟨num_inj hr hs.valid, congrArg num⟩
    have hlow' : num r = num low.id ↔ r = low.id := ⟨num_inj hr hlow, congrArg num⟩
    simp only [hid, hlow']
  have hne : id ≠ low.id := ne_low hmiss hnum
  have hone : σ₁.regs id = 1 := by
    rw [hw.2.1 id hne, hstart id hs.valid, if_pos (.inl rfl)]
  have hregs : ∀ r, amd64.valid r = true → r ≠ id → σ₁.regs r = 0 := by
    intro r hr hrid
    by_cases hrlow : r = low.id
    · have hval := hw.1
      simp only [hstart low.id hlow, hstart id hs.valid, true_or, or_true, if_true,
        BitVec.setWidth_eq] at hval
      rw [hrlow]
      exact hval
    · rw [hw.2.1 r hrlow, hstart r hr, if_neg (by simp [hrid, hrlow])]
  have hbefore : ((view (lowOnes ⟨id, dst.kind⟩)).number count).toNat < 8 * dst.kind.size := by
    have hle := number_lowOnes ⟨id, dst.kind⟩ h.count_valid h.count_not_const h.unsigned
    rcases hn with h | h | h | h <;> omega
  have hafter : σ₁.number count = 0 := by
    apply State.number_zero
    have hv := h.count_valid
    have hc := h.count_not_const
    have hne := hs.ne_count
    cases count with
    | const c => cases hc
    | mem m => exact load_zero (fun b => congrFun hw.2.2 b) _ _
    | reg r =>
      rw [State.read, hregs r.id hv hne]
      exact BitVec.setWidth_zero _ _
  have hlt : (σ₁.number count).toNat < 8 * dst.kind.size := by
    rw [hafter]
    exact zero_lt_width hn
  have hvalue := (shifted_of_stages h hs hrcx hclob hmoved hshift hlt).1
  have hread := (hby hbefore).read_after h.dst_seen
  rw [hback.read_after, hvalue, hafter, read_zero hmiss hkind h.integer, goShift_zero] at hread
  have hwidth : 1 < 8 * dst.kind.size := by
    rcases hn with h | h | h | h <;> omega
  have hbit : (σ₁.regs id).setWidth (8 * dst.kind.size) = 0 := rawShift_none.symm.trans hread
  rw [hone] at hbit
  have hbit' : (1#(8 * dst.kind.size)) = 0#(8 * dst.kind.size) :=
    (BitVec.setWidth_ofNat_of_le (Kind.width_le h.integer) 1).symm.trans hbit
  exact one_ne_zero' hwidth hbit'

end Wrong

/-! ## The register that the code takes -/

/-- The register that `RegAlloc` returns, if one is free. -/
def allocated (rs : RegIds) : Option RegId :=
  match rs.tryAlloc amd64 (amd64.rhi.toNat - amd64.rlo.toNat + 1) with
  | some (id, _) => if amd64.valid id then some id else none
  | none => none

/-- The register that the value is shifted in, if there is one. -/
def stage (rs : RegIds) (count dst : Arg) : Option RegId :=
  match dst with
  | .reg d => if d.id ≠ count.regId then some d.id else allocated rs
  | _ => allocated rs

section Stage

variable (op2 : Op2 → Arg → Arg → Emit Unit) {op : Op2} {x count dst : Arg} {a : Asm}
  {es : List Event} {P : State → State → Prop}

theorem allocated_cases (ha : Allocates amd64 a.regIds es) (k : Kind) :
    (∃ id rs, allocated a.regIds = some id ∧ regAlloc k a = .ok ⟨id, k⟩ { a with regIds := rs } ∧
      amd64.valid id = true ∧ a.regIds.inuse id = 0) ∨
      ∃ msg rs, allocated a.regIds = none ∧
        regAlloc k a = .error (.errorf msg) { a with regIds := rs } := by
  have hcases := regAlloc_cases ha k
  unfold regAlloc at hcases ⊢
  unfold allocated
  generalize a.regIds.tryAlloc amd64 _ = res at hcases ⊢
  rcases res with _ | ⟨r, rs'⟩
  · rcases hcases with ⟨id, rs, h, -⟩ | ⟨msg, rs, h, -⟩ <;> cases h
  · by_cases hr : amd64.valid r = true
    · simp only [hr, if_true] at hcases ⊢
      rcases hcases with ⟨id, rs, h, hv, hfree⟩ | ⟨msg, rs, h, -⟩
      · cases h
        exact .inl ⟨r, rs', rfl, rfl, hv, hfree⟩
      · cases h
    · simp only [hr, Bool.false_eq_true, if_false] at hcases ⊢
      exact .inr ⟨_, _, trivial, rfl⟩

/-- Giving a register back adds no code. -/
theorem sound_regFree {e : Emit Unit} (r : Reg) :
    Sound (e >>= fun _ => regFree r) a P ↔ Sound e a P := by
  have hbind : (e >>= fun _ => regFree r) a = match e a with
      | .ok _ a' => .ok () { a' with regIds := a'.regIds.free amd64 r.id }
      | .error err a' => .error err a' := by
    simp only [bind, EStateM.bind]
    cases e a <;> rfl
  unfold Sound
  rw [hbind]
  cases e a <;> rfl

theorem op3Temp_stage
    (hne : ∀ id, amd64.valid id = true → a.regIds.inuse id = 0 → .reg ⟨id, dst.kind⟩ ≠ dst)
    (ha : Allocates amd64 a.regIds es) :
    (∃ id rs, allocated a.regIds = some id ∧ amd64.valid id = true ∧ a.regIds.inuse id = 0 ∧
      (Sound (op3Temp op2 op x count dst) a P ↔
        Sound (stageCode op2 op x count ⟨id, dst.kind⟩ dst) { a with regIds := rs } P)) ∨
      allocated a.regIds = none ∧ Sound (op3Temp op2 op x count dst) a P := by
  rcases allocated_cases ha dst.kind with ⟨id, rs, hsome, hrun, hv, hfree⟩ | ⟨msg, rs, hnone, hrun⟩
  · refine .inl ⟨id, rs, hsome, hv, hfree, ?_⟩
    refine Iff.trans ?_ (sound_regFree ⟨id, dst.kind⟩)
    have hcode : op3Temp op2 op x count dst a =
        (stageCode op2 op x count ⟨id, dst.kind⟩ dst >>= fun _ => regFree ⟨id, dst.kind⟩)
          { a with regIds := rs } := by
      simp only [stageCode, if_neg (hne id hv hfree), bind_assoc]
      rw [op3Temp]
      simp only [bind, EStateM.bind, hrun]
    simp only [Sound, hcode]
  · refine .inr ⟨hnone, ?_⟩
    have hcode : op3Temp op2 op x count dst a = .error (.errorf msg) { a with regIds := rs } := by
      rw [op3Temp]
      simp only [bind, EStateM.bind, hrun]
    simp only [Sound, hcode]

/-- The register that the code takes, and the code that it emits then. -/
theorem op3Args_stage (ha : Allocates amd64 a.regIds es)
    (h : ShiftOperands (Visible a.regIds) count dst) (hx : x ≠ dst) :
    (∃ id rs, stage a.regIds count dst = some id ∧ IsStage (Visible a.regIds) count dst id ∧
      (Sound (op3Args op2 false op x count dst) a P ↔
        Sound (stageCode op2 op x count ⟨id, dst.kind⟩ dst) { a with regIds := rs } P)) ∨
      stage a.regIds count dst = none ∧ Sound (op3Args op2 false op x count dst) a P := by
  have hseen : a.regIds.inuse count.regId ≠ 0 := by
    have hs := h.count_seen
    have hc := h.count_not_const
    cases count with
    | const c => cases hc
    | reg r => exact hs.2
    | mem m => exact hs.2
  have hfree : ∀ id, amd64.valid id = true → a.regIds.inuse id = 0 →
      IsStage (Visible a.regIds) count dst id := by
    refine fun id hv hzero => ⟨hv, fun heq => hseen (heq ▸ hzero), fun hkept => ?_⟩
    have hvis : Kept (fun id => a.regIds.inuse id ≠ 0) dst id := hkept.mono And.right
    cases dst with
    | const c => exact hvis hzero
    | reg d => exact hvis.1 hzero
    | mem m => exact hvis hzero
  have hne : ∀ id, amd64.valid id = true → a.regIds.inuse id = 0 →
      .reg ⟨id, dst.kind⟩ ≠ dst := by
    rintro id - hzero heq
    have hd : Seen (Visible a.regIds) (.reg ⟨id, dst.kind⟩) := heq ▸ h.dst_seen
    exact hd.2 hzero
  have htemp := @op3Temp_stage op2 op x count dst a es P hne ha
  have hcase : (∃ d, dst = .reg d ∧ d.id ≠ count.regId) ∨
      op3Args op2 false op x count dst = op3Temp op2 op x count dst ∧
        stage a.regIds count dst = allocated a.regIds := by
    cases dst with
    | const c => exact .inr ⟨by simp [op3Args, hx], rfl⟩
    | mem m => exact .inr ⟨by simp [op3Args, hx], rfl⟩
    | reg d =>
      by_cases hid : d.id ≠ count.regId
      · exact .inl ⟨d, rfl, hid⟩
      · exact .inr ⟨by simp [op3Args, hx, hid], if_neg hid⟩
  rcases hcase with ⟨d, rfl, hid⟩ | ⟨hcode, hstage⟩
  · refine .inl ⟨d.id, a.regIds, if_pos hid, ⟨h.dst_valid, hid.symm, fun hkept => hkept.2 rfl⟩, ?_⟩
    have hcode : op3Args op2 false op x count (.reg d) =
        stageCode op2 op x count ⟨d.id, (Arg.reg d).kind⟩ (.reg d) := by
      simp [op3Args, stageCode, hx, hid, Arg.kind]
    rw [hcode]
  · rw [hcode, hstage]
    rcases htemp with ⟨id, rs, hsome, hv, hzero, hiff⟩ | ⟨hnone, hsound⟩
    · exact .inl ⟨id, rs, hsome, hfree id hv hzero, hiff⟩
    · exact .inr ⟨hnone, hsound⟩

end Stage

/-! ## When it is right -/

/-- No register is free, or it is `RCX`, or the constant does not fit in it. -/
def StageFails (rs : RegIds) (x count dst : Arg) : Prop :=
  ∀ id, stage rs count dst = some id → id = rcx ∨ Overflows ⟨id, dst.kind⟩ x

/-- The operands for which the three-operand shift raises an error. -/
def Fails3 (rs : RegIds) (x count dst : Arg) : Prop :=
  x = dst ∧ ShiftFails count dst ∨ x ≠ dst ∧ StageFails rs x count dst

/-- The constant zero is shifted, in a register that it cannot be put in. -/
def ShiftsOld (rs : RegIds) (x count dst : Arg) : Prop :=
  x ≠ dst ∧ ∃ id, stage rs count dst = some id ∧ MissesZero ⟨id, dst.kind⟩ x

section Right

variable (enc : Encoders) (f : Op2 → Arg → Arg → Emit Unit)
  (enc3 : Op3 → Arg → Arg → Arg → Emit Unit) (fuel : Nat) {op : Op2} {x count dst : Arg}
  {id : RegId} {a : Asm} {es : List Event}

/-- The code raises an error, before or after the copy to the register. -/
theorem stageCode_fails {P : State → State → Prop} {visible : RegId → Prop}
    (h : ShiftOperands visible count dst) (hs : IsStage visible count dst id)
    (hop : op = .shl2 ∨ op = .shr2) (hx : ValidArg x) (hkind : x.kind = dst.kind)
    (hne : x ≠ .reg ⟨id, dst.kind⟩) (hfail : id = rcx ∨ Overflows ⟨id, dst.kind⟩ x) :
    Sound (stageCode (op2 (enc.withShifts f) (fuel + 1)) op x count ⟨id, dst.kind⟩ dst) a P := by
  by_cases hover : Overflows ⟨id, dst.kind⟩ x
  · obtain ⟨msg, hcode⟩ := copy_overflows (enc.withShifts f) fuel hs.valid h.integer hkind hover
    rw [stageCode, hcode]
    exact sound_errorf msg
  · obtain rfl : id = rcx := hfail.resolve_right hover
    have hmiss : ¬ MissesZero ⟨rcx, dst.kind⟩ x := by
      have hlow : ¬ IsHigh (.reg ⟨rcx, dst.kind⟩) := by
        change ¬ X86.highBit (num rcx) = true
        decide
      cases x with
      | const c => exact fun hand => hlow hand.2
      | reg r => exact False.elim
      | mem m => exact False.elim
    have hcopy := copy_effect (enc.withShifts f) fuel hx hs.valid h.integer hkind hne hover hmiss
    have hfails : ShiftFails count (.reg ⟨rcx, dst.kind⟩) := .inl rfl
    obtain ⟨msg, hcode⟩ := @shiftArgs_fails enc f op _ _ h.count_not_const hfails
    rw [stageCode, op2_shift enc f hop h.count_not_const rfl h.unsigned fuel, hcode]
    have hsound := hcopy.bind_sound (a := a) (Q := fun _ _ => False) fun a' _ => sound_errorf msg
    exact hsound.mono fun σ σ' hσ => hσ.elim fun σ₁ hand => hand.2.elim

theorem stageCode_iff (h : ShiftOperands (Visible a.regIds) count dst)
    (hs : IsStage (Visible a.regIds) count dst id) (hop : op = .shl2 ∨ op = .shr2)
    (hx : ValidArg x) (hkind : x.kind = dst.kind) (hne : x ≠ .reg ⟨id, dst.kind⟩) (a' : Asm) :
    Sound (stageCode (op2 (enc.withShifts f) (fuel + 1)) op x count ⟨id, dst.kind⟩ dst) a'
        (ShiftsBy (Visible a.regIds) op x count dst) ↔
      (id = rcx ∨ Overflows ⟨id, dst.kind⟩ x) ∨ ¬ Clobbers a.regIds count dst ∧
        ¬ Negative op x count dst ∧ ¬ MissesZero ⟨id, dst.kind⟩ x := by
  by_cases hfail : id = rcx ∨ Overflows ⟨id, dst.kind⟩ x
  · exact iff_of_true (stageCode_fails enc f fuel h hs hop hx hkind hne hfail) (.inl hfail)
  · rw [or_iff_right hfail]
    obtain ⟨hrcx, hover⟩ := not_or.mp hfail
    have hwidth := zero_lt_width (isSize_of_isInteger h.integer)
    -- the two ways in which the value gets to the register
    have hwrong : ∀ moved, Effect (op2 (enc.withShifts f) (fuel + 1) .mov x
        (.reg ⟨id, dst.kind⟩)) moved →
        (∀ σ₁, moved (view rcxTwo) σ₁ → σ₁.number count = (view rcxTwo).number count) →
        Clobbers a.regIds count dst →
        ¬ Sound (stageCode (op2 (enc.withShifts f) (fuel + 1)) op x count ⟨id, dst.kind⟩ dst) a'
          (ShiftsBy (Visible a.regIds) op x count dst) := by
      intro moved hmoved hsame hclob
      have he := stage_effect enc f fuel hop h hs hrcx hmoved
      have hzero := number_rcxTwo h.count_valid h.count_not_const hclob.1
      rw [← he.correct_iff_sound]
      apply he.not_correct rcxTwo
      intro σ' hst
      have hlow := hst.rcx h hrcx hclob.2 fun σ₁ hσ => (hsame σ₁ hσ).trans hzero
      exact clobbers_wrong hclob.2 h.count_valid h.count_not_const hclob.1 hwidth hlow
    by_cases hmiss : MissesZero ⟨id, dst.kind⟩ x
    · refine iff_of_false ?_ fun hno => hno.2.2 hmiss
      have hmoved := copy_misses (enc.withShifts f) fuel hs.valid h.integer hkind hmiss
      by_cases hclob : Clobbers a.regIds count dst
      · exact hwrong _ hmoved (fun σ₁ hx => hx.number hs.valid hrcx) hclob
      · have he := stage_effect enc f fuel hop h hs hrcx hmoved
        rw [← he.correct_iff_sound]
        apply he.not_correct (lowOnes ⟨id, dst.kind⟩)
        intro σ' hst
        exact misses_wrong h hs hrcx (not_and_or.mp hclob |>.imp_left Classical.not_not.mp) hkind
          hmiss hst
    · have hmoved := copy_effect (enc.withShifts f) fuel hx hs.valid h.integer hkind hne hover hmiss
      by_cases hclob : Clobbers a.regIds count dst
      · refine iff_of_false ?_ fun hno => hno.1 hclob
        refine hwrong _ hmoved ?_ hclob
        rintro σ₁ ⟨v, -, hw⟩
        exact number_of_ne hw hs.ne_count
      · rw [and_iff_right hclob, and_iff_left hmiss]
        have he := stage_effect enc f fuel hop h hs hrcx hmoved
        apply shiftsBy_iff hop (isSize_of_isInteger h.integer) he
        intro σ σ' hst hlt
        exact hst.sets h hs hrcx (not_and_or.mp hclob |>.imp_left Classical.not_not.mp) hlt

theorem op3_shift_iff {o : Op3} (hop : IsShift op o) (ha : Allocates amd64 a.regIds es)
    (h : ShiftOperands (Visible a.regIds) count dst) (hx : ValidArg x)
    (hseen : Seen (Visible a.regIds) x) (hkind : x.kind = dst.kind) :
    Sound (op3 (enc.withShifts f) enc3 (op2 (enc.withShifts f) (fuel + 1)) o x count dst) a
        (ShiftsBy (Visible a.regIds) op x count dst) ↔
      Fails3 a.regIds x count dst ∨ ¬ Clobbers a.regIds count dst ∧
        ¬ Negative op x count dst ∧ ¬ ShiftsOld a.regIds x count dst := by
  have hop' : op = .shl2 ∨ op = .shr2 := hop.imp And.left And.left
  rw [op3_shift _ enc3 _ hop hkind h.unsigned h.count_not_const h.dst_not_const]
  by_cases hsame : x = dst
  · subst hsame
    have hcode : op3Args (op2 (enc.withShifts f) (fuel + 1)) false op x count x =
        op2 (enc.withShifts f) (fuel + 1) op count x := if_pos rfl
    rw [hcode, op2_shift_iff enc f fuel hop' h]
    simp [Fails3, ShiftsOld]
  · rcases @op3Args_stage (op2 (enc.withShifts f) (fuel + 1)) op x count dst a es
      (ShiftsBy (Visible a.regIds) op x count dst) ha h hsame with
      ⟨id, rs, hstage, hs, hiff⟩ | ⟨hnone, hsound⟩
    · have hne : x ≠ .reg ⟨id, dst.kind⟩ := by
        rintro rfl
        apply hs.not_kept
        cases dst with
        | const c => exact hseen
        | mem m => exact hseen
        | reg d => exact ⟨hseen, fun heq => hsame (by cases d; cases heq; rfl)⟩
      rw [hiff, stageCode_iff enc f fuel h hs hop' hx hkind hne]
      simp [Fails3, StageFails, ShiftsOld, hsame, hstage]
    · refine iff_of_true hsound (.inl (.inr ⟨hsame, fun id hid => ?_⟩))
      rw [hnone] at hid
      cases hid

end Right

/-- The code of a shift by a variable count below the width, with two or with three operands,
raises an error or leaves what Go defines in the destination and changes nothing else that the user
sees, except that it changes `RCX` where that is neither the count nor the destination, that no
shift to the right keeps the sign, and that zero cannot be put in the registers from `R8` on. -/
theorem varShift_iff (enc : Encoders) (f : Op2 → Arg → Arg → Emit Unit)
    (enc3 : Op3 → Arg → Arg → Arg → Emit Unit) (fuel : Nat) (op : Op2) (o : Op3) (count dst : Arg)
    (a : Asm) (es : List Event) (hop : IsShift op o) (ha : Allocates amd64 a.regIds es)
    (h : ShiftOperands (Visible a.regIds) count dst) :
    (Sound (op2 (enc.withShifts f) (fuel + 1) op count dst) a
        (ShiftsBy (Visible a.regIds) op dst count dst) ↔
      ShiftFails count dst ∨ ¬ Clobbers a.regIds count dst ∧ ¬ Negative op dst count dst) ∧
    ∀ x, ValidArg x → Seen (Visible a.regIds) x → x.kind = dst.kind →
      (Sound (op3 (enc.withShifts f) enc3 (op2 (enc.withShifts f) (fuel + 1)) o x count dst) a
          (ShiftsBy (Visible a.regIds) op x count dst) ↔
        Fails3 a.regIds x count dst ∨ ¬ Clobbers a.regIds count dst ∧
          ¬ Negative op x count dst ∧ ¬ ShiftsOld a.regIds x count dst) :=
  ⟨op2_shift_iff enc f fuel (hop.imp And.left And.left) h,
    fun _ hx hseen hkind => op3_shift_iff enc f enc3 fuel hop ha h hx hseen hkind⟩

theorem shiftOperands_r8 {rs : RegIds} (hr8 : Visible rs r8) :
    ShiftOperands (Visible rs) (.reg ⟨r8, .uint8⟩) (.reg ⟨r8, .int64⟩) :=
  ⟨hr8.1, hr8.1, hr8, hr8, rfl, rfl, rfl, rfl, rfl⟩

theorem varShift_iff_r8 :
    Sound (op2 (noEncoders.withShifts fun _ _ _ => errorf "unused") 1 .shl2 (.reg ⟨r8, .uint8⟩)
        (.reg ⟨r8, .int64⟩)) ⟨[], inUse⟩
        (ShiftsBy (Visible inUse) .shl2 (.reg ⟨r8, .int64⟩) (.reg ⟨r8, .uint8⟩)
          (.reg ⟨r8, .int64⟩)) ↔
      ShiftFails (.reg ⟨r8, .uint8⟩) (.reg ⟨r8, .int64⟩) ∨
        ¬ Clobbers inUse (.reg ⟨r8, .uint8⟩) (.reg ⟨r8, .int64⟩) ∧
          ¬ Negative .shl2 (.reg ⟨r8, .int64⟩) (.reg ⟨r8, .uint8⟩) (.reg ⟨r8, .int64⟩) :=
  (varShift_iff noEncoders (fun _ _ _ => errorf "unused") (fun _ _ _ _ => errorf "unused") 0 .shl2
    .shl3 _ _ ⟨[], inUse⟩ [.incUse r8] (.inl ⟨rfl, rfl⟩) allocates_inUse
    (shiftOperands_r8 ⟨by decide, by decide⟩)).1

/-- `RCX` and `R8` are in use. -/
def rcxInUse : RegIds := (inUse.incUse amd64 rcx).2

/-- A shift of `R8` by itself changes `RCX`. -/
theorem not_varShift : ¬ ∀ (enc : Encoders) (f : Op2 → Arg → Arg → Emit Unit) (fuel : Nat)
    (op : Op2) (count dst : Arg) (a : Asm) (es : List Event), op = .shl2 ∨ op = .shr2 →
      Allocates amd64 a.regIds es → ShiftOperands (Visible a.regIds) count dst →
      Sound (op2 (enc.withShifts f) (fuel + 1) op count dst) a
        (ShiftsBy (Visible a.regIds) op dst count dst) := by
  intro hall
  have halloc : Allocates amd64 rcxInUse [.incUse r8, .incUse rcx] :=
    .incUse allocates_inUse ⟨by decide, by decide⟩
  have hoperands : ShiftOperands (Visible rcxInUse) (.reg ⟨r8, .uint8⟩) (.reg ⟨r8, .int64⟩) :=
    shiftOperands_r8 ⟨by decide, by decide⟩
  have hne : r8 ≠ rcx := by decide
  have hsound := hall noEncoders (fun _ _ _ => errorf "unused") 0 .shl2 _ _ ⟨[], rcxInUse⟩ _
    (.inl rfl) halloc hoperands
  rw [op2_shift_iff _ _ _ (.inl rfl) hoperands] at hsound
  rcases hsound with (heq | ⟨hmem, -⟩) | ⟨hclob, -⟩
  · exact hne heq
  · cases hmem
  · exact hclob ⟨hne, ⟨by decide, by decide⟩, hne.symm⟩

end OneJit.GoJit.Amd64
