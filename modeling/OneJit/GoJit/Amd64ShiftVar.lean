import OneJit.GoJit.Amd64Shift

/-!
# Shifts by a variable count

The count of such a shift is in `RCX`. The encoder moves it there and does not save what `RCX`
held.
-/

namespace OneJit.GoJit.Amd64

open X86 (Cpu Insn IsSize fields)

/-! ## The encoder for all shapes -/

def shiftArgs (enc : Encoders) (op2 : Op2 → Arg → Arg → Emit Unit) (op : Op2) :
    Arg → Arg → Emit Unit
  | .const c, .reg dst => shiftConstReg op c dst
  | .const c, .mem dst => shiftConstMem op2 op c dst
  | .reg src, .reg dst => shiftRegReg enc op src dst
  | .reg src, .mem dst => shiftRegMem enc op src dst
  | .mem src, .reg dst => shiftMemReg enc op src dst
  | .mem src, .mem dst => shiftMemMem enc op src dst
  | _, .const _ => pure ()

/-- The encoders of other files, with those of the shifts. -/
def Encoders.withShifts (enc : Encoders) (op2 : Op2 → Arg → Arg → Emit Unit) : Encoders :=
  { enc with
    op2 := fun op src dst =>
      if op = .shl2 ∨ op = .shr2 then shiftArgs enc op2 op src dst else enc.op2 op src dst }

section Encoder

variable (enc : Encoders) (f : Op2 → Arg → Arg → Emit Unit) {op : Op2} {src dst : Arg}

/-- Without a rule, `op2` calls the encoder of the shift. -/
theorem op2_shift (hop : op = .shl2 ∨ op = .shr2) (hsc : src.isConst = false)
    (hdc : dst.isConst = false) (hu : src.kind.signed = false) (fuel : Nat) :
    op2 (enc.withShifts f) (fuel + 1) op src dst = shiftArgs enc f op src dst := by
  have hplain : IsPlain op := by
    rcases hop with rfl | rfl <;> simp [IsPlain]
  have hk : kindsOk op src dst = true := by
    rcases hop with rfl | rfl <;> simp [kindsOk, hu]
  have hopt : optimize2 op src dst = .ok none := by
    rcases hop with rfl | rfl <;> cases src <;> cases dst <;> simp_all [optimize2, Arg.isConst]
  rw [op2_plain (enc.withShifts f) fuel hplain hk hdc hopt]
  have hother : Op2.isOther op = true := by
    rcases hop with rfl | rfl <;> rfl
  cases dst with
  | const c => cases hdc
  | reg d =>
    cases src with
    | const c => cases hsc
    | reg s => simp only [op2Args, op2RegReg, hother, if_true, Encoders.withShifts, if_pos hop]
    | mem s => simp only [op2Args, op2MemReg, hother, if_true, Encoders.withShifts, if_pos hop]
  | mem d =>
    cases src with
    | const c => cases hsc
    | reg s => simp only [op2Args, op2RegMem, hother, if_true, Encoders.withShifts, if_pos hop]
    | mem s => simp only [op2Args, op2MemMem, hother, if_true, Encoders.withShifts, if_pos hop]

end Encoder

/-! ## What the code does -/

/-- The operand is `RCX`. -/
def IsRcx : Arg → Prop
  | .reg r => r.id = rcx
  | _ => False

/-- The operands for which the encoder raises an error. -/
def ShiftFails (src dst : Arg) : Prop :=
  dst.regId = rcx ∨ isMem dst = true ∧ isMem src = true ∧ src.regId = rcx

/-- The count is in `RCX`. -/
def CountMoved (src : Arg) (σ σ₁ : State) : Prop :=
  IsRcx src ∧ σ₁ = σ ∨ ¬ IsRcx src ∧ (Instr.op2 .mov src (.reg ⟨rcx, src.kind⟩)).Step σ σ₁

/-- The destination is shifted by the count in `RCX`. -/
def ShiftsCl (op : Op2) (dst : Arg) (σ σ' : State) : Prop :=
  Writes σ dst.kind.size (rawShift op
    (X86.shiftCount dst.kind.size ((σ.regs rcx).setWidth 8)) (σ.read dst.kind.size dst)) σ' dst

section Effects

variable (enc : Encoders) (f : Op2 → Arg → Arg → Emit Unit) {op : Op2} {k : BitVec 3}
  {src dst : Arg} {e : Emit Unit}

theorem shiftCl_effect (hk : shiftDigit op = some k) (hd : ValidArg dst)
    (hdc : dst.isConst = false) (hn : IsSize dst.kind.size)
    (he : Emits e (.shift dst.kind.size k (loc dst) none)) : Effect e (ShiftsCl op dst) := by
  apply he.effect
  intro c
  have hrcx : (view c).regs rcx = c.regs 1 := view_regs c (by decide)
  let count := X86.shiftCount dst.kind.size ((c.regs 1).setWidth 8)
  obtain ⟨c', hwrite, hw⟩ := @write_loc c dst hd hdc _ (le_eight hn)
    (rawShift op count ((view c).read dst.kind.size dst))
  refine ⟨c', ?_, ?_⟩
  · have hvalue : X86.shiftValue k ((view c).read dst.kind.size dst) count =
        some (rawShift op count ((view c).read dst.kind.size dst)) := by
      cases op <;> cases hk <;> rfl
    simp only [Insn.exec, read_loc hd hdc, Option.bind_some, Option.getD_none]
    change (X86.shiftValue k _ count).bind _ = _
    rw [hvalue, Option.bind_some, hwrite]
  · rw [ShiftsCl, hrcx]
    exact hw

/-- The count is moved unless it is there. -/
theorem moveCount_effect {s : Reg} (hs : amd64.valid s.id = true) (hn : IsSize s.kind.size) :
    Effect (moveCount enc s) (CountMoved (.reg s)) := by
  have hv : amd64.valid rcx = true := by decide
  by_cases hrcx : s.id = rcx
  · rw [moveCount, if_neg (not_not_intro hrcx)]
    exact effect_pure.mono fun σ σ' h => .inl ⟨hrcx, h⟩
  · rw [moveCount, if_pos hrcx]
    have hmov := @op2RegReg_effect enc .mov .mov rfl s ⟨rcx, s.kind⟩ hs hv hn rfl
    exact hmov.mono fun σ σ' h => .inr ⟨hrcx, h⟩

theorem shiftClReg_effect (hop : op = .shl2 ∨ op = .shr2) {d : Reg}
    (hd : amd64.valid d.id = true) (hn : IsSize d.kind.size) :
    Effect (shiftClReg op d) (ShiftsCl op (.reg d)) := by
  obtain ⟨k, hk⟩ := shiftDigit_eq hop
  simp only [shiftClReg, (op2val_shift hk).1, lohi, lohiId_eq hd, pure_bind]
  exact shiftCl_effect hk hd rfl hn ⟨_, rfl, encodes_shiftCl hn hd readsOperand_reg⟩

theorem shiftClMem_effect (hop : op = .shl2 ∨ op = .shr2) {d : Mem}
    (hd : amd64.valid d.reg.id = true) (hn : IsSize d.reg.kind.size) :
    Effect (shiftClMem op d) (ShiftsCl op (.mem d)) := by
  obtain ⟨k, hk⟩ := shiftDigit_eq hop
  simp only [shiftClMem, (op2val_shift hk).1, shiftMemBytes_eq hk hd, pure_bind]
  exact shiftCl_effect hk hd rfl hn ⟨_, rfl, encodes_shiftCl hn hd (readsOperand_mem hd)⟩

/-- The code of a shift: the count is moved, and then the destination is shifted. -/
theorem shiftArgs_effect (hop : op = .shl2 ∨ op = .shr2) (hs : ValidArg src)
    (hsc : src.isConst = false) (hd : ValidArg dst) (hdc : dst.isConst = false)
    (hns : IsSize src.kind.size) (hn : IsSize dst.kind.size) (hok : ¬ ShiftFails src dst) :
    Effect (shiftArgs enc f op src dst) fun σ σ' =>
      ∃ σ₁, CountMoved src σ σ₁ ∧ ShiftsCl op dst σ₁ σ' := by
  have hv : amd64.valid rcx = true := by decide
  have hdst : dst.regId ≠ rcx := fun h => hok (.inl h)
  cases dst with
  | const c => cases hdc
  | reg d =>
    have hne : ¬ d.id = rcx := hdst
    have hshift := shiftClReg_effect hop hd hn
    cases src with
    | const c => cases hsc
    | reg s =>
      rw [shiftArgs, shiftRegReg, if_neg hne]
      exact (moveCount_effect enc hs hns).bind hshift
    | mem s =>
      have hmov := @op2MemReg_effect enc .mov .mov rfl s ⟨rcx, s.reg.kind⟩ hs hv hns rfl
      have hsame : shiftRegReg enc op ⟨rcx, s.reg.kind⟩ d = shiftClReg op d := by
        rw [shiftRegReg, if_neg hne, moveCount]
        rfl
      have hcode : shiftArgs enc f op (.mem s) (.reg d) =
          (op2MemReg enc .mov s ⟨rcx, s.reg.kind⟩ >>= fun _ => shiftClReg op d) := by
        rw [shiftArgs, shiftMemReg, if_neg hne, ← hsame]
      rw [hcode]
      apply (hmov.bind hshift).mono
      rintro σ σ' ⟨σ₁, h, h'⟩
      exact ⟨σ₁, .inr ⟨id, h⟩, h'⟩
  | mem d =>
    have hne : ¬ d.reg.id = rcx := hdst
    have hshift := shiftClMem_effect hop hd hn
    cases src with
    | const c => cases hsc
    | reg s =>
      rw [shiftArgs, shiftRegMem, if_neg hne]
      exact (moveCount_effect enc hs hns).bind hshift
    | mem s =>
      have hbase : ¬ s.reg.id = rcx := fun h => hok (.inr ⟨rfl, rfl, h⟩)
      have hmov := @op2MemReg_effect enc .mov .mov rfl s ⟨rcx, s.reg.kind⟩ hs hv hns rfl
      have hsame : shiftRegMem enc op ⟨rcx, s.reg.kind⟩ d = shiftClMem op d := by
        rw [shiftRegMem, if_neg hne, moveCount]
        rfl
      have hcode : shiftArgs enc f op (.mem s) (.mem d) =
          (op2MemReg enc .mov s ⟨rcx, s.reg.kind⟩ >>= fun _ => shiftClMem op d) := by
        rw [shiftArgs, shiftMemMem, if_neg hne, if_neg hbase, ← hsame]
      rw [hcode]
      apply (hmov.bind hshift).mono
      rintro σ σ' ⟨σ₁, h, h'⟩
      exact ⟨σ₁, .inr ⟨id, h⟩, h'⟩

/-- The error comes before any code. -/
theorem shiftArgs_fails (hsc : src.isConst = false) (hfail : ShiftFails src dst) :
    ∃ msg, shiftArgs enc f op src dst = errorf msg := by
  cases dst with
  | const c => rcases hfail with h | ⟨h, -⟩ <;> cases h
  | reg d =>
    have hdst : d.id = rcx := by
      rcases hfail with h | ⟨h, -⟩
      · exact h
      · cases h
    cases src with
    | const c => cases hsc
    | reg s => exact ⟨_, if_pos hdst⟩
    | mem s => exact ⟨_, if_pos hdst⟩
  | mem d =>
    cases src with
    | const c => cases hsc
    | reg s =>
      have hdst : d.reg.id = rcx := by
        rcases hfail with h | ⟨-, h, -⟩
        · exact h
        · cases h
      exact ⟨_, if_pos hdst⟩
    | mem s =>
      by_cases hdst : d.reg.id = rcx
      · exact ⟨_, if_pos hdst⟩
      · have hbase : s.reg.id = rcx := by
          rcases hfail with h | ⟨-, -, h⟩
          · exact absurd h hdst
          · exact h
        refine ⟨"unimplemented shift Mem by Mem[RCX]", ?_⟩
        rw [shiftArgs, shiftMemMem, if_neg hdst, if_pos hbase]

end Effects

/-! ## What it leaves -/

section Leaves

variable {visible : RegId → Prop} {op : Op2} {src dst : Arg} {σ σ₁ σ' : State}

/-- The low byte of `RCX` is the count. -/
theorem countMoved_low (h : CountMoved src σ σ₁) (hu : src.kind.signed = false)
    (hns : IsSize src.kind.size) :
    (σ₁.regs rcx).setWidth 8 = (σ.number src).setWidth 8 := by
  have hone : 8 ≤ 8 * src.kind.size := by
    rcases hns with h | h | h | h <;> omega
  have hnumber : (σ.number src).setWidth 8 = (σ.read src.kind.size src).setWidth 8 := by
    simp only [State.number, hu, Bool.false_eq_true, if_false]
    exact BitVec.setWidth_setWidth_of_le _ (by decide)
  rw [hnumber]
  rcases h with ⟨hrcx, rfl⟩ | ⟨-, u, hu, hw, -⟩
  · cases src with
    | const c => exact absurd hrcx id
    | mem m => exact absurd hrcx id
    | reg r =>
      have hid : r.id = rcx := hrcx
      rw [State.read, hid]
      exact (BitVec.setWidth_setWidth_of_le _ hone).symm
  · have hread : (σ₁.regs rcx).setWidth (8 * src.kind.size) = σ.read src.kind.size src :=
      hw.trans (Option.some.inj hu).symm
    rw [← hread]
    exact (BitVec.setWidth_setWidth_of_le _ hone).symm

theorem CountMoved.hidden (h : CountMoved src σ σ₁) (hrcx : IsRcx src ∨ ¬ visible rcx) :
    Hidden visible σ σ₁ := by
  rcases h with ⟨-, rfl⟩ | ⟨hnot, u, -, hw⟩
  · exact .refl _
  · rcases hrcx with hrcx | hrcx
    · exact absurd hrcx hnot
    · exact .of_writes hw hrcx

/-- The destination is shifted by the count, if `RCX` is free for it or holds it. -/
theorem sets_of_moved (h : CountMoved src σ σ₁) (h' : ShiftsCl op dst σ₁ σ')
    (hu : src.kind.signed = false) (hns : IsSize src.kind.size) (hn : IsSize dst.kind.size)
    (hdst : Seen visible dst) (hrcx : IsRcx src ∨ ¬ visible rcx)
    (hcount : (σ.number src).toNat < 8 * dst.kind.size) :
    Sets visible σ dst.kind.size
      (rawShift op (σ.number src).toNat (σ.read dst.kind.size dst)) σ' dst := by
  have hhidden := h.hidden hrcx
  rw [ShiftsCl, countMoved_low h hu hns, shiftCount_eq hn hcount, hhidden.read hdst] at h'
  exact hhidden.sets hdst (.of_writes h')

/-- Otherwise the low byte of `RCX` is the count afterwards. -/
theorem rcx_of_moved (h : CountMoved src σ σ₁) (h' : ShiftsCl op dst σ₁ σ')
    (hu : src.kind.signed = false) (hns : IsSize src.kind.size) (hne : ¬ IsRcx dst) :
    (σ'.regs rcx).setWidth 8 = (σ.number src).setWidth 8 := by
  rw [← countMoved_low h hu hns]
  cases dst with
  | const c => exact absurd h' id
  | reg d => rw [h'.2.1 rcx fun heq => hne heq.symm]
  | mem m => rw [congrFun h'.2.1 rcx]

end Leaves

/-- The logical and the arithmetic shift differ for negative numbers. -/
theorem rawShift_eq_iff {op : Op2} (hop : op = .shl2 ∨ op = .shr2) (k : Kind) {w n : Nat}
    (hw : 0 < w) (x : BitVec w) :
    rawShift op n x = goShift op k n x ↔
      ¬(op = .shr2 ∧ k.signed = true ∧ x.msb = true ∧ 0 < n) := by
  constructor
  · rintro h ⟨rfl, hs, hmsb, hn⟩
    have hlogical : (x >>> n).getLsbD (w - 1) = false := by
      rw [BitVec.getLsbD_ushiftRight]
      exact BitVec.getLsbD_of_ge _ _ (by omega)
    have harith : (x.sshiftRight n).getLsbD (w - 1) = true := by
      rw [BitVec.getLsbD_sshiftRight, if_neg (by omega), hmsb]
      simp
      omega
    simp only [rawShift, goShift, hs, if_true, reduceCtorEq, if_false] at h
    rw [h, harith] at hlogical
    cases hlogical
  · intro hno
    by_cases hsigned : op = .shr2 ∧ k.signed = true
    · obtain ⟨rfl, hs⟩ := hsigned
      simp only [rawShift, goShift, hs, if_true, reduceCtorEq, if_false]
      by_cases hn : 0 < n
      · have hmsb : x.msb = false := Bool.eq_false_iff.mpr fun hmsb => hno ⟨rfl, hs, hmsb, hn⟩
        exact (BitVec.sshiftRight_eq_of_msb_false hmsb).symm
      · obtain rfl : n = 0 := by omega
        simp
    · exact goShift_eq hsigned hop x

/-! ## When it is right -/

/-- The user sees this register, and it is not the destination. -/
def Kept (visible : RegId → Prop) : Arg → RegId → Prop
  | .reg d, id => visible id ∧ id ≠ d.id
  | _, id => visible id

/-- The operands of a shift by a variable count. -/
structure ShiftOperands (visible : RegId → Prop) (count dst : Arg) : Prop where
  count_valid : ValidArg count
  dst_valid : ValidArg dst
  count_seen : Seen visible count
  dst_seen : Seen visible dst
  count_not_const : count.isConst = false
  dst_not_const : dst.isConst = false
  count_integer : count.kind.isInteger = true
  unsigned : count.kind.signed = false
  integer : dst.kind.isInteger = true

/-- If the count is below the width, `x` is shifted by it, and nothing else that the user sees has
changed. -/
def ShiftsBy (visible : RegId → Prop) (op : Op2) (x count dst : Arg) (σ σ' : State) : Prop :=
  (σ.number count).toNat < 8 * dst.kind.size →
    Sets visible σ dst.kind.size (goShift op dst.kind (σ.number count).toNat
      (σ.read dst.kind.size x)) σ' dst

/-- The user sees `RCX`, which is neither the count nor the destination. -/
def Clobbers (rs : RegIds) (count dst : Arg) : Prop :=
  ¬ IsRcx count ∧ Kept (Visible rs) dst rcx

/-- Some state has a negative number that is shifted to the right. -/
def Negative (op : Op2) (x count dst : Arg) : Prop :=
  op = .shr2 ∧ dst.kind.signed = true ∧ ∃ c : Cpu,
    ((view c).read dst.kind.size x).msb = true ∧ 0 < ((view c).number count).toNat ∧
      ((view c).number count).toNat < 8 * dst.kind.size

/-- The state in which `RCX` is two and everything else is zero. -/
def rcxTwo : Cpu := ⟨fun b => if b = 1 then 2 else 0, fun _ => 0⟩

section Right

variable {visible : RegId → Prop} {op : Op2} {x count dst : Arg} {a : Asm} {e : Emit Unit}
  {Q : State → State → Prop}

/-- Code whose result is that of the instruction is right unless it shifts a negative number. -/
theorem shiftsBy_iff (hop : op = .shl2 ∨ op = .shr2) (hn : IsSize dst.kind.size) (he : Effect e Q)
    (hQ : ∀ σ σ', Q σ σ' → (σ.number count).toNat < 8 * dst.kind.size →
      Sets visible σ dst.kind.size
        (rawShift op (σ.number count).toNat (σ.read dst.kind.size x)) σ' dst) :
    Sound e a (ShiftsBy visible op x count dst) ↔ ¬ Negative op x count dst := by
  have hwidth := zero_lt_width hn
  rw [← he.correct_iff_sound]
  constructor
  · rintro hcorrect ⟨hshr, hs, c, hmsb, hpos, hlt⟩
    refine he.not_correct c (fun σ' hσ' hby => ?_) hcorrect
    have heq := (hQ _ _ hσ' hlt).unique (hby hlt)
    exact (rawShift_eq_iff hop dst.kind hwidth _).mp heq ⟨hshr, hs, hmsb, hpos⟩
  · intro hno
    obtain ⟨bs, rfl, hrun⟩ := he
    refine ⟨bs, rfl, fun c => ?_⟩
    obtain ⟨c', hlead, hc⟩ := hrun c
    refine ⟨c', hlead.runs, fun hlt => ?_⟩
    have heq := (rawShift_eq_iff (n := ((view c).number count).toNat) hop dst.kind hwidth
      ((view c).read dst.kind.size x)).mpr fun h => hno ⟨h.1, h.2.1, c, h.2.2.1, h.2.2.2, hlt⟩
    rw [← heq]
    exact hQ _ _ hc hlt

theorem kept_of_ne (hne : ¬ IsRcx dst) : Kept visible dst rcx ↔ visible rcx := by
  cases dst with
  | const c => exact Iff.rfl
  | mem m => exact Iff.rfl
  | reg d => exact and_iff_left fun heq => hne heq.symm

/-- What the user keeps in a register is there after the code. -/
theorem Sets.kept {σ σ' : State} {n : Nat} {v : BitVec (8 * n)} (h : Sets visible σ n v σ' dst)
    {id : RegId} (hid : Kept visible dst id) : σ'.regs id = σ.regs id := by
  cases dst with
  | const c => exact absurd h False.elim
  | reg d => exact h.2.1 id hid.1 hid.2
  | mem m => exact h.2.1 id hid

theorem load_zero {σ : State} (h : ∀ x, σ.mem x = 0) (n : Nat) (b : BitVec 64) :
    σ.load b n = 0 := by
  induction n generalizing b with
  | zero => rfl
  | succ n ih =>
    rw [State.load, ih, h]
    exact BitVec.zero_append_zero

theorem State.number_zero {σ : State} (h : σ.read count.kind.size count = 0) :
    σ.number count = 0 := by
  have hmsb : (0#(8 * count.kind.size)).msb = false := BitVec.msb_zero
  have hzero : (0#(8 * count.kind.size)).signExtend 64 = 0 := by
    rw [BitVec.signExtend_eq_setWidth_of_msb_false hmsb]
    exact BitVec.setWidth_zero _ _
  simp [State.number, h, hzero]

theorem number_rcxTwo (hv : ValidArg count) (hc : count.isConst = false) (hne : ¬ IsRcx count) :
    (view rcxTwo).number count = 0 := by
  apply State.number_zero
  cases count with
  | const c => cases hc
  | mem m => exact load_zero (fun _ => rfl) _ _
  | reg r =>
    have hzero : num r.id ≠ 1 := fun heq => hne (num_inj hv (by decide) heq)
    have hreg : rcxTwo.regs (num r.id) = 0 := if_neg hzero
    rw [State.read, view_regs _ hv, hreg]
    exact BitVec.setWidth_zero _ _

/-- A shift changes `RCX` if the user keeps something there. -/
theorem clobbers_wrong {σ' : State} (hvis : Kept visible dst rcx) (hv : ValidArg count)
    (hc : count.isConst = false) (hne : ¬ IsRcx count) (hn : 0 < 8 * dst.kind.size)
    (hlow : (σ'.regs rcx).setWidth 8 = 0#8) :
    ¬ ShiftsBy visible op x count dst (view rcxTwo) σ' := by
  intro hby
  have hzero := number_rcxTwo hv hc hne
  have hcount : ((view rcxTwo).number count).toNat < 8 * dst.kind.size := by
    rw [hzero]
    exact hn
  rw [(hby hcount).kept hvis] at hlow
  exact absurd hlow (by decide)

theorem op2_shift_iff (enc : Encoders) (f : Op2 → Arg → Arg → Emit Unit) (fuel : Nat)
    (hop : op = .shl2 ∨ op = .shr2) (h : ShiftOperands (Visible a.regIds) count dst) :
    Sound (op2 (enc.withShifts f) (fuel + 1) op count dst) a
        (ShiftsBy (Visible a.regIds) op dst count dst) ↔
      ShiftFails count dst ∨ ¬ Clobbers a.regIds count dst ∧ ¬ Negative op dst count dst := by
  obtain ⟨hv, hd, -, hseen, hc, hdc, hint, hu, hdint⟩ := h
  have hns := isSize_of_isInteger hint
  have hn := isSize_of_isInteger hdint
  rw [op2_shift enc f hop hc hdc hu]
  by_cases hfail : ShiftFails count dst
  · obtain ⟨msg, hcode⟩ := @shiftArgs_fails enc f op count dst hc hfail
    rw [hcode]
    exact iff_of_true (sound_errorf msg) (.inl hfail)
  · have hne : ¬ IsRcx dst := by
      intro hrcx
      cases dst with
      | const c => cases hdc
      | mem m => exact hrcx
      | reg d => exact hfail (.inl hrcx)
    have he := shiftArgs_effect enc f hop hv hc hd hdc hns hn hfail
    rw [or_iff_right hfail]
    by_cases hclob : Clobbers a.regIds count dst
    · refine iff_of_false ?_ fun hno => hno.1 hclob
      rw [← he.correct_iff_sound]
      apply he.not_correct rcxTwo
      rintro σ' ⟨σ₁, hmoved, hshift⟩
      have hlow := rcx_of_moved hmoved hshift hu hns hne
      rw [number_rcxTwo hv hc hclob.1] at hlow
      exact clobbers_wrong hclob.2 hv hc hclob.1 (zero_lt_width hn) hlow
    · rw [and_iff_right hclob]
      have hrcx : IsRcx count ∨ ¬ Visible a.regIds rcx := by
        by_cases hcount : IsRcx count
        · exact .inl hcount
        · exact .inr fun hvis => hclob ⟨hcount, (kept_of_ne hne).mpr hvis⟩
      apply shiftsBy_iff hop hn he
      rintro σ σ' ⟨σ₁, hmoved, hshift⟩ hlt
      exact sets_of_moved hmoved hshift hu hns hn hseen hrcx hlt

end Right

end OneJit.GoJit.Amd64
