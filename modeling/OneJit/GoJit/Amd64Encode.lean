import OneJit.GoJit.Amd64

/-!
# The bytes of two-argument instructions

Each branch of the encoder emits one instruction: prefixes, opcode and operands in the order in which
the processor reads them.
-/

namespace OneJit.GoJit.Amd64

open X86 (Byte leBytes disp32 fields extend form Rex IsRexPrefix Loc Source Operation
  Insn Encodes assemble rmOperand regLoc lowBits highBit baseBytes takeDisp IsSize Sized)

/-! ## Numbers of registers -/

/-- The number of a register in the encoding. -/
def num (id : RegId) : BitVec 4 := (id - amd64.rlo).setWidth 4

theorem sub_rlo_of_valid {id : RegId} (h : amd64.valid id = true) :
    id - amd64.rlo = (num id).setWidth 16 := by
  simp only [amd64, Bool.and_eq_true, decide_eq_true_eq] at h
  apply BitVec.eq_of_toNat_eq
  simp only [num, amd64, BitVec.toNat_setWidth]
  bv_omega

/-- The register with a number. -/
theorem eq_of_valid {id : RegId} (h : amd64.valid id = true) : id = amd64.rlo + (num id).setWidth 16 := by
  rw [← sub_rlo_of_valid h, BitVec.add_comm, BitVec.sub_add_cancel]

theorem num_inj {id id' : RegId} (h : amd64.valid id = true) (h' : amd64.valid id' = true)
    (heq : num id = num id') : id = id' := by
  rw [eq_of_valid h, eq_of_valid h', heq]

theorem lt_rsp_iff {id : RegId} (h : amd64.valid id = true) : id < rsp ↔ num id < 4 := by
  rw [eq_of_valid h]
  generalize num id = n
  decide +revert

def lo (n : BitVec 4) : Byte := (lowBits n).setWidth 8

def hi (n : BitVec 4) : Byte := (BitVec.ofBool (highBit n)).setWidth 8

theorem lohiId_eq {id : RegId} (h : amd64.valid id = true) :
    lohiId id = pure (lo (num id), hi (num id)) := by
  have hbits : bits id = pure (((num id).setWidth 16).setWidth 8) := by
    rw [bits, if_pos h, sub_rlo_of_valid h]
  have hlo : ∀ n : BitVec 4, ((n.setWidth 16).setWidth 8 : Byte) &&& 0x7 = lo n := by decide
  have hhi : ∀ n : BitVec 4, (((n.setWidth 16).setWidth 8 : Byte) &&& 0x8) >>> 3 = hi n := by decide
  rw [lohiId, hbits, pure_bind, hlo, hhi]

/-! ## Prefixes -/

/-- The REX prefix of an instruction on some bytes, with the registers of the `reg` and `rm` fields. -/
def rexOf (n : Nat) (r b : BitVec 4) : Rex := ⟨decide (n = 8), highBit r, false, highBit b⟩

theorem high_clear_iff {r b : BitVec 4} :
    hi b ||| hi r <<< 2 = 0 ↔ highBit r = false ∧ highBit b = false := by
  decide +revert

theorem hi_eq_zero_iff {b : BitVec 4} : hi b = 0 ↔ highBit b = false := by
  decide +revert

/-- No prefix. -/
theorem isRexPrefix_nil {n : Nat} {r b : BitVec 4} (hn : n ≠ 8)
    (h : highBit r = false ∧ highBit b = false) : IsRexPrefix [] (rexOf n r b) := by
  refine .inl ⟨rfl, ?_⟩
  rw [rexOf, h.1, h.2, decide_eq_false hn]
  rfl

theorem isRexPrefix_40 {n : Nat} {r b : BitVec 4} (hn : n ≠ 8) :
    IsRexPrefix [0x40 ||| hi b ||| hi r <<< 2] (rexOf n r b) := by
  have hbyte : ∀ r b : BitVec 4, Rex.isRex (0x40 ||| hi b ||| hi r <<< 2) = true ∧
      Rex.ofByte (0x40 ||| hi b ||| hi r <<< 2) = ⟨false, highBit r, false, highBit b⟩ := by decide
  refine .inr ⟨_, rfl, (hbyte r b).1, ?_⟩
  rw [(hbyte r b).2, rexOf, decide_eq_false hn]

theorem isRexPrefix_48 (r b : BitVec 4) :
    IsRexPrefix [0x48 ||| hi b ||| hi r <<< 2] (rexOf 8 r b) := by
  have hbyte : ∀ r b : BitVec 4, Rex.isRex (0x48 ||| hi b ||| hi r <<< 2) = true ∧
      Rex.ofByte (0x48 ||| hi b ||| hi r <<< 2) = ⟨true, highBit r, false, highBit b⟩ := by decide
  exact .inr ⟨_, rfl, (hbyte r b).1, (hbyte r b).2.symm⟩

/-- The prefix with the fields the other way round. -/
theorem rex_swap (w : Byte) (r b : BitVec 4) :
    w ||| hi r <<< 2 ||| hi b = w ||| hi b ||| hi r <<< 2 := by
  rw [BitVec.or_assoc, BitVec.or_comm (hi r <<< 2), ← BitVec.or_assoc]

/-- The prefix of an instruction without a register in the `reg` field. -/
theorem rex_base (w : Byte) (b : BitVec 4) : w ||| hi b ||| hi 0 <<< 2 = w ||| hi b := by
  have hzero : hi 0 <<< 2 = 0 := by decide
  rw [hzero]
  exact BitVec.or_zero

/-! ## Operands -/

/-- A byte register has its own number if there is a REX prefix or the number is below 4. -/
def Plain (n : Nat) (rexBytes : List Byte) (r : BitVec 4) : Prop := n = 1 → rexBytes = [] → r < 4

theorem regLoc_plain {n : Nat} {rexBytes : List Byte} {r : BitVec 4} (h : Plain n rexBytes r) :
    regLoc n (!rexBytes.isEmpty) r = .gpr r := by
  rw [regLoc, if_neg]
  rintro ⟨hn, hrex, hlow, -⟩
  rw [Bool.not_eq_false', List.isEmpty_iff] at hrex
  have hlt := h hn hrex
  bv_omega

theorem plain_cons {n : Nat} {byte : Byte} {bs : List Byte} {r : BitVec 4} :
    Plain n (byte :: bs) r := by
  intro _ h
  cases h

theorem plain_of_ne {n : Nat} {rexBytes : List Byte} {r : BitVec 4} (hn : n ≠ 1) :
    Plain n rexBytes r :=
  fun h => absurd h hn

theorem modrm_regs (b r : BitVec 4) :
    0xC0 ||| lo b ||| lo r <<< 3 = fields 3 (lowBits r) (lowBits b) := by
  decide +revert

/-- The address of a memory operand. -/
def address (m : Mem) : X86.Address := ⟨.gpr (num m.reg.id), none, m.off⟩

/-- What `offlen` announces: the field `mod`. -/
theorem offlen_spec {m : Mem} (h : amd64.valid m.reg.id = true) :
    ∃ k : BitVec 2, k ≠ 3 ∧ ¬(lowBits (num m.reg.id) = 5 ∧ k = 0) ∧
      (offlen m m.reg.id).2 = k ++ 0#6 ∧
      ∀ rest, takeDisp k (offset (offlen m m.reg.id).1 m ++ rest) = some (m.off, rest) := by
  have hfive : m.reg.id ≠ rbp ∧ m.reg.id ≠ r13 → lowBits (num m.reg.id) ≠ 5 := by
    rw [eq_of_valid h]
    have hnum : num (amd64.rlo + (num m.reg.id).setWidth 16) = num m.reg.id := by
      rw [← eq_of_valid h]
    rw [hnum]
    generalize num m.reg.id = n
    decide +revert
  unfold offlen
  split_ifs with hzero hbyte
  · refine ⟨0, by decide, fun hand => hfive hzero.2 hand.1, rfl, fun rest => ?_⟩
    rw [hzero.1]
    rfl
  · refine ⟨1, by decide, fun hand => absurd hand.2 (by decide), rfl, fun rest => ?_⟩
    change some ((m.off.setWidth 8).signExtend 32, rest) = _
    rw [← hbyte]
  · exact ⟨2, by decide, fun hand => absurd hand.2 (by decide), rfl, fun rest =>
      X86.takeDisp_disp32 m.off rest⟩

theorem quirk24_eq {id : RegId} (h : amd64.valid id = true) :
    quirk24 id = if lowBits (num id) = 4 then [0x24] else [] := by
  have hiff : ∀ n : BitVec 4, (amd64.rlo + n.setWidth 16 = rsp ∨ amd64.rlo + n.setWidth 16 = r12) ↔
      lowBits n = 4 := by decide
  have hid := hiff (num id)
  rw [← eq_of_valid h] at hid
  simp only [quirk24, hid]

/-- What follows ModRM in a memory operand. -/
def tail (m : Mem) : List Byte := quirk24 m.reg.id ++ offset (offlen m m.reg.id).1 m

/-- The bytes of a memory operand are read back. -/
theorem rmOperand_tail {m : Mem} (h : amd64.valid m.reg.id = true) {x : Byte} {k : BitVec 3}
    (hx : ∀ md : BitVec 2, (offlen m m.reg.id).2 = md ++ 0#6 →
      x = fields md k (lowBits (num m.reg.id))) (n : Nat) (hasRex : Bool) {rex : Rex}
    (hrx : rex.x = false) (hrb : rex.b = highBit (num m.reg.id)) (rest : List Byte) :
    rmOperand n hasRex rex ((x :: tail m) ++ rest) = some (k, .mem (address m), rest) := by
  obtain ⟨md, hmd, hfive, hbit, hdisp⟩ := offlen_spec h
  have hbytes : (x :: tail m) ++ rest =
      baseBytes md k (num m.reg.id) ++ (offset (offlen m m.reg.id).1 m ++ rest) := by
    rw [hx md hbit, baseBytes, tail, quirk24_eq h]
    simp
  rw [hbytes]
  exact X86.rmOperand_baseBytes n hasRex hrx hrb hmd hfive (hdisp rest)

/-! ## Opcodes -/

/-- The operations that have an instruction of their own. -/
def operation : Op2 → Option Operation
  | .add2 => some (.alu 0)
  | .or2 => some (.alu 1)
  | .and2 => some (.alu 4)
  | .sub2 => some (.alu 5)
  | .xor2 => some (.alu 6)
  | .mov => some .mov
  | _ => none

theorem operation_cases {op : Op2} {o : Operation} (h : operation op = some o) :
    op = .add2 ∨ op = .or2 ∨ op = .and2 ∨ op = .sub2 ∨ op = .xor2 ∨ op = .mov := by
  cases op <;> simp [operation] at h ⊢

section Opcodes

variable {op : Op2} {o : Operation} (h : operation op = some o)
include h

theorem not_other : Op2.isOther op = false ∧ op ≠ .lea2 := by
  rcases operation_cases h with rfl | rfl | rfl | rfl | rfl | rfl <;> decide

theorem op2val_eq : op2val op = pure (op2Val op) := by
  rcases operation_cases h with rfl | rfl | rfl | rfl | rfl | rfl <;> rfl

theorem form_rmReg : form (op2Val op) = some (.rmReg o) ∧ form (0x01 ||| op2Val op) = some (.rmReg o) := by
  rcases operation_cases h with rfl | rfl | rfl | rfl | rfl | rfl <;> cases h <;> decide

theorem form_regRm :
    form (0x02 ||| op2Val op) = some (.regRm o) ∧ form (0x03 ||| op2Val op) = some (.regRm o) := by
  rcases operation_cases h with rfl | rfl | rfl | rfl | rfl | rfl <;> cases h <;> decide

theorem low_op2Val : (op2Val op).getLsbD 0 = false ∧ (0x01 ||| op2Val op).getLsbD 0 = true ∧
    (0x02 ||| op2Val op).getLsbD 0 = false ∧ (0x03 ||| op2Val op).getLsbD 0 = true := by
  rcases operation_cases h with rfl | rfl | rfl | rfl | rfl | rfl <;> decide

end Opcodes

/-- The arithmetic and bitwise operations have the number of their opcode in `op2Val`. -/
theorem op2Val_alu {op : Op2} {k : BitVec 3} (h : operation op = some (.alu k)) :
    op2Val op = fields 0 k 0 ∧ op ≠ .mov := by
  rcases operation_cases h with rfl | rfl | rfl | rfl | rfl | rfl <;> cases h <;> decide

/-! ## One instruction -/

/-- The call emits the bytes of one instruction. -/
def Emits (e : Emit Unit) (i : Insn) : Prop := ∃ bs, e = bytes bs ∧ Encodes bs i

theorem emits_ite {p : Prop} [Decidable p] {e e' : Emit Unit} {i : Insn}
    (h : p → Emits e i) (h' : ¬ p → Emits e' i) : Emits (if p then e else e') i := by
  split_ifs with hp
  · exact h hp
  · exact h' hp

section Encodes

variable {n : Nat} {rexBytes : List Byte} {op : Op2} {o : Operation} {r b : BitVec 4}

theorem sized {opcode : Byte} (hn : IsSize n) (hp : IsRexPrefix rexBytes (rexOf n r b))
    (hlow : opcode.getLsbD 0 = decide (n ≠ 1)) : Sized n rexBytes (rexOf n r b) opcode :=
  ⟨hn, hp, rfl, hlow⟩

/-- Opcode and operands, with the register in the `reg` field as source. -/
theorem encodes_rmReg (ho : operation op = some o) (hn : IsSize n)
    (hp : IsRexPrefix rexBytes (rexOf n r b)) (hr : Plain n rexBytes r) {bs : List Byte} {l : Loc}
    (hrm : ∀ rest, rmOperand n (!rexBytes.isEmpty) (rexOf n r b) (bs ++ rest) =
      some (lowBits r, l, rest)) :
    Encodes (assemble (decide (n = 2)) rexBytes
      (if n = 1 then op2Val op else 0x01 ||| op2Val op) bs) (.basic ⟨n, o, l, .loc (.gpr r)⟩) := by
  have hform : form (if n = 1 then op2Val op else 0x01 ||| op2Val op) = some (.rmReg o) := by
    split_ifs
    · exact (form_rmReg ho).1
    · exact (form_rmReg ho).2
  have hlow : (if n = 1 then op2Val op else 0x01 ||| op2Val op).getLsbD 0 = decide (n ≠ 1) := by
    split_ifs with hone
    · rw [(low_op2Val ho).1]
      simp [hone]
    · rw [(low_op2Val ho).2.1]
      simp [hone]
  have h := X86.encodes_rmReg (sized hn hp hlow) hform hrm
  simpa only [rexOf, X86.extend_bits, regLoc_plain hr] using h

/-- Opcode and operands, with the register in the `reg` field as destination. -/
theorem encodes_regRm (ho : operation op = some o) (hn : IsSize n)
    (hp : IsRexPrefix rexBytes (rexOf n r b)) (hr : Plain n rexBytes r) {bs : List Byte} {l : Loc}
    (hrm : ∀ rest, rmOperand n (!rexBytes.isEmpty) (rexOf n r b) (bs ++ rest) =
      some (lowBits r, l, rest)) :
    Encodes (assemble (decide (n = 2)) rexBytes
      (if n = 1 then 0x02 ||| op2Val op else 0x03 ||| op2Val op) bs) (.basic ⟨n, o, .gpr r, .loc l⟩) := by
  have hform : form (if n = 1 then 0x02 ||| op2Val op else 0x03 ||| op2Val op) =
      some (.regRm o) := by
    split_ifs
    · exact (form_regRm ho).1
    · exact (form_regRm ho).2
  have hlow : (if n = 1 then 0x02 ||| op2Val op else 0x03 ||| op2Val op).getLsbD 0 =
      decide (n ≠ 1) := by
    split_ifs with hone
    · rw [(low_op2Val ho).2.2.1]
      simp [hone]
    · rw [(low_op2Val ho).2.2.2]
      simp [hone]
  have h := X86.encodes_regRm (sized hn hp hlow) hform hrm
  simpa only [rexOf, X86.extend_bits, regLoc_plain hr] using h

/-- Two registers. -/
theorem encodes_regs (n : Nat) (rexBytes : List Byte) (ho : operation op = some o) (hn : IsSize n)
    (hp : IsRexPrefix rexBytes (rexOf n r b)) (hr : Plain n rexBytes r)
    (hb : Plain n rexBytes b) :
    Encodes (assemble (decide (n = 2)) rexBytes
      (if n = 1 then op2Val op else 0x01 ||| op2Val op) [0xC0 ||| lo b ||| lo r <<< 3])
      (.basic ⟨n, o, .gpr b, .loc (.gpr r)⟩) := by
  apply encodes_rmReg ho hn hp hr
  intro rest
  rw [modrm_regs, ← regLoc_plain hb]
  exact X86.rmOperand_reg n _ rfl

end Encodes

/-- A register and memory. -/
theorem modrm_mem (md : BitVec 2) (b r : BitVec 4) :
    (md ++ 0#6) ||| lo b ||| lo r <<< 3 = fields md (lowBits r) (lowBits b) ∧
      (md ++ 0#6) ||| lo r <<< 3 ||| lo b = fields md (lowBits r) (lowBits b) := by
  decide +revert

section Memory

variable {n : Nat} {rexBytes : List Byte} {op : Op2} {o : Operation} {r : BitVec 4} {m : Mem}

theorem encodes_regMem (n : Nat) (rexBytes : List Byte) (ho : operation op = some o) (hn : IsSize n)
    (hm : amd64.valid m.reg.id = true) (hp : IsRexPrefix rexBytes (rexOf n r (num m.reg.id)))
    (hr : Plain n rexBytes r) :
    Encodes (assemble (decide (n = 2)) rexBytes
      (if n = 1 then op2Val op else 0x01 ||| op2Val op)
      (((offlen m m.reg.id).2 ||| lo (num m.reg.id) ||| lo r <<< 3) :: tail m))
      (.basic ⟨n, o, .mem (address m), .loc (.gpr r)⟩) := by
  apply encodes_rmReg ho hn hp hr
  intro rest
  apply rmOperand_tail hm
  · intro md hmd
    rw [hmd, (modrm_mem md _ r).1]
  · rfl
  · rfl

theorem encodes_memReg (n : Nat) (rexBytes : List Byte) (ho : operation op = some o) (hn : IsSize n)
    (hm : amd64.valid m.reg.id = true) (hp : IsRexPrefix rexBytes (rexOf n r (num m.reg.id)))
    (hr : Plain n rexBytes r) :
    Encodes (assemble (decide (n = 2)) rexBytes
      (if n = 1 then 0x02 ||| op2Val op else 0x03 ||| op2Val op)
      (((offlen m m.reg.id).2 ||| lo r <<< 3 ||| lo (num m.reg.id)) :: tail m))
      (.basic ⟨n, o, .gpr r, .loc (.mem (address m))⟩) := by
  apply encodes_regRm ho hn hp hr
  intro rest
  apply rmOperand_tail hm
  · intro md hmd
    rw [hmd, (modrm_mem md _ r).2]
  · rfl
  · rfl

end Memory

theorem high_of_lt {r : BitVec 4} (h : r < 4) : highBit r = false := by
  decide +revert

section Shapes

variable (enc : Encoders) {op : Op2} {o : Operation}

theorem op2RegReg_emits (ho : operation op = some o) {src dst : Reg}
    (hs : amd64.valid src.id = true) (hd : amd64.valid dst.id = true)
    (hn : IsSize src.kind.size) :
    Emits (op2RegReg enc op src dst)
      (.basic ⟨src.kind.size, o, .gpr (num dst.id), .loc (.gpr (num src.id))⟩) := by
  rw [op2RegReg, if_neg (by simp [(not_other ho).1])]
  simp only [assert, (not_other ho).2, ne_eq, not_false_eq_true, decide_true, if_true, pure_bind,
    op2val_eq ho, lohi, lohiId_eq hs, lohiId_eq hd, lt_rsp_iff hs, lt_rsp_iff hd]
  generalize num src.id = r
  generalize num dst.id = b
  generalize src.kind.size = n at hn ⊢
  rcases hn with rfl | rfl | rfl | rfl
  · refine emits_ite (fun hc => ⟨_, rfl, ?_⟩) fun _ => ⟨_, rfl, ?_⟩
    · exact encodes_regs 1 [] ho (.inl rfl)
        (isRexPrefix_nil (by decide) ⟨high_of_lt hc.1, high_of_lt hc.2⟩) (fun _ _ => hc.1)
        fun _ _ => hc.2
    · exact encodes_regs 1 _ ho (.inl rfl) (isRexPrefix_40 (by decide)) plain_cons plain_cons
  · refine emits_ite (fun hc => ⟨_, rfl, ?_⟩) fun _ => ⟨_, rfl, ?_⟩
    · exact encodes_regs 2 [] ho (.inr (.inl rfl))
        (isRexPrefix_nil (by decide) (high_clear_iff.mp hc)) (plain_of_ne (by decide))
        (plain_of_ne (by decide))
    · exact encodes_regs 2 _ ho (.inr (.inl rfl)) (isRexPrefix_40 (by decide)) plain_cons plain_cons
  · refine emits_ite (fun hc => ⟨_, rfl, ?_⟩) fun _ => ⟨_, rfl, ?_⟩
    · exact encodes_regs 4 [] ho (.inr (.inr (.inl rfl)))
        (isRexPrefix_nil (by decide) (high_clear_iff.mp hc)) (plain_of_ne (by decide))
        (plain_of_ne (by decide))
    · exact encodes_regs 4 _ ho (.inr (.inr (.inl rfl))) (isRexPrefix_40 (by decide)) plain_cons
        plain_cons
  · exact ⟨_, rfl, encodes_regs 8 _ ho (.inr (.inr (.inr rfl))) (isRexPrefix_48 r b) plain_cons
      plain_cons⟩

theorem op2RegMem_emits (ho : operation op = some o) {src : Reg} {dst : Mem}
    (hs : amd64.valid src.id = true) (hd : amd64.valid dst.reg.id = true)
    (hn : IsSize dst.reg.kind.size) (hsize : src.kind.size = dst.reg.kind.size) :
    Emits (op2RegMem enc op src dst)
      (.basic ⟨dst.reg.kind.size, o, .mem (address dst), .loc (.gpr (num src.id))⟩) := by
  rw [op2RegMem, if_neg (by simp [(not_other ho).1])]
  simp only [assert, (not_other ho).2, ne_eq, not_false_eq_true, decide_true, if_true, pure_bind,
    op2val_eq ho, lohi, lohiId_eq hs, lohiId_eq hd, lt_rsp_iff hs, hsize]
  generalize num src.id = r
  generalize hk : dst.reg.kind.size = n at hn ⊢
  rcases hn with rfl | rfl | rfl | rfl
  · refine ⟨_, rfl, ?_⟩
    split_ifs with hc
    · exact encodes_regMem 1 [] ho (.inl rfl) hd
        (isRexPrefix_nil (by decide) ⟨high_of_lt hc.1, hi_eq_zero_iff.mp hc.2⟩) fun _ _ => hc.1
    · exact encodes_regMem 1 _ ho (.inl rfl) hd (isRexPrefix_40 (by decide)) plain_cons
  · refine ⟨_, rfl, ?_⟩
    split_ifs with hc
    · exact encodes_regMem 2 [] ho (.inr (.inl rfl)) hd
        (isRexPrefix_nil (by decide) (high_clear_iff.mp hc)) (plain_of_ne (by decide))
    · exact encodes_regMem 2 _ ho (.inr (.inl rfl)) hd (isRexPrefix_40 (by decide)) plain_cons
  · refine ⟨_, rfl, ?_⟩
    split_ifs with hc
    · exact encodes_regMem 4 [] ho (.inr (.inr (.inl rfl))) hd
        (isRexPrefix_nil (by decide) (high_clear_iff.mp hc)) (plain_of_ne (by decide))
    · exact encodes_regMem 4 _ ho (.inr (.inr (.inl rfl))) hd (isRexPrefix_40 (by decide)) plain_cons
  · exact ⟨_, rfl, encodes_regMem 8 _ ho (.inr (.inr (.inr rfl))) hd (isRexPrefix_48 _ _) plain_cons⟩

theorem op2MemReg_emits (ho : operation op = some o) {src : Mem} {dst : Reg}
    (hs : amd64.valid src.reg.id = true) (hd : amd64.valid dst.id = true)
    (hn : IsSize src.reg.kind.size) (hsize : src.reg.kind.size = dst.kind.size) :
    Emits (op2MemReg enc op src dst)
      (.basic ⟨src.reg.kind.size, o, .gpr (num dst.id), .loc (.mem (address src))⟩) := by
  rw [op2MemReg, if_neg (by simp [(not_other ho).1])]
  simp only [assert, (not_other ho).2, ne_eq, not_false_eq_true, decide_true, if_true, pure_bind,
    true_or, op2val_eq ho, lohi, lohiId_eq hs, lohiId_eq hd, lt_rsp_iff hd, hsize, rex_swap]
  rw [hsize] at hn
  generalize num dst.id = r
  generalize dst.kind.size = n at hn ⊢
  rcases hn with rfl | rfl | rfl | rfl
  · refine ⟨_, rfl, ?_⟩
    split_ifs with hc
    · exact encodes_memReg 1 [] ho (.inl rfl) hs
        (isRexPrefix_nil (by decide) ⟨high_of_lt hc.1, hi_eq_zero_iff.mp hc.2⟩) fun _ _ => hc.1
    · exact encodes_memReg 1 _ ho (.inl rfl) hs (isRexPrefix_40 (by decide)) plain_cons
  · refine ⟨_, rfl, ?_⟩
    split_ifs with hc
    · exact encodes_memReg 2 [] ho (.inr (.inl rfl)) hs
        (isRexPrefix_nil (by decide) (high_clear_iff.mp hc).symm) (plain_of_ne (by decide))
    · exact encodes_memReg 2 _ ho (.inr (.inl rfl)) hs (isRexPrefix_40 (by decide)) plain_cons
  · refine ⟨_, rfl, ?_⟩
    split_ifs with hc
    · exact encodes_memReg 4 [] ho (.inr (.inr (.inl rfl))) hs
        (isRexPrefix_nil (by decide) (high_clear_iff.mp hc).symm) (plain_of_ne (by decide))
    · exact encodes_memReg 4 _ ho (.inr (.inr (.inl rfl))) hs (isRexPrefix_40 (by decide)) plain_cons
  · have hop : op2Val op ||| 0x03 = 0x03 ||| op2Val op := BitVec.or_comm _ _
    rw [hop]
    exact ⟨_, rfl, encodes_memReg 8 _ ho (.inr (.inr (.inr rfl))) hs (isRexPrefix_48 _ _) plain_cons⟩

end Shapes

/-! ## Constants -/

theorem fits_of_fits_one {n : Nat} {v : BitVec 64} (hn : 1 ≤ n) (hn' : n ≤ 8) (h : Fits 1 v) :
    Fits n v := by
  apply BitVec.eq_of_getLsbD_eq
  intro i hi
  have hbit : ∀ j, j < 64 → v.getLsbD j = if j < 8 then v.getLsbD j else v.getLsbD 7 := by
    intro j hj
    conv_lhs => rw [h]
    rw [BitVec.getLsbD_signExtend, BitVec.msb_eq_getLsbD_last]
    simp only [BitVec.getLsbD_setWidth, hj, decide_true, Bool.true_and]
    split_ifs with hlow
    · simp [hlow]
    · simp
  rw [BitVec.getLsbD_signExtend, BitVec.msb_eq_getLsbD_last]
  simp only [BitVec.getLsbD_setWidth, hi, decide_true, Bool.true_and]
  split_ifs with hlow
  · simp [hlow]
  · rw [hbit i hi, hbit (8 * n - 1) (by omega), if_neg (by omega)]
    simp only [show 8 * n - 1 < 8 * n by omega, decide_true, Bool.true_and]
    split_ifs with h8
    · rw [show 8 * n - 1 = 7 by omega]
    · rfl

/-- The operation in the `reg` field. -/
theorem modrm_op (k : BitVec 3) (b : BitVec 4) :
    0xC0 ||| fields 0 k 0 ||| lo b = fields 3 k (lowBits b) := by
  decide +revert

theorem modrm_op_mem (md : BitVec 2) (k : BitVec 3) (b : BitVec 4) :
    (md ++ 0#6) ||| fields 0 k 0 ||| lo b = fields md k (lowBits b) := by
  decide +revert

section Constants

variable {n : Nat} {rexBytes : List Byte} {k : BitVec 3} {b : BitVec 4} {m : Mem}

theorem isRexPrefix_40_base (hn : n ≠ 8) : IsRexPrefix [0x40 ||| hi b] (rexOf n 0 b) := by
  rw [← rex_base]
  exact isRexPrefix_40 hn

theorem isRexPrefix_48_base : IsRexPrefix [0x48 ||| hi b] (rexOf 8 0 b) := by
  rw [← rex_base]
  exact isRexPrefix_48 0 b

theorem isRexPrefix_nil_base (hn : n ≠ 8) (h : hi b = 0) : IsRexPrefix [] (rexOf n 0 b) :=
  isRexPrefix_nil hn ⟨by decide, hi_eq_zero_iff.mp h⟩

theorem rmOperand_op (hb : Plain n rexBytes b) (rest : List Byte) :
    rmOperand n (!rexBytes.isEmpty) (rexOf n 0 b) ([0xC0 ||| fields 0 k 0 ||| lo b] ++ rest) =
      some (k, .gpr b, rest) := by
  rw [modrm_op, ← regLoc_plain hb]
  exact X86.rmOperand_reg n _ rfl

theorem rmOperand_op_mem (hm : amd64.valid m.reg.id = true) (rest : List Byte) :
    rmOperand n (!rexBytes.isEmpty) (rexOf n 0 (num m.reg.id))
      ((((offlen m m.reg.id).2 ||| fields 0 k 0 ||| lo (num m.reg.id)) :: tail m) ++ rest) =
      some (k, .mem (address m), rest) := by
  apply rmOperand_tail hm
  · intro md hmd
    rw [hmd, modrm_op_mem]
  · rfl
  · rfl

/-- An instruction with a constant whose low bits are these. -/
def EmitsImm (e : Emit Unit) (n : Nat) (o : Operation) (l : Loc) (v : BitVec 64) : Prop :=
  ∃ v', Emits e (.basic ⟨n, o, l, .imm v'⟩) ∧ v'.setWidth (8 * n) = v.setWidth (8 * n)

theorem EmitsImm.ite {p : Prop} [Decidable p] {e e' : Emit Unit} {o : Operation} {l : Loc}
    {v : BitVec 64} (h : p → EmitsImm e n o l v) (h' : ¬ p → EmitsImm e' n o l v) :
    EmitsImm (if p then e else e') n o l v := by
  split_ifs with hp
  · exact h hp
  · exact h' hp

/-- A constant that is its own sign extension. -/
theorem EmitsImm.of_fits {j : Nat} {bs : List Byte} {o : Operation} {l : Loc} {v : BitVec 64}
    (hv : Fits j v) (h : Encodes bs (.basic ⟨n, o, l, .imm ((v.setWidth (8 * j)).signExtend 64)⟩)) :
    EmitsImm (bytes bs) n o l v := by
  rw [← hv] at h
  exact ⟨v, ⟨bs, rfl, h⟩, rfl⟩

/-- A constant as wide as the operand. -/
theorem EmitsImm.of_width {bs : List Byte} {o : Operation} {l : Loc} {v : BitVec 64} (hn : n ≤ 8)
    (h : Encodes bs (.basic ⟨n, o, l, .imm ((v.setWidth (8 * n)).signExtend 64)⟩)) :
    EmitsImm (bytes bs) n o l v :=
  ⟨_, ⟨bs, rfl, h⟩, setWidth_signExtend (by omega) _⟩

theorem form_accImm (k : BitVec 3) : form (0x04 ||| fields 0 k 0) = some (.accImm k) ∧
    form (0x05 ||| fields 0 k 0) = some (.accImm k) ∧
    (0x04 ||| fields 0 k 0).getLsbD 0 = false ∧ (0x05 ||| fields 0 k 0).getLsbD 0 = true := by
  decide +revert

theorem num_rax {id : RegId} (h : id = rax) : num id = 0 := by
  rw [h]
  decide

variable {op : Op2} {c : Const} {dst : Reg}

/-- A byte register below `RSP`. -/
theorem op2ConstReg8_emits (ho : operation op = some (.alu k)) (hd : amd64.valid dst.id = true)
    (hv : Fits 1 c.val) (hlow : dst.id < rsp) :
    EmitsImm (op2ConstReg8 op c dst) 1 (.alu k) (.gpr (num dst.id)) c.val := by
  simp only [op2ConstReg8, op2val_eq ho, lohi, lohiId_eq hd, pure_bind, (op2Val_alu ho).1]
  rw [if_pos hv]
  refine .ite (fun hrax => .of_fits hv ?_) fun _ => ?_
  · rw [num_rax hrax]
    exact X86.encodes_accImm (sized (.inl rfl) (isRexPrefix_nil_base (b := 0) (by decide) (by decide))
      (form_accImm k).2.2.1) (form_accImm k).1 c.val
  · rw [if_pos hlow]
    have hlt := (lt_rsp_iff hd).mp hlow
    exact .of_fits hv (X86.encodes_rmImm (sized (.inl rfl)
      (isRexPrefix_nil_base (by decide) (hi_eq_zero_iff.mpr (high_of_lt hlt))) (by decide))
      (by decide) c.val (rmOperand_op fun _ _ => hlt))

theorem op2ConstReg16_emits (ho : operation op = some (.alu k)) (hd : amd64.valid dst.id = true)
    (hv : Fits 2 c.val) :
    EmitsImm (op2ConstReg16 op c dst) 2 (.alu k) (.gpr (num dst.id)) c.val := by
  simp only [op2ConstReg16, op2val_eq ho, lohi, lohiId_eq hd, pure_bind, (op2Val_alu ho).1]
  refine .ite (fun hone => .ite (fun hc => ?_) fun _ => ?_) fun _ => ?_
  · exact .of_fits hone (X86.encodes_rmImm8 (sized (.inr (.inl rfl))
      (isRexPrefix_nil_base (by decide) hc) (by decide)) (by decide) c.val
      (rmOperand_op (plain_of_ne (by decide))))
  · exact .of_fits hone (X86.encodes_rmImm8 (sized (.inr (.inl rfl))
      (isRexPrefix_40_base (by decide)) (by decide)) (by decide) c.val (rmOperand_op plain_cons))
  · rw [if_pos hv]
    refine .ite (fun hrax => .of_fits hv ?_) fun _ => .ite (fun hc => .of_fits hv ?_) fun _ =>
      .of_fits hv ?_
    · rw [num_rax hrax]
      exact X86.encodes_accImm (sized (.inr (.inl rfl))
        (isRexPrefix_nil_base (b := 0) (by decide) (by decide)) (form_accImm k).2.2.2)
        (form_accImm k).2.1 c.val
    · exact X86.encodes_rmImm (sized (.inr (.inl rfl)) (isRexPrefix_nil_base (by decide) hc)
        (by decide)) (by decide) c.val (rmOperand_op (plain_of_ne (by decide)))
    · exact X86.encodes_rmImm (sized (.inr (.inl rfl)) (isRexPrefix_40_base (by decide)) (by decide))
        (by decide) c.val (rmOperand_op plain_cons)

theorem op2ConstReg32_emits (ho : operation op = some (.alu k)) (hd : amd64.valid dst.id = true)
    (hv : Fits 4 c.val) :
    EmitsImm (op2ConstReg32 op c dst) 4 (.alu k) (.gpr (num dst.id)) c.val := by
  simp only [op2ConstReg32, op2val_eq ho, lohi, lohiId_eq hd, pure_bind, (op2Val_alu ho).1]
  refine .ite (fun hone => .ite (fun hc => ?_) fun _ => ?_) fun _ => ?_
  · exact .of_fits hone (X86.encodes_rmImm8 (sized (.inr (.inr (.inl rfl)))
      (isRexPrefix_nil_base (by decide) hc) (by decide)) (by decide) c.val
      (rmOperand_op (plain_of_ne (by decide))))
  · exact .of_fits hone (X86.encodes_rmImm8 (sized (.inr (.inr (.inl rfl)))
      (isRexPrefix_40_base (by decide)) (by decide)) (by decide) c.val (rmOperand_op plain_cons))
  · rw [if_pos hv]
    refine .ite (fun hrax => .of_fits hv ?_) fun _ => .ite (fun hc => .of_fits hv ?_) fun _ =>
      .of_fits hv ?_
    · rw [num_rax hrax]
      exact X86.encodes_accImm (sized (.inr (.inr (.inl rfl)))
        (isRexPrefix_nil_base (b := 0) (by decide) (by decide)) (form_accImm k).2.2.2)
        (form_accImm k).2.1 c.val
    · exact X86.encodes_rmImm (sized (.inr (.inr (.inl rfl))) (isRexPrefix_nil_base (by decide) hc)
        (by decide)) (by decide) c.val (rmOperand_op (plain_of_ne (by decide)))
    · exact X86.encodes_rmImm (sized (.inr (.inr (.inl rfl))) (isRexPrefix_40_base (by decide))
        (by decide)) (by decide) c.val (rmOperand_op plain_cons)

/-- Without the constants that are copied to a register first. -/
theorem op2ConstReg64_emits (enc : Encoders) (ho : operation op = some (.alu k))
    (hd : amd64.valid dst.id = true) (hv : Fits 4 c.val) :
    EmitsImm (op2ConstReg64 enc op c dst) 8 (.alu k) (.gpr (num dst.id)) c.val := by
  simp only [op2ConstReg64, op2val_eq ho, lohi, lohiId_eq hd, pure_bind, (op2Val_alu ho).1]
  refine .ite (fun hone => ?_) fun _ => ?_
  · exact .of_fits hone (X86.encodes_rmImm8 (sized (.inr (.inr (.inr rfl))) isRexPrefix_48_base
      (by decide)) (by decide) c.val (rmOperand_op plain_cons))
  · rw [if_pos hv]
    refine .ite (fun hrax => .of_fits hv ?_) fun _ => .of_fits hv ?_
    · rw [num_rax hrax]
      exact X86.encodes_accImm (sized (.inr (.inr (.inr rfl))) (isRexPrefix_48_base (b := 0))
        (form_accImm k).2.2.2) (form_accImm k).2.1 c.val
    · exact X86.encodes_rmImm (sized (.inr (.inr (.inr rfl))) isRexPrefix_48_base (by decide))
        (by decide) c.val (rmOperand_op plain_cons)

/-- Without the constants that are copied to a register first. -/
theorem op2ConstMem_emits (enc : Encoders) (op2 : Op2 → Arg → Arg → Emit Unit)
    (ho : operation op = some (.alu k)) (hm : amd64.valid m.reg.id = true)
    (hn : IsSize m.reg.kind.size) (hv : m.reg.kind.size = 8 → Fits 4 c.val) :
    EmitsImm (op2ConstMem enc op2 op c m) m.reg.kind.size (.alu k) (.mem (address m)) c.val := by
  rw [op2ConstMem, if_neg (op2Val_alu ho).2, if_neg (by simp [(not_other ho).1])]
  simp only [assert, (not_other ho).2, ne_eq, not_false_eq_true, decide_true, if_true, pure_bind,
    op2val_eq ho, lohiId_eq hm, (op2Val_alu ho).1, decide_eq_true_eq]
  generalize m.reg.kind.size = n at hn hv ⊢
  rcases hn with rfl | rfl | rfl | rfl
  · refine .of_width (by decide) ?_
    split_ifs with hc
    · exact X86.encodes_rmImm (sized (.inl rfl) (isRexPrefix_nil_base (by decide) hc) (by decide))
        (by decide) c.val (rmOperand_op_mem hm)
    · exact X86.encodes_rmImm (sized (.inl rfl) (isRexPrefix_40_base (by decide)) (by decide))
        (by decide) c.val (rmOperand_op_mem hm)
  · by_cases hone : Fits 1 c.val
    · simp only [if_pos hone]
      refine .of_fits hone ?_
      split_ifs with hc
      · exact X86.encodes_rmImm8 (sized (.inr (.inl rfl)) (isRexPrefix_nil_base (by decide) hc)
          (by decide)) (by decide) c.val (rmOperand_op_mem hm)
      · exact X86.encodes_rmImm8 (sized (.inr (.inl rfl)) (isRexPrefix_40_base (by decide))
          (by decide)) (by decide) c.val (rmOperand_op_mem hm)
    · simp only [if_neg hone]
      refine .of_width (by decide) ?_
      split_ifs with hc
      · exact X86.encodes_rmImm (sized (.inr (.inl rfl)) (isRexPrefix_nil_base (by decide) hc)
          (by decide)) (by decide) c.val (rmOperand_op_mem hm)
      · exact X86.encodes_rmImm (sized (.inr (.inl rfl)) (isRexPrefix_40_base (by decide))
          (by decide)) (by decide) c.val (rmOperand_op_mem hm)
  · by_cases hone : Fits 1 c.val
    · simp only [if_pos hone]
      refine .of_fits hone ?_
      split_ifs with hc
      · exact X86.encodes_rmImm8 (sized (.inr (.inr (.inl rfl))) (isRexPrefix_nil_base (by decide) hc)
          (by decide)) (by decide) c.val (rmOperand_op_mem hm)
      · exact X86.encodes_rmImm8 (sized (.inr (.inr (.inl rfl))) (isRexPrefix_40_base (by decide))
          (by decide)) (by decide) c.val (rmOperand_op_mem hm)
    · simp only [if_neg hone]
      refine .of_width (by decide) ?_
      split_ifs with hc
      · exact X86.encodes_rmImm (sized (.inr (.inr (.inl rfl))) (isRexPrefix_nil_base (by decide) hc)
          (by decide)) (by decide) c.val (rmOperand_op_mem hm)
      · exact X86.encodes_rmImm (sized (.inr (.inr (.inl rfl))) (isRexPrefix_40_base (by decide))
          (by decide)) (by decide) c.val (rmOperand_op_mem hm)
  · rw [if_pos (hv rfl)]
    by_cases hone : Fits 1 c.val
    · simp only [if_pos hone]
      exact .of_fits hone (X86.encodes_rmImm8 (sized (.inr (.inr (.inr rfl))) isRexPrefix_48_base
        (by decide)) (by decide) c.val (rmOperand_op_mem hm))
    · simp only [if_neg hone]
      exact .of_fits (hv rfl) (X86.encodes_rmImm (sized (.inr (.inr (.inr rfl))) isRexPrefix_48_base
        (by decide)) (by decide) c.val (rmOperand_op_mem hm))

/-! ## Moves of constants -/

theorem form_movReg (b : BitVec 4) : form (0xB0 ||| lo b) = some (.movReg8 (lowBits b)) ∧
    form (0xB8 ||| lo b) = some (.movReg (lowBits b)) := by
  decide +revert

/-- No operation in the `reg` field. -/
theorem or_fields_zero (x : Byte) : x ||| fields 0 0 0 = x := by
  have hzero : fields 0 0 0 = 0 := by decide
  rw [hzero]
  exact BitVec.or_zero

theorem encodes_movReg8 (rexBytes : List Byte) (hp : IsRexPrefix rexBytes (rexOf 1 0 b))
    (hb : Plain 1 rexBytes b) (v : BitVec 64) :
    Encodes (assemble false rexBytes (0xB0 ||| lo b) (leBytes 1 v))
      (.basic ⟨1, .mov, .gpr b, .imm ((v.setWidth (8 * 1)).signExtend 64)⟩) := by
  have h := X86.encodes_movReg8 hp (form_movReg b).1 v
  simpa only [rexOf, X86.extend_bits, regLoc_plain hb] using h

theorem encodes_movReg (n : Nat) (rexBytes : List Byte) (hn : n = 2 ∨ n = 4 ∨ n = 8)
    (hp : IsRexPrefix rexBytes (rexOf n 0 b)) (v : BitVec 64) :
    Encodes (assemble (decide (n = 2)) rexBytes (0xB8 ||| lo b) (leBytes n v))
      (.basic ⟨n, .mov, .gpr b, .imm ((v.setWidth (8 * n)).signExtend 64)⟩) := by
  have h := X86.encodes_movReg (decide (n = 2)) hp (form_movReg b).2 v
  have hwidth : X86.width (decide (n = 2)) (rexOf n 0 b) = n := by
    rcases hn with rfl | rfl | rfl <;> rfl
  rw [hwidth] at h
  simpa only [rexOf, X86.extend_bits] using h

theorem movConstReg64_emits (hd : amd64.valid dst.id = true) :
    EmitsImm (movConstReg64 c dst) 8 .mov (.gpr (num dst.id)) c.val := by
  simp only [movConstReg64, lohi, lohiId_eq hd, pure_bind]
  refine .ite (fun hv => .of_fits hv ?_) fun _ => .of_width (by decide) ?_
  · rw [← or_fields_zero 0xC0]
    exact X86.encodes_movRm (sized (.inr (.inr (.inr rfl))) isRexPrefix_48_base (by decide))
      (by decide) c.val (rmOperand_op plain_cons)
  · exact encodes_movReg 8 _ (.inr (.inr rfl)) isRexPrefix_48_base c.val

/-- A constant other than zero. -/
theorem movConstReg_emits (hd : amd64.valid dst.id = true) (hn : IsSize dst.kind.size)
    (hv : Fits dst.kind.size c.val) (hne : c.val ≠ 0) :
    EmitsImm (movConstReg c dst) dst.kind.size .mov (.gpr (num dst.id)) c.val := by
  rw [movConstReg, if_neg hne]
  generalize dst.kind.size = n at hn hv ⊢
  rcases hn with rfl | rfl | rfl | rfl
  · simp only [movConstReg8, lohi, lohiId_eq hd, pure_bind, lt_rsp_iff hd]
    rw [if_pos hv]
    refine .ite (fun hlt => .of_fits hv ?_) fun _ => .of_fits hv ?_
    · exact encodes_movReg8 [] (isRexPrefix_nil_base (by decide)
        (hi_eq_zero_iff.mpr (high_of_lt hlt))) (fun _ _ => hlt) c.val
    · exact encodes_movReg8 _ (isRexPrefix_40_base (by decide)) plain_cons c.val
  · simp only [movConstReg16, lohi, lohiId_eq hd, pure_bind]
    rw [if_pos hv]
    refine .ite (fun hc => .of_fits hv ?_) fun _ => .of_fits hv ?_
    · exact encodes_movReg 2 [] (.inl rfl) (isRexPrefix_nil_base (by decide) hc) c.val
    · exact encodes_movReg 2 _ (.inl rfl) (isRexPrefix_40_base (by decide)) c.val
  · simp only [movConstReg32, lohi, lohiId_eq hd, pure_bind]
    rw [if_pos hv]
    refine .ite (fun hc => .of_fits hv ?_) fun _ => .of_fits hv ?_
    · exact encodes_movReg 4 [] (.inr (.inl rfl)) (isRexPrefix_nil_base (by decide) hc) c.val
    · exact encodes_movReg 4 _ (.inr (.inl rfl)) (isRexPrefix_40_base (by decide)) c.val
  · exact movConstReg64_emits hd

/-- Without the constants that are copied to a register first. -/
theorem movConstMem_emits (op2 : Op2 → Arg → Arg → Emit Unit) (hm : amd64.valid m.reg.id = true)
    (hn : IsSize m.reg.kind.size) (hv : m.reg.kind.size = 8 → Fits 4 c.val) :
    EmitsImm (movConstMem op2 c m) m.reg.kind.size .mov (.mem (address m)) c.val := by
  rw [movConstMem]
  simp only [pure_bind, lohiId_eq hm]
  generalize m.reg.kind.size = n at hn hv ⊢
  rw [← or_fields_zero (offlen m m.reg.id).2]
  rcases hn with rfl | rfl | rfl | rfl
  · refine .of_width (by decide) ?_
    split_ifs with hc
    · exact X86.encodes_movRm (sized (.inl rfl) (isRexPrefix_nil_base (by decide) hc) (by decide))
        (by decide) c.val (rmOperand_op_mem hm)
    · exact X86.encodes_movRm (sized (.inl rfl) (isRexPrefix_40_base (by decide)) (by decide))
        (by decide) c.val (rmOperand_op_mem hm)
  · refine .of_width (by decide) ?_
    split_ifs with hc
    · exact X86.encodes_movRm (sized (.inr (.inl rfl)) (isRexPrefix_nil_base (by decide) hc)
        (by decide)) (by decide) c.val (rmOperand_op_mem hm)
    · exact X86.encodes_movRm (sized (.inr (.inl rfl)) (isRexPrefix_40_base (by decide)) (by decide))
        (by decide) c.val (rmOperand_op_mem hm)
  · refine .of_width (by decide) ?_
    split_ifs with hc
    · exact X86.encodes_movRm (sized (.inr (.inr (.inl rfl))) (isRexPrefix_nil_base (by decide) hc)
        (by decide)) (by decide) c.val (rmOperand_op_mem hm)
    · exact X86.encodes_movRm (sized (.inr (.inr (.inl rfl))) (isRexPrefix_40_base (by decide))
        (by decide)) (by decide) c.val (rmOperand_op_mem hm)
  · rw [if_pos (hv rfl)]
    exact .of_fits (hv rfl) (X86.encodes_movRm (sized (.inr (.inr (.inr rfl))) isRexPrefix_48_base
      (by decide)) (by decide) c.val (rmOperand_op_mem hm))

/-- A register below `R8` is cleared by an exclusive or with itself. -/
theorem zeroReg_emits (hd : amd64.valid dst.id = true) (hlow : highBit (num dst.id) = false) :
    Emits (zeroReg dst) (.basic ⟨4, .alu 6, .gpr (num dst.id), .loc (.gpr (num dst.id))⟩) := by
  simp only [zeroReg, lohi, lohiId_eq hd, pure_bind]
  rw [if_pos (hi_eq_zero_iff.mpr hlow)]
  have hxor : operation .xor2 = some (.alu 6) := rfl
  exact ⟨_, rfl, encodes_regs 4 [] hxor (.inr (.inr (.inl rfl))) (isRexPrefix_nil (by decide)
    ⟨hlow, hlow⟩) (plain_of_ne (by decide)) (plain_of_ne (by decide))⟩

/-- The prefix for the others extends the wrong field. -/
theorem zeroReg_high_emits (hd : amd64.valid dst.id = true) (hhigh : highBit (num dst.id) = true) :
    Emits (zeroReg dst) (.basic ⟨8, .alu 6, .gpr (num dst.id &&& 7), .loc (.gpr (num dst.id))⟩) := by
  simp only [zeroReg, lohi, lohiId_eq hd, pure_bind]
  generalize num dst.id = b at hhigh ⊢
  have hhi : hi b = 1 := by
    rw [hi, hhigh]
    rfl
  have hne : ¬ (1 : Byte) = 0 := by decide
  have hlow : lowBits (b &&& 7) = lowBits b ∧ highBit (b &&& 7) = false := by
    clear hhigh hhi
    decide +revert
  rw [hhi, if_neg hne]
  have hform : form 0x31 = some (.rmReg (.alu 6)) := by decide
  have hsized : Sized 8 [0x4E] ⟨true, true, true, false⟩ 0x31 :=
    ⟨.inr (.inr (.inr rfl)), .inr ⟨_, rfl, by decide, by decide⟩, rfl, by decide⟩
  have hrm : ∀ rest, rmOperand 8 true ⟨true, true, true, false⟩
      ([0xC0 ||| lo b ||| lo b <<< 3] ++ rest) = some (lowBits b, .gpr (b &&& 7), rest) := by
    intro rest
    rw [modrm_regs, ← hlow.1]
    exact X86.rmOperand_reg 8 true hlow.2.symm
  have h := X86.encodes_rmReg hsized hform hrm
  have hext : extend true (lowBits b) = b := by
    rw [← hhigh, X86.extend_bits]
  have hreg := @regLoc_plain 8 [0x4E] b (plain_of_ne (by decide))
  rw [hext, hreg] at h
  exact ⟨_, rfl, h⟩

end Constants

/-! ## One-argument instructions -/

/-- The operations of `op1` apart from `ZERO` and `JMP`. -/
def operation1 : Op1 → Option Operation
  | .not1 => some .not
  | .neg1 => some .neg
  | .inc => some .inc
  | .dec => some .dec
  | _ => none

/-- Where an instruction is in the groups of opcodes. -/
structure Grouped (op : Op1) (o : Operation) (f : X86.Form) (k : BitVec 3) : Prop where
  groupOp : X86.groupOp f k = some o
  val : op1lohi op = pure (fields 0 k 0, op1Val op >>> 2)
  form8 : form (0xF6 ||| op1Val op >>> 2) = some f
  form : form (0xF7 ||| op1Val op >>> 2) = some f
  low8 : (0xF6 ||| op1Val op >>> 2).getLsbD 0 = false
  low : (0xF7 ||| op1Val op >>> 2).getLsbD 0 = true
  not_zero : op ≠ .zero ∧ op ≠ .jmp

theorem exists_grouped {op : Op1} {o : Operation} (h : operation1 op = some o) :
    ∃ f k, Grouped op o f k := by
  cases op with
  | not1 =>
    cases h
    exact ⟨.group3, 2, by decide, rfl, by decide, by decide, by decide, by decide, by decide⟩
  | neg1 =>
    cases h
    exact ⟨.group3, 3, by decide, rfl, by decide, by decide, by decide, by decide, by decide⟩
  | inc =>
    cases h
    exact ⟨.group45, 0, by decide, rfl, by decide, by decide, by decide, by decide, by decide⟩
  | dec =>
    cases h
    exact ⟨.group45, 1, by decide, rfl, by decide, by decide, by decide, by decide, by decide⟩
  | zero => cases h
  | jmp => cases h

section Op1

variable {op : Op1} {o : Operation}

theorem rex_41 {b : BitVec 4} (h : ¬ hi b = 0) : (0x41 : Byte) = 0x40 ||| hi b := by
  have hhigh : highBit b = true := by
    rwa [hi_eq_zero_iff, Bool.not_eq_false] at h
  rw [hi, hhigh]
  rfl

theorem op1Reg_emits (ho : operation1 op = some o) {r : Reg} (hr : amd64.valid r.id = true)
    (hn : IsSize r.kind.size) :
    Emits (op1Reg op r) (.basic ⟨r.kind.size, o, .gpr (num r.id), .loc (.gpr (num r.id))⟩) := by
  obtain ⟨f, k, hg⟩ := exists_grouped ho
  have hrsp : rsp ≤ r.id ↔ ¬ num r.id < 4 := by
    rw [← lt_rsp_iff hr]
    bv_omega
  rw [op1Reg, if_neg hg.not_zero.1]
  simp only [lohi, lohiId_eq hr, pure_bind, hg.val, hrsp]
  generalize num r.id = b
  generalize r.kind.size = n at hn ⊢
  rcases hn with rfl | rfl | rfl | rfl
  · refine ⟨_, rfl, ?_⟩
    by_cases hlt : b < 4
    · rw [if_neg (not_not_intro hlt)]
      exact X86.encodes_group (sized (.inl rfl) (isRexPrefix_nil_base (by decide)
        (hi_eq_zero_iff.mpr (high_of_lt hlt))) hg.low8) hg.form8 hg.groupOp
        (rmOperand_op fun _ _ => hlt)
    · rw [if_pos hlt]
      exact X86.encodes_group (sized (.inl rfl) (isRexPrefix_40_base (by decide)) hg.low8) hg.form8
        hg.groupOp (rmOperand_op plain_cons)
  · refine ⟨_, rfl, ?_⟩
    by_cases hc : hi b = 0
    · rw [if_neg (not_not_intro hc)]
      exact X86.encodes_group (sized (.inr (.inl rfl)) (isRexPrefix_nil_base (by decide) hc) hg.low)
        hg.form hg.groupOp (rmOperand_op (plain_of_ne (by decide)))
    · rw [if_pos hc, rex_41 hc]
      exact X86.encodes_group (sized (.inr (.inl rfl)) (isRexPrefix_40_base (by decide)) hg.low)
        hg.form hg.groupOp (rmOperand_op plain_cons)
  · refine ⟨_, rfl, ?_⟩
    by_cases hc : hi b = 0
    · rw [if_neg (not_not_intro hc)]
      exact X86.encodes_group (sized (.inr (.inr (.inl rfl))) (isRexPrefix_nil_base (by decide) hc)
        hg.low) hg.form hg.groupOp (rmOperand_op (plain_of_ne (by decide)))
    · rw [if_pos hc, rex_41 hc]
      exact X86.encodes_group (sized (.inr (.inr (.inl rfl))) (isRexPrefix_40_base (by decide))
        hg.low) hg.form hg.groupOp (rmOperand_op plain_cons)
  · exact ⟨_, rfl, X86.encodes_group (sized (.inr (.inr (.inr rfl))) isRexPrefix_48_base hg.low)
      hg.form hg.groupOp (rmOperand_op plain_cons)⟩

theorem op1Mem_emits (op2 : Op2 → Arg → Arg → Emit Unit) (ho : operation1 op = some o) {m : Mem}
    (hm : amd64.valid m.reg.id = true) (hn : IsSize m.reg.kind.size) :
    Emits (op1Mem op2 op m) (.basic ⟨m.reg.kind.size, o, .mem (address m), .loc (.mem (address m))⟩) := by
  obtain ⟨f, k, hg⟩ := exists_grouped ho
  rw [op1Mem, if_neg hg.not_zero.1]
  simp only [lohiId_eq hm, pure_bind, hg.val]
  generalize m.reg.kind.size = n at hn ⊢
  rcases hn with rfl | rfl | rfl | rfl
  · refine ⟨_, rfl, ?_⟩
    by_cases hc : hi (num m.reg.id) = 0
    · rw [if_neg (not_not_intro hc)]
      exact X86.encodes_group (sized (.inl rfl) (isRexPrefix_nil_base (by decide) hc) hg.low8)
        hg.form8 hg.groupOp (rmOperand_op_mem hm)
    · rw [if_pos hc, rex_41 hc]
      exact X86.encodes_group (sized (.inl rfl) (isRexPrefix_40_base (by decide)) hg.low8)
        hg.form8 hg.groupOp (rmOperand_op_mem hm)
  · refine ⟨_, rfl, ?_⟩
    by_cases hc : hi (num m.reg.id) = 0
    · rw [if_neg (not_not_intro hc)]
      exact X86.encodes_group (sized (.inr (.inl rfl)) (isRexPrefix_nil_base (by decide) hc) hg.low)
        hg.form hg.groupOp (rmOperand_op_mem hm)
    · rw [if_pos hc, rex_41 hc]
      exact X86.encodes_group (sized (.inr (.inl rfl)) (isRexPrefix_40_base (by decide)) hg.low)
        hg.form hg.groupOp (rmOperand_op_mem hm)
  · refine ⟨_, rfl, ?_⟩
    by_cases hc : hi (num m.reg.id) = 0
    · rw [if_neg (not_not_intro hc)]
      exact X86.encodes_group (sized (.inr (.inr (.inl rfl))) (isRexPrefix_nil_base (by decide) hc)
        hg.low) hg.form hg.groupOp (rmOperand_op_mem hm)
    · rw [if_pos hc, rex_41 hc]
      exact X86.encodes_group (sized (.inr (.inr (.inl rfl))) (isRexPrefix_40_base (by decide))
        hg.low) hg.form hg.groupOp (rmOperand_op_mem hm)
  · exact ⟨_, rfl, X86.encodes_group (sized (.inr (.inr (.inr rfl))) isRexPrefix_48_base hg.low)
      hg.form hg.groupOp (rmOperand_op_mem hm)⟩

end Op1

end OneJit.GoJit.Amd64
