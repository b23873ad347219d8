import OneJit.X64.Asm1

/-!
# Memory operands encode to themselves

Read by the rules of the processor, the bytes that the assembler emits for a memory operand name the
base, the index, the scale and the offset of that operand.
-/

namespace OneJit.X64

open X86 (Byte fields)

/-! ## Registers -/

/-- The register is the general one with this number. -/
def Reg.IsGpr (r : Reg) (n : BitVec 4) : Prop := r.id = rax + n.toNat

/-- The three low bits of the number of a register. -/
def low (n : BitVec 4) : BitVec 3 := n.extractLsb' 0 3

theorem extend_low (n : BitVec 4) : X86.extend n.msb (low n) = n := by
  decide +revert

theorem low_beq_four (n : BitVec 4) : ((low n).setWidth 8 == (4 : Byte)) = decide (low n = 4) := by
  decide +revert

theorem low_ne_five {n : BitVec 4} (h : (low n).setWidth 8 ≠ (5 : Byte)) : low n ≠ 5 := by
  intro heq
  rw [heq] at h
  exact h rfl

theorem Reg.IsGpr.rlo {r : Reg} {n : BitVec 4} (h : r.IsGpr n) :
    rlo r = (low n).setWidth 8 := by
  rw [X64.rlo, h]
  clear h
  decide +revert

theorem Reg.IsGpr.testBit {r : Reg} {n : BitVec 4} (h : r.IsGpr n) : r.id.testBit 3 = n.msb := by
  rw [h]
  clear h
  decide +revert

/-- A number between `RAX` and `R15` is that of a general register. -/
theorem isGpr_of_le {r : Reg} (h : rax ≤ r.id ∧ r.id ≤ r15) :
    r.IsGpr (BitVec.ofNat 4 (r.id - rax)) := by
  have hlt : r.id - 512 < 16 := by
    have hle : r.id ≤ 527 := h.2
    omega
  have hle : 512 ≤ r.id := h.1
  rw [Reg.IsGpr, BitVec.toNat_ofNat, Nat.mod_eq_of_lt hlt]
  exact (Nat.add_sub_of_le hle).symm

theorem rhi_eq (r : Reg) : rhi r = (BitVec.ofBool (r.id.testBit 3)).setWidth 8 := by
  have hbit : BitVec.ofNat 8 (r.id >>> 3) &&& (1 : Byte) = BitVec.ofNat 8 ((r.id >>> 3) % 2) := by
    apply BitVec.eq_of_toNat_eq
    rw [BitVec.toNat_and, BitVec.toNat_ofNat, BitVec.toNat_ofNat,
      show (1 : Byte).toNat = 2 ^ 1 - 1 from rfl, Nat.and_two_pow_sub_one_eq_mod]
    omega
  rw [rhi, hbit, Nat.testBit, Nat.one_and_eq_mod_two]
  rcases Nat.mod_two_eq_zero_or_one (r.id >>> 3) with h | h
  · rw [h]
    rfl
  · rw [h]
    rfl

/-! ## REX -/

/-- The REX byte, if it is not zero, has the high bits of the two registers. -/
theorem isRexPrefix_rexByte (defaultSize size : Nat) (base index : Reg) :
    X86.IsRexPrefix
      (if rexByte defaultSize size base index ≠ 0 then [rexByte defaultSize size base index] else [])
      ⟨decide (defaultSize < 64 ∧ 64 ≤ size), false, index.id.testBit 3, base.id.testBit 3⟩ := by
  rw [rexByte, rhi_eq, rhi_eq]
  generalize index.id.testBit 3 = x
  generalize base.id.testBit 3 = b
  by_cases hwide : defaultSize < 64 ∧ 64 ≤ size
  · right
    rw [decide_eq_true hwide, if_pos hwide]
    refine ⟨(BitVec.ofBool b).setWidth 8 ||| (BitVec.ofBool x).setWidth 8 <<< 1 ||| 0x48, ?_⟩
    cases b <;> cases x <;> decide
  · rw [decide_eq_false hwide, if_neg hwide]
    split
    · right
      refine ⟨(BitVec.ofBool b).setWidth 8 ||| (BitVec.ofBool x).setWidth 8 <<< 1 ||| 0x40, ?_⟩
      cases b <;> cases x <;> decide
    · next h =>
      left
      have hzero : (BitVec.ofBool b).setWidth 8 ||| (BitVec.ofBool x).setWidth 8 <<< 1 = 0#8 := by
        by_contra hne
        exact h (.inl hne)
      revert hzero
      cases b <;> cases x <;> decide

/-! ## Displacements -/

/-- The number of displacement bytes, the `mod` field for it and the displacements it can hold. -/
inductive DispForm : Nat → BitVec 2 → BitVec 32 → Prop
  | zero : DispForm 0 0 0
  | byte {d : BitVec 32} (h : isInt8 d) : DispForm 1 1 d
  | word (d : BitVec 32) : DispForm 4 2 d

theorem insertOffsetOrImm_append (buf : List Byte) (n : Nat) (d : BitVec 32) :
    insertOffsetOrImm buf n d = buf ++ insertOffsetOrImm [] n d := by
  unfold insertOffsetOrImm
  split
  · rfl
  · split
    · rfl
    · split
      · rfl
      · exact (List.append_nil buf).symm

theorem insertOffsetOrImm_four (d : BitVec 32) : insertOffsetOrImm [] 4 d = X86.disp32 d := by
  have hbyte : ∀ k, (d >>> k).setWidth 8 = d.extractLsb' k 8 := fun k => by
    apply BitVec.eq_of_toNat_eq
    rw [BitVec.extractLsb'_toNat, BitVec.toNat_setWidth, BitVec.toNat_ushiftRight]
  rw [X86.disp32, ← hbyte 0, ← hbyte 8, ← hbyte 16, ← hbyte 24, BitVec.ushiftRight_zero]
  rfl

theorem DispForm.takeDisp {n : Nat} {m : BitVec 2} {d : BitVec 32} (h : DispForm n m d) :
    X86.takeDisp m (insertOffsetOrImm [] n d) = some (d, []) := by
  cases h with
  | zero => rfl
  | byte h =>
    change some ((d.setWidth 8).signExtend 32, _) = _
    rw [← beq_iff_eq.mp h]
  | word =>
    rw [insertOffsetOrImm_four, ← List.append_nil (X86.disp32 d), X86.takeDisp_disp32]

/-- The width chosen for an offset holds it. Without a displacement byte the base is not one that
needs it. -/
theorem getOffsetMinbytes_cases (mem : Mem) (base index : Reg) :
    getOffsetMinbytes mem base index = 4 ∨
      (∃ m, DispForm (getOffsetMinbytes mem base index) m mem.offset ∧
        (m = 0 → rlo base ≠ 5) ∧ m ≠ 3) ∧
      base.id ≠ rip ∧ mem.label = none ∧ (index.isValid → base.isValid) := by
  unfold getOffsetMinbytes
  split
  · exact .inl rfl
  · next h =>
    simp only [Bool.or_eq_true, Bool.not_eq_true', not_or, Bool.not_eq_false, Bool.and_eq_true,
      beq_iff_eq, Option.isSome_iff_ne_none, not_not, not_and] at h
    refine .inr ⟨?_, h.1.2, h.1.1.2, h.2⟩
    split
    · exact ⟨1, .byte h.1.1.1, fun h0 => absurd h0 (by decide), by decide⟩
    · next hzero =>
      have hoffset : mem.offset = 0 := by
        by_contra hne
        exact hzero (.inl hne)
      refine ⟨0, ?_, fun _ hlo => hzero (.inr hlo), by decide⟩
      rw [hoffset]
      exact .zero

/-! ## ModRM and SIB -/

theorem fields_or_mod (digit : BitVec 3) :
    fields 0 digit 0 ||| 0x40 = fields 1 digit 0 ∧ fields 0 digit 0 ||| 0x80 = fields 2 digit 0 := by
  decide +revert

theorem fields_or_rm (m : BitVec 2) (digit rm : BitVec 3) :
    fields m digit 0 ||| rm.setWidth 8 = fields m digit rm := by
  decide +revert

theorem fields_or_four (m : BitVec 2) (digit : BitVec 3) :
    fields m digit 0 ||| 0x4 = fields m digit 4 := by
  decide +revert

theorem sib_eq (s : BitVec 2) (i b : BitVec 3) :
    b.setWidth 8 ||| i.setWidth 8 <<< 3 ||| s.setWidth 8 <<< 6 = fields s i b := by
  decide +revert

/-- The bits of a scale other than zero, and the factor they stand for. -/
theorem Scale.bits_spec {scale : Scale} (h : scale ≠ .scale0) :
    ∃ s : BitVec 2, BitVec.ofNat 8 scale.bits = s.setWidth 8 ∧ 2 ^ s.toNat = scale.val := by
  cases scale with
  | scale0 => exact absurd rfl h
  | scale1 => exact ⟨0, by decide, rfl⟩
  | scale2 => exact ⟨1, by decide, rfl⟩
  | scale4 => exact ⟨2, by decide, rfl⟩
  | scale8 => exact ⟨3, by decide, rfl⟩

theorem insertModrmSib_append (buf : List Byte) (modrm : Byte) (n : Nat) (base index : Reg)
    (scale : Scale) : insertModrmSib buf modrm n base index scale =
      buf ++ insertModrmSib [] modrm n base index scale := by
  unfold insertModrmSib
  dsimp only
  cases index.isValid <;> cases base.isValid <;> cases isQuirk24 base index <;> simp

/-- The `mod` field is set for the displacement when there is a base other than `RIP`. -/
theorem modrm_of_dispForm {n : Nat} {m : BitVec 2} {d : BitVec 32} (h : DispForm n m d)
    {base : Reg} (hrip : base.id ≠ rip) (digit : BitVec 3) :
    (if n = 1 then fields 0 digit 0 ||| 0x40
      else if n = 4 ∧ base.id ≠ rip then fields 0 digit 0 ||| 0x80
      else fields 0 digit 0) = fields m digit 0 := by
  cases h with
  | zero => rfl
  | byte => exact (fields_or_mod digit).1
  | word =>
    rw [if_neg (by decide), if_pos ⟨rfl, hrip⟩]
    exact (fields_or_mod digit).2

section

variable {base index : Reg} {scale : Scale} {n : Nat} {m : BitVec 2} {d : BitVec 32}
  {b i : BitVec 4} (digit : BitVec 3)

/-- A base and an index. -/
theorem insertModrmSib_base_index (hform : DispForm n m d) (hbase : base.isValid)
    (hindex : index.isValid) (hb : base.IsGpr b) (hi : index.IsGpr i) (hrip : base.id ≠ rip)
    {s : BitVec 2} (hs : BitVec.ofNat 8 scale.bits = s.setWidth 8) :
    insertModrmSib [] (fields 0 digit 0) n base index scale =
      [fields m digit 4, fields s (low i) (low b)] := by
  unfold insertModrmSib
  dsimp only
  rw [isQuirk24, hbase, hindex]
  simp only [Bool.not_true, Bool.false_and, Bool.false_eq_true, if_false, if_true]
  rw [modrm_of_dispForm hform hrip, fields_or_four, hb.rlo, hi.rlo, hs, sib_eq]
  rfl

/-- An index without a base. -/
theorem insertModrmSib_index (hbase : base.isValid = false) (hindex : index.isValid)
    (hi : index.IsGpr i) {s : BitVec 2} (hs : BitVec.ofNat 8 scale.bits = s.setWidth 8) :
    insertModrmSib [] (fields 0 digit 0) n base index scale =
      [fields 0 digit 4, fields s (low i) 5] := by
  have hfive : (0x5 : Byte) = (5 : BitVec 3).setWidth 8 := by decide
  unfold insertModrmSib
  dsimp only
  rw [isQuirk24, hbase, hindex]
  simp only [Bool.not_true, Bool.not_false, Bool.true_and, Bool.false_and, Bool.false_eq_true,
    if_false, if_true]
  rw [fields_or_four, hi.rlo, hs, hfive, sib_eq]
  rfl

/-- A base alone. -/
theorem insertModrmSib_base (hform : DispForm n m d) (hbase : base.isValid)
    (hindex : index.isValid = false) (hb : base.IsGpr b) (hrip : base.id ≠ rip) :
    insertModrmSib [] (fields 0 digit 0) n base index scale =
      if low b = 4 then [fields m digit 4, fields 0 4 4] else [fields m digit (low b)] := by
  have hquirk : isQuirk24 base index = decide (low b = 4) := by
    rw [isQuirk24, hindex, hb.rlo, low_beq_four]
    rfl
  unfold insertModrmSib
  dsimp only
  rw [hquirk, hbase, hindex]
  simp only [Bool.not_true, Bool.false_and, Bool.false_eq_true, if_false, if_true,
    decide_eq_true_eq]
  rw [modrm_of_dispForm hform hrip, hb.rlo, fields_or_rm]
  split
  · next h =>
    rw [h]
    rfl
  · rfl

/-- `RIP` alone. -/
theorem insertModrmSib_rip (hbase : base.isValid) (hindex : index.isValid = false)
    (hrip : base.id = rip) :
    insertModrmSib [] (fields 0 digit 0) 4 base index scale = [fields 0 digit 5] := by
  have hlo : rlo base = (5 : BitVec 3).setWidth 8 := by
    rw [rlo, hrip]
    decide
  unfold insertModrmSib
  dsimp only
  rw [isQuirk24, hbase, hindex, hrip, hlo]
  exact congrArg (fun byte => [byte]) (fields_or_rm 0 digit 5)

end

/-! ## Operands -/

/-- The bytes after the opcode: ModRM, SIB and displacement. -/
def operandBytes (digit : BitVec 3) (mem : Mem) (base index : Reg) (scale : Scale) : List Byte :=
  insertModrmSib [] (fields 0 digit 0) (getOffsetMinbytes mem base index) base index scale ++
    insertOffsetOrImm [] (getOffsetMinbytes mem base index) mem.offset

/-- The number that the base and the index have in an address. -/
def Reg.num (r : Reg) : BitVec 4 := BitVec.ofNat 4 (r.id - rax)

/-- The base that a register is. -/
def Reg.toBase (r : Reg) : X86.Base :=
  if !r.isValid then .absent else if r.id = rip then .rip else .gpr r.num

/-- The operand has an index: there is an index register with a scale. -/
def Mem.hasIndex (mem : Mem) : Bool := mem.index.isValid && mem.scale != .scale0

/-- The address that a memory operand denotes. -/
def Mem.address (mem : Mem) : X86.Address :=
  ⟨mem.base.toBase, if mem.hasIndex then some (mem.index.num, mem.scale.val) else none, mem.offset⟩

/-- The high bits of base and index, as REX has them. -/
def rexOf (w : Bool) (base index : Reg) : X86.Rex :=
  ⟨w, false, index.id.testBit 3, base.id.testBit 3⟩

section

variable {mem : Mem} {base index : Reg} {scale : Scale} {w : Bool} {b i : BitVec 4}
  (digit : BitVec 3)

variable (mem index) in
/-- The `mod` field of an operand with a base. -/
theorem dispForm_of_base (hb : base.IsGpr b) :
    ∃ m, DispForm (getOffsetMinbytes mem base index) m mem.offset ∧
      ¬(low b = 5 ∧ m = 0) ∧ m ≠ 3 := by
  rcases getOffsetMinbytes_cases mem base index with hfour | ⟨⟨m, hform, hfive, hthree⟩, -⟩
  · rw [hfour]
    exact ⟨2, .word _, fun h => absurd h.2 (by decide), by decide⟩
  · refine ⟨m, hform, ?_, hthree⟩
    intro h
    have hlo := hfive h.2
    rw [hb.rlo] at hlo
    exact low_ne_five hlo h.1

theorem Reg.IsGpr.ne_rip (hb : base.IsGpr b) : base.id ≠ rip := by
  intro hrip
  rw [hb] at hrip
  have heq : 512 + b.toNat = 533 := hrip
  have hlt := b.isLt
  omega

/-- A base alone: it is in ModRM, or in a SIB byte without index. -/
theorem memOperand_of_base (hbase : base.isValid) (hb : base.IsGpr b) :
    X86.memOperand (rexOf w base .absent) (operandBytes digit mem base .absent scale) =
      some (digit, ⟨.gpr b, none, mem.offset⟩, []) := by
  obtain ⟨m, hform, hfive, hthree⟩ := dispForm_of_base mem .absent hb
  have hbits : (rexOf w base .absent).b = b.msb := hb.testBit
  rw [operandBytes, insertModrmSib_base digit hform hbase rfl hb hb.ne_rip]
  split
  · next hquirk =>
    have hdisp := hform.takeDisp
    have hoperand := X86.memOperand_sib (rexOf w base .absent) digit (fields 0 4 4)
      hthree (fun h => absurd h.1 (by decide)) hdisp
    have hext : X86.extend b.msb (X86.lowField (fields 0 4 4)) = b := by
      rw [X86.lowField_fields, ← hquirk, extend_low]
    have hnone : X86.sibIndex (rexOf w base .absent) (fields 0 4 4) = none := by
      rw [X86.sibIndex, show (rexOf w base .absent).x = false by rfl, if_pos (by decide)]
    rw [hbits, hext, hnone] at hoperand
    exact hoperand
  · next hquirk =>
    have hoperand := X86.memOperand_base (rexOf w base .absent) digit hthree hquirk
      hfive hform.takeDisp
    rw [hbits, extend_low] at hoperand
    exact hoperand

/-- `RIP`: four bytes of displacement, and `mod` is 0. -/
theorem memOperand_of_rip (hbase : base.isValid) (hrip : base.id = rip) :
    X86.memOperand (rexOf w base .absent) (operandBytes digit mem base .absent scale) =
      some (digit, ⟨.rip, none, mem.offset⟩, []) := by
  have hfour : getOffsetMinbytes mem base .absent = 4 := by
    rcases getOffsetMinbytes_cases mem base .absent with h | ⟨-, hne, -⟩
    · exact h
    · exact absurd hrip hne
  rw [operandBytes, hfour, insertModrmSib_rip digit hbase rfl hrip]
  exact X86.memOperand_rip (DispForm.word mem.offset).takeDisp

/-- The index that a SIB byte has, unless its number is 4. -/
theorem sibIndex_of_gpr (hi : index.IsGpr i) {s : BitVec 2} (low5 : BitVec 3) :
    X86.sibIndex (rexOf w base index) (fields s (low i) low5) =
      if i = 4 then none else some (i, 2 ^ s.toNat) := by
  have hx : X86.extend (rexOf w base index).x (X86.midField (fields s (low i) low5)) = i := by
    rw [X86.midField_fields, show (rexOf w base index).x = i.msb from hi.testBit, extend_low]
  rw [X86.sibIndex, hx, X86.topField_fields]

/-- A base and an index. -/
theorem memOperand_of_base_index (hbase : base.isValid) (hb : base.IsGpr b)
    (hindex : index.isValid) (hi : index.IsGpr i) (hi4 : i ≠ 4) (hscale : scale ≠ .scale0) :
    X86.memOperand (rexOf w base index) (operandBytes digit mem base index scale) =
      some (digit, ⟨.gpr b, some (i, scale.val), mem.offset⟩, []) := by
  obtain ⟨m, hform, hfive, hthree⟩ := dispForm_of_base mem index hb
  obtain ⟨s, hs, hval⟩ := Scale.bits_spec hscale
  have hlow := X86.lowField_fields s (low i) (low b)
  have hoperand := X86.memOperand_sib (rexOf w base index) digit
    (fields s (low i) (low b)) hthree (hlow.symm ▸ hfive) hform.takeDisp
  rw [hlow, show (rexOf w base index).b = b.msb from hb.testBit, extend_low,
    sibIndex_of_gpr hi, if_neg hi4, hval] at hoperand
  rw [operandBytes, insertModrmSib_base_index digit hform hbase hindex hb hi hb.ne_rip hs]
  exact hoperand

variable (w mem scale) in
/-- An index without a base: four bytes of displacement. With the number 4 there is no index. -/
theorem memOperand_of_index (hbase : base.isValid = false) (hindex : index.isValid)
    (hi : index.IsGpr i) (hscale : scale ≠ .scale0) :
    X86.memOperand (rexOf w base index) (operandBytes digit mem base index scale) =
      some (digit, ⟨.absent, if i = 4 then none else some (i, scale.val), mem.offset⟩, []) := by
  have hfour : getOffsetMinbytes mem base index = 4 := by
    rcases getOffsetMinbytes_cases mem base index with h | ⟨-, -, -, h⟩
    · exact h
    · rw [hbase] at h
      cases h hindex
  obtain ⟨s, hs, hval⟩ := Scale.bits_spec hscale
  have hoperand := X86.memOperand_sib_absent (rexOf w base index) digit
    (X86.lowField_fields s (low i) 5) (DispForm.word mem.offset).takeDisp
  rw [sibIndex_of_gpr hi, hval] at hoperand
  rw [operandBytes, hfour, insertModrmSib_index digit hbase hindex hi hs]
  exact hoperand

end

/-! ## Validated operands -/

/-- What `validate_mem` accepts. -/
structure ValidMem (mem : Mem) : Prop where
  base : mem.base.isValid → mem.base.id = rip ∨ mem.base.IsGpr mem.base.num
  index : mem.hasIndex →
    mem.index.IsGpr mem.index.num ∧ mem.index.num ≠ 4 ∧ mem.base.id ≠ rip

theorem base_of_validateBase {mem : Mem} (h : validateBase mem = []) (hbase : mem.base.isValid) :
    mem.base.id = rip ∨ mem.base.IsGpr mem.base.num := by
  by_contra hbad
  rw [not_or] at hbad
  have hrange : mem.base.id < rax ∨ r15 < mem.base.id := by
    by_contra hin
    rw [not_or, not_lt, not_lt] at hin
    exact hbad.2 (isGpr_of_le hin)
  rw [validateBase, if_pos ⟨hbase, hrange, hbad.1⟩] at h
  cases h

theorem index_of_validateIndex {mem : Mem} (h : validateIndex mem = []) (hindex : mem.hasIndex) :
    mem.index.IsGpr mem.index.num ∧ mem.index.num ≠ 4 ∧ mem.base.id ≠ rip := by
  rw [Mem.hasIndex, Bool.and_eq_true, bne_iff_ne] at hindex
  rw [validateIndex, if_neg (not_not_intro hindex)] at h
  split at h
  · cases h
  · next hrange =>
    split at h
    · cases h
    · next hrsp =>
      split at h
      · cases h
      · next hrip =>
        split at h
        · cases h
        · next hbase =>
          have hin : rax ≤ mem.index.id ∧ mem.index.id ≤ r15 := by
            by_contra hout
            rw [not_and_or, not_le, not_le] at hout
            exact hrange ⟨hout, hrip⟩
          have hgpr := isGpr_of_le hin
          refine ⟨hgpr, ?_, hbase⟩
          intro h4
          rw [Reg.num] at h4
          rw [h4] at hgpr
          exact hrsp hgpr

theorem validMem_of_validateMem {mem : Mem} (h : validateMem mem = []) : ValidMem mem := by
  rw [validateMem, List.append_eq_nil_iff] at h
  exact ⟨base_of_validateBase h.1, index_of_validateIndex h.2⟩

/-! ## Instructions -/

section

variable {opcode : List Byte} {digit : BitVec 3} {kind : Kind} {size : Nat} {mem : Mem}
  {base index : Reg} {scale : Scale} {address : X86.Address}

/-- The parts of the buffer: prefixes, opcode and operand. -/
theorem addrBytes_eq :
    addrBytes (opcode ++ [fields 0 digit 0]) kind size mem base index scale =
      (if (kind.bitsize == 16) = true then [0x66] else []) ++
        ((if rexByte size kind.bitsize base index ≠ 0 then [rexByte size kind.bitsize base index]
          else []) ++ (opcode ++ operandBytes digit mem base index scale)) := by
  have hprefixes : insertPrefixes [] kind size base index =
      (if (kind.bitsize == 16) = true then [0x66] else []) ++
        (if rexByte size kind.bitsize base index ≠ 0 then [rexByte size kind.bitsize base index]
          else []) := by
    rw [insertPrefixes]
    simp only [beq_iff_eq, List.nil_append]
    split <;> simp
  have hoffset : ∀ (buf : List Byte) n, (if n ≠ 0 then insertOffsetOrImm buf n mem.offset else buf) =
      buf ++ insertOffsetOrImm [] n mem.offset := by
    intro buf n
    rw [← insertOffsetOrImm_append]
    split
    · rfl
    · next hzero =>
      rw [not_not.mp hzero]
      rfl
  rw [addrBytes]
  rw [hoffset, insertModrmSib_append, List.dropLast_concat, List.getLastD_concat, hprefixes,
    operandBytes]
  simp only [List.append_assoc]

variable (size kind) in
theorem decodeMem_addrBytes (hopcode : X86.isOpcode opcode)
    (hoperand : ∀ w, X86.memOperand (rexOf w base index) (operandBytes digit mem base index scale) =
      some (digit, address, [])) :
    X86.decodeMem (addrBytes (opcode ++ [fields 0 digit 0]) kind size mem base index scale) =
      some (⟨kind.bitsize == 16, rexOf (decide (size < 64 ∧ 64 ≤ kind.bitsize)) base index, opcode,
        digit, address⟩, []) := by
  rw [addrBytes_eq]
  exact X86.decodeMem_append _ hopcode (isRexPrefix_rexByte size kind.bitsize base index)
    (hoperand _)

end

/-- The index register that is encoded: `RSP` when there is neither base nor index. -/
def Mem.encodedIndex (mem : Mem) : Reg :=
  if mem.hasIndex then mem.index
  else if mem.base.isValid then .absent
  else ⟨.uint64, rsp⟩

/-- The scale that is encoded with it. -/
def Mem.encodedScale (mem : Mem) : Scale :=
  if mem.hasIndex then mem.scale else if mem.base.isValid then .scale0 else .scale1

theorem emitAddr_eq (dst : Assembler) (op : AsmOp1) (opcode : List Byte) (size : Nat) (mem : Mem) :
    emitAddr dst op opcode size mem =
      (dst.add (addrBytes opcode (if op = .clflushopt then .uint16 else mem.kind) size mem mem.base
        mem.encodedIndex mem.encodedScale)).addRelocation mem.label := by
  have habsent : Reg.absent.isValid = false := rfl
  have hclear : (mem.scale == .scale0 || !mem.index.isValid) = !mem.hasIndex := by
    rw [Mem.hasIndex, Bool.not_and, Bool.or_comm, bne, Bool.not_not]
  rw [emitAddr, Mem.encodedIndex, Mem.encodedScale, hclear]
  cases hindex : mem.hasIndex with
  | false => cases mem.base.isValid <;> simp [habsent]
  | true =>
    have hvalid : mem.index.isValid = true := by
      rw [Mem.hasIndex, Bool.and_eq_true] at hindex
      exact hindex.1
    simp [hvalid]

/-- The encoded operand denotes the address of the memory operand, whichever registers it has. -/
theorem memOperand_encoded {mem : Mem} (hmem : ValidMem mem) (digit : BitVec 3) (w : Bool) :
    X86.memOperand (rexOf w mem.base mem.encodedIndex)
      (operandBytes digit mem mem.base mem.encodedIndex mem.encodedScale) =
        some (digit, mem.address, []) := by
  rw [Mem.address, Reg.toBase, Mem.encodedIndex, Mem.encodedScale]
  cases hindex : mem.hasIndex with
  | false =>
    cases hbase : mem.base.isValid with
    | false =>
      have hrsp : (⟨.uint64, rsp⟩ : Reg).IsGpr 4 := rfl
      exact memOperand_of_index _ .scale1 _ digit hbase rfl hrsp (by decide)
    | true =>
      by_cases hrip : mem.base.id = rip
      · rw [if_pos hrip]
        exact memOperand_of_rip digit hbase hrip
      · rw [if_neg hrip]
        exact memOperand_of_base digit hbase ((hmem.base hbase).resolve_left hrip)
  | true =>
    have hgpr := hmem.index hindex
    rw [Mem.hasIndex, Bool.and_eq_true, bne_iff_ne] at hindex
    cases hbase : mem.base.isValid with
    | false =>
      have hoperand := memOperand_of_index mem _ w digit hbase hindex.1 hgpr.1 hindex.2
      rw [if_neg hgpr.2.1] at hoperand
      exact hoperand
    | true =>
      rw [if_neg hgpr.2.2]
      exact memOperand_of_base_index digit hbase ((hmem.base hbase).resolve_left hgpr.2.2) hindex.1
        hgpr.1 hgpr.2.1 hindex.2

/-- A label comes with four bytes of displacement, the last of the instruction. -/
theorem disp32_suffix_addrBytes {mem : Mem} {base index : Reg} {scale : Scale} {opcode : List Byte}
    {kind : Kind} {size : Nat} (h : mem.label.isSome) :
    X86.disp32 mem.offset <:+ addrBytes opcode kind size mem base index scale := by
  have hfour : getOffsetMinbytes mem base index = 4 := by
    rcases getOffsetMinbytes_cases mem base index with hfour | ⟨-, -, hnone, -⟩
    · exact hfour
    · rw [hnone] at h
      cases h
  rw [addrBytes, hfour, if_pos (by decide), insertOffsetOrImm_append, insertOffsetOrImm_four]
  exact List.suffix_append _ _

/-- The string is an opcode followed by a ModRM byte that has only its `reg` field. -/
def isTemplate (bytes : List Byte) : Bool :=
  X86.isOpcode bytes.dropLast &&
    bytes == bytes.dropLast ++ [fields 0 (X86.midField (bytes.getLastD 0)) 0]

/-- The instruction has a form with a memory operand. -/
def AsmOp1.takesMem (op : AsmOp1) : Prop := Arg1.mem &&& (find op).arg ≠ 0 ∧ (find op).bytes ≠ []

instance (op : AsmOp1) : Decidable op.takesMem :=
  inferInstanceAs (Decidable (_ ∧ _))

theorem isTemplate_bytesFor {op : AsmOp1} (h : op.takesMem) (bits : Nat) :
    isTemplate ((find op).bytesFor bits) := by
  unfold Inst1.bytesFor
  split
  · clear * - h
    revert h
    cases op <;> decide
  · revert h
    cases op <;> decide

/-- A memory operand that is accepted encodes to itself: read by the rules of the processor, the
emitted bytes are all used up, their opcode is that of the instruction, and they name the base, the
index with its scale and the displacement of the operand. The four bytes that a label is added to
are a displacement. -/
theorem emitMem_denotes (dst : Assembler) (op : AsmOp1) (mem : Mem) (hop : op.takesMem)
    (hmem : validateMem mem = []) :
    ∃ bytes insn, emitMem dst (find op) op mem = (dst.add bytes).addRelocation mem.label ∧
      X86.decodeMem bytes = some (insn, []) ∧ insn.address = mem.address ∧
      insn.opcode ++ [fields 0 insn.digit 0] = (find op).bytesFor mem.kind.bitsize ∧
      (mem.label.isSome → X86.disp32 mem.offset <:+ bytes) := by
  have htemplate := isTemplate_bytesFor hop mem.kind.bitsize
  rw [isTemplate, Bool.and_eq_true, beq_iff_eq] at htemplate
  have hdecode := decodeMem_addrBytes (if op = .clflushopt then .uint16 else mem.kind)
    (defaultSize op) htemplate.1
    (memOperand_encoded (validMem_of_validateMem hmem)
      (X86.midField (((find op).bytesFor mem.kind.bitsize).getLastD 0)))
  rw [← htemplate.2] at hdecode
  refine ⟨_, _, ?_, hdecode, rfl, htemplate.2.symm, disp32_suffix_addrBytes⟩
  rw [emitMem, if_neg (not_not_intro hmem), emitAddr_eq]

/-- `call` through `R13 + RSI * 8 + 5`. -/
theorem emitMem_denotes_call :
    ∃ bytes insn, emitMem {} (find .call) .call
        ⟨.ptr, [.none, .const ⟨5, .int32⟩ .direct, .var .uint64 525, .var .uint64 518,
          .const ⟨8, .uint8⟩ .direct]⟩ = (({} : Assembler).add bytes).addRelocation none ∧
      X86.decodeMem bytes = some (insn, []) ∧ insn.address = ⟨.gpr 13, some (6, 8), 5⟩ ∧
      insn.opcode ++ [fields 0 insn.digit 0] = [0xFF, 0x10] := by
  have h := emitMem_denotes {} .call
    ⟨.ptr, [.none, .const ⟨5, .int32⟩ .direct, .var .uint64 525, .var .uint64 518,
      .const ⟨8, .uint8⟩ .direct]⟩ (by decide) (by decide)
  obtain ⟨bytes, insn, hemit, hdecode, haddress, hopcode, -⟩ := h
  exact ⟨bytes, insn, hemit, hdecode, haddress, hopcode⟩

end OneJit.X64
