import OneJit.X64.MemEncoding

/-!
# Which immediates encode to themselves

The width of an immediate is chosen from its low 32 bits, whether a constant is admissible from its
kind, and the opcode string of a width may be empty.
-/

namespace OneJit.X64

open X86 (Byte)

/-- The instruction that an operator stands for, if it takes an immediate. -/
def AsmOp1.immOp : AsmOp1 → Option X86.ImmOp
  | .call => some .call
  | .int => some .int
  | .jmp => some .jmp
  | .push => some .push
  | .xabort => some .xabort
  | .jo => some (.jcc 0)
  | .jno => some (.jcc 1)
  | .jb => some (.jcc 2)
  | .jae => some (.jcc 3)
  | .je => some (.jcc 4)
  | .jne => some (.jcc 5)
  | .jbe => some (.jcc 6)
  | .ja => some (.jcc 7)
  | .js => some (.jcc 8)
  | .jns => some (.jcc 9)
  | .jp => some (.jcc 10)
  | .jnp => some (.jcc 11)
  | .jl => some (.jcc 12)
  | .jge => some (.jcc 13)
  | .jle => some (.jcc 14)
  | .jg => some (.jcc 15)
  | _ => none

/-- The statement with this constant reports an error, or it adds the instruction with an immediate
that stands for the value of the constant. -/
def EncodesImm (dst : Assembler) (op : AsmOp1) (v : Value) (p : Place) : Prop :=
  (emit dst op (.expr (.const v p))).errors ≠ dst.errors ∨
    ∃ bytes imm, emit dst op (.expr (.const v p)) = dst.add bytes ∧ op.immOp = some imm ∧
      X86.decodeImm bytes = some (⟨imm, v.bits⟩, [])

/-- The checks of `Asm1::emit` on a constant fail. -/
def refusesImm (op : AsmOp1) (kind : Kind) : Bool :=
  Arg1.val &&& (find op).arg == 0 || !isCompatible kind.bitsize (find op).immSize

/-- The value is in the range that the instruction can encode here: up to 127 for `int`, none for
`xabort`, 32 signed bits for all others. -/
def immFits (op : AsmOp1) (bits : BitVec 64) : Bool :=
  match op with
  | .int => bits.ule 127
  | .xabort => false
  | _ => bits == (bits.setWidth 32).signExtend 64

/-! ## What is emitted -/

/-- The bytes that `asm1_emit_const` adds. -/
def immBytes (inst : Inst1) (val : BitVec 32) : List Byte :=
  if isInt8 val ∧ inst.immSize &&& .b8 ≠ 0 then inst.imm8Bytes ++ [val.setWidth 8]
  else inst.imm32Bytes ++ X86.disp32 val

/-- No instruction has a form with 16 bits. -/
theorem immLen_find (op : AsmOp1) (val : BitVec 32) :
    immLen (find op) val = if isInt8 val ∧ (find op).immSize &&& .b8 ≠ 0 then 1 else 4 := by
  have hb16 : (find op).immSize &&& .b16 = 0 := by
    cases op <;> rfl
  rw [immLen, hb16, if_neg fun h : isInt16 val = true ∧ (0 : BitSize) ≠ 0 => h.2 rfl]

theorem emitConst_eq (dst : Assembler) (op : AsmOp1) (v : Value) :
    emitConst dst (find op) v = dst.add (immBytes (find op) (v.bits.setWidth 32)) := by
  rw [emitConst, immBytes, immLen_find]
  split
  · rfl
  · rw [insertOffsetOrImm_append, insertOffsetOrImm_four]
    rfl

theorem emit_const (dst : Assembler) (op : AsmOp1) (v : Value) (p : Place) :
    emit dst op (.expr (.const v p)) =
      if Arg1.val &&& (find op).arg = 0 then
        dst.error "x64::Asm1::emit: instruction does not support specified argument type"
      else if !isCompatible v.kind.bitsize (find op).immSize then
        dst.error "x64::Asm1::emit: instruction does not support specified immediate width"
      else emitConst dst (find op) v := rfl

theorem emit_refused (dst : Assembler) {op : AsmOp1} {v : Value} (p : Place)
    (h : refusesImm op v.kind) : (emit dst op (.expr (.const v p))).errors ≠ dst.errors := by
  rw [refusesImm, Bool.or_eq_true, beq_iff_eq] at h
  rw [emit_const]
  split
  · simp [Assembler.error]
  · next harg =>
    rw [if_pos (h.resolve_left harg)]
    simp [Assembler.error]

theorem emit_accepted (dst : Assembler) {op : AsmOp1} {v : Value} (p : Place)
    (h : refusesImm op v.kind = false) :
    emit dst op (.expr (.const v p)) = dst.add (immBytes (find op) (v.bits.setWidth 32)) := by
  rw [refusesImm, Bool.or_eq_false_iff, beq_eq_false_iff_ne] at h
  rw [emit_const, if_neg h.1, if_neg (by rw [h.2]; decide), emitConst_eq]

/-- When it is not refused, the constant encodes to itself if its bytes are read back. -/
theorem encodesImm_iff_decodes (dst : Assembler) {op : AsmOp1} {v : Value} (p : Place)
    (h : refusesImm op v.kind = false) :
    EncodesImm dst op v p ↔ ∃ imm, op.immOp = some imm ∧
      X86.decodeImm (immBytes (find op) (v.bits.setWidth 32)) = some (⟨imm, v.bits⟩, []) := by
  rw [EncodesImm, emit_accepted dst p h]
  constructor
  · rintro (herr | ⟨bytes, imm, hadd, hop, hdecode⟩)
    · exact absurd rfl herr
    · have hbytes : immBytes (find op) (v.bits.setWidth 32) = bytes :=
        List.append_cancel_left (congrArg Assembler.bytes hadd)
      exact ⟨imm, hop, hbytes ▸ hdecode⟩
  · rintro ⟨imm, hop, hdecode⟩
    exact .inr ⟨_, imm, rfl, hop, hdecode⟩

/-! ## Signed immediates -/

/-- The opcode strings are those of an instruction with a signed immediate. -/
structure SignedForms (inst : Inst1) (imm : X86.ImmOp) : Prop where
  imm8 : inst.immSize &&& .b8 ≠ 0 → ∀ byte rest,
    X86.takeImmOpcode (inst.imm8Bytes ++ byte :: rest) = some ((imm, .sign8), byte :: rest)
  imm32 : ∀ byte rest,
    X86.takeImmOpcode (inst.imm32Bytes ++ byte :: rest) = some ((imm, .sign32), byte :: rest)

theorem signedForms_find {op : AsmOp1} {imm : X86.ImmOp} (hop : op.immOp = some imm)
    (hint : op ≠ .int) (habort : op ≠ .xabort) : SignedForms (find op) imm := by
  cases op <;> first
    | exact absurd rfl hint
    | exact absurd rfl habort
    | cases hop
      exact ⟨fun _ _ _ => rfl, fun _ _ => rfl⟩
    | cases hop
      exact ⟨fun h => absurd rfl h, fun _ _ => rfl⟩
    | cases hop

/-- A signed immediate is read back as the sign extension of the low 32 bits of the value. -/
theorem SignedForms.decode {inst : Inst1} {imm : X86.ImmOp} (h : SignedForms inst imm)
    (val : BitVec 32) :
    X86.decodeImm (immBytes inst val) = some (⟨imm, val.signExtend 64⟩, []) := by
  rw [immBytes]
  split
  · next hsmall =>
    have hext : (val.setWidth 8).signExtend 64 = val.signExtend 64 := by
      have hval := beq_iff_eq.mp hsmall.1
      apply BitVec.eq_of_toInt_eq
      rw [BitVec.toInt_signExtend_of_le (by decide), BitVec.toInt_signExtend_of_le (by decide)]
      conv_rhs => rw [hval]
      rw [BitVec.toInt_signExtend_of_le (by decide)]
    apply X86.decodeImm_of_opcode (h.imm8 hsmall.2 _ [])
    change some ((val.setWidth 8).signExtend 64, _) = _
    rw [hext]
  · exact X86.decodeImm_of_opcode (h.imm32 _ _) (X86.takeImm_disp32 val)

/-! ## Unsigned immediates -/

/-- Four bytes without an opcode are no instruction. -/
theorem decodeImm_disp32 (val : BitVec 32) (insn : X86.ImmInsn) :
    X86.decodeImm (X86.disp32 val) ≠ some (insn, []) := by
  intro h
  have hlength := X86.length_of_decodeImm h
  rw [show (X86.disp32 val).length = 4 from rfl] at hlength
  omega

theorem isInt8_iff (n : BitVec 32) : isInt8 n ↔ n.toNat < 128 ∨ 2 ^ 32 - 128 ≤ n.toNat := by
  rw [isInt8, beq_iff_eq, ← BitVec.toNat_inj, BitVec.toNat_signExtend, BitVec.msb_eq_decide,
    BitVec.toNat_setWidth, BitVec.toNat_setWidth]
  have hlt := n.isLt
  by_cases hmsb : 2 ^ (8 - 1) ≤ n.toNat % 2 ^ 8
  · rw [if_pos (decide_eq_true hmsb)]
    omega
  · rw [if_neg (by simpa using hmsb)]
    omega

/-- `int` encodes what fits one signed byte and is not negative. -/
theorem decode_int_iff (bits : BitVec 64) :
    X86.decodeImm (immBytes (find .int) (bits.setWidth 32)) = some (⟨.int, bits⟩, []) ↔
      bits.ule 127 := by
  have hmod : ((bits.setWidth 32).setWidth 8).setWidth 64 = bits ↔ bits.toNat < 256 := by
    rw [← BitVec.toNat_inj, BitVec.toNat_setWidth, BitVec.toNat_setWidth, BitVec.toNat_setWidth]
    have hlt := bits.isLt
    omega
  have hsmall : isInt8 (bits.setWidth 32) ↔
      bits.toNat % 2 ^ 32 < 128 ∨ 2 ^ 32 - 128 ≤ bits.toNat % 2 ^ 32 := by
    rw [isInt8_iff, BitVec.toNat_setWidth]
  have hule : bits.ule 127 = true ↔ bits.toNat ≤ 127 := BitVec.ule_iff_le.trans BitVec.le_def
  rw [immBytes, hule]
  split
  · next h =>
    have hdecode : X86.decodeImm ((find .int).imm8Bytes ++ [(bits.setWidth 32).setWidth 8]) =
        some (⟨.int, ((bits.setWidth 32).setWidth 8).setWidth 64⟩, []) := rfl
    have hrange := hsmall.mp h.1
    rw [hdecode, Option.some.injEq, Prod.mk.injEq, X86.ImmInsn.mk.injEq, and_iff_left rfl,
      and_iff_right rfl, hmod]
    omega
  · next h =>
    have hlarge : ¬isInt8 (bits.setWidth 32) := fun hint => h ⟨hint, by decide⟩
    rw [hsmall] at hlarge
    apply iff_of_false (decodeImm_disp32 _ _)
    omega

/-- `xabort` has no opcode string. -/
theorem decode_xabort (bits : BitVec 64) (insn : X86.ImmInsn) :
    X86.decodeImm (immBytes (find .xabort) (bits.setWidth 32)) ≠ some (insn, []) := by
  rw [immBytes]
  split
  · intro h
    cases h
  · exact decodeImm_disp32 _ _

/-! ## The condition -/

theorem refusesImm_of_immOp {op : AsmOp1} (h : op.immOp = none) (kind : Kind) :
    refusesImm op kind = true := by
  rw [refusesImm, Bool.or_eq_true]
  left
  revert h
  cases op <;> decide

theorem immFits_of_signed {op : AsmOp1} (hint : op ≠ .int) (habort : op ≠ .xabort)
    (bits : BitVec 64) : immFits op bits = (bits == (bits.setWidth 32).signExtend 64) := by
  cases op <;> first
    | exact absurd rfl hint
    | exact absurd rfl habort
    | rfl

/-- The bytes of an instruction with an immediate are read back when the value fits. -/
theorem decode_immBytes_iff {op : AsmOp1} {imm : X86.ImmOp} (hop : op.immOp = some imm)
    (bits : BitVec 64) :
    X86.decodeImm (immBytes (find op) (bits.setWidth 32)) = some (⟨imm, bits⟩, []) ↔
      immFits op bits := by
  by_cases hint : op = .int
  · subst hint
    cases hop
    exact decode_int_iff bits
  · by_cases habort : op = .xabort
    · subst habort
      exact iff_of_false (decode_xabort bits _) Bool.false_ne_true
    · rw [(signedForms_find hop hint habort).decode, immFits_of_signed hint habort, beq_iff_eq,
        Option.some.injEq, Prod.mk.injEq, X86.ImmInsn.mk.injEq, and_iff_left rfl, and_iff_right rfl,
        eq_comm]

/-- A constant encodes to itself, or is refused, exactly when its value is in the range that the
instruction can encode. -/
theorem encodesImm_iff (dst : Assembler) (op : AsmOp1) (v : Value) (p : Place) :
    EncodesImm dst op v p ↔ refusesImm op v.kind ∨ immFits op v.bits := by
  cases hrefused : refusesImm op v.kind with
  | true => exact iff_of_true (.inl (emit_refused dst p hrefused)) (.inl rfl)
  | false =>
    rw [encodesImm_iff_decodes dst p hrefused, or_iff_right Bool.false_ne_true]
    cases hop : op.immOp with
    | none =>
      rw [refusesImm_of_immOp hop] at hrefused
      cases hrefused
    | some imm =>
      rw [← decode_immBytes_iff hop]
      constructor
      · rintro ⟨found, hfound, hdecode⟩
        cases hfound
        exact hdecode
      · exact fun hdecode => ⟨imm, rfl, hdecode⟩

/-- `int $0x80` is four bytes without an opcode. -/
theorem not_encodesImm_int : ¬EncodesImm {} .int ⟨0x80, .uint8⟩ .direct := by
  rintro (herr | ⟨bytes, imm, hadd, -, hdecode⟩)
  · exact herr rfl
  · have hbytes : [0x80, 0, 0, 0] = bytes := congrArg Assembler.bytes hadd
    subst hbytes
    cases hdecode

end OneJit.X64
