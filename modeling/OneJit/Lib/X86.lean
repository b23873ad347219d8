import Mathlib.Data.BitVec

/-!
# Operands of x86-64 instructions

How the processor reads, in 64-bit mode, the bytes that name a memory operand: an operand-size
prefix, a REX prefix, the opcode, and then the ModRM byte with the SIB byte and the displacement it
asks for. Opcodes are those of the one-byte map and of the two-byte map behind `0F`. The last part
is about instructions whose only operand is an immediate.
-/

namespace X86

abbrev Byte := BitVec 8

/-- What the address is relative to. -/
inductive Base
  | absent
  | rip
  | gpr (r : BitVec 4)
  deriving DecidableEq, Repr

/-- An effective address: a base, an index register with its factor, and a displacement. -/
structure Address where
  base : Base
  index : Option (BitVec 4 × Nat)
  disp : BitVec 32
  deriving DecidableEq, Repr

/-- The four low bits of a REX prefix. -/
structure Rex where
  w : Bool
  r : Bool
  x : Bool
  b : Bool
  deriving DecidableEq, Repr

namespace Rex

/-- No REX prefix. -/
def none : Rex := ⟨false, false, false, false⟩

/-- A byte `40` to `4F`. -/
def isRex (byte : Byte) : Bool := byte.extractLsb' 4 4 == 4#4

def ofByte (byte : Byte) : Rex :=
  ⟨byte.getLsbD 3, byte.getLsbD 2, byte.getLsbD 1, byte.getLsbD 0⟩

end Rex

/-! ## The fields of a ModRM or SIB byte -/

def topField (byte : Byte) : BitVec 2 := byte.extractLsb' 6 2
def midField (byte : Byte) : BitVec 3 := byte.extractLsb' 3 3
def lowField (byte : Byte) : BitVec 3 := byte.extractLsb' 0 3

/-- The byte with the given fields. -/
def fields (m : BitVec 2) (r rm : BitVec 3) : Byte := m ++ r ++ rm

@[simp] theorem topField_fields (m : BitVec 2) (r rm : BitVec 3) : topField (fields m r rm) = m := by
  decide +revert

@[simp] theorem midField_fields (m : BitVec 2) (r rm : BitVec 3) : midField (fields m r rm) = r := by
  decide +revert

@[simp] theorem lowField_fields (m : BitVec 2) (r rm : BitVec 3) : lowField (fields m r rm) = rm := by
  decide +revert

/-- A register number with its REX bit. -/
def extend (high : Bool) (low : BitVec 3) : BitVec 4 := BitVec.cons high low

/-! ## Displacements -/

/-- The bytes of a little-endian number. -/
def disp32 (d : BitVec 32) : List Byte :=
  [d.extractLsb' 0 8, d.extractLsb' 8 8, d.extractLsb' 16 8, d.extractLsb' 24 8]

/-- The displacement that the `mod` field announces: none, one byte or four bytes. -/
def takeDisp : BitVec 2 → List Byte → Option (BitVec 32 × List Byte)
  | 0, rest => some (0, rest)
  | 1, d :: rest => some (d.signExtend 32, rest)
  | 2, d0 :: d1 :: d2 :: d3 :: rest => some (d3 ++ d2 ++ d1 ++ d0, rest)
  | _, _ => none

theorem takeDisp_disp32 (d : BitVec 32) (rest : List Byte) :
    takeDisp 2 (disp32 d ++ rest) = some (d, rest) := by
  have hjoin : d.extractLsb' 24 8 ++ d.extractLsb' 16 8 ++ d.extractLsb' 8 8 ++
      d.extractLsb' 0 8 = d := by
    rw [BitVec.extractLsb'_append_extractLsb'_eq_extractLsb' (by rfl),
      BitVec.extractLsb'_append_extractLsb'_eq_extractLsb' (by rfl),
      BitVec.extractLsb'_append_extractLsb'_eq_extractLsb' (by rfl)]
    exact BitVec.extractLsb'_eq_self
  change some (d.extractLsb' 24 8 ++ d.extractLsb' 16 8 ++ d.extractLsb' 8 8 ++
    d.extractLsb' 0 8, rest) = _
  rw [hjoin]

/-! ## Operands -/

/-- The index that the upper fields of a SIB byte name. Index 4 is none. -/
def sibIndex (rex : Rex) (sib : Byte) : Option (BitVec 4 × Nat) :=
  if extend rex.x (midField sib) = 4 then none
  else some (extend rex.x (midField sib), 2 ^ (topField sib).toNat)

/-- The address that a SIB byte starts. Base 5 is none when `mod` is 0; then a displacement of four
bytes follows. -/
def sibAddress (rex : Rex) (m : BitVec 2) (sib : Byte) (rest : List Byte) :
    Option (Address × List Byte) :=
  if lowField sib = 5 ∧ m = 0 then do
    let (disp, rest) ← takeDisp 2 rest
    some (⟨.absent, sibIndex rex sib, disp⟩, rest)
  else do
    let (disp, rest) ← takeDisp m rest
    some (⟨.gpr (extend rex.b (lowField sib)), sibIndex rex sib, disp⟩, rest)

/-- The address that a ModRM byte starts. With `mod` 3 the operand is a register, with `rm` 4 a SIB
byte follows, and with `mod` 0 and `rm` 5 the address is relative to the instruction pointer. -/
def modrmAddress (rex : Rex) (modrm : Byte) (rest : List Byte) : Option (Address × List Byte) :=
  if topField modrm = 3 then none
  else if lowField modrm = 4 then do
    let sib ← rest.head?
    sibAddress rex (topField modrm) sib rest.tail
  else if lowField modrm = 5 ∧ topField modrm = 0 then do
    let (disp, rest) ← takeDisp 2 rest
    some (⟨.rip, none, disp⟩, rest)
  else do
    let (disp, rest) ← takeDisp (topField modrm) rest
    some (⟨.gpr (extend rex.b (lowField modrm)), none, disp⟩, rest)

/-- The memory operand that follows an opcode, with the `reg` field of ModRM. -/
def memOperand (rex : Rex) (bytes : List Byte) : Option (BitVec 3 × Address × List Byte) := do
  let modrm ← bytes.head?
  let (address, rest) ← modrmAddress rex modrm bytes.tail
  some (midField modrm, address, rest)

section

variable {rex : Rex} {m : BitVec 2} {r rm : BitVec 3} {sib : Byte} {d : BitVec 32}
  {bytes rest : List Byte}

theorem memOperand_cons {modrm : Byte} {address : Address}
    (h : modrmAddress rex modrm bytes = some (address, rest)) :
    memOperand rex (modrm :: bytes) = some (midField modrm, address, rest) := by
  change (modrmAddress rex modrm bytes).bind _ = _
  rw [h]
  rfl

variable (rex r) in
theorem memOperand_base (hm : m ≠ 3) (h4 : rm ≠ 4) (h5 : ¬(rm = 5 ∧ m = 0))
    (hd : takeDisp m bytes = some (d, rest)) :
    memOperand rex (fields m r rm :: bytes) =
      some (r, ⟨.gpr (extend rex.b rm), none, d⟩, rest) := by
  rw [memOperand_cons, midField_fields]
  rw [modrmAddress, topField_fields, lowField_fields, if_neg hm, if_neg h4, if_neg h5, hd]
  rfl

theorem memOperand_rip (hd : takeDisp 2 bytes = some (d, rest)) :
    memOperand rex (fields 0 r 5 :: bytes) = some (r, ⟨.rip, none, d⟩, rest) := by
  rw [memOperand_cons, midField_fields]
  rw [modrmAddress, topField_fields, lowField_fields, if_neg (by decide), if_neg (by decide),
    if_pos ⟨rfl, rfl⟩, hd]
  rfl

/-- With `rm` 4 the address is that of the SIB byte. -/
theorem memOperand_sibAddress {address : Address} (hm : m ≠ 3)
    (h : sibAddress rex m sib bytes = some (address, rest)) :
    memOperand rex (fields m r 4 :: sib :: bytes) = some (r, address, rest) := by
  rw [memOperand_cons, midField_fields]
  rw [modrmAddress, topField_fields, lowField_fields, if_neg hm, if_pos rfl]
  exact h

variable (rex r sib) in
theorem memOperand_sib (hm : m ≠ 3) (h5 : ¬(lowField sib = 5 ∧ m = 0))
    (hd : takeDisp m bytes = some (d, rest)) :
    memOperand rex (fields m r 4 :: sib :: bytes) =
      some (r, ⟨.gpr (extend rex.b (lowField sib)), sibIndex rex sib, d⟩, rest) := by
  apply memOperand_sibAddress hm
  rw [sibAddress, if_neg h5, hd]
  rfl

variable (rex r) in
theorem memOperand_sib_absent (h5 : lowField sib = 5)
    (hd : takeDisp 2 bytes = some (d, rest)) :
    memOperand rex (fields 0 r 4 :: sib :: bytes) =
      some (r, ⟨.absent, sibIndex rex sib, d⟩, rest) := by
  apply memOperand_sibAddress (by decide)
  rw [sibAddress, if_pos ⟨h5, rfl⟩, hd]
  rfl

end

/-! ## Instructions -/

/-- An instruction with one memory operand. -/
structure MemInsn where
  /-- The prefix `66` is there. -/
  operandSize : Bool
  rex : Rex
  opcode : List Byte
  /-- The `reg` field of ModRM, which extends the opcode. -/
  digit : BitVec 3
  address : Address
  deriving DecidableEq, Repr

/-- The opcode: one byte, or two when the first is `0F`. -/
def takeOpcode : List Byte → Option (List Byte × List Byte)
  | [] => none
  | 0x0F :: op :: rest => some ([0x0F, op], rest)
  | 0x0F :: [] => none
  | op :: rest => some ([op], rest)

/-- The prefix `66`, if the instruction starts with it. -/
def takeOperandSize : List Byte → Bool × List Byte
  | 0x66 :: rest => (true, rest)
  | bytes => (false, bytes)

/-- The REX prefix, if the next byte is one. -/
def takeRex : List Byte → Rex × List Byte
  | byte :: rest => if Rex.isRex byte then (.ofByte byte, rest) else (.none, byte :: rest)
  | [] => (.none, [])

/-- The instruction that the bytes start with, and the bytes after it. -/
def decodeMem (bytes : List Byte) : Option (MemInsn × List Byte) := do
  let (operandSize, bytes) := takeOperandSize bytes
  let (rex, bytes) := takeRex bytes
  let (opcode, bytes) ← takeOpcode bytes
  let (digit, address, bytes) ← memOperand rex bytes
  some (⟨operandSize, rex, opcode, digit, address⟩, bytes)

/-- A complete opcode that does not start with a prefix. -/
def isOpcode : List Byte → Bool
  | [byte] => byte != 0x0F && byte != 0x66 && !Rex.isRex byte
  | [escape, _] => escape == 0x0F
  | _ => false

theorem isOpcode_cases {opcode : List Byte} (h : isOpcode opcode) :
    (∃ byte, opcode = [byte] ∧ byte ≠ 0x0F ∧ byte ≠ 0x66 ∧ Rex.isRex byte = false) ∨
      ∃ byte, opcode = [0x0F, byte] := by
  rcases opcode with _ | ⟨first, _ | ⟨second, _ | ⟨third, tail⟩⟩⟩
  · cases h
  · simp only [isOpcode, Bool.and_eq_true, bne_iff_ne, Bool.not_eq_true'] at h
    exact .inl ⟨first, rfl, h.1.1, h.1.2, h.2⟩
  · simp only [isOpcode, beq_iff_eq] at h
    exact .inr ⟨second, by rw [h]⟩
  · cases h

/-- The bytes are a REX prefix, or none. -/
def IsRexPrefix (bytes : List Byte) (rex : Rex) : Prop :=
  bytes = [] ∧ rex = .none ∨ ∃ byte, bytes = [byte] ∧ Rex.isRex byte ∧ rex = .ofByte byte

theorem takeOpcode_append {opcode : List Byte} (h : isOpcode opcode) (rest : List Byte) :
    takeOpcode (opcode ++ rest) = some (opcode, rest) := by
  rcases isOpcode_cases h with ⟨byte, rfl, hne, -⟩ | ⟨byte, rfl⟩
  · change takeOpcode (byte :: rest) = _
    unfold takeOpcode
    split <;> simp_all
  · rfl

/-- An opcode starts with none of the prefixes. -/
theorem head_of_isOpcode {opcode : List Byte} (h : isOpcode opcode) :
    ∃ byte bytes, opcode = byte :: bytes ∧ byte ≠ 0x66 ∧ Rex.isRex byte = false := by
  rcases isOpcode_cases h with ⟨byte, rfl, -, hsize, hrex⟩ | ⟨byte, rfl⟩
  · exact ⟨byte, [], rfl, hsize, hrex⟩
  · exact ⟨0x0F, [byte], rfl, by decide, by decide⟩

theorem takeRex_append {opcode bytes : List Byte} {rex : Rex} (h : isOpcode opcode)
    (hrex : IsRexPrefix bytes rex) (rest : List Byte) :
    takeRex (bytes ++ (opcode ++ rest)) = (rex, opcode ++ rest) := by
  obtain ⟨byte, tail, rfl, -, hnot⟩ := head_of_isOpcode h
  rcases hrex with ⟨rfl, rfl⟩ | ⟨byte, rfl, hbyte, rfl⟩
  · simp [takeRex, hnot]
  · simp [takeRex, hbyte]

theorem takeOperandSize_append {opcode bytes : List Byte} {rex : Rex} (h : isOpcode opcode)
    (hrex : IsRexPrefix bytes rex) (operandSize : Bool) (rest : List Byte) :
    takeOperandSize ((if operandSize then [0x66] else []) ++ (bytes ++ (opcode ++ rest))) =
      (operandSize, bytes ++ (opcode ++ rest)) := by
  cases operandSize with
  | true => rfl
  | false =>
    have hfirst : ∃ byte tail, bytes ++ (opcode ++ rest) = byte :: tail ∧ byte ≠ 0x66 := by
      rcases hrex with ⟨rfl, -⟩ | ⟨byte, rfl, hbyte, -⟩
      · obtain ⟨byte, tail, rfl, hne, -⟩ := head_of_isOpcode h
        exact ⟨byte, tail ++ rest, rfl, hne⟩
      · refine ⟨byte, opcode ++ rest, rfl, ?_⟩
        rintro rfl
        cases hbyte
    obtain ⟨byte, tail, heq, hne⟩ := hfirst
    simp only [Bool.false_eq_true, if_false, List.nil_append]
    rw [heq]
    unfold takeOperandSize
    split
    · next hcons => exact absurd (List.cons.inj hcons).1 hne
    · rfl

/-- Prefixes, opcode and operand one after another are read back. -/
theorem decodeMem_append {opcode rexBytes bytes rest : List Byte} {rex : Rex} {digit : BitVec 3}
    {address : Address} (operandSize : Bool) (hopcode : isOpcode opcode)
    (hrex : IsRexPrefix rexBytes rex)
    (hoperand : memOperand rex bytes = some (digit, address, rest)) :
    decodeMem ((if operandSize then [0x66] else []) ++ (rexBytes ++ (opcode ++ bytes))) =
      some (⟨operandSize, rex, opcode, digit, address⟩, rest) := by
  simp only [decodeMem, takeOperandSize_append hopcode hrex, takeRex_append hopcode hrex,
    takeOpcode_append hopcode, Option.bind_eq_bind, Option.bind_some, hoperand]

/-! ## Immediates -/

/-- The instructions that take an immediate and nothing else; a conditional jump with its
condition. -/
inductive ImmOp
  | jcc (cond : BitVec 4)
  | jmp
  | call
  | push
  | int
  | xabort
  deriving DecidableEq, Repr

/-- The width of an immediate, and how it is extended. -/
inductive ImmForm
  | zero8
  | sign8
  | sign32
  deriving DecidableEq, Repr

/-- An instruction with its immediate, extended to 64 bits. -/
structure ImmInsn where
  op : ImmOp
  value : BitVec 64
  deriving DecidableEq, Repr

/-- The opcodes of one byte that take an immediate. -/
def immOpcode (byte : Byte) : Option (ImmOp × ImmForm) :=
  if byte = 0xE8 then some (.call, .sign32)
  else if byte = 0xE9 then some (.jmp, .sign32)
  else if byte = 0xEB then some (.jmp, .sign8)
  else if byte = 0x68 then some (.push, .sign32)
  else if byte = 0x6A then some (.push, .sign8)
  else if byte = 0xCD then some (.int, .zero8)
  else if byte.extractLsb' 4 4 = 7 then some (.jcc (byte.extractLsb' 0 4), .sign8)
  else none

/-- The opcodes of two bytes that take an immediate. -/
def immOpcode2 (first second : Byte) : Option (ImmOp × ImmForm) :=
  if first = 0x0F ∧ second.extractLsb' 4 4 = 8 then
    some (.jcc (second.extractLsb' 0 4), .sign32)
  else if first = 0xC6 ∧ second = 0xF8 then some (.xabort, .zero8)
  else none

/-- The immediate in this form, extended. -/
def takeImm : ImmForm → List Byte → Option (BitVec 64 × List Byte)
  | .zero8, d :: rest => some (d.setWidth 64, rest)
  | .sign8, d :: rest => some (d.signExtend 64, rest)
  | .sign32, d0 :: d1 :: d2 :: d3 :: rest => some ((d3 ++ d2 ++ d1 ++ d0).signExtend 64, rest)
  | _, _ => none

/-- The opcode of an instruction that takes an immediate. -/
def takeImmOpcode : List Byte → Option ((ImmOp × ImmForm) × List Byte)
  | [] => none
  | [_] => none
  | first :: second :: rest =>
    match immOpcode2 first second with
    | some form => some (form, rest)
    | none => (immOpcode first).map fun form => (form, second :: rest)

/-- The instruction that the bytes start with, and the bytes after it. -/
def decodeImm (bytes : List Byte) : Option (ImmInsn × List Byte) := do
  let (form, bytes) ← takeImmOpcode bytes
  let (value, bytes) ← takeImm form.2 bytes
  some (⟨form.1, value⟩, bytes)

theorem takeImm_disp32 (d : BitVec 32) : takeImm .sign32 (disp32 d) = some (d.signExtend 64, []) := by
  have h := takeDisp_disp32 d []
  have hjoin : d.extractLsb' 24 8 ++ d.extractLsb' 16 8 ++ d.extractLsb' 8 8 ++
      d.extractLsb' 0 8 = d := congrArg Prod.fst (Option.some.inj h)
  change some ((d.extractLsb' 24 8 ++ d.extractLsb' 16 8 ++ d.extractLsb' 8 8 ++
    d.extractLsb' 0 8).signExtend 64, []) = _
  rw [hjoin]

theorem decodeImm_of_opcode {bytes rest : List Byte} {op : ImmOp} {form : ImmForm}
    {value : BitVec 64} (hop : takeImmOpcode bytes = some ((op, form), rest))
    (himm : takeImm form rest = some (value, [])) :
    decodeImm bytes = some (⟨op, value⟩, []) := by
  rw [decodeImm, hop]
  change (takeImm form rest).bind _ = _
  rw [himm]
  rfl

/-- An opcode is one or two bytes long, and an immediate one or four. -/
theorem length_of_decodeImm {bytes : List Byte} {insn : ImmInsn}
    (h : decodeImm bytes = some (insn, [])) :
    bytes.length = 2 ∨ bytes.length = 3 ∨ bytes.length = 5 ∨ bytes.length = 6 := by
  rw [decodeImm, Option.bind_eq_bind, Option.bind_eq_some_iff] at h
  obtain ⟨⟨form, rest⟩, hop, h⟩ := h
  dsimp only at h
  rw [Option.bind_eq_bind, Option.bind_eq_some_iff] at h
  obtain ⟨⟨value, tail⟩, himm, h⟩ := h
  cases h
  have hrest : rest.length = 1 ∨ rest.length = 4 := by
    unfold takeImm at himm
    split at himm
    · cases himm
      exact .inl rfl
    · cases himm
      exact .inl rfl
    · cases himm
      exact .inr rfl
    · cases himm
  have hbytes : bytes.length = rest.length + 1 ∨ bytes.length = rest.length + 2 := by
    unfold takeImmOpcode at hop
    split at hop
    · cases hop
    · cases hop
    · split at hop
      · cases hop
        exact .inr rfl
      · rw [Option.map_eq_some_iff] at hop
        obtain ⟨found, -, hpair⟩ := hop
        cases hpair
        exact .inl rfl
  omega

end X86
