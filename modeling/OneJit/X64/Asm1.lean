import OneJit.X64.Mem

/-!
# The assembler of one-operand instructions

`Asm1::emit` with the functions it calls. A function of the source that fills a buffer from a
position on appends to a list here; the byte at that position, which the last byte of the opcode
string has already set, is an argument of its own.
-/

namespace OneJit.X64

open X86 (Byte)

/-- What the assembler collects: bytes, the positions after which a label is to be filled in, and
errors. -/
structure Assembler where
  bytes : List Byte := []
  relocations : List (Nat × Label) := []
  errors : List String := []
  deriving DecidableEq, Repr

namespace Assembler

/-- `Assembler::add`. -/
def add (dst : Assembler) (bytes : List Byte) : Assembler :=
  { dst with bytes := dst.bytes ++ bytes }

/-- `Assembler::add_relocation`. -/
def addRelocation (dst : Assembler) : Option Label → Assembler
  | some l => { dst with relocations := dst.relocations ++ [(dst.bytes.length, l)] }
  | none => dst

/-- `Assembler::error`. -/
def error (dst : Assembler) (msg : String) : Assembler :=
  { dst with errors := dst.errors ++ [msg] }

end Assembler

/-! ## Addresses -/

/-- What `Util::validate_mem` reports about the base. -/
def validateBase (mem : Mem) : List String :=
  if mem.base.isValid ∧ (mem.base.id < rax ∨ r15 < mem.base.id) ∧ mem.base.id ≠ rip then
    ["x64::Asm memory reference: invalid base register"]
  else []

/-- What `Util::validate_mem` reports about the index. -/
def validateIndex (mem : Mem) : List String :=
  if ¬(mem.index.isValid ∧ mem.scale ≠ .scale0) then []
  else if (mem.index.id < rax ∨ r15 < mem.index.id) ∧ mem.index.id ≠ rip then
    ["x64::Asm memory reference: invalid index register"]
  else if mem.index.id = rsp then
    ["x64::Asm memory reference: cannot use %rsp as index register"]
  else if mem.index.id = rip then
    ["x64::Asm memory reference: cannot use %rip as index register"]
  else if mem.base.id = rip then
    ["x64::Asm memory reference: %rip-relative addressing does not allow index register"]
  else []

/-- The errors of `Util::validate_mem`, which is true when there are none. -/
def validateMem (mem : Mem) : List String := validateBase mem ++ validateIndex mem

/-- The number is the one its low byte stands for. -/
def isInt8 (n : BitVec 32) : Bool := n == (n.setWidth 8).signExtend 32

/-- `Util::get_offset_minbytes`. -/
def getOffsetMinbytes (mem : Mem) (base index : Reg) : Nat :=
  if !isInt8 mem.offset || mem.label.isSome || base.id == rip || (index.isValid && !base.isValid)
  then 4
  else if mem.offset ≠ 0 ∨ rlo base = 5 then 1
  else 0

/-- `is_quirk24`. -/
def isQuirk24 (base index : Reg) : Bool := !index.isValid && rlo base == 4

/-- `Util::insert_modrm_sib`, where `modrm` is the byte at the end of the buffer. -/
def insertModrmSib (buf : List Byte) (modrm : Byte) (immediateBytes : Nat) (base index : Reg)
    (scale : Scale) : List Byte :=
  let modrm :=
    if !base.isValid && index.isValid then modrm
    else if immediateBytes = 1 then modrm ||| 0x40
    else if immediateBytes = 4 ∧ base.id ≠ rip then modrm ||| 0x80
    else modrm
  let buf :=
    if index.isValid then
      buf ++ [modrm ||| 0x4,
        (if base.isValid then rlo base else 0x5) ||| rlo index <<< 3 |||
          BitVec.ofNat 8 scale.bits <<< 6]
    else if base.isValid then buf ++ [modrm ||| rlo base]
    else buf
  if isQuirk24 base index then buf ++ [0x24] else buf

/-- `Util::insert_offset_or_imm`. -/
def insertOffsetOrImm (buf : List Byte) (immediateBytes : Nat) (offset : BitVec 32) : List Byte :=
  if immediateBytes = 1 then buf ++ [offset.setWidth 8]
  else if immediateBytes = 2 then buf ++ [offset.setWidth 8, (offset >>> 8).setWidth 8]
  else if immediateBytes = 4 then
    buf ++ [offset.setWidth 8, (offset >>> 8).setWidth 8, (offset >>> 16).setWidth 8,
      (offset >>> 24).setWidth 8]
  else buf

/-- `rex_byte`. -/
def rexByte (defaultSize size : Nat) (base index : Reg) : Byte :=
  let byte := rhi base ||| rhi index <<< 1
  if defaultSize < 64 ∧ 64 ≤ size then byte ||| 0x48
  else if byte ≠ 0 ∨
      base.isValid ∧ !index.isValid ∧ base.kind.bitsize = 8 ∧ rsp ≤ base.id then byte ||| 0x40
  else byte

/-- `asm1_insert_prefixes`. -/
def insertPrefixes (buf : List Byte) (kind : Kind) (defaultSize : Nat) (base index : Reg) :
    List Byte :=
  let buf := if kind.bitsize = 16 then buf ++ [0x66] else buf
  let rex := rexByte defaultSize kind.bitsize base index
  if rex ≠ 0 then buf ++ [rex] else buf

/-- What `asm1_emit_addr` puts into the buffer. -/
def addrBytes (opcode : List Byte) (kind : Kind) (defaultSize : Nat) (mem : Mem) (base index : Reg)
    (scale : Scale) : List Byte :=
  let buf := insertPrefixes [] kind defaultSize base index ++ opcode.dropLast
  let offsetBytes := getOffsetMinbytes mem base index
  let buf := insertModrmSib buf (opcode.getLastD 0) offsetBytes base index scale
  if offsetBytes ≠ 0 then insertOffsetOrImm buf offsetBytes mem.offset else buf

/-- `asm1_emit_addr`. -/
def emitAddr (dst : Assembler) (op : AsmOp1) (opcode : List Byte) (defaultSize : Nat) (mem : Mem) :
    Assembler :=
  let base := mem.base
  -- either scale or index is not set: clear both
  let clear := mem.scale == .scale0 || !mem.index.isValid
  let index := if clear then Reg.absent else mem.index
  let scale := if clear then Scale.scale0 else mem.scale
  -- RSP as index is interpreted as zero
  let bare := !base.isValid && !index.isValid
  let index := if bare then ⟨.uint64, rsp⟩ else index
  let scale := if bare then .scale1 else scale
  -- clflushopt always wants 0x66 prefix
  let kind := if op = .clflushopt then .uint16 else mem.kind
  (dst.add (addrBytes opcode kind defaultSize mem base index scale)).addRelocation mem.label

/-! ## Instructions -/

/-- `asm1_default_size`. -/
def defaultSize : AsmOp1 → Nat
  | .call | .jmp | .pop | .push => 64
  | _ => 32

/-- The opcode string with the lowest bit of its first byte set. -/
def setWide : List Byte → List Byte
  | [] => []
  | byte :: bytes => (byte ||| 1) :: bytes

/-- The opcode string for an operand of this width: an instruction that has an 8-bit form tells the
other widths by the lowest bit. -/
def Inst1.bytesFor (inst : Inst1) (bits : Nat) : List Byte :=
  if inst.argSize &&& .b8 ≠ 0 ∧ bits ≠ 8 then setWide inst.bytes else inst.bytes

/-- `asm1_emit_mem`. -/
def emitMem (dst : Assembler) (inst : Inst1) (op : AsmOp1) (mem : Mem) : Assembler :=
  if validateMem mem ≠ [] then { dst with errors := dst.errors ++ validateMem mem }
  else emitAddr dst op (inst.bytesFor mem.kind.bitsize) (defaultSize op) mem

/-- The number is the one its two low bytes stand for. -/
def isInt16 (n : BitVec 32) : Bool := n == (n.setWidth 16).signExtend 32

/-- The number of bytes that `asm1_emit_const` chooses for an immediate. -/
def immLen (inst : Inst1) (val : BitVec 32) : Nat :=
  if isInt8 val ∧ inst.immSize &&& .b8 ≠ 0 then 1
  else if isInt16 val ∧ inst.immSize &&& .b16 ≠ 0 then 2
  else 4

/-- `asm1_emit_const`. -/
def emitConst (dst : Assembler) (inst : Inst1) (val : Value) : Assembler :=
  let val32 := val.bits.setWidth 32
  let len := immLen inst val32
  let buf := if len = 2 then [0x66] else []
  let buf := buf ++ if len = 1 then inst.imm8Bytes else inst.imm32Bytes
  dst.add (insertOffsetOrImm buf len val32)

/-- `asm1_emit_label`. The four bytes are filled in later. -/
def emitLabel (dst : Assembler) (inst : Inst1) (l : Label) : Assembler :=
  (dst.add (inst.imm32Bytes ++ [0, 0, 0, 0])).addRelocation (some l)

/-- `asm1_emit_pop_or_push_reg`. -/
def emitPopOrPushReg (dst : Assembler) (op : AsmOp1) (reg : Reg) : Assembler :=
  dst.add (insertPrefixes [] reg.kind (defaultSize op) reg .absent ++
    [0x50 ||| rlo reg ||| (if op = .pop then 0x8 else 0x0)])

/-- `asm1_emit_reg`. -/
def emitReg (dst : Assembler) (inst : Inst1) (op : AsmOp1) (reg : Reg) : Assembler :=
  if op = .pop ∨ op = .push then emitPopOrPushReg dst op reg
  else if op = .rdtsc then dst.add inst.bytes
  else
    let opcode := inst.bytesFor reg.kind.bitsize
    dst.add (insertPrefixes [] reg.kind (defaultSize op) reg .absent ++ opcode.dropLast ++
      [opcode.getLastD 0 ||| (0xC0 ||| rlo reg)])

/-- `to_arg` of an operand. -/
def Operand.toArg : Operand → Arg1
  | .expr (.var kind id) => Reg.toArg ⟨kind, id⟩
  | .expr (.mem _ _ _) | .mem _ => .mem
  | .expr (.label _ _) | .expr (.const _ _) => .val
  | _ => .none

/-- `Asm1::emit`. -/
def emit (dst : Assembler) (op : AsmOp1) (arg : Operand) : Assembler :=
  let inst := find op
  if arg.toArg &&& inst.arg = 0 then
    dst.error "x64::Asm1::emit: instruction does not support specified argument type"
  else match arg with
    | .expr (.var kind id) =>
      if !isCompatible kind.bitsize inst.argSize then
        dst.error "x64::Asm1::emit: instruction does not support specified register width"
      else emitReg dst inst op ⟨kind, id⟩
    | .mem mem =>
      if !isCompatible mem.kind.bitsize inst.argSize then
        dst.error "x64::Asm1::emit: instruction does not support specified memory width"
      else if inst.bytes = [] then
        dst.error "x64::Asm1::emit: unimplemented instruction"
      else emitMem dst inst op mem
    | .expr (.label index address) =>
      if !isCompatible 32 inst.immSize then
        dst.error "x64::Asm1::emit: instruction does not support labels"
      else emitLabel dst inst ⟨index, address⟩
    | .expr (.const v _) =>
      if !isCompatible v.kind.bitsize inst.immSize then
        dst.error "x64::Asm1::emit: instruction does not support specified immediate width"
      else emitConst dst inst v
    | _ => dst.error
      "x64::Asm1::emit: unexpected argument type, expecting Const, Label, Var or x64::Mem"

end OneJit.X64
