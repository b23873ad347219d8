import OneJit.Ir
import OneJit.Lib.X86

/-!
# Registers and one-operand instructions of x64

The identifiers of the registers, the widths and the arguments that an instruction takes, and the
table of one-operand instructions.
-/

namespace OneJit.X64

open X86 (Byte)

/-! ## Registers -/

abbrev rax : Nat := 512
abbrev rcx : Nat := 513
abbrev rsp : Nat := 516
abbrev rbp : Nat := 517
abbrev r15 : Nat := 527

/-- `RIP`, whose low bits are those of `RBP`. -/
abbrev rip : Nat := rbp + 16

abbrev xmm0 : Nat := 544
abbrev xmm31 : Nat := 575

/-- `class Reg`, a `Local` whose identifier is that of a register. -/
structure Reg where
  kind : Kind
  id : Nat
  deriving DecidableEq, Repr

namespace Reg

/-- `Reg{}`. -/
def absent : Reg := ⟨.bad, 0⟩

/-- `Local::operator bool`. -/
def isValid (r : Reg) : Bool := r.kind.isValid

end Reg

/-- The three low bits of a register. -/
def rlo (r : Reg) : Byte := BitVec.ofNat 8 r.id &&& 7

/-- The bit of a register that goes into REX. -/
def rhi (r : Reg) : Byte := BitVec.ofNat 8 (r.id >>> 3) &&& 1

/-! ## Widths and arguments -/

/-- `enum BitSize`: a set of widths. -/
abbrev BitSize := BitVec 8

namespace BitSize

abbrev b0 : BitSize := 0
abbrev b8 : BitSize := 1
abbrev b16 : BitSize := 2
abbrev b32 : BitSize := 4
abbrev b64 : BitSize := 8
abbrev b128 : BitSize := 16

end BitSize

/-- `to_bitsize`. -/
def toBitsize (bits : Nat) : BitSize :=
  if bits = 8 then .b8
  else if bits = 16 then .b16
  else if bits = 32 then .b32
  else if bits = 64 then .b64
  else .b0

/-- `is_compatible(Bits, BitSize)`. -/
def isCompatible (bits : Nat) (size : BitSize) : Bool := toBitsize bits &&& size != 0

/-- `enum class Arg1`: a set of operands. -/
abbrev Arg1 := BitVec 8

namespace Arg1

abbrev none : Arg1 := 0
abbrev rax : Arg1 := 1
abbrev rcx : Arg1 := 2
abbrev reg : Arg1 := 4 ||| rax ||| rcx
abbrev xmm : Arg1 := 8
abbrev mem : Arg1 := 16
abbrev val : Arg1 := 32

end Arg1

/-- The case of a variable in `to_arg`. -/
def Reg.toArg (r : Reg) : Arg1 :=
  if !r.isValid then .none
  else if r.id = X64.rax then .rax
  else if r.id = X64.rcx then .rcx
  else if X64.rax ≤ r.id ∧ r.id ≤ r15 ∨ r.id = rip then .reg
  else if xmm0 ≤ r.id ∧ r.id ≤ xmm31 then .xmm
  else .none

/-! ## Instructions -/

/-- The operators of one-operand statements, as far as `Asm1::find` tells them apart. -/
inductive AsmOp1
  | bswap | call | cbw | dec | inc | int
  | ja | jae | jb | jbe | je | jg | jge | jl | jle | jne | jno | jnp | jns | jo | jp | js
  | jmp | neg | not | pop | push | rdtsc
  | seta | setae | setb | setbe | sete | setg | setge | setl | setle | setne | setno | setnp | setns
  | seto | setp | sets
  | clflush | clflushopt | clwb | xabort
  | other
  deriving DecidableEq, Repr

/-- `class Inst1`, with its strings as lists of bytes. -/
structure Inst1 where
  bytes : List Byte
  imm8 : List Byte
  imm32 : List Byte
  arg : Arg1
  argSize : BitSize
  immSize : BitSize := .b0

namespace Inst1

/-- The bytes kept of the string of an immediate form: at most two, and those that are not zero. -/
def immBytes (chars : List Byte) : List Byte :=
  let b0 := chars.getD 0 0
  let b1 := if b0 ≠ 0 then chars.getD 1 0 else 0
  [b0, b1].take ((if b0 ≠ 0 then 1 else 0) + (if b1 ≠ 0 then 1 else 0))

def imm8Bytes (inst : Inst1) : List Byte := immBytes inst.imm8

def imm32Bytes (inst : Inst1) : List Byte := immBytes inst.imm32

end Inst1

open BitSize

/-- A conditional jump. -/
def condJump (imm8 imm32 : Byte) : Inst1 :=
  { bytes := [], imm8 := [imm8], imm32 := [0x0F, imm32], arg := .val, argSize := b0,
    immSize := b8 ||| b32 }

/-- An instruction that sets a byte by a condition. -/
def setByte (op : Byte) : Inst1 :=
  { bytes := [0x0F, op, 0x00], imm8 := [], imm32 := [], arg := .reg ||| .mem, argSize := b8 }

/-- An instruction on a register or memory of any width. -/
def anyWidth (op modrm : Byte) : Inst1 :=
  { bytes := [op, modrm], imm8 := [], imm32 := [], arg := .reg ||| .mem,
    argSize := b8 ||| b16 ||| b32 ||| b64 }

/-- A cache instruction, which is not implemented. -/
def cacheLine : Inst1 :=
  { bytes := [], imm8 := [], imm32 := [], arg := .mem, argSize := b8 }

/-- `Asm1::find`. -/
def find : AsmOp1 → Inst1
  | .other => ⟨[0x0F, 0x0B], [0x0F, 0x0B], [0x0F, 0x0B], .none, b0, b0⟩
  | .bswap => ⟨[0x0F, 0xC8], [], [], .reg, b32 ||| b64, b0⟩
  | .call => ⟨[0xFF, 0x10], [], [0xE8], .reg ||| .mem ||| .val, b64, b32⟩
  | .cbw => ⟨[], [], [], .rax, b16 ||| b32 ||| b64, b0⟩
  | .dec => anyWidth 0xFE 0x08
  | .inc => anyWidth 0xFE 0x00
  | .int => ⟨[], [0xCD], [], .val, b0, b8⟩
  | .ja => condJump 0x77 0x87
  | .jae => condJump 0x73 0x83
  | .jb => condJump 0x72 0x82
  | .jbe => condJump 0x76 0x86
  | .je => condJump 0x74 0x84
  | .jg => condJump 0x7F 0x8F
  | .jge => condJump 0x7D 0x8D
  | .jl => condJump 0x7C 0x8C
  | .jle => condJump 0x7E 0x8E
  | .jne => condJump 0x75 0x85
  | .jno => condJump 0x71 0x81
  | .jnp => condJump 0x7B 0x8B
  | .jns => condJump 0x79 0x89
  | .jo => condJump 0x70 0x80
  | .jp => condJump 0x7A 0x8A
  | .js => condJump 0x78 0x88
  | .jmp => ⟨[0xFF, 0x20], [0xEB], [0xE9], .reg ||| .mem ||| .val, b64, b8 ||| b32⟩
  | .neg => anyWidth 0xF6 0x18
  | .not => anyWidth 0xF6 0x10
  | .pop => ⟨[0x8F, 0x00], [], [], .reg ||| .mem, b16 ||| b64, b0⟩
  | .push => ⟨[0xFF, 0x30], [0x6A], [0x68], .reg ||| .mem ||| .val, b16 ||| b64, b8 ||| b32⟩
  | .rdtsc => ⟨[0x0F, 0x31], [], [], .rax, b128, b0⟩
  | .seta => setByte 0x97
  | .setae => setByte 0x93
  | .setb => setByte 0x92
  | .setbe => setByte 0x96
  | .sete => setByte 0x94
  | .setg => setByte 0x9F
  | .setge => setByte 0x9D
  | .setl => setByte 0x9C
  | .setle => setByte 0x9E
  | .setne => setByte 0x95
  | .setno => setByte 0x91
  | .setnp => setByte 0x9B
  | .setns => setByte 0x99
  | .seto => setByte 0x90
  | .setp => setByte 0x9A
  | .sets => setByte 0x98
  | .clflush | .clflushopt | .clwb => cacheLine
  | .xabort => ⟨[], [], [], .val, b0, b8⟩

end OneJit.X64
