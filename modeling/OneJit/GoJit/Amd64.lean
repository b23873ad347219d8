import OneJit.GoJit.Optimize
import OneJit.Lib.X86Exec

/-!
# Two-argument instructions of amd64

The encoder of `op2.go`, with the moves and one-argument instructions it needs. Each shape and width
has a layout of its own. Multiplications, shifts, divisions, casts and jumps have encoders in other
files; those are parameters here.
-/

namespace OneJit.GoJit.Amd64

open X86 (Byte leBytes disp32)

/-- What the encoder writes to: the code, and the registers in use. -/
structure Asm where
  code : List Byte
  regIds : RegIds

/-- How a call fails: with a message, or because its recursion goes too deep for the model. -/
inductive Failure
  | errorf (msg : String)
  | outOfFuel
  deriving DecidableEq, Repr

abbrev Emit := EStateM Failure Asm

/-- `Bytes`. -/
def bytes (bs : List Byte) : Emit Unit := fun a => .ok () { a with code := a.code ++ bs }

def errorf {α : Type} (msg : String) : Emit α := throw (.errorf msg)

def assert (cond : Bool) : Emit Unit := if cond then pure () else errorf "assertion failed"

/-! ## Registers -/

def rax : RegId := 0x101
def rsp : RegId := 0x105
def rbp : RegId := 0x106
def r12 : RegId := 0x10D
def r13 : RegId := 0x10E

/-- The `RegAlloc` of the assembler. The search visits each register once. -/
def regAlloc (kind : Kind) : Emit Reg := fun a =>
  match a.regIds.tryAlloc amd64 (amd64.rhi.toNat - amd64.rlo.toNat + 1) with
  | none => .error .outOfFuel a
  | some (id, rs) =>
    if amd64.valid id then .ok ⟨id, kind⟩ { a with regIds := rs }
    else .error (.errorf "no free registers") { a with regIds := rs }

/-- `RegFree`. -/
def regFree (r : Reg) : Emit Unit := fun a =>
  .ok () { a with regIds := a.regIds.free amd64 r.id }

def bits (id : RegId) : Emit Byte :=
  if amd64.valid id then pure ((id - amd64.rlo).setWidth 8) else errorf "invalid register"

def lohiId (id : RegId) : Emit (Byte × Byte) := do
  let bits ← bits id
  pure (bits &&& 0x7, (bits &&& 0x8) >>> 3)

def lohi (r : Reg) : Emit (Byte × Byte) := lohiId r.id

/-- `offlen`: the number of bytes of the offset, and the bits of ModRM that announce them. -/
def offlen (m : Mem) (id : RegId) : Byte × Byte :=
  if m.off = 0 ∧ id ≠ rbp ∧ id ≠ r13 then (0, 0)
  else if m.off = (m.off.setWidth 8).signExtend 32 then (1, 0x40)
  else (4, 0x80)

/-- What `quirk24` emits. -/
def quirk24 (id : RegId) : List Byte := if id = rsp ∨ id = r12 then [0x24] else []

/-- The offset, in as many bytes as `offlen` says. -/
def offset (len : Byte) (m : Mem) : List Byte :=
  if len = 1 then [m.off.setWidth 8] else if len = 4 then disp32 m.off else []

/-- `cval == int64(int8(cval))` and the like, for a number of bytes. -/
abbrev Fits (n : Nat) (cval : BitVec 64) : Prop := cval = (cval.setWidth (8 * n)).signExtend 64

/-! ## Opcodes -/

/-- The table `op2Val`. -/
def op2Val : Op2 → Byte
  | .add2 => 0x00
  | .or2 => 0x08
  | .adc2 => 0x10
  | .sbb2 => 0x18
  | .and2 => 0x20
  | .sub2 => 0x28
  | .xor2 => 0x30
  | .mov => 0x88
  | .lea2 => 0x8D
  | .cast => 0xB6
  | .shl2 => 0xE0
  | .shr2 => 0xE8
  | .mul2 => 0xF6
  | .div2 => 0xFE
  | .rem2 => 0xFF
  | .neg2 => 0x40
  | .not2 => 0x48
  | _ => 0

def op2val (op : Op2) : Emit Byte :=
  if op2Val op = 0 ∧ op ≠ .add2 then errorf "unknown Op2 instruction" else pure (op2Val op)

/-- The table `op1Val`. -/
def op1Val : Op1 → Byte
  | .zero => 0x08
  | .not1 => 0x10
  | .neg1 => 0x18
  | .inc => 0x20
  | .dec => 0x28
  | .jmp => 0

def op1lohi (op : Op1) : Emit (Byte × Byte) :=
  if op1Val op = 0 then errorf "unknown Op1 instruction"
  else pure (op1Val op &&& 0x18, op1Val op >>> 2)

/-! ## Moves of constants -/

def zeroReg (dst : Reg) : Emit Unit := do
  let (dlo, dhi) ← lohi dst
  if dhi = 0 then bytes [0x31, 0xC0 ||| dlo ||| dlo <<< 3]
  else bytes [0x48 ||| dhi <<< 1 ||| dhi <<< 2, 0x31, 0xC0 ||| dlo ||| dlo <<< 3]

def movConstReg8 (c : Const) (dst : Reg) : Emit Unit := do
  let (dlo, dhi) ← lohi dst
  if Fits 1 c.val then
    if dst.id < rsp then bytes ([0xB0 ||| dlo] ++ leBytes 1 c.val)
    else bytes ([0x40 ||| dhi, 0xB0 ||| dlo] ++ leBytes 1 c.val)
  else errorf "sign-extended constant overflows 8-bit destination"

def movConstReg16 (c : Const) (dst : Reg) : Emit Unit := do
  let (dlo, dhi) ← lohi dst
  if Fits 2 c.val then
    if dhi = 0 then bytes ([0x66, 0xB8 ||| dlo] ++ leBytes 2 c.val)
    else bytes ([0x66, 0x40 ||| dhi, 0xB8 ||| dlo] ++ leBytes 2 c.val)
  else errorf "sign-extended constant overflows 16-bit destination"

def movConstReg32 (c : Const) (dst : Reg) : Emit Unit := do
  let (dlo, dhi) ← lohi dst
  if Fits 4 c.val then
    if dhi = 0 then bytes ([0xB8 ||| dlo] ++ leBytes 4 c.val)
    else bytes ([0x40 ||| dhi, 0xB8 ||| dlo] ++ leBytes 4 c.val)
  else errorf "sign-extended constant overflows 16-bit destination"

def movConstReg64 (c : Const) (dst : Reg) : Emit Unit := do
  let (dlo, dhi) ← lohi dst
  if Fits 4 c.val then bytes ([0x48 ||| dhi, 0xC7, 0xC0 ||| dlo] ++ leBytes 4 c.val)
  else bytes ([0x48 ||| dhi, 0xB8 ||| dlo] ++ leBytes 8 c.val)

def movConstReg (c : Const) (dst : Reg) : Emit Unit :=
  if c.val = 0 then zeroReg dst
  else
    match dst.kind.size with
    | 1 => movConstReg8 c dst
    | 2 => movConstReg16 c dst
    | 4 => movConstReg32 c dst
    | 8 => movConstReg64 c dst
    | _ => pure ()

/-! ## The encoders that call each other

`op2` is the recursive call; `enc` stands for the encoders in other files. -/

/-- The encoders of `mul.go`, `shift.go`, `div.go`, of casts between sizes and of jumps. -/
structure Encoders where
  op2 : Op2 → Arg → Arg → Emit Unit
  jmp : Arg → Emit Unit

section Encoders

variable (enc : Encoders) (op2 : Op2 → Arg → Arg → Emit Unit)

def movConstMem (c : Const) (m : Mem) : Emit Unit := do
  let (dlo, dhi) ← lohiId m.reg.id
  let (len, offbit) := offlen m m.reg.id
  let tail := quirk24 m.reg.id ++ offset len m
  let long := if dhi = 0 then [0xC7, offbit ||| dlo] else [0x40 ||| dhi, 0xC7, offbit ||| dlo]
  match m.reg.kind.size with
  | 1 =>
    let head := if dhi = 0 then [0xC6, offbit ||| dlo] else [0x40 ||| dhi, 0xC6, offbit ||| dlo]
    bytes (head ++ tail ++ leBytes 1 c.val)
  | 2 => bytes ([0x66] ++ long ++ tail ++ leBytes 2 c.val)
  | 4 => bytes (long ++ tail ++ leBytes 4 c.val)
  | 8 =>
    if Fits 4 c.val then
      bytes ([0x48 ||| dhi, 0xC7, offbit ||| dlo] ++ tail ++ leBytes 4 c.val)
    else do
      let r ← regAlloc m.reg.kind
      movConstReg64 c r
      op2 .mov (.reg r) (.mem m)
      regFree r
  | _ => bytes tail

def zeroMem (dst : Mem) : Emit Unit := movConstMem op2 ⟨0, dst.reg.kind⟩ dst

def op1Reg (op : Op1) (r : Reg) : Emit Unit :=
  if op = .zero then zeroReg r
  else do
    let (rlo, rhi) ← lohi r
    let (oplo, ophi) ← op1lohi op
    let rex := if rhi ≠ 0 then [0x41] else []
    match r.kind.size with
    | 1 => bytes ((if rsp ≤ r.id then [0x40 ||| rhi] else []) ++ [0xF6 ||| ophi, 0xC0 ||| oplo ||| rlo])
    | 2 => bytes ([0x66] ++ rex ++ [0xF7 ||| ophi, 0xC0 ||| oplo ||| rlo])
    | 4 => bytes (rex ++ [0xF7 ||| ophi, 0xC0 ||| oplo ||| rlo])
    | 8 => bytes [0x48 ||| rhi, 0xF7 ||| ophi, 0xC0 ||| oplo ||| rlo]
    | _ => errorf "unsupported register size, expecting 1,2,4 or 8 bytes"

def op1Mem (op : Op1) (m : Mem) : Emit Unit :=
  if op = .zero then zeroMem op2 m
  else do
    let (rlo, dhi) ← lohiId m.reg.id
    let (oplo, ophi) ← op1lohi op
    let (len, offbit) := offlen m m.reg.id
    let tail := quirk24 m.reg.id ++ offset len m
    let rex := if dhi ≠ 0 then [0x41] else []
    match m.reg.kind.size with
    | 1 => bytes (rex ++ [0xF6 ||| ophi, offbit ||| oplo ||| rlo] ++ tail)
    | 2 => bytes ([0x66] ++ rex ++ [0xF7 ||| ophi, offbit ||| oplo ||| rlo] ++ tail)
    | 4 => bytes (rex ++ [0xF7 ||| ophi, offbit ||| oplo ||| rlo] ++ tail)
    | 8 => bytes ([0x48 ||| dhi, 0xF7 ||| ophi, offbit ||| oplo ||| rlo] ++ tail)
    | _ => errorf "unsupported memory size, expecting 1,2,4 or 8 bytes"

def op1 (op : Op1) (a : Arg) : Emit Unit :=
  if op = .jmp then enc.jmp a
  else
    match a with
    | .reg r => op1Reg op r
    | .mem m => op1Mem op2 op m
    | .const _ => errorf "destination cannot be a constant"

def isMem : Arg → Bool
  | .mem _ => true
  | _ => false

/-- The operations that `mul.go` and `shift.go` encode. -/
def Op2.isOther (op : Op2) : Bool := op = .mul2 || op = .shl2 || op = .shr2

def op2RegReg (op : Op2) (src dst : Reg) : Emit Unit :=
  if Op2.isOther op then enc.op2 op (.reg src) (.reg dst)
  else do
    assert (op ≠ .lea2)
    let op_ ← op2val op
    let (slo, shi) ← lohi src
    let (dlo, dhi) ← lohi dst
    let modrm := 0xC0 ||| dlo ||| slo <<< 3
    match src.kind.size with
    | 1 =>
      if src.id < rsp ∧ dst.id < rsp then bytes [op_, modrm]
      else bytes [0x40 ||| dhi ||| shi <<< 2, op_, modrm]
    | 2 =>
      if dhi ||| shi <<< 2 = 0 then bytes [0x66, 0x01 ||| op_, modrm]
      else bytes [0x66, 0x40 ||| dhi ||| shi <<< 2, 0x01 ||| op_, modrm]
    | 4 =>
      if dhi ||| shi <<< 2 = 0 then bytes [0x01 ||| op_, modrm]
      else bytes [0x40 ||| dhi ||| shi <<< 2, 0x01 ||| op_, modrm]
    | 8 => bytes [0x48 ||| dhi ||| shi <<< 2, 0x01 ||| op_, modrm]
    | _ => pure ()

def op2RegMem (op : Op2) (src : Reg) (dst : Mem) : Emit Unit :=
  if Op2.isOther op then enc.op2 op (.reg src) (.mem dst)
  else do
    assert (op ≠ .lea2)
    assert (src.kind.size = dst.reg.kind.size)
    let op_ ← op2val op
    let (dlo, dhi) ← lohiId dst.reg.id
    let (slo, shi) ← lohi src
    let (len, offbit) := offlen dst dst.reg.id
    let tail := quirk24 dst.reg.id ++ offset len dst
    let modrm := offbit ||| dlo ||| slo <<< 3
    let long := if dhi ||| shi <<< 2 = 0 then [0x01 ||| op_, modrm]
      else [0x40 ||| dhi ||| shi <<< 2, 0x01 ||| op_, modrm]
    match dst.reg.kind.size with
    | 1 =>
      let head := if src.id < rsp ∧ dhi = 0 then [op_, modrm]
        else [0x40 ||| dhi ||| shi <<< 2, op_, modrm]
      bytes (head ++ tail)
    | 2 => bytes ([0x66] ++ long ++ tail)
    | 4 => bytes (long ++ tail)
    | 8 => bytes ([0x48 ||| dhi ||| shi <<< 2, 0x01 ||| op_, modrm] ++ tail)
    | _ => bytes tail

def op2MemReg (op : Op2) (src : Mem) (dst : Reg) : Emit Unit :=
  if Op2.isOther op then enc.op2 op (.mem src) (.reg dst)
  else do
    let op_ ← op2val op
    let (dlo, dhi) ← lohi dst
    let (slo, shi) ← lohiId src.reg.id
    assert (src.reg.kind.size = dst.kind.size)
    let (len, offbit) := offlen src src.reg.id
    assert (op ≠ .lea2 ∨ src.reg.kind.size = 8)
    let tail := quirk24 src.reg.id ++ offset len src
    let modrm := offbit ||| dlo <<< 3 ||| slo
    let long := if dhi ||| shi <<< 2 = 0 then [0x03 ||| op_, modrm]
      else [0x40 ||| dhi <<< 2 ||| shi, 0x03 ||| op_, modrm]
    match src.reg.kind.size with
    | 1 =>
      let head := if dst.id < rsp ∧ shi = 0 then [0x02 ||| op_, modrm]
        else [0x40 ||| dhi <<< 2 ||| shi, 0x02 ||| op_, modrm]
      bytes (head ++ tail)
    | 2 => bytes ([0x66] ++ long ++ tail)
    | 4 => bytes (long ++ tail)
    | 8 => bytes ([0x48 ||| dhi <<< 2 ||| shi, if op ≠ .lea2 then op_ ||| 0x03 else op_, modrm] ++ tail)
    | _ => bytes tail

def op2MemMem (op : Op2) (src dst : Mem) : Emit Unit :=
  if Op2.isOther op then enc.op2 op (.mem src) (.mem dst)
  else do
    assert (op ≠ .lea2)
    let r ← regAlloc src.reg.kind
    op2MemReg enc .mov src r
    op2RegMem enc op r dst
    regFree r

/-! ## Constant operands -/

/-- Without the opcode `80` for the registers from `RSP` on. -/
def op2ConstReg8 (op : Op2) (c : Const) (dst : Reg) : Emit Unit := do
  let op_ ← op2val op
  let (dlo, dhi) ← lohi dst
  if Fits 1 c.val then
    if dst.id = rax then bytes ([0x04 ||| op_] ++ leBytes 1 c.val)
    else if dst.id < rsp then bytes ([0x80, 0xC0 ||| op_ ||| dlo] ++ leBytes 1 c.val)
    else bytes ([0x40 ||| dhi, 0xC0 ||| op_ ||| dlo] ++ leBytes 1 c.val)
  else errorf "sign-extended constant overflows 8-bit destination"

def op2ConstReg16 (op : Op2) (c : Const) (dst : Reg) : Emit Unit := do
  let op_ ← op2val op
  let (dlo, dhi) ← lohi dst
  let modrm := 0xC0 ||| op_ ||| dlo
  if Fits 1 c.val then
    if dhi = 0 then bytes ([0x66, 0x83, modrm] ++ leBytes 1 c.val)
    else bytes ([0x66, 0x40 ||| dhi, 0x83, modrm] ++ leBytes 1 c.val)
  else if Fits 2 c.val then
    if dst.id = rax then bytes ([0x66, 0x05 ||| op_] ++ leBytes 2 c.val)
    else if dhi = 0 then bytes ([0x66, 0x81, modrm] ++ leBytes 2 c.val)
    else bytes ([0x66, 0x40 ||| dhi, 0x81, modrm] ++ leBytes 2 c.val)
  else errorf "sign-extended constant overflows 16-bit destination"

def op2ConstReg32 (op : Op2) (c : Const) (dst : Reg) : Emit Unit := do
  let op_ ← op2val op
  let (dlo, dhi) ← lohi dst
  let modrm := 0xC0 ||| op_ ||| dlo
  if Fits 1 c.val then
    if dhi = 0 then bytes ([0x83, modrm] ++ leBytes 1 c.val)
    else bytes ([0x40 ||| dhi, 0x83, modrm] ++ leBytes 1 c.val)
  else if Fits 4 c.val then
    if dst.id = rax then bytes ([0x05 ||| op_] ++ leBytes 4 c.val)
    else if dhi = 0 then bytes ([0x81, modrm] ++ leBytes 4 c.val)
    else bytes ([0x40 ||| dhi, 0x81, modrm] ++ leBytes 4 c.val)
  else errorf "sign-extended constant overflows 32-bit destination"

def op2ConstReg64 (op : Op2) (c : Const) (dst : Reg) : Emit Unit := do
  let op_ ← op2val op
  let (dlo, dhi) ← lohi dst
  if Fits 1 c.val then
    bytes ([0x48 ||| dhi, 0x83, 0xC0 ||| op_ ||| dlo] ++ leBytes 1 c.val)
  else if Fits 4 c.val then
    if dst.id = rax then bytes ([0x48 ||| dhi, 0x05 ||| op_] ++ leBytes 4 c.val)
    else bytes ([0x48 ||| dhi, 0x81, 0xC0 ||| op_ ||| dlo] ++ leBytes 4 c.val)
  else do
    let r ← regAlloc c.kind
    movConstReg64 c r
    op2RegReg enc op r dst
    regFree r

def op2ConstReg (op : Op2) (c : Const) (dst : Reg) : Emit Unit :=
  if op = .mov then movConstReg c dst
  else if Op2.isOther op then enc.op2 op (.const c) (.reg dst)
  else do
    assert (op ≠ .lea2)
    match dst.kind.size with
    | 1 => op2ConstReg8 op c dst
    | 2 => op2ConstReg16 op c dst
    | 4 => op2ConstReg32 op c dst
    | 8 => op2ConstReg64 enc op c dst
    | _ => pure ()

def op2ConstMem (op : Op2) (c : Const) (m : Mem) : Emit Unit :=
  if op = .mov then movConstMem op2 c m
  else if Op2.isOther op then enc.op2 op (.const c) (.mem m)
  else do
    assert (op ≠ .lea2)
    let op_ ← op2val op
    let (dlo, dhi) ← lohiId m.reg.id
    let (len, offbit) := offlen m m.reg.id
    let tail := quirk24 m.reg.id ++ offset len m
    let modrm := offbit ||| op_ ||| dlo
    let short := decide (Fits 1 c.val)
    let opcode : Byte := if short then 0x83 else 0x81
    let long := if dhi = 0 then [opcode, modrm] else [0x40 ||| dhi, opcode, modrm]
    let value (n : Nat) := if short then leBytes 1 c.val else leBytes n c.val
    match m.reg.kind.size with
    | 1 =>
      let head := if dhi = 0 then [0x80, modrm] else [0x40 ||| dhi, 0x80, modrm]
      bytes (head ++ tail ++ leBytes 1 c.val)
    | 2 => bytes ([0x66] ++ long ++ tail ++ value 2)
    | 4 => bytes (long ++ tail ++ value 4)
    | 8 =>
      if Fits 4 c.val then bytes ([0x48 ||| dhi, opcode, modrm] ++ tail ++ value 4)
      else do
        let r ← regAlloc c.kind
        movConstReg64 c r
        op2RegMem enc op r m
        regFree r
    | _ => bytes (tail ++ value 4)

/-! ## All shapes -/

/-- The instruction for the types of the arguments. -/
def op2Args (op : Op2) (src dst : Arg) : Emit Unit :=
  match dst, src with
  | .reg dst, .reg src => op2RegReg enc op src dst
  | .reg dst, .mem src => op2MemReg enc op src dst
  | .reg dst, .const c => op2ConstReg enc op c dst
  | .mem dst, .reg src => op2RegMem enc op src dst
  | .mem dst, .mem src => op2MemMem enc op src dst
  | .mem dst, .const c => op2ConstMem enc op2 op c dst
  | .const _, _ => pure ()

/-- What `Optimize2` asks the assembler for. -/
def instr : Instr → Emit Unit
  | .op1 op dst => op1 enc op2 op dst
  | .op2 op src dst => op2 op src dst

/-- `Op1(op)` of a copy. -/
def unary (op : Op1) (src dst : Arg) : Emit Unit :=
  if src = dst then op1 enc op2 op dst
  else do
    op2 .mov src dst
    op1 enc op2 op dst

/-- `AND_NOT2`, which has no instruction. -/
def andNot2 (src dst : Arg) : Emit Unit :=
  match src with
  | .const c => op2Args enc op2 .and2 (.const ⟨~~~c.val, c.kind⟩) dst
  | src => do
    let r ← regAlloc src.kind
    op2 .mov src (.reg r)
    op1 enc op2 .neg1 (.reg r)
    op2 .and2 (.reg r) dst
    regFree r

/-- The check of the kinds. -/
def kindsOk (op : Op2) (src dst : Arg) : Bool :=
  match op with
  | .mov | .cast => src.kind.size = dst.kind.size
  | .shl2 | .shr2 => !src.kind.signed
  | _ => src.kind = dst.kind

/-- `op2` from the check of the kinds on. -/
def op2Checked (op : Op2) (src dst : Arg) : Emit Unit := do
  assert (kindsOk op src dst)
  if dst.isConst then errorf "destination cannot be a constant"
  else
    match optimize2 op src dst with
    | .error msg => errorf msg
    | .ok (some is) => is.forM (instr enc op2)
    | .ok none =>
      match op with
      | .div2 | .rem2 => enc.op2 op src dst
      | .neg2 => unary enc op2 .neg1 src dst
      | .not2 => unary enc op2 .not1 src dst
      | .andNot2 => andNot2 enc op2 src dst
      | op => op2Args enc op2 op src dst

/-- The body of `op2`. -/
def op2Body (op : Op2) (src dst : Arg) : Emit Unit :=
  if op = .cast then
    if src.kind.size ≠ dst.kind.size then enc.op2 op src dst else op2Checked enc op2 .mov src dst
  else op2Checked enc op2 op src dst

end Encoders

/-- `op2`, which calls itself at most as often as the fuel says. -/
def op2 (enc : Encoders) : Nat → Op2 → Arg → Arg → Emit Unit
  | 0 => fun _ _ _ => throw .outOfFuel
  | fuel + 1 => op2Body enc (op2 enc fuel)

end OneJit.GoJit.Amd64
