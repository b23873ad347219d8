import OneJit.Lib.X86
import Mathlib.Logic.Function.Basic
import Mathlib.Tactic.SplitIfs

/-!
# Integer instructions of x86-64

Moves, arithmetic and bitwise operations on registers, memory and immediates: what their bytes are
and what the processor does with them. The flags are left out, and so are the instructions that read
them.
-/

namespace X86

/-! ## The state of the processor -/

structure Cpu where
  regs : BitVec 4 → BitVec 64
  mem : BitVec 64 → Byte

/-- The number in some bytes, the low byte first. -/
def Cpu.load (c : Cpu) (a : BitVec 64) : (n : Nat) → BitVec (8 * n)
  | 0 => 0
  | n + 1 => c.load (a + 1) n ++ c.mem a

/-- The bytes of a number, from an address on. -/
def Cpu.store (c : Cpu) (a : BitVec 64) (n : Nat) (v : BitVec (8 * n)) : Cpu :=
  { c with mem := fun x => if (x - a).toNat < n then v.extractLsb' (8 * (x - a).toNat) 8
                           else c.mem x }

/-- Where an operand is: a register, the second byte of one of the first four registers, or memory. -/
inductive Loc
  | gpr (r : BitVec 4)
  | high (r : BitVec 4)
  | mem (a : Address)
  deriving DecidableEq, Repr

/-- The address of a memory operand, if it does not depend on the instruction pointer. -/
def Cpu.address (c : Cpu) (a : Address) : Option (BitVec 64) :=
  let index := match a.index with
    | none => 0
    | some (r, scale) => c.regs r * BitVec.ofNat 64 scale
  match a.base with
  | .absent => some (index + a.disp.signExtend 64)
  | .rip => none
  | .gpr r => some (c.regs r + index + a.disp.signExtend 64)

/-- What an operand of some bytes holds. -/
def Cpu.read (c : Cpu) (n : Nat) : Loc → Option (BitVec (8 * n))
  | .gpr r => some ((c.regs r).setWidth (8 * n))
  | .high r => some ((c.regs r >>> 8).setWidth (8 * n))
  | .mem a => (c.address a).map fun a => c.load a n

/-- A register after a write to its low bytes. A write of four bytes clears the upper half, and one of
fewer bytes leaves the rest. -/
def merge (n : Nat) (old : BitVec 64) (v : BitVec (8 * n)) : BitVec 64 :=
  if 4 ≤ n then v.setWidth 64 else (old >>> (8 * n)) <<< (8 * n) ||| v.setWidth 64

/-- A write to an operand. -/
def Cpu.write (c : Cpu) (n : Nat) (v : BitVec (8 * n)) : Loc → Option Cpu
  | .gpr r => some { c with regs := Function.update c.regs r (merge n (c.regs r) v) }
  | .high r =>
    let low := c.regs r &&& ~~~0xFF00#64
    some { c with regs := Function.update c.regs r (low ||| (v.setWidth 8).setWidth 64 <<< 8) }
  | .mem a => (c.address a).map fun a => c.store a n v

theorem setWidth_merge {n : Nat} (hn : n ≤ 8) (old : BitVec 64) (v : BitVec (8 * n)) :
    (merge n old v).setWidth (8 * n) = v := by
  unfold merge
  split_ifs
  · rw [BitVec.setWidth_setWidth_of_le _ (by omega), BitVec.setWidth_eq]
  · apply BitVec.eq_of_getLsbD_eq
    intro i hi
    simp [hi, show i < 64 by omega]

/-! ## Instructions -/

/-- What is done. Arithmetic and bitwise operations have the number that is in their opcodes. -/
inductive Operation
  | alu (op : BitVec 3)
  | mov
  | not
  | neg
  | inc
  | dec
  deriving DecidableEq, Repr

inductive Source
  | loc (l : Loc)
  | imm (v : BitVec 64)
  deriving DecidableEq, Repr

/-- An operation on some bytes. A unary one has its destination as source. -/
structure Instruction where
  size : Nat
  op : Operation
  dst : Loc
  src : Source
  deriving DecidableEq, Repr

/-- What an operation gives, except for those with a carry and for comparisons. -/
def Operation.value (op : Operation) {w : Nat} (d s : BitVec w) : Option (BitVec w) :=
  match op with
  | alu 0 => some (d + s)
  | alu 1 => some (d ||| s)
  | alu 4 => some (d &&& s)
  | alu 5 => some (d - s)
  | alu 6 => some (d ^^^ s)
  | alu _ => none
  | mov => some s
  | not => some (~~~d)
  | neg => some (-d)
  | inc => some (d + 1)
  | dec => some (d - 1)

/-- What a source holds. -/
def Cpu.source (c : Cpu) (n : Nat) : Source → Option (BitVec (8 * n))
  | .loc l => c.read n l
  | .imm v => some (v.setWidth (8 * n))

/-- The effect of an instruction. -/
def Instruction.exec (i : Instruction) (c : Cpu) : Option Cpu :=
  (c.read i.size i.dst).bind fun d =>
    (c.source i.size i.src).bind fun s =>
      (i.op.value d s).bind fun v => c.write i.size v i.dst

/-- An instruction: one of the above, or one whose operands have sizes or places of their own. A
shift without a count takes it from the second register, and a multiplication without a factor
multiplies its destination. -/
inductive Insn
  | basic (i : Instruction)
  | shift (size : Nat) (op : BitVec 3) (dst : Loc) (count : Option Byte)
  | imul (size : Nat) (dst : BitVec 4) (src : Loc) (factor : Option (BitVec 64))
  | movx (signed : Bool) (size srcSize : Nat) (dst : BitVec 4) (src : Loc)
  | lea (size : Nat) (dst : BitVec 4) (a : Address)
  | signFill (size : Nat)
  | idiv (size : Nat) (divisor : Loc)
  deriving DecidableEq, Repr

/-- A shift: to the left, logical to the right, arithmetic to the right. -/
def shiftValue (op : BitVec 3) {w : Nat} (x : BitVec w) (count : Nat) : Option (BitVec w) :=
  match op with
  | 4 => some (x <<< count)
  | 5 => some (x >>> count)
  | 7 => some (x.sshiftRight count)
  | _ => none

/-- The processor uses five bits of a count, or six for operands of eight bytes. -/
def shiftCount (size : Nat) (count : Byte) : Nat := count.toNat % (if size = 8 then 64 else 32)

/-- The effect of an instruction; none if it traps. -/
def Insn.exec (c : Cpu) : Insn → Option Cpu
  | basic i => i.exec c
  | shift size op dst count => (c.read size dst).bind fun x =>
      let count := count.getD ((c.regs 1).setWidth 8)
      (shiftValue op x (shiftCount size count)).bind fun v => c.write size v dst
  | imul size dst src factor => (c.read size src).bind fun x =>
      let y := match factor with
        | some f => f.setWidth (8 * size)
        | none => (c.regs dst).setWidth (8 * size)
      c.write size (x * y) (.gpr dst)
  | movx signed size srcSize dst src => (c.read srcSize src).bind fun x =>
      c.write size (if signed then x.signExtend (8 * size) else x.setWidth (8 * size)) (.gpr dst)
  | lea size dst a => (c.address a).bind fun a => c.write size (a.setWidth (8 * size)) (.gpr dst)
  | signFill size =>
      let x := (c.regs 0).setWidth (8 * size)
      c.write size (if x.msb then BitVec.allOnes (8 * size) else 0) (.gpr 2)
  | idiv size divisor => (c.read size divisor).bind fun y =>
      let x := ((c.regs 2).setWidth (8 * size) ++ (c.regs 0).setWidth (8 * size)).toInt
      let q := x.tdiv y.toInt
      if y = 0 ∨ ¬(-2 ^ (8 * size - 1) ≤ q ∧ q < 2 ^ (8 * size - 1)) then none
      else (c.write size (BitVec.ofInt (8 * size) q) (.gpr 0)).bind fun c =>
        c.write size (BitVec.ofInt (8 * size) (x.tmod y.toInt)) (.gpr 2)

/-! ## Decoding -/

/-- The number of bytes of an operand that is not a byte. -/
def width (operandSize : Bool) (rex : Rex) : Nat := if rex.w then 8 else if operandSize then 2 else 4

/-- A register operand. Without a REX prefix the byte registers 4 to 7 are the second bytes of the
first four. -/
def regLoc (n : Nat) (hasRex : Bool) (r : BitVec 4) : Loc :=
  if n = 1 ∧ hasRex = false ∧ 4 ≤ r ∧ r < 8 then .high (r - 4) else .gpr r

/-- The operands that a ModRM byte names: the `reg` field, and a register or memory. -/
def rmOperand (n : Nat) (hasRex : Bool) (rex : Rex) (bytes : List Byte) :
    Option (BitVec 3 × Loc × List Byte) :=
  match bytes with
  | [] => none
  | modrm :: rest =>
    if topField modrm = 3 then
      some (midField modrm, regLoc n hasRex (extend rex.b (lowField modrm)), rest)
    else (memOperand rex (modrm :: rest)).map fun (r, a, rest) => (r, .mem a, rest)

/-- A little-endian number of some bytes. -/
def takeLe : (n : Nat) → List Byte → Option (BitVec (8 * n) × List Byte)
  | 0, bytes => some (0, bytes)
  | _ + 1, [] => none
  | n + 1, b :: bytes => (takeLe n bytes).map fun (v, rest) => (v ++ b, rest)

/-- An immediate of some bytes, sign-extended. -/
def takeInt (n : Nat) (bytes : List Byte) : Option (BitVec 64 × List Byte) :=
  (takeLe n bytes).map fun (v, rest) => (v.signExtend 64, rest)

/-- What the opcodes of one byte do with which operands. The operation of a group is in the `reg`
field of ModRM. -/
inductive Form
  | rmReg (op : Operation)
  | regRm (op : Operation)
  | accImm (op : BitVec 3)
  | rmImm
  | rmImm8
  | movReg8 (r : BitVec 3)
  | movReg (r : BitVec 3)
  | movRm
  | group3
  | group45
  | shiftImm
  | shiftOne
  | shiftCl
  | imulImm8
  | movsxd
  | lea
  | signFill
  deriving DecidableEq, Repr

/-- The form of an opcode, from its place in the map of opcodes. -/
def form (opcode : Byte) : Option Form :=
  let k := midField opcode
  let low := lowField opcode
  match topField opcode with
  | 0 =>
    if low = 0 ∨ low = 1 then some (.rmReg (.alu k))
    else if low = 2 ∨ low = 3 then some (.regRm (.alu k))
    else if low = 4 ∨ low = 5 then some (.accImm k)
    else none
  | 1 =>
    if k = 4 ∧ low = 3 then some .movsxd
    else if k = 5 ∧ low = 3 then some .imulImm8
    else none
  | 2 =>
    if k = 0 ∧ (low = 0 ∨ low = 1) then some .rmImm
    else if k = 0 ∧ low = 3 then some .rmImm8
    else if k = 1 ∧ (low = 0 ∨ low = 1) then some (.rmReg .mov)
    else if k = 1 ∧ (low = 2 ∨ low = 3) then some (.regRm .mov)
    else if k = 1 ∧ low = 5 then some .lea
    else if k = 3 ∧ low = 1 then some .signFill
    else if k = 6 then some (.movReg8 low)
    else if k = 7 then some (.movReg low)
    else none
  | 3 =>
    if k = 0 ∧ (low = 6 ∨ low = 7) then some .movRm
    else if k = 0 ∧ (low = 0 ∨ low = 1) then some .shiftImm
    else if k = 2 ∧ (low = 0 ∨ low = 1) then some .shiftOne
    else if k = 2 ∧ (low = 2 ∨ low = 3) then some .shiftCl
    else if k = 6 ∧ (low = 6 ∨ low = 7) then some .group3
    else if k = 7 ∧ (low = 6 ∨ low = 7) then some .group45
    else none
  | _ => none

/-- The number of bytes of the operands of an opcode: its low bit is clear for bytes. -/
def opcodeSize (operandSize : Bool) (rex : Rex) (opcode : Byte) : Nat :=
  if opcode.getLsbD 0 then width operandSize rex else 1

/-- The unary operations. -/
def groupOp : Form → BitVec 3 → Option Operation
  | .group3, 2 => some .not
  | .group3, 3 => some .neg
  | .group45, 0 => some .inc
  | .group45, 1 => some .dec
  | _, _ => none

/-- The instruction behind an opcode. -/
def decodeOpcode (operandSize hasRex : Bool) (rex : Rex) (opcode : Byte) (bytes : List Byte) :
    Option (Insn × List Byte) :=
  let n := opcodeSize operandSize rex opcode
  let wide := width operandSize rex
  let reg := fun r => regLoc n hasRex (extend rex.r r)
  match form opcode with
  | none => none
  | some (.rmReg op) => (rmOperand n hasRex rex bytes).map fun (r, l, rest) =>
      (.basic ⟨n, op, l, .loc (reg r)⟩, rest)
  | some (.regRm op) => (rmOperand n hasRex rex bytes).map fun (r, l, rest) =>
      (.basic ⟨n, op, reg r, .loc l⟩, rest)
  | some (.accImm op) => (takeInt (min n 4) bytes).map fun (v, rest) =>
      (.basic ⟨n, .alu op, .gpr 0, .imm v⟩, rest)
  | some .rmImm => (rmOperand n hasRex rex bytes).bind fun (op, l, rest) =>
      (takeInt (min n 4) rest).map fun (v, rest) => (.basic ⟨n, .alu op, l, .imm v⟩, rest)
  | some .rmImm8 => (rmOperand n hasRex rex bytes).bind fun (op, l, rest) =>
      (takeInt 1 rest).map fun (v, rest) => (.basic ⟨n, .alu op, l, .imm v⟩, rest)
  | some (.movReg8 r) => (takeInt 1 bytes).map fun (v, rest) =>
      (.basic ⟨1, .mov, regLoc 1 hasRex (extend rex.b r), .imm v⟩, rest)
  | some (.movReg r) => (takeInt wide bytes).map fun (v, rest) =>
      (.basic ⟨wide, .mov, .gpr (extend rex.b r), .imm v⟩, rest)
  | some .movRm => (rmOperand n hasRex rex bytes).bind fun (op, l, rest) =>
      if op = 0 then
        (takeInt (min n 4) rest).map fun (v, rest) => (.basic ⟨n, .mov, l, .imm v⟩, rest)
      else none
  | some .group3 => (rmOperand n hasRex rex bytes).bind fun (op, l, rest) =>
      if op = 7 ∧ n ≠ 1 then some (.idiv n l, rest)
      else (groupOp .group3 op).map fun op => (.basic ⟨n, op, l, .loc l⟩, rest)
  | some .group45 => (rmOperand n hasRex rex bytes).bind fun (op, l, rest) =>
      (groupOp .group45 op).map fun op => (.basic ⟨n, op, l, .loc l⟩, rest)
  | some .shiftImm => (rmOperand n hasRex rex bytes).bind fun (op, l, rest) =>
      match rest with
      | [] => none
      | count :: rest => some (.shift n op l (some count), rest)
  | some .shiftOne => (rmOperand n hasRex rex bytes).map fun (op, l, rest) =>
      (.shift n op l (some 1), rest)
  | some .shiftCl => (rmOperand n hasRex rex bytes).map fun (op, l, rest) =>
      (.shift n op l none, rest)
  | some .imulImm8 => (rmOperand wide hasRex rex bytes).bind fun (r, l, rest) =>
      (takeInt 1 rest).map fun (v, rest) => (.imul wide (extend rex.r r) l (some v), rest)
  | some .movsxd => (rmOperand 4 hasRex rex bytes).map fun (r, l, rest) =>
      (.movx true wide 4 (extend rex.r r) l, rest)
  | some .lea => (memOperand rex bytes).map fun (r, a, rest) =>
      (.lea wide (extend rex.r r) a, rest)
  | some .signFill => some (.signFill wide, bytes)

/-- The instruction behind an opcode that follows `0F`. -/
def decodeOpcode2 (operandSize hasRex : Bool) (rex : Rex) (opcode : Byte) (bytes : List Byte) :
    Option (Insn × List Byte) :=
  let wide := width operandSize rex
  if opcode = 0xAF then (rmOperand wide hasRex rex bytes).map fun (r, l, rest) =>
    (.imul wide (extend rex.r r) l none, rest)
  else if opcode.extractLsb' 4 4 = 0xB ∧ opcode.extractLsb' 1 2 = 3 then
    let srcSize := if opcode.getLsbD 0 then 2 else 1
    (rmOperand srcSize hasRex rex bytes).map fun (r, l, rest) =>
      (.movx (opcode.getLsbD 3) wide srcSize (extend rex.r r) l, rest)
  else none

/-- The instruction that the bytes start with, and the bytes after it. -/
def decode (bytes : List Byte) : Option (Insn × List Byte) :=
  let (operandSize, bytes) := takeOperandSize bytes
  let (rex, rest) := takeRex bytes
  let hasRex := decide (rest.length < bytes.length)
  match rest with
  | [] => none
  | first :: rest' =>
    if first = 0x0F then
      match rest' with
      | [] => none
      | second :: rest'' => decodeOpcode2 operandSize hasRex rex second rest''
    else decodeOpcode operandSize hasRex rex first rest'

/-- Runs of the instructions in some bytes. -/
inductive Runs : List Byte → Cpu → Cpu → Prop
  | nil (c : Cpu) : Runs [] c c
  | step {bytes rest : List Byte} {i : Insn} {c c' c'' : Cpu}
    (hdecode : decode bytes = some (i, rest)) (hexec : i.exec c = some c')
    (h : Runs rest c' c'') : Runs bytes c c''

/-! ## The bytes of operands -/

/-- The low bytes of a number, little-endian. -/
def leBytes : Nat → BitVec 64 → List Byte
  | 0, _ => []
  | n + 1, v => v.setWidth 8 :: leBytes n (v >>> 8)

theorem takeLe_leBytes (n : Nat) (v : BitVec 64) (rest : List Byte) :
    takeLe n (leBytes n v ++ rest) = some (v.setWidth (8 * n), rest) := by
  induction n generalizing v with
  | zero => exact congrArg (fun x => some (x, rest)) (@Subsingleton.elim (BitVec 0) _ _ _)
  | succ n ih =>
    have hjoin : ((v >>> 8).setWidth (8 * n) ++ v.setWidth 8 : BitVec (8 * n + 8)) =
        v.setWidth (8 * n + 8) := by
      apply BitVec.eq_of_getLsbD_eq
      intro i hi
      rw [BitVec.getLsbD_append]
      by_cases hlow : i < 8
      · simp [hlow]
        omega
      · simp [hlow, show i - 8 < 8 * n by omega, show 8 + (i - 8) = i by omega]
        omega
    rw [leBytes, List.cons_append, takeLe, ih]
    exact congrArg (fun x => some (x, rest)) hjoin

theorem takeInt_leBytes (n : Nat) (v : BitVec 64) (rest : List Byte) :
    takeInt n (leBytes n v ++ rest) = some ((v.setWidth (8 * n)).signExtend 64, rest) := by
  rw [takeInt, takeLe_leBytes]
  rfl

/-- The low three bits of the number of a register. -/
def lowBits (r : BitVec 4) : BitVec 3 := r.extractLsb' 0 3

/-- The bit that a REX prefix adds to them. -/
def highBit (r : BitVec 4) : Bool := r.getLsbD 3

@[simp] theorem extend_bits (r : BitVec 4) : extend (highBit r) (lowBits r) = r := by
  decide +revert

/-- The ModRM byte of a memory operand, with the SIB byte if the base needs one. -/
def baseBytes (m : BitVec 2) (r : BitVec 3) (base : BitVec 4) : List Byte :=
  fields m r (lowBits base) :: if lowBits base = 4 then [0x24] else []

section Operands

variable {rex : Rex} {m : BitVec 2} {r : BitVec 3} {base : BitVec 4} {d : BitVec 32}
  {bytes rest : List Byte}

theorem memOperand_baseBytes (hx : rex.x = false) (hb : rex.b = highBit base) (hm : m ≠ 3)
    (h5 : ¬(lowBits base = 5 ∧ m = 0)) (hd : takeDisp m bytes = some (d, rest)) :
    memOperand rex (baseBytes m r base ++ bytes) = some (r, ⟨.gpr base, none, d⟩, rest) := by
  unfold baseBytes
  split_ifs with h4
  · have hlow : lowField 0x24 = lowBits base := by
      rw [h4]
      decide
    have hindex : sibIndex rex 0x24 = none := by
      rw [sibIndex, hx]
      decide
    rw [h4]
    change memOperand rex (fields m r 4 :: 0x24 :: bytes) = _
    rw [memOperand_sib rex r 0x24 hm (by rwa [hlow]) hd, hlow, hb, extend_bits, hindex]
  · change memOperand rex (fields m r (lowBits base) :: bytes) = _
    rw [memOperand_base rex r hm h4 h5 hd, hb, extend_bits]

theorem rmOperand_baseBytes (n : Nat) (hasRex : Bool) (hx : rex.x = false)
    (hb : rex.b = highBit base) (hm : m ≠ 3) (h5 : ¬(lowBits base = 5 ∧ m = 0))
    (hd : takeDisp m bytes = some (d, rest)) :
    rmOperand n hasRex rex (baseBytes m r base ++ bytes) =
      some (r, .mem ⟨.gpr base, none, d⟩, rest) := by
  have hmem := @memOperand_baseBytes rex m r base d bytes rest hx hb hm h5 hd
  unfold baseBytes at hmem ⊢
  rw [List.cons_append] at hmem ⊢
  rw [rmOperand, topField_fields, if_neg hm, hmem]
  rfl

theorem rmOperand_reg (n : Nat) (hasRex : Bool) (hb : rex.b = highBit base) :
    rmOperand n hasRex rex (fields 3 r (lowBits base) :: rest) =
      some (r, regLoc n hasRex base, rest) := by
  rw [rmOperand, topField_fields, if_pos rfl, midField_fields, lowField_fields, hb, extend_bits]

theorem takeDisp_nil (h : takeDisp m [] = some (d, rest)) : rest = [] := by
  have hcases : ∀ m : BitVec 2, m = 0 ∨ m = 1 ∨ m = 2 ∨ m = 3 := by decide
  rcases hcases m with rfl | rfl | rfl | rfl <;> cases h
  rfl

theorem modrmAddress_nil {x : Byte} {a : Address} (h : modrmAddress rex x [] = some (a, rest)) :
    rest = [] := by
  have hdisp : ∀ {m : BitVec 2} {f : BitVec 32 → Address},
      ((takeDisp m []).bind fun p => some (f p.1, p.2)) = some (a, rest) → rest = [] := by
    intro m f hbind
    obtain ⟨⟨d, rest'⟩, htake, heq⟩ := Option.bind_eq_some_iff.mp hbind
    cases heq
    exact takeDisp_nil htake
  unfold modrmAddress at h
  split_ifs at h
  · cases h
  · exact hdisp h
  · exact hdisp h

/-- A ModRM byte at the end of the code. -/
theorem rmOperand_singleton {n : Nat} {hasRex : Bool} {x : Byte} {l : Loc}
    (h : rmOperand n hasRex rex [x] = some (r, l, rest)) : r = midField x ∧ rest = [] := by
  rw [rmOperand] at h
  split_ifs at h
  · cases h
    exact ⟨rfl, rfl⟩
  · obtain ⟨⟨r', a, rest'⟩, hmem, heq⟩ := Option.map_eq_some_iff.mp h
    cases heq
    obtain ⟨⟨a', rest''⟩, haddr, heq⟩ := Option.bind_eq_some_iff.mp hmem
    cases heq
    exact ⟨rfl, modrmAddress_nil haddr⟩

end Operands

/-! ## What decoding gives -/

theorem isOpcode_of_form {opcode : Byte} (h : (form opcode).isSome = true) : isOpcode [opcode] := by
  decide +revert

/-- The bytes are those of an instruction, whatever follows. -/
def Encodes (bytes : List Byte) (i : Insn) : Prop :=
  ∀ rest, decode (bytes ++ rest) = some (i, rest)

/-- Prefixes and opcode are read back. -/
theorem decode_parts {rexBytes : List Byte} {rex : Rex} {opcode : Byte} (operandSize : Bool)
    (hrex : IsRexPrefix rexBytes rex) (hop : isOpcode [opcode]) (bytes : List Byte) :
    decode ((if operandSize then [0x66] else []) ++ (rexBytes ++ (opcode :: bytes))) =
      decodeOpcode operandSize (!rexBytes.isEmpty) rex opcode bytes := by
  have hsize := takeOperandSize_append hop hrex operandSize bytes
  have htake := takeRex_append hop hrex bytes
  simp only [List.singleton_append] at hsize htake
  have hlen : decide ((opcode :: bytes).length < (rexBytes ++ (opcode :: bytes)).length) =
      !rexBytes.isEmpty := by
    cases rexBytes with
    | nil => simp
    | cons b bs =>
      have hlt : (opcode :: bytes).length < (b :: bs ++ (opcode :: bytes)).length := by
        simp only [List.length_append, List.length_cons]
        omega
      rw [decide_eq_true hlt]
      rfl
  have hne : opcode ≠ 0x0F := by
    rintro rfl
    exact absurd hop (by decide)
  simp only [decode, hsize, htake, hlen, if_neg hne]

/-- An instruction with its prefixes. -/
def assemble (operandSize : Bool) (rexBytes : List Byte) (opcode : Byte) (bytes : List Byte) :
    List Byte :=
  (if operandSize then [0x66] else []) ++ (rexBytes ++ (opcode :: bytes))

theorem encodes_assemble {operandSize : Bool} {rexBytes bytes : List Byte} {rex : Rex}
    {opcode : Byte} {i : Insn} (hrex : IsRexPrefix rexBytes rex)
    (hform : (form opcode).isSome = true)
    (h : ∀ rest, decodeOpcode operandSize (!rexBytes.isEmpty) rex opcode (bytes ++ rest) =
      some (i, rest)) :
    Encodes (assemble operandSize rexBytes opcode bytes) i := by
  intro rest
  rw [assemble, List.append_assoc, List.append_assoc, List.cons_append,
    decode_parts operandSize hrex (isOpcode_of_form hform), h]

section Encodes

variable {n : Nat} {rexBytes bytes : List Byte} {rex : Rex} {opcode : Byte} {r : BitVec 3} {l : Loc}

/-- The number of bytes of an operand. -/
def IsSize (n : Nat) : Prop := n = 1 ∨ n = 2 ∨ n = 4 ∨ n = 8

/-- Prefixes and opcode for operands of some bytes. -/
structure Sized (n : Nat) (rexBytes : List Byte) (rex : Rex) (opcode : Byte) : Prop where
  size : IsSize n
  prefixed : IsRexPrefix rexBytes rex
  wide : rex.w = decide (n = 8)
  low : opcode.getLsbD 0 = decide (n ≠ 1)

theorem Sized.width_eq (h : Sized n rexBytes rex opcode) (hn : n ≠ 1) :
    width (decide (n = 2)) rex = n := by
  rw [width, h.wide]
  rcases h.size with rfl | rfl | rfl | rfl
  · exact absurd rfl hn
  · rfl
  · rfl
  · rfl

theorem Sized.opcodeSize_eq (h : Sized n rexBytes rex opcode) :
    opcodeSize (decide (n = 2)) rex opcode = n := by
  rw [opcodeSize, h.low]
  by_cases hn : n = 1
  · simp [hn]
  · simp [hn, h.width_eq hn]

variable (h : Sized n rexBytes rex opcode)
include h

theorem encodes_rmReg {op : Operation} (hform : form opcode = some (.rmReg op))
    (hrm : ∀ rest, rmOperand n (!rexBytes.isEmpty) rex (bytes ++ rest) = some (r, l, rest)) :
    Encodes (assemble (decide (n = 2)) rexBytes opcode bytes)
      (.basic ⟨n, op, l, .loc (regLoc n (!rexBytes.isEmpty) (extend rex.r r))⟩) := by
  apply encodes_assemble h.prefixed (by rw [hform]; rfl)
  intro rest
  simp only [decodeOpcode, hform, h.opcodeSize_eq, hrm, Option.map_some]

theorem encodes_regRm {op : Operation} (hform : form opcode = some (.regRm op))
    (hrm : ∀ rest, rmOperand n (!rexBytes.isEmpty) rex (bytes ++ rest) = some (r, l, rest)) :
    Encodes (assemble (decide (n = 2)) rexBytes opcode bytes)
      (.basic ⟨n, op, regLoc n (!rexBytes.isEmpty) (extend rex.r r), .loc l⟩) := by
  apply encodes_assemble h.prefixed (by rw [hform]; rfl)
  intro rest
  simp only [decodeOpcode, hform, h.opcodeSize_eq, hrm, Option.map_some]

theorem encodes_accImm {op : BitVec 3} (hform : form opcode = some (.accImm op)) (v : BitVec 64) :
    Encodes (assemble (decide (n = 2)) rexBytes opcode (leBytes (min n 4) v))
      (.basic ⟨n, .alu op, .gpr 0, .imm ((v.setWidth (8 * min n 4)).signExtend 64)⟩) := by
  apply encodes_assemble h.prefixed (by rw [hform]; rfl)
  intro rest
  simp only [decodeOpcode, hform, h.opcodeSize_eq, takeInt_leBytes, Option.map_some]

theorem encodes_rmImm (hform : form opcode = some .rmImm) (v : BitVec 64)
    (hrm : ∀ rest, rmOperand n (!rexBytes.isEmpty) rex (bytes ++ rest) = some (r, l, rest)) :
    Encodes (assemble (decide (n = 2)) rexBytes opcode (bytes ++ leBytes (min n 4) v))
      (.basic ⟨n, .alu r, l, .imm ((v.setWidth (8 * min n 4)).signExtend 64)⟩) := by
  apply encodes_assemble h.prefixed (by rw [hform]; rfl)
  intro rest
  simp only [decodeOpcode, hform, h.opcodeSize_eq, List.append_assoc, hrm, Option.bind_some,
    takeInt_leBytes, Option.map_some]

theorem encodes_rmImm8 (hform : form opcode = some .rmImm8) (v : BitVec 64)
    (hrm : ∀ rest, rmOperand n (!rexBytes.isEmpty) rex (bytes ++ rest) = some (r, l, rest)) :
    Encodes (assemble (decide (n = 2)) rexBytes opcode (bytes ++ leBytes 1 v))
      (.basic ⟨n, .alu r, l, .imm ((v.setWidth (8 * 1)).signExtend 64)⟩) := by
  apply encodes_assemble h.prefixed (by rw [hform]; rfl)
  intro rest
  simp only [decodeOpcode, hform, h.opcodeSize_eq, List.append_assoc, hrm, Option.bind_some,
    takeInt_leBytes, Option.map_some]

theorem encodes_movRm (hform : form opcode = some .movRm) (v : BitVec 64)
    (hrm : ∀ rest, rmOperand n (!rexBytes.isEmpty) rex (bytes ++ rest) = some (0, l, rest)) :
    Encodes (assemble (decide (n = 2)) rexBytes opcode (bytes ++ leBytes (min n 4) v))
      (.basic ⟨n, .mov, l, .imm ((v.setWidth (8 * min n 4)).signExtend 64)⟩) := by
  apply encodes_assemble h.prefixed (by rw [hform]; rfl)
  intro rest
  simp only [decodeOpcode, hform, h.opcodeSize_eq, List.append_assoc, hrm, Option.bind_some,
    takeInt_leBytes, Option.map_some, if_true]

theorem encodes_group {f : Form} {op : Operation} (hform : form opcode = some f)
    (hop : groupOp f r = some op)
    (hrm : ∀ rest, rmOperand n (!rexBytes.isEmpty) rex (bytes ++ rest) = some (r, l, rest)) :
    Encodes (assemble (decide (n = 2)) rexBytes opcode bytes) (.basic ⟨n, op, l, .loc l⟩) := by
  apply encodes_assemble h.prefixed (by rw [hform]; rfl)
  intro rest
  cases f with
  | group3 =>
    have hne : ¬(r = 7 ∧ n ≠ 1) := by
      rintro ⟨rfl, -⟩
      simp [groupOp] at hop
    simp only [decodeOpcode, hform, h.opcodeSize_eq, hrm, Option.bind_some, if_neg hne, hop,
      Option.map_some]
  | group45 =>
    simp only [decodeOpcode, hform, h.opcodeSize_eq, hrm, Option.bind_some, hop, Option.map_some]
  | _ => simp [groupOp] at hop

theorem encodes_shiftImm (hform : form opcode = some .shiftImm) (count : Byte)
    (hrm : ∀ rest, rmOperand n (!rexBytes.isEmpty) rex (bytes ++ rest) = some (r, l, rest)) :
    Encodes (assemble (decide (n = 2)) rexBytes opcode (bytes ++ [count]))
      (.shift n r l (some count)) := by
  apply encodes_assemble h.prefixed (by rw [hform]; rfl)
  intro rest
  simp only [decodeOpcode, hform, h.opcodeSize_eq, List.append_assoc, hrm, Option.bind_some,
    List.singleton_append]

theorem encodes_shiftOne (hform : form opcode = some .shiftOne)
    (hrm : ∀ rest, rmOperand n (!rexBytes.isEmpty) rex (bytes ++ rest) = some (r, l, rest)) :
    Encodes (assemble (decide (n = 2)) rexBytes opcode bytes) (.shift n r l (some 1)) := by
  apply encodes_assemble h.prefixed (by rw [hform]; rfl)
  intro rest
  simp only [decodeOpcode, hform, h.opcodeSize_eq, hrm, Option.map_some]

theorem encodes_shiftCl (hform : form opcode = some .shiftCl)
    (hrm : ∀ rest, rmOperand n (!rexBytes.isEmpty) rex (bytes ++ rest) = some (r, l, rest)) :
    Encodes (assemble (decide (n = 2)) rexBytes opcode bytes) (.shift n r l none) := by
  apply encodes_assemble h.prefixed (by rw [hform]; rfl)
  intro rest
  simp only [decodeOpcode, hform, h.opcodeSize_eq, hrm, Option.map_some]

end Encodes

theorem encodes_movReg8 {rexBytes : List Byte} {rex : Rex} {opcode : Byte} {r : BitVec 3}
    (hrex : IsRexPrefix rexBytes rex) (hform : form opcode = some (.movReg8 r)) (v : BitVec 64) :
    Encodes (assemble false rexBytes opcode (leBytes 1 v))
      (.basic ⟨1, .mov, regLoc 1 (!rexBytes.isEmpty) (extend rex.b r),
        .imm ((v.setWidth (8 * 1)).signExtend 64)⟩) := by
  apply encodes_assemble hrex (by rw [hform]; rfl)
  intro rest
  simp only [decodeOpcode, hform, takeInt_leBytes, Option.map_some]

/-- `B8` with an immediate of the size of the operand. -/
theorem encodes_movReg {rexBytes : List Byte} {rex : Rex} {opcode : Byte} {r : BitVec 3}
    (operandSize : Bool) (hrex : IsRexPrefix rexBytes rex)
    (hform : form opcode = some (.movReg r)) (v : BitVec 64) :
    Encodes (assemble operandSize rexBytes opcode (leBytes (width operandSize rex) v))
      (.basic ⟨width operandSize rex, .mov, .gpr (extend rex.b r),
        .imm ((v.setWidth (8 * width operandSize rex)).signExtend 64)⟩) := by
  apply encodes_assemble hrex (by rw [hform]; rfl)
  intro rest
  simp only [decodeOpcode, hform, takeInt_leBytes, Option.map_some]

/-! ## Runs -/

theorem Runs.of_encodes {bytes rest : List Byte} {i : Insn} {c c' c'' : Cpu}
    (h : Encodes bytes i) (hexec : i.exec c = some c') (hrest : Runs rest c' c'') :
    Runs (bytes ++ rest) c c'' :=
  .step (h rest) hexec hrest

/-- The bytes do this to the state, whatever comes behind them. -/
def Leads (bytes : List Byte) (c c' : Cpu) : Prop :=
  ∀ rest c'', Runs rest c' c'' → Runs (bytes ++ rest) c c''

theorem Leads.nil (c : Cpu) : Leads [] c c := fun _ _ h => h

theorem Leads.of_encodes {bytes : List Byte} {i : Insn} {c c' : Cpu} (h : Encodes bytes i)
    (hexec : i.exec c = some c') : Leads bytes c c' :=
  fun _ _ hrest => Runs.of_encodes h hexec hrest

theorem Leads.append {bs bs' : List Byte} {c c' c'' : Cpu} (h : Leads bs c c')
    (h' : Leads bs' c' c'') : Leads (bs ++ bs') c c'' := by
  intro rest d hrest
  rw [List.append_assoc]
  exact h _ _ (h' _ _ hrest)

theorem Leads.runs {bytes : List Byte} {c c' : Cpu} (h : Leads bytes c c') : Runs bytes c c' := by
  have hrun := h [] c' (.nil c')
  rwa [List.append_nil] at hrun

theorem decode_nil : decode [] = none := rfl

/-- Bytes have one run. -/
theorem Runs.unique {bytes : List Byte} {c c₁ c₂ : Cpu} (h₁ : Runs bytes c c₁)
    (h₂ : Runs bytes c c₂) : c₁ = c₂ := by
  induction h₁ with
  | nil c =>
    cases h₂ with
    | nil => rfl
    | step hdecode => simp [decode_nil] at hdecode
  | step hdecode hexec _ ih =>
    cases h₂ with
    | nil => simp [decode_nil] at hdecode
    | step hdecode' hexec' hrest' =>
      rw [hdecode, Option.some.injEq, Prod.mk.injEq] at hdecode'
      obtain ⟨rfl, rfl⟩ := hdecode'
      rw [hexec, Option.some.injEq] at hexec'
      exact ih (hexec' ▸ hrest')

end X86
