import OneJit.Lib.FlatCode
import OneJit.Lib.Resize
import OneJit.Mir.AddressSum
import OneJit.Mir.CallAssign

/-!
# What MIR instructions do

A register has 64 bits. An instruction on integers of 32 bits reads the lower halves of its operands
and leaves the upper half of its result undefined, so a state comes with what is found there after
each instruction. Floating point instructions, calls and returns are not run.
-/

namespace OneJit.Mir

/-! ## Operators -/

/-- The operator on machine integers. A division by zero, one that overflows, and a shift by the
number of bits or more have no result. -/
def Arith.compute {w : Nat} (op : Arith) (a b : BitVec w) : Option (BitVec w) :=
  match op with
  | .add => some (a + b)
  | .sub => some (a - b)
  | .mul => some (a * b)
  | .div => if b = 0 ∨ a = BitVec.intMin w ∧ b = -1 then none else some (a.sdiv b)
  | .udiv => if b = 0 then none else some (a / b)
  | .mod => if b = 0 ∨ a = BitVec.intMin w ∧ b = -1 then none else some (a.srem b)
  | .umod => if b = 0 then none else some (a % b)
  | .and => some (a &&& b)
  | .or => some (a ||| b)
  | .xor => some (a ^^^ b)
  | .lsh => if b.toNat < w then some (a <<< b.toNat) else none
  | .rsh => if b.toNat < w then some (a.sshiftRight b.toNat) else none
  | .ursh => if b.toNat < w then some (a >>> b.toNat) else none

/-- The relation on machine integers. -/
def Relation.holds {w : Nat} (op : Relation) (a b : BitVec w) : Bool :=
  match op with
  | .lt => a.slt b
  | .ult => a.ult b
  | .le => a.sle b
  | .ule => a.ule b
  | .ne => a != b
  | .eq => a == b
  | .gt => b.slt a
  | .ugt => b.ult a
  | .ge => b.sle a
  | .uge => b.ule a

/-- The lower half of a register. -/
def low (a : BitVec 64) : BitVec 32 := a.setWidth 32

/-- An `OpStmt2` on the contents of a register. -/
def Op2.apply (upper : BitVec 32) (op : Op2) (a : BitVec 64) : Option (BitVec 64) :=
  match op with
  | .mov .l => some a
  | .neg .l => some (-a)
  | .neg .s => some (upper ++ -low a)
  | .ext signed bits => some (resize signed bits a)
  | _ => none

/-- An `OpStmt3` on the contents of two registers. -/
def Op3.apply (upper : BitVec 32) (op : Op3) (a b : BitVec 64) : Option (BitVec 64) :=
  match op with
  | .arith op .l => op.compute a b
  | .arith op .s => (op.compute (low a) (low b)).map (upper ++ ·)
  | .compare op .l => some ((BitVec.ofBool (op.holds a b)).setWidth 64)
  | .compare op .s => some (upper ++ (BitVec.ofBool (op.holds (low a) (low b))).setWidth 32)
  | _ => none

/-- A branch is taken, by the contents of two registers. -/
def Op3.taken (op : Op3) (a b : BitVec 64) : Option Bool :=
  match op with
  | .branch op .l => some (op.holds a b)
  | .branch op .s => some (op.holds (low a) (low b))
  | _ => none

/-! ## Operands -/

namespace Operand

/-- The contents of a register or a constant, and zero for what is absent. -/
def part (ρ : Valuation) : Expr → BitVec 64
  | .const v _ => v.bits
  | .var k id => ρ.var k id
  | _ => 0

/-- The address of a memory operand: offset, base, and index times scale. -/
def address (ρ : Valuation) : List Expr → BitVec 64
  | [offset, base, index, scale] =>
    part ρ offset + part ρ base + part ρ index * part ρ scale
  | args => (args.map (part ρ)).sum

/-- What a load makes of the bytes of a kind. -/
def extend (k : Kind) (b : BitVec 64) : BitVec 64 := resize (k.group = .gInt) (8 * k.bytes) b

/-- The contents of an operand. -/
def read (ρ : Valuation) : Expr → Option (BitVec 64)
  | .const v _ => some v.bits
  | .var k id => some (ρ.var k id)
  | .mem k args _ => some (extend k (loadBytes ρ.mem (address ρ args) k.bytes))
  | _ => none

/-- The registers and the memory after a number is written to an operand. -/
def write (ρ : Valuation) (dst : Expr) (v : BitVec 64) : Option Valuation :=
  match dst with
  | .var k id => some (ρ.setVar k id v)
  | .mem k args _ => some { ρ with mem := storeBytes ρ.mem (address ρ args) v k.bytes }
  | _ => none

end Operand

/-! ## Instructions -/

/-- The registers and the memory, and the upper halves that the next instructions leave. -/
structure State where
  regs : Valuation
  upper : Nat → BitVec 32

namespace State

/-- The state after the next instruction, with these registers and this memory. -/
def next (s : State) (ρ : Valuation) : State := ⟨ρ, fun n => s.upper (n + 1)⟩

/-- The state after the result of an instruction is written to its destination. -/
def put (s : State) (dst : Expr) (v : BitVec 64) : Option State :=
  (Operand.write s.regs dst v).map s.next

end State

/-- The instructions as flat code. -/
def machine : FlatCode.Machine Insn (BitVec 16) State where
  label
    | .label e => e.labelIndex
    | _ => none
  effect insn s :=
    match insn with
    | .label _ => some (.fall s)
    | .jmp target => target.labelIndex.map (.jump · s)
    | .insn2 op dst x => do
      let a ← Operand.read s.regs x
      ((op.apply (s.upper 0) a).bind (s.put dst)).map .fall
    | .insn3 op dst x y => do
      let a ← Operand.read s.regs x
      let b ← Operand.read s.regs y
      match op.taken a b with
      | some taken => dst.labelIndex.map fun l => if taken then .jump l s else .fall s
      | none => ((op.apply (s.upper 0) a b).bind (s.put dst)).map .fall
    | _ => none

/-- The state that instructions end in, when every jump in them goes forwards. -/
def run (insns : List Insn) (s : State) : Option State := machine.forward insns (none, s)

variable {s s' : State} {insns : List Insn} {dst x y : Expr} {a b : BitVec 64}

/-- Instructions that are added after those that have run. -/
theorem run_append (h : run insns s = some s') (insns' : List Insn) :
    run (insns ++ insns') s = run insns' s' := FlatCode.Machine.forward_append h insns'

/-- The last instruction has two operands. -/
theorem run_insn2 {op : Op2} (hx : Operand.read s.regs x = some a) :
    run [.insn2 op dst x] s = (op.apply (s.upper 0) a).bind (s.put dst) := by
  apply FlatCode.Machine.forward_last
  simp [machine, hx]

end OneJit.Mir
