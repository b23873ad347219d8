import OneJit.Effects
import OneJit.FlowGraph
import OneJit.Lib.FlatCode
import OneJit.Run

/-!
# Running compiled statements

The state is the variables and the heap. Assignments locate their destination, evaluate the source
and then read the old value; the conditional jumps compare 64-bit patterns, signed or unsigned.
Statements that compiled code does not contain end a run.
-/

namespace OneJit

open FlatCode

/-- The variables and the heap. -/
structure State where
  vars : Vars
  heap : Heap

namespace State

/-- A variable gets a value. -/
def setVar (s : State) (k : Kind) (id : Nat) (v : BitVec 64) : State :=
  { s with vars := fun k' id' => if k' = k ∧ id' = id then v else s.vars k' id' }

@[simp] theorem setVar_heap (s : State) (k : Kind) (id : Nat) (v : BitVec 64) :
    (s.setVar k id v).heap = s.heap := rfl

theorem setVar_vars (s : State) (k : Kind) (id : Nat) (v : BitVec 64) :
    (s.setVar k id v).vars k id = v := if_pos ⟨rfl, rfl⟩

/-- Variables below the one that is set are as before; one of kind `Void` holds nothing. -/
theorem setVar_agree (s : State) {k : Kind} {id n : Nat} (h : k = .void ∨ n ≤ id)
    (v : BitVec 64) : AgreeBelow n s.vars (s.setVar k id v).vars := by
  intro k' id' hk hid
  rw [setVar]
  dsimp only
  rw [if_neg]
  rintro ⟨rfl, rfl⟩
  obtain h | h := h
  · exact hk h
  · exact absurd hid (Nat.not_lt.mpr h)

end State

/-- Where an assignment stores. -/
inductive Location
  | var (k : Kind) (id : Nat)
  | mem (k : Kind) (addr : BitVec 64)

namespace Location

def kind : Location → Kind
  | var k _ => k
  | mem k _ => k

def read (s : State) : Location → BitVec 64
  | var k id => k.wrap (s.vars k id)
  | mem k addr => k.wrap (loadBytes s.heap.mem addr k.bytes)

def write (s : State) (v : BitVec 64) : Location → State
  | var k id => s.setVar k id v
  | mem k addr =>
    { s with heap := { s.heap with mem := storeBytes s.heap.mem addr v k.bytes } }

end Location

/-- The location that an expression denotes. -/
def Expr.locate (w : Host) (ρ : Vars) : Expr → Heap → Option (Location × Heap)
  | .var k id, h => some (.var k id, h)
  | .mem k args _, h => do
    let (vs, h) ← runList w ρ args h
    some (.mem k vs.sum, h)
  | _, _ => Option.none

/-- The value that an assignment stores. -/
def OpStmt2.stored (op : OpStmt2) (k : Kind) (a b : BitVec 64) : Option (BitVec 64) :=
  if op = .assign then some b else op.compute k a b

/-- The condition of a conditional jump. -/
def OpStmt3.holds (op : OpStmt3) (a b : BitVec 64) : Option Bool :=
  match op with
  | .asmJa => some (b.ult a)
  | .asmJae => some (!a.ult b)
  | .asmJb => some (a.ult b)
  | .asmJbe => some (!b.ult a)
  | .asmJe => some (a == b)
  | .asmJg => some (b.slt a)
  | .asmJge => some (!a.slt b)
  | .asmJl => some (a.slt b)
  | .asmJle => some (!b.slt a)
  | .asmJne => some (a != b)
  | _ => none

theorem OpStmt3.isCondJump_of_holds {op : OpStmt3} {a b : BitVec 64} {taken : Bool}
    (h : op.holds a b = some taken) : op.isCondJump := by
  cases op <;> first | rfl | cases h

namespace Stmt

variable (w : Host)

/-- What an assignment does. -/
def assignEffect (op : OpStmt2) (dst src : Expr) (s : State) : Option State := do
  let (loc, h) ← dst.locate w s.vars s.heap
  let (b, h) ← src.run w s.vars h
  let s := { s with heap := h }
  let v ← op.stored loc.kind (loc.read s) b
  some (loc.write s v)

/-- The increment and the decrement of a place. -/
def stepEffect (step : BitVec 64) (dst : Expr) (s : State) : Option State := do
  let (loc, h) ← dst.locate w s.vars s.heap
  let s := { s with heap := h }
  some (loc.write s (loc.kind.wrap (loc.read s + step)))

/-- What a compiled statement does. -/
def effect : Stmt → State → Option (Next (BitVec 16) State)
  | expr (.label _ _), s => some (.fall s)
  | expr e, s => do
    let (_, h) ← e.run w s.vars s.heap
    some (.fall { s with heap := h })
  | stmt1 .goto (.label index _), s => some (.jump index s)
  | stmt1 .inc dst, s => (stepEffect w 1 dst s).map .fall
  | stmt1 .dec dst, s => (stepEffect w (-1) dst s).map .fall
  | stmt2 op (expr dst) (expr src), s =>
    if op.isAssign then (assignEffect w op dst src s).map .fall else none
  | stmt3 op (expr (.label index _)) (expr x) (expr y), s => do
    let (a, h) ← x.run w s.vars s.heap
    let (b, h) ← y.run w s.vars h
    let taken ← op.holds a b
    let s := { s with heap := h }
    some (if taken then .jump index s else .fall s)
  | _, _ => none

/-- The statement is no conditional jump without a condition. -/
def realJump : Stmt → Bool
  | stmt3 op _ _ _ => op.isCondJump
  | _ => true

/-- Compiled code and its labels. -/
def machine : Machine Stmt (BitVec 16) State := ⟨labelIndex, effect w⟩

end Stmt

end OneJit
