import OneJit.Graph
import OneJit.Lib.Colouring

/-!
# Register allocation

`reg::Allocator` removes the registers from the interference graph one by one, first those with
few remaining neighbors, and then colors them in the opposite order. A self-edge at every
register makes the degree of a register that is present in the graph differ from zero.
`NoReg` and `NoColor` are `none`.
-/

namespace OneJit

/-- `class Allocator`. An empty `hints` array means that hints are disabled. -/
structure Allocator where
  g : Graph
  g2 : Graph
  stack : List Nat
  hints : List (Option Nat)
  colors : List (Option Nat)
  availColors : BitSet
  deriving DecidableEq, Repr

namespace Allocator

/-- `Allocator(num_regs)`. -/
def new (numRegs : Nat) : Allocator where
  g := .reset numRegs
  g2 := .reset numRegs
  stack := List.replicate numRegs 0
  hints := []
  colors := List.replicate numRegs (some 0)
  availColors := ⟨List.replicate numRegs false⟩

def size (a : Allocator) : Nat := a.g.size

/-- `Array::resize`: the new elements are zero. -/
def resize {α : Type} (zero : α) (xs : List α) (n : Nat) : List α :=
  xs.take n ++ List.replicate (n - xs.length) zero

/-- `Allocator::reset`. -/
def reset (a : Allocator) (numRegs : Nat) : Allocator where
  g := .reset numRegs
  g2 := .reset numRegs
  stack := resize 0 a.stack numRegs
  hints := []
  colors := resize (some 0) a.colors numRegs
  availColors := a.availColors.resize numRegs

/-- `graph().set(a, b, true)`. -/
def connect (a : Allocator) (r1 r2 : Nat) : Allocator := { a with g := a.g.set r1 r2 true }

/-- `Allocator::add_hint`. -/
def addHint (a : Allocator) (reg : Nat) (color : Option Nat) : Allocator :=
  let hints := if a.hints.length = 0 then List.replicate a.size none else a.hints
  { a with hints := hints.set reg color }

/-- One round of the loop of `Allocator::init`. -/
def initReg (s : Graph × List (Option Nat)) (reg : Nat) : Graph × List (Option Nat) :=
  (s.1.set reg reg true, s.2.set reg none)

/-- `Allocator::init`. -/
def init (a : Allocator) : Allocator :=
  let (g, colors) := (List.range a.size).foldl initReg (a.g, a.colors)
  { a with stack := [], g := g, colors := colors, g2 := g }

/-- `Allocator::find_degree_less_than`. The sum is computed in 32 bits. -/
def findDegreeLessThan (g : Graph) (degree : BitVec 32) : Option Nat :=
  (List.range g.size).find? (fun i => 2 ≤ g.degree i && g.degree i < (2 + degree).toNat)

/-- `Allocator::pick`: the first register of the highest degree. -/
def pick (g : Graph) : Option Nat :=
  ((List.range g.size).foldl (fun (reg, deg) i =>
    if g.degree i > deg then (some i, g.degree i) else (reg, deg)) (none, 0)).1

/-- The inner loop of `allocate_regs`: push and remove registers of low degree. -/
def removeLow (numColors : BitVec 32) : Nat → Graph × List Nat → Graph × List Nat
  | 0, s => s
  | fuel + 1, (g, stack) =>
    match findDegreeLessThan g numColors with
    | none => (g, stack)
    | some reg => removeLow numColors fuel (g.remove reg, stack ++ [reg])

/-- The outer loop of `allocate_regs`. Every round but the last one removes a register, so
`size + 1` rounds are enough for both loops. -/
def removeAll (numColors : BitVec 32) : Nat → Graph × List Nat → Graph × List Nat
  | 0, s => s
  | fuel + 1, s =>
    let (g, stack) := removeLow numColors (s.1.size + 1) s
    match pick g with
    | none => (g, stack)
    | some reg => removeAll numColors fuel (g.remove reg, stack ++ [reg])

/-- `alt_color != NoColor && (alt_color < num_colors || color >= num_colors)`, where `NoColor`
is above every number of colors. -/
def prefersAlt (numColors : BitVec 32) (color alt : Option Nat) : Bool :=
  match alt with
  | none => false
  | some alt => alt < numColors.toNat || color.all (numColors.toNat ≤ ·)

/-- `avail_colors_.set(color, false)`; `NoColor` is out of bounds. -/
def useColor (avail : BitSet) (color : Option Nat) : BitSet :=
  match color with
  | none => avail
  | some color => avail.set color false

/-- The color of a register: `colors_[reg]`. -/
def colorAt (colors : List (Option Nat)) (reg : Nat) : Option Nat := colors.getD reg (some 0)

/-- The hint of a register: `hints_[reg]`. -/
def hintAt (hints : List (Option Nat)) (reg : Nat) : Option Nat := hints.getD reg (some 0)

/-- The loop body of `try_satisfy_hints`: the hint of an uncolored neighbor is kept free. -/
def keepHint (hints colors : List (Option Nat)) (avail : BitSet) (neighbor : Nat) : BitSet :=
  if colorAt colors neighbor = none then useColor avail (hintAt hints neighbor) else avail

/-- `Allocator::try_satisfy_hints`. -/
def trySatisfyHints (g2 : Graph) (hints colors : List (Option Nat)) (reg : Nat)
    (avail : BitSet) : Option Nat × BitSet :=
  let hintColor := hintAt hints reg
  if hintColor.any avail.get then (hintColor, avail)
  else
    let avail := g2.eachNeighbor reg (keepHint hints colors) avail
    (avail.find 0 avail.size, avail)

/-- The loop body of `assign_colors`: a neighbor that is already back in the graph is connected
again and its color is occupied. -/
def reconnect (colors : List (Option Nat)) (reg : Nat) (s : Graph × BitSet) (neighbor : Nat) :
    Graph × BitSet :=
  if s.1.degree neighbor ≠ 0 then
    (s.1.set reg neighbor true, useColor s.2 (colorAt colors neighbor))
  else s

/-- One round of `Allocator::assign_colors`. -/
def assignColor (numColors : BitVec 32) (a : Allocator) (reg : Nat) : Allocator :=
  let (g, avail) := a.g2.eachNeighbor reg (reconnect a.colors reg) (a.g, a.availColors.fill true)
  let color := avail.find 0 avail.size
  let (alt, avail) := if a.hints.length ≠ 0 then
    trySatisfyHints a.g2 a.hints a.colors reg avail else (none, avail)
  { a with
    g := g.set reg reg true
    availColors := avail
    colors := a.colors.set reg (if prefersAlt numColors color alt then alt else color) }

/-- `Allocator::assign_colors`: from the top of the stack to its bottom. -/
def assignColors (numColors : BitVec 32) (a : Allocator) : Allocator :=
  a.stack.reverse.foldl (assignColor numColors) a

/-- `Allocator::allocate_regs`. -/
def allocateRegs (a : Allocator) (numColors : BitVec 32) : Allocator :=
  let a := a.init
  let (g, stack) := removeAll numColors (a.size + 1) (a.g, [])
  assignColors numColors { a with g := g, stack := stack }

end Allocator

end OneJit
