import OneJit.Optimizer

/-!
# MIR instructions

What `mir::Compiler` emits. The operators of the MIR families of `OpStmt2` and `OpStmt3` are named
by what they do and by the class of their operands, which is the prefix or suffix of their name:
`MIR_ADDS`, `MIR_ADD`, `MIR_FADD`, `MIR_DADD` and `MIR_LDADD` are one operator of five classes.
-/

namespace OneJit.Mir

/-- The operands of an instruction: integers of 32 and 64 bits, and the floating point kinds. -/
inductive OpClass
  | s | l | f | d | ld
  deriving DecidableEq, Repr

/-- `enum mKind`. -/
inductive MKind
  | int32 | uint32 | int64 | uint64 | float32 | float64 | float128
  deriving DecidableEq, Repr

/-- `mir_kind`. A signed kind narrower than 64 bits with SIMD repetitions is no `mInt32`. -/
def mirKind (kind : Kind) : MKind :=
  match kind.ekind with
  | .int8 | .int16 | .int32 => if kind.simd = 0 then .int32 else .uint32
  | .int64 => .int64
  | .uint64 | .ptr => .uint64
  | .float32 => .float32
  | .float64 => .float64
  | .float128 => .float128
  | _ => .uint32

namespace MKind

/-- The class of the instructions on a kind. -/
def opClass : MKind → OpClass
  | int32 | uint32 => .s
  | int64 | uint64 => .l
  | float32 => .f
  | float64 => .d
  | float128 => .ld

def isUnsigned : MKind → Bool
  | uint32 | uint64 => true
  | _ => false

def isFloat : MKind → Bool
  | float32 | float64 | float128 => true
  | _ => false

end MKind

inductive Arith
  | add | sub | mul | div | udiv | mod | umod | and | or | xor | lsh | rsh | ursh
  deriving DecidableEq, Repr

inductive Relation
  | lt | ult | le | ule | ne | eq | gt | ugt | ge | uge
  deriving DecidableEq, Repr

/-- The MIR family of `OpStmt2`. A conversion has the classes of its operands, `MIR_UI2F` to
`MIR_UI2LD` are those of unsigned integers, and `MIR_EXT8` to `MIR_UEXT32` have their number of
bits. -/
inductive Op2
  | mov (c : OpClass)
  | neg (c : OpClass)
  | ext (signed : Bool) (bits : Nat)
  | convert (src dst : OpClass)
  | uconvert (dst : OpClass)
  deriving DecidableEq, Repr

/-- The MIR family of `OpStmt3`, with `BAD_ST3` and what is read behind the end of a table. -/
inductive Op3
  | badSt3
  | unspecified
  | arith (op : Arith) (c : OpClass)
  | compare (op : Relation) (c : OpClass)
  | branch (op : Relation) (c : OpClass)
  deriving DecidableEq, Repr

/-- The class of a floating point kind. -/
def floatClass (kind : Kind) : Option OpClass :=
  match kind.ekind with
  | .float32 => some .f
  | .float64 => some .d
  | .float128 => some .ld
  | _ => none

/-- `mir_mov`. -/
def mirMov (kind : Kind) : Op2 := .mov ((floatClass kind).getD .l)

/-- `mir_neg`. -/
def mirNeg (kind : Kind) : Op2 :=
  .neg ((floatClass kind).getD (if kind.bitsize = 64 then .l else .s))

/-- `mir_cast`. -/
def mirCast (dst src : Kind) : Op2 :=
  match floatClass src, floatClass dst with
  | some c, some c' => if c = c' then .mov c else .convert c c'
  | some c, none => .convert c .l
  | none, some c' => .convert .l c'
  | none, none =>
    let bits := min src.bitsize dst.bitsize
    if bits = 16 then .ext dst.isSigned 16
    else if bits = 32 then .ext dst.isSigned 32
    else if 0 < bits ∧ bits ≤ 8 then .ext dst.isSigned 8
    else .mov .l

/-- A row of the table of `mir_arith`: the operators on signed and on unsigned integers, and whether
there is one on floating point kinds. -/
def arithRow (signed unsigned : Arith) (onFloat : Bool) (kind : Kind) : Op3 :=
  let k := mirKind kind
  if k.isFloat && !onFloat then .badSt3
  else .arith (if k.isUnsigned then unsigned else signed) k.opClass

/-- `mir_arith` on an `OpStmt2`. -/
def mirArith (op : OpStmt2) (kind : Kind) : Op3 :=
  match op with
  | .addAssign => arithRow .add .add true kind
  | .subAssign => arithRow .sub .sub true kind
  | .mulAssign => arithRow .mul .mul true kind
  | .quoAssign => arithRow .div .udiv true kind
  | .remAssign => arithRow .mod .umod false kind
  | .andAssign => arithRow .and .and false kind
  | .orAssign => arithRow .or .or false kind
  | .xorAssign => arithRow .xor .xor false kind
  | .shlAssign => arithRow .lsh .lsh false kind
  | .shrAssign => arithRow .rsh .ursh false kind
  | _ => .badSt3

/-- `mir_arith` on an `Op2`. The table has no operator for `REM` and holds those of the shifts one
position too early: `REM` is taken for `SHL`, `SHL` for `SHR`, and `SHR` is past its end. -/
def mirArith2 (op : OneJit.Op2) (kind : Kind) : Op3 :=
  match op with
  | .sub => mirArith .subAssign kind
  | .quo => mirArith .quoAssign kind
  | .rem => mirArith .shlAssign kind
  | .shl => mirArith .shrAssign kind
  | .shr => .unspecified
  | _ => .badSt3

/-- `mir_arith` on an `OpN`. -/
def mirArithN (op : OpN) (kind : Kind) : Op3 :=
  match op with
  | .add => mirArith .addAssign kind
  | .mul => mirArith .mulAssign kind
  | .and => mirArith .andAssign kind
  | .or => mirArith .orAssign kind
  | .xor => mirArith .xorAssign kind
  | _ => .badSt3

/-- The relation of a comparison, on signed and on unsigned operands. -/
def relationOf (op : OneJit.Op2) (unsigned : Bool) : Option Relation :=
  match op with
  | .lss => some (if unsigned then .ult else .lt)
  | .leq => some (if unsigned then .ule else .le)
  | .neq => some .ne
  | .eql => some .eq
  | .gtr => some (if unsigned then .ugt else .gt)
  | .geq => some (if unsigned then .uge else .ge)
  | _ => none

/-- `mir_compare`. -/
def mirCompare (op : OneJit.Op2) (kind : Kind) : Op3 :=
  let k := mirKind kind
  ((relationOf op k.isUnsigned).map (Op3.compare · k.opClass)).getD .badSt3

/-- `mir_jump` on an `Op2`. -/
def mirJump (op : OneJit.Op2) (kind : Kind) : Op3 :=
  let k := mirKind kind
  ((relationOf op k.isUnsigned).map (Op3.branch · k.opClass)).getD .badSt3

/-- The relation of an `ASM_J*`, on integers and on floating point kinds. -/
def relationOfAsm (op : OpStmt3) (isFloat : Bool) : Option Relation :=
  match op with
  | .asmJa => some (if isFloat then .gt else .ugt)
  | .asmJae => some (if isFloat then .ge else .uge)
  | .asmJb => some (if isFloat then .lt else .ult)
  | .asmJbe => some (if isFloat then .le else .ule)
  | .asmJe => some .eq
  | .asmJg => some .gt
  | .asmJge => some .ge
  | .asmJl => some .lt
  | .asmJle => some .le
  | .asmJne => some .ne
  | _ => none

/-- The class of the tables of `mir_jump` on an `OpStmt3`, by the kind with its repetitions. -/
def asmClass (kind : Kind) : OpClass :=
  if kind = .int64 ∨ kind = .uint64 ∨ kind = .ptr then .l
  else if kind = .float32 then .f
  else if kind = .float64 then .d
  else if kind = .float128 then .ld
  else .s

/-- `mir_jump` on an `OpStmt3`. -/
def mirJumpAsm (op : OpStmt3) (kind : Kind) : Op3 :=
  let c := asmClass kind
  ((relationOfAsm op (c != .s && c != .l)).map (Op3.branch · c)).getD .badSt3

/-- A node that `mir::Compiler` emits. -/
inductive Insn
  | label (label : Expr)
  | jmp (target : Expr)
  | insn2 (op : Op2) (a b : Expr)
  | insn3 (op : Op3) (a b c : Expr)
  | call (ftype address results : Expr) (args : List Expr)
  | ret (args : List Expr)

end OneJit.Mir
