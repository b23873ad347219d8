import OneJit.Mir.Compiler

/-!
# The registers of the assembler

`mir::Assembler` maps the identifier of a variable to a MIR register. The map is a member of the
assembler: it is the same one for all functions that are assembled one after another.
-/

namespace OneJit.Mir

/-- `MIR_type_t`, as far as `to_mir_kind` goes. -/
inductive MirType
  | undef | i64 | f | d | ld
  deriving DecidableEq, Repr

/-- `to_mir_kind`. -/
def toMirKind (kind : Kind) : MirType :=
  match kind.ekind with
  | .bad | .void | .float16 => .undef
  | .bool | .int8 | .int16 | .int32 | .int64 | .uint8 | .uint16 | .uint32 | .uint64 | .ptr => .i64
  | .float32 => .f
  | .float64 => .d
  | .float128 => .ld

/-- What a `MIR_reg_t` stands for: the MIR function it was made for, as its position among the
functions of the assembler, and its type. -/
structure Reg where
  func : Nat
  type : MirType
  deriving DecidableEq, Repr

/-! ## The variables of a node -/

/-- A variable: its kind and its identifier. -/
abbrev VarId := Kind × Nat

mutual

/-- The variables that occur in an expression. -/
def exprVars : Expr → List VarId
  | .none | .const _ _ | .label _ _ | .ftype _ _ => []
  | .var kind id => [(kind, id)]
  | .mem _ args _ => exprsVars args
  | .unary _ _ x _ => exprVars x
  | .binary _ _ x y _ => exprVars x ++ exprVars y
  | .tuple _ _ args _ => exprsVars args

def exprsVars : List Expr → List VarId
  | [] => []
  | e :: es => exprVars e ++ exprsVars es

end

mutual

/-- The variables that occur in a statement. -/
def stmtVars : Stmt → List VarId
  | .expr e => exprVars e
  | .stmt0 _ => []
  | .stmt1 _ arg => exprVars arg
  | .stmt2 _ a b => stmtVars a ++ stmtVars b
  | .stmt3 _ a b c => stmtVars a ++ stmtVars b ++ stmtVars c
  | .stmt4 _ a b c d => stmtVars a ++ stmtVars b ++ stmtVars c ++ stmtVars d
  | .stmtN _ args => stmtsVars args

def stmtsVars : List Stmt → List VarId
  | [] => []
  | st :: sts => stmtVars st ++ stmtsVars sts

end

/-- The variables that occur in an instruction. -/
def Insn.vars : Insn → List VarId
  | label e => exprVars e
  | jmp e => exprVars e
  | insn2 _ a b => exprVars a ++ exprVars b
  | insn3 _ a b c => exprVars a ++ exprVars b ++ exprVars c
  | call fn address results args =>
    exprVars fn ++ exprVars address ++ exprVars results ++ exprsVars args
  | ret args => exprsVars args

/-! ## Functions -/

/-- The identifier of the variable with this kind and position. -/
def varId (kind : Kind) (i : Nat) : Nat := if kind = .void then 0 else i + OneJit.Compiler.firstId

/-- The variable is one of the function with these kinds of variables. -/
def KnownVar (kinds : List Kind) (v : VarId) : Prop := ∃ i, kinds[i]? = some v.1 ∧ v.2 = varId v.1 i

/-- `class Func`, compiled for no architecture: the kinds of its variables, those of the parameters
and results first, and the compiled node, where the variables are those of the function. -/
structure Func where
  paramKinds : List Kind
  resultKinds : List Kind
  localKinds : List Kind
  labels : Nat
  node : Stmt
  known : ∀ v ∈ stmtVars node, KnownVar (paramKinds ++ resultKinds ++ localKinds) v

namespace Func

/-- `vars_` when the function is compiled for no architecture; `compiled_var_n_` is its length. -/
def varKinds (f : Func) : List Kind := f.paramKinds ++ f.resultKinds ++ f.localKinds

/-- The state in which `mir::Compiler` starts. -/
def start (f : Func) : Compiler := ⟨f.varKinds, f.labels, [], []⟩

/-- What `mir::Compiler` has done at its end. -/
def lowered (f : Func) : Compiler := (Compiler.compile f.node f.start).2

/-- `get_compiled(MIR)`, as the list of its instructions. -/
def body (f : Func) : List Insn := f.lowered.nodes

/-- `vars_` after `set_compiled(MIR)`, which truncates it. -/
def vars (f : Func) : List Kind := f.lowered.vars.take f.varKinds.length

/-- The variables with these kinds, from a position on. -/
def varIds (kinds : List Kind) : List VarId := kinds.mapIdx fun i kind => (kind, varId kind i)

/-- The variables that occur in the body. -/
def bodyVars (f : Func) : List VarId := f.body.flatMap Insn.vars

end Func

/-! ## The assembler -/

/-- `mir::Assembler`: the map of registers, and the number of functions made so far. -/
structure Assembler where
  mvars : Nat → Option Reg
  funcs : Nat

namespace Assembler

/-- A new assembler. -/
def init : Assembler := ⟨fun _ => none, 0⟩

/-- `mvars_[id] = reg`. -/
def set (mvars : Nat → Option Reg) (id : Nat) (reg : Reg) : Nat → Option Reg :=
  fun i => if i = id then some reg else mvars i

/-- The loop of `declare_mir_vars` over the parameters. -/
def declareParams (func : Nat) : List VarId → (Nat → Option Reg) → Nat → Option Reg
  | [], mvars => mvars
  | (kind, id) :: params, mvars => declareParams func params (set mvars id ⟨func, toMirKind kind⟩)

/-- The loop of `declare_mir_vars` over all variables: those that the map has are skipped. -/
def declareVars (func : Nat) : List VarId → (Nat → Option Reg) → Nat → Option Reg
  | [], mvars => mvars
  | (kind, id) :: vars, mvars =>
    declareVars func vars
      (if (mvars id).isSome then mvars else set mvars id ⟨func, toMirKind kind⟩)

/-- `declare_mir_vars`. -/
def declareMirVars (a : Assembler) (f : Func) : Nat → Option Reg :=
  declareVars a.funcs (Func.varIds f.vars)
    (declareParams a.funcs (Func.varIds f.paramKinds) a.mvars)

/-- `assemble`. -/
def assemble (a : Assembler) (f : Func) : Assembler := ⟨a.declareMirVars f, a.funcs + 1⟩

/-- Functions that are assembled one after another. -/
def assembleAll (fs : List Func) : Assembler := fs.foldl assemble init

end Assembler

end OneJit.Mir
