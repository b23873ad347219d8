import OneJit.Mir.Compiler
import OneJit.X64.Mem

/-!
# Addresses of x64

`x64::Address` collects a label, an offset, a base and a scaled index from the terms of a sum, and a
memory operand is made of it. `Var` and `Label` are kept as what they name.
-/

namespace OneJit.X64

/-- `class x64::Address`. -/
structure Address where
  label : Option Label := none
  base : Reg := .absent
  index : Reg := .absent
  scale : Scale := .scale1
  offset : BitVec 32 := 0
  deriving DecidableEq, Repr

/-- The part of `x64::Compiler` that addresses need: the kinds of the variables of its function, and
the assignments it has added. -/
structure Compiler where
  vars : List Kind
  nodes : List (Reg × Expr)

abbrev X64M := StateM Compiler

/-- `Var{func, kind}`. -/
def newVar (kind : Kind) : X64M Reg := fun c =>
  if kind ≠ .bad ∧ (kind = .void ∨ c.vars.length + OneJit.Compiler.firstId < 2 ^ 24) then
    (⟨kind, if kind = .void then 0 else c.vars.length + OneJit.Compiler.firstId⟩,
      { c with vars := c.vars ++ [kind] })
  else (.absent, c)

/-- `add(Assign{func, ASSIGN, dst, src})`. -/
def assign (dst : Reg) (src : Expr) : X64M Unit :=
  modify fun c => { c with nodes := c.nodes ++ [(dst, src)] }

/-- `to_var`. -/
def toVar (e : Expr) : X64M Reg :=
  match e with
  | .var kind id => pure ⟨kind, id⟩
  | e =>
    if !e.isValid then pure .absent
    else do
      let v ← newVar e.kind
      assign v e
      return v

/-- The factor and the constant of a product that may become the scaled index. -/
def scaledIndex : Expr → Option (Expr × BitVec 64)
  | .tuple _ .mul [x, .const v _] _ =>
    if x.isValid && v.isValid && !v.kind.isFloat then some (x, v.bits) else none
  | _ => none

/-- The scale of a constant between 0 and 255. -/
def scaleOf (bits : BitVec 64) : Scale :=
  if bits.ule 0xFF then .ofVal (bits.setWidth 8) else .scale0

namespace Address

/-- The end of `Address::insert`. -/
def insertFallback (address : Address) (e : Expr) : X64M (Option Address) :=
  if !address.base.isValid then do
    let v ← toVar e
    return some { address with base := v }
  else if !address.index.isValid then do
    let v ← toVar e
    return some { address with index := v, scale := .scale1 }
  else pure none

/-- `Address::insert`. -/
def insert (address : Address) (e : Expr) : X64M (Option Address) :=
  if !e.toExpr.isValid then pure none
  else match e with
    | .label index pos =>
      if address.label.isNone then pure (some { address with label := some ⟨index, pos⟩ })
      else insertFallback address e
    | .const v _ =>
      if address.offset = 0 ∧ !v.kind.isFloat ∧ v.bits = (v.bits.setWidth 32).signExtend 64 then
        pure (some { address with offset := v.bits.setWidth 32 })
      else insertFallback address e
    | _ =>
      match if address.index.isValid then none else scaledIndex e with
      | some (x, scale) => do
        let v ← toVar x
        if v.isValid && (scaleOf scale).isValid then
          return some { address with index := v, scale := scaleOf scale }
        else insertFallback address e
      | none => insertFallback address e

/-- `Address::insert` on a list. -/
def insertAll : List Expr → Address → X64M (Option Address)
  | [], address => pure (some address)
  | e :: es, address => do
    match ← insert address e with
    | some address => insertAll es address
    | none => return none

end Address

/-! ## Memory operands -/

/-- The node of a variable. -/
def Reg.toExpr (r : Reg) : Expr := if r.isValid then .var r.kind r.id else .none

/-- The node of a label. -/
def labelExpr : Option Label → Expr
  | some l => .label l.index l.address
  | none => .none

/-- `Mem::create(func, kind, address)`: the children up to the last one that is there. -/
def Mem.create (kind : Kind) (address : Address) : Mem :=
  let offset := if address.offset ≠ 0 then .ofValue (.ofInt32 address.offset) else .none
  let scale := .ofUint16 .uint8 (BitVec.ofNat 16 address.scale.val)
  let children :=
    if address.index.isValid && address.scale.isValid then
      [labelExpr address.label, offset, address.base.toExpr, address.index.toExpr, scale]
    else if address.base.isValid then [labelExpr address.label, offset, address.base.toExpr]
    else if address.offset ≠ 0 then [labelExpr address.label, offset]
    else if address.label.isSome then [labelExpr address.label]
    else []
  ⟨kind, children⟩

end OneJit.X64
