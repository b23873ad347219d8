import OneJit.Mir.AddressSum
import OneJit.X64.Address

/-!
# What an x64 address adds up to

An address that takes all terms of a sum is that sum, up to the difference between a product in the
kind of its node and the same product in 64 bits, and up to terms of kind `Void`: a label after the
first goes to a variable of that kind, which holds nothing.
-/

namespace OneJit.X64

open OneJit.Compiler (firstId)

/-! ## Values -/

/-- The contents of a register. A variable of kind `Void` has none. -/
def Reg.value (ρ : Valuation) (r : Reg) : BitVec 64 :=
  if r.isValid ∧ r.kind ≠ .void then ρ.var r.kind r.id else 0

/-- The value of a term, as the 64 bits of a register. -/
def operandValue (ρ : Valuation) : Expr → Option (BitVec 64)
  | .const v _ => some v.bits
  | .var kind id => some (Reg.value ρ ⟨kind, id⟩)
  | e => e.eval ρ

/-- The value of a term where it has one. -/
def termValue (ρ : Valuation) (e : Expr) : BitVec 64 := (operandValue ρ e).getD 0

/-- The number that an address stands for. -/
def Address.value (ρ : Valuation) (address : Address) : BitVec 64 :=
  (address.label.map fun l => ρ.label l.index).getD 0 + address.offset.signExtend 64 +
    address.base.value ρ + address.index.value ρ * BitVec.ofNat 64 address.scale.val

/-- The registers after an assignment. One without a variable cannot be run. -/
def runAssign (ρ : Valuation) (node : Reg × Expr) : Option Valuation :=
  if node.1.isValid then (operandValue ρ node.2).map (ρ.setVar node.1.kind node.1.id) else none

/-- The registers after assignments. -/
def runAssigns (nodes : List (Reg × Expr)) (ρ : Valuation) : Option Valuation :=
  nodes.foldlM runAssign ρ

theorem runAssigns_concat {nodes : List (Reg × Expr)} {ρ ρ' : Valuation}
    (h : runAssigns nodes ρ = some ρ') (node : Reg × Expr) :
    runAssigns (nodes ++ [node]) ρ = runAssign ρ' node := by
  unfold runAssigns at h ⊢
  rw [List.foldlM_append, h]
  exact bind_pure (runAssign ρ' node)

/-! ## The places of a term -/

/-- The parts of an address that are taken. -/
structure Slots where
  label : Bool
  offset : BitVec 32
  base : Bool
  index : Bool

/-- Where a term goes: what is copied to variables for it, unless it is one, and by how much the
address grows beyond the value of the term. -/
structure Placement where
  copies : List Expr
  excess : BitVec 64
  slots : Slots

/-- What a variable for a term holds. -/
def heldValue (ρ : Valuation) (e : Expr) : BitVec 64 := if e.kind = .void then 0 else termValue ρ e

/-- A register for the term. -/
def Slots.placeRegister (s : Slots) (ρ : Valuation) (e : Expr) : Option Placement :=
  if !s.base then some ⟨[e], heldValue ρ e - termValue ρ e, { s with base := true }⟩
  else if !s.index then some ⟨[e], heldValue ρ e - termValue ρ e, { s with index := true }⟩
  else none

/-- The place of a term, if there is one. -/
def Slots.place (s : Slots) (ρ : Valuation) (e : Expr) : Option Placement :=
  match e with
  | .label _ _ => if !s.label then some ⟨[], 0, { s with label := true }⟩ else s.placeRegister ρ e
  | .const v _ =>
    if s.offset = 0 ∧ !v.kind.isFloat ∧ v.bits = (v.bits.setWidth 32).signExtend 64 then
      some ⟨[], 0, { s with offset := v.bits.setWidth 32 }⟩
    else s.placeRegister ρ e
  | _ =>
    match if s.index then none else scaledIndex e with
    | some (x, scale) =>
      if (scaleOf scale).isValid then
        some ⟨[x], heldValue ρ x * scale - termValue ρ e, { s with index := true }⟩
      else (s.placeRegister ρ e).map fun p => { p with copies := x :: p.copies }
    | none => s.placeRegister ρ e

/-- What is copied to variables for a list of terms. -/
def Slots.copies (ρ : Valuation) : Slots → List Expr → List Expr
  | _, [] => []
  | s, e :: es =>
    match s.place ρ e with
    | some p => p.copies ++ p.slots.copies ρ es
    | none => []

/-- By how much the address exceeds the sum of a list of terms. -/
def Slots.excess (ρ : Valuation) : Slots → List Expr → BitVec 64
  | _, [] => 0
  | s, e :: es =>
    match s.place ρ e with
    | some p => p.excess + p.slots.excess ρ es
    | none => 0

/-- The function has identifiers for the variables that the terms are copied to. A variable of kind
`Void` needs none. -/
def HasIds (n : Nat) : List Expr → Prop
  | [] => True
  | e :: es =>
    if e.isVar then HasIds n es else (e.kind = .void ∨ n + firstId < 2 ^ 24) ∧ HasIds (n + 1) es

/-- The number of variables that copies take. -/
def newVars (es : List Expr) : Nat := es.countP fun e => !e.isVar

theorem newVars_append (es es' : List Expr) : newVars (es ++ es') = newVars es + newVars es' :=
  List.countP_append

theorem newVars_cons (e : Expr) (es : List Expr) : newVars (e :: es) = newVars [e] + newVars es :=
  newVars_append [e] es

theorem hasIds_append (n : Nat) (es es' : List Expr) :
    HasIds n (es ++ es') ↔ HasIds n es ∧ HasIds (n + newVars es) es' := by
  induction es generalizing n with
  | nil => simp [HasIds, newVars]
  | cons e es ih =>
    rw [List.cons_append, HasIds, HasIds, newVars, List.countP_cons]
    by_cases hvar : e.isVar
    · rw [if_pos hvar, if_pos hvar, ih]
      simp [hvar, newVars]
    · rw [if_neg hvar, if_neg hvar, ih, and_assoc]
      simp [hvar, newVars, Nat.add_assoc, Nat.add_comm 1]

/-- The term has a value over the variables with a smaller identifier. -/
structure IsTerm (n : Nat) (ρ : Valuation) (e : Expr) : Prop where
  value : (operandValue ρ e).isSome
  vars : e.varsBelow n

/-! ## Copies to variables -/

variable {n₀ : Nat} {ρ₀ : Valuation} {vars : Vars} {c : Compiler} {e : Expr}

/-- The assignments so far leave these variables, and the first ones as they were. -/
structure Copied (n₀ : Nat) (ρ₀ : Valuation) (vars : Vars) (c : Compiler) : Prop where
  run : runAssigns c.nodes ρ₀ = some { ρ₀ with var := vars }
  agree : AgreeBelow n₀ ρ₀.var vars
  le : n₀ ≤ c.vars.length + firstId

/-- The register of an address is a variable with a smaller identifier, or it is free. -/
structure IsSlot (n : Nat) (taken : Bool) (r : Reg) : Prop where
  valid : r.isValid = taken
  absent : taken = false → r = .absent
  below : r.id < n

theorem IsSlot.mono {n m : Nat} {taken : Bool} {r : Reg} (h : IsSlot n taken r) (hle : n ≤ m) :
    IsSlot m taken r := ⟨h.valid, h.absent, h.below.trans_le hle⟩

/-- A register holds what it held. -/
theorem IsSlot.value_eq {n : Nat} {taken : Bool} {r : Reg} (h : IsSlot n taken r) {vars' : Vars}
    (hagree : AgreeBelow n vars vars') :
    r.value { ρ₀ with var := vars' } = r.value { ρ₀ with var := vars } := by
  rw [Reg.value, Reg.value]
  split
  · next hheld => exact (hagree _ _ hheld.2 h.below).symm
  · rfl

theorem operandValue_congr (h : AgreeBelow n₀ ρ₀.var vars) (he : e.varsBelow n₀) :
    operandValue { ρ₀ with var := vars } e = operandValue ρ₀ e := by
  cases e with
  | const v p => rfl
  | var kind id =>
    have hid : id < n₀ := of_decide_eq_true he
    rw [operandValue, operandValue, Reg.value, Reg.value]
    split
    · next hheld => exact congrArg some (h kind id hheld.2 hid).symm
    · rfl
  | _ => exact Expr.eval_congr ρ₀ h _ he

theorem value_eq_termValue (h : (operandValue ρ₀ e).isSome) :
    operandValue ρ₀ e = some (termValue ρ₀ e) := by
  rw [termValue]
  cases heq : operandValue ρ₀ e with
  | none =>
    rw [heq] at h
    cases h
  | some v => rfl

/-- What a step leaves after copies: the assignments so far, and a register with a value. -/
structure Holds (n₀ : Nat) (ρ₀ : Valuation) (vars : Vars) (v : BitVec 64) (c : Compiler) (r : Reg)
    (vars' : Vars) (c' : Compiler) : Prop extends Copied n₀ ρ₀ vars' c' where
  agree' : AgreeBelow (c.vars.length + firstId) vars vars'
  slot : IsSlot (c'.vars.length + firstId) true r
  value : r.value { ρ₀ with var := vars' } = v

/-- A copy to a new variable. -/
theorem toVar_new (hvar : e.isVar = false) (hvalid : e.isValid) (c : Compiler) :
    toVar e c = ((newVar e.kind c).1, { (newVar e.kind c).2 with
      nodes := (newVar e.kind c).2.nodes ++ [((newVar e.kind c).1, e)] }) := by
  unfold toVar
  cases e with
  | var kind id => cases hvar
  | _ =>
    dsimp only
    rw [if_neg (by simp [hvalid])]
    rfl

/-- A variable, or a copy to one, holds the value of the term. -/
theorem toVar_holds (hc : Copied n₀ ρ₀ vars c) (hvalid : e.isValid) (he : IsTerm n₀ ρ₀ e)
    (hids : HasIds c.vars.length [e]) :
    ∃ vars', Holds n₀ ρ₀ vars (heldValue ρ₀ e) c (toVar e c).1 vars' (toVar e c).2 ∧
      (toVar e c).2.vars.length = c.vars.length + newVars [e] := by
  have hbad : e.kind ≠ .bad := by simpa [Expr.isValid] using hvalid
  cases hvar : e.isVar with
  | true =>
    cases e with
    | var kind id =>
      have hid : id < n₀ := of_decide_eq_true he.vars
      refine ⟨vars, ⟨hc, AgreeBelow.refl _ _, ⟨hvalid, fun h => Bool.noConfusion h, hid.trans_le hc.le⟩,
        ?_⟩, rfl⟩
      have hcongr := operandValue_congr hc.agree he.vars
      rw [operandValue, operandValue] at hcongr
      change Reg.value { ρ₀ with var := vars } ⟨kind, id⟩ = _
      rw [Option.some.inj hcongr, heldValue, termValue, operandValue, Option.getD_some]
      split
      · next hvoid => rw [Reg.value, if_neg fun h => h.2 hvoid]
      · rfl
    | _ => cases hvar
  | false =>
    have hid : e.kind = .void ∨ c.vars.length + firstId < 2 ^ 24 := by
      rw [HasIds, hvar, if_neg (by decide)] at hids
      exact hids.1
    have hnew : newVar e.kind c =
        (⟨e.kind, if e.kind = .void then 0 else c.vars.length + firstId⟩,
          { c with vars := c.vars ++ [e.kind] }) := by
      rw [newVar, if_pos ⟨hbad, hid⟩]
    have hlen : (c.vars ++ [e.kind]).length = c.vars.length + 1 := by simp
    have hvalid' : ∀ id, Reg.isValid ⟨e.kind, id⟩ = true := fun _ => hvalid
    rw [toVar_new hvar hvalid, hnew]
    dsimp only
    generalize hid' : (if e.kind = .void then 0 else c.vars.length + firstId) = id'
    have hagree : AgreeBelow (c.vars.length + firstId) vars
        (Valuation.setVar { ρ₀ with var := vars } e.kind id' (termValue ρ₀ e)).var := by
      intro k id hk hlt
      rw [Valuation.setVar]
      dsimp only
      rw [if_neg]
      intro heq
      rw [← heq.1, if_neg hk] at hid'
      omega
    refine ⟨_, ⟨⟨?_, hc.agree.trans (hagree.mono hc.le), ?_⟩, hagree,
      ⟨hvalid, fun h => Bool.noConfusion h, ?_⟩, ?_⟩, ?_⟩
    · rw [runAssigns_concat hc.run, runAssign, if_pos (hvalid' _), operandValue_congr hc.agree he.vars,
        value_eq_termValue he.value]
      rfl
    · dsimp only
      rw [hlen]
      exact hc.le.trans (by omega)
    · dsimp only
      rw [hlen]
      split at hid' <;> omega
    · rw [Reg.value, heldValue]
      by_cases hvoid : e.kind = .void
      · rw [if_neg (fun h => h.2 hvoid), if_pos hvoid]
      · rw [if_pos ⟨hvalid' _, hvoid⟩, if_neg hvoid]
        exact if_pos ⟨rfl, rfl⟩
    · rw [hlen, newVars, List.countP_singleton, hvar]
      rfl

/-! ## Inserting -/

/-- The address has these slots, and is this number. -/
structure Inserted (n₀ : Nat) (ρ₀ : Valuation) (vars : Vars) (s : Slots) (sum : BitVec 64)
    (address : Address) (c : Compiler) : Prop extends Copied n₀ ρ₀ vars c where
  label : address.label.isSome = s.label
  offset : address.offset = s.offset
  base : IsSlot (c.vars.length + firstId) s.base address.base
  index : IsSlot (c.vars.length + firstId) s.index address.index
  scaled : address.scale ≠ .scale0
  sum : address.value { ρ₀ with var := vars } = sum

variable {s : Slots} {sum v : BitVec 64} {address : Address} {vars' : Vars} {c' : Compiler} {r : Reg}

theorem IsSlot.value_free {n : Nat} (h : IsSlot n false r) (ρ : Valuation) : r.value ρ = 0 := by
  rw [Reg.value, h.valid, if_neg fun h => Bool.false_ne_true h.1]

/-- A copy leaves the address as it is. -/
theorem Inserted.copied (h : Inserted n₀ ρ₀ vars s sum address c)
    (hr : Holds n₀ ρ₀ vars v c r vars' c') (hle : c.vars.length ≤ c'.vars.length) :
    Inserted n₀ ρ₀ vars' s sum address c' := by
  have hids : c.vars.length + firstId ≤ c'.vars.length + firstId := by omega
  refine ⟨hr.toCopied, h.label, h.offset, h.base.mono hids, h.index.mono hids, h.scaled, ?_⟩
  rw [← h.sum, Address.value, Address.value, h.base.value_eq hr.agree', h.index.value_eq hr.agree']

/-- A register becomes the base. -/
theorem Inserted.withBase (h : Inserted n₀ ρ₀ vars s sum address c) (hfree : s.base = false)
    (hr : Holds n₀ ρ₀ vars v c r vars' c') (hle : c.vars.length ≤ c'.vars.length) :
    Inserted n₀ ρ₀ vars' { s with base := true } (sum + v) { address with base := r } c' := by
  have hcopied := h.copied hr hle
  refine ⟨hr.toCopied, h.label, h.offset, hr.slot, hcopied.index, h.scaled, ?_⟩
  have hzero := (hfree ▸ hcopied.base).value_free { ρ₀ with var := vars' }
  rw [← hcopied.sum, Address.value, Address.value, hzero, hr.value]
  grind

/-- A register becomes the index. -/
theorem Inserted.withIndex (h : Inserted n₀ ρ₀ vars s sum address c) (hfree : s.index = false)
    (hr : Holds n₀ ρ₀ vars v c r vars' c') (hle : c.vars.length ≤ c'.vars.length) {scale : Scale}
    (hscale : scale ≠ .scale0) :
    Inserted n₀ ρ₀ vars' { s with index := true } (sum + v * BitVec.ofNat 64 scale.val)
      { address with index := r, scale := scale } c' := by
  have hcopied := h.copied hr hle
  refine ⟨hr.toCopied, h.label, h.offset, hcopied.base, hr.slot, hscale, ?_⟩
  have hzero := (hfree ▸ hcopied.index).value_free { ρ₀ with var := vars' }
  rw [← hcopied.sum, Address.value, Address.value, hzero, hr.value]
  grind

/-- What a step makes of an address: when there is a place for the term, and identifiers for its
copies, the slots are filled and the sum grows; without a place the term is refused. -/
def Does (n₀ : Nat) (ρ₀ : Valuation) (sum : BitVec 64) (c : Compiler) (place : Option Placement)
    (result : Option Address × Compiler) : Prop :=
  match place with
  | some p => HasIds c.vars.length p.copies → ∃ address vars', result.1 = some address ∧
      Inserted n₀ ρ₀ vars' p.slots (sum + p.excess) address result.2 ∧
      result.2.vars.length = c.vars.length + newVars p.copies
  | none => result.1 = none

theorem insertFallback_base (h : address.base.isValid = false) (e : Expr) (c : Compiler) :
    address.insertFallback e c = (some { address with base := (toVar e c).1 }, (toVar e c).2) := by
  rw [Address.insertFallback, h, if_pos (by rfl)]
  rfl

theorem insertFallback_index (h : address.base.isValid) (hindex : address.index.isValid = false)
    (e : Expr) (c : Compiler) : address.insertFallback e c =
      (some { address with index := (toVar e c).1, scale := .scale1 }, (toVar e c).2) := by
  rw [Address.insertFallback, h, hindex, if_neg (by decide), if_pos (by rfl)]
  rfl

theorem insertFallback_none (h : address.base.isValid) (hindex : address.index.isValid) (e : Expr)
    (c : Compiler) : address.insertFallback e c = (none, c) := by
  rw [Address.insertFallback, h, hindex, if_neg (by decide), if_neg (by decide)]
  rfl

/-- A term goes to a register, or is refused. -/
theorem insertFallback_does (h : Inserted n₀ ρ₀ vars s sum address c) (hvalid : e.isValid)
    (he : IsTerm n₀ ρ₀ e) :
    Does n₀ ρ₀ (sum + termValue ρ₀ e) c (s.placeRegister ρ₀ e) (address.insertFallback e c) := by
  have hsum : sum + termValue ρ₀ e + (heldValue ρ₀ e - termValue ρ₀ e) = sum + heldValue ρ₀ e := by
    grind
  rw [Slots.placeRegister]
  cases hbase : s.base with
  | false =>
    rw [insertFallback_base (h.base.valid.trans hbase), if_pos (by rfl)]
    intro hids
    obtain ⟨vars', hr, hlen⟩ := toVar_holds h.toCopied hvalid he hids
    have hle : c.vars.length ≤ (toVar e c).2.vars.length := by omega
    refine ⟨_, vars', rfl, ?_, hlen⟩
    rw [hsum]
    exact h.withBase hbase hr hle
  | true =>
    rw [if_neg (by decide)]
    cases hindex : s.index with
    | false =>
      rw [insertFallback_index (h.base.valid.trans hbase) (h.index.valid.trans hindex),
        if_pos (by rfl)]
      intro hids
      obtain ⟨vars', hr, hlen⟩ := toVar_holds h.toCopied hvalid he hids
      have hinserted := h.withIndex hindex hr (by omega) (show Scale.scale1 ≠ .scale0 by decide)
      have hone : heldValue ρ₀ e * BitVec.ofNat 64 Scale.scale1.val = heldValue ρ₀ e :=
        BitVec.mul_one _
      rw [hone, hbase] at hinserted
      refine ⟨_, vars', rfl, ?_, hlen⟩
      rw [hsum]
      exact hinserted
    | true =>
      rw [insertFallback_none (h.base.valid.trans hbase) (h.index.valid.trans hindex),
        if_neg (by decide)]
      exact rfl

/-- A product with a constant, and its factor. -/
theorem scaledIndex_eq_some {x : Expr} {scale : BitVec 64} (h : scaledIndex e = some (x, scale)) :
    ∃ k w p q, e = .tuple k .mul [x, .const w p] q ∧ x.isValid := by
  unfold scaledIndex at h
  split at h
  · next k y w p q =>
    split at h
    · next hvalid =>
      rw [Bool.and_eq_true, Bool.and_eq_true] at hvalid
      cases h
      exact ⟨k, w, p, q, rfl, hvalid.1.1⟩
    · cases h
  · cases h

/-- The factor of a product that has a value. -/
theorem IsTerm.factor {x : Expr} {scale : BitVec 64} (he : IsTerm n₀ ρ₀ e)
    (h : scaledIndex e = some (x, scale)) : IsTerm n₀ ρ₀ x := by
  obtain ⟨k, w, p, q, rfl, -⟩ := scaledIndex_eq_some h
  have hvars := he.vars
  have hvalue := he.value
  rw [Expr.varsBelow, Expr.varsBelowList, Bool.and_eq_true] at hvars
  refine ⟨?_, hvars.1⟩
  change ((Expr.tuple k .mul [x, .const w p] q).eval ρ₀).isSome at hvalue
  rw [Expr.eval, Expr.evalList] at hvalue
  cases x with
  | const v p => rfl
  | var k id => rfl
  | _ =>
    change (Expr.eval ρ₀ _).isSome
    cases heval : Expr.eval ρ₀ _ with
    | none =>
      rw [heval] at hvalue
      cases hvalue
    | some v => rfl

theorem val_ofVal (b : BitVec 8) (h : (Scale.ofVal b).isValid) :
    BitVec.ofNat 64 (Scale.ofVal b).val = b.setWidth 64 := by
  decide +revert

/-- The scale of a constant stands for the constant. -/
theorem val_scaleOf {bits : BitVec 64} (h : (scaleOf bits).isValid) :
    BitVec.ofNat 64 (scaleOf bits).val = bits := by
  rw [scaleOf] at h ⊢
  split at h
  · next hsmall =>
    have hle : bits.toNat ≤ 255 := BitVec.le_def.mp (BitVec.ule_iff_le.mp hsmall)
    rw [if_pos hsmall, val_ofVal _ h]
    apply BitVec.eq_of_toNat_eq
    rw [BitVec.toNat_setWidth, BitVec.toNat_setWidth]
    omega
  · cases h

/-- The product becomes the index, when the constant is a scale. -/
theorem insert_of_product (hvalid : e.toExpr.isValid) (hindex : address.index.isValid = false)
    {x : Expr} {scale : BitVec 64} (hscaled : scaledIndex e = some (x, scale)) (c : Compiler) :
    address.insert e c =
      if (toVar x c).1.isValid && (scaleOf scale).isValid then
        (some { address with index := (toVar x c).1, scale := scaleOf scale }, (toVar x c).2)
      else address.insertFallback e (toVar x c).2 := by
  obtain ⟨k, w, p, q, rfl, -⟩ := scaledIndex_eq_some hscaled
  unfold Address.insert
  rw [if_neg (by simp [hvalid]), hindex]
  dsimp only
  rw [if_neg (by decide), hscaled]
  change (if (toVar x c).1.isValid && (scaleOf scale).isValid then _ else _ : X64M (Option Address))
    (toVar x c).2 = _
  cases (toVar x c).1.isValid && (scaleOf scale).isValid with
  | true => rfl
  | false => rfl

/-- Terms that go to a register. -/
theorem insert_of_other (hvalid : e.toExpr.isValid) (hconst : e.isConst = false)
    (hlabel : e.labelIndex = none)
    (hscaled : (if address.index.isValid then none else scaledIndex e) = none) :
    address.insert e = address.insertFallback e := by
  unfold Address.insert
  rw [if_neg (by simp [hvalid]), hscaled]
  cases e with
  | const w p => cases hconst
  | label i a => cases hlabel
  | _ => rfl

theorem place_of_other (hconst : e.isConst = false) (hlabel : e.labelIndex = none)
    (ρ : Valuation) (s : Slots) : s.place ρ e =
      match if s.index then none else scaledIndex e with
      | some (x, scale) =>
        if (scaleOf scale).isValid then
          some ⟨[x], heldValue ρ x * scale - termValue ρ e, { s with index := true }⟩
        else (s.placeRegister ρ e).map fun p => { p with copies := x :: p.copies }
      | none => s.placeRegister ρ e := by
  unfold Slots.place
  cases e with
  | const w p => cases hconst
  | label i a => cases hlabel
  | _ => rfl

/-- A product that becomes the index, or is copied for nothing. -/
theorem insert_product_does (h : Inserted n₀ ρ₀ vars s sum address c) (hvalid : e.toExpr.isValid)
    (he : IsTerm n₀ ρ₀ e) (hindex : s.index = false) {x : Expr} {scale : BitVec 64}
    (hscaled : scaledIndex e = some (x, scale)) :
    Does n₀ ρ₀ (sum + termValue ρ₀ e) c
      (if (scaleOf scale).isValid then
        some ⟨[x], heldValue ρ₀ x * scale - termValue ρ₀ e, { s with index := true }⟩
      else (s.placeRegister ρ₀ e).map fun p => { p with copies := x :: p.copies })
      (address.insert e c) := by
  obtain ⟨k, w, p, q, heq, hx⟩ := scaledIndex_eq_some hscaled
  have hvalid' : e.isValid := Mir.Compiler.isValid_of_toExpr hvalid
  rw [insert_of_product hvalid (h.index.valid.trans hindex) hscaled]
  cases hscale : (scaleOf scale).isValid with
  | true =>
    rw [if_pos (by rfl)]
    intro hids
    obtain ⟨vars', hr, hlen⟩ := toVar_holds h.toCopied hx (he.factor hscaled) hids
    have hle : c.vars.length ≤ (toVar x c).2.vars.length := by omega
    have hne : scaleOf scale ≠ .scale0 := bne_iff_ne.mp hscale
    have hinserted := h.withIndex hindex hr hle hne
    have hsum : sum + termValue ρ₀ e + (heldValue ρ₀ x * scale - termValue ρ₀ e) =
        sum + heldValue ρ₀ x * scale := by grind
    rw [val_scaleOf hscale] at hinserted
    rw [hr.slot.valid, Bool.and_self, if_pos rfl, hsum]
    exact ⟨_, vars', rfl, hinserted, hlen⟩
  | false =>
    rw [if_neg (by decide), Bool.and_false, if_neg (by decide)]
    cases hplace : s.placeRegister ρ₀ e with
    | none =>
      have hfull : s.base = true := by
        rw [Slots.placeRegister] at hplace
        split at hplace
        · cases hplace
        · next hbase => simpa using hbase
      rw [Slots.placeRegister, hfull, hindex] at hplace
      cases hplace
    | some p =>
      rw [Option.map_some]
      intro hids
      dsimp only at hids ⊢
      rw [← List.singleton_append, hasIds_append] at hids
      obtain ⟨vars', hr, hlen⟩ := toVar_holds h.toCopied hx (he.factor hscaled) hids.1
      have hle : c.vars.length ≤ (toVar x c).2.vars.length := by omega
      have hdoes := insertFallback_does (h.copied hr hle) hvalid' he
      rw [hplace, Does, hlen] at hdoes
      obtain ⟨address', vars'', hresult, hinserted, hlen'⟩ := hdoes hids.2
      refine ⟨address', vars'', hresult, hinserted, ?_⟩
      rw [hlen', Nat.add_assoc, newVars_cons x p.copies]

/-- One more term. -/
theorem insert_does (h : Inserted n₀ ρ₀ vars s sum address c) (hvalid : e.toExpr.isValid)
    (he : IsTerm n₀ ρ₀ e) :
    Does n₀ ρ₀ (sum + termValue ρ₀ e) c (s.place ρ₀ e) (address.insert e c) := by
  have hvalid' : e.isValid := Mir.Compiler.isValid_of_toExpr hvalid
  have hfallback := insertFallback_does h hvalid' he
  cases hconst : e.isConst with
  | true =>
    cases e with
    | const v p =>
      have hplace : s.place ρ₀ (.const v p) =
          if s.offset = 0 ∧ !v.kind.isFloat ∧ v.bits = (v.bits.setWidth 32).signExtend 64 then
            some ⟨[], 0, { s with offset := v.bits.setWidth 32 }⟩
          else s.placeRegister ρ₀ (.const v p) := rfl
      have hinsert : address.insert (.const v p) =
          if s.offset = 0 ∧ !v.kind.isFloat ∧ v.bits = (v.bits.setWidth 32).signExtend 64 then
            pure (some { address with offset := v.bits.setWidth 32 })
          else address.insertFallback (.const v p) := by
        unfold Address.insert
        rw [if_neg (by simp [hvalid]), h.offset]
      rw [hplace, hinsert]
      split
      · next hfits =>
        intro _
        refine ⟨_, vars, rfl, ⟨h.toCopied, h.label, rfl, h.base, h.index, h.scaled, ?_⟩, rfl⟩
        have hoffset : address.offset.signExtend 64 = 0#64 := by
          rw [h.offset, hfits.1]
          rfl
        have hterm : termValue ρ₀ (.const v p) = v.bits := rfl
        rw [← h.sum, Address.value, Address.value, hoffset, hterm, ← hfits.2.2]
        grind
      · exact hfallback
    | _ => cases hconst
  | false =>
    cases hlabel : e.labelIndex with
    | some index =>
      cases e with
      | label i a =>
        have hplace : s.place ρ₀ (.label i a) =
            if !s.label then some ⟨[], 0, { s with label := true }⟩
            else s.placeRegister ρ₀ (.label i a) := rfl
        have hinsert : address.insert (.label i a) =
            if !s.label then pure (some { address with label := some ⟨i, a⟩ })
            else address.insertFallback (.label i a) := by
          unfold Address.insert
          rw [if_neg (by simp [hvalid]), ← h.label, Option.not_isSome]
        rw [hplace, hinsert]
        split
        · next hfree =>
          intro _
          refine ⟨_, vars, rfl, ⟨h.toCopied, rfl, h.offset, h.base, h.index, h.scaled, ?_⟩, rfl⟩
          have hnone : address.label = none := by
            rw [← h.label, Option.not_isSome] at hfree
            exact Option.isNone_iff_eq_none.mp hfree
          have hterm : termValue ρ₀ (.label i a) = ρ₀.label i := rfl
          rw [← h.sum, Address.value, Address.value, hnone, hterm]
          simp only [Option.map_some, Option.map_none, Option.getD_some, Option.getD_none]
          grind
        · exact hfallback
      | _ => cases hlabel
    | none =>
      rw [place_of_other hconst hlabel]
      cases hindex : s.index with
      | true =>
        rw [insert_of_other hvalid hconst hlabel (by rw [h.index.valid, hindex]; rfl)]
        exact hfallback
      | false =>
        rw [if_neg (by decide)]
        cases hscaled : scaledIndex e with
        | none =>
          rw [insert_of_other hvalid hconst hlabel (by rw [hscaled, ite_self])]
          exact hfallback
        | some product => exact insert_product_does h hvalid he hindex hscaled

/-! ## Lists -/

theorem bind_run {α β : Type} (m : X64M α) (f : α → X64M β) (c : Compiler) :
    (m >>= f) c = f (m c).1 (m c).2 := rfl

/-- The first term of a list. -/
theorem insertAll_cons {address' : Address} (h : (address.insert e c).1 = some address')
    (es : List Expr) :
    Address.insertAll (e :: es) address c = Address.insertAll es address' (address.insert e c).2 := by
  rw [Address.insertAll, bind_run, h]

theorem insertAll_refused (h : (address.insert e c).1 = none) (es : List Expr) :
    (Address.insertAll (e :: es) address c).1 = none := by
  rw [Address.insertAll, bind_run, h]
  rfl

/-- A list of terms that an address takes. -/
theorem insertAll_inserted {es : List Expr} (h : Inserted n₀ ρ₀ vars s sum address c)
    (hes : ∀ e ∈ es, IsTerm n₀ ρ₀ e) (hids : HasIds c.vars.length (s.copies ρ₀ es))
    {address' : Address} (hinsert : (Address.insertAll es address c).1 = some address') :
    ∃ vars' s', Inserted n₀ ρ₀ vars' s' (sum + (es.map (termValue ρ₀)).sum + s.excess ρ₀ es) address'
      (Address.insertAll es address c).2 := by
  induction es generalizing vars s sum address c with
  | nil =>
    cases hinsert
    rw [List.map_nil, List.sum_nil, Slots.excess]
    have hsum : sum + 0 + 0 = sum := by grind
    rw [hsum]
    exact ⟨vars, s, h⟩
  | cons e es ih =>
    rw [List.forall_mem_cons] at hes
    have hvalid : e.toExpr.isValid := by
      by_contra hinvalid
      have hnone : (address.insert e c).1 = none := by
        unfold Address.insert
        rw [if_pos (by simpa using hinvalid)]
        rfl
      rw [insertAll_refused hnone] at hinsert
      cases hinsert
    have hdoes := insert_does h hvalid hes.1
    rw [Slots.copies] at hids
    rw [Slots.excess, List.map_cons, List.sum_cons]
    cases hplace : s.place ρ₀ e with
    | none =>
      rw [hplace] at hdoes
      rw [insertAll_refused hdoes] at hinsert
      cases hinsert
    | some p =>
      rw [hplace] at hdoes hids
      dsimp only at hids ⊢
      rw [hasIds_append] at hids
      obtain ⟨next, vars', hresult, hinserted, hlen⟩ := hdoes hids.1
      rw [insertAll_cons hresult] at hinsert ⊢
      rw [← hlen] at hids
      have hsum : sum + (termValue ρ₀ e + (es.map (termValue ρ₀)).sum) +
            (p.excess + p.slots.excess ρ₀ es) =
          sum + termValue ρ₀ e + p.excess + (es.map (termValue ρ₀)).sum + p.slots.excess ρ₀ es := by
        grind
      rw [hsum]
      exact ih hinserted hes.2 hids.2 hinsert

/-! ## Exact sums -/

/-- There is one label at most, no other term is of kind `Void`, and the products with a constant do
not wrap in their kind. -/
structure IsExact (ρ : Valuation) (es : List Expr) : Prop where
  labels : es.countP (fun e => e.labelIndex.isSome) ≤ 1
  kinds : ∀ e ∈ es, e.labelIndex = none → e.kind ≠ .void
  products : ∀ e ∈ es, ∀ x scale, scaledIndex e = some (x, scale) →
    heldValue ρ x * scale = termValue ρ e

theorem excess_placeRegister {p : Placement} (hkind : e.kind ≠ .void) {ρ : Valuation}
    (h : s.placeRegister ρ e = some p) : p.excess = 0 ∧ p.slots.label = s.label := by
  have hheld : heldValue ρ e - termValue ρ e = 0#64 := by
    rw [heldValue, if_neg hkind, BitVec.sub_self]
  rw [Slots.placeRegister] at h
  split at h
  · cases h
    exact ⟨hheld, rfl⟩
  · split at h
    · cases h
      exact ⟨hheld, rfl⟩
    · cases h

/-- The place of a term other than a label. -/
theorem excess_place_of_other {p : Placement} {ρ : Valuation} (hlabel : e.labelIndex = none)
    (hkind : e.kind ≠ .void)
    (hproduct : ∀ x scale, scaledIndex e = some (x, scale) → heldValue ρ x * scale = termValue ρ e)
    (h : s.place ρ e = some p) : p.excess = 0 ∧ p.slots.label = s.label := by
  cases hconst : e.isConst with
  | true =>
    cases e with
    | const v q =>
      rw [Slots.place] at h
      split at h
      · cases h
        exact ⟨rfl, rfl⟩
      · exact excess_placeRegister hkind h
    | _ => cases hconst
  | false =>
    rw [place_of_other hconst hlabel] at h
    split at h
    · next x scale hscaled =>
      have hsome : scaledIndex e = some (x, scale) := by
        split at hscaled
        · cases hscaled
        · exact hscaled
      split at h
      · cases h
        refine ⟨?_, rfl⟩
        dsimp only
        rw [hproduct x scale hsome]
        exact BitVec.sub_self _
      · rw [Option.map_eq_some_iff] at h
        obtain ⟨q, hq, rfl⟩ := h
        have hplaced := excess_placeRegister hkind hq
        exact hplaced
    · exact excess_placeRegister hkind h

theorem excess_eq_zero {ρ : Valuation} {es : List Expr} (h : IsExact ρ es)
    (hlabel : s.label = true → es.countP (fun e => e.labelIndex.isSome) = 0) :
    s.excess ρ es = 0 := by
  induction es generalizing s with
  | nil => rfl
  | cons e es ih =>
    have hlabels := h.labels
    have hkinds := h.kinds
    have hproducts := h.products
    rw [List.forall_mem_cons] at hkinds hproducts
    rw [List.countP_cons] at hlabels hlabel
    rw [Slots.excess]
    cases hplace : s.place ρ e with
    | none => rfl
    | some p =>
      dsimp only
      have hrest : IsExact ρ es := ⟨by omega, hkinds.2, hproducts.2⟩
      have hzero : p.excess = 0 ∧
          (p.slots.label = true → es.countP (fun e => e.labelIndex.isSome) = 0) := by
        cases hindex : e.labelIndex with
        | none =>
          rw [hindex] at hlabel hlabels
          have hother := excess_place_of_other hindex (hkinds.1 hindex) hproducts.1 hplace
          refine ⟨hother.1, ?_⟩
          rw [hother.2]
          simpa using hlabel
        | some index =>
          rw [hindex] at hlabel hlabels
          have hfree : s.label = false := by
            by_contra htaken
            have hcount := hlabel (by simpa using htaken)
            simp at hcount
          have hcount : es.countP (fun e => e.labelIndex.isSome) = 0 := by
            simpa using hlabels
          refine ⟨?_, fun _ => hcount⟩
          cases e with
          | label i a =>
            rw [Slots.place, hfree] at hplace
            cases hplace
            rfl
          | _ => cases hindex
      rw [hzero.1, ih hrest hzero.2]
      rfl

/-! ## Reading back -/

/-- The number in a constant as `Mem` writes it. -/
theorem setWidth_readBack (offset : BitVec 32) :
    (Imm.readBack (.ofInt32 offset)).bits.setWidth 32 = offset := by
  have hlow : (offset.signExtend 64).setWidth 32 = offset := by
    apply BitVec.eq_of_toNat_eq
    rw [BitVec.toNat_setWidth, BitVec.toNat_signExtend, BitVec.toNat_setWidth]
    have hlt := offset.isLt
    split <;> omega
  rw [Imm.readBack]
  split
  · next hdirect =>
    rw [Imm.toConst_directOf _ rfl hdirect]
    exact hlow
  · change (((offset.signExtend 64).setWidth 32).setWidth 64).setWidth 32 = offset
    rw [hlow]
    exact BitVec.setWidth_setWidth_of_le _ (by decide)

/-- All five children of an address, where those that are not there are `Expr{}`. -/
def Address.allChildren (address : Address) : List Expr :=
  let index := address.index.isValid && address.scale.isValid
  [labelExpr address.label,
    if address.offset ≠ 0 then .ofValue (.ofInt32 address.offset) else .none,
    address.base.toExpr,
    if index then address.index.toExpr else .none,
    if index then .ofUint16 .uint8 (BitVec.ofNat 16 address.scale.val) else .none]

/-- The children that are left out at the end are not there. -/
theorem getD_children_create (kind : Kind) (address : Address) (i : Nat) :
    (Mem.create kind address).children.getD i .none = address.allChildren.getD i .none := by
  unfold Mem.create Address.allChildren
  dsimp only
  split
  · rfl
  · split
    · rcases i with _ | _ | _ | _ | _ | i <;> simp
    · next hbase =>
      have hbase' : address.base.toExpr = .none := by
        rw [Reg.toExpr, if_neg hbase]
      split
      · rcases i with _ | _ | _ | _ | _ | i <;> simp [hbase']
      · split
        · rcases i with _ | _ | _ | _ | _ | i <;> simp [hbase']
        · next hlabel =>
          have hlabel' : labelExpr address.label = .none := by
            cases hnone : address.label with
            | none => rfl
            | some l =>
              rw [hnone] at hlabel
              exact absurd rfl hlabel
          rcases i with _ | _ | _ | _ | _ | i <;> simp [hbase', hlabel']

/-- A register comes back from its node. -/
theorem regOf_toExpr {r : Reg} (habsent : r.isValid = false → r = .absent) :
    regOf r.toExpr = r := by
  rw [Reg.toExpr]
  cases hvalid : r.isValid with
  | true => rfl
  | false =>
    rw [habsent hvalid]
    rfl

theorem labelOf_labelExpr (l : Option Label) : labelOf (labelExpr l) = l := by
  cases l <;> rfl

/-- The constant of a scale is read back as the scale. -/
theorem ofVal_scale (scale : Scale) :
    Scale.ofVal ((bitsOf (.ofUint16 .uint8 (BitVec.ofNat 16 scale.val))).setWidth 8) = scale := by
  cases scale <;> rfl

/-- What is read back from the memory operand of an address. Without an index it has no scale. -/
structure ReadsBack (mem : Mem) (address : Address) : Prop where
  label : mem.label = address.label
  offset : mem.offset = address.offset
  base : mem.base = address.base
  index : mem.index = address.index
  scale : mem.scale = if address.index.isValid then address.scale else .scale0

theorem readsBack_create (kind : Kind) {address : Address}
    (hbase : address.base.isValid = false → address.base = .absent)
    (hindex : address.index.isValid = false → address.index = .absent)
    (hscale : address.scale ≠ .scale0) : ReadsBack (Mem.create kind address) address := by
  have hget : ∀ i, (Mem.create kind address).child i = address.allChildren.getD i .none :=
    getD_children_create kind address
  have hscaled : address.scale.isValid = true := bne_iff_ne.mpr hscale
  constructor
  · rw [Mem.label, hget]
    exact labelOf_labelExpr address.label
  · rw [Mem.offset, hget]
    change (bitsOf (if address.offset ≠ 0 then .ofValue (.ofInt32 address.offset) else .none)).setWidth
      32 = address.offset
    split
    · exact setWidth_readBack address.offset
    · next hzero =>
      rw [not_not.mp hzero]
      rfl
  · rw [Mem.base, hget]
    exact regOf_toExpr hbase
  · rw [Mem.index, hget]
    change regOf (if (address.index.isValid && address.scale.isValid) = true then address.index.toExpr
      else .none) = address.index
    rw [hscaled, Bool.and_true]
    cases hvalid : address.index.isValid with
    | false =>
      rw [hindex hvalid]
      rfl
    | true => exact regOf_toExpr hindex
  · rw [Mem.scale, hget]
    change Scale.ofVal ((bitsOf (if (address.index.isValid && address.scale.isValid) = true then
      .ofUint16 .uint8 (BitVec.ofNat 16 address.scale.val) else .none)).setWidth 8) = _
    rw [hscaled, Bool.and_true]
    cases address.index.isValid with
    | false => rfl
    | true => exact ofVal_scale address.scale

/-! ## Addresses and memory operands -/

/-- No part is taken. -/
def Slots.empty : Slots := ⟨false, 0, false, false⟩

/-- `Address{}`, filled with the terms. -/
def collect (es : List Expr) (c : Compiler) : Option Address × Compiler :=
  Address.insertAll es {} { c with nodes := [] }

/-- An address that takes all terms is their sum, and what the terms of kind `Void` and the wrapped
products differ by; with one label at most and exact products that is nothing. The memory operand
has the parts of the address, and a scale when there is an index. -/
theorem collect_denotes {es : List Expr} {c : Compiler} {ρ : Valuation}
    (hes : ∀ e ∈ es, IsTerm (c.vars.length + firstId) ρ e)
    (hids : HasIds c.vars.length (Slots.empty.copies ρ es)) {address : Address}
    (h : (collect es c).1 = some address) (kind : Kind) :
    (∃ ρ', runAssigns (collect es c).2.nodes ρ = some ρ' ∧
      address.value ρ' = (es.map (termValue ρ)).sum + Slots.empty.excess ρ es) ∧
    (IsExact ρ es → Slots.empty.excess ρ es = 0) ∧ ReadsBack (Mem.create kind address) address := by
  have hfree : IsSlot (c.vars.length + firstId) false .absent :=
    ⟨rfl, fun _ => rfl, show 0 < c.vars.length + 0x1000 by omega⟩
  have hempty : Inserted (c.vars.length + firstId) ρ ρ.var .empty 0 {} { c with nodes := [] } :=
    ⟨⟨rfl, AgreeBelow.refl _ _, Nat.le_refl _⟩, rfl, rfl, hfree, hfree, by decide, rfl⟩
  obtain ⟨vars', s', hinserted⟩ := insertAll_inserted hempty hes hids h
  have hsum := hinserted.sum
  rw [show (0 : BitVec 64) + (es.map (termValue ρ)).sum = (es.map (termValue ρ)).sum by grind] at hsum
  refine ⟨⟨_, hinserted.run, hsum⟩, ?_, ?_⟩
  · exact fun hexact => excess_eq_zero hexact fun hlabel => Bool.noConfusion hlabel
  · apply readsBack_create kind _ _ hinserted.scaled
    · intro hinvalid
      rw [hinserted.base.valid] at hinvalid
      exact hinserted.base.absent hinvalid
    · intro hinvalid
      rw [hinserted.index.valid] at hinvalid
      exact hinserted.index.absent hinvalid

/-- A label, an offset, a base and a scaled index. -/
def fourTerms : List Expr :=
  [.const ⟨16, .int32⟩ .direct,
    .tuple .uint64 .mul [.var .uint64 0x1001, .const ⟨8, .uint64⟩ .direct] .direct,
    .var .ptr 0x1000, .label 3 0]

theorem collect_denotes_fourTerms :
    (∃ ρ', runAssigns (collect fourTerms ⟨[.ptr, .uint64], []⟩).2.nodes (Mir.Compiler.allHold 2) =
        some ρ' ∧ Address.value ρ' ⟨some ⟨3, 0⟩, ⟨.ptr, 0x1000⟩, ⟨.uint64, 0x1001⟩, .scale8, 16⟩ =
          (fourTerms.map (termValue (Mir.Compiler.allHold 2))).sum +
            Slots.empty.excess (Mir.Compiler.allHold 2) fourTerms) ∧
      (IsExact (Mir.Compiler.allHold 2) fourTerms →
        Slots.empty.excess (Mir.Compiler.allHold 2) fourTerms = 0) ∧
      ReadsBack (Mem.create .int64 ⟨some ⟨3, 0⟩, ⟨.ptr, 0x1000⟩, ⟨.uint64, 0x1001⟩, .scale8, 16⟩)
        ⟨some ⟨3, 0⟩, ⟨.ptr, 0x1000⟩, ⟨.uint64, 0x1001⟩, .scale8, 16⟩ := by
  have hterms : ∀ e ∈ fourTerms, IsTerm (2 + firstId) (Mir.Compiler.allHold 2) e := by
    intro e he
    simp only [fourTerms, List.mem_cons, List.not_mem_nil, or_false] at he
    rcases he with rfl | rfl | rfl | rfl
    · exact ⟨rfl, rfl⟩
    · exact ⟨by decide, by decide⟩
    · exact ⟨rfl, by decide⟩
    · exact ⟨rfl, rfl⟩
  exact collect_denotes (c := ⟨[.ptr, .uint64], []⟩) hterms trivial rfl .int64

/-- A product that wraps in a narrow kind is not what the address counts for it, and without an index
the scale of the address is not that of the memory operand. -/
theorem not_collect_denotes :
    (¬∀ es c ρ address, (∀ e ∈ es, IsTerm (c.vars.length + firstId) ρ e) →
      HasIds c.vars.length (Slots.empty.copies ρ es) → (collect es c).1 = some address →
      ∃ ρ', runAssigns (collect es c).2.nodes ρ = some ρ' ∧
        address.value ρ' = (es.map (termValue ρ)).sum) ∧
    ¬∀ es c address kind, (collect es c).1 = some address →
      (Mem.create kind address).scale = address.scale := by
  constructor
  · intro h
    have hterms : ∀ e ∈ [Expr.tuple .uint8 .mul [.var .uint8 0x1000, .const ⟨2, .uint8⟩ .direct]
        .direct], IsTerm (1 + firstId) (Mir.Compiler.allHold 200) e := by
      intro e he
      obtain rfl := List.mem_singleton.mp he
      exact ⟨by decide, by decide⟩
    obtain ⟨ρ', hrun, hvalue⟩ := h
      [.tuple .uint8 .mul [.var .uint8 0x1000, .const ⟨2, .uint8⟩ .direct] .direct] ⟨[.uint8], []⟩
      (Mir.Compiler.allHold 200) _ hterms trivial rfl
    cases hrun
    revert hvalue
    decide
  · intro h
    have hscale := h [] ⟨[], []⟩ {} .int64 rfl
    revert hscale
    decide

end OneJit.X64
