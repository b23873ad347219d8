import OneJit.Effects
import OneJit.Lib.Worlds
import OneJit.Run
import OneJit.Mir.Compiler

/-!
# What a MIR address adds up to

`Address::insert` puts the parts of a sum into the offset, the base and the index of an address. A
constant that becomes the offset goes on to the registers, and what comes when both registers are
taken is dropped.
-/

namespace OneJit

/-- Only the variables below the bound matter. -/
theorem Expr.eval_congr {n : Nat} (ρ : Valuation) {vars : Vars} (h : AgreeBelow n ρ.var vars)
    (e : Expr) (he : e.varsBelow n) : e.eval { ρ with var := vars } = e.eval ρ := by
  have hlist : ∀ xs : List Expr, varsBelowList n xs →
      (∀ x ∈ xs, x.varsBelow n → x.eval { ρ with var := vars } = x.eval ρ) →
      evalList { ρ with var := vars } xs = evalList ρ xs := by
    intro xs
    induction xs with
    | nil => exact fun _ _ => rfl
    | cons x xs ih =>
      intro hxs heval
      rw [varsBelowList, Bool.and_eq_true] at hxs
      rw [List.forall_mem_cons] at heval
      rw [evalList, evalList, heval.1 hxs.1, ih hxs.2 heval.2]
  induction e using Expr.induct with
  | hnone | hconst | hlabel | hftype => rfl
  | hvar k id =>
    rw [eval, eval]
    by_cases hk : k = .void
    · have hvoid : ∀ b, Kind.wrap .void b = 0 := by
        intro b
        rw [Kind.wrap, if_neg (by decide), show b.setWidth Kind.void.bitsize = 0#0 from BitVec.eq_nil _]
        rfl
      rw [hk, hvoid, hvoid]
    · rw [h k id hk (of_decide_eq_true he)]
  | hmem k args p ih => rw [eval, eval, hlist args he ih]
  | hunary k op x p ih => rw [eval, eval, ih he]
  | hbinary k op x y p ihx ihy =>
    rw [varsBelow, Bool.and_eq_true] at he
    rw [eval, eval, ihx he.1, ihy he.2]
  | htuple k op args p ih =>
    rw [eval, eval, hlist args he ih]
    rfl

namespace Mir

open OneJit.Compiler (firstId)

/-! ## Copies -/

/-- The contents of the register of a variable. -/
def register (ρ : Valuation) : Expr → BitVec 64
  | .var k id => ρ.var k id
  | _ => 0

/-- The value of an operand, as the 64 bits of a register. -/
def operandValue (ρ : Valuation) : Expr → Option (BitVec 64)
  | .const v _ => some v.bits
  | .var k id => some (ρ.var k id)
  | e => e.eval ρ

/-- The registers after an instruction that copies an operand to a variable. -/
def runCopy (ρ : Valuation) : Insn → Option Valuation
  | .insn2 (.mov _) (.var k id) e => (operandValue ρ e).map (ρ.setVar k id)
  | _ => none

/-- The registers after instructions that copy. -/
def runCopies (insns : List Insn) (ρ : Valuation) : Option Valuation := insns.foldlM runCopy ρ

/-- One more copy. -/
theorem runCopies_concat {insns : List Insn} {ρ ρ' : Valuation} (h : runCopies insns ρ = some ρ')
    (insn : Insn) : runCopies (insns ++ [insn]) ρ = runCopy ρ' insn := by
  unfold runCopies at h ⊢
  rw [List.foldlM_append, h]
  exact bind_pure (runCopy ρ' insn)

/-- Instructions one of which copies to no variable do not run. -/
theorem runCopies_stuck {insns : List Insn} {op : Op2} {e : Expr}
    (h : Insn.insn2 op .none e ∈ insns) (ρ : Valuation) : runCopies insns ρ = none := by
  have hcopy : ∀ ρ', runCopy ρ' (.insn2 op .none e) = none := by
    intro ρ'
    cases op <;> rfl
  induction insns generalizing ρ with
  | nil => cases h
  | cons insn insns ih =>
    unfold runCopies
    rw [List.foldlM_cons]
    obtain rfl | h := List.mem_cons.mp h
    · rw [hcopy]
      rfl
    · cases runCopy ρ insn with
      | none => rfl
      | some ρ' => exact ih h ρ'

namespace Compiler

/-! ## The places of an address -/

/-- The address that an instruction computes. -/
def Address.value (address : Address) (ρ : Valuation) : BitVec 64 :=
  address.offset + register ρ address.base + register ρ address.index * address.scale

/-- The offset, and which registers of an address are taken. -/
structure Slots where
  offset : BitVec 64
  base : Bool
  index : Bool

/-- Where an expression goes: what is copied to variables for it, unless it is one, and by how much
the address grows beyond the value of the expression. -/
structure Placement where
  copies : List Expr
  excess : BitVec 64
  slots : Slots

/-- A register for the expression. When both are taken it is dropped. -/
def Slots.placeRegister (s : Slots) (e : Expr) (v : BitVec 64) : Placement :=
  if !s.base then ⟨[e], 0, { s with base := true }⟩
  else if !s.index then ⟨[e], 0, { s with index := true }⟩
  else ⟨[], -v, s⟩

/-- The value of an operand where it has one. -/
def partValue (ρ : Valuation) (e : Expr) : BitVec 64 := (operandValue ρ e).getD 0

/-- The places of an expression. A constant that is the offset counts once more in its register, and
a scaled index is multiplied in 64 bits. -/
def Slots.place (s : Slots) (ρ : Valuation) (e : Expr) : Placement :=
  let v := partValue ρ e
  match e with
  | .const c _ =>
    if s.offset = 0 ∧ ¬c.kind.isFloat then
      let p := { s with offset := c.bits }.placeRegister e v
      { p with excess := p.excess + c.bits }
    else s.placeRegister e v
  | _ =>
    match if s.index then .none else scaledIndex e with
    | some (x, scale) =>
      if isScale scale then
        ⟨[x], partValue ρ x * scale - v, { s with index := true }⟩
      else
        let p := s.placeRegister e v
        { p with copies := x :: p.copies }
    | .none => s.placeRegister e v

/-- What is copied to variables for a list of expressions. -/
def Slots.copies (ρ : Valuation) : Slots → List Expr → List Expr
  | _, [] => []
  | s, e :: es => (s.place ρ e).copies ++ (s.place ρ e).slots.copies ρ es

/-- What is counted twice in a list of expressions, less what is dropped. -/
def Slots.excess (ρ : Valuation) : Slots → List Expr → BitVec 64
  | _, [] => 0
  | s, e :: es => (s.place ρ e).excess + (s.place ρ e).slots.excess ρ es

/-- The function has identifiers for the variables that the expressions are copied to. -/
def HasIds (n : Nat) : List Expr → Prop
  | [] => True
  | e :: es => if e.isVar then HasIds n es else n + firstId < 2 ^ 24 ∧ HasIds (n + 1) es

/-- The expression has a value over the variables with a smaller identifier. Neither it nor a factor
of it that may become the index is of kind `Void`. -/
structure Addressable (n : Nat) (ρ : Valuation) (e : Expr) : Prop where
  value : (operandValue ρ e).isSome
  kind : e.kind ≠ .void
  factor : ∀ x scale, scaledIndex e = some (x, scale) → x.kind ≠ .void
  vars : e.varsBelow n

/-- An address without parts. -/
def Address.empty : Address := ⟨0, .none, .none, 1⟩

/-- The instructions that are emitted for an address make it the sum of the expressions, unless one
of them is refused. -/
def SumsUp (es : List Expr) (c : Compiler) (ρ : Valuation) : Prop :=
  ∀ address, (insertAll es .empty { c with nodes := [] }).1 = some address →
    ∃ ρ', runCopies (insertAll es .empty { c with nodes := [] }).2.nodes ρ = some ρ' ∧
      address.value ρ' = (es.map (partValue ρ)).sum

/-! ## Copies to variables -/

variable {n₀ : Nat} {ρ₀ : Valuation} {vars : Vars} {c : Compiler} {e : Expr} {v : BitVec 64}

/-- The instructions so far leave these variables, and the first ones as they were. -/
structure Copied (n₀ : Nat) (ρ₀ : Valuation) (vars : Vars) (c : Compiler) : Prop where
  run : runCopies c.nodes ρ₀ = some { ρ₀ with var := vars }
  agree : AgreeBelow n₀ ρ₀.var vars
  le : n₀ ≤ c.vars.length + firstId

/-- The register of an address is a variable with a smaller identifier, or it is free. -/
def IsSlot (n : Nat) (taken : Bool) (e : Expr) : Prop :=
  if taken then ∃ k id, e = .var k id ∧ k ≠ .void ∧ k ≠ .bad ∧ id < n else e = .none

theorem IsSlot.mono {n m : Nat} {taken : Bool} (h : IsSlot n taken e) (hle : n ≤ m) :
    IsSlot m taken e := by
  unfold IsSlot at h ⊢
  split at h
  · next htaken =>
    obtain ⟨k, id, he, hvoid, hbad, hid⟩ := h
    rw [if_pos htaken]
    exact ⟨k, id, he, hvoid, hbad, hid.trans_le hle⟩
  · next htaken =>
    rw [if_neg htaken]
    exact h

theorem IsSlot.isValid {n : Nat} {taken : Bool} (h : IsSlot n taken e) : e.isValid = taken := by
  unfold IsSlot at h
  split at h
  · next htaken =>
    obtain ⟨k, id, rfl, -, hbad, -⟩ := h
    rw [htaken]
    simpa [Expr.isValid, Expr.kind] using hbad
  · next htaken =>
    rw [h, Bool.eq_false_iff.mpr htaken]
    rfl

variable (ρ₀) in
/-- A register holds what it held. -/
theorem IsSlot.register_eq {n : Nat} {taken : Bool} (h : IsSlot n taken e) {vars' : Vars}
    (hagree : AgreeBelow n vars vars') :
    register { ρ₀ with var := vars' } e = register { ρ₀ with var := vars } e := by
  unfold IsSlot at h
  split at h
  · obtain ⟨k, id, rfl, hvoid, -, hid⟩ := h
    exact (hagree k id hvoid hid).symm
  · rw [h]
    rfl

theorem operandValue_congr (h : AgreeBelow n₀ ρ₀.var vars) (hkind : e.kind ≠ .void)
    (he : e.varsBelow n₀) :
    operandValue { ρ₀ with var := vars } e = operandValue ρ₀ e := by
  cases e with
  | const c p => rfl
  | var k id => exact congrArg some (h k id hkind (of_decide_eq_true he)).symm
  | _ => exact Expr.eval_congr ρ₀ h _ he

/-- A copy to a new variable. -/
theorem copy_run (kind : Kind) (e : Expr) (c : Compiler) :
    (do
      let v ← newVar kind
      add (.insn2 (mirMov v.kind) v e)
      return v : MirM Expr) c =
    ((newVar kind c).1, { (newVar kind c).2 with
      nodes := (newVar kind c).2.nodes ++
        [Insn.insn2 (mirMov (newVar kind c).1.kind) (newVar kind c).1 e] }) := rfl

/-- A copy to a variable, or the variable itself, holds the value of the operand. -/
theorem toVar_copied (hc : Copied n₀ ρ₀ vars c) (hvalid : e.isValid) (hkind : e.kind ≠ .void)
    (he : e.varsBelow n₀) (hv : operandValue ρ₀ e = some v)
    (hid : ¬e.isVar → c.vars.length + firstId < 2 ^ 24) :
    ∃ vars', Copied n₀ ρ₀ vars' (toVar e .none c).2 ∧
      AgreeBelow (c.vars.length + firstId) vars vars' ∧
      IsSlot ((toVar e .none c).2.vars.length + firstId) true (toVar e .none c).1 ∧
      register { ρ₀ with var := vars' } (toVar e .none c).1 = v ∧
      (toVar e .none c).2.vars.length = c.vars.length + if e.isVar then 0 else 1 := by
  have hbad : e.kind ≠ .bad := by simpa [Expr.isValid] using hvalid
  unfold toVar
  rw [if_neg (by simp [hvalid]), if_neg (show ¬Expr.none.isVar = true by simp [Expr.isVar])]
  by_cases hvar : e.isVar
  · rw [if_pos hvar, if_pos hvar]
    cases e with
    | var k id =>
      have hlt : id < n₀ := of_decide_eq_true he
      refine ⟨vars, hc, AgreeBelow.refl _ _, ⟨k, id, rfl, hkind, hbad, hlt.trans_le hc.le⟩, ?_, rfl⟩
      rw [← Option.some.inj hv]
      exact (hc.agree k id hkind hlt).symm
    | _ => cases hvar
  · rw [if_neg hvar, if_neg hvar]
    have hnew : newVar e.kind c =
        (.var e.kind (c.vars.length + firstId), { c with vars := c.vars ++ [e.kind] }) := by
      rw [newVar, if_pos ⟨hbad, .inr (hid hvar)⟩, varOf, if_neg hkind]
    rw [copy_run, hnew]
    have hlen : (c.vars ++ [e.kind]).length = c.vars.length + 1 := by simp
    have hagree : AgreeBelow (c.vars.length + firstId) vars
        (Valuation.setVar { ρ₀ with var := vars } e.kind (c.vars.length + firstId) v).var := by
      intro k id _ hlt
      rw [Valuation.setVar]
      dsimp only
      rw [if_neg]
      intro heq
      omega
    refine ⟨_, ⟨?_, hc.agree.trans (hagree.mono hc.le), ?_⟩, hagree, ?_, ?_, hlen⟩
    · dsimp only
      rw [runCopies_concat hc.run, mirMov, runCopy, operandValue_congr hc.agree hkind he, hv]
      rfl
    · dsimp only
      rw [hlen]
      exact hc.le.trans (by omega)
    · dsimp only
      rw [hlen]
      exact ⟨e.kind, _, rfl, hkind, hbad, by omega⟩
    · exact if_pos ⟨rfl, rfl⟩

/-- Without an identifier the operand is copied to no variable. -/
theorem toVar_stuck (hvalid : e.isValid) (hkind : e.kind ≠ .void) (hvar : ¬e.isVar)
    (hid : ¬c.vars.length + firstId < 2 ^ 24) :
    ∃ op, Insn.insn2 op .none e ∈ (toVar e .none c).2.nodes := by
  unfold toVar
  rw [if_neg (by simp [hvalid]), if_neg (show ¬Expr.none.isVar = true by simp [Expr.isVar]),
    if_neg hvar]
  have hnew : newVar e.kind c = (.none, c) := by
    rw [newVar, if_neg]
    intro h
    exact hid (h.2.resolve_left hkind)
  rw [copy_run, hnew]
  exact ⟨_, List.mem_append_right _ List.mem_cons_self⟩

/-! ## Emitted instructions stay -/

/-- The instructions that a step adds come after those there are. -/
def emissions : Worlds Compiler (List Insn) where
  world := Compiler.nodes
  le insns insns' := insns <+: insns'
  refl := List.prefix_refl
  trans := List.IsPrefix.trans
  inv _ := True

/-- The step only adds instructions. -/
abbrev Appends {α : Type} (m : MirM α) : Prop := ∀ w, emissions.Keeps w m fun _ _ => True

theorem pure_appends {α : Type} (a : α) : Appends (pure a) := fun _ => .pure fun _ _ => trivial

theorem bind_appends {α β : Type} {m : MirM α} {f : α → MirM β} (hm : Appends m)
    (hf : ∀ a, Appends (f a)) : Appends (m >>= f) :=
  fun w => (hm w).bind fun a w' _ _ => hf a w'

theorem ite_appends {α : Type} {p : Prop} [Decidable p] {m m' : MirM α} (hm : Appends m)
    (hm' : Appends m') : Appends (if p then m else m') :=
  fun w => .ite (fun _ => hm w) fun _ => hm' w

theorem add_appends (insn : Insn) : Appends (add insn) :=
  fun _ _ _ _ => ⟨List.prefix_append _ _, trivial, trivial⟩

theorem error_appends (node : Stmt) (msg : String) : Appends (error node msg) :=
  fun _ _ _ _ => ⟨List.prefix_refl _, trivial, trivial⟩

theorem newVar_appends (kind : Kind) : Appends (newVar kind) := by
  intro w c _ _
  unfold newVar
  split
  · exact ⟨List.prefix_refl _, trivial, trivial⟩
  · exact ⟨List.prefix_refl _, trivial, trivial⟩

theorem toVar_appends (e optDst : Expr) : Appends (toVar e optDst) := by
  apply ite_appends
  · exact bind_appends (error_appends _ _) fun _ => pure_appends _
  · apply ite_appends
    · exact bind_appends (add_appends _) fun _ => pure_appends _
    · apply ite_appends
      · exact pure_appends _
      · exact bind_appends (newVar_appends _) fun _ =>
          bind_appends (add_appends _) fun _ => pure_appends _

theorem insertFallback_appends (address : Address) (e : Expr) :
    Appends (insertFallback address e) := by
  apply ite_appends
  · exact bind_appends (toVar_appends _ _) fun _ => pure_appends _
  · apply ite_appends
    · exact bind_appends (toVar_appends _ _) fun _ => pure_appends _
    · exact pure_appends _

theorem insertAddress_appends (address : Address) (e : Expr) :
    Appends (insertAddress address e) := by
  have hfallback : ∀ address, Appends (some <$> insertFallback address e) := by
    intro address w
    exact (insertFallback_appends address e w).map fun _ _ _ _ => trivial
  unfold insertAddress
  apply ite_appends
  · exact pure_appends _
  · split
    · exact hfallback _
    · split
      · apply bind_appends (toVar_appends _ _)
        intro v
        exact ite_appends (pure_appends _) (hfallback _)
      · exact hfallback _

theorem insertAll_appends (es : List Expr) (address : Address) :
    Appends (insertAll es address) := by
  induction es generalizing address with
  | nil => exact pure_appends _
  | cons e es ih =>
    apply bind_appends (insertAddress_appends _ _)
    intro res
    cases res with
    | none => exact pure_appends _
    | some address => exact ih address

/-- An instruction that does not run stays when more expressions are inserted. -/
theorem insertAll_stuck {op : Op2} (h : Insn.insn2 op .none e ∈ c.nodes) (es : List Expr)
    (address : Address) (ρ : Valuation) :
    runCopies (insertAll es address c).2.nodes ρ = none := by
  have hprefix : c.nodes <+: (insertAll es address c).2.nodes :=
    (insertAll_appends es address c.nodes c (List.prefix_refl _) trivial).1
  exact runCopies_stuck (List.IsPrefix.subset hprefix h) ρ

/-! ## Inserting -/

/-- The address has these slots, and is this number. -/
structure Inserted (n₀ : Nat) (ρ₀ : Valuation) (vars : Vars) (s : Slots) (sum : BitVec 64)
    (address : Address) (c : Compiler) : Prop extends Copied n₀ ρ₀ vars c where
  offset : address.offset = s.offset
  base : IsSlot (c.vars.length + firstId) s.base address.base
  index : IsSlot (c.vars.length + firstId) s.index address.index
  sum : address.value { ρ₀ with var := vars } = sum

/-- The number of identifiers that copies take. -/
def newIds (es : List Expr) : Nat := es.countP fun e => !e.isVar

theorem hasIds_append (n : Nat) (es es' : List Expr) :
    HasIds n (es ++ es') ↔ HasIds n es ∧ HasIds (n + newIds es) es' := by
  induction es generalizing n with
  | nil => simp [HasIds, newIds]
  | cons e es ih =>
    rw [List.cons_append, HasIds, HasIds, newIds, List.countP_cons]
    by_cases hvar : e.isVar
    · rw [if_pos hvar, if_pos hvar, ih]
      simp [hvar, newIds]
    · rw [if_neg hvar, if_neg hvar, ih, and_assoc]
      simp [hvar, newIds, Nat.add_assoc, Nat.add_comm 1]

/-- What a step makes of an address: with identifiers for the copies the slots are filled and the sum
grows, and without them the instructions do not run. -/
structure Does (n₀ : Nat) (ρ₀ : Valuation) (p : Placement) (sum : BitVec 64) (c : Compiler)
    (address : Address) (c' : Compiler) : Prop where
  inserted : HasIds c.vars.length p.copies →
    ∃ vars', Inserted n₀ ρ₀ vars' p.slots (sum + p.excess) address c' ∧
      c'.vars.length = c.vars.length + newIds p.copies
  stuck : ¬HasIds c.vars.length p.copies → ∃ op e, Insn.insn2 op .none e ∈ c'.nodes

variable {s : Slots} {sum : BitVec 64} {address : Address}

theorem hasIds_singleton (n : Nat) (e : Expr) :
    HasIds n [e] ↔ (¬e.isVar → n + firstId < 2 ^ 24) := by
  by_cases hvar : e.isVar
  · simp [HasIds, hvar]
  · simp [HasIds, hvar]

theorem newIds_singleton (e : Expr) : newIds [e] = if e.isVar then 0 else 1 := by
  by_cases hvar : e.isVar
  · simp [newIds, hvar]
  · simp [newIds, hvar]

/-- A copied expression becomes the base. -/
theorem Inserted.withBase (h : Inserted n₀ ρ₀ vars s sum address c) (hfree : s.base = false)
    {vars' : Vars} {c' : Compiler} {w : Expr} (hcopied : Copied n₀ ρ₀ vars' c')
    (hagree : AgreeBelow (c.vars.length + firstId) vars vars')
    (hle : c.vars.length ≤ c'.vars.length) (hslot : IsSlot (c'.vars.length + firstId) true w) :
    Inserted n₀ ρ₀ vars' { s with base := true } (sum + register { ρ₀ with var := vars' } w)
      { address with base := w } c' := by
  have hids : c.vars.length + firstId ≤ c'.vars.length + firstId := by omega
  refine ⟨hcopied, h.offset, hslot, h.index.mono hids, ?_⟩
  have hbase : address.base = .none := by simpa [IsSlot, hfree] using h.base
  have hzero : register { ρ₀ with var := vars } address.base = 0#64 := by
    rw [hbase]
    rfl
  have hindex := h.index.register_eq ρ₀ hagree
  rw [← h.sum, Address.value, Address.value, hzero, BitVec.add_zero]
  dsimp only
  rw [hindex, BitVec.add_assoc, BitVec.add_comm (register _ w), ← BitVec.add_assoc]

/-- A copied expression becomes the index. -/
theorem Inserted.withIndex (h : Inserted n₀ ρ₀ vars s sum address c) (hfree : s.index = false)
    {vars' : Vars} {c' : Compiler} {w : Expr} (hcopied : Copied n₀ ρ₀ vars' c')
    (hagree : AgreeBelow (c.vars.length + firstId) vars vars')
    (hle : c.vars.length ≤ c'.vars.length) (hslot : IsSlot (c'.vars.length + firstId) true w)
    (scale : BitVec 64) :
    Inserted n₀ ρ₀ vars' { s with index := true }
      (sum + register { ρ₀ with var := vars' } w * scale)
      { address with index := w, scale := scale } c' := by
  have hids : c.vars.length + firstId ≤ c'.vars.length + firstId := by omega
  refine ⟨hcopied, h.offset, h.base.mono hids, hslot, ?_⟩
  have hindex : address.index = .none := by simpa [IsSlot, hfree] using h.index
  have hzero : register { ρ₀ with var := vars } address.index = 0#64 := by
    rw [hindex]
    rfl
  have hbase := h.base.register_eq ρ₀ hagree
  rw [← h.sum, Address.value, Address.value, hzero, BitVec.zero_mul, BitVec.add_zero]
  dsimp only
  rw [hbase]

/-- An expression goes to a register, or is dropped. -/
theorem insertFallback_does (h : Inserted n₀ ρ₀ vars s sum address c) (hvalid : e.isValid)
    (hkind : e.kind ≠ .void) (he : e.varsBelow n₀) (hv : operandValue ρ₀ e = some v) :
    Does n₀ ρ₀ (s.placeRegister e v) (sum + v) c (insertFallback address e c).1
      (insertFallback address e c).2 := by
  have hstuck : ¬HasIds c.vars.length [e] →
      ∃ op e', Insn.insn2 op .none e' ∈ (toVar e .none c).2.nodes := by
    intro hids
    rw [hasIds_singleton, Classical.not_imp] at hids
    obtain ⟨op, hmem⟩ := toVar_stuck hvalid hkind hids.1 hids.2
    exact ⟨op, e, hmem⟩
  rw [insertFallback, h.base.isValid, h.index.isValid, Slots.placeRegister]
  cases hbase : s.base with
  | false =>
    rw [if_pos (by rfl), if_pos (by rfl)]
    refine ⟨?_, hstuck⟩
    intro hids
    obtain ⟨vars', hcopied, hagree, hslot, hreg, hlen⟩ :=
      toVar_copied h.toCopied hvalid hkind he hv ((hasIds_singleton _ _).mp hids)
    have hinserted := h.withBase hbase hcopied hagree (by omega) hslot
    rw [hreg, ← BitVec.add_zero (sum + v)] at hinserted
    refine ⟨vars', hinserted, ?_⟩
    rw [newIds_singleton]
    exact hlen
  | true =>
    cases hindex : s.index with
    | false =>
      rw [if_neg (by decide), if_pos (by rfl), if_neg (by decide), if_pos (by rfl)]
      refine ⟨?_, hstuck⟩
      intro hids
      obtain ⟨vars', hcopied, hagree, hslot, hreg, hlen⟩ :=
        toVar_copied h.toCopied hvalid hkind he hv ((hasIds_singleton _ _).mp hids)
      have hinserted := h.withIndex hindex hcopied hagree (by omega) hslot 1
      rw [hreg, show v * 1 = v from BitVec.mul_one v, ← BitVec.add_zero (sum + v),
        hbase] at hinserted
      refine ⟨vars', hinserted, ?_⟩
      rw [newIds_singleton]
      exact hlen
    | true =>
      -- both registers are taken
      rw [if_neg (by decide), if_neg (by decide), if_neg (by decide), if_neg (by decide)]
      refine ⟨?_, fun hids => absurd trivial hids⟩
      intro _
      have hsum : sum + v + -v = sum := by
        rw [BitVec.add_assoc, BitVec.add_right_neg, BitVec.add_zero]
      rw [← hsum] at h
      exact ⟨vars, h, rfl⟩

/-- A factor of a product and its scale. -/
theorem scaledIndex_eq_some {x : Expr} {scale : BitVec 64}
    (h : scaledIndex e = some (x, scale)) :
    ∃ k w p q, e = .tuple k .mul [x, .const w p] q ∧ x.isValid ∧ scale = w.bits := by
  unfold scaledIndex at h
  split at h
  · next k y w p q =>
    split at h
    · next hvalid =>
      rw [Bool.and_eq_true, Bool.and_eq_true] at hvalid
      cases h
      exact ⟨k, w, p, q, rfl, hvalid.1.1, rfl⟩
    · cases h
  · cases h

/-- The factor of a product that has a value. -/
theorem factor_value {x : Expr} {scale : BitVec 64} (h : scaledIndex e = some (x, scale))
    (hvalue : (operandValue ρ₀ e).isSome) : operandValue ρ₀ x = some (partValue ρ₀ x) := by
  have hsome : (operandValue ρ₀ x).isSome := by
    obtain ⟨k, w, p, q, rfl, -, -⟩ := scaledIndex_eq_some h
    rw [operandValue, Expr.eval, Expr.evalList] at hvalue
    · cases x with
      | const v p => rfl
      | var k id => rfl
      | _ =>
        rw [operandValue]
        · cases heval : Expr.eval ρ₀ _ with
          | none =>
            rw [heval] at hvalue
            cases hvalue
          | some v => rfl
        all_goals simp
    all_goals simp
  rw [partValue]
  cases heq : operandValue ρ₀ x with
  | none =>
    rw [heq] at hsome
    cases hsome
  | some v => rfl

theorem value_eq (h : (operandValue ρ₀ e).isSome) : operandValue ρ₀ e = some (partValue ρ₀ e) := by
  rw [partValue]
  cases heq : operandValue ρ₀ e with
  | none =>
    rw [heq] at h
    cases h
  | some v => rfl

theorem isValid_of_toExpr (h : e.toExpr.isValid) : e.isValid := by
  unfold Expr.toExpr at h
  split at h
  · exact h
  · cases h

/-- The insertion of a constant. -/
theorem insertAddress_of_const {w : Value} {p : Place}
    (hvalid : (Expr.const w p).toExpr.isValid) (address : Address) :
    insertAddress address (.const w p) = some <$> insertFallback
      (if address.offset = 0 ∧ ¬w.kind.isFloat then { address with offset := w.bits } else address)
      (.const w p) := by
  unfold insertAddress
  rw [if_neg (by simp [hvalid])]
  rfl

/-- The insertion of what is neither a constant nor a product that may be the index. -/
theorem insertAddress_of_other (hvalid : e.toExpr.isValid) (hconst : ∀ w p, e ≠ .const w p)
    {address : Address} (hscaled : (if address.index.isValid then .none else scaledIndex e) = .none) :
    insertAddress address e = some <$> insertFallback address e := by
  unfold insertAddress
  rw [if_neg (by simp [hvalid]), hscaled]
  cases e with
  | const w p => exact absurd rfl (hconst w p)
  | _ => rfl

/-- The insertion of a product, from the variable for its factor. -/
theorem insertAddress_of_product (hvalid : e.toExpr.isValid) {address : Address}
    (hindex : address.index.isValid = false) {x : Expr} {scale : BitVec 64}
    (hscaled : scaledIndex e = some (x, scale)) (c : Compiler) :
    insertAddress address e c =
      if (toVar x .none c).1.isValid && isScale scale then
        (some { address with index := (toVar x .none c).1, scale := scale }, (toVar x .none c).2)
      else (some (insertFallback address e (toVar x .none c).2).1,
        (insertFallback address e (toVar x .none c).2).2) := by
  obtain ⟨k, w, p, q, rfl, -, -⟩ := scaledIndex_eq_some hscaled
  unfold insertAddress
  rw [if_neg (by simp [hvalid]), hindex]
  dsimp only
  rw [if_neg (by decide), hscaled]
  change (if (toVar x .none c).1.isValid && isScale scale then _ else _ : MirM (Option Address))
    (toVar x .none c).2 = _
  cases (toVar x .none c).1.isValid && isScale scale with
  | true => rfl
  | false => rfl

/-- An expression with a place of its own, where it is no scaled index. -/
theorem insertAddress_fallback (h : Inserted n₀ ρ₀ vars s sum address c)
    (hvalid : e.toExpr.isValid) (he : Addressable n₀ ρ₀ e)
    (hconst : ∀ w p, e ≠ .const w p)
    (hscaled : (if s.index then .none else scaledIndex e) = .none) :
    (insertAddress address e c).1 = some (insertFallback address e c).1 ∧
      Does n₀ ρ₀ (s.place ρ₀ e) (sum + partValue ρ₀ e) c (insertFallback address e c).1
        (insertAddress address e c).2 := by
  have hplace : s.place ρ₀ e = s.placeRegister e (partValue ρ₀ e) := by
    unfold Slots.place
    dsimp only
    rw [hscaled]
    cases e with
    | const w p => exact absurd rfl (hconst w p)
    | _ => rfl
  rw [hplace, insertAddress_of_other hvalid hconst (by rwa [h.index.isValid])]
  exact ⟨rfl, insertFallback_does h (isValid_of_toExpr hvalid) he.kind he.vars (value_eq he.value)⟩

/-- A part that is counted again. -/
theorem Does.more {p : Placement} {x : BitVec 64} {c' : Compiler}
    (h : Does n₀ ρ₀ p (sum + x) c address c') :
    Does n₀ ρ₀ { p with excess := p.excess + x } sum c address c' := by
  refine ⟨?_, h.stuck⟩
  intro hids
  obtain ⟨vars', hinserted, hlen⟩ := h.inserted hids
  have hsum : sum + x + p.excess = sum + (p.excess + x) := by
    rw [BitVec.add_assoc, BitVec.add_comm x]
  rw [hsum] at hinserted
  exact ⟨vars', hinserted, hlen⟩

/-- A constant becomes the offset when there is none, and goes on to a register. -/
theorem insertAddress_const (h : Inserted n₀ ρ₀ vars s sum address c) {w : Value} {p : Place}
    (hvalid : (Expr.const w p).toExpr.isValid) (he : Addressable n₀ ρ₀ (.const w p)) :
    ∃ address', (insertAddress address (.const w p) c).1 = some address' ∧
      Does n₀ ρ₀ (s.place ρ₀ (.const w p)) (sum + partValue ρ₀ (.const w p)) c address'
        (insertAddress address (.const w p) c).2 := by
  have hfallback : ∀ {s sum address}, Inserted n₀ ρ₀ vars s sum address c →
      Does n₀ ρ₀ (s.placeRegister (.const w p) w.bits) (sum + w.bits) c
        (insertFallback address (.const w p) c).1 (insertFallback address (.const w p) c).2 :=
    fun h => insertFallback_does h (isValid_of_toExpr hvalid) he.kind he.vars rfl
  rw [insertAddress_of_const hvalid, h.offset, Slots.place]
  change ∃ address', _ ∧ Does n₀ ρ₀ (if s.offset = 0 ∧ ¬w.kind.isFloat then _ else _) (sum + w.bits) c
    address' _
  by_cases hoffset : s.offset = 0 ∧ ¬w.kind.isFloat
  · rw [if_pos hoffset, if_pos hoffset]
    have hmoved : Inserted n₀ ρ₀ vars { s with offset := w.bits } (sum + w.bits)
        { address with offset := w.bits } c := by
      refine ⟨h.toCopied, rfl, h.base, h.index, ?_⟩
      have hsum := h.sum
      rw [Address.value, h.offset, hoffset.1] at hsum
      rw [Address.value, ← hsum]
      dsimp only
      grind
    exact ⟨_, rfl, (hfallback hmoved).more⟩
  · rw [if_neg hoffset, if_neg hoffset]
    exact ⟨_, rfl, hfallback h⟩

/-- A part of the address is left as it is by a copy. -/
theorem Inserted.copied (h : Inserted n₀ ρ₀ vars s sum address c) {vars' : Vars} {c' : Compiler}
    (hcopied : Copied n₀ ρ₀ vars' c') (hagree : AgreeBelow (c.vars.length + firstId) vars vars')
    (hle : c.vars.length ≤ c'.vars.length) : Inserted n₀ ρ₀ vars' s sum address c' := by
  have hids : c.vars.length + firstId ≤ c'.vars.length + firstId := by omega
  refine ⟨hcopied, h.offset, h.base.mono hids, h.index.mono hids, ?_⟩
  rw [← h.sum, Address.value, Address.value, h.base.register_eq _ hagree,
    h.index.register_eq _ hagree]

/-- A product with a constant that is a scale becomes the index. -/
theorem insertAddress_scaled (h : Inserted n₀ ρ₀ vars s sum address c) {x : Expr}
    {scale : BitVec 64} (hvalid : e.toExpr.isValid) (he : Addressable n₀ ρ₀ e)
    (hindex : s.index = false) (hscaled : scaledIndex e = some (x, scale)) :
    ∃ address', (insertAddress address e c).1 = some address' ∧
      Does n₀ ρ₀ (s.place ρ₀ e) (sum + partValue ρ₀ e) c address' (insertAddress address e c).2 := by
  obtain ⟨k, w, p, q, heq, hx, -⟩ := scaledIndex_eq_some hscaled
  have hxvoid : x.kind ≠ .void := he.factor x scale hscaled
  have hxvars : x.varsBelow n₀ := by
    have hvars := he.vars
    rw [heq, Expr.varsBelow, Expr.varsBelowList, Bool.and_eq_true] at hvars
    exact hvars.1
  have hplace : s.place ρ₀ e = if isScale scale then
        ⟨[x], partValue ρ₀ x * scale - partValue ρ₀ e, { s with index := true }⟩
      else { s.placeRegister e (partValue ρ₀ e) with
        copies := x :: (s.placeRegister e (partValue ρ₀ e)).copies } := by
    rw [Slots.place]
    dsimp only
    rw [hindex, if_neg (by decide), hscaled]
    intro w p hconst
    rw [heq] at hconst
    cases hconst
  rw [hplace, insertAddress_of_product hvalid (h.index.isValid.trans hindex) hscaled c]
  by_cases hids : HasIds c.vars.length [x]
  · obtain ⟨vars', hcopied, hagree, hslot, hreg, hlen⟩ := toVar_copied h.toCopied hx hxvoid hxvars
      (factor_value hscaled he.value) ((hasIds_singleton _ _).mp hids)
    have hle : c.vars.length ≤ (toVar x .none c).2.vars.length := by omega
    rw [hslot.isValid, Bool.true_and]
    cases hscale : isScale scale with
    | true =>
      rw [if_pos (by rfl), if_pos (by rfl)]
      refine ⟨_, rfl, ?_, fun h => absurd hids h⟩
      intro _
      have hinserted := h.withIndex hindex hcopied hagree hle hslot scale
      have hsum : sum + partValue ρ₀ x * scale =
          sum + partValue ρ₀ e + (partValue ρ₀ x * scale - partValue ρ₀ e) := by
        rw [BitVec.add_assoc, BitVec.add_comm (partValue ρ₀ e), BitVec.sub_add_cancel]
      rw [hreg, hsum] at hinserted
      refine ⟨vars', hinserted, ?_⟩
      rw [newIds_singleton]
      exact hlen
    | false =>
      rw [if_neg (by decide), if_neg (by decide)]
      have hdoes := insertFallback_does (h.copied hcopied hagree hle) (isValid_of_toExpr hvalid)
        he.kind he.vars (value_eq he.value)
      have hboth : ∀ es, HasIds c.vars.length (x :: es) ↔
          HasIds (toVar x .none c).2.vars.length es := by
        intro es
        rw [hlen, ← newIds_singleton, ← List.singleton_append, hasIds_append]
        exact and_iff_right hids
      refine ⟨_, rfl, ?_, fun hnot => hdoes.stuck fun h => hnot ((hboth _).mpr h)⟩
      intro hall
      obtain ⟨vars'', hinserted, hlen'⟩ := hdoes.inserted ((hboth _).mp hall)
      refine ⟨vars'', hinserted, ?_⟩
      rw [hlen', hlen, ← newIds_singleton]
      simp [newIds, Nat.add_assoc, Nat.add_comm, List.countP_cons]
  · -- the factor is copied to no variable
    have hnot : ∀ es, ¬HasIds c.vars.length (x :: es) := by
      intro es h
      rw [← List.singleton_append, hasIds_append] at h
      exact hids h.1
    rw [hasIds_singleton, Classical.not_imp] at hids
    obtain ⟨op, hmem⟩ := toVar_stuck hx hxvoid hids.1 hids.2
    split
    · refine ⟨_, rfl, ?_, fun _ => ⟨op, x, hmem⟩⟩
      intro h
      split at h
      · exact absurd h (hnot _)
      · exact absurd h (hnot _)
    · have hprefix := (insertFallback_appends address e _ (toVar x .none c).2 (List.prefix_refl _)
        trivial).1
      refine ⟨_, rfl, ?_, fun _ => ⟨op, x, List.IsPrefix.subset hprefix hmem⟩⟩
      intro h
      split at h
      · exact absurd h (hnot _)
      · exact absurd h (hnot _)

/-- One more expression. -/
theorem insertAddress_does (h : Inserted n₀ ρ₀ vars s sum address c) (hvalid : e.toExpr.isValid)
    (he : Addressable n₀ ρ₀ e) :
    ∃ address', (insertAddress address e c).1 = some address' ∧
      Does n₀ ρ₀ (s.place ρ₀ e) (sum + partValue ρ₀ e) c address' (insertAddress address e c).2 := by
  by_cases hconst : ∃ w p, e = .const w p
  · obtain ⟨w, p, rfl⟩ := hconst
    exact insertAddress_const h hvalid he
  · have hother : ∀ w p, e ≠ .const w p := fun w p heq => hconst ⟨w, p, heq⟩
    cases hindex : s.index with
    | true => exact ⟨_, insertAddress_fallback h hvalid he hother (by rw [hindex]; rfl)⟩
    | false =>
      cases hscaled : scaledIndex e with
      | none => exact ⟨_, insertAddress_fallback h hvalid he hother (by rw [hscaled, ite_self])⟩
      | some product => exact insertAddress_scaled h hvalid he hindex hscaled

/-! ## Lists -/

/-- An expression with a node is never refused. -/
theorem insertAddress_some (hvalid : e.toExpr.isValid) (address : Address) (c : Compiler) :
    ∃ address', (insertAddress address e c).1 = some address' := by
  by_cases hconst : ∃ w p, e = .const w p
  · obtain ⟨w, p, rfl⟩ := hconst
    rw [insertAddress_of_const hvalid]
    exact ⟨_, rfl⟩
  · cases hscaled : if address.index.isValid then none else scaledIndex e with
    | none =>
      rw [insertAddress_of_other hvalid (fun w p heq => hconst ⟨w, p, heq⟩) hscaled]
      exact ⟨_, rfl⟩
    | some product =>
      cases hindex : address.index.isValid with
      | true => simp [hindex] at hscaled
      | false =>
        rw [hindex, if_neg (by decide)] at hscaled
        rw [insertAddress_of_product hvalid hindex hscaled]
        split
        · exact ⟨_, rfl⟩
        · exact ⟨_, rfl⟩

/-- The first expression of a list. -/
theorem insertAll_cons {address' : Address} (h : (insertAddress address e c).1 = some address')
    (es : List Expr) :
    insertAll (e :: es) address c = insertAll es address' (insertAddress address e c).2 := by
  have hrun : ∀ {α β : Type} (m : MirM α) (f : α → MirM β), (m >>= f) c = f (m c).1 (m c).2 :=
    fun _ _ => rfl
  rw [insertAll, hrun, h]

theorem insertAll_some {es : List Expr} (hvalid : ∀ e ∈ es, e.toExpr.isValid) (address : Address)
    (c : Compiler) : ∃ address', (insertAll es address c).1 = some address' := by
  induction es generalizing address c with
  | nil => exact ⟨address, rfl⟩
  | cons e es ih =>
    rw [List.forall_mem_cons] at hvalid
    obtain ⟨address', hinsert⟩ := insertAddress_some hvalid.1 address c
    rw [insertAll_cons hinsert]
    exact ih hvalid.2 address' _

/-- A list with an invalid expression is refused. -/
theorem insertAll_none {es : List Expr} (h : ∃ e ∈ es, ¬e.toExpr.isValid) (address : Address)
    (c : Compiler) : (insertAll es address c).1 = .none := by
  induction es generalizing address c with
  | nil =>
    obtain ⟨e, he, -⟩ := h
    cases he
  | cons e es ih =>
    by_cases hvalid : e.toExpr.isValid
    · obtain ⟨address', hinsert⟩ := insertAddress_some hvalid address c
      rw [insertAll_cons hinsert]
      obtain ⟨e', hmem, hinvalid⟩ := h
      obtain rfl | hmem := List.mem_cons.mp hmem
      · exact absurd hvalid hinvalid
      · exact ih ⟨e', hmem, hinvalid⟩ address' _
    · have hinsert : insertAddress address e = pure .none := by
        unfold insertAddress
        rw [if_pos (by simp [hvalid])]
      rw [insertAll, hinsert]
      rfl

/-- The address of a list of expressions: with identifiers for the copies it is their sum and what
is counted twice, less what is dropped. -/
theorem insertAll_sums {es : List Expr} (h : Inserted n₀ ρ₀ vars s sum address c)
    (hvalid : ∀ e ∈ es, e.toExpr.isValid) (hes : ∀ e ∈ es, Addressable n₀ ρ₀ e)
    (total : BitVec 64) :
    ∃ address', (insertAll es address c).1 = some address' ∧
      ((∃ ρ', runCopies (insertAll es address c).2.nodes ρ₀ = some ρ' ∧ address'.value ρ' = total) ↔
        HasIds c.vars.length (s.copies ρ₀ es) ∧
          sum + (es.map (partValue ρ₀)).sum + s.excess ρ₀ es = total) := by
  induction es generalizing vars s sum address c with
  | nil =>
    refine ⟨address, rfl, ?_⟩
    constructor
    · rintro ⟨ρ', hrun, hvalue⟩
      have hvars := h.run
      change runCopies c.nodes ρ₀ = some ρ' at hrun
      rw [hrun] at hvars
      cases hvars
      refine ⟨trivial, ?_⟩
      rw [← hvalue, h.sum]
      exact (BitVec.add_zero _).trans (BitVec.add_zero _)
    · rintro ⟨-, htotal⟩
      refine ⟨_, h.run, ?_⟩
      rw [h.sum, ← htotal]
      exact ((BitVec.add_zero _).trans (BitVec.add_zero _)).symm
  | cons e es ih =>
    rw [List.forall_mem_cons] at hvalid hes
    obtain ⟨address', hinsert, hdoes⟩ := insertAddress_does h hvalid.1 hes.1
    rw [insertAll_cons hinsert, Slots.copies, Slots.excess, hasIds_append, List.map_cons, List.sum_cons]
    by_cases hids : HasIds c.vars.length (s.place ρ₀ e).copies
    · obtain ⟨vars', hinserted, hlen⟩ := hdoes.inserted hids
      obtain ⟨address'', hrest, hiff⟩ := ih hinserted hvalid.2 hes.2
      refine ⟨address'', hrest, hiff.trans ?_⟩
      rw [hlen, and_iff_right hids]
      have hsum : sum + partValue ρ₀ e + (s.place ρ₀ e).excess + (es.map (partValue ρ₀)).sum +
            (s.place ρ₀ e).slots.excess ρ₀ es =
          sum + (partValue ρ₀ e + (es.map (partValue ρ₀)).sum) +
            ((s.place ρ₀ e).excess + (s.place ρ₀ e).slots.excess ρ₀ es) := by grind
      rw [hsum]
    · obtain ⟨op, e', hmem⟩ := hdoes.stuck hids
      obtain ⟨address'', hrest⟩ := insertAll_some hvalid.2 address' (insertAddress address e c).2
      refine ⟨address'', hrest, ?_⟩
      rw [insertAll_stuck hmem]
      constructor
      · rintro ⟨ρ', hrun, -⟩
        cases hrun
      · intro h
        exact absurd h.1.1 hids

/-- No place is taken. -/
def Slots.empty : Slots := ⟨0, false, false⟩

/-- An address is the sum of the expressions when what it counts twice is what it drops, and there
are identifiers for its registers. -/
theorem sumsUp_iff {es : List Expr} {c : Compiler} {ρ : Valuation}
    (hes : ∀ e ∈ es, e.toExpr.isValid → Addressable (c.vars.length + firstId) ρ e) :
    SumsUp es c ρ ↔ ((∀ e ∈ es, e.toExpr.isValid) →
      HasIds c.vars.length (Slots.empty.copies ρ es) ∧ Slots.empty.excess ρ es = 0) := by
  by_cases hvalid : ∀ e ∈ es, e.toExpr.isValid
  · have hempty : Inserted (c.vars.length + firstId) ρ ρ.var .empty 0 .empty
        { c with nodes := [] } :=
      ⟨⟨rfl, AgreeBelow.refl _ _, Nat.le_refl _⟩, rfl, rfl, rfl, rfl⟩
    obtain ⟨address, hinsert, hiff⟩ := insertAll_sums hempty hvalid
      (fun e he => hes e he (hvalid e he)) (es.map (partValue ρ)).sum
    have hzero : (0 : BitVec 64) + (es.map (partValue ρ)).sum + Slots.empty.excess ρ es =
        (es.map (partValue ρ)).sum ↔ Slots.empty.excess ρ es = 0 := by
      constructor
      · intro h
        grind
      · intro h
        grind
    rw [hzero] at hiff
    rw [SumsUp, hinsert]
    constructor
    · intro h _
      exact hiff.mp (h address rfl)
    · intro h address' heq
      rw [← Option.some.inj heq]
      exact hiff.mpr (h hvalid)
  · constructor
    · intro _ h
      exact absurd h hvalid
    · intro _ address heq
      rw [insertAll_none (by simpa using hvalid)] at heq
      cases heq

/-- A pointer and an integer in variables. -/
def pointerAndInteger : List Expr := [.var .ptr 0x1000, .var .int64 0x1001]

/-- Every variable holds this number. -/
def allHold (v : BitVec 64) : Valuation := ⟨fun _ _ => v, fun _ => 0, fun _ => 0, fun _ _ => 0⟩

/-- Two variables are a base and an index. -/
theorem pointerAndInteger_sumsUp :
    SumsUp pointerAndInteger ⟨[.ptr, .int64], 0, [], []⟩ (allHold 8) := by
  have haddressable : ∀ e ∈ pointerAndInteger,
      e.toExpr.isValid → Addressable (2 + firstId) (allHold 8) e := by
    intro e he _
    simp only [pointerAndInteger, List.mem_cons, List.not_mem_nil, or_false] at he
    obtain rfl | rfl := he
    · exact ⟨rfl, by decide, fun x scale h => (by cases h), by decide⟩
    · exact ⟨rfl, by decide, fun x scale h => (by cases h), by decide⟩
  apply (sumsUp_iff haddressable).mpr
  intro _
  exact ⟨trivial, by decide⟩

/-- A constant is the offset, and the base once more. -/
theorem not_sumsUp_const : ¬∀ es c ρ, (∀ e ∈ es, e.toExpr.isValid →
    Addressable (c.vars.length + firstId) ρ e) → SumsUp es c ρ := by
  intro h
  have haddressable : ∀ e ∈ [Expr.const ⟨5, .int64⟩ .direct],
      e.toExpr.isValid → Addressable (0 + firstId) (allHold 0) e := by
    intro e he _
    obtain rfl := List.mem_singleton.mp he
    exact ⟨rfl, by decide, fun x scale h => (by cases h), rfl⟩
  obtain ⟨ρ', hrun, hvalue⟩ := h [.const ⟨5, .int64⟩ .direct] ⟨[], 0, [], []⟩ (allHold 0)
    haddressable _ rfl
  cases hrun
  revert hvalue
  decide

end Compiler

end Mir

end OneJit
