import OneJit.Mir.Execution

/-!
# Operands of emitted instructions

What the lowering of an expression leaves: instructions that run to their end and change new
variables only, and an operand that holds the value of the expression until one of its variables is
written. The lowering of a node is put together from those of its operands.
-/

namespace OneJit.Mir

open OneJit.Compiler (firstId)

/-! ## Registers that hold a value -/

/-- A register holds a value of a kind: a kind of 64 bits takes the whole register, and any other
one its lower half. -/
def Holds (k : Kind) (a r : BitVec 64) : Prop := if k.bitsize = 64 then r = a else low r = low a

/-- The value of a pattern is the number in the low bits. -/
theorem wrap_eq_resize (k : Kind) (b : BitVec 64) :
    k.wrap b = resize (k.group = .gInt) k.bitsize b := by
  rw [Kind.wrap, resize]
  simp only [decide_eq_true_eq]

theorem Holds.self (k : Kind) (a : BitVec 64) : Holds k a a := by
  unfold Holds
  split <;> rfl

theorem Holds.low {k : Kind} {a r : BitVec 64} (h : Holds k a r) : Mir.low r = Mir.low a := by
  unfold Holds at h
  split at h
  · rw [h]
  · exact h

/-- The bits of a kind are in the part of the register that it takes. -/
theorem bitsize_le_32 {k : Kind} (h : k.isScalar) (hsize : k.bitsize ≠ 64) : k.bitsize ≤ 32 := by
  revert h hsize
  apply Kind.scalar_cases <;> decide

/-! ## Variables of the function -/

/-- The variables with a smaller identifier are those of the function so far. -/
def Compiler.bound (c : Compiler) : Nat := c.vars.length + firstId

/-- The second state has the variables below the bound, the memory and the rest of the first one. -/
structure Extends (n : Nat) (ρ ρ' : Valuation) : Prop where
  var : AgreeBelow n ρ.var ρ'.var
  mem : ρ'.mem = ρ.mem
  label : ρ'.label = ρ.label
  call : ρ'.call = ρ.call

namespace Extends

variable {n m : Nat} {ρ ρ' ρ'' : Valuation}

theorem refl (n : Nat) (ρ : Valuation) : Extends n ρ ρ := ⟨.refl n ρ.var, rfl, rfl, rfl⟩

end Extends

namespace Operand

/-- If it is a variable, it is one below the bound, and not of kind `Void`. -/
def PartBelow (n : Nat) : Expr → Prop
  | .var k id => k ≠ .void ∧ id < n
  | _ => True

/-- An operand that reads variables below the bound. -/
def Below (n : Nat) : Expr → Prop
  | .const _ _ => True
  | .var k id => k ≠ .void ∧ id < n
  | .mem _ args _ => ∀ e ∈ args, PartBelow n e
  | _ => False

variable {n m : Nat} {ρ ρ' : Valuation} {e : Expr}

theorem PartBelow.mono (h : PartBelow n e) (hle : n ≤ m) : PartBelow m e := by
  cases e with
  | var k id => exact ⟨h.1, h.2.trans_le hle⟩
  | _ => trivial

end Operand

/-! ## What a step of the lowering leaves -/

/-- Numbers of new variables and of new labels. -/
structure Needs where
  vars : Nat
  labels : Nat

namespace Needs

def none : Needs := ⟨0, 0⟩

def add (r r' : Needs) : Needs := ⟨r.vars + r'.vars, r.labels + r'.labels⟩

@[simp] theorem add_vars (r r' : Needs) : (r.add r').vars = r.vars + r'.vars := rfl

@[simp] theorem add_labels (r r' : Needs) : (r.add r').labels = r.labels + r'.labels := rfl

/-- The function has identifiers and labels left for them. -/
structure Fits (r : Needs) (c : Compiler) : Prop where
  vars : c.bound + r.vars ≤ 2 ^ 24
  labels : c.labels + r.labels ≤ 0xFFFF + 1

/-- No more than them have been made. -/
structure Made (r : Needs) (c c' : Compiler) : Prop where
  vars_le : c.bound ≤ c'.bound
  vars : c'.bound ≤ c.bound + r.vars
  labels : c'.labels ≤ c.labels + r.labels

variable {r r' : Needs} {c c' c'' : Compiler}

theorem Made.refl (c : Compiler) : Made none c c := ⟨Nat.le_refl _, Nat.le_refl _, Nat.le_refl _⟩

theorem Fits.clear (h : r.Fits c) : r.Fits { c with nodes := [] } := ⟨h.vars, h.labels⟩

theorem Fits.left (h : (r.add r').Fits c) : r.Fits c := by
  obtain ⟨hvars, hlabels⟩ := h
  rw [add_vars] at hvars
  rw [add_labels] at hlabels
  exact ⟨by omega, by omega⟩

/-- What is left after the first of two steps is enough for the second one. -/
theorem Fits.right (h : (r.add r').Fits c) (hmade : r.Made c c') : r'.Fits c' := by
  obtain ⟨hvars, hlabels⟩ := h
  obtain ⟨-, hvars', hlabels'⟩ := hmade
  rw [add_vars] at hvars
  rw [add_labels] at hlabels
  exact ⟨by omega, by omega⟩

end Needs

/-- The instructions of the second compiler, after those of the first one, lead to the second state,
which has new variables only. -/
structure Reached (start : State) (r : Needs) (c : Compiler) (s : State) (c' : Compiler)
    (s' : State) : Prop where
  run : run c'.nodes start = some s'
  regs : Extends c.bound s.regs s'.regs
  made : r.Made c c'

namespace Reached

variable {start s s' s'' : State} {r r' : Needs} {c c' c'' : Compiler}

theorem refl (h : Mir.run c.nodes start = some s) : Reached start .none c s c s :=
  ⟨h, .refl _ _, .refl c⟩

end Reached

/-- From every state in which there is room, the step emits instructions that run, and returns an
operand with the property. -/
def Lowers (n : Nat) (ρ : Valuation) (r : Needs) (m : Mask → MirM Expr)
    (Q : Expr → Valuation → Prop) : Prop :=
  ∀ (mask : Mask) (c : Compiler) (start s : State), mask.const → n ≤ c.bound → r.Fits c →
    Extends n ρ s.regs → run c.nodes start = some s →
    ∃ s', Reached start r c s (m mask c).2 s' ∧ Operand.Below (m mask c).2.bound (m mask c).1 ∧
      Q (m mask c).1 s'.regs

/-- From every state the instructions of the step run, and the operand that it returns is read with
the property. -/
def Computes (m : MirM Expr) (c : Compiler) (ρ : Valuation) (P : BitVec 64 → Prop) : Prop :=
  ∀ upper, ∃ s r, run (emitted m c) ⟨ρ, upper⟩ = some s ∧
    Operand.read s.regs (m { c with nodes := [] }).1 = some r ∧ P r

/-- The operand has the kind, and its contents have the property. -/
def Contains (k : Kind) (P : BitVec 64 → Prop) (e : Expr) (ρ : Valuation) : Prop :=
  e.kind = k ∧ ∃ r, Operand.read ρ e = some r ∧ P r

namespace Compiler

variable {n : Nat} {ρ : Valuation} {k : Kind} {P : BitVec 64 → Prop}

/-- A variable is its own operand. -/
theorem var_lowers {id : Nat} (hk : k ≠ .void) (hid : id < n) (hP : P (ρ.var k id)) :
    Lowers n ρ .none (simplify (.var k id) · .none) (Contains k P) := by
  intro mask c start s _ hn _ hρ hrun
  refine ⟨s, .refl hrun, ⟨hk, hid.trans_le hn⟩, rfl, s.regs.var k id, rfl, ?_⟩
  rwa [← hρ.var k id hk hid]

end Compiler

/-! ## Destinations -/

namespace Operand

/-- A variable or a memory operand of the kind, over variables below the bound. -/
def IsPlace (n : Nat) (k : Kind) : Expr → Prop
  | .var k' id => k' = k ∧ id < n
  | .mem k' args _ => k' = k ∧ ∀ e ∈ args, PartBelow n e
  | _ => False

theorem bytes_le {k : Kind} (h : k.isScalar) : k.bitsize ≤ 8 * k.bytes ∧ k.bytes ≤ 8 := by
  revert h
  apply Kind.scalar_cases <;> decide

/-- What is stored is loaded again. -/
theorem extend_store {k : Kind} (h : k.isScalar) (mem : BitVec 64 → BitVec 8)
    (addr v : BitVec 64) :
    extend k (loadBytes (storeBytes mem addr v k.bytes) addr k.bytes) = extend k v := by
  have hle := (bytes_le h).2
  have hbits : (loadBytes (storeBytes mem addr v k.bytes) addr k.bytes).setWidth (8 * k.bytes) =
      v.setWidth (8 * k.bytes) := by
    apply BitVec.eq_of_getLsbD_eq
    intro i hi
    have hdiv : i / 8 < k.bytes := by omega
    have haddr : (addr + BitVec.ofNat 64 (i / 8) - addr).toNat = i / 8 := by
      rw [BitVec.add_comm, BitVec.add_sub_cancel, BitVec.toNat_ofNat]
      omega
    rw [BitVec.getLsbD_setWidth, getLsbD_loadBytes _ _ _ _ hle, storeBytes, haddr, if_pos hdiv,
      BitVec.getLsbD_setWidth, BitVec.getLsbD_setWidth, BitVec.getLsbD_ushiftRight,
      Nat.div_add_mod]
    simp [hi, Nat.mod_lt]
  exact resize_congr hbits _

/-- What is written to a place is read from it again, as far as the bits of its kind go. -/
theorem write_place {n : Nat} {k : Kind} (hk : k.isScalar) {e : Expr} (he : IsPlace n k e)
    (ρ : Valuation) (v : BitVec 64) :
    ∃ ρ', write ρ e v = some ρ' ∧ ∃ r, read ρ' e = some r ∧ (r = v ∨ r = extend k v) := by
  cases e with
  | var k' id => exact ⟨_, rfl, _, rfl, .inl (if_pos ⟨rfl, rfl⟩)⟩
  | mem k' args p =>
    obtain ⟨rfl, -⟩ := he
    refine ⟨_, rfl, _, rfl, .inr ?_⟩
    have haddr : ∀ ρ' : Valuation, ρ'.var = ρ.var → address ρ' args = address ρ args := by
      intro ρ' h
      have hpart : part ρ' = part ρ := by
        funext e
        cases e with
        | var k id => exact congrFun (congrFun h k) id
        | _ => rfl
      unfold address
      rw [hpart]
    rw [haddr _ rfl]
    exact extend_store hk _ _ _
  | _ => exact he.elim

theorem IsPlace.mono {n m : Nat} {k : Kind} {e : Expr} (he : IsPlace n k e) (hle : n ≤ m) :
    IsPlace m k e := by
  cases e with
  | var k' id => exact ⟨he.1, he.2.trans_le hle⟩
  | mem k' args p => exact ⟨he.1, fun a ha => (he.2 a ha).mono hle⟩
  | _ => exact he.elim

theorem IsPlace.isValid {n : Nat} {k : Kind} (hk : k ≠ .bad) {e : Expr} (he : IsPlace n k e) :
    e.isValid := by
  cases e with
  | var k' id =>
    obtain ⟨rfl, -⟩ := he
    simpa [Expr.isValid, Expr.kind] using hk
  | mem k' args p =>
    obtain ⟨rfl, -⟩ := he
    simpa [Expr.isValid, Expr.kind] using hk
  | _ => exact he.elim

/-- The result of an instruction is read from its destination, as far as the bits of the kind go. -/
theorem put_place {n : Nat} {k : Kind} (hk : k.isScalar) {e : Expr} (he : IsPlace n k e) (s : State)
    (v : BitVec 64) :
    ∃ s' r, s.put e v = some s' ∧ read s'.regs e = some r ∧ (r = v ∨ r = extend k v) := by
  obtain ⟨ρ', hwrite, r, hread, hr⟩ := write_place hk he s.regs v
  exact ⟨s.next ρ', r, congrArg (Option.map s.next) hwrite, hread, hr⟩

end Operand

namespace Compiler

theorem beside_const (e : Expr) : (Mask.beside e).const := by
  rw [Mask.beside]
  split <;> rfl

/-- A new variable. -/
def oneVar : Needs := ⟨1, 0⟩

/-- There is an identifier for a new variable. -/
theorem newVar_fits {k : Kind} (hk : k ≠ .void) (hbad : k ≠ .bad) {c : Compiler}
    (hfits : oneVar.Fits c) :
    newVar k c = (.var k c.bound, { c with vars := c.vars ++ [k] }) := by
  have hid : c.vars.length + firstId < 2 ^ 24 := hfits.vars
  rw [newVar, if_pos ⟨hbad, .inr hid⟩, varOf, if_neg hk]
  rfl

/-- The destination of an instruction is the given one, or a new variable. -/
theorem dstOr_place {n : Nat} {k : Kind} (hk : k.isScalar) {optDst : Expr} {c : Compiler}
    {start s : State} (hdst : optDst = .none ∨ Operand.IsPlace n k optDst) (hn : n ≤ c.bound)
    (hfits : oneVar.Fits c) (hrun : run c.nodes start = some s) :
    Reached start oneVar c s (dstOr optDst k c).2 s ∧
      Operand.IsPlace (dstOr optDst k c).2.bound k (dstOr optDst k c).1 ∧
      (dstOr optDst k c).2.nodes = c.nodes := by
  have hvoid : k ≠ .void := by
    intro h
    rw [h] at hk
    cases hk
  obtain rfl | hplace := hdst
  · have hnew : dstOr .none k c = (.var k c.bound, { c with vars := c.vars ++ [k] }) :=
      newVar_fits hvoid (Kind.ne_bad hk) hfits
    have hbound : ({ c with vars := c.vars ++ [k] } : Compiler).bound = c.bound + 1 := by
      simp [bound]
      omega
    rw [hnew]
    refine ⟨⟨hrun, .refl _ _, ⟨?_, ?_, Nat.le_refl _⟩⟩, ⟨rfl, ?_⟩, rfl⟩
    · rw [hbound]
      exact Nat.le_succ _
    · rw [hbound]
      exact Nat.le_refl _
    · rw [hbound]
      exact Nat.lt_succ_self _
  · have hsame : dstOr optDst k c = (optDst, c) := by
      rw [dstOr, if_pos (hplace.isValid (Kind.ne_bad hk))]
      rfl
    rw [hsame]
    exact ⟨⟨hrun, .refl _ _, ⟨Nat.le_refl _, Nat.le_succ _, Nat.le_refl _⟩⟩, hplace.mono hn, rfl⟩

end Compiler

end OneJit.Mir
