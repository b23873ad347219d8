import OneJit.Refines

/-!
# Assignments

What a statement that assigns does to the variables and the memory. A variable is read through
the kind of its node, so two states agree when their variables do for that reading.
-/

namespace OneJit

/-- Memory with the `n` low bytes of a value written at an address, in little-endian order. -/
def storeBytes (mem : BitVec 64 → BitVec 8) (addr v : BitVec 64) (n : Nat) :
    BitVec 64 → BitVec 8 := fun p =>
  if (p - addr).toNat < n then (v >>> (8 * (p - addr).toNat)).setWidth 8 else mem p

/-- Signed and unsigned integers. -/
def Kind.isInteger (k : Kind) : Bool := k.simd == 0 && (k.group == .gInt || k.group == .gUint)

namespace Valuation

def setVar (ρ : Valuation) (k : Kind) (id : Nat) (v : BitVec 64) : Valuation :=
  { ρ with var := fun k' id' => if k' = k ∧ id' = id then v else ρ.var k' id' }

/-- The state after a value is written to the location that an expression denotes. -/
def store (ρ : Valuation) (dst : Expr) (v : BitVec 64) : Option Valuation :=
  match dst with
  | .var k id => some (ρ.setVar k id v)
  | .mem k args _ => do
    let vs ← Expr.evalList ρ args
    some { ρ with mem := storeBytes ρ.mem vs.sum v k.bytes }
  | _ => none

/-- Every location holds the same value. -/
structure Agree (ρ σ : Valuation) : Prop where
  var : ∀ (k : Kind) (id : Nat), k.wrap (ρ.var k id) = k.wrap (σ.var k id)
  mem : ρ.mem = σ.mem
  label : ρ.label = σ.label
  call : ρ.call = σ.call

theorem Agree.refl (ρ : Valuation) : Agree ρ ρ := ⟨fun _ _ => rfl, rfl, rfl, rfl⟩

end Valuation

/-- The value that an assignment stores, from the value of its destination and of its source. -/
def OpStmt2.compute (op : OpStmt2) (k : Kind) (a b : BitVec 64) : Option (BitVec 64) :=
  if op.toOpN ≠ .badN then some (k.tupleOp op.toOpN a b)
  else if op.toOp2 ≠ .bad2 then k.evalBinary op.toOp2 a b
  else none

/-- The effect of an assignment, an increment, a decrement or an expression. -/
def Stmt.exec (ρ : Valuation) : Stmt → Option Valuation
  | .expr e => (e.eval ρ).map fun _ => ρ
  | .stmt1 .inc dst => do
    let a ← dst.eval ρ
    ρ.store dst (dst.kind.wrap (a + 1))
  | .stmt1 .dec dst => do
    let a ← dst.eval ρ
    ρ.store dst (dst.kind.wrap (a - 1))
  | .stmt2 .assign (.expr dst) (.expr src) => do
    let b ← src.eval ρ
    ρ.store dst b
  | .stmt2 op (.expr dst) (.expr src) => do
    let a ← dst.eval ρ
    let b ← src.eval ρ
    let v ← op.compute dst.kind a b
    ρ.store dst v
  | _ => none

/-! ## Writing back what was read -/

theorem getLsbD_loadBytes (mem : BitVec 64 → BitVec 8) (addr : BitVec 64) (n j : Nat)
    (hn : n ≤ 8) : (loadBytes mem addr n).getLsbD j =
      (decide (j < 8 * n) && (mem (addr + BitVec.ofNat 64 (j / 8))).getLsbD (j % 8)) := by
  induction n generalizing addr j with
  | zero => simp [loadBytes]
  | succ n ih =>
    rw [loadBytes, BitVec.getLsbD_or, BitVec.getLsbD_setWidth, BitVec.getLsbD_shiftLeft,
      ih (addr + 1) (j - 8) (by omega)]
    by_cases hlow : j < 8
    · have hdiv : j / 8 = 0 := by omega
      have hmod : j % 8 = j := by omega
      simp [hlow, hdiv, hmod, show j < 64 by omega, show j < 8 * (n + 1) by omega]
    · have hzero : (mem addr).getLsbD j = false := BitVec.getLsbD_of_ge _ _ (by omega)
      have hdiv : (j - 8) / 8 + 1 = j / 8 := by omega
      have hmod : (j - 8) % 8 = j % 8 := by omega
      have haddr : addr + 1 + BitVec.ofNat 64 ((j - 8) / 8) = addr + BitVec.ofNat 64 (j / 8) := by
        rw [← hdiv, BitVec.add_assoc, BitVec.ofNat_add]
        congr 1
        exact BitVec.add_comm _ _
      rw [hzero, hmod, haddr]
      by_cases hj : j < 8 * (n + 1)
      · simp [hlow, hj, show j < 64 by omega, show j - 8 < 8 * n by omega]
      · simp [hj, show ¬(j - 8 < 8 * n) by omega]

theorem isInteger_bytes {k : Kind} (h : k.isInteger) :
    k.isScalar ∧ k.bitsize = 8 * k.bytes ∧ k.bytes ≤ 8 := by
  obtain ⟨e, s⟩ := k
  simp only [Kind.isInteger, Bool.and_eq_true, beq_iff_eq] at h
  obtain ⟨rfl, h⟩ := h
  cases e <;> first | decide | (simp [Kind.group, EKind.kgroup] at h)

theorem storeBytes_load {k : Kind} (h : k.isInteger) (mem : BitVec 64 → BitVec 8)
    (addr : BitVec 64) :
    storeBytes mem addr (k.wrap (loadBytes mem addr k.bytes)) k.bytes = mem := by
  obtain ⟨hscalar, hsize, hle⟩ := isInteger_bytes h
  funext p
  rw [storeBytes]
  split
  · next hlt =>
    apply BitVec.eq_of_getLsbD_eq
    intro i hi
    have hbit : 8 * (p - addr).toNat + i < k.bitsize := by omega
    have hwrap := congrArg (fun x => x.getLsbD (8 * (p - addr).toNat + i))
      (Kind.setWidth_wrap hscalar (loadBytes mem addr k.bytes))
    simp only [BitVec.getLsbD_setWidth, hbit, decide_true, Bool.true_and] at hwrap
    have hdiv : (8 * (p - addr).toNat + i) / 8 = (p - addr).toNat := by omega
    have hmod : (8 * (p - addr).toNat + i) % 8 = i := by omega
    rw [BitVec.getLsbD_setWidth, BitVec.getLsbD_ushiftRight, hwrap,
      getLsbD_loadBytes _ _ _ _ hle, hdiv, hmod, BitVec.ofNat_toNat, BitVec.setWidth_eq]
    have haddr : addr + (p - addr) = p := by
      rw [BitVec.add_comm, BitVec.sub_add_cancel]
    have hbound : 8 * (p - addr).toNat + i < 8 * k.bytes := hsize ▸ hbit
    rw [haddr, decide_eq_true hbound, decide_eq_true hi, Bool.true_and, Bool.true_and]
  · rfl

/-- A destination: a variable or a memory operand of an integer kind. -/
structure Expr.IsPlace (dst : Expr) : Prop where
  typed : dst.typed
  place : dst.type = .var ∨ dst.type = .mem
  integer : dst.kind.isInteger

namespace Expr.IsPlace

variable {dst : Expr}

theorem valueKind (h : dst.IsPlace) : dst.valueKind = dst.kind := by
  cases dst <;> first | rfl | (have hplace := h.place; simp [Expr.type] at hplace)

theorem scalar (h : dst.IsPlace) : dst.kind.isScalar := (isInteger_bytes h.integer).1

theorem normal (h : dst.IsPlace) {ρ : Valuation} {a : BitVec 64} (ha : dst.eval ρ = some a) :
    dst.kind.wrap a = a := by
  have hnormal := eval_normal ρ dst h.typed (h.valueKind ▸ h.scalar) a ha
  rwa [h.valueKind] at hnormal

/-- Writing back the value of a place changes no location. -/
theorem store_self (h : dst.IsPlace) {ρ σ : Valuation} {a : BitVec 64}
    (ha : dst.eval ρ = some a) (hσ : ρ.store dst a = some σ) : σ.Agree ρ := by
  have hinteger := h.integer
  have hscalar := h.scalar
  cases dst with
  | var k id =>
    rw [Expr.eval] at ha
    obtain rfl := Option.some.inj ha
    rw [Valuation.store] at hσ
    obtain rfl := Option.some.inj hσ
    refine ⟨?_, rfl, rfl, rfl⟩
    intro k' id'
    rw [Valuation.setVar]
    dsimp only
    split
    · next heq =>
      have hk : k.isScalar := hscalar
      rw [heq.1, heq.2, Kind.wrap_wrap hk]
    · rfl
  | mem k args p =>
    rw [Expr.eval] at ha
    obtain ⟨vs, hvs, ha⟩ := Option.bind_eq_some_iff.mp ha
    obtain rfl := Option.some.inj ha
    rw [Valuation.store] at hσ
    obtain ⟨us, hus, hσ⟩ := Option.bind_eq_some_iff.mp hσ
    rw [hvs] at hus
    obtain rfl := Option.some.inj hus
    have hk : k.isInteger := hinteger
    rw [storeBytes_load hk] at hσ
    obtain rfl := Option.some.inj hσ
    exact .refl ρ
  | _ => cases hσ

end Expr.IsPlace

end OneJit
