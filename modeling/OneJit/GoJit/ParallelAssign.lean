import OneJit.GoJit.Forwarding
import Mathlib.Data.List.Forall2

/-!
# Assignments of several values

`StmtN` evaluates its sources first and assigns them one after the other. A source that is a register
is left in place, so that it has its value only as long as no earlier destination is that register.
-/

namespace OneJit.GoJit

/-! ## Moves one after the other -/

/-- A move from the second operand to the first. -/
def assignOne (M : Machine) (τ : SoftState) (p : Leaf × Leaf) : SoftState :=
  if p.2 = p.1 then τ else M.put τ (p.2.number τ) p.1

/-- The operands are the same register. -/
def Leaf.Same : Leaf → Leaf → Prop
  | .arg (.reg r), .arg (.reg r') => r.id = r'.id
  | .soft s, .soft s' => s.id = s'.id
  | _, _ => False

/-- The operands are not the same location. -/
def Leaf.Distinct (τ : SoftState) : Leaf → Leaf → Prop
  | .arg (.mem m), .arg (.mem m') => ∀ x, ¬ ((x - τ.state.addr m).toNat < m.reg.kind.size ∧
      (x - τ.state.addr m').toNat < m'.reg.kind.size)
  | d, d' => ¬ d.Same d'

/-- The first operand is not the base register of the second. -/
def Leaf.NotBase : Leaf → Leaf → Prop
  | .arg (.reg r), .arg (.mem m) => r.id ≠ m.reg.id
  | _, _ => True

/-- The operands are apart: a write to one of them does not change the other one. -/
structure Apart (τ : SoftState) (d d' : Leaf) : Prop where
  distinct : d.Distinct τ d'
  left : d.NotBase d'
  right : d'.NotBase d

section Moves

variable {M : Machine} {τ τ' : SoftState} {d d' e : Leaf} {v : BitVec 64}

theorem load_congr {σ σ' : State} {n : Nat} (hn : n ≤ 2 ^ 64) {a : BitVec 64}
    (h : ∀ x, (x - a).toNat < n → σ'.mem x = σ.mem x) : σ'.load a n = σ.load a n := by
  induction n generalizing a with
  | zero => rfl
  | succ n ih =>
    have hhead : σ'.mem a = σ.mem a := h a (by simp)
    have htail : σ'.load (a + 1) n = σ.load (a + 1) n := by
      refine ih (by omega) fun x hx => h x ?_
      have hsub : x - a = (x - (a + 1)) + 1 := by bv_omega
      rw [hsub, BitVec.toNat_add]
      exact lt_of_le_of_lt (Nat.mod_le _ _) (by simpa using hx)
    rw [State.load, State.load, hhead, htail]

/-- A memory operand has its number as long as its address and its bytes are the same. -/
theorem number_mem_congr {σ σ' : State} {m : Mem} (haddr : σ'.addr m = σ.addr m)
    (hmem : ∀ x, (x - σ.addr m).toNat < m.reg.kind.size → σ'.mem x = σ.mem x) :
    σ'.number (.mem m) = σ.number (.mem m) := by
  have hsize : m.reg.kind.size ≤ 2 ^ 64 := le_trans (Kind.size_le _) (by decide)
  rw [number_mem, number_mem, haddr, load_congr hsize hmem]

/-- A write to another location leaves the number of a destination. -/
theorem number_put_of_distinct (h : d.Distinct τ d') (hbase : d.NotBase d') :
    d'.number (M.put τ v d) = d'.number τ := by
  cases d with
  | soft s =>
    cases d' with
    | arg a => rfl
    | soft s' =>
      have hne : s'.id ≠ s.id := fun heq => h heq.symm
      show s'.kind.extend (Function.update τ.soft s.id _ s'.id) = _
      rw [Function.update_of_ne hne]
      rfl
  | arg a =>
    cases a with
    | const c => rfl
    | reg r =>
      cases d' with
      | soft s' => rfl
      | arg a' =>
        cases a' with
        | const c => rfl
        | reg r' =>
          have hne : r'.id ≠ r.id := fun heq => h heq.symm
          show r'.kind.extend (Function.update τ.state.regs r.id _ r'.id) = _
          rw [Function.update_of_ne hne]
          rfl
        | mem m =>
          have hne : m.reg.id ≠ r.id := Ne.symm hbase
          refine number_mem_congr (congrArg (· + m.off.signExtend 64) ?_) fun _ _ => rfl
          exact Function.update_of_ne hne _ _
    | mem m =>
      cases d' with
      | soft s' => rfl
      | arg a' =>
        cases a' with
        | const c => rfl
        | reg r' => rfl
        | mem m' =>
          refine number_mem_congr rfl fun x hx => if_neg fun hx' => ?_
          exact h x ⟨hx', hx⟩

theorem Apart.number_put (h : Apart τ d d') : d'.number (M.put τ v d) = d'.number τ :=
  number_put_of_distinct h.distinct h.left

/-- A write to one destination leaves the others apart. -/
theorem Apart.put {d₀ : Leaf} (h : Apart τ d d') (hd : d₀.NotBase d) (hd' : d₀.NotBase d') :
    Apart (M.put τ v d₀) d d' := by
  refine ⟨?_, h.left, h.right⟩
  have haddr : ∀ m, d₀.NotBase (.arg (.mem m)) →
      (M.put τ v d₀).state.addr m = τ.state.addr m := by
    intro m hm
    cases d₀ with
    | soft s => rfl
    | arg a =>
      cases a with
      | const c => rfl
      | mem m' => rfl
      | reg r =>
        have hne : m.reg.id ≠ r.id := Ne.symm hm
        exact congrArg (· + m.off.signExtend 64) (Function.update_of_ne hne _ _)
  have hdist := h.distinct
  cases d with
  | soft s => cases d' <;> exact hdist
  | arg a =>
    cases a with
    | const c => cases d' <;> exact hdist
    | reg r => cases d' <;> exact hdist
    | mem m =>
      cases d' with
      | soft s => exact hdist
      | arg a' =>
        cases a' with
        | const c => exact hdist
        | reg r => exact hdist
        | mem m' =>
          intro x hx
          rw [haddr m hd, haddr m' hd'] at hx
          exact hdist x hx

/-- What a register holds. -/
def Leaf.held (τ : SoftState) : Leaf → BitVec 64
  | .arg (.reg r) => τ.state.regs r.id
  | .soft s => τ.soft s.id
  | _ => 0

variable {p q : Leaf × Leaf} {ps : List (Leaf × Leaf)}

theorem assignOne_self (h : p.2 = p.1) : assignOne M τ p = τ := if_pos h

theorem assignOne_put (h : p.2 ≠ p.1) : assignOne M τ p = M.put τ (p.2.number τ) p.1 := if_neg h

theorem Apart.symm (h : Apart τ d d') : Apart τ d' d := by
  refine ⟨?_, h.right, h.left⟩
  have hdist := h.distinct
  cases d with
  | soft s => cases d' with
    | soft s' => exact fun heq => hdist (Eq.symm heq)
    | arg a' => cases a' <;> exact id
  | arg a =>
    cases a with
    | const c => cases d' with
      | soft s' => exact id
      | arg a' => cases a' <;> exact id
    | reg r => cases d' with
      | soft s' => exact id
      | arg a' =>
        cases a' with
        | reg r' => exact fun heq => hdist (Eq.symm heq)
        | const c => exact id
        | mem m => exact id
    | mem m => cases d' with
      | soft s' => exact id
      | arg a' =>
        cases a' with
        | mem m' => exact fun x hx => hdist x ⟨hx.2, hx.1⟩
        | const c => exact id
        | reg r => exact id

theorem Leaf.NotBase.self : d.NotBase d := by
  cases d with
  | soft s => trivial
  | arg a => cases a <;> trivial

theorem Apart.after (h : Apart τ d d') (hd : p.1.NotBase d) (hd' : p.1.NotBase d') :
    Apart (assignOne M τ p) d d' := by
  by_cases hp : p.2 = p.1
  · rwa [assignOne_self hp]
  · rw [assignOne_put hp]
    exact h.put hd hd'

/-- The destinations are apart from one another. -/
def AllApart (τ : SoftState) (ps : List (Leaf × Leaf)) : Prop :=
  ps.Pairwise fun p q => Apart τ p.1 q.1

theorem AllApart.tail (h : AllApart τ (p :: ps)) : AllApart (assignOne M τ p) ps := by
  obtain ⟨hp, hps⟩ := List.pairwise_cons.mp h
  refine hps.imp_of_mem fun ha hb hab => ?_
  exact hab.after (hp _ ha).left (hp _ hb).left

end Moves

/-! ## The sources of `StmtN` -/

section Sources

variable {M : Machine} {c c' : Comp} {τ τ' : SoftState} {live : Live}

theorem Expr.Proper.kind {e : Expr} (h : e.Proper) : e.kind ≠ .invalid := by
  cases e with
  | leaf l => exact h.1
  | expr1 x op k => exact h.2
  | expr2 x y op k => exact h.2.2

end Sources

/-! ## The statement as a whole -/

section Parallel

variable {M : Machine} {c c' : Comp} {τ τ' : SoftState}

end Parallel

/-- `s0, s1 = s1, s0`. -/
def swap : List (Leaf × Expr) := [(userReg 0, .leaf (userReg 1)), (userReg 1, .leaf (userReg 0))]

end OneJit.GoJit
