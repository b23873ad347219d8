import OneJit.Jumps

/-!
# Lowering expressions

The code that an expression is lowered to, wherever it stands in a program whose labels are unique,
runs to its end with the calls of the expression made; the compiled expression then has its value.
Where no more variables or labels can be taken the compiler loses operands, so room for them is
assumed.
-/

namespace OneJit

theorem CompileM.pure_bind {α β : Type} (a : α) (f : α → CompileM β) : pure a >>= f = f a := rfl

namespace Compiler

open Expr CompileM

/-! ## What is lowered stays as it is -/

/-- What `compile(Expr)` returns is not compiled again. -/
abbrev compiled (e : Expr) : CompileM Compiled := pure (e, false)

/-- An expression without anything to lower is compiled to itself, and nothing is emitted. -/
theorem compileExprWith_lowered (again : Expr → CompileM Compiled) (e : Expr)
    (he : e.lowered) : compileExprWith again e = pure (e, false) := by
  have hchildren : ∀ args : List Expr, loweredOperands args →
      (∀ x ∈ args, x.lowered → compileExprWith again x = pure (x, false)) →
      compileChildren again args = pure (args, false) := by
    intro args
    induction args with
    | nil => exact fun _ _ => rfl
    | cons x xs ih =>
      intro hargs hall
      simp only [loweredOperands, Bool.and_eq_true] at hargs
      rw [List.forall_mem_cons] at hall
      have hx := hall.1 hargs.1.2
      have hxs := ih hargs.2 hall.2
      cases x with
      | var _ _ | const _ _ | label _ _ | mem _ _ _ =>
        rw [compileChildren, hx, hxs]
        · rfl
        · intros
          contradiction
      | _ => cases hargs.1.1
  induction e using Expr.induct with
  | hnone | hconst | hvar | hlabel | hftype =>
    rw [compileExprWith]
    all_goals
      intros
      contradiction
  | hmem k args p ih =>
    rw [compileExprWith, hchildren args he ih]
    rfl
  | hunary k op x p ih =>
    rw [compileExprWith, ih he]
    rfl
  | hbinary k op x y p ihx ihy =>
    simp only [lowered, Bool.and_eq_true] at he
    obtain ⟨⟨hx, hy⟩, hop⟩ := he
    have hboolean : simplifyBoolean again op x y = pure .none := by
      cases op with
      | land | lor =>
        simp only [Op2.isLogical, Bool.not_true, Bool.false_or, Bool.and_eq_true,
          Bool.not_eq_true'] at hop
        obtain ⟨hxc, hyv⟩ := hop
        cases y with
        | var ky iy => cases x <;> first | rfl | cases hxc
        | _ => cases hyv
      | _ => rfl
    rw [compileExprWith, ihx hx, ihy hy]
    simp only [CompileM.pure_bind, hboolean]
    rfl
  | htuple k op args p ih =>
    simp only [lowered, Bool.and_eq_true] at he
    obtain ⟨hkept, hargs⟩ := he
    have hrebuilt : rebuildChildren (.tuple k op args p) k op args false =
        (.tuple k op args p, false) := by
      unfold rebuildChildren
      split
      · next harith =>
        have hop : op ≠ .call := by
          rintro rfl
          cases harith
        rw [OpN.isKept, beq_eq_false_iff_ne.mpr hop, harith] at hkept
        obtain _ | ⟨_, _ | ⟨_, _⟩⟩ := args
        · cases hkept
        · cases hkept
        · rfl
      · rfl
    rw [compileExprWith, hchildren args hargs ih]
    · exact congrArg (fun r => (pure r : CompileM Compiled)) hrebuilt
    · rintro fn address args' rfl rfl
      simp [OpN.isKept] at hkept <;> omega

/-! ## Steps with room for what they take -/

/-- One more variable and one more label can be taken. -/
def Room (c : Compiler) : Prop := c.vars + firstId < 2 ^ 24 ∧ c.labels ≤ 0xFFFF

/-- Variables and labels are only added. -/
def Grows (c : Compiler) (_ : Output) (c' : Compiler) : Prop :=
  c.vars ≤ c'.vars ∧ c.labels ≤ c'.labels

theorem grows_basic : Basic Grows where
  refl c := ⟨Nat.le_refl _, Nat.le_refl _⟩
  trans h h' := ⟨h.1.trans h'.1, h.2.trans h'.2⟩
  newVar kind c := by
    unfold newVar
    dsimp only
    split
    · exact ⟨Nat.le_succ _, Nat.le_refl _⟩
    · exact ⟨Nat.le_refl _, Nat.le_refl _⟩
  newLabel c := by
    unfold newLabel
    split
    · exact ⟨Nat.le_refl _, Nat.le_succ _⟩
    · exact ⟨Nat.le_refl _, Nat.le_refl _⟩
  add _ _ := ⟨Nat.le_refl _, Nat.le_refl _⟩
  error _ _ _ := ⟨Nat.le_refl _, Nat.le_refl _⟩
  inLoop brk cont m hm c := by
    have h := hm { c with breaks := brk :: c.breaks, continues := cont :: c.continues }
    rw [bind_run, bind_run, Grows]
    dsimp only [enterLoop, exitLoop]
    split <;> exact h
  inCase brk fall m hm c := by
    have h := hm { c with breaks := brk :: c.breaks, fallthroughs := fall :: c.fallthroughs }
    rw [bind_run, bind_run, Grows]
    dsimp only [enterCase, exitCase]
    split <;> exact h

theorem Grows.room {c c' : Compiler} {o : Output} (h : Grows c o c') (hc' : Room c') : Room c :=
  ⟨(Nat.add_le_add_right h.1 _).trans_lt hc'.1, h.2.trans hc'.2⟩

section Makes

variable {α β : Type}

/-- With room at its end, the step returns and appends this. -/
def Makes (m : CompileM α) (c : Compiler) (Φ : α → List Stmt → Compiler → Prop) : Prop :=
  Room (m c).2.2 → Φ (m c).1 (m c).2.1.nodes (m c).2.2

namespace Makes

variable {m : CompileM α} {f : α → CompileM β} {c : Compiler}
  {Φ Φ' : α → List Stmt → Compiler → Prop} {Ψ : β → List Stmt → Compiler → Prop}

theorem pure {a : α} (h : Φ a [] c) : Makes (Pure.pure a) c Φ := fun _ => h

theorem mono (hm : Makes m c Φ) (h : ∀ a o c', Φ a o c' → Φ' a o c') : Makes m c Φ' :=
  fun hroom => h _ _ _ (hm hroom)

theorem bind (hm : Makes m c Φ) (hgrow : Respects Grows m) (hf : ∀ a, Respects Grows (f a))
    (h : ∀ a o c', c.vars ≤ c'.vars → Φ a o c' →
      Makes (f a) c' fun b o' c'' => Ψ b (o ++ o') c'') : Makes (m >>= f) c Ψ := by
  intro hroom
  rw [bind_run] at hroom ⊢
  have hroom' := (hf (m c).1 (m c).2.2).room hroom
  exact h _ _ _ (hgrow c).1 (hm hroom') hroom

theorem map (hm : Makes m c Φ) (f : α → β) (h : ∀ a o c', Φ a o c' → Ψ (f a) o c') :
    Makes (f <$> m) c Ψ := by
  intro hroom
  rw [map_run] at hroom ⊢
  exact h _ _ _ (hm hroom)

/-- What every run of the step returns. -/
theorem and_returns {P : α → Prop} (hm : Makes m c Φ) (hP : Returns P m) :
    Makes m c fun a o c' => P a ∧ Φ a o c' := fun hroom => ⟨hP c, hm hroom⟩

end Makes

/-- The least identifier of the variables that are taken next. -/
def bound (c : Compiler) : Nat := c.vars + firstId

theorem newVar_makes {kind : Kind} (hk : kind ≠ .bad) (c : Compiler) :
    Makes (newVar kind) c fun v o c' => o = [] ∧ bound c' = bound c + 1 ∧
      ∃ id, v = .var kind id ∧ id < bound c' ∧ (kind = .void ∨ id = bound c) := by
  intro hroom
  unfold newVar at hroom ⊢
  dsimp only at hroom ⊢
  split
  · refine ⟨rfl, by simp only [bound]; omega, _, rfl, ?_⟩
    split
    · next h => exact ⟨by simp only [bound, firstId]; omega, .inl h⟩
    · exact ⟨by simp only [bound]; omega, .inr rfl⟩
  · next h =>
    rw [if_neg h] at hroom
    exact absurd ⟨hk, .inr hroom.1⟩ h

theorem newLabel_makes (c : Compiler) :
    Makes newLabel c fun l o c' => o = [] ∧ bound c' = bound c ∧ ∃ i, l = .label i 0 := by
  intro hroom
  unfold newLabel at hroom ⊢
  split
  · exact ⟨rfl, rfl, _, rfl⟩
  · next h =>
    rw [if_neg h] at hroom
    exact absurd hroom.2 h

end Makes

end Compiler

end OneJit
