import OneJit.Lib.MapM
import OneJit.Optimizer

/-!
# Operations that can trap

The divisions by zero, the shifts that have no result and the accesses to memory that the evaluation
of an expression performs. Both operands are evaluated, in any order, except after a logical
operator whose first operand decides the result.
-/

namespace OneJit

/-- An operation that a check is about, or that is undefined. -/
inductive Hazard
  | division
  | shift
  | access (kind : Kind) (addr : BitVec 64)
  deriving DecidableEq, Repr

namespace Hazard

/-- The check that an optimizer is configured with for an operation. -/
def checked (c : Check) : Hazard → Bool
  | division => c.divisionByZero
  | shift => false
  | access _ _ => c.nullPointerAccess

/-- The operations without a result. -/
def isUndefined : Hazard → Bool
  | division | shift => true
  | access _ _ => false

end Hazard

/-- What an `Op2` performs itself, from the value of its second operand. -/
def Op2.hazard (op : Op2) (b : BitVec 64) : Option Hazard :=
  match op with
  | .quo | .rem => if b = 0 then some .division else none
  | .shl | .shr => if 64 ≤ b.toNat then some .shift else none
  | _ => none

/-- The second operand of an `Op2` is evaluated, from the value of the first one. -/
def Op2.needs (op : Op2) (a : Option (BitVec 64)) : Prop :=
  op = .land ∨ op = .lor → ∃ v, a = some v ∧ op.decidedBy v = false

namespace Expr

mutual

/-- What the evaluation of an expression performs. -/
def performs (ρ : Valuation) : Expr → Hazard → Prop
  | .none, _ | .const _ _, _ | .var _ _, _ | .label _ _, _ | .ftype _ _, _ => False
  | .mem k args _, h =>
    performsList ρ args h ∨ ∃ vs, evalList ρ args = some vs ∧ h = .access k vs.sum
  | .unary _ _ x _, h => performs ρ x h
  | .binary _ op x y _, h =>
    performs ρ x h ∨ (op.needs (eval ρ x) ∧ performs ρ y h) ∨
      ∃ b, eval ρ y = some b ∧ op.hazard b = some h
  | .tuple _ _ args _, h => performsList ρ args h

def performsList (ρ : Valuation) : List Expr → Hazard → Prop
  | [], _ => False
  | x :: xs, h => performs ρ x h ∨ performsList ρ xs h

end

section Performs

attribute [local simp] performs performsList

variable {ρ : Valuation} {h : Hazard}

theorem performsList_iff {xs : List Expr} : performsList ρ xs h ↔ ∃ x ∈ xs, performs ρ x h := by
  induction xs with
  | nil => simp [performsList]
  | cons x xs ih => simp [performsList, ih]

theorem performs_tuple {k : Kind} {op : OpN} {xs : List Expr} {p : Place} :
    performs ρ (tuple k op xs p) h ↔ ∃ x ∈ xs, performs ρ x h := by
  rw [performs, performsList_iff]

theorem performs_mem {k : Kind} {xs : List Expr} {p : Place} :
    performs ρ (mem k xs p) h ↔
      (∃ x ∈ xs, performs ρ x h) ∨ ∃ vs, evalList ρ xs = some vs ∧ h = .access k vs.sum := by
  rw [performs, performsList_iff]

@[simp] theorem performs_const (v : Value) (p : Place) : ¬performs ρ (const v p) h := by
  simp [performs]

@[simp] theorem performs_var (k : Kind) (id : Nat) : ¬performs ρ (var k id) h := by
  simp [performs]

@[simp] theorem performs_none : ¬performs ρ none h := by
  simp [performs]

@[simp] theorem performs_ofValue (v : Value) : ¬performs ρ (ofValue v) h := by
  rw [ofValue]
  split <;> simp

/-- An operator that evaluates both operands. -/
theorem performs_binary {k : Kind} {op : Op2} {x y : Expr} {p : Place}
    (hop : op ≠ .land ∧ op ≠ .lor) :
    performs ρ (binary k op x y p) h ↔ performs ρ x h ∨ performs ρ y h ∨
      ∃ b, eval ρ y = some b ∧ op.hazard b = some h := by
  have hneeds : op.needs (eval ρ x) := fun hlogical => by
    rcases hlogical with rfl | rfl
    · exact absurd rfl hop.1
    · exact absurd rfl hop.2
  rw [performs]
  simp [hneeds]

/-- An operator that performs nothing itself. -/
theorem performs_total {k : Kind} {op : Op2} {x y : Expr} {p : Place}
    (hop : op ≠ .land ∧ op ≠ .lor) (hnone : ∀ b, op.hazard b = .none) :
    performs ρ (binary k op x y p) h ↔ performs ρ x h ∨ performs ρ y h := by
  rw [performs_binary hop]
  simp [hnone]

end Performs

/-! ## An undefined operation leaves no value -/

theorem evalList_eq_none {ρ : Valuation} {xs : List Expr} :
    evalList ρ xs = Option.none ↔ ∃ x ∈ xs, eval ρ x = Option.none := by
  induction xs with
  | nil => simp [evalList]
  | cons x xs ih =>
    rw [evalList]
    cases hx : eval ρ x with
    | none => simp [hx]
    | some a => cases hxs : evalList ρ xs <;> simp_all

theorem evalBinary_hazard {k : Kind} {op : Op2} {a b : BitVec 64} {h : Hazard}
    (hh : op.hazard b = some h) : h.isUndefined ∧ k.evalBinary op a b = Option.none := by
  cases op <;> simp only [Op2.hazard, reduceCtorEq] at hh
  all_goals
    split at hh
    · next hb =>
      rw [← Option.some.inj hh]
      simp [Hazard.isUndefined, Kind.evalBinary, hb]
    · cases hh

/-- What has a value performs no undefined operation. -/
theorem eval_of_performs {ρ : Valuation} {e : Expr} {h : Hazard} (hh : h.isUndefined)
    (he : performs ρ e h) : eval ρ e = Option.none := by
  induction e using Expr.induct with
  | hmem k xs p ih =>
    rw [performs_mem] at he
    rcases he with ⟨x, hx, he⟩ | ⟨vs, -, rfl⟩
    · rw [eval, evalList_eq_none.mpr ⟨x, hx, ih x hx he⟩]
      rfl
    · cases hh
  | hunary k op x p ih =>
    rw [performs] at he
    rw [eval, ih he]
    rfl
  | hbinary k op x y p ihx ihy =>
    rw [performs] at he
    rw [eval]
    rcases he with he | ⟨hneeds, he⟩ | ⟨b, hb, hop⟩
    · rw [ihx he]
      rfl
    · cases hx : eval ρ x with
      | none => rfl
      | some a =>
        have hdecided : op.decidedBy a = false := by
          by_cases hlogical : op = .land ∨ op = .lor
          · obtain ⟨v, hv, hdec⟩ := hneeds hlogical
            rw [hx] at hv
            rwa [Option.some.inj hv]
          · cases op <;> first | rfl | simp at hlogical
        simp [hdecided, ihy he]
    · cases hx : eval ρ x with
      | none => rfl
      | some a =>
        have hdecided : op.decidedBy a = false := by
          cases op <;> first | rfl | cases hop
        simp [hdecided, hb, (evalBinary_hazard hop).2]
  | htuple k op xs p ih =>
    obtain ⟨x, hx, he⟩ := performs_tuple.mp he
    rw [eval, evalList_eq_none.mpr ⟨x, hx, ih x hx he⟩]
    rfl
  | _ => simp [performs] at he

theorem evalBinary_eq_none {k kx ky : Kind} {op : Op2} (ht : k.typed2 op kx ky) {a b : BitVec 64}
    (h : kx.evalBinary op a b = Option.none) : op.hazard b = some .division ∨
      op.hazard b = some .shift := by
  cases op <;> simp only [Kind.evalBinary, Kind.typed2, reduceCtorEq, Bool.false_eq_true] at h ht
  all_goals
    split at h
    · next hb => simp [Op2.hazard, hb]
    · first | cases h | (split at h <;> cases h)

/-- A typed expression without a value performs an undefined operation. -/
theorem performs_of_eval {ρ : Valuation} {e : Expr} (ht : e.typed) (he : eval ρ e = Option.none) :
    performs ρ e .division ∨ performs ρ e .shift := by
  have hlist : ∀ {xs : List Expr}, (∀ x ∈ xs, x.typed → eval ρ x = Option.none →
      performs ρ x .division ∨ performs ρ x .shift) → typedList xs →
      evalList ρ xs = Option.none →
      (∃ x ∈ xs, performs ρ x .division) ∨ ∃ x ∈ xs, performs ρ x .shift := by
    intro xs ih ht he
    obtain ⟨x, hx, he⟩ := evalList_eq_none.mp he
    rcases ih x hx ((typedList_iff xs).mp ht x hx) he with h | h
    · exact .inl ⟨x, hx, h⟩
    · exact .inr ⟨x, hx, h⟩
  induction e using Expr.induct with
  | hnone => cases ht
  | hmem k xs p ih =>
    rw [typed, Bool.and_eq_true] at ht
    rw [eval] at he
    cases hxs : evalList ρ xs with
    | none =>
      rw [performs_mem, performs_mem]
      rcases hlist ih ht.2 hxs with h | h
      · exact .inl (.inl h)
      · exact .inr (.inl h)
    | some vs =>
      rw [hxs] at he
      cases he
  | hunary k op x p ih =>
    rw [typed, Bool.and_eq_true] at ht
    rw [eval] at he
    cases hx : eval ρ x with
    | none => exact ih ht.1 hx
    | some a =>
      rw [hx] at he
      cases op with
      | bad1 => cases ht.2
      | _ => cases he
  | hbinary k op x y p ihx ihy =>
    rw [typed, Bool.and_eq_true, Bool.and_eq_true] at ht
    rw [performs, performs]
    cases hx : eval ρ x with
    | none =>
      rcases ihx ht.1.1 hx with h | h
      · exact .inl (.inl h)
      · exact .inr (.inl h)
    | some a =>
      rw [eval, hx] at he
      dsimp only [Option.bind_eq_bind, Option.bind_some] at he
      split at he
      · next hdecided =>
        have hlogical : op = .land ∨ op = .lor := by
          cases op <;> simp_all [Op2.decidedBy]
        rcases hlogical with rfl | rfl <;> cases he
      · next hdecided =>
        have hneeds : op.needs (some a) := fun _ => ⟨a, rfl, by simpa using hdecided⟩
        cases hy : eval ρ y with
        | none =>
          rcases ihy ht.1.2 hy with h | h
          · exact .inl (.inr (.inl ⟨hneeds, h⟩))
          · exact .inr (.inr (.inl ⟨hneeds, h⟩))
        | some b =>
          rw [hy] at he
          rcases evalBinary_eq_none ht.2 he with h | h
          · exact .inl (.inr (.inr ⟨b, rfl, h⟩))
          · exact .inr (.inr (.inr ⟨b, rfl, h⟩))
  | htuple k op xs p ih =>
    rw [typed, Bool.and_eq_true] at ht
    rw [eval] at he
    cases hxs : evalList ρ xs with
    | none =>
      rw [performs_tuple, performs_tuple]
      exact hlist ih ht.1 hxs
    | some vs =>
      rw [hxs] at he
      dsimp only [Option.bind_eq_bind, Option.bind_some] at he
      by_cases hop : op.isCommutative
      · rw [apply_commutative hop] at he
        cases he
      · cases op with
        | comma =>
          simp only [Kind.typedN, Bool.and_eq_true, Bool.not_eq_true', List.isEmpty_eq_false_iff,
            ne_eq, List.map_eq_nil_iff] at ht
          have hnil : vs = [] := List.getLast?_eq_none_iff.mp he
          rw [hnil, evalList_eq_some] at hxs
          cases hxs
          exact absurd rfl ht.2.2
        | call => cases he
        | badN | memOp | mirMem | x86Mem | arm64Mem | mirRets => cases ht.2
        | _ => exact absurd rfl hop
  | _ => cases he

/-! ## Rewriting with checks -/

/-- The evaluation performs nothing that is undefined and not checked. -/
def Defined (c : Check) (ρ : Valuation) (e : Expr) : Prop :=
  ¬performs ρ e .shift ∧ (c.divisionByZero ∨ ¬performs ρ e .division)

theorem Defined.mono {c : Check} {ρ : Valuation} {x e : Expr}
    (h : ∀ h, performs ρ x h → performs ρ e h) (hd : Defined c ρ e) : Defined c ρ x :=
  ⟨fun hs => hd.1 (h _ hs), hd.2.imp_right fun hdiv hs => hdiv (h _ hs)⟩

/-- What a rewriting owes to the checks: every checked operation is still performed, and where the
expression is defined nothing new is. -/
structure Honours (c : Check) (e e' : Expr) : Prop where
  keeps : ∀ ρ h, h.checked c → performs ρ e h → performs ρ e' h
  addsNone : ∀ ρ, Defined c ρ e → ∀ h, performs ρ e' h → performs ρ e h

namespace Honours

variable {c : Check} {e e' e'' : Expr}

theorem of_iff (h : ∀ ρ h, performs ρ e' h ↔ performs ρ e h) : Honours c e e' :=
  ⟨fun ρ hz _ hp => (h ρ hz).mpr hp, fun ρ _ hz hp => (h ρ hz).mp hp⟩

theorem refl (e : Expr) : Honours c e e := of_iff fun _ _ => Iff.rfl

theorem defined (h : Honours c e e') {ρ : Valuation} (hd : Defined c ρ e) : Defined c ρ e' :=
  hd.mono (h.addsNone ρ hd)

theorem trans (h : Honours c e e') (h' : Honours c e' e'') : Honours c e e'' where
  keeps ρ hz hc hp := h'.keeps ρ hz hc (h.keeps ρ hz hc hp)
  addsNone ρ hd hz hp := h.addsNone ρ hd hz (h'.addsNone ρ (h.defined hd) hz hp)

/-- Where the expression is defined, a refinement has the same value or none. -/
theorem eval_eq (h : Honours c e e') (hr : Refines e e') (ht : e.typed) {ρ : Valuation}
    (hd : Defined c ρ e) : eval ρ e' = eval ρ e := by
  cases he : eval ρ e with
  | some v => exact hr.eval ρ v he
  | none =>
    rcases performs_of_eval ht he with hdiv | hshift
    · have hchecked : c.divisionByZero := hd.2.resolve_right (not_not_intro hdiv)
      exact eval_of_performs rfl (h.keeps ρ .division hchecked hdiv)
    · exact absurd hshift hd.1

/-- What a rule drops or does not look at performs nothing that is checked. -/
theorem of_pure (hpure : ∀ ρ h, h.checked c → ¬performs ρ e h)
    (hnone : ∀ ρ h, ¬performs ρ e' h) : Honours c e e' where
  keeps ρ hz hc hp := absurd hp (hpure ρ hz hc)
  addsNone ρ _ hz hp := absurd hp (hnone ρ hz)

theorem unary_congr {k : Kind} {op : Op1} {x x' : Expr} {p p' : Place} (h : Honours c x x') :
    Honours c (unary k op x p) (unary k op x' p') :=
  ⟨h.keeps, h.addsNone⟩

theorem binary_congr {k : Kind} {op : Op2} {x x' y y' : Expr} {p p' : Place}
    (hx : Honours c x x') (hrx : Refines x x') (htx : x.typed) (hy : Honours c y y')
    (hry : Refines y y') (hty : y.typed) :
    Honours c (binary k op x y p) (binary k op x' y' p') := by
  constructor
  · intro ρ h hc hp
    rw [performs] at hp ⊢
    rcases hp with hp | ⟨hneeds, hp⟩ | ⟨b, hb, hop⟩
    · exact .inl (hx.keeps ρ h hc hp)
    · refine .inr (.inl ⟨?_, hy.keeps ρ h hc hp⟩)
      intro hlogical
      obtain ⟨v, hv, hdec⟩ := hneeds hlogical
      exact ⟨v, hrx.eval ρ v hv, hdec⟩
    · exact .inr (.inr ⟨b, hry.eval ρ b hb, hop⟩)
  · intro ρ hd h hp
    have hdx : Defined c ρ x := hd.mono fun hz hpx => by
      rw [performs]
      exact .inl hpx
    rw [performs] at hp ⊢
    rw [hx.eval_eq hrx htx hdx] at hp
    have hdy : op.needs (eval ρ x) → Defined c ρ y := fun hneeds => hd.mono fun hz hpy => by
      rw [performs]
      exact .inr (.inl ⟨hneeds, hpy⟩)
    rcases hp with hp | ⟨hneeds, hp⟩ | ⟨b, hb, hop⟩
    · exact .inl (hx.addsNone ρ hdx h hp)
    · exact .inr (.inl ⟨hneeds, hy.addsNone ρ (hdy hneeds) h hp⟩)
    · have hneeds : op.needs (eval ρ x) := by
        intro hlogical
        rcases hlogical with rfl | rfl <;> cases hop
      rw [hy.eval_eq hry hty (hdy hneeds)] at hb
      exact .inr (.inr ⟨b, hb, hop⟩)

/-- Each operand is rewritten to one that honours the checks. -/
theorem operands {xs xs' : List Expr} (h : List.Forall₂ (Honours c) xs xs') {ρ : Valuation} :
    (∀ h, h.checked c → (∃ x ∈ xs, performs ρ x h) → ∃ x ∈ xs', performs ρ x h) ∧
      ((∀ x ∈ xs, Defined c ρ x) → ∀ h, (∃ x ∈ xs', performs ρ x h) → ∃ x ∈ xs, performs ρ x h) := by
  constructor
  · intro hz hc ⟨x, hx, hp⟩
    obtain ⟨x', hx', hxx⟩ := List.Forall₂.exists_right h x hx
    exact ⟨x', hx', hxx.keeps ρ hz hc hp⟩
  · intro hd hz ⟨x', hx', hp⟩
    obtain ⟨x, hx, hxx⟩ := List.Forall₂.exists_left h x' hx'
    exact ⟨x, hx, hxx.addsNone ρ (hd x hx) hz hp⟩

theorem tuple_congr {k k' : Kind} {op op' : OpN} {xs xs' : List Expr} {p p' : Place}
    (h : List.Forall₂ (Honours c) xs xs') :
    Honours c (tuple k op xs p) (tuple k' op' xs' p') := by
  constructor
  · intro ρ hz hc hp
    rw [performs_tuple] at hp ⊢
    exact (operands h).1 hz hc hp
  · intro ρ hd hz hp
    rw [performs_tuple] at hp ⊢
    refine (operands h).2 (fun x hx => hd.mono fun hz hpx => ?_) hz hp
    exact performs_tuple.mpr ⟨x, hx, hpx⟩

theorem mem_congr {k : Kind} {xs xs' : List Expr} {p p' : Place}
    (h : List.Forall₂ (Honours c) xs xs') (hr : List.Forall₂ Refines xs xs')
    (ht : ∀ x ∈ xs, x.typed) : Honours c (mem k xs p) (mem k xs' p') := by
  constructor
  · intro ρ hz hc hp
    rw [performs_mem] at hp ⊢
    rcases hp with hp | ⟨vs, hvs, rfl⟩
    · exact .inl ((operands h).1 hz hc hp)
    · exact .inr ⟨vs, (RefinesList.of_forall₂ hr).eval ρ vs hvs, rfl⟩
  · intro ρ hd hz hp
    have hdx : ∀ x ∈ xs, Defined c ρ x := fun x hx => hd.mono fun hz hpx =>
      performs_mem.mpr (.inl ⟨x, hx, hpx⟩)
    rw [performs_mem] at hp ⊢
    rcases hp with hp | ⟨vs, hvs, rfl⟩
    · exact .inl ((operands h).2 hdx hz hp)
    · refine .inr ⟨vs, ?_, rfl⟩
      have heval : evalList ρ xs' = evalList ρ xs := by
        clear hd hvs
        induction h with
        | nil => rfl
        | cons hx _ ih =>
          rw [List.forall₂_cons] at hr
          rw [List.forall_mem_cons] at ht hdx
          rw [evalList, evalList, hx.eval_eq hr.1 ht.1 hdx.1, ih hr.2 ht.2 hdx.2]
      rwa [heval] at hvs

end Honours

/-! ## Pure expressions and equal trees -/

/-- `deep_pure` under the mask of the configured checks. -/
theorem performs_pure {o : Optimizer} {e : Expr} (h : deepPure o.allowMaskPure e) {ρ : Valuation}
    {hz : Hazard} (hc : hz.checked o.check) : ¬performs ρ e hz := by
  have hlist : ∀ {xs : List Expr}, deepPureList o.allowMaskPure xs → ∀ x ∈ xs,
      deepPure o.allowMaskPure x := by
    intro xs hxs
    induction xs with
    | nil => simp
    | cons x xs ih =>
      rw [deepPureList, Bool.and_eq_true] at hxs
      rw [List.forall_mem_cons]
      exact ⟨hxs.1, ih hxs.2⟩
  induction e using Expr.induct with
  | hmem k xs p ih =>
    rw [deepPure, Bool.and_eq_true] at h
    rw [performs_mem]
    rintro (⟨x, hx, hp⟩ | ⟨vs, -, rfl⟩)
    · exact ih x hx (hlist h.2 x hx) hp
    · have hmem : (!o.check.nullPointerAccess) = true := h.1
      rw [Hazard.checked] at hc
      rw [hc] at hmem
      cases hmem
  | hunary k op x p ih => exact ih h
  | hbinary k op x y p ihx ihy =>
    rw [deepPure, Bool.and_eq_true, Bool.and_eq_true] at h
    rw [performs]
    rintro (hp | ⟨-, hp⟩ | ⟨b, -, hop⟩)
    · exact ihx h.1.2 hp
    · exact ihy h.2 hp
    · have hdiv := h.1.1
      cases op <;> simp only [Op2.hazard, reduceCtorEq] at hop
      all_goals
        split at hop
        · obtain rfl := Option.some.inj hop
          rw [Hazard.checked] at hc
          simp_all [Optimizer.allowMaskPure]
        · cases hop
  | htuple k op xs p ih =>
    rw [deepPure, Bool.and_eq_true] at h
    rw [performs_tuple]
    rintro ⟨x, hx, hp⟩
    exact ih x hx (hlist h.2 x hx) hp
  | _ => simp [performs]

theorem exists_sameTree {xs ys : List Expr} (h : sameTreeList xs ys) :
    List.Forall₂ (fun x y => sameTree x y) xs ys := by
  induction xs generalizing ys with
  | nil =>
    cases ys with
    | nil => exact .nil
    | cons y ys => cases h
  | cons x xs ih =>
    cases ys with
    | nil => cases h
    | cons y ys =>
      rw [sameTreeList, Bool.and_eq_true] at h
      exact .cons h.1 (ih h.2)

theorem performs_sameTreeList {xs ys : List Expr} (h : sameTreeList xs ys)
    (ih : ∀ x ∈ xs, ∀ y, sameTree x y → ∀ ρ h, performs ρ y h → performs ρ x h) {ρ : Valuation}
    {hz : Hazard} (hp : ∃ y ∈ ys, performs ρ y hz) : ∃ x ∈ xs, performs ρ x hz := by
  obtain ⟨y, hy, hp⟩ := hp
  obtain ⟨x, hx, hxy⟩ := List.Forall₂.exists_left (exists_sameTree h) y hy
  exact ⟨x, hx, ih x hx y hxy ρ hz hp⟩

/-- The same trees perform the same. -/
theorem performs_sameTree {x y : Expr} (h : sameTree x y) (ρ : Valuation) (hz : Hazard)
    (hp : performs ρ y hz) : performs ρ x hz := by
  induction x using Expr.induct generalizing y ρ hz with
  | hmem k xs p ih =>
    cases y <;> simp only [sameTree, Bool.false_eq_true, Bool.and_eq_true, beq_iff_eq] at h
    obtain ⟨rfl, hlist⟩ := h
    have heval := evalList_of_sameTreeList hlist (fun x _ y hxy => (agree_of_sameTree hxy).eval) ρ
    rw [performs_mem] at hp ⊢
    rw [heval]
    exact hp.imp_left (performs_sameTreeList hlist fun x hx y hxy ρ hz => ih x hx hxy ρ hz)
  | hunary k op x p ih =>
    cases y <;> simp only [sameTree, Bool.false_eq_true, Bool.and_eq_true, beq_iff_eq] at h
    exact ih h.2 ρ hz hp
  | hbinary k op x1 x2 p ih1 ih2 =>
    cases y <;> simp only [sameTree, Bool.false_eq_true, Bool.and_eq_true, beq_iff_eq] at h
    obtain ⟨⟨⟨rfl, rfl⟩, h1⟩, h2⟩ := h
    rw [performs] at hp ⊢
    rw [(agree_of_sameTree h1).eval ρ, (agree_of_sameTree h2).eval ρ]
    exact hp.imp (ih1 h1 ρ hz) (Or.imp_left (And.imp_right (ih2 h2 ρ hz)))
  | htuple k op xs p ih =>
    cases y <;> simp only [sameTree, Bool.false_eq_true, Bool.and_eq_true, beq_iff_eq] at h
    obtain ⟨⟨rfl, rfl⟩, hlist⟩ := h
    rw [performs_tuple] at hp ⊢
    exact performs_sameTreeList hlist (fun x hx y hxy ρ hz => ih x hx hxy ρ hz) hp
  | _ => cases y <;> first | exact hp | cases h

end Expr

end OneJit
