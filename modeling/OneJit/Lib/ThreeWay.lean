import Mathlib.Data.List.Pairwise
import Mathlib.Data.List.Perm.Basic
import Mathlib.Order.RelClasses

/-!
# Three-way comparisons

A comparison of two values is a negative number, zero or a positive number, as in C. It may also
not return. It is a total preorder of the values under consideration when it compares keys whose
order is one, and what a sort needs of it follows: "negative" is a strict weak order, and values
that come after all others are at the end of a sorted list.
-/

/-- The number for an ordering. -/
def Ordering.toInt : Ordering → Int
  | .lt => -1
  | .eq => 0
  | .gt => 1

/-- The comparison returns on all values of `S`, and is a total preorder of them. -/
structure ThreeWay {α : Type*} (S : α → Prop) (cmp : α → α → Option Int) : Prop where
  returns : ∀ {a b}, S a → S b → ∃ r, cmp a b = some r
  self : ∀ {a}, S a → cmp a a = some 0
  swap : ∀ {a b r s}, S a → S b → cmp a b = some r → cmp b a = some s → r.sign = -s.sign
  trans : ∀ {a b c r s t}, S a → S b → S c → cmp a b = some r → cmp b c = some s →
    cmp a c = some t → r ≤ 0 → s ≤ 0 → t ≤ 0

namespace ThreeWay

variable {α κ : Type*} {S : α → Prop} {cmp : α → α → Option Int}

/-- A comparison of keys. -/
theorem of_key {order : κ → κ → Ordering} [Std.TransCmp order] (key : α → κ)
    (h : ∀ a b, S a → S b → cmp a b = some (order (key a) (key b)).toInt) : ThreeWay S cmp where
  returns ha hb := ⟨_, h _ _ ha hb⟩
  self ha := by
    rw [h _ _ ha ha]
    exact congrArg (some ·.toInt) (@Std.ReflCmp.compare_self _ order _ _)
  swap {a b r s} ha hb hr hs := by
    rw [h a b ha hb, Option.some_inj] at hr
    rw [h b a hb ha, Option.some_inj, @Std.OrientedCmp.eq_swap _ order] at hs
    subst hr hs
    cases order (key a) (key b) <;> rfl
  trans {a b c r s t} ha hb hc hr hs ht hr0 hs0 := by
    rw [h _ _ ha hb, Option.some_inj] at hr
    rw [h _ _ hb hc, Option.some_inj] at hs
    rw [h _ _ ha hc, Option.some_inj] at ht
    subst hr hs ht
    have hle : ∀ o : Ordering, o.toInt ≤ 0 ↔ o.isLE := by decide
    rw [hle] at hr0 hs0 ⊢
    exact Std.TransCmp.isLE_trans hr0 hs0

variable (cmp) in
/-- The comparator that is passed to a sort. -/
def Less (a b : α) : Prop := ∃ r, cmp a b = some r ∧ r < 0

variable (h : ThreeWay S cmp)
include h

theorem not_less_iff {a b : α} (ha : S a) (hb : S b) :
    ¬Less cmp b a ↔ ∃ r, cmp a b = some r ∧ r ≤ 0 := by
  obtain ⟨r, hr⟩ := h.returns ha hb
  obtain ⟨s, hs⟩ := h.returns hb ha
  have hswap := h.swap ha hb hr hs
  have hsign : 0 ≤ s ↔ r ≤ 0 := by
    rw [← Int.sign_nonneg_iff, ← Int.sign_nonpos_iff, hswap]
    omega
  simp only [Less, hr, hs, Option.some_inj, exists_eq_left']
  rw [Int.not_lt, hsign]

theorem not_less_trans {a b c : α} (ha : S a) (hb : S b) (hc : S c) (hab : ¬Less cmp b a)
    (hbc : ¬Less cmp c b) : ¬Less cmp c a := by
  obtain ⟨r, hr, hr0⟩ := (h.not_less_iff ha hb).mp hab
  obtain ⟨s, hs, hs0⟩ := (h.not_less_iff hb hc).mp hbc
  obtain ⟨t, ht⟩ := h.returns ha hc
  exact (h.not_less_iff ha hc).mpr ⟨t, ht, h.trans ha hb hc hr hs ht hr0 hs0⟩

/-- What a sort needs of its comparator. -/
theorem strictWeakOrder : IsStrictWeakOrder {a // S a} fun a b => Less cmp a.1 b.1 where
  irrefl a hless := by
    obtain ⟨r, hr, hneg⟩ := hless
    rw [h.self a.2, Option.some_inj] at hr
    omega
  trans a b c hab hbc := by
    -- otherwise `c ≤ a`, and with `a ≤ b` also `c ≤ b`
    by_contra hac
    have hasymm : ¬Less cmp b.1 a.1 := by
      intro hba
      obtain ⟨r, hr, hneg⟩ := hab
      obtain ⟨s, hs, hneg'⟩ := hba
      have hswap := h.swap a.2 b.2 hr hs
      rw [Int.sign_eq_neg_one_of_neg hneg, Int.sign_eq_neg_one_of_neg hneg'] at hswap
      omega
    exact h.not_less_trans c.2 a.2 b.2 hac hasymm hbc
  incomp_trans a b c hab hbc :=
    ⟨h.not_less_trans c.2 b.2 a.2 hbc.1 hab.1, h.not_less_trans a.2 b.2 c.2 hab.2 hbc.2⟩

omit h in
/-- In a sorted list the values that come after all others are a suffix. -/
theorem suffix_of_sorted {p : α → Bool} (hp : ∀ a b, p a → p b = false → S a → S b → Less cmp b a)
    {l : List α} (hl : ∀ a ∈ l, S a) (hsorted : l.Pairwise fun a b => ¬Less cmp b a) :
    ∃ front back, l = front ++ back ∧ (∀ a ∈ front, p a = false) ∧ ∀ a ∈ back, p a := by
  induction l with
  | nil => exact ⟨[], [], rfl, by simp, by simp⟩
  | cons a l ih =>
    rw [List.pairwise_cons] at hsorted
    rw [List.forall_mem_cons] at hl
    cases ha : p a with
    | false =>
      obtain ⟨front, back, rfl, hfront, hback⟩ := ih hl.2 hsorted.2
      exact ⟨a :: front, back, rfl, by simpa [ha] using hfront, hback⟩
    | true =>
      -- nothing else can follow
      have hall : ∀ b ∈ l, p b := by
        intro b hb
        by_contra hpb
        exact hsorted.1 b hb (hp a b ha (Bool.eq_false_iff.mpr hpb) hl.1 (hl.2 b hb))
      exact ⟨[], a :: l, rfl, by simp, by simpa [ha] using hall⟩

end ThreeWay
