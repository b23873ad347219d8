import Mathlib.Order.Basic
import Mathlib.Order.Defs.LinearOrder
import Mathlib.Algebra.Order.Group.Nat

/-!
# Bisection

A loop that halves an interval `[lo, hi]` of the naturals, asking a predicate at the middle. It
never asks at `hi`, which stands for "not found".
-/

namespace Bisect

/-- `r` is the first place of `[lo, hi)` at which `p` holds, or `hi` where there is none. -/
structure FirstIn (p : Nat → Prop) (lo hi r : Nat) : Prop where
  ge : lo ≤ r
  le : r ≤ hi
  before : ∀ i, lo ≤ i → i < r → ¬ p i
  found : r < hi → p r

/-- `p` holds at all places of `[lo, hi)` from some place on. -/
def Ascends (p : Nat → Prop) (lo hi : Nat) : Prop :=
  ∀ i j, lo ≤ i → i ≤ j → j < hi → p i → p j

theorem Ascends.mono {p : Nat → Prop} {lo hi lo' hi' : Nat} (h : Ascends p lo hi) (hlo : lo ≤ lo')
    (hhi : hi' ≤ hi) : Ascends p lo' hi' :=
  fun i j hi hij hj => h i j (hlo.trans hi) hij (hj.trans_le hhi)

/-- There is one first place. -/
theorem FirstIn.unique {p : Nat → Prop} {lo hi r s : Nat} (hr : FirstIn p lo hi r)
    (hs : FirstIn p lo hi s) : r = s := by
  rcases Nat.lt_trichotomy r s with hlt | heq | hlt
  · exact absurd (hr.found (hlt.trans_le hs.le)) (hs.before r hr.ge hlt)
  · exact heq
  · exact absurd (hs.found (hlt.trans_le hr.le)) (hr.before s hs.ge hlt)

/-- A place that is not found among the first ones may be the last one. -/
theorem FirstIn.grow {p : Nat → Prop} {lo hi r : Nat} (h : FirstIn p lo hi r) (hp : p hi) :
    FirstIn p lo (hi + 1) r where
  ge := h.ge
  le := Nat.le_succ_of_le h.le
  before := h.before
  found := by
    intro _
    rcases h.le.lt_or_eq with hlt | heq
    · exact h.found hlt
    · rwa [heq]

/-- Where the predicate fails at the last place it holds at none. -/
theorem Ascends.none {p : Nat → Prop} {lo hi : Nat} (h : Ascends p lo (hi + 1)) (hp : ¬ p hi) :
    ∀ i, lo ≤ i → i ≤ hi → ¬ p i :=
  fun i hlo hi' hpi => hp (h i hi hlo hi' (Nat.lt_succ_self hi) hpi)

section Loop

variable (p : Nat → Bool)

/-- The loop. -/
def bisect : Nat → Nat → Nat → Nat
  | 0, lo, _ => lo
  | fuel + 1, lo, hi =>
    if lo < hi then
      if p ((lo + hi) / 2) then bisect fuel lo ((lo + hi) / 2)
      else bisect fuel ((lo + hi) / 2 + 1) hi
    else lo

/-- The places at which the loop asks. -/
def probes : Nat → Nat → Nat → List Nat
  | 0, _, _ => []
  | fuel + 1, lo, hi =>
    if lo < hi then
      (lo + hi) / 2 ::
        if p ((lo + hi) / 2) then probes fuel lo ((lo + hi) / 2)
        else probes fuel ((lo + hi) / 2 + 1) hi
    else []

variable {p} {fuel lo hi : Nat}

theorem bisect_first (hle : lo ≤ hi) (hfuel : hi - lo ≤ fuel)
    (hp : Ascends (fun i => p i = true) lo hi) :
    FirstIn (fun i => p i = true) lo hi (bisect p fuel lo hi) := by
  induction fuel generalizing lo hi with
  | zero =>
    have heq : lo = hi := by omega
    rw [bisect]
    exact ⟨Nat.le_refl lo, hle, fun i hi hlt => absurd hlt (by omega), fun h => absurd h (by omega)⟩
  | succ fuel ih =>
    rw [bisect]
    by_cases hlt : lo < hi
    · rw [if_pos hlt]
      by_cases hmid : p ((lo + hi) / 2) = true
      · rw [if_pos hmid]
        have hfirst := @ih lo ((lo + hi) / 2) (by omega) (by omega) (hp.mono (le_refl lo) (by omega))
        exact {
          ge := hfirst.ge
          le := hfirst.le.trans (by omega)
          before := hfirst.before
          found := by
            intro _
            rcases hfirst.le.lt_or_eq with h | h
            · exact hfirst.found h
            · rwa [h] }
      · rw [if_neg hmid]
        have hfirst := @ih ((lo + hi) / 2 + 1) hi (by omega) (by omega)
          (hp.mono (by omega) (le_refl hi))
        refine ⟨by have := hfirst.ge; omega, hfirst.le, ?_, hfirst.found⟩
        intro i hlo hi'
        by_cases hi'' : i ≤ (lo + hi) / 2
        · exact fun hpi => hmid (hp i _ hlo hi'' (by omega) hpi)
        · exact hfirst.before i (by omega) hi'
    · rw [if_neg hlt]
      have heq : lo = hi := by omega
      exact ⟨Nat.le_refl lo, hle, fun i hi hlt => absurd hlt (by omega),
        fun h => absurd h (by omega)⟩

/-- The loop asks inside of the interval only, and never at its end. -/
theorem probes_mem {i : Nat} (hi' : i ∈ probes p fuel lo hi) : lo ≤ i ∧ i < hi := by
  induction fuel generalizing lo hi with
  | zero => simp [probes] at hi'
  | succ fuel ih =>
    rw [probes] at hi'
    by_cases hlt : lo < hi
    · rw [if_pos hlt] at hi'
      rcases List.mem_cons.mp hi' with rfl | hi'
      · omega
      · split at hi'
        · have := ih hi'
          omega
        · have := ih hi'
          omega
    · simp [hlt] at hi'

end Loop

end Bisect
