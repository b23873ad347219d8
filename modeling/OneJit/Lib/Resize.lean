import Mathlib.Data.BitVec
import Mathlib.Tactic.Cases

/-!
# The low bits of a register

`resize signed n a` is the number in the low `n` bits of `a`, with or without a sign, as a number
with all the bits of `a`.
-/

variable {w m n : Nat} {s s' : Bool} {a b : BitVec w}

/-- The low bits, extended by their sign or by zeros. -/
def resize (signed : Bool) (n : Nat) (a : BitVec w) : BitVec w :=
  if signed then (a.setWidth n).signExtend w else (a.setWidth n).setWidth w

theorem getLsbD_resize (hn : 0 < n) (s : Bool) (a : BitVec w) (i : Nat) :
    (resize s n a).getLsbD i =
      (decide (i < w) && if i < n then a.getLsbD i else s && a.getLsbD (n - 1)) := by
  have hmsb : (a.setWidth n).msb = a.getLsbD (n - 1) := by
    rw [BitVec.msb_eq_getLsbD_last, BitVec.getLsbD_setWidth, decide_eq_true (Nat.sub_one_lt hn.ne'),
      Bool.true_and]
  cases s with
  | false =>
    by_cases hi : i < n
    · simp [resize, hi]
    · simp [resize, hi]
  | true =>
    rw [resize, if_pos rfl, BitVec.getLsbD_signExtend, hmsb]
    by_cases hi : i < n
    · simp [hi]
    · simp [hi]

/-- Only the low bits matter. -/
theorem resize_congr (h : a.setWidth n = b.setWidth n) (s : Bool) : resize s n a = resize s n b := by
  rw [resize, resize, h]

/-- All bits are the low ones. -/
theorem resize_full (s : Bool) (a : BitVec w) : resize s w a = a := by
  cases s with
  | false => simp [resize]
  | true => simp [resize]

theorem toNat_resize_false (hle : n ≤ w) (a : BitVec w) :
    (resize false n a).toNat = a.toNat % 2 ^ n := by
  rw [resize, if_neg Bool.false_ne_true, BitVec.toNat_setWidth_of_le hle, BitVec.toNat_setWidth]

/-- Fewer bits of the number are those of the register. -/
theorem resize_narrow (hm : 0 < m) (hle : m ≤ n) (s s' : Bool) (a : BitVec w) :
    resize s m (resize s' n a) = resize s m a := by
  apply BitVec.eq_of_getLsbD_eq
  intro i hi
  rw [getLsbD_resize hm, getLsbD_resize hm, getLsbD_resize (hm.trans_le hle),
    getLsbD_resize (hm.trans_le hle)]
  by_cases him : i < m
  · have hin : i < n := him.trans_le hle
    simp [him, hin, hi]
  · have hlast : m - 1 < n := by omega
    have hlast' : m - 1 < w := by omega
    simp [him, hlast, hlast', hi]

/-- More bits of the number are the number read with another sign, where that is the same or the
number is not negative. -/
theorem resize_widen_iff (hm : 0 < m) (hlt : m < n) (hle : n ≤ w) (s s' : Bool) (a : BitVec w) :
    resize s m a = resize s n (resize s' m a) ↔ s = s' ∨ a.getLsbD (m - 1) = false := by
  have hn : 0 < n := hm.trans hlt
  constructor
  · intro heq
    have hbit := congrArg (fun x => x.getLsbD m) heq
    simp only [getLsbD_resize hm, getLsbD_resize hn] at hbit
    rw [if_neg (Nat.lt_irrefl m), if_pos hlt, decide_eq_true (hlt.trans_le hle), if_neg
      (Nat.lt_irrefl m), Bool.true_and, Bool.true_and, Bool.true_and] at hbit
    cases htop : a.getLsbD (m - 1) with
    | false => exact .inr rfl
    | true =>
      rw [htop, Bool.and_true, Bool.and_true] at hbit
      exact .inl hbit
  · intro h
    apply BitVec.eq_of_getLsbD_eq
    intro i hi
    rw [getLsbD_resize hm, getLsbD_resize hn, getLsbD_resize hm, getLsbD_resize hm]
    by_cases him : i < m
    · have hin : i < n := him.trans hlt
      simp [him, hin, hi]
    · have hlast : ¬n - 1 < m := by omega
      have hlast' : n - 1 < w := by omega
      obtain rfl | htop := h
      · by_cases hin : i < n
        · simp [him, hin, hi]
        · simp [him, hin, hi, hlast, hlast']
      · simp [him, hlast, hlast', htop]

/-- More bits of the number, read with the same sign. -/
theorem resize_widen (hm : 0 < m) (hle : m ≤ n) (hw : n ≤ w) (s : Bool) (a : BitVec w) :
    resize s n (resize s m a) = resize s m a := by
  obtain hlt | rfl := Nat.lt_or_eq_of_le hle
  · exact ((resize_widen_iff hm hlt hw s s a).mpr (.inl rfl)).symm
  · exact resize_narrow hm (Nat.le_refl m) s s a

/-- A number in fewer bits is left as it is. -/
theorem resize_of_lt (hn : 0 < n) (h : a.toNat < 2 ^ (n - 1)) (s : Bool) : resize s n a = a := by
  have hbit : ∀ i, n - 1 ≤ i → a.getLsbD i = false := by
    intro i hi
    exact Nat.testBit_lt_two_pow (h.trans_le (Nat.pow_le_pow_right (by omega) hi))
  apply BitVec.eq_of_getLsbD_eq
  intro i hi
  rw [getLsbD_resize hn, hbit (n - 1) (Nat.le_refl _), Bool.and_false, decide_eq_true hi,
    Bool.true_and]
  split
  · rfl
  · exact (hbit i (by omega)).symm
