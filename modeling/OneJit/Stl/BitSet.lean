import Mathlib.Algebra.Group.Nat.Defs
import Mathlib.Data.Nat.Notation
import Mathlib.Logic.Basic
import Mathlib.Tactic.Common

/-!
# Bit sets as arrays of words

`onestl::BitSet` as it stores its bits: in words of 64 bits that are kept when the set becomes
smaller. An operation is `none` when it reads or writes beyond the words that are allocated.
-/

namespace OneJit.Stl

/-- `class BitSet`. The capacity is the number of bits in `data`. -/
structure BitSet where
  data : List (BitVec 64)
  size : Nat
  deriving DecidableEq, Repr

namespace BitSet

/-- `capacity`. -/
def cap (s : BitSet) : Nat := 64 * s.data.length

/-- The bit at a position, whether it is below the size or not. -/
def bit (s : BitSet) (i : Nat) : Bool := (s.data.getD (i / 64) 0).getLsbD (i % 64)

/-- `operator[]`. -/
def get (s : BitSet) (index : Nat) : Option Bool :=
  if index < s.size then (s.data[index / 64]?).map fun w => w.getLsbD (index % 64) else some false

/-- `T(-T(value))`. -/
def pattern (value : Bool) : BitVec 64 := if value then BitVec.allOnes 64 else 0

/-- `ref = (ref & keepmask) | (pattern & fillmask)`, where one mask is the complement of the other. -/
def blend (value : Bool) (fillmask ref : BitVec 64) : BitVec 64 :=
  (ref &&& ~~~fillmask) ||| (pattern value &&& fillmask)

/-- A word is changed. -/
def modifyWord (s : BitSet) (i : Nat) (f : BitVec 64 → BitVec 64) : Option BitSet :=
  if i < s.data.length then some { s with data := s.data.modify i f } else none

/-- `set`. -/
def set (s : BitSet) (index : Nat) (value : Bool) : Option BitSet :=
  if s.size ≤ index then some s
  else s.modifyWord (index / 64) (blend value (1#64 <<< (index % 64)))

/-- The number of words for some bits, as `size_t` computes it. -/
def words (bits : Nat) : Nat := (bits + 63) % 2 ^ 64 / 64

/-- `init`, where memory can be allocated for the numbers of words that `mem` accepts. -/
def init (mem : Nat → Bool) (size : Nat) : BitSet :=
  if words size = 0 then ⟨[], size⟩
  else if mem (words size) then ⟨List.replicate (words size) 0, size⟩
  else ⟨[], 0⟩

/-- `clear`. -/
def clear (s : BitSet) : BitSet := { s with size := 0 }

/-- `truncate`. -/
def truncate (s : BitSet) (newsize : Nat) : BitSet :=
  if newsize < s.size then { s with size := newsize } else s

/-! ## Bits of words -/

/-- The bits are in the words, and the words in an address space of 64 bits. -/
structure WF (s : BitSet) : Prop where
  size_le : s.size ≤ s.cap
  cap_lt : s.cap < 2 ^ 64

theorem getLsbD_pattern (value : Bool) (i : Nat) :
    (pattern value).getLsbD i = (value && decide (i < 64)) := by
  cases value
  · exact BitVec.getLsbD_zero
  · rw [pattern, if_pos rfl, BitVec.getLsbD_allOnes, Bool.true_and]

theorem getLsbD_blend (value : Bool) (fillmask ref : BitVec 64) {i : Nat} (hi : i < 64) :
    (blend value fillmask ref).getLsbD i =
      if fillmask.getLsbD i then value else ref.getLsbD i := by
  simp only [blend, BitVec.getLsbD_or, BitVec.getLsbD_and, BitVec.getLsbD_not, getLsbD_pattern, hi,
    decide_true, Bool.and_true, Bool.true_and]
  cases fillmask.getLsbD i <;> simp

/-- A position is given by its word and the bit in it. -/
theorem word_eq_iff (i j : Nat) : i = j ↔ i / 64 = j / 64 ∧ i % 64 = j % 64 := by
  omega

theorem get_eq_bit {s : BitSet} (h : s.size ≤ s.cap) (i : Nat) :
    s.get i = some (if i < s.size then s.bit i else false) := by
  unfold get bit
  by_cases hi : i < s.size
  · have hword : i / 64 < s.data.length := by
      unfold cap at h
      omega
    rw [if_pos hi, if_pos hi, List.getElem?_eq_getElem hword, List.getD_eq_getElem?_getD,
      List.getElem?_eq_getElem hword]
    rfl
  · rw [if_neg hi, if_neg hi]

/-- A changed word changes its own bits only. -/
theorem modifyWord_spec {s : BitSet} {i : Nat} (h : i < s.data.length)
    (f : BitVec 64 → BitVec 64) :
    ∃ s', s.modifyWord i f = some s' ∧ s'.size = s.size ∧ s'.cap = s.cap ∧ ∀ j, s'.bit j =
      if j / 64 = i then (f (s.data.getD i 0)).getLsbD (j % 64) else s.bit j := by
  refine ⟨_, if_pos h, rfl, by simp [cap], fun j => ?_⟩
  simp only [bit, List.getD_eq_getElem?_getD, List.getElem?_modify]
  by_cases hj : j / 64 = i
  · subst hj
    simp [List.getElem?_eq_getElem h]
  · have hne : ¬i = j / 64 := fun heq => hj heq.symm
    simp [hj, hne]

/-- `set` changes one bit. -/
theorem set_spec {s : BitSet} (h : s.WF) (index : Nat) (value : Bool) :
    ∃ s', s.set index value = some s' ∧ s'.WF ∧ s'.size = s.size ∧ ∀ j, s'.bit j =
      if j = index ∧ index < s.size then value else s.bit j := by
  by_cases hindex : s.size ≤ index
  · refine ⟨s, if_pos hindex, h, rfl, fun j => ?_⟩
    rw [if_neg (by omega)]
  · have hword : index / 64 < s.data.length := by
      have hle := h.size_le
      unfold cap at hle
      omega
    obtain ⟨s', hs', hsize, hcap, hbit⟩ :=
      modifyWord_spec hword (blend value (1#64 <<< (index % 64)))
    refine ⟨s', (if_neg hindex).trans hs', ⟨by rw [hsize, hcap]; exact h.size_le,
      by rw [hcap]; exact h.cap_lt⟩, hsize, fun j => ?_⟩
    have hlow : j % 64 < 64 := Nat.mod_lt _ (by decide)
    rw [hbit, getLsbD_blend _ _ _ hlow]
    by_cases hj : j / 64 = index / 64
    · have hone : (1#64 <<< (index % 64)).getLsbD (j % 64) = decide (j % 64 = index % 64) := by
        rw [BitVec.getLsbD_shiftLeft, BitVec.getLsbD_one, Bool.eq_iff_iff]
        simp only [hlow, decide_true, Bool.true_and, Bool.and_eq_true, Bool.not_eq_true',
          decide_eq_false_iff_not, decide_eq_true_eq]
        omega
      rw [if_pos hj, hone]
      by_cases heq : j % 64 = index % 64
      · have hji : j = index := (word_eq_iff j index).mpr ⟨hj, heq⟩
        rw [if_pos (decide_eq_true heq), if_pos ⟨hji, by omega⟩]
      · have hji : j ≠ index := fun h => heq (h ▸ rfl)
        rw [if_neg (by simpa using heq), if_neg (fun h => hji h.1), bit, hj]
    · have hji : j ≠ index := fun h => hj (h ▸ rfl)
      rw [if_neg hj, if_neg (fun h => hji h.1)]

/-! ## The number of words -/

theorem words_lt (bits : Nat) : 64 * words bits < 2 ^ 64 := by
  unfold words
  omega

/-- The words are enough unless the sum of the division overflows. -/
theorem le_words {bits : Nat} (h : bits ≤ 2 ^ 64 - 64) : bits ≤ 64 * words bits := by
  unfold words
  omega

theorem words_cap {s : BitSet} (h : s.cap < 2 ^ 64) : words s.cap = s.data.length := by
  unfold words cap at *
  omega

/-- A new set has no bits that are true. -/
theorem init_spec (mem : Nat → Bool) {size : Nat} (h : size ≤ 2 ^ 64 - 64) :
    (init mem size).WF ∧ ((init mem size).size = size ∨ (init mem size).size = 0) ∧
      (mem (words size) → (init mem size).size = size) ∧ ∀ i, (init mem size).bit i = false := by
  have hle := le_words h
  have hlt := words_lt size
  unfold init
  by_cases hzero : words size = 0
  · rw [if_pos hzero]
    refine ⟨⟨?_, by simp [cap]⟩, .inl rfl, fun _ => rfl, fun i => by simp [bit]⟩
    simp only [cap, List.length_nil]
    omega
  · rw [if_neg hzero]
    by_cases hmem : mem (words size)
    · rw [if_pos hmem]
      refine ⟨⟨by simpa [cap] using hle, by simpa [cap] using hlt⟩, .inl rfl, fun _ => rfl, fun i => ?_⟩
      rw [bit, List.getD_eq_getElem?_getD, List.getElem?_replicate]
      split <;> simp
    · rw [if_neg hmem]
      exact ⟨⟨by simp [cap], by simp [cap]⟩, .inr rfl, fun h => absurd h hmem,
        fun i => by simp [bit]⟩

end BitSet

end OneJit.Stl
