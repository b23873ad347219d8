import OneJit.Stl.BitSetFind

/-!
# Variants of `find_first_set`

`find_first_set` is there for `unsigned` and for `unsigned long`. For both it calls the C library, or
is a loop where the library has no such function. The loops count the positions from zero.
-/

namespace OneJit.Stl

/-- The inner loop for `unsigned`, on a byte that is not zero. -/
def skipZerosUnsigned : Nat → Nat → BitVec 32 → Nat
  | 0, ret, _ => ret
  | fuel + 1, ret, i =>
    if i &&& 1#32 = 0#32 then skipZerosUnsigned fuel (ret + 1) (i >>> 1) else ret

/-- The loop of `find_first_set(unsigned)`, where the library has no such function. -/
def findFirstSetLoopUnsigned : Nat → Nat → BitVec 32 → Nat
  | 0, _, _ => 0
  | fuel + 1, ret, i =>
    if i = 0 then 0
    else if i.setWidth 8 ≠ 0 then skipZerosUnsigned 8 ret i
    else findFirstSetLoopUnsigned fuel (ret + 8) (i >>> 8)

/-- `find_first_set(unsigned)`. -/
def findFirstSetUnsigned (cfg : Config) (i : BitVec 32) : Nat :=
  if cfg.haveFfs then ffs i else findFirstSetLoopUnsigned 5 0 i

/-- `find_first_set(bits) - 1` where the words of a bit set have 32 bits. -/
def lowestOfUnsigned (cfg : Config) (bits : BitVec 32) : Nat :=
  (BitVec.ofNat 32 (findFirstSetUnsigned cfg bits) - 1#32).toNat

/-- Zero for the word zero, and otherwise one more than the position of the lowest bit. -/
def CountsFromOne {w : Nat} (i : BitVec w) (n : Nat) : Prop :=
  (i = 0 → n = 0) ∧ ∀ k, Lowest i k → n = k + 1

/-! ## The loop for the narrow word

It is that for the wide one, on the word extended with zeros. -/

section Narrow

variable {x : BitVec 32} {k : Nat}

theorem getLsbD_extended (x : BitVec 32) (i : Nat) :
    (x.setWidth 64).getLsbD i = x.getLsbD i := by
  rw [BitVec.getLsbD_setWidth]
  by_cases hi : i < 32
  · simp [show i < 64 by omega]
  · rw [BitVec.getLsbD_of_ge x i (by omega), Bool.and_false]

theorem extended_ushiftRight (x : BitVec 32) (n : Nat) :
    (x >>> n).setWidth 64 = x.setWidth 64 >>> n := by
  apply BitVec.eq_of_getLsbD_eq
  intro i _
  rw [getLsbD_extended, BitVec.getLsbD_ushiftRight, BitVec.getLsbD_ushiftRight, getLsbD_extended]

theorem extended_eq_zero (x : BitVec 32) : x.setWidth 64 = 0 ↔ x = 0 := by
  change x.setWidth 64 = 0#64 ↔ x = 0#32
  rw [BitVec.zero_iff_eq_false, BitVec.zero_iff_eq_false]
  simp only [getLsbD_extended]

theorem Lowest.extended (h : Lowest x k) : Lowest (x.setWidth 64) k := by
  refine ⟨?_, fun j hj => ?_⟩
  · rw [getLsbD_extended]
    exact h.1
  · rw [getLsbD_extended]
    exact h.2 j hj

theorem skipZerosUnsigned_eq (fuel ret : Nat) (x : BitVec 32) :
    skipZerosUnsigned fuel ret x = skipZeros fuel ret (x.setWidth 64) := by
  induction fuel generalizing ret x with
  | zero => rfl
  | succ fuel ih =>
    have hbit : (x &&& 1#32).setWidth 64 = x.setWidth 64 &&& 1#64 := BitVec.setWidth_and
    have hzero : x.setWidth 64 &&& 1#64 = 0#64 ↔ x &&& 1#32 = 0#32 := by
      rw [← hbit]
      exact extended_eq_zero _
    simp only [skipZerosUnsigned, skipZeros, hzero, ih, extended_ushiftRight]

theorem findFirstSetLoopUnsigned_eq (fuel ret : Nat) (x : BitVec 32) :
    findFirstSetLoopUnsigned fuel ret x = findFirstSetLoop fuel ret (x.setWidth 64) := by
  induction fuel generalizing ret x with
  | zero => rfl
  | succ fuel ih =>
    have hbyte : (x.setWidth 64).setWidth 8 = x.setWidth 8 :=
      BitVec.setWidth_setWidth_of_le x (by decide)
    simp only [findFirstSetLoopUnsigned, findFirstSetLoop, extended_eq_zero, hbyte,
      skipZerosUnsigned_eq, ih, extended_ushiftRight]

/-- `find_first_set(unsigned)` counts from one with `ffs`, from zero without. -/
theorem findFirstSetUnsigned_eq (cfg : Config) (h : Lowest x k) :
    findFirstSetUnsigned cfg x = if cfg.haveFfs then k + 1 else k := by
  have hk : k < 32 := BitVec.lt_of_getLsbD h.1
  unfold findFirstSetUnsigned
  cases cfg.haveFfs with
  | true => exact h.ffs_eq
  | false =>
    simp only [Bool.false_eq_true, if_false]
    rw [findFirstSetLoopUnsigned_eq, findFirstSetLoop_eq 5 0 h.extended (by omega), Nat.zero_add]

end Narrow

/-! ## The word zero -/

theorem findFirstSet_zero (cfg : Config) : findFirstSet cfg 0 = 0 := by
  obtain ⟨haveFfs, haveFfsl⟩ := cfg
  have hlong : ffs 0#64 = 0 := ffs_zero 64
  have hint : ffs 0#32 = 0 := ffs_zero 32
  cases haveFfs <;> cases haveFfsl <;> simp [findFirstSet, findFirstSetLoop, hlong, hint]

theorem findFirstSetUnsigned_zero (cfg : Config) : findFirstSetUnsigned cfg 0 = 0 := by
  obtain ⟨haveFfs, haveFfsl⟩ := cfg
  have hint : ffs 0#32 = 0 := ffs_zero 32
  cases haveFfs <;> simp [findFirstSetUnsigned, findFirstSetLoopUnsigned, hint]

/-! ## Which variants count from one -/

section Variants

variable {w : Nat} {i : BitVec w} {one : Bool} {f : BitVec w → Nat}

theorem Lowest.unique {k j : Nat} (hk : Lowest i k) (hj : Lowest i j) : k = j := by
  rcases Nat.lt_trichotomy k j with hlt | heq | hlt
  · exact absurd hk.1 (by rw [hj.2 k hlt]; decide)
  · exact heq
  · exact absurd hj.1 (by rw [hk.2 j hlt]; decide)

/-- A function that counts from one or from zero. -/
theorem countsFromOne_iff (hzero : f 0 = 0)
    (hlowest : ∀ i k, Lowest i k → f i = if one then k + 1 else k) (i : BitVec w) :
    CountsFromOne i (f i) ↔ i = 0 ∨ one = true := by
  by_cases hi : i = 0
  · subst hi
    refine iff_of_true ⟨fun _ => hzero, fun k hk => ?_⟩ (.inl rfl)
    exact absurd rfl hk.ne_zero
  · obtain ⟨k, -, hk⟩ := exists_lowest hi
    rw [or_iff_right hi, CountsFromOne, hlowest i k hk]
    constructor
    · rintro ⟨-, hcount⟩
      have heq := hcount k hk
      by_contra hone
      rw [if_neg hone] at heq
      omega
    · rintro rfl
      exact ⟨fun h => absurd h hi, fun j hj => by rw [if_pos rfl, hk.unique hj]⟩

/-- One less than the count is the position, or the one before it. -/
theorem lowest_pred_iff (hw : w ≤ 64) (hi : i ≠ 0)
    (hlowest : ∀ k, Lowest i k → f i = if one then k + 1 else k) :
    Lowest i ((BitVec.ofNat 32 (f i) - 1#32).toNat) ↔ one = true := by
  obtain ⟨k, hlt, hk⟩ := exists_lowest hi
  rw [hlowest k hk, BitVec.toNat_sub, BitVec.toNat_ofNat, BitVec.toNat_ofNat]
  cases one with
  | true =>
    have hpred : (2 ^ 32 - 1 % 2 ^ 32 + (k + 1) % 2 ^ 32) % 2 ^ 32 = k := by omega
    simp only [if_true, hpred]
    exact iff_of_true hk trivial
  | false =>
    simp only [Bool.false_eq_true, if_false, iff_false]
    intro hpred
    have heq := hk.unique hpred
    omega

end Variants

/-- Every variant returns zero for the word zero. For the other words a variant that calls the
library returns one more than the position of the lowest bit, and the loops do for none, so that
`find` is right to subtract one exactly where the library is called. -/
theorem findFirstSet_iff (cfg : Config) :
    (∀ i : BitVec 64, CountsFromOne i (findFirstSet cfg i) ↔ i = 0 ∨ cfg.oneBased = true) ∧
    (∀ i : BitVec 32,
      CountsFromOne i (findFirstSetUnsigned cfg i) ↔ i = 0 ∨ cfg.haveFfs = true) ∧
    (∀ bits : BitVec 64, bits ≠ 0 →
      (Lowest bits (BitSet.lowestOf cfg bits) ↔ cfg.oneBased = true)) ∧
    ∀ bits : BitVec 32, bits ≠ 0 →
      (Lowest bits (lowestOfUnsigned cfg bits) ↔ cfg.haveFfs = true) :=
  ⟨countsFromOne_iff (findFirstSet_zero cfg) fun _ _ => findFirstSet_eq cfg,
    countsFromOne_iff (findFirstSetUnsigned_zero cfg) fun _ _ => findFirstSetUnsigned_eq cfg,
    fun _ hbits => lowest_pred_iff (by decide) hbits fun _ => findFirstSet_eq cfg,
    fun _ hbits => lowest_pred_iff (by decide) hbits fun _ => findFirstSetUnsigned_eq cfg⟩

theorem findFirstSet_iff_eight :
    Lowest 8#64 (BitSet.lowestOf ⟨false, true⟩ 8#64) ↔ Config.oneBased ⟨false, true⟩ = true :=
  (findFirstSet_iff ⟨false, true⟩).2.2.1 8#64 (by decide)

/-- The loop returns zero for a word whose lowest bit is set. -/
theorem not_countsFromOne :
    ¬ ∀ (cfg : Config) (i : BitVec 64), CountsFromOne i (findFirstSet cfg i) := by
  intro hall
  have hlowest : Lowest 1#64 0 := ⟨by decide, fun j hj => absurd hj (Nat.not_lt_zero j)⟩
  have hone := (hall ⟨false, false⟩ 1#64).2 0 hlowest
  rw [findFirstSet_eq ⟨false, false⟩ hlowest] at hone
  exact absurd hone (by decide)

end OneJit.Stl
