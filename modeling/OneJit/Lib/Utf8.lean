import Mathlib.Algebra.Group.Nat.Defs
import Mathlib.Data.List.Basic

/-!
# UTF-8

Decoding of one rune at the head of a list of bytes, as Go's `unicode/utf8` does it: a byte at which
no rune starts is a rune error of width one.
-/

namespace OneJit.Utf8

/-- A byte after the first one of a rune. -/
def isTail (b : UInt8) : Bool := 0x80 ≤ b && b ≤ 0xBF

/-- What the first byte of a rune says: its length, and the range of the second byte where that is
special. -/
inductive Lead
  | ascii | two | three (lo hi : UInt8) | four (lo hi : UInt8) | invalid
  deriving DecidableEq, Repr

/-- The table `first`. -/
def first (b : UInt8) : Lead :=
  if b < 0x80 then .ascii
  else if b < 0xC2 then .invalid
  else if b < 0xE0 then .two
  else if b = 0xE0 then .three 0xA0 0xBF
  else if b = 0xED then .three 0x80 0x9F
  else if b < 0xF0 then .three 0x80 0xBF
  else if b = 0xF0 then .four 0x90 0xBF
  else if b < 0xF4 then .four 0x80 0xBF
  else if b = 0xF4 then .four 0x80 0x8F
  else .invalid

/-- `RuneError`. -/
def runeError : Nat := 0xFFFD

/-- The bits that a tail byte adds. -/
def addTail (r : Nat) (b : UInt8) : Nat := r <<< 6 ||| b.toNat &&& 0x3F

/-- `FullRune`: the bytes begin with a rune, or with something that no more bytes make one. -/
def fullRune : List UInt8 → Bool
  | [] => false
  | b :: bs =>
    match first b, bs with
    | .ascii, _ | .invalid, _ => true
    | .two, bs => !bs.isEmpty
    | .three _ _, [] | .four _ _, [] => false
    | .three lo hi, [b1] => !(lo ≤ b1 && b1 ≤ hi)
    | .three _ _, _ => true
    | .four lo hi, [b1] => !(lo ≤ b1 && b1 ≤ hi)
    | .four lo hi, [b1, b2] => !(lo ≤ b1 && b1 ≤ hi) || !isTail b2
    | .four _ _, _ => true

/-- `DecodeRune`: the rune at the head of the bytes, and its length. -/
def decodeRune : List UInt8 → Nat × Nat
  | [] => (runeError, 0)
  | b :: bs =>
    match first b, bs with
    | .ascii, _ => (b.toNat, 1)
    | .two, b1 :: _ => if isTail b1 then (addTail (b.toNat &&& 0x1F) b1, 2) else (runeError, 1)
    | .three lo hi, b1 :: b2 :: _ =>
      if (lo ≤ b1 && b1 ≤ hi) && isTail b2 then (addTail (addTail (b.toNat &&& 0x0F) b1) b2, 3)
      else (runeError, 1)
    | .four lo hi, b1 :: b2 :: b3 :: _ =>
      if (lo ≤ b1 && b1 ≤ hi) && isTail b2 && isTail b3 then
        (addTail (addTail (addTail (b.toNat &&& 0x07) b1) b2) b3, 4)
      else (runeError, 1)
    | _, _ => (runeError, 1)

/-- `EncodeRune`. Surrogates and what is not a code point are encoded as `RuneError`. -/
def encodeRune (r : Nat) : List UInt8 :=
  let tail (n : Nat) : UInt8 := UInt8.ofNat (0x80 ||| n &&& 0x3F)
  if r < 0x80 then [UInt8.ofNat r]
  else if r < 0x800 then [UInt8.ofNat (0xC0 ||| r >>> 6), tail r]
  else if 0x10FFFF < r ∨ 0xD800 ≤ r ∧ r ≤ 0xDFFF then [0xEF, 0xBF, 0xBD]
  else if r < 0x10000 then [UInt8.ofNat (0xE0 ||| r >>> 12), tail (r >>> 6), tail r]
  else [UInt8.ofNat (0xF0 ||| r >>> 18), tail (r >>> 12), tail (r >>> 6), tail r]

/-- `ValidRune`. -/
def validRune (r : Nat) : Bool := r < 0xD800 || (0xDFFF < r && r ≤ 0x10FFFF)

@[simp] theorem decodeRune_nil : decodeRune [] = (runeError, 0) := rfl

/-- A rune is not longer than the bytes. -/
theorem decodeRune_le (bs : List UInt8) : (decodeRune bs).2 ≤ bs.length := by
  unfold decodeRune
  split
  · exact Nat.le_refl 0
  · split <;> (try split) <;> simp

/-- There is a rune, or a rune error of one byte, unless there are no bytes. -/
theorem decodeRune_pos {bs : List UInt8} (h : bs ≠ []) : 0 < (decodeRune bs).2 := by
  unfold decodeRune
  split
  · exact absurd rfl h
  · split <;> (try split) <;> simp

/-- A rune that ends within the first bytes is decoded from these alone. -/
theorem decodeRune_append {bs : List UInt8} (hne : bs ≠ []) (more : List UInt8)
    (hle : (decodeRune (bs ++ more)).2 ≤ bs.length) : decodeRune (bs ++ more) = decodeRune bs := by
  obtain _ | ⟨b, bs⟩ := bs
  · exact absurd rfl hne
  rw [List.cons_append] at hle ⊢
  unfold decodeRune at hle ⊢
  dsimp only at hle ⊢
  generalize first b = lead at hle ⊢
  cases lead with
  | ascii => rfl
  | invalid => rfl
  | two =>
    obtain _ | ⟨b1, bs⟩ := bs
    · obtain _ | ⟨b1, more⟩ := more <;> simp at hle ⊢
      split at hle <;> simp_all
    · rfl
  | three lo hi =>
    obtain _ | ⟨b1, _ | ⟨b2, bs⟩⟩ := bs
    · obtain _ | ⟨b1, _ | ⟨b2, more⟩⟩ := more <;> simp at hle ⊢
      split at hle <;> simp_all
    · obtain _ | ⟨b2, more⟩ := more <;> simp at hle ⊢
      split at hle <;> simp_all
    · rfl
  | four lo hi =>
    obtain _ | ⟨b1, _ | ⟨b2, _ | ⟨b3, bs⟩⟩⟩ := bs
    · obtain _ | ⟨b1, _ | ⟨b2, _ | ⟨b3, more⟩⟩⟩ := more <;> simp at hle ⊢
      split at hle <;> simp_all
    · obtain _ | ⟨b2, _ | ⟨b3, more⟩⟩ := more <;> simp at hle ⊢
      split at hle <;> simp_all
    · obtain _ | ⟨b3, more⟩ := more <;> simp at hle ⊢
      split at hle <;> simp_all
    · rfl

/-- After a full rune no more bytes matter. -/
theorem decodeRune_le_of_fullRune {bs : List UInt8} (h : fullRune bs) (more : List UInt8) :
    (decodeRune (bs ++ more)).2 ≤ bs.length := by
  obtain _ | ⟨b, bs⟩ := bs
  · cases h
  rw [List.cons_append]
  unfold decodeRune
  unfold fullRune at h
  dsimp only at h ⊢
  generalize first b = lead at h ⊢
  cases lead with
  | ascii => simp
  | invalid => simp
  | two =>
    obtain _ | ⟨b1, bs⟩ := bs
    · cases h
    · simp only [List.cons_append]
      split <;> simp
  | three lo hi =>
    obtain _ | ⟨b1, _ | ⟨b2, bs⟩⟩ := bs
    · cases h
    · have hb : (decide (lo ≤ b1) && decide (b1 ≤ hi)) = false := (Bool.not_eq_true' _).mp h
      obtain _ | ⟨b2, more⟩ := more <;> simp [hb]
    · simp only [List.cons_append]
      split <;> simp
  | four lo hi =>
    obtain _ | ⟨b1, _ | ⟨b2, _ | ⟨b3, bs⟩⟩⟩ := bs
    · cases h
    · have hb : (decide (lo ≤ b1) && decide (b1 ≤ hi)) = false := (Bool.not_eq_true' _).mp h
      obtain _ | ⟨b2, _ | ⟨b3, more⟩⟩ := more <;> simp [hb]
    · have hb : (decide (lo ≤ b1) && decide (b1 ≤ hi) && isTail b2) = false := by
        rw [← Bool.not_eq_true', Bool.not_and]
        exact h
      obtain _ | ⟨b3, more⟩ := more <;> simp [hb]
    · simp only [List.cons_append]
      split <;> simp

/-! ## Decoding and encoding -/

theorem addTail_eq (r : Nat) (b : UInt8) : addTail r b = r * 64 + b.toNat % 64 := by
  have hlow : b.toNat &&& 0x3F = b.toNat % 64 := Nat.and_two_pow_sub_one_eq_mod b.toNat 6
  have hlt : b.toNat % 64 < 2 ^ 6 := Nat.mod_lt _ (by decide)
  rw [addTail, hlow, ← Nat.shiftLeft_add_eq_or_of_lt hlt, Nat.shiftLeft_eq]

/-- A byte with fixed high bits. -/
theorem high_or {high k x : Nat} (h : x < 2 ^ k) : high * 2 ^ k ||| x = high * 2 ^ k + x := by
  rw [← Nat.shiftLeft_eq, Nat.shiftLeft_add_eq_or_of_lt h]

theorem ofNat_eq {n : Nat} {b : UInt8} (h : n = b.toNat) : UInt8.ofNat n = b := by
  rw [h, UInt8.ofNat_toNat]

/-- The tail byte that is encoded for a rune. -/
theorem tail_eq {n : Nat} {b : UInt8} (hb : isTail b = true) (h : n % 64 = b.toNat % 64) :
    UInt8.ofNat (0x80 ||| n &&& 0x3F) = b := by
  have hlow : n &&& 0x3F = n % 64 := Nat.and_two_pow_sub_one_eq_mod n 6
  have hlt : n % 64 < 2 ^ 6 := Nat.mod_lt _ (by decide)
  have hor : 0x80 ||| n % 64 = 128 + n % 64 := @high_or 2 6 (n % 64) hlt
  simp only [isTail, Bool.and_eq_true, decide_eq_true_eq, UInt8.le_iff_toNat_le] at hb
  have hlo : 128 ≤ b.toNat := hb.1
  have hhi : b.toNat ≤ 191 := hb.2
  rw [hlow, hor]
  apply ofNat_eq
  omega

theorem first_ascii {b : UInt8} (h : first b = .ascii) : b.toNat < 0x80 := by
  unfold first at h
  simp only [UInt8.lt_iff_toNat_lt, ← UInt8.toNat_inj] at h
  split_ifs at h
  simpa using ‹_›

theorem first_two {b : UInt8} (h : first b = .two) : 0xC2 ≤ b.toNat ∧ b.toNat < 0xE0 := by
  unfold first at h
  simp only [UInt8.lt_iff_toNat_lt, ← UInt8.toNat_inj] at h
  split_ifs at h
  simp at *
  omega

theorem first_three {b lo hi : UInt8} (h : first b = .three lo hi) :
    (b.toNat = 0xE0 ∧ lo.toNat = 0xA0 ∧ hi.toNat = 0xBF) ∨
      (b.toNat = 0xED ∧ lo.toNat = 0x80 ∧ hi.toNat = 0x9F) ∨
      (0xE1 ≤ b.toNat ∧ b.toNat ≤ 0xEF ∧ b.toNat ≠ 0xED ∧ lo.toNat = 0x80 ∧ hi.toNat = 0xBF) := by
  unfold first at h
  simp only [UInt8.lt_iff_toNat_lt, ← UInt8.toNat_inj] at h
  split_ifs at h <;> simp at * <;> obtain ⟨rfl, rfl⟩ := h <;> simp <;> omega

theorem first_four {b lo hi : UInt8} (h : first b = .four lo hi) :
    (b.toNat = 0xF0 ∧ lo.toNat = 0x90 ∧ hi.toNat = 0xBF) ∨
      (b.toNat = 0xF4 ∧ lo.toNat = 0x80 ∧ hi.toNat = 0x8F) ∨
      (0xF1 ≤ b.toNat ∧ b.toNat ≤ 0xF3 ∧ lo.toNat = 0x80 ∧ hi.toNat = 0xBF) := by
  unfold first at h
  simp only [UInt8.lt_iff_toNat_lt, ← UInt8.toNat_inj] at h
  split_ifs at h <;> simp at * <;> obtain ⟨rfl, rfl⟩ := h <;> simp <;> omega

/-- The rune of two bytes. -/
theorem encodeRune_two {b b1 : UInt8} (hb : first b = .two) (h1 : isTail b1 = true) :
    encodeRune (addTail (b.toNat &&& 0x1F) b1) = [b, b1] := by
  obtain ⟨hlo, hhi⟩ := first_two hb
  have hlow : b.toNat &&& 0x1F = b.toNat % 32 := Nat.and_two_pow_sub_one_eq_mod b.toNat 5
  have htail := Nat.mod_lt b1.toNat (by decide : 0 < 64)
  rw [hlow, addTail_eq]
  generalize hr : b.toNat % 32 * 64 + b1.toNat % 64 = r
  have hshift : r >>> 6 = b.toNat % 32 := by
    rw [Nat.shiftRight_eq_div_pow]
    omega
  have hlead : 0xC0 ||| b.toNat % 32 = 192 + b.toNat % 32 :=
    @high_or 6 5 (b.toNat % 32) (Nat.mod_lt _ (by decide))
  have hfirst : UInt8.ofNat (0xC0 ||| r >>> 6) = b := by
    rw [hshift, hlead]
    apply ofNat_eq
    omega
  rw [encodeRune, if_neg (by omega), if_pos (by omega), hfirst]
  dsimp only
  rw [tail_eq h1 (by omega)]

/-- The rune of three bytes. -/
theorem encodeRune_three {b b1 b2 lo hi : UInt8} (hb : first b = .three lo hi)
    (hlo : lo ≤ b1) (hhi : b1 ≤ hi) (h2 : isTail b2 = true) :
    encodeRune (addTail (addTail (b.toNat &&& 0x0F) b1) b2) = [b, b1, b2] := by
  have hlow : b.toNat &&& 0x0F = b.toNat % 16 := Nat.and_two_pow_sub_one_eq_mod b.toNat 4
  have htail := Nat.mod_lt b2.toNat (by decide : 0 < 64)
  rw [UInt8.le_iff_toNat_le] at hlo hhi
  have hcases := first_three hb
  have h1 : isTail b1 = true := by
    simp only [isTail, Bool.and_eq_true, decide_eq_true_eq, UInt8.le_iff_toNat_le]
    change 128 ≤ b1.toNat ∧ b1.toNat ≤ 191
    omega
  rw [hlow, addTail_eq, addTail_eq]
  generalize hr : (b.toNat % 16 * 64 + b1.toNat % 64) * 64 + b2.toNat % 64 = r
  have hshift : r >>> 12 = b.toNat % 16 := by
    rw [Nat.shiftRight_eq_div_pow]
    omega
  have hlead : 0xE0 ||| b.toNat % 16 = 224 + b.toNat % 16 :=
    @high_or 14 4 (b.toNat % 16) (Nat.mod_lt _ (by decide))
  have hfirst : UInt8.ofNat (0xE0 ||| r >>> 12) = b := by
    rw [hshift, hlead]
    apply ofNat_eq
    omega
  have hmid : r >>> 6 % 64 = b1.toNat % 64 := by
    rw [Nat.shiftRight_eq_div_pow]
    omega
  rw [encodeRune, if_neg (by omega), if_neg (by omega), if_neg (by omega), if_pos (by omega),
    hfirst]
  dsimp only
  rw [tail_eq h1 hmid, tail_eq h2 (by omega)]

/-- The rune of four bytes. -/
theorem encodeRune_four {b b1 b2 b3 lo hi : UInt8} (hb : first b = .four lo hi)
    (hlo : lo ≤ b1) (hhi : b1 ≤ hi) (h2 : isTail b2 = true) (h3 : isTail b3 = true) :
    encodeRune (addTail (addTail (addTail (b.toNat &&& 0x07) b1) b2) b3) = [b, b1, b2, b3] := by
  have hlow : b.toNat &&& 0x07 = b.toNat % 8 := Nat.and_two_pow_sub_one_eq_mod b.toNat 3
  have htail2 := Nat.mod_lt b2.toNat (by decide : 0 < 64)
  have htail3 := Nat.mod_lt b3.toNat (by decide : 0 < 64)
  rw [UInt8.le_iff_toNat_le] at hlo hhi
  have hcases := first_four hb
  have h1 : isTail b1 = true := by
    simp only [isTail, Bool.and_eq_true, decide_eq_true_eq, UInt8.le_iff_toNat_le]
    change 128 ≤ b1.toNat ∧ b1.toNat ≤ 191
    omega
  rw [hlow, addTail_eq, addTail_eq, addTail_eq]
  generalize hr : ((b.toNat % 8 * 64 + b1.toNat % 64) * 64 + b2.toNat % 64) * 64 +
    b3.toNat % 64 = r
  have hshift : r >>> 18 = b.toNat % 8 := by
    rw [Nat.shiftRight_eq_div_pow]
    omega
  have hlead : 0xF0 ||| b.toNat % 8 = 240 + b.toNat % 8 :=
    @high_or 30 3 (b.toNat % 8) (Nat.mod_lt _ (by decide))
  have hfirst : UInt8.ofNat (0xF0 ||| r >>> 18) = b := by
    rw [hshift, hlead]
    apply ofNat_eq
    omega
  have hmid1 : r >>> 12 % 64 = b1.toNat % 64 := by
    rw [Nat.shiftRight_eq_div_pow]
    omega
  have hmid2 : r >>> 6 % 64 = b2.toNat % 64 := by
    rw [Nat.shiftRight_eq_div_pow]
    omega
  rw [encodeRune, if_neg (by omega), if_neg (by omega), if_neg (by omega), if_neg (by omega),
    hfirst]
  dsimp only
  rw [tail_eq h1 hmid1, tail_eq h2 hmid2, tail_eq h3 (by omega)]

/-- A rune that is decoded without an error is encoded as its bytes. -/
theorem encodeRune_decodeRune {b : UInt8} {bs : List UInt8}
    (h : decodeRune (b :: bs) ≠ (runeError, 1)) :
    encodeRune (decodeRune (b :: bs)).1 = (b :: bs).take (decodeRune (b :: bs)).2 := by
  unfold decodeRune at h ⊢
  dsimp only at h ⊢
  cases hb : first b with
  | ascii =>
    have hlt := first_ascii hb
    rw [encodeRune, if_pos hlt, UInt8.ofNat_toNat]
    rfl
  | invalid =>
    rw [hb] at h
    exact absurd rfl h
  | two =>
    rw [hb] at h
    obtain _ | ⟨b1, bs⟩ := bs
    · exact absurd rfl h
    · dsimp only at h ⊢
      by_cases h1 : isTail b1 = true
      · rw [if_pos h1]
        exact encodeRune_two hb h1
      · rw [if_neg h1] at h
        exact absurd rfl h
  | three lo hi =>
    rw [hb] at h
    obtain _ | ⟨b1, _ | ⟨b2, bs⟩⟩ := bs
    · exact absurd rfl h
    · exact absurd rfl h
    · dsimp only at h ⊢
      by_cases htails : ((lo ≤ b1 && b1 ≤ hi) && isTail b2) = true
      · rw [if_pos htails]
        simp only [Bool.and_eq_true, decide_eq_true_eq] at htails
        exact encodeRune_three hb htails.1.1 htails.1.2 htails.2
      · rw [if_neg htails] at h
        exact absurd rfl h
  | four lo hi =>
    rw [hb] at h
    obtain _ | ⟨b1, _ | ⟨b2, _ | ⟨b3, bs⟩⟩⟩ := bs
    · exact absurd rfl h
    · exact absurd rfl h
    · exact absurd rfl h
    · dsimp only at h ⊢
      by_cases htails : ((lo ≤ b1 && b1 ≤ hi) && isTail b2 && isTail b3) = true
      · rw [if_pos htails]
        simp only [Bool.and_eq_true, decide_eq_true_eq] at htails
        exact encodeRune_four hb htails.1.1.1 htails.1.1.2 htails.1.2 htails.2
      · rw [if_neg htails] at h
        exact absurd rfl h

theorem isTail_high {b : UInt8} (h : isTail b = true) : 0x80 ≤ b.toNat := by
  simp only [isTail, Bool.and_eq_true, decide_eq_true_eq, UInt8.le_iff_toNat_le] at h
  exact h.1

/-- The bytes of a rune after its first one are above 127. -/
theorem decodeRune_high {b : UInt8} {bs : List UInt8} {c : UInt8}
    (h : c ∈ (b :: bs).take (decodeRune (b :: bs)).2) : c = b ∨ 0x80 ≤ c.toNat := by
  have hone : c ∈ (b :: bs).take 1 → c = b := by
    rw [List.take_succ_cons, List.take_zero]
    exact List.mem_singleton.mp
  unfold decodeRune at h
  dsimp only at h
  cases hb : first b with
  | ascii =>
    rw [hb] at h
    exact .inl (hone h)
  | invalid =>
    rw [hb] at h
    exact .inl (hone h)
  | two =>
    rw [hb] at h
    obtain _ | ⟨b1, bs⟩ := bs
    · exact .inl (hone h)
    · dsimp only at h
      by_cases h1 : isTail b1 = true
      · rw [if_pos h1] at h
        simp only [List.take_succ_cons, List.take_zero, List.mem_cons, List.not_mem_nil,
          or_false] at h
        rcases h with rfl | rfl
        · exact .inl rfl
        · exact .inr (isTail_high h1)
      · rw [if_neg h1] at h
        exact .inl (hone h)
  | three lo hi =>
    rw [hb] at h
    obtain _ | ⟨b1, _ | ⟨b2, bs⟩⟩ := bs
    · exact .inl (hone h)
    · exact .inl (hone h)
    · dsimp only at h
      by_cases htails : ((lo ≤ b1 && b1 ≤ hi) && isTail b2) = true
      · rw [if_pos htails] at h
        simp only [Bool.and_eq_true, decide_eq_true_eq, UInt8.le_iff_toNat_le] at htails
        have hlead := first_three hb
        simp only [List.take_succ_cons, List.take_zero, List.mem_cons, List.not_mem_nil,
          or_false] at h
        rcases h with rfl | rfl | rfl
        · exact .inl rfl
        · exact .inr (by omega)
        · exact .inr (isTail_high htails.2)
      · rw [if_neg htails] at h
        exact .inl (hone h)
  | four lo hi =>
    rw [hb] at h
    obtain _ | ⟨b1, _ | ⟨b2, _ | ⟨b3, bs⟩⟩⟩ := bs
    · exact .inl (hone h)
    · exact .inl (hone h)
    · exact .inl (hone h)
    · dsimp only at h
      by_cases htails : ((lo ≤ b1 && b1 ≤ hi) && isTail b2 && isTail b3) = true
      · rw [if_pos htails] at h
        simp only [Bool.and_eq_true, decide_eq_true_eq, UInt8.le_iff_toNat_le] at htails
        have hlead := first_four hb
        simp only [List.take_succ_cons, List.take_zero, List.mem_cons, List.not_mem_nil,
          or_false] at h
        rcases h with rfl | rfl | rfl | rfl
        · exact .inl rfl
        · exact .inr (by omega)
        · exact .inr (isTail_high htails.1.2)
        · exact .inr (isTail_high htails.2)
      · rw [if_neg htails] at h
        exact .inl (hone h)

/-- A rune has at most 21 bits. -/
theorem decodeRune_lt (bs : List UInt8) : (decodeRune bs).1 < 2 ^ 21 := by
  have hmod : ∀ n, n % 64 < 64 := fun n => Nat.mod_lt n (by decide)
  have htwo : ∀ b : UInt8, b.toNat &&& 0x1F ≤ 0x1F := fun b => Nat.and_le_right
  have hthree : ∀ b : UInt8, b.toNat &&& 0x0F ≤ 0x0F := fun b => Nat.and_le_right
  have hfour : ∀ b : UInt8, b.toNat &&& 0x07 ≤ 0x07 := fun b => Nat.and_le_right
  unfold decodeRune
  split
  · decide
  · next b bs =>
    have hbyte := b.toNat_lt
    split
    · dsimp only
      omega
    · next b1 _ _ =>
      have h0 := htwo b
      have h1 := hmod b1.toNat
      rw [addTail_eq]
      split <;> simp only [runeError] <;> omega
    · next b1 b2 _ _ =>
      have h0 := hthree b
      have h1 := hmod b1.toNat
      have h2 := hmod b2.toNat
      rw [addTail_eq, addTail_eq]
      split <;> simp only [runeError] <;> omega
    · next b1 b2 b3 _ _ =>
      have h0 := hfour b
      have h1 := hmod b1.toNat
      have h2 := hmod b2.toNat
      have h3 := hmod b3.toNat
      rw [addTail_eq, addTail_eq, addTail_eq]
      split <;> simp only [runeError] <;> omega
    · decide

/-! ## Encoding and decoding -/

theorem toNat_tail (n : Nat) : (UInt8.ofNat (0x80 ||| n &&& 0x3F)).toNat = 128 + n % 64 := by
  have hlow : n &&& 0x3F = n % 64 := Nat.and_two_pow_sub_one_eq_mod n 6
  have hlt : n % 64 < 2 ^ 6 := Nat.mod_lt _ (by decide)
  have hor : 0x80 ||| n % 64 = 128 + n % 64 := @high_or 2 6 (n % 64) hlt
  rw [hlow, hor, UInt8.toNat_ofNat']
  omega

theorem isTail_tail (n : Nat) : isTail (UInt8.ofNat (0x80 ||| n &&& 0x3F)) = true := by
  have htail := toNat_tail n
  simp only [isTail, Bool.and_eq_true, decide_eq_true_eq, UInt8.le_iff_toNat_le, htail]
  change 128 ≤ 128 + n % 64 ∧ 128 + n % 64 ≤ 191
  omega

/-- A byte with fixed high bits, as a number. -/
theorem toNat_lead {high k x : Nat} (hx : x < 2 ^ k) (h : high * 2 ^ k + x < 256) :
    (UInt8.ofNat (high * 2 ^ k ||| x)).toNat = high * 2 ^ k + x := by
  rw [high_or hx, UInt8.toNat_ofNat']
  omega

/-- What the first byte says, by its number. -/
theorem first_eq (b : UInt8) : first b =
    if b.toNat < 0x80 then .ascii
    else if b.toNat < 0xC2 then .invalid
    else if b.toNat < 0xE0 then .two
    else if b.toNat = 0xE0 then .three 0xA0 0xBF
    else if b.toNat = 0xED then .three 0x80 0x9F
    else if b.toNat < 0xF0 then .three 0x80 0xBF
    else if b.toNat = 0xF0 then .four 0x90 0xBF
    else if b.toNat < 0xF4 then .four 0x80 0xBF
    else if b.toNat = 0xF4 then .four 0x80 0x8F
    else .invalid := by
  simp only [first, UInt8.lt_iff_toNat_lt, ← UInt8.toNat_inj]
  rfl

/-- The range of the second byte of three. -/
theorem first_eq_three {b : UInt8} (hlo : 0xE0 ≤ b.toNat) (hhi : b.toNat < 0xF0) :
    ∃ lo hi, first b = .three lo hi ∧ ∀ b1 : UInt8, 0x80 ≤ b1.toNat → b1.toNat ≤ 0xBF →
      (b.toNat = 0xE0 → 0xA0 ≤ b1.toNat) → (b.toNat = 0xED → b1.toNat ≤ 0x9F) →
      (lo ≤ b1 && b1 ≤ hi) = true := by
  simp only [Bool.and_eq_true, decide_eq_true_eq, UInt8.le_iff_toNat_le]
  rw [first_eq, if_neg (by omega), if_neg (by omega), if_neg (by omega), if_pos hhi]
  split
  · next heq =>
    exact ⟨_, _, rfl, fun b1 _ h1 h2 _ => ⟨h2 heq, h1⟩⟩
  split
  · next heq =>
    exact ⟨_, _, rfl, fun b1 h1 _ _ h2 => ⟨h1, h2 heq⟩⟩
  · exact ⟨_, _, rfl, fun b1 h1 h2 _ _ => ⟨h1, h2⟩⟩

/-- The range of the second byte of four. -/
theorem first_eq_four {b : UInt8} (hlo : 0xF0 ≤ b.toNat) (hhi : b.toNat ≤ 0xF4) :
    ∃ lo hi, first b = .four lo hi ∧ ∀ b1 : UInt8, 0x80 ≤ b1.toNat → b1.toNat ≤ 0xBF →
      (b.toNat = 0xF0 → 0x90 ≤ b1.toNat) → (b.toNat = 0xF4 → b1.toNat ≤ 0x8F) →
      (lo ≤ b1 && b1 ≤ hi) = true := by
  simp only [Bool.and_eq_true, decide_eq_true_eq, UInt8.le_iff_toNat_le]
  rw [first_eq, if_neg (by omega), if_neg (by omega), if_neg (by omega), if_neg (by omega),
    if_neg (by omega), if_neg (by omega)]
  split
  · next heq =>
    exact ⟨_, _, rfl, fun b1 _ h1 h2 _ => ⟨h2 heq, h1⟩⟩
  split
  · next hlt =>
    exact ⟨_, _, rfl, fun b1 h1 h2 _ _ => ⟨h1, h2⟩⟩
  · have heq : b.toNat = 0xF4 := by omega
    rw [if_pos heq]
    exact ⟨_, _, rfl, fun b1 h1 _ _ h2 => ⟨h1, h2 heq⟩⟩

theorem decodeRune_ascii {b : UInt8} (h : b.toNat < 0x80) (bs : List UInt8) :
    decodeRune (b :: bs) = (b.toNat, 1) := by
  unfold decodeRune
  dsimp only
  rw [first_eq, if_pos h]

theorem encodeRune_ascii {r : Nat} (h : r < 0x80) : encodeRune r = [UInt8.ofNat r] := if_pos h

theorem validRune_lt {r : Nat} (h : validRune r = true) : r < 0x110000 := by
  simp only [validRune, Bool.or_eq_true, Bool.and_eq_true, decide_eq_true_eq] at h
  omega

theorem encodeRune_ne_nil (r : Nat) : encodeRune r ≠ [] := by
  unfold encodeRune
  dsimp only
  split_ifs <;> exact List.cons_ne_nil _ _

/-- What is encoded for a rune is decoded as it, whatever comes after it. -/
theorem decodeRune_encodeRune {r : Nat} (h : validRune r = true) (more : List UInt8) :
    decodeRune (encodeRune r ++ more) = (r, (encodeRune r).length) := by
  have hvalid : r < 0xD800 ∨ 0xDFFF < r ∧ r ≤ 0x10FFFF := by
    simpa [validRune] using h
  have hlow : ∀ n, n &&& 0x1F = n % 32 := fun n => Nat.and_two_pow_sub_one_eq_mod n 5
  have hlow3 : ∀ n, n &&& 0x0F = n % 16 := fun n => Nat.and_two_pow_sub_one_eq_mod n 4
  have hlow4 : ∀ n, n &&& 0x07 = n % 8 := fun n => Nat.and_two_pow_sub_one_eq_mod n 3
  have hshift : ∀ k, r >>> k = r / 2 ^ k := fun k => Nat.shiftRight_eq_div_pow r k
  rw [encodeRune]
  dsimp only
  by_cases hone : r < 0x80
  · have hr : (UInt8.ofNat r).toNat = r := by
      rw [UInt8.toNat_ofNat']
      omega
    rw [if_pos hone, List.singleton_append]
    unfold decodeRune
    dsimp only
    rw [first_eq, hr, if_pos hone]
    rfl
  rw [if_neg hone]
  by_cases htwo : r < 0x800
  · have hlead : (UInt8.ofNat (0xC0 ||| r >>> 6)).toNat = 192 + r / 64 := by
      rw [hshift]
      exact @toNat_lead 3 6 (r / 2 ^ 6) (by omega) (by omega)
    rw [if_pos htwo, List.cons_append, List.singleton_append]
    unfold decodeRune
    dsimp only
    rw [first_eq, hlead, if_neg (by omega), if_neg (by omega), if_pos (by omega)]
    dsimp only
    rw [if_pos (isTail_tail r), addTail_eq, toNat_tail, hlow]
    refine Prod.ext ?_ rfl
    change (192 + r / 64) % 32 * 64 + (128 + r % 64) % 64 = r
    omega
  rw [if_neg htwo, if_neg (by omega)]
  have hshift6 : r >>> 6 = r / 64 := hshift 6
  have htail6 : (UInt8.ofNat (0x80 ||| r >>> 6 &&& 0x3F)).toNat = 128 + r / 64 % 64 := by
    rw [toNat_tail, hshift6]
  by_cases hthree : r < 0x10000
  · have hlead : (UInt8.ofNat (0xE0 ||| r >>> 12)).toNat = 224 + r / 4096 := by
      rw [hshift]
      exact @toNat_lead 14 4 (r / 2 ^ 12) (by omega) (by omega)
    obtain ⟨lo, hi, hfirst, hrange⟩ := first_eq_three (b := UInt8.ofNat (0xE0 ||| r >>> 12))
      (by omega) (by omega)
    have hsecond := hrange (UInt8.ofNat (0x80 ||| r >>> 6 &&& 0x3F)) (by omega) (by omega)
      (by omega) (by omega)
    rw [if_pos hthree]
    simp only [List.cons_append, List.nil_append]
    unfold decodeRune
    dsimp only
    rw [hfirst]
    dsimp only
    rw [hsecond, isTail_tail, Bool.and_self, if_pos rfl, addTail_eq, addTail_eq, htail6, toNat_tail,
      hlead, hlow3]
    refine Prod.ext ?_ rfl
    change ((224 + r / 4096) % 16 * 64 + (128 + r / 64 % 64) % 64) * 64 + (128 + r % 64) % 64 = r
    omega
  · have hlead : (UInt8.ofNat (0xF0 ||| r >>> 18)).toNat = 240 + r / 262144 := by
      rw [hshift]
      exact @toNat_lead 30 3 (r / 2 ^ 18) (by omega) (by omega)
    have hshift12 : r >>> 12 = r / 4096 := hshift 12
    have htail12 : (UInt8.ofNat (0x80 ||| r >>> 12 &&& 0x3F)).toNat = 128 + r / 4096 % 64 := by
      rw [toNat_tail, hshift12]
    obtain ⟨lo, hi, hfirst, hrange⟩ := first_eq_four (b := UInt8.ofNat (0xF0 ||| r >>> 18))
      (by omega) (by omega)
    have hsecond := hrange (UInt8.ofNat (0x80 ||| r >>> 12 &&& 0x3F)) (by omega) (by omega)
      (by omega) (by omega)
    rw [if_neg hthree]
    simp only [List.cons_append, List.nil_append]
    unfold decodeRune
    dsimp only
    rw [hfirst]
    dsimp only
    rw [hsecond, isTail_tail, isTail_tail, Bool.and_self, Bool.and_self, if_pos rfl, addTail_eq,
      addTail_eq, addTail_eq, htail6, htail12, toNat_tail, hlead, hlow4]
    refine Prod.ext ?_ rfl
    change (((240 + r / 262144) % 8 * 64 + (128 + r / 4096 % 64) % 64) * 64 +
      (128 + r / 64 % 64) % 64) * 64 + (128 + r % 64) % 64 = r
    omega

/-- A rune that is decoded without an error is valid. -/
theorem validRune_decodeRune {b : UInt8} {bs : List UInt8}
    (h : decodeRune (b :: bs) ≠ (runeError, 1)) : validRune (decodeRune (b :: bs)).1 = true := by
  have hlow : ∀ n, n &&& 0x1F = n % 32 := fun n => Nat.and_two_pow_sub_one_eq_mod n 5
  have hlow3 : ∀ n, n &&& 0x0F = n % 16 := fun n => Nat.and_two_pow_sub_one_eq_mod n 4
  have hlow4 : ∀ n, n &&& 0x07 = n % 8 := fun n => Nat.and_two_pow_sub_one_eq_mod n 3
  have hmod : ∀ n, n % 64 < 64 := fun n => Nat.mod_lt n (by decide)
  have hvalid : ∀ r, r < 0xD800 ∨ 0xDFFF < r ∧ r ≤ 0x10FFFF → validRune r = true := by
    intro r hr
    simpa [validRune] using hr
  refine hvalid _ ?_
  unfold decodeRune at h ⊢
  dsimp only at h ⊢
  cases hb : first b with
  | ascii =>
    have hlt := first_ascii hb
    exact .inl (Nat.lt_trans hlt (by decide))
  | invalid =>
    rw [hb] at h
    exact absurd rfl h
  | two =>
    rw [hb] at h
    obtain _ | ⟨b1, bs⟩ := bs
    · exact absurd rfl h
    · have h1 := hmod b1.toNat
      dsimp only
      rw [addTail_eq, hlow]
      split
      · dsimp only
        omega
      · exact .inr (by decide)
  | three lo hi =>
    rw [hb] at h
    obtain _ | ⟨b1, _ | ⟨b2, bs⟩⟩ := bs
    · exact absurd rfl h
    · exact absurd rfl h
    · have hlead := first_three hb
      have h1 := hmod b1.toNat
      have h2 := hmod b2.toNat
      dsimp only
      rw [addTail_eq, addTail_eq, hlow3]
      split
      · next htails =>
        simp only [Bool.and_eq_true, decide_eq_true_eq, UInt8.le_iff_toNat_le] at htails
        dsimp only
        omega
      · exact .inr (by decide)
  | four lo hi =>
    rw [hb] at h
    obtain _ | ⟨b1, _ | ⟨b2, _ | ⟨b3, bs⟩⟩⟩ := bs
    · exact absurd rfl h
    · exact absurd rfl h
    · exact absurd rfl h
    · have hlead := first_four hb
      have h1 := hmod b1.toNat
      have h2 := hmod b2.toNat
      have h3 := hmod b3.toNat
      dsimp only
      rw [addTail_eq, addTail_eq, addTail_eq, hlow4]
      split
      · next htails =>
        simp only [Bool.and_eq_true, decide_eq_true_eq, UInt8.le_iff_toNat_le] at htails
        dsimp only
        omega
      · exact .inr (by decide)

/-- The bytes of a rune above 127 are above 127. -/
theorem encodeRune_high {r : Nat} (hr : validRune r = true) (h : 0x80 ≤ r) {b : UInt8}
    (hb : b ∈ encodeRune r) : 0x80 ≤ b.toNat := by
  have hdecode := decodeRune_encodeRune hr []
  rw [List.append_nil] at hdecode
  obtain ⟨first, rest, hencode⟩ := List.exists_cons_of_ne_nil (encodeRune_ne_nil r)
  rw [hencode] at hb hdecode
  have hmem : b ∈ (first :: rest).take (decodeRune (first :: rest)).2 := by
    rw [hdecode, List.take_length]
    exact hb
  rcases decodeRune_high hmem with rfl | hhigh
  · by_contra hlow
    rw [decodeRune_ascii (Nat.not_le.mp hlow), Prod.mk.injEq] at hdecode
    omega
  · exact hhigh

end OneJit.Utf8
