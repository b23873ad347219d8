import Mathlib.Tactic.IntervalCases
import OneJit.Value

/-!
# Immediate operands

`class Imm` packs a constant of 23 significant bits into one code item: the low bit is set,
then four bits of element kind, three bits that count rotations by eight and 23 bits of
payload; the top bit complements the result. A constant that does not fit is written after
its header, as 64 bits for a kind of that size and as 32 bits for every other kind.
-/

namespace OneJit

namespace Imm

/-- `Imm::Direct::lrot`. The rotations are multiples of eight up to 64. -/
def lrot (val : BitVec 64) (rotateBits : Nat) : BitVec 64 :=
  if rotateBits = 0 then val else val <<< rotateBits ||| val >>> (64 - rotateBits)

/-- `Imm::Direct::rrot`. -/
def rrot (val : BitVec 64) (rotateBits : Nat) : BitVec 64 :=
  if rotateBits = 0 then val else val >>> rotateBits ||| val <<< (64 - rotateBits)

/-- The test `ekind <= eVoid` on the whole kind byte. -/
def atMostVoid (k : Kind) : Bool := k == .bad || k == .void

/-- `Imm::Direct::can_direct`. -/
def canDirect (k : Kind) (bits : BitVec 64) (rotateBits : Nat) (xorMask : BitVec 64) : Bool :=
  atMostVoid k || (rrot (bits ^^^ xorMask) rotateBits).ule 0x7FFFFF

/-- `Imm::Direct::make_direct`. -/
def makeDirect (k : Kind) (bits : BitVec 64) (rotateBits : Nat) (xorMask : BitVec 64) :
    BitVec 32 :=
  1#32 ||| BitVec.ofNat 32 k.ekind.toNat <<< 1 |||
    (if atMostVoid k then 0#32
     else BitVec.ofNat 32 (rotateBits / 8) <<< 5 |||
      (rrot (bits ^^^ xorMask) rotateBits).setWidth 32 <<< 8 |||
      (xorMask &&& 0xFFFFFFFF80000000).setWidth 32)

/-- `Imm::Direct::recurse`: the nine rotations in turn, each without and with the complement.
The fuel is the number of attempts left. -/
def recurse (k : Kind) (bits : BitVec 64) : Nat → Nat → BitVec 64 → BitVec 32
  | 0, _, _ => 0
  | fuel + 1, rotateBits, xorMask =>
    if canDirect k bits rotateBits xorMask then makeDirect k bits rotateBits xorMask
    else if xorMask = 0#64 then recurse k bits fuel rotateBits (~~~xorMask)
    else if rotateBits < 64 then recurse k bits fuel (rotateBits + 8) (~~~xorMask)
    else 0

/-- `Imm::Direct(bits, ekind, 0)`: the direct item if there is one, otherwise zero. -/
def directOf (v : Value) : BitVec 32 :=
  if v.kind.simd ≠ 0 then 0 else recurse v.kind v.bits 18 0 0

/-- `Imm::Direct(uint16_t bits, eKind)`. -/
def directOfUint16 (k : Kind) (bits : BitVec 16) : BitVec 32 :=
  makeDirect k (bits.setWidth 64) 0 0

/-- `Imm::Direct(int16_t bits, eKind)`. -/
def directOfInt16 (k : Kind) (bits : BitVec 16) : BitVec 32 :=
  makeDirect k (bits.signExtend 64) 0 (if bits.msb then BitVec.allOnes 64 else 0)

/-- `Imm::Direct::kind`. -/
def directKind (data : BitVec 32) : Kind :=
  ⟨EKind.ofVal ((data >>> 1 &&& 0xF).toNat), 0⟩

/-- `Imm::Direct::to_const`. -/
def toConst (data : BitVec 32) : Value :=
  let xorMask : BitVec 64 := -(data >>> 31).setWidth 64
  let imm : BitVec 64 := (data >>> 8 &&& 0x7FFFFF).setWidth 64
  let rotationBits := ((data &&& 0xE0) >>> 2).toNat
  ⟨xorMask ^^^ lrot imm rotationBits, directKind data⟩

/-- What `parse_indirect` reads after `write_indirect`: 32 bits are written and read back for
every kind whose size is not 64 bits. -/
def indirectBits (v : Value) : BitVec 64 :=
  if v.kind.bitsize = 64 then v.bits else (v.bits.setWidth 32).setWidth 64

/-- `Const(func, value).val()`: a constant as it is read back from the code. -/
def readBack (v : Value) : Value :=
  if directOf v ≠ 0 then toConst (directOf v) else ⟨indirectBits v, v.kind⟩

/-! ## The direct encoding is faithful -/

private theorem shiftLeft_or (a b n : Nat) (h : b < 2 ^ n) :
    a <<< n ||| b = a * 2 ^ n + b := by
  rw [← Nat.shiftLeft_add_eq_or_of_lt h, Nat.shiftLeft_eq]

/-- The four fields of a direct item do not overlap. -/
private theorem pack_toNat (e r m x : BitVec 32) (he : e.toNat < 16) (hr : r.toNat < 8)
    (hm : m.toNat < 2 ^ 23) (hx : x = 0 ∨ x = 0x80000000) :
    (1#32 ||| e <<< 1 ||| (r <<< 5 ||| m <<< 8 ||| x)).toNat =
      1 + 2 * e.toNat + 32 * r.toNat + 256 * m.toNat + x.toNat := by
  have hlow : e.toNat <<< 1 ||| 1 = e.toNat * 2 ^ 1 + 1 := shiftLeft_or _ _ _ (by decide)
  have hmid : r.toNat <<< 5 ||| (e.toNat * 2 ^ 1 + 1) =
      r.toNat * 2 ^ 5 + (e.toNat * 2 ^ 1 + 1) := shiftLeft_or _ _ _ (by omega)
  have hhigh : m.toNat <<< 8 ||| (r.toNat * 2 ^ 5 + (e.toNat * 2 ^ 1 + 1)) =
      m.toNat * 2 ^ 8 + (r.toNat * 2 ^ 5 + (e.toNat * 2 ^ 1 + 1)) :=
    shiftLeft_or _ _ _ (by omega)
  have hshift : ∀ (y : BitVec 32) (n : Nat), y.toNat * 2 ^ n < 2 ^ 32 →
      (y <<< n).toNat = y.toNat <<< n := by
    intro y n hy
    rw [BitVec.toNat_shiftLeft, Nat.shiftLeft_eq, Nat.mod_eq_of_lt hy]
  have hpack : (1#32 ||| e <<< 1 ||| (r <<< 5 ||| m <<< 8 ||| x)).toNat =
      x.toNat ||| (m.toNat * 2 ^ 8 + (r.toNat * 2 ^ 5 + (e.toNat * 2 ^ 1 + 1))) := by
    rw [← hhigh, ← hmid, ← hlow]
    simp only [BitVec.toNat_or]
    rw [hshift e 1 (by omega), hshift r 5 (by omega), hshift m 8 (by omega)]
    rw [show (1#32).toNat = 1 from rfl]
    ac_rfl
  rw [hpack]
  rcases hx with rfl | rfl
  · rw [show (0 : BitVec 32).toNat = 0 from rfl, Nat.zero_or]
    omega
  · rw [show (0x80000000 : BitVec 32).toNat = 1 <<< 31 from rfl, shiftLeft_or _ _ _ (by omega)]
    omega

/-- The fields of a direct item, as its decoder cuts them out. -/
private theorem fields_of_toNat (data : BitVec 32) (e r m x : Nat) (he : e < 16) (hr : r < 8)
    (hm : m < 2 ^ 23) (h : data.toNat = 1 + 2 * e + 32 * r + 256 * m + 2 ^ 31 * x) :
    (data >>> 1 &&& 0xF).toNat = e ∧ ((data &&& 0xE0) >>> 2).toNat = 8 * r ∧
      (data >>> 8 &&& 0x7FFFFF).toNat = m ∧ (data >>> 31).toNat = x := by
  have h15 : (0xF : BitVec 32).toNat = 2 ^ 4 - 1 := rfl
  have h23 : (0x7FFFFF : BitVec 32).toNat = 2 ^ 23 - 1 := rfl
  have hmask : (data &&& 0xE0) >>> 2 = (data >>> 5 &&& 0x7) <<< 3 := by
    ext i hi
    interval_cases i <;> simp
  refine ⟨?_, ?_, ?_, ?_⟩
  · rw [BitVec.toNat_and, h15, Nat.and_two_pow_sub_one_eq_mod, BitVec.toNat_ushiftRight,
      Nat.shiftRight_eq_div_pow, h]
    omega
  · have h7 : (data >>> 5 &&& 0x7).toNat = r := by
      rw [BitVec.toNat_and, show (0x7 : BitVec 32).toNat = 2 ^ 3 - 1 from rfl,
        Nat.and_two_pow_sub_one_eq_mod, BitVec.toNat_ushiftRight, Nat.shiftRight_eq_div_pow, h]
      omega
    rw [hmask, BitVec.toNat_shiftLeft, h7, Nat.shiftLeft_eq]
    omega
  · rw [BitVec.toNat_and, h23, Nat.and_two_pow_sub_one_eq_mod, BitVec.toNat_ushiftRight,
      Nat.shiftRight_eq_div_pow, h]
    omega
  · rw [BitVec.toNat_ushiftRight, Nat.shiftRight_eq_div_pow, h]
    omega

/-- A rotation to the left undoes the rotation to the right. -/
private theorem lrot_rrot (val : BitVec 64) (rot : Nat) (h : rot < 64) :
    lrot (rrot val rot) rot = val := by
  by_cases h0 : rot = 0
  · simp [lrot, rrot, h0]
  · simp only [lrot, rrot, h0, if_false]
    ext i hi
    simp only [BitVec.getElem_or, BitVec.getElem_shiftLeft, BitVec.getElem_ushiftRight,
      BitVec.getLsbD_or, BitVec.getLsbD_shiftLeft, BitVec.getLsbD_ushiftRight]
    by_cases hlt : i < rot
    · have hge : ¬ (64 - rot + i < 64 - rot) := by omega
      have hge' : 64 - rot + i < 64 := by omega
      have hout : val.getLsbD (rot + (64 - rot + i)) = false :=
        BitVec.getLsbD_of_ge _ _ (by omega)
      simp [hlt, hge', hout, ← BitVec.getLsbD_eq_getElem]
    · have hin : rot + (i - rot) = i := by omega
      have hlow : i - rot < 64 - rot := by omega
      have hout : val.getLsbD (rot + (64 - rot + i)) = false :=
        BitVec.getLsbD_of_ge _ _ (by omega)
      simp [hlt, hin, hlow, hout, ← BitVec.getLsbD_eq_getElem]

private theorem rrot_64 (val : BitVec 64) : rrot val 64 = val := by
  have hout : val >>> 64 = 0#64 := by
    ext i hi
    simp
  simp [rrot, hout]

/-- What the search for a direct encoding has established before each attempt. -/
private structure Attempt (k : Kind) (bits : BitVec 64) (rot : Nat) (mask : BitVec 64) : Prop where
  isMask : mask = 0#64 ∨ mask = BitVec.allOnes 64
  mod : rot % 8 = 0
  le : rot ≤ 64
  plain : 0 < rot ∨ mask ≠ 0#64 → canDirect k bits 0 0#64 = false
  compl : 0 < rot → canDirect k bits 0 (BitVec.allOnes 64) = false

private theorem recurse_spec (k : Kind) (bits : BitVec 64) (fuel rot : Nat) (mask : BitVec 64)
    (inv : Attempt k bits rot mask) (h : recurse k bits fuel rot mask ≠ 0) :
    ∃ r m, recurse k bits fuel rot mask = makeDirect k bits r m ∧ canDirect k bits r m ∧
      r % 8 = 0 ∧ r < 64 ∧ (m = 0#64 ∨ m = BitVec.allOnes 64) := by
  induction fuel generalizing rot mask with
  | zero => simp [recurse] at h
  | succ fuel ih =>
      by_cases hcan : canDirect k bits rot mask = true
      · -- the last rotation repeats the first one, which has failed
        have hlt : rot < 64 := by
          by_contra hge
          have hrot : rot = 64 := by have := inv.le; omega
          have hsame : canDirect k bits 64 mask = canDirect k bits 0 mask := by
            simp only [canDirect, rrot_64]
            simp [rrot]
          rw [hrot, hsame] at hcan
          rcases inv.isMask with rfl | rfl
          · exact absurd hcan (by simp [inv.plain (.inl (by omega))])
          · exact absurd hcan (by rw [inv.compl (by omega)]; decide)
        exact ⟨rot, mask, by simp [recurse, hcan], hcan, inv.mod, hlt, inv.isMask⟩
      · have hcan' : canDirect k bits rot mask = false := by simpa using hcan
        by_cases hmask : mask = 0#64
        · have hstep : recurse k bits (fuel + 1) rot mask =
              recurse k bits fuel rot (~~~mask) := by
            rw [recurse, if_neg hcan, if_pos hmask]
          rw [hstep] at h ⊢
          refine ih rot (~~~mask) ⟨?_, inv.mod, inv.le, ?_, inv.compl⟩ h
          · right
            simp [hmask]
          · intro _
            by_cases hrot : rot = 0
            · rw [hrot, hmask] at hcan'
              exact hcan'
            · exact inv.plain (.inl (by omega))
        · by_cases hrot : rot < 64
          · have hones : mask = BitVec.allOnes 64 := inv.isMask.resolve_left hmask
            have hstep : recurse k bits (fuel + 1) rot mask =
                recurse k bits fuel (rot + 8) (~~~mask) := by
              rw [recurse, if_neg hcan, if_neg hmask, if_pos hrot]
            rw [hstep] at h ⊢
            have hmod := inv.mod
            refine ih (rot + 8) (~~~mask) ⟨?_, by omega, by omega, ?_, ?_⟩ h
            · left
              simp [hones]
            · exact fun _ => inv.plain (.inr hmask)
            · intro _
              by_cases h0 : rot = 0
              · rw [h0, hones] at hcan'
                exact hcan'
              · exact inv.compl (by omega)
          · rw [recurse, if_neg hcan, if_neg hmask, if_neg hrot] at h
            exact absurd rfl h

/-- The number a direct item is, field by field. -/
private theorem makeDirect_toNat (k : Kind) (bits : BitVec 64) (rot : Nat) (mask : BitVec 64)
    (hvoid : atMostVoid k = false) (hcan : canDirect k bits rot mask) (hrot : rot < 64)
    (hmask : mask = 0#64 ∨ mask = BitVec.allOnes 64) :
    (makeDirect k bits rot mask).toNat = 1 + 2 * k.ekind.toNat + 32 * (rot / 8) +
      256 * (rrot (bits ^^^ mask) rot).toNat + 2 ^ 31 * (if mask = 0#64 then 0 else 1) := by
  have he := k.ekind.toNat_lt
  have hle : (rrot (bits ^^^ mask) rot).toNat ≤ 0x7FFFFF := by
    simpa [canDirect, hvoid, BitVec.ule] using hcan
  have hpay : ((rrot (bits ^^^ mask) rot).setWidth 32).toNat =
      (rrot (bits ^^^ mask) rot).toNat := by
    rw [BitVec.toNat_setWidth]
    omega
  have heNat : (BitVec.ofNat 32 k.ekind.toNat).toNat = k.ekind.toNat := by
    rw [BitVec.toNat_ofNat]
    omega
  have hrNat : (BitVec.ofNat 32 (rot / 8)).toNat = rot / 8 := by
    rw [BitVec.toNat_ofNat]
    omega
  have htop : ((mask &&& 0xFFFFFFFF80000000).setWidth 32).toNat =
      2 ^ 31 * (if mask = 0#64 then 0 else 1) := by
    rcases hmask with rfl | rfl <;> decide
  have hsign : (mask &&& 0xFFFFFFFF80000000).setWidth 32 = 0 ∨
      (mask &&& 0xFFFFFFFF80000000).setWidth 32 = 0x80000000 := by
    rcases hmask with rfl | rfl <;> decide
  have hpack := pack_toNat (BitVec.ofNat 32 k.ekind.toNat) (BitVec.ofNat 32 (rot / 8))
    ((rrot (bits ^^^ mask) rot).setWidth 32) ((mask &&& 0xFFFFFFFF80000000).setWidth 32)
    (by omega) (by omega) (by omega) hsign
  rw [heNat, hrNat, hpay, htop] at hpack
  simpa [makeDirect, hvoid, BitVec.or_assoc] using hpack

/-- Decoding a direct item gives back the bits it was made from. -/
private theorem toConst_makeDirect (k : Kind) (bits : BitVec 64) (rot : Nat) (mask : BitVec 64)
    (hvoid : atMostVoid k = false) (hcan : canDirect k bits rot mask) (hmod : rot % 8 = 0)
    (hrot : rot < 64) (hmask : mask = 0#64 ∨ mask = BitVec.allOnes 64) :
    toConst (makeDirect k bits rot mask) = ⟨bits, k.nosimd⟩ := by
  have hle : (rrot (bits ^^^ mask) rot).toNat ≤ 0x7FFFFF := by
    simpa [canDirect, hvoid, BitVec.ule] using hcan
  obtain ⟨hkind, hrotation, himm, hsign⟩ := fields_of_toNat (makeDirect k bits rot mask)
    k.ekind.toNat (rot / 8) (rrot (bits ^^^ mask) rot).toNat (if mask = 0#64 then 0 else 1)
    k.ekind.toNat_lt (by omega) (by omega)
    (makeDirect_toNat k bits rot mask hvoid hcan hrot hmask)
  have hpay : (makeDirect k bits rot mask >>> 8 &&& 0x7FFFFF).setWidth 64 =
      rrot (bits ^^^ mask) rot := by
    apply BitVec.eq_of_toNat_eq
    rw [BitVec.toNat_setWidth, himm]
    omega
  have hcompl : -(makeDirect k bits rot mask >>> 31).setWidth 64 = mask := by
    have hbit : makeDirect k bits rot mask >>> 31 =
        BitVec.ofNat 32 (if mask = 0#64 then 0 else 1) := by
      apply BitVec.eq_of_toNat_eq
      rw [hsign, BitVec.toNat_ofNat]
      split <;> rfl
    rw [hbit]
    rcases hmask with rfl | rfl <;> decide
  have hrot8 : 8 * (rot / 8) = rot := by omega
  simp only [toConst, directKind, hkind, hrotation, hpay, hcompl, hrot8]
  rw [lrot_rrot _ _ hrot]
  simp [BitVec.xor_comm mask, BitVec.xor_assoc, Kind.nosimd]

/-- A constant of a kind above `Void` that is encoded directly is read back unchanged. -/
theorem toConst_directOf (v : Value) (hvoid : atMostVoid v.kind = false)
    (h : directOf v ≠ 0) : toConst (directOf v) = v := by
  have hsimd : v.kind.simd = 0 := by
    by_contra hne
    exact h (by simp [directOf, hne])
  have hdirect : directOf v = recurse v.kind v.bits 18 0 0 := by
    simp [directOf, hsimd]
  rw [hdirect] at h ⊢
  have inv : Attempt v.kind v.bits 0 0 := ⟨.inl rfl, rfl, by omega, by simp, by simp⟩
  obtain ⟨r, m, heq, hcan, hmod, hr, hm⟩ := recurse_spec v.kind v.bits 18 0 0 inv h
  rw [heq, toConst_makeDirect v.kind v.bits r m hvoid hcan hmod hr hm]
  obtain ⟨bits, ekind, simd⟩ := v
  simp_all [Kind.nosimd]

private theorem makeDirect_void (k : Kind) (bits : BitVec 64) (rot : Nat) (mask : BitVec 64)
    (hvoid : atMostVoid k) : k.nosimd = k ∧
      makeDirect k bits rot mask = 1#32 ||| BitVec.ofNat 32 k.ekind.toNat <<< 1 := by
  have hk : k = .bad ∨ k = .void := by simpa [atMostVoid] using hvoid
  constructor
  · rcases hk with rfl | rfl <;> rfl
  · simp [makeDirect, hvoid]

/-- A direct item starts with a set bit and the element kind. -/
theorem makeDirect_tag (k : Kind) (bits : BitVec 64) (rot : Nat) (mask : BitVec 64)
    (hcan : canDirect k bits rot mask) (hrot : rot < 64)
    (hmask : mask = 0#64 ∨ mask = BitVec.allOnes 64) :
    (makeDirect k bits rot mask).toNat % 2 = 1 ∧
      directKind (makeDirect k bits rot mask) = k.nosimd := by
  by_cases hvoid : atMostVoid k
  · have hk : k = .bad ∨ k = .void := by simpa [atMostVoid] using hvoid
    rw [(makeDirect_void k bits rot mask hvoid).2]
    rcases hk with rfl | rfl <;> decide
  · have hvoid' : atMostVoid k = false := by simpa using hvoid
    have hle : (rrot (bits ^^^ mask) rot).toNat ≤ 0x7FFFFF := by
      simpa [canDirect, hvoid', BitVec.ule] using hcan
    have hnat := makeDirect_toNat k bits rot mask hvoid' hcan hrot hmask
    have hfields := fields_of_toNat (makeDirect k bits rot mask)
      k.ekind.toNat (rot / 8) (rrot (bits ^^^ mask) rot).toNat (if mask = 0#64 then 0 else 1)
      k.ekind.toNat_lt (by omega) (by omega) hnat
    refine ⟨?_, ?_⟩
    · have hx : (if mask = 0#64 then 0 else 1) < 2 := by split <;> omega
      omega
    · rw [directKind, hfields.1, EKind.ofVal_toNat, Kind.nosimd]

private theorem canDirect_of_le (k : Kind) (bits mask : BitVec 64)
    (hle : (bits ^^^ mask).toNat ≤ 0x7FFFFF) : canDirect k bits 0 mask := by
  have hule : (rrot (bits ^^^ mask) 0).ule 0x7FFFFF := by
    simpa [rrot, BitVec.ule] using hle
  rw [canDirect, hule, Bool.or_true]

private theorem canDirect_uint16 (k : Kind) (bits : BitVec 16) :
    canDirect k (bits.setWidth 64) 0 0#64 := by
  have hlt := bits.isLt
  apply canDirect_of_le
  rw [BitVec.xor_zero, BitVec.toNat_setWidth]
  omega

private theorem canDirect_int16 (k : Kind) (bits : BitVec 16) :
    canDirect k (bits.signExtend 64) 0 (if bits.msb then BitVec.allOnes 64 else 0#64) := by
  by_cases hmsb : bits.msb = true
  · have hsmall := (~~~bits).isLt
    have hcompl : bits.signExtend 64 ^^^ BitVec.allOnes 64 = (~~~bits).setWidth 64 := by
      rw [BitVec.signExtend_eq_not_setWidth_not_of_msb_true hmsb, BitVec.xor_allOnes,
        BitVec.not_not]
    rw [if_pos hmsb]
    apply canDirect_of_le
    rw [hcompl, BitVec.toNat_setWidth]
    omega
  · have hzero : bits.signExtend 64 = bits.setWidth 64 :=
      BitVec.signExtend_eq_setWidth_of_msb_false (by simpa using hmsb)
    rw [if_neg hmsb, hzero]
    exact canDirect_uint16 k bits

theorem directOfUint16_tag (k : Kind) (bits : BitVec 16) :
    (directOfUint16 k bits).toNat % 2 = 1 ∧ directKind (directOfUint16 k bits) = k.nosimd :=
  makeDirect_tag k _ 0 _ (canDirect_uint16 k bits) (by omega) (.inl rfl)

theorem directOfInt16_tag (k : Kind) (bits : BitVec 16) :
    (directOfInt16 k bits).toNat % 2 = 1 ∧ directKind (directOfInt16 k bits) = k.nosimd :=
  makeDirect_tag k _ 0 _ (canDirect_int16 k bits) (by omega) (by split <;> simp)

theorem directOf_tag (v : Value) (h : directOf v ≠ 0) :
    (directOf v).toNat % 2 = 1 ∧ directKind (directOf v) = v.kind := by
  have hsimd : v.kind.simd = 0 := by
    by_contra hne
    exact h (by simp [directOf, hne])
  have hdirect : directOf v = recurse v.kind v.bits 18 0 0 := by
    simp [directOf, hsimd]
  rw [hdirect] at h ⊢
  have inv : Attempt v.kind v.bits 0 0 := ⟨.inl rfl, rfl, by omega, by simp, by simp⟩
  obtain ⟨r, m, heq, hcan, -, hr, hm⟩ := recurse_spec v.kind v.bits 18 0 0 inv h
  have htag := makeDirect_tag v.kind v.bits r m hcan hr hm
  have hnosimd : v.kind.nosimd = v.kind := by
    obtain ⟨bits, ekind, simd⟩ := v
    simp_all [Kind.nosimd]
  rw [heq]
  exact ⟨htag.1, htag.2.trans hnosimd⟩

/-! ## Which constants have a direct form -/

theorem makeDirect_ne_zero (k : Kind) (bits : BitVec 64) (rot : Nat) (mask : BitVec 64) :
    makeDirect k bits rot mask ≠ 0 := by
  intro h
  have hbit := congrArg (·.getLsbD 0) h
  simp only [makeDirect, BitVec.getLsbD_or] at hbit
  cases hbit

/-- Both attempts with one rotation. -/
private theorem recurse_rotation (k : Kind) (bits : BitVec 64) (fuel rot : Nat) :
    recurse k bits (fuel + 2) rot 0#64 =
      if canDirect k bits rot 0#64 then makeDirect k bits rot 0#64
      else if canDirect k bits rot (BitVec.allOnes 64) then
        makeDirect k bits rot (BitVec.allOnes 64)
      else if rot < 64 then recurse k bits fuel (rot + 8) 0#64 else 0 := by
  have hones : ~~~(0#64) = BitVec.allOnes 64 := by decide
  have hzero : ~~~(BitVec.allOnes 64) = 0#64 := by decide
  rw [recurse, if_pos rfl, recurse, hones, hzero, if_neg (show BitVec.allOnes 64 ≠ 0#64 by decide)]

/-- One rotation has a form, or one of those after it. -/
private theorem recurse_rotation_ne_zero (k : Kind) (bits : BitVec 64) (fuel rot : Nat) :
    recurse k bits (fuel + 2) rot 0#64 ≠ 0 ↔
      (canDirect k bits rot 0#64 ∨ canDirect k bits rot (BitVec.allOnes 64)) ∨
        rot < 64 ∧ recurse k bits fuel (rot + 8) 0#64 ≠ 0 := by
  have hmade : ∀ mask, makeDirect k bits rot mask ≠ 0 :=
    fun mask => makeDirect_ne_zero k bits rot mask
  rw [recurse_rotation]
  split
  · next h => exact iff_of_true (hmade _) (.inl (.inl h))
  · next hplain =>
    split
    · next h => exact iff_of_true (hmade _) (.inl (.inr h))
    · next hcompl =>
      rw [or_iff_right (not_or.mpr ⟨hplain, hcompl⟩)]
      split
      · next hlt => exact (and_iff_right hlt).symm
      · next hge => exact iff_of_false (not_not_intro rfl) fun h => hge h.1

/-- The search finds a form when one of the rotations that are left has it. -/
private theorem recurse_ne_zero_iff (k : Kind) (bits : BitVec 64) (j : Nat) (hj : j ≤ 8) :
    recurse k bits (2 * j + 2) (8 * (8 - j)) 0#64 ≠ 0 ↔ ∃ i ≤ j,
      canDirect k bits (8 * (8 - i)) 0#64 ∨
        canDirect k bits (8 * (8 - i)) (BitVec.allOnes 64) := by
  rw [recurse_rotation_ne_zero]
  induction j with
  | zero =>
    constructor
    · rintro (h | ⟨hlt, -⟩)
      · exact ⟨0, le_rfl, h⟩
      · omega
    · rintro ⟨i, hi, h⟩
      obtain rfl := Nat.le_zero.mp hi
      exact .inl h
  | succ j ih =>
    rw [show 2 * (j + 1) = 2 * j + 2 by omega, show 8 * (8 - (j + 1)) + 8 = 8 * (8 - j) by omega,
      recurse_rotation_ne_zero, ih (by omega)]
    constructor
    · rintro (h | ⟨-, i, hi, h⟩)
      · exact ⟨j + 1, le_rfl, h⟩
      · exact ⟨i, by omega, h⟩
    · rintro ⟨i, hi, h⟩
      obtain rfl | hlt : i = j + 1 ∨ i ≤ j := by omega
      · exact .inl h
      · exact .inr ⟨by omega, i, hlt, h⟩

/-- A rotation of the bits, or of their complement, has 23 significant bits. -/
def fitsDirect (bits : BitVec 64) : Bool :=
  (List.range 8).any fun i =>
    (rrot bits (8 * i)).ule 0x7FFFFF || (rrot (~~~bits) (8 * i)).ule 0x7FFFFF

theorem directOf_ne_zero_iff (v : Value) (hvoid : atMostVoid v.kind = false)
    (hsimd : v.kind.simd = 0) : directOf v ≠ 0 ↔ fitsDirect v.bits := by
  have hcan : ∀ rot, canDirect v.kind v.bits rot 0#64 ∨
        canDirect v.kind v.bits rot (BitVec.allOnes 64) ↔
      ((rrot v.bits rot).ule 0x7FFFFF || (rrot (~~~v.bits) rot).ule 0x7FFFFF) = true := by
    intro rot
    rw [canDirect, canDirect, hvoid, Bool.false_or, Bool.false_or, BitVec.xor_zero,
      BitVec.xor_allOnes, Bool.or_eq_true]
  rw [directOf, if_neg (not_not_intro hsimd)]
  refine (recurse_ne_zero_iff v.kind v.bits 8 le_rfl).trans ?_
  simp only [hcan]
  rw [fitsDirect, List.any_eq_true]
  simp only [List.mem_range]
  constructor
  · rintro ⟨i, hi, h⟩
    by_cases hzero : i = 0
    · -- a rotation by 64 is none
      subst hzero
      rw [show 8 * (8 - 0) = 64 from rfl, rrot_64, rrot_64] at h
      exact ⟨0, by omega, h⟩
    · exact ⟨8 - i, by omega, h⟩
  · rintro ⟨i, hi, h⟩
    exact ⟨8 - i, by omega, by rwa [show 8 - (8 - i) = i by omega]⟩

/-- The value is read back as it is: for `Void` it is zero, else it is written with all its bits, or
the high bits are zero, or it has a direct form. -/
def isKept (v : Value) : Bool :=
  if v.kind = .void then v.bits == 0
  else v.kind.bitsize == 64 || v.bits.ule 0xFFFFFFFF || fitsDirect v.bits

theorem directOf_void (bits : BitVec 64) : directOf ⟨bits, .void⟩ = 3 := by
  have hvoid : canDirect .void bits 0 0 = true := rfl
  have hsimd : ¬(⟨bits, .void⟩ : Value).kind.simd ≠ 0 := not_not_intro rfl
  rw [directOf, if_neg hsimd, recurse, if_pos hvoid, makeDirect,
    if_pos (show atMostVoid .void by rfl)]
  change 1#32 ||| BitVec.ofNat 32 1 <<< 1 ||| 0#32 = 3#32
  decide

theorem indirectBits_eq_iff (v : Value) :
    indirectBits v = v.bits ↔ (v.kind.bitsize == 64 || v.bits.ule 0xFFFFFFFF) = true := by
  rw [indirectBits, Bool.or_eq_true, beq_iff_eq]
  by_cases hwide : v.kind.bitsize = 64
  · simp [hwide]
  · rw [if_neg hwide, ← BitVec.toNat_inj, BitVec.toNat_setWidth, BitVec.toNat_setWidth, BitVec.ule,
      decide_eq_true_iff]
    have hlt := v.bits.isLt
    constructor
    · intro h
      exact .inr (by rw [show (0xFFFFFFFF : BitVec 64).toNat = 2 ^ 32 - 1 from rfl]; omega)
    · intro h
      have hle := h.resolve_left hwide
      rw [show (0xFFFFFFFF : BitVec 64).toNat = 2 ^ 32 - 1 from rfl] at hle
      omega

/-- The constants that survive the encoding. -/
theorem readBack_eq_iff (v : Value) (hvalid : v.isValid) (hsimd : v.kind.simd = 0) :
    readBack v = v ↔ isKept v := by
  obtain ⟨bits, kind⟩ := v
  rw [isKept, readBack]
  dsimp only at hsimd ⊢
  by_cases hvoid : kind = .void
  · subst hvoid
    rw [if_pos rfl, directOf_void, if_pos (by decide), beq_iff_eq]
    have hconst : toConst 3 = ⟨0, .void⟩ := by decide
    rw [hconst, Value.mk.injEq]
    exact ⟨fun h => h.1.symm, fun h => ⟨h.symm, rfl⟩⟩
  · have hbad : kind ≠ .bad := by
      rintro rfl
      cases hvalid
    have hnot : atMostVoid kind = false := by simp [atMostVoid, hbad, hvoid]
    have hdirect := directOf_ne_zero_iff ⟨bits, kind⟩ hnot hsimd
    rw [if_neg hvoid, Bool.or_eq_true, ← hdirect]
    by_cases hform : directOf ⟨bits, kind⟩ ≠ 0
    · rw [if_pos hform, toConst_directOf ⟨bits, kind⟩ hnot hform]
      exact iff_of_true rfl (.inr hform)
    · rw [if_neg hform, ← indirectBits_eq_iff ⟨bits, kind⟩, or_iff_left hform, Value.mk.injEq]
      exact and_iff_left rfl

end Imm

end OneJit
