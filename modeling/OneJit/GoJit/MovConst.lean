import OneJit.GoJit.Immediate

/-!
# Constants on arm64

`movConstReg` puts any constant in a register, with one instruction where that is possible.
-/

namespace OneJit.GoJit

open Arm64 (Word field decodeBitMasks trunc width)

/-- `movk`. -/
def movk (cval : BitVec 16) (shift : Nat) (dst : Reg) : Except String (List Word) :=
  if cval ≠ 0 then do
    return [kbit dst ||| 0xF2800000#32 ||| BitVec.ofNat 32 shift <<< 17 ||| cval.setWidth 32 <<< 5 |||
      (← kval dst)]
  else .ok []

/-- The half words above the lower two, for a register of eight bytes. -/
def movkHigh (cval : BitVec 64) (dst : Reg) : Except String (List Word) :=
  if dst.kind.size = 8 then do
    return (← movk ((cval >>> 32).setWidth 16) 32 dst) ++ (← movk ((cval >>> 48).setWidth 16) 48 dst)
  else .ok []

/-- `movConstReg`. -/
def movConstReg (c : Const) (dst : Reg) : Except String (List Word) := do
  let cval := c.val
  let xzr : Reg := ⟨xzr, dst.kind⟩
  if BitVec.sle 0 cval && BitVec.slt cval 0x10000 then
    let immcval : Word := 0x40#32 <<< 19 ||| cval.setWidth 32
    return [kbit dst ||| 0x12800000#32 ||| immcval <<< 5 ||| (← kval dst)]
  else if BitVec.slt cval 0 && BitVec.sle (-0x10000) cval then
    let immcval : Word := (~~~cval).setWidth 32
    return [kbit dst ||| 0x12800000#32 ||| immcval <<< 5 ||| (← kval dst)]
  else
    match ← tryOr3RegConstReg xzr cval dst with
    | some word => return [word]
    | none =>
      match ← tryOr3RegConstReg xzr ((cval.setWidth 32).setWidth 64) dst with
      | some word => return word :: (← movkHigh cval dst)
      | none =>
        let immcval : Word := 0x40#32 <<< 19 ||| (cval &&& 0xFFFF#64).setWidth 32
        let word := kbit dst ||| 0x12800000#32 ||| immcval <<< 5 ||| (← kval dst)
        return word :: (← movk ((cval >>> 16).setWidth 16) 16 dst) ++ (← movkHigh cval dst)

/-! ## Instructions that move constants -/

section Moves

variable {dst : Reg}

/-- The words put a number in the register whose low bits are those of the constant. -/
def Loads (ws : List Word) (v : BitVec 64) (dst : Reg) : Prop :=
  ∀ σ : Arm64.State, ∃ u, Arm64.run ws σ = some (σ.put dst.x u) ∧
    u.setWidth (8 * dst.kind.size) = v.setWidth (8 * dst.kind.size)

theorem setWidth_trunc (h : IntReg dst) (v : BitVec 64) :
    (trunc dst.sf v).setWidth (8 * dst.kind.size) = v.setWidth (8 * dst.kind.size) := by
  rcases h.size with hs | hs | hs | hs <;>
    simp [trunc, Reg.sf, hs, BitVec.setWidth_setWidth_of_le]

/-- The bits of `movz` and `movn` with a constant that fits in 16 bits. -/
theorem moveWide_word (x y : Word) (imm : BitVec 16) :
    (x ||| 0x12800000#32 ||| (0x40#32 <<< 19 ||| imm.setWidth 32) <<< 5 ||| y =
      x ||| field 29 Arm64.MoveWide.movz.code ||| field 23 0b100101#6 ||| field 21 0#2 |||
        field 5 imm ||| y) ∧
    (x ||| 0x12800000#32 ||| (imm.setWidth 32) <<< 5 ||| y =
      x ||| field 29 Arm64.MoveWide.movn.code ||| field 23 0b100101#6 ||| field 21 0#2 |||
        field 5 imm ||| y) := by
  constructor
  · rw [BitVec.shiftLeft_or_distrib]
    simp only [BitVec.or_assoc]
    congr 1
    simp only [← BitVec.or_assoc]
    rfl
  · simp only [BitVec.or_assoc]
    congr 1
    simp only [← BitVec.or_assoc]
    rfl

theorem run_movz (h : IntReg dst) (imm : BitVec 16) (ws : List Word) (σ : Arm64.State) :
    Arm64.run ((kbit dst ||| 0x12800000#32 ||| (0x40#32 <<< 19 ||| imm.setWidth 32) <<< 5 |||
      field 0 dst.x) :: ws) σ = Arm64.run ws (σ.put dst.x (imm.setWidth 64)) := by
  have htrunc : trunc dst.sf (imm.setWidth 64) = imm.setWidth 64 := by
    cases dst.sf <;> simp [trunc, BitVec.setWidth_setWidth_of_le]
  rw [(moveWide_word _ _ imm).1, kbit_eq h, Arm64.run,
    Arm64.decode_moveWide .movz dst.sf 0#2 imm dst.x (.inr rfl), Option.bind_some, Arm64.exec,
    Arm64.set_eq _ h.x_ne]
  simp [htrunc]

theorem run_movn (h : IntReg dst) (imm : BitVec 16) (ws : List Word) (σ : Arm64.State) :
    Arm64.run ((kbit dst ||| 0x12800000#32 ||| imm.setWidth 32 <<< 5 ||| field 0 dst.x) :: ws) σ =
      Arm64.run ws (σ.put dst.x (trunc dst.sf (~~~imm.setWidth 64))) := by
  rw [(moveWide_word _ _ imm).2, kbit_eq h, Arm64.run,
    Arm64.decode_moveWide .movn dst.sf 0#2 imm dst.x (.inr rfl), Option.bind_some, Arm64.exec,
    Arm64.set_eq _ h.x_ne]
  simp

/-- `movk` changes a half word, and does nothing if it is zero already. -/
theorem run_movk (h : IntReg dst) (imm : BitVec 16) (hw : BitVec 2) (u : BitVec 64)
    (hu : ∀ i, 16 * hw.toNat ≤ i → i < 16 * hw.toNat + 16 → u.getLsbD i = false) :
    ∃ ws, movk imm (16 * hw.toNat) dst = .ok ws ∧ ∀ (ws' : List Word) (σ : Arm64.State),
      Arm64.run (ws ++ ws') (σ.put dst.x u) =
        Arm64.run ws' (σ.put dst.x (Arm64.insertHalf u hw imm)) := by
  by_cases himm : imm = 0
  · refine ⟨[], by simp [movk, himm], fun ws' σ => ?_⟩
    rw [himm, Arm64.insertHalf_zero hu]
    rfl
  · refine ⟨_, by rw [movk, if_pos himm, kval_eq h]; rfl, fun ws' σ => ?_⟩
    -- the word is one on 64 bits for every register
    have hword : kbit dst ||| 0xF2800000#32 ||| BitVec.ofNat 32 (16 * hw.toNat) <<< 17 |||
        imm.setWidth 32 <<< 5 ||| field 0 dst.x =
        field 31 (BitVec.ofBool true) ||| field 29 Arm64.MoveWide.movk.code |||
          field 23 0b100101#6 ||| field 21 hw ||| field 5 imm ||| field 0 dst.x := by
      have hshift : BitVec.ofNat 32 (16 * hw.toNat) <<< 17 = field 21 hw := by
        clear hu
        revert hw
        decide
      have hconst : kbit dst ||| 0xF2800000#32 = field 31 (BitVec.ofBool true) |||
          field 29 Arm64.MoveWide.movk.code ||| field 23 0b100101#6 := by
        rw [kbit_eq h]
        cases dst.sf <;> rfl
      rw [hconst, hshift]
      rfl
    rw [hword, List.singleton_append, Arm64.run,
      Arm64.decode_moveWide .movk true hw imm dst.x (.inl rfl), Option.bind_some, Arm64.exec,
      Arm64.set_eq _ h.x_ne, Arm64.get_put h.x_ne, Arm64.put_put]
    rfl

/-- Bits that agree in the width of the register. -/
theorem setWidth_eq_of_bits {u v : BitVec 64} {n : Nat}
    (h : ∀ i < n, u.getLsbD i = v.getLsbD i) : u.setWidth n = v.setWidth n := by
  apply BitVec.eq_of_getLsbD_eq
  intro i hi
  simp [hi, h i hi]

/-- The high half words are added to a number that has the low ones. -/
theorem run_movkHigh (h : IntReg dst) {cval u : BitVec 64}
    (hlow : ∀ i < 32, u.getLsbD i = cval.getLsbD i) (hhigh : ∀ i, 32 ≤ i → u.getLsbD i = false) :
    ∃ ws, movkHigh cval dst = .ok ws ∧ ∀ σ : Arm64.State, ∃ u',
      Arm64.run ws (σ.put dst.x u) = some (σ.put dst.x u') ∧
        u'.setWidth (8 * dst.kind.size) = cval.setWidth (8 * dst.kind.size) := by
  by_cases hsize : dst.kind.size = 8
  · have h2 : (2 : BitVec 2).toNat = 2 := rfl
    have h3 : (3 : BitVec 2).toNat = 3 := rfl
    have hbits2 := fun {i : Nat} hi =>
      @Arm64.getLsbD_insertHalf u 2 ((cval >>> 32).setWidth 16) i hi
    obtain ⟨ws₁, hws₁, hrun₁⟩ := run_movk h ((cval >>> 32).setWidth 16) 2 u
      fun i hi _ => hhigh i (by omega)
    obtain ⟨ws₂, hws₂, hrun₂⟩ := run_movk h ((cval >>> 48).setWidth 16) 3
      (Arm64.insertHalf u 2 ((cval >>> 32).setWidth 16)) fun i hi hi' => by
        rw [hbits2 (by omega), if_neg (by omega)]
        exact hhigh i (by omega)
    refine ⟨ws₁ ++ ws₂, ?_, fun σ => ⟨Arm64.insertHalf (Arm64.insertHalf u 2
      ((cval >>> 32).setWidth 16)) 3 ((cval >>> 48).setWidth 16), ?_, ?_⟩⟩
    · rw [h2] at hws₁
      rw [h3] at hws₂
      simp only [movkHigh, hsize, if_true, hws₁, hws₂]
      rfl
    · rw [hrun₁, ← List.append_nil ws₂, hrun₂]
      rfl
    · apply setWidth_eq_of_bits
      intro i hi
      have hi' : i < 64 := by omega
      rw [Arm64.getLsbD_insertHalf _ _ _ hi', hbits2 hi', h2, h3]
      split_ifs with h48 h32
      · simp [show i - 48 < 16 by omega, show 48 + (i - 48) = i by omega]
      · simp [show i - 32 < 16 by omega, show 32 + (i - 32) = i by omega]
      · exact hlow i (by omega)
  · refine ⟨[], by simp [movkHigh, hsize], fun σ => ⟨u, rfl, ?_⟩⟩
    have hle : 8 * dst.kind.size ≤ 32 := by
      have := h.size
      omega
    exact setWidth_eq_of_bits fun i hi => hlow i (by omega)

/-- A constant that a logical instruction can hold. -/
theorem tryOr3_cases (h : IntReg dst) (v : BitVec 64) :
    tryOr3RegConstReg ⟨xzr, dst.kind⟩ v dst = .ok none ∨
      ∃ word, tryOr3RegConstReg ⟨xzr, dst.kind⟩ v dst = .ok (some word) ∧
        ∀ ws σ, Arm64.run (word :: ws) σ = Arm64.run ws (σ.put dst.x (trunc dst.sf v)) := by
  have htable : (immediate3 .or3).encode64 v dst.kind = makeImm3Bitwise (width dst.sf) v := by
    rcases h.size with hs | hs | hs | hs <;>
      simp [immediate3, Immediate3.encode64, Reg.sf, hs, width, imm3Bitwise32, imm3Bitwise64]
  rw [tryOr3RegConstReg, htable]
  cases hv : makeImm3Bitwise (width dst.sf) v with
  | none => exact .inl rfl
  | some e =>
    obtain ⟨n, imms, immr, rfl, hdecode⟩ := makeImm3Bitwise_decodes hv
    have hword : immWord .or3 ⟨xzr, dst.kind⟩
        (field 22 n ||| field 16 immr ||| field 10 imms) dst =
        .ok (field 31 (BitVec.ofBool dst.sf) ||| field 29 Arm64.Logical.orr.code |||
          field 23 0b100100#6 ||| field 22 n ||| field 16 immr ||| field 10 imms |||
          field 5 31#5 ||| field 0 dst.x) := by
      have hvalue : immWord .or3 ⟨xzr, dst.kind⟩
          (field 22 n ||| field 16 immr ||| field 10 imms) dst =
          .ok (kbit dst ||| 0x32#32 <<< 24 ||| (field 22 n ||| field 16 immr ||| field 10 imms) |||
            field 0 31#5 <<< 5 ||| field 0 dst.x) := by
        rw [immWord, kval_eq h, show (Op3.or3 == Op3.or3) = true from rfl, valOrX31_xzr]
        rfl
      have hcode : 0x32#32 <<< 24 = field 29 Arm64.Logical.orr.code ||| field 23 0b100100#6 := rfl
      have hzero : field 0 31#5 <<< 5 = field 5 31#5 := rfl
      rw [hvalue, kbit_eq h, hcode, hzero]
      simp only [← BitVec.or_assoc]
    refine .inr ⟨_, congrArg (Except.map some) hword, fun ws σ => ?_⟩
    have heval : trunc dst.sf (Arm64.Logical.orr.eval (σ.get dst.sf 31#5) (trunc dst.sf v)) =
        trunc dst.sf v := by
      have hzero : σ.get dst.sf 31#5 = 0#64 := rfl
      rw [Arm64.Logical.eval, hzero, BitVec.zero_or]
      cases dst.sf <;> simp [trunc]
    rw [Arm64.run, Arm64.decode_logicalImm .orr dst.sf n imms immr 31#5 dst.x hdecode,
      Option.bind_some, Arm64.exec, Arm64.setSp_eq, heval]

theorem getLsbD_lowHalf (i : Nat) : (0xFFFF#64).getLsbD i = decide (i < 16) := by
  by_cases hi : i < 64
  · revert i
    decide
  · rw [BitVec.getLsbD_of_ge _ _ (by omega)]
    simp [show ¬ i < 16 by omega]

/-- A number that fits in 16 bits. -/
theorem setWidth_16 {v : BitVec 64} (h : v.toNat < 0x10000) :
    (v.setWidth 16).setWidth 64 = v ∧ (v.setWidth 16).setWidth 32 = v.setWidth 32 := by
  constructor <;> apply BitVec.eq_of_toNat_eq <;> simp only [BitVec.toNat_setWidth] <;> omega

theorem toNat_lt_of_toInt {v : BitVec 64} (h0 : (0#64).toInt ≤ v.toInt)
    (h1 : v.toInt < (0x10000#64).toInt) : v.toNat < 0x10000 := by
  have hlit : (0x10000#64).toInt = 0x10000 := by decide
  rw [hlit, BitVec.toInt_eq_toNat_cond] at h1
  rw [BitVec.toInt_zero, BitVec.toInt_eq_toNat_cond] at h0
  split_ifs at h0 h1 <;> omega

theorem toNat_not_lt_of_toInt {v : BitVec 64} (h0 : v.toInt < (0#64).toInt)
    (h1 : (-0x10000#64).toInt ≤ v.toInt) : (~~~v).toNat < 0x10000 := by
  have hlit : (-0x10000#64).toInt = -0x10000 := by decide
  rw [hlit, BitVec.toInt_eq_toNat_cond] at h1
  rw [BitVec.toInt_zero, BitVec.toInt_eq_toNat_cond] at h0
  rw [BitVec.toNat_not]
  split_ifs at h0 h1 <;> omega

/-- `movConstReg`. -/
theorem movConstReg_loads (h : IntReg dst) (c : Const) :
    ∃ ws, movConstReg c dst = .ok ws ∧ Loads ws c.val dst := by
  have hk := kval_eq h
  by_cases hpos : (BitVec.sle 0 c.val && BitVec.slt c.val 0x10000) = true
  · have hsmall : c.val.toNat < 0x10000 := by
      simp only [BitVec.sle, BitVec.slt, Bool.and_eq_true, decide_eq_true_eq] at hpos
      exact toNat_lt_of_toInt hpos.1 hpos.2
    obtain ⟨h64, h32⟩ := setWidth_16 hsmall
    refine ⟨[kbit dst ||| 0x12800000#32 ||| (0x40#32 <<< 19 ||| c.val.setWidth 32) <<< 5 |||
      field 0 dst.x], ?_, fun σ => ⟨c.val, ?_, rfl⟩⟩
    · simp only [movConstReg, hpos, if_true, hk]
      rfl
    · rw [← h32, run_movz h, h64]
      rfl
  by_cases hneg : (BitVec.slt c.val 0 && BitVec.sle (-0x10000) c.val) = true
  · have hsmall : (~~~c.val).toNat < 0x10000 := by
      simp only [BitVec.sle, BitVec.slt, Bool.and_eq_true, decide_eq_true_eq] at hneg
      exact toNat_not_lt_of_toInt hneg.1 hneg.2
    obtain ⟨h64, h32⟩ := setWidth_16 hsmall
    refine ⟨[kbit dst ||| 0x12800000#32 ||| (~~~c.val).setWidth 32 <<< 5 ||| field 0 dst.x], ?_,
      fun σ => ⟨trunc dst.sf c.val, ?_, setWidth_trunc h c.val⟩⟩
    · simp only [movConstReg, hpos, hneg, if_true, hk]
      rfl
    · rw [← h32, run_movn h, h64, BitVec.not_not]
      rfl
  rcases tryOr3_cases h c.val with hnone | ⟨word, hword, hrun⟩
  · rcases tryOr3_cases h ((c.val.setWidth 32).setWidth 64) with hnone' | ⟨word, hword, hrun⟩
    · -- the low half word, and then the others
      have hlow : (c.val &&& 0xFFFF#64).toNat < 0x10000 := by
        rw [BitVec.toNat_and]
        exact Nat.lt_of_le_of_lt Nat.and_le_right (by decide)
      obtain ⟨h64, h32⟩ := setWidth_16 hlow
      have h1 : (1 : BitVec 2).toNat = 1 := rfl
      obtain ⟨ws₁, hws₁, hrun₁⟩ := run_movk h ((c.val >>> 16).setWidth 16) 1 (c.val &&& 0xFFFF#64)
        fun i hi _ => by
          rw [BitVec.getLsbD_and, getLsbD_lowHalf, h1] at *
          simp [show ¬ i < 16 by omega]
      have hbits : ∀ i < 64, (Arm64.insertHalf (c.val &&& 0xFFFF#64) 1
          ((c.val >>> 16).setWidth 16)).getLsbD i = (decide (i < 32) && c.val.getLsbD i) := by
        intro i hi
        rw [Arm64.getLsbD_insertHalf _ _ _ hi, h1, BitVec.getLsbD_and, getLsbD_lowHalf]
        split_ifs with h16
        · simp [show i - 16 < 16 by omega, show 16 + (i - 16) = i by omega,
            show i < 32 by omega]
        · by_cases hlt : i < 16
          · simp [hlt, show i < 32 by omega]
          · simp [hlt, show ¬ i < 32 by omega]
      obtain ⟨ws₂, hws₂, hrun₂⟩ := @run_movkHigh dst h c.val
        (Arm64.insertHalf (c.val &&& 0xFFFF#64) 1 ((c.val >>> 16).setWidth 16))
        (fun i hi => by rw [hbits i (by omega)]; simp [hi]) fun i hi => by
          by_cases hlt : i < 64
          · rw [hbits i hlt]
            simp [show ¬ i < 32 by omega]
          · exact BitVec.getLsbD_of_ge _ _ (by omega)
      refine ⟨(kbit dst ||| 0x12800000#32 ||| (0x40#32 <<< 19 |||
        (c.val &&& 0xFFFF#64).setWidth 32) <<< 5 ||| field 0 dst.x) :: ws₁ ++ ws₂, ?_, fun σ => ?_⟩
      · have hws₁' : movk ((c.val >>> 16).setWidth 16) 16 dst = .ok ws₁ := hws₁
        simp only [movConstReg, hpos, hneg, hnone, hnone', hk, hws₁', hws₂]
        rfl
      · obtain ⟨u', hu', hval⟩ := hrun₂ σ
        refine ⟨u', ?_, hval⟩
        rw [← h32, List.cons_append, run_movz h, h64, hrun₁, hu']
    · have htrunc : trunc dst.sf ((c.val.setWidth 32).setWidth 64) =
          (c.val.setWidth 32).setWidth 64 := by
        cases dst.sf <;> simp [trunc]
      rw [htrunc] at hrun
      obtain ⟨ws₂, hws₂, hrun₂⟩ := @run_movkHigh dst h c.val ((c.val.setWidth 32).setWidth 64)
        (fun i hi => by simp [hi, show i < 64 by omega])
        fun i hi => by simp [show ¬ i < 32 by omega]
      refine ⟨word :: ws₂, ?_, fun σ => ?_⟩
      · simp only [movConstReg, hpos, hneg, hnone, hword, hws₂]
        rfl
      · obtain ⟨u', hu', hval⟩ := hrun₂ σ
        exact ⟨u', (hrun ws₂ σ).trans hu', hval⟩
  · refine ⟨[word], ?_, fun σ => ⟨trunc dst.sf c.val, ?_, setWidth_trunc h c.val⟩⟩
    · simp only [movConstReg, hpos, hneg, hword]
      rfl
    · rw [hrun]
      rfl

end Moves

/-- What the processor makes of an entry of a table, for registers of `m` bits. -/
def decodeEntry (e : Word) (m : Nat) : Option (BitVec 64) :=
  decodeBitMasks (e.extractLsb' 22 1) (e.extractLsb' 10 6) (e.extractLsb' 16 6) m

theorem decodeEntry_eq {sf : Bool} {v : BitVec 64} {e : Word}
    (h : makeImm3Bitwise (width sf) v = some e) : decodeEntry e (width sf) = some (trunc sf v) := by
  have hok := bitwiseEntries_ok sf _ (makeImm3Bitwise_mem h)
  rw [entryOk, Bool.and_eq_true, beq_iff_eq, beq_iff_eq] at hok
  exact hok.2

/-- `movConstReg` leaves the constant in the register and changes nothing else. The values of the
table for 64 bits are those that the processor decodes their entries to; in the table for 32 bits
this is so for the values that fit in 32 bits, and for the low 32 bits of the others. -/
theorem constants_exact (c : Const) (dst : Reg) (v : BitVec 64) (e : BitVec 32) :
    (IntReg dst → ∃ ws, movConstReg c dst = .ok ws ∧
      ∀ σ : Arm64.State, ∃ σ', Arm64.run ws σ = some σ' ∧
        (σ'.x dst.x).setWidth (8 * dst.kind.size) = c.val.setWidth (8 * dst.kind.size) ∧
        (∀ r, r ≠ dst.x → σ'.x r = σ.x r) ∧ σ'.mem = σ.mem) ∧
    (imm3Bitwise64 v = some e → decodeEntry e 64 = some v) ∧
    (imm3Bitwise32 v = some e → decodeEntry e 32 = some ((v.setWidth 32).setWidth 64) ∧
      (decodeEntry e 32 = some v ↔ v.toNat < 2 ^ 32)) := by
  refine ⟨fun h => ?_, fun he => ?_, fun he => ?_⟩
  · obtain ⟨ws, hws, hloads⟩ := movConstReg_loads h c
    refine ⟨ws, hws, fun σ => ?_⟩
    obtain ⟨u, hrun, hu⟩ := hloads σ
    exact ⟨_, hrun, by rw [Arm64.put_x_self, hu], fun r hr => Arm64.put_x_of_ne hr, rfl⟩
  · exact @decodeEntry_eq true v e he
  · have hlow : decodeEntry e 32 = some ((v.setWidth 32).setWidth 64) := @decodeEntry_eq false v e he
    refine ⟨hlow, ?_⟩
    rw [hlow, Option.some.injEq, ← BitVec.toNat_inj]
    simp only [BitVec.toNat_setWidth]
    omega

theorem constants_exact_movz :
    (∃ ws, movConstReg ⟨5, .int64⟩ ⟨1, .int64⟩ = .ok ws ∧
      ∀ σ : Arm64.State, ∃ σ', Arm64.run ws σ = some σ' ∧
        (σ'.x 0).setWidth 64 = (5 : BitVec 64).setWidth 64 ∧
        (∀ r, r ≠ 0 → σ'.x r = σ.x r) ∧ σ'.mem = σ.mem) ∧
    decodeEntry 0x400000#32 64 = some 1 ∧
    decodeEntry 0 32 = some ((BitVec.setWidth 32 1#64).setWidth 64) ∧
    (decodeEntry 0 32 = some 1 ↔ (1#64).toNat < 2 ^ 32) :=
  ⟨(constants_exact ⟨5, .int64⟩ ⟨1, .int64⟩ 0 0).1 ⟨by decide, by decide, by decide, rfl⟩,
    (constants_exact ⟨5, .int64⟩ ⟨1, .int64⟩ 1 0x400000#32).2.1 (by decide +kernel),
    (constants_exact ⟨5, .int64⟩ ⟨1, .int64⟩ 1 0).2.2 (by decide +kernel)⟩

/-- The rotation in 64 bits leaves copies of the value above its 32 bits. -/
theorem rotated_too_far : ¬ ∀ v e, imm3Bitwise32 v = some e → decodeEntry e 32 = some v := by
  intro hall
  have hentry : imm3Bitwise32 0x4000000040000000#64 = some 0x20000#32 := by decide +kernel
  exact absurd (hall _ _ hentry) (by decide)

end OneJit.GoJit
