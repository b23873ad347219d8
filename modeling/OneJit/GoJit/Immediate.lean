import OneJit.GoJit.Optimize
import OneJit.Lib.Arm64

/-!
# Immediate constants on arm64

The numbers of registers and the constants that a three-argument instruction can hold, with the
tables of those of logical instructions.
-/

namespace OneJit.GoJit

open Arm64 (Word field)

/-! ## Registers -/

/-- `XZR`, which is also `XSP`. -/
def xzr : RegId := 32

/-- `RegIdKind`. -/
def regIdKind (id : RegId) : Kind :=
  if 1 ≤ id ∧ id ≤ 32 then .uint64 else if 33 ≤ id ∧ id ≤ 64 then .float64 else .invalid

/-- `kbit`: the bit for the width of a register. -/
def kbit (r : Reg) : Word := (BitVec.ofNat 32 r.kind.size &&& 8) <<< 28

/-- `kval`: the number of an integer register. -/
def kval (r : Reg) : Except String Word :=
  if !arm64.valid r.id then .error "invalid register"
  else if (regIdKind r.id).isFloat then .error "assertion failed"
  else .ok ((r.id - 1).setWidth 32)

/-- `valOrX31`. -/
def valOrX31 (id : RegId) (allowX31 : Bool) : Except String Word :=
  if (!allowX31 || id != xzr) && !arm64.valid id then .error "invalid register"
  else .ok ((id - 1).setWidth 32)

/-! ## Immediate constants -/

/-- The inner loop: one value for each rotation. -/
def rotations (width size length : Nat) : Nat → Nat → BitVec 64 → List (BitVec 64 × Word)
  | 0, _, _ => []
  | n + 1, rotation, bitmask =>
    (bitmask, ((BitVec.ofNat 32 size &&& 64) ||| BitVec.ofNat 32 rotation) <<< 16 |||
      (0x7800#32 * BitVec.ofNat 32 size) &&& 0xF000#32 ||| BitVec.ofNat 32 (length - 1) <<< 10) ::
      rotations width size length n (rotation + 1)
        ((bitmask >>> 1) ||| (bitmask <<< (width - 1)))

/-- The entries for elements of a size that have `length` ones. -/
def runEntries (width size length : Nat) : List (BitVec 64 × Word) :=
  let bitmask := BitVec.ofNat 64 (2 ^ width - 1) >>> (width - length)
  let double (bitmask : BitVec 64) (e : Nat) : BitVec 64 :=
    if size ≤ e ∧ e < width then bitmask ||| bitmask <<< e else bitmask
  let bitmask := [2, 4, 8, 16, 32].foldl double bitmask
  rotations width size length size 0 bitmask

/-- The entries in the order in which they are made. -/
def bitwiseEntries (width : Nat) : List (BitVec 64 × Word) :=
  ([2, 4, 8, 16, 32, 64].filter (· ≤ width)).flatMap fun size =>
    (List.range' 1 (size - 1)).flatMap fun length => runEntries width size length

/-- `makeImm3Bitwise32` and `makeImm3Bitwise64`: a later entry replaces an earlier one. -/
def makeImm3Bitwise (width : Nat) : BitVec 64 → Option Word :=
  (bitwiseEntries width).foldl (fun table e => Function.update table e.1 (some e.2)) fun _ => none

def imm3Bitwise32 : BitVec 64 → Option Word := makeImm3Bitwise 32

def imm3Bitwise64 : BitVec 64 → Option Word := makeImm3Bitwise 64

/-- `Immediate3`: the style of an immediate constant. -/
inductive Immediate3
  | none | addSub | bitwise | shift | index
  deriving DecidableEq, Repr

/-- `immediate3`. -/
def immediate3 : Op3 → Immediate3
  | .add3 | .sub3 => .addSub
  | .and3 | .or3 | .xor3 => .bitwise
  | .shl3 | .shr3 => .shift
  | .getidx | .setidx => .index
  | _ => .none

/-- `Encode64`. -/
def Immediate3.encode64 (imm : Immediate3) (val : BitVec 64) (kind : Kind) : Option Word :=
  match imm with
  | .addSub =>
    if val = val &&& 0xFFF#64 then some ((val <<< 10).setWidth 32)
    else if val = val &&& 0xFFF000#64 then some (0x400000#32 ||| (val >>> 2).setWidth 32)
    else Option.none
  | .bitwise => if kind.size * 8 ≤ 32 then imm3Bitwise32 val else imm3Bitwise64 val
  | .shift => if val < BitVec.ofNat 64 (kind.size * 8) then some (val.setWidth 32) else Option.none
  | .index => if val ≤ 4095 then some (val.setWidth 32) else Option.none
  | .none => Option.none

/-- `immval`. -/
def immval : Op3 → Except String Word
  | .and3 => .ok (0x12#32 <<< 24)
  | .add3 => .ok (0x11#32 <<< 24)
  | .shl3 | .shr3 => .ok (0x53#32 <<< 24)
  | .or3 => .ok (0x32#32 <<< 24)
  | .xor3 => .ok (0x52#32 <<< 24)
  | .sub3 => .ok (0x51#32 <<< 24)
  | .getidx | .setidx => .ok 1#32
  | _ => .error "cannot encode Op3 instruction with immediate constant"

/-- The instruction of `tryOp3RegConstReg` for the styles `Imm3AddSub` and `Imm3Bitwise`. -/
def immWord (op : Op3) (a : Reg) (immcval : Word) (dst : Reg) : Except String Word := do
  return kbit dst ||| (← immval op) ||| immcval ||| (← valOrX31 a.id (op == .or3)) <<< 5 |||
    (← kval dst)

/-- `tryOp3RegConstReg` for `OR3`, which extends no operand. -/
def tryOr3RegConstReg (a : Reg) (cval : BitVec 64) (dst : Reg) : Except String (Option Word) :=
  match (immediate3 .or3).encode64 cval dst.kind with
  | none => .ok none
  | some immcval => (immWord .or3 a immcval dst).map some

/-! ## Words and their fields -/

/-- An integer register: `X0` to `X30`, of a kind that is not a float. -/
structure IntReg (r : Reg) : Prop where
  lo : 1 ≤ r.id
  hi : r.id ≤ 31
  size : r.kind.size = 1 ∨ r.kind.size = 2 ∨ r.kind.size = 4 ∨ r.kind.size = 8
  int : r.kind.isFloat = false

/-- The number of a register in an instruction. -/
def Reg.x (r : Reg) : BitVec 5 := (r.id - 1).setWidth 5

/-- The instruction is one on 64 bits. -/
def Reg.sf (r : Reg) : Bool := r.kind.size == 8

section Words

variable {r : Reg}

theorem kbit_eq (h : IntReg r) : kbit r = field 31 (BitVec.ofBool r.sf) := by
  rcases h.size with h | h | h | h <;> simp only [kbit, Reg.sf, h] <;> decide

theorem IntReg.x_ne (h : IntReg r) : r.x ≠ 31 := by
  obtain ⟨hlo, hhi, -⟩ := h
  intro hx
  have hnat := congrArg BitVec.toNat hx
  simp only [Reg.x, BitVec.toNat_setWidth] at hnat
  have h31 : (31 : BitVec 5).toNat = 31 := rfl
  bv_omega

theorem setWidth_x {id : RegId} (hlo : 1 ≤ id) (hhi : id ≤ 32) :
    (id - 1).setWidth 32 = field 0 ((id - 1).setWidth 5) := by
  rw [Arm64.field_zero]
  apply BitVec.eq_of_toNat_eq
  simp only [BitVec.toNat_setWidth]
  bv_omega

theorem kval_eq (h : IntReg r) : kval r = .ok (field 0 r.x) := by
  obtain ⟨hlo, hhi, -⟩ := h
  have hvalid : arm64.valid r.id = true := by
    simp only [arm64, Bool.and_eq_true, decide_eq_true_eq]
    refine ⟨⟨hlo, ?_⟩, ?_⟩ <;> bv_omega
  have hkind : (regIdKind r.id).isFloat = false := by
    rw [regIdKind, if_pos ⟨hlo, by bv_omega⟩]
    rfl
  simp only [kval, hvalid, hkind, Bool.not_true, Bool.false_eq_true, if_false, Except.ok.injEq]
  exact setWidth_x hlo (by bv_omega)

theorem valOrX31_xzr : valOrX31 xzr true = .ok (field 0 31#5) := rfl

end Words

/-! ## The tables -/

open Arm64 (decodeBitMasks trunc width)

/-- The fields of an entry are those that the processor decodes to its value. -/
def entryOk (sf : Bool) (e : BitVec 64 × Word) : Bool :=
  e.2 == field 22 (e.2.extractLsb' 22 1) ||| field 16 (e.2.extractLsb' 16 6) |||
    field 10 (e.2.extractLsb' 10 6) &&
  decodeBitMasks (e.2.extractLsb' 22 1) (e.2.extractLsb' 10 6) (e.2.extractLsb' 16 6) (width sf) ==
    some (trunc sf e.1)

/-- All entries for elements of a size with `lo` ones and more. -/
def runsOk (sf : Bool) (size lo n : Nat) : Bool :=
  (List.range' lo n).all fun length => (runEntries (width sf) size length).all (entryOk sf)

theorem runsOk_spec {sf : Bool} {size lo n length : Nat} (h : runsOk sf size lo n = true)
    (hlo : lo ≤ length) (hhi : length < lo + n) :
    ∀ e ∈ runEntries (width sf) size length, entryOk sf e = true := by
  have hmem : length ∈ List.range' lo n := List.mem_range'_1.mpr ⟨hlo, hhi⟩
  exact List.all_eq_true.mp (List.all_eq_true.mp h length hmem)

-- Evaluated in parts: one evaluation of a whole table takes much longer than its parts.
theorem runsOk_parts :
    (∀ sf : Bool, (runsOk sf 2 1 1 = true ∧ runsOk sf 4 1 3 = true ∧ runsOk sf 8 1 7 = true ∧
        runsOk sf 16 1 15 = true) ∧
      runsOk sf 32 1 8 = true ∧ runsOk sf 32 9 8 = true ∧ runsOk sf 32 17 8 = true ∧
        runsOk sf 32 25 7 = true) ∧
    (runsOk true 64 1 8 = true ∧ runsOk true 64 9 8 = true ∧ runsOk true 64 17 8 = true ∧
      runsOk true 64 25 8 = true) ∧
    runsOk true 64 33 8 = true ∧ runsOk true 64 41 8 = true ∧ runsOk true 64 49 8 = true ∧
      runsOk true 64 57 7 = true := by
  refine ⟨fun sf => ?_, ⟨?_, ?_, ?_, ?_⟩, ?_, ?_, ?_, ?_⟩
  · cases sf <;> refine ⟨?_, ?_, ?_, ?_, ?_⟩ <;> decide +kernel
  all_goals decide +kernel

theorem runsOk_32 (sf : Bool) {length : Nat} (hlo : 1 ≤ length) (hhi : length < 32) :
    ∀ e ∈ runEntries (width sf) 32 length, entryOk sf e = true := by
  have hpart : length < 9 ∨ (9 ≤ length ∧ length < 17) ∨ (17 ≤ length ∧ length < 25) ∨
      25 ≤ length := by omega
  obtain ⟨h₁, h₉, h₁₇, h₂₅⟩ := (runsOk_parts.1 sf).2
  rcases hpart with h | h | h | h
  · exact runsOk_spec h₁ hlo h
  · exact runsOk_spec h₉ h.1 h.2
  · exact runsOk_spec h₁₇ h.1 h.2
  · exact runsOk_spec h₂₅ h hhi

theorem runsOk_64 {length : Nat} (hlo : 1 ≤ length) (hhi : length < 64) :
    ∀ e ∈ runEntries (width true) 64 length, entryOk true e = true := by
  have hpart : length < 9 ∨ (9 ≤ length ∧ length < 17) ∨ (17 ≤ length ∧ length < 25) ∨
      (25 ≤ length ∧ length < 33) ∨ (33 ≤ length ∧ length < 41) ∨ (41 ≤ length ∧ length < 49) ∨
      (49 ≤ length ∧ length < 57) ∨ 57 ≤ length := by omega
  obtain ⟨⟨h₁, h₉, h₁₇, h₂₅⟩, h₃₃, h₄₁, h₄₉, h₅₇⟩ := runsOk_parts.2
  rcases hpart with h | h | h | h | h | h | h | h
  · exact runsOk_spec h₁ hlo h
  · exact runsOk_spec h₉ h.1 h.2
  · exact runsOk_spec h₁₇ h.1 h.2
  · exact runsOk_spec h₂₅ h.1 h.2
  · exact runsOk_spec h₃₃ h.1 h.2
  · exact runsOk_spec h₄₁ h.1 h.2
  · exact runsOk_spec h₄₉ h.1 h.2
  · exact runsOk_spec h₅₇ h hhi

/-- Every entry of a table is right. -/
theorem bitwiseEntries_ok (sf : Bool) : ∀ e ∈ bitwiseEntries (width sf), entryOk sf e = true := by
  intro e he
  simp only [bitwiseEntries, List.mem_flatMap, List.mem_filter, List.mem_cons, List.not_mem_nil,
    or_false, decide_eq_true_eq, List.mem_range'_1] at he
  obtain ⟨size, ⟨hsize, hle⟩, length, ⟨hlo, hhi⟩, he⟩ := he
  obtain ⟨h2, h4, h8, h16⟩ := (runsOk_parts.1 sf).1
  rcases hsize with rfl | rfl | rfl | rfl | rfl | rfl
  · exact runsOk_spec h2 hlo hhi e he
  · exact runsOk_spec h4 hlo hhi e he
  · exact runsOk_spec h8 hlo hhi e he
  · exact runsOk_spec h16 hlo hhi e he
  · exact runsOk_32 sf hlo hhi e he
  · cases sf
    · simp [width] at hle
    · exact runsOk_64 hlo hhi e he

/-- What a table holds is one of the entries. -/
theorem makeImm3Bitwise_mem {width : Nat} {v : BitVec 64} {c : Word}
    (h : makeImm3Bitwise width v = some c) : (v, c) ∈ bitwiseEntries width := by
  have hfold : ∀ (entries : List (BitVec 64 × Word)) (table : BitVec 64 → Option Word),
      entries.foldl (fun (table : BitVec 64 → Option Word) (e : BitVec 64 × Word) =>
        Function.update table e.1 (some e.2)) table v = some c →
      table v = some c ∨ (v, c) ∈ entries := by
    intro entries
    induction entries with
    | nil => exact fun table h => .inl h
    | cons e entries ih =>
      intro table h
      rcases ih _ h with hv | hmem
      · dsimp only at hv
        by_cases heq : v = e.1
        · rw [heq, Function.update_self, Option.some.injEq] at hv
          exact .inr (List.mem_cons.mpr (.inl (Prod.ext heq hv.symm)))
        · rw [Function.update_of_ne heq] at hv
          exact .inl hv
      · exact .inr (List.mem_cons_of_mem _ hmem)
  rcases hfold _ _ h with hnone | hmem
  · cases hnone
  · exact hmem

/-- A value found in a table is encoded by the fields that the processor decodes to it. -/
theorem makeImm3Bitwise_decodes {sf : Bool} {v : BitVec 64} {c : Word}
    (h : makeImm3Bitwise (width sf) v = some c) :
    ∃ (n : BitVec 1) (imms immr : BitVec 6), c = field 22 n ||| field 16 immr ||| field 10 imms ∧
      decodeBitMasks n imms immr (width sf) = some (trunc sf v) := by
  have hok := bitwiseEntries_ok sf _ (makeImm3Bitwise_mem h)
  rw [entryOk, Bool.and_eq_true, beq_iff_eq, beq_iff_eq] at hok
  exact ⟨_, _, _, hok⟩

end OneJit.GoJit
