import Mathlib.Data.BitVec
import Mathlib.Logic.Function.Basic
import Mathlib.Tactic.SplitIfs

/-!
# Instructions of arm64

Words of 32 bits made of fields, the instructions that move constants, and what the processor does
with them. Register 31 is the zero register or the stack pointer, as the instruction says.
-/

namespace Arm64

abbrev Word := BitVec 32

/-! ## Fields of a word -/

/-- A field that starts at a bit. -/
def field (lo : Nat) {m : Nat} (x : BitVec m) : Word := x.setWidth 32 <<< lo

theorem field_zero {m : Nat} (x : BitVec m) : field 0 x = x.setWidth 32 := by
  simp [field]

/-- The field itself. -/
theorem extract_field {lo m : Nat} (x : BitVec m) (h : lo + m ≤ 32) :
    (field lo x).extractLsb' lo m = x := by
  apply BitVec.eq_of_getLsbD_eq
  intro i hi
  simp only [field, BitVec.getLsbD_extractLsb', BitVec.getLsbD_shiftLeft, BitVec.getLsbD_setWidth]
  simp [hi, show lo + i < 32 by omega, show i < 32 by omega]

/-- A field below. -/
theorem extract_field_below {lo m lo' len : Nat} (x : BitVec m) (h : lo + m ≤ lo') :
    (field lo x).extractLsb' lo' len = 0 := by
  apply BitVec.eq_of_getLsbD_eq
  intro i hi
  simp only [field, BitVec.getLsbD_extractLsb', BitVec.getLsbD_shiftLeft, BitVec.getLsbD_setWidth]
  simp [BitVec.getLsbD_of_ge x (lo' + i - lo) (by omega)]

/-- A field above. -/
theorem extract_field_above {lo m lo' len : Nat} (x : BitVec m) (h : lo' + len ≤ lo) :
    (field lo x).extractLsb' lo' len = 0 := by
  apply BitVec.eq_of_getLsbD_eq
  intro i hi
  simp only [field, BitVec.getLsbD_extractLsb', BitVec.getLsbD_shiftLeft, BitVec.getLsbD_setWidth]
  simp [show lo' + i < lo by omega]

/-! ## Decoding -/

/-- Move-wide instructions. -/
inductive MoveWide
  | movn | movz | movk
  deriving DecidableEq, Repr

/-- Logical operations that leave the flags alone. -/
inductive Logical
  | and | orr | eor
  deriving DecidableEq, Repr

inductive Inst
  | moveWide (op : MoveWide) (sf : Bool) (hw : BitVec 2) (imm : BitVec 16) (rd : BitVec 5)
  | logicalImm (op : Logical) (sf : Bool) (imm : BitVec 64) (rn rd : BitVec 5)
  deriving DecidableEq, Repr

/-- Copies of an element, in 64 bits. -/
def copies {e : Nat} (x : BitVec e) (n : Nat) : BitVec 64 := (x.replicate n).setWidth 64

/-- `DecodeBitMasks` for a logical immediate of `m` bits. -/
def decodeBitMasks (n : BitVec 1) (imms immr : BitVec 6) (m : Nat) : Option (BitVec 64) :=
  let v := n ++ ~~~imms
  let len := v.toNat.log2
  let esize := 2 ^ len
  let s := imms.toNat % esize
  let r := immr.toNat % esize
  if len < 1 ∨ m < esize ∨ s = esize - 1 then none
  else some (copies (((BitVec.allOnes (s + 1)).setWidth esize).rotateRight r) (m / esize))

/-- The width of the registers. -/
def width (sf : Bool) : Nat := if sf then 64 else 32

/-- The instruction that a word is. -/
def decode (w : Word) : Option Inst :=
  let sf := w.extractLsb' 31 1 == 1#1
  let rd := w.extractLsb' 0 5
  if w.extractLsb' 23 6 = 0b100101 then
    let hw := w.extractLsb' 21 2
    let imm := w.extractLsb' 5 16
    if sf = false ∧ hw.getLsbD 1 = true then none
    else if w.extractLsb' 29 2 = 0 then some (.moveWide .movn sf hw imm rd)
    else if w.extractLsb' 29 2 = 2 then some (.moveWide .movz sf hw imm rd)
    else if w.extractLsb' 29 2 = 3 then some (.moveWide .movk sf hw imm rd)
    else none
  else if w.extractLsb' 23 6 = 0b100100 then
    let rn := w.extractLsb' 5 5
    match decodeBitMasks (w.extractLsb' 22 1) (w.extractLsb' 10 6) (w.extractLsb' 16 6) (width sf) with
    | none => none
    | some imm =>
      if w.extractLsb' 29 2 = 0 then some (.logicalImm .and sf imm rn rd)
      else if w.extractLsb' 29 2 = 1 then some (.logicalImm .orr sf imm rn rd)
      else if w.extractLsb' 29 2 = 2 then some (.logicalImm .eor sf imm rn rd)
      else none
  else none

/-- The two bits that name a move-wide instruction. -/
def MoveWide.code : MoveWide → BitVec 2
  | movn => 0
  | movz => 2
  | movk => 3

/-- The two bits that name a logical operation. -/
def Logical.code : Logical → BitVec 2
  | and => 0
  | orr => 1
  | eor => 2

theorem decode_moveWide (op : MoveWide) (sf : Bool) (hw : BitVec 2) (imm : BitVec 16)
    (rd : BitVec 5) (h : sf = true ∨ hw.getLsbD 1 = false) :
    decode (field 31 (BitVec.ofBool sf) ||| field 29 op.code ||| field 23 0b100101#6 |||
      field 21 hw ||| field 5 imm ||| field 0 rd) = some (.moveWide op sf hw imm rd) := by
  simp (disch := omega) only [decode, BitVec.extractLsb'_or, extract_field, extract_field_below,
    extract_field_above]
  cases op <;> cases sf <;> simp_all [MoveWide.code]

theorem decode_logicalImm (op : Logical) (sf : Bool) (n : BitVec 1) (imms immr : BitVec 6)
    (rn rd : BitVec 5) {imm : BitVec 64} (h : decodeBitMasks n imms immr (width sf) = some imm) :
    decode (field 31 (BitVec.ofBool sf) ||| field 29 op.code ||| field 23 0b100100#6 |||
      field 22 n ||| field 16 immr ||| field 10 imms ||| field 5 rn ||| field 0 rd) =
      some (.logicalImm op sf imm rn rd) := by
  simp (disch := omega) only [decode, BitVec.extractLsb'_or, extract_field, extract_field_below,
    extract_field_above]
  cases op <;> cases sf <;> simp_all [Logical.code]

/-! ## Execution -/

/-- The general registers, with the stack pointer at 31, and the memory. -/
structure State where
  x : BitVec 5 → BitVec 64
  mem : BitVec 64 → BitVec 8

/-- A number in a register of 64 or 32 bits. -/
def trunc (sf : Bool) (v : BitVec 64) : BitVec 64 := if sf then v else (v.setWidth 32).setWidth 64

namespace State

/-- A register, or zero. -/
def get (σ : State) (sf : Bool) (r : BitVec 5) : BitVec 64 := if r = 31 then 0 else trunc sf (σ.x r)

/-- The write of a register, or the stack pointer. A write of 32 bits clears the others. -/
def setSp (σ : State) (sf : Bool) (r : BitVec 5) (v : BitVec 64) : State :=
  { σ with x := Function.update σ.x r (trunc sf v) }

/-- The write of a register, or nothing. -/
def set (σ : State) (sf : Bool) (r : BitVec 5) (v : BitVec 64) : State :=
  if r = 31 then σ else σ.setSp sf r v

end State

/-- What a logical operation gives. -/
def Logical.eval : Logical → BitVec 64 → BitVec 64 → BitVec 64
  | and, a, b => a &&& b
  | orr, a, b => a ||| b
  | eor, a, b => a ^^^ b

/-- The bits of `old` with 16 of them replaced. -/
def insertHalf (old : BitVec 64) (hw : BitVec 2) (imm : BitVec 16) : BitVec 64 :=
  (old &&& ~~~((BitVec.allOnes 16).setWidth 64 <<< (16 * hw.toNat))) |||
    (imm.setWidth 64 <<< (16 * hw.toNat))

/-- What an instruction does. -/
def exec (σ : State) : Inst → State
  | .moveWide .movn sf hw imm rd => σ.set sf rd (~~~(imm.setWidth 64 <<< (16 * hw.toNat)))
  | .moveWide .movz sf hw imm rd => σ.set sf rd (imm.setWidth 64 <<< (16 * hw.toNat))
  | .moveWide .movk sf hw imm rd => σ.set sf rd (insertHalf (σ.get sf rd) hw imm)
  | .logicalImm op sf imm rn rd => σ.setSp sf rd (op.eval (σ.get sf rn) imm)

/-- The run of some words, if they are all instructions. -/
def run : List Word → State → Option State
  | [], σ => some σ
  | w :: ws, σ => (decode w).bind fun i => run ws (exec σ i)

/-! ## Loads of constants -/

/-- The state with a register changed. -/
def State.put (σ : State) (r : BitVec 5) (v : BitVec 64) : State :=
  { σ with x := Function.update σ.x r v }

section Put

variable {σ : State} {r : BitVec 5} {v : BitVec 64}

@[simp] theorem put_put (w : BitVec 64) : (σ.put r v).put r w = σ.put r w := by
  simp [State.put]

@[simp] theorem put_x_self : (σ.put r v).x r = v := by
  simp [State.put]

theorem put_x_of_ne {r' : BitVec 5} (h : r' ≠ r) : (σ.put r v).x r' = σ.x r' :=
  Function.update_of_ne h _ _

theorem setSp_eq (sf : Bool) : σ.setSp sf r v = σ.put r (trunc sf v) := rfl

theorem set_eq (sf : Bool) (h : r ≠ 31) : σ.set sf r v = σ.put r (trunc sf v) := if_neg h

theorem get_put (h : r ≠ 31) : (σ.put r v).get true r = v := by
  rw [State.get, if_neg h, put_x_self]
  rfl

end Put

theorem getLsbD_insertHalf (old : BitVec 64) (hw : BitVec 2) (imm : BitVec 16) {i : Nat}
    (hi : i < 64) : (insertHalf old hw imm).getLsbD i =
      if 16 * hw.toNat ≤ i ∧ i < 16 * hw.toNat + 16 then imm.getLsbD (i - 16 * hw.toNat)
      else old.getLsbD i := by
  have hw' := hw.isLt
  simp only [insertHalf, BitVec.getLsbD_or, BitVec.getLsbD_and, BitVec.getLsbD_not,
    BitVec.getLsbD_shiftLeft, BitVec.getLsbD_setWidth, BitVec.getLsbD_allOnes]
  by_cases hin : 16 * hw.toNat ≤ i ∧ i < 16 * hw.toNat + 16
  · rw [if_pos hin]
    simp [hi, show ¬ i < 16 * hw.toNat by omega, show i - 16 * hw.toNat < 16 by omega,
      show i - 16 * hw.toNat < 64 by omega]
  · rw [if_neg hin]
    by_cases hlow : i < 16 * hw.toNat
    · simp [hi, hlow]
    · have hge : 16 ≤ i - 16 * hw.toNat := by omega
      simp [hi, hlow, show ¬ i - 16 * hw.toNat < 16 by omega, BitVec.getLsbD_of_ge imm _ hge]

/-- A half word that is zero already. -/
theorem insertHalf_zero {old : BitVec 64} {hw : BitVec 2}
    (h : ∀ i, 16 * hw.toNat ≤ i → i < 16 * hw.toNat + 16 → old.getLsbD i = false) :
    insertHalf old hw 0 = old := by
  apply BitVec.eq_of_getLsbD_eq
  intro i hi
  rw [getLsbD_insertHalf _ _ _ hi]
  split_ifs with hin
  · rw [h i hin.1 hin.2]
    simp
  · rfl

end Arm64
