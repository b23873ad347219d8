import OneJit.GoJit.Arg

/-!
# Peephole rules of the Go assembler

`Optimize2` and `Optimize3` test a constant after extending it to 64 bits and emit a simpler
instruction, or none, in place of the operation.
-/

namespace OneJit.GoJit

/-- One-argument instructions. -/
inductive Op1
  | zero | inc | dec | neg1 | not1 | jmp
  deriving DecidableEq, Repr

/-- Two-argument instructions. -/
inductive Op2
  | add2 | sub2 | adc2 | sbb2 | mul2 | div2 | rem2
  | and2 | or2 | xor2 | shl2 | shr2 | andNot2 | land2 | lor2
  | mov | cast | lea2 | neg2 | not2 | jmpif
  deriving DecidableEq, Repr

/-- Three-argument instructions. -/
inductive Op3
  | add3 | sub3 | adc3 | sbb3 | mul3 | div3 | rem3
  | and3 | or3 | xor3 | shl3 | shr3 | andNot3 | land3 | lor3 | getidx | setidx
  deriving DecidableEq, Repr

/-- `Op3(op)`. -/
def Op2.toOp3 : Op2 → Option Op3
  | add2 => some .add3
  | sub2 => some .sub3
  | adc2 => some .adc3
  | sbb2 => some .sbb3
  | mul2 => some .mul3
  | div2 => some .div3
  | rem2 => some .rem3
  | and2 => some .and3
  | or2 => some .or3
  | xor2 => some .xor3
  | shl2 => some .shl3
  | shr2 => some .shr3
  | andNot2 => some .andNot3
  | land2 => some .land3
  | lor2 => some .lor3
  | _ => none

/-- `Op3.IsCommutative`. -/
def Op3.isCommutative : Op3 → Bool
  | add3 | or3 | adc3 | and3 | xor3 | mul3 => true
  | _ => false

/-- An instruction that the rules emit. -/
inductive Instr
  | op1 (op : Op1) (dst : Arg)
  | op2 (op : Op2) (src dst : Arg)
  deriving DecidableEq, Repr

/-- The rules of `Optimize2` for a constant source. -/
def constRules2 (op : Op2) (n : BitVec 64) (src dst : Arg) : Option (List Instr) :=
  match op with
  | .add2 =>
    if n = 0 then some []
    else if n = 1 then some [.op1 .inc dst]
    else if n = -1 then some [.op1 .dec dst]
    else none
  | .or2 =>
    if n = 0 then some []
    else if n = -1 then some [.op2 .mov src dst]
    else none
  | .and2 =>
    if n = 0 then some [.op2 .mov src dst]
    else if n = -1 then some []
    else none
  | .sub2 =>
    if n = 0 then some []
    else if n = 1 then some [.op1 .dec dst]
    else if n = -1 then some [.op1 .inc dst]
    else none
  | .xor2 =>
    if n = 0 then some []
    else if n = -1 then some [.op1 .not1 dst]
    else none
  | .andNot2 =>
    if n = 0 then some []
    else if n = -1 then some [.op2 .mov src dst]
    else none
  | .cast => some [.op2 .mov src dst]
  | .shl2 | .shr2 => if n = 0 then some [] else none
  | .mul2 =>
    if n = 0 then some [.op2 .mov src dst]
    else if n = 1 then some []
    else if n = -1 then some [.op1 .neg1 dst]
    else none
  | .div2 =>
    if n = 1 then some []
    else if n = -1 then some [.op1 .neg1 dst]
    else none
  | .mov => if n = 0 then some [.op1 .zero dst] else none
  | _ => none

/-- `Optimize2`: what it emits, or nothing if it returns false. -/
def optimize2 (op : Op2) (src dst : Arg) : Except String (Option (List Instr)) :=
  if src = dst ∧ op ∈ [Op2.and2, .or2, .mov, .cast] then .ok (some [])
  else if src = dst ∧ op ∈ [Op2.sub2, .xor2, .andNot2] then .ok (some [.op1 .zero dst])
  else
    match src, dst with
    | .reg s, .reg d =>
      .ok (if op = .mov ∧ s.kind.size = d.kind.size ∧ s.id = d.id then some [] else none)
    | .mem s, .mem d =>
      .ok (if op = .mov ∧ s.reg.kind.size = d.reg.kind.size ∧ s.reg.id = d.reg.id ∧
        s.off = d.off then some [] else none)
    | .const c, dst =>
      (c.cast .int64).map fun n => constRules2 op n.val (.const ⟨n.val, dst.kind⟩) dst
    | _, _ => .ok none

/-- The rules of `Optimize3` for a constant second argument. -/
def constRules3 (op : Op3) (n : BitVec 64) (a c dst : Arg) : Option (List Instr) :=
  match op with
  | .add3 => if n = 0 then some [.op2 .mov a dst] else none
  | .or3 =>
    if n = 0 then some [.op2 .mov a dst]
    else if n = -1 then some [.op2 .mov c dst]
    else none
  | .and3 =>
    if n = 0 then some [.op1 .zero dst]
    else if n = -1 then some [.op2 .mov a dst]
    else none
  | .sub3 => if n = 0 then some [.op2 .mov a dst] else none
  | .xor3 =>
    if n = 0 then some [.op2 .mov a dst]
    else if n = -1 then some [.op2 .not2 a dst]
    else none
  | .andNot3 =>
    if n = 0 then some [.op2 .mov a dst]
    else if n = -1 then some [.op1 .zero dst]
    else none
  | .shl3 | .shr3 => if n = 0 then some [.op2 .mov a dst] else none
  | .mul3 =>
    if n = 0 then some [.op1 .zero dst]
    else if n = 1 then some [.op2 .mov a dst]
    else if n = -1 then some [.op2 .neg2 a dst]
    else none
  | .div3 =>
    if n = 1 then some [.op2 .mov a dst]
    else if n = -1 then some [.op2 .neg2 a dst]
    else none
  | _ => none

/-- `Optimize3`. -/
def optimize3 (op : Op3) (a b dst : Arg) : Except String (Option (List Instr)) :=
  if a = b ∧ op ∈ [Op3.and3, .or3] then
    .ok (some (if b = dst then [] else [.op2 .mov a dst]))
  else if a = b ∧ op ∈ [Op3.sub3, .xor3, .andNot3] then .ok (some [.op1 .zero dst])
  else
    match a, b with
    | a, .const c =>
      (c.cast .int64).map fun n => constRules3 op n.val a (.const ⟨n.val, dst.kind⟩) dst
    | .const c, b =>
      if op.isCommutative then
        (c.cast .int64).map fun n => constRules3 op n.val b (.const ⟨n.val, dst.kind⟩) dst
      else .ok none
    | _, _ => .ok none

/-! ## Meaning -/

/-- `a op b` for numbers of a kind. The last argument is `b` as a shift count. -/
def Op3.eval (op : Op3) (k : Kind) {w : Nat} (x y : BitVec w) (count : Nat) :
    Option (BitVec w) :=
  match op with
  | add3 => some (x + y)
  | sub3 => some (x - y)
  | mul3 => some (x * y)
  | div3 => if y = 0 then none else some (if k.signed then x.sdiv y else x / y)
  | rem3 => if y = 0 then none else some (if k.signed then x.srem y else x % y)
  | and3 => some (x &&& y)
  | or3 => some (x ||| y)
  | xor3 => some (x ^^^ y)
  | shl3 => some (x <<< count)
  | shr3 => some (if k.signed then x.sshiftRight count else x >>> count)
  | andNot3 => some (x &&& ~~~y)
  | _ => none

/-- What a three-argument operation gives. -/
def Op3.value (op : Op3) (σ : State) (a b dst : Arg) : Option (BitVec (8 * dst.kind.size)) :=
  op.eval dst.kind (σ.read dst.kind.size a) (σ.read dst.kind.size b) (σ.number b).toNat

/-- What a two-argument operation gives. -/
def Op2.value (op : Op2) (σ : State) (src dst : Arg) : Option (BitVec (8 * dst.kind.size)) :=
  match op with
  | mov => some (σ.read dst.kind.size src)
  | cast => some ((σ.number src).setWidth _)
  | neg2 => some (-σ.read dst.kind.size src)
  | not2 => some (~~~σ.read dst.kind.size src)
  | op => op.toOp3.bind fun op => op.value σ dst src dst

/-- What a one-argument operation gives. -/
def Op1.value (op : Op1) (σ : State) (dst : Arg) : Option (BitVec (8 * dst.kind.size)) :=
  match op with
  | zero => some 0
  | inc => some (σ.read dst.kind.size dst + 1)
  | dec => some (σ.read dst.kind.size dst - 1)
  | neg1 => some (-σ.read dst.kind.size dst)
  | not1 => some (~~~σ.read dst.kind.size dst)
  | jmp => none

/-- A step of the machine: the destination gets the value of the operation. -/
def Instr.Step (i : Instr) (σ σ' : State) : Prop :=
  match i with
  | op1 op dst => ∃ v, op.value σ dst = some v ∧ Writes σ dst.kind.size v σ' dst
  | op2 op src dst => ∃ v, op.value σ src dst = some v ∧ Writes σ dst.kind.size v σ' dst

/-- Steps of a list of instructions. -/
def Steps : List Instr → State → State → Prop
  | [], σ, σ' => σ' = σ
  | i :: is, σ, σ' => ∃ σ₁, i.Step σ σ₁ ∧ Steps is σ₁ σ'

/-- All runs of the instructions leave the value in the destination and change nothing else. -/
def Leaves (is : List Instr) (σ : State) (dst : Arg) (v : BitVec (8 * dst.kind.size)) : Prop :=
  ∀ σ', Steps is σ σ' → Writes σ dst.kind.size v σ' dst

/-- The kinds of the operands of a two-argument operation, as they are checked before the rules
are tried. -/
structure Op2.WellKinded (op : Op2) (src dst : Arg) : Prop where
  dst_not_const : dst.isConst = false
  src_integer : src.kind.isInteger = true
  dst_integer : dst.kind.isInteger = true
  kinds : match op with
    | .cast => True
    | .mov => src.kind.size = dst.kind.size
    | .shl2 | .shr2 => src.kind.signed = false
    | _ => src.kind = dst.kind

/-- The kinds of the operands of a three-argument operation. -/
structure Op3.WellKinded (op : Op3) (a b dst : Arg) : Prop where
  dst_not_const : dst.isConst = false
  b_integer : b.kind.isInteger = true
  dst_integer : dst.kind.isInteger = true
  a_kind : a.kind = dst.kind
  kinds : match op with
    | .shl3 | .shr3 => b.kind.signed = false
    | _ => b.kind = dst.kind

/-- The argument is a constant that the rules take for `-1`. -/
def IsMinusOne (a : Arg) : Prop := ∃ c, a = .const c ∧ c.cast .int64 = .ok ⟨-1, .int64⟩

/-- An unsigned dividend whose negation is not the quotient by the largest number. -/
def NegatesWrongly (σ : State) (a dst : Arg) : Prop :=
  dst.kind.signed = false ∧ σ.read dst.kind.size a ≠ 0 ∧
    σ.read dst.kind.size a ≠ BitVec.allOnes _

/-- The rule of `AND_NOT2` that copies the constant, and that of `DIV2` that negates. -/
def Op2.Misses (op : Op2) (σ : State) (src dst : Arg) : Prop :=
  IsMinusOne src ∧ (op = .andNot2 ∨ op = .div2 ∧ NegatesWrongly σ dst dst)

/-- The rule of `DIV3` that negates. -/
def Op3.Misses (op : Op3) (σ : State) (a b dst : Arg) : Prop :=
  IsMinusOne b ∧ op = .div3 ∧ NegatesWrongly σ a dst

/-! ## What the emitted instructions give -/

/-- All runs of the instructions leave this value, and no other one. -/
def Gives (is : List Instr) (σ : State) (dst : Arg) (u : BitVec (8 * dst.kind.size)) : Prop :=
  ∀ v, Leaves is σ dst v ↔ u = v

section Gives

variable {σ : State} {src dst : Arg}

theorem gives_nil (hdst : dst.isConst = false) :
    Gives [] σ dst (σ.read dst.kind.size dst) := by
  intro v
  rw [← writes_self v hdst]
  constructor
  · exact fun h => h σ rfl
  · intro h σ' hσ'
    rw [Steps] at hσ'
    exact hσ' ▸ h

/-- An instruction that writes the destination. -/
theorem gives_one {i : Instr} {u : BitVec (8 * dst.kind.size)} (hdst : dst.isConst = false)
    (hk : dst.kind.isInteger = true)
    (hi : ∀ σ', i.Step σ σ' ↔ Writes σ dst.kind.size u σ' dst) : Gives [i] σ dst u := by
  intro v
  have hstep : ∀ σ', Steps [i] σ σ' ↔ Writes σ dst.kind.size u σ' dst := by
    intro σ'
    simp only [Steps, hi]
    exact ⟨fun ⟨σ₁, h, heq⟩ => heq ▸ h, fun h => ⟨σ', h, rfl⟩⟩
  have hsize : dst.kind.size ≤ 8 := by
    rcases Kind.size_of_isInteger hk with h | h | h | h <;> omega
  obtain ⟨σ', hσ'⟩ := @exists_writes σ _ dst u hsize hdst
  constructor
  · exact fun h => (hσ'.unique).mp (h σ' ((hstep σ').mpr hσ'))
  · exact fun heq σ₁ h₁ => heq ▸ (hstep σ₁).mp h₁

theorem gives_op1 {op : Op1} {u : BitVec (8 * dst.kind.size)} (hdst : dst.isConst = false)
    (hk : dst.kind.isInteger = true) (h : op.value σ dst = some u) :
    Gives [.op1 op dst] σ dst u :=
  gives_one hdst hk fun σ' => by simp [Instr.Step, h]

theorem gives_op2 {op : Op2} {u : BitVec (8 * dst.kind.size)} (hdst : dst.isConst = false)
    (hk : dst.kind.isInteger = true) (h : op.value σ src dst = some u) :
    Gives [.op2 op src dst] σ dst u :=
  gives_one hdst hk fun σ' => by simp [Instr.Step, h]

/-- A rule that keeps the value of the operation. -/
theorem Gives.leaves {is : List Instr} {u v : BitVec (8 * dst.kind.size)}
    {value : Option (BitVec (8 * dst.kind.size))} {misses : Prop} (h : Gives is σ dst u)
    (hv : value = some v) (hu : value = some u) (hno : ¬ misses) :
    Leaves is σ dst v ↔ ¬ misses := by
  rw [h v]
  exact iff_of_true (Option.some.inj (hu.symm.trans hv)) hno

end Gives

/-! ## Constants -/

section Constants

variable {σ : State}

theorem setWidth_signExtend {w : Nat} (hw : w ≤ 64) (x : BitVec w) :
    (x.signExtend 64).setWidth w = x := by
  apply BitVec.eq_of_getLsbD_eq
  intro i hi
  rw [BitVec.getLsbD_setWidth, BitVec.getLsbD_signExtend]
  simp [hi, show i < 64 by omega]

theorem Kind.width_le {k : Kind} (hk : k.isInteger = true) : 8 * k.size ≤ 64 := by
  rcases Kind.size_of_isInteger hk with h | h | h | h <;> omega

theorem extend_low {k : Kind} (hk : k.isInteger = true) (v : BitVec 64) :
    (k.extend v).setWidth (8 * k.size) = v.setWidth (8 * k.size) := by
  rw [Kind.extend]
  split_ifs
  · exact setWidth_signExtend (Kind.width_le hk) _
  · rw [BitVec.setWidth_setWidth_of_le _ (Kind.width_le hk), BitVec.setWidth_eq]

theorem extend_extend {k : Kind} (hk : k.isInteger = true) (v : BitVec 64) :
    k.extend (k.extend v) = k.extend v := by
  have h := extend_low hk v
  unfold Kind.extend at h ⊢
  rw [h]

theorem extend_zero (k : Kind) : k.extend 0 = 0 := by
  cases k <;> decide

theorem number_low {a : Arg} (ha : a.kind.isInteger = true) :
    (σ.number a).setWidth (8 * a.kind.size) = σ.read a.kind.size a := by
  rw [State.number]
  split_ifs
  · exact setWidth_signExtend (Kind.width_le ha) _
  · rw [BitVec.setWidth_setWidth_of_le _ (Kind.width_le ha), BitVec.setWidth_eq]

theorem number_const (c : Const) : σ.number (.const c) = c.kind.extend c.val := rfl

/-- What the constant is, when the rules take it for `0`, `1` or `-1`. -/
theorem read_const {c : Const} {k : Kind} (hk : c.kind.isInteger = true)
    (hsize : c.kind.size = k.size) :
    σ.read k.size (.const c) = (σ.number (.const c)).setWidth (8 * k.size) := by
  rw [number_const, ← hsize, extend_low hk]
  rfl

theorem sdiv_neg_one' {w : Nat} (x : BitVec w) : x.sdiv (-1#w) = -x := by
  rcases w with _ | w
  · exact @Subsingleton.elim (BitVec 0) _ _ _
  · apply BitVec.eq_of_toInt_eq
    have hone : (-1#(w + 1)).toInt = -1 := by
      rw [BitVec.neg_one_eq_allOnes, BitVec.toInt_allOnes]
      simp
    rw [BitVec.toInt_sdiv, hone, Int.tdiv_neg, Int.tdiv_one, BitVec.toInt_neg]

/-- The quotient by the largest number is the negation for two dividends only. -/
theorem udiv_allOnes_iff {w : Nat} (hw : 1 < w) (x : BitVec w) :
    -x = x / BitVec.allOnes w ↔ x = 0 ∨ x = BitVec.allOnes w := by
  have htwo : 2 ^ 2 ≤ 2 ^ w := Nat.pow_le_pow_right (by decide) hw
  have hall : (BitVec.allOnes w).toNat = 2 ^ w - 1 := BitVec.toNat_allOnes
  have hx := x.isLt
  have hquot : (x / BitVec.allOnes w).toNat = if x = BitVec.allOnes w then 1 else 0 := by
    rw [BitVec.toNat_udiv, hall]
    split_ifs with heq
    · rw [heq, hall]
      exact Nat.div_self (by omega)
    · have hne : x.toNat ≠ 2 ^ w - 1 := fun h => heq (BitVec.eq_of_toNat_eq (h.trans hall.symm))
      exact Nat.div_eq_of_lt (by omega)
  rw [← BitVec.toNat_inj, hquot, BitVec.toNat_neg]
  by_cases heq : x = BitVec.allOnes w
  · rw [if_pos heq, heq, hall, Nat.mod_eq_of_lt (by omega)]
    simp only [or_true, iff_true]
    omega
  · rw [if_neg heq]
    simp only [heq, or_false]
    constructor
    · intro h
      by_contra hne
      have hpos : x.toNat ≠ 0 := fun h0 => hne (BitVec.eq_of_toNat_eq h0)
      rw [Nat.mod_eq_of_lt (by omega)] at h
      omega
    · intro h
      simp [h]

end Constants

/-! ## The rules -/

section Rules

variable {σ : State}

/-- What the constant is when the rules take it for `0`, `1` or `-1`, in the width of the
destination. -/
structure Tested (σ : State) (c : Const) (k : Kind) : Prop where
  zero : σ.number (.const c) = 0 → σ.read k.size (.const c) = 0
  one : σ.number (.const c) = 1 → σ.read k.size (.const c) = 1
  minusOne : σ.number (.const c) = -1 → σ.read k.size (.const c) = -1#(8 * k.size)
  width : 1 < 8 * k.size

theorem tested {c : Const} {k : Kind} (hk : k.isInteger = true)
    (hc : c.kind.isInteger = true) (hsize : c.kind.size = k.size) : Tested σ c k := by
  have hsizes := Kind.size_of_isInteger hk
  have hw := Kind.width_le hk
  have hread := @read_const σ c k hc hsize
  constructor
  · intro h
    rw [hread, h]
    simp
  · intro h
    rw [hread, h]
    exact BitVec.setWidth_ofNat_of_le hw 1
  · intro h
    rw [hread, h]
    refine (BitVec.setWidth_neg_of_le hw).trans ?_
    rw [show (1 : BitVec 64) = 1#64 from rfl, BitVec.setWidth_ofNat_of_le hw 1]
  · omega

theorem isMinusOne_iff (σ : State) {c : Const} (hc : c.kind.isInteger = true) :
    IsMinusOne (.const c) ↔ σ.number (.const c) = -1 := by
  simp [IsMinusOne, Const.cast_integer hc, number_const]

attribute [local simp] Op1.value Op2.value Op2.toOp3 Op3.value Op3.eval BitVec.sub_eq_add_neg

theorem neg_one_ne_zero' {w : Nat} (hw : 1 < w) : -1#w ≠ 0#w := by
  intro h
  have htwo : 2 ^ 2 ≤ 2 ^ w := Nat.pow_le_pow_right (by decide) hw
  have hnat := congrArg BitVec.toNat h
  rw [BitVec.neg_one_eq_allOnes, BitVec.toNat_allOnes, BitVec.toNat_zero] at hnat
  omega

theorem one_ne_zero' {w : Nat} (hw : 1 < w) : 1#w ≠ 0#w := by
  intro h
  have hnat := congrArg BitVec.toNat h
  rw [BitVec.toNat_one (by omega), BitVec.toNat_zero] at hnat
  omega

/-- Division by the constants that have a rule. -/
theorem eval_div_one {w : Nat} (hw : 1 < w) (k : Kind) (x : BitVec w) (count : Nat) :
    Op3.div3.eval k x 1#w count = some x := by
  simp [one_ne_zero' hw, BitVec.sdiv_one, BitVec.udiv_one]

theorem eval_div_neg_one {w : Nat} (hw : 1 < w) (k : Kind) (x : BitVec w) (count : Nat) :
    Op3.div3.eval k x (-1#w) count = some (-x) ↔
      ¬ (k.signed = false ∧ x ≠ 0 ∧ x ≠ BitVec.allOnes w) := by
  have hvalue : Op3.div3.eval k x (-1#w) count =
      some (if k.signed then x.sdiv (-1#w) else x / -1#w) := if_neg (neg_one_ne_zero' hw)
  rw [hvalue, Option.some.injEq]
  cases hk : k.signed
  · rw [if_neg (by decide), eq_comm, BitVec.neg_one_eq_allOnes, udiv_allOnes_iff hw x]
    simp only [true_and, not_and_or, not_not]
  · rw [if_pos rfl, sdiv_neg_one']
    simp

/-- The rules of `Optimize2` for a constant of the size of the destination. -/
theorem constRules2_exact {op : Op2} {c : Const} {dst : Arg} {is : List Instr}
    {v : BitVec (8 * dst.kind.size)} (hk : op.WellKinded (.const c) dst)
    (hrule : constRules2 op (σ.number (.const c)) (.const ⟨σ.number (.const c), dst.kind⟩) dst =
      some is) (hv : op.value σ (.const c) dst = some v) :
    Leaves is σ dst v ↔ ¬ op.Misses σ (.const c) dst := by
  obtain ⟨hdst, hc, hint, hkinds⟩ := hk
  have hc' : c.kind.isInteger = true := hc
  have hmov : ∀ k : Kind, c.kind.size = k.size →
      σ.read k.size (.const ⟨σ.number (.const c), dst.kind⟩) = σ.read k.size (.const c) :=
    fun k hsize => (@read_const σ c k hc' hsize).symm
  -- apart from two rules, what the instructions give is the value of the operation
  have hkept : ∀ {u}, Gives is σ dst u → op ≠ .andNot2 → op ≠ .div2 →
      op.value σ (.const c) dst = some u → (Leaves is σ dst v ↔ ¬ op.Misses σ (.const c) dst) :=
    fun hu h₁ h₂ heq => hu.leaves hv heq fun hmiss =>
      hmiss.2.elim (fun h => h₁ h) fun h => h₂ h.1
  have hnil := @gives_nil σ dst hdst
  have hop1 : ∀ {op u}, op.value σ dst = some u → Gives [.op1 op dst] σ dst u :=
    gives_op1 hdst hint
  have hop2 : ∀ {op src u}, op.value σ src dst = some u → Gives [.op2 op src dst] σ dst u :=
    gives_op2 hdst hint
  cases op with
  | add2 =>
    have ht := @tested σ c dst.kind hint hc' (congrArg Kind.size hkinds)
    simp only [constRules2] at hrule
    split_ifs at hrule with h0 h1 h2 <;> cases hrule
    · exact hkept hnil (by decide) (by decide) (by simp [ht.zero h0])
    · exact hkept (hop1 rfl) (by decide) (by decide) (by simp [ht.one h1])
    · exact hkept (hop1 rfl) (by decide) (by decide) (by simp [ht.minusOne h2])
  | sub2 =>
    have ht := @tested σ c dst.kind hint hc' (congrArg Kind.size hkinds)
    simp only [constRules2] at hrule
    split_ifs at hrule with h0 h1 h2 <;> cases hrule
    · exact hkept hnil (by decide) (by decide) (by simp [ht.zero h0])
    · exact hkept (hop1 rfl) (by decide) (by decide) (by simp [ht.one h1])
    · exact hkept (hop1 rfl) (by decide) (by decide) (by simp [ht.minusOne h2])
  | or2 =>
    have ht := @tested σ c dst.kind hint hc' (congrArg Kind.size hkinds)
    simp only [constRules2] at hrule
    split_ifs at hrule with h0 h1 <;> cases hrule
    · exact hkept hnil (by decide) (by decide) (by simp [ht.zero h0])
    · refine hkept (hop2 rfl) (by decide) (by decide) ?_
      rw [hmov _ (congrArg Kind.size hkinds)]
      simp [ht.minusOne h1, BitVec.neg_one_eq_allOnes]
  | and2 =>
    have ht := @tested σ c dst.kind hint hc' (congrArg Kind.size hkinds)
    simp only [constRules2] at hrule
    split_ifs at hrule with h0 h1 <;> cases hrule
    · refine hkept (hop2 rfl) (by decide) (by decide) ?_
      rw [hmov _ (congrArg Kind.size hkinds)]
      simp [ht.zero h0]
    · exact hkept hnil (by decide) (by decide)
        (by simp [ht.minusOne h1, BitVec.neg_one_eq_allOnes])
  | xor2 =>
    have ht := @tested σ c dst.kind hint hc' (congrArg Kind.size hkinds)
    simp only [constRules2] at hrule
    split_ifs at hrule with h0 h1 <;> cases hrule
    · exact hkept hnil (by decide) (by decide) (by simp [ht.zero h0])
    · exact hkept (hop1 rfl) (by decide) (by decide)
        (by simp [ht.minusOne h1, BitVec.neg_one_eq_allOnes])
  | mul2 =>
    have ht := @tested σ c dst.kind hint hc' (congrArg Kind.size hkinds)
    simp only [constRules2] at hrule
    split_ifs at hrule with h0 h1 h2 <;> cases hrule
    · refine hkept (hop2 rfl) (by decide) (by decide) ?_
      rw [hmov _ (congrArg Kind.size hkinds)]
      simp [ht.zero h0]
    · exact hkept hnil (by decide) (by decide) (by simp [ht.one h1])
    · exact hkept (hop1 rfl) (by decide) (by decide) (by simp [ht.minusOne h2])
  | shl2 =>
    simp only [constRules2] at hrule
    split_ifs at hrule with h0
    cases hrule
    exact hkept hnil (by decide) (by decide) (by simp [h0])
  | shr2 =>
    simp only [constRules2] at hrule
    split_ifs at hrule with h0
    cases hrule
    exact hkept hnil (by decide) (by decide) (by simp [h0])
  | cast =>
    cases hrule
    exact hkept (hop2 rfl) (by decide) (by decide) rfl
  | mov =>
    have ht := @tested σ c dst.kind hint hc' hkinds
    simp only [constRules2] at hrule
    split_ifs at hrule with h0
    cases hrule
    exact hkept (hop1 rfl) (by decide) (by decide) (by simp [ht.zero h0])
  | andNot2 =>
    have ht := @tested σ c dst.kind hint hc' (congrArg Kind.size hkinds)
    simp only [constRules2] at hrule
    split_ifs at hrule with h0 h1 <;> cases hrule
    · refine hnil.leaves hv (by simp [ht.zero h0]) fun hmiss => ?_
      have hminus := (isMinusOne_iff σ hc').mp hmiss.1
      rw [h0] at hminus
      exact absurd hminus (by decide)
    · have hmiss : Op2.andNot2.Misses σ (.const c) dst :=
        ⟨(isMinusOne_iff σ hc').mpr h1, .inl rfl⟩
      have hv' : Op2.andNot2.value σ (.const c) dst = some 0 := by
        simp [ht.minusOne h1, BitVec.neg_one_eq_allOnes]
      rw [hop2 rfl v, ← Option.some.inj (hv'.symm.trans hv)]
      refine iff_of_false (fun heq => ?_) (not_not_intro hmiss)
      rw [hmov _ (congrArg Kind.size hkinds), ht.minusOne h1] at heq
      exact neg_one_ne_zero' ht.width heq
  | div2 =>
    have ht := @tested σ c dst.kind hint hc' (congrArg Kind.size hkinds)
    have hvalue : Op2.div2.value σ (.const c) dst =
        Op3.div3.eval dst.kind (σ.read dst.kind.size dst) (σ.read dst.kind.size (.const c))
          (σ.number (.const c)).toNat := rfl
    simp only [constRules2] at hrule
    split_ifs at hrule with h0 h1 <;> cases hrule
    · refine hnil.leaves hv ?_ fun hmiss => ?_
      · rw [hvalue, ht.one h0]
        exact eval_div_one ht.width _ _ _
      · have hminus := (isMinusOne_iff σ hc').mp hmiss.1
        rw [h0] at hminus
        exact absurd hminus (by decide)
    · have hiff := eval_div_neg_one ht.width dst.kind (σ.read dst.kind.size dst)
        (σ.number (.const c)).toNat
      rw [← ht.minusOne h1, ← hvalue, hv, Option.some.injEq, eq_comm] at hiff
      rw [hop1 rfl v, hiff, not_iff_not]
      constructor
      · exact fun hbad => ⟨(isMinusOne_iff σ hc').mpr h1, .inr ⟨rfl, hbad⟩⟩
      · intro hmiss
        rcases hmiss.2 with hand | hdiv
        · cases hand
        · exact hdiv.2
  | _ => simp [constRules2] at hrule

/-- What `Optimize2` emits when it returns true. -/
theorem optimize2_cases {op : Op2} {src dst : Arg} {is : List Instr} (σ : State)
    (hk : op.WellKinded src dst) (hrun : optimize2 op src dst = .ok (some is)) :
    (src = dst ∧ op ∈ [Op2.and2, .or2, .mov, .cast] ∧ is = []) ∨
      (src = dst ∧ op ∈ [Op2.sub2, .xor2, .andNot2] ∧ is = [.op1 .zero dst]) ∨
      (op = .mov ∧ src.isConst = false ∧ is = [] ∧ ∀ n, σ.read n dst = σ.read n src) ∨
      ∃ c, src = .const c ∧ constRules2 op (σ.number (.const c))
        (.const ⟨σ.number (.const c), dst.kind⟩) dst = some is := by
  unfold optimize2 at hrun
  split_ifs at hrun with hsame hzero
  · cases hrun
    exact .inl ⟨hsame.1, hsame.2, rfl⟩
  · cases hrun
    exact .inr (.inl ⟨hzero.1, hzero.2, rfl⟩)
  cases src with
  | const c =>
    have hc : c.kind.isInteger = true := hk.src_integer
    refine .inr (.inr (.inr ⟨c, rfl, ?_⟩))
    simpa [Const.cast_integer hc, Except.map, number_const] using hrun
  | reg s =>
    cases dst with
    | const c => simp at hrun
    | mem d => simp at hrun
    | reg d =>
      simp only [Except.ok.injEq] at hrun
      split_ifs at hrun with hloc
      cases hrun
      obtain ⟨rfl, _, hid⟩ := hloc
      exact .inr (.inr (.inl ⟨rfl, rfl, rfl, fun n => by simp [State.read, hid]⟩))
  | mem s =>
    cases dst with
    | const c => simp at hrun
    | reg d => simp at hrun
    | mem d =>
      simp only [Except.ok.injEq] at hrun
      split_ifs at hrun with hloc
      cases hrun
      obtain ⟨rfl, _, hid, hoff⟩ := hloc
      exact .inr (.inr (.inl ⟨rfl, rfl, rfl, fun n => by simp [State.read, State.addr, hid, hoff]⟩))

/-- `Optimize2`. -/
theorem optimize2_exact {op : Op2} {src dst : Arg} {is : List Instr}
    {v : BitVec (8 * dst.kind.size)} (hk : op.WellKinded src dst)
    (hrun : optimize2 op src dst = .ok (some is)) (hv : op.value σ src dst = some v) :
    Leaves is σ dst v ↔ ¬ op.Misses σ src dst := by
  have hdst := hk.dst_not_const
  have hint := hk.dst_integer
  have hno : src.isConst = false → ¬ op.Misses σ src dst := by
    rintro hsrc ⟨⟨c, rfl, _⟩, _⟩
    simp [Arg.isConst] at hsrc
  rcases optimize2_cases σ hk hrun with ⟨rfl, hop, rfl⟩ | ⟨rfl, hop, rfl⟩ |
    ⟨rfl, hsrc, rfl, hread⟩ | ⟨c, rfl, hrule⟩
  · simp only [List.mem_cons, List.not_mem_nil, or_false] at hop
    refine (gives_nil hdst).leaves hv ?_ (hno hdst)
    rcases hop with rfl | rfl | rfl | rfl
    · simp
    · simp
    · rfl
    · exact congrArg some (number_low hint)
  · simp only [List.mem_cons, List.not_mem_nil, or_false] at hop
    refine (gives_op1 hdst hint rfl).leaves hv ?_ (hno hdst)
    rcases hop with rfl | rfl | rfl <;> simp
  · exact (gives_nil hdst).leaves hv (congrArg some (hread _).symm) (hno hsrc)
  · exact constRules2_exact hk hrule hv

/-- The rules of `Optimize3` for a constant. -/
theorem constRules3_exact {op : Op3} {a dst : Arg} {c : Const} {is : List Instr}
    {v : BitVec (8 * dst.kind.size)} (hk : op.WellKinded a (.const c) dst)
    (hrule : constRules3 op (σ.number (.const c)) a
      (.const ⟨σ.number (.const c), dst.kind⟩) dst = some is)
    (hv : op.value σ a (.const c) dst = some v) :
    Leaves is σ dst v ↔ ¬ op.Misses σ a (.const c) dst := by
  obtain ⟨hdst, hc, hint, -, hkinds⟩ := hk
  have hc' : c.kind.isInteger = true := hc
  have hmov : ∀ k : Kind, c.kind.size = k.size →
      σ.read k.size (.const ⟨σ.number (.const c), dst.kind⟩) = σ.read k.size (.const c) :=
    fun k hsize => (@read_const σ c k hc' hsize).symm
  have hkept : ∀ {u}, Gives is σ dst u → op ≠ .div3 →
      op.value σ a (.const c) dst = some u → (Leaves is σ dst v ↔ ¬ op.Misses σ a (.const c) dst) :=
    fun hu h₁ heq => hu.leaves hv heq fun hmiss => h₁ hmiss.2.1
  have hop1 : ∀ {op u}, op.value σ dst = some u → Gives [.op1 op dst] σ dst u :=
    gives_op1 hdst hint
  have hop2 : ∀ {op src u}, op.value σ src dst = some u → Gives [.op2 op src dst] σ dst u :=
    gives_op2 hdst hint
  cases op with
  | add3 =>
    have ht := @tested σ c dst.kind hint hc' (congrArg Kind.size hkinds)
    simp only [constRules3] at hrule
    split_ifs at hrule with h0
    cases hrule
    exact hkept (hop2 rfl) (by decide) (by simp [ht.zero h0])
  | sub3 =>
    have ht := @tested σ c dst.kind hint hc' (congrArg Kind.size hkinds)
    simp only [constRules3] at hrule
    split_ifs at hrule with h0
    cases hrule
    exact hkept (hop2 rfl) (by decide) (by simp [ht.zero h0])
  | or3 =>
    have ht := @tested σ c dst.kind hint hc' (congrArg Kind.size hkinds)
    simp only [constRules3] at hrule
    split_ifs at hrule with h0 h1 <;> cases hrule
    · exact hkept (hop2 rfl) (by decide) (by simp [ht.zero h0])
    · refine hkept (hop2 rfl) (by decide) ?_
      rw [hmov _ (congrArg Kind.size hkinds)]
      simp [ht.minusOne h1, BitVec.neg_one_eq_allOnes]
  | and3 =>
    have ht := @tested σ c dst.kind hint hc' (congrArg Kind.size hkinds)
    simp only [constRules3] at hrule
    split_ifs at hrule with h0 h1 <;> cases hrule
    · exact hkept (hop1 rfl) (by decide) (by simp [ht.zero h0])
    · exact hkept (hop2 rfl) (by decide) (by simp [ht.minusOne h1, BitVec.neg_one_eq_allOnes])
  | xor3 =>
    have ht := @tested σ c dst.kind hint hc' (congrArg Kind.size hkinds)
    simp only [constRules3] at hrule
    split_ifs at hrule with h0 h1 <;> cases hrule
    · exact hkept (hop2 rfl) (by decide) (by simp [ht.zero h0])
    · exact hkept (hop2 rfl) (by decide) (by simp [ht.minusOne h1, BitVec.neg_one_eq_allOnes])
  | andNot3 =>
    have ht := @tested σ c dst.kind hint hc' (congrArg Kind.size hkinds)
    simp only [constRules3] at hrule
    split_ifs at hrule with h0 h1 <;> cases hrule
    · exact hkept (hop2 rfl) (by decide) (by simp [ht.zero h0])
    · exact hkept (hop1 rfl) (by decide) (by simp [ht.minusOne h1, BitVec.neg_one_eq_allOnes])
  | shl3 =>
    simp only [constRules3] at hrule
    split_ifs at hrule with h0
    cases hrule
    exact hkept (hop2 rfl) (by decide) (by simp [h0])
  | shr3 =>
    simp only [constRules3] at hrule
    split_ifs at hrule with h0
    cases hrule
    exact hkept (hop2 rfl) (by decide) (by simp [h0])
  | mul3 =>
    have ht := @tested σ c dst.kind hint hc' (congrArg Kind.size hkinds)
    simp only [constRules3] at hrule
    split_ifs at hrule with h0 h1 h2 <;> cases hrule
    · exact hkept (hop1 rfl) (by decide) (by simp [ht.zero h0])
    · exact hkept (hop2 rfl) (by decide) (by simp [ht.one h1])
    · exact hkept (hop2 rfl) (by decide) (by simp [ht.minusOne h2])
  | div3 =>
    have ht := @tested σ c dst.kind hint hc' (congrArg Kind.size hkinds)
    have hvalue : Op3.div3.value σ a (.const c) dst =
        Op3.div3.eval dst.kind (σ.read dst.kind.size a) (σ.read dst.kind.size (.const c))
          (σ.number (.const c)).toNat := rfl
    simp only [constRules3] at hrule
    split_ifs at hrule with h0 h1 <;> cases hrule
    · refine (hop2 rfl).leaves hv ?_ fun hmiss => ?_
      · rw [hvalue, ht.one h0]
        exact eval_div_one ht.width _ _ _
      · have hminus := (isMinusOne_iff σ hc').mp hmiss.1
        rw [h0] at hminus
        exact absurd hminus (by decide)
    · have hiff := eval_div_neg_one ht.width dst.kind (σ.read dst.kind.size a)
        (σ.number (.const c)).toNat
      rw [← ht.minusOne h1, ← hvalue, hv, Option.some.injEq, eq_comm] at hiff
      rw [hop2 rfl v, hiff, not_iff_not]
      constructor
      · exact fun hbad => ⟨(isMinusOne_iff σ hc').mpr h1, rfl, hbad⟩
      · exact fun hmiss => hmiss.2.2
  | _ => simp [constRules3] at hrule

/-- A commutative operation takes its arguments in any order. -/
theorem value_comm {op : Op3} (hop : op.isCommutative = true) (a b dst : Arg) :
    op.value σ a b dst = op.value σ b a dst := by
  cases op <;> simp [Op3.isCommutative] at hop <;>
    simp [BitVec.add_comm, BitVec.mul_comm, BitVec.and_comm, BitVec.or_comm, BitVec.xor_comm]

/-- What `Optimize3` emits when it returns true. -/
theorem optimize3_cases {op : Op3} {a b dst : Arg} {is : List Instr} (σ : State)
    (hk : op.WellKinded a b dst) (hrun : optimize3 op a b dst = .ok (some is)) :
    (a = b ∧ op ∈ [Op3.and3, .or3] ∧ is = if b = dst then [] else [.op2 .mov a dst]) ∨
      (a = b ∧ op ∈ [Op3.sub3, .xor3, .andNot3] ∧ is = [.op1 .zero dst]) ∨
      (∃ c, b = .const c ∧ constRules3 op (σ.number (.const c)) a
        (.const ⟨σ.number (.const c), dst.kind⟩) dst = some is) ∨
      ∃ c, a = .const c ∧ op.isCommutative = true ∧ op.WellKinded b (.const c) dst ∧
        constRules3 op (σ.number (.const c)) b
          (.const ⟨σ.number (.const c), dst.kind⟩) dst = some is := by
  unfold optimize3 at hrun
  by_cases hsame : a = b ∧ op ∈ [Op3.and3, .or3]
  · rw [if_pos hsame, Except.ok.injEq, Option.some.injEq] at hrun
    exact .inl ⟨hsame.1, hsame.2, hrun.symm⟩
  rw [if_neg hsame] at hrun
  by_cases hzero : a = b ∧ op ∈ [Op3.sub3, .xor3, .andNot3]
  · rw [if_pos hzero, Except.ok.injEq, Option.some.injEq] at hrun
    exact .inr (.inl ⟨hzero.1, hzero.2, hrun.symm⟩)
  rw [if_neg hzero] at hrun
  by_cases hb : ∃ c, b = .const c
  · obtain ⟨c, rfl⟩ := hb
    have hc : c.kind.isInteger = true := hk.b_integer
    refine .inr (.inr (.inl ⟨c, rfl, ?_⟩))
    simpa [Const.cast_integer hc, Except.map, number_const] using hrun
  cases a with
  | const c =>
    have hcomm : op.isCommutative = true := by
      by_contra hnot
      cases b <;> simp_all
    have hkind : b.kind = dst.kind := by
      have := hk.kinds
      cases op <;> simp_all [Op3.isCommutative]
    have hc : c.kind = dst.kind := hk.a_kind
    have hint : c.kind.isInteger = true := (congrArg Kind.isInteger hc).trans hk.dst_integer
    refine .inr (.inr (.inr ⟨c, rfl, hcomm, ⟨hk.dst_not_const, hint, hk.dst_integer, hkind, ?_⟩, ?_⟩))
    · cases op <;> simp_all [Op3.isCommutative, Arg.kind]
    · cases b <;> simp_all [Const.cast_integer hint, Except.map, number_const]
  | reg r => cases b <;> simp_all
  | mem m => cases b <;> simp_all

/-- `Optimize3`. -/
theorem optimize3_exact {op : Op3} {a b dst : Arg} {is : List Instr}
    {v : BitVec (8 * dst.kind.size)} (hk : op.WellKinded a b dst)
    (hrun : optimize3 op a b dst = .ok (some is)) (hv : op.value σ a b dst = some v) :
    Leaves is σ dst v ↔ ¬ op.Misses σ a b dst := by
  have hdst := hk.dst_not_const
  have hint := hk.dst_integer
  have hno : op ≠ .div3 → ¬ op.Misses σ a b dst := fun h hmiss => h hmiss.2.1
  rcases optimize3_cases σ hk hrun with ⟨rfl, hop, rfl⟩ | ⟨rfl, hop, rfl⟩ | ⟨c, rfl, hrule⟩ |
    ⟨c, rfl, hcomm, hk', hrule⟩
  · simp only [List.mem_cons, List.not_mem_nil, or_false] at hop
    split_ifs with hdest
    · -- the destination is both arguments
      subst hdest
      rcases hop with rfl | rfl
      · exact (gives_nil hdst).leaves hv (by simp) (hno (by decide))
      · exact (gives_nil hdst).leaves hv (by simp) (hno (by decide))
    · rcases hop with rfl | rfl
      · exact (gives_op2 hdst hint rfl).leaves hv (by simp) (hno (by decide))
      · exact (gives_op2 hdst hint rfl).leaves hv (by simp) (hno (by decide))
  · simp only [List.mem_cons, List.not_mem_nil, or_false] at hop
    rcases hop with rfl | rfl | rfl
    · exact (gives_op1 hdst hint rfl).leaves hv (by simp) (hno (by decide))
    · exact (gives_op1 hdst hint rfl).leaves hv (by simp) (hno (by decide))
    · exact (gives_op1 hdst hint rfl).leaves hv (by simp) (hno (by decide))
  · exact constRules3_exact hk hrule hv
  · have hne : op ≠ .div3 := by
      rintro rfl
      simp [Op3.isCommutative] at hcomm
    rw [value_comm hcomm] at hv
    rw [constRules3_exact hk' hrule hv]
    exact iff_of_true (fun hmiss => hne hmiss.2.1) (hno hne)

/-- Where there is a rule the operation is defined. -/
theorem constRules2_defined {op : Op2} {c : Const} {dst : Arg} {is : List Instr}
    (hk : op.WellKinded (.const c) dst)
    (hrule : constRules2 op (σ.number (.const c)) (.const ⟨σ.number (.const c), dst.kind⟩) dst =
      some is) : ∃ v, op.value σ (.const c) dst = some v := by
  obtain ⟨-, hc, hint, hkinds⟩ := hk
  have hc' : c.kind.isInteger = true := hc
  cases op with
  | div2 =>
    have ht := @tested σ c dst.kind hint hc' (congrArg Kind.size hkinds)
    simp only [constRules2] at hrule
    split_ifs at hrule with h0 h1
    · exact ⟨_, if_neg (by rw [ht.one h0]; exact one_ne_zero' ht.width)⟩
    · exact ⟨_, if_neg (by rw [ht.minusOne h1]; exact neg_one_ne_zero' ht.width)⟩
  | _ => first | exact ⟨_, rfl⟩ | simp [constRules2] at hrule

theorem constRules3_defined {op : Op3} {a dst : Arg} {c : Const} {is : List Instr}
    (hk : op.WellKinded a (.const c) dst)
    (hrule : constRules3 op (σ.number (.const c)) a
      (.const ⟨σ.number (.const c), dst.kind⟩) dst = some is) :
    ∃ v, op.value σ a (.const c) dst = some v := by
  obtain ⟨-, hc, hint, -, hkinds⟩ := hk
  have hc' : c.kind.isInteger = true := hc
  cases op with
  | div3 =>
    have ht := @tested σ c dst.kind hint hc' (congrArg Kind.size hkinds)
    simp only [constRules3] at hrule
    split_ifs at hrule with h0 h1
    · exact ⟨_, if_neg (by rw [ht.one h0]; exact one_ne_zero' ht.width)⟩
    · exact ⟨_, if_neg (by rw [ht.minusOne h1]; exact neg_one_ne_zero' ht.width)⟩
  | _ => first | exact ⟨_, rfl⟩ | simp [constRules3] at hrule

theorem optimize2_defined {op : Op2} {src dst : Arg} {is : List Instr}
    (hk : op.WellKinded src dst) (hrun : optimize2 op src dst = .ok (some is)) :
    ∃ v, op.value σ src dst = some v := by
  rcases optimize2_cases σ hk hrun with ⟨_, hop, _⟩ | ⟨_, hop, _⟩ | ⟨rfl, _⟩ | ⟨c, rfl, hrule⟩
  · simp only [List.mem_cons, List.not_mem_nil, or_false] at hop
    rcases hop with rfl | rfl | rfl | rfl <;> exact ⟨_, rfl⟩
  · simp only [List.mem_cons, List.not_mem_nil, or_false] at hop
    rcases hop with rfl | rfl | rfl <;> exact ⟨_, rfl⟩
  · exact ⟨_, rfl⟩
  · exact constRules2_defined hk hrule

theorem optimize3_defined {op : Op3} {a b dst : Arg} {is : List Instr}
    (hk : op.WellKinded a b dst) (hrun : optimize3 op a b dst = .ok (some is)) :
    ∃ v, op.value σ a b dst = some v := by
  rcases optimize3_cases σ hk hrun with ⟨_, hop, _⟩ | ⟨_, hop, _⟩ | ⟨c, rfl, hrule⟩ |
    ⟨c, rfl, hcomm, hk', hrule⟩
  · simp only [List.mem_cons, List.not_mem_nil, or_false] at hop
    rcases hop with rfl | rfl <;> exact ⟨_, rfl⟩
  · simp only [List.mem_cons, List.not_mem_nil, or_false] at hop
    rcases hop with rfl | rfl | rfl <;> exact ⟨_, rfl⟩
  · exact constRules3_defined hk hrule
  · rw [value_comm hcomm]
    exact constRules3_defined hk' hrule

end Rules

/-- Whenever a rule applies the operation is defined, and the emitted instructions leave its value
in the destination and change nothing else, except that `AND_NOT2` by `-1` copies the constant and
that division by the largest unsigned number negates. -/
theorem peephole_exact (σ : State) (a b dst : Arg) (is : List Instr) :
    (∀ op : Op2, op.WellKinded b dst → optimize2 op b dst = .ok (some is) →
      ∃ v, op.value σ b dst = some v ∧ (Leaves is σ dst v ↔ ¬ op.Misses σ b dst)) ∧
    ∀ op : Op3, op.WellKinded a b dst → optimize3 op a b dst = .ok (some is) →
      ∃ v, op.value σ a b dst = some v ∧ (Leaves is σ dst v ↔ ¬ op.Misses σ a b dst) := by
  constructor
  · intro op hk hrun
    obtain ⟨v, hv⟩ := @optimize2_defined σ op b dst is hk hrun
    exact ⟨v, hv, optimize2_exact hk hrun hv⟩
  · intro op hk hrun
    obtain ⟨v, hv⟩ := @optimize3_defined σ op a b dst is hk hrun
    exact ⟨v, hv, optimize3_exact hk hrun hv⟩

/-- The state in which everything is zero. -/
def State.zero : State := ⟨fun _ => 0, fun _ => 0⟩

theorem peephole_exact_inc :
    (∃ v, Op2.add2.value .zero (.const ⟨1, .uint8⟩) (.reg ⟨0x104, .uint8⟩) = some v ∧
      (Leaves [.op1 .inc (.reg ⟨0x104, .uint8⟩)] .zero (.reg ⟨0x104, .uint8⟩) v ↔
        ¬ Op2.add2.Misses .zero (.const ⟨1, .uint8⟩) (.reg ⟨0x104, .uint8⟩))) ∧
    ∃ v, Op3.sub3.value .zero (.reg ⟨0x105, .uint8⟩) (.reg ⟨0x105, .uint8⟩)
        (.reg ⟨0x104, .uint8⟩) = some v ∧
      (Leaves [.op1 .zero (.reg ⟨0x104, .uint8⟩)] .zero (.reg ⟨0x104, .uint8⟩) v ↔
        ¬ Op3.sub3.Misses .zero (.reg ⟨0x105, .uint8⟩) (.reg ⟨0x105, .uint8⟩)
          (.reg ⟨0x104, .uint8⟩)) :=
  ⟨(peephole_exact .zero (.const ⟨1, .uint8⟩) _ _ _).1 .add2 ⟨rfl, rfl, rfl, rfl⟩ rfl,
    (peephole_exact .zero _ _ _ _).2 .sub3 ⟨rfl, rfl, rfl, rfl, rfl⟩ rfl⟩

/-- `x &^ -1` is zero, but the rule copies `-1`. -/
theorem andNot_copies : ¬ ∀ (σ : State) (op : Op2) (src dst : Arg) (is : List Instr)
    (v : BitVec (8 * dst.kind.size)), op.WellKinded src dst →
      optimize2 op src dst = .ok (some is) → op.value σ src dst = some v → Leaves is σ dst v := by
  intro hall
  let dst : Arg := .reg ⟨0x104, .int32⟩
  have h := hall .zero .andNot2 (.const ⟨-1, .int32⟩) dst [.op2 .mov (.const ⟨-1, .int32⟩) dst] 0
    ⟨rfl, rfl, rfl, rfl⟩ rfl (by decide)
  have hgives : Gives [.op2 .mov (.const ⟨-1, .int32⟩) dst] .zero dst
      (State.zero.read 4 (.const ⟨-1, .int32⟩)) := gives_op2 rfl rfl rfl
  have hne : State.zero.read 4 (.const ⟨-1, .int32⟩) ≠ 0 := by decide
  exact hne ((hgives 0).mp h)

end OneJit.GoJit
