import OneJit.GoJit.Amd64Op2

/-!
# Shifts of amd64

The encoder of `shift.go`, and what the code of the shifts by a constant leaves in the destination.
-/

namespace OneJit.GoJit.Amd64

open X86 (Byte Cpu Loc Insn IsSize IsRexPrefix Encodes assemble rmOperand fields form lowBits Sized)

def rcx : RegId := 0x102

/-! ## The encoder -/

/-- Prefixes, opcode and operand of a shift. The opcode is that for bytes. -/
def shiftBytes (siz : Nat) (id : RegId) (dhi opcode : Byte) (operand : List Byte) : List Byte :=
  match siz with
  | 1 => (if rsp ≤ id then [0x40 ||| dhi] else []) ++ opcode :: operand
  | 2 => 0x66 :: (if dhi ≠ 0 then [0x40 ||| dhi] else []) ++ (0x01 ||| opcode) :: operand
  | 4 => (if dhi ≠ 0 then [0x40 ||| dhi] else []) ++ (0x01 ||| opcode) :: operand
  | 8 => (0x48 ||| dhi) :: (0x01 ||| opcode) :: operand
  | _ => operand.tail

/-- The opcode of a shift by a constant, and the count if it is not in the opcode. -/
def countBytes (n : BitVec 64) : Byte × List Byte :=
  if n = 1 then (0xC0 ||| 0x10, []) else (0xC0, [n.setWidth 8])

def shiftConstReg (op : Op2) (c : Const) (dst : Reg) : Emit Unit :=
  let n := c.val
  if n = 0 then pure ()
  else if 8 * (dst.kind.size : Int) ≤ n.toInt then zeroReg dst
  else do
    let op_ ← op2val op
    let (dlo, dhi) ← lohi dst
    let (opcode, count) := countBytes n
    bytes (shiftBytes dst.kind.size dst.id dhi opcode [op_ ||| dlo] ++ count)

/-- The code for a memory operand. -/
def shiftMemBytes (op_ opcode : Byte) (m : Mem) : Emit (List Byte) := do
  let (dlo, dhi) ← lohiId m.reg.id
  let (len, offbit) := offlen m m.reg.id
  let tail := quirk24 m.reg.id ++ offset len m
  pure (shiftBytes m.reg.kind.size m.reg.id dhi opcode ((offbit ||| (op_ &&& ~~~0xC0) ||| dlo) :: tail))

def shiftConstMem (op2 : Op2 → Arg → Arg → Emit Unit) (op : Op2) (c : Const) (m : Mem) :
    Emit Unit := do
  let n := c.val
  assert (0 < n.toInt)
  let size := m.reg.kind.size
  let long := 8 * (size : Int) ≤ n.toInt
  if long ∧ m.reg.kind.signed = false then zeroMem op2 m
  else do
    let n := if long then BitVec.ofNat 64 (8 * size - 1) else n
    let op_ ← op2val op
    let (opcode, count) := countBytes n
    let code ← shiftMemBytes op_ opcode m
    bytes (code ++ count)

section Variable

variable (enc : Encoders)

/-- Moves the count to `RCX`. -/
def moveCount (src : Reg) : Emit Unit :=
  if src.id ≠ rcx then op2RegReg enc .mov src ⟨rcx, src.kind⟩ else pure ()

/-- What `shiftRegReg` emits once the count is in `RCX`. -/
def shiftClReg (op : Op2) (dst : Reg) : Emit Unit := do
  let op_ ← op2val op
  let (dlo, dhi) ← lohi dst
  bytes (shiftBytes dst.kind.size dst.id dhi 0xD2 [op_ ||| dlo])

def shiftRegReg (op : Op2) (src dst : Reg) : Emit Unit :=
  if dst.id = rcx then errorf "unimplemented shift RCX by Reg"
  else do
    moveCount enc src
    shiftClReg op dst

/-- What `shiftRegMem` emits once the count is in `RCX`. -/
def shiftClMem (op : Op2) (dst : Mem) : Emit Unit := do
  let op_ ← op2val op
  let code ← shiftMemBytes op_ 0xD2 dst
  bytes code

def shiftRegMem (op : Op2) (src : Reg) (dst : Mem) : Emit Unit :=
  if dst.reg.id = rcx then errorf "unimplemented shift Mem[RCX] by Reg"
  else do
    moveCount enc src
    shiftClMem op dst

def shiftMemReg (op : Op2) (src : Mem) (dst : Reg) : Emit Unit :=
  if dst.id = rcx then errorf "unimplemented shift RCX by Mem"
  else do
    let r : Reg := ⟨rcx, src.reg.kind⟩
    op2MemReg enc .mov src r
    shiftRegReg enc op r dst

def shiftMemMem (op : Op2) (src dst : Mem) : Emit Unit :=
  if dst.reg.id = rcx then errorf "unimplemented shift Mem[RCX] by Mem"
  else if src.reg.id = rcx then errorf "unimplemented shift Mem by Mem[RCX]"
  else do
    let r : Reg := ⟨rcx, src.reg.kind⟩
    op2MemReg enc .mov src r
    shiftRegMem enc op r dst

end Variable

/-! ## The bytes of a shift -/

/-- The operation in the `reg` field. There is no arithmetic shift to the right. -/
def shiftDigit : Op2 → Option (BitVec 3)
  | .shl2 => some 4
  | .shr2 => some 5
  | _ => none

theorem op2val_shift {op : Op2} {k : BitVec 3} (h : shiftDigit op = some k) :
    op2val op = pure (0xC0 ||| fields 0 k 0) ∧
      (0xC0 ||| fields 0 k 0) &&& ~~~(0xC0 : Byte) = fields 0 k 0 := by
  cases op <;> cases h <;> exact ⟨rfl, by decide⟩

section Bytes

variable {n : Nat} {id : RegId} {opcode : Byte} {operand : List Byte}

/-- The prefixes are those of the size. -/
theorem shiftBytes_eq (hn : IsSize n) (hid : amd64.valid id = true)
    (hlow : opcode.getLsbD 0 = false) :
    ∃ rexBytes, shiftBytes n id (hi (num id)) opcode operand =
        assemble (decide (n = 2)) rexBytes (if n = 1 then opcode else 0x01 ||| opcode) operand ∧
      Sized n rexBytes (rexOf n 0 (num id)) (if n = 1 then opcode else 0x01 ||| opcode) ∧
      Plain n rexBytes (num id) := by
  have hone : (0x01 ||| opcode).getLsbD 0 = true := by simp
  have hrsp : rsp ≤ id ↔ ¬ num id < 4 := by
    rw [← lt_rsp_iff hid]
    bv_omega
  have hlong : ∀ {n}, n ≠ 1 → n ≠ 8 → IsSize n → ∃ rexBytes,
      (if hi (num id) ≠ 0 then [0x40 ||| hi (num id)] else []) = rexBytes ∧
        Sized n rexBytes (rexOf n 0 (num id)) (0x01 ||| opcode) ∧ Plain n rexBytes (num id) := by
    intro n hn₁ hn₈ hn
    refine ⟨_, rfl, ?_, plain_of_ne hn₁⟩
    split_ifs with hc
    · exact sized hn (isRexPrefix_40_base hn₈) (by simp [hn₁])
    · exact sized hn (isRexPrefix_nil_base hn₈ (not_not.mp hc)) (by simp [hn₁])
  rcases hn with rfl | rfl | rfl | rfl
  · by_cases hlt : num id < 4
    · refine ⟨[], ?_, sized (.inl rfl) (isRexPrefix_nil_base (by decide)
        (hi_eq_zero_iff.mpr (high_of_lt hlt))) (by simpa using hlow), fun _ _ => hlt⟩
      rw [shiftBytes, if_neg fun hle => hrsp.mp hle hlt]
      rfl
    · refine ⟨_, ?_, sized (.inl rfl) (isRexPrefix_40_base (by decide)) (by simpa using hlow),
        plain_cons⟩
      rw [shiftBytes, if_pos (hrsp.mpr hlt)]
      rfl
  · obtain ⟨rexBytes, heq, hsized, hplain⟩ := @hlong 2 (by decide) (by decide) (.inr (.inl rfl))
    exact ⟨rexBytes, by rw [shiftBytes, heq]; rfl, hsized, hplain⟩
  · obtain ⟨rexBytes, heq, hsized, hplain⟩ :=
      @hlong 4 (by decide) (by decide) (.inr (.inr (.inl rfl)))
    exact ⟨rexBytes, by rw [shiftBytes, heq]; rfl, hsized, hplain⟩
  · exact ⟨[0x48 ||| hi (num id)], rfl,
      sized (.inr (.inr (.inr rfl))) isRexPrefix_48_base (by simp), plain_cons⟩

/-- The forms of the opcodes. -/
theorem shift_forms :
    (form 0xC0 = some .shiftImm ∧ form (0x01 ||| 0xC0) = some .shiftImm) ∧
      (form 0xD0 = some .shiftOne ∧ form (0x01 ||| 0xD0) = some .shiftOne) ∧
      form 0xD2 = some .shiftCl ∧ form (0x01 ||| 0xD2) = some .shiftCl := by
  decide

theorem form_ite {p : Prop} [Decidable p] {opcode opcode' : Byte} {f : X86.Form}
    (h : form opcode = some f ∧ form opcode' = some f) :
    form (if p then opcode else opcode') = some f := by
  split_ifs
  · exact h.1
  · exact h.2

variable {k : BitVec 3} {l : Loc}

/-- The operand is read back behind these prefixes. -/
def ReadsOperand (n : Nat) (b : BitVec 4) (operand : List Byte) (k : BitVec 3) (l : Loc) : Prop :=
  ∀ rexBytes, Plain n rexBytes b → ∀ rest,
    rmOperand n (!rexBytes.isEmpty) (rexOf n 0 b) (operand ++ rest) = some (k, l, rest)

/-- A shift by a constant. -/
theorem encodes_shiftConst (hn : IsSize n) (hid : amd64.valid id = true)
    (hop : ReadsOperand n (num id) operand k l) (v : BitVec 64) :
    Encodes (shiftBytes n id (hi (num id)) (countBytes v).1 operand ++ (countBytes v).2)
      (.shift n k l (some (v.setWidth 8))) := by
  obtain ⟨himm, hone, -⟩ := shift_forms
  unfold countBytes
  split_ifs with hv
  · obtain ⟨rexBytes, heq, hsized, hplain⟩ :=
      @shiftBytes_eq n id 0xD0 operand hn hid (by decide)
    have hopcode : (0xC0 ||| 0x10 : Byte) = 0xD0 := by decide
    subst hv
    rw [List.append_nil, hopcode, heq]
    exact X86.encodes_shiftOne hsized (form_ite hone) (hop rexBytes hplain)
  · obtain ⟨rexBytes, heq, hsized, hplain⟩ :=
      @shiftBytes_eq n id 0xC0 operand hn hid (by decide)
    have h := X86.encodes_shiftImm hsized (form_ite himm) (v.setWidth 8) (hop rexBytes hplain)
    rw [heq]
    simpa only [assemble, List.append_assoc, List.cons_append] using h

/-- A shift by the count in `RCX`. -/
theorem encodes_shiftCl (hn : IsSize n) (hid : amd64.valid id = true)
    (hop : ReadsOperand n (num id) operand k l) :
    Encodes (shiftBytes n id (hi (num id)) 0xD2 operand) (.shift n k l none) := by
  obtain ⟨rexBytes, heq, hsized, hplain⟩ := @shiftBytes_eq n id 0xD2 operand hn hid (by decide)
  rw [heq]
  exact X86.encodes_shiftCl hsized (form_ite shift_forms.2.2) (hop rexBytes hplain)

theorem readsOperand_reg {b : BitVec 4} :
    ReadsOperand n b [0xC0 ||| fields 0 k 0 ||| lo b] k (.gpr b) :=
  fun _ hplain rest => rmOperand_op hplain rest

theorem readsOperand_mem {m : Mem} (hm : amd64.valid m.reg.id = true) :
    ReadsOperand n (num m.reg.id)
      (((offlen m m.reg.id).2 ||| fields 0 k 0 ||| lo (num m.reg.id)) :: tail m) k
      (.mem (address m)) :=
  fun _ _ rest => rmOperand_op_mem hm rest

end Bytes

/-! ## Shifts by a constant -/

/-- A shift as Go defines it, by any count. -/
def goShift (op : Op2) (k : Kind) {w : Nat} (n : Nat) (x : BitVec w) : BitVec w :=
  if op = .shl2 then x <<< n else if k.signed then x.sshiftRight n else x >>> n

/-- The shift that the processor does. -/
def rawShift (op : Op2) {w : Nat} (n : Nat) (x : BitVec w) : BitVec w :=
  if op = .shl2 then x <<< n else x >>> n

/-- The destination gets a function of what it held, and nothing else changes. -/
def Applies (dst : Arg) (f : BitVec (8 * dst.kind.size) → BitVec (8 * dst.kind.size))
    (σ σ' : State) : Prop :=
  Writes σ dst.kind.size (f (σ.read dst.kind.size dst)) σ' dst

section Applies

variable {e : Emit Unit} {a : Asm} {dst : Arg}
  {f g : BitVec (8 * dst.kind.size) → BitVec (8 * dst.kind.size)}

theorem Applies.correct (h : Effect e (Applies dst f)) (hfg : ∀ x, f x = g x) :
    Correct e a (Applies dst g) := by
  apply (h.mono _).correct
  intro σ σ' hw
  rw [Applies, ← hfg]
  exact hw

theorem Applies.not_correct (h : Effect e (Applies dst f)) (c : Cpu)
    (hfg : f ((view c).read dst.kind.size dst) ≠ g ((view c).read dst.kind.size dst)) :
    ¬ Correct e a (Applies dst g) :=
  h.not_correct c fun _ hf hg => hfg (hf.unique.mp hg)

end Applies

section Shifts

variable {op : Op2} {k : BitVec 3} {w n : Nat} {kind : Kind}

theorem goShift_eq (h : ¬(op = .shr2 ∧ kind.signed = true)) (hop : op = .shl2 ∨ op = .shr2)
    (x : BitVec w) : rawShift op n x = goShift op kind n x := by
  rcases hop with rfl | rfl
  · rfl
  · have hunsigned : kind.signed = false := Bool.eq_false_iff.mpr fun hs => h ⟨rfl, hs⟩
    simp [rawShift, goShift, hunsigned]

/-- A count of at least the width leaves nothing. -/
theorem rawShift_of_le (h : w ≤ n) (x : BitVec w) : rawShift op n x = 0 := by
  unfold rawShift
  split_ifs
  · exact BitVec.shiftLeft_eq_zero h
  · exact BitVec.ushiftRight_eq_zero h

/-- What is wrong with a logical shift of a negative number. -/
theorem rawShift_allOnes {n' : Nat} (hn : 0 < n) (hw : 0 < w) (hs : kind.signed = true) :
    rawShift .shr2 n (BitVec.allOnes w) ≠ goShift .shr2 kind n' (BitVec.allOnes w) := by
  intro h
  have hlogical : (BitVec.allOnes w >>> n).getLsbD (w - 1) = false := by
    rw [BitVec.getLsbD_ushiftRight]
    exact BitVec.getLsbD_of_ge _ _ (by omega)
  have harith : ((BitVec.allOnes w).sshiftRight n').getLsbD (w - 1) = true := by
    rw [BitVec.getLsbD_sshiftRight, BitVec.getLsbD_allOnes, BitVec.msb_allOnes hw]
    split_ifs with hlt
    · simp [hlt]
      omega
    · simp
      omega
  simp only [rawShift, goShift, hs, if_true, reduceCtorEq, if_false] at h
  rw [h, harith] at hlogical
  cases hlogical

/-- A shift to the left by one bit less than the width keeps the lowest bit. -/
theorem shiftLeft_allOnes (hw : 0 < w) : BitVec.allOnes w <<< (w - 1) ≠ 0 := by
  intro h
  have hbit := congrArg (fun x => x.getLsbD (w - 1)) h
  simp only [BitVec.getLsbD_shiftLeft, BitVec.getLsbD_allOnes] at hbit
  simp at hbit
  omega

end Shifts

/-! ## The code of a shift by a constant -/

theorem zero_lt_width {n : Nat} (hn : IsSize n) : 0 < 8 * n := by
  rcases hn with rfl | rfl | rfl | rfl <;> decide

section Code

variable {op : Op2} {k : BitVec 3} {c : Const}

theorem shiftDigit_eq (hop : op = .shl2 ∨ op = .shr2) : ∃ k, shiftDigit op = some k := by
  rcases hop with rfl | rfl <;> exact ⟨_, rfl⟩

theorem shiftConstReg_emits (hk : shiftDigit op = some k) {dst : Reg}
    (hd : amd64.valid dst.id = true) (hn : IsSize dst.kind.size) (hc : c.val ≠ 0)
    (hlt : ¬ 8 * (dst.kind.size : Int) ≤ c.val.toInt) :
    Emits (shiftConstReg op c dst)
      (.shift dst.kind.size k (loc (.reg dst)) (some (c.val.setWidth 8))) := by
  simp only [shiftConstReg, if_neg hc, if_neg hlt, (op2val_shift hk).1, lohi, lohiId_eq hd,
    pure_bind]
  exact ⟨_, rfl, encodes_shiftConst hn hd readsOperand_reg c.val⟩

theorem shiftMemBytes_eq (hk : shiftDigit op = some k) {m : Mem}
    (hm : amd64.valid m.reg.id = true) (opcode : Byte) :
    shiftMemBytes (0xC0 ||| fields 0 k 0) opcode m = pure (shiftBytes m.reg.kind.size m.reg.id
      (hi (num m.reg.id)) opcode
      (((offlen m m.reg.id).2 ||| fields 0 k 0 ||| lo (num m.reg.id)) :: tail m)) := by
  simp only [shiftMemBytes, lohiId_eq hm, pure_bind, (op2val_shift hk).2]
  rfl

/-- The count that is encoded for a memory operand. -/
def memCount (c : Const) (k : Kind) : BitVec 64 :=
  if 8 * (k.size : Int) ≤ c.val.toInt then BitVec.ofNat 64 (8 * k.size - 1) else c.val

theorem shiftConstMem_emits (op2 : Op2 → Arg → Arg → Emit Unit) (hk : shiftDigit op = some k)
    {m : Mem} (hm : amd64.valid m.reg.id = true) (hn : IsSize m.reg.kind.size)
    (hc : 0 < c.val.toInt)
    (hzero : ¬(8 * (m.reg.kind.size : Int) ≤ c.val.toInt ∧ m.reg.kind.signed = false)) :
    Emits (shiftConstMem op2 op c m) (.shift m.reg.kind.size k (loc (.mem m))
      (some ((memCount c m.reg.kind).setWidth 8))) := by
  simp only [shiftConstMem, assert, hc, decide_true, if_true, pure_bind, if_neg hzero,
    (op2val_shift hk).1, shiftMemBytes_eq hk hm]
  exact ⟨_, rfl, encodes_shiftConst hn hm (readsOperand_mem hm) (memCount c m.reg.kind)⟩

/-- The processor does not change a count below the width. -/
theorem shiftCount_eq {n : Nat} {v : BitVec 64} (hn : IsSize n) (hv : v.toNat < 8 * n) :
    X86.shiftCount n (v.setWidth 8) = v.toNat := by
  have hle := le_eight hn
  have hbyte : (v.setWidth 8).toNat = v.toNat := by
    rw [BitVec.toNat_setWidth]
    exact Nat.mod_eq_of_lt (by omega)
  rw [X86.shiftCount, hbyte]
  split_ifs with h8
  · exact Nat.mod_eq_of_lt (by omega)
  · exact Nat.mod_eq_of_lt (by rcases hn with h | h | h | h <;> omega)

/-- A shift instruction with a count below the width. -/
theorem shift_effect {e : Emit Unit} {dst : Arg} {v : BitVec 64} (hk : shiftDigit op = some k)
    (hd : ValidArg dst) (hdc : dst.isConst = false) (hn : IsSize dst.kind.size)
    (hv : v.toNat < 8 * dst.kind.size)
    (he : Emits e (.shift dst.kind.size k (loc dst) (some (v.setWidth 8)))) :
    Effect e (Applies dst (rawShift op v.toNat)) := by
  apply he.effect
  intro c
  have hcount := shiftCount_eq hn hv
  obtain ⟨c', hwrite, hw⟩ := @write_loc c dst hd hdc _ (le_eight hn)
    (rawShift op v.toNat ((view c).read dst.kind.size dst))
  refine ⟨c', ?_, hw⟩
  have hvalue : X86.shiftValue k ((view c).read dst.kind.size dst) v.toNat =
      some (rawShift op v.toNat ((view c).read dst.kind.size dst)) := by
    cases op <;> cases hk <;> rfl
  simp only [Insn.exec, read_loc hd hdc, Option.bind_some, Option.getD_some, hcount, hvalue, hwrite]

end Code

/-! ## Where the code goes wrong -/

/-- The state in which all bits are set. -/
def minusOnes : Cpu := ⟨fun _ => -1, fun _ => -1⟩

theorem load_minusOnes (n : Nat) (b : BitVec 64) :
    (view minusOnes).load b n = BitVec.allOnes (8 * n) := by
  induction n generalizing b with
  | zero => rfl
  | succ n ih =>
    rw [State.load, ih]
    apply BitVec.eq_of_getLsbD_eq
    intro i hi
    change _ = (BitVec.allOnes (8 * n + 8)).getLsbD i
    rw [BitVec.getLsbD_append]
    have hbyte : (view minusOnes).mem b = BitVec.allOnes 8 := rfl
    by_cases hlow : i < 8
    · rw [if_pos hlow, hbyte, BitVec.getLsbD_allOnes, BitVec.getLsbD_allOnes]
      simp [hlow]
      omega
    · rw [if_neg hlow, BitVec.getLsbD_allOnes, BitVec.getLsbD_allOnes]
      simp
      omega

theorem read_minusOnes {a : Arg} (ha : ValidArg a) (hac : a.isConst = false) {n : Nat}
    (hn : n ≤ 8) : (view minusOnes).read n a = BitVec.allOnes (8 * n) := by
  cases a with
  | const c => simp [Arg.isConst] at hac
  | mem m => exact load_minusOnes n _
  | reg r =>
    have hreg : minusOnes.regs (num r.id) = BitVec.allOnes 64 := rfl
    rw [State.read, view_regs _ ha, hreg]
    apply BitVec.eq_of_getLsbD_eq
    intro i hi
    rw [BitVec.getLsbD_setWidth, BitVec.getLsbD_allOnes, BitVec.getLsbD_allOnes]
    simp
    omega

section Exact

variable {op : Op2} {c : Const} {dst : Arg} {a : Asm} {e : Emit Unit}

/-- The code does a shift of its own by this count. -/
theorem raw_correct_iff (hop : op = .shl2 ∨ op = .shr2) (hd : ValidArg dst)
    (hdc : dst.isConst = false) (hn : IsSize dst.kind.size) {n : Nat} (hpos : 0 < n)
    (he : Effect e (Applies dst (rawShift op n))) :
    Correct e a (Applies dst (goShift op dst.kind n)) ↔
      ¬(op = .shr2 ∧ dst.kind.signed = true) := by
  constructor
  · rintro hcorrect ⟨rfl, hs⟩
    refine Applies.not_correct he minusOnes ?_ hcorrect
    rw [read_minusOnes hd hdc (le_eight hn)]
    exact rawShift_allOnes hpos (zero_lt_width hn) hs
  · exact fun hno => Applies.correct he (goShift_eq hno hop)

/-- The code for zero, where the count is at least the width. -/
theorem zero_correct_iff (hop : op = .shl2 ∨ op = .shr2) (hd : ValidArg dst)
    (hdc : dst.isConst = false) (hn : IsSize dst.kind.size) {n : Nat} (hle : 8 * dst.kind.size ≤ n)
    (he : Effect e (Instr.op1 .zero dst).Step) :
    Correct e a (Applies dst (goShift op dst.kind n)) ↔
      ¬(op = .shr2 ∧ dst.kind.signed = true) := by
  have hpos := zero_lt_width hn
  apply raw_correct_iff hop hd hdc hn (by omega)
  apply he.mono
  rintro σ σ' ⟨v, hv, hw⟩
  cases hv
  rw [Applies, rawShift_of_le hle]
  exact hw

/-- One is shifted out. -/
theorem goShift_one (op : Op2) (k : Kind) {w n : Nat} (hw : 1 < w) (h : w ≤ n) :
    goShift op k n 1#w = 0 := by
  unfold goShift
  split_ifs
  · exact BitVec.shiftLeft_eq_zero h
  · apply BitVec.eq_of_getLsbD_eq
    intro i hi
    rw [BitVec.getLsbD_sshiftRight, if_neg (by omega), BitVec.msb_one,
      decide_eq_false (show ¬ w = 1 by omega)]
    simp
  · exact BitVec.ushiftRight_eq_zero h

theorem toNat_of_pos {v : BitVec 64} (h : 0 < v.toInt) : v.toInt = v.toNat ∧ v ≠ 0 := by
  constructor
  · rw [BitVec.toInt_eq_toNat_cond] at h ⊢
    split_ifs at h ⊢ <;> omega
  · rintro rfl
    simp at h

theorem shiftConstReg_iff (hop : op = .shl2 ∨ op = .shr2) (hc : 0 < c.val.toInt) {dst : Reg}
    (hd : amd64.valid dst.id = true) (hint : dst.kind.isInteger = true) :
    Correct (shiftConstReg op c dst) a
        (Applies (.reg dst) (goShift op dst.kind c.val.toNat)) ↔
      ¬(op = .shr2 ∧ dst.kind.signed = true) ∧
        (c.val.toNat < 8 * dst.kind.size ∨ ¬ IsHigh (.reg dst)) := by
  have hn := isSize_of_isInteger hint
  obtain ⟨hnat, hne⟩ := toNat_of_pos hc
  by_cases hlt : 8 * (dst.kind.size : Int) ≤ c.val.toInt
  · have hle : 8 * dst.kind.size ≤ c.val.toNat := by omega
    rw [shiftConstReg, if_neg hne, if_pos hlt]
    by_cases hhigh : IsHigh (.reg dst)
    · have hzero : Effect (zeroReg dst) fun σ σ' => σ'.regs dst.id = σ.regs dst.id :=
        zero_high_effect noEncoders (fun _ _ _ => errorf "unused") hd hhigh
      refine iff_of_false (hzero.not_correct ones ?_) fun hno => hno.2.elim (by omega) (· hhigh)
      intro σ' hsame hw
      have hwidth := zero_lt_width hn
      have hread : (view ones).read dst.kind.size (.reg dst) = 1#(8 * dst.kind.size) := by
        rw [State.read, view_regs _ hd]
        exact BitVec.setWidth_ofNat_of_le (Kind.width_le hint) 1
      have hreg : (σ'.regs dst.id).setWidth (8 * dst.kind.size) = _ := hw.1
      change _ = goShift op dst.kind c.val.toNat ((view ones).read dst.kind.size (.reg dst)) at hreg
      rw [hsame] at hreg
      change (view ones).read dst.kind.size (.reg dst) = _ at hreg
      have hone : 1 < 8 * dst.kind.size := by
        rcases hn with h | h | h | h <;> omega
      rw [hread, goShift_one op dst.kind hone hle] at hreg
      exact one_ne_zero' hone hreg
    · have hzero : Effect (zeroReg dst) (Instr.op1 .zero (.reg dst)).Step :=
        @zero_effect noEncoders (fun _ _ _ => errorf "unused") (.reg dst) hd rfl hn hhigh
      apply (@zero_correct_iff op (.reg dst) a _ hop hd rfl hn _ hle hzero).trans
      exact ⟨fun hno => ⟨hno, .inr hhigh⟩, And.left⟩
  · obtain ⟨k, hk⟩ := shiftDigit_eq hop
    have hlow : c.val.toNat < 8 * dst.kind.size := by omega
    have he := @shift_effect op k _ (.reg dst) c.val hk hd rfl hn hlow
      (shiftConstReg_emits hk hd hn hne hlt)
    apply (@raw_correct_iff op (.reg dst) a _ hop hd rfl hn _ (by omega) he).trans
    exact ⟨fun hno => ⟨hno, .inl hlow⟩, And.left⟩

theorem shiftConstMem_iff (op2 : Op2 → Arg → Arg → Emit Unit) (hop : op = .shl2 ∨ op = .shr2)
    (hc : 0 < c.val.toInt) {m : Mem} (hm : amd64.valid m.reg.id = true)
    (hint : m.reg.kind.isInteger = true) :
    Correct (shiftConstMem op2 op c m) a
        (Applies (.mem m) (goShift op m.reg.kind c.val.toNat)) ↔
      ¬(op = .shr2 ∧ m.reg.kind.signed = true) ∧
        (c.val.toNat < 8 * m.reg.kind.size ∨ m.reg.kind.signed = false) := by
  have hn := isSize_of_isInteger hint
  have hwidth := zero_lt_width hn
  obtain ⟨hnat, hne⟩ := toNat_of_pos hc
  obtain ⟨k, hk⟩ := shiftDigit_eq hop
  by_cases hlt : 8 * (m.reg.kind.size : Int) ≤ c.val.toInt
  · have hle : 8 * m.reg.kind.size ≤ c.val.toNat := by omega
    by_cases hs : m.reg.kind.signed = false
    · have hcode : shiftConstMem op2 op c m = zeroMem op2 m := by
        simp only [shiftConstMem, assert, hc, decide_true, if_true, pure_bind,
          if_pos (And.intro hlt hs)]
      have hzero : Effect (zeroMem op2 m) (Instr.op1 .zero (.mem m)).Step :=
        @zero_effect noEncoders op2 (.mem m) hm rfl hn id
      rw [hcode]
      apply (@zero_correct_iff op (.mem m) a _ hop hm rfl hn _ hle hzero).trans
      exact ⟨fun hno => ⟨hno, .inr hs⟩, And.left⟩
    · have hsigned : m.reg.kind.signed = true := by simpa using hs
      have hemits := shiftConstMem_emits op2 hk hm hn hc fun hand => hs hand.2
      have hcount : (memCount c m.reg.kind).toNat = 8 * m.reg.kind.size - 1 := by
        have hle := le_eight hn
        rw [memCount, if_pos hlt, BitVec.toNat_ofNat]
        exact Nat.mod_eq_of_lt (by omega)
      have he := @shift_effect op k _ (.mem m) _ hk hm rfl hn
        (by rw [hcount]; exact Nat.sub_one_lt (by omega)) hemits
      rw [hcount] at he
      refine iff_of_false (Applies.not_correct he minusOnes ?_) fun hno => hno.2.elim (by omega) hs
      have hread : (view minusOnes).read (Arg.mem m).kind.size (.mem m) =
          BitVec.allOnes (8 * m.reg.kind.size) := @read_minusOnes (.mem m) hm rfl _ (le_eight hn)
      rw [hread]
      rcases hop with rfl | rfl
      · have hzero : goShift .shl2 m.reg.kind c.val.toNat (BitVec.allOnes (8 * m.reg.kind.size)) = 0 :=
          BitVec.shiftLeft_eq_zero hle
        exact hzero ▸ shiftLeft_allOnes hwidth
      · have hone : 1 < 8 * m.reg.kind.size := by
          rcases hn with h | h | h | h <;> omega
        exact rawShift_allOnes (by omega) hwidth hsigned
  · have hlow : c.val.toNat < 8 * m.reg.kind.size := by omega
    have hemits := shiftConstMem_emits op2 hk hm hn hc fun hand => hlt hand.1
    have hcount : memCount c m.reg.kind = c.val := if_neg hlt
    rw [hcount] at hemits
    have he := @shift_effect op k _ (.mem m) c.val hk hm rfl hn hlow hemits
    apply (@raw_correct_iff op (.mem m) a _ hop hm rfl hn _ (by omega) he).trans
    exact ⟨fun hno => ⟨hno, .inl hlow⟩, And.left⟩

end Exact

/-- The code of a shift by a constant, also by the width and more, leaves what Go defines in a
register and in memory, except that no shift to the right keeps the sign, that zero cannot be put in
the registers from `R8` on, and that signed memory is shifted by one bit less than its width. -/
theorem constShift_iff (op2 : Op2 → Arg → Arg → Emit Unit) (op : Op2) (c : Const)
    (hop : op = .shl2 ∨ op = .shr2) (hc : 0 < c.val.toInt) :
    (∀ (dst : Reg) (a : Asm), amd64.valid dst.id = true → dst.kind.isInteger = true →
      (Correct (shiftConstReg op c dst) a
          (Applies (.reg dst) (goShift op dst.kind c.val.toNat)) ↔
        ¬(op = .shr2 ∧ dst.kind.signed = true) ∧
          (c.val.toNat < 8 * dst.kind.size ∨ ¬ IsHigh (.reg dst)))) ∧
    ∀ (m : Mem) (a : Asm), amd64.valid m.reg.id = true → m.reg.kind.isInteger = true →
      (Correct (shiftConstMem op2 op c m) a
          (Applies (.mem m) (goShift op m.reg.kind c.val.toNat)) ↔
        ¬(op = .shr2 ∧ m.reg.kind.signed = true) ∧
          (c.val.toNat < 8 * m.reg.kind.size ∨ m.reg.kind.signed = false)) :=
  ⟨fun _ _ hd hint => shiftConstReg_iff hop hc hd hint,
    fun _ _ hm hint => shiftConstMem_iff op2 hop hc hm hint⟩

theorem constShift_iff_rax :
    Correct (shiftConstReg .shl2 ⟨3, .uint8⟩ ⟨rax, .int64⟩) ⟨[], .init amd64⟩
        (Applies (.reg ⟨rax, .int64⟩) (goShift .shl2 .int64 3)) ↔
      ¬(Op2.shl2 = .shr2 ∧ Kind.int64.signed = true) ∧
        (3 < 8 * Kind.int64.size ∨ ¬ IsHigh (.reg ⟨rax, .int64⟩)) :=
  (constShift_iff (fun _ _ _ => errorf "unused") .shl2 ⟨3, .uint8⟩ (.inl rfl) (by decide)).1
    ⟨rax, .int64⟩ ⟨[], .init amd64⟩ (by decide) rfl

/-- `SHR2` of `RAX` by one shifts a zero into a negative number. -/
theorem not_constShift : ¬ ∀ (op : Op2) (c : Const) (dst : Reg) (a : Asm),
    op = .shl2 ∨ op = .shr2 → 0 < c.val.toInt → amd64.valid dst.id = true →
      dst.kind.isInteger = true →
      Correct (shiftConstReg op c dst) a
        (Applies (.reg dst) (goShift op dst.kind c.val.toNat)) := by
  intro hall
  have hcorrect := hall .shr2 ⟨1, .uint8⟩ ⟨rax, .int64⟩ ⟨[], .init amd64⟩ (.inr rfl) (by decide)
    (by decide) rfl
  rw [shiftConstReg_iff (.inr rfl) (by decide) (by decide) rfl] at hcorrect
  exact hcorrect.1 ⟨rfl, rfl⟩

end OneJit.GoJit.Amd64
