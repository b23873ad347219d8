import OneJit.GoJit.RegIds

/-!
# Operands of the Go assembler

Kinds and constants, registers and memory operands, the machine state that they are read from and
the effect of a write.
-/

namespace OneJit.GoJit

/-- `Kind`, a narrow `reflect.Kind`. -/
inductive Kind
  | invalid | bool
  | int | int8 | int16 | int32 | int64
  | uint | uint8 | uint16 | uint32 | uint64 | uintptr
  | float32 | float64 | ptr
  deriving DecidableEq, Repr

namespace Kind

/-- `Size`, with the sizes of a 64-bit host. -/
def size : Kind → Nat
  | invalid => 0
  | bool | int8 | uint8 => 1
  | int16 | uint16 => 2
  | int32 | uint32 | float32 => 4
  | int | int64 | uint | uint64 | uintptr | float64 | ptr => 8

/-- `Signed`. -/
def signed : Kind → Bool
  | bool | uint | uint8 | uint16 | uint32 | uint64 | uintptr | ptr => false
  | _ => true

/-- `IsFloat`. -/
def isFloat : Kind → Bool
  | float32 | float64 => true
  | _ => false

/-- The integer kinds. -/
def isInteger : Kind → Bool
  | int | int8 | int16 | int32 | int64 | uint | uint8 | uint16 | uint32 | uint64 | uintptr => true
  | _ => false

theorem size_of_isInteger {k : Kind} (h : k.isInteger = true) :
    k.size = 1 ∨ k.size = 2 ∨ k.size = 4 ∨ k.size = 8 := by
  cases k <;> simp [isInteger, size] at h ⊢

/-- A number of this kind, extended to 64 bits from the low ones. -/
def extend (k : Kind) (v : BitVec 64) : BitVec 64 :=
  if k.signed then (v.setWidth (8 * k.size)).signExtend 64
  else (v.setWidth (8 * k.size)).setWidth 64

end Kind

structure Const where
  val : BitVec 64
  kind : Kind
  deriving DecidableEq, Repr

/-- `Reg`: a register, with the kind that defines its width and sign. -/
structure Reg where
  id : RegId
  kind : Kind
  deriving DecidableEq, Repr

/-- `Mem`: an offset from a register. -/
structure Mem where
  off : BitVec 32
  reg : Reg
  deriving DecidableEq, Repr

/-- `Arg`: an argument of an assembly instruction. -/
inductive Arg
  | const (c : Const)
  | reg (r : Reg)
  | mem (m : Mem)
  deriving DecidableEq, Repr

/-- `Arg.RegId`. -/
def Arg.regId : Arg → RegId
  | const _ => noRegId
  | reg r => r.id
  | mem m => m.reg.id

/-- `Arg.Kind`. -/
def Arg.kind : Arg → Kind
  | const c => c.kind
  | reg r => r.kind
  | mem m => m.reg.kind

/-- `Arg.Const`. -/
def Arg.isConst : Arg → Bool
  | const _ => true
  | _ => false

/-- `Const.Cast`. -/
def Const.cast (c : Const) (to' : Kind) : Except String Const :=
  match c.kind with
  | .bool => .ok ⟨if c.val ≠ 0 then 1 else c.val, to'⟩
  | .int8 => .ok ⟨(c.val.setWidth 8).signExtend 64, to'⟩
  | .int16 => .ok ⟨(c.val.setWidth 16).signExtend 64, to'⟩
  | .int32 => .ok ⟨(c.val.setWidth 32).signExtend 64, to'⟩
  | .uint8 => .ok ⟨(c.val.setWidth 8).setWidth 64, to'⟩
  | .uint16 => .ok ⟨(c.val.setWidth 16).setWidth 64, to'⟩
  | .uint32 => .ok ⟨(c.val.setWidth 32).setWidth 64, to'⟩
  | .int | .int64 | .uint | .uint64 | .uintptr => .ok ⟨c.val, to'⟩
  | .float32 | .float64 => .error "float constants not supported yet"
  | .invalid | .ptr => .error "invalid constant kind"

/-- A constant of an integer kind is extended as a number of its kind is. -/
theorem Const.cast_integer {c : Const} (h : c.kind.isInteger = true) (to' : Kind) :
    c.cast to' = .ok ⟨c.kind.extend c.val, to'⟩ := by
  obtain ⟨val, kind⟩ := c
  cases kind <;> simp [Kind.isInteger] at h <;>
    simp [Const.cast, Kind.extend, Kind.signed, Kind.size]

/-! ## The state of the machine -/

structure State where
  regs : RegId → BitVec 64
  mem : BitVec 64 → BitVec 8

namespace State

/-- The address of a memory operand. -/
def addr (σ : State) (m : Mem) : BitVec 64 := σ.regs m.reg.id + m.off.signExtend 64

/-- The number in some bytes, the low byte first. -/
def load (σ : State) (a : BitVec 64) : (n : Nat) → BitVec (8 * n)
  | 0 => 0
  | n + 1 => σ.load (a + 1) n ++ σ.mem a

/-- The low bytes of an operand. -/
def read (σ : State) (n : Nat) : Arg → BitVec (8 * n)
  | .const c => c.val.setWidth (8 * n)
  | .reg r => (σ.regs r.id).setWidth (8 * n)
  | .mem m => σ.load (σ.addr m) n

/-- The number that an operand is, extended to 64 bits as its kind says. -/
def number (σ : State) (a : Arg) : BitVec 64 :=
  if a.kind.signed then (σ.read a.kind.size a).signExtend 64
  else (σ.read a.kind.size a).setWidth 64

/-- The bytes of a number, from an address on. -/
def store (σ : State) (a : BitVec 64) (n : Nat) (v : BitVec (8 * n)) : State :=
  { σ with mem := fun x => if (x - a).toNat < n then v.extractLsb' (8 * (x - a).toNat) 8
                           else σ.mem x }

end State

/-- The step leaves a number in the destination and changes nothing else. What the high bits of a
register are afterwards is not said. -/
def Writes (σ : State) (n : Nat) (v : BitVec (8 * n)) (σ' : State) : Arg → Prop
  | .const _ => False
  | .reg r => (σ'.regs r.id).setWidth (8 * n) = v ∧ (∀ id, id ≠ r.id → σ'.regs id = σ.regs id) ∧
      σ'.mem = σ.mem
  | .mem m => σ'.load (σ.addr m) n = v ∧ σ'.regs = σ.regs ∧
      ∀ x, ¬ (x - σ.addr m).toNat < n → σ'.mem x = σ.mem x

section Writes

variable {σ σ' : State} {n : Nat} {dst : Arg}

/-- The step that does nothing leaves what the destination holds. -/
theorem writes_self (v : BitVec (8 * n)) (hdst : dst.isConst = false) :
    Writes σ n v σ dst ↔ σ.read n dst = v := by
  cases dst <;> simp_all [Writes, State.read, Arg.isConst]

/-- What a step writes is determined. -/
theorem Writes.unique {u v : BitVec (8 * n)} (hu : Writes σ n u σ' dst) :
    Writes σ n v σ' dst ↔ u = v := by
  cases dst with
  | const c => exact absurd hu id
  | reg r =>
    obtain ⟨h, hregs, hmem⟩ := hu
    exact ⟨fun hv => h.symm.trans hv.1, fun heq => ⟨h.trans heq, hregs, hmem⟩⟩
  | mem m =>
    obtain ⟨h, hregs, hmem⟩ := hu
    exact ⟨fun hv => h.symm.trans hv.1, fun heq => ⟨h.trans heq, hregs, hmem⟩⟩

/-- Bytes that agree with those of a number. -/
theorem load_of_bytes {a : BitVec 64} {v : BitVec (8 * n)}
    (h : ∀ i < n, σ.mem (a + BitVec.ofNat 64 i) = v.extractLsb' (8 * i) 8) : σ.load a n = v := by
  induction n generalizing a with
  | zero => exact @Subsingleton.elim (BitVec 0) _ _ _
  | succ n ih =>
    have hhead : σ.mem a = v.extractLsb' 0 8 := by simpa using h 0 (Nat.succ_pos n)
    have htail : σ.load (a + 1) n = v.extractLsb' 8 (8 * n) := by
      apply ih
      intro i hi
      have hbyte := h (i + 1) (Nat.succ_lt_succ hi)
      have haddr : a + BitVec.ofNat 64 (i + 1) = a + 1 + BitVec.ofNat 64 i := by
        rw [BitVec.ofNat_add, BitVec.add_assoc, BitVec.add_comm (BitVec.ofNat 64 i)]
        rfl
      rw [← haddr, hbyte]
      ext j hj
      simp only [BitVec.getElem_extractLsb', BitVec.getLsbD_extractLsb']
      rw [show 8 + (8 * i + j) = 8 * (i + 1) + j by omega]
      simp only [show 8 * i + j < 8 * n by omega, decide_true, Bool.true_and]
    rw [State.load, hhead, htail]
    apply BitVec.eq_of_getLsbD_eq
    intro j hj
    rw [BitVec.getLsbD_append]
    by_cases hlow : j < 8
    · simp [hlow]
    · simp [hlow, show j - 8 < 8 * n by omega, show 8 + (j - 8) = j by omega]

theorem load_store {a : BitVec 64} (v : BitVec (8 * n)) (hn : n ≤ 8) :
    (σ.store a n v).load a n = v := by
  apply load_of_bytes
  intro i hi
  have hoff : (a + BitVec.ofNat 64 i - a).toNat = i := by
    rw [BitVec.add_comm, BitVec.add_sub_cancel, BitVec.toNat_ofNat]
    exact Nat.mod_eq_of_lt (by omega)
  simp only [State.store, hoff, if_pos hi]

/-- Every number of at most eight bytes can be written. -/
theorem exists_writes (v : BitVec (8 * n)) (hn : n ≤ 8) (hdst : dst.isConst = false) :
    ∃ σ', Writes σ n v σ' dst := by
  cases dst with
  | const c => simp [Arg.isConst] at hdst
  | reg r =>
    refine ⟨{ σ with regs := Function.update σ.regs r.id (v.setWidth 64) }, ?_, ?_, rfl⟩
    · simp only [Function.update_self]
      rw [BitVec.setWidth_setWidth_of_le _ (by omega)]
      exact BitVec.setWidth_eq v
    · exact fun id hid => Function.update_of_ne hid _ _
  | mem m =>
    refine ⟨σ.store (σ.addr m) n v, load_store v hn, rfl, fun x hx => ?_⟩
    simp only [State.store, if_neg hx]

end Writes

end OneJit.GoJit
