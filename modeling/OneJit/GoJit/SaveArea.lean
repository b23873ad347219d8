import OneJit.GoJit.SoftRegs

/-!
# The save area of the Go assembler

Slots for registers that are pushed: a bitmap tells which are taken, and `Alloc` searches from a
cursor on. `InitArch2` sets up a copy of the save area and drops it, so that an assembler has none.
-/

namespace OneJit.GoJit

/-- `Save`: `stop` is the field `end`. -/
structure SaveArea where
  reg : Reg
  start : SaveSlot
  next : SaveSlot
  stop : SaveSlot
  bitmap : List Bool
  deriving DecidableEq

namespace SaveArea

/-- The zero value. -/
def zero : SaveArea := ⟨⟨noRegId, .invalid⟩, 0, 0, 0, []⟩

/-- `bitmap[idx - start]`. -/
def bit (s : SaveArea) (idx : SaveSlot) : Except String Bool :=
  match s.bitmap[(idx - s.start).toNat]? with
  | none => .error "index out of range"
  | some b => .ok b

/-- The loop of `Alloc`, as long as the distance to the end. -/
def allocLoop (s : SaveArea) : Nat → Except String (SaveSlot × SaveArea)
  | 0 => .ok (invalidSlot, s)
  | n + 1 =>
    match s.bit s.next with
    | .error msg => .error msg
    | .ok taken =>
      if taken then allocLoop { s with next := s.next + 1 } n
      else .ok (s.next, { s with next := s.next + 1 })

/-- `Alloc`. -/
def alloc (s : SaveArea) : Except String (SaveSlot × SaveArea) :=
  s.allocLoop (s.stop.toNat - s.next.toNat)

/-- `Valid`. -/
def valid (s : SaveArea) (idx : SaveSlot) : Except String Bool :=
  if s.start ≤ idx ∧ idx < s.stop then s.bit idx else .ok false

/-- `Validate`. -/
def validate (s : SaveArea) (idx : SaveSlot) : Except String Unit := do
  if ← s.valid idx then .ok () else .error "invalid save area index"

/-- The loop of `Free`, which pulls the cursor back. -/
def freeLoop (s : SaveArea) : Nat → Except String SaveArea
  | 0 => .ok s
  | n + 1 =>
    match s.bit (s.next - 1) with
    | .error msg => .error msg
    | .ok taken => if taken then .ok s else freeLoop { s with next := s.next - 1 } n

/-- `Free`. -/
def free (s : SaveArea) (idx : SaveSlot) : Except String SaveArea := do
  s.validate idx
  let s := { s with bitmap := s.bitmap.set (idx - s.start).toNat false }
  s.freeLoop (s.next.toNat - s.start.toNat)

/-- The slot is in the area and taken. -/
def Marked (s : SaveArea) (idx : SaveSlot) : Prop := s.valid idx = .ok true

end SaveArea

/-- What the assembler keeps of registers and slots. -/
structure SaveAsm where
  save : SaveArea
  regIds : RegIds

namespace SaveAsm

variable (c : RegIdConfig)

/-- The zero value. -/
def zero : SaveAsm := ⟨.zero, ⟨fun _ => 0, 0, 0, 0, 0⟩⟩

/-- `InitArch2`: `s` is a copy of the save area. `used` are the registers that the `Init` of the
architecture marks. -/
def initArch2 (used : List RegId) (a : SaveAsm) (saveStart saveEnd : SaveSlot) : SaveAsm :=
  let s := a.save
  let s := { s with start := saveStart, next := saveStart, stop := saveEnd }
  let s := { s with reg := ⟨c.rsp, .uint64⟩ }
  let _s := { s with bitmap := List.replicate (saveEnd - saveStart).toNat false }
  { a with regIds := used.foldl (fun rs id => (rs.incUse c id).2) (RegIds.init c) }

/-- `RegIsUsed`. -/
def regIsUsed (a : SaveAsm) (id : RegId) : Bool := c.valid id && a.regIds.inuse id != 0

/-- `Push`, with what it stores in `index`. The code of `archSave` is left out. -/
def push (a : SaveAsm) (r : Reg) : Except String (SaveSlot × SaveAsm) := do
  if !c.valid r.id then .error "invalid register"
  else if !a.regIsUsed c r.id then
    .ok (invalidSlot, { a with regIds := (a.regIds.incUse c r.id).2 })
  else
    let (idx, save) ← a.save.alloc
    if idx = invalidSlot then .error "save area is full, cannot push register"
    else .ok (idx, { a with save := save })

/-- `Pop`. The code of `archRestore` is left out. -/
def pop (a : SaveAsm) (r : Reg) (idx : SaveSlot) : Except String SaveAsm := do
  if !c.valid r.id then .error "invalid register"
  else if idx = invalidSlot then .ok { a with regIds := (a.regIds.decUse c r.id).2 }
  else
    a.save.validate idx
    let save ← a.save.free idx
    .ok { a with save := save }

end SaveAsm

/-! ## Runs -/

/-- States that successful calls lead to, with the slots that are allocated. -/
inductive Saves (c : RegIdConfig) (a₀ : SaveAsm) : SaveAsm → List SaveSlot → Prop
  | init : Saves c a₀ a₀ []
  | alloc {a : SaveAsm} {al : List SaveSlot} {idx : SaveSlot} {s : SaveArea} (h : Saves c a₀ a al)
    (hcall : a.save.alloc = .ok (idx, s)) :
    Saves c a₀ { a with save := s } (if idx = invalidSlot then al else idx :: al)
  | free {a : SaveAsm} {al : List SaveSlot} {idx : SaveSlot} {s : SaveArea} (h : Saves c a₀ a al)
    (hcall : a.save.free idx = .ok s) : Saves c a₀ { a with save := s } (al.erase idx)
  | push {a a' : SaveAsm} {al : List SaveSlot} {r : Reg} {idx : SaveSlot} (h : Saves c a₀ a al)
    (hcall : a.push c r = .ok (idx, a')) :
    Saves c a₀ a' (if idx = invalidSlot then al else idx :: al)
  | pop {a a' : SaveAsm} {al : List SaveSlot} {r : Reg} {idx : SaveSlot} (h : Saves c a₀ a al)
    (hcall : a.pop c r idx = .ok a') :
    Saves c a₀ a' (if idx = invalidSlot then al else al.erase idx)

/-- Properly nested pairs of `Push` and `Pop`. -/
inductive Nested (c : RegIdConfig) : SaveAsm → SaveAsm → Prop
  | nil (a : SaveAsm) : Nested c a a
  | pair {a a₁ a₂ a₃ a₄ : SaveAsm} {r : Reg} {idx : SaveSlot} (hpush : a.push c r = .ok (idx, a₁))
    (hin : Nested c a₁ a₂) (hpop : a₂.pop c r idx = .ok a₃) (hout : Nested c a₃ a₄) : Nested c a a₄

/-- What an allocator of the slots from `start` up to `stop` does in every state that is reached. -/
structure SlotAllocator (c : RegIdConfig) (a₀ : SaveAsm) (start stop : SaveSlot) : Prop where
  alloc : ∀ a al, Saves c a₀ a al → ∃ idx s, a.save.alloc = .ok (idx, s) ∧
    (idx ≠ invalidSlot → start ≤ idx ∧ idx < stop ∧ idx ∉ al ∧ s.Marked idx ∧
      ∀ slot, slot ≠ idx → (s.Marked slot ↔ a.save.Marked slot)) ∧
    (idx = invalidSlot ↔ ∀ slot, start ≤ slot → slot < stop → slot ∈ al)
  free : ∀ a al idx, Saves c a₀ a al → idx ∈ al → ∃ s, a.save.free idx = .ok s ∧ ¬ s.Marked idx ∧
    ∀ slot, slot ≠ idx → (s.Marked slot ↔ a.save.Marked slot)
  nested : ∀ a a' al, Saves c a₀ a al → Nested c a a' →
    a'.regIds.inuse = a.regIds.inuse ∧ ∀ slot, a'.save.Marked slot ↔ a.save.Marked slot

/-! ## An assembler has no slots -/

section Zero

variable {c : RegIdConfig} {a a' : SaveAsm}

theorem initArch2_save (used : List RegId) (a : SaveAsm) (start stop : SaveSlot) :
    (a.initArch2 c used start stop).save = a.save :=
  rfl

theorem alloc_zero : SaveArea.zero.alloc = .ok (invalidSlot, SaveArea.zero) := rfl

theorem valid_zero (idx : SaveSlot) : SaveArea.zero.valid idx = .ok false := by
  have hnot : ¬(SaveArea.zero.start ≤ idx ∧ idx < SaveArea.zero.stop) := by
    simp only [SaveArea.zero]
    bv_omega
  rw [SaveArea.valid, if_neg hnot]

theorem free_zero (idx : SaveSlot) :
    SaveArea.zero.free idx = .error "invalid save area index" := by
  rw [SaveArea.free, SaveArea.validate, valid_zero]
  rfl

/-- A register can only be pushed while it is not in use. -/
theorem push_zero (ha : a.save = .zero) {r : Reg} {idx : SaveSlot}
    (hcall : a.push c r = .ok (idx, a')) :
    c.valid r.id = true ∧ a.regIds.inuse r.id = 0 ∧ idx = invalidSlot ∧
      a' = { a with regIds := (a.regIds.incUse c r.id).2 } := by
  rw [SaveAsm.push] at hcall
  by_cases hv : c.valid r.id = true
  · by_cases hused : a.regIsUsed c r.id = true
    · rw [ha, alloc_zero] at hcall
      simp [hv, hused, Bind.bind, Except.bind] at hcall
    · have hzero : a.regIds.inuse r.id = 0 := by
        simpa [SaveAsm.regIsUsed, hv] using hused
      simp only [hv, hused, Bool.not_true, Bool.false_eq_true, if_false, Bool.not_false, if_true,
        Except.ok.injEq, Prod.mk.injEq] at hcall
      exact ⟨hv, hzero, hcall.1.symm, hcall.2.symm⟩
  · simp [hv] at hcall

theorem pop_zero (ha : a.save = .zero) {r : Reg} {idx : SaveSlot}
    (hcall : a.pop c r idx = .ok a') :
    idx = invalidSlot ∧ a' = { a with regIds := (a.regIds.decUse c r.id).2 } := by
  rw [SaveAsm.pop] at hcall
  by_cases hv : c.valid r.id = true
  · by_cases hidx : idx = invalidSlot
    · simp only [hv, hidx, Bool.not_true, Bool.false_eq_true, if_false, if_true,
        Except.ok.injEq] at hcall
      exact ⟨hidx, hcall.symm⟩
    · rw [ha, SaveArea.validate, valid_zero] at hcall
      simp [hv, hidx, Bind.bind, Except.bind] at hcall
  · simp [hv] at hcall

/-- No call changes the empty save area, and none allocates a slot. -/
theorem Saves.zero {a₀ : SaveAsm} {al : List SaveSlot} (h : Saves c a₀ a al)
    (h₀ : a₀.save = .zero) : a.save = .zero ∧ al = [] := by
  induction h with
  | init => exact ⟨h₀, rfl⟩
  | alloc _ hcall ih =>
    rw [ih.1, alloc_zero] at hcall
    cases hcall
    exact ⟨rfl, by rw [if_pos rfl, ih.2]⟩
  | free _ hcall ih =>
    rw [ih.1, free_zero] at hcall
    cases hcall
  | push _ hcall ih =>
    obtain ⟨_, _, rfl, rfl⟩ := push_zero ih.1 hcall
    exact ⟨ih.1, by rw [if_pos rfl, ih.2]⟩
  | pop _ hcall ih =>
    obtain ⟨rfl, rfl⟩ := pop_zero ih.1 hcall
    exact ⟨ih.1, by rw [if_pos rfl, ih.2]⟩

/-- Nested pairs restore the use counts. -/
theorem Nested.zero (h : Nested c a a') (ha : a.save = .zero) :
    a'.save = .zero ∧ a'.regIds.inuse = a.regIds.inuse := by
  induction h with
  | nil a => exact ⟨ha, rfl⟩
  | @pair a a₁ a₂ a₃ a₄ r idx hpush _ hpop _ ihin ihout =>
    obtain ⟨hv, hunused, rfl, rfl⟩ := push_zero ha hpush
    obtain ⟨hsave, hinuse⟩ := ihin ha
    obtain ⟨_, rfl⟩ := pop_zero hsave hpop
    obtain ⟨hsave', hinuse'⟩ := ihout hsave
    refine ⟨hsave', hinuse'.trans ?_⟩
    -- the count goes from zero to one, and back
    have hup : (a.regIds.incUse c r.id).2.inuse = Function.update a.regIds.inuse r.id 1 := by
      simp [RegIds.incUse, hv, hunused, RegIds.setUse]
    have hone : a₂.regIds.inuse r.id = 1 := by
      rw [hinuse]
      change (a.regIds.incUse c r.id).2.inuse r.id = 1
      rw [hup, Function.update_self]
    have hdown : (a₂.regIds.decUse c r.id).2.inuse = Function.update a₂.regIds.inuse r.id 0 := by
      simp [RegIds.decUse, hv, hone, RegIds.setUse]
    change (a₂.regIds.decUse c r.id).2.inuse = a.regIds.inuse
    rw [hdown, hinuse]
    change Function.update (a.regIds.incUse c r.id).2.inuse r.id 0 = _
    rw [hup, Function.update_idem, ← hunused, Function.update_eq_self]

end Zero

/-- An assembler allocates the slots of its range soundly if and only if the range is empty. -/
theorem slotAllocator_iff (c : RegIdConfig) (used : List RegId) {start stop : SaveSlot}
    (hle : start ≤ stop) :
    SlotAllocator c (SaveAsm.zero.initArch2 c used start stop) start stop ↔ start = stop := by
  have hsave : (SaveAsm.zero.initArch2 c used start stop).save = .zero := initArch2_save _ _ _ _
  constructor
  · intro h
    by_contra hne
    obtain ⟨idx, s, hcall, _, hiff⟩ := h.alloc _ [] .init
    rw [hsave, alloc_zero] at hcall
    cases hcall
    have hmem := hiff.mp rfl start (BitVec.le_refl _) (by bv_omega)
    simp at hmem
  · rintro rfl
    refine ⟨fun a al h => ?_, fun a al idx h hidx => ?_, fun a a' al h hn => ?_⟩
    · obtain ⟨ha, rfl⟩ := h.zero hsave
      refine ⟨invalidSlot, .zero, by rw [ha, alloc_zero], fun hno => absurd rfl hno, ?_⟩
      simp only [true_iff]
      intro slot hlo hhi
      bv_omega
    · obtain ⟨_, rfl⟩ := h.zero hsave
      simp at hidx
    · obtain ⟨ha, _⟩ := h.zero hsave
      obtain ⟨ha', hinuse⟩ := hn.zero ha
      exact ⟨hinuse, fun slot => by rw [ha, ha']⟩

theorem slotAllocator_iff_empty :
    SlotAllocator amd64 (SaveAsm.zero.initArch2 amd64 [0x105, 0x106] 0 0) 0 0 ↔
      (0 : SaveSlot) = 0 :=
  slotAllocator_iff amd64 [0x105, 0x106] (by decide)

/-- With a range of two slots no slot is ever allocated. -/
theorem not_slotAllocator :
    ¬ SlotAllocator amd64 (SaveAsm.zero.initArch2 amd64 [0x105, 0x106] 0 2) 0 2 := by
  intro h
  obtain ⟨idx, s, hcall, _, hiff⟩ := h.alloc _ [] .init
  rw [initArch2_save] at hcall
  cases hcall
  have hmem := hiff.mp rfl 0 (by decide) (by decide)
  simp at hmem

end OneJit.GoJit
