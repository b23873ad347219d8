import OneJit.GoJit.Arg

/-!
# The soft registers of the Go assembler

A soft register is mapped to a machine register, or to a slot of the save area when there is none
left. `Save.Alloc` and `Save.Free` are only assumed to hand out distinct free slots.
-/

namespace OneJit.GoJit

/-- `SoftReg`: an id of 24 bits and a kind. -/
structure SoftReg where
  id : BitVec 24
  kind : Kind
  deriving DecidableEq, Repr

abbrev SaveSlot := BitVec 16

def invalidSlot : SaveSlot := BitVec.allOnes 16

/-- A save area whose slots are handed out while they are free. -/
structure Save (σ : Type) where
  alloc : σ → SaveSlot × σ
  free : σ → SaveSlot → σ
  used : σ → SaveSlot → Prop
  alloc_spec (s : σ) : alloc s = (invalidSlot, s) ∨
    ((alloc s).1 ≠ invalidSlot ∧ ¬ used s (alloc s).1 ∧
      ∀ slot, used (alloc s).2 slot ↔ used s slot ∨ slot = (alloc s).1)
  free_spec (s : σ) (slot slot' : SaveSlot) (h : used s slot) :
    used (free s slot) slot' ↔ used s slot' ∧ slot' ≠ slot

/-- `regIdOrMem`. -/
structure RegIdOrMem where
  off : BitVec 32
  regId : RegId
  ismem : Bool
  deriving DecidableEq, Repr

/-- What `Asm` keeps of its registers. -/
structure Asm (σ : Type) where
  softRegs : BitVec 24 → Option RegIdOrMem
  save : σ
  saveReg : Reg
  regIds : RegIds

namespace Asm

variable {σ : Type} (c : RegIdConfig) (sv : Save σ)

/-- `SoftRegs.Arg`. -/
def arg (a : Asm σ) (s : SoftReg) : Except String Arg :=
  match a.softRegs s.id with
  | none => .error "unallocated SoftReg"
  | some rm => .ok (if rm.ismem then .mem ⟨rm.off, rm.regId, s.kind⟩ else .reg ⟨rm.regId, s.kind⟩)

/-- `TryRegAlloc`. -/
def tryRegAlloc (fuel : Nat) (a : Asm σ) (kind : Kind) : Option (Reg × Asm σ) :=
  (a.regIds.tryAlloc c fuel).map fun (id, rs) =>
    (if !c.valid id then ⟨noRegId, .invalid⟩ else ⟨id, kind⟩, { a with regIds := rs })

/-- `Alloc`. The location of a spilled register is returned and not recorded. -/
def alloc (fuel : Nat) (a : Asm σ) (s : SoftReg) : Option (Except String (Arg × Asm σ)) :=
  (a.tryRegAlloc c fuel s.kind).map fun (r, a) =>
    if c.valid r.id then
      .ok (.reg r, { a with softRegs := Function.update a.softRegs s.id (some ⟨0, r.id, false⟩) })
    else
      let (idx, save) := sv.alloc a.save
      if idx = invalidSlot then
        .error "no free register, and save area is full. Cannot allocate soft register"
      else .ok (.mem ⟨idx.setWidth 32 * 8, a.saveReg.id, s.kind⟩, { a with save := save })

/-- `Free`. -/
def free (a : Asm σ) (s : SoftReg) : Except String (Asm σ) :=
  match a.softRegs s.id with
  | none => .error "cannot free unallocated soft register"
  | some rm =>
    let a := if rm.ismem then { a with save := sv.free a.save ((rm.off.sdiv 8).setWidth 16) }
      else { a with regIds := a.regIds.free c rm.regId }
    .ok { a with softRegs := Function.update a.softRegs s.id none }

/-- The register or the slot that an operand is. -/
def place : Arg → RegId × Option (BitVec 32)
  | .const _ => (noRegId, none)
  | .reg r => (r.id, none)
  | .mem m => (m.reg.id, some m.off)

/-- A machine register is free. -/
def HasReg (a : Asm σ) : Prop := ∃ id, c.valid id = true ∧ c.Within id ∧ a.regIds.inuse id = 0

/-- The save area is full. -/
def Full (a : Asm σ) : Prop := sv.alloc a.save = (invalidSlot, a.save)

end Asm

/-- A successful call. -/
inductive Call
  | alloc (s : SoftReg)
  | arg (s : SoftReg)
  | free (s : SoftReg)
  deriving DecidableEq

/-- The call frees the soft register. -/
def Call.Frees (s : SoftReg) : Call → Prop
  | free s' => s'.id = s.id
  | _ => False

section Runs

variable {σ : Type}

/-- Runs in which `Alloc` is called for soft registers that are not allocated, while a machine
register is free. -/
inductive Runs (c : RegIdConfig) (sv : Save σ) : Asm σ → List Call → Asm σ → Prop
  | nil (a : Asm σ) : Runs c sv a [] a
  | alloc {a a₁ a₂ : Asm σ} {fuel : Nat} {s : SoftReg} {x : Arg} {cs : List Call}
    (hnew : a.softRegs s.id = none) (hreg : a.HasReg c)
    (hcall : a.alloc c sv fuel s = some (.ok (x, a₁))) (h : Runs c sv a₁ cs a₂) : Runs c sv a (.alloc s :: cs) a₂
  | arg {a a₂ : Asm σ} {s : SoftReg} {x : Arg} {cs : List Call}
    (hcall : a.arg s = .ok x) (h : Runs c sv a cs a₂) : Runs c sv a (.arg s :: cs) a₂
  | free {a a₁ a₂ : Asm σ} {s : SoftReg} {cs : List Call}
    (hcall : a.free c sv s = .ok a₁) (h : Runs c sv a₁ cs a₂) : Runs c sv a (.free s :: cs) a₂

/-- No soft register is allocated yet. -/
def Asm.Initial (c : RegIdConfig) (a : Asm σ) : Prop :=
  (∀ id, a.softRegs id = none) ∧ ∃ es, Allocates c a.regIds es

/-- Soft registers are in distinct machine registers that are in use once. -/
structure Mapped (c : RegIdConfig) (a : Asm σ) : Prop where
  placed : Placed c a.regIds
  held : ∀ id rm, a.softRegs id = some rm →
    rm.ismem = false ∧ c.valid rm.regId = true ∧ c.Within rm.regId ∧ a.regIds.inuse rm.regId = 1
  distinct : ∀ id id' rm rm', a.softRegs id = some rm → a.softRegs id' = some rm' →
    rm.regId = rm'.regId → id = id'

variable {c : RegIdConfig} {sv : Save σ} {a a' : Asm σ}

theorem Asm.Initial.mapped (h : a.Initial c) : Mapped c a := by
  obtain ⟨hnone, es, halloc⟩ := h
  refine ⟨halloc.spec.1, fun id rm hrm => ?_, fun id id' rm rm' hrm => ?_⟩
  · simp [hnone id] at hrm
  · simp [hnone id] at hrm

/-- `Alloc` while a machine register is free. -/
theorem alloc_reg (h : Mapped c a) (hreg : a.HasReg c) {fuel : Nat} {s : SoftReg}
    {res : Except String (Arg × Asm σ)} (hcall : a.alloc c sv fuel s = some res) :
    ∃ id rs, a.regIds.tryAlloc c fuel = some (id, rs) ∧ c.valid id = true ∧ c.Within id ∧
      a.regIds.inuse id = 0 ∧ rs.inuse = Function.update a.regIds.inuse id 1 ∧ Placed c rs ∧
      res = .ok (.reg ⟨id, s.kind⟩, { a with
        regIds := rs
        softRegs := Function.update a.softRegs s.id (some ⟨0, id, false⟩) }) := by
  rw [Asm.alloc, Asm.tryRegAlloc] at hcall
  cases hrun : a.regIds.tryAlloc c fuel with
  | none => simp [hrun] at hcall
  | some found =>
    obtain ⟨id, rs⟩ := found
    rcases tryAlloc_run h.placed hrun with ⟨hv, hin, hzero, hinuse, hplaced⟩ | ⟨_, hall⟩
    · refine ⟨id, rs, rfl, hv, hin, hzero, hinuse, hplaced, ?_⟩
      have hv' : c.valid id = true := hv
      simp only [hrun, Option.map_some, hv', Bool.not_true, Bool.false_eq_true, if_false, if_true,
        Option.some.injEq] at hcall
      exact hcall.symm
    · obtain ⟨id', hv, hin, hzero⟩ := hreg
      exact absurd hzero (hall id' hv hin)

theorem alloc_mapped (h : Mapped c a) (hreg : a.HasReg c) {fuel : Nat} {s : SoftReg} {x : Arg}
    (hcall : a.alloc c sv fuel s = some (.ok (x, a'))) : Mapped c a' := by
  obtain ⟨id, rs, _, hv, hin, hzero, hinuse, hplaced, hres⟩ := alloc_reg h hreg hcall
  obtain ⟨rfl, rfl⟩ := Prod.mk.inj (Except.ok.inj hres)
  -- a register that is mapped already is in use, so it is not the new one
  have hne : ∀ i rm, a.softRegs i = some rm → rm.regId ≠ id := by
    rintro i rm hrm rfl
    rw [(h.held i rm hrm).2.2.2] at hzero
    exact absurd hzero (by decide)
  refine ⟨hplaced, fun i rm hrm => ?_, fun i j rm rm' hrm hrm' heq => ?_⟩
  · dsimp only at hrm ⊢
    by_cases hi : i = s.id
    · subst hi
      rw [Function.update_self, Option.some.injEq] at hrm
      subst hrm
      exact ⟨rfl, hv, hin, by rw [hinuse, Function.update_self]⟩
    · rw [Function.update_of_ne hi] at hrm
      obtain ⟨hmem, hvalid, hwithin, hone⟩ := h.held i rm hrm
      exact ⟨hmem, hvalid, hwithin, by rw [hinuse, Function.update_of_ne (hne i rm hrm), hone]⟩
  · dsimp only at hrm hrm'
    by_cases hi : i = s.id
    · subst hi
      by_cases hj : j = s.id
      · exact hj.symm
      · rw [Function.update_self, Option.some.injEq] at hrm
        rw [Function.update_of_ne hj] at hrm'
        subst hrm
        exact absurd heq.symm (hne j rm' hrm')
    · rw [Function.update_of_ne hi] at hrm
      by_cases hj : j = s.id
      · subst hj
        rw [Function.update_self, Option.some.injEq] at hrm'
        subst hrm'
        exact absurd heq (hne i rm hrm)
      · rw [Function.update_of_ne hj] at hrm'
        exact h.distinct i j rm rm' hrm hrm' heq

/-- `Free` of a soft register that is mapped. -/
theorem free_reg (h : Mapped c a) {s : SoftReg} {rm : RegIdOrMem}
    (hrm : a.softRegs s.id = some rm) :
    a.free c sv s = .ok { a with
      regIds := a.regIds.free c rm.regId
      softRegs := Function.update a.softRegs s.id none } ∧
      (a.regIds.free c rm.regId).inuse = Function.update a.regIds.inuse rm.regId 0 := by
  obtain ⟨hmem, hvalid, _, hone⟩ := h.held _ rm hrm
  constructor
  · simp only [Asm.free, hrm, hmem, Bool.false_eq_true, if_false]
  · have hdec : (a.regIds.decUse c rm.regId).2.inuse = Function.update a.regIds.inuse rm.regId 0 := by
      simp only [RegIds.decUse, hvalid, Bool.not_true, Bool.false_eq_true, if_false, hone]
      rfl
    exact (free_eq rm.regId).1.trans hdec

theorem free_mapped (h : Mapped c a) {s : SoftReg} (hcall : a.free c sv s = .ok a') :
    Mapped c a' := by
  cases hrm : a.softRegs s.id with
  | none => simp [Asm.free, hrm] at hcall
  | some rm =>
    obtain ⟨hrun, hinuse⟩ := @free_reg σ c sv a h s rm hrm
    obtain rfl := Except.ok.inj (hrun.symm.trans hcall)
    -- the registers of the others stay in use
    have hothers : ∀ i rm', Function.update a.softRegs s.id none i = some rm' →
        i ≠ s.id ∧ a.softRegs i = some rm' := by
      intro i rm' hi
      by_cases heq : i = s.id
      · rw [heq, Function.update_self] at hi
        cases hi
      · rw [Function.update_of_ne heq] at hi
        exact ⟨heq, hi⟩
    refine ⟨free_placed h.placed (h.held _ rm hrm).2.2.1, fun i rm' hi => ?_,
      fun i j rm' rm'' hi hj => ?_⟩
    · obtain ⟨hne, hrm'⟩ := hothers i rm' hi
      obtain ⟨hmem, hvalid, hwithin, hone⟩ := h.held i rm' hrm'
      refine ⟨hmem, hvalid, hwithin, ?_⟩
      have hreg : rm'.regId ≠ rm.regId := fun heq => hne (h.distinct i s.id rm' rm hrm' hrm heq)
      dsimp only
      rw [hinuse, Function.update_of_ne hreg, hone]
    · exact h.distinct i j rm' rm'' (hothers i rm' hi).2 (hothers j rm'' hj).2

theorem Runs.mapped {cs : List Call} (h : Runs c sv a cs a') (ha : Mapped c a) :
    Mapped c a' := by
  induction h with
  | nil => exact ha
  | alloc _ hreg hcall _ ih => exact ih (alloc_mapped ha hreg hcall)
  | arg _ _ ih => exact ih ha
  | free hcall _ ih => exact ih (free_mapped ha hcall)

/-- A soft register stays where it is until it is freed. -/
theorem Runs.softRegs {cs : List Call} (h : Runs c sv a cs a') (ha : Mapped c a) {s : SoftReg}
    {rm : RegIdOrMem} (hs : a.softRegs s.id = some rm) (hcs : ∀ x ∈ cs, ¬ x.Frees s) :
    a'.softRegs s.id = some rm := by
  induction h with
  | nil => exact hs
  | @alloc a a₁ a₂ fuel s' x cs hnew hreg hcall _ ih =>
    have hne : s.id ≠ s'.id := by
      intro heq
      rw [heq, hnew] at hs
      cases hs
    obtain ⟨id, rs, _, _, _, _, _, _, hres⟩ := alloc_reg ha hreg hcall
    refine ih (alloc_mapped ha hreg hcall) ?_ fun y hy => hcs y (List.mem_cons_of_mem _ hy)
    obtain ⟨_, rfl⟩ := Prod.mk.inj (Except.ok.inj hres)
    exact (Function.update_of_ne hne _ _).trans hs
  | arg _ _ ih => exact ih ha hs fun y hy => hcs y (List.mem_cons_of_mem _ hy)
  | @free a a₁ a₂ s' cs hcall _ ih =>
    have hne : s.id ≠ s'.id := fun heq => hcs _ (List.mem_cons_self ..) heq.symm
    refine ih (free_mapped ha hcall) ?_ fun y hy => hcs y (List.mem_cons_of_mem _ hy)
    cases hrm : a.softRegs s'.id with
    | none => simp [Asm.free, hrm] at hcall
    | some rm' =>
      obtain rfl := Except.ok.inj ((free_reg ha hrm).1.symm.trans hcall)
      exact (Function.update_of_ne hne _ _).trans hs

/-- What is read of a soft register that is mapped. -/
theorem arg_mapped (h : Mapped c a) {s : SoftReg} {x : Arg} (hx : a.arg s = .ok x) :
    ∃ rm, a.softRegs s.id = some rm ∧ x = .reg ⟨rm.regId, s.kind⟩ := by
  cases hrm : a.softRegs s.id with
  | none => simp [Asm.arg, hrm] at hx
  | some rm =>
    refine ⟨rm, rfl, ?_⟩
    simp only [Asm.arg, hrm, (h.held _ rm hrm).1, Bool.false_eq_true, if_false,
      Except.ok.injEq] at hx
    exact hx.symm

/-- What `Alloc` gives: an error if the save area is full, or else a place that no other soft
register has and that is read afterwards. -/
def Allots (c : RegIdConfig) (sv : Save σ) (fuel : Nat) (a : Asm σ) (s : SoftReg) : Prop :=
  a.alloc c sv fuel s =
      some (.error "no free register, and save area is full. Cannot allocate soft register") ∨
    ∃ x a', a.alloc c sv fuel s = some (.ok (x, a')) ∧
      (∀ s' y, s'.id ≠ s.id → a.arg s' = .ok y → Asm.place y ≠ Asm.place x) ∧
      ∀ s', s'.id = s.id → ∃ y, a'.arg s' = .ok y ∧ Asm.place y = Asm.place x

theorem alloc_allots (h : Mapped c a) (hcond : a.HasReg c ∨ a.Full sv) (s : SoftReg) :
    ∃ m, ∀ fuel, m ≤ fuel → Allots c sv fuel a s := by
  obtain ⟨⟨id, rs⟩, m, hrun, hfinds⟩ := tryAlloc_finds h.placed
  refine ⟨m, fun fuel hfuel => ?_⟩
  have hrun' := hrun fuel hfuel
  by_cases hreg : a.HasReg c
  · cases hcall : a.alloc c sv fuel s with
    | none =>
      rw [Asm.alloc, Asm.tryRegAlloc, hrun'] at hcall
      cases hcall
    | some res =>
      obtain ⟨id', rs', _, _, _, hzero, _, _, rfl⟩ := alloc_reg h hreg hcall
      refine .inr ⟨_, _, hcall, fun s' y hne hy hplace => ?_, fun s' hs' => ?_⟩
      · obtain ⟨rm, hrm, rfl⟩ := arg_mapped h hy
        have hid : rm.regId = id' := congrArg Prod.fst hplace
        have hone := (h.held _ rm hrm).2.2.2
        rw [hid, hzero] at hone
        exact absurd hone (by decide)
      · refine ⟨.reg ⟨id', s'.kind⟩, ?_, rfl⟩
        simp [Asm.arg, hs']
  · left
    have hfull := hcond.resolve_left hreg
    rcases hfinds with ⟨hv, hin, hzero, _⟩ | ⟨heq, _⟩
    · exact absurd ⟨id, hv, hin, hzero⟩ hreg
    · have hid : c.valid id = false := (Prod.mk.inj heq).1 ▸ c.invalid_noRegId
      simp only [Asm.alloc, Asm.tryRegAlloc, hrun', Option.map_some, hid, Bool.not_false, if_true,
        c.invalid_noRegId, Bool.false_eq_true, if_false]
      have hidx : (sv.alloc a.save).1 = invalidSlot := congrArg Prod.fst hfull
      exact congrArg some (if_pos hidx)

end Runs

/-- In every run in which each `Alloc` is of a soft register that is not allocated and meets a free
machine register: `Alloc` gives a place that no other soft register has, if there is a free machine
register or the save area is full; a soft register is read from its place until it is freed; and
`Free` makes the place free and changes no other one. -/
theorem softRegs_faithful {σ : Type} {c : RegIdConfig} {sv : Save σ} {a₀ a : Asm σ}
    {cs : List Call} (h₀ : a₀.Initial c) (h : Runs c sv a₀ cs a) :
    (∀ s, a.HasReg c ∨ a.Full sv → ∃ m, ∀ fuel, m ≤ fuel → Allots c sv fuel a s) ∧
      (∀ s x cs' a', a.arg s = .ok x → Runs c sv a cs' a' → (∀ y ∈ cs', ¬ y.Frees s) →
        a'.arg s = .ok x) ∧
      ∀ s x, a.arg s = .ok x → ∃ a', a.free c sv s = .ok a' ∧
        a.regIds.inuse x.regId = 1 ∧
        a'.regIds.inuse = Function.update a.regIds.inuse x.regId 0 ∧ a'.save = a.save ∧
        a'.softRegs = Function.update a.softRegs s.id none := by
  have hmapped := h.mapped h₀.mapped
  refine ⟨fun s hcond => alloc_allots hmapped hcond s, fun s x cs' a' hx hrun hcs => ?_,
    fun s x hx => ?_⟩
  · obtain ⟨rm, hrm, _⟩ := arg_mapped hmapped hx
    rw [← hx, Asm.arg, Asm.arg, hrm, hrun.softRegs hmapped hrm hcs]
  · obtain ⟨rm, hrm, rfl⟩ := arg_mapped hmapped hx
    obtain ⟨hfree, hinuse⟩ := @free_reg σ c sv a hmapped s rm hrm
    exact ⟨_, hfree, (hmapped.held _ rm hrm).2.2.2, hinuse, rfl, rfl⟩

/-! ## One register and one slot -/

theorem one_le_one : (1 : RegId) ≤ 1 := by decide

/-- A single register. -/
def oneReg : RegIdConfig where
  rlo := 1
  rhi := 1
  rsp := 2
  rAllocFirst := 1
  valid id := id = 1
  lo_le_first := one_le_one
  first_le_hi := one_le_one
  invalid_noRegId := by decide

/-- A save area of one slot. -/
def oneSlot : Save Bool where
  alloc used := if used then (invalidSlot, used) else (0, true)
  free used slot := if slot = 0 then false else used
  used used slot := used = true ∧ slot = 0
  alloc_spec used := by
    cases used
    · exact .inr ⟨by decide, by simp, by simp⟩
    · exact .inl rfl
  free_spec used slot slot' h := by
    obtain ⟨rfl, rfl⟩ := h
    simp

/-- The assembler before the first soft register is allocated. -/
def start : Asm Bool := ⟨fun _ => none, false, ⟨2, .uint64⟩, RegIds.init oneReg⟩

theorem start_initial : start.Initial oneReg := ⟨fun _ => rfl, [], .init⟩

/-- The soft register number `n`. -/
def softReg (n : BitVec 24) : SoftReg := ⟨n, .int⟩

/-- The assembler after the first one. -/
def started : Asm Bool :=
  { start with
    regIds := { start.regIds.setUse 1 1 with curr := 1 }
    softRegs := Function.update start.softRegs 0 (some ⟨0, 1, false⟩) }

theorem runs_started : Runs oneReg oneSlot start [.alloc (softReg 0)] started := by
  have hreg : start.HasReg oneReg := ⟨1, by decide, ⟨by decide, by decide⟩, rfl⟩
  have hcall : start.alloc oneReg oneSlot 1 (softReg 0) = some (.ok (.reg ⟨1, .int⟩, started)) := rfl
  exact .alloc rfl hreg hcall (.nil _)

theorem softRegs_faithful_started : ∃ a', started.free oneReg oneSlot (softReg 0) = .ok a' ∧
    a'.regIds.inuse 1 = 0 := by
  obtain ⟨a', hfree, _, hinuse, _⟩ :=
    (softRegs_faithful start_initial runs_started).2.2 (softReg 0) (.reg ⟨1, .int⟩) rfl
  exact ⟨a', hfree, by rw [hinuse]; rfl⟩

/-- The second soft register is spilled, and not found afterwards. -/
theorem spilled_forgotten : ¬ ∀ (c : RegIdConfig) (sv : Save Bool) (a₀ a a' : Asm Bool)
    (cs : List Call) (fuel : Nat) (s : SoftReg) (x : Arg), a₀.Initial c → Runs c sv a₀ cs a →
      a.alloc c sv fuel s = some (.ok (x, a')) →
        ∃ y, a'.arg s = .ok y ∧ Asm.place y = Asm.place x := by
  intro hall
  obtain ⟨y, hy, _⟩ := hall oneReg oneSlot start started { started with save := true } _ 1
    (softReg 1) (.mem ⟨0, ⟨2, .int⟩⟩) start_initial runs_started rfl
  cases hy

end OneJit.GoJit
