import OneJit.GoJit.Amd64Encode

/-!
# The effect of emitted instructions

The state of the processor seen as that of the assembler's operands, and what one instruction on
operands leaves there.
-/

namespace OneJit.GoJit.Amd64

open X86 (Cpu Loc Source Operation Instruction Encodes Leads IsSize)

/-! ## Operands of the processor -/

/-- The state of the processor, with the registers under their ids. -/
def view (c : Cpu) : State := ⟨fun id => if amd64.valid id then c.regs (num id) else 0, c.mem⟩

/-- Where an operand is. -/
def loc : Arg → Loc
  | .const _ => .gpr 0
  | .reg r => .gpr (num r.id)
  | .mem m => .mem (address m)

/-- The registers of the operand exist. -/
def ValidArg : Arg → Prop
  | .const _ => True
  | .reg r => amd64.valid r.id = true
  | .mem m => amd64.valid m.reg.id = true

@[simp] theorem view_mem (c : Cpu) : (view c).mem = c.mem := rfl

theorem view_regs (c : Cpu) {id : RegId} (h : amd64.valid id = true) :
    (view c).regs id = c.regs (num id) := if_pos h

section Operands

variable {c c' : Cpu}

theorem view_load (c : Cpu) (a : BitVec 64) (n : Nat) : (view c).load a n = c.load a n := by
  induction n generalizing a with
  | zero => rfl
  | succ n ih => rw [State.load, Cpu.load, ih]; rfl

theorem address_eq {m : Mem} (h : amd64.valid m.reg.id = true) :
    c.address (address m) = some ((view c).addr m) := by
  simp [Cpu.address, address, State.addr, view_regs c h]

/-- What an operand holds. -/
theorem read_loc {a : Arg} (ha : ValidArg a) (hconst : a.isConst = false) (n : Nat) :
    c.read n (loc a) = some ((view c).read n a) := by
  cases a with
  | const c => simp [Arg.isConst] at hconst
  | reg r => rw [loc, Cpu.read, State.read, view_regs c ha]
  | mem m => rw [loc, Cpu.read, address_eq ha, Option.map_some, State.read, view_load]

/-- A register with another value. -/
theorem writes_update {r : Reg} (h : amd64.valid r.id = true) {n : Nat} {v : BitVec (8 * n)}
    {x : BitVec 64} (hx : x.setWidth (8 * n) = v) :
    Writes (view c) n v (view { c with regs := Function.update c.regs (num r.id) x }) (.reg r) := by
  refine ⟨?_, ?_, rfl⟩
  · rw [view_regs _ h]
    simp only [Function.update_self]
    exact hx
  · intro id hid
    by_cases hv : amd64.valid id = true
    · have hne : num id ≠ num r.id := fun heq => hid (num_inj hv h heq)
      rw [view_regs _ hv, view_regs _ hv]
      exact Function.update_of_ne hne _ _
    · simp [view, hv]

/-- A write to an operand changes nothing else. -/
theorem write_loc {a : Arg} (ha : ValidArg a) (hconst : a.isConst = false) {n : Nat} (hn : n ≤ 8)
    (v : BitVec (8 * n)) :
    ∃ c', c.write n v (loc a) = some c' ∧ Writes (view c) n v (view c') a := by
  cases a with
  | const c => simp [Arg.isConst] at hconst
  | reg r => exact ⟨_, rfl, writes_update ha (X86.setWidth_merge hn _ v)⟩
  | mem m =>
    refine ⟨c.store ((view c).addr m) n v, ?_, ?_, rfl, ?_⟩
    · rw [loc, Cpu.write, address_eq ha]
      rfl
    · have hload := @load_store (view c) n ((view c).addr m) v hn
      exact hload
    · intro x hx
      change (if (x - (view c).addr m).toNat < n then _ else c.mem x) = c.mem x
      exact if_neg hx

end Operands

/-! ## One instruction -/

section Exec

variable {c : Cpu} {n : Nat} {o : Operation} {dst : Arg}

/-- An instruction with a source that holds this number. -/
theorem exec_source (hd : ValidArg dst) (hdc : dst.isConst = false) (hn : n ≤ 8) {src : Source}
    {x v : BitVec (8 * n)} (hsrc : c.source n src = some x)
    (hv : o.value ((view c).read n dst) x = some v) :
    ∃ c', (⟨n, o, loc dst, src⟩ : Instruction).exec c = some c' ∧
      Writes (view c) n v (view c') dst := by
  obtain ⟨c', hwrite, hwrites⟩ := @write_loc c dst hd hdc n hn v
  refine ⟨c', ?_, hwrites⟩
  rw [Instruction.exec]
  simp only [read_loc hd hdc, hsrc, hv, hwrite, Option.bind_some]

/-- An instruction on two operands. -/
theorem exec_loc (hd : ValidArg dst) (hdc : dst.isConst = false) (hn : n ≤ 8) {src : Arg}
    (hs : ValidArg src) (hsc : src.isConst = false) {v : BitVec (8 * n)}
    (hv : o.value ((view c).read n dst) ((view c).read n src) = some v) :
    ∃ c', (⟨n, o, loc dst, .loc (loc src)⟩ : Instruction).exec c = some c' ∧
      Writes (view c) n v (view c') dst :=
  exec_source hd hdc hn (read_loc hs hsc n) hv

/-- An instruction with a constant. -/
theorem exec_imm (hd : ValidArg dst) (hdc : dst.isConst = false) (hn : n ≤ 8) {x : BitVec 64}
    {v : BitVec (8 * n)} (hv : o.value ((view c).read n dst) (x.setWidth (8 * n)) = some v) :
    ∃ c', (⟨n, o, loc dst, .imm x⟩ : Instruction).exec c = some c' ∧
      Writes (view c) n v (view c') dst :=
  exec_source hd hdc hn rfl hv

end Exec

/-! ## Emitted code -/

/-- The registers that the user sees: those in use. -/
def Visible (rs : RegIds) (id : RegId) : Prop := amd64.valid id = true ∧ rs.inuse id ≠ 0

/-- The number is in the operand, and the registers that the user sees and the rest of the memory are
unchanged. -/
def Sets (visible : RegId → Prop) (σ : State) (n : Nat) (v : BitVec (8 * n)) (σ' : State) :
    Arg → Prop
  | .const _ => False
  | .reg r => (σ'.regs r.id).setWidth (8 * n) = v ∧
      (∀ id, visible id → id ≠ r.id → σ'.regs id = σ.regs id) ∧ σ'.mem = σ.mem
  | .mem m => σ'.load (σ.addr m) n = v ∧ (∀ id, visible id → σ'.regs id = σ.regs id) ∧
      ∀ x, ¬ (x - σ.addr m).toNat < n → σ'.mem x = σ.mem x

section Sets

variable {visible : RegId → Prop} {σ σ₁ σ' : State} {n : Nat} {v : BitVec (8 * n)} {dst : Arg}

theorem Sets.of_writes (h : Writes σ n v σ' dst) : Sets visible σ n v σ' dst := by
  cases dst with
  | const c => exact h
  | reg r => exact ⟨h.1, fun id _ hid => h.2.1 id hid, h.2.2⟩
  | mem m => exact ⟨h.1, fun id _ => congrFun h.2.1 id, h.2.2⟩

/-- A register that the user does not see was changed before. -/
structure Hidden (visible : RegId → Prop) (σ σ₁ : State) : Prop where
  regs : ∀ id, visible id → σ₁.regs id = σ.regs id
  mem : σ₁.mem = σ.mem

theorem Hidden.refl (σ : State) : Hidden visible σ σ := ⟨fun _ _ => rfl, rfl⟩

theorem Hidden.trans {σ₂ : State} (h : Hidden visible σ σ₁) (h' : Hidden visible σ₁ σ₂) :
    Hidden visible σ σ₂ :=
  ⟨fun id hid => (h'.regs id hid).trans (h.regs id hid), h'.mem.trans h.mem⟩

theorem Hidden.of_writes {r : Reg} (h : Writes σ n v σ₁ (.reg r)) (hr : ¬ visible r.id) :
    Hidden visible σ σ₁ :=
  ⟨fun id hid => h.2.1 id fun heq => hr (heq ▸ hid), h.2.2⟩

/-- The registers of the operand are seen by the user. -/
def Seen (visible : RegId → Prop) : Arg → Prop
  | .const _ => True
  | .reg r => visible r.id
  | .mem m => visible m.reg.id

theorem load_congr (hmem : σ₁.mem = σ.mem) (a : BitVec 64) (n : Nat) :
    σ₁.load a n = σ.load a n := by
  induction n generalizing a with
  | zero => rfl
  | succ n ih => rw [State.load, State.load, ih, hmem]

/-- An operand that the user sees. -/
theorem Hidden.read (h : Hidden visible σ σ₁) {a : Arg} (ha : Seen visible a) (n : Nat) :
    σ₁.read n a = σ.read n a := by
  cases a with
  | const c => rfl
  | reg r => rw [State.read, State.read, h.regs r.id ha]
  | mem m =>
    rw [State.read, State.read, State.addr, State.addr, h.regs m.reg.id ha]
    exact load_congr h.mem _ n

theorem Hidden.sets (h : Hidden visible σ σ₁) (hdst : Seen visible dst)
    (hw : Sets visible σ₁ n v σ' dst) : Sets visible σ n v σ' dst := by
  cases dst with
  | const c => exact hw
  | reg r => exact ⟨hw.1, fun id hid hne => (hw.2.1 id hid hne).trans (h.regs id hid),
      hw.2.2.trans h.mem⟩
  | mem m =>
    have haddr : σ₁.addr m = σ.addr m := by
      rw [State.addr, State.addr, h.regs m.reg.id hdst]
    obtain ⟨hload, hregs, hmem⟩ := hw
    rw [haddr] at hload hmem
    exact ⟨hload, fun id hid => (hregs id hid).trans (h.regs id hid),
      fun x hx => (hmem x hx).trans (congrFun h.mem x)⟩

/-- What is in the operand afterwards is determined. -/
theorem Sets.unique {u : BitVec (8 * n)} (hu : Sets visible σ n u σ' dst)
    (hv : Sets visible σ n v σ' dst) : u = v := by
  cases dst with
  | const c => exact absurd hu id
  | reg r => exact hu.1.symm.trans hv.1
  | mem m => exact hu.1.symm.trans hv.1

theorem Sets.self (hdst : dst.isConst = false) : Sets visible σ n (σ.read n dst) σ dst :=
  .of_writes ((writes_self _ hdst).mpr rfl)

end Sets

/-! ## Calls of the encoder -/

/-- The call only emits code, and the states before and after the code are related. -/
def Effect (e : Emit Unit) (P : State → State → Prop) : Prop :=
  ∃ bs, e = bytes bs ∧ ∀ c, ∃ c', Leads bs c c' ∧ P (view c) (view c')

/-- The code that the call emits, if it does not fail, runs to its end from every state, and the
states before and after are related. A call that fails emits nothing. -/
def Correct (e : Emit Unit) (a : Asm) (P : State → State → Prop) : Prop :=
  match e a with
  | .ok _ a' =>
    ∃ bs, a'.code = a.code ++ bs ∧ ∀ c, ∃ c', X86.Runs bs c c' ∧ P (view c) (view c')
  | .error (.errorf _) a' => a'.code = a.code
  | .error .outOfFuel _ => False

/-- The same, but a call may fail after it has emitted code. -/
def Sound (e : Emit Unit) (a : Asm) (P : State → State → Prop) : Prop :=
  match e a with
  | .ok _ a' =>
    ∃ bs, a'.code = a.code ++ bs ∧ ∀ c, ∃ c', X86.Runs bs c c' ∧ P (view c) (view c')
  | .error (.errorf _) _ => True
  | .error .outOfFuel _ => False

section Effect

variable {e e' : Emit Unit} {a : Asm} {P Q : State → State → Prop}

theorem bytes_bind (bs bs' : List X86.Byte) :
    (bytes bs >>= fun _ => bytes bs') = bytes (bs ++ bs') := by
  funext a
  change EStateM.Result.ok () _ = EStateM.Result.ok () _
  rw [List.append_assoc]

theorem Effect.mono (h : Effect e P) (hPQ : ∀ σ σ', P σ σ' → Q σ σ') : Effect e Q := by
  obtain ⟨bs, he, hrun⟩ := h
  refine ⟨bs, he, fun c => ?_⟩
  obtain ⟨c', hlead, hP⟩ := hrun c
  exact ⟨c', hlead, hPQ _ _ hP⟩

theorem effect_pure : Effect (pure ()) fun σ σ' => σ' = σ := by
  refine ⟨[], ?_, fun c => ⟨c, .nil c, rfl⟩⟩
  funext a
  change EStateM.Result.ok () a = EStateM.Result.ok () _
  rw [List.append_nil]

theorem Effect.bind (h : Effect e P) (h' : Effect e' Q) :
    Effect (e >>= fun _ => e') fun σ σ' => ∃ σ₁, P σ σ₁ ∧ Q σ₁ σ' := by
  obtain ⟨bs, rfl, hrun⟩ := h
  obtain ⟨bs', rfl, hrun'⟩ := h'
  refine ⟨bs ++ bs', bytes_bind bs bs', fun c => ?_⟩
  obtain ⟨c₁, hlead, hP⟩ := hrun c
  obtain ⟨c', hlead', hQ⟩ := hrun' c₁
  exact ⟨c', hlead.append hlead', _, hP, hQ⟩

/-- A call that emits one instruction. -/
theorem Emits.effect {i : X86.Insn} (h : Emits e i)
    (hexec : ∀ c, ∃ c', i.exec c = some c' ∧ P (view c) (view c')) : Effect e P := by
  obtain ⟨bs, he, henc⟩ := h
  refine ⟨bs, he, fun c => ?_⟩
  obtain ⟨c', hc', hP⟩ := hexec c
  exact ⟨c', .of_encodes henc hc', hP⟩

theorem Effect.correct (h : Effect e P) : Correct e a P := by
  obtain ⟨bs, rfl, hrun⟩ := h
  refine ⟨bs, rfl, fun c => ?_⟩
  obtain ⟨c', hlead, hP⟩ := hrun c
  exact ⟨c', hlead.runs, hP⟩

theorem Correct.mono (h : Correct e a P) (hPQ : ∀ σ σ', P σ σ' → Q σ σ') : Correct e a Q := by
  unfold Correct at h ⊢
  split at h
  · obtain ⟨bs, hcode, hrun⟩ := h
    refine ⟨bs, hcode, fun c => ?_⟩
    obtain ⟨c', hruns, hP⟩ := hrun c
    exact ⟨c', hruns, hPQ _ _ hP⟩
  · exact h
  · exact h

theorem Sound.mono (h : Sound e a P) (hPQ : ∀ σ σ', P σ σ' → Q σ σ') : Sound e a Q := by
  unfold Sound at h ⊢
  split at h
  · obtain ⟨bs, hcode, hrun⟩ := h
    refine ⟨bs, hcode, fun c => ?_⟩
    obtain ⟨c', hruns, hP⟩ := hrun c
    exact ⟨c', hruns, hPQ _ _ hP⟩
  · trivial
  · exact h

/-- Code in front of a call that may fail. -/
theorem Effect.bind_sound (h : Effect e P) (h' : ∀ a' : Asm, a'.regIds = a.regIds → Sound e' a' Q) :
    Sound (e >>= fun _ => e') a fun σ σ' => ∃ σ₁, P σ σ₁ ∧ Q σ₁ σ' := by
  obtain ⟨bs, rfl, hrun⟩ := h
  have hsound := h' { a with code := a.code ++ bs } rfl
  have hbind : (bytes bs >>= fun _ => e') a = e' { a with code := a.code ++ bs } := rfl
  unfold Sound at hsound ⊢
  rw [hbind]
  generalize e' { a with code := a.code ++ bs } = res at hsound ⊢
  cases res with
  | error err a' =>
    cases err with
    | errorf msg => trivial
    | outOfFuel => exact hsound
  | ok u a' =>
    obtain ⟨bs', hcode, hrun'⟩ := hsound
    refine ⟨bs ++ bs', by rw [hcode, List.append_assoc], fun c => ?_⟩
    obtain ⟨c₁, hlead, hP⟩ := hrun c
    obtain ⟨c', hruns, hQ⟩ := hrun' c₁
    exact ⟨c', hlead _ _ hruns, _, hP, hQ⟩

theorem sound_errorf (msg : String) : Sound (errorf msg) a P := trivial

theorem correct_errorf (msg : String) : Correct (errorf msg) a P := rfl

/-- A call that does not fail is right if and only if its code is. -/
theorem Effect.correct_iff_sound (h : Effect e P) : Correct e a Q ↔ Sound e a Q := by
  obtain ⟨bs, rfl, -⟩ := h
  exact Iff.rfl

/-- Code that from some state leads to states that it should not lead to. -/
theorem Effect.not_correct (h : Effect e Q) (c : Cpu) (hPQ : ∀ σ', Q (view c) σ' → ¬ P (view c) σ') :
    ¬ Correct e a P := by
  obtain ⟨bs, rfl, hrun⟩ := h
  rintro ⟨bs', hcode, hall⟩
  obtain rfl := List.append_cancel_left hcode
  obtain ⟨c₁, hlead, hQ⟩ := hrun c
  obtain ⟨c₂, hruns, hP⟩ := hall c
  rw [← hlead.runs.unique hruns] at hP
  exact hPQ _ hQ hP

end Effect

/-! ## Registers for intermediate results -/

/-- What `RegAlloc` does: it returns a register that was free, or fails if there is none. -/
theorem regAlloc_cases {a : Asm} {es : List Event} (ha : Allocates amd64 a.regIds es) (k : Kind) :
    (∃ id rs, regAlloc k a = .ok ⟨id, k⟩ { a with regIds := rs } ∧ amd64.valid id = true ∧
      a.regIds.inuse id = 0) ∨
      ∃ msg rs, regAlloc k a = .error (.errorf msg) { a with regIds := rs } ∧
        ∀ id, amd64.valid id = true → a.regIds.inuse id ≠ 0 := by
  obtain ⟨hplaced, -⟩ := ha.spec
  have hcurr := hplaced.curr
  have hfuel : amd64.rhi.toNat - a.regIds.curr.toNat + 1 +
      (a.regIds.curr.toNat - amd64.rlo.toNat) ≤ amd64.rhi.toNat - amd64.rlo.toNat + 1 := by
    obtain ⟨hlo, hhi⟩ := hcurr
    bv_omega
  obtain ⟨res, hres, -⟩ := tryAllocLoop_above hplaced hcurr (BitVec.le_refl _) hfuel
  have hrun : a.regIds.tryAlloc amd64 (amd64.rhi.toNat - amd64.rlo.toNat + 1) = some res := hres
  rcases tryAlloc_run hplaced hrun with ⟨hv, -, hfree, -⟩ | ⟨heq, hused⟩
  · refine .inl ⟨res.1, res.2, ?_, hv, hfree⟩
    rw [regAlloc, hrun]
    exact if_pos hv
  · refine .inr ⟨"no free registers", res.2, ?_, fun id hid => hused id hid ?_⟩
    · rw [regAlloc, hrun, heq]
      rfl
    · simp only [amd64, Bool.and_eq_true, decide_eq_true_eq] at hid
      exact hid

section Alloc

variable {a : Asm} {es : List Event} {k : Kind} {body : Reg → Emit Unit} {P Q : State → State → Prop}

/-- A call that works in a register of its own. -/
theorem correct_alloc (ha : Allocates amd64 a.regIds es)
    (h : ∀ id, amd64.valid id = true → a.regIds.inuse id = 0 → ∃ e : Emit Unit,
      body ⟨id, k⟩ = (e >>= fun _ => regFree ⟨id, k⟩) ∧ Effect e P) :
    Correct (regAlloc k >>= body) a P := by
  rcases regAlloc_cases ha k with ⟨id, rs, hrun, hv, hfree⟩ | ⟨msg, rs, hrun, -⟩
  · obtain ⟨e, hbody, bs, rfl, heffect⟩ := h id hv hfree
    simp only [Correct, bind, EStateM.bind, hrun, hbody]
    refine ⟨bs, rfl, fun c => ?_⟩
    obtain ⟨c', hlead, hP⟩ := heffect c
    exact ⟨c', hlead.runs, hP⟩
  · simp only [Correct, bind, EStateM.bind, hrun]

theorem not_correct_alloc (ha : Allocates amd64 a.regIds es)
    (hfree : ∃ id, amd64.valid id = true ∧ a.regIds.inuse id = 0) (c : Cpu)
    (h : ∀ id, amd64.valid id = true → a.regIds.inuse id = 0 → ∃ e : Emit Unit, ∃ Q,
      body ⟨id, k⟩ = (e >>= fun _ => regFree ⟨id, k⟩) ∧ Effect e Q ∧
        ∀ σ', Q (view c) σ' → ¬ P (view c) σ') : ¬ Correct (regAlloc k >>= body) a P := by
  rcases regAlloc_cases ha k with ⟨id, rs, hrun, hv, hzero⟩ | ⟨msg, rs, -, hused⟩
  · obtain ⟨e, Q, hbody, heffect, hPQ⟩ := h id hv hzero
    have hnot := @Effect.not_correct e ⟨a.code, rs⟩ P Q heffect c hPQ
    intro hcorrect
    apply hnot
    obtain ⟨bs, rfl, -⟩ := heffect
    simp only [Correct, bind, EStateM.bind, hrun, hbody] at hcorrect
    exact hcorrect
  · obtain ⟨id, hv, hzero⟩ := hfree
    exact absurd hzero (hused id hv)

end Alloc

end OneJit.GoJit.Amd64
