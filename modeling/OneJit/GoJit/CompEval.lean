import OneJit.GoJit.TempRegs
import Mathlib.Data.Finset.Image

/-!
# What compiled expressions compute

The meaning of expressions and of the compiler's code, and the evaluation of an expression by its
code. A soft register that is handed down as destination is overwritten before the right operands
are read, which is right for the expressions that do not read it there.
-/

namespace OneJit.GoJit

/-! ## Meaning -/

theorem Kind.extend_extend (k : Kind) (v : BitVec 64) : k.extend (k.extend v) = k.extend v := by
  have hle : 8 * k.size ≤ 64 := by cases k <;> simp [Kind.size]
  unfold Kind.extend
  split_ifs
  · rw [setWidth_signExtend hle]
  · rw [BitVec.setWidth_setWidth_of_le _ hle, BitVec.setWidth_eq]

theorem Kind.size_le (k : Kind) : k.size ≤ 8 := by cases k <;> simp [Kind.size]

/-- What is left open: the high bits of a register after a write to the low ones, and what a
register holds that is allocated. -/
structure Machine where
  merge : Kind → BitVec 64 → BitVec 64 → BitVec 64
  extend_merge : ∀ (k : Kind) old v, k.extend (merge k old v) = k.extend v
  junk : BitVec 24 → BitVec 64

/-- The state of the machine and what the soft registers hold. -/
structure SoftState where
  state : State
  soft : BitVec 24 → BitVec 64

/-- The number that an operand is, extended to 64 bits as its kind says. -/
def Leaf.number (τ : SoftState) : Leaf → BitVec 64
  | arg a => τ.state.number a
  | soft s => s.kind.extend (τ.soft s.id)

/-- A write to an operand. -/
def Machine.put (M : Machine) (τ : SoftState) (v : BitVec 64) : Leaf → SoftState
  | .arg (.const _) => τ
  | .arg (.reg r) => { τ with state := { τ.state with
      regs := Function.update τ.state.regs r.id (M.merge r.kind (τ.state.regs r.id) v) } }
  | .arg (.mem m) => { τ with
      state := τ.state.store (τ.state.addr m) m.reg.kind.size (v.setWidth (8 * m.reg.kind.size)) }
  | .soft s => { τ with soft := Function.update τ.soft s.id (M.merge s.kind (τ.soft s.id) v) }

/-- A unary operator on a number, in the kind of the result. -/
def ExprOp1.on (op : ExprOp1) (k : Kind) (x : BitVec 64) : BitVec 64 :=
  match op with
  | cast _ => k.extend x
  | neg => k.extend (-x)
  | not => k.extend (~~~x)

/-- A binary operator on numbers, in the kind of the result. An element is read from memory. -/
def Op3.on (op : Op3) (σ : State) (k : Kind) (x y : BitVec 64) : Option (BitVec 64) :=
  match op with
  | getidx => some (k.extend ((σ.load (x + y * BitVec.ofNat 64 k.size) k.size).setWidth 64))
  | op => (op.eval k (x.setWidth (8 * k.size)) (y.setWidth (8 * k.size)) y.toNat).map fun v =>
      k.extend (v.setWidth 64)

/-- The value of an expression. -/
def Expr.value (τ : SoftState) : Expr → Option (BitVec 64)
  | leaf l => some (l.number τ)
  | expr1 x op k => (x.value τ).map (op.on k)
  | expr2 x y op k => (x.value τ).bind fun u => (y.value τ).bind fun v => op.on τ.state k u v

/-- An instruction reads its operands, and then it writes its destination. -/
def AsmCode.exec (M : Machine) (τ : SoftState) : AsmCode → Option SoftState
  | .op1 op src dst => some (M.put τ (op.on dst.kind (src.number τ)) dst)
  | .op2 op a b dst =>
    (op.on τ.state dst.kind (a.number τ) (b.number τ)).map fun v => M.put τ v dst
  | .inst1 op dst => match op with
    | .zero => some (M.put τ 0 dst)
    | .inc => some (M.put τ (dst.number τ + 1) dst)
    | .dec => some (M.put τ (dst.number τ - 1) dst)
    | .neg1 => some (M.put τ (-dst.number τ) dst)
    | .not1 => some (M.put τ (~~~dst.number τ) dst)
    | .jmp => none
  | .inst2 op src dst => match op with
    | .mov => some (M.put τ (src.number τ) dst)
    | op => op.toOp3.bind fun op =>
        (op.on τ.state dst.kind (dst.number τ) (src.number τ)).map fun v => M.put τ v dst
  | .inst3 op dst darg src => match op with
    | .setidx =>
      let a := dst.number τ + darg.number τ * BitVec.ofNat 64 src.kind.size
      some { τ with
        state := τ.state.store a src.kind.size ((src.number τ).setWidth (8 * src.kind.size)) }
    | _ => none
  | .alloc s => some { τ with soft := Function.update τ.soft s.id (M.junk s.id) }
  | .free _ => some τ

/-- The state after some code. -/
def execAll (M : Machine) : SoftState → List AsmCode → Option SoftState
  | τ, [] => some τ
  | τ, i :: is => (i.exec M τ).bind fun τ => execAll M τ is

/-! ## Kinds -/

/-- The kinds of the operand and of the result of a unary operator. -/
def ExprOp1.Takes (op : ExprOp1) (k kdst : Kind) : Prop :=
  match op with
  | cast _ => True
  | _ => k = kdst

/-- The kinds of the operands and of the result of a binary operator. -/
def Op3.Takes (op : Op3) (k₁ k₂ kdst : Kind) : Prop :=
  match op with
  | shl3 | shr3 => k₁ = kdst ∧ k₂.signed = false
  | getidx => k₁.size = 8
  | _ => k₁ = kdst ∧ k₂ = kdst

/-- The operands of an instruction have the kinds that its operator requires. -/
def AsmCode.WellKinded : AsmCode → Prop
  | .op1 op src dst => op.Takes src.kind dst.kind
  | .op2 op a b dst => op.Takes a.kind b.kind dst.kind
  | .inst2 .mov src dst => src.kind.size = dst.kind.size
  | .alloc _ | .free _ => True
  | _ => False

/-- The kinds of an expression fit its operators. Floating-point numbers are left out. -/
def Expr.WellKinded : Expr → Prop
  | leaf l => l.kind.isFloat = false
  | expr1 x op k => x.WellKinded ∧ k.isFloat = false ∧ op.Takes x.kind k ∧
      ∀ kind, op = .cast kind → k = kind
  | expr2 x y op k => x.WellKinded ∧ y.WellKinded ∧ k.isFloat = false ∧ op.Takes x.kind y.kind k

/-- The ids of the soft registers that an expression reads. -/
def Expr.softIds : Expr → List (BitVec 24)
  | leaf (.soft s) => [s.id]
  | leaf (.arg _) => []
  | expr1 x _ _ => x.softIds
  | expr2 x y _ _ => x.softIds ++ y.softIds

/-- A destination can be handed down along the left operands: a binary expression there has its
kind, and the right operand does not read it once the left one has written it. -/
def Expr.Forwards (s : SoftReg) : Expr → Prop
  | leaf _ => True
  | expr1 x _ _ => x.Forwards s
  | expr2 x y _ k => k = s.kind ∧ x.Forwards s ∧ (x.isLeaf = false → s.id ∉ y.softIds)

section Numbers

variable {M : Machine} {τ τ' : SoftState} {live : Live}

theorem number_extend (l : Leaf) : l.kind.extend (l.number τ) = l.number τ := by
  cases l with
  | soft s => exact Kind.extend_extend _ _
  | arg a =>
    have hle : 8 * a.kind.size ≤ 64 := by
      have := a.kind.size_le
      omega
    simp only [Leaf.number, Leaf.kind, State.number, Kind.extend]
    split_ifs
    · rw [setWidth_signExtend hle]
    · rw [BitVec.setWidth_setWidth_of_le _ hle, BitVec.setWidth_eq]

/-- Only the low bytes of a number count. -/
theorem extend_setWidth (k : Kind) (v : BitVec (8 * k.size)) :
    k.extend (v.setWidth 64) = if k.signed then v.signExtend 64 else v.setWidth 64 := by
  have hle : 8 * k.size ≤ 64 := by
    have := k.size_le
    omega
  unfold Kind.extend
  rw [BitVec.setWidth_setWidth_of_le _ hle, BitVec.setWidth_eq]

theorem number_mem (σ : State) (m : Mem) :
    σ.number (.mem m) = m.reg.kind.extend ((σ.load (σ.addr m) m.reg.kind.size).setWidth 64) :=
  (extend_setWidth _ _).symm

/-- What is written is the number that the operand is afterwards. -/
theorem number_put {l : Leaf} {v : BitVec 64} (hl : ∀ c, l ≠ .arg (.const c)) :
    l.number (M.put τ v l) = l.kind.extend v := by
  cases l with
  | soft s =>
    simp only [Machine.put, Leaf.number, Function.update_self, M.extend_merge]
    rfl
  | arg a =>
    cases a with
    | const c => exact absurd rfl (hl c)
    | reg r =>
      show r.kind.extend (Function.update τ.state.regs r.id _ r.id) = r.kind.extend v
      rw [Function.update_self, M.extend_merge]
    | mem m =>
      show State.number (τ.state.store _ _ _) (.mem m) = m.reg.kind.extend v
      have haddr : State.addr (τ.state.store (τ.state.addr m) m.reg.kind.size
          (v.setWidth (8 * m.reg.kind.size))) m = τ.state.addr m := rfl
      rw [number_mem, haddr, load_store _ (Kind.size_le _), extend_setWidth]
      rfl

theorem on_extend (op : ExprOp1) (k : Kind) (x : BitVec 64) : k.extend (op.on k x) = op.on k x := by
  cases op <;> exact Kind.extend_extend _ _

theorem Op3.on_extend {op : Op3} {σ : State} {k : Kind} {x y v : BitVec 64}
    (h : op.on σ k x y = some v) : k.extend v = v := by
  unfold Op3.on at h
  split at h
  · cases h
    exact Kind.extend_extend _ _
  · obtain ⟨w, _, rfl⟩ := Option.map_eq_some_iff.mp h
    exact Kind.extend_extend _ _

end Numbers

/-! ## Well-kinded code -/

/-- An expression with a destination: a register or memory operand has the kind of the expression. -/
def Expr.Fits (e : Expr) : Option Leaf → Prop
  | none => True
  | some (.soft s) => e.Forwards s
  | some (.arg a) => e.kind = a.kind

/-- The code added between two states of the compiler is well-kinded. -/
def Kinded (c c' : Comp) : Prop := ∃ is, c'.code = c.code ++ is ∧ ∀ i ∈ is, i.WellKinded

section Kinded

variable {c c' c'' : Comp} {dst : Option Leaf} {k : Kind}

theorem Kinded.refl : Kinded c c := ⟨[], by simp, by simp⟩

theorem Kinded.trans (h : Kinded c c') (h' : Kinded c' c'') : Kinded c c'' := by
  obtain ⟨is, hcode, hall⟩ := h
  obtain ⟨is', hcode', hall'⟩ := h'
  refine ⟨is ++ is', by rw [hcode', hcode, List.append_assoc], fun i hi => ?_⟩
  rcases List.mem_append.mp hi with hi | hi
  · exact hall i hi
  · exact hall' i hi

theorem kinded_emit {i : AsmCode} (h : i.WellKinded) : Kinded c (c.emit i) :=
  ⟨[i], rfl, by simpa using h⟩

theorem kinded_newTempReg : Kinded c (c.newTempReg k).2 := ⟨[_], rfl, by simp [AsmCode.WellKinded]⟩

theorem kinded_freeTempReg {s : SoftReg} : Kinded c (c.freeTempReg s) := by
  by_cases h : (s.valid && s.isTemp) = true
  · rw [Comp.freeTempReg, if_pos h]
    exact ⟨[.free s], rfl, by simp [AsmCode.WellKinded]⟩
  · rw [Comp.freeTempReg, if_neg h]
    exact .refl

theorem kinded_freeOther {s ds : SoftReg} : Kinded c (c.freeOther s ds) := by
  rw [Comp.freeOther]
  split_ifs
  · exact kinded_freeTempReg
  · exact .refl

/-- The destination of `expr1` has its kind, and nothing is moved at the end. -/
theorem dest1_kind (dst : Option Leaf) (s : SoftReg) (c : Comp) (k : Kind) :
    Kinded c (c.dest1 k dst s).2 ∧ (c.dest1 k dst s).1.1.kind = k ∧
      ((c.dest1 k dst s).1.2.1.valid = false ∨
        (c.dest1 k dst s).1.1 = .soft (c.dest1 k dst s).1.2.1) := by
  cases dst with
  | none =>
    simp only [Comp.dest1, Comp.fresh]
    split_ifs
    · exact ⟨.refl, rfl, .inr rfl⟩
    · exact ⟨kinded_newTempReg, rfl, .inr rfl⟩
  | some d =>
    simp only [Comp.dest1, Comp.fresh]
    split_ifs with hkind hv
    · exact ⟨.refl, rfl, .inr rfl⟩
    · exact ⟨kinded_newTempReg, rfl, .inr rfl⟩
    · refine ⟨.refl, not_not.mp hkind, ?_⟩
      cases d with
      | soft s => exact .inr rfl
      | arg a => exact .inl rfl

/-- So it is for `expr2`, if a given destination has its kind. -/
theorem dest2_kind (op : Op3) (dst : Option Leaf) (s s' : SoftReg) (c : Comp) (k : Kind)
    (hdst : ∀ d, dst = some d → d.kind = k) :
    Kinded c (c.dest2 op k dst s s').2 ∧ (c.dest2 op k dst s s').1.1.kind = k ∧
      ((c.dest2 op k dst s s').1.2.1.valid = false ∨
        (c.dest2 op k dst s s').1.1 = .soft (c.dest2 op k dst s s').1.2.1) := by
  cases dst with
  | none =>
    simp only [Comp.dest2, Comp.fresh]
    split_ifs
    · exact ⟨.refl, rfl, .inr rfl⟩
    · exact ⟨.refl, rfl, .inr rfl⟩
    · exact ⟨kinded_newTempReg, rfl, .inr rfl⟩
  | some d =>
    have hkind : ¬ d.kind ≠ k := not_not.mpr (hdst d rfl)
    simp only [Comp.dest2, if_neg hkind]
    refine ⟨.refl, hdst d rfl, ?_⟩
    cases d with
    | soft s => exact .inr rfl
    | arg a => exact .inl rfl

theorem finish_dest {d : Leaf} {ds tofree : SoftReg} (h : ds.valid = false ∨ d = .soft ds) :
    c.finish d ds tofree = ((d, ds), c) := by
  refine if_neg ?_
  rcases h with h | h
  · simp [h]
  · simp [h]

theorem Expr.Fits.kind {x y : Expr} {op : Op3} (h : (Expr.expr2 x y op k).Fits dst) :
    ∀ d, dst = some d → d.kind = k := by
  rintro d rfl
  cases d with
  | soft s => exact h.1.symm
  | arg a => exact h.symm

theorem Expr.Fits.left {x y : Expr} {op : Op3} (h : (Expr.expr2 x y op k).Fits dst) :
    x.Fits (Comp.dto dst) := by
  rcases dto_cases dst with ⟨s, rfl, _, _, hto⟩ | ⟨_, hto⟩
  · rw [hto]
    exact h.2.1
  · rw [hto]
    trivial

theorem Expr.Fits.operand {x : Expr} {op : ExprOp1} (h : (Expr.expr1 x op k).Fits dst) :
    x.Fits (Comp.dto dst) := by
  rcases dto_cases dst with ⟨s, rfl, _, _, hto⟩ | ⟨_, hto⟩
  · rw [hto]
    exact h
  · rw [hto]
    trivial

/-- The code of an expression is well-kinded, and its result has the kind of the expression. -/
theorem expr_kinded {e : Expr} (he : e.WellKinded) (dst : Option Leaf) (c : Comp)
    (hfit : e.Fits dst) :
    Kinded c (Comp.expr e dst c).2 ∧ (Comp.expr e dst c).1.1.kind = e.kind := by
  induction e generalizing dst c with
  | leaf l => exact ⟨.refl, rfl⟩
  | expr1 x op k ih =>
    obtain ⟨hx, hkx⟩ := ih he.1 (Comp.dto dst) c hfit.operand
    rw [expr1_eq]
    generalize Comp.expr x (Comp.dto dst) c = r at *
    obtain ⟨hd, hkd, hds⟩ := dest1_kind dst r.1.2 r.2 k
    dsimp only
    rw [finish_dest hds]
    have hop : AsmCode.WellKinded (.op1 op r.1.1 (r.2.dest1 k dst r.1.2).1.1) := by
      show op.Takes r.1.1.kind (r.2.dest1 k dst r.1.2).1.1.kind
      rw [hkx, hkd]
      exact he.2.2.1
    exact ⟨((hx.trans hd).trans (kinded_emit hop)).trans kinded_freeOther, hkd⟩
  | expr2 x y op k ihx ihy =>
    obtain ⟨hx, hkx⟩ := ihx he.1 (Comp.dto dst) c hfit.left
    obtain ⟨hy, hky⟩ := ihy he.2.1 none (Comp.expr x (Comp.dto dst) c).2 trivial
    rw [expr2_eq]
    dsimp only
    generalize Comp.expr x (Comp.dto dst) c = r at *
    generalize Comp.expr y none r.2 = r' at *
    obtain ⟨hd, hkd, hds⟩ := dest2_kind op dst r.1.2 r'.1.2 r'.2 k hfit.kind
    rw [finish_dest hds]
    have hop : AsmCode.WellKinded (.op2 op r.1.1 r'.1.1 (r'.2.dest2 op k dst r.1.2 r'.1.2).1.1) := by
      show op.Takes r.1.1.kind r'.1.1.kind (r'.2.dest2 op k dst r.1.2 r'.1.2).1.1.kind
      rw [hkx, hky, hkd]
      exact he.2.2.2
    exact ⟨((((hx.trans hy).trans hd).trans (kinded_emit hop)).trans kinded_freeOther).trans
      kinded_freeOther, hkd⟩

end Kinded

/-! ## Executes of compiled code -/

/-- The code added between two states of the compiler takes one state of the machine to another. -/
def Executes (M : Machine) (c c' : Comp) (τ τ' : SoftState) : Prop :=
  ∃ is, c'.code = c.code ++ is ∧ execAll M τ is = some τ'

theorem execAll_append (M : Machine) (τ : SoftState) (xs ys : List AsmCode) :
    execAll M τ (xs ++ ys) = (execAll M τ xs).bind fun τ => execAll M τ ys := by
  induction xs generalizing τ with
  | nil => rfl
  | cons x xs ih =>
    simp only [List.cons_append, execAll]
    cases x.exec M τ with
    | none => rfl
    | some τ' => exact ih τ'

/-- All registers of the user are in the set. -/
def Users (live : Live) : Prop := ∀ id : BitVec 24, id.toNat < firstTempRegId → id ∈ live

/-- The registers of the user. -/
def userRegs : Live := (Finset.range firstTempRegId).image (BitVec.ofNat 24)

theorem mem_userRegs {id : BitVec 24} : id ∈ userRegs ↔ id.toNat < firstTempRegId := by
  simp only [userRegs, Finset.mem_image, Finset.mem_range]
  constructor
  · rintro ⟨n, hn, rfl⟩
    simp only [BitVec.toNat_ofNat, firstTempRegId] at *
    omega
  · exact fun h => ⟨id.toNat, h, by simp⟩

theorem users_userRegs : Users userRegs := fun _ h => mem_userRegs.mpr h

theorem counts_userRegs {c : Comp} (h : firstTempRegId ≤ c.nextTempReg) : Counts c userRegs :=
  ⟨fun id hid hge => absurd (mem_userRegs.mp hid) (by omega), h⟩

/-- A soft register is in the set. -/
def Leaf.In (live : Live) (l : Leaf) : Prop := ∀ s, l = .soft s → s.id ∈ live

section Runs

variable {M : Machine} {c c' c'' : Comp} {τ τ' τ'' : SoftState} {live live' : Live} {k : Kind}

theorem Executes.refl : Executes M c c τ τ := ⟨[], by simp, rfl⟩

theorem Executes.trans (h : Executes M c c' τ τ') (h' : Executes M c' c'' τ' τ'') : Executes M c c'' τ τ'' := by
  obtain ⟨is, hcode, hrun⟩ := h
  obtain ⟨is', hcode', hrun'⟩ := h'
  refine ⟨is ++ is', by rw [hcode', hcode, List.append_assoc], ?_⟩
  rw [execAll_append, hrun]
  exact hrun'

theorem executes_emit {i : AsmCode} (h : i.exec M τ = some τ') : Executes M c (c.emit i) τ τ' :=
  ⟨[i], rfl, by simp [execAll, h]⟩

theorem executes_freeTempReg {s : SoftReg} : Executes M c (c.freeTempReg s) τ τ := by
  by_cases h : (s.valid && s.isTemp) = true
  · rw [Comp.freeTempReg, if_pos h]
    exact ⟨[.free s], rfl, rfl⟩
  · rw [Comp.freeTempReg, if_neg h]
    exact .refl

theorem executes_freeOther {s ds : SoftReg} : Executes M c (c.freeOther s ds) τ τ := by
  rw [Comp.freeOther]
  split_ifs
  · exact executes_freeTempReg
  · exact .refl

/-- The states agree on memory, on registers and on some soft registers. -/
structure Agrees (live : Live) (τ τ' : SoftState) : Prop where
  state : τ'.state = τ.state
  soft : ∀ id ∈ live, τ'.soft id = τ.soft id

theorem Agrees.refl : Agrees live τ τ := ⟨rfl, fun _ _ => rfl⟩

theorem Agrees.trans (h : Agrees live τ τ') (h' : Agrees live τ' τ'') : Agrees live τ τ'' :=
  ⟨h'.state.trans h.state, fun id hid => (h'.soft id hid).trans (h.soft id hid)⟩

theorem Agrees.mono (h : Agrees live' τ τ') (hsub : live ⊆ live') : Agrees live τ τ' :=
  ⟨h.state, fun id hid => h.soft id (hsub hid)⟩

theorem Agrees.number {l : Leaf} (h : Agrees live τ τ') (hl : l.In live) :
    l.number τ' = l.number τ := by
  cases l with
  | arg a => simp only [Leaf.number, h.state]
  | soft s => simp only [Leaf.number, h.soft s.id (hl s rfl)]

/-- The value of an expression depends on memory, on registers and on the soft registers it reads. -/
theorem value_congr {e : Expr} (hstate : τ'.state = τ.state)
    (hsoft : ∀ id ∈ e.softIds, τ'.soft id = τ.soft id) : e.value τ' = e.value τ := by
  induction e with
  | leaf l =>
    cases l with
    | arg a => simp only [Expr.value, Leaf.number, hstate]
    | soft s => simp only [Expr.value, Leaf.number, hsoft s.id (by simp [Expr.softIds])]
  | expr1 x op k ih => simp only [Expr.value, ih hsoft]
  | expr2 x y op k ihx ihy =>
    simp only [Expr.value, hstate, ihx fun id hid => hsoft id (List.mem_append_left _ hid),
      ihy fun id hid => hsoft id (List.mem_append_right _ hid)]

theorem Leaf.Usable.isIn {l : Leaf} (h : l.Usable live) (hu : Users live) : l.In live := by
  rintro s rfl
  by_cases ht : s.isTemp = true
  · exact h ht
  · exact hu s.id (by simpa [SoftReg.isTemp] using ht)

/-- The soft registers of an expression are those of the user. -/
theorem softIds_users {e : Expr} (he : e.Proper) (hu : Users live) : ∀ id ∈ e.softIds, id ∈ live := by
  induction e with
  | leaf l =>
    intro id hid
    cases l with
    | arg a => simp [Expr.softIds] at hid
    | soft s =>
      rw [List.mem_singleton.mp hid]
      have hs := he.2 s rfl
      exact hu s.id (by simpa [SoftReg.isTemp] using hs)
  | expr1 x op k ih => exact ih he.1
  | expr2 x y op k ihx ihy =>
    intro id hid
    rcases List.mem_append.mp hid with hid | hid
    · exact ihx he.1 id hid
    · exact ihy he.2.1 id hid

theorem Result.subset {dst : Option Leaf} {r : (Leaf × SoftReg) × Comp}
    (h : Result dst c live r live') : live ⊆ live' := by
  by_cases hv : (Comp.dsoft dst).valid = true
  · exact (h.given hv).1 ▸ fun _ h => h
  · exact (h.owns (by simpa using hv)).subset

theorem executes_newTempReg (M : Machine) (τ : SoftState) (hc : Counts c live) (hk : k ≠ .invalid)
    (hr : InRange (c.newTempReg k).2) :
    ∃ τ', Executes M c (c.newTempReg k).2 τ τ' ∧ Agrees live τ τ' := by
  obtain ⟨_, _, _, hnew, _⟩ := newTempReg_tracks hc k hk hr
  refine ⟨_, ⟨[.alloc (c.newTempReg k).1], rfl, rfl⟩, rfl, fun id hid => ?_⟩
  have hne : id ≠ (c.newTempReg k).1.id := fun heq => hnew (heq ▸ hid)
  exact Function.update_of_ne hne _ _

theorem dest1_executes (M : Machine) (τ : SoftState) {dst : Option Leaf} {s : SoftReg}
    (hc : Counts c live) (hk : k ≠ .invalid) (hr : InRange (c.dest1 k dst s).2) :
    ∃ τ', Executes M c (c.dest1 k dst s).2 τ τ' ∧ Agrees live τ τ' := by
  have hcases : (c.dest1 k dst s).2 = c ∨ (c.dest1 k dst s).2 = (c.newTempReg k).2 := by
    cases dst <;> simp only [Comp.dest1, Comp.fresh] <;> split_ifs <;> simp
  rcases hcases with h | h
  · rw [h]
    exact ⟨τ, .refl, .refl⟩
  · rw [h] at hr ⊢
    exact executes_newTempReg M τ hc hk hr

theorem dest2_executes (M : Machine) (τ : SoftState) {op : Op3} {dst : Option Leaf} {s s' : SoftReg}
    (hc : Counts c live) (hk : k ≠ .invalid) (hr : InRange (c.dest2 op k dst s s').2) :
    ∃ τ', Executes M c (c.dest2 op k dst s s').2 τ τ' ∧ Agrees live τ τ' := by
  have hcases : (c.dest2 op k dst s s').2 = c ∨
      (c.dest2 op k dst s s').2 = (c.newTempReg k).2 := by
    cases dst <;> simp only [Comp.dest2, Comp.fresh] <;> split_ifs <;> simp
  rcases hcases with h | h
  · rw [h]
    exact ⟨τ, .refl, .refl⟩
  · rw [h] at hr ⊢
    exact executes_newTempReg M τ hc hk hr

/-- The destination that is handed down, if there is one, is a soft register of the user. -/
def SoftDst (dst : Option Leaf) : Prop :=
  ∀ d, dst = some d → ∃ s, d = .soft s ∧ s.valid = true ∧ s.isTemp = false

/-- The code of an expression has left its value in an operand, and has changed no allocated soft
register but the destination that was handed down. -/
structure Evaluated (live : Live) (dst : Option Leaf) (τ τ' : SoftState) (l : Leaf)
    (v : BitVec 64) : Prop where
  number : l.number τ' = v
  state : τ'.state = τ.state
  keeps : ∀ id ∈ live, (∀ s, dst = some (.soft s) → id ≠ s.id) → τ'.soft id = τ.soft id

theorem Evaluated.agrees {l : Leaf} {v : BitVec 64} (h : Evaluated live none τ τ' l v) :
    Agrees live τ τ' :=
  ⟨h.state, fun id hid => h.keeps id hid fun s hs => by cases hs⟩

/-- The write of a value to the destination, a soft register that was not allocated before or the
one that is given. -/
theorem evaluated_put {dst : Option Leaf} {s : SoftReg} {v : BitVec 64} (hk : k.extend v = v)
    (hs : s.kind = k) (hstate : τ'.state = τ.state)
    (hkeeps : ∀ id ∈ live, (∀ s, dst = some (.soft s) → id ≠ s.id) → τ'.soft id = τ.soft id)
    (hid : ∀ id ∈ live, (∀ s, dst = some (.soft s) → id ≠ s.id) → id ≠ s.id) :
    Evaluated live dst τ (M.put τ' v (.soft s)) (.soft s) v := by
  refine ⟨?_, hstate, fun id hmem hne => ?_⟩
  · rw [number_put (by simp)]
    show s.kind.extend v = v
    rw [hs, hk]
  · rw [← hkeeps id hmem hne]
    exact Function.update_of_ne (hid id hmem hne) _ _

/-- The result of an operator is in a soft register that was not allocated, or in the given one. -/
theorem result_soft {dst : Option Leaf} {r : (Leaf × SoftReg) × Comp}
    (h : Result dst c live r live') (hv : r.1.2.valid = true) :
    ∀ id ∈ live, (∀ s, dst = some (.soft s) → id ≠ s.id) → id ≠ r.1.2.id := by
  intro id hmem hne
  rcases dto_cases dst with ⟨s, rfl, hval, hds, _⟩ | ⟨hval, _⟩
  · rcases (h.given (hds ▸ hval)).2 with hzero | hid
    · rw [hzero] at hv
      cases hv
    · rw [hid, hds]
      exact hne s rfl
  · rcases h.owns hval with ⟨hzero, _⟩ | ⟨_, _, hnew, _⟩
    · rw [hzero] at hv
      cases hv
    · exact fun heq => hnew (heq ▸ hmem)

theorem SoftDst.cases {dst : Option Leaf} (h : SoftDst dst) :
    dst = none ∨ ∃ s, dst = some (.soft s) ∧ s.valid = true ∧ s.isTemp = false := by
  cases dst with
  | none => exact .inl rfl
  | some d =>
    obtain ⟨s, rfl, hs⟩ := h d rfl
    exact .inr ⟨s, rfl, hs⟩

theorem SoftDst.left {dst : Option Leaf} (h : SoftDst dst) : SoftDst (Comp.dto dst) := by
  rcases h.cases with rfl | ⟨s, rfl, hv, ht⟩
  · exact fun d hd => by cases hd
  · rw [show Comp.dto (some (.soft s)) = some (.soft s) from if_pos hv]
    exact h

/-- The destination of `expr1` is a soft register of its kind. -/
theorem dest1_isSoft {dst : Option Leaf} (s : SoftReg) (hdst : SoftDst dst) (hk : k ≠ .invalid) :
    (c.dest1 k dst s).1.1 = .soft (c.dest1 k dst s).1.2.1 ∧
      (c.dest1 k dst s).1.2.1.valid = true ∧ (c.dest1 k dst s).1.2.1.kind = k := by
  rcases hdst.cases with rfl | ⟨t, rfl, hv, _⟩
  · simp only [Comp.dest1, Comp.fresh]
    split_ifs
    · exact ⟨rfl, make_valid hk, rfl⟩
    · exact ⟨rfl, make_valid hk, rfl⟩
  · rw [dest1_soft hv]
    exact ⟨rfl, make_valid hk, rfl⟩

/-- So it is for `expr2`, if a given destination has its kind. -/
theorem dest2_isSoft (op : Op3) {dst : Option Leaf} (s s' : SoftReg) (hdst : SoftDst dst)
    (hk : k ≠ .invalid) (hkind : ∀ d, dst = some d → d.kind = k) :
    (c.dest2 op k dst s s').1.1 = .soft (c.dest2 op k dst s s').1.2.1 ∧
      (c.dest2 op k dst s s').1.2.1.valid = true ∧ (c.dest2 op k dst s s').1.2.1.kind = k := by
  rcases hdst.cases with rfl | ⟨t, rfl, hv, _⟩
  · simp only [Comp.dest2, Comp.fresh]
    split_ifs
    · exact ⟨rfl, make_valid hk, rfl⟩
    · exact ⟨rfl, make_valid hk, rfl⟩
    · exact ⟨rfl, make_valid hk, rfl⟩
  · rw [dest2_soft hv]
    have hkt : t.kind = k := hkind _ rfl
    subst hkt
    exact ⟨rfl, make_valid hk, rfl⟩

theorem SoftDst.usable {dst : Option Leaf} (h : SoftDst dst) :
    ∀ d, dst = some d → d.Usable live := by
  rintro d hd
  obtain ⟨s, rfl, _, ht⟩ := h d hd
  intro ht'
  rw [ht] at ht'
  cases ht'

theorem dto_some {dst : Option Leaf} {d : Leaf} (h : Comp.dto dst = some d) : dst = some d := by
  rcases dto_cases dst with ⟨_, _, _, _, heq⟩ | ⟨_, heq⟩
  · exact heq ▸ h
  · rw [heq] at h
    cases h

theorem Users.mono (h : Users live) (hsub : live ⊆ live') : Users live' :=
  fun id hid => hsub (h id hid)

/-- The right operand is evaluated as before the left one: the destination that is handed down is
the only register of the user that may have changed, and it is read only if it has not. -/
theorem right_value {x y : Expr} {op : Op3} {dst : Option Leaf} {u : BitVec 64} {l : Leaf}
    (hfit : (Expr.expr2 x y op k).Fits dst) (hdst : SoftDst dst) (hy : y.Proper) (hu : Users live)
    (hx : x.isLeaf = false) (h : Evaluated live (Comp.dto dst) τ τ' l u) :
    y.value τ' = y.value τ := by
  refine value_congr h.state fun id hid => h.keeps id (softIds_users hy hu id hid) fun s hs => ?_
  have hds := dto_some hs
  subst hds
  rintro rfl
  exact hfit.2.2 hx hid

/-- The code of an expression evaluates it. -/
theorem expr_executes (M : Machine) {e : Expr} (he : e.Proper) (dst : Option Leaf) (c : Comp)
    (live : Live) (hfit : e.Fits dst) (hdst : SoftDst dst) (hu : Users live) (hc : Counts c live)
    (hr : InRange (Comp.expr e dst c).2) (τ : SoftState) (v : BitVec 64) (hv : e.value τ = some v) :
    ∃ τ', Executes M c (Comp.expr e dst c).2 τ τ' ∧
      Evaluated live dst τ τ' (Comp.expr e dst c).1.1 v := by
  induction e generalizing dst c live τ v with
  | leaf l =>
    cases hv
    exact ⟨τ, .refl, rfl, rfl, fun _ _ _ => rfl⟩
  | expr1 x op k ih =>
    obtain ⟨live', hres⟩ := expr_result he dst c live hdst.usable hc hr
    obtain ⟨u, hx, rfl⟩ := Option.map_eq_some_iff.mp hv
    rw [expr1_eq] at hr hres ⊢
    dsimp only at hr hres ⊢
    have hsoft := dest1_isSoft (c := (Comp.expr x (Comp.dto dst) c).2)
      (Comp.expr x (Comp.dto dst) c).1.2 hdst he.2
    rw [finish_dest (.inr hsoft.1)] at hr hres ⊢
    have hr₂ : InRange (Comp.dest1 (Comp.expr x (Comp.dto dst) c).2 k dst
        (Comp.expr x (Comp.dto dst) c).1.2).2 := fun id hid => hr id (by simpa using hid)
    have hr₁ : InRange (Comp.expr x (Comp.dto dst) c).2 :=
      fun id hid => hr₂ id (dest1_taken.subset hid)
    obtain ⟨live₁, hres₁⟩ := expr_result he.1 (Comp.dto dst) c live hdst.left.usable hc hr₁
    obtain ⟨τ₁, hrun₁, heval₁⟩ :=
      ih he.1 (Comp.dto dst) c live hfit.operand hdst.left hu hc hr₁ τ u hx
    generalize Comp.expr x (Comp.dto dst) c = r at *
    obtain ⟨⟨src, ssoft⟩, c₁⟩ := r
    dsimp only at *
    obtain ⟨τ₂, hrun₂, hagree⟩ := dest1_executes M τ₁ hres₁.counts he.2 hr₂
    generalize c₁.dest1 k dst ssoft = d at *
    obtain ⟨⟨l, ds, tofree⟩, c₂⟩ := d
    dsimp only at *
    obtain ⟨rfl, hval, hkind⟩ := hsoft
    have hnum : src.number τ₂ = u :=
      (hagree.number (hres₁.usable.isIn (hu.mono hres₁.subset))).trans heval₁.number
    have hexec : (AsmCode.op1 op src (.soft ds)).exec M τ₂ =
        some (M.put τ₂ (op.on k u) (.soft ds)) := by
      simp only [AsmCode.exec, hnum, Leaf.kind, hkind]
    refine ⟨_, ((hrun₁.trans hrun₂).trans (executes_emit hexec)).trans executes_freeOther,
      evaluated_put (on_extend op k u) hkind (hagree.state.trans heval₁.state) ?_
        (result_soft hres hval)⟩
    intro id hmem hne
    exact (hagree.soft id (hres₁.subset hmem)).trans
      (heval₁.keeps id hmem fun s hs => hne s (dto_some hs))
  | expr2 x y op k ihx ihy =>
    obtain ⟨live', hres⟩ := expr_result he dst c live hdst.usable hc hr
    obtain ⟨u, hx, hv⟩ := Option.bind_eq_some_iff.mp hv
    obtain ⟨w, hy, hv⟩ := Option.bind_eq_some_iff.mp hv
    rw [expr2_eq] at hr hres ⊢
    dsimp only at hr hres ⊢
    have hsoft := dest2_isSoft (c := (Comp.expr y none (Comp.expr x (Comp.dto dst) c).2).2)
      op (Comp.expr x (Comp.dto dst) c).1.2
      (Comp.expr y none (Comp.expr x (Comp.dto dst) c).2).1.2 hdst he.2.2 hfit.kind
    rw [finish_dest (.inr hsoft.1)] at hr hres ⊢
    have hr₃ : InRange (Comp.dest2 (Comp.expr y none (Comp.expr x (Comp.dto dst) c).2).2 op k dst
        (Comp.expr x (Comp.dto dst) c).1.2
        (Comp.expr y none (Comp.expr x (Comp.dto dst) c).2).1.2).2 :=
      fun id hid => hr id (by simpa using hid)
    have hr₂ : InRange (Comp.expr y none (Comp.expr x (Comp.dto dst) c).2).2 :=
      fun id hid => hr₃ id (dest2_taken.subset hid)
    have hr₁ : InRange (Comp.expr x (Comp.dto dst) c).2 :=
      fun id hid => hr₂ id ((expr_taken y none _).subset hid)
    obtain ⟨live₁, hres₁⟩ := expr_result he.1 (Comp.dto dst) c live hdst.left.usable hc hr₁
    obtain ⟨live₂, hres₂⟩ := expr_result he.2.1 none _ live₁ (fun d hd => by cases hd)
      hres₁.counts hr₂
    have hu₁ : Users live₁ := hu.mono hres₁.subset
    obtain ⟨τ₁, hrun₁, heval₁, hy₁⟩ : ∃ τ₁, Executes M c (Comp.expr x (Comp.dto dst) c).2 τ τ₁ ∧
        Evaluated live (Comp.dto dst) τ τ₁ (Comp.expr x (Comp.dto dst) c).1.1 u ∧
        y.value τ₁ = y.value τ := by
      cases hleaf : x.isLeaf with
      | true =>
        cases x with
        | leaf l =>
          cases hx
          exact ⟨τ, .refl, ⟨rfl, rfl, fun _ _ _ => rfl⟩, rfl⟩
        | expr1 x op k => cases hleaf
        | expr2 x y op k => cases hleaf
      | false =>
        obtain ⟨τ₁, hrun₁, heval₁⟩ :=
          ihx he.1 (Comp.dto dst) c live hfit.left hdst.left hu hc hr₁ τ u hx
        exact ⟨τ₁, hrun₁, heval₁, right_value hfit hdst he.2.1 hu hleaf heval₁⟩
    obtain ⟨τ₂, hrun₂, heval₂⟩ := ihy he.2.1 none _ live₁ trivial (fun d hd => by cases hd) hu₁
      hres₁.counts hr₂ τ₁ w (hy₁.trans hy)
    obtain ⟨τ₃, hrun₃, hagree⟩ := dest2_executes M τ₂ hres₂.counts he.2.2 hr₃
    generalize Comp.expr x (Comp.dto dst) c = r at *
    obtain ⟨⟨src1, soft1⟩, c₁⟩ := r
    dsimp only at *
    generalize Comp.expr y none c₁ = r' at *
    obtain ⟨⟨src2, soft2⟩, c₂⟩ := r'
    dsimp only at *
    generalize c₂.dest2 op k dst soft1 soft2 = d at *
    obtain ⟨⟨l, ds, tofree⟩, c₃⟩ := d
    dsimp only at *
    obtain ⟨rfl, hval, hkind⟩ := hsoft
    have hagree₁ : Agrees live₁ τ₁ τ₃ := heval₂.agrees.trans (hagree.mono hres₂.subset)
    have hnum1 : src1.number τ₃ = u :=
      (hagree₁.number (hres₁.usable.isIn hu₁)).trans heval₁.number
    have hnum2 : src2.number τ₃ = w :=
      (hagree.number (hres₂.usable.isIn (hu₁.mono hres₂.subset))).trans heval₂.number
    have hstate : τ₃.state = τ.state := hagree₁.state.trans heval₁.state
    have hexec : (AsmCode.op2 op src1 src2 (.soft ds)).exec M τ₃ =
        some (M.put τ₃ v (.soft ds)) := by
      simp only [AsmCode.exec, hnum1, hnum2, hstate, Leaf.kind, hkind, hv, Option.map_some]
    refine ⟨_, (((hrun₁.trans hrun₂).trans hrun₃).trans (executes_emit hexec)).trans
      (executes_freeOther.trans executes_freeOther), evaluated_put (Op3.on_extend hv) hkind hstate
        ?_ (result_soft hres hval)⟩
    intro id hmem hne
    exact (hagree₁.soft id (hres₁.subset hmem)).trans
      (heval₁.keeps id hmem fun s hs => hne s (dto_some hs))

end Runs

end OneJit.GoJit
