import OneJit.GoJit.Comp
import Mathlib.Data.Finset.Basic

/-!
# Temporary registers are allocated and freed like a stack

The allocated registers are followed through the compiled code. As long as the counter of ids is in
the range of temporary registers, every statement frees what it allocates.
-/

namespace OneJit.GoJit

/-! ## The registers that are allocated -/

abbrev Live := Finset (BitVec 24)

/-- A temporary register is read or written while it is allocated. -/
def Leaf.Usable (live : Live) : Leaf → Prop
  | arg _ => True
  | soft s => s.isTemp = true → s.id ∈ live

instance (live : Live) (l : Leaf) : Decidable (l.Usable live) := by
  cases l <;> unfold Leaf.Usable <;> infer_instance

/-- The operands that are read or written. -/
def AsmCode.operands : AsmCode → List Leaf
  | op1 _ src dst => [src, dst]
  | op2 _ a b dst => [a, b, dst]
  | inst1 _ dst => [dst]
  | inst2 _ src dst => [src, dst]
  | inst3 _ dst darg src => [dst, darg, src]
  | alloc _ | free _ => []

/-- The allocated registers after an instruction, if the discipline is kept. -/
def track (live : Live) : AsmCode → Option Live
  | .alloc s => if s.id ∈ live then none else some (insert s.id live)
  | .free s => if s.id ∈ live then some (live.erase s.id) else none
  | i => if ∀ l ∈ i.operands, l.Usable live then some live else none

/-- The allocated registers after some code. -/
def trackAll : Live → List AsmCode → Option Live
  | live, [] => some live
  | live, i :: is => (track live i).bind fun live => trackAll live is

theorem trackAll_append (live : Live) (xs ys : List AsmCode) :
    trackAll live (xs ++ ys) = (trackAll live xs).bind fun live => trackAll live ys := by
  induction xs generalizing live with
  | nil => rfl
  | cons x xs ih =>
    simp only [List.cons_append, trackAll]
    cases track live x with
    | none => rfl
    | some live' => exact ih live'

/-- Between two states of the compiler the code keeps the discipline. -/
structure Tracks (c : Comp) (live : Live) (c' : Comp) (live' : Live) : Prop where
  code : ∃ is, c'.code = c.code ++ is ∧ trackAll live is = some live'
  taken : c.taken <+: c'.taken

/-- The allocated temporary registers are below the counter. -/
structure Counts (c : Comp) (live : Live) : Prop where
  below : ∀ id ∈ live, firstTempRegId ≤ id.toNat → id.toNat < c.nextTempReg
  first : firstTempRegId ≤ c.nextTempReg

/-- All numbers that `newTempReg` took are ids of temporary registers. -/
def InRange (c : Comp) : Prop := ∀ id ∈ c.taken, id ≤ lastTempRegId

instance (c : Comp) : Decidable (InRange c) :=
  inferInstanceAs (Decidable (∀ id ∈ c.taken, id ≤ lastTempRegId))

section Steps

variable {c c' c'' : Comp} {live live' live'' : Live} {s : SoftReg}

theorem Tracks.refl : Tracks c live c live := ⟨⟨[], by simp, rfl⟩, List.prefix_refl _⟩

theorem Tracks.trans (h : Tracks c live c' live') (h' : Tracks c' live' c'' live'') :
    Tracks c live c'' live'' := by
  obtain ⟨is, hcode, htrack⟩ := h.code
  obtain ⟨is', hcode', htrack'⟩ := h'.code
  refine ⟨⟨is ++ is', by rw [hcode', hcode, List.append_assoc], ?_⟩, h.taken.trans h'.taken⟩
  rw [trackAll_append, htrack]
  exact htrack'

/-- An instruction with operands. -/
theorem tracks_emit {i : AsmCode} (h : track live i = some live) : Tracks c live (c.emit i) live :=
  ⟨⟨[i], rfl, by simp [trackAll, h]⟩, List.prefix_refl _⟩

theorem counts_emit {i : AsmCode} (h : Counts c live) : Counts (c.emit i) live := ⟨h.below, h.first⟩

theorem make_id {n : Nat} {k : Kind} (h : n ≤ lastTempRegId) : (SoftReg.make n k).id.toNat = n := by
  simp only [SoftReg.make, BitVec.toNat_ofNat, lastTempRegId] at *
  omega

/-- `newTempReg` while the counter is in range. -/
theorem newTempReg_tracks (h : Counts c live) (k : Kind) (hk : k ≠ .invalid)
    (hr : InRange (c.newTempReg k).2) :
    (c.newTempReg k).1.valid = true ∧ (c.newTempReg k).1.isTemp = true ∧
      (c.newTempReg k).1.kind = k ∧ (c.newTempReg k).1.id ∉ live ∧
      Tracks c live (c.newTempReg k).2 (insert (c.newTempReg k).1.id live) ∧
      Counts (c.newTempReg k).2 (insert (c.newTempReg k).1.id live) := by
  have hlast : c.nextTempReg ≤ lastTempRegId := hr _ (by simp [Comp.newTempReg, Comp.emit])
  have hid : (c.newTempReg k).1.id.toNat = c.nextTempReg := make_id hlast
  have hnext : (c.newTempReg k).2.nextTempReg = c.nextTempReg + 1 := by
    simp only [Comp.newTempReg, Comp.emit, lastTempRegId] at *
    omega
  have hfirst := h.first
  have hnew : (c.newTempReg k).1.id ∉ live := by
    intro hmem
    have := h.below _ hmem (by omega)
    omega
  refine ⟨?_, ?_, rfl, hnew, ⟨⟨[.alloc (c.newTempReg k).1], rfl, ?_⟩, ?_⟩, ?_, by omega⟩
  · simpa [SoftReg.valid, Comp.newTempReg, SoftReg.make] using hk
  · simp only [SoftReg.isTemp, decide_eq_true_eq]
    omega
  · simp [trackAll, track, hnew]
  · exact List.prefix_append _ _
  · intro id hmem hge
    rcases Finset.mem_insert.mp hmem with rfl | hmem
    · omega
    · have := h.below id hmem hge
      omega

/-- `freeTempReg` of an allocated temporary register. -/
theorem freeTempReg_tracks (h : Counts c live) (hv : s.valid = true) (ht : s.isTemp = true)
    (hmem : s.id ∈ live) :
    Tracks c live (c.freeTempReg s) (live.erase s.id) ∧
      Counts (c.freeTempReg s) (live.erase s.id) := by
  have hfirst : firstTempRegId ≤ s.id.toNat := by simpa [SoftReg.isTemp] using ht
  have heq : c.freeTempReg s = { c with nextTempReg :=
      if s.id.toNat + 1 = c.nextTempReg then c.nextTempReg - 1
      else c.nextTempReg }.emit (.free s) := by
    rw [Comp.freeTempReg, hv, ht]
    rfl
  rw [heq]
  refine ⟨⟨⟨[.free s], rfl, by simp [trackAll, track, hmem]⟩, List.prefix_refl _⟩, ?_, ?_⟩
  · intro id hid hge
    obtain ⟨hne, hid⟩ := Finset.mem_erase.mp hid
    have hlt := h.below id hid hge
    have hne' : id.toNat ≠ s.id.toNat := fun heq => hne (BitVec.eq_of_toNat_eq heq)
    dsimp only [Comp.emit]
    split_ifs <;> omega
  · have := h.first
    dsimp only [Comp.emit]
    split_ifs <;> omega

theorem freeTempReg_of_not (h : s.valid = false ∨ s.isTemp = false) : c.freeTempReg s = c := by
  rw [Comp.freeTempReg]
  rcases h with h | h <;> simp [h]

@[simp] theorem freeTempReg_zero : c.freeTempReg .zero = c := freeTempReg_of_not (.inl rfl)

@[simp] theorem freeOther_zero : c.freeOther .zero s = c := by simp [Comp.freeOther]

/-- `freeOther` of an allocated temporary register that is not the destination. -/
theorem freeOther_tracks {ds : SoftReg} (h : Counts c live) (hv : s.valid = true)
    (ht : s.isTemp = true) (hmem : s.id ∈ live) (hne : s.id ≠ ds.id) :
    Tracks c live (c.freeOther s ds) (live.erase s.id) ∧
      Counts (c.freeOther s ds) (live.erase s.id) := by
  rw [Comp.freeOther, if_pos hne]
  exact freeTempReg_tracks h hv ht hmem

theorem freeOther_self {ds : SoftReg} (h : s.id = ds.id) : c.freeOther s ds = c := by
  simp [Comp.freeOther, h]

@[simp] theorem freeTempReg_taken : (c.freeTempReg s).taken = c.taken := by
  rw [Comp.freeTempReg]
  split_ifs <;> rfl

@[simp] theorem freeOther_taken {ds : SoftReg} : (c.freeOther s ds).taken = c.taken := by
  rw [Comp.freeOther]
  split_ifs <;> simp

@[simp] theorem emit_taken {i : AsmCode} : (c.emit i).taken = c.taken := rfl

@[simp] theorem inst2_taken {inst : Op2} {d l : Leaf} : (c.inst2 inst d l).taken = c.taken := by
  rw [Comp.inst2]
  split_ifs <;> rfl

@[simp] theorem finish_taken {d : Leaf} {ds tofree : SoftReg} :
    (c.finish d ds tofree).2.taken = c.taken := by
  rw [Comp.finish]
  split_ifs <;> simp

theorem newTempReg_taken {k : Kind} : c.taken <+: (c.newTempReg k).2.taken :=
  List.prefix_append _ _

theorem dest1_taken {k : Kind} {dst : Option Leaf} :
    c.taken <+: (c.dest1 k dst s).2.taken := by
  cases dst <;> simp only [Comp.dest1, Comp.fresh] <;> split_ifs <;>
    first | exact List.prefix_refl _ | exact newTempReg_taken

theorem dest2_taken {op : Op3} {k : Kind} {dst : Option Leaf} {s' : SoftReg} :
    c.taken <+: (c.dest2 op k dst s s').2.taken := by
  cases dst <;> simp only [Comp.dest2, Comp.fresh] <;> split_ifs <;>
    first | exact List.prefix_refl _ | exact newTempReg_taken

end Steps

/-! ## Expressions -/

/-- Kinds are valid, and the soft registers are those of the user. -/
def Leaf.Proper (l : Leaf) : Prop :=
  l.kind ≠ .invalid ∧ ∀ s, l = .soft s → s.isTemp = false

/-- The leaves and the kinds of an expression are proper. -/
def Expr.Proper : Expr → Prop
  | leaf l => l.Proper
  | expr1 x _ k => x.Proper ∧ k ≠ .invalid
  | expr2 x y _ k => x.Proper ∧ y.Proper ∧ k ≠ .invalid

/-- The result of an expression is in a temporary register of its own, or in none. -/
def Owns (live live' : Live) (s : SoftReg) : Prop :=
  (s = .zero ∧ live' = live) ∨
    (s.valid = true ∧ s.isTemp = true ∧ s.id ∉ live ∧ live' = insert s.id live)

/-- What `expr1` does, in steps. -/
theorem expr1_eq (x : Expr) (op : ExprOp1) (k : Kind) (dst : Option Leaf) (c : Comp) :
    Comp.expr (.expr1 x op k) dst c =
      let r := Comp.expr x (Comp.dto dst) c
      let d := r.2.dest1 k dst r.1.2
      ((d.2.emit (.op1 op r.1.1 d.1.1)).freeOther r.1.2 d.1.2.1).finish d.1.1 d.1.2.1 d.1.2.2 := rfl

/-- What `expr2` does, in steps. -/
theorem expr2_eq (x y : Expr) (op : Op3) (k : Kind) (dst : Option Leaf) (c : Comp) :
    Comp.expr (.expr2 x y op k) dst c =
      let r := Comp.expr x (Comp.dto dst) c
      let r' := Comp.expr y none r.2
      let d := r'.2.dest2 op k dst r.1.2 r'.1.2
      (((d.2.emit (.op2 op r.1.1 r'.1.1 d.1.1)).freeOther r.1.2 d.1.2.1).freeOther
        r'.1.2 d.1.2.1).finish d.1.1 d.1.2.1 d.1.2.2 := rfl

theorem expr_taken (e : Expr) (dst : Option Leaf) (c : Comp) :
    c.taken <+: (Comp.expr e dst c).2.taken := by
  induction e generalizing dst c with
  | leaf l => exact List.prefix_refl _
  | expr1 x op k ih =>
    rw [expr1_eq]
    simp only [finish_taken, freeOther_taken, emit_taken]
    exact (ih _ c).trans dest1_taken
  | expr2 x y op k ihx ihy =>
    rw [expr2_eq]
    simp only [finish_taken, freeOther_taken, emit_taken]
    exact ((ihx _ c).trans (ihy _ _)).trans dest2_taken

section Exprs

variable {c : Comp} {live live₁ : Live} {k : Kind}

theorem track_operands {i : AsmCode} (hi : ∀ s, i ≠ .alloc s ∧ i ≠ .free s)
    (h : ∀ l ∈ i.operands, l.Usable live) : track live i = some live := by
  cases i with
  | alloc s => exact absurd rfl (hi s).1
  | free s => exact absurd rfl (hi s).2
  | op1 op src dst => exact if_pos h
  | op2 op a b dst => exact if_pos h
  | inst1 inst dst => exact if_pos h
  | inst2 inst src dst => exact if_pos h
  | inst3 inst dst darg src => exact if_pos h

theorem usable_insert {l : Leaf} {id : BitVec 24} (h : l.Usable live) :
    l.Usable (insert id live) := by
  cases l with
  | arg a => trivial
  | soft s => exact fun ht => Finset.mem_insert_of_mem (h ht)

theorem finish_same {s tofree : SoftReg} : c.finish (.soft s) s tofree = ((.soft s, s), c) := by
  simp [Comp.finish]

theorem finish_zero {d : Leaf} {tofree : SoftReg} :
    c.finish d .zero tofree = ((d, .zero), c) := by
  simp [Comp.finish, SoftReg.zero, SoftReg.valid]

/-- What an expression leaves allocated: nothing more if it writes a given soft register, or else at
most its result. -/
structure Result (dst : Option Leaf) (c : Comp) (live : Live) (r : (Leaf × SoftReg) × Comp)
    (live' : Live) : Prop where
  tracks : Tracks c live r.2 live'
  counts : Counts r.2 live'
  usable : r.1.1.Usable live'
  given : (Comp.dsoft dst).valid = true →
    live' = live ∧ (r.1.2 = .zero ∨ r.1.2.id = (Comp.dsoft dst).id)
  owns : (Comp.dsoft dst).valid = false → Owns live live' r.1.2

/-- A destination is a valid soft register, or it is not handed down. -/
theorem dto_cases (dst : Option Leaf) :
    (∃ s, dst = some (.soft s) ∧ s.valid = true ∧ Comp.dsoft dst = s ∧ Comp.dto dst = dst) ∨
      ((Comp.dsoft dst).valid = false ∧ Comp.dto dst = none) := by
  by_cases hv : (Comp.dsoft dst).valid = true
  · left
    cases dst with
    | none => simp [Comp.dsoft, SoftReg.zero, SoftReg.valid] at hv
    | some d =>
      cases d with
      | arg a => simp [Comp.dsoft, SoftReg.zero, SoftReg.valid] at hv
      | soft s => exact ⟨s, rfl, hv, rfl, if_pos hv⟩
  · exact .inr ⟨by simpa using hv, if_neg hv⟩

/-- A given soft register is the destination of `expr1`, in the kind of the expression. -/
theorem dest1_soft {s ssoft : SoftReg} (hv : s.valid = true) :
    c.dest1 k (some (.soft s)) ssoft = ((.soft ⟨s.id, k⟩, ⟨s.id, k⟩, .zero), c) := by
  by_cases hkind : (Leaf.soft s).kind ≠ k
  · simp only [Comp.dest1, if_pos hkind, Comp.dsoft]
    exact if_pos hv
  · have hsk : s.kind = k := not_not.mp hkind
    simp only [Comp.dest1, if_neg hkind, Comp.dsoft]
    rw [← hsk]

/-- The destination of `expr1` without a soft register that is given. -/
theorem dest1_cases {dst : Option Leaf} {ssoft : SoftReg} (hk : k ≠ .invalid)
    (hv : (Comp.dsoft dst).valid = false) :
    (ssoft.valid = true ∧ c.dest1 k dst ssoft = ((.soft ⟨ssoft.id, k⟩, ⟨ssoft.id, k⟩, .zero), c)) ∨
      c.dest1 k dst ssoft = ((.soft (c.newTempReg k).1, (c.newTempReg k).1, (c.newTempReg k).1),
        (c.newTempReg k).2) ∨
      ∃ a, dst = some (.arg a) ∧ c.dest1 k dst ssoft = ((.arg a, .zero, .zero), c) := by
  cases dst with
  | none =>
    by_cases hs : ssoft.valid = true
    · exact .inl ⟨hs, if_pos hs⟩
    · exact .inr (.inl (if_neg hs))
  | some d =>
    by_cases hkind : d.kind ≠ k
    · refine .inr (.inl ?_)
      simp only [Comp.dest1, if_pos hkind, hv]
      rfl
    · cases d with
      | arg a => exact .inr (.inr ⟨a, rfl, if_neg hkind⟩)
      | soft s =>
        exfalso
        have hsk : s.kind = k := not_not.mp hkind
        simp [Comp.dsoft, SoftReg.valid, hsk, hk] at hv

theorem make_valid {id : BitVec 24} (hk : k ≠ .invalid) : (SoftReg.mk id k).valid = true := by
  simpa [SoftReg.valid] using hk

/-- A unary expression over its operand. -/
theorem expr1_result {x : Expr} {op : ExprOp1} {dst : Option Leaf} (hk : k ≠ .invalid)
    (hdst : ∀ d, dst = some d → d.Usable live)
    (hrange : InRange (Comp.expr (.expr1 x op k) dst c).2)
    (hx : ∃ live₁, Result (Comp.dto dst) c live (Comp.expr x (Comp.dto dst) c) live₁) :
    ∃ live', Result dst c live (Comp.expr (.expr1 x op k) dst c) live' := by
  obtain ⟨live₁, hx⟩ := hx
  rw [expr1_eq] at hrange ⊢
  generalize Comp.expr x (Comp.dto dst) c = r at *
  obtain ⟨⟨src, ssoft⟩, c₁⟩ := r
  dsimp only at hrange ⊢
  rcases dto_cases dst with ⟨s, rfl, hv, hds, hto⟩ | ⟨hv, hto⟩
  · -- the given soft register is the destination
    rw [hto] at hx
    obtain ⟨hlive, hsoft⟩ := hx.given (hds ▸ hv)
    rw [hlive] at hx
    have huse : (Leaf.soft ⟨s.id, k⟩).Usable live := fun ht => hdst (.soft s) rfl ht
    have hother : ∀ c' : Comp, c'.freeOther ssoft ⟨s.id, k⟩ = c' := by
      intro c'
      rcases hsoft with hsoft | hsoft
      · rw [show ssoft = .zero from hsoft, freeOther_zero]
      · exact freeOther_self hsoft
    rw [dest1_soft hv, hother]
    dsimp only
    rw [finish_same]
    have hemit : track live (.op1 op src (.soft ⟨s.id, k⟩)) = some live :=
      track_operands (by simp) (by simpa [AsmCode.operands] using ⟨hx.usable, huse⟩)
    exact ⟨live, hx.tracks.trans (tracks_emit hemit), counts_emit hx.counts, huse,
      fun _ => ⟨rfl, .inr rfl⟩, fun hf => by simp [hds, hv] at hf⟩
  · rw [hto] at hx
    have hown := hx.owns rfl
    rcases dest1_cases hk hv with ⟨hs, hdest⟩ | hdest | ⟨a, rfl, hdest⟩
    · -- the temporary register of the operand is the destination
      rw [hdest]
      dsimp only
      rw [freeOther_self (show ssoft.id = (SoftReg.mk ssoft.id k).id from rfl), finish_same]
      rcases hown with ⟨hzero, _⟩ | ⟨_, htemp, hnew, hlive⟩
      · rw [show ssoft = .zero from hzero] at hs
        cases hs
      have huse : (Leaf.soft ⟨ssoft.id, k⟩).Usable live₁ := by
        intro _
        rw [hlive]
        exact Finset.mem_insert_self _ _
      have hemit : track live₁ (.op1 op src (.soft ⟨ssoft.id, k⟩)) = some live₁ :=
        track_operands (by simp) (by simpa [AsmCode.operands] using ⟨hx.usable, huse⟩)
      exact ⟨live₁, hx.tracks.trans (tracks_emit hemit), counts_emit hx.counts, huse,
        fun hf => by simp [hv] at hf, fun _ => .inr ⟨make_valid hk, htemp, hnew, hlive⟩⟩
    · -- a new temporary register is the destination
      rw [hdest] at hrange ⊢
      dsimp only at hrange ⊢
      rw [finish_same] at hrange ⊢
      have hrange' : InRange (c₁.newTempReg k).2 := by
        intro id hid
        exact hrange id (by simpa using hid)
      obtain ⟨hvalid, htemp, hkind, hnew, htracks, hcounts⟩ :=
        newTempReg_tracks hx.counts k hk hrange'
      generalize c₁.newTempReg k = t at *
      obtain ⟨t, c₂⟩ := t
      have huse : (Leaf.soft t).Usable (insert t.id live₁) := fun _ => Finset.mem_insert_self _ _
      have hemit : track (insert t.id live₁) (.op1 op src (.soft t)) = some (insert t.id live₁) :=
        track_operands (by simp)
          (by simpa [AsmCode.operands] using ⟨usable_insert hx.usable, huse⟩)
      have hall := (hx.tracks.trans htracks).trans (tracks_emit hemit)
      rcases hown with ⟨hzero, hlive⟩ | ⟨hs, hstemp, hsnew, hlive⟩
      · rw [show ssoft = .zero from hzero, freeOther_zero]
        exact ⟨_, hall, counts_emit hcounts, huse, fun hf => by simp [hv] at hf,
          fun _ => .inr ⟨hvalid, htemp, hlive ▸ hnew, by rw [hlive]⟩⟩
      · have hne : ssoft.id ≠ t.id := by
          intro heq
          exact hnew (heq ▸ hlive ▸ Finset.mem_insert_self _ _)
        obtain ⟨hfree, hcount⟩ := freeOther_tracks (counts_emit hcounts) hs hstemp
          (by rw [hlive]; exact Finset.mem_insert_of_mem (Finset.mem_insert_self _ _)) hne
        have herase : (insert t.id live₁).erase ssoft.id = insert t.id live := by
          rw [hlive, Finset.erase_insert_of_ne (Ne.symm hne), Finset.erase_insert hsnew]
        rw [herase] at hfree hcount
        refine ⟨_, hall.trans hfree, hcount, fun _ => Finset.mem_insert_self _ _,
          fun hf => by simp [hv] at hf, fun _ => .inr ⟨hvalid, htemp, ?_, rfl⟩⟩
        exact fun hmem => hnew (hlive ▸ Finset.mem_insert_of_mem hmem)
    · -- a register or memory operand is the destination
      rw [hdest]
      dsimp only
      rw [finish_zero]
      have hemit : track live₁ (.op1 op src (.arg a)) = some live₁ :=
        track_operands (by simp) (by simpa [AsmCode.operands, Leaf.Usable] using hx.usable)
      have hall := hx.tracks.trans (tracks_emit hemit)
      rcases hown with ⟨hzero, hlive⟩ | ⟨hs, hstemp, hsnew, hlive⟩
      · rw [show ssoft = .zero from hzero, freeOther_zero]
        exact ⟨_, hall, counts_emit hx.counts, trivial, fun hf => by simp [hv] at hf,
          fun _ => .inl ⟨rfl, hlive⟩⟩
      · have hne : ssoft.id ≠ SoftReg.zero.id := by
          intro heq
          simp only [SoftReg.isTemp, heq] at hstemp
          exact absurd hstemp (by decide)
        obtain ⟨hfree, hcount⟩ := freeOther_tracks (counts_emit hx.counts) hs hstemp
          (by rw [hlive]; exact Finset.mem_insert_self _ _) hne
        rw [hlive, Finset.erase_insert hsnew] at hfree hcount
        rw [hlive] at hall
        exact ⟨_, hall.trans hfree, hcount, trivial, fun hf => by simp [hv] at hf,
          fun _ => .inl ⟨rfl, rfl⟩⟩

theorem Owns.usable {live' : Live} {s : SoftReg} {l : Leaf} (h : Owns live live' s)
    (hl : l.Usable live) : l.Usable live' := by
  rcases h with ⟨_, heq⟩ | ⟨_, _, _, heq⟩
  · exact heq ▸ hl
  · exact heq ▸ usable_insert hl

/-- An owned register is no register that was usable before. -/
theorem Owns.ne {live' : Live} {s t : SoftReg} (h : Owns live live' t) (ht : t.valid = true)
    (hs : (Leaf.soft s).Usable live) : t.id ≠ s.id := by
  rcases h with ⟨rfl, _⟩ | ⟨_, htemp, hnew, _⟩
  · cases ht
  · intro heq
    have hst : s.isTemp = true := by rwa [SoftReg.isTemp, ← heq]
    exact hnew (heq ▸ hs hst)

/-- The allocated registers without that of a result. -/
def less (live : Live) (s : SoftReg) : Live := if s.valid then live.erase s.id else live

@[simp] theorem less_zero : less live .zero = live := rfl

theorem Owns.less {live' : Live} {s : SoftReg} (h : Owns live live' s) : less live' s = live := by
  rcases h with ⟨rfl, rfl⟩ | ⟨hv, _, hnew, rfl⟩
  · rfl
  · rw [OneJit.GoJit.less, if_pos hv, Finset.erase_insert hnew]

theorem Owns.less_insert {live' : Live} {s : SoftReg} {id : BitVec 24} (h : Owns live live' s)
    (hid : id ∉ live') : OneJit.GoJit.less (insert id live') s = insert id live := by
  rcases h with ⟨rfl, rfl⟩ | ⟨hv, _, hnew, rfl⟩
  · rfl
  · have hne : id ≠ s.id := fun heq => hid (heq ▸ Finset.mem_insert_self _ _)
    rw [OneJit.GoJit.less, if_pos hv, Finset.erase_insert_of_ne hne, Finset.erase_insert hnew]

/-- The free of a result that is allocated and is not the destination. -/
theorem freeOther_less {s : SoftReg} (ds : SoftReg) (h : Counts c live)
    (hs : s = .zero ∨ (s.valid = true ∧ s.isTemp = true ∧ s.id ∈ live ∧ s.id ≠ ds.id)) :
    Tracks c live (c.freeOther s ds) (less live s) ∧
      Counts (c.freeOther s ds) (less live s) := by
  rcases hs with rfl | ⟨hv, ht, hmem, hne⟩
  · rw [freeOther_zero, less_zero]
    exact ⟨.refl, h⟩
  · rw [less, if_pos hv]
    exact freeOther_tracks h hv ht hmem hne

/-- A result is allocated, and other than a register that is not. -/
theorem Owns.freeable {live' L : Live} {s ds : SoftReg} (h : Owns live live' s) (hsub : live' ⊆ L)
    (hds : s.valid = true → s.id ≠ ds.id) :
    s = .zero ∨ (s.valid = true ∧ s.isTemp = true ∧ s.id ∈ L ∧ s.id ≠ ds.id) := by
  rcases h with ⟨rfl, _⟩ | ⟨hv, ht, _, rfl⟩
  · exact .inl rfl
  · exact .inr ⟨hv, ht, hsub (Finset.mem_insert_self _ _), hds hv⟩

theorem Owns.subset {live' : Live} {s : SoftReg} (h : Owns live live' s) : live ⊆ live' := by
  rcases h with ⟨_, rfl⟩ | ⟨_, _, _, rfl⟩
  · exact fun _ h => h
  · exact Finset.subset_insert _ _

theorem Owns.mem {live' : Live} {s : SoftReg} (h : Owns live live' s) (hv : s.valid = true) :
    s.id ∈ live' := by
  rcases h with ⟨rfl, _⟩ | ⟨_, _, _, rfl⟩
  · cases hv
  · exact Finset.mem_insert_self _ _

/-- A given soft register is the destination of `expr2`, also of another kind. -/
theorem dest2_soft {op : Op3} {s soft1 soft2 : SoftReg} (hv : s.valid = true) :
    c.dest2 op k (some (.soft s)) soft1 soft2 = ((.soft s, ⟨s.id, k⟩, .zero), c) := by
  by_cases hkind : (Leaf.soft s).kind ≠ k
  · simp only [Comp.dest2, if_pos hkind, Comp.dsoft]
    exact if_pos hv
  · have hsk : s.kind = k := not_not.mp hkind
    simp only [Comp.dest2, if_neg hkind, Comp.dsoft]
    rw [← hsk]

/-- The destination of `expr2` without a soft register that is given. -/
theorem dest2_cases (op : Op3) {dst : Option Leaf} {soft1 soft2 : SoftReg} (hk : k ≠ .invalid)
    (hv : (Comp.dsoft dst).valid = false) :
    (soft1.valid = true ∧
        c.dest2 op k dst soft1 soft2 = ((.soft ⟨soft1.id, k⟩, ⟨soft1.id, k⟩, .zero), c)) ∨
      (soft1.valid = false ∧ soft2.valid = true ∧
        c.dest2 op k dst soft1 soft2 = ((.soft ⟨soft2.id, k⟩, ⟨soft2.id, k⟩, .zero), c)) ∨
      (∃ d, (dst = some d ∧ .soft (c.newTempReg k).1 ≠ d ∨ d = .soft (c.newTempReg k).1) ∧
        c.dest2 op k dst soft1 soft2 = ((d, (c.newTempReg k).1, (c.newTempReg k).1),
          (c.newTempReg k).2)) ∨
      ∃ a, dst = some (.arg a) ∧ c.dest2 op k dst soft1 soft2 = ((.arg a, .zero, .zero), c) := by
  cases dst with
  | none =>
    by_cases hs : soft1.valid = true
    · exact .inl ⟨hs, if_pos hs⟩
    · by_cases hs2 : (soft2.valid && op.isCommutative) = true
      · refine .inr (.inl ⟨by simpa using hs, (Bool.and_eq_true_iff.mp hs2).1, ?_⟩)
        exact (if_neg hs).trans (if_pos hs2)
      · exact .inr (.inr (.inl ⟨_, .inr rfl, (if_neg hs).trans (if_neg hs2)⟩))
  | some d =>
    by_cases hkind : d.kind ≠ k
    · refine .inr (.inr (.inl ⟨d, .inl ⟨rfl, ?_⟩, ?_⟩))
      · rintro rfl
        exact hkind rfl
      · simp only [Comp.dest2, if_pos hkind, hv]
        rfl
    · cases d with
      | arg a => exact .inr (.inr (.inr ⟨a, rfl, if_neg hkind⟩))
      | soft s =>
        exfalso
        have hsk : s.kind = k := not_not.mp hkind
        simp [Comp.dsoft, SoftReg.valid, hsk, hk] at hv

/-- The move at the end, and the free of the temporary register that was the destination. -/
theorem finish_other {d : Leaf} {s tofree : SoftReg} (hv : s.valid = true) (hne : .soft s ≠ d) :
    c.finish d s tofree = ((d, .zero), (c.emit (.inst2 .mov (.soft s) d)).freeTempReg tofree) := by
  rw [Comp.finish, if_pos ⟨hv, hne⟩, Comp.inst2, if_pos (.inr hne)]

/-- A binary expression with a given soft register over its operands. -/
theorem expr2_given {s soft1 soft2 : SoftReg} (op : Op3) {src1 src2 : Leaf} {live₂ : Live}
    (hv : s.valid = true) (hs : (Leaf.soft s).Usable live) (hc : Counts c live₂)
    (h1 : soft1 = .zero ∨ soft1.id = s.id) (hown2 : Owns live live₂ soft2)
    (hsrc1 : src1.Usable live₂) (hsrc2 : src2.Usable live₂) :
    let d := c.dest2 op k (some (.soft s)) soft1 soft2
    let r := (((d.2.emit (.op2 op src1 src2 d.1.1)).freeOther soft1 d.1.2.1).freeOther
        soft2 d.1.2.1).finish d.1.1 d.1.2.1 d.1.2.2
    Tracks c live₂ r.2 live ∧ Counts r.2 live ∧ r.1.1 = .soft s ∧
      (r.1.2 = .zero ∨ r.1.2.id = s.id) := by
  intro d r
  have hsoft1 : ∀ c' : Comp, c'.freeOther soft1 ⟨s.id, k⟩ = c' := by
    intro c'
    rcases h1 with rfl | h1
    · exact freeOther_zero
    · exact freeOther_self h1
  have hemit : track live₂ (.op2 op src1 src2 (.soft s)) = some live₂ :=
    track_operands (by simp)
      (by simpa [AsmCode.operands] using ⟨hsrc1, hsrc2, hown2.usable hs⟩)
  have hfree := freeOther_less ⟨s.id, k⟩ (counts_emit (i := .op2 op src1 src2 (.soft s)) hc)
    (hown2.freeable (fun _ h => h) fun hv2 => hown2.ne hv2 hs)
  rw [hown2.less] at hfree
  have htracks := (tracks_emit hemit).trans hfree.1
  have hr : r = ((c.emit (.op2 op src1 src2 (.soft s))).freeOther soft2 ⟨s.id, k⟩).finish
      (.soft s) ⟨s.id, k⟩ .zero := by
    simp only [r, d, dest2_soft hv, hsoft1]
  rw [hr]
  by_cases hkind : s.kind = k
  · subst hkind
    rw [finish_same]
    exact ⟨htracks, hfree.2, rfl, .inr rfl⟩
  · by_cases hval : k = .invalid
    · subst hval
      have hinv : (SoftReg.mk s.id .invalid).valid = false := rfl
      rw [Comp.finish, if_neg (by simp [hinv])]
      exact ⟨htracks, hfree.2, rfl, .inr rfl⟩
    · have hne : Leaf.soft ⟨s.id, k⟩ ≠ .soft s := by
        intro heq
        exact hkind (congrArg SoftReg.kind (Leaf.soft.inj heq)).symm
      rw [finish_other (make_valid hval) hne, freeTempReg_zero]
      have huse : (Leaf.soft ⟨s.id, k⟩).Usable live := fun ht => hs ht
      have hmov : track live (.inst2 .mov (.soft ⟨s.id, k⟩) (.soft s)) = some live :=
        track_operands (by simp) (by simpa [AsmCode.operands] using ⟨huse, hs⟩)
      exact ⟨htracks.trans (tracks_emit hmov), counts_emit hfree.2, rfl, .inl rfl⟩

theorem less_comm (s t : SoftReg) : less (less live s) t = less (less live t) s := by
  unfold less
  split_ifs
  · exact Finset.erase_right_comm
  all_goals rfl

theorem Owns.ne_zero {live' : Live} {s : SoftReg} (h : Owns live live' s) (hv : s.valid = true) :
    s.id ≠ SoftReg.zero.id :=
  h.ne hv fun ht => absurd ht (by decide)

/-- Both results of the operands are freed. -/
theorem freeOther_both {L live₂ : Live} {soft1 soft2 : SoftReg} (ds : SoftReg) (hc : Counts c L)
    (h1 : Owns live live₁ soft1) (h2 : Owns live₁ live₂ soft2) (hsub : live₂ ⊆ L)
    (hne1 : soft1.valid = true → soft1.id ≠ ds.id) (hne2 : soft2.valid = true → soft2.id ≠ ds.id) :
    Tracks c L ((c.freeOther soft1 ds).freeOther soft2 ds) (less (less L soft2) soft1) ∧
      Counts ((c.freeOther soft1 ds).freeOther soft2 ds) (less (less L soft2) soft1) := by
  obtain ⟨htracks, hcounts⟩ := freeOther_less ds hc (h1.freeable (h2.subset.trans hsub) hne1)
  have hfree2 : soft2 = .zero ∨ (soft2.valid = true ∧ soft2.isTemp = true ∧
      soft2.id ∈ less L soft1 ∧ soft2.id ≠ ds.id) := by
    rcases h2.freeable hsub hne2 with h | ⟨hv, ht, hmem, hds⟩
    · exact .inl h
    · refine .inr ⟨hv, ht, ?_, hds⟩
      unfold less
      split_ifs with hv1
      · exact Finset.mem_erase.mpr ⟨h2.ne hv fun _ => h1.mem hv1, hmem⟩
      · exact hmem
  have hfree := freeOther_less ds hcounts hfree2
  rw [less_comm]
  exact ⟨htracks.trans hfree.1, hfree.2⟩

/-- A binary expression over its operands. -/
theorem expr2_result {x y : Expr} {op : Op3} {dst : Option Leaf} (hk : k ≠ .invalid)
    (hdst : ∀ d, dst = some d → d.Usable live)
    (hrange : InRange (Comp.expr (.expr2 x y op k) dst c).2)
    (hx : ∃ live₁, Result (Comp.dto dst) c live (Comp.expr x (Comp.dto dst) c) live₁ ∧
      ∃ live₂, Result none (Comp.expr x (Comp.dto dst) c).2 live₁
        (Comp.expr y none (Comp.expr x (Comp.dto dst) c).2) live₂) :
    ∃ live', Result dst c live (Comp.expr (.expr2 x y op k) dst c) live' := by
  obtain ⟨live₁, hx, live₂, hy⟩ := hx
  rw [expr2_eq] at hrange ⊢
  generalize Comp.expr x (Comp.dto dst) c = r at *
  obtain ⟨⟨src1, soft1⟩, c₁⟩ := r
  dsimp only at hrange hx hy ⊢
  generalize Comp.expr y none c₁ = r' at *
  obtain ⟨⟨src2, soft2⟩, c₂⟩ := r'
  dsimp only at hrange hy ⊢
  have hown2 : Owns live₁ live₂ soft2 := hy.owns rfl
  have hsrc1 : src1.Usable live₂ := hown2.usable hx.usable
  have hsrc2 : src2.Usable live₂ := hy.usable
  have hxy := hx.tracks.trans hy.tracks
  rcases dto_cases dst with ⟨s, rfl, hv, hds, hto⟩ | ⟨hv, hto⟩
  · -- the given soft register is the destination
    rw [hto] at hx
    obtain ⟨hlive, hsoft⟩ := hx.given (hds ▸ hv)
    rw [hlive] at hown2
    rw [hds] at hsoft
    obtain ⟨htracks, hcounts, hleaf, hres⟩ :=
      expr2_given (k := k) op hv (hdst _ rfl) hy.counts hsoft hown2 hsrc1 hsrc2
    refine ⟨live, hxy.trans htracks, hcounts, ?_, fun _ => ⟨rfl, hds.symm ▸ hres⟩,
      fun hf => by simp [hds, hv] at hf⟩
    rw [hleaf]
    exact hdst _ rfl
  · rw [hto] at hx
    have hown1 : Owns live live₁ soft1 := hx.owns rfl
    have hnot : ∀ P : Prop, (Comp.dsoft dst).valid = true → P := by
      intro P hf
      simp [hv] at hf
    rcases dest2_cases op hk hv with ⟨hs, hdest⟩ | ⟨hs1, hs, hdest⟩ | ⟨d, hd, hdest⟩ |
      ⟨a, rfl, hdest⟩
    · -- the temporary register of the left operand is the destination
      rw [hdest]
      dsimp only
      rw [freeOther_self (show soft1.id = (SoftReg.mk soft1.id k).id from rfl), finish_same]
      have hmem : soft1.id ∈ live₁ := hown1.mem hs
      have huse : (Leaf.soft ⟨soft1.id, k⟩).Usable live₂ := fun _ => hown2.subset hmem
      have hemit : track live₂ (.op2 op src1 src2 (.soft ⟨soft1.id, k⟩)) = some live₂ :=
        track_operands (by simp) (by simpa [AsmCode.operands] using ⟨hsrc1, hsrc2, huse⟩)
      have hfree := freeOther_less ⟨soft1.id, k⟩
        (counts_emit (i := .op2 op src1 src2 (.soft ⟨soft1.id, k⟩)) hy.counts) (hown2.freeable (fun _ h => h)
          fun hv2 => hown2.ne hv2 (s := ⟨soft1.id, k⟩) fun _ => hmem)
      rw [hown2.less] at hfree
      refine ⟨live₁, (hxy.trans (tracks_emit hemit)).trans hfree.1, hfree.2, fun _ => hmem,
        hnot _, fun _ => ?_⟩
      rcases hown1 with ⟨rfl, _⟩ | ⟨_, ht, hnew, hlive⟩
      · cases hs
      · exact .inr ⟨make_valid hk, ht, hnew, hlive⟩
    · -- the temporary register of the right operand is the destination
      rw [hdest]
      rcases hown1 with ⟨rfl, rfl⟩ | ⟨hs1', _⟩
      · dsimp only
        rw [freeOther_zero, freeOther_self (show soft2.id = (SoftReg.mk soft2.id k).id from rfl),
          finish_same]
        have huse : (Leaf.soft ⟨soft2.id, k⟩).Usable live₂ := fun _ => hown2.mem hs
        have hemit : track live₂ (.op2 op src1 src2 (.soft ⟨soft2.id, k⟩)) = some live₂ :=
          track_operands (by simp) (by simpa [AsmCode.operands] using ⟨hsrc1, hsrc2, huse⟩)
        refine ⟨live₂, hxy.trans (tracks_emit hemit), counts_emit hy.counts, huse, hnot _,
          fun _ => ?_⟩
        rcases hown2 with ⟨rfl, _⟩ | ⟨_, ht, hnew, hlive⟩
        · cases hs
        · exact .inr ⟨make_valid hk, ht, hnew, hlive⟩
      · rw [hs1'] at hs1
        cases hs1
    · -- a new temporary register is the destination, and is moved to a given one
      rw [hdest] at hrange ⊢
      dsimp only at hrange ⊢
      have hrange' : InRange (c₂.newTempReg k).2 := by
        intro id hid
        exact hrange id (by simpa using hid)
      obtain ⟨hvalid, htemp, _, hnew, htracks, hcounts⟩ :=
        newTempReg_tracks hy.counts k hk hrange'
      have hdne := hd
      generalize c₂.newTempReg k = t at *
      obtain ⟨t, c₃⟩ := t
      dsimp only at *
      have hmem : t.id ∈ insert t.id live₂ := Finset.mem_insert_self _ _
      have hduse : d.Usable (insert t.id live₂) := by
        rcases hd with ⟨hd, _⟩ | rfl
        · exact usable_insert (hown2.usable (hown1.usable (hdst d hd)))
        · exact fun _ => hmem
      have hemit : track (insert t.id live₂) (.op2 op src1 src2 d) = some (insert t.id live₂) :=
        track_operands (by simp) (by simpa [AsmCode.operands] using
          ⟨usable_insert hsrc1, usable_insert hsrc2, hduse⟩)
      have hfree := freeOther_both t (counts_emit (i := .op2 op src1 src2 d) hcounts)
        hown1 hown2 (Finset.subset_insert _ _)
        (fun hv1 heq => hnew (heq ▸ hown2.subset (hown1.mem hv1)))
        (fun hv2 heq => hnew (heq ▸ hown2.mem hv2))
      have hnew1 : t.id ∉ live₁ := fun h => hnew (hown2.subset h)
      have hnew0 : t.id ∉ live := fun h => hnew1 (hown1.subset h)
      rw [hown2.less_insert hnew, hown1.less_insert hnew1] at hfree
      have hall := ((hxy.trans htracks).trans (tracks_emit hemit)).trans hfree.1
      have hmem' : t.id ∈ insert t.id live := Finset.mem_insert_self _ _
      rcases hd with ⟨hd, hne⟩ | rfl
      · rw [finish_other hvalid hne]
        have hmov : track (insert t.id live) (.inst2 .mov (.soft t) d) =
            some (insert t.id live) :=
          track_operands (by simp) (by simpa [AsmCode.operands] using
            ⟨fun _ => hmem', usable_insert (hdst d hd)⟩)
        have hback := freeTempReg_tracks (counts_emit (i := .inst2 .mov (.soft t) d) hfree.2)
          hvalid htemp hmem'
        rw [Finset.erase_insert hnew0] at hback
        exact ⟨live, (hall.trans (tracks_emit hmov)).trans hback.1, hback.2, hdst d hd, hnot _,
          fun _ => .inl ⟨rfl, rfl⟩⟩
      · rw [finish_same]
        exact ⟨_, hall, hfree.2, fun _ => hmem', hnot _,
          fun _ => .inr ⟨hvalid, htemp, hnew0, rfl⟩⟩
    · -- a register or memory operand is the destination
      rw [hdest]
      dsimp only
      rw [finish_zero]
      have hemit : track live₂ (.op2 op src1 src2 (.arg a)) = some live₂ :=
        track_operands (by simp)
          (by simpa [AsmCode.operands, Leaf.Usable] using ⟨hsrc1, hsrc2⟩)
      have hfree := freeOther_both .zero
        (counts_emit (i := .op2 op src1 src2 (.arg a)) hy.counts) hown1 hown2 (fun _ h => h)
        hown1.ne_zero hown2.ne_zero
      rw [hown2.less, hown1.less] at hfree
      exact ⟨live, (hxy.trans (tracks_emit hemit)).trans hfree.1, hfree.2, trivial, hnot _,
        fun _ => .inl ⟨rfl, rfl⟩⟩

/-- Every expression leaves at most its result allocated. -/
theorem expr_result {e : Expr} (he : e.Proper) (dst : Option Leaf) (c : Comp) (live : Live)
    (hdst : ∀ d, dst = some d → d.Usable live) (hc : Counts c live)
    (hrange : InRange (Comp.expr e dst c).2) :
    ∃ live', Result dst c live (Comp.expr e dst c) live' := by
  induction e generalizing dst c live with
  | leaf l =>
    refine ⟨live, .refl, hc, ?_, fun _ => ⟨rfl, .inl rfl⟩, fun _ => .inl ⟨rfl, rfl⟩⟩
    cases l with
    | arg a => trivial
    | soft s =>
      intro ht
      rw [he.2 s rfl] at ht
      cases ht
  | expr1 x op k ih =>
    have hto : ∀ d, Comp.dto dst = some d → d.Usable live := by
      intro d hd
      rcases dto_cases dst with ⟨_, _, _, _, heq⟩ | ⟨_, heq⟩
      · exact hdst d (heq ▸ hd)
      · rw [heq] at hd
        cases hd
    refine expr1_result he.2 hdst hrange (ih he.1 _ c live hto hc ?_)
    intro id hid
    refine hrange id ?_
    rw [expr1_eq]
    simp only [finish_taken, freeOther_taken, emit_taken]
    exact dest1_taken.subset hid
  | expr2 x y op k ihx ihy =>
    have hto : ∀ d, Comp.dto dst = some d → d.Usable live := by
      intro d hd
      rcases dto_cases dst with ⟨_, _, _, _, heq⟩ | ⟨_, heq⟩
      · exact hdst d (heq ▸ hd)
      · rw [heq] at hd
        cases hd
    have hrange2 : InRange (Comp.expr y none (Comp.expr x (Comp.dto dst) c).2).2 := by
      intro id hid
      refine hrange id ?_
      rw [expr2_eq]
      simp only [finish_taken, freeOther_taken, emit_taken]
      exact dest2_taken.subset hid
    have hrange1 : InRange (Comp.expr x (Comp.dto dst) c).2 :=
      fun id hid => hrange2 id ((expr_taken y none _).subset hid)
    obtain ⟨live₁, hx⟩ := ihx he.1 _ c live hto hc hrange1
    obtain ⟨live₂, hy⟩ := ihy he.2.1 none _ live₁ (fun d hd => by cases hd) hx.counts hrange2
    exact expr2_result he.2.2 hdst hrange ⟨live₁, hx, live₂, hy⟩

/-- Without a destination the result is a leaf or a soft register. -/
theorem expr_none (e : Expr) (c : Comp) :
    (∃ l, e = .leaf l ∧ Comp.expr e none c = ((l, .zero), c)) ∨
      (Comp.expr e none c).1.1 = .soft (Comp.expr e none c).1.2 := by
  cases e with
  | leaf l => exact .inl ⟨l, rfl, rfl⟩
  | expr1 x op k =>
    right
    rw [expr1_eq]
    generalize Comp.expr x (Comp.dto none) c = r
    dsimp only [Comp.dest1, Comp.fresh]
    split_ifs <;> simp [finish_same]
  | expr2 x y op k =>
    right
    rw [expr2_eq]
    generalize Comp.expr y none (Comp.expr x (Comp.dto none) c).2 = r
    dsimp only [Comp.dest2, Comp.fresh]
    split_ifs <;> simp [finish_same]

end Exprs

/-! ## Statements -/

/-- The operands of a statement are proper. -/
def Stmt.Proper : Stmt → Prop
  | stmt1 _ dst => dst.Proper
  | stmt2 _ dst src => dst.Proper ∧ src.Proper
  | stmt3 _ dst darg src => dst.Proper ∧ darg.Proper ∧ src.Proper
  | stmtN dst src => (∀ x ∈ dst, x.Proper) ∧ ∀ x ∈ src, x.Proper

section Stmts

variable {c c' : Comp} {live live₁ live₂ : Live}

theorem tracks_inst2 (inst : Op2) {d l : Leaf} (hd : d.Usable live) (hl : l.Usable live) :
    Tracks c live (c.inst2 inst d l) live := by
  rw [Comp.inst2]
  split_ifs
  · exact tracks_emit (track_operands (by simp) (by simpa [AsmCode.operands] using ⟨hl, hd⟩))
  · exact .refl

theorem counts_inst2 {inst : Op2} {d l : Leaf} (h : Counts c live) :
    Counts (c.inst2 inst d l) live := by
  rw [Comp.inst2]
  split_ifs
  · exact counts_emit h
  · exact h

/-- The free of a result that is allocated. -/
theorem freeTempReg_less {s : SoftReg} (h : Counts c live)
    (hs : s = .zero ∨ (s.valid = true ∧ s.isTemp = true ∧ s.id ∈ live)) :
    Tracks c live (c.freeTempReg s) (less live s) ∧ Counts (c.freeTempReg s) (less live s) := by
  rcases hs with rfl | ⟨hv, ht, hmem⟩
  · rw [freeTempReg_zero, less_zero]
    exact ⟨.refl, h⟩
  · rw [less, if_pos hv]
    exact freeTempReg_tracks h hv ht hmem

theorem Owns.held {live' L : Live} {s : SoftReg} (h : Owns live live' s) (hsub : live' ⊆ L) :
    s = .zero ∨ (s.valid = true ∧ s.isTemp = true ∧ s.id ∈ L) := by
  rcases h with ⟨rfl, _⟩ | ⟨hv, ht, _, rfl⟩
  · exact .inl rfl
  · exact .inr ⟨hv, ht, hsub (Finset.mem_insert_self _ _)⟩

/-- The free of the last result. -/
theorem freeTempReg_owned {s : SoftReg} (hc : Counts c live₁) (h : Owns live live₁ s) :
    Tracks c live₁ (c.freeTempReg s) live ∧ Counts (c.freeTempReg s) live := by
  have hfree := freeTempReg_less hc (h.held fun _ h => h)
  rwa [h.less] at hfree

/-- The free of an earlier result. -/
theorem held_less {L : Live} {s t : SoftReg} (ht : Owns live₁ live₂ t) (hs : Owns live live₁ s)
    (hsub : live₂ ⊆ L) :
    t = .zero ∨ (t.valid = true ∧ t.isTemp = true ∧ t.id ∈ less L s) := by
  rcases ht.held hsub with h | ⟨hv, htemp, hmem⟩
  · exact .inl h
  · refine .inr ⟨hv, htemp, ?_⟩
    unfold less
    split_ifs with hvs
    · exact Finset.mem_erase.mpr ⟨ht.ne hv fun _ => hs.mem hvs, hmem⟩
    · exact hmem

/-- The free of two results, from the first one on. -/
theorem free_two {s₁ s₂ : SoftReg} (hc : Counts c live₂) (own1 : Owns live live₁ s₁)
    (own2 : Owns live₁ live₂ s₂) :
    Tracks c live₂ ((c.freeTempReg s₁).freeTempReg s₂) live ∧
      Counts ((c.freeTempReg s₁).freeTempReg s₂) live := by
  have free1 := freeTempReg_less hc (own1.held own2.subset)
  have free2 := freeTempReg_less free1.2 (held_less own2 own1 fun _ h => h)
  rw [less_comm, own2.less, own1.less] at free2
  exact ⟨free1.1.trans free2.1, free2.2⟩

/-- The free of three results, from the first one on. -/
theorem free_three {s₁ s₂ s₃ : SoftReg} {live₃ : Live} (hc : Counts c live₃)
    (own1 : Owns live live₁ s₁) (own2 : Owns live₁ live₂ s₂) (own3 : Owns live₂ live₃ s₃) :
    Tracks c live₃ (((c.freeTempReg s₁).freeTempReg s₂).freeTempReg s₃) live ∧
      Counts (((c.freeTempReg s₁).freeTempReg s₂).freeTempReg s₃) live := by
  have free1 := freeTempReg_less hc (own1.held (own2.subset.trans own3.subset))
  have free2 := freeTempReg_less free1.2 (held_less own2 own1 own3.subset)
  have hmem : s₃ = .zero ∨ (s₃.valid = true ∧ s₃.isTemp = true ∧
      s₃.id ∈ less (less live₃ s₁) s₂) := by
    rcases own3.held fun _ h => h with h | ⟨hv, ht, hmem⟩
    · exact .inl h
    · refine .inr ⟨hv, ht, ?_⟩
      unfold less
      split_ifs with h2 h1 h1
      · exact Finset.mem_erase.mpr ⟨own3.ne hv fun _ => own2.mem h2,
          Finset.mem_erase.mpr ⟨own3.ne hv fun _ => own2.subset (own1.mem h1), hmem⟩⟩
      · exact Finset.mem_erase.mpr ⟨own3.ne hv fun _ => own2.mem h2, hmem⟩
      · exact Finset.mem_erase.mpr ⟨own3.ne hv fun _ => own2.subset (own1.mem h1), hmem⟩
      · exact hmem
  have free3 := freeTempReg_less free2.2 hmem
  have hall : less (less (less live₃ s₁) s₂) s₃ = live := by
    rw [less_comm s₂ s₃, less_comm s₁ s₃, own3.less, less_comm, own2.less, own1.less]
  rw [hall] at free3
  exact ⟨(free1.1.trans free2.1).trans free3.1, free3.2⟩

/-- `Stmt1` frees what it allocates. -/
theorem stmt1_tracks {inst : Option Op1} {dst : Expr} (hp : dst.Proper) (hc : Counts c live)
    (h : c.stmt1 inst dst = .ok c') (hr : InRange c') : Tracks c live c' live ∧ Counts c' live := by
  have hrange : InRange (Comp.expr dst none c).2 := by
    intro id hid
    refine hr id ?_
    cases inst with
    | none =>
      cases h
      simpa using hid
    | some inst =>
      simp only [Comp.stmt1, bind, Except.bind] at h
      split at h
      · cases h
      · cases h
        simpa using hid
  obtain ⟨live₁, hres⟩ := expr_result hp none c live (fun d hd => by cases hd) hc hrange
  have hown := hres.owns rfl
  cases inst with
  | none =>
    cases h
    obtain ⟨htracks, hcounts⟩ := freeTempReg_owned hres.counts hown
    exact ⟨hres.tracks.trans htracks, hcounts⟩
  | some inst =>
    simp only [Comp.stmt1, bind, Except.bind] at h
    split at h
    · cases h
    · cases h
      have hemit : track live₁ (.inst1 inst (Comp.expr dst none c).1.1) = some live₁ :=
        track_operands (by simp) (by simpa [AsmCode.operands] using hres.usable)
      obtain ⟨htracks, hcounts⟩ := freeTempReg_owned (counts_emit hres.counts) hown
      exact ⟨(hres.tracks.trans (tracks_emit hemit)).trans htracks, hcounts⟩

/-- `Stmt3` frees what it allocates. -/
theorem stmt3_tracks {inst : Op3} {dst darg src : Expr} (hp : (Stmt.stmt3 inst dst darg src).Proper)
    (hc : Counts c live) (h : c.stmt3 inst dst darg src = .ok c') (hr : InRange c') :
    Tracks c live c' live ∧ Counts c' live := by
  cases h
  have hr3 : InRange (Comp.expr src none (Comp.expr darg none (Comp.expr dst none c).2).2).2 :=
    fun id hid => hr id (by simpa using hid)
  have hr2 : InRange (Comp.expr darg none (Comp.expr dst none c).2).2 :=
    fun id hid => hr3 id ((expr_taken src none _).subset hid)
  have hr1 : InRange (Comp.expr dst none c).2 :=
    fun id hid => hr2 id ((expr_taken darg none _).subset hid)
  have hnone : ∀ (L : Live) (d : Leaf), none = some d → d.Usable L := fun L d hd => by cases hd
  obtain ⟨live₁, h1⟩ := expr_result hp.1 none c live (hnone _) hc hr1
  obtain ⟨live₂, h2⟩ := expr_result hp.2.1 none _ live₁ (hnone _) h1.counts hr2
  obtain ⟨live₃, h3⟩ := expr_result hp.2.2 none _ live₂ (hnone _) h2.counts hr3
  have own1 := h1.owns rfl
  have own2 := h2.owns rfl
  have own3 := h3.owns rfl
  have hemit : track live₃ (.inst3 inst (Comp.expr dst none c).1.1
      (Comp.expr darg none (Comp.expr dst none c).2).1.1
      (Comp.expr src none (Comp.expr darg none (Comp.expr dst none c).2).2).1.1) = some live₃ :=
    track_operands (by simp) (by simpa [AsmCode.operands] using
      ⟨own3.usable (own2.usable h1.usable), own3.usable h2.usable, h3.usable⟩)
  have hall := ((h1.tracks.trans h2.tracks).trans h3.tracks).trans (tracks_emit hemit)
  exact ⟨hall.trans (free_three (counts_emit h3.counts) own1 own2 own3).1,
    (free_three (counts_emit h3.counts) own1 own2 own3).2⟩

/-- What `Stmt2` does, in steps. -/
theorem stmt2_ok {inst : Op2} {tdst tsrc : Expr} (h : c.stmt2 inst tdst tsrc = .ok c') :
    let d := Comp.expr tdst none c
    let r := Comp.expr tsrc (if inst = .mov then some d.1.1 else none) d.2
    c' = ((r.2.inst2 inst d.1.1 r.1.1).freeTempReg d.1.2).freeOther r.1.2 d.1.2 := by
  simp only [Comp.stmt2, bind, Except.bind] at h
  split at h
  · cases h
  · cases h
    rfl

theorem freeOther_owned {s₁ s₂ : SoftReg} (own1 : Owns live live₁ s₁) (own2 : Owns live₁ live₂ s₂) :
    c.freeOther s₂ s₁ = c.freeTempReg s₂ := by
  by_cases hv : s₂.valid = true
  · refine if_pos ?_
    rcases own1 with ⟨rfl, _⟩ | ⟨hv1, ht1, hnew, rfl⟩
    · exact own2.ne_zero hv
    · exact own2.ne hv fun _ => Finset.mem_insert_self _ _
  · rw [freeTempReg_of_not (.inl (by simpa using hv)), Comp.freeOther,
      freeTempReg_of_not (.inl (by simpa using hv)), ite_self]

/-- The destination of a plain assignment that is handed down is freed once. -/
theorem freeOther_given {tdst : Expr} {s ssoft : SoftReg} (hp : tdst.Proper)
    (hd : (Comp.expr tdst none c).1.1 = .soft s) (hs : ssoft = .zero ∨ ssoft.id = s.id) :
    c'.freeOther ssoft (Comp.expr tdst none c).1.2 = c' := by
  rcases hs with rfl | hs
  · exact freeOther_zero
  rcases expr_none tdst c with ⟨l, rfl, heq⟩ | heq
  · rw [heq] at hd
    have hst : s.isTemp = false := hp.2 s hd
    have hsoft : ssoft.isTemp = false := by rwa [SoftReg.isTemp, hs]
    rw [Comp.freeOther, freeTempReg_of_not (.inr hsoft), ite_self]
  · rw [hd] at heq
    rw [← Leaf.soft.inj heq]
    exact freeOther_self hs

/-- `Stmt2` frees what it allocates. -/
theorem stmt2_tracks {inst : Op2} {dst src : Expr} (hp : (Stmt.stmt2 inst dst src).Proper)
    (hc : Counts c live) (h : c.stmt2 inst dst src = .ok c') (hr : InRange c') :
    Tracks c live c' live ∧ Counts c' live := by
  have heq := stmt2_ok h
  dsimp only at heq
  rw [heq] at hr ⊢
  have hr2 : InRange (Comp.expr src (if inst = .mov then some (Comp.expr dst none c).1.1 else none)
      (Comp.expr dst none c).2).2 := fun id hid => hr id (by simpa using hid)
  have hr1 : InRange (Comp.expr dst none c).2 :=
    fun id hid => hr2 id ((expr_taken src _ _).subset hid)
  obtain ⟨live₁, h1⟩ := expr_result hp.1 none c live (fun d hd => by cases hd) hc hr1
  have own1 := h1.owns rfl
  generalize hto : (if inst = .mov then some (Comp.expr dst none c).1.1 else none) = dto at *
  have hdto : ∀ d, dto = some d → d = (Comp.expr dst none c).1.1 := by
    intro d hd
    rw [← hto] at hd
    split_ifs at hd
    exact (Option.some.inj hd).symm
  obtain ⟨live₂, h2⟩ := expr_result hp.2 dto _ live₁ (fun d hd => hdto d hd ▸ h1.usable)
    h1.counts hr2
  by_cases hv : (Comp.dsoft dto).valid = true
  · rcases dto_cases dto with ⟨s, rfl, _, hs, _⟩ | ⟨hv', _⟩
    · obtain ⟨rfl, hsoft⟩ := h2.given hv
      rw [hs] at hsoft
      rw [freeOther_given hp.1 (hdto _ rfl).symm hsoft]
      have hinst := h1.tracks.trans (h2.tracks.trans (tracks_inst2 inst
        h1.usable h2.usable))
      exact ⟨hinst.trans (freeTempReg_owned (counts_inst2 h2.counts) own1).1,
        (freeTempReg_owned (counts_inst2 h2.counts) own1).2⟩
    · rw [hv'] at hv
      cases hv
  · have own2 := h2.owns (by simpa using hv)
    rw [freeOther_owned own1 own2]
    have hinst := h1.tracks.trans (h2.tracks.trans (tracks_inst2 inst
      (own2.usable h1.usable) h2.usable))
    exact ⟨hinst.trans (free_two (counts_inst2 h2.counts) own1 own2).1,
      (free_two (counts_inst2 h2.counts) own1 own2).2⟩

/-- An operand of `StmtN`: one of the user, or a temporary register of its own. -/
def OwnsLeaf (live live' : Live) (l : Leaf) : Prop :=
  (live' = live ∧ ∀ s, l = .soft s → s.isTemp = false) ∨ ∃ s, l = .soft s ∧ Owns live live' s

/-- Operands of `StmtN`, each allocated after the ones before it. -/
inductive OwnsAll : Live → Live → List Leaf → Prop
  | nil (live : Live) : OwnsAll live live []
  | cons {live live₁ live' : Live} {l : Leaf} {ls : List Leaf} :
    OwnsLeaf live live₁ l → OwnsAll live₁ live' ls → OwnsAll live live' (l :: ls)

theorem OwnsLeaf.usable_mono {l l' : Leaf} (h : OwnsLeaf live live₁ l) (hl : l'.Usable live) :
    l'.Usable live₁ := by
  rcases h with ⟨rfl, _⟩ | ⟨s, _, hs⟩
  · exact hl
  · exact hs.usable hl

theorem OwnsAll.usable_mono {ls : List Leaf} {l : Leaf} (h : OwnsAll live live₁ ls)
    (hl : l.Usable live) : l.Usable live₁ := by
  induction h with
  | nil live => exact hl
  | cons h _ ih => exact ih (h.usable_mono hl)

theorem OwnsLeaf.usable {l : Leaf} (h : OwnsLeaf live live₁ l) : l.Usable live₁ := by
  rcases h with ⟨rfl, htemp⟩ | ⟨s, rfl, hs⟩
  · cases l with
    | arg a => trivial
    | soft s =>
      intro ht
      rw [htemp s rfl] at ht
      cases ht
  · rcases hs with ⟨rfl, rfl⟩ | ⟨_, _, _, rfl⟩
    · exact fun ht => absurd ht (by decide)
    · exact fun _ => Finset.mem_insert_self _ _

theorem OwnsAll.usable {ls : List Leaf} (h : OwnsAll live live₁ ls) :
    ∀ l ∈ ls, l.Usable live₁ := by
  induction h with
  | nil live => simp
  | cons h hs ih =>
    intro l hl
    rcases List.mem_cons.mp hl with rfl | hl
    · exact hs.usable_mono h.usable
    · exact ih l hl

/-- An expression without a destination. -/
theorem expr_ownsLeaf {e : Expr} (he : e.Proper) (hc : Counts c live)
    (hr : InRange (Comp.expr e none c).2) :
    ∃ live', Tracks c live (Comp.expr e none c).2 live' ∧ Counts (Comp.expr e none c).2 live' ∧
      OwnsLeaf live live' (Comp.expr e none c).1.1 := by
  obtain ⟨live', h⟩ := expr_result he none c live (fun d hd => by cases hd) hc hr
  refine ⟨live', h.tracks, h.counts, ?_⟩
  have hown := h.owns rfl
  rcases expr_none e c with ⟨l, rfl, heq⟩ | heq
  · rw [heq] at hown ⊢
    rcases hown with ⟨_, hlive⟩ | ⟨hv, _⟩
    · exact .inl ⟨hlive, he.2⟩
    · cases hv
  · exact .inr ⟨_, heq, hown⟩

/-- What `StmtN` does with a destination. -/
theorem dests_cons {x : Expr} {xs : List Expr} {es : List Leaf}
    (h : Comp.dests (x :: xs) c = .ok (es, c')) :
    ∃ es', Comp.dests xs (Comp.expr x none c).2 = .ok (es', c') ∧
      es = (Comp.expr x none c).1.1 :: es' := by
  simp only [Comp.dests, bind, Except.bind] at h
  split at h
  · cases h
  · split at h
    · cases h
    · next r heq =>
      cases h
      exact ⟨_, heq, rfl⟩

theorem dests_taken {xs : List Expr} {es : List Leaf} (h : Comp.dests xs c = .ok (es, c')) :
    c.taken <+: c'.taken := by
  induction xs generalizing c es with
  | nil =>
    cases h
    exact List.prefix_refl _
  | cons x xs ih =>
    obtain ⟨es', hxs, _⟩ := dests_cons h
    exact (expr_taken x none c).trans (ih hxs)

/-- The destinations of `StmtN`. -/
theorem dests_tracks {xs : List Expr} {es : List Leaf} (hp : ∀ x ∈ xs, x.Proper)
    (hc : Counts c live) (h : Comp.dests xs c = .ok (es, c')) (hr : InRange c') :
    ∃ live', Tracks c live c' live' ∧ Counts c' live' ∧ OwnsAll live live' es := by
  induction xs generalizing c live es with
  | nil =>
    cases h
    exact ⟨live, .refl, hc, .nil live⟩
  | cons x xs ih =>
    obtain ⟨es', hxs, rfl⟩ := dests_cons h
    have hr1 : InRange (Comp.expr x none c).2 := fun id hid => hr id ((dests_taken hxs).subset hid)
    obtain ⟨live₁, htracks, hcounts, hown⟩ := expr_ownsLeaf (hp x (by simp)) hc hr1
    obtain ⟨live', htracks', hcounts', hall⟩ := ih (fun y hy => hp y (by simp [hy])) hcounts hxs
    exact ⟨live', htracks.trans htracks', hcounts', .cons hown hall⟩

/-- A source of `StmtN` that is not copied, and one that is. -/
theorem source_cases (x : Expr) (c : Comp) :
    (∀ m, x ≠ .leaf (.arg (.mem m))) ∧
        Comp.source x c = ((Comp.expr x none c).1.1, (Comp.expr x none c).2) ∨
      ∃ m, x = .leaf (.arg (.mem m)) ∧
        Comp.source x c = (.soft (c.newTempReg m.reg.kind).1,
          (c.newTempReg m.reg.kind).2.inst2 .mov (.soft (c.newTempReg m.reg.kind).1)
            (.arg (.mem m))) := by
  rcases expr_none x c with ⟨l, rfl, _⟩ | heq
  · cases l with
    | soft s => exact .inl ⟨by simp, rfl⟩
    | arg a =>
      cases a with
      | mem m => exact .inr ⟨m, rfl, rfl⟩
      | const v => exact .inl ⟨by simp, rfl⟩
      | reg r => exact .inl ⟨by simp, rfl⟩
  · left
    refine ⟨fun m hm => ?_, ?_⟩
    · subst hm
      cases heq
    unfold Comp.source
    generalize Comp.expr x none c = r at *
    obtain ⟨⟨e, s⟩, c₁⟩ := r
    dsimp only at heq ⊢
    rw [heq]

theorem source_taken (x : Expr) (c : Comp) : c.taken <+: (Comp.source x c).2.taken := by
  rcases source_cases x c with ⟨_, heq⟩ | ⟨m, _, heq⟩
  · rw [heq]
    exact expr_taken x none c
  · rw [heq]
    simpa using newTempReg_taken

theorem sources_taken (xs : List Expr) (c : Comp) : c.taken <+: (Comp.sources xs c).2.taken := by
  induction xs generalizing c with
  | nil => exact List.prefix_refl _
  | cons x xs ih => exact (source_taken x c).trans (ih _)

theorem source_tracks {x : Expr} (hp : x.Proper) (hc : Counts c live)
    (hr : InRange (Comp.source x c).2) :
    ∃ live', Tracks c live (Comp.source x c).2 live' ∧ Counts (Comp.source x c).2 live' ∧
      OwnsLeaf live live' (Comp.source x c).1 := by
  rcases source_cases x c with ⟨_, heq⟩ | ⟨m, rfl, heq⟩
  · rw [heq] at hr ⊢
    exact expr_ownsLeaf hp hc hr
  · rw [heq] at hr ⊢
    have hr' : InRange (c.newTempReg m.reg.kind).2 := fun id hid => hr id (by simpa using hid)
    obtain ⟨hv, ht, _, hnew, htracks, hcounts⟩ := newTempReg_tracks hc m.reg.kind hp.1 hr'
    have hmem : (c.newTempReg m.reg.kind).1.id ∈ insert (c.newTempReg m.reg.kind).1.id live :=
      Finset.mem_insert_self _ _
    have hmov : (Leaf.soft (c.newTempReg m.reg.kind).1).Usable
        (insert (c.newTempReg m.reg.kind).1.id live) := fun _ => hmem
    have hmem' : (Leaf.arg (.mem m)).Usable (insert (c.newTempReg m.reg.kind).1.id live) := trivial
    dsimp only
    exact ⟨_, htracks.trans (tracks_inst2 .mov hmov hmem'), counts_inst2 hcounts,
      .inr ⟨_, rfl, .inr ⟨hv, ht, hnew, rfl⟩⟩⟩

/-- The sources of `StmtN`. -/
theorem sources_tracks {xs : List Expr} (hp : ∀ x ∈ xs, x.Proper) (hc : Counts c live)
    (hr : InRange (Comp.sources xs c).2) :
    ∃ live', Tracks c live (Comp.sources xs c).2 live' ∧ Counts (Comp.sources xs c).2 live' ∧
      OwnsAll live live' (Comp.sources xs c).1 := by
  induction xs generalizing c live with
  | nil => exact ⟨live, .refl, hc, .nil live⟩
  | cons x xs ih =>
    have hr1 : InRange (Comp.source x c).2 :=
      fun id hid => hr id ((sources_taken xs _).subset hid)
    obtain ⟨live₁, htracks, hcounts, hown⟩ := source_tracks (hp x (by simp)) hc hr1
    obtain ⟨live', htracks', hcounts', hall⟩ :=
      ih (fun y hy => hp y (by simp [hy])) hcounts hr
    exact ⟨live', htracks.trans htracks', hcounts', .cons hown hall⟩

/-- The assignments of `StmtN` allocate and free nothing. -/
theorem assigns_tracks (ds ss : List Leaf) (hd : ∀ l ∈ ds, l.Usable live)
    (hs : ∀ l ∈ ss, l.Usable live) (hc : Counts c live) :
    Tracks c live (Comp.assigns ds ss c) live ∧ Counts (Comp.assigns ds ss c) live := by
  induction ds generalizing ss c with
  | nil => exact ⟨.refl, hc⟩
  | cons d ds ih =>
    cases ss with
    | nil => exact ⟨.refl, hc⟩
    | cons s ss =>
      have hinst : Tracks c live (c.inst2 .mov d s) live :=
        tracks_inst2 .mov (hd d (by simp)) (hs s (by simp))
      obtain ⟨htracks, hcounts⟩ := ih (c := c.inst2 .mov d s) ss (fun l hl => hd l (by simp [hl]))
        (fun l hl => hs l (by simp [hl])) (counts_inst2 hc)
      exact ⟨hinst.trans htracks, hcounts⟩

theorem assigns_taken {ds ss : List Leaf} : (Comp.assigns ds ss c).taken = c.taken := by
  induction ds generalizing ss c with
  | nil => rfl
  | cons d ds ih =>
    cases ss with
    | nil => rfl
    | cons s ss => exact (ih (c := c.inst2 .mov d s)).trans inst2_taken

theorem freeAll_arg {a : Arg} {ls : List Leaf} :
    Comp.freeAll (.arg a :: ls) c = Comp.freeAll ls c := rfl

theorem freeAll_soft {s : SoftReg} {ls : List Leaf} :
    Comp.freeAll (.soft s :: ls) c = (Comp.freeAll ls c).freeTempReg s := by
  by_cases hv : s.valid = true
  · exact if_pos hv
  · rw [freeTempReg_of_not (.inl (by simpa using hv))]
    exact if_neg hv

theorem freeAll_taken {ls : List Leaf} : (Comp.freeAll ls c).taken = c.taken := by
  induction ls with
  | nil => rfl
  | cons l ls ih =>
    cases l with
    | arg a => exact ih
    | soft s => rw [freeAll_soft, freeTempReg_taken, ih]

/-- The operands of `StmtN` are freed from the last one to the first. -/
theorem freeAll_tracks {ls : List Leaf} (h : OwnsAll live live₁ ls) (hc : Counts c live₁) :
    Tracks c live₁ (Comp.freeAll ls c) live ∧ Counts (Comp.freeAll ls c) live := by
  induction h with
  | nil live => exact ⟨.refl, hc⟩
  | @cons live live₂ live' l ls h _ ih =>
    obtain ⟨htracks, hcounts⟩ := ih hc
    cases l with
    | arg a =>
      rw [freeAll_arg]
      rcases h with ⟨rfl, _⟩ | ⟨s, heq, _⟩
      · exact ⟨htracks, hcounts⟩
      · cases heq
    | soft s =>
      rw [freeAll_soft]
      rcases h with ⟨rfl, htemp⟩ | ⟨t, heq, hown⟩
      · rw [freeTempReg_of_not (.inr (htemp s rfl))]
        exact ⟨htracks, hcounts⟩
      · cases heq
        obtain ⟨hfree, hcount⟩ := freeTempReg_owned hcounts hown
        exact ⟨htracks.trans hfree, hcount⟩

/-- What `StmtN` does, in steps. -/
theorem stmtN_ok {tdst tsrc : List Expr} (h : c.stmtN tdst tsrc = .ok c') :
    ∃ dst c₁, Comp.dests tdst c = .ok (dst, c₁) ∧
      c' = Comp.freeAll dst (Comp.freeAll (Comp.sources tsrc c₁).1
        (Comp.assigns dst (Comp.sources tsrc c₁).1 (Comp.sources tsrc c₁).2)) := by
  simp only [Comp.stmtN, bind, Except.bind] at h
  split at h
  · cases h
  · split at h
    · cases h
    · next r heq =>
      cases h
      exact ⟨r.1, r.2, heq, rfl⟩

/-- `StmtN` frees what it allocates. -/
theorem stmtN_tracks {dst src : List Expr} (hp : (Stmt.stmtN dst src).Proper) (hc : Counts c live)
    (h : c.stmtN dst src = .ok c') (hr : InRange c') :
    Tracks c live c' live ∧ Counts c' live := by
  obtain ⟨ds, c₁, hdests, rfl⟩ := stmtN_ok h
  have hr2 : InRange (Comp.sources src c₁).2 := by
    intro id hid
    refine hr id ?_
    rwa [freeAll_taken, freeAll_taken, assigns_taken]
  have hr1 : InRange c₁ := fun id hid => hr2 id ((sources_taken src c₁).subset hid)
  obtain ⟨live₁, htracks1, hcounts1, hown1⟩ := dests_tracks hp.1 hc hdests hr1
  obtain ⟨live₂, htracks2, hcounts2, hown2⟩ := sources_tracks hp.2 hcounts1 hr2
  obtain ⟨htracks3, hcounts3⟩ := assigns_tracks ds (Comp.sources src c₁).1
    (fun l hl => hown2.usable_mono (hown1.usable l hl)) hown2.usable hcounts2
  obtain ⟨htracks4, hcounts4⟩ := freeAll_tracks hown2 hcounts3
  obtain ⟨htracks5, hcounts5⟩ := freeAll_tracks hown1 hcounts4
  exact ⟨(((htracks1.trans htracks2).trans htracks3).trans htracks4).trans htracks5, hcounts5⟩

/-- Every statement frees what it allocates. -/
theorem stmt_tracks {s : Stmt} (hp : s.Proper) (hc : Counts c live) (h : c.stmt s = .ok c')
    (hr : InRange c') : Tracks c live c' live ∧ Counts c' live := by
  cases s with
  | stmt1 inst dst => exact stmt1_tracks hp hc h hr
  | stmt2 inst dst src => exact stmt2_tracks hp hc h hr
  | stmt3 inst dst darg src => exact stmt3_tracks hp hc h hr
  | stmtN dst src => exact stmtN_tracks hp hc h hr

end Stmts

/-! ## Runs of statements -/

/-- The statements of a run. -/
def Comp.stmts (c : Comp) : List Stmt → Except String Comp
  | [] => .ok c
  | s :: ss => do
    let c ← c.stmt s
    c.stmts ss

/-- Every statement of a run keeps the discipline and frees what it allocates. -/
def StackLike (live : Live) (c : Comp) : List Stmt → Prop
  | [] => True
  | s :: ss => ∀ c₁, c.stmt s = .ok c₁ →
      (∃ is, c₁.code = c.code ++ is ∧ trackAll live is = some live) ∧ StackLike live c₁ ss

section Runs

variable {c c' : Comp} {live : Live}

theorem stmts_cons {s : Stmt} {ss : List Stmt} (h : c.stmts (s :: ss) = .ok c') :
    ∃ c₁, c.stmt s = .ok c₁ ∧ c₁.stmts ss = .ok c' := by
  simp only [Comp.stmts, bind, Except.bind] at h
  split at h
  · cases h
  · next c₁ heq => exact ⟨c₁, heq, h⟩

/-- The code `is` allocates an id for each of the numbers `ns` that were taken, and it frees only
temporary registers. The first number out of range follows `lastTempRegId`. -/
structure LogsCode (c : Comp) (is : List AsmCode) (ns : List Nat) (c' : Comp) : Prop where
  code : c'.code = c.code ++ is
  taken : c'.taken = c.taken ++ ns
  allocs : ∀ n ∈ ns, ∃ k, .alloc (SoftReg.make n k) ∈ is
  frees : ∀ s, .free s ∈ is → s.isTemp = true
  next : c.nextTempReg ≤ lastTempRegId + 1 →
    (c'.nextTempReg ≤ lastTempRegId + 1 ∧ ∀ n ∈ ns, n ≤ lastTempRegId) ∨ lastTempRegId + 1 ∈ ns

def Logs (c c' : Comp) : Prop := ∃ is ns, LogsCode c is ns c'

theorem Logs.refl : Logs c c :=
  ⟨[], [], by simp, by simp, by simp, by simp, fun h => .inl ⟨h, by simp⟩⟩

theorem Logs.trans {c'' : Comp} (h : Logs c c') (h' : Logs c' c'') : Logs c c'' := by
  obtain ⟨is, ns, h⟩ := h
  obtain ⟨is', ns', h'⟩ := h'
  refine ⟨is ++ is', ns ++ ns', by rw [h'.code, h.code, List.append_assoc],
    by rw [h'.taken, h.taken, List.append_assoc], ?_, ?_, ?_⟩
  · intro n hn
    rcases List.mem_append.mp hn with hn | hn
    · obtain ⟨k, hk⟩ := h.allocs n hn
      exact ⟨k, List.mem_append_left _ hk⟩
    · obtain ⟨k, hk⟩ := h'.allocs n hn
      exact ⟨k, List.mem_append_right _ hk⟩
  · intro s hs
    rcases List.mem_append.mp hs with hs | hs
    · exact h.frees s hs
    · exact h'.frees s hs
  · intro hc
    rcases h.next hc with ⟨hc', hns⟩ | hmem
    · rcases h'.next hc' with ⟨hc'', hns'⟩ | hmem
      · left
        refine ⟨hc'', fun n hn => ?_⟩
        rcases List.mem_append.mp hn with hn | hn
        · exact hns n hn
        · exact hns' n hn
      · exact .inr (List.mem_append_right _ hmem)
    · exact .inr (List.mem_append_left _ hmem)

theorem logs_emit {i : AsmCode} (hi : ∀ s, i ≠ .free s) : Logs c (c.emit i) :=
  ⟨[i], [], rfl, by simp [Comp.emit], by simp,
    fun s hs => absurd (List.mem_singleton.mp hs).symm (hi s), fun h => .inl ⟨h, by simp⟩⟩

theorem newTempReg_logs (k : Kind) : Logs c (c.newTempReg k).2 := by
  refine ⟨[.alloc (c.newTempReg k).1], [c.nextTempReg], rfl, rfl, ?_, by simp, ?_⟩
  · intro n hn
    rw [List.mem_singleton.mp hn]
    exact ⟨k, by simp [Comp.newTempReg]⟩
  · intro h
    by_cases hlast : c.nextTempReg ≤ lastTempRegId
    · left
      simp only [Comp.newTempReg, Comp.emit, lastTempRegId] at *
      refine ⟨by omega, fun n hn => ?_⟩
      rw [List.mem_singleton.mp hn]
      exact hlast
    · exact .inr (List.mem_singleton.mpr (by omega))

theorem freeTempReg_logs (s : SoftReg) : Logs c (c.freeTempReg s) := by
  by_cases hs : (s.valid && s.isTemp) = true
  · refine ⟨[.free s], [], ?_, ?_, by simp, ?_, ?_⟩
    · simp [Comp.freeTempReg, hs, Comp.emit]
    · simp
    · intro t ht
      cases List.mem_singleton.mp ht
      exact (Bool.and_eq_true_iff.mp hs).2
    · intro h
      left
      refine ⟨?_, by simp⟩
      simp only [Comp.freeTempReg, hs, if_true, Comp.emit]
      split_ifs <;> omega
  · rw [Comp.freeTempReg, if_neg hs]
    exact .refl

theorem inst2_logs {inst : Op2} {d l : Leaf} : Logs c (c.inst2 inst d l) := by
  rw [Comp.inst2]
  split_ifs
  · exact logs_emit (by simp)
  · exact .refl

theorem freeOther_logs {s ds : SoftReg} : Logs c (c.freeOther s ds) := by
  rw [Comp.freeOther]
  split_ifs
  · exact freeTempReg_logs s
  · exact .refl

theorem finish_logs {d : Leaf} {ds tofree : SoftReg} : Logs c (c.finish d ds tofree).2 := by
  rw [Comp.finish]
  split_ifs
  · exact inst2_logs.trans (freeTempReg_logs tofree)
  · exact .refl

theorem dest1_logs {k : Kind} {dst : Option Leaf} {s : SoftReg} : Logs c (c.dest1 k dst s).2 := by
  cases dst <;> simp only [Comp.dest1, Comp.fresh] <;> split_ifs <;>
    first | exact .refl | exact newTempReg_logs k

theorem dest2_logs {op : Op3} {k : Kind} {dst : Option Leaf} {s s' : SoftReg} :
    Logs c (c.dest2 op k dst s s').2 := by
  cases dst <;> simp only [Comp.dest2, Comp.fresh] <;> split_ifs <;>
    first | exact .refl | exact newTempReg_logs k

theorem expr_logs (e : Expr) (dst : Option Leaf) (c : Comp) : Logs c (Comp.expr e dst c).2 := by
  induction e generalizing dst c with
  | leaf l => exact .refl
  | expr1 x op k ih =>
    rw [expr1_eq]
    exact ((((ih _ c).trans dest1_logs).trans (logs_emit (by simp))).trans freeOther_logs).trans
      finish_logs
  | expr2 x y op k ihx ihy =>
    rw [expr2_eq]
    have hargs := (ihx (Comp.dto dst) c).trans (ihy none _)
    exact ((((hargs.trans dest2_logs).trans (logs_emit (by simp))).trans freeOther_logs).trans
      freeOther_logs).trans finish_logs

theorem dests_logs {xs : List Expr} {es : List Leaf} (h : Comp.dests xs c = .ok (es, c')) :
    Logs c c' := by
  induction xs generalizing c es with
  | nil =>
    cases h
    exact .refl
  | cons x xs ih =>
    obtain ⟨es', hxs, _⟩ := dests_cons h
    exact (expr_logs x none c).trans (ih hxs)

theorem sources_logs (xs : List Expr) (c : Comp) : Logs c (Comp.sources xs c).2 := by
  induction xs generalizing c with
  | nil => exact .refl
  | cons x xs ih =>
    refine Logs.trans ?_ (ih (Comp.source x c).2)
    rcases source_cases x c with ⟨_, heq⟩ | ⟨m, _, heq⟩
    · rw [heq]
      exact expr_logs x none c
    · rw [heq]
      dsimp only
      exact (newTempReg_logs _).trans inst2_logs

theorem assigns_logs (ds ss : List Leaf) (c : Comp) : Logs c (Comp.assigns ds ss c) := by
  induction ds generalizing ss c with
  | nil => exact .refl
  | cons d ds ih =>
    cases ss with
    | nil => exact .refl
    | cons s ss => exact inst2_logs.trans (ih ss _)

theorem freeAll_logs (ls : List Leaf) (c : Comp) : Logs c (Comp.freeAll ls c) := by
  induction ls with
  | nil => exact .refl
  | cons l ls ih =>
    cases l with
    | arg a => exact ih
    | soft s =>
      rw [freeAll_soft]
      exact ih.trans (freeTempReg_logs s)

theorem stmt_logs {s : Stmt} (h : c.stmt s = .ok c') : Logs c c' := by
  cases s with
  | stmt1 inst dst =>
    cases inst with
    | none =>
      cases h
      exact (expr_logs dst none c).trans (freeTempReg_logs _)
    | some inst =>
      simp only [Comp.stmt, Comp.stmt1, bind, Except.bind] at h
      split at h
      · cases h
      · cases h
        exact ((expr_logs dst none c).trans (logs_emit (by simp))).trans (freeTempReg_logs _)
  | stmt2 inst dst src =>
    have heq := stmt2_ok h
    dsimp only at heq
    rw [heq]
    exact ((((expr_logs dst none c).trans (expr_logs src _ _)).trans inst2_logs).trans
      (freeTempReg_logs _)).trans freeOther_logs
  | stmt3 inst dst darg src =>
    cases h
    have hargs := ((expr_logs dst none c).trans (expr_logs darg none _)).trans
      (expr_logs src none _)
    exact (((hargs.trans (logs_emit (by simp))).trans (freeTempReg_logs _)).trans
      (freeTempReg_logs _)).trans (freeTempReg_logs _)
  | stmtN dst src =>
    obtain ⟨ds, c₁, hdests, rfl⟩ := stmtN_ok h
    exact ((((dests_logs hdests).trans (sources_logs src c₁)).trans (assigns_logs _ _ _)).trans
      (freeAll_logs _ _)).trans (freeAll_logs _ _)

/-- A register that is not freed stays allocated. -/
theorem track_keeps {i : AsmCode} {live' : Live} {id : BitVec 24} (h : track live i = some live')
    (hid : id ∈ live) (hfree : ∀ t : SoftReg, i = .free t → t.id ≠ id) : id ∈ live' := by
  cases i with
  | alloc t =>
    simp only [track] at h
    split_ifs at h
    cases h
    exact Finset.mem_insert_of_mem hid
  | free t =>
    simp only [track] at h
    split_ifs at h
    cases h
    exact Finset.mem_erase.mpr ⟨Ne.symm (hfree t rfl), hid⟩
  | op1 op src dst | op2 op a b dst | inst1 inst dst | inst2 inst src dst
  | inst3 inst dst darg src =>
    simp only [track] at h
    split_ifs at h
    cases h
    exact hid

theorem trackAll_keeps {is : List AsmCode} {live' : Live} {id : BitVec 24}
    (h : trackAll live is = some live') (hid : id ∈ live)
    (hfree : ∀ t : SoftReg, .free t ∈ is → t.id ≠ id) : id ∈ live' := by
  induction is generalizing live with
  | nil =>
    cases h
    exact hid
  | cons i is ih =>
    obtain ⟨live₁, hi, his⟩ := Option.bind_eq_some_iff.mp h
    exact ih his (track_keeps hi hid fun t ht => hfree t (by simp [ht])) fun t ht =>
      hfree t (by simp [ht])

/-- A register that is allocated and never freed was not allocated before, and stays so. -/
theorem trackAll_alloc {is : List AsmCode} {live' : Live} {s : SoftReg}
    (h : trackAll live is = some live') (hmem : .alloc s ∈ is)
    (hfree : ∀ t : SoftReg, .free t ∈ is → t.id ≠ s.id) : s.id ∉ live ∧ s.id ∈ live' := by
  induction is generalizing live with
  | nil => cases hmem
  | cons i is ih =>
    obtain ⟨live₁, hi, his⟩ := Option.bind_eq_some_iff.mp h
    have hrest : ∀ t : SoftReg, .free t ∈ is → t.id ≠ s.id := fun t ht => hfree t (by simp [ht])
    rcases List.mem_cons.mp hmem with rfl | hmem
    · simp only [track] at hi
      split_ifs at hi with hs
      cases hi
      exact ⟨hs, trackAll_keeps his (Finset.mem_insert_self _ _) hrest⟩
    · obtain ⟨hout, hin⟩ := ih his hmem hrest
      exact ⟨fun hs => hout (track_keeps hi hs fun t ht => hfree t (by simp [ht])), hin⟩

/-- Numbers of a run in range, when the code of every statement frees what it allocates. -/
theorem stmt_inRange {is : List AsmCode} {s : Stmt} (h : c.stmt s = .ok c')
    (hcode : c'.code = c.code ++ is) (htrack : trackAll live is = some live)
    (hc : InRange c) (hnext : c.nextTempReg ≤ lastTempRegId + 1) :
    InRange c' ∧ c'.nextTempReg ≤ lastTempRegId + 1 := by
  obtain ⟨is', ns, hlogs⟩ := stmt_logs h
  have his : is' = is := List.append_cancel_left (hlogs.code.symm.trans hcode)
  subst his
  rcases hlogs.next hnext with ⟨hnext', hns⟩ | hmem
  · refine ⟨fun n hn => ?_, hnext'⟩
    rw [hlogs.taken] at hn
    rcases List.mem_append.mp hn with hn | hn
    · exact hc n hn
    · exact hns n hn
  · -- the number after the last id is the id 0, which is not freed
    obtain ⟨k, halloc⟩ := hlogs.allocs _ hmem
    have hzero : (SoftReg.make (lastTempRegId + 1) k).id = 0 :=
      show BitVec.ofNat 24 (lastTempRegId + 1) = 0 by decide
    have hne : ∀ t : SoftReg, .free t ∈ is' → t.id ≠ (SoftReg.make (lastTempRegId + 1) k).id := by
      intro t ht heq
      have htemp := hlogs.frees t ht
      rw [SoftReg.isTemp, heq, hzero] at htemp
      exact absurd htemp (by decide)
    obtain ⟨hout, hin⟩ := trackAll_alloc htrack halloc hne
    exact absurd hin hout

theorem stmts_taken {ss : List Stmt} (h : c.stmts ss = .ok c') : c.taken <+: c'.taken := by
  induction ss generalizing c with
  | nil =>
    cases h
    exact List.prefix_refl _
  | cons s ss ih =>
    obtain ⟨c₁, hs, hss⟩ := stmts_cons h
    obtain ⟨is, ns, hlogs⟩ := stmt_logs hs
    exact (hlogs.taken ▸ List.prefix_append _ _ : c.taken <+: c₁.taken).trans (ih hss)

/-- From a state within the range, the statements keep the discipline if and only if their numbers
stay in the range. -/
theorem stmts_stackLike {ss : List Stmt} (hp : ∀ s ∈ ss, s.Proper) (hc : Counts c live)
    (hr : InRange c) (hnext : c.nextTempReg ≤ lastTempRegId + 1) (h : c.stmts ss = .ok c') :
    StackLike live c ss ↔ InRange c' := by
  induction ss generalizing c with
  | nil =>
    cases h
    exact ⟨fun _ => hr, fun _ => trivial⟩
  | cons s ss ih =>
    obtain ⟨c₁, hs, hss⟩ := stmts_cons h
    have hps : ∀ t ∈ ss, t.Proper := fun t ht => hp t (by simp [ht])
    constructor
    · intro hstack
      obtain ⟨⟨is, hcode, htrack⟩, hrest⟩ := hstack c₁ hs
      obtain ⟨hr₁, hnext₁⟩ := stmt_inRange hs hcode htrack hr hnext
      exact (ih hps (stmt_tracks (hp s (by simp)) hc hs hr₁).2 hr₁ hnext₁ hss).mp hrest
    · intro hr' c₂ hs₂
      rw [hs] at hs₂
      cases hs₂
      have hr₁ : InRange c₁ := fun n hn => hr' n ((stmts_taken hss).subset hn)
      obtain ⟨htracks, hcounts⟩ := stmt_tracks (hp s (by simp)) hc hs hr₁
      obtain ⟨is, hcode, htrack⟩ := htracks.code
      have hnext₁ := (stmt_inRange hs hcode htrack hr hnext).2
      exact ⟨⟨is, hcode, htrack⟩, (ih hps hcounts hr₁ hnext₁ hss).mpr hr'⟩

/-- `s += t - (u + v)`: the result of the sum is freed below the one of the difference, and its id
is not taken back. -/
def leaky : Stmt :=
  .stmt2 .add2 (.leaf (.soft ⟨1, .int64⟩))
    (.expr2 (.leaf (.soft ⟨2, .int64⟩))
      (.expr2 (.leaf (.soft ⟨3, .int64⟩)) (.leaf (.soft ⟨4, .int64⟩)) .add3 .int64) .sub3 .int64)

/-- A binary expression over a leaf, without a destination. -/
theorem expr2_leaf (l : Leaf) (y : Expr) (op : Op3) (k : Kind) (c : Comp)
    (hop : (Comp.expr y none c).1.2 = .zero ∨ op.isCommutative = false) :
    let r := Comp.expr y none c
    let t := r.2.newTempReg k
    Comp.expr (.expr2 (.leaf l) y op k) none c =
      ((.soft t.1, t.1), (t.2.emit (.op2 op l r.1.1 (.soft t.1))).freeOther r.1.2 t.1) := by
  intro r t
  have hsoft : (r.1.2.valid && op.isCommutative) = false := by
    rcases hop with h | h
    · rw [show r.1.2 = .zero from h]
      rfl
    · rw [h, Bool.and_false]
  have hdest : r.2.dest2 op k none .zero r.1.2 = ((.soft t.1, t.1, t.1), t.2) :=
    if_neg (by simp [hsoft])
  rw [expr2_eq]
  dsimp only [Comp.expr, Comp.dto, Comp.dsoft]
  rw [hdest, freeOther_zero]
  exact finish_same

theorem newTempReg_next {k : Kind} :
    (c.newTempReg k).2.nextTempReg = (c.nextTempReg + 1) % 2 ^ 32 := rfl

theorem freeOther_next {s ds : SoftReg} (hv : s.valid = true) (ht : s.isTemp = true)
    (hne : s.id ≠ ds.id) : (c.freeOther s ds).nextTempReg =
      if s.id.toNat + 1 = c.nextTempReg then c.nextTempReg - 1 else c.nextTempReg := by
  rw [Comp.freeOther, if_pos hne, Comp.freeTempReg, hv, ht]
  rfl

/-- The two temporary registers of the statement. -/
theorem leaky_eq (c : Comp) :
    let t := c.newTempReg .int64
    let c₁ := t.2.emit (.op2 .add3 (.soft ⟨3, .int64⟩) (.soft ⟨4, .int64⟩) (.soft t.1))
    let u := c₁.newTempReg .int64
    c.stmt leaky = .ok ((((u.2.emit (.op2 .sub3 (.soft ⟨2, .int64⟩) (.soft t.1)
      (.soft u.1))).freeOther t.1 u.1).inst2 .add2 (.soft ⟨1, .int64⟩) (.soft u.1)).freeOther u.1
        .zero) := by
  intro t c₁ u
  have hsum : Comp.expr (.expr2 (.leaf (.soft ⟨3, .int64⟩)) (.leaf (.soft ⟨4, .int64⟩)) .add3
      .int64) none c = ((.soft t.1, t.1), c₁) :=
    (expr2_leaf _ (.leaf (.soft ⟨4, .int64⟩)) .add3 .int64 c (.inl rfl)).trans
      (congrArg (Prod.mk (Leaf.soft t.1, t.1)) freeOther_zero)
  have hdiff := expr2_leaf (.soft ⟨2, .int64⟩) (.expr2 (.leaf (.soft ⟨3, .int64⟩))
    (.leaf (.soft ⟨4, .int64⟩)) .add3 .int64) .sub3 .int64 c (.inr rfl)
  dsimp only at hdiff
  rw [hsum] at hdiff
  unfold Comp.stmt leaky
  dsimp only
  unfold Comp.stmt2
  rw [show Comp.expr (.leaf (.soft ⟨1, .int64⟩)) none c = ((.soft ⟨1, .int64⟩, .zero), c) from rfl]
  dsimp only [checkAssignable, bind, Except.bind, pure, Except.pure]
  rw [if_neg (by decide), hdiff]
  dsimp only
  rw [freeTempReg_zero]

/-- The first id of the statement is not taken back. -/
theorem leaky_step (c : Comp) (hfirst : firstTempRegId ≤ c.nextTempReg)
    (hlast : c.nextTempReg < lastTempRegId) :
    ∃ c', c.stmt leaky = .ok c' ∧ c'.nextTempReg = c.nextTempReg + 1 := by
  refine ⟨_, leaky_eq c, ?_⟩
  have ht : (c.newTempReg .int64).1.id.toNat = c.nextTempReg := make_id hlast.le
  have hnext : (c.newTempReg .int64).2.nextTempReg = c.nextTempReg + 1 := by
    rw [newTempReg_next]
    simp only [lastTempRegId] at hlast
    omega
  have htv : (c.newTempReg .int64).1.valid = true := rfl
  generalize c.newTempReg .int64 = t at *
  obtain ⟨t, c₁⟩ := t
  dsimp only at *
  generalize hc₂ : c₁.emit (.op2 .add3 (.soft ⟨3, .int64⟩) (.soft ⟨4, .int64⟩) (.soft t)) = c₂
  have hc₂next : c₂.nextTempReg = c.nextTempReg + 1 := by
    rw [← hc₂]
    exact hnext
  have hu : (c₂.newTempReg .int64).1.id.toNat = c.nextTempReg + 1 := by
    rw [← hc₂next]
    exact make_id (by omega)
  have hunext : (c₂.newTempReg .int64).2.nextTempReg = c.nextTempReg + 2 := by
    rw [newTempReg_next, hc₂next]
    simp only [lastTempRegId] at hlast
    omega
  have huv : (c₂.newTempReg .int64).1.valid = true := rfl
  generalize c₂.newTempReg .int64 = u at *
  obtain ⟨u, c₃⟩ := u
  dsimp only at *
  have htt : t.isTemp = true := by simpa [SoftReg.isTemp, ht] using hfirst
  have hut : u.isTemp = true := by
    simp only [SoftReg.isTemp, hu, decide_eq_true_eq]
    omega
  have hne : t.id ≠ u.id := by
    intro heq
    rw [heq] at ht
    omega
  have huz : u.id ≠ SoftReg.zero.id := by
    intro heq
    rw [heq] at hu
    simp [SoftReg.zero] at hu
  rw [freeOther_next huv hut huz]
  have hfree : ∀ c' : Comp, c'.nextTempReg = c.nextTempReg + 2 →
      ((c'.freeOther t u).inst2 .add2 (.soft ⟨1, .int64⟩) (.soft u)).nextTempReg =
        c.nextTempReg + 2 := by
    intro c' hc'
    rw [Comp.inst2, if_pos (.inl (by decide))]
    show (c'.freeOther t u).nextTempReg = _
    rw [freeOther_next htv htt hne, if_neg (by omega)]
    exact hc'
  rw [hfree (c₃.emit (.op2 .sub3 (.soft ⟨2, .int64⟩) (.soft t) (.soft u))) hunext,
    if_pos (by omega)]
  omega

/-- At the end of the range the statement takes the number after the last id. -/
theorem leaky_last (c : Comp) (hlast : c.nextTempReg = lastTempRegId) :
    ∃ c', c.stmt leaky = .ok c' ∧ lastTempRegId + 1 ∈ c'.taken := by
  refine ⟨_, leaky_eq c, ?_⟩
  simp only [freeOther_taken, inst2_taken, emit_taken]
  simp [Comp.newTempReg, Comp.emit, hlast, lastTempRegId]

theorem stmts_step {s : Stmt} {ss : List Stmt} {c₁ : Comp} (h : c.stmt s = .ok c₁) :
    c.stmts (s :: ss) = c₁.stmts ss := by
  simp only [Comp.stmts, h, bind, Except.bind]

/-- A run of the statement takes one id after the other, until they are used up. -/
theorem leaky_run (n : Nat) (c : Comp) (hfirst : firstTempRegId ≤ c.nextTempReg)
    (hlast : c.nextTempReg + n = lastTempRegId) :
    ∃ c', c.stmts (List.replicate (n + 1) leaky) = .ok c' ∧ lastTempRegId + 1 ∈ c'.taken := by
  induction n generalizing c with
  | zero =>
    obtain ⟨c', hc', hmem⟩ := leaky_last c hlast
    refine ⟨c', ?_, hmem⟩
    rw [List.replicate_succ, stmts_step hc']
    rfl
  | succ n ih =>
    obtain ⟨c₁, hc₁, hnext⟩ := leaky_step c hfirst (by omega)
    obtain ⟨c', hc', hmem⟩ := ih c₁ (by omega) (by omega)
    refine ⟨c', ?_, hmem⟩
    rw [List.replicate_succ, stmts_step hc₁]
    exact hc'

theorem leaky_proper : leaky.Proper := by
  have hleaf : ∀ s : SoftReg, s.isTemp = false → s.kind ≠ .invalid → (Leaf.soft s).Proper := by
    intro s hs hk
    refine ⟨hk, fun t ht => ?_⟩
    rw [← Leaf.soft.inj ht]
    exact hs
  refine ⟨hleaf _ (by decide) (by decide), hleaf _ (by decide) (by decide), ⟨hleaf _ (by decide)
    (by decide), hleaf _ (by decide) (by decide), by decide⟩, by decide⟩

theorem init_counts (hlive : ∀ id ∈ live, id.toNat < firstTempRegId) : Counts .init live :=
  ⟨fun id hid hge => absurd (hlive id hid) (by omega), Nat.le_refl _⟩

/-- The statements of one compiler use temporary registers like a stack if and only if every number
that `newTempReg` takes is an id of a temporary register. -/
theorem temps_stackLike_iff (live : Live) (hlive : ∀ id ∈ live, id.toNat < firstTempRegId)
    (ss : List Stmt) (hp : ∀ s ∈ ss, s.Proper) (c' : Comp) (h : Comp.init.stmts ss = .ok c') :
    StackLike live .init ss ↔ InRange c' :=
  stmts_stackLike hp (init_counts hlive) (by simp [InRange, Comp.init]) (by decide) h

theorem temps_stackLike_iff_leaky : StackLike ∅ .init [leaky] :=
  (temps_stackLike_iff ∅ (by simp) [leaky] (by simpa using leaky_proper) _ rfl).mpr (by decide)

/-- After 2^23 statements with such a difference the ids are used up. -/
theorem ids_used_up : ¬ ∀ ss : List Stmt, (∀ s ∈ ss, s.Proper) → ∀ c', Comp.init.stmts ss = .ok c' →
    StackLike ∅ .init ss := by
  intro hall
  obtain ⟨n, hn⟩ : ∃ n, firstTempRegId + n = lastTempRegId := ⟨0x7FFFFF, by decide⟩
  obtain ⟨c', hc', hmem⟩ := leaky_run n .init (Nat.le_refl _) hn
  have hp : ∀ s ∈ List.replicate (n + 1) leaky, s.Proper := by
    intro s hs
    rw [List.eq_of_mem_replicate hs]
    exact leaky_proper
  have hstack := (stmts_stackLike hp (init_counts (by simp)) (by simp [InRange, Comp.init])
    (by decide) hc').mp (hall _ hp c' hc')
  exact absurd (hstack _ hmem) (by decide)

end Runs

end OneJit.GoJit
