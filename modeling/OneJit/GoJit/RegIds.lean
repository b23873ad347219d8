import Mathlib.Algebra.Group.Nat.Defs
import Mathlib.Data.List.Induction
import Mathlib.Logic.Function.Basic
import Mathlib.Tactic.SplitIfs

/-!
# The machine registers of the Go assembler

`RegIds` counts the uses of each register. `TryAlloc` searches a free one in a circle that starts
at a cursor, which `Free` pulls back. The kind that it is given has no effect.
-/

namespace OneJit.GoJit

abbrev RegId := BitVec 16

def noRegId : RegId := 0

/-- `RegIdConfig` of an architecture, with `RegIdValid`. -/
structure RegIdConfig where
  rlo : RegId
  rhi : RegId
  rsp : RegId
  rAllocFirst : RegId
  valid : RegId → Bool
  lo_le_first : rlo ≤ rAllocFirst
  first_le_hi : rAllocFirst ≤ rhi
  invalid_noRegId : valid noRegId = false

/-- `Amd64`: the registers from `RAX` to `R15`. -/
def amd64 : RegIdConfig where
  rlo := 0x101
  rhi := 0x110
  rsp := 0x105
  rAllocFirst := 0x104
  valid id := 0x101 ≤ id && id ≤ 0x110
  lo_le_first := by decide
  first_le_hi := by decide
  invalid_noRegId := by decide

/-- `Arm64`: the registers from `X0` to `D31`, without `XZR`. -/
def arm64 : RegIdConfig where
  rlo := 1
  rhi := 64
  rsp := 32
  rAllocFirst := 1
  valid id := 1 ≤ id && id ≤ 64 && id ≠ 32
  lo_le_first := by decide
  first_le_hi := by decide
  invalid_noRegId := by decide

structure RegIds where
  inuse : RegId → BitVec 32
  first : RegId
  curr : RegId
  rlo : RegId
  rhi : RegId

namespace RegIds

variable (c : RegIdConfig)

/-- What `InitArch2` sets. -/
def init : RegIds := ⟨fun _ => 0, c.rAllocFirst, c.rAllocFirst, c.rlo, c.rhi⟩

/-- `inuse[id] = count`. -/
def setUse (rs : RegIds) (id : RegId) (count : BitVec 32) : RegIds :=
  { rs with inuse := Function.update rs.inuse id count }

/-- `IncUse`. -/
def incUse (rs : RegIds) (id : RegId) : BitVec 32 × RegIds :=
  if !c.valid id then (0, rs)
  else
    let count := rs.inuse id
    if count < BitVec.allOnes 32 then (count + 1, rs.setUse id (count + 1)) else (count, rs)

/-- `DecUse`. -/
def decUse (rs : RegIds) (id : RegId) : BitVec 32 × RegIds :=
  if !c.valid id then (0, rs)
  else
    let count := rs.inuse id
    if count = 0 then (count, rs)
    else (count - 1, rs.setUse id (count - 1))

/-- `Next`. -/
def next (rs : RegIds) (id : RegId) : RegId := if rs.rhi ≤ id then rs.rlo else id + 1

/-- The loop of `TryAlloc`. -/
def tryAllocLoop (rs : RegIds) : Nat → RegId → Option (RegId × RegIds)
  | 0, _ => none
  | fuel + 1, id =>
    let next := rs.next id
    if c.valid id && rs.inuse id == 0 then some (id, { rs.setUse id 1 with curr := next })
    else if next = rs.curr then some (noRegId, rs)
    else tryAllocLoop rs fuel next

/-- `TryAlloc`. -/
def tryAlloc (fuel : Nat) (rs : RegIds) : Option (RegId × RegIds) := rs.tryAllocLoop c fuel rs.curr

/-- `Free`. -/
def free (rs : RegIds) (id : RegId) : RegIds :=
  if c.valid id then
    let (count, rs) := rs.decUse c id
    if count = 0 ∧ rs.first ≤ id ∧ (id < rs.curr ∨ rs.curr < rs.first) then { rs with curr := id }
    else rs
  else rs

end RegIds

/-! ## Runs -/

/-- What was called, with the result of `TryAlloc`. -/
inductive Event
  | tryAlloc (id : RegId)
  | incUse (id : RegId)
  | decUse (id : RegId)
  | free (id : RegId)
  deriving DecidableEq

/-- The range of the register ids. -/
def RegIdConfig.Within (c : RegIdConfig) (id : RegId) : Prop := c.rlo ≤ id ∧ id ≤ c.rhi

/-- The registers that calls with ids in the range lead to. -/
inductive Allocates (c : RegIdConfig) : RegIds → List Event → Prop
  | init : Allocates c (RegIds.init c) []
  | tryAlloc {rs rs' : RegIds} {es : List Event} {fuel : Nat} {id : RegId} (h : Allocates c rs es)
    (hrun : rs.tryAlloc c fuel = some (id, rs')) : Allocates c rs' (es ++ [.tryAlloc id])
  | incUse {rs : RegIds} {es : List Event} {id : RegId} (h : Allocates c rs es)
    (hid : c.Within id) : Allocates c (rs.incUse c id).2 (es ++ [.incUse id])
  | decUse {rs : RegIds} {es : List Event} {id : RegId} (h : Allocates c rs es)
    (hid : c.Within id) : Allocates c (rs.decUse c id).2 (es ++ [.decUse id])
  | free {rs : RegIds} {es : List Event} {id : RegId} (h : Allocates c rs es)
    (hid : c.Within id) : Allocates c (rs.free c id) (es ++ [.free id])

namespace Event

/-- Allocations and increments of a register. -/
def ups (id : RegId) (es : List Event) : Nat := es.count (.tryAlloc id) + es.count (.incUse id)

/-- Decrements and frees of a register. -/
def downs (id : RegId) (es : List Event) : Nat := es.count (.decUse id) + es.count (.free id)

/-- The use count after one more call. It never goes below zero, nor above the largest number. -/
def count (id : RegId) (n : Nat) : Event → Nat
  | tryAlloc x | incUse x => if x = id then min (n + 1) (2 ^ 32 - 1) else n
  | decUse x | free x => if x = id then n - 1 else n

end Event

/-- The use count of a register after some calls. -/
def useCount (id : RegId) (es : List Event) : Nat := es.foldl (Event.count id) 0

theorem useCount_append (id : RegId) (es : List Event) (e : Event) :
    useCount id (es ++ [e]) = e.count id (useCount id es) := by
  simp [useCount]

/-- No decrement is made at zero. -/
def NeverBelow (id : RegId) (es : List Event) : Prop :=
  ∀ es' e, es' ++ [e] <+: es → e = .decUse id ∨ e = .free id → Event.downs id es' < Event.ups id es'

theorem ups_append (id : RegId) (es : List Event) (e : Event) :
    Event.ups id (es ++ [e]) = Event.ups id es + if e = .tryAlloc id ∨ e = .incUse id then 1 else 0 := by
  cases e <;> simp [Event.ups, List.count_singleton] <;> split_ifs <;> omega

theorem downs_append (id : RegId) (es : List Event) (e : Event) :
    Event.downs id (es ++ [e]) = Event.downs id es + if e = .decUse id ∨ e = .free id then 1 else 0 := by
  cases e <;> simp [Event.downs, List.count_singleton] <;> split_ifs <;> omega

/-- Away from both ends of its range the use count is the difference. -/
theorem useCount_eq {id : RegId} {es : List Event} (hbelow : NeverBelow id es)
    (hups : Event.ups id es < 2 ^ 32) :
    useCount id es + Event.downs id es = Event.ups id es := by
  induction es using List.reverseRecOn with
  | nil => rfl
  | append_singleton es e ih =>
    have hbelow' : NeverBelow id es := fun es' e' hpre =>
      hbelow es' e' (hpre.trans (List.prefix_append es [e]))
    rw [ups_append] at hups
    have hih := ih hbelow' (by omega)
    rw [useCount_append, ups_append, downs_append]
    have hdown := hbelow es e (List.prefix_refl _)
    cases e with
    | tryAlloc x =>
      by_cases hx : x = id
      · simp [Event.count, hx] at hups ⊢
        omega
      · simpa [Event.count, hx] using hih
    | incUse x =>
      by_cases hx : x = id
      · simp [Event.count, hx] at hups ⊢
        omega
      · simpa [Event.count, hx] using hih
    | decUse x =>
      by_cases hx : x = id
      · have := hdown (.inl (by rw [hx]))
        simp [Event.count, hx]
        omega
      · simpa [Event.count, hx] using hih
    | free x =>
      by_cases hx : x = id
      · have := hdown (.inr (by rw [hx]))
        simp [Event.count, hx]
        omega
      · simpa [Event.count, hx] using hih

/-! ## The search -/

/-- The cursor is within the range, which does not change. -/
structure Placed (c : RegIdConfig) (rs : RegIds) : Prop where
  first : rs.first = c.rAllocFirst
  rlo : rs.rlo = c.rlo
  rhi : rs.rhi = c.rhi
  curr : c.Within rs.curr

/-- All valid registers from `lo` up to but not including `hi` are in use. -/
def UsedFrom (c : RegIdConfig) (rs : RegIds) (lo hi : Nat) : Prop :=
  ∀ id : RegId, lo ≤ id.toNat → id.toNat < hi → c.valid id = true → rs.inuse id ≠ 0

/-- A search returns a free register, or finds none. -/
def Finds (c : RegIdConfig) (rs : RegIds) (res : RegId × RegIds) (used : Prop) : Prop :=
  (c.valid res.1 = true ∧ c.Within res.1 ∧ rs.inuse res.1 = 0 ∧
      res.2.inuse = Function.update rs.inuse res.1 1 ∧ Placed c res.2) ∨
    (res = (noRegId, rs) ∧ used)

section Search

variable {c : RegIdConfig} {rs : RegIds}

theorem next_within (h : Placed c rs) {id : RegId} (hid : c.Within id) : c.Within (rs.next id) := by
  have hle : c.rlo ≤ c.rhi := BitVec.le_trans c.lo_le_first c.first_le_hi
  rw [RegIds.next, h.rlo, h.rhi]
  split_ifs with hhi
  · exact ⟨BitVec.le_refl _, hle⟩
  · obtain ⟨h₁, h₂⟩ := hid
    constructor <;> bv_omega

/-- A free register at the cursor of the search. -/
theorem tryAllocLoop_free (h : Placed c rs) {fuel : Nat} {id : RegId} (hid : c.Within id)
    (hfree : c.valid id = true ∧ rs.inuse id = 0) (used : Prop) :
    ∃ res, rs.tryAllocLoop c (fuel + 1) id = some res ∧ Finds c rs res used := by
  refine ⟨(id, { rs.setUse id 1 with curr := rs.next id }), ?_, .inl ⟨hfree.1, hid, hfree.2, rfl, ?_⟩⟩
  · simp [RegIds.tryAllocLoop, hfree.1, hfree.2]
  · exact ⟨h.first, h.rlo, h.rhi, next_within h hid⟩

theorem tryAllocLoop_used {fuel : Nat} {id : RegId}
    (hused : ¬ (c.valid id = true ∧ rs.inuse id = 0)) :
    rs.tryAllocLoop c (fuel + 1) id =
      if rs.next id = rs.curr then some (noRegId, rs) else rs.tryAllocLoop c fuel (rs.next id) := by
  have hcond : (c.valid id && rs.inuse id == 0) = false := by
    rw [Bool.eq_false_iff]
    simpa using hused
  rw [RegIds.tryAllocLoop]
  dsimp only
  rw [hcond]
  rfl

/-- The search below the cursor, which it meets at the end. -/
theorem tryAllocLoop_below (h : Placed c rs) {fuel : Nat} {id : RegId} (hid : c.Within id)
    (hlt : id < rs.curr) (hfuel : rs.curr.toNat - id.toNat ≤ fuel) :
    ∃ res, rs.tryAllocLoop c fuel id = some res ∧
      Finds c rs res (UsedFrom c rs id.toNat rs.curr.toNat) := by
  induction fuel generalizing id with
  | zero =>
    exfalso
    bv_omega
  | succ fuel ih =>
    by_cases hfree : c.valid id = true ∧ rs.inuse id = 0
    · exact tryAllocLoop_free h hid hfree _
    · have hhi : rs.curr ≤ c.rhi := h.curr.2
      have hnext : rs.next id = id + 1 := by
        rw [RegIds.next, h.rhi, if_neg (by bv_omega)]
      have htoNat : (id + 1).toNat = id.toNat + 1 := by bv_omega
      -- this register is used, and the others are seen afterwards
      have hstep : ∀ {lo}, lo = id.toNat + 1 → UsedFrom c rs lo rs.curr.toNat →
          UsedFrom c rs id.toNat rs.curr.toNat := by
        intro lo hlo hall x hx hx' hv
        by_cases heq : x = id
        · subst heq
          exact fun hzero => hfree ⟨hv, hzero⟩
        · exact hall x (by bv_omega) hx' hv
      rw [tryAllocLoop_used hfree, hnext]
      split_ifs with hcurr
      · refine ⟨_, rfl, .inr ⟨rfl, hstep rfl fun x hx hx' => ?_⟩⟩
        rw [← hcurr] at hx'
        omega
      · have hin : c.Within (id + 1) := hnext ▸ next_within h hid
        obtain ⟨res, hres, hfinds⟩ := ih hin (by bv_omega) (by omega)
        exact ⟨res, hres, hfinds.imp (fun hf => hf) (And.imp (fun hr => hr) (hstep htoNat))⟩

/-- The search from the cursor up to the end of the range, and then below the cursor. -/
theorem tryAllocLoop_above (h : Placed c rs) {fuel : Nat} {id : RegId} (hid : c.Within id)
    (hle : rs.curr ≤ id)
    (hfuel : c.rhi.toNat - id.toNat + 1 + (rs.curr.toNat - c.rlo.toNat) ≤ fuel) :
    ∃ res, rs.tryAllocLoop c fuel id = some res ∧
      Finds c rs res (UsedFrom c rs id.toNat (c.rhi.toNat + 1) ∧
        UsedFrom c rs c.rlo.toNat rs.curr.toNat) := by
  induction fuel generalizing id with
  | zero => omega
  | succ fuel ih =>
    by_cases hfree : c.valid id = true ∧ rs.inuse id = 0
    · exact tryAllocLoop_free h hid hfree _
    · have hid' := hid
      obtain ⟨hlo, hhi⟩ := hid
      obtain ⟨hclo, hchi⟩ := h.curr
      have hself : ∀ x : RegId, x.toNat = id.toNat → c.valid x = true → rs.inuse x ≠ 0 := by
        intro x hx hv hzero
        have heq : x = id := BitVec.eq_of_toNat_eq hx
        exact hfree ⟨heq ▸ hv, heq ▸ hzero⟩
      rw [tryAllocLoop_used hfree]
      by_cases hlast : id = c.rhi
      · have hnext : rs.next id = c.rlo := by
          rw [RegIds.next, h.rlo, h.rhi, if_pos (by bv_omega)]
        have hone : UsedFrom c rs id.toNat (c.rhi.toNat + 1) := by
          intro x hx hx' hv
          exact hself x (by rw [hlast] at hx ⊢; omega) hv
        rw [hnext]
        split_ifs with hcurr
        · refine ⟨_, rfl, .inr ⟨rfl, hone, fun x hx hx' => ?_⟩⟩
          rw [← hcurr] at hx'
          omega
        · have hin : c.Within c.rlo := hnext ▸ next_within h hid'
          obtain ⟨res, hres, hfinds⟩ := @tryAllocLoop_below c rs h fuel c.rlo hin (by bv_omega)
            (by bv_omega)
          exact ⟨res, hres, hfinds.imp (fun hf => hf) (And.imp (fun hr => hr) fun hu => ⟨hone, hu⟩)⟩
      · have hnext : rs.next id = id + 1 := by
          rw [RegIds.next, h.rhi, if_neg (by bv_omega)]
        have hne : id + 1 ≠ rs.curr := by bv_omega
        have hin : c.Within (id + 1) := hnext ▸ next_within h hid'
        have htoNat : (id + 1).toNat = id.toNat + 1 := by bv_omega
        rw [hnext, if_neg hne]
        obtain ⟨res, hres, hfinds⟩ := ih hin (by bv_omega) (by bv_omega)
        refine ⟨res, hres, hfinds.imp (fun hf => hf) (And.imp (fun hr => hr) fun hu => ⟨?_, hu.2⟩)⟩
        intro x hx hx' hv
        by_cases heq : x.toNat = id.toNat
        · exact hself x heq hv
        · exact hu.1 x (by omega) hx' hv

/-- More fuel makes no difference. -/
theorem tryAllocLoop_mono {fuel fuel' : Nat} {id : RegId} {res : RegId × RegIds}
    (h : rs.tryAllocLoop c fuel id = some res) (hle : fuel ≤ fuel') :
    rs.tryAllocLoop c fuel' id = some res := by
  induction fuel generalizing fuel' id with
  | zero => simp [RegIds.tryAllocLoop] at h
  | succ fuel ih =>
    obtain ⟨fuel', rfl⟩ := Nat.exists_eq_add_of_le' (show 1 ≤ fuel' by omega)
    by_cases hfree : c.valid id = true ∧ rs.inuse id = 0
    · rw [RegIds.tryAllocLoop] at h ⊢
      simpa [hfree.1, hfree.2] using h
    · rw [tryAllocLoop_used hfree] at h ⊢
      split_ifs at h ⊢ with hcurr
      · exact h
      · exact ih h (by omega)

/-- `TryAlloc` ends; it returns a register that was free, or `NoRegId` if all are in use. -/
theorem tryAlloc_finds (h : Placed c rs) :
    ∃ res m, (∀ fuel, m ≤ fuel → rs.tryAlloc c fuel = some res) ∧
      Finds c rs res (∀ id, c.valid id = true → c.Within id → rs.inuse id ≠ 0) := by
  obtain ⟨res, hres, hfinds⟩ := tryAllocLoop_above h h.curr (BitVec.le_refl _) (Nat.le_refl _)
  refine ⟨res, _, fun fuel hfuel => tryAllocLoop_mono hres hfuel,
    hfinds.imp (fun hf => hf) (And.imp (fun hr => hr) fun hu => ?_)⟩
  intro id hv hid
  obtain ⟨hlo, hhi⟩ := hid
  by_cases hlt : id.toNat < rs.curr.toNat
  · exact hu.2 id (by bv_omega) hlt hv
  · exact hu.1 id (by omega) (by bv_omega) hv

/-- The result of any run of `TryAlloc`. -/
theorem tryAlloc_run (h : Placed c rs) {fuel : Nat} {res : RegId × RegIds}
    (hrun : rs.tryAlloc c fuel = some res) :
    Finds c rs res (∀ id, c.valid id = true → c.Within id → rs.inuse id ≠ 0) := by
  obtain ⟨res', m, hres, hfinds⟩ := tryAlloc_finds h
  have hmono := tryAllocLoop_mono hrun (Nat.le_max_left fuel m)
  have hmax := hres _ (Nat.le_max_right fuel m)
  rw [RegIds.tryAlloc, hmono, Option.some.injEq] at hmax
  exact hmax ▸ hfinds

end Search

/-! ## Runs keep the counts -/

section Runs

variable {c : RegIdConfig} {rs : RegIds} {es : List Event}

theorem toNat_succ_count {n : BitVec 32} (h : n < BitVec.allOnes 32) :
    (n + 1).toNat = min (n.toNat + 1) (2 ^ 32 - 1) := by
  have hall : (BitVec.allOnes 32).toNat = 2 ^ 32 - 1 := by simp
  bv_omega

theorem incUse_count (id x : RegId) (hv : c.valid id = true) :
    ((rs.incUse c x).2.inuse id).toNat = Event.count id (rs.inuse id).toNat (.incUse x) := by
  simp only [RegIds.incUse, Event.count]
  by_cases hx : x = id
  · subst hx
    simp only [hv, Bool.not_true, Bool.false_eq_true, if_false, if_true]
    split_ifs with hlt
    · simp only [RegIds.setUse, Function.update_self]
      exact toNat_succ_count hlt
    · have hall : (BitVec.allOnes 32).toNat = 2 ^ 32 - 1 := by simp
      bv_omega
  · rw [if_neg hx]
    split_ifs
    · rfl
    · simp [RegIds.setUse, Function.update_of_ne (Ne.symm hx)]
    · rfl

theorem decUse_count (id x : RegId) (hv : c.valid id = true) :
    ((rs.decUse c x).2.inuse id).toNat = Event.count id (rs.inuse id).toNat (.decUse x) := by
  simp only [RegIds.decUse, Event.count]
  by_cases hx : x = id
  · subst hx
    simp only [hv, Bool.not_true, Bool.false_eq_true, if_false, if_true]
    split_ifs with hzero
    · simp [hzero]
    · simp only [RegIds.setUse, Function.update_self]
      bv_omega
  · rw [if_neg hx]
    split_ifs
    · rfl
    · rfl
    · simp [RegIds.setUse, Function.update_of_ne (Ne.symm hx)]

/-- `Free` counts as `DecUse` does, and may move the cursor to the register. -/
theorem free_eq (id : RegId) :
    (rs.free c id).inuse = (rs.decUse c id).2.inuse ∧ (rs.free c id).first = rs.first ∧
      (rs.free c id).rlo = rs.rlo ∧ (rs.free c id).rhi = rs.rhi ∧
      ((rs.free c id).curr = rs.curr ∨ (rs.free c id).curr = id) := by
  have hdec : (rs.decUse c id).2.first = rs.first ∧ (rs.decUse c id).2.rlo = rs.rlo ∧
      (rs.decUse c id).2.rhi = rs.rhi ∧ (rs.decUse c id).2.curr = rs.curr := by
    simp only [RegIds.decUse]
    split_ifs <;> exact ⟨rfl, rfl, rfl, rfl⟩
  obtain ⟨hfirst, hlo, hhi, hcurr⟩ := hdec
  by_cases hv : c.valid id = true
  · simp only [RegIds.free, hv, if_true]
    split_ifs
    · exact ⟨rfl, hfirst, hlo, hhi, .inr rfl⟩
    · exact ⟨rfl, hfirst, hlo, hhi, .inl hcurr⟩
  · have hnot : (rs.decUse c id).2 = rs := by simp [RegIds.decUse, hv]
    simp only [RegIds.free, hv, hnot]
    exact ⟨rfl, rfl, rfl, rfl, .inl rfl⟩

theorem free_placed (h : Placed c rs) {id : RegId} (hid : c.Within id) :
    Placed c (rs.free c id) := by
  obtain ⟨_, hfirst, hlo, hhi, hcurr⟩ := @free_eq c rs id
  refine ⟨hfirst.trans h.first, hlo.trans h.rlo, hhi.trans h.rhi, ?_⟩
  rcases hcurr with hcurr | hcurr
  · rw [hcurr]
    exact h.curr
  · rw [hcurr]
    exact hid

/-- The cursor stays within the range, and the use counts are those of the calls. -/
theorem Allocates.spec (h : Allocates c rs es) :
    Placed c rs ∧ ∀ id, c.valid id = true → (rs.inuse id).toNat = useCount id es := by
  induction h with
  | init => exact ⟨⟨rfl, rfl, rfl, c.lo_le_first, c.first_le_hi⟩, fun _ _ => rfl⟩
  | @tryAlloc rs rs' es fuel x _ hrun ih =>
    obtain ⟨hplaced, hcount⟩ := ih
    rcases tryAlloc_run hplaced hrun with ⟨hv, _, hzero, hinuse, hplaced'⟩ | ⟨heq, _⟩
    · refine ⟨hplaced', fun id hid => ?_⟩
      rw [useCount_append, ← hcount id hid, hinuse, Event.count]
      dsimp only at hzero ⊢
      by_cases hx : x = id
      · subst hx
        rw [Function.update_self, if_pos rfl, hzero]
        decide
      · rw [Function.update_of_ne (Ne.symm hx), if_neg hx]
    · obtain ⟨rfl, rfl⟩ := Prod.mk.inj heq
      refine ⟨hplaced, fun id hid => ?_⟩
      have hne : noRegId ≠ id := by
        intro heq
        rw [← heq, c.invalid_noRegId] at hid
        simp at hid
      rw [useCount_append, ← hcount id hid, Event.count, if_neg hne]
  | @incUse rs es x _ hx ih =>
    obtain ⟨hplaced, hcount⟩ := ih
    refine ⟨?_, fun id hid => ?_⟩
    · simp only [RegIds.incUse]
      split_ifs <;> exact ⟨hplaced.first, hplaced.rlo, hplaced.rhi, hplaced.curr⟩
    · rw [useCount_append, ← hcount id hid, incUse_count id x hid]
  | @decUse rs es x _ hx ih =>
    obtain ⟨hplaced, hcount⟩ := ih
    refine ⟨?_, fun id hid => ?_⟩
    · simp only [RegIds.decUse]
      split_ifs <;> exact ⟨hplaced.first, hplaced.rlo, hplaced.rhi, hplaced.curr⟩
    · rw [useCount_append, ← hcount id hid, decUse_count id x hid]
  | @free rs es x _ hx ih =>
    obtain ⟨hplaced, hcount⟩ := ih
    refine ⟨free_placed hplaced hx, fun id hid => ?_⟩
    rw [useCount_append, ← hcount id hid, (free_eq x).1, decUse_count id x hid]
    rfl

/-- A register that `TryAlloc` returns was not in use. -/
theorem Allocates.fresh (h : Allocates c rs es) {pre post : List Event} {id : RegId}
    (hes : es = pre ++ [.tryAlloc id] ++ post) (hv : c.valid id = true) : useCount id pre = 0 := by
  -- a call other than this one is the last one of the run
  have hlast : ∀ {es' post : List Event} {e : Event},
      es' ++ [e] = pre ++ [.tryAlloc id] ++ post →
      (post = [] ∧ es' = pre ∧ e = .tryAlloc id) ∨
        ∃ post', es' = pre ++ [.tryAlloc id] ++ post' := by
    intro es' post e heq
    rcases post.eq_nil_or_concat with rfl | ⟨init, last, rfl⟩
    · rw [List.append_nil] at heq
      obtain ⟨h₁, h₂⟩ := List.append_inj' heq rfl
      exact .inl ⟨rfl, h₁, List.head_eq_of_cons_eq h₂⟩
    · rw [List.concat_eq_append, ← List.append_assoc] at heq
      exact .inr ⟨init, (List.append_inj' heq rfl).1⟩
  induction h generalizing post with
  | init => simp at hes
  | @tryAlloc rs rs' es fuel x hprev hrun ih =>
    rcases hlast hes with ⟨_, rfl, hx⟩ | ⟨post', hes'⟩
    · obtain ⟨hplaced, hcount⟩ := hprev.spec
      have hxid : x = id := Event.tryAlloc.inj hx
      subst hxid
      rcases tryAlloc_run hplaced hrun with ⟨_, _, hzero, _⟩ | ⟨heq, _⟩
      · rw [← hcount x hv, hzero]
        rfl
      · rw [(Prod.mk.inj heq).1, c.invalid_noRegId] at hv
        simp at hv
    · exact ih hes'
  | incUse hprev hid ih =>
    rcases hlast hes with ⟨_, _, hx⟩ | ⟨post', hes'⟩
    · simp at hx
    · exact ih hes'
  | decUse hprev hid ih =>
    rcases hlast hes with ⟨_, _, hx⟩ | ⟨post', hes'⟩
    · simp at hx
    · exact ih hes'
  | free hprev hid ih =>
    rcases hlast hes with ⟨_, _, hx⟩ | ⟨post', hes'⟩
    · simp at hx
    · exact ih hes'

end Runs

/-- After every run, `TryAlloc` ends and returns a valid register that was not in use and is then
in use once, or `NoRegId`, if and only if all are in use; the use counts are those of the calls,
between zero and the largest number; a register is returned again only after it was free. -/
theorem allocator_exact {c : RegIdConfig} {rs : RegIds} {es : List Event} (h : Allocates c rs es) :
    (∃ id rs', (∃ m, ∀ fuel, m ≤ fuel → rs.tryAlloc c fuel = some (id, rs')) ∧
      ((c.valid id = true ∧ c.Within id ∧ rs.inuse id = 0 ∧
          rs'.inuse = Function.update rs.inuse id 1) ∨ (id = noRegId ∧ rs' = rs)) ∧
      (id = noRegId ↔ ∀ x, c.valid x = true → c.Within x → rs.inuse x ≠ 0)) ∧
    (∀ id, c.valid id = true → (rs.inuse id).toNat = useCount id es ∧
      (NeverBelow id es → Event.ups id es < 2 ^ 32 →
        (rs.inuse id).toNat + Event.downs id es = Event.ups id es)) ∧
    ∀ pre mid post id, es = pre ++ [.tryAlloc id] ++ mid ++ [.tryAlloc id] ++ post →
      c.valid id = true → useCount id (pre ++ [.tryAlloc id] ++ mid) = 0 := by
  obtain ⟨hplaced, hcount⟩ := h.spec
  refine ⟨?_, fun id hid => ⟨hcount id hid, fun hbelow hups => ?_⟩,
    fun pre mid post id hes hid => h.fresh hes hid⟩
  · obtain ⟨⟨id, rs'⟩, m, hrun, hfinds⟩ := tryAlloc_finds hplaced
    refine ⟨id, rs', ⟨m, hrun⟩, ?_, ?_⟩
    · rcases hfinds with ⟨hv, hin, hzero, hinuse, _⟩ | ⟨heq, _⟩
      · exact .inl ⟨hv, hin, hzero, hinuse⟩
      · exact .inr (Prod.mk.inj heq)
    · rcases hfinds with ⟨hv, hin, hzero, _⟩ | ⟨heq, hall⟩
      · refine ⟨fun hno => ?_, fun hall => absurd hzero (hall id hv hin)⟩
        dsimp only at hv
        rw [hno, c.invalid_noRegId] at hv
        simp at hv
      · exact iff_of_true (Prod.mk.inj heq).1 hall
  · rw [hcount id hid]
    exact useCount_eq hbelow hups

theorem allocator_exact_amd64 :
    ∃ rs : RegIds, Allocates amd64 rs [.tryAlloc 0x104, .incUse 0x104, .free 0x104] ∧
      (rs.inuse 0x104).toNat = useCount 0x104 [.tryAlloc 0x104, .incUse 0x104, .free 0x104] := by
  have hrun : (RegIds.init amd64).tryAlloc amd64 1 =
      some (0x104, { (RegIds.init amd64).setUse 0x104 1 with curr := 0x105 }) := rfl
  have hin : amd64.Within 0x104 := ⟨by decide, by decide⟩
  have h := ((Allocates.init.tryAlloc hrun).incUse hin).free hin
  exact ⟨_, h, ((allocator_exact h).2.1 0x104 (by decide)).1⟩

/-- Increments alone are a run. -/
theorem allocates_incUse {c : RegIdConfig} {id : RegId} (hid : c.Within id) (n : Nat) :
    ∃ rs, Allocates c rs (List.replicate n (.incUse id)) := by
  induction n with
  | zero => exact ⟨_, .init⟩
  | succ n ih =>
    obtain ⟨rs, h⟩ := ih
    rw [List.replicate_succ']
    exact ⟨_, h.incUse hid⟩

/-- `IncUse` stops at the largest number: after more increments than that the use count is not
the number of increments. -/
theorem saturated : ¬ ∀ (c : RegIdConfig) (rs : RegIds) (es : List Event) (id : RegId),
    Allocates c rs es → c.valid id = true → NeverBelow id es →
      (rs.inuse id).toNat + Event.downs id es = Event.ups id es := by
  intro hall
  -- the number is kept abstract so that nothing evaluates the run
  obtain ⟨n, hn⟩ : ∃ n : Nat, n = 2 ^ 32 := ⟨_, rfl⟩
  obtain ⟨rs, h⟩ := @allocates_incUse amd64 0x104 ⟨by decide, by decide⟩ n
  have hbelow : NeverBelow 0x104 (List.replicate n (.incUse 0x104)) := by
    intro es' e hpre he
    have hmem : e ∈ List.replicate n (Event.incUse 0x104) := hpre.subset (by simp)
    rw [List.eq_of_mem_replicate hmem] at he
    simp at he
  have heq := hall amd64 rs _ 0x104 h (by decide) hbelow
  have hups : Event.ups 0x104 (List.replicate n (.incUse 0x104)) = n := by
    simp [Event.ups, List.count_replicate]
  have hdowns : Event.downs 0x104 (List.replicate n (.incUse 0x104)) = 0 := by
    simp [Event.downs, List.count_replicate]
  have hlt := (rs.inuse 0x104).isLt
  omega

end OneJit.GoJit
