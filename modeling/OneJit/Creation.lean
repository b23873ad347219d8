import OneJit.NodeEncoding
import OneJit.Op

/-!
# Creating nodes without memory

A creation writes several items, and each write can fail. `create_indirect` and
`create_indirect_from_ranges` leave the loop around the attempt only after the header was added, so
they repeat forever when there is no memory for it. A code with `2 ^ 30` items or more is cut back
too far, as its length in bytes does not fit in 32 bits.
-/

namespace OneJit

namespace Node

variable (c : Code)

/-- `sub_uint16`. -/
def subUint16 (a b : Nat) : BitVec 16 :=
  if b ≤ a then (if a - b < 2 ^ 16 then BitVec.ofNat 16 (a - b) else 0xFFFF) else 0

/-- `FuncType::param_n`. -/
def paramN (ftype : Node) : BitVec 16 := subUint16 (ftype.children c) ftype.header.op.toNat

/-- `FuncType::param`. -/
def param (ftype : Node) (i : BitVec 16) : Kind :=
  (ftype.child c (BitVec.ofNat 32 (i.toNat + ftype.header.op.toNat))).header.kind

end Node

namespace Code

/-- `add_uint32`: a sum that saturates. -/
def sumUint32 (a b : Nat) : BitVec 32 := if a + b < 2 ^ 32 then BitVec.ofNat 32 (a + b) else 0xFFFFFFFF

/-- `Call::create`. -/
def createCall (c : Code) (ftype address : Node) (args : List Node) : Node × Code :=
  let n := args.length
  if 2 ^ 32 ≤ n then (.empty, c)
  else
    let h : Header := ⟨.tuple, if ftype.paramN c = 0 then .void else ftype.param c 0,
      BitVec.ofNat 16 OpN.call.val⟩
    let offset := c.length
    let c1 := c.addItem h.item
    let c2 := if c1.good then c1.addItem (sumUint32 2 n) else c1
    let c3 := if c2.good then c2.addItem (childItem ftype offset) else c2
    let c4 := if c3.good then c3.addItem (childItem address offset) else c3
    finish (if c4.good then c4.addNodes offset args else c4) h offset

/-! ## Room for some items -/

/-- More items can be added. -/
def Room (c : Code) (n : Nat) : Prop := c.good = true ∧ c.items.length + n ≤ c.limit

instance (c : Code) (n : Nat) : Decidable (c.Room n) := inferInstanceAs (Decidable (_ ∧ _))

variable {c c' : Code}

theorem add_room (c : Code) (data : List (BitVec 32)) (n : Nat) :
    (c.add data).Room n ↔ c.Room (data.length + n) := by
  unfold add Room
  by_cases hroom : c.good = true ∧ c.items.length + data.length ≤ c.limit
  · rw [if_pos hroom]
    simp only [List.length_append, Nat.add_assoc]
  · rw [if_neg hroom]
    refine ⟨fun h => absurd h.1 Bool.false_ne_true, fun h => absurd ⟨h.1, ?_⟩ hroom⟩
    omega

theorem addItem_room (c : Code) (item : BitVec 32) (n : Nat) :
    (c.addItem item).Room n ↔ c.Room (n + 1) := by
  rw [addItem, add_room, List.length_singleton, Nat.add_comm]

/-- The next write is only tried when all before it succeeded. -/
theorem guard_room {f : Code → Code} (hf : Extends c (f c)) (n : Nat) :
    (if c.good then f c else c).Room n ↔ (f c).Room n := by
  by_cases hgood : c.good = true
  · rw [if_pos hgood]
  · rw [if_neg hgood]
    exact ⟨fun h => absurd h.1 hgood, fun h => absurd (hf.good h.1) hgood⟩

theorem addNodes_room (c : Code) (parent : BitVec 32) (nds : List Node) (n : Nat) :
    (c.addNodes parent nds).Room n ↔ c.Room (nds.length + n) := by
  induction nds generalizing c with
  | nil => rw [addNodes, List.length_nil, Nat.zero_add]
  | cons nd nds ih =>
    rw [addNodes]
    have hguard := @guard_room (c.addItem (childItem nd parent)) (·.addNodes parent nds)
      (addNodes_extends _ _ _) n
    rw [hguard, ih, addItem_room, List.length_cons, Nat.add_right_comm]

theorem addRanges_room (c : Code) (parent : BitVec 32) (ranges : List (List Node)) (n : Nat) :
    (c.addRanges parent ranges).Room n ↔ c.Room ((ranges.map List.length).sum + n) := by
  induction ranges generalizing c with
  | nil => rw [addRanges, List.map_nil, List.sum_nil, Nat.zero_add]
  | cons range ranges ih =>
    rw [addRanges]
    have hguard := @guard_room (c.addNodes parent range) (·.addRanges parent ranges)
      (addRanges_extends _ _ _) n
    rw [hguard, ih, addNodes_room, List.map_cons, List.sum_cons, Nat.add_assoc]

/-- A code whose writes succeeded has not passed its limit. -/
def Within (c : Code) : Prop := c.good = true → c.items.length ≤ c.limit

theorem add_within (c : Code) (data : List (BitVec 32)) : (c.add data).Within := by
  unfold add Within
  by_cases hroom : c.good = true ∧ c.items.length + data.length ≤ c.limit
  · rw [if_pos hroom, List.length_append]
    exact fun _ => hroom.2
  · rw [if_neg hroom]
    exact nofun

theorem Within.guard {f : Code → Code} (h : c.Within) (hf : ∀ c : Code, c.Within → (f c).Within) :
    (if c.good then f c else c).Within := by
  split
  · exact hf c h
  · exact h

theorem Within.addNodes (h : c.Within) (parent : BitVec 32) (nds : List Node) :
    (c.addNodes parent nds).Within := by
  induction nds generalizing c with
  | nil => exact h
  | cons nd nds ih => exact (add_within c [childItem nd parent]).guard fun _ h => ih h

theorem Within.addRanges (h : c.Within) (parent : BitVec 32) (ranges : List (List Node)) :
    (c.addRanges parent ranges).Within := by
  induction ranges generalizing c with
  | nil => exact h
  | cons range ranges ih => exact (h.addNodes parent range).guard fun _ h => ih h

/-- The writes of `n` items have been tried, one after the other. -/
structure Written (c c' : Code) (n : Nat) : Prop where
  grew : Extends c c'
  room : ∀ m, c'.Room m ↔ c.Room (n + m)
  within : c'.Within

namespace Written

variable {n : Nat}

theorem good_iff (h : Written c c' n) : c'.good = true ↔ c.Room n := by
  rw [← Nat.add_zero n, ← h.room]
  exact ⟨fun hgood => ⟨hgood, h.within hgood⟩, fun hroom => hroom.1⟩

theorem header (c : Code) (item : BitVec 32) : Written c (c.addItem item) 1 := by
  refine ⟨c.add_extends [item], fun m => ?_, add_within c [item]⟩
  rw [addItem_room, Nat.add_comm]

/-- The next writes, when all before them succeeded. -/
theorem next (h : Written c c' n) {f : Code → Code} {k : Nat} (hgrew : Extends c' (f c'))
    (hroom : ∀ m, (f c').Room m ↔ c'.Room (k + m)) (hwithin : c'.Within → (f c').Within) :
    Written c (if c'.good then f c' else c') (n + k) := by
  refine ⟨h.grew.trans ?_, fun m => ?_, ?_⟩
  · split
    · exact hgrew
    · exact .refl c'
  · rw [guard_room hgrew, hroom, h.room, Nat.add_assoc]
  · split
    · exact hwithin h.within
    · exact h.within

theorem add (h : Written c c' n) (data : List (BitVec 32)) :
    Written c (if c'.good then c'.add data else c') (n + data.length) :=
  @next _ _ _ h (·.add data) _ (c'.add_extends data) (add_room c' data)
    fun _ => add_within c' data

theorem addItem (h : Written c c' n) (item : BitVec 32) :
    Written c (if c'.good then c'.addItem item else c') (n + 1) :=
  h.add [item]

theorem addNodes (h : Written c c' n) (parent : BitVec 32) (nds : List Node) :
    Written c (if c'.good then c'.addNodes parent nds else c') (n + nds.length) :=
  @next _ _ _ h (·.addNodes parent nds) _ (c'.addNodes_extends parent nds)
    (addNodes_room c' parent nds) fun hwithin => hwithin.addNodes parent nds

theorem addRanges (h : Written c c' n) (parent : BitVec 32) (ranges : List (List Node)) :
    Written c (if c'.good then c'.addRanges parent ranges else c')
      (n + (ranges.map List.length).sum) :=
  @next _ _ _ h (·.addRanges parent ranges) _ (c'.addRanges_extends parent ranges)
    (addRanges_room c' parent ranges) fun hwithin => hwithin.addRanges parent ranges

end Written

/-! ## Atomic creations -/

/-- The creation returns. It has either written a whole node, or needed to write nothing, or it
returns the empty node and the code has as many items as before. -/
def Atomic (c : Code) (r : Option (Node × Code)) : Prop :=
  ∃ nd c', r = some (nd, c') ∧
    ((nd ≠ .empty ∧ (c'.good = true ∨ nd.inCode = false ∧ c' = c)) ∨
      (nd = .empty ∧ c'.items.length = c.items.length))

/-- A length in bytes that fits in 32 bits is enough to cut the code back. -/
theorem length_truncate (h : c.items <+: c'.items) :
    (c'.truncate c.length).items.length = c.items.length ↔ c.Fits := by
  have hle := h.length_le
  have hbytes : c.length.toNat / 4 = c.items.length % 2 ^ 30 := by
    rw [length, BitVec.toNat_ofNat]
    omega
  rw [truncate, hbytes, List.length_take, Fits]
  omega

theorem finish_atomic {n : Nat} (hwrite : Written c c' n) (h : Header) :
    Atomic c (some (finish c' h c.length)) ↔ c.Room n ∨ c.Fits := by
  rw [← hwrite.good_iff, finish]
  by_cases hgood : c'.good = true
  · rw [if_pos hgood]
    refine ⟨fun _ => .inl hgood, fun _ => ⟨_, _, rfl, .inl ⟨fun hempty => ?_, .inl hgood⟩⟩⟩
    exact Bool.false_ne_true (congrArg Node.inCode hempty).symm
  · rw [if_neg hgood, ← length_truncate hwrite.grew.items]
    constructor
    · rintro ⟨nd, c'', heq, hcase⟩
      obtain ⟨rfl, rfl⟩ := Prod.mk.inj (Option.some.inj heq)
      rcases hcase with ⟨hne, -⟩ | ⟨-, hlength⟩
      · exact absurd rfl hne
      · exact .inr hlength
    · rintro (hroom | hlength)
      · exact absurd hroom hgood
      · exact ⟨_, _, rfl, .inr ⟨rfl, hlength⟩⟩

/-- A creation that does nothing. -/
theorem atomic_empty (c : Code) : Atomic c (some (.empty, c)) :=
  ⟨.empty, c, rfl, .inr ⟨rfl, rfl⟩⟩

theorem not_atomic_none (c : Code) : ¬Atomic c none := by
  rintro ⟨nd, c', hnone, -⟩
  cases hnone

/-- The number of items that a node with `n` children takes. -/
def nodeItems (h : Header) (n : Nat) : Nat := (if h.type.isList then 2 else 1) + n

/-- The header and, for list types, the child count. -/
theorem Written.head (c : Code) (h : Header) (count : BitVec 32)
    (hheader : (c.addItem h.item).good = true) :
    Written c (if h.type.isList then (c.addItem h.item).addItem count else c.addItem h.item)
      (if h.type.isList then 2 else 1) := by
  have hhead := Written.header c h.item
  by_cases hlist : h.type.isList = true
  · have hcount := hhead.addItem count
    rw [if_pos hheader] at hcount
    rw [if_pos hlist, if_pos hlist]
    exact hcount
  · rw [if_neg hlist, if_neg hlist]
    exact hhead

theorem createIndirect_atomic_iff (c : Code) (h : Header) (children : List Node) :
    Atomic c (c.createIndirect h children) ↔ 2 ^ 32 ≤ children.length ∨
      c.Room 1 ∧ (c.Room (nodeItems h children.length) ∨ c.Fits) := by
  unfold createIndirect
  dsimp only
  by_cases hlarge : 2 ^ 32 ≤ children.length
  · rw [if_pos hlarge]
    exact ⟨fun _ => .inl hlarge, fun _ => atomic_empty c⟩
  · rw [if_neg hlarge]
    have hheader := (Written.header c h.item).good_iff
    by_cases hgood : (c.addItem h.item).good = true
    · rw [if_pos hgood, finish_atomic ((Written.head c h _ hgood).addNodes c.length children)]
      exact ⟨fun hcase => .inr ⟨hheader.mp hgood, hcase⟩,
        fun hcase => (hcase.resolve_left hlarge).2⟩
    · rw [if_neg hgood]
      refine ⟨fun hatomic => absurd hatomic (not_atomic_none c), ?_⟩
      rintro (hn | ⟨hroom, -⟩)
      · exact absurd hn hlarge
      · exact absurd (hheader.mpr hroom) hgood

theorem createIndirectFromRanges_atomic_iff (c : Code) (h : Header) (nodes : List (List Node)) :
    Atomic c (c.createIndirectFromRanges h nodes) ↔
      (h.type.isList = true → (nodes.map List.length).sum < 2 ^ 32) ∧ c.Room 1 ∧
        (c.Room (nodeItems h (nodes.map List.length).sum) ∨ c.Fits) := by
  unfold createIndirectFromRanges
  dsimp only
  have hheader := (Written.header c h.item).good_iff
  have hcount : (if h.type.isList = true then (nodes.map List.length).sum else 0) < 2 ^ 32 ↔
      (h.type.isList = true → (nodes.map List.length).sum < 2 ^ 32) := by
    by_cases hlist : h.type.isList = true
    · rw [if_pos hlist]
      exact ⟨fun hlt _ => hlt, fun hlt => hlt hlist⟩
    · rw [if_neg hlist]
      exact ⟨fun _ hlist' => absurd hlist' hlist, fun _ => by decide⟩
  have hcond := and_congr hcount hheader
  rw [← and_assoc, ← hcond]
  by_cases hpass : (if h.type.isList = true then (nodes.map List.length).sum else 0) < 2 ^ 32 ∧
      (c.addItem h.item).good = true
  · rw [if_pos hpass, finish_atomic ((Written.head c h _ hpass.2).addRanges c.length nodes)]
    exact ⟨fun hcase => ⟨hpass, hcase⟩, fun hall => hall.2⟩
  · rw [if_neg hpass]
    exact ⟨fun hatomic => absurd hatomic (not_atomic_none c), fun hall => absurd hall.1 hpass⟩

theorem createCall_atomic_iff (c : Code) (ftype address : Node) (args : List Node) :
    Atomic c (some (c.createCall ftype address args)) ↔
      2 ^ 32 ≤ args.length ∨ c.Room (4 + args.length) ∨ c.Fits := by
  unfold createCall
  dsimp only
  by_cases hlarge : 2 ^ 32 ≤ args.length
  · rw [if_pos hlarge]
    exact ⟨fun _ => .inl hlarge, fun _ => atomic_empty c⟩
  · rw [if_neg hlarge, finish_atomic
      (((((Written.header c _).addItem _).addItem _).addItem _).addNodes c.length args)]
    exact ⟨.inr, fun hcase => hcase.resolve_left hlarge⟩

/-- The number of items of a constant outside its parent. -/
def constItems (v : Value) : Nat := if v.kind.bitsize = 64 then 3 else 2

theorem createConst_atomic_iff (c : Code) (v : Value) :
    Atomic c (some (c.createConst v)) ↔
      v.isValid = false ∨ Imm.directOf v ≠ 0 ∨ c.Room (constItems v) ∨ c.Fits := by
  unfold createConst
  dsimp only
  cases hvalid : v.isValid with
  | false => exact ⟨fun _ => .inl rfl, fun _ => atomic_empty c⟩
  | true =>
    rw [if_neg (by simp)]
    by_cases hdirect : Imm.directOf v ≠ 0
    · rw [if_pos hdirect]
      refine ⟨fun _ => .inr (.inl hdirect), fun _ => ⟨_, c, rfl, .inl ⟨fun hempty => ?_, ?_⟩⟩⟩
      · exact hdirect (congrArg Node.offOrDir hempty)
      · exact .inr ⟨rfl, rfl⟩
    · rw [if_neg hdirect]
      have hwrite : Written c (if (c.addItem (Header.item ⟨.const, v.kind, 0⟩)).good then
          if v.kind.bitsize = 64 then (c.addItem (Header.item ⟨.const, v.kind, 0⟩)).addUint64 v.bits
          else (c.addItem (Header.item ⟨.const, v.kind, 0⟩)).addItem (v.bits.setWidth 32)
        else c.addItem (Header.item ⟨.const, v.kind, 0⟩)) (constItems v) := by
        have hhead := Written.header c (Header.item ⟨.const, v.kind, 0⟩)
        unfold constItems
        by_cases hsize : v.kind.bitsize = 64
        · rw [if_pos hsize, if_pos hsize]
          exact hhead.add [v.bits.setWidth 32, (v.bits >>> 32).setWidth 32]
        · rw [if_neg hsize, if_neg hsize]
          exact hhead.addItem _
      rw [finish_atomic hwrite]
      exact ⟨fun hcase => .inr (.inr hcase),
        fun hcase => (hcase.resolve_left Bool.false_ne_true.symm).resolve_left hdirect⟩

/-- When each of the four ways to create a node is atomic. -/
theorem creations_atomic_iff (c : Code) :
    (∀ h children, Atomic c (c.createIndirect h children) ↔ 2 ^ 32 ≤ children.length ∨
      c.Room 1 ∧ (c.Room (nodeItems h children.length) ∨ c.Fits)) ∧
    (∀ h nodes, Atomic c (c.createIndirectFromRanges h nodes) ↔
      (h.type.isList = true → (nodes.map List.length).sum < 2 ^ 32) ∧ c.Room 1 ∧
        (c.Room (nodeItems h (nodes.map List.length).sum) ∨ c.Fits)) ∧
    (∀ ftype address args, Atomic c (some (c.createCall ftype address args)) ↔
      2 ^ 32 ≤ args.length ∨ c.Room (4 + args.length) ∨ c.Fits) ∧
    ∀ v, Atomic c (some (c.createConst v)) ↔
      v.isValid = false ∨ Imm.directOf v ≠ 0 ∨ c.Room (constItems v) ∨ c.Fits :=
  ⟨createIndirect_atomic_iff c, createIndirectFromRanges_atomic_iff c, createCall_atomic_iff c,
    createConst_atomic_iff c⟩

/-- A code of 64 items, with memory for no more. -/
def fullCode : Code := (init 64).add (List.replicate 62 0)

/-- The creations of a node with children then never return. -/
theorem fullCode_not_atomic : fullCode.good = true ∧
    fullCode.createIndirect ⟨.binary, ⟨.int32, 0⟩, 1⟩ [] = none ∧
    fullCode.createIndirectFromRanges ⟨.tuple, ⟨.int32, 0⟩, 1⟩ [] = none ∧
    ¬Atomic fullCode (fullCode.createIndirect ⟨.binary, ⟨.int32, 0⟩, 1⟩ []) := by
  have hnone : fullCode.createIndirect ⟨.binary, ⟨.int32, 0⟩, 1⟩ [] = none := by decide
  refine ⟨by decide, hnone, by decide, ?_⟩
  rw [hnone]
  exact not_atomic_none fullCode

end Code

end OneJit
