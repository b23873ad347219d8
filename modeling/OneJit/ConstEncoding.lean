import OneJit.Arith
import OneJit.CodeParser

/-!
# Reading a constant back

A constant that has a direct form is kept in its node; every other one is written behind a header,
as 64 bits for a kind of that size and as 32 bits else. The 32 bits are read back without their
sign: a negative `Int32` that has no direct form is read back as another value.
-/

namespace OneJit

/-- `Code::uint32`. -/
def Code.uint32 (c : Code) (byteOffset : BitVec 32) : BitVec 32 := c.get byteOffset

/-- `Code::uint64`: zero when one of the two items is out of bounds. -/
def Code.uint64 (c : Code) (byteOffset : BitVec 32) : BitVec 64 :=
  let index := byteOffset.toNat / 4
  if index + 1 < c.items.length then
    (c.items.getD (index + 1) 0 ++ c.items.getD index 0 : BitVec 64)
  else 0

/-- `Imm::parse_indirect`. -/
def Imm.parseIndirect (k : Kind) (offset : BitVec 32) (holder : Code) : Value :=
  if k.bitsize = 64 then ⟨holder.uint64 offset, k⟩
  else ⟨(holder.uint32 offset).setWidth 64, k⟩

/-- `Const::val`. -/
def Node.val (c : Code) (nd : Node) : Value :=
  if nd.inCode then Imm.parseIndirect nd.header.kind (nd.offOrDir + 4) c
  else Imm.toConst nd.offOrDir

/-! ## The items of a constant -/

/-- The items that `write_indirect` adds. -/
def Imm.words (v : Value) : List (BitVec 32) :=
  if v.kind.bitsize = 64 then [v.bits.setWidth 32, (v.bits >>> 32).setWidth 32]
  else [v.bits.setWidth 32]

/-- Both words of a pattern. -/
theorem words_append (b : BitVec 64) :
    ((b >>> 32).setWidth 32 ++ b.setWidth 32 : BitVec 64) = b := by
  apply BitVec.eq_of_getLsbD_eq
  intro i hi
  rw [BitVec.getLsbD_append, BitVec.getLsbD_setWidth, BitVec.getLsbD_setWidth,
    BitVec.getLsbD_ushiftRight]
  by_cases hlow : i < 32
  · simp [hlow]
  · simp [hlow, show i - 32 < 32 by omega, show 32 + (i - 32) = i by omega]

namespace Code

/-- A constant without a direct form is written as its header and its words. -/
theorem createConst_items {c c' : Code} {v : Value} {nd : Node} (hdirect : Imm.directOf v = 0)
    (heq : c.createConst v = (nd, c')) (hne : nd ≠ .empty) :
    nd = ⟨⟨.const, v.kind, 0⟩, c.length, true⟩ ∧
      c'.items = c.items ++ Header.item ⟨.const, v.kind, 0⟩ :: Imm.words v := by
  simp only [createConst] at heq
  split at heq
  · exact absurd (Prod.mk.inj heq).1.symm hne
  · rw [if_neg (not_not_intro hdirect)] at heq
    have hwrite : ∀ c1 : Code, c1.good = true → (if v.kind.bitsize = 64 then c1.addUint64 v.bits
        else c1.addItem (v.bits.setWidth 32)).good = true →
        Grew c1 (if v.kind.bitsize = 64 then c1.addUint64 v.bits
          else c1.addItem (v.bits.setWidth 32)) (Imm.words v) := by
      intro c1 _ h1
      rw [Imm.words]
      split at h1
      · next hwide =>
        rw [if_pos hwide, if_pos hwide]
        exact add_good h1
      · next hwide =>
        rw [if_neg hwide, if_neg hwide]
        exact add_good h1
    obtain ⟨hgood, hnd, rfl⟩ := finish_created heq hne
    exact ⟨hnd, add_then_good hwrite hgood⟩

/-- The words of a constant are read from the items behind its header. -/
theorem parseIndirect_words {c c' : Code} {k : Kind} {v : Value} (hfits : c.Fits)
    (hfits' : c'.Fits) (hk : v.kind = k)
    (hitems : c.items ++ Header.item ⟨.const, k, 0⟩ :: Imm.words v <+: c'.items) :
    Imm.parseIndirect k (c.length + 4) c' = ⟨Imm.indirectBits v, k⟩ := by
  subst hk
  obtain ⟨rest, hrest⟩ := hitems
  have hlength := congrArg List.length hrest
  rw [List.length_append, List.length_append, List.length_cons] at hlength
  have hpos : 1 ≤ (Imm.words v).length := by
    rw [Imm.words]
    split <;> simp
  unfold Code.Fits at hfits hfits'
  have hindex : (c.length + 4).toNat / 4 = c.items.length + 1 := by
    rw [BitVec.toNat_add, Code.length_toNat hfits, show (4 : BitVec 32).toNat = 4 from rfl]
    omega
  have hget : ∀ j < (Imm.words v).length,
      c'.items.getD (c.items.length + 1 + j) 0 = (Imm.words v).getD j 0 := by
    intro j hj
    rw [← hrest, List.append_assoc, List.cons_append]
    simp only [List.getD_eq_getElem?_getD]
    rw [List.getElem?_append_right (by omega),
      show c.items.length + 1 + j - c.items.length = j + 1 by omega, List.getElem?_cons_succ,
      List.getElem?_append_left hj]
  rw [Imm.parseIndirect, Imm.indirectBits]
  by_cases hwide : v.kind.bitsize = 64
  · have hwords : Imm.words v = [v.bits.setWidth 32, (v.bits >>> 32).setWidth 32] := if_pos hwide
    rw [hwords] at hget hlength
    have hfirst := hget 0 (by simp)
    have hsecond := hget 1 (by simp)
    rw [Nat.add_zero] at hfirst
    rw [if_pos hwide, if_pos hwide, Code.uint64, hindex, if_pos (by simp at hlength; omega), hfirst,
      hsecond]
    exact congrArg (Value.mk · v.kind) (words_append v.bits)
  · have hwords : Imm.words v = [v.bits.setWidth 32] := if_neg hwide
    rw [hwords] at hget
    have hfirst := hget 0 (by simp)
    rw [Nat.add_zero] at hfirst
    rw [if_neg hwide, if_neg hwide, Code.uint32, Code.get, hindex, hfirst]
    rfl

end Code

/-! ## Along a run -/

/-- A constant is created in a reachable code. -/
structure ConstCreated (w w' : World) (v : Value) (nd : Node) : Prop where
  reachable : w.Reachable
  create : w.code.createConst v = (nd, w'.code)
  created : nd ≠ .empty
  nodes : w'.nodes = nd :: w.nodes
  fits : w'.code.Fits

theorem ConstCreated.step {w w' : World} {v : Value} {nd : Node} (h : ConstCreated w w' v nd) :
    World.Step w w' where
  creates := by
    have hcreates :
        Code.Creates w.code w.Usable (w.code.createConst v).1 (w.code.createConst v).2 :=
      Code.Creates.const v
    rw [h.create] at hcreates
    exact ⟨nd, hcreates, h.nodes⟩
  fits := h.fits

/-- Whatever is created later, the constant has one value: the one it is read back as. -/
theorem ConstCreated.val {w w' w'' : World} {v : Value} {nd : Node} (h : ConstCreated w w' v nd)
    (hlater : w'.Later w'') : nd.val w''.code = Imm.readBack v := by
  have hinv := h.reachable.inv
  obtain ⟨hinv'', hgrown⟩ := World.later_inv (World.step_inv hinv h.step) hlater
  rw [Imm.readBack]
  by_cases hdirect : Imm.directOf v = 0
  · obtain ⟨hnd, hitems⟩ := Code.createConst_items hdirect h.create h.created
    rw [hitems] at hgrown
    rw [if_neg (not_not_intro hdirect), Node.val, hnd, if_pos rfl]
    exact Code.parseIndirect_words hinv.fits hinv''.fits rfl hgrown
  · have hcreate := h.create
    simp only [Code.createConst] at hcreate
    split at hcreate
    · exact absurd (Prod.mk.inj hcreate).1.symm h.created
    · obtain ⟨rfl, -⟩ := Prod.mk.inj hcreate
      rw [if_pos hdirect]
      rfl

/-- The constant is read back as it is, from its node and from every node that has it as child. -/
structure Survives (v : Value) : Prop where
  own : ∀ {w w' w'' : World} {nd : Node}, ConstCreated w w' v nd → w'.Later w'' →
    nd.val w''.code = v
  child : ∀ {w w' w₁ w₂ w₃ : World} {nd parent : Node} {h : Header} {ranges : List (List Node)},
    ConstCreated w w' v nd → w'.Later w₁ → (∀ ch ∈ ranges.flatten, w₁.Usable ch) →
    (w₁.code.createIndirect h ranges.flatten = some (parent, w₂.code) ∨
      w₁.code.createIndirectFromRanges h ranges = some (parent, w₂.code)) →
    w₂.nodes = parent :: w₁.nodes → parent.inCode = true → w₂.code.Fits →
    h.Admits ranges.flatten.length → w₂.Later w₃ →
    ∀ i : BitVec 32, ranges.flatten[i.toNat]? = some nd →
      (parent.child w₃.code i).val w₃.code = v

theorem World.Reachable.later {w w' : World} (h : w.Reachable) (hlater : w.Later w') :
    w'.Reachable := by
  obtain ⟨limit, hreach⟩ := h
  exact ⟨limit, hreach.trans hlater⟩

/-- A child is the node that was passed, so its value is that of the node. -/
theorem survives_of_readBack {v : Value} (h : Imm.readBack v = v) : Survives v where
  own hcreated hlater := (hcreated.val hlater).trans h
  child := by
    intro w w' w₁ w₂ w₃ nd parent hd ranges hcreated hlater husable hcreate hnodes hin hfits harity
      hlast i hi
    have hreach : w₁.Reachable := (hcreated.reachable.later (.single hcreated.step)).later hlater
    have hcreates : w₁.code.Creates w₁.Usable parent w₂.code := by
      rcases hcreate with heq | heq
      · exact .indirect hd _ husable heq
      · exact .ranges hd ranges husable heq
    have hrun : w'.Later w₃ := hlater.trans (.head ⟨⟨parent, hcreates, hnodes⟩, hfits⟩ hlast)
    obtain ⟨rfl, hholds⟩ := holds_created hreach husable hcreate hnodes hin hfits hlast
    obtain ⟨-, hread⟩ := child_of_items hholds.fits hholds.later harity hholds.usable hholds.items
    rw [hread, List.getD_eq_getElem?_getD, hi, Option.getD_some]
    exact (hcreated.val hrun).trans h

/-- A new code has room for a constant. -/
theorem constCreated_init {v : Value} (hvalid : v.isValid) : ∃ nd c,
    ConstCreated ⟨.init 64, []⟩ ⟨c, [nd]⟩ v nd := by
  have hreach : World.Reachable ⟨.init 64, []⟩ := ⟨64, .refl⟩
  by_cases hdirect : Imm.directOf v = 0
  · refine ⟨⟨⟨.const, v.kind, 0⟩, 8, true⟩,
      ⟨(Code.init 64).items ++ Header.item ⟨.const, v.kind, 0⟩ :: Imm.words v, true, 64⟩,
      hreach, ?_, by simp [Node.empty], rfl, ?_⟩
    · by_cases hwide : v.kind.bitsize = 64
      · simp [Code.createConst, hvalid, hdirect, hwide, Code.finish, Code.addItem, Code.addUint64,
          Code.add, Code.init, Imm.words, Code.length]
      · simp [Code.createConst, hvalid, hdirect, hwide, Code.finish, Code.addItem, Code.add,
          Code.init, Imm.words, Code.length]
    · have hwords : (Imm.words v).length ≤ 2 := by
        rw [Imm.words]
        split <;> simp
      simp only [Code.Fits, Code.init]
      simp
      omega
  · refine ⟨⟨⟨.const, v.kind, 0⟩, Imm.directOf v, false⟩, .init 64, hreach, ?_, ?_, rfl, ?_⟩
    · rw [Code.createConst, hvalid, Bool.not_true, if_neg Bool.false_ne_true, if_pos hdirect]
    · intro hempty
      cases congrArg (·.header.type) hempty
    · simp [Code.Fits, Code.init]

/-- A valid constant without SIMD repetitions survives exactly when it is read back as it is. -/
theorem survives_iff (v : Value) (hvalid : v.isValid) (hsimd : v.kind.simd = 0) :
    Survives v ↔ Imm.isKept v := by
  rw [← Imm.readBack_eq_iff v hvalid hsimd]
  constructor
  · intro h
    obtain ⟨nd, c, hcreated⟩ := constCreated_init hvalid
    rw [← hcreated.val .refl]
    exact h.own hcreated .refl
  · exact survives_of_readBack

theorem survives_iff_int64 :
    Survives ⟨0x123456789ABCDEF, .int64⟩ ↔ Imm.isKept ⟨0x123456789ABCDEF, .int64⟩ :=
  survives_iff ⟨0x123456789ABCDEF, .int64⟩ (by decide) rfl

/-- `-0x12345679` on `Int32` is read back as a positive pattern. -/
theorem not_survives_int32 :
    ¬∀ v : Value, v.isValid → v.kind.simd = 0 → Survives v := by
  intro h
  have hlost : Imm.readBack ⟨0xFFFFFFFFEDCBA987, .int32⟩ ≠ ⟨0xFFFFFFFFEDCBA987, .int32⟩ := by
    decide
  obtain ⟨nd, c, hcreated⟩ :=
    constCreated_init (v := ⟨0xFFFFFFFFEDCBA987, .int32⟩) (by decide)
  apply hlost
  rw [← hcreated.val .refl]
  exact (h ⟨0xFFFFFFFFEDCBA987, .int32⟩ (by decide) rfl).own hcreated .refl

end OneJit
