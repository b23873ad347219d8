import Mathlib.Logic.Relation
import OneJit.Code

/-!
# Decoding a node undoes encoding it

Every creation either appends its items behind the existing ones or leaves the existing ones
alone, so an item once written stays. From this a node that was created in a code is found
again, whatever is created later, and the children of a node are read back as they were passed.
-/

namespace OneJit

/-! ## Headers and local variables -/

private theorem pack_header_toNat (t k op : Nat) (ht : t < 16) (hk : k < 256)
    (hop : op < 65536) :
    (0xE#32 ||| BitVec.ofNat 32 t <<< 4 ||| BitVec.ofNat 32 k <<< 8 |||
      BitVec.ofNat 32 op <<< 16).toNat = 14 + 16 * t + 256 * k + 65536 * op := by
  have hlow : t <<< 4 ||| 14 = t * 2 ^ 4 + 14 := by
    rw [← Nat.shiftLeft_add_eq_or_of_lt (by omega), Nat.shiftLeft_eq]
  have hmid : k <<< 8 ||| (t * 2 ^ 4 + 14) = k * 2 ^ 8 + (t * 2 ^ 4 + 14) := by
    rw [← Nat.shiftLeft_add_eq_or_of_lt (by omega), Nat.shiftLeft_eq]
  have hhigh : op <<< 16 ||| (k * 2 ^ 8 + (t * 2 ^ 4 + 14)) =
      op * 2 ^ 16 + (k * 2 ^ 8 + (t * 2 ^ 4 + 14)) := by
    rw [← Nat.shiftLeft_add_eq_or_of_lt (by omega), Nat.shiftLeft_eq]
  have hshift : ∀ x n : Nat, x < 65536 → n ≤ 16 →
      (BitVec.ofNat 32 x <<< n).toNat = x <<< n := by
    intro x n hx hn
    have hpow : x * 2 ^ n < 2 ^ 32 := by
      calc x * 2 ^ n < 2 ^ 16 * 2 ^ n := Nat.mul_lt_mul_of_pos_right hx (Nat.two_pow_pos n)
        _ ≤ 2 ^ 16 * 2 ^ 16 := Nat.mul_le_mul_left _ (Nat.pow_le_pow_right (by omega) hn)
        _ = 2 ^ 32 := by decide
    rw [BitVec.toNat_shiftLeft, BitVec.toNat_ofNat, Nat.shiftLeft_eq,
      Nat.mod_eq_of_lt (show x < 2 ^ 32 by omega), Nat.mod_eq_of_lt hpow, Nat.shiftLeft_eq]
  have hpack : (0xE#32 ||| BitVec.ofNat 32 t <<< 4 ||| BitVec.ofNat 32 k <<< 8 |||
      BitVec.ofNat 32 op <<< 16).toNat = op <<< 16 ||| (k <<< 8 ||| (t <<< 4 ||| 14)) := by
    simp only [BitVec.toNat_or]
    rw [hshift t 4 (by omega) (by omega), hshift k 8 (by omega) (by omega),
      hshift op 16 (by omega) (by omega), show (0xE#32).toNat = 14 from rfl]
    ac_rfl
  rw [hpack, hlow, hmid, hhigh]
  omega

namespace Header

/-- The header item, field by field. -/
theorem item_toNat (h : Header) :
    h.item.toNat = 14 + 16 * h.type.toNat + 256 * h.kind.val.toNat + 65536 * h.op.toNat := by
  have hk := h.kind.val.isLt
  have hop := h.op.isLt
  have hpack := pack_header_toNat h.type.toNat h.kind.val.toNat h.op.toNat h.type.toNat_lt
    hk hop
  have hkind : h.kind.val.setWidth 32 = BitVec.ofNat 32 h.kind.val.toNat := by
    simp
  have hopw : h.op.setWidth 32 = BitVec.ofNat 32 h.op.toNat := by
    simp
  rw [item, hkind, hopw, hpack]

@[simp]
theorem ofItem_item (h : Header) : ofItem h.item = h := by
  have hitem := h.item_toNat
  have ht := h.type.toNat_lt
  have hk := h.kind.val.isLt
  have hop := h.op.isLt
  have htype : (h.item >>> 4 &&& 0xF).toNat = h.type.toNat := by
    rw [BitVec.toNat_and, show (0xF : BitVec 32).toNat = 2 ^ 4 - 1 from rfl,
      Nat.and_two_pow_sub_one_eq_mod, BitVec.toNat_ushiftRight, Nat.shiftRight_eq_div_pow, hitem]
    omega
  have hkind : (h.item >>> 8).setWidth 8 = h.kind.val := by
    apply BitVec.eq_of_toNat_eq
    rw [BitVec.toNat_setWidth, BitVec.toNat_ushiftRight, Nat.shiftRight_eq_div_pow, hitem]
    omega
  have hopw : (h.item >>> 16).setWidth 16 = h.op := by
    apply BitVec.eq_of_toNat_eq
    rw [BitVec.toNat_setWidth, BitVec.toNat_ushiftRight, Nat.shiftRight_eq_div_pow, hitem]
    omega
  simp only [ofItem, htype, hkind, hopw, NodeType.ofVal_toNat, Kind.ofVal_val]

end Header

namespace Local

/-- The direct item of a local variable keeps its bits above the tag. -/
theorem direct_toNat (l : Local) (h : l.isDirect) : l.direct.toNat = 2 + 8 * l.val.toNat := by
  have hlt : l.val.toNat < 2 ^ 29 := by
    have hzero : l.val >>> 29 = 0 := by simpa [isDirect] using h
    have hnat := congrArg BitVec.toNat hzero
    rw [BitVec.toNat_ushiftRight, Nat.shiftRight_eq_div_pow] at hnat
    have hdiv : l.val.toNat / 2 ^ 29 = 0 := hnat
    omega
  have hor : l.val.toNat <<< 3 ||| 2 = l.val.toNat * 2 ^ 3 + 2 := by
    rw [← Nat.shiftLeft_add_eq_or_of_lt (by omega), Nat.shiftLeft_eq]
  rw [direct, BitVec.toNat_or, BitVec.toNat_shiftLeft, Nat.shiftLeft_eq, Nat.mod_eq_of_lt
    (by omega), ← Nat.shiftLeft_eq, Nat.or_comm, show (0x2#32).toNat = 2 from rfl, hor]
  omega

theorem parseDirectKind_direct (l : Local) (h : l.isDirect) :
    parseDirectKind l.direct = l.kind := by
  have hnat := l.direct_toNat h
  have hval : l.direct >>> 3 = l.val := by
    apply BitVec.eq_of_toNat_eq
    rw [BitVec.toNat_ushiftRight, Nat.shiftRight_eq_div_pow, hnat]
    omega
  rw [parseDirectKind, hval, kind]

end Local

/-! ## The forms of a child -/

/-- A child that is stored in its parent: empty, a small constant, a local variable with a
small identifier or a statement without children. -/
inductive Node.IsDirect : Node → Prop
  | empty : IsDirect Node.empty
  | const (v : Value) (h : Imm.directOf v ≠ 0) :
      IsDirect ⟨⟨.const, v.kind, 0⟩, Imm.directOf v, false⟩
  | constUint16 (k : Kind) (val : BitVec 16) :
      IsDirect ⟨⟨.const, k.nosimd, 0⟩, Imm.directOfUint16 k val, false⟩
  | constInt16 (k : Kind) (val : BitVec 16) :
      IsDirect ⟨⟨.const, k.nosimd, 0⟩, Imm.directOfInt16 k val, false⟩
  | var (l : Local) (h : l.isDirect) : IsDirect ⟨⟨.var, l.kind, 0⟩, l.direct, false⟩
  | stmt0 (op : BitVec 16) :
      IsDirect ⟨⟨.stmt0, .void, op⟩, op.setWidth 32 <<< 4 ||| 6#32, false⟩

/-- The node is stored in the code: its header item is at its offset. -/
structure Node.StoredIn (nd : Node) (c : Code) : Prop where
  inCode : nd.inCode = true
  aligned : nd.offOrDir.toNat % 4 = 0
  header : c.items[nd.offOrDir.toNat / 4]? = some nd.header.item

/-- The length of the code in bytes is a valid offset. -/
def Code.Fits (c : Code) : Prop := 4 * c.items.length < 2 ^ 32

theorem Node.IsDirect.inCode {nd : Node} (h : nd.IsDirect) : nd.inCode = false := by
  cases h <;> rfl

/-- A test on the low bits of an item, as a remainder. -/
private theorem and_mask_eq_iff (x : BitVec 32) (n r : Nat) (hn : n ≤ 32) (hr : r < 2 ^ n) :
    x &&& BitVec.ofNat 32 (2 ^ n - 1) = BitVec.ofNat 32 r ↔ x.toNat % 2 ^ n = r := by
  have hpow : 2 ^ n ≤ 2 ^ 32 := Nat.pow_le_pow_right (by omega) hn
  have hand : (x &&& BitVec.ofNat 32 (2 ^ n - 1)).toNat = x.toNat % 2 ^ n := by
    rw [BitVec.toNat_and, BitVec.toNat_ofNat, Nat.mod_eq_of_lt (by omega),
      Nat.and_two_pow_sub_one_eq_mod]
  rw [← BitVec.toNat_inj, hand, BitVec.toNat_ofNat,
    Nat.mod_eq_of_lt (show r < 2 ^ 32 by omega)]

private theorem tag_const (item : BitVec 32) : item &&& 1 ≠ 0 ↔ item.toNat % 2 = 1 := by
  have h := and_mask_eq_iff item 1 0 (by omega) (by omega)
  have hmod := Nat.mod_two_eq_zero_or_one item.toNat
  constructor
  · intro hne
    exact hmod.resolve_left (fun hz => hne (h.mpr hz))
  · intro hone hz
    have := h.mp hz
    omega

private theorem tag_var (item : BitVec 32) : item &&& 7 = 2 ↔ item.toNat % 8 = 2 :=
  and_mask_eq_iff item 3 2 (by omega) (by omega)

private theorem tag_stmt0 (item : BitVec 32) : item &&& 0xF = 6 ↔ item.toNat % 16 = 6 :=
  and_mask_eq_iff item 4 6 (by omega) (by omega)

private theorem tag_indirect (item : BitVec 32) : item &&& 3 = 0 ↔ item.toNat % 4 = 0 :=
  and_mask_eq_iff item 2 0 (by omega) (by omega)

private theorem stmt0_item_toNat (op : BitVec 16) :
    (op.setWidth 32 <<< 4 ||| 6#32).toNat = 6 + 16 * op.toNat := by
  have hop := op.isLt
  have hwide : (op.setWidth 32).toNat = op.toNat := by
    rw [BitVec.toNat_setWidth]
    omega
  have hor : op.toNat <<< 4 ||| 6 = op.toNat * 2 ^ 4 + 6 := by
    rw [← Nat.shiftLeft_add_eq_or_of_lt (by omega), Nat.shiftLeft_eq]
  rw [BitVec.toNat_or, BitVec.toNat_shiftLeft, hwide, Nat.shiftLeft_eq,
    Nat.mod_eq_of_lt (by omega), ← Nat.shiftLeft_eq, show (6#32).toNat = 6 from rfl, hor]
  omega

private theorem ofItem_const (c : Code) (parent item : BitVec 32) (h : item.toNat % 2 = 1) :
    Node.ofItem c parent item = ⟨⟨.const, Imm.directKind item, 0⟩, item, false⟩ := by
  rw [Node.ofItem, if_pos ((tag_const item).mpr h)]

/-- A direct child is read back from its item. -/
theorem Node.ofItem_direct (c : Code) (parent : BitVec 32) {nd : Node} (h : nd.IsDirect) :
    Node.ofItem c parent nd.offOrDir = nd := by
  cases h with
  | empty => rfl
  | const v hv =>
      have htag := Imm.directOf_tag v hv
      rw [ofItem_const _ _ _ htag.1, htag.2]
  | constUint16 k val =>
      have htag := Imm.directOfUint16_tag k val
      rw [ofItem_const _ _ _ htag.1, htag.2]
  | constInt16 k val =>
      have htag := Imm.directOfInt16_tag k val
      rw [ofItem_const _ _ _ htag.1, htag.2]
  | var l hl =>
      have hnat := l.direct_toNat hl
      have hconst : ¬ (l.direct &&& 1 ≠ 0) := by
        rw [tag_const]
        omega
      have hvar : l.direct &&& 7 = 2 := by
        rw [tag_var]
        omega
      rw [Node.ofItem, if_neg hconst, if_pos hvar, l.parseDirectKind_direct hl]
  | stmt0 op =>
      have hnat := stmt0_item_toNat op
      have hconst : ¬ (op.setWidth 32 <<< 4 ||| 6#32) &&& 1 ≠ 0 := by
        rw [tag_const]
        omega
      have hvar : ¬ (op.setWidth 32 <<< 4 ||| 6#32) &&& 7 = 2 := by
        rw [tag_var]
        omega
      have hstmt : (op.setWidth 32 <<< 4 ||| 6#32) &&& 0xF = 6 := by
        rw [tag_stmt0]
        omega
      have hop : ((op.setWidth 32 <<< 4 ||| 6#32) >>> 4).setWidth 16 = op := by
        have hlt := op.isLt
        apply BitVec.eq_of_toNat_eq
        rw [BitVec.toNat_setWidth, BitVec.toNat_ushiftRight, Nat.shiftRight_eq_div_pow, hnat]
        omega
      rw [Node.ofItem, if_neg hconst, if_neg hvar, if_pos hstmt, hop]

/-- A stored child is read back from its distance to the parent, which is another offset. -/
theorem Node.ofItem_stored (c : Code) (parent : BitVec 32) {nd : Node} (h : nd.StoredIn c)
    (hparent : parent.toNat % 4 = 0) (hne : nd.offOrDir ≠ parent) :
    Node.ofItem c parent (nd.offOrDir - parent) = nd := by
  obtain ⟨hin, haligned, hheader⟩ := h
  have hmod : (nd.offOrDir - parent).toNat % 4 = 0 := by
    rw [BitVec.toNat_sub]
    have := parent.isLt
    omega
  have hsub : nd.offOrDir - parent ≠ 0 := by
    intro hz
    apply hne
    calc nd.offOrDir = nd.offOrDir - parent + parent := (BitVec.sub_add_cancel _ _).symm
      _ = 0#32 + parent := congrArg (· + parent) hz
      _ = parent := BitVec.zero_add _
  have hback : parent + (nd.offOrDir - parent) = nd.offOrDir := by
    rw [BitVec.add_comm, BitVec.sub_add_cancel]
  have hconst : ¬ (nd.offOrDir - parent) &&& 1 ≠ 0 := by
    rw [tag_const]
    omega
  have hvar : ¬ (nd.offOrDir - parent) &&& 7 = 2 := by
    rw [tag_var]
    omega
  have hstmt : ¬ (nd.offOrDir - parent) &&& 0xF = 6 := by
    rw [tag_stmt0]
    omega
  have hget : c.get nd.offOrDir = nd.header.item := by
    rw [Code.get, List.getD_eq_getElem?_getD, hheader, Option.getD_some]
  rw [Node.ofItem, if_neg hconst, if_neg hvar, if_neg hstmt,
    if_pos ⟨hsub, (tag_indirect _).mpr hmod⟩, hback, hget, Header.ofItem_item]
  obtain ⟨header, off, inCode⟩ := nd
  simp_all

/-! ## What a creation does to the code -/

namespace Code

theorem length_toNat {c : Code} (h : c.Fits) : c.length.toNat = 4 * c.items.length := by
  rw [length, BitVec.toNat_ofNat, Nat.mod_eq_of_lt h]

/-- The code only grew while data was added to it. -/
structure Grew (c c' : Code) (data : List (BitVec 32)) : Prop where
  items : c'.items = c.items ++ data
  good : c.good = true

theorem add_good {c : Code} {data : List (BitVec 32)} (h : (c.add data).good = true) :
    Grew c (c.add data) data := by
  unfold add at h ⊢
  split at h
  · rename_i hcond
    rw [if_pos hcond]
    exact ⟨rfl, hcond.1⟩
  · simp at h

/-- What a write does whether or not it succeeds: the items that are there stay, and a failure
is not forgotten. -/
structure Extends (c c' : Code) : Prop where
  items : c.items <+: c'.items
  good : c'.good = true → c.good = true

theorem Extends.refl (c : Code) : Extends c c := ⟨List.prefix_rfl, id⟩

theorem Extends.trans {a b c : Code} (hab : Extends a b) (hbc : Extends b c) : Extends a c :=
  ⟨hab.items.trans hbc.items, fun h => hab.good (hbc.good h)⟩

/-- A write that is only tried under a condition. -/
theorem Extends.guard {c : Code} (p : Prop) [Decidable p] (f : Code → Code)
    (hf : ∀ c, Extends c (f c)) : Extends c (if p then f c else c) := by
  split
  · exact hf c
  · exact .refl c

theorem add_extends (c : Code) (data : List (BitVec 32)) : Extends c (c.add data) := by
  unfold add
  split
  · exact ⟨List.prefix_append _ _, id⟩
  · exact ⟨List.prefix_rfl, fun h => by simp at h⟩

theorem addNodes_extends (c : Code) (parent : BitVec 32) (nds : List Node) :
    Extends c (c.addNodes parent nds) := by
  induction nds generalizing c with
  | nil => exact .refl c
  | cons nd nds ih =>
      exact (c.add_extends [childItem nd parent]).trans (.guard _ (·.addNodes parent nds) ih)

theorem addRanges_extends (c : Code) (parent : BitVec 32) (ranges : List (List Node)) :
    Extends c (c.addRanges parent ranges) := by
  induction ranges generalizing c with
  | nil => exact .refl c
  | cons range ranges ih =>
      exact (c.addNodes_extends parent range).trans (.guard _ (·.addRanges parent ranges) ih)

theorem addKinds_extends (c : Code) (kinds : List Kind) : Extends c (c.addKinds kinds) := by
  induction kinds generalizing c with
  | nil => exact .refl c
  | cons k ks ih =>
      exact (c.add_extends [(Local.ofKindId k 0).direct]).trans (.guard _ (·.addKinds ks) ih)

theorem addChars_extends (c : Code) (chars : List (BitVec 8)) :
    Extends c (c.addChars chars) := by
  have hwhole := Extends.guard (c := c) (4 ≤ chars.length)
    (·.add ((charItems chars).take (chars.length / 4))) (fun c => c.add_extends _)
  simp only [addChars]
  generalize (if 4 ≤ chars.length then
    c.add ((charItems chars).take (chars.length / 4)) else c) = c' at hwhole ⊢
  split
  · exact hwhole
  · split
    · exact hwhole
    · exact hwhole.trans (c'.add_extends _)

theorem addNodes_good {c : Code} {parent : BitVec 32} {nds : List Node} (hc : c.good = true)
    (h : (c.addNodes parent nds).good = true) :
    Grew c (c.addNodes parent nds) (nds.map (childItem · parent)) := by
  induction nds generalizing c with
  | nil => exact ⟨by simp [addNodes], hc⟩
  | cons nd nds ih =>
      simp only [addNodes] at h ⊢
      split at h
      · rename_i hgood
        have hitem : Grew c (c.addItem (childItem nd parent)) [childItem nd parent] :=
          add_good hgood
        have hrest := ih hgood h
        rw [if_pos hgood]
        refine ⟨?_, hitem.good⟩
        rw [hrest.items, hitem.items]
        simp
      · rename_i hbad
        exact absurd h hbad

/-- Adding ranges one after the other adds their concatenation. -/
theorem addRanges_good {c : Code} {parent : BitVec 32} {ranges : List (List Node)}
    (hc : c.good = true) (h : (c.addRanges parent ranges).good = true) :
    Grew c (c.addRanges parent ranges) (ranges.flatten.map (childItem · parent)) := by
  induction ranges generalizing c with
  | nil => exact ⟨by simp [addRanges], hc⟩
  | cons range ranges ih =>
      simp only [addRanges] at h ⊢
      split at h
      · rename_i hgood
        have hrange := addNodes_good hc hgood
        have hrest := ih hgood h
        rw [if_pos hgood]
        refine ⟨?_, hc⟩
        rw [hrest.items, hrange.items]
        simp
      · rename_i hbad
        exact absurd h hbad

end Code

/-- The outcome of a creation: nothing was written, or a node was stored behind the items that
were there, or the items that were there remain. -/
inductive Code.Outcome (c : Code) : Node → Code → Prop
  | unchanged (nd : Node) (h : nd.IsDirect) : Outcome c nd c
  | stored (nd : Node) (c' : Code) (hgood : c'.good = true)
      (hoff : nd.offOrDir = c.length) (hin : nd.inCode = true)
      (hitems : c.items ++ [nd.header.item] <+: c'.items) : Outcome c nd c'
  | failed (c' : Code) (hitems : c'.items = c.items) : Outcome c .empty c'

namespace Code

theorem truncate_of_grown {c c' : Code} (hfits : c.Fits) (h : c.items <+: c'.items) :
    (c'.truncate c.length).items = c.items := by
  have hlen : c.length.toNat / 4 = c.items.length := by
    rw [length_toNat hfits]
    omega
  rw [truncate, hlen]
  exact (List.prefix_iff_eq_take.mp h).symm

/-- The end of a creation whose first write was its header. -/
private theorem finish_outcome {c c' c'' : Code} {h : Header} {nd : Node} (hfits : c.Fits)
    (hwrite : Extends (c.addItem h.item) c') (heq : finish c' h c.length = (nd, c'')) :
    Outcome c nd c'' := by
  unfold finish at heq
  split at heq
  · rename_i hgood
    obtain ⟨rfl, rfl⟩ := Prod.mk.inj heq
    have hheader : Grew c (c.addItem h.item) [h.item] := add_good (hwrite.good hgood)
    exact .stored _ _ hgood rfl rfl (hheader.items ▸ hwrite.items)
  · obtain ⟨rfl, rfl⟩ := Prod.mk.inj heq
    have hkeep := (c.add_extends [h.item]).trans hwrite
    exact .failed _ (truncate_of_grown hfits hkeep.items)

/-- The header and, for list types, the child count. -/
def headItems (h : Header) (n : Nat) : List (BitVec 32) :=
  h.item :: (if h.type.isList then [BitVec.ofNat 32 n] else [])

private theorem head_good {c : Code} {h : Header} {n : Nat}
    (hc1 : (c.addItem h.item).good = true)
    (hgood : (if h.type.isList then (c.addItem h.item).addItem (BitVec.ofNat 32 n)
      else c.addItem h.item).good = true) :
    Grew c (if h.type.isList then (c.addItem h.item).addItem (BitVec.ofNat 32 n)
      else c.addItem h.item) (headItems h n) := by
  have hhead : Grew c (c.addItem h.item) [h.item] := add_good hc1
  by_cases hlist : h.type.isList = true
  · simp only [hlist, if_true, headItems] at hgood ⊢
    have hcount : Grew (c.addItem h.item) _ [BitVec.ofNat 32 n] := add_good hgood
    refine ⟨?_, hhead.good⟩
    rw [addItem, hcount.items, hhead.items]
    simp
  · simpa [hlist, headItems] using hhead

/-- The children are written by `addNodes` or by `addRanges`; both write their items in order. -/
private theorem finish_stored {c c2 c' : Code} {h : Header} {n : Nat} {nd : Node}
    {words : List (BitVec 32)} (hhead : c2.good = true → Grew c c2 (headItems h n))
    (write : Code → Code)
    (hwrite : c2.good = true → (write c2).good = true → Grew c2 (write c2) words)
    (heq : finish (if c2.good then write c2 else c2) h c.length = (nd, c'))
    (hin : nd.inCode = true) :
    nd = ⟨h, c.length, true⟩ ∧ c'.items = c.items ++ headItems h n ++ words := by
  by_cases hgood2 : c2.good = true
  · rw [if_pos hgood2] at heq
    by_cases hgood : (write c2).good = true
    · rw [finish, if_pos hgood] at heq
      obtain ⟨rfl, rfl⟩ := Prod.mk.inj heq
      exact ⟨rfl, by rw [(hwrite hgood2 hgood).items, (hhead hgood2).items]⟩
    · rw [finish, if_neg hgood] at heq
      obtain ⟨rfl, rfl⟩ := Prod.mk.inj heq
      exact absurd hin (by decide)
  · rw [if_neg hgood2, finish, if_neg hgood2] at heq
    obtain ⟨rfl, rfl⟩ := Prod.mk.inj heq
    exact absurd hin (by decide)

/-- What a node created by `create_indirect` looks like in the code. -/
theorem createIndirect_stored {c c' : Code} {h : Header} {children : List Node} {nd : Node}
    (heq : c.createIndirect h children = some (nd, c')) (hin : nd.inCode = true) :
    nd = ⟨h, c.length, true⟩ ∧ c'.items =
      c.items ++ headItems h children.length ++ children.map (childItem · c.length) := by
  simp only [createIndirect] at heq
  split at heq
  · obtain ⟨rfl, rfl⟩ := Prod.mk.inj (Option.some.inj heq)
    exact absurd hin (by decide)
  · split at heq
    · rename_i hgood1
      exact finish_stored (head_good hgood1) (·.addNodes c.length children)
        addNodes_good (Option.some.inj heq) hin
    · cases heq

/-- `create_indirect_from_ranges` writes the concatenation of its ranges. For a fixed-arity
header it does not look at their number. -/
theorem createIndirectFromRanges_stored {c c' : Code} {h : Header} {nodes : List (List Node)}
    {nd : Node} (heq : c.createIndirectFromRanges h nodes = some (nd, c'))
    (hin : nd.inCode = true) :
    nd = ⟨h, c.length, true⟩ ∧ c'.items = c.items ++ headItems h nodes.flatten.length ++
      nodes.flatten.map (childItem · c.length) := by
  by_cases hcond : (if h.type.isList then (nodes.map List.length).sum else 0) < 2 ^ 32 ∧
      (c.addItem h.item).good = true
  · simp only [createIndirectFromRanges] at heq
    rw [if_pos hcond] at heq
    have hstored := finish_stored (head_good hcond.2) (·.addRanges c.length nodes)
      addRanges_good (Option.some.inj heq) hin
    refine ⟨hstored.1, ?_⟩
    rw [hstored.2]
    by_cases hlist : h.type.isList = true
    · simp [hlist, headItems, List.length_flatten]
    · simp [hlist, headItems]
  · simp only [createIndirectFromRanges] at heq
    rw [if_neg hcond] at heq
    cases heq

/-- A node is appended by one of the creations. -/
inductive Creates (c : Code) (usable : Node → Prop) : Node → Code → Prop
  | indirect (h : Header) (children : List Node) (hch : ∀ ch ∈ children, usable ch)
      {nd : Node} {c' : Code} (heq : c.createIndirect h children = some (nd, c')) :
      Creates c usable nd c'
  | ranges (h : Header) (nodes : List (List Node)) (hch : ∀ ch ∈ nodes.flatten, usable ch)
      {nd : Node} {c' : Code} (heq : c.createIndirectFromRanges h nodes = some (nd, c')) :
      Creates c usable nd c'
  | const (v : Value) : Creates c usable (c.createConst v).1 (c.createConst v).2
  | var (l : Local) : Creates c usable (c.createVar l).1 (c.createVar l).2
  | label (address : BitVec 64) (index : BitVec 16) :
      Creates c usable (c.createLabel address index).1 (c.createLabel address index).2
  | funcType (params results : List Kind) :
      Creates c usable (c.createFuncType params results).1 (c.createFuncType params results).2
  | name (str : List (BitVec 8)) : Creates c usable (c.createName str).1 (c.createName str).2

/-- Every creation has one of the three outcomes. -/
theorem Creates.outcome {c c' : Code} {usable : Node → Prop} {nd : Node} (hfits : c.Fits)
    (h : Creates c usable nd c') : Outcome c nd c' := by
  cases h with
  | indirect h children hch heq =>
      simp only [createIndirect] at heq
      split at heq
      · obtain ⟨rfl, rfl⟩ := Prod.mk.inj (Option.some.inj heq)
        exact .unchanged _ .empty
      · split at heq
        · have hcount := Extends.guard (c := c.addItem h.item) (h.type.isList = true)
            (·.addItem (BitVec.ofNat 32 children.length)) (fun c => c.add_extends _)
          exact finish_outcome hfits (hcount.trans
            (.guard _ (·.addNodes c.length children) (fun c => c.addNodes_extends _ _)))
            (Option.some.inj heq)
        · cases heq
  | ranges h nodes hch heq =>
      let n := if h.type.isList then (nodes.map List.length).sum else 0
      have hcount := Extends.guard (c := c.addItem h.item) (h.type.isList = true)
        (·.addItem (BitVec.ofNat 32 n)) (fun c => c.add_extends _)
      simp only [createIndirectFromRanges] at heq
      by_cases hcond : n < 2 ^ 32 ∧ (c.addItem h.item).good = true
      · rw [if_pos hcond] at heq
        exact finish_outcome hfits (hcount.trans
          (.guard _ (·.addRanges c.length nodes) (fun c => c.addRanges_extends _ _)))
          (Option.some.inj heq)
      · rw [if_neg hcond] at heq
        cases heq
  | const v =>
      simp only [createConst]
      split
      · exact .unchanged _ .empty
      · split
        · rename_i hdir
          exact .unchanged _ (.const v hdir)
        · refine finish_outcome hfits (.guard _ (fun c1 => if v.kind.bitsize = 64 then
            c1.addUint64 v.bits else c1.addItem (v.bits.setWidth 32)) (fun c1 => ?_)) rfl
          split <;> exact c1.add_extends _
  | var l =>
      simp only [createVar]
      split
      · rename_i hdir
        exact .unchanged _ (.var l hdir)
      · exact finish_outcome hfits
          (.guard _ (·.addItem l.indirect) (fun c1 => c1.add_extends _)) rfl
  | label address index =>
      exact finish_outcome hfits
        (.guard _ (·.addUint64 address) (fun c1 => c1.add_extends _)) rfl
  | funcType params results =>
      simp only [createFuncType]
      split
      · exact .unchanged _ .empty
      · let c1 := c.addItem (Header.item
          ⟨.ftype, results.headD .void, BitVec.ofNat 16 results.length⟩)
        let c2 := if c1.good then
          c1.addItem (BitVec.ofNat 32 (params.length + results.length)) else c1
        let c3 := if c2.good then c2.addKinds results else c2
        have h2 : Extends c1 c2 := .guard _ (·.addItem _) (fun c => c.add_extends _)
        have h3 : Extends c2 c3 := .guard _ (·.addKinds results)
          (fun c => c.addKinds_extends _)
        have h4 : Extends c3 (if c3.good then c3.addKinds params else c3) :=
          .guard _ (·.addKinds params) (fun c => c.addKinds_extends _)
        exact finish_outcome hfits ((h2.trans h3).trans h4) rfl
  | name str =>
      simp only [createName]
      split
      · exact .unchanged _ .empty
      · exact finish_outcome hfits
          (.guard _ (·.addChars str) (fun c1 => c1.addChars_extends str)) rfl

end Code

/-! ## Runs of creations -/

/-- A code with the nodes created in it so far. -/
structure World where
  code : Code
  nodes : List Node

namespace World

/-- A node that can be passed as a child: direct, or created before in the same code. -/
def Usable (w : World) (nd : Node) : Prop := nd.IsDirect ∨ nd ∈ w.nodes

/-- One more node is created, and the length in bytes of the code is still an offset. -/
structure Step (w w' : World) : Prop where
  creates : ∃ nd, w.code.Creates w.Usable nd w'.code ∧ w'.nodes = nd :: w.nodes
  fits : w'.code.Fits

/-- `w'` is `w` after any number of further creations. -/
abbrev Later : World → World → Prop := Relation.ReflTransGen Step

/-- The worlds that creations can produce from a new `Code`. -/
def Reachable (w : World) : Prop := ∃ limit, Later ⟨.init limit, []⟩ w

structure Inv (w : World) : Prop where
  fits : w.code.Fits
  nodes : ∀ nd ∈ w.nodes, nd.IsDirect ∨ nd.StoredIn w.code

theorem inv_init (limit : Nat) : Inv ⟨.init limit, []⟩ := by
  refine ⟨?_, fun nd hnd => by cases hnd⟩
  simp only [Code.Fits, Code.init]
  split <;> simp

end World

theorem Node.StoredIn.mono {nd : Node} {c c' : Code} (h : nd.StoredIn c)
    (hpre : c.items <+: c'.items) : nd.StoredIn c' := by
  refine ⟨h.inCode, h.aligned, ?_⟩
  obtain ⟨rest, hrest⟩ := hpre
  have hlt : nd.offOrDir.toNat / 4 < c.items.length :=
    (List.getElem?_eq_some_iff.mp h.header).1
  rw [← hrest, List.getElem?_append_left hlt]
  exact h.header

namespace World

/-- A creation keeps what is there and its node is direct or stored. -/
theorem outcome_stored {c c' : Code} {nd : Node} (hfits : c.Fits) (h : c.Outcome nd c') :
    c.items <+: c'.items ∧ (nd.IsDirect ∨ nd.StoredIn c') := by
  cases h with
  | unchanged _ hdir => exact ⟨List.prefix_rfl, .inl hdir⟩
  | stored _ _ hgood hoff hin hitems =>
      have hlen := Code.length_toNat hfits
      refine ⟨(List.prefix_append _ _).trans hitems, .inr ⟨hin, ?_, ?_⟩⟩
      · rw [hoff, hlen]
        omega
      · obtain ⟨rest, hrest⟩ := hitems
        have hdiv : nd.offOrDir.toNat / 4 = c.items.length := by
          rw [hoff, hlen]
          omega
        rw [hdiv, ← hrest]
        simp
  | failed _ hitems => exact ⟨hitems ▸ List.prefix_rfl, .inl .empty⟩

theorem step_grows {w w' : World} (hinv : Inv w) (h : Step w w') :
    w.code.items <+: w'.code.items := by
  obtain ⟨nd, hcreates, -⟩ := h.creates
  exact (outcome_stored hinv.fits (hcreates.outcome hinv.fits)).1

theorem step_inv {w w' : World} (hinv : Inv w) (h : Step w w') : Inv w' := by
  obtain ⟨nd, hcreates, hnodes⟩ := h.creates
  have hout := outcome_stored hinv.fits (hcreates.outcome hinv.fits)
  refine ⟨h.fits, fun other hother => ?_⟩
  rw [hnodes] at hother
  rcases List.mem_cons.mp hother with rfl | hold
  · exact hout.2
  · exact (hinv.nodes other hold).imp_right (·.mono hout.1)

/-- Along any run the invariant holds and the code only grows. -/
theorem later_inv {w w' : World} (hinv : Inv w) (h : Later w w') :
    Inv w' ∧ w.code.items <+: w'.code.items := by
  induction h with
  | refl => exact ⟨hinv, List.prefix_rfl⟩
  | tail _ hstep ih => exact ⟨step_inv ih.1 hstep, ih.2.trans (step_grows ih.1 hstep)⟩

theorem Reachable.inv {w : World} (h : Reachable w) : Inv w := by
  obtain ⟨limit, hlater⟩ := h
  exact (later_inv (inv_init limit) hlater).1

end World

/-! ## Reading the children back -/

/-- The number of children is the one its type prescribes. -/
def Header.Admits (h : Header) (n : Nat) : Prop := h.type.isList = true ∨ n = h.type.toChildren

/-- The items of a node are read at multiples of four from where it starts. -/
theorem get_of_grown {c c' : Code} {h : Header} {data : List (BitVec 32)}
    (hfits : c.Fits) (hfits' : c'.Fits) (hitems : c.items ++ data <+: c'.items) (j : Nat)
    (hj : j < data.length) :
    Node.get c' ⟨h, c.length, true⟩ (BitVec.ofNat 32 (4 * j)) = data.getD j 0 := by
  obtain ⟨rest, hrest⟩ := hitems
  have hlen := congrArg List.length hrest
  simp only [List.length_append] at hlen
  unfold Code.Fits at hfits hfits'
  have hoff : (c.length + BitVec.ofNat 32 (4 * j)).toNat / 4 = c.items.length + j := by
    rw [BitVec.toNat_add, Code.length_toNat hfits, BitVec.toNat_ofNat]
    omega
  rw [Node.get, if_pos rfl, Code.get, hoff, ← hrest, List.append_assoc]
  simp only [List.getD_eq_getElem?_getD]
  rw [List.getElem?_append_right (by omega), Nat.add_sub_cancel_left,
    List.getElem?_append_left hj]

/-- A child item decodes to the child, in the code it was written to and in every longer one. -/
private theorem ofItem_childItem {c c' : Code} {ch : Node} (hfits : c.Fits)
    (hpre : c.items <+: c'.items) (hch : ch.IsDirect ∨ ch.StoredIn c) :
    Node.ofItem c' c.length (Code.childItem ch c.length) = ch := by
  rcases hch with hdir | hst
  · rw [Code.childItem, hdir.inCode]
    exact Node.ofItem_direct c' c.length hdir
  · have hlen := Code.length_toNat hfits
    have hlt : ch.offOrDir.toNat / 4 < c.items.length :=
      (List.getElem?_eq_some_iff.mp hst.header).1
    have hne : ch.offOrDir ≠ c.length := by
      intro heq
      rw [heq, hlen] at hlt
      omega
    rw [Code.childItem, if_pos hst.inCode]
    exact Node.ofItem_stored c' c.length (hst.mono hpre) (by omega) hne

private theorem headItems_length (h : Header) (n : Nat) :
    (Code.headItems h n).length = if h.type.isList then 2 else 1 := by
  unfold Code.headItems
  split <;> rfl

/-- A node whose items stand behind `c` in `c'` has the children it was created with. -/
theorem child_of_items {c c' : Code} {h : Header} {chs : List Node} (hfits : c.Fits)
    (hfits' : c'.Fits) (harity : h.Admits chs.length)
    (hstored : ∀ ch ∈ chs, ch.IsDirect ∨ ch.StoredIn c)
    (hitems : c.items ++ (Code.headItems h chs.length ++ chs.map (Code.childItem · c.length)) <+:
      c'.items) :
    Node.children c' ⟨h, c.length, true⟩ = chs.length ∧
      ∀ i, Node.child c' ⟨h, c.length, true⟩ i = chs.getD i.toNat .empty := by
  have hpre : c.items <+: c'.items := (List.prefix_append _ _).trans hitems
  have hbound : c.items.length + (chs.length + 1) ≤ c'.items.length := by
    have hle := hitems.length_le
    simp only [List.length_append, headItems_length, List.length_map] at hle
    split at hle <;> omega
  have hchildren : Node.children c' ⟨h, c.length, true⟩ = chs.length := by
    by_cases hlist : h.type.isList = true
    · have hget := get_of_grown (h := h) hfits hfits' hitems 1 (by
        simp only [List.length_append, headItems_length, hlist, if_true]
        omega)
      simp only [Node.children, hlist, if_true]
      rw [show (4 : BitVec 32) = BitVec.ofNat 32 (4 * 1) from rfl, hget]
      unfold Code.Fits at hfits'
      simp only [Code.headItems, hlist, if_true]
      simp only [List.cons_append, List.getD_cons_succ, List.getD_cons_zero, BitVec.toNat_ofNat]
      omega
    · simp only [Node.children, hlist]
      exact (harity.resolve_left hlist).symm
  refine ⟨hchildren, fun i => ?_⟩
  rw [Node.child, hchildren]
  by_cases hi : chs.length ≤ i.toNat
  · rw [if_pos hi, List.getD_eq_getElem?_getD, List.getElem?_eq_none hi, Option.getD_none]
  · have hlt : i.toNat < chs.length := by omega
    have hget := get_of_grown (h := h) hfits hfits' hitems
      (i.toNat + if h.type.isList then 2 else 1) (by
        rw [List.length_append, headItems_length, List.length_map]
        omega)
    have hitem : (Code.headItems h chs.length ++ chs.map (Code.childItem · c.length)).getD
        (i.toNat + if h.type.isList then 2 else 1) 0 = Code.childItem chs[i.toNat] c.length := by
      rw [List.getD_eq_getElem?_getD, List.getElem?_append_right (by rw [headItems_length]; omega),
        headItems_length, Nat.add_sub_cancel, List.getElem?_map, List.getElem?_eq_getElem hlt]
      rfl
    rw [if_neg hi]
    simp only [hget, hitem]
    rw [ofItem_childItem hfits hpre (hstored _ (List.getElem_mem hlt)),
      List.getD_eq_getElem?_getD, List.getElem?_eq_getElem hlt, Option.getD_some]

/-- What is known of a node with children in every code that its own has grown to. -/
structure World.Holds (w w'' : World) (h : Header) (children : List Node) : Prop where
  fits : w.code.Fits
  later : w''.code.Fits
  usable : ∀ ch ∈ children, ch.IsDirect ∨ ch.StoredIn w.code
  items : w.code.items ++ (Code.headItems h children.length ++
    children.map (Code.childItem · w.code.length)) <+: w''.code.items

/-- The items of a created node stay behind those that were there. -/
theorem holds_created {w w' w'' : World} {h : Header} {ranges : List (List Node)}
    {nd : Node} (hw : w.Reachable) (hch : ∀ ch ∈ ranges.flatten, w.Usable ch)
    (hcreate : w.code.createIndirect h ranges.flatten = some (nd, w'.code) ∨
      w.code.createIndirectFromRanges h ranges = some (nd, w'.code))
    (hnodes : w'.nodes = nd :: w.nodes) (hin : nd.inCode = true) (hfits : w'.code.Fits)
    (hlater : w'.Later w'') :
    nd = ⟨h, w.code.length, true⟩ ∧ w.Holds w'' h ranges.flatten := by
  have hinv := hw.inv
  have hcreates : w.code.Creates w.Usable nd w'.code := by
    rcases hcreate with heq | heq
    · exact .indirect h _ hch heq
    · exact .ranges h ranges hch heq
  have hstored : nd = ⟨h, w.code.length, true⟩ ∧ w'.code.items =
      w.code.items ++ Code.headItems h ranges.flatten.length ++
        ranges.flatten.map (Code.childItem · w.code.length) := by
    rcases hcreate with heq | heq
    · exact Code.createIndirect_stored heq hin
    · exact Code.createIndirectFromRanges_stored heq hin
  have hlast := World.later_inv (World.step_inv hinv ⟨⟨nd, hcreates, hnodes⟩, hfits⟩) hlater
  have hitems := hlast.2
  rw [hstored.2, List.append_assoc] at hitems
  have husable : ∀ ch ∈ ranges.flatten, ch.IsDirect ∨ ch.StoredIn w.code := by
    intro ch hmem
    rcases hch ch hmem with hdir | hold
    · exact .inl hdir
    · exact hinv.nodes ch hold
  exact ⟨hstored.1, hinv.fits, hlast.1.fits, husable, hitems⟩

/-- Whatever is created later, a node created by `create_indirect` or by
`create_indirect_from_ranges` has the children it was created with, header and payload. -/
theorem child_createIndirect {w w' w'' : World} {h : Header} {ranges : List (List Node)}
    {nd : Node} (hw : w.Reachable) (hch : ∀ ch ∈ ranges.flatten, w.Usable ch)
    (hcreate : w.code.createIndirect h ranges.flatten = some (nd, w'.code) ∨
      w.code.createIndirectFromRanges h ranges = some (nd, w'.code))
    (hnodes : w'.nodes = nd :: w.nodes) (hin : nd.inCode = true) (hfits : w'.code.Fits)
    (harity : h.Admits ranges.flatten.length) (hlater : w'.Later w'') :
    nd.header = h ∧ nd.children w''.code = ranges.flatten.length ∧
      ∀ i, nd.child w''.code i = ranges.flatten.getD i.toNat .empty := by
  obtain ⟨rfl, hholds⟩ := holds_created hw hch hcreate hnodes hin hfits hlater
  exact ⟨rfl, child_of_items hholds.fits hholds.later harity hholds.usable hholds.items⟩

/-! A sum of one child of every form, read back after a label was created. -/

private def sumChildren : List Node :=
  [.empty, ⟨⟨.const, .int32, 0⟩, Imm.directOfInt16 .int32 (-7), false⟩,
    ⟨⟨.var, .int32, 0⟩, (Local.ofKindId .int32 0x1000).direct, false⟩,
    ⟨⟨.stmt0, .void, 1⟩, BitVec.setWidth 32 (1#16) <<< 4 ||| 6#32, false⟩,
    ((Code.init 64).createConst ⟨0x12345678, .int32⟩).1]

private def sumWorlds : World × World × World :=
  let w0 : World := ⟨.init 64, []⟩
  let (k, c1) := w0.code.createConst ⟨0x12345678, .int32⟩
  let (nd, c2) := (c1.createIndirect ⟨.tuple, .int32, 1⟩ sumChildren).getD (.empty, c1)
  let (l, c3) := c2.createLabel 0 1
  (⟨c1, [k]⟩, ⟨c2, [nd, k]⟩, ⟨c3, [l, nd, k]⟩)

theorem child_createIndirect_sum :
    let nd := (⟨⟨.tuple, .int32, 1⟩, 16, true⟩ : Node)
    nd.header = ⟨.tuple, .int32, 1⟩ ∧ nd.children sumWorlds.2.2.code = 5 ∧
      ∀ i, nd.child sumWorlds.2.2.code i = sumChildren.getD i.toNat .empty := by
  have hreach : sumWorlds.1.Reachable :=
    ⟨64, .single ⟨⟨_, .const ⟨0x12345678, .int32⟩, rfl⟩, by simp [Code.Fits]; decide⟩⟩
  have husable : ∀ ch ∈ [sumChildren].flatten, sumWorlds.1.Usable ch := by
    intro ch hch
    simp only [sumChildren, List.flatten_cons, List.flatten_nil, List.append_nil,
      List.mem_cons, List.not_mem_nil, or_false] at hch
    rcases hch with rfl | rfl | rfl | rfl | rfl
    · exact .inl .empty
    · exact .inl (.constInt16 .int32 (-7))
    · exact .inl (.var (Local.ofKindId .int32 0x1000) (by decide))
    · exact .inl (.stmt0 1)
    · exact .inr (by decide)
  have hlabel : sumWorlds.2.1.Later sumWorlds.2.2 :=
    .single ⟨⟨_, .label 0 1, rfl⟩, by simp [Code.Fits]; decide⟩
  exact child_createIndirect hreach husable (.inl (by decide)) (by decide) rfl
    (by simp [Code.Fits]; decide) (.inl rfl) hlabel

/-- A header item has none of the tags of a child item. -/
private theorem ofItem_header (c : Code) (parent : BitVec 32) (h : Header) :
    Node.ofItem c parent h.item = .empty := by
  have hnat := h.item_toNat
  have hconst : ¬ h.item &&& 1 ≠ 0 := by
    rw [tag_const]
    omega
  have hvar : ¬ h.item &&& 7 = 2 := by
    rw [tag_var]
    omega
  have hstmt : ¬ h.item &&& 0xF = 6 := by
    rw [tag_stmt0]
    omega
  have hindirect : ¬ (h.item ≠ 0 ∧ h.item &&& 3 = 0) := by
    rw [tag_indirect]
    omega
  rw [Node.ofItem, if_neg hconst, if_neg hvar, if_neg hstmt, if_neg hindirect]

private theorem addNodes_of_room (c : Code) (parent : BitVec 32) (nds : List Node)
    (hgood : c.good = true) (hroom : c.items.length + nds.length ≤ c.limit) :
    c.addNodes parent nds = { c with items := c.items ++ nds.map (Code.childItem · parent) } := by
  induction nds generalizing c with
  | nil => simp [Code.addNodes]
  | cons nd nds ih =>
      simp only [List.length_cons] at hroom
      have hadd : c.addItem (Code.childItem nd parent) =
          { c with items := c.items ++ [Code.childItem nd parent] } := by
        rw [Code.addItem, Code.add, if_pos ⟨hgood, by simp; omega⟩]
      rw [Code.addNodes, hadd]
      simp only [hgood, if_true]
      rw [ih _ rfl (by simp; omega)]
      simp

/-- In a code of `2^32` bytes the offset of an item wraps around: a list node with that many
children shows its own header in the place of child `2^30 - 2`, which reads as empty. -/
private theorem child_wraps (limit : Nat) (h : Header) (chs : List Node)
    (hlist : h.type.isList = true) (hlow : 2 ^ 30 ≤ chs.length) (hhigh : chs.length < 2 ^ 32)
    (hlimit : chs.length + 4 ≤ limit) :
    ∃ c', (Code.init limit).createIndirect h chs = some (⟨h, 8, true⟩, c') ∧
      Node.children c' ⟨h, 8, true⟩ = chs.length ∧
      Node.child c' ⟨h, 8, true⟩ (BitVec.ofNat 32 (2 ^ 30 - 2)) = .empty := by
  let magic : List (BitVec 32) := [Header.item ⟨.const, ⟨.uint8, 2⟩, 0⟩, 0x54494A31]
  let words := chs.map (Code.childItem · 8)
  let c' : Code := ⟨magic ++ [h.item] ++ [BitVec.ofNat 32 chs.length] ++ words, true, limit⟩
  have hinit : Code.init limit = ⟨magic, true, limit⟩ := by
    rw [Code.init, if_pos (by omega)]
  have hadd : ∀ (items : List (BitVec 32)) (item : BitVec 32), items.length < limit →
      Code.addItem ⟨items, true, limit⟩ item = ⟨items ++ [item], true, limit⟩ := by
    intro items item hroom
    rw [Code.addItem, Code.add, if_pos ⟨rfl, Nat.succ_le_of_lt hroom⟩]
  have hcreate : (Code.init limit).createIndirect h chs = some (⟨h, 8, true⟩, c') := by
    have hwrite := addNodes_of_room
      ⟨magic ++ [h.item] ++ [BitVec.ofNat 32 chs.length], true, limit⟩ 8 chs rfl
      (by simp [magic]; omega)
    rw [hinit, Code.createIndirect, if_neg (by omega)]
    simp only []
    rw [hadd _ _ (by simp [magic]; omega)]
    simp only [hlist, if_true]
    rw [hadd _ _ (by simp [magic]; omega)]
    simp only [if_true]
    rw [show Code.length ⟨magic, true, limit⟩ = 8 from rfl, hwrite]
    simp [Code.finish, c', words]
  have hchildren : Node.children c' ⟨h, 8, true⟩ = chs.length := by
    have hget : Node.get c' ⟨h, 8, true⟩ 4 = BitVec.ofNat 32 chs.length := by
      rw [Node.get, if_pos rfl, Code.get, show (8 + 4 : BitVec 32).toNat / 4 = 3 from rfl]
      simp [c', magic]
    simp only [Node.children, hlist, if_true, hget, BitVec.toNat_ofNat]
    omega
  refine ⟨c', hcreate, hchildren, ?_⟩
  have hi : (BitVec.ofNat 32 (2 ^ 30 - 2)).toNat = 2 ^ 30 - 2 := by decide
  have hoff : BitVec.ofNat 32 (4 * (2 ^ 30 - 2 + 2)) = 0 := by decide
  have hget : Node.get c' ⟨h, 8, true⟩ 0 = h.item := by
    rw [Node.get, if_pos rfl, Code.get, show (8 + 0 : BitVec 32).toNat / 4 = 2 from rfl]
    simp [c', magic]
  rw [Node.child, hchildren, hi, if_neg (by omega)]
  simp only [hlist, if_true]
  rw [hoff, hget, ofItem_header]

/-- Two ways to lose a child: more children than the type of the header has, and a code whose
length in bytes is no offset. -/
theorem child_createIndirect_lost :
    let x : Node := ⟨⟨.const, .int32, 0⟩, Imm.directOfInt16 .int32 1, false⟩
    (∃ c', (Code.init 64).createIndirect ⟨.unary, .int32, 3⟩ [x, x] =
        some (⟨⟨.unary, .int32, 3⟩, 8, true⟩, c') ∧
      Node.children c' ⟨⟨.unary, .int32, 3⟩, 8, true⟩ = 1 ∧
      Node.child c' ⟨⟨.unary, .int32, 3⟩, 8, true⟩ 1 ≠ x) ∧
    (∃ c', (Code.init (2 ^ 31)).createIndirect ⟨.tuple, .int32, 1⟩ (List.replicate (2 ^ 30) x) =
        some (⟨⟨.tuple, .int32, 1⟩, 8, true⟩, c') ∧
      Node.children c' ⟨⟨.tuple, .int32, 1⟩, 8, true⟩ = 2 ^ 30 ∧
      Node.child c' ⟨⟨.tuple, .int32, 1⟩, 8, true⟩ (BitVec.ofNat 32 (2 ^ 30 - 2)) ≠ x) := by
  intro x
  have hx : Node.empty ≠ x := by decide
  refine ⟨⟨_, rfl, by decide, by decide⟩, ?_⟩
  obtain ⟨c', hcreate, hchildren, hchild⟩ := child_wraps (2 ^ 31) ⟨.tuple, .int32, 1⟩
    (List.replicate (2 ^ 30) x) rfl (by rw [List.length_replicate])
    (by rw [List.length_replicate]; omega) (by rw [List.length_replicate]; omega)
  refine ⟨c', hcreate, by rw [hchildren, List.length_replicate], ?_⟩
  rw [hchild]
  exact hx

end OneJit
