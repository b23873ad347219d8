import OneJit.NodeEncoding

/-!
# Walking a code

`CodeParser` reads the nodes of a code one after the other. Nothing marks where a node ends:
the length of each is computed from its header, and has to be the number of items that its
creation wrote.
-/

namespace OneJit

/-- `add_uint32`. -/
def addUint32 (a b : Nat) : BitVec 32 := BitVec.ofNat 32 (min (a + b) (2 ^ 32 - 1))

/-- `mul_uint32`. -/
def mulUint32 (a b : Nat) : BitVec 32 := BitVec.ofNat 32 (min (a * b) (2 ^ 32 - 1))

theorem addUint32_toNat (a b : Nat) : (addUint32 a b).toNat = min (a + b) (2 ^ 32 - 1) := by
  rw [addUint32, BitVec.toNat_ofNat]
  exact Nat.mod_eq_of_lt (by omega)

theorem mulUint32_toNat (a b : Nat) : (mulUint32 a b).toNat = min (a * b) (2 ^ 32 - 1) := by
  rw [mulUint32, BitVec.toNat_ofNat]
  exact Nat.mod_eq_of_lt (by omega)

/-- The items of a node besides its header and its children. -/
def Header.plus (h : Header) : Nat :=
  match h.type with
  | .var => 1
  | .const => (h.kind.bitsize + 31) / 32
  | .label => 2
  | .name => (h.op.toNat + 3) / 4
  | t => if t.isList then 1 else 0

/-- `Node::length_items`. -/
def Node.lengthItems (c : Code) (nd : Node) : BitVec 32 :=
  addUint32 (addUint32 1 (nd.children c)).toNat nd.header.plus

/-- `Node::length_bytes`. -/
def Node.lengthBytes (c : Code) (nd : Node) : BitVec 32 := mulUint32 (nd.lengthItems c).toNat 4

/-- `class CodeParser`. -/
structure CodeParser where
  code : Code
  offset : BitVec 32

namespace CodeParser

/-- `CodeParser::operator bool`. -/
def more (p : CodeParser) : Bool := p.offset.ult p.code.length

/-- The node at the offset of a parser. -/
def node (p : CodeParser) : Node := ⟨Header.ofItem (p.code.get p.offset), p.offset, true⟩

/-- `CodeParser::next`. -/
def next (p : CodeParser) : Node × CodeParser :=
  if p.more then
    (p.node, ⟨p.code, addUint32 p.offset.toNat (p.node.lengthBytes p.code).toNat⟩)
  else (.empty, p)

/-- `while (parser) parser.next();` returns these nodes and leaves this parser. -/
inductive Walks : CodeParser → List Node → CodeParser → Prop
  | done {p : CodeParser} (h : p.more = false) : Walks p [] p
  | next {p q : CodeParser} {nds : List Node} (h : p.more = true) (hrest : Walks p.next.2 nds q) :
      Walks p (p.next.1 :: nds) q

end CodeParser

/-! ## Creations -/

/-- One call of a constructor. -/
inductive Creation
  | indirect (h : Header) (children : List Node)
  | ranges (h : Header) (nodes : List (List Node))
  | const (v : Value)
  | var (l : Local)
  | label (address : BitVec 64) (index : BitVec 16)
  | funcType (params results : List Kind)
  | name (str : List (BitVec 8))

namespace Creation

/-- The node and the code that a call returns. -/
def run (c : Code) : Creation → Option (Node × Code)
  | indirect h children => c.createIndirect h children
  | ranges h nodes => c.createIndirectFromRanges h nodes
  | const v => some (c.createConst v)
  | var l => some (c.createVar l)
  | label address index => some (c.createLabel address index)
  | funcType params results => some (c.createFuncType params results)
  | name str => some (c.createName str)

end Creation

/-- The headers of statements and expressions with children, and their number of children. -/
def Header.HasChildren (h : Header) (n : Nat) : Prop :=
  h.type.isList ∨ (n = h.type.toChildren ∧
    h.type ∈ [.stmt0, .stmt1, .stmt2, .stmt3, .stmt4, .unary, .binary])

/-- The children of a statement or an expression are as many as its type has. -/
def Creation.WellFormed : Creation → Prop
  | indirect h children => h.HasChildren children.length
  | ranges h nodes => h.HasChildren nodes.flatten.length
  | _ => True

/-- A sequence of successful creations: the code, and the nodes that were written to it. -/
def Code.build (c : Code) : List Creation → Option (Code × List Node)
  | [] => some (c, [])
  | cr :: crs => do
    let (nd, c') ← cr.run c
    if nd = .empty then none
    else do
      let (c'', nds) ← build c' crs
      some (c'', if nd.inCode then nd :: nds else nds)

/-- The items behind a header. -/
def Header.Layout (h : Header) (payload : List (BitVec 32)) : Prop :=
  match h.type with
  | .var => payload.length = 1
  | .const => payload.length = if h.kind.bitsize = 64 then 2 else 1
  | .label => payload.length = 2
  | .name => payload.length = (h.op.toNat + 3) / 4
  | t =>
    if t.isList then ∃ words, payload = BitVec.ofNat 32 words.length :: words ∧ words.length < 2 ^ 32
    else payload.length = h.type.toChildren

/-- A node was written behind the items of a code. -/
structure Code.Wrote (c : Code) (nd : Node) (c' : Code) : Prop where
  offset : nd.offOrDir = c.length
  inCode : nd.inCode = true
  layout : ∃ payload, nd.header.Layout payload ∧
    c'.items = c.items ++ nd.header.item :: payload

namespace Code

/-- A creation that ends well has written its header and what follows it. -/
theorem finish_wrote {c c1 c' : Code} {h : Header} {nd : Node} {payload : List (BitVec 32)}
    (hgood : c1.good = true → c1.items = c.items ++ h.item :: payload)
    (hlayout : c1.good = true → h.Layout payload) (heq : finish c1 h c.length = (nd, c'))
    (hne : nd ≠ .empty) : nd.header = h ∧ c.Wrote nd c' := by
  rw [finish] at heq
  split at heq
  · next hc1 =>
    obtain ⟨rfl, rfl⟩ := Prod.mk.inj heq
    exact ⟨rfl, rfl, rfl, payload, hlayout hc1, hgood hc1⟩
  · obtain ⟨rfl, rfl⟩ := Prod.mk.inj heq
    exact absurd rfl hne

theorem finish_created {c1 c' : Code} {h : Header} {offset : BitVec 32} {nd : Node}
    (heq : finish c1 h offset = (nd, c')) (hne : nd ≠ .empty) :
    c1.good = true ∧ nd = ⟨h, offset, true⟩ ∧ c' = c1 := by
  rw [finish] at heq
  split at heq
  · next hgood =>
    obtain ⟨rfl, rfl⟩ := Prod.mk.inj heq
    exact ⟨hgood, rfl, rfl⟩
  · exact absurd (Prod.mk.inj heq).1.symm hne

theorem finish_inCode {c1 c' : Code} {h : Header} {offset : BitVec 32} {nd : Node}
    (heq : finish c1 h offset = (nd, c')) (hne : nd ≠ .empty) : nd.inCode = true := by
  rw [finish] at heq
  split at heq
  · rw [← (Prod.mk.inj heq).1]
  · exact absurd (Prod.mk.inj heq).1.symm hne

/-- The second of two writes is only tried after the first one. -/
theorem add_then_good {c : Code} {h : Header} {w : Code → Code} {payload : List (BitVec 32)}
    (hwrite : ∀ c1 : Code, c1.good = true → (w c1).good = true → Grew c1 (w c1) payload)
    (hgood : (if (c.addItem h.item).good then w (c.addItem h.item)
      else c.addItem h.item).good = true) :
    (if (c.addItem h.item).good then w (c.addItem h.item) else c.addItem h.item).items =
      c.items ++ h.item :: payload := by
  by_cases hfirst : (c.addItem h.item).good = true
  · rw [if_pos hfirst] at hgood ⊢
    have hhead : Grew c (c.addItem h.item) [h.item] := add_good hfirst
    rw [(hwrite _ hfirst hgood).items, hhead.items, List.append_assoc]
    rfl
  · rw [if_neg hfirst] at hgood
    exact absurd hgood hfirst

theorem guard_good {c : Code} {f : Code → Code} (h : (if c.good then f c else c).good = true) :
    c.good = true ∧ (f c).good = true ∧ (if c.good then f c else c) = f c := by
  split at h
  · next hc => exact ⟨hc, h, if_pos hc⟩
  · next hc => exact absurd h hc

theorem addKinds_good {c : Code} {kinds : List Kind} (hc : c.good = true)
    (h : (c.addKinds kinds).good = true) :
    Grew c (c.addKinds kinds) (kinds.map fun k => (Local.ofKindId k 0).direct) := by
  induction kinds generalizing c with
  | nil => exact ⟨by simp [addKinds], hc⟩
  | cons k ks ih =>
    simp only [addKinds] at h ⊢
    split at h
    · next hgood =>
      have hitem : Grew c (c.addItem (Local.ofKindId k 0).direct) [(Local.ofKindId k 0).direct] :=
        add_good hgood
      rw [if_pos hgood]
      refine ⟨?_, hc⟩
      rw [(ih hgood h).items, hitem.items]
      simp
    · next hbad => exact absurd h hbad

theorem charItems_length (chars : List (BitVec 8)) :
    (charItems chars).length = (chars.length + 3) / 4 := by
  induction chars using charItems.induct with
  | case1 a b c d chars ih =>
    rw [charItems, List.length_cons, ih]
    simp only [List.length_cons]
    omega
  | _ => simp [charItems]

theorem addChars_good {c : Code} {chars : List (BitVec 8)} (hc : c.good = true)
    (h : (c.addChars chars).good = true) : Grew c (c.addChars chars) (charItems chars) := by
  refine ⟨?_, hc⟩
  have hlength := charItems_length chars
  have hfirst : ∀ c' : Code, c' = (if 4 ≤ chars.length then
      c.add ((charItems chars).take (chars.length / 4)) else c) → c'.good = true →
      c'.items = c.items ++ (charItems chars).take (chars.length / 4) := by
    rintro c' rfl hgood
    by_cases hfour : 4 ≤ chars.length
    · rw [if_pos hfour] at hgood ⊢
      exact (add_good hgood).items
    · rw [if_neg hfour, show chars.length / 4 = 0 by omega, List.take_zero, List.append_nil]
  simp only [addChars] at h ⊢
  generalize hc' : (if 4 ≤ chars.length then
    c.add ((charItems chars).take (chars.length / 4)) else c) = c' at h ⊢
  have hitems := hfirst c' hc'.symm
  split at h
  · next hbad =>
    rw [h] at hbad
    exact absurd hbad.2 (by decide)
  · next hok =>
    rw [if_neg hok]
    split at h
    · next hwhole =>
      rw [if_pos hwhole, hitems h, List.take_of_length_le (by omega)]
    · next hrest =>
      have hadd := add_good h
      rw [if_neg hrest, hadd.items, hitems hadd.good, List.append_assoc, List.take_append_drop]

theorem headItems_eq (h : Header) (n : Nat) :
    headItems h n = h.item :: (if h.type.isList then [BitVec.ofNat 32 n] else []) := rfl

/-- Children make the payload that their header announces. -/
theorem layout_children {c c' : Code} {h : Header} {nds : List Node} {nd : Node}
    (hchildren : h.HasChildren nds.length) (hcount : nds.length < 2 ^ 32)
    (hstored : nd = ⟨h, c.length, true⟩ ∧ c'.items =
      c.items ++ headItems h nds.length ++ nds.map (childItem · c.length)) : c.Wrote nd c' := by
  obtain ⟨rfl, hitems⟩ := hstored
  refine ⟨rfl, rfl, (if h.type.isList then [BitVec.ofNat 32 nds.length] else []) ++
    nds.map (childItem · c.length), ?_, ?_⟩
  · by_cases hlist : h.type.isList = true
    · have htype : h.Layout (BitVec.ofNat 32 nds.length :: nds.map (childItem · c.length)) ↔
          ∃ words, BitVec.ofNat 32 nds.length :: nds.map (childItem · c.length) =
            BitVec.ofNat 32 words.length :: words ∧ words.length < 2 ^ 32 := by
        rw [Header.Layout]
        cases ht : h.type <;> simp [ht, NodeType.isList] at hlist ⊢
      simp only [hlist, if_true, List.singleton_append]
      rw [htype]
      exact ⟨nds.map (childItem · c.length), by rw [List.length_map],
        by rwa [List.length_map]⟩
    · obtain ⟨hn, htypes⟩ := hchildren.resolve_left hlist
      simp only [hlist, Bool.false_eq_true, if_false, List.nil_append]
      rw [Header.Layout]
      cases ht : h.type <;> simp [ht, NodeType.isList, NodeType.toChildren] at hlist htypes hn ⊢
      all_goals exact hn
  · rw [hitems, headItems_eq, List.append_assoc]
    rfl

theorem createConst_wrote {c c' : Code} {v : Value} {nd : Node}
    (heq : c.createConst v = (nd, c')) (hne : nd ≠ .empty) :
    (nd.inCode = false ∧ c' = c ∧ Imm.directOf v ≠ 0) ∨
      (nd.header = ⟨.const, v.kind, 0⟩ ∧ v.isValid ∧ Imm.directOf v = 0 ∧ c.Wrote nd c') := by
  simp only [createConst] at heq
  split at heq
  · obtain ⟨rfl, rfl⟩ := Prod.mk.inj heq
    exact absurd rfl hne
  · next hvalid =>
    split at heq
    · next hdirect =>
      obtain ⟨rfl, rfl⟩ := Prod.mk.inj heq
      exact .inl ⟨rfl, rfl, hdirect⟩
    · next hdirect =>
      right
      have hwrite : ∀ c1 : Code, c1.good = true → (if v.kind.bitsize = 64 then c1.addUint64 v.bits
          else c1.addItem (v.bits.setWidth 32)).good = true →
          Grew c1 (if v.kind.bitsize = 64 then c1.addUint64 v.bits
            else c1.addItem (v.bits.setWidth 32))
            (if v.kind.bitsize = 64 then [v.bits.setWidth 32, (v.bits >>> 32).setWidth 32]
              else [v.bits.setWidth 32]) := by
        intro c1 _ h1
        by_cases hwide : v.kind.bitsize = 64
        · rw [if_pos hwide] at h1 ⊢
          rw [if_pos hwide]
          exact add_good h1
        · rw [if_neg hwide] at h1 ⊢
          rw [if_neg hwide]
          exact add_good h1
      have hwrote := finish_wrote (add_then_good hwrite)
        (fun _ => by rw [Header.Layout]; dsimp only; split <;> rfl) heq hne
      exact ⟨hwrote.1, by simpa using hvalid, by simpa using hdirect, hwrote.2⟩

theorem createVar_wrote {c c' : Code} {l : Local} {nd : Node}
    (heq : c.createVar l = (nd, c')) (hne : nd ≠ .empty) :
    (nd.inCode = false ∧ c' = c) ∨ (nd.header.type ≠ .const ∧ c.Wrote nd c') := by
  simp only [createVar] at heq
  split at heq
  · obtain ⟨rfl, rfl⟩ := Prod.mk.inj heq
    exact .inl ⟨rfl, rfl⟩
  · have hwrote := finish_wrote (add_then_good (h := ⟨.var, l.kind, 0⟩)
      (w := (·.addItem l.indirect)) fun _ _ => add_good) (fun _ => rfl) heq hne
    exact .inr ⟨by simp [hwrote.1], hwrote.2⟩

theorem createLabel_wrote {c c' : Code} {address : BitVec 64} {index : BitVec 16} {nd : Node}
    (heq : c.createLabel address index = (nd, c')) (hne : nd ≠ .empty) :
    nd.header.type ≠ .const ∧ c.Wrote nd c' := by
  have hwrote := finish_wrote (add_then_good
    (h := ⟨.label, .void, if index = 0 ∧ address ≠ 0 then trivialHash address else index⟩)
    (w := (·.addUint64 address)) fun _ _ => add_good) (fun _ => rfl) heq hne
  exact ⟨by simp [hwrote.1], hwrote.2⟩

theorem createName_wrote {c c' : Code} {str : List (BitVec 8)} {nd : Node}
    (heq : c.createName str = (nd, c')) (hne : nd ≠ .empty) :
    nd.header.type ≠ .const ∧ c.Wrote nd c' := by
  rw [createName] at heq
  split at heq
  · exact absurd (Prod.mk.inj heq).1.symm hne
  · next hshort =>
    have hlayout : Header.Layout ⟨.name, .void, BitVec.ofNat 16 str.length⟩ (charItems str) := by
      have hop : (BitVec.ofNat 16 str.length).toNat = str.length := by
        rw [BitVec.toNat_ofNat]
        omega
      change (charItems str).length = ((BitVec.ofNat 16 str.length).toNat + 3) / 4
      rw [charItems_length, hop]
    have hwrote := finish_wrote (add_then_good (h := ⟨.name, .void, BitVec.ofNat 16 str.length⟩)
      fun _ => addChars_good) (fun _ => hlayout) heq hne
    exact ⟨by simp [hwrote.1], hwrote.2⟩

/-- A function type is written like a list of direct variables. -/
theorem createFuncType_items {c c' : Code} {params results : List Kind} {nd : Node}
    (heq : c.createFuncType params results = (nd, c')) (hne : nd ≠ .empty) :
    nd = ⟨⟨.ftype, results.headD .void, BitVec.ofNat 16 results.length⟩, c.length, true⟩ ∧
      params.length ≤ 0xFFFF ∧ results.length ≤ 0xFFFF ∧
      c'.items = c.items ++ nd.header.item :: BitVec.ofNat 32 (params.length + results.length) ::
        (results ++ params).map fun k => (Local.ofKindId k 0).direct := by
  rw [createFuncType] at heq
  split at heq
  · exact absurd (Prod.mk.inj heq).1.symm hne
  · next hshort =>
    obtain ⟨hgood, rfl, rfl⟩ := finish_created heq hne
    refine ⟨rfl, by omega, by omega, ?_⟩
    obtain ⟨hc3, hlast, heq3⟩ := guard_good (f := (·.addKinds params)) hgood
    obtain ⟨hc2, hthird, heq2⟩ := guard_good (f := (·.addKinds results)) hc3
    obtain ⟨hc1, hsecond, heq1⟩ :=
      guard_good (f := (·.addItem (BitVec.ofNat 32 (params.length + results.length)))) hc2
    rw [heq3, (addKinds_good hc3 hlast).items, heq2, (addKinds_good hc2 hthird).items, heq1,
      addItem, (add_good hsecond).items, addItem, (add_good hc1).items]
    simp

theorem createFuncType_wrote {c c' : Code} {params results : List Kind} {nd : Node}
    (heq : c.createFuncType params results = (nd, c')) (hne : nd ≠ .empty) :
    nd.header.type ≠ .const ∧ c.Wrote nd c' := by
  obtain ⟨rfl, hparams, hresults, hitems⟩ := createFuncType_items heq hne
  refine ⟨by simp, rfl, rfl, _, ?_, hitems⟩
  refine ⟨(results ++ params).map fun k => (Local.ofKindId k 0).direct, ?_, ?_⟩
  · rw [List.length_map, List.length_append, Nat.add_comm]
  · rw [List.length_map, List.length_append]
    omega

theorem createIndirect_wrote {c c' : Code} {h : Header} {children : List Node} {nd : Node}
    (hchildren : h.HasChildren children.length)
    (heq : c.createIndirect h children = some (nd, c')) (hne : nd ≠ .empty) :
    nd.header = h ∧ c.Wrote nd c' := by
  by_cases hcount : 2 ^ 32 ≤ children.length
  · rw [createIndirect, if_pos hcount] at heq
    exact absurd (Prod.mk.inj (Option.some.inj heq)).1.symm hne
  · have hin : nd.inCode = true := by
      rw [createIndirect, if_neg hcount] at heq
      by_cases hgood : (c.addItem h.item).good = true
      · rw [if_pos hgood] at heq
        exact finish_inCode (Option.some.inj heq) hne
      · rw [if_neg hgood] at heq
        cases heq
    have hstored := createIndirect_stored heq hin
    exact ⟨by rw [hstored.1], layout_children hchildren (by omega) hstored⟩

theorem createIndirectFromRanges_wrote {c c' : Code} {h : Header} {nodes : List (List Node)}
    {nd : Node} (hchildren : h.HasChildren nodes.flatten.length)
    (heq : c.createIndirectFromRanges h nodes = some (nd, c')) (hne : nd ≠ .empty) :
    nd.header = h ∧ c.Wrote nd c' := by
  have hboth : nd.inCode = true ∧ nodes.flatten.length < 2 ^ 32 := by
    rw [createIndirectFromRanges] at heq
    by_cases hcount : (if h.type.isList then (nodes.map List.length).sum else 0) < 2 ^ 32 ∧
        (c.addItem h.item).good = true
    · rw [if_pos hcount] at heq
      refine ⟨finish_inCode (Option.some.inj heq) hne, ?_⟩
      · rcases hchildren with hlist | ⟨hn, htypes⟩
        · rw [if_pos hlist] at hcount
          rw [List.length_flatten]
          exact hcount.1
        · rw [hn]
          cases ht : h.type <;> simp [ht, NodeType.toChildren] at htypes ⊢
    · rw [if_neg hcount] at heq
      cases heq
  have hstored := createIndirectFromRanges_stored heq hboth.1
  exact ⟨by rw [hstored.1], layout_children hchildren hboth.2 hstored⟩

end Code

/-- A constant that is written is as long as `length_items` takes it to be. -/
def Header.Sized (h : Header) : Prop :=
  h.type = .const → 0 < h.kind.bitsize ∧ h.kind.bitsize ≤ 64

/-- A constant is direct, or its kind has at least one bit and at most 64. -/
def Creation.Sized : Creation → Prop
  | .const v => Imm.directOf v ≠ 0 ∨ (0 < v.kind.bitsize ∧ v.kind.bitsize ≤ 64)
  | _ => True

theorem Header.HasChildren.ne_const {h : Header} {n : Nat} (hc : h.HasChildren n) :
    h.type ≠ .const := by
  rcases hc with hlist | ⟨-, htypes⟩
  · intro heq
    rw [heq] at hlist
    cases hlist
  · intro heq
    rw [heq] at htypes
    exact absurd htypes (by decide)

/-- A successful creation leaves the code alone, or writes its node behind it. -/
theorem Creation.wrote {c c' : Code} {cr : Creation} {nd : Node} (hwf : cr.WellFormed)
    (heq : cr.run c = some (nd, c')) (hne : nd ≠ .empty) :
    (nd.inCode = false ∧ c' = c ∧ cr.Sized) ∨
      (c.Wrote nd c' ∧ (cr.Sized ↔ nd.header.Sized)) := by
  have hother : nd.header.type ≠ .const ∧ c.Wrote nd c' → cr.Sized →
      c.Wrote nd c' ∧ (cr.Sized ↔ nd.header.Sized) :=
    fun h hsized => ⟨h.2, iff_of_true hsized fun hconst => absurd hconst h.1⟩
  cases cr with
  | indirect h children =>
    have hwrote := Code.createIndirect_wrote hwf heq hne
    exact .inr (hother ⟨hwrote.1 ▸ hwf.ne_const, hwrote.2⟩ trivial)
  | ranges h nodes =>
    have hwrote := Code.createIndirectFromRanges_wrote hwf heq hne
    exact .inr (hother ⟨hwrote.1 ▸ hwf.ne_const, hwrote.2⟩ trivial)
  | const v =>
    rcases Code.createConst_wrote (Option.some.inj heq) hne with hdirect | hstored
    · exact .inl ⟨hdirect.1, hdirect.2.1, .inl hdirect.2.2⟩
    · obtain ⟨hheader, -, hdirect, hwrote⟩ := hstored
      refine .inr ⟨hwrote, ?_⟩
      simp [Creation.Sized, Header.Sized, hheader, hdirect]
  | var l =>
    rcases Code.createVar_wrote (Option.some.inj heq) hne with hdirect | hstored
    · exact .inl ⟨hdirect.1, hdirect.2, trivial⟩
    · exact .inr (hother hstored trivial)
  | label address index =>
    exact .inr (hother (Code.createLabel_wrote (Option.some.inj heq) hne) trivial)
  | funcType params results =>
    exact .inr (hother (Code.createFuncType_wrote (Option.some.inj heq) hne) trivial)
  | name str => exact .inr (hother (Code.createName_wrote (Option.some.inj heq) hne) trivial)

/-! ## The length of a node -/

theorem Kind.bitsize_cases (k : Kind) :
    k.bitsize < 2 ^ 23 ∧ (k.bitsize ≤ 32 ∨ 64 ≤ k.bitsize) := by
  obtain ⟨e, s⟩ := k
  cases e <;> revert s <;> decide

namespace Code.Wrote

variable {c c' c'' : Code} {nd : Node}

theorem length_eq (h : c.Wrote nd c') : ∃ payload, nd.header.Layout payload ∧
    c'.items.length = c.items.length + 1 + payload.length := by
  obtain ⟨payload, hlayout, hitems⟩ := h.layout
  refine ⟨payload, hlayout, ?_⟩
  rw [hitems, List.length_append, List.length_cons]
  omega

/-- The items of a node, in every longer code. -/
theorem getElem?_items (h : c.Wrote nd c') (hpre : c'.items <+: c''.items) :
    ∃ payload, nd.header.Layout payload ∧
      c'.items.length = c.items.length + 1 + payload.length ∧
      c''.items[c.items.length]? = some nd.header.item ∧
      ∀ w words, payload = w :: words → c''.items[c.items.length + 1]? = some w := by
  obtain ⟨payload, hlayout, hitems⟩ := h.layout
  obtain ⟨rest, hrest⟩ := hpre
  rw [hitems, List.append_assoc] at hrest
  refine ⟨payload, hlayout, ?_, ?_, ?_⟩
  · rw [hitems, List.length_append, List.length_cons]
    omega
  · rw [← hrest, List.getElem?_append_right (Nat.le_refl _), Nat.sub_self]
    rfl
  · rintro w words rfl
    rw [← hrest, List.getElem?_append_right (Nat.le_add_right _ _), Nat.add_sub_cancel_left]
    rfl

/-- The parser finds the node where it was written. -/
theorem node_eq (h : c.Wrote nd c') (hfits : c.Fits) (hpre : c'.items <+: c''.items) :
    (CodeParser.mk c'' c.length).node = nd := by
  obtain ⟨payload, -, -, hheader, -⟩ := h.getElem?_items hpre
  have hoffset : c.length.toNat / 4 = c.items.length := by
    rw [Code.length_toNat hfits]
    omega
  have hget : c''.get c.length = nd.header.item := by
    rw [Code.get, hoffset, List.getD_eq_getElem?_getD, hheader, Option.getD_some]
  rw [CodeParser.node]
  dsimp only
  rw [hget, Header.ofItem_item]
  obtain ⟨header, offOrDir, inCode⟩ := nd
  have ho := h.offset
  have hi := h.inCode
  simp only at ho hi
  rw [ho, hi]

theorem lengthItems_const (h : c.Wrote nd c') (hconst : nd.header.type = .const) :
    (nd.lengthItems c'').toNat = 1 + (nd.header.kind.bitsize + 31) / 32 ∧
      c'.items.length = c.items.length + if nd.header.kind.bitsize = 64 then 3 else 2 := by
  have hsize := nd.header.kind.bitsize_cases.1
  constructor
  · have hchildren : nd.children c'' = 0 := by
      rw [Node.children, hconst]
      rfl
    have hplus : nd.header.plus = (nd.header.kind.bitsize + 31) / 32 := by
      rw [Header.plus, hconst]
    rw [Node.lengthItems, addUint32_toNat, addUint32_toNat, hchildren, hplus]
    omega
  · obtain ⟨payload, hlayout, hlength⟩ := h.length_eq
    rw [Header.Layout, hconst] at hlayout
    dsimp only at hlayout
    rw [hlength, hlayout]
    split <;> rfl

theorem lengthItems_list (hlist : nd.header.type.isList) : 2 ≤ (nd.lengthItems c'').toNat := by
  have hplus : nd.header.plus = 1 := by
    rw [Header.plus]
    cases ht : nd.header.type <;> simp [ht, NodeType.isList] at hlist ⊢
  rw [Node.lengthItems, addUint32_toNat, addUint32_toNat, hplus]
  omega

theorem lengthItems_toNat (h : c.Wrote nd c') (hpre : c'.items <+: c''.items)
    (hconst : nd.header.type ≠ .const)
    (hroom : nd.header.type.isList → 4 * (c.items.length + 1) < 2 ^ 32) :
    (nd.lengthItems c'').toNat = min (c'.items.length - c.items.length) (2 ^ 32 - 1) := by
  obtain ⟨payload, hlayout, hlength, -, hfirst⟩ := h.getElem?_items hpre
  rw [Node.lengthItems, addUint32_toNat, addUint32_toNat]
  by_cases hlist : nd.header.type.isList = true
  · have htype : ∃ words, payload = BitVec.ofNat 32 words.length :: words ∧
        words.length < 2 ^ 32 := by
      rw [Header.Layout] at hlayout
      cases ht : nd.header.type <;> simp [ht, NodeType.isList] at hlist hlayout
      all_goals exact hlayout
    have hplus : nd.header.plus = 1 := by
      rw [Header.plus]
      cases ht : nd.header.type <;> simp [ht, NodeType.isList] at hlist ⊢
    obtain ⟨words, rfl, hwords⟩ := htype
    have hitem := hfirst _ _ rfl
    have hchildren : nd.children c'' = words.length := by
      have hroom := hroom hlist
      have hoffset : (c.length + 4).toNat / 4 = c.items.length + 1 := by
        rw [BitVec.toNat_add, Code.length, BitVec.toNat_ofNat]
        have hfour : (4 : BitVec 32).toNat = 4 := rfl
        omega
      rw [Node.children, if_pos hlist, Node.get, if_pos h.inCode, h.offset, Code.get, hoffset,
        List.getD_eq_getElem?_getD, hitem, Option.getD_some, BitVec.toNat_ofNat]
      omega
    rw [hchildren, hplus, hlength, List.length_cons]
    omega
  · have hchildren : nd.children c'' = nd.header.type.toChildren := by
      rw [Node.children, if_neg hlist]
    have htotal : nd.header.type.toChildren + nd.header.plus = payload.length := by
      rw [Header.Layout] at hlayout
      rw [Header.plus]
      cases ht : nd.header.type <;>
        simp [ht, NodeType.isList, NodeType.toChildren] at hlist hlayout hconst ⊢
      all_goals simp [hlayout]
    rw [hchildren, hlength]
    omega

/-- The offset after the node, where the next one was written or the code ends. -/
theorem offset_next (h : c.Wrote nd c') (hfits : c.Fits) (hpre : c'.items <+: c''.items) :
    addUint32 c.length.toNat (nd.lengthBytes c'').toNat = c'.length ↔
      c'.Fits ∧ nd.header.Sized := by
  have hlength := Code.length_toNat hfits
  have hgrow : c.items.length < c'.items.length := by
    obtain ⟨payload, -, heq⟩ := h.length_eq
    omega
  have hfits' := hfits
  rw [Code.Fits] at hfits' ⊢
  rw [← BitVec.toNat_inj, addUint32_toNat, Node.lengthBytes, mulUint32_toNat, Code.length,
    Code.length, BitVec.toNat_ofNat, BitVec.toNat_ofNat, Header.Sized]
  by_cases hconst : nd.header.type = .const
  · obtain ⟨hitems, heq⟩ := h.lengthItems_const hconst
    have hbits := nd.header.kind.bitsize_cases
    rw [hitems]
    simp only [hconst, true_implies]
    split at heq <;> omega
  · have hsized : (nd.header.type = .const → 0 < nd.header.kind.bitsize ∧
        nd.header.kind.bitsize ≤ 64) ↔ True := by
      simp [hconst]
    rw [hsized, and_true]
    by_cases hroom : nd.header.type.isList → 4 * (c.items.length + 1) < 2 ^ 32
    · rw [h.lengthItems_toNat hpre hconst hroom]
      omega
    · rw [Classical.not_imp] at hroom
      have htwo : 2 ≤ (nd.lengthItems c'').toNat := lengthItems_list hroom.1
      omega

end Code.Wrote

/-! ## Walking -/

namespace CodeParser

variable {c c' c'' : Code} {nd : Node} {nds : List Node}

/-- Where a walk starts: the offset of the first node it returns, or where it ends. -/
theorem Walks.start {p q : CodeParser} (h : Walks p nds q) :
    ((nds.head?.map Node.offOrDir).getD q.offset) = p.offset := by
  cases h with
  | done _ => rfl
  | next h _ =>
    rw [CodeParser.next, if_pos h]
    rfl

/-- A walk over the node that was written after `c`. -/
theorem walks_wrote_iff (h : c.Wrote nd c') (hfits : c.Fits) (hpre : c'.items <+: c''.items)
    (hstart : (nds.head?.map Node.offOrDir).getD c''.length = c'.length) :
    Walks ⟨c'', c.length⟩ (nd :: nds) ⟨c'', c''.length⟩ ↔
      (CodeParser.mk c'' c.length).more ∧ (c'.Fits ∧ nd.header.Sized) ∧
        Walks ⟨c'', c'.length⟩ nds ⟨c'', c''.length⟩ := by
  have hnode := h.node_eq hfits hpre
  have hnext : (CodeParser.mk c'' c.length).more →
      (CodeParser.mk c'' c.length).next =
        (nd, ⟨c'', addUint32 c.length.toNat (nd.lengthBytes c'').toNat⟩) := by
    intro hmore
    rw [CodeParser.next, if_pos hmore, hnode]
  rw [← h.offset_next hfits hpre]
  constructor
  · intro hwalk
    generalize hp : CodeParser.mk c'' c.length = p at hwalk hnext ⊢
    cases hwalk with
    | next hmore hrest =>
      rw [hnext hmore] at hrest
      have heq := hrest.start
      rw [hstart] at heq
      refine ⟨hmore, heq.symm, ?_⟩
      rw [heq]
      exact hrest
  · intro ⟨hmore, hoffset, hrest⟩
    have hwalk := Walks.next (q := ⟨c'', c''.length⟩) hmore (by
      rw [hnext hmore, hoffset]
      exact hrest)
    rwa [hnext hmore] at hwalk

end CodeParser

namespace Code

theorem build_cons {c c'' : Code} {cr : Creation} {crs : List Creation} {nds : List Node}
    (h : c.build (cr :: crs) = some (c'', nds)) :
    ∃ nd c' rest, cr.run c = some (nd, c') ∧ nd ≠ .empty ∧ c'.build crs = some (c'', rest) ∧
      nds = if nd.inCode then nd :: rest else rest := by
  rw [build] at h
  obtain ⟨⟨nd, c'⟩, hrun, h⟩ := Option.bind_eq_some_iff.mp h
  dsimp only at h
  split at h
  · cases h
  · next hne =>
    obtain ⟨⟨c3, rest⟩, hbuild, h⟩ := Option.bind_eq_some_iff.mp h
    obtain ⟨rfl, rfl⟩ := Prod.mk.inj (Option.some.inj h)
    exact ⟨nd, c', rest, hrun, hne, hbuild, rfl⟩

/-- Creations only append, and the first node they write starts where the code ended. -/
theorem build_prefix {c c' : Code} {crs : List Creation} {nds : List Node}
    (hwf : ∀ cr ∈ crs, cr.WellFormed) (h : c.build crs = some (c', nds)) :
    c.items <+: c'.items ∧ (nds.head?.map Node.offOrDir).getD c'.length = c.length := by
  induction crs generalizing c nds with
  | nil =>
    obtain ⟨rfl, rfl⟩ := Prod.mk.inj (Option.some.inj h)
    exact ⟨List.prefix_rfl, rfl⟩
  | cons cr crs ih =>
    rw [List.forall_mem_cons] at hwf
    obtain ⟨nd, c1, rest, hrun, hne, hbuild, rfl⟩ := build_cons h
    have hrest := ih hwf.2 hbuild
    rcases Creation.wrote hwf.1 hrun hne with ⟨hin, rfl, -⟩ | ⟨hwrote, -⟩
    · rw [hin]
      exact hrest
    · rw [if_pos hwrote.inCode]
      obtain ⟨payload, -, hitems⟩ := hwrote.layout
      refine ⟨?_, hwrote.offset⟩
      exact (hitems ▸ List.prefix_append _ _ : c.items <+: c1.items).trans hrest.1

/-- Walking what a sequence of creations wrote. -/
theorem walks_build_iff {c c' : Code} {crs : List Creation} {nds : List Node} (hfits : c.Fits)
    (hwf : ∀ cr ∈ crs, cr.WellFormed) (h : c.build crs = some (c', nds)) :
    CodeParser.Walks ⟨c', c.length⟩ nds ⟨c', c'.length⟩ ↔
      c'.Fits ∧ ∀ cr ∈ crs, cr.Sized := by
  induction crs generalizing c nds with
  | nil =>
    obtain ⟨rfl, rfl⟩ := Prod.mk.inj (Option.some.inj h)
    have hdone : CodeParser.more ⟨c, c.length⟩ = false := by
      simp [CodeParser.more, BitVec.ult]
    exact iff_of_true (.done hdone) ⟨hfits, by simp⟩
  | cons cr crs ih =>
    rw [List.forall_mem_cons] at hwf ⊢
    obtain ⟨nd, c1, rest, hrun, hne, hbuild, rfl⟩ := build_cons h
    rcases Creation.wrote hwf.1 hrun hne with ⟨hin, rfl, hsized⟩ | ⟨hwrote, hsized⟩
    · rw [hin, if_neg (by decide), ih hfits hwf.2 hbuild]
      simp [hsized]
    · have hpre := build_prefix hwf.2 hbuild
      rw [if_pos hwrote.inCode, CodeParser.walks_wrote_iff hwrote hfits hpre.1 hpre.2, hsized]
      constructor
      · rintro ⟨-, ⟨hfits1, hheader⟩, hwalk⟩
        have hrest := (ih hfits1 hwf.2 hbuild).mp hwalk
        exact ⟨hrest.1, hheader, hrest.2⟩
      · intro ⟨hfits', hheader, hrest⟩
        have hle := hpre.1.length_le
        have hfits1 : c1.Fits := by
          unfold Fits at hfits' ⊢
          omega
        have hmore : CodeParser.more ⟨c', c.length⟩ := by
          obtain ⟨payload, -, hlength⟩ := hwrote.length_eq
          rw [CodeParser.more, BitVec.ult, length_toNat hfits, length_toNat hfits',
            decide_eq_true_eq]
          omega
        exact ⟨hmore, ⟨hfits1, hheader⟩, (ih hfits1 hwf.2 hbuild).mpr ⟨hfits', hrest⟩⟩

/-- The signature that `Code::init` writes, a constant of kind `uint8x4`. -/
def magic : Node := ⟨⟨.const, ⟨.uint8, 2⟩, 0⟩, 0, true⟩

theorem init_wrote {limit : Nat} (h : 64 ≤ limit) :
    Wrote ⟨[], true, limit⟩ magic (init limit) := by
  refine ⟨rfl, rfl, [0x54494A31], rfl, ?_⟩
  rw [init, if_pos h]
  rfl

/-- `CodeParser` returns the signature and then exactly the nodes that were written, in order, and
stops at the length of the code, if and only if this length is an offset and every constant that
is not direct has at least one bit and at most 64. -/
theorem walk_build_iff {limit : Nat} (hlimit : 64 ≤ limit) {crs : List Creation} {c : Code}
    {nds : List Node} (hwf : ∀ cr ∈ crs, cr.WellFormed)
    (h : (init limit).build crs = some (c, nds)) :
    CodeParser.Walks ⟨c, 0⟩ (magic :: nds) ⟨c, c.length⟩ ↔
      c.Fits ∧ ∀ cr ∈ crs, cr.Sized := by
  have hempty : Fits ⟨[], true, limit⟩ := by simp [Fits]
  have hinit : (init limit).Fits := by simp [Fits, init, hlimit]
  have hsized : magic.header.Sized := by
    rw [Header.Sized]
    decide
  have hpre := build_prefix hwf h
  have hwalk := CodeParser.walks_wrote_iff (init_wrote hlimit) hempty hpre.1 hpre.2
  rw [show (0 : BitVec 32) = length ⟨[], true, limit⟩ from rfl, hwalk,
    walks_build_iff hinit hwf h]
  constructor
  · exact fun hright => hright.2.2
  · intro hright
    have hmore : CodeParser.more ⟨c, length ⟨[], true, limit⟩⟩ := by
      have hle := hpre.1.length_le
      rw [init, if_pos hlimit] at hle
      rw [CodeParser.more, BitVec.ult, length_toNat hempty, length_toNat hright.1,
        decide_eq_true_eq]
      simp only [List.length_cons, List.length_nil] at hle ⊢
      omega
    exact ⟨hmore, ⟨hinit, hsized⟩, hright⟩

/-- `x + 0x12345678`, with a variable and a constant that are not direct, and a name. -/
def namedSum : List Creation :=
  [.const ⟨0x12345678, .int32⟩, .var (Local.ofKindId .int32 0x200000), .name [0x73, 0x75, 0x6D],
    .indirect ⟨.tuple, .int32, 1⟩ [⟨⟨.var, .int32, 0⟩, 16, true⟩, ⟨⟨.const, .int32, 0⟩, 8, true⟩]]

theorem walk_build_namedSum :
    let built := ((init 64).build namedSum).getD (init 64, [])
    CodeParser.Walks ⟨built.1, 0⟩ (magic :: built.2) ⟨built.1, built.1.length⟩ := by
  have hwf : ∀ cr ∈ namedSum, cr.WellFormed := by
    simp [namedSum, Creation.WellFormed, Header.HasChildren, NodeType.isList]
  have hsized : ∀ cr ∈ namedSum, cr.Sized := by
    simp only [namedSum, List.forall_mem_cons, Creation.Sized, true_and]
    exact ⟨.inr (by decide), by simp⟩
  have hlimit : 64 ≤ 64 := by decide
  exact (walk_build_iff hlimit hwf rfl).mpr ⟨by rw [Fits]; decide, hsized⟩

/-- A constant of kind `int32x4` is written in one item and skipped as four. -/
theorem walk_build_loses_simd :
    ¬∀ (limit : Nat) (crs : List Creation) (c : Code) (nds : List Node), 64 ≤ limit →
      (∀ cr ∈ crs, cr.WellFormed) → (init limit).build crs = some (c, nds) →
      CodeParser.Walks ⟨c, 0⟩ (magic :: nds) ⟨c, c.length⟩ := by
  intro h
  have hwalk := h 64 [.const ⟨1, ⟨.int32, 2⟩⟩] _ _ (by decide) (by simp [Creation.WellFormed]) rfl
  cases hwalk with
  | next _ hrest =>
    cases hrest with
    | next _ hrest =>
      exact absurd hrest.start (by decide)

end Code

end OneJit
