import OneJit.ConstEncoding
import OneJit.Lib.ThreeWay

/-!
# Comparing the nodes of a code

`deep_compare` compares the headers, then the form of the nodes, then what direct nodes hold or
the children in turn. It is the lexicographic order of a list of numbers, one for every header,
form and end of a list of children: the list of a node is never a proper prefix of that of
another one.
-/

namespace OneJit

/-- `Header::order`. -/
def Header.order (h : Header) : Nat :=
  h.type.toNat * 2 ^ 24 + h.kind.val.toNat * 2 ^ 16 + h.op.toNat

/-- `compare` of two sizes. -/
def compareSize (a b : Nat) : Int := if a < b then -1 else if a > b then 1 else 0

/-- The loop over the children: the first comparison that is not zero. -/
def firstDifference (cmp : Nat → Option Int) : List Nat → Option Int
  | [] => some 0
  | i :: is => do
    let r ← cmp i
    if r ≠ 0 then some r else firstDifference cmp is

namespace Node

/-- `deep_compare`, at most `fuel` levels deep. -/
def compareUpTo (c : Code) : Nat → Node → Node → Option Int
  | 0, _, _ => none
  | fuel + 1, a, b =>
    if a.header ≠ b.header then some (if a.header.order < b.header.order then -1 else 1)
    else if a.inCode ≠ b.inCode then some (if a.inCode then 1 else -1)
    else if a.inCode = false then some (compareSize a.offOrDir.toNat b.offOrDir.toNat)
    else if a.offOrDir = b.offOrDir then some 0
    else do
      let n1 := a.children c
      let n2 := b.children c
      let child (i : Nat) := compareUpTo c fuel (a.child c (BitVec.ofNat 32 i))
        (b.child c (BitVec.ofNat 32 i))
      let r ← firstDifference child (List.range (min n1 n2))
      some (if r ≠ 0 then r else compareSize n1 n2)

/-- `deep_compare`. A node has no more levels than the code has bytes, and a direct child. -/
def deepCompare (c : Code) (a b : Node) : Option Int := compareUpTo c (c.length.toNat + 1) a b

/-- `is<Expr>()`. -/
def isExpr (nd : Node) : Bool :=
  NodeType.var.toNat ≤ nd.header.type.toNat && nd.header.type.toNat ≤ NodeType.const.toNat

/-- `is<Const>()`. -/
def isConst (nd : Node) : Bool := nd.header.type == .const

/-! ## The list of a node -/

/-- The numbers that are compared. A header is positive, and zero ends a list of children. -/
def key (c : Code) : Nat → Node → List Nat
  | 0, nd => [nd.header.order + 1]
  | fuel + 1, nd => (nd.header.order + 1) ::
    if nd.inCode then
      1 :: ((List.range (nd.children c)).flatMap fun i =>
        key c fuel (nd.child c (BitVec.ofNat 32 i))) ++ [0]
    else [0, nd.offOrDir.toNat]

end Node

theorem Header.order_inj {h h' : Header} : h.order = h'.order ↔ h = h' := by
  constructor
  · intro heq
    obtain ⟨t, k, op⟩ := h
    obtain ⟨t', k', op'⟩ := h'
    have hk := k.val.isLt
    have hk' := k'.val.isLt
    have hop := op.isLt
    have hop' := op'.isLt
    simp only [order] at heq
    have htype : t = t' := by
      rw [← NodeType.ofVal_toNat t, ← NodeType.ofVal_toNat t',
        show t.toNat = t'.toNat by omega]
    have hval : k.val = k'.val := BitVec.eq_of_toNat_eq (by omega)
    have hkind : k = k' := by rw [← Kind.ofVal_val k, ← Kind.ofVal_val k', hval]
    have hop : op = op' := BitVec.eq_of_toNat_eq (by omega)
    rw [htype, hkind, hop]
  · rintro rfl
    rfl

theorem compareSize_eq (a b : Nat) : compareSize a b = (compare a b).toInt := by
  rw [compareSize, Nat.compare_eq_ite_lt]
  split
  · rfl
  · split <;> rfl

/-- The lexicographic order of lists of numbers. -/
abbrev compareKeys : List Nat → List Nat → Ordering := List.compareLex compare

/-- The lists are compared before all that follows them. -/
def Decides (o : Ordering) (xs ys : List Nat) : Prop :=
  ∀ rest rest', compareKeys (xs ++ rest) (ys ++ rest') = o.then (compareKeys rest rest')

theorem compareKeys_cons (x y : Nat) (xs ys : List Nat) :
    compareKeys (x :: xs) (y :: ys) = (compare x y).then (compareKeys xs ys) :=
  List.compareLex_cons_cons

theorem decides_self (xs : List Nat) : Decides .eq xs xs := by
  intro rest rest'
  induction xs with
  | nil => rfl
  | cons x xs ih => simpa [compareKeys_cons] using ih

/-- The children one after the other, and then their number. -/
theorem firstDifference_eq {cmp : Nat → Option Int} {ka kb : Nat → List Nat} (n1 n2 s : Nat)
    (hcmp : ∀ i, s ≤ i → i < s + n1 → i < s + n2 →
      ∃ o : Ordering, cmp i = some o.toInt ∧ Decides o (ka i) (kb i))
    (hka : ∀ i, ∃ x xs, ka i = (x + 1) :: xs) (hkb : ∀ i, ∃ x xs, kb i = (x + 1) :: xs) :
    ∃ o : Ordering, firstDifference cmp (List.range' s (min n1 n2)) = some o.toInt ∧
      Decides (o.then (compare n1 n2)) ((List.range' s n1).flatMap ka ++ [0])
        ((List.range' s n2).flatMap kb ++ [0]) := by
  have hlt : ∀ k, compare 0 (k + 1) = .lt := fun k => Nat.compare_eq_lt.mpr (by omega)
  have hgt : ∀ k, compare (k + 1) 0 = .gt := fun k => Nat.compare_eq_gt.mpr (by omega)
  induction n1 generalizing n2 s with
  | zero =>
    refine ⟨.eq, by simp [firstDifference, Ordering.toInt], fun rest rest' => ?_⟩
    cases n2 with
    | zero => simp [compareKeys_cons]
    | succ n2 =>
      obtain ⟨x, xs, hx⟩ := hkb s
      simp [List.range'_succ, hx, compareKeys_cons, hlt]
  | succ n1 ih =>
    cases n2 with
    | zero =>
      refine ⟨.eq, by simp [firstDifference, Ordering.toInt], fun rest rest' => ?_⟩
      obtain ⟨x, xs, hx⟩ := hka s
      simp [List.range'_succ, hx, compareKeys_cons, hgt]
    | succ n2 =>
      obtain ⟨o, ho, hdecides⟩ := hcmp s le_rfl (by omega) (by omega)
      obtain ⟨o', ho', hdecides'⟩ := ih n2 (s + 1)
        fun i hle hlt hlt' => hcmp i (by omega) (by omega) (by omega)
      have hsize : compare (n1 + 1) (n2 + 1) = compare n1 n2 := by
        rw [Nat.compare_eq_ite_lt, Nat.compare_eq_ite_lt]
        simp
      refine ⟨o.then o', ?_, fun rest rest' => ?_⟩
      · rw [Nat.succ_min_succ, List.range'_succ, firstDifference, ho]
        cases o with
        | eq => simpa [Ordering.toInt] using ho'
        | lt | gt => simp [Ordering.toInt]
      · have hrest := hdecides' rest rest'
        rw [List.range'_succ, List.range'_succ, List.flatMap_cons, List.flatMap_cons]
        simp only [List.append_assoc] at hrest ⊢
        rw [hdecides, hrest, hsize, Ordering.then_assoc, Ordering.then_assoc, Ordering.then_assoc]

/-! ## Nodes whose children are nearer to the start of the code -/

/-- The nodes of `S` are read back with children of `S` that are direct or were written before
them. -/
structure Closed (c : Code) (S : Node → Prop) : Prop where
  child : ∀ {nd : Node}, S nd → nd.inCode = true → ∀ i, i < nd.children c →
    S (nd.child c (BitVec.ofNat 32 i))
  before : ∀ {nd : Node}, S nd → nd.inCode = true → ∀ i, i < nd.children c →
    (nd.child c (BitVec.ofNat 32 i)).inCode = true →
      (nd.child c (BitVec.ofNat 32 i)).offOrDir.toNat < nd.offOrDir.toNat
  bound : ∀ {nd : Node}, S nd → nd.inCode = true → nd.offOrDir.toNat < c.length.toNat

namespace Node

/-- The levels of a node are at most its level. -/
def level (nd : Node) : Nat := if nd.inCode then nd.offOrDir.toNat + 1 else 0

theorem key_cons (c : Code) (fuel : Nat) (nd : Node) : ∃ x xs, key c fuel nd = (x + 1) :: xs := by
  cases fuel <;> exact ⟨_, _, rfl⟩

variable {c : Code} {S : Node → Prop}

theorem level_child (hS : Closed c S) {nd : Node} (h : S nd) (hin : nd.inCode = true) {i : Nat}
    (hi : i < nd.children c) : (nd.child c (BitVec.ofNat 32 i)).level < nd.level := by
  rw [level, level, if_pos hin]
  split
  · next hchild =>
    have hlt := hS.before h hin i hi hchild
    omega
  · omega

/-- Two different nodes in the code with one header are compared by their children. -/
theorem decides_children {fuel : Nat} {a b : Node} (hina : a.inCode = true)
    (hinb : b.inCode = true) (hheader : a.header = b.header)
    (hcmp : ∀ i, i < a.children c → i < b.children c → ∃ o : Ordering,
      compareUpTo c fuel (a.child c (BitVec.ofNat 32 i)) (b.child c (BitVec.ofNat 32 i)) =
        some o.toInt ∧
      Decides o (key c fuel (a.child c (BitVec.ofNat 32 i)))
        (key c fuel (b.child c (BitVec.ofNat 32 i))))
    (hoff : a.offOrDir ≠ b.offOrDir) :
    ∃ o : Ordering, compareUpTo c (fuel + 1) a b = some o.toInt ∧
      Decides o (key c (fuel + 1) a) (key c (fuel + 1) b) := by
  obtain ⟨o, ho, hdecides⟩ := firstDifference_eq (a.children c) (b.children c) 0
    (fun i _ hi hi' => hcmp i (by omega) (by omega))
    (fun i => key_cons c fuel (a.child c (BitVec.ofNat 32 i)))
    (fun i => key_cons c fuel (b.child c (BitVec.ofNat 32 i)))
  simp only [← List.range_eq_range'] at ho hdecides
  refine ⟨o.then (compare (a.children c) (b.children c)), ?_, fun rest rest' => ?_⟩
  · rw [compareUpTo, if_neg (not_not_intro hheader), hina, hinb, if_neg (by simp), if_neg (by simp),
      if_neg hoff]
    simp only [ho, compareSize_eq]
    cases o <;> simp [Ordering.toInt]
  · have hrest := hdecides rest rest'
    simp only [key, hina, hinb, if_true, hheader, List.cons_append, compareKeys_cons]
    have hself : ∀ n : Nat, compare n n = .eq := fun n => Nat.compare_eq_eq.mpr rfl
    rw [hself, hself]
    exact hrest

/-- The comparison of two nodes is that of their lists. -/
theorem compareUpTo_eq (hS : Closed c S) {fuel : Nat} {a b : Node} (ha : S a) (hb : S b)
    (hfa : a.level < fuel) (hfb : b.level < fuel) :
    ∃ o : Ordering, compareUpTo c fuel a b = some o.toInt ∧
      Decides o (key c fuel a) (key c fuel b) := by
  induction fuel generalizing a b with
  | zero => omega
  | succ fuel ih =>
    by_cases hheader : a.header = b.header
    · cases hina : a.inCode <;> cases hinb : b.inCode
      · refine ⟨compare a.offOrDir.toNat b.offOrDir.toNat, ?_, fun rest rest' => ?_⟩
        · simp [compareUpTo, hheader, hina, hinb, compareSize_eq]
        · simp [key, hheader, hina, hinb, compareKeys_cons]
      · refine ⟨.lt, by simp [compareUpTo, hheader, hina, hinb, Ordering.toInt], fun rest rest' => ?_⟩
        have hlt : compare 0 1 = Ordering.lt := rfl
        simp [key, hheader, hina, hinb, compareKeys_cons, hlt]
      · refine ⟨.gt, by simp [compareUpTo, hheader, hina, hinb, Ordering.toInt], fun rest rest' => ?_⟩
        have hgt : compare 1 0 = Ordering.gt := rfl
        simp [key, hheader, hina, hinb, compareKeys_cons, hgt]
      · by_cases hoff : a.offOrDir = b.offOrDir
        · obtain rfl : a = b := by
            cases a
            cases b
            simp_all
          exact ⟨.eq, by simp [compareUpTo, hina, Ordering.toInt], decides_self _⟩
        · refine decides_children hina hinb hheader (fun i hi hi' => ?_) hoff
          have hla := level_child hS ha hina hi
          have hlb := level_child hS hb hinb hi'
          exact ih (hS.child ha hina i hi) (hS.child hb hinb i hi') (by omega) (by omega)
    · have horder : a.header.order ≠ b.header.order := fun heq => hheader (Header.order_inj.mp heq)
      rcases Nat.lt_or_gt_of_ne horder with hlt | hgt
      · refine ⟨.lt, by simp [compareUpTo, hheader, hlt, Ordering.toInt], fun rest rest' => ?_⟩
        have hcmp := Nat.compare_eq_lt.mpr (Nat.succ_lt_succ hlt)
        simp only [key, List.cons_append, compareKeys_cons, hcmp, Ordering.lt_then]
      · refine ⟨.gt, ?_, fun rest rest' => ?_⟩
        · simp [compareUpTo, hheader, Nat.lt_asymm hgt, Ordering.toInt]
        · have hcmp := Nat.compare_eq_gt.mpr (Nat.succ_lt_succ hgt)
          simp only [key, List.cons_append, compareKeys_cons, hcmp, Ordering.gt_then]

/-- The list of a node of the code. -/
def keyOf (c : Code) (nd : Node) : List Nat := key c (c.length.toNat + 1) nd

theorem deepCompare_eq (hS : Closed c S) {a b : Node} (ha : S a) (hb : S b) :
    deepCompare c a b = some (compareKeys (keyOf c a) (keyOf c b)).toInt := by
  have hlevel : ∀ {nd : Node}, S nd → nd.level < c.length.toNat + 1 := by
    intro nd h
    rw [level]
    split
    · next hin => exact Nat.succ_lt_succ (hS.bound h hin)
    · omega
  obtain ⟨o, ho, hdecides⟩ := compareUpTo_eq hS ha hb (hlevel ha) (hlevel hb)
  have hall := hdecides [] []
  rw [List.append_nil, List.append_nil] at hall
  rw [deepCompare, ho, keyOf, keyOf, hall]
  cases o <;> rfl

/-- A constant comes after every other expression. -/
theorem deepCompare_const {a b : Node} (hconst : a.isConst) (hexpr : b.isExpr)
    (hother : b.isConst = false) :
    deepCompare c a b = some 1 ∧ deepCompare c b a = some (-1) := by
  have hb : b.header.type.toNat < NodeType.const.toNat := by
    simp only [isExpr, Bool.and_eq_true, decide_eq_true_eq] at hexpr
    apply Nat.lt_of_le_of_ne hexpr.2
    intro heq
    have htype : b.header.type = .const := by
      rw [← NodeType.ofVal_toNat b.header.type, heq, NodeType.ofVal_toNat]
    simp [isConst, htype] at hother
  have ha : a.header.type = .const := by simpa [isConst] using hconst
  have horder : b.header.order < a.header.order := by
    have hk := b.header.kind.val.isLt
    have hop := b.header.op.isLt
    simp only [Header.order, ha]
    omega
  have hne : a.header ≠ b.header := by
    intro heq
    rw [heq] at horder
    exact Nat.lt_irrefl _ horder
  constructor
  · rw [deepCompare, compareUpTo, if_pos hne, if_neg (by omega)]
  · rw [deepCompare, compareUpTo, if_pos hne.symm, if_pos horder]

end Node

/-! ## Along a run -/

/-- The nodes that are passed to a creation. -/
def Creation.children : Creation → List Node
  | indirect _ children => children
  | ranges _ nodes => nodes.flatten
  | _ => []

/-- The worlds that calls of the constructors produce from a new `Code`: every child is a node that
was there, and their number is the one of the type of the header. -/
inductive World.Built : World → Prop
  | init (limit : Nat) : Built ⟨.init limit, []⟩
  | create {w : World} (cr : Creation) {nd : Node} {c' : Code} (hw : Built w)
      (husable : ∀ ch ∈ cr.children, w.Usable ch) (hwf : cr.WellFormed)
      (heq : cr.run w.code = some (nd, c')) (hfits : c'.Fits) : Built ⟨c', nd :: w.nodes⟩

/-- The node was written behind a code, with children that were there. -/
structure World.Laid (w : World) (nd : Node) (c : Code) (children : List Node) : Prop where
  fits : c.Fits
  node : nd = ⟨nd.header, c.length, true⟩
  arity : nd.header.Admits children.length
  usable : ∀ ch ∈ children, ch.IsDirect ∨ (ch.StoredIn c ∧ ch ∈ w.nodes)
  items : c.items ++ (Code.headItems nd.header children.length ++
    children.map (Code.childItem · c.length)) <+: w.code.items

theorem World.Laid.mono {w w' : World} {nd : Node} {c : Code} {chs : List Node}
    (h : w.Laid nd c chs) (hitems : w.code.items <+: w'.code.items)
    (hnodes : ∀ ch ∈ w.nodes, ch ∈ w'.nodes) : w'.Laid nd c chs where
  fits := h.fits
  node := h.node
  arity := h.arity
  usable ch hch := (h.usable ch hch).imp_right fun hst => ⟨hst.1, hnodes ch hst.2⟩
  items := h.items.trans hitems

theorem Header.HasChildren.admits {h : Header} {n : Nat} (hc : h.HasChildren n) : h.Admits n :=
  hc.imp_right And.left

/-- The kind in a function type is a local variable with a small identifier. -/
theorem ofKindId_isDirect (k : Kind) : (Local.ofKindId k 0).isDirect := by
  have hval : (Local.ofKindId k 0).val = k.val.setWidth 32 := by
    simp [Local.ofKindId]
  have hlt := k.val.isLt
  rw [Local.isDirect, hval, beq_iff_eq]
  apply BitVec.eq_of_toNat_eq
  rw [BitVec.toNat_ushiftRight, Nat.shiftRight_eq_div_pow, BitVec.toNat_setWidth]
  simp
  omega

/-- The node that stands for a kind in a function type. -/
def kindNode (k : Kind) : Node :=
  ⟨⟨.var, (Local.ofKindId k 0).kind, 0⟩, (Local.ofKindId k 0).direct, false⟩

theorem Creation.creates {w : World} {cr : Creation} {nd : Node} {c' : Code}
    (husable : ∀ ch ∈ cr.children, w.Usable ch) (heq : cr.run w.code = some (nd, c')) :
    w.code.Creates w.Usable nd c' := by
  have hpair : ∀ {p : Node × Code}, some p = some (nd, c') → w.code.Creates w.Usable p.1 p.2 →
      w.code.Creates w.Usable nd c' := by
    rintro p hp hcreates
    obtain rfl := Option.some.inj hp
    exact hcreates
  cases cr with
  | indirect h children => exact .indirect h children husable heq
  | ranges h nodes => exact .ranges h nodes husable heq
  | const v => exact hpair heq (.const v)
  | var l => exact hpair heq (.var l)
  | label address index => exact hpair heq (.label address index)
  | name str => exact hpair heq (.name str)
  | funcType params results => exact hpair heq (.funcType params results)

/-- What a creation wrote. -/
theorem Creation.laid {w : World} {cr : Creation} {nd : Node} {c' : Code} (hw : w.Inv)
    (husable : ∀ ch ∈ cr.children, w.Usable ch) (hwf : cr.WellFormed)
    (heq : cr.run w.code = some (nd, c')) (hin : nd.inCode = true) :
    ∃ chs, World.Laid ⟨c', nd :: w.nodes⟩ nd w.code chs := by
  have hne : nd ≠ .empty := by
    rintro rfl
    cases hin
  have hold : ∀ ch, w.Usable ch → ch.IsDirect ∨ (ch.StoredIn w.code ∧ ch ∈ nd :: w.nodes) := by
    rintro ch (hdir | hmem)
    · exact .inl hdir
    · exact (hw.nodes ch hmem).imp_right fun hst => ⟨hst, List.mem_cons_of_mem _ hmem⟩
  have hleaf : ∀ {t}, nd.header.type = t → t.isList = false → t.toChildren = 0 →
      ∃ chs, World.Laid ⟨c', nd :: w.nodes⟩ nd w.code chs := by
    rintro t rfl hlist hnone
    cases (creates husable heq).outcome hw.fits with
    | unchanged _ hdir => exact absurd hdir.inCode (by simp [hin])
    | failed _ _ => cases hin
    | stored _ _ _ hoff _ hitems =>
      refine ⟨[], hw.fits, ?_, .inr hnone.symm, by simp, ?_⟩
      · obtain ⟨header, offOrDir, inCode⟩ := nd
        simp_all
      · simpa [Code.headItems, hlist] using hitems
  cases cr with
  | indirect h children =>
    obtain ⟨rfl, hitems⟩ := Code.createIndirect_stored heq hin
    refine ⟨children, hw.fits, rfl, hwf.admits, fun ch hch => hold ch (husable ch hch), ?_⟩
    rw [hitems, List.append_assoc]
  | ranges h nodes =>
    obtain ⟨rfl, hitems⟩ := Code.createIndirectFromRanges_stored heq hin
    refine ⟨nodes.flatten, hw.fits, rfl, hwf.admits, fun ch hch => hold ch (husable ch hch), ?_⟩
    rw [hitems, List.append_assoc]
  | const v =>
    have hrun := Option.some.inj heq
    simp only [Code.createConst] at hrun
    split at hrun
    · exact absurd (Prod.mk.inj hrun).1.symm hne
    · split at hrun
      · exact hleaf (t := .const) (by rw [← (Prod.mk.inj hrun).1]) rfl rfl
      · exact hleaf (t := .const) (by rw [(Code.finish_created hrun hne).2.1]) rfl rfl
  | var l =>
    have hrun := Option.some.inj heq
    simp only [Code.createVar] at hrun
    split at hrun
    · exact hleaf (t := .var) (by rw [← (Prod.mk.inj hrun).1]) rfl rfl
    · exact hleaf (t := .var) (by rw [(Code.finish_created hrun hne).2.1]) rfl rfl
  | label address index =>
    have hrun := Option.some.inj heq
    exact hleaf (t := .label) (by rw [(Code.finish_created hrun hne).2.1]) rfl rfl
  | name str =>
    have hrun := Option.some.inj heq
    simp only [Code.createName] at hrun
    split at hrun
    · exact absurd (Prod.mk.inj hrun).1.symm hne
    · exact hleaf (t := .name) (by rw [(Code.finish_created hrun hne).2.1]) rfl rfl
  | funcType params results =>
    obtain ⟨rfl, -, -, hitems⟩ := Code.createFuncType_items (Option.some.inj heq) hne
    refine ⟨(results ++ params).map kindNode, hw.fits, rfl, .inl rfl, ?_, ?_⟩
    · intro ch hch
      obtain ⟨k, -, rfl⟩ := List.mem_map.mp hch
      exact .inl (.var _ (ofKindId_isDirect k))
    · have hwords : ((results ++ params).map kindNode).map (Code.childItem · w.code.length) =
          (results ++ params).map fun k => (Local.ofKindId k 0).direct := by
        rw [List.map_map]
        rfl
      rw [hitems, hwords, List.length_map, List.length_append, Nat.add_comm results.length]
      simp [Code.headItems, NodeType.isList]

namespace World

/-- Every node of a built code is direct or was written with children that were there. -/
structure BuiltInv (w : World) : Prop where
  inv : w.Inv
  laid : ∀ nd ∈ w.nodes, nd.inCode = true → ∃ c chs, w.Laid nd c chs

theorem Built.builtInv {w : World} (h : w.Built) : w.BuiltInv := by
  induction h with
  | init limit => exact ⟨inv_init limit, fun nd hnd => by cases hnd⟩
  | @create w cr nd c' hw husable hwf heq hfits ih =>
    have hstep : Step w ⟨c', nd :: w.nodes⟩ := ⟨⟨nd, cr.creates husable heq, rfl⟩, hfits⟩
    refine ⟨step_inv ih.inv hstep, fun other hother hin => ?_⟩
    rcases List.mem_cons.mp hother with rfl | hold
    · exact ⟨_, Creation.laid ih.inv husable hwf heq hin⟩
    · obtain ⟨c, chs, hlaid⟩ := ih.laid other hold hin
      exact ⟨c, chs, hlaid.mono (step_grows ih.inv hstep) fun _ => List.mem_cons_of_mem _⟩

/-- The children of a node in the code are usable, and were written before it. -/
theorem Laid.child {w : World} {nd : Node} {c : Code} {chs : List Node} (h : w.Laid nd c chs)
    (hw : w.Inv) {i : Nat} (hi : i < nd.children w.code) :
    w.Usable (nd.child w.code (BitVec.ofNat 32 i)) ∧
      ((nd.child w.code (BitVec.ofNat 32 i)).inCode = true →
        (nd.child w.code (BitVec.ofNat 32 i)).offOrDir.toNat < nd.offOrDir.toNat) := by
  obtain ⟨hchildren, hchild⟩ := child_of_items h.fits hw.fits h.arity
    (fun ch hch => (h.usable ch hch).imp_right And.left) h.items
  rw [← h.node] at hchildren hchild
  have hcount : chs.length < 2 ^ 32 := by
    have hle := h.items.length_le
    have hfits := hw.fits
    simp only [List.length_append, List.length_map, Code.Fits] at hle hfits
    omega
  have hlt : i < chs.length := hchildren ▸ hi
  have hget : nd.child w.code (BitVec.ofNat 32 i) = chs[i] := by
    rw [hchild, BitVec.toNat_ofNat, Nat.mod_eq_of_lt (by omega), List.getD_eq_getElem?_getD,
      List.getElem?_eq_getElem hlt, Option.getD_some]
  rw [hget]
  rcases h.usable _ (List.getElem_mem hlt) with hdir | ⟨hst, hmem⟩
  · refine ⟨.inl hdir, fun hin => ?_⟩
    rw [hdir.inCode] at hin
    cases hin
  · refine ⟨.inr hmem, fun _ => ?_⟩
    have hbefore := (List.getElem?_eq_some_iff.mp hst.header).1
    have haligned := hst.aligned
    rw [h.node, Code.length_toNat h.fits]
    omega

/-- The usable nodes of a built code are closed under children. -/
theorem Built.closed {w : World} (h : w.Built) : Closed w.code w.Usable := by
  have hinv := h.builtInv
  have hlaid : ∀ {nd}, w.Usable nd → nd.inCode = true → nd ∈ w.nodes := by
    rintro nd (hdir | hmem) hin
    · rw [hdir.inCode] at hin
      cases hin
    · exact hmem
  refine ⟨fun hnd hin i hi => ?_, fun hnd hin i hi => ?_, fun {nd} hnd hin => ?_⟩
  · obtain ⟨c, chs, hl⟩ := hinv.laid _ (hlaid hnd hin) hin
    exact (hl.child hinv.inv hi).1
  · obtain ⟨c, chs, hl⟩ := hinv.laid _ (hlaid hnd hin) hin
    exact (hl.child hinv.inv hi).2
  · rcases hinv.inv.nodes nd (hlaid hnd hin) with hdir | hst
    · rw [hdir.inCode] at hin
      cases hin
    · have hbefore := (List.getElem?_eq_some_iff.mp hst.header).1
      have haligned := hst.aligned
      rw [Code.length_toNat hinv.inv.fits]
      omega

end World

/-! ## The order of the nodes -/

/-- `deep_compare` is a total preorder of the nodes of a code, its sign is what a sort needs, and
constants come after all other expressions. -/
structure Node.Sortable (c : Code) (S : Node → Prop) : Prop where
  order : ThreeWay S (deepCompare c)
  less : IsStrictWeakOrder {nd // S nd} fun a b => ThreeWay.Less (deepCompare c) a.1 b.1
  const : ∀ {a b}, S a → S b → a.isConst → b.isExpr → b.isConst = false →
    deepCompare c a b = some 1 ∧ deepCompare c b a = some (-1)
  suffix : ∀ {children sorted : List Node}, (∀ ch ∈ children, S ch ∧ ch.isExpr) →
    sorted.Perm children → (sorted.Pairwise fun a b => ¬ThreeWay.Less (deepCompare c) b a) →
    ∃ front back, sorted = front ++ back ∧ (∀ a ∈ front, a.isConst = false) ∧ ∀ a ∈ back, a.isConst

/-- Whatever has been created, the nodes of a code are sorted by `deep_compare`. -/
theorem deepCompare_sortable {w : World} (h : w.Built) : Node.Sortable w.code w.Usable := by
  have horder : ThreeWay w.Usable (Node.deepCompare w.code) :=
    ThreeWay.of_key (Node.keyOf w.code) fun a b ha hb => Node.deepCompare_eq h.closed ha hb
  refine ⟨horder, horder.strictWeakOrder, fun _ _ => Node.deepCompare_const, ?_⟩
  intro children sorted hall hperm hsorted
  have hless : ∀ a b : Node, a.isConst → b.isConst = false → w.Usable a ∧ a.isExpr →
      w.Usable b ∧ b.isExpr → ThreeWay.Less (Node.deepCompare w.code) b a := by
    intro a b ha hb _ hexpr
    exact ⟨-1, (Node.deepCompare_const ha hexpr.2 hb).2, by decide⟩
  exact ThreeWay.suffix_of_sorted hless (fun a ha => hall a (hperm.mem_iff.mp ha)) hsorted

/-- A negated constant: both nodes are in the code. -/
theorem deepCompare_sortable_neg : ∃ w : World, w.nodes.length = 2 ∧
    Node.Sortable w.code w.Usable := by
  let k : Node := ⟨⟨.const, .int64, 0⟩, 8, true⟩
  have hconst : World.Built ⟨_, [k]⟩ :=
    .create (.const ⟨0x123456789ABCDEF, .int64⟩) (.init 64) (by simp [Creation.children]) trivial rfl
      (by simp [Code.Fits]; decide)
  have hneg : World.Built ⟨_, [⟨⟨.unary, .int64, 3⟩, 20, true⟩, k]⟩ :=
    .create (.indirect ⟨.unary, .int64, 3⟩ [k]) hconst
      (by simpa [Creation.children] using .inr (List.mem_singleton_self k)) (.inr (by decide)) rfl
      (by simp [Code.Fits]; decide)
  exact ⟨_, rfl, deepCompare_sortable hneg⟩

end OneJit
