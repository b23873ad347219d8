import OneJit.Graph
import OneJit.Stl.BitSetFill
import OneJit.Stl.BitSetFind

/-!
# Graphs over arrays of words

`onestl::Graph` with its bits in words and its degrees in 32 bits. `operator()` computes the index of
a bit in 32 bits, where `set` and `first_set` compute it in 64.
-/

namespace OneJit.Stl

/-- `class Graph`. -/
structure Graph where
  bits : BitSet
  degree_ : List (BitVec 32)
  deriving DecidableEq, Repr

namespace Graph

/-- `NoPos`. -/
def noPos : BitVec 32 := BitVec.allOnes 32

/-- `size`. -/
def size (g : Graph) : BitVec 32 := BitVec.ofNat 32 g.degree_.length

/-- `degree`: zero when the node is out of bounds. -/
def degree (g : Graph) (node : BitVec 32) : BitVec 32 := g.degree_.getD node.toNat 0

/-- `Graph(size)`, where memory can be allocated for the numbers of words that `memBits` accepts and
for the numbers of degrees that `memDegree` accepts. -/
def new (memBits memDegree : Nat → Bool) (size : BitVec 32) : Graph :=
  ⟨BitSet.init memBits (size.toNat * size.toNat),
    if memDegree size.toNat then List.replicate size.toNat 0 else []⟩

/-- `degree_.resize`. -/
def resizeDegree (memDegree : Nat → Bool) (degree : List (BitVec 32)) (n : Nat) :
    Bool × List (BitVec 32) :=
  if n ≤ degree.length then (true, degree.take n)
  else if memDegree n then (true, degree ++ List.replicate (n - degree.length) 0)
  else (false, degree)

/-- `reset`. -/
def reset (memBits memDegree : Nat → Bool) (g : Graph) (nodes : BitVec 32) :
    Option (Bool × Graph) :=
  let newn := nodes.toNat
  let oldn := g.degree_.length
  let d := resizeDegree memDegree g.degree_ newn
  if d.1 then
    (g.bits.resize memBits (newn * newn)).bind fun r =>
      if r.1 then
        (r.2.fill false 0 (2 ^ 64 - 1)).map fun bits => (true, ⟨bits, List.replicate newn 0⟩)
      else some (false, ⟨r.2, (resizeDegree memDegree d.2 oldn).2⟩)
  else some (false, ⟨g.bits, d.2⟩)

/-- `operator()` after its swap. The index is computed in 32 bits. -/
def connectedOrdered (g : Graph) (a b : BitVec 32) : Option Bool :=
  let n := g.size
  if n ≤ a then some false else g.bits.get (a + b * n).toNat

/-- `operator()`. -/
def connected (g : Graph) (a b : BitVec 32) : Option Bool :=
  if a < b then g.connectedOrdered b a else g.connectedOrdered a b

/-- `Degree(value)`. -/
def ofValue (value : Bool) : BitVec 32 := if value then 1 else 0

/-- `degree_.data()[i] += delta`. -/
def addDegree (degree : List (BitVec 32)) (i : Nat) (delta : BitVec 32) : List (BitVec 32) :=
  degree.modify i (· + delta)

/-- `set` after its swap. The indexes are computed in 64 bits and do not overflow. -/
def setOrdered (g : Graph) (a b : BitVec 32) (value : Bool) : Option Graph :=
  let n := g.size.toNat
  if a.toNat < n then
    let offset := a.toNat + b.toNat * n
    (g.bits.get offset).bind fun prev =>
      let delta := ofValue value - ofValue prev
      if delta ≠ 0 then
        let degree := addDegree (addDegree g.degree_ a.toNat delta) b.toNat delta
        (g.bits.set offset value).bind fun bits =>
          (if a ≠ b then bits.set (b.toNat + a.toNat * n) value else some bits).map fun bits =>
            ⟨bits, degree⟩
      else some g
  else some g

/-- `set`. -/
def set (g : Graph) (a b : BitVec 32) (value : Bool) : Option Graph :=
  if a < b then g.setOrdered b a value else g.setOrdered a b value

/-- `first_set`. -/
def firstSet (cfg : Config) (g : Graph) (node firstNeighbor : BitVec 32) : Option (BitVec 32) :=
  let n := g.size.toNat
  if n ≤ firstNeighbor.toNat ∨ g.degree node = 0 then some noPos
  else
    let yOffset := node.toNat * n
    (g.bits.find cfg true (yOffset + firstNeighbor.toNat) (yOffset + n)).map fun
      | none => noPos
      | some offset => BitVec.ofNat 32 (offset + 2 ^ 64 - yOffset)

/-- The loop of `remove`, which counts down from the degree. -/
def removeLoop (cfg : Config) (node : BitVec 32) : Nat → BitVec 32 → Graph → Option Graph
  | 0, _, g => some g
  | deg + 1, other, g =>
    (g.firstSet cfg node other).bind fun other =>
      if other ≠ noPos then
        (g.set node other false).bind fun g => removeLoop cfg node deg (other + 1) g
      else some g

/-- `remove`. -/
def remove (cfg : Config) (g : Graph) (node : BitVec 32) : Option Graph :=
  removeLoop cfg node (g.degree node).toNat 0 g

/-! ## The graph that the words stand for -/

/-- The bits and the degrees are those of a graph without limits. -/
structure Refines (g : Graph) (h : OneJit.Graph) : Prop where
  wf : g.bits.WF
  length : g.degree_.length = h.size
  lt : h.size < 2 ^ 32
  square : h.size * h.size ≤ g.bits.size
  bit : ∀ i < h.size * h.size, g.bits.bit i = h.bits.get i
  degree : ∀ x, (g.degree_.getD x 0).toNat = h.degree x

variable {g : Graph} {h : OneJit.Graph}

theorem Refines.size (href : Refines g h) : g.size.toNat = h.size := by
  rw [Graph.size, BitVec.toNat_ofNat, href.length, Nat.mod_eq_of_lt href.lt]

theorem Refines.get (href : Refines g h) {i : Nat} (hi : i < h.size * h.size) :
    g.bits.get i = some (h.bits.get i) := by
  have hlt := Nat.lt_of_lt_of_le hi href.square
  rw [BitSet.get_eq_bit href.wf.size_le, if_pos hlt, href.bit i hi]

theorem getD_addDegree (degree : List (BitVec 32)) {i : Nat} (hi : i < degree.length)
    (delta : BitVec 32) (x : Nat) :
    (addDegree degree i delta).getD x 0 =
      if x = i then degree.getD x 0 + delta else degree.getD x 0 := by
  simp only [addDegree, List.getD_eq_getElem?_getD, List.getElem?_modify]
  by_cases hx : x = i
  · subst hx
    simp [List.getElem?_eq_getElem hi]
  · have hne : ¬i = x := fun heq => hx heq.symm
    simp [hx, hne]

theorem ofValue_sub_ne_zero (value prev : Bool) : ofValue value - ofValue prev ≠ 0 ↔ value ≠ prev := by
  cases value <;> cases prev <;> decide

/-- A node has as many edge ends as an edge has at it. -/
theorem ends_le_degree (hwf : h.WF) {a b : Nat} (hadj : h.Adj a b) (x : Nat) :
    (if x = a then 1 else 0) + (if x = b then 1 else 0) ≤ h.degree x := by
  rw [hwf.degree]
  have hcard : ∀ y, h.Adj x y → 0 < (h.neighbors x).card := by
    intro y hy
    exact Finset.card_pos.mpr ⟨y, OneJit.Graph.mem_neighbors.mpr hy⟩
  by_cases hxa : x = a
  · subst hxa
    have hpos := hcard b hadj
    by_cases hxb : x = b
    · subst hxb
      rw [if_pos rfl, if_pos hadj]
      omega
    · rw [if_pos rfl, if_neg hxb]
      omega
  · rw [if_neg hxa]
    by_cases hxb : x = b
    · subst hxb
      have hpos := hcard a (hwf.symm a x hadj)
      rw [if_pos rfl]
      omega
    · rw [if_neg hxb]
      omega

section Ends

variable (p q : Prop) [Decidable p] [Decidable q]

/-- A degree that is raised for each end of an edge. -/
theorem toNat_raise {d e : BitVec 32} {n : Nat} (he : e.toNat = 1) (hd : d.toNat = n)
    (hlimit : n + (if p then 1 else 0) + (if q then 1 else 0) < 2 ^ 32) :
    (if q then (if p then d + e else d) + e else if p then d + e else d).toNat =
      n + (if p then 1 else 0) + (if q then 1 else 0) := by
  split_ifs at hlimit ⊢ <;> simp only [BitVec.toNat_add, he, hd] <;> omega

/-- A degree that is lowered, by adding `-1`. -/
theorem toNat_lower {d e : BitVec 32} {n : Nat} (he : e.toNat = 4294967295) (hd : d.toNat = n)
    (hends : (if p then 1 else 0) + (if q then 1 else 0) ≤ n) :
    (if q then (if p then d + e else d) + e else if p then d + e else d).toNat =
      n - (if p then 1 else 0) - (if q then 1 else 0) := by
  have hlt : n < 2 ^ 32 := hd ▸ d.isLt
  split_ifs at hends ⊢ <;> simp only [BitVec.toNat_add, he, hd] <;> omega

end Ends

/-- The changed degrees, when they fit in 32 bits. -/
theorem toNat_addDegree (href : Refines g h) (hwf : h.WF) {a b : Nat} {v : Bool} (ha : a < h.size)
    (hb : b < h.size) (hv : v ≠ h.bits.get (a + b * h.size)) (x : Nat)
    (hlimit : (h.setOrdered a b v).degree x < 2 ^ 32) :
    ((addDegree (addDegree g.degree_ a (ofValue v - ofValue (!v))) b
      (ofValue v - ofValue (!v))).getD x 0).toNat = (h.setOrdered a b v).degree x := by
  have hlen : (addDegree g.degree_ a (ofValue v - ofValue (!v))).length = h.size := by
    rw [addDegree, List.length_modify, href.length]
  have hdegree := OneJit.Graph.degree_setOrdered ha hb hv x
  have hold := href.degree x
  rw [getD_addDegree _ (by rw [hlen]; exact hb), getD_addDegree _ (by rw [href.length]; exact ha)]
  rw [hdegree] at hlimit ⊢
  cases v with
  | true =>
    have hone : (ofValue true - ofValue (!true)).toNat = 1 := by decide
    exact toNat_raise _ _ hone hold hlimit
  | false =>
    have hone : (ofValue false - ofValue (!false)).toNat = 4294967295 := by decide
    have hadj : h.Adj a b := by
      refine hwf.symm b a ⟨hb, ha, ?_⟩
      simpa using hv
    exact toNat_lower _ _ hone hold (ends_le_degree hwf hadj x)

/-- `set` of two nodes that are in bounds, the first not below the second. -/
theorem setOrdered_refines (href : Refines g h) (hwf : h.WF) {a b : BitVec 32} (v : Bool)
    (hle : b.toNat ≤ a.toNat)
    (hlimit : ∀ x, (h.setOrdered a.toNat b.toNat v).degree x < 2 ^ 32) :
    ∃ g', g.setOrdered a b v = some g' ∧ Refines g' (h.setOrdered a.toNat b.toNat v) := by
  unfold setOrdered
  dsimp only
  rw [href.size]
  by_cases ha : a.toNat < h.size
  · have hb : b.toNat < h.size := by omega
    have hidx := OneJit.Graph.index_lt hb ha
    have hidx' := OneJit.Graph.index_lt ha hb
    rw [if_pos ha, href.get hidx, Option.bind_some]
    by_cases hv : v = h.bits.get (a.toNat + b.toNat * h.size)
    · have hsame : h.setOrdered a.toNat b.toNat v = h := by
        simp only [OneJit.Graph.setOrdered]
        rw [if_pos ha, if_neg (by simpa using hv)]
      rw [if_neg (fun hne => (ofValue_sub_ne_zero _ _).mp hne hv), hsame]
      exact ⟨g, rfl, href⟩
    · have hprev : h.bits.get (a.toNat + b.toNat * h.size) = !v := by
        cases v <;> simpa using hv
      rw [if_pos ((ofValue_sub_ne_zero _ _).mpr hv), hprev]
      obtain ⟨s₁, hs₁, hwf₁, hsize₁, hbit₁⟩ :=
        BitSet.set_spec href.wf (a.toNat + b.toNat * h.size) v
      obtain ⟨s₂, hs₂, hwf₂, hsize₂, hbit₂⟩ :=
        BitSet.set_spec hwf₁ (b.toNat + a.toNat * h.size) v
      rw [hs₁, Option.bind_some]
      have hsize : (h.setOrdered a.toNat b.toNat v).size = h.size :=
        OneJit.Graph.size_setOrdered h _ _ v
      have hlength : ∀ delta, (addDegree (addDegree g.degree_ a.toNat delta) b.toNat delta).length =
          h.size := by
        intro delta
        simp only [addDegree, List.length_modify]
        exact href.length
      have hbits : (h.setOrdered a.toNat b.toNat v).bits =
          if a.toNat ≠ b.toNat then
            (h.bits.set (a.toNat + b.toNat * h.size) v).set (b.toNat + a.toNat * h.size) v
          else h.bits.set (a.toNat + b.toNat * h.size) v := by
        simp only [OneJit.Graph.setOrdered]
        rw [if_pos ha, if_pos hv]
      have hget₁ : ∀ i < h.size * h.size, s₁.bit i =
          (h.bits.set (a.toNat + b.toNat * h.size) v).get i := by
        intro i hi
        rw [hbit₁, OneJit.BitSet.get_set _ _ _ _ (by rw [hwf.size_bits]; exact hidx),
          href.bit i hi]
        have hroom := Nat.lt_of_lt_of_le hidx href.square
        by_cases heq : i = a.toNat + b.toNat * h.size
        · rw [if_pos ⟨heq, hroom⟩, if_pos heq]
        · rw [if_neg (fun hand => heq hand.1), if_neg heq]
      have hdegree := fun x => toNat_addDegree href hwf ha hb hv x (hlimit x)
      by_cases hab : a = b
      · rw [if_neg (not_not_intro hab), Option.map_some]
        refine ⟨_, rfl, hwf₁, by rw [hsize]; exact hlength _, by rw [hsize]; exact href.lt,
          by rw [hsize, hsize₁]; exact href.square, fun i hi => ?_, hdegree⟩
        rw [hsize] at hi
        rw [hbits, if_neg (not_not_intro (congrArg BitVec.toNat hab))]
        exact hget₁ i hi
      · rw [if_pos hab, hs₂, Option.map_some]
        refine ⟨_, rfl, hwf₂, by rw [hsize]; exact hlength _, by rw [hsize]; exact href.lt,
          by rw [hsize, hsize₂, hsize₁]; exact href.square, fun i hi => ?_, hdegree⟩
        rw [hsize] at hi
        rw [hbits, if_pos (fun heq => hab (BitVec.eq_of_toNat_eq heq)), hbit₂,
          OneJit.BitSet.get_set _ _ _ _ (by rw [OneJit.BitSet.size_set, hwf.size_bits]; exact hidx')]
        have hroom := Nat.lt_of_lt_of_le hidx' href.square
        by_cases heq : i = b.toNat + a.toNat * h.size
        · rw [if_pos ⟨heq, by rw [hsize₁]; exact hroom⟩, if_pos heq]
        · rw [if_neg (fun hand => heq hand.1), if_neg heq]
          exact hget₁ i hi
  · have hsame : h.setOrdered a.toNat b.toNat v = h := by
      simp only [OneJit.Graph.setOrdered]
      rw [if_neg ha]
    rw [if_neg ha, hsame]
    exact ⟨g, rfl, href⟩

theorem set_refines (href : Refines g h) (hwf : h.WF) {a b : BitVec 32} (v : Bool)
    (hlimit : ∀ x, (h.set a.toNat b.toNat v).degree x < 2 ^ 32) :
    ∃ g', g.set a b v = some g' ∧ Refines g' (h.set a.toNat b.toNat v) := by
  unfold set OneJit.Graph.set at *
  by_cases hab : a < b
  · have hlt : a.toNat < b.toNat := BitVec.lt_def.mp hab
    rw [if_pos hlt] at hlimit ⊢
    rw [if_pos hab]
    exact setOrdered_refines href hwf v (Nat.le_of_lt hlt) hlimit
  · have hle : ¬a.toNat < b.toNat := fun hlt => hab (BitVec.lt_def.mpr hlt)
    rw [if_neg hle] at hlimit ⊢
    rw [if_neg hab]
    exact setOrdered_refines href hwf v (Nat.le_of_not_lt hle) hlimit

/-! ## Removing nodes -/

theorem Refines.degree_lt (href : Refines g h) (x : Nat) : h.degree x < 2 ^ 32 :=
  href.degree x ▸ (g.degree_.getD x 0).isLt

/-- Removing an edge raises no degree. -/
theorem degree_set_false_le (h : OneJit.Graph) (a b x : Nat) :
    (h.set a b false).degree x ≤ h.degree x := by
  have hordered : ∀ a b, b ≤ a → (h.setOrdered a b false).degree x ≤ h.degree x := by
    intro a b hle
    by_cases ha : a < h.size
    · by_cases hv : false ≠ h.bits.get (a + b * h.size)
      · rw [OneJit.Graph.degree_setOrdered ha (by omega) hv, if_neg Bool.false_ne_true]
        omega
      · simp only [OneJit.Graph.setOrdered]
        rw [if_pos ha, if_neg hv]
    · simp only [OneJit.Graph.setOrdered]
      rw [if_neg ha]
  unfold OneJit.Graph.set
  by_cases hab : a < b
  · rw [if_pos hab]
    exact hordered b a (Nat.le_of_lt hab)
  · rw [if_neg hab]
    exact hordered a b (Nat.le_of_not_lt hab)

/-- A neighbor as `first_set` returns it. -/
def position : Option Nat → BitVec 32
  | none => noPos
  | some neighbor => BitVec.ofNat 32 neighbor

variable {cfg : Config}

theorem firstSet_refines (hcfg : cfg.oneBased = true) (href : Refines g h) (node other : BitVec 32) :
    g.firstSet cfg node other = some (position (h.firstSet node.toNat other.toNat)) := by
  have hdegree : g.degree node = 0 ↔ h.degree node.toNat = 0 := by
    rw [← href.degree, ← BitVec.toNat_inj]
    rfl
  unfold firstSet OneJit.Graph.firstSet
  dsimp only
  rw [href.size]
  by_cases hcond : h.size ≤ other.toNat ∨ g.degree node = 0
  · rw [if_pos hcond, if_pos (hcond.imp_right hdegree.mp)]
    rfl
  · rw [if_neg hcond, if_neg (fun hcase => hcond (hcase.imp_right hdegree.mpr))]
    rw [not_or, hdegree] at hcond
    have hnode : node.toNat < h.size := by
      by_contra hge
      apply hcond.2
      rw [OneJit.Graph.degree, List.getD_eq_getElem?_getD,
        List.getElem?_eq_none (Nat.le_of_not_lt hge)]
      rfl
    have hrow : node.toNat * h.size + h.size ≤ h.size * h.size := by
      rw [← Nat.succ_mul]
      exact Nat.mul_le_mul_right _ hnode
    obtain ⟨r, hr, hfirst⟩ := BitSet.find_true hcfg href.wf
      (node.toNat * h.size + other.toNat) (node.toNat * h.size + h.size)
    rw [Nat.min_eq_left (Nat.le_trans hrow href.square)] at hfirst
    rw [hr]
    cases hfind : h.bits.find (node.toNat * h.size + other.toNat)
        (node.toNat * h.size + h.size) with
    | none =>
      have hnone : BitSet.IsFirst g.bits true (node.toNat * h.size + other.toNat)
          (node.toNat * h.size + h.size) none := by
        intro i hlow hhigh
        rw [href.bit i (by omega), OneJit.BitSet.find_none hfind i hlow hhigh]
        exact Bool.false_ne_true
      rw [hfirst.unique hnone]
      rfl
    | some i =>
      obtain ⟨hlow, hhigh, hbit, hbefore⟩ := OneJit.BitSet.find_some hfind
      have hsome : BitSet.IsFirst g.bits true (node.toNat * h.size + other.toNat)
          (node.toNat * h.size + h.size) (some i) := by
        refine ⟨hlow, hhigh, by rw [href.bit i (by omega), hbit], fun j hlow' hhigh' => ?_⟩
        rw [href.bit j (by omega), hbefore j hlow' hhigh']
        exact Bool.false_ne_true
      rw [hfirst.unique hsome]
      have hwrap : (i + 2 ^ 64 - node.toNat * h.size) % 2 ^ 32 =
          (i - node.toNat * h.size) % 2 ^ 32 := by omega
      have hpos : BitVec.ofNat 32 (i + 2 ^ 64 - node.toNat * h.size) =
          BitVec.ofNat 32 (i - node.toNat * h.size) := by
        apply BitVec.eq_of_toNat_eq
        rw [BitVec.toNat_ofNat, BitVec.toNat_ofNat, hwrap]
      exact congrArg some hpos

theorem removeLoop_refines (hcfg : cfg.oneBased = true) (node : BitVec 32) (fuel : Nat)
    {other : BitVec 32} (href : Refines g h) (hwf : h.WF) :
    ∃ g', removeLoop cfg node fuel other g = some g' ∧
      Refines g' (OneJit.Graph.removeLoop node.toNat fuel other.toNat h) := by
  induction fuel generalizing other g h with
  | zero => exact ⟨g, rfl, href⟩
  | succ fuel ih =>
    rw [removeLoop, firstSet_refines hcfg href, Option.bind_some, OneJit.Graph.removeLoop]
    cases hfirst : h.firstSet node.toNat other.toNat with
    | none => exact ⟨g, if_neg (not_not_intro rfl), href⟩
    | some nb =>
      have hnb : nb < h.size := (OneJit.Graph.firstSet_some hfirst).2.1.2.1
      have hlt := href.lt
      have hnat : (BitVec.ofNat 32 nb).toNat = nb := by
        rw [BitVec.toNat_ofNat]
        omega
      have hne : BitVec.ofNat 32 nb ≠ noPos := by
        intro heq
        rw [heq] at hnat
        have hmax : noPos.toNat = 4294967295 := by decide
        omega
      have hnext : (BitVec.ofNat 32 nb + 1).toNat = nb + 1 := by
        rw [BitVec.toNat_add, hnat]
        change (nb + 1) % 2 ^ 32 = nb + 1
        omega
      obtain ⟨g₁, hg₁, href₁⟩ : ∃ g', g.set node (BitVec.ofNat 32 nb) false = some g' ∧
          Refines g' (h.set node.toNat (BitVec.ofNat 32 nb).toNat false) :=
        set_refines href hwf false fun x =>
          Nat.lt_of_le_of_lt (degree_set_false_le h _ _ x) (href.degree_lt x)
      rw [hnat] at href₁
      obtain ⟨g₂, hg₂, href₂⟩ := @ih _ _ (BitVec.ofNat 32 nb + 1) href₁
        (OneJit.Graph.wf_set hwf _ _ false)
      rw [hnext] at href₂
      refine ⟨g₂, ?_, href₂⟩
      rw [position, if_pos hne, hg₁, Option.bind_some, hg₂]

theorem remove_refines (hcfg : cfg.oneBased = true) (href : Refines g h) (hwf : h.WF)
    (node : BitVec 32) :
    ∃ g', g.remove cfg node = some g' ∧ Refines g' (h.remove node.toNat) := by
  have hdegree : (g.degree node).toNat = h.degree node.toNat := href.degree node.toNat
  unfold remove OneJit.Graph.remove
  rw [hdegree]
  exact removeLoop_refines hcfg node _ href hwf

/-! ## New graphs -/

theorem get_bits_reset (n i : Nat) : (OneJit.Graph.reset n).bits.get i = false := by
  rw [OneJit.BitSet.get, OneJit.Graph.reset, List.getD_eq_getElem?_getD, List.getElem?_replicate]
  split <;> rfl

/-- Words whose bits are all false, and degrees that are all zero. -/
theorem refines_reset {s : BitSet} (hwf : s.WF) (n : BitVec 32)
    (hsize : n.toNat * n.toNat ≤ s.size) (hbit : ∀ i < n.toNat * n.toNat, s.bit i = false) :
    Refines ⟨s, List.replicate n.toNat 0⟩ (OneJit.Graph.reset n.toNat) := by
  refine ⟨hwf, by simp, by simpa using n.isLt, by simpa using hsize, fun i hi => ?_, fun x => ?_⟩
  · rw [OneJit.Graph.size_reset] at hi
    rw [hbit i hi, get_bits_reset]
  · simp only [OneJit.Graph.degree, OneJit.Graph.reset, List.getD_eq_getElem?_getD,
      List.getElem?_replicate]
    split <;> rfl

theorem square_le (n : BitVec 32) : n.toNat * n.toNat ≤ 2 ^ 64 - 64 := by
  have hle : n.toNat ≤ 2 ^ 32 - 1 := by
    have := n.isLt
    omega
  exact Nat.le_trans (Nat.mul_le_mul hle hle) (by decide)

/-- More degrees than before are dropped again. -/
theorem resizeDegree_restore (mem : Nat → Bool) {d : List (BitVec 32)} {n : Nat}
    (h : d.length ≤ n) : (resizeDegree mem (resizeDegree mem d n).2 d.length).2 = d := by
  have htake : ∀ e, (resizeDegree mem (d ++ e) d.length).2 = d := by
    intro e
    have hle : d.length ≤ (d ++ e).length := by simp
    rw [resizeDegree, if_pos hle]
    exact List.take_left
  by_cases hn : n ≤ d.length
  · have hsame : (resizeDegree mem d n).2 = d := by
      rw [resizeDegree, if_pos hn]
      exact List.take_of_length_le h
    rw [hsame]
    simpa using htake []
  · by_cases hmem : mem n
    · have hmore : (resizeDegree mem d n).2 = d ++ List.replicate (n - d.length) 0 := by
        rw [resizeDegree, if_neg hn, if_pos hmem]
      rw [hmore]
      exact htake _
    · have hsame : (resizeDegree mem d n).2 = d := by
        rw [resizeDegree, if_neg hn, if_neg hmem]
      rw [hsame]
      simpa using htake []

/-- `reset` leaves a graph without edges, or the graph as it was. -/
theorem reset_refines (href : Refines g h) (memBits memDegree : Nat → Bool) (nodes : BitVec 32) :
    ∃ r, g.reset memBits memDegree nodes = some r ∧
      Refines r.2 (if r.1 then OneJit.Graph.reset nodes.toNat else h) := by
  unfold reset
  dsimp only
  by_cases hdegree : (resizeDegree memDegree g.degree_ nodes.toNat).1 = true
  · obtain ⟨⟨ok, s⟩, hs, hresized, hwf⟩ :=
      BitSet.resize_resized href.wf memBits (square_le nodes)
    rw [if_pos hdegree, hs, Option.bind_some]
    cases ok with
    | true =>
      have hsize : s.size = nodes.toNat * nodes.toNat := hresized.1
      have hmin : min (2 ^ 64 - 1) s.size = s.size := by
        have hle : s.size ≤ s.cap := hwf.size_le
        have hlt : s.cap < 2 ^ 64 := hwf.cap_lt
        omega
      obtain ⟨s', hs', hfilled⟩ := @BitSet.fill_filled s (2 ^ 64 - 1)
        (by rw [hmin]; exact hwf.size_le) false 0
      rw [if_pos rfl, hs']
      refine ⟨_, rfl, refines_reset ⟨?_, ?_⟩ nodes ?_ fun i hi => ?_⟩
      · rw [hfilled.size, hfilled.cap]
        exact hwf.size_le
      · rw [hfilled.cap]
        exact hwf.cap_lt
      · rw [hfilled.size, hsize]
      · rw [hfilled.bit, if_pos ⟨Nat.zero_le i, by rw [hmin, hsize]; exact hi⟩]
    | false =>
      have hsame : s = g.bits := hresized
      have hmore : g.degree_.length ≤ nodes.toNat := by
        by_contra hless
        have hle : nodes.toNat ≤ h.size := by
          rw [← href.length]
          omega
        have hsquare := Nat.le_trans (Nat.mul_le_mul hle hle) href.square
        rw [BitSet.resize, if_pos hsquare] at hs
        cases hs
      rw [if_neg Bool.false_ne_true, resizeDegree_restore memDegree hmore, hsame]
      exact ⟨_, rfl, href⟩
  · have hsame : (resizeDegree memDegree g.degree_ nodes.toNat).2 = g.degree_ := by
      unfold resizeDegree at *
      by_cases hle : nodes.toNat ≤ g.degree_.length
      · exact absurd (by rw [if_pos hle]) hdegree
      · rw [if_neg hle] at *
        by_cases hmem : memDegree nodes.toNat
        · exact absurd (by rw [if_pos hmem]) hdegree
        · rw [if_neg hmem]
    rw [if_neg hdegree, hsame]
    exact ⟨_, rfl, href⟩

/-- Memory for the bits is there if memory for the degrees is. -/
def Allocated (memBits memDegree : Nat → Bool) (n : BitVec 32) : Prop :=
  memDegree n.toNat = true → n = 0 ∨ memBits (BitSet.words (n.toNat * n.toNat)) = true

theorem new_refines {memBits memDegree : Nat → Bool} {n : BitVec 32}
    (hmem : Allocated memBits memDegree n) :
    Refines (new memBits memDegree n)
      (OneJit.Graph.reset (new memBits memDegree n).size.toNat) := by
  obtain ⟨hwf, hsize, hall, hbit⟩ := BitSet.init_spec memBits (square_le n)
  unfold new size
  by_cases hdegree : memDegree n.toNat = true
  · have hnat : (BitVec.ofNat 32 (List.replicate n.toNat 0#32).length).toNat = n.toNat := by
      rw [List.length_replicate, BitVec.ofNat_toNat, BitVec.setWidth_eq]
    have hsize' : n.toNat * n.toNat ≤
        (BitSet.init memBits (n.toNat * n.toNat)).size := by
      rcases hmem hdegree with rfl | hmem
      · exact Nat.zero_le _
      · rw [hall hmem]
    rw [if_pos hdegree]
    change Refines _ (OneJit.Graph.reset (BitVec.ofNat 32 (List.replicate n.toNat 0#32).length).toNat)
    rw [hnat]
    exact refines_reset hwf n hsize' fun i _ => hbit i
  · rw [if_neg hdegree]
    exact refines_reset hwf 0 (Nat.zero_le _) fun i _ => hbit i

end Graph

end OneJit.Stl
