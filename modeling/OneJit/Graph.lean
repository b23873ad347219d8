import Mathlib.Data.Finset.Card
import Mathlib.Data.List.Range

/-!
# Dense graphs

`onestl::BitSet` and `onestl::Graph`. The graph keeps one bit for each ordered pair of nodes
and, for each node, the number of its edges, a self-edge counted twice. Memory can always be
allocated in this model, and degrees do not reach the limit of their 32 bits: a graph with that
many edges at one node does not fit in memory.
-/

namespace OneJit

/-- `class BitSet`. -/
structure BitSet where
  bits : List Bool
  deriving DecidableEq, Repr

namespace BitSet

def size (s : BitSet) : Nat := s.bits.length

/-- `operator[]`: false when the index is out of bounds. -/
def get (s : BitSet) (i : Nat) : Bool := s.bits.getD i false

/-- `BitSet::set`: nothing happens when the index is out of bounds. -/
def set (s : BitSet) (i : Nat) (value : Bool) : BitSet := ⟨s.bits.set i value⟩

/-- `BitSet::find(true, start, end)`. -/
def find (s : BitSet) (start stop : Nat) : Option Nat :=
  (List.range' start (min stop s.size - start)).find? s.get

/-- `BitSet::fill(value)`. -/
def fill (s : BitSet) (value : Bool) : BitSet := ⟨List.replicate s.size value⟩

/-- `BitSet::resize`. The new bits are zero. -/
def resize (s : BitSet) (n : Nat) : BitSet :=
  ⟨s.bits.take n ++ List.replicate (n - s.size) false⟩

@[simp] theorem size_set (s : BitSet) (i : Nat) (v : Bool) : (s.set i v).size = s.size := by
  simp [size, set]

@[simp] theorem size_fill (s : BitSet) (v : Bool) : (s.fill v).size = s.size := by
  simp [size, fill]

@[simp] theorem size_resize (s : BitSet) (n : Nat) : (s.resize n).size = n := by
  simp [size, resize]
  omega

theorem get_set (s : BitSet) (i j : Nat) (v : Bool) (hi : i < s.size) :
    (s.set i v).get j = if j = i then v else s.get j := by
  unfold size at hi
  by_cases hj : j = i
  · simp [get, set, hj, hi, List.getD_eq_getElem?_getD]
  · have hne : i ≠ j := fun h => hj h.symm
    simp [get, set, hj, hne, List.getD_eq_getElem?_getD]

theorem get_set_of_ge (s : BitSet) (i : Nat) (v : Bool) (hi : s.size ≤ i) : s.set i v = s := by
  unfold size at hi
  simp [set, List.set_eq_of_length_le hi]

theorem get_fill (s : BitSet) (i : Nat) (v : Bool) :
    (s.fill v).get i = if i < s.size then v else false := by
  by_cases hi : i < s.size <;>
    simp [get, fill, hi, List.getD_eq_getElem?_getD]

theorem get_lt {s : BitSet} {i : Nat} (h : s.get i = true) : i < s.size := by
  by_contra hge
  have hnone : s.bits[i]? = none := List.getElem?_eq_none (by unfold size at hge; omega)
  simp [get, List.getD_eq_getElem?_getD, hnone] at h

/-- The first set bit of a range. -/
theorem find_some {s : BitSet} {start stop i : Nat} (h : s.find start stop = some i) :
    start ≤ i ∧ i < stop ∧ s.get i = true ∧ ∀ j, start ≤ j → j < i → s.get j = false := by
  obtain ⟨hget, hmem, hfirst⟩ := List.find?_range'_eq_some.mp h
  have hrange := List.mem_range'_1.mp hmem
  refine ⟨by omega, by omega, hget, fun j hlow hhigh => ?_⟩
  simpa using hfirst j hlow hhigh

theorem find_none {s : BitSet} {start stop : Nat} (h : s.find start stop = none) :
    ∀ i, start ≤ i → i < stop → s.get i = false := by
  intro i hlow hhigh
  unfold find at h
  rw [List.find?_eq_none] at h
  by_contra hget
  have htrue : s.get i = true := by simpa using hget
  have hlt := get_lt htrue
  exact h i (List.mem_range'_1.mpr (by omega)) htrue

end BitSet

/-- `class Graph`: the bit of the edge from `a` to `b` has the index `b + a * size`. -/
structure Graph where
  bits : BitSet
  degree_ : List Nat
  deriving DecidableEq, Repr

namespace Graph

def size (g : Graph) : Nat := g.degree_.length

/-- `Graph(size)`, and what `Graph::reset` leaves. -/
def reset (n : Nat) : Graph := ⟨⟨List.replicate (n * n) false⟩, List.replicate n 0⟩

/-- `Graph::degree`: zero when the node is out of bounds. -/
def degree (g : Graph) (node : Nat) : Nat := g.degree_.getD node 0

/-- `degree_[i] += delta` for a delta of plus or minus one. -/
def addDegree (degree : List Nat) (i : Nat) (value : Bool) : List Nat :=
  degree.modify i (if value then (· + 1) else (· - 1))

/-- `Graph::set` after its swap: `a` is not below `b`. -/
def setOrdered (g : Graph) (a b : Nat) (value : Bool) : Graph :=
  let n := g.size
  if a < n then
    let offset := a + b * n
    if value ≠ g.bits.get offset then
      let bits := g.bits.set offset value
      ⟨if a ≠ b then bits.set (b + a * n) value else bits,
        addDegree (addDegree g.degree_ a value) b value⟩
    else g
  else g

/-- `Graph::set`: nothing happens when a node is out of bounds. -/
def set (g : Graph) (a b : Nat) (value : Bool) : Graph :=
  if a < b then g.setOrdered b a value else g.setOrdered a b value

/-- `Graph::first_set`. -/
def firstSet (g : Graph) (node firstNeighbor : Nat) : Option Nat :=
  let n := g.size
  if firstNeighbor ≥ n ∨ g.degree node = 0 then none
  else
    let yOffset := node * n
    (g.bits.find (yOffset + firstNeighbor) (yOffset + n)).map (· - yOffset)

/-- The loop of `Graph::remove`; its counter is the initial degree. -/
def removeLoop (node : Nat) : Nat → Nat → Graph → Graph
  | 0, _, g => g
  | deg + 1, other, g =>
    match g.firstSet node other with
    | none => g
    | some other => removeLoop node deg (other + 1) (g.set node other false)

/-- `Graph::remove`. -/
def remove (g : Graph) (node : Nat) : Graph := removeLoop node (g.degree node) 0 g

/-- The loop `while ((neighbor = g.first_set(node, neighbor)) != NoPos) { ...; ++neighbor; }`,
which ends after at most `size` rounds. -/
def eachNeighbor {σ : Type} (g : Graph) (node : Nat) (body : σ → Nat → σ) : σ → σ :=
  go g.size 0
where
  go : Nat → Nat → σ → σ
    | 0, _, s => s
    | fuel + 1, neighbor, s =>
      match g.firstSet node neighbor with
      | none => s
      | some neighbor => go fuel (neighbor + 1) (body s neighbor)

/-! ## The edges of a well-formed graph -/

/-- Nodes `a` and `b` are connected. -/
def Adj (g : Graph) (a b : Nat) : Prop :=
  a < g.size ∧ b < g.size ∧ g.bits.get (b + a * g.size) = true

instance (g : Graph) (a b : Nat) : Decidable (g.Adj a b) :=
  inferInstanceAs (Decidable (_ ∧ _ ∧ _))

/-- The nodes connected to a node. -/
def neighbors (g : Graph) (a : Nat) : Finset Nat := (Finset.range g.size).filter (g.Adj a)

/-- The bits form a symmetric square, and the degrees count them. -/
structure WF (g : Graph) : Prop where
  size_bits : g.bits.size = g.size * g.size
  symm : ∀ a b, g.Adj a b → g.Adj b a
  degree : ∀ a, g.degree a = (g.neighbors a).card + if g.Adj a a then 1 else 0

theorem mem_neighbors {g : Graph} {a b : Nat} : b ∈ g.neighbors a ↔ g.Adj a b := by
  simp only [neighbors, Finset.mem_filter, Finset.mem_range, and_iff_right_iff_imp]
  exact fun h => h.2.1

/-- A node of a well-formed graph has a degree exactly when it has an edge. -/
theorem WF.degree_ne_zero {g : Graph} (h : g.WF) (a : Nat) :
    g.degree a ≠ 0 ↔ ∃ b, g.Adj a b := by
  rw [h.degree a]
  constructor
  · intro hne
    by_contra hnone
    have hempty : g.neighbors a = ∅ := by
      apply Finset.eq_empty_of_forall_notMem
      intro b hb
      exact hnone ⟨b, mem_neighbors.mp hb⟩
    have hself : ¬ g.Adj a a := fun hadj => hnone ⟨a, hadj⟩
    simp [hempty, hself] at hne
  · rintro ⟨b, hb⟩
    have hpos : 0 < (g.neighbors a).card := Finset.card_pos.mpr ⟨b, mem_neighbors.mpr hb⟩
    omega

@[simp] theorem size_reset (n : Nat) : (reset n).size = n := by
  simp [size, reset]

theorem not_adj_reset (n a b : Nat) : ¬ (reset n).Adj a b := by
  rintro ⟨ha, hb, hbit⟩
  rw [BitSet.get, reset, List.getD_eq_getElem?_getD, List.getElem?_replicate] at hbit
  split at hbit <;> simp at hbit

theorem wf_reset (n : Nat) : (reset n).WF := by
  refine ⟨by simp [reset, size, BitSet.size], fun a b h => absurd h (not_adj_reset n a b),
    fun a => ?_⟩
  have hempty : (reset n).neighbors a = ∅ := by
    apply Finset.eq_empty_of_forall_notMem
    intro b hb
    exact not_adj_reset n a b (mem_neighbors.mp hb)
  rw [hempty, if_neg (not_adj_reset n a a), degree, reset, List.getD_eq_getElem?_getD,
    List.getElem?_replicate]
  split <;> rfl

theorem index_lt {n a b : Nat} (ha : a < n) (hb : b < n) : b + a * n < n * n := by
  calc b + a * n < n + a * n := by omega
    _ = (a + 1) * n := by rw [Nat.succ_mul, Nat.add_comm]
    _ ≤ n * n := Nat.mul_le_mul_right n ha

/-- The index of a bit determines the pair of nodes. -/
theorem index_inj {n a b a' b' : Nat} (hb : b < n) (hb' : b' < n)
    (h : b + a * n = b' + a' * n) : a = a' ∧ b = b' := by
  have hmod := congrArg (· % n) h
  simp only [Nat.add_mul_mod_self_right, Nat.mod_eq_of_lt hb, Nat.mod_eq_of_lt hb'] at hmod
  subst hmod
  have hmul : a * n = a' * n := by omega
  exact ⟨Nat.eq_of_mul_eq_mul_right (by omega) hmul, rfl⟩

theorem length_addDegree (degree : List Nat) (i : Nat) (v : Bool) :
    (addDegree degree i v).length = degree.length := by
  simp [addDegree]

theorem size_setOrdered (g : Graph) (a b : Nat) (v : Bool) :
    (g.setOrdered a b v).size = g.size := by
  simp only [setOrdered]
  split
  · split
    · simp [size, length_addDegree]
    · rfl
  · rfl

@[simp] theorem size_set (g : Graph) (a b : Nat) (v : Bool) : (g.set a b v).size = g.size := by
  unfold set
  split <;> exact size_setOrdered _ _ _ _

theorem set_of_ge {g : Graph} {a b : Nat} (v : Bool) (h : ¬ (a < g.size ∧ b < g.size)) :
    g.set a b v = g := by
  simp only [set, setOrdered]
  split
  · rw [if_neg (by omega)]
  · rw [if_neg (by omega)]

/-- The pair `x`, `y` is the edge between `a` and `b`, in one direction or the other. -/
def IsEdge (a b x y : Nat) : Prop := (x = a ∧ y = b) ∨ (x = b ∧ y = a)

instance (a b x y : Nat) : Decidable (IsEdge a b x y) :=
  inferInstanceAs (Decidable (_ ∨ _))

theorem adj_setOrdered {g : Graph} (h : g.WF) {a b : Nat} (v : Bool) (ha : a < g.size)
    (hb : b < g.size) (x y : Nat) :
    (g.setOrdered a b v).Adj x y ↔ if IsEdge a b x y then v = true else g.Adj x y := by
  have hidx := index_lt hb ha
  have hidx' := index_lt ha hb
  by_cases hv : v = g.bits.get (a + b * g.size)
  · have hsame : g.setOrdered a b v = g := by
      simp only [setOrdered]
      rw [if_pos ha, if_neg (by simpa using hv)]
    rw [hsame]
    split
    · rename_i hedge
      have hba : g.Adj b a ↔ v = true := by
        rw [hv]
        exact ⟨fun hadj => hadj.2.2, fun hbit => ⟨hb, ha, hbit⟩⟩
      rcases hedge with ⟨rfl, rfl⟩ | ⟨rfl, rfl⟩
      · exact ⟨fun hadj => hba.mp (h.symm _ _ hadj), fun hvt => h.symm _ _ (hba.mpr hvt)⟩
      · exact hba
    · rfl
  · have hsize := size_setOrdered g a b v
    have hget : ∀ x y, x < g.size → y < g.size →
        (g.setOrdered a b v).bits.get (y + x * g.size) =
          if IsEdge a b x y then v else g.bits.get (y + x * g.size) := by
      intro x y hx hy
      have hfirst : y + x * g.size = a + b * g.size ↔ x = b ∧ y = a :=
        ⟨fun he => index_inj hy ha he, fun he => by rw [he.1, he.2]⟩
      have hsecond : y + x * g.size = b + a * g.size ↔ x = a ∧ y = b :=
        ⟨fun he => index_inj hy hb he, fun he => by rw [he.1, he.2]⟩
      simp only [setOrdered]
      rw [if_pos ha, if_pos hv]
      by_cases hab : a = b
      · subst hab
        simp only [ne_eq, not_true, if_false]
        rw [BitSet.get_set _ _ _ _ (by rw [h.size_bits]; exact hidx)]
        simp only [hfirst, IsEdge, or_self]
      · rw [if_pos hab, BitSet.get_set _ _ _ _ (by rw [BitSet.size_set, h.size_bits]; exact hidx'),
          BitSet.get_set _ _ _ _ (by rw [h.size_bits]; exact hidx)]
        simp only [hfirst, hsecond, IsEdge]
        by_cases h1 : x = a ∧ y = b <;> by_cases h2 : x = b ∧ y = a <;> simp [h1, h2]
    unfold Adj
    rw [hsize]
    constructor
    · rintro ⟨hx, hy, hbit⟩
      rw [hget x y hx hy] at hbit
      split
      · rename_i hedge
        rwa [if_pos hedge] at hbit
      · rename_i hedge
        rw [if_neg hedge] at hbit
        exact ⟨hx, hy, hbit⟩
    · intro hcase
      split at hcase
      · rename_i hedge
        have hxy : x < g.size ∧ y < g.size := by
          rcases hedge with ⟨rfl, rfl⟩ | ⟨rfl, rfl⟩
          · exact ⟨ha, hb⟩
          · exact ⟨hb, ha⟩
        refine ⟨hxy.1, hxy.2, ?_⟩
        rw [hget x y hxy.1 hxy.2, if_pos hedge]
        exact hcase
      · rename_i hedge
        refine ⟨hcase.1, hcase.2.1, ?_⟩
        rw [hget x y hcase.1 hcase.2.1, if_neg hedge]
        exact hcase.2.2

theorem getD_addDegree (degree : List Nat) (i x : Nat) (v : Bool)
    (hi : i < degree.length) :
    (addDegree degree i v).getD x 0 =
      if x = i then (if v then degree.getD x 0 + 1 else degree.getD x 0 - 1)
      else degree.getD x 0 := by
  simp only [addDegree, List.getD_eq_getElem?_getD, List.getElem?_modify]
  by_cases hx : x = i
  · subst hx
    rw [List.getElem?_eq_getElem hi]
    cases v <;> simp
  · have hne : i ≠ x := fun h => hx h.symm
    simp [hx, hne]

private theorem card_add (N N' : Finset Nat) {e : Nat} (he : e ∉ N)
    (h : ∀ y, y ∈ N' ↔ y = e ∨ y ∈ N) : N'.card = N.card + 1 := by
  have hinsert : N' = insert e N := by
    ext y
    rw [h y, Finset.mem_insert]
  rw [hinsert, Finset.card_insert_of_notMem he]

/-- One edge end more at `x` for each of `a` and `b` that is `x`. -/
private theorem card_toggle (g g' : Graph) {a b : Nat}
    (hout : ¬ g.Adj a b) (hsymm : ∀ x y, g.Adj x y → g.Adj y x)
    (hadj : ∀ x y, g'.Adj x y ↔ IsEdge a b x y ∨ g.Adj x y) (x : Nat) :
    (g'.neighbors x).card + (if g'.Adj x x then 1 else 0) =
      (g.neighbors x).card + (if g.Adj x x then 1 else 0) +
        (if x = a then 1 else 0) + (if x = b then 1 else 0) := by
  have hout' : ¬ g.Adj b a := fun h => hout (hsymm _ _ h)
  by_cases hab : a = b
  · subst hab
    by_cases hx : x = a
    · subst hx
      have hcard := card_add (g.neighbors x) (g'.neighbors x)
        (fun h => hout (mem_neighbors.mp h)) (fun y => by
          rw [mem_neighbors, mem_neighbors, hadj]
          simp [IsEdge])
      have hself : g'.Adj x x := (hadj x x).mpr (.inl (.inl ⟨rfl, rfl⟩))
      simp [hcard, hself, hout]
    · have hsame : g'.neighbors x = g.neighbors x := by
        ext y
        rw [mem_neighbors, mem_neighbors, hadj]
        simp [IsEdge, hx]
      have hself : g'.Adj x x ↔ g.Adj x x := by
        rw [hadj]
        simp [IsEdge, hx]
      simp [hsame, hself, hx]
  · have hself : g'.Adj x x ↔ g.Adj x x := by
      rw [hadj]
      constructor
      · rintro ((⟨h1, h2⟩ | ⟨h1, h2⟩) | h)
        · exact absurd (h1.symm.trans h2) hab
        · exact absurd (h2.symm.trans h1) hab
        · exact h
      · exact .inr
    have hcard : (g'.neighbors x).card =
        (g.neighbors x).card + (if x = a then 1 else 0) + (if x = b then 1 else 0) := by
      by_cases hxa : x = a
      · subst hxa
        have hadd := card_add (g.neighbors x) (g'.neighbors x)
          (fun h => hout (mem_neighbors.mp h)) (fun y => by
            rw [mem_neighbors, mem_neighbors, hadj]
            simp [IsEdge, hab])
        simp [hadd, hab]
      · by_cases hxb : x = b
        · subst hxb
          have hadd := card_add (g.neighbors x) (g'.neighbors x)
            (fun h => hout' (mem_neighbors.mp h)) (fun y => by
              rw [mem_neighbors, mem_neighbors, hadj]
              simp [IsEdge, hxa])
          simp [hadd, hxa]
        · have hsame : g'.neighbors x = g.neighbors x := by
            ext y
            rw [mem_neighbors, mem_neighbors, hadj]
            simp [IsEdge, hxa, hxb]
          simp [hsame, hxa, hxb]
    simp only [hcard, hself]
    omega

theorem degree_setOrdered {g : Graph} {a b : Nat} {v : Bool} (ha : a < g.size)
    (hb : b < g.size) (hv : v ≠ g.bits.get (a + b * g.size)) (x : Nat) :
    (g.setOrdered a b v).degree x =
      if v then g.degree x + (if x = a then 1 else 0) + (if x = b then 1 else 0)
      else g.degree x - (if x = a then 1 else 0) - (if x = b then 1 else 0) := by
  have hdeg : (g.setOrdered a b v).degree x =
      (addDegree (addDegree g.degree_ a v) b v).getD x 0 := by
    simp only [setOrdered]
    rw [if_pos ha, if_pos hv]
    rfl
  rw [hdeg, getD_addDegree _ _ _ _ (by rw [length_addDegree]; exact hb),
    getD_addDegree _ _ _ _ ha]
  unfold degree
  cases v <;> simp only [if_true, Bool.false_eq_true, if_false] <;> split_ifs <;> omega

private theorem symm_setOrdered {g : Graph} (h : g.WF) {a b : Nat} (v : Bool) (ha : a < g.size)
    (hb : b < g.size) (x y : Nat) (hxy : (g.setOrdered a b v).Adj x y) :
    (g.setOrdered a b v).Adj y x := by
  have hadj := adj_setOrdered h v ha hb
  have hcomm : IsEdge a b x y ↔ IsEdge a b y x :=
    ⟨fun he => he.symm.imp (fun e => ⟨e.2, e.1⟩) (fun e => ⟨e.2, e.1⟩),
      fun he => he.symm.imp (fun e => ⟨e.2, e.1⟩) (fun e => ⟨e.2, e.1⟩)⟩
  rw [hadj] at hxy ⊢
  by_cases hedge : IsEdge a b x y
  · rw [if_pos (hcomm.mp hedge)]
    rwa [if_pos hedge] at hxy
  · rw [if_neg (fun he => hedge (hcomm.mpr he))]
    rw [if_neg hedge] at hxy
    exact h.symm _ _ hxy

private theorem wf_setOrdered {g : Graph} (h : g.WF) {a b : Nat} (v : Bool) (ha : a < g.size)
    (hb : b < g.size) : (g.setOrdered a b v).WF := by
  have hadj := adj_setOrdered h v ha hb
  have hsize := size_setOrdered g a b v
  refine ⟨?_, symm_setOrdered h v ha hb, ?_⟩
  · rw [hsize, ← h.size_bits]
    simp only [setOrdered]
    rw [if_pos ha]
    by_cases hv : v = g.bits.get (a + b * g.size)
    · rw [if_neg (by simpa using hv)]
    · rw [if_pos hv]
      dsimp only
      split <;> simp
  · intro x
    by_cases hv : v = g.bits.get (a + b * g.size)
    · have hsame : g.setOrdered a b v = g := by
        simp only [setOrdered]
        rw [if_pos ha, if_neg (by simpa using hv)]
      rw [hsame]
      exact h.degree x
    · rw [degree_setOrdered ha hb hv]
      have hbit : g.Adj b a ↔ g.bits.get (a + b * g.size) = true :=
        ⟨fun hadj => hadj.2.2, fun hbit => ⟨hb, ha, hbit⟩⟩
      cases v with
      | true =>
          have hout : ¬ g.Adj a b := fun hab => hv (hbit.mp (h.symm _ _ hab)).symm
          have htoggle := card_toggle g (g.setOrdered a b true) hout h.symm (fun x y => by
            rw [hadj]
            by_cases hedge : IsEdge a b x y <;> simp [hedge]) x
          rw [htoggle, h.degree x]
          simp
      | false =>
          -- the old graph is the new one with the edge added
          have hin : g.Adj b a := hbit.mpr (by simpa using hv)
          have hout : ¬ (g.setOrdered a b false).Adj a b := by
            rw [hadj, if_pos (.inl ⟨rfl, rfl⟩)]
            decide
          have hold : ∀ x y, g.Adj x y ↔ IsEdge a b x y ∨ (g.setOrdered a b false).Adj x y := by
            intro x y
            rw [hadj]
            by_cases hedge : IsEdge a b x y
            · have hxy : g.Adj x y := by
                rcases hedge with ⟨rfl, rfl⟩ | ⟨rfl, rfl⟩
                · exact h.symm _ _ hin
                · exact hin
              simp [hedge, hxy]
            · simp [hedge]
          have htoggle := card_toggle (g.setOrdered a b false) g hout
            (symm_setOrdered h false ha hb) hold x
          have hdeg := h.degree x
          simp only [Bool.false_eq_true, if_false]
          omega

/-- Setting an edge changes this edge in both directions and nothing else. -/
theorem adj_set {g : Graph} (h : g.WF) {a b : Nat} (v : Bool) (ha : a < g.size)
    (hb : b < g.size) (x y : Nat) :
    (g.set a b v).Adj x y ↔ if IsEdge a b x y then v = true else g.Adj x y := by
  unfold set
  split
  · rw [adj_setOrdered h v hb ha]
    have hswap : IsEdge b a x y ↔ IsEdge a b x y := or_comm
    by_cases hedge : IsEdge a b x y
    · rw [if_pos hedge, if_pos (hswap.mpr hedge)]
    · rw [if_neg hedge, if_neg (fun he => hedge (hswap.mp he))]
  · exact adj_setOrdered h v ha hb x y

theorem wf_set {g : Graph} (h : g.WF) (a b : Nat) (v : Bool) : (g.set a b v).WF := by
  by_cases hab : a < g.size ∧ b < g.size
  · unfold set
    split
    · exact wf_setOrdered h v hab.2 hab.1
    · exact wf_setOrdered h v hab.1 hab.2
  · rw [set_of_ge v hab]
    exact h

/-! ## Loops over the neighbors of a node -/

theorem firstSet_some {g : Graph} {node start nb : Nat}
    (h : g.firstSet node start = some nb) :
    start ≤ nb ∧ g.Adj node nb ∧ ∀ b, start ≤ b → b < nb → ¬ g.Adj node b := by
  simp only [firstSet] at h
  split at h
  · cases h
  · rename_i hcond
    simp only [not_or, Nat.not_le, ge_iff_le] at hcond
    obtain ⟨offset, hfind, rfl⟩ := Option.map_eq_some_iff.mp h
    obtain ⟨hlow, hhigh, hbit, hfirst⟩ := BitSet.find_some hfind
    have hnode : node < g.size := by
      by_contra hge
      apply hcond.2
      rw [degree, List.getD_eq_getElem?_getD, List.getElem?_eq_none (by unfold size at hge; omega)]
      rfl
    refine ⟨by omega, ⟨hnode, by omega, ?_⟩, fun b hb hlt hadj => ?_⟩
    · rwa [show offset - node * g.size + node * g.size = offset by omega]
    · have hzero := hfirst (b + node * g.size) (by omega) (by omega)
      rw [hadj.2.2] at hzero
      cases hzero

theorem firstSet_none {g : Graph} (hwf : g.WF) {node start : Nat}
    (h : g.firstSet node start = none) (b : Nat) (hb : start ≤ b) : ¬ g.Adj node b := by
  intro hadj
  simp only [firstSet] at h
  split at h
  · rename_i hcond
    rcases hcond with hge | hzero
    · have := hadj.2.1
      omega
    · exact (hwf.degree_ne_zero node).mpr ⟨b, hadj⟩ hzero
  · have hfind := BitSet.find_none (Option.map_eq_none_iff.mp h) (b + node * g.size) (by omega)
      (by have := hadj.2.1; omega)
    rw [hadj.2.2] at hfind
    cases hfind

private theorem removeLoop_spec (node : Nat) (fuel start : Nat) (g : Graph) (hwf : g.WF)
    (hdone : ∀ b < start, ¬ g.Adj node b) (hfuel : (g.neighbors node).card ≤ fuel) :
    (removeLoop node fuel start g).WF ∧ (removeLoop node fuel start g).size = g.size ∧
      ∀ x y, (removeLoop node fuel start g).Adj x y ↔ g.Adj x y ∧ x ≠ node ∧ y ≠ node := by
  induction fuel generalizing start g with
  | zero =>
      have hempty : g.neighbors node = ∅ := Finset.card_eq_zero.mp (by omega)
      have hnone : ∀ b, ¬ g.Adj node b := by
        intro b hb
        have := mem_neighbors.mpr hb
        simp [hempty] at this
      refine ⟨hwf, rfl, fun x y => ⟨fun h => ⟨h, ?_, ?_⟩, fun h => h.1⟩⟩
      · rintro rfl
        exact hnone _ h
      · rintro rfl
        exact hnone _ (hwf.symm _ _ h)
  | succ fuel ih =>
      rw [removeLoop]
      cases hfirst : g.firstSet node start with
      | none =>
          have hnone : ∀ b, ¬ g.Adj node b := by
            intro b
            by_cases hb : b < start
            · exact hdone b hb
            · exact firstSet_none hwf hfirst b (by omega)
          refine ⟨hwf, rfl, fun x y => ⟨fun h => ⟨h, ?_, ?_⟩, fun h => h.1⟩⟩
          · rintro rfl
            exact hnone _ h
          · rintro rfl
            exact hnone _ (hwf.symm _ _ h)
      | some other =>
          obtain ⟨hle, hother, hskip⟩ := firstSet_some hfirst
          have hset := adj_set hwf false hother.1 hother.2.1
          have hwf' := wf_set hwf node other false
          have hdone' : ∀ b < other + 1, ¬ (g.set node other false).Adj node b := by
            intro b hb hadj
            rw [hset] at hadj
            split at hadj
            · cases hadj
            · rename_i hedge
              by_cases hbo : b = other
              · exact hedge (.inl ⟨rfl, hbo⟩)
              · by_cases hbs : b < start
                · exact hdone b hbs hadj
                · exact hskip b (by omega) (by omega) hadj
          have hsub : (g.set node other false).neighbors node ⊆
              (g.neighbors node).erase other := by
            intro b hb
            have hadj := mem_neighbors.mp hb
            rw [hset] at hadj
            split at hadj
            · cases hadj
            · rename_i hedge
              refine Finset.mem_erase.mpr ⟨fun hbo => hedge (.inl ⟨rfl, hbo⟩), ?_⟩
              exact mem_neighbors.mpr hadj
          have hcard := Finset.card_le_card hsub
          rw [Finset.card_erase_of_mem (mem_neighbors.mpr hother)] at hcard
          obtain ⟨hwfr, hsize, hadj⟩ := ih (other + 1) _ hwf' hdone' (by omega)
          refine ⟨hwfr, by rw [hsize, size_set], fun x y => ?_⟩
          simp only
          rw [hadj, hset]
          constructor
          · rintro ⟨hxy, hx, hy⟩
            rw [if_neg (by rintro (⟨rfl, -⟩ | ⟨-, rfl⟩) <;> contradiction)] at hxy
            exact ⟨hxy, hx, hy⟩
          · rintro ⟨hxy, hx, hy⟩
            rw [if_neg (by rintro (⟨rfl, -⟩ | ⟨-, rfl⟩) <;> contradiction)]
            exact ⟨hxy, hx, hy⟩

/-- Removing a node removes exactly its edges. -/
theorem remove_spec {g : Graph} (hwf : g.WF) (node : Nat) :
    (g.remove node).WF ∧ (g.remove node).size = g.size ∧
      ∀ x y, (g.remove node).Adj x y ↔ g.Adj x y ∧ x ≠ node ∧ y ≠ node := by
  apply removeLoop_spec node _ 0 g hwf (by intro b hb; omega)
  rw [hwf.degree node]
  omega

/-- The neighbors of a node from `start` on, in increasing order. -/
def neighborsFrom (g : Graph) (node start : Nat) : List Nat :=
  (List.range' start (g.size - start)).filter (fun b => decide (g.Adj node b))

private theorem neighborsFrom_some {g : Graph} {node start nb : Nat}
    (h : g.firstSet node start = some nb) :
    g.neighborsFrom node start = nb :: g.neighborsFrom node (nb + 1) := by
  obtain ⟨hle, hadj, hskip⟩ := firstSet_some h
  have hlt := hadj.2.1
  have hsplit : List.range' start (g.size - start) =
      List.range' start (nb - start) ++ nb :: List.range' (nb + 1) (g.size - (nb + 1)) := by
    rw [← List.range'_succ]
    have happ := @List.range'_append_1 start (nb - start) (g.size - nb)
    rw [show start + (nb - start) = nb by omega,
      show nb - start + (g.size - nb) = g.size - start by omega] at happ
    rw [← happ, show g.size - (nb + 1) + 1 = g.size - nb by omega]
  have hnil : (List.range' start (nb - start)).filter (fun b => decide (g.Adj node b)) = [] := by
    rw [List.filter_eq_nil_iff]
    intro b hb
    have hrange := List.mem_range'_1.mp hb
    simpa using hskip b (by omega) (by omega)
  rw [neighborsFrom, hsplit, List.filter_append, hnil, List.nil_append,
    List.filter_cons_of_pos (by simpa using hadj), neighborsFrom]

private theorem neighborsFrom_none {g : Graph} (hwf : g.WF) {node start : Nat}
    (h : g.firstSet node start = none) : g.neighborsFrom node start = [] := by
  rw [neighborsFrom, List.filter_eq_nil_iff]
  intro b hb
  have hrange := List.mem_range'_1.mp hb
  simpa using firstSet_none hwf h b hrange.1

/-- The loop over the neighbors of a node is a fold over them. -/
theorem eachNeighbor_eq {σ : Type} {g : Graph} (hwf : g.WF) (node : Nat) (body : σ → Nat → σ)
    (s : σ) : g.eachNeighbor node body s = (g.neighborsFrom node 0).foldl body s := by
  have hgo : ∀ fuel start s, g.size - start ≤ fuel →
      eachNeighbor.go g node body fuel start s = (g.neighborsFrom node start).foldl body s := by
    intro fuel
    induction fuel with
    | zero =>
        intro start s hfuel
        have hnil : g.neighborsFrom node start = [] := by
          rw [neighborsFrom, show g.size - start = 0 by omega]
          rfl
        rw [hnil]
        rfl
    | succ fuel ih =>
        intro start s hfuel
        rw [eachNeighbor.go]
        cases hfirst : g.firstSet node start with
        | none => rw [neighborsFrom_none hwf hfirst]; rfl
        | some nb =>
            have hlt := (firstSet_some hfirst).2.1.2.1
            have hle := (firstSet_some hfirst).1
            rw [neighborsFrom_some hfirst]
            exact ih (nb + 1) (body s nb) (by omega)
  exact hgo g.size 0 s (by omega)

theorem mem_neighborsFrom {g : Graph} {node b : Nat} :
    b ∈ g.neighborsFrom node 0 ↔ g.Adj node b := by
  simp only [neighborsFrom, List.mem_filter, List.mem_range'_1, decide_eq_true_eq]
  exact ⟨fun h => h.2, fun h => ⟨⟨by omega, by have := h.2.1; omega⟩, h⟩⟩

end Graph

end OneJit
