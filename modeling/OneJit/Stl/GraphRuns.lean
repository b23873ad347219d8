import OneJit.Stl.Graph

/-!
# Runs of a graph

What a graph answers after any sequence of operations. The bits and the degrees follow the edges as
they were last set. `operator()` reads the bit of another pair where the index of a bit does not fit
in 32 bits, which happens with more than 65536 nodes.
-/

namespace OneJit.Stl

/-- The edges as they were last set. -/
structure Edges where
  size : Nat
  edge : Nat → Nat → Bool

namespace Edges

def empty (size : Nat) : Edges := ⟨size, fun _ _ => false⟩

def set (S : Edges) (a b : Nat) (value : Bool) : Edges :=
  if a < S.size ∧ b < S.size then
    { S with edge := fun x y => if OneJit.Graph.IsEdge a b x y then value else S.edge x y }
  else S

def remove (S : Edges) (node : Nat) : Edges :=
  { S with edge := fun x y => S.edge x y && decide (x ≠ node) && decide (y ≠ node) }

/-- The number of distinct neighbors, and one more for an edge from the node to itself. -/
def degree (S : Edges) (a : Nat) : Nat :=
  ((Finset.range S.size).filter fun b => S.edge a b).card + if S.edge a a then 1 else 0

/-- The index of the bit that `operator()` reads, in 32 bits. -/
def index (S : Edges) (a b : Nat) : Nat := (max a b + min a b * S.size) % 2 ^ 32

/-- The bit that `operator()` reads is the one of the pair, or of a pair with the same value. -/
def Readable (S : Edges) (a b : Nat) : Prop :=
  S.size ≤ max a b ∨ max a b + min a b * S.size < 2 ^ 32 ∨
    S.edge (S.index a b / S.size) (S.index a b % S.size) = S.edge a b

@[simp] theorem size_set (S : Edges) (a b : Nat) (value : Bool) :
    (S.set a b value).size = S.size := by
  unfold set
  split <;> rfl

/-- Only a node with edges to all of `2 ^ 32 - 1` nodes has too many edges. -/
theorem degree_lt {S : Edges} (h : S.size < 2 ^ 32 - 1) (x : Nat) : S.degree x < 2 ^ 32 := by
  have hcard := Finset.card_filter_le (Finset.range S.size) fun b => S.edge x b = true
  rw [Finset.card_range] at hcard
  have hself : (if S.edge x x = true then 1 else 0) ≤ 1 := by split <;> decide
  unfold degree
  omega

end Edges

namespace Graph

/-- An operation that changes the graph. -/
inductive Op where
  | set (a b : BitVec 32) (value : Bool)
  | remove (node : BitVec 32)
  | reset (memBits memDegree : Nat → Bool) (nodes : BitVec 32)

/-- An operation, and what `reset` returns. -/
def step (cfg : Config) (g : Graph) : Op → Option (Bool × Graph)
  | .set a b value => (g.set a b value).map fun g => (true, g)
  | .remove node => (g.remove cfg node).map fun g => (true, g)
  | .reset memBits memDegree nodes => g.reset memBits memDegree nodes

/-- What an operation does to the edges. A `reset` that fails does nothing. -/
def edgesAfter (S : Edges) : Op → Bool → Edges
  | .set a b value, _ => S.set a.toNat b.toNat value
  | .remove node, _ => S.remove node.toNat
  | .reset _ _ nodes, ok => if ok then .empty nodes.toNat else S

def run (cfg : Config) : List Op → Graph → Edges → Option (Graph × Edges)
  | [], g, S => some (g, S)
  | op :: ops, g, S => (g.step cfg op).bind fun r => run cfg ops r.2 (edgesAfter S op r.1)

/-- The degrees after an edge is set fit in 32 bits, and a node with edges is only removed where
`ffs` or `ffsl` is available. -/
def Allowed (cfg : Config) (S : Edges) : Op → Prop
  | .set a b value => ∀ x, (S.set a.toNat b.toNat value).degree x < 2 ^ 32
  | .remove node => cfg.oneBased = true ∨ ∀ x, S.edge node.toNat x = false
  | .reset _ _ _ => True

/-- Each operation of a run is allowed in the state before it. -/
def AllAllowed (cfg : Config) : List Op → Graph → Edges → Prop
  | [], _, _ => True
  | op :: ops, g, S => Allowed cfg S op ∧
      ∀ r, g.step cfg op = some r → AllAllowed cfg ops r.2 (edgesAfter S op r.1)

/-- The graph answers as the edges are. -/
structure Keeps (g : Graph) (S : Edges) : Prop where
  size : g.size.toNat = S.size
  symm : ∀ a b, g.connected a b = g.connected b a
  connected : ∀ a b : BitVec 32,
    g.connected a b = some (S.edge a.toNat b.toNat) ↔ S.Readable a.toNat b.toNat
  degree : ∀ a : BitVec 32, (g.degree a).toNat = S.degree a.toNat

/-! ## The graph without limits between the two -/

/-- The words, a well-formed graph and the edges agree. -/
structure Agrees (g : Graph) (h : OneJit.Graph) (S : Edges) : Prop where
  refines : Refines g h
  wf : h.WF
  size : h.size = S.size
  edge : ∀ x y, h.Adj x y ↔ S.edge x y = true

variable {g : Graph} {h : OneJit.Graph} {S : Edges} {cfg : Config}

theorem degree_of_edges (hwf : h.WF) (hsize : h.size = S.size)
    (hedge : ∀ x y, h.Adj x y ↔ S.edge x y = true) (x : Nat) : h.degree x = S.degree x := by
  have hneighbors : h.neighbors x = (Finset.range S.size).filter fun b => S.edge x b := by
    rw [OneJit.Graph.neighbors, hsize]
    exact Finset.filter_congr fun b _ => hedge x b
  rw [hwf.degree, Edges.degree, hneighbors]
  by_cases hself : S.edge x x = true
  · rw [if_pos hself, if_pos ((hedge x x).mpr hself)]
  · rw [if_neg hself, if_neg (fun hadj => hself ((hedge x x).mp hadj))]

theorem Agrees.degree (hagree : Agrees g h S) (x : Nat) : h.degree x = S.degree x :=
  degree_of_edges hagree.wf hagree.size hagree.edge x

theorem Agrees.edge_symm (hagree : Agrees g h S) (x y : Nat) : S.edge x y = S.edge y x := by
  rw [Bool.eq_iff_iff, ← hagree.edge, ← hagree.edge]
  exact ⟨hagree.wf.symm x y, hagree.wf.symm y x⟩

theorem Agrees.edge_of_ge (hagree : Agrees g h S) {x y : Nat} (hge : S.size ≤ max x y) :
    S.edge x y = false := by
  by_contra htrue
  have hadj := (hagree.edge x y).mpr (by simpa using htrue)
  have hx := hadj.1
  have hy := hadj.2.1
  rw [hagree.size] at hx hy
  omega

/-- `operator()` reads the bit at the index in 32 bits. -/
theorem Agrees.connectedOrdered (hagree : Agrees g h S) {a b : BitVec 32}
    (hle : b.toNat ≤ a.toNat) (ha : a.toNat < S.size) :
    g.connectedOrdered a b = some (S.edge (S.index a.toNat b.toNat / S.size)
      (S.index a.toNat b.toNat % S.size)) := by
  have hsize : g.size.toNat = S.size := hagree.refines.size.trans hagree.size
  have hin : ¬g.size ≤ a := by
    rw [BitVec.le_def, hsize]
    omega
  have hindex : (a + b * g.size).toNat = S.index a.toNat b.toNat := by
    rw [BitVec.toNat_add, BitVec.toNat_mul, hsize, Nat.add_mod_mod, Edges.index,
      Nat.max_eq_left hle, Nat.min_eq_right hle]
  have hlt : S.index a.toNat b.toNat < S.size * S.size := by
    have hsquare := OneJit.Graph.index_lt (Nat.lt_of_le_of_lt hle ha) ha
    rw [Edges.index, Nat.max_eq_left hle, Nat.min_eq_right hle]
    exact Nat.lt_of_le_of_lt (Nat.mod_le _ _) hsquare
  unfold Graph.connectedOrdered
  dsimp only
  rw [if_neg hin, hindex, hagree.refines.get (by rw [hagree.size]; exact hlt)]
  have hpos : 0 < S.size := by omega
  have hadj := hagree.edge (S.index a.toNat b.toNat / S.size) (S.index a.toNat b.toNat % S.size)
  unfold OneJit.Graph.Adj at hadj
  rw [hagree.size, Nat.mul_comm, Nat.mod_add_div] at hadj
  have hdiv : S.index a.toNat b.toNat / S.size < S.size := Nat.div_lt_of_lt_mul hlt
  have hmod := Nat.mod_lt (S.index a.toNat b.toNat) hpos
  rw [Option.some.injEq, Bool.eq_iff_iff, ← hadj]
  exact ⟨fun hbit => ⟨hdiv, hmod, hbit⟩, fun hall => hall.2.2⟩

/-- `operator()` sorts its arguments. -/
theorem connected_eq (g : Graph) {a b : BitVec 32} (hle : b.toNat ≤ a.toNat) :
    g.connected a b = g.connectedOrdered a b ∧ g.connected b a = g.connectedOrdered a b := by
  unfold connected
  have hab : ¬a < b := fun hlt => absurd (BitVec.lt_def.mp hlt) (Nat.not_lt.mpr hle)
  rw [if_neg hab]
  refine ⟨rfl, ?_⟩
  by_cases hba : b < a
  · rw [if_pos hba]
  · have heq : a = b := by
      apply BitVec.eq_of_toNat_eq
      have hge : ¬b.toNat < a.toNat := fun hlt => hba (BitVec.lt_def.mpr hlt)
      omega
    rw [if_neg hba, heq]

theorem Agrees.keeps (hagree : Agrees g h S) : Keeps g S := by
  have hsize : g.size.toNat = S.size := hagree.refines.size.trans hagree.size
  have hordered : ∀ a b : BitVec 32, b.toNat ≤ a.toNat →
      (g.connectedOrdered a b = some (S.edge a.toNat b.toNat) ↔
        S.Readable a.toNat b.toNat) := by
    intro a b hle
    unfold Edges.Readable
    rw [Nat.max_eq_left hle, Nat.min_eq_right hle]
    by_cases ha : a.toNat < S.size
    · rw [hagree.connectedOrdered hle ha, Option.some.injEq]
      constructor
      · exact fun hsame => .inr (.inr hsame)
      · rintro (hge | hlt | hsame)
        · omega
        · have hindex : S.index a.toNat b.toNat = a.toNat + b.toNat * S.size := by
            rw [Edges.index, Nat.max_eq_left hle, Nat.min_eq_right hle, Nat.mod_eq_of_lt hlt]
          have hdiv : (a.toNat + b.toNat * S.size) / S.size = b.toNat := by
            rw [Nat.add_mul_div_right _ _ (by omega), Nat.div_eq_of_lt ha, Nat.zero_add]
          rw [hindex, hdiv, Nat.add_mul_mod_self_right, Nat.mod_eq_of_lt ha]
          exact hagree.edge_symm _ _
        · exact hsame
    · have hout : g.connectedOrdered a b = some false := by
        have hle' : g.size ≤ a := BitVec.le_def.mpr (by omega)
        exact if_pos hle'
      rw [hout, hagree.edge_of_ge (by omega)]
      exact ⟨fun _ => .inl (by omega), fun _ => rfl⟩
  refine ⟨hsize, fun a b => ?_, fun a b => ?_, fun a => ?_⟩
  · rcases Nat.le_total b.toNat a.toNat with hle | hle
    · rw [(connected_eq g hle).1, (connected_eq g hle).2]
    · rw [(connected_eq g hle).1, (connected_eq g hle).2]
  · rcases Nat.le_total b.toNat a.toNat with hle | hle
    · rw [(connected_eq g hle).1]
      exact hordered a b hle
    · rw [(connected_eq g hle).2, hagree.edge_symm, hordered b a hle, Edges.Readable,
        Edges.Readable, Edges.index, Edges.index, Nat.max_comm, Nat.min_comm, hagree.edge_symm b.toNat]
  · rw [← hagree.degree]
    exact hagree.refines.degree a.toNat

/-! ## Steps and runs -/

theorem Agrees.set (hagree : Agrees g h S) (a b : BitVec 32) (value : Bool)
    (hlimit : ∀ x, (S.set a.toNat b.toNat value).degree x < 2 ^ 32) :
    ∃ g', g.set a b value = some g' ∧
      Agrees g' (h.set a.toNat b.toNat value) (S.set a.toNat b.toNat value) := by
  have hwf := OneJit.Graph.wf_set hagree.wf a.toNat b.toNat value
  have hsize : (h.set a.toNat b.toNat value).size = (S.set a.toNat b.toNat value).size := by
    rw [OneJit.Graph.size_set, hagree.size, Edges.set]
    split <;> rfl
  have hedge : ∀ x y, (h.set a.toNat b.toNat value).Adj x y ↔
      (S.set a.toNat b.toNat value).edge x y = true := by
    intro x y
    unfold Edges.set
    by_cases hin : a.toNat < S.size ∧ b.toNat < S.size
    · rw [if_pos hin, OneJit.Graph.adj_set hagree.wf value (by rw [hagree.size]; exact hin.1)
        (by rw [hagree.size]; exact hin.2)]
      dsimp only
      by_cases hxy : OneJit.Graph.IsEdge a.toNat b.toNat x y
      · rw [if_pos hxy, if_pos hxy]
      · rw [if_neg hxy, if_neg hxy]
        exact hagree.edge x y
    · rw [if_neg hin, OneJit.Graph.set_of_ge value (by rw [hagree.size]; exact hin)]
      exact hagree.edge x y
  obtain ⟨g', hg', href⟩ := set_refines hagree.refines hagree.wf value fun x => by
    rw [degree_of_edges hwf hsize hedge]
    exact hlimit x
  exact ⟨g', hg', href, hwf, hsize, hedge⟩

theorem Agrees.remove (hagree : Agrees g h S) (node : BitVec 32)
    (hcan : cfg.oneBased = true ∨ ∀ x, S.edge node.toNat x = false) :
    ∃ g' h', g.remove cfg node = some g' ∧ Agrees g' h' (S.remove node.toNat) := by
  rcases hcan with hcfg | hnone
  · obtain ⟨hwf, hsize, hadj⟩ := OneJit.Graph.remove_spec hagree.wf node.toNat
    obtain ⟨g', hg', href⟩ := remove_refines hcfg hagree.refines hagree.wf node
    refine ⟨g', _, hg', href, hwf, hsize.trans hagree.size, fun x y => ?_⟩
    rw [hadj, hagree.edge]
    simp [Edges.remove, and_assoc]
  · have hdegree : (g.degree node).toNat = 0 := by
      have hzero : S.degree node.toNat = 0 := by simp [Edges.degree, hnone]
      rw [← hzero, ← hagree.degree]
      exact hagree.refines.degree node.toNat
    refine ⟨g, h, ?_, hagree.refines, hagree.wf, hagree.size, fun x y => ?_⟩
    · rw [Graph.remove, hdegree]
      rfl
    · rw [hagree.edge]
      by_cases hx : x = node.toNat
      · simp [Edges.remove, hx, hnone]
      · by_cases hy : y = node.toNat
        · simp [Edges.remove, hy, hagree.edge_symm x, hnone]
        · simp [Edges.remove, hx, hy]

theorem agrees_empty {n : Nat} (href : Refines g (OneJit.Graph.reset n)) :
    Agrees g (OneJit.Graph.reset n) (.empty n) := by
  refine ⟨href, OneJit.Graph.wf_reset n, OneJit.Graph.size_reset n, fun x y => ?_⟩
  exact ⟨fun hadj => absurd hadj (OneJit.Graph.not_adj_reset n x y), nofun⟩

/-- An operation that is allowed. -/
theorem Agrees.step (hagree : Agrees g h S) {op : Op} (hallowed : Allowed cfg S op) :
    ∃ r h', g.step cfg op = some r ∧ Agrees r.2 h' (edgesAfter S op r.1) := by
  cases op with
  | set a b value =>
    obtain ⟨g', hg', hagree'⟩ := hagree.set a b value hallowed
    exact ⟨(true, g'), _, by rw [Graph.step, hg', Option.map_some], hagree'⟩
  | remove node =>
    obtain ⟨g', h', hg', hagree'⟩ := hagree.remove node hallowed
    exact ⟨(true, g'), h', by rw [Graph.step, hg', Option.map_some], hagree'⟩
  | reset memBits memDegree nodes =>
    obtain ⟨⟨ok, g'⟩, hg', href⟩ := reset_refines hagree.refines memBits memDegree nodes
    cases ok with
    | true => exact ⟨_, _, hg', agrees_empty href⟩
    | false => exact ⟨_, h, hg', ⟨href, hagree.wf, hagree.size, hagree.edge⟩⟩

/-- A run of operations that are allowed. -/
theorem Agrees.run (hagree : Agrees g h S) {ops : List Op} (hallowed : AllAllowed cfg ops g S) :
    ∃ g' S', run cfg ops g S = some (g', S') ∧ Keeps g' S' := by
  induction ops generalizing g h S with
  | nil => exact ⟨g, S, rfl, hagree.keeps⟩
  | cons op ops ih =>
    obtain ⟨r, h', hr, hagree'⟩ := hagree.step hallowed.1
    obtain ⟨g', S', hrun, hkeeps⟩ := ih hagree' (hallowed.2 r hr)
    refine ⟨g', S', ?_, hkeeps⟩
    rw [Graph.run, hr, Option.bind_some, hrun]

theorem agrees_new {memBits memDegree : Nat → Bool} {n : BitVec 32}
    (hmem : Allocated memBits memDegree n) : ∃ h, Agrees (new memBits memDegree n) h
      (.empty (new memBits memDegree n).size.toNat) :=
  ⟨_, agrees_empty (new_refines hmem)⟩

/-- In each run of operations that are allowed, the graph answers as the edges were last set. -/
theorem run_keeps (cfg : Config) {memBits memDegree : Nat → Bool} {n : BitVec 32}
    (hmem : Allocated memBits memDegree n) {ops : List Op}
    (hallowed : AllAllowed cfg ops (new memBits memDegree n)
      (.empty (new memBits memDegree n).size.toNat)) :
    ∃ g S, run cfg ops (new memBits memDegree n) (.empty (new memBits memDegree n).size.toNat) =
      some (g, S) ∧ Keeps g S := by
  obtain ⟨h, hagree⟩ := agrees_new hmem
  exact hagree.run hallowed

/-- Two edges are set, and a node is removed. -/
def trace : List Op := [.set 0 1 true, .set 2 2 true, .remove 1]

theorem run_keeps_trace : Allocated (fun _ => true) (fun _ => true) 3 ∧
    AllAllowed ⟨true, true⟩ trace (new (fun _ => true) (fun _ => true) 3)
      (.empty (new (fun _ => true) (fun _ => true) 3).size.toNat) ∧
    ∃ g S, run ⟨true, true⟩ trace (new (fun _ => true) (fun _ => true) 3)
        (.empty (new (fun _ => true) (fun _ => true) 3).size.toNat) = some (g, S) ∧
      Keeps g S := by
  have hmem : Allocated (fun _ => true) (fun _ => true) 3 := fun _ => .inr rfl
  have hsize : (new (fun _ => true) (fun _ => true) 3).size.toNat = 3 := by decide
  have hallowed : AllAllowed ⟨true, true⟩ trace (new (fun _ => true) (fun _ => true) 3)
      (.empty (new (fun _ => true) (fun _ => true) 3).size.toNat) := by
    rw [hsize]
    refine ⟨fun x => Edges.degree_lt ?_ x, fun _ _ => ⟨fun x => Edges.degree_lt ?_ x, fun _ _ =>
      ⟨.inl rfl, fun _ _ => trivial⟩⟩⟩
    · rw [Edges.size_set]
      decide
    · rw [Edges.size_set, edgesAfter, Edges.size_set]
      decide
  exact ⟨hmem, hallowed, run_keeps ⟨true, true⟩ hmem hallowed⟩

theorem size_new {memBits memDegree : Nat → Bool} {n : BitVec 32} (h : memDegree n.toNat = true) :
    (new memBits memDegree n).size = n := by
  rw [size, new]
  dsimp only
  rw [if_pos h, List.length_replicate, BitVec.ofNat_toNat, BitVec.setWidth_eq]

/-- The edge from the last of 65537 nodes to itself is set and not seen. -/
theorem connected_wraps : ∃ g S,
    run ⟨true, true⟩ [.set 65536 65536 true] (new (fun _ => true) (fun _ => true) 65537)
      (.empty 65537) = some (g, S) ∧
    S.edge 65536 65536 = true ∧ g.connected 65536 65536 = some false := by
  have href : Refines (new (fun _ => true) (fun _ => true) 65537)
      (OneJit.Graph.reset (new (fun _ => true) (fun _ => true) 65537).size.toNat) :=
    new_refines fun _ => .inr rfl
  rw [size_new rfl] at href
  obtain ⟨g, hg, hagree⟩ : ∃ g,
      (new (fun _ => true) (fun _ => true) 65537).set 65536 65536 true = some g ∧
        Agrees g _ (Edges.set (.empty 65537) 65536 65536 true) :=
    (agrees_empty href).set 65536 65536 true fun x => by
      apply Edges.degree_lt
      rw [Edges.size_set]
      decide
  refine ⟨g, Edges.set (.empty 65537) 65536 65536 true, ?_, by decide, ?_⟩
  · rw [run, step, hg]
    rfl
  · rw [(connected_eq g (Nat.le_refl _)).1,
      hagree.connectedOrdered (Nat.le_refl _) (by decide)]
    decide

end Graph

end OneJit.Stl
