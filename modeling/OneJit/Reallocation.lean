import Mathlib.Data.List.GetD
import OneJit.RegisterColouring

/-!
# Allocating twice

The coloring phase adds back all edges of the graph that the removal phase started from. So the graph
after an allocation is the one before it with a self-edge at every register, and a second allocation
begins where the first one did.
-/

namespace OneJit

/-- A well-formed graph is determined by its edges. -/
theorem Graph.WF.ext {g g' : Graph} (h : g.WF) (h' : g'.WF) (hsize : g.size = g'.size)
    (hadj : ∀ x y, g.Adj x y ↔ g'.Adj x y) : g = g' := by
  have hbits : g.bits.bits = g'.bits.bits := by
    have hlen := h.size_bits
    have hlen' := h'.size_bits
    rw [← hsize] at hlen'
    refine List.ext_getElem (hlen.trans hlen'.symm) fun i hi₀ hi' => ?_
    have hi : i < g.size * g.size := hlen ▸ hi₀
    have hpos : 0 < g.size := Nat.pos_of_ne_zero fun h0 => by simp [h0] at hi
    have hrow : i / g.size < g.size := Nat.div_lt_of_lt_mul hi
    have hcol : i % g.size < g.size := Nat.mod_lt _ hpos
    have hindex : i % g.size + i / g.size * g.size = i := by
      rw [Nat.mul_comm]
      exact Nat.mod_add_div i g.size
    have hiff := hadj (i / g.size) (i % g.size)
    simp only [Adj, ← hsize, hrow, hcol, hindex, true_and] at hiff
    rw [BitSet.get, BitSet.get, List.getD_eq_getElem _ _ hi₀, List.getD_eq_getElem _ _ hi'] at hiff
    exact Bool.eq_iff_iff.mpr hiff
  have hdegree : g.degree_ = g'.degree_ := by
    refine List.ext_getElem hsize fun x hx hx' => ?_
    have hnbs : g.neighbors x = g'.neighbors x := by
      ext y
      rw [mem_neighbors, mem_neighbors, hadj]
    have hdeg : g.degree x = g'.degree x := by
      rw [h.degree, h'.degree, hnbs]
      simp only [hadj]
    rwa [Graph.degree, Graph.degree, List.getD_eq_getElem _ _ hx, List.getD_eq_getElem _ _ hx'] at hdeg
  obtain ⟨⟨bits⟩, degrees⟩ := g
  obtain ⟨⟨bits'⟩, degrees'⟩ := g'
  simp only at hbits hdegree
  rw [hbits, hdegree]

namespace Allocator

/-- All edges are added back, and nothing else changes but the colors. -/
theorem Valid.graph_allocateRegs {a : Allocator} (h : a.Valid) (numColors : BitVec 32) :
    (a.allocateRegs numColors).g = a.init.g ∧ (a.allocateRegs numColors).hints = a.hints := by
  obtain ⟨hwf0, -, -, hself, -⟩ := init_spec h
  have hremove := removeAll_spec numColors hself (removed_nil hwf0) (a.init.size + 1)
    (by unfold size; simp)
  simp only [allocateRegs]
  generalize removeAll numColors (a.init.size + 1) (a.init.g, []) = s at hremove ⊢
  obtain ⟨g, stack⟩ := s
  obtain ⟨hrem, hall⟩ := hremove
  simp only at hrem hall ⊢
  have hrev : ∀ r ∈ stack.reverse, r < a.init.g.size ∧ r ∉ (∅ : Finset Nat) :=
    fun r hr => ⟨hrem.bound r (List.mem_reverse.mp hr), Finset.notMem_empty r⟩
  obtain ⟨hcol, hhints, -⟩ := assignColor_foldl hwf0 hself numColors stack.reverse
    (h.colored_empty hrem hall) (by simp) hrev (List.nodup_reverse.mpr hrem.nodup)
  refine ⟨hcol.wf.ext hwf0 hcol.size fun x y => ?_, hhints⟩
  rw [hcol.adj]
  refine ⟨fun hx => hx.1, fun hx => ⟨hx, ?_, ?_⟩⟩
  · simp [hall x hx.1]
  · simp [hall y hx.2.1]

/-- The colors after the first phase of an allocation. -/
theorem Valid.colors_init {a : Allocator} (h : a.Valid) :
    a.init.colors = List.replicate a.size none := by
  obtain ⟨-, -, -, -, -, hlen, hnone⟩ := init_spec h
  refine List.eq_replicate_iff.mpr ⟨hlen, fun c hc => ?_⟩
  obtain ⟨r, hr, rfl⟩ := List.getElem_of_mem hc
  have hcolor := hnone r (hlen ▸ hr)
  rwa [colorAt, List.getD_eq_getElem _ _ hr] at hcolor

/-- An allocation starts with the same graph and colors the second time. -/
theorem Valid.init_allocateRegs {a : Allocator} (h : a.Valid) (numColors : BitVec 32) :
    (a.allocateRegs numColors).init =
      { a.init with availColors := (a.allocateRegs numColors).availColors } := by
  have hspec := allocateRegs_spec h numColors
  obtain ⟨hg, hhints⟩ := h.graph_allocateRegs numColors
  obtain ⟨hwf, hsize, hcopy, hself, hadj, -⟩ := init_spec h
  obtain ⟨hwf', hsize', hcopy', hself', hadj', -⟩ := init_spec hspec.valid
  have hcolors : (a.allocateRegs numColors).init.colors = a.init.colors := by
    rw [hspec.valid.colors_init, h.colors_init, hspec.size]
  have hsizes : (a.allocateRegs numColors).init.g.size = a.init.g.size := by
    rw [hsize', hsize, hspec.size]
  have hgraph : (a.allocateRegs numColors).init.g = a.init.g := by
    refine hwf'.ext hwf hsizes fun x y => ?_
    by_cases hxy : x = y
    · subst hxy
      refine ⟨fun hx => hself x ?_, fun hx => hself' x ?_⟩
      · rw [← hsizes]
        exact hx.1
      · rw [hsizes]
        exact hx.1
    · rw [hadj' x y hxy, hg]
  have hg2 : (a.allocateRegs numColors).init.g2 = a.init.g2 := by rw [hcopy', hcopy, hgraph]
  generalize (a.allocateRegs numColors) = b at *
  change Allocator.mk b.init.g b.init.g2 [] b.hints b.init.colors b.availColors =
    Allocator.mk a.init.g a.init.g2 [] a.hints a.init.colors b.availColors
  rw [hgraph, hg2, hhints, hcolors]

/-- Only the number of available colors matters, since all of them are made available first. -/
theorem assignColor_avail (numColors : BitVec 32) (a : Allocator) (reg : Nat) {avail : BitSet}
    (h : avail.size = a.availColors.size) :
    assignColor numColors { a with availColors := avail } reg = assignColor numColors a reg := by
  have hfill : avail.fill true = a.availColors.fill true := by
    rw [BitSet.fill, BitSet.fill, h]
  simp only [assignColor, hfill]

theorem colors_foldl_avail (numColors : BitVec 32) (l : List Nat) (a : Allocator)
    {avail : BitSet} (h : avail.size = a.availColors.size) :
    (l.foldl (assignColor numColors) { a with availColors := avail }).colors =
      (l.foldl (assignColor numColors) a).colors := by
  cases l with
  | nil => rfl
  | cons reg l => rw [List.foldl_cons, List.foldl_cons, assignColor_avail numColors a reg h]

/-- The allocator after the first phase. -/
def removed (a : Allocator) (numColors : BitVec 32) : Allocator :=
  let s := removeAll numColors (a.init.size + 1) (a.init.g, [])
  { a.init with g := s.1, stack := s.2 }

/-- An allocation leaves the edges as they were, but for an edge from each register to itself, and
a second one finds the same colors. -/
theorem allocateRegs_restores {a : Allocator} (h : a.Valid) (numColors : BitVec 32) :
    let b := a.allocateRegs numColors
    (∀ x y, b.g.Adj x y ↔ a.g.Adj x y ∨ (x = y ∧ x < a.size)) ∧
      (b.allocateRegs numColors).colors = b.colors := by
  have hspec := allocateRegs_spec h numColors
  obtain ⟨hg, -⟩ := h.graph_allocateRegs numColors
  obtain ⟨-, hsize, -, hself, hadj, -⟩ := init_spec h
  constructor
  · intro x y
    rw [hg]
    by_cases hxy : x = y
    · subst hxy
      refine ⟨fun hx => .inr ⟨rfl, hsize ▸ hx.1⟩, ?_⟩
      rintro (hx | ⟨-, hx⟩)
      · exact hself x (by rw [hsize]; exact hx.1)
      · exact hself x (by rw [hsize]; exact hx)
    · rw [hadj x y hxy]
      simp [hxy]
  · have hinit := h.init_allocateRegs numColors
    have havail : (a.allocateRegs numColors).availColors.size = a.availColors.size := by
      rw [hspec.valid.avail, h.avail, hspec.size]
    generalize (a.allocateRegs numColors).availColors = avail at hinit havail
    have hsecond : (a.allocateRegs numColors).allocateRegs numColors =
        (a.removed numColors).stack.reverse.foldl (assignColor numColors)
          { a.removed numColors with availColors := avail } := by
      rw [allocateRegs, hinit]
      rfl
    rw [hsecond]
    exact colors_foldl_avail numColors _ (a.removed numColors) havail

/-- Three registers, two of which interfere, with a hint. -/
theorem allocateRegs_restores_three :
    let a := run 3 [.connect 0 1, .addHint 2 (some 1)]
    let b := a.allocateRegs 2
    (∀ x y, b.g.Adj x y ↔ a.g.Adj x y ∨ (x = y ∧ x < a.size)) ∧
      (b.allocateRegs 2).colors = b.colors :=
  allocateRegs_restores (run_spec 3 [.connect 0 1, .addHint 2 (some 1)]).1 2

end Allocator

end OneJit
