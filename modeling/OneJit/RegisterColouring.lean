import OneJit.Allocator

/-!
# The register allocator colors properly

The removal phase pushes every register once, and the graph it leaves after each push is the
initial graph without the pushed registers. The coloring phase keeps the set of registers that
are back in the graph: they are colored, properly, and the graph is the initial one on them. A
register finds its neighbors as they were when it was removed, so a register that was removed
with fewer neighbors than colors is not spilled.
-/

namespace OneJit

namespace Allocator

/-! ## The first phase: removing all registers -/

/-- The graph `g` is `g0` without the registers of the stack. -/
structure Removed (g0 : Graph) (g : Graph) (stack : List Nat) : Prop where
  wf : g.WF
  size : g.size = g0.size
  adj : ∀ x y, g.Adj x y ↔ g0.Adj x y ∧ x ∉ stack ∧ y ∉ stack
  nodup : stack.Nodup
  bound : ∀ r ∈ stack, r < g0.size
  fold : g = stack.foldl Graph.remove g0

/-- Every register has a self-edge. -/
def SelfConnected (g : Graph) : Prop := ∀ x < g.size, g.Adj x x

theorem removed_nil {g0 : Graph} (hwf : g0.WF) : Removed g0 g0 [] :=
  ⟨hwf, rfl, by simp, List.nodup_nil, by simp, rfl⟩

/-- A register has a degree while it is not on the stack. -/
theorem Removed.degree_ne_zero {g0 g : Graph} {stack : List Nat} (h : Removed g0 g stack)
    (hself : SelfConnected g0) (r : Nat) : g.degree r ≠ 0 ↔ r < g0.size ∧ r ∉ stack := by
  rw [h.wf.degree_ne_zero]
  constructor
  · rintro ⟨b, hb⟩
    have hadj := (h.adj r b).mp hb
    exact ⟨hadj.1.1, hadj.2.1⟩
  · rintro ⟨hr, hstack⟩
    exact ⟨r, (h.adj r r).mpr ⟨hself r hr, hstack, hstack⟩⟩

theorem Removed.push {g0 g : Graph} {stack : List Nat} (h : Removed g0 g stack)
    (hself : SelfConnected g0) {r : Nat} (hr : g.degree r ≠ 0) :
    Removed g0 (g.remove r) (stack ++ [r]) := by
  obtain ⟨hlt, hnew⟩ := (h.degree_ne_zero hself r).mp hr
  obtain ⟨hwf, hsize, hadj⟩ := Graph.remove_spec h.wf r
  refine ⟨hwf, hsize.trans h.size, fun x y => ?_, ?_, ?_, ?_⟩
  · rw [hadj, h.adj]
    simp only [List.mem_append, List.mem_singleton, not_or]
    exact ⟨fun hx => ⟨hx.1.1, ⟨hx.1.2.1, hx.2.1⟩, hx.1.2.2, hx.2.2⟩,
      fun hx => ⟨⟨hx.1, hx.2.1.1, hx.2.2.1⟩, hx.2.1.2, hx.2.2.2⟩⟩
  · rw [List.nodup_append]
    refine ⟨h.nodup, List.nodup_singleton r, ?_⟩
    intro a ha b hb hab
    rw [List.mem_singleton] at hb
    exact hnew (hb ▸ hab ▸ ha)
  · intro x hx
    rcases List.mem_append.mp hx with hold | hone
    · exact h.bound x hold
    · rw [List.mem_singleton] at hone
      exact hone ▸ hlt
  · rw [List.foldl_append, ← h.fold]
    rfl

theorem Removed.length_le {g0 g : Graph} {stack : List Nat} (h : Removed g0 g stack) :
    stack.length ≤ g0.size := by
  have hsub : stack ⊆ List.range g0.size := fun r hr => List.mem_range.mpr (h.bound r hr)
  have hle := (List.subperm_of_subset h.nodup hsub).length_le
  rwa [List.length_range] at hle

theorem findDegreeLessThan_some {g : Graph} {d : BitVec 32} {r : Nat}
    (h : findDegreeLessThan g d = some r) :
    r < g.size ∧ 2 ≤ g.degree r ∧ g.degree r < (2 + d).toNat := by
  have hmem := List.mem_of_find?_eq_some h
  have hpred := List.find?_some h
  simp only [Bool.and_eq_true, decide_eq_true_eq] at hpred
  exact ⟨List.mem_range.mp hmem, hpred.1, hpred.2⟩

/-- The fold of `pick` returns a register with a degree, unless none has one. -/
theorem pick_spec (g : Graph) : match pick g with
    | none => ∀ i < g.size, g.degree i = 0
    | some r => g.degree r ≠ 0 := by
  obtain ⟨step, hstep, hpick⟩ : ∃ step : Option Nat × Nat → Nat → Option Nat × Nat,
      (∀ s i, step s i = if g.degree i > s.2 then (some i, g.degree i) else s) ∧
        pick g = ((List.range g.size).foldl step (none, 0)).1 :=
    ⟨_, fun _ _ => rfl, rfl⟩
  have hfold :
      ∀ l : List Nat,
        ((l.foldl step (none, 0)).1 = none →
          (l.foldl step (none, 0)).2 = 0 ∧ ∀ i ∈ l, g.degree i = 0) ∧
        ∀ r, (l.foldl step (none, 0)).1 = some r →
          (l.foldl step (none, 0)).2 = g.degree r ∧ g.degree r ≠ 0 := by
    intro l
    induction l using List.reverseRecOn with
    | nil => simp
    | append_singleton l i ih =>
      rw [List.foldl_append, List.foldl_cons, List.foldl_nil, hstep]
      obtain ⟨hnone, hsome⟩ := ih
      generalize l.foldl step (none, 0) = s at hnone hsome ⊢
      by_cases hi : g.degree i > s.2
      · rw [if_pos hi]
        constructor
        · intro h
          cases h
        · intro r hr
          obtain rfl := Option.some.inj hr
          exact ⟨rfl, by omega⟩
      · rw [if_neg hi]
        constructor
        · intro h
          obtain ⟨hdeg, hzero⟩ := hnone h
          refine ⟨hdeg, fun j hj => ?_⟩
          rcases List.mem_append.mp hj with hold | hone
          · exact hzero j hold
          · rw [List.mem_singleton] at hone
            subst hone
            omega
        · exact hsome
  obtain ⟨hnone, hsome⟩ := hfold (List.range g.size)
  rw [hpick]
  split
  · next h => exact fun i hi => (hnone h).2 i (List.mem_range.mpr hi)
  · next r h => exact (hsome r h).2

/-- Every register of the stack was pushed while its degree was low. -/
def PushedLow (g0 : Graph) (numColors : BitVec 32) (stack : List Nat) : Prop :=
  ∀ i r, stack[i]? = some r →
    ((stack.take i).foldl Graph.remove g0).degree r < (2 + numColors).toNat

theorem PushedLow.push {g0 g : Graph} {numColors : BitVec 32} {stack : List Nat} {r : Nat}
    (h : PushedLow g0 numColors stack) (hrem : Removed g0 g stack)
    (hlow : g.degree r < (2 + numColors).toNat) : PushedLow g0 numColors (stack ++ [r]) := by
  intro i q hi
  by_cases hlt : i < stack.length
  · rw [List.getElem?_append_left hlt] at hi
    rw [List.take_append_of_le_length (by omega)]
    exact h i q hi
  · have hbound := (List.getElem?_eq_some_iff.mp hi).1
    simp only [List.length_append, List.length_singleton] at hbound
    have hlast : i = stack.length := by omega
    subst hlast
    rw [List.take_left, ← hrem.fold]
    rw [List.getElem?_append_right (by omega), Nat.sub_self, List.getElem?_cons_zero] at hi
    exact Option.some.inj hi ▸ hlow

/-- What the inner loop leaves: more removed registers, and no register of low degree. -/
theorem removeLow_spec {g0 g : Graph} {stack : List Nat} (numColors : BitVec 32)
    (hself : SelfConnected g0) (h : Removed g0 g stack) (fuel : Nat)
    (hfuel : g0.size < fuel + stack.length) :
    let s := removeLow numColors fuel (g, stack)
    Removed g0 s.1 s.2 ∧ stack.length ≤ s.2.length ∧ findDegreeLessThan s.1 numColors = none ∧
      (PushedLow g0 numColors stack → PushedLow g0 numColors s.2) := by
  induction fuel generalizing g stack with
  | zero =>
      have := h.length_le
      omega
  | succ fuel ih =>
      simp only [removeLow]
      cases hfind : findDegreeLessThan g numColors with
      | none => exact ⟨h, le_refl _, hfind, id⟩
      | some r =>
          obtain ⟨-, hpos, hlow⟩ := findDegreeLessThan_some hfind
          have hpush := h.push hself (r := r) (by omega)
          have hrest := ih hpush (by rw [List.length_append, List.length_singleton]; omega)
          simp only [List.length_append, List.length_singleton] at hrest
          exact ⟨hrest.1, (Nat.le_succ _).trans hrest.2.1, hrest.2.2.1, fun hp => hrest.2.2.2 (hp.push h hlow)⟩

/-- The outer loop pushes every register. -/
theorem removeAll_spec {g0 g : Graph} {stack : List Nat} (numColors : BitVec 32)
    (hself : SelfConnected g0) (h : Removed g0 g stack) (fuel : Nat)
    (hfuel : g0.size < fuel + stack.length) :
    let s := removeAll numColors fuel (g, stack)
    Removed g0 s.1 s.2 ∧ ∀ r < g0.size, r ∈ s.2 := by
  induction fuel generalizing g stack with
  | zero =>
      have := h.length_le
      omega
  | succ fuel ih =>
      have hlow := removeLow_spec numColors hself h (g.size + 1) (by rw [h.size]; omega)
      simp only [removeAll]
      generalize removeLow numColors (g.size + 1) (g, stack) = s at hlow ⊢
      obtain ⟨g', stack'⟩ := s
      obtain ⟨hrem, hlen, -, -⟩ := hlow
      have hpick := pick_spec g'
      cases hp : pick g' with
      | none =>
          rw [hp] at hpick
          refine ⟨hrem, fun r hr => ?_⟩
          by_contra hnot
          exact (hrem.degree_ne_zero hself r).mpr ⟨hr, hnot⟩ (hpick r (by rw [hrem.size]; exact hr))
      | some r =>
          rw [hp] at hpick
          simp only at hlen
          exact ih (hrem.push hself hpick) (by
            rw [List.length_append, List.length_singleton]
            change g0.size < fuel + (stack'.length + 1)
            omega)

/-! ## The second phase: coloring the registers -/

/-- The registers in `R` are back in the graph and colored. -/
structure Colored (g2 : Graph) (R : Finset Nat) (a : Allocator) : Prop where
  copy : a.g2 = g2
  wf : a.g.WF
  size : a.g.size = g2.size
  adj : ∀ x y, a.g.Adj x y ↔ g2.Adj x y ∧ x ∈ R ∧ y ∈ R
  length : a.colors.length = g2.size
  avail : a.availColors.size = g2.size
  colored : ∀ r ∈ R, ∃ c < g2.size, colorAt a.colors r = some c
  uncolored : ∀ r < g2.size, r ∉ R → colorAt a.colors r = none
  proper : Colouring.ProperOn g2.Adj (R : Set Nat) (colorAt a.colors)

theorem size_useColor (avail : BitSet) (color : Option Nat) :
    (useColor avail color).size = avail.size := by
  cases color <;> simp [useColor]

theorem get_useColor (avail : BitSet) (color : Option Nat) (c : Nat) :
    (useColor avail color).get c = true ↔ avail.get c = true ∧ color ≠ some c := by
  cases color with
  | none => simp [useColor]
  | some used =>
      by_cases hlt : used < avail.size
      · rw [useColor, BitSet.get_set _ _ _ _ hlt]
        by_cases hc : c = used
        · simp [hc]
        · have hne : used ≠ c := fun h => hc h.symm
          simp [hc, hne]
      · rw [useColor, BitSet.get_set_of_ge _ _ _ (by omega)]
        constructor
        · intro hget
          have := BitSet.get_lt hget
          refine ⟨hget, fun he => ?_⟩
          have := Option.some.inj he
          omega
        · exact fun h => h.1

theorem colorAt_set (colors : List (Option Nat)) (reg x : Nat) (color : Option Nat)
    (h : reg < colors.length) :
    colorAt (colors.set reg color) x = if x = reg then color else colorAt colors x := by
  simp only [colorAt, List.getD_eq_getElem?_getD]
  by_cases hx : x = reg
  · subst hx
    rw [List.getElem?_set_self h, if_pos rfl, Option.getD_some]
  · rw [List.getElem?_set_ne (fun he => hx he.symm), if_neg hx]

/-- The graph and the colors after some neighbors of `reg` were looked at. The register itself,
which is its own neighbor, may have got its self-edge back; it has no color yet. -/
theorem reconnect_spec {g2 : Graph} {R : Finset Nat} {a : Allocator} (h : Colored g2 R a)
    (hself : SelfConnected g2) {reg : Nat} (hreg : reg < g2.size) (hnew : reg ∉ R)
    (avail : BitSet) (nbs : List Nat)
    (hnbs : ∀ nb ∈ nbs, g2.Adj reg nb) :
    let s := nbs.foldl (reconnect a.colors reg) (a.g, avail)
    s.1.WF ∧ s.1.size = g2.size ∧ s.2.size = avail.size ∧
      (∃ self : Prop, ∀ x y, s.1.Adj x y ↔ a.g.Adj x y ∨
        (x = reg ∧ y ∈ nbs ∧ y ∈ R) ∨ (y = reg ∧ x ∈ nbs ∧ x ∈ R) ∨
        (self ∧ x = reg ∧ y = reg)) ∧
      ∀ c, s.2.get c = true ↔
        avail.get c = true ∧ ∀ nb ∈ nbs, nb ∈ R → colorAt a.colors nb ≠ some c := by
  induction nbs using List.reverseRecOn with
  | nil => exact ⟨h.wf, h.size, rfl, ⟨False, by simp⟩, by simp⟩
  | append_singleton nbs nb ih =>
      have hprev := ih (fun x hx => hnbs x (List.mem_append_left _ hx))
      have hnb := hnbs nb (by simp)
      simp only [List.foldl_append, List.foldl_cons, List.foldl_nil]
      generalize nbs.foldl (reconnect a.colors reg) (a.g, avail) = s at hprev ⊢
      obtain ⟨g, avail'⟩ := s
      obtain ⟨hwf, hsize, hasize, ⟨self, hadj⟩, hget⟩ := hprev
      simp only at hwf hsize hasize hadj hget ⊢
      have hpresent : nb ≠ reg → (g.degree nb ≠ 0 ↔ nb ∈ R) := by
        intro hne
        rw [hwf.degree_ne_zero]
        constructor
        · rintro ⟨b, hb⟩
          rcases (hadj nb b).mp hb with hold | ⟨hx, -⟩ | ⟨-, -, hx⟩ | ⟨-, hx, -⟩
          · exact ((h.adj nb b).mp hold).2.1
          · exact absurd hx hne
          · exact hx
          · exact absurd hx hne
        · intro hin
          exact ⟨nb, (hadj nb nb).mpr (.inl ((h.adj nb nb).mpr ⟨hself nb hnb.2.1, hin, hin⟩))⟩
      by_cases hdeg : g.degree nb ≠ 0
      · have hset := Graph.adj_set hwf true (a := reg) (b := nb) (by omega)
          (by have := hnb.2.1; omega)
        simp only [reconnect, hdeg, if_true, ne_eq, not_false_eq_true]
        refine ⟨Graph.wf_set hwf _ _ _, by rw [Graph.size_set, hsize],
          by rw [size_useColor, hasize], ⟨self ∨ nb = reg, fun x y => ?_⟩, fun c => ?_⟩
        · rw [hset]
          by_cases hedge : Graph.IsEdge reg nb x y
          · rw [if_pos hedge]
            have hin : nb ≠ reg → nb ∈ R := fun hne => (hpresent hne).mp hdeg
            by_cases hne : nb = reg
            · rcases hedge with ⟨rfl, rfl⟩ | ⟨rfl, rfl⟩ <;> simp [hne]
            · rcases hedge with ⟨rfl, rfl⟩ | ⟨rfl, rfl⟩ <;> simp [hin hne]
          · rw [if_neg hedge, hadj]
            simp only [Graph.IsEdge, not_or, not_and] at hedge
            simp only [List.mem_append, List.mem_singleton]
            grind
        · have hnone : nb ∉ R → colorAt a.colors nb ≠ some c := by
            intro hout
            simp [h.uncolored nb hnb.2.1 hout]
          rw [get_useColor, hget]
          simp only [List.mem_append, List.mem_singleton]
          grind
      · have hout : nb ∉ R := by
          by_cases hne : nb = reg
          · exact hne ▸ hnew
          · exact fun hin => hdeg ((hpresent hne).mpr hin)
        simp only [reconnect, hdeg, if_false]
        refine ⟨hwf, hsize, hasize, ⟨self, fun x y => ?_⟩, fun c => ?_⟩
        · rw [hadj]
          simp only [List.mem_append, List.mem_singleton]
          grind
        · rw [hget]
          simp only [List.mem_append, List.mem_singleton]
          grind

/-- Keeping the hints of neighbors only takes colors away. -/
theorem get_keepHint_foldl (hints colors : List (Option Nat)) (nbs : List Nat) (avail : BitSet)
    (c : Nat) (h : (nbs.foldl (keepHint hints colors) avail).get c = true) :
    avail.get c = true := by
  induction nbs generalizing avail with
  | nil => exact h
  | cons nb nbs ih =>
      have hrest := ih _ h
      unfold keepHint at hrest
      split at hrest
      · exact ((get_useColor _ _ _).mp hrest).1
      · exact hrest

theorem size_keepHint_foldl (hints colors : List (Option Nat)) (nbs : List Nat)
    (avail : BitSet) : (nbs.foldl (keepHint hints colors) avail).size = avail.size := by
  induction nbs generalizing avail with
  | nil => rfl
  | cons nb nbs ih =>
      rw [List.foldl_cons, ih]
      unfold keepHint
      split
      · exact size_useColor _ _
      · rfl

/-- The color that satisfies the hints, when there is one, was available. -/
theorem trySatisfyHints_spec {g2 : Graph} (hwf : g2.WF) (hints colors : List (Option Nat))
    (reg : Nat) (avail : BitSet) :
    (trySatisfyHints g2 hints colors reg avail).2.size = avail.size ∧
      ∀ c, (trySatisfyHints g2 hints colors reg avail).1 = some c → avail.get c = true := by
  unfold trySatisfyHints
  simp only [Graph.eachNeighbor_eq hwf]
  split
  · rename_i hhint
    refine ⟨rfl, fun c hc => ?_⟩
    simp only at hc
    rw [hc] at hhint
    exact hhint
  · refine ⟨size_keepHint_foldl _ _ _ _, fun c hc => ?_⟩
    exact get_keepHint_foldl _ _ _ _ _ (BitSet.find_some hc).2.2.1

/-- The lowest available color when fewer than `k` colored neighbors are in the way. -/
theorem find_lowest {avail : BitSet} {N : Finset Nat} {color : Nat → Option Nat} {k : Nat}
    (hget : ∀ c, avail.get c = true ↔ c < avail.size ∧ ∀ nb ∈ N, color nb ≠ some c)
    (hcard : N.card < k) (hk : k ≤ avail.size) :
    ∃ c < k, avail.find 0 avail.size = some c := by
  obtain ⟨free, hlt, hfree⟩ := Colouring.exists_free_colour N color k hcard
  have hbit : avail.get free = true := (hget free).mpr ⟨by omega, hfree⟩
  cases hfind : avail.find 0 avail.size with
  | none =>
      have hzero := BitSet.find_none hfind free (by omega) (by omega)
      rw [hbit] at hzero
      cases hzero
  | some c =>
      obtain ⟨-, -, -, hfirst⟩ := BitSet.find_some hfind
      refine ⟨c, ?_, rfl⟩
      by_contra hge
      have hzero := hfirst free (by omega) (by omega)
      rw [hbit] at hzero
      cases hzero

/-- The color that is chosen is available, and below `numColors` if the lowest one is. -/
theorem chosen_spec (numColors : BitVec 32) {avail : BitSet} {color : Nat} {alt : Option Nat}
    (hcolor : avail.get color = true) (halt : ∀ c, alt = some c → avail.get c = true) :
    ∃ c, (if prefersAlt numColors (some color) alt then alt else some color) = some c ∧
      avail.get c = true ∧ (color < numColors.toNat → c < numColors.toNat) := by
  by_cases hp : prefersAlt numColors (some color) alt = true
  · rw [if_pos hp]
    cases alt with
    | none => simp [prefersAlt] at hp
    | some c =>
        refine ⟨c, rfl, halt c rfl, fun hlow => ?_⟩
        simp only [prefersAlt, Option.all_some, Bool.or_eq_true, decide_eq_true_eq] at hp
        omega
  · rw [if_neg hp]
    exact ⟨color, rfl, hcolor, id⟩

/-- One register is colored: with a color that no colored neighbor has, and with one below
`numColors` when fewer than `numColors` colored neighbors are in the way. -/
theorem assignColor_spec {g2 : Graph} {R : Finset Nat} {a : Allocator} (h : Colored g2 R a)
    (hwf2 : g2.WF) (hself : SelfConnected g2) (hR : ∀ r ∈ R, r < g2.size) {reg : Nat}
    (hreg : reg < g2.size) (hnew : reg ∉ R) (numColors : BitVec 32) :
    Colored g2 (insert reg R) (assignColor numColors a reg) ∧
      (assignColor numColors a reg).hints = a.hints ∧
      (assignColor numColors a reg).stack = a.stack ∧
      (∀ r ≠ reg, colorAt (assignColor numColors a reg).colors r = colorAt a.colors r) ∧
      ((R.filter (g2.Adj reg)).card < numColors.toNat →
        ∃ c < numColors.toNat, colorAt (assignColor numColors a reg).colors reg = some c) := by
  have hnbs : ∀ nb ∈ g2.neighborsFrom reg 0, g2.Adj reg nb :=
    fun nb hnb => Graph.mem_neighborsFrom.mp hnb
  have hloop := reconnect_spec h hself hreg hnew (a.availColors.fill true) _ hnbs
  have heach : a.g2.eachNeighbor reg (reconnect a.colors reg) (a.g, a.availColors.fill true) =
      (g2.neighborsFrom reg 0).foldl (reconnect a.colors reg)
        (a.g, a.availColors.fill true) := by
    rw [h.copy, Graph.eachNeighbor_eq hwf2]
  unfold assignColor
  rw [heach]
  generalize (g2.neighborsFrom reg 0).foldl (reconnect a.colors reg)
    (a.g, a.availColors.fill true) = s at hloop ⊢
  obtain ⟨g, avail⟩ := s
  obtain ⟨hwf, hsize, hasize, ⟨self, hadj⟩, hget⟩ := hloop
  simp only at hwf hsize hasize hadj hget ⊢
  have hasize' : avail.size = g2.size := by rw [hasize, BitSet.size_fill, h.avail]
  let N := R.filter (g2.Adj reg)
  have hfree : ∀ c, avail.get c = true ↔
      c < avail.size ∧ ∀ nb ∈ N, colorAt a.colors nb ≠ some c := by
    intro c
    rw [hget, BitSet.get_fill, h.avail, hasize']
    simp only [N, Finset.mem_filter, Graph.mem_neighborsFrom, and_imp]
    constructor
    · rintro ⟨hlt, hne⟩
      exact ⟨by by_contra hge; simp [hge] at hlt, fun nb hin hnb => hne nb hnb hin⟩
    · rintro ⟨hlt, hne⟩
      exact ⟨by simp [hlt], fun nb hnb hin => hne nb hin hnb⟩
  have hN : N.card < avail.size := by
    have hsub : N ⊆ (Finset.range g2.size).erase reg := by
      intro nb hnb
      have hin := (Finset.mem_filter.mp hnb).1
      exact Finset.mem_erase.mpr ⟨fun he => hnew (he ▸ hin), Finset.mem_range.mpr (hR nb hin)⟩
    have hcard := Finset.card_le_card hsub
    rw [Finset.card_erase_of_mem (Finset.mem_range.mpr hreg), Finset.card_range] at hcard
    omega
  obtain ⟨low, hlow, hfind⟩ := find_lowest hfree hN (le_refl _)
  have hlowget := (BitSet.find_some hfind).2.2.1
  -- the color that satisfies the hints
  have hhints : (if a.hints.length ≠ 0 then trySatisfyHints a.g2 a.hints a.colors reg avail
      else (none, avail)).2.size = avail.size ∧
      ∀ c, (if a.hints.length ≠ 0 then trySatisfyHints a.g2 a.hints a.colors reg avail
        else (none, avail)).1 = some c → avail.get c = true := by
    split
    · exact trySatisfyHints_spec (h.copy ▸ hwf2) _ _ _ _
    · exact ⟨rfl, fun c hc => by cases hc⟩
  generalize (if a.hints.length ≠ 0 then trySatisfyHints a.g2 a.hints a.colors reg avail
    else (none, avail)) = p at hhints ⊢
  obtain ⟨alt, avail'⟩ := p
  obtain ⟨c, hc, hcget, hclow⟩ := chosen_spec numColors hlowget hhints.2
  rw [hfind]
  simp only [hc]
  have hcolor := colorAt_set a.colors reg
  have hother : ∀ r ≠ reg, colorAt (a.colors.set reg (some c)) r = colorAt a.colors r := by
    intro r hr
    rw [hcolor r (some c) (by rw [h.length]; exact hreg), if_neg hr]
  have hthis : colorAt (a.colors.set reg (some c)) reg = some c := by
    rw [hcolor reg (some c) (by rw [h.length]; exact hreg), if_pos rfl]
  refine ⟨?_, trivial, trivial, hother, fun hcard => ?_⟩
  · have hclt : c < g2.size := hasize' ▸ BitSet.get_lt hcget
    have hregsize : reg < g.size := by omega
    have hset := Graph.adj_set hwf true hregsize hregsize
    refine ⟨h.copy, Graph.wf_set hwf _ _ _, by rw [Graph.size_set, hsize], fun x y => ?_,
      by rw [List.length_set, h.length], by rw [hhints.1, hasize'], ?_, ?_, ?_⟩
    · rw [hset]
      have hregreg := hself reg hreg
      by_cases hedge : Graph.IsEdge reg reg x y
      · rw [if_pos hedge]
        rcases hedge with ⟨rfl, rfl⟩ | ⟨rfl, rfl⟩ <;> simp [hregreg]
      · rw [if_neg hedge, hadj, h.adj]
        simp only [Graph.IsEdge, or_self, not_and] at hedge
        simp only [Graph.mem_neighborsFrom, Finset.mem_insert]
        have hsymm := hwf2.symm
        grind
    · intro r hr
      by_cases hrr : r = reg
      · exact ⟨c, hclt, by rw [hrr, hthis]⟩
      · rw [hother r hrr]
        exact h.colored r ((Finset.mem_insert.mp hr).resolve_left hrr)
    · intro r hr hout
      have hrr : r ≠ reg := fun he => hout (he ▸ Finset.mem_insert_self _ _)
      rw [hother r hrr]
      exact h.uncolored r hr (fun hin => hout (Finset.mem_insert_of_mem hin))
    · rw [Finset.coe_insert]
      refine h.proper.insert hwf2.symm (fun r hr => hother r ?_) (fun r hr hne hnb => ?_)
      · exact fun he => hnew (he ▸ hr)
      · rw [hthis]
        exact ((hfree c).mp hcget).2 r (Finset.mem_filter.mpr ⟨hr, hnb⟩) |>.symm
  · have hmin : N.card < min numColors.toNat avail.size := lt_min hcard hN
    obtain ⟨low', hlow', hfind'⟩ := find_lowest hfree hmin (min_le_right _ _)
    rw [hfind] at hfind'
    obtain rfl := Option.some.inj hfind'
    exact ⟨c, hclow (lt_of_lt_of_le hlow' (min_le_left _ _)), hthis⟩

/-- The registers of `l` are colored one after the other. A register that has fewer than
`numColors` neighbors among those before it gets a color below `numColors`. -/
theorem assignColor_foldl {g2 : Graph} (hwf2 : g2.WF) (hself : SelfConnected g2)
    (numColors : BitVec 32) (l : List Nat) {R : Finset Nat} {a : Allocator}
    (h : Colored g2 R a) (hR : ∀ r ∈ R, r < g2.size) (hl : ∀ r ∈ l, r < g2.size ∧ r ∉ R)
    (hnodup : l.Nodup) :
    let b := l.foldl (assignColor numColors) a
    Colored g2 (R ∪ l.toFinset) b ∧ b.hints = a.hints ∧ b.stack = a.stack ∧
      (∀ r ∈ R, colorAt b.colors r = colorAt a.colors r) ∧
      ∀ before r after, l = before ++ r :: after →
        ((R ∪ before.toFinset).filter (g2.Adj r)).card < numColors.toNat →
        ∃ c < numColors.toNat, colorAt b.colors r = some c := by
  induction l generalizing R a with
  | nil =>
      refine ⟨by simpa using h, rfl, rfl, fun _ _ => rfl, fun before r after hsplit => ?_⟩
      simp at hsplit
  | cons reg l ih =>
      obtain ⟨hreg, hnew⟩ := hl reg (by simp)
      obtain ⟨hcol, hhints, hstack, hother, hlow⟩ :=
        assignColor_spec h hwf2 hself hR hreg hnew numColors
      have hnot : reg ∉ l := (List.nodup_cons.mp hnodup).1
      have hR' : ∀ r ∈ insert reg R, r < g2.size := by
        intro r hr
        rcases Finset.mem_insert.mp hr with rfl | hin
        · exact hreg
        · exact hR r hin
      have hl' : ∀ r ∈ l, r < g2.size ∧ r ∉ insert reg R := by
        intro r hr
        have hold := hl r (List.mem_cons_of_mem _ hr)
        refine ⟨hold.1, fun hin => ?_⟩
        rcases Finset.mem_insert.mp hin with rfl | hin
        · exact hnot hr
        · exact hold.2 hin
      obtain ⟨hfcol, hfhints, hfstack, hfkeep, hflow⟩ :=
        ih hcol hR' hl' (List.nodup_cons.mp hnodup).2
      have hunion : insert reg R ∪ l.toFinset = R ∪ (reg :: l).toFinset := by
        rw [List.toFinset_cons, Finset.insert_union, Finset.union_insert]
      simp only [List.foldl_cons]
      refine ⟨hunion ▸ hfcol, hfhints.trans hhints, hfstack.trans hstack, ?_, ?_⟩
      · intro r hr
        rw [hfkeep r (Finset.mem_insert_of_mem hr), hother r (fun he => hnew (he ▸ hr))]
      · intro before r after hsplit hcard
        cases before with
        | nil =>
            obtain ⟨rfl, rfl⟩ := List.cons.inj hsplit
            rw [hfkeep reg (Finset.mem_insert_self _ _)]
            exact hlow (by simpa using hcard)
        | cons first before =>
            obtain ⟨rfl, rfl⟩ := List.cons.inj hsplit
            refine hflow before r after rfl ?_
            rwa [List.toFinset_cons, Finset.union_insert, ← Finset.insert_union] at hcard

/-! ## A whole allocation -/

/-- The arrays of the allocator have one element for each register. -/
structure Valid (a : Allocator) : Prop where
  wf : a.g.WF
  colors : a.colors.length = a.size
  avail : a.availColors.size = a.size

theorem init_spec {a : Allocator} (h : a.Valid) :
    a.init.g.WF ∧ a.init.g.size = a.size ∧ a.init.g2 = a.init.g ∧ SelfConnected a.init.g ∧
      (∀ x y, x ≠ y → (a.init.g.Adj x y ↔ a.g.Adj x y)) ∧
      a.init.colors.length = a.size ∧ ∀ r < a.size, colorAt a.init.colors r = none := by
  have hloop : ∀ l : List Nat, (∀ r ∈ l, r < a.size) →
      let s := l.foldl initReg (a.g, a.colors)
      s.1.WF ∧ s.1.size = a.size ∧
        (∀ x y, s.1.Adj x y ↔ a.g.Adj x y ∨ (x = y ∧ x ∈ l)) ∧
        s.2.length = a.size ∧ ∀ r ∈ l, colorAt s.2 r = none := by
    intro l
    induction l using List.reverseRecOn with
    | nil => exact fun _ => ⟨h.wf, rfl, by simp, h.colors, by simp⟩
    | append_singleton l reg ih =>
        intro hl
        have hprev := ih (fun r hr => hl r (List.mem_append_left _ hr))
        have hreg := hl reg (by simp)
        rw [List.foldl_append, List.foldl_cons, List.foldl_nil]
        generalize l.foldl initReg (a.g, a.colors) = s at hprev ⊢
        obtain ⟨g, colors⟩ := s
        obtain ⟨hwf, hsize, hadj, hlen, hnone⟩ := hprev
        simp only [initReg] at hwf hsize hadj hlen hnone ⊢
        have hset := Graph.adj_set hwf true (a := reg) (b := reg) (by omega) (by omega)
        refine ⟨Graph.wf_set hwf _ _ _, by rw [Graph.size_set, hsize], fun x y => ?_,
          by rw [List.length_set, hlen], fun r hr => ?_⟩
        · rw [hset]
          by_cases hedge : Graph.IsEdge reg reg x y
          · rw [if_pos hedge]
            rcases hedge with ⟨rfl, rfl⟩ | ⟨rfl, rfl⟩ <;> simp
          · rw [if_neg hedge, hadj]
            simp only [Graph.IsEdge, or_self, not_and] at hedge
            simp only [List.mem_append, List.mem_singleton]
            grind
        · rw [colorAt_set _ _ _ _ (by omega)]
          split
          · rfl
          · rename_i hne
            rcases List.mem_append.mp hr with hold | hone
            · exact hnone r hold
            · exact absurd (List.mem_singleton.mp hone) hne
  obtain ⟨hwf, hsize, hadj, hlen, hnone⟩ :=
    hloop (List.range a.size) (fun r hr => List.mem_range.mp hr)
  unfold init
  generalize (List.range a.size).foldl initReg (a.g, a.colors) = s at *
  obtain ⟨g, colors⟩ := s
  simp only at hwf hsize hadj hlen hnone ⊢
  refine ⟨hwf, hsize, trivial, fun x hx => ?_, fun x y hxy => ?_, hlen, fun r hr => ?_⟩
  · exact (hadj x x).mpr (.inr ⟨rfl, List.mem_range.mpr (by omega)⟩)
  · rw [hadj]
    simp [hxy]
  · exact hnone r (List.mem_range.mpr hr)

/-- Removing any registers one after the other. -/
theorem removed_foldl {g0 : Graph} (hwf : g0.WF) (hself : SelfConnected g0) (l : List Nat)
    (hnodup : l.Nodup) (hl : ∀ r ∈ l, r < g0.size) :
    Removed g0 (l.foldl Graph.remove g0) l := by
  induction l using List.reverseRecOn with
  | nil => exact removed_nil hwf
  | append_singleton l r ih =>
      have hparts := List.nodup_append.mp hnodup
      have hprev := ih hparts.1 (fun x hx => hl x (List.mem_append_left _ hx))
      rw [List.foldl_append]
      refine hprev.push hself ((hprev.degree_ne_zero hself r).mpr ⟨hl r (by simp), ?_⟩)
      exact fun hin => hparts.2.2 r hin r (by simp) rfl

/-- The graph at the moment when the register at index `i` of the stack was pushed. -/
def graphAt (a : Allocator) (numColors : BitVec 32) (i : Nat) : Graph :=
  ((a.allocateRegs numColors).stack.take i).foldl Graph.remove a.init.g

/-- The color of a register after an allocation. -/
def color (a : Allocator) (r : Nat) : Option Nat := colorAt a.colors r

/-- What an allocation does. -/
structure Allocated (a b : Allocator) (numColors : BitVec 32) : Prop where
  valid : b.Valid
  size : b.size = a.size
  stack : b.stack = (removeAll numColors (a.init.size + 1) (a.init.g, [])).2
  adj : ∀ x y, x ≠ y → (b.g.Adj x y ↔ a.g.Adj x y)
  colored : ∀ r < a.size, ∃ c < a.size, b.color r = some c
  proper : Colouring.ProperOn a.g.Adj {r | r < a.size} b.color
  low : ∀ i r, b.stack[i]? = some r →
    ((b.stack.take i).foldl Graph.remove a.init.g).degree r < 2 + numColors.toNat →
    ∃ c < numColors.toNat, b.color r = some c

/-- When all registers are removed, none is back yet. -/
theorem Valid.colored_empty {a : Allocator} (h : a.Valid) {g : Graph} {stack : List Nat}
    (hrem : Removed a.init.g g stack) (hall : ∀ r < a.init.g.size, r ∈ stack) :
    Colored a.init.g ∅ { a.init with g := g, stack := stack } := by
  obtain ⟨-, hsize0, hcopy, -, -, hlen0, hnone0⟩ := init_spec h
  refine ⟨hcopy, hrem.wf, hrem.size, fun x y => ?_, by rw [hlen0, hsize0], ?_, by simp, ?_, ?_⟩
  · rw [hrem.adj]
    constructor
    · rintro ⟨hadj, hx, -⟩
      exact absurd (hall x hadj.1) hx
    · rintro ⟨-, hx, -⟩
      exact absurd hx (Finset.notMem_empty x)
  · exact h.avail.trans hsize0.symm
  · exact fun r hr _ => hnone0 r (hsize0 ▸ hr)
  · rw [Finset.coe_empty]
    exact Colouring.properOn_empty _ _

theorem allocateRegs_spec {a : Allocator} (h : a.Valid) (numColors : BitVec 32) :
    Allocated a (a.allocateRegs numColors) numColors := by
  obtain ⟨hwf0, hsize0, hcopy, hself, hadj0, hlen0, hnone0⟩ := init_spec h
  have hremove := removeAll_spec numColors hself (removed_nil hwf0) (a.init.size + 1)
    (by unfold size; simp)
  simp only [allocateRegs]
  generalize hs : removeAll numColors (a.init.size + 1) (a.init.g, []) = s at hremove ⊢
  obtain ⟨g, stack⟩ := s
  obtain ⟨hrem, hall⟩ := hremove
  simp only at hrem hall ⊢
  have hstart := h.colored_empty hrem hall
  have hrev : ∀ r ∈ stack.reverse, r < a.init.g.size ∧ r ∉ (∅ : Finset Nat) :=
    fun r hr => ⟨hrem.bound r (List.mem_reverse.mp hr), Finset.notMem_empty r⟩
  obtain ⟨hcol, -, hstack, -, hlow⟩ := assignColor_foldl hwf0 hself numColors stack.reverse
    hstart (by simp) hrev (List.nodup_reverse.mpr hrem.nodup)
  have hin : ∀ r, r < a.size → r ∈ ((∅ : Finset Nat) ∪ stack.reverse.toFinset) := by
    intro r hr
    simp [hall r (hsize0.symm ▸ hr)]
  change Allocated a (stack.reverse.foldl (assignColor numColors)
    { a.init with g := g, stack := stack }) numColors
  generalize stack.reverse.foldl (assignColor numColors)
    { a.init with g := g, stack := stack } = b at *
  have hsize : b.size = a.size := hcol.size.trans hsize0
  refine ⟨⟨hcol.wf, hcol.length.trans hcol.size.symm, hcol.avail.trans hcol.size.symm⟩,
    hsize, by rw [hs]; exact hstack, fun x y hxy => ?_, fun r hr => ?_, ?_,
    fun i r hi hdeg => ?_⟩
  · rw [hcol.adj, hadj0 x y hxy]
    refine ⟨fun hx => hx.1, fun hx => ⟨hx, hin x hx.1, hin y hx.2.1⟩⟩
  · obtain ⟨c, hc, hcolor⟩ := hcol.colored r (hin r hr)
    exact ⟨c, hsize0 ▸ hc, hcolor⟩
  · intro x hx y hy hxy hadj
    exact hcol.proper x (hin x hx) y (hin y hy) hxy ((hadj0 x y hxy).mpr hadj)
  · -- the neighbors that are back are those that were left at the push
    rw [hstack] at hi hdeg
    simp only at hi hdeg
    have hlt := (List.getElem?_eq_some_iff.mp hi).1
    have hget := (List.getElem?_eq_some_iff.mp hi).2
    have hsplit : stack = stack.take i ++ r :: stack.drop (i + 1) := by
      rw [← hget, List.cons_getElem_drop_succ, List.take_append_drop]
    have hnodup := hrem.nodup
    rw [hsplit] at hnodup
    have hparts := List.nodup_append.mp hnodup
    have hbefore := removed_foldl hwf0 hself (stack.take i) hparts.1
      (fun x hx => hrem.bound x (List.mem_of_mem_take hx))
    have hrnot : r ∉ stack.take i := fun hr => hparts.2.2 r hr r (by simp) rfl
    have hrlt : r < a.init.g.size := hrem.bound r (List.mem_of_getElem? hi)
    have hsplitrev : stack.reverse =
        (stack.drop (i + 1)).reverse ++ r :: (stack.take i).reverse := by
      conv_lhs => rw [hsplit]
      simp
    refine hlow _ r _ hsplitrev ?_
    have hselfr := hself r hrlt
    have hsub : insert r ((∅ ∪ (stack.drop (i + 1)).reverse.toFinset).filter (a.init.g.Adj r)) ⊆
        ((stack.take i).foldl Graph.remove a.init.g).neighbors r := by
      intro y hy
      rw [Graph.mem_neighbors, hbefore.adj]
      rcases Finset.mem_insert.mp hy with rfl | hy
      · exact ⟨hselfr, hrnot, hrnot⟩
      · obtain ⟨hyin, hyadj⟩ := Finset.mem_filter.mp hy
        have hydrop : y ∈ stack.drop (i + 1) := by simpa using hyin
        refine ⟨hyadj, hrnot, fun hytake => ?_⟩
        exact hparts.2.2 y hytake y (List.mem_cons_of_mem _ hydrop) rfl
    have hcard := Finset.card_le_card hsub
    have hrout : r ∉ (∅ ∪ (stack.drop (i + 1)).reverse.toFinset).filter (a.init.g.Adj r) := by
      intro hr
      have hrdrop : r ∈ stack.drop (i + 1) := by simpa using (Finset.mem_filter.mp hr).1
      exact (List.nodup_cons.mp hparts.2.1).1 hrdrop
    rw [Finset.card_insert_of_notMem hrout] at hcard
    rw [hbefore.wf.degree, if_pos ((hbefore.adj r r).mpr ⟨hselfr, hrnot, hrnot⟩)] at hdeg
    omega

/-! ## Any sequence of calls -/

/-- The calls on an allocator. -/
inductive Call
  | reset (numRegs : Nat)
  | connect (r1 r2 : Nat)
  | addHint (reg : Nat) (color : Option Nat)
  | allocateRegs (numColors : BitVec 32)

def Call.run (a : Allocator) : Call → Allocator
  | .reset numRegs => a.reset numRegs
  | .connect r1 r2 => a.connect r1 r2
  | .addHint reg color => a.addHint reg color
  | .allocateRegs numColors => a.allocateRegs numColors

/-- A new allocator after some calls. -/
def run (numRegs : Nat) (calls : List Call) : Allocator := calls.foldl Call.run (new numRegs)

/-- The pairs passed to `connect` since the last `reset`. -/
def connected (calls : List Call) : List (Nat × Nat) :=
  calls.foldl (fun pairs call => match call with
    | .reset _ => []
    | .connect r1 r2 => (r1, r2) :: pairs
    | _ => pairs) []

/-- Two registers interfere. -/
def Interfere (calls : List Call) (x y : Nat) : Prop :=
  (x, y) ∈ connected calls ∨ (y, x) ∈ connected calls

theorem valid_fresh {a : Allocator} {n : Nat} (hg : a.g = .reset n) (hc : a.colors.length = n)
    (ha : a.availColors.size = n) : a.Valid := by
  have hsize : a.size = n := by rw [size, hg, Graph.size_reset]
  exact ⟨hg ▸ Graph.wf_reset n, hc.trans hsize.symm, ha.trans hsize.symm⟩

theorem length_resize {α : Type} (zero : α) (xs : List α) (n : Nat) :
    (resize zero xs n).length = n := by
  simp [resize]
  omega

/-- After any calls the allocator is valid, and its graph connects distinct registers exactly
when they interfere. -/
theorem run_spec (numRegs : Nat) (calls : List Call) :
    (run numRegs calls).Valid ∧ ∀ x y, x ≠ y → ((run numRegs calls).g.Adj x y ↔
      x < (run numRegs calls).size ∧ y < (run numRegs calls).size ∧ Interfere calls x y) := by
  induction calls using List.reverseRecOn with
  | nil =>
      refine ⟨valid_fresh rfl (by simp [run, new]) (by simp [run, new, BitSet.size]),
        fun x y _ => ?_⟩
      simp only [Interfere, connected, List.foldl_nil, List.not_mem_nil, or_self, and_false,
        iff_false]
      exact Graph.not_adj_reset _ _ _
  | append_singleton calls call ih =>
      obtain ⟨hvalid, hadj⟩ := ih
      have hrun : run numRegs (calls ++ [call]) = call.run (run numRegs calls) := by
        simp [run]
      rw [hrun]
      generalize run numRegs calls = a at hvalid hadj ⊢
      cases call with
      | reset n =>
          refine ⟨valid_fresh rfl (length_resize _ _ _) (BitSet.size_resize _ _), fun x y _ => ?_⟩
          have hnone : ¬ Interfere (calls ++ [.reset n]) x y := by
            simp [Interfere, connected]
          simp only [hnone, and_false, iff_false]
          exact Graph.not_adj_reset _ _ _
      | connect r1 r2 =>
          have hpairs : ∀ x y, Interfere (calls ++ [.connect r1 r2]) x y ↔
              Graph.IsEdge r1 r2 x y ∨ Interfere calls x y := by
            intro x y
            simp only [Interfere, connected, List.foldl_append, List.foldl_cons, List.foldl_nil,
              List.mem_cons, Prod.mk.injEq, Graph.IsEdge]
            grind
          have hsize : (Call.run a (.connect r1 r2)).size = a.size := Graph.size_set _ _ _ _
          refine ⟨⟨Graph.wf_set hvalid.wf _ _ _, by rw [hsize]; exact hvalid.colors,
            by rw [hsize]; exact hvalid.avail⟩, fun x y hxy => ?_⟩
          rw [hpairs, hsize]
          by_cases hb : r1 < a.g.size ∧ r2 < a.g.size
          · have hset := Graph.adj_set hvalid.wf true hb.1 hb.2 x y
            by_cases hedge : Graph.IsEdge r1 r2 x y
            · rw [if_pos hedge] at hset
              have hlt : x < a.size ∧ y < a.size := by
                rcases hedge with ⟨rfl, rfl⟩ | ⟨rfl, rfl⟩
                · exact hb
                · exact hb.symm
              simp only [hedge, true_or, and_true]
              exact ⟨fun _ => hlt, fun _ => hset.mpr rfl⟩
            · rw [if_neg hedge] at hset
              simp only [hedge, false_or]
              exact hset.trans (hadj x y hxy)
          · have hsame : (Call.run a (.connect r1 r2)).g = a.g := Graph.set_of_ge _ hb
            rw [hsame, hadj x y hxy]
            constructor
            · exact fun h => ⟨h.1, h.2.1, .inr h.2.2⟩
            · rintro ⟨hx, hy, hedge | hold⟩
              · rcases hedge with ⟨rfl, rfl⟩ | ⟨rfl, rfl⟩
                · exact absurd ⟨hx, hy⟩ hb
                · exact absurd ⟨hy, hx⟩ hb
              · exact ⟨hx, hy, hold⟩
      | addHint reg color =>
          refine ⟨⟨hvalid.wf, hvalid.colors, hvalid.avail⟩, fun x y hxy => ?_⟩
          have hsame : Interfere (calls ++ [.addHint reg color]) x y ↔ Interfere calls x y := by
            simp [Interfere, connected]
          rw [hsame]
          exact hadj x y hxy
      | allocateRegs numColors =>
          have hspec := allocateRegs_spec hvalid numColors
          refine ⟨hspec.valid, fun x y hxy => ?_⟩
          have hsize : (Call.run a (.allocateRegs numColors)).size = a.size := hspec.size
          have hsame : Interfere (calls ++ [.allocateRegs numColors]) x y ↔ Interfere calls x y := by
            simp [Interfere, connected]
          rw [hsize, hsame]
          exact (hspec.adj x y hxy).trans (hadj x y hxy)

/-- After any calls, an allocation gives every register a color, and interfering registers
different ones. -/
theorem allocateRegs_proper (numRegs : Nat) (calls : List Call) (numColors : BitVec 32) :
    let a := (run numRegs calls).allocateRegs numColors
    (∀ r < a.size, a.color r ≠ none) ∧
      ∀ x y, x < a.size → y < a.size → x ≠ y → Interfere calls x y → a.color x ≠ a.color y := by
  obtain ⟨hvalid, hadj⟩ := run_spec numRegs calls
  have hspec := allocateRegs_spec hvalid numColors
  simp only [hspec.size]
  refine ⟨fun r hr => ?_, fun x y hx hy hxy hint => ?_⟩
  · obtain ⟨c, -, hc⟩ := hspec.colored r hr
    simp [hc]
  · exact hspec.proper x hx y hy hxy ((hadj x y hxy).mpr ⟨hx, hy, hint⟩)

/-- The number of other registers that the register at index `i` of the stack was connected to
when it was pushed: its degree without the two ends of its self-edge. -/
def remainingDegree (a : Allocator) (numColors : BitVec 32) (i r : Nat) : Nat :=
  (a.graphAt numColors i).degree r - 2

/-- Some hints are added. -/
def addHints (a : Allocator) (hints : List (Nat × Option Nat)) : Allocator :=
  hints.foldl (fun a hint => a.addHint hint.1 hint.2) a

theorem addHints_spec (a : Allocator) (hints : List (Nat × Option Nat)) :
    (a.addHints hints).init.g = a.init.g ∧ (a.addHints hints).init.size = a.init.size ∧
      (a.Valid → (a.addHints hints).Valid) := by
  induction hints generalizing a with
  | nil => exact ⟨rfl, rfl, id⟩
  | cons hint hints ih =>
      have hrest := ih (a.addHint hint.1 hint.2)
      exact ⟨hrest.1, hrest.2.1, fun h => hrest.2.2 ⟨h.wf, h.colors, h.avail⟩⟩

/-- The register has a color below `numColors`. -/
def ColoredBelow (b : Allocator) (numColors : BitVec 32) (r : Nat) : Prop :=
  ∃ c < numColors.toNat, b.color r = some c

theorem Valid.low {a : Allocator} (h : a.Valid) (numColors : BitVec 32) {i r : Nat}
    (hi : (a.allocateRegs numColors).stack[i]? = some r)
    (hrem : a.remainingDegree numColors i r < numColors.toNat) :
    (a.allocateRegs numColors).ColoredBelow numColors r := by
  refine (allocateRegs_spec h numColors).low i r hi ?_
  unfold remainingDegree graphAt at hrem
  omega

/-- No register is spilled when the inner loop removes them all. -/
theorem Valid.low_of_pick {a : Allocator} (h : a.Valid) (numColors : BitVec 32)
    (hpick : pick (removeLow numColors (a.init.g.size + 1) (a.init.g, [])).1 = none)
    {r : Nat} (hr : r < a.size) : (a.allocateRegs numColors).ColoredBelow numColors r := by
  have hspec := allocateRegs_spec h numColors
  obtain ⟨hwf0, hsize0, -, hself, -⟩ := init_spec h
  have hinner := removeLow_spec numColors hself (removed_nil hwf0) (a.init.g.size + 1) (by simp)
  have hall := removeAll_spec numColors hself (removed_nil hwf0) (a.init.size + 1)
    (by unfold size; simp)
  have hstack : (a.allocateRegs numColors).stack =
      (removeLow numColors (a.init.g.size + 1) (a.init.g, [])).2 := by
    rw [hspec.stack, removeAll]
    simp only [hpick]
  have hmem := hall.2 r (by omega)
  rw [← hspec.stack] at hmem
  obtain ⟨i, hi⟩ := List.getElem?_of_mem hmem
  refine hspec.low i r hi ?_
  rw [hstack] at hi ⊢
  have hpushed := hinner.2.2.2 (by intro i r h; simp at h) i r hi
  have hwrap : (2 + numColors).toNat ≤ 2 + numColors.toNat := by
    rw [BitVec.toNat_add]
    exact Nat.mod_le _ _
  omega

/-- Hints do not change the order of removal, so they do not change who is spilled needlessly. -/
theorem Valid.low_addHints {a : Allocator} (h : a.Valid) (numColors : BitVec 32)
    (hints : List (Nat × Option Nat)) {i r : Nat}
    (hi : (a.allocateRegs numColors).stack[i]? = some r)
    (hrem : a.remainingDegree numColors i r < numColors.toNat) :
    ((a.addHints hints).allocateRegs numColors).ColoredBelow numColors r := by
  obtain ⟨hg, hsize, hvalid⟩ := addHints_spec a hints
  have hstack : ((a.addHints hints).allocateRegs numColors).stack =
      (a.allocateRegs numColors).stack := by
    rw [(allocateRegs_spec (hvalid h) numColors).stack, (allocateRegs_spec h numColors).stack,
      hg, hsize]
  have hi' : ((a.addHints hints).allocateRegs numColors).stack[i]? = some r := by
    rw [hstack, hi]
  apply (hvalid h).low numColors hi'
  rw [remainingDegree, graphAt, hstack, hg]
  exact hrem

/-- A register with fewer than `numColors` remaining neighbors is not spilled, with or without
hints; in particular no register is when the inner loop removes them all. -/
theorem allocateRegs_low (numRegs : Nat) (calls : List Call) (numColors : BitVec 32) :
    let a := run numRegs calls
    let b := a.allocateRegs numColors
    (∀ i r, b.stack[i]? = some r → a.remainingDegree numColors i r < numColors.toNat →
      b.ColoredBelow numColors r) ∧
    (pick (removeLow numColors (a.init.g.size + 1) (a.init.g, [])).1 = none →
      ∀ r < b.size, b.ColoredBelow numColors r) ∧
    (∀ hints i r, b.stack[i]? = some r → a.remainingDegree numColors i r < numColors.toNat →
      b.ColoredBelow numColors r →
      ((a.addHints hints).allocateRegs numColors).ColoredBelow numColors r) := by
  have hvalid := (run_spec numRegs calls).1
  refine ⟨fun i r hi hrem => hvalid.low numColors hi hrem, fun hpick r hr => ?_,
    fun hints i r hi hrem _ => hvalid.low_addHints numColors hints hi hrem⟩
  rw [(allocateRegs_spec hvalid numColors).size] at hr
  exact hvalid.low_of_pick numColors hpick hr

end Allocator

end OneJit
