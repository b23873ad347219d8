import OneJit.FlowGraphEdges
import OneJit.FuncSimulation

/-!
# Runs along a flow graph

A list of nodes is accepted exactly when every jump in it finds its label. Where the links are
exact, a run of the nodes passes from block to block along them; a compiled function is always
accepted.
-/

namespace OneJit

open FlatCode Segments Stmt

namespace FlowGraph

variable {nodes : List Stmt} {g : FlowGraph}

/-! ## Accepted lists -/

/-- Every jump goes to a label that is placed. -/
def Finds (nodes : List Stmt) : Prop :=
  ∀ st ∈ nodes, st.isJump → ∀ l, st.jumpLabel = some l → ∃ st' ∈ nodes, st'.labelIndex = some l

theorem le_labelMax {st : Stmt} {l : BitVec 16} (hst : st ∈ nodes) (hl : st.labelIndex = some l) :
    l.toNat ≤ labelMax nodes := by
  have hfold : ∀ (ls : List (BitVec 16)) (m : Nat), m ≤ ls.foldl (fun m i => max m i.toNat) m ∧
      ∀ l ∈ ls, l.toNat ≤ ls.foldl (fun m i => max m i.toNat) m := by
    intro ls
    induction ls with
    | nil => simp
    | cons i ls ih =>
      intro m
      have hrest := ih (max m i.toNat)
      simp only [List.foldl_cons, List.forall_mem_cons]
      exact ⟨by omega, by omega, hrest.2⟩
  exact (hfold _ 0).2 l (List.mem_filterMap.mpr ⟨st, hst, hl⟩)

/-- Every label stands before the other nodes of its block. -/
theorem leading_of_mem {bb labels body : List Stmt} (h : IsBlock bb labels body) {st : Stmt}
    (hst : st ∈ bb) {l : BitVec 16} (hl : st.labelIndex = some l) : l ∈ leading bb := by
  rw [leading, h.takeWhile, List.mem_filterMap]
  rw [h.append, List.mem_append] at hst
  obtain hst | hst := hst
  · exact ⟨st, hst, hl⟩
  · have hlabel := st.isLabel_iff.mpr ⟨l, hl⟩
    rw [h.noLabel st hst] at hlabel
    cases hlabel

theorem nextOf_isOk {links : BitVec 16 → Option Nat} {labelN n i : Nat} {bb : List Stmt}
    (h : ∀ st, bb.getLast? = some st → st.isJump → ∀ l, st.jumpLabel = some l →
      l.toNat < labelN ∧ ∃ k, links l = some k) : ∃ next, nextOf links labelN n i bb = .ok next := by
  unfold nextOf
  cases hst : bb.getLast? with
  | none => exact ⟨_, rfl⟩
  | some st =>
    dsimp only
    split
    · next hjump =>
      cases hl : st.jumpLabel with
      | none => exact ⟨_, rfl⟩
      | some l =>
        obtain ⟨hlt, k, hk⟩ := h st hst hjump l hl
        dsimp only
        rw [if_neg (Nat.not_le.mpr hlt), hk]
        exact ⟨_, rfl⟩
    · exact ⟨_, rfl⟩

theorem resolveNext_isOk {links : BitVec 16 → Option Nat} {labelN n : Nat} {bbs : List (List Stmt)}
    (h : ∀ bb ∈ bbs, ∀ st, bb.getLast? = some st → st.isJump → ∀ l, st.jumpLabel = some l →
      l.toNat < labelN ∧ ∃ k, links l = some k) (i : Nat) :
    ∃ next, resolveNext links labelN n i bbs = .ok next := by
  induction bbs generalizing i with
  | nil => exact ⟨_, rfl⟩
  | cons bb bbs ih =>
    rw [List.forall_mem_cons] at h
    obtain ⟨next, hnext⟩ := nextOf_isOk (n := n) (i := i + 1) h.1
    obtain ⟨nexts, hnexts⟩ := ih h.2 (i + 1)
    rw [resolveNext, hnext, hnexts]
    exact ⟨_, rfl⟩

/-- A list is accepted when its jumps find their labels. -/
theorem build_of_finds {nodes : List Stmt} (h : Finds nodes) : ∃ g, build nodes = .ok g := by
  have hflat := flatten_buildBasicblocks nodes 0
  have hcut := cut_buildBasicblocks nodes 0
  unfold build
  split
  · exact ⟨_, rfl⟩
  generalize (buildBasicblocks nodes 0).1 = bbs at hflat hcut ⊢
  have hlinks : ∀ bb ∈ bbs, ∀ st, bb.getLast? = some st → st.isJump → ∀ l,
      st.jumpLabel = some l → l.toNat < 1 + labelMax nodes ∧
        ∃ k, resolveLabels bbs 0 (fun _ => none) l = some k := by
    intro bb hbb st hst hjump l hl
    have hmem : st ∈ nodes := hflat ▸ List.mem_flatten.mpr ⟨bb, hbb, List.mem_of_getLast? hst⟩
    obtain ⟨st', hst', hl'⟩ := h st hmem hjump l hl
    have hle := le_labelMax hst' hl'
    rw [← hflat] at hst'
    obtain ⟨C, hC, hmem'⟩ := List.mem_flatten.mp hst'
    obtain ⟨labels, body, hblock⟩ := hcut.isBlock C hC
    obtain ⟨k, hk⟩ := exists_isLast ⟨C, hC, leading_of_mem hblock hmem' hl'⟩
    exact ⟨by omega, k, (resolveLabels_isLast bbs l k).mpr hk⟩
  obtain ⟨next, hnext⟩ := resolveNext_isOk (n := bbs.length) hlinks 0
  dsimp only
  rw [hnext]
  exact ⟨_, rfl⟩

variable {w : Host} {i j : Nat} {a b : Config Stmt State}

/-- The rest of the nodes that are still to be run begins in block `i`. -/
def StandsIn (g : FlowGraph) (i : Nat) (a : Config Stmt State) : Prop :=
  ∃ A k, g.basicblocks[i]? = some A ∧ k < A.length ∧
    a.1 = g.basicblocks.flatten.drop (segStart g.basicblocks i + k)

/-- Block `j` is among the next ones of block `i`. -/
def Links (g : FlowGraph) (i j : Nat) : Prop := ∃ next, g.next[i]? = some next ∧ j ∈ next

/-- Control goes from the statement to where a run does. -/
def Goes (st : Stmt) : Next (BitVec 16) State → Prop
  | .fall _ => st.control.fallsThrough
  | .jump l _ => st.control.target = some l

theorem goes_branch {op : OpStmt3} {u v : BitVec 64} {taken : Bool} (h : op.holds u v = some taken)
    (l : BitVec 16) (address : BitVec 64) (x y : Stmt) (t : State) :
    Goes (.stmt3 op (.expr (.label l address)) x y) (if taken then .jump l t else .fall t) := by
  cases taken <;> cases op <;> first | rfl | cases h

theorem goes_of_effect {st : Stmt} {t : State} {next : Next (BitVec 16) State}
    (h : effect w st t = some next) : Goes st next := by
  have hfalls : ∀ {f : Option State}, st.control.fallsThrough → f.map Next.fall = some next →
      Goes st next := by
    intro f hst hf
    obtain ⟨t', -, rfl⟩ := Option.map_eq_some_iff.mp hf
    exact hst
  unfold effect at h
  split at h
  · cases h
    rfl
  · obtain ⟨⟨v, h'⟩, -, hnext⟩ := Option.bind_eq_some_iff.mp h
    cases hnext
    rfl
  · cases h
    rfl
  · exact hfalls rfl h
  · exact hfalls rfl h
  · next op dst src =>
    split at h
    · exact hfalls (by cases op <;> rfl) h
    · cases h
  · obtain ⟨⟨u, h₁⟩, -, hrest⟩ := Option.bind_eq_some_iff.mp h
    obtain ⟨⟨v, h₂⟩, -, hrest⟩ := Option.bind_eq_some_iff.mp hrest
    obtain ⟨taken, hholds, hrest⟩ := Option.bind_eq_some_iff.mp hrest
    cases hrest
    exact goes_branch hholds _ _ _ _ _
  · cases h

/-- Every position is one of a block. -/
theorem standsIn_of_drop {p : Nat} (hp : p < g.basicblocks.flatten.length)
    (ha : a.1 = g.basicblocks.flatten.drop p) : ∃ j, g.StandsIn j a := by
  obtain ⟨j, B, k, hB, hk, rfl⟩ := exists_segment hp
  exact ⟨j, B, k, hB, hk, ha⟩

/-- A block begins behind a position that is the last one of the block before it. -/
theorem standsIn_next (hexact : g.Exact nodes) {A : List Stmt} (hA : g.basicblocks[i]? = some A)
    {k : Nat} (hk : k + 1 = A.length)
    (hmore : segStart g.basicblocks i + k + 1 < g.basicblocks.flatten.length)
    (hb : b.1 = g.basicblocks.flatten.drop (segStart g.basicblocks i + k + 1)) :
    ∃ B, g.basicblocks[i + 1]? = some B ∧ g.StandsIn (i + 1) b := by
  have hstart : segStart g.basicblocks i + k + 1 = segStart g.basicblocks (i + 1) := by
    rw [segStart_succ hA]
    omega
  have hi : i + 1 < g.basicblocks.length := by
    by_contra hge
    have hmono := segStart_mono g.basicblocks (Nat.le_of_not_lt hge)
    rw [segStart_length] at hmono
    omega
  have hB := List.getElem?_eq_getElem hi
  have hpos := List.length_pos_iff.mpr (hexact.nonempty _ (List.mem_of_getElem? hB))
  exact ⟨_, hB, _, 0, hB, hpos, by rw [hb, hstart]; rfl⟩

/-- A step stays in its block, passes to a next one, or comes to the end of the nodes. -/
theorem step_links (hg : build nodes = .ok g) (hexact : g.Exact nodes) (ha : g.StandsIn i a)
    (hstep : (machine w).step nodes a = some b) :
    b.1 = [] ∨ g.StandsIn i b ∨ ∃ j, g.Links i j ∧ g.StandsIn j b := by
  obtain ⟨-, hcut, -, -⟩ := build_ok hg
  have hflat := hexact.partition
  obtain ⟨A, k, hA, hk, hdrop⟩ := ha
  obtain ⟨is, t⟩ := a
  obtain rfl : is = _ := hdrop
  have hget : g.basicblocks.flatten[segStart g.basicblocks i + k]? = some A[k] := by
    rw [getElem?_flatten hA hk, List.getElem?_eq_getElem hk]
  obtain ⟨hp, hs⟩ := List.getElem?_eq_some_iff.mp hget
  rw [List.drop_eq_getElem_cons hp, hs, Machine.step] at hstep
  have hlast : k + 1 = A.length → A.getLast? = some A[k] := by
    intro hend
    rw [List.getLast?_eq_getElem?, ← hend, Nat.add_sub_cancel, List.getElem?_eq_getElem hk]
  split at hstep
  · cases hstep
  · next t' hfall =>
    cases hstep
    have hcontrol : A[k].control.fallsThrough := goes_of_effect hfall
    by_cases hmore : segStart g.basicblocks i + k + 1 < g.basicblocks.flatten.length
    · right
      by_cases hend : k + 1 = A.length
      · obtain ⟨B, hB, hstands⟩ := standsIn_next (b := (_, t')) hexact hA hend hmore rfl
        exact .inr ⟨i + 1, (hexact.edges i (i + 1)).mpr
          ⟨A, B, _, hA, hB, hlast hend, .inl ⟨hcontrol, rfl⟩⟩, hstands⟩
      · exact .inl ⟨A, k + 1, hA, by omega, rfl⟩
    · exact .inl (List.drop_eq_nil_of_le (Nat.le_of_not_lt hmore))
  · next l t' hjump =>
    obtain ⟨rest, hfind, rfl⟩ := Option.map_eq_some_iff.mp hstep
    have htarget : A[k].control.target = some l := goes_of_effect hjump
    have hend : k + 1 = A.length := by
      by_contra hne
      have hmem : A[k] ∈ A.dropLast := by
        rw [← List.getElem_dropLast (by rw [List.length_dropLast]; omega)]
        exact List.getElem_mem _
      rw [hexact.exit A (List.mem_of_getElem? hA) _ hmem] at htarget
      cases htarget
    obtain ⟨st, hl, pre, hpre⟩ := Machine.find_suffix hfind
    have hlabel : LabelAt g.basicblocks.flatten l pre.length := by
      refine ⟨st, ?_, hl⟩
      rw [hflat, ← hpre, List.getElem?_append_right (Nat.le_refl _), Nat.sub_self]
      rfl
    have hrest : rest = g.basicblocks.flatten.drop (pre.length + 1) := by
      rw [hflat, ← hpre, List.drop_append]
      simp
    obtain ⟨j, hj⟩ := hcut.exists_inRun hlabel
    obtain ⟨B, hB, hle, hlt⟩ := id hj
    have hlead : l ∈ leading B := (mem_leading_iff hB).mpr ⟨_, hj, hlabel⟩
    have hlink : g.Links i j := (hexact.edges i j).mpr
      ⟨A, B, _, hA, hB, hlast hend, .inr ⟨l, htarget, hlead⟩⟩
    obtain ⟨m, hm⟩ := Nat.exists_eq_add_of_le hle
    have hmB := (List.takeWhile_prefix (l := B) Stmt.isLabel).length_le
    by_cases hmore : pre.length + 1 < g.basicblocks.flatten.length
    · refine .inr (.inr ⟨j, hlink, B, m + 1, hB, ?_, by rw [hrest, hm]; rfl⟩)
      -- a block of labels only is the last one
      by_contra hge
      obtain ⟨C, hC, -⟩ := standsIn_next (b := (rest, t')) hexact hB (k := m) (by omega)
        (by omega) (by rw [hrest, hm])
      obtain ⟨s, hs', hno, -⟩ := hcut.inner hB hC
      have hall : (B.takeWhile Stmt.isLabel).length = B.length := by omega
      rw [← List.IsPrefix.eq_of_length (List.takeWhile_prefix _) hall] at hs'
      rw [List.mem_takeWhile_imp (List.mem_of_getLast? hs')] at hno
      cases hno
    · exact .inl (hrest.trans (List.drop_eq_nil_of_le (Nat.le_of_not_lt hmore)))

/-- A run that has not come to the end of the nodes has passed along the links. -/
theorem run_links (hg : build nodes = .ok g) (hexact : g.Exact nodes) (ha : g.StandsIn i a)
    (hreach : (machine w).Reaches nodes 0 a b) (hb : b.1 ≠ []) :
    ∃ j, Relation.ReflTransGen g.Links i j ∧ g.StandsIn j b := by
  obtain ⟨m, -, hrun⟩ := hreach
  induction m generalizing a i with
  | zero =>
    cases hrun
    exact ⟨i, .refl, ha⟩
  | succ m ih =>
    obtain ⟨c, hstep, hrest⟩ := Option.bind_eq_some_iff.mp hrun
    obtain hnil | hstay | ⟨j, hlink, hj⟩ := step_links hg hexact ha hstep
    · obtain ⟨is, t⟩ := c
      obtain rfl : is = [] := hnil
      cases m with
      | zero =>
        cases hrest
        exact absurd rfl hb
      | succ m => cases hrest
    · exact ih hstay hrest
    · obtain ⟨l, hpath, hl⟩ := ih hj hrest
      exact ⟨l, .head hlink hpath, hl⟩

/-! ## Compiled functions -/

/-- A label that is placed once has one position. -/
theorem position_unique (h : (machine w).Unique nodes) {l : BitVec 16} {p q : Nat}
    (hp : LabelAt nodes l p) (hq : LabelAt nodes l q) : p = q := by
  have hpairs := List.pairwise_iff_getElem.mp (List.pairwise_filterMap.mp h)
  obtain ⟨st, hst, hl⟩ := hp
  obtain ⟨st', hst', hl'⟩ := hq
  obtain ⟨hlt, rfl⟩ := List.getElem?_eq_some_iff.mp hst
  obtain ⟨hlt', rfl⟩ := List.getElem?_eq_some_iff.mp hst'
  obtain hpq | rfl | hqp := Nat.lt_trichotomy p q
  · exact absurd rfl (hpairs p q hlt hlt' hpq l hl l hl')
  · rfl
  · exact absurd rfl (hpairs q p hlt' hlt hqp l hl' l hl)

/-- With different labels, and only jumps that the tables list, the links are exact. -/
theorem resolved_of_unique (hunique : (machine w).Unique nodes)
    (hlisted : ∀ st ∈ nodes, st.isMissed = false) : Resolved nodes := by
  have hnone : ∀ {p : Nat} {s : Stmt}, nodes[p]? = some s → ¬s.isMissed := by
    intro p s hs hmissed
    rw [hlisted s (List.mem_of_getElem? hs)] at hmissed
    cases hmissed
  refine ⟨fun _ _ hs h => absurd h (hnone hs), fun _ _ _ _ hs h => absurd h (hnone hs), ?_⟩
  intro p s l q q' _ _ _ hq hq' _
  obtain rfl := position_unique hunique hq hq'
  refine .inl ⟨Nat.le_refl q, fun r hle hge => ⟨l, ?_⟩⟩
  rwa [Nat.le_antisymm hge hle]

end FlowGraph

open FlowGraph

namespace Compiler

variable {w : Host} {f : Func}

theorem compileFunc_finds (hright : f.lowersRight) : Finds f.nodes := by
  obtain ⟨hapart, -, hnone⟩ := Func.lowersRight_labels hright
  obtain ⟨n, -, hplaced, htargets, -⟩ := compileFunc_labels f hapart
  intro st hst hjump l hl
  have htarget : st.target = some l := by
    rw [Stmt.target, hjump, Bool.true_or, if_pos rfl, hl]
  -- every jump goes to a label that the compiler has taken
  have hfresh : fresh f.labels n l = 1 := by
    obtain hold | hnew := htargets l ⟨st, hst, htarget⟩
    · rw [hnone] at hold
      cases hold
    · exact if_pos hnew
  have hpos : 0 < placedIn (compileFunc f).nodes l := by
    rw [hplaced, hfresh]
    omega
  obtain ⟨st', hst', hl'⟩ := List.mem_filterMap.mp (List.count_pos_iff.mp hpos)
  exact ⟨st', hst', hl'⟩

/-- The flow graph of a function that is lowered right is accepted, and where no conditional jump is
missing in its tables every run of the code passes along its links. -/
theorem compileFunc_flowGraph (hright : f.lowersRight) : ∃ g, FlowGraph.build f.nodes = .ok g ∧
    ((∀ st ∈ f.nodes, st.isMissed = false) → g.Exact f.nodes ∧
      ∀ (w : Host) (s : State) (b : Config Stmt State),
        (machine w).Reaches f.nodes 0 (f.code, s) b → b.1 ≠ [] →
        ∃ i j, g.StandsIn i (f.code, s) ∧ Relation.ReflTransGen g.Links i j ∧ g.StandsIn j b) := by
  obtain ⟨g, hg⟩ := build_of_finds (compileFunc_finds hright)
  refine ⟨g, hg, fun hlisted => ?_⟩
  have hexact : ∀ w : Host, g.Exact f.nodes := fun w =>
    (resolved_of_unique (nodes_unique (w := w) hright) hlisted).exact hg
  refine ⟨hexact sevens, fun w s b hreach hb => ?_⟩
  have hflat := (hexact w).partition
  have hcode : f.code ≠ [] := by
    intro hnil
    rw [hnil] at hreach
    obtain ⟨m, -, hrun⟩ := hreach
    cases m with
    | zero =>
      cases hrun
      exact hb rfl
    | succ m => cases hrun
  obtain ⟨i, hi⟩ : ∃ i, g.StandsIn i (f.code, s) := by
    obtain ⟨hnodes, -⟩ := code_cases f
    refine standsIn_of_drop (p := f.prologue.length) ?_ ?_
    · rw [hflat, hnodes, List.length_append]
      exact Nat.lt_add_of_pos_right (List.length_pos_iff.mpr hcode)
    · rw [hflat]
      rfl
  obtain ⟨j, hpath, hj⟩ := run_links hg (hexact w) hi hreach hb
  exact ⟨i, j, hi, hpath, hj⟩

theorem compileFunc_flowGraph_sumDown :
    ∃ g, FlowGraph.build sumDown.nodes = .ok g ∧ g.Exact sumDown.nodes := by
  obtain ⟨g, hg, hruns⟩ := compileFunc_flowGraph (f := sumDown) (by decide +kernel)
  exact ⟨g, hg, (hruns (by decide +kernel)).1⟩

end Compiler

end OneJit
