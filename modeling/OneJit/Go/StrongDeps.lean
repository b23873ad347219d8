import OneJit.Go.TypeGraph
import Mathlib.Tactic.SplitIfs

/-!
# What the graph of types holds

The graph has all incomplete types on which those it was made for depend, and the strong
dependencies among them. A dependency leaves it only when the type on which it is has been
completed.
-/

namespace OneJit.Go.Types

/-! ## Graphs -/

namespace TypeGraph

variable {g g' : TypeGraph} {t u v : TypeRef} {d : TypeDeps}

/-- `t` depends strongly on `v` in all its entries. -/
def Strong (g : TypeGraph) (t v : TypeRef) : Prop := ∀ e ∈ g, e.1 = t → v ∈ e.2.strong

/-- A graph with more types, which keeps the strong dependencies. -/
structure Extends (g g' : TypeGraph) : Prop where
  types : g.types ⊆ g'.types
  strong : ∀ t ∈ g.types, ∀ v, g.Strong t v → g'.Strong t v

theorem Extends.refl (g : TypeGraph) : g.Extends g := ⟨fun _ h => h, fun _ _ _ h => h⟩

theorem Extends.trans {g'' : TypeGraph} (h : g.Extends g') (h' : g'.Extends g'') :
    g.Extends g'' where
  types := fun _ ht => h'.types (h.types ht)
  strong t ht v hv := h'.strong t (h.types ht) v (h.strong t ht v hv)

theorem mem_types : t ∈ g.types ↔ ∃ d, (t, d) ∈ g := by
  simp [types]

theorem mem_set {e : TypeRef × TypeDeps} (h : e ∈ g.set t d) :
    e = (t, d) ∨ (e ∈ g ∧ e.1 ≠ t) := by
  rw [set] at h
  split_ifs at h with ht
  · obtain ⟨x, hx, rfl⟩ := List.mem_map.mp h
    split_ifs with hxt
    · exact .inl rfl
    · exact .inr ⟨hx, hxt⟩
  · rcases List.mem_cons.mp h with rfl | h
    · exact .inl rfl
    · refine .inr ⟨h, fun heq => ht ?_⟩
      exact mem_types.mpr ⟨e.2, by rwa [← heq]⟩

theorem mem_types_set : u ∈ (g.set t d).types ↔ u ∈ g.types ∨ u = t := by
  rw [set]
  split_ifs with ht
  · have hmap : (g.map fun e => if e.1 = t then (t, d) else e).map Prod.fst = g.map Prod.fst := by
      rw [List.map_map]
      apply List.map_congr_left
      intro e _
      by_cases he : e.1 = t <;> simp [he]
    rw [types, hmap]
    constructor
    · exact .inl
    · rintro (h | rfl)
      · exact h
      · exact ht
  · simp [types, or_comm]

/-- The dependencies that `g[t]` returns are those of an entry. -/
theorem Strong.deps (h : g.Strong t v) (ht : t ∈ g.types) : v ∈ (g.deps t).strong := by
  rw [TypeGraph.deps]
  induction g with
  | nil => simp [types] at ht
  | cons e g ih =>
    obtain ⟨a, d⟩ := e
    by_cases he : t = a
    · subst he
      rw [List.lookup_cons_self]
      exact h (t, d) (by simp) rfl
    · have hbeq : (t == a) = false := by simpa using he
      rw [List.lookup_cons, hbeq]
      refine ih (fun x hx => h x (by simp [hx])) ?_
      have hcons : t = a ∨ t ∈ TypeGraph.types g := by simpa [types] using ht
      exact hcons.resolve_left he

theorem strong_set_self (h : v ∈ d.strong) : (g.set t d).Strong t v := by
  intro e he het
  rcases mem_set he with rfl | ⟨_, hne⟩
  · exact h
  · exact absurd het hne

theorem strong_set_other (hne : u ≠ t) (h : g.Strong u v) : (g.set t d).Strong u v := by
  intro e he heu
  rcases mem_set he with rfl | ⟨hmem, _⟩
  · exact absurd heu.symm hne
  · exact h e hmem heu

theorem extends_set (h : (g.deps t).strong ⊆ d.strong) : g.Extends (g.set t d) where
  types _ hu := mem_types_set.mpr (.inl hu)
  strong u hu v hv := by
    by_cases hut : u = t
    · subst hut
      exact strong_set_self (h (hv.deps hu))
    · exact strong_set_other hut hv

theorem extends_cons (ht : t ∉ g.types) : g.Extends ((t, d) :: g) where
  types _ hu := by simpa [types] using Or.inr (by simpa [types] using hu)
  strong u hu v hv := by
    intro e he heu
    rcases List.mem_cons.mp he with rfl | he
    · have htu : t = u := heu
      exact absurd (htu ▸ hu) ht
    · exact hv e he heu

/-! ## Deletion -/

theorem mem_types_del {b : Bool} : u ∈ (g.del t v b).types ↔ u ∈ g.types := by
  rw [del]
  by_cases ht : t ∈ g.types
  · rw [if_pos ht, mem_types_set]
    constructor
    · rintro (h | rfl)
      · exact h
      · exact ht
    · exact .inl
  · rw [if_neg ht]

/-- Only the dependency on the given type is deleted. -/
theorem Strong.del {x : TypeRef} {b : Bool} (h : g.Strong u v) (hne : v ≠ x) :
    (g.del t x b).Strong u v := by
  rw [TypeGraph.del]
  by_cases ht : t ∈ g.types
  · rw [if_pos ht]
    by_cases hut : u = t
    · subst hut
      apply strong_set_self
      have hv := h.deps ht
      cases b <;> simp [hv, hne]
    · exact strong_set_other hut h
  · rwa [if_neg ht]

theorem foldl_del (l : List TypeRef) (x : TypeRef) (b : Bool) (g : TypeGraph) :
    (∀ u, u ∈ (l.foldl (fun g t => g.del t x b) g).types ↔ u ∈ g.types) ∧
      ∀ u v, v ≠ x → g.Strong u v → (l.foldl (fun g t => g.del t x b) g).Strong u v := by
  induction l generalizing g with
  | nil => exact ⟨fun _ => .rfl, fun _ _ _ h => h⟩
  | cons t l ih =>
    obtain ⟨htypes, hstrong⟩ := ih (g.del t x b)
    refine ⟨fun u => ?_, fun u v hv h => hstrong u v hv (h.del hv)⟩
    exact (htypes u).trans mem_types_del

end TypeGraph

namespace TypeGraph2

variable {g : TypeGraph2} {t u v : TypeRef}

theorem mem_updateDeps : u ∈ (g.updateDeps t).fwd.types ↔ u ∈ g.fwd.types ∧ u ≠ t := by
  simp only [updateDeps, TypeGraph.delete]
  rw [TypeGraph.mem_types]
  simp only [List.mem_filter, decide_eq_true_eq, exists_and_right]
  rw [← TypeGraph.mem_types, (TypeGraph.foldl_del _ t false _).1, (TypeGraph.foldl_del _ t true _).1]

/-- The other types keep the strong dependencies on types that are not completed yet. -/
theorem strong_updateDeps (h : g.fwd.Strong u v) (hne : v ≠ t) :
    (g.updateDeps t).fwd.Strong u v := by
  simp only [updateDeps, TypeGraph.delete]
  intro e he heu
  have hmem := (List.mem_filter.mp he).1
  refine (TypeGraph.foldl_del _ t false _).2 u v hne ?_ e hmem heu
  exact (TypeGraph.foldl_del _ t true _).2 u v hne h

@[simp] theorem completed_updateDeps : (g.updateDeps t).completed = g.completed ++ [t] := rfl

end TypeGraph2

/-! ## Collection -/

namespace Universe

variable {s : Universe} {g g' : TypeGraph} {t : TypeRef}

/-- An unnamed type of the kinds on which no dependency is strong. -/
def WeakType (s : Universe) (t : TypeRef) : Prop :=
  s.named t = none ∧ ∃ c, s.store.common t = some c ∧ weakKind c.kind = true

theorem addDep_extends (tdep : TypeRef) (strong : Bool) :
    g.Extends (s.addDep g t tdep strong) := by
  simp only [addDep]
  split_ifs with h h'
  · refine TypeGraph.extends_set fun v hv => ?_
    exact List.mem_insert_of_mem hv
  · exact .refl g
  · exact TypeGraph.extends_set fun _ hv => hv

theorem addDep_strong {tdep : TypeRef} (hweak : ¬ s.WeakType tdep) :
    (s.addDep g t tdep true).Strong t tdep := by
  have hnot : ((s.store.common tdep).any (fun c => weakKind c.kind) &&
      (s.named tdep).isNone) = false := by
    rw [Bool.eq_false_iff]
    intro h
    simp only [Bool.and_eq_true, Option.any_eq_true, Option.isNone_iff_eq_none] at h
    exact hweak ⟨h.2, h.1⟩
  simp only [addDep, hnot, Bool.not_false, Bool.and_self, if_true]
  exact TypeGraph.strong_set_self (List.mem_insert_self)

/-- What a dependency of `t` requires of the graph. -/
def CoversDep (s : Universe) (g : TypeGraph) (t : TypeRef) (d : TypeRef × Bool) : Prop :=
  s.isComplete d.1 = true ∨
    (d.1 ∈ g.types ∧ (d.2 = true → ¬ s.WeakType d.1 → g.Strong t d.1))

/-- The graph has all that a type depends on. -/
def Covers (s : Universe) (g : TypeGraph) (t : TypeRef) : Prop :=
  ∃ ds, s.content t = some ds ∧ ∀ d ∈ ds, s.CoversDep g t d

theorem CoversDep.extends {d : TypeRef × Bool} (h : s.CoversDep g t d) (hg : g.Extends g')
    (ht : t ∈ g.types) : s.CoversDep g' t d := by
  rcases h with h | ⟨hmem, hstrong⟩
  · exact .inl h
  · exact .inr ⟨hg.types hmem, fun hd hw => hg.strong t ht _ (hstrong hd hw)⟩

theorem Covers.extends (h : s.Covers g t) (hg : g.Extends g') (ht : t ∈ g.types) :
    s.Covers g' t := by
  obtain ⟨ds, hds, hall⟩ := h
  exact ⟨ds, hds, fun d hd => (hall d hd).extends hg ht⟩

/-- The types that are new in a graph are incomplete and covered. -/
def Closes (s : Universe) (g g' : TypeGraph) : Prop :=
  g.Extends g' ∧ ∀ u ∈ g'.types, u ∈ g.types ∨ (s.isComplete u = false ∧ s.Covers g' u)

theorem Closes.refl (s : Universe) (g : TypeGraph) : s.Closes g g := ⟨.refl g, fun _ h => .inl h⟩

theorem Closes.trans {g'' : TypeGraph} (h : s.Closes g g') (h' : s.Closes g' g'') :
    s.Closes g g'' := by
  refine ⟨h.1.trans h'.1, fun u hu => ?_⟩
  rcases h'.2 u hu with hu' | hnew
  · rcases h.2 u hu' with hold | ⟨hc, hcov⟩
    · exact .inl hold
    · exact .inr ⟨hc, hcov.extends h'.1 hu'⟩
  · exact .inr hnew

/-- A dependency between types of the graph. -/
theorem closes_addDep {tdep : TypeRef} {strong : Bool} (ht : t ∈ g.types) :
    s.Closes g (s.addDep g t tdep strong) := by
  refine ⟨addDep_extends tdep strong, fun u hu => .inl ?_⟩
  simp only [addDep] at hu
  split_ifs at hu with h h'
  · rcases TypeGraph.mem_types_set.mp hu with hu | rfl
    · exact hu
    · exact ht
  · exact hu
  · rcases TypeGraph.mem_types_set.mp hu with hu | rfl
    · exact hu
    · exact ht

/-- `addDepType`, as `addType` calls it for each dependency. -/
theorem addDepTypes_closes {fuel : Nat}
    (ih : ∀ t g g', s.addType fuel t g = some g' →
      s.Closes g g' ∧ (s.isComplete t = true ∨ t ∈ g'.types))
    (ds : List (TypeRef × Bool)) (ht : t ∈ g.types)
    (h : ds.foldlM (fun g d => (s.addType fuel d.1 g).map fun g =>
      if s.isComplete d.1 then g else s.addDep g t d.1 d.2) g = some g') :
    s.Closes g g' ∧ ∀ d ∈ ds, s.CoversDep g' t d := by
  induction ds generalizing g with
  | nil =>
    simp only [List.foldlM_nil, Option.pure_def, Option.some.injEq] at h
    subst h
    exact ⟨.refl s g, by simp⟩
  | cons d ds ihds =>
    rw [List.foldlM_cons] at h
    obtain ⟨g₁, hstep, hrest⟩ := Option.bind_eq_some_iff.mp h
    obtain ⟨g₀, hadd, rfl⟩ := Option.map_eq_some_iff.mp hstep
    obtain ⟨hclose, hmem⟩ := ih d.1 g g₀ hadd
    have ht₀ : t ∈ g₀.types := hclose.1.types ht
    by_cases hd : s.isComplete d.1 = true
    · rw [if_pos hd] at hrest
      obtain ⟨hclose', hall⟩ := ihds ht₀ hrest
      refine ⟨hclose.trans hclose', ?_⟩
      intro x hx
      rcases List.mem_cons.mp hx with rfl | hx
      · exact .inl hd
      · exact hall x hx
    · rw [if_neg hd] at hrest
      have hdep : s.Closes g₀ (s.addDep g₀ t d.1 d.2) := closes_addDep ht₀
      have ht₁ := hdep.1.types ht₀
      obtain ⟨hclose', hall⟩ := ihds ht₁ hrest
      refine ⟨(hclose.trans hdep).trans hclose', ?_⟩
      intro x hx
      rcases List.mem_cons.mp hx with rfl | hx
      · have hx₀ : x.1 ∈ g₀.types := hmem.resolve_left hd
        have hcov : s.CoversDep (s.addDep g₀ t x.1 x.2) t x :=
          .inr ⟨hdep.1.types hx₀, fun hb hw => by rw [hb]; exact addDep_strong hw⟩
        exact hcov.extends hclose'.1 ht₁
      · exact hall x hx

/-- `addType` adds a type together with all incomplete types on which it depends. -/
theorem addType_closes {fuel : Nat} (t : TypeRef) (g g' : TypeGraph)
    (h : s.addType fuel t g = some g') :
    s.Closes g g' ∧ (s.isComplete t = true ∨ t ∈ g'.types) := by
  induction fuel generalizing t g g' with
  | zero => simp [addType] at h
  | succ fuel ih =>
    rw [addType] at h
    split_ifs at h with hc ht
    · rw [Option.some.injEq] at h
      subst h
      exact ⟨.refl s g, .inl hc⟩
    · rw [Option.some.injEq] at h
      subst h
      exact ⟨.refl s g, .inr ht⟩
    · obtain ⟨ds, hds, hfold⟩ := Option.bind_eq_some_iff.mp h
      have hself : t ∈ TypeGraph.types ((t, ⟨[], []⟩) :: g) := by simp [TypeGraph.types]
      obtain ⟨hclose, hall⟩ := addDepTypes_closes ih ds hself hfold
      have hext : g.Extends ((t, ⟨[], []⟩) :: g) := TypeGraph.extends_cons ht
      refine ⟨⟨hext.trans hclose.1, fun u hu => ?_⟩, .inr (hclose.1.types hself)⟩
      rcases hclose.2 u hu with hold | hnew
      · -- the type itself is covered once all its dependencies have been added
        have hcons : u = t ∨ u ∈ g.types := by simpa [TypeGraph.types] using hold
        rcases hcons with rfl | hu'
        · exact .inr ⟨by simpa using hc, ds, hds, hall⟩
        · exact .inl hu'
      · exact .inr hnew

/-- `addTypes` adds the incomplete ones of the types with all that they depend on. -/
theorem addTypes_covers {fuel : Nat} {ts : List TypeRef} {g : TypeGraph}
    (h : s.addTypes fuel ts = some g) :
    (∀ t ∈ ts, s.isComplete t = true ∨ t ∈ g.types) ∧
      ∀ u ∈ g.types, s.isComplete u = false ∧ s.Covers g u := by
  have hfold : ∀ (ts : List TypeRef) (g g' : TypeGraph),
      ts.foldlM (fun g t => s.addType fuel t g) g = some g' →
      s.Closes g g' ∧ ∀ t ∈ ts, s.isComplete t = true ∨ t ∈ g'.types := by
    intro ts
    induction ts with
    | nil =>
      intro g g' h
      simp only [List.foldlM_nil, Option.pure_def, Option.some.injEq] at h
      subst h
      exact ⟨.refl s g, by simp⟩
    | cons t ts ih =>
      intro g g' h
      rw [List.foldlM_cons] at h
      obtain ⟨g₁, hadd, hrest⟩ := Option.bind_eq_some_iff.mp h
      obtain ⟨hclose, ht⟩ := addType_closes t g g₁ hadd
      obtain ⟨hclose', hts⟩ := ih g₁ g' hrest
      refine ⟨hclose.trans hclose', ?_⟩
      intro x hx
      rcases List.mem_cons.mp hx with rfl | hx
      · exact ht.imp id fun hmem => hclose'.1.types hmem
      · exact hts x hx
  obtain ⟨hclose, hts⟩ := hfold ts [] g h
  refine ⟨hts, fun u hu => ?_⟩
  rcases hclose.2 u hu with hnil | hnew
  · simp [TypeGraph.types] at hnil
  · exact hnew

end Universe

/-! ## The loop -/

/-- What the loop has done with the types of the graph that it was given. -/
structure Progress (fwd : TypeGraph) (g : TypeGraph2) : Prop where
  types : ∀ t, t ∈ fwd.types ↔ t ∈ g.fwd.types ∨ t ∈ g.completed
  apart : ∀ t ∈ g.fwd.types, t ∉ g.completed
  strong : ∀ t ∈ g.fwd.types, ∀ v, fwd.Strong t v → v ∈ g.completed ∨ g.fwd.Strong t v

namespace Progress

variable {fwd : TypeGraph} {g : TypeGraph2} {t : TypeRef} {deps : TypeDeps}

theorem init (fwd inv : TypeGraph) : Progress fwd ⟨fwd, inv, []⟩ where
  types t := by simp
  apart t _ := by simp
  strong t _ v hv := .inr hv

/-- The strong dependencies of a type that is picked have been completed. -/
theorem deps_completed (h : Progress fwd g) (hmem : (t, deps) ∈ g.fwd) (hdeps : deps.strong = []) :
    ∀ v, fwd.Strong t v → v ∈ g.completed := by
  intro v hv
  have ht : t ∈ g.fwd.types := TypeGraph.mem_types.mpr ⟨deps, hmem⟩
  rcases h.strong t ht v hv with hdone | hstrong
  · exact hdone
  · have hin := hstrong (t, deps) hmem rfl
    simp [hdeps] at hin

theorem updateDeps (h : Progress fwd g) (ht : t ∈ g.fwd.types) :
    Progress fwd (g.updateDeps t) where
  types u := by
    rw [h.types, TypeGraph2.mem_updateDeps, TypeGraph2.completed_updateDeps, List.mem_append,
      List.mem_singleton]
    by_cases hu : u = t
    · subst hu
      simp [ht]
    · simp [hu]
  apart u hu := by
    obtain ⟨hu, hne⟩ := TypeGraph2.mem_updateDeps.mp hu
    simp [h.apart u hu, hne]
  strong u hu v hv := by
    obtain ⟨hu, hne⟩ := TypeGraph2.mem_updateDeps.mp hu
    rw [TypeGraph2.completed_updateDeps, List.mem_append, List.mem_singleton]
    rcases h.strong u hu v hv with hdone | hstrong
    · exact .inl (.inl hdone)
    · by_cases hvt : v = t
      · exact .inl (.inr hvt)
      · exact .inr (TypeGraph2.strong_updateDeps hstrong hvt)

end Progress

/-- The rule for the loop: what holds at its start, and is kept when a type is completed whose
strong dependencies have been completed, holds at its end, where all types have been completed. -/
theorem Completes.induct {arch : Arch} {Picks : Universe → TypeRef → Prop}
    {I : Universe → List TypeRef → Prop} {fwd : TypeGraph} {s s' : Universe} {g g' : TypeGraph2}
    (hstep : ∀ s s' done t fuel, t ∈ fwd.types → t ∉ done → (∀ u ∈ done, u ∈ fwd.types) →
      (∀ v, fwd.Strong t v → v ∈ done) → Picks s t → s.complete arch fuel t = some s' →
      I s done → I s' (done ++ [t]))
    (h : Completes arch Picks s g s' g') (hg : Progress fwd g) (hI : I s g.completed) :
    I s' g'.completed ∧ ∀ t, t ∈ fwd.types ↔ t ∈ g'.completed := by
  induction h with
  | done s g hnil =>
    refine ⟨hI, fun t => ?_⟩
    rw [hg.types, hnil]
    simp [TypeGraph.types]
  | pick fuel t deps hmem hdeps hpick hcomplete _ ih =>
    have ht := TypeGraph.mem_types.mpr ⟨deps, hmem⟩
    refine ih (hg.updateDeps ht) ?_
    exact hstep _ _ _ t fuel ((hg.types t).mpr (.inl ht)) (hg.apart t ht)
      (fun u hu => (hg.types u).mpr (.inr hu)) (hg.deps_completed hmem hdeps) hpick hcomplete hI

/-! ## The marks -/

namespace Universe

/-- A record is marked. -/
def markRecord (r : Record) : Record :=
  { r with rtype := { r.rtype with flags := r.rtype.flags ||| flagComplete } }

/-- The same types, of which some records are marked. -/
structure Marked (ts : List TypeRef) (s s' : Universe) : Prop where
  named : s'.named = s.named
  interfaces : s'.interfaces = s.interfaces
  interfaceMap : s'.interfaceMap = s.interfaceMap
  store : ∃ heap, s'.store = { s.store with heap := heap }
  length : s'.store.heap.length = s.store.heap.length
  lt : ∀ t ∈ ts, t < s.store.heap.length
  other : ∀ t, t ∉ ts → s'.store.heap[t]? = s.store.heap[t]?
  marked : ∀ t ∈ ts, ∀ r, s.store.heap[t]? = some r →
    ∃ r', s'.store.heap[t]? = some r' ∧ (r' = markRecord r)

theorem markRecord_idem (r : Record) : markRecord (markRecord r) = markRecord r := by
  simp [markRecord, BitVec.or_assoc]

theorem heap_mark (s : Universe) (t u : TypeRef) :
    (s.mark t).store.heap[u]? = if u = t then (s.store.heap[u]?).map markRecord
      else s.store.heap[u]? := by
  simp only [mark, modify]
  rw [List.getElem?_modify]
  by_cases hu : t = u
  · simp only [hu, if_true]
    rfl
  · simp [hu, Ne.symm hu]

/-- The loop of checks marks all types. -/
theorem finish_marked {ts : List TypeRef} {s s' : Universe} (h : s.finish ts = some s') :
    Marked ts s s' := by
  induction ts generalizing s with
  | nil =>
    simp only [finish, Option.some.injEq] at h
    subst h
    exact ⟨rfl, rfl, rfl, ⟨_, rfl⟩, rfl, by simp, fun _ _ => rfl, by simp⟩
  | cons t ts ih =>
    rw [finish] at h
    split_ifs at h with hcheck
    have hm := ih h
    have hlen : (s.mark t).store.heap.length = s.store.heap.length := by simp [mark, modify]
    refine ⟨hm.named, hm.interfaces, hm.interfaceMap, ?_, hm.length.trans hlen, ?_, ?_, ?_⟩
    · obtain ⟨heap, hheap⟩ := hm.store
      exact ⟨heap, hheap⟩
    · intro u hu
      rcases List.mem_cons.mp hu with rfl | hu
      · -- a type without a record does not pass the check
        by_contra hge
        rw [checkCompleteType, List.getElem?_eq_none (Nat.le_of_not_lt hge)] at hcheck
        simp at hcheck
      · exact hlen ▸ hm.lt u hu
    · intro u hu
      rw [List.mem_cons, not_or] at hu
      rw [hm.other u hu.2, heap_mark, if_neg hu.1]
    · intro u hu r hr
      have hmark := heap_mark s t u
      by_cases hut : u = t
      · rw [if_pos hut, hr, Option.map_some] at hmark
        by_cases hmem : u ∈ ts
        · obtain ⟨r', hr', heq⟩ := hm.marked u hmem _ hmark
          exact ⟨r', hr', heq.trans (markRecord_idem r)⟩
        · exact ⟨_, (hm.other u hmem).trans hmark, rfl⟩
      · rw [if_neg hut, hr] at hmark
        exact hm.marked u ((List.mem_cons.mp hu).resolve_left hut) r hmark

end Universe

end OneJit.Go.Types
