import OneJit.Semantics

/-!
# Refinement of expressions

`Refines e e'` is what a rewriting pass owes: `e'` is typed, its value has the kind of the value
of `e`, and it has the value of `e` under every valuation where `e` has one. Every constructor
preserves it.
-/

namespace OneJit

namespace Expr

structure Refines (e e' : Expr) : Prop where
  typed : e'.typed
  kind : e'.valueKind = e.valueKind
  eval : ∀ ρ v, eval ρ e = some v → eval ρ e' = some v

theorem Refines.refl {e : Expr} (h : e.typed) : Refines e e := ⟨h, rfl, fun _ _ hv => hv⟩

theorem Refines.trans {e e' e'' : Expr} (h : Refines e e') (h' : Refines e' e'') :
    Refines e e'' :=
  ⟨h'.typed, h'.kind.trans h.kind, fun ρ v hv => h'.eval ρ v (h.eval ρ v hv)⟩

/-- Refinement of lists of operands. -/
structure RefinesList (xs xs' : List Expr) : Prop where
  typed : typedList xs'
  kind : xs'.map valueKind = xs.map valueKind
  eval : ∀ ρ vs, evalList ρ xs = some vs → evalList ρ xs' = some vs

theorem RefinesList.of_forall₂ {xs xs' : List Expr} (h : List.Forall₂ Refines xs xs') :
    RefinesList xs xs' := by
  induction h with
  | nil => exact ⟨rfl, rfl, fun _ _ hvs => hvs⟩
  | cons hx _ ih =>
    refine ⟨?_, ?_, ?_⟩
    · rw [typedList, hx.typed, ih.typed]
      rfl
    · rw [List.map_cons, List.map_cons, hx.kind, ih.kind]
    · intro ρ vs hvs
      obtain ⟨a, ws, ha, hws, heq⟩ := evalList_cons.mp hvs
      exact evalList_cons.mpr ⟨a, ws, hx.eval ρ a ha, ih.eval ρ ws hws, heq⟩

theorem lastKind_congr {k : Kind} {xs xs' : List Expr}
    (h : xs'.map valueKind = xs.map valueKind) : lastKind k xs' = lastKind k xs := by
  have hlast : xs'.getLast?.map valueKind = xs.getLast?.map valueKind := by
    rw [← List.getLast?_map, h, List.getLast?_map]
  cases hx : xs.getLast? with
  | none =>
    rw [hx, Option.map_none, Option.map_eq_none_iff, List.getLast?_eq_none_iff] at hlast
    rw [List.getLast?_eq_none_iff] at hx
    rw [hlast, hx]
  | some x =>
    rw [hx, Option.map_some, Option.map_eq_some_iff] at hlast
    obtain ⟨x', hx', hkind⟩ := hlast
    rw [lastKind_eq hx, lastKind_eq hx', hkind]

theorem eval_unary {ρ : Valuation} {k : Kind} {op : Op1} {x : Expr} {p : Place} {v : BitVec 64} :
    eval ρ (unary k op x p) = some v ↔ ∃ a, eval ρ x = some a ∧ k.evalUnary op a = some v := by
  rw [eval]
  exact Option.bind_eq_some_iff

theorem eval_tuple {ρ : Valuation} {k : Kind} {op : OpN} {xs : List Expr} {p : Place}
    {v : BitVec 64} :
    eval ρ (tuple k op xs p) = some v ↔
      ∃ vs, evalList ρ xs = some vs ∧ op.apply ρ k vs = some v := by
  rw [eval]
  exact Option.bind_eq_some_iff

theorem mem_congr {k : Kind} {xs xs' : List Expr} {p p' : Place} (ht : (mem k xs p).typed)
    (h : RefinesList xs xs') : Refines (mem k xs p) (mem k xs' p') := by
  rw [Expr.typed, Bool.and_eq_true] at ht
  refine ⟨?_, rfl, ?_⟩
  · rw [Expr.typed, ht.1, h.typed]
    rfl
  · intro ρ v hv
    rw [Expr.eval] at hv ⊢
    obtain ⟨vs, hvs, hv⟩ := Option.bind_eq_some_iff.mp hv
    exact Option.bind_eq_some_iff.mpr ⟨vs, h.eval ρ vs hvs, hv⟩

theorem tuple_congr {k : Kind} {op : OpN} {xs xs' : List Expr} {p p' : Place}
    (ht : (tuple k op xs p).typed) (h : RefinesList xs xs') :
    Refines (tuple k op xs p) (tuple k op xs' p') := by
  rw [Expr.typed, Bool.and_eq_true] at ht
  refine ⟨?_, ?_, ?_⟩
  · rw [Expr.typed, h.typed, h.kind, ht.2]
    rfl
  · by_cases hop : op = .comma
    · subst hop
      exact lastKind_congr h.kind
    · rw [valueKind_tuple hop, valueKind_tuple hop]
  · intro ρ v hv
    rw [eval_tuple] at hv ⊢
    obtain ⟨vs, hvs, hv⟩ := hv
    exact ⟨vs, h.eval ρ vs hvs, hv⟩

theorem unary_congr {k : Kind} {op : Op1} {x x' : Expr} {p q : Place}
    (ht : (unary k op x p).typed) (h : Refines x x') :
    Refines (unary k op x p) (unary k op x' q) := by
  rw [Expr.typed, Bool.and_eq_true] at ht
  refine ⟨?_, rfl, ?_⟩
  · rw [Expr.typed, h.typed, h.kind, ht.2]
    rfl
  · intro ρ v hv
    rw [eval_unary] at hv ⊢
    obtain ⟨a, ha, hv⟩ := hv
    exact ⟨a, h.eval ρ a ha, hv⟩

theorem eval_binary {ρ : Valuation} {k : Kind} {op : Op2} {x y : Expr} {p : Place}
    {v : BitVec 64} :
    eval ρ (binary k op x y p) = some v ↔ ∃ a, eval ρ x = some a ∧
      if op.decidedBy a then x.valueKind.evalBinary op a 0 = some v
      else ∃ b, eval ρ y = some b ∧ x.valueKind.evalBinary op a b = some v := by
  rw [eval]
  constructor
  · intro h
    obtain ⟨a, ha, h⟩ := Option.bind_eq_some_iff.mp h
    refine ⟨a, ha, ?_⟩
    by_cases hdec : op.decidedBy a
    · rw [if_pos hdec] at h ⊢
      exact h
    · rw [if_neg hdec] at h ⊢
      exact Option.bind_eq_some_iff.mp h
  · intro h
    obtain ⟨a, ha, h⟩ := h
    refine Option.bind_eq_some_iff.mpr ⟨a, ha, ?_⟩
    by_cases hdec : op.decidedBy a
    · rw [if_pos hdec] at h ⊢
      exact h
    · rw [if_neg hdec] at h ⊢
      exact Option.bind_eq_some_iff.mpr h

theorem binary_congr {k : Kind} {op : Op2} {x x' y y' : Expr} {p q : Place}
    (ht : (binary k op x y p).typed) (hx : Refines x x') (hy : Refines y y') :
    Refines (binary k op x y p) (binary k op x' y' q) := by
  rw [Expr.typed, Bool.and_eq_true, Bool.and_eq_true] at ht
  refine ⟨?_, rfl, ?_⟩
  · rw [Expr.typed, hx.typed, hy.typed, hx.kind, hy.kind, ht.2]
    rfl
  · intro ρ v hv
    rw [eval_binary] at hv ⊢
    obtain ⟨a, ha, hv⟩ := hv
    refine ⟨a, hx.eval ρ a ha, ?_⟩
    rw [hx.kind]
    split
    · next hdec =>
      rwa [if_pos hdec] at hv
    · next hdec =>
      rw [if_neg hdec] at hv
      obtain ⟨b, hb, hv⟩ := hv
      exact ⟨b, hy.eval ρ b hb, hv⟩

end Expr

end OneJit
