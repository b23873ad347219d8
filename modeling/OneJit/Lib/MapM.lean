import Mathlib.Data.List.Forall2

/-!
# `mapM` in `Option`

A function that may fail, applied to every element of a list.
-/

namespace List

variable {α β : Type*}

theorem mapM_eq_some {f : α → Option β} {xs : List α} {ys : List β} :
    xs.mapM f = some ys ↔ Forall₂ (fun x y => f x = some y) xs ys := by
  induction xs generalizing ys with
  | nil => simp [eq_comm]
  | cons x xs ih =>
    rw [mapM_cons, forall₂_cons_left_iff]
    constructor
    · intro h
      obtain ⟨y, hy, h⟩ := Option.bind_eq_some_iff.mp h
      obtain ⟨ys', hys, h⟩ := Option.bind_eq_some_iff.mp h
      exact ⟨y, ys', hy, ih.mp hys, (Option.some.inj h).symm⟩
    · intro ⟨y, ys', hy, hys, h⟩
      subst h
      exact Option.bind_eq_some_iff.mpr ⟨y, hy, Option.bind_eq_some_iff.mpr ⟨ys', ih.mpr hys, rfl⟩⟩

/-- What holds of every result of `f` relates the results to the elements. -/
theorem forall₂_of_mapM {f : α → Option β} {r : α → β → Prop} {xs : List α} {ys : List β}
    (h : xs.mapM f = some ys) (hr : ∀ x ∈ xs, ∀ y, f x = some y → r x y) : Forall₂ r xs ys := by
  rw [mapM_eq_some] at h
  induction h with
  | nil => exact .nil
  | cons hxy _ ih =>
    rw [forall_mem_cons] at hr
    exact .cons (hr.1 _ hxy) (ih hr.2)

theorem mapM_congr_of_mem {f g : α → Option β} {xs : List α} (h : ∀ x ∈ xs, f x = g x) :
    xs.mapM f = xs.mapM g := by
  induction xs with
  | nil => rfl
  | cons x xs ih =>
    rw [forall_mem_cons] at h
    rw [mapM_cons, mapM_cons, h.1, ih h.2]

theorem exists_forall₂ {r : α → β → Prop} {xs : List α} (h : ∀ x ∈ xs, ∃ y, r x y) :
    ∃ ys, Forall₂ r xs ys := by
  induction xs with
  | nil => exact ⟨[], .nil⟩
  | cons x xs ih =>
    rw [forall_mem_cons] at h
    obtain ⟨y, hy⟩ := h.1
    obtain ⟨ys, hys⟩ := ih h.2
    exact ⟨y :: ys, .cons hy hys⟩

theorem Forall₂.and {r s : α → β → Prop} {xs : List α} {ys : List β} (hr : Forall₂ r xs ys)
    (hs : Forall₂ s xs ys) : Forall₂ (fun x y => r x y ∧ s x y) xs ys := by
  induction hr with
  | nil => exact .nil
  | cons hxy _ ih =>
    rw [forall₂_cons] at hs
    exact .cons ⟨hxy, hs.1⟩ (ih hs.2)

theorem Forall₂.exists_right {r : α → β → Prop} {xs : List α} {ys : List β} (h : Forall₂ r xs ys) :
    ∀ x ∈ xs, ∃ y ∈ ys, r x y := by
  induction h with
  | nil => simp
  | cons hxy _ ih =>
    intro x hx
    rcases mem_cons.mp hx with rfl | hx
    · exact ⟨_, mem_cons_self, hxy⟩
    · obtain ⟨y, hy, hr⟩ := ih x hx
      exact ⟨y, mem_cons_of_mem _ hy, hr⟩

theorem Forall₂.exists_left {r : α → β → Prop} {xs : List α} {ys : List β} (h : Forall₂ r xs ys) :
    ∀ y ∈ ys, ∃ x ∈ xs, r x y := h.flip.exists_right

theorem Forall₂.getLast? {r : α → β → Prop} {xs : List α} {ys : List β} (h : Forall₂ r xs ys)
    {y : β} (hy : ys.getLast? = some y) : ∃ x, xs.getLast? = some x ∧ r x y := by
  induction h with
  | nil => simp at hy
  | @cons x y' xs ys hxy hrest ih =>
    cases hrest with
    | nil =>
      rw [getLast?_singleton, Option.some.injEq] at hy
      exact ⟨x, rfl, hy ▸ hxy⟩
    | cons hxy' hrest =>
      rw [getLast?_cons_cons] at hy ⊢
      exact ih hy

/-- The function is defined on every element, with results in a relation. -/
theorem exists_mapM_eq_some {f : α → Option β} {r : α → β → Prop} {xs : List α}
    (h : ∀ x ∈ xs, ∃ y, f x = some y ∧ r x y) : ∃ ys, xs.mapM f = some ys ∧ Forall₂ r xs ys := by
  induction xs with
  | nil => exact ⟨[], rfl, .nil⟩
  | cons x xs ih =>
    rw [forall_mem_cons] at h
    obtain ⟨y, hy, hr⟩ := h.1
    obtain ⟨ys, hys, hrs⟩ := ih h.2
    refine ⟨y :: ys, ?_, .cons hr hrs⟩
    rw [mapM_cons, hy, hys]
    rfl

end List
