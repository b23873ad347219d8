import Mathlib.Data.List.Nodup
import Mathlib.Data.Set.Finite.List
import Mathlib.Logic.Relation
import Mathlib.Order.Preorder.Finite

/-!
# Orders of execution

A relation says what each element needs. A schedule is a list of groups, where an element has what
it needs before it or in its own group. What stops a schedule is a cycle.
-/

namespace Precedence

open Relation

section

variable {α : Type} (needs : α → α → Prop)

/-- An element on a cycle of two or more. -/
def OnCycle (a : α) : Prop := ∃ b, b ≠ a ∧ TransGen needs a b ∧ TransGen needs b a

/-- No element is in two groups, and what an element needs is earlier or in its group. -/
structure Schedule (groups : List (List α)) : Prop where
  nodup : groups.flatten.Nodup
  needs : ∀ before group after, groups = before ++ group :: after →
    ∀ a ∈ group, ∀ b, needs a b → b ∈ before.flatten ∨ b ∈ group

end

variable {α : Type} {needs : α → α → Prop}

theorem OnCycle.mono {needs' : α → α → Prop} (h : ∀ a b, needs a b → needs' a b) {a : α}
    (ha : OnCycle needs a) : OnCycle needs' a := by
  obtain ⟨b, hne, hab, hba⟩ := ha
  exact ⟨b, hne, TransGen.mono h _ _ hab, TransGen.mono h _ _ hba⟩

namespace Schedule

theorem nil : Schedule needs [] where
  nodup := List.nodup_nil
  needs before group after h := by simp at h

/-- The groups so far hold what they need. -/
theorem closed {groups : List (List α)} (h : Schedule needs groups) {a b : α}
    (ha : a ∈ groups.flatten) (hab : needs a b) : b ∈ groups.flatten := by
  obtain ⟨group, hgroup, hag⟩ := List.mem_flatten.mp ha
  obtain ⟨before, after, rfl⟩ := List.append_of_mem hgroup
  obtain hb | hb := h.needs before group after rfl a hag b hab
  · simp only [List.flatten_append, List.mem_append]
    exact .inl hb
  · exact List.mem_flatten.mpr ⟨group, hgroup, hb⟩

theorem closed_transGen {groups : List (List α)} (h : Schedule needs groups) {a b : α}
    (ha : a ∈ groups.flatten) (hab : TransGen needs a b) : b ∈ groups.flatten := by
  induction hab with
  | single hab => exact h.closed ha hab
  | tail _ hbc ih => exact h.closed ih hbc

/-- A new group, of which the needs are done or in it. -/
theorem snoc {groups : List (List α)} (h : Schedule needs groups) {group : List α}
    (hnodup : group.Nodup) (hnew : ∀ a ∈ group, a ∉ groups.flatten)
    (hneeds : ∀ a ∈ group, ∀ b, needs a b → b ∈ groups.flatten ∨ b ∈ group) :
    Schedule needs (groups ++ [group]) where
  nodup := by
    rw [List.flatten_append, List.flatten_singleton]
    exact h.nodup.append hnodup fun a ha hg => hnew a hg ha
  needs before g after heq := by
    induction after using List.reverseRecOn with
    | nil =>
      obtain ⟨rfl, hg⟩ := List.append_inj' heq rfl
      obtain rfl : group = g := by simpa using hg
      exact hneeds
    | append_singleton after last _ =>
      rw [← List.cons_append, ← List.append_assoc] at heq
      obtain ⟨hinit, -⟩ := List.append_inj' heq rfl
      exact h.needs before g after hinit

/-- An element that is alone in its group is on no cycle. -/
theorem not_onCycle {groups : List (List α)} (h : Schedule needs groups) {a : α}
    (hneeds : ∀ b, needs a b → b ∈ groups.flatten) (hnew : a ∉ groups.flatten) :
    ¬OnCycle needs a := by
  rintro ⟨b, -, hab, hba⟩
  obtain ⟨c, hac, hcb⟩ := TransGen.head'_iff.mp hab
  have hc := hneeds c hac
  have hca : TransGen needs c a := hba.trans_right hcb
  exact hnew (h.closed_transGen hc hca)

end Schedule

/-! ## Elements that come back -/

/-- In a finite set that is closed there is an element from which no path leads away. -/
theorem exists_recurrent {s : List α} (hs : s ≠ []) (hclosed : ∀ a ∈ s, ∀ b, needs a b → b ∈ s) :
    ∃ a ∈ s, ∀ b, ReflTransGen needs a b → ReflTransGen needs b a := by
  let : Preorder α :=
    { le := fun a b => ReflTransGen needs b a
      le_refl := fun _ => .refl
      le_trans := fun _ _ _ hab hbc => hbc.trans hab }
  obtain ⟨a, hmin⟩ := (List.finite_toSet s).exists_minimal (List.exists_mem_of_ne_nil s hs)
  have hreach : ∀ b, ReflTransGen needs a b → b ∈ s := by
    intro b hab
    induction hab with
    | refl => exact hmin.prop
    | tail _ hbc ih => exact hclosed _ ih _ hbc
  exact ⟨a, hmin.prop, fun b hab => hmin.le_of_le (hreach b hab) hab⟩

/-- When every element of a finite closed set needs another one, and reaches one with the property,
then one with the property is on a cycle. -/
theorem exists_onCycle {s : List α} (hs : s ≠ []) (hclosed : ∀ a ∈ s, ∀ b, needs a b → b ∈ s)
    (hirrefl : ∀ a, ¬needs a a) (hneeds : ∀ a ∈ s, ∃ b, needs a b) {p : α → Prop}
    (hreach : ∀ a ∈ s, ∃ b, ReflTransGen needs a b ∧ p b) : ∃ a ∈ s, p a ∧ OnCycle needs a := by
  obtain ⟨a, ha, hback⟩ := exists_recurrent hs hclosed
  obtain ⟨c, hac, hc⟩ := hreach a ha
  have hcs : c ∈ s := by
    clear hc
    induction hac with
    | refl => exact ha
    | tail _ hbc ih => exact hclosed _ ih _ hbc
  obtain ⟨d, hcd⟩ := hneeds c hcs
  have hne : d ≠ c := by
    rintro rfl
    exact hirrefl d hcd
  have hdc : ReflTransGen needs d c := (hback d (hac.tail hcd)).trans hac
  refine ⟨c, hcs, hc, d, hne, .single hcd, ?_⟩
  obtain rfl | hdc := reflTransGen_iff_eq_or_transGen.mp hdc
  · exact absurd rfl hne
  · exact hdc

end Precedence
