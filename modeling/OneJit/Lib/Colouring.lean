import Mathlib.Data.Finset.Card
import Mathlib.Data.Finset.Image
import Mathlib.Data.Set.Insert

/-!
# Partial colourings of a graph

Vertices are coloured one after the other. A colouring that is proper on the vertices coloured
so far stays proper when the next vertex avoids the colours of its coloured neighbours, and a
vertex with fewer than `k` coloured neighbours finds a free colour below `k`.
-/

namespace Colouring

variable {V C : Type*}

/-- Distinct adjacent vertices of `S` have different colours. -/
def ProperOn (adj : V → V → Prop) (S : Set V) (color : V → Option C) : Prop :=
  ∀ u ∈ S, ∀ v ∈ S, u ≠ v → adj u v → color u ≠ color v

theorem properOn_empty (adj : V → V → Prop) (color : V → Option C) :
    ProperOn adj ∅ color := by
  intro u hu
  exact absurd hu (Set.notMem_empty u)

/-- One more vertex is coloured, differently from its neighbours in `S`. -/
theorem ProperOn.insert {adj : V → V → Prop} {S : Set V} {color color' : V → Option C} {v : V}
    (h : ProperOn adj S color) (hsymm : ∀ a b, adj a b → adj b a)
    (hsame : ∀ u ∈ S, color' u = color u)
    (hnew : ∀ u ∈ S, u ≠ v → adj v u → color' v ≠ color u) :
    ProperOn adj (insert v S) color' := by
  intro a ha b hb hab hadj
  rcases Set.mem_insert_iff.mp ha with rfl | haS
  · have hbS : b ∈ S := (Set.mem_insert_iff.mp hb).resolve_left (Ne.symm hab)
    rw [hsame b hbS]
    exact hnew b hbS (Ne.symm hab) hadj
  · rcases Set.mem_insert_iff.mp hb with rfl | hbS
    · rw [hsame a haS]
      exact (hnew a haS hab (hsymm _ _ hadj)).symm
    · rw [hsame a haS, hsame b hbS]
      exact h a haS b hbS hab hadj

/-- Fewer than `k` coloured vertices leave a colour below `k` free. -/
theorem exists_free_colour (N : Finset V) (color : V → Option Nat) (k : Nat)
    (h : N.card < k) : ∃ c < k, ∀ v ∈ N, color v ≠ some c := by
  classical
  by_contra hnone
  simp only [not_exists, not_and, not_forall, not_not] at hnone
  have hsub : (Finset.range k).image some ⊆ N.image color := by
    intro c hc
    obtain ⟨i, hi, rfl⟩ := Finset.mem_image.mp hc
    obtain ⟨v, hv, hcolor⟩ := hnone i (Finset.mem_range.mp hi)
    exact Finset.mem_image.mpr ⟨v, hv, hcolor⟩
  have hcard := Finset.card_le_card hsub
  rw [Finset.card_image_of_injective _ (Option.some_injective _), Finset.card_range] at hcard
  have himage : (N.image color).card ≤ N.card := Finset.card_image_le
  omega

end Colouring
