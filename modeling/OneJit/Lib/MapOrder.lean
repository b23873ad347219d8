import Mathlib.Data.List.Basic

/-!
# Orders of iteration

The order in which a map or a set is iterated is any order, and another one at every moment.
-/

/-- An order of iteration for every moment of a run. -/
structure MapOrder (α : Type) where
  order : List Nat → List α → List α
  perm : ∀ moment xs, (order moment xs).Perm xs

namespace MapOrder

variable {α : Type}

/-- The orders of the moments of a part of the run. -/
def part (o : MapOrder α) (n : Nat) : MapOrder α where
  order moment xs := o.order (n :: moment) xs
  perm moment xs := o.perm (n :: moment) xs

/-- The elements as they are iterated. -/
def range (o : MapOrder α) (xs : List α) : List α := o.order [] xs

@[simp] theorem mem_range {o : MapOrder α} {xs : List α} {a : α} : a ∈ o.range xs ↔ a ∈ xs :=
  (o.perm [] xs).mem_iff

/-- The order in which the elements are listed. -/
def listed : MapOrder α where
  order _ xs := xs
  perm _ _ := .refl _

end MapOrder
