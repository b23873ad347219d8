import Mathlib.Data.List.Perm.Basic

/-!
# Folding a commutative operation over a list

`MonoidOn` is a commutative monoid on the elements that satisfy a predicate: the operation may be
arbitrary elsewhere. The fold of a list does not depend on the order or the grouping of the
elements, the unit may be dropped and an absorbing element decides the result.
-/

/-- A commutative monoid on the elements that satisfy `valid`. -/
structure MonoidOn (α : Type*) where
  valid : α → Prop
  op : α → α → α
  unit : α
  valid_op : ∀ a b, valid a → valid b → valid (op a b)
  valid_unit : valid unit
  comm : ∀ a b, valid a → valid b → op a b = op b a
  assoc : ∀ a b c, valid a → valid b → valid c → op (op a b) c = op a (op b c)
  unit_op : ∀ a, valid a → op unit a = a

namespace MonoidOn

variable {α : Type*} (m : MonoidOn α)

def fold (xs : List α) : α := xs.foldr m.op m.unit

@[simp] theorem fold_nil : m.fold [] = m.unit := rfl

@[simp] theorem fold_cons (x : α) (xs : List α) : m.fold (x :: xs) = m.op x (m.fold xs) := rfl

theorem op_unit {a : α} (ha : m.valid a) : m.op a m.unit = a := by
  rw [m.comm a m.unit ha m.valid_unit, m.unit_op a ha]

theorem fold_singleton {a : α} (ha : m.valid a) : m.fold [a] = a := m.op_unit ha

theorem valid_fold {xs : List α} (h : ∀ x ∈ xs, m.valid x) : m.valid (m.fold xs) := by
  induction xs with
  | nil => exact m.valid_unit
  | cons x xs ih =>
    simp only [List.forall_mem_cons] at h
    exact m.valid_op x _ h.1 (ih h.2)

theorem fold_append {xs ys : List α} (hx : ∀ x ∈ xs, m.valid x) (hy : ∀ y ∈ ys, m.valid y) :
    m.fold (xs ++ ys) = m.op (m.fold xs) (m.fold ys) := by
  induction xs with
  | nil => rw [List.nil_append, fold_nil, m.unit_op _ (m.valid_fold hy)]
  | cons x xs ih =>
    simp only [List.forall_mem_cons] at hx
    rw [List.cons_append, fold_cons, ih hx.2, fold_cons,
      m.assoc x _ _ hx.1 (m.valid_fold hx.2) (m.valid_fold hy)]

theorem fold_perm {xs ys : List α} (h : xs.Perm ys) (hx : ∀ x ∈ xs, m.valid x) :
    m.fold xs = m.fold ys := by
  induction h with
  | nil => rfl
  | cons x h ih =>
    simp only [List.forall_mem_cons] at hx
    rw [fold_cons, fold_cons, ih hx.2]
  | swap x y l =>
    simp only [List.forall_mem_cons] at hx
    have hl := m.valid_fold hx.2.2
    simp only [fold_cons]
    rw [← m.assoc y x _ hx.1 hx.2.1 hl, m.comm y x hx.1 hx.2.1, m.assoc x y _ hx.2.1 hx.1 hl]
  | trans h1 h2 ih1 ih2 =>
    rw [ih1 hx, ih2 fun x hx2 => hx x (h1.mem_iff.mpr hx2)]

/-- Folding from the left, from any start. -/
theorem foldl_eq {a : α} {xs : List α} (ha : m.valid a) (hx : ∀ x ∈ xs, m.valid x) :
    xs.foldl m.op a = m.op a (m.fold xs) := by
  induction xs generalizing a with
  | nil => exact (m.op_unit ha).symm
  | cons x xs ih =>
    simp only [List.forall_mem_cons] at hx
    rw [List.foldl_cons, ih (m.valid_op a x ha hx.1) hx.2, fold_cons,
      m.assoc a x _ ha hx.1 (m.valid_fold hx.2)]

end MonoidOn
