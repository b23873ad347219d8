import Mathlib.Order.Basic

/-!
# Sorting by insertion over gaps

A pass with a gap sinks each element in steps of the gap. Passes permute the elements, and the pass
with gap 1 sorts them.
-/

namespace GapSort

variable {α : Type*} (less : α → α → Bool)

/-- The order of the elements at two places. -/
def lessAt (xs : Array α) (i j : Nat) : Bool :=
  match xs[i]?, xs[j]? with
  | some a, some b => less a b
  | _, _ => false

/-- Sinks the element at place `j`. -/
def sink (gap : Nat) : Nat → Nat → Array α → Array α
  | 0, _, xs => xs
  | fuel + 1, j, xs =>
    if gap ≤ j ∧ lessAt less xs j (j - gap) then
      sink gap fuel (j - gap) (xs.swapIfInBounds j (j - gap))
    else xs

/-- Sinks the elements at `count` places from place `i` on. -/
def pass (gap : Nat) : Nat → Nat → Array α → Array α
  | 0, _, xs => xs
  | count + 1, i, xs => pass gap count (i + 1) (sink less gap i i xs)

/-- One pass for each gap. -/
def sort (gaps : List Nat) (xs : Array α) : Array α :=
  gaps.foldl (fun xs gap => pass less gap (xs.size - gap) gap xs) xs

variable {less}

theorem swap_perm (xs : Array α) (i j : Nat) : (xs.swapIfInBounds i j).Perm xs := by
  rw [Array.swapIfInBounds_def]
  split
  · split
    · exact Array.swap_perm _ _
    · exact .refl xs
  · exact .refl xs

theorem sink_perm (gap fuel j : Nat) (xs : Array α) : (sink less gap fuel j xs).Perm xs := by
  induction fuel generalizing j xs with
  | zero => exact .refl xs
  | succ fuel ih =>
    rw [sink]
    split
    · exact (ih _ _).trans (swap_perm xs j (j - gap))
    · exact .refl xs

theorem pass_perm (gap count i : Nat) (xs : Array α) : (pass less gap count i xs).Perm xs := by
  induction count generalizing i xs with
  | zero => exact .refl xs
  | succ count ih => exact (ih _ _).trans (sink_perm gap i i xs)

theorem sort_perm (gaps : List Nat) (xs : Array α) : (sort less gaps xs).Perm xs := by
  induction gaps generalizing xs with
  | nil => exact .refl xs
  | cons gap gaps ih => exact (ih _).trans (pass_perm gap _ gap xs)

/-! ## The pass with gap 1 -/

/-- A strict order in which no element between others is lost: what is not below is transitive. -/
structure Weak (less : α → α → Bool) : Prop where
  asymm : ∀ a b, less a b = true → less b a = false
  trans : ∀ a b c, less b a = false → less c b = false → less c a = false

/-- The elements at two places are in order. -/
def InOrder (less : α → α → Bool) (xs : Array α) (p q : Nat) : Prop :=
  ∀ a b, xs[p]? = some a → xs[q]? = some b → less b a = false

/-- The first `n` elements are in order. -/
def SortedTo (less : α → α → Bool) (xs : Array α) (n : Nat) : Prop :=
  ∀ p q, p < q → q < n → InOrder less xs p q

/-- The first `n` elements are in order, but that the one at place `j` may be too large a place. -/
def SortedBut (less : α → α → Bool) (xs : Array α) (n j : Nat) : Prop :=
  ∀ p q, p < q → q < n → q ≠ j → InOrder less xs p q

theorem SortedTo.but {xs : Array α} {n : Nat} (h : SortedTo less xs n) :
    SortedBut less xs (n + 1) n :=
  fun p q hpq hq hne => h p q hpq (by omega)

/-- The element at place `j` is in order too. -/
theorem SortedBut.sorted {xs : Array α} {n j : Nat} (hw : Weak less) (h : SortedBut less xs n j)
    (hj : j = 0 ∨ lessAt less xs j (j - 1) = false) (hsize : n ≤ xs.size) :
    SortedTo less xs n := by
  intro p q hpq hq a b ha hb
  by_cases hqj : q = j
  · subst hqj
    rcases hj with hzero | hlast
    · omega
    · have hlt : q - 1 < xs.size := by omega
      have hc : xs[q - 1]? = some xs[q - 1] := Array.getElem?_eq_getElem hlt
      rw [lessAt, hb, hc] at hlast
      by_cases hp : p = q - 1
      · subst hp
        rw [hc, Option.some.injEq] at ha
        rwa [← ha]
      · exact hw.trans a _ b (h p (q - 1) (by omega) (by omega) (by omega) a _ ha hc) hlast
  · exact h p q hpq hq hqj a b ha hb

/-- The places after a swap of neighbours. -/
theorem getElem?_swap_pred {xs : Array α} {j : Nat} (hj : 0 < j) (hlt : j < xs.size) (p : Nat) :
    (xs.swapIfInBounds j (j - 1))[p]? =
      if p = j then xs[j - 1]? else if p = j - 1 then xs[j]? else xs[p]? := by
  have hpred : j - 1 < xs.size := by omega
  rw [Array.swapIfInBounds_def, dif_pos hlt, dif_pos hpred, Array.getElem?_swap]
  by_cases hp : p = j
  · subst hp
    have hne : ¬ p - 1 = p := by omega
    simp [hne, Array.getElem?_eq_getElem hpred]
  · by_cases hp' : p = j - 1
    · subst hp'
      simp [hp, Array.getElem?_eq_getElem hlt]
    · simp [hp, hp', Ne.symm hp, Ne.symm hp']

/-- A swap moves the place that may be too large one down. -/
theorem SortedBut.swap {xs : Array α} {n j : Nat} (hw : Weak less) (h : SortedBut less xs n j)
    (hj : 0 < j) (hjn : j < n) (hsize : n ≤ xs.size) (hless : lessAt less xs j (j - 1) = true) :
    SortedBut less (xs.swapIfInBounds j (j - 1)) n (j - 1) := by
  intro p q hpq hq hne a b ha hb
  rw [getElem?_swap_pred hj (by omega)] at ha hb
  rw [if_neg (show ¬ q = j - 1 from hne)] at hb
  by_cases hqj : q = j
  · -- the greater one of the two is now at place `j`
    subst hqj
    rw [if_pos rfl] at hb
    rw [if_neg (by omega)] at ha
    by_cases hp : p = q - 1
    · rw [if_pos hp] at ha
      rw [lessAt, ha, hb] at hless
      exact hw.asymm a b hless
    · rw [if_neg hp] at ha
      exact h p (q - 1) (by omega) (by omega) (by omega) a b ha hb
  · rw [if_neg hqj] at hb
    by_cases hpj : p = j
    · rw [if_pos hpj] at ha
      exact h (j - 1) q (by omega) hq hqj a b ha hb
    · rw [if_neg hpj] at ha
      by_cases hp : p = j - 1
      · rw [if_pos hp] at ha
        exact h j q (by omega) hq hqj a b ha hb
      · rw [if_neg hp] at ha
        exact h p q hpq hq hqj a b ha hb

theorem sink_size (gap fuel j : Nat) (xs : Array α) : (sink less gap fuel j xs).size = xs.size :=
  (sink_perm gap fuel j xs).size_eq

theorem sink_sorted (hw : Weak less) {fuel j n : Nat} {xs : Array α} (h : SortedBut less xs n j)
    (hjn : j < n) (hsize : n ≤ xs.size) (hfuel : j ≤ fuel) :
    SortedTo less (sink less 1 fuel j xs) n := by
  induction fuel generalizing j xs with
  | zero => exact h.sorted hw (.inl (by omega)) hsize
  | succ fuel ih =>
    rw [sink]
    split
    · rename_i hcond
      exact ih (h.swap hw hcond.1 hjn hsize hcond.2) (by omega) (by simpa using hsize) (by omega)
    · rename_i hcond
      refine h.sorted hw ?_ hsize
      by_cases hj : j = 0
      · exact .inl hj
      · exact .inr (Bool.not_eq_true _ ▸ fun hless => hcond ⟨by omega, hless⟩)

theorem pass_sorted (hw : Weak less) {count i : Nat} {xs : Array α} (h : SortedTo less xs i)
    (hsize : i + count ≤ xs.size) : SortedTo less (pass less 1 count i xs) (i + count) := by
  induction count generalizing i xs with
  | zero => exact h
  | succ count ih =>
    have hsink := sink_sorted hw h.but (Nat.lt_succ_self i) (by omega) (Nat.le_refl i)
    have hnext := ih hsink (by rw [sink_size]; omega)
    rw [pass]
    rwa [show i + (count + 1) = i + 1 + count by omega]

theorem sort_append (gaps gaps' : List Nat) (xs : Array α) :
    sort less (gaps ++ gaps') xs = sort less gaps' (sort less gaps xs) := by
  rw [sort, List.foldl_append]
  rfl

/-- Gaps that end with 1 sort. -/
theorem sort_sorted (hw : Weak less) (gaps : List Nat) (xs : Array α) :
    SortedTo less (sort less (gaps ++ [1]) xs) xs.size := by
  rw [sort_append]
  have hsize : (sort less gaps xs).size = xs.size := (sort_perm gaps xs).size_eq
  have hstart : SortedTo less (sort less gaps xs) 1 := fun p q hpq hq => by omega
  by_cases hzero : xs.size = 0
  · intro p q hpq hq
    omega
  · have hpass := @pass_sorted α less hw ((sort less gaps xs).size - 1) 1 _ hstart (by omega)
    rw [show 1 + ((sort less gaps xs).size - 1) = xs.size by omega] at hpass
    exact hpass

theorem SortedTo.pairwise {xs : Array α} (h : SortedTo less xs xs.size) :
    xs.toList.Pairwise fun a b => less b a = false := by
  rw [List.pairwise_iff_getElem]
  intro i j hi hj hij
  refine h i j hij (by simpa using hj) _ _ ?_ ?_
  · rw [← Array.getElem?_toList, List.getElem?_eq_getElem hi]
  · rw [← Array.getElem?_toList, List.getElem?_eq_getElem hj]

end GapSort
