import OneJit.Go.Interface

/-!
# The calls of a sort

`Sort` with every call of `Less` and `Swap` checked, and `Strings`, which shifts elements where
`Sort` swaps them. `none` is an index out of range, or a loop that takes more than `bound` steps.
-/

namespace OneJit.Go.Sort

open GapSort
open OneJit.Go.Types (bytesLess)

variable {α : Type}

section Loops

variable (less : α → α → Bool) (bound gap : Nat)

/-- `data.Less(i, j)`. -/
def dataLess (data : Array α) (i j : Nat) : Option Bool := do
  let a ← data[i]?
  let b ← data[j]?
  some (less a b)

/-- `data.Swap(i, j)`. -/
def dataSwap (data : Array α) (i j : Nat) : Option (Array α) :=
  if i < data.size ∧ j < data.size then some (data.swapIfInBounds i j) else none

/-- `data[i] = x`. -/
def dataSet (data : Array α) (i : Nat) (x : α) : Option (Array α) :=
  if i < data.size then some (data.setIfInBounds i x) else none

/-- The loop over `j` of `Sort`. -/
def swapLoop : Nat → Nat → Array α → Option (Array α)
  | 0, _, _ => none
  | fuel + 1, j, data =>
    if gap ≤ j then do
      let lt ← dataLess less data j (j - gap)
      if lt then
        let data ← dataSwap data j (j - gap)
        swapLoop fuel (j - gap) data
      else some data
    else some data

/-- The loop over `i` of `Sort`, up to `n`. -/
def swapPass (n : Nat) : Nat → Nat → Array α → Option (Array α)
  | 0, _, _ => none
  | fuel + 1, i, data =>
    if i < n then do
      let data ← swapLoop less gap bound i data
      swapPass n fuel (i + 1) data
    else some data

/-- The loop over `j` of `Strings`, with the last value of `j`. -/
def shiftLoop (temp : α) : Nat → Nat → Array α → Option (Nat × Array α)
  | 0, _, _ => none
  | fuel + 1, j, data =>
    if gap ≤ j then do
      let x ← data[j - gap]?
      if less temp x then
        let data ← dataSet data j x
        shiftLoop temp fuel (j - gap) data
      else some (j, data)
    else some (j, data)

/-- The loop over `i` of `Strings`, up to `n`. -/
def shiftPass (n : Nat) : Nat → Nat → Array α → Option (Array α)
  | 0, _, _ => none
  | fuel + 1, i, data =>
    if i < n then do
      let temp ← data[i]?
      let (j, data) ← shiftLoop less gap temp bound i data
      let data ← dataSet data j temp
      shiftPass n fuel (i + 1) data
    else some data

end Loops

/-- `Sort`. -/
def sortCalls (less : α → α → Bool) (bound : Nat) (data : Array α) : Option (Array α) :=
  ((gapsFor data.size).map Int.toNat).foldlM
    (fun data' gap => swapPass less bound gap data.size bound gap data') data

/-- `Strings`. -/
def stringsCalls (bound : Nat) (data : Array Bytes) : Option (Array Bytes) :=
  ((gapsFor data.size).map Int.toNat).foldlM
    (fun data' gap => shiftPass bytesLess bound gap data.size bound gap data') data

section Loops

variable {less : α → α → Bool} {bound gap : Nat}

theorem dataLess_eq {data : Array α} {i j : Nat} (hi : i < data.size) (hj : j < data.size) :
    dataLess less data i j = some (lessAt less data i j) := by
  simp [dataLess, lessAt, hi, hj]

theorem dataSwap_eq {data : Array α} {i j : Nat} (hi : i < data.size) (hj : j < data.size) :
    dataSwap data i j = some (data.swapIfInBounds i j) := if_pos ⟨hi, hj⟩

theorem dataSet_eq {data : Array α} {i : Nat} (hi : i < data.size) (x : α) :
    dataSet data i x = some (data.setIfInBounds i x) := if_pos hi

/-- The loop over `j` sinks an element. -/
theorem swapLoop_eq (hgap : 0 < gap) {fuel steps j : Nat} {data : Array α} (hj : j < data.size)
    (hfuel : j < fuel) (hsteps : j ≤ steps) :
    swapLoop less gap fuel j data = some (sink less gap steps j data) := by
  induction fuel generalizing steps j data with
  | zero => omega
  | succ fuel ih =>
    rw [swapLoop]
    by_cases hle : gap ≤ j
    · obtain ⟨steps, rfl⟩ := Nat.exists_eq_add_of_le' (show 1 ≤ steps by omega)
      have hpred : j - gap < data.size := by omega
      rw [if_pos hle, sink, dataLess_eq hj hpred, Option.bind_eq_bind, Option.bind_some]
      by_cases hless : lessAt less data j (j - gap) = true
      · rw [if_pos hless, if_pos ⟨hle, hless⟩, dataSwap_eq hj hpred, Option.bind_eq_bind,
          Option.bind_some]
        exact ih (by simpa using hpred) (by omega) (by omega)
      · rw [if_neg hless, if_neg fun hand => hless hand.2]
    · rw [if_neg hle]
      cases steps with
      | zero => rfl
      | succ steps => rw [sink, if_neg fun hand => hle hand.1]

theorem swapPass_eq (hgap : 0 < gap) {n fuel count i : Nat} {data : Array α} (hsize : data.size = n)
    (hin : i + count = n) (hbound : n ≤ bound) (hfuel : count < fuel) :
    swapPass less bound gap n fuel i data = some (pass less gap count i data) := by
  induction fuel generalizing count i data with
  | zero => omega
  | succ fuel ih =>
    rw [swapPass]
    cases count with
    | zero =>
      rw [if_neg (show ¬ i < n by omega)]
      rfl
    | succ count =>
      have hi : i < data.size := by omega
      rw [if_pos (show i < n by omega), GapSort.pass,
        swapLoop_eq hgap hi (by omega) (Nat.le_refl i), Option.bind_eq_bind, Option.bind_some]
      exact ih (by rw [sink_size, hsize]) (by omega) (by omega)

/-- To move an element up by a gap and then to put another one in its place is a swap. -/
theorem set_set_eq_swap {data : Array α} {i j : Nat} (hi : i < data.size) (hj : j < data.size)
    (hne : i ≠ j) (x temp : α) (hx : data[j]? = some x) :
    (data.setIfInBounds i x).setIfInBounds j temp =
      (data.setIfInBounds i temp).swapIfInBounds i j := by
  apply Array.ext_getElem?
  intro k
  have hsize : (data.setIfInBounds i temp).size = data.size := by simp
  rw [Array.swapIfInBounds_def, dif_pos (by omega), dif_pos (by omega), Array.getElem?_swap]
  simp only [Array.getElem?_setIfInBounds]
  grind

/-- The loop over `j` of `Strings` does with a hole what that of `Sort` does with the element. -/
theorem shiftLoop_eq (hgap : 0 < gap) {fuel j : Nat} {data : Array α} (hj : j < data.size)
    (hfuel : j < fuel) (temp : α) :
    ∃ j' data', shiftLoop less gap temp fuel j data = some (j', data') ∧ j' < data'.size ∧
      swapLoop less gap fuel j (data.setIfInBounds j temp) = some (data'.setIfInBounds j' temp) := by
  induction fuel generalizing j data with
  | zero => omega
  | succ fuel ih =>
    rw [shiftLoop, swapLoop]
    by_cases hle : gap ≤ j
    · have hpred : j - gap < data.size := by omega
      have hx : data[j - gap]? = some data[j - gap] := Array.getElem?_eq_getElem hpred
      have hless : dataLess less (data.setIfInBounds j temp) j (j - gap) =
          some (less temp data[j - gap]) := by
        have hne : j ≠ j - gap := by omega
        simp [dataLess, hj, hne, hx]
      rw [if_pos hle, if_pos hle, hx, hless]
      simp only [Option.bind_eq_bind, Option.bind_some]
      by_cases hlt : less temp data[j - gap] = true
      · rw [if_pos hlt, if_pos hlt, dataSet_eq hj, dataSwap_eq (by simpa using hj)
          (by simpa using hpred), Option.bind_some, Option.bind_some,
          ← set_set_eq_swap hj hpred (by omega) _ _ hx]
        exact ih (by simpa using hpred) (by omega)
      · rw [if_neg hlt, if_neg hlt]
        exact ⟨j, data, rfl, hj, rfl⟩
    · rw [if_neg hle, if_neg hle]
      exact ⟨j, data, rfl, hj, rfl⟩

theorem shiftPass_eq (hgap : 0 < gap) {n fuel i : Nat} {data : Array α} (hsize : data.size = n)
    (hbound : n ≤ bound) :
    shiftPass less bound gap n fuel i data = swapPass less bound gap n fuel i data := by
  induction fuel generalizing i data with
  | zero => rfl
  | succ fuel ih =>
    rw [shiftPass, swapPass]
    by_cases hi : i < n
    · have hlt : i < data.size := by omega
      have hx : data[i]? = some data[i] := Array.getElem?_eq_getElem hlt
      obtain ⟨j, data', hshift, hj, hswap⟩ :=
        @shiftLoop_eq α less gap hgap bound i data hlt (by omega) data[i]
      have hself : data.setIfInBounds i data[i] = data := by
        apply Array.ext_getElem?
        intro k
        rw [Array.getElem?_setIfInBounds]
        grind
      rw [hself] at hswap
      have hsize' : (data'.setIfInBounds j data[i]).size = n := by
        rw [swapLoop_eq hgap hlt (by omega) (Nat.le_refl i), Option.some.injEq] at hswap
        rw [← hswap, sink_size, hsize]
      rw [if_pos hi, if_pos hi, hx, hswap]
      simp only [Option.bind_eq_bind, Option.bind_some]
      rw [hshift]
      simp only [Option.bind_some]
      rw [dataSet_eq hj, Option.bind_some]
      exact ih hsize'
    · rw [if_neg hi, if_neg hi]

end Loops

theorem gapsForLoop_subset (n : Int) (i : Nat) : gapsForLoop n i ⊆ gaps := by
  induction i with
  | zero => exact fun _ h => h
  | succ i ih =>
    rw [gapsForLoop]
    split
    · exact List.drop_subset _ _
    · exact ih

theorem gapsFor_pos (n : Int) : ∀ gap ∈ (gapsFor n).map Int.toNat, 0 < gap := by
  intro gap hgap
  obtain ⟨g, hg, rfl⟩ := List.mem_map.mp hgap
  have hpos := gaps_pos g (gapsForLoop_subset n _ hg)
  omega

/-- The passes with a list of gaps. -/
theorem foldlM_swapPass {less : α → α → Bool} {bound n : Nat} {gaps : List Nat}
    (hgaps : ∀ gap ∈ gaps, 0 < gap) {data : Array α} (hsize : data.size = n) (hbound : n < bound) :
    gaps.foldlM (fun data gap => swapPass less bound gap n bound gap data) data =
      some (GapSort.sort less gaps data) := by
  induction gaps generalizing data with
  | nil => rfl
  | cons gap gaps ih =>
    obtain ⟨hgap, hgaps⟩ := List.forall_mem_cons.mp hgaps
    have hpass : swapPass less bound gap n bound gap data =
        some (pass less gap (data.size - gap) gap data) := by
      by_cases hle : gap ≤ n
      · exact swapPass_eq hgap hsize (by omega) (by omega) (by omega)
      · -- the gap is above the length: nothing is done
        obtain ⟨bound, rfl⟩ := Nat.exists_eq_add_of_le' (show 1 ≤ bound by omega)
        rw [swapPass, if_neg (show ¬ gap < n by omega), show data.size - gap = 0 by omega]
        rfl
    rw [List.foldlM_cons, hpass, Option.bind_eq_bind, Option.bind_some]
    have hsize' : (pass less gap (data.size - gap) gap data).size = n :=
      (pass_perm gap _ gap data).size_eq.trans hsize
    exact ih hgaps hsize'

/-- `Sort` calls `Less` and `Swap` with indices in range only. -/
theorem sortCalls_eq (less : α → α → Bool) (data : Array α) {bound : Nat}
    (hbound : data.size < bound) : sortCalls less bound data = some (sort less data) :=
  foldlM_swapPass (gapsFor_pos _) rfl hbound

/-- `Strings` is `Sort` with `<`. -/
theorem stringsCalls_eq (data : Array Bytes) {bound : Nat} (hbound : data.size < bound) :
    stringsCalls bound data = some (sort bytesLess data) := by
  rw [← sortCalls_eq bytesLess data hbound, stringsCalls, sortCalls]
  have hfold : ∀ (gaps : List Nat), (∀ gap ∈ gaps, 0 < gap) → ∀ data' : Array Bytes,
      data'.size = data.size →
      gaps.foldlM (fun d gap => shiftPass bytesLess bound gap data.size bound gap d) data' =
        gaps.foldlM (fun d gap => swapPass bytesLess bound gap data.size bound gap d) data' := by
    intro gaps hgaps
    induction gaps with
    | nil => exact fun _ _ => rfl
    | cons gap gaps ih =>
      intro data' hsize
      obtain ⟨hgap, hgaps⟩ := List.forall_mem_cons.mp hgaps
      rw [List.foldlM_cons, List.foldlM_cons, shiftPass_eq hgap hsize (by omega)]
      have hone := @foldlM_swapPass Bytes bytesLess bound data.size [gap] (by simpa using hgap) data'
        hsize hbound
      rw [List.foldlM_cons] at hone
      obtain ⟨d, hd, hrest⟩ := Option.bind_eq_some_iff.mp hone
      rw [hd, Option.bind_eq_bind, Option.bind_some, Option.bind_some]
      refine ih hgaps d ?_
      rw [List.foldlM_nil, Option.pure_def, Option.some.injEq] at hrest
      rw [hrest, (GapSort.sort_perm [gap] data').size_eq, hsize]
  exact hfold _ (gapsFor_pos _) data rfl

theorem bytesLess_weak : Weak bytesLess where
  asymm a b h := by
    simp only [bytesLess, decide_eq_true_eq, decide_eq_false_iff_not] at h ⊢
    exact lt_asymm h
  trans a b c hba hcb := by
    simp only [bytesLess, decide_eq_false_iff_not, not_lt] at hba hcb ⊢
    exact hba.trans hcb

/-- `Sort` ends, with indices in range, and leaves a permutation in which no element is less than
one before it; so does `Strings`. -/
theorem sort_sorts :
    (∀ (α : Type) (less : α → α → Bool), Weak less → ∀ data : Array α, data.size < 2 ^ 63 →
      ∃ out : Array α, (∃ m, ∀ bound, m ≤ bound → sortCalls less bound data = some out) ∧
        out.Perm data ∧ out.toList.Pairwise fun a b => less b a = false) ∧
    ∀ data : Array Bytes, data.size < 2 ^ 63 →
      ∃ out : Array Bytes, (∃ m, ∀ bound, m ≤ bound → stringsCalls bound data = some out) ∧
        out.Perm data ∧ out.toList.Pairwise fun a b => bytesLess b a = false := by
  constructor
  · intro α less hw data _
    exact ⟨sort less data, ⟨data.size + 1, fun bound hb => sortCalls_eq less data (by omega)⟩,
      sort_perm less data, sort_sorted hw data⟩
  · intro data _
    exact ⟨sort bytesLess data, ⟨data.size + 1, fun bound hb => stringsCalls_eq data (by omega)⟩,
      sort_perm bytesLess data, sort_sorted bytesLess_weak data⟩

/-- Three numbers, and two strings of which the first one is longer. -/
theorem sort_sorts_three :
    (∃ out : Array Nat, (∃ m, ∀ bound, m ≤ bound →
      sortCalls (fun a b => decide (a < b)) bound #[3, 1, 2] = some out) ∧ out.Perm #[3, 1, 2] ∧
      out.toList.Pairwise fun a b => decide (b < a) = false) ∧
    ∃ out : Array Bytes, (∃ m, ∀ bound, m ≤ bound →
      stringsCalls bound #[[98, 97], [97]] = some out) ∧ out.Perm #[[98, 97], [97]] ∧
      out.toList.Pairwise fun a b => bytesLess b a = false := by
  have hweak : Weak fun a b : Nat => decide (a < b) := by
    constructor
    · intro a b h
      simp only [decide_eq_true_eq, decide_eq_false_iff_not] at h ⊢
      omega
    · intro a b c hba hcb
      simp only [decide_eq_false_iff_not] at hba hcb ⊢
      omega
  exact ⟨sort_sorts.1 Nat _ hweak #[3, 1, 2] (by decide), sort_sorts.2 #[[98, 97], [97]] (by decide)⟩

end OneJit.Go.Sort
