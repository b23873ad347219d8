import OneJit.Go.Token
import OneJit.Lib.Bisect
import OneJit.Lib.GapSort
import Mathlib.Algebra.Group.Int.Defs
import Mathlib.Algebra.Group.Nat.Defs
import Mathlib.Data.List.GetD
import Mathlib.Data.List.Pairwise

/-!
# Searching and sorting

`Search` and `SearchInts` are the loop of `Bisect` on the interval from 0 to the last index. They
never look at the last index, so that they return it where nothing is found. `Sort` sorts with the
gaps of `GapSort`.
-/

namespace OneJit.Go.Sort

open Bisect

/-- `int(uint(lo+hi) >> 1)`. The sum may wrap. -/
def mid (lo hi : Int) : Int := ((lo + hi).bmod (2 ^ 64) % 2 ^ 64 / 2).bmod (2 ^ 64)

theorem mid_eq {lo hi : Nat} (hle : lo ≤ hi) (hhi : hi < 2 ^ 63) :
    mid lo hi = ((lo + hi) / 2 : Nat) := by
  have hsum : ((lo : Int) + hi).bmod (2 ^ 64) % 2 ^ 64 = lo + hi := by
    rw [show (2 : Int) ^ 64 = ((2 ^ 64 : Nat) : Int) from rfl, Int.bmod_emod]
    exact Int.emod_eq_of_lt (by omega) (by omega)
  rw [mid, hsum, Int.bmod_eq_of_le (by omega) (by omega)]
  omega

/-- The loop of `Search`: its result and the indices at which it calls `pred`, in this order. There
is no result where `fuel` does not suffice. -/
def searchLoop (pred : Int → Bool) : Nat → Int → Int → Option (Int × List Int)
  | 0, lo, hi => if lo < hi then none else some (lo, [])
  | fuel + 1, lo, hi =>
    if lo < hi then
      let m := mid lo hi
      let rest := if pred m then searchLoop pred fuel lo m else searchLoop pred fuel (m + 1) hi
      rest.map fun (r, calls) => (r, m :: calls)
    else some (lo, [])

/-- `Search`. -/
def search (n : Int) (pred : Int → Bool) : Option (Int × List Int) :=
  searchLoop pred n.toNat 0 (n - 1)

/-- The loop of `Search` is a bisection. -/
theorem searchLoop_eq (pred : Int → Bool) {fuel lo hi : Nat} (hle : lo ≤ hi) (hhi : hi < 2 ^ 63)
    (hfuel : hi - lo ≤ fuel) :
    searchLoop pred fuel lo hi =
      some (((bisect (fun i => pred i) fuel lo hi : Nat) : Int),
        (probes (fun i => pred i) fuel lo hi).map fun i : Nat => (i : Int)) := by
  induction fuel generalizing lo hi with
  | zero =>
    have hlt : ¬ (lo : Int) < hi := by omega
    simp [searchLoop, bisect, probes, hlt]
  | succ fuel ih =>
    rw [searchLoop, bisect, probes]
    by_cases hlt : lo < hi
    · have hlt' : (lo : Int) < hi := by omega
      simp only [if_pos hlt, if_pos hlt', mid_eq hle hhi]
      by_cases hmid : pred ((lo + hi) / 2 : Nat) = true
      · rw [if_pos hmid, if_pos hmid, if_pos hmid, ih (by omega) (by omega) (by omega)]
        simp
      · have hnext := @ih ((lo + hi) / 2 + 1) hi (by omega) hhi (by omega)
        rw [Int.natCast_add, Int.natCast_one] at hnext
        rw [if_neg hmid, if_neg hmid, if_neg hmid, hnext]
        simp
    · have hlt' : ¬ (lo : Int) < hi := by omega
      rw [if_neg hlt, if_neg hlt', if_neg hlt]
      rfl

/-- On at least one index `Search` bisects the interval up to the last one. -/
theorem search_succ (pred : Int → Bool) {n : Nat} (hn : n < 2 ^ 63) :
    search (n + 1 : Nat) pred =
      some (((bisect (fun i => pred i) (n + 1) 0 n : Nat) : Int),
        (probes (fun i => pred i) (n + 1) 0 n).map fun i : Nat => (i : Int)) := by
  rw [search, ← searchLoop_eq pred (Nat.zero_le n) hn (by omega)]
  congr 1
  omega

theorem search_zero (pred : Int → Bool) : search 0 pred = some (0, []) := rfl

/-- The loop of `SearchInts` is a bisection too. -/
theorem searchLoop_ints (data : List Int) (x : Int) (fuel lo hi : Nat) :
    Go.searchLoop data x fuel lo hi = bisect (fun i => x ≤ data.getD i 0) fuel lo hi := by
  induction fuel generalizing lo hi with
  | zero => rfl
  | succ fuel ih =>
    rw [Go.searchLoop, bisect]
    simp only [ih, decide_eq_true_eq]

/-- `Search` does what its comment says: it returns the least index at which `pred` holds, or `n`,
and calls `pred` on indices only. -/
def Searches (n : Nat) (pred : Int → Bool) : Prop :=
  ∃ (r : Nat) (calls : List Int), search n pred = some (↑r, calls) ∧
    FirstIn (fun i => pred i = true) 0 n r ∧ ∀ i ∈ calls, 0 ≤ i ∧ i < n

/-- `SearchInts` does what its comment says. -/
def SearchesInts (data : List Int) (x : Int) : Prop :=
  FirstIn (fun i => x ≤ data.getD i 0) 0 data.length (searchInts data x)

/-- Over the interval without its last place a bisection finds the first place in general if and
only if the predicate holds at the last place. -/
theorem bisect_first_iff {p : Nat → Bool} {n fuel : Nat} (hfuel : n ≤ fuel)
    (hp : Ascends (fun i => p i = true) 0 (n + 1)) :
    FirstIn (fun i => p i = true) 0 (n + 1) (bisect p fuel 0 n) ↔ p n = true := by
  have hfirst := bisect_first (Nat.zero_le n) (by omega) (hp.mono (Nat.le_refl 0) (Nat.le_succ n))
  constructor
  · intro h
    by_contra hlast
    exact hp.none hlast _ h.ge hfirst.le (h.found (Nat.lt_succ_of_le hfirst.le))
  · exact hfirst.grow

theorem searches_iff (n : Nat) (pred : Int → Bool) (hn : n < 2 ^ 63)
    (hp : Ascends (fun i => pred i = true) 0 n) :
    Searches n pred ↔ n = 0 ∨ pred (n - 1) = true := by
  cases n with
  | zero =>
    simp only [true_or, iff_true]
    exact ⟨0, [], search_zero pred, ⟨le_rfl, le_rfl, fun i _ hi => absurd hi (by omega),
      fun h => absurd h (by omega)⟩, by simp⟩
  | succ n =>
    have hlast : ((n + 1 : Nat) : Int) - 1 = n := by omega
    rw [Searches, search_succ pred (by omega), hlast, ← bisect_first_iff (Nat.le_succ n) hp]
    simp only [Nat.add_eq_zero_iff, Nat.one_ne_zero, and_false, false_or]
    constructor
    · intro ⟨r, calls, heq, hfirst, _⟩
      simp only [Option.some.injEq, Prod.mk.injEq, Int.natCast_inj] at heq
      rwa [heq.1]
    · intro h
      refine ⟨_, _, rfl, h, ?_⟩
      intro i hi
      obtain ⟨j, hj, rfl⟩ := List.mem_map.mp hi
      have := probes_mem hj
      omega

theorem searchesInts_iff (data : List Int) (x : Int) (hdata : data.Pairwise (· ≤ ·)) :
    SearchesInts data x ↔ ∀ y, data.getLast? = some y → x ≤ y := by
  rcases data.eq_nil_or_concat with rfl | ⟨init, last, rfl⟩
  · simp only [SearchesInts, List.getLast?_nil, reduceCtorEq, false_implies, implies_true, iff_true]
    exact ⟨le_rfl, le_rfl, fun i _ hi => absurd hi (by simp [searchInts, Go.searchLoop]),
      fun h => absurd h (by simp [searchInts, Go.searchLoop])⟩
  · rw [List.concat_eq_append] at hdata ⊢
    have hp : Ascends (fun i => decide (x ≤ (init ++ [last]).getD i 0) = true) 0
        (init.length + 1) := by
      intro i j _ hij hj hi
      rcases hij.lt_or_eq with hlt | rfl
      · have hle := List.pairwise_iff_getElem.mp hdata i j (by simp; omega) (by simp; omega) hlt
        rw [decide_eq_true_eq, List.getD_eq_getElem _ _ (by simp; omega)] at hi ⊢
        exact hi.trans hle
      · exact hi
    have hiff := bisect_first_iff (Nat.le_succ _) hp
    simp only [decide_eq_true_eq] at hiff
    simpa [SearchesInts, searchInts, searchLoop_ints] using hiff

/-- A search is right if and only if it finds something, or there is nothing to search in. -/
theorem search_iff_last (n : Nat) (pred : Int → Bool) (data : List Int) (x : Int) :
    (n < 2 ^ 63 → Ascends (fun i => pred i = true) 0 n →
      (Searches n pred ↔ n = 0 ∨ pred (n - 1) = true)) ∧
    (data.Pairwise (· ≤ ·) →
      (SearchesInts data x ↔ ∀ y, data.getLast? = some y → x ≤ y)) :=
  ⟨searches_iff n pred, searchesInts_iff data x⟩

/-- The least of 0 and 1 that is at least 1 is 1, and among 10 and 20 the first one that is at
least 15 has index 1. -/
theorem search_iff_last_two :
    Searches 2 (fun i => 1 ≤ i) ∧ SearchesInts [10, 20] 15 := by
  constructor
  · apply ((search_iff_last 2 (fun i => 1 ≤ i) [10, 20] 15).1 (by omega) _).mpr
    · simp
    · intro i j _ hij _ hi
      simp only [decide_eq_true_eq] at hi ⊢
      omega
  · apply ((search_iff_last 2 (fun i => 1 ≤ i) [10, 20] 15).2 (by simp)).mpr
    simp

/-- Of one index at which the predicate is false, `Search` returns that index. -/
theorem search_not_found : search 1 (fun _ => false) = some (0, []) ∧
    Ascends (fun i => (fun _ : Int => false) i = true) 0 1 ∧ ¬ Searches 1 (fun _ => false) ∧
    ¬ SearchesInts [10] 20 := by
  have hp : Ascends (fun i => (fun _ : Int => false) i = true) 0 1 := by
    intro i j _ _ _ hi
    exact hi
  have hnot : ¬ Searches 1 (fun _ => false) := by
    intro h
    have := (searches_iff 1 _ (by omega) hp).mp h
    simp at this
  have hints : ¬ SearchesInts [10] 20 := by
    intro h
    have := (searchesInts_iff [10] 20 (by simp)).mp h
    simp at this
  exact ⟨rfl, hp, hnot, hints⟩

/-! ## Sorting -/

/-- The loop of `makeGaps`. The gaps wrap. -/
def makeGapsLoop : Nat → Int → List Int
  | 0, _ => []
  | fuel + 1, n =>
    n :: if (n * 2).bmod (2 ^ 64) < 0 then []
      else makeGapsLoop fuel ((n * 2 + n.tdiv 4 + 1).bmod (2 ^ 64))

/-- `gaps`, which descend. -/
def gaps : List Int := ([1, 4, 10, 23, 57, 132, 301, 701] ++ makeGapsLoop 64 1750).reverse

/-- The loop of `gapsFor`, from index `i` down. -/
def gapsForLoop (n : Int) : Nat → List Int
  | 0 => gaps
  | i + 1 => if n < gaps.getD (i + 1) 0 then gaps.drop (i + 2) else gapsForLoop n i

/-- `gapsFor`. -/
def gapsFor (n : Int) : List Int := gapsForLoop n (gaps.length - 1)

/-- `Sort`. -/
def sort {α : Type} (less : α → α → Bool) (data : Array α) : Array α :=
  GapSort.sort less ((gapsFor data.size).map Int.toNat) data

theorem gaps_eq : ∃ init, gaps = init ++ [1] ∧ init.length = 52 := by
  refine ⟨gaps.dropLast, ?_, ?_⟩ <;> decide +kernel

/-- No gap has wrapped. -/
theorem gaps_pos : ∀ gap ∈ gaps, 0 < gap := by decide +kernel

/-- The gaps for one element and more end with 1. -/
theorem gapsFor_eq {n : Int} (hn : 1 ≤ n) : ∃ init, gapsFor n = init ++ [1] := by
  obtain ⟨init, hgaps, hlen⟩ := gaps_eq
  have hloop : ∀ i, i ≤ 52 → ∃ init', gapsForLoop n i = init' ++ [1] := by
    intro i hi
    induction i with
    | zero => exact ⟨init, hgaps⟩
    | succ i ih =>
      rw [gapsForLoop]
      split
      · rename_i hlt
        by_cases hlast : i = 51
        · subst hlast
          rw [hgaps, List.getD_append_right _ _ _ _ (by omega), hlen] at hlt
          exact absurd hlt (by simpa using hn)
        · refine ⟨init.drop (i + 2), ?_⟩
          rw [hgaps, List.drop_append_of_le_length (by omega)]
      · exact ih (by omega)
  have h52 : gaps.length - 1 = 52 := by rw [hgaps]; simp [hlen]
  rw [gapsFor, h52]
  exact hloop 52 (le_refl 52)

theorem sort_perm {α : Type} (less : α → α → Bool) (data : Array α) :
    (sort less data).Perm data := GapSort.sort_perm _ data

/-- `Sort` sorts by an order in which what is not below is transitive. -/
theorem sort_sorted {α : Type} {less : α → α → Bool} (hw : GapSort.Weak less) (data : Array α) :
    (sort less data).toList.Pairwise fun a b => less b a = false := by
  have hsize : (sort less data).size = data.size := (sort_perm less data).size_eq
  apply GapSort.SortedTo.pairwise
  rw [hsize]
  by_cases hzero : data.size = 0
  · intro p q hpq hq
    omega
  · obtain ⟨init, hinit⟩ := @gapsFor_eq data.size (by omega)
    rw [sort, hinit, List.map_append]
    exact GapSort.sort_sorted hw _ data

end OneJit.Go.Sort
