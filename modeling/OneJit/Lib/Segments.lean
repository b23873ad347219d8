import Mathlib.Algebra.GroupWithZero.Nat
import Mathlib.Data.List.TakeWhile
import Mathlib.Algebra.BigOperators.Group.List.Basic

/-!
# Positions in a concatenation

A position of `segs.flatten` is an offset in one segment. `segStart segs i` is the position at
which segment `i` begins.
-/

namespace Segments

variable {α : Type*}

def segStart (segs : List (List α)) (i : Nat) : Nat := ((segs.take i).map List.length).sum

@[simp] theorem segStart_zero (segs : List (List α)) : segStart segs 0 = 0 := by
  simp [segStart]

@[simp] theorem segStart_cons_succ (s : List α) (segs : List (List α)) (i : Nat) :
    segStart (s :: segs) (i + 1) = s.length + segStart segs i := by
  simp [segStart]

/-- The end of a segment is the start of the next one. -/
theorem segStart_succ {segs : List (List α)} {i : Nat} {s : List α} (hs : segs[i]? = some s) :
    segStart segs (i + 1) = segStart segs i + s.length := by
  induction segs generalizing i with
  | nil => simp at hs
  | cons t segs ih =>
    cases i with
    | zero =>
      simp only [List.getElem?_cons_zero, Option.some.injEq] at hs
      simp [hs]
    | succ i =>
      rw [segStart_cons_succ, segStart_cons_succ, ih (by simpa using hs), Nat.add_assoc]

theorem segStart_mono (segs : List (List α)) {i j : Nat} (hij : i ≤ j) :
    segStart segs i ≤ segStart segs j := by
  induction segs generalizing i j with
  | nil => simp [segStart]
  | cons s segs ih =>
    cases i with
    | zero => simp
    | succ i =>
      cases j with
      | zero => omega
      | succ j => simpa using ih (Nat.le_of_succ_le_succ hij)

/-- The end of the last segment is the length of the concatenation. -/
theorem segStart_length (segs : List (List α)) :
    segStart segs segs.length = segs.flatten.length := by
  simp [segStart, List.length_flatten]

theorem getElem?_flatten {segs : List (List α)} {i k : Nat} {s : List α}
    (hs : segs[i]? = some s) (hk : k < s.length) :
    segs.flatten[segStart segs i + k]? = s[k]? := by
  induction segs generalizing i with
  | nil => simp at hs
  | cons t segs ih =>
    cases i with
    | zero =>
      simp only [List.getElem?_cons_zero, Option.some.injEq] at hs
      rw [hs, List.flatten_cons, segStart_zero, Nat.zero_add, List.getElem?_append_left hk]
    | succ i =>
      rw [List.flatten_cons, segStart_cons_succ, Nat.add_assoc,
        List.getElem?_append_right (Nat.le_add_right _ _), Nat.add_sub_cancel_left]
      exact ih (by simpa using hs)

/-- Every position lies in a segment. -/
theorem exists_segment {segs : List (List α)} {p : Nat} (hp : p < segs.flatten.length) :
    ∃ i s k, segs[i]? = some s ∧ k < s.length ∧ p = segStart segs i + k := by
  induction segs generalizing p with
  | nil => simp at hp
  | cons t segs ih =>
    by_cases ht : p < t.length
    · exact ⟨0, t, p, rfl, ht, by simp⟩
    · rw [List.flatten_cons, List.length_append] at hp
      obtain ⟨i, s, k, hs, hk, heq⟩ := ih (p := p - t.length) (by omega)
      exact ⟨i + 1, s, k, by simpa using hs, hk, by rw [segStart_cons_succ]; omega⟩

/-- An earlier segment ends before a later one starts. -/
theorem segEnd_le_segStart {segs : List (List α)} {i j : Nat} {s : List α}
    (hs : segs[i]? = some s) (hij : i < j) :
    segStart segs i + s.length ≤ segStart segs j := by
  have hmono : segStart segs (i + 1) ≤ segStart segs j := segStart_mono segs hij
  rwa [segStart_succ hs] at hmono

end Segments
