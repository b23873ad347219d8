import Mathlib.Data.BitVec
import Mathlib.Algebra.Order.Ring.Nat
import Mathlib.Tactic.SplitIfs
import Mathlib.Tactic.Ring

/-!
# Arrays that may fail to grow

`ArrayHelper` keeps elements of any type as bytes in a block of memory. The numbers of bytes are
computed modulo `2 ^ 64`. An operation is `none` when it writes beyond the block.
-/

namespace OneJit.Stl

abbrev Bytes := List (BitVec 8)

/-- `realloc`: the new block, or nothing if there is no memory. -/
structure Allocator (α : Type) where
  realloc : α → Bytes → Nat → Option Bytes × α

/-- The block has the size that was asked for, which is below the largest difference of pointers, and
starts with the bytes of the old one. -/
structure Allocator.Lawful {α : Type} (mem : Allocator α) : Prop where
  length : ∀ s old n block, (mem.realloc s old n).1 = some block → block.length = n
  small : ∀ s old n block, (mem.realloc s old n).1 = some block → n < 2 ^ 63
  kept : ∀ s old n block, (mem.realloc s old n).1 = some block →
    block.take (min old.length n) = old.take (min old.length n)

/-- `ArrayHelper`. The null pointer is a block without bytes. -/
structure ArrayHelper where
  data : Bytes
  size : Nat
  cap : Nat
  deriving DecidableEq, Repr

namespace ArrayHelper

/-- `Array()`. -/
def empty : ArrayHelper := ⟨[], 0, 0⟩

/-- A number of bytes, in `size_t`. -/
def byteCount (n sizeofT : Nat) : Nat := n * sizeofT % 2 ^ 64

/-- Bytes written into the block. -/
def store (a : ArrayHelper) (off : Nat) (bs : Bytes) : Option ArrayHelper :=
  if off + bs.length ≤ a.data.length then
    some { a with data := a.data.take off ++ bs ++ a.data.drop (off + bs.length) }
  else none

section Operations

variable {α : Type} (mem : Allocator α) (sizeofT : Nat)

/-- `ArrayHelper::reserve`. -/
def reserve (a : ArrayHelper) (s : α) (newcap : Nat) : Bool × ArrayHelper × α :=
  if a.cap < newcap then
    match mem.realloc s a.data (byteCount newcap sizeofT) with
    | (none, s) => (false, a, s)
    | (some block, s) => (true, { a with data := block, cap := newcap }, s)
  else (true, a, s)

/-- `grow_cap`. -/
def growCap (a : ArrayHelper) (s : α) (mincap : Nat) : Bool × ArrayHelper × α :=
  if mincap ≤ a.cap then (true, a, s)
  else
    let cap2 := if 10 ≤ a.cap then a.cap * 2 % 2 ^ 64 else 10
    a.reserve mem sizeofT s (if cap2 ≤ mincap then mincap else cap2)

/-- `ArrayHelper::grow`. -/
def grow (a : ArrayHelper) (s : α) (n : Nat) (zerofill : Bool) :
    Option (Bool × ArrayHelper × α) :=
  match a.growCap mem sizeofT s n with
  | (false, a, s) => some (false, a, s)
  | (true, a, s) =>
    let cleared := if zerofill ∧ a.size < n then
        a.store (byteCount a.size sizeofT) (List.replicate (byteCount (n - a.size) sizeofT) 0)
      else some a
    cleared.map fun a => (true, { a with size := n }, s)

/-- `ArrayHelper::dup`, from bytes outside the array. -/
def dup (a : ArrayHelper) (s : α) (addr : Bytes) (n : Nat) : Option (Bool × ArrayHelper × α) :=
  if n ≠ 0 then
    match a.growCap mem sizeofT s n with
    | (false, a, s) => some (false, a, s)
    | (true, a, s) => (a.store 0 (addr.take (byteCount n sizeofT))).map fun a =>
        (true, { a with size := n }, s)
  else some (true, { a with size := n }, s)

/-- `ArrayHelper::append`, from bytes outside the array. -/
def append (a : ArrayHelper) (s : α) (addr : Bytes) (n : Nat) : Option (Bool × ArrayHelper × α) :=
  if n ≠ 0 then
    let oldn := a.size
    (a.grow mem sizeofT s ((oldn + n) % 2 ^ 64) false).bind fun (ok, a, s) =>
      if ok then
        (a.store (byteCount oldn sizeofT) (addr.take (byteCount n sizeofT))).map fun a => (true, a, s)
      else some (false, a, s)
  else some (true, a, s)

end Operations

end ArrayHelper

/-- The operations of `Array`. Elements are given by their bytes. -/
inductive ArrayOp
  | append (src : List Bytes)
  | resize (n : Nat)
  | reserve (newcap : Nat)
  | dup (src : List Bytes)
  | truncate (n : Nat)
  | clear
  deriving DecidableEq, Repr

namespace ArrayOp

/-- The operation. `truncate` and `clear` cannot fail. -/
def run {α : Type} (mem : Allocator α) (sizeofT : Nat) (a : ArrayHelper) (s : α) :
    ArrayOp → Option (Bool × ArrayHelper × α)
  | append src => a.append mem sizeofT s src.flatten src.length
  | resize n =>
    if n ≤ a.size then some (true, { a with size := n }, s) else a.grow mem sizeofT s n true
  | reserve newcap =>
    if newcap ≤ a.cap then some (true, a, s) else some (a.reserve mem sizeofT s newcap)
  | dup src =>
    if src.length = 0 then some (true, { a with size := 0 }, s)
    else a.dup mem sizeofT s src.flatten src.length
  | truncate n => some (true, if n < a.size then { a with size := n } else a, s)
  | clear => some (true, { a with size := 0 }, s)

/-- The operation on a list. New elements are zero. -/
def list (sizeofT : Nat) (xs : List Bytes) : ArrayOp → List Bytes
  | append src => xs ++ src
  | resize n => xs.take n ++ List.replicate (n - xs.length) (List.replicate sizeofT 0)
  | reserve _ => xs
  | dup src => src
  | truncate n => xs.take n
  | clear => []

/-- The elements that are given have the size of the type, and the number of bytes that are asked for
fits in `size_t`. -/
def Fits (sizeofT : Nat) (xs : List Bytes) : ArrayOp → Prop
  | append src => (∀ x ∈ src, x.length = sizeofT) ∧ (xs.length + src.length) * sizeofT < 2 ^ 64
  | resize n => n * sizeofT < 2 ^ 64
  | reserve newcap => newcap * sizeofT < 2 ^ 64
  | dup src => (∀ x ∈ src, x.length = sizeofT) ∧ src.length * sizeofT < 2 ^ 64
  | truncate _ => True
  | clear => True

end ArrayOp

/-- The array has these elements, in a block with room for as many as its capacity says. -/
structure ArrayHelper.Holds (sizeofT : Nat) (a : ArrayHelper) (xs : List Bytes) : Prop where
  elements : ∀ x ∈ xs, x.length = sizeofT
  size : a.size = xs.length
  contents : a.data.take (a.size * sizeofT) = xs.flatten
  size_le_cap : a.size ≤ a.cap
  block : a.data.length = a.cap * sizeofT
  small : a.cap * sizeofT < 2 ^ 63

/-- The state and the elements after some operations, whatever reallocations fail. -/
inductive ArrayRun {α : Type} (mem : Allocator α) (sizeofT : Nat) (s₀ : α) :
    ArrayHelper → α → List Bytes → Prop
  | init : ArrayRun mem sizeofT s₀ .empty s₀ []
  | step {a a' : ArrayHelper} {s s' : α} {xs : List Bytes} {op : ArrayOp} {ok : Bool}
    (h : ArrayRun mem sizeofT s₀ a s xs) (hfits : op.Fits sizeofT xs)
    (hcall : op.run mem sizeofT a s = some (ok, a', s')) :
    ArrayRun mem sizeofT s₀ a' s' (if ok then op.list sizeofT xs else xs)

namespace ArrayHelper

section Spec

variable {α : Type} {mem : Allocator α} {sizeofT : Nat} {a : ArrayHelper} {s : α} {xs : List Bytes}

theorem length_flatten {xs : List Bytes} (h : ∀ x ∈ xs, x.length = sizeofT) :
    xs.flatten.length = xs.length * sizeofT := by
  induction xs with
  | nil => simp
  | cons x xs ih =>
    have hx := h x (by simp)
    have htail := ih fun y hy => h y (by simp [hy])
    simp only [List.flatten_cons, List.length_append, htail, hx, List.length_cons]
    ring

/-- What a growth of the capacity gives: a failure leaves all as it was. -/
structure Grown (sizeofT : Nat) (a : ArrayHelper) (xs : List Bytes) (n : Nat)
    (r : Bool × ArrayHelper × α) : Prop where
  failed : r.1 = false → r.2.1 = a
  holds : r.2.1.Holds sizeofT xs
  size : r.2.1.size = a.size
  cap : r.1 = true → n ≤ r.2.1.cap

theorem byteCount_eq {n : Nat} (h : n * sizeofT < 2 ^ 64) : byteCount n sizeofT = n * sizeofT :=
  Nat.mod_eq_of_lt h

theorem reserve_grown (hmem : mem.Lawful) (h : a.Holds sizeofT xs) {newcap : Nat}
    (hbytes : newcap * sizeofT < 2 ^ 64) :
    Grown sizeofT a xs newcap (a.reserve mem sizeofT s newcap) := by
  rw [reserve]
  split_ifs with hlt
  · rw [byteCount_eq hbytes]
    rcases hres : mem.realloc s a.data (newcap * sizeofT) with ⟨_ | block, s'⟩
    · exact ⟨fun _ => rfl, h, rfl, fun hno => (by cases hno)⟩
    · have hblock : (mem.realloc s a.data (newcap * sizeofT)).1 = some block := by rw [hres]
      have hlength := hmem.length _ _ _ _ hblock
      have hsmall := hmem.small _ _ _ _ hblock
      have hkept := hmem.kept _ _ _ _ hblock
      have hle : a.data.length ≤ newcap * sizeofT := by
        rw [h.block]
        exact Nat.mul_le_mul_right _ (by omega)
      have hsize : a.size * sizeofT ≤ a.data.length := by
        rw [h.block]
        exact Nat.mul_le_mul_right _ h.size_le_cap
      refine ⟨fun hno => (by cases hno), ⟨h.elements, h.size, ?_, ?_, hlength, hsmall⟩, rfl,
        fun _ => Nat.le_refl _⟩
      · -- the old bytes are at the start of the new block
        rw [Nat.min_eq_left hle] at hkept
        have htake := congrArg (List.take (a.size * sizeofT)) hkept
        rw [List.take_take, List.take_take, Nat.min_eq_left hsize] at htake
        exact htake.trans h.contents
      · exact Nat.le_trans h.size_le_cap (by dsimp only; omega)
  · exact ⟨fun _ => rfl, h, rfl, fun _ => by dsimp only; omega⟩

/-- Neither the doubled capacity nor that of ten elements overflows. -/
theorem growCap_grown (hmem : mem.Lawful) (hten : 10 * sizeofT < 2 ^ 64) (hpos : 0 < sizeofT)
    (h : a.Holds sizeofT xs) {mincap : Nat} (hbytes : mincap * sizeofT < 2 ^ 64) :
    Grown sizeofT a xs mincap (a.growCap mem sizeofT s mincap) := by
  rw [growCap]
  by_cases hle : mincap ≤ a.cap
  · rw [if_pos hle]
    exact ⟨fun _ => rfl, h, rfl, fun _ => hle⟩
  · rw [if_neg hle]
    have hdouble : a.cap * 2 * sizeofT < 2 ^ 64 := by
      have := h.small
      have hcomm : a.cap * 2 * sizeofT = 2 * (a.cap * sizeofT) := by ring
      omega
    have hcap : a.cap * 2 < 2 ^ 64 :=
      Nat.lt_of_le_of_lt (Nat.le_mul_of_pos_right _ hpos) hdouble
    have hcap2 : (if 10 ≤ a.cap then a.cap * 2 % 2 ^ 64 else 10) * sizeofT < 2 ^ 64 := by
      split_ifs
      · rwa [Nat.mod_eq_of_lt hcap]
      · exact hten
    dsimp only
    generalize (if 10 ≤ a.cap then a.cap * 2 % 2 ^ 64 else 10) = cap2 at hcap2 ⊢
    have hgrown : ∀ newcap, mincap ≤ newcap → newcap * sizeofT < 2 ^ 64 →
        Grown sizeofT a xs mincap (a.reserve mem sizeofT s newcap) := by
      intro newcap hge hfit
      obtain ⟨hfailed, hholds, hsize, hnew⟩ := @reserve_grown α mem sizeofT a s xs hmem h newcap hfit
      exact ⟨hfailed, hholds, hsize, fun hok => Nat.le_trans hge (hnew hok)⟩
    split_ifs with hcmp
    · exact hgrown mincap (Nat.le_refl _) hbytes
    · exact hgrown cap2 (by omega) hcap2

/-- Elements written behind the first ones. -/
theorem store_holds (h : a.Holds sizeofT xs) {ys zs : List Bytes} {i n : Nat}
    (hy : ∀ y ∈ ys, y.length = sizeofT) (hzs : zs = xs.take i ++ ys) (hi : i ≤ xs.length)
    (hn : n = i + ys.length) (hcap : n ≤ a.cap) :
    ∃ a', a.store (i * sizeofT) ys.flatten = some a' ∧ a'.cap = a.cap ∧ a'.size = a.size ∧
      { a' with size := n }.Holds sizeofT zs := by
  subst hn
  have hlen : ys.flatten.length = ys.length * sizeofT := length_flatten hy
  have hfit : i * sizeofT + ys.flatten.length ≤ a.data.length := by
    rw [hlen, h.block, ← Nat.add_mul]
    exact Nat.mul_le_mul_right _ hcap
  have hxs : ∀ x ∈ xs.take i, x.length = sizeofT := fun x hx => h.elements x (List.mem_of_mem_take hx)
  -- the first elements are the first bytes
  have hhead : a.data.take (i * sizeofT) = (xs.take i).flatten := by
    have hsplit : xs.flatten = (xs.take i).flatten ++ (xs.drop i).flatten := by
      rw [← List.flatten_append, List.take_append_drop]
    have hlen' : (xs.take i).flatten.length = i * sizeofT := by
      rw [length_flatten hxs, List.length_take, Nat.min_eq_left hi]
    have hle : i * sizeofT ≤ a.size * sizeofT := Nat.mul_le_mul_right _ (by rw [h.size]; exact hi)
    have htake := congrArg (List.take (i * sizeofT)) h.contents
    rw [List.take_take, Nat.min_eq_left hle, hsplit] at htake
    rw [htake, List.take_append_of_le_length (by omega), ← hlen', List.take_length]
  refine ⟨_, if_pos hfit, rfl, rfl, ⟨?_, ?_, ?_, hcap, ?_, h.small⟩⟩
  · intro z hz
    rw [hzs] at hz
    rcases List.mem_append.mp hz with hz | hz
    · exact hxs z hz
    · exact hy z hz
  · rw [hzs, List.length_append, List.length_take, Nat.min_eq_left hi]
  · have hlen'' : (a.data.take (i * sizeofT) ++ ys.flatten).length = (i + ys.length) * sizeofT := by
      rw [List.length_append, List.length_take, hlen, Nat.min_eq_left (by omega), Nat.add_mul]
    dsimp only
    rw [← hlen'', List.take_left, hhead, hzs, List.flatten_append]
  · dsimp only
    simp only [List.length_append, List.length_take, List.length_drop, h.block]
    rw [h.block] at hfit
    omega

/-- The first elements, when the size goes down. -/
theorem Holds.shrink (h : a.Holds sizeofT xs) {n : Nat} (hn : n ≤ a.size) :
    { a with size := n }.Holds sizeofT (xs.take n) := by
  obtain ⟨a', hstore, hcap, -, hholds⟩ := @store_holds sizeofT a xs h [] (xs.take n) n n (by simp)
    (by simp) (by rw [← h.size]; exact hn) (by simp) (Nat.le_trans hn h.size_le_cap)
  have hsame : a' = a := by
    simp only [store, List.flatten_nil, List.length_nil, Nat.add_zero, List.append_nil,
      List.take_append_drop] at hstore
    split_ifs at hstore
    exact (Option.some.inj hstore).symm
  rwa [hsame] at hholds

/-- What an operation gives: a failure leaves all as it was. -/
def Done (sizeofT : Nat) (a : ArrayHelper) (xs ys : List Bytes)
    (r : Option (Bool × ArrayHelper × α)) : Prop :=
  ∃ ok a' s', r = some (ok, a', s') ∧ a'.Holds sizeofT (if ok then ys else xs) ∧
    (ok = false → a' = a)

theorem Grown.failed_eq {n : Nat} {b : ArrayHelper} {s' : α}
    (h : Grown sizeofT a xs n (false, b, s')) : b = a :=
  h.failed rfl

theorem resize_done (hmem : mem.Lawful) (hten : 10 * sizeofT < 2 ^ 64) (hpos : 0 < sizeofT)
    (h : a.Holds sizeofT xs) {n : Nat} (hbytes : n * sizeofT < 2 ^ 64) (hlt : a.size < n) :
    Done sizeofT a xs (xs.take n ++ List.replicate (n - xs.length) (List.replicate sizeofT 0))
      (a.grow mem sizeofT s n true) := by
  have hgrown := @growCap_grown α mem sizeofT a s xs hmem hten hpos h n hbytes
  rw [grow]
  generalize a.growCap mem sizeofT s n = r at hgrown ⊢
  rcases r with ⟨_ | _, b, s'⟩
  · refine ⟨false, b, s', rfl, ?_, fun _ => hgrown.failed_eq⟩
    rw [hgrown.failed_eq]
    exact h
  · have hb : b.Holds sizeofT xs := hgrown.holds
    have hsize : b.size = a.size := hgrown.size
    have hzero : List.replicate ((n - b.size) * sizeofT) (0 : BitVec 8) =
        (List.replicate (n - b.size) (List.replicate sizeofT (0 : BitVec 8))).flatten := by
      rw [List.flatten_replicate_replicate]
    have hfit : b.size * sizeofT < 2 ^ 64 ∧ (n - b.size) * sizeofT < 2 ^ 64 :=
      ⟨Nat.lt_of_le_of_lt (Nat.mul_le_mul_right _ (by omega)) hbytes,
        Nat.lt_of_le_of_lt (Nat.mul_le_mul_right _ (by omega)) hbytes⟩
    have htake : xs.take n = xs.take b.size := by
      rw [hb.size, List.take_of_length_le (by rw [← hb.size]; omega), List.take_length]
    obtain ⟨b', hstore, -, -, hholds⟩ := @store_holds sizeofT b xs hb
      (List.replicate (n - b.size) (List.replicate sizeofT 0)) _ b.size n
      (fun y hy => by rw [List.eq_of_mem_replicate hy, List.length_replicate]) rfl
      (by rw [hb.size]) (by rw [List.length_replicate]; omega) (hgrown.cap rfl)
    refine ⟨true, { b' with size := n }, s', ?_, ?_, fun hno => (by cases hno)⟩
    · dsimp only
      rw [if_pos ⟨rfl, by omega⟩, byteCount_eq hfit.1, byteCount_eq hfit.2, hzero, hstore]
      rfl
    · rw [if_pos rfl, htake, ← hb.size]
      exact hholds

theorem append_done (hmem : mem.Lawful) (hten : 10 * sizeofT < 2 ^ 64) (hpos : 0 < sizeofT)
    (h : a.Holds sizeofT xs) {src : List Bytes} (hsrc : ∀ x ∈ src, x.length = sizeofT)
    (hbytes : (xs.length + src.length) * sizeofT < 2 ^ 64) :
    Done sizeofT a xs (xs ++ src) (a.append mem sizeofT s src.flatten src.length) := by
  rw [append]
  by_cases hzero : src.length ≠ 0
  · rw [if_pos hzero]
    have hsum : (a.size + src.length) % 2 ^ 64 = a.size + src.length := by
      rw [h.size]
      exact Nat.mod_eq_of_lt (Nat.lt_of_le_of_lt (Nat.le_mul_of_pos_right _ hpos) hbytes)
    have hgrown := @growCap_grown α mem sizeofT a s xs hmem hten hpos h (a.size + src.length)
      (by rw [h.size]; exact hbytes)
    dsimp only
    rw [hsum, grow]
    generalize a.growCap mem sizeofT s (a.size + src.length) = r at hgrown ⊢
    rcases r with ⟨_ | _, b, s'⟩
    · refine ⟨false, b, s', rfl, ?_, fun _ => hgrown.failed_eq⟩
      rw [hgrown.failed_eq]
      exact h
    · have hb : b.Holds sizeofT xs := hgrown.holds
      have hsize : b.size = a.size := hgrown.size
      have hfit : a.size * sizeofT < 2 ^ 64 ∧ src.length * sizeofT < 2 ^ 64 := by
        rw [h.size]
        exact ⟨Nat.lt_of_le_of_lt (Nat.mul_le_mul_right _ (by omega)) hbytes,
          Nat.lt_of_le_of_lt (Nat.mul_le_mul_right _ (by omega)) hbytes⟩
      have hflat : src.flatten.take (src.length * sizeofT) = src.flatten := by
        rw [← length_flatten hsrc, List.take_length]
      obtain ⟨b', hstore, -, -, hholds⟩ := @store_holds sizeofT b xs hb src (xs ++ src) a.size
        (a.size + src.length) hsrc (by rw [h.size, List.take_length]) (by rw [h.size]) rfl
        (hgrown.cap rfl)
      -- the size is already that of the whole array when the elements are written
      have hstore' : { b with size := a.size + src.length }.store (a.size * sizeofT) src.flatten =
          some { b' with size := a.size + src.length } := by
        simp only [store] at hstore ⊢
        split_ifs at hstore ⊢
        rw [← Option.some.inj hstore]
      refine ⟨true, { b' with size := a.size + src.length }, s', ?_, ?_, fun hno => (by cases hno)⟩
      · have hno : ¬(false = true ∧ b.size < a.size + src.length) := fun hand => by simp at hand
        dsimp only
        rw [if_neg hno, Option.map_some, Option.bind_some]
        dsimp only
        rw [if_pos rfl, byteCount_eq hfit.1, byteCount_eq hfit.2, hflat, hstore']
        rfl
      · exact hholds
  · rw [if_neg hzero]
    have hnil : src = [] := List.eq_nil_of_length_eq_zero (not_not.mp hzero)
    exact ⟨true, a, s, rfl, by simpa [hnil] using h, fun hno => (by cases hno)⟩

theorem dup_done (hmem : mem.Lawful) (hten : 10 * sizeofT < 2 ^ 64) (hpos : 0 < sizeofT)
    (h : a.Holds sizeofT xs) {src : List Bytes} (hsrc : ∀ x ∈ src, x.length = sizeofT)
    (hbytes : src.length * sizeofT < 2 ^ 64) (hzero : src.length ≠ 0) :
    Done sizeofT a xs src (a.dup mem sizeofT s src.flatten src.length) := by
  rw [dup, if_pos hzero]
  have hgrown := @growCap_grown α mem sizeofT a s xs hmem hten hpos h src.length hbytes
  generalize a.growCap mem sizeofT s src.length = r at hgrown ⊢
  rcases r with ⟨_ | _, b, s'⟩
  · refine ⟨false, b, s', rfl, ?_, fun _ => hgrown.failed_eq⟩
    rw [hgrown.failed_eq]
    exact h
  · have hb : b.Holds sizeofT xs := hgrown.holds
    have hflat : src.flatten.take (src.length * sizeofT) = src.flatten := by
      rw [← length_flatten hsrc, List.take_length]
    obtain ⟨b', hstore, -, -, hholds⟩ := @store_holds sizeofT b xs hb src src 0 src.length hsrc
      (by simp) (Nat.zero_le _) (by simp) (hgrown.cap rfl)
    rw [Nat.zero_mul] at hstore
    refine ⟨true, { b' with size := src.length }, s', ?_, hholds, fun hno => (by cases hno)⟩
    dsimp only
    rw [byteCount_eq hbytes, hflat, hstore]
    rfl

end Spec

end ArrayHelper

/-- Each operation does to the elements what it does to the list, or fails and changes nothing. -/
theorem ArrayOp.run_done {α : Type} {mem : Allocator α} {sizeofT : Nat} {a : ArrayHelper} {s : α}
    {xs : List Bytes} (hmem : mem.Lawful) (hten : 10 * sizeofT < 2 ^ 64) (hpos : 0 < sizeofT)
    (h : a.Holds sizeofT xs) {op : ArrayOp} (hfits : op.Fits sizeofT xs) :
    ArrayHelper.Done sizeofT a xs (op.list sizeofT xs) (op.run mem sizeofT a s) := by
  cases op with
  | append src => exact ArrayHelper.append_done hmem hten hpos h hfits.1 hfits.2
  | resize n =>
    rw [ArrayOp.run, ArrayOp.list]
    by_cases hle : n ≤ a.size
    · rw [if_pos hle]
      refine ⟨true, { a with size := n }, s, rfl, ?_, fun hno => (by cases hno)⟩
      have hzero : n - xs.length = 0 := by
        rw [← h.size]
        omega
      rw [if_pos rfl, hzero]
      simpa using h.shrink hle
    · rw [if_neg hle]
      exact ArrayHelper.resize_done hmem hten hpos h hfits (by omega)
  | reserve newcap =>
    rw [ArrayOp.run, ArrayOp.list]
    by_cases hle : newcap ≤ a.cap
    · rw [if_pos hle]
      exact ⟨true, a, s, rfl, by simpa using h, fun hno => (by cases hno)⟩
    · rw [if_neg hle]
      have hgrown := @ArrayHelper.reserve_grown α mem sizeofT a s xs hmem h newcap hfits
      generalize a.reserve mem sizeofT s newcap = r at hgrown ⊢
      rcases r with ⟨ok, b, s'⟩
      refine ⟨ok, b, s', rfl, ?_, hgrown.failed⟩
      rw [ite_self]
      exact hgrown.holds
  | dup src =>
    rw [ArrayOp.run, ArrayOp.list]
    by_cases hzero : src.length = 0
    · rw [if_pos hzero, List.eq_nil_of_length_eq_zero hzero]
      refine ⟨true, { a with size := 0 }, s, rfl, ?_, fun hno => (by cases hno)⟩
      simpa using h.shrink (Nat.zero_le _)
    · rw [if_neg hzero]
      exact ArrayHelper.dup_done hmem hten hpos h hfits.1 hfits.2 hzero
  | truncate n =>
    rw [ArrayOp.run, ArrayOp.list]
    refine ⟨true, _, s, rfl, ?_, fun hno => (by cases hno)⟩
    rw [if_pos rfl]
    split_ifs with hlt
    · exact h.shrink (by omega)
    · rw [List.take_of_length_le (by rw [← h.size]; omega)]
      exact h
  | clear =>
    rw [ArrayOp.run, ArrayOp.list]
    refine ⟨true, { a with size := 0 }, s, rfl, ?_, fun hno => (by cases hno)⟩
    simpa using h.shrink (Nat.zero_le _)

theorem ArrayHelper.holds_empty (sizeofT : Nat) : ArrayHelper.empty.Holds sizeofT [] :=
  ⟨by simp, rfl, List.take_nil, Nat.le_refl _, (Nat.zero_mul _).symm, by simp [ArrayHelper.empty]⟩

theorem ArrayRun.holds {α : Type} {mem : Allocator α} {sizeofT : Nat} {s₀ s : α} {a : ArrayHelper}
    {xs : List Bytes} (hmem : mem.Lawful) (hten : 10 * sizeofT < 2 ^ 64) (hpos : 0 < sizeofT)
    (h : ArrayRun mem sizeofT s₀ a s xs) : a.Holds sizeofT xs := by
  induction h with
  | init => exact ArrayHelper.holds_empty sizeofT
  | step _ hfits hcall ih =>
    obtain ⟨ok, a', s', hrun, hholds, _⟩ := ArrayOp.run_done hmem hten hpos ih hfits
    rw [hrun] at hcall
    cases hcall
    exact hholds

end OneJit.Stl
