import OneJit.Stl.BitSet

/-!
# Filling and resizing a bit set

The words beyond the size keep what they hold, and are cleared as far as needed when the set grows
again. The number of words for a size above `2 ^ 64 - 64` overflows to zero, so that the set then
grows without memory.
-/

namespace OneJit.Stl

namespace BitSet

/-- `memset` of the words from `nstart` up to `nend`. -/
def setWords (s : BitSet) (nstart nend : Nat) (w : BitVec 64) : Option BitSet :=
  if nend ≤ s.data.length then
    some { s with
      data := s.data.take nstart ++ List.replicate (nend - nstart) w ++ s.data.drop nend }
  else none

/-- The high bits of a word, from `n` on. -/
def highBits (n : Nat) : BitVec 64 := BitVec.allOnes 64 <<< n

/-- The unaligned head of `fill`, and where it ends. -/
def fillHead (s : BitSet) (value : Bool) (start : Nat) : Option (BitSet × Nat) :=
  let head := start % 64
  if head ≠ 0 then
    (s.modifyWord (start / 64) (blend value (highBits head))).map fun s => (s, start - head + 64)
  else some (s, start)

/-- The whole words of `fill`. -/
def fillBulk (s : BitSet) (value : Bool) (start stop : Nat) : Option BitSet :=
  if start / 64 < stop / 64 then s.setWords (start / 64) (stop / 64) (pattern value) else some s

/-- The unaligned tail of `fill`. -/
def fillTail (s : BitSet) (value : Bool) (stop : Nat) : Option BitSet :=
  let tail := stop % 64
  if tail ≠ 0 then s.modifyWord (stop / 64) (blend value (~~~highBits tail)) else some s

/-- `fill`. -/
def fill (s : BitSet) (value : Bool) (start stop : Nat) : Option BitSet :=
  let stop := min stop s.size
  if stop ≤ start then some s
  else if start / 64 = stop / 64 then
    -- a single word or a fragment of it
    s.modifyWord (start / 64) (blend value (highBits (start % 64) &&& ~~~highBits (stop % 64)))
  else
    (s.fillHead value start).bind fun (s, start) =>
      (s.fillBulk value start stop).bind fun s => s.fillTail value stop

/-- `realloc`, where memory can be allocated for the numbers of words that `mem` accepts. The new
words are cleared. -/
def realloc (mem : Nat → Bool) (s : BitSet) (newcap : Nat) : Bool × BitSet :=
  let oldn := words s.cap
  let n := words newcap
  if oldn < n then
    if mem n then (true, { s with data := s.data ++ List.replicate (n - oldn) 0 }) else (false, s)
  else (true, s)

/-- `grow_cap`. -/
def growCap (mem : Nat → Bool) (s : BitSet) (mincap : Nat) : Bool × BitSet :=
  let cap2 := if 64 ≤ s.cap then s.cap * 2 % 2 ^ 64 else 64
  s.realloc mem (if cap2 ≤ mincap then mincap else cap2)

/-- `reserve`. -/
def reserve (mem : Nat → Bool) (s : BitSet) (newcap : Nat) : Bool × BitSet :=
  if newcap ≤ s.cap then (true, s) else s.realloc mem newcap

/-- `grow`. -/
def grow (mem : Nat → Bool) (s : BitSet) (newsize : Nat) : Option (Bool × BitSet) :=
  let oldcap := s.cap
  let r := if oldcap < newsize then s.growCap mem newsize else (true, s)
  if r.1 then
    let oldsize := s.size
    let toclearEnd := min newsize oldcap
    let s := { r.2 with size := newsize }
    if oldsize < toclearEnd then (s.fill false oldsize toclearEnd).map fun s => (true, s)
    else some (true, s)
  else some (false, s)

/-- `resize`. -/
def resize (mem : Nat → Bool) (s : BitSet) (n : Nat) : Option (Bool × BitSet) :=
  if n ≤ s.size then some (true, { s with size := n }) else s.grow mem n

/-! ## Masks -/

theorem getLsbD_highBits (n : Nat) {i : Nat} (hi : i < 64) :
    (highBits n).getLsbD i = decide (n ≤ i) := by
  rw [highBits, BitVec.getLsbD_shiftLeft, BitVec.getLsbD_allOnes]
  have hsub : i - n < 64 := by omega
  simp only [hi, hsub, decide_true, Bool.true_and, Bool.and_true]
  by_cases hn : n ≤ i
  · simp [hn]
  · simp [hn, Nat.lt_of_not_le hn]

theorem getLsbD_lowBits (n : Nat) {i : Nat} (hi : i < 64) :
    (~~~highBits n).getLsbD i = decide (i < n) := by
  rw [BitVec.getLsbD_not, getLsbD_highBits n hi]
  by_cases hn : n ≤ i
  · simp [hn]
  · simp [hn, hi, Nat.lt_of_not_le hn]

/-! ## Filling -/

/-- The operation has changed the bits of a range to a value, and nothing else. -/
structure Filled (s s' : BitSet) (value : Bool) (start stop : Nat) : Prop where
  size : s'.size = s.size
  cap : s'.cap = s.cap
  bit : ∀ i, s'.bit i = if start ≤ i ∧ i < stop then value else s.bit i

variable {s s' : BitSet} {value : Bool} {start stop : Nat}

theorem Filled.refl (s : BitSet) (value : Bool) {start stop : Nat} (h : stop ≤ start) :
    Filled s s value start stop :=
  ⟨rfl, rfl, fun i => (if_neg (by omega)).symm⟩

/-- Neighboring ranges are filled one after the other. -/
theorem Filled.trans {s'' : BitSet} {mid : Nat} (h : Filled s s' value start mid)
    (h' : Filled s' s'' value mid stop) (hlow : start ≤ mid) (hhigh : mid ≤ stop) :
    Filled s s'' value start stop := by
  refine ⟨h'.size.trans h.size, h'.cap.trans h.cap, fun i => ?_⟩
  rw [h'.bit, h.bit]
  by_cases hmid : mid ≤ i
  · by_cases hend : i < stop
    · rw [if_pos ⟨hmid, hend⟩, if_pos ⟨by omega, hend⟩]
    · rw [if_neg (by omega), if_neg (by omega), if_neg (by omega)]
  · by_cases hstart : start ≤ i
    · rw [if_neg (by omega), if_pos ⟨hstart, by omega⟩, if_pos ⟨hstart, by omega⟩]
    · rw [if_neg (by omega), if_neg (by omega), if_neg (by omega)]

/-- A word whose mask covers the part of a range in it, when the range lies in the word. -/
theorem modifyWord_filled {m : Nat} (hm : m < s.data.length) (value : Bool) {mask : BitVec 64}
    (hmask : ∀ i, i / 64 = m → mask.getLsbD (i % 64) = decide (start ≤ i ∧ i < stop))
    (hlow : 64 * m ≤ start) (hhigh : stop ≤ 64 * m + 64) :
    ∃ s', s.modifyWord m (blend value mask) = some s' ∧ Filled s s' value start stop := by
  obtain ⟨s', hs', hsize, hcap, hbit⟩ := modifyWord_spec hm (blend value mask)
  refine ⟨s', hs', hsize, hcap, fun i => ?_⟩
  rw [hbit]
  by_cases hi : i / 64 = m
  · rw [if_pos hi, getLsbD_blend _ _ _ (Nat.mod_lt _ (by decide)), hmask i hi, bit, hi]
    by_cases hin : start ≤ i ∧ i < stop
    · rw [if_pos hin, if_pos (decide_eq_true hin)]
    · rw [if_neg hin, if_neg (by simpa using hin)]
  · rw [if_neg hi, if_neg (by omega)]

theorem setWords_filled {nstart nend : Nat} (hle : nstart ≤ nend) (hend : nend ≤ s.data.length)
    (value : Bool) :
    ∃ s', s.setWords nstart nend (pattern value) = some s' ∧
      Filled s s' value (64 * nstart) (64 * nend) := by
  refine ⟨_, if_pos hend, rfl, ?_, fun i => ?_⟩
  · simp only [cap, List.length_append, List.length_take, List.length_replicate, List.length_drop]
    omega
  · have htake : (s.data.take nstart).length = nstart := by
      rw [List.length_take]
      omega
    simp only [bit, List.getD_eq_getElem?_getD]
    by_cases hlow : i / 64 < nstart
    · rw [if_neg (by omega), List.append_assoc, List.getElem?_append_left (by omega),
        List.getElem?_take_of_lt hlow]
    · by_cases hhigh : i / 64 < nend
      · rw [if_pos (by omega), List.getElem?_append_left (by
            rw [List.length_append, htake, List.length_replicate]
            omega), List.getElem?_append_right (by omega), List.getElem?_replicate,
          if_pos (by omega), Option.getD_some, getLsbD_pattern]
        simp [Nat.mod_lt i (by decide : 0 < 64)]
      · have hlen : (s.data.take nstart ++ List.replicate (nend - nstart) (pattern value)).length =
            nend := by
          rw [List.length_append, htake, List.length_replicate]
          omega
        rw [if_neg (by omega), List.getElem?_append_right (by omega), hlen, List.getElem?_drop,
          Nat.add_sub_cancel' (by omega)]

theorem fillHead_filled (hcap : 64 * (start / 64) + 64 ≤ s.cap) (value : Bool) :
    ∃ s' mid, s.fillHead value start = some (s', mid) ∧ mid % 64 = 0 ∧ start ≤ mid ∧
      mid ≤ start / 64 * 64 + 64 ∧ Filled s s' value start mid := by
  unfold fillHead
  dsimp only
  by_cases hhead : start % 64 = 0
  · rw [if_neg (not_not_intro hhead)]
    exact ⟨s, start, rfl, hhead, Nat.le_refl _, by omega, .refl s value (Nat.le_refl _)⟩
  · rw [if_pos hhead]
    have hword : start / 64 < s.data.length := by
      unfold cap at hcap
      omega
    obtain ⟨s', hs', hfilled⟩ : ∃ s', s.modifyWord (start / 64) (blend value
        (highBits (start % 64))) = some s' ∧ Filled s s' value start (start - start % 64 + 64) :=
      modifyWord_filled hword value (fun i hi => by
        rw [getLsbD_highBits _ (Nat.mod_lt _ (by decide)), decide_eq_decide]
        omega) (by omega) (by omega)
    exact ⟨s', _, by rw [hs']; rfl, by omega, by omega, by omega, hfilled⟩

theorem fillBulk_filled (hstart : start % 64 = 0) (hle : start ≤ stop / 64 * 64)
    (hcap : stop ≤ s.cap) (value : Bool) :
    ∃ s', s.fillBulk value start stop = some s' ∧ Filled s s' value start (stop / 64 * 64) := by
  unfold fillBulk
  by_cases hlt : start / 64 < stop / 64
  · have hend : stop / 64 ≤ s.data.length := by
      unfold cap at hcap
      omega
    obtain ⟨s', hs', hfilled⟩ := setWords_filled (by omega : start / 64 ≤ stop / 64) hend value
    rw [if_pos hlt]
    refine ⟨s', hs', ?_⟩
    rwa [show 64 * (start / 64) = start by omega, Nat.mul_comm 64] at hfilled
  · rw [if_neg hlt]
    exact ⟨s, rfl, .refl s value (by omega)⟩

theorem fillTail_filled (hcap : stop ≤ s.cap) (value : Bool) :
    ∃ s', s.fillTail value stop = some s' ∧ Filled s s' value (stop / 64 * 64) stop := by
  unfold fillTail
  dsimp only
  by_cases htail : stop % 64 = 0
  · rw [if_neg (not_not_intro htail)]
    exact ⟨s, rfl, .refl s value (by omega)⟩
  · rw [if_pos htail]
    have hword : stop / 64 < s.data.length := by
      unfold cap at hcap
      omega
    exact modifyWord_filled hword value (fun i hi => by
      rw [getLsbD_lowBits _ (Nat.mod_lt _ (by decide)), decide_eq_decide]
      omega) (by omega) (by omega)

/-- `fill` fills the range up to the size. -/
theorem fill_filled (hcap : min stop s.size ≤ s.cap) (value : Bool) (start : Nat) :
    ∃ s', s.fill value start stop = some s' ∧ Filled s s' value start (min stop s.size) := by
  unfold fill
  dsimp only
  by_cases hempty : min stop s.size ≤ start
  · rw [if_pos hempty]
    exact ⟨s, rfl, .refl s value hempty⟩
  · rw [if_neg hempty]
    generalize min stop s.size = stop at hempty hcap ⊢
    by_cases hone : start / 64 = stop / 64
    · rw [if_pos hone]
      have hword : start / 64 < s.data.length := by
        unfold cap at hcap
        omega
      exact modifyWord_filled hword value (fun i hi => by
        have hlow : i % 64 < 64 := Nat.mod_lt _ (by decide)
        rw [BitVec.getLsbD_and, getLsbD_highBits _ hlow, getLsbD_lowBits _ hlow,
          ← Bool.decide_and, decide_eq_decide]
        omega) (by omega) (by omega)
    · rw [if_neg hone]
      have hword : 64 * (start / 64) + 64 ≤ s.cap := by
        unfold cap at *
        omega
      obtain ⟨s₁, mid, hhead, halign, hlow, hhigh, hfilled₁⟩ := fillHead_filled hword value
      have hcap₁ : stop ≤ s₁.cap := by rw [hfilled₁.cap]; exact hcap
      have hmid : mid ≤ stop / 64 * 64 := by omega
      obtain ⟨s₂, hbulk, hfilled₂⟩ := fillBulk_filled halign hmid hcap₁ value
      have hcap₂ : stop ≤ s₂.cap := by rw [hfilled₂.cap]; exact hcap₁
      obtain ⟨s₃, htail, hfilled₃⟩ := fillTail_filled hcap₂ value
      refine ⟨s₃, ?_, (hfilled₁.trans hfilled₂ hlow (by omega)).trans hfilled₃ (by omega) (by omega)⟩
      rw [hhead, Option.bind_some, hbulk, Option.bind_some, htail]

/-! ## Growing -/

/-- New words, if any, hold zeros. -/
theorem realloc_spec (h : s.WF) (mem : Nat → Bool) (newcap : Nat) :
    (s.realloc mem newcap).2.size = s.size ∧ (∀ i, (s.realloc mem newcap).2.bit i = s.bit i) ∧
      (s.realloc mem newcap).2.cap < 2 ^ 64 ∧ s.cap ≤ (s.realloc mem newcap).2.cap ∧
      ((s.realloc mem newcap).1 = false → (s.realloc mem newcap).2 = s) ∧
      ((s.realloc mem newcap).1 = true → 64 * words newcap ≤ (s.realloc mem newcap).2.cap) := by
  have hold : words s.cap = s.data.length := words_cap h.cap_lt
  have hlt := words_lt newcap
  unfold realloc
  dsimp only
  rw [hold]
  by_cases hmore : s.data.length < words newcap
  · rw [if_pos hmore]
    by_cases hmem : mem (words newcap)
    · rw [if_pos hmem]
      have hcap : BitSet.cap ⟨s.data ++ List.replicate (words newcap - s.data.length) 0, s.size⟩ =
          64 * words newcap := by
        simp only [cap, List.length_append, List.length_replicate]
        omega
      refine ⟨rfl, fun i => ?_, by rw [hcap]; exact hlt, by rw [hcap, cap]; omega,
        fun hfalse => Bool.noConfusion hfalse, fun _ => Nat.le_of_eq hcap.symm⟩
      simp only [bit, List.getD_eq_getElem?_getD]
      by_cases hi : i / 64 < s.data.length
      · rw [List.getElem?_append_left hi]
      · rw [List.getElem?_append_right (by omega), List.getElem?_replicate,
          List.getElem?_eq_none (l := s.data) (by omega)]
        split <;> simp
    · rw [if_neg hmem]
      exact ⟨rfl, fun _ => rfl, h.cap_lt, Nat.le_refl _, fun _ => rfl,
        fun htrue => Bool.noConfusion htrue⟩
  · rw [if_neg hmore]
    exact ⟨rfl, fun _ => rfl, h.cap_lt, Nat.le_refl _, fun hfalse => Bool.noConfusion hfalse,
      fun _ => Nat.mul_le_mul_left 64 (Nat.le_of_not_lt hmore)⟩

/-- The bits beyond the allocated words are false. -/
theorem bit_of_cap_le {i : Nat} (h : s.cap ≤ i) : s.bit i = false := by
  unfold cap at h
  rw [bit, List.getD_eq_getElem?_getD, List.getElem?_eq_none (by omega)]
  exact BitVec.getLsbD_zero

/-- The memory for a larger size is there, unless the size overflows. -/
theorem growCap_spec (h : s.WF) (mem : Nat → Bool) {n : Nat} (hn : n ≤ 2 ^ 64 - 64) :
    (s.growCap mem n).2.size = s.size ∧ (∀ i, (s.growCap mem n).2.bit i = s.bit i) ∧
      (s.growCap mem n).2.cap < 2 ^ 64 ∧ ((s.growCap mem n).1 = false → (s.growCap mem n).2 = s) ∧
      ((s.growCap mem n).1 = true → n ≤ (s.growCap mem n).2.cap) := by
  unfold growCap
  dsimp only
  have hcap2 : (if 64 ≤ s.cap then s.cap * 2 % 2 ^ 64 else 64) ≤ 2 ^ 64 - 64 := by
    have hcap : s.cap % 64 = 0 := Nat.mul_mod_right 64 _
    split <;> omega
  generalize (if 64 ≤ s.cap then s.cap * 2 % 2 ^ 64 else 64) = cap2 at hcap2 ⊢
  have hle : n ≤ (if cap2 ≤ n then n else cap2) := by split <;> omega
  have hsmall : (if cap2 ≤ n then n else cap2) ≤ 2 ^ 64 - 64 := by split <;> omega
  generalize (if cap2 ≤ n then n else cap2) = newcap at hle hsmall ⊢
  obtain ⟨hsize, hbit, hlt, -, hfail, hok⟩ := realloc_spec h mem newcap
  have hwords := le_words hsmall
  exact ⟨hsize, hbit, hlt, hfail, fun htrue => by have := hok htrue; omega⟩

/-- What is left after an attempt to give the set another size: the bits below both sizes, and false
ones above the old size. -/
def Resized (s : BitSet) (n : Nat) : Bool × BitSet → Prop
  | (true, s') => s'.size = n ∧ ∀ i < n, s'.get i = if i < s.size then s.get i else some false
  | (false, s') => s' = s

/-- The bits of a set of the new size. -/
theorem resized_of_bit (h : s.WF) {n : Nat} (hsize : s'.size = n) (hcap : n ≤ s'.cap)
    (hbit : ∀ i < n, s'.bit i = if i < s.size then s.bit i else false) :
    Resized s n (true, s') := by
  refine ⟨hsize, fun i hi => ?_⟩
  rw [get_eq_bit (by omega), hsize, if_pos hi, hbit i hi]
  by_cases hold : i < s.size
  · rw [if_pos hold, if_pos hold, get_eq_bit h.size_le, if_pos hold]
  · rw [if_neg hold, if_neg hold]

theorem grow_resized (h : s.WF) (mem : Nat → Bool) {n : Nat} (hn : n ≤ 2 ^ 64 - 64) :
    ∃ r, s.grow mem n = some r ∧ Resized s n r ∧ r.2.WF := by
  unfold grow
  dsimp only
  obtain ⟨hsize, hbit, hlt, hfail, hok⟩ : (if s.cap < n then s.growCap mem n else (true, s)).2.size =
        s.size ∧ (∀ i, (if s.cap < n then s.growCap mem n else (true, s)).2.bit i = s.bit i) ∧
      (if s.cap < n then s.growCap mem n else (true, s)).2.cap < 2 ^ 64 ∧
      ((if s.cap < n then s.growCap mem n else (true, s)).1 = false →
        (if s.cap < n then s.growCap mem n else (true, s)).2 = s) ∧
      ((if s.cap < n then s.growCap mem n else (true, s)).1 = true →
        n ≤ (if s.cap < n then s.growCap mem n else (true, s)).2.cap) := by
    by_cases hcap : s.cap < n
    · rw [if_pos hcap]
      exact growCap_spec h mem hn
    · rw [if_neg hcap]
      exact ⟨rfl, fun _ => rfl, h.cap_lt, fun _ => rfl, fun _ => by simpa using hcap⟩
  generalize (if s.cap < n then s.growCap mem n else (true, s)) = r at *
  obtain ⟨ok, s₁⟩ := r
  dsimp only at *
  cases ok with
  | false => exact ⟨_, if_neg Bool.false_ne_true, rfl, h⟩
  | true =>
    rw [if_pos rfl]
    have hcap : n ≤ BitSet.cap ⟨s₁.data, n⟩ := hok rfl
    have hbit₁ : ∀ i, BitSet.bit ⟨s₁.data, n⟩ i = s.bit i := hbit
    by_cases hclear : s.size < min n s.cap
    · rw [if_pos hclear]
      obtain ⟨s', hs', hfilled⟩ := fill_filled (s := ⟨s₁.data, n⟩)
        (Nat.le_trans (Nat.min_le_right (min n s.cap) n) hcap) false s.size
      rw [hs']
      have hsize' : s'.size = n := hfilled.size
      have hcap' : n ≤ s'.cap := by
        rw [hfilled.cap]
        exact hcap
      refine ⟨_, rfl, resized_of_bit h hsize' hcap' fun i hi => ?_, by rw [hsize']; exact hcap',
        by rw [hfilled.cap]; exact hlt⟩
      rw [hfilled.bit, hbit₁]
      by_cases hold : i < s.size
      · rw [if_pos hold, if_neg (by omega)]
      · rw [if_neg hold]
        by_cases hin : i < s.cap
        · rw [if_pos ⟨by omega, by dsimp only; omega⟩]
        · rw [if_neg (by dsimp only; omega), bit_of_cap_le (by omega)]
    · rw [if_neg hclear]
      refine ⟨_, rfl, resized_of_bit h rfl hcap fun i hi => ?_, hcap, hlt⟩
      rw [hbit₁]
      by_cases hold : i < s.size
      · rw [if_pos hold]
      · rw [if_neg hold, bit_of_cap_le]
        have := h.size_le
        omega

theorem resize_resized (h : s.WF) (mem : Nat → Bool) {n : Nat} (hn : n ≤ 2 ^ 64 - 64) :
    ∃ r, s.resize mem n = some r ∧ Resized s n r ∧ r.2.WF := by
  unfold resize
  by_cases hle : n ≤ s.size
  · have hcap : n ≤ s.cap := Nat.le_trans hle h.size_le
    rw [if_pos hle]
    refine ⟨_, rfl, resized_of_bit h rfl hcap fun i hi => ?_, hcap, h.cap_lt⟩
    rw [if_pos (by omega)]
    rfl
  · rw [if_neg hle]
    exact grow_resized h mem hn

/-! ## Sizes that overflow -/

/-- Above `2 ^ 64 - 64` the number of words is zero, and the set grows without memory. -/
theorem grow_overflow (h : s.WF) (mem : Nat → Bool) {n : Nat} (hn : 2 ^ 64 - 64 < n)
    (hlt : n < 2 ^ 64) :
    ∃ s', s.grow mem n = some (true, s') ∧ s'.size = n ∧ s'.cap = s.cap ∧ s.cap < n := by
  have hcap : s.cap ≤ 2 ^ 64 - 64 := by
    have halign : s.cap % 64 = 0 := Nat.mul_mod_right 64 _
    have := h.cap_lt
    omega
  have hrealloc : s.growCap mem n = (true, s) := by
    have hcap2 : (if 64 ≤ s.cap then s.cap * 2 % 2 ^ 64 else 64) ≤ n := by
      have halign : s.cap % 64 = 0 := Nat.mul_mod_right 64 _
      split <;> omega
    have hwords : words n = 0 := by
      unfold words
      omega
    unfold growCap realloc
    dsimp only
    rw [if_pos hcap2, hwords, if_neg (Nat.not_lt_zero _)]
  have hmore : s.cap < n := by omega
  unfold grow
  dsimp only
  rw [if_pos hmore, hrealloc]
  dsimp only
  rw [if_pos rfl]
  by_cases hclear : s.size < min n s.cap
  · rw [if_pos hclear]
    obtain ⟨s', hs', hfilled⟩ := fill_filled (s := ⟨s.data, n⟩)
      (Nat.le_trans (Nat.min_le_left (min n s.cap) n) (Nat.min_le_right n s.cap)) false s.size
    rw [hs']
    exact ⟨s', rfl, hfilled.size, hfilled.cap, hmore⟩
  · rw [if_neg hclear]
    exact ⟨_, rfl, rfl, rfl, hmore⟩

/-- A bit beyond the capacity cannot be read. -/
theorem not_resized_of_cap_lt {n : Nat} (hsize : s'.size = n) (hold : s.size ≤ s'.cap)
    (hcap : s'.cap < n) : ¬Resized s n (true, s') := by
  rintro ⟨-, hget⟩
  have hnone : s'.get s'.cap = none := by
    have hword : s'.cap / 64 = s'.data.length := Nat.mul_div_cancel_left _ (by decide)
    rw [get, if_pos (by omega), hword, List.getElem?_eq_none (Nat.le_refl _)]
    rfl
  have hsome := hget s'.cap hcap
  rw [hnone, if_neg (Nat.not_lt.mpr hold)] at hsome
  cases hsome

/-! ## Exact bits -/

theorem fill_get (h : s.size ≤ s.cap) (value : Bool) (start stop : Nat) :
    ∃ s', s.fill value start stop = some s' ∧ s'.size = s.size ∧ s'.cap = s.cap ∧ ∀ i, s'.get i =
      if start ≤ i ∧ i < min stop s.size then some value else s.get i := by
  obtain ⟨s', hs', hfilled⟩ := fill_filled (Nat.le_trans (Nat.min_le_right stop _) h) value start
  refine ⟨s', hs', hfilled.size, hfilled.cap, fun i => ?_⟩
  rw [get_eq_bit (by rw [hfilled.size, hfilled.cap]; exact h), get_eq_bit h, hfilled.size,
    hfilled.bit]
  by_cases hin : start ≤ i ∧ i < min stop s.size
  · rw [if_pos hin, if_pos hin, if_pos (by omega)]
  · rw [if_neg hin, if_neg hin]

theorem WF.truncate (h : s.WF) (n : Nat) : (s.truncate n).WF := by
  unfold BitSet.truncate
  by_cases hlt : n < s.size
  · rw [if_pos hlt]
    exact ⟨Nat.le_trans (Nat.le_of_lt hlt) h.size_le, h.cap_lt⟩
  · rw [if_neg hlt]
    exact h

theorem truncate_get (s : BitSet) (n : Nat) : (s.truncate n).size = min s.size n ∧
    ∀ i < min s.size n, (s.truncate n).get i = s.get i := by
  unfold truncate
  by_cases hlt : n < s.size
  · rw [if_pos hlt]
    refine ⟨(Nat.min_eq_right (Nat.le_of_lt hlt)).symm, fun i hi => ?_⟩
    unfold get
    rw [if_pos (show i < n by omega), if_pos (by omega)]
  · rw [if_neg hlt]
    exact ⟨(Nat.min_eq_left (Nat.le_of_not_lt hlt)).symm, fun _ _ => rfl⟩

/-- The bits after filling and after a change of the size to `n`, also when the set has been
truncated before. -/
structure ExactBits (mem : Nat → Bool) (s : BitSet) (n : Nat) : Prop where
  fill : ∀ value start stop, ∃ s', s.fill value start stop = some s' ∧ s'.size = s.size ∧
    ∀ i, s'.get i = if start ≤ i ∧ i < min stop s.size then some value else s.get i
  truncate : (s.truncate n).size = min s.size n ∧
    ∀ i < min s.size n, (s.truncate n).get i = s.get i
  resize : ∃ r, s.resize mem n = some r ∧ Resized s n r
  grow : ∃ r, s.grow mem n = some r ∧ Resized s n r
  regrow : ∀ m, ∃ r, (s.truncate m).resize mem n = some r ∧ Resized (s.truncate m) n r

/-- A set whose size is beyond its words cannot be filled. -/
theorem fill_of_cap_lt (h : s.cap < s.size) (value : Bool) :
    s.fill value s.cap (s.cap + 1) = none := by
  have hword : s.cap / 64 = s.data.length := Nat.mul_div_cancel_left _ (by decide)
  have hnext : (s.cap + 1) / 64 = s.data.length := by
    have halign : s.cap % 64 = 0 := Nat.mul_mod_right 64 _
    omega
  have hstop : min (s.cap + 1) s.size = s.cap + 1 := by omega
  have hstart : ¬s.cap + 1 ≤ s.cap := by omega
  unfold fill modifyWord
  dsimp only
  rw [hstop, if_neg hstart, hword, hnext, if_pos rfl, if_neg (Nat.lt_irrefl _)]

/-- The bits are exact exactly when the set has the words for its size, and the number of words for
the new size does not overflow. -/
theorem resizing_exact_iff (mem : Nat → Bool) {s : BitSet} (hcap : s.cap < 2 ^ 64) {n : Nat}
    (hn : n < 2 ^ 64) : ExactBits mem s n ↔ s.size ≤ s.cap ∧ n ≤ 2 ^ 64 - 64 := by
  constructor
  · intro h
    have hsize : s.size ≤ s.cap := by
      by_contra hlt
      obtain ⟨s', hs', -⟩ := h.fill true s.cap (s.cap + 1)
      rw [fill_of_cap_lt (Nat.lt_of_not_le hlt)] at hs'
      cases hs'
    refine ⟨hsize, ?_⟩
    by_contra hlarge
    obtain ⟨s', hs', hnew, hcap', hless⟩ :=
      grow_overflow ⟨hsize, hcap⟩ mem (Nat.lt_of_not_le hlarge) hn
    obtain ⟨r, hr, hresized⟩ := h.grow
    rw [hs', Option.some.injEq] at hr
    subst hr
    exact not_resized_of_cap_lt hnew (by rw [hcap']; exact hsize) (by rw [hcap']; exact hless)
      hresized
  · rintro ⟨hsize, hsmall⟩
    have hwf : s.WF := ⟨hsize, hcap⟩
    refine ⟨fun value start stop => ?_, truncate_get s n, ?_, ?_, fun m => ?_⟩
    · obtain ⟨s', hs', hsize', -, hget⟩ := fill_get hsize value start stop
      exact ⟨s', hs', hsize', hget⟩
    · obtain ⟨r, hr, hresized, -⟩ := resize_resized hwf mem hsmall
      exact ⟨r, hr, hresized⟩
    · obtain ⟨r, hr, hresized, -⟩ := grow_resized hwf mem hsmall
      exact ⟨r, hr, hresized⟩
    · obtain ⟨r, hr, hresized, -⟩ := resize_resized (hwf.truncate m) mem hsmall
      exact ⟨r, hr, hresized⟩

theorem resizing_exact_iff_word :
    BitSet.cap ⟨[BitVec.allOnes 64], 40⟩ < 2 ^ 64 ∧ 200 < 2 ^ 64 ∧
      (ExactBits (fun n => decide (n ≤ 8)) ⟨[BitVec.allOnes 64], 40⟩ 200 ↔
        BitSet.size ⟨[BitVec.allOnes 64], 40⟩ ≤ BitSet.cap ⟨[BitVec.allOnes 64], 40⟩ ∧
          200 ≤ 2 ^ 64 - 64) :=
  ⟨by decide, by decide, resizing_exact_iff _ (by decide) (by decide)⟩

/-- The empty set grows to the largest size without any memory. -/
theorem not_exactBits_empty :
    BitSet.resize (fun _ => true) ⟨[], 0⟩ (2 ^ 64 - 1) = some (true, ⟨[], 2 ^ 64 - 1⟩) ∧
      BitSet.get ⟨[], 2 ^ 64 - 1⟩ 0 = none ∧ ¬ExactBits (fun _ => true) ⟨[], 0⟩ (2 ^ 64 - 1) := by
  have hresize : BitSet.resize (fun _ => true) ⟨[], 0⟩ (2 ^ 64 - 1) =
      some (true, ⟨[], 2 ^ 64 - 1⟩) := by decide
  refine ⟨hresize, by decide, fun h => ?_⟩
  obtain ⟨r, hr, hresized⟩ := h.resize
  rw [hresize, Option.some.injEq] at hr
  subst hr
  have hbit := hresized.2 0 (by decide)
  revert hbit
  decide

end BitSet

end OneJit.Stl
