import Mathlib.Data.Nat.Find
import OneJit.Stl.BitSet

/-!
# Searching a bit set

`BitSet::find` shifts the word at the start of the range down, so that zeros come in from above: when
it searches for a false bit, these are taken for false bits of the next word. Where neither `ffs` nor
`ffsl` is available, `find_first_set` counts from zero and not from one.
-/

namespace OneJit.Stl

/-! ## The lowest bit of a word -/

/-- Position `k` is the lowest bit that is set. -/
def Lowest {w : Nat} (x : BitVec w) (k : Nat) : Prop :=
  x.getLsbD k = true ∧ ∀ j < k, x.getLsbD j = false

theorem exists_lowest {w : Nat} {x : BitVec w} (h : x ≠ 0) : ∃ k < w, Lowest x k := by
  have hsome : ∃ k, x.getLsbD k = true := by
    by_contra hnone
    refine h (BitVec.zero_iff_eq_false.mpr fun i => ?_)
    exact Bool.not_eq_true _ ▸ fun hi => hnone ⟨i, hi⟩
  have hk := Nat.find_spec hsome
  refine ⟨Nat.find hsome, BitVec.lt_of_getLsbD hk, hk, fun j hj => ?_⟩
  exact Bool.not_eq_true _ ▸ Nat.find_min hsome hj

/-- `ffs` and `ffsl`: one more than the position of the lowest bit, or zero. -/
def ffs {w : Nat} (i : BitVec w) : Nat :=
  match (List.range w).find? i.getLsbD with
  | some k => k + 1
  | none => 0

theorem Lowest.ffs_eq {w : Nat} {x : BitVec w} {k : Nat} (h : Lowest x k) : ffs x = k + 1 := by
  have hfind : (List.range w).find? x.getLsbD = some k := by
    rw [List.find?_range_eq_some]
    refine ⟨h.1, List.mem_range.mpr (BitVec.lt_of_getLsbD h.1), fun j hj => ?_⟩
    simpa using h.2 j hj
  rw [ffs, hfind]

theorem ffs_zero (w : Nat) : ffs (0 : BitVec w) = 0 := by
  have hfind : (List.range w).find? (0 : BitVec w).getLsbD = none := by simp
  rw [ffs, hfind]

/-- The functions of the C library that the build has found. -/
structure Config where
  haveFfs : Bool
  haveFfsl : Bool
  deriving DecidableEq, Repr

/-- `find_first_set` then counts from one. -/
def Config.oneBased (cfg : Config) : Bool := cfg.haveFfs || cfg.haveFfsl

/-- `while ((i & 1) == 0) { ret++; i >>= 1; }`, on a byte that is not zero. -/
def skipZeros : Nat → Nat → BitVec 64 → Nat
  | 0, ret, _ => ret
  | fuel + 1, ret, i => if i &&& 1#64 = 0#64 then skipZeros fuel (ret + 1) (i >>> 1) else ret

/-- The loop of `find_first_set` where the library has no such function. -/
def findFirstSetLoop : Nat → Nat → BitVec 64 → Nat
  | 0, _, _ => 0
  | fuel + 1, ret, i =>
    if i = 0 then 0
    else if i.setWidth 8 ≠ 0 then skipZeros 8 ret i
    else findFirstSetLoop fuel (ret + 8) (i >>> 8)

/-- `find_first_set(unsigned long)`. -/
def findFirstSet (cfg : Config) (i : BitVec 64) : Nat :=
  if cfg.haveFfsl then ffs i
  else if cfg.haveFfs then
    let lo := ffs (i.setWidth 32)
    if lo ≠ 0 then lo
    else
      let hi := ffs ((i >>> 32).setWidth 32)
      if hi ≠ 0 then hi + 32 else 0
  else findFirstSetLoop 9 0 i

theorem Lowest.shift {x : BitVec 64} {k n : Nat} (h : Lowest x k) (hn : n ≤ k) :
    Lowest (x >>> n) (k - n) := by
  refine ⟨?_, fun j hj => ?_⟩
  · rw [BitVec.getLsbD_ushiftRight, Nat.add_sub_cancel' hn]
    exact h.1
  · rw [BitVec.getLsbD_ushiftRight]
    exact h.2 _ (by omega)

theorem Lowest.setWidth {x : BitVec 64} {k n : Nat} (h : Lowest x k) (hk : k < n) :
    Lowest (x.setWidth n) k := by
  refine ⟨?_, fun j hj => ?_⟩
  · rw [BitVec.getLsbD_setWidth, h.1]
    simp [hk]
  · rw [BitVec.getLsbD_setWidth, h.2 j hj, Bool.and_false]

theorem Lowest.ne_zero {w : Nat} {x : BitVec w} {k : Nat} (h : Lowest x k) : x ≠ 0 := by
  rintro rfl
  exact absurd h.1 (by simp)

/-- The lower bits are zero. -/
theorem Lowest.setWidth_eq_zero {x : BitVec 64} {k n : Nat} (h : Lowest x k) (hn : n ≤ k) :
    x.setWidth n = 0 := by
  refine BitVec.zero_iff_eq_false.mpr fun i => ?_
  rw [BitVec.getLsbD_setWidth]
  by_cases hi : i < n
  · rw [h.2 i (by omega), Bool.and_false]
  · simp [hi]

theorem skipZeros_eq (fuel ret : Nat) {x : BitVec 64} {k : Nat} (h : Lowest x k) (hk : k < fuel) :
    skipZeros fuel ret x = ret + k := by
  induction fuel generalizing ret x k with
  | zero => omega
  | succ fuel ih =>
    have hbit : x &&& 1#64 = 0#64 ↔ x.getLsbD 0 = false := by
      rw [BitVec.zero_iff_eq_false]
      refine ⟨fun h => by simpa using h 0, fun h i => ?_⟩
      rw [BitVec.getLsbD_and]
      by_cases hi : i = 0
      · rw [hi, h, Bool.false_and]
      · have hone : (1#64).getLsbD i = false := by
          rw [BitVec.getLsbD_one]
          simp [hi]
        rw [hone, Bool.and_false]
    have hone := h.1
    rw [skipZeros]
    obtain _ | k := k
    · rw [if_neg (fun hzero => absurd hone (by rw [hbit.mp hzero]; decide)), Nat.add_zero]
    · rw [if_pos (hbit.mpr (h.2 0 (by omega))), ih (ret + 1) (h.shift (by omega)) (by omega)]
      omega

theorem findFirstSetLoop_eq (fuel ret : Nat) {x : BitVec 64} {k : Nat} (h : Lowest x k)
    (hk : k < 8 * fuel) : findFirstSetLoop fuel ret x = ret + k := by
  induction fuel generalizing ret x k with
  | zero => omega
  | succ fuel ih =>
    rw [findFirstSetLoop, if_neg h.ne_zero]
    by_cases hbyte : k < 8
    · rw [if_pos (h.setWidth hbyte).ne_zero, skipZeros_eq 8 ret h hbyte]
    · have hzero : x.setWidth 8 = 0 := h.setWidth_eq_zero (by omega)
      rw [if_neg (not_not_intro hzero), ih (ret + 8) (h.shift (by omega)) (by omega)]
      omega

/-- `find_first_set` counts from one with a function of the library, from zero without. -/
theorem findFirstSet_eq (cfg : Config) {x : BitVec 64} {k : Nat} (h : Lowest x k) :
    findFirstSet cfg x = if cfg.oneBased then k + 1 else k := by
  have hk : k < 64 := BitVec.lt_of_getLsbD h.1
  obtain ⟨ffs, ffsl⟩ := cfg
  unfold findFirstSet Config.oneBased
  cases ffsl with
  | true =>
    simp only [Bool.or_true, if_true]
    exact h.ffs_eq
  | false =>
    cases ffs with
    | false =>
      simp only [Bool.or_false, if_neg Bool.false_ne_true]
      rw [findFirstSetLoop_eq 9 0 h (by omega), Nat.zero_add]
    | true =>
      simp only [Bool.or_false, if_neg Bool.false_ne_true, if_true]
      by_cases hlow : k < 32
      · rw [(h.setWidth hlow).ffs_eq, if_pos (by omega)]
      · have hhigh : Lowest ((x >>> 32).setWidth 32) (k - 32) :=
          (h.shift (by omega)).setWidth (by omega)
        rw [h.setWidth_eq_zero (by omega), ffs_zero, if_neg (by omega), hhigh.ffs_eq,
          if_pos (by omega)]
        omega

namespace BitSet

/-! ## The search -/

/-- `find_first_set(bits) - 1`, in 32 bits. -/
def lowestOf (cfg : Config) (bits : BitVec 64) : Nat :=
  (BitVec.ofNat 32 (findFirstSet cfg bits) - 1#32).toNat

/-- `return start < end ? start : NoPos`. -/
def clip (stop start : Nat) : Option Nat := if start < stop then some start else none

/-- The second loop of `find`, over the words from the position `start` on. -/
def findWords (cfg : Config) (value : Bool) (stop : Nat) :
    Nat → List (BitVec 64) → Option (Option Nat)
  | start, [] => if start < stop then none else some none
  | start, w :: words =>
    if start < stop then
      let bits := pattern (!value) ^^^ w
      if bits ≠ 0 then some (clip stop (start ||| lowestOf cfg bits))
      else findWords cfg value stop (start + 64) words
    else some none

/-- `find`. -/
def find (cfg : Config) (s : BitSet) (value : Bool) (start stop : Nat) : Option (Option Nat) :=
  let stop := min stop s.size
  if start < stop then
    (s.data[start / 64]?).bind fun w =>
      let bits := pattern (!value) ^^^ (w >>> (start % 64))
      if bits ≠ 0 then some (clip stop ((start + lowestOf cfg bits) % 2 ^ 64))
      else findWords cfg value stop (64 + start / 64 * 64) (s.data.drop (start / 64 + 1))
  else some none

theorem lowestOf_eq (cfg : Config) {bits : BitVec 64} {k : Nat} (h : Lowest bits k) :
    lowestOf cfg bits = if cfg.oneBased then k else if k = 0 then 2 ^ 32 - 1 else k - 1 := by
  have hk : k < 64 := BitVec.lt_of_getLsbD h.1
  rw [lowestOf, findFirstSet_eq cfg h, BitVec.toNat_sub]
  cases cfg.oneBased with
  | true =>
    simp only [if_true, BitVec.toNat_ofNat]
    omega
  | false =>
    simp only [Bool.false_eq_true, if_false, BitVec.toNat_ofNat]
    split <;> omega

/-- A bit of the word that is searched: whether the bit has the value, and above the word whether the
value is false. -/
theorem getLsbD_bits (value : Bool) (w : BitVec 64) (n : Nat) {k : Nat} (hk : k < 64) :
    (pattern (!value) ^^^ (w >>> n)).getLsbD k = (w.getLsbD (n + k) == value) := by
  rw [BitVec.getLsbD_xor, getLsbD_pattern, BitVec.getLsbD_ushiftRight]
  simp only [hk, decide_true, Bool.and_true]
  cases value <;> cases w.getLsbD (n + k) <;> rfl

/-- The result is the first position of the range with the value. -/
def IsFirst (s : BitSet) (value : Bool) (start stop : Nat) : Option Nat → Prop
  | none => ∀ i, start ≤ i → i < stop → s.bit i ≠ value
  | some i => start ≤ i ∧ i < stop ∧ s.bit i = value ∧ ∀ j, start ≤ j → j < i → s.bit j ≠ value

/-- The search stops at the word with the position `base`, at its bit `k`. -/
structure Hit (s : BitSet) (value : Bool) (start stop base k : Nat) : Prop where
  lt : k < 64
  le : start ≤ base
  base_lt : base < stop
  aligned : base ≠ start → base % 64 = 0 ∧ (value = true ∨ start % 64 = 0)
  before : ∀ i, start ≤ i → i < base + k → s.bit i ≠ value
  found : (s.bit (base + k) = value ∧ (base + k) / 64 = base / 64) ∨
    (value = false ∧ base = start ∧ start % 64 ≠ 0 ∧ base + k = start / 64 * 64 + 64)

/-- No word that the search looks at has the value. -/
structure Miss (s : BitSet) (value : Bool) (start stop : Nat) : Prop where
  all : ∀ i, start ≤ i → i / 64 ≤ (stop - 1) / 64 → s.bit i ≠ value
  clean : value = true ∨ start % 64 = 0

/-- The position that is computed from bit `k` of the word at `base`: by an addition in the first
word, by an `or` in the others. -/
def landing (cfg : Config) (start base k : Nat) : Nat :=
  let d := if cfg.oneBased then k else if k = 0 then 2 ^ 32 - 1 else k - 1
  if base = start then (start + d) % 2 ^ 64 else base ||| d

/-- Where the search stops, and what it returns there. -/
def Finds (cfg : Config) (s : BitSet) (value : Bool) (start stop : Nat)
    (r : Option (Option Nat)) : Prop :=
  (r = some none ∧ Miss s value start stop) ∨ ∃ base k, Hit s value start stop base k ∧
    r = some (clip stop (landing cfg start base k))

variable {cfg : Config} {s : BitSet} {value : Bool} {start stop : Nat}

theorem bit_word {m : Nat} (hm : m < s.data.length) {k : Nat} (hk : k < 64) :
    s.bit (64 * m + k) = s.data[m].getLsbD k := by
  have hdiv : (64 * m + k) / 64 = m := by omega
  have hmod : (64 * m + k) % 64 = k := by omega
  rw [bit, hdiv, hmod, List.getD_eq_getElem?_getD, List.getElem?_eq_getElem hm, Option.getD_some]

/-- The loop over the words. -/
theorem findWords_finds (cfg : Config) (hstop : stop ≤ s.cap)
    (hclean : value = true ∨ start % 64 = 0) {m : Nat} (hm : start < 64 * m)
    (hbefore : ∀ i, start ≤ i → i < 64 * m → s.bit i ≠ value) :
    Finds cfg s value start stop (findWords cfg value stop (64 * m) (s.data.drop m)) := by
  generalize hn : s.data.length - m = n
  induction n generalizing m with
  | zero =>
    have hcap : s.cap ≤ 64 * m := by
      unfold cap
      omega
    rw [List.drop_of_length_le (by omega), findWords, if_neg (by omega)]
    refine .inl ⟨rfl, fun i hlow hhigh => hbefore i hlow (by omega), hclean⟩
  | succ n ih =>
    have hlt : m < s.data.length := by omega
    rw [List.drop_eq_getElem_cons hlt, findWords]
    by_cases hend : 64 * m < stop
    · rw [if_pos hend]
      dsimp only
      have hbit : ∀ k < 64, (pattern (!value) ^^^ s.data[m]).getLsbD k =
          (s.bit (64 * m + k) == value) := by
        intro k hk
        have hbits := getLsbD_bits value s.data[m] 0 hk
        rwa [BitVec.ushiftRight_zero, Nat.zero_add, ← bit_word hlt hk] at hbits
      by_cases hzero : pattern (!value) ^^^ s.data[m] = 0
      · have hword : ∀ i, start ≤ i → i < 64 * (m + 1) → s.bit i ≠ value := by
          intro i hlow hhigh
          by_cases hi : i < 64 * m
          · exact hbefore i hlow hi
          · have hk := hbit (i - 64 * m) (by omega)
            rw [hzero, Nat.add_sub_cancel' (by omega)] at hk
            simpa using hk
        rw [if_neg (not_not_intro hzero), show 64 * m + 64 = 64 * (m + 1) by omega]
        exact ih (by omega) hword (by omega)
      · obtain ⟨k, hk, hlowest⟩ := exists_lowest hzero
        have hfound : s.bit (64 * m + k) = value := by
          have := hbit k hk
          rw [hlowest.1] at this
          exact beq_iff_eq.mp this.symm
        rw [if_pos hzero, lowestOf_eq cfg hlowest]
        refine .inr ⟨64 * m, k, ⟨hk, by omega, hend, fun _ => ⟨by omega, hclean⟩, ?_, .inl ⟨hfound, by omega⟩⟩, ?_⟩
        · intro i hlow hhigh
          by_cases hi : i < 64 * m
          · exact hbefore i hlow hi
          · have hk' := hbit (i - 64 * m) (by omega)
            rw [hlowest.2 _ (by omega), Nat.add_sub_cancel' (by omega)] at hk'
            exact fun heq => by simp [heq] at hk'
        · have hne : ¬64 * m = start := by omega
          rw [landing, if_neg hne]
    · rw [if_neg hend]
      exact .inl ⟨rfl, fun i hlow hhigh => hbefore i hlow (by omega), hclean⟩

/-- The first word, and the loop after it. -/
theorem find_finds (cfg : Config) (h : s.WF) (value : Bool) (hlt : start < min stop s.size) :
    Finds cfg s value start (min stop s.size) (s.find cfg value start stop) := by
  have hsize := h.size_le
  have hm : start / 64 < s.data.length := by
    unfold cap at hsize
    omega
  have hstart : 64 * (start / 64) + start % 64 = start := Nat.div_add_mod start 64
  have hlow : start % 64 < 64 := Nat.mod_lt _ (by decide)
  rw [find]
  dsimp only
  rw [if_pos hlt, List.getElem?_eq_getElem hm, Option.bind_some]
  have hbit : ∀ k < 64, (pattern (!value) ^^^ (s.data[start / 64] >>> (start % 64))).getLsbD k =
      ((if start % 64 + k < 64 then s.bit (start + k) else false) == value) := by
    intro k hk
    rw [getLsbD_bits _ _ _ hk]
    by_cases hin : start % 64 + k < 64
    · rw [if_pos hin, ← bit_word hm hin, ← Nat.add_assoc, hstart]
    · rw [if_neg hin, BitVec.getLsbD_of_ge _ _ (by omega)]
  generalize pattern (!value) ^^^ (s.data[start / 64] >>> (start % 64)) = bits at hbit ⊢
  by_cases hzero : bits = 0
  · have hnone : ∀ k < 64, ((if start % 64 + k < 64 then s.bit (start + k) else false) == value) =
        false := by
      intro k hk
      rw [← hbit k hk, hzero]
      exact BitVec.getLsbD_zero
    have hclean : value = true ∨ start % 64 = 0 := by
      by_cases hsh : start % 64 = 0
      · exact .inr hsh
      · have hk := hnone 63 (by decide)
        rw [if_neg (by omega)] at hk
        exact .inl (by simpa using hk)
    rw [if_neg (not_not_intro hzero), show 64 + start / 64 * 64 = 64 * (start / 64 + 1) by omega]
    refine findWords_finds cfg (by omega) hclean (by omega) fun i hi hhigh => ?_
    have hk := hnone (i - start) (by omega)
    rw [if_pos (by omega), Nat.add_sub_cancel' hi] at hk
    simpa using hk
  · obtain ⟨k, hk, hlowest⟩ := exists_lowest hzero
    have hbefore : ∀ j < k, (if start % 64 + j < 64 then s.bit (start + j) else false) ≠ value := by
      intro j hj
      have := hbit j (by omega)
      rw [hlowest.2 j hj] at this
      exact fun heq => by simp [heq] at this
    have hfound := hbit k hk
    rw [hlowest.1, eq_comm, beq_iff_eq] at hfound
    have hle : start % 64 + k ≤ 64 ∨ value = true := by
      by_cases hgt : 64 < start % 64 + k
      · have hk := hbefore (64 - start % 64) (by omega)
        rw [if_neg (by omega)] at hk
        exact .inr (by simpa using hk.symm)
      · exact .inl (by omega)
    rw [if_pos hzero, lowestOf_eq cfg hlowest]
    refine .inr ⟨start, k, ⟨hk, Nat.le_refl _, hlt, fun hne => absurd rfl hne, ?_, ?_⟩, ?_⟩
    · intro i hi hhigh
      have hk := hbefore (i - start) (by omega)
      by_cases hin : start % 64 + (i - start) < 64
      · rwa [if_pos hin, Nat.add_sub_cancel' hi] at hk
      · rw [if_neg hin] at hk
        rcases hle with hle | rfl
        · omega
        · rw [if_neg (by omega)] at hfound
          cases hfound
    · by_cases hin : start % 64 + k < 64
      · rw [if_pos hin] at hfound
        exact .inl ⟨hfound, by omega⟩
      · rw [if_neg hin] at hfound
        have hend : start % 64 + k = 64 := by
          rcases hle with hle | htrue
          · omega
          · rw [htrue] at hfound
            cases hfound
        exact .inr ⟨hfound.symm, rfl, by omega, by omega⟩
    · rw [landing, if_pos rfl]

/-! ## When the search is exact -/

/-- `find` returns the first position of the range with the value, or `NoPos` if there is none. -/
def FindExact (cfg : Config) (s : BitSet) (value : Bool) (start stop : Nat) : Prop :=
  ∃ r, s.find cfg value start stop = some r ∧ IsFirst s value start (min stop s.size) r

/-- The zeros that are shifted in are not taken for false bits of the next word: the bits searched
for are true, or the range begins or ends in step with the words, or a false bit comes before them,
or the next word does begin with one. Without `ffs` nothing may be found, neither in the range nor
right after it. -/
def Searchable (cfg : Config) (s : BitSet) (value : Bool) (start stop : Nat) : Prop :=
  let next := start / 64 * 64 + 64
  if cfg.oneBased then
    value = true ∨ start % 64 = 0 ∨ stop ≤ next ∨
      (∃ i, start ≤ i ∧ i < next ∧ s.bit i = false) ∨ s.bit next = false
  else
    (∀ i, start ≤ i → i < stop → s.bit i ≠ value) ∧
      (start < stop → ¬(stop % 64 ≠ 0 ∧ s.bit stop = value) ∧
        ¬(value = false ∧ start % 64 ≠ 0 ∧ next ≤ stop))

theorem IsFirst.unique {r r' : Option Nat} (h : IsFirst s value start stop r)
    (h' : IsFirst s value start stop r') : r = r' := by
  cases r with
  | none =>
    cases r' with
    | none => rfl
    | some i => exact absurd h'.2.2.1 (h i h'.1 h'.2.1)
  | some i =>
    cases r' with
    | none => exact absurd h.2.2.1 (h' i h.1 h.2.1)
    | some j =>
      obtain ⟨hi, -, hbit, hfirst⟩ := h
      obtain ⟨hj, -, hbit', hfirst'⟩ := h'
      rcases Nat.lt_trichotomy i j with hlt | rfl | hlt
      · exact absurd hbit (hfirst' i hi hlt)
      · rfl
      · exact absurd hbit' (hfirst j hj hlt)

/-- What the search has passed is right up to its end. -/
theorem Hit.isFirst_clip {base k : Nat} (h : Hit s value start stop base k) :
    IsFirst s value start stop (clip stop (base + k)) ↔
      (s.bit (base + k) = value ∨ stop ≤ base + k) := by
  have hle := h.le
  unfold clip
  by_cases hend : base + k < stop
  · rw [if_pos hend]
    constructor
    · exact fun hfirst => .inl hfirst.2.2.1
    · rintro (hfound | hle)
      · exact ⟨by omega, hend, hfound, h.before⟩
      · omega
  · rw [if_neg hend]
    exact ⟨fun _ => .inr (by omega), fun _ i hlow hhigh => h.before i hlow (by omega)⟩

/-- With a function of the library, a search that stops is right unless it stops above the word. -/
theorem Hit.exact_iff {base k : Nat} (h : Hit s value start stop base k) :
    IsFirst s value start stop (clip stop (base + k)) ↔
      (value = true ∨ start % 64 = 0 ∨ stop ≤ start / 64 * 64 + 64 ∨
        (∃ i, start ≤ i ∧ i < start / 64 * 64 + 64 ∧ s.bit i = false) ∨
          s.bit (start / 64 * 64 + 64) = false) := by
  rw [h.isFirst_clip]
  rcases h.found with ⟨hfound, hword⟩ | ⟨rfl, rfl, hsh, hend⟩
  · refine ⟨fun _ => ?_, fun _ => .inl hfound⟩
    cases value with
    | true => exact .inl rfl
    | false =>
      by_cases hbase : base = start
      · subst hbase
        exact .inr (.inr (.inr (.inl ⟨base + k, Nat.le_add_right _ _, by omega, hfound⟩)))
      · exact .inr (.inl ((h.aligned hbase).2.resolve_left Bool.false_ne_true))
  · rw [hend]
    constructor
    · rintro (hfound | hle)
      · exact .inr (.inr (.inr (.inr hfound)))
      · exact .inr (.inr (.inl hle))
    · rintro (htrue | hzero | hle | ⟨i, hlow, hhigh, hbit⟩ | hbit)
      · cases htrue
      · exact absurd hzero hsh
      · exact .inr hle
      · exact absurd hbit (h.before i hlow (by omega))
      · exact .inl hbit

/-- An `or` with a number below 64 is a sum in a multiple of 64. -/
theorem or_eq_add {base d : Nat} (hbase : base % 64 = 0) (hd : d < 64) : base ||| d = base + d := by
  have hor := Nat.shiftLeft_add_eq_or_of_lt (i := 6) (b := d) hd (base / 64)
  rw [Nat.shiftLeft_eq, show base / 64 * 2 ^ 6 = base by omega] at hor
  exact hor.symm

theorem Hit.landing_oneBased {base k : Nat} (h : Hit s value start stop base k)
    (hstop : stop ≤ 2 ^ 64 - 64) (hcfg : cfg.oneBased = true) :
    landing cfg start base k = base + k := by
  have hlt := h.base_lt
  have hk := h.lt
  rw [landing, hcfg, if_pos rfl]
  by_cases hbase : base = start
  · rw [if_pos hbase]
    omega
  · rw [if_neg hbase, or_eq_add (h.aligned hbase).1 hk]

/-- Without a function of the library, the position before. -/
theorem Hit.landing_loop {base k : Nat} (h : Hit s value start stop base k)
    (hstop : stop ≤ 2 ^ 64 - 64) (hcfg : cfg.oneBased = false) (hpos : k ≠ 0) :
    landing cfg start base k = base + (k - 1) := by
  have hlt := h.base_lt
  have hk := h.lt
  rw [landing, hcfg, if_neg Bool.false_ne_true, if_neg hpos]
  by_cases hbase : base = start
  · rw [if_pos hbase]
    omega
  · rw [if_neg hbase, or_eq_add (h.aligned hbase).1 (by omega)]

/-- At the lowest bit, one far behind. -/
theorem Hit.landing_zero {base : Nat} (h : Hit s value start stop base 0)
    (hcfg : cfg.oneBased = false) :
    landing cfg start base 0 ≠ base := by
  have hlt := h.base_lt
  rw [landing, hcfg, if_neg Bool.false_ne_true, if_pos rfl]
  by_cases hbase : base = start
  · rw [if_pos hbase]
    omega
  · have heven := (h.aligned hbase).1
    rw [if_neg hbase]
    intro heq
    have hbit := congrArg (Nat.testBit · 0) heq
    have hbase : base.testBit 0 = false := by
      rw [Nat.testBit_zero]
      simp
      omega
    rw [Nat.testBit_or, hbase] at hbit
    exact absurd hbit (by decide)

theorem IsFirst.of_clip {pos : Nat} (h : IsFirst s value start stop (clip stop pos)) :
    stop ≤ pos ∨ s.bit pos = value ∧ ∀ i, start ≤ i → i < pos → s.bit i ≠ value := by
  unfold clip at h
  by_cases hend : pos < stop
  · rw [if_pos hend] at h
    exact .inr ⟨h.2.2.1, h.2.2.2⟩
  · exact .inl (by omega)

/-- A search without a function of the library is right when it finds nothing. -/
theorem Hit.exact_loop_iff {base k : Nat} (h : Hit s value start stop base k)
    (hstop : stop ≤ 2 ^ 64 - 64) (hcfg : cfg.oneBased = false) :
    IsFirst s value start stop (clip stop (landing cfg start base k)) ↔
      (∀ i, start ≤ i → i < stop → s.bit i ≠ value) ∧
        ¬(stop % 64 ≠ 0 ∧ s.bit stop = value) ∧
        ¬(value = false ∧ start % 64 ≠ 0 ∧ start / 64 * 64 + 64 ≤ stop) := by
  have hle := h.le
  have hlt := h.base_lt
  have hk := h.lt
  by_cases hpos : k = 0
  · -- the bit at the base itself has the value
    subst hpos
    have hfound : s.bit base = value := by
      rcases h.found with ⟨hfound, -⟩ | ⟨-, hbase, -, hend⟩
      · exact hfound
      · omega
    have hne := h.landing_zero hcfg
    constructor
    · intro hfirst
      exfalso
      unfold clip at hfirst
      by_cases hend : landing cfg start base 0 < stop
      · rw [if_pos hend] at hfirst
        rcases Nat.lt_or_gt_of_ne hne with hlow | hhigh
        · exact h.before _ hfirst.1 (by omega) hfirst.2.2.1
        · exact hfirst.2.2.2 base hle hhigh hfound
      · rw [if_neg hend] at hfirst
        exact hfirst base hle hlt hfound
    · exact fun hcond => absurd hfound (hcond.1 base hle hlt)
  · rw [h.landing_loop hstop hcfg hpos]
    have hbefore := h.before
    constructor
    · intro hfirst
      have hout : stop ≤ base + (k - 1) := by
        rcases IsFirst.of_clip hfirst with hout | ⟨hbit, -⟩
        · exact hout
        · exact absurd hbit (hbefore _ (by omega) (by omega))
      refine ⟨fun i hlow hhigh => hbefore i hlow (by omega),
        fun hbit => hbefore stop (by omega) (by omega) hbit.2, ?_⟩
      rintro ⟨rfl, hsh, hnext⟩
      have hbase : base = start := by
        by_contra hne
        rcases (h.aligned hne).2 with hv | hs
        · cases hv
        · exact hsh hs
      rcases h.found with ⟨-, hword⟩ | ⟨-, -, -, hend⟩ <;> omega
    · rintro ⟨hnone, hstopbit, hshift⟩
      have hout : stop ≤ base + (k - 1) := by
        rcases h.found with ⟨hfound, hword⟩ | ⟨hvalue, hbase, hsh, hend⟩
        · have hge : stop ≤ base + k := by
            by_contra hin
            exact hnone _ (by omega) (by omega) hfound
          have hne : stop ≠ base + k := by
            rintro rfl
            exact hstopbit ⟨by omega, hfound⟩
          omega
        · have hnext : ¬start / 64 * 64 + 64 ≤ stop := fun hle =>
            hshift ⟨hvalue, hsh, hle⟩
          omega
      rw [clip, if_neg (by omega)]
      exact hnone

/-- The search for a true bit, with a function of the library. -/
theorem find_true (hcfg : cfg.oneBased = true) (h : s.WF) (start stop : Nat) :
    ∃ r, s.find cfg true start stop = some r ∧ IsFirst s true start (min stop s.size) r := by
  have hstop : min stop s.size ≤ 2 ^ 64 - 64 := by
    have hsize := h.size_le
    have hcap := h.cap_lt
    unfold cap at hsize hcap
    omega
  by_cases hlt : start < min stop s.size
  · rcases find_finds cfg h true hlt with ⟨hfind, hmiss⟩ | ⟨base, k, hhit, hfind⟩
    · exact ⟨none, hfind, fun i hlow hhigh => hmiss.all i hlow (by omega)⟩
    · refine ⟨_, hfind, ?_⟩
      rw [hhit.landing_oneBased hstop hcfg]
      exact hhit.exact_iff.mpr (.inl rfl)
  · refine ⟨none, ?_, fun i hlow hhigh => by omega⟩
    rw [find]
    exact if_neg hlt

/-- The search is exact exactly when it is searchable. -/
theorem find_exact_iff (cfg : Config) {s : BitSet} (h : s.WF) (value : Bool) (start stop : Nat) :
    FindExact cfg s value start stop ↔ Searchable cfg s value start (min stop s.size) := by
  have hsize := h.size_le
  have hcap := h.cap_lt
  have hstop : min stop s.size ≤ 2 ^ 64 - 64 := by
    unfold cap at hsize hcap
    omega
  by_cases hlt : start < min stop s.size
  · rcases find_finds cfg h value hlt with ⟨hfind, hmiss⟩ | ⟨base, k, hhit, hfind⟩
    · have hnone : ∀ i, start ≤ i → i < min stop s.size → s.bit i ≠ value :=
        fun i hlow hhigh => hmiss.all i hlow (by omega)
      refine ⟨fun _ => ?_, fun _ => ⟨none, hfind, hnone⟩⟩
      unfold Searchable
      cases hcfg : cfg.oneBased with
      | true =>
        rw [if_pos rfl]
        exact hmiss.clean.imp id .inl
      | false =>
        rw [if_neg Bool.false_ne_true]
        refine ⟨hnone, fun _ => ⟨fun hbit => hmiss.all _ (by omega) (by omega) hbit.2, ?_⟩⟩
        rintro ⟨rfl, hsh, -⟩
        exact hmiss.clean.elim Bool.false_ne_true hsh
    · have hexact : FindExact cfg s value start stop ↔
          IsFirst s value start (min stop s.size)
            (clip (min stop s.size) (landing cfg start base k)) := by
        unfold FindExact
        rw [hfind]
        exact ⟨fun ⟨r, hr, hfirst⟩ => Option.some.inj hr ▸ hfirst, fun hfirst => ⟨_, rfl, hfirst⟩⟩
      rw [hexact]
      unfold Searchable
      cases hcfg : cfg.oneBased with
      | true => rw [if_pos rfl, hhit.landing_oneBased hstop hcfg, hhit.exact_iff]
      | false =>
        rw [if_neg Bool.false_ne_true, hhit.exact_loop_iff hstop hcfg]
        exact ⟨fun hcond => ⟨hcond.1, fun _ => hcond.2⟩, fun hcond => ⟨hcond.1, hcond.2 hlt⟩⟩
  · have hfind : s.find cfg value start stop = some none := by
      rw [find]
      exact if_neg hlt
    have hnone : ∀ i, start ≤ i → i < min stop s.size → s.bit i ≠ value := by
      intro i hlow hhigh
      omega
    refine ⟨fun _ => ?_, fun _ => ⟨none, hfind, hnone⟩⟩
    unfold Searchable
    cases cfg.oneBased with
    | true =>
      rw [if_pos rfl]
      exact .inr (.inr (.inl (by omega)))
    | false =>
      rw [if_neg Bool.false_ne_true]
      exact ⟨hnone, fun hin => absurd hin hlt⟩

/-- Two words of true bits. -/
def ones : BitSet := ⟨[BitVec.allOnes 64, BitVec.allOnes 64], 128⟩

theorem find_exact_iff_ones : ones.WF ∧
    (FindExact ⟨true, true⟩ ones false 0 128 ↔ Searchable ⟨true, true⟩ ones false 0 128) :=
  ⟨⟨by decide, by decide⟩, find_exact_iff ⟨true, true⟩ ⟨by decide, by decide⟩ false 0 128⟩

/-- The search for a false bit among true ones finds bit 64, which is true. -/
theorem not_findExact_ones : ones.find ⟨true, true⟩ false 1 128 = some (some 64) ∧
    ones.get 64 = some true ∧ ¬FindExact ⟨true, true⟩ ones false 1 128 := by
  have hfind : ones.find ⟨true, true⟩ false 1 128 = some (some 64) := by decide +kernel
  refine ⟨hfind, by decide, ?_⟩
  rintro ⟨r, hr, hfirst⟩
  rw [hfind, Option.some.injEq] at hr
  subst hr
  exact absurd hfirst.2.2.1 (by decide)

end BitSet

end OneJit.Stl
