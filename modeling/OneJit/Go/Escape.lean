import OneJit.Go.Token
import OneJit.Lib.Utf8

/-!
# Unescaping

`Unescape` of `go/strings`. It stops at the last escape sequence: the text after it is lost, unless
there is no escape sequence at all.
-/

namespace OneJit.Go

/-- A character below 128. -/
def byte (c : Char) : UInt8 := UInt8.ofNat c.toNat

namespace Strings

/-- `IndexByte`. -/
def indexByte (str : Bytes) (b : UInt8) : Option Nat := str.findIdx? (· == b)

/-- `hexDigitToInt`. -/
def hexDigitToInt (ch : UInt8) : BitVec 32 :=
  if byte '0' ≤ ch ∧ ch ≤ byte '9' then BitVec.ofNat 32 (ch - byte '0').toNat
  else if byte 'A' ≤ ch ∧ ch ≤ byte 'F' then BitVec.ofNat 32 ((ch - byte 'A').toNat + 10)
  else if byte 'a' ≤ ch ∧ ch ≤ byte 'f' then BitVec.ofNat 32 ((ch - byte 'a').toNat + 10)
  else -1

/-- `octalDigitToInt`. -/
def octalDigitToInt (ch : UInt8) : BitVec 32 :=
  if byte '0' ≤ ch ∧ ch ≤ byte '7' then BitVec.ofNat 32 (ch - byte '0').toNat else -1

/-- The loops of `hexDigitsToInt` and `octalDigitsToInt`. -/
def foldDigits (bits : Nat) (digit : UInt8 → BitVec 32) (str : Bytes) : BitVec 32 :=
  str.foldl (fun n ch => n <<< bits ||| digit ch) 0

/-- `hexDigitsToInt`. -/
def hexDigitsToInt (str : Bytes) (n : Nat) : BitVec 32 :=
  if str.length < n then -1 else foldDigits 4 hexDigitToInt (str.take n)

/-- `octalDigitsToInt`. -/
def octalDigitsToInt (str : Bytes) (n : Nat) (max : Int) : BitVec 32 :=
  if str.length < n then -1
  else
    let oct := foldDigits 3 octalDigitToInt (str.take n)
    if max < oct.toInt then -1 else oct

/-- The escape sequences of one letter. -/
def letters : List (UInt8 × UInt8) :=
  [(byte 'a', 7), (byte 'b', 8), (byte 'f', 12), (byte 'n', 10), (byte 'r', 13), (byte 't', 9),
    (byte 'v', 11), (byte '\\', byte '\\'), (byte '\'', byte '\''), (byte '"', byte '"')]

/-- What the `switch` of `Unescape` finds. -/
structure Found where
  unicode : BitVec 32 := -1
  ch : BitVec 16 := -1
  skip : Nat := 1

/-- The `switch` of `Unescape`, on the text after a backslash. -/
def find (curr : UInt8) (str : Bytes) : Found :=
  match letters.lookup curr with
  | some ch => { ch := BitVec.ofNat 16 ch.toNat }
  | none =>
    if curr = byte 'U' then { unicode := hexDigitsToInt str 8, skip := 9 }
    else if curr = byte 'u' then { unicode := hexDigitsToInt str 4, skip := 5 }
    else if curr = byte 'x' then { ch := (hexDigitsToInt str 2).setWidth 16, skip := 3 }
    else if byte '0' ≤ curr ∧ curr ≤ byte '7' then
      { ch := (octalDigitsToInt (curr :: str) 3 255).setWidth 16, skip := 3 }
    else {}

/-- What `Unescape` then writes. -/
def Found.written (f : Found) : Bytes :=
  if 0 ≤ f.unicode.toInt then Utf8.encodeRune f.unicode.toNat
  else if 0 ≤ f.ch.toInt then [UInt8.ofNat f.ch.toNat]
  else []

/-- The loop of `Unescape`, on the text after a backslash. `none`: a slice out of bounds. -/
def unescapeLoop (b : Bytes) : Bytes → Option Bytes
  | [] => some b
  | curr :: rest =>
    let f := find curr rest
    if (curr :: rest).length < f.skip then none
    else
      let str := (curr :: rest).drop f.skip
      let b := b ++ f.written
      match indexByte str (byte '\\') with
      | some pos => unescapeLoop (b ++ str.take pos) (str.drop (pos + 1))
      | none => some b
termination_by str => str.length
decreasing_by
  simp only [List.length_drop, List.length_cons]
  omega

/-- `Unescape`. -/
def unescape (str : Bytes) : Option Bytes :=
  match indexByte str (byte '\\') with
  | some pos => unescapeLoop (str.take pos) (str.drop (pos + 1))
  | none => some str

/-! ## Parts of a text -/

/-- A part of a text: a byte that stands for itself, or an escape sequence with its value. -/
inductive Part
  | raw (b : UInt8)
  | escape (curr : UInt8) (rest value : Bytes)

namespace Part

def text : Part → Bytes
  | raw b => [b]
  | escape curr rest _ => byte '\\' :: curr :: rest

def value : Part → Bytes
  | raw b => [b]
  | escape _ _ value => value

def isEscape : Part → Bool
  | raw _ => false
  | escape _ _ _ => true

/-- Whatever comes after it, the part is read as its value. -/
def Ok : Part → Prop
  | raw b => b ≠ byte '\\'
  | escape curr rest value => ∀ more, (find curr (rest ++ more)).skip = rest.length + 1 ∧
      (find curr (rest ++ more)).written = value

def texts (ps : List Part) : Bytes := ps.flatMap text

def values (ps : List Part) : Bytes := ps.flatMap value

/-- The values up to the last escape sequence. -/
def kept : List Part → Bytes
  | [] => []
  | raw b :: ps => if ps.any isEscape then b :: kept ps else []
  | escape _ _ value :: ps => value ++ kept ps

end Part

/-- The rest of the text, in which a backslash has not been found yet. -/
def unescapeFrom (b str : Bytes) : Option Bytes :=
  match indexByte str (byte '\\') with
  | some pos => unescapeLoop (b ++ str.take pos) (str.drop (pos + 1))
  | none => some b

theorem indexByte_cons (c b : UInt8) (str : Bytes) :
    indexByte (c :: str) b = if c = b then some 0 else (indexByte str b).map (· + 1) := by
  rw [indexByte, List.findIdx?_cons]
  by_cases hc : c = b
  · simp [hc]
  · simp [hc, indexByte]

theorem indexByte_eq_none {str : Bytes} {b : UInt8} : indexByte str b = none ↔ b ∉ str := by
  rw [indexByte, List.findIdx?_eq_none_iff]
  constructor
  · intro hall hmem
    simpa using hall b hmem
  · rintro hnot c hc
    simpa using fun heq : c = b => hnot (heq ▸ hc)

theorem unescapeFrom_raw {c : UInt8} (hc : c ≠ byte '\\') (b str : Bytes) :
    unescapeFrom b (c :: str) =
      if byte '\\' ∈ str then unescapeFrom (b ++ [c]) str else some b := by
  rw [unescapeFrom, indexByte_cons, if_neg hc, unescapeFrom]
  by_cases hmem : byte '\\' ∈ str
  · obtain ⟨pos, hpos⟩ := Option.ne_none_iff_exists'.mp fun hnone =>
      indexByte_eq_none.mp hnone hmem
    rw [if_pos hmem, hpos, Option.map_some]
    simp only [List.take_succ_cons, List.drop_succ_cons, List.append_assoc, List.singleton_append]
  · rw [if_neg hmem, indexByte_eq_none.mpr hmem]
    rfl

theorem unescapeFrom_escape {curr : UInt8} {rest value : Bytes}
    (h : (Part.escape curr rest value).Ok) (b more : Bytes) :
    unescapeFrom b (byte '\\' :: curr :: (rest ++ more)) = unescapeFrom (b ++ value) more := by
  obtain ⟨hskip, hwritten⟩ := h more
  have hlong : ¬(curr :: (rest ++ more)).length < (find curr (rest ++ more)).skip := by
    rw [hskip, List.length_cons, List.length_append]
    omega
  rw [unescapeFrom, indexByte_cons, if_pos rfl]
  simp only [Nat.zero_add, List.take_zero, List.append_nil, List.drop_succ_cons, List.drop_zero]
  rw [unescapeLoop, if_neg hlong, hskip, List.drop_succ_cons, List.drop_left, hwritten,
    unescapeFrom]

namespace Part

theorem texts_cons (p : Part) (ps : List Part) : texts (p :: ps) = p.text ++ texts ps :=
  List.flatMap_cons

theorem values_cons (p : Part) (ps : List Part) : values (p :: ps) = p.value ++ values ps :=
  List.flatMap_cons

/-- A text has a backslash exactly when it has an escape sequence. -/
theorem mem_texts {ps : List Part} (h : ∀ p ∈ ps, p.Ok) :
    byte '\\' ∈ texts ps ↔ ps.any isEscape = true := by
  induction ps with
  | nil => simp [texts]
  | cons p ps ih =>
    have ih := ih fun q hq => h q (List.mem_cons_of_mem p hq)
    rw [texts_cons, List.mem_append, ih, List.any_cons, Bool.or_eq_true]
    refine or_congr_left' fun _ => ?_
    cases p with
    | raw b =>
      have hb : b ≠ byte '\\' := h (.raw b) List.mem_cons_self
      simp [text, isEscape, hb.symm]
    | escape curr rest value => simp [text, isEscape]

theorem unescapeFrom_texts {ps : List Part} (h : ∀ p ∈ ps, p.Ok) (b : Bytes) :
    unescapeFrom b (texts ps) = some (b ++ kept ps) := by
  induction ps generalizing b with
  | nil => simp [texts, kept, unescapeFrom, indexByte]
  | cons p ps ih =>
    have hrest : ∀ q ∈ ps, q.Ok := fun q hq => h q (List.mem_cons_of_mem p hq)
    have hp := h p List.mem_cons_self
    rw [texts_cons]
    cases p with
    | raw c =>
      rw [text, List.singleton_append, unescapeFrom_raw hp, kept]
      by_cases hany : ps.any isEscape = true
      · rw [if_pos ((mem_texts hrest).mpr hany), if_pos hany, ih hrest, List.append_assoc,
          List.singleton_append]
      · rw [if_neg (fun hmem => hany ((mem_texts hrest).mp hmem)), if_neg hany, List.append_nil]
    | escape curr rest value =>
      rw [text, List.cons_append, List.cons_append, unescapeFrom_escape hp, ih hrest, kept,
        List.append_assoc]

/-- What `Unescape` makes of the parts. -/
theorem unescape_texts {ps : List Part} (h : ∀ p ∈ ps, p.Ok) :
    unescape (texts ps) = some (if ps.any isEscape then kept ps else texts ps) := by
  by_cases hany : ps.any isEscape = true
  · have hfrom := unescapeFrom_texts h []
    have hmem := (mem_texts h).mpr hany
    obtain ⟨pos, hpos⟩ := Option.ne_none_iff_exists'.mp fun hnone =>
      indexByte_eq_none.mp hnone hmem
    rw [unescapeFrom, hpos] at hfrom
    rw [if_pos hany, unescape, hpos]
    exact hfrom
  · have hnone := indexByte_eq_none.mpr fun hmem => hany ((mem_texts h).mp hmem)
    rw [if_neg hany, unescape, hnone]

theorem texts_of_no_escape {ps : List Part} (h : ps.any isEscape = false) :
    texts ps = values ps := by
  induction ps with
  | nil => rfl
  | cons p ps ih =>
    rw [List.any_cons, Bool.or_eq_false_iff] at h
    rw [texts_cons, values_cons, ih h.2]
    cases p with
    | raw b => rfl
    | escape curr rest value => exact absurd h.1 (by simp [isEscape])

/-- Without an escape sequence nothing is kept. -/
theorem kept_of_no_escape {ps : List Part} (h : ps.any isEscape = false) : kept ps = [] := by
  cases ps with
  | nil => rfl
  | cons p ps =>
    rw [List.any_cons, Bool.or_eq_false_iff] at h
    cases p with
    | raw b =>
      rw [kept, h.2]
      rfl
    | escape curr rest value => exact absurd h.1 (by simp [isEscape])

/-- Nothing is lost when the last part is an escape sequence. -/
theorem kept_eq_iff {ps : List Part} :
    kept ps = values ps ↔ ∀ p ∈ ps.getLast?, p.isEscape = true := by
  induction ps with
  | nil => simp [kept, values]
  | cons p ps ih =>
    obtain _ | ⟨q, qs⟩ := ps
    · cases p with
      | raw b => simp [kept, values, value, isEscape]
      | escape curr rest value => simp [kept, values, Part.value, isEscape]
    · have hlast : (p :: q :: qs).getLast? = (q :: qs).getLast? := List.getLast?_cons_cons
      rw [hlast, ← ih, values_cons]
      cases p with
      | raw b =>
        rw [kept, value, List.singleton_append]
        by_cases hany : (q :: qs).any isEscape = true
        · rw [if_pos hany]
          exact ⟨fun heq => (List.cons.inj heq).2, fun heq => by rw [heq]⟩
        · rw [if_neg hany]
          have hnone : (q :: qs).any isEscape = false := by simpa using hany
          refine ⟨nofun, fun heq => ?_⟩
          rw [kept_of_no_escape hnone, ← texts_of_no_escape hnone, texts_cons] at heq
          cases q <;> simp [text] at heq
      | escape curr rest value =>
        rw [kept]
        exact List.append_right_inj _

/-- `Unescape` gives the values of the parts exactly when there is no escape sequence or the last
part is one. -/
theorem unescape_eq_values_iff {ps : List Part} (h : ∀ p ∈ ps, p.Ok) :
    unescape (texts ps) = some (values ps) ↔
      ps.any isEscape = false ∨ ∀ p ∈ ps.getLast?, p.isEscape = true := by
  rw [unescape_texts h, Option.some.injEq]
  by_cases hany : ps.any isEscape = true
  · rw [if_pos hany, kept_eq_iff]
    exact ⟨.inr, fun hcase => hcase.resolve_left (by rw [hany]; decide)⟩
  · have hnone : ps.any isEscape = false := by simpa using hany
    rw [if_neg hany]
    exact ⟨fun _ => .inl hnone, fun _ => texts_of_no_escape hnone⟩

end Part

end Strings

end OneJit.Go
