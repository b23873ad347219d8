import Mathlib.Data.Bool.AllAny
import Mathlib.Data.Nat.ModEq
import Mathlib.Tactic.Ring
import OneJit.Go.Escape

/-!
# Escaping

`Escape` of `go/strings` writes a text of escape sequences and printable characters, from which
`Unescape` gets the bytes back when the last of them was escaped, or none was.
-/

namespace OneJit.Go.Strings

/-- The bytes that are escaped by one letter. -/
def shorts : List (UInt8 × UInt8) :=
  [(7, byte 'a'), (8, byte 'b'), (12, byte 'f'), (10, byte 'n'), (13, byte 'r'), (9, byte 't'),
    (11, byte 'v'), (byte '\\', byte '\\'), (byte '"', byte '"')]

/-- `"0123456789abcdef"`. -/
def hexDigit (n : Nat) : UInt8 :=
  (Token.bytes ['0', '1', '2', '3', '4', '5', '6', '7', '8', '9', 'a', 'b', 'c', 'd', 'e',
    'f']).getD n 0

/-- The digits that `writeHexEscape` writes. -/
def hexDigits : Nat → Nat → Bytes
  | 0, _ => []
  | len + 1, number => hexDigit (number >>> (4 * len) % 16) :: hexDigits len number

/-- `writeHexEscape`. -/
def writeHexEscape (letter : Char) (len number : Nat) : Bytes :=
  byte '\\' :: byte letter :: hexDigits len number

/-- What a round of `WriteQuotedString` writes, and how many bytes it consumes. -/
def piece (ch : UInt8) (str : Bytes) : Bytes × Nat :=
  let consumed := 1
  let one := if ch < byte ' ' ∨ byte '~' < ch then writeHexEscape 'x' 2 ch.toNat else [ch]
  match shorts.lookup ch with
  | some letter => ([byte '\\', letter], consumed)
  | none =>
    if 0x80 ≤ ch then
      let r := Utf8.decodeRune (ch :: str)
      if r.1 = Utf8.runeError ∧ consumed ≤ 1 then (one, consumed)
      else if r.1 ≤ 0xFFFF then (writeHexEscape 'u' 4 r.1, r.2)
      else (writeHexEscape 'U' 8 r.1, r.2)
    else (one, consumed)

/-- `WriteQuotedString`. A round consumes at least one byte. -/
def writeQuotedString : Bytes → Bytes
  | [] => []
  | ch :: str => (piece ch str).1 ++ writeQuotedString (str.drop ((piece ch str).2 - 1))
termination_by str => str.length
decreasing_by
  simp only [List.length_drop, List.length_cons]
  omega

/-- `Escape`. -/
def escape (str : Bytes) : Bytes := writeQuotedString str

/-- A printable ASCII character. -/
def printable (b : UInt8) : Bool := 0x20 ≤ b && b ≤ 0x7E

/-- A character that is written as it is. -/
def plain (b : UInt8) : Bool := printable b && b != byte '"' && b != byte '\\'

/-- Printable characters, where each quote and each backslash is the second character of an escape
sequence, unless it is the backslash that begins one. -/
inductive Quoted : Bytes → Prop
  | nil : Quoted []
  | plain {b : UInt8} {str : Bytes} (h : plain b = true) (hstr : Quoted str) : Quoted (b :: str)
  | escape {b : UInt8} {str : Bytes} (h : printable b = true) (hstr : Quoted str) :
      Quoted (byte '\\' :: b :: str)

theorem Quoted.append {str more : Bytes} (h : Quoted str) (hmore : Quoted more) :
    Quoted (str ++ more) := by
  induction h with
  | nil => exact hmore
  | plain h _ ih => exact .plain h ih
  | escape h _ ih => exact .escape h ih

theorem Quoted.printable {str : Bytes} (h : Quoted str) : ∀ b ∈ str, printable b = true := by
  induction h with
  | nil => exact fun _ hb => absurd hb List.not_mem_nil
  | plain h _ ih =>
    refine List.forall_mem_cons.mpr ⟨?_, ih⟩
    simp only [Strings.plain, Bool.and_eq_true] at h
    exact h.1.1
  | escape h _ ih => exact List.forall_mem_cons.mpr ⟨by decide, List.forall_mem_cons.mpr ⟨h, ih⟩⟩

/-! ## Hexadecimal digits -/

theorem plain_hexDigit {n : Nat} (h : n < 16) : plain (hexDigit n) = true := by
  have hall : ∀ n : Fin 16, plain (hexDigit n) = true := by decide
  exact hall ⟨n, h⟩

theorem hexDigitToInt_hexDigit {n : Nat} (h : n < 16) :
    hexDigitToInt (hexDigit n) = BitVec.ofNat 32 n := by
  have hall : ∀ n : Fin 16, hexDigitToInt (hexDigit n) = BitVec.ofNat 32 n := by decide
  exact hall ⟨n, h⟩

theorem length_hexDigits (len number : Nat) : (hexDigits len number).length = len := by
  induction len with
  | zero => rfl
  | succ len ih => rw [hexDigits, List.length_cons, ih]

theorem quoted_hexDigits (len number : Nat) : Quoted (hexDigits len number) := by
  induction len with
  | zero => exact .nil
  | succ len ih => exact .plain (plain_hexDigit (Nat.mod_lt _ (by decide))) ih

/-- One more digit of `bits` bits. -/
theorem shift_or {bits a d : Nat} (hbits : bits ≤ 32) (hd : d < 2 ^ bits) :
    BitVec.ofNat 32 a <<< bits ||| BitVec.ofNat 32 d = BitVec.ofNat 32 (a * 2 ^ bits + d) := by
  have hpow : 2 ^ bits * 2 ^ (32 - bits) = 2 ^ 32 := by
    rw [← Nat.pow_add, Nat.add_sub_cancel' hbits]
  have hle : 2 ^ bits ≤ 2 ^ 32 := Nat.pow_le_pow_right (by decide) hbits
  have hmul : a * 2 ^ bits % 2 ^ 32 = a % 2 ^ (32 - bits) * 2 ^ bits := by
    rw [← hpow, Nat.mul_comm a, Nat.mul_mod_mul_left, Nat.mul_comm]
  have hmod : a % 2 ^ 32 * 2 ^ bits % 2 ^ 32 = a % 2 ^ (32 - bits) * 2 ^ bits := by
    rw [Nat.mod_mul_mod, hmul]
  have hlt : a % 2 ^ (32 - bits) * 2 ^ bits + d < 2 ^ 32 := by
    have hrem : a % 2 ^ (32 - bits) + 1 ≤ 2 ^ (32 - bits) := Nat.mod_lt _ (Nat.two_pow_pos _)
    have hle := Nat.mul_le_mul_right (2 ^ bits) hrem
    rw [Nat.succ_mul, Nat.mul_comm (2 ^ (32 - bits)), hpow] at hle
    omega
  have hsum : (a * 2 ^ bits + d) % 2 ^ 32 = a % 2 ^ (32 - bits) * 2 ^ bits + d := by
    rw [← Nat.mod_add_mod, hmul, Nat.mod_eq_of_lt hlt]
  apply BitVec.eq_of_toNat_eq
  rw [BitVec.toNat_or, BitVec.toNat_shiftLeft, BitVec.toNat_ofNat, BitVec.toNat_ofNat,
    BitVec.toNat_ofNat, Nat.shiftLeft_eq, hmod, hsum, Nat.mod_eq_of_lt (Nat.lt_of_lt_of_le hd hle),
    ← Nat.shiftLeft_eq, Nat.shiftLeft_add_eq_or_of_lt hd]

/-- The digits that are written are read as the number. -/
theorem foldl_hexDigits (len number a : Nat) :
    (hexDigits len number).foldl (fun (n : BitVec 32) ch => n <<< 4 ||| hexDigitToInt ch) (BitVec.ofNat 32 a) =
      BitVec.ofNat 32 (a * 16 ^ len + number % 16 ^ len) := by
  induction len generalizing a with
  | zero => simp [hexDigits, Nat.mod_one]
  | succ len ih =>
    have hdigit : number >>> (4 * len) % 16 < 2 ^ 4 := Nat.mod_lt _ (by decide)
    have hshift : number >>> (4 * len) = number / 16 ^ len := by
      rw [Nat.shiftRight_eq_div_pow, Nat.pow_mul]
    have hsplit : number % 16 ^ (len + 1) = number % 16 ^ len + 16 ^ len * (number / 16 ^ len % 16) :=
      Nat.mod_pow_succ
    rw [hexDigits, List.foldl_cons, hexDigitToInt_hexDigit hdigit, shift_or (by decide) hdigit, ih,
      hsplit, hshift]
    congr 1
    ring

/-- The digits are read back, whatever comes after them. -/
theorem hexDigitsToInt_hexDigits (len number : Nat) (more : Bytes) :
    hexDigitsToInt (hexDigits len number ++ more) len = BitVec.ofNat 32 (number % 16 ^ len) := by
  have hlen : ¬(hexDigits len number ++ more).length < len := by
    rw [List.length_append, length_hexDigits]
    omega
  have htake : (hexDigits len number ++ more).take len = hexDigits len number :=
    List.take_left' (length_hexDigits len number)
  have hfold := foldl_hexDigits len number 0
  rw [Nat.zero_mul, Nat.zero_add] at hfold
  rw [hexDigitsToInt, if_neg hlen, htake]
  exact hfold

/-! ## The parts that are written -/

/-- Digits of a rune are an escape sequence of it. -/
theorem ok_rune {letter : Char} {digits : Bytes} {r : Nat}
    (hletter : (letter = 'u' ∧ digits.length = 4) ∨ (letter = 'U' ∧ digits.length = 8))
    (hdigits : ∀ more, hexDigitsToInt (digits ++ more) digits.length = BitVec.ofNat 32 r)
    (hlt : r < 2 ^ 31) : (Part.escape (byte letter) digits (Utf8.encodeRune r)).Ok := by
  intro more
  have hfind : find (byte letter) (digits ++ more) =
      { unicode := BitVec.ofNat 32 r, skip := digits.length + 1 } := by
    have hread := hdigits more
    rcases hletter with ⟨rfl, hlen⟩ | ⟨rfl, hlen⟩
    · have hnone : letters.lookup (byte 'u') = none := by decide
      rw [hlen] at hread
      rw [find, hnone, hlen]
      dsimp only
      rw [if_neg (by decide), if_pos rfl, hread]
    · have hnone : letters.lookup (byte 'U') = none := by decide
      rw [hlen] at hread
      rw [find, hnone, hlen]
      dsimp only
      rw [if_pos rfl, hread]
  have hnat : (BitVec.ofNat 32 r).toNat = r := by
    rw [BitVec.toNat_ofNat, Nat.mod_eq_of_lt (by omega)]
  have hpos : 0 ≤ (BitVec.ofNat 32 r).toInt := by
    rw [BitVec.toInt_eq_toNat_of_lt (by rw [hnat]; omega)]
    exact Int.natCast_nonneg _
  rw [hfind]
  refine ⟨rfl, ?_⟩
  rw [Found.written, if_pos hpos, hnat]

/-- A byte is written where no rune was found. -/
theorem written_byte {f : Found} {b : UInt8} (hunicode : f.unicode = -1)
    (hch : f.ch = BitVec.ofNat 16 b.toNat) : f.written = [b] := by
  have hlt : b.toNat < 256 := b.toNat_lt
  have hnat : (BitVec.ofNat 16 b.toNat).toNat = b.toNat := by
    rw [BitVec.toNat_ofNat]
    omega
  have hpos : 0 ≤ (BitVec.ofNat 16 b.toNat).toInt := by
    rw [BitVec.toInt_eq_toNat_of_lt (by rw [hnat]; omega)]
    exact Int.natCast_nonneg _
  rw [Found.written, hunicode, if_neg (by decide), hch, if_pos hpos, hnat, UInt8.ofNat_toNat]

theorem setWidth_byte (b : UInt8) :
    (BitVec.ofNat 32 b.toNat).setWidth 16 = BitVec.ofNat 16 b.toNat := by
  have hlt : b.toNat < 256 := b.toNat_lt
  apply BitVec.eq_of_toNat_eq
  rw [BitVec.toNat_setWidth, BitVec.toNat_ofNat, BitVec.toNat_ofNat]
  omega

/-- Two digits of a byte are an escape sequence of it. -/
theorem ok_byte {digits : Bytes} {b : UInt8} (hlen : digits.length = 2)
    (hdigits : ∀ more, hexDigitsToInt (digits ++ more) 2 = BitVec.ofNat 32 b.toNat) :
    (Part.escape (byte 'x') digits [b]).Ok := by
  intro more
  have hnone : letters.lookup (byte 'x') = none := by decide
  have hfind : find (byte 'x') (digits ++ more) =
      { ch := (BitVec.ofNat 32 b.toNat).setWidth 16, skip := 3 } := by
    rw [find, hnone]
    dsimp only
    rw [if_neg (by decide), if_neg (by decide), if_pos rfl, hdigits]
  rw [hfind, hlen]
  exact ⟨rfl, written_byte rfl (setWidth_byte b)⟩

/-- An escape sequence of one letter. -/
theorem ok_letter {letter b : UInt8} (h : letters.lookup letter = some b) :
    (Part.escape letter [] [b]).Ok := by
  intro more
  have hfind : find letter more = { ch := BitVec.ofNat 16 b.toNat } := by rw [find, h]
  rw [List.nil_append, hfind]
  exact ⟨rfl, written_byte rfl rfl⟩

/-- The escape sequence that is written for a rune. -/
theorem ok_hexDigits_rune {letter : Char} {len r : Nat}
    (hletter : (letter = 'u' ∧ len = 4) ∨ (letter = 'U' ∧ len = 8)) (hr : r < 16 ^ len)
    (hlt : r < 2 ^ 31) :
    (Part.escape (byte letter) (hexDigits len r) (Utf8.encodeRune r)).Ok := by
  have hlen := length_hexDigits len r
  refine ok_rune (by rwa [hlen]) (fun more => ?_) hlt
  rw [hlen, hexDigitsToInt_hexDigits, Nat.mod_eq_of_lt hr]

/-- The escape sequence that is written for a byte. -/
theorem ok_hexDigits_byte (b : UInt8) :
    (Part.escape (byte 'x') (hexDigits 2 b.toNat) [b]).Ok := by
  refine ok_byte (length_hexDigits 2 _) fun more => ?_
  rw [hexDigitsToInt_hexDigits]
  exact congrArg _ (Nat.mod_eq_of_lt b.toNat_lt)

/-- A part whose value is not empty, and escaped as a whole or plain. -/
structure Uniform (p : Part) : Prop where
  ok : p.Ok
  quoted : Quoted p.text
  ne_nil : p.value ≠ []
  plain : ∀ b ∈ p.value, plain b = !p.isEscape

/-- Bytes that are not between a space and a tilde are not plain. -/
theorem not_plain_of_range {b : UInt8} (h : b < byte ' ' ∨ byte '~' < b) : plain b = false := by
  have hspace : (byte ' ').toNat = 0x20 := by decide
  have htilde : (byte '~').toNat = 0x7E := by decide
  have hno : printable b = false := by
    rw [UInt8.lt_iff_toNat_lt, UInt8.lt_iff_toNat_lt, hspace, htilde] at h
    rw [printable, Bool.and_eq_false_iff, decide_eq_false_iff_not, decide_eq_false_iff_not,
      UInt8.le_iff_toNat_le, UInt8.le_iff_toNat_le]
    change ¬0x20 ≤ b.toNat ∨ ¬b.toNat ≤ 0x7E
    omega
  rw [plain, hno]
  rfl

theorem quoted_writeHexEscape {letter : Char} (h : printable (byte letter) = true)
    (len number : Nat) : Quoted (writeHexEscape letter len number) :=
  .escape h (quoted_hexDigits len number)

/-- A byte that is escaped by one letter. -/
theorem uniform_short {ch letter : UInt8} (h : shorts.lookup ch = some letter) :
    Uniform (.escape letter [] [ch]) := by
  have hmem : (ch, letter) ∈ shorts := by
    obtain ⟨before, after, heq, -⟩ := List.lookup_eq_some_iff.mp h
    rw [heq]
    exact List.mem_append_right _ List.mem_cons_self
  have hall : ∀ q ∈ shorts, letters.lookup q.2 = some q.1 ∧ printable q.2 = true ∧
      plain q.1 = false := List.all_iff_forall_prop.mp (by decide)
  obtain ⟨hlookup, hprint, hplain⟩ := hall _ hmem
  refine ⟨ok_letter hlookup, .escape hprint .nil, List.cons_ne_nil _ _, fun b hb => ?_⟩
  rw [List.mem_singleton.mp hb]
  exact hplain

/-- A byte that is written alone: as it is, or by its digits. -/
theorem uniform_one {ch : UInt8} (h : shorts.lookup ch = none) : ∃ p, Uniform p ∧ p.text =
    (if ch < byte ' ' ∨ byte '~' < ch then writeHexEscape 'x' 2 ch.toNat else [ch]) ∧
      p.value = [ch] := by
  by_cases hrange : ch < byte ' ' ∨ byte '~' < ch
  · rw [if_pos hrange]
    refine ⟨.escape (byte 'x') (hexDigits 2 ch.toNat) [ch], ⟨ok_hexDigits_byte ch,
      quoted_writeHexEscape (by decide) 2 ch.toNat, List.cons_ne_nil _ _, fun b hb => ?_⟩, rfl, rfl⟩
    rw [List.mem_singleton.mp hb]
    exact not_plain_of_range hrange
  · rw [if_neg hrange]
    have hquote : ch ≠ byte '"' := by
      rintro rfl
      exact absurd h (by decide)
    have hslash : ch ≠ byte '\\' := by
      rintro rfl
      exact absurd h (by decide)
    have hplain : plain ch = true := by
      rw [not_or, UInt8.lt_iff_toNat_lt, UInt8.lt_iff_toNat_lt, Nat.not_lt, Nat.not_lt] at hrange
      simp only [plain, printable, Bool.and_eq_true, decide_eq_true_eq, bne_iff_ne, ne_eq,
        UInt8.le_iff_toNat_le]
      exact ⟨⟨hrange, hquote⟩, hslash⟩
    refine ⟨.raw ch, ⟨hslash, .plain hplain .nil, List.cons_ne_nil _ _, fun b hb => ?_⟩, rfl, rfl⟩
    rw [List.mem_singleton.mp hb]
    exact hplain

/-- A rune that is escaped by its digits. -/
theorem uniform_rune {ch : UInt8} {str : Bytes} {letter : Char} {len : Nat} (hch : 0x80 ≤ ch)
    (hletter : (letter = 'u' ∧ len = 4) ∨ (letter = 'U' ∧ len = 8))
    (hr : (Utf8.decodeRune (ch :: str)).1 < 16 ^ len)
    (hne : (Utf8.decodeRune (ch :: str)).1 ≠ Utf8.runeError) :
    Uniform (.escape (byte letter) (hexDigits len (Utf8.decodeRune (ch :: str)).1)
      ((ch :: str).take (Utf8.decodeRune (ch :: str)).2)) := by
  have hencode : Utf8.encodeRune (Utf8.decodeRune (ch :: str)).1 =
      (ch :: str).take (Utf8.decodeRune (ch :: str)).2 :=
    Utf8.encodeRune_decodeRune fun herror => hne (congrArg Prod.fst herror)
  have hlt := Utf8.decodeRune_lt (ch :: str)
  have hok := ok_hexDigits_rune hletter hr (by omega)
  rw [hencode] at hok
  refine ⟨hok, quoted_writeHexEscape ?_ _ _, ?_, fun b hb => ?_⟩
  · rcases hletter with ⟨rfl, -⟩ | ⟨rfl, -⟩ <;> decide
  · have hpos := Utf8.decodeRune_pos (List.cons_ne_nil ch str)
    obtain ⟨k, hk⟩ := Nat.exists_eq_succ_of_ne_zero (Nat.ne_of_gt hpos)
    rw [Part.value, hk, List.take_succ_cons]
    exact List.cons_ne_nil _ _
  · have hhigh : 0x80 ≤ b.toNat := by
      rcases Utf8.decodeRune_high hb with rfl | hhigh
      · exact UInt8.le_iff_toNat_le.mp hch
      · exact hhigh
    have htilde : (byte '~').toNat = 0x7E := by decide
    refine not_plain_of_range (.inr ?_)
    rw [UInt8.lt_iff_toNat_lt, htilde]
    omega

/-- A round writes one part. -/
theorem piece_spec (ch : UInt8) (str : Bytes) : ∃ p, Uniform p ∧ p.text = (piece ch str).1 ∧
    p.value = (ch :: str).take (piece ch str).2 ∧ 0 < (piece ch str).2 := by
  unfold piece
  dsimp only
  cases hshort : shorts.lookup ch with
  | some letter => exact ⟨_, uniform_short hshort, rfl, rfl, Nat.one_pos⟩
  | none =>
    obtain ⟨one, hone, htext, hvalue⟩ := uniform_one hshort
    dsimp only
    by_cases hch : 0x80 ≤ ch
    · rw [if_pos hch]
      by_cases herror : (Utf8.decodeRune (ch :: str)).1 = Utf8.runeError
      · rw [if_pos ⟨herror, Nat.le_refl 1⟩]
        exact ⟨one, hone, htext, hvalue, Nat.one_pos⟩
      · have hpos := Utf8.decodeRune_pos (List.cons_ne_nil ch str)
        have hlt := Utf8.decodeRune_lt (ch :: str)
        rw [if_neg (fun hand => herror hand.1)]
        by_cases hsmall : (Utf8.decodeRune (ch :: str)).1 ≤ 0xFFFF
        · rw [if_pos hsmall]
          exact ⟨_, uniform_rune hch (.inl ⟨rfl, rfl⟩) (by omega) herror, rfl, rfl, hpos⟩
        · rw [if_neg hsmall]
          exact ⟨_, uniform_rune hch (.inr ⟨rfl, rfl⟩) (by omega) herror, rfl, rfl, hpos⟩
    · rw [if_neg hch]
      exact ⟨one, hone, htext, hvalue, Nat.one_pos⟩

/-- What is written are parts with the bytes as their values. -/
theorem escape_parts (str : Bytes) : ∃ ps : List Part, (∀ p ∈ ps, Uniform p) ∧
    Part.texts ps = escape str ∧ Part.values ps = str := by
  induction hn : str.length using Nat.strongRecOn generalizing str with
  | ind n ih =>
    cases str with
    | nil => exact ⟨[], fun _ hp => absurd hp List.not_mem_nil, by simp [Part.texts, escape, writeQuotedString], rfl⟩
    | cons ch str =>
      obtain ⟨p, hp, htext, hvalue, hpos⟩ := piece_spec ch str
      have hshort : (str.drop ((piece ch str).2 - 1)).length < n := by
        rw [← hn, List.length_drop, List.length_cons]
        omega
      obtain ⟨ps, hps, htexts, hvalues⟩ := ih _ hshort (str.drop ((piece ch str).2 - 1)) rfl
      refine ⟨p :: ps, List.forall_mem_cons.mpr ⟨hp, hps⟩, ?_, ?_⟩
      · rw [Part.texts_cons, htexts, htext, escape, escape, writeQuotedString]
      · have hdrop : str.drop ((piece ch str).2 - 1) = (ch :: str).drop (piece ch str).2 := by
          obtain ⟨k, hk⟩ := Nat.exists_eq_succ_of_ne_zero (Nat.ne_of_gt hpos)
          rw [hk, Nat.succ_sub_one, List.drop_succ_cons]
        rw [Part.values_cons, hvalues, hvalue, hdrop, List.take_append_drop]

/-! ## The round trip -/

theorem quoted_texts {ps : List Part} (h : ∀ p ∈ ps, Uniform p) : Quoted (Part.texts ps) := by
  induction ps with
  | nil => exact .nil
  | cons p ps ih =>
    obtain ⟨hp, hps⟩ := List.forall_mem_cons.mp h
    rw [Part.texts_cons]
    exact hp.quoted.append (ih hps)

/-- There is an escape sequence exactly when a byte is not plain. -/
theorem any_isEscape_iff {ps : List Part} (h : ∀ p ∈ ps, Uniform p) :
    ps.any Part.isEscape = false ↔ ∀ b ∈ Part.values ps, plain b = true := by
  induction ps with
  | nil => simp [Part.values]
  | cons p ps ih =>
    obtain ⟨hp, hps⟩ := List.forall_mem_cons.mp h
    rw [List.any_cons, Bool.or_eq_false_iff, ih hps, Part.values_cons, List.forall_mem_append]
    refine and_congr_left' ?_
    constructor
    · intro hraw b hb
      rw [hp.plain b hb, hraw]
      rfl
    · intro hall
      obtain ⟨b, hb⟩ := List.exists_mem_of_ne_nil p.value hp.ne_nil
      simpa [hp.plain b hb] using hall b hb

/-- The last part is an escape sequence exactly when the last byte is not plain. -/
theorem getLast_isEscape_iff {ps : List Part} (h : ∀ p ∈ ps, Uniform p) :
    (∀ p ∈ ps.getLast?, p.isEscape = true) ↔
      ∀ b ∈ (Part.values ps).getLast?, plain b = false := by
  rcases List.eq_nil_or_concat ps with rfl | ⟨before, p, rfl⟩
  · simp [Part.values]
  · have hp : Uniform p := h p (by simp)
    have hvalues : Part.values (before ++ [p]) = Part.values before ++ p.value := by
      simp [Part.values]
    obtain ⟨b, hb⟩ : ∃ b, p.value.getLast? = some b :=
      Option.ne_none_iff_exists'.mp fun hnone => hp.ne_nil (List.getLast?_eq_none_iff.mp hnone)
    have hplain := hp.plain b (List.mem_of_getLast? hb)
    have hlast : (Part.values before ++ p.value).getLast? = some b := by
      rw [List.getLast?_append, hb]
      rfl
    rw [List.concat_eq_append, hvalues, hlast, List.getLast?_concat]
    simp [hplain]

/-- `Escape` writes an escaped text, and `Unescape` gets the bytes back from it exactly when all of
them are plain or the last one is not. -/
theorem unescape_escape_iff (str : Bytes) : (∀ b ∈ escape str, printable b = true) ∧
    Quoted (escape str) ∧ (unescape (escape str) = some str ↔
      (∀ b ∈ str, plain b = true) ∨ ∀ b ∈ str.getLast?, plain b = false) := by
  obtain ⟨ps, hps, htexts, hvalues⟩ := escape_parts str
  have hquoted := quoted_texts hps
  have hiff := Part.unescape_eq_values_iff fun p hp => (hps p hp).ok
  rw [any_isEscape_iff hps, getLast_isEscape_iff hps] at hiff
  rw [htexts] at hquoted hiff
  rw [hvalues] at hiff
  exact ⟨hquoted.printable, hquoted, hiff⟩

/-- The text after the last escape sequence is lost. -/
theorem unescape_escape_newline : escape [10, byte 'a'] = [byte '\\', byte 'n', byte 'a'] ∧
    unescape (escape [10, byte 'a']) = some [10] ∧ ([10] : Bytes) ≠ [10, byte 'a'] := by
  have hescape : escape [10, byte 'a'] = [byte '\\', byte 'n', byte 'a'] := by
    have hfirst : piece 10 [byte 'a'] = ([byte '\\', byte 'n'], 1) := by decide
    have hsecond : piece (byte 'a') [] = ([byte 'a'], 1) := by decide
    rw [escape, writeQuotedString, hfirst, Nat.sub_self, List.drop_zero, writeQuotedString, hsecond,
      Nat.sub_self, List.drop_zero, writeQuotedString]
    rfl
  refine ⟨hescape, ?_, by decide⟩
  have hslash : indexByte [byte '\\', byte 'n', byte 'a'] (byte '\\') = some 0 := by decide
  have hrest : indexByte ([byte 'n', byte 'a'].drop 1) (byte '\\') = none := by decide
  have hfind : (find (byte 'n') [byte 'a']).skip = 1 ∧
      (find (byte 'n') [byte 'a']).written = [10] := by decide
  rw [hescape, unescape, hslash]
  change unescapeLoop [] [byte 'n', byte 'a'] = some [10]
  rw [unescapeLoop, hfind.1, hfind.2, if_neg (by decide)]
  dsimp only
  rw [hrest]
  rfl

end OneJit.Go.Strings
