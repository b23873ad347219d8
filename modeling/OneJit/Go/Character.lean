import OneJit.Go.Quote
import OneJit.Go.Scanner

/-!
# Characters of literals

What stands between the quotes of a string literal or of a rune literal by the grammar of Go, what it
means, and what `Unescape` makes of it.
-/

namespace OneJit.Go

/-- The number that digits of so many bits are. -/
def digitsValue (bits : Nat) (digits : Bytes) : Nat :=
  digits.foldl (fun x d => x * 2 ^ bits + hexDigitToInt d.toNat) 0

/-- The quote of a literal, as a byte. -/
def StrKind.quote : StrKind → UInt8
  | str => byte '"'
  | chr => byte '\''

/-- A character of a literal, with the digits or the letter of its escape. -/
inductive Character
  | unicodeChar (r : Nat)
  | escapedChar (letter : UInt8)
  | octalByte (digits : Bytes)
  | hexByte (digits : Bytes)
  | littleU (digits : Bytes)
  | bigU (digits : Bytes)
  deriving DecidableEq

namespace Character

/-- What a letter means behind a backslash. -/
def escapedByte (letter : UInt8) : UInt8 :=
  ([(byte 'a', 7), (byte 'b', 8), (byte 'f', 12), (byte 'n', 10), (byte 'r', 13), (byte 't', 9),
    (byte 'v', 11)].lookup letter).getD letter

def text : Character → Bytes
  | unicodeChar r => Utf8.encodeRune r
  | escapedChar letter => [byte '\\', letter]
  | octalByte digits => byte '\\' :: digits
  | hexByte digits => byte '\\' :: byte 'x' :: digits
  | littleU digits => byte '\\' :: byte 'u' :: digits
  | bigU digits => byte '\\' :: byte 'U' :: digits

/-- The bytes that the character stands for. -/
def value : Character → Bytes
  | unicodeChar r => Utf8.encodeRune r
  | escapedChar letter => [escapedByte letter]
  | octalByte digits => [UInt8.ofNat (digitsValue 3 digits)]
  | hexByte digits => [UInt8.ofNat (digitsValue 4 digits)]
  | littleU digits | bigU digits => Utf8.encodeRune (digitsValue 4 digits)

def isEscape : Character → Bool
  | unicodeChar _ => false
  | _ => true

/-- So many digits. -/
def Digits (isDigit : Rune → Bool) (n : Nat) (digits : Bytes) : Prop :=
  digits.length = n ∧ ∀ d ∈ digits, isDigit d.toNat = true

instance (isDigit : Rune → Bool) (n : Nat) (digits : Bytes) : Decidable (Digits isDigit n digits) :=
  inferInstanceAs (Decidable (_ ∧ _))

/-- The character may stand in a literal of this kind. -/
def Valid (kind : StrKind) : Character → Prop
  | unicodeChar r => Utf8.validRune r = true ∧ (r : Rune) ≠ rune '\n' ∧ (r : Rune) ≠ rune '\\' ∧
      (r : Rune) ≠ kind.delim
  | escapedChar letter =>
      letter ∈ Token.bytes ['a', 'b', 'f', 'n', 'r', 't', 'v', '\\'] ∨ letter = kind.quote
  | octalByte digits => Digits isOctalDigit 3 digits ∧ digitsValue 3 digits ≤ 255
  | hexByte digits => Digits isHexDigit 2 digits
  | littleU digits => Digits isHexDigit 4 digits ∧ Utf8.validRune (digitsValue 4 digits) = true
  | bigU digits => Digits isHexDigit 8 digits ∧ Utf8.validRune (digitsValue 4 digits) = true

/-- The text between the quotes. -/
def texts (cs : List Character) : Bytes := cs.flatMap text

/-- The bytes that the text stands for. -/
def values (cs : List Character) : Bytes := cs.flatMap value

theorem texts_cons (c : Character) (cs : List Character) : texts (c :: cs) = c.text ++ texts cs :=
  List.flatMap_cons

theorem text_pos (c : Character) : 0 < c.text.length := by
  cases c with
  | unicodeChar r => exact List.length_pos_iff.mpr (Utf8.encodeRune_ne_nil r)
  | _ => exact Nat.succ_pos _

/-! ## Digits -/

theorem hexDigitToInt_eq (ch : Int) : hexDigitToInt ch =
    if 48 ≤ ch ∧ ch ≤ 57 then (ch - 48).toNat
    else if 65 ≤ ch ∧ ch ≤ 70 then (ch - 65).toNat + 10
    else if 97 ≤ ch ∧ ch ≤ 102 then (ch - 97).toNat + 10
    else 0 := by
  simp only [hexDigitToInt, between, Bool.and_eq_true, decide_eq_true_eq]
  rfl

theorem isHexDigit_iff {ch : Int} : isHexDigit ch = true ↔
    48 ≤ ch ∧ ch ≤ 57 ∨ 65 ≤ ch ∧ ch ≤ 70 ∨ 97 ≤ ch ∧ ch ≤ 102 := by
  simp only [isHexDigit, between, Bool.or_eq_true, Bool.and_eq_true, decide_eq_true_eq, or_assoc]
  rfl

theorem isOctalDigit_iff {ch : Int} : isOctalDigit ch = true ↔ 48 ≤ ch ∧ ch ≤ 55 := by
  simp only [isOctalDigit, between, Bool.and_eq_true, decide_eq_true_eq]
  rfl

theorem hexDigitToInt_lt (ch : Int) : hexDigitToInt ch < 2 ^ 4 := by
  rw [hexDigitToInt_eq]
  split_ifs <;> omega

theorem hexDigitToInt_octal {ch : Int} (h : isOctalDigit ch = true) :
    hexDigitToInt ch = (ch - 48).toNat ∧ hexDigitToInt ch < 2 ^ 3 := by
  rw [isOctalDigit_iff] at h
  rw [hexDigitToInt_eq, if_pos (by omega)]
  omega

theorem digitsValue_cons (bits : Nat) (d : UInt8) (digits : Bytes) :
    digitsValue bits (d :: digits) =
      hexDigitToInt d.toNat * 2 ^ (bits * digits.length) + digitsValue bits digits := by
  have hfold : ∀ x, digits.foldl (fun x (d : UInt8) => x * 2 ^ bits + hexDigitToInt d.toNat) x =
      x * 2 ^ (bits * digits.length) + digitsValue bits digits := by
    induction digits with
    | nil => simp [digitsValue]
    | cons d digits ih =>
      intro x
      have hd : digitsValue bits (d :: digits) = _ := ih (0 * 2 ^ bits + hexDigitToInt d.toNat)
      rw [List.foldl_cons, ih, List.length_cons, Nat.mul_succ, Nat.pow_add, hd]
      ring
  have hd : digitsValue bits (d :: digits) = _ := hfold (0 * 2 ^ bits + hexDigitToInt d.toNat)
  rw [hd, Nat.zero_mul, Nat.zero_add]

/-- Digits of so many bits are less than the power of two. -/
theorem digitsValue_lt {bits : Nat} {digits : Bytes}
    (h : ∀ d ∈ digits, hexDigitToInt d.toNat < 2 ^ bits) :
    digitsValue bits digits < 2 ^ (bits * digits.length) := by
  induction digits with
  | nil => simp [digitsValue]
  | cons d digits ih =>
    obtain ⟨hd, hdigits⟩ := List.forall_mem_cons.mp h
    have hlt := ih hdigits
    have hmul := Nat.mul_le_mul_right (2 ^ (bits * digits.length)) hd
    rw [digitsValue_cons, List.length_cons, Nat.mul_succ, Nat.add_comm (bits * _), Nat.pow_add]
    rw [Nat.succ_mul] at hmul
    omega

/-- The first digit is in the high bits. -/
theorem digitsValue_or {bits : Nat} {d : UInt8} {digits : Bytes}
    (h : ∀ d ∈ digits, hexDigitToInt d.toNat < 2 ^ bits) (x : Nat) :
    x ||| hexDigitToInt d.toNat <<< (digits.length * bits) ||| digitsValue bits digits =
      x ||| digitsValue bits (d :: digits) := by
  have hlt := digitsValue_lt h
  rw [Nat.or_assoc, Nat.mul_comm digits.length, ← Nat.shiftLeft_add_eq_or_of_lt hlt,
    Nat.shiftLeft_eq, digitsValue_cons]

/-- `Unescape` reads digits as their number. -/
theorem foldDigits_eq {bits : Nat} (hbits : bits ≤ 32) {digit : UInt8 → BitVec 32}
    {digits : Bytes} (h : ∀ d ∈ digits, digit d = BitVec.ofNat 32 (hexDigitToInt d.toNat) ∧
      hexDigitToInt d.toNat < 2 ^ bits) :
    Strings.foldDigits bits digit digits = BitVec.ofNat 32 (digitsValue bits digits) := by
  have hfold : ∀ x, digits.foldl (fun (n : BitVec 32) ch => n <<< bits ||| digit ch) (BitVec.ofNat 32 x) =
      BitVec.ofNat 32
        (digits.foldl (fun x (d : UInt8) => x * 2 ^ bits + hexDigitToInt d.toNat) x) := by
    induction digits with
    | nil => exact fun x => rfl
    | cons d digits ih =>
      intro x
      obtain ⟨⟨hd, hlt⟩, hdigits⟩ := List.forall_mem_cons.mp h
      rw [List.foldl_cons, List.foldl_cons, hd, Strings.shift_or hbits hlt, ih hdigits]
  exact hfold 0

theorem digit_hex {d : UInt8} (h : isHexDigit d.toNat = true) :
    Strings.hexDigitToInt d = BitVec.ofNat 32 (hexDigitToInt d.toNat) := by
  have hall : ∀ n : Fin 256, isHexDigit (UInt8.ofNat n).toNat = true →
      Strings.hexDigitToInt (UInt8.ofNat n) =
        BitVec.ofNat 32 (hexDigitToInt (UInt8.ofNat n).toNat) := by decide +kernel
  have hd := hall ⟨d.toNat, d.toNat_lt⟩
  rw [UInt8.ofNat_toNat] at hd
  exact hd h

theorem digit_octal {d : UInt8} (h : isOctalDigit d.toNat = true) :
    Strings.octalDigitToInt d = BitVec.ofNat 32 (hexDigitToInt d.toNat) := by
  have hall : ∀ n : Fin 256, isOctalDigit (UInt8.ofNat n).toNat = true →
      Strings.octalDigitToInt (UInt8.ofNat n) =
        BitVec.ofNat 32 (hexDigitToInt (UInt8.ofNat n).toNat) := by decide +kernel
  have hd := hall ⟨d.toNat, d.toNat_lt⟩
  rw [UInt8.ofNat_toNat] at hd
  exact hd h

theorem hexDigitsToInt_eq {n : Nat} {digits : Bytes} (h : Digits isHexDigit n digits)
    (more : Bytes) :
    Strings.hexDigitsToInt (digits ++ more) n = BitVec.ofNat 32 (digitsValue 4 digits) := by
  obtain ⟨hlen, hdigits⟩ := h
  have hshort : ¬(digits ++ more).length < n := by
    rw [List.length_append]
    omega
  rw [Strings.hexDigitsToInt, if_neg hshort, List.take_left' hlen]
  exact foldDigits_eq (by decide) fun d hd =>
    ⟨digit_hex (hdigits d hd), hexDigitToInt_lt _⟩

theorem octalDigitsToInt_eq {digits : Bytes} (h : Digits isOctalDigit 3 digits)
    (hmax : digitsValue 3 digits ≤ 255) (more : Bytes) :
    Strings.octalDigitsToInt (digits ++ more) 3 255 =
      BitVec.ofNat 32 (digitsValue 3 digits) := by
  obtain ⟨hlen, hdigits⟩ := h
  have hshort : ¬(digits ++ more).length < 3 := by
    rw [List.length_append]
    omega
  have hfold : Strings.foldDigits 3 Strings.octalDigitToInt digits =
      BitVec.ofNat 32 (digitsValue 3 digits) :=
    foldDigits_eq (by decide) fun d hd =>
      ⟨digit_octal (hdigits d hd), (hexDigitToInt_octal (hdigits d hd)).2⟩
  have hnat : (BitVec.ofNat 32 (digitsValue 3 digits)).toNat = digitsValue 3 digits := by
    rw [BitVec.toNat_ofNat]
    omega
  have hint : ¬(255 : Int) < (BitVec.ofNat 32 (digitsValue 3 digits)).toInt := by
    rw [BitVec.toInt_eq_toNat_of_lt (by omega), hnat]
    omega
  rw [Strings.octalDigitsToInt, if_neg hshort, List.take_left' hlen, hfold]
  exact if_neg hint

/-! ## What `Unescape` makes of a character -/

/-- The character as `Unescape` reads it. -/
def parts : Character → List Strings.Part
  | unicodeChar r => (Utf8.encodeRune r).map .raw
  | escapedChar letter => [.escape letter [] [escapedByte letter]]
  | octalByte [] => []
  | octalByte (d :: digits) => [.escape d digits [UInt8.ofNat (digitsValue 3 (d :: digits))]]
  | hexByte digits => [.escape (byte 'x') digits [UInt8.ofNat (digitsValue 4 digits)]]
  | littleU digits => [.escape (byte 'u') digits (Utf8.encodeRune (digitsValue 4 digits))]
  | bigU digits => [.escape (byte 'U') digits (Utf8.encodeRune (digitsValue 4 digits))]

theorem flatMap_raw (bs : Bytes) : Strings.Part.texts (bs.map .raw) = bs ∧
    Strings.Part.values (bs.map .raw) = bs := by
  simp [Strings.Part.texts, Strings.Part.values, Strings.Part.text, Strings.Part.value,
    List.flatMap_map]

theorem octal_ne_nil {digits : Bytes} (h : Digits isOctalDigit 3 digits) :
    ∃ d rest, digits = d :: rest := List.exists_cons_of_length_eq_add_one h.1

theorem texts_parts {kind : StrKind} {c : Character} (h : c.Valid kind) :
    Strings.Part.texts c.parts = c.text := by
  cases c with
  | unicodeChar r => exact (flatMap_raw _).1
  | octalByte digits =>
    obtain ⟨d, rest, rfl⟩ := octal_ne_nil h.1
    simp [parts, text, Strings.Part.texts, Strings.Part.text]
  | _ => simp [parts, text, Strings.Part.texts, Strings.Part.text]

theorem values_parts {kind : StrKind} {c : Character} (h : c.Valid kind) :
    Strings.Part.values c.parts = c.value := by
  cases c with
  | unicodeChar r => exact (flatMap_raw _).2
  | octalByte digits =>
    obtain ⟨d, rest, rfl⟩ := octal_ne_nil h.1
    simp [parts, value, Strings.Part.values, Strings.Part.value]
  | _ => simp [parts, value, Strings.Part.values, Strings.Part.value]

theorem ok_unicodeChar {r : Nat} (hr : Utf8.validRune r = true) (hne : (r : Rune) ≠ rune '\\') :
    ∀ p ∈ (unicodeChar r).parts, p.Ok := by
  intro p hp
  obtain ⟨b, hb, rfl⟩ := List.mem_map.mp hp
  change b ≠ byte '\\'
  rintro rfl
  have hslash : (byte '\\').toNat = 0x5C := by decide
  by_cases hlow : r < 0x80
  · rw [Utf8.encodeRune_ascii hlow, List.mem_singleton] at hb
    have heq := congrArg UInt8.toNat hb
    rw [hslash, UInt8.toNat_ofNat', Nat.mod_eq_of_lt (by omega)] at heq
    rw [← heq] at hne
    exact hne rfl
  · have hhigh := Utf8.encodeRune_high hr (Nat.not_lt.mp hlow) hb
    rw [hslash] at hhigh
    omega

theorem ok_escapedChar {kind : StrKind} {letter : UInt8} (h : (escapedChar letter).Valid kind) :
    Strings.letters.lookup letter = some (escapedByte letter) := by
  have hall : ∀ letter ∈ Token.bytes ['a', 'b', 'f', 'n', 'r', 't', 'v', '\\', '"', '\''],
      Strings.letters.lookup letter = some (escapedByte letter) :=
    List.all_iff_forall_prop.mp (by decide)
  apply hall
  rcases h with hmem | rfl
  · exact List.mem_append_left (Token.bytes ['"', '\'']) hmem
  · cases kind with
    | str => decide
    | chr => decide

theorem ok_octalByte {d : UInt8} {digits : Bytes} (h : Digits isOctalDigit 3 (d :: digits))
    (hmax : digitsValue 3 (d :: digits) ≤ 255) :
    (Strings.Part.escape d digits [UInt8.ofNat (digitsValue 3 (d :: digits))]).Ok := by
  intro more
  have hread := octalDigitsToInt_eq h hmax more
  rw [List.cons_append] at hread
  have hnat : (UInt8.ofNat (digitsValue 3 (d :: digits))).toNat = digitsValue 3 (d :: digits) := by
    rw [UInt8.toNat_ofNat', Nat.mod_eq_of_lt (by omega)]
  have hlen : digits.length = 2 := Nat.succ.inj h.1
  have hfirst : ∀ n : Fin 256, isOctalDigit (UInt8.ofNat n).toNat = true →
      Strings.letters.lookup (UInt8.ofNat n) = none ∧ UInt8.ofNat n ≠ byte 'U' ∧
        UInt8.ofNat n ≠ byte 'u' ∧ UInt8.ofNat n ≠ byte 'x' ∧ byte '0' ≤ UInt8.ofNat n ∧
        UInt8.ofNat n ≤ byte '7' := by decide +kernel
  have hd := hfirst ⟨d.toNat, d.toNat_lt⟩
  rw [UInt8.ofNat_toNat] at hd
  obtain ⟨hnone, hU, hu, hx, hlo, hhi⟩ := hd (h.2 d List.mem_cons_self)
  have hfind : Strings.find d (digits ++ more) =
      { ch := (BitVec.ofNat 32 (digitsValue 3 (d :: digits))).setWidth 16, skip := 3 } := by
    rw [Strings.find, hnone]
    dsimp only
    rw [if_neg hU, if_neg hu, if_neg hx, if_pos ⟨hlo, hhi⟩, hread]
  rw [hfind, hlen]
  refine ⟨rfl, Strings.written_byte rfl ?_⟩
  have hwidth := Strings.setWidth_byte (UInt8.ofNat (digitsValue 3 (d :: digits)))
  rw [hnat] at hwidth ⊢
  exact hwidth

theorem ok_hexByte {digits : Bytes} (h : Digits isHexDigit 2 digits) :
    (Strings.Part.escape (byte 'x') digits [UInt8.ofNat (digitsValue 4 digits)]).Ok := by
  have hlt := @digitsValue_lt 4 digits fun d _ => hexDigitToInt_lt d.toNat
  rw [h.1] at hlt
  have hnat : (UInt8.ofNat (digitsValue 4 digits)).toNat = digitsValue 4 digits := by
    rw [UInt8.toNat_ofNat', Nat.mod_eq_of_lt hlt]
  refine Strings.ok_byte h.1 fun more => ?_
  rw [hnat]
  exact hexDigitsToInt_eq h more

theorem ok_rune {letter : Char} {n : Nat} {digits : Bytes}
    (hletter : (letter = 'u' ∧ n = 4) ∨ (letter = 'U' ∧ n = 8)) (h : Digits isHexDigit n digits)
    (hr : Utf8.validRune (digitsValue 4 digits) = true) :
    (Strings.Part.escape (byte letter) digits (Utf8.encodeRune (digitsValue 4 digits))).Ok := by
  have hlt := Utf8.validRune_lt hr
  obtain ⟨rfl, hdigits⟩ := h
  exact Strings.ok_rune hletter (hexDigitsToInt_eq ⟨rfl, hdigits⟩) (by omega)

/-- The parts of a character are read as their values. -/
theorem ok_parts {kind : StrKind} {c : Character} (h : c.Valid kind) : ∀ p ∈ c.parts, p.Ok := by
  cases c with
  | unicodeChar r => exact ok_unicodeChar h.1 h.2.2.1
  | escapedChar letter =>
    exact List.forall_mem_singleton.mpr (Strings.ok_letter (ok_escapedChar h))
  | octalByte digits =>
    obtain ⟨d, rest, rfl⟩ := octal_ne_nil h.1
    exact List.forall_mem_singleton.mpr (ok_octalByte h.1 h.2)
  | hexByte digits => exact List.forall_mem_singleton.mpr (ok_hexByte h)
  | littleU digits => exact List.forall_mem_singleton.mpr (ok_rune (.inl ⟨rfl, rfl⟩) h.1 h.2)
  | bigU digits => exact List.forall_mem_singleton.mpr (ok_rune (.inr ⟨rfl, rfl⟩) h.1 h.2)

theorem parts_ne_nil {kind : StrKind} {c : Character} (h : c.Valid kind) : c.parts ≠ [] := by
  cases c with
  | unicodeChar r => simp [parts, Utf8.encodeRune_ne_nil]
  | octalByte digits =>
    obtain ⟨d, rest, rfl⟩ := octal_ne_nil h.1
    exact List.cons_ne_nil _ _
  | _ => exact List.cons_ne_nil _ _

/-- All parts of a character are escape sequences, or none is. -/
theorem isEscape_parts {c : Character} : ∀ p ∈ c.parts, p.isEscape = c.isEscape := by
  cases c with
  | unicodeChar r =>
    intro p hp
    obtain ⟨b, -, rfl⟩ := List.mem_map.mp hp
    rfl
  | octalByte digits => cases digits <;> simp [parts, isEscape, Strings.Part.isEscape]
  | _ => simp [parts, isEscape, Strings.Part.isEscape]

/-! ## What `Unescape` makes of a text -/

theorem texts_flatMap_parts {kind : StrKind} {cs : List Character} (h : ∀ c ∈ cs, c.Valid kind) :
    Strings.Part.texts (cs.flatMap parts) = texts cs ∧
      Strings.Part.values (cs.flatMap parts) = values cs := by
  induction cs with
  | nil => exact ⟨rfl, rfl⟩
  | cons c cs ih =>
    obtain ⟨hc, hcs⟩ := List.forall_mem_cons.mp h
    obtain ⟨htexts, hvalues⟩ := ih hcs
    have htext := texts_parts hc
    have hvalue := values_parts hc
    rw [Strings.Part.texts] at htext htexts
    rw [Strings.Part.values] at hvalue hvalues
    rw [Strings.Part.texts, Strings.Part.values, List.flatMap_cons, List.flatMap_append,
      List.flatMap_append, htext, htexts, hvalue, hvalues]
    exact ⟨rfl, rfl⟩

theorem any_flatMap_parts {kind : StrKind} {cs : List Character} (h : ∀ c ∈ cs, c.Valid kind) :
    (cs.flatMap parts).any Strings.Part.isEscape = cs.any isEscape := by
  induction cs with
  | nil => rfl
  | cons c cs ih =>
    obtain ⟨hc, hcs⟩ := List.forall_mem_cons.mp h
    have hany : c.parts.any Strings.Part.isEscape = c.isEscape := by
      obtain ⟨p, ps, hps⟩ := List.exists_cons_of_ne_nil (parts_ne_nil hc)
      have hall := @isEscape_parts c
      rw [hps] at hall ⊢
      obtain ⟨hp, hps⟩ := List.forall_mem_cons.mp hall
      cases hesc : c.isEscape with
      | true => simp [hp, hesc]
      | false =>
        rw [List.any_eq_false]
        intro q hq
        rw [hall q hq, hesc]
        exact Bool.false_ne_true
    rw [List.flatMap_cons, List.any_append, hany, ih hcs, List.any_cons]

theorem getLast_flatMap_parts {kind : StrKind} {cs : List Character}
    (h : ∀ c ∈ cs, c.Valid kind) : (∀ p ∈ (cs.flatMap parts).getLast?, p.isEscape = true) ↔
      ∀ c ∈ cs.getLast?, c.isEscape = true := by
  rcases List.eq_nil_or_concat cs with rfl | ⟨before, c, rfl⟩
  · simp
  · have hc : c.Valid kind := h c (by simp)
    obtain ⟨p, hp⟩ : ∃ p, c.parts.getLast? = some p :=
      Option.ne_none_iff_exists'.mp fun hnone => parts_ne_nil hc (List.getLast?_eq_none_iff.mp hnone)
    have hesc := isEscape_parts p (List.mem_of_getLast? hp)
    rw [List.concat_eq_append, List.flatMap_append, List.flatMap_singleton, List.getLast?_append,
      hp, List.getLast?_concat]
    simp [hesc]

/-- `Unescape` gives the bytes that a text stands for exactly when no character of it is escaped, or
the last one is. -/
theorem unescape_texts_iff {kind : StrKind} {cs : List Character} (h : ∀ c ∈ cs, c.Valid kind) :
    Strings.unescape (texts cs) = some (values cs) ↔
      cs.any isEscape = false ∨ ∀ c ∈ cs.getLast?, c.isEscape = true := by
  have hok : ∀ p ∈ cs.flatMap parts, p.Ok := by
    intro p hp
    obtain ⟨c, hc, hmem⟩ := List.mem_flatMap.mp hp
    exact ok_parts (h c hc) p hmem
  have hiff := Strings.Part.unescape_eq_values_iff hok
  rw [(texts_flatMap_parts h).1, (texts_flatMap_parts h).2, any_flatMap_parts h,
    getLast_flatMap_parts h] at hiff
  exact hiff

end Character

end OneJit.Go
