import OneJit.Go.Character
import OneJit.Go.CleanSteps

/-!
# Scanning literals in quotes

Without an error, the scanner takes the characters that the grammar of Go allows, and no others.
-/

namespace OneJit.Go

namespace ScanM

open Character (Digits digitsValue_or)

/-! ## Digits of escapes -/

theorem hex_low (ch : Int) (h : isHexDigit ch = true) : 0 ≤ ch ∧ ch < 0x80 := by
  rw [Character.isHexDigit_iff] at h
  omega

theorem octal_low (ch : Int) (h : isOctalDigit ch = true) : 0 ≤ ch ∧ ch < 0x80 := by
  rw [Character.isOctalDigit_iff] at h
  omega

theorem digits_cons {isDigit : Rune → Bool} {n : Nat} {d : UInt8} (hd : isDigit d.toNat = true)
    (t : Bytes) : Digits isDigit (n + 1) ((d :: t).take (n + 1)) ↔ Digits isDigit n (t.take n) := by
  rw [List.take_succ_cons, Digits, Digits, List.length_cons, List.forall_mem_cons]
  simp [hd]

/-- A text does not begin with digits when its head is none. -/
theorem not_digits {isDigit : Rune → Bool} {n : Nat} {t : Bytes}
    (h : ∀ d ∈ t.head?, isDigit d.toNat = false) : ¬Digits isDigit (n + 1) (t.take (n + 1)) := by
  rintro ⟨hlen, hdigits⟩
  obtain _ | ⟨d, t⟩ := t
  · cases hlen
  · have htrue := hdigits d (by simp)
    rw [h d rfl] at htrue
    cases htrue

/-- The digits of an escape are as many as they must be. -/
theorem hexDigitsLoop_clean (kind : StrKind) (n x : Nat) {c : Core} (h : c.unread = runeNone)
    (t : Bytes) : (hexDigitsLoop kind n x).clean c t =
      if Digits isHexDigit n (t.take n) then
        some (some (x ||| digitsValue 4 (t.take n)), c.takeBytes (t.take n), t.drop n)
      else none := by
  induction n generalizing x c t with
  | zero =>
    have hdigits : Digits isHexDigit 0 (t.take 0) := ⟨rfl, by simp⟩
    rw [if_pos hdigits, hexDigitsLoop, clean_pure]
    simp [digitsValue]
  | succ n ih =>
    rw [hexDigitsLoop, clean_bind, clean_next_take h]
    rcases takeRune_class hex_low t with ⟨d, t, rfl, hd, hlow⟩ | ⟨hhead, htake⟩
    · have heof : (d.toNat : Rune) ≠ runeEOF := by
        intro heq
        rw [heq] at hd
        exact absurd hd (by decide)
      rw [takeRune_byte hlow, Option.map_some, Option.bind_some]
      dsimp only
      rw [if_neg heof, if_pos hd, clean_bind, clean_addRune_byte hlow, Option.bind_some,
        ih _ (by simpa using h), List.take_succ_cons]
      by_cases hdigits : Digits isHexDigit n (t.take n)
      · have hdigits' := (digits_cons hd t).mpr hdigits
        rw [List.take_succ_cons] at hdigits'
        have hor := @digitsValue_or 4 d (t.take n) (fun d _ => Character.hexDigitToInt_lt d.toNat) x
        rw [hdigits.1] at hor
        rw [if_pos hdigits, if_pos hdigits', hor]
        rfl
      · have hdigits' := mt (digits_cons hd t).mp hdigits
        rw [List.take_succ_cons] at hdigits'
        rw [if_neg hdigits, if_neg hdigits']
    · rw [if_neg (not_digits hhead)]
      cases hcase : takeRune t with
      | none => rfl
      | some r =>
        obtain ⟨ch, t'⟩ := r
        rw [Option.map_some, Option.bind_some]
        dsimp only
        rw [htake ch t' hcase, if_neg Bool.false_ne_true]
        split
        · rw [clean_bind, clean_error, Option.bind_none]
        · rw [clean_bind, clean_error, Option.bind_none]

theorem nextIf_true (ch : Rune) : nextIf true ch = next := rfl

theorem octalDigitsLoop_clean (kind : StrKind) (n x : Nat) {d : UInt8}
    (hd : isOctalDigit d.toNat = true) {c : Core} (h : c.unread = runeNone) (t : Bytes) :
    (octalDigitsLoop kind (n + 1) d.toNat x).clean c t =
      if Digits isOctalDigit n (t.take n) then
        some (some (x ||| digitsValue 3 (d :: t.take n)), (c.push [d]).takeBytes (t.take n),
          t.drop n)
      else none := by
  have hlow : d.toNat < 0x80 := by
    have hlt : (d.toNat : Int) < 0x80 := (octal_low _ hd).2
    omega
  have heof : (d.toNat : Rune) ≠ runeEOF := by
    intro heq
    rw [heq] at hd
    exact absurd hd (by decide)
  have hvalue : (d.toNat - rune '0' : Rune).toNat = hexDigitToInt d.toNat :=
    (Character.hexDigitToInt_octal hd).1.symm
  induction n generalizing d x c t with
  | zero =>
    have hdigits : Digits isOctalDigit 0 (t.take 0) := ⟨rfl, by simp⟩
    have hnext : nextIf (decide ((0 : Nat) ≠ 0)) (d.toNat : Rune) = pure (d.toNat : Rune) := rfl
    have hor := @digitsValue_or 3 d [] (by simp) x
    rw [if_pos hdigits, octalDigitsLoop, if_neg heof, hd, if_pos rfl, hvalue, hnext, clean_bind,
      clean_errorUnless, if_pos rfl, Option.bind_some, clean_bind, clean_addRune_byte hlow,
      Option.bind_some, clean_bind, clean_pure, Option.bind_some, octalDigitsLoop, clean_pure]
    rw [List.length_nil] at hor
    rw [List.take_zero, List.drop_zero, ← hor]
    simp [digitsValue]
  | succ n ih =>
    have hnext : nextIf (decide (n + 1 ≠ 0)) (d.toNat : Rune) = next := by
      rw [decide_eq_true (Nat.succ_ne_zero n), nextIf_true]
    have hunread : (c.push [d]).unread = runeNone := h
    rw [octalDigitsLoop, if_neg heof, hd, if_pos rfl, hvalue, hnext, clean_bind,
      clean_errorUnless, if_pos rfl, Option.bind_some, clean_bind, clean_addRune_byte hlow,
      Option.bind_some, clean_bind, clean_next_take hunread]
    rcases takeRune_class octal_low t with ⟨d₁, t, rfl, hd₁, hlow₁⟩ | ⟨hhead, htake⟩
    · have heof₁ : (d₁.toNat : Rune) ≠ runeEOF := by
        intro heq
        rw [heq] at hd₁
        exact absurd hd₁ (by decide)
      rw [takeRune_byte hlow₁, Option.map_some, Option.bind_some]
      dsimp only
      rw [ih _ hd₁ (by simpa using h) t hlow₁ heof₁ (Character.hexDigitToInt_octal hd₁).1.symm]
      by_cases hdigits : Digits isOctalDigit n (t.take n)
      · have hdigits' := (digits_cons hd₁ t).mpr hdigits
        have hdigit : ∀ d' ∈ (d₁ :: t).take (n + 1), hexDigitToInt d'.toNat < 2 ^ 3 :=
          fun d' hd' => (Character.hexDigitToInt_octal (hdigits'.2 d' hd')).2
        have hor := @digitsValue_or 3 d ((d₁ :: t).take (n + 1)) hdigit x
        rw [hdigits'.1] at hor
        rw [if_pos hdigits, if_pos hdigits', ← hor, List.take_succ_cons]
        rfl
      · rw [if_neg hdigits, if_neg (mt (digits_cons hd₁ t).mp hdigits)]
    · rw [if_neg (not_digits hhead)]
      cases hcase : takeRune t with
      | none => rfl
      | some r =>
        obtain ⟨ch, t'⟩ := r
        rw [Option.map_some, Option.bind_some]
        dsimp only
        rw [octalDigitsLoop, htake ch t' hcase]
        split
        · rw [clean_bind, clean_error, Option.bind_none]
        · rw [clean_bind, clean_errorUnless, if_neg Bool.false_ne_true, Option.bind_none]

/-! ## Escapes -/

theorem endDigits_clean (ok : Nat → Bool) (x : Nat) (c : Core) (t : Bytes) :
    (endDigits ok (some x)).clean c t = if ok x then some (true, c, t) else none := by
  rw [endDigits, clean_bind, clean_errorUnless]
  split
  · rw [Option.bind_some, clean_pure]
  · rfl

theorem clean_addRune_slash (c : Core) (t : Bytes) :
    (addRune (rune '\\')).clean c t = some ((), c.push [byte '\\'], t) := by
  have hrune : rune '\\' = ((byte '\\').toNat : Rune) := rfl
  rw [hrune, clean_addRune_byte (by decide)]

theorem scanUnicodeHexDigits_clean (kind : StrKind) {b : UInt8} (hb : b.toNat < 0x80) (n : Nat)
    {c : Core} (h : c.unread = runeNone) (t : Bytes) :
    (scanUnicodeHexDigits kind b.toNat n).clean c t =
      if Digits isHexDigit n (t.take n) ∧ (b = byte 'U' ∨ b = byte 'u' →
          Utf8.validRune (digitsValue 4 (t.take n)) = true) then
        some (true, (c.push [byte '\\', b]).takeBytes (t.take n), t.drop n)
      else none := by
  have hletter : ∀ letter : UInt8, (b.toNat : Rune) = letter.toNat ↔ b = letter := by
    intro letter
    rw [Int.ofNat_inj, UInt8.toNat_inj]
  have hok : (!(decide ((b.toNat : Rune) = rune 'U') || decide ((b.toNat : Rune) = rune 'u')) ||
      Utf8.validRune (digitsValue 4 (t.take n))) = true ↔ (b = byte 'U' ∨ b = byte 'u' →
        Utf8.validRune (digitsValue 4 (t.take n)) = true) := by
    rw [← hletter (byte 'U'), ← hletter (byte 'u'), Bool.or_eq_true, Bool.not_eq_true',
      Bool.or_eq_false_iff, decide_eq_false_iff_not, decide_eq_false_iff_not, ← not_or,
      ← imp_iff_not_or]
    rfl
  have hloop := @hexDigitsLoop_clean kind n 0 (c.push [byte '\\', b]) h t
  rw [scanUnicodeHexDigits_eq, clean_bind_some (clean_addRune_slash c t),
    clean_bind_some (clean_addRune_byte hb _ t), Core.push_push, List.singleton_append, clean_bind,
    hloop, Nat.zero_or]
  by_cases hdigits : Digits isHexDigit n (t.take n)
  · rw [if_pos hdigits, Option.bind_some, endDigits_clean]
    by_cases hvalid : b = byte 'U' ∨ b = byte 'u' →
        Utf8.validRune (digitsValue 4 (t.take n)) = true
    · rw [if_pos (hok.mpr hvalid), if_pos ⟨hdigits, hvalid⟩]
    · rw [if_neg (mt hok.mp hvalid), if_neg (fun hand => hvalid hand.2)]
  · rw [if_neg hdigits, if_neg (fun hand => hdigits hand.1)]
    rfl

theorem scanUnicodeOctalDigits_clean (kind : StrKind) {d : UInt8}
    (hd : isOctalDigit d.toNat = true) {c : Core} (h : c.unread = runeNone) (t : Bytes) :
    (scanUnicodeOctalDigits kind d.toNat 3 255).clean c t =
      if Digits isOctalDigit 2 (t.take 2) ∧ digitsValue 3 (d :: t.take 2) ≤ 255 then
        some (true, (c.push [byte '\\', d]).takeBytes (t.take 2), t.drop 2)
      else none := by
  have hloop := @octalDigitsLoop_clean kind 2 0 d hd (c.push [byte '\\']) h t
  rw [scanUnicodeOctalDigits_eq, clean_bind_some (clean_addRune_slash c t), clean_bind, hloop,
    Nat.zero_or, Core.push_push, List.singleton_append]
  by_cases hdigits : Digits isOctalDigit 2 (t.take 2)
  · rw [if_pos hdigits, Option.bind_some, endDigits_clean]
    by_cases hmax : digitsValue 3 (d :: t.take 2) ≤ 255
    · rw [if_pos (decide_eq_true hmax), if_pos ⟨hdigits, hmax⟩]
    · rw [if_neg (by simpa using hmax), if_neg (fun hand => hmax hand.2)]
  · rw [if_neg hdigits, if_neg (fun hand => hdigits hand.1)]
    rfl

/-- A letter that stands behind a backslash alone. -/
theorem isSimpleEscape_iff {kind : StrKind} {ch : Rune} : isSimpleEscape kind ch = true ↔
    ∃ letter : UInt8, ch = letter.toNat ∧ (Character.escapedChar letter).Valid kind := by
  have hdelim : kind.delim = kind.quote.toNat := by cases kind <;> rfl
  simp only [isSimpleEscape, Bool.or_eq_true, decide_eq_true_eq, or_assoc, Character.Valid, hdelim,
    Token.bytes, List.map_cons, List.map_nil, List.mem_cons, List.not_mem_nil, or_false]
  constructor
  · rintro (rfl | rfl | rfl | rfl | rfl | rfl | rfl | rfl | rfl)
    · exact ⟨byte 'a', rfl, by simp [byte]⟩
    · exact ⟨byte 'b', rfl, by simp [byte]⟩
    · exact ⟨byte 'f', rfl, by simp [byte]⟩
    · exact ⟨byte 'n', rfl, by simp [byte]⟩
    · exact ⟨byte 'r', rfl, by simp [byte]⟩
    · exact ⟨byte 't', rfl, by simp [byte]⟩
    · exact ⟨byte 'v', rfl, by simp [byte]⟩
    · exact ⟨byte '\\', rfl, by simp [byte]⟩
    · exact ⟨kind.quote, rfl, by simp⟩
  · rintro ⟨letter, rfl, hletter⟩
    cases kind with
    | str => rcases hletter with rfl | rfl | rfl | rfl | rfl | rfl | rfl | rfl | rfl <;> decide
    | chr => rcases hletter with rfl | rfl | rfl | rfl | rfl | rfl | rfl | rfl | rfl <;> decide

theorem takeBytes_push (c : Core) (bs digits : Bytes) :
    ∃ ch, (c.push bs).takeBytes digits = (c.read ch).push (bs ++ digits) := by
  obtain ⟨ch, heq⟩ := (c.push bs).takeBytes_eq digits
  exact ⟨ch, by rw [heq, Core.read_push, Core.push_push]⟩

theorem digits_append {isDigit : Rune → Bool} {n : Nat} {digits : Bytes}
    (h : Digits isDigit n digits) (t : Bytes) :
    (digits ++ t).take n = digits ∧ (digits ++ t).drop n = t :=
  ⟨List.take_left' h.1, List.drop_left' h.1⟩

/-- An escape with hexadecimal digits is taken. -/
theorem scanUnicodeHexDigits_complete (kind : StrKind) {b : UInt8} (hb : b.toNat < 0x80) {n : Nat}
    {digits : Bytes} (hdigits : Digits isHexDigit n digits)
    (hvalid : b = byte 'U' ∨ b = byte 'u' → Utf8.validRune (digitsValue 4 digits) = true)
    {c : Core} (h : c.unread = runeNone) (t : Bytes) :
    ∃ ch, (scanUnicodeHexDigits kind b.toNat n).clean c (digits ++ t) =
      some (true, (c.read ch).push (byte '\\' :: b :: digits), t) := by
  obtain ⟨htake, hdrop⟩ := digits_append hdigits t
  obtain ⟨ch, hpush⟩ := takeBytes_push c [byte '\\', b] digits
  refine ⟨ch, ?_⟩
  rw [scanUnicodeHexDigits_clean kind hb n h, htake, hdrop, if_pos ⟨hdigits, hvalid⟩, hpush]
  rfl

/-- An escape with hexadecimal digits that is taken has as many of them as it must. -/
theorem scanUnicodeHexDigits_sound {kind : StrKind} {b : UInt8} (hb : b.toNat < 0x80) {n : Nat}
    {c c' : Core} {t t' : Bytes} (h : c.unread = runeNone) {cont : Bool}
    (hrun : (scanUnicodeHexDigits kind b.toNat n).clean c t = some (cont, c', t')) :
    cont = true ∧ c'.unread = runeNone ∧ ∃ digits, Digits isHexDigit n digits ∧
      (b = byte 'U' ∨ b = byte 'u' → Utf8.validRune (digitsValue 4 digits) = true) ∧
        t = digits ++ t' := by
  rw [scanUnicodeHexDigits_clean kind hb n h] at hrun
  split at hrun
  · next hdigits =>
    cases hrun
    exact ⟨rfl, by simpa using h, t.take n, hdigits.1, hdigits.2, (List.take_append_drop n t).symm⟩
  · cases hrun

/-- An escape of the grammar is taken. -/
theorem scanEscape_complete {kind : StrKind} {x : Character} (hx : x.Valid kind)
    (hesc : x.isEscape = true) : ∃ d rest, x.text = byte '\\' :: d :: rest ∧ d.toNat < 0x80 ∧
      d ≠ byte '\n' ∧ ∀ c t, c.unread = runeNone →
        ∃ ch, (scanEscape kind d.toNat).clean c (rest ++ t) =
          some (true, (c.read ch).push x.text, t) := by
  have hno : ∀ b ∈ Token.bytes ['U', 'u', 'x'], isSimpleEscape kind b.toNat = false :=
    List.all_iff_forall_prop.mp (by cases kind <;> decide)
  cases x with
  | unicodeChar r => cases hesc
  | escapedChar letter =>
    have hlow : letter.toNat < 0x80 ∧ letter ≠ byte '\n' := by
      have hall : ∀ letter ∈ Token.bytes ['a', 'b', 'f', 'n', 'r', 't', 'v', '\\', '"', '\''],
          letter.toNat < 0x80 ∧ letter ≠ byte '\n' := List.all_iff_forall_prop.mp (by decide)
      apply hall
      rcases hx with hmem | rfl
      · exact List.mem_append_left (Token.bytes ['"', '\'']) hmem
      · cases kind <;> decide
    refine ⟨letter, [], rfl, hlow.1, hlow.2, fun c t h => ⟨c.ch, ?_⟩⟩
    have hsimple : isSimpleEscape kind letter.toNat = true :=
      isSimpleEscape_iff.mpr ⟨letter, rfl, hx⟩
    rw [scanEscape, if_pos hsimple, clean_bind_some (clean_addRune_slash c _),
      clean_bind_some (clean_addRune_byte hlow.1 _ _), clean_pure, Core.push_push]
    rfl
  | octalByte digits =>
    obtain ⟨d, rest, rfl⟩ := Character.octal_ne_nil hx.1
    have hd := hx.1.2 d List.mem_cons_self
    have hrange : 48 ≤ d.toNat ∧ d.toNat ≤ 55 := by
      have hrange := Character.isOctalDigit_iff.mp hd
      omega
    have hne : ∀ b : UInt8, (b.toNat < 48 ∨ 55 < b.toNat) → d ≠ b := by
      rintro b hb rfl
      omega
    have hrune : ∀ b : UInt8, (b.toNat < 48 ∨ 55 < b.toNat) → (d.toNat : Rune) ≠ b.toNat := by
      intro b hb heq
      exact hne b hb (UInt8.toNat_inj.mp (Int.ofNat_inj.mp heq))
    have hsimple : isSimpleEscape kind d.toNat = false := by
      rw [← Bool.not_eq_true, isSimpleEscape_iff]
      rintro ⟨letter, heq, hletter⟩
      refine hrune letter ?_ heq
      rcases hletter with hmem | rfl
      · have hall : ∀ letter ∈ Token.bytes ['a', 'b', 'f', 'n', 'r', 't', 'v', '\\'],
            letter.toNat < 48 ∨ 55 < letter.toNat := List.all_iff_forall_prop.mp (by decide)
        exact hall letter hmem
      · cases kind <;> decide
    refine ⟨d, rest, rfl, by omega, hne _ (by decide), fun c t h => ?_⟩
    have hrest : Digits isOctalDigit 2 rest :=
      ⟨Nat.succ.inj hx.1.1, fun b hb => hx.1.2 b (List.mem_cons_of_mem d hb)⟩
    obtain ⟨htake, hdrop⟩ := digits_append hrest t
    obtain ⟨ch, hpush⟩ := takeBytes_push c [byte '\\', d] rest
    refine ⟨ch, ?_⟩
    have hU : (d.toNat : Rune) ≠ rune 'U' := hrune (byte 'U') (by decide)
    have hu : (d.toNat : Rune) ≠ rune 'u' := hrune (byte 'u') (by decide)
    have hx' : (d.toNat : Rune) ≠ rune 'x' := hrune (byte 'x') (by decide)
    rw [scanEscape, hsimple, if_neg Bool.false_ne_true, if_neg hU, if_neg hu, if_neg hx', if_pos hd,
      scanUnicodeOctalDigits_clean kind hd h, htake, hdrop, if_pos ⟨hrest, hx.2⟩, hpush]
    rfl
  | hexByte digits =>
    refine ⟨byte 'x', digits, rfl, by decide, by decide, fun c t h => ?_⟩
    have hrun : scanEscape kind (byte 'x').toNat = scanUnicodeHexDigits kind (byte 'x').toNat 2 := by
      rw [scanEscape, hno (byte 'x') (by decide)]
      rfl
    rw [hrun]
    have hno : ¬(byte 'x' = byte 'U' ∨ byte 'x' = byte 'u') := by decide
    exact scanUnicodeHexDigits_complete kind (by decide) hx (fun hor => absurd hor hno) h t
  | littleU digits =>
    refine ⟨byte 'u', digits, rfl, by decide, by decide, fun c t h => ?_⟩
    have hrun : scanEscape kind (byte 'u').toNat = scanUnicodeHexDigits kind (byte 'u').toNat 4 := by
      rw [scanEscape, hno (byte 'u') (by decide)]
      rfl
    rw [hrun]
    exact scanUnicodeHexDigits_complete kind (by decide) hx.1 (fun _ => hx.2) h t
  | bigU digits =>
    refine ⟨byte 'U', digits, rfl, by decide, by decide, fun c t h => ?_⟩
    have hrun : scanEscape kind (byte 'U').toNat = scanUnicodeHexDigits kind (byte 'U').toNat 8 := by
      rw [scanEscape, hno (byte 'U') (by decide)]
      rfl
    rw [hrun]
    exact scanUnicodeHexDigits_complete kind (by decide) hx.1 (fun _ => hx.2) h t

/-- An escape that is taken is one of the grammar. -/
theorem scanEscape_sound {kind : StrKind} {ch : Rune} {c c' : Core} {t t' : Bytes} {b : Bool}
    (h : c.unread = runeNone) (hrun : (scanEscape kind ch).clean c t = some (b, c', t')) :
    b = true ∧ c'.unread = runeNone ∧ ∃ (x : Character) (d : UInt8), x.Valid kind ∧
      2 ≤ x.text.length ∧ d.toNat < 0x80 ∧ ch = d.toNat ∧
        byte '\\' :: d :: t = x.text ++ t' := by
  have htwo : ∀ (d : UInt8) (bs : Bytes), 2 ≤ (byte '\\' :: d :: bs).length :=
    fun d bs => Nat.le_add_left 2 bs.length
  rw [scanEscape] at hrun
  split at hrun
  · next hsimple =>
    obtain ⟨letter, rfl, hletter⟩ := isSimpleEscape_iff.mp hsimple
    have hlow : letter.toNat < 0x80 := by
      have hall : ∀ letter ∈ Token.bytes ['a', 'b', 'f', 'n', 'r', 't', 'v', '\\', '"', '\''],
          letter.toNat < 0x80 := List.all_iff_forall_prop.mp (by decide)
      apply hall
      rcases hletter with hmem | rfl
      · exact List.mem_append_left (Token.bytes ['"', '\'']) hmem
      · cases kind <;> decide
    rw [clean_bind_some (clean_addRune_slash c t), clean_bind_some (clean_addRune_byte hlow _ t),
      clean_pure] at hrun
    cases hrun
    exact ⟨rfl, h, .escapedChar letter, letter, hletter, htwo _ _, hlow, rfl, rfl⟩
  split at hrun
  · next hU =>
    subst hU
    obtain ⟨rfl, hunread, digits, hdigits, hvalid, rfl⟩ :=
      @scanUnicodeHexDigits_sound kind (byte 'U') (by decide) _ _ _ _ _ h _ hrun
    exact ⟨rfl, hunread, .bigU digits, byte 'U', ⟨hdigits, hvalid (.inl rfl)⟩, htwo _ _,
      by decide, rfl, rfl⟩
  split at hrun
  · next hu =>
    subst hu
    obtain ⟨rfl, hunread, digits, hdigits, hvalid, rfl⟩ :=
      @scanUnicodeHexDigits_sound kind (byte 'u') (by decide) _ _ _ _ _ h _ hrun
    exact ⟨rfl, hunread, .littleU digits, byte 'u', ⟨hdigits, hvalid (.inr rfl)⟩,
      htwo _ _, by decide, rfl, rfl⟩
  split at hrun
  · next hx =>
    subst hx
    obtain ⟨rfl, hunread, digits, hdigits, -, rfl⟩ :=
      @scanUnicodeHexDigits_sound kind (byte 'x') (by decide) _ _ _ _ _ h _ hrun
    exact ⟨rfl, hunread, .hexByte digits, byte 'x', hdigits, htwo _ _, by decide, rfl, rfl⟩
  split at hrun
  · next hoctal =>
    obtain ⟨h0, h1⟩ := octal_low ch hoctal
    obtain ⟨n, rfl⟩ := Int.eq_ofNat_of_zero_le h0
    have hn : (UInt8.ofNat n).toNat = n := by
      rw [UInt8.toNat_ofNat', Nat.mod_eq_of_lt (by omega)]
    rw [← hn] at hrun hoctal ⊢
    rw [scanUnicodeOctalDigits_clean kind hoctal h] at hrun
    split at hrun
    · next hdigits =>
      cases hrun
      refine ⟨rfl, by simpa using h, .octalByte (UInt8.ofNat n :: t.take 2), UInt8.ofNat n,
        ⟨⟨congrArg (· + 1) hdigits.1.1, List.forall_mem_cons.mpr ⟨hoctal, hdigits.1.2⟩⟩,
          hdigits.2⟩, htwo _ _, by omega, rfl, ?_⟩
      rw [Character.text, List.cons_append, List.cons_append, List.take_append_drop]
    · cases hrun
  · rw [clean_bind_of_none (clean_error _ c t)] at hrun
    cases hrun

/-! ## The characters of a literal -/

/-- The loop of `scanRuneOrString` without an error. -/
def stringRun (kind : StrKind) (size : Nat) (escape : Bool) (c : Core) (t : Bytes) :
    Option (Option (Nat × Bool) × Core × Bytes) :=
  (stringLoop kind (t.length + 3) size escape).clean c t

theorem stringRun_eq {n : Nat} {t : Bytes} (h : t.length + 2 < n) (kind : StrKind) (size : Nat)
    (escape : Bool) (c : Core) :
    (stringLoop kind n size escape).clean c t = stringRun kind size escape c t :=
  Lasts.clean (stringLoop_lasts kind size escape) h (by omega)

theorem stringRun_next {kind : StrKind} {size : Nat} {escape : Bool} {c : Core} {t t' : Bytes}
    {ch : Rune} (h : c.unread = runeNone) (htake : takeRune t = some (ch, t')) :
    stringRun kind size escape c t =
      if ch = runeEOF ∨ ch = rune '\n' then none
      else if escape then
        (scanEscape kind ch >>= fun cont =>
          if cont then stringLoop kind (t.length + 2) (size + 1) false
          else pure (some (size + 1, false))).clean (c.read ch) t'
      else if ch = kind.delim then some (some (size, true), c.read ch, t')
      else if ch = rune '\\' then
        (stringLoop kind (t.length + 2) size true).clean (c.read ch) t'
      else (addRune ch >>= fun _ => stringLoop kind (t.length + 2) (size + 1) false).clean
        (c.read ch) t' := by
  have hnext : next.clean c t = some (ch, c.read ch, t') := by
    rw [clean_next_take h, htake, Option.map_some]
  rw [stringRun, stringLoop, clean_bind_some hnext]
  by_cases heof : ch = runeEOF
  · rw [if_pos heof, if_pos (.inl heof), clean_bind_of_none (clean_invalid _ _ t')]
  rw [if_neg heof]
  by_cases hnewline : ch = rune '\n'
  · rw [if_pos hnewline, if_pos (.inr hnewline), clean_bind_of_none (clean_invalid _ _ t')]
  rw [if_neg hnewline, if_neg (not_or.mpr ⟨heof, hnewline⟩)]
  by_cases hescape : escape = true
  · rw [if_pos hescape, if_pos hescape]
  rw [if_neg hescape, if_neg hescape]
  by_cases hdelim : ch = kind.delim
  · rw [if_pos hdelim, if_pos hdelim, clean_pure]
  rw [if_neg hdelim, if_neg hdelim]
  split <;> rfl

theorem stringRun_none {kind : StrKind} {size : Nat} {escape : Bool} {c : Core} {t : Bytes}
    (h : c.unread = runeNone) (htake : takeRune t = none) :
    stringRun kind size escape c t = none := by
  have hnext : next.clean c t = none := by
    rw [clean_next_take h, htake, Option.map_none]
  rw [stringRun, stringLoop, clean_bind_of_none hnext]

theorem natCast_ne_eof (r : Nat) : (r : Rune) ≠ runeEOF := by
  intro heq
  have heq : (r : Int) = -1 := heq
  omega

/-- A rune that stands for itself. -/
theorem stringRun_unicodeChar {kind : StrKind} {r : Nat}
    (hr : (Character.unicodeChar r).Valid kind) (size : Nat) {c : Core} (h : c.unread = runeNone)
    (t : Bytes) : stringRun kind size false c (Utf8.encodeRune r ++ t) =
      stringRun kind (size + 1) false ((c.read r).push (Utf8.encodeRune r)) t := by
  obtain ⟨hvalid, hnewline, hslash, hdelim⟩ := hr
  have hadd := @clean_addRune r (Int.natCast_nonneg r) (c.read r) t
  rw [Int.toNat_natCast] at hadd
  have hlt : t.length + 2 < (Utf8.encodeRune r ++ t).length + 2 := by
    have hpos := List.length_pos_iff.mpr (Utf8.encodeRune_ne_nil r)
    rw [List.length_append]
    omega
  rw [stringRun_next h (takeRune_encodeRune hvalid t),
    if_neg (not_or.mpr ⟨natCast_ne_eof r, hnewline⟩), if_neg Bool.false_ne_true, if_neg hdelim,
    if_neg hslash, clean_bind_some hadd, stringRun_eq hlt]

/-- An escape. -/
theorem stringRun_escape {kind : StrKind} {x : Character} (hx : x.Valid kind)
    (hesc : x.isEscape = true) (size : Nat) {c : Core} (h : c.unread = runeNone) (t : Bytes) :
    ∃ ch, stringRun kind size false c (x.text ++ t) =
      stringRun kind (size + 1) false ((c.read ch).push x.text) t := by
  obtain ⟨d, rest, htext, hlow, hnewline, hrun⟩ := scanEscape_complete hx hesc
  obtain ⟨ch, hescape⟩ := hrun ((c.read (rune '\\')).read d.toNat) t h
  have hslash : takeRune (byte '\\' :: d :: (rest ++ t)) = some (rune '\\', d :: (rest ++ t)) :=
    takeRune_byte (by decide) _
  have hd : ¬((d.toNat : Rune) = runeEOF ∨ (d.toNat : Rune) = rune '\n') := by
    rintro (heq | heq)
    · exact natCast_ne_eof _ heq
    · exact hnewline (UInt8.toNat_inj.mp (Int.ofNat_inj.mp heq))
  have hdelim : rune '\\' ≠ kind.delim := by cases kind <;> decide
  have hfuel : (d :: (rest ++ t)).length + 2 < (byte '\\' :: d :: (rest ++ t)).length + 2 := by
    simp
  have hfuel' : t.length + 2 < (d :: (rest ++ t)).length + 2 := by
    rw [List.length_cons, List.length_append]
    omega
  refine ⟨ch, ?_⟩
  rw [htext, List.cons_append, List.cons_append, stringRun_next h hslash,
    if_neg (by decide), if_neg Bool.false_ne_true, if_neg hdelim, if_pos rfl, stringRun_eq hfuel,
    stringRun_next (by exact h) (takeRune_byte hlow _), if_neg hd, if_pos rfl,
    clean_bind_some hescape, if_pos rfl, stringRun_eq hfuel', htext]
  rfl

/-- The closing quote. -/
theorem stringRun_quote (kind : StrKind) (size : Nat) {c : Core} (h : c.unread = runeNone)
    (t : Bytes) : stringRun kind size false c (kind.quote :: t) =
      some (some (size, true), c.read kind.delim, t) := by
  have htake : takeRune (kind.quote :: t) = some (kind.delim, t) := by
    cases kind with
    | str => exact takeRune_byte (by decide) t
    | chr => exact takeRune_byte (by decide) t
  have hdelim : ¬(kind.delim = runeEOF ∨ kind.delim = rune '\n') := by cases kind <;> decide
  rw [stringRun_next h htake, if_neg hdelim, if_neg Bool.false_ne_true, if_pos rfl]

/-- The characters of the grammar are taken up to the closing quote. -/
theorem stringRun_complete {kind : StrKind} {cs : List Character} (hcs : ∀ x ∈ cs, x.Valid kind)
    (size : Nat) {c : Core} (h : c.unread = runeNone) (t : Bytes) :
    stringRun kind size false c (Character.texts cs ++ kind.quote :: t) =
      some (some (size + cs.length, true), (c.read kind.delim).push (Character.texts cs), t) := by
  induction cs generalizing size c with
  | nil =>
    have hpush : (c.read kind.delim).push (Character.texts []) = c.read kind.delim := by
      simp [Core.push, Core.read, Character.texts]
    rw [hpush]
    exact stringRun_quote kind size h t
  | cons x cs ih =>
    obtain ⟨hx, hcs⟩ := List.forall_mem_cons.mp hcs
    have hstep : ∃ ch, stringRun kind size false c
        (x.text ++ (Character.texts cs ++ kind.quote :: t)) =
          stringRun kind (size + 1) false ((c.read ch).push x.text)
            (Character.texts cs ++ kind.quote :: t) := by
      by_cases hesc : x.isEscape = true
      · exact stringRun_escape hx hesc size h _
      · cases x with
        | unicodeChar r => exact ⟨r, stringRun_unicodeChar hx size h _⟩
        | _ => exact absurd rfl hesc
    obtain ⟨ch, hstep⟩ := hstep
    rw [Character.texts_cons, List.append_assoc, hstep, ih hcs (size + 1) (by exact h),
      List.length_cons, Core.read_push, Core.push_push, Nat.add_right_comm, Nat.add_assoc]
    rfl

/-- What is taken behind a backslash is the rest of an escape of the grammar. -/
theorem stringRun_escape_sound {kind : StrKind} {size : Nat} {c : Core} (h : c.unread = runeNone)
    {t : Bytes} (hrun : (stringRun kind size true c t).isSome = true) :
    ∃ (x : Character) (t' : Bytes) (c' : Core), x.Valid kind ∧ byte '\\' :: t = x.text ++ t' ∧
      c'.unread = runeNone ∧ (stringRun kind (size + 1) false c' t').isSome = true := by
  cases htake : takeRune t with
  | none =>
    rw [stringRun_none h htake] at hrun
    cases hrun
  | some next =>
    obtain ⟨ch, t₁⟩ := next
    rw [stringRun_next h htake] at hrun
    split at hrun
    · cases hrun
    next hch =>
    rw [if_pos rfl] at hrun
    cases hescape : (scanEscape kind ch).clean (c.read ch) t₁ with
    | none =>
      rw [clean_bind_of_none hescape] at hrun
      cases hrun
    | some r =>
      obtain ⟨cont, c₁, t'⟩ := r
      obtain ⟨rfl, hunread, x, d, hx, htwo, hlow, rfl, htext⟩ := scanEscape_sound (by exact h) hescape
      have ht : t = d :: t₁ := by
        have hcons := takeRune_low hlow htake
        rwa [UInt8.ofNat_toNat] at hcons
      have hfuel : t'.length + 2 < t.length + 2 := by
        have hlen := congrArg List.length htext
        rw [List.length_append, List.length_cons, List.length_cons] at hlen
        rw [ht, List.length_cons]
        omega
      rw [clean_bind_some hescape, if_pos rfl, stringRun_eq hfuel] at hrun
      refine ⟨x, t', c₁, hx, ?_, hunread, hrun⟩
      rw [ht, htext]

/-- What is taken up to the closing quote are characters of the grammar. -/
theorem stringRun_sound {kind : StrKind} {size : Nat} {c : Core} (h : c.unread = runeNone)
    {t : Bytes} (hrun : (stringRun kind size false c t).isSome = true) :
    ∃ cs rest, (∀ x ∈ cs, x.Valid kind) ∧ t = Character.texts cs ++ kind.quote :: rest := by
  induction hn : t.length using Nat.strongRecOn generalizing size c t with
  | ind n ih =>
    cases htake : takeRune t with
    | none =>
      rw [stringRun_none h htake] at hrun
      cases hrun
    | some next =>
      obtain ⟨ch, t'⟩ := next
      have hround := @stringRun_next kind size false c t t' ch h htake
      rcases takeRune_inv htake with ⟨-, rfl, -⟩ | ⟨r, hr, rfl, rfl⟩
      · rw [hround, if_pos (.inl rfl)] at hrun
        cases hrun
      by_cases hnewline : (r : Rune) = rune '\n'
      · rw [hround, if_pos (.inr hnewline)] at hrun
        cases hrun
      rw [if_neg (not_or.mpr ⟨natCast_ne_eof r, hnewline⟩), if_neg Bool.false_ne_true] at hround
      by_cases hdelim : (r : Rune) = kind.delim
      · refine ⟨[], t', by simp, ?_⟩
        have hlow : r < 0x80 := by
          have hlow : kind.delim < 0x80 := by cases kind <;> decide
          rw [← hdelim] at hlow
          exact Int.ofNat_lt.mp hlow
        have hquote : UInt8.ofNat r = kind.quote := by
          have hr : r = kind.quote.toNat := by
            cases kind with
            | str => exact Int.ofNat_inj.mp hdelim
            | chr => exact Int.ofNat_inj.mp hdelim
          rw [hr, UInt8.ofNat_toNat]
        rw [Utf8.encodeRune_ascii hlow, hquote]
        rfl
      rw [if_neg hdelim] at hround
      by_cases hslash : (r : Rune) = rune '\\'
      · have hlow : r < 0x80 := by
          have heq : r = (byte '\\').toNat := Int.ofNat_inj.mp hslash
          rw [heq]
          decide
        have hbyte : UInt8.ofNat r = byte '\\' := by
          have heq : r = (byte '\\').toNat := Int.ofNat_inj.mp hslash
          rw [heq, UInt8.ofNat_toNat]
        have htext : Utf8.encodeRune r ++ t' = byte '\\' :: t' := by
          rw [Utf8.encodeRune_ascii hlow, hbyte]
          rfl
        have hfuel : t'.length + 2 < (Utf8.encodeRune r ++ t').length + 2 := by
          rw [htext, List.length_cons]
          omega
        rw [hround, if_pos hslash, stringRun_eq hfuel] at hrun
        obtain ⟨x, t₁, c₁, hx, hsplit, hunread, hrest⟩ := stringRun_escape_sound (by exact h) hrun
        have hlt : t₁.length < n := by
          have hlen := congrArg List.length hsplit
          have hpos := x.text_pos
          rw [← htext, hn, List.length_append] at hlen
          omega
        obtain ⟨cs, rest, hcs, heq⟩ := ih t₁.length hlt hunread hrest rfl
        refine ⟨x :: cs, rest, List.forall_mem_cons.mpr ⟨hx, hcs⟩, ?_⟩
        rw [htext, hsplit, Character.texts_cons, List.append_assoc, ← heq]
      · have hx : (Character.unicodeChar r).Valid kind := ⟨hr, hnewline, hslash, hdelim⟩
        rw [stringRun_unicodeChar hx size h] at hrun
        have hlt : t'.length < n := by
          have hpos := List.length_pos_iff.mpr (Utf8.encodeRune_ne_nil r)
          rw [← hn, List.length_append]
          omega
        obtain ⟨cs, rest, hcs, heq⟩ := ih t'.length hlt (by exact h) hrun rfl
        refine ⟨.unicodeChar r :: cs, rest, List.forall_mem_cons.mpr ⟨hx, hcs⟩, ?_⟩
        rw [Character.texts_cons, List.append_assoc, ← heq]
        rfl

end ScanM

end OneJit.Go
