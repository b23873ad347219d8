import OneJit.Go.ScanString
import OneJit.Go.Whole

/-!
# String and rune literals

The scanner accepts the string and rune literals of the grammar of Go. But `Unescape` loses what
stands behind the last escape of a literal, and the call of `Scan` that returns a literal finds the
error of a byte behind it.
-/

namespace OneJit.Go

/-- Characters of a literal of this kind: any number of them in a string, one in a rune. -/
def IsLiteral (kind : StrKind) (cs : List Character) : Prop :=
  (∀ x ∈ cs, x.Valid kind) ∧ (kind = .chr → cs.length = 1)

/-- The text of a literal. -/
def literalText (kind : StrKind) (cs : List Character) : Bytes :=
  kind.quote :: Character.texts cs ++ [kind.quote]

namespace ScanM

theorem delim_eq (kind : StrKind) : kind.delim = kind.quote.toNat := by cases kind <;> rfl

theorem quote_low (kind : StrKind) : kind.quote.toNat < 0x80 := by cases kind <;> decide

theorem clean_addRune_quote (kind : StrKind) (c : Core) (t : Bytes) :
    (addRune kind.delim).clean c t = some ((), c.push [kind.quote], t) := by
  rw [delim_eq, clean_addRune_byte (quote_low kind)]

theorem openString_clean (kind : StrKind) (c : Core) (t : Bytes) :
    (openString kind).clean c t = stringRun kind 0 false (c.push [kind.quote]) t := by
  rw [openString, clean_bind_some (clean_addRune_quote kind c t), clean_bind_some (clean_fuel _ t)]
  rfl

theorem cleanToken_clean (kind : StrKind) (size : Nat) (c : Core) (t : Bytes) :
    (cleanToken kind size).clean c t =
      if kind = .chr → size = 1 then some (kind.token, c, t) else none := by
  rw [cleanToken]
  by_cases hchr : kind = .chr
  · rcases Nat.lt_trichotomy size 1 with hzero | rfl | hmany
    · have hzero : size = 0 := by omega
      rw [if_pos ⟨hchr, hzero⟩, clean_bind_of_none (clean_error _ c t),
        if_neg (by rw [hzero]; exact fun h => absurd (h hchr) (by decide))]
    · rw [if_neg (by simp), if_neg (by simp), clean_pure, if_pos fun _ => rfl]
    · have hne : size ≠ 0 ∧ size ≠ 1 := by omega
      rw [if_neg (fun h => hne.1 h.2), if_pos ⟨hchr, hne.2⟩, clean_bind_of_none (clean_error _ c t),
        if_neg (fun h => hne.2 (h hchr))]
  · rw [if_neg (fun h => hchr h.1), if_neg (fun h => hchr h.1), clean_pure,
      if_pos fun h => absurd h hchr]

/-- A literal, from behind its opening quote. The rune after it is taken, too. -/
theorem cleanString_complete {kind : StrKind} {cs : List Character} (hcs : ∀ x ∈ cs, x.Valid kind)
    {c : Core} (h : c.unread = runeNone) (rest : Bytes) :
    (cleanString kind).clean c (Character.texts cs ++ kind.quote :: rest) =
      if kind = .chr → cs.length = 1 then
        (takeRune rest).map fun r =>
          ((), ((c.push (literalText kind cs)).scanner.setResult kind.token).core.read r.1, r.2)
      else none := by
  have hopen := openString_clean kind c (Character.texts cs ++ kind.quote :: rest)
  rw [@stringRun_complete kind cs hcs 0 (c.push [kind.quote]) h, Nat.zero_add] at hopen
  rw [cleanString, clean_bind_some hopen, endString]
  have htoken := cleanToken_clean kind cs.length
    (((c.push [kind.quote]).read kind.delim).push (Character.texts cs)) rest
  by_cases hlen : kind = .chr → cs.length = 1
  · rw [if_pos hlen] at htoken
    rw [clean_bind_some htoken, if_pos rfl, if_pos hlen,
      clean_bind_some (clean_addRune_quote kind _ rest), clean_bind_some (clean_setResult _ _ rest),
      clean_bind, clean_next_take (by exact h), Core.push_push, Core.read_push, Core.push_push]
    cases takeRune rest with
    | none => rfl
    | some r => exact clean_pure _ _ _
  · rw [if_neg hlen] at htoken
    rw [clean_bind_of_none htoken, if_neg hlen]

theorem starts_quote (kind : StrKind) : Starts kind.quote := by
  cases kind <;> exact ⟨by decide, by decide⟩

theorem scanItem_quote (unicode : Unicode) (kind : StrKind) (t : Bytes) :
    (scanItem unicode).clean (Core.init.read kind.quote.toNat) t =
      (cleanString kind).clean (Core.init.read kind.quote.toNat) t := by
  rw [← (scanRuneOrString_clean kind).2, scanItem_clean]
  cases kind with
  | str => rfl
  | chr => rfl

/-- The first call of `Scan` on a text that begins with a literal. -/
theorem scan_literal (unicode : Unicode) {kind : StrKind} {cs : List Character}
    (h : IsLiteral kind cs) (rest : Bytes) :
    (scan unicode).clean .init (literalText kind cs ++ rest) =
      (takeRune rest).map fun r => ((kind.token, literalText kind cs),
        ((Core.init.push (literalText kind cs)).scanner.setResult kind.token).core.read r.1, r.2) := by
  have htext : literalText kind cs ++ rest =
      kind.quote :: (Character.texts cs ++ kind.quote :: rest) := by
    rw [literalText, List.append_assoc]
    rfl
  rw [htext, scan_first unicode (starts_quote kind), clean_bind, scanItem_quote,
    cleanString_complete h.1 rfl, if_pos h.2]
  cases takeRune rest with
  | none => rfl
  | some r =>
    rw [Option.map_some, Option.bind_some, endScan_clean]
    rfl

/-- A text in which a token is found without an error begins with a literal, when it begins with a
quote. -/
theorem literal_of_scan {unicode : Unicode} {kind : StrKind} {t : Bytes}
    (h : ((scan unicode).clean .init (kind.quote :: t)).isSome = true) :
    ∃ cs rest, IsLiteral kind cs ∧ kind.quote :: t = literalText kind cs ++ rest := by
  have hrun : ((cleanString kind).clean (Core.init.read kind.quote.toNat) t).isSome = true := by
    rw [scan_first unicode (starts_quote kind), clean_bind, scanItem_quote] at h
    cases hclean : (cleanString kind).clean (Core.init.read kind.quote.toNat) t with
    | none =>
      rw [hclean] at h
      cases h
    | some r => rfl
  have hopen : (stringRun kind 0 false
      ((Core.init.read kind.quote.toNat).push [kind.quote]) t).isSome = true := by
    rw [← openString_clean]
    cases hclean : (openString kind).clean (Core.init.read kind.quote.toNat) t with
    | none =>
      rw [cleanString, clean_bind_of_none hclean] at hrun
      cases hrun
    | some r => rfl
  obtain ⟨cs, rest, hcs, rfl⟩ := stringRun_sound (by rfl) hopen
  rw [cleanString_complete hcs rfl] at hrun
  split at hrun
  · next hlen =>
    refine ⟨cs, rest, ⟨hcs, hlen⟩, ?_⟩
    rw [literalText, List.append_assoc]
    rfl
  · cases hrun

end ScanM

/-! ## The literal at the head of a text -/

/-- The text begins with a literal exactly when that is the first token, and `Unescape` gives what the
literal stands for. -/
def LiteralExact (unicode : Unicode) (s : Scanner) (file : Option TokenFile) (kind : StrKind)
    (t : Bytes) : Prop :=
  (∀ lit, FirstToken unicode s file t kind.token lit ↔
    ∃ cs rest, IsLiteral kind cs ∧ t = literalText kind cs ++ rest ∧ lit = literalText kind cs) ∧
  ∀ cs rest, IsLiteral kind cs → t = literalText kind cs ++ rest →
    Strings.unescape (Character.texts cs) = some (Character.values cs)

/-- A literal is the first token, unless the bytes behind it are not a rune. -/
theorem firstToken_literal_iff (unicode : Unicode) (s : Scanner) (file : Option TokenFile)
    {kind : StrKind} {cs : List Character} (h : IsLiteral kind cs) (rest : Bytes) :
    FirstToken unicode s file (literalText kind cs ++ rest) kind.token (literalText kind cs) ↔
      Utf8.decodeRune rest ≠ (Utf8.runeError, 1) := by
  rw [firstToken_iff, ScanM.scan_literal unicode h, Ne, ← takeRune_eq_none]
  cases ScanM.takeRune rest with
  | none => simp
  | some r => simp

/-- What the scanner returns as a literal is one, at the head of the text. -/
theorem literal_of_firstToken {unicode : Unicode} {s : Scanner} {file : Option TokenFile}
    {kind : StrKind} {t lit : Bytes}
    (h : FirstToken unicode s file (kind.quote :: t) kind.token lit) :
    ∃ cs rest, IsLiteral kind cs ∧ kind.quote :: t = literalText kind cs ++ rest ∧
      lit = literalText kind cs := by
  obtain ⟨c, t', hclean⟩ := (firstToken_iff unicode s file _ _ _).mp h
  obtain ⟨cs, rest, hcs, htext⟩ := ScanM.literal_of_scan (by rw [hclean]; rfl)
  refine ⟨cs, rest, hcs, htext, ?_⟩
  rw [htext, ScanM.scan_literal unicode hcs] at hclean
  obtain ⟨r, -, heq⟩ := Option.map_eq_some_iff.mp hclean
  exact (congrArg (fun x => x.1.2) heq).symm

/-- The literals that are exact are those without an escape, or with an escape as the last
character, and with a rune behind them. -/
theorem literalExact_iff (unicode : Unicode) (s : Scanner) (file : Option TokenFile)
    (kind : StrKind) (t : Bytes) : LiteralExact unicode s file kind (kind.quote :: t) ↔
      ∀ cs rest, IsLiteral kind cs → kind.quote :: t = literalText kind cs ++ rest →
        (cs.any Character.isEscape = false ∨ ∀ x ∈ cs.getLast?, x.isEscape = true) ∧
          Utf8.decodeRune rest ≠ (Utf8.runeError, 1) := by
  constructor
  · rintro ⟨htoken, hunescape⟩ cs rest hcs htext
    refine ⟨(Character.unescape_texts_iff hcs.1).mp (hunescape cs rest hcs htext), ?_⟩
    have hfirst := (htoken _).mpr ⟨cs, rest, hcs, htext, rfl⟩
    rw [htext] at hfirst
    exact (firstToken_literal_iff unicode s file hcs rest).mp hfirst
  · intro h
    refine ⟨fun lit => ⟨literal_of_firstToken, ?_⟩, fun cs rest hcs htext => ?_⟩
    · rintro ⟨cs, rest, hcs, htext, rfl⟩
      rw [htext]
      exact (firstToken_literal_iff unicode s file hcs rest).mpr (h cs rest hcs htext).2
    · exact (Character.unescape_texts_iff hcs.1).mpr (h cs rest hcs htext).1

/-- The letter behind the escape is lost. -/
theorem newline_not_literalExact : ¬∀ (unicode : Unicode) (s : Scanner) (file : Option TokenFile)
    (kind : StrKind) (t : Bytes), LiteralExact unicode s file kind (kind.quote :: t) := by
  intro h
  have hcs : IsLiteral .str [.escapedChar (byte 'n'), .unicodeChar 97] := by
    refine ⟨?_, nofun⟩
    have hn : (Character.escapedChar (byte 'n')).Valid .str := .inl (by decide)
    have ha : (Character.unicodeChar 97).Valid .str := by
      refine ⟨?_, ?_, ?_, ?_⟩ <;> decide
    exact List.forall_mem_cons.mpr ⟨hn, List.forall_mem_singleton.mpr ha⟩
  have hexact := h noLetters zeroScanner none .str (Token.bytes ['\\', 'n', 'a', '"'])
  have hunescape := hexact.2 _ [] hcs rfl
  have hlast := (Character.unescape_texts_iff hcs.1).mp hunescape
  revert hlast
  decide

end OneJit.Go
