import OneJit.Go.Scanner

/-!
# How the input is delivered

`next` reads from its source once when the buffer does not begin with a full rune. Where that one
read does not complete the rune, its bytes are taken for errors. Where it always does, the scanner
does not depend on how the bytes are delivered.
-/

namespace OneJit.Go

/-- What is to be seen after `Scan`: the token and its text, the positions of `PosEnd` and the
errors. -/
structure Scanned where
  tok : Token
  lit : Bytes
  pos : Int
  endpos : Int
  errors : List ScanError
  deriving DecidableEq, Repr

/-- What is to be seen after each of some calls of `Scan`, or none when one of them panics. -/
def scanAll (unicode : Unicode) : Nat → Scanner → Input → Option (List Scanned)
  | 0, _, _ => some []
  | n + 1, s, i =>
    match (ScanM.scan unicode).run s i with
    | none => none
    | some ((tok, lit), s, i) =>
      (scanAll unicode n s i).map (⟨tok, lit, s.pos, s.endpos, s.errors⟩ :: ·)

/-- Inputs that deliver the same bytes without delay are scanned alike. -/
theorem scanAll_alike (unicode : Unicode) (n : Nat) (s : Scanner) {i j : Input} (h : i.Alike j) :
    scanAll unicode n s i = scanAll unicode n s j := by
  induction n generalizing s i j with
  | zero => rfl
  | succ n ih =>
    rw [scanAll, scanAll]
    have hscan := (ScanM.scan unicode).respects s h
    generalize (ScanM.scan unicode).run s i = x at hscan
    generalize (ScanM.scan unicode).run s j = y at hscan
    cases hscan with
    | none => rfl
    | @some x y hxy =>
      obtain ⟨⟨tok, lit⟩, s', i'⟩ := x
      obtain ⟨b, t', j'⟩ := y
      obtain ⟨rfl, rfl, halike⟩ := hxy
      change Option.map _ (scanAll unicode n s' i') = Option.map _ (scanAll unicode n s' j')
      rw [ih s' halike]

/-! ## Sources without delay -/

namespace Input

instance (i : Input) : Decidable i.Completes := inferInstanceAs (Decidable (_ ≤ _))

theorem Prompt.cons {i : Input} (h : i.Completes) (hstep : i.step.Prompt) : i.Prompt := by
  intro n
  cases n with
  | zero => exact h
  | succ n => exact hstep n

/-- No byte is late when none remains. -/
theorem Prompt.of_remaining_nil {i : Input} (h : i.remaining = []) : i.Prompt := by
  intro n
  induction n generalizing i with
  | zero =>
    change (Utf8.decodeRune i.remaining).2 ≤ i.fill.available.length
    rw [h]
    exact Nat.zero_le _
  | succ n ih =>
    refine ih ?_
    rw [Input.step, remaining_skip, remaining_fill, h, List.drop_nil]

/-- The bytes after the rune at the head. -/
def rest (bs : Bytes) : Bytes := bs.drop (Utf8.decodeRune bs).2

theorem read_ne {src : List Piece} {max : Nat} (hsrc : src ≠ []) (hmax : 0 < max) :
    (read src max).1 ≠ [] := by
  obtain _ | ⟨piece, src⟩ := src
  · exact absurd rfl hsrc
  · rw [read]
    split
    · exact piece.2
    · change piece.1.take max ≠ []
      rw [Ne, List.take_eq_nil_iff, not_or]
      exact ⟨Nat.pos_iff_ne_zero.mp hmax, piece.2⟩

theorem available_readMore {i : Input} (h : i.buf.length < bufSize) :
    i.readMore.available = i.available ++ (read i.src (bufSize - i.buf.length)).1 := by
  rw [readMore, if_neg (Nat.not_le.mpr h)]
  exact List.drop_append_of_le_length i.le

/-- What was at hand before the buffer is filled is still there. -/
theorem available_prefix_refill (i : Input) : i.available <+: i.refill.available := by
  have hread : ∀ j : Input, j.available <+: j.readMore.available := by
    intro j
    by_cases hj : j.buf.length < bufSize
    · rw [available_readMore hj]
      exact List.prefix_append _ _
    · exact ⟨[], by rw [readMore, if_pos (Nat.not_lt.mp hj), List.append_nil]⟩
  rw [refill]
  split
  · exact hread i.shift
  · exact hread i

/-- Bytes are at hand when there are any. -/
theorem fill_available_ne {i : Input} (h : i.remaining ≠ []) : i.fill.available ≠ [] := by
  by_cases hfull : Utf8.fullRune i.available = true
  · rw [fill, if_pos hfull]
    intro hnil
    rw [hnil] at hfull
    cases hfull
  rw [fill, if_neg hfull]
  by_cases hnil : i.available = []
  · have hsrc : i.src ≠ [] := by
      rintro hsrc
      rw [remaining, hnil, hsrc] at h
      exact h rfl
    have hend : i.buf.length ≤ i.start := List.drop_eq_nil_iff.mp hnil
    rw [refill]
    split
    · have hlen : i.shift.buf.length < bufSize := by
        change i.available.length < bufSize
        rw [hnil]
        decide
      rw [available_readMore hlen, available_shift, hnil]
      exact read_ne hsrc (Nat.sub_pos_of_lt hlen)
    · next hstart =>
      have hlen : i.buf.length < bufSize := by
        unfold bufSize at hstart ⊢
        omega
      rw [available_readMore hlen, hnil]
      exact read_ne hsrc (Nat.sub_pos_of_lt hlen)
  · intro hrefill
    have hprefix := i.available_prefix_refill
    rw [hrefill] at hprefix
    exact hnil (List.prefix_nil.mp hprefix)

end Input

/-! ## The scanner -/

/-- The scanner does not depend on how its source delivers the bytes, as long as each rune is
delivered in whole when it is taken. -/
theorem scanAll_delivery (unicode : Unicode) (s : Scanner) (file : Option TokenFile) (n : Nat)
    {p q : List Piece} (hbytes : flatten p = flatten q) (hp : (Input.init p).Prompt)
    (hq : (Input.init q).Prompt) :
    scanAll unicode n (s.init file) (.init p) = scanAll unicode n (s.init file) (.init q) :=
  scanAll_alike unicode n (s.init file) ⟨hbytes, hp, hq⟩

/-- No rune is a letter or a digit by the tables. -/
def noLetters : Unicode := ⟨fun _ => false, fun _ => false, by simp, by simp⟩

/-- A scanner that has not scanned anything. -/
def zeroScanner : Scanner :=
  { tok := .illegal, lit := [], status := .normal, lastNonComment := .illegal, builder := []
    ch := 0, unread := 0, file := none, pos := 0, endpos := 0, errors := [] }

/-- The euro sign. -/
def euro : Piece := ⟨[0xE2, 0x82, 0xAC], by simp⟩

/-- The euro sign, one byte after another. -/
def euroBytes : List Piece := [⟨[0xE2], by simp⟩, ⟨[0x82], by simp⟩, ⟨[0xAC], by simp⟩]

/-- The euro sign after a letter, cut behind its first byte. -/
def euroCut : List Piece := [⟨[0x78, 0xE2], by simp⟩, ⟨[0x82, 0xAC], by simp⟩]

theorem scanAll_delivery_euro : scanAll noLetters 2 (zeroScanner.init (some (.new "f" 0)))
      (.init [⟨[0x78], by simp⟩, euro]) =
    scanAll noLetters 2 (zeroScanner.init (some (.new "f" 0))) (.init euroCut) := by
  have hwhole : (Input.init [⟨[0x78], by simp⟩, euro]).Prompt :=
    .cons (by decide) (.cons (by decide) (.of_remaining_nil (by decide)))
  have hcut : (Input.init euroCut).Prompt :=
    .cons (by decide) (.cons (by decide) (.of_remaining_nil (by decide)))
  exact scanAll_delivery noLetters zeroScanner (some (.new "f" 0)) 2 rfl hwhole hcut

theorem euroBytes_not_delivery :
    ¬∀ (unicode : Unicode) (s : Scanner) (file : Option TokenFile) (n : Nat) (p q : List Piece),
      flatten p = flatten q →
        scanAll unicode n (s.init file) (.init p) = scanAll unicode n (s.init file) (.init q) := by
  intro h
  have heq := h noLetters zeroScanner (some (.new "f" 0)) 1 [euro] euroBytes rfl
  have hlen := congrArg (Option.map (List.map fun x => x.errors.length)) heq
  revert hlen
  decide +kernel

end OneJit.Go
