import OneJit.Go.ScanFuel
import OneJit.Go.Uniform

/-!
# Steps without errors

The equations of the smallest computations of the scanner, for runs that find no error and where no
rune is put back.
-/

namespace OneJit.Go

/-! ## The rune at the head -/

@[simp] theorem takeRune_nil : ScanM.takeRune [] = some (runeEOF, []) := rfl

/-- The encoding of a valid rune is taken as the rune. -/
theorem takeRune_encodeRune {r : Nat} (h : Utf8.validRune r = true) (t : Bytes) :
    ScanM.takeRune (Utf8.encodeRune r ++ t) = some ((r : Rune), t) := by
  have hlen : (Utf8.encodeRune r).length ≠ 0 := by
    simpa using Utf8.encodeRune_ne_nil r
  have herror : ¬(r = Utf8.runeError ∧ (Utf8.encodeRune r).length ≤ 1) := by
    rintro ⟨rfl, hle⟩
    exact absurd hle (by decide)
  unfold ScanM.takeRune
  rw [Utf8.decodeRune_encodeRune h]
  dsimp only
  rw [if_neg hlen, if_neg herror, List.drop_left]

theorem takeRune_byte {b : UInt8} (h : b.toNat < 0x80) (t : Bytes) :
    ScanM.takeRune (b :: t) = some ((b.toNat : Rune), t) := by
  unfold ScanM.takeRune
  rw [Utf8.decodeRune_ascii h]
  dsimp only
  rw [if_neg Nat.one_ne_zero, if_neg, List.drop_succ_cons, List.drop_zero]
  rintro ⟨heq, -⟩
  rw [Utf8.runeError] at heq
  omega

/-- What is taken is the end of the text, or a valid rune. -/
theorem takeRune_inv {t t' : Bytes} {ch : Rune} (h : ScanM.takeRune t = some (ch, t')) :
    (t = [] ∧ ch = runeEOF ∧ t' = []) ∨
      ∃ r : Nat, Utf8.validRune r = true ∧ ch = r ∧ t = Utf8.encodeRune r ++ t' := by
  obtain _ | ⟨b, bs⟩ := t
  · rw [takeRune_nil, Option.some.injEq, Prod.mk.injEq] at h
    exact .inl ⟨rfl, h.1.symm, h.2.symm⟩
  · have hpos := Utf8.decodeRune_pos (List.cons_ne_nil b bs)
    unfold ScanM.takeRune at h
    dsimp only at h
    rw [if_neg (Nat.ne_of_gt hpos)] at h
    split at h
    · cases h
    · next hvalid =>
      have hne : Utf8.decodeRune (b :: bs) ≠ (Utf8.runeError, 1) := by
        intro heq
        rw [heq] at hvalid
        exact hvalid ⟨rfl, Nat.le_refl 1⟩
      cases h
      refine .inr ⟨_, Utf8.validRune_decodeRune hne, rfl, ?_⟩
      rw [Utf8.encodeRune_decodeRune hne, List.take_append_drop]

/-- No rune is taken exactly when none starts at the head. -/
theorem takeRune_eq_none {t : Bytes} :
    ScanM.takeRune t = none ↔ Utf8.decodeRune t = (Utf8.runeError, 1) := by
  have hone : ∀ r : Nat × Nat, r.2 ≠ 0 → (r.1 = Utf8.runeError ∧ r.2 ≤ 1 ↔
      r = (Utf8.runeError, 1)) := by
    intro r hr
    rw [Prod.ext_iff]
    exact and_congr_right fun _ => ⟨fun hle => by dsimp only; omega, fun heq => Nat.le_of_eq heq⟩
  unfold ScanM.takeRune
  dsimp only
  by_cases hend : (Utf8.decodeRune t).2 = 0
  · rw [if_pos hend]
    refine ⟨nofun, fun heq => ?_⟩
    rw [heq] at hend
    cases hend
  · rw [if_neg hend, ← hone _ hend]
    split
    · next herror => exact ⟨fun _ => herror, fun _ => rfl⟩
    · next herror => exact ⟨nofun, fun h => absurd h herror⟩

/-- A rune below 128 is taken from its byte. -/
theorem takeRune_low {t t' : Bytes} {r : Nat} (hr : r < 0x80)
    (h : ScanM.takeRune t = some ((r : Rune), t')) : t = UInt8.ofNat r :: t' := by
  rcases takeRune_inv h with ⟨-, heof, -⟩ | ⟨r', -, heq, rfl⟩
  · have hneg : (r : Int) = -1 := heof
    omega
  · have heq : r = r' := Int.ofNat.inj heq
    rw [← heq, Utf8.encodeRune_ascii hr]
    rfl

/-- The head of a text is a byte of a class of runes below 128, or no rune of the class. -/
theorem takeRune_class {isDigit : Rune → Bool}
    (hlow : ∀ ch, isDigit ch = true → 0 ≤ ch ∧ ch < 0x80) (t : Bytes) :
    (∃ d t', t = d :: t' ∧ isDigit d.toNat = true ∧ d.toNat < 0x80) ∨
      (∀ d ∈ t.head?, isDigit d.toNat = false) ∧
        ∀ ch t', ScanM.takeRune t = some (ch, t') → isDigit ch = false := by
  by_cases hhead : ∃ d t', t = d :: t' ∧ isDigit d.toNat = true
  · obtain ⟨d, t', rfl, hd⟩ := hhead
    have hlt : (d.toNat : Int) < 0x80 := (hlow _ hd).2
    exact .inl ⟨d, t', rfl, hd, by omega⟩
  · right
    have hnone : ∀ d ∈ t.head?, isDigit d.toNat = false := by
      intro d hd
      obtain ⟨t', rfl⟩ := List.head?_eq_some_iff.mp hd
      simpa using fun htrue => hhead ⟨d, t', rfl, htrue⟩
    refine ⟨hnone, fun ch t' htake => ?_⟩
    by_contra htrue
    rw [Bool.not_eq_false] at htrue
    obtain ⟨h0, h1⟩ := hlow ch htrue
    obtain ⟨r, rfl⟩ := Int.eq_ofNat_of_zero_le h0
    have h1 : (r : Int) < 0x80 := h1
    have hcons := takeRune_low (by omega) htake
    have hfalse := hnone (UInt8.ofNat r) (by rw [hcons]; rfl)
    rw [UInt8.toNat_ofNat', Nat.mod_eq_of_lt (by omega)] at hfalse
    rw [hfalse] at htrue
    cases htrue

/-! ## The core -/

namespace Core

/-- The core before the first call of `Scan`. -/
def init : Core := ⟨.illegal, [], .normal, .illegal, [], runeBOF, runeNone⟩

/-- More bytes in the text. -/
def push (c : Core) (bs : Bytes) : Core := { c with builder := c.builder ++ bs }

/-- The rune that was taken last. -/
def read (c : Core) (ch : Rune) : Core := { c with ch := ch }

@[simp] theorem unread_push (c : Core) (bs : Bytes) : (c.push bs).unread = c.unread := rfl

@[simp] theorem unread_read (c : Core) (ch : Rune) : (c.read ch).unread = c.unread := rfl

/-- Bytes below 128 that are taken and added, one after another. -/
def takeBytes (c : Core) (bs : Bytes) : Core :=
  bs.foldl (fun c b => (c.read b.toNat).push [b]) c

@[simp] theorem takeBytes_nil (c : Core) : c.takeBytes [] = c := rfl

@[simp] theorem takeBytes_cons (c : Core) (b : UInt8) (bs : Bytes) :
    c.takeBytes (b :: bs) = ((c.read b.toNat).push [b]).takeBytes bs := rfl

theorem push_push (c : Core) (bs more : Bytes) : (c.push bs).push more = c.push (bs ++ more) := by
  rw [push, push, push, List.append_assoc]

theorem read_push (c : Core) (bs : Bytes) (ch : Rune) :
    (c.push bs).read ch = (c.read ch).push bs := rfl

theorem takeBytes_eq (c : Core) (bs : Bytes) : ∃ ch, c.takeBytes bs = (c.read ch).push bs := by
  induction bs generalizing c with
  | nil => exact ⟨c.ch, by simp [push, read]⟩
  | cons b bs ih =>
    obtain ⟨ch, heq⟩ := ih ((c.read b.toNat).push [b])
    refine ⟨ch, ?_⟩
    rw [takeBytes_cons, heq, read_push, push_push, List.singleton_append]
    rfl

@[simp] theorem unread_takeBytes (c : Core) (bs : Bytes) :
    (c.takeBytes bs).unread = c.unread := by
  obtain ⟨ch, heq⟩ := c.takeBytes_eq bs
  rw [heq, unread_push, unread_read]

end Core

namespace ScanM

variable {α β : Type}

theorem writeRune_of_nonneg (bs : Bytes) {ch : Rune} (h : 0 ≤ ch) :
    Scanner.writeRune bs ch = bs ++ Utf8.encodeRune ch.toNat := by
  obtain ⟨r, rfl⟩ := Int.eq_ofNat_of_zero_le h
  rw [Scanner.writeRune]
  split
  · next hlow =>
    have hlow : (r : Int) < 0x80 := hlow
    have hmod : ((r : Int) % 2 ^ 8).toNat = r := by omega
    rw [Utf8.encodeRune_ascii (by omega), UInt8.ofInt, hmod]
    rfl
  · rfl

theorem clean_addRune {ch : Rune} (h : 0 ≤ ch) (c : Core) (t : Bytes) :
    (addRune ch).clean c t = some ((), c.push (Utf8.encodeRune ch.toNat), t) := by
  have heof : ch ≠ runeEOF := by
    rintro rfl
    exact absurd h (by decide)
  have hadd : c.scanner.addRune ch =
      { c.scanner with builder := c.builder ++ Utf8.encodeRune ch.toNat } := by
    rw [Scanner.addRune, if_neg heof, writeRune_of_nonneg _ h]
    rfl
  rw [addRune, clean_modify _ fun s => errors_addRune s ch, hadd]
  rfl

/-- A byte below 128 is added. -/
theorem clean_addRune_byte {b : UInt8} (h : b.toNat < 0x80) (c : Core) (t : Bytes) :
    (addRune b.toNat).clean c t = some ((), c.push [b], t) := by
  rw [clean_addRune (Int.natCast_nonneg _), Int.toNat_natCast, Utf8.encodeRune_ascii h,
    UInt8.ofNat_toNat]

/-- The next rune, when none was put back. -/
theorem clean_next_take {c : Core} (h : c.unread = runeNone) (t : Bytes) :
    next.clean c t = (takeRune t).map fun r => (r.1, c.read r.1, r.2) := by
  rw [clean_next, cleanNext, if_neg (not_not_intro h)]
  rfl

theorem clean_errorUnless (b : Bool) (msg : String) (c : Core) (t : Bytes) :
    (errorUnless b msg).clean c t = if b then some ((), c, t) else none := by
  cases b with
  | false =>
    have hrun : errorUnless false msg = error msg >>= fun _ => pure () := rfl
    rw [hrun, clean_bind, clean_error, Option.bind_none]
    rfl
  | true =>
    have hrun : errorUnless true msg = pure true >>= fun _ => pure () := rfl
    rw [hrun, clean_bind, clean_pure, Option.bind_some, clean_pure]
    rfl

/-- A loop that lasts does the same with each fuel that is large enough. -/
theorem Lasts.clean {l : Nat → ScanM α} (h : Lasts l) {n m : Nat} {c : Core} {t : Bytes}
    (hn : t.length + 2 < n) (hm : t.length + 2 < m) : (l n).clean c t = (l m).clean c t := by
  have hput : putBack c.unread ≤ 1 := by
    rw [putBack]
    split <;> omega
  have hleft : runesLeft c.scanner (.ofText t) ≤ t.length + 1 := by
    rw [runesLeft, Input.remaining_ofText]
    exact Nat.add_le_add_left hput _
  have hrun : (l n).run c.scanner (.ofText t) = (l m).run c.scanner (.ofText t) :=
    h (by omega) (by omega)
  rw [ScanM.clean, ScanM.clean, on, on, hrun]

/-! ## The end of a call -/

theorem clean_setResult (tok : Token) (c : Core) (t : Bytes) :
    (setResult tok).clean c t = some ((), (c.scanner.setResult tok).core, t) :=
  clean_modify (·.setResult tok) (fun _ => rfl) c t

theorem clean_pos (c : Core) (t : Bytes) :
    (modify fun s => { s with pos := s.endpos }).clean c t = some ((), c, t) :=
  clean_modify (fun s => { s with pos := s.endpos }) (fun _ => rfl) c t

theorem clean_cached (c : Core) (t : Bytes) :
    (modify fun s => { s with status := .cached, lastNonComment := .semicolon }).clean c t =
      some ((), { c with status := .cached, lastNonComment := .semicolon }, t) :=
  clean_modify (fun s => { s with status := .cached, lastNonComment := .semicolon }) (fun _ => rfl)
    c t

theorem clean_clearString (c : Core) (t : Bytes) :
    clearString.clean c t = some ((), { c with builder := [] }, t) :=
  clean_modify (fun s => { s with builder := [] }) (fun _ => rfl) c t

theorem scanItem_clean (unicode : Unicode) (c : Core) (t : Bytes) : (scanItem unicode).clean c t =
    (scanToken unicode c.ch).clean { c with builder := [] } t := by
  rw [scanItem_eq, clean_bind_some (clean_clearString c t), clean_get]
  rfl

/-- What `Scan` returns after a token. -/
theorem endScan_clean (c : Core) (t : Bytes) : endScan.clean c t =
    if c.status = .insertSemi then
      some ((.semicolon, []), { c with status := .cached, lastNonComment := .semicolon }, t)
    else some ((c.tok, c.lit), c, t) := by
  have hstatus : c.scanner.status = c.status := rfl
  rw [endScan, clean_get, hstatus]
  split
  · rw [clean_bind_some (clean_cached c t), clean_pure]
  · rw [clean_pure]
    rfl

theorem scanFrom_clean (unicode : Unicode) {ch : Rune} (h : ch ≠ rune '\n') (c : Core) (t : Bytes) :
    (scanFrom unicode ch).clean c t = (scanItem unicode >>= fun _ => endScan).clean c t := by
  rw [scanFrom, clean_bind_some (clean_pos c t), if_pos h]

/-! ## The first call -/

/-- A byte with which a token begins. -/
def Starts (b : UInt8) : Prop := b.toNat < 0x80 ∧ isSpace b.toNat = false

theorem skipSpaces_first {b : UInt8} (hb : Starts b) (t : Bytes) :
    skipSpaces.clean .init (b :: t) = some ((b.toNat : Rune), Core.init.read b.toNat, t) := by
  obtain ⟨hlow, hspace⟩ := hb
  have hnext : next.clean .init (b :: t) = some ((b.toNat : Rune), Core.init.read b.toNat, t) := by
    have hunread : Core.init.unread = runeNone := rfl
    rw [clean_next_take hunread, takeRune_byte hlow]
    rfl
  have hch : Core.init.scanner.ch = runeBOF := rfl
  have hne : ∀ ch : Int, ch < 0 ∨ 0x80 ≤ ch → (b.toNat : Int) ≠ ch := by
    intro ch hch heq
    omega
  simp only [isSpace, Bool.or_eq_false_iff, decide_eq_false_iff_not] at hspace
  obtain ⟨⟨⟨⟨htab, hreturn⟩, hnewline⟩, hblank⟩, -⟩ := hspace
  have hstop : ∀ n, skipLoop (n + 1) (b.toNat : Rune) = pure (b.toNat : Rune) := by
    intro n
    rw [skipLoop, if_neg (hne _ (by decide)), if_neg (by
      rintro (h | h | h | h)
      · exact hne _ (by decide) h
      · exact htab h
      · exact hreturn h
      · exact hblank h), if_neg hnewline]
  rw [skipSpaces, clean_get, clean_bind_some (clean_fuel _ _), hch, skipLoop, if_pos rfl,
    clean_bind_some hnext, if_neg (hne _ (by decide))]
  rw [clean_bind_some (clean_pure _ _ _), List.length_cons]
  dsimp only
  rw [hstop, clean_pure]

/-- The first call of `Scan` when the text begins with a token. -/
theorem scan_first (unicode : Unicode) {b : UInt8} (hb : Starts b) (t : Bytes) :
    (scan unicode).clean .init (b :: t) =
      (scanItem unicode >>= fun _ => endScan).clean (Core.init.read b.toNat) t := by
  have hnewline : (b.toNat : Rune) ≠ rune '\n' := by
    intro heq
    have hspace := hb.2
    rw [heq] at hspace
    exact absurd hspace (by decide)
  have hstatus : Core.init.scanner.status ≠ .cached := by decide
  rw [scan_eq, clean_get, if_neg hstatus, clean_bind_some (skipSpaces_first hb t),
    scanFrom_clean unicode hnewline]

end ScanM

end OneJit.Go
