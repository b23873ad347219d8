import OneJit.Go.Scanner

/-!
# The loops of the scanner end

Each round of a loop of the scanner takes a rune, and stops at the end of the input. So the fuel of a
loop, which is more than the number of runes left, is never used up.
-/

namespace OneJit.Go

/-- Whether a rune is put back. -/
def putBack (unread : Rune) : Nat :=
  if unread = runeNone ∨ unread = runeTooManyErrors then 0 else 1

/-- The number of runes that can be taken before the end of the input is found, at most. -/
def runesLeft (s : Scanner) (i : Input) : Nat := i.remaining.length + putBack s.unread

/-- An error does not put a rune back. -/
theorem putBack_error {s s' : Scanner} {msg : String} (h : s.error msg = some s') :
    putBack s'.unread ≤ putBack s.unread := by
  obtain ⟨pos, -, rfl⟩ := Option.map_eq_some_iff.mp h
  change putBack (if 10 ≤ (s.errors ++ [ScanError.mk pos msg]).length then _ else _) ≤ _
  split
  · exact Nat.zero_le _
  · exact Nat.le_refl _

namespace Input

theorem length_step_le (i : Input) : i.step.remaining.length ≤ i.remaining.length := by
  rw [step, remaining_skip, remaining_fill, List.length_drop]
  exact Nat.sub_le _ _

theorem length_step_lt {i : Input} (h : 0 < (Utf8.decodeRune i.fill.available).2) :
    i.step.remaining.length < i.remaining.length := by
  have hle := Utf8.decodeRune_le i.fill.available
  have hlen : i.fill.available.length ≤ i.remaining.length := by
    rw [← i.remaining_fill, remaining, List.length_append]
    exact Nat.le_add_right _ _
  rw [step, remaining_skip, remaining_fill, List.length_drop]
  omega

end Input

/-- The loop of `next` takes a byte at least, unless the input is at its end. -/
theorem nextLoop_lt {n : Nat} {s s' : Scanner} {i i' : Input} {ch : Rune}
    (h : nextLoop n s i = some (ch, s', i')) :
    putBack s'.unread ≤ putBack s.unread ∧
      (ch = runeEOF ∧ i'.remaining.length ≤ i.remaining.length ∨
        i'.remaining.length < i.remaining.length) := by
  induction n generalizing s i with
  | zero =>
    cases h
    exact ⟨Nat.le_refl _, .inl ⟨rfl, Nat.le_refl _⟩⟩
  | succ n ih =>
    unfold nextLoop at h
    dsimp only at h
    split at h
    · cases h
      exact ⟨Nat.le_refl _, .inl ⟨rfl, i.length_step_le⟩⟩
    · next hsize =>
      have hlt := Input.length_step_lt (Nat.pos_of_ne_zero hsize)
      split at h
      · obtain ⟨s₁, herror, hloop⟩ := Option.bind_eq_some_iff.mp h
        obtain ⟨hback, hrest⟩ := ih hloop
        have hput := putBack_error herror
        exact ⟨Nat.le_trans hback hput, .inr (by omega)⟩
      · cases h
        exact ⟨Nat.le_refl _, .inr hlt⟩

/-! ## What computations leave -/

namespace ScanM

variable {α β : Type}

/-- The computation does not put a rune back. -/
def Keeps (m : ScanM α) : Prop :=
  ∀ s i a s' i', m.run s i = some (a, s', i') → runesLeft s' i' ≤ runesLeft s i

theorem run_bind (m : ScanM α) (f : α → ScanM β) (s : Scanner) (i : Input) :
    (m >>= f).run s i = (m.run s i).bind fun (a, s, i) => (f a).run s i := rfl

theorem Keeps.bind {m : ScanM α} (hm : m.Keeps) {f : α → ScanM β} (hf : ∀ a, (f a).Keeps) :
    (m >>= f).Keeps := by
  intro s i b s' i' h
  rw [run_bind] at h
  obtain ⟨⟨a, s₁, i₁⟩, h₁, h₂⟩ := Option.bind_eq_some_iff.mp h
  exact Nat.le_trans (hf a s₁ i₁ b s' i' h₂) (hm s i a s₁ i₁ h₁)

theorem keeps_pure (a : α) : Keeps (pure a : ScanM α) := by
  rintro s i _ _ _ ⟨⟩
  exact Nat.le_refl _

theorem keeps_modify {f : Scanner → Scanner} (hf : ∀ s, (f s).unread = s.unread) :
    Keeps (modify f) := by
  rintro s i _ _ _ ⟨⟩
  refine Nat.le_of_eq ?_
  rw [runesLeft, runesLeft, hf]

theorem keeps_addRune (ch : Rune) : Keeps (addRune ch) := by
  refine keeps_modify fun s => ?_
  unfold Scanner.addRune
  split <;> rfl

theorem keeps_error (msg : String) : Keeps (error msg) := by
  intro s i a s' i' h
  obtain ⟨⟨b, s₁⟩, h₁, hrun⟩ := Option.map_eq_some_iff.mp h
  obtain ⟨s₂, h₂, hret⟩ := Option.map_eq_some_iff.mp h₁
  cases hret
  cases hrun
  exact Nat.add_le_add_left (putBack_error h₂) _

/-- A rune is taken, unless the input is at its end. -/
theorem next_spec {s s' : Scanner} {i i' : Input} {ch : Rune}
    (h : next.run s i = some (ch, s', i')) :
    runesLeft s' i' ≤ runesLeft s i ∧ (ch = runeEOF ∨ runesLeft s' i' < runesLeft s i) := by
  by_cases hback : s.unread = runeNone
  · have hrun : nextLoop (i.remaining.length + 1) s i = some (ch, s', i') := by
      rw [← h]
      exact (if_neg (not_not_intro hback)).symm
    obtain ⟨hput, ⟨rfl, hle⟩ | hlt⟩ := nextLoop_lt hrun
    · exact ⟨Nat.add_le_add hle hput, .inl rfl⟩
    · have hlt := Nat.add_lt_add_of_lt_of_le hlt hput
      exact ⟨Nat.le_of_lt hlt, .inr hlt⟩
  · by_cases hmany : s.unread = runeTooManyErrors
    · have hrun : some (runeEOF, { s with ch := runeEOF }, i) = some (ch, s', i') := by
        rw [← h]
        exact ((if_pos hback).trans (if_pos hmany)).symm
      cases hrun
      exact ⟨Nat.le_refl _, .inl rfl⟩
    · have hrun : some (s.unread, { s with ch := s.unread, unread := runeNone }, i) =
          some (ch, s', i') := by
        rw [← h]
        exact ((if_pos hback).trans (if_neg hmany)).symm
      cases hrun
      have hlt : putBack runeNone < putBack s.unread := by
        rw [putBack, putBack, if_pos (.inl rfl), if_neg (not_or.mpr ⟨hback, hmany⟩)]
        exact Nat.one_pos
      have hlt := Nat.add_lt_add_left hlt i.remaining.length
      exact ⟨Nat.le_of_lt hlt, .inr hlt⟩

theorem keeps_next : Keeps next := fun _ _ _ _ _ h => (next_spec h).1

/-! ## The loops -/

/-- What follows a computation may rely on the runes that are left. -/
theorem Keeps.bind_congr {m : ScanM α} (hm : m.Keeps) {f g : α → ScanM β} {s : Scanner} {i : Input}
    (h : ∀ a s' i', runesLeft s' i' ≤ runesLeft s i → (f a).run s' i' = (g a).run s' i') :
    (m >>= f).run s i = (m >>= g).run s i := by
  rw [run_bind, run_bind]
  cases hrun : m.run s i with
  | none => rfl
  | some r => exact h _ _ _ (hm s i r.1 r.2.1 r.2.2 hrun)

/-- What follows the next rune may rely on fewer runes, unless the input is at its end. -/
theorem next_bind_congr {f g : Rune → ScanM β} {s : Scanner} {i : Input}
    (heof : f runeEOF = g runeEOF)
    (h : ∀ ch s' i', runesLeft s' i' < runesLeft s i → (f ch).run s' i' = (g ch).run s' i') :
    (next >>= f).run s i = (next >>= g).run s i := by
  rw [run_bind, run_bind]
  cases hrun : next.run s i with
  | none => rfl
  | some r =>
    obtain ⟨ch, s', i'⟩ := r
    obtain rfl | hlt := (next_spec hrun).2
    · change (f runeEOF).run s' i' = (g runeEOF).run s' i'
      rw [heof]
    · exact h ch s' i' hlt

/-- A loop does not use up a fuel that is large enough for the runes that are left. -/
def Lasts (loop : Nat → ScanM α) : Prop :=
  ∀ {n m : Nat} {s : Scanner} {i : Input}, runesLeft s i + 1 < n → runesLeft s i + 1 < m →
    (loop n).run s i = (loop m).run s i

/-- A loop lasts when each round does, given that the loop does with fewer runes left. -/
theorem lasts_of_round {ι : Type} {l : ι → Nat → ScanM α}
    (hround : ∀ a n m s i, 0 < n → 0 < m →
      (∀ a' s' i', runesLeft s' i' < runesLeft s i →
        (l a' n).run s' i' = (l a' m).run s' i') →
      (l a (n + 1)).run s i = (l a (m + 1)).run s i) (a : ι) : Lasts (l a) := by
  intro n m s i hn hm
  induction n generalizing m s i a with
  | zero => exact absurd hn (Nat.not_lt_zero _)
  | succ n ih =>
    obtain _ | m := m
    · exact absurd hm (Nat.not_lt_zero _)
    · refine hround a n m s i (by omega) (by omega) fun a' s' i' hlt => ?_
      exact ih a' (by omega) (by omega)

theorem isLetter_eof (unicode : Unicode) : isLetter unicode runeEOF = false := by
  rw [← Bool.not_eq_true]
  intro h
  have hletter : unicode.isLetter runeEOF := by
    rcases Bool.or_eq_true_iff.mp h with h | h
    · exact absurd h (by decide)
    · exact h
  exact absurd (unicode.letter_nonneg _ hletter) (by decide)

theorem keeps_hexDigitsLoop (kind : StrKind) (n x : Nat) : Keeps (hexDigitsLoop kind n x) := by
  induction n generalizing x with
  | zero => exact keeps_pure _
  | succ n ih =>
    unfold hexDigitsLoop
    refine keeps_next.bind fun ch => ?_
    split
    · exact (keeps_error _).bind fun _ => keeps_pure _
    · split
      · exact (keeps_addRune ch).bind fun _ => ih _
      · exact (keeps_error _).bind fun _ => (keeps_addRune ch).bind fun _ => ih _

theorem keeps_errorUnless (b : Bool) (msg : String) : Keeps (errorUnless b msg) := by
  unfold errorUnless
  cases b with
  | false => exact (keeps_error msg).bind fun _ => keeps_pure _
  | true => exact (keeps_pure _).bind fun _ => keeps_pure _

theorem keeps_nextIf (b : Bool) (ch : Rune) : Keeps (nextIf b ch) := by
  cases b with
  | false => exact keeps_pure ch
  | true => exact keeps_next

theorem keeps_scanUnicodeHexDigits (kind : StrKind) (initial : Rune) (n : Nat) :
    Keeps (scanUnicodeHexDigits kind initial n) := by
  unfold scanUnicodeHexDigits
  refine (keeps_addRune _).bind fun _ => (keeps_addRune _).bind fun _ => ?_
  refine (keeps_hexDigitsLoop kind n 0).bind fun x => ?_
  cases x with
  | none => exact keeps_pure _
  | some x => exact (keeps_errorUnless _ _).bind fun _ => keeps_pure _

theorem keeps_octalDigitsLoop (kind : StrKind) (n : Nat) (ch : Rune) (x : Nat) :
    Keeps (octalDigitsLoop kind n ch x) := by
  induction n generalizing ch x with
  | zero => exact keeps_pure _
  | succ n ih =>
    unfold octalDigitsLoop
    split
    · exact (keeps_error _).bind fun _ => keeps_pure _
    · exact (keeps_errorUnless _ _).bind fun _ => (keeps_addRune ch).bind fun _ =>
        (keeps_nextIf _ ch).bind fun ch' => ih ch' _

theorem keeps_scanUnicodeOctalDigits (kind : StrKind) (ch : Rune) (n max : Nat) :
    Keeps (scanUnicodeOctalDigits kind ch n max) := by
  unfold scanUnicodeOctalDigits
  refine (keeps_addRune _).bind fun _ => (keeps_octalDigitsLoop kind n ch 0).bind fun x => ?_
  cases x with
  | none => exact keeps_pure _
  | some x => exact (keeps_errorUnless _ _).bind fun _ => keeps_pure _

theorem keeps_scanEscape (kind : StrKind) (ch : Rune) : Keeps (scanEscape kind ch) := by
  unfold scanEscape
  split
  · exact (keeps_addRune _).bind fun _ => (keeps_addRune ch).bind fun _ => keeps_pure _
  split
  · exact keeps_scanUnicodeHexDigits kind ch 8
  split
  · exact keeps_scanUnicodeHexDigits kind ch 4
  split
  · exact keeps_scanUnicodeHexDigits kind ch 2
  split
  · exact keeps_scanUnicodeOctalDigits kind ch 3 0xff
  · exact (keeps_error _).bind fun _ => (keeps_addRune _).bind fun _ =>
      (keeps_addRune ch).bind fun _ => keeps_pure _

theorem stringLoop_lasts (kind : StrKind) (size : Nat) (escape : Bool) :
    Lasts fun n => stringLoop kind n size escape := by
  refine lasts_of_round (l := fun (a : Nat × Bool) n => stringLoop kind n a.1 a.2) ?_ (size, escape)
  rintro ⟨size, escape⟩ n m s i - - ih
  unfold stringLoop
  refine next_bind_congr (by rw [if_pos rfl, if_pos rfl]) fun ch s₁ i₁ h₁ => ?_
  dsimp only
  split
  · rfl
  split
  · rfl
  split
  · refine (keeps_scanEscape kind ch).bind_congr fun cont s₂ i₂ h₂ => ?_
    cases cont with
    | false => rfl
    | true => exact ih (size + 1, false) s₂ i₂ (by omega)
  split
  · rfl
  split
  · exact ih (size, true) s₁ i₁ h₁
  · refine (keeps_addRune ch).bind_congr fun _ s₂ i₂ h₂ => ?_
    exact ih (size + 1, false) s₂ i₂ (by omega)

theorem skipLoop_eof (n : Nat) : skipLoop n runeEOF = pure runeEOF := by
  cases n with
  | zero => rfl
  | succ n =>
    rw [skipLoop, if_neg (by decide), if_neg (by decide), if_neg (by decide)]

end ScanM

end OneJit.Go
