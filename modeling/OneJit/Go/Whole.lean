import OneJit.Go.CleanSteps

/-!
# A text as a whole

A source that has a whole text to deliver fills the buffer whenever it is asked. So each rune is there
when it is taken, and the first token depends on the text only.
-/

namespace OneJit.Go

namespace Input

/-- The input whose source delivers a text at once. -/
def whole (t : Bytes) : Input := .init (if h : t = [] then [] else [⟨t, h⟩])

theorem remaining_whole (t : Bytes) : (whole t).remaining = t := by
  rw [whole]
  by_cases h : t = []
  · rw [dif_pos h, h]
    rfl
  · rw [dif_neg h]
    exact List.append_nil t

/-- The buffer is full, or everything was read, or nothing was yet. -/
structure Full (i : Input) : Prop where
  src : i.src.length ≤ 1
  buf : i.src = [] ∨ i.buf.length = bufSize ∨ i.buf = []

/-- Reading fills the buffer, unless the source ends. -/
theorem full_readMore {i : Input} (h : i.src.length ≤ 1) (hlt : i.buf.length < bufSize) :
    i.readMore.src.length ≤ 1 ∧ (i.readMore.src = [] ∨ i.readMore.buf.length = bufSize) := by
  rw [readMore, if_neg (Nat.not_le.mpr hlt)]
  obtain ⟨buf, start, src, hle⟩ := i
  dsimp only at h hlt ⊢
  obtain _ | ⟨piece, _ | ⟨piece', src⟩⟩ := src
  · exact ⟨Nat.zero_le 1, .inl rfl⟩
  · rw [read]
    split
    · exact ⟨Nat.zero_le 1, .inl rfl⟩
    · next hlong =>
      refine ⟨Nat.le_refl 1, .inr ?_⟩
      dsimp only
      rw [List.length_append, List.length_take]
      omega
  · rw [List.length_cons, List.length_cons] at h
    omega

theorem start_readMore (i : Input) : i.readMore.start = i.start := by
  rw [readMore]
  split <;> rfl

theorem fullRune_of_length {bs : Bytes} (h : 4 ≤ bs.length) : Utf8.fullRune bs = true := by
  obtain _ | ⟨b, _ | ⟨b1, _ | ⟨b2, _ | ⟨b3, bs⟩⟩⟩⟩ := bs
  · cases h
  · simp at h
  · simp at h
  · simp at h
  · unfold Utf8.fullRune
    dsimp only
    generalize Utf8.first b = lead
    cases lead <;> rfl

theorem decodeRune_le_four (bs : Bytes) : (Utf8.decodeRune bs).2 ≤ 4 := by
  unfold Utf8.decodeRune
  split
  · exact Nat.zero_le 4
  · split <;> (try split) <;> simp

/-- After the buffer was filled, the rune at the head is there. -/
theorem Full.fill {i : Input} (h : i.Full) : i.Completes ∧ i.fill.Full := by
  by_cases hfull : Utf8.fullRune i.available = true
  · rw [Completes, Input.fill, if_pos hfull]
    exact ⟨Utf8.decodeRune_le_of_fullRune hfull _, h⟩
  · have hshort : i.available.length < 4 := by
      by_contra hlong
      exact hfull (fullRune_of_length (Nat.not_lt.mp hlong))
    obtain ⟨hsrc, hbuf⟩ : i.fill.src.length ≤ 1 ∧
        (i.fill.src = [] ∨ i.fill.buf.length = bufSize ∧ i.fill.start = 0) := by
      rw [Input.fill, if_neg hfull, refill]
      split
      · obtain ⟨hsrc, hbuf⟩ := @full_readMore i.shift h.src (Nat.lt_trans hshort (by decide))
        exact ⟨hsrc, hbuf.imp_right fun hsize => ⟨hsize, start_readMore _⟩⟩
      · next hstart =>
        rcases h.buf with hsrc | hsize | hnil
        · have hread := readMore_of_src hsrc
          exact ⟨by rw [hread.1]; exact Nat.zero_le 1, .inl hread.1⟩
        · rw [available, List.length_drop, hsize] at hshort
          unfold bufSize at hshort hstart
          omega
        · obtain ⟨hsrc, hbuf⟩ := full_readMore h.src (by rw [hnil]; decide)
          have hzero : i.start = 0 := by
            have hle := i.le
            rw [hnil] at hle
            exact Nat.le_zero.mp hle
          exact ⟨hsrc, hbuf.imp_right fun hsize => ⟨hsize, (start_readMore _).trans hzero⟩⟩
    refine ⟨?_, hsrc, hbuf.imp_right fun hsize => .inl hsize.1⟩
    rw [Completes]
    rcases hbuf with hnil | ⟨hsize, hzero⟩
    · have hall : i.fill.available = i.remaining := by
        rw [← i.remaining_fill, remaining, hnil]
        exact (List.append_nil _).symm
      rw [hall]
      exact Utf8.decodeRune_le _
    · rw [available, hzero, List.drop_zero, hsize]
      exact Nat.le_trans (decodeRune_le_four _) (by decide)

/-- A full buffer is never late. -/
theorem Full.prompt {i : Input} (h : i.Full) : i.Prompt := by
  intro n
  induction n generalizing i with
  | zero => exact h.fill.1
  | succ n ih => exact ih ⟨h.fill.2.src, h.fill.2.buf⟩

theorem prompt_whole (t : Bytes) : (whole t).Prompt := by
  refine Full.prompt ⟨?_, .inr (.inr rfl)⟩
  rw [whole]
  split
  · exact Nat.zero_le 1
  · exact Nat.le_refl 1

end Input

/-! ## The first token -/

/-- The first call of `Scan` on a text returns a token with its text, without an error. -/
def FirstToken (unicode : Unicode) (s : Scanner) (file : Option TokenFile) (t : Bytes)
    (tok : Token) (lit : Bytes) : Prop :=
  ∃ s' i, (ScanM.scan unicode).run (s.init file) (.whole t) = some ((tok, lit), s', i) ∧
    s'.errors = s.errors

theorem firstToken_iff (unicode : Unicode) (s : Scanner) (file : Option TokenFile) (t : Bytes)
    (tok : Token) (lit : Bytes) : FirstToken unicode s file t tok lit ↔
      ∃ c t', (ScanM.scan unicode).clean .init t = some ((tok, lit), c, t') := by
  have hon := (ScanM.scan unicode).run_on (s.init file) (Input.prompt_whole t)
  rw [Input.remaining_whole] at hon
  constructor
  · rintro ⟨s', i, hrun, herrors⟩
    rw [hrun, Option.map_some] at hon
    exact ⟨_, _, ScanM.clean_of_on _ hon.symm (Nat.le_of_eq (congrArg List.length herrors))⟩
  · rintro ⟨c, t', hclean⟩
    obtain ⟨s', hscan, -, herrors⟩ := ScanM.Uniform.on_of_some (s := s.init file) hclean
    rw [hscan] at hon
    obtain ⟨⟨r, s₁, i⟩, hrun, heq⟩ := Option.map_eq_some_iff.mp hon
    cases heq
    exact ⟨_, i, hrun, herrors⟩

end OneJit.Go
