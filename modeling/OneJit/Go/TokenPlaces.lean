import OneJit.Go.Located
import OneJit.Go.Whole

/-!
# Where tokens are

The places of the tokens of a text, the positions that `Scan` gives them, and the texts for which
these are the same.
-/

namespace OneJit.Go

/-! ## Places -/

/-- Runes between tokens. -/
def isBlank (r : Nat) : Bool := r = 9 || r = 10 || r = 13 || r = 32

/-- The number of bytes at the head at which no rune starts, and the text after them. -/
def invalids : Nat → Bytes → Nat × Bytes
  | 0, t => (0, t)
  | n + 1, t =>
    let r := Utf8.decodeRune t
    if r.1 = Utf8.runeError ∧ r.2 = 1 then
      let x := invalids n (t.drop 1)
      (x.1 + 1, x.2)
    else (0, t)

/-- Scanning ends with the tenth error, after the rune that follows it. -/
def stops (errors : Option Nat) (k : Nat) : Bool :=
  match errors with
  | none => false
  | some e => 0 < k && 10 ≤ e + k

/-- The text from the first rune on that is no blank, as far as the errors up to there do not end
the scanning. -/
def tokenText : Nat → Option Nat → Bytes → Option Bytes
  | 0, _, _ => none
  | n + 1, errors, t =>
    let x := invalids t.length t
    let r := Utf8.decodeRune x.2
    if r.2 = 0 then none
    else if isBlank r.1 then
      if stops errors x.1 then none else tokenText n (errors.map (· + x.1)) (x.2.drop r.2)
    else some x.2

/-- `tokenText` at the beginning of a text, where a byte order mark may stand. -/
def firstText (errors : Option Nat) (t : Bytes) : Option Bytes :=
  let x := invalids t.length t
  let r := Utf8.decodeRune x.2
  if r.2 ≠ 0 ∧ (r.1 : Rune) = runeBOM then
    if stops errors x.1 then none
    else tokenText (t.length + 1) (errors.map (· + x.1)) (x.2.drop r.2)
  else tokenText (t.length + 1) errors t

/-- The offsets behind the runes of a text. -/
def runeEnds : Nat → Nat → Bytes → List Nat
  | 0, _, _ => []
  | n + 1, o, t =>
    let r := Utf8.decodeRune t
    if r.2 = 0 then []
    else if r.1 = Utf8.runeError ∧ r.2 = 1 then runeEnds n (o + 1) (t.drop 1)
    else (o + r.2) :: runeEnds n (o + r.2) (t.drop r.2)

/-- The number of bytes of a rune. -/
def width (ch : Rune) : Nat := if ch < 0 then 0 else (Utf8.encodeRune ch.toNat).length

/-- The length of the token at the beginning of a text: up to the last rune that is scanned for it.
One more rune is taken, and two where a dot is put back. -/
def tokenLength (unicode : Unicode) (u : Bytes) : Nat :=
  let r := Utf8.decodeRune u
  match (ScanM.scanItem unicode).on (Core.init.read r.1).scanner (u.drop r.2) with
  | none => 0
  | some (_, s, rest) =>
    if s.unread = rune '.' then 1
    else ((runeEnds u.length 0 u).filter (· ≤ u.length - rest.length - width s.ch)).getLastD 0

/-- The offsets of the first byte of a token and behind its last byte. -/
def placeOf (unicode : Unicode) (t u : Bytes) : Nat × Nat :=
  (t.length - u.length, t.length - u.length + tokenLength unicode u)

/-- The places of the tokens of a text, one after another. -/
def place (unicode : Unicode) (t : Bytes) : Nat → Option (Nat × Nat)
  | 0 => (firstText none t).map (placeOf unicode t)
  | k + 1 => (place unicode t k).bind fun p =>
    (tokenText (t.length + 1) none (t.drop p.2)).map (placeOf unicode t)

/-- The line of an offset, counted from 1. -/
def lineOf (t : Bytes) (o : Nat) : Nat := 1 + (t.take o).count 10

/-- The column of an offset in bytes, counted from 1. -/
def columnOf (t : Bytes) (o : Nat) : Nat := 1 + ((t.take o).reverse.takeWhile (· ≠ 10)).length

/-! ## Calls -/

namespace Scanner

/-- The scanner and its input after some calls of `Scan`. -/
def calls (unicode : Unicode) (s : Scanner) (i : Input) : Nat → Option (Scanner × Input)
  | 0 => some (s, i)
  | n + 1 => (calls unicode s i n).bind fun x => ((ScanM.scan unicode).run x.1 x.2).map (·.2)

/-- The call returns a token that is read from the source: the token that was kept behind a semicolon,
or one that a rune begins, unless a semicolon goes before it. -/
def readsToken (unicode : Unicode) (s : Scanner) (i : Input) : Bool :=
  s.status = .cached ||
    ((ScanM.skipSpaces.run s i).any fun x => x.1 ≠ rune '\n' && x.1 ≠ runeEOF) &&
      ((ScanM.scan unicode).run s i).any fun x => x.2.1.status ≠ .cached

/-- The number of tokens of the source that the first calls return. -/
def tokensRead (unicode : Unicode) (s : Scanner) (i : Input) (n : Nat) : Nat :=
  (List.range n).countP fun m => (calls unicode s i m).any fun x => readsToken unicode x.1 x.2

end Scanner

/-! ## The first token -/

theorem invalids_length (n : Nat) (t : Bytes) :
    (invalids n t).1 + (invalids n t).2.length = t.length := by
  induction n generalizing t with
  | zero => exact Nat.zero_add _
  | succ n ih =>
    rw [invalids]
    dsimp only
    split
    · next hone =>
      have hle := Utf8.decodeRune_le t
      have hrest := ih (t.drop 1)
      rw [List.length_drop] at hrest
      dsimp only
      omega
    · exact Nat.zero_add _

/-- Without a bound on the errors, the first token is the same. -/
theorem tokenText_none {n e : Nat} {t u : Bytes} (h : tokenText n (some e) t = some u) :
    tokenText n none t = some u := by
  induction n generalizing e t with
  | zero => exact h
  | succ n ih =>
    rw [tokenText] at h ⊢
    split at h
    · cases h
    · next hsize =>
      rw [if_neg hsize]
      split at h
      · next hblank =>
        rw [if_pos hblank]
        split at h
        · cases h
        · exact ih h
      · next hblank =>
        rw [if_neg hblank]
        exact h

theorem firstText_none {e : Nat} {t u : Bytes} (h : firstText (some e) t = some u) :
    firstText none t = some u := by
  rw [firstText] at h ⊢
  split at h
  · next hbom =>
    rw [if_pos hbom]
    split at h
    · cases h
    · exact tokenText_none h
  · next hbom =>
    rw [if_neg hbom]
    exact tokenText_none h

theorem invalids_le (n : Nat) (t : Bytes) : (invalids n t).2.length ≤ t.length := by
  have hlen := invalids_length n t
  omega

theorem tokenText_le {n : Nat} {errors : Option Nat} {t u : Bytes}
    (h : tokenText n errors t = some u) : u.length ≤ t.length := by
  induction n generalizing errors t with
  | zero => cases h
  | succ n ih =>
    have hle := invalids_le t.length t
    rw [tokenText] at h
    split at h
    · cases h
    · split at h
      · split at h
        · cases h
        · have hrest := ih h
          rw [List.length_drop] at hrest
          omega
      · cases h
        exact hle

theorem firstText_le {errors : Option Nat} {t u : Bytes} (h : firstText errors t = some u) :
    u.length ≤ t.length := by
  have hle := invalids_le t.length t
  rw [firstText] at h
  split at h
  · split at h
    · cases h
    · have hrest := tokenText_le h
      rw [List.length_drop] at hrest
      omega
  · exact tokenText_le h

namespace Scanner

/-- What `next` leaves as it is. -/
structure Kept (s s' : Scanner) : Prop where
  status : s'.status = s.status
  lastNonComment : s'.lastNonComment = s.lastNonComment
  pos : s'.pos = s.pos

theorem Kept.trans {s s' s'' : Scanner} (h : Kept s s') (h' : Kept s' s'') : Kept s s'' :=
  ⟨h'.status.trans h.status, h'.lastNonComment.trans h.lastNonComment, h'.pos.trans h.pos⟩

theorem Kept.needInsertSemi {s s' : Scanner} (h : Kept s s') :
    s'.needInsertSemi = s.needInsertSemi := by
  rw [Scanner.needInsertSemi, h.status, h.lastNonComment]
  rfl

end Scanner

/-- What `next` finds behind the bytes at which no rune starts. -/
structure Taken (s : Scanner) (i : Input) (r : Nat × Bytes) (ch : Rune) (s' : Scanner) (i' : Input) :
    Prop where
  kept : s.Kept s'
  head : s'.ch = ch
  errors : s'.errors.length = s.errors.length + r.1
  unread : s'.unread = if stops (some s.errors.length) r.1 then runeTooManyErrors else s.unread
  rune : ch = if r.2 = [] then runeEOF else ((Utf8.decodeRune r.2).1 : Rune)
  remaining : i'.remaining = r.2.drop (Utf8.decodeRune r.2).2
  prompt : i'.Prompt

theorem invalids_nil (n : Nat) : invalids n [] = (0, []) := by
  cases n <;> rfl

/-- One error more, and the others after it. -/
theorem stops_succ (e k : Nat) (unread : Rune) :
    (if stops (some (e + 1)) k then runeTooManyErrors
      else if 10 ≤ e + 1 then runeTooManyErrors else unread) =
      if stops (some e) (k + 1) then runeTooManyErrors else unread := by
  by_cases h : 10 ≤ e + 1
  · have hstops : stops (some e) (k + 1) = true := by
      simp only [stops, Bool.and_eq_true, decide_eq_true_eq]
      omega
    rw [if_pos h, if_pos hstops, ite_self]
  · have hiff : stops (some (e + 1)) k = stops (some e) (k + 1) := by
      have hassoc : e + 1 + k = e + (k + 1) := by omega
      by_cases hk : 0 < k
      · simp [stops, hk, hassoc]
      · have hnot : ¬ 10 ≤ e + (k + 1) := by omega
        simp [stops, hk, hnot]
    rw [if_neg h, hiff]

theorem nextLoop_taken {name : String} {base total : Int} {n m : Nat} {s : Scanner} {i : Input}
    (hs : Located name base total s i) (hi : i.Prompt) (hn : i.remaining.length < n)
    (hm : i.remaining.length ≤ m) : ∃ ch s' i', nextLoop n s i = some (ch, s', i') ∧
      Taken s i (invalids m i.remaining) ch s' i' := by
  induction n generalizing m s i with
  | zero => exact absurd hn (Nat.not_lt_zero _)
  | succ n ih =>
    have hdecode := hi.completes.decodeRune
    have hstep := hi.remaining_step
    unfold nextLoop
    rw [hdecode]
    dsimp only
    by_cases hsize : (Utf8.decodeRune i.remaining).2 = 0
    · -- the end of the input
      have hnil : i.remaining = [] := Input.remaining_eq_nil (hdecode ▸ hsize)
      rw [if_pos hsize, hnil, invalids_nil]
      refine ⟨_, _, _, rfl, ⟨rfl, rfl, rfl⟩, rfl, rfl, rfl, rfl, ?_, hi.step⟩
      rw [hstep, hnil]
    · have hne : i.remaining ≠ [] := by
        intro hnil
        rw [hnil] at hsize
        exact hsize rfl
      obtain ⟨m, rfl⟩ : ∃ k, m = k + 1 := by
        have hpos := List.length_pos_iff.mpr hne
        exact ⟨m - 1, by omega⟩
      have hlen := i.length_step
      rw [hdecode] at hlen
      rw [if_neg hsize]
      by_cases hinvalid : (Utf8.decodeRune i.remaining).1 = Utf8.runeError ∧
          (Utf8.decodeRune i.remaining).2 ≤ 1
      · -- a byte at which no rune starts
        have hone : (Utf8.decodeRune i.remaining).2 = 1 := by omega
        obtain ⟨pos, hpos⟩ := Option.ne_none_iff_exists'.mp (Stable.position hs)
        rw [if_pos hinvalid, Scanner.error, hpos, Option.map_some, Option.bind_some]
        have hs' : Located name base total
            { s.error1 ⟨pos, errInvalidUtf8⟩ with endpos := s.endpos + 1 } i.step :=
          Stable.invalid (Stable.frame hs rfl rfl rfl) (hdecode ▸ hone)
        obtain ⟨ch, s', i', hrun, htaken⟩ := ih (m := m) hs' hi.step (by omega) (by omega)
        refine ⟨ch, s', i', hrun, ?_⟩
        have herrors : (s.error1 ⟨pos, errInvalidUtf8⟩).errors.length = s.errors.length + 1 :=
          List.length_append
        have hinv : invalids (m + 1) i.remaining =
            ((invalids m i.step.remaining).1 + 1, (invalids m i.step.remaining).2) := by
          rw [invalids]
          dsimp only
          rw [if_pos ⟨hinvalid.1, hone⟩, hstep, hone]
        rw [hinv]
        refine ⟨⟨htaken.kept.status, htaken.kept.lastNonComment, htaken.kept.pos⟩, htaken.head, ?_, ?_,
          htaken.rune, htaken.remaining, htaken.prompt⟩
        · rw [htaken.errors]
          dsimp only
          rw [herrors]
          omega
        · rw [htaken.unread]
          dsimp only
          rw [herrors, ← stops_succ]
          congr 1
          unfold Scanner.error1
          dsimp only
          rw [List.length_append, List.length_singleton]
      · have hinv : invalids (m + 1) i.remaining = (0, i.remaining) := by
          rw [invalids]
          dsimp only
          rw [if_neg]
          omega
        rw [if_neg hinvalid, hinv]
        refine ⟨_, _, _, rfl, ⟨rfl, rfl, rfl⟩, rfl, rfl, rfl, ?_, hstep, hi.step⟩
        rw [if_neg hne]

theorem next_taken {name : String} {base total : Int} {s : Scanner} {i : Input}
    (hs : Located name base total s i) (hi : i.Prompt) (hunread : s.unread = runeNone) :
    ∃ ch s' i', next.run s i = some (ch, s', i') ∧ Located name base total s' i' ∧
      Taken s i (invalids i.remaining.length i.remaining) ch s' i' := by
  obtain ⟨ch, s', i', hrun, htaken⟩ :=
    nextLoop_taken hs hi (Nat.lt_succ_self i.remaining.length) (Nat.le_refl _)
  have hnext : next.run s i = some (ch, s', i') := by
    rw [← hrun]
    exact if_neg (not_not_intro hunread)
  obtain ⟨_, _, _, hrun', hs'⟩ := ScanM.Maintains.run (m := next) hs
  rw [hnext, Option.some.injEq] at hrun'
  cases hrun'
  exact ⟨ch, s', i', hnext, hs', htaken⟩

theorem next_tooManyErrors {s : Scanner} (h : s.unread = runeTooManyErrors) (i : Input) :
    next.run s i = some (runeEOF, { s with ch := runeEOF }, i) := by
  have hne : s.unread ≠ runeNone := by
    rw [h]
    decide
  exact (if_pos hne).trans (if_pos h)

namespace ScanM

/-- `skipSpaces` ends at a rune that is no blank. -/
theorem skipLoop_of_not_blank (n : Nat) {r : Nat} (h : isBlank r = false) :
    skipLoop n r = pure (r : Rune) := by
  simp only [isBlank, Bool.or_eq_false_iff, decide_eq_false_iff_not] at h
  cases n with
  | zero => rfl
  | succ n =>
    have h9 : (r : Int) ≠ rune '\t' := fun heq => h.1.1.1 (Int.ofNat_inj.mp heq)
    have h10 : (r : Int) ≠ rune '\n' := fun heq => h.1.1.2 (Int.ofNat_inj.mp heq)
    have h13 : (r : Int) ≠ rune '\r' := fun heq => h.1.2 (Int.ofNat_inj.mp heq)
    have h32 : (r : Int) ≠ rune ' ' := fun heq => h.2 (Int.ofNat_inj.mp heq)
    have hbof : (r : Int) ≠ runeBOF := by
      unfold runeBOF
      omega
    have hnone : (r : Int) ≠ runeNone := by
      unfold runeNone
      omega
    rw [skipLoop, if_neg hbof, if_neg (by simp [hnone, h9, h13, h32]), if_neg h10]

/-- Where no semicolon is due, a blank is left out. -/
theorem skipLoop_of_blank (n : Nat) {r : Nat} (h : isBlank r = true) {s : Scanner}
    (hsemi : s.needInsertSemi = false) (i : Input) :
    (skipLoop (n + 1) r).run s i = (next >>= skipLoop n).run s i := by
  have hbof : (r : Int) ≠ runeBOF := by
    unfold runeBOF
    omega
  rw [skipLoop, if_neg hbof]
  by_cases h10 : r = 10
  · rw [if_neg (by subst h10; decide), if_pos (by subst h10; rfl), run_bind]
    change (if s.needInsertSemi = true then _ else (next >>= skipLoop n)).run s i = _
    rw [if_neg (by simp [hsemi])]
  · have hspace : (r : Int) = runeNone ∨ (r : Int) = rune '\t' ∨ (r : Int) = rune '\r' ∨
        (r : Int) = rune ' ' := by
      simp only [isBlank, Bool.or_eq_true, decide_eq_true_eq] at h
      rcases h with ((rfl | rfl) | rfl) | rfl
      · exact .inr (.inl rfl)
      · exact absurd rfl h10
      · exact .inr (.inr (.inl rfl))
      · exact .inr (.inr (.inr rfl))
    rw [if_pos hspace]

end ScanM

/-- What is found at the end of `skipSpaces`: the first rune of a token, or the end of the input. -/
structure Found (s : Scanner) (text : Option Bytes) (ch : Rune) (s' : Scanner) (i' : Input) :
    Prop where
  kept : s.Kept s'
  head : s'.ch = ch
  eof : text = none → ch = runeEOF
  token : ∀ u, text = some u → ch = (Utf8.decodeRune u).1 ∧ (Utf8.decodeRune u).2 ≠ 0 ∧
    isBlank (Utf8.decodeRune u).1 = false ∧ i'.remaining = u.drop (Utf8.decodeRune u).2

open ScanM in
theorem next_skipLoop {name : String} {base total : Int} {n m : Nat} {s : Scanner} {i : Input}
    (hs : Located name base total s i) (hi : i.Prompt) (hunread : s.unread = runeNone)
    (hsemi : s.needInsertSemi = false) (hn : i.remaining.length < n)
    (hm : i.remaining.length < m) : ∃ ch s' i', (next >>= skipLoop n).run s i = some (ch, s', i') ∧
      Found s (tokenText m (some s.errors.length) i.remaining) ch s' i' := by
  induction m generalizing n s i with
  | zero => exact absurd hm (Nat.not_lt_zero _)
  | succ m ih =>
    obtain ⟨ch, s₁, i₁, hnext, hs₁, htaken⟩ := next_taken hs hi hunread
    have hrune := htaken.rune
    have hremaining := htaken.remaining
    have hlen := invalids_length i.remaining.length i.remaining
    rw [run_bind, hnext, Option.bind_some, tokenText]
    dsimp only
    generalize invalids i.remaining.length i.remaining = x at htaken hrune hremaining hlen ⊢
    by_cases hnil : x.2 = []
    · rw [if_pos hnil] at hrune
      have hzero : (Utf8.decodeRune x.2).2 = 0 := by
        rw [hnil]
        rfl
      rw [hrune, skipLoop_eof, if_pos hzero]
      exact ⟨_, _, _, rfl, htaken.kept, htaken.head.trans hrune, fun _ => rfl,
        fun u hu => by cases hu⟩
    rw [if_neg hnil] at hrune
    have hpos := Utf8.decodeRune_pos hnil
    have hle := Utf8.decodeRune_le x.2
    rw [if_neg (Nat.ne_of_gt hpos), hrune]
    cases hblank : isBlank (Utf8.decodeRune x.2).1 with
    | false =>
      rw [skipLoop_of_not_blank n hblank, if_neg Bool.false_ne_true]
      refine ⟨_, _, _, rfl, htaken.kept, htaken.head.trans hrune, fun h => (by cases h), ?_⟩
      intro u hu
      cases hu
      exact ⟨rfl, Nat.ne_of_gt hpos, hblank, hremaining⟩
    | true =>
      obtain ⟨n, rfl⟩ : ∃ k, n = k + 1 := ⟨n - 1, by omega⟩
      have hsemi₁ : s₁.needInsertSemi = false := htaken.kept.needInsertSemi.trans hsemi
      have hunread₁ := htaken.unread
      rw [skipLoop_of_blank n hblank hsemi₁, if_pos rfl]
      by_cases hstops : stops (some s.errors.length) x.1 = true
      · rw [if_pos hstops] at hunread₁ ⊢
        rw [run_bind, next_tooManyErrors hunread₁, Option.bind_some]
        dsimp only
        rw [skipLoop_eof]
        exact ⟨_, _, _, rfl, ⟨htaken.kept.status, htaken.kept.lastNonComment, htaken.kept.pos⟩, rfl,
          fun _ => rfl, fun u hu => by cases hu⟩
      · rw [if_neg hstops] at hunread₁ ⊢
        have hlen₁ : i₁.remaining.length < i.remaining.length := by
          rw [hremaining, List.length_drop]
          omega
        obtain ⟨ch₂, s₂, i₂, hrun, hfound⟩ := @ih n s₁ i₁ hs₁ htaken.prompt (hunread₁.trans hunread)
          hsemi₁ (by omega) (by omega)
        rw [htaken.errors, hremaining] at hfound
        exact ⟨ch₂, s₂, i₂, hrun, htaken.kept.trans hfound.kept, hfound.head, hfound.eof,
          hfound.token⟩

open ScanM in
/-- What `skipSpaces` finds at the first call of `Scan`. -/
theorem skipSpaces_first {name : String} {base total : Int} {s : Scanner} {i : Input}
    (hs : Located name base total s i) (hi : i.Prompt) (hunread : s.unread = runeNone)
    (hsemi : s.needInsertSemi = false) (hbof : s.ch = runeBOF) :
    ∃ ch s' i', skipSpaces.run s i = some (ch, s', i') ∧
      Found s (firstText (some s.errors.length) i.remaining) ch s' i' := by
  obtain ⟨ch, s₁, i₁, hnext, hs₁, htaken⟩ := next_taken hs hi hunread
  have hrune := htaken.rune
  have hremaining := htaken.remaining
  have hlen := invalids_length i.remaining.length i.remaining
  have hall := @next_skipLoop name base total (i.remaining.length + 2) (i.remaining.length + 1) s i
    hs hi hunread hsemi (by omega) (by omega)
  rw [skipSpaces_bof hbof, firstText]
  rw [run_bind, hnext, Option.bind_some] at hall ⊢
  dsimp only at hall ⊢
  generalize invalids i.remaining.length i.remaining = x at htaken hrune hremaining hlen ⊢
  by_cases hbom : ch = runeBOM
  · have hnil : x.2 ≠ [] := by
      intro hnil
      rw [if_pos hnil, hbom] at hrune
      exact absurd hrune (by decide)
    rw [if_neg hnil] at hrune
    have hpos := Utf8.decodeRune_pos hnil
    have hle := Utf8.decodeRune_le x.2
    have hunread₁ := htaken.unread
    rw [if_pos hbom, if_pos ⟨Nat.ne_of_gt hpos, hrune.symm.trans hbom⟩]
    by_cases hstops : stops (some s.errors.length) x.1 = true
    · rw [if_pos hstops] at hunread₁ ⊢
      rw [run_bind, next_tooManyErrors hunread₁, Option.bind_some]
      dsimp only
      rw [skipLoop_eof]
      exact ⟨_, _, _, rfl, ⟨htaken.kept.status, htaken.kept.lastNonComment, htaken.kept.pos⟩, rfl,
        fun _ => rfl, fun u hu => by cases hu⟩
    · rw [if_neg hstops] at hunread₁ ⊢
      have hlen₁ : i₁.remaining.length < i.remaining.length := by
        rw [hremaining, List.length_drop]
        omega
      obtain ⟨ch₂, s₂, i₂, hrun, hfound⟩ := @next_skipLoop name base total (i.remaining.length + 2)
        (i.remaining.length + 1) s₁ i₁ hs₁ htaken.prompt (hunread₁.trans hunread)
        (htaken.kept.needInsertSemi.trans hsemi) (by omega) (by omega)
      rw [htaken.errors, hremaining] at hfound
      exact ⟨ch₂, s₂, i₂, hrun, htaken.kept.trans hfound.kept, hfound.head, hfound.eof,
        hfound.token⟩
  · rw [if_neg hbom, if_neg]
    · exact hall
    · rintro ⟨hsize, heq⟩
      have hnil : x.2 ≠ [] := by
        intro hnil
        rw [hnil] at hsize
        exact hsize rfl
      rw [if_neg hnil] at hrune
      exact hbom (hrune.trans heq)

end OneJit.Go
