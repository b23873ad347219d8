import OneJit.Go.Delivery

/-!
# Scanning without errors

A computation of the scanner that finds no error depends on a part of the state and on the bytes that
remain only. For the computations with this property, what they do without an error is a function,
which follows the computation step by step.
-/

namespace OneJit.Go

/-- The part of the scanner that decides what is scanned. -/
structure Core where
  tok : Token
  lit : Bytes
  status : TokenStatus
  lastNonComment : Token
  builder : Bytes
  ch : Rune
  unread : Rune
  deriving DecidableEq

def Scanner.core (s : Scanner) : Core :=
  ⟨s.tok, s.lit, s.status, s.lastNonComment, s.builder, s.ch, s.unread⟩

/-- A scanner without a file and without errors. -/
def Core.scanner (c : Core) : Scanner where
  tok := c.tok
  lit := c.lit
  status := c.status
  lastNonComment := c.lastNonComment
  builder := c.builder
  ch := c.ch
  unread := c.unread
  file := none
  pos := 0
  endpos := 0
  errors := []

@[simp] theorem Core.core_scanner (c : Core) : c.scanner.core = c := rfl

/-! ## Texts as inputs -/

namespace Input

/-- An input with all its bytes in the buffer. -/
def ofText (t : Bytes) : Input := ⟨t, 0, [], Nat.zero_le _⟩

theorem remaining_ofText (t : Bytes) : (ofText t).remaining = t :=
  List.append_nil t

theorem readMore_of_src {i : Input} (h : i.src = []) :
    i.readMore.src = [] ∧ i.readMore.available = i.available := by
  rw [readMore]
  split
  · exact ⟨h, rfl⟩
  · change (read i.src _).2 = [] ∧ (i.buf ++ (read i.src _).1).drop i.start = i.buf.drop i.start
    rw [h, read, List.append_nil]
    exact ⟨rfl, rfl⟩

theorem fill_of_src {i : Input} (h : i.src = []) :
    i.fill.src = [] ∧ i.fill.available = i.available := by
  rw [fill]
  split
  · exact ⟨h, rfl⟩
  · rw [refill]
    split
    · exact @readMore_of_src i.shift h
    · exact readMore_of_src h

/-- An input with nothing left in its source is without delay. -/
theorem prompt_of_src {i : Input} (h : i.src = []) : i.Prompt := by
  intro n
  induction n generalizing i with
  | zero =>
    change (Utf8.decodeRune i.remaining).2 ≤ i.fill.available.length
    rw [(fill_of_src h).2, remaining, h]
    have hle := Utf8.decodeRune_le i.available
    rwa [flatten, List.flatMap_nil, List.append_nil]
  | succ n ih => exact ih (fill_of_src h).1

theorem prompt_ofText (t : Bytes) : (ofText t).Prompt := prompt_of_src rfl

end Input

namespace ScanM

variable {α β : Type}

/-- A computation on the bytes that remain. -/
def on (m : ScanM α) (s : Scanner) (t : Bytes) : Option (α × Scanner × Bytes) :=
  (m.run s (.ofText t)).map fun r => (r.1, r.2.1, r.2.2.remaining)

/-- On an input without delay, a computation sees the bytes that remain only. -/
theorem run_on (m : ScanM α) (s : Scanner) {i : Input} (h : i.Prompt) :
    (m.run s i).map (fun r => (r.1, r.2.1, r.2.2.remaining)) = m.on s i.remaining := by
  have halike : i.Alike (.ofText i.remaining) :=
    ⟨(Input.remaining_ofText _).symm, h, Input.prompt_ofText _⟩
  have hrespects := m.respects s halike
  rw [on]
  generalize m.run s i = x at hrespects
  generalize m.run s (.ofText i.remaining) = y at hrespects
  cases hrespects with
  | none => rfl
  | @some x y hxy =>
    obtain ⟨ha, hs, hrest⟩ := hxy
    simp only [Option.map_some]
    rw [ha, hs, hrest.remaining]

theorem prompt_of_run {m : ScanM α} {s s' : Scanner} {i i' : Input} {a : α} (h : i.Prompt)
    (hrun : m.run s i = some (a, s', i')) : i'.Prompt := by
  have hrespects := m.respects s (⟨rfl, h, h⟩ : i.Alike i)
  rw [hrun] at hrespects
  cases hrespects with
  | some hxy => exact hxy.2.2.left

theorem on_bind (m : ScanM α) (f : α → ScanM β) (s : Scanner) (t : Bytes) :
    (m >>= f).on s t = (m.on s t).bind fun r => (f r.1).on r.2.1 r.2.2 := by
  have hbind : (m >>= f).run s (.ofText t) =
      (m.run s (.ofText t)).bind fun r => (f r.1).run r.2.1 r.2.2 := rfl
  rw [on, on, hbind]
  cases hrun : m.run s (.ofText t) with
  | none => rfl
  | some r =>
    obtain ⟨a, s', i'⟩ := r
    exact run_on (f a) s' (prompt_of_run (Input.prompt_ofText t) hrun)

/-- What a computation does when it finds no error. -/
def clean (m : ScanM α) (c : Core) (t : Bytes) : Option (α × Core × Bytes) :=
  (m.on c.scanner t).bind fun r =>
    if r.2.1.errors = [] then some (r.1, r.2.1.core, r.2.2) else none

/-- The computation does the same from all scanners with the same core: either what it does when it
finds no error, or it adds an error. -/
class Uniform (m : ScanM α) : Prop where
  on_of_some : ∀ {s t a c t'}, m.clean s.core t = some (a, c, t') →
    ∃ s', m.on s t = some (a, s', t') ∧ s'.core = c ∧ s'.errors = s.errors
  lt_of_none : ∀ {s t a s' t'}, m.clean s.core t = none → m.on s t = some (a, s', t') →
    s.errors.length < s'.errors.length

theorem errors_le (m : ScanM α) [Uniform m] {s s' : Scanner} {t t' : Bytes} {a : α}
    (h : m.on s t = some (a, s', t')) : s.errors.length ≤ s'.errors.length := by
  cases hclean : m.clean s.core t with
  | none => exact Nat.le_of_lt (Uniform.lt_of_none hclean h)
  | some r =>
    obtain ⟨s₁, hon, -, herrors⟩ := Uniform.on_of_some hclean
    rw [hon, Option.some.injEq] at h
    cases h
    exact Nat.le_of_eq (congrArg List.length herrors.symm)

/-- A computation that added no error did what it does without errors. -/
theorem clean_of_on (m : ScanM α) [Uniform m] {s s' : Scanner} {t t' : Bytes} {a : α}
    (h : m.on s t = some (a, s', t')) (herrors : s'.errors.length ≤ s.errors.length) :
    m.clean s.core t = some (a, s'.core, t') := by
  cases hclean : m.clean s.core t with
  | none => exact absurd (Uniform.lt_of_none hclean h) (Nat.not_lt.mpr herrors)
  | some r =>
    obtain ⟨s₁, hon, hcore, -⟩ := Uniform.on_of_some hclean
    rw [hon, Option.some.injEq] at h
    cases h
    rw [hcore]

/-- From a scanner without errors, the filter tells the two cases apart. -/
theorem clean_eq (m : ScanM α) [Uniform m] {s : Scanner} (h : s.errors = []) (t : Bytes) :
    ((m.on s t).bind fun r =>
      if r.2.1.errors = [] then some (r.1, r.2.1.core, r.2.2) else none) = m.clean s.core t := by
  cases hclean : m.clean s.core t with
  | none =>
    cases hon : m.on s t with
    | none => rfl
    | some r =>
      have hlt := Uniform.lt_of_none hclean hon
      have hne : r.2.1.errors ≠ [] := by
        intro hnil
        rw [hnil] at hlt
        exact absurd hlt (Nat.not_lt_zero _)
      exact if_neg hne
  | some r =>
    obtain ⟨s', hon, hcore, herrors⟩ := Uniform.on_of_some hclean
    rw [hon, Option.bind_some, if_pos (herrors.trans h), hcore]

theorem clean_bind (m : ScanM α) (f : α → ScanM β) [Uniform m] [∀ a, Uniform (f a)] (c : Core)
    (t : Bytes) :
    (m >>= f).clean c t = (m.clean c t).bind fun r => (f r.1).clean r.2.1 r.2.2 := by
  cases hclean : m.clean c t with
  | none =>
    rw [clean, on_bind]
    cases hon : m.on c.scanner t with
    | none => rfl
    | some r =>
      have hlt := Uniform.lt_of_none (m := m) (s := c.scanner) hclean hon
      rw [Option.bind_some, Option.bind_none]
      cases hnext : (f r.1).on r.2.1 r.2.2 with
      | none => rfl
      | some r' =>
        have hle := errors_le (f r.1) hnext
        have hne : r'.2.1.errors ≠ [] := by
          intro hnil
          rw [hnil] at hle
          exact absurd (Nat.lt_of_lt_of_le hlt hle) (Nat.not_lt_zero _)
        exact if_neg hne
  | some r =>
    obtain ⟨a, c', t'⟩ := r
    obtain ⟨s', hon, rfl, herrors⟩ := Uniform.on_of_some (m := m) (s := c.scanner) hclean
    rw [clean, on_bind, hon]
    exact clean_eq (f a) herrors t'

theorem clean_bind_some {m : ScanM α} {f : α → ScanM β} [Uniform m] [∀ a, Uniform (f a)]
    {c c' : Core} {t t' : Bytes} {a : α} (h : m.clean c t = some (a, c', t')) :
    (m >>= f).clean c t = (f a).clean c' t' := by
  rw [clean_bind, h, Option.bind_some]

theorem clean_bind_of_none {m : ScanM α} {f : α → ScanM β} [Uniform m] [∀ a, Uniform (f a)]
    {c : Core} {t : Bytes} (h : m.clean c t = none) : (m >>= f).clean c t = none := by
  rw [clean_bind, h, Option.bind_none]

instance Uniform.bind (m : ScanM α) (f : α → ScanM β) [Uniform m] [∀ a, Uniform (f a)] :
    Uniform (m >>= f) where
  on_of_some {s t b c t'} h := by
    rw [clean_bind] at h
    obtain ⟨⟨a, c₁, t₁⟩, hclean, hnext⟩ := Option.bind_eq_some_iff.mp h
    obtain ⟨s₁, hon, rfl, herrors⟩ := Uniform.on_of_some hclean
    obtain ⟨s₂, hon₂, hcore, herrors₂⟩ := Uniform.on_of_some hnext
    refine ⟨s₂, ?_, hcore, herrors₂.trans herrors⟩
    rw [on_bind, hon]
    exact hon₂
  lt_of_none {s t b s' t'} h hon := by
    rw [on_bind] at hon
    obtain ⟨⟨a, s₁, t₁⟩, hon₁, hon₂⟩ := Option.bind_eq_some_iff.mp hon
    rw [clean_bind] at h
    cases hclean : m.clean s.core t with
    | none => exact Nat.lt_of_lt_of_le (Uniform.lt_of_none hclean hon₁) (errors_le (f a) hon₂)
    | some r =>
      obtain ⟨s₂, hon₃, hcore, herrors⟩ := Uniform.on_of_some hclean
      rw [hon₃, Option.some.injEq] at hon₁
      cases hon₁
      rw [hclean, Option.bind_some, ← hcore] at h
      rw [← herrors]
      exact Uniform.lt_of_none h hon₂

instance Uniform.ite (p : Prop) [Decidable p] (m n : ScanM α) [Uniform m] [Uniform n] :
    Uniform (if p then m else n) := by
  split <;> infer_instance

/-! ## Computations that do not look at the input -/

theorem clean_pure (a : α) (c : Core) (t : Bytes) :
    (pure a : ScanM α).clean c t = some (a, c, t) := by
  change some (a, c.scanner.core, (Input.ofText t).remaining) = some (a, c, t)
  rw [Input.remaining_ofText]
  rfl

instance Uniform.pure (a : α) : Uniform (Pure.pure a : ScanM α) where
  on_of_some {s t b c t'} h := by
    rw [clean_pure] at h
    cases h
    refine ⟨s, ?_, rfl, rfl⟩
    change some (a, s, (Input.ofText t).remaining) = some (a, s, t)
    rw [Input.remaining_ofText]
  lt_of_none {s t b s' t'} h _ := by
    rw [clean_pure] at h
    cases h

theorem clean_modify (f : Scanner → Scanner) (hf : ∀ s, (f s).errors = s.errors) (c : Core)
    (t : Bytes) : (modify f).clean c t = some ((), (f c.scanner).core, t) := by
  have hon : (modify f).on c.scanner t = some ((), f c.scanner, t) := by
    change some ((), f c.scanner, (Input.ofText t).remaining) = _
    rw [Input.remaining_ofText]
  rw [clean, hon, Option.bind_some]
  exact if_pos (hf c.scanner)

/-- A change of the core. -/
theorem Uniform.modify {f : Scanner → Scanner} (hf : ∀ s, (f s).errors = s.errors)
    (hcore : ∀ s, (f s).core = (f s.core.scanner).core) : Uniform (modify f) where
  on_of_some {s t b c t'} h := by
    rw [clean_modify f hf] at h
    cases h
    refine ⟨f s, ?_, hcore s, hf s⟩
    change some ((), f s, (Input.ofText t).remaining) = _
    rw [Input.remaining_ofText]
  lt_of_none {s t b s' t'} h _ := by
    rw [clean_modify f hf] at h
    cases h

theorem clean_get (f : Scanner → ScanM α) (c : Core) (t : Bytes) :
    (get >>= f).clean c t = (f c.scanner).clean c t := by
  have hon : get.on c.scanner t = some (c.scanner, c.scanner, t) := by
    change some (c.scanner, c.scanner, (Input.ofText t).remaining) = _
    rw [Input.remaining_ofText]
  rw [clean, on_bind, hon]
  rfl

/-- A computation that looks at the core. -/
theorem Uniform.get (f : Scanner → ScanM α) [∀ s, Uniform (f s)]
    (hf : ∀ s, f s = f s.core.scanner) : Uniform (get >>= f) := by
  have hon : ∀ s t, (ScanM.get >>= f).on s t = (f s.core.scanner).on s t := by
    intro s t
    have hget : ScanM.get.on s t = some (s, s, t) := by
      change some (s, s, (Input.ofText t).remaining) = _
      rw [Input.remaining_ofText]
    rw [on_bind, hget, Option.bind_some, hf s]
  constructor
  · intro s t a c t' h
    rw [clean_get] at h
    rw [hon]
    exact Uniform.on_of_some h
  · intro s t a s' t' h hrun
    rw [clean_get] at h
    rw [hon] at hrun
    exact Uniform.lt_of_none h hrun

theorem clean_fuel (c : Core) (t : Bytes) : fuel.clean c t = some (t.length + 3, c, t) := by
  change some ((Input.ofText t).remaining.length + 3, c.scanner.core,
    (Input.ofText t).remaining) = _
  rw [Input.remaining_ofText]
  rfl

instance Uniform.fuel : Uniform fuel where
  on_of_some {s t b c t'} h := by
    rw [clean_fuel] at h
    cases h
    refine ⟨s, ?_, rfl, rfl⟩
    change some ((Input.ofText t).remaining.length + 3, s, (Input.ofText t).remaining) = _
    rw [Input.remaining_ofText]
  lt_of_none {s t b s' t'} h _ := by
    rw [clean_fuel] at h
    cases h

theorem error_on {msg : String} {s s' : Scanner} {t t' : Bytes} {b : Bool}
    (h : (error msg).on s t = some (b, s', t')) :
    b = false ∧ t' = t ∧ s.error msg = some s' := by
  obtain ⟨⟨b₁, s₁, i₁⟩, hrun, heq⟩ := Option.map_eq_some_iff.mp h
  obtain ⟨⟨b₂, s₂⟩, hmap, hret⟩ := Option.map_eq_some_iff.mp hrun
  obtain ⟨s₃, herror, hret₃⟩ := Option.map_eq_some_iff.mp hmap
  cases hret₃
  cases hret
  cases heq
  exact ⟨rfl, Input.remaining_ofText t, herror⟩

theorem lt_of_error {msg : String} {s s' : Scanner} (h : s.error msg = some s') :
    s.errors.length < s'.errors.length := by
  obtain ⟨pos, -, rfl⟩ := Option.map_eq_some_iff.mp h
  rw [Scanner.error1]
  simp

/-- An error is never found without an error. -/
theorem clean_error (msg : String) (c : Core) (t : Bytes) : (error msg).clean c t = none := by
  cases hon : (error msg).on c.scanner t with
  | none => rw [clean, hon, Option.bind_none]
  | some r =>
    obtain ⟨b, s', t'⟩ := r
    have hlt := lt_of_error (error_on hon).2.2
    have hne : s'.errors ≠ [] := by
      intro hnil
      rw [hnil] at hlt
      exact absurd hlt (Nat.not_lt_zero _)
    rw [clean, hon, Option.bind_some, if_neg hne]

instance Uniform.error (msg : String) : Uniform (error msg) where
  on_of_some {s t b c t'} h := by
    rw [clean_error] at h
    cases h
  lt_of_none _ hon := lt_of_error (error_on hon).2.2

/-! ## The next rune -/

/-- The rune at the head of the bytes, and the bytes after it. None: the bytes are not a rune. -/
def takeRune (t : Bytes) : Option (Rune × Bytes) :=
  let r := Utf8.decodeRune t
  if r.2 = 0 then some (runeEOF, t)
  else if r.1 = Utf8.runeError ∧ r.2 ≤ 1 then none
  else some ((r.1 : Rune), t.drop r.2)

theorem nextLoop_errors {n : Nat} {s s' : Scanner} {i i' : Input} {ch : Rune}
    (h : nextLoop n s i = some (ch, s', i')) : s.errors.length ≤ s'.errors.length := by
  induction n generalizing s i with
  | zero =>
    cases h
    exact Nat.le_refl _
  | succ n ih =>
    rw [nextLoop] at h
    split at h
    · cases h
      exact Nat.le_refl _
    split at h
    · obtain ⟨s₁, herror, hloop⟩ := Option.bind_eq_some_iff.mp h
      have hle := @ih { s₁ with endpos := s₁.endpos + 1 } i.step hloop
      exact Nat.le_trans (Nat.le_of_lt (lt_of_error herror)) hle
    · cases h
      exact Nat.le_refl _

/-- What `next` does when no rune was put back. -/
theorem nextLoop_takeRune {n : Nat} {s : Scanner} {i : Input} (hi : i.Prompt) :
    match takeRune i.remaining with
    | some (ch, t) => ∃ s', nextLoop (n + 1) s i = some (ch, s', i.step) ∧
        s'.core = { s.core with ch := ch } ∧ s'.errors = s.errors ∧ i.step.remaining = t
    | none => ∀ r, nextLoop (n + 1) s i = some r → s.errors.length < r.2.1.errors.length := by
  have hstep := hi.remaining_step
  unfold takeRune nextLoop
  rw [hi.completes.decodeRune]
  dsimp only
  by_cases hend : (Utf8.decodeRune i.remaining).2 = 0
  · rw [if_pos hend, if_pos hend]
    rw [hend, List.drop_zero] at hstep
    exact ⟨_, rfl, rfl, rfl, hstep⟩
  · rw [if_neg hend, if_neg hend]
    by_cases herror : (Utf8.decodeRune i.remaining).1 = Utf8.runeError ∧
        (Utf8.decodeRune i.remaining).2 ≤ 1
    · rw [if_pos herror, if_pos herror]
      rintro ⟨ch, s', i'⟩ hr
      obtain ⟨s₁, herr, hloop⟩ := Option.bind_eq_some_iff.mp hr
      have hle := @nextLoop_errors n { s₁ with endpos := s₁.endpos + 1 } s' i.step i' ch hloop
      exact Nat.lt_of_lt_of_le (lt_of_error herr) hle
    · rw [if_neg herror, if_neg herror]
      exact ⟨_, rfl, rfl, rfl, hstep⟩

/-- `next` without an error. -/
def cleanNext (c : Core) (t : Bytes) : Option (Rune × Core × Bytes) :=
  if c.unread ≠ runeNone then
    if c.unread = runeTooManyErrors then some (runeEOF, { c with ch := runeEOF }, t)
    else some (c.unread, { c with ch := c.unread, unread := runeNone }, t)
  else (takeRune t).map fun r => (r.1, { c with ch := r.1 }, r.2)

theorem next_on (s : Scanner) (t : Bytes) :
    match cleanNext s.core t with
    | some (ch, c, t') => ∃ s', next.on s t = some (ch, s', t') ∧ s'.core = c ∧ s'.errors = s.errors
    | none => ∀ r, next.on s t = some r → s.errors.length < r.2.1.errors.length := by
  have hrem := Input.remaining_ofText t
  unfold cleanNext
  by_cases hback : s.core.unread ≠ runeNone
  · have hback' : s.unread ≠ runeNone := hback
    rw [if_pos hback]
    by_cases hmany : s.core.unread = runeTooManyErrors
    · have hmany' : s.unread = runeTooManyErrors := hmany
      rw [if_pos hmany]
      refine ⟨{ s with ch := runeEOF }, ?_, rfl, rfl⟩
      rw [on, next]
      dsimp only
      rw [if_pos hback', if_pos hmany', Option.map_some, hrem]
    · have hmany' : ¬s.unread = runeTooManyErrors := hmany
      rw [if_neg hmany]
      refine ⟨{ s with ch := s.unread, unread := runeNone }, ?_, rfl, rfl⟩
      rw [on, next]
      dsimp only
      rw [if_pos hback', if_neg hmany', Option.map_some, hrem]
      rfl
  · have hback' : ¬s.unread ≠ runeNone := hback
    rw [if_neg hback]
    have hrun : next.run s (.ofText t) = nextLoop (t.length + 1) s (.ofText t) := by
      change (if s.unread ≠ runeNone then _ else nextLoop _ s (.ofText t)) = _
      rw [if_neg hback', hrem]
    have htake := @nextLoop_takeRune t.length s _ (Input.prompt_ofText t)
    rw [hrem] at htake
    rw [on, hrun]
    cases hcase : takeRune t with
    | none =>
      rw [hcase] at htake
      intro r hr
      obtain ⟨r', hr', rfl⟩ := Option.map_eq_some_iff.mp hr
      exact htake r' hr'
    | some r =>
      rw [hcase] at htake
      obtain ⟨s', hloop, hcore, herrors, hrest⟩ := htake
      refine ⟨s', ?_, hcore, herrors⟩
      rw [hloop, Option.map_some, hrest]

theorem clean_next (c : Core) (t : Bytes) : next.clean c t = cleanNext c t := by
  have hon := next_on c.scanner t
  rw [Core.core_scanner] at hon
  rw [clean]
  cases hcase : cleanNext c t with
  | none =>
    rw [hcase] at hon
    cases hrun : next.on c.scanner t with
    | none => rfl
    | some r =>
      have hlt : 0 < r.2.1.errors.length := hon r hrun
      exact if_neg (List.ne_nil_of_length_pos hlt)
  | some r =>
    rw [hcase] at hon
    obtain ⟨s', hrun, hcore, herrors⟩ := hon
    have herrors : s'.errors = [] := herrors
    rw [hrun, Option.bind_some]
    dsimp only
    rw [if_pos herrors, hcore]

instance Uniform.next : Uniform next where
  on_of_some {s t ch c t'} h := by
    have hon := next_on s t
    rw [clean_next] at h
    rw [h] at hon
    exact hon
  lt_of_none {s t ch s' t'} h hrun := by
    have hon := next_on s t
    rw [clean_next] at h
    rw [h] at hon
    exact hon _ hrun

end ScanM

end OneJit.Go
