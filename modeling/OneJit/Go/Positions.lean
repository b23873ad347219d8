import OneJit.Go.TokenPlaces

/-!
# The positions of tokens

`Scan` takes the end position for the position of a token when the first rune of the token is already
taken. So no token gets the position of its first byte.
-/

namespace OneJit.Go

/-- What `PosEnd` and `Position` are to return after the token at a place. -/
structure Reports (name : String) (base : Int) (t : Bytes) (p : Nat × Nat) (s : Scanner) : Prop where
  pos : s.pos = base + p.1
  endpos : s.endpos = base + p.2
  position : s.position = some ⟨name, base + p.1, lineOf t p.1, columnOf t p.1⟩

/-- After each call that returns a token of the text, its place is reported, and the ranges of two
such tokens are apart, in the order of the calls. -/
def PositionsDenote (unicode : Unicode) (s : Scanner) (name : String) (base : Int) (t : Bytes) :
    Prop :=
  let s := s.init (some (.new name base))
  let calls := s.calls unicode (.whole t)
  (∀ n x y, calls n = some x → calls (n + 1) = some y → Scanner.readsToken unicode x.1 x.2 →
    ∃ p, place unicode t (s.tokensRead unicode (.whole t) n) = some p ∧
      Reports name base t p y.1) ∧
  ∀ m n x y x' y', m < n → calls m = some x → calls (m + 1) = some y →
    Scanner.readsToken unicode x.1 x.2 → calls n = some x' → calls (n + 1) = some y' →
    Scanner.readsToken unicode x'.1 x'.2 → y.1.endpos ≤ y'.1.pos

namespace ScanM

theorem scanToken_eof (unicode : Unicode) : scanToken unicode runeEOF = setResultTok .eof := by
  unfold scanToken
  rw [if_neg (by decide), if_neg (by decide), if_neg (by decide), if_neg (by decide),
    if_neg (by decide), if_neg (by decide), isLetter_eof, if_neg (by decide), if_pos (.inl rfl)]

/-- The scanner is at the end of its input. -/
def AtEnd (s : Scanner) : Prop := s.ch = runeEOF ∧ s.status = .normal

theorem scanFrom_eof (unicode : Unicode) {s : Scanner} (h : AtEnd s) (i : Input) :
    ∃ s', (scanFrom unicode runeEOF).run s i = some ((.eof, []), s', i) ∧ AtEnd s' := by
  obtain ⟨hch, hstatus⟩ := h
  refine ⟨({ s with pos := s.endpos, builder := [] } : Scanner).setResultTok .eof, ?_, hch, hstatus⟩
  have hitem : (scanItem unicode).run { s with pos := s.endpos } i =
      some ((), ({ s with pos := s.endpos, builder := [] } : Scanner).setResultTok .eof, i) := by
    rw [scanItem_eq]
    change (scanToken unicode s.ch).run { s with pos := s.endpos, builder := [] } i = _
    rw [hch, scanToken_eof]
    rfl
  have hfrom : (scanFrom unicode runeEOF).run s i =
      ((scanItem unicode).run { s with pos := s.endpos } i).bind fun x => endScan.run x.2.1 x.2.2 := by
    rfl
  have hend : ∀ s' : Scanner, s'.status = .normal →
      endScan.run s' i = some ((s'.tok, s'.lit), s', i) := by
    intro s' hnormal
    change (if s'.status = .insertSemi then _ else pure (s'.tok, s'.lit) : ScanM _).run s' i = _
    rw [hnormal]
    rfl
  rw [hfrom, hitem, Option.bind_some]
  exact hend _ hstatus

theorem skipSpaces_eof {s : Scanner} (h : s.ch = runeEOF) (i : Input) :
    skipSpaces.run s i = some (runeEOF, s, i) := by
  change (skipLoop (i.remaining.length + 3) s.ch).run s i = _
  rw [h, skipLoop_eof]
  rfl

end ScanM

namespace Scanner

theorem readsToken_false {unicode : Unicode} {s s' : Scanner} {i i' : Input}
    (hstatus : s.status = .normal) (hskip : ScanM.skipSpaces.run s i = some (runeEOF, s', i')) :
    readsToken unicode s i = false := by
  rw [readsToken, hskip, hstatus]
  rfl

open ScanM in
/-- At the end of the input, no more tokens are read. -/
theorem calls_atEnd (unicode : Unicode) {s : Scanner} {i : Input} {n : Nat} {x : Scanner × Input}
    (hfirst : readsToken unicode s i = false ∧ ∃ r s' i', (scan unicode).run s i = some (r, s', i') ∧
      AtEnd s') (h : calls unicode s i n = some x) :
    readsToken unicode x.1 x.2 = false ∧
      ∃ r s' i', (scan unicode).run x.1 x.2 = some (r, s', i') ∧ AtEnd s' := by
  induction n generalizing x with
  | zero =>
    cases h
    exact hfirst
  | succ n ih =>
    obtain ⟨y, hy, hstep⟩ := Option.bind_eq_some_iff.mp h
    obtain ⟨-, r, s₁, i₁, hrun, hend⟩ := ih hy
    rw [hrun, Option.map_some, Option.some.injEq] at hstep
    subst hstep
    have hskip := skipSpaces_eof hend.1 i₁
    have hne : s₁.status ≠ .cached := by
      rw [hend.2]
      decide
    obtain ⟨s₂, hfrom, hend₂⟩ := scanFrom_eof unicode hend i₁
    refine ⟨readsToken_false hend.2 hskip, (.eof, []), s₂, i₁, ?_, hend₂⟩
    rw [scan_run unicode hne, hskip]
    exact hfrom

end Scanner

open ScanM in
/-- The positions denote the places of the tokens exactly when there is no token. -/
theorem positions_iff (unicode : Unicode) (s : Scanner) (name : String) (base : Int) (t : Bytes) :
    PositionsDenote unicode s name base t ↔ firstText (some s.errors.length) t = none := by
  have hs := located_init s name base (.whole t)
  have hskip := skipSpaces_first hs (Input.prompt_whole t) rfl rfl rfl
  rw [Input.remaining_whole] at hs hskip
  unfold PositionsDenote
  dsimp only
  generalize hinit : s.init (some (.new name base)) = s₀ at hs hskip ⊢
  have hstatus : s₀.status = .normal := by
    rw [← hinit]
    rfl
  have hne : s₀.status ≠ .cached := by
    rw [hstatus]
    decide
  have herrors : s₀.errors = s.errors := by
    rw [← hinit]
    rfl
  rw [herrors] at hskip
  obtain ⟨ch, s₁, i₁, hskip, hfound⟩ := hskip
  obtain ⟨_, _, _, hskip', hs₁⟩ := Maintains.run (m := skipSpaces) hs
  rw [hskip, Option.some.injEq] at hskip'
  cases hskip'
  constructor
  · rintro ⟨hplace, -⟩
    by_contra hsome
    obtain ⟨u, hu⟩ := Option.ne_none_iff_exists'.mp hsome
    obtain ⟨hch, hsize, hblank, hrest⟩ := hfound.token u hu
    obtain ⟨r, s₂, i₂, hfrom, -, hpos⟩ := scanFrom_located unicode ch hs₁
    have hscan : (scan unicode).run s₀ (.whole t) = some (r, s₂, i₂) := by
      rw [scan_run unicode hne, hskip]
      exact hfrom
    have hcall : s₀.calls unicode (.whole t) 1 = some (s₂, i₂) := by
      change ((scan unicode).run s₀ (.whole t)).map (·.2) = _
      rw [hscan]
      rfl
    -- the position is behind the first rune
    have hwrong : ∀ p s', place unicode t 0 = some p → s'.pos = s₂.pos →
        ¬ Reports name base t p s' := by
      intro p s' hp hpos' hreports
      rw [place, firstText_none hu, Option.map_some, Option.some.injEq] at hp
      subst hp
      have hfirst := hreports.pos
      have htotal := hs₁.total
      have hle := firstText_le hu
      have hle' := Utf8.decodeRune_le u
      rw [hrest, List.length_drop] at htotal
      rw [hpos', hpos, placeOf] at hfirst
      dsimp only at hfirst
      omega
    by_cases hcached : s₂.status = .cached
    · -- a semicolon goes before the token, which the next call returns
      have hread : Scanner.readsToken unicode s₀ (.whole t) = false := by
        simp [Scanner.readsToken, hstatus, hskip, hscan, hcached]
      have hzero : s₀.tokensRead unicode (.whole t) 1 = 0 := by
        simp [Scanner.tokensRead, List.range_succ, Scanner.calls, hread]
      have hcall₂ : s₀.calls unicode (.whole t) 2 = some ({ s₂ with status := .normal }, i₂) := by
        rw [Scanner.calls, hcall, Option.bind_some, scan_cached unicode hcached]
        rfl
      obtain ⟨p, hp, hreports⟩ := hplace 1 _ _ hcall hcall₂ (by simp [Scanner.readsToken, hcached])
      rw [hzero] at hp
      exact hwrong p { s₂ with status := .normal } hp rfl hreports
    · have hread : Scanner.readsToken unicode s₀ (.whole t) = true := by
        have hline : ch ≠ rune '\n' := by
          intro heq
          rw [heq] at hch
          rw [← Int.ofNat_inj.mp hch] at hblank
          cases hblank
        have heof : ch ≠ runeEOF := by
          intro heq
          have hle : 0 ≤ runeEOF := by
            rw [← heq, hch]
            exact Int.natCast_nonneg _
          exact absurd hle (by decide)
        simp [Scanner.readsToken, hskip, hscan, hcached, hline, heof]
      obtain ⟨p, hp, hreports⟩ := hplace 0 _ _ rfl hcall hread
      exact hwrong p _ hp rfl hreports
  · intro hnone
    have heof := hfound.eof hnone
    subst heof
    obtain ⟨s₂, hfrom, hend⟩ := scanFrom_eof unicode
      ⟨hfound.head, hfound.kept.status.trans hstatus⟩ i₁
    have hall : ∀ n x, s₀.calls unicode (.whole t) n = some x →
        Scanner.readsToken unicode x.1 x.2 = false := by
      intro n x hx
      refine (Scanner.calls_atEnd unicode ⟨Scanner.readsToken_false hstatus hskip, ?_⟩ hx).1
      refine ⟨(.eof, []), s₂, i₁, ?_, hend⟩
      rw [scan_run unicode hne, hskip]
      exact hfrom
    constructor
    · intro n x y hx _ hread
      rw [hall n x hx] at hread
      cases hread
    · intro m n x y _ _ _ hx _ hread
      rw [hall m x hx] at hread
      cases hread

/-- The identifier `a` is at the offsets 0 to 1, but its position is 1. -/
theorem positions_astray : place noLetters [0x61] 0 = some (0, 1) ∧
    ((zeroScanner.init (some (.new "f" 0))).calls noLetters (.whole [0x61]) 1).map
      (fun x => (x.1.tok, x.1.lit, x.1.pos, x.1.endpos)) = some (.ident, [0x61], 1, 1) ∧
    ¬ PositionsDenote noLetters zeroScanner "f" 0 [0x61] := by
  have hplace : place noLetters [0x61] 0 = some (0, 1) := by decide +kernel
  refine ⟨hplace, by decide +kernel, ?_⟩
  rintro ⟨h, -⟩
  obtain ⟨p, hp, hreports⟩ := h 0 _ _ rfl rfl (by decide +kernel)
  rw [show (zeroScanner.init (some (.new "f" 0))).tokensRead noLetters (.whole [0x61]) 0 = 0 from rfl,
    hplace, Option.some.injEq] at hp
  subst hp
  exact absurd hreports.pos (by decide +kernel)

end OneJit.Go
