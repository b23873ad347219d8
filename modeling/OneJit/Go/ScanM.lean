import OneJit.Go.Reader

/-!
# Scanner computations

The state of the scanner, and computations over it that take runes from the input. A computation
carries the proof that it does the same on inputs that deliver the same bytes without delay.
-/

namespace OneJit.Go

/-- A rune, or one of the negative constants. -/
abbrev Rune := Int

/-- The rune of a character. -/
def rune (c : Char) : Rune := c.toNat

def runeBOF : Rune := -4
def runeNone : Rune := -3
def runeTooManyErrors : Rune := -2
def runeEOF : Rune := -1
def runeBOM : Rune := 0xfeff

/-- `token.Error`. -/
structure ScanError where
  pos : Position
  msg : String
  deriving DecidableEq, Repr

/-- `tokenStatus`. -/
inductive TokenStatus
  | normal | insertSemi | cached
  deriving DecidableEq, Repr

/-- `Scanner`, with the fields of its `utf8Reader` that do not hold the input. -/
structure Scanner where
  tok : Token
  lit : Bytes
  status : TokenStatus
  lastNonComment : Token
  builder : Bytes
  ch : Rune
  unread : Rune
  file : Option TokenFile
  pos : Int
  endpos : Int
  errors : List ScanError

namespace Scanner

/-- `Init`. The errors are kept. -/
def init (s : Scanner) (file : Option TokenFile) : Scanner :=
  let base := (file.map TokenFile.base).getD 0
  { s with
    tok := .illegal, lit := [], status := .normal, lastNonComment := .illegal, builder := []
    ch := runeBOF, unread := runeNone, file := file, pos := base, endpos := base }

/-- `file.Position(file.Pos(pos))`. -/
def position (s : Scanner) : Option Position :=
  match s.file with
  | none => some ⟨"", s.pos, 0, 0⟩
  | some file => file.position s.pos

/-- `error1`. -/
def error1 (s : Scanner) (err : ScanError) : Scanner :=
  let errors := s.errors ++ [err]
  { s with errors := errors, unread := if 10 ≤ errors.length then runeTooManyErrors else s.unread }

/-- `error`, which panics when the file has no such position. -/
def error (s : Scanner) (msg : String) : Option Scanner :=
  s.position.map fun pos => s.error1 ⟨pos, msg⟩

/-- `foundEOF`. -/
def foundEOF (s : Scanner) : Scanner :=
  { s with ch := runeEOF, file := s.file.map fun f => f.setSize (s.endpos - f.base) }

/-- The rune that is taken from the input. -/
def found (s : Scanner) (ch : Rune) (size : Nat) : Scanner :=
  let endpos := s.endpos + size
  { s with
    ch := ch, endpos := endpos
    file := if ch = rune '\n' then s.file.map fun f => f.addLine endpos else s.file }

end Scanner

/-! ## Computations -/

/-- The result, the scanner and the input after a computation, or none when it panics. -/
abbrev Outcome (α : Type) := Option (α × Scanner × Input)

/-- Outcomes that differ in how the rest of the input is delivered only. -/
def Outcome.Alike {α : Type} : Outcome α → Outcome α → Prop :=
  Option.Rel fun x y => x.1 = y.1 ∧ x.2.1 = y.2.1 ∧ Input.Alike x.2.2 y.2.2

/-- A computation of the scanner. -/
structure ScanM (α : Type) where
  run : Scanner → Input → Outcome α
  respects : ∀ s {i j : Input}, i.Alike j → Outcome.Alike (run s i) (run s j)

namespace ScanM

variable {α β : Type}

/-- A computation that does not look at the input. -/
def ofScanner (f : Scanner → Option (α × Scanner)) : ScanM α where
  run s i := (f s).map fun (a, s) => (a, s, i)
  respects s i j h := by
    cases hf : f s with
    | none => exact .none
    | some r => exact .some ⟨rfl, rfl, h⟩

/-- One computation after another. -/
def andThen (m : ScanM α) (f : α → ScanM β) : ScanM β where
  run s i := (m.run s i).bind fun (a, s, i) => (f a).run s i
  respects s i j h := by
    have hm := m.respects s h
    generalize m.run s i = x at hm
    generalize m.run s j = y at hm
    cases hm with
    | none => exact .none
    | @some x y hxy =>
      obtain ⟨a, s', i'⟩ := x
      obtain ⟨b, t', j'⟩ := y
      obtain ⟨rfl, rfl, halike⟩ := hxy
      exact (f a).respects s' halike

instance : Monad ScanM where
  pure a := ofScanner fun s => some (a, s)
  bind := andThen

/-- The state of the scanner. -/
def get : ScanM Scanner := ofScanner fun s => some (s, s)

/-- The state of the scanner is changed. -/
def modify (f : Scanner → Scanner) : ScanM Unit := ofScanner fun s => some ((), f s)

/-- `error`, which returns false. -/
def error (msg : String) : ScanM Bool := ofScanner fun s => (s.error msg).map fun s => (false, s)

/-- A bound on the number of rounds of a loop that takes a rune in each round. -/
def fuel : ScanM Nat where
  run s i := some (i.remaining.length + 3, s, i)
  respects s i j h := .some ⟨by rw [h.remaining], rfl, h⟩

end ScanM

/-! ## The next rune -/

def errInvalidUtf8 : String := "invalid UTF-8 sequence"

/-- The loop of `next`. Each round takes a byte at least, so that the fuel lasts. -/
def nextLoop : Nat → Scanner → Input → Outcome Rune
  | 0, s, i => some (runeEOF, s.foundEOF, i)
  | fuel + 1, s, i =>
    let r := Utf8.decodeRune i.fill.available
    if r.2 = 0 then some (runeEOF, s.foundEOF, i.step)
    else if r.1 = Utf8.runeError ∧ r.2 ≤ 1 then
      (s.error errInvalidUtf8).bind fun s =>
        nextLoop fuel { s with endpos := s.endpos + 1 } i.step
    else some ((r.1 : Rune), s.found r.1 r.2, i.step)

theorem nextLoop_respects (fuel : Nat) (s : Scanner) {i j : Input} (h : i.Alike j) :
    Outcome.Alike (nextLoop fuel s i) (nextLoop fuel s j) := by
  induction fuel generalizing s i j with
  | zero => exact .some ⟨rfl, rfl, h⟩
  | succ fuel ih =>
    unfold nextLoop
    rw [h.decodeRune]
    dsimp only
    split
    · exact .some ⟨rfl, rfl, h.step⟩
    · split
      · cases s.error errInvalidUtf8 with
        | none => exact .none
        | some s => exact ih _ h.step
      · exact .some ⟨rfl, rfl, h.step⟩

/-- `next`: the rune that was put back, or one of the input. -/
def next : ScanM Rune where
  run s i :=
    if s.unread ≠ runeNone then
      if s.unread = runeTooManyErrors then some (runeEOF, { s with ch := runeEOF }, i)
      else some (s.unread, { s with ch := s.unread, unread := runeNone }, i)
    else nextLoop (i.remaining.length + 1) s i
  respects s i j h := by
    split
    · split
      · exact .some ⟨rfl, rfl, h⟩
      · exact .some ⟨rfl, rfl, h⟩
    · rw [h.remaining]
      exact nextLoop_respects _ s h

end OneJit.Go
