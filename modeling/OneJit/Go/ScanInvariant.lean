import OneJit.Go.ScanFuel
import OneJit.Go.Uniform

/-!
# Invariants of the scanner

What `next` and `error` keep true of the file, the positions and the input, each computation of the
scanner keeps true, and it does not panic.
-/

namespace OneJit.Go

/-- A statement about the file, the positions and the input, which holds behind each rune that is
taken, and which puts the position into the file. -/
class Stable (I : Scanner → Input → Prop) : Prop where
  frame : ∀ {s s' i}, I s i → s'.file = s.file → s'.pos = s.pos → s'.endpos = s.endpos → I s' i
  position : ∀ {s i}, I s i → s.position ≠ none
  found : ∀ {s i}, I s i → (Utf8.decodeRune i.fill.available).2 ≠ 0 →
    I (s.found (Utf8.decodeRune i.fill.available).1 (Utf8.decodeRune i.fill.available).2) i.step
  invalid : ∀ {s i}, I s i → (Utf8.decodeRune i.fill.available).2 = 1 →
    I { s with endpos := s.endpos + 1 } i.step
  eof : ∀ {s i}, I s i → (Utf8.decodeRune i.fill.available).2 = 0 → I s.foundEOF i.step

namespace ScanM

variable {α β : Type}

/-- The computation does not panic, and keeps the statement. -/
class Maintains (I : Scanner → Input → Prop) (m : ScanM α) : Prop where
  run : ∀ {s i}, I s i → ∃ a s' i', m.run s i = some (a, s', i') ∧ I s' i'

variable {I : Scanner → Input → Prop}

instance Maintains.bind (m : ScanM α) (f : α → ScanM β) [Maintains I m] [∀ a, Maintains I (f a)] :
    Maintains I (m >>= f) where
  run {s i} h := by
    obtain ⟨a, s₁, i₁, hrun, h₁⟩ := Maintains.run (m := m) h
    obtain ⟨b, s₂, i₂, hnext, h₂⟩ := Maintains.run (m := f a) h₁
    refine ⟨b, s₂, i₂, ?_, h₂⟩
    change (m.run s i).bind (fun (a, s, i) => (f a).run s i) = some (b, s₂, i₂)
    rw [hrun]
    exact hnext

instance Maintains.pure (a : α) : Maintains I (Pure.pure a : ScanM α) where
  run {s i} h := ⟨a, s, i, rfl, h⟩

instance Maintains.get : Maintains I ScanM.get where
  run {s i} h := ⟨s, s, i, rfl, h⟩

instance Maintains.fuel : Maintains I ScanM.fuel where
  run {s i} h := ⟨i.remaining.length + 3, s, i, rfl, h⟩

instance Maintains.ite (p : Prop) [Decidable p] (m n : ScanM α) [Maintains I m] [Maintains I n] :
    Maintains I (if p then m else n) := by
  split <;> infer_instance

variable [Stable I]

theorem Maintains.modify {f : Scanner → Scanner} (hfile : ∀ s, (f s).file = s.file)
    (hpos : ∀ s, (f s).pos = s.pos) (hend : ∀ s, (f s).endpos = s.endpos) :
    Maintains I (modify f) where
  run {s i} h := ⟨(), f s, i, rfl, Stable.frame h (hfile s) (hpos s) (hend s)⟩

instance Maintains.error (msg : String) : Maintains I (error msg) where
  run {s i} h := by
    obtain ⟨pos, hpos⟩ := Option.ne_none_iff_exists'.mp (Stable.position h)
    refine ⟨false, s.error1 ⟨pos, msg⟩, i, ?_, Stable.frame h rfl rfl rfl⟩
    change ((s.error msg).map fun s => (false, s)).map (fun (a, s) => (a, s, i)) = _
    rw [Scanner.error, hpos]
    rfl

theorem nextLoop_maintains (n : Nat) {s : Scanner} {i : Input} (h : I s i)
    (hn : i.remaining.length < n) : ∃ ch s' i', nextLoop n s i = some (ch, s', i') ∧ I s' i' := by
  induction n generalizing s i with
  | zero => exact absurd hn (Nat.not_lt_zero _)
  | succ n ih =>
    unfold nextLoop
    dsimp only
    split
    · next hzero => exact ⟨_, _, _, rfl, Stable.eof h hzero⟩
    · next hzero =>
      split
      · next hinvalid =>
        obtain ⟨pos, hpos⟩ := Option.ne_none_iff_exists'.mp (Stable.position h)
        rw [Scanner.error, hpos, Option.map_some, Option.bind_some]
        have hone : (Utf8.decodeRune i.fill.available).2 = 1 := by omega
        have hlt := Input.length_step_lt (Nat.pos_iff_ne_zero.mpr hzero)
        exact ih (Stable.invalid (Stable.frame h rfl rfl rfl) hone) (by omega)
      · exact ⟨_, _, _, rfl, Stable.found h hzero⟩

instance Maintains.next : Maintains I next where
  run {s i} h := by
    change ∃ a s' i', (if s.unread ≠ runeNone then _ else _) = some (a, s', i') ∧ I s' i'
    split
    · split
      · exact ⟨_, _, _, rfl, Stable.frame h rfl rfl rfl⟩
      · exact ⟨_, _, _, rfl, Stable.frame h rfl rfl rfl⟩
    · exact nextLoop_maintains _ h (Nat.lt_succ_self _)

/-! ## The text and the token -/

theorem frame_addRune (s : Scanner) (ch : Rune) : (s.addRune ch).file = s.file ∧
    (s.addRune ch).pos = s.pos ∧ (s.addRune ch).endpos = s.endpos := by
  unfold Scanner.addRune
  split <;> exact ⟨rfl, rfl, rfl⟩

instance (ch : Rune) : Maintains I (addRune ch) :=
  .modify (fun s => (frame_addRune s ch).1) (fun s => (frame_addRune s ch).2.1)
    fun s => (frame_addRune s ch).2.2

instance : Maintains I add :=
  .modify (fun s => (frame_addRune s s.ch).1) (fun s => (frame_addRune s s.ch).2.1)
    fun s => (frame_addRune s s.ch).2.2

instance : Maintains I clearString := .modify (fun _ => rfl) (fun _ => rfl) fun _ => rfl

instance (tok : Token) : Maintains I (setResult tok) :=
  .modify (fun _ => rfl) (fun _ => rfl) fun _ => rfl

instance (tok : Token) : Maintains I (setResultTok tok) :=
  .modify (fun _ => rfl) (fun _ => rfl) fun _ => rfl

instance : Maintains I (modify Scanner.autoInsertSemi) := by
  apply Maintains.modify <;>
    · intro s
      unfold Scanner.autoInsertSemi
      split <;> rfl

instance : Maintains I (modify fun s => { s with tok := .illegal }) :=
  .modify (fun _ => rfl) (fun _ => rfl) fun _ => rfl

instance : Maintains I (modify fun s => if isSpace s.ch then s else s.addRune s.ch) := by
  apply Maintains.modify
  · intro s
    split
    · rfl
    · exact (frame_addRune s s.ch).1
  · intro s
    split
    · rfl
    · exact (frame_addRune s s.ch).2.1
  · intro s
    split
    · rfl
    · exact (frame_addRune s s.ch).2.2

instance : Maintains I (modify fun s => { s with lit := s.builder }) :=
  .modify (fun _ => rfl) (fun _ => rfl) fun _ => rfl

instance : Maintains I (modify fun s => { s with unread := rune '.' }) :=
  .modify (fun _ => rfl) (fun _ => rfl) fun _ => rfl

instance (msg : String) : Maintains I (invalid msg) := by
  unfold invalid
  infer_instance

/-! ## Identifiers, operators and comments -/

instance (unicode : Unicode) (n : Nat) (ch : Rune) : Maintains I (identifierLoop unicode n ch) := by
  induction n generalizing ch with
  | zero => exact .pure ()
  | succ n ih =>
    unfold identifierLoop
    infer_instance

instance (unicode : Unicode) : Maintains I (scanIdentifier unicode) := by
  unfold scanIdentifier
  dsimp only
  infer_instance

instance (n : Nat) (ch : Rune) (op : Token) : Maintains I (operatorLoop n ch op) := by
  induction n generalizing ch op with
  | zero => exact .pure op
  | succ n ih =>
    unfold operatorLoop
    dsimp only
    infer_instance

instance (op : Token) : Maintains I (scanOperator op) := by
  unfold scanOperator
  infer_instance

instance (n : Nat) (ch : Rune) : Maintains I (commentLineLoop n ch) := by
  induction n generalizing ch with
  | zero => exact .pure ch
  | succ n ih =>
    unfold commentLineLoop
    infer_instance

instance : Maintains I scanCommentLine := by
  have hend : ∀ ch : Rune, Maintains I (do
      if ch = rune '\n' then modify Scanner.autoInsertSemi
      setResult .comment) := fun _ => inferInstance
  unfold scanCommentLine
  infer_instance

instance (n : Nat) (star : Bool) : Maintains I (commentBlockLoop n star) := by
  induction n generalizing star with
  | zero => exact .pure ()
  | succ n ih =>
    unfold commentBlockLoop
    infer_instance

instance : Maintains I scanCommentBlock := by
  unfold scanCommentBlock
  infer_instance

instance : Maintains I scanSlash := by
  unfold scanSlash
  infer_instance

instance : Maintains I scanOperatorOrComment := by
  unfold scanOperatorOrComment
  infer_instance

/-! ## Numbers -/

instance (base : IntBase) (n : Nat) (ch : Rune) (last : Bool) :
    Maintains I (intDigitsLoop base n ch last) := by
  induction n generalizing ch last with
  | zero => exact .pure true
  | succ n ih =>
    unfold intDigitsLoop
    infer_instance

instance (base : IntBase) : Maintains I (scanIntDigits base) := by
  unfold scanIntDigits
  infer_instance

instance : Maintains I scanFloatExponent := by
  unfold scanFloatExponent
  infer_instance

instance (str : Bytes) (base : IntBase) : Maintains I (quickCheckValidInt str base) := by
  unfold quickCheckValidInt
  dsimp only
  infer_instance

instance (base : IntBase) (chs : List Rune) (n : Nat) : Maintains I (validIntLoop base chs n) := by
  induction chs generalizing n with
  | nil =>
    unfold validIntLoop
    infer_instance
  | cons ch chs ih =>
    unfold validIntLoop
    infer_instance

instance (str : Bytes) (base : IntBase) : Maintains I (checkValidInt str base) := by
  unfold checkValidInt
  infer_instance

instance (str : Bytes) : Maintains I (checkValidHexFloat str) := by
  unfold checkValidHexFloat
  dsimp only
  infer_instance

instance (tok : Token) (ch : Rune) : Maintains I (endIntOrFloat tok ch) := by
  unfold endIntOrFloat
  infer_instance

instance (base : IntBase) (tok : Token) (ch : Rune) :
    Maintains I (scanExponentAndUnit base tok ch) := by
  have hunit : ∀ (tok : Token) (exponent : Prop) [Decidable exponent], Maintains I (do
      let s ← get
      if s.ch = rune 'i' ∧ s.builder ≠ Token.bytes ['.'] then do
        add
        let ch ← next
        endIntOrFloat .imag ch
      else if tok = .float ∧ base = .base16 then
        if exponent then do
          if ← checkValidHexFloat s.builder then endIntOrFloat tok s.ch
        else
          let _ ← invalid errHexFloatNoExponent
      else endIntOrFloat tok s.ch) := fun _ _ _ => inferInstance
  unfold scanExponentAndUnit
  dsimp only
  infer_instance

instance (base : IntBase) (afterPoint : Bool) : Maintains I (scanFraction base afterPoint) := by
  have hdigits : Maintains I (do
      if ← scanIntDigits base then
        scanExponentAndUnit base .float (← get).ch) := inferInstance
  unfold scanFraction
  infer_instance

instance (base : IntBase) (prevChar : Rune) : Maintains I (scanIntOrFloat base prevChar) := by
  unfold scanIntOrFloat
  infer_instance

instance (base : IntBase) (tok : Token) (ch : Rune) : Maintains I (endInt base tok ch) := by
  unfold endInt
  infer_instance

instance (base : IntBase) : Maintains I (scanInt base) := by
  have hget : Maintains I (do
      let ch := (← get).ch
      if base = .base16 ∧ (ch = rune '.' ∨ ch = rune 'P' ∨ ch = rune 'p') then scanIntOrFloat base ch
      else if ch = rune 'i' then do
        add
        let ch ← next
        endInt base .imag ch
      else endInt base .int ch) := by
    dsimp only
    infer_instance
  unfold scanInt
  infer_instance

instance : Maintains I scanNumber := by
  unfold scanNumber
  dsimp only
  infer_instance

instance : Maintains I scanDot := by
  unfold scanDot
  infer_instance

/-! ## Strings -/

instance (b : Bool) (msg : String) : Maintains I (errorUnless b msg) := by
  unfold errorUnless
  infer_instance

instance (b : Bool) (ch : Rune) : Maintains I (nextIf b ch) := by
  unfold nextIf
  infer_instance

instance (kind : StrKind) (n x : Nat) : Maintains I (hexDigitsLoop kind n x) := by
  induction n generalizing x with
  | zero => exact .pure _
  | succ n ih =>
    unfold hexDigitsLoop
    infer_instance

instance (ok : Nat → Bool) (x : Option Nat) : Maintains I (endDigits ok x) := by
  unfold endDigits
  cases x <;> infer_instance

instance (kind : StrKind) (initial : Rune) (n : Nat) :
    Maintains I (scanUnicodeHexDigits kind initial n) := by
  rw [scanUnicodeHexDigits_eq]
  infer_instance

instance (kind : StrKind) (n : Nat) (ch : Rune) (x : Nat) :
    Maintains I (octalDigitsLoop kind n ch x) := by
  induction n generalizing ch x with
  | zero => exact .pure _
  | succ n ih =>
    unfold octalDigitsLoop
    infer_instance

instance (kind : StrKind) (ch : Rune) (n max : Nat) :
    Maintains I (scanUnicodeOctalDigits kind ch n max) := by
  rw [scanUnicodeOctalDigits_eq]
  infer_instance

instance (kind : StrKind) (ch : Rune) : Maintains I (scanEscape kind ch) := by
  unfold scanEscape
  infer_instance

instance (kind : StrKind) (n size : Nat) (escape : Bool) :
    Maintains I (stringLoop kind n size escape) := by
  induction n generalizing size escape with
  | zero => exact .pure _
  | succ n ih =>
    unfold stringLoop
    infer_instance

instance (kind : StrKind) (size errnum : Nat) : Maintains I (stringToken kind size errnum) := by
  unfold stringToken
  infer_instance

instance (kind : StrKind) (token : Nat → ScanM Token) [∀ size, Maintains I (token size)]
    (r : Option (Nat × Bool)) : Maintains I (endString kind token r) := by
  unfold endString
  cases r <;> infer_instance

theorem scanRuneOrString_eq (kind : StrKind) : scanRuneOrString kind = (do
    addRune kind.delim
    let s ← get
    endString kind (fun size => stringToken kind size s.errors.length)
      (← stringLoop kind (← fuel) 0 false)) := by
  rfl

instance (kind : StrKind) : Maintains I (scanRuneOrString kind) := by
  rw [scanRuneOrString_eq]
  infer_instance

instance (n : Nat) : Maintains I (rawStringLoop n) := by
  induction n with
  | zero => exact .pure true
  | succ n ih =>
    unfold rawStringLoop
    infer_instance

instance : Maintains I scanRawString := by
  unfold scanRawString
  infer_instance

/-! ## Scanning -/

instance (unicode : Unicode) (ch : Rune) : Maintains I (scanToken unicode ch) := by
  unfold scanToken
  infer_instance

instance (unicode : Unicode) : Maintains I (scanItem unicode) := by
  rw [scanItem_eq]
  infer_instance

instance : Maintains I (modify fun s =>
    { s with ch := runeNone, tok := .semicolon, lastNonComment := .semicolon, lit := [] }) :=
  .modify (fun _ => rfl) (fun _ => rfl) fun _ => rfl

instance (n : Nat) (ch : Rune) : Maintains I (skipLoop n ch) := by
  induction n generalizing ch with
  | zero => exact .pure ch
  | succ n ih =>
    unfold skipLoop
    infer_instance

instance : Maintains I skipSpaces := by
  unfold skipSpaces
  dsimp only
  infer_instance

instance : Maintains I (modify fun s => { s with status := .cached, lastNonComment := .semicolon }) :=
  .modify (fun _ => rfl) (fun _ => rfl) fun _ => rfl

instance : Maintains I endScan := by
  unfold endScan
  infer_instance

/-- `Scan` keeps what stays true when the position is moved to the end position. -/
theorem scan_maintains (unicode : Unicode)
    (hmark : ∀ {s i}, I s i → I { s with pos := s.endpos } i) : Maintains I (scan unicode) := by
  have hpos : Maintains I (modify fun s => { s with pos := s.endpos }) :=
    ⟨fun {s i} h => ⟨(), { s with pos := s.endpos }, i, rfl, hmark h⟩⟩
  have hnormal : Maintains I (modify fun s => { s with status := .normal }) :=
    .modify (fun _ => rfl) (fun _ => rfl) fun _ => rfl
  have hscan : ∀ ch, Maintains I (scanFrom unicode ch) := by
    intro ch
    unfold scanFrom
    infer_instance
  rw [scan_eq]
  infer_instance

end ScanM

end OneJit.Go
