import OneJit.Go.Clean

/-!
# The scanner is uniform

What each computation of the scanner does without an error is decided by its core and the bytes that
remain, except for the count of errors that the literals in quotes look at.
-/

namespace OneJit.Go.ScanM

variable {α β : Type}

/-! ## The text and the token -/

theorem core_addRune (s : Scanner) (ch : Rune) :
    (s.addRune ch).core = (s.core.scanner.addRune ch).core := by
  unfold Scanner.addRune
  split <;> rfl

theorem errors_addRune (s : Scanner) (ch : Rune) : (s.addRune ch).errors = s.errors := by
  unfold Scanner.addRune
  split <;> rfl

instance (ch : Rune) : Uniform (addRune ch) :=
  .modify (fun s => errors_addRune s ch) fun s => core_addRune s ch

instance : Uniform add := .modify (fun s => errors_addRune s s.ch) fun s => core_addRune s s.ch

instance : Uniform clearString := .modify (fun _ => rfl) fun _ => rfl

instance (tok : Token) : Uniform (setResult tok) := .modify (fun _ => rfl) fun _ => rfl

instance (tok : Token) : Uniform (setResultTok tok) := .modify (fun _ => rfl) fun _ => rfl

instance : Uniform (modify Scanner.autoInsertSemi) := by
  refine .modify (fun s => ?_) fun s => ?_
  · unfold Scanner.autoInsertSemi
    split <;> rfl
  · have hneed : s.core.scanner.needInsertSemi = s.needInsertSemi := rfl
    unfold Scanner.autoInsertSemi
    rw [hneed]
    split <;> rfl

instance : Uniform (modify fun s => { s with tok := .illegal }) :=
  .modify (fun _ => rfl) fun _ => rfl

instance : Uniform (modify fun s => if isSpace s.ch then s else s.addRune s.ch) := by
  refine .modify (fun s => ?_) fun s => ?_
  · split
    · rfl
    · exact errors_addRune s s.ch
  · have hch : s.core.scanner.ch = s.ch := rfl
    rw [hch]
    split
    · rfl
    · exact core_addRune s s.ch

instance : Uniform (modify fun s => { s with lit := s.builder }) :=
  .modify (fun _ => rfl) fun _ => rfl

instance (msg : String) : Uniform (invalid msg) := by
  unfold invalid
  infer_instance

/-- What comes before an error does not matter. -/
theorem clean_bind_none {m : ScanM α} {f : α → ScanM β} [Uniform m] [∀ a, Uniform (f a)]
    (h : ∀ a c t, (f a).clean c t = none) (c : Core) (t : Bytes) :
    (m >>= f).clean c t = none := by
  rw [clean_bind]
  cases m.clean c t with
  | none => rfl
  | some r => exact h r.1 r.2.1 r.2.2

/-- `invalid` is an error. -/
theorem clean_invalid (msg : String) (c : Core) (t : Bytes) : (invalid msg).clean c t = none := by
  unfold invalid
  refine clean_bind_none (fun _ => ?_) c t
  refine clean_bind_none fun _ => ?_
  refine clean_bind_none fun _ => ?_
  refine clean_bind_none fun _ => ?_
  exact clean_error msg

/-! ## Identifiers and operators -/

instance (unicode : Unicode) (n : Nat) (ch : Rune) : Uniform (identifierLoop unicode n ch) := by
  induction n generalizing ch with
  | zero => exact .pure ()
  | succ n ih =>
    unfold identifierLoop
    infer_instance

instance (unicode : Unicode) : Uniform (scanIdentifier unicode) := by
  have hend : Uniform (get >>= fun s => do
      let tok := Token.lookup s.builder
      if tok ≠ .ident then clearString
      setResult tok) := by
    refine @Uniform.get _ _ ?_ fun _ => rfl
    intro s
    dsimp only
    infer_instance
  unfold scanIdentifier
  infer_instance

instance (n : Nat) (ch : Rune) (op : Token) : Uniform (operatorLoop n ch op) := by
  induction n generalizing ch op with
  | zero => exact .pure op
  | succ n ih =>
    have hget : Uniform (get >>= fun s => do
        let longer := Token.lookupOperator s.builder
        if longer = .illegal then pure op
        else do
          let ch ← next
          operatorLoop n ch longer) := by
      refine @Uniform.get _ _ ?_ fun _ => rfl
      intro s
      dsimp only
      infer_instance
    unfold operatorLoop
    infer_instance

instance (op : Token) : Uniform (scanOperator op) := by
  unfold scanOperator
  refine @Uniform.get _ _ ?_ fun _ => rfl
  intro s
  infer_instance

/-! ## Comments -/

instance (n : Nat) (ch : Rune) : Uniform (commentLineLoop n ch) := by
  induction n generalizing ch with
  | zero => exact .pure ch
  | succ n ih =>
    unfold commentLineLoop
    infer_instance

instance : Uniform scanCommentLine := by
  unfold scanCommentLine
  infer_instance

instance (n : Nat) (star : Bool) : Uniform (commentBlockLoop n star) := by
  induction n generalizing star with
  | zero => exact .pure ()
  | succ n ih =>
    unfold commentBlockLoop
    infer_instance

instance : Uniform scanCommentBlock := by
  unfold scanCommentBlock
  infer_instance

instance : Uniform scanSlash := by
  unfold scanSlash
  infer_instance

instance : Uniform scanOperatorOrComment := by
  unfold scanOperatorOrComment
  refine @Uniform.get _ _ ?_ fun _ => rfl
  intro s
  infer_instance

/-! ## Numbers -/

instance (base : IntBase) (n : Nat) (ch : Rune) (last : Bool) :
    Uniform (intDigitsLoop base n ch last) := by
  induction n generalizing ch last with
  | zero => exact .pure true
  | succ n ih =>
    unfold intDigitsLoop
    infer_instance

instance (base : IntBase) : Uniform (scanIntDigits base) := by
  unfold scanIntDigits
  refine @Uniform.get _ _ ?_ fun _ => rfl
  intro s
  infer_instance

instance : Uniform scanFloatExponent := by
  unfold scanFloatExponent
  infer_instance

instance (str : Bytes) (base : IntBase) : Uniform (quickCheckValidInt str base) := by
  unfold quickCheckValidInt
  infer_instance

instance (base : IntBase) (chs : List Rune) (n : Nat) : Uniform (validIntLoop base chs n) := by
  induction chs generalizing n with
  | nil =>
    unfold validIntLoop
    infer_instance
  | cons ch chs ih =>
    unfold validIntLoop
    infer_instance

instance (str : Bytes) (base : IntBase) : Uniform (checkValidInt str base) := by
  unfold checkValidInt
  infer_instance

instance (str : Bytes) : Uniform (checkValidHexFloat str) := by
  unfold checkValidHexFloat
  infer_instance

instance (tok : Token) (ch : Rune) : Uniform (endIntOrFloat tok ch) := by
  unfold endIntOrFloat
  refine @Uniform.get _ _ ?_ fun _ => rfl
  intro s
  infer_instance

instance (base : IntBase) (tok : Token) (ch : Rune) :
    Uniform (scanExponentAndUnit base tok ch) := by
  have hunit : ∀ (tok : Token) (exponent : Prop) [Decidable exponent], Uniform (get >>= fun s => do
      if s.ch = rune 'i' ∧ s.builder ≠ Token.bytes ['.'] then do
        add
        let ch ← next
        endIntOrFloat .imag ch
      else if tok = .float ∧ base = .base16 then
        if exponent then do
          if ← checkValidHexFloat s.builder then endIntOrFloat tok s.ch
        else
          let _ ← invalid errHexFloatNoExponent
      else endIntOrFloat tok s.ch) := by
    intro tok exponent _
    refine @Uniform.get _ _ ?_ fun _ => rfl
    intro s
    infer_instance
  unfold scanExponentAndUnit
  dsimp only
  infer_instance

instance (base : IntBase) (afterPoint : Bool) : Uniform (scanFraction base afterPoint) := by
  have hget : Uniform (get >>= fun s => scanExponentAndUnit base .float s.ch) := by
    refine @Uniform.get _ _ ?_ fun _ => rfl
    intro s
    infer_instance
  unfold scanFraction
  refine @Uniform.get _ _ ?_ fun _ => rfl
  intro s
  infer_instance

instance (base : IntBase) (prevChar : Rune) : Uniform (scanIntOrFloat base prevChar) := by
  unfold scanIntOrFloat
  infer_instance

instance (base : IntBase) (tok : Token) (ch : Rune) : Uniform (endInt base tok ch) := by
  have hget : Uniform (get >>= fun s => do
      if ← quickCheckValidInt s.builder base then setResult tok) := by
    refine @Uniform.get _ _ ?_ fun _ => rfl
    intro s
    infer_instance
  unfold endInt
  infer_instance

instance (base : IntBase) : Uniform (scanInt base) := by
  have hget : Uniform (get >>= fun s => do
      let ch := s.ch
      if base = .base16 ∧ (ch = rune '.' ∨ ch = rune 'P' ∨ ch = rune 'p') then
        scanIntOrFloat base ch
      else if ch = rune 'i' then do
        add
        let ch ← next
        endInt base .imag ch
      else endInt base .int ch) := by
    refine @Uniform.get _ _ ?_ fun _ => rfl
    intro s
    dsimp only
    infer_instance
  unfold scanInt
  infer_instance

instance : Uniform scanNumber := by
  unfold scanNumber
  refine @Uniform.get _ _ ?_ fun _ => rfl
  intro s
  dsimp only
  infer_instance

instance : Uniform scanDot := by
  have hback : Uniform (modify fun s => { s with unread := rune '.' }) :=
    .modify (fun _ => rfl) fun _ => rfl
  unfold scanDot
  infer_instance

/-! ## Strings -/

instance (b : Bool) (msg : String) : Uniform (errorUnless b msg) := by
  unfold errorUnless
  infer_instance

instance (b : Bool) (ch : Rune) : Uniform (nextIf b ch) := by
  unfold nextIf
  infer_instance

instance (kind : StrKind) (n x : Nat) : Uniform (hexDigitsLoop kind n x) := by
  induction n generalizing x with
  | zero => exact .pure _
  | succ n ih =>
    unfold hexDigitsLoop
    infer_instance

/-- The end of an escape with digits: its number must be right. -/
def endDigits (ok : Nat → Bool) : Option Nat → ScanM Bool
  | none => return false
  | some x => do
    errorUnless (ok x) errEscapeInvalidCodepoint
    return true

instance (ok : Nat → Bool) (x : Option Nat) : Uniform (endDigits ok x) := by
  unfold endDigits
  cases x <;> infer_instance

theorem scanUnicodeHexDigits_eq (kind : StrKind) (initial : Rune) (n : Nat) :
    scanUnicodeHexDigits kind initial n = (do
      addRune (rune '\\')
      addRune initial
      endDigits (fun x => !(initial = rune 'U' || initial = rune 'u') || Utf8.validRune x)
        (← hexDigitsLoop kind n 0)) := by
  rfl

instance (kind : StrKind) (initial : Rune) (n : Nat) :
    Uniform (scanUnicodeHexDigits kind initial n) := by
  rw [scanUnicodeHexDigits_eq]
  infer_instance

instance (kind : StrKind) (n : Nat) (ch : Rune) (x : Nat) :
    Uniform (octalDigitsLoop kind n ch x) := by
  induction n generalizing ch x with
  | zero => exact .pure _
  | succ n ih =>
    unfold octalDigitsLoop
    infer_instance

theorem scanUnicodeOctalDigits_eq (kind : StrKind) (ch : Rune) (n max : Nat) :
    scanUnicodeOctalDigits kind ch n max = (do
      addRune (rune '\\')
      endDigits (fun x => x ≤ max) (← octalDigitsLoop kind n ch 0)) := by
  rfl

instance (kind : StrKind) (ch : Rune) (n max : Nat) :
    Uniform (scanUnicodeOctalDigits kind ch n max) := by
  rw [scanUnicodeOctalDigits_eq]
  infer_instance

instance (kind : StrKind) (ch : Rune) : Uniform (scanEscape kind ch) := by
  unfold scanEscape
  infer_instance

instance (kind : StrKind) (n size : Nat) (escape : Bool) :
    Uniform (stringLoop kind n size escape) := by
  induction n generalizing size escape with
  | zero => exact .pure _
  | succ n ih =>
    unfold stringLoop
    infer_instance

/-- The token of a literal with this number of characters, when no error was found in it. -/
def cleanToken (kind : StrKind) (size : Nat) : ScanM Token :=
  if kind = .chr ∧ size = 0 then do
    let _ ← error errRuneEmpty
    return .illegal
  else if kind = .chr ∧ size ≠ 1 then do
    let _ ← error errRuneTooLong
    return .illegal
  else return kind.token

instance (kind : StrKind) (size : Nat) : Uniform (cleanToken kind size) := by
  unfold cleanToken
  infer_instance

theorem on_get (s : Scanner) (t : Bytes) : get.on s t = some (s, s, t) := by
  change some (s, s, (Input.ofText t).remaining) = _
  rw [Input.remaining_ofText]

theorem on_addRune (ch : Rune) (s : Scanner) (t : Bytes) :
    (addRune ch).on s t = some ((), s.addRune ch, t) := by
  change some ((), s.addRune ch, (Input.ofText t).remaining) = _
  rw [Input.remaining_ofText]

/-- `scanRuneOrString` after the loop. -/
def endString (kind : StrKind) (token : Nat → ScanM Token) : Option (Nat × Bool) → ScanM Unit
  | none => pure ()
  | some (size, cont) => do
    let tok ← token size
    if cont then addRune kind.delim
    setResult tok
    let _ ← next

instance (kind : StrKind) (r : Option (Nat × Bool)) :
    Uniform (endString kind (cleanToken kind) r) := by
  unfold endString
  cases r <;> infer_instance

/-- As long as no error was found, the token is that of `cleanToken`. -/
theorem endString_on (kind : StrKind) (r : Option (Nat × Bool)) (s : Scanner) (t : Bytes) :
    (endString kind (fun size => stringToken kind size s.errors.length) r).on s t =
      (endString kind (cleanToken kind) r).on s t := by
  cases r with
  | none => rfl
  | some r =>
    have htoken : (stringToken kind r.1 s.errors.length).on s t = (cleanToken kind r.1).on s t := by
      rw [stringToken, on_bind, on_get, Option.bind_some, if_neg (Nat.lt_irrefl _), cleanToken]
    rw [endString, on_bind, htoken, endString, on_bind]

theorem errors_le_endString {kind : StrKind} {errnum : Nat} {r : Option (Nat × Bool)}
    {s s' : Scanner} {t t' : Bytes}
    (h : (endString kind (fun size => stringToken kind size errnum) r).on s t = some ((), s', t')) :
    s.errors.length ≤ s'.errors.length := by
  cases r with
  | none => exact errors_le (pure ()) h
  | some r =>
    rw [endString, on_bind] at h
    obtain ⟨⟨tok, s₁, t₁⟩, htoken, hend⟩ := Option.bind_eq_some_iff.mp h
    have hle := errors_le (do
      if r.2 then addRune kind.delim
      setResult tok
      let _ ← next) hend
    rw [stringToken, on_bind, on_get, Option.bind_some] at htoken
    refine Nat.le_trans ?_ hle
    split at htoken
    · exact errors_le (pure Token.illegal) htoken
    · exact errors_le (cleanToken kind r.1) htoken

/-- The delimiter and the characters up to the next one. -/
def openString (kind : StrKind) : ScanM (Option (Nat × Bool)) := do
  addRune kind.delim
  stringLoop kind (← fuel) 0 false

instance (kind : StrKind) : Uniform (openString kind) := by
  unfold openString
  infer_instance

/-- `scanRuneOrString` when no error is found before the end of the literal. -/
def cleanString (kind : StrKind) : ScanM Unit := do
  endString kind (cleanToken kind) (← openString kind)

instance (kind : StrKind) : Uniform (cleanString kind) := by
  unfold cleanString
  infer_instance

theorem scanRuneOrString_on (kind : StrKind) (s : Scanner) (t : Bytes) :
    (scanRuneOrString kind).on s t = ((openString kind).on s t).bind fun r =>
      (endString kind (fun size => stringToken kind size s.errors.length) r.1).on r.2.1 r.2.2 := by
  have herrors : (s.addRune kind.delim).errors.length = s.errors.length := by rw [errors_addRune]
  have hopen : (openString kind).on s t = (fuel.on (s.addRune kind.delim) t).bind fun r =>
      (stringLoop kind r.1 0 false).on r.2.1 r.2.2 := by
    rw [openString, on_bind, on_addRune, Option.bind_some, on_bind]
  rw [scanRuneOrString, on_bind, on_addRune, Option.bind_some, on_bind, on_get, Option.bind_some]
  dsimp only
  rw [herrors, on_bind, hopen, Option.bind_assoc]
  congr 1
  funext r
  rw [on_bind]
  rfl

/-- A computation that differs from a uniform one by what it does after an error only. -/
theorem Uniform.of_on {m m' : ScanM α} [Uniform m'] (h : ∀ s t, m.on s t = m'.on s t ∨
    m'.clean s.core t = none ∧ ∀ r, m.on s t = some r → s.errors.length < r.2.1.errors.length) :
    Uniform m ∧ ∀ c t, m.clean c t = m'.clean c t := by
  have hclean : ∀ c t, m.clean c t = m'.clean c t := by
    intro c t
    obtain heq | ⟨hnone, hlt⟩ := h c.scanner t
    · rw [clean, heq, clean]
    · rw [Core.core_scanner] at hnone
      rw [hnone, clean]
      cases hon : m.on c.scanner t with
      | none => rfl
      | some r => exact if_neg (List.ne_nil_of_length_pos (hlt r hon))
  refine ⟨⟨fun {s t a c t'} hsome => ?_, fun {s t a s' t'} hnone hon => ?_⟩, hclean⟩
  · rw [hclean] at hsome
    obtain heq | ⟨hnone, -⟩ := h s t
    · rw [heq]
      exact Uniform.on_of_some hsome
    · rw [hnone] at hsome
      cases hsome
  · rw [hclean] at hnone
    obtain heq | ⟨-, hlt⟩ := h s t
    · rw [heq] at hon
      exact Uniform.lt_of_none hnone hon
    · exact hlt _ hon

theorem scanRuneOrString_clean (kind : StrKind) : Uniform (scanRuneOrString kind) ∧
    ∀ c t, (scanRuneOrString kind).clean c t = (cleanString kind).clean c t := by
  refine Uniform.of_on fun s t => ?_
  rw [scanRuneOrString_on]
  cases hopen : (openString kind).clean s.core t with
  | none =>
    right
    constructor
    · rw [cleanString, clean_bind, hopen, Option.bind_none]
    · intro r hr
      obtain ⟨⟨r₁, s₁, t₁⟩, hon, hend⟩ := Option.bind_eq_some_iff.mp hr
      exact Nat.lt_of_lt_of_le (Uniform.lt_of_none hopen hon) (errors_le_endString hend)
  | some r =>
    left
    obtain ⟨s₁, hon, -, herrors⟩ := Uniform.on_of_some hopen
    rw [cleanString, on_bind, hon, Option.bind_some, Option.bind_some, ← herrors, endString_on]

instance (kind : StrKind) : Uniform (scanRuneOrString kind) := (scanRuneOrString_clean kind).1

instance (n : Nat) : Uniform (rawStringLoop n) := by
  induction n with
  | zero => exact .pure true
  | succ n ih =>
    unfold rawStringLoop
    infer_instance

instance : Uniform scanRawString := by
  unfold scanRawString
  infer_instance

/-! ## Scanning -/

/-- What is scanned where a rune is found. -/
def scanToken (unicode : Unicode) (ch : Rune) : ScanM Unit :=
  if isDecimalDigit ch then scanNumber
  else if ch = rune '"' then scanRuneOrString .str
  else if ch = rune '\'' then scanRuneOrString .chr
  else if ch = rune '\x60' then scanRawString
  else if ch = rune '.' then scanDot
  else if isOperator ch then scanOperatorOrComment
  else if ch = rune '_' ∨ isLetter unicode ch then scanIdentifier unicode
  else if ch = runeEOF ∨ ch = runeTooManyErrors then setResultTok .eof
  else do
    let _ ← invalid errInvalidCharacter

instance (unicode : Unicode) (ch : Rune) : Uniform (scanToken unicode ch) := by
  unfold scanToken
  infer_instance

theorem scanItem_eq (unicode : Unicode) : scanItem unicode = (do
    clearString
    scanToken unicode (← get).ch) := by
  rfl

/-- A computation with the rune that was taken last. -/
instance (f : Rune → ScanM α) [∀ ch, Uniform (f ch)] : Uniform (get >>= fun s => f s.ch) :=
  Uniform.get _ fun _ => rfl

instance (unicode : Unicode) : Uniform (scanItem unicode) := by
  rw [scanItem_eq]
  infer_instance

instance (n : Nat) (ch : Rune) : Uniform (skipLoop n ch) := by
  induction n generalizing ch with
  | zero => exact .pure ch
  | succ n ih =>
    have hsemi : Uniform (modify fun s =>
        { s with ch := runeNone, tok := .semicolon, lastNonComment := .semicolon, lit := [] }) :=
      .modify (fun _ => rfl) fun _ => rfl
    have hget : Uniform (get >>= fun s => do
        if s.needInsertSemi then do
          modify fun s =>
            { s with ch := runeNone, tok := .semicolon, lastNonComment := .semicolon, lit := [] }
          return ch
        else do
          let ch ← next
          skipLoop n ch) := by
      refine @Uniform.get _ _ ?_ fun _ => rfl
      intro s
      infer_instance
    unfold skipLoop
    infer_instance

instance : Uniform skipSpaces := by
  unfold skipSpaces
  refine @Uniform.get _ _ ?_ fun _ => rfl
  intro s
  dsimp only
  infer_instance

/-- The end of `Scan`: a semicolon that was found in a comment comes before the comment. -/
def endScan : ScanM (Token × Bytes) := do
  let s ← get
  if s.status = .insertSemi then do
    modify fun s => { s with status := .cached, lastNonComment := .semicolon }
    return (.semicolon, [])
  else return (s.tok, s.lit)

instance : Uniform (modify fun s => { s with status := .cached, lastNonComment := .semicolon }) :=
  .modify (fun _ => rfl) fun _ => rfl

instance : Uniform endScan := by
  unfold endScan
  refine @Uniform.get _ _ ?_ fun _ => rfl
  intro s
  infer_instance

instance : Uniform (modify fun s => { s with status := .normal }) :=
  .modify (fun _ => rfl) fun _ => rfl

instance : Uniform (modify fun s => { s with pos := s.endpos }) :=
  .modify (fun _ => rfl) fun _ => rfl

/-- `Scan` after the spaces. -/
def scanFrom (unicode : Unicode) (ch : Rune) : ScanM (Token × Bytes) := do
  modify fun s => { s with pos := s.endpos }
  if ch ≠ rune '\n' then do
    scanItem unicode
    endScan
  else endScan

instance (unicode : Unicode) (ch : Rune) : Uniform (scanFrom unicode ch) := by
  unfold scanFrom
  infer_instance

theorem scan_eq (unicode : Unicode) : scan unicode = (do
    let s ← get
    if s.status = .cached then do
      modify fun s => { s with status := .normal }
      return (s.tok, s.lit)
    else scanFrom unicode (← skipSpaces)) := by
  rfl

instance (unicode : Unicode) : Uniform (scan unicode) := by
  rw [scan_eq]
  refine @Uniform.get _ _ ?_ fun _ => rfl
  intro s
  infer_instance

end OneJit.Go.ScanM
