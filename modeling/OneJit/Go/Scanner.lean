import OneJit.Go.ScanM

/-!
# The scanner

`Scanner.Scan` and all that it calls, for any tables of the letters and digits of Unicode.
-/

namespace OneJit.Go

/-- `unicode.IsLetter` and `unicode.IsDigit`, which negative runes are not. -/
structure Unicode where
  isLetter : Rune → Bool
  isDigit : Rune → Bool
  letter_nonneg : ∀ ch, isLetter ch → 0 ≤ ch
  digit_nonneg : ∀ ch, isDigit ch → 0 ≤ ch

/-! ## Classes of runes -/

/-- The rune is between two characters. -/
def between (lo hi : Char) (ch : Rune) : Bool := rune lo ≤ ch && ch ≤ rune hi

def isSpace (ch : Rune) : Bool :=
  ch = rune '\t' || ch = rune '\r' || ch = rune '\n' || ch = rune ' ' || ch = runeEOF

def isOperator (ch : Rune) : Bool :=
  between '!' '/' ch || between ':' '@' ch || between '[' '^' ch || ch = rune '\x60' ||
    between '\x7b' '~' ch

def isLetter (unicode : Unicode) (ch : Rune) : Bool :=
  between 'A' 'Z' ch || between 'a' 'z' ch || unicode.isLetter ch

def isBinaryDigit (ch : Rune) : Bool := between '0' '1' ch

def isOctalDigit (ch : Rune) : Bool := between '0' '7' ch

def isDecimalDigit (ch : Rune) : Bool := between '0' '9' ch

def isHexDigit (ch : Rune) : Bool := between '0' '9' ch || between 'A' 'F' ch || between 'a' 'f' ch

def hexDigitToInt (ch : Rune) : Nat :=
  if between '0' '9' ch then (ch - rune '0').toNat
  else if between 'A' 'F' ch then (ch - rune 'A').toNat + 10
  else if between 'a' 'f' ch then (ch - rune 'a').toNat + 10
  else 0

/-- `lower`. -/
def lower (b : UInt8) : UInt8 := if 0x41 ≤ b ∧ b ≤ 0x5A then b + 0x20 else b

/-- `intbase`. -/
inductive IntBase
  | any | base2 | base8 | base16 | base10
  deriving DecidableEq, Repr

def isIntDigit (ch : Rune) : IntBase → Bool
  | .base2 => isBinaryDigit ch
  | .base8 => isOctalDigit ch
  | .base16 => isHexDigit ch
  | .base10 | .any => isDecimalDigit ch

/-- The runes of a string, as a `range` loop finds them. -/
def runes : Nat → Bytes → List Rune
  | 0, _ => []
  | fuel + 1, str =>
    match Utf8.decodeRune str with
    | (_, 0) => []
    | (ch, size) => ch :: runes fuel (str.drop size)

/-! ## Texts of errors -/

def errInvalidCharacter : String := "invalid character"
def errIntBadUnderscore : String := "'_' must separate successive digits"
def errSyntaxErrorUnexpectedChar : String := "syntax error: unexpected character"

def errNumberHasNodigits : IntBase → String
  | .any => ""
  | .base2 => "binary literal has no digits"
  | .base8 => "octal literal has no digits"
  | .base16 => "hexadecimal literal has no digits"
  | .base10 => "decimal literal has no digits"

def errIntBadDigit : IntBase → String
  | .any => ""
  | .base2 => "invalid digit in binary literal"
  | .base8 => "invalid digit in octal literal"
  | .base16 => "invalid digit in hexadecimal literal"
  | .base10 => "invalid digit in decimal literal"

def errFloatExponentHasNoDigits : String := "exponent has no digits"
def errHexFloatNoPrefix : String := "hexadecimal float requires \"0x\" prefix"
def errHexFloatNoExponent : String := "hexadecimal float requires exponent"
def errEscapeUnknown : String := "unknown escape"
def errEscapeHexInvalidChar : String := "invalid character in hexadecimal escape"
def errEscapeOctalInvalidChar : String := "invalid character in octal escape"
def errEscapeInvalidCodepoint : String := "escape is invalid Unicode code point"
def errRuneEmpty : String := "empty rune literal or unescaped '"
def errRuneTooLong : String := "more than one character in rune literal"
def errRawStringUnterminated : String := "raw string literal not terminated"

/-- `strKind`: what a literal is quoted with. -/
inductive StrKind
  | str | chr
  deriving DecidableEq, Repr

namespace StrKind

def delim : StrKind → Rune
  | str => rune '"'
  | chr => rune '\''

def token : StrKind → Token
  | str => .string
  | chr => .char

def errContainsNewline : StrKind → String
  | str => "newline in string literal"
  | chr => "newline in rune literal"

def errUnterminated : StrKind → String
  | str => "string literal not terminated"
  | chr => "rune literal not terminated"

end StrKind

/-! ## The text and the token -/

namespace Scanner

/-- `WriteRune`. A negative rune is written as its low byte. -/
def writeRune (builder : Bytes) (ch : Rune) : Bytes :=
  if ch < 0x80 then builder ++ [UInt8.ofInt ch] else builder ++ Utf8.encodeRune ch.toNat

/-- `addRune`. -/
def addRune (s : Scanner) (ch : Rune) : Scanner :=
  if ch = runeEOF then s else { s with builder := writeRune s.builder ch }

/-- `setResultTok`. -/
def setResultTok (s : Scanner) (tok : Token) : Scanner :=
  { s with
    tok := tok, lit := []
    lastNonComment := if tok = .comment then s.lastNonComment else tok }

/-- `setResult`. -/
def setResult (s : Scanner) (tok : Token) : Scanner :=
  { s.setResultTok tok with lit := s.builder }

/-- `needInsertSemi`. -/
def needInsertSemi (s : Scanner) : Bool :=
  s.status = .normal &&
    match s.lastNonComment with
    | .ident | .int | .float | .imag | .char | .string | .break | .continue | .fallthrough
    | .return | .inc | .dec | .rparen | .rbrack | .rbrace => true
    | _ => false

/-- `autoInsertSemi`. -/
def autoInsertSemi (s : Scanner) : Scanner :=
  if s.needInsertSemi then { s with status := .insertSemi } else s

end Scanner

namespace ScanM

def addRune (ch : Rune) : ScanM Unit := modify (·.addRune ch)

/-- `add`. -/
def add : ScanM Unit := modify fun s => s.addRune s.ch

def clearString : ScanM Unit := modify fun s => { s with builder := [] }

def setResult (tok : Token) : ScanM Unit := modify (·.setResult tok)

def setResultTok (tok : Token) : ScanM Unit := modify (·.setResultTok tok)

/-- `invalid`, which returns false. The rune is added unless it is a space, and the next one is
taken. -/
def invalid (msg : String) : ScanM Bool := do
  modify fun s => { s with tok := .illegal }
  modify fun s => if isSpace s.ch then s else s.addRune s.ch
  modify fun s => { s with lit := s.builder }
  let _ ← next
  error msg

/-! ## Identifiers and operators -/

/-- The loop of `scanIdentifier`. -/
def identifierLoop (unicode : Unicode) : Nat → Rune → ScanM Unit
  | 0, _ => pure ()
  | fuel + 1, ch =>
    if ch = rune '_' ∨ isLetter unicode ch ∨ unicode.isDigit ch then do
      addRune ch
      let ch ← next
      identifierLoop unicode fuel ch
    else pure ()

/-- `scanIdentifier`. -/
def scanIdentifier (unicode : Unicode) : ScanM Unit := do
  add
  let ch ← next
  identifierLoop unicode (← fuel) ch
  let s ← get
  let tok := Token.lookup s.builder
  if tok ≠ .ident then clearString
  setResult tok

/-- The loop of `scanOperator`: the operator grows by a rune as long as there is such an
operator. -/
def operatorLoop : Nat → Rune → Token → ScanM Token
  | 0, _, op => pure op
  | fuel + 1, ch, op =>
    if ch = runeEOF then pure op
    else do
      addRune ch
      let s ← get
      let longer := Token.lookupOperator s.builder
      if longer = .illegal then pure op
      else do
        let ch ← next
        operatorLoop fuel ch longer

/-- `scanOperator`. -/
def scanOperator (op : Token) : ScanM Unit := do
  let s ← get
  let op ← operatorLoop (← fuel) s.ch op
  if op = .illegal then do
    let _ ← error errInvalidCharacter
    let _ ← next
    setResult op
  else do
    clearString
    setResult op

/-! ## Comments -/

/-- The loop of `scanCommentLine`. It ends at a line end, or at the end of the input. -/
def commentLineLoop : Nat → Rune → ScanM Rune
  | 0, ch => pure ch
  | fuel + 1, ch =>
    if ch = runeEOF ∨ ch = rune '\n' then pure ch
    else do
      if ch ≠ rune '\r' then addRune ch
      let ch ← next
      commentLineLoop fuel ch

/-- `scanCommentLine`. -/
def scanCommentLine : ScanM Unit := do
  addRune (rune '/')
  addRune (rune '/')
  let ch ← next
  let ch ← commentLineLoop (← fuel) ch
  if ch = rune '\n' then modify Scanner.autoInsertSemi
  setResult .comment

/-- The loop of `scanCommentBlock`. -/
def commentBlockLoop : Nat → Bool → ScanM Unit
  | 0, _ => pure ()
  | fuel + 1, star => do
    let ch ← next
    if ch = runeEOF then pure ()
    else do
      if ch = rune '\n' then modify Scanner.autoInsertSemi
      addRune ch
      if star ∧ ch = rune '/' then pure () else commentBlockLoop fuel (ch = rune '*')

/-- `scanCommentBlock`. A comment that does not end is a comment, too. -/
def scanCommentBlock : ScanM Unit := do
  addRune (rune '/')
  addRune (rune '*')
  commentBlockLoop (← fuel) false
  let _ ← next
  setResult .comment

/-- `scanSlash`. -/
def scanSlash : ScanM Unit := do
  let ch ← next
  if ch = rune '/' then scanCommentLine
  else if ch = rune '*' then scanCommentBlock
  else do
    addRune (rune '/')
    scanOperator .quo

/-- `scanOperatorOrComment`. -/
def scanOperatorOrComment : ScanM Unit := do
  let s ← get
  if s.ch = rune '/' then scanSlash else scanOperator .illegal

/-! ## Numbers -/

/-- The loop of `scanIntDigits`. -/
def intDigitsLoop (base : IntBase) : Nat → Rune → Bool → ScanM Bool
  | 0, _, _ => pure true
  | fuel + 1, ch, lastIsUnderscore =>
    if isIntDigit ch base then do
      addRune ch
      let ch ← next
      intDigitsLoop base fuel ch false
    else if isIntDigit ch .base10 then invalid (errIntBadDigit base)
    else if ch = rune '_' then
      if lastIsUnderscore then invalid errIntBadUnderscore
      else do
        addRune ch
        let ch ← next
        intDigitsLoop base fuel ch true
    else if lastIsUnderscore then invalid errIntBadUnderscore
    else pure true

/-- `scanIntDigits`. -/
def scanIntDigits (base : IntBase) : ScanM Bool := do
  let s ← get
  intDigitsLoop base (← fuel) s.ch false

/-- `scanFloatExponent`. What the digits after the first one are does not matter. -/
def scanFloatExponent : ScanM Bool := do
  add
  let sign ← next
  let ch ← if sign = rune '+' ∨ sign = rune '-' then do
      addRune sign
      next
    else pure sign
  if isDecimalDigit ch then do
    let _ ← scanIntDigits .base10
    return true
  else invalid errFloatExponentHasNoDigits

/-- `quickCheckValidInt`. -/
def quickCheckValidInt (str : Bytes) (base : IntBase) : ScanM Bool :=
  let str := if str.getLast? = some 0x69 then str.dropLast else str
  if str.length = 1 ∨ 2 < str.length ∨ str.getD 0 0 ≠ 0x30 then pure true
  else if isIntDigit (str.getD 1 0).toNat base then pure true
  else invalid (errNumberHasNodigits base)

/-- The loop of `checkValidInt`. A base prefix starts the count again. -/
def validIntLoop (base : IntBase) : List Rune → Nat → ScanM Bool
  | [], n => if n = 0 then invalid (errNumberHasNodigits base) else pure true
  | ch :: chs, n =>
    if isIntDigit ch base then validIntLoop base chs (n + 1)
    else if isIntDigit ch .base10 then invalid (errIntBadDigit base)
    else if ch ≠ rune '_' then validIntLoop base chs 0
    else validIntLoop base chs n

/-- `checkValidInt`. -/
def checkValidInt (str : Bytes) (base : IntBase) : ScanM Bool :=
  validIntLoop base (runes str.length str) 0

/-- `checkValidHexFloat`. -/
def checkValidHexFloat (str : Bytes) : ScanM Bool :=
  let n := str.length
  if n < 2 ∨ str.getD 0 0 ≠ 0x30 ∨ lower (str.getD 1 0) ≠ 0x78 then invalid errHexFloatNoPrefix
  else if n < 3 ∨ lower (str.getD 2 0) = 0x70 then invalid (errNumberHasNodigits .base16)
  else if lower (str.getD 2 0) = 0x2E ∧ (n < 4 ∨ ¬isHexDigit (str.getD 3 0).toNat) then
    invalid (errNumberHasNodigits .base16)
  else pure true

/-- The end of `scanIntOrFloat`: what follows the number, and octal digits. -/
def endIntOrFloat (tok : Token) (ch : Rune) : ScanM Unit := do
  let s ← get
  if !isSpace ch && !isOperator ch then
    let _ ← invalid errSyntaxErrorUnexpectedChar
  else if tok = .int ∧ s.builder.head? = some 0x30 then do
    if ← checkValidInt s.builder .base8 then setResult tok
  else setResult tok

/-- `scanIntOrFloat` after the fraction: the exponent and the imaginary unit. -/
def scanExponentAndUnit (base : IntBase) (tok : Token) (ch : Rune) : ScanM Unit := do
  let exponent := (base = .base10 ∧ (ch = rune 'e' ∨ ch = rune 'E')) ∨
    (base = .base16 ∧ (ch = rune 'p' ∨ ch = rune 'P'))
  let ok ← if exponent then scanFloatExponent else pure true
  if ok then do
    let tok := if exponent then .float else tok
    let s ← get
    let unit := s.ch = rune 'i' ∧ s.builder ≠ Token.bytes ['.']
    if unit then do
      add
      let ch ← next
      endIntOrFloat .imag ch
    else if tok = .float ∧ base = .base16 then
      if exponent then do
        if ← checkValidHexFloat s.builder then endIntOrFloat tok s.ch
      else
        let _ ← invalid errHexFloatNoExponent
    else endIntOrFloat tok s.ch

/-- `scanIntOrFloat` after the digits before the point: the fraction. -/
def scanFraction (base : IntBase) (afterPoint : Bool) : ScanM Unit := do
  let s ← get
  if afterPoint ∨ s.ch = rune '.' then do
    addRune (rune '.')
    if s.ch = rune '.' then
      let _ ← next
    if ← scanIntDigits base then
      scanExponentAndUnit base .float (← get).ch
  else scanExponentAndUnit base .int s.ch

/-- `scanIntOrFloat`. -/
def scanIntOrFloat (base : IntBase) (prevChar : Rune) : ScanM Unit := do
  if prevChar = 0 then
    if ← scanIntDigits base then scanFraction base false
  else scanFraction base (prevChar = rune '.')

/-- `scanInt` after the digits. -/
def endInt (base : IntBase) (tok : Token) (ch : Rune) : ScanM Unit := do
  if !isSpace ch && !isOperator ch then
    let _ ← invalid errSyntaxErrorUnexpectedChar
  else
    if ← quickCheckValidInt (← get).builder base then setResult tok

/-- `scanInt`. -/
def scanInt (base : IntBase) : ScanM Unit := do
  add
  let _ ← next
  if ← scanIntDigits base then
    let ch := (← get).ch
    if base = .base16 ∧ (ch = rune '.' ∨ ch = rune 'P' ∨ ch = rune 'p') then scanIntOrFloat base ch
    else if ch = rune 'i' then do
      add
      let ch ← next
      endInt base .imag ch
    else endInt base .int ch

/-- The base of a number that starts with zero. -/
def prefixBase (ch : Rune) : IntBase :=
  if ch = rune 'B' ∨ ch = rune 'b' then .base2
  else if ch = rune 'O' ∨ ch = rune 'o' then .base8
  else if ch = rune 'X' ∨ ch = rune 'x' then .base16
  else .any

/-- `scanNumber`. -/
def scanNumber : ScanM Unit := do
  let ch := (← get).ch
  let base ← if ch = rune '0' then do
      addRune ch
      let ch ← next
      pure (prefixBase ch)
    else pure .any
  if base = .any then scanIntOrFloat .base10 0 else scanInt base

/-- `scanDot`. The second of two dots is put back, behind the rune after it. -/
def scanDot : ScanM Unit := do
  let ch ← next
  if ch = rune '.' then do
    let ch ← next
    if ch = rune '.' then do
      let _ ← next
      setResultTok .ellipsis
    else do
      modify fun s => { s with unread := rune '.' }
      setResultTok .period
  else if isDecimalDigit ch then scanIntOrFloat .base10 (rune '.')
  else setResultTok .period

/-! ## Strings -/

/-- An error unless the condition holds. -/
def errorUnless (b : Bool) (msg : String) : ScanM Unit := do
  let _ ← if b then pure true else error msg

/-- The next rune if the condition holds. -/
def nextIf (b : Bool) (ch : Rune) : ScanM Rune := if b then next else pure ch

/-- The loop of `scanUnicodeHexDigits`: the number, unless the input ends. -/
def hexDigitsLoop (kind : StrKind) : Nat → Nat → ScanM (Option Nat)
  | 0, x => pure (some x)
  | n + 1, x => do
    let ch ← next
    if ch = runeEOF then do
      let _ ← error kind.errUnterminated
      return none
    else if isHexDigit ch then do
      addRune ch
      hexDigitsLoop kind n (x ||| hexDigitToInt ch <<< (n * 4))
    else do
      let _ ← error errEscapeHexInvalidChar
      addRune ch
      hexDigitsLoop kind n x

/-- `scanUnicodeHexDigits`. -/
def scanUnicodeHexDigits (kind : StrKind) (initial : Rune) (n : Nat) : ScanM Bool := do
  addRune (rune '\\')
  addRune initial
  match ← hexDigitsLoop kind n 0 with
  | none => return false
  | some x =>
    errorUnless (!(initial = rune 'U' || initial = rune 'u') || Utf8.validRune x)
      errEscapeInvalidCodepoint
    return true

/-- The loop of `scanUnicodeOctalDigits`, which starts with the first digit. -/
def octalDigitsLoop (kind : StrKind) : Nat → Rune → Nat → ScanM (Option Nat)
  | 0, _, x => pure (some x)
  | n + 1, ch, x =>
    if ch = runeEOF then do
      let _ ← error kind.errUnterminated
      return none
    else do
      errorUnless (isOctalDigit ch) errEscapeOctalInvalidChar
      addRune ch
      let ch' ← nextIf (n ≠ 0) ch
      octalDigitsLoop kind n ch'
        (if isOctalDigit ch then x ||| (ch - rune '0').toNat <<< (n * 3) else x)

/-- `scanUnicodeOctalDigits`. -/
def scanUnicodeOctalDigits (kind : StrKind) (ch : Rune) (n max : Nat) : ScanM Bool := do
  addRune (rune '\\')
  match ← octalDigitsLoop kind n ch 0 with
  | none => return false
  | some x =>
    errorUnless (x ≤ max) errEscapeInvalidCodepoint
    return true

/-- The escapes of one character. -/
def isSimpleEscape (kind : StrKind) (ch : Rune) : Bool :=
  ch = rune 'a' || ch = rune 'b' || ch = rune 'f' || ch = rune 'n' || ch = rune 'r' ||
    ch = rune 't' || ch = rune 'v' || ch = rune '\\' || ch = kind.delim

/-- An escape, after the backslash. It returns whether the literal goes on. -/
def scanEscape (kind : StrKind) (ch : Rune) : ScanM Bool :=
  if isSimpleEscape kind ch then do
    addRune (rune '\\')
    addRune ch
    return true
  else if ch = rune 'U' then scanUnicodeHexDigits kind ch 8
  else if ch = rune 'u' then scanUnicodeHexDigits kind ch 4
  else if ch = rune 'x' then scanUnicodeHexDigits kind ch 2
  else if isOctalDigit ch then scanUnicodeOctalDigits kind ch 3 0xff
  else do
    let _ ← error errEscapeUnknown
    addRune (rune '\\')
    addRune ch
    return true

/-- The loop of `scanRuneOrString`: the number of characters and whether the literal is closed,
unless it is invalid. -/
def stringLoop (kind : StrKind) : Nat → Nat → Bool → ScanM (Option (Nat × Bool))
  | 0, size, _ => pure (some (size, true))
  | fuel + 1, size, escape => do
    let ch ← next
    if ch = runeEOF then do
      let _ ← invalid kind.errUnterminated
      return none
    else if ch = rune '\n' then do
      let _ ← invalid kind.errContainsNewline
      return none
    else if escape then do
      if ← scanEscape kind ch then stringLoop kind fuel (size + 1) false
      else return some (size + 1, false)
    else if ch = kind.delim then return some (size, true)
    else if ch = rune '\\' then stringLoop kind fuel size true
    else do
      addRune ch
      stringLoop kind fuel (size + 1) false

/-- The token of a literal with this number of characters. -/
def stringToken (kind : StrKind) (size errnum : Nat) : ScanM Token := do
  let s ← get
  if errnum < s.errors.length then return .illegal
  else if kind = .chr ∧ size = 0 then do
    let _ ← error errRuneEmpty
    return .illegal
  else if kind = .chr ∧ size ≠ 1 then do
    let _ ← error errRuneTooLong
    return .illegal
  else return kind.token

/-- `scanRuneOrString`. -/
def scanRuneOrString (kind : StrKind) : ScanM Unit := do
  addRune kind.delim
  let errnum := (← get).errors.length
  match ← stringLoop kind (← fuel) 0 false with
  | none => return
  | some (size, cont) =>
    let tok ← stringToken kind size errnum
    if cont then addRune kind.delim
    setResult tok
    let _ ← next

/-- The loop of `scanRawString`: whether the literal is closed. -/
def rawStringLoop : Nat → ScanM Bool
  | 0 => pure true
  | fuel + 1 => do
    let ch ← next
    if ch = runeEOF then invalid errRawStringUnterminated
    else if ch = rune '\r' then rawStringLoop fuel
    else do
      addRune ch
      if ch = rune '\x60' then return true else rawStringLoop fuel

/-- `scanRawString`. -/
def scanRawString : ScanM Unit := do
  add
  if ← rawStringLoop (← fuel) then do
    setResult .string
    let _ ← next

/-! ## Scanning -/

/-- `scan`. -/
def scanItem (unicode : Unicode) : ScanM Unit := do
  clearString
  let ch := (← get).ch
  if isDecimalDigit ch then scanNumber
  else if ch = rune '"' then scanRuneOrString .str
  else if ch = rune '\'' then scanRuneOrString .chr
  else if ch = rune '\x60' then scanRawString
  else if ch = rune '.' then scanDot
  else if isOperator ch then scanOperatorOrComment
  else if ch = rune '_' ∨ isLetter unicode ch then scanIdentifier unicode
  else if ch = runeEOF ∨ ch = runeTooManyErrors then setResultTok .eof
  else
    let _ ← invalid errInvalidCharacter

/-- The loop of `skipSpaces`. -/
def skipLoop : Nat → Rune → ScanM Rune
  | 0, ch => pure ch
  | fuel + 1, ch => do
    if ch = runeBOF then do
      let ch ← next
      let ch ← if ch = runeBOM then next else pure ch
      skipLoop fuel ch
    else if ch = runeNone ∨ ch = rune '\t' ∨ ch = rune '\r' ∨ ch = rune ' ' then do
      let ch ← next
      skipLoop fuel ch
    else if ch = rune '\n' then do
      if (← get).needInsertSemi then do
        modify fun s =>
          { s with ch := runeNone, tok := .semicolon, lastNonComment := .semicolon, lit := [] }
        return ch
      else do
        let ch ← next
        skipLoop fuel ch
    else return ch

/-- `skipSpaces`. -/
def skipSpaces : ScanM Rune := do
  let ch := (← get).ch
  skipLoop (← fuel) ch

/-- `Scan`. -/
def scan (unicode : Unicode) : ScanM (Token × Bytes) := do
  let s ← get
  if s.status = .cached then do
    modify fun s => { s with status := .normal }
    return (s.tok, s.lit)
  else do
    let ch ← skipSpaces
    modify fun s => { s with pos := s.endpos }
    if ch ≠ rune '\n' then scanItem unicode
    let s ← get
    if s.status = .insertSemi then do
      modify fun s => { s with status := .cached, lastNonComment := .semicolon }
      return (.semicolon, [])
    else return (s.tok, s.lit)

end ScanM

end OneJit.Go
