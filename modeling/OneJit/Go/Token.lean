import Mathlib.Data.List.Pairwise
import Mathlib.Order.Basic
import Mathlib.Data.Int.Order.Basic

/-!
# Tokens and positions

The tokens that the scanner returns, and `token.File`, which maps offsets to lines and columns.
-/

namespace OneJit.Go

/-- A Go string, or a slice of bytes. -/
abbrev Bytes := List UInt8

/-- `token.Token`, as far as the scanner returns it. -/
inductive Token
  | illegal | eof | comment
  | ident | int | float | imag | char | string
  | add | sub | mul | quo | rem | and | or | xor | shl | shr | andNot
  | addAssign | subAssign | mulAssign | quoAssign | remAssign | andAssign | orAssign | xorAssign
  | shlAssign | shrAssign | andNotAssign
  | land | lor | arrow | inc | dec | eql | lss | gtr | assign | not | neq | leq | geq | define
  | ellipsis | lparen | lbrack | lbrace | comma | period | rparen | rbrack | rbrace | semicolon
  | colon
  | «break» | case | chan | const | «continue» | default | defer | «else» | «fallthrough» | «for»
  | func | go | goto | «if» | «import» | interface | map | package | range | «return» | select
  | struct | switch | type | var
  deriving DecidableEq, Repr

namespace Token

/-- The bytes of a text without characters above 127. -/
def bytes (chars : List Char) : Bytes := chars.map fun c => UInt8.ofNat c.toNat

/-- `operators`. -/
def operators : List (Bytes × Token) :=
  [(['+'], add), (['-'], sub), (['*'], mul), (['/'], quo), (['%'], rem), (['&'], and), (['|'], or),
    (['^'], xor), (['<', '<'], shl), (['>', '>'], shr), (['&', '^'], andNot),
    (['+', '='], addAssign), (['-', '='], subAssign), (['*', '='], mulAssign),
    (['/', '='], quoAssign), (['%', '='], remAssign), (['&', '='], andAssign),
    (['|', '='], orAssign), (['^', '='], xorAssign), (['<', '<', '='], shlAssign),
    (['>', '>', '='], shrAssign), (['&', '^', '='], andNotAssign), (['&', '&'], land),
    (['|', '|'], lor), (['<', '-'], arrow), (['+', '+'], inc), (['-', '-'], dec),
    (['=', '='], eql), (['<'], lss), (['>'], gtr), (['='], assign), (['!'], not),
    (['!', '='], neq), (['<', '='], leq), (['>', '='], geq), ([':', '='], define),
    (['.', '.', '.'], ellipsis), (['('], lparen), (['['], lbrack), (['\x7b'], lbrace),
    ([','], comma), (['.'], period), ([')'], rparen), ([']'], rbrack), (['\x7d'], rbrace),
    ([';'], semicolon), ([':'], colon)].map fun (chars, tok) => (bytes chars, tok)

/-- `keywords`. -/
def keywords : List (Bytes × Token) :=
  [(['b', 'r', 'e', 'a', 'k'], «break»), (['c', 'a', 's', 'e'], case), (['c', 'h', 'a', 'n'], chan),
    (['c', 'o', 'n', 's', 't'], const), (['c', 'o', 'n', 't', 'i', 'n', 'u', 'e'], «continue»),
    (['d', 'e', 'f', 'a', 'u', 'l', 't'], default), (['d', 'e', 'f', 'e', 'r'], defer),
    (['e', 'l', 's', 'e'], «else»),
    (['f', 'a', 'l', 'l', 't', 'h', 'r', 'o', 'u', 'g', 'h'], «fallthrough»),
    (['f', 'o', 'r'], «for»), (['f', 'u', 'n', 'c'], func), (['g', 'o'], go),
    (['g', 'o', 't', 'o'], goto), (['i', 'f'], «if»), (['i', 'm', 'p', 'o', 'r', 't'], «import»),
    (['i', 'n', 't', 'e', 'r', 'f', 'a', 'c', 'e'], interface), (['m', 'a', 'p'], map),
    (['p', 'a', 'c', 'k', 'a', 'g', 'e'], package), (['r', 'a', 'n', 'g', 'e'], range),
    (['r', 'e', 't', 'u', 'r', 'n'], «return»), (['s', 'e', 'l', 'e', 'c', 't'], select),
    (['s', 't', 'r', 'u', 'c', 't'], struct), (['s', 'w', 'i', 't', 'c', 'h'], switch),
    (['t', 'y', 'p', 'e'], type), (['v', 'a', 'r'], var)].map fun (chars, tok) => (bytes chars, tok)

/-- `LookupOperator`. -/
def lookupOperator (str : Bytes) : Token :=
  match operators.find? fun (key, _) => key = str with
  | some (_, tok) => tok
  | none => illegal

/-- `Lookup`. -/
def lookup (str : Bytes) : Token :=
  if str.length < 2 ∨ 11 < str.length then ident
  else match keywords.find? fun (key, _) => key = str with
    | some (_, tok) => tok
    | none => ident

end Token

/-! ## Positions -/

/-- `token.Position`. -/
structure Position where
  filename : String
  offset : Int
  line : Int
  column : Int
  deriving DecidableEq, Repr

/-- `token.File`. The offsets of the lines ascend, and there is one of the first line. -/
structure TokenFile where
  name : String
  skipLine : Int
  size : Int
  line : List Int
  ne : line ≠ []
  sorted : line.Pairwise (· < ·)

/-- The loop of `SearchInts`. -/
def searchLoop (data : List Int) (x : Int) : Nat → Nat → Nat → Nat
  | 0, lo, _ => lo
  | fuel + 1, lo, hi =>
    if lo < hi then
      let mid := (lo + hi) / 2
      if x ≤ data.getD mid 0 then searchLoop data x fuel lo mid
      else searchLoop data x fuel (mid + 1) hi
    else lo

/-- `SearchInts`: a binary search, which does not look at the last number. -/
def searchInts (data : List Int) (x : Int) : Nat :=
  searchLoop data x data.length 0 (data.length - 1)

namespace TokenFile

/-- `NewFile`. -/
def new (name : String) (base : Int) : TokenFile := ⟨name, 0, -1, [base], by simp, by simp⟩

/-- `Base`. -/
def base (f : TokenFile) : Int := f.line.head f.ne

/-- `SetSize`. -/
def setSize (f : TokenFile) (size : Int) : TokenFile := { f with size := size }

/-- `AddLine`. -/
def addLine (f : TokenFile) (offset : Int) : TokenFile :=
  if h : offset ≤ f.line.getLast f.ne then f
  else
    { f with
      line := f.line ++ [offset]
      ne := by simp
      sorted := by
        refine List.pairwise_append.mpr ⟨f.sorted, List.pairwise_singleton _ _, fun x hx y hy => ?_⟩
        have hle : x ≤ f.line.getLast f.ne :=
          (f.sorted.imp fun {_ _} hlt => Int.le_of_lt hlt).rel_getLast hx
        rw [List.mem_singleton.mp hy]
        omega }

/-- `Position`. It panics on an offset that is not in the file. -/
def position (f : TokenFile) (p : Int) : Option Position :=
  if p = 0 then some ⟨"", p, 0, 0⟩
  else if p < f.base ∨ 0 ≤ f.size ∧ f.size < p - f.base then none
  else
    let index := searchInts f.line p
    let index := if index = f.line.length ∨ p < f.line.getD index 0 then index - 1 else index
    some ⟨f.name, p, 1 + index + f.skipLine, 1 + p - f.line.getD index 0⟩

end TokenFile

end OneJit.Go
