import OneJit.Go.Ast

/-!
# Parser computations

The state of the parser, computations over it, and the functions of the parser that look at one
token. The scanner is a parameter: what the parser uses of it is `Scan`, `PosEnd`, `Errors` and
`Error`. A loop of the source has a number of rounds after which the model stops it.
-/

namespace OneJit.Go

/-- What the parser uses of a scanner. `Scan` and `Error` may panic; there are fewer comments before
the next token than `rounds`. -/
class Source (σ : Type) where
  scan : σ → Option (Token × Bytes × σ)
  posEnd : σ → Int × Int
  errors : σ → List ScanError
  error : σ → Int → String → Option (ScanError × σ)
  rounds : σ → Nat

/-- `parser.Mode`. -/
structure Mode where
  imports : Bool
  decls : Bool
  comments : Bool
  deriving DecidableEq, Repr

/-- `config.Lang`. -/
abbrev Lang := Nat

/-- `config.TypeAlias`. -/
def Lang.typeAlias : Lang := 0x00010009

/-- `config.Generics`. -/
def Lang.generics : Lang := 0x00010fff

/-- `Parser`. `unread0` is present when its token is not `ILLEGAL`, which is zero. -/
structure Parser (σ : Type) where
  curr : Atom
  unread0 : Atom
  mode : Mode
  lang : Lang
  scanner : σ

/-- Why a computation does not return: the named function panics, or its rounds are over. -/
inductive Stop
  | panic (fn : String)
  | rounds
  deriving DecidableEq, Repr

abbrev ParseM (σ : Type) := StateT (Parser σ) (Except Stop)

/-- A message: a text that stands for itself, or what is expected. -/
inductive Msg
  | errText (text : String)
  | expecting (suffix : String)
  | tok (t : Token)

namespace Parser

variable {σ α : Type} [Source σ]

/-! ## Errors -/

def errExpectingChan : Msg := .expecting "chan"
def errExpectingConstVarFuncOrType : Msg := .expecting "'const' 'var' 'func' or 'type'"
def errExpectingDecl : Msg := .expecting "declaration"
def errExpectingExpr : Msg := .expecting "expression"
def errExpectingIdent : Msg := .expecting "identifier"
def errExpectingIdentOrLparen : Msg := .expecting "identifier or ("
def errExpectingIdentOrString : Msg := .expecting "identifier or string"
def errExpectingString : Msg := .expecting "string"
def errExpectingType : Msg := .expecting "type"
def errDuplicatePackage : Msg := .errText "duplicate package declaration"
def errEmptyTypeParams : Msg := .errText "empty type parameter list"
def errExpectedOneExpr : Msg := .errText "expected 1 expression"
def errInvalidTypeSwitch : Msg := .errText "use of .(type) outside type switch"
def errInterfaceMultipleTypelists : Msg :=
  .errText "cannot have multiple type lists in an interface"
def errParamsNamedUnnamed : Msg :=
  .errText "syntax error: mixed named and unnamed function parameters"
def errParamNonFinalEllipsis : Msg :=
  .errText "syntax error: cannot use ... with non-final parameter"
def errSelectCaseNotSendOrRecv : Msg :=
  .errText "select case must be send, receive or assign recv"
def errTypeAlias : Msg := .errText "type aliases are disabled, they require config.TypeAlias"
def errGenerics : Msg := .errText "generics are disabled, they require config.Generics"

/-- `errTooManyErrors`. -/
def errTooManyErrors : ScanError := ⟨⟨"", 0, 0, 0⟩, "too many errors"⟩

/-- `makeErrText`. -/
def makeErrText (tok : Tok) (suffix : String) : String :=
  "syntax error: unexpected " ++ tok.text ++ ", expecting " ++ suffix

/-- The text of a message, when `tok` is the current token. -/
def errorText (tok : Tok) : Msg → String
  | .errText text => text
  | .expecting suffix => makeErrText tok suffix
  | .tok t => makeErrText tok t.text

/-- `error`. From the tenth error on the parser sees the end of the input. -/
def error (pos : Int) (msg : Msg) : ParseM σ ScanError := do
  let p ← get
  if 10 ≤ (Source.errors p.scanner).length then
    set { p with
      curr := { p.curr with tok := Token.eof }, unread0 := { p.unread0 with tok := Token.illegal } }
    return errTooManyErrors
  else
    match Source.error p.scanner pos (errorText p.curr.tok msg) with
    | none => throw (.panic "Position")
    | some (err, s) => do
      set { p with scanner := s }
      return err

/-- The value, or a panic of the function that asked for it. -/
def deref (fn : String) : Option α → ParseM σ α
  | some a => pure a
  | none => throw (.panic fn)

/-! ## Tokens -/

/-- `tok`. -/
def tok : ParseM σ Tok := return (← get).curr.tok

/-- `pos`. -/
def pos : ParseM σ Int := return (← get).curr.pos

/-- `unread`. -/
def unread (atom : Atom) : ParseM σ Unit :=
  modify fun p => { p with unread0 := p.curr, curr := atom }

/-- The loop of `next`. -/
def nextLoop : Nat → ParseM σ Unit
  | 0 => throw .rounds
  | n + 1 => do
    let p ← get
    match Source.scan p.scanner with
    | none => throw (.panic "Scan")
    | some (tok, lit, s) =>
      if tok ≠ Token.comment then
        set { p with
          scanner := s
          curr :=
            { p.curr with
              tok := tok, lit := lit, pos := (Source.posEnd s).1, endpos := (Source.posEnd s).2 } }
      else do
        let comment := if p.mode.comments then p.curr.comment ++ [lit] else p.curr.comment
        set { p with scanner := s, curr := { p.curr with tok := tok, lit := lit, comment := comment } }
        nextLoop n

/-- `next`. -/
def next : ParseM σ Tok := do
  let p ← get
  if p.unread0.tok ≠ Token.illegal then do
    set { p with curr := p.unread0, unread0 := Atom.zero }
    return p.unread0.tok
  else do
    set { p with curr := { p.curr with comment := [] } }
    nextLoop (Source.rounds p.scanner)
    tok

/-- `consumeComment`. -/
def consumeComment : ParseM σ (List Bytes) := do
  let p ← get
  set { p with curr := { p.curr with comment := [] } }
  return p.curr.comment

/-! ## Nodes of one token -/

/-- The current token, whose comments go to the node. -/
def takeCurr : ParseM σ Atom := do
  let p ← get
  set { p with curr := { p.curr with comment := [] } }
  return p.curr

/-- `makeAtom`. -/
def makeAtom (tok : Tok) : ParseM σ Ast := do
  let a ← takeCurr
  return .atom { a with tok := tok }

/-- `makeBad`. -/
def makeBad (msg : Msg) : ParseM σ Ast := do
  let tok ← tok
  let p ← pos
  let node ← makeAtom tok
  let err ← error p msg
  return .bad (.new tok p) node err

/-- `makeBadNode`. -/
def makeBadNode (x : Ast) (msg : Msg) : ParseM σ Ast := do
  let op ← deref "makeBadNode" x.op
  let p ← deref "makeBadNode" x.pos
  let err ← error p msg
  return .bad (.new op p) x err

/-- `makeBinary`, without its children. -/
def makeBinary : ParseM σ Atom := takeCurr

/-- `makeEof`. -/
def makeEof : ParseM σ Ast := return .atom (.new Token.eof (← pos))

/-- `makeIdent`. -/
def makeIdent : ParseM σ Ast := do
  let node ← if (← tok) = Token.ident then makeAtom Token.ident else makeBad errExpectingIdent
  let _ ← consumeComment
  return node

/-- `makeList`, without its nodes. -/
def makeList : ParseM σ Atom := takeCurr

/-- `makeUnary`, without its child. -/
def makeUnary : ParseM σ Atom := takeCurr

/-- Make a node of the current token and go on to the next one. -/
def thenNext (m : ParseM σ α) : ParseM σ α := do
  let node ← m
  let _ ← next
  return node

def parseAtom (tok : Tok) : ParseM σ Ast := thenNext (makeAtom tok)

def parseBad (msg : Msg) : ParseM σ Ast := thenNext (makeBad msg)

def parseBinary : ParseM σ Atom := thenNext makeBinary

def parseIdent : ParseM σ Ast := thenNext makeIdent

def parseList : ParseM σ Atom := thenNext makeList

def parseUnary : ParseM σ Atom := thenNext makeUnary

/-! ## Steps of `next` -/

theorem nextLoop_succ (n : Nat) (p : Parser σ) :
    nextLoop (n + 1) p =
      match Source.scan p.scanner with
      | none => .error (.panic "Scan")
      | some (tok, lit, s) =>
        if tok ≠ Token.comment then
          .ok ((), { p with
            scanner := s
            curr := { p.curr with
              tok := tok, lit := lit, pos := (Source.posEnd s).1, endpos := (Source.posEnd s).2 } })
        else
          nextLoop n { p with
            scanner := s
            curr := { p.curr with
              tok := tok, lit := lit
              comment := if p.mode.comments then p.curr.comment ++ [lit] else p.curr.comment } } := by
  change (match Source.scan p.scanner with
    | none => _
    | some (tok, lit, s) => _ : ParseM σ Unit) p = _
  cases Source.scan p.scanner with
  | none => rfl
  | some result =>
    obtain ⟨tok, lit, s⟩ := result
    by_cases htok : tok ≠ Token.comment
    · dsimp only
      rw [if_pos htok, if_pos htok]
      rfl
    · dsimp only
      rw [if_neg htok, if_neg htok]
      rfl

theorem next_eq {p : Parser σ} (h : p.unread0.tok = Token.illegal) :
    next p =
      (nextLoop (Source.rounds p.scanner) { p with curr := { p.curr with comment := [] } }).map
        fun result => (result.2.curr.tok, result.2) := by
  change (if p.unread0.tok ≠ Token.illegal then _ else _ : ParseM σ Tok) p = _
  rw [if_neg (by simp [h])]
  change (nextLoop _ _ >>= fun _ => _) = _
  cases nextLoop (Source.rounds p.scanner) { p with curr := { p.curr with comment := [] } } with
  | ok result => rfl
  | error e => rfl

/-! ## Brackets -/

/-- `enter`. -/
def enter (list : List Ast) (want : Token) : ParseM σ (List Ast) := do
  if (← tok) = want then do
    let _ ← next
    return list
  else return list ++ [← makeBad (.tok want)]

/-- `leave`: bad nodes up to the wanted token or the end. -/
def leave (want : Token) : Nat → List Ast → ParseM σ (List Ast)
  | 0, _ => throw .rounds
  | n + 1, list => do
    if (← tok) = want then do
      let _ ← next
      return list
    else do
      let list := list ++ [← parseBad (.tok want)]
      if (← tok) = Token.eof then return list
      else leave want n list

/-- The loop of `leaveNode`. -/
def leaveNodeLoop (want : Token) : Nat → Bool → Ast → ParseM σ Ast
  | 0, _, _ => throw .rounds
  | n + 1, badnode, node => do
    if (← tok) = want then do
      let _ ← next
      return node
    else do
      let node ← if badnode then pure node else makeBadNode node (.tok want)
      if (← tok) = Token.eof then return node
      else do
        let _ ← next
        leaveNodeLoop want n true node

/-- `leaveNode`. -/
def leaveNode (rounds : Nat) (node : Ast) (want : Token) : ParseM σ Ast :=
  leaveNodeLoop want rounds false node

end Parser

end OneJit.Go
