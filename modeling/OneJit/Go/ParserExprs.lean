import OneJit.Go.ParserTypes

/-!
# Parsing expressions

Binary operators by precedence, unary operators, and the suffixes of a primary expression: calls,
indexes, slices, composite literals, selectors and type assertions.
-/

namespace OneJit.Go

namespace Parser

variable {σ : Type} [Source σ] (r : Rec σ)

/-! ## Blocks -/

/-- The loop of `parseStmtList`. -/
def stmtListLoop : Nat → List Ast → ParseM σ (List Ast)
  | 0, _ => throw .rounds
  | n + 1, nodes => do
    let tok0 ← tok
    if tok0 = Token.case ∨ tok0 = Token.default ∨ tok0.isLeave then return nodes
    else do
      let nodes := nodes ++ [← r.parseStmt .allowCompositeLit]
      if (← tok) = Token.semicolon then do
        let _ ← next
        stmtListLoop n nodes
      else return nodes

/-- `parseStmtList`. -/
def parseStmtList (nodes : List Ast) : ParseM σ (List Ast) := stmtListLoop r (r.rounds + 1) nodes

/-- `parseBlock`. -/
def parseBlock : ParseM σ Ast := do
  let list ← makeList
  let list := { list with tok := Tok.block }
  let nodes ← enter [] .lbrace
  if !nodes.isEmpty then return .list list nodes
  else do
    let nodes ← parseStmtList r []
    return .list list (← leave .rbrace (r.rounds + 1) nodes)

/-- `parseFunctionLitOrType`. -/
def parseFunctionLitOrType : ParseM σ Ast := do
  let pos ← pos
  let node ← parseFunctionType r
  if (← tok) ≠ Token.lbrace then return node
  else do
    let binary ← makeBinary
    return .binary { binary with tok := .lambda, pos := pos } node (← parseBlock r)

/-! ## Composite literals -/

/-- `parseKeyOrValueExpr`. -/
def parseKeyOrValueExpr : ParseM σ Ast := do
  if (← tok) = Token.lbrace then r.parseCompositeLit .nil else parseExprRec r

/-- The loop of `parseCompositeLit`. -/
def compositeLoop : Nat → List Ast → ParseM σ (List Ast)
  | 0, _ => throw .rounds
  | n + 1, nodes => do
    if (← tok).isLeave then return nodes
    else do
      let node ← parseKeyOrValueExpr r
      let node ←
        if (← tok) = Token.colon then do
          let keyvalue ← parseBinary
          let pos ← pos
          let value ← parseKeyOrValueExpr r
          pure (Ast.binary { keyvalue with tok := .keyValue, pos := pos } node value)
        else pure node
      let nodes := nodes ++ [node]
      if (← tok) = Token.comma then do
        let _ ← next
        compositeLoop n nodes
      else return nodes

/-- `parseCompositeLit`. -/
def parseCompositeLit (type : Ast) : ParseM σ Ast := do
  let list ← makeList
  let nodes ← enter [type] .lbrace
  let nodes ← compositeLoop r (r.rounds + 1) nodes
  let nodes ← leave .rbrace (r.rounds + 1) nodes
  return .list { list with tok := .compositeLit } nodes

/-! ## Suffixes -/

/-- `parseCallExpr`. -/
def parseCallExpr (fn : Ast) : ParseM σ Ast := do
  let _ ← next
  let flag := { ExprFlag.allowCompositeLit with ellipsis := true }
  let elem := r.parseExprOrType Tok.lowestPrec flag
  let (a, nodes) ← parseExprList (r.rounds + 1) elem fn flag
  return .list { a with tok := .call } (← leave .rparen (r.rounds + 1) nodes)

/-- The loop of `parseIndexOrSlice`; `sep` is the separator that was seen first. -/
def indexLoop : Nat → Option Token → List Ast → ParseM σ (Option Token × List Ast)
  | 0, _, _ => throw .rounds
  | n + 1, sep, nodes => do
    let tok0 ← tok
    if tok0.isLeave then return (sep, nodes)
    else if tok0 = Token.colon then
      if sep = some .comma then return (sep, nodes)
      else do
        let _ ← next
        indexLoop n (some .colon) (nodes ++ [.nil])
    else do
      let nodes := nodes ++ [← parseExprRec r]
      let tok1 ← tok
      if tok1 = Token.comma then do
        let _ ← next
        if sep = none ∨ sep = some .comma then indexLoop n (some .comma) nodes
        else return (sep, nodes)
      else if tok1 = Token.colon then do
        let _ ← next
        if sep = none ∨ sep = some .colon then indexLoop n (some .colon) nodes
        else return (sep, nodes)
      else return (sep, nodes)

/-- `parseIndexOrSlice`. -/
def parseIndexOrSlice (left : Ast) : ParseM σ Ast := do
  let list ← parseList
  let (sep, nodes) ← indexLoop r (r.rounds + 1) none [left]
  let (tok, nodes) :=
    if sep = some .colon then (Tok.slice, nodes ++ List.replicate (3 - nodes.length) Ast.nil)
    else (Tok.index, nodes)
  let nodes ← if nodes.length = 1 then do pure (nodes ++ [← makeBad errExpectingExpr]) else pure nodes
  return .list { list with tok := tok } (← leave .rbrack (r.rounds + 1) nodes)

/-- `parseSelector`. -/
def parseSelector (left : Ast) (pos : Int) : ParseM σ Ast :=
  return .binary (.new Token.period pos) left (← parseIdent)

/-- `parseTypeAssert`. -/
def parseTypeAssert (left : Ast) (flag : ExprFlag) : ParseM σ Ast := do
  let binary ← parseBinary
  let type ←
    if flag.typeSwitch ∧ (← tok) = Token.type then parseAtom Token.type else r.parseType false
  let type ← leaveNode (r.rounds + 1) type .rparen
  return .binary { binary with tok := .typeAssert } left type

/-! ## Expressions -/

/-- `parseOperandExpr`. -/
def parseOperandExpr : ParseM σ Ast := do
  match ← tok with
  | .of .int => parseAtom Token.int
  | .of .float => parseAtom Token.float
  | .of .imag => parseAtom Token.imag
  | .of .char => parseAtom Token.char
  | .of .string => parseAtom Token.string
  | .of .lparen => do
    let _ ← next
    let node ← parseExprRec r
    leaveNode (r.rounds + 1) node .rparen
  | .of .ident => parseIdent
  | .of .func => parseFunctionLitOrType r
  | _ => parseType r false

/-- The loop of `parsePrimaryExpr`. -/
def primaryLoop (flag : ExprFlag) : Nat → Ast → ParseM σ Ast
  | 0, _ => throw .rounds
  | n + 1, node => do
    match ← tok with
    | .of .lparen => primaryLoop flag n (← parseCallExpr r node)
    | .of .lbrack => primaryLoop flag n (← parseIndexOrSlice r node)
    | .of .lbrace => do
      let op ← deref "parsePrimaryExpr" node.op
      if op = .array ∨ op = Token.map ∨ op = Token.struct ∨ flag.compositeLit then do
        let lit ← parseCompositeLit r node
        primaryLoop flag n lit
      else return node
    | .of .period => do
      let pos ← pos
      let tok1 ← next
      if tok1 = Token.ident then do
        let selector ← parseSelector node pos
        primaryLoop flag n selector
      else if tok1 = Token.lparen then do
        let assert ← parseTypeAssert r node flag
        primaryLoop flag n assert
      else makeBadNode node errExpectingIdentOrLparen
    | _ => return node

/-- `parsePrimaryExpr`. -/
def parsePrimaryExpr (flag : ExprFlag) : ParseM σ Ast := do
  let node ← parseOperandExpr r
  primaryLoop r flag (r.rounds + 1) node

/-- `parseUnaryExpr`. -/
def parseUnaryExpr (flag : ExprFlag) : ParseM σ Ast := do
  if !(← tok).isUnary then parsePrimaryExpr r flag
  else do
    let unary ← parseUnary
    return .unary unary (← r.parseUnaryExpr flag)

/-- The loop of `parseExprOrType`. -/
def binaryLoop (prec : Nat) (flag : ExprFlag) : Nat → Ast → ParseM σ Ast
  | 0, _ => throw .rounds
  | n + 1, node => do
    let tokPrec := (← tok).precedence
    if tokPrec ≤ prec then return node
    else do
      let binary ← parseBinary
      let y ← r.parseExprOrType tokPrec flag
      binaryLoop prec flag n (.binary binary node y)

/-- `parseExprOrType`. -/
def parseExprOrType (prec : Nat) (flag : ExprFlag) : ParseM σ Ast := do
  let node ← parseUnaryExpr r flag
  binaryLoop r prec flag (r.rounds + 1) node

/-- `ParseExpr`. -/
def parseExpr : ParseM σ Ast := parseExprOrType r Tok.lowestPrec .allowCompositeLit

end Parser

end OneJit.Go
