import OneJit.Go.ParserExprs

/-!
# Parsing declarations and statements
-/

namespace OneJit.Go

namespace Parser

variable {σ : Type} [Source σ] (r : Rec σ)

/-! ## Declarations -/

/-- The loop of `parseAnySpecList`. -/
def specLoop (parseSpec : ParseM σ Ast) : Nat → List Ast → ParseM σ (List Ast)
  | 0, _ => throw .rounds
  | n + 1, list => do
    if (← tok).isLeave then return list
    else do
      let list := list ++ [← parseSpec]
      if (← tok) = Token.semicolon then do
        let _ ← next
        specLoop parseSpec n list
      else specLoop parseSpec n list

/-- `parseAnySpecList`. -/
def parseAnySpecList (parseSpec : ParseM σ Ast) : ParseM σ (List Ast) := do
  if (← tok) ≠ Token.lparen then return [← parseSpec]
  else do
    let _ ← next
    let list ← specLoop parseSpec (r.rounds + 1) []
    leave .rparen (r.rounds + 1) list

/-- `parseImportSpec`. -/
def parseImportSpec : ParseM σ Ast := do
  let pos ← pos
  let tok0 ← tok
  let name ← if tok0 = Token.ident ∨ tok0 = Token.period then parseAtom tok0 else pure .nil
  let path ←
    if (← tok) = Token.string then parseAtom Token.string else parseBad errExpectingString
  return .binary (.new .importSpec pos) name path

/-- `parseImport`. -/
def parseImport : ParseM σ Ast := do
  let list ← parseList
  return .list list (← parseAnySpecList r parseImportSpec)

/-- `parseValueSpec`. -/
def parseValueSpec : ParseM σ Ast := do
  let pos ← pos
  let comment ← consumeComment
  let names ← parseIdentList (r.rounds + 1) .nil
  let a := { Atom.new .valueSpec pos with comment := comment }
  if (← tok).isLeave then return .valueSpec a names .nil .nil
  else do
    let tok1 ← tok
    let type ←
      if tok1 ≠ Token.assign ∧ tok1 ≠ Token.semicolon then r.parseType false else pure .nil
    if (← tok) = Token.assign then do
      let _ ← next
      let (b, values) ← parseExprList (r.rounds + 1) (parseExprRec r) .nil .allowCompositeLit
      return .valueSpec a names type (.list b values)
    else return .valueSpec a names type .nil

/-- `parseConstOrVarDecl`. -/
def parseConstOrVarDecl : ParseM σ Ast := do
  let list ← parseList
  return .list list (← parseAnySpecList r (parseValueSpec r))

/-- `parseTypeSpec`. -/
def parseTypeSpec : ParseM σ Ast := do
  let pos0 ← pos
  let name ← parseIdent
  let (tok, pos) ←
    if (← tok) = Token.assign then do
      let pos1 ← pos
      let _ ← next
      pure (Token.assign, pos1)
    else pure (Token.define, pos0)
  let type ← r.parseType true
  let node := Ast.binary (.new tok pos) name type
  if tok = Token.assign ∧ (← get).lang < Lang.typeAlias then makeBadNode node errTypeAlias
  else return node

/-- `parseTypeDecl`. -/
def parseTypeDecl : ParseM σ Ast := do
  let list ← parseList
  return .list list (← parseAnySpecList r (parseTypeSpec r))

/-- `parseFuncOrMethodDecl`. -/
def parseFuncOrMethodDecl : ParseM σ Ast := do
  let a ← takeCurr
  let tok1 ← next
  let recv ← if tok1 = Token.lparen then parseParams r .params else pure .nil
  let name ← parseIdent
  let type ← parseGenericSignature r (← pos)
  let body ← if (← tok) = Token.lbrace then parseBlock r else pure .nil
  return .funcDecl a recv name type body

/-- `ParseTopLevelDecl`. -/
def parseTopLevelDecl : ParseM σ Ast := do
  match ← tok with
  | .of .const | .of .var => parseConstOrVarDecl r
  | .of .func => parseFuncOrMethodDecl r
  | .of .type => parseTypeDecl r
  | _ => parseBad errExpectingConstVarFuncOrType

/-! ## Simple statements -/

/-- `isSimpleStmt`. -/
def isSimpleStmt (node : Ast) : Bool :=
  match node.op with
  | none => false
  | some op =>
    op == Tok.of .inc || op == Tok.of .dec ||
      (op == Tok.of .arrow && node.len == some 2 || op != Tok.of .arrow && op.isAssign)

/-- `parseRangeStmt`. -/
def parseRangeStmt : ParseM σ Ast := do
  let unary ← parseUnary
  return .unary unary (← r.parseExprOrType Tok.lowestPrec .none)

/-- `parseAssign`. -/
def parseAssign (left : Ast) (flag : ExprFlag) : ParseM σ Ast := do
  let assign ← parseBinary
  let stmt ←
    if flag.range ∧ (← tok) = Token.range then do pure (some (← parseUnary)) else pure none
  let elem := r.parseExprOrType Tok.lowestPrec flag.litOrSwitch
  let (a, nodes) ← parseExprList (r.rounds + 1) elem .nil flag.litOrSwitch
  let node := Ast.binary assign left (.list a nodes)
  match stmt with
  | none => return node
  | some stmt => return .unary stmt node

/-- `parseSimpleStmt`. -/
def parseSimpleStmt (flag : ExprFlag) : ParseM σ Ast := do
  let tok0 ← tok
  if tok0 = Token.semicolon ∨ tok0 = Token.lbrace ∨ tok0.isLeave then return .nil
  else do
    let elem := parseExprOrType r Tok.lowestPrec flag.litOrSwitch
    let (a, nodes) ← parseExprList (r.rounds + 1) elem .nil flag.litOrSwitch
    let node := match nodes with
      | [node] => node
      | _ => .list a nodes
    let tok1 ← tok
    if tok1 = Token.arrow then do
      let node ← if nodes.length ≠ 1 then makeBadNode node errExpectedOneExpr else pure node
      let binary ← parseBinary
      return .binary binary node (← r.parseExprOrType Tok.lowestPrec flag)
    else if tok1 = Token.inc ∨ tok1 = Token.dec then do
      let node ← if nodes.length ≠ 1 then makeBadNode node errExpectedOneExpr else pure node
      return .unary (← parseUnary) node
    else if tok1 = Token.range then
      if flag.range then parseRangeStmt r else return node
    else if tok1.isAssign then parseAssign r (.list a nodes) flag
    else return node

/-- `parseBreakOrContinue`. -/
def parseBreakOrContinue : ParseM σ Ast := do
  let unary ← parseUnary
  let label ← if (← tok) = Token.ident then parseIdent else pure .nil
  return .unary unary label

/-- `parseDeferOrGo`. -/
def parseDeferOrGo : ParseM σ Ast := do
  let unary ← parseUnary
  return .unary unary (← parseExprRec r)

/-- `parseFallthrough`. -/
def parseFallthrough : ParseM σ Ast := do parseAtom (← tok)

/-- `parseGoto`. -/
def parseGoto : ParseM σ Ast := do
  let unary ← parseUnary
  return .unary unary (← parseIdent)

/-- `parseReturn`. -/
def parseReturn : ParseM σ Ast := do
  let pos ← pos
  let _ ← next
  let (a, nodes) ← parseExprList (r.rounds + 1) (parseExprRec r) .nil .allowCompositeLit
  return .list { a with tok := Token.return, pos := pos } nodes

/-! ## Compound statements -/

/-- The rest of `parseFor`, when the statement is no range loop. -/
def parseForClause (list : Atom) (init : Ast) : ParseM σ Ast := do
  let (init, cond, post) ←
    if (← tok) = Token.semicolon then do
      let tok1 ← next
      let cond ←
        if tok1 ≠ Token.semicolon ∧ tok1 ≠ Token.lbrace ∧ !tok1.isLeave then parseExprRec r
        else pure .nil
      let post ←
        if (← tok) = Token.semicolon then do
          let _ ← next
          parseSimpleStmt r .none
        else parseBad (.tok .semicolon)
      pure (init, cond, post)
    else do
      let cond ← if isSimpleStmt init then makeBadNode init errExpectingExpr else pure init
      pure (Ast.nil, cond, Ast.nil)
  return .list list [init, cond, post, ← parseBlock r]

/-- `parseFor`. -/
def parseFor : ParseM σ Ast := do
  let list ← parseList
  let tok0 ← tok
  if tok0 = Token.lbrace then parseForClause r list .nil
  else if tok0 = Token.range then do
    let init ← parseRangeStmt r
    return .list { list with tok := Token.range } [init, ← parseBlock r]
  else do
    let init ← parseSimpleStmt r .allowRange
    if init.op = some Token.range then do
      let stmt ← deref "parseFor" (init.at? 0)
      return .list { list with tok := Token.range } [stmt, ← parseBlock r]
    else parseForClause r list init

/-- `parseIf`. -/
def parseIf : ParseM σ Ast := do
  let list ← parseList
  let init ← parseSimpleStmt r .none
  let (init, cond) ←
    if (← tok) = Token.semicolon then do
      let _ ← next
      let cond ← r.parseExprOrType Tok.lowestPrec .none
      pure (init, cond)
    else do
      let cond ← if isSimpleStmt init then makeBadNode init errExpectingExpr else pure init
      pure (Ast.nil, cond)
  let block ← parseBlock r
  let els ←
    if (← tok) = Token.else then do
      let tok1 ← next
      if tok1 = Token.if then r.parseIf else parseBlock r
    else pure .nil
  return .list list [init, cond, block, els]

/-- The rest of `parseSelectCase` and `parseSwitchCase`. -/
def parseCaseBody (list : Atom) (nodes : List Ast) : ParseM σ Ast := do
  if (← tok) = Token.colon then do
    let _ ← next
    return .list list (← parseStmtList r nodes)
  else return .list list (nodes ++ [← parseBad (.tok .colon)])

/-- `isSendOrRecvStmt`. It asks the node for its token without a test for `nil`. -/
def isSendOrRecvStmt (node : Ast) : ParseM σ Bool := do
  let op ← deref "isSendOrRecvStmt" node.op
  if op = Token.arrow then return true
  else if op = Token.assign ∨ op = Token.define then
    if node.len = some 2 then do
      let right ← deref "isSendOrRecvStmt, right side" (node.at? 1)
      let rightOp ← deref "isSendOrRecvStmt, right side" right.op
      if rightOp = .exprs ∧ right.len = some 1 then do
        let expr ← deref "isSendOrRecvStmt, right side" (right.at? 0)
        let exprOp ← deref "isSendOrRecvStmt, right side" expr.op
        return exprOp == Tok.of .arrow
      else return false
    else return false
  else return false

/-- `parseSelectCase`. -/
def parseSelectCase : ParseM σ Ast := do
  let tok0 ← tok
  let list ← parseList
  let nodes ←
    if tok0 = Token.case then do
      let node ← parseSimpleStmt r .allowCompositeLit
      let node ←
        if !(← isSendOrRecvStmt node) then makeBadNode node errSelectCaseNotSendOrRecv
        else pure node
      pure [node]
    else pure []
  parseCaseBody r list nodes

/-- `isTypeSwitchStmt`. -/
def isTypeSwitchStmt (node : Ast) : ParseM σ Bool := do
  match node.op with
  | none => return false
  | some op =>
    if op = Token.assign ∨ op = Token.define then
      if node.len = some 2 then do
        let right ← deref "isTypeSwitchStmt" (node.at? 1)
        let rightOp ← deref "isTypeSwitchStmt" right.op
        if rightOp = .exprs ∧ right.len = some 1 then do
          let expr ← deref "isTypeSwitchStmt" (right.at? 0)
          let exprOp ← deref "isTypeSwitchStmt" expr.op
          if exprOp = .typeAssert ∧ expr.len = some 2 then do
            let type ← deref "isTypeSwitchStmt" (expr.at? 1)
            let typeOp ← deref "isTypeSwitchStmt" type.op
            return typeOp == Tok.of .type
          else return false
        else return false
      else return false
    else return false

/-- `parseSwitchCase`. -/
def parseSwitchCase : ParseM σ Ast := do
  let tok0 ← tok
  let list ← parseList
  let nodes ←
    if tok0 = Token.case then do
      let (a, nodes) ← parseExprList (r.rounds + 1) (parseExprRec r) .nil .allowCompositeLit
      pure [Ast.list a nodes]
    else pure []
  parseCaseBody r list nodes

/-- The loop over the clauses of `parseSelect` and `parseSwitch`. -/
def clausesLoop (parseCase : ParseM σ Ast) : Nat → List Ast → ParseM σ (List Ast)
  | 0, _ => throw .rounds
  | n + 1, nodes => do
    let tok0 ← tok
    if tok0 = Token.case ∨ tok0 = Token.default then do
      let node ← parseCase
      clausesLoop parseCase n (nodes ++ [node])
    else return nodes

/-- `parseSelect`. -/
def parseSelect : ParseM σ Ast := do
  let list ← parseList
  let nodes ← enter [] .lbrace
  let nodes ← clausesLoop (parseSelectCase r) (r.rounds + 1) nodes
  return .list list (← leave .rbrace (r.rounds + 1) nodes)

/-- `parseSwitch`. -/
def parseSwitch : ParseM σ Ast := do
  let list ← parseList
  let init ← parseSimpleStmt r .allowTypeSwitch
  let (init, expr) ←
    if (← tok) = Token.semicolon then do
      let _ ← next
      let expr ← parseSimpleStmt r .allowTypeSwitch
      pure (init, expr)
    else pure (Ast.nil, init)
  let isTypeswitch1 ← isTypeSwitchStmt init
  let isTypeswitch2 ← isTypeSwitchStmt expr
  let init ← if isTypeswitch1 then makeBadNode init errInvalidTypeSwitch else pure init
  let list := if isTypeswitch1 ∨ isTypeswitch2 then { list with tok := Tok.typeswitch } else list
  let expr ←
    if !(isTypeswitch1 || isTypeswitch2) && isSimpleStmt expr then makeBadNode expr errExpectingExpr
    else pure expr
  let nodes ← enter [init, expr] .lbrace
  let nodes ← clausesLoop (parseSwitchCase r) (r.rounds + 1) nodes
  return .list list (← leave .rbrace (r.rounds + 1) nodes)

/-! ## Statements -/

/-- The statement before a label is looked for. -/
def parseStmtHead (flag : ExprFlag) : ParseM σ Ast := do
  match ← tok with
  | .of .lbrace => parseBlock r
  | .of .const | .of .var => parseConstOrVarDecl r
  | .of .type => parseTypeDecl r
  | .of .break | .of .continue => parseBreakOrContinue
  | .of .defer | .of .go => parseDeferOrGo r
  | .of .fallthrough => parseFallthrough
  | .of .for => parseFor r
  | .of .goto => parseGoto
  | .of .if => parseIf r
  | .of .return => parseReturn r
  | .of .select => parseSelect r
  | .of .switch => parseSwitch r
  | _ => parseSimpleStmt r flag

/-- `parseStmt`. -/
def parseStmt (flag : ExprFlag) : ParseM σ Ast := do
  let node ← parseStmtHead r flag
  if (← tok) = Token.colon ∧ node.op = some Token.ident then do
    let binary ← parseBinary
    return .binary { binary with tok := .label } node (← r.parseStmt flag)
  else return node

end Parser

end OneJit.Go
