import OneJit.Go.ParserM

/-!
# Parsing types

Identifiers, lists of expressions and types. A production that is entered again inside itself is
called through `Rec`, which holds the same productions with one round less; before such a call a
token has always been taken.
-/

namespace OneJit.Go

/-- `exprFlag`. -/
structure ExprFlag where
  compositeLit : Bool
  range : Bool
  ellipsis : Bool
  typeSwitch : Bool
  deriving DecidableEq, Repr

namespace ExprFlag

/-- No flag: `noCompositeLit` and `noRange`. -/
def none : ExprFlag := ⟨false, false, false, false⟩

def allowCompositeLit : ExprFlag := { none with compositeLit := true }

def allowRange : ExprFlag := { none with range := true }

def allowTypeSwitch : ExprFlag := { none with typeSwitch := true }

/-- `flag & (allowCompositeLit | allowTypeSwitch)`. -/
def litOrSwitch (flag : ExprFlag) : ExprFlag := { flag with range := false, ellipsis := false }

end ExprFlag

/-- The productions that are entered recursively, and the number of rounds of their loops. -/
structure Rec (σ : Type) where
  rounds : Nat
  parseExprOrType : Nat → ExprFlag → ParseM σ Ast
  parseUnaryExpr : ExprFlag → ParseM σ Ast
  parseCompositeLit : Ast → ParseM σ Ast
  parseType : Bool → ParseM σ Ast
  parseStmt : ExprFlag → ParseM σ Ast
  parseIf : ParseM σ Ast

namespace Parser

variable {σ : Type} [Source σ]

/-! ## Identifiers and lists -/

/-- The loop of `parseIdentList`. -/
def identListLoop : Nat → List Ast → ParseM σ (List Ast)
  | 0, _ => throw .rounds
  | n + 1, list => do
    if (← tok) = Token.ident then do
      let list := list ++ [← parseIdent]
      if (← tok) = Token.comma then do
        let _ ← next
        identListLoop n list
      else return list
    else return list

/-- `parseIdentList`. -/
def parseIdentList (rounds : Nat) (ident0 : Ast) : ParseM σ Ast := do
  let pos ← pos
  let list ← identListLoop rounds (if ident0.isNil then [] else [ident0])
  return if list.isEmpty then .nil else .list (.new .names pos) list

/-- The loop of `parseQualifiedIdent`. -/
def qualifiedLoop : Nat → Ast → ParseM σ Ast
  | 0, _ => throw .rounds
  | n + 1, node => do
    if (← tok) = Token.period then do
      let binary ← parseBinary
      if (← tok) = Token.ident then do
        let y ← parseIdent
        qualifiedLoop n (.binary binary node y)
      else return node
    else return node

/-- `parseQualifiedIdent`. -/
def parseQualifiedIdent (rounds : Nat) : ParseM σ Ast := do
  let node ← parseIdent
  if (← deref "parseQualifiedIdent" node.op) = Token.ident then qualifiedLoop rounds node
  else return node

/-- The loop of `parseExprList`. -/
def exprListLoop (parseElem : ParseM σ Ast) : Nat → List Ast → ParseM σ (List Ast)
  | 0, _ => throw .rounds
  | n + 1, list => do
    let tok0 ← tok
    if tok0 = Token.semicolon ∨ tok0.isAssign ∨ tok0.isLeave then return list
    else do
      let list := list ++ [← parseElem]
      if (← tok) = Token.comma then do
        let _ ← next
        exprListLoop parseElem n list
      else return list

/-- `parseExprList`: the position and the nodes. The elements are parsed by `parseElem`, which is
`parseExprOrType` with the lowest precedence and the flag. -/
def parseExprList (rounds : Nat) (parseElem : ParseM σ Ast) (expr0 : Ast) (flag : ExprFlag) :
    ParseM σ (Atom × List Ast) := do
  let pos ← pos
  let list ← exprListLoop parseElem rounds (if expr0.isNil then [] else [expr0])
  let list ← match list.getLast? with
    | some last =>
      if flag.ellipsis ∧ (← tok) = Token.ellipsis then do
        let unary ← parseUnary
        pure (list.dropLast ++ [.unary unary last])
      else pure list
    | none => pure list
  return (.new .exprs pos, list)

variable (r : Rec σ)

/-- `ParseExpr`, after a token was taken. -/
def parseExprRec : ParseM σ Ast := r.parseExprOrType Tok.lowestPrec .allowCompositeLit

/-! ## Generic types -/

/-- The loop of `parseGenericParamDecl`. -/
def genericNamesLoop : Nat → Ast → List Ast → ParseM σ (List Ast)
  | 0, _, _ => throw .rounds
  | n + 1, t1, list => do
    if !t1.isNil then do
      let list := list ++ [t1]
      if (← tok) = Token.comma then do
        let _ ← next
        genericNamesLoop n .nil list
      else return list
    else if (← tok) = Token.ident then do
      let list := list ++ [← parseIdent]
      if (← tok) = Token.comma then do
        let _ ← next
        genericNamesLoop n .nil list
      else return list
    else return list

/-- `parseGenericParamDecl`. -/
def parseGenericParamDecl (t1 : Ast) : ParseM σ Ast := do
  let pos ← pos
  let names ← genericNamesLoop (r.rounds + 1) t1 []
  let type ← r.parseType false
  return .field (.new .field pos) (.list (.new .names pos) names) type .nil

/-- The loop of `parseGenericParams`. -/
def genericParamsLoop : Nat → Ast → List Ast → ParseM σ (List Ast)
  | 0, _, _ => throw .rounds
  | n + 1, t1, nodes => do
    if (← tok).isLeave then return nodes
    else do
      let nodes := nodes ++ [← parseGenericParamDecl r t1]
      if (← tok) = Token.comma then do
        let _ ← next
        genericParamsLoop n .nil nodes
      else return nodes

/-- `parseGenericParams`: a generic type without its `Type`. -/
def parseGenericParams (t1 : Ast) : ParseM σ (Atom × Ast) := do
  let pos ← pos
  let gen := Atom.new .generic pos
  let params := Atom.new .params pos
  let nodes ← if t1.isNil then enter [] .lbrack else pure []
  if !nodes.isEmpty then return (gen, .list params nodes)
  else do
    let nodes ← if (← get).lang < Lang.generics then do pure [← makeBad errGenerics] else pure []
    let nodes ← genericParamsLoop r (r.rounds + 1) t1 nodes
    let nodes ← if nodes.isEmpty then do pure [← makeBad errEmptyTypeParams] else pure nodes
    let nodes ← leave .rbrack (r.rounds + 1) nodes
    return (gen, .list params nodes)

/-- The tokens after `[` that are put back: they belong to the next node. -/
def isUnread : Tok → Bool
  | .of .rbrack | .of .int | .of .float | .of .imag | .of .char | .of .string => true
  | _ => false

/-- `parseMaybeGenericInstantiation`. -/
def parseMaybeGenericInstantiation (type : Ast) : ParseM σ Ast := do
  let atom := (← get).curr
  let _ ← consumeComment
  let _ ← next
  if isUnread (← tok) then do
    unread atom
    return type
  else do
    let (_, nodes) ← parseExprList (r.rounds + 1) (parseExprRec r) type .allowCompositeLit
    let nodes ← leave .rbrack (r.rounds + 1) nodes
    return .list { atom with tok := .index } nodes

/-! ## Array, channel, map and pointer types -/

/-- `parseArrayOrGenericType`. -/
def parseArrayOrGenericType (isDeclaration : Bool) : ParseM σ Ast := do
  let pos ← pos
  let tok1 ← next
  let arg ←
    if tok1 = Token.rbrack then pure .nil
    else if tok1 = Token.ellipsis then parseAtom Token.ellipsis
    else parseExprRec r
  if (← tok) = Token.rbrack then do
    let _ ← next
    return .binary (.new .array pos) arg (← r.parseType false)
  else if !isDeclaration ∨ arg.op ≠ some Token.ident then do
    let arg ← leaveNode (r.rounds + 1) arg .rbrack
    return .binary (.new .array pos) arg (← r.parseType false)
  else do
    let (gen, params) ← parseGenericParams r arg
    return .genericType gen params (← r.parseType false)

/-- `parseChannelType`. -/
def parseChannelType : ParseM σ Ast := do
  let dir ← if (← tok) = Token.arrow then parseAtom .recvDir else pure .nil
  if (← tok) ≠ Token.chan then parseBad errExpectingChan
  else do
    let binary ← parseBinary
    let dir ← if dir.isNil ∧ (← tok) = Token.arrow then parseAtom .sendDir else pure dir
    return .binary binary dir (← r.parseType false)

/-- `parseMapType`. -/
def parseMapType : ParseM σ Ast := do
  let binary ← parseBinary
  if (← tok) ≠ Token.lbrack then return .binary binary (← makeBad (.tok .lbrack)) .nil
  else do
    let _ ← next
    let key ← r.parseType false
    if (← tok) ≠ Token.rbrack then return .binary binary key (← makeBad (.tok .rbrack))
    else do
      let _ ← next
      return .binary binary key (← r.parseType false)

/-- `parsePointerType`. -/
def parsePointerType : ParseM σ Ast := do
  let unary ← parseUnary
  return .unary unary (← r.parseType false)

/-! ## Functions -/

/-- `parseTypeMaybeEllipsis`. -/
def parseTypeMaybeEllipsis : ParseM σ Ast := do
  if (← tok) ≠ Token.ellipsis then r.parseType false
  else do
    let ellipsis ← parseUnary
    return .unary ellipsis (← r.parseType false)

/-- `fixParamDecl`. -/
def fixParamDecl (name type : Ast) : ParseM σ (Ast × Ast) := do
  let op ← deref "fixParamDecl" name.op
  let len ← deref "fixParamDecl" name.len
  let (name, type) ←
    if op = .index ∧ len = 2 then do
      let index ← deref "fixParamDecl" (name.at? 1)
      let name ← deref "fixParamDecl" (name.at? 0)
      let pos ← deref "fixParamDecl" index.pos
      pure (name, Ast.list (.new .array pos) [index, type])
    else pure (name, type)
  let op ← deref "fixParamDecl" name.op
  let name ← if op ≠ Token.ident then makeBadNode name errExpectingIdent else pure name
  return (name, type)

/-- `parseParamDecl`. -/
def parseParamDecl : ParseM σ Ast := do
  let pos ← pos
  let expr ← parseTypeMaybeEllipsis r
  if (← tok).isTypeStartOrEllipsis then do
    let type ← parseTypeMaybeEllipsis r
    let op ← deref "parseParamDecl" expr.op
    let (name, type) ← if op ≠ Token.ident then fixParamDecl expr type else pure (expr, type)
    let namePos ← deref "parseParamDecl" name.pos
    return .field (.new .field pos) (.list (.new .names namePos) [name]) type .nil
  else return .field (.new .field pos) .nil expr .nil

/-- What the first loop of `fixParamDecls` finds out: how many fields have names, whether one of
them is not the last field, and whether the last field has one. -/
structure NameCount where
  count : Nat
  some : Bool
  last : Bool
  deriving DecidableEq, Repr

/-- The first loop of `fixParamDecls`, over the fields after `front`. Without a count the list is
the result. -/
def countNames : List Ast → List Ast → NameCount → ParseM σ (List Ast × Option NameCount)
  | front, [], counts => return (front, some counts)
  | front, .field a names type tag :: rest, counts => do
    let ellipsis ←
      if rest.isEmpty then pure false
      else do pure ((← deref "fixParamDecls" type.op) == Tok.of .ellipsis)
    if ellipsis then do
      let type ← makeBadNode type errParamNonFinalEllipsis
      return (front ++ .field a names type tag :: rest, none)
    else
      let counts :=
        if names.isNil then counts
        else if rest.isEmpty then { counts with count := counts.count + 1, last := true }
        else { counts with count := counts.count + 1, some := true }
      countNames (front ++ [.field a names type tag]) rest counts
  | front, node :: rest, _ => return (front ++ node :: rest, none)

/-- The nodes of a list. -/
def listNodes : Ast → List Ast
  | .list _ nodes => nodes
  | _ => []

/-- The second loop of `fixParamDecls`: a field without names gives its type as a name to the next
field that has some. -/
def mergeNames : List Ast → List Ast → ParseM σ (List Ast)
  | _, [] => return []
  | names, .field a fieldNames type tag :: rest => do
    if fieldNames.isNil then do
      let op ← deref "fixParamDecls" type.op
      let name ← if op ≠ Token.ident then makeBadNode type errExpectingIdent else pure type
      mergeNames (names ++ [name]) rest
    else
      let fieldNames := match fieldNames with
        | .list b nodes => Ast.list b (names ++ nodes)
        | other => other
      return .field a fieldNames type tag :: (← mergeNames [] rest)
  | names, _ :: rest => return .nil :: (← mergeNames names rest)

/-- `fixParamDecls`. -/
def fixParamDecls (list : List Ast) : ParseM σ (List Ast) := do
  if list.length ≤ 1 then return list
  else do
    let (list, counts) ← countNames [] list ⟨0, false, false⟩
    match counts with
    | none => return list
    | some counts =>
      if counts.count = 0 ∨ counts.count = list.length then return list
      else if counts.some ∧ !counts.last then return list ++ [← makeBad errParamsNamedUnnamed]
      else mergeNames [] list

/-- The loop of `parseParams`. -/
def paramsLoop : Nat → List Ast → ParseM σ (List Ast)
  | 0, _ => throw .rounds
  | n + 1, nodes => do
    if (← tok).isLeave then return nodes
    else do
      let nodes := nodes ++ [← parseParamDecl r]
      if (← tok) = Token.comma then do
        let _ ← next
        paramsLoop n nodes
      else return nodes

/-- `parseParams`. -/
def parseParams (paramsOrResults : Tok) : ParseM σ Ast := do
  let list := Atom.new paramsOrResults (← pos)
  let nodes ← enter [] .lparen
  if !nodes.isEmpty then return .list list nodes
  else do
    let nodes ← paramsLoop r (r.rounds + 1) []
    let nodes ← leave .rparen (r.rounds + 1) nodes
    return .list list (← fixParamDecls nodes)

/-- `parseResultOrNil`. -/
def parseResultOrNil : ParseM σ Ast := do
  let tok ← tok
  if tok = Token.lparen then parseParams r .results
  else if !tok.isTypeStart then return .nil
  else do
    let pos ← pos
    let type ← r.parseType false
    return .list (.new .results pos) [.field (.new .field pos) .nil type .nil]

/-- `parseSignature`. -/
def parseSignature (funcpos : Int) : ParseM σ Ast := do
  let comment ← consumeComment
  let params ← parseParams r .params
  let results ← parseResultOrNil r
  return .funcType { Atom.new Token.func funcpos with comment := comment } params results

/-- `parseGenericSignature`. -/
def parseGenericSignature (funcpos : Int) : ParseM σ Ast := do
  if (← tok) ≠ Token.lbrack then parseSignature r funcpos
  else do
    let (gen, params) ← parseGenericParams r .nil
    return .genericType gen params (← parseSignature r funcpos)

/-- `parseFunctionType`. -/
def parseFunctionType : ParseM σ Ast := do
  let pos ← pos
  let _ ← next
  parseSignature r pos

/-! ## Interfaces and structs -/

/-- The loop of `parseTypeList`. -/
def typeListLoop : Nat → List Ast → ParseM σ (List Ast)
  | 0, _ => throw .rounds
  | n + 1, nodes => do
    if (← tok).isLeave then return nodes
    else do
      let nodes := nodes ++ [← r.parseType false]
      if (← tok) = Token.comma then do
        let _ ← next
        typeListLoop n nodes
      else return nodes

/-- `parseTypeList`. -/
def parseTypeList : ParseM σ Ast := do
  let list ← makeList
  return .list { list with tok := .types } (← typeListLoop r (r.rounds + 1) [])

/-- `parseInterfaceMethodOrEmbeddedOrTypeList`: the names and the type of the field. -/
def parseInterfaceMethod : ParseM σ (Atom × Ast × Ast) := do
  let field := Atom.new .field (← pos)
  if (← tok) = Token.type ∧ Lang.generics ≤ (← get).lang then do
    let _ ← next
    return (field, ← parseTypeList r, .nil)
  else do
    let head ← parseQualifiedIdent (r.rounds + 1)
    if (← tok) ≠ Token.lparen then return (field, .nil, head)
    else do
      let op ← deref "parseInterfaceMethod" head.op
      let head ← if op ≠ Token.ident then makeBadNode head (.tok .ident) else pure head
      let names ← makeList
      let type ← parseSignature r (← pos)
      return (field, .list { names with tok := .names } [head], type)

/-- The loop of `parseInterfaceBody`. -/
def interfaceLoop : Nat → Bool → List Ast → ParseM σ (List Ast)
  | 0, _, _ => throw .rounds
  | n + 1, haveTypelist, list => do
    if (← tok).isLeave then return list
    else do
      let (field, names, type) ← parseInterfaceMethod r
      let node := Ast.field field names type .nil
      let isTypelist := names.op == some .types
      let node ←
        if isTypelist ∧ haveTypelist then makeBadNode node errInterfaceMultipleTypelists
        else pure node
      let list := list ++ [node]
      if (← tok) = Token.semicolon then do
        let _ ← next
        interfaceLoop n (haveTypelist || isTypelist) list
      else interfaceLoop n (haveTypelist || isTypelist) list

/-- `parseInterfaceBody`. -/
def parseInterfaceBody : ParseM σ (List Ast) := do
  if (← tok) ≠ Token.lbrace then return [← parseBad (.tok .lbrace)]
  else do
    let _ ← next
    let list ← interfaceLoop r (r.rounds + 1) false []
    leave .rbrace (r.rounds + 1) list

/-- `parseInterfaceType`. -/
def parseInterfaceType : ParseM σ Ast := do
  let list ← parseList
  return .list list (← parseInterfaceBody r)

/-- The head of `parseFieldDecl`: the type of an embedded field, or the names with the atom of
their list. -/
def parseFieldHead : ParseM σ (Ast × Option (Atom × List Ast)) := do
  if (← tok) = Token.mul then return (← parsePointerType r, none)
  else do
    let head ← parseQualifiedIdent (r.rounds + 1)
    let tok1 ← tok
    if tok1 = Token.semicolon ∨ tok1 = Token.rbrace ∨ tok1 = Token.string then return (head, none)
    else if tok1 = Token.comma then do
      let _ ← next
      match ← parseIdentList (r.rounds + 1) head with
      | .list a nodes => return (.nil, some (a, nodes))
      | _ => return (.nil, none)
    else return (.nil, some (← makeList, [head]))

/-- `parseFieldDecl`. -/
def parseFieldDecl : ParseM σ Ast := do
  let field := Atom.new .field (← pos)
  let (type, names) ← parseFieldHead r
  let names ← match names with
    | none => pure Ast.nil
    | some (a, nodes) => do
      let head ← deref "parseFieldDecl" nodes.head?
      let op ← deref "parseFieldDecl" head.op
      let head ← if op ≠ Token.ident then makeBadNode head (.tok .ident) else pure head
      let pos ← deref "parseFieldDecl" head.pos
      pure (.list { a with tok := .names, lit := [], pos := pos } (head :: nodes.tail))
  let type ← if type.isNil then r.parseType false else pure type
  let tag ← if (← tok) = Token.string then parseAtom Token.string else pure .nil
  return .field field names type tag

/-- The loop of `parseFieldDeclList`. -/
def fieldsLoop : Nat → List Ast → ParseM σ (List Ast)
  | 0, _ => throw .rounds
  | n + 1, list => do
    if (← tok).isLeave then return list
    else do
      let list := list ++ [← parseFieldDecl r]
      if (← tok) = Token.semicolon then do
        let _ ← next
        fieldsLoop n list
      else return list

/-- `parseFieldDeclList`. -/
def parseFieldDeclList : ParseM σ (List Ast) := do
  let list ← enter [] .lbrace
  if !list.isEmpty then return list
  else do
    let list ← fieldsLoop r (r.rounds + 1) []
    leave .rbrace (r.rounds + 1) list

/-- `parseStructType`. -/
def parseStructType : ParseM σ Ast := do
  let list ← parseList
  return .list list (← parseFieldDeclList r)

/-- `ParseType`, and `parseType` for `false`. -/
def parseType (isTypeDecl : Bool) : ParseM σ Ast := do
  match ← tok with
  | .of .ident => do
    let node ← parseQualifiedIdent (r.rounds + 1)
    if (← tok) = Token.lbrack ∧ Lang.generics ≤ (← get).lang then
      parseMaybeGenericInstantiation r node
    else return node
  | .of .lparen => do
    let _ ← next
    let node ← r.parseType false
    leaveNode (r.rounds + 1) node .rparen
  | .of .lbrack => parseArrayOrGenericType r isTypeDecl
  | .of .arrow | .of .chan => parseChannelType r
  | .of .func => parseFunctionType r
  | .of .interface => parseInterfaceType r
  | .of .map => parseMapType r
  | .of .struct => parseStructType r
  | .of .mul => parsePointerType r
  | _ => parseBad errExpectingType

end Parser

end OneJit.Go
