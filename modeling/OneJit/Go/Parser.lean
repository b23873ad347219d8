import OneJit.Go.ParserStmts

/-!
# The parser

The productions are tied together: at most `n` of them are open inside one another.
-/

namespace OneJit.Go

namespace Parser

variable {σ : Type} [Source σ]

/-- The productions, of which at most `n` are open inside one another. -/
def productions : Nat → Rec σ
  | 0 =>
    { rounds := 0
      parseExprOrType := fun _ _ => throw .rounds
      parseUnaryExpr := fun _ => throw .rounds
      parseCompositeLit := fun _ => throw .rounds
      parseType := fun _ => throw .rounds
      parseStmt := fun _ => throw .rounds
      parseIf := throw .rounds }
  | n + 1 =>
    let r := productions n
    { rounds := n + 1
      parseExprOrType := parseExprOrType r
      parseUnaryExpr := parseUnaryExpr r
      parseCompositeLit := parseCompositeLit r
      parseType := parseType r
      parseStmt := parseStmt r
      parseIf := parseIf r }

@[simp] theorem productions_rounds (n : Nat) : (productions n : Rec σ).rounds = n := by
  cases n with
  | zero => rfl
  | succ n => rfl

variable (r : Rec σ)

/-- `parsePackage`. -/
def parsePackage : ParseM σ Ast := do
  let node ← parseUnary
  let tok1 ← tok
  let name ←
    if tok1 = Token.ident ∨ tok1 = Token.string then parseAtom tok1
    else parseBad errExpectingIdentOrString
  return .unary node name

/-- `Parse`. Its result is `nil` after a skipped import and before a second semicolon. -/
def parse : ParseM σ Ast := do
  let tok0 ← if (← tok) = Token.semicolon then next else tok
  let mode := (← get).mode
  if tok0 = Token.eof then makeEof
  else if tok0 = Token.package then parsePackage
  else if tok0 = Token.import then
    if mode.imports then parseImport r
    else if mode.decls then do
      let _ ← parseImport r
      return .nil
    else makeEof
  else if tok0 = Token.semicolon then return .nil
  else if !mode.decls then makeEof
  else if tok0.isLeave then do
    let node ← parseAtom tok0
    makeBadNode node errExpectingDecl
  else if tok0.isDecl then parseTopLevelDecl r
  else parseStmt r .allowCompositeLit

/-- `ast.File`, without its `token.File`. -/
structure File where
  package : Ast
  imports : List Ast
  decls : List Ast

/-- One round of the loop of `ParseFile`: the file so far, and whether the loop ends. -/
def fileRound (file : File) : ParseM σ (File × Bool) := do
  let tok0 ← tok
  let mode := (← get).mode
  if tok0 = Token.eof then return (file, true)
  else if tok0 = Token.package then do
    if !file.imports.isEmpty ∨ !file.decls.isEmpty then do let _ ← error (← pos) errExpectingDecl
    else if !file.package.isNil then do let _ ← error (← pos) errDuplicatePackage
    let node ← parsePackage
    let package := if file.package.isNil then node else file.package
    return ({ file with package := package }, !mode.imports && !mode.decls)
  else if tok0 = Token.import then
    if !mode.imports ∧ !mode.decls then return (file, true)
    else do
      if !file.decls.isEmpty then do let _ ← error (← pos) errExpectingDecl
      let node ← parseImport r
      return (if mode.imports then { file with imports := file.imports ++ [node] } else file, false)
  else if tok0 = Token.semicolon then do
    let _ ← next
    return (file, false)
  else if !mode.decls then return (file, true)
  else do
    let node ←
      if tok0.isDecl then parseTopLevelDecl r
      else do
        let _ ← error (← pos) errExpectingDecl
        parseStmt r .allowCompositeLit
    return (if node.isNil then file else { file with decls := file.decls ++ [node] }, false)

/-- The loop of `ParseFile`. -/
def fileLoop : Nat → File → ParseM σ File
  | 0, _ => throw .rounds
  | n + 1, file => do
    let (file, eof) ← fileRound r file
    if eof then return file else fileLoop n file

/-- `makeList`, the function of `ParseFile` that makes a list of nodes. -/
def makeNodes (tok : Tok) (nodes : List Ast) : ParseM σ Ast := do
  match nodes with
  | [] => return .nil
  | node :: _ => do
    let pos ← deref "makeList" node.pos
    return .list (.new tok pos) nodes

/-- `ParseFile`: the package, the imports and the declarations. -/
def parseFile (rounds : Nat) : ParseM σ (Ast × Ast × Ast) := do
  let file ← fileLoop r rounds ⟨.nil, [], []⟩
  return (file.package, ← makeNodes .imports file.imports, ← makeNodes .decls file.decls)

/-- The fields that `Init` sets, before it reads the first token. -/
def fresh (mode : Mode) (lang : Lang) (scanner : σ) : Parser σ :=
  { curr := .zero, unread0 := .zero, mode := mode, lang := lang, scanner := scanner }

end Parser

end OneJit.Go
