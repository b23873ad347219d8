import OneJit.Go.ScanM

/-!
# Syntax trees

The nodes that the parser creates. A node holds an atom, which is the token and its position, and
its children. A child that is absent is `nil`; asking `nil` for its token panics.
-/

namespace OneJit.Go

/-- `token.Token`: what the scanner returns, and the tokens that only nodes have. -/
inductive Tok
  | of (t : Token)
  | array | block | call | compositeLit | decls | exprs | field | generic | importSpec
  | imports | index | keyValue | label | lambda | names | params | recvDir | results | sendDir
  | slice | typeAssert | types | typeswitch | valueSpec
  deriving DecidableEq, Repr

instance : Coe Token Tok := ⟨.of⟩

/-- `ast.Atom`. -/
structure Atom where
  tok : Tok
  lit : Bytes
  pos : Int
  endpos : Int
  comment : List Bytes
  deriving DecidableEq, Repr

/-- `ast.Atom{}`. -/
def Atom.zero : Atom := ⟨Token.illegal, [], 0, 0, []⟩

/-- `ast.Atom{Tok: tok, TokPos: pos}`. -/
def Atom.new (tok : Tok) (pos : Int) : Atom := { Atom.zero with tok := tok, pos := pos }

/-- `ast.Node`. -/
inductive Ast
  | nil
  | atom (a : Atom)
  | bad (a : Atom) (node : Ast) (err : ScanError)
  | unary (a : Atom) (x : Ast)
  | binary (a : Atom) (x y : Ast)
  | list (a : Atom) (nodes : List Ast)
  | field (a : Atom) (names type tag : Ast)
  | funcType (a : Atom) (params results : Ast)
  | funcDecl (a : Atom) (recv name type body : Ast)
  | genericType (a : Atom) (params type : Ast)
  | valueSpec (a : Atom) (names type values : Ast)

namespace Ast

instance : Inhabited Ast := ⟨nil⟩

/-- The atom that every node but `nil` embeds. -/
def atom? : Ast → Option Atom
  | nil => none
  | atom a | bad a _ _ | unary a _ | binary a _ _ | list a _ | field a _ _ _ | funcType a _ _
  | funcDecl a _ _ _ _ | genericType a _ _ | valueSpec a _ _ _ => some a

def isNil : Ast → Bool
  | nil => true
  | _ => false

/-- The children. -/
def children : Ast → List Ast
  | nil | atom _ => []
  | bad _ node _ => [node]
  | unary _ x => [x]
  | binary _ x y => [x, y]
  | list _ nodes => nodes
  | field _ names type tag => if tag.isNil then [names, type] else [names, type, tag]
  | funcType _ params results => [params, results]
  | funcDecl _ recv name type body => [recv, name, type, body]
  | genericType _ params type => [params, type]
  | valueSpec _ names type values => [names, type, values]

/-- `Op()`. -/
def op (node : Ast) : Option Tok := node.atom?.map Atom.tok

/-- `Pos()`. -/
def pos (node : Ast) : Option Int := node.atom?.map Atom.pos

/-- `Len()`. -/
def len (node : Ast) : Option Nat := node.atom?.map fun _ => node.children.length

/-- `At(i)`, which panics when there is no such child. -/
def at? (node : Ast) (i : Nat) : Option Ast := node.children[i]?

end Ast

/-! ## Classes of tokens -/

namespace Token

/-- `String()`. -/
def text : Token → String
  | illegal => "ILLEGAL" | eof => "EOF" | comment => "COMMENT"
  | ident => "IDENT" | int => "INT" | float => "FLOAT" | imag => "IMAG" | char => "CHAR"
  | string => "STRING"
  | add => "+" | sub => "-" | mul => "*" | quo => "/" | rem => "%"
  | and => "&" | or => "|" | xor => "^" | shl => "<<" | shr => ">>" | andNot => "&^"
  | addAssign => "+=" | subAssign => "-=" | mulAssign => "*=" | quoAssign => "/="
  | remAssign => "%=" | andAssign => "&=" | orAssign => "|=" | xorAssign => "^="
  | shlAssign => "<<=" | shrAssign => ">>=" | andNotAssign => "&^="
  | land => "&&" | lor => "||" | arrow => "<-" | inc => "++" | dec => "--"
  | eql => "==" | lss => "<" | gtr => ">" | assign => "=" | not => "!"
  | neq => "!=" | leq => "<=" | geq => ">=" | define => ":=" | ellipsis => "..."
  | lparen => "(" | lbrack => "[" | lbrace => "\x7b" | comma => "," | period => "."
  | rparen => ")" | rbrack => "]" | rbrace => "\x7d" | semicolon => ";" | colon => ":"
  | «break» => "break" | case => "case" | chan => "chan" | const => "const"
  | «continue» => "continue" | default => "default" | defer => "defer" | «else» => "else"
  | «fallthrough» => "fallthrough" | «for» => "for" | func => "func" | go => "go"
  | goto => "goto" | «if» => "if" | «import» => "import" | interface => "interface"
  | map => "map" | package => "package" | range => "range" | «return» => "return"
  | select => "select" | struct => "struct" | switch => "switch" | type => "type" | var => "var"

end Token

namespace Tok

/-- `String()`. -/
def text : Tok → String
  | of t => t.text
  | array => "ARRAY" | block => "BLOCK" | call => "CALL" | compositeLit => "COMPOSITE_LIT"
  | decls => "DECLS" | exprs => "EXPRS" | field => "FIELD" | generic => "GENERIC"
  | importSpec => "IMPORT_SPEC" | imports => "IMPORTS" | index => "INDEX" | keyValue => "KEY_VALUE"
  | label => "LABEL" | lambda => "LAMBDA" | names => "NAMES" | params => "PARAMS"
  | recvDir => "RECV_DIR" | results => "RESULTS" | sendDir => "SEND_DIR" | slice => "SLICE"
  | typeAssert => "TYPE_ASSERT" | types => "TYPES" | typeswitch => "TYPESWITCH"
  | valueSpec => "VALUE_SPEC"

/-- `LowestPrec`. -/
def lowestPrec : Nat := 0

/-- `Precedence`. -/
def precedence : Tok → Nat
  | of .lor => 1
  | of .land => 2
  | of .eql | of .neq | of .lss | of .leq | of .gtr | of .geq => 3
  | of .add | of .sub | of .or | of .xor => 4
  | of .mul | of .quo | of .rem | of .shl | of .shr | of .and | of .andNot => 5
  | _ => lowestPrec

def isAssign : Tok → Bool
  | of .assign | of .define | of .addAssign | of .subAssign | of .mulAssign | of .quoAssign
  | of .remAssign | of .andAssign | of .orAssign | of .xorAssign | of .shlAssign | of .shrAssign
  | of .andNotAssign => true
  | _ => false

def isDecl : Tok → Bool
  | of .const | of .func | of .type | of .var => true
  | _ => false

def isLeave : Tok → Bool
  | of .illegal | of .eof | of .rparen | of .rbrack | of .rbrace => true
  | _ => false

/-- The token may introduce a type. -/
def isTypeStart : Tok → Bool
  | of .ident | of .mul | of .arrow | of .lparen | of .lbrack | of .chan | of .func
  | of .interface | of .map | of .struct => true
  | _ => false

/-- The token may introduce a type or `... type`. -/
def isTypeStartOrEllipsis (tok : Tok) : Bool := tok == of .ellipsis || tok.isTypeStart

def isUnary : Tok → Bool
  | of .add | of .sub | of .mul | of .and | of .xor | of .arrow | of .not => true
  | _ => false

end Tok

end OneJit.Go
