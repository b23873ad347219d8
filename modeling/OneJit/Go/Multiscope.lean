import OneJit.Go.Objects

/-!
# The package block and the file blocks

`multiscope` holds the objects of the package block, and for each file those that it imports. An
insertion looks for the name in the package block and in the imports of its own file only.
-/

namespace OneJit.Go

/-- A file of the package. -/
abbrev File := Nat

/-- A node of the syntax tree, as what it is reported with. -/
abbrev Node := Nat

/-- An imported package: the objects of its scope, in the order of their names. -/
structure Package where
  name : String
  scope : List Object
  sorted : scope.Pairwise fun a b => a.name < b.name

/-- `token.IsExported`, with `unicode.IsUpper` on what is no ASCII character. -/
def isExported (isUpper : Char → Bool) (name : String) : Bool :=
  match name.toList with
  | [] => true
  | c :: _ => if c.toNat < 0x80 then decide ('A' ≤ c ∧ c ≤ 'Z') else isUpper c

/-- `token.Error` as `multiscope` records it. -/
inductive ScopeError
  | redefined (name : String) (node : Node)
  | importMain (node : Node)
  | initFunc (node : Node)
  deriving DecidableEq, Repr

/-- The text of an error, for a previous declaration at this position. -/
def ScopeError.msg (position : Option String) : ScopeError → String
  | redefined name _ => match position with
    | some pos => name ++ " redeclared in this block\n\tprevious declaration at " ++ pos
    | none => name ++ " redeclared in this block"
  | importMain _ => "cannot import package \"main\""
  | initFunc _ => "func init must have no arguments and no return values"

def ScopeError.isRedefined : ScopeError → Bool
  | redefined _ _ => true
  | _ => false

/-- `multiscope`. The existing scope that is extended is given by its names. -/
structure Multiscope where
  outer : String → Bool
  named : ObjectMap
  unnamed : List Object
  initfuncs : List Object
  fileobjs : File → ObjectMap
  currfile : File
  errs : List ScopeError
  warns : List ScopeError

namespace Multiscope

/-- `Init`. -/
def init (outer : String → Bool) : Multiscope where
  outer := outer
  named := []
  unnamed := []
  initfuncs := []
  fileobjs _ := []
  currfile := 0
  errs := []
  warns := []

variable (isUpper : Char → Bool)

/-- `lookup`, without whether the object is imported. -/
def lookup (ms : Multiscope) (name : String) : Option Object :=
  ((ms.fileobjs ms.currfile).lookup name).or (ms.named.lookup name)

/-- `checkRedefined`. A name of the existing scope only warns. -/
def checkRedefined (ms : Multiscope) (name : String) (node : Node) : Multiscope :=
  if (ms.lookup name).isSome then { ms with errs := ms.errs ++ [.redefined name node] }
  else if ms.outer name then { ms with warns := ms.warns ++ [.redefined name node] }
  else ms

/-- `add`. -/
def add (ms : Multiscope) (node : Node) (cls : Class) (name : String) : Multiscope :=
  let obj := ⟨name, cls⟩
  if name != "_" then
    let ms := ms.checkRedefined name node
    { ms with named := ms.named.insert obj }
  else { ms with unnamed := ms.unnamed ++ [obj] }

/-- `addInitFunc`, with whether the function has arguments or results. -/
def addInitFunc (ms : Multiscope) (node : Node) (hasSignature : Bool) : Multiscope :=
  { ms with
    initfuncs := ms.initfuncs ++ [⟨"init", .funcObj⟩]
    errs := if hasSignature then ms.errs ++ [.initFunc node] else ms.errs }

/-- An object is inserted into the block of the current file. -/
def addToFile (ms : Multiscope) (node : Node) (obj : Object) : Multiscope :=
  let ms := ms.checkRedefined obj.name node
  { ms with fileobjs := fun file =>
      if file = ms.currfile then (ms.fileobjs file).insert obj else ms.fileobjs file }

/-- What a dot import inserts. -/
def dotImported (pkg : Package) : List Object :=
  pkg.scope.filter fun obj => isExported isUpper obj.name && obj.cls != .importObj

/-- `addImport`. -/
def addImport (ms : Multiscope) (node : Node) (name : String) (pkg : Option Package) :
    Multiscope :=
  if name = "_" then ms
  else if name = "main" then { ms with errs := ms.errs ++ [.importMain node] }
  else if name ≠ "." then ms.addToFile node ⟨name, .importObj⟩
  else match pkg with
    | none => ms
    | some pkg => (dotImported isUpper pkg).foldl (fun ms obj => ms.addToFile node obj) ms

end Multiscope

/-- What the collector adds. A function `init` is not added like the others. -/
inductive Addition
  | decl (cls : Class) (name : String)
  | initFunc (hasSignature : Bool)
  | import (name : String) (pkg : Option Package)

/-- An addition with the file it is in and the node it is reported with. -/
structure Added where
  file : File
  node : Node
  what : Addition

namespace Multiscope

variable (isUpper : Char → Bool)

/-- One addition, after `currfile` is set to its file. -/
def step (ms : Multiscope) (a : Added) : Multiscope :=
  let ms := { ms with currfile := a.file }
  match a.what with
  | .decl cls name => ms.add a.node cls name
  | .initFunc hasSignature => ms.addInitFunc a.node hasSignature
  | .import name pkg => ms.addImport isUpper a.node name pkg

/-- All additions, in their order. -/
def addAll (outer : String → Bool) (added : List Added) : Multiscope :=
  added.foldl (step isUpper) (init outer)

end Multiscope

end OneJit.Go
