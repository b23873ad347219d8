import OneJit.Imm

/-!
# Code and the encoding of nodes

A node stored in a `Code` is a header item, for list types a child count, and one item per
child. The low bits of a child item tell its form: an odd item is a constant, `010` a local
variable, `0110` a statement without children, and a non-zero multiple of four is the distance
from the parent to a node of the same `Code`. Offsets count bytes and are 32 bits wide.
-/

namespace OneJit

/-- `class Header`. -/
structure Header where
  type : NodeType
  kind : Kind
  op : BitVec 16
  deriving DecidableEq, Repr

namespace Header

/-- `Header{}`. -/
def empty : Header := ⟨.stmt0, .bad, 0⟩

/-- `Header::item`. -/
def item (h : Header) : BitVec 32 :=
  0xE#32 ||| BitVec.ofNat 32 h.type.toNat <<< 4 ||| h.kind.val.setWidth 32 <<< 8 |||
    h.op.setWidth 32 <<< 16

/-- `Header(CodeItem)`. -/
def ofItem (item : BitVec 32) : Header :=
  ⟨NodeType.ofVal (item >>> 4 &&& 0xF).toNat, Kind.ofVal ((item >>> 8).setWidth 8),
    (item >>> 16).setWidth 16⟩

end Header

/-- `class Local`: the element kind byte and 24 bits of identifier. -/
structure Local where
  val : BitVec 32
  deriving DecidableEq, Repr

namespace Local

/-- `Local(Kind, Id)`. -/
def ofKindId (k : Kind) (id : BitVec 32) : Local := ⟨k.val.setWidth 32 ||| id <<< 8⟩

def kind (l : Local) : Kind := Kind.ofVal (l.val.setWidth 8)

def isDirect (l : Local) : Bool := l.val >>> 29 == 0

def direct (l : Local) : BitVec 32 := 0x2#32 ||| l.val <<< 3

/-- `Local::parse_direct_kind`. -/
def parseDirectKind (data : BitVec 32) : Kind := Kind.ofVal ((data >>> 3).setWidth 8)

def indirect (l : Local) : BitVec 32 := l.val >>> 8

end Local

/-- `class Node`. A node points into the one `Code` under consideration or into none. -/
structure Node where
  header : Header
  offOrDir : BitVec 32
  inCode : Bool
  deriving DecidableEq, Repr

/-- `Node{}`. -/
def Node.empty : Node := ⟨.empty, 0, false⟩

/-- `class Code`. `limit` is the number of items for which memory can be allocated. -/
structure Code where
  items : List (BitVec 32)
  good : Bool
  limit : Nat
  deriving DecidableEq, Repr

namespace Code

/-- `Code::length`, in bytes. -/
def length (c : Code) : BitVec 32 := BitVec.ofNat 32 (4 * c.items.length)

/-- `Code::get`: zero when the offset is out of bounds. -/
def get (c : Code) (byteOffset : BitVec 32) : BitVec 32 :=
  c.items.getD (byteOffset.toNat / 4) 0

/-- `Code::add(CodeItems)`. A failed allocation leaves the items alone and is remembered. -/
def add (c : Code) (data : List (BitVec 32)) : Code :=
  if c.good ∧ c.items.length + data.length ≤ c.limit then
    { c with items := c.items ++ data }
  else { c with good := false }

/-- `Code::add_item` and `Code::add_uint32`. -/
def addItem (c : Code) (item : BitVec 32) : Code := c.add [item]

/-- `Code::add_uint64`. -/
def addUint64 (c : Code) (u : BitVec 64) : Code :=
  c.add [u.setWidth 32, (u >>> 32).setWidth 32]

/-- `Code::truncate`. -/
def truncate (c : Code) (lengthBytes : BitVec 32) : Code :=
  { c with items := c.items.take (lengthBytes.toNat / 4) }

/-- `Code::Code()`: room for 64 items and the magic signature. -/
def init (limit : Nat) : Code :=
  if 64 ≤ limit then
    ⟨[Header.item ⟨.const, ⟨.uint8, 2⟩, 0⟩, 0x54494A31], true, limit⟩
  else ⟨[], false, limit⟩

/-- The item that `Code::add(Node, parent_offset)` writes: the distance from the parent for a
node of this code. -/
def childItem (nd : Node) (parentOffset : BitVec 32) : BitVec 32 :=
  if nd.inCode then nd.offOrDir - parentOffset else nd.offOrDir

/-- `Code::add(Nodes, parent_offset)`. -/
def addNodes (c : Code) (parentOffset : BitVec 32) : List Node → Code
  | [] => c
  | nd :: nds =>
    let c' := c.addItem (childItem nd parentOffset)
    if c'.good then addNodes c' parentOffset nds else c'

/-- `Code::add_ranges`. -/
def addRanges (c : Code) (parentOffset : BitVec 32) : List (List Node) → Code
  | [] => c
  | range :: ranges =>
    let c' := c.addNodes parentOffset range
    if c'.good then addRanges c' parentOffset ranges else c'

/-- `Code::add(Kinds)`: every kind wrapped in a direct `Var`. -/
def addKinds (c : Code) : List Kind → Code
  | [] => c
  | k :: ks =>
    let c' := c.addItem (Local.ofKindId k 0).direct
    if c'.good then addKinds c' ks else c'

/-- `Code::add(View<char>)`: whole items, then the rest padded with zeros. -/
def charItems : List (BitVec 8) → List (BitVec 32)
  | a :: b :: c :: d :: chars => (d ++ c ++ b ++ a : BitVec 32) :: charItems chars
  | [a, b, c] => [(0#8 ++ c ++ b ++ a : BitVec 32)]
  | [a, b] => [(0#16 ++ b ++ a : BitVec 32)]
  | [a] => [(0#24 ++ a : BitVec 32)]
  | [] => []

def addChars (c : Code) (chars : List (BitVec 8)) : Code :=
  let whole := chars.length / 4
  let c' := if 4 ≤ chars.length then c.add ((charItems chars).take whole) else c
  if 4 ≤ chars.length ∧ !c'.good then c'
  else if chars.length % 4 = 0 then c'
  else c'.add ((charItems chars).drop whole)

end Code

namespace Node

variable (c : Code)

/-- `Node::get`. -/
def get (nd : Node) (byteOffset : BitVec 32) : BitVec 32 :=
  if nd.inCode then c.get (nd.offOrDir + byteOffset) else 0

/-- `Node::children`. -/
def children (nd : Node) : Nat :=
  if nd.header.type.isList then (nd.get c 4).toNat else nd.header.type.toChildren

/-- The node that a child item of the node at `parent` stands for. -/
def ofItem (parent : BitVec 32) (item : BitVec 32) : Node :=
  if item &&& 1 ≠ 0 then ⟨⟨.const, Imm.directKind item, 0⟩, item, false⟩
  else if item &&& 7 = 2 then ⟨⟨.var, Local.parseDirectKind item, 0⟩, item, false⟩
  else if item &&& 0xF = 6 then ⟨⟨.stmt0, .void, (item >>> 4).setWidth 16⟩, item, false⟩
  else if item ≠ 0 ∧ item &&& 3 = 0 then
    ⟨Header.ofItem (c.get (parent + item)), parent + item, true⟩
  else empty

/-- `Node::child`. The multiplication is done in 64 bits and the sum is passed as 32 bits. -/
def child (nd : Node) (i : BitVec 32) : Node :=
  if nd.children c ≤ i.toNat then empty
  else
    let skip := if nd.header.type.isList then 2 else 1
    ofItem c nd.offOrDir (nd.get c (BitVec.ofNat 32 (4 * (i.toNat + skip))))

end Node

namespace Code

/-- The end of every creation: the new node when all writes succeeded, otherwise the empty node
and the code cut back to where the node started. -/
def finish (c' : Code) (h : Header) (offset : BitVec 32) : Node × Code :=
  if c'.good then (⟨h, offset, true⟩, c') else (.empty, c'.truncate offset)

/-- `Node::create_indirect`. `none`: the header could not be added, and the loop around the
attempt then repeats forever. -/
def createIndirect (c : Code) (h : Header) (children : List Node) : Option (Node × Code) :=
  let n := children.length
  if 2 ^ 32 ≤ n then some (.empty, c)
  else
    let offset := c.length
    let c1 := c.addItem h.item
    if c1.good then
      let c2 := if h.type.isList then c1.addItem (BitVec.ofNat 32 n) else c1
      some (finish (if c2.good then c2.addNodes offset children else c2) h offset)
    else none

/-- `Node::create_indirect_from_ranges`. Too many children for a list type repeat the loop
forever too. -/
def createIndirectFromRanges (c : Code) (h : Header) (nodes : List (List Node)) :
    Option (Node × Code) :=
  let n := if h.type.isList then (nodes.map List.length).sum else 0
  let offset := c.length
  let c1 := c.addItem h.item
  if n < 2 ^ 32 ∧ c1.good then
    let c2 := if h.type.isList then c1.addItem (BitVec.ofNat 32 n) else c1
    some (finish (if c2.good then c2.addRanges offset nodes else c2) h offset)
  else none

/-- `Const::create`. -/
def createConst (c : Code) (v : Value) : Node × Code :=
  let h : Header := ⟨.const, v.kind, 0⟩
  if !v.isValid then (.empty, c)
  else if Imm.directOf v ≠ 0 then (⟨h, Imm.directOf v, false⟩, c)
  else
    let c1 := c.addItem h.item
    finish (if c1.good then
        if v.kind.bitsize = 64 then c1.addUint64 v.bits else c1.addItem (v.bits.setWidth 32)
      else c1) h c.length

/-- `Var::create`. -/
def createVar (c : Code) (l : Local) : Node × Code :=
  let h : Header := ⟨.var, l.kind, 0⟩
  if l.isDirect then (⟨h, l.direct, false⟩, c)
  else
    let c1 := c.addItem h.item
    finish (if c1.good then c1.addItem l.indirect else c1) h c.length

/-- `trivial_hash(uint64_t)`. -/
def trivialHash (val : BitVec 64) : BitVec 16 :=
  let val32 : BitVec 32 := (val ^^^ val >>> 32).setWidth 32
  (val32 ^^^ val32 >>> 16).setWidth 16 ||| 1

/-- `Label::create`. -/
def createLabel (c : Code) (address : BitVec 64) (index : BitVec 16) : Node × Code :=
  let index := if index = 0 ∧ address ≠ 0 then trivialHash address else index
  let h : Header := ⟨.label, .void, index⟩
  let c1 := c.addItem h.item
  finish (if c1.good then c1.addUint64 address else c1) h c.length

/-- `FuncType::create`. -/
def createFuncType (c : Code) (params results : List Kind) : Node × Code :=
  if 0xFFFF < params.length ∨ 0xFFFF < results.length then (.empty, c)
  else
    let h : Header := ⟨.ftype, results.headD .void, BitVec.ofNat 16 results.length⟩
    let c1 := c.addItem h.item
    let c2 := if c1.good then c1.addItem (BitVec.ofNat 32 (params.length + results.length))
      else c1
    let c3 := if c2.good then c2.addKinds results else c2
    finish (if c3.good then c3.addKinds params else c3) h c.length

/-- `Name::create`. -/
def createName (c : Code) (str : List (BitVec 8)) : Node × Code :=
  if 0xFFFF < str.length then (.empty, c)
  else
    let h : Header := ⟨.name, .void, BitVec.ofNat 16 str.length⟩
    let c1 := c.addItem h.item
    finish (if c1.good then c1.addChars str else c1) h c.length

end Code

end OneJit
