import OneJit.Go.Token

/-!
# The constructors of Go types

`NewArray`, `NewChan`, `NewFunc`, `NewMap`, `NewPointer`, `NewSlice` and `NewStruct` with their
caches, and the accessors of the types that they return. A type is the address of its record in
the store; `none` is a panic. The hash and the text of a type, which nothing here reads, are left
out.
-/

namespace OneJit.Go.Types

/-- A pointer to a type. -/
abbrev TypeRef := Nat

/-- `config.Arch`. -/
inductive Arch
  | i386 | amd64 | arm | arm64 | archOther32bit | archOther64bit
  deriving DecidableEq, Repr

namespace Arch

/-- `Bits`. -/
def bits : Arch → Nat
  | i386 | arm | archOther32bit => 32
  | _ => 64

/-- `Bytes`, which is `sizeOfPtr`. -/
def bytes (arch : Arch) : BitVec 64 := BitVec.ofNat 64 (arch.bits / 8)

/-- `MaxSizeBytes`. -/
def maxSizeBytes (arch : Arch) : BitVec 64 := ~~~(BitVec.allOnes 64 <<< arch.bits)

end Arch

/-- The kinds that the constructors set. -/
inductive Kind
  | array | chan | func | map | ptr | slice | struct
  | other (code : Nat)
  deriving DecidableEq, Repr

abbrev Flags := BitVec 16

/-- `ChanDir`. -/
abbrev ChanDir := Flags

def recvDir : ChanDir := 1
def sendDir : ChanDir := 2
def bothDir : ChanDir := recvDir ||| sendDir

def flagComparable : Flags := 4
def flagNotComparable : Flags := 8
def flagComplete : Flags := 16
def flagNeedPadding : Flags := 32
def flagVariadic : Flags := 64

def unknownSize : BitVec 64 := BitVec.allOnes 64
def unknownAlign : BitVec 16 := BitVec.allOnes 16

/-- `Field`. -/
structure Field where
  type : Option TypeRef
  name : Bytes
  pkgPath : Bytes
  tag : Bytes
  offset : BitVec 64
  index : Nat
  embedded : Bool
  deriving DecidableEq

/-- `Field{}`. -/
def Field.zero : Field := ⟨none, [], [], [], 0, 0, false⟩

/-- `extra`, as far as the constructors fill it. -/
structure Extra where
  n1 : BitVec 32
  n2 : BitVec 32
  types : List TypeRef
  fields : List Field
  deriving DecidableEq

/-- `extra{}`. -/
def Extra.zero : Extra := ⟨0, 0, [], []⟩

/-- `Complete`. Its field `extra` is either nil or points to the `extra` of the same type. -/
structure Complete where
  size : BitVec 64
  align : BitVec 16
  flags : Flags
  kind : Kind
  elem : Option TypeRef
  hasExtra : Bool
  ptrTo : Option TypeRef
  deriving DecidableEq

/-- The record of a type: `rtype` and `extra`. `Chan`, `Pointer` and `Slice` have no `extra`. -/
structure Record where
  rtype : Complete
  extra : Extra
  deriving DecidableEq

/-- `relem.ptrTo = t`. -/
def Record.setPtrTo (r : Record) (t : TypeRef) : Record :=
  { r with rtype := { r.rtype with ptrTo := some t } }

/-- `arrayKey`. -/
structure ArrayKey where
  elem : TypeRef
  len : BitVec 64
  deriving DecidableEq

/-- `chanKey`. -/
structure ChanKey where
  dir : ChanDir
  elem : TypeRef
  deriving DecidableEq

/-- `mapKey`. -/
structure MapKey where
  key : TypeRef
  elem : TypeRef
  deriving DecidableEq

/-- `funcKey0`, and `funcKey2` to `funcKey64k` with their numbers of places. -/
inductive FuncKey
  | funcKey0
  | funcKey (n1 n2 : BitVec 16) (inout : List (Option TypeRef))
  deriving DecidableEq

/-- `structKey0` to `structKey64k`. -/
abbrev StructKey := List Field

/-- The types made so far and the caches. -/
structure Store where
  heap : List Record
  arrayMap : List (ArrayKey × TypeRef)
  chanMap : List (ChanKey × TypeRef)
  funcMap : List (FuncKey × TypeRef)
  mapMap : List (MapKey × TypeRef)
  sliceMap : List (TypeRef × TypeRef)
  structMap : List (StructKey × TypeRef)

namespace Store

/-- `common`. -/
def common (s : Store) (t : TypeRef) : Option Complete := (s.heap[t]?).map Record.rtype

/-! ## Arrays -/

/-- `computeArraySize`. -/
def computeArraySize (arch : Arch) (elem : Complete) (len : BitVec 64) : Option (BitVec 64) :=
  let elemsize := elem.size
  if elemsize = unknownSize then some elemsize
  else if elemsize ≠ 0 ∧ arch.maxSizeBytes / elemsize < len then none
  else some (len * elemsize)

/-- `computeArrayAlign`. -/
def computeArrayAlign (elem : Complete) (len : BitVec 64) : BitVec 16 :=
  if len = 0 then 0 else elem.align

/-- `computeArrayFlags`. -/
def computeArrayFlags (elem : Complete) (len : BitVec 64) : Flags :=
  let flag := elem.flags &&& (flagComplete ||| flagComparable ||| flagNotComparable)
  if len = 0 ∨ elem.size = 0 then flag ||| flagNeedPadding else flag

/-- `NewArray`. The length is not stored. -/
def newArray (arch : Arch) (elem : TypeRef) (len : BitVec 64) (s : Store) :
    Option (TypeRef × Store) :=
  if arch.maxSizeBytes < len then none
  else
    let key : ArrayKey := ⟨elem, len⟩
    match s.arrayMap.lookup key with
    | some t => some (t, s)
    | none => do
      let relem ← s.common elem
      let size ← computeArraySize arch relem len
      let rtype : Complete :=
        { size := size
          align := computeArrayAlign relem len
          flags := computeArrayFlags relem len
          kind := .array
          elem := some elem
          hasExtra := false
          ptrTo := none }
      let t := s.heap.length
      some (t, { s with
        heap := s.heap ++ [⟨rtype, .zero⟩]
        arrayMap := (key, t) :: s.arrayMap })

/-! ## Channels -/

/-- `NewChan`. -/
def newChan (arch : Arch) (dir : ChanDir) (elem : TypeRef) (s : Store) :
    Option (TypeRef × Store) :=
  let dir := dir &&& bothDir
  let key : ChanKey := ⟨dir, elem⟩
  match s.chanMap.lookup key with
  | some t => some (t, s)
  | none => do
    let relem ← s.common elem
    let size := arch.bytes
    let rtype : Complete :=
      { size := size
        align := size.setWidth 16
        flags := dir ||| (relem.flags &&& flagComplete) ||| flagNotComparable
        kind := .chan
        elem := some elem
        hasExtra := false
        ptrTo := none }
    let t := s.heap.length
    some (t, { s with
      heap := s.heap ++ [⟨rtype, .zero⟩]
      chanMap := (key, t) :: s.chanMap })

/-! ## Functions -/

/-- The number of places of the key for `n` parameters and results. -/
def funcPlaces (n : Nat) : Nat :=
  if n ≤ 2 then 2
  else if n ≤ 4 then 4
  else if n ≤ 16 then 16
  else if n ≤ 64 then 64
  else if n ≤ 256 then 256
  else if n ≤ 1024 then 1024
  else if n ≤ 4096 then 4096
  else if n ≤ 16384 then 16384
  else 65536

/-- `makeFuncKey`: the key, and the copies of the parameters and results. -/
def makeFuncKey (ins outs : List TypeRef) (variadic : Bool) : Option (FuncKey × List TypeRef) :=
  let n1 := ins.length
  let n2 := outs.length
  let n := n1 + n2
  if 65536 ≤ n1 ∨ 65536 / 2 ≤ n2 ∨ 65536 < n then none
  else
    let n2 := if variadic then n2 ||| 65536 / 2 else n2
    if n = 0 then some (.funcKey0, [])
    else
      let types := ins ++ outs
      some (.funcKey (BitVec.ofNat 16 n1) (BitVec.ofNat 16 n2)
        (types.map some ++ List.replicate (funcPlaces n - n) none), types)

/-- `flagsAnd`. -/
def flagsAnd (s : Store) : List TypeRef → Option Flags
  | [] => some (BitVec.allOnes 16)
  | t :: list => do
    let c ← s.common t
    let ret ← s.flagsAnd list
    some (c.flags &&& ret)

/-- `NewFunc`. -/
def newFunc (arch : Arch) (ins outs : List TypeRef) (variadic : Bool) (s : Store) :
    Option (TypeRef × Store) := do
  let (key, types) ← makeFuncKey ins outs variadic
  match s.funcMap.lookup key with
  | some t => some (t, s)
  | none => do
    let flagsIn ← s.flagsAnd ins
    let flagsOut ← s.flagsAnd outs
    let flag := flagsIn &&& flagsOut &&& flagComplete
    let flag := if variadic then flag ||| flagVariadic else flag
    let size := arch.bytes
    let rtype : Complete :=
      { size := size
        align := size.setWidth 16
        flags := flag ||| flagNotComparable
        kind := .func
        elem := none
        hasExtra := true
        ptrTo := none }
    let extra : Extra :=
      { n1 := BitVec.ofNat 32 ins.length
        n2 := BitVec.ofNat 32 outs.length
        types := types
        fields := [] }
    let t := s.heap.length
    some (t, { s with
      heap := s.heap ++ [⟨rtype, extra⟩]
      funcMap := (key, t) :: s.funcMap })

/-! ## Maps -/

/-- `NewMap`. -/
def newMap (arch : Arch) (key elem : TypeRef) (s : Store) : Option (TypeRef × Store) := do
  let rkey ← s.common key
  if rkey.flags &&& flagNotComparable ≠ 0 then none
  else
    let k : MapKey := ⟨key, elem⟩
    match s.mapMap.lookup k with
    | some t => some (t, s)
    | none => do
      let relem ← s.common elem
      let size := arch.bytes
      let rtype : Complete :=
        { size := size
          align := size.setWidth 16
          flags := (rkey.flags &&& relem.flags &&& flagComplete) ||| flagNotComparable
          kind := .map
          elem := some elem
          hasExtra := true
          ptrTo := none }
      let t := s.heap.length
      some (t, { s with
        heap := s.heap ++ [⟨rtype, { Extra.zero with types := [key] }⟩]
        mapMap := (k, t) :: s.mapMap })

/-! ## Pointers -/

/-- `NewPointer`, whose cache is in the element type. -/
def newPointer (arch : Arch) (elem : TypeRef) (s : Store) : Option (TypeRef × Store) := do
  let relem ← s.common elem
  match relem.ptrTo with
  | some t => some (t, s)
  | none =>
    let size := arch.bytes
    let rtype : Complete :=
      { size := size
        align := size.setWidth 16
        flags := (relem.flags &&& flagComplete) ||| flagComparable
        kind := .ptr
        elem := some elem
        hasExtra := false
        ptrTo := none }
    let t := s.heap.length
    some (t, { s with heap := s.heap.modify elem (Record.setPtrTo · t) ++ [⟨rtype, .zero⟩] })

/-! ## Slices -/

/-- `NewSlice`. -/
def newSlice (arch : Arch) (elem : TypeRef) (s : Store) : Option (TypeRef × Store) :=
  match s.sliceMap.lookup elem with
  | some t => some (t, s)
  | none => do
    let relem ← s.common elem
    let size := arch.bytes
    let rtype : Complete :=
      { size := 3 * size
        align := size.setWidth 16
        flags := (relem.flags &&& flagComplete) ||| flagNotComparable
        kind := .slice
        elem := some elem
        hasExtra := false
        ptrTo := none }
    let t := s.heap.length
    some (t, { s with
      heap := s.heap ++ [⟨rtype, .zero⟩]
      sliceMap := (elem, t) :: s.sliceMap })

/-! ## Structs -/

/-- The number of places of the key for `n` fields. -/
def structPlaces (n : Nat) : Nat :=
  if n = 0 then 0
  else if n ≤ 2 then 2
  else if n ≤ 4 then 4
  else if n ≤ 16 then 16
  else if n ≤ 256 then 256
  else if n ≤ 1024 then 1024
  else if n ≤ 4096 then 4096
  else if n ≤ 16384 then 16384
  else 65536

/-- `fillStructKey`: the copies of the fields. -/
def fillStructKey (fields : List Field) : List Field :=
  fields.mapIdx fun i field => { field with offset := unknownSize, index := i }

/-- `makeStructKey`. -/
def makeStructKey (fields : List Field) : Option (StructKey × List Field) :=
  let n := fields.length
  if 65536 < n then none
  else
    let fieldscopy := fillStructKey fields
    some (fieldscopy ++ List.replicate (structPlaces n - n) Field.zero, fieldscopy)

/-- The record of the type of a field. -/
def fieldCommon (s : Store) (field : Field) : Option Complete := field.type.bind s.common

/-- The loop of `computeStructSize`. -/
def computeStructSize : List Complete → BitVec 64 → BitVec 64
  | [], size => size
  | c :: cs, size => if c.size = unknownSize then c.size else computeStructSize cs (size + c.size)

/-- The loop of `computeStructAlign`. -/
def computeStructAlign : List Complete → BitVec 16 → BitVec 16
  | [], align => align
  | c :: cs, align =>
    if c.align = unknownAlign then c.align
    else computeStructAlign cs (if align < c.align then c.align else align)

/-- `computeStructFlags`. -/
def computeStructFlags (cs : List Complete) : Flags :=
  let flagsAnd := cs.foldl (fun f c => f &&& c.flags) (BitVec.allOnes 16)
  let flagsOr := cs.foldl (fun f c => f ||| c.flags) 0
  let flag := flagsAnd &&& flagComplete
  let flag :=
    if flagsOr &&& flagNotComparable ≠ 0 then flag ||| flagNotComparable
    else if flagsAnd &&& flagComparable ≠ 0 then flag ||| flagComparable
    else flag
  match cs.getLast? with
  | none => flag ||| flagNeedPadding
  | some c => if c.flags &&& flagNeedPadding ≠ 0 then flag ||| flagNeedPadding else flag

/-- The loop of `updateFieldOffsets`. -/
def fieldOffsets : BitVec 64 → List (Field × Complete) → List Field
  | _, [] => []
  | offset, (field, ftype) :: rest =>
    let falign := ftype.align
    let offset :=
      if 1 < falign ∧ offset.setWidth 16 &&& (falign - 1) ≠ 0 then
        (offset ||| (falign - 1).setWidth 64) + 1
      else offset
    { field with offset := offset } :: fieldOffsets (offset + ftype.size) rest

/-- `updateFieldOffsets`. -/
def updateFieldOffsets (size : BitVec 64) (align : BitVec 16) (fields : List Field)
    (cs : List Complete) : List Field :=
  if size = unknownSize ∨ align = unknownAlign then fields
  else fieldOffsets 0 (fields.zip cs)

/-- `NewStruct`. -/
def newStruct (fields : List Field) (s : Store) : Option (TypeRef × Store) := do
  let (key, fields) ← makeStructKey fields
  match s.structMap.lookup key with
  | some t => some (t, s)
  | none => do
    let cs ← fields.mapM s.fieldCommon
    let size := computeStructSize cs 0
    let align := computeStructAlign cs 0
    let rtype : Complete :=
      { size := size
        align := align
        flags := computeStructFlags cs
        kind := .struct
        elem := none
        hasExtra := true
        ptrTo := none }
    let t := s.heap.length
    some (t, { s with
      heap := s.heap ++
        [⟨rtype, { Extra.zero with fields := updateFieldOffsets size align fields cs }⟩]
      structMap := (key, t) :: s.structMap })

end Store

/-! ## Accessors -/

namespace Extra

/-- The length of an array. -/
def len (x : Extra) : BitVec 64 := x.n1.setWidth 64 ||| x.n2.setWidth 64 <<< 32

/-- `in`, a slice of the types. -/
def ins (x : Extra) : Option (List TypeRef) :=
  if x.n1.toNat ≤ x.types.length then some (x.types.take x.n1.toNat) else none

/-- `out`, the rest of the types. -/
def outs (x : Extra) : Option (List TypeRef) :=
  if x.n1.toNat ≤ x.types.length then some (x.types.drop x.n1.toNat) else none

end Extra

namespace Record

/-! The accessors of the specific types. -/

/-- `Elem` of `*Array`, `*Chan`, `*Map`, `*Pointer` and `*Slice`. -/
def elem (r : Record) : Option TypeRef := r.rtype.elem

/-- `(*Array).Len`. -/
def len (r : Record) : BitVec 64 := r.extra.len

/-- `(*Chan).Dir`. -/
def dir (r : Record) : ChanDir := r.rtype.flags &&& bothDir

/-- `(*Func).IsVariadic`. -/
def isVariadic (r : Record) : Bool := r.rtype.flags &&& flagVariadic != 0

def numIn (r : Record) : Nat := r.extra.n1.toNat
def numOut (r : Record) : Nat := r.extra.n2.toNat
def funcIn (r : Record) (i : Nat) : Option TypeRef := r.extra.ins.bind (·[i]?)
def funcOut (r : Record) (i : Nat) : Option TypeRef := r.extra.outs.bind (·[i]?)

/-- `(*Map).Key`. -/
def key (r : Record) : Option TypeRef := r.extra.types[0]?

/-- `(*Struct).NumField`. -/
def numField (r : Record) : Nat := r.extra.fields.length

/-- `(*Struct).Field`. -/
def field (r : Record) (i : Nat) : Option Field := r.extra.fields[i]?

/-! The accessors of `*Complete`, which panic for other kinds. -/

/-- The field `extra` of `Complete`, unless it is nil. -/
def rextra (r : Record) : Option Extra := if r.rtype.hasExtra then some r.extra else none

/-- `(*Complete).Elem`. -/
def completeElem (r : Record) : Option TypeRef :=
  match r.rtype.kind with
  | .array | .chan | .map | .ptr | .slice => r.rtype.elem
  | _ => none

/-- `(*Complete).Len`. -/
def completeLen (r : Record) : Option (BitVec 64) :=
  if r.rtype.kind = .array then r.rextra.map Extra.len else none

/-- `(*Complete).ChanDir`. -/
def completeChanDir (r : Record) : Option ChanDir :=
  if r.rtype.kind = .chan then some (r.rtype.flags &&& bothDir) else none

/-- `(*Complete).IsVariadic`. -/
def completeIsVariadic (r : Record) : Option Bool :=
  if r.rtype.kind = .func then some (r.rtype.flags &&& flagVariadic != 0) else none

/-- `(*Complete).NumIn`. -/
def completeNumIn (r : Record) : Option Nat :=
  if r.rtype.kind = .func then r.rextra.map (·.n1.toNat) else none

/-- `(*Complete).NumOut`. -/
def completeNumOut (r : Record) : Option Nat :=
  if r.rtype.kind = .func then r.rextra.map (·.n2.toNat) else none

/-- `(*Complete).In`. -/
def completeIn (r : Record) (i : Nat) : Option TypeRef :=
  if r.rtype.kind = .func then do
    let extra ← r.rextra
    let types ← extra.ins
    types[i]?
  else none

/-- `(*Complete).Out`. -/
def completeOut (r : Record) (i : Nat) : Option TypeRef :=
  if r.rtype.kind = .func then do
    let extra ← r.rextra
    let types ← extra.outs
    if extra.n2.toNat ≤ types.length then (types.take extra.n2.toNat)[i]? else none
  else none

/-- `(*Complete).Key`. -/
def completeKey (r : Record) : Option TypeRef :=
  if r.rtype.kind = .map then r.rextra.bind (·.types[0]?) else none

/-- `(*Complete).NumField`. -/
def completeNumField (r : Record) : Option Nat :=
  if r.rtype.kind = .struct then r.rextra.map (·.fields.length) else none

/-- `(*Complete).Field`. -/
def completeField (r : Record) (i : Nat) : Option Field :=
  if r.rtype.kind = .struct then r.rextra.bind (·.fields[i]?) else none

end Record

end OneJit.Go.Types
