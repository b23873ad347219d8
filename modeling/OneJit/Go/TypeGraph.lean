import OneJit.Go.Interface
import OneJit.Go.TypesCanonical

/-!
# The completion of types

`CompleteTypes` collects the incomplete types on which some types depend, completes one type after
another as long as there is one that has no strong dependency left, and then marks all of them as
complete. `none` is a panic, or a fuel that does not suffice. The hashes are left out.
-/

namespace OneJit.Go.Types

/-! ## The graph -/

/-- `typedeps`. -/
structure TypeDeps where
  strong : List TypeRef
  weak : List TypeRef
  deriving DecidableEq

/-- `typegraph`: the types, and those from which each depends. -/
abbrev TypeGraph := List (TypeRef × TypeDeps)

namespace TypeGraph

/-- The types of the graph. -/
def types (g : TypeGraph) : List TypeRef := g.map Prod.fst

/-- `g[t]`, or no dependencies. -/
def deps (g : TypeGraph) (t : TypeRef) : TypeDeps := (g.lookup t).getD ⟨[], []⟩

/-- `g[t] = deps`. -/
def set (g : TypeGraph) (t : TypeRef) (deps : TypeDeps) : TypeGraph :=
  if t ∈ g.types then g.map fun e => if e.1 = t then (t, deps) else e else (t, deps) :: g

/-- `delete(g, t)`. -/
def delete (g : TypeGraph) (t : TypeRef) : TypeGraph := g.filter fun e => e.1 ≠ t

/-- `del`. -/
def del (g : TypeGraph) (t tdep : TypeRef) (strong : Bool) : TypeGraph :=
  if t ∈ g.types then
    g.set t
      ⟨if strong then (g.deps t).strong.filter (· ≠ tdep) else (g.deps t).strong,
        (g.deps t).weak.filter (· ≠ tdep)⟩
  else g

end TypeGraph

/-- A dependency that is strong for all but unnamed types of these kinds. -/
def weakKind : Kind → Bool
  | .chan | .func | .map | .ptr | .slice => true
  | k => k = interfaceKind

namespace Universe

/-- `typegraph.add`. -/
def addDep (s : Universe) (g : TypeGraph) (t tdep : TypeRef) (strong : Bool) : TypeGraph :=
  let deps := g.deps t
  let weak := (s.store.common tdep).any (fun c => weakKind c.kind) && (s.named tdep).isNone
  if strong && !weak then g.set t ⟨deps.strong.insert tdep, deps.weak.filter (· ≠ tdep)⟩
  else if tdep ∈ deps.strong then g
  else g.set t { deps with weak := deps.weak.insert tdep }

/-- The dependencies that `addTypeContent` adds, and whether it adds them as strong ones. It panics
for a named type without an underlying type. -/
def content (s : Universe) (t : TypeRef) : Option (List (TypeRef × Bool)) :=
  match s.named t with
  | some n => n.underlying.map fun u => [(u, true)]
  | none => (s.store.heap[t]?).map fun r =>
    r.rtype.elem.toList.map (·, decide (r.rtype.kind = .array)) ++
      if r.rtype.hasExtra then
        r.extra.types.map (·, decide (r.rtype.kind = interfaceKind)) ++
          (r.extra.fields.filterMap Field.type).map (·, true) ++
          if r.rtype.kind = interfaceKind then
            (((s.interfaces t).getD []).filterMap Method.type).map (·, false)
          else []
      else []

/-- `addType`: what it adds to the graph. -/
def addType (s : Universe) : Nat → TypeRef → TypeGraph → Option TypeGraph
  | 0, _, _ => none
  | fuel + 1, t, g =>
    if s.isComplete t then some g
    else if t ∈ g.types then some g
    else (s.content t).bind fun ds =>
      ds.foldlM (fun g d => (s.addType fuel d.1 g).map fun g =>
        if s.isComplete d.1 then g else s.addDep g t d.1 d.2) ((t, ⟨[], []⟩) :: g)

/-- `addTypes`. -/
def addTypes (s : Universe) (fuel : Nat) (ts : List TypeRef) : Option TypeGraph :=
  ts.foldlM (fun g t => s.addType fuel t g) []

/-- `invert`. -/
def invert (s : Universe) (g : TypeGraph) : TypeGraph :=
  g.foldl (fun inv e =>
    e.2.weak.foldl (fun inv tdep => s.addDep inv tdep e.1 false)
      (e.2.strong.foldl (fun inv tdep => s.addDep inv tdep e.1 true) inv)) []

end Universe

/-- `typegraph2`. -/
structure TypeGraph2 where
  fwd : TypeGraph
  inv : TypeGraph
  completed : List TypeRef

/-- `updateDeps`. -/
def TypeGraph2.updateDeps (g : TypeGraph2) (t : TypeRef) : TypeGraph2 :=
  let inv := (g.fwd.deps t).strong.foldl (fun inv tdep => inv.del tdep t true) g.inv
  let inv := (g.fwd.deps t).weak.foldl (fun inv tdep => inv.del tdep t false) inv
  let fwd := (inv.deps t).strong.foldl (fun fwd tdep => fwd.del tdep t true) g.fwd
  let fwd := (inv.deps t).weak.foldl (fun fwd tdep => fwd.del tdep t false) fwd
  ⟨fwd.delete t, inv.delete t, g.completed ++ [t]⟩

/-! ## One type -/

namespace Universe

/-- The record of a type is changed. -/
def modify (s : Universe) (t : TypeRef) (f : Record → Record) : Universe :=
  { s with store := { s.store with heap := s.store.heap.modify t f } }

/-- `(*Array).complete`. -/
def completeArray (arch : Arch) (t : TypeRef) (s : Universe) : Option Universe :=
  if s.isComplete t then some s
  else do
    let r ← s.store.heap[t]?
    let elem ← r.elem.bind s.store.common
    let size ← Store.computeArraySize arch elem r.len
    some (s.modify t fun r => { r with
      rtype := { r.rtype with
        size := size
        align := Store.computeArrayAlign elem r.len
        flags := Store.computeArrayFlags elem r.len } })

/-- The fields of a struct are changed in place: the named types of which it is the underlying type
have the same slice. -/
def setFields (s : Universe) (t : TypeRef) (fields : List Field) : Universe :=
  { s with
    store := { s.store with
      heap := s.store.heap.mapIdx fun i r =>
        if i = t ∨ s.next i = some t then { r with extra := { r.extra with fields := fields } }
        else r } }

/-- `(*Struct).complete`. -/
def completeStruct (t : TypeRef) (s : Universe) : Option Universe :=
  if s.isComplete t then some s
  else do
    let r ← s.store.heap[t]?
    let cs ← r.extra.fields.mapM s.store.fieldCommon
    let size := if r.rtype.size = unknownSize then Store.computeStructSize cs 0 else r.rtype.size
    let align :=
      if r.rtype.align = unknownAlign then Store.computeStructAlign cs 0 else r.rtype.align
    let s := s.modify t fun r => { r with
      rtype := { r.rtype with size := size, align := align, flags := Store.computeStructFlags cs } }
    some (s.setFields t (Store.updateFieldOffsets size align r.extra.fields cs))

/-- `complete`, which does nothing for the other types. -/
def complete (arch : Arch) (fuel : Nat) (t : TypeRef) (s : Universe) : Option Universe :=
  match s.named t with
  | some _ =>
    match s.completeNamed fuel t with
    | some (.ok (), s) => some s
    | _ => none
  | none =>
    match (s.store.common t).map Complete.kind with
    | some .array => s.completeArray arch t
    | some .struct => s.completeStruct t
    | _ => some s

/-- `checkCompleteType`. -/
def checkCompleteType (s : Universe) (t : TypeRef) : Bool :=
  match s.store.heap[t]? with
  | none => false
  | some r =>
    let isComparable := r.rtype.flags &&& flagComparable != 0
    let isNotComparable := r.rtype.flags &&& flagNotComparable != 0
    isComparable != isNotComparable &&
      (r.rtype.kind ≠ .map ||
        ((r.extra.types[0]?).bind s.store.common).any fun c =>
          c.flags &&& (flagComparable ||| flagNotComparable) == flagComparable)

/-- `flags |= flagComplete`. -/
def mark (s : Universe) (t : TypeRef) : Universe :=
  s.modify t fun r => { r with rtype := { r.rtype with flags := r.rtype.flags ||| flagComplete } }

/-- The checks and marks at the end. -/
def finish : List TypeRef → Universe → Option Universe
  | [], s => some s
  | t :: ts, s => if s.checkCompleteType t then finish ts (s.mark t) else none

end Universe

/-! ## All types -/

/-- The loop of `typegraph2.complete`. Any type without strong dependencies may be picked; the runs
that `Picks` describes are those where it holds of every pick. -/
inductive Completes (arch : Arch) (Picks : Universe → TypeRef → Prop) :
    Universe → TypeGraph2 → Universe → TypeGraph2 → Prop
  | done (s : Universe) (g : TypeGraph2) (h : g.fwd = []) : Completes arch Picks s g s g
  | pick {s s' s'' : Universe} {g g' : TypeGraph2} (fuel : Nat) (t : TypeRef) (deps : TypeDeps)
      (hmem : (t, deps) ∈ g.fwd) (hdeps : deps.strong = []) (hpick : Picks s t)
      (hcomplete : s.complete arch fuel t = some s')
      (hrest : Completes arch Picks s' (g.updateDeps t) s'' g') : Completes arch Picks s g s'' g'

/-- `CompleteTypes`, when it does not panic. -/
inductive CompleteTypes (arch : Arch) (Picks : Universe → TypeRef → Prop) (ts : List TypeRef)
    (s : Universe) : Universe → Prop
  | complete (h : ts.all s.isComplete = true) : CompleteTypes arch Picks ts s s
  | graph {s' s'' : Universe} {fwd : TypeGraph} {g : TypeGraph2} (fuel : Nat)
      (h : ts.all s.isComplete = false) (hadd : s.addTypes fuel ts = some fwd)
      (hrun : Completes arch Picks s ⟨fwd, s.invert fwd, []⟩ s' g)
      (hfinish : s'.finish g.completed = some s'') : CompleteTypes arch Picks ts s s''

/-- The types that `CompleteTypes` reaches from those that it is given. -/
inductive Needs (s : Universe) (ts : List TypeRef) : TypeRef → Prop
  | given {t : TypeRef} (h : t ∈ ts) : Needs s ts t
  | dep {t : TypeRef} {ds : List (TypeRef × Bool)} {d : TypeRef × Bool} (h : Needs s ts t)
    (hc : s.isComplete t = false) (hds : s.content t = some ds) (hd : d ∈ ds) : Needs s ts d.1

/-! ## Runs -/

/-- A call that makes, changes or completes types. -/
inductive Action
  | newNamed (name pkgPath : Bytes)
  | setUnderlying (t : TypeRef) (u : Option TypeRef)
  | addMethod (t : TypeRef) (m : Method)
  | make (c : Call)
  | newInterface (embedded : List TypeRef) (direct : List Method)
  | completeTypes (ts : List TypeRef)

/-- What a call does, when it does not panic. `SetUnderlying` panics without effect. -/
inductive Takes (arch : Arch) (Picks : Universe → TypeRef → Prop) (s : Universe) :
    Action → Universe → Prop
  | newNamed (name pkgPath : Bytes) :
    Takes arch Picks s (.newNamed name pkgPath) (s.newNamed name pkgPath).2
  | setUnderlying {fuel : Nat} {t : TypeRef} {u : Option TypeRef} {r : Except Panic Unit}
    {s' : Universe} (h : s.setUnderlying fuel t u = some (r, s')) :
    Takes arch Picks s (.setUnderlying t u) s'
  | addMethod {t : TypeRef} {m : Method} {s' : Universe} (h : s.addMethod t m = some s') :
    Takes arch Picks s (.addMethod t m) s'
  | make {c : Call} {t : TypeRef} {store : Store} (h : c.exec arch s.store = some (t, store)) :
    Takes arch Picks s (.make c) { s with store := store }
  | newInterface {embedded : List TypeRef} {direct : List Method} {t : TypeRef} {s' : Universe}
    (h : s.newInterface arch embedded direct = some (t, s')) :
    Takes arch Picks s (.newInterface embedded direct) s'
  | completeTypes {ts : List TypeRef} {s' : Universe} (h : CompleteTypes arch Picks ts s s') :
    Takes arch Picks s (.completeTypes ts) s'

/-- The types at the start, which are not named and complete. -/
structure Basic (s : Universe) : Prop where
  named : ∀ t, s.named t = none
  interfaces : ∀ t, s.interfaces t = none
  interfaceMap : s.interfaceMap = []
  caches : s.store = ⟨s.store.heap, [], [], [], [], [], []⟩
  extra : ∀ r ∈ s.store.heap, r.rtype.hasExtra = false ∧ r.extra = .zero
  elem : ∀ r ∈ s.store.heap, r.rtype.elem = none ∧ r.rtype.ptrTo = none
  complete : ∀ r ∈ s.store.heap, r.rtype.flags &&& flagComplete ≠ 0
  kind : ∀ r ∈ s.store.heap, ∃ code, r.rtype.kind = .other code ∧ r.rtype.kind ≠ interfaceKind

/-- The types that calls lead to, each of which meets a condition on the types before it. -/
inductive Built (arch : Arch) (Meets : Universe → Action → Prop)
    (Picks : Universe → TypeRef → Prop) : Universe → Prop
  | start {s : Universe} (h : Basic s) : Built arch Meets Picks s
  | call {s s' : Universe} {a : Action} (h : Built arch Meets Picks s) (hmeets : Meets s a)
    (ht : Takes arch Picks s a s') : Built arch Meets Picks s'

end OneJit.Go.Types
