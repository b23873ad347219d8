import OneJit.Go.Objects
import OneJit.Lib.MapOrder

/-!
# The dependency loop of the resolver

`Resolver.declareGlobals` declares the objects of the package block, each after what it depends on.
Where all objects that are left have dependencies, it declares a set of types at once.
-/

namespace OneJit.Go

/-- `ObjectSet`, without repeated objects. -/
abbrev ObjectSet := List Object

/-- `delete`. -/
def ObjectSet.delete (set : ObjectSet) (obj : Object) : ObjectSet := set.filter (· != obj)

/-- `ObjectGraph`. An object that is not in the map has no objects. -/
abbrev ObjectGraph := Object → ObjectSet

/-- `Link`. -/
def ObjectGraph.link (g : ObjectGraph) (from' tgt : Object) : ObjectGraph :=
  fun obj => if obj = from' then (g obj).insert tgt else g obj

/-- A call that declares objects. -/
inductive DeclareCall
  | declareObj (obj : Object)
  | declareObjTypeCycle (set : ObjectSet)
  deriving DecidableEq, Repr

/-- The objects that a call declares. -/
def DeclareCall.objs : DeclareCall → List Object
  | declareObj obj => [obj]
  | declareObjTypeCycle set => set

/-- `Resolver`, as the dependency loop uses it, with the calls that it has made. -/
structure Resolver where
  named : ObjectMap
  depfwd : ObjectGraph
  depinv : ObjectGraph
  calls : List DeclareCall
  errs : List String

namespace Resolver

/-- `Init`: no dependencies are known. -/
def init (named : ObjectMap) : Resolver where
  named := named
  depfwd _ := []
  depinv _ := []
  calls := []
  errs := []

/-- `deps`. -/
def deps (r : Resolver) (fromlist : List Object) (tgt : Object) : Resolver :=
  if fromlist = [] then r
  else if fromlist = [tgt] then r
  else fromlist.foldl (fun r obj =>
    { r with depfwd := r.depfwd.link obj tgt, depinv := r.depinv.link tgt obj }) r

/-- `declareObj`, as far as the loop is concerned. -/
def declareObj (r : Resolver) (obj : Object) : Resolver :=
  { r with calls := r.calls ++ [.declareObj obj] }

/-- `declareObjTypeCycle`, as far as the loop is concerned. -/
def declareObjTypeCycle (r : Resolver) (set : ObjectSet) : Resolver :=
  { r with calls := r.calls ++ [.declareObjTypeCycle set] }

/-- `error` with no node. -/
def error (r : Resolver) (msg : String) : Resolver := { r with errs := r.errs ++ [msg] }

variable (order : MapOrder Object)

/-- `pickObjectWithoutDeps`. -/
def pickObjectWithoutDeps (r : Resolver) (m : ObjectMap) : Option Object :=
  (order.range m).find? fun obj => (r.depfwd obj).isEmpty

/-- `removeDeps`. -/
def removeDeps (r : Resolver) (obj : Object) : Resolver :=
  { r with
    depfwd := (order.range (r.depinv obj)).foldl (fun depfwd fwd =>
      fun o => if o = fwd then ObjectSet.delete (depfwd o) obj else depfwd o) r.depfwd
    depinv := fun o => if o = obj then [] else r.depinv o }

/-- `removeDepsSet`, over the objects as they are iterated. -/
def removeDepsSet (r : Resolver) : List Object → Resolver
  | [] => r
  | obj :: objs => (r.removeDeps (order.part objs.length) obj).removeDepsSet objs

/-- `pick`. -/
def pick (set : ObjectSet) : Option (Object × ObjectSet) :=
  match order.range set with
  | [] => none
  | obj :: _ => some (obj, set.delete obj)

/-- The loop over the dependencies of an object: those that are new go to the queue. -/
def visitDeps (filter : Object → Bool) (set : ObjectSet) : List Object → ObjectSet →
    Option ObjectSet
  | [], queue => some queue
  | dep :: deps, queue =>
    if !filter dep then none
    else visitDeps filter set deps (if dep ∈ set then queue else queue.insert dep)

/-- The outer loop of `getTransitiveDeps`. The first `none` says that the fuel was not enough. -/
def transitiveDepsLoop (order : MapOrder Object) (r : Resolver) (filter : Object → Bool) :
    Nat → ObjectSet → ObjectSet → Object → Option (Option ObjectSet)
  | 0, _, _, _ => none
  | fuel + 1, set, queue, obj =>
    let set := set.insert obj
    match visitDeps filter set ((order.part (2 * fuel)).range (r.depfwd obj)) queue with
    | none => some none
    | some queue =>
      match pick (order.part (2 * fuel + 1)) queue with
      | none => some (some set)
      | some (obj, queue) => transitiveDepsLoop order r filter fuel set queue obj

/-- `getTransitiveDeps`. -/
def getTransitiveDeps (r : Resolver) (fuel : Nat) (obj : Object) (filter : Object → Bool) :
    Option (Option ObjectSet) :=
  if !filter obj then some none else transitiveDepsLoop order r filter fuel [] [] obj

/-- `findObjCycle`, over the objects as they are iterated. -/
def findObjCycle (r : Resolver) (fuel : Nat) (filter : Object → Bool) :
    List Object → Option (Option ObjectSet)
  | [] => some none
  | obj :: objs =>
    match r.getTransitiveDeps (order.part objs.length) fuel obj filter with
    | none => none
    | some (some set) => some (some set)
    | some none => r.findObjCycle fuel filter objs

/-- The loop of `declareGlobals`. The result is `none` when the fuel is not enough. -/
def declareLoop (order : MapOrder Object) : Nat → ObjectMap → Resolver → Option Resolver
  | 0, m, r => if m.isEmpty then some r else none
  | fuel + 1, m, r =>
    if m.isEmpty then some r
    else
      let now := order.part fuel
      match r.pickObjectWithoutDeps (now.part 0) m with
      | some obj =>
        declareLoop order fuel (m.delete obj) ((r.declareObj obj).removeDeps (now.part 1) obj)
      | none =>
        match r.findObjCycle (now.part 2) (fuel + 1) Object.isTypeObj ((now.part 3).range m) with
        | none => none
        | some none => some (r.error "invalid recursive declaration")
        | some (some set) =>
          declareLoop order fuel (m.deleteSet ((now.part 6).range set))
            ((r.declareObjTypeCycle set).removeDepsSet (now.part 4) ((now.part 5).range set))

/-- `declareGlobals`. -/
def declareGlobals (r : Resolver) (fuel : Nat) : Option Resolver :=
  declareLoop order fuel r.named r

end Resolver

end OneJit.Go
