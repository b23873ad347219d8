import Mathlib.Data.List.Pairwise

/-!
# Declared objects

`types.Object` as the type checker uses it, and maps of objects by name. An object of the package
block is told from the others by its name.
-/

namespace OneJit.Go

/-- `types.Class`. -/
inductive Class
  | invalidObj | builtinObj | constObj | funcObj | importObj | typeObj | varObj
  | genericFuncObj | genericTypeObj
  deriving DecidableEq, Repr

/-- `types.Object`. The type, the value and the declaration are kept where they are computed. -/
structure Object where
  name : String
  cls : Class
  deriving DecidableEq, Repr

/-- `isTypeObj`. -/
def Object.isTypeObj (obj : Object) : Bool := obj.cls == .typeObj

/-- `ObjectMap`: at most one object for each name. -/
abbrev ObjectMap := List Object

namespace ObjectMap

/-- The object with a name. -/
def lookup (m : ObjectMap) (name : String) : Option Object := m.find? (·.name == name)

/-- `Delete`. -/
def delete (m : ObjectMap) (obj : Object) : ObjectMap := m.filter (·.name != obj.name)

/-- `Insert`. -/
def insert (m : ObjectMap) (obj : Object) : ObjectMap := obj :: m.delete obj

/-- `DeleteSet`. -/
def deleteSet (m : ObjectMap) (set : List Object) : ObjectMap := set.foldl delete m

/-- An object of this name is in the map. -/
def Has (m : ObjectMap) (name : String) : Prop := ∃ obj ∈ m, obj.name = name

theorem lookup_isSome {m : ObjectMap} {name : String} : (m.lookup name).isSome ↔ m.Has name := by
  rw [lookup, List.find?_isSome]
  simp only [beq_iff_eq, Has]

theorem has_insert {m : ObjectMap} {obj : Object} {name : String} :
    (m.insert obj).Has name ↔ obj.name = name ∨ m.Has name := by
  simp only [Has, insert, delete, List.mem_cons, List.mem_filter, bne_iff_ne, exists_eq_or_imp]
  constructor
  · rintro (h | ⟨o, ⟨ho, -⟩, hname⟩)
    · exact .inl h
    · exact .inr ⟨o, ho, hname⟩
  · rintro (h | ⟨o, ho, hname⟩)
    · exact .inl h
    · by_cases heq : o.name = obj.name
      · exact .inl (heq.symm.trans hname)
      · exact .inr ⟨o, ⟨ho, heq⟩, hname⟩

theorem mem_delete {m : ObjectMap} {obj o : Object} :
    o ∈ m.delete obj ↔ o ∈ m ∧ o.name ≠ obj.name := by
  rw [delete, List.mem_filter, bne_iff_ne]

theorem mem_deleteSet {m : ObjectMap} {set : List Object} {o : Object} :
    o ∈ m.deleteSet set ↔ o ∈ m ∧ ∀ obj ∈ set, o.name ≠ obj.name := by
  induction set generalizing m with
  | nil => simp [deleteSet]
  | cons obj set ih =>
    rw [deleteSet, List.foldl_cons]
    change o ∈ (m.delete obj).deleteSet set ↔ _
    rw [ih, mem_delete, List.forall_mem_cons, and_assoc]

theorem deleteSet_sublist (m : ObjectMap) (set : List Object) : (m.deleteSet set).Sublist m := by
  induction set generalizing m with
  | nil => exact .refl m
  | cons obj set ih => exact (ih (m.delete obj)).trans List.filter_sublist

/-- A set with an object of the map makes the map smaller. -/
theorem length_deleteSet_lt {m : ObjectMap} {set : List Object} {obj : Object} (hm : obj ∈ m)
    (hset : obj ∈ set) : (m.deleteSet set).length < m.length := by
  have hsub := deleteSet_sublist m set
  by_contra hlen
  rw [← hsub.eq_of_length_le (Nat.le_of_not_lt hlen), mem_deleteSet] at hm
  exact hm.2 obj hset rfl

/-- Where names are different, the deleted objects are those of the set. -/
theorem mem_deleteSet_of_names {m : ObjectMap} (hm : m.Pairwise fun a b => a.name ≠ b.name)
    {set : List Object} (hset : ∀ obj ∈ set, obj ∈ m) {o : Object} :
    o ∈ m.deleteSet set ↔ o ∈ m ∧ o ∉ set := by
  rw [mem_deleteSet]
  refine and_congr_right fun ho => ⟨fun h hos => h o hos rfl, fun h obj hobj heq => ?_⟩
  have hne : obj ≠ o := by
    rintro rfl
    exact h hobj
  have : Std.Symm fun a b : Object => a.name ≠ b.name := ⟨fun _ _ => Ne.symm⟩
  exact hm.forall (hset obj hobj) ho hne heq.symm

end ObjectMap

end OneJit.Go
