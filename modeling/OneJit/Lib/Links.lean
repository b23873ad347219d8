import Mathlib.Logic.Function.Basic
import Mathlib.Logic.Relation
import Mathlib.Order.RelClasses

/-!
# Chains of links

A partial function links some places to the next one. All chains of links end if the relation is
well-founded; a link to a place where a chain ends keeps that.
-/

namespace Links

variable {α : Type*}

/-- `a` is linked to `b`. -/
def Linked (next : α → Option α) (a b : α) : Prop := next a = some b

/-- All chains of links end. -/
def Ends (next : α → Option α) : Prop := WellFounded fun b a => Linked next a b

/-- Without links all chains end. -/
theorem ends_none : Ends fun _ : α => (none : Option α) :=
  ⟨fun a => ⟨a, fun _ h => absurd h (by simp [Linked])⟩⟩

variable {next : α → Option α}

/-- Chains that end never come back. -/
theorem Ends.acyclic (h : Ends next) (a : α) : ¬ Relation.TransGen (Linked next) a a := by
  intro hcycle
  have htrans : WellFounded (Relation.TransGen fun b a => Linked next a b) :=
    WellFounded.transGen h
  have hswap : Relation.TransGen (fun b a => Linked next a b) a a :=
    Relation.transGen_swap.mp hcycle
  exact htrans.asymmetric a a hswap hswap

/-- A place with a link to the end of a chain. -/
theorem Ends.update [DecidableEq α] (h : Ends next) {a e : α} (he : next e = none) (hne : e ≠ a) :
    Ends (Function.update next a (some e)) := by
  have hend : Acc (fun b a' => Linked (Function.update next a (some e)) a' b) e := by
    refine ⟨e, fun b hb => ?_⟩
    rw [Linked, Function.update_of_ne hne, he] at hb
    exact absurd hb (by simp)
  have ha : Acc (fun b a' => Linked (Function.update next a (some e)) a' b) a := by
    refine ⟨a, fun b hb => ?_⟩
    rw [Linked, Function.update_self, Option.some.injEq] at hb
    exact hb ▸ hend
  refine ⟨fun c => ?_⟩
  induction c using h.induction with
  | _ c ih =>
    by_cases hc : c = a
    · exact hc ▸ ha
    · refine ⟨c, fun b hb => ih b ?_⟩
      rwa [Linked, Function.update_of_ne hc] at hb

/-- A chain passes through the same places from each of them on. -/
theorem reaches_of_linked {a b t : α} (h : next a = some b) (hne : t ≠ a) :
    Relation.ReflTransGen (Linked next) a t ↔ Relation.ReflTransGen (Linked next) b t := by
  constructor
  · intro ha
    rcases Relation.ReflTransGen.cases_head ha with heq | ⟨c, hc, hct⟩
    · exact absurd heq.symm hne
    · have : c = b := Option.some.inj (hc.symm.trans h)
      rwa [← this]
  · exact Relation.ReflTransGen.head h

/-- Where there is no link a chain ends. -/
theorem reaches_of_none {a t : α} (h : next a = none) :
    Relation.ReflTransGen (Linked next) a t ↔ t = a := by
  constructor
  · intro ha
    rcases Relation.ReflTransGen.cases_head ha with heq | ⟨c, hc, _⟩
    · exact heq.symm
    · rw [Linked, h] at hc
      exact absurd hc (by simp)
  · intro heq
    rw [heq]

end Links
