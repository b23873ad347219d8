import Mathlib.Algebra.BigOperators.Group.List.Basic
import Mathlib.Control.Monad.Basic

/-!
# Amounts that a program adds

A program adds a known amount to its state, whatever state it starts from, keeps an invariant, and
returns a result with a known property. The amounts of programs run one after another add up.
-/

/-- What is counted in a state, and the invariant under which it is. -/
structure Ledger (σ : Type) where
  inv : σ → Prop
  amount : σ → Nat

namespace Ledger

variable {σ α β : Type} (L : Ledger σ)

/-- From every state with the invariant the program adds `n`, and keeps the invariant. -/
def Adds (n : Nat) (m : StateM σ α) (post : α → Prop) : Prop :=
  ∀ s, L.inv s → L.inv (m s).2 ∧ L.amount (m s).2 = L.amount s + n ∧ post (m s).1

variable {L} {n k : Nat} {post : α → Prop}

theorem Adds.pure {a : α} (h : post a) : L.Adds 0 (Pure.pure a) post :=
  fun _ hs => ⟨hs, rfl, h⟩

theorem Adds.bind {m : StateM σ α} {f : α → StateM σ β} {post' : β → Prop} (hm : L.Adds n m post)
    (hf : ∀ a, post a → L.Adds k (f a) post') : L.Adds (n + k) (m >>= f) post' := by
  intro s hs
  have hfirst := hm s hs
  have hsecond := hf (m s).1 hfirst.2.2 (m s).2 hfirst.1
  refine ⟨hsecond.1, ?_, hsecond.2.2⟩
  change L.amount (f (m s).1 (m s).2).2 = _
  rw [hsecond.2.1, hfirst.2.1, Nat.add_assoc]

/-- A first step that adds nothing. -/
theorem Adds.bind_zero {m : StateM σ α} {f : α → StateM σ β} {post' : β → Prop}
    (hm : L.Adds 0 m post) (hf : ∀ a, post a → L.Adds k (f a) post') :
    L.Adds k (m >>= f) post' := by
  have h := hm.bind hf
  rwa [Nat.zero_add] at h

/-- A last step that adds nothing. -/
theorem Adds.then_zero {m : StateM σ α} {f : α → StateM σ β} {post' : β → Prop}
    (hm : L.Adds n m post) (hf : ∀ a, post a → L.Adds 0 (f a) post') :
    L.Adds n (m >>= f) post' := hm.bind hf

theorem Adds.map {m : StateM σ α} {f : α → β} {post' : β → Prop} (hm : L.Adds n m post)
    (h : ∀ a, post a → post' (f a)) : L.Adds n (f <$> m) post' := by
  intro s hs
  have hfirst := hm s hs
  exact ⟨hfirst.1, hfirst.2.1, h _ hfirst.2.2⟩

theorem Adds.weaken {m : StateM σ α} {post' : α → Prop} (hm : L.Adds n m post)
    (h : ∀ a, post a → post' a) : L.Adds n m post' := by
  intro s hs
  have hfirst := hm s hs
  exact ⟨hfirst.1, hfirst.2.1, h _ hfirst.2.2⟩

theorem Adds.ite {p : Prop} [Decidable p] {m m' : StateM σ α} (hm : p → L.Adds n m post)
    (hm' : ¬p → L.Adds n m' post) : L.Adds n (if p then m else m') post := by
  split
  · next h => exact hm h
  · next h => exact hm' h

/-- A program that adds nothing is run on the elements of a list. -/
theorem Adds.mapM {f : α → StateM σ β} {q : β → Prop} (hf : ∀ x, L.Adds 0 (f x) q) (xs : List α) :
    L.Adds 0 (xs.mapM f) fun bs => bs.length = xs.length ∧ ∀ b ∈ bs, q b := by
  induction xs with
  | nil =>
    rw [List.mapM_nil]
    exact .pure ⟨rfl, by simp⟩
  | cons x xs ih =>
    rw [List.mapM_cons]
    apply (hf x).bind_zero
    intro b hb
    apply ih.bind_zero
    intro bs hbs
    exact .pure ⟨by simp [hbs.1], by simpa using ⟨hb, hbs.2⟩⟩

end Ledger
