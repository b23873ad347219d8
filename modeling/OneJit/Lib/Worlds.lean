import Mathlib.Order.Basic
import Mathlib.Control.Monad.Basic

/-!
# Invariants of stateful programs

A program changes its state, and part of the state only grows. What holds of a result stays true
while that part grows on, so that facts of one step can be used in a later one.
-/

/-- What a program keeps: an invariant of its states, and a part of them that only grows. -/
structure Worlds (σ ι : Type) where
  world : σ → ι
  le : ι → ι → Prop
  refl : ∀ w, le w w
  trans : ∀ {w w' w''}, le w w' → le w' w'' → le w w''
  inv : σ → Prop

namespace Worlds

variable {σ ι α β : Type} (W : Worlds σ ι)

/-- From any state with the invariant, in the given world or a later one, the program keeps the
invariant, goes to a later world and returns a result with the property there. -/
def Keeps (w : ι) (m : StateM σ α) (post : ι → α → Prop) : Prop :=
  ∀ s, W.le w (W.world s) → W.inv s →
    W.le (W.world s) (W.world (m s).2) ∧ W.inv (m s).2 ∧ post (W.world (m s).2) (m s).1

variable {W} {w : ι} {post : ι → α → Prop}

theorem Keeps.pure {a : α} (h : ∀ w', W.le w w' → post w' a) : W.Keeps w (Pure.pure a) post :=
  fun _ hw hinv => ⟨W.refl _, hinv, h _ hw⟩

theorem Keeps.bind {m : StateM σ α} {f : α → StateM σ β} {post' : ι → β → Prop}
    (hm : W.Keeps w m post) (hf : ∀ a w', W.le w w' → post w' a → W.Keeps w' (f a) post') :
    W.Keeps w (m >>= f) post' := by
  intro s hw hinv
  obtain ⟨hle, hinv', hpost⟩ := hm s hw hinv
  obtain ⟨hle', hinv'', hpost'⟩ :=
    hf (m s).1 _ (W.trans hw hle) hpost (m s).2 (W.refl _) hinv'
  exact ⟨W.trans hle hle', hinv'', hpost'⟩

theorem Keeps.later {m : StateM σ α} {w' : ι} (hm : W.Keeps w m post) (hw : W.le w w') :
    W.Keeps w' m post := fun s hs hinv => hm s (W.trans hw hs) hinv

theorem Keeps.map {m : StateM σ α} {f : α → β} {post' : ι → β → Prop} (hm : W.Keeps w m post)
    (h : ∀ w' a, W.le w w' → post w' a → post' w' (f a)) : W.Keeps w (f <$> m) post' := by
  intro s hw hinv
  obtain ⟨hle, hinv', hpost⟩ := hm s hw hinv
  exact ⟨hle, hinv', h _ _ (W.trans hw hle) hpost⟩

theorem Keeps.ite {p : Prop} [Decidable p] {m m' : StateM σ α} (hm : p → W.Keeps w m post)
    (hm' : ¬p → W.Keeps w m' post) : W.Keeps w (if p then m else m') post := by
  split
  · next h => exact hm h
  · next h => exact hm' h

/-- The program is run on the elements of a list, one after another. -/
theorem Keeps.mapM {f : α → StateM σ β} {q : ι → β → Prop} {xs : List α}
    (hmono : ∀ w w' b, W.le w w' → q w b → q w' b)
    (hf : ∀ x ∈ xs, ∀ w', W.le w w' → W.Keeps w' (f x) q) :
    W.Keeps w (xs.mapM f) fun w' bs => ∀ b ∈ bs, q w' b := by
  induction xs generalizing w with
  | nil =>
    rw [List.mapM_nil]
    exact .pure fun _ _ b hb => by cases hb
  | cons x xs ih =>
    rw [List.mapM_cons]
    refine (hf x List.mem_cons_self w (W.refl w)).bind fun b w' hw hb => ?_
    refine (ih fun y hy w'' hw'' => hf y (.tail _ hy) w'' (W.trans hw hw'')).bind
      fun bs w'' hw' hbs => ?_
    refine .pure fun w''' hw'' => List.forall_mem_cons.mpr ⟨?_, ?_⟩
    · exact hmono _ _ b (W.trans hw' hw'') hb
    · exact fun c hc => hmono _ _ c hw'' (hbs c hc)

end Worlds
