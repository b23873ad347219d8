/-!
# Triples

What a computation with a state that may stop leaves: a property of its result and of the state
after it, or a property of the reason why it stopped.
-/

namespace StateStop

variable {σ ε α β : Type} {P P' : σ → Prop} {Q Q' : α → σ → Prop} {R : β → σ → Prop}
  {E E' : ε → Prop}

/-- From a state with `P` the computation `m` returns with `Q`, or it stops with `E`. -/
def Triple (P : σ → Prop) (m : StateT σ (Except ε) α) (Q : α → σ → Prop) (E : ε → Prop) : Prop :=
  ∀ s, P s → match m s with
    | .ok (a, s') => Q a s'
    | .error e => E e

namespace Triple

variable {m : StateT σ (Except ε) α}

/-- Where no reason to stop is allowed, the computation returns. -/
theorem returns (h : Triple P m Q fun _ => False) {s : σ} (hs : P s) :
    ∃ a s', m s = .ok (a, s') ∧ Q a s' := by
  have hm := h s hs
  cases hrun : m s with
  | ok result =>
    rw [hrun] at hm
    exact ⟨result.1, result.2, rfl, hm⟩
  | error e =>
    rw [hrun] at hm
    exact hm.elim

theorem conseq (h : Triple P m Q E) (hP : ∀ s, P' s → P s) (hQ : ∀ a s, Q a s → Q' a s) :
    Triple P' m Q' E := by
  intro s hs
  have hm := h s (hP s hs)
  cases hrun : m s with
  | ok result =>
    rw [hrun] at hm
    exact hQ _ _ hm
  | error e =>
    rw [hrun] at hm
    exact hm

theorem pure {a : α} (h : ∀ s, P s → Q a s) : Triple P (Pure.pure a : StateT σ (Except ε) α) Q E :=
  h

theorem bind {f : α → StateT σ (Except ε) β} (hm : Triple P m Q E)
    (hf : ∀ a, Triple (Q a) (f a) R E) : Triple P (m >>= f) R E := by
  intro s hs
  have h := hm s hs
  change match (m s >>= fun x => f x.1 x.2) with
    | .ok (a, s') => R a s'
    | .error e => E e
  cases hrun : m s with
  | ok result =>
    rw [hrun] at h
    exact hf _ _ h
  | error e =>
    rw [hrun] at h
    exact h

end Triple

end StateStop
