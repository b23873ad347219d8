import OneJit.Lib.Structured

/-!
# Refining what is defined

A structured statement may be replaced by one that does the same wherever it is defined: it ends in
the same way, in a state that is related, and its loops take as many turns. Sequences, branches,
loops and switches of statements that are replaced are replaced as a whole.
-/

namespace FlatCode

namespace Result

variable {σ τ ρ : Type} (R : σ → τ → Prop)

/-- What the first statement does is done by the second, where the first one is defined. -/
inductive Refines : Result σ ρ → Result τ ρ → Prop
  | trap (r : Result τ ρ) : Refines trap r
  | timeout : Refines timeout timeout
  | ends {o : Outcome ρ} {s : σ} {t : τ} (h : R s t) : Refines (ends o s) (ends o t)

/-- A test that is defined has the same answer in a related state. -/
def TestRefines (test : Option (Bool × σ)) (test' : Option (Bool × τ)) : Prop :=
  ∀ b s, test = some (b, s) → ∃ t, test' = some (b, t) ∧ R s t

variable {R}

theorem Refines.andThen {r : Result σ ρ} {r' : Result τ ρ} (h : Refines R r r')
    {next : σ → Result σ ρ} {next' : τ → Result τ ρ}
    (hnext : ∀ s t, R s t → Refines R (next s) (next' t)) :
    Refines R (r.andThen next) (r'.andThen next') := by
  cases h with
  | trap => exact .trap _
  | timeout => exact .timeout
  | @ends o s t hst =>
    cases o with
    | normal => exact hnext s t hst
    | _ => exact .ends hst

theorem Refines.turn {r : Result σ ρ} {r' : Result τ ρ} (h : Refines R r r')
    {next : σ → Result σ ρ} {next' : τ → Result τ ρ}
    (hnext : ∀ s t, R s t → Refines R (next s) (next' t)) :
    Refines R (r.turn next) (r'.turn next') := by
  cases h with
  | trap => exact .trap _
  | timeout => exact .timeout
  | @ends o s t hst =>
    cases o with
    | normal | cont => exact hnext s t hst
    | _ => exact .ends hst

theorem Refines.orFall {r : Result σ ρ} {r' : Result τ ρ} (h : Refines R r r')
    {next : σ → Result σ ρ} {next' : τ → Result τ ρ}
    (hnext : ∀ s t, R s t → Refines R (next s) (next' t)) :
    Refines R (r.orFall next) (r'.orFall next') := by
  cases h with
  | trap => exact .trap _
  | timeout => exact .timeout
  | @ends o s t hst =>
    cases o with
    | fall => exact hnext s t hst
    | _ => exact .ends hst

theorem TestRefines.branch {test : Option (Bool × σ)} {test' : Option (Bool × τ)}
    (h : TestRefines R test test') {thn els : σ → Result σ ρ} {thn' els' : τ → Result τ ρ}
    (hthn : ∀ s t, R s t → Refines R (thn s) (thn' t))
    (hels : ∀ s t, R s t → Refines R (els s) (els' t)) :
    Refines R (Result.branch test thn els) (Result.branch test' thn' els') := by
  match test with
  | none => exact .trap _
  | some (true, s) =>
    obtain ⟨t, rfl, hst⟩ := h true s rfl
    exact hthn s t hst
  | some (false, s) =>
    obtain ⟨t, rfl, hst⟩ := h false s rfl
    exact hels s t hst

/-- A loop takes the same turns. -/
theorem Refines.loop {test : σ → Option (Bool × σ)} {test' : τ → Option (Bool × τ)}
    {body : σ → Result σ ρ} {body' : τ → Result τ ρ}
    (htest : ∀ s t, R s t → TestRefines R (test s) (test' t))
    (hbody : ∀ s t, R s t → Refines R (body s) (body' t)) (n : Nat) {s : σ} {t : τ} (h : R s t) :
    Refines R (Result.loop test body n s) (Result.loop test' body' n t) := by
  induction n generalizing s t with
  | zero => exact .timeout
  | succ n ih =>
    exact (htest s t h).branch (fun s t hst => (hbody s t hst).turn fun s t => ih)
      fun s t => .ends

/-! ## Results that are defined -/

section Iff

variable {r : Result σ ρ} {r' : Result τ ρ} (h : Refines R r r') (hdefined : r ≠ .trap)

include h hdefined

theorem Refines.not_trap : r' ≠ .trap := by
  cases h with
  | trap => exact absurd rfl hdefined
  | timeout => nofun
  | ends => nofun

theorem Refines.timeout_iff : r' = .timeout ↔ r = .timeout := by
  cases h with
  | trap => exact absurd rfl hdefined
  | timeout => simp
  | ends => simp

/-- Both end in the same way, in states with the same properties. -/
theorem Refines.ends_iff (o : Outcome ρ) {P : σ → Prop} {Q : τ → Prop}
    (hPQ : ∀ s t, R s t → (Q t ↔ P s)) :
    (∃ t, r' = .ends o t ∧ Q t) ↔ ∃ s, r = .ends o s ∧ P s := by
  cases h with
  | trap => exact absurd rfl hdefined
  | timeout => simp
  | @ends o' s t hst => simp [hPQ s t hst]

end Iff

end Result

end FlatCode
