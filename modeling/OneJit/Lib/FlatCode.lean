import Mathlib.Data.List.Nodup
import Mathlib.Data.List.Infix

/-!
# Flat code with labels

A program is a list of instructions, some of which are labels. A configuration is the rest of the
program that is still to be run, and a state. A jump goes on behind its label.
-/

namespace FlatCode

variable {ι lam σ : Type}

/-- How a program goes on after an instruction. -/
inductive Next (lam σ : Type)
  | fall (s : σ)
  | jump (l : lam) (s : σ)

/-- What the instructions do. One without effect ends the run. -/
structure Machine (ι lam σ : Type) where
  label : ι → Option lam
  effect : ι → σ → Option (Next lam σ)

/-- The rest of the program and the state. -/
abbrev Config (ι σ : Type) := List ι × σ

namespace Machine

variable [DecidableEq lam] (M : Machine ι lam σ)

/-- The instructions behind a label. -/
def find (l : lam) : List ι → Option (List ι)
  | [] => none
  | i :: is => if M.label i = some l then some is else find l is

def step (prog : List ι) : Config ι σ → Option (Config ι σ)
  | ([], _) => none
  | (i :: is, s) =>
    match M.effect i s with
    | none => none
    | some (.fall s') => some (is, s')
    | some (.jump l s') => (M.find l prog).map (·, s')

def run (prog : List ι) : Nat → Config ι σ → Option (Config ι σ)
  | 0, a => some a
  | n + 1, a => (M.step prog a).bind (run prog n)

/-- No label is placed twice. -/
def Unique (prog : List ι) : Prop := (prog.filterMap M.label).Nodup

/-- The second configuration comes up after at least so many steps. -/
def Reaches (prog : List ι) (n : Nat) (a b : Config ι σ) : Prop :=
  ∃ m, n ≤ m ∧ M.run prog m a = some b

variable {M} {prog : List ι}

theorem run_add (m n : Nat) (a : Config ι σ) :
    M.run prog (m + n) a = (M.run prog m a).bind (M.run prog n) := by
  induction m generalizing a with
  | zero =>
    rw [Nat.zero_add]
    rfl
  | succ m ih =>
    rw [Nat.add_right_comm, run, run]
    cases M.step prog a with
    | none => rfl
    | some b => exact ih b

/-- Where a run can stop, every longer run has stopped. -/
theorem run_of_step_none {a b : Config ι σ} {m n : Nat} (h : M.run prog m a = some b)
    (hstop : M.step prog b = none) (hn : m < n) : M.run prog n a = none := by
  obtain ⟨d, rfl⟩ := Nat.exists_eq_add_of_lt hn
  rw [Nat.add_assoc, run_add, h]
  change (M.step prog b).bind _ = none
  rw [hstop]
  rfl

namespace Reaches

variable {a b c : Config ι σ} {m n : Nat}

theorem refl (a : Config ι σ) : M.Reaches prog 0 a a := ⟨0, Nat.le_refl 0, rfl⟩

theorem trans (h : M.Reaches prog m a b) (h' : M.Reaches prog n b c) :
    M.Reaches prog (m + n) a c := by
  obtain ⟨i, hi, hrun⟩ := h
  obtain ⟨j, hj, hrun'⟩ := h'
  refine ⟨i + j, Nat.add_le_add hi hj, ?_⟩
  rw [run_add, hrun]
  exact hrun'

theorem mono (h : M.Reaches prog m a b) (hn : n ≤ m) : M.Reaches prog n a b := by
  obtain ⟨i, hi, hrun⟩ := h
  exact ⟨i, hn.trans hi, hrun⟩

theorem step (h : M.step prog a = some b) : M.Reaches prog 1 a b := by
  refine ⟨1, Nat.le_refl 1, ?_⟩
  rw [run, h]
  rfl

/-- An instruction that does not jump. -/
theorem fall {i : ι} {is : List ι} {s s' : σ} (h : M.effect i s = some (.fall s')) :
    M.Reaches prog 1 (i :: is, s) (is, s') := by
  apply step
  rw [Machine.step, h]

/-- An instruction that jumps. -/
theorem jump {i : ι} {is rest : List ι} {s s' : σ} {l : lam}
    (h : M.effect i s = some (.jump l s')) (hl : M.find l prog = some rest) :
    M.Reaches prog 1 (i :: is, s) (rest, s') := by
  apply step
  rw [Machine.step, h]
  change (M.find l prog).map (·, s') = _
  rw [hl]
  rfl

/-- Two runs to where the program stops end in the same configuration. -/
theorem unique (h : M.Reaches prog m a b) (h' : M.Reaches prog n a c)
    (hb : M.step prog b = none) (hc : M.step prog c = none) : b = c := by
  obtain ⟨i, -, hrun⟩ := h
  obtain ⟨j, -, hrun'⟩ := h'
  obtain hlt | rfl | hlt := Nat.lt_trichotomy i j
  · rw [run_of_step_none hrun hb hlt] at hrun'
    cases hrun'
  · exact Option.some.inj (hrun.symm.trans hrun')
  · rw [run_of_step_none hrun' hc hlt] at hrun
    cases hrun

end Reaches

/-- What is found is behind the label. -/
theorem find_suffix {l : lam} {is rest : List ι} (h : M.find l is = some rest) :
    ∃ i, M.label i = some l ∧ i :: rest <:+ is := by
  induction is with
  | nil => cases h
  | cons i is ih =>
    rw [find] at h
    split at h
    · next hl =>
      cases h
      exact ⟨i, hl, List.suffix_refl _⟩
    · obtain ⟨j, hj, hsuffix⟩ := ih h
      exact ⟨j, hj, hsuffix.trans (List.suffix_cons i is)⟩

/-- A label that is placed once is found where it is. -/
theorem find_of_suffix (hunique : M.Unique prog) {i : ι} {is : List ι} {l : lam}
    (hl : M.label i = some l) (h : i :: is <:+ prog) : M.find l prog = some is := by
  obtain ⟨pre, rfl⟩ := h
  induction pre with
  | nil => rw [List.nil_append, find, if_pos hl]
  | cons j pre ih =>
    rw [Unique, List.cons_append, List.filterMap_cons] at hunique
    have hj : M.label j ≠ some l := by
      intro heq
      rw [heq] at hunique
      refine (List.nodup_cons.mp hunique).1 ?_
      exact List.mem_filterMap.mpr ⟨i, by simp, hl⟩
    rw [List.cons_append, find, if_neg hj]
    apply ih
    cases hlabel : M.label j with
    | none => rwa [hlabel] at hunique
    | some l' =>
      rw [hlabel] at hunique
      exact (List.nodup_cons.mp hunique).2

/-! ## Pieces of a program -/

/-- Wherever the piece stands in the program, it runs from the state to its end, in a state with the
property. -/
def Runs (M : Machine ι lam σ) (prog piece : List ι) (s : σ) (Q : σ → Prop) : Prop :=
  ∀ post, piece ++ post <:+ prog →
    ∃ s', Q s' ∧ M.Reaches prog 0 (piece ++ post, s) (post, s')

namespace Runs

variable {piece piece' : List ι} {s s' : σ} {Q Q' : σ → Prop}

end Runs

/-! ## Code that jumps forwards -/

variable (M) in
/-- An instruction, on the label that is jumped to and the state. A jump passes over the instructions
before its label. -/
def pass (a : Option lam × σ) (i : ι) : Option (Option lam × σ) :=
  match a.1 with
  | none => (M.effect i a.2).map fun next =>
      match next with
      | .fall s => (none, s)
      | .jump l s => (some l, s)
  | some l => some (if M.label i = some l then none else some l, a.2)

variable (M) in
/-- The run of a piece in which every jump goes to a label further down. -/
def forward (piece : List ι) (a : Option lam × σ) : Option σ :=
  (piece.foldlM M.pass a).bind fun a => if a.1 = none then some a.2 else none

theorem foldlM_of_forward {piece : List ι} {a : Option lam × σ} {s : σ}
    (h : M.forward piece a = some s) : piece.foldlM M.pass a = some (none, s) := by
  obtain ⟨⟨target, s'⟩, hfold, hrest⟩ := Option.bind_eq_some_iff.mp h
  rw [hfold]
  split at hrest
  · next htarget =>
    obtain rfl : target = none := htarget
    cases hrest
    rfl
  · cases hrest

theorem pass_fall {i : ι} {s s' : σ} (h : M.effect i s = some (.fall s')) :
    M.pass (none, s) i = some (none, s') := by
  change (M.effect i s).map _ = _
  rw [h]
  rfl

theorem pass_jump {i : ι} {s s' : σ} {l : lam} (h : M.effect i s = some (.jump l s')) :
    M.pass (none, s) i = some (some l, s') := by
  change (M.effect i s).map _ = _
  rw [h]
  rfl

theorem pass_stuck {i : ι} {s : σ} (h : M.effect i s = none) : M.pass (none, s) i = none := by
  change (M.effect i s).map _ = _
  rw [h]
  rfl

theorem forward_cons {a a' : Option lam × σ} {i : ι} (h : M.pass a i = some a') (is : List ι) :
    M.forward (i :: is) a = M.forward is a' := by
  change (M.pass a i >>= fun a => is.foldlM M.pass a).bind _ = _
  rw [h]
  rfl

theorem forward_stuck {a : Option lam × σ} {i : ι} (h : M.pass a i = none) (is : List ι) :
    M.forward (i :: is) a = none := by
  change (M.pass a i >>= fun a => is.foldlM M.pass a).bind _ = _
  rw [h]
  rfl

/-- The last instruction of a piece does not jump. -/
theorem forward_last {i : ι} {s : σ} {next : Option σ} (h : M.effect i s = next.map .fall) :
    M.forward [i] (none, s) = next := by
  cases next with
  | none => exact forward_stuck (pass_stuck h) []
  | some s' => exact forward_cons (pass_fall h) []

/-- A piece that runs to its end is followed by the next piece. -/
theorem forward_append {piece : List ι} {a : Option lam × σ} {s : σ}
    (h : M.forward piece a = some s) (piece' : List ι) :
    M.forward (piece ++ piece') a = M.forward piece' (none, s) := by
  change (piece.foldlM M.pass a).bind _ = some s at h
  change ((piece ++ piece').foldlM M.pass a).bind _ = _
  rw [List.foldlM_append]
  cases hfold : piece.foldlM M.pass a with
  | none =>
    rw [hfold] at h
    cases h
  | some a' =>
    obtain ⟨target, s'⟩ := a'
    rw [hfold] at h
    cases target with
    | some l => cases h
    | none =>
      cases h
      rfl

/-! ## Pieces that no jump leaves -/

variable (M) in
/-- No jump goes out of the piece. -/
def Closed (piece : List ι) : Prop :=
  ∀ s a, piece.foldlM M.pass (none, s) = some a → a.1 = none

theorem closed_nil : M.Closed [] := by
  intro s a h
  cases h
  rfl

theorem Closed.append {piece piece' : List ι} (h : M.Closed piece) (h' : M.Closed piece') :
    M.Closed (piece ++ piece') := by
  intro s a hfold
  rw [List.foldlM_append] at hfold
  obtain ⟨⟨target, s'⟩, hs', hrest⟩ := Option.bind_eq_some_iff.mp hfold
  obtain rfl : target = none := h s _ hs'
  exact h' s' a hrest

/-- An instruction that does not jump. -/
theorem closed_single {i : ι} (h : ∀ s l s', M.effect i s ≠ some (.jump l s')) :
    M.Closed [i] := by
  intro s a hfold
  obtain ⟨b, hb, hrest⟩ := Option.bind_eq_some_iff.mp hfold
  cases hrest
  obtain ⟨next, heffect, rfl⟩ := Option.map_eq_some_iff.mp hb
  cases next with
  | fall s' => rfl
  | jump l s' => exact absurd heffect (h s l s')

/-- Instructions without labels are passed over. -/
theorem pass_over {piece : List ι} (h : ∀ i ∈ piece, M.label i = none) (l : lam) (s : σ) :
    piece.foldlM M.pass (some l, s) = some (some l, s) := by
  induction piece with
  | nil => rfl
  | cons i is ih =>
    rw [List.forall_mem_cons] at h
    have hpass : M.pass (some l, s) i = some (some l, s) := by
      rw [pass, h.1]
      rfl
    rw [List.foldlM_cons, hpass]
    exact ih h.2

/-- A piece that may be jumped over, to the label behind it. -/
theorem closed_skip {i j : ι} {l : lam} {piece : List ι}
    (hjump : ∀ s l' s', M.effect i s = some (.jump l' s') → l' = l) (hpiece : M.Closed piece)
    (hlabels : ∀ k ∈ piece, M.label k = none) (hl : M.label j = some l)
    (hfall : ∀ s l s', M.effect j s ≠ some (.jump l s')) : M.Closed (i :: piece ++ [j]) := by
  intro s a hfold
  rw [List.cons_append, List.foldlM_cons] at hfold
  obtain ⟨⟨target, s'⟩, hpass, hrest⟩ := Option.bind_eq_some_iff.mp hfold
  obtain ⟨next, heffect, hnext⟩ := Option.map_eq_some_iff.mp hpass
  cases next with
  | fall s₁ =>
    cases hnext
    exact hpiece.append (closed_single hfall) s' a hrest
  | jump l' s₁ =>
    cases hnext
    obtain rfl := hjump s l' s' heffect
    rw [List.foldlM_append, pass_over hlabels] at hrest
    change some (if M.label j = some l' then none else some l', s') = some a at hrest
    rw [if_pos hl] at hrest
    cases hrest
    rfl

/-- The run over a piece that is jumped over. -/
theorem forward_skip {i j : ι} {l : lam} {piece : List ι} {s s' : σ}
    (h : M.effect i s = some (.jump l s')) (hlabels : ∀ k ∈ piece, M.label k = none)
    (hl : M.label j = some l) : M.forward (i :: piece ++ [j]) (none, s) = some s' := by
  rw [List.cons_append, forward_cons (pass_jump h)]
  change ((piece ++ [j]).foldlM M.pass (some l, s')).bind _ = _
  rw [List.foldlM_append, pass_over hlabels]
  change (some (if M.label j = some l then none else some l, s')).bind _ = _
  rw [if_pos hl]
  rfl

/-- What comes behind a piece that no jump leaves runs after it. -/
theorem Closed.forward_append {piece : List ι} (h : M.Closed piece) (piece' : List ι) (s : σ) :
    M.forward (piece ++ piece') (none, s) =
      (M.forward piece (none, s)).bind fun s' => M.forward piece' (none, s') := by
  change ((piece ++ piece').foldlM M.pass (none, s)).bind _ =
    ((piece.foldlM M.pass (none, s)).bind _).bind _
  rw [List.foldlM_append]
  cases hfold : piece.foldlM M.pass (none, s) with
  | none => rfl
  | some a =>
    obtain ⟨target, s'⟩ := a
    obtain rfl : target = none := h s _ hfold
    rfl

/-- A piece runs forwards as it does wherever it stands in a program that places no label twice. -/
theorem runs_of_forward (hunique : M.Unique prog) {piece : List ι} {s s' : σ}
    (h : M.forward piece (none, s) = some s') : M.Runs prog piece s (· = s') := by
  have hreaches : ∀ (piece : List ι) (target : Option lam) (s : σ) (post : List ι),
      M.forward piece (target, s) = some s' → piece ++ post <:+ prog →
      ∃ rest, target.elim (some (piece ++ post)) (M.find · prog) = some rest ∧
        M.Reaches prog 0 (rest, s) (post, s') := by
    intro piece
    induction piece with
    | nil =>
      intro target s post h _
      cases target with
      | none =>
        obtain rfl : s = s' := Option.some.inj h
        exact ⟨post, rfl, .refl _⟩
      | some l => cases h
    | cons i is ih =>
      intro target s post h hpost
      have hrest : is ++ post <:+ prog := (List.suffix_cons i _).trans hpost
      cases target with
      | none =>
        refine ⟨_, rfl, ?_⟩
        cases heffect : M.effect i s with
        | none =>
          rw [forward_stuck (pass_stuck heffect)] at h
          cases h
        | some next =>
          cases next with
          | fall s₁ =>
            rw [forward_cons (pass_fall heffect)] at h
            obtain ⟨rest, hfind, hreach⟩ := ih none s₁ post h hrest
            rw [← Option.some.inj hfind] at hreach
            exact ((Reaches.fall heffect).trans hreach).mono (Nat.zero_le _)
          | jump l s₁ =>
            rw [forward_cons (pass_jump heffect)] at h
            obtain ⟨rest, hfind, hreach⟩ := ih (some l) s₁ post h hrest
            exact ((Reaches.jump heffect hfind).trans hreach).mono (Nat.zero_le _)
      | some l =>
        have hpass : M.pass (some l, s) i = some (if M.label i = some l then none else some l, s) :=
          rfl
        rw [forward_cons hpass] at h
        split at h
        · next hl =>
          obtain ⟨rest, hfind, hreach⟩ := ih none s post h hrest
          rw [← Option.some.inj hfind] at hreach
          exact ⟨_, find_of_suffix hunique hl hpost, hreach⟩
        · exact ih (some l) s post h hrest
  intro post hpost
  obtain ⟨rest, hfind, hreach⟩ := hreaches piece none s post h hpost
  rw [← Option.some.inj hfind] at hreach
  exact ⟨s', rfl, hreach⟩

end Machine

end FlatCode
