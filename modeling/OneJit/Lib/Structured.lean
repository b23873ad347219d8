import OneJit.Lib.FlatCode

/-!
# Structured control flow in flat code

A structured statement ends normally, or leaves a loop or a switch, or returns. Its result is one of
a run with bounded loops. Flat code simulates it when the run of the code goes to where the outcome
leads, is stuck where the statement has no result, and goes on for as long as the loops do.
-/

namespace FlatCode

/-- How a statement ends. -/
inductive Outcome (ρ : Type)
  | normal
  | brk
  | cont
  | fall
  | ret (r : ρ)

/-- What a statement does: it ends in a state, it is undefined, or a loop takes more turns than were
granted. -/
inductive Result (σ ρ : Type)
  | ends (o : Outcome ρ) (s : σ)
  | trap
  | timeout

namespace Result

variable {σ ρ : Type}

/-- A step that ends normally where it is defined. -/
def ofOption : Option σ → Result σ ρ
  | some s => ends .normal s
  | none => trap

/-- What comes after a statement runs when it ends normally. -/
def andThen (r : Result σ ρ) (next : σ → Result σ ρ) : Result σ ρ :=
  match r with
  | ends .normal s => next s
  | r => r

/-- What a turn of a loop ends with decides whether there is another one. -/
def turn (r : Result σ ρ) (next : σ → Result σ ρ) : Result σ ρ :=
  match r with
  | ends .normal s | ends .cont s => next s
  | ends .brk s => ends .normal s
  | r => r

/-- What a body of a switch ends with decides whether the next one runs. -/
def orFall (r : Result σ ρ) (next : σ → Result σ ρ) : Result σ ρ :=
  match r with
  | ends .normal s | ends .brk s => ends .normal s
  | ends .fall s => next s
  | r => r

/-- One of two statements, by a test. -/
def branch (test : Option (Bool × σ)) (thn els : σ → Result σ ρ) : Result σ ρ :=
  match test with
  | some (true, s) => thn s
  | some (false, s) => els s
  | none => trap

/-- At most so many turns of a loop. -/
def loop (test : σ → Option (Bool × σ)) (body : σ → Result σ ρ) : Nat → σ → Result σ ρ
  | 0, _ => timeout
  | n + 1, s => branch (test s) (fun s => (body s).turn (loop test body n)) (ends .normal)

@[simp] theorem ends_andThen (s : σ) (next : σ → Result σ ρ) :
    (ends .normal s : Result σ ρ).andThen next = next s := rfl

@[simp] theorem trap_andThen (next : σ → Result σ ρ) : (trap : Result σ ρ).andThen next = trap := rfl

theorem andThen_ends (r : Result σ ρ) : r.andThen (ends .normal) = r := by
  cases r with
  | ends o s => cases o <;> rfl
  | _ => rfl

theorem branch_not (test : Option (Bool × σ)) (thn els : σ → Result σ ρ) :
    branch (test.map fun r => (!r.1, r.2)) els thn = branch test thn els := by
  match test with
  | none | some (true, _) | some (false, _) => rfl

theorem loop_of_false {test : σ → Option (Bool × σ)} {s : σ} (h : test s = some (false, s))
    (body : σ → Result σ ρ) (n : Nat) :
    loop test body n s = if n = 0 then timeout else ends .normal s := by
  cases n with
  | zero => rfl
  | succ n =>
    rw [loop, h]
    rfl

end Result

/-- The code behind the labels that a statement may jump to. -/
structure Exits (ι : Type) where
  brk : Option (List ι)
  cont : Option (List ι)
  fall : Option (List ι)

/-- How the states of the flat code stand for those of the statements, which configurations return,
and which are stuck. -/
structure Observer (ι σ τ ρ : Type) where
  rel : σ → τ → Prop
  returns : ρ → σ → Config ι τ → Prop
  stuck : Config ι τ → Prop

variable {ι lam σ τ ρ : Type} [DecidableEq lam]

namespace Machine

variable (M : Machine ι lam τ) (prog : List ι) (ob : Observer ι σ τ ρ)

/-- From the configuration, the run goes to where the result leads. A jump takes a step, and a run
that times out takes as many as were granted. -/
def Follows (n : Nat) (exits : Exits ι) (post : List ι) (a : Config ι τ) : Result σ ρ → Prop
  | .ends .normal s => ∃ t, ob.rel s t ∧ M.Reaches prog 0 a (post, t)
  | .ends .brk s => ∃ rest t, exits.brk = some rest ∧ ob.rel s t ∧ M.Reaches prog 1 a (rest, t)
  | .ends .cont s => ∃ rest t, exits.cont = some rest ∧ ob.rel s t ∧ M.Reaches prog 1 a (rest, t)
  | .ends .fall s => ∃ rest t, exits.fall = some rest ∧ ob.rel s t ∧ M.Reaches prog 1 a (rest, t)
  | .ends (.ret r) s => ∃ b, ob.returns r s b ∧ M.Reaches prog 0 a b
  | .trap => ∃ b, ob.stuck b ∧ M.Reaches prog 0 a b
  | .timeout => ∃ b, M.Reaches prog n a b

/-- Wherever the piece stands in the program, its run follows the statement. -/
def Simulates (n : Nat) (exits : Exits ι) (piece : List ι) (exec : σ → Result σ ρ) : Prop :=
  ∀ post, piece ++ post <:+ prog → ∀ s t, ob.rel s t →
    M.Follows prog ob n exits post (piece ++ post, t) (exec s)

/-- From the configuration, the run goes to one of two places by a test. -/
def Decides (a : Config ι τ) (yes no : List ι) : Option (Bool × σ) → Prop
  | some (true, s) => ∃ t, ob.rel s t ∧ M.Reaches prog 0 a (yes, t)
  | some (false, s) => ∃ t, ob.rel s t ∧ M.Reaches prog 0 a (no, t)
  | none => ∃ b, ob.stuck b ∧ M.Reaches prog 0 a b

/-- Wherever the piece stands in the program, it goes to the label where the test holds, and to its
end where it does not. -/
def Tests (piece : List ι) (l : lam) (test : σ → Option (Bool × σ)) : Prop :=
  ∀ post, piece ++ post <:+ prog → ∀ rest, M.find l prog = some rest → ∀ s t, ob.rel s t →
    M.Decides prog ob (piece ++ post, t) rest post (test s)

/-- The instruction is a label, and does nothing. -/
def Marks (i : ι) (l : lam) : Prop := M.label i = some l ∧ ∀ t, M.effect i t = some (.fall t)

/-- The instruction jumps to the label. -/
def Jumps (i : ι) (l : lam) : Prop := ∀ t, M.effect i t = some (.jump l t)

variable {M prog ob} {n m : Nat} {exits : Exits ι} {post : List ι} {a b : Config ι τ}
  {r : Result σ ρ}

/-! ## Sequences -/

namespace Follows

theorem after (hreach : M.Reaches prog m a b) (h : M.Follows prog ob n exits post b r) :
    M.Follows prog ob (m + n) exits post a r := by
  cases r with
  | trap =>
    obtain ⟨d, hd, hrest⟩ := h
    exact ⟨d, hd, (hreach.trans hrest).mono (Nat.zero_le _)⟩
  | timeout =>
    obtain ⟨d, hrest⟩ := h
    exact ⟨d, hreach.trans hrest⟩
  | ends o s =>
    cases o with
    | normal =>
      obtain ⟨t, ht, hrest⟩ := h
      exact ⟨t, ht, (hreach.trans hrest).mono (Nat.zero_le _)⟩
    | ret v =>
      obtain ⟨d, hd, hrest⟩ := h
      exact ⟨d, hd, (hreach.trans hrest).mono (Nat.zero_le _)⟩
    | brk | cont | fall =>
      obtain ⟨rest, t, hexit, ht, hrest⟩ := h
      exact ⟨rest, t, hexit, ht, (hreach.trans hrest).mono (Nat.le_add_left _ _)⟩

theorem mono (h : M.Follows prog ob n exits post a r) (hle : m ≤ n) :
    M.Follows prog ob m exits post a r := by
  cases r with
  | timeout =>
    obtain ⟨d, hrest⟩ := h
    exact ⟨d, hrest.mono hle⟩
  | trap => exact h
  | ends o s => cases o <;> exact h

theorem after_zero (hreach : M.Reaches prog m a b) (h : M.Follows prog ob n exits post b r) :
    M.Follows prog ob n exits post a r :=
  (h.after hreach).mono (Nat.le_add_left _ _)

theorem andThen {mid : List ι} (h : M.Follows prog ob n exits mid a r) {next : σ → Result σ ρ}
    (hnext : ∀ s t, ob.rel s t → M.Follows prog ob n exits post (mid, t) (next s)) :
    M.Follows prog ob n exits post a (r.andThen next) := by
  cases r with
  | trap | timeout => exact h
  | ends o s =>
    cases o with
    | normal =>
      obtain ⟨t, ht, hreach⟩ := h
      exact (hnext s t ht).after_zero hreach
    | _ => exact h

/-- What comes after a statement that is not left. -/
theorem never {post' : List ι} (h : M.Follows prog ob n exits post a r)
    (hno : ∀ t, ¬M.Reaches prog 0 a (post, t)) (next : σ → Result σ ρ) :
    M.Follows prog ob n exits post' a (r.andThen next) := by
  cases r with
  | trap | timeout => exact h
  | ends o s =>
    cases o with
    | normal =>
      obtain ⟨t, -, hreach⟩ := h
      exact absurd hreach (hno t)
    | _ => exact h

end Follows

namespace Simulates

variable {piece piece' : List ι} {exec exec' : σ → Result σ ρ}

theorem nil : M.Simulates prog ob n exits [] (.ends .normal : σ → Result σ ρ) :=
  fun post _ _ t hst => ⟨t, hst, .refl (post, t)⟩

theorem append (h : M.Simulates prog ob n exits piece exec)
    (h' : M.Simulates prog ob n exits piece' exec') :
    M.Simulates prog ob n exits (piece ++ piece') fun s => (exec s).andThen exec' := by
  intro post hpost s t hst
  rw [List.append_assoc] at hpost ⊢
  exact (h (piece' ++ post) hpost s t hst).andThen
    (h' post ((List.suffix_append piece _).trans hpost))

theorem congr (h : M.Simulates prog ob n exits piece exec) (heq : ∀ s, exec' s = exec s) :
    M.Simulates prog ob n exits piece exec' := by
  intro post hpost s t hst
  rw [heq]
  exact h post hpost s t hst

/-- A label behind a piece. -/
theorem mark {i : ι} {l : lam} (h : M.Simulates prog ob n exits piece exec) (hi : M.Marks i l) :
    M.Simulates prog ob n exits (piece ++ [i]) exec := by
  have hlabel : M.Simulates prog ob n exits [i] (.ends .normal : σ → Result σ ρ) :=
    fun post _ s t hst => ⟨t, hst, (Reaches.fall (hi.2 t)).mono (Nat.zero_le 1)⟩
  exact (h.append hlabel).congr fun s => (exec s).andThen_ends.symm

end Simulates

theorem Marks.find {i : ι} {is : List ι} {l : lam} (hi : M.Marks i l) (hunique : M.Unique prog)
    (h : i :: is <:+ prog) : M.find l prog = some is := find_of_suffix hunique hi.1 h

/-! ## Branches -/

/-- What a test sends to one of two places. -/
theorem Decides.branch {yes no : List ι} {test : Option (Bool × σ)} {exec exec' : σ → Result σ ρ}
    (h : M.Decides prog ob a yes no test)
    (hyes : ∀ s t, ob.rel s t → M.Follows prog ob n exits post (yes, t) (exec s))
    (hno : ∀ s t, ob.rel s t → M.Follows prog ob n exits post (no, t) (exec' s)) :
    M.Follows prog ob n exits post a (.branch test exec exec') := by
  match test, h with
  | none, h => exact h
  | some (true, s), ⟨t, hst, hreach⟩ => exact (hyes s t hst).after_zero hreach
  | some (false, s), ⟨t, hst, hreach⟩ => exact (hno s t hst).after_zero hreach

/-- Where the test does not hold the run goes on. -/
theorem Decides.goes_on {yes no no' : List ι} {test : Option (Bool × σ)}
    (h : M.Decides prog ob a yes no test) (hno : ∀ t, M.Reaches prog 0 (no, t) (no', t)) :
    M.Decides prog ob a yes no' test := by
  match test, h with
  | none, h | some (true, _), h => exact h
  | some (false, s), ⟨t, hst, hreach⟩ => exact ⟨t, hst, hreach.trans (hno t)⟩

namespace Simulates

variable {piece thn els : List ι} {i j k : ι} {l l' : lam} {test : σ → Option (Bool × σ)}
  {exec exec' : σ → Result σ ρ}

/-- A jump over a statement. -/
theorem skipIf (hunique : M.Unique prog) (htest : M.Tests prog ob piece l test)
    (hthn : M.Simulates prog ob n exits thn exec) (hi : M.Marks i l) :
    M.Simulates prog ob n exits (piece ++ (thn ++ [i])) fun s =>
      .branch (test s) (.ends .normal) exec := by
  intro post hpost s t hst
  rw [List.append_assoc] at hpost ⊢
  have hrest : thn ++ [i] ++ post <:+ prog := (List.suffix_append piece _).trans hpost
  have hlabel : i :: post <:+ prog := by
    rw [List.append_assoc] at hrest
    exact (List.suffix_append thn _).trans hrest
  exact (htest _ hpost post (hi.find hunique hlabel) s t hst).branch
    (fun s t hst => ⟨t, hst, .refl _⟩) (hthn.mark hi post hrest)

/-- A jump to one of two statements. -/
theorem skipIfElse (hunique : M.Unique prog) (htest : M.Tests prog ob piece l test)
    (hthn : M.Simulates prog ob n exits thn exec)
    (hels : M.Simulates prog ob n exits (els ++ [k]) exec')
    (hi : M.Jumps i l') (hj : M.Marks j l) (hk : M.Marks k l') :
    M.Simulates prog ob n exits (piece ++ (thn ++ (i :: j :: (els ++ [k])))) fun s =>
      .branch (test s) exec' exec := by
  intro post hpost s t hst
  rw [List.append_assoc] at hpost ⊢
  have hrest : thn ++ (i :: j :: (els ++ [k])) ++ post <:+ prog :=
    (List.suffix_append piece _).trans hpost
  rw [List.append_assoc] at hpost hrest ⊢
  have hgoto : i :: j :: (els ++ [k] ++ post) <:+ prog :=
    (List.suffix_append thn _).trans hrest
  have helse : j :: (els ++ [k] ++ post) <:+ prog := (List.suffix_cons i _).trans hgoto
  have helse' : els ++ [k] ++ post <:+ prog := (List.suffix_cons j _).trans helse
  have hend : k :: post <:+ prog := by
    rw [List.append_assoc] at helse'
    exact (List.suffix_append els _).trans helse'
  refine (htest _ hpost _ (hj.find hunique helse) s t hst).branch (hels post helse') ?_
  intro s t hst
  have hthen := hthn _ hrest s t hst
  have hskip : M.Follows prog ob n exits post _ ((exec s).andThen (.ends .normal)) :=
    hthen.andThen fun s t hst =>
      ⟨t, hst, (Reaches.jump (hi t) (hk.find hunique hend)).mono (Nat.zero_le 1)⟩
  rwa [Result.andThen_ends] at hskip

end Simulates

/-! ## Loops -/

/-- A turn of a loop: `again` is where the next one begins, and `next` is behind the body, a step
before it. -/
theorem Follows.turn {again next : List ι} {exec : σ → Result σ ρ}
    (h : M.Follows prog ob n ⟨some post, some again, exits.fall⟩ next a r)
    (hnext : ∀ t, M.Reaches prog 1 (next, t) (again, t)) (hm : m + 1 ≤ n)
    (hagain : ∀ s t, ob.rel s t → M.Follows prog ob m exits post (again, t) (exec s)) :
    M.Follows prog ob (m + 1) exits post a (r.turn exec) := by
  cases r with
  | trap => exact h
  | timeout => exact h.mono hm
  | ends o s =>
    cases o with
    | normal =>
      obtain ⟨t, hst, hreach⟩ := h
      exact ((hagain s t hst).after (hreach.trans (hnext t))).mono (by omega)
    | cont =>
      obtain ⟨rest, t, hrest, hst, hreach⟩ := h
      cases hrest
      exact ((hagain s t hst).after hreach).mono (by omega)
    | brk =>
      obtain ⟨rest, t, hrest, hst, hreach⟩ := h
      cases hrest
      exact ⟨t, hst, hreach.mono (Nat.zero_le 1)⟩
    | fall | ret => exact h

/-- The run of a loop: `again` is where its test is made, and `start` is its body. -/
theorem Follows.loop {again start next : List ι} {test : σ → Option (Bool × σ)}
    {body : σ → Result σ ρ}
    (htest : ∀ s t, ob.rel s t → M.Decides prog ob (again, t) start post (test s))
    (hbody : ∀ s t, ob.rel s t →
      M.Follows prog ob n ⟨some post, some again, exits.fall⟩ next (start, t) (body s))
    (hnext : ∀ t, M.Reaches prog 1 (next, t) (again, t)) (hm : m ≤ n) (s : σ) (t : τ)
    (hst : ob.rel s t) : M.Follows prog ob m exits post (again, t) (.loop test body m s) := by
  induction m generalizing s t with
  | zero => exact ⟨_, .refl _⟩
  | succ m ih =>
    refine (htest s t hst).branch (fun s t hst => ?_) fun s t hst => ⟨t, hst, .refl _⟩
    exact (hbody s t hst).turn hnext hm fun s t hst => ih (Nat.le_of_succ_le hm) s t hst

/-! ## Switches -/

/-- A body of a switch: `mid` is behind it, from where the switch is left, and `fallen` is the next
body. -/
theorem Follows.orFall {mid fallen : List ι} {exec : σ → Result σ ρ}
    (h : M.Follows prog ob n ⟨some post, exits.cont, some fallen⟩ mid a r)
    (hmid : ∀ t, M.Reaches prog 0 (mid, t) (post, t))
    (hfall : ∀ s t, ob.rel s t → M.Follows prog ob n exits post (fallen, t) (exec s)) :
    M.Follows prog ob n exits post a (r.orFall exec) := by
  cases r with
  | trap | timeout => exact h
  | ends o s =>
    cases o with
    | normal =>
      obtain ⟨t, hst, hreach⟩ := h
      exact ⟨t, hst, hreach.trans (hmid t)⟩
    | brk =>
      obtain ⟨rest, t, hrest, hst, hreach⟩ := h
      cases hrest
      exact ⟨t, hst, hreach.mono (Nat.zero_le 1)⟩
    | fall =>
      obtain ⟨rest, t, hrest, hst, hreach⟩ := h
      cases hrest
      exact (hfall s t hst).after_zero hreach
    | cont | ret => exact h

/-! ## Whole runs -/

/-- Behind the last instruction there is no run to where it ends the run. -/
theorem not_reaches_end {i : ι} (hlast : prog.getLast? = some i) (hlabel : M.label i = none)
    (heffect : ∀ t, M.effect i t = none) (ha : a.1 <:+ prog) (hne : a.1 ≠ []) (t : τ) :
    ¬M.Reaches prog n a ([], t) := by
  have hend : ∀ j, [j] <:+ prog → j = i := by
    rintro j ⟨pre, rfl⟩
    rw [List.getLast?_concat] at hlast
    exact Option.some.inj hlast
  rintro ⟨m, -, hrun⟩
  induction m generalizing a with
  | zero =>
    cases hrun
    exact hne rfl
  | succ m ih =>
    obtain ⟨is, s⟩ := a
    cases is with
    | nil => exact hne rfl
    | cons j js =>
      obtain ⟨b, hstep, hrest⟩ := Option.bind_eq_some_iff.mp hrun
      have hnext : b.1 <:+ prog ∧ b.1 ≠ [] := by
        rw [step] at hstep
        split at hstep
        · cases hstep
        · next s' hfall =>
          cases hstep
          refine ⟨(List.suffix_cons j js).trans ha, fun hnil => ?_⟩
          obtain rfl : js = [] := hnil
          rw [hend j ha, heffect] at hfall
          cases hfall
        · next l s' hjump =>
          obtain ⟨rest, hfind, rfl⟩ := Option.map_eq_some_iff.mp hstep
          obtain ⟨k, hk, hsuffix⟩ := find_suffix hfind
          refine ⟨(List.suffix_cons k rest).trans hsuffix, fun hnil => ?_⟩
          obtain rfl : rest = [] := hnil
          rw [hend k hsuffix, hlabel] at hk
          cases hk
      exact ih hnext.1 hnext.2 hrest

/-- A run stops where it returns or is stuck, and there is no doubt which. -/
structure Observes (M : Machine ι lam τ) (prog : List ι) (ob : Observer ι σ τ ρ) : Prop where
  returns : ∀ {v s b}, ob.returns v s b → M.step prog b = none
  stuck : ∀ {b}, ob.stuck b → M.step prog b = none

section Whole

variable {r : Nat → Result σ ρ} (hob : M.Observes prog ob)
  (h : ∀ n, M.Follows prog ob n ⟨none, none, none⟩ post a (r n))
  (hnormal : ∀ n s, r n ≠ .ends .normal s)

include hob h hnormal

/-- A result that is no timeout says where the run stops. -/
theorem Follows.stops (n : Nat) : r n = .timeout ∨ ∃ b, M.step prog b = none ∧
    M.Reaches prog 0 a b ∧
      ((∃ v s, r n = .ends (.ret v) s ∧ ob.returns v s b) ∨ (r n = .trap ∧ ob.stuck b)) := by
  have hn := h n
  cases hr : r n with
  | timeout => exact .inl rfl
  | trap =>
    rw [hr] at hn
    obtain ⟨b, hb, hreach⟩ := hn
    exact .inr ⟨b, hob.stuck hb, hreach, .inr ⟨rfl, hb⟩⟩
  | ends o s =>
    rw [hr] at hn
    cases o with
    | normal => exact absurd hr (hnormal n s)
    | ret v =>
      obtain ⟨b, hb, hreach⟩ := hn
      exact .inr ⟨b, hob.returns hb, hreach, .inl ⟨v, s, rfl, hb⟩⟩
    | brk | cont | fall =>
      obtain ⟨rest, t, hexit, -⟩ := hn
      cases hexit

/-- Where the run stops, enough turns have this as their result. -/
theorem Follows.of_stop (hreach : M.Reaches prog 0 a b) (hb : M.step prog b = none) :
    ∃ n, (∃ v s, r n = .ends (.ret v) s ∧ ob.returns v s b) ∨ (r n = .trap ∧ ob.stuck b) := by
  have hstop := hreach
  obtain ⟨m, -, hrun⟩ := hreach
  refine ⟨m + 1, ?_⟩
  obtain htime | ⟨b', hb', hreach', hresult⟩ := Follows.stops hob h hnormal (m + 1)
  · have hmore := h (m + 1)
    rw [htime] at hmore
    obtain ⟨d, k, hk, hlong⟩ := hmore
    rw [run_of_step_none hrun hb hk] at hlong
    cases hlong
  · rwa [hstop.unique hreach' hb hb']

/-- The run goes on forever when every number of turns is too small. -/
theorem Follows.diverges_iff : (∀ n, ∃ b, M.Reaches prog n a b) ↔ ∀ n, r n = .timeout := by
  constructor
  · intro hall n
    obtain htime | ⟨b, hb, ⟨m, -, hrun⟩, -⟩ := Follows.stops hob h hnormal n
    · exact htime
    · obtain ⟨d, k, hk, hlong⟩ := hall (m + 1)
      rw [run_of_step_none hrun hb hk] at hlong
      cases hlong
  · intro hall n
    have hn := h n
    rw [hall n] at hn
    exact hn

end Whole

/-! ## Code that jumps forwards and is stuck -/

/-- A piece that no jump leaves and that does not run to its end is stuck inside. -/
theorem stuck_of_forward (hunique : M.Unique prog) {piece : List ι} (hclosed : M.Closed piece)
    {t : τ} (h : M.forward piece (none, t) = none) (hpost : piece ++ post <:+ prog) :
    ∃ i is t', i ∈ piece ∧ M.effect i t' = none ∧
      M.Reaches prog 0 (piece ++ post, t) (i :: is, t') := by
  have hfold : ∀ (piece : List ι) (target : Option lam) (t : τ),
      piece.foldlM M.pass (target, t) = none → piece ++ post <:+ prog →
      ∃ rest, target.elim (some (piece ++ post)) (M.find · prog) = some rest ∧
        ∃ i is t', i ∈ piece ∧ M.effect i t' = none ∧ M.Reaches prog 0 (rest, t) (i :: is, t') := by
    intro piece
    induction piece with
    | nil =>
      intro target t h _
      cases h
    | cons i is ih =>
      intro target t h hpost
      have hrest : is ++ post <:+ prog := (List.suffix_cons i _).trans hpost
      rw [List.foldlM_cons] at h
      cases target with
      | none =>
        refine ⟨_, rfl, ?_⟩
        cases heffect : M.effect i t with
        | none => exact ⟨i, is ++ post, t, List.mem_cons_self, heffect, .refl _⟩
        | some next =>
          cases next with
          | fall t₁ =>
            rw [pass_fall heffect] at h
            obtain ⟨rest, hfind, j, js, t', hj, hstuck, hreach⟩ := ih none t₁ h hrest
            rw [← Option.some.inj hfind] at hreach
            exact ⟨j, js, t', List.mem_cons_of_mem i hj, hstuck,
              ((Reaches.fall heffect).trans hreach).mono (Nat.zero_le _)⟩
          | jump l t₁ =>
            rw [pass_jump heffect] at h
            obtain ⟨rest, hfind, j, js, t', hj, hstuck, hreach⟩ := ih (some l) t₁ h hrest
            exact ⟨j, js, t', List.mem_cons_of_mem i hj, hstuck,
              ((Reaches.jump heffect hfind).trans hreach).mono (Nat.zero_le _)⟩
      | some l =>
        have hpass : M.pass (some l, t) i = some (if M.label i = some l then none else some l, t) :=
          rfl
        rw [hpass] at h
        change is.foldlM M.pass (if M.label i = some l then none else some l, t) = none at h
        split at h
        · next hl =>
          obtain ⟨rest, hfind, j, js, t', hj, hstuck, hreach⟩ := ih none t h hrest
          rw [← Option.some.inj hfind] at hreach
          exact ⟨_, find_of_suffix hunique hl hpost, j, js, t', List.mem_cons_of_mem i hj, hstuck,
            hreach⟩
        · obtain ⟨rest, hfind, j, js, t', hj, hstuck, hreach⟩ := ih (some l) t h hrest
          exact ⟨rest, hfind, j, js, t', List.mem_cons_of_mem i hj, hstuck, hreach⟩
  have hnone : piece.foldlM M.pass (none, t) = none := by
    cases hpiece : piece.foldlM M.pass (none, t) with
    | none => rfl
    | some a =>
      obtain ⟨target, t'⟩ := a
      obtain rfl : target = none := hclosed t _ hpiece
      rw [forward, hpiece] at h
      cases h
  obtain ⟨rest, hrest, hstuck⟩ := hfold piece none t hnone hpost
  cases hrest
  exact hstuck

end Machine

end FlatCode
