import OneJit.Semantics

/-!
# Expressions with calls

Operands are evaluated from left to right, a call reads and writes the memory and whatever else
it has seen of the calls before it, and it cannot get at the variables. `run` has the value of
`eval` where nothing is called.
-/

namespace OneJit

/-- What calls share: the memory, and the calls that were made, with the kind of their result and
the values of the callee and of the arguments. -/
structure Heap where
  mem : BitVec 64 → BitVec 8
  calls : List (Kind × List (BitVec 64))

/-- The code outside of the function: the addresses of labels, and the result of a call with the
memory that it leaves. -/
structure Host where
  label : BitVec 16 → BitVec 64
  call : Kind → List (BitVec 64) → Heap → BitVec 64 × (BitVec 64 → BitVec 8)

/-- The variables, read through the kind of their node. -/
abbrev Vars := Kind → Nat → BitVec 64

namespace Host

variable (w : Host)

/-- A call, with its result in the form of its kind. -/
def invoke (k : Kind) (vs : List (BitVec 64)) (h : Heap) : BitVec 64 × Heap :=
  (k.wrap (w.call k vs h).1, ⟨(w.call k vs h).2, h.calls ++ [(k, vs)]⟩)

/-- The valuation of an expression that does not call. -/
def valuation (ρ : Vars) (h : Heap) : Valuation := ⟨ρ, h.mem, w.label, fun _ _ => 0⟩

end Host

/-- `OpN` on the values of its operands. -/
def OpN.runApply (op : OpN) (w : Host) (k : Kind) (vs : List (BitVec 64)) (h : Heap) :
    Option (BitVec 64 × Heap) :=
  match op with
  | .call => some (w.invoke k vs h)
  | _ => (op.apply (w.valuation (fun _ _ => 0) h) k vs).map (·, h)

namespace Expr

mutual

/-- The value of an expression and what its calls leave. -/
def run (w : Host) (ρ : Vars) : Expr → Heap → Option (BitVec 64 × Heap)
  | .none, _ => Option.none
  | .const v _, h => some (v.meaning, h)
  | .var k id, h => some (k.wrap (ρ k id), h)
  | .label index _, h => some (w.label index, h)
  | .ftype _ _, h => some (0, h)
  | .mem k args _, h => do
    let (vs, h) ← runList w ρ args h
    some (k.wrap (loadBytes h.mem vs.sum k.bytes), h)
  | .unary k op x _, h => do
    let (a, h) ← run w ρ x h
    (k.evalUnary op a).map (·, h)
  | .binary _ op x y _, h => do
    let (a, h) ← run w ρ x h
    if op.decidedBy a then (x.valueKind.evalBinary op a 0).map (·, h)
    else
      let (b, h) ← run w ρ y h
      (x.valueKind.evalBinary op a b).map (·, h)
  | .tuple k op args _, h => do
    let (vs, h) ← runList w ρ args h
    op.runApply w k vs h

def runList (w : Host) (ρ : Vars) : List Expr → Heap → Option (List (BitVec 64) × Heap)
  | [], h => some ([], h)
  | x :: xs, h => do
    let (a, h) ← run w ρ x h
    let (vs, h) ← runList w ρ xs h
    some (a :: vs, h)

end

mutual

/-- There is a call in the expression. -/
def hasCall : Expr → Bool
  | unary _ _ x _ => hasCall x
  | binary _ _ x y _ => hasCall x || hasCall y
  | mem _ args _ => hasCallList args
  | tuple _ op args _ => op == .call || hasCallList args
  | _ => false

def hasCallList : List Expr → Bool
  | [] => false
  | x :: xs => hasCall x || hasCallList xs

end

mutual

/-- The identifiers of the variables are less than this. -/
def varsBelow (n : Nat) : Expr → Bool
  | var _ id => id < n
  | unary _ _ x _ => varsBelow n x
  | binary _ _ x y _ => varsBelow n x && varsBelow n y
  | mem _ args _ => varsBelowList n args
  | tuple _ _ args _ => varsBelowList n args
  | _ => true

def varsBelowList (n : Nat) : List Expr → Bool
  | [] => true
  | x :: xs => varsBelow n x && varsBelowList n xs

end

mutual

/-- The variable is read. -/
def usesVar (k : Kind) (id : Nat) : Expr → Bool
  | var k' id' => k' == k && id' == id
  | unary _ _ x _ => usesVar k id x
  | binary _ _ x y _ => usesVar k id x || usesVar k id y
  | mem _ args _ => usesVarAny k id args
  | tuple _ _ args _ => usesVarAny k id args
  | _ => false

def usesVarAny (k : Kind) (id : Nat) : List Expr → Bool
  | [] => false
  | x :: xs => usesVar k id x || usesVarAny k id xs

end

end Expr

/-- The variables with an identifier below the bound are the same. Those of kind `Void` hold
nothing. -/
def AgreeBelow (n : Nat) (ρ ρ' : Vars) : Prop := ∀ k id, k ≠ .void → id < n → ρ k id = ρ' k id

namespace AgreeBelow

variable {n m : Nat} {ρ ρ' ρ'' : Vars}

theorem refl (n : Nat) (ρ : Vars) : AgreeBelow n ρ ρ := fun _ _ _ _ => rfl

theorem trans (h : AgreeBelow n ρ ρ') (h' : AgreeBelow n ρ' ρ'') : AgreeBelow n ρ ρ'' :=
  fun k id hk hid => (h k id hk hid).trans (h' k id hk hid)

theorem mono (h : AgreeBelow n ρ ρ') (hm : m ≤ n) : AgreeBelow m ρ ρ' :=
  fun k id hk hid => h k id hk (hid.trans_le hm)

end AgreeBelow

namespace Expr

variable {w : Host} {ρ ρ' : Vars}

section Steps

attribute [local simp] run runList

theorem run_unary {k : Kind} {op : Op1} {x : Expr} {p : Place} {h h' : Heap} {v : BitVec 64} :
    run w ρ (unary k op x p) h = some (v, h') ↔
      ∃ a, run w ρ x h = some (a, h') ∧ k.evalUnary op a = some v := by
  rw [run]
  cases run w ρ x h with
  | none => simp
  | some r =>
    obtain ⟨a, h₁⟩ := r
    simp only [Option.bind_eq_bind, Option.bind_some, Option.map_eq_some_iff, Prod.mk.injEq,
      Option.some.injEq]
    constructor
    · rintro ⟨v', hv, rfl, rfl⟩
      exact ⟨a, ⟨rfl, rfl⟩, hv⟩
    · rintro ⟨a', ⟨rfl, rfl⟩, hv⟩
      exact ⟨v, hv, rfl, rfl⟩

theorem runList_cons {x : Expr} {xs : List Expr} {h h' : Heap} {vs : List (BitVec 64)} :
    runList w ρ (x :: xs) h = some (vs, h') ↔
      ∃ a h₁ ws, run w ρ x h = some (a, h₁) ∧ runList w ρ xs h₁ = some (ws, h') ∧
        vs = a :: ws := by
  rw [runList]
  cases run w ρ x h with
  | none => simp
  | some r =>
    obtain ⟨a, h₁⟩ := r
    cases hxs : runList w ρ xs h₁ with
    | none => simp [hxs]
    | some r' =>
      obtain ⟨ws, h₂⟩ := r'
      simp only [Option.bind_eq_bind, Option.bind_some, hxs, Option.some.injEq, Prod.mk.injEq]
      constructor
      · rintro ⟨rfl, rfl⟩
        exact ⟨a, h₁, ws, ⟨rfl, rfl⟩, hxs, rfl⟩
      · rintro ⟨a', h', ws', ⟨rfl, rfl⟩, hws, rfl⟩
        rw [hxs] at hws
        cases hws
        exact ⟨rfl, rfl⟩

theorem run_tuple {k : Kind} {op : OpN} {xs : List Expr} {p : Place} {h h' : Heap}
    {v : BitVec 64} :
    run w ρ (tuple k op xs p) h = some (v, h') ↔
      ∃ vs h₁, runList w ρ xs h = some (vs, h₁) ∧ op.runApply w k vs h₁ = some (v, h') := by
  rw [run]
  cases runList w ρ xs h with
  | none => simp
  | some r =>
    obtain ⟨vs, h₁⟩ := r
    simp only [Option.bind_eq_bind, Option.bind_some, Option.some.injEq, Prod.mk.injEq]
    constructor
    · intro happly
      exact ⟨vs, h₁, ⟨rfl, rfl⟩, happly⟩
    · rintro ⟨vs', h₂, ⟨rfl, rfl⟩, happly⟩
      exact happly

theorem run_mem {k : Kind} {xs : List Expr} {p : Place} {h h' : Heap} {v : BitVec 64} :
    run w ρ (mem k xs p) h = some (v, h') ↔
      ∃ vs, runList w ρ xs h = some (vs, h') ∧ v = k.wrap (loadBytes h'.mem vs.sum k.bytes) := by
  rw [run]
  cases runList w ρ xs h with
  | none => simp
  | some r =>
    obtain ⟨vs, h₁⟩ := r
    simp only [Option.bind_eq_bind, Option.bind_some, Option.some.injEq, Prod.mk.injEq]
    constructor
    · rintro ⟨rfl, rfl⟩
      exact ⟨vs, ⟨rfl, rfl⟩, rfl⟩
    · rintro ⟨vs', ⟨rfl, rfl⟩, rfl⟩
      exact ⟨rfl, rfl⟩

/-- An operand that decides ends the evaluation; the other one is evaluated after it. -/
theorem run_binary {k : Kind} {op : Op2} {x y : Expr} {p : Place} {h h' : Heap} {v : BitVec 64} :
    run w ρ (binary k op x y p) h = some (v, h') ↔
      ∃ a h₁, run w ρ x h = some (a, h₁) ∧
        ((op.decidedBy a ∧ h' = h₁ ∧ x.valueKind.evalBinary op a 0 = some v) ∨
          (op.decidedBy a = false ∧
            ∃ b, run w ρ y h₁ = some (b, h') ∧ x.valueKind.evalBinary op a b = some v)) := by
  rw [run]
  cases run w ρ x h with
  | none => simp
  | some r =>
    obtain ⟨a, h₁⟩ := r
    simp only [Option.bind_eq_bind, Option.bind_some, Option.some.injEq, Prod.mk.injEq]
    cases hdec : op.decidedBy a with
    | true =>
      rw [if_pos rfl, Option.map_eq_some_iff]
      constructor
      · rintro ⟨v', hv, heq⟩
        cases heq
        exact ⟨a, _, ⟨rfl, rfl⟩, .inl ⟨hdec, rfl, hv⟩⟩
      · rintro ⟨a', h₂, ⟨rfl, rfl⟩, ⟨-, rfl, hv⟩ | ⟨hno, -⟩⟩
        · exact ⟨v, hv, rfl⟩
        · rw [hdec] at hno
          cases hno
    | false =>
      rw [if_neg Bool.false_ne_true]
      constructor
      · intro hrun
        obtain ⟨⟨b, h₂⟩, hb, hrun⟩ := Option.bind_eq_some_iff.mp hrun
        obtain ⟨v', hv, heq⟩ := Option.map_eq_some_iff.mp hrun
        cases heq
        exact ⟨a, h₁, ⟨rfl, rfl⟩, .inr ⟨hdec, b, hb, hv⟩⟩
      · rintro ⟨a', h₂, ⟨rfl, rfl⟩, ⟨hyes, -⟩ | ⟨-, b, hb, hv⟩⟩
        · rw [hdec] at hyes
          cases hyes
        · refine Option.bind_eq_some_iff.mpr ⟨(b, h'), hb, ?_⟩
          exact Option.map_eq_some_iff.mpr ⟨v, hv, rfl⟩

end Steps

/-- Only the variables that are read matter. -/
theorem run_congr_on (e : Expr)
    (hagree : ∀ k id, e.usesVar k id → k ≠ .void → ρ k id = ρ' k id) (h : Heap) :
    run w ρ e h = run w ρ' e h := by
  have hlist : ∀ xs : List Expr,
      (∀ k id, usesVarAny k id xs → k ≠ .void → ρ k id = ρ' k id) →
      (∀ x ∈ xs, (∀ k id, x.usesVar k id → k ≠ .void → ρ k id = ρ' k id) →
        ∀ h, run w ρ x h = run w ρ' x h) →
      ∀ h, runList w ρ xs h = runList w ρ' xs h := by
    intro xs
    induction xs with
    | nil => exact fun _ _ _ => rfl
    | cons x xs ih =>
      intro hxs hrun h
      rw [List.forall_mem_cons] at hrun
      have hx := hrun.1 fun k id huse => hxs k id (by rw [usesVarAny, huse, Bool.true_or])
      have hrest := ih (fun k id huse => hxs k id (by rw [usesVarAny, huse, Bool.or_true])) hrun.2
      rw [runList, runList, hx]
      simp only [hrest]
  induction e using Expr.induct generalizing h with
  | hnone | hconst | hlabel | hftype => rfl
  | hvar k id =>
    rw [run, run]
    by_cases hk : k = .void
    · have hvoid : ∀ b, Kind.wrap .void b = 0 := by
        intro b
        rw [Kind.wrap, if_neg (by decide)]
        have hb : b.setWidth Kind.void.bitsize = 0#0 := BitVec.eq_nil _
        rw [hb]
        rfl
      subst hk
      rw [hvoid, hvoid]
    · rw [hagree k id (by simp [usesVar]) hk]
  | hmem k args p ih =>
    rw [run, run, hlist args hagree fun x hx hb h => ih x hx hb h]
  | hunary k op x p ih =>
    rw [run, run, ih hagree]
  | hbinary k op x y p ihx ihy =>
    have hy := ihy fun k id huse => hagree k id (by rw [usesVar, huse, Bool.or_true])
    rw [run, run, ihx fun k id huse => hagree k id (by rw [usesVar, huse, Bool.true_or])]
    simp only [hy]
  | htuple k op args p ih =>
    rw [run, run, hlist args hagree fun x hx hb h => ih x hx hb h]

/-- What is read is below the bound. -/
theorem varsBelow_usesVar {n : Nat} (e : Expr) (he : e.varsBelow n) {k : Kind} {id : Nat}
    (huse : e.usesVar k id) : id < n := by
  have hlist : ∀ xs : List Expr, varsBelowList n xs → usesVarAny k id xs →
      (∀ x ∈ xs, x.varsBelow n → x.usesVar k id → id < n) → id < n := by
    intro xs
    induction xs with
    | nil =>
      intro _ huse _
      cases huse
    | cons x xs ih =>
      intro hxs huse hall
      rw [varsBelowList, Bool.and_eq_true] at hxs
      rw [usesVarAny, Bool.or_eq_true] at huse
      rw [List.forall_mem_cons] at hall
      exact huse.elim (hall.1 hxs.1) fun huse => ih hxs.2 huse hall.2
  induction e using Expr.induct with
  | hnone | hconst | hlabel | hftype => cases huse
  | hvar k' id' =>
    rw [usesVar, Bool.and_eq_true, beq_iff_eq, beq_iff_eq] at huse
    rw [← huse.2]
    exact of_decide_eq_true he
  | hmem k' args p ih | htuple k' op args p ih => exact hlist args he huse ih
  | hunary k' op x p ih => exact ih he huse
  | hbinary k' op x y p ihx ihy =>
    rw [varsBelow, Bool.and_eq_true] at he
    rw [usesVar, Bool.or_eq_true] at huse
    exact huse.elim (ihx he.1) (ihy he.2)

/-- Only the variables below the bound matter. -/
theorem run_congr {n : Nat} (hagree : AgreeBelow n ρ ρ') (e : Expr) (he : e.varsBelow n)
    (h : Heap) : run w ρ e h = run w ρ' e h :=
  run_congr_on e (fun k id huse hk => hagree k id hk (varsBelow_usesVar e he huse)) h

/-! ## Values of typed expressions -/

theorem hasCallList_eq_false {xs : List Expr} :
    hasCallList xs = false ↔ ∀ x ∈ xs, x.hasCall = false := by
  induction xs with
  | nil => simp [hasCallList]
  | cons x xs ih => simp [hasCallList, ih]

theorem runList_forall {P : BitVec 64 → Prop} {xs : List Expr} {h h' : Heap}
    {vs : List (BitVec 64)}
    (hxs : ∀ x ∈ xs, ∀ h h' v, run w ρ x h = some (v, h') → P v)
    (hvs : runList w ρ xs h = some (vs, h')) : ∀ v ∈ vs, P v := by
  induction xs generalizing h vs with
  | nil =>
    cases hvs
    nofun
  | cons x xs ih =>
    obtain ⟨a, h₁, ws, ha, hws, rfl⟩ := runList_cons.mp hvs
    rw [List.forall_mem_cons] at hxs ⊢
    exact ⟨hxs.1 h h₁ a ha, ih hxs.2 hws⟩

theorem runList_getLast {xs : List Expr} {h h' : Heap} {vs : List (BitVec 64)} {v : BitVec 64}
    (hvs : runList w ρ xs h = some (vs, h')) (hv : vs.getLast? = some v) :
    ∃ x h₁, xs.getLast? = some x ∧ run w ρ x h₁ = some (v, h') := by
  induction xs generalizing h vs with
  | nil =>
    cases hvs
    cases hv
  | cons x xs ih =>
    obtain ⟨a, h₁, ws, ha, hws, rfl⟩ := runList_cons.mp hvs
    cases xs with
    | nil =>
      cases hws
      cases hv
      exact ⟨x, h, rfl, ha⟩
    | cons y ys =>
      obtain ⟨b, h₂, us, hb, hus, rfl⟩ := runList_cons.mp hws
      rw [List.getLast?_cons_cons] at hv
      obtain ⟨z, h₃, hz, hrun⟩ := ih hws hv
      exact ⟨z, h₃, by rwa [List.getLast?_cons_cons], hrun⟩

/-- An operator other than a call computes what `apply` does. -/
theorem runApply_eq {op : OpN} (hop : op ≠ .call) (k : Kind) (vs : List (BitVec 64)) (h : Heap)
    (ρ : Vars) : op.runApply w k vs h = (op.apply (w.valuation ρ h) k vs).map (·, h) := by
  cases op <;> first | rfl | exact absurd rfl hop

/-- An n-ary operator has a value in the form of its kind when its operands do. -/
theorem run_tuple_normal {k : Kind} {op : OpN} {args : List Expr} {p : Place}
    (ht : k.typedN op (args.map valueKind)) (hk : (tuple k op args p).valueKind.isScalar)
    (hargs : ∀ x ∈ args, x.valueKind.isScalar → ∀ h h' v, run w ρ x h = some (v, h') →
      x.valueKind.wrap v = v) {h h' : Heap} {v : BitVec 64}
    (hrun : run w ρ (tuple k op args p) h = some (v, h')) :
    (tuple k op args p).valueKind.wrap v = v := by
  obtain ⟨vs, h₁, hvs, hv⟩ := run_tuple.mp hrun
  by_cases hop : op.isCommutative
  · obtain ⟨hscalar, hkinds⟩ := typedN_commutative hop ht
    have hcomma : op ≠ .comma := fun hc => by rw [hc] at hop; cases hop
    have hcall : op ≠ .call := fun hc => by rw [hc] at hop; cases hop
    rw [valueKind_tuple hcomma]
    have hvalid : ∀ v ∈ vs, k.wrap v = v := by
      refine runList_forall (fun x hx h h' v hxv => ?_) hvs
      have hxk := hkinds x.valueKind (List.mem_map_of_mem hx)
      have hnormal := hargs x hx (hxk ▸ hscalar) h h' v hxv
      rwa [hxk] at hnormal
    rw [runApply_eq hcall k vs h₁ ρ, apply_commutative hop] at hv
    cases hv
    exact (Kind.tupleMonoid k hscalar op hop).valid_fold hvalid
  · cases op with
    | comma =>
      have hcall : OpN.comma ≠ .call := by decide
      rw [runApply_eq hcall k vs h₁ ρ] at hv
      obtain ⟨v', hlast, heq⟩ := Option.map_eq_some_iff.mp hv
      cases heq
      obtain ⟨x, h₂, hx, hxv⟩ := runList_getLast hvs hlast
      have hxk : (tuple k .comma args p).valueKind = x.valueKind := lastKind_eq hx
      rw [hxk] at hk ⊢
      exact hargs x (List.mem_of_getLast? hx) hk h₂ _ _ hxv
    | call =>
      cases hv
      exact Kind.wrap_wrap hk _
    | badN | memOp | mirMem | x86Mem | arm64Mem | mirRets => cases hv
    | _ => exact absurd rfl hop

/-- The value of a typed expression of a scalar kind is in the form of that kind. -/
theorem run_normal (e : Expr) (ht : e.typed) (hk : e.valueKind.isScalar) {h h' : Heap}
    {v : BitVec 64} (hrun : run w ρ e h = some (v, h')) : e.valueKind.wrap v = v := by
  induction e using Expr.induct generalizing h h' v with
  | hnone => cases ht
  | hconst c p =>
    cases hrun
    exact meaning_normal hk
  | hvar k id =>
    cases hrun
    exact Kind.wrap_wrap hk _
  | hlabel i a => cases hk
  | hftype r p => cases hk
  | hmem k args p ih =>
    obtain ⟨vs, -, rfl⟩ := run_mem.mp hrun
    exact Kind.wrap_wrap hk _
  | hunary k op x p ih =>
    simp only [typed, Bool.and_eq_true] at ht
    obtain ⟨a, -, hv⟩ := run_unary.mp hrun
    exact (evalUnary_normal ht.2 hv).2
  | hbinary k op x y p ihx ihy =>
    simp only [typed, Bool.and_eq_true] at ht
    obtain ⟨-, -, hy⟩ := typed2_scalar ht.2
    obtain ⟨a, h₁, -, ⟨-, -, hv⟩ | ⟨-, b, hb, hv⟩⟩ := run_binary.mp hrun
    · exact (evalBinary_normal ht.2 (Kind.wrap_zero hy) hv).2
    · exact (evalBinary_normal ht.2 (ihy ht.1.2 hy hb) hv).2
  | htuple k op args p ih =>
    simp only [typed, Bool.and_eq_true] at ht
    exact run_tuple_normal ht.2 hk
      (fun x hx hxk h h' v => ih x hx ((typedList_iff args).mp ht.1 x hx) hxk) hrun

/-- Without calls, `run` is `eval` with the memory as it is. -/
theorem run_eq_eval (e : Expr) (he : e.hasCall = false) (h : Heap) :
    run w ρ e h = (eval (w.valuation ρ h) e).map (·, h) := by
  have hlist : ∀ xs : List Expr, hasCallList xs = false →
      (∀ x ∈ xs, x.hasCall = false → run w ρ x h = (eval (w.valuation ρ h) x).map (·, h)) →
      runList w ρ xs h = (evalList (w.valuation ρ h) xs).map (·, h) := by
    intro xs
    induction xs with
    | nil => exact fun _ _ => rfl
    | cons x xs ih =>
      intro hxs hrun
      rw [hasCallList, Bool.or_eq_false_iff] at hxs
      rw [List.forall_mem_cons] at hrun
      rw [runList, evalList, hrun.1 hxs.1]
      cases eval (w.valuation ρ h) x with
      | none => rfl
      | some a =>
        have hrest := ih hxs.2 hrun.2
        simp only [Option.map_some, Option.bind_eq_bind, Option.bind_some, hrest]
        cases evalList (w.valuation ρ h) xs <;> rfl
  induction e using Expr.induct with
  | hnone | hconst | hlabel | hftype | hvar => rfl
  | hmem k args p ih =>
    rw [run, eval, hlist args he fun x hx => ih x hx]
    cases evalList (w.valuation ρ h) args <;> rfl
  | hunary k op x p ih =>
    rw [run, eval, ih he]
    cases eval (w.valuation ρ h) x <;> rfl
  | hbinary k op x y p ihx ihy =>
    rw [hasCall, Bool.or_eq_false_iff] at he
    rw [run, eval, ihx he.1]
    cases eval (w.valuation ρ h) x with
    | none => rfl
    | some a =>
      have hy := ihy he.2
      simp only [Option.map_some, Option.bind_eq_bind, Option.bind_some, hy]
      split
      · rfl
      · cases eval (w.valuation ρ h) y <;> rfl
  | htuple k op args p ih =>
    rw [hasCall, Bool.or_eq_false_iff, beq_eq_false_iff_ne] at he
    rw [run, eval, hlist args he.2 fun x hx => ih x hx]
    cases evalList (w.valuation ρ h) args with
    | none => rfl
    | some vs => exact runApply_eq he.1 k vs h ρ

/-- An expression without calls leaves the heap as it is. -/
theorem run_heap {e : Expr} (he : e.hasCall = false) {h h' : Heap} {v : BitVec 64}
    (hrun : run w ρ e h = some (v, h')) : h' = h := by
  rw [run_eq_eval e he] at hrun
  obtain ⟨v', -, heq⟩ := Option.map_eq_some_iff.mp hrun
  cases heq
  rfl

end Expr

end OneJit
