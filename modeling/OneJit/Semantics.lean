import OneJit.Ir
import OneJit.Eval

/-!
# The value of an expression

A valuation gives the variables, the memory and the results of calls; calls depend on their
arguments only. `eval` is undefined where a division by zero or a shift by 64 or more is
evaluated. `Expr.typed` is the domain: Bool, integer and Ptr kinds, used consistently. A `COMMA`
has kind `Void` and the value of its last operand.
-/

namespace OneJit

structure Valuation where
  var : Kind → Nat → BitVec 64
  mem : BitVec 64 → BitVec 8
  label : BitVec 16 → BitVec 64
  call : Kind → List (BitVec 64) → BitVec 64

/-- The little-endian number in `n` bytes of memory. -/
def loadBytes (mem : BitVec 64 → BitVec 8) (addr : BitVec 64) : Nat → BitVec 64
  | 0 => 0
  | n + 1 => (mem addr).setWidth 64 ||| loadBytes mem (addr + 1) n <<< 8

namespace Kind

/-- The bytes that a value takes in memory. -/
def bytes (k : Kind) : Nat := (k.bitsize + 7) / 8

/-- The kinds of the result and the operands of an `OpN` agree. -/
def typedN (k : Kind) (op : OpN) (ks : List Kind) : Bool :=
  match op with
  | .comma => k == .void && !ks.isEmpty
  | .call => true
  | _ => op.isCommutative && k.isScalar && ks.all (· == k)

end Kind

namespace OpN

/-- `OpN` on the values of its operands. -/
def apply (op : OpN) (ρ : Valuation) (k : Kind) (vs : List (BitVec 64)) : Option (BitVec 64) :=
  match op with
  | .comma => vs.getLast?
  | .call => some (k.wrap (ρ.call k vs))
  | _ => if op.isCommutative then some (vs.foldr (k.tupleOp op) (k.tupleUnit op)) else none

end OpN

/-- The first operand of a logical operator decides the result. -/
def Op2.decidedBy (op : Op2) (a : BitVec 64) : Bool :=
  match op with
  | .land => a == 0
  | .lor => a != 0
  | _ => false

namespace Expr

mutual

/-- The kind of the value of an expression: a `COMMA` has the one of its last operand, and a
function type has no value. -/
def valueKind : Expr → Kind
  | .tuple k .comma args _ => lastKind k args
  | .ftype _ _ => .void
  | e => e.kind

def lastKind (k : Kind) : List Expr → Kind
  | [] => k
  | [x] => valueKind x
  | _ :: x :: xs => lastKind k (x :: xs)

end

mutual

/-- The value of an expression, as 64 bits in the form of its kind. -/
def eval (ρ : Valuation) : Expr → Option (BitVec 64)
  | .none => Option.none
  | .const v _ => some v.meaning
  | .var k id => some (k.wrap (ρ.var k id))
  | .label index _ => some (ρ.label index)
  | .ftype _ _ => some 0
  | .mem k args _ => do
    let vs ← evalList ρ args
    some (k.wrap (loadBytes ρ.mem vs.sum k.bytes))
  | .unary k op x _ => do
    let a ← eval ρ x
    k.evalUnary op a
  | .binary _ op x y _ => do
    let a ← eval ρ x
    if op.decidedBy a then x.valueKind.evalBinary op a 0
    else
      let b ← eval ρ y
      x.valueKind.evalBinary op a b
  | .tuple k op args _ => do
    let vs ← evalList ρ args
    op.apply ρ k vs

def evalList (ρ : Valuation) : List Expr → Option (List (BitVec 64))
  | [] => some []
  | x :: xs => do
    let a ← eval ρ x
    let vs ← evalList ρ xs
    some (a :: vs)

end

mutual

/-- Only Bool, integer and Ptr kinds are computed with, and they agree. -/
def typed : Expr → Bool
  | .none => false
  | .const v _ => v.kind.isScalar
  | .var k _ => k.isScalar
  | .label _ _ | .ftype _ _ => true
  | .mem k args _ => k.isScalar && typedList args
  | .unary k op x _ => typed x && k.typed1 op x.valueKind
  | .binary k op x y _ => typed x && typed y && k.typed2 op x.valueKind y.valueKind
  | .tuple k op args _ => typedList args && k.typedN op (args.map valueKind)

def typedList : List Expr → Bool
  | [] => true
  | x :: xs => typed x && typedList xs

end

theorem typedList_iff (xs : List Expr) : typedList xs ↔ ∀ x ∈ xs, x.typed := by
  induction xs with
  | nil => simp [typedList]
  | cons x xs ih => simp [typedList, ih]

theorem evalList_cons {ρ : Valuation} {x : Expr} {xs : List Expr} {vs : List (BitVec 64)} :
    evalList ρ (x :: xs) = some vs ↔
      ∃ a ws, eval ρ x = some a ∧ evalList ρ xs = some ws ∧ vs = a :: ws := by
  rw [evalList]
  cases eval ρ x with
  | none => simp
  | some a =>
    cases evalList ρ xs with
    | none => simp
    | some ws => simp [eq_comm]

theorem evalList_eq_some {ρ : Valuation} {xs : List Expr} {vs : List (BitVec 64)} :
    evalList ρ xs = some vs ↔ List.Forall₂ (fun x v => eval ρ x = some v) xs vs := by
  induction xs generalizing vs with
  | nil => simp [evalList, eq_comm]
  | cons x xs ih =>
    rw [evalList_cons, List.forall₂_cons_left_iff]
    constructor
    · intro ⟨a, ws, ha, hws, heq⟩
      exact ⟨a, ws, ha, ih.mp hws, heq⟩
    · intro ⟨a, ws, ha, hws, heq⟩
      exact ⟨a, ws, ha, ih.mpr hws, heq⟩

theorem evalList_append {ρ : Valuation} {xs ys : List Expr} {vs : List (BitVec 64)} :
    evalList ρ (xs ++ ys) = some vs ↔
      ∃ us ws, evalList ρ xs = some us ∧ evalList ρ ys = some ws ∧ vs = us ++ ws := by
  induction xs generalizing vs with
  | nil => simp [evalList]
  | cons x xs ih =>
    rw [List.cons_append, evalList_cons]
    constructor
    · intro ⟨a, ws, ha, hws, heq⟩
      obtain ⟨us, ws', hus, hws', heq'⟩ := ih.mp hws
      exact ⟨a :: us, ws', evalList_cons.mpr ⟨a, us, ha, hus, rfl⟩, hws', by rw [heq, heq']; rfl⟩
    · intro ⟨us, ws, hus, hws, heq⟩
      obtain ⟨a, us', ha, hus', heq'⟩ := evalList_cons.mp hus
      exact ⟨a, us' ++ ws, ha, ih.mpr ⟨us', ws, hus', hws, rfl⟩, by rw [heq, heq']; rfl⟩

theorem evalList_getLast {ρ : Valuation} {xs : List Expr} {vs : List (BitVec 64)} {v : BitVec 64}
    (hvs : evalList ρ xs = some vs) (hv : vs.getLast? = some v) :
    ∃ x, xs.getLast? = some x ∧ eval ρ x = some v := by
  induction xs generalizing vs with
  | nil =>
    cases hvs
    cases hv
  | cons x xs ih =>
    obtain ⟨a, ws, ha, hws, rfl⟩ := evalList_cons.mp hvs
    cases ws with
    | nil =>
      have hnil : xs = [] := by
        cases xs with
        | nil => rfl
        | cons y ys =>
          obtain ⟨b, us, -, -, heq⟩ := evalList_cons.mp hws
          cases heq
      subst hnil
      cases hv
      exact ⟨x, rfl, ha⟩
    | cons b ws =>
      obtain ⟨y, hy, heval⟩ := ih hws (by rwa [List.getLast?_cons_cons] at hv)
      refine ⟨y, ?_, heval⟩
      rw [List.getLast?_cons, hy]
      rfl

theorem apply_commutative {op : OpN} (hop : op.isCommutative) (ρ : Valuation) (k : Kind)
    (vs : List (BitVec 64)) :
    op.apply ρ k vs = some (vs.foldr (k.tupleOp op) (k.tupleUnit op)) := by
  cases op <;> simp only [OpN.isCommutative, Bool.false_eq_true] at hop <;> rfl

theorem lastKind_eq {k : Kind} {xs : List Expr} {x : Expr} (h : xs.getLast? = some x) :
    lastKind k xs = x.valueKind := by
  induction xs with
  | nil => cases h
  | cons y ys ih =>
    cases ys with
    | nil =>
      obtain rfl : y = x := by simpa using h
      rw [lastKind]
    | cons z zs =>
      rw [List.getLast?_cons_cons] at h
      rw [lastKind, ih h]

/-- Only a `COMMA` and a function type have a value of another kind. -/
theorem valueKind_eq {e : Expr} (ht : e.typed) (hk : e.kind.isScalar) (hf : e.type ≠ .ftype) :
    e.valueKind = e.kind := by
  cases e with
  | tuple k op args p =>
    cases op with
    | comma =>
      simp only [typed, Kind.typedN, Bool.and_eq_true, beq_iff_eq] at ht
      rw [kind, ht.2.1] at hk
      cases hk
    | _ => rfl
  | ftype r ps => exact absurd rfl hf
  | _ => rfl

theorem valueKind_tuple {k : Kind} {op : OpN} (hop : op ≠ .comma) (args : List Expr) (p : Place) :
    (tuple k op args p).valueKind = k := by
  cases op <;> first | rfl | exact absurd rfl hop

/-! ## Values are in the form of their kinds -/

theorem meaning_normal {v : Value} (h : v.kind.isScalar) : v.kind.wrap v.meaning = v.meaning :=
  Kind.wrap_wrap h v.bits

theorem evalUnary_normal {k kx : Kind} {op : Op1} {a v : BitVec 64} (ht : k.typed1 op kx)
    (h : k.evalUnary op a = some v) : k.isScalar ∧ k.wrap v = v := by
  cases op with
  | bad1 => cases ht
  | not1 =>
    simp only [Kind.typed1, Bool.and_eq_true, beq_iff_eq] at ht
    obtain ⟨rfl, -⟩ := ht
    rw [← Option.some.inj h]
    refine ⟨rfl, ?_⟩
    split <;> rfl
  | _ =>
    simp only [Kind.typed1, Bool.and_eq_true, beq_iff_eq] at ht
    have hk : k.isScalar := by
      first | exact ht.2 | exact ht.1
    rw [← Option.some.inj h]
    exact ⟨hk, Kind.wrap_wrap hk _⟩

theorem typed1_scalar {k kx : Kind} {op : Op1} (ht : k.typed1 op kx) :
    k.isScalar ∧ kx.isScalar := by
  cases op with
  | bad1 => cases ht
  | not1 =>
    simp only [Kind.typed1, Bool.and_eq_true, beq_iff_eq] at ht
    exact ⟨ht.1 ▸ rfl, ht.2⟩
  | cast | bitcopy =>
    simp only [Kind.typed1, Bool.and_eq_true] at ht
    exact ht
  | xor1 | neg1 =>
    simp only [Kind.typed1, Bool.and_eq_true, beq_iff_eq] at ht
    exact ⟨ht.2, ht.1 ▸ ht.2⟩

theorem typed2_scalar {k kx ky : Kind} {op : Op2} (ht : k.typed2 op kx ky) :
    k.isScalar ∧ kx.isScalar ∧ ky.isScalar := by
  cases op with
  | bad2 => cases ht
  | sub | quo | rem =>
    simp only [Kind.typed2, Bool.and_eq_true, beq_iff_eq] at ht
    exact ⟨ht.2, ht.1.1 ▸ ht.2, ht.1.2 ▸ ht.2⟩
  | shl | shr =>
    simp only [Kind.typed2, Bool.and_eq_true, beq_iff_eq] at ht
    exact ⟨ht.1.2, ht.1.1 ▸ ht.1.2, ht.2⟩
  | land | lor =>
    simp only [Kind.typed2, Bool.and_eq_true, beq_iff_eq] at ht
    obtain ⟨⟨rfl, rfl⟩, rfl⟩ := ht
    exact ⟨rfl, rfl, rfl⟩
  | _ =>
    simp only [Kind.typed2, Bool.and_eq_true, beq_iff_eq] at ht
    exact ⟨ht.1.1 ▸ rfl, ht.2, ht.1.2 ▸ ht.2⟩

theorem evalBinary_normal {k kx ky : Kind} {op : Op2} {a b v : BitVec 64}
    (ht : k.typed2 op kx ky) (hb : ky.wrap b = b) (h : kx.evalBinary op a b = some v) :
    k.isScalar ∧ k.wrap v = v := by
  have hbool : ∀ p : Bool, (Kind.bool).wrap (if p then 1 else 0) = if p then 1 else 0 := by
    decide
  cases op with
  | bad2 => cases ht
  | sub =>
    simp only [Kind.typed2, Bool.and_eq_true, beq_iff_eq] at ht
    obtain ⟨⟨rfl, -⟩, hk⟩ := ht
    rw [← Option.some.inj h]
    exact ⟨hk, Kind.wrap_wrap hk _⟩
  | quo | rem =>
    simp only [Kind.typed2, Bool.and_eq_true, beq_iff_eq] at ht
    obtain ⟨⟨rfl, -⟩, hk⟩ := ht
    simp only [Kind.evalBinary] at h
    refine ⟨hk, ?_⟩
    split at h
    · cases h
    · split at h <;>
      · rw [← Option.some.inj h]
        exact Kind.wrap_wrap hk _
  | shl | shr =>
    simp only [Kind.typed2, Bool.and_eq_true, beq_iff_eq] at ht
    obtain ⟨⟨rfl, hk⟩, -⟩ := ht
    simp only [Kind.evalBinary] at h
    refine ⟨hk, ?_⟩
    split at h
    · cases h
    · first
        | (split at h <;> (rw [← Option.some.inj h]; exact Kind.wrap_wrap hk _))
        | (rw [← Option.some.inj h]; exact Kind.wrap_wrap hk _)
  | land | lor =>
    simp only [Kind.typed2, Bool.and_eq_true, beq_iff_eq] at ht
    obtain ⟨⟨rfl, rfl⟩, rfl⟩ := ht
    rw [← Option.some.inj h]
    refine ⟨rfl, ?_⟩
    split
    · first | rfl | exact hb
    · first | rfl | exact hb
  | _ =>
    simp only [Kind.typed2, Bool.and_eq_true, beq_iff_eq] at ht
    obtain ⟨⟨rfl, -⟩, -⟩ := ht
    rw [← Option.some.inj h]
    exact ⟨rfl, hbool _⟩

/-- The operand that decides does so whatever the other one is. -/
theorem evalBinary_decided {op : Op2} {a : BitVec 64} (h : op.decidedBy a) (k : Kind)
    (b : BitVec 64) : k.evalBinary op a b = k.evalBinary op a 0 := by
  cases op with
  | land =>
    have hzero : a = 0 := eq_of_beq h
    rw [Kind.evalBinary, Kind.evalBinary, if_pos hzero, if_pos hzero]
  | lor =>
    have hzero : a ≠ 0 := bne_iff_ne.mp h
    rw [Kind.evalBinary, Kind.evalBinary, if_neg hzero, if_neg hzero]
  | _ => cases h

/-- The operands of a commutative operator have its kind. -/
theorem typedN_commutative {k : Kind} {op : OpN} {ks : List Kind} (hop : op.isCommutative)
    (ht : k.typedN op ks) : k.isScalar ∧ ∀ k' ∈ ks, k' = k := by
  cases op <;> simp only [OpN.isCommutative, Bool.false_eq_true] at hop
  all_goals
    simp only [Kind.typedN, Bool.and_eq_true, List.all_eq_true, beq_iff_eq] at ht
    exact ⟨ht.1.2, ht.2⟩

theorem forall₂_valid {ρ : Valuation} {k : Kind} {xs : List Expr} {vs : List (BitVec 64)}
    (hxs : ∀ x ∈ xs, x.valueKind = k ∧ ∀ v, eval ρ x = some v → x.valueKind.wrap v = v)
    (hvs : evalList ρ xs = some vs) : ∀ v ∈ vs, k.wrap v = v := by
  rw [evalList_eq_some] at hvs
  induction hvs with
  | nil => simp
  | cons ha _ ih =>
    simp only [List.forall_mem_cons] at hxs ⊢
    exact ⟨hxs.1.1 ▸ hxs.1.2 _ ha, ih hxs.2⟩

/-- The value of a typed expression of a scalar kind is in the form of that kind. -/
theorem eval_normal (ρ : Valuation) (e : Expr) (ht : e.typed) (hk : e.valueKind.isScalar)
    (v : BitVec 64) (h : eval ρ e = some v) : e.valueKind.wrap v = v := by
  induction e using Expr.induct generalizing v with
  | hnone => cases ht
  | hconst w p =>
    rw [eval] at h
    rw [← Option.some.inj h]
    exact meaning_normal hk
  | hvar k id =>
    rw [eval] at h
    rw [← Option.some.inj h]
    exact Kind.wrap_wrap hk _
  | hlabel i a => cases hk
  | hftype r p => cases hk
  | hmem k args p ih =>
    rw [eval] at h
    obtain ⟨vs, -, h⟩ := Option.bind_eq_some_iff.mp h
    rw [← Option.some.inj h]
    exact Kind.wrap_wrap hk _
  | hunary k op x p ih =>
    simp only [typed, Bool.and_eq_true] at ht
    rw [eval] at h
    obtain ⟨a, -, h⟩ := Option.bind_eq_some_iff.mp h
    exact (evalUnary_normal ht.2 h).2
  | hbinary k op x y p ihx ihy =>
    simp only [typed, Bool.and_eq_true] at ht
    rw [eval] at h
    obtain ⟨a, -, h⟩ := Option.bind_eq_some_iff.mp h
    obtain ⟨-, -, hy⟩ := typed2_scalar ht.2
    split at h
    · exact (evalBinary_normal ht.2 (Kind.wrap_zero hy) h).2
    · obtain ⟨b, hb, h⟩ := Option.bind_eq_some_iff.mp h
      exact (evalBinary_normal ht.2 (ihy ht.1.2 hy b hb) h).2
  | htuple k op args p ih =>
    simp only [typed, Bool.and_eq_true] at ht
    rw [eval] at h
    obtain ⟨vs, hvs, h⟩ := Option.bind_eq_some_iff.mp h
    by_cases hop : op.isCommutative
    · obtain ⟨hscalar, hkinds⟩ := typedN_commutative hop ht.2
      have hcomma : op ≠ .comma := fun hc => by rw [hc] at hop; cases hop
      rw [valueKind_tuple hcomma]
      have hvalid : ∀ v ∈ vs, k.wrap v = v := by
        refine forall₂_valid (fun x hx => ?_) hvs
        have hxk := hkinds x.valueKind (List.mem_map_of_mem hx)
        refine ⟨hxk, ih x hx ((typedList_iff args).mp ht.1 x hx) ?_⟩
        rw [hxk]
        exact hscalar
      rw [apply_commutative hop] at h
      rw [← Option.some.inj h]
      exact (Kind.tupleMonoid k hscalar op hop).valid_fold hvalid
    · cases op with
      | comma =>
        obtain ⟨x, hx, hxv⟩ := evalList_getLast hvs h
        have hmem := List.mem_of_getLast? hx
        have hxk : (tuple k .comma args p).valueKind = x.valueKind := lastKind_eq hx
        rw [hxk] at hk ⊢
        exact ih x hmem ((typedList_iff args).mp ht.1 x hmem) hk v hxv
      | call =>
        rw [← Option.some.inj h]
        exact Kind.wrap_wrap hk _
      | badN | memOp | mirMem | x86Mem | arm64Mem | mirRets => cases h
      | _ => exact absurd rfl hop

end Expr

end OneJit
