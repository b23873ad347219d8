import OneJit.Semantics
import OneJit.Elements

/-!
# Constant expressions

`is_const` and `eval_const`. A constant expression is detected by its nodes and evaluated by the
operators of `Value`; the result is exact when no operator is given what it does not handle: an
invalid operand of a cast, of a negation or of both sides of a comparison or a division, or a
division or a shift without a result on the host.
-/

namespace OneJit

/-- `is_const`. The operands of an arithmetic `Tuple` are looked at in a loop of its own, and the
`break` for one that is not constant leaves that loop only. -/
def isConst : Expr → Bool
  | .unary _ _ x _ => isConst x
  | .binary _ _ x y _ => isConst x && isConst y
  | .const _ _ => true
  | .tuple _ op _ _ => op.isArithmetic
  | _ => false

mutual

/-- `eval_const`, which is `none` where an operator has no result on the host. -/
def evalConst : Expr → Option Value
  | .unary k op x _ => do
    let x ← evalConst x
    some (evalUnaryOp k op x)
  | .binary _ op x y _ => do
    let x ← evalConst x
    let y ← evalConst y
    evalBinaryOp op x y
  | .tuple k op args _ =>
    if op.isArithmetic then evalConstArgs k op (Value.identityN k op) args else some .invalid
  | .const v _ => some v
  | _ => some .invalid

/-- The loop of `eval_const` over the operands of a `Tuple`. -/
def evalConstArgs (k : Kind) (op : OpN) (v : Value) : List Expr → Option Value
  | [] => some v
  | x :: xs =>
    if v.isValid then do
      let vi ← evalConst x
      evalConstArgs k op (evalTupleOp k op [v, vi]) xs
    else some v

end

/-! ## The operators on invalid values -/

theorem evalUnaryOp_invalid {k : Kind} {op : Op1} (h : op = .xor1 ∨ op = .neg1 ∨ op = .bad1) :
    evalUnaryOp k op .invalid = .invalid := by
  rcases h with rfl | rfl | rfl <;> rfl

/-- A negation and a cast make a valid result of an invalid operand. -/
theorem isValid_evalUnaryOp_invalid {k : Kind} {op : Op1} (hk : k.isScalar)
    (h : ¬(op = .xor1 ∨ op = .neg1 ∨ op = .bad1)) : (evalUnaryOp k op .invalid).isValid := by
  have hbad : Value.invalid.kind ≠ k := fun hbad => Kind.ne_bad hk hbad.symm
  cases op with
  | not1 => rfl
  | cast =>
    have hcast : Value.invalid.cast k = Value.extendOrTruncate k 0 := by
      rw [Value.cast, if_neg hbad, if_neg (Kind.ne_float32 hk), if_neg (Kind.ne_float64 hk)]
      rfl
    rw [evalUnaryOp, hcast, Value.extendOrTruncate_eq hk]
    exact Value.isValid_of_isScalar hk
  | bitcopy =>
    rw [evalUnaryOp, Value.bitcopy, Value.extendOrTruncate_eq hk]
    exact Value.isValid_of_isScalar hk
  | _ => simp at h

/-- Operands of different kinds make every `Op2` invalid. -/
theorem evalBinaryOp_mixed {op : Op2} {x y : Value} (h : x.kind ≠ y.kind) :
    evalBinaryOp op x y = some .invalid := by
  have hbool : ¬(x.kind = .bool ∧ y.kind = .bool) := fun hk => h (hk.1.trans hk.2.symm)
  cases op <;>
    simp [evalBinaryOp, Value.sub, Value.arith, Value.quo, Value.rem, Value.shl, Value.shr,
      Value.lt, Value.le, Value.gt, Value.ge, Value.eq, Value.ne, Value.relation,
      Value.logicalAnd, Value.logicalOr, h, h.symm, hbool]

/-- Two invalid operands: a division is by zero, and a comparison is valid. -/
theorem evalBinaryOp_invalid (op : Op2) :
    evalBinaryOp op .invalid .invalid =
      if op = .quo ∨ op = .rem then none
      else if op.isComparison then some (.ofBool (op = .leq ∨ op = .eql ∨ op = .geq))
      else some .invalid := by
  cases op <;> rfl

/-! ## The operators on values in the form of their kinds -/

/-- The host has a result for `Op2` on operands of kind `k`. -/
def hostDefined (k : Kind) (op : Op2) (a b : BitVec 64) : Prop :=
  match op with
  | .quo | .rem => b ≠ 0 ∧ (k.group = .gInt → Value.intDivDefined a b)
  | .shl | .shr => b.toNat < 64
  | _ => True

/-- Operands of one kind, not floats. -/
private theorem returns_same {k : Kind} {op : Op2} {a b : BitVec 64} (h32 : k ≠ .float32)
    (h64 : k ≠ .float64) :
    (∃ v, evalBinaryOp op ⟨a, k⟩ ⟨b, k⟩ = some v) ↔ hostDefined k op a b := by
  have hzero : k.group = .gInt → Value.intDivDefined a b → ¬b = 0#64 := by
    intro _ hdef hb
    simp [Value.intDivDefined, hb] at hdef
  cases op with
  | quo | rem =>
    by_cases hint : k.group = .gInt
    · by_cases hdef : Value.intDivDefined a b
      · simp [hostDefined, evalBinaryOp, Value.quo, Value.rem, h32, h64, hint, hdef, hzero hint hdef]
      · simp [hostDefined, evalBinaryOp, Value.quo, Value.rem, h32, h64, hint, hdef]
    · by_cases hb : b = 0#64
      · simp [hostDefined, evalBinaryOp, Value.quo, Value.rem, h32, h64, hint, hb]
      · simp [hostDefined, evalBinaryOp, Value.quo, Value.rem, h32, h64, hint, hb]
  | shl | shr =>
    by_cases hlt : 64 ≤ b.toNat
    · simp [hostDefined, evalBinaryOp, Value.shl, Value.shr, h32, h64, hlt]
    · by_cases hint : k.group = .gInt
      · simp [hostDefined, evalBinaryOp, Value.shl, Value.shr, h32, h64, hint, hlt,
          Nat.not_le.mp hlt]
      · simp [hostDefined, evalBinaryOp, Value.shl, Value.shr, h32, h64, hint, hlt,
          Nat.not_le.mp hlt]
  | _ => simp [hostDefined, evalBinaryOp]

/-- `eval_binary_op` returns unless it divides or shifts operands of one kind, not floats, without
a result on the host. -/
theorem evalBinaryOp_returns_iff {op : Op2} {x y : Value} :
    (∃ v, evalBinaryOp op x y = some v) ↔
      (x.kind = y.kind → x.kind ≠ .float32 → x.kind ≠ .float64 →
        hostDefined x.kind op x.bits y.bits) := by
  obtain ⟨a, k⟩ := x
  obtain ⟨b, ky⟩ := y
  dsimp only
  by_cases hk : k = ky
  · subst hk
    by_cases h32 : k = .float32
    · cases op <;> simp [evalBinaryOp, Value.quo, Value.rem, Value.shl, Value.shr, h32]
    · by_cases h64 : k = .float64
      · cases op <;> simp [evalBinaryOp, Value.quo, Value.rem, Value.shl, Value.shr, h64]
      · simp only [ne_eq, h32, h64, not_false_eq_true, forall_const]
        exact returns_same h32 h64
  · rw [evalBinaryOp_mixed (x := ⟨a, k⟩) (y := ⟨b, ky⟩) hk]
    simp [hk]

theorem evalUnaryOp_exact {k kx : Kind} {op : Op1} {a : BitVec 64} (ht : k.typed1 op kx)
    (ha : kx.wrap a = a) :
    ∃ w, k.evalUnary op a = some w ∧ evalUnaryOp k op ⟨a, kx⟩ = ⟨w, k⟩ := by
  have hk := (Expr.typed1_scalar ht).1
  have hkx := (Expr.typed1_scalar ht).2
  cases op with
  | bad1 => cases ht
  | xor1 =>
    simp only [Kind.typed1, Bool.and_eq_true, beq_iff_eq] at ht
    rw [ht.1]
    exact ⟨_, rfl, Value.compl_eq hkx⟩
  | neg1 =>
    simp only [Kind.typed1, Bool.and_eq_true, beq_iff_eq] at ht
    rw [ht.1]
    exact ⟨_, rfl, Value.neg_eq hkx⟩
  | not1 =>
    simp only [Kind.typed1, Bool.and_eq_true, beq_iff_eq] at ht
    rw [ht.1]
    refine ⟨_, rfl, (Value.isZero_eq hkx).trans ?_⟩
    apply Value.ext
    · simp
    · rfl
  | cast =>
    by_cases hsame : kx = k
    · subst hsame
      refine ⟨_, rfl, ?_⟩
      rw [evalUnaryOp, Value.cast, if_pos rfl, ha]
    · exact ⟨_, rfl, Value.cast_eq hkx hk hsame⟩
  | bitcopy => exact ⟨_, rfl, Value.extendOrTruncate_eq hk a⟩

theorem evalBinaryOp_exact {k kx ky : Kind} {op : Op2} {a b : BitVec 64}
    (ht : k.typed2 op kx ky) (ha : kx.wrap a = a) (hb : ky.wrap b = b)
    (hshift : op = .shl ∨ op = .shr → kx = ky) (hhost : hostDefined kx op a b) :
    ∃ w, kx.evalBinary op a b = some w ∧ evalBinaryOp op ⟨a, kx⟩ ⟨b, ky⟩ = some ⟨w, k⟩ := by
  obtain ⟨hk, hkx, hky⟩ := Expr.typed2_scalar ht
  have h32 := Kind.ne_float32 hkx
  have h64 := Kind.ne_float64 hkx
  cases op with
  | bad2 => cases ht
  | sub =>
    simp only [Kind.typed2, Bool.and_eq_true, beq_iff_eq] at ht
    obtain ⟨⟨rfl, rfl⟩, -⟩ := ht
    exact ⟨_, rfl, congrArg some (Value.arith_eq hk rfl)⟩
  | quo | rem =>
    simp only [Kind.typed2, Bool.and_eq_true, beq_iff_eq] at ht
    obtain ⟨⟨rfl, rfl⟩, -⟩ := ht
    obtain ⟨hzero, hdef⟩ := hhost
    have hb0 : b ≠ 0#64 := hzero
    by_cases hint : k.group = .gInt
    · simp [Kind.evalBinary, evalBinaryOp, Value.quo, Value.rem, h32, h64, hint, hb0, hdef hint,
        Value.extendOrTruncate_eq hk]
    · simp [Kind.evalBinary, evalBinaryOp, Value.quo, Value.rem, h32, h64, hint, hb0,
        Value.extendOrTruncate_eq hk]
  | shl | shr =>
    simp only [Kind.typed2, Bool.and_eq_true, beq_iff_eq] at ht
    obtain ⟨⟨rfl, -⟩, -⟩ := ht
    obtain rfl := hshift (by simp)
    have hlt : ¬64 ≤ b.toNat := Nat.not_le.mpr hhost
    by_cases hint : k.group = .gInt
    · simp [Kind.evalBinary, evalBinaryOp, Value.shl, Value.shr, h32, h64, hint, hlt,
        Value.extendOrTruncate_eq hk]
    · simp [Kind.evalBinary, evalBinaryOp, Value.shl, Value.shr, h32, h64, hint, hlt,
        Value.extendOrTruncate_eq hk]
  | land =>
    simp only [Kind.typed2, Bool.and_eq_true, beq_iff_eq] at ht
    obtain ⟨⟨rfl, rfl⟩, rfl⟩ := ht
    refine ⟨_, rfl, congrArg some ((logicalAnd_eq rfl rfl).trans (Value.ext ?_ rfl))⟩
    have hxb := bool_normal (x := ⟨a, .bool⟩) rfl ha
    have hyb := bool_normal (x := ⟨b, .bool⟩) rfl hb
    simp only at hxb hyb
    rw [hxb, hyb, Value.bits_ofBool]
    cases Value.boolean ⟨a, .bool⟩ <;> cases Value.boolean ⟨b, .bool⟩ <;> rfl
  | lor =>
    simp only [Kind.typed2, Bool.and_eq_true, beq_iff_eq] at ht
    obtain ⟨⟨rfl, rfl⟩, rfl⟩ := ht
    refine ⟨_, rfl, congrArg some ((logicalOr_eq rfl rfl).trans (Value.ext ?_ rfl))⟩
    have hxb := bool_normal (x := ⟨a, .bool⟩) rfl ha
    have hyb := bool_normal (x := ⟨b, .bool⟩) rfl hb
    simp only at hxb hyb
    rw [hxb, hyb, Value.bits_ofBool]
    cases Value.boolean ⟨a, .bool⟩ <;> cases Value.boolean ⟨b, .bool⟩ <;> rfl
  | _ =>
    simp only [Kind.typed2, Bool.and_eq_true, beq_iff_eq] at ht
    obtain ⟨⟨rfl, rfl⟩, -⟩ := ht
    have hlt : ∀ a b, (Value.mk a kx).lt ⟨b, kx⟩ = .ofBool (kx.less a b) :=
      fun _ _ => Value.lt_eq hkx rfl
    have hle : ∀ a b, (Value.mk a kx).le ⟨b, kx⟩ = .ofBool (!kx.less b a) :=
      fun _ _ => Value.le_eq hkx rfl
    have hne : ∀ a b, (Value.mk a kx).ne ⟨b, kx⟩ = .ofBool (a != b) :=
      fun _ _ => Value.ne_eq hkx rfl
    have heq : ∀ a b, (Value.mk a kx).eq ⟨b, kx⟩ = .ofBool (a == b) :=
      fun _ _ => Value.eq_eq hkx rfl
    refine ⟨_, rfl, congrArg some (Value.ext ?_ ?_)⟩
    · simp only [Value.gt, Value.ge, hlt, hle, hne, heq, Value.bits_ofBool]
    · simp only [Value.gt, Value.ge, hlt, hle, hne, heq, Value.kind_ofBool]

/-! ## The loop over the operands of a tuple -/

theorem evalTupleOp_kind {k : Kind} {op : OpN} {v u : Value} (h : k.isScalar)
    (hop : op.isCommutative) (hv : v.kind = k) (hu : u.kind = k) :
    (evalTupleOp k op [v, u]).kind = k := by
  have hi := identityN_kind h (isAssociative_of_isCommutative hop)
  cases op with
  | add => exact ((standsFor_add h).foldl hi hv hu).1
  | mul => exact ((standsFor_mul h).foldl hi hv hu).1
  | and => exact ((standsFor_and h).foldl hi hv hu).1
  | or => exact ((standsFor_or h).foldl hi hv hu).1
  | xor => exact ((standsFor_xor h).foldl hi hv hu).1
  | max => exact (evalExtreme_max h hi hv hu).1
  | min => exact (evalExtreme_min h hi hv hu).1
  | _ => cases hop

/-- An invalid operand makes the partial result invalid. -/
theorem evalTupleOp_invalid {k : Kind} {op : OpN} {v : Value} (h : k.isScalar)
    (hop : op.isCommutative) (hv : v.kind = k) : evalTupleOp k op [v, .invalid] = .invalid := by
  have hbad : k ≠ Value.invalid.kind := Kind.ne_bad h
  have hi := identityN_kind h (isAssociative_of_isCommutative hop)
  have hfold : ∀ {f : Value → Value → Value},
      (∀ {a b : Value}, a.kind = k → b.kind = k → (f a b).kind = k) →
      (∀ {a : Value}, a.kind = k → f a .invalid = .invalid) →
      [v, .invalid].foldl f (Value.identityN k op) = .invalid :=
    fun hkind hinvalid => hinvalid (hkind hi hv)
  have harith : ∀ {f32 f64 u64} {a : Value}, a.kind = k →
      Value.arith f32 f64 u64 a .invalid = .invalid := by
    intro f32 f64 u64 a ha
    rw [Value.arith, if_pos (ha ▸ hbad)]
  have hbitwise : ∀ {u64} {a : Value}, a.kind = k → Value.bitwise u64 a .invalid = .invalid := by
    intro u64 a ha
    rw [Value.bitwise, if_pos (.inl (ha ▸ hbad))]
  have hextreme : ∀ {pick : Bool → Value → Value → Value} {x : Value}, x.kind = k →
      (∀ cmp, (pick cmp v x).kind = k) → evalExtreme pick x [v, .invalid] = .invalid := by
    intro pick x hx hpick
    have hlt : ∀ {u : Value}, u.kind = k → u.lt .invalid = .invalid := by
      intro u hu
      rw [Value.lt, Value.relation, if_pos (hu ▸ hbad)]
    rw [evalExtreme_cons h pick hx hv, evalExtreme, hlt (hpick _)]
    rfl
  cases op with
  | add => exact hfold (fun ha hb => ((standsFor_add h) _ _ ha hb).1) harith
  | mul => exact hfold (fun ha hb => ((standsFor_mul h) _ _ ha hb).1) harith
  | and => exact hfold (fun ha hb => ((standsFor_and h) _ _ ha hb).1) hbitwise
  | or => exact hfold (fun ha hb => ((standsFor_or h) _ _ ha hb).1) hbitwise
  | xor => exact hfold (fun ha hb => ((standsFor_xor h) _ _ ha hb).1) hbitwise
  | max => exact hextreme hi (fun cmp => by split <;> assumption)
  | min => exact hextreme hi (fun cmp => by split <;> assumption)
  | _ => cases hop

/-- `COMMA` of two values is the second one. -/
theorem evalTupleOp_comma {k : Kind} {v u : Value} (hv : v.isValid) :
    evalTupleOp k .comma [v, u] = if u.isValid then u else .invalid := by
  simp [evalTupleOp, hv]

/-- `MAX` on a narrow signed kind returns the identity whatever it is given. -/
theorem evalTupleOp_narrow {k : Kind} {w : BitVec 64} (h : k.isScalar) (hk : k.isNarrowSigned)
    (hw : k.wrap w = w) :
    evalTupleOp k .max [Value.identityN k .max, ⟨w, k⟩] = Value.identityN k .max := by
  have hi : (Value.identityN k .max).kind = k := identityN_kind h rfl
  obtain ⟨hkind, hbits⟩ := evalExtreme_max h hi hi (c := Value.identityN k .max) (v := ⟨w, k⟩) rfl
  refine Value.ext (hbits.trans ?_) (hkind.trans hi.symm)
  have habove : k.number k.maximum < k.number (Value.identityN k .max).bits := by
    revert h hk
    apply Kind.scalar_cases <;> decide
  have hless : k.less (Value.identityN k .max).bits w = false := by
    rw [Bool.eq_false_iff, Ne, Kind.less_iff]
    have := (Kind.number_bounds h hw).2
    omega
  rw [tupleOp_self k (.inl rfl), Kind.tupleOp, if_neg (by simp [hless])]

theorem identityN_not_normal {k : Kind} (h : k.isScalar) (hk : k.isNarrowSigned) :
    ¬(Value.identityN k .max).Normal := by
  revert h hk
  apply Kind.scalar_cases <;> decide

/-! ## Expressions -/

namespace Expr

mutual

/-- No `Var`, `Mem`, `Label` or call is in the expression. -/
def leafFree : Expr → Bool
  | none | const _ _ | ftype _ _ => true
  | var _ _ | label _ _ | mem _ _ _ => false
  | unary _ _ x _ => leafFree x
  | binary _ _ x y _ => leafFree x && leafFree y
  | tuple _ op args _ => op != .call && leafFreeList args

def leafFreeList : List Expr → Bool
  | [] => true
  | x :: xs => leafFree x && leafFreeList xs

end

mutual

/-- Constants under operators, and shifts only by counts of the kind of the operand. -/
def foldable : Expr → Bool
  | const _ _ => true
  | unary _ _ x _ => foldable x
  | binary _ op x y _ =>
    foldable x && foldable y && (!(op == .shl || op == .shr) || x.valueKind == y.valueKind)
  | tuple _ op args _ => op != .call && foldableList args
  | _ => false

def foldableList : List Expr → Bool
  | [] => true
  | x :: xs => foldable x && foldableList xs

end

theorem leafFreeList_iff (xs : List Expr) : leafFreeList xs ↔ ∀ x ∈ xs, x.leafFree := by
  induction xs with
  | nil => simp [leafFreeList]
  | cons x xs ih => simp [leafFreeList, ih]

theorem foldableList_iff (xs : List Expr) : foldableList xs ↔ ∀ x ∈ xs, x.foldable := by
  induction xs with
  | nil => simp [foldableList]
  | cons x xs ih => simp [foldableList, ih]

theorem foldable_child {e x : Expr} (h : e.foldable) (hx : x ∈ e.children) : x.foldable := by
  cases e with
  | unary k op y p =>
    obtain rfl := List.mem_singleton.mp hx
    rwa [foldable] at h
  | binary k op y z p =>
    simp only [foldable, Bool.and_eq_true] at h
    simp only [children, List.mem_cons, List.not_mem_nil, or_false] at hx
    rcases hx with rfl | rfl
    · exact h.1.1
    · exact h.1.2
  | tuple k op args p =>
    simp only [foldable, Bool.and_eq_true, foldableList_iff] at h
    exact h.2 x hx
  | mem => cases h
  | _ => cases hx

theorem Within.foldable {s e : Expr} (hs : s.Within e) (h : e.foldable) : s.foldable := by
  induction hs with
  | self => exact h
  | child hx _ ih => exact ih (foldable_child h hx)

theorem typed_child {e x : Expr} (h : e.typed) (hx : x ∈ e.children) : x.typed := by
  cases e with
  | unary k op y p =>
    obtain rfl := List.mem_singleton.mp hx
    simp only [typed, Bool.and_eq_true] at h
    exact h.1
  | binary k op y z p =>
    simp only [typed, Bool.and_eq_true] at h
    simp only [children, List.mem_cons, List.not_mem_nil, or_false] at hx
    rcases hx with rfl | rfl
    · exact h.1.1
    · exact h.1.2
  | tuple k op args p | mem k args p =>
    simp only [typed, Bool.and_eq_true, typedList_iff] at h
    first | exact h.1 x hx | exact h.2 x hx
  | _ => cases hx

theorem Within.typed {s e : Expr} (hs : s.Within e) (h : e.typed) : s.typed := by
  induction hs with
  | self => exact h
  | child hx _ ih => exact ih (typed_child h hx)

theorem leafFree_of_foldable {e : Expr} (h : e.foldable) : e.leafFree := by
  induction e using Expr.induct with
  | hconst v p => rfl
  | hunary k op x p ih =>
    rw [leafFree]
    exact ih (foldable_child h (.head _))
  | hbinary k op x y p ihx ihy =>
    rw [leafFree, Bool.and_eq_true]
    exact ⟨ihx (foldable_child h (.head _)), ihy (foldable_child h (.tail _ (.head _)))⟩
  | htuple k op args p ih =>
    simp only [foldable, leafFree, Bool.and_eq_true, leafFreeList_iff, foldableList_iff] at h ⊢
    exact ⟨h.1, fun x hx => ih x hx (h.2 x hx)⟩
  | _ => cases h

theorem eval_binary_of_some {ρ : Valuation} {k : Kind} {op : Op2} {x y : Expr} {p : Place}
    {a b : BitVec 64} (hx : eval ρ x = some a) (hy : eval ρ y = some b) :
    eval ρ (binary k op x y p) = x.valueKind.evalBinary op a b := by
  simp only [eval, hx, hy, Option.bind_eq_bind, Option.bind_some]
  split
  · next hdecided => exact (evalBinary_decided hdecided _ b).symm
  · rfl

end Expr

open Expr (Within)

/-- The value of an expression does not depend on the valuation, and `eval_const` returns it. -/
structure Computes (e : Expr) (w : BitVec 64) : Prop where
  eval : ∀ ρ, e.eval ρ = some w
  evalConst : evalConst e = some ⟨w, e.valueKind⟩
  scalar : e.valueKind.isScalar
  normal : e.valueKind.wrap w = w

/-- `eval_const` computes the foldable expressions and is invalid on the others. -/
structure Evaluated (e : Expr) : Prop where
  foldable : e.foldable → ∃ w, Computes e w
  invalid : e.foldable = false → evalConst e = some .invalid

/-- What an expression must not do for its evaluation to be exact. -/
def FoldsExactly (e : Expr) : Prop :=
  match e with
  | .const v _ => v.Normal
  | .unary _ op x _ => (op = .xor1 ∨ op = .neg1 ∨ op = .bad1) ∨ x.foldable
  | .binary _ op x y _ =>
    (op = .quo ∨ op = .rem ∨ op.isComparison → x.foldable ∨ y.foldable) ∧
      (e.foldable → ∀ ρ a b, x.eval ρ = some a → y.eval ρ = some b →
        hostDefined x.valueKind op a b)
  | .tuple k op args _ =>
    op ≠ .call → (∀ x ∈ args, x.leafFree) ∧
      (op = .max → k.isNarrowSigned → ∃ x ∈ args, x.foldable = false)
  | _ => True

/-! ## Evaluation, one constructor at a time -/

section

variable {k : Kind} {op : OpN} {args : List Expr} {v : Value}

/-- A commutative `OpN` on operands that have values. -/
theorem evalConstArgs_commutative (h : k.isScalar) (hop : op.isCommutative)
    (hmax : op = .max → k.isNarrowSigned = false)
    (hargs : ∀ x ∈ args, x.valueKind = k ∧ ∃ w, Computes x w) (hv : v.NormalOf k) :
    ∃ ws, (∀ ρ, Expr.evalList ρ args = some ws) ∧ (∀ w ∈ ws, k.wrap w = w) ∧
      evalConstArgs k op v args = some ⟨ws.foldl (k.tupleOp op) v.bits, k⟩ := by
  induction args generalizing v with
  | nil =>
    refine ⟨[], fun _ => rfl, by simp, ?_⟩
    rw [evalConstArgs, List.foldl_nil, ← hv.kind]
  | cons x xs ih =>
    simp only [List.forall_mem_cons] at hargs
    obtain ⟨⟨rfl, w, hw⟩, hxs⟩ := hargs
    have hpair := evalTupleOp_pair (b := ⟨w, x.valueKind⟩) h hop hmax hv ⟨rfl, hw.normal⟩
    have hvn : x.valueKind.wrap v.bits = v.bits := by
      have hnormal := hv.normal
      rwa [Value.Normal, hv.kind] at hnormal
    have hnormal : x.valueKind.wrap (x.valueKind.tupleOp op v.bits w) =
        x.valueKind.tupleOp op v.bits w :=
      (Kind.tupleMonoid _ h op hop).valid_op _ _ hvn hw.normal
    obtain ⟨ws, hlist, hwrap, hresult⟩ :=
      ih (v := ⟨x.valueKind.tupleOp op v.bits w, x.valueKind⟩) hxs ⟨rfl, hnormal⟩
    refine ⟨w :: ws, fun ρ => ?_, List.forall_mem_cons.mpr ⟨hw.normal, hwrap⟩, ?_⟩
    · exact Expr.evalList_cons.mpr ⟨w, ws, hw.eval ρ, hlist ρ, rfl⟩
    · have hvalid : v.isValid := Value.isValid_of_isScalar (hv.kind ▸ h)
      rw [evalConstArgs, if_pos hvalid, hw.evalConst]
      change evalConstArgs x.valueKind op (evalTupleOp x.valueKind op [v, ⟨w, x.valueKind⟩]) xs = _
      rw [hpair]
      exact hresult

/-- `COMMA` on operands that have values is the last one. -/
theorem evalConstArgs_comma (hargs : ∀ x ∈ args, ∃ w, Computes x w) (hv : v.isValid) :
    ∃ ws, (∀ ρ, Expr.evalList ρ args = some ws) ∧ ∀ last, args.getLast? = some last →
      ∃ w, Computes last w ∧ ws.getLast? = some w ∧
        evalConstArgs k .comma v args = some ⟨w, last.valueKind⟩ := by
  induction args generalizing v with
  | nil => exact ⟨[], fun _ => rfl, by simp⟩
  | cons x xs ih =>
    simp only [List.forall_mem_cons] at hargs
    obtain ⟨⟨w, hw⟩, hxs⟩ := hargs
    have hvalid : (Value.mk w x.valueKind).isValid := Value.isValid_of_isScalar hw.scalar
    obtain ⟨ws, hlist, hlast⟩ := ih hxs hvalid
    refine ⟨w :: ws, fun ρ => ?_, fun last hl => ?_⟩
    · exact Expr.evalList_cons.mpr ⟨w, ws, hw.eval ρ, hlist ρ, rfl⟩
    · rw [evalConstArgs, if_pos hv, hw.evalConst]
      change ∃ u, _ ∧ _ ∧
        evalConstArgs k .comma (evalTupleOp k .comma [v, ⟨w, x.valueKind⟩]) xs = _
      rw [evalTupleOp_comma hv, if_pos hvalid]
      cases xs with
      | nil =>
        obtain rfl : x = last := by simpa using hl
        have hnil : ws = [] := Option.some.inj (hlist ⟨fun _ _ => 0, fun _ => 0, fun _ => 0,
          fun _ _ => 0⟩).symm
        subst hnil
        exact ⟨w, hw, rfl, rfl⟩
      | cons y ys =>
        rw [List.getLast?_cons_cons] at hl
        obtain ⟨u, hu, hul, hresult⟩ := hlast last hl
        exact ⟨u, hu, by rw [List.getLast?_cons, hul]; rfl, hresult⟩

/-- One operand without a value makes a tuple invalid, whatever the loop has collected so far. -/
theorem evalConstArgs_invalid {S : Value → Prop} {T : Value → Prop}
    (hvalid : ∀ v, S v → v.isValid) (hstep : ∀ v u, S v → T u → S (evalTupleOp k op [v, u]))
    (hinvalid : ∀ v, S v → evalTupleOp k op [v, .invalid] = .invalid)
    (hargs : ∀ x ∈ args, (∃ u, T u ∧ evalConst x = some u) ∨ evalConst x = some .invalid)
    (hsome : ∃ x ∈ args, evalConst x = some .invalid) (hv : S v) :
    evalConstArgs k op v args = some .invalid := by
  induction args generalizing v with
  | nil => simp at hsome
  | cons x xs ih =>
    simp only [List.forall_mem_cons] at hargs
    rw [evalConstArgs, if_pos (hvalid v hv)]
    have hstop : evalConstArgs k op .invalid xs = some .invalid := by
      cases xs <;> rfl
    rcases hargs.1 with ⟨u, hu, hx⟩ | hx
    · rw [hx]
      by_cases hxinv : evalConst x = some .invalid
      · obtain rfl := Option.some.inj (hx.symm.trans hxinv)
        change evalConstArgs k op (evalTupleOp k op [v, .invalid]) xs = _
        rw [hinvalid v hv, hstop]
      · have hrest : ∃ y ∈ xs, evalConst y = some .invalid := by simpa [hxinv] using hsome
        exact ih hargs.2 hrest (hstep v u hv hu)
    · rw [hx]
      change evalConstArgs k op (evalTupleOp k op [v, .invalid]) xs = _
      rw [hinvalid v hv, hstop]

/-- `MAX` on a narrow signed kind returns the identity, which is not in the form of the kind. -/
theorem evalConstArgs_narrow (h : k.isScalar) (hk : k.isNarrowSigned)
    (hargs : ∀ x ∈ args, x.valueKind = k ∧ ∃ w, Computes x w) :
    evalConstArgs k .max (Value.identityN k .max) args = some (Value.identityN k .max) := by
  have hvalid : (Value.identityN k .max).isValid :=
    Value.isValid_of_isScalar (by rw [identityN_kind h rfl]; exact h)
  induction args with
  | nil => rfl
  | cons x xs ih =>
    simp only [List.forall_mem_cons] at hargs
    obtain ⟨⟨rfl, w, hw⟩, hxs⟩ := hargs
    rw [evalConstArgs, if_pos hvalid, hw.evalConst]
    change evalConstArgs x.valueKind .max (evalTupleOp x.valueKind .max
      [Value.identityN x.valueKind .max, ⟨w, x.valueKind⟩]) xs = _
    rw [evalTupleOp_narrow h hk hw.normal]
    exact ih hxs

end

section

variable {k : Kind} {x y : Expr} {p : Place}

theorem evaluated_of_invalid {e : Expr} (hf : e.foldable = false)
    (h : evalConst e = some .invalid) : Evaluated e where
  foldable hfold := by rw [hf] at hfold; cases hfold
  invalid _ := h

theorem evaluated_unary {op : Op1} (ht : (Expr.unary k op x p).typed) (hx : Evaluated x)
    (hf : FoldsExactly (.unary k op x p)) : Evaluated (.unary k op x p) where
  foldable hfold := by
    simp only [Expr.typed, Bool.and_eq_true] at ht
    obtain ⟨a, ha⟩ := hx.foldable hfold
    obtain ⟨w, heval, hvalue⟩ := evalUnaryOp_exact ht.2 ha.normal
    obtain ⟨hk, hw⟩ := Expr.evalUnary_normal ht.2 heval
    refine ⟨w, fun ρ => ?_, ?_, hk, hw⟩
    · rw [Expr.eval, ha.eval ρ]
      exact heval
    · rw [evalConst, ha.evalConst]
      exact congrArg some hvalue
  invalid hfold := by
    rw [Expr.foldable] at hfold
    rcases hf with hop | hxf
    · rw [evalConst, hx.invalid hfold]
      exact congrArg some (evalUnaryOp_invalid hop)
    · rw [hxf] at hfold
      cases hfold

/-- Two operands of which only one has a value have different kinds. -/
theorem evalConst_mixed {op : Op2} {a : BitVec 64}
    (h : Computes x a ∧ evalConst y = some .invalid ∨ evalConst x = some .invalid ∧ Computes y a) :
    evalConst (.binary k op x y p) = some .invalid := by
  rw [evalConst]
  rcases h with ⟨hx, hy⟩ | ⟨hx, hy⟩
  · rw [hx.evalConst, hy]
    exact evalBinaryOp_mixed (Kind.ne_bad hx.scalar)
  · rw [hx, hy.evalConst]
    exact evalBinaryOp_mixed (Kind.ne_bad hy.scalar).symm

theorem evaluated_binary {op : Op2} (ht : (Expr.binary k op x y p).typed) (hx : Evaluated x)
    (hy : Evaluated y) (hf : FoldsExactly (.binary k op x y p)) : Evaluated (.binary k op x y p) := by
  simp only [Expr.typed, Bool.and_eq_true] at ht
  obtain ⟨hsides, hhost⟩ := hf
  constructor
  · intro hfold
    have hparts := hfold
    simp only [Expr.foldable, Bool.and_eq_true, Bool.or_eq_true, Bool.not_eq_true',
      Bool.or_eq_false_iff, beq_eq_false_iff_ne, beq_iff_eq] at hparts
    obtain ⟨a, ha⟩ := hx.foldable hparts.1.1
    obtain ⟨b, hb⟩ := hy.foldable hparts.1.2
    have hshift : op = .shl ∨ op = .shr → x.valueKind = y.valueKind := by
      intro hop
      rcases hparts.2 with hne | heq
      · rcases hop with hop | hop
        · exact absurd hop hne.1
        · exact absurd hop hne.2
      · exact heq
    obtain ⟨w, heval, hvalue⟩ := evalBinaryOp_exact ht.2 ha.normal hb.normal hshift
      (hhost hfold ⟨fun _ _ => 0, fun _ => 0, fun _ => 0, fun _ _ => 0⟩ a b (ha.eval _) (hb.eval _))
    obtain ⟨hk, hw⟩ := Expr.evalBinary_normal ht.2 hb.normal heval
    refine ⟨w, fun ρ => ?_, ?_, hk, hw⟩
    · rw [Expr.eval_binary_of_some (ha.eval ρ) (hb.eval ρ), heval]
    · rw [evalConst, ha.evalConst, hb.evalConst]
      exact hvalue
  · intro hfold
    cases hxf : x.foldable with
    | false =>
      have hxv := hx.invalid hxf
      cases hyf : y.foldable with
      | false =>
        have hop : ¬(op = .quo ∨ op = .rem ∨ op.isComparison) := fun hop => by
          rcases hsides hop with h | h
          · rw [hxf] at h
            cases h
          · rw [hyf] at h
            cases h
        rw [not_or, not_or] at hop
        rw [evalConst, hxv, hy.invalid hyf]
        refine (evalBinaryOp_invalid op).trans ?_
        rw [if_neg (by simp [hop.1, hop.2.1]), if_neg hop.2.2]
      | true =>
        obtain ⟨b, hb⟩ := hy.foldable hyf
        exact evalConst_mixed (.inr ⟨hxv, hb⟩)
    | true =>
      obtain ⟨a, ha⟩ := hx.foldable hxf
      cases hyf : y.foldable with
      | false => exact evalConst_mixed (.inl ⟨ha, hy.invalid hyf⟩)
      | true =>
        -- a shift by a count of another kind
        obtain ⟨b, hb⟩ := hy.foldable hyf
        have hne : x.valueKind ≠ y.valueKind := by
          intro heq
          simp [Expr.foldable, hxf, hyf, heq] at hfold
        rw [evalConst, ha.evalConst, hb.evalConst]
        exact evalBinaryOp_mixed hne

/-- What the operands of a tuple evaluate to. -/
theorem evalConst_operand (hx : Evaluated x) :
    (∃ u, (∃ w, Computes x w ∧ u = ⟨w, x.valueKind⟩) ∧ evalConst x = some u) ∨
      evalConst x = some .invalid := by
  cases hf : x.foldable with
  | false => exact .inr (hx.invalid hf)
  | true =>
    obtain ⟨w, hw⟩ := hx.foldable hf
    exact .inl ⟨_, ⟨w, hw, rfl⟩, hw.evalConst⟩

/-- An operand without a value, when not all are foldable. -/
theorem evalConst_some_invalid {args : List Expr} (hargs : ∀ x ∈ args, Evaluated x)
    (hf : Expr.foldableList args = false) : ∃ x ∈ args, evalConst x = some .invalid := by
  have hnot : ¬∀ x ∈ args, x.foldable := by
    rw [← Expr.foldableList_iff, hf]
    exact Bool.false_ne_true
  push Not at hnot
  obtain ⟨x, hx, hxf⟩ := hnot
  exact ⟨x, hx, (hargs x hx).invalid (by simpa using hxf)⟩

theorem evaluated_comma {args : List Expr} (hne : args ≠ []) (hargs : ∀ x ∈ args, Evaluated x) :
    Evaluated (.tuple .void .comma args p) where
  foldable hfold := by
    rw [Expr.foldable, Bool.and_eq_true, Expr.foldableList_iff] at hfold
    obtain ⟨ws, hlist, hlast⟩ := evalConstArgs_comma (k := .void)
      (v := Value.identityN .void .comma) (fun x hx => (hargs x hx).foldable (hfold.2 x hx)) rfl
    have hl := List.getLast?_eq_some_getLast hne
    obtain ⟨w, hw, hwl, hresult⟩ := hlast _ hl
    have hkind : (Expr.tuple .void .comma args p).valueKind = (args.getLast hne).valueKind :=
      Expr.lastKind_eq hl
    refine ⟨w, fun ρ => ?_, ?_, hkind ▸ hw.scalar, hkind ▸ hw.normal⟩
    · rw [Expr.eval, hlist ρ]
      exact hwl
    · rw [hkind]
      exact hresult
  invalid hfold := by
    have hlist : Expr.foldableList args = false := by simpa [Expr.foldable] using hfold
    refine evalConstArgs_invalid (S := fun v => v.isValid) (T := fun u => u.isValid)
      (fun v hv => hv) ?_ ?_ ?_ (evalConst_some_invalid hargs hlist) rfl
    · intro v u hv hu
      rw [evalTupleOp_comma hv, if_pos hu]
      exact hu
    · intro v hv
      exact evalTupleOp_comma hv
    · intro x hx
      rcases evalConst_operand (hargs x hx) with ⟨u, ⟨w, hw, rfl⟩, hv⟩ | hv
      · exact .inl ⟨_, Value.isValid_of_isScalar hw.scalar, hv⟩
      · exact .inr hv

theorem evaluated_commutative {op : OpN} {args : List Expr} (h : k.isScalar)
    (hop : op.isCommutative) (hkinds : ∀ x ∈ args, x.valueKind = k)
    (hargs : ∀ x ∈ args, Evaluated x)
    (hf : op = .max → k.isNarrowSigned → ∃ x ∈ args, x.foldable = false) :
    Evaluated (.tuple k op args p) := by
  have hi := identityN_kind h (isAssociative_of_isCommutative hop)
  have hkind : (Expr.tuple k op args p).valueKind = k :=
    Expr.valueKind_tuple (by rintro rfl; cases hop) args p
  have harith : op.isArithmetic := by cases op <;> first | rfl | cases hop
  constructor
  · intro hfold
    rw [Expr.foldable, Bool.and_eq_true, Expr.foldableList_iff] at hfold
    have hmax : op = .max → k.isNarrowSigned = false := by
      intro hmax
      rw [Bool.eq_false_iff]
      intro hk
      obtain ⟨x, hx, hxf⟩ := hf hmax hk
      rw [hfold.2 x hx] at hxf
      cases hxf
    have hin := identityN_normalOf h hop hmax
    have hbits : (Value.identityN k op).bits = k.tupleUnit op := by
      rw [← identityN_meaning h op, hin.normal.meaning]
    obtain ⟨ws, hlist, hwrap, hresult⟩ := evalConstArgs_commutative h hop hmax
      (fun x hx => ⟨hkinds x hx, (hargs x hx).foldable (hfold.2 x hx)⟩) hin
    have hfoldl : ws.foldl (k.tupleOp op) (k.tupleUnit op) =
        ws.foldr (k.tupleOp op) (k.tupleUnit op) :=
      ((Kind.tupleMonoid k h op hop).foldl_eq (Kind.tupleMonoid k h op hop).valid_unit hwrap).trans
        ((Kind.tupleMonoid k h op hop).unit_op _
          ((Kind.tupleMonoid k h op hop).valid_fold hwrap))
    refine ⟨ws.foldr (k.tupleOp op) (k.tupleUnit op), fun ρ => ?_, ?_, ?_, ?_⟩
    · rw [Expr.eval, hlist ρ]
      exact Expr.apply_commutative hop ρ k ws
    · rw [evalConst, if_pos harith, hresult, hbits, hfoldl, hkind]
    · rw [hkind]
      exact h
    · rw [hkind]
      exact (Kind.tupleMonoid k h op hop).valid_fold hwrap
  · intro hfold
    have hcall : (op != .call) = true := by cases op <;> first | rfl | cases hop
    have hlist : Expr.foldableList args = false := by simpa [Expr.foldable, hcall] using hfold
    rw [evalConst, if_pos harith]
    refine evalConstArgs_invalid (S := fun v => v.kind = k) (T := fun u => u.kind = k)
      (fun v hv => Value.isValid_of_isScalar (hv ▸ h)) (fun v u hv hu => evalTupleOp_kind h hop hv hu)
      (fun v hv => evalTupleOp_invalid h hop hv) ?_ (evalConst_some_invalid hargs hlist) hi
    intro x hx
    rcases evalConst_operand (hargs x hx) with ⟨u, ⟨w, hw, rfl⟩, hv⟩ | hv
    · exact .inl ⟨_, hkinds x hx, hv⟩
    · exact .inr hv

theorem evaluated_tuple {op : OpN} {args : List Expr} (ht : (Expr.tuple k op args p).typed)
    (hargs : ∀ x ∈ args, Evaluated x)
    (hf : (Expr.tuple k op args p).valueKind.isScalar → FoldsExactly (.tuple k op args p)) :
    Evaluated (.tuple k op args p) := by
  simp only [Expr.typed, Bool.and_eq_true] at ht
  obtain ⟨-, ht⟩ := ht
  by_cases hop : op.isCommutative
  · obtain ⟨h, hkinds⟩ := Expr.typedN_commutative hop ht
    have hcomma : op ≠ .comma := by
      rintro rfl
      cases hop
    have hcall : op ≠ .call := by
      rintro rfl
      cases hop
    rw [Expr.valueKind_tuple hcomma] at hf
    exact evaluated_commutative h hop (fun x hx => hkinds _ (List.mem_map_of_mem hx)) hargs
      (hf h hcall).2
  · cases op with
    | comma =>
      simp only [Kind.typedN, Bool.and_eq_true, beq_iff_eq] at ht
      obtain ⟨rfl, hne⟩ := ht
      refine evaluated_comma ?_ hargs
      rintro rfl
      cases hne
    | call => exact evaluated_of_invalid rfl rfl
    | badN | memOp | mirMem | x86Mem | arm64Mem | mirRets => cases ht
    | _ => exact absurd rfl hop

end

/-- `eval_const` on an expression whose parts all fold exactly. -/
theorem evaluated (e : Expr) (ht : e.typed)
    (hf : ∀ s : Expr, s.Within e → s.valueKind.isScalar → FoldsExactly s) : Evaluated e := by
  induction e using Expr.induct with
  | hnone => cases ht
  | hconst v p =>
    refine ⟨fun _ => ⟨v.bits, fun ρ => ?_, rfl, ht, hf _ .self ht⟩, fun hfold => by cases hfold⟩
    rw [Expr.eval, Value.Normal.meaning (hf _ .self ht)]
  | hvar | hlabel | hftype | hmem => exact evaluated_of_invalid rfl rfl
  | hunary k op x p ih =>
    have hx := ih (Expr.typed_child ht (.head _)) fun s hs => hf s (.child (.head _) hs)
    simp only [Expr.typed, Bool.and_eq_true] at ht
    exact evaluated_unary (by simp [Expr.typed, ht]) hx (hf _ .self (Expr.typed1_scalar ht.2).1)
  | hbinary k op x y p ihx ihy =>
    have hx := ihx (Expr.typed_child ht (.head _)) fun s hs => hf s (.child (.head _) hs)
    have hy := ihy (Expr.typed_child ht (.tail _ (.head _)))
      fun s hs => hf s (.child (.tail _ (.head _)) hs)
    have hk := ht
    simp only [Expr.typed, Bool.and_eq_true] at hk
    exact evaluated_binary ht hx hy (hf _ .self (Expr.typed2_scalar hk.2).1)
  | htuple k op args p ih =>
    exact evaluated_tuple ht
      (fun x hx => ih x hx (Expr.typed_child ht hx) fun s hs => hf s (.child hx hs)) (hf _ .self)

/-! ## Exactness -/

/-- Detection and evaluation of a constant expression are exact. -/
structure Exact (e : Expr) : Prop where
  isConst_iff : isConst e ↔ e.leafFree
  value : ∃ v, evalConst e = some v ∧
    (v.isValid → isConst e ∧ v.kind = e.valueKind ∧ ∀ ρ, e.eval ρ = some v.bits)
  invalid : ∀ s : Expr, s.Within e → ∀ v, evalConst s = some v → v.isValid = false →
    ∃ u, evalConst e = some u ∧ u.isValid = false

theorem isConst_iff_leafFree (e : Expr) (ht : e.typed) (hk : e.valueKind.isScalar)
    (hf : ∀ s : Expr, s.Within e → s.valueKind.isScalar → FoldsExactly s) :
    isConst e ↔ e.leafFree := by
  induction e using Expr.induct with
  | hnone => cases ht
  | hconst => exact Iff.rfl
  | hvar | hlabel | hmem => simp [isConst, Expr.leafFree]
  | hftype => cases hk
  | hunary k op x p ih =>
    have hx := Expr.typed_child ht (.head _)
    simp only [Expr.typed, Bool.and_eq_true] at ht
    rw [isConst, Expr.leafFree]
    exact ih hx (Expr.typed1_scalar ht.2).2 fun s hs => hf s (.child (.head _) hs)
  | hbinary k op x y p ihx ihy =>
    have hx := Expr.typed_child ht (.head _)
    have hy := Expr.typed_child ht (.tail _ (.head _))
    simp only [Expr.typed, Bool.and_eq_true] at ht
    obtain ⟨-, hxk, hyk⟩ := Expr.typed2_scalar ht.2
    rw [isConst, Expr.leafFree, Bool.and_eq_true, Bool.and_eq_true,
      ihx hx hxk fun s hs => hf s (.child (.head _) hs),
      ihy hy hyk fun s hs => hf s (.child (.tail _ (.head _)) hs)]
  | htuple k op args p ih =>
    simp only [Expr.typed, Bool.and_eq_true] at ht
    rw [isConst, Expr.leafFree]
    by_cases hcall : op = .call
    · subst hcall
      simp [OpN.isArithmetic]
    · have hargs : Expr.leafFreeList args := by
        rw [Expr.leafFreeList_iff]
        exact (hf _ .self hk hcall).1
      have hop : op.isArithmetic := by
        have htn := ht.2
        clear hf ih hk
        cases op <;> first | rfl | exact absurd rfl hcall | cases htn
      simp [hop, hargs, hcall]

theorem exact_of_folds {e : Expr} (ht : e.typed) (hk : e.valueKind.isScalar)
    (hf : ∀ s : Expr, s.Within e → s.valueKind.isScalar → FoldsExactly s) : Exact e where
  isConst_iff := isConst_iff_leafFree e ht hk hf
  value := by
    have he := evaluated e ht hf
    cases hfold : e.foldable with
    | false =>
      refine ⟨_, he.invalid hfold, fun hvalid => by cases hvalid⟩
    | true =>
      obtain ⟨w, hw⟩ := he.foldable hfold
      refine ⟨_, hw.evalConst, fun _ => ⟨?_, rfl, hw.eval⟩⟩
      exact (isConst_iff_leafFree e ht hk hf).mpr (Expr.leafFree_of_foldable hfold)
  invalid := by
    intro s hs v hv hinvalid
    have hes := evaluated s (hs.typed ht) fun r hr => hf r (hr.trans hs)
    have he := evaluated e ht hf
    cases hfold : e.foldable with
    | false => exact ⟨_, he.invalid hfold, rfl⟩
    | true =>
      obtain ⟨w, hw⟩ := hes.foldable (hs.foldable hfold)
      obtain rfl := Option.some.inj (hv.symm.trans hw.evalConst)
      rw [Value.isValid_of_isScalar (v := ⟨w, s.valueKind⟩) hw.scalar] at hinvalid
      cases hinvalid

theorem kinds_of_foldable {k : Kind} {op : Op2} {x y : Expr} {p : Place}
    (ht : (Expr.binary k op x y p).typed) (hfold : (Expr.binary k op x y p).foldable)
    (hop : op = .quo ∨ op = .rem ∨ op = .shl ∨ op = .shr) : x.valueKind = y.valueKind := by
  simp only [Expr.typed, Bool.and_eq_true] at ht
  rcases hop with rfl | rfl | rfl | rfl
  · simp only [Kind.typed2, Bool.and_eq_true, beq_iff_eq] at ht
    exact ht.2.1.1.symm.trans ht.2.1.2
  · simp only [Kind.typed2, Bool.and_eq_true, beq_iff_eq] at ht
    exact ht.2.1.1.symm.trans ht.2.1.2
  · simpa [Expr.foldable] using (Bool.and_eq_true_iff.mp hfold).2
  · simpa [Expr.foldable] using (Bool.and_eq_true_iff.mp hfold).2

theorem folds_of_exact {e : Expr} (ht : e.typed) (hk : e.valueKind.isScalar) (he : Exact e)
    (hf : ∀ x ∈ e.children, ∀ s : Expr, s.Within x → s.valueKind.isScalar → FoldsExactly s) :
    FoldsExactly e := by
  have hparts : ∀ x ∈ e.children, Evaluated x :=
    fun x hx => evaluated x (Expr.typed_child ht hx) (hf x hx)
  obtain ⟨v, hv, hvalue⟩ := he.value
  cases e with
  | const c p =>
    obtain rfl := Option.some.inj hv
    have heval := (hvalue (Value.isValid_of_isScalar hk)).2.2
      ⟨fun _ _ => 0, fun _ => 0, fun _ => 0, fun _ _ => 0⟩
    exact Option.some.inj heval
  | unary k op x p =>
    have hx := hparts x (.head _)
    rw [FoldsExactly]
    by_contra hnot
    rw [not_or, Bool.not_eq_true] at hnot
    have hxv := hx.invalid hnot.2
    obtain ⟨u, hu, hinvalid⟩ := he.invalid x (.child (.head _) .self) _ hxv rfl
    rw [evalConst, hxv] at hu
    obtain rfl := Option.some.inj hu
    have hvalid : (evalUnaryOp k op .invalid).isValid := isValid_evalUnaryOp_invalid hk hnot.1
    rw [hvalid] at hinvalid
    cases hinvalid
  | binary k op x y p =>
    have hx := hparts x (.head _)
    have hy := hparts y (.tail _ (.head _))
    constructor
    · intro hop
      by_contra hnot
      rw [not_or, Bool.not_eq_true, Bool.not_eq_true] at hnot
      have hxv := hx.invalid hnot.1
      have hyv := hy.invalid hnot.2
      have heq : evalConst (.binary k op x y p) = evalBinaryOp op .invalid .invalid := by
        rw [evalConst, hxv, hyv]
        rfl
      obtain ⟨u, hu, hinvalid⟩ := he.invalid x (.child (.head _) .self) _ hxv rfl
      rw [heq, evalBinaryOp_invalid] at hu
      split at hu
      · cases hu
      · rw [if_pos (by tauto)] at hu
        obtain rfl := Option.some.inj hu
        cases hinvalid
    · intro hfold ρ a b ha hb
      obtain ⟨a', hxa⟩ := hx.foldable (Expr.foldable_child hfold (.head _))
      obtain ⟨b', hyb⟩ := hy.foldable (Expr.foldable_child hfold (.tail _ (.head _)))
      obtain rfl := Option.some.inj ((hxa.eval ρ).symm.trans ha)
      obtain rfl := Option.some.inj ((hyb.eval ρ).symm.trans hb)
      have hkinds : op = .quo ∨ op = .rem ∨ op = .shl ∨ op = .shr → x.valueKind = y.valueKind :=
        kinds_of_foldable ht hfold
      by_cases hop : op = .quo ∨ op = .rem ∨ op = .shl ∨ op = .shr
      · rw [evalConst, hxa.evalConst, hyb.evalConst, ← hkinds hop] at hv
        exact evalBinaryOp_returns_iff.mp ⟨v, hv⟩ rfl (Kind.ne_float32 hxa.scalar)
          (Kind.ne_float64 hxa.scalar)
      · cases op <;> trivial
  | tuple k op args p =>
    intro hcall
    have htn := ht
    simp only [Expr.typed, Bool.and_eq_true] at htn
    have harith : op.isArithmetic := by
      have hop := htn.2
      clear hf he hv hvalue hk ht htn hparts
      cases op <;> first | rfl | exact absurd rfl hcall | cases hop
    have hfree := he.isConst_iff.mp harith
    simp only [Expr.leafFree, Bool.and_eq_true, Expr.leafFreeList_iff] at hfree
    refine ⟨hfree.2, ?_⟩
    rintro rfl hnarrow
    by_contra hnot
    push Not at hnot
    obtain ⟨h, hkinds⟩ := @Expr.typedN_commutative k .max _ rfl htn.2
    have hargs : ∀ x ∈ args, x.valueKind = k ∧ ∃ w, Computes x w := by
      intro x hx
      refine ⟨hkinds _ (List.mem_map_of_mem hx), (hparts x hx).foldable ?_⟩
      simpa using hnot x hx
    have hmax := evalConstArgs_narrow h hnarrow hargs
    obtain rfl : Value.identityN k .max = v := Option.some.inj (hmax.symm.trans hv)
    have hik : (Value.identityN k .max).kind = k := identityN_kind h rfl
    obtain ⟨-, -, heval⟩ := hvalue (Value.isValid_of_isScalar (by rw [hik]; exact h))
    have hnormal := Expr.eval_normal ⟨fun _ _ => 0, fun _ => 0, fun _ => 0, fun _ _ => 0⟩ _ ht hk _
      (heval _)
    apply identityN_not_normal h hnarrow
    rw [Value.Normal, hik]
    exact hnormal
  | _ => trivial

/-- Detection and evaluation are exact for all parts of an expression if and only if all of them
fold exactly. -/
theorem evalConst_exact_iff (e : Expr) (ht : e.typed) :
    (∀ s : Expr, s.Within e → s.valueKind.isScalar → Exact s) ↔
      ∀ s : Expr, s.Within e → s.valueKind.isScalar → FoldsExactly s := by
  constructor
  · intro hexact
    induction e using Expr.induct_children with
    | h e ih =>
      have hparts : ∀ x ∈ e.children, ∀ s : Expr, s.Within x → s.valueKind.isScalar →
          FoldsExactly s := fun x hx =>
        ih x hx (Expr.typed_child ht hx) fun s hs => hexact s (.child hx hs)
      intro s hs hk
      cases hs with
      | self => exact folds_of_exact ht hk (hexact _ .self hk) hparts
      | child hx hs => exact hparts _ hx s hs hk
  · intro hf s hs hk
    exact exact_of_folds (hs.typed ht) hk fun r hr => hf r (hr.trans hs)

/-- `3 - 5` on `Int8`. -/
theorem evalConst_exact_iff_sub :
    let e := Expr.binary .int8 .sub (.const ⟨3, .int8⟩ .direct) (.const ⟨5, .int8⟩ .direct) .fresh
    (∀ s : Expr, s.Within e → s.valueKind.isScalar → Exact s) ↔
      ∀ s : Expr, s.Within e → s.valueKind.isScalar → FoldsExactly s :=
  evalConst_exact_iff _ (by decide)

/-- The sum of one variable is a constant expression. -/
theorem not_evalConst_exact_var :
    ¬∀ e : Expr, e.typed → e.valueKind.isScalar → Exact e := by
  intro h
  have hexact := h (.tuple .int8 .add [.var .int8 1] .fresh) rfl rfl
  have hfree := hexact.isConst_iff.mp rfl
  cases hfree

end OneJit
