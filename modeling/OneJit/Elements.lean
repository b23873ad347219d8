import OneJit.Eval
import OneJit.Modular

/-!
# Identity and absorbing elements

`eval_tuple_op` on two values of the form of their kind, and the elements that the optimizer drops
or returns. `Value::min` does not sign-extend its pattern: on the narrow signed kinds the identity
of `MAX` and the absorbing element of `MIN` are not in the form of the kind.
-/

namespace OneJit

open Value

variable {k : Kind} {op : OpN} {a b v : Value}

theorem isAssociative_of_isCommutative (hop : op.isCommutative) : op.isAssociative := by
  cases op <;> first | rfl | cases hop

/-- The extremes of a narrow signed kind. -/
def extremeOfNarrow (k : Kind) (op : OpN) : Bool :=
  k.isNarrowSigned && (op == .max || op == .min)

/-- The identity is in the form of the kind, `MAX` on a narrow signed kind apart. -/
theorem identityN_normalOf (h : k.isScalar) (hop : op.isCommutative)
    (hk : op = .max → k.isNarrowSigned = false) : NormalOf k (identityN k op) := by
  refine ⟨identityN_kind h (isAssociative_of_isCommutative hop), ?_⟩
  cases op with
  | max => exact identityN_normal h (hk rfl)
  | min => exact identityN_min_normal h
  | add | mul | and | or | xor =>
    revert h
    apply Kind.scalar_cases <;> decide
  | _ => cases hop

/-- An operator on values is one on patterns. -/
theorem foldl_pair {f : Value → Value → Value} {g : BitVec 64 → BitVec 64 → BitVec 64} {i : Value}
    (hf : ∀ {a b : Value}, a.kind = k → b.kind = k → f a b = ⟨g a.bits b.bits, k⟩)
    (hi : i.kind = k) (ha : a.kind = k) (hb : b.kind = k) :
    [a, b].foldl f i = ⟨g (g i.bits a.bits) b.bits, k⟩ := by
  rw [List.foldl_cons, List.foldl_cons, List.foldl_nil, hf hi ha, hf rfl hb]

/-- `eval_tuple_op` on two values. -/
theorem evalTupleOp_pair (h : k.isScalar) (hop : op.isCommutative)
    (hk : op = .max → k.isNarrowSigned = false) (ha : NormalOf k a) (hb : NormalOf k b) :
    evalTupleOp k op [a, b] = ⟨k.tupleOp op a.bits b.bits, k⟩ := by
  have hi := identityN_normalOf h hop hk
  have hbits : (identityN k op).bits = k.tupleUnit op := by
    rw [← identityN_meaning h op, hi.normal.meaning]
  have hunit : k.tupleOp op (k.tupleUnit op) a.bits = a.bits :=
    (Kind.tupleMonoid k h op hop).unit_op _ (ha.kind ▸ ha.normal)
  have harith : ∀ {f32 f64 u64}, (∀ x y, k.tupleOp op x y = k.wrap (u64 x y)) →
      [a, b].foldl (arith f32 f64 u64) (identityN k op) = ⟨k.tupleOp op a.bits b.bits, k⟩ := by
    intro f32 f64 u64 hu
    rw [foldl_pair (g := k.tupleOp op) ?_ hi.kind ha.kind hb.kind, hbits, hunit]
    intro x y hx hy
    subst hx
    rw [arith_eq h hy.symm, hu]
  have hbitwise : ∀ {u64}, (∀ x y, k.tupleOp op x y = u64 x y) →
      [a, b].foldl (bitwise u64) (identityN k op) = ⟨k.tupleOp op a.bits b.bits, k⟩ := by
    intro u64 hu
    rw [foldl_pair (g := k.tupleOp op) ?_ hi.kind ha.kind hb.kind, hbits, hunit]
    intro x y hx hy
    subst hx
    rw [bitwise_eq h hy.symm, hu]
  cases op with
  | add => exact harith fun _ _ => rfl
  | mul => exact harith fun _ _ => rfl
  | and => exact hbitwise fun _ _ => rfl
  | or => exact hbitwise fun _ _ => rfl
  | xor => exact hbitwise fun _ _ => rfl
  | max =>
    obtain ⟨hkind, hresult⟩ := evalExtreme_max h hi.kind ha.kind hb.kind
    rw [hbits, hunit] at hresult
    exact Value.ext hresult hkind
  | min =>
    obtain ⟨hkind, hresult⟩ := evalExtreme_min h hi.kind ha.kind hb.kind
    rw [hbits, hunit] at hresult
    exact Value.ext hresult hkind
  | _ => cases hop

/-! ## The laws -/

/-- The identity may be dropped, and the absorbing element decides the result. -/
structure ElementLaws (k : Kind) (op : OpN) (v : Value) : Prop where
  identity_normal : NormalOf k (identityN k op)
  identity_left : evalTupleOp k op [identityN k op, v] = v
  identity_right : evalTupleOp k op [v, identityN k op] = v
  valid : v.isValid
  absorbing_normal : (absorbing k op).isValid → NormalOf k (absorbing k op)
  absorbing_left : (absorbing k op).isValid →
    evalTupleOp k op [absorbing k op, v] = absorbing k op
  absorbing_right : (absorbing k op).isValid →
    evalTupleOp k op [v, absorbing k op] = absorbing k op

theorem evalTupleOp_identity (h : k.isScalar) (hop : op.isCommutative)
    (hk : op = .max → k.isNarrowSigned = false) (hv : NormalOf k v) :
    evalTupleOp k op [identityN k op, v] = v ∧ evalTupleOp k op [v, identityN k op] = v := by
  have hi := identityN_normalOf h hop hk
  have hbits : (identityN k op).bits = k.tupleUnit op := by
    rw [← identityN_meaning h op, hi.normal.meaning]
  have hvn : k.wrap v.bits = v.bits := hv.kind ▸ hv.normal
  have hself : v = ⟨v.bits, k⟩ := Value.ext rfl hv.kind
  rw [evalTupleOp_pair h hop hk hi hv, evalTupleOp_pair h hop hk hv hi, hbits]
  have hleft : k.tupleOp op (k.tupleUnit op) v.bits = v.bits :=
    (Kind.tupleMonoid k h op hop).unit_op _ hvn
  have hright : k.tupleOp op v.bits (k.tupleUnit op) = v.bits :=
    (Kind.tupleMonoid k h op hop).op_unit hvn
  rw [hleft, hright]
  exact ⟨hself.symm, hself.symm⟩

/-- The absorbing element, where there is one, is in the form of the kind, `MIN` on a narrow signed
kind apart. -/
theorem absorbing_normalOf (h : k.isScalar) (hop : op.isCommutative)
    (hk : op = .min → k.isNarrowSigned = false) (hvalid : (absorbing k op).isValid) :
    NormalOf k (absorbing k op) := by
  cases op with
  | min =>
    have hnarrow := hk rfl
    clear hk hop hvalid
    revert h hnarrow
    apply Kind.scalar_cases <;> first | exact fun _ => ⟨rfl, rfl⟩ | exact fun hn => by cases hn
  | mul | and | or | max =>
    clear hk hop hvalid
    revert h
    apply Kind.scalar_cases <;> exact ⟨rfl, rfl⟩
  | add | xor =>
    simp only [absorbing, OpN.isBitwise, Kind.not_isFloat h, Bool.and_false] at hvalid
    cases hvalid
  | _ => cases hop

theorem evalTupleOp_absorbing (h : k.isScalar) (hop : op.isCommutative)
    (hk : extremeOfNarrow k op = false) (hv : NormalOf k v) (hvalid : (absorbing k op).isValid) :
    evalTupleOp k op [absorbing k op, v] = absorbing k op ∧
      evalTupleOp k op [v, absorbing k op] = absorbing k op := by
  have hmax : op = .max → k.isNarrowSigned = false := by
    rintro rfl
    simpa [extremeOfNarrow] using hk
  have hmin : op = .min → k.isNarrowSigned = false := by
    rintro rfl
    simpa [extremeOfNarrow] using hk
  have habs := absorbing_normalOf h hop hmin hvalid
  have hvn : k.wrap v.bits = v.bits := hv.kind ▸ hv.normal
  have hself : absorbing k op = ⟨(absorbing k op).bits, k⟩ := Value.ext rfl habs.kind
  have hsound := absorbing_sound h hop habs.kind v.bits hvn
  rw [habs.normal.meaning] at hsound
  rw [evalTupleOp_pair h hop hmax habs hv, evalTupleOp_pair h hop hmax hv habs]
  have habsn : k.wrap (absorbing k op).bits = (absorbing k op).bits := by
    have hnormal := habs.normal
    rwa [Value.Normal, habs.kind] at hnormal
  have hcomm : k.tupleOp op v.bits (absorbing k op).bits =
      k.tupleOp op (absorbing k op).bits v.bits :=
    (Kind.tupleMonoid k h op hop).comm _ _ hvn habsn
  rw [← hcomm, hsound]
  exact ⟨hself.symm, hself.symm⟩

/-- The laws hold for every operator and kind but `MAX` and `MIN` on the narrow signed kinds. -/
theorem elementLaws_iff (k : Kind) (h : k.isScalar) (op : OpN) (hop : op.isCommutative) (v : Value)
    (hv : NormalOf k v) : ElementLaws k op v ↔ extremeOfNarrow k op = false := by
  constructor
  · intro hlaws
    rw [extremeOfNarrow, Bool.and_eq_false_iff, Bool.or_eq_false_iff]
    by_contra hnarrow
    rw [not_or, Bool.not_eq_false] at hnarrow
    obtain ⟨hk, hextreme⟩ := hnarrow
    obtain rfl | rfl : op = .max ∨ op = .min := by
      cases op <;> first | exact .inl rfl | exact .inr rfl | exact absurd ⟨rfl, rfl⟩ hextreme
    · have hnormal := hlaws.identity_normal.normal
      clear hlaws hv hop hextreme
      revert h hk hnormal
      apply Kind.scalar_cases <;> decide
    · have hnormal := fun hvalid => (hlaws.absorbing_normal hvalid).normal
      clear hlaws hv hop hextreme
      revert h hk hnormal
      apply Kind.scalar_cases <;> decide
  · intro hk
    have hmax : op = .max → k.isNarrowSigned = false := by
      rintro rfl
      simpa [extremeOfNarrow] using hk
    have hmin : op = .min → k.isNarrowSigned = false := by
      rintro rfl
      simpa [extremeOfNarrow] using hk
    obtain ⟨hleft, hright⟩ := evalTupleOp_identity h hop hmax hv
    exact {
      identity_normal := identityN_normalOf h hop hmax
      identity_left := hleft
      identity_right := hright
      valid := isValid_of_isScalar (hv.kind ▸ h)
      absorbing_normal := absorbing_normalOf h hop hmin
      absorbing_left := fun hvalid => (evalTupleOp_absorbing h hop hk hv hvalid).1
      absorbing_right := fun hvalid => (evalTupleOp_absorbing h hop hk hv hvalid).2 }

/-- `MIN` on `Uint8`. -/
theorem elementLaws_iff_uint8 :
    ElementLaws .uint8 .min ⟨7, .uint8⟩ ↔ extremeOfNarrow .uint8 .min = false :=
  elementLaws_iff .uint8 rfl .min rfl ⟨7, .uint8⟩ ⟨rfl, by decide⟩

/-- `MAX` of its identity and zero on `Int8` is not zero. -/
theorem not_elementLaws_int8 : ¬∀ k : Kind, k.isScalar → ∀ op : OpN, op.isCommutative →
    ∀ v : Value, NormalOf k v → ElementLaws k op v := by
  intro h
  have hlaws := h .int8 rfl .max rfl ⟨0, .int8⟩ ⟨rfl, by decide⟩
  have hne : evalTupleOp .int8 .max [identityN .int8 .max, ⟨0, .int8⟩] ≠ ⟨0, .int8⟩ := by decide
  exact hne hlaws.identity_left

end OneJit
