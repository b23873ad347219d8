import OneJit.Arith

/-!
# Constant evaluation

`eval_unary_op`, `eval_binary_op` and `eval_tuple_op`, and when their results mean what the
operators mean. A constant whose bits are not in the form of its kind is evaluated wrongly by the
operators that look at the high bits.
-/

namespace OneJit

/-- `eval_unary_op`. -/
def evalUnaryOp (kind : Kind) (op : Op1) (x : Value) : Value :=
  match op with
  | .xor1 => x.compl
  | .not1 => x.isZero
  | .neg1 => x.neg
  | .cast => x.cast kind
  | .bitcopy => x.bitcopy kind
  | .bad1 => .invalid

/-- `eval_binary_op`. -/
def evalBinaryOp (op : Op2) (x y : Value) : Option Value :=
  match op with
  | .sub => some (x.sub y)
  | .quo => x.quo y
  | .rem => x.rem y
  | .shl => x.shl y
  | .shr => x.shr y
  | .land => some (x.logicalAnd y)
  | .lor => some (x.logicalOr y)
  | .lss => some (x.lt y)
  | .leq => some (x.le y)
  | .neq => some (x.ne y)
  | .eql => some (x.eq y)
  | .gtr => some (x.gt y)
  | .geq => some (x.ge y)
  | .bad2 => some .invalid

/-- The loop of `eval_tuple_op` for `MAX` and `MIN`: an invalid comparison ends it. -/
def evalExtreme (pick : Bool → Value → Value → Value) : Value → List Value → Value
  | x, [] => x
  | x, v :: vs =>
    let cmp := x.lt v
    if cmp.isValid then evalExtreme pick (pick cmp.toBool v x) vs else .invalid

/-- `eval_tuple_op`. -/
def evalTupleOp (kind : Kind) (op : OpN) (vs : List Value) : Value :=
  let x := Value.identityN kind op
  match op with
  | .add => vs.foldl Value.add x
  | .mul => vs.foldl Value.mul x
  | .and => vs.foldl Value.and x
  | .or => vs.foldl Value.or x
  | .xor => vs.foldl Value.xor x
  | .max => evalExtreme (fun cmp v x => if cmp then v else x) x vs
  | .min => evalExtreme (fun cmp v x => if cmp then x else v) x vs
  | .comma => if vs.all Value.isValid then vs.getLast?.getD x else .invalid
  | _ => x

/-! ## When folding is right -/

/-- The operand of a folded `Op1` may be in any form where the result depends on its low bits. -/
def unaryFolds (kind : Kind) (op : Op1) (x : Value) : Prop :=
  match op with
  | .xor1 | .neg1 | .bad1 => True
  | .not1 => x.Normal
  | .cast | .bitcopy => kind.bitsize ≤ x.kind.bitsize ∨ x.Normal

instance (kind : Kind) (op : Op1) (x : Value) : Decidable (unaryFolds kind op x) := by
  unfold unaryFolds
  split <;> infer_instance

/-- A kind whose extremes `Value::min` does not sign-extend. -/
def Kind.isNarrowSigned (k : Kind) : Bool := k.group == .gInt && k.bitsize != 64

/-- A constant that is folded into an `OpN`. `MAX` starts from a wrong pattern on the narrow
signed kinds and loses every constant but the least one; `COMMA` loses its last constants. -/
def tupleFolds (kind : Kind) (op : OpN) (c : Value) : Prop :=
  match op with
  | .max => c.Normal ∧ (kind.isNarrowSigned → c.bits = kind.minimum)
  | .min => c.Normal
  | .comma => False
  | _ => True

instance (kind : Kind) (op : OpN) (c : Value) : Decidable (tupleFolds kind op c) := by
  unfold tupleFolds
  split <;> infer_instance

/-- The host has a result for the folded `Op2`, and its operands are in the form of their kinds
where the result depends on the high bits. -/
def binaryFolds (op : Op2) (x y : Value) : Prop :=
  match op with
  | .sub | .bad2 => True
  | .shl => x.kind = y.kind → y.Normal ∧ y.bits.toNat < 64
  | .shr => x.kind = y.kind → x.Normal ∧ y.Normal ∧ y.bits.toNat < 64
  | .quo | .rem => x.Normal ∧ y.Normal ∧ y.bits ≠ 0 ∧
      (x.kind.group = .gInt → Value.intDivDefined x.bits y.bits)
  | _ => x.Normal ∧ y.Normal

instance (op : Op2) (x y : Value) : Decidable (binaryFolds op x y) := by
  unfold binaryFolds
  split <;> infer_instance

namespace Value

theorem compl_eq {x : Value} (h : x.kind.isScalar) : x.compl = ⟨x.kind.wrap (~~~x.bits), x.kind⟩ := by
  rw [compl, if_neg (by simp [Kind.ne_float32 h, Kind.ne_float64 h]), extendOrTruncate_eq h]

theorem neg_eq {x : Value} (h : x.kind.isScalar) : x.neg = ⟨x.kind.wrap (-x.bits), x.kind⟩ := by
  rw [neg, if_neg (Kind.ne_float32 h), if_neg (Kind.ne_float64 h), extendOrTruncate_eq h]

theorem isZero_eq {x : Value} (h : x.kind.isScalar) : x.isZero = ofBool (x.bits == 0) := by
  rw [isZero, eq_eq (b := zero x.kind) h rfl]
  rfl

theorem meaning_mk {k : Kind} (h : k.isScalar) (b : BitVec 64) :
    (Value.mk (k.wrap b) k).meaning = k.wrap b := Kind.wrap_wrap h b

@[simp] theorem meaning_ofBool (b : Bool) : (ofBool b).meaning = if b then 1 else 0 := by
  cases b <;> rfl

end Value

/-- Casting by the low bits when the kind does not grow, or of a pattern in normal form. -/
theorem wrap_of_folds {k : Kind} {x : Value} (hx : x.kind.isScalar)
    (h : k.bitsize ≤ x.kind.bitsize ∨ x.Normal) : k.wrap x.bits = k.wrap x.meaning := by
  rcases h with hle | hnormal
  · apply Kind.wrap_congr
    have hlow := Kind.setWidth_wrap hx x.bits
    have htrunc := congrArg (BitVec.setWidth k.bitsize) hlow
    rw [BitVec.setWidth_setWidth_of_le _ hle, BitVec.setWidth_setWidth_of_le _ hle] at htrunc
    exact htrunc.symm
  · rw [hnormal.meaning]

/-- A folded `Op1` means what the operator means. -/
theorem evalUnaryOp_sound {k : Kind} {op : Op1} {x : Value} (ht : Kind.typed1 k op x.kind)
    (hf : unaryFolds k op x) :
    (evalUnaryOp k op x).kind = k ∧
      Kind.evalUnary k op x.meaning = some (evalUnaryOp k op x).meaning := by
  cases op with
  | bad1 => cases ht
  | xor1 =>
    simp only [Kind.typed1, Bool.and_eq_true, beq_iff_eq] at ht
    obtain ⟨rfl, h⟩ := ht
    rw [evalUnaryOp, Value.compl_eq h, Value.meaning_mk h, Kind.evalUnary, Value.meaning,
      Kind.wrap_not h]
    exact ⟨rfl, rfl⟩
  | neg1 =>
    simp only [Kind.typed1, Bool.and_eq_true, beq_iff_eq] at ht
    obtain ⟨rfl, h⟩ := ht
    rw [evalUnaryOp, Value.neg_eq h, Value.meaning_mk h, Kind.evalUnary, Value.meaning,
      Kind.wrap_neg h]
    exact ⟨rfl, rfl⟩
  | not1 =>
    simp only [Kind.typed1, Bool.and_eq_true, beq_iff_eq] at ht
    obtain ⟨rfl, h⟩ := ht
    have hnormal : x.Normal := hf
    rw [evalUnaryOp, Value.isZero_eq h, Kind.evalUnary, hnormal.meaning, Value.meaning_ofBool]
    simp
  | cast =>
    simp only [Kind.typed1, Bool.and_eq_true] at ht
    rw [evalUnaryOp, Kind.evalUnary]
    by_cases hk : x.kind = k
    · subst hk
      rw [Value.cast, if_pos rfl, Value.meaning, Kind.wrap_wrap ht.1]
      exact ⟨rfl, rfl⟩
    · rw [Value.cast_eq ht.2 ht.1 hk, Value.meaning_mk ht.1, wrap_of_folds ht.2 hf]
      exact ⟨rfl, rfl⟩
  | bitcopy =>
    simp only [Kind.typed1, Bool.and_eq_true] at ht
    rw [evalUnaryOp, Value.bitcopy, Value.extendOrTruncate_eq ht.1, Value.meaning_mk ht.1,
      Kind.evalUnary, wrap_of_folds ht.2 hf]
    exact ⟨rfl, rfl⟩

theorem logicalAnd_eq {x y : Value} (hx : x.kind = .bool) (hy : y.kind = .bool) :
    x.logicalAnd y = Value.ofBool (x.boolean && y.boolean) := by
  rw [Value.logicalAnd, if_pos ⟨hx, hy⟩]

theorem logicalOr_eq {x y : Value} (hx : x.kind = .bool) (hy : y.kind = .bool) :
    x.logicalOr y = Value.ofBool (x.boolean || y.boolean) := by
  rw [Value.logicalOr, if_pos ⟨hx, hy⟩]

/-- A Bool in normal form is zero or one. -/
theorem bool_normal {x : Value} (hx : x.kind = .bool) (h : x.Normal) :
    x.bits = if x.boolean then 1 else 0 := by
  obtain ⟨bits, kind⟩ := x
  simp only at hx
  subst hx
  have hwrap : bits = (bits.setWidth 1).setWidth 64 := h.symm
  have hone : bits.setWidth 1 = 0#1 ∨ bits.setWidth 1 = 1#1 := by
    generalize bits.setWidth 1 = b
    revert b
    decide
  rcases hone with hzero | hone
  · rw [hzero] at hwrap
    subst hwrap
    rfl
  · rw [hone] at hwrap
    subst hwrap
    rfl

/-- A folded `Op2`, when the host has a result of the same kind, means what the operator means. -/
theorem evalBinaryOp_sound {k : Kind} {op : Op2} {x y : Value}
    (ht : Kind.typed2 k op x.kind y.kind) (hf : binaryFolds op x y) :
    ∃ v, evalBinaryOp op x y = some v ∧ (v.isValid → v.kind = k ∧
      ∀ w, Kind.evalBinary x.kind op x.meaning y.meaning = some w → v.meaning = w) := by
  cases op with
  | bad2 => cases ht
  | sub =>
    simp only [Kind.typed2, Bool.and_eq_true, beq_iff_eq] at ht
    obtain ⟨⟨rfl, hxy⟩, h⟩ := ht
    refine ⟨_, rfl, fun _ => ?_⟩
    rw [Value.sub, Value.arith_eq h hxy, Value.meaning_mk h, Kind.evalBinary, Value.meaning,
      Value.meaning, ← hxy, Kind.wrap_sub h]
    exact ⟨rfl, fun w hw => Option.some.inj hw⟩
  | quo =>
    simp only [Kind.typed2, Bool.and_eq_true, beq_iff_eq] at ht
    obtain ⟨⟨rfl, hxy⟩, h⟩ := ht
    obtain ⟨hx, hy, hzero, hdef⟩ := hf
    rw [evalBinaryOp, Value.quo, if_neg (not_not_intro hxy), if_neg (Kind.ne_float32 h),
      if_neg (Kind.ne_float64 h), Kind.evalBinary, hx.meaning, hy.meaning, if_neg hzero]
    by_cases hint : x.kind.group = .gInt
    · rw [if_pos hint, if_pos hint, if_pos (hdef hint), Value.extendOrTruncate_eq h]
      refine ⟨_, rfl, fun _ => ⟨rfl, fun w hw => ?_⟩⟩
      rw [if_neg hzero] at hw
      rw [Value.meaning_mk h]
      exact Option.some.inj hw
    · rw [if_neg hint, if_neg hint, if_neg hzero, Value.extendOrTruncate_eq h]
      refine ⟨_, rfl, fun _ => ⟨rfl, fun w hw => ?_⟩⟩
      rw [Value.meaning_mk h]
      exact Option.some.inj hw
  | rem =>
    simp only [Kind.typed2, Bool.and_eq_true, beq_iff_eq] at ht
    obtain ⟨⟨rfl, hxy⟩, h⟩ := ht
    obtain ⟨hx, hy, hzero, hdef⟩ := hf
    have hcond : ¬(x.kind ≠ y.kind ∨ x.kind = .float32 ∨ x.kind = .float64) := by
      simp [← hxy, Kind.ne_float32 h, Kind.ne_float64 h]
    rw [evalBinaryOp, Value.rem, if_neg hcond, Kind.evalBinary, hx.meaning, hy.meaning,
      if_neg hzero]
    by_cases hint : x.kind.group = .gInt
    · rw [if_pos hint, if_pos hint, if_pos (hdef hint), Value.extendOrTruncate_eq h]
      refine ⟨_, rfl, fun _ => ⟨rfl, fun w hw => ?_⟩⟩
      rw [if_neg hzero] at hw
      rw [Value.meaning_mk h]
      exact Option.some.inj hw
    · rw [if_neg hint, if_neg hint, if_neg hzero, Value.extendOrTruncate_eq h]
      refine ⟨_, rfl, fun _ => ⟨rfl, fun w hw => ?_⟩⟩
      rw [Value.meaning_mk h]
      exact Option.some.inj hw
  | shl =>
    simp only [Kind.typed2, Bool.and_eq_true, beq_iff_eq] at ht
    obtain ⟨⟨rfl, h⟩, -⟩ := ht
    rw [evalBinaryOp, Value.shl]
    by_cases hxy : x.kind = y.kind
    · obtain ⟨hynormal, hlt⟩ := hf hxy
      have hcond : ¬(x.kind ≠ y.kind ∨ x.kind = .float32 ∨ x.kind = .float64) := by
        simp [← hxy, Kind.ne_float32 h, Kind.ne_float64 h]
      rw [if_neg hcond, if_neg (Nat.not_le.mpr hlt), Value.extendOrTruncate_eq h,
        Kind.evalBinary, hynormal.meaning, if_neg (Nat.not_le.mpr hlt)]
      refine ⟨_, rfl, fun _ => ⟨rfl, fun w hw => ?_⟩⟩
      rw [Value.meaning_mk h, ← Kind.wrap_shiftLeft h]
      exact Option.some.inj hw
    · rw [if_pos (.inl hxy)]
      exact ⟨_, rfl, fun hvalid => by cases hvalid⟩
  | shr =>
    simp only [Kind.typed2, Bool.and_eq_true, beq_iff_eq] at ht
    obtain ⟨⟨rfl, h⟩, -⟩ := ht
    rw [evalBinaryOp, Value.shr]
    by_cases hxy : x.kind = y.kind
    · obtain ⟨hxnormal, hynormal, hlt⟩ := hf hxy
      have hcond : ¬(x.kind ≠ y.kind ∨ x.kind = .float32 ∨ x.kind = .float64) := by
        simp [← hxy, Kind.ne_float32 h, Kind.ne_float64 h]
      rw [if_neg hcond, if_neg (Nat.not_le.mpr hlt), Kind.evalBinary, hxnormal.meaning,
        hynormal.meaning, if_neg (Nat.not_le.mpr hlt)]
      by_cases hint : x.kind.group = .gInt
      · rw [if_pos hint, if_pos hint, Value.extendOrTruncate_eq h]
        refine ⟨_, rfl, fun _ => ⟨rfl, fun w hw => ?_⟩⟩
        rw [Value.meaning_mk h]
        exact Option.some.inj hw
      · rw [if_neg hint, if_neg hint, Value.extendOrTruncate_eq h]
        refine ⟨_, rfl, fun _ => ⟨rfl, fun w hw => ?_⟩⟩
        rw [Value.meaning_mk h]
        exact Option.some.inj hw
    · rw [if_pos (.inl hxy)]
      exact ⟨_, rfl, fun hvalid => by cases hvalid⟩
  | land =>
    simp only [Kind.typed2, Bool.and_eq_true, beq_iff_eq] at ht
    obtain ⟨⟨rfl, hx⟩, hy⟩ := ht
    refine ⟨_, rfl, fun _ => ?_⟩
    rw [logicalAnd_eq hx hy, Kind.evalBinary, hf.1.meaning, hf.2.meaning, bool_normal hx hf.1,
      bool_normal hy hf.2, Value.meaning_ofBool]
    refine ⟨rfl, fun w hw => ?_⟩
    rw [← Option.some.inj hw]
    cases x.boolean <;> cases y.boolean <;> rfl
  | lor =>
    simp only [Kind.typed2, Bool.and_eq_true, beq_iff_eq] at ht
    obtain ⟨⟨rfl, hx⟩, hy⟩ := ht
    refine ⟨_, rfl, fun _ => ?_⟩
    rw [logicalOr_eq hx hy, Kind.evalBinary, hf.1.meaning, hf.2.meaning, bool_normal hx hf.1,
      bool_normal hy hf.2, Value.meaning_ofBool]
    refine ⟨rfl, fun w hw => ?_⟩
    rw [← Option.some.inj hw]
    cases x.boolean <;> cases y.boolean <;> rfl
  | _ =>
    simp only [Kind.typed2, Bool.and_eq_true, beq_iff_eq] at ht
    obtain ⟨⟨hk, hxy⟩, h⟩ := ht
    refine ⟨_, rfl, fun _ => ?_⟩
    have hy := hxy ▸ h
    simp only [Value.gt, Value.ge, Value.lt_eq h hxy, Value.le_eq h hxy, Value.ne_eq h hxy,
      Value.eq_eq h hxy, Value.lt_eq hy hxy.symm, Value.le_eq hy hxy.symm, Kind.evalBinary,
      hf.1.meaning, hf.2.meaning, Value.meaning_ofBool, ← hxy]
    exact ⟨hk.symm, fun w hw => Option.some.inj hw⟩

/-! ## Folding into a tuple -/

theorem identityN_kind {k : Kind} (h : k.isScalar) {op : OpN} (hop : op.isAssociative) :
    (Value.identityN k op).kind = k := by
  revert h
  cases op <;> first | (apply Kind.scalar_cases <;> decide) | exact nomatch hop

/-- The identity that the code starts from stands for the unit of the operator. -/
theorem identityN_meaning {k : Kind} (h : k.isScalar) (op : OpN) :
    (Value.identityN k op).meaning = k.tupleUnit op := by
  revert h
  cases op <;> (apply Kind.scalar_cases <;> decide)

theorem identityN_normal {k : Kind} (h : k.isScalar) (hk : k.isNarrowSigned = false) :
    (Value.identityN k .max).Normal := by
  revert h hk
  apply Kind.scalar_cases <;> decide

theorem identityN_min_normal {k : Kind} (h : k.isScalar) : (Value.identityN k .min).Normal := by
  revert h
  apply Kind.scalar_cases <;> decide

/-- The identity of `MAX` on a narrow signed kind is above the least value. -/
theorem identityN_not_lt {k : Kind} (h : k.isScalar) (hk : k.isNarrowSigned) :
    k.less (Value.identityN k .max).bits k.minimum = false := by
  revert h hk
  apply Kind.scalar_cases <;> decide

@[simp] theorem toBool_ofBool (b : Bool) : (Value.ofBool b).toBool = b := by
  cases b <;> rfl

@[simp] theorem isValid_ofBool (b : Bool) : (Value.ofBool b).isValid = true := rfl

/-- What the partial results of the fold have in common. -/
def FoldState (k : Kind) (op : OpN) (v : Value) : Prop :=
  v.kind = k ∧ match op with
  | .max => if k.isNarrowSigned then v = Value.identityN k .max else v.Normal
  | .min => v.Normal
  | _ => True

theorem foldState_identity {k : Kind} (h : k.isScalar) {op : OpN} (hop : op.isAssociative) :
    FoldState k op (Value.identityN k op) := by
  refine ⟨identityN_kind h hop, ?_⟩
  cases op with
  | max =>
    by_cases hk : k.isNarrowSigned
    · simp [hk]
    · simp only [hk]
      exact identityN_normal h (by simpa using hk)
  | min => exact identityN_min_normal h
  | _ => trivial

/-- One step of the loop of `MAX` and `MIN` on constants of one kind. -/
theorem evalExtreme_cons {k : Kind} (h : k.isScalar) (pick : Bool → Value → Value → Value)
    {x v : Value} (hx : x.kind = k) (hv : v.kind = k) (vs : List Value) :
    evalExtreme pick x (v :: vs) = evalExtreme pick (pick (k.less x.bits v.bits) v x) vs := by
  subst hx
  rw [evalExtreme, Value.lt_eq h hv.symm]
  simp

theorem evalExtreme_max {k : Kind} (h : k.isScalar) {x c v : Value} (hx : x.kind = k)
    (hc : c.kind = k) (hv : v.kind = k) :
    let x' := evalExtreme (fun cmp v x => if cmp then v else x) x [c, v]
    x'.kind = k ∧ x'.bits = k.tupleOp .max (k.tupleOp .max x.bits c.bits) v.bits := by
  have hstep : ∀ {x v : Value}, x.kind = k → v.kind = k →
      (if k.less x.bits v.bits then v else x).kind = k ∧
        (if k.less x.bits v.bits then v else x).bits = k.tupleOp .max x.bits v.bits := by
    intro x v hx hv
    rw [Kind.tupleOp]
    split
    · exact ⟨hv, rfl⟩
    · exact ⟨hx, rfl⟩
  have hfirst := hstep hx hc
  have hsecond := hstep hfirst.1 hv
  intro x'
  have hx' : x' = _ := (evalExtreme_cons h _ hx hc [v]).trans (evalExtreme_cons h _ hfirst.1 hv [])
  rw [hx', evalExtreme]
  exact ⟨hsecond.1, hsecond.2.trans (by rw [hfirst.2])⟩

theorem evalExtreme_min {k : Kind} (h : k.isScalar) {x c v : Value} (hx : x.kind = k)
    (hc : c.kind = k) (hv : v.kind = k) :
    let x' := evalExtreme (fun cmp v x => if cmp then x else v) x [c, v]
    x'.kind = k ∧ x'.bits = k.tupleOp .min (k.tupleOp .min x.bits c.bits) v.bits := by
  have hstep : ∀ {x v : Value}, x.kind = k → v.kind = k →
      (if k.less x.bits v.bits then x else v).kind = k ∧
        (if k.less x.bits v.bits then x else v).bits = k.tupleOp .min x.bits v.bits := by
    intro x v hx hv
    refine ⟨by split <;> assumption, Kind.number_inj (k := k) ?_⟩
    rw [Kind.number_min]
    simp only [Kind.less_iff]
    split
    · next hlt => rw [Int.min_eq_left (Int.le_of_lt hlt)]
    · next hlt => rw [Int.min_eq_right (Int.not_lt.mp hlt)]
  have hfirst := hstep hx hc
  have hsecond := hstep hfirst.1 hv
  intro x'
  have hx' : x' = _ := (evalExtreme_cons h _ hx hc [v]).trans (evalExtreme_cons h _ hfirst.1 hv [])
  rw [hx', evalExtreme]
  exact ⟨hsecond.1, hsecond.2.trans (by rw [hfirst.2])⟩

theorem arith_meaning {f32 : Float32 → Float32 → Float32} {f64 : Float → Float → Float}
    {u64 : BitVec 64 → BitVec 64 → BitVec 64} {k : Kind} (h : k.isScalar)
    (hwrap : ∀ a b, k.wrap (u64 (k.wrap a) (k.wrap b)) = k.wrap (u64 a b)) {a b : Value}
    (ha : a.kind = k) (hb : b.kind = k) :
    (Value.arith f32 f64 u64 a b).kind = k ∧
      (Value.arith f32 f64 u64 a b).meaning = k.wrap (u64 a.meaning b.meaning) := by
  subst ha
  rw [Value.arith_eq h hb.symm, Value.meaning_mk h, Value.meaning, Value.meaning, hb, hwrap]
  exact ⟨rfl, rfl⟩

theorem bitwise_meaning {u64 : BitVec 64 → BitVec 64 → BitVec 64} {k : Kind} (h : k.isScalar)
    (hwrap : ∀ a b, k.wrap (u64 a b) = u64 (k.wrap a) (k.wrap b)) {a b : Value}
    (ha : a.kind = k) (hb : b.kind = k) :
    (Value.bitwise u64 a b).kind = k ∧
      (Value.bitwise u64 a b).meaning = u64 a.meaning b.meaning := by
  subst ha
  rw [Value.bitwise_eq h hb.symm]
  refine ⟨rfl, ?_⟩
  rw [Value.meaning, hwrap, Value.meaning, Value.meaning, hb]

/-- The operator `f` on constants stands for `g` on values of kind `k`. -/
def StandsFor (k : Kind) (f : Value → Value → Value) (g : BitVec 64 → BitVec 64 → BitVec 64) :
    Prop :=
  ∀ a b, a.kind = k → b.kind = k →
    (f a b).kind = k ∧ (f a b).meaning = g a.meaning b.meaning

theorem standsFor_add {k : Kind} (h : k.isScalar) : StandsFor k Value.add (k.tupleOp .add) :=
  fun _ _ ha hb => arith_meaning h
    (fun a b => by rw [Kind.wrap_add_left h, Kind.wrap_add_right h]) ha hb

theorem standsFor_mul {k : Kind} (h : k.isScalar) : StandsFor k Value.mul (k.tupleOp .mul) :=
  fun _ _ ha hb => arith_meaning h
    (fun a b => by rw [Kind.wrap_mul_left h, Kind.wrap_mul_right h]) ha hb

theorem standsFor_and {k : Kind} (h : k.isScalar) : StandsFor k Value.and (k.tupleOp .and) :=
  fun _ _ ha hb => bitwise_meaning h (fun a b => Kind.wrap_and a b) ha hb

theorem standsFor_or {k : Kind} (h : k.isScalar) : StandsFor k Value.or (k.tupleOp .or) :=
  fun _ _ ha hb => bitwise_meaning h (fun a b => Kind.wrap_or a b) ha hb

theorem standsFor_xor {k : Kind} (h : k.isScalar) : StandsFor k Value.xor (k.tupleOp .xor) :=
  fun _ _ ha hb => bitwise_meaning h (fun a b => Kind.wrap_xor a b) ha hb

theorem StandsFor.foldl {k : Kind} {f : Value → Value → Value}
    {g : BitVec 64 → BitVec 64 → BitVec 64} (hfg : StandsFor k f g) {x c v : Value}
    (hx : x.kind = k) (hc : c.kind = k) (hv : v.kind = k) :
    ([c, v].foldl f x).kind = k ∧
      ([c, v].foldl f x).meaning = g (g x.meaning c.meaning) v.meaning := by
  have hfirst := hfg x c hx hc
  have hsecond := hfg (f x c) v hfirst.1 hv
  rw [hfirst.2] at hsecond
  exact hsecond

/-- Normal patterns of one kind have the extreme of their meanings. -/
theorem tupleOp_normal {k : Kind} (h : k.isScalar) {op : OpN} (hop : op = .max ∨ op = .min)
    {a b : BitVec 64} (ha : k.wrap a = a) (hb : k.wrap b = b) :
    k.wrap (k.tupleOp op a b) = k.tupleOp op a b := by
  rcases hop with rfl | rfl
  · exact (Kind.tupleMonoid k h .max rfl).valid_op a b ha hb
  · exact (Kind.tupleMonoid k h .min rfl).valid_op a b ha hb

theorem tupleOp_self (k : Kind) {op : OpN} (hop : op = .max ∨ op = .min) (a : BitVec 64) :
    k.tupleOp op a a = a := by
  rcases hop with rfl | rfl
  · simp [Kind.tupleOp]
  · simp [Kind.tupleOp]

/-- Folding normal constants with `MAX` or `MIN`, when the identity is normal too. -/
theorem evalExtreme_sound {k : Kind} (h : k.isScalar) {op : OpN} (hop : op = .max ∨ op = .min)
    {x c v x' : Value} (hc : c.kind = k) (hv : v.kind = k) (hxn : x.Normal)
    (hcn : c.Normal) (hvn : v.Normal)
    (hunit : k.tupleOp op x.meaning c.meaning = c.meaning) (hx' : x'.kind = k ∧
      x'.bits = k.tupleOp op (k.tupleOp op x.bits c.bits) v.bits) :
    x'.Normal ∧ x'.meaning = k.tupleOp op c.meaning v.meaning := by
  rw [hxn.meaning, hcn.meaning] at hunit
  rw [hunit] at hx'
  have hcw : k.wrap c.bits = c.bits := hc ▸ hcn
  have hvw : k.wrap v.bits = v.bits := hv ▸ hvn
  have hnormal : x'.Normal := by
    rw [Value.Normal, hx'.1, hx'.2, tupleOp_normal h hop hcw hvw]
  rw [hnormal.meaning, hcn.meaning, hvn.meaning]
  exact ⟨hnormal, hx'.2⟩

/-- One step of the fold over the trailing constants. -/
theorem evalTupleOp_step {k : Kind} (h : k.isScalar) {op : OpN} (hop : op.isCommutative)
    {c v : Value} (hc : c.kind = k) (hf : tupleFolds k op c) (hv : FoldState k op v) :
    FoldState k op (evalTupleOp k op [c, v]) ∧
      (evalTupleOp k op [c, v]).meaning = k.tupleOp op c.meaning v.meaning := by
  obtain ⟨hvk, hv⟩ := hv
  have hunit := identityN_meaning h op
  have hassoc : op.isAssociative := by cases op <;> first | rfl | cases hop
  have hik := identityN_kind h hassoc
  have hcvalid : k.wrap c.meaning = c.meaning := by rw [Value.meaning, hc, Kind.wrap_wrap h]
  have hunitop : k.tupleOp op (k.tupleUnit op) c.meaning = c.meaning :=
    (Kind.tupleMonoid k h op hop).unit_op _ hcvalid
  have hfold : ∀ {f}, StandsFor k f (k.tupleOp op) →
      ([c, v].foldl f (Value.identityN k op)).kind = k ∧
        ([c, v].foldl f (Value.identityN k op)).meaning = k.tupleOp op c.meaning v.meaning := by
    intro f hfg
    have hpair := hfg.foldl hik hc hvk
    rw [hunit, hunitop] at hpair
    exact hpair
  cases op with
  | add =>
    have hadd := hfold (standsFor_add h)
    exact ⟨⟨hadd.1, trivial⟩, hadd.2⟩
  | mul =>
    have hmul := hfold (standsFor_mul h)
    exact ⟨⟨hmul.1, trivial⟩, hmul.2⟩
  | and =>
    have hand := hfold (standsFor_and h)
    exact ⟨⟨hand.1, trivial⟩, hand.2⟩
  | or =>
    have hor := hfold (standsFor_or h)
    exact ⟨⟨hor.1, trivial⟩, hor.2⟩
  | xor =>
    have hxor := hfold (standsFor_xor h)
    exact ⟨⟨hxor.1, trivial⟩, hxor.2⟩
  | max =>
    obtain ⟨hcn, hleast⟩ := hf
    have hpair := evalExtreme_max h hik hc hvk
    by_cases hk : k.isNarrowSigned
    · -- the least value does not exceed the identity, nor does the identity itself
      simp only [hk, if_true] at hv
      subst hv
      have hless := identityN_not_lt h hk
      have hbits : (evalTupleOp k .max [c, Value.identityN k .max]).bits =
          (Value.identityN k .max).bits := by
        refine hpair.2.trans ?_
        rw [hleast hk]
        simp [Kind.tupleOp, hless, Kind.not_less_self]
      have heq : evalTupleOp k .max [c, Value.identityN k .max] = Value.identityN k .max :=
        Value.ext hbits (hpair.1.trans hik.symm)
      have hcm : c.meaning = k.tupleUnit .max := by rw [hcn.meaning, hleast hk, Kind.tupleUnit]
      rw [heq, hunit, hcm, tupleOp_self k (.inl rfl)]
      exact ⟨⟨hik, by simp [hk]⟩, rfl⟩
    · simp only [hk, Bool.false_eq_true, if_false] at hv
      have hsound := evalExtreme_sound h (.inl rfl) hc hvk
        (identityN_normal h (by simpa using hk)) hcn hv (by rw [hunit, hunitop]) hpair
      exact ⟨⟨hpair.1, by simp only [hk]; exact hsound.1⟩, hsound.2⟩
  | min =>
    have hpair := evalExtreme_min h hik hc hvk
    have hsound := evalExtreme_sound h (.inr rfl) hc hvk (identityN_min_normal h) hf hv
      (by rw [hunit, hunitop]) hpair
    exact ⟨⟨hpair.1, hsound.1⟩, hsound.2⟩
  | _ => cases hop

theorem absorbing_meaning {k : Kind} (h : k.isScalar) :
    (Value.absorbing k .or).meaning = k.wrap (BitVec.allOnes 64) ∧
      (Value.absorbing k .mul).meaning = 0#64 ∧ (Value.absorbing k .and).meaning = 0#64 ∧
      (Value.absorbing k .max).meaning = k.maximum ∧
      (Value.absorbing k .min).meaning = k.minimum := by
  revert h
  apply Kind.scalar_cases <;> decide

/-- The absorbing element, where the code has one, decides the result. -/
theorem absorbing_sound {k : Kind} (h : k.isScalar) {op : OpN} (hop : op.isCommutative)
    (hk : (Value.absorbing k op).kind = k) (a : BitVec 64) (ha : k.wrap a = a) :
    k.tupleOp op a (Value.absorbing k op).meaning = (Value.absorbing k op).meaning := by
  obtain ⟨hor, hmul, hand, hmax, hmin⟩ := absorbing_meaning h
  have hbounds := Kind.number_bounds h ha
  cases op with
  | or =>
    rw [hor, Kind.tupleOp, ← ha, ← Kind.wrap_or, BitVec.or_allOnes]
  | mul =>
    rw [hmul, Kind.tupleOp, BitVec.mul_zero]
    exact Kind.wrap_zero h
  | and =>
    rw [hand, Kind.tupleOp, BitVec.and_zero]
  | max =>
    rw [hmax]
    exact Kind.number_inj (k := k) (by rw [Kind.number_max]; exact Int.max_eq_right hbounds.2)
  | min =>
    rw [hmin]
    exact Kind.number_inj (k := k) (by rw [Kind.number_min]; exact Int.min_eq_right hbounds.1)
  | add | xor =>
    have hbad : (Kind.bad).isScalar := by
      rw [← hk] at h
      simpa [Value.absorbing, Value.invalid, OpN.isBitwise] using h
    cases hbad
  | _ => cases hop

end OneJit
