import OneJit.OptimizerUnary

/-!
# The optimizer on one binary expression

The rules on twice the same operand are right when the two operands that `deep_equal` takes for
equal are the same tree.
-/

namespace OneJit

namespace Value

theorem eq_toBool {a c : Value} (hc : c.kind.isScalar) (h : (a.eq c).toBool) : a = c := by
  by_cases hk : a.kind = c.kind
  · rw [eq_eq (hk ▸ hc) hk, toBool_ofBool, beq_iff_eq] at h
    exact Value.ext h hk
  · rw [eq, relation, if_pos hk] at h
    cases h

theorem extendOrTruncate_kind (k : Kind) (b : BitVec 64) : (extendOrTruncate k b).kind = k := by
  unfold extendOrTruncate
  dsimp only
  split
  · rfl
  · split <;> rfl

theorem cast_ofUint64_scalar {k : Kind} {u : BitVec 64} (h : ((ofUint64 u).cast k).kind.isScalar) :
    k.isScalar := by
  rw [cast] at h
  split at h
  · next hk => exact hk ▸ h
  · split at h
    · cases h
    · split at h
      · cases h
      · rw [if_neg (by simp [ofUint64]), if_neg (by simp [ofUint64]), extendOrTruncate_kind] at h
        exact h

/-- The identity of an `Op2` that has one. -/
theorem identity2_bits {k : Kind} {op : Op2} (h : (identity2 k op).kind.isScalar) :
    (op = .quo ∧ (identity2 k op).bits = 1 ∧ (identity2 k op).kind = k) ∨
      ((op = .sub ∨ op = .shl ∨ op = .shr) ∧ (identity2 k op).bits = 0) := by
  have hk : k.isScalar := by
    cases op <;> first | exact cast_ofUint64_scalar h | cases h
  revert h
  revert hk
  cases op <;> (apply Kind.scalar_cases <;> decide)

end Value

namespace Expr

/-- A constant operand of a logical operator is in normal form. -/
def constNormal : Expr → Bool
  | const v _ => decide v.Normal
  | _ => true

/-- The condition of the rules on an operator and its operands: what `deep_equal` takes for equal
is the same tree, of the kind of its value where that kind is used. -/
def ruleOk (o : Optimizer) (op : Op2) (x y : Expr) : Bool :=
  let equal := deepEqual o.allowMaskPure x y
  match op with
  | .sub | .quo | .rem => !equal || (sameTree x y && x.kind == x.valueKind)
  | .land | .lor => constNormal x && constNormal y
  | .lss | .leq | .neq | .eql | .gtr | .geq => y.isConst || !equal || sameTree x y
  | .shl | .shr | .bad2 => true

/-- The rules are applied to what `partial_eval_binary` leaves. -/
def simplifyBinaryOk (o : Optimizer) (op : Op2) (x y : Expr) : Bool :=
  let expr := Optimizer.partialEvalBinary op x y
  if expr.isValid then
    match expr with
    | .binary _ op' x' y' _ => ruleOk o op' x' y'
    | _ => true
  else ruleOk o op x y

/-- The rules are asked for a condition on the operator and the operands that
`partial_eval_binary` leaves. -/
def rulesMeet (p : Op2 → Expr → Expr → Bool) (op : Op2) (x y : Expr) : Bool :=
  let expr := Optimizer.partialEvalBinary op x y
  if expr.isValid then
    match expr with
    | .binary _ op' x' y' _ => p op' x' y'
    | _ => true
  else p op x y

/-- The condition of the step on an `Op2`. -/
def binaryOk (o : Optimizer) (op : Op2) (x y : Expr) : Bool :=
  match x, y with
  | .const v _, .const w _ =>
    if o.flags.foldConstant then decide (binaryFolds op v w)
    else !o.flags.simplifyExpr || simplifyBinaryOk o op x y
  | _, _ => !o.flags.simplifyExpr || simplifyBinaryOk o op x y

/-! ## `partial_eval_binary` -/

theorem refines_swap {k : Kind} {op : Op2} (hop : op.isComparison) {x y : Expr} {p : Place}
    (ht : (binary k op x y p).typed) :
    Refines (binary k op x y p) (newBinary op.swapComparison y x) := by
  obtain ⟨hk, hx, hy, hkinds, hscalar⟩ := (typed_comparison hop).mp ht
  have hswap := fun a b => compares_swapComparison hop x.valueKind a b
  rw [newBinary_comparison (hswap 0 0).1]
  refine ⟨(typed_comparison (hswap 0 0).1).mpr ⟨rfl, hy, hx, hkinds.symm, hkinds ▸ hscalar⟩,
    hk.symm, ?_⟩
  intro ρ v hv
  obtain ⟨a, b, ha, hb, hv⟩ := (eval_comparison hop).mp hv
  refine (eval_comparison (hswap a b).1).mpr ⟨b, a, hb, ha, ?_⟩
  rw [← hkinds, (hswap a b).2, hv]

/-- The operators that have an identity, on it. -/
theorem evalBinary_identity {k kx : Kind} {op : Op2} {c : Value} {a v : BitVec 64}
    (ht : k.typed2 op kx c.kind) (ha : kx.wrap a = a)
    (hc : (op = .quo ∧ c.bits = 1) ∨ ((op = .sub ∨ op = .shl ∨ op = .shr) ∧ c.bits = 0))
    (h : kx.evalBinary op a c.meaning = some v) : k = kx ∧ v = a := by
  obtain ⟨-, -, hcs⟩ := typed2_scalar ht
  rw [Value.meaning] at h
  rcases hc with ⟨rfl, hone⟩ | ⟨hop, hzero⟩
  · simp only [Kind.typed2, Bool.and_eq_true, beq_iff_eq] at ht
    refine ⟨ht.1.1, ?_⟩
    rw [hone, Kind.wrap_one hcs, Kind.evalBinary, if_neg (by decide)] at h
    split at h
    · rw [← Option.some.inj h]
      simp [ha]
    · rw [← Option.some.inj h]
      simp [ha]
  · rw [hzero, Kind.wrap_zero hcs] at h
    rcases hop with rfl | rfl | rfl
    all_goals
      simp only [Kind.typed2, Bool.and_eq_true, beq_iff_eq] at ht
      refine ⟨ht.1.1, ?_⟩
      simp [Kind.evalBinary, ha] at h
      exact h.symm

theorem refines_identity {k : Kind} {op : Op2} {x : Expr} {c : Value} {q p : Place}
    (ht : (binary k op x (const c q) p).typed) (hvalid : (Value.identity2 x.kind op).isValid)
    (h : ((Value.identity2 x.kind op).eq c).toBool) :
    Refines (binary k op x (const c q) p) x := by
  rw [typed, Bool.and_eq_true, Bool.and_eq_true] at ht
  obtain ⟨⟨hx, hc⟩, hop⟩ := ht
  have heq : Value.identity2 x.kind op = c := Value.eq_toBool hc h
  have hbits := Value.identity2_bits (heq ▸ hc)
  rw [heq] at hbits
  obtain ⟨hscalar, hkx, -⟩ := typed2_scalar hop
  have hident : ∀ {a v}, x.valueKind.wrap a = a →
      x.valueKind.evalBinary op a c.meaning = some v → k = x.valueKind ∧ v = a := by
    intro a v ha hv
    apply evalBinary_identity hop ha _ hv
    rcases hbits with ⟨hq, hb, -⟩ | hb
    · exact .inl ⟨hq, hb⟩
    · exact .inr hb
  have hdecided : ∀ a, op.decidedBy a = false := by
    intro a
    rcases hbits with ⟨rfl, -⟩ | ⟨rfl | rfl | rfl, -⟩ <;> rfl
  have hk : x.valueKind = k := by
    rcases hbits with ⟨rfl, -⟩ | ⟨rfl | rfl | rfl, -⟩
    all_goals
      simp only [Kind.typed2, Bool.and_eq_true, beq_iff_eq] at hop
      exact hop.1.1.symm
  refine ⟨hx, hk, ?_⟩
  intro ρ v hv
  obtain ⟨a, ha, hv⟩ := eval_binary.mp hv
  rw [hdecided, if_neg (by decide)] at hv
  obtain ⟨b, hb, hv⟩ := hv
  rw [eval] at hb
  rw [← Option.some.inj hb] at hv
  rw [ha, (hident (eval_normal ρ x hx hkx a ha) hv).2]

/-- What `partial_eval_binary` returns: the exchanged comparison, or the first operand of an operator
on its identity. -/
theorem partialEvalBinary_cases {op : Op2} {x y : Expr}
    (hvalid : (Optimizer.partialEvalBinary op x y).isValid) :
    (op.isComparison ∧ Optimizer.partialEvalBinary op x y = newBinary op.swapComparison y x) ∨
      ∃ c q, y = const c q ∧ (Value.identity2 x.kind op).isValid ∧
        ((Value.identity2 x.kind op).eq c).toBool ∧ Optimizer.partialEvalBinary op x y = x := by
  unfold Optimizer.partialEvalBinary at hvalid ⊢
  by_cases hchanged : Optimizer.swapsOperands op x y
  · have hop : op.isComparison := by
      simp only [Optimizer.swapsOperands, Bool.and_eq_true] at hchanged
      exact hchanged.2
    have hnone : ∀ k', (Value.identity2 k' op.swapComparison).isValid = false := by
      intro k'
      cases op <;> first | rfl | cases hop
    refine .inl ⟨hop, ?_⟩
    simp only [hchanged, if_true, hnone, Bool.false_and, Bool.true_and] at hvalid ⊢
    have hbranch : ∀ e, e = (if y.isValid && x.isValid then newBinary op.swapComparison y x
        else none) → e.isValid → e = newBinary op.swapComparison y x := by
      intro e he hv
      subst he
      split at hv
      · next hxy => rw [if_pos hxy]
      · cases hv
    cases x <;> exact hbranch _ rfl hvalid
  · simp only [hchanged, Bool.false_eq_true, if_false, Bool.false_and] at hvalid ⊢
    cases y with
    | const c q =>
      dsimp only at hvalid ⊢
      split at hvalid
      · next hident =>
        rw [if_pos hident]
        rw [Bool.and_eq_true] at hident
        exact .inr ⟨c, q, rfl, hident.1, hident.2, rfl⟩
      · cases hvalid
    | _ => cases hvalid

theorem partialEvalBinary_refines {k : Kind} {op : Op2} {x y : Expr} {p : Place}
    (ht : (binary k op x y p).typed)
    (hvalid : (Optimizer.partialEvalBinary op x y).isValid) :
    Refines (binary k op x y p) (Optimizer.partialEvalBinary op x y) := by
  rcases partialEvalBinary_cases hvalid with ⟨hop, heq⟩ | ⟨c, q, rfl, hident, hequal, heq⟩
  · rw [heq]
    exact refines_swap hop ht
  · rw [heq]
    exact refines_identity ht hident hequal

/-! ## Twice the same operand -/

/-- The value of an operator on two trees that are the same. -/
theorem eval_same {ρ : Valuation} {k : Kind} {op : Op2} {x y : Expr} {p : Place} {v : BitVec 64}
    (hsame : sameTree x y) (hop : ∀ a, op.decidedBy a = false)
    (h : eval ρ (binary k op x y p) = some v) :
    ∃ a, eval ρ x = some a ∧ x.valueKind.evalBinary op a a = some v := by
  obtain ⟨a, ha, h⟩ := eval_binary.mp h
  rw [hop, if_neg (by decide)] at h
  obtain ⟨b, hb, h⟩ := h
  rw [← (agree_of_sameTree hsame).eval ρ, ha] at hb
  rw [← Option.some.inj hb] at h
  exact ⟨a, ha, h⟩

theorem typed2_arith {k kx ky : Kind} {op : Op2} (hop : op = .sub ∨ op = .quo ∨ op = .rem)
    (h : k.typed2 op kx ky) : kx = k ∧ k.isScalar := by
  rcases hop with rfl | rfl | rfl
  all_goals
    simp only [Kind.typed2, Bool.and_eq_true, beq_iff_eq] at h
    exact ⟨h.1.1.symm, h.2⟩

/-- A quotient or a remainder of a number and itself. -/
theorem evalBinary_self {k : Kind} (h : k.isScalar) {op : Op2} {a v : BitVec 64}
    (hop : op = .sub ∨ op = .quo ∨ op = .rem) (hv : k.evalBinary op a a = some v) :
    v = if op = .quo then 1 else 0 := by
  rcases hop with rfl | rfl | rfl
  · simp only [Kind.evalBinary, BitVec.sub_self, Option.some.injEq] at hv
    rw [← hv, if_neg (by decide)]
    exact Kind.wrap_zero h
  · simp only [Kind.evalBinary] at hv
    split at hv
    · cases hv
    · next hzero =>
      rw [if_pos rfl]
      split at hv
      · have hne : a.toInt ≠ 0 := fun hint => hzero (BitVec.eq_of_toInt_eq (by simpa using hint))
        rw [Int.tdiv_self hne] at hv
        rw [← Option.some.inj hv]
        exact Kind.wrap_one h
      · have hone : a / a = 1#64 := by
          apply BitVec.eq_of_toNat_eq
          have hpos : 0 < a.toNat := Nat.pos_of_ne_zero fun hnat =>
            hzero (BitVec.eq_of_toNat_eq (by simpa using hnat))
          rw [BitVec.toNat_udiv, Nat.div_self hpos]
          rfl
        rw [hone] at hv
        rw [← Option.some.inj hv]
        exact Kind.wrap_one h
  · simp only [Kind.evalBinary] at hv
    rw [if_neg (by decide)]
    split at hv
    · cases hv
    · split at hv
      · rw [Int.tmod_self] at hv
        rw [← Option.some.inj hv]
        exact Kind.wrap_zero h
      · rw [BitVec.umod_self] at hv
        rw [← Option.some.inj hv]
        exact Kind.wrap_zero h

theorem decidedBy_arith {op : Op2} (hop : op = .sub ∨ op = .quo ∨ op = .rem) (a : BitVec 64) :
    op.decidedBy a = false := by
  rcases hop with rfl | rfl | rfl <;> rfl

theorem simplifySelf_refines {o : Optimizer} {k : Kind} {op : Op2} {x y result : Expr}
    {p : Place} (hop : op = .sub ∨ op = .quo ∨ op = .rem) (ht : (binary k op x y p).typed)
    (hok : ruleOk o op x y)
    (hresult : k.isScalar → k = x.kind →
      result = const ⟨if op = .quo then 1 else 0, k⟩ .direct)
    (hvalid : (o.simplifySelf x y result).isValid) :
    Refines (binary k op x y p) (o.simplifySelf x y result) := by
  rw [typed, Bool.and_eq_true] at ht
  obtain ⟨hk, hscalar⟩ := typed2_arith hop ht.2
  rw [Optimizer.simplifySelf] at hvalid ⊢
  by_cases hequal : deepEqual o.allowMaskPure x y
  · rw [if_pos hequal]
    have hsame : sameTree x y ∧ x.kind = x.valueKind := by
      rcases hop with rfl | rfl | rfl <;> simpa [ruleOk, hequal] using hok
    rw [hresult hscalar (hk.symm.trans hsame.2.symm)]
    apply refines_const rfl hscalar
    intro ρ v hv
    obtain ⟨a, -, hv⟩ := eval_same hsame.1 (decidedBy_arith hop) hv
    rw [hk] at hv
    rw [evalBinary_self hscalar hop hv, Value.meaning]
    split
    · exact (Kind.wrap_one hscalar).symm
    · exact (Kind.wrap_zero hscalar).symm
  · rw [if_neg hequal] at hvalid
    cases hvalid

/-! ## Logical operators -/

theorem typed_logical {k : Kind} {op : Op2} (hop : op = .land ∨ op = .lor) {x y : Expr}
    {p : Place} (h : (binary k op x y p).typed) :
    k = .bool ∧ (x.typed ∧ x.valueKind = .bool) ∧ y.typed ∧ y.valueKind = .bool := by
  rw [typed, Bool.and_eq_true, Bool.and_eq_true] at h
  rcases hop with rfl | rfl
  all_goals
    simp only [Kind.typed2, Bool.and_eq_true, beq_iff_eq] at h
    exact ⟨h.2.1.1, ⟨h.1.1, h.2.1.2⟩, h.1.2, h.2.2⟩

/-- A Bool is zero or one. -/
theorem eval_bool {ρ : Valuation} {e : Expr} (ht : e.typed) (hk : e.valueKind = .bool)
    {a : BitVec 64} (h : eval ρ e = some a) : a = 0 ∨ a = 1 := by
  have hnormal := eval_normal ρ e ht (hk ▸ rfl) a h
  rw [hk] at hnormal
  have hbool := bool_normal (x := ⟨a, .bool⟩) rfl hnormal
  change a = _ at hbool
  rw [hbool]
  split
  · exact .inr rfl
  · exact .inl rfl

/-- The value of a logical operator: the first operand, unless the second one is needed. -/
theorem eval_logical {ρ : Valuation} {k : Kind} {op : Op2} (hop : op = .land ∨ op = .lor)
    {x y : Expr} {p : Place} {v : BitVec 64} (ht : (binary k op x y p).typed)
    (h : eval ρ (binary k op x y p) = some v) :
    ∃ a, eval ρ x = some a ∧
      if a = (if op = .land then 0 else 1) then v = a else eval ρ y = some v := by
  obtain ⟨-, ⟨hx, hxk⟩, -⟩ := typed_logical hop ht
  obtain ⟨a, ha, h⟩ := eval_binary.mp h
  refine ⟨a, ha, ?_⟩
  rcases hop with rfl | rfl
  · rcases eval_bool hx hxk ha with rfl | rfl
    · exact (Option.some.inj h).symm
    · obtain ⟨b, hb, h⟩ := h
      rw [← Option.some.inj h]
      exact hb
  · rcases eval_bool hx hxk ha with rfl | rfl
    · obtain ⟨b, hb, h⟩ := h
      rw [← Option.some.inj h]
      exact hb
    · exact (Option.some.inj h).symm

/-- `simplify_comma` on two operands, the second of which has the value. -/
theorem simplifyComma_refines {o : Optimizer} {e x y : Expr} (hx : x.typed) (hy : y.typed)
    (hk : y.valueKind = e.valueKind)
    (heval : ∀ ρ v, eval ρ e = some v → (∃ a, eval ρ x = some a) ∧ eval ρ y = some v) :
    Refines e (o.simplifyComma [x, y]) := by
  have hcomma : o.simplifyComma [x, y] = y ∨
      o.simplifyComma [x, y] = .tuple .void .comma [x, y] .fresh := by
    unfold Optimizer.simplifyComma
    by_cases hpure : deepPure o.allowMaskPure x <;> simp [hpure]
  rcases hcomma with heq | heq
  · rw [heq]
    exact ⟨hy, hk, fun ρ v hv => (heval ρ v hv).2⟩
  · rw [heq]
    refine ⟨?_, ?_, ?_⟩
    · simp [typed, typedList, hx, hy, Kind.typedN]
    · rw [← hk]
      exact lastKind_eq rfl
    · intro ρ v hv
      obtain ⟨⟨a, ha⟩, hv⟩ := heval ρ v hv
      refine eval_tuple.mpr ⟨[a, v], ?_, rfl⟩
      rw [evalList, evalList, evalList, ha, hv]
      rfl

/-- A Bool constant in normal form. -/
theorem meaning_bool {c : Value} (hk : c.kind = .bool) (h : c.Normal) :
    c.meaning = if c.toBool then 1 else 0 := by
  rw [h.meaning, Value.toBool_eq (hk ▸ rfl)]
  exact bool_normal hk h

theorem isConst_iff {e : Expr} : e.isConst ↔ ∃ c q, e = const c q := by
  cases e <;> simp [isConst]

/-- What a logical operator with a constant operand is simplified to: the operand that has the
value, after the first one if that may have effects. -/
theorem simplifyBoolean_eq {o : Optimizer} {op : Op2} (hop : op = .land ∨ op = .lor) {x y : Expr} :
    (∀ c q, x = const c q → o.simplifyBoolean op x y =
      if c.toBool = (op == .lor) then x else y) ∧
    (∀ c q, x.isConst = false → y = const c q → o.simplifyBoolean op x y =
      if c.toBool = (op == .lor) then o.simplifyComma [x, y] else x) ∧
    (x.isConst = false → y.isConst = false → o.simplifyBoolean op x y = none) := by
  refine ⟨?_, ?_, ?_⟩
  · intro c q hx
    subst hx
    rcases hop with rfl | rfl <;> cases hc : c.toBool <;> simp [Optimizer.simplifyBoolean, hc]
  · intro c q hx hy
    subst hy
    cases x <;> simp [isConst] at hx
    all_goals
      rcases hop with rfl | rfl <;> cases hc : c.toBool <;> simp [Optimizer.simplifyBoolean, hc]
  · intro hx hy
    cases x <;> simp [isConst] at hx
    all_goals
      cases y <;> simp [isConst] at hy
      all_goals rcases hop with rfl | rfl <;> rfl

/-- A constant decides when its meaning is the value at which the operator stops. -/
theorem meaning_decides {op : Op2} (hop : op = .land ∨ op = .lor) {c : Value}
    (hk : c.kind = .bool) (h : c.Normal) :
    (c.meaning = if op = .land then 0 else 1) ↔ c.toBool = (op == .lor) := by
  rw [meaning_bool hk h]
  rcases hop with rfl | rfl <;> cases c.toBool <;> decide

theorem refines_left_const {o : Optimizer} {k : Kind} {op : Op2} (hop : op = .land ∨ op = .lor)
    {c : Value} {q p : Place} {y : Expr} (ht : (binary k op (const c q) y p).typed)
    (hc : c.Normal) : Refines (binary k op (const c q) y p) (o.simplifyBoolean op (const c q) y) := by
  obtain ⟨rfl, ⟨hx, hxk⟩, hy, hyk⟩ := typed_logical hop ht
  rw [(simplifyBoolean_eq hop).1 c q rfl]
  have hdecides := meaning_decides hop hxk hc
  have heval : ∀ ρ v, eval ρ (binary .bool op (const c q) y p) = some v →
      if c.toBool = (op == .lor) then v = c.meaning else eval ρ y = some v := by
    intro ρ v hv
    obtain ⟨a, ha, hv⟩ := eval_logical hop ht hv
    rw [eval, Option.some.injEq] at ha
    subst ha
    simpa only [hdecides] using hv
  split
  · next hstop =>
    simp only [hstop, if_true] at heval
    exact refines_const hxk hx heval
  · next hstop =>
    simp only [hstop, if_false] at heval
    exact ⟨hy, hyk, heval⟩

theorem refines_right_const {o : Optimizer} {k : Kind} {op : Op2} (hop : op = .land ∨ op = .lor)
    {c : Value} {q p : Place} {x : Expr} (hxc : x.isConst = false)
    (ht : (binary k op x (const c q) p).typed) (hc : c.Normal) :
    Refines (binary k op x (const c q) p) (o.simplifyBoolean op x (const c q)) := by
  obtain ⟨rfl, ⟨hx, hxk⟩, hy, hyk⟩ := typed_logical hop ht
  rw [(simplifyBoolean_eq hop).2.1 c q hxc rfl]
  have hdecides := meaning_decides hop hyk hc
  have hbool := meaning_bool hyk hc
  have heval : ∀ ρ v, eval ρ (binary .bool op x (const c q) p) = some v →
      ∃ a, eval ρ x = some a ∧ if a = (if op = .land then 0 else 1) then v = a
        else v = c.meaning := by
    intro ρ v hv
    obtain ⟨a, ha, hv⟩ := eval_logical hop ht hv
    rw [eval, Option.some.injEq] at hv
    exact ⟨a, ha, by simpa only [eq_comm (a := v)] using hv⟩
  split
  · next hstop =>
    refine simplifyComma_refines hx hy hyk ?_
    intro ρ v hv
    obtain ⟨a, ha, hv⟩ := heval ρ v hv
    refine ⟨⟨a, ha⟩, ?_⟩
    rw [eval, Option.some.injEq]
    by_cases hdecided : a = if op = .land then 0 else 1
    · rw [if_pos hdecided] at hv
      rw [hv, hdecided]
      exact hdecides.mpr hstop
    · rw [if_neg hdecided] at hv
      exact hv.symm
  · next hgo =>
    refine ⟨hx, hxk, ?_⟩
    intro ρ v hv
    obtain ⟨a, ha, hv⟩ := heval ρ v hv
    rw [ha, Option.some.injEq]
    by_cases hdecided : a = if op = .land then 0 else 1
    · rw [if_pos hdecided] at hv
      exact hv.symm
    · rw [if_neg hdecided] at hv
      -- neither Bool is the one at which the operator stops
      have hne := fun h => hgo (hdecides.mp h)
      rw [hv, hbool]
      rw [hbool] at hne
      rcases eval_bool hx hxk ha with rfl | rfl
      · rcases hop with rfl | rfl
        · exact absurd rfl hdecided
        · cases hc : c.toBool with
          | true => rw [hc] at hne; exact absurd rfl hne
          | false => rfl
      · rcases hop with rfl | rfl
        · cases hc : c.toBool with
          | true => rfl
          | false => rw [hc] at hne; exact absurd rfl hne
        · exact absurd rfl hdecided

theorem simplifyBoolean_refines {o : Optimizer} {k : Kind} {op : Op2} {x y : Expr} {p : Place}
    (hop : op = .land ∨ op = .lor) (ht : (binary k op x y p).typed) (hok : ruleOk o op x y)
    (hvalid : (o.simplifyBoolean op x y).isValid) :
    Refines (binary k op x y p) (o.simplifyBoolean op x y) := by
  have hnormal : constNormal x ∧ constNormal y := by
    rcases hop with rfl | rfl <;> simpa [ruleOk] using hok
  cases hxc : x.isConst with
  | true =>
    obtain ⟨c, q, rfl⟩ := isConst_iff.mp hxc
    exact refines_left_const hop ht (of_decide_eq_true hnormal.1)
  | false =>
    cases hyc : y.isConst with
    | true =>
      obtain ⟨c, q, rfl⟩ := isConst_iff.mp hyc
      exact refines_right_const hop hxc ht (of_decide_eq_true hnormal.2)
    | false =>
      rw [(simplifyBoolean_eq hop).2.2 hxc hyc] at hvalid
      cases hvalid

/-! ## Comparisons -/

/-- Nothing is below zero. -/
theorem less_zero {k : Kind} (h : k.isUnsigned) (a : BitVec 64) :
    k.less a 0 = false ∧ k.less 0 a = (a != 0) := by
  have hint : k.group ≠ .gInt := by
    intro hk
    simp [Kind.isUnsigned, Kind.isSigned, hk] at h
  rw [Kind.less, Kind.less, if_neg hint, if_neg hint]
  constructor
  · simp [BitVec.ult]
  · rw [Bool.eq_iff_iff, bne_iff_ne]
    simp only [BitVec.ult, decide_eq_true_eq]
    change 0 < a.toNat ↔ a ≠ 0
    rw [Nat.pos_iff_ne_zero, not_iff_not]
    constructor
    · intro ha
      exact BitVec.eq_of_toNat_eq ha
    · intro ha
      rw [ha]
      rfl

theorem simplifyComparison_unsigned {o : Optimizer} {k : Kind} {op : Op2} {x : Expr} {c : Value}
    {q p : Place} (hop : op.isComparison) (ht : (binary k op x (const c q) p).typed)
    (hk : c.kind.isUnsigned) (hzero : c.isZero.toBool)
    (hvalid : (o.simplifyComparison op x (const c q)).isValid) :
    Refines (binary k op x (const c q) p) (o.simplifyComparison op x (const c q)) := by
  obtain ⟨rfl, hx, hy, hkinds, hscalar⟩ := (typed_comparison hop).mp ht
  have hkx : x.valueKind = c.kind := hkinds
  have hmeaning : c.meaning = 0 := by
    rw [Value.isZero_eq hy, toBool_ofBool, beq_iff_eq] at hzero
    rw [Value.meaning, hzero, Kind.wrap_zero hy]
  have heval : ∀ ρ v, eval ρ (binary .bool op x (const c q) p) = some v →
      ∃ a, eval ρ x = some a ∧ (if compares x.valueKind op a 0 then 1 else 0) = v := by
    intro ρ v hv
    obtain ⟨a, b, ha, hb, hv⟩ := (eval_comparison hop).mp hv
    rw [eval, hmeaning] at hb
    rw [← Option.some.inj hb] at hv
    exact ⟨a, ha, hv⟩
  have hless := less_zero (hkx ▸ hk)
  have hconst : ∀ b : Bool, (∀ a, compares x.valueKind op a 0 = b) →
      Refines (binary .bool op x (const c q) p)
        (o.simplifyComma [x, const (Value.ofBool b) .direct]) := by
    intro b hb
    refine simplifyComma_refines hx rfl rfl ?_
    intro ρ v hv
    obtain ⟨a, ha, hv⟩ := heval ρ v hv
    rw [hb] at hv
    refine ⟨⟨a, ha⟩, ?_⟩
    rw [eval, Value.meaning_ofBool, hv]
  have hother : ∀ op' : Op2, op'.isComparison →
      (∀ a, compares x.valueKind op' a 0 = compares x.valueKind op a 0) →
      Refines (binary .bool op x (const c q) p) (newBinary op' x (const c q)) := by
    intro op' hop' hsame
    rw [newBinary_comparison hop']
    refine ⟨(typed_comparison hop').mpr ⟨rfl, hx, hy, hkinds, hscalar⟩, rfl, ?_⟩
    intro ρ v hv
    obtain ⟨a, ha, hv⟩ := heval ρ v hv
    refine (eval_comparison hop').mpr ⟨a, 0, ha, ?_, ?_⟩
    · rw [eval, hmeaning]
    · rw [hsame, hv]
  have hcond : ((const c q).kind.isUnsigned && c.isZero.toBool) = true := by
    rw [hzero, Bool.and_true]
    exact hk
  unfold Optimizer.simplifyComparison at hvalid ⊢
  simp only [hcond, if_true] at hvalid ⊢
  cases op with
  | lss => exact hconst false fun a => (hless a).1
  | leq => exact hother .eql rfl fun a => by rw [compares, compares, (hless a).2, bne, Bool.not_not]
  | geq => exact hconst true fun a => by rw [compares, (hless a).1, Bool.not_false]
  | gtr => exact hother .neq rfl fun a => (hless a).2.symm
  | _ => cases hvalid

theorem simplifyComparison_eq {o : Optimizer} {op : Op2} {x y : Expr} (hyc : y.isConst = false) :
    o.simplifyComparison op x y =
      if deepEqual o.allowMaskPure x y then
        match op with
        | .lss | .neq | .gtr => falseExpr
        | .leq | .eql | .geq => trueExpr
        | _ => none
      else none := by
  cases y <;> first | rfl | cases hyc

theorem simplifyComparison_same {o : Optimizer} {k : Kind} {op : Op2} {x y : Expr} {p : Place}
    (hop : op.isComparison) (ht : (binary k op x y p).typed) (hyc : y.isConst = false)
    (hok : ruleOk o op x y) (hvalid : (o.simplifyComparison op x y).isValid) :
    Refines (binary k op x y p) (o.simplifyComparison op x y) := by
  obtain ⟨rfl, hx, hy, hkinds, hscalar⟩ := (typed_comparison hop).mp ht
  rw [simplifyComparison_eq hyc] at hvalid ⊢
  by_cases hequal : deepEqual o.allowMaskPure x y
  · rw [if_pos hequal]
    have hsame : sameTree x y := by
      cases op <;> simp only [Op2.isComparison, Bool.false_eq_true] at hop
      all_goals simpa [ruleOk, hyc, hequal] using hok
    have hconst : ∀ b : Bool, (∀ a, compares x.valueKind op a a = b) →
        Refines (binary .bool op x y p) (const (Value.ofBool b) .direct) := by
      intro b hb
      apply refines_const rfl rfl
      intro ρ v hv
      obtain ⟨a, -, hv⟩ := eval_same hsame (decidedBy_comparison hop) hv
      rw [evalBinary_comparison hop, hb] at hv
      rw [Value.meaning_ofBool, Option.some.inj hv]
    cases op with
    | lss | gtr => exact hconst false fun a => Kind.not_less_self _ a
    | neq => exact hconst false fun a => by simp [compares]
    | leq | geq => exact hconst true fun a => by simp [compares, Kind.not_less_self]
    | eql => exact hconst true fun a => by simp [compares]
    | _ => cases hop
  · rw [if_neg hequal] at hvalid
    cases hvalid

theorem simplifyComparison_refines {o : Optimizer} {k : Kind} {op : Op2} {x y : Expr} {p : Place}
    (hop : op.isComparison) (ht : (binary k op x y p).typed) (hok : ruleOk o op x y)
    (hvalid : (o.simplifyComparison op x y).isValid) :
    Refines (binary k op x y p) (o.simplifyComparison op x y) := by
  cases hyc : y.isConst with
  | false => exact simplifyComparison_same hop ht hyc hok hvalid
  | true =>
    obtain ⟨c, q, rfl⟩ := isConst_iff.mp hyc
    by_cases hcond : ((const c q).kind.isUnsigned && c.isZero.toBool) = true
    · have hboth := hcond
      rw [Bool.and_eq_true] at hboth
      exact simplifyComparison_unsigned hop ht hboth.1 hboth.2 hvalid
    · unfold Optimizer.simplifyComparison at hvalid
      simp only [hcond, Bool.false_eq_true, if_false] at hvalid
      cases hvalid

/-! ## The rules together -/

theorem simplifyOp_refines {o : Optimizer} {k : Kind} {op : Op2} {x y : Expr} {p : Place}
    (ht : (binary k op x y p).typed) (hok : ruleOk o op x y)
    (hvalid : (o.simplifyOp op x y).isValid) :
    Refines (binary k op x y p) (o.simplifyOp op x y) := by
  cases op with
  | sub =>
    apply simplifySelf_refines (.inl rfl) ht hok _ hvalid
    intro hscalar hk
    rw [← hk, zero_eq hscalar]
    rfl
  | quo =>
    apply simplifySelf_refines (.inr (.inl rfl)) ht hok _ hvalid
    intro hscalar hk
    rw [← hk, one_eq hscalar]
    rfl
  | rem =>
    apply simplifySelf_refines (.inr (.inr rfl)) ht hok _ hvalid
    intro hscalar hk
    rw [← hk, zero_eq hscalar]
    rfl
  | land => exact simplifyBoolean_refines (.inl rfl) ht hok hvalid
  | lor => exact simplifyBoolean_refines (.inr rfl) ht hok hvalid
  | lss | leq | neq | eql | gtr | geq => exact simplifyComparison_refines rfl ht hok hvalid
  | shl | shr | bad2 => cases hvalid

/-- The operands of a typed binary expression are valid expressions. -/
theorem operands_valid {k : Kind} {op : Op2} {x y : Expr} {p : Place}
    (ht : (binary k op x y p).typed) :
    (x.toExpr = x ∧ x.isValid) ∧ y.toExpr = y ∧ y.isValid := by
  rw [typed, Bool.and_eq_true, Bool.and_eq_true] at ht
  obtain ⟨-, hkx, hky⟩ := typed2_scalar ht.2
  exact ⟨valid_of_scalar ht.1.1 hkx, valid_of_scalar ht.1.2 hky⟩

theorem simplifyBinary_refines {o : Optimizer} {k : Kind} {op : Op2} {x y : Expr} {p : Place}
    (ht : (binary k op x y p).typed) (hok : simplifyBinaryOk o op x y)
    (hvalid : (o.simplifyBinary op x y).isValid) :
    Refines (binary k op x y p) (o.simplifyBinary op x y) := by
  unfold Optimizer.simplifyBinary at hvalid ⊢
  unfold simplifyBinaryOk at hok
  by_cases hfold : (Optimizer.partialEvalBinary op x y).isValid
  · have hrefines := partialEvalBinary_refines ht hfold
    simp only [hfold, if_true] at hok hvalid ⊢
    generalize Optimizer.partialEvalBinary op x y = e at hok hvalid hfold hrefines ⊢
    cases e with
    | binary k' op' x' y' q =>
      obtain ⟨hx, hy⟩ := operands_valid hrefines.typed
      dsimp only at hok hvalid ⊢
      rw [hx.1, hy.1] at hvalid ⊢
      by_cases hrule : (o.simplifyOp op' x' y').isValid
      · rw [if_pos hrule]
        exact hrefines.trans (simplifyOp_refines hrefines.typed hok hrule)
      · rw [if_neg hrule]
        exact hrefines
    | _ => exact hrefines
  · simp only [hfold] at hok hvalid ⊢
    exact simplifyOp_refines ht hok hvalid

/-! ## Folding -/

/-- Only a shift by a count of another kind is not folded. -/
theorem evalBinaryOp_isValid {k : Kind} {op : Op2} {v w r : Value}
    (ht : k.typed2 op v.kind w.kind) (hop : op ≠ .shl ∧ op ≠ .shr)
    (h : evalBinaryOp op v w = some r) : r.isValid := by
  obtain ⟨-, hv, -⟩ := typed2_scalar ht
  have hmk : ∀ {b : BitVec 64}, (Value.mk b v.kind).isValid :=
    fun {b} => Value.isValid_of_isScalar (v := ⟨b, v.kind⟩) hv
  cases op with
  | bad2 => cases ht
  | shl => exact absurd rfl hop.1
  | shr => exact absurd rfl hop.2
  | sub =>
    simp only [Kind.typed2, Bool.and_eq_true, beq_iff_eq] at ht
    rw [← Option.some.inj h, Value.sub, Value.arith_eq hv (ht.1.1.symm.trans ht.1.2)]
    exact hmk
  | quo =>
    simp only [Kind.typed2, Bool.and_eq_true, beq_iff_eq] at ht
    rw [evalBinaryOp, Value.quo, if_neg (not_not_intro (ht.1.1.symm.trans ht.1.2)),
      if_neg (Kind.ne_float32 hv), if_neg (Kind.ne_float64 hv)] at h
    simp only [Value.extendOrTruncate_eq hv] at h
    split at h
    · split at h
      · rw [← Option.some.inj h]
        exact hmk
      · cases h
    · split at h
      · cases h
      · rw [← Option.some.inj h]
        exact hmk
  | rem =>
    simp only [Kind.typed2, Bool.and_eq_true, beq_iff_eq] at ht
    have hcond : ¬(v.kind ≠ w.kind ∨ v.kind = .float32 ∨ v.kind = .float64) := by
      simp [← ht.1.2, ← ht.1.1, Kind.ne_float32 ht.2, Kind.ne_float64 ht.2]
    rw [evalBinaryOp, Value.rem, if_neg hcond] at h
    simp only [Value.extendOrTruncate_eq hv] at h
    split at h
    · split at h
      · rw [← Option.some.inj h]
        exact hmk
      · cases h
    · split at h
      · cases h
      · rw [← Option.some.inj h]
        exact hmk
  | land =>
    simp only [Kind.typed2, Bool.and_eq_true, beq_iff_eq] at ht
    rw [← Option.some.inj h, logicalAnd_eq ht.1.2 ht.2]
    rfl
  | lor =>
    simp only [Kind.typed2, Bool.and_eq_true, beq_iff_eq] at ht
    rw [← Option.some.inj h, logicalOr_eq ht.1.2 ht.2]
    rfl
  | _ =>
    simp only [Kind.typed2, Bool.and_eq_true, beq_iff_eq] at ht
    have hw := ht.1.2 ▸ hv
    rw [← Option.some.inj h]
    simp only [Value.gt, Value.ge, Value.lt_eq hv ht.1.2, Value.le_eq hv ht.1.2,
      Value.ne_eq hv ht.1.2, Value.eq_eq hv ht.1.2, Value.lt_eq hw ht.1.2.symm,
      Value.le_eq hw ht.1.2.symm, isValid_ofBool]

theorem refines_foldBinary {k : Kind} {op : Op2} {v w r : Value} {q q' p : Place}
    (ht : (binary k op (const v q) (const w q') p).typed) (hf : binaryFolds op v w)
    (hr : evalBinaryOp op v w = some r) (hvalid : r.isValid) :
    Refines (binary k op (const v q) (const w q') p) (ofValue r) := by
  rw [typed, Bool.and_eq_true, Bool.and_eq_true] at ht
  obtain ⟨r', hr', hsound⟩ := evalBinaryOp_sound ht.2 hf
  rw [hr] at hr'
  obtain rfl := Option.some.inj hr'
  obtain ⟨hk, heval⟩ := hsound hvalid
  apply refines_ofValue hk
  · rw [hk]
    exact (typed2_scalar ht.2).1
  · intro ρ b hb
    obtain ⟨a, ha, hb⟩ := eval_binary.mp hb
    rw [eval] at ha
    rw [← Option.some.inj ha] at hb
    apply (heval b _).symm
    split at hb
    · next hdecided =>
      -- the second operand is not looked at
      rw [← hb]
      cases op <;> simp only [Op2.decidedBy, Bool.false_eq_true] at hdecided
      · rw [beq_iff_eq] at hdecided
        rw [Kind.evalBinary, Kind.evalBinary, if_pos hdecided, if_pos hdecided]
      · rw [bne_iff_ne] at hdecided
        rw [Kind.evalBinary, Kind.evalBinary, if_neg hdecided, if_neg hdecided]
    · obtain ⟨c, hc, hb⟩ := hb
      rw [eval] at hc
      rw [← Option.some.inj hc] at hb
      exact hb

/-- No rule applies to a shift of a constant, whatever the rules are asked for. -/
theorem rulesMeet_shift {p : Op2 → Expr → Expr → Bool} {op : Op2} (hop : op = .shl ∨ op = .shr)
    {v : Value} {q : Place} {y : Expr} (hp : p op (const v q) y) :
    rulesMeet p op (const v q) y := by
  have hfold : Optimizer.partialEvalBinary op (const v q) y = const v q ∨
      Optimizer.partialEvalBinary op (const v q) y = none := by
    have hswap : Optimizer.swapsOperands op (const v q) y = false := by
      rcases hop with rfl | rfl <;> exact Bool.and_false _
    unfold Optimizer.partialEvalBinary
    simp only [hswap, Bool.false_and, Bool.false_eq_true, if_false]
    cases y with
    | const c q' =>
      dsimp only
      split
      · exact .inl rfl
      · exact .inr rfl
    | _ => exact .inr rfl
  unfold rulesMeet
  rcases hfold with heq | heq
  · rw [heq]
    simp [hp]
  · rw [heq]
    exact hp

theorem simplifyBinaryOk_shift {o : Optimizer} {op : Op2} (hop : op = .shl ∨ op = .shr)
    {v : Value} {q : Place} {y : Expr} : simplifyBinaryOk o op (const v q) y := by
  have hrule : ruleOk o op (const v q) y := by
    rcases hop with rfl | rfl <;> rfl
  exact rulesMeet_shift hop hrule

/-- The step on an `Op2` returns, and what it returns refines the node. -/
theorem tryOptimizeBinary_refines {o : Optimizer} {k : Kind} {op : Op2} {x y : Expr} {p : Place}
    (ht : (binary k op x y p).typed) (hok : binaryOk o op x y) :
    ∃ e, o.tryOptimizeBinary op x y = some e ∧ (e.isValid → Refines (binary k op x y p) e) := by
  obtain ⟨⟨hxe, hxv⟩, hye, hyv⟩ := operands_valid ht
  have hrule : (!o.flags.simplifyExpr || simplifyBinaryOk o op x y) = true →
      ((if o.flags.simplifyExpr then o.simplifyBinary op x y else none).isValid) →
      Refines (binary k op x y p)
        (if o.flags.simplifyExpr then o.simplifyBinary op x y else none) := by
    intro hok hv
    by_cases hflag : o.flags.simplifyExpr
    · rw [if_pos hflag] at hv ⊢
      rw [hflag, Bool.not_true, Bool.false_or] at hok
      exact simplifyBinary_refines ht hok hv
    · rw [if_neg hflag] at hv
      cases hv
  unfold Optimizer.tryOptimizeBinary
  simp only [hxe, hye, hxv, hyv, Bool.and_self, if_true]
  by_cases hconst : x.isConst ∧ y.isConst
  · obtain ⟨v, q, rfl⟩ := isConst_iff.mp hconst.1
    obtain ⟨w, q', rfl⟩ := isConst_iff.mp hconst.2
    have htyped := ht
    rw [typed, Bool.and_eq_true, Bool.and_eq_true] at htyped
    obtain ⟨-, hkv, hkw⟩ := typed2_scalar htyped.2
    have hvv : v.isValid := Value.isValid_of_isScalar hkv
    have hwv : w.isValid := Value.isValid_of_isScalar hkw
    by_cases hfold : o.flags.foldConstant
    · have hfolds : binaryFolds op v w := by simpa [binaryOk, hfold] using hok
      obtain ⟨r, hr, -⟩ := evalBinaryOp_sound htyped.2 hfolds
      simp only [hfold, hvv, hwv, Bool.and_self, if_true, hr]
      refine ⟨_, rfl, ?_⟩
      intro hv
      by_cases hrv : r.isValid
      · rw [if_pos hrv]
        exact refines_foldBinary ht hfolds hr hrv
      · rw [if_neg hrv] at hv ⊢
        apply hrule _ hv
        -- only a shift by a count of another kind is not folded
        have hop : op = .shl ∨ op = .shr := by
          by_contra hop
          rw [not_or] at hop
          exact hrv (evalBinaryOp_isValid htyped.2 hop hr)
        rw [simplifyBinaryOk_shift hop, Bool.or_true]
    · simp only [hfold, Bool.false_and, if_false, Bool.false_eq_true]
      refine ⟨_, rfl, ?_⟩
      apply hrule
      simpa [binaryOk, hfold] using hok
  · have hstep : binaryOk o op x y = (!o.flags.simplifyExpr || simplifyBinaryOk o op x y) := by
      cases x <;> first
        | rfl
        | (cases y <;> first | rfl | exact absurd ⟨rfl, rfl⟩ hconst)
    rw [hstep] at hok
    refine ⟨if o.flags.simplifyExpr then o.simplifyBinary op x y else none, ?_, hrule hok⟩
    cases x <;> first
      | rfl
      | (cases y <;> first | rfl | exact absurd ⟨rfl, rfl⟩ hconst)

end Expr

end OneJit
