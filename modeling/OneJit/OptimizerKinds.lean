import OneJit.OptimizerCall
import OneJit.OptimizerSound

/-!
# The optimizer and kinds

A node is well-kinded when its kind and those of its operands fit its operator. The rules build
constants, comma expressions and nodes with an operand of their own, each with its own choice of a
kind: `Zero` and `One` have no SIMD kind, and a comma expression is `Void`.
-/

namespace OneJit

namespace Kind

/-- The kind of an `Op1` fits the kind of its operand. -/
def fits1 (k : Kind) (op : Op1) (kx : Kind) : Bool :=
  match op with
  | .bad1 => false
  | .xor1 | .neg1 => k == kx
  | .not1 => k == .bool
  | .cast | .bitcopy => true

/-- The kind of an `Op2` fits the kinds of its operands. -/
def fits2 (k : Kind) (op : Op2) (kx ky : Kind) : Bool :=
  match op with
  | .bad2 => false
  | .sub | .quo | .rem => k == kx && k == ky
  | .shl | .shr => k == kx
  | .land | .lor => k == .bool && kx == .bool && ky == .bool
  | .lss | .leq | .neq | .eql | .gtr | .geq => k == .bool && kx == ky

/-- The kind of an `OpN` fits the kinds of its operands. -/
def fitsN (k : Kind) (op : OpN) (ks : List Kind) : Bool :=
  if op.isCommutative then ks.all (· == k) else op != .comma || k == .void

/-- The kinds for which `Zero` and `One` have the kind they are asked for. -/
def hasZero (k : Kind) : Bool := k.simd == 0
def hasOne (k : Kind) : Bool := k.simd == 0 && k.ekind != .float128

end Kind

namespace Value

@[simp] theorem readBack_kind (v : Value) : (Imm.readBack v).kind = v.kind := by
  rw [Imm.readBack]
  split
  · next hdirect => exact (Imm.directOf_tag v hdirect).2
  · rfl

/-- The value has this kind, unless it is `Value{}`. -/
def HasKind (k : Kind) (v : Value) : Prop := v.kind = k ∨ v = invalid

theorem hasKind_cast (v : Value) (k : Kind) : HasKind k (v.cast k) := by
  unfold cast
  split
  · next h => exact .inl h
  · split
    · next hk =>
      rw [hk]
      split
      · exact .inl rfl
      · split
        · exact .inl rfl
        · exact .inr rfl
    · split
      · next hk =>
        rw [hk]
        split
        · exact .inl rfl
        · split
          · exact .inl rfl
          · split
            · exact .inl rfl
            · exact .inr rfl
      · split
        · split
          · exact .inl rfl
          · exact .inr rfl
        · split
          · split
            · exact .inl rfl
            · exact .inr rfl
          · exact .inl (extendOrTruncate_kind k v.bits)

theorem hasKind_arith (f32 : Float32 → Float32 → Float32) (f64 : Float → Float → Float)
    (u64 : BitVec 64 → BitVec 64 → BitVec 64) (a b : Value) :
    HasKind a.kind (arith f32 f64 u64 a b) := by
  unfold arith
  split
  · exact .inr rfl
  · split
    · next h => exact .inl h.symm
    · split
      · next h => exact .inl h.symm
      · exact .inl (extendOrTruncate_kind _ _)

theorem hasKind_bitwise (u64 : BitVec 64 → BitVec 64 → BitVec 64) (a b : Value) :
    HasKind a.kind (bitwise u64 a b) := by
  unfold bitwise
  split
  · exact .inr rfl
  · exact .inl rfl

theorem hasKind_relation (f32 : Float32 → Float32 → Bool) (f64 : Float → Float → Bool)
    (i64 u64 : BitVec 64 → BitVec 64 → Bool) (a b : Value) :
    HasKind .bool (relation f32 f64 i64 u64 a b) := by
  unfold relation
  repeat' split
  all_goals first | exact .inl rfl | exact .inr rfl

theorem hasKind_compl (a : Value) : HasKind a.kind a.compl := by
  unfold compl
  split
  · exact .inr rfl
  · exact .inl (extendOrTruncate_kind _ _)

theorem hasKind_neg (a : Value) : HasKind a.kind a.neg := by
  unfold neg
  split
  · next h => exact .inl h.symm
  · split
    · next h => exact .inl h.symm
    · exact .inl (extendOrTruncate_kind _ _)

/-- A constant folded from an `Op1`. -/
theorem hasKind_evalUnaryOp {k : Kind} {op : Op1} {x : Value} (h : k.fits1 op x.kind) :
    HasKind k (evalUnaryOp k op x) := by
  cases op with
  | bad1 => cases h
  | xor1 =>
    rw [eq_of_beq h]
    exact hasKind_compl x
  | neg1 =>
    rw [eq_of_beq h]
    exact hasKind_neg x
  | not1 =>
    rw [eq_of_beq h]
    exact hasKind_relation _ _ _ _ x _
  | cast => exact hasKind_cast x k
  | bitcopy => exact .inl (extendOrTruncate_kind k x.bits)

/-- A quotient or a remainder of integers, signed or not, where the host has one. -/
theorem kind_of_division {k : Kind} {c c₁ c₂ : Prop} [Decidable c] [Decidable c₁] [Decidable c₂]
    {s u : BitVec 64} {r : Value}
    (h : (if c then if c₁ then some (extendOrTruncate k s) else none
      else if c₂ then none else some (extendOrTruncate k u)) = some r) : r.kind = k := by
  split at h
  · split at h
    · rw [← Option.some.inj h]
      exact extendOrTruncate_kind k s
    · cases h
  · split at h
    · cases h
    · rw [← Option.some.inj h]
      exact extendOrTruncate_kind k u

theorem hasKind_quo {a b r : Value} (h : a.quo b = some r) : HasKind a.kind r := by
  unfold quo at h
  split at h
  · rw [← Option.some.inj h]
    exact .inr rfl
  · split at h
    · next hk =>
      rw [← Option.some.inj h]
      exact .inl hk.symm
    · split at h
      · next hk =>
        rw [← Option.some.inj h]
        exact .inl hk.symm
      · exact .inl (kind_of_division h)

/-- The operators on integers only return a value of the kind of the first operand. -/
theorem hasKind_integer {k : Kind} {c : Prop} [Decidable c] {f : Option Value} {r : Value}
    (hf : ∀ r, f = some r → r.kind = k) (h : (if c then some invalid else f) = some r) :
    HasKind k r := by
  split at h
  · rw [← Option.some.inj h]
    exact .inr rfl
  · exact .inl (hf r h)

theorem hasKind_rem {a b r : Value} (h : a.rem b = some r) : HasKind a.kind r := by
  apply hasKind_integer _ h
  exact fun r hr => kind_of_division hr

theorem hasKind_shl {a b r : Value} (h : a.shl b = some r) : HasKind a.kind r := by
  apply hasKind_integer _ h
  intro r hr
  split at hr
  · cases hr
  · rw [← Option.some.inj hr]
    exact extendOrTruncate_kind _ _

theorem hasKind_shr {a b r : Value} (h : a.shr b = some r) : HasKind a.kind r := by
  apply hasKind_integer _ h
  intro r hr
  split at hr
  · cases hr
  · split at hr
    all_goals
      rw [← Option.some.inj hr]
      exact extendOrTruncate_kind _ _

/-- A constant folded from an `Op2`. -/
theorem hasKind_evalBinaryOp {k : Kind} {op : Op2} {x y r : Value} (h : k.fits2 op x.kind y.kind)
    (hr : evalBinaryOp op x y = some r) : HasKind k r := by
  cases op with
  | bad2 => cases h
  | sub =>
    simp only [Kind.fits2, Bool.and_eq_true, beq_iff_eq] at h
    rw [h.1, ← Option.some.inj hr]
    exact hasKind_arith _ _ _ x y
  | quo =>
    simp only [Kind.fits2, Bool.and_eq_true, beq_iff_eq] at h
    rw [h.1]
    exact hasKind_quo hr
  | rem =>
    simp only [Kind.fits2, Bool.and_eq_true, beq_iff_eq] at h
    rw [h.1]
    exact hasKind_rem hr
  | shl =>
    simp only [Kind.fits2, beq_iff_eq] at h
    rw [h]
    exact hasKind_shl hr
  | shr =>
    simp only [Kind.fits2, beq_iff_eq] at h
    rw [h]
    exact hasKind_shr hr
  | land | lor =>
    simp only [Kind.fits2, Bool.and_eq_true, beq_iff_eq] at h
    obtain ⟨⟨rfl, hx⟩, hy⟩ := h
    rw [← Option.some.inj hr]
    simp [logicalAnd, logicalOr, hx, hy, ofBool, HasKind]
  | lss | leq | neq | eql | gtr | geq =>
    simp only [Kind.fits2, Bool.and_eq_true, beq_iff_eq] at h
    rw [h.1, ← Option.some.inj hr]
    exact hasKind_relation _ _ _ _ _ _

theorem kind_min (k : Kind) : (min k).kind = k := by
  unfold min
  split
  · rfl
  · split
    · next h => exact h.symm
    · split
      · next h => exact h.symm
      · rfl

theorem kind_max (k : Kind) : (max k).kind = k := by
  unfold max
  split
  · next h => exact h.symm
  · split
    · next h => exact h.symm
    · rfl

theorem hasKind_identityN (k : Kind) (op : OpN) : HasKind k (identityN k op) := by
  unfold identityN
  split
  · exact .inr rfl
  · split
    all_goals first
      | exact hasKind_cast _ k
      | exact .inl (kind_min k)
      | exact .inl (kind_max k)
      | exact .inr rfl

theorem kind_of_relation {f32 : Float32 → Float32 → Bool} {f64 : Float → Float → Bool}
    {i64 u64 : BitVec 64 → BitVec 64 → Bool} {a b : Value}
    (h : (relation f32 f64 i64 u64 a b).isValid) : a.kind = b.kind := by
  unfold relation at h
  split at h
  · cases h
  · next hk => exact not_not.mp hk

theorem hasKind_evalExtreme {pick : Bool → Value → Value → Value}
    (hpick : ∀ cmp v x, pick cmp v x = v ∨ pick cmp v x = x) (x : Value) (vs : List Value) :
    HasKind x.kind (evalExtreme pick x vs) := by
  induction vs generalizing x with
  | nil => exact .inl rfl
  | cons v vs ih =>
    rw [evalExtreme]
    split
    · next hcmp =>
      have hk : (pick (x.lt v).toBool v x).kind = x.kind := by
        rcases hpick (x.lt v).toBool v x with h | h
        · rw [h, kind_of_relation hcmp]
        · rw [h]
      rw [← hk]
      exact ih _
    · exact .inr rfl

/-- `Value{}`, or a value with a kind. -/
def IsProper (v : Value) : Prop := v.kind ≠ .bad ∨ v = invalid

theorem HasKind.isProper {k : Kind} {v : Value} (h : HasKind k v) (hk : k ≠ .bad) : IsProper v := by
  rcases h with rfl | h
  · exact .inl hk
  · exact .inr h

theorem arith_invalid (f32 : Float32 → Float32 → Float32) (f64 : Float → Float → Float)
    (u64 : BitVec 64 → BitVec 64 → BitVec 64) {b : Value} (h : IsProper b) :
    arith f32 f64 u64 invalid b = invalid := by
  rcases h with h | rfl
  · exact if_pos (Ne.symm h)
  · rfl

theorem bitwise_invalid {u64 : BitVec 64 → BitVec 64 → BitVec 64} (h0 : u64 0 0 = 0) {b : Value}
    (h : IsProper b) : bitwise u64 invalid b = invalid := by
  rcases h with h | rfl
  · exact if_pos (.inl (Ne.symm h))
  · change (⟨u64 0 0, .bad⟩ : Value) = invalid
    rw [h0]
    rfl

theorem hasKind_foldl {f : Value → Value → Value} (hf : ∀ a b, HasKind a.kind (f a b))
    (hinvalid : ∀ b, IsProper b → f invalid b = invalid) {k : Kind} {x : Value} (hx : HasKind k x)
    {vs : List Value} (hvs : ∀ v ∈ vs, IsProper v) : HasKind k (vs.foldl f x) := by
  induction vs generalizing x with
  | nil => exact hx
  | cons v vs ih =>
    rw [List.forall_mem_cons] at hvs
    refine ih ?_ hvs.2
    rcases hx with rfl | rfl
    · exact hf x v
    · exact .inr (hinvalid v hvs.1)

/-- A constant folded from an `OpN`. -/
theorem hasKind_evalTupleOp {k : Kind} {op : OpN} (hop : op.isCommutative) {vs : List Value}
    (hvs : ∀ v ∈ vs, IsProper v) : HasKind k (evalTupleOp k op vs) := by
  have hident := hasKind_identityN k op
  have hextreme : ∀ {pick : Bool → Value → Value → Value},
      (∀ cmp v x, pick cmp v x = v ∨ pick cmp v x = x) → (identityN k op).kind = k →
      HasKind k (evalExtreme pick (identityN k op) vs) := by
    intro pick hpick hk
    have h := hasKind_evalExtreme hpick (identityN k op) vs
    rwa [hk] at h
  cases op with
  | add | mul =>
    exact hasKind_foldl (hasKind_arith _ _ _) (fun _ => arith_invalid _ _ _) hident hvs
  | and | or | xor =>
    exact hasKind_foldl (hasKind_bitwise _) (fun _ => bitwise_invalid rfl) hident hvs
  | max =>
    refine hextreme ?_ (kind_min k)
    intro cmp v x
    cases cmp
    · exact .inr rfl
    · exact .inl rfl
  | min =>
    refine hextreme ?_ (kind_max k)
    intro cmp v x
    cases cmp
    · exact .inl rfl
    · exact .inr rfl
  | _ => cases hop

/-- The constants of a tuple that are folded from the right. A comma keeps what it starts from. -/
theorem hasKind_foldConsts {k : Kind} {op : OpN} (hassoc : op.isAssociative) (hk : k ≠ .bad)
    {cs : List Value} (hcs : ∀ c ∈ cs, c.kind ≠ .bad) :
    HasKind k (cs.foldl (fun v c => evalTupleOp k op [c, v]) (identityN k op)) := by
  suffices h : ∀ v, HasKind k v → HasKind k (cs.foldl (fun v c => evalTupleOp k op [c, v]) v) from
    h _ (hasKind_identityN k op)
  induction cs with
  | nil => exact fun v hv => hv
  | cons c cs ih =>
    rw [List.forall_mem_cons] at hcs
    intro v hv
    apply ih hcs.2
    by_cases hop : op.isCommutative
    · apply hasKind_evalTupleOp hop
      simpa using ⟨Or.inl hcs.1, hv.isProper hk⟩
    · cases op with
      | comma =>
        unfold evalTupleOp
        dsimp only
        split
        · exact hv
        · exact .inr rfl
      | add | mul | and | or | xor | max | min => exact absurd rfl hop
      | _ => cases hassoc

/-- A folded constant that differs from what the folding starts from. -/
theorem kind_of_ne_identity {k : Kind} {op : OpN} (hk : k ≠ .bad) {v : Value} (hv : HasKind k v)
    (h : (v.ne (identityN k op)).toBool) : v.kind = k := by
  refine hv.resolve_right ?_
  rintro rfl
  rcases hasKind_identityN k op with hident | hident
  · rw [ne, relation, if_pos (by rw [hident]; exact Ne.symm hk)] at h
    cases h
  · rw [hident] at h
    cases h

end Value

namespace Expr

/-! ## Well-kinded expressions -/

mutual

/-- Every node has a kind, and it fits those of its operands. The operands of an operator are
expressions. -/
def wellKinded : Expr → Bool
  | .none => false
  | .const v _ => v.kind != .bad
  | .var k _ => k != .bad
  | .label _ _ | .ftype _ _ => true
  | .mem k args _ => k != .bad && wellKindedList args
  | .unary k op x _ => k != .bad && wellKinded x && x.type.isExpr && k.fits1 op x.kind
  | .binary k op x y _ =>
    k != .bad && wellKinded x && x.type.isExpr && wellKinded y && y.type.isExpr &&
      k.fits2 op x.kind y.kind
  | .tuple k op args _ => k != .bad && wellKindedList args && k.fitsN op (args.map kind)

def wellKindedList : List Expr → Bool
  | [] => true
  | x :: xs => wellKinded x && wellKindedList xs

end

theorem wellKindedList_iff (xs : List Expr) : wellKindedList xs ↔ ∀ x ∈ xs, x.wellKinded := by
  induction xs with
  | nil => simp [wellKindedList]
  | cons x xs ih => simp [wellKindedList, ih]

/-- An expression of a kind. -/
structure Kinded (k : Kind) (e : Expr) : Prop where
  wellKinded : e.wellKinded
  kind : e.kind = k
  isExpr : e.type.isExpr

theorem Kinded.ne_bad {k : Kind} {e : Expr} (h : Kinded k e) : k ≠ .bad := by
  obtain ⟨hwell, rfl, hexpr⟩ := h
  cases e with
  | none => cases hwell
  | ftype r p => cases hexpr
  | label i a =>
    intro hbad
    cases hbad
  | _ =>
    simp only [Expr.wellKinded, Bool.and_eq_true, bne_iff_ne, and_assoc] at hwell
    first | exact hwell | exact hwell.1

theorem Kinded.isValid {k : Kind} {e : Expr} (h : Kinded k e) : e.isValid := by
  rw [Expr.isValid, h.kind]
  simpa using h.ne_bad

theorem Kinded.toExpr {k : Kind} {e : Expr} (h : Kinded k e) : e.toExpr = e := if_pos h.isExpr

theorem kinded_unary {k : Kind} {op : Op1} {x : Expr} {p : Place} :
    (unary k op x p).wellKinded ↔ k ≠ .bad ∧ Kinded x.kind x ∧ k.fits1 op x.kind := by
  simp only [wellKinded, Bool.and_eq_true, bne_iff_ne, and_assoc]
  constructor
  · intro ⟨hk, hx, hexpr, hfits⟩
    exact ⟨hk, ⟨hx, rfl, hexpr⟩, hfits⟩
  · intro ⟨hk, hx, hfits⟩
    exact ⟨hk, hx.wellKinded, hx.isExpr, hfits⟩

theorem kinded_binary {k : Kind} {op : Op2} {x y : Expr} {p : Place} :
    (binary k op x y p).wellKinded ↔
      k ≠ .bad ∧ Kinded x.kind x ∧ Kinded y.kind y ∧ k.fits2 op x.kind y.kind := by
  simp only [wellKinded, Bool.and_eq_true, bne_iff_ne, and_assoc]
  constructor
  · intro ⟨hk, hx, hxe, hy, hye, hfits⟩
    exact ⟨hk, ⟨hx, rfl, hxe⟩, ⟨hy, rfl, hye⟩, hfits⟩
  · intro ⟨hk, hx, hy, hfits⟩
    exact ⟨hk, hx.wellKinded, hx.isExpr, hy.wellKinded, hy.isExpr, hfits⟩

/-- The kind of an `OpN` on any operands. -/
def hasTuple (k : Kind) (op : OpN) : Prop := k ≠ .bad ∧ (op = .comma → k = .void)

/-- An operand of an `OpN`. -/
structure Operand (k : Kind) (op : OpN) (x : Expr) : Prop where
  wellKinded : x.wellKinded
  kind : op.isCommutative → x.kind = k

theorem kinded_tuple {k : Kind} {op : OpN} {args : List Expr} {p : Place} :
    (tuple k op args p).wellKinded ↔ hasTuple k op ∧ ∀ x ∈ args, Operand k op x := by
  have hoperand : ∀ x, Operand k op x ↔ x.wellKinded ∧ (op.isCommutative → x.kind = k) :=
    fun x => ⟨fun h => ⟨h.wellKinded, h.kind⟩, fun h => ⟨h.1, h.2⟩⟩
  simp only [hoperand, hasTuple, wellKinded, Bool.and_eq_true, bne_iff_ne, wellKindedList_iff]
  by_cases hcomm : op.isCommutative
  · have hcomma : op ≠ .comma := commutative_ne_comma hcomm
    simp [Kind.fitsN, hcomm, hcomma, forall_and, and_assoc]
  · by_cases hcomma : op = .comma
    · subst hcomma
      simp only [Kind.fitsN, hcomm]
      simp
      tauto
    · simp [Kind.fitsN, hcomm, hcomma]

/-! ## Constants -/

theorem kinded_ofValue {k : Kind} {v : Value} (hv : v.HasKind k) (h : (ofValue v).isValid) :
    Kinded k (ofValue v) := by
  rw [ofValue] at h ⊢
  split at h
  · next hvalid =>
    have hk : v.kind ≠ .bad := by
      rintro hbad
      rw [isValid, Expr.kind, Value.readBack_kind, hbad] at h
      cases h
    rw [if_pos hvalid]
    refine ⟨?_, ?_, rfl⟩
    · simpa [wellKinded] using hk
    · rw [kind, Value.readBack_kind]
      refine hv.resolve_right ?_
      rintro rfl
      exact hk rfl
  · cases h

theorem kind_ofUint16 (k : Kind) (val : BitVec 16) : (ofUint16 k val).kind = k.nosimd :=
  (Imm.directOfUint16_tag k.nosimd val).2

theorem nosimd_eq {k : Kind} (h : k.simd = 0) : k.nosimd = k := by
  rw [Kind.nosimd, ← h]

theorem kinded_ofUint16 {k : Kind} {val : BitVec 16} (h : k.simd = 0) (hk : k ≠ .bad) :
    Kinded k (ofUint16 k val) := by
  have hkind := kind_ofUint16 k val
  rw [nosimd_eq h] at hkind
  refine ⟨?_, hkind, rfl⟩
  unfold ofUint16 at hkind ⊢
  rw [kind] at hkind
  simpa [wellKinded, hkind] using hk

theorem kinded_zero {k : Kind} (h : k.hasZero) (hk : k ≠ .bad) : Kinded k (zero k) :=
  kinded_ofUint16 (eq_of_beq h) hk

theorem kinded_one {k : Kind} (h : k.hasOne) (hk : k ≠ .bad) : Kinded k (one k) := by
  rw [Kind.hasOne, Bool.and_eq_true, beq_iff_eq, bne_iff_ne] at h
  have hvalue : ∀ v : Value, v.isValid → v.kind = k → Kinded k (ofValue v) := by
    intro v hv hvk
    apply kinded_ofValue (.inl hvk)
    rw [ofValue, if_pos hv, isValid, kind, Value.readBack_kind, hvk]
    simpa using hk
  rw [one]
  split
  · next hf => exact hvalue _ rfl hf.symm
  · split
    · next hf =>
      rcases hf with rfl | rfl
      · exact hvalue _ rfl rfl
      · exact absurd rfl h.2
    · exact kinded_ofUint16 h.1 hk

/-! ## Unary expressions -/

/-- The condition of the step on an `Op1`: `One` has the kind of the sum or difference it is put
into. -/
def unaryKindOk (o : Optimizer) (op : Op1) (x : Expr) : Bool :=
  match x with
  | .unary _ xop xx _ =>
    let rebuilds := (op == .neg1 && xop == .xor1) || (op == .xor1 && xop == .neg1)
    !(o.flags.simplifyExpr && rebuilds) || xx.kind.hasOne
  | _ => true

theorem fits1_same {k kx : Kind} {op : Op1} (hop : op = .xor1 ∨ op = .neg1) (h : k.fits1 op kx) :
    k = kx := by
  rcases hop with rfl | rfl <;> exact eq_of_beq h

/-- Two operators on top of each other have the kind of the operand. -/
theorem kinded_unary_unary {k k' : Kind} {op op' : Op1} {x : Expr} {p p' : Place}
    (hop : op = .xor1 ∨ op = .neg1) (hop' : op' = .xor1 ∨ op' = .neg1)
    (h : (unary k op (unary k' op' x p') p).wellKinded) : Kinded k x := by
  obtain ⟨-, hinner, hfits⟩ := kinded_unary.mp h
  obtain ⟨-, hx, hfits'⟩ := kinded_unary.mp hinner.wellKinded
  rw [fits1_same hop hfits, kind, fits1_same hop' hfits']
  exact hx

theorem kinded_sum_one {k : Kind} {x : Expr} (hx : Kinded k x) (hone : k.hasOne) :
    Kinded k (newTuple .add x (one x.kind)) := by
  have hk := kinded_one hone hx.ne_bad
  rw [newTuple, hx.kind]
  refine ⟨?_, rfl, rfl⟩
  rw [kinded_tuple, List.forall_mem_cons, List.forall_mem_singleton]
  exact ⟨⟨hx.ne_bad, fun hcomma => by cases hcomma⟩, ⟨hx.wellKinded, fun _ => hx.kind⟩,
    hk.wellKinded, fun _ => hk.kind⟩

theorem kinded_difference_one {k : Kind} {x : Expr} (hx : Kinded k x) (hone : k.hasOne) :
    Kinded k (newBinary .sub x (one x.kind)) := by
  have hk := kinded_one hone hx.ne_bad
  have hnew : newBinary .sub x (one x.kind) = binary k .sub x (one k) .fresh := by
    rw [newBinary, hx.kind]
    rfl
  rw [hnew]
  refine ⟨?_, rfl, rfl⟩
  rw [kinded_binary, hx.kind, hk.kind]
  exact ⟨hx.ne_bad, hx, hk, by simp [Kind.fits2]⟩

theorem fits2_comparison {op : Op2} (hop : op.isComparison) {k kx ky : Kind} :
    k.fits2 op kx ky ↔ k = .bool ∧ kx = ky := by
  cases op <;> simp [Op2.isComparison] at hop <;> simp [Kind.fits2]

theorem kinded_comparison {op : Op2} (hop : op.isComparison) {k : Kind} {x y : Expr}
    (hx : Kinded k x) (hy : Kinded k y) : Kinded .bool (newBinary op x y) := by
  rw [newBinary_comparison hop]
  refine ⟨?_, rfl, rfl⟩
  rw [kinded_binary, hx.kind, hy.kind, fits2_comparison hop]
  exact ⟨by decide, hx, hy, rfl, rfl⟩

theorem notComparison_isComparison {op : Op2} (hop : op.isComparison) :
    op.notComparison.isComparison := (compares_notComparison hop .bool 0 0).1

theorem swapComparison_isComparison {op : Op2} (hop : op.isComparison) :
    op.swapComparison.isComparison := (compares_swapComparison hop .bool 0 0).1

/-- Every rule for an `Op1` keeps the kind of its node. -/
theorem kinded_simplifyUnary {k : Kind} {op : Op1} {x : Expr} {p : Place}
    (h : (unary k op x p).wellKinded)
    (hok : ∀ k' xop xx q, x = unary k' xop xx q →
      (op = .neg1 ∧ xop = .xor1 ∨ op = .xor1 ∧ xop = .neg1) → xx.kind.hasOne)
    (hvalid : (Optimizer.simplifyUnary k op x).isValid) :
    Kinded k (Optimizer.simplifyUnary k op x) := by
  obtain ⟨-, hx, hfits⟩ := kinded_unary.mp h
  have hself : ∀ self, self = (if (op == .cast || op == .bitcopy) && k == x.kind then x
      else none) → self.isValid → Kinded k self := by
    intro self hself hv
    subst hself
    split at hv
    · next hcast =>
      rw [if_pos hcast]
      rw [Bool.and_eq_true, beq_iff_eq] at hcast
      rw [hcast.2]
      exact hx
    · cases hv
  unfold Optimizer.simplifyUnary at hvalid ⊢
  generalize hdef : (if (op == .cast || op == .bitcopy) && k == x.kind then x else none) = self
    at hvalid ⊢
  replace hself := hself self hdef.symm
  cases x with
  | unary k' xop xx q =>
    obtain ⟨-, hxx, -⟩ := kinded_unary.mp hx.wellKinded
    dsimp only at hvalid ⊢
    rw [hxx.toExpr, if_pos hxx.isValid] at hvalid ⊢
    split
    · exact kinded_unary_unary (.inl rfl) (.inl rfl) h
    · exact kinded_unary_unary (.inr rfl) (.inr rfl) h
    · have hkx := kinded_unary_unary (.inr rfl) (.inl rfl) h
      have hone := hok _ _ _ _ rfl (.inl ⟨rfl, rfl⟩)
      rw [hkx.kind] at hone
      exact kinded_sum_one hkx hone
    · have hkx := kinded_unary_unary (.inl rfl) (.inr rfl) h
      have hone := hok _ _ _ _ rfl (.inr ⟨rfl, rfl⟩)
      rw [hkx.kind] at hone
      exact kinded_difference_one hkx hone
    · apply hself
      split at hvalid <;> simp_all
  | binary k' bop bx by' q =>
    dsimp only at hvalid ⊢
    by_cases hcmp : (op == .not1 && bop.isComparison) = true
    · rw [if_pos hcmp]
      rw [Bool.and_eq_true, beq_iff_eq] at hcmp
      obtain ⟨rfl, hbop⟩ := hcmp
      obtain ⟨-, hbx, hby, hkinds⟩ := kinded_binary.mp hx.wellKinded
      rw [(fits2_comparison hbop).mp hkinds |>.2] at hbx
      rw [hbx.toExpr, hby.toExpr, eq_of_beq hfits]
      exact kinded_comparison (notComparison_isComparison hbop) hbx hby
    · rw [if_neg hcmp] at hvalid ⊢
      exact hself hvalid
  | _ => exact hself hvalid

theorem kinded_tryOptimizeUnary {o : Optimizer} {k : Kind} {op : Op1} {x : Expr} {p : Place}
    (h : (unary k op x p).wellKinded) (hok : unaryKindOk o op x)
    (hvalid : (o.tryOptimizeUnary k op x).isValid) : Kinded k (o.tryOptimizeUnary k op x) := by
  obtain ⟨-, hx, hfits⟩ := kinded_unary.mp h
  have hrule : (if o.flags.simplifyExpr then Optimizer.simplifyUnary k op x else none).isValid →
      Kinded k (if o.flags.simplifyExpr then Optimizer.simplifyUnary k op x else none) := by
    intro hv
    split at hv
    · next hflag =>
      rw [if_pos hflag]
      refine kinded_simplifyUnary h ?_ hv
      rintro k' xop xx q rfl (⟨rfl, rfl⟩ | ⟨rfl, rfl⟩)
      all_goals simpa [unaryKindOk, hflag] using hok
    · cases hv
  unfold Optimizer.tryOptimizeUnary at hvalid ⊢
  rw [hx.toExpr] at hvalid ⊢
  dsimp only at hvalid ⊢
  rw [if_pos hx.isValid] at hvalid ⊢
  split
  · dsimp only at hvalid
    split
    · next hfold =>
      rw [if_pos hfold] at hvalid
      exact kinded_ofValue (Value.hasKind_evalUnaryOp hfits) hvalid
    · next hfold =>
      rw [if_neg hfold] at hvalid
      exact hrule hvalid
  · next hconst =>
    apply hrule
    split at hvalid
    · exact absurd rfl (hconst _ _)
    · exact hvalid

/-! ## Binary expressions -/

theorem isValid_of_ne_bad {v : Value} (h : v.kind ≠ .bad) : v.isValid := by
  by_contra hinvalid
  apply h
  rw [Value.isValid, Bool.or_eq_true, bne_iff_ne, bne_iff_ne, not_or, not_not, not_not] at hinvalid
  obtain ⟨bits, ekind, simd⟩ := v
  simp_all

/-- The condition of the rules on an operator and its operands. A constant that stands for the
node has its kind, and an operand that is dropped before a constant is pure: otherwise the two
are put into a comma expression. -/
def ruleKindOk (o : Optimizer) (op : Op2) (x y : Expr) : Bool :=
  let equal := deepEqual o.allowMaskPure x y
  let pure := deepPure o.allowMaskPure x
  match op, x, y with
  | .sub, _, _ | .rem, _, _ => !equal || x.kind.hasZero
  | .quo, _, _ => !equal || x.kind.hasOne
  | .land, .const _ _, _ | .lor, .const _ _, _ => true
  | .land, _, .const c _ => c.toBool || pure
  | .lor, _, .const c _ => !c.toBool || pure
  | .lss, _, .const c _ | .geq, _, .const c _ =>
    !(y.kind.isUnsigned && c.isZero.toBool) || pure
  | _, _, _ => true

/-- The condition of the step on an `Op2`. Nothing is asked of two constants that are folded, nor
of two on which the host traps. -/
def binaryKindOk (o : Optimizer) (op : Op2) (x y : Expr) : Bool :=
  match x, y with
  | .const v _, .const w _ =>
    (o.flags.foldConstant && (evalBinaryOp op v w).all Value.isValid) ||
      !o.flags.simplifyExpr || rulesMeet (ruleKindOk o) op x y
  | _, _ => !o.flags.simplifyExpr || rulesMeet (ruleKindOk o) op x y

theorem identity2_isValid {k : Kind} {op : Op2} (h : (Value.identity2 k op).isValid) :
    op = .sub ∨ op = .quo ∨ op = .shl ∨ op = .shr := by
  cases op <;> first | cases h | simp

theorem kinded_identity {k : Kind} {op : Op2} {x y : Expr} {p : Place}
    (h : (binary k op x y p).wellKinded) (hvalid : (Value.identity2 x.kind op).isValid) :
    Kinded k x := by
  obtain ⟨-, hx, -, hfits⟩ := kinded_binary.mp h
  have hk : k = x.kind := by
    rcases identity2_isValid hvalid with rfl | rfl | rfl | rfl
    all_goals
      simp only [Kind.fits2, Bool.and_eq_true, beq_iff_eq] at hfits
      first | exact hfits | exact hfits.1
  rw [hk]
  exact hx

theorem kinded_partialEvalBinary {k : Kind} {op : Op2} {x y : Expr} {p : Place}
    (h : (binary k op x y p).wellKinded)
    (hvalid : (Optimizer.partialEvalBinary op x y).isValid) :
    Kinded k (Optimizer.partialEvalBinary op x y) := by
  rcases partialEvalBinary_cases hvalid with ⟨hop, heq⟩ | ⟨c, q, rfl, hident, -, heq⟩
  · obtain ⟨-, hx, hy, hfits⟩ := kinded_binary.mp h
    obtain ⟨rfl, hkinds⟩ := (fits2_comparison hop).mp hfits
    rw [← hkinds] at hy
    rw [heq]
    exact kinded_comparison (swapComparison_isComparison hop) hy hx
  · rw [heq]
    exact kinded_identity h hident

theorem kinded_simplifySelf {o : Optimizer} {k : Kind} {x y result : Expr}
    (hresult : deepEqual o.allowMaskPure x y → Kinded k result)
    (hvalid : (o.simplifySelf x y result).isValid) : Kinded k (o.simplifySelf x y result) := by
  rw [Optimizer.simplifySelf] at hvalid ⊢
  split at hvalid
  · next hequal =>
    rw [if_pos hequal]
    exact hresult hequal
  · cases hvalid

theorem kinded_falseExpr : Kinded .bool falseExpr := ⟨rfl, rfl, rfl⟩

theorem kinded_trueExpr : Kinded .bool trueExpr := ⟨rfl, rfl, rfl⟩

theorem simplifyComma_pure {o : Optimizer} {x : Expr} (y : Expr) (h : deepPure o.allowMaskPure x) :
    o.simplifyComma [x, y] = y := by
  simp [Optimizer.simplifyComma, h]

/-- The rules for the logical operators. -/
theorem kinded_simplifyBoolean {o : Optimizer} {op : Op2} {x y : Expr}
    (hop : op = .land ∨ op = .lor) (hx : Kinded .bool x) (hy : Kinded .bool y)
    (hok : ruleKindOk o op x y) (hvalid : (o.simplifyBoolean op x y).isValid) :
    Kinded .bool (o.simplifyBoolean op x y) := by
  unfold Optimizer.simplifyBoolean at hvalid ⊢
  split
  · split <;> assumption
  · next hconst =>
    split
    · exact hx
    · next hc =>
      have hpure : deepPure o.allowMaskPure x := by
        cases x <;> simp_all [ruleKindOk]
      rw [simplifyComma_pure _ hpure]
      exact hy
  · split <;> assumption
  · next hconst =>
    split
    · next hc =>
      have hpure : deepPure o.allowMaskPure x := by
        cases x <;> simp_all [ruleKindOk]
      rw [simplifyComma_pure _ hpure]
      exact hy
    · exact hx
  · split at hvalid
    all_goals first | cases hvalid | simp_all

/-- The rules for the comparisons. -/
theorem kinded_simplifyComparison {o : Optimizer} {op : Op2} {k : Kind} {x y : Expr}
    (hx : Kinded k x) (hy : Kinded k y) (hok : ruleKindOk o op x y)
    (hvalid : (o.simplifyComparison op x y).isValid) :
    Kinded .bool (o.simplifyComparison op x y) := by
  unfold Optimizer.simplifyComparison at hvalid ⊢
  cases y with
  | const c q =>
    dsimp only at hvalid ⊢
    split at hvalid
    · next hzero =>
      rw [if_pos hzero]
      have hpure : op = .lss ∨ op = .geq → deepPure o.allowMaskPure x := by
        rintro (rfl | rfl) <;> simpa [ruleKindOk, hzero] using hok
      split
      · rw [simplifyComma_pure _ (hpure (.inl rfl))]
        exact kinded_falseExpr
      · exact kinded_comparison rfl hx hy
      · rw [simplifyComma_pure _ (hpure (.inr rfl))]
        exact kinded_trueExpr
      · exact kinded_comparison rfl hx hy
      · next hlss hleq hgeq hgtr =>
        cases op with
        | lss => exact absurd rfl hlss
        | leq => exact absurd rfl hleq
        | gtr => exact absurd rfl hgtr
        | geq => exact absurd rfl hgeq
        | _ => cases hvalid
    · cases hvalid
  | _ =>
    dsimp only at hvalid ⊢
    split at hvalid
    · next hequal =>
      rw [if_pos hequal]
      cases op <;> first | exact kinded_falseExpr | exact kinded_trueExpr | cases hvalid
    · cases hvalid

/-- The rules of every operator keep the kind of its node. -/
theorem kinded_simplifyOp {o : Optimizer} {k : Kind} {op : Op2} {x y : Expr} {p : Place}
    (h : (binary k op x y p).wellKinded) (hok : ruleKindOk o op x y)
    (hvalid : (o.simplifyOp op x y).isValid) : Kinded k (o.simplifyOp op x y) := by
  obtain ⟨hbad, hx, hy, hfits⟩ := kinded_binary.mp h
  have hlogical : op = .land ∨ op = .lor → Kinded k (o.simplifyBoolean op x y) := by
    intro hop
    have hkinds : k = .bool ∧ x.kind = .bool ∧ y.kind = .bool := by
      rcases hop with rfl | rfl <;> simpa [Kind.fits2, and_assoc] using hfits
    obtain ⟨rfl, hkx, hky⟩ := hkinds
    rw [hkx] at hx
    rw [hky] at hy
    have hv : (o.simplifyBoolean op x y).isValid := by
      rcases hop with rfl | rfl <;> exact hvalid
    exact kinded_simplifyBoolean hop hx hy hok hv
  have hcomparison : op.isComparison → (o.simplifyComparison op x y).isValid →
      Kinded k (o.simplifyComparison op x y) := by
    intro hop hv
    obtain ⟨rfl, hkinds⟩ := (fits2_comparison hop).mp hfits
    rw [← hkinds] at hy
    exact kinded_simplifyComparison hx hy hok hv
  have hself : op = .sub ∨ op = .quo ∨ op = .rem → k = x.kind := by
    rintro (rfl | rfl | rfl)
    all_goals
      simp only [Kind.fits2, Bool.and_eq_true, beq_iff_eq] at hfits
      exact hfits.1
  cases op with
  | sub =>
    refine kinded_simplifySelf ?_ hvalid
    intro hequal
    have hk := hself (.inl rfl)
    rw [← hk]
    exact kinded_zero (by simpa [ruleKindOk, hequal, hk] using hok) hbad
  | quo =>
    refine kinded_simplifySelf ?_ hvalid
    intro hequal
    have hk := hself (.inr (.inl rfl))
    rw [← hk]
    exact kinded_one (by simpa [ruleKindOk, hequal, hk] using hok) hbad
  | rem =>
    refine kinded_simplifySelf ?_ hvalid
    intro hequal
    have hk := hself (.inr (.inr rfl))
    rw [← hk]
    exact kinded_zero (by simpa [ruleKindOk, hequal, hk] using hok) hbad
  | land => exact hlogical (.inl rfl)
  | lor => exact hlogical (.inr rfl)
  | lss | leq | neq | eql | gtr | geq => exact hcomparison rfl hvalid
  | shl | shr | bad2 => cases hvalid

theorem kinded_simplifyBinary {o : Optimizer} {k : Kind} {op : Op2} {x y : Expr} {p : Place}
    (h : (binary k op x y p).wellKinded) (hok : rulesMeet (ruleKindOk o) op x y)
    (hvalid : (o.simplifyBinary op x y).isValid) : Kinded k (o.simplifyBinary op x y) := by
  unfold Optimizer.simplifyBinary at hvalid ⊢
  rw [rulesMeet] at hok
  dsimp only at hok hvalid ⊢
  by_cases hfold : (Optimizer.partialEvalBinary op x y).isValid
  · have hkinded := kinded_partialEvalBinary h hfold
    rw [if_pos hfold] at hok hvalid ⊢
    split
    · next k' op' x' y' q heq =>
      rw [heq] at hok hkinded
      dsimp only at hok
      obtain ⟨-, hx', hy', -⟩ := kinded_binary.mp hkinded.wellKinded
      rw [hx'.toExpr, hy'.toExpr]
      split
      · next hrule =>
        have hk : k' = k := hkinded.kind
        exact kinded_simplifyOp (hk ▸ hkinded.wellKinded) hok hrule
      · rw [heq]
        exact hkinded
    · exact hkinded
  · rw [if_neg hfold] at hok hvalid ⊢
    exact kinded_simplifyOp h hok hvalid

theorem kinded_tryOptimizeBinary {o : Optimizer} {k : Kind} {op : Op2} {x y ret : Expr}
    {p : Place} (h : (binary k op x y p).wellKinded) (hok : binaryKindOk o op x y)
    (hret : o.tryOptimizeBinary op x y = some ret) (hvalid : ret.isValid) : Kinded k ret := by
  obtain ⟨-, hx, hy, hfits⟩ := kinded_binary.mp h
  have hrule : (!o.flags.simplifyExpr || rulesMeet (ruleKindOk o) op x y) →
      (if o.flags.simplifyExpr then o.simplifyBinary op x y else none).isValid →
      Kinded k (if o.flags.simplifyExpr then o.simplifyBinary op x y else none) := by
    intro hok hv
    split at hv
    · next hflag =>
      rw [if_pos hflag]
      exact kinded_simplifyBinary h (by simpa [hflag] using hok) hv
    · cases hv
  unfold Optimizer.tryOptimizeBinary at hret
  rw [hx.toExpr, hy.toExpr] at hret
  dsimp only at hret
  rw [if_pos (by rw [hx.isValid, hy.isValid]; rfl)] at hret
  split at hret
  · next v q w q' =>
    simp only [binaryKindOk, Bool.or_assoc] at hok
    split at hret
    · next hconst =>
      obtain ⟨folded, hfolded, hret⟩ := Option.bind_eq_some_iff.mp hret
      obtain rfl := Option.some.inj hret
      split
      · next hvalid' =>
        rw [if_pos hvalid'] at hvalid
        exact kinded_ofValue (Value.hasKind_evalBinaryOp hfits hfolded) hvalid
      · next hinvalid =>
        rw [if_neg hinvalid] at hvalid
        refine hrule ?_ hvalid
        simpa [hfolded, hinvalid] using hok
    · next hconst =>
      obtain rfl := Option.some.inj hret
      refine hrule ?_ hvalid
      have hwell : v.isValid ∧ w.isValid := by
        have hv := hx.ne_bad
        have hw := hy.ne_bad
        rw [kind] at hv hw
        constructor
        · exact isValid_of_ne_bad hv
        · exact isValid_of_ne_bad hw
      have hflag : o.flags.foldConstant = false := by
        simpa [hwell.1, hwell.2] using hconst
      simpa [hflag] using hok
  · next hconst =>
    obtain rfl := Option.some.inj hret
    refine hrule ?_ hvalid
    unfold binaryKindOk at hok
    split at hok
    · exact absurd rfl (hconst _ _ _ _ rfl)
    · exact hok

/-! ## Tuples -/

/-- The condition of the step on an `OpN`: a comma expression that is left with one operand is
replaced by it. -/
def tupleKindOk (o : Optimizer) (op : OpN) (children : List Expr) : Bool :=
  match op, (cut o op children).2 with
  | .comma, [x] => x.kind == .void
  | _, _ => true

theorem kinded_rebuildTuple {k : Kind} {op : OpN} {args children : List Expr} {p : Place}
    (h : (tuple k op args p).wellKinded) (hchildren : (tuple k op children .fresh).wellKinded) :
    Kinded k (Optimizer.rebuildTuple k op args p children) := by
  rw [Optimizer.rebuildTuple]
  split
  · exact ⟨h, rfl, rfl⟩
  · exact ⟨hchildren, rfl, rfl⟩

/-- The constants that are cut off have kinds, and what is kept is among the operands. -/
theorem cut_operands {o : Optimizer} {k : Kind} {op : OpN} {children : List Expr} {p : Place}
    (h : (tuple k op children p).wellKinded) :
    (∀ c ∈ (cut o op children).1, c.kind ≠ .bad) ∧ ∀ x ∈ (cut o op children).2, x ∈ children := by
  obtain ⟨cs, hcs, hconsts⟩ := cut_spec o op children
  have hmem : ∀ x ∈ cs ++ (cut o op children).2, x ∈ children := by
    intro x hx
    rw [← hcs, List.mem_reverse] at hx
    exact (arrange_perm o op children).mem_iff.mp hx
  constructor
  · intro c hc
    obtain ⟨e, he, q, rfl⟩ := hconsts.exists_left c hc
    have hwell := ((kinded_tuple.mp h).2 _ (hmem _ (List.mem_append_left _ he))).wellKinded
    simpa [wellKinded] using hwell
  · exact fun x hx => hmem x (List.mem_append_right _ hx)

theorem kinded_partialEvalTuple {o : Optimizer} {k : Kind} {op : OpN} {args : List Expr}
    {place : Place} {children : List Expr} (h : (tuple k op args place).wellKinded)
    (hchildren : (tuple k op children .fresh).wellKinded) (hok : tupleKindOk o op children)
    (hvalid : (o.partialEvalTuple k op args place children).isValid) :
    Kinded k (o.partialEvalTuple k op args place children) := by
  obtain ⟨hk, hall⟩ := kinded_tuple.mp hchildren
  by_cases hcond : (op.isAssociative && (o.flags.fastMath || !k.isFloat)) = true
  · rw [Bool.and_eq_true] at hcond
    obtain ⟨hassoc, hfloat⟩ := hcond
    obtain ⟨hconsts, hkept⟩ := cut_operands (o := o) hchildren
    rw [partialEvalTuple_eq hassoc hfloat] at hvalid ⊢
    have hv := Value.hasKind_foldConsts hassoc hk.1 hconsts
    unfold tupleKindOk at hok
    dsimp only at hvalid ⊢
    generalize (cut o op children).1 = consts at hconsts hv hvalid ⊢
    generalize (cut o op children).2 = kept at hok hkept hvalid ⊢
    have hreverse : ∀ x ∈ kept.reverse, Operand k op x :=
      fun x hx => hall x (hkept x (List.mem_reverse.mp hx))
    generalize consts.foldl (fun v c => evalTupleOp k op [c, v]) (Value.identityN k op) = v
      at hv hvalid ⊢
    split
    · next hempty =>
      rw [if_pos hempty] at hvalid
      exact kinded_ofValue (Value.hasKind_identityN k op) hvalid
    · next hempty =>
      rw [if_neg hempty] at hvalid
      split
      · next hne =>
        rw [if_pos hne] at hvalid
        rw [Bool.and_eq_true] at hne
        have hvk := Value.kind_of_ne_identity hk.1 hv hne.2
        have hconst : Kinded k (ofValue v) := by
          apply kinded_ofValue hv
          rw [ofValue, if_pos (isValid_of_ne_bad (hvk ▸ hk.1)), isValid, kind,
            Value.readBack_kind, hvk]
          simpa using hk.1
        split
        · exact hconst
        · split
          · rw [hconst.toExpr]
            exact hconst
          · refine kinded_rebuildTuple h (kinded_tuple.mpr ⟨hk, ?_⟩)
            rw [List.forall_mem_append, List.forall_mem_singleton]
            exact ⟨hreverse, hconst.wellKinded, fun _ => hconst.kind⟩
      · next hne =>
        rw [if_neg hne] at hvalid
        obtain _ | ⟨x, _ | ⟨y, rest⟩⟩ := kept
        · exact kinded_ofValue hv hvalid
        · have hx := hkept x (List.mem_singleton_self x)
          have htype : x.type.isExpr := by
            by_contra htype
            dsimp only at hvalid
            rw [toExpr, if_neg htype] at hvalid
            cases hvalid
          have hkx : x.kind = k := by
            by_cases hcomm : op.isCommutative
            · exact (hall x hx).kind hcomm
            · cases op with
              | comma =>
                rw [hk.2 rfl]
                exact eq_of_beq hok
              | add | mul | and | or | xor | max | min => exact absurd rfl hcomm
              | _ => cases hassoc
          dsimp only
          rw [toExpr, if_pos htype]
          exact ⟨(hall x hx).wellKinded, hkx, htype⟩
        · exact kinded_rebuildTuple h (kinded_tuple.mpr ⟨hk, hreverse⟩)
  · unfold Optimizer.partialEvalTuple
    rw [if_neg hcond]
    exact kinded_rebuildTuple h hchildren

end Expr

/-! ## Runs -/

/-- The condition of a step on the kinds. -/
def Step.kindOk (o : Optimizer) : Step → Bool
  | .unary _ op x => Expr.unaryKindOk o op x
  | .binary op x y => Expr.binaryKindOk o op x y
  | .tuple _ op children => Expr.tupleKindOk o op children
  | .splice _ => true

namespace Optimizer

open Expr

/-- An expression in the place of a well-kinded one. -/
structure KeepsKind (e e' : Expr) : Prop where
  wellKinded : e'.wellKinded
  kind : e'.kind = e.kind
  isExpr : e.type.isExpr → e'.type.isExpr

theorem KeepsKind.refl {e : Expr} (h : e.wellKinded) : KeepsKind e e := ⟨h, rfl, id⟩

theorem KeepsKind.kinded {k : Kind} {e e' : Expr} (h : KeepsKind e e') (he : Kinded k e) :
    Kinded k e' :=
  ⟨h.wellKinded, h.kind.trans he.kind, h.isExpr he.isExpr⟩

theorem keepsKind_of_kinded {e e' : Expr} (h : Kinded e.kind e') : KeepsKind e e' :=
  ⟨h.wellKinded, h.kind, fun _ => h.isExpr⟩

/-- A run on an expression keeps its kind. -/
def KeepsKinds (o : Optimizer) (fuel : Nat) : Prop :=
  ∀ e e', e.wellKinded → (∀ s ∈ steps o fuel e, s.kindOk o) → o.optimize fuel e = some e' →
    KeepsKind e e'

/-- A run on the operands of a tuple returns operands of the tuple. -/
def KeepsOperands (o : Optimizer) (fuel : Nat) : Prop :=
  ∀ kind op args cs, hasTuple kind op → (∀ a ∈ args, Operand kind op a) →
    (∀ s ∈ childSteps o fuel kind op args, s.kindOk o) →
    o.flattenChildren fuel kind op args = some cs → ∀ c ∈ cs, Operand kind op c

theorem flattenChild_keepsKind {o : Optimizer} {fuel : Nat} (ihe : KeepsKinds o fuel)
    (ihc : KeepsOperands o fuel) {kind : Kind} {op : OpN} {child : Expr} {chunk : List Expr}
    (hk : hasTuple kind op) (hchild : Operand kind op child)
    (hok : ∀ s ∈ stepsOfChild o fuel kind op child, s.kindOk o)
    (h : o.flattenChild fuel kind op child = some chunk) : ∀ c ∈ chunk, Operand kind op c := by
  have hgroup : ∀ e : Expr, e.wellKinded → e.hasHeader kind op →
      (∀ s ∈ Step.splice op :: childSteps o fuel kind op e.children, s.kindOk o) →
      o.flattenChildren fuel kind op e.children = some chunk → ∀ c ∈ chunk, Operand kind op c := by
    intro e he hheader hok hchunk
    obtain ⟨args, p, rfl⟩ := hasHeader_iff.mp hheader
    rw [List.forall_mem_cons] at hok
    exact ihc kind op args chunk hk (kinded_tuple.mp he).2 hok.2 hchunk
  rw [flattenChild] at h
  rw [stepsOfChild] at hok
  by_cases hheader : child.hasHeader kind op
  · rw [if_pos hheader] at hok h
    exact hgroup child hchild.wellKinded hheader hok h
  · rw [if_neg hheader] at hok h
    obtain ⟨child', hchild', h⟩ := Option.bind_eq_some_iff.mp h
    rw [List.forall_mem_append] at hok
    have hkeeps := ihe child child' hchild.wellKinded hok.1 hchild'
    rw [hchild'] at hok
    by_cases hheader' : child'.hasHeader kind op
    · rw [if_pos hheader'] at h
      exact hgroup child' hkeeps.wellKinded hheader' (by simpa [hheader'] using hok.2) h
    · rw [if_neg hheader'] at h
      rw [← Option.some.inj h, List.forall_mem_singleton]
      exact ⟨hkeeps.wellKinded, fun hop => hkeeps.kind.trans (hchild.kind hop)⟩

/-- The step on a tuple whose operands are flattened. -/
theorem flatten_keepsKind {o : Optimizer} {fuel : Nat} (ihe : KeepsKinds o fuel)
    (ihc : KeepsOperands o fuel) : KeepsOperands o (fuel + 1) := by
  intro kind op args cs hk hargs hok h
  rw [childSteps, List.forall_mem_flatMap] at hok
  rw [flattenChildren_succ, Option.map_eq_some_iff] at h
  obtain ⟨chunks, hchunks, rfl⟩ := h
  intro c hc
  obtain ⟨chunk, hchunk, hc⟩ := List.mem_flatten.mp hc
  obtain ⟨a, ha, hflat⟩ := (List.mapM_eq_some.mp hchunks).exists_left chunk hchunk
  exact flattenChild_keepsKind ihe ihc hk (hargs a ha) (hok a ha) hflat c hc

/-- One more level of a run: what a step returns has the kind of its node. -/
theorem optimize_keepsKind {o : Optimizer} {fuel : Nat} (ihe : KeepsKinds o fuel)
    (ihc : KeepsOperands o fuel) : KeepsKinds o (fuel + 1) := by
  intro e e' hwell hok h
  cases e with
  | tuple kind op args place =>
    rw [optimize] at h
    rw [steps] at hok
    split at h
    · next hflag =>
      rw [if_pos hflag, List.forall_mem_append] at hok
      obtain ⟨children, hchildren, h⟩ := Option.bind_eq_some_iff.mp h
      obtain ⟨hk, hargs⟩ := kinded_tuple.mp hwell
      have hoperands := ihc kind op args children hk hargs hok.1 hchildren
      rw [hchildren] at hok
      rw [← Option.some.inj h]
      split
      · next hvalid =>
        exact keepsKind_of_kinded (kinded_partialEvalTuple hwell (kinded_tuple.mpr ⟨hk, hoperands⟩)
          (hok.2 _ (List.mem_singleton_self _)) hvalid)
      · exact .refl hwell
    · rw [← Option.some.inj h]
      exact .refl hwell
  | mem kind args place =>
    rw [optimize] at h
    rw [steps, List.forall_mem_flatMap] at hok
    obtain ⟨children, hchildren, h⟩ := Option.bind_eq_some_iff.mp h
    rw [← Option.some.inj h]
    split
    · exact .refl hwell
    · refine ⟨?_, rfl, id⟩
      rw [Expr.wellKinded, Bool.and_eq_true, wellKindedList_iff] at hwell ⊢
      refine ⟨hwell.1, ?_⟩
      intro c hc
      obtain ⟨a, ha, hrun⟩ := (List.mapM_eq_some.mp hchildren).exists_left c hc
      exact (ihe a c (hwell.2 a ha) (hok a ha) hrun).wellKinded
  | unary kind op x place =>
    rw [optimize] at h
    rw [steps, List.forall_mem_append] at hok
    obtain ⟨x', hx', h⟩ := Option.bind_eq_some_iff.mp h
    obtain ⟨hbad, hx, hfits⟩ := kinded_unary.mp hwell
    have hkx := (ihe x x' hx.wellKinded hok.1 hx').kinded hx
    have hnode : (unary kind op x' .fresh).wellKinded := by
      rw [kinded_unary, hkx.kind]
      exact ⟨hbad, hkx, hfits⟩
    rw [hx'] at hok
    rw [← Option.some.inj h]
    split
    · next hvalid =>
      exact keepsKind_of_kinded
        (kinded_tryOptimizeUnary hnode (hok.2 _ (List.mem_singleton_self _)) hvalid)
    · split
      · exact .refl hwell
      · exact ⟨hnode, rfl, id⟩
  | binary kind op x y place =>
    rw [optimize] at h
    rw [steps, List.forall_mem_append, List.forall_mem_append] at hok
    obtain ⟨x', hx', h⟩ := Option.bind_eq_some_iff.mp h
    obtain ⟨y', hy', h⟩ := Option.bind_eq_some_iff.mp h
    obtain ⟨ret, hret, h⟩ := Option.bind_eq_some_iff.mp h
    obtain ⟨hbad, hx, hy, hfits⟩ := kinded_binary.mp hwell
    have hkx := (ihe x x' hx.wellKinded hok.1.1 hx').kinded hx
    have hky := (ihe y y' hy.wellKinded hok.1.2 hy').kinded hy
    have hnode : (binary kind op x' y' .fresh).wellKinded := by
      rw [kinded_binary, hkx.kind, hky.kind]
      exact ⟨hbad, hkx, hky, hfits⟩
    rw [hx', hy'] at hok
    rw [← Option.some.inj h]
    split
    · next hvalid =>
      exact keepsKind_of_kinded
        (kinded_tryOptimizeBinary hnode (hok.2 _ (List.mem_singleton_self _)) hret hvalid)
    · split
      · exact .refl hwell
      · exact ⟨hnode, rfl, id⟩
  | _ =>
    rw [optimize] at h
    rw [← Option.some.inj h]
    exact .refl hwell

/-- A run whose steps all meet their condition keeps the kinds. -/
theorem optimize_keepsKinds (o : Optimizer) (fuel : Nat) :
    KeepsKinds o fuel ∧ KeepsOperands o fuel := by
  induction fuel with
  | zero =>
    constructor
    · intro e e' hwell _ h
      rw [← Option.some.inj h]
      exact .refl hwell
    · intro kind op args cs _ hargs _ h
      rwa [← Option.some.inj h]
  | succ fuel ih => exact ⟨optimize_keepsKind ih.1 ih.2, flatten_keepsKind ih.1 ih.2⟩

/-- What the optimizer returns for a well-kinded expression is well-kinded and of its kind, if
every step of the run meets its condition. -/
theorem optimize_preserves_kind (o : Optimizer) {e e' : Expr} {fuel : Nat} (hwell : e.wellKinded)
    (hsteps : ∀ s ∈ o.steps (optimizeFuel e) e, s.kindOk o) (hfuel : optimizeFuel e ≤ fuel)
    (hrun : o.optimize fuel e = some e') : e'.kind = e.kind ∧ e'.wellKinded := by
  rw [o.optimize_fuel e hfuel] at hrun
  have h := (o.optimize_keepsKinds (optimizeFuel e)).1 e e' hwell hsteps hrun
  exact ⟨h.kind, h.wellKinded⟩

/-- `x && 0 != 1 + y`. -/
def landSum : Expr :=
  binary .bool .land (var .bool 0x1000)
    (binary .bool .neq (const ⟨0, .int32⟩ .direct)
      (tuple .int32 .add [const ⟨1, .int32⟩ .direct, var .int32 0x1001] (.at 0)) (.at 4)) (.at 8)

/-- `x && y + 1 != 0`. -/
def landSumOptimized : Expr :=
  binary .bool .land (var .bool 0x1000)
    (binary .bool .neq (tuple .int32 .add [var .int32 0x1001, const ⟨1, .int32⟩ .direct] .fresh)
      (const ⟨0, .int32⟩ .direct) .fresh) .fresh

theorem optimize_preserves_kind_land :
    landSumOptimized.kind = .bool ∧ landSumOptimized.wellKinded := by
  have hrun : (Optimizer.ofFlags .all).optimize 14 landSum = some landSumOptimized := by rfl
  have hsteps : ∀ s ∈ (Optimizer.ofFlags .all).steps (optimizeFuel landSum) landSum,
      s.kindOk (Optimizer.ofFlags .all) := by decide
  exact optimize_preserves_kind (.ofFlags .all) rfl hsteps (by decide) hrun

/-- `f() && false` becomes a comma expression. -/
theorem optimize_land_call :
    ¬∀ (o : Optimizer) (e e' : Expr), e.wellKinded → o.Returns e e' → e'.kind = e.kind := by
  intro h
  let call := tuple .bool .call [ftype [.bool] [], label 1 0] (.at 0)
  let e := binary .bool .land call (const ⟨0, .bool⟩ .direct) (.at 4)
  have hrun : (Optimizer.ofFlags .all).Returns e
      (tuple .void .comma [call, const ⟨0, .bool⟩ .direct] .fresh) := by
    rw [returns_iff]
    rfl
  exact absurd (h (.ofFlags .all) e _ rfl hrun) (by decide)

end Optimizer

end OneJit
