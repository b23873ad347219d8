import OneJit.OptimizerBinary

/-!
# The optimizer on one tuple

The trailing constants of a tuple are folded from the right into one, which stands for the fold of
their meanings; a commutative operator may be folded in any order.
-/

namespace OneJit

namespace Expr

/-- The condition of the step on an `OpN`: every constant that is folded keeps its meaning. -/
def tupleOk (o : Optimizer) (kind : Kind) (op : OpN) (children : List Expr) : Bool :=
  !(o.flags.foldConstant && op.isAssociative) ||
    (Optimizer.leadingConsts (o.arrange op children).reverse).1.all
      fun c => decide (tupleFolds kind op c)

/-! ## Commutative operators -/

theorem commutative_ne_comma {op : OpN} (hop : op.isCommutative) : op ≠ .comma := by
  intro hc
  rw [hc] at hop
  cases hop

theorem typed_commutative {k : Kind} {op : OpN} (hop : op.isCommutative) {xs : List Expr}
    {p : Place} :
    (tuple k op xs p).typed ↔ k.isScalar ∧ ∀ x ∈ xs, x.typed ∧ x.valueKind = k := by
  rw [typed, Bool.and_eq_true, typedList_iff]
  constructor
  · intro h
    obtain ⟨hxs, ht⟩ := h
    obtain ⟨hscalar, hkinds⟩ := typedN_commutative hop ht
    exact ⟨hscalar, fun x hx => ⟨hxs x hx, hkinds _ (List.mem_map_of_mem hx)⟩⟩
  · intro h
    obtain ⟨hscalar, hxs⟩ := h
    refine ⟨fun x hx => (hxs x hx).1, ?_⟩
    have hall : (xs.map valueKind).all (· == k) := by
      simp only [List.all_map, List.all_eq_true, Function.comp_apply, beq_iff_eq]
      exact fun x hx => (hxs x hx).2
    cases op <;> simp only [OpN.isCommutative, Bool.false_eq_true] at hop
    all_goals simp [Kind.typedN, OpN.isCommutative, hscalar, hall]

theorem eval_commutative {ρ : Valuation} {k : Kind} {op : OpN} (h : k.isScalar)
    (hop : op.isCommutative) {xs : List Expr} {p : Place} {v : BitVec 64} :
    eval ρ (tuple k op xs p) = some v ↔
      ∃ vs, evalList ρ xs = some vs ∧ (k.tupleMonoid h op hop).fold vs = v := by
  rw [eval_tuple]
  simp only [apply_commutative hop, Option.some.injEq]
  rfl

theorem evalList_perm {ρ : Valuation} {xs ys : List Expr} (h : xs.Perm ys) {vs : List (BitVec 64)}
    (hvs : evalList ρ xs = some vs) : ∃ ws, evalList ρ ys = some ws ∧ vs.Perm ws := by
  induction h generalizing vs with
  | nil => exact ⟨vs, hvs, .refl vs⟩
  | cons x _ ih =>
    obtain ⟨a, us, ha, hus, rfl⟩ := evalList_cons.mp hvs
    obtain ⟨ws, hws, hperm⟩ := ih hus
    exact ⟨a :: ws, evalList_cons.mpr ⟨a, ws, ha, hws, rfl⟩, hperm.cons a⟩
  | swap x y l =>
    obtain ⟨b, us, hb, hus, rfl⟩ := evalList_cons.mp hvs
    obtain ⟨a, ws, ha, hws, rfl⟩ := evalList_cons.mp hus
    have htail := evalList_cons.mpr ⟨b, ws, hb, hws, rfl⟩
    exact ⟨a :: b :: ws, evalList_cons.mpr ⟨a, _, ha, htail, rfl⟩, .swap a b ws⟩
  | trans _ _ ih1 ih2 =>
    obtain ⟨us, hus, hperm1⟩ := ih1 hvs
    obtain ⟨ws, hws, hperm2⟩ := ih2 hus
    exact ⟨ws, hws, hperm1.trans hperm2⟩

/-- The values of operands of kind `k` are in the form of that kind. -/
theorem evalList_valid {ρ : Valuation} {k : Kind} (h : k.isScalar) {xs : List Expr}
    (hxs : ∀ x ∈ xs, x.typed ∧ x.valueKind = k) {vs : List (BitVec 64)}
    (hvs : evalList ρ xs = some vs) : ∀ v ∈ vs, k.wrap v = v := by
  apply forall₂_valid _ hvs
  intro x hx
  obtain ⟨ht, hk⟩ := hxs x hx
  exact ⟨hk, eval_normal ρ x ht (hk ▸ h)⟩

theorem refines_perm {k : Kind} {op : OpN} (hop : op.isCommutative) {xs ys : List Expr}
    {p q : Place} (ht : (tuple k op xs p).typed) (h : xs.Perm ys) :
    Refines (tuple k op xs p) (tuple k op ys q) := by
  obtain ⟨hscalar, hxs⟩ := (typed_commutative hop).mp ht
  have hys : ∀ y ∈ ys, y.typed ∧ y.valueKind = k := fun y hy => hxs y (h.mem_iff.mpr hy)
  have hne := commutative_ne_comma hop
  refine ⟨(typed_commutative hop).mpr ⟨hscalar, hys⟩, ?_, ?_⟩
  · rw [valueKind_tuple hne, valueKind_tuple hne]
  · intro ρ v hv
    obtain ⟨vs, hvs, hv⟩ := (eval_commutative hscalar hop).mp hv
    obtain ⟨ws, hws, hperm⟩ := evalList_perm h hvs
    have hfold := (k.tupleMonoid hscalar op hop).fold_perm hperm (evalList_valid hscalar hxs hvs)
    exact (eval_commutative hscalar hop).mpr ⟨ws, hws, hfold ▸ hv⟩

/-! ## Folding the trailing constants -/

theorem leadingConsts_spec (es : List Expr) :
    ∃ cs, es = cs ++ (Optimizer.leadingConsts es).2 ∧
      List.Forall₂ (fun e v => ∃ p, e = const v p) cs (Optimizer.leadingConsts es).1 := by
  induction es with
  | nil => exact ⟨[], rfl, .nil⟩
  | cons e es ih =>
    cases e with
    | const v p =>
      obtain ⟨cs, hes, hcs⟩ := ih
      refine ⟨const v p :: cs, ?_, .cons ⟨p, rfl⟩ hcs⟩
      exact congrArg (const v p :: ·) hes
    | _ => exact ⟨[], rfl, .nil⟩

theorem evalList_consts {ρ : Valuation} {cs : List Expr} {vs : List Value}
    (h : List.Forall₂ (fun e v => ∃ p, e = const v p) cs vs) :
    evalList ρ cs = some (vs.map Value.meaning) := by
  induction h with
  | nil => rfl
  | cons hc _ ih =>
    obtain ⟨p, rfl⟩ := hc
    rw [evalList, ih, eval]
    rfl

/-- The loop over the trailing constants computes the fold of their meanings. -/
theorem foldConsts_sound {k : Kind} (h : k.isScalar) {op : OpN} (hop : op.isCommutative)
    {cs : List Value} (hcs : ∀ c ∈ cs, c.kind = k ∧ tupleFolds k op c) {v : Value}
    (hv : FoldState k op v) :
    FoldState k op (cs.foldl (fun v c => evalTupleOp k op [c, v]) v) ∧
      (cs.foldl (fun v c => evalTupleOp k op [c, v]) v).meaning =
        k.tupleOp op ((k.tupleMonoid h op hop).fold (cs.map Value.meaning)) v.meaning := by
  let m := k.tupleMonoid h op hop
  have hmeaning : ∀ {v : Value}, v.kind = k → m.valid v.meaning := by
    intro v hk
    change k.wrap (v.kind.wrap v.bits) = v.kind.wrap v.bits
    rw [hk, Kind.wrap_wrap h]
  induction cs generalizing v with
  | nil => exact ⟨hv, (m.unit_op _ (hmeaning hv.1)).symm⟩
  | cons c cs ih =>
    simp only [List.forall_mem_cons] at hcs
    obtain ⟨⟨hck, hcf⟩, hcs⟩ := hcs
    obtain ⟨hstate, hstep⟩ := evalTupleOp_step h hop hck hcf hv
    obtain ⟨hfinal, heq⟩ := ih hcs hstate
    have hfold : m.valid (m.fold (cs.map Value.meaning)) := by
      apply m.valid_fold
      intro a ha
      obtain ⟨c', hc', rfl⟩ := List.mem_map.mp ha
      exact hmeaning (hcs c' hc').1
    refine ⟨hfinal, heq.trans ?_⟩
    rw [hstep]
    calc k.tupleOp op (m.fold (cs.map Value.meaning)) (k.tupleOp op c.meaning v.meaning)
        = m.op (m.op (m.fold (cs.map Value.meaning)) c.meaning) v.meaning :=
          (m.assoc _ _ _ hfold (hmeaning hck) (hmeaning hv.1)).symm
      _ = m.op (m.op c.meaning (m.fold (cs.map Value.meaning))) v.meaning := by
          rw [m.comm _ _ hfold (hmeaning hck)]

/-- What is left of a commutative tuple when its trailing constants are folded into `v`. -/
structure Trailing (k : Kind) (op : OpN) (e : Expr) (kept : List Expr) (v : Value) : Prop where
  kind : v.kind = k
  typed : ∀ x ∈ kept, x.typed ∧ x.valueKind = k
  eval : ∀ ρ w, eval ρ e = some w → ∃ ws, evalList ρ kept = some ws ∧
    w = k.tupleOp op (ws.foldr (k.tupleOp op) (k.tupleUnit op)) v.meaning

theorem trailing_consts {k : Kind} {op : OpN} (hop : op.isCommutative) {xs cs kept : List Expr}
    {p : Place} (ht : (tuple k op xs p).typed) (hsplit : xs.Perm (cs ++ kept))
    {consts : List Value} (hconsts : List.Forall₂ (fun e v => ∃ p, e = const v p) cs consts)
    (hfolds : ∀ c ∈ consts, tupleFolds k op c) :
    Trailing k op (tuple k op xs p) kept
      (consts.foldl (fun v c => evalTupleOp k op [c, v]) (Value.identityN k op)) := by
  obtain ⟨hscalar, hxs⟩ := (typed_commutative hop).mp ht
  let m := k.tupleMonoid hscalar op hop
  have hall : ∀ x ∈ cs ++ kept, x.typed ∧ x.valueKind = k :=
    fun x hx => hxs x (hsplit.mem_iff.mpr hx)
  have hkinds : ∀ c ∈ consts, c.kind = k := by
    intro c hc
    obtain ⟨i, hi, rfl⟩ := List.getElem_of_mem hc
    obtain ⟨q, hq⟩ := hconsts.get (by rw [hconsts.length_eq]; exact hi) hi
    have hmem : const consts[i] q ∈ cs ++ kept :=
      List.mem_append_left _ (hq ▸ List.get_mem cs _)
    exact (hall _ hmem).2
  have hassoc : op.isAssociative := by
    cases op <;> first | rfl | cases hop
  have hstart := foldState_identity hscalar hassoc
  obtain ⟨hstate, hmeaning⟩ :=
    foldConsts_sound hscalar hop (fun c hc => ⟨hkinds c hc, hfolds c hc⟩) hstart
  refine ⟨hstate.1, fun x hx => hall x (List.mem_append_right _ hx), ?_⟩
  intro ρ w hw
  obtain ⟨vs, hvs, hw⟩ := (eval_commutative hscalar hop).mp hw
  obtain ⟨us, hus, hperm'⟩ := evalList_perm hsplit hvs
  obtain ⟨as, ws, has, hws, rfl⟩ := evalList_append.mp hus
  rw [evalList_consts hconsts] at has
  obtain rfl := Option.some.inj has
  have hvalid := evalList_valid hscalar hall hus
  simp only [List.mem_append] at hvalid
  have hleft : ∀ a ∈ consts.map Value.meaning, m.valid a := fun a ha => hvalid a (.inl ha)
  have hright : ∀ a ∈ ws, m.valid a := fun a ha => hvalid a (.inr ha)
  refine ⟨ws, hws, ?_⟩
  rw [hmeaning, identityN_meaning hscalar, ← hw,
    m.fold_perm hperm' (evalList_valid hscalar hxs hvs), m.fold_append hleft hright,
    m.comm _ _ (m.valid_fold hleft) (m.valid_fold hright)]
  change _ = m.op (m.fold ws) (m.op (m.fold (consts.map Value.meaning)) m.unit)
  rw [m.op_unit (m.valid_fold hleft)]

section Rebuilt

variable {k : Kind} {op : OpN} {e : Expr} {kept : List Expr} {v : Value}

/-- The folded constant is the value where it absorbs what is kept. -/
theorem Trailing.refines_const (h : Trailing k op e kept v) (hscalar : k.isScalar)
    (hk : e.valueKind = k)
    (habsorb : ∀ ρ ws, evalList ρ kept = some ws →
      k.tupleOp op (ws.foldr (k.tupleOp op) (k.tupleUnit op)) v.meaning = v.meaning) :
    Refines e (ofValue v) := by
  apply refines_ofValue (h.kind.trans hk.symm) (h.kind ▸ hscalar)
  intro ρ w hw
  obtain ⟨ws, hws, hw⟩ := h.eval ρ w hw
  rw [hw, habsorb ρ ws hws]

theorem meaning_valid (h : Trailing k op e kept v) (hscalar : k.isScalar) :
    k.wrap v.meaning = v.meaning := by
  rw [Value.meaning, h.kind, Kind.wrap_wrap hscalar]

theorem Trailing.refines_nil (h : Trailing k op e [] v) (hop : op.isCommutative)
    (hscalar : k.isScalar) (hk : e.valueKind = k) : Refines e (ofValue v) := by
  apply h.refines_const hscalar hk
  intro ρ ws hws
  obtain rfl := Option.some.inj hws
  exact (k.tupleMonoid hscalar op hop).unit_op _ (meaning_valid h hscalar)

theorem Trailing.refines_absorbing (h : Trailing k op e kept v) (hop : op.isCommutative)
    (hscalar : k.isScalar) (hk : e.valueKind = k)
    (hv : (v.eq (Value.absorbing k op)).toBool) : Refines e (ofValue v) := by
  have hvk : v.kind.isScalar := h.kind ▸ hscalar
  have habsorbing : Value.absorbing k op = v := by
    by_cases hsame : v.kind = (Value.absorbing k op).kind
    · exact (Value.eq_toBool (hsame ▸ hvk) hv).symm
    · rw [Value.eq, Value.relation, if_pos hsame] at hv
      cases hv
  apply h.refines_const hscalar hk
  intro ρ ws hws
  have hvalid := (k.tupleMonoid hscalar op hop).valid_fold (evalList_valid hscalar h.typed hws)
  have hsound := absorbing_sound hscalar hop (habsorbing ▸ h.kind) _ hvalid
  rw [habsorbing] at hsound
  exact hsound

/-- The folded constant is put after what is kept. -/
theorem Trailing.refines_append (h : Trailing k op e kept v) (hop : op.isCommutative)
    (hscalar : k.isScalar) (hk : e.valueKind = k) (q : Place) :
    Refines e (tuple k op (kept.reverse ++ [ofValue v]) q) := by
  have hvk : v.kind.isScalar := h.kind ▸ hscalar
  obtain ⟨p, hp⟩ := ofValue_eq hvk
  have hback := readBack_meaning hvk
  have htyped : (tuple k op (ofValue v :: kept) q).typed := by
    rw [typed_commutative hop, hp]
    refine ⟨hscalar, List.forall_mem_cons.mpr ⟨⟨?_, hback.1.trans h.kind⟩, h.typed⟩⟩
    rw [Expr.typed, hback.1]
    exact hvk
  have hperm : (ofValue v :: kept).Perm (kept.reverse ++ [ofValue v]) := by
    rw [← List.reverse_cons]
    exact (List.reverse_perm _).symm
  refine Refines.trans ⟨htyped, ?_, ?_⟩
    (refines_perm hop htyped hperm)
  · rw [hk, valueKind_tuple (commutative_ne_comma hop)]
  · intro ρ w hw
    obtain ⟨ws, hws, hw⟩ := h.eval ρ w hw
    have hvalue : Expr.eval ρ (ofValue v) = some v.meaning := by
      rw [hp, Expr.eval, hback.2]
    refine (eval_commutative hscalar hop).mpr
      ⟨v.meaning :: ws, evalList_cons.mpr ⟨_, _, hvalue, hws, rfl⟩, ?_⟩
    have hvalid := (k.tupleMonoid hscalar op hop).valid_fold (evalList_valid hscalar h.typed hws)
    rw [MonoidOn.fold_cons, hw]
    exact (k.tupleMonoid hscalar op hop).comm _ _ (meaning_valid h hscalar) hvalid

/-- A folded constant that stands for the unit is dropped. -/
theorem Trailing.refines_kept (h : Trailing k op e kept v) (hop : op.isCommutative)
    (hscalar : k.isScalar) (hk : e.valueKind = k) (hunit : v.meaning = k.tupleUnit op)
    (q : Place) : Refines e (tuple k op kept.reverse q) := by
  have htyped : (tuple k op kept q).typed := (typed_commutative hop).mpr ⟨hscalar, h.typed⟩
  refine Refines.trans ⟨htyped, ?_, ?_⟩
    (refines_perm hop htyped (List.reverse_perm kept).symm)
  · rw [hk, valueKind_tuple (commutative_ne_comma hop)]
  · intro ρ w hw
    obtain ⟨ws, hws, hw⟩ := h.eval ρ w hw
    refine (eval_commutative hscalar hop).mpr ⟨ws, hws, ?_⟩
    have hvalid := (k.tupleMonoid hscalar op hop).valid_fold (evalList_valid hscalar h.typed hws)
    rw [hw, hunit]
    exact ((k.tupleMonoid hscalar op hop).op_unit hvalid).symm

end Rebuilt

theorem refines_singleton {k : Kind} {op : OpN} (hop : op.isCommutative) {x : Expr} {p : Place}
    (ht : (tuple k op [x] p).typed) : Refines (tuple k op [x] p) x := by
  obtain ⟨hscalar, hxs⟩ := (typed_commutative hop).mp ht
  obtain ⟨hx, hk⟩ := hxs x (List.mem_singleton_self x)
  refine ⟨hx, ?_, ?_⟩
  · rw [hk, valueKind_tuple (commutative_ne_comma hop)]
  · intro ρ v hv
    obtain ⟨vs, hvs, hv⟩ := (eval_commutative hscalar hop).mp hv
    have hvalid := evalList_valid hscalar hxs hvs
    obtain ⟨a, ws, ha, hws, rfl⟩ := evalList_cons.mp hvs
    obtain rfl := Option.some.inj hws
    rw [MonoidOn.fold_singleton _ (hvalid a (List.mem_singleton_self a))] at hv
    rw [ha, hv]

/-! ## `partial_eval_tuple` -/

theorem rebuildTuple_refines {k : Kind} {op : OpN} {args children : List Expr} {p : Place}
    (ht : (tuple k op args p).typed)
    (h : Refines (tuple k op args p) (tuple k op children .fresh)) :
    Refines (tuple k op args p) (Optimizer.rebuildTuple k op args p children) := by
  rw [Optimizer.rebuildTuple]
  split
  · exact .refl ht
  · exact h

/-- The constants and the rest, of the operands in the order in which they are folded. -/
def cut (o : Optimizer) (op : OpN) (children : List Expr) : List Value × List Expr :=
  if o.flags.foldConstant then Optimizer.leadingConsts (o.arrange op children).reverse
  else ([], (o.arrange op children).reverse)

theorem arrange_perm (o : Optimizer) (op : OpN) (children : List Expr) :
    (o.arrange op children).Perm children := by
  rw [Optimizer.arrange]
  split
  · exact o.sort_perm children
  · exact .refl children

theorem cut_spec (o : Optimizer) (op : OpN) (children : List Expr) :
    ∃ cs, (o.arrange op children).reverse = cs ++ (cut o op children).2 ∧
      List.Forall₂ (fun e v => ∃ p, e = const v p) cs (cut o op children).1 := by
  rw [cut]
  split
  · exact leadingConsts_spec _
  · exact ⟨[], rfl, .nil⟩

theorem cut_folds {o : Optimizer} {kind : Kind} {op : OpN} {children : List Expr}
    (hassoc : op.isAssociative) (hok : tupleOk o kind op children) :
    ∀ c ∈ (cut o op children).1, tupleFolds kind op c := by
  rw [cut]
  by_cases hfold : o.flags.foldConstant
  · rw [if_pos hfold]
    simpa [tupleOk, hfold, hassoc] using hok
  · rw [if_neg hfold]
    simp

/-- `partial_eval_tuple` on the operands that `cut` returns. -/
theorem partialEvalTuple_eq {o : Optimizer} {kind : Kind} {op : OpN} {args : List Expr}
    {place : Place} {children : List Expr} (hassoc : op.isAssociative)
    (hfloat : o.flags.fastMath || !kind.isFloat) :
    o.partialEvalTuple kind op args place children =
      let consts := (cut o op children).1
      let kept := (cut o op children).2
      let identity := Value.identityN kind op
      let v := consts.foldl (fun v c => evalTupleOp kind op [c, v]) identity
      if children.isEmpty then ofValue identity
      else if !consts.isEmpty && (v.ne identity).toBool then
        if (v.eq (Value.absorbing kind op)).toBool && kept.all isVar then ofValue v
        else if kept.isEmpty then (ofValue v).toExpr
        else Optimizer.rebuildTuple kind op args place (kept.reverse ++ [ofValue v])
      else
        match kept with
        | [] => ofValue v
        | [x] => x.toExpr
        | _ => Optimizer.rebuildTuple kind op args place kept.reverse := by
  have hcond : (op.isAssociative && (o.flags.fastMath || !kind.isFloat)) = true := by
    rw [hassoc, hfloat, Bool.and_true]
  unfold Optimizer.partialEvalTuple
  rw [if_pos hcond]
  rfl

theorem isValid_toExpr {e : Expr} (h : e.toExpr.isValid) : e.toExpr = e := by
  rw [toExpr] at h ⊢
  split at h
  · next htype => rw [if_pos htype]
  · cases h

theorem partialEval_commutative {o : Optimizer} {kind : Kind} {op : OpN} {args : List Expr}
    {place : Place} {children : List Expr} (hop : op.isCommutative)
    (ht : (tuple kind op args place).typed)
    (hflat : Refines (tuple kind op args place) (tuple kind op children .fresh))
    (hok : tupleOk o kind op children)
    (hvalid : (o.partialEvalTuple kind op args place children).isValid) :
    Refines (tuple kind op args place) (o.partialEvalTuple kind op args place children) := by
  have hassoc : op.isAssociative := by
    cases op <;> first | rfl | cases hop
  have hscalar := ((typed_commutative hop).mp hflat.typed).1
  have hk : (tuple kind op children .fresh).valueKind = kind :=
    valueKind_tuple (commutative_ne_comma hop) _ _
  obtain ⟨cs, hcs, hconsts⟩ := cut_spec o op children
  have hperm : children.Perm (cs ++ (cut o op children).2) := by
    rw [← hcs]
    exact ((List.reverse_perm _).trans (arrange_perm o op children)).symm
  have h := trailing_consts hop hflat.typed hperm hconsts (cut_folds hassoc hok)
  have hid := identityN_kind hscalar hassoc
  have hunit := identityN_meaning hscalar op
  rw [partialEvalTuple_eq hassoc (by simp [Kind.not_isFloat hscalar])] at hvalid ⊢
  dsimp only at hvalid ⊢
  generalize (cut o op children).1 = consts at hconsts h hvalid ⊢
  generalize (cut o op children).2 = kept at hperm h hvalid ⊢
  generalize hvdef : consts.foldl (fun v c => evalTupleOp kind op [c, v])
    (Value.identityN kind op) = v at h hvalid ⊢
  by_cases hempty : children.isEmpty
  · -- nothing is folded and nothing is kept
    rw [if_pos hempty]
    rw [List.isEmpty_iff] at hempty
    subst hempty
    have hnil := List.append_eq_nil_iff.mp (List.Perm.nil_eq hperm).symm
    have hc : consts = [] := by
      have hlen := hconsts.length_eq
      rw [hnil.1] at hlen
      exact List.eq_nil_of_length_eq_zero hlen.symm
    subst hc
    have hv : v = Value.identityN kind op := hvdef.symm
    rw [hnil.2, hv] at h
    exact hflat.trans (h.refines_nil hop hscalar hk)
  · rw [if_neg hempty] at hvalid ⊢
    by_cases hfolded : (!consts.isEmpty && (v.ne (Value.identityN kind op)).toBool) = true
    · rw [if_pos hfolded] at hvalid ⊢
      by_cases habsorb : ((v.eq (Value.absorbing kind op)).toBool && kept.all isVar) = true
      · rw [if_pos habsorb]
        rw [Bool.and_eq_true] at habsorb
        exact hflat.trans (h.refines_absorbing hop hscalar hk habsorb.1)
      · rw [if_neg habsorb] at hvalid ⊢
        by_cases hnil : kept.isEmpty
        · rw [if_pos hnil] at hvalid ⊢
          rw [isValid_toExpr hvalid]
          rw [List.isEmpty_iff] at hnil
          subst hnil
          exact hflat.trans (h.refines_nil hop hscalar hk)
        · rw [if_neg hnil]
          exact rebuildTuple_refines ht (hflat.trans (h.refines_append hop hscalar hk _))
    · rw [if_neg hfolded] at hvalid ⊢
      have hv : v = Value.identityN kind op := by
        rw [Bool.and_eq_true, not_and_or, Bool.not_eq_true', Bool.not_eq_false] at hfolded
        rcases hfolded with hnone | hsame
        · rw [List.isEmpty_iff] at hnone
          subst hnone
          exact hvdef.symm
        · have hkinds := h.kind.trans hid.symm
          rw [Value.ne_eq (h.kind ▸ hscalar) hkinds, toBool_ofBool, bne_iff_ne, not_not] at hsame
          exact Value.ext hsame hkinds
      have hkept := h.refines_kept hop hscalar hk (hv ▸ hunit)
      match kept with
      | [] => exact hflat.trans (h.refines_nil hop hscalar hk)
      | [x] =>
        dsimp only at hvalid ⊢
        rw [isValid_toExpr hvalid]
        exact (hflat.trans (hkept .fresh)).trans (refines_singleton hop (hkept .fresh).typed)
      | x :: y :: rest => exact rebuildTuple_refines ht (hflat.trans (hkept .fresh))

/-- A `COMMA` keeps its operands, of which the last one is not a constant. -/
theorem partialEval_comma {o : Optimizer} {kind : Kind} {args : List Expr} {place : Place}
    {children : List Expr} (ht : (tuple kind .comma args place).typed)
    (hflat : Refines (tuple kind .comma args place) (tuple kind .comma children .fresh))
    (hok : tupleOk o kind .comma children)
    (hvalid : (o.partialEvalTuple kind .comma args place children).isValid) :
    Refines (tuple kind .comma args place)
      (o.partialEvalTuple kind .comma args place children) := by
  have htyped := hflat.typed
  rw [typed, Bool.and_eq_true] at htyped
  simp only [Kind.typedN, Bool.and_eq_true, beq_iff_eq] at htyped
  obtain ⟨hxs, rfl, hsome⟩ := htyped
  have hne : children ≠ [] := by
    intro hnil
    subst hnil
    cases hsome
  have hconsts : (cut o .comma children).1 = [] := by
    have hfolds := cut_folds rfl hok
    cases hcut : (cut o .comma children).1 with
    | nil => rfl
    | cons c cs =>
      rw [hcut] at hfolds
      exact absurd (hfolds c List.mem_cons_self) id
  have hkept : (cut o .comma children).2 = children.reverse := by
    obtain ⟨cs, hcs, hall⟩ := cut_spec o .comma children
    rw [hconsts] at hall
    cases hall
    have harrange : o.arrange .comma children = children := by
      rw [Optimizer.arrange, if_neg (by simp [OpN.isCommutative])]
    rw [harrange] at hcs
    exact hcs.symm
  rw [partialEvalTuple_eq rfl (Bool.or_true _)] at hvalid ⊢
  simp only [hconsts, hkept, List.isEmpty_iff, hne, if_false, List.isEmpty_nil, Bool.not_true,
    Bool.false_and, Bool.false_eq_true] at hvalid ⊢
  obtain hrev | ⟨x, hrev⟩ | ⟨x, y, rest, hrev⟩ : children.reverse = [] ∨
      (∃ x, children.reverse = [x]) ∨ ∃ x y rest, children.reverse = x :: y :: rest := by
    rcases children.reverse with _ | ⟨x, _ | ⟨y, rest⟩⟩ <;> simp
  · exact absurd (List.reverse_eq_nil_iff.mp hrev) hne
  · rw [hrev] at hvalid ⊢
    dsimp only at hvalid ⊢
    rw [isValid_toExpr hvalid]
    have hsingle : children = [x] := by
      rw [← List.reverse_reverse children, hrev]
      rfl
    subst hsingle
    refine hflat.trans ⟨(typedList_iff _).mp hxs x (List.mem_singleton_self x), ?_, ?_⟩
    · exact (lastKind_eq rfl).symm
    · intro ρ v hv
      obtain ⟨vs, hvs, hv⟩ := eval_tuple.mp hv
      obtain ⟨a, ws, ha, hws, rfl⟩ := evalList_cons.mp hvs
      obtain rfl := Option.some.inj hws
      rw [ha, ← hv]
      rfl
  · have hback : (x :: y :: rest).reverse = children := by
      rw [← hrev, List.reverse_reverse]
    rw [hrev]
    dsimp only
    rw [hback]
    exact rebuildTuple_refines ht hflat

/-- The step on an `OpN`, with children that refine the operands, refines the node. -/
theorem partialEvalTuple_refines {o : Optimizer} {kind : Kind} {op : OpN} {args : List Expr}
    {place : Place} {children : List Expr} (ht : (tuple kind op args place).typed)
    (hflat : Refines (tuple kind op args place) (tuple kind op children .fresh))
    (hok : tupleOk o kind op children)
    (hvalid : (o.partialEvalTuple kind op args place children).isValid) :
    Refines (tuple kind op args place) (o.partialEvalTuple kind op args place children) := by
  by_cases hop : op.isCommutative
  · exact partialEval_commutative hop ht hflat hok hvalid
  · by_cases hcomma : op = .comma
    · subst hcomma
      exact partialEval_comma ht hflat hok hvalid
    · have hrebuild : o.partialEvalTuple kind op args place children =
          Optimizer.rebuildTuple kind op args place children := by
        have hassoc : op.isAssociative = false := by
          cases op <;> first | rfl | exact absurd rfl hop | exact absurd rfl hcomma
        unfold Optimizer.partialEvalTuple
        rw [hassoc, Bool.false_and, if_neg (by decide)]
      rw [hrebuild]
      exact rebuildTuple_refines ht hflat

end Expr

end OneJit
