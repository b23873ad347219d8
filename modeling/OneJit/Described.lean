import OneJit.Lowering

/-!
# What an outline says of a lowered expression

An expression that reads no memory has the same value with every heap, and one that may not trap has
a value in every state. `Describes` is what the lowering of an expression owes to its outline.
-/

namespace OneJit

namespace Expr

variable {w : Host} {ρ : Vars}

/-- The value of an expression without calls and memory operands does not depend on the heap. -/
theorem run_of_not_readsMem (e : Expr) (hmem : e.readsMem = false) (hcall : e.hasCall = false)
    {h h₁ h' : Heap} {v : BitVec 64} (hrun : run w ρ e h = some (v, h₁)) :
    run w ρ e h' = some (v, h') := by
  have hlist : ∀ xs : List Expr, readsMemAny xs = false → hasCallList xs = false →
      (∀ x ∈ xs, x.readsMem = false → x.hasCall = false →
        ∀ v h₁, run w ρ x h = some (v, h₁) → run w ρ x h' = some (v, h')) →
      ∀ vs h₁, runList w ρ xs h = some (vs, h₁) → runList w ρ xs h' = some (vs, h') := by
    intro xs
    induction xs with
    | nil =>
      intro _ _ _ vs h₁ hvs
      cases hvs
      rfl
    | cons x xs ih =>
      intro hmem hcall hall vs h₁ hvs
      rw [readsMemAny, Bool.or_eq_false_iff] at hmem
      rw [hasCallList, Bool.or_eq_false_iff] at hcall
      rw [List.forall_mem_cons] at hall
      obtain ⟨a, h₂, ws, ha, hws, rfl⟩ := runList_cons.mp hvs
      rw [run_heap hcall.1 ha] at hws
      exact runList_cons.mpr ⟨a, h', ws, hall.1 hmem.1 hcall.1 a h₂ ha,
        ih hmem.2 hcall.2 hall.2 ws h₁ hws, rfl⟩
  induction e using Expr.induct generalizing v h₁ with
  | hnone => cases hrun
  | hconst | hvar | hlabel | hftype =>
    cases hrun
    rfl
  | hmem k args p ih => cases hmem
  | hunary k op x p ih =>
    obtain ⟨a, ha, hv⟩ := run_unary.mp hrun
    exact run_unary.mpr ⟨a, ih hmem hcall ha, hv⟩
  | hbinary k op x y p ihx ihy =>
    rw [readsMem, Bool.or_eq_false_iff] at hmem
    rw [hasCall, Bool.or_eq_false_iff] at hcall
    obtain ⟨a, h₂, ha, hrest⟩ := run_binary.mp hrun
    rw [run_heap hcall.1 ha] at hrest
    refine run_binary.mpr ⟨a, h', ihx hmem.1 hcall.1 ha, ?_⟩
    obtain ⟨hdec, -, hv⟩ | ⟨hdec, b, hb, hv⟩ := hrest
    · exact .inl ⟨hdec, rfl, hv⟩
    · exact .inr ⟨hdec, b, ihy hmem.2 hcall.2 hb, hv⟩
  | htuple k op args p ih =>
    rw [hasCall, Bool.or_eq_false_iff, beq_eq_false_iff_ne] at hcall
    obtain ⟨vs, h₂, hvs, hv⟩ := run_tuple.mp hrun
    refine run_tuple.mpr ⟨vs, h', hlist args hmem hcall.2 (fun x hx hm hc v h₁ => ih x hx hm hc)
      vs h₂ hvs, ?_⟩
    rw [runApply_eq hcall.1 k vs _ ρ] at hv ⊢
    obtain ⟨v', hv', heq⟩ := Option.map_eq_some_iff.mp hv
    cases heq
    have happly : op.apply (w.valuation ρ h') k vs = op.apply (w.valuation ρ h₁) k vs := by
      cases op <;> rfl
    rw [happly, hv']
    rfl

/-- An expression keeps its value while its variables do, and the memory that it reads. -/
theorem run_kept {n : Nat} {ρ' : Vars} (hagree : AgreeBelow n ρ ρ') {e : Expr}
    (hbelow : e.varsBelow n) (hcall : e.hasCall = false) {h h' : Heap}
    (hheap : e.readsMem → h' = h) :
    run w ρ' e h' = (run w ρ e h).map fun r => (r.1, h') := by
  have hheaps : ∀ {h h' h₁ : Heap} {v : BitVec 64}, (e.readsMem → h' = h) →
      run w ρ e h = some (v, h₁) → run w ρ e h' = some (v, h') := by
    intro h h' h₁ v hheap hrun
    cases hmem : e.readsMem with
    | false => exact run_of_not_readsMem e hmem hcall hrun
    | true =>
      rw [hheap hmem]
      rwa [run_heap hcall hrun] at hrun
  rw [← run_congr hagree e hbelow]
  cases hrun : run w ρ e h with
  | some r => exact hheaps hheap hrun
  | none =>
    cases hrun' : run w ρ e h' with
    | none => rfl
    | some r =>
      rw [hheaps (fun hreads => (hheap hreads).symm) hrun'] at hrun
      cases hrun

/-- A constant operand has the value of the constant. -/
theorem run_value? {y : Expr} {c : Value} (hy : value? y = some c) {h h' : Heap} {b : BitVec 64}
    (hrun : run w ρ y h = some (b, h')) : b = c.meaning := by
  cases y with
  | const v p =>
    cases hy
    cases hrun
    rfl
  | _ => cases hy

/-- An operator that may not trap has a result. -/
theorem evalBinary_of_not_mayTrap {op : Op2} {c : Option Value} (hop : op.mayTrap c = false)
    {b : BitVec 64} (hb : ∀ v, c = some v → b = v.meaning) (k : Kind) (a : BitVec 64) :
    ∃ v, k.evalBinary op a b = some v := by
  have hconst : ∀ p : Value → Bool, (c.all p) = false → ∃ v, c = some v ∧ p v = false := by
    intro p hp
    cases c with
    | none => cases hp
    | some v => exact ⟨v, rfl, hp⟩
  cases op with
  | bad2 => cases hop
  | quo | rem =>
    obtain ⟨v, hv, hzero⟩ := hconst _ hop
    have hne : b ≠ 0 := by
      rw [hb v hv]
      exact beq_eq_false_iff_ne.mp hzero
    rw [Kind.evalBinary, if_neg hne]
    split <;> exact ⟨_, rfl⟩
  | shl | shr =>
    obtain ⟨v, hv, hlt⟩ := hconst _ hop
    have hcount : ¬64 ≤ b.toNat := by
      rw [hb v hv]
      exact of_decide_eq_false hlt
    rw [Kind.evalBinary, if_neg hcount]
    first
      | exact ⟨_, rfl⟩
      | (split <;> exact ⟨_, rfl⟩)
  | _ => exact ⟨_, rfl⟩

/-- An expression without calls that may not trap has a value in every state. -/
theorem run_of_not_mayTrap (e : Expr) (htrap : e.mayTrap = false) (hcall : e.hasCall = false)
    (h : Heap) : ∃ v, run w ρ e h = some (v, h) := by
  have hlist : ∀ xs : List Expr, mayTrapAny xs = false → hasCallList xs = false →
      (∀ x ∈ xs, x.mayTrap = false → x.hasCall = false → ∃ v, run w ρ x h = some (v, h)) →
      ∃ vs, runList w ρ xs h = some (vs, h) ∧ vs.length = xs.length := by
    intro xs
    induction xs with
    | nil => exact fun _ _ _ => ⟨[], rfl, rfl⟩
    | cons x xs ih =>
      intro htrap hcall hall
      rw [mayTrapAny, Bool.or_eq_false_iff] at htrap
      rw [hasCallList, Bool.or_eq_false_iff] at hcall
      rw [List.forall_mem_cons] at hall
      obtain ⟨a, ha⟩ := hall.1 htrap.1 hcall.1
      obtain ⟨vs, hvs, hlength⟩ := ih htrap.2 hcall.2 hall.2
      exact ⟨a :: vs, runList_cons.mpr ⟨a, h, vs, ha, hvs, rfl⟩, congrArg (· + 1) hlength⟩
  induction e using Expr.induct with
  | hnone => cases htrap
  | hconst | hvar | hlabel | hftype => exact ⟨_, rfl⟩
  | hmem k args p ih =>
    obtain ⟨vs, hvs, -⟩ := hlist args htrap hcall fun x hx ht hc => ih x hx ht hc
    exact ⟨_, run_mem.mpr ⟨vs, hvs, rfl⟩⟩
  | hunary k op x p ih =>
    rw [mayTrap, Bool.or_eq_false_iff] at htrap
    obtain ⟨a, ha⟩ := ih htrap.2 hcall
    have hop : ∃ v, k.evalUnary op a = some v := by
      cases op with
      | bad1 => cases htrap.1
      | _ => exact ⟨_, rfl⟩
    obtain ⟨v, hv⟩ := hop
    exact ⟨v, run_unary.mpr ⟨a, ha, hv⟩⟩
  | hbinary k op x y p ihx ihy =>
    rw [mayTrap, Bool.or_eq_false_iff, Bool.or_eq_false_iff] at htrap
    rw [hasCall, Bool.or_eq_false_iff] at hcall
    obtain ⟨a, ha⟩ := ihx htrap.1.2 hcall.1
    obtain ⟨b, hb⟩ := ihy htrap.2 hcall.2
    obtain ⟨v, hv⟩ := evalBinary_of_not_mayTrap htrap.1.1 (fun c hc => run_value? hc hb) x.valueKind a
    cases hdec : op.decidedBy a with
    | true =>
      rw [evalBinary_decided hdec] at hv
      exact ⟨v, run_binary.mpr ⟨a, h, ha, .inl ⟨hdec, rfl, hv⟩⟩⟩
    | false => exact ⟨v, run_binary.mpr ⟨a, h, ha, .inr ⟨hdec, b, hb, hv⟩⟩⟩
  | htuple k op args p ih =>
    rw [mayTrap, Bool.or_eq_false_iff] at htrap
    rw [hasCall, Bool.or_eq_false_iff, beq_eq_false_iff_ne] at hcall
    obtain ⟨vs, hvs, hlength⟩ := hlist args htrap.2 hcall.2 fun x hx ht hc => ih x hx ht hc
    have hop : ∃ v, op.apply (w.valuation ρ h) k vs = some v := by
      cases op with
      | comma =>
        cases vs with
        | nil =>
          have hnil : args = [] := List.eq_nil_of_length_eq_zero hlength.symm
          rw [hnil] at htrap
          cases htrap.1
        | cons a as => exact ⟨_, List.getLast?_cons⟩
      | call => exact absurd rfl hcall.1
      | badN | memOp | mirMem | x86Mem | arm64Mem | mirRets => cases htrap.1
      | _ => exact ⟨_, rfl⟩
    obtain ⟨v, hv⟩ := hop
    refine ⟨v, run_tuple.mpr ⟨vs, h, hvs, ?_⟩⟩
    rw [runApply_eq hcall.1 k vs h ρ, hv]
    rfl

theorem varsBelow_mono {n m : Nat} (hle : n ≤ m) (e : Expr) (he : e.varsBelow n) :
    e.varsBelow m := by
  have hlist : ∀ xs : List Expr, varsBelowList n xs →
      (∀ x ∈ xs, x.varsBelow n → x.varsBelow m) → varsBelowList m xs := by
    intro xs
    induction xs with
    | nil => exact fun _ _ => rfl
    | cons x xs ih =>
      intro hxs hall
      rw [varsBelowList, Bool.and_eq_true] at hxs ⊢
      rw [List.forall_mem_cons] at hall
      exact ⟨hall.1 hxs.1, ih hxs.2 hall.2⟩
  induction e using Expr.induct with
  | hnone | hconst | hlabel | hftype => rfl
  | hvar k id => exact decide_eq_true ((of_decide_eq_true he).trans_le hle)
  | hmem k args p ih | htuple k op args p ih => exact hlist args he ih
  | hunary k op x p ih => exact ih he
  | hbinary k op x y p ihx ihy =>
    rw [varsBelow, Bool.and_eq_true] at he ⊢
    exact ⟨ihx he.1, ihy he.2⟩

theorem varsBelowList_mono {n m : Nat} (hle : n ≤ m) {xs : List Expr} (hxs : varsBelowList n xs) :
    varsBelowList m xs := by
  induction xs with
  | nil => rfl
  | cons x xs ih =>
    rw [varsBelowList, Bool.and_eq_true] at hxs ⊢
    exact ⟨varsBelow_mono hle x hxs.1, ih hxs.2⟩

/-- What has a value has a kind. -/
theorem isValid_of_typed {e : Expr} (ht : e.typed) (hcall : e.hasCall = false)
    (hk : e.valueKind.isScalar) : e.isValid := by
  have hscalar : ∀ k : Kind, k.isScalar → (k != .bad) = true :=
    fun k hk => bne_iff_ne.mpr (Kind.ne_bad hk)
  cases e with
  | none => cases ht
  | label i a => rfl
  | ftype r ps => cases hk
  | unary k op x p => exact hscalar _ hk
  | binary k op x y p => exact hscalar _ hk
  | mem k args p => exact hscalar _ hk
  | var k id => exact hscalar _ hk
  | const v p => exact hscalar _ hk
  | tuple k op args p =>
    rw [typed, Bool.and_eq_true] at ht
    cases op with
    | call => cases hcall
    | comma =>
      simp only [Kind.typedN, Bool.and_eq_true, beq_iff_eq] at ht
      rw [isValid, kind, ht.2.1]
      rfl
    | badN | memOp | mirMem | x86Mem | arm64Mem | mirRets => cases ht.2
    | _ => exact hscalar _ (typedN_commutative rfl ht.2).1

end Expr

/-! ## Lowered expressions and their outlines -/

namespace Outline

open Expr

/-- The lowered form `r` of `e` is as the outline says, with variables below the bound. -/
structure Describes (o : Outline) (n : Nat) (e r : Expr) : Prop where
  lowered : r.lowered
  noCall : r.hasCall = false
  below : r.varsBelow n
  valid : e.valueKind.isScalar → r.isValid
  valueKind : r.valueKind = e.valueKind
  normal : e.valueKind.isScalar → ∀ {w : Host} {ρ : Vars} {h h' : Heap} {v : BitVec 64},
    r.run w ρ h = some (v, h') → e.valueKind.wrap v = v
  type : r.type = o.type
  kind : r.kind = o.kind
  readsMem : o.readsMem = false → r.readsMem = false
  mayTrap : o.mayTrap = false → r.mayTrap = false
  isCompare : r.isCompare = o.isCompare
  jumpsRight : ∀ negate, o.jumpsRight negate → r.jumpsRight negate

namespace Describes

variable {o : Outline} {n m : Nat} {e x y r x' y' : Expr}

theorem mono (h : o.Describes n e r) (hle : n ≤ m) : o.Describes m e r :=
  { h with below := varsBelow_mono hle r h.below }

theorem readsMem_of (h : o.Describes n e r) (hr : r.readsMem) : o.readsMem := by
  by_contra hno
  rw [h.readsMem (Bool.eq_false_iff.mpr hno)] at hr
  cases hr

theorem after (h : o.Describes n e r) (eager : Bool) : (o.after eager).Describes n e r :=
  { h with }

/-- The same node stands for another expression with a value of this kind. -/
theorem congr (h : o.Describes n e r) (hk : x.valueKind = e.valueKind) : o.Describes n x r :=
  { h with
    valid := fun hx => h.valid (hk ▸ hx)
    valueKind := h.valueKind.trans hk.symm
    normal := fun hx => hk ▸ h.normal (hk ▸ hx) }

/-- An expression that is compiled to itself. -/
theorem self (hl : e.lowered) (hc : e.hasCall = false) (ht : e.typed) (hb : e.varsBelow n) :
    (ofLowered e).Describes n e e :=
  ⟨hl, hc, hb, isValid_of_typed ht hc, rfl, fun hk _ _ _ _ _ => run_normal e ht hk, rfl, rfl, id,
    id, rfl, fun _ => id⟩

/-- A variable that holds a copy. -/
theorem var {k : Kind} {id : Nat} (hk : k ≠ .bad) (hkind : k = e.valueKind) (hid : id < n)
    (eager : Bool) : (Outline.var k eager).Describes n e (.var k id) := by
  refine ⟨rfl, rfl, decide_eq_true hid, fun _ => bne_iff_ne.mpr hk, hkind, ?_, rfl, rfl,
    fun _ => rfl, fun _ => rfl, rfl, fun _ _ => rfl⟩
  intro hscalar w ρ h h' v hrun
  cases hrun
  rw [← hkind] at hscalar ⊢
  exact Kind.wrap_wrap hscalar _

/-- An operator has its value in the form of its kind. -/
theorem binary_normal {o' : Outline} {k : Kind} {op : Op2} {p : Place}
    (ht : k.typed2 op x.valueKind y.valueKind) (hx : o.Describes n x x')
    (hy : o'.Describes n y y') {w : Host} {ρ : Vars} {h h' : Heap} {v : BitVec 64}
    (hrun : (Expr.binary k op x' y' p).run w ρ h = some (v, h')) : k.wrap v = v := by
  obtain ⟨-, -, hky⟩ := typed2_scalar ht
  obtain ⟨a, h₁, -, ⟨-, -, hv⟩ | ⟨-, b, hb, hv⟩⟩ := run_binary.mp hrun
  · rw [hx.valueKind] at hv
    exact (evalBinary_normal ht (Kind.wrap_zero hky) hv).2
  · rw [hx.valueKind] at hv
    exact (evalBinary_normal ht (hy.normal hky hb) hv).2

theorem unary {k : Kind} {op : Op1} {p : Place} (h : (outline x).Describes n x x')
    (ht : (Expr.unary k op x p).typed) (q : Place) :
    (outline (.unary k op x p)).Describes n (.unary k op x p) (.unary k op x' q) := by
  rw [Expr.typed, Bool.and_eq_true] at ht
  refine ⟨h.lowered, h.noCall, h.below, ?_, rfl, ?_, rfl, rfl, h.readsMem, ?_, rfl, ?_⟩
  · exact fun _ => bne_iff_ne.mpr (Kind.ne_bad (typed1_scalar ht.2).1)
  · intro _ w ρ h₁ h' v hrun
    obtain ⟨a, -, hv⟩ := run_unary.mp hrun
    exact (evalUnary_normal ht.2 hv).2
  · intro htrap
    have hop : (op == .bad1) = false := by
      cases op with
      | bad1 => cases ht.2
      | _ => rfl
    rw [Expr.mayTrap, hop, h.mayTrap htrap]
    rfl
  · intro negate hjump
    rw [outline] at hjump
    rw [Expr.jumpsRight]
    split
    · next hop =>
      dsimp only at hjump
      rw [if_pos hop] at hjump
      exact h.jumpsRight _ hjump
    · rfl

theorem binary {k : Kind} {op : Op2} {p : Place} (hx : (outline x).Describes n x x')
    (hy : (outline y).Describes n y y') (hop : op.isLogical = false)
    (ht : (Expr.binary k op x y p).typed) (hvx : value? x' = constantOf x)
    (hvy : value? y' = constantOf y) (q : Place) :
    (outline (.binary k op x y p)).Describes n (.binary k op x y p) (.binary k op x' y' q) := by
  rw [Expr.typed, Bool.and_eq_true, Bool.and_eq_true] at ht
  have houtline : outline (.binary k op x y p) =
      { type := .binary
        kind := k
        readsMem := (outline x).readsMem || (outline y).readsMem
        mayTrap := op.mayTrap (constantOf y) || (outline x).mayTrap || (outline y).mayTrap
        isCompare := op.isComparison
        jumpsRight := fun negate => (outline x).type.isExpr && (outline y).type.isExpr &&
          op.jumpsRight negate (outline x).kind x.valueKind (constantOf x) (constantOf y)
        eager := (outline x).eager || (outline y).eager } := by
    rw [outline, hop]
    rfl
  rw [houtline]
  refine ⟨?_, ?_, ?_, ?_, rfl, fun _ => binary_normal ht.2 hx hy, rfl, rfl, ?_, ?_, rfl, ?_⟩
  · rw [Expr.lowered, hx.lowered, hy.lowered, hop]
    rfl
  · rw [hasCall, hx.noCall, hy.noCall]
    rfl
  · rw [varsBelow, hx.below, hy.below]
    rfl
  · exact fun _ => bne_iff_ne.mpr (Kind.ne_bad (typed2_scalar ht.2).1)
  · intro hmem
    rw [Bool.or_eq_false_iff] at hmem
    rw [Expr.readsMem, hx.readsMem hmem.1, hy.readsMem hmem.2]
    rfl
  · intro htrap
    rw [Bool.or_eq_false_iff, Bool.or_eq_false_iff] at htrap
    rw [Expr.mayTrap, hvy, htrap.1.1, hx.mayTrap htrap.1.2, hy.mayTrap htrap.2]
    rfl
  · intro negate hjump
    rw [Expr.jumpsRight, hx.type, hy.type, hx.kind, hx.valueKind, hvx, hvy]
    exact hjump

/-- A logical operator whose right operand has become a variable is kept. -/
theorem logical {k : Kind} {op : Op2} {p : Place} (hx : (outline x).Describes n x x')
    (hy : (outline y).Describes n y y') (hop : op.isLogical)
    (ht : (Expr.binary k op x y p).typed) (hvx : value? x' = .none) (hvar : y'.isVar)
    (eager : Bool) (q : Place) :
    Describes ⟨.binary, .bool, (outline x).readsMem, (outline x).mayTrap, false, fun _ => false,
      eager⟩ n (.binary k op x y p) (.binary k op x' y' q) := by
  rw [Expr.typed, Bool.and_eq_true, Bool.and_eq_true] at ht
  have hkind : k = .bool := by
    cases op with
    | land | lor =>
      simp only [Kind.typed2, Bool.and_eq_true, beq_iff_eq] at ht
      exact ht.2.1.1
    | _ => cases hop
  have hconst : x'.isConst = false := by
    cases x' with
    | const v q => cases hvx
    | _ => rfl
  have hvary : y'.readsMem = false ∧ y'.mayTrap = false := by
    cases y' with
    | var k id => exact ⟨rfl, rfl⟩
    | _ => cases hvar
  have htrapOp : op.mayTrap (value? y') = false := by
    cases op with
    | land | lor => rfl
    | _ => cases hop
  have hcompare : op.isComparison = false := by
    cases op with
    | land | lor => rfl
    | _ => cases hop
  refine ⟨?_, ?_, ?_, ?_, rfl, fun _ => binary_normal ht.2 hx hy, rfl, hkind, ?_, ?_, hcompare,
    fun _ hfalse => absurd hfalse Bool.false_ne_true⟩
  · rw [Expr.lowered, hx.lowered, hy.lowered, hconst, hvar]
    cases op.isLogical <;> rfl
  · rw [hasCall, hx.noCall, hy.noCall]
    rfl
  · rw [varsBelow, hx.below, hy.below]
    rfl
  · exact fun _ => bne_iff_ne.mpr (Kind.ne_bad (typed2_scalar ht.2).1)
  · intro hmem
    rw [Expr.readsMem, hx.readsMem hmem, hvary.1]
    rfl
  · intro htrap
    rw [Expr.mayTrap, htrapOp, hx.mayTrap htrap, hvary.2]
    rfl

end Describes

end Outline

end OneJit
