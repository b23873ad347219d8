import OneJit.Lib.Worlds
import OneJit.Mir.Assembler

/-!
# The variables of MIR instructions

What `mir::Compiler` emits refers to variables of the function and to those that it has made itself,
each with the kind it was made with.
-/

namespace OneJit.Mir

/-! ## Known variables -/

attribute [local simp] exprVars exprsVars stmtVars stmtsVars

theorem KnownVar.mono {kinds kinds' : List Kind} (h : kinds <+: kinds') {v : VarId}
    (hv : KnownVar kinds v) : KnownVar kinds' v := by
  obtain ⟨i, hi, hid⟩ := hv
  obtain ⟨rest, rfl⟩ := h
  refine ⟨i, ?_, hid⟩
  rw [List.getElem?_append_left (List.getElem?_eq_some_iff.mp hi).1, hi]

/-- Variables with the same identifier have the same kind, and are both in a list that one of them
is in. -/
theorem varId_inj {k k' : Kind} {i j : Nat} (h : varId k i = varId k' j) :
    k = k' ∧ k = .void ∨ k ≠ .void ∧ k' ≠ .void ∧ i = j := by
  unfold varId at h
  split at h
  · next hk =>
    split at h
    · next hk' => exact .inl ⟨hk.trans hk'.symm, hk⟩
    · unfold OneJit.Compiler.firstId at h
      omega
  · next hk =>
    split at h
    · unfold OneJit.Compiler.firstId at h
      omega
    · next hk' => exact .inr ⟨hk, hk', by omega⟩

/-- All variables of the expression are known. -/
def KnownExpr (kinds : List Kind) (e : Expr) : Prop := ∀ v ∈ exprVars e, KnownVar kinds v

theorem KnownExpr.mono {kinds kinds' : List Kind} (h : kinds <+: kinds') {e : Expr}
    (he : KnownExpr kinds e) : KnownExpr kinds' e := fun v hv => (he v hv).mono h

theorem exprsVars_eq (es : List Expr) : exprsVars es = es.flatMap exprVars := by
  induction es with
  | nil => rw [exprsVars, List.flatMap_nil]
  | cons e es ih => rw [exprsVars, ih, List.flatMap_cons]

theorem stmtsVars_eq (sts : List Stmt) : stmtsVars sts = sts.flatMap stmtVars := by
  induction sts with
  | nil => rw [stmtsVars, List.flatMap_nil]
  | cons st sts ih => rw [stmtsVars, ih, List.flatMap_cons]

theorem knownExprs {kinds : List Kind} {es : List Expr} :
    (∀ v ∈ exprsVars es, KnownVar kinds v) ↔ ∀ e ∈ es, KnownExpr kinds e := by
  rw [exprsVars_eq, List.forall_mem_flatMap]
  rfl

/-- Expressions without variables. -/
theorem knownExpr_nil {kinds : List Kind} {e : Expr} (h : exprVars e = []) : KnownExpr kinds e := by
  intro v hv
  rw [h] at hv
  cases hv

theorem exprVars_ofValue (v : Value) : exprVars (.ofValue v) = [] := by
  unfold Expr.ofValue
  split <;> simp [exprVars]

theorem exprVars_ofUint16 (k : Kind) (n : BitVec 16) : exprVars (.ofUint16 k n) = [] := by
  rw [Expr.ofUint16, exprVars]

theorem exprVars_one (k : Kind) : exprVars (.one k) = [] := by
  unfold Expr.one
  split
  · exact exprVars_ofValue _
  · split
    · exact exprVars_ofValue _
    · exact exprVars_ofUint16 _ _

theorem knownExpr_toExpr {kinds : List Kind} {e : Expr} (h : KnownExpr kinds e) :
    KnownExpr kinds e.toExpr := by
  unfold Expr.toExpr
  split
  · exact h
  · exact knownExpr_nil (by rw [exprVars])

/-- All variables of the instruction are known. -/
def KnownInsn (kinds : List Kind) (insn : Insn) : Prop := ∀ v ∈ insn.vars, KnownVar kinds v

theorem knownInsn2 {kinds : List Kind} {op : Op2} {a b : Expr} (ha : KnownExpr kinds a)
    (hb : KnownExpr kinds b) : KnownInsn kinds (.insn2 op a b) := by
  intro v hv
  obtain hv | hv := List.mem_append.mp hv
  · exact ha v hv
  · exact hb v hv

theorem knownInsn3 {kinds : List Kind} {op : Op3} {a b c : Expr} (ha : KnownExpr kinds a)
    (hb : KnownExpr kinds b) (hc : KnownExpr kinds c) : KnownInsn kinds (.insn3 op a b c) := by
  intro v hv
  obtain hv | hv := List.mem_append.mp hv
  · have hab : KnownInsn kinds (.insn2 (.mov .l) a b) := knownInsn2 ha hb
    exact hab v hv
  · exact hc v hv

/-- The compiler only makes new variables, and its instructions refer to those there are. -/
def worlds : Worlds Compiler (List Kind) where
  world := Compiler.vars
  le kinds kinds' := kinds <+: kinds'
  refl := List.prefix_refl
  trans := List.IsPrefix.trans
  inv c := ∀ insn ∈ c.nodes, KnownInsn c.vars insn

/-- The step keeps the instructions known, and returns a known expression. -/
abbrev Makes (kinds : List Kind) (m : MirM Expr) : Prop := worlds.Keeps kinds m KnownExpr

/-- The step keeps the instructions known. -/
abbrev Does (kinds : List Kind) (m : MirM Unit) : Prop := worlds.Keeps kinds m fun _ _ => True

namespace Compiler

variable {kinds : List Kind}

/-! ## The steps -/

theorem add_does {insn : Insn} (h : KnownInsn kinds insn) : Does kinds (add insn) := by
  intro c hle hinv
  refine ⟨List.prefix_refl _, ?_, trivial⟩
  intro i hi
  obtain hi | hi := List.mem_append.mp hi
  · exact hinv i hi
  · rw [List.mem_singleton.mp hi]
    exact fun v hv => (h v hv).mono hle

theorem addIf_does {b : Bool} {insn : Insn} (h : KnownInsn kinds insn) : Does kinds (addIf b insn) :=
  .ite (fun _ => add_does h) fun _ => .pure fun _ _ => trivial

theorem error_does (node : Stmt) (msg : String) : Does kinds (error node msg) :=
  fun _ _ hinv => ⟨List.prefix_refl _, hinv, trivial⟩

theorem newVar_makes (kind : Kind) : Makes kinds (newVar kind) := by
  intro c _ hinv
  unfold newVar
  split
  · have hle : c.vars <+: c.vars ++ [kind] := List.prefix_append _ _
    refine ⟨hle, fun insn hi v hv => (hinv insn hi v hv).mono hle, ?_⟩
    intro v hv
    change v ∈ exprVars (varOf kind c.vars.length) at hv
    rw [varOf, exprVars, List.mem_singleton] at hv
    subst hv
    refine ⟨c.vars.length, ?_, rfl⟩
    change (c.vars ++ [kind])[c.vars.length]? = _
    rw [List.getElem?_append_right (Nat.le_refl _), Nat.sub_self]
    rfl
  · exact ⟨List.prefix_refl _, hinv, knownExpr_nil (by rw [exprVars])⟩

theorem newLabel_makes : Makes kinds newLabel := by
  intro c _ hinv
  unfold newLabel
  split
  · exact ⟨List.prefix_refl _, hinv, knownExpr_nil (by rw [exprVars])⟩
  · exact ⟨List.prefix_refl _, hinv, knownExpr_nil (by rw [exprVars])⟩

theorem return_makes {e : Expr} (h : KnownExpr kinds e) : Makes kinds (pure e) :=
  .pure fun _ hle => h.mono hle

/-- An error that is followed by an invalid expression. -/
theorem error_makes (node : Stmt) (msg : String) :
    Makes kinds (do error node msg; return .none) :=
  (error_does node msg).bind fun _ _ _ _ => return_makes (knownExpr_nil (by rw [exprVars]))

theorem dstOr_makes {optDst : Expr} (h : KnownExpr kinds optDst) (kind : Kind) :
    Makes kinds (dstOr optDst kind) :=
  .ite (fun _ => return_makes h) fun _ => newVar_makes kind

/-- An instruction that is followed by its destination. -/
theorem add_makes {insn : Insn} {e : Expr} (h : KnownInsn kinds insn) (he : KnownExpr kinds e) :
    Makes kinds (do add insn; return e) :=
  (add_does h).bind fun _ _ hle _ => return_makes (he.mono hle)

theorem toVar_makes {e optDst : Expr} (he : KnownExpr kinds e) (hdst : KnownExpr kinds optDst) :
    Makes kinds (toVar e optDst) := by
  refine .ite (fun _ => error_makes _ _) fun _ => .ite (fun _ => ?_) fun _ =>
    .ite (fun _ => return_makes he) fun _ => ?_
  · exact add_makes (knownInsn2 hdst he) hdst
  · exact (newVar_makes _).bind fun v _ hle hv => add_makes (knownInsn2 hv (he.mono hle)) hv

theorem none_known : KnownExpr kinds .none := knownExpr_nil (by rw [exprVars])

/-! ## Memory operands -/

/-- The registers of an address are known. -/
structure KnownAddress (kinds : List Kind) (address : Address) : Prop where
  base : KnownExpr kinds address.base
  index : KnownExpr kinds address.index

theorem KnownAddress.mono {kinds' : List Kind} (h : kinds <+: kinds') {address : Address}
    (ha : KnownAddress kinds address) : KnownAddress kinds' address :=
  ⟨ha.base.mono h, ha.index.mono h⟩

theorem insertFallback_keeps {address : Address} {e : Expr} (ha : KnownAddress kinds address)
    (he : KnownExpr kinds e) : worlds.Keeps kinds (insertFallback address e) KnownAddress := by
  refine .ite (fun _ => ?_) fun _ => .ite (fun _ => ?_) fun _ => .pure fun _ hle => ha.mono hle
  · exact (toVar_makes he none_known).bind fun v _ hle hv =>
      .pure fun _ hle' => ⟨hv.mono hle', (ha.mono (hle.trans hle')).index⟩
  · exact (toVar_makes he none_known).bind fun v _ hle hv =>
      .pure fun _ hle' => ⟨(ha.mono (hle.trans hle')).base, hv.mono hle'⟩

/-- The address is known, where there is one. -/
def KnownAddress? (kinds : List Kind) (address : Option Address) : Prop :=
  ∀ a, address = some a → KnownAddress kinds a

theorem insertAddress_keeps {address : Address} {e : Expr} (ha : KnownAddress kinds address)
    (he : KnownExpr kinds e) : worlds.Keeps kinds (insertAddress address e) KnownAddress? := by
  have hsome : ∀ {kinds'} {address' : Address}, KnownAddress kinds' address' →
      KnownExpr kinds' e →
      worlds.Keeps kinds' (some <$> insertFallback address' e) KnownAddress? := by
    intro kinds' address' ha' he'
    refine (insertFallback_keeps ha' he').map fun _ a _ h b hb => ?_
    obtain rfl := Option.some.inj hb
    exact h
  refine .ite (fun _ => .pure fun _ _ a h => by cases h) fun _ => ?_
  split
  · refine hsome ?_ he
    split
    · exact ⟨ha.base, ha.index⟩
    · exact ha
  · split
    · next x scale hscaled =>
      have hx : KnownExpr kinds x := by
        split at hscaled
        · cases hscaled
        · unfold scaledIndex at hscaled
          split at hscaled
          · split at hscaled
            · cases hscaled
              intro v hv
              apply he v
              rw [exprVars, exprsVars]
              exact List.mem_append_left _ hv
            · cases hscaled
          · cases hscaled
      refine (toVar_makes hx none_known).bind fun v _ hle hv => .ite (fun _ => ?_) fun _ => ?_
      · refine .pure fun _ hle' a h => ?_
        obtain rfl := Option.some.inj h
        exact ⟨(ha.mono (hle.trans hle')).base, hv.mono hle'⟩
      · exact hsome (ha.mono hle) (he.mono hle)
    · exact hsome ha he

theorem insertAll_keeps {es : List Expr} {address : Address} (ha : KnownAddress kinds address)
    (hes : ∀ e ∈ es, KnownExpr kinds e) :
    worlds.Keeps kinds (insertAll es address) KnownAddress? := by
  induction es generalizing kinds address with
  | nil =>
    refine .pure fun _ hle a h => ?_
    obtain rfl := Option.some.inj h
    exact ha.mono hle
  | cons e es ih =>
    rw [List.forall_mem_cons] at hes
    refine (insertAddress_keeps ha hes.1).bind fun res _ hle hres => ?_
    cases res with
    | none => exact .pure fun _ _ a h => by cases h
    | some a => exact ih (hres a rfl) fun e he => (hes.2 e he).mono hle

theorem memChildren_known {address : Address} (ha : KnownAddress kinds address) :
    ∀ e ∈ memChildren address, KnownExpr kinds e := by
  have hoffset : KnownExpr kinds
      (if address.offset ≠ 0 then .ofValue ⟨address.offset, .int64⟩ else .none) := by
    split
    · exact knownExpr_nil (exprVars_ofValue _)
    · exact none_known
  unfold memChildren
  dsimp only
  split
  · intro e he
    simp only [List.mem_cons, List.not_mem_nil, or_false] at he
    obtain rfl | rfl | rfl | rfl := he
    · exact hoffset
    · exact ha.base
    · exact ha.index
    · exact knownExpr_nil (exprVars_ofUint16 _ _)
  · split
    · intro e he
      simp only [List.mem_cons, List.not_mem_nil, or_false] at he
      obtain rfl | rfl := he
      · exact hoffset
      · exact ha.base
    · split
      · intro e he
        rw [List.mem_singleton.mp he]
        exact knownExpr_nil (exprVars_ofValue _)
      · intro e he
        cases he

theorem createMem_makes (kind : Kind) {children : List Expr}
    (h : ∀ e ∈ children, KnownExpr kinds e) : Makes kinds (createMem kind children) := by
  refine (insertAll_keeps ⟨none_known, none_known⟩ h).bind fun res _ hle hres => ?_
  cases res with
  | none => exact return_makes none_known
  | some address =>
    refine return_makes ?_
    intro v hv
    rw [exprVars] at hv
    exact knownExprs.mpr (memChildren_known (hres address rfl)) v hv

/-! ## Expressions -/

theorem simplifyConst_makes {e : Expr} (mask : Mask) {optDst : Expr} (he : KnownExpr kinds e)
    (hdst : KnownExpr kinds optDst) : Makes kinds (simplifyConst e mask optDst) :=
  .ite (fun _ => return_makes he) fun _ => toVar_makes he hdst

theorem emitUnary_makes (e : Expr) (kind : Kind) (op : Op1) {x optDst : Expr}
    (hx : KnownExpr kinds x) (hdst : KnownExpr kinds optDst) :
    Makes kinds (emitUnary e kind op x optDst) := by
  refine (dstOr_makes hdst kind).bind fun dst _ hle hdst => ?_
  have hx := hx.mono hle
  cases op with
  | xor1 => exact add_makes (knownInsn3 hdst hx (knownExpr_nil (exprVars_ofValue _))) hdst
  | not1 => exact add_makes (knownInsn3 hdst hx (knownExpr_nil (exprVars_ofUint16 _ _))) hdst
  | neg1 => exact add_makes (knownInsn2 hdst hx) hdst
  | cast => exact add_makes (knownInsn2 hdst hx) hdst
  | bitcopy => exact (error_does _ _).bind fun _ _ hle _ => return_makes (hdst.mono hle)
  | bad1 => exact error_makes _ _

theorem emitBinary_makes (e : Expr) (kind : Kind) (op : OneJit.Op2) {x y optDst : Expr}
    (hx : KnownExpr kinds x) (hy : KnownExpr kinds y) (hdst : KnownExpr kinds optDst) :
    Makes kinds (emitBinary e kind op x y optDst) := by
  unfold emitBinary
  split
  · exact error_makes _ _
  · exact (dstOr_makes hdst kind).bind fun dst _ hle hdst =>
      add_makes (knownInsn3 hdst (hx.mono hle) (hy.mono hle)) hdst

/-- Operands that are simplified when their turn comes. -/
def KnownOperands (kinds : List Kind) (args : List (Mask → MirM Expr)) : Prop :=
  ∀ arg ∈ args, ∀ mask, Makes kinds (arg mask)

theorem KnownOperands.mono {kinds' : List Kind} (h : kinds <+: kinds')
    {args : List (Mask → MirM Expr)} (hargs : KnownOperands kinds args) :
    KnownOperands kinds' args := fun arg harg mask => (hargs arg harg mask).later h

theorem foldArith_makes (op : Op3) (kind : Kind) {optDst : Expr} (mask : Mask) {x : Expr}
    {args : List (Mask → MirM Expr)} (hdst : KnownExpr kinds optDst) (hx : KnownExpr kinds x)
    (hargs : KnownOperands kinds args) : Makes kinds (foldArith op kind optDst mask x args) := by
  induction args generalizing kinds mask x with
  | nil => exact return_makes hx
  | cons arg args ih =>
    rw [KnownOperands, List.forall_mem_cons] at hargs
    refine (hargs.1 _).bind fun y _ hle hy => ?_
    refine (dstOr_makes ?_ kind).bind
      fun dst _ hle' hdst' => ?_
    · split
      · exact hdst.mono hle
      · exact none_known
    · refine (add_does (knownInsn3 hdst' ((hx.mono hle).mono hle') (hy.mono hle'))).bind
        fun _ _ hle'' _ => ?_
      have hall := (hle.trans hle').trans hle''
      exact ih _ (hdst.mono hall) (hdst'.mono hle'') (KnownOperands.mono hall hargs.2)

theorem foldMinMax_makes (mov : Op2) (jmp : Op3) {optDst : Expr} (x : Expr) (mask : Mask)
    {dst : Expr} {args : List (Mask → MirM Expr)} (hopt : KnownExpr kinds optDst)
    (hdst : KnownExpr kinds dst) (hargs : KnownOperands kinds args) :
    Makes kinds (foldMinMax mov jmp optDst x mask dst args) := by
  induction args generalizing kinds mask dst with
  | nil => exact return_makes hdst
  | cons arg args ih =>
    rw [KnownOperands, List.forall_mem_cons] at hargs
    refine (hargs.1 _).bind fun y kinds' hle hy => ?_
    have hopt := hopt.mono hle
    have hdst := hdst.mono hle
    have hnext : KnownExpr kinds' (if args.isEmpty && optDst.isValid then optDst else dst) := by
      split
      · exact hopt
      · exact hdst
    refine (addIf_does (knownInsn2 hopt hdst)).bind fun _ _ hle' _ => ?_
    have hnext := hnext.mono hle'
    refine newLabel_makes.bind fun l _ hle'' hl => ?_
    have hnext := hnext.mono hle''
    have hy := (hy.mono hle').mono hle''
    refine (add_does (knownInsn3 hl hnext hy)).bind fun _ _ h₁ _ => ?_
    refine (add_does (knownInsn2 (hnext.mono h₁) (hy.mono h₁))).bind fun _ _ h₂ _ => ?_
    have hlabel : KnownInsn _ (.label l) := (hl.mono h₁).mono h₂
    refine (add_does hlabel).bind fun _ _ h₃ _ => ?_
    have hlast := (h₁.trans h₂).trans h₃
    have hall := ((hle.trans hle').trans hle'').trans hlast
    exact ih _ (((hopt.mono hle').mono hle'').mono hlast) (hnext.mono hlast)
      (KnownOperands.mono hall hargs.2)

theorem simplifyTuple_makes (e : Expr) (kind : Kind) (op : OpN) {optDst : Expr}
    {args : List (Mask → MirM Expr)} (hdst : KnownExpr kinds optDst)
    (hargs : KnownOperands kinds args) : Makes kinds (simplifyTuple e kind op optDst args) := by
  rcases args with _ | ⟨arg, _ | ⟨arg', args⟩⟩
  case cons.cons =>
    obtain ⟨harg, hargs⟩ := List.forall_mem_cons.mp hargs
    have hminmax : ∀ jmp, Makes kinds (do
        let x ← arg (.beside optDst)
        let dst ← newVar kind
        add (.insn2 (mirMov kind) dst x)
        foldMinMax (mirMov kind) jmp optDst x (.beside optDst) dst (arg' :: args)) := by
      intro jmp
      refine (harg _).bind fun x _ hle hx => ?_
      refine (newVar_makes kind).bind fun dst _ hle' hd => ?_
      refine (add_does (knownInsn2 hd (hx.mono hle'))).bind fun _ _ hle'' _ => ?_
      have hall := (hle.trans hle').trans hle''
      exact foldMinMax_makes _ _ _ _ (hdst.mono hall) (hd.mono hle'')
        (KnownOperands.mono hall hargs)
    have harith : ∀ op, Makes kinds (do
        let x ← arg (.beside optDst)
        foldArith op kind optDst (.beside optDst) x (arg' :: args)) := by
      intro op
      refine (harg _).bind fun x _ hle hx => ?_
      exact foldArith_makes _ _ _ (hdst.mono hle) hx (KnownOperands.mono hle hargs)
    cases op with
    | max => exact hminmax _
    | min => exact hminmax _
    | add => exact harith _
    | mul => exact harith _
    | and => exact harith _
    | or => exact harith _
    | xor => exact harith _
    | _ => exact error_makes _ _
  all_goals
    cases op with
    | _ => exact error_makes _ _

theorem emitMem_makes {again : Expr → Mask → MirM Expr}
    (hagain : ∀ kinds e mask, KnownExpr kinds e → Makes kinds (again e mask)) (e : Expr)
    (kind : Kind) {children : List Expr} (mask : Mask) {optDst : Expr}
    (hchildren : ∀ e ∈ children, KnownExpr kinds e) (hdst : KnownExpr kinds optDst) :
    Makes kinds (emitMem again e kind children mask optDst) := by
  have hmov : ∀ {kinds' mem}, kinds <+: kinds' → KnownExpr kinds' mem →
      Makes kinds' (emitMov e kind mask optDst mem) := by
    intro kinds' mem hle hmem
    refine .ite (fun _ => error_makes _ _) fun _ => .ite (fun _ => return_makes hmem) fun _ => ?_
    refine (dstOr_makes ?_ kind).bind
      fun dst _ hle' hdst' => add_makes (knownInsn2 hdst' (hmem.mono hle')) hdst'
    split
    · exact hdst.mono hle
    · exact none_known
  refine (createMem_makes kind hchildren).bind fun mem kinds' hle hmem => ?_
  refine .ite (fun _ => hmov hle hmem) fun _ => ?_
  have hsum : Makes kinds' (createMemOfSum again kind children) := by
    refine (simplifyTuple_makes _ _ _ none_known ?_).bind fun arg _ _ harg =>
      createMem_makes kind (by simpa using harg)
    intro arg harg mask
    obtain ⟨child, hchild, rfl⟩ := List.mem_map.mp harg
    exact hagain _ _ _ ((hchildren child hchild).mono hle)
  exact hsum.bind fun mem _ hle' hmem => hmov (hle.trans hle') hmem

/-- What the results of a call are stored in is known. -/
def KnownResults (kinds : List Kind) (res : Option (Expr × Expr)) : Prop :=
  ∀ ret results, res = some (ret, results) → KnownExpr kinds ret ∧ KnownExpr kinds results

theorem mirRets_known {es : List Expr} (h : ∀ e ∈ es, KnownExpr kinds e) :
    KnownExpr kinds (mirRets es) := by
  intro v hv
  rw [mirRets, exprVars] at hv
  exact knownExprs.mpr h v hv

theorem prepareCallResults_keeps (call fn address : Expr) {optDst : Expr}
    (hdst : KnownExpr kinds optDst) :
    worlds.Keeps kinds (prepareCallResults call fn address optDst) KnownResults := by
  have herror : ∀ node msg,
      worlds.Keeps kinds (do error node msg; return .none) KnownResults := by
    intro node msg
    exact (error_does node msg).bind fun _ _ _ _ => .pure fun _ _ _ _ h => by cases h
  have hsome : ∀ {ret results}, KnownExpr kinds ret → KnownExpr kinds results →
      worlds.Keeps kinds (pure (some (ret, results))) KnownResults := by
    intro ret results hret hresults
    refine .pure fun _ hle ret' results' h => ?_
    cases h
    exact ⟨hret.mono hle, hresults.mono hle⟩
  unfold prepareCallResults
  split
  · refine .ite (fun _ => herror _ _) fun _ => .ite (fun _ => ?_) fun _ => ?_
    · split
      · refine .ite (fun _ => herror _ _) fun _ => .ite (fun _ => herror _ _) fun _ => ?_
        exact hsome hdst hdst
      · exact .ite (fun _ => herror _ _) fun _ => hsome hdst (mirRets_known (by simpa using hdst))
      · exact .ite (fun _ => herror _ _) fun _ => hsome hdst (mirRets_known (by simpa using hdst))
      · exact herror _ _
    · refine (Worlds.Keeps.mapM (q := KnownExpr) (fun _ _ e hle he => KnownExpr.mono hle he)
        fun kind _ _ _ => newVar_makes kind).bind fun vars _ _ hvars => ?_
      refine .pure fun _ hle ret results h => ?_
      cases h
      have hknown := mirRets_known fun e he => (hvars e he).mono hle
      exact ⟨hknown, hknown⟩
  · exact herror _ _

/-- A list of expressions, all known. -/
abbrev KnownList (kinds : List Kind) (es : List Expr) : Prop := ∀ e ∈ es, KnownExpr kinds e

/-- Every case of `simplify` only makes new variables. -/
theorem simplifyWith_makes {again : Expr → Mask → MirM Expr}
    (hagain : ∀ kinds e mask, KnownExpr kinds e → Makes kinds (again e mask)) (e : Expr) :
    ∀ kinds mask optDst, KnownExpr kinds e → KnownExpr kinds optDst →
      Makes kinds (simplifyWith again e mask optDst) := by
  have hcons : ∀ {kinds : List Kind} {x : Expr} {es : List Expr} {mask : Mask},
      Makes kinds (simplifyWith again x mask .none) →
      (∀ kinds', kinds <+: kinds' → worlds.Keeps kinds' (simplifyArgs again es mask) KnownList) →
      worlds.Keeps kinds (simplifyArgs again (x :: es) mask) KnownList := by
    intro kinds x es mask hx hes
    rw [simplifyArgs]
    refine hx.bind fun y kinds' hle hy => (hes kinds' hle).bind fun ys _ hle' hys => ?_
    exact .pure fun _ hle'' => List.forall_mem_cons.mpr
      ⟨(hy.mono hle').mono hle'', fun e he => (hys e he).mono hle''⟩
  have hargs : ∀ args : List Expr, (∀ x ∈ args, ∀ kinds mask optDst, KnownExpr kinds x →
        KnownExpr kinds optDst → Makes kinds (simplifyWith again x mask optDst)) →
      ∀ kinds mask, KnownList kinds args →
        worlds.Keeps kinds (simplifyArgs again args mask) KnownList ∧
          KnownOperands kinds (operands again args) := by
    intro args
    induction args with
    | nil =>
      intro _ kinds mask _
      rw [simplifyArgs, operands]
      constructor
      · exact .pure fun _ _ e he => by cases he
      · intro arg harg
        cases harg
    | cons x args ih =>
      intro hall kinds mask hknown
      rw [List.forall_mem_cons] at hall
      rw [KnownList, List.forall_mem_cons] at hknown
      refine ⟨hcons (hall.1 _ _ _ hknown.1 none_known) fun kinds' hle => ?_, ?_⟩
      · exact (ih hall.2 kinds' mask fun e he => (hknown.2 e he).mono hle).1
      · rw [operands, KnownOperands, List.forall_mem_cons]
        exact ⟨fun mask => hall.1 _ _ _ hknown.1 none_known, (ih hall.2 kinds mask hknown.2).2⟩
  induction e using Expr.induct with
  | hnone =>
    intro kinds mask optDst _ _
    rw [simplifyWith]
    · exact error_makes _ _
    all_goals simp
  | hftype results params =>
    intro kinds mask optDst _ _
    rw [simplifyWith]
    · exact error_makes _ _
    all_goals simp
  | hconst v p =>
    intro kinds mask optDst he hdst
    rw [simplifyWith]
    exact simplifyConst_makes mask he hdst
  | hvar kind id =>
    intro kinds mask optDst he _
    rw [simplifyWith]
    exact return_makes he
  | hlabel index address =>
    intro kinds mask optDst he _
    rw [simplifyWith]
    exact return_makes he
  | hmem kind args p ih =>
    intro kinds mask optDst he hdst
    rw [simplifyWith]
    have hknown : KnownList kinds args := by
      intro e hmem
      apply knownExprs.mp _ e hmem
      rwa [KnownExpr, exprVars] at he
    exact (hargs args ih kinds _ hknown).1.bind fun children _ hle hchildren =>
      emitMem_makes hagain _ _ _ hchildren (hdst.mono hle)
  | hunary kind op x p ih =>
    intro kinds mask optDst he hdst
    rw [simplifyWith]
    rw [KnownExpr, exprVars] at he
    exact (ih kinds _ _ he none_known).bind fun x' _ hle hx =>
      emitUnary_makes _ _ _ hx (hdst.mono hle)
  | hbinary kind op x y p ihx ihy =>
    intro kinds mask optDst he hdst
    rw [simplifyWith]
    rw [KnownExpr, exprVars, List.forall_mem_append] at he
    refine (ihx kinds _ _ he.1 none_known).bind fun x' kinds' hle hx => ?_
    refine (ihy kinds' _ _ (KnownExpr.mono hle he.2) none_known).bind fun y' _ hle' hy => ?_
    exact emitBinary_makes _ _ _ (hx.mono hle') hy ((hdst.mono hle).mono hle')
  | htuple kind op args p ih =>
    intro kinds mask optDst he hdst
    have hknown : KnownList kinds args := by
      intro e hmem
      apply knownExprs.mp _ e hmem
      rwa [KnownExpr, exprVars] at he
    by_cases hop : op = .call
    · subst hop
      match args, ih, hknown with
      | fn :: address :: args, ih, hknown =>
        rw [simplifyWith]
        rw [KnownList, List.forall_mem_cons, List.forall_mem_cons] at hknown
        refine (prepareCallResults_keeps _ fn address hdst).bind fun res kinds' hle hres => ?_
        cases res with
        | none => exact return_makes none_known
        | some res =>
          obtain ⟨ret, results⟩ := res
          obtain ⟨hret, hresults⟩ := hres ret results rfl
          have hargs' := (hargs args (fun x hx => ih x (.tail _ (.tail _ hx))) kinds' .toVar
            fun e he => (hknown.2.2 e he).mono hle).1
          refine hargs'.bind fun children _ hle' hchildren => ?_
          refine add_makes ?_ (hret.mono hle')
          intro v hv
          simp only [Insn.vars, List.mem_append] at hv
          obtain ((hv | hv) | hv) | hv := hv
          · exact ((hknown.1 v hv).mono hle).mono hle'
          · exact ((hknown.2.1 v hv).mono hle).mono hle'
          · exact (hresults v hv).mono hle'
          · exact knownExprs.mpr hchildren v hv
      | [], _, _ =>
        rw [simplifyWith]
        · exact error_makes _ _
        all_goals simp
      | [x], _, _ =>
        rw [simplifyWith]
        · exact error_makes _ _
        all_goals simp
    · rw [simplifyWith]
      · exact simplifyTuple_makes _ _ _ hdst (hargs args ih kinds .toAny hknown).2
      all_goals simp [hop]

theorem simplify_makes {kinds : List Kind} {e optDst : Expr} (mask : Mask) (he : KnownExpr kinds e)
    (hdst : KnownExpr kinds optDst) : Makes kinds (simplify e mask optDst) := by
  refine simplifyWith_makes (fun kinds e mask he => ?_) e kinds mask optDst he hdst
  exact simplifyWith_makes (fun kinds e mask he => return_makes he) e kinds mask .none he none_known

/-! ## Statements -/

/-- All variables of the statement are known. -/
def KnownStmt (kinds : List Kind) (st : Stmt) : Prop := ∀ v ∈ stmtVars st, KnownVar kinds v

theorem knownStmts {kinds : List Kind} {sts : List Stmt} :
    (∀ v ∈ stmtsVars sts, KnownVar kinds v) ↔ ∀ st ∈ sts, KnownStmt kinds st := by
  rw [stmtsVars_eq, List.forall_mem_flatMap]
  rfl

theorem KnownStmt.mono {kinds' : List Kind} (h : kinds <+: kinds') {st : Stmt}
    (hst : KnownStmt kinds st) : KnownStmt kinds' st := fun v hv => (hst v hv).mono h

theorem KnownStmt.toExpr {st : Stmt} (h : KnownStmt kinds st) : KnownExpr kinds st.toExpr := by
  cases st with
  | expr e =>
    apply knownExpr_toExpr
    rwa [KnownStmt, stmtVars] at h
  | _ => exact none_known

theorem toLabel_known (st : Stmt) : KnownExpr kinds st.toLabel := by
  unfold Stmt.toLabel
  split
  · exact knownExpr_nil (by rw [exprVars])
  · exact none_known

theorem compileStmt1_does (op : OpStmt1) {arg : Expr} (h : KnownExpr kinds arg) :
    Does kinds (compileStmt1 op arg) := by
  refine (simplify_makes _ h none_known).bind fun e kinds' _ he => ?_
  have hjmp : Does kinds' (add (.jmp e)) := add_does he
  have hstep : ∀ op, Does kinds' (do
      let tmp ← memToVar e
      add (.insn3 op e tmp (.one e.kind))) := by
    intro op
    have htmp : Makes kinds' (memToVar e) :=
      .ite (fun _ => toVar_makes he none_known) fun _ => return_makes he
    exact htmp.bind fun tmp _ hle htmp =>
      add_does (knownInsn3 (he.mono hle) htmp (knownExpr_nil (exprVars_one _)))
  cases op with
  | goto => exact hjmp
  | inc => exact hstep _
  | dec => exact hstep _
  | _ => exact error_does _ _

theorem compileAssign_does (op : OpStmt2) {dst src : Expr} (hdst : KnownExpr kinds dst)
    (hsrc : KnownExpr kinds src) : Does kinds (compileAssign op dst src) := by
  refine (simplify_makes _ hdst none_known).bind fun dst kinds' hle hdst => ?_
  have hsrc := hsrc.mono hle
  refine .ite (fun _ => ?_) fun _ => ?_
  · exact (simplify_makes _ hsrc hdst).bind fun src _ hle' hsrc =>
      addIf_does (knownInsn2 (hdst.mono hle') hsrc)
  · have htmp : Makes kinds' (toTmp dst) :=
      .ite (fun _ => return_makes hdst) fun _ => (newVar_makes _).bind fun tmp _ hle htmp =>
        add_makes (knownInsn2 htmp (hdst.mono hle)) htmp
    refine htmp.bind fun tmp _ hle' htmp => ?_
    refine (simplify_makes _ (hsrc.mono hle') none_known).bind fun src _ hle'' hsrc => ?_
    exact add_does (knownInsn3 ((hdst.mono hle').mono hle'') (htmp.mono hle'') hsrc)

theorem compileStmt2_does (op : OpStmt2) {a b : Stmt} (ha : KnownStmt kinds a)
    (hb : KnownStmt kinds b) : Does kinds (compileStmt2 op a b) :=
  .ite (fun _ => compileAssign_does op ha.toExpr hb.toExpr) fun _ => error_does _ _

theorem compileStmt3_does (op : OpStmt3) {a b c : Stmt} (hb : KnownStmt kinds b)
    (hc : KnownStmt kinds c) : Does kinds (compileStmt3 op a b c) := by
  unfold compileStmt3
  split
  case h_11 => exact error_does _ _
  all_goals
    refine (simplify_makes _ hb.toExpr none_known).bind fun x kinds' hle hx => ?_
    refine (simplify_makes _ (hc.mono hle).toExpr none_known).bind fun y _ hle' hy => ?_
    exact add_does (knownInsn3 (toLabel_known a) (hx.mono hle') hy)

theorem simplifyAll_keeps (mask : Mask) {sts : List Stmt} (h : ∀ st ∈ sts, KnownStmt kinds st) :
    worlds.Keeps kinds (simplifyAll mask sts) KnownList := by
  induction sts generalizing kinds with
  | nil => exact .pure fun _ _ e he => by cases he
  | cons st sts ih =>
    rw [List.forall_mem_cons] at h
    refine (simplify_makes mask h.1.toExpr none_known).bind fun e kinds' hle he => ?_
    refine (ih fun st hst => (h.2 st hst).mono hle).bind fun es _ hle' hes => ?_
    exact .pure fun _ hle'' => List.forall_mem_cons.mpr
      ⟨(he.mono hle').mono hle'', fun e he => (hes e he).mono hle''⟩

theorem compileAssignCall_does {args : List Stmt} (h : ∀ st ∈ args, KnownStmt kinds st) :
    Does kinds (compileAssignCall args) := by
  unfold compileAssignCall
  split
  · next call hcall =>
    refine .ite (fun _ => ?_) fun _ => error_does _ _
    refine (simplifyAll_keeps .toVarOrMem h).bind fun all kinds' hle hall => ?_
    have hdst : KnownExpr kinds' (mirRets all.dropLast) :=
      mirRets_known fun e he => hall e (List.dropLast_subset _ he)
    have hlast := (h call (List.mem_of_getLast? hcall)).mono hle
    refine (simplify_makes .toAny hlast.toExpr hdst).bind fun results _ _ _ => ?_
    exact .ite (fun _ => error_does _ _) fun _ => .pure fun _ _ => trivial
  · exact error_does _ _

/-- Every statement only makes new variables. -/
theorem compile_does (st : Stmt) : ∀ kinds, KnownStmt kinds st → Does kinds (compile st) := by
  have hblock : ∀ sts : List Stmt, (∀ st ∈ sts, ∀ kinds, KnownStmt kinds st →
      Does kinds (compile st)) → ∀ kinds, (∀ st ∈ sts, KnownStmt kinds st) →
        Does kinds (compileBlock sts) := by
    intro sts
    induction sts with
    | nil =>
      intro _ kinds _
      rw [compileBlock]
      exact .pure fun _ _ => trivial
    | cons st sts ih =>
      intro hall kinds hknown
      rw [List.forall_mem_cons] at hall hknown
      rw [compileBlock]
      exact (hall.1 kinds hknown.1).bind fun _ kinds' hle _ =>
        ih hall.2 kinds' fun st hst => (hknown.2 st hst).mono hle
  induction st using Stmt.induct with
  | hexpr e =>
    intro kinds h
    rw [KnownStmt, stmtVars] at h
    rw [compile]
    refine .ite (fun _ => ?_) fun _ => .ite (fun _ => error_does _ _) fun _ => error_does _ _
    exact (simplify_makes _ h none_known).bind fun e _ _ he => addIf_does he
  | hstmt0 op =>
    intro kinds _
    rw [compile]
    exact error_does _ _
  | hstmt1 op arg =>
    intro kinds h
    rw [KnownStmt, stmtVars] at h
    rw [compile]
    exact compileStmt1_does op h
  | hstmt2 op a b _ _ =>
    intro kinds h
    rw [KnownStmt, stmtVars, List.forall_mem_append] at h
    rw [compile]
    exact compileStmt2_does op h.1 h.2
  | hstmt3 op a b c _ _ _ =>
    intro kinds h
    rw [KnownStmt, stmtVars, List.forall_mem_append, List.forall_mem_append] at h
    rw [compile]
    exact compileStmt3_does op h.1.2 h.2
  | hstmt4 op a b c d _ _ _ _ =>
    intro kinds _
    rw [compile]
    exact error_does _ _
  | hstmtN op args ih =>
    intro kinds h
    have hargs : ∀ st ∈ args, KnownStmt kinds st := by
      apply knownStmts.mp
      rwa [KnownStmt, stmtVars] at h
    cases op with
    | assignCall =>
      rw [compile]
      exact compileAssignCall_does hargs
    | block =>
      rw [compile]
      exact hblock args ih kinds hargs
    | «return» =>
      rw [compile]
      exact (simplifyAll_keeps _ hargs).bind fun es _ _ hes => add_does (knownExprs.mpr hes)
    | set =>
      rw [compile]
      exact .pure fun _ _ => trivial
    | _ =>
      rw [compile]
      · exact error_does _ _
      all_goals simp

end Compiler

end OneJit.Mir
