import OneJit.Lib.Ledger
import OneJit.Mir.Compiler

/-!
# Calls that are emitted twice

`compile(AssignCall)` simplifies all children of the statement as destinations, the call that is the
last one too, and then the call once more with the destinations as its results.
-/

namespace OneJit.Mir

/-- The number of results of a function type. -/
def resultN : Expr → Nat
  | .ftype results _ => results.length
  | _ => 0

/-- The instruction is a call. -/
def Insn.isCall : Insn → Bool
  | call .. => true
  | _ => false

/-- A call stores as many results as its function type has. -/
def Insn.ArityOk : Insn → Prop
  | call fn _ results _ => results.children.length = resultN fn
  | _ => True

/-- What `prepare_call_results` demands of the first two arguments of a call. -/
def callable (fn address : Expr) : Bool := fn.type == .ftype && address.isValid

/-- The operands of a tuple are simplified. -/
def hasOperands (op : OpN) (args : List Expr) : Bool :=
  match op with
  | .max | .min | .add | .mul | .and | .or | .xor => 2 ≤ args.length
  | _ => false

mutual

/-- The number of calls in an expression, without those below a node that is rejected. -/
def callsIn : Expr → Nat
  | .mem _ args _ => callsInList args
  | .unary _ _ x _ => callsIn x
  | .binary _ _ x y _ => callsIn x + callsIn y
  | .tuple _ .call (fn :: address :: args) _ =>
    if callable fn address then callsInList args + 1 else 0
  | .tuple _ op args _ => if hasOperands op args then callsInList args else 0
  | _ => 0

def callsInList : List Expr → Nat
  | [] => 0
  | e :: es => callsIn e + callsInList es

end

/-- The instructions that a step adds to those there are. -/
def emitted {α : Type} (m : MirM α) (c : Compiler) : List Insn := (m { c with nodes := [] }).2.nodes

/-- Calls with as many results as their function types have, and how many they are. -/
def callLedger : Ledger Compiler where
  inv c := ∀ insn ∈ c.nodes, insn.ArityOk
  amount c := c.nodes.countP Insn.isCall

/-- An operand without calls. -/
def CallFree (e : Expr) : Prop := callsIn e = 0

/-- The step emits `n` calls and returns an operand without calls. -/
abbrev Emits (n : Nat) (m : MirM Expr) : Prop := callLedger.Adds n m CallFree

/-- The step emits no calls. -/
abbrev EmitsNone (m : MirM Unit) : Prop := callLedger.Adds 0 m fun _ => True

namespace Compiler

theorem none_callFree : CallFree .none := rfl

theorem ofValue_callFree (v : Value) : CallFree (.ofValue v) := by
  rw [Expr.ofValue]
  split <;> rfl

theorem ofUint16_callFree (k : Kind) (n : BitVec 16) : CallFree (.ofUint16 k n) := rfl

/-! ## The steps -/

theorem add_emits {insn : Insn} (h : insn.isCall = false) : EmitsNone (add insn) := by
  intro c hc
  refine ⟨?_, ?_, trivial⟩
  · intro i hi
    obtain hi | hi := List.mem_append.mp hi
    · exact hc i hi
    · rw [List.mem_singleton.mp hi]
      cases insn with
      | call fn address results args => cases h
      | _ => trivial
  · change (c.nodes ++ [insn]).countP Insn.isCall = c.nodes.countP Insn.isCall + 0
    simp [h]

theorem addIf_emits (b : Bool) {insn : Insn} (h : insn.isCall = false) : EmitsNone (addIf b insn) :=
  .ite (fun _ => add_emits h) fun _ => .pure trivial

theorem error_emits (node : Stmt) (msg : String) : EmitsNone (error node msg) :=
  fun _ hc => ⟨hc, rfl, trivial⟩

/-- An error that is followed by an invalid expression. -/
theorem error_none_emits (node : Stmt) (msg : String) :
    Emits 0 (do error node msg; return .none) :=
  (error_emits node msg).bind_zero fun _ _ => .pure none_callFree

/-- An instruction that is followed by its destination. -/
theorem add_return_emits {insn : Insn} {e : Expr} (h : insn.isCall = false) (he : CallFree e) :
    Emits 0 (do add insn; return e) :=
  (add_emits h).bind_zero fun _ _ => .pure he

theorem newVar_emits (kind : Kind) : Emits 0 (newVar kind) := by
  intro c hc
  unfold newVar
  split
  · exact ⟨hc, rfl, rfl⟩
  · exact ⟨hc, rfl, rfl⟩

theorem newLabel_emits : Emits 0 newLabel := by
  intro c hc
  unfold newLabel
  split
  · exact ⟨hc, rfl, rfl⟩
  · exact ⟨hc, rfl, rfl⟩

theorem dstOr_emits {optDst : Expr} (h : CallFree optDst) (kind : Kind) :
    Emits 0 (dstOr optDst kind) := .ite (fun _ => .pure h) fun _ => newVar_emits kind

theorem toVar_emits {e optDst : Expr} (h : CallFree e) (hdst : CallFree optDst) :
    Emits 0 (toVar e optDst) := by
  apply Ledger.Adds.ite
  · exact fun _ => error_none_emits _ _
  · intro _
    apply Ledger.Adds.ite
    · exact fun _ => add_return_emits rfl hdst
    · intro _
      apply Ledger.Adds.ite
      · exact fun _ => .pure h
      · exact fun _ => (newVar_emits _).bind_zero fun v hv => add_return_emits rfl hv

/-! ## Memory operands -/

/-- The registers of an address are operands without calls. -/
def CallFreeAddress (address : Address) : Prop := CallFree address.base ∧ CallFree address.index

theorem insertFallback_emits {address : Address} {e : Expr} (ha : CallFreeAddress address)
    (he : CallFree e) : callLedger.Adds 0 (insertFallback address e) CallFreeAddress := by
  apply Ledger.Adds.ite
  · exact fun _ => (toVar_emits he none_callFree).bind_zero fun v hv => .pure ⟨hv, ha.2⟩
  · intro _
    apply Ledger.Adds.ite
    · exact fun _ => (toVar_emits he none_callFree).bind_zero fun v hv => .pure ⟨ha.1, hv⟩
    · exact fun _ => .pure ha

/-- What `Address::insert` returns. -/
def CallFreeInserted (address : Option Address) : Prop := ∀ a, address = some a → CallFreeAddress a

theorem scaledIndex_callFree {e x : Expr} {scale : BitVec 64} (h : scaledIndex e = some (x, scale))
    (he : CallFree e) : CallFree x := by
  unfold scaledIndex at h
  split at h
  · next k y v p q =>
    split at h
    · cases h
      simpa [CallFree, callsIn, callsInList, hasOperands] using he
    · cases h
  · cases h

theorem insertAddress_emits {address : Address} {e : Expr} (ha : CallFreeAddress address)
    (he : CallFree e) : callLedger.Adds 0 (insertAddress address e) CallFreeInserted := by
  have hfallback : ∀ {address : Address}, CallFreeAddress address →
      callLedger.Adds 0 (some <$> insertFallback address e) CallFreeInserted := by
    intro address ha
    apply (insertFallback_emits ha he).map
    intro a h b hb
    rwa [← Option.some.inj hb]
  unfold insertAddress
  apply Ledger.Adds.ite
  · intro _
    apply Ledger.Adds.pure
    intro a h
    cases h
  · intro _
    split
    · next v p =>
      apply hfallback
      split
      · exact ha
      · exact ha
    · split
      · next x scale hscaled =>
        have hx : CallFree x := by
          split at hscaled
          · cases hscaled
          · exact scaledIndex_callFree hscaled he
        apply (toVar_emits hx none_callFree).bind_zero
        intro v hv
        apply Ledger.Adds.ite
        · intro _
          apply Ledger.Adds.pure
          intro a h
          rw [← Option.some.inj h]
          exact ⟨ha.1, hv⟩
        · exact fun _ => hfallback ha
      · exact hfallback ha

theorem insertAll_emits {es : List Expr} {address : Address} (ha : CallFreeAddress address)
    (hes : ∀ e ∈ es, CallFree e) :
    callLedger.Adds 0 (insertAll es address) CallFreeInserted := by
  induction es generalizing address with
  | nil =>
    apply Ledger.Adds.pure
    intro a h
    rwa [← Option.some.inj h]
  | cons e es ih =>
    rw [List.forall_mem_cons] at hes
    apply (insertAddress_emits ha hes.1).bind_zero
    intro res hres
    cases res with
    | none =>
      apply Ledger.Adds.pure
      intro a h
      cases h
    | some address => exact ih (hres address rfl) hes.2

theorem callsInList_eq_zero {es : List Expr} (h : ∀ e ∈ es, CallFree e) : callsInList es = 0 := by
  induction es with
  | nil => rfl
  | cons e es ih =>
    rw [List.forall_mem_cons] at h
    rw [callsInList, h.1, ih h.2]

theorem memChildren_callFree {address : Address} (ha : CallFreeAddress address) :
    ∀ e ∈ memChildren address, CallFree e := by
  have hoffset : CallFree (if address.offset ≠ 0 then .ofValue ⟨address.offset, .int64⟩ else .none) := by
    split
    · exact ofValue_callFree _
    · rfl
  unfold memChildren
  dsimp only
  split
  · rw [List.forall_mem_cons, List.forall_mem_cons, List.forall_mem_cons, List.forall_mem_singleton]
    exact ⟨hoffset, ha.1, ha.2, ofUint16_callFree _ _⟩
  · split
    · rw [List.forall_mem_cons, List.forall_mem_singleton]
      exact ⟨hoffset, ha.1⟩
    · split
      · rw [List.forall_mem_singleton]
        exact ofValue_callFree _
      · simp

theorem createMem_emits (kind : Kind) {children : List Expr} (h : ∀ e ∈ children, CallFree e) :
    Emits 0 (createMem kind children) := by
  have hempty : CallFreeAddress ⟨0, .none, .none, 1⟩ := ⟨rfl, rfl⟩
  apply (insertAll_emits hempty h).bind_zero
  intro res hres
  cases res with
  | none => exact .pure rfl
  | some address =>
    apply Ledger.Adds.pure
    rw [CallFree, callsIn]
    exact callsInList_eq_zero (memChildren_callFree (hres address rfl))

/-! ## Expressions -/

theorem emitUnary_emits (e : Expr) (kind : Kind) (op : Op1) {x optDst : Expr}
    (hdst : CallFree optDst) : Emits 0 (emitUnary e kind op x optDst) := by
  apply (dstOr_emits hdst kind).bind_zero
  intro dst hd
  cases op with
  | bad1 => exact error_none_emits _ _
  | bitcopy => exact (error_emits _ _).bind_zero fun _ _ => .pure hd
  | _ => exact add_return_emits rfl hd

theorem emitBinary_emits (e : Expr) (kind : Kind) (op : OneJit.Op2) {x y optDst : Expr}
    (hdst : CallFree optDst) : Emits 0 (emitBinary e kind op x y optDst) := by
  unfold emitBinary
  split
  · exact error_none_emits _ _
  · exact (dstOr_emits hdst kind).bind_zero fun dst hd => add_return_emits rfl hd

/-- Operands that emit these numbers of calls. -/
abbrev OperandsEmit (args : List (Mask → MirM Expr)) (ns : List Nat) : Prop :=
  List.Forall₂ (fun arg n => ∀ mask, Emits n (arg mask)) args ns

theorem foldArith_emits (op : Op3) (kind : Kind) {optDst : Expr} (hdst : CallFree optDst)
    {args : List (Mask → MirM Expr)} {ns : List Nat} (hargs : OperandsEmit args ns) (mask : Mask)
    {x : Expr} (hx : CallFree x) : Emits ns.sum (foldArith op kind optDst mask x args) := by
  induction hargs generalizing mask x with
  | nil => exact .pure hx
  | cons harg hargs ih =>
    rw [List.sum_cons]
    apply (harg _).bind
    intro y hy
    apply Ledger.Adds.bind_zero
    · apply dstOr_emits
      split
      · exact hdst
      · rfl
    · intro dst hd
      exact (add_emits rfl).bind_zero fun _ _ => ih _ hd

theorem foldMinMax_emits (mov : Op2) (jmp : Op3) {optDst : Expr} (hopt : CallFree optDst) (x : Expr)
    {args : List (Mask → MirM Expr)} {ns : List Nat} (hargs : OperandsEmit args ns) (mask : Mask)
    {dst : Expr} (hdst : CallFree dst) :
    Emits ns.sum (foldMinMax mov jmp optDst x mask dst args) := by
  induction hargs generalizing mask dst with
  | nil => exact .pure hdst
  | cons harg hargs ih =>
    rw [List.sum_cons]
    apply (harg _).bind
    intro y hy
    apply (addIf_emits _ rfl).bind_zero
    intro _ _
    apply newLabel_emits.bind_zero
    intro l hl
    apply (add_emits rfl).bind_zero
    intro _ _
    apply (add_emits rfl).bind_zero
    intro _ _
    apply (add_emits rfl).bind_zero
    intro _ _
    apply ih
    split
    · exact hopt
    · exact hdst

/-- The calls of the operands of a tuple: none where the tuple is rejected. -/
theorem simplifyTuple_emits (e : Expr) (kind : Kind) (op : OpN) {optDst : Expr}
    (hdst : CallFree optDst) {args : List (Mask → MirM Expr)} {ns : List Nat}
    (hargs : OperandsEmit args ns) (es : List Expr) (hlen : es.length = args.length) :
    Emits (if hasOperands op es then ns.sum else 0) (simplifyTuple e kind op optDst args) := by
  rcases hargs with _ | ⟨harg, _ | ⟨harg', hargs⟩⟩
  case cons.cons arg n arg' n' args ns =>
    have hlen2 : 2 ≤ es.length := by
      rw [hlen]
      simp
    have hrest : OperandsEmit (arg' :: args) (n' :: ns) := .cons harg' hargs
    have hminmax : ∀ jmp, Emits (n :: n' :: ns).sum (do
        let x ← arg (.beside optDst)
        let dst ← newVar kind
        add (.insn2 (mirMov kind) dst x)
        foldMinMax (mirMov kind) jmp optDst x (.beside optDst) dst (arg' :: args)) := by
      intro jmp
      rw [List.sum_cons]
      apply (harg _).bind
      intro x hx
      apply (newVar_emits kind).bind_zero
      intro dst hd
      exact (add_emits rfl).bind_zero fun _ _ => foldMinMax_emits _ _ hdst _ hrest _ hd
    have harith : ∀ op, Emits (n :: n' :: ns).sum (do
        let x ← arg (.beside optDst)
        foldArith op kind optDst (.beside optDst) x (arg' :: args)) := by
      intro op
      rw [List.sum_cons]
      exact (harg _).bind fun x hx => foldArith_emits _ _ hdst hrest _ hx
    cases op with
    | max | min =>
      rw [if_pos (by simpa [hasOperands] using hlen2)]
      exact hminmax _
    | add | mul | and | or | xor =>
      rw [if_pos (by simpa [hasOperands] using hlen2)]
      exact harith _
    | _ => exact error_none_emits _ _
  all_goals
    have hfew : hasOperands op es = false := by
      have hlen1 : ¬2 ≤ es.length := by
        rw [hlen]
        simp
      cases op <;> simp [hasOperands, hlen1]
    rw [if_neg (by simp [hfew])]
    cases op with
    | _ => exact error_none_emits _ _

theorem emitMov_emits (e : Expr) (kind : Kind) (mask : Mask) {mem : Expr} (hmem : CallFree mem) :
    Emits 0 (emitMov e kind mask .none mem) := by
  apply Ledger.Adds.ite
  · exact fun _ => error_none_emits _ _
  · intro _
    apply Ledger.Adds.ite
    · exact fun _ => .pure hmem
    · intro _
      apply Ledger.Adds.bind_zero
      · exact dstOr_emits none_callFree kind
      · exact fun dst hd => add_return_emits rfl hd

/-- Operands without calls emit none when they are simplified once more. -/
abbrev AgainEmitsNone (again : Expr → Mask → MirM Expr) : Prop :=
  ∀ e mask, CallFree e → Emits 0 (again e mask)

theorem emitMem_emits {again : Expr → Mask → MirM Expr} (hagain : AgainEmitsNone again) (e : Expr)
    (kind : Kind) {children : List Expr} (mask : Mask) (h : ∀ e ∈ children, CallFree e) :
    Emits 0 (emitMem again e kind children mask .none) := by
  have hoperands : OperandsEmit (children.map fun child mask => again child mask)
      (children.map fun _ => 0) := by
    clear e
    induction children with
    | nil => exact .nil
    | cons x xs ih =>
      rw [List.forall_mem_cons] at h
      exact .cons (fun mask => hagain _ _ h.1) (ih h.2)
  have hsum : Emits 0 (createMemOfSum again kind children) := by
    have htuple := simplifyTuple_emits (.tuple .ptr .add children .fresh) .ptr .add none_callFree
      hoperands children (by simp)
    rw [show (children.map fun _ => 0).sum = 0 by simp, ite_self] at htuple
    apply htuple.bind_zero
    intro arg harg
    exact createMem_emits kind (by simpa using harg)
  apply (createMem_emits kind h).bind_zero
  intro mem hmem
  apply Ledger.Adds.ite
  · exact fun _ => emitMov_emits _ _ _ hmem
  · exact fun _ => hsum.bind_zero fun mem hmem => emitMov_emits _ _ _ hmem

/-! ## Calls -/

theorem mirRets_callFree (es : List Expr) : CallFree (mirRets es) := by
  rw [CallFree, mirRets, callsIn]
  · rfl
  · simp

/-- What `prepare_call_results` returns without a destination: as many new variables as the function
type has results. -/
def PreparedVars (fn address : Expr) (res : Option (Expr × Expr)) : Prop :=
  if callable fn address then
    ∃ vars, res = some (mirRets vars, mirRets vars) ∧ vars.length = resultN fn
  else res = none

/-- What it returns for these destinations. -/
def PreparedDsts (fn address : Expr) (dsts : List Expr) (res : Option (Expr × Expr)) : Prop :=
  if callable fn address ∧ dsts.length = resultN fn then
    res = some (mirRets dsts, mirRets dsts)
  else res = none

theorem prepareCallResults_emits (call fn address : Expr) :
    callLedger.Adds 0 (prepareCallResults call fn address .none) (PreparedVars fn address) := by
  have herror : ∀ msg, callable fn address = false →
      callLedger.Adds 0 (do error (.expr call) msg; return none) (PreparedVars fn address) := by
    intro msg h
    apply (error_emits _ _).bind_zero
    intro _ _
    apply Ledger.Adds.pure
    simp [PreparedVars, h]
  unfold prepareCallResults
  split
  · next results params =>
    apply Ledger.Adds.ite
    · intro hvalid
      exact herror _ (by simpa [callable] using fun _ => hvalid)
    · intro hvalid
      apply Ledger.Adds.ite
      · intro h
        cases h
      · intro _
        apply (Ledger.Adds.mapM newVar_emits results).bind_zero
        intro vars hvars
        apply Ledger.Adds.pure
        rw [PreparedVars, if_pos (by simpa [callable, Expr.type] using hvalid)]
        exact ⟨vars, rfl, hvars.1⟩
  · next hfn =>
    apply herror
    cases fn with
    | ftype results params => exact absurd rfl (hfn results params)
    | _ => rfl

theorem prepareCallResults_dsts_emits (call fn address : Expr) (dsts : List Expr) :
    callLedger.Adds 0 (prepareCallResults call fn address (mirRets dsts))
      (PreparedDsts fn address dsts) := by
  have herror : ∀ node msg, ¬(callable fn address ∧ dsts.length = resultN fn) →
      callLedger.Adds 0 (do error node msg; return none) (PreparedDsts fn address dsts) := by
    intro node msg h
    apply (error_emits _ _).bind_zero
    intro _ _
    apply Ledger.Adds.pure
    rw [PreparedDsts, if_neg h]
  unfold prepareCallResults
  split
  · next results params =>
    apply Ledger.Adds.ite
    · intro hvalid
      apply herror
      intro h
      have haddress : address.isValid = true := by simpa [callable, Expr.type] using h.1
      simp [haddress] at hvalid
    · intro hvalid
      apply Ledger.Adds.ite
      · intro _
        dsimp only [mirRets]
        apply Ledger.Adds.ite
        · exact fun hlen => herror _ _ fun h => hlen h.2
        · intro hlen
          rw [if_neg (not_not_intro rfl)]
          apply Ledger.Adds.pure
          rw [PreparedDsts, if_pos ⟨by simpa [callable, Expr.type] using hvalid, not_not.mp hlen⟩]
          rfl
      · intro h
        exact absurd rfl h
  · next hfn =>
    apply herror
    intro h
    cases fn with
    | ftype results params => exact hfn results params rfl
    | _ => cases h.1

theorem add_call_emits {fn address results : Expr} (args : List Expr)
    (h : results.children.length = resultN fn) :
    callLedger.Adds 1 (add (.call fn address results args)) fun _ => True := by
  intro c hc
  refine ⟨?_, ?_, trivial⟩
  · intro i hi
    obtain hi | hi := List.mem_append.mp hi
    · exact hc i hi
    · rw [List.mem_singleton.mp hi]
      exact h
  · change (c.nodes ++ [Insn.call fn address results args]).countP Insn.isCall = _
    rw [List.countP_append]
    rfl

/-- `simplify(Call)`, after its results have been prepared. -/
theorem call_emits {fn address results : Expr} {n : Nat} {m : MirM (List Expr)}
    (hm : callLedger.Adds n m fun _ => True) (h : results.children.length = resultN fn)
    (ret : Expr) (hret : CallFree ret) :
    Emits (n + 1) (do
      let children ← m
      add (.call fn address results children)
      return ret) := by
  apply hm.bind
  intro children _
  exact (add_call_emits children h).then_zero fun _ _ => .pure hret

/-! ## All expressions -/

/-- A list of operands emits the calls of its elements, as a list and as the operands of a tuple. -/
theorem operands_emit {again : Expr → Mask → MirM Expr} {args : List Expr}
    (h : ∀ x ∈ args, ∀ mask, Emits (callsIn x) (simplifyWith again x mask .none)) :
    OperandsEmit (operands again args) (args.map callsIn) := by
  induction args with
  | nil => exact .nil
  | cons x xs ih =>
    rw [List.forall_mem_cons] at h
    rw [operands, List.map_cons]
    exact .cons h.1 (ih h.2)

theorem simplifyArgs_emits {again : Expr → Mask → MirM Expr} {args : List Expr} (mask : Mask)
    (h : ∀ x ∈ args, ∀ mask, Emits (callsIn x) (simplifyWith again x mask .none)) :
    callLedger.Adds (callsInList args) (simplifyArgs again args mask)
      fun es => ∀ e ∈ es, CallFree e := by
  induction args with
  | nil =>
    rw [simplifyArgs]
    exact .pure (by simp)
  | cons x xs ih =>
    rw [List.forall_mem_cons] at h
    rw [simplifyArgs, callsInList]
    apply (h.1 mask).bind
    intro e he
    apply (ih h.2).then_zero
    intro es hes
    exact .pure (List.forall_mem_cons.mpr ⟨he, hes⟩)

theorem callsInList_eq (es : List Expr) : callsInList es = (es.map callsIn).sum := by
  induction es with
  | nil => rfl
  | cons e es ih => rw [callsInList, ih, List.map_cons, List.sum_cons]

theorem callsIn_call (kind : Kind) (fn address : Expr) (args : List Expr) (p : Place) :
    callsIn (.tuple kind .call (fn :: address :: args) p) =
      if callable fn address then callsInList args + 1 else 0 := by rw [callsIn]

/-- An expression that is lowered without a destination emits each of its calls once. -/
theorem simplifyWith_emits {again : Expr → Mask → MirM Expr} (hagain : AgainEmitsNone again)
    (e : Expr) : ∀ mask, Emits (callsIn e) (simplifyWith again e mask .none) := by
  induction e using Expr.induct with
  | hnone =>
    intro mask
    rw [simplifyWith]
    · exact error_none_emits _ _
    all_goals simp
  | hftype results params =>
    intro mask
    rw [simplifyWith]
    · exact error_none_emits _ _
    all_goals simp
  | hconst v p =>
    intro mask
    rw [simplifyWith]
    exact .ite (fun _ => .pure rfl) fun _ => toVar_emits rfl rfl
  | hvar kind id =>
    intro mask
    rw [simplifyWith]
    exact .pure rfl
  | hlabel index address =>
    intro mask
    rw [simplifyWith]
    exact .pure rfl
  | hmem kind args p ih =>
    intro mask
    rw [simplifyWith, callsIn]
    exact (simplifyArgs_emits _ ih).then_zero fun children h => emitMem_emits hagain _ _ _ h
  | hunary kind op x p ih =>
    intro mask
    rw [simplifyWith, callsIn]
    exact (ih _).then_zero fun x' _ => emitUnary_emits _ _ _ rfl
  | hbinary kind op x y p ihx ihy =>
    intro mask
    rw [simplifyWith, callsIn]
    apply (ihx _).bind
    intro x' _
    exact (ihy _).then_zero fun y' _ => emitBinary_emits _ _ _ rfl
  | htuple kind op args p ih =>
    intro mask
    by_cases hop : op = .call
    · subst hop
      rcases args with _ | ⟨fn, _ | ⟨address, args⟩⟩
      case cons.cons =>
        rw [simplifyWith, callsIn_call]
        apply (prepareCallResults_emits _ fn address).bind_zero
        intro res hres
        rw [PreparedVars] at hres
        split at hres
        · next hcallable =>
          obtain ⟨vars, rfl, hlen⟩ := hres
          rw [if_pos hcallable]
          have hargs := simplifyArgs_emits .toVar fun x hx => ih x (.tail _ (.tail _ hx))
          have hchildren : (mirRets vars).children.length = resultN fn := hlen
          exact call_emits (hargs.weaken fun _ _ => trivial) hchildren _ (mirRets_callFree vars)
        · next hcallable =>
          rw [hres, if_neg hcallable]
          exact .pure rfl
      all_goals
        rw [simplifyWith, callsIn]
        · exact error_none_emits _ _
        all_goals simp
    · rw [simplifyWith, callsIn, callsInList_eq]
      · have hoperands := operands_emit ih
        have hlen : args.length = (operands again args).length := by
          rw [hoperands.length_eq, List.length_map]
        exact simplifyTuple_emits _ _ _ none_callFree hoperands args hlen
      all_goals simp [hop]

theorem simplify_emits (e : Expr) (mask : Mask) : Emits (callsIn e) (simplify e mask .none) := by
  apply simplifyWith_emits
  intro e mask he
  have h := @simplifyWith_emits (fun e _ => pure e) (fun e _ he => .pure he) e mask
  rwa [he] at h

/-- A call that is lowered with destinations for its results. -/
theorem simplify_call_emits (kind : Kind) (fn address : Expr) (args : List Expr) (p : Place)
    (mask : Mask) (dsts : List Expr) :
    callLedger.Adds
      (if callable fn address ∧ dsts.length = resultN fn then callsInList args + 1 else 0)
      (simplify (.tuple kind .call (fn :: address :: args) p) mask (mirRets dsts))
      fun _ => True := by
  rw [simplify, simplifyWith]
  apply (prepareCallResults_dsts_emits _ fn address dsts).bind_zero
  intro res hres
  rw [PreparedDsts] at hres
  split at hres
  · next h =>
    rw [hres, if_pos h]
    have hargs := @simplifyArgs_emits (fun e mask => simplifyWith (fun e _ => pure e) e mask .none) args
      .toVar fun x _ mask => simplify_emits x mask
    have hchildren : (mirRets dsts).children.length = resultN fn := h.2
    exact (call_emits (hargs.weaken fun _ _ => trivial) hchildren _
      (mirRets_callFree dsts)).weaken fun _ _ => trivial
  · next h =>
    rw [hres, if_neg h]
    exact .pure trivial

theorem callsIn_toExpr (e : Expr) : callsIn e.toExpr = callsIn e := by
  cases e <;> rfl

/-- The children of a statement that are simplified one after another. -/
theorem simplifyAll_emits (mask : Mask) (es : List Expr) :
    callLedger.Adds (callsInList es) (simplifyAll mask (es.map .expr)) fun es' =>
      es'.length = es.length := by
  induction es with
  | nil => exact .pure rfl
  | cons e es ih =>
    rw [List.map_cons, simplifyAll, callsInList, ← callsIn_toExpr]
    apply (simplify_emits e.toExpr mask).bind
    intro _ _
    apply ih.then_zero
    intro es' hlen
    exact .pure (by simp [hlen])

end Compiler

/-! ## Assignments of calls -/

/-- The children of an assignment of a call. -/
def callAssignArgs (dsts : List Expr) (call : Expr) : List Stmt := (dsts ++ [call]).map .expr

/-- A simplified operand stands for an operand: a variable for itself. -/
def StandsFor (e e' : Expr) : Prop := e.isVar → e' = e

/-- The call is emitted once, besides the calls in its destinations and arguments, and it stores its
results in the destinations. -/
structure LowersOnce (dsts : List Expr) (kind : Kind) (fn address : Expr) (args : List Expr)
    (p : Place) (insns : List Insn) : Prop where
  once : insns.countP Insn.isCall = callsInList dsts + callsInList args + 1
  stores : ∃ results vals, Insn.call fn address (mirRets results) vals ∈ insns ∧
    List.Forall₂ StandsFor dsts results ∧ List.Forall₂ StandsFor args vals

namespace Compiler

theorem callsInList_append (es es' : List Expr) :
    callsInList (es ++ es') = callsInList es + callsInList es' := by
  simp [callsInList_eq]

/-- The number of calls that are emitted: those of the destinations, the call as one more of them,
and the call. -/
theorem compileAssignCall_emits (dsts : List Expr) (kind : Kind) (fn address : Expr)
    (args : List Expr) (p : Place) :
    callLedger.Adds
      (callsInList dsts + (if callable fn address then callsInList args + 1 else 0) +
        if callable fn address ∧ dsts.length = resultN fn then callsInList args + 1 else 0)
      (compileAssignCall
        (callAssignArgs dsts (.tuple kind .call (fn :: address :: args) p)))
      fun _ => True := by
  have hlast : (callAssignArgs dsts (.tuple kind .call (fn :: address :: args) p)).getLast? =
      some (.expr (.tuple kind .call (fn :: address :: args) p)) := by
    rw [callAssignArgs, List.map_append, List.map_singleton, List.getLast?_concat]
  have hall := simplifyAll_emits .toVarOrMem (dsts ++ [.tuple kind .call (fn :: address :: args) p])
  rw [callsInList_append, callsInList, callsInList, Nat.add_zero, callsIn_call] at hall
  unfold compileAssignCall
  rw [hlast]
  dsimp only
  rw [if_pos (show isCall (.expr (.tuple kind .call (fn :: address :: args) p)) = true from rfl)]
  apply hall.bind
  intro all hlen
  have hdsts : all.dropLast.length = dsts.length := by simp [hlen]
  have hcall := simplify_call_emits kind fn address args p .toAny all.dropLast
  rw [hdsts] at hcall
  apply hcall.then_zero
  intro results _
  exact .ite (fun _ => error_emits _ _) fun _ => .pure trivial

/-- The call is never emitted once: where the destinations are as many as its results it is emitted
twice, and else its results are not the destinations. -/
theorem not_lowersOnce (dsts : List Expr) (kind : Kind) (fn address : Expr) (args : List Expr)
    (p : Place) (c : Compiler) :
    ¬LowersOnce dsts kind fn address args p (emitted (compileAssignCall
      (callAssignArgs dsts (.tuple kind .call (fn :: address :: args) p))) c) := by
  intro h
  obtain ⟨harity, hcount, -⟩ := compileAssignCall_emits dsts kind fn address args p
    { c with nodes := [] } (by simp [callLedger])
  change (emitted _ c).countP Insn.isCall = 0 + _ at hcount
  rw [h.once, Nat.zero_add] at hcount
  by_cases hcallable : callable fn address
  · obtain ⟨results, vals, hmem, hresults, -⟩ := h.stores
    have hlen : dsts.length = resultN fn := by
      rw [hresults.length_eq]
      exact harity _ hmem
    rw [if_pos hcallable, if_pos ⟨hcallable, hlen⟩] at hcount
    omega
  · rw [if_neg hcallable, if_neg fun h => hcallable h.1] at hcount
    omega

/-- A call of a function with one result, which is assigned to a variable. -/
theorem not_lowersOnce_oneResult : ¬∀ dsts kind fn address args p c,
    LowersOnce dsts kind fn address args p (emitted (compileAssignCall
      (callAssignArgs dsts (.tuple kind .call (fn :: address :: args) p))) c) := by
  intro h
  have honce := (h [.var .int64 0x1000] .int64 (.ftype [.int64] []) (.label 0 0) [] .fresh
    ⟨[.int64], 0, [], []⟩).once
  revert honce
  decide

end Compiler

end OneJit.Mir
