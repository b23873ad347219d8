import OneJit.FlowGraph
import OneJit.LabelStacks

/-!
# Labels and jumps of compiled code

Which labels a step of the compiler places, how often, and where its jumps go. A label that the
compiler takes is placed exactly once, by the step that takes it; expressions place no others.
-/

namespace OneJit

open Compiler CompileM

/-! ## Labels and targets of a list -/

/-- The jumps that `is_jump` lacks: `ASM_JLE`, the branches of the MIR family, and the node without
an operator that stands for the jump on a test which is no comparison. -/
def Stmt.isOtherJump : Stmt → Bool
  | stmt3 .badSt3 _ _ _ | stmt3 .asmJle _ _ _ | stmt3 (.mirBranch _) _ _ _ => true
  | _ => false

/-- The label that a goto or a conditional jump goes to. -/
def Stmt.target (st : Stmt) : Option (BitVec 16) :=
  if st.isJump || st.isOtherJump then st.jumpLabel else none

/-- How often the nodes place a label. -/
def placedIn (nodes : List Stmt) (i : BitVec 16) : Nat := (nodes.filterMap Stmt.labelIndex).count i

/-- Some node jumps to the label. -/
def IsTarget (nodes : List Stmt) (i : BitVec 16) : Prop := ∃ st ∈ nodes, st.target = some i

/-- Every label that is jumped to is placed exactly once. -/
def LabelsResolve (nodes : List Stmt) : Prop := ∀ i, IsTarget nodes i → placedIn nodes i = 1

theorem placedIn_append (xs ys : List Stmt) (i : BitVec 16) :
    placedIn (xs ++ ys) i = placedIn xs i + placedIn ys i := by
  rw [placedIn, List.filterMap_append, List.count_append]
  rfl

theorem isTarget_append {xs ys : List Stmt} {i : BitVec 16} :
    IsTarget (xs ++ ys) i ↔ IsTarget xs i ∨ IsTarget ys i := by
  simp only [IsTarget, List.mem_append, or_and_right, exists_or]

/-- One for the labels that were taken between two states. -/
def fresh (a b : Nat) (i : BitVec 16) : Nat := if a ≤ i.toNat ∧ i.toNat < b then 1 else 0

theorem fresh_add {a b d : Nat} (hab : a ≤ b) (hbd : b ≤ d) (i : BitVec 16) :
    fresh a b i + fresh b d i = fresh a d i := by
  unfold fresh
  split <;> split <;> split <;> omega

theorem fresh_self (a : Nat) (i : BitVec 16) : fresh a a i = 0 := by
  unfold fresh
  rw [if_neg (by omega)]

/-- A label that was taken has the number of labels for its index. -/
theorem newLabel_count (c : Compiler) (i : BitVec 16) :
    (newLabel c).1.labelIndex.toList.count i = fresh c.labels (newLabel c).2.2.labels i := by
  rw [newLabel]
  split
  · next h =>
    have hmod : c.labels % 2 ^ 16 = c.labels := Nat.mod_eq_of_lt (by omega)
    have hiff : BitVec.ofNat 16 c.labels = i ↔ c.labels ≤ i.toNat ∧ i.toNat < c.labels + 1 := by
      rw [← BitVec.toNat_inj, BitVec.toNat_ofNat, hmod]
      omega
    dsimp only [Expr.labelIndex, Option.toList]
    rw [List.count_singleton, fresh]
    simp only [beq_iff_eq, hiff]
  · rw [fresh_self]
    rfl

/-! ## What a step emits -/

/-- The labels that a piece of the input places, those it may jump to, and those it jumps to. -/
@[ext] structure Layout where
  placed : List (BitVec 16)
  targets : List (BitVec 16)
  sure : List (BitVec 16)
  sure_sub : ∀ i ∈ sure, i ∈ targets

namespace Layout

/-- Labels without jumps. -/
def labels (placed : List (BitVec 16)) : Layout := ⟨placed, [], [], fun _ => id⟩

def empty : Layout := labels []

/-- A label. -/
def label (l : Option (BitVec 16)) : Layout := labels l.toList

/-- A jump, which the compiler may leave out where it decides the test. -/
def jumpIf (target : Option (BitVec 16)) (mayDecide : Bool) : Layout where
  placed := []
  targets := target.toList
  sure := if mayDecide then [] else target.toList
  sure_sub := by
    split
    · nofun
    · exact fun _ => id

/-- A jump, or a node that is none. -/
def jump (target : Option (BitVec 16)) : Layout := jumpIf target false

def append (a b : Layout) : Layout where
  placed := a.placed ++ b.placed
  targets := a.targets ++ b.targets
  sure := a.sure ++ b.sure
  sure_sub i hi := by
    rw [List.mem_append] at hi ⊢
    exact hi.imp (a.sure_sub i) (b.sure_sub i)

instance : Append Layout := ⟨append⟩

@[simp] theorem placed_append (a b : Layout) : (a ++ b).placed = a.placed ++ b.placed := rfl
@[simp] theorem targets_append (a b : Layout) : (a ++ b).targets = a.targets ++ b.targets := rfl
@[simp] theorem sure_append (a b : Layout) : (a ++ b).sure = a.sure ++ b.sure := rfl

@[simp] theorem empty_append (a : Layout) : empty ++ a = a := rfl

@[simp] theorem append_empty (a : Layout) : a ++ empty = a := by
  ext1
  all_goals exact List.append_nil _

@[simp] theorem label_none : label none = empty := rfl
@[simp] theorem jump_none : jump none = empty := rfl

end Layout

/-- The labels on the stacks are known. -/
def StacksIn (known : BitVec 16 → Prop) (c : Compiler) : Prop :=
  ∀ l ∈ c.breaks ++ c.continues ++ c.fallthroughs, ∀ i, l.labelIndex = some i → known i

/-- A step between these states places each label it takes once, and else those of the layout. It
jumps to labels that it takes, that are known, or that are targets of the layout. -/
structure Emits (known : BitVec 16 → Prop) (lay : Layout) (c : Compiler) (o : Output)
    (c' : Compiler) : Prop where
  restored : Restored c c'
  placed : ∀ i, placedIn o.nodes i = fresh c.labels c'.labels i + lay.placed.count i
  targets : ∀ i, IsTarget o.nodes i →
    i ∈ lay.targets ∨ known i ∨ (c.labels ≤ i.toNat ∧ i.toNat < c'.labels)
  sure : ∀ i ∈ lay.sure, IsTarget o.nodes i

/-- Every run of the step emits the layout. -/
def Lays {α : Type} (known : BitVec 16 → Prop) (m : CompileM α) (lay : Layout) : Prop :=
  ∀ c, StacksIn known c → Emits known lay c (m c).2.1 (m c).2.2

/-- The label is added to those that are known. -/
def knownWith (known : BitVec 16 → Prop) (l : Expr) (i : BitVec 16) : Prop :=
  known i ∨ l.labelIndex = some i

namespace Lays

variable {α β : Type} {known : BitVec 16 → Prop} {m : CompileM α} {lay lay' : Layout}

/-- Two layouts with the same labels and targets. -/
theorem congr (h : Lays known m lay) (hplaced : ∀ i, lay'.placed.count i = lay.placed.count i)
    (htargets : ∀ i ∈ lay.targets, i ∈ lay'.targets) (hsure : ∀ i ∈ lay'.sure, i ∈ lay.sure) :
    Lays known m lay' := by
  intro c hc
  obtain ⟨hrestored, hp, ht, hs⟩ := h c hc
  refine ⟨hrestored, ?_, ?_, ?_⟩
  · intro i
    rw [hp, hplaced]
  · intro i hi
    exact (ht i hi).imp (htargets i) id
  · intro i hi
    exact hs i (hsure i hi)

/-- A step that emits nothing and takes no label. -/
theorem silent (hm : ∀ c, (m c).2.1.nodes = [] ∧ (m c).2.2.labels = c.labels ∧
    SameStacks c (m c).2.2) : Lays known m .empty := by
  intro c _
  obtain ⟨hnodes, hlabels, hstacks⟩ := hm c
  refine ⟨⟨hstacks, hlabels.ge⟩, ?_, ?_, nofun⟩
  · intro i
    rw [hnodes, hlabels, fresh_self]
    rfl
  · rintro i ⟨st, hst, -⟩
    rw [hnodes] at hst
    cases hst

theorem pure (a : α) : Lays known (Pure.pure a) .empty := silent fun c => ⟨rfl, rfl, .refl c⟩

theorem stacksIn {c c' : Compiler} (h : StacksIn known c) (hsame : SameStacks c c') :
    StacksIn known c' := by
  rw [StacksIn, hsame.breaks, hsame.continues, hsame.fallthroughs]
  exact h

/-- A sequence, where the rest may rely on what the first step returns. -/
theorem bind_of {f : α → CompileM β} {P : α → Prop} (hP : Returns P m) (h : Lays known m lay)
    (hf : ∀ a, P a → Lays known (f a) lay') : Lays known (m >>= f) (lay ++ lay') := by
  intro c hc
  have hm := h c hc
  have hrest := hf (m c).1 (hP c) (m c).2.2 (stacksIn hc hm.restored.1)
  have hgrow := hm.restored.2
  have hgrow' := hrest.restored.2
  rw [bind_run]
  dsimp only
  refine ⟨hm.restored.trans hrest.restored, ?_, ?_, ?_⟩
  · intro i
    have hfresh := fresh_add hgrow hgrow' i
    have hfirst := hm.placed i
    have hsecond := hrest.placed i
    rw [Output.nodes_append, placedIn_append, Layout.placed_append, List.count_append]
    omega
  · intro i hi
    rw [Output.nodes_append, isTarget_append] at hi
    rw [Layout.targets_append, List.mem_append]
    obtain hi | hi := hi
    · obtain ht | hk | hr := hm.targets i hi
      · exact .inl (.inl ht)
      · exact .inr (.inl hk)
      · exact .inr (.inr (by omega))
    · obtain ht | hk | hr := hrest.targets i hi
      · exact .inl (.inr ht)
      · exact .inr (.inl hk)
      · exact .inr (.inr (by omega))
  · intro i hi
    rw [Layout.sure_append, List.mem_append] at hi
    rw [Output.nodes_append, isTarget_append]
    exact hi.imp (hm.sure i) (hrest.sure i)

theorem bind {f : α → CompileM β} (h : Lays known m lay) (hf : ∀ a, Lays known (f a) lay') :
    Lays known (m >>= f) (lay ++ lay') :=
  bind_of (Returns.trivial m) h fun a _ => hf a

/-- The first of two steps emits what both do. -/
theorem then_silent {f : α → CompileM β} (h : Lays known m lay)
    (hf : ∀ a, Lays known (f a) .empty) : Lays known (m >>= f) lay := by
  have hbind := h.bind hf
  rwa [Layout.append_empty] at hbind

/-- The second of two steps emits what both do. -/
theorem silent_then {f : α → CompileM β} (h : Lays known m .empty)
    (hf : ∀ a, Lays known (f a) lay) : Lays known (m >>= f) lay :=
  h.bind hf

theorem silent_then_of {f : α → CompileM β} {P : α → Prop} (hP : Returns P m)
    (h : Lays known m .empty) (hf : ∀ a, P a → Lays known (f a) lay) :
    Lays known (m >>= f) lay :=
  bind_of hP h hf

theorem map (f : α → β) (h : Lays known m lay) : Lays known (f <$> m) lay :=
  h.then_silent (f := fun a => Pure.pure (f a)) fun _ => pure _

theorem ite (p : Prop) [Decidable p] {m' : CompileM α} (hm : Lays known m lay)
    (hm' : Lays known m' lay) : Lays known (if p then m else m') lay := by
  split
  · exact hm
  · exact hm'

/-- The label that is taken first is placed by the rest of the step. -/
theorem newLabel_bind {f : Expr → CompileM β}
    (hf : ∀ l, Lays (knownWith known l) (f l) (.label l.labelIndex ++ lay)) :
    Lays known (newLabel >>= f) lay := by
  intro c hc
  have hrestored := restored_basic.newLabel c
  have hcount := newLabel_count c
  have hout := newLabel_output c
  have hrest := hf (newLabel c).1 (newLabel c).2.2 (fun l hl i hi =>
    .inl (stacksIn hc hrestored.1 l hl i hi))
  have hgrow := hrestored.2
  have hgrow' := hrest.restored.2
  rw [bind_run, hout, Output.empty_append]
  dsimp only
  refine ⟨hrestored.trans hrest.restored, ?_, ?_, ?_⟩
  · intro i
    have hfresh := fresh_add hgrow hgrow' i
    have hplaced := hrest.placed i
    have hlabel := hcount i
    rw [Layout.placed_append, List.count_append] at hplaced
    dsimp only [Layout.label, Layout.labels] at hplaced
    omega
  · intro i hi
    obtain ht | (hk | hl) | hr := hrest.targets i hi
    · exact .inl ht
    · exact .inr (.inl hk)
    · have hlabel := hcount i
      rw [hl, Option.toList_some, List.count_singleton_self, fresh] at hlabel
      split at hlabel
      · exact .inr (.inr (by omega))
      · cases hlabel
    · exact .inr (.inr (by omega))
  · exact hrest.sure

theorem isVoidConst_inert {st : Stmt} (h : isVoidConst st) :
    st.labelIndex = none ∧ st.target = none := by
  cases st with
  | expr e => cases e <;> first | exact ⟨rfl, rfl⟩ | cases h
  | _ => cases h

/-- An appended node that is no label. -/
theorem node {st : Stmt} (hlabel : st.labelIndex = none) :
    Lays known (add st) (.jump st.target) := by
  intro c _
  have hplaced : ∀ i, placedIn (add st c).2.1.nodes i = 0 := by
    intro i
    dsimp only [add]
    split
    · rfl
    · rw [placedIn, List.filterMap_cons, hlabel]
      rfl
  have htarget : ∀ i, IsTarget (add st c).2.1.nodes i ↔ i ∈ st.target.toList := by
    intro i
    rw [Option.mem_toList]
    dsimp only [add]
    split
    · next h =>
      rw [(isVoidConst_inert h).2]
      constructor
      · rintro ⟨_, hst, -⟩
        cases hst
      · nofun
    · exact ⟨fun ⟨st', hst, h⟩ => List.mem_singleton.mp hst ▸ h,
        fun h => ⟨st, List.mem_singleton_self st, h⟩⟩
  refine ⟨restored_basic.refl c, ?_, ?_, ?_⟩
  · intro i
    change _ = fresh c.labels c.labels i + _
    rw [hplaced, fresh_self]
    rfl
  · exact fun i hi => .inl ((htarget i).mp hi)
  · exact fun i hi => (htarget i).mpr hi

theorem expr_target (e : Expr) : (Stmt.expr e).target = none := rfl

/-- An appended expression, which may be a label. -/
theorem place (e : Expr) : Lays known (add (.expr e)) (.label e.labelIndex) := by
  cases hlabel : e.labelIndex with
  | none =>
    have hnode : Lays known (add (.expr e)) (.jump (Stmt.expr e).target) := node hlabel
    rwa [expr_target] at hnode
  | some j =>
    have hvoid : isVoidConst (.expr e) = false := by
      cases e with
      | label _ _ => rfl
      | _ => cases hlabel
    intro c _
    have hnodes : (add (.expr e) c).2.1.nodes = [.expr e] := by
      dsimp only [add]
      rw [hvoid]
      rfl
    refine ⟨restored_basic.refl c, ?_, ?_, nofun⟩
    · intro i
      change _ = fresh c.labels c.labels i + _
      have hlabel' : (Stmt.expr e).labelIndex = some j := hlabel
      rw [hnodes, fresh_self, Nat.zero_add, placedIn, List.filterMap_cons, hlabel']
      rfl
    · rintro i ⟨st, hst, htarget⟩
      rw [hnodes, List.mem_singleton] at hst
      rw [hst, expr_target] at htarget
      cases htarget

theorem to_known (h : Lays known m lay)
    (htargets : ∀ i ∈ lay.targets, known i) : Lays known m (.labels lay.placed) := by
  intro c hc
  obtain ⟨hrestored, hp, ht, hs⟩ := h c hc
  exact ⟨hrestored, hp, fun i hi => .inr ((ht i hi).elim (.inl ∘ htargets i) id), nofun⟩

/-- A node that jumps to a known label, or does not jump. -/
theorem jump {st : Stmt} (hlabel : st.labelIndex = none)
    (htarget : ∀ i, st.target = some i → known i) : Lays known (add st) .empty := by
  refine (node hlabel).to_known ?_
  exact fun i hi => htarget i (Option.mem_toList.mp hi)

theorem newVar (kind : Kind) : Lays known (newVar kind) .empty := by
  apply silent
  intro c
  refine ⟨?_, ?_, (restored_basic.newVar kind c).1⟩
  all_goals
    unfold Compiler.newVar
    dsimp only
    split <;> rfl

theorem error (node : Stmt) (msg : String) : Lays known (error node msg) .empty :=
  silent fun c => ⟨rfl, rfl, .refl c⟩

theorem assign (op : OpStmt2) (hop : op.isAssign) (dst src : Expr) :
    Lays known (add (.assign op dst src)) .empty := by
  have htarget : (Stmt.assign op dst src).target = none := by
    cases op <;> first | rfl | cases hop
  exact jump rfl fun i hi => nomatch htarget.symm.trans hi

end Lays

/-! ## Expressions -/

namespace Expr

mutual

/-- No logical operator has a label for its left operand. The compiler would place it. -/
def labelsApart : Expr → Bool
  | unary _ _ x _ => labelsApart x
  | binary _ op x y _ =>
    (op != .land && op != .lor || (labelOf x).isNone) && labelsApart x && labelsApart y
  | mem _ args _ => labelsApartAll args
  | tuple _ _ args _ => labelsApartAll args
  | _ => true

def labelsApartAll : List Expr → Bool
  | [] => true
  | x :: xs => labelsApart x && labelsApartAll xs

end

/-- The compiler may decide a jump on this test. -/
def mayDecide : Expr → Bool
  | unary _ op x _ => op == .not1 && mayDecide x
  | binary _ op x y _ =>
    if op = .land ∨ op = .lor then mayDecide x || mayDecide y
    else (constantOf x).isSome && (constantOf y).isSome
  | e => (constantOf e).isSome

theorem labelsApart_copy {e : Expr} (h : IsCopy e) : e.labelsApart := by
  obtain rfl | ⟨k, id, rfl⟩ := h <;> rfl

theorem labelsApart_toExpr {e : Expr} (h : e.labelsApart) : e.toExpr.labelsApart := by
  unfold toExpr
  split
  · exact h
  · rfl

theorem labelsApart_ofValue (v : Value) : (ofValue v).labelsApart := by
  unfold ofValue
  split <;> rfl

theorem labelsApart_binary {k : Kind} {op : Op2} {x y : Expr} {p : Place} :
    (binary k op x y p).labelsApart ↔
      (op = .land ∨ op = .lor → labelOf x = Option.none) ∧ x.labelsApart ∧ y.labelsApart := by
  rw [labelsApart]
  cases op <;> simp [and_assoc]

end Expr

open Expr

section Apart

variable {again : Expr → CompileM Compiled}

theorem toVarMemConst_apart {e : Expr} (h : e.labelsApart) (comp : CompileM Compiled) :
    Returns (fun r => r.1.labelsApart) (toVarMemConst e comp) := by
  intro c
  obtain he | ⟨he, -, -⟩ := toVarMemConst_cases e comp c
  · rw [he]
    exact h
  · exact labelsApart_copy he

theorem rebuildChildren_apart {e : Expr} (he : e.labelsApart) (k : Kind) (op : OpN)
    {nodes : List Expr} (hnodes : labelsApartAll nodes) (changed : Bool) :
    (rebuildChildren e k op nodes changed).1.labelsApart := by
  have hkept : (if changed then (tuple k op nodes .fresh, true) else (e, false)).1.labelsApart := by
    split
    · exact hnodes
    · exact he
  unfold rebuildChildren
  split
  · cases nodes with
    | nil => exact labelsApart_ofValue _
    | cons x xs =>
      cases xs with
      | nil =>
        rw [labelsApartAll, Bool.and_eq_true] at hnodes
        exact labelsApart_toExpr hnodes.1
      | cons y ys => exact hkept
  · exact hkept

/-- What an expression compiles to keeps its labels apart. -/
theorem compileExprWith_apart (again : Expr → CompileM Compiled) :
    (∀ e : Expr, e.labelsApart → Returns (fun r => r.1.labelsApart) (compileExprWith again e)) ∧
    (∀ _ : List Expr, True) ∧
    (∀ args, labelsApartAll args →
      Returns (fun r => labelsApartAll r.1) (compileChildren again args)) := by
  have hshape := (compileExprWith_shape again).1
  have hsettled := (compileExprWith_settled again).1
  apply compileExprWith.mutual_induct
  case case1 =>
    intro k op x p hx hapart
    refine (hx hapart).bind fun r hr => .pure ?_
    split
    · exact hr
    · exact hapart
  case case2 =>
    intro k op x y p hx hy hapart
    obtain ⟨hlabel, hax, hay⟩ := labelsApart_binary.mp hapart
    have hxs : Returns (fun r => (HasShape x r.1 ∧ HasShape r.1 r.1) ∧ r.1.labelsApart)
        (compileExprWith again x) := fun c => ⟨⟨hshape x c, hsettled x c⟩, hx hax c⟩
    refine hxs.bind fun x' hx' => (hy hay).bind fun y' hy' => ?_
    have hcases := simplifyBoolean_cases again op x'.1 y'.1
    refine Returns.bind hcases fun e he => .pure ?_
    split
    · obtain rfl | rfl | h := he
      · exact hx'.2
      · exact hy'
      · exact labelsApart_copy h
    · split
      · refine labelsApart_binary.mpr ⟨fun hop => ?_, hx'.2, hy'⟩
        rw [← hx'.1.2.label, hx'.1.1.label]
        exact hlabel hop
      · exact hapart
  case case3 =>
    intro k args p hargs hapart
    exact (hargs hapart).bind fun r hr => .pure (rebuildChildren_apart hapart _ _ hr _)
  case case4 =>
    intro k fn address args p hvars hapart
    rw [compileExprWith, if_pos hvars]
    exact .bind_const fun call => (newVar_isCopy _).bind fun v hv => .bind_const fun _ =>
      .pure (labelsApart_copy hv)
  case case5 =>
    intro k fn address args p hvars hargs hapart
    rw [compileExprWith, if_neg hvars]
    exact .bind_const fun call => (newVar_isCopy _).bind fun v hv => .bind_const fun _ =>
      .pure (labelsApart_copy hv)
  case case6 =>
    intro k op args p hop hargs hapart
    rw [compileExprWith]
    · exact (hargs hapart).bind fun r hr => .pure (rebuildChildren_apart hapart _ _ hr _)
    · exact hop
  case case7 =>
    intro e hunary hbinary hmem hcall htuple hapart
    rw [compileExprWith]
    · exact .pure hapart
    all_goals assumption
  case case8 | case9 => intros; trivial
  case case10 => exact fun _ => .pure rfl
  case case11 =>
    intro xs hxs hapart
    rw [labelsApartAll, Bool.and_eq_true] at hapart
    refine .bind_const fun _ => (hxs hapart.2).bind fun r hr => .pure ?_
    rw [labelsApartAll, hr]
    rfl
  case case12 =>
    intro x xs hx hcomp hxs hapart
    rw [labelsApartAll, Bool.and_eq_true] at hapart
    rw [compileChildren]
    · refine (hcomp hapart.1).bind fun x' hx' => ?_
      refine (toVarMemConst_apart hx' _).bind fun node hnode => ?_
      refine (hxs hapart.2).bind fun r hr => .pure ?_
      rw [labelsApartAll, hnode, hr]
      rfl
    · exact hx

theorem compileExpr_apart {e : Expr} (h : e.labelsApart) :
    Returns (fun r => r.1.labelsApart) (compileExpr e) :=
  (compileExprWith_apart fun e => pure (e, false)).1 e h

end Apart

/-! ## Tests that the compiler leaves open -/

section MayDecide

/-- The value that `compileJumpIf` decides on. -/
def testConstant (test : Expr) : Option Value :=
  constTest (testOperands (peelNot test).2).1 (testOperands (peelNot test).2).2.1
    (testOperands (peelNot test).2).2.2

theorem constTest_eq_none {op : Op2} {x y : Expr} (h : value? x = .none ∨ value? y = .none) :
    constTest op x y = .none := by
  unfold constTest
  split
  · obtain h | h := h <;> cases h
  · rfl

theorem value?_toExpr (e : Expr) : value? e.toExpr = value? e := by
  cases e <;> rfl

/-- A node that is no operator with one or two operands. -/
def isPlain : Expr → Bool
  | .unary _ _ _ _ | .binary _ _ _ _ _ => false
  | _ => true

theorem testConstant_of_isPlain {e : Expr} (h : isPlain e) (hvalue : value? e = .none) :
    testConstant e = .none := by
  cases e with
  | unary k op x p => cases h
  | binary k op x y p => cases h
  | _ => exact constTest_eq_none (.inl hvalue)

theorem mayDecide_of_isPlain {e : Expr} (h : isPlain e) :
    e.mayDecide = (constantOf e).isSome := by
  cases e with
  | unary k op x p => cases h
  | binary k op x y p => cases h
  | _ => rfl

theorem isPlain_copy {e : Expr} (h : IsCopy e) : isPlain e := by
  obtain rfl | ⟨k, id, rfl⟩ := h <;> rfl

theorem constantOf_of_mayDecide (e : Expr) (h : e.mayDecide = false) : constantOf e = .none := by
  induction e using Expr.induct with
  | hunary => rfl
  | hbinary k op x y p hx hy =>
    rw [Expr.mayDecide] at h
    rw [constantOf]
    split at h
    · next hop =>
      rw [Bool.or_eq_false_iff] at h
      rw [hx h.1, hy h.2]
      obtain rfl | rfl := hop <;> rfl
    · next hop =>
      rw [not_or] at hop
      rw [booleanConstant]
      · exact hop.1
      · exact hop.2
  | _ => exact Option.not_isSome_iff_eq_none.mp (Bool.eq_false_iff.mp h)

theorem testConstant_of_mayDecide (e : Expr) (h : e.mayDecide = false) : testConstant e = .none := by
  have hvalue : ∀ x : Expr, constantOf x = .none → value? x = .none := by
    intro x hx
    cases x <;> first | rfl | cases hx
  induction e using Expr.induct with
  | hunary k op x p hx =>
    rw [Expr.mayDecide] at h
    by_cases hop : op = .not1
    · subst hop
      exact hx h
    · rw [testConstant, peelNot, if_neg hop]
      exact constTest_eq_none (.inl rfl)
  | hbinary k op x y p hx hy =>
    rw [Expr.mayDecide] at h
    rw [testConstant, peelNot, testOperands]
    · by_cases hbad : op = .bad2
      · rw [if_pos hbad]
        exact constTest_eq_none (.inl rfl)
      rw [if_neg hbad]
      apply constTest_eq_none
      rw [value?_toExpr, value?_toExpr]
      split at h
      · rw [Bool.or_eq_false_iff] at h
        exact .inl (hvalue x (constantOf_of_mayDecide x h.1))
      · rw [Bool.and_eq_false_iff, Option.isSome_eq_false_iff, Option.isSome_eq_false_iff,
          Option.isNone_iff_eq_none, Option.isNone_iff_eq_none] at h
        exact h.imp (hvalue x) (hvalue y)
    · nofun
  | _ =>
    refine testConstant_of_isPlain rfl (hvalue _ ?_)
    exact Option.not_isSome_iff_eq_none.mp (Bool.eq_false_iff.mp h)

/-- A child of an n-ary operator is compiled to a plain node. -/
theorem isPlain_toVarMemConst (e : Expr) (comp : CompileM Compiled) :
    Returns (fun r => isPlain r.1) (toVarMemConst e comp) := by
  have hcopy : Returns (fun r => isPlain r.1) (do return (← toVar e comp, true)) :=
    (toVar_isCopy e comp).bind fun v hv => .pure (isPlain_copy hv)
  cases e with
  | const _ _ | var _ _ | mem _ _ _ | label _ _ => exact .pure rfl
  | _ => exact hcopy

theorem isPlain_rebuildChildren {e : Expr} (he : isPlain e) (k : Kind) (op : OpN)
    {nodes : List Expr} (hnodes : ∀ x ∈ nodes, isPlain x) (changed : Bool) :
    isPlain (rebuildChildren e k op nodes changed).1 := by
  have hkept : isPlain (if changed then (tuple k op nodes .fresh, true) else (e, false)).1 := by
    split
    · rfl
    · exact he
  unfold rebuildChildren
  split
  · cases nodes with
    | nil =>
      change isPlain (ofValue _)
      unfold ofValue
      split <;> rfl
    | cons x xs =>
      cases xs with
      | nil =>
        change isPlain x.toExpr
        unfold Expr.toExpr
        split
        · exact hnodes x (List.mem_singleton_self x)
        · rfl
      | cons y ys => exact hkept
  · exact hkept

theorem isPlain_compileChildren (again : Expr → CompileM Compiled) (args : List Expr) :
    Returns (fun r => ∀ x ∈ r.1, isPlain x) (compileChildren again args) := by
  induction args with
  | nil => exact .pure nofun
  | cons x xs ih =>
    by_cases hx : x = .none
    · subst hx
      refine .bind_const fun _ => ih.bind fun r hr => .pure ?_
      exact List.forall_mem_cons.mpr ⟨rfl, hr⟩
    · rw [compileChildren]
      · refine .bind_const fun x' => (isPlain_toVarMemConst _ _).bind fun node hnode => ?_
        exact ih.bind fun r hr => .pure (List.forall_mem_cons.mpr ⟨hnode, hr⟩)
      · exact hx

/-- A test that the compiler leaves open compiles to one. -/
theorem compileExpr_mayDecide (e : Expr) (h : e.mayDecide = false) :
    Returns (fun r => r.1.mayDecide = false) (compileExpr e) := by
  have hshape := (compileExprWith_shape fun e => pure (e, false)).1
  have hsettled := (compileExprWith_settled fun e => pure (e, false)).1
  have hplain : ∀ e : Expr, e.mayDecide = false → Returns (fun r => isPlain r.1) (compileExpr e) →
      Returns (fun r => r.1.mayDecide = false) (compileExpr e) := by
    intro e he hr c
    rw [mayDecide_of_isPlain (hr c), ← (compileExpr_settled e c).value, (compileExpr_shape e c).value,
      constantOf_of_mayDecide e he]
    rfl
  unfold compileExpr at hplain ⊢
  induction e using Expr.induct with
  | hunary k op x p hx =>
    rw [Expr.mayDecide, Bool.and_eq_false_iff] at h
    intro c
    by_cases hop : op = .not1
    · subst hop
      have hxc := hx (h.resolve_left nofun) c
      rw [compileExprWith, bind_run]
      dsimp only [pure_run]
      split
      · exact hxc
      · exact h.resolve_left nofun
    · have hbeq : (op == .not1) = false := beq_eq_false_iff_ne.mpr hop
      rw [compileExprWith, bind_run]
      dsimp only [pure_run]
      split
      · change (op == .not1 && _) = false
        rw [hbeq]
        rfl
      · change (op == .not1 && _) = false
        rw [hbeq]
        rfl
  | hbinary k op x y p hx hy =>
    have hrun : ∀ x : Expr, Returns (fun r => HasShape x r.1 ∧ HasShape r.1 r.1)
        (compileExprWith (fun e => pure (e, false)) x) := fun x c => ⟨hshape x c, hsettled x c⟩
    have hbinary := h
    rw [Expr.mayDecide] at h
    by_cases hop : op = .land ∨ op = .lor
    · rw [if_pos hop, Bool.or_eq_false_iff] at h
      refine (hx h.1).bind fun x' hx' => (hy h.2).bind fun y' hy' => ?_
      refine (simplifyBoolean_cases _ op x'.1 y'.1).bind fun e he => .pure ?_
      split
      · obtain rfl | rfl | he := he
        · exact hx'
        · exact hy'
        · obtain rfl | ⟨k, id, rfl⟩ := he <;> rfl
      · split
        · rw [newBinary, Expr.mayDecide, if_pos hop, hx', hy']
          rfl
        · exact hbinary
    · rw [if_neg hop] at h
      refine (hrun x).bind fun x' hx' => (hrun y).bind fun y' hy' => ?_
      have hnone : Returns (· = .none)
          (simplifyBoolean (fun e => pure (e, false)) op x'.1 y'.1) := by
        rw [not_or] at hop
        rw [simplifyBoolean]
        · exact .pure rfl
        · exact hop.1
        · exact hop.2
      refine hnone.bind fun e he => .pure ?_
      subst he
      rw [if_neg (by decide)]
      split
      · rw [newBinary, Expr.mayDecide, if_neg hop, ← hx'.2.value, ← hy'.2.value, hx'.1.value,
          hy'.1.value]
        exact h
      · exact hbinary
  | hmem k args p _ =>
    refine hplain _ h ?_
    exact (isPlain_compileChildren _ args).bind fun r hr =>
      .pure (isPlain_rebuildChildren (e := .mem k args p) rfl _ _ hr _)
  | htuple k op args p _ =>
    refine hplain _ h ?_
    by_cases hcall : op = .call ∧ ∃ fn address rest, args = fn :: address :: rest
    · obtain ⟨rfl, fn, address, rest, rfl⟩ := hcall
      rw [compileExprWith]
      refine .ite _ (fun _ => .bind_const fun _ => ?_) fun _ => .bind_const fun _ => ?_
      all_goals
        exact (newVar_isCopy _).bind fun v hv => .bind_const fun _ => .pure (isPlain_copy hv)
    · rw [compileExprWith]
      · exact (isPlain_compileChildren _ args).bind fun r hr =>
          .pure (isPlain_rebuildChildren (e := .tuple k op args p) rfl _ _ hr _)
      · rintro fn address rest rfl rfl
        exact hcall ⟨rfl, fn, address, rest, rfl⟩
  | _ => exact .pure h

end MayDecide

namespace Lays

variable {α : Type} {known : BitVec 16 → Prop} {lay : Layout}

theorem compileAssign {place : CompileM Expr} {comp : CompileM Compiled} (op : OpStmt2)
    (hop : op.isAssign) (dst src : Expr) (hplace : Lays known place .empty)
    (hcomp : Lays known comp .empty) : Lays known (compileAssign op dst src place comp) .empty := by
  refine hplace.silent_then fun compDst => hcomp.silent_then fun compSrc => ?_
  dsimp only
  exact ite _ (assign op hop _ _) (assign op hop _ _)

theorem toVar {comp : CompileM Compiled} (e : Expr) (hcomp : Lays known comp .empty) :
    Lays known (toVar e comp) .empty := by
  refine ite _ (pure _) (ite _ ?_ (pure _))
  refine (newVar _).silent_then fun v => then_silent ?_ fun _ => pure _
  exact compileAssign _ rfl _ _ (pure _) hcomp

theorem toVarMemConst (e : Expr) {comp : CompileM Compiled} (hcomp : Lays known comp .empty) :
    Lays known (toVarMemConst e comp) .empty := by
  unfold Compiler.toVarMemConst
  split <;> first
    | exact pure _
    | exact (toVar _ hcomp).then_silent fun _ => pure _

theorem toVarConst (e : Expr) {comp : CompileM Compiled} (hcomp : Lays known comp .empty) :
    Lays known (toVarConst e comp) .empty := by
  unfold Compiler.toVarConst
  split <;> first
    | exact pure _
    | exact toVar _ hcomp

/-- The jump that a test is lowered to. -/
theorem target_condjump (negate : Bool) (op : Op2) (isSigned : Bool) (target x y : Expr) :
    (Stmt.stmt3 (if negate then (comparisonToCondjump op isSigned).negateCondjump
      else comparisonToCondjump op isSigned) (.expr target) (.expr x) (.expr y)).target =
      target.labelIndex := by
  cases negate <;> cases isSigned <;> cases op <;> rfl

theorem condjump (negate : Bool) (op : Op2) (isSigned : Bool) (target x y : Expr) :
    Lays known (add (.stmt3 (if negate then (comparisonToCondjump op isSigned).negateCondjump
      else comparisonToCondjump op isSigned) (.expr target) (.expr x) (.expr y)))
      (.jump target.labelIndex) := by
  rw [← target_condjump negate op isSigned target x y]
  exact node rfl

/-- A jump on a test, whether the compiler decides it or not. -/
theorem compileJumpIf {comp : CompileM Compiled} {target : Expr} (hcomp : Lays known comp .empty) :
    Lays known (compileJumpIf target comp) (.jumpIf target.labelIndex true) := by
  have hgoto : Lays known (add (.goto target)) (.jumpIf target.labelIndex true) :=
    (node rfl).congr (fun _ => rfl) (fun _ => id) nofun
  refine hcomp.silent_then fun test => ?_
  dsimp only
  split
  · exact ite _ hgoto ((pure ()).congr (fun _ => rfl) nofun nofun)
  · exact (condjump _ _ _ _ _ _).congr (fun _ => rfl) (fun _ => id) nofun

/-- A jump on a test that the compiler leaves open. -/
theorem compileJumpIf_open {comp : CompileM Compiled} {target : Expr}
    (hcomp : Lays known comp .empty) (hopen : Returns (fun r => testConstant r.1 = .none) comp) :
    Lays known (Compiler.compileJumpIf target comp) (.jump target.labelIndex) := by
  refine silent_then_of hopen hcomp fun test htest => ?_
  rw [testConstant] at htest
  dsimp only
  rw [htest]
  exact condjump _ _ _ _ _ _

/-- A jump to a label that is known. -/
theorem compileJumpIf_known {comp : CompileM Compiled} {target : Expr}
    (htarget : ∀ i, target.labelIndex = some i → known i) (hcomp : Lays known comp .empty) :
    Lays known (Compiler.compileJumpIf target comp) .empty :=
  (compileJumpIf hcomp).to_known fun i hi => htarget i (Option.mem_toList.mp hi)

section Again

variable {again : Expr → CompileM Compiled}
  (hagain : ∀ known e, Lays known (again e) .empty)

include hagain

theorem simplifyBranch (decided : Expr) (test : Expr → Expr) (x y : Expr) :
    Lays known (simplifyBranch again decided test x y) .empty := by
  refine (newVar _).silent_then fun dst => newLabel_bind fun l => ?_
  have hlast : Lays (knownWith known l) (do
      Compiler.compileAssign .assign dst y (Pure.pure dst) (again y)
      add (.expr l)
      return dst) (.label l.labelIndex) := by
    refine silent_then ?_ fun _ => (place l).then_silent fun _ => pure _
    exact compileAssign .assign rfl dst y (pure dst) (hagain _ y)
  have hjump : ∀ e, Lays (knownWith known l) (Compiler.compileJumpIf l (again e)) .empty :=
    fun e => compileJumpIf_known (fun _ => .inr) (hagain _ e)
  rw [Layout.append_empty]
  refine ite _ ?_ ?_
  · exact (assign .assign rfl _ _).silent_then fun _ => (hjump _).silent_then fun _ => hlast
  · exact (assign .assign rfl _ _).silent_then fun _ => (hjump _).silent_then fun _ => hlast

theorem simplifyBoolean (op : Op2) (x y : Expr)
    (hx : op = .land ∨ op = .lor → x.labelIndex = Option.none) :
    Lays known (simplifyBoolean again op x y) .empty := by
  have hdrop : op = .land ∨ op = .lor → Lays known (do
      add (.expr x)
      return y) .empty := by
    intro hop
    have hplace : Lays known (add (.expr x)) (.label x.labelIndex) := place x
    rw [hx hop] at hplace
    exact hplace.then_silent fun _ => pure _
  unfold Compiler.simplifyBoolean
  split
  · unfold simplifyLand
    split
    · exact pure _
    · exact ite _ (pure _) (hdrop (.inl rfl))
    · exact pure _
    · exact simplifyBranch hagain _ _ _ _
  · unfold simplifyLor
    split
    · exact pure _
    · exact ite _ (hdrop (.inr rfl)) (pure _)
    · exact pure _
    · exact simplifyBranch hagain _ _ _ _
  · exact pure _

/-- Compiling an expression places the labels it takes and jumps to no others. -/
theorem compileExprWith (known : BitVec 16 → Prop) :
    (∀ e : Expr, e.labelsApart → Lays known (compileExprWith again e) .empty) ∧
    (∀ args, labelsApartAll args → Lays known (compileArgs again args) .empty) ∧
    (∀ args, labelsApartAll args → Lays known (compileChildren again args) .empty) := by
  apply compileExprWith.mutual_induct
  case case1 =>
    intro k op x p hx hapart
    exact (hx hapart).then_silent fun _ => pure _
  case case2 =>
    intro k op x y p hx hy hapart
    obtain ⟨hlabel, hax, hay⟩ := labelsApart_binary.mp hapart
    refine silent_then_of ((compileExprWith_shape again).1 x) (hx hax) fun x' hx' => ?_
    refine (hy hay).silent_then fun y' => ?_
    refine (simplifyBoolean hagain op _ _ fun hop => ?_).then_silent fun _ => pure _
    rw [hx'.label]
    exact hlabel hop
  case case3 =>
    intro k args p hargs hapart
    exact (hargs hapart).then_silent fun _ => pure _
  case case4 =>
    intro k fn address args p hvars hapart
    rw [Compiler.compileExprWith, if_pos hvars]
    exact (pure _).silent_then fun _ => (newVar _).silent_then fun _ =>
      (assign .assign rfl _ _).then_silent fun _ => pure _
  case case5 =>
    intro k fn address args p hvars hargs hapart
    rw [labelsApart, labelsApartAll, labelsApartAll, Bool.and_eq_true, Bool.and_eq_true] at hapart
    rw [Compiler.compileExprWith, if_neg hvars]
    exact ((hargs hapart.2.2).map _).silent_then fun _ => (newVar _).silent_then fun _ =>
      (assign .assign rfl _ _).then_silent fun _ => pure _
  case case6 =>
    intro k op args p hop hargs hapart
    rw [Compiler.compileExprWith]
    · exact (hargs hapart).then_silent fun _ => pure _
    · exact hop
  case case7 =>
    intro e hunary hbinary hmem hcall htuple hapart
    rw [Compiler.compileExprWith]
    · exact pure _
    all_goals assumption
  case case8 => exact fun _ => pure _
  case case9 =>
    intro x xs hx hxs hapart
    rw [labelsApartAll, Bool.and_eq_true] at hapart
    exact (toVar x (hx hapart.1)).silent_then fun _ =>
      (hxs hapart.2).then_silent fun _ => pure _
  case case10 => exact fun _ => pure _
  case case11 =>
    intro xs hxs hapart
    rw [labelsApartAll, Bool.and_eq_true] at hapart
    exact (error _ _).silent_then fun _ => (hxs hapart.2).then_silent fun _ => pure _
  case case12 =>
    intro x xs hx hcomp hxs hapart
    rw [labelsApartAll, Bool.and_eq_true] at hapart
    rw [Compiler.compileChildren]
    · exact (hcomp hapart.1).silent_then fun _ => (toVarMemConst _ (hagain _ _)).silent_then fun _ =>
        (hxs hapart.2).then_silent fun _ => pure _
    · exact hx

end Again

theorem compileExpr {e : Expr} (h : e.labelsApart) : Lays known (compileExpr e) .empty :=
  (compileExprWith (fun _ _ => pure _) known).1 e h

end Lays

end OneJit
