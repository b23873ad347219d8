import OneJit.Optimizer

/-!
# The state of the compiler

`class Compiler` turns a function body into a list of nodes without nested calls, short-circuit
operators and structured statements. A step of it returns a result, appends nodes and errors, and
changes the counters of the function and the stacks of labels. Failed allocations are left out.
-/

namespace OneJit

/-- `class Error`. -/
structure Error where
  node : Stmt
  msg : String

/-- What a step appends to `node_` and `error_`. -/
structure Output where
  nodes : List Stmt
  errors : List Error

/-- The part of `class Compiler` and of its `Func` that the steps change: the number of labels and
of variables, and the stacks, with the innermost label first. -/
structure Compiler where
  labels : Nat
  vars : Nat
  results : List Expr
  breaks : List Expr
  continues : List Expr
  fallthroughs : List Expr

namespace Output

def empty : Output := ⟨[], []⟩

def append (o o' : Output) : Output := ⟨o.nodes ++ o'.nodes, o.errors ++ o'.errors⟩

instance : Append Output := ⟨append⟩

theorem append_assoc (o o' o'' : Output) : o ++ o' ++ o'' = o ++ (o' ++ o'') := by
  change append (append o o') o'' = append o (append o' o'')
  rw [append, append, append, append, List.append_assoc, List.append_assoc]

@[simp] theorem append_empty (o : Output) : o ++ empty = o := by
  change append o empty = o
  rw [append, empty, List.append_nil, List.append_nil]

@[simp] theorem empty_append (o : Output) : empty ++ o = o := rfl

@[simp] theorem nodes_empty : empty.nodes = [] := rfl
@[simp] theorem errors_empty : empty.errors = [] := rfl
@[simp] theorem nodes_append (o o' : Output) : (o ++ o').nodes = o.nodes ++ o'.nodes := rfl
@[simp] theorem errors_append (o o' : Output) : (o ++ o').errors = o.errors ++ o'.errors := rfl

end Output

/-- A step of the compiler. -/
def CompileM (α : Type) : Type := Compiler → α × Output × Compiler

instance : Monad CompileM where
  pure a := fun c => (a, .empty, c)
  bind m f := fun c =>
    let (a, o, c') := m c
    let (b, o', c'') := f a c'
    (b, o ++ o', c'')

namespace CompileM

variable {α β : Type}

theorem pure_run (a : α) (c : Compiler) : (pure a : CompileM α) c = (a, .empty, c) := rfl

theorem bind_run (m : CompileM α) (f : α → CompileM β) (c : Compiler) :
    (m >>= f) c = ((f (m c).1 (m c).2.2).1, (m c).2.1 ++ (f (m c).1 (m c).2.2).2.1,
      (f (m c).1 (m c).2.2).2.2) := rfl

theorem map_run (f : α → β) (m : CompileM α) (c : Compiler) :
    (f <$> m) c = (f (m c).1, (m c).2.1, (m c).2.2) := by
  change (m >>= fun a => pure (f a)) c = _
  rw [bind_run, pure_run, Output.append_empty]

/-- A relation between the states before and after a step, and what the step appends, that holds
of a sequence of steps when it holds of each. -/
structure Sequential (R : Compiler → Output → Compiler → Prop) : Prop where
  refl : ∀ c, R c .empty c
  trans : ∀ {c c' c'' o o'}, R c o c' → R c' o' c'' → R c (o ++ o') c''

/-- Every run of the step is in the relation. -/
def Respects (R : Compiler → Output → Compiler → Prop) (m : CompileM α) : Prop :=
  ∀ c, R c (m c).2.1 (m c).2.2

section Respects

variable {R : Compiler → Output → Compiler → Prop}

theorem Sequential.pure (h : Sequential R) (a : α) : Respects R (Pure.pure a : CompileM α) :=
  fun c => h.refl c

theorem Sequential.bind (h : Sequential R) {m : CompileM α} {f : α → CompileM β}
    (hm : Respects R m) (hf : ∀ a, Respects R (f a)) : Respects R (m >>= f) := by
  intro c
  rw [bind_run]
  exact h.trans (hm c) (hf _ _)

theorem Respects.map {m : CompileM α} (hm : Respects R m) (f : α → β) :
    Respects R (f <$> m) := by
  intro c
  rw [map_run]
  exact hm c

end Respects

/-- Every result of the step has the property. -/
def Returns (P : α → Prop) (m : CompileM α) : Prop := ∀ c, P (m c).1

theorem Returns.pure {P : α → Prop} {a : α} (h : P a) : Returns P (Pure.pure a) := fun _ => h

theorem Returns.trivial (m : CompileM α) : Returns (fun _ => True) m := fun _ => True.intro

theorem Returns.bind {P : α → Prop} {Q : β → Prop} {m : CompileM α} {f : α → CompileM β}
    (hm : Returns P m) (hf : ∀ a, P a → Returns Q (f a)) : Returns Q (m >>= f) := by
  intro c
  rw [bind_run]
  exact hf _ (hm c) _

theorem Returns.bind_const {Q : β → Prop} {m : CompileM α} {f : α → CompileM β}
    (hf : ∀ a, Returns Q (f a)) : Returns Q (m >>= f) :=
  (Returns.trivial m).bind fun a _ => hf a

theorem Returns.map {P : β → Prop} {f : α → β} {m : CompileM α} (hm : Returns (P ∘ f) m) :
    Returns P (f <$> m) := by
  intro c
  rw [map_run]
  exact hm c

theorem Returns.ite {P : α → Prop} (p : Prop) [Decidable p] {m m' : CompileM α}
    (hm : p → Returns P m) (hm' : ¬p → Returns P m') : Returns P (if p then m else m') := by
  split
  · next h => exact hm h
  · next h => exact hm' h

end CompileM

namespace Compiler

open Expr

/-- `Id::FIRST`. -/
def firstId : Nat := 0x1000

/-- `Var{func, kind}`: `Func::new_var`. An identifier has 24 bits, and a variable of kind Void
has none. -/
def newVar (kind : Kind) : CompileM Expr := fun c =>
  let id := c.vars + firstId
  if kind ≠ .bad ∧ (kind = .void ∨ id < 2 ^ 24) then
    (.var kind (if kind = .void then 0 else id), .empty, { c with vars := c.vars + 1 })
  else (.none, .empty, c)

/-- `Label{func}`: `Func::new_label`. -/
def newLabel : CompileM Expr := fun c =>
  if c.labels ≤ 0xFFFF then
    (.label (BitVec.ofNat 16 c.labels) 0, .empty, { c with labels := c.labels + 1 })
  else (.none, .empty, c)

/-- `node == VoidConst`. -/
def isVoidConst : Stmt → Bool
  | .expr e => sameNode e voidExpr
  | _ => false

/-- `add`. -/
def add (node : Stmt) : CompileM Unit := fun c =>
  ((), ⟨if isVoidConst node then [] else [node], []⟩, c)

/-- `error`. -/
def error (node : Stmt) (msg : String) : CompileM Unit := fun c => ((), ⟨[], [⟨node, msg⟩]⟩, c)

/-- `label_break`. -/
def labelBreak : CompileM Expr := fun c => (c.breaks.headD .none, .empty, c)

/-- `label_continue`. -/
def labelContinue : CompileM Expr := fun c => (c.continues.headD .none, .empty, c)

/-- `label_fallthrough`. -/
def labelFallthrough : CompileM Expr := fun c => (c.fallthroughs.headD .none, .empty, c)

/-- `enter_case`. -/
def enterCase (brk fall : Expr) : CompileM Unit := fun c =>
  ((), .empty, { c with breaks := brk :: c.breaks, fallthroughs := fall :: c.fallthroughs })

/-- `exit_case`. -/
def exitCase : CompileM Unit := fun c =>
  ((), .empty, if !c.breaks.isEmpty && !c.fallthroughs.isEmpty then
    { c with breaks := c.breaks.tail, fallthroughs := c.fallthroughs.tail } else c)

/-- `enter_loop`. -/
def enterLoop (brk cont : Expr) : CompileM Unit := fun c =>
  ((), .empty, { c with breaks := brk :: c.breaks, continues := cont :: c.continues })

/-- `exit_loop`. -/
def exitLoop : CompileM Unit := fun c =>
  ((), .empty, if !c.breaks.isEmpty && !c.continues.isEmpty then
    { c with breaks := c.breaks.tail, continues := c.continues.tail } else c)

end Compiler

end OneJit
