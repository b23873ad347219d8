import OneJit.FlowGraph
import OneJit.Lib.Segments

/-!
# Flow graph edges

`Control` says what a compiled statement does with control, whatever the tables of the flow
graph list. The edges of a flow graph are exact if and only if every conditional jump that the
tables miss stands at the end of its block and jumps to the next one, and every label is placed
in one block.
-/

namespace OneJit

open Segments

/-- Where control goes after a statement. -/
inductive Control
  | falls
  | jump (target : Option (BitVec 16))
  | branch (target : Option (BitVec 16))
  | leaves
  deriving DecidableEq, Repr

namespace Control

def fallsThrough : Control → Bool
  | falls | branch _ => true
  | _ => false

def target : Control → Option (BitVec 16)
  | jump t | branch t => t
  | _ => none

end Control

/-- The control of a compiled statement: gotos, all conditional jumps of the generic, x86 and MIR
families, and returns. Every other statement passes control to the next one. -/
def Stmt.control : Stmt → Control
  | .stmt1 op arg => match op with
    | .goto | .mirJmp | .x86Jmp => .jump arg.labelIndex
    | .x86Ja | .x86Jae | .x86Jb | .x86Jbe | .x86Je | .x86Jg | .x86Jge | .x86Jl | .x86Jle
    | .x86Jne | .x86Jno | .x86Jnp | .x86Jns | .x86Jo | .x86Jp | .x86Js => .branch arg.labelIndex
    | _ => .falls
  | .stmt2 op a _ => match op with
    | .jumpIf | .x86Xbegin => .branch a.labelIndex
    | _ => .falls
  | .stmt3 op a _ _ => match op with
    | .asmJa | .asmJae | .asmJb | .asmJbe | .asmJe | .asmJg | .asmJge | .asmJl | .asmJle
    | .asmJne | .mirBranch _ => .branch a.labelIndex
    | _ => .falls
  | .stmtN op _ => match op with
    | .return | .mirRet | .x86Ret => .leaves
    | _ => .falls
  | _ => .falls

namespace Stmt

/-- The conditional jumps that `is_cond_jump` does not list: `X86_JLE`, `ASM_JLE` and the
branches of the MIR family. -/
def isMissed : Stmt → Bool
  | stmt1 .x86Jle _ => true
  | stmt3 .asmJle _ _ _ => true
  | stmt3 (.mirBranch _) _ _ _ => true
  | _ => false

theorem childLabel_stmt2 (op : OpStmt2) (a b : Stmt) : (stmt2 op a b).childLabel = a.labelIndex := by
  cases a <;> rfl

theorem childLabel_stmt3 (op : OpStmt3) (a b c : Stmt) :
    (stmt3 op a b c).childLabel = a.labelIndex := by
  cases a <;> rfl

/-- The tables list every jump but the missed ones. -/
theorem control_falls_iff (s : Stmt) :
    s.control = .falls ↔ s.isJump = false ∧ s.isMissed = false := by
  cases s with
  | stmt1 op arg =>
    cases op <;> simp [control, isJump, isUncondJump, isCondJump, isMissed]
  | stmt2 op a b =>
    cases op <;> simp [control, isJump, isUncondJump, isCondJump, isReturn, isMissed]
  | stmt3 op a b c =>
    cases op <;> simp [control, isJump, isUncondJump, isCondJump, isReturn, isMissed]
  | stmtN op args =>
    cases op <;> simp [control, isJump, isUncondJump, isCondJump, isReturn, isMissed]
  | _ => simp [control, isJump, isUncondJump, isCondJump, isReturn, isMissed]

theorem isJump_of_isMissed {s : Stmt} (h : s.isMissed) : s.isJump = false := by
  unfold isMissed at h
  split at h <;> simp_all [isJump, isUncondJump, isCondJump, isReturn]

theorem fallsThrough_control (s : Stmt) : s.control.fallsThrough = !s.isUncondJump := by
  cases s with
  | stmt1 op arg => cases op <;> simp [control, isUncondJump, Control.fallsThrough]
  | stmt2 op a b => cases op <;> simp [control, isUncondJump, isReturn, Control.fallsThrough]
  | stmt3 op a b c => cases op <;> simp [control, isUncondJump, isReturn, Control.fallsThrough]
  | stmtN op args => cases op <;> simp [control, isUncondJump, isReturn, Control.fallsThrough]
  | _ => simp [control, isUncondJump, isReturn, Control.fallsThrough]

/-- The label of a listed jump is where control goes. -/
theorem target_control {s : Stmt} (h : s.isJump) : s.control.target = s.jumpLabel := by
  cases s with
  | stmt1 op arg =>
    cases op <;> simp_all [control, isJump, isUncondJump, isCondJump, Control.target,
      jumpLabel, childLabel]
  | stmt2 op a b =>
    cases op <;> simp_all [control, isJump, isUncondJump, isCondJump, isReturn, Control.target,
      jumpLabel, childLabel_stmt2]
  | stmt3 op a b c =>
    cases op <;> simp_all [control, isJump, isUncondJump, isCondJump, isReturn, Control.target,
      jumpLabel, childLabel_stmt3]
  | stmtN op args =>
    cases op <;> simp_all [control, isJump, isUncondJump, isCondJump, isReturn, Control.target,
      jumpLabel]
  | _ => simp_all [isJump, isUncondJump, isCondJump, isReturn]

theorem isUncondJump_of_isCondJump {s : Stmt} (h : s.isCondJump) : s.isUncondJump = false := by
  cases s with
  | stmt1 op arg => cases op <;> simp_all [isUncondJump, isCondJump]
  | stmtN op args => simp [isCondJump] at h
  | _ => simp [isUncondJump, isReturn]

theorem not_isLabel_of_control {s : Stmt} (h : s.control ≠ .falls) : s.isLabel = false := by
  cases s with
  | expr e => exact absurd rfl h
  | _ => rfl

theorem isLabel_iff (s : Stmt) : s.isLabel ↔ ∃ l, s.labelIndex = some l := by
  cases s with
  | expr e => cases e <;> simp [isLabel, labelIndex, Expr.labelIndex]
  | _ => simp [isLabel, labelIndex]

end Stmt

namespace FlowGraph

/-! ## The shape of the blocks -/

/-- Labels, then a body without labels in which only the last node is a listed jump. -/
structure IsBlock (bb labels body : List Stmt) : Prop where
  append : bb = labels ++ body
  nonempty : bb ≠ []
  labels : ∀ s ∈ labels, s.isLabel
  noLabel : ∀ s ∈ body, s.isLabel = false
  noJump : ∀ s ∈ body.dropLast, s.isJump = false

theorem buildBasicblocks_cons {nodes : List Stmt} {jumps : Nat} (hne : ¬nodes = []) :
    (buildBasicblocks nodes jumps).1 =
      (nodes.takeWhile Stmt.isLabel ++ (scanBody (nodes.dropWhile Stmt.isLabel) jumps).1) ::
        (buildBasicblocks (scanBody (nodes.dropWhile Stmt.isLabel) jumps).2.1
          (scanBody (nodes.dropWhile Stmt.isLabel) jumps).2.2).1 := by
  rw [buildBasicblocks, dif_neg hne]

theorem flatten_buildBasicblocks (nodes : List Stmt) (jumps : Nat) :
    (buildBasicblocks nodes jumps).1.flatten = nodes := by
  induction nodes, jumps using buildBasicblocks.induct with
  | case1 jumps => simp [buildBasicblocks]
  | case2 nodes jumps hne body ih =>
    rw [buildBasicblocks_cons hne, List.flatten_cons, ih, List.append_assoc, (scanBody_spec _ _).append,
      List.takeWhile_append_dropWhile]

theorem isBlock_head {nodes : List Stmt} (jumps : Nat) (hne : nodes ≠ []) :
    IsBlock (nodes.takeWhile Stmt.isLabel ++ (scanBody (nodes.dropWhile Stmt.isLabel) jumps).1)
      (nodes.takeWhile Stmt.isLabel) (scanBody (nodes.dropWhile Stmt.isLabel) jumps).1 := by
  have hscan := scanBody_spec (nodes.dropWhile Stmt.isLabel) jumps
  refine ⟨rfl, ?_, fun s hs => List.mem_takeWhile_imp hs, hscan.noLabel, hscan.noJump⟩
  intro hnil
  rw [List.append_eq_nil_iff] at hnil
  have hdrop : nodes.dropWhile Stmt.isLabel = nodes := by
    have happend := List.takeWhile_append_dropWhile (p := Stmt.isLabel) (l := nodes)
    rwa [hnil.1, List.nil_append] at happend
  exact hscan.nonempty (by rwa [hdrop]) (head?_dropWhile_isLabel nodes) hnil.2

theorem buildBasicblocks_isBlock (nodes : List Stmt) (jumps : Nat) :
    ∀ bb ∈ (buildBasicblocks nodes jumps).1, ∃ labels body, IsBlock bb labels body := by
  induction nodes, jumps using buildBasicblocks.induct with
  | case1 jumps => simp [buildBasicblocks]
  | case2 nodes jumps hne body ih =>
    intro bb hbb
    rw [buildBasicblocks_cons hne] at hbb
    rcases List.mem_cons.mp hbb with rfl | hbb
    · exact ⟨_, _, isBlock_head jumps hne⟩
    · exact ih bb hbb

/-- The first block begins where the nodes do. -/
theorem head_buildBasicblocks {nodes : List Stmt} {jumps : Nat} {bb : List Stmt}
    (h : (buildBasicblocks nodes jumps).1[0]? = some bb) : bb.head? = nodes.head? := by
  have hflat := flatten_buildBasicblocks nodes jumps
  have hblock := buildBasicblocks_isBlock nodes jumps
  cases hbbs : (buildBasicblocks nodes jumps).1 with
  | nil => simp [hbbs] at h
  | cons first rest =>
    rw [hbbs] at h hflat
    obtain rfl : first = bb := by simpa using h
    obtain ⟨labels, body, hbb⟩ := hblock first (by rw [hbbs]; exact List.mem_cons_self)
    rw [← hflat, List.flatten_cons, List.head?_append_of_ne_nil _ hbb.nonempty]

/-- A block with a successor ends in a node that is not a label, and either that node is a listed
jump or the successor begins with a label. -/
theorem buildBasicblocks_inner (nodes : List Stmt) (jumps : Nat) :
    ∀ {i : Nat} {A B : List Stmt}, (buildBasicblocks nodes jumps).1[i]? = some A →
      (buildBasicblocks nodes jumps).1[i + 1]? = some B →
      ∃ s, A.getLast? = some s ∧ s.isLabel = false ∧
        (s.isJump ∨ ∃ t, B.head? = some t ∧ t.isLabel) := by
  induction nodes, jumps using buildBasicblocks.induct with
  | case1 jumps => simp [buildBasicblocks]
  | case2 nodes jumps hne body =>
    rename_i ih
    intro i A B hA hB
    rw [buildBasicblocks_cons hne] at hA hB
    cases i with
    | succ i => exact ih (by simpa using hA) (by simpa using hB)
    | zero =>
      have hscan := scanBody_spec (nodes.dropWhile Stmt.isLabel) jumps
      have hB' : (buildBasicblocks body.2.1 body.2.2).1[0]? = some B := by simpa using hB
      have hhead := head_buildBasicblocks hB'
      have hrest : body.2.1 ≠ [] := by
        intro hnil
        rw [hnil] at hB'
        simp [buildBasicblocks] at hB'
      have hdrop : nodes.dropWhile Stmt.isLabel ≠ [] := by
        intro hnil
        have happend := hscan.append
        rw [hnil] at happend
        exact hrest (by simpa [body, hnil] using (List.append_eq_nil_iff.mp happend).2)
      have hbody := hscan.nonempty hdrop (head?_dropWhile_isLabel nodes)
      obtain ⟨s, hs⟩ := Option.isSome_iff_exists.mp
        (by simpa using hbody : (body.1.getLast?).isSome)
      simp only [List.getElem?_cons_zero, Option.some.injEq] at hA
      refine ⟨s, ?_, hscan.noLabel s (List.mem_of_getLast? hs), ?_⟩
      · rw [← hA, List.getLast?_append, hs]
        rfl
      · rcases hscan.stop with hnil | ⟨t, ht, hlabel⟩ | ⟨last, hlast, hjump⟩
        · exact absurd hnil hrest
        · exact .inr ⟨t, by rw [hhead]; exact ht, hlabel⟩
        · rw [Option.mem_def.mp hlast, Option.some.injEq] at hs
          exact .inl (hs ▸ hjump)

/-- The blocks of a list of nodes. -/
structure Cut (bbs : List (List Stmt)) : Prop where
  isBlock : ∀ bb ∈ bbs, ∃ labels body, IsBlock bb labels body
  inner : ∀ {i : Nat} {A B : List Stmt}, bbs[i]? = some A → bbs[i + 1]? = some B →
    ∃ s, A.getLast? = some s ∧ s.isLabel = false ∧
      (s.isJump ∨ ∃ t, B.head? = some t ∧ t.isLabel)

theorem cut_buildBasicblocks (nodes : List Stmt) (jumps : Nat) :
    Cut (buildBasicblocks nodes jumps).1 :=
  ⟨buildBasicblocks_isBlock nodes jumps, buildBasicblocks_inner nodes jumps⟩

/-! ## Labels by position -/

/-- The label `l` is placed at position `p`. -/
def LabelAt (nodes : List Stmt) (l : BitVec 16) (p : Nat) : Prop :=
  ∃ s, nodes[p]? = some s ∧ s.labelIndex = some l

/-- All nodes from position `p` to position `q` are labels. -/
def Run (nodes : List Stmt) (p q : Nat) : Prop :=
  p ≤ q ∧ ∀ r, p ≤ r → r ≤ q → ∃ l, LabelAt nodes l r

/-- Position `q` is one of the leading labels of block `j`. -/
def InRun (bbs : List (List Stmt)) (j q : Nat) : Prop :=
  ∃ B, bbs[j]? = some B ∧ segStart bbs j ≤ q ∧
    q < segStart bbs j + (B.takeWhile Stmt.isLabel).length

theorem IsBlock.takeWhile {bb labels body : List Stmt} (h : IsBlock bb labels body) :
    bb.takeWhile Stmt.isLabel = labels := by
  rw [h.append, List.takeWhile_append_of_pos h.labels]
  cases body with
  | nil => simp
  | cons s body => simp [h.noLabel s List.mem_cons_self]

theorem IsBlock.dropWhile {bb labels body : List Stmt} (h : IsBlock bb labels body) :
    bb.dropWhile Stmt.isLabel = body := by
  have happend := List.takeWhile_append_dropWhile (p := Stmt.isLabel) (l := bb)
  rw [h.takeWhile] at happend
  exact List.append_cancel_left (happend.trans h.append)

theorem exists_labelAt_iff {nodes : List Stmt} {p : Nat} :
    (∃ l, LabelAt nodes l p) ↔ ∃ s, nodes[p]? = some s ∧ s.isLabel := by
  constructor
  · intro ⟨l, s, hs, hl⟩
    exact ⟨s, hs, (s.isLabel_iff).mpr ⟨l, hl⟩⟩
  · intro ⟨s, hs, hl⟩
    obtain ⟨l, hl⟩ := (s.isLabel_iff).mp hl
    exact ⟨l, s, hs, hl⟩

theorem not_labelAt {nodes : List Stmt} {p : Nat} {s : Stmt} (hs : nodes[p]? = some s)
    (hl : s.isLabel = false) (l : BitVec 16) : ¬LabelAt nodes l p := by
  intro h
  obtain ⟨t, ht, hlabel⟩ := exists_labelAt_iff.mp ⟨l, h⟩
  rw [hs, Option.some.injEq] at ht
  simp [← ht, hl] at hlabel

/-- The leading labels of a block are the labels placed in its run. -/
theorem mem_leading_iff {bbs : List (List Stmt)} {j : Nat} {B : List Stmt} {l : BitVec 16}
    (hB : bbs[j]? = some B) :
    l ∈ leading B ↔ ∃ q, InRun bbs j q ∧ LabelAt bbs.flatten l q := by
  have hprefix := List.takeWhile_prefix (l := B) Stmt.isLabel
  rw [leading, List.mem_filterMap]
  constructor
  · intro ⟨s, hs, hl⟩
    obtain ⟨k, hk, hget⟩ := List.getElem_of_mem hs
    have hkB : k < B.length := Nat.lt_of_lt_of_le hk hprefix.length_le
    refine ⟨segStart bbs j + k, ⟨B, hB, Nat.le_add_right _ _, by omega⟩, s, ?_, hl⟩
    rw [getElem?_flatten hB hkB, ← hget, hprefix.getElem hk]
    exact List.getElem?_eq_getElem hkB
  · intro ⟨q, ⟨B', hB', hle, hlt⟩, s, hs, hl⟩
    rw [hB, Option.some.injEq] at hB'
    subst hB'
    obtain ⟨k, rfl⟩ := Nat.exists_eq_add_of_le hle
    have hk : k < (B.takeWhile Stmt.isLabel).length := by omega
    have hkB : k < B.length := Nat.lt_of_lt_of_le hk hprefix.length_le
    refine ⟨s, ?_, hl⟩
    rw [getElem?_flatten hB hkB, List.getElem?_eq_getElem hkB, Option.some.injEq] at hs
    rw [← hs, ← hprefix.getElem hk]
    exact List.getElem_mem hk

/-- Every label is a leading label of its block. -/
theorem Cut.exists_inRun {bbs : List (List Stmt)} (h : Cut bbs) {l : BitVec 16} {q : Nat}
    (hl : LabelAt bbs.flatten l q) : ∃ j, InRun bbs j q := by
  obtain ⟨s, hs, hindex⟩ := hl
  have hq : q < bbs.flatten.length := (List.getElem?_eq_some_iff.mp hs).1
  obtain ⟨j, B, k, hB, hk, rfl⟩ := exists_segment hq
  obtain ⟨labels, body, hblock⟩ := h.isBlock B (List.mem_of_getElem? hB)
  refine ⟨j, B, hB, Nat.le_add_right _ _, ?_⟩
  rw [hblock.takeWhile]
  by_contra hge
  rw [getElem?_flatten hB hk, hblock.append, List.getElem?_append_right (by omega)] at hs
  have hno := hblock.noLabel s (List.mem_of_getElem? hs)
  have hyes : s.isLabel := (s.isLabel_iff).mpr ⟨l, hindex⟩
  simp [hno] at hyes

theorem exists_labelAt_of_inRun {bbs : List (List Stmt)} {j q : Nat} (h : InRun bbs j q) :
    ∃ l, LabelAt bbs.flatten l q := by
  obtain ⟨B, hB, hle, hlt⟩ := h
  obtain ⟨k, rfl⟩ := Nat.exists_eq_add_of_le hle
  have hprefix := List.takeWhile_prefix (l := B) Stmt.isLabel
  have hk : k < (B.takeWhile Stmt.isLabel).length := by omega
  have hkB : k < B.length := Nat.lt_of_lt_of_le hk hprefix.length_le
  refine exists_labelAt_iff.mpr ⟨B[k], ?_, ?_⟩
  · rw [getElem?_flatten hB hkB, List.getElem?_eq_getElem hkB]
  · rw [← hprefix.getElem hk]
    exact List.mem_takeWhile_imp (List.getElem_mem hk)

/-- Runs are ordered as their blocks are. -/
theorem InRun.le_of_le {bbs : List (List Stmt)} {i j p q : Nat} (hp : InRun bbs i p)
    (hq : InRun bbs j q) (hpq : p ≤ q) : i ≤ j := by
  obtain ⟨A, hA, hple, hplt⟩ := hp
  obtain ⟨B, hB, hqle, hqlt⟩ := hq
  have hBprefix := (List.takeWhile_prefix (l := B) Stmt.isLabel).length_le
  by_contra hlt
  have hend := segEnd_le_segStart hB (Nat.lt_of_not_le hlt)
  omega

theorem segStart_add_last {bbs : List (List Stmt)} {i : Nat} {A : List Stmt} {s : Stmt}
    (hA : bbs[i]? = some A) (hs : A.getLast? = some s) :
    bbs.flatten[segStart bbs i + (A.length - 1)]? = some s := by
  have hne : A ≠ [] := by
    intro hnil
    simp [hnil] at hs
  have hpos := List.length_pos_iff.mpr hne
  rw [getElem?_flatten hA (by omega), ← List.getLast?_eq_getElem?, hs]

/-- Two labels are in one run if and only if they lead the same block. -/
theorem Cut.run_iff {bbs : List (List Stmt)} (h : Cut bbs) {i j p q : Nat} (hpq : p ≤ q)
    (hp : InRun bbs i p) (hq : InRun bbs j q) : Run bbs.flatten p q ↔ i = j := by
  obtain ⟨A, hA, hple, hplt⟩ := hp
  obtain ⟨B, hB, hqle, hqlt⟩ := hq
  have hAprefix := (List.takeWhile_prefix (l := A) Stmt.isLabel).length_le
  have hBprefix := (List.takeWhile_prefix (l := B) Stmt.isLabel).length_le
  constructor
  · intro hrun
    rcases Nat.lt_trichotomy i j with hlt | heq | hlt
    · -- the last node of block `i` is between them
      have hend := segEnd_le_segStart hA hlt
      have hsucc : i + 1 < bbs.length := by
        have := (List.getElem?_eq_some_iff.mp hB).1
        omega
      obtain ⟨s, hs, hno, -⟩ := h.inner hA (List.getElem?_eq_getElem hsucc)
      have hpos : segStart bbs i + (A.length - 1) ≤ q := by omega
      have hlast := segStart_add_last hA hs
      have hle : p ≤ segStart bbs i + (A.length - 1) := by omega
      obtain ⟨l, hl⟩ := hrun.2 _ hle hpos
      exact absurd hl (not_labelAt hlast hno l)
    · exact heq
    · have hend := segEnd_le_segStart hB hlt
      omega
  · intro heq
    subst heq
    rw [hA, Option.some.injEq] at hB
    subst hB
    exact ⟨hpq, fun r hr1 hr2 => exists_labelAt_of_inRun ⟨A, hA, by omega, by omega⟩⟩

/-- The run right after the last node of block `i` leads block `i + 1`. -/
theorem Cut.run_after_iff {bbs : List (List Stmt)} (h : Cut bbs) {i j q : Nat}
    (hq : InRun bbs j q) : Run bbs.flatten (segStart bbs (i + 1)) q ↔ j = i + 1 := by
  constructor
  · intro hrun
    obtain ⟨l, hl⟩ := hrun.2 _ (Nat.le_refl _) hrun.1
    obtain ⟨m, hm⟩ := h.exists_inRun hl
    have heq := (h.run_iff hrun.1 hm hq).mp hrun
    obtain ⟨C, hC, hCle, hClt⟩ := hm
    have hCprefix := (List.takeWhile_prefix (l := C) Stmt.isLabel).length_le
    rw [← heq]
    rcases Nat.lt_trichotomy m (i + 1) with hlt | hmi | hlt
    · have hend := segEnd_le_segStart hC hlt
      omega
    · exact hmi
    · -- block `i + 1` is not empty
      have hsucc : i + 1 < bbs.length := by
        have := (List.getElem?_eq_some_iff.mp hC).1
        omega
      obtain ⟨labels, body, hblock⟩ := h.isBlock bbs[i + 1] (List.getElem_mem hsucc)
      have hlen := List.length_pos_iff.mpr hblock.nonempty
      have hend := segEnd_le_segStart (List.getElem?_eq_getElem hsucc) hlt
      omega
  · intro heq
    subst heq
    obtain ⟨B, hB, hle, hlt⟩ := hq
    exact ⟨hle, fun r hr1 hr2 => exists_labelAt_of_inRun ⟨B, hB, hr1, by omega⟩⟩

/-! ## The links of a block -/

/-- Block `j` is the last one with the leading label `l`. -/
def IsLast (bbs : List (List Stmt)) (l : BitVec 16) (j : Nat) : Prop :=
  (∃ B, bbs[j]? = some B ∧ l ∈ leading B) ∧
    ∀ m C, bbs[m]? = some C → l ∈ leading C → m ≤ j

theorem isLast_cons {B : List Stmt} {bbs : List (List Stmt)} {l : BitVec 16} {j : Nat} :
    IsLast (B :: bbs) l j ↔ (∃ m, j = m + 1 ∧ IsLast bbs l m) ∨
      (j = 0 ∧ l ∈ leading B ∧ ∀ C ∈ bbs, l ∉ leading C) := by
  constructor
  · intro ⟨⟨A, hA, hl⟩, hmax⟩
    cases j with
    | zero =>
      obtain rfl : B = A := by simpa using hA
      refine .inr ⟨rfl, hl, fun C hC hlC => ?_⟩
      obtain ⟨m, hm⟩ := List.mem_iff_getElem?.mp hC
      exact absurd (hmax (m + 1) C (by simpa using hm) hlC) (by omega)
    | succ j =>
      refine .inl ⟨j, rfl, ⟨A, by simpa using hA, hl⟩, fun m C hC hlC => ?_⟩
      exact Nat.le_of_succ_le_succ (hmax (m + 1) C (by simpa using hC) hlC)
  · rintro (⟨m, rfl, ⟨A, hA, hl⟩, hmax⟩ | ⟨rfl, hl, hno⟩)
    · refine ⟨⟨A, by simpa using hA, hl⟩, fun i C hC hlC => ?_⟩
      cases i with
      | zero => omega
      | succ i => exact Nat.succ_le_succ (hmax i C (by simpa using hC) hlC)
    · refine ⟨⟨B, rfl, hl⟩, fun i C hC hlC => ?_⟩
      cases i with
      | zero => exact Nat.le_refl 0
      | succ i => exact absurd hlC (hno C (List.mem_of_getElem? (by simpa using hC)))

theorem exists_isLast {bbs : List (List Stmt)} {l : BitVec 16} (h : ∃ C ∈ bbs, l ∈ leading C) :
    ∃ j, IsLast bbs l j := by
  induction bbs with
  | nil => simp at h
  | cons B bbs ih =>
    by_cases hlater : ∃ C ∈ bbs, l ∈ leading C
    · obtain ⟨j, hj⟩ := ih hlater
      exact ⟨j + 1, isLast_cons.mpr (.inl ⟨j, rfl, hj⟩)⟩
    · have hno : ∀ C ∈ bbs, l ∉ leading C := fun C hC hl => hlater ⟨C, hC, hl⟩
      obtain ⟨C, hC, hl⟩ := h
      rcases List.mem_cons.mp hC with rfl | hC
      · exact ⟨0, isLast_cons.mpr (.inr ⟨rfl, hl, hno⟩)⟩
      · exact absurd hl (hno C hC)

theorem foldl_update (labels : List (BitVec 16)) (i : Nat) (links : BitVec 16 → Option Nat)
    (l : BitVec 16) :
    labels.foldl (fun links index => Function.update links index (some i)) links l =
      if l ∈ labels then some i else links l := by
  induction labels generalizing links with
  | nil => simp
  | cons index labels ih =>
    rw [List.foldl_cons, ih]
    by_cases hmem : l ∈ labels
    · simp [hmem]
    · by_cases heq : l = index
      · simp [heq]
      · simp [hmem, heq]

theorem resolveLabels_eq_some (bbs : List (List Stmt)) (i : Nat)
    (links : BitVec 16 → Option Nat) (l : BitVec 16) (k : Nat) :
    resolveLabels bbs i links l = some k ↔ (∃ j, k = i + j ∧ IsLast bbs l j) ∨
      ((∀ C ∈ bbs, l ∉ leading C) ∧ links l = some k) := by
  induction bbs generalizing i links with
  | nil => simp [resolveLabels, IsLast]
  | cons B bbs ih =>
    rw [resolveLabels, ih, foldl_update]
    simp only [isLast_cons, List.forall_mem_cons]
    constructor
    · rintro (⟨j, hk, hlast⟩ | ⟨hno, hlinks⟩)
      · exact .inl ⟨j + 1, by omega, .inl ⟨j, rfl, hlast⟩⟩
      · by_cases hB : l ∈ leading B
        · rw [if_pos hB, Option.some.injEq] at hlinks
          exact .inl ⟨0, by omega, .inr ⟨rfl, hB, hno⟩⟩
        · rw [if_neg hB] at hlinks
          exact .inr ⟨⟨hB, hno⟩, hlinks⟩
    · rintro (⟨j, hk, ⟨m, hj, hlast⟩ | ⟨hj, hB, hno⟩⟩ | ⟨⟨hB, hno⟩, hlinks⟩)
      · exact .inl ⟨m, by omega, hlast⟩
      · exact .inr ⟨hno, by rw [if_pos hB, hk, hj, Nat.add_zero]⟩
      · exact .inr ⟨hno, by rw [if_neg hB]; exact hlinks⟩

theorem resolveLabels_isLast (bbs : List (List Stmt)) (l : BitVec 16) (k : Nat) :
    resolveLabels bbs 0 (fun _ => none) l = some k ↔ IsLast bbs l k := by
  rw [resolveLabels_eq_some]
  simp

/-- The links of a block, by its last node. -/
theorem nextOf_ok {links : BitVec 16 → Option Nat} {labelN n i : Nat} {bb : List Stmt} {s : Stmt}
    {next : List Nat} (h : nextOf links labelN n i bb = .ok next) (hs : bb.getLast? = some s)
    (j : Nat) :
    j ∈ next ↔ (s.isUncondJump = false ∧ i < n ∧ j = i) ∨
      (s.isJump ∧ ∃ l, s.jumpLabel = some l ∧ links l = some j) := by
  have hfall : j ∈ (if !s.isUncondJump && decide (i < n) then [i] else []) ↔
      s.isUncondJump = false ∧ i < n ∧ j = i := by
    by_cases hc : (!s.isUncondJump && decide (i < n)) = true
    · rw [if_pos hc]
      simp only [Bool.and_eq_true, Bool.not_eq_true', decide_eq_true_eq] at hc
      simp [hc]
    · rw [if_neg hc]
      simp only [Bool.and_eq_true, Bool.not_eq_true', decide_eq_true_eq] at hc
      simp only [List.not_mem_nil, false_iff]
      exact fun hx => hc ⟨hx.1, hx.2.1⟩
  unfold nextOf at h
  simp only [hs] at h
  by_cases hjump : s.isJump
  · rw [if_pos hjump] at h
    cases hl : s.jumpLabel with
    | none =>
      simp only [hl, Except.ok.injEq] at h
      rw [← h, hfall]
      simp
    | some l =>
      simp only [hl] at h
      by_cases hmax : labelN ≤ l.toNat
      · rw [if_pos hmax] at h
        cases h
      · rw [if_neg hmax] at h
        cases hk : links l with
        | none => simp [hk] at h
        | some k =>
          simp only [hk, Except.ok.injEq] at h
          rw [← h, List.mem_append, hfall, List.mem_singleton]
          simp only [hjump, true_and, Option.some.injEq, exists_eq_left', hk, eq_comm (a := j)]
  · rw [if_neg hjump, Except.ok.injEq] at h
    rw [← h, hfall]
    simp [hjump]

theorem resolveNext_length {links : BitVec 16 → Option Nat} {labelN n i : Nat}
    {bbs : List (List Stmt)} {nexts : List (List Nat)}
    (h : resolveNext links labelN n i bbs = .ok nexts) : nexts.length = bbs.length := by
  induction bbs generalizing i nexts with
  | nil =>
    cases h
    rfl
  | cons bb bbs ih =>
    rw [resolveNext] at h
    cases hnext : nextOf links labelN n (i + 1) bb with
    | error e => rw [hnext] at h; cases h
    | ok next =>
      cases hrest : resolveNext links labelN n (i + 1) bbs with
      | error e => rw [hnext, hrest] at h; cases h
      | ok rest =>
        rw [hnext, hrest] at h
        cases h
        rw [List.length_cons, List.length_cons, ih hrest]

theorem resolveNext_ok {links : BitVec 16 → Option Nat} {labelN n i : Nat}
    {bbs : List (List Stmt)} {nexts : List (List Nat)}
    (h : resolveNext links labelN n i bbs = .ok nexts) {j : Nat} {B : List Stmt}
    (hB : bbs[j]? = some B) :
    ∃ next, nexts[j]? = some next ∧ nextOf links labelN n (i + j + 1) B = .ok next := by
  induction bbs generalizing i j nexts with
  | nil => simp at hB
  | cons bb bbs ih =>
    rw [resolveNext] at h
    cases hnext : nextOf links labelN n (i + 1) bb with
    | error e => rw [hnext] at h; cases h
    | ok next =>
      cases hrest : resolveNext links labelN n (i + 1) bbs with
      | error e => rw [hnext, hrest] at h; cases h
      | ok rest =>
        rw [hnext, hrest] at h
        cases h
        cases j with
        | zero =>
          obtain rfl : bb = B := by simpa using hB
          exact ⟨next, rfl, hnext⟩
        | succ j =>
          obtain ⟨ns, hget, hns⟩ := ih hrest (by simpa using hB)
          refine ⟨ns, by simpa using hget, ?_⟩
          rwa [show i + 1 + j + 1 = i + (j + 1) + 1 by omega] at hns

end FlowGraph

/-! ## Exact edges -/

namespace FlowGraph

/-- Control passes from the last node of block `i` to the first node of block `j`. -/
def Passes (bbs : List (List Stmt)) (i j : Nat) : Prop :=
  ∃ A B s, bbs[i]? = some A ∧ bbs[j]? = some B ∧ A.getLast? = some s ∧
    ((s.control.fallsThrough ∧ j = i + 1) ∨ ∃ l, s.control.target = some l ∧ l ∈ leading B)

/-- The nodes are partitioned into basic blocks, and the links are the passages between them. -/
structure Exact (g : FlowGraph) (nodes : List Stmt) : Prop where
  partition : g.basicblocks.flatten = nodes
  nonempty : ∀ bb ∈ g.basicblocks, bb ≠ []
  entry : ∀ bb ∈ g.basicblocks, ∀ s ∈ bb.dropWhile Stmt.isLabel, s.isLabel = false
  exit : ∀ bb ∈ g.basicblocks, ∀ s ∈ bb.dropLast, s.control = .falls
  edges : ∀ i j, (∃ next, g.next[i]? = some next ∧ j ∈ next) ↔ Passes g.basicblocks i j

/-- The condition on the nodes: a conditional jump that `is_cond_jump` misses is the last node or
stands before a label, and its target is placed in the labels right after it only; the target of
a listed jump is placed in one run of labels, or, for a conditional jump, in the run right after
it and a later one. -/
structure Resolved (nodes : List Stmt) : Prop where
  missed_ends : ∀ p s, nodes[p]? = some s → s.isMissed →
    p + 1 = nodes.length ∨ ∃ l, LabelAt nodes l (p + 1)
  missed_target : ∀ p s l q, nodes[p]? = some s → s.isMissed → s.control.target = some l →
    LabelAt nodes l q → Run nodes (p + 1) q
  target_unique : ∀ p s l q q', nodes[p]? = some s → s.isJump → s.control.target = some l →
    LabelAt nodes l q → LabelAt nodes l q' → q ≤ q' →
    Run nodes q q' ∨ (s.isCondJump ∧ Run nodes (p + 1) q)

/-- The links of an accepted flow graph, by the last node of a block. -/
theorem build_ok {nodes : List Stmt} {g : FlowGraph} (h : build nodes = .ok g) :
    g.basicblocks.flatten = nodes ∧ Cut g.basicblocks ∧ g.next.length = g.basicblocks.length ∧
      ∀ i A s, g.basicblocks[i]? = some A → A.getLast? = some s →
        ∃ next, g.next[i]? = some next ∧ ∀ j, j ∈ next ↔
          (s.isUncondJump = false ∧ i + 1 < g.basicblocks.length ∧ j = i + 1) ∨
            (s.isJump ∧ ∃ l, s.jumpLabel = some l ∧ IsLast g.basicblocks l j) := by
  unfold build at h
  by_cases hnil : nodes.isEmpty
  · rw [if_pos hnil] at h
    cases h
    simp only [List.isEmpty_iff] at hnil
    exact ⟨hnil.symm, ⟨by simp, by simp⟩, rfl, by simp⟩
  · rw [if_neg hnil] at h
    simp only [bind, Except.bind] at h
    split at h
    · cases h
    · rename_i next hnext
      cases h
      refine ⟨flatten_buildBasicblocks nodes 0, cut_buildBasicblocks nodes 0,
        resolveNext_length hnext, ?_⟩
      intro i A s hA hs
      obtain ⟨ns, hget, hns⟩ := resolveNext_ok hnext hA
      refine ⟨ns, hget, fun j => ?_⟩
      rw [nextOf_ok hns hs]
      simp only [resolveLabels_isLast, Nat.zero_add]

/-- A node that passes control elsewhere is the last one of its block. -/
theorem Exact.last_of_control {g : FlowGraph} {nodes : List Stmt} (h : g.Exact nodes) {p : Nat}
    {s : Stmt} (hs : nodes[p]? = some s) (hcontrol : s.control ≠ .falls) :
    ∃ i A, g.basicblocks[i]? = some A ∧ A.getLast? = some s ∧
      p + 1 = segStart g.basicblocks (i + 1) := by
  rw [← h.partition] at hs
  obtain ⟨i, A, k, hA, hk, rfl⟩ := exists_segment (List.getElem?_eq_some_iff.mp hs).1
  rw [getElem?_flatten hA hk] at hs
  by_cases hlast : k + 1 < A.length
  · have hmem : s ∈ A.dropLast := by
      have hk' : k < A.dropLast.length := by
        rw [List.length_dropLast]
        omega
      rw [List.getElem?_eq_getElem hk, Option.some.injEq] at hs
      rw [← hs, ← List.getElem_dropLast hk']
      exact List.getElem_mem hk'
    exact absurd (h.exit A (List.mem_of_getElem? hA) s hmem) hcontrol
  · refine ⟨i, A, hA, ?_, ?_⟩
    · rw [List.getLast?_eq_getElem?, ← hs]
      congr 1
      omega
    · rw [segStart_succ hA]
      omega

theorem Exact.resolved {nodes : List Stmt} {g : FlowGraph} (hg : build nodes = .ok g)
    (h : g.Exact nodes) : Resolved nodes := by
  obtain ⟨hflat, hcut, -, hnext⟩ := build_ok hg
  have hpasses : ∀ {i j : Nat} {A : List Stmt} {s : Stmt} {l : BitVec 16} {q : Nat},
      g.basicblocks[i]? = some A → A.getLast? = some s → s.control.target = some l →
      LabelAt nodes l q → InRun g.basicblocks j q →
      (s.isUncondJump = false ∧ i + 1 < g.basicblocks.length ∧ j = i + 1) ∨
        (s.isJump ∧ ∃ l, s.jumpLabel = some l ∧ IsLast g.basicblocks l j) := by
    intro i j A s l q hA hs htarget hl hq
    obtain ⟨next, hget, hiff⟩ := hnext i A s hA hs
    obtain ⟨B, hB, hBle, hBlt⟩ := id hq
    rw [← hflat] at hl
    have hlead : l ∈ leading B := (mem_leading_iff hB).mpr ⟨q, hq, hl⟩
    have hpass : Passes g.basicblocks i j := ⟨A, B, s, hA, hB, hs, .inr ⟨l, htarget, hlead⟩⟩
    obtain ⟨next', hget', hj⟩ := (h.edges i j).mpr hpass
    rw [hget, Option.some.injEq] at hget'
    exact (hiff j).mp (hget' ▸ hj)
  constructor
  · intro p s hs hmissed
    have hjump := Stmt.isJump_of_isMissed hmissed
    have hcontrol : s.control ≠ .falls := by
      rw [Ne, Stmt.control_falls_iff]
      simp [hmissed]
    obtain ⟨i, A, hA, hlast, hp⟩ := h.last_of_control hs hcontrol
    by_cases hend : i + 1 < g.basicblocks.length
    · right
      have hB := List.getElem?_eq_getElem hend
      obtain ⟨s', hs', -, hstop⟩ := hcut.inner hA hB
      rw [hlast, Option.some.injEq] at hs'
      subst hs'
      rcases hstop with hj | ⟨t, ht, hlabel⟩
      · simp [hjump] at hj
      · refine exists_labelAt_iff.mpr ⟨t, ?_, hlabel⟩
        obtain ⟨labels, body, hblock⟩ := hcut.isBlock _ (List.mem_of_getElem? hB)
        have hpos := List.length_pos_iff.mpr hblock.nonempty
        rw [hp, ← hflat, ← Nat.add_zero (segStart _ _), getElem?_flatten hB hpos,
          ← List.head?_eq_getElem?, ht]
    · left
      have hn : i + 1 = g.basicblocks.length := by
        have := (List.getElem?_eq_some_iff.mp hA).1
        omega
      rw [hp, hn, segStart_length, hflat]
  · intro p s l q hs hmissed htarget hl
    have hjump := Stmt.isJump_of_isMissed hmissed
    have hcontrol : s.control ≠ .falls := by
      intro hfalls
      simp [hfalls, Control.target] at htarget
    obtain ⟨i, A, hA, hlast, hp⟩ := h.last_of_control hs hcontrol
    obtain ⟨j, hj⟩ := hcut.exists_inRun (hflat ▸ hl)
    rw [hp, ← hflat]
    rcases hpasses hA hlast htarget hl hj with ⟨-, -, hji⟩ | ⟨hlisted, -⟩
    · exact (hcut.run_after_iff hj).mpr hji
    · simp [hjump] at hlisted
  · intro p s l q q' hs hjump htarget hl hl' hqq'
    have hcontrol : s.control ≠ .falls := by
      intro hfalls
      simp [hfalls, Control.target] at htarget
    obtain ⟨i, A, hA, hlast, hp⟩ := h.last_of_control hs hcontrol
    obtain ⟨j, hj⟩ := hcut.exists_inRun (hflat ▸ hl)
    obtain ⟨j', hj'⟩ := hcut.exists_inRun (hflat ▸ hl')
    rw [hp]
    rcases hpasses hA hlast htarget hl hj with ⟨huncond, -, hji⟩ | ⟨-, l', hlabel, hmax⟩
    · right
      refine ⟨?_, ?_⟩
      · simpa [Stmt.isJump, huncond] using hjump
      · rw [← hflat]
        exact (hcut.run_after_iff hj).mpr hji
    · left
      rw [← Stmt.target_control hjump, htarget, Option.some.injEq] at hlabel
      subst hlabel
      obtain ⟨B', hB', hBle, hBlt⟩ := id hj'
      have hle := hmax.2 j' B' hB' ((mem_leading_iff hB').mpr ⟨q', hj', hflat ▸ hl'⟩)
      have hge := hj.le_of_le hj' hqq'
      rw [← hflat]
      exact (hcut.run_iff hqq' hj hj').mpr (Nat.le_antisymm hge hle)

/-- In a resolved list no node before the last one of a block passes control elsewhere. -/
theorem Resolved.falls_of_mem_dropLast {nodes : List Stmt} (h : Resolved nodes)
    {bbs : List (List Stmt)} (hflat : bbs.flatten = nodes) {i : Nat} {bb labels body : List Stmt}
    (hi : bbs[i]? = some bb) (hblock : IsBlock bb labels body) {s : Stmt}
    (hs : s ∈ bb.dropLast) : s.control = .falls := by
  by_contra hcontrol
  have hno := Stmt.not_isLabel_of_control hcontrol
  obtain ⟨k, hk, hget⟩ := List.getElem_of_mem hs
  rw [List.length_dropLast] at hk
  rw [List.getElem_dropLast] at hget
  have hlen : bb.length = labels.length + body.length := by
    rw [hblock.append, List.length_append]
  have hbody : labels.length ≤ k := by
    by_contra hlt
    have hmem : s ∈ labels := by
      simp only [hblock.append] at hget
      rw [List.getElem_append_left (by omega)] at hget
      exact hget ▸ List.getElem_mem _
    simp [hblock.labels s hmem] at hno
  obtain ⟨m, rfl⟩ := Nat.exists_eq_add_of_le hbody
  have hmlt : m < body.length := by omega
  have hm : body[m] = s := by
    simp only [hblock.append] at hget
    rw [List.getElem_append_right (by omega)] at hget
    simpa using hget
  have hnext : bbs.flatten[segStart bbs i + (labels.length + m) + 1]? = body[m + 1]? := by
    rw [Nat.add_assoc, getElem?_flatten hi (by omega), hblock.append,
      List.getElem?_append_right (by omega)]
    congr 1
    omega
  have hpos : nodes[segStart bbs i + (labels.length + m)]? = some s := by
    rw [← hflat, getElem?_flatten hi (by omega), List.getElem?_eq_getElem (by omega), hget]
  have hjump : s.isJump = false := by
    apply hblock.noJump s
    have hm' : m < body.dropLast.length := by
      rw [List.length_dropLast]
      omega
    rw [← hm, ← List.getElem_dropLast hm']
    exact List.getElem_mem hm'
  have hmissed : s.isMissed := by
    by_contra hnot
    exact hcontrol (s.control_falls_iff.mpr ⟨hjump, by simpa using hnot⟩)
  have hbody1 : m + 1 < body.length := by omega
  rcases h.missed_ends _ s hpos hmissed with hend | ⟨l, hl⟩
  · rw [← hflat] at hend
    rw [List.getElem?_eq_getElem hbody1, hend, List.getElem?_eq_none (Nat.le_refl _)] at hnext
    cases hnext
  · rw [← hflat] at hl
    rw [List.getElem?_eq_getElem hbody1] at hnext
    exact not_labelAt hnext (hblock.noLabel _ (List.getElem_mem hbody1)) l hl

theorem Resolved.exact {nodes : List Stmt} {g : FlowGraph} (hg : build nodes = .ok g)
    (h : Resolved nodes) : g.Exact nodes := by
  obtain ⟨hflat, hcut, hlen, hnext⟩ := build_ok hg
  constructor
  · exact hflat
  · intro bb hbb
    obtain ⟨labels, body, hblock⟩ := hcut.isBlock bb hbb
    exact hblock.nonempty
  · intro bb hbb s hs
    obtain ⟨labels, body, hblock⟩ := hcut.isBlock bb hbb
    rw [hblock.dropWhile] at hs
    exact hblock.noLabel s hs
  · intro bb hbb s hs
    obtain ⟨i, hi⟩ := List.mem_iff_getElem?.mp hbb
    obtain ⟨labels, body, hblock⟩ := hcut.isBlock bb hbb
    exact h.falls_of_mem_dropLast hflat hi hblock hs
  · intro i j
    constructor
    · intro ⟨next, hget, hj⟩
      have hi : i < g.basicblocks.length := hlen ▸ (List.getElem?_eq_some_iff.mp hget).1
      have hA := List.getElem?_eq_getElem hi
      obtain ⟨labels, body, hblock⟩ := hcut.isBlock _ (List.mem_of_getElem? hA)
      have hs := List.getLast?_eq_getLast_of_ne_nil hblock.nonempty
      obtain ⟨next', hget', hiff⟩ := hnext i _ _ hA hs
      rw [hget, Option.some.injEq] at hget'
      subst hget'
      rcases (hiff j).mp hj with ⟨huncond, hlt, hji⟩ | ⟨hjump, l, hlabel, ⟨B, hB, hl⟩, -⟩
      · subst hji
        refine ⟨_, _, _, hA, List.getElem?_eq_getElem hlt, hs, .inl ⟨?_, rfl⟩⟩
        rw [Stmt.fallsThrough_control, huncond]
        rfl
      · exact ⟨_, B, _, hA, hB, hs, .inr ⟨l, by rw [Stmt.target_control hjump, hlabel], hl⟩⟩
    · intro ⟨A, B, s, hA, hB, hs, hpass⟩
      obtain ⟨next, hget, hiff⟩ := hnext i A s hA hs
      refine ⟨next, hget, (hiff j).mpr ?_⟩
      have hjlt := (List.getElem?_eq_some_iff.mp hB).1
      rcases hpass with ⟨hfalls, hji⟩ | ⟨l, htarget, hl⟩
      · left
        rw [Stmt.fallsThrough_control] at hfalls
        exact ⟨by simpa using hfalls, hji ▸ hjlt, hji⟩
      · obtain ⟨q, hq, hlq⟩ := (mem_leading_iff hB).mp hl
        have hcontrol : s.control ≠ .falls := by
          intro hfalls
          simp [hfalls, Control.target] at htarget
        have hnext_block : Run g.basicblocks.flatten (segStart g.basicblocks (i + 1)) q →
            s.isUncondJump = false → s.isUncondJump = false ∧ i + 1 < g.basicblocks.length ∧
              j = i + 1 := by
          intro hrun huncond
          have hji := (hcut.run_after_iff hq).mp hrun
          exact ⟨huncond, hji ▸ hjlt, hji⟩
        have hp := segStart_add_last hA hs
        have hp1 : segStart g.basicblocks i + (A.length - 1) + 1 =
            segStart g.basicblocks (i + 1) := by
          have hpos : 0 < A.length := by
            cases A with
            | nil => simp at hs
            | cons a A => simp
          rw [segStart_succ hA]
          omega
        rw [hflat] at hp hlq hnext_block
        by_cases hjump : s.isJump
        · obtain ⟨k, hk⟩ := exists_isLast ⟨B, List.mem_of_getElem? hB, hl⟩
          obtain ⟨C, hC, hlC⟩ := hk.1
          obtain ⟨q', hq', hlq'⟩ := (mem_leading_iff hC).mp hlC
          have hjk := hk.2 j B hB hl
          rcases Nat.eq_or_lt_of_le hjk with heq | hlt
          · exact .inr ⟨hjump, l, by rw [← Stmt.target_control hjump, htarget], heq ▸ hk⟩
          have hqq' : q ≤ q' := by
            by_contra hlt'
            have hge := hq'.le_of_le hq (Nat.le_of_not_le hlt')
            omega
          rcases h.target_unique _ s l q q' hp hjump htarget hlq (hflat ▸ hlq') hqq' with
            hrun | ⟨hcond, hrun⟩
          · rw [← hflat] at hrun
            have heq := (hcut.run_iff hqq' hq hq').mp hrun
            omega
          · exact .inl (hnext_block (hp1 ▸ hrun) (Stmt.isUncondJump_of_isCondJump hcond))
        · have hmissed : s.isMissed := by
            by_contra hno
            exact hcontrol (s.control_falls_iff.mpr ⟨by simpa using hjump, by simpa using hno⟩)
          have hrun := h.missed_target _ s l q hp hmissed htarget hlq
          have huncond : s.isUncondJump = false := by
            simp only [Stmt.isJump, Bool.or_eq_true, not_or, Bool.not_eq_true] at hjump
            exact hjump.1
          exact .inl (hnext_block (hp1 ▸ hrun) huncond)

/-- The links of an accepted flow graph are exact if and only if every jump is resolved. -/
theorem build_exact_iff (nodes : List Stmt) (g : FlowGraph) (hg : build nodes = .ok g) :
    g.Exact nodes ↔ Resolved nodes :=
  ⟨fun h => h.resolved hg, fun h => h.exact hg⟩

/-- A list that the x86 compiler emits for a signed comparison: `X86_JLE` skips one statement. -/
def jleNodes : List Stmt :=
  [.stmt1 .x86Jle (.label 1 0), .stmt0 (.other 0), .expr (.label 1 0), .stmtN .x86Ret []]

def jleGraph : FlowGraph where
  basicblocks := [[.stmt1 .x86Jle (.label 1 0), .stmt0 (.other 0)],
    [.expr (.label 1 0), .stmtN .x86Ret []]]
  next := [[1], []]
  prev := [[], [0]]

theorem blocks_jleNodes : (buildBasicblocks jleNodes 0).1 = jleGraph.basicblocks := by
  rw [buildBasicblocks_cons (by simp [jleNodes]), buildBasicblocks_cons (by simp [jleNodes, scanBody, Stmt.isLabel, Stmt.isUncondJump,
    Stmt.isCondJump, Stmt.isReturn])]
  have hrest : ∀ jumps, (buildBasicblocks [] jumps).1 = [] := by simp [buildBasicblocks]
  exact congrArg₂ List.cons rfl (congrArg₂ List.cons rfl (hrest _))

theorem build_jleNodes : build jleNodes = .ok jleGraph := by
  have hbuild : build jleNodes = (do
      let next ← resolveNext (resolveLabels jleGraph.basicblocks 0 fun _ => none)
        (1 + labelMax jleNodes) jleGraph.basicblocks.length 0 jleGraph.basicblocks
      .ok ⟨jleGraph.basicblocks, next, resolvePrev next jleGraph.basicblocks.length⟩) := by
    rw [build, blocks_jleNodes]
    rfl
  rw [hbuild]
  rfl

/-- The block of a missed jump goes on after the jump. -/
theorem build_not_exact : ¬∀ nodes g, build nodes = .ok g → g.Exact nodes := by
  intro h
  have hexit := (h jleNodes jleGraph build_jleNodes).exit _ List.mem_cons_self
    (.stmt1 .x86Jle (.label 1 0)) (by simp [List.dropLast])
  simp [Stmt.control] at hexit

theorem build_exact_iff_jle :
    build jleNodes = .ok jleGraph ∧ (jleGraph.Exact jleNodes ↔ Resolved jleNodes) :=
  ⟨build_jleNodes, build_exact_iff jleNodes jleGraph build_jleNodes⟩

/-! ## The link array is large enough -/

theorem nextOf_length {links : BitVec 16 → Option Nat} {labelN n i : Nat} {bb : List Stmt}
    {next : List Nat} (h : nextOf links labelN n i bb = .ok next) :
    next.length ≤ numLinks bb (decide (n ≤ i)) := by
  unfold nextOf at h
  cases hs : bb.getLast? with
  | none =>
    simp only [hs, Except.ok.injEq] at h
    simp [← h]
  | some s =>
    have hfall : (if !s.isUncondJump && decide (i < n) then [i] else []).length ≤
        (if !s.isUncondJump && !decide (n ≤ i) then 1 else 0) := by
      have hdec : decide (i < n) = !decide (n ≤ i) := by
        by_cases hlt : i < n
        · simp [hlt]
        · simp [hlt, Nat.le_of_not_lt hlt]
      rw [hdec]
      split <;> simp
    simp only [hs] at h
    simp only [numLinks, hs]
    by_cases hjump : s.isJump
    · rw [if_pos hjump] at h ⊢
      cases hl : s.jumpLabel with
      | none =>
        simp only [hl, Except.ok.injEq] at h
        rw [← h]
        exact Nat.le_add_right_of_le hfall
      | some l =>
        simp only [hl] at h
        split at h
        · cases h
        · cases hk : links l with
          | none => simp [hk] at h
          | some k =>
            simp only [hk, Except.ok.injEq] at h
            rw [← h, List.length_append]
            exact Nat.add_le_add_right hfall 1
    · rw [if_neg hjump, Except.ok.injEq] at h
      rw [← h]
      exact Nat.le_add_right_of_le hfall

theorem isJump_of_isLabel {s : Stmt} (h : s.isLabel) : s.isJump = false := by
  cases s with
  | expr e => rfl
  | _ => simp [Stmt.isLabel] at h

/-- `numLinks` of the first block has been counted by the second loop. -/
theorem numLinks_head (nodes : List Stmt) (jumps : Nat) :
    jumps + numLinks (nodes.takeWhile Stmt.isLabel ++
        (scanBody (nodes.dropWhile Stmt.isLabel) jumps).1)
      (scanBody (nodes.dropWhile Stmt.isLabel) jumps).2.1.isEmpty ≤
        (scanBody (nodes.dropWhile Stmt.isLabel) jumps).2.2 := by
  have hscan := scanBody_spec (nodes.dropWhile Stmt.isLabel) jumps
  generalize scanBody (nodes.dropWhile Stmt.isLabel) jumps = scan at *
  by_cases hbody : scan.1 = []
  · have hdrop : nodes.dropWhile Stmt.isLabel = [] := by
      by_contra hne
      exact hscan.nonempty hne (head?_dropWhile_isLabel nodes) hbody
    have hrest : scan.2.1 = [] := by
      have happend := hscan.append
      rw [hdrop] at happend
      exact (List.append_eq_nil_iff.mp happend).2
    have hlinks := hscan.links
    simp only [hbody, hrest, List.append_nil, List.isEmpty_nil] at hlinks ⊢
    have hzero : numLinks (nodes.takeWhile Stmt.isLabel) true = 0 := by
      cases hs : (nodes.takeWhile Stmt.isLabel).getLast? with
      | none => simp [numLinks, hs]
      | some s =>
        have hlabel := List.mem_takeWhile_imp (List.mem_of_getLast? hs)
        simp [numLinks, hs, isJump_of_isLabel hlabel]
    omega
  · have hlast : (nodes.takeWhile Stmt.isLabel ++ scan.1).getLast? = scan.1.getLast? := by
      rw [List.getLast?_append_of_ne_nil _ hbody]
    simpa only [numLinks, hlast] using hscan.links

theorem resolveNext_fits (nodes : List Stmt) (jumps : Nat) (links : BitVec 16 → Option Nat)
    (labelN : Nat) :
    ∀ (i : Nat) (nexts : List (List Nat)),
      resolveNext links labelN (i + (buildBasicblocks nodes jumps).1.length) i
        (buildBasicblocks nodes jumps).1 = .ok nexts →
      jumps + nexts.flatten.length ≤ (buildBasicblocks nodes jumps).2 := by
  induction nodes, jumps using buildBasicblocks.induct with
  | case1 jumps =>
    intro i nexts h
    rw [show buildBasicblocks [] jumps = ([], jumps) by rw [buildBasicblocks]; simp] at h ⊢
    cases h
    exact Nat.le_refl jumps
  | case2 nodes jumps hne body =>
    rename_i ih
    intro i nexts h
    have hhead : jumps + numLinks (nodes.takeWhile Stmt.isLabel ++ body.1) body.2.1.isEmpty ≤
        body.2.2 := numLinks_head nodes jumps
    have hjumps : (buildBasicblocks nodes jumps).2 = (buildBasicblocks body.2.1 body.2.2).2 := by
      rw [buildBasicblocks, dif_neg hne]
    have hempty : body.2.1.isEmpty =
        decide (i + ((buildBasicblocks body.2.1 body.2.2).1.length + 1) ≤ i + 1) := by
      by_cases hrest : body.2.1 = []
      · simp [hrest, buildBasicblocks]
      · simp [hrest, buildBasicblocks_cons hrest]
    rw [hjumps]
    rw [buildBasicblocks_cons hne, resolveNext, List.length_cons] at h
    cases hnext : nextOf links labelN
        (i + ((buildBasicblocks body.2.1 body.2.2).1.length + 1)) (i + 1)
        (nodes.takeWhile Stmt.isLabel ++ body.1) with
    | error e =>
      rw [hnext] at h
      cases h
    | ok next =>
      cases hrest : resolveNext links labelN
          (i + ((buildBasicblocks body.2.1 body.2.2).1.length + 1)) (i + 1)
          (buildBasicblocks body.2.1 body.2.2).1 with
      | error e =>
        rw [hnext, hrest] at h
        cases h
      | ok rest =>
        rw [hnext, hrest] at h
        cases h
        have hlen := nextOf_length hnext
        rw [← hempty] at hlen
        have hih := ih (i + 1) rest (by rw [← hrest]; congr 1; omega)
        rw [List.flatten_cons, List.length_append]
        omega

theorem length_filter_range (next : List Nat) (n : Nat) :
    ((List.range n).filter fun i => next.contains i).length ≤ next.length := by
  have hsub : (List.range n).filter (fun i => next.contains i) ⊆ next := by
    intro i hi
    simpa using (List.mem_filter.mp hi).2
  exact (List.subperm_of_subset (List.nodup_range.filter _) hsub).length_le

theorem sum_filter_contains (nexts : List (List Nat)) (n : Nat) :
    ((List.range n).map fun i => (nexts.filter fun next => next.contains i).length).sum ≤
      nexts.flatten.length := by
  induction nexts with
  | nil => simp
  | cons next nexts ih =>
    have hsplit : ∀ i, ((next :: nexts).filter fun next => next.contains i).length =
        (if next.contains i then 1 else 0) +
          (nexts.filter fun next => next.contains i).length := by
      intro i
      rw [List.filter_cons]
      split
      · rw [List.length_cons, Nat.add_comm]
      · rw [Nat.zero_add]
    have hcount : ((List.range n).map fun i => if next.contains i then 1 else 0).sum =
        ((List.range n).filter fun i => next.contains i).length := by
      induction List.range n with
      | nil => rfl
      | cons i is ihs =>
        rw [List.map_cons, List.sum_cons, ihs, List.filter_cons]
        split
        · rw [List.length_cons, Nat.add_comm]
        · rw [Nat.zero_add]
    simp only [hsplit, List.sum_map_add, List.flatten_cons, List.length_append]
    rw [hcount]
    exact Nat.add_le_add (length_filter_range next n) ih

/-- As many links lead to the blocks as leave them, at most. -/
theorem resolvePrev_length (nexts : List (List Nat)) (n : Nat) (hn : nexts.length = n) :
    (resolvePrev nexts n).flatten.length ≤ nexts.flatten.length := by
  have hmap : (List.range n).map (fun j => nexts.getD j []) = nexts := by
    apply List.ext_getElem
    · simp [hn]
    · intro j hj hj'
      simp [hj']
  have hfilter : ∀ i, ((List.range n).filter fun j => (nexts.getD j []).contains i).length =
      (nexts.filter fun next => next.contains i).length := by
    intro i
    conv_rhs => rw [← hmap, List.filter_map, List.length_map]
    rfl
  rw [resolvePrev, List.length_flatten, List.map_map]
  simp only [Function.comp_def, hfilter]
  exact sum_filter_contains nexts n

/-- The links of an accepted flow graph fit the array that `build_basicblocks` sizes. -/
theorem links_fit {nodes : List Stmt} {g : FlowGraph} (h : build nodes = .ok g) :
    g.next.flatten.length + g.prev.flatten.length ≤ (buildBasicblocks nodes 0).2 * 2 := by
  unfold build at h
  by_cases hnil : nodes.isEmpty
  · rw [if_pos hnil] at h
    cases h
    simp
  · rw [if_neg hnil] at h
    simp only [bind, Except.bind] at h
    split at h
    · cases h
    · rename_i next hnext
      cases h
      have hfits := resolveNext_fits nodes 0 _ _ 0 next (by rw [Nat.zero_add]; exact hnext)
      have hprev := resolvePrev_length next _ (resolveNext_length hnext)
      simp only
      omega

end FlowGraph

end OneJit
