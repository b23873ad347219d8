import OneJit.Ir

/-!
# The flow graph

`FlowGraph::build` cuts a list of compiled statements into basic blocks and links each block to
the blocks that control may reach from its end. A block is denoted by its position.
-/

namespace OneJit

namespace Stmt

/-- `FlowGraph::is_label`. -/
def isLabel : Stmt → Bool
  | expr (.label _ _) => true
  | _ => false

/-- The index of a label node. -/
def labelIndex : Stmt → Option (BitVec 16)
  | expr e => e.labelIndex
  | _ => none

/-- `is_return_op`, for a node of type `STMT_N`. -/
def isReturn : Stmt → Bool
  | stmtN op _ => op == .return || op == .mirRet || op == .x86Ret
  | _ => false

/-- `is_uncond_jump`. -/
def isUncondJump : Stmt → Bool
  | stmt1 op _ => op == .goto || op == .mirJmp || op == .x86Jmp
  | s => s.isReturn

/-- `is_cond_jump`, with exactly the operators its three `switch` list. -/
def isCondJump : Stmt → Bool
  | stmt1 op _ => match op with
    | .x86Ja | .x86Jae | .x86Jb | .x86Jbe | .x86Je | .x86Jg | .x86Jge | .x86Jl
    | .x86Jne | .x86Jno | .x86Jnp | .x86Jns | .x86Jo | .x86Jp | .x86Js => true
    | _ => false
  | stmt2 op _ _ => op == .jumpIf || op == .x86Xbegin
  | stmt3 op _ _ _ => match op with
    | .asmJa | .asmJae | .asmJb | .asmJbe | .asmJe | .asmJg | .asmJge | .asmJl | .asmJne => true
    | _ => false
  | _ => false

/-- `is_jump`. -/
def isJump (s : Stmt) : Bool := s.isUncondJump || s.isCondJump

/-- `jump_label`. -/
def jumpLabel : Stmt → Option (BitVec 16)
  | stmtN _ _ => none
  | s => s.childLabel

end Stmt

namespace FlowGraph

/-- The second loop of `build_basicblocks`: the nodes up to the end of the block, the nodes
after it and the number of jumps. -/
def scanBody : List Stmt → Nat → List Stmt × List Stmt × Nat
  | [], jumps => ([], [], jumps)
  | node :: rest, jumps =>
    if node.isLabel then ([], node :: rest, jumps + 1)
    else if node.isUncondJump then ([node], rest, jumps + 1)
    else if node.isCondJump then
      -- at the end of the nodes it is either unreachable or followed by an implicit return
      ([node], rest, if rest.isEmpty then jumps + 1 else jumps + 2)
    else
      let (body, rest', jumps') := scanBody rest jumps
      (node :: body, rest', jumps')

/-- The links that leave a block, at most: to the next block and to the target of its jump. -/
def numLinks (bb : List Stmt) (atEnd : Bool) : Nat :=
  match bb.getLast? with
  | none => 0
  | some node =>
    (if !node.isUncondJump && !atEnd then 1 else 0) +
      (if node.isJump then 1 else 0)

/-- What one run of the second loop does: it consumes a body without labels in which only the
last node jumps, and it stops at a jump, before a label or at the end. -/
structure BodyScan (nodes : List Stmt) (jumps : Nat) (body rest : List Stmt) (jumps' : Nat) :
    Prop where
  append : body ++ rest = nodes
  nonempty : nodes ≠ [] → (∀ node ∈ nodes.head?, node.isLabel = false) → body ≠ []
  noLabel : ∀ node ∈ body, node.isLabel = false
  noJump : ∀ node ∈ body.dropLast, node.isJump = false
  stop : rest = [] ∨ (∃ node ∈ rest.head?, node.isLabel) ∨
    ∃ node ∈ body.getLast?, node.isJump
  links : jumps + numLinks body rest.isEmpty ≤ jumps'
  grows : rest ≠ [] → jumps < jumps'

theorem scanBody_spec (nodes : List Stmt) (jumps : Nat) :
    BodyScan nodes jumps (scanBody nodes jumps).1 (scanBody nodes jumps).2.1
      (scanBody nodes jumps).2.2 := by
  induction nodes with
  | nil => exact ⟨rfl, by simp, by simp [scanBody], by simp [scanBody], .inl rfl, by
      simp [scanBody, numLinks], by simp [scanBody]⟩
  | cons node rest ih =>
    rw [scanBody]
    by_cases hlabel : node.isLabel
    · rw [if_pos hlabel]
      exact ⟨rfl, by simp [hlabel], by simp, by simp, .inr (.inl ⟨node, rfl, hlabel⟩), by
        simp [numLinks], by simp⟩
    rw [if_neg hlabel]
    by_cases huncond : node.isUncondJump
    · have hjump : node.isJump := by simp [Stmt.isJump, huncond]
      rw [if_pos huncond]
      exact ⟨rfl, by simp, by simpa using hlabel, by simp,
        .inr (.inr ⟨node, rfl, hjump⟩), by simp [numLinks, huncond, hjump], by simp⟩
    rw [if_neg huncond]
    by_cases hcond : node.isCondJump
    · have hjump : node.isJump := by simp [Stmt.isJump, hcond]
      rw [if_pos hcond]
      refine ⟨rfl, by simp, by simpa using hlabel, by simp,
        .inr (.inr ⟨node, rfl, hjump⟩), ?_, by simp +contextual⟩
      cases rest <;> simp [numLinks, huncond, hjump]
    rw [if_neg hcond]
    have hnode : node.isJump = false := by simp [Stmt.isJump, huncond, hcond]
    obtain ⟨happend, hne, hno, hjump, hstop, hlinks, hgrows⟩ := ih
    generalize scanBody rest jumps = scan at *
    obtain ⟨body, rest', jumps'⟩ := scan
    simp only at *
    refine ⟨by rw [← happend]; rfl, by simp, ?_, ?_, ?_, ?_, hgrows⟩
    · simpa using ⟨by simpa using hlabel, hno⟩
    · cases body with
      | nil => simp
      | cons b body => simpa [List.dropLast] using ⟨hnode, hjump⟩
    · rcases hstop with hend | hhead | ⟨last, hlast, hj⟩
      · exact .inl hend
      · exact .inr (.inl hhead)
      · refine .inr (.inr ⟨last, ?_, hj⟩)
        rw [List.getLast?_cons]
        simp [Option.mem_def.mp hlast]
    · cases body with
      | nil =>
        by_cases hend : rest' = []
        · simpa [numLinks, huncond, hnode, hend] using hlinks
        · simpa [numLinks, huncond, hnode, hend, Nat.succ_le_iff] using hgrows hend
      | cons b body => simpa [numLinks, List.getLast?_cons_cons] using hlinks

theorem scanBody_length_lt {nodes : List Stmt} (jumps : Nat) (hne : nodes ≠ [])
    (hhead : ∀ node ∈ nodes.head?, node.isLabel = false) :
    (scanBody nodes jumps).2.1.length < nodes.length := by
  have hscan := scanBody_spec nodes jumps
  have happend := congrArg List.length hscan.append
  have hpos := List.length_pos_iff.mpr (hscan.nonempty hne hhead)
  rw [List.length_append] at happend
  omega

theorem head?_dropWhile_isLabel (nodes : List Stmt) :
    ∀ node ∈ (nodes.dropWhile Stmt.isLabel).head?, node.isLabel = false := by
  intro node hnode
  have hnot := List.head?_dropWhile_not Stmt.isLabel nodes
  rw [Option.mem_def.mp hnode] at hnot
  exact hnot

/-- `build_basicblocks`: the blocks, and the number of jumps that sizes the link array. -/
def buildBasicblocks (nodes : List Stmt) (jumps : Nat) : List (List Stmt) × Nat :=
  if _hnodes : nodes = [] then ([], jumps)
  else
    let body := scanBody (nodes.dropWhile Stmt.isLabel) jumps
    let blocks := buildBasicblocks body.2.1 body.2.2
    ((nodes.takeWhile Stmt.isLabel ++ body.1) :: blocks.1, blocks.2)
termination_by nodes.length
decreasing_by
  have hpos := List.length_pos_iff.mpr _hnodes
  have hle := (List.dropWhile_suffix (l := nodes) Stmt.isLabel).length_le
  by_cases hrest : nodes.dropWhile Stmt.isLabel = []
  · simp [hrest, scanBody, hpos]
  · have hlt := scanBody_length_lt jumps hrest (head?_dropWhile_isLabel nodes)
    omega

/-- `label_max` of `build_basicblocks`. -/
def labelMax (nodes : List Stmt) : Nat :=
  (nodes.filterMap Stmt.labelIndex).foldl (fun labelMax index => max labelMax index.toNat) 0

/-- The labels of the block that `resolve_labels` sees: those before any other node. -/
def leading (bb : List Stmt) : List (BitVec 16) :=
  (bb.takeWhile Stmt.isLabel).filterMap Stmt.labelIndex

/-- `resolve_labels`: the block of each label, the last one if there are several. -/
def resolveLabels : List (List Stmt) → Nat → (BitVec 16 → Option Nat) → BitVec 16 → Option Nat
  | [], _, links => links
  | bb :: bbs, i, links =>
    resolveLabels bbs (i + 1)
      ((leading bb).foldl (fun links index => Function.update links index (some i)) links)

/-- `class Error`. -/
structure Error where
  node : Stmt
  msg : String

/-- The links `resolve_next` stores for one block; `i` is the position of the next block. -/
def nextOf (links : BitVec 16 → Option Nat) (labelN n i : Nat) (bb : List Stmt) :
    Except Error (List Nat) :=
  match bb.getLast? with
  | none => .ok []
  | some node =>
    let fall := if !node.isUncondJump && i < n then [i] else []
    if node.isJump then
      match node.jumpLabel with
      | none => .ok fall
      | some index =>
        if labelN ≤ index.toNat then .error ⟨node, "invalid label"⟩
        else match links index with
          | some dst => .ok (fall ++ [dst])
          | none => .error ⟨node, "label not found"⟩
    else .ok fall

/-- `resolve_next`, from block `i` on. -/
def resolveNext (links : BitVec 16 → Option Nat) (labelN n : Nat) :
    Nat → List (List Stmt) → Except Error (List (List Nat))
  | _, [] => .ok []
  | i, bb :: bbs => do
    let next ← nextOf links labelN n (i + 1) bb
    let nexts ← resolveNext links labelN n (i + 1) bbs
    .ok (next :: nexts)

/-- `resolve_prev`: the blocks that have block `i` among their next ones. -/
def resolvePrev (nexts : List (List Nat)) (n : Nat) : List (List Nat) :=
  (List.range n).map fun i => (List.range n).filter fun j => (nexts.getD j []).contains i

end FlowGraph

/-- `class FlowGraph`: the blocks with their `next` and `prev`. -/
structure FlowGraph where
  basicblocks : List (List Stmt)
  next : List (List Nat)
  prev : List (List Nat)

namespace FlowGraph

/-- `FlowGraph::build`. -/
def build (nodes : List Stmt) : Except Error FlowGraph :=
  if nodes.isEmpty then .ok ⟨[], [], []⟩
  else do
    let bbs := (buildBasicblocks nodes 0).1
    let next ← resolveNext (resolveLabels bbs 0 fun _ => none) (1 + labelMax nodes) bbs.length 0 bbs
    .ok ⟨bbs, next, resolvePrev next bbs.length⟩

end FlowGraph

end OneJit
