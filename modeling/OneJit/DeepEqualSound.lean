import OneJit.DeepEqual

/-!
# What `deep_equal` decides

The comparison looks at the headers, at the data of direct leaves and at the children, and stops
at a node that both trees have at the same place. What it decides is the equality of the shapes
together with the mask on the nodes it met. What it misses is the data of leaves that are not
direct, and the mask below a shared node.
-/

namespace OneJit

namespace Expr

/-- `is_allowed`. -/
def isAllowed (allow : Allow) : Expr → Bool
  | mem _ _ _ => allow.memAccess
  | binary _ op _ _ _ => allow.division || (op != .quo && op != .rem)
  | tuple _ op _ _ => allow.call || op != .call
  | _ => true

/-- A node of one code: the node at an offset is the one that the code has there. -/
def ReadFrom (code : Nat → Expr) (e : Expr) : Prop :=
  ∀ s : Expr, s.Within e → ∀ offset, s.place = .at offset → code offset = s

theorem ReadFrom.child {code : Nat → Expr} {e x : Expr} (h : e.ReadFrom code)
    (hx : x ∈ e.children) : x.ReadFrom code :=
  fun s hs => h s (.child hx hs)

mutual

/-- The tree without the data of leaves that are not direct, and without the places. -/
def shape : Expr → Expr
  | .none => .none
  | .const v p => .const ⟨if p = .direct then v.bits else 0, v.kind⟩ (if p = .direct then p else .fresh)
  | .var k id => .var k (min id directIds)
  | .label index _ => .label index 0
  | .ftype results params => .ftype results params
  | .mem k args _ => .mem k (shapeList args) .fresh
  | .unary k op x _ => .unary k op (shape x) .fresh
  | .binary k op x y _ => .binary k op (shape x) (shape y) .fresh
  | .tuple k op args _ => .tuple k op (shapeList args) .fresh

def shapeList : List Expr → List Expr
  | [] => []
  | x :: xs => shape x :: shapeList xs

end

/-- The data of a leaf. -/
def payload : Expr → Nat
  | const v _ => v.bits.toNat
  | var _ id => id
  | label _ address => address.toNat
  | _ => 0

/-- The comparison of `a` and `b` comes to the nodes `x` and `y`, if no difference stops it. -/
inductive Meets (x y : Expr) : Expr → Expr → Prop
  | self : Meets x y x y
  | child {a b x' y' : Expr} (hplace : samePlace a.place b.place = false)
      (hchild : (x', y') ∈ a.children.zip b.children) (h : Meets x y x' y') : Meets x y a b

/-- The headers and the data of direct leaves agree. -/
def sameHead : Expr → Expr → Prop
  | none, none => True
  | const v p, const w q =>
    v.kind = w.kind ∧ (p = .direct ↔ q = .direct) ∧ (p = .direct → v.bits = w.bits)
  | var k i, var k' j => k = k' ∧ min i directIds = min j directIds
  | label i _, label j _ => i = j
  | ftype results params, ftype results' params' => results = results' ∧ params = params'
  | mem k _ _, mem k' _ _ => k = k'
  | unary k op _ _, unary k' op' _ _ => k = k' ∧ op = op'
  | binary k op _ _ _, binary k' op' _ _ _ => k = k' ∧ op = op'
  | tuple k op _ _, tuple k' op' _ _ => k = k' ∧ op = op'
  | _, _ => False

/-! ## One step of each comparison -/

theorem deepEqualList_iff (allow : Allow) (xs ys : List Expr) :
    deepEqualList allow xs ys ↔ List.Forall₂ (deepEqual allow · ·) xs ys := by
  induction xs generalizing ys with
  | nil => cases ys <;> simp [deepEqualList]
  | cons x xs ih => cases ys <;> simp [deepEqualList, ih]

theorem sameTreeList_iff (xs ys : List Expr) :
    sameTreeList xs ys ↔ List.Forall₂ (sameTree · ·) xs ys := by
  induction xs generalizing ys with
  | nil => cases ys <;> simp [sameTreeList]
  | cons x xs ih => cases ys <;> simp [sameTreeList, ih]

theorem shapeList_eq_iff (xs ys : List Expr) :
    shapeList xs = shapeList ys ↔ List.Forall₂ (fun x y => shape x = shape y) xs ys := by
  induction xs generalizing ys with
  | nil => cases ys <;> simp [shapeList]
  | cons x xs ih => cases ys <;> simp [shapeList, ih]

/-- Comparing two nodes: their headers and data, the mask, and unless they are the same node the
children. -/
theorem deepEqual_step (allow : Allow) (a b : Expr) :
    deepEqual allow a b ↔ sameHead a b ∧ isAllowed allow a ∧
      (samePlace a.place b.place ∨
        List.Forall₂ (deepEqual allow · ·) a.children b.children) := by
  cases a <;> cases b <;>
    simp only [deepEqual, sameHead, isAllowed, children, place, deepEqualList_iff, Bool.and_eq_true,
      Bool.or_eq_true, beq_iff_eq, List.forall₂_nil_right_iff, or_true, true_and, and_true,
      false_and, Bool.false_eq_true, and_assoc, List.forall₂_cons]
  case const.const v p w q =>
    simp [imp_iff_not_or]
  case var.var k i k' j =>
    have hmin : (min i directIds = min j directIds) ↔
        (i < directIds ↔ j < directIds) ∧ (directIds ≤ i ∨ i = j) := by omega
    simp [hmin]
  case ftype.ftype r ps r' ps' =>
    constructor
    · rintro ⟨hlen, -, happ⟩
      exact List.append_inj happ hlen
    · rintro ⟨rfl, rfl⟩
      exact ⟨rfl, rfl, rfl⟩

theorem sameTree_step {a b : Expr} (h : sameHead a b) :
    sameTree a b ↔ a.payload = b.payload ∧
      List.Forall₂ (sameTree · ·) a.children b.children := by
  cases a <;> cases b <;> simp only [sameHead] at h <;>
    simp_all [sameTree, payload, children, sameTreeList_iff]
  case const.const v p w q =>
    obtain ⟨bits, kind⟩ := v
    obtain ⟨bits', kind'⟩ := w
    simp_all [BitVec.toNat_inj]
  case label.label => rw [BitVec.toNat_inj]

theorem shape_step (a b : Expr) :
    shape a = shape b ↔ sameHead a b ∧
      List.Forall₂ (fun x y => shape x = shape y) a.children b.children := by
  cases a <;> cases b <;> simp [shape, sameHead, children, shapeList_eq_iff, and_assoc]
  case const.const v p w q =>
    by_cases hp : p = .direct <;> by_cases hq : q = .direct <;> simp [hp, hq, and_comm]

theorem forall_meets {P : Expr → Expr → Prop} {a b : Expr} :
    (∀ x y, Meets x y a b → P x y) ↔ P a b ∧ (samePlace a.place b.place = false →
      ∀ x' y', (x', y') ∈ a.children.zip b.children → ∀ x y, Meets x y x' y' → P x y) := by
  constructor
  · intro h
    exact ⟨h a b .self, fun hplace x' y' hchild x y hmeets => h x y (.child hplace hchild hmeets)⟩
  · intro h x y hmeets
    cases hmeets with
    | self => exact h.1
    | child hplace hchild hmeets => exact h.2 hplace _ _ hchild x y hmeets

/-! ## Over the trees -/

theorem samePlace_iff {p q : Place} : samePlace p q ↔ ∃ offset, p = .at offset ∧ q = .at offset := by
  cases p with
  | «at» m =>
    cases q with
    | «at» n => simpa [samePlace] using eq_comm
    | _ => simp [samePlace]
  | _ => simp [samePlace]

/-- Two nodes of a code that are at the same place are one node. -/
theorem ReadFrom.eq_of_samePlace {code : Nat → Expr} {a b : Expr} (ha : a.ReadFrom code)
    (hb : b.ReadFrom code) (h : samePlace a.place b.place) : a = b := by
  obtain ⟨offset, hp, hq⟩ := samePlace_iff.mp h
  exact (ha a .self offset hp).symm.trans (hb b .self offset hq)

theorem sameHead_self (a : Expr) : sameHead a a := by
  cases a <;> simp [sameHead]

theorem sameTree_self (a : Expr) : sameTree a a := by
  induction a using Expr.induct_children with
  | h a ih =>
    rw [sameTree_step (sameHead_self a)]
    exact ⟨rfl, List.forall₂_same.mpr ih⟩

variable {code : Nat → Expr} {a b : Expr} {allow : Allow}

/-- What `deep_equal` decides. -/
theorem deepEqual_iff (ha : a.ReadFrom code) (hb : b.ReadFrom code) :
    deepEqual allow a b ↔
      shape a = shape b ∧ ∀ x y, Meets x y a b → isAllowed allow x := by
  induction a using Expr.induct_children generalizing b with
  | h a ih =>
    rw [deepEqual_step, shape_step, forall_meets, and_assoc, and_congr_right_iff]
    intro _
    cases hplace : samePlace a.place b.place with
    | true =>
      obtain rfl := ha.eq_of_samePlace hb hplace
      simp
    | false =>
      simp only [Bool.false_eq_true, false_or, forall_const, List.forall₂_iff_zip]
      have hchild : ∀ x' y', (x', y') ∈ a.children.zip b.children → (deepEqual allow x' y' ↔
          shape x' = shape y' ∧ ∀ x y, Meets x y x' y' → isAllowed allow x) := by
        intro x' y' hmem
        have hmem' := List.of_mem_zip hmem
        exact ih x' hmem'.1 (ha.child hmem'.1) (hb.child hmem'.2)
      constructor
      · intro h
        have hboth := fun x' y' hmem => (hchild x' y' hmem).mp (h.2.2 hmem)
        exact ⟨⟨h.2.1, fun hmem => (hboth _ _ hmem).1⟩, h.1, fun x' y' hmem => (hboth x' y' hmem).2⟩
      · intro h
        exact ⟨h.2.1, h.1.1, fun hmem => (hchild _ _ hmem).mpr ⟨h.1.2 hmem, h.2.2 _ _ hmem⟩⟩

/-- Trees of one shape are the same when their leaves hold the same. -/
theorem sameTree_iff (ha : a.ReadFrom code) (hb : b.ReadFrom code) (h : shape a = shape b) :
    sameTree a b ↔ ∀ x y, Meets x y a b → x.payload = y.payload := by
  induction a using Expr.induct_children generalizing b with
  | h a ih =>
    have hstep := (shape_step a b).mp h
    rw [sameTree_step hstep.1, forall_meets, and_congr_right_iff]
    intro _
    cases hplace : samePlace a.place b.place with
    | true =>
      obtain rfl := ha.eq_of_samePlace hb hplace
      simp [List.forall₂_same, sameTree_self]
    | false =>
      have hzip := List.forall₂_iff_zip.mp hstep.2
      simp only [forall_const, List.forall₂_iff_zip, hzip.1, true_and]
      have hchild : ∀ x' y', (x', y') ∈ a.children.zip b.children →
          (sameTree x' y' ↔ ∀ x y, Meets x y x' y' → x.payload = y.payload) := by
        intro x' y' hmem
        have hmem' := List.of_mem_zip hmem
        exact ih x' hmem'.1 (ha.child hmem'.1) (hb.child hmem'.2) (hzip.2 hmem)
      exact ⟨fun hall x' y' hmem => (hchild x' y' hmem).mp (hall hmem),
        fun hall x' y' hmem => (hchild x' y' hmem).mpr (hall x' y' hmem)⟩

theorem Meets.within {x y : Expr} (h : Meets x y a b) : x.Within a := by
  induction h with
  | self => exact .self
  | child _ hchild _ ih => exact .child (List.of_mem_zip hchild).1 ih

/-- A node of a tree is met, or it is below a node that both trees have at the same place. -/
theorem Within.meets {s : Expr} (hs : s.Within a) (h : shape a = shape b) :
    (∃ y, Meets s y a b) ∨ ∃ x y, Meets x y a b ∧ samePlace x.place y.place ∧ s.Within x := by
  induction hs generalizing b with
  | self => exact .inl ⟨b, .self⟩
  | @child x a hx hs ih =>
    cases hplace : samePlace a.place b.place with
    | true => exact .inr ⟨a, b, .self, hplace, .child hx hs⟩
    | false =>
      have hzip := List.forall₂_iff_zip.mp ((shape_step a b).mp h).2
      obtain ⟨i, hi, rfl⟩ := List.mem_iff_getElem.mp hx
      have hi' : i < b.children.length := hzip.1 ▸ hi
      have hmem : (a.children[i], b.children[i]) ∈ a.children.zip b.children :=
        List.mem_iff_getElem.mpr ⟨i, by simp [hi, hi'], by simp⟩
      rcases ih (hzip.2 hmem) with ⟨y, hy⟩ | ⟨x, y, hmeets, hsame, hwithin⟩
      · exact .inl ⟨y, .child hplace hmem hy⟩
      · exact .inr ⟨x, y, .child hplace hmem hmeets, hsame, hwithin⟩

/-- What a successful comparison should tell. -/
structure Sound (allow : Allow) (a b : Expr) : Prop where
  same : sameTree a b
  eval : ∀ ρ, eval ρ a = eval ρ b
  allowed : ∀ s : Expr, s.Within a → isAllowed allow s

/-- Nothing that the comparison looks at tells the trees apart. -/
structure Alike (allow : Allow) (a b : Expr) : Prop where
  shape : shape a = shape b
  allowed : ∀ x y, Meets x y a b → isAllowed allow x

/-- What the comparison does not look at is right too: the data of leaves that are not direct, and
the nodes below a shared one. -/
structure Unseen (allow : Allow) (a b : Expr) : Prop where
  payload : ∀ x y, Meets x y a b → x.payload = y.payload
  below : ∀ x y, Meets x y a b → samePlace x.place y.place →
    ∀ s : Expr, s.Within x → isAllowed allow s

/-- `deep_equal` is sound for two trees of a code exactly when what it does not look at is right, or
something that it looks at tells them apart. -/
theorem deepEqual_sound_iff (ha : a.ReadFrom code) (hb : b.ReadFrom code) :
    (deepEqual allow a b → Sound allow a b) ↔ (Alike allow a b → Unseen allow a b) := by
  have hequal : deepEqual allow a b ↔ Alike allow a b :=
    (deepEqual_iff ha hb).trans ⟨fun h => ⟨h.1, h.2⟩, fun h => ⟨h.shape, h.allowed⟩⟩
  rw [hequal]
  apply forall_congr'
  intro halike
  have hsame := sameTree_iff ha hb halike.shape
  constructor
  · intro h
    exact ⟨hsame.mp h.same, fun x y hmeets _ s hs => h.allowed s (hs.trans hmeets.within)⟩
  · intro h
    have htree := hsame.mpr h.payload
    refine ⟨htree, (agree_of_sameTree htree).eval, fun s hs => ?_⟩
    rcases hs.meets halike.shape with ⟨y, hy⟩ | ⟨x, y, hmeets, hplace, hwithin⟩
    · exact halike.allowed s y hy
    · exact h.below x y hmeets hplace s hwithin

/-- An `Int64` without a direct form, at an offset of the code. -/
def wide (bits : BitVec 64) (offset : Nat) : Expr := .const ⟨bits, .int64⟩ (.at offset)

theorem wide_readFrom {code : Nat → Expr} {bits : BitVec 64} {offset : Nat}
    (h : code offset = wide bits offset) : (wide bits offset).ReadFrom code := by
  intro s hs n hn
  cases hs with
  | self =>
    obtain rfl := Place.at.inj hn
    exact h
  | child hx _ => cases hx

/-- Two wide constants that hold the same are found to be equal, and are. -/
theorem deepEqual_sound_iff_wide :
    let a := wide 0x123456789ABCDEF 8
    let b := wide 0x123456789ABCDEF 20
    deepEqual ⟨true, true, true⟩ a b ∧
      ((deepEqual ⟨true, true, true⟩ a b → Sound ⟨true, true, true⟩ a b) ↔
        (Alike ⟨true, true, true⟩ a b → Unseen ⟨true, true, true⟩ a b)) := by
  intro a b
  refine ⟨by decide, ?_⟩
  have ha : a.ReadFrom (wide 0x123456789ABCDEF) := wide_readFrom rfl
  exact deepEqual_sound_iff ha (wide_readFrom rfl)

/-- Two wide constants that hold different values are found to be equal, and a quotient below a
shared node passes a mask that disallows divisions. -/
theorem not_deepEqual_sound :
    (∃ code : Nat → Expr, ∃ a b : Expr, a.ReadFrom code ∧ b.ReadFrom code ∧
      deepEqual ⟨true, true, true⟩ a b ∧ ∀ ρ, eval ρ a ≠ eval ρ b) ∧
    ∃ code : Nat → Expr, ∃ a s : Expr, a.ReadFrom code ∧
      deepEqual ⟨false, true, true⟩ a a ∧ s.Within a ∧ isAllowed ⟨false, true, true⟩ s = false := by
  constructor
  · let code : Nat → Expr := fun offset =>
      wide (if offset = 8 then 0x123456789ABCDEF else 0x123456789ABCDEE) offset
    refine ⟨code, code 8, code 20, wide_readFrom rfl, wide_readFrom rfl, by decide, fun ρ => ?_⟩
    simp only [code, wide, eval]
    decide
  · let quo : Expr := .binary .int32 .quo (.var .int32 0x1000) (.var .int32 0x1001) (.at 8)
    let neg : Expr := .unary .int32 .neg1 quo (.at 20)
    refine ⟨fun offset => if offset = 8 then quo else neg, neg, quo, ?_, by decide,
      .child (List.mem_singleton_self _) .self, by decide⟩
    intro s hs offset hplace
    cases hs with
    | self =>
      obtain rfl := Place.at.inj hplace
      rfl
    | child hx hs =>
      obtain rfl := List.mem_singleton.mp hx
      cases hs with
      | self =>
        obtain rfl := Place.at.inj hplace
        rfl
      | child hx hs =>
        -- the operands are variables, which are not in the code
        simp only [quo, children, List.mem_cons, List.not_mem_nil, or_false] at hx
        rcases hx with rfl | rfl <;> cases hs with
        | self => cases hplace
        | child hx _ => cases hx

end Expr

end OneJit
