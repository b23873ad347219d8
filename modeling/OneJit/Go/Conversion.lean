import OneJit.Go.Constant
import Mathlib.Tactic.SplitIfs

/-!
# Exact conversion of constants

A type of an integer, boolean or string kind represents a constant exactly if the constant is one
of its values. `To` and `Make` are compared with that.
-/

namespace OneJit.Go.Constant

open Types (Arch)

/-! ## Representability -/

/-- The integers of an integer kind. An untyped kind has all of them. -/
def intRange (arch : Arch) : Kind → Int → Prop
  | .int, n => -2 ^ (arch.bits - 1) ≤ n ∧ n < 2 ^ (arch.bits - 1)
  | .int8, n => -2 ^ 7 ≤ n ∧ n < 2 ^ 7
  | .int16, n => -2 ^ 15 ≤ n ∧ n < 2 ^ 15
  | .int32, n => -2 ^ 31 ≤ n ∧ n < 2 ^ 31
  | .int64, n => -2 ^ 63 ≤ n ∧ n < 2 ^ 63
  | .uint, n | .uintptr, n => 0 ≤ n ∧ n < 2 ^ arch.bits
  | .uint8, n => 0 ≤ n ∧ n < 2 ^ 8
  | .uint16, n => 0 ≤ n ∧ n < 2 ^ 16
  | .uint32, n => 0 ≤ n ∧ n < 2 ^ 32
  | .uint64, n => 0 ≤ n ∧ n < 2 ^ 64
  | .untypedInt, _ | .untypedRune, _ => True
  | _, _ => False

instance (arch : Arch) (k : Kind) (n : Int) : Decidable (intRange arch k n) := by
  unfold intRange
  split <;> infer_instance

/-- The types of a kind represent a constant exactly. Floating-point, complex and composite kinds
are not considered. -/
def Represents (arch : Arch) (k : Kind) : CValue → Prop
  | .bool _ => k.category = .bool
  | .string _ => k.category = .string
  | .int n => intRange arch k n
  | _ => False

instance (arch : Arch) (k : Kind) (c : CValue) : Decidable (Represents arch k c) := by
  cases c <;> unfold Represents <;> infer_instance

/-- An integer, rune, boolean or string kind, typed or untyped. -/
def Kind.Simple (k : Kind) : Prop := k.category = .bool ∨ k.category = .int ∨ k.category = .string

instance (k : Kind) : Decidable k.Simple := by unfold Kind.Simple; infer_instance

/-- A valid constant of type `t`. -/
def constant (c : CValue) (t : CType) : Value := some ⟨some c, some t, none⟩

@[simp] theorem constant_isValid (c : CValue) (t : CType) : (constant c t).isValid = true := rfl

@[simp] theorem constant_kind (c : CValue) (t : CType) : (constant c t).kind = t.kind := rfl

@[simp] theorem constant_type (c : CValue) (t : CType) : (constant c t).type = some t := rfl

/-! ## Validation of integers -/

attribute [local simp] validate check

theorem bits_cases (arch : Arch) : arch.bits = 32 ∨ arch.bits = 64 := by
  cases arch <;> simp [Arch.bits]

theorem int64fits_iff (arch : Arch) (k : Kind)
    (hk : k = .int ∨ k = .int8 ∨ k = .int16 ∨ k = .int32 ∨ k = .int64) (n : Int) :
    (-2 ^ 63 ≤ n ∧ n < 2 ^ 63) ∧ int64fits arch n k = true ↔ intRange arch k n := by
  rcases hk with rfl | rfl | rfl | rfl | rfl
  · rcases bits_cases arch with h | h <;>
      · simp [int64fits, Kind.size, Kind.ksize, intRange, h]
        split_ifs <;> omega
  all_goals
    simp [int64fits, Kind.size, Kind.ksize, intRange]
    split_ifs <;> omega

theorem uint64fits_iff (arch : Arch) (k : Kind)
    (hk : k = .uint ∨ k = .uint8 ∨ k = .uint16 ∨ k = .uint32 ∨ k = .uint64 ∨ k = .uintptr)
    (n : Int) :
    (0 ≤ n ∧ n < 2 ^ 64) ∧ uint64fits arch n k = true ↔ intRange arch k n := by
  rcases hk with rfl | rfl | rfl | rfl | rfl | rfl
  case inl | inr.inr.inr.inr.inr =>
    rcases bits_cases arch with h | h <;>
      · simp [uint64fits, Kind.size, Kind.ksize, intRange, h]
        omega
  all_goals
    simp [uint64fits, Kind.size, Kind.ksize, intRange]
    omega

/-- The result of a failed validation. -/
def failed (e : Err) : Value := some ⟨some .unknown, none, some e⟩

@[simp] theorem failed_isValid (e : Err) : (failed e).isValid = false := rfl

theorem invalid_eq : invalid = failed .invalid := rfl

theorem constant_ne_failed (c : CValue) (t : CType) (e : Err) : constant c t ≠ failed e := by
  simp [constant, failed]

/-- What is neither a floating-point nor a complex number. -/
def CValue.Discrete (c : CValue) : Prop := c.kind = .bool ∨ c.kind = .string ∨ c.kind = .int

theorem Represents.discrete {arch : Arch} {k : Kind} {c : CValue} (h : Represents arch k c) :
    c.Discrete := by
  cases c <;> simp_all [Represents, CValue.Discrete, CValue.kind]

/-- Only integer kinds represent an integer. -/
theorem category_of_intRange {arch : Arch} {k : Kind} {n : Int} (h : intRange arch k n) :
    k.category = .int := by
  cases k <;> first | rfl | exact absurd h id

/-- Among the signed kinds `validate` looks at the range only. -/
theorem validate_signed (lib : Inexact) (arch : Arch) {k : Kind}
    (hk : k = .int ∨ k = .int8 ∨ k = .int16 ∨ k = .int32 ∨ k = .int64) (n : Int)
    (address : Option Nat) :
    validate lib arch (some (.int n)) (some ⟨k, address⟩) =
      some (if intRange arch k n then constant (.int n) ⟨k, address⟩
        else failed (.overflow (.int n) k)) := by
  have hfits := int64fits_iff arch k hk n
  by_cases h : intRange arch k n
  · obtain ⟨hval, hfit⟩ := hfits.mpr h
    rw [if_pos h]
    rcases hk with rfl | rfl | rfl | rfl | rfl <;>
      simpa [CValue.kind, CValue.int64Val, constant, hfit] using hval
  · have hnot := mt hfits.mp h
    rw [if_neg h]
    rcases hk with rfl | rfl | rfl | rfl | rfl <;>
      simpa [CValue.kind, CValue.int64Val, failed] using hnot

/-- So it does among the unsigned kinds. -/
theorem validate_unsigned (lib : Inexact) (arch : Arch) {k : Kind}
    (hk : k = .uint ∨ k = .uint8 ∨ k = .uint16 ∨ k = .uint32 ∨ k = .uint64 ∨ k = .uintptr)
    (n : Int) (address : Option Nat) :
    validate lib arch (some (.int n)) (some ⟨k, address⟩) =
      some (if intRange arch k n then constant (.int n) ⟨k, address⟩
        else failed (.overflow (.int n) k)) := by
  have hfits := uint64fits_iff arch k hk n
  by_cases h : intRange arch k n
  · obtain ⟨hval, hfit⟩ := hfits.mpr h
    rw [if_pos h]
    rcases hk with rfl | rfl | rfl | rfl | rfl | rfl <;>
      simpa [CValue.kind, CValue.uint64Val, constant, hfit] using hval
  · have hnot := mt hfits.mp h
    rw [if_neg h]
    rcases hk with rfl | rfl | rfl | rfl | rfl | rfl <;>
      simpa [CValue.kind, CValue.uint64Val, failed] using hnot

theorem integer_cases {k : Kind} (h : k.category = .int) :
    (k = .int ∨ k = .int8 ∨ k = .int16 ∨ k = .int32 ∨ k = .int64) ∨
      (k = .uint ∨ k = .uint8 ∨ k = .uint16 ∨ k = .uint32 ∨ k = .uint64 ∨ k = .uintptr) ∨
      k = .untypedInt ∨ k = .untypedRune := by
  cases k <;> simp [Kind.category] at h ⊢

theorem Kind.Simple.cases {k : Kind} (h : k.Simple) :
    k.category = .int ∨ (k = .bool ∨ k = .untypedBool) ∨ k = .string ∨ k = .untypedString := by
  cases k <;> simp [Kind.Simple, Kind.category] at h ⊢

/-- The validation of an integer for an integer kind. -/
theorem validate_int (lib : Inexact) (arch : Arch) (n : Int) {t : CType}
    (ht : t.kind.category = .int) :
    validate lib arch (some (.int n)) (some t) =
      some (if intRange arch t.kind n then constant (.int n) t
        else failed (.overflow (.int n) t.kind)) := by
  obtain ⟨k, address⟩ := t
  dsimp only at ht ⊢
  rcases integer_cases ht with h | h | rfl | rfl
  · exact validate_signed lib arch h n address
  · exact validate_unsigned lib arch h n address
  · simp [CValue.kind, CValue.toInt, constant, intRange]
  · simp [CValue.kind, CValue.toInt, constant, intRange]

/-- Nothing but an integer is valid for an integer kind. -/
theorem validate_int_of_ne (lib : Inexact) (arch : Arch) {c : CValue}
    (hc : c.kind = .bool ∨ c.kind = .string) {t : CType} (ht : t.kind.category = .int) :
    ∃ e, validate lib arch (some c) (some t) = some (failed e) := by
  obtain ⟨k, address⟩ := t
  dsimp only at ht ⊢
  cases c <;> simp [CValue.kind] at hc <;>
  rcases integer_cases ht with
      (rfl | rfl | rfl | rfl | rfl) | (rfl | rfl | rfl | rfl | rfl | rfl) | rfl | rfl <;>
    simp [failed, CValue.kind, CValue.toInt]

/-- A validation succeeds exactly for what the type represents. -/
theorem validate_spec (lib : Inexact) (arch : Arch) (c : CValue) (t : CType) (hc : c.Discrete)
    (ht : t.kind.Simple) :
    Represents arch t.kind c ∧ validate lib arch (some c) (some t) = some (constant c t) ∨
      ¬ Represents arch t.kind c ∧
        ∃ e, validate lib arch (some c) (some t) = some (failed e) := by
  rcases ht.cases with hint | hbool
  · cases c with
    | unknown | float | complex => simp [CValue.Discrete, CValue.kind] at hc
    | bool | string =>
      exact .inr ⟨by simp [Represents, hint],
        validate_int_of_ne lib arch (by simp [CValue.kind]) hint⟩
    | int n =>
      rw [validate_int lib arch n hint]
      by_cases h : intRange arch t.kind n
      · exact .inl ⟨h, by rw [if_pos h]⟩
      · exact .inr ⟨h, _, by rw [if_neg h]⟩
  · obtain ⟨k, address⟩ := t
    dsimp only at hbool ⊢
    cases c <;> simp [CValue.Discrete, CValue.kind] at hc <;>
    rcases hbool with (rfl | rfl) | rfl | rfl <;>
      simp [Represents, intRange, constant, failed, Kind.category, CValue.kind]

/-! ## Conversion -/

/-- `To` converts a constant of type `u` exactly to `t`: the result is valid if and only if `t`
represents the constant, and then it is the constant of type `t`. -/
def Converts (lib : Inexact) (arch : Arch) (c : CValue) (u t : CType) : Prop :=
  ∃ w, toType lib arch (constant c u) (some t) = some w ∧
    (w.isValid = true ↔ Represents arch t.kind c) ∧
    (Represents arch t.kind c → w.type = some t ∧ w.bind Data.cval = some c)

/-- The pairs of types for which `To` is exact: one type, or types of two kinds which are not both
boolean and not both string kinds. -/
def ExactPair (u t : CType) : Prop :=
  u = t ∨ u.kind ≠ t.kind ∧ (t.kind.category = .int ∨ u.kind.category ≠ t.kind.category)

instance (u t : CType) : Decidable (ExactPair u t) := by unfold ExactPair; infer_instance

theorem converts_of_failed {lib : Inexact} {arch : Arch} {c : CValue} {u t : CType} {e : Err}
    (h : toType lib arch (constant c u) (some t) = some (failed e)) :
    Converts lib arch c u t ↔ ¬ Represents arch t.kind c := by
  constructor
  · intro ⟨w, heq, hvalid, _⟩ hrep
    rw [h] at heq
    rw [← Option.some.inj heq] at hvalid
    simpa using hvalid.mpr hrep
  · intro hnot
    exact ⟨_, h, by simp [hnot], fun hrep => absurd hrep hnot⟩

/-- A type of a boolean or string kind represents the constants of its category. -/
theorem represents_category {arch : Arch} {c : CValue} {k k' : Kind} (hc : Represents arch k c)
    (hint : k'.category ≠ .int) :
    Represents arch k' c ↔ k.category = k'.category := by
  cases c with
  | unknown | float | complex => exact hc.elim
  | bool | string =>
    simp only [Represents] at hc ⊢
    rw [hc]
    exact eq_comm
  | int n =>
    have hcat := category_of_intRange hc
    have hnot : ¬ intRange arch k' n := fun h => hint (category_of_intRange h)
    simp only [Represents, hnot, hcat, false_iff]
    exact fun h => hint h.symm

/-- To a type of an integer kind a constant of another kind is converted through `validate`. -/
theorem converts_int (lib : Inexact) (arch : Arch) {c : CValue} {u t : CType}
    (hc : c.Discrete) (hne : u.kind ≠ t.kind) (ht : t.kind.category = .int) :
    Converts lib arch c u t := by
  have hne' : u ≠ t := fun h => hne (by rw [h])
  have hto : toType lib arch (constant c u) (some t) = validate lib arch (some c.toInt) (some t) := by
    simp [toType, constant, hne, hne', ht]
  cases c with
  | unknown | float | complex => simp [CValue.Discrete, CValue.kind] at hc
  | bool | string =>
    have hnot : toType lib arch (constant _ u) (some t) = some (failed .invalid) := hto
    rw [converts_of_failed hnot]
    simp [Represents, ht]
  | int n =>
    rcases validate_spec lib arch (.int n) t hc (.inr (.inl ht)) with ⟨hrep, hval⟩ | ⟨hnot, e, hval⟩
    · exact ⟨_, hto.trans hval, by simp [hrep], fun _ => ⟨rfl, rfl⟩⟩
    · exact (converts_of_failed (hto.trans hval)).mpr hnot

/-- To a type of another boolean or string kind nothing is converted. -/
theorem converts_none (lib : Inexact) (arch : Arch) {c : CValue} {u t : CType}
    (hc : Represents arch u.kind c) (hne : u.kind ≠ t.kind) (ht : t.kind.Simple)
    (hint : t.kind.category ≠ .int) :
    Converts lib arch c u t ↔ u.kind.category ≠ t.kind.category := by
  have hne' : u ≠ t := fun h => hne (by rw [h])
  have hto : toType lib arch (constant c u) (some t) = some (failed .invalid) := by
    rcases ht.cases with h | (h | h) | h | h
    · exact absurd h hint
    all_goals
      rw [h] at hne
      simp [toType, constant, hne, hne', h, Kind.category, validate, invalid_eq]
  rw [converts_of_failed hto, represents_category hc hint]

theorem converts_iff (lib : Inexact) (arch : Arch) (c : CValue) (u t : CType)
    (hc : Represents arch u.kind c) (ht : t.kind.Simple) :
    Converts lib arch c u t ↔ ExactPair u t := by
  by_cases heq : u = t
  · subst heq
    simp only [ExactPair, true_or, iff_true]
    exact ⟨constant c u, by simp [toType, constant], by simp [hc], fun _ => ⟨rfl, rfl⟩⟩
  · by_cases hkind : u.kind = t.kind
    · have hto : toType lib arch (constant c u) (some t) = some (constant c u) := by
        simp [toType, constant, heq, hkind]
      simp only [ExactPair, heq, hkind, ne_eq, not_true_eq_false, false_and, or_self, iff_false]
      intro ⟨w, hw, _, htype⟩
      rw [hto, Option.some.injEq] at hw
      subst hw
      have h := (htype (hkind ▸ hc)).1
      simp only [constant_type, Option.some.injEq] at h
      exact heq h
    · simp only [ExactPair, heq, hkind, ne_eq, not_false_eq_true, true_and, false_or]
      by_cases hint : t.kind.category = .int
      · simp only [hint, true_or, iff_true]
        exact converts_int lib arch hc.discrete hkind hint
      · rw [converts_none lib arch hc hkind ht hint]
        simp [hint]

/-! ## Creation -/

/-- The constant that a Go value of a boolean, string or integer type is. -/
def GoValue.constant? : GoValue → Option CValue
  | .bool b => some (.bool b)
  | .string s => some (.string s)
  | .int n => some (.int n)
  | .uint n => some (.int n)
  | .bigInt n => n.map CValue.int
  | _ => none

/-- `Make` creates a constant exactly: it is valid if and only if the Go value is of a type for the
kind of `t` and `t` represents it. -/
def Makes (lib : Inexact) (arch : Arch) (t : CType) (x : GoValue) : Prop :=
  ∃ w, make lib arch (some t) x = some w ∧
    (w.isValid = true ↔ ∃ c, x.constant? = some c ∧ Represents arch t.kind c) ∧
    ∀ c, x.constant? = some c → Represents arch t.kind c →
      w.type = some t ∧ w.bind Data.cval = some c

/-- What `Make` creates exactly: no nil `*big.Int` for an integer kind, and for an untyped integer
kind no value of a type that is not an integer type. -/
def ExactMake (t : CType) (x : GoValue) : Prop :=
  t.kind.category = .int →
    x ≠ .bigInt none ∧ (t.kind.isUntyped = true → ∃ n, x.constant? = some (.int n))

theorem makes_of_failed {lib : Inexact} {arch : Arch} {t : CType} {x : GoValue} {e : Err}
    (h : make lib arch (some t) x = some (failed e))
    (hnot : ∀ c, x.constant? = some c → ¬ Represents arch t.kind c) : Makes lib arch t x := by
  refine ⟨_, h, ?_, fun c hc hrep => absurd hrep (hnot c hc)⟩
  simp only [failed_isValid, Bool.false_eq_true, false_iff]
  intro ⟨c, hc, hrep⟩
  exact hnot c hc hrep

theorem makes_of_constant {lib : Inexact} {arch : Arch} {t : CType} {x : GoValue} {c : CValue}
    (h : make lib arch (some t) x = some (constant c t)) (hx : x.constant? = some c)
    (hrep : Represents arch t.kind c) : Makes lib arch t x := by
  refine ⟨_, h, by simpa [hx] using hrep, ?_⟩
  intro c' hc' _
  rw [hx, Option.some.injEq] at hc'
  subst hc'
  exact ⟨rfl, rfl⟩

/-- An integer is created through `validate`, or as it is for an untyped kind. -/
theorem makes_integer (lib : Inexact) (arch : Arch) {t : CType} {x : GoValue} {n : Int}
    (ht : t.kind.category = .int) (hx : x.constant? = some (.int n)) : Makes lib arch t x := by
  have hkind : t.kind ≠ .untypedNil := fun h => by simp [h, Kind.category] at ht
  have hconv : convert t.kind x = some (some (.int n), false, !t.kind.isUntyped) := by
    cases x <;> simp_all [GoValue.constant?, convert, makeInt]
  cases huntyped : t.kind.isUntyped with
  | true =>
    have hrep : Represents arch t.kind (.int n) := by
      rcases integer_cases ht with
        (h | h | h | h | h) | (h | h | h | h | h | h) | h | h <;>
        first
          | (rw [h] at huntyped; exact absurd huntyped (by decide))
          | simp [Represents, h, intRange]
    exact makes_of_constant (by simp [make, hkind, hconv, huntyped, constant]) hx hrep
  | false =>
    have hmake : make lib arch (some t) x = validate lib arch (some (.int n)) (some t) := by
      simp [make, hkind, hconv, huntyped]
    rcases validate_spec lib arch (.int n) t (by simp [CValue.Discrete, CValue.kind])
      (.inr (.inl ht)) with ⟨hrep, hval⟩ | ⟨hnot, e, hval⟩
    · exact makes_of_constant (hmake.trans hval) hx hrep
    · refine makes_of_failed (hmake.trans hval) ?_
      intro c hc
      rw [hx, Option.some.injEq] at hc
      rwa [← hc]

/-- For a boolean or string kind everything else is refused. -/
theorem makes_simple (lib : Inexact) (arch : Arch) {t : CType} (x : GoValue)
    (ht : t.kind.Simple) (hint : t.kind.category ≠ .int) : Makes lib arch t x := by
  obtain ⟨k, address⟩ := t
  dsimp only at ht hint
  rcases ht.cases with h | (rfl | rfl) | rfl | rfl
  · exact absurd h hint
  · cases x with
    | bool b => exact makes_of_constant rfl rfl rfl
    | _ => exact makes_of_failed rfl (by simp [GoValue.constant?, Represents, intRange, Kind.category])
  · cases x with
    | bool b => exact makes_of_constant rfl rfl rfl
    | _ => exact makes_of_failed rfl (by simp [GoValue.constant?, Represents, intRange, Kind.category])
  · cases x with
    | string str => exact makes_of_constant rfl rfl rfl
    | _ => exact makes_of_failed rfl (by simp [GoValue.constant?, Represents, intRange, Kind.category])
  · cases x with
    | string str => exact makes_of_constant rfl rfl rfl
    | _ => exact makes_of_failed rfl (by simp [GoValue.constant?, Represents, intRange, Kind.category])

/-- What is not an integer is refused for a typed integer kind, and accepted for an untyped one. -/
theorem makes_other (lib : Inexact) (arch : Arch) {t : CType} {x : GoValue}
    (ht : t.kind.category = .int) (hx : ∀ n, x.constant? ≠ some (.int n)) :
    Makes lib arch t x ↔ x ≠ .bigInt none ∧ t.kind.isUntyped = false := by
  have hkind : t.kind ≠ .untypedNil := fun h => by simp [h, Kind.category] at ht
  have hnot : ∀ c, x.constant? = some c → ¬ Represents arch t.kind c := by
    intro c hc
    cases c with
    | int n => exact absurd hc (hx n)
    | bool | string => simp [Represents, ht]
    | unknown | float | complex => exact id
  by_cases hnil : x = .bigInt none
  · have hmake : make lib arch (some t) x = none := by
      simp [make, hkind, convert, ht, hnil]
    simp only [hnil, ne_eq, not_true_eq_false, false_and, iff_false]
    intro ⟨w, hw, _⟩
    rw [← hnil, hmake] at hw
    exact absurd hw (by simp)
  · have hconv : convert t.kind x = some (none, false, !t.kind.isUntyped) := by
      cases x with
      | bigInt n =>
        cases n with
        | none => exact absurd rfl hnil
        | some n => exact absurd rfl (hx n)
      | int n => exact absurd rfl (hx n)
      | uint n => exact absurd rfl (hx n)
      | _ => simp [convert, ht, makeInt]
    simp only [ne_eq, hnil, not_false_eq_true, true_and]
    cases huntyped : t.kind.isUntyped with
    | false =>
      simp only [iff_true]
      have hmake : make lib arch (some t) x = some (failed .invalid) := by
        simp [make, hkind, hconv, huntyped, validate, invalid_eq]
      exact makes_of_failed hmake hnot
    | true =>
      have hmake : make lib arch (some t) x = some (some ⟨none, some t, none⟩) := by
        simp [make, hkind, hconv, huntyped]
      simp only [Bool.true_eq_false, iff_false]
      intro ⟨w, hw, hvalid, _⟩
      rw [hmake, Option.some.injEq] at hw
      subst hw
      obtain ⟨c, hc, hrep⟩ := hvalid.mp rfl
      exact hnot c hc hrep

theorem makes_iff (lib : Inexact) (arch : Arch) (t : CType) (x : GoValue) (ht : t.kind.Simple) :
    Makes lib arch t x ↔ ExactMake t x := by
  by_cases hint : t.kind.category = .int
  · simp only [ExactMake, hint, true_implies]
    by_cases hx : ∃ n, x.constant? = some (.int n)
    · obtain ⟨n, hn⟩ := hx
      have hne : x ≠ .bigInt none := fun h => by simp [h, GoValue.constant?] at hn
      simp only [makes_integer lib arch hint hn, true_iff]
      exact ⟨hne, fun _ => ⟨n, hn⟩⟩
    · rw [makes_other lib arch hint (fun n hn => hx ⟨n, hn⟩)]
      simp [hx]
  · simp only [makes_simple lib arch x ht hint, true_iff]
    exact fun h => absurd h hint

/-- Where conversion and creation are exact. -/
theorem conversion_iff (lib : Inexact) (arch : Arch) :
    (∀ (c : CValue) (u t : CType), Represents arch u.kind c → t.kind.Simple →
      (Converts lib arch c u t ↔ ExactPair u t)) ∧
    ∀ (t : CType) (x : GoValue), t.kind.Simple → (Makes lib arch t x ↔ ExactMake t x) :=
  ⟨converts_iff lib arch, makes_iff lib arch⟩

/-- A library that knows no number but integers. -/
def noFloats : Inexact where
  toFloat := fun _ => .unknown
  toComplex := fun _ => .unknown
  exact := fun _ _ => false
  unaryOp := fun _ _ => none
  binaryOp := fun _ _ _ => none
  compare := fun _ _ _ => none

/-- The untyped constant 128 is no `int8`, and 200 made for `uint8` is one. -/
theorem conversion_iff_bytes :
    Converts noFloats .amd64 (.int 128) (basicType .untypedInt) (basicType .int8) ∧
      Makes noFloats .amd64 (basicType .uint8) (.int 200) :=
  ⟨((conversion_iff noFloats .amd64).1 (.int 128) (basicType .untypedInt) (basicType .int8)
      (by decide) (by decide)).mpr (by decide),
    ((conversion_iff noFloats .amd64).2 (basicType .uint8) (.int 200) (by decide)).mpr
      fun _ => ⟨by decide, fun h => absurd h (by decide)⟩⟩

/-- The untyped constant `true` has no conversion to `bool`, an `int` keeps its type when it is
converted to another type of kind `int`, and a text is a valid untyped integer. -/
theorem conversion_inexact :
    toType noFloats .amd64 (constant (.bool true) (basicType .untypedBool)) (some (basicType .bool)) =
        some invalid ∧
      toType noFloats .amd64 (constant (.int 1) (basicType .int)) (some ⟨.int, some 7⟩) =
        some (constant (.int 1) (basicType .int)) ∧
      make noFloats .amd64 (some (basicType .untypedInt)) (.string []) =
        some (some ⟨none, some (basicType .untypedInt), none⟩) ∧
      ¬ Converts noFloats .amd64 (.bool true) (basicType .untypedBool) (basicType .bool) ∧
      ¬ Converts noFloats .amd64 (.int 1) (basicType .int) ⟨.int, some 7⟩ ∧
      ¬ Makes noFloats .amd64 (basicType .untypedInt) (.string []) := by
  refine ⟨rfl, rfl, rfl, ?_, ?_, ?_⟩
  · rw [converts_iff noFloats .amd64 _ _ _ (by decide) (by decide)]
    decide
  · rw [converts_iff noFloats .amd64 _ _ _ (by decide) (by decide)]
    decide
  · rw [makes_iff noFloats .amd64 _ _ (by decide)]
    intro h
    obtain ⟨n, hn⟩ := (h rfl).2 rfl
    simp [GoValue.constant?] at hn

end OneJit.Go.Constant
