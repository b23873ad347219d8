import OneJit.Go.Named
import OneJit.Go.Sort
import OneJit.Lib.Interning
import Mathlib.Data.List.Lex
import Mathlib.Data.List.Sort
import Mathlib.Data.Prod.Lex

/-!
# Interfaces

`NewInterface`, which sorts the direct methods and those of the embedded types together, and drops
duplicates. The methods of an embedded type are read from the field `extra.methods` of that type,
which has the declared methods of a named type. `none` is a panic.
-/

namespace OneJit.Go.Types

/-! ## Methods -/

namespace Method

/-- `Method{}`. -/
def zero : Method := ⟨none, [], [], 0⟩

/-- A method without its index. -/
def sig (m : Method) : Option TypeRef × Bytes × Bytes := (m.type, m.pkgPath, m.name)

end Method

/-- `<` of strings. -/
def bytesLess (a b : Bytes) : Bool := a.map UInt8.toNat < b.map UInt8.toNat

/-- `Less` of `sortableMethods`. -/
def methodLess (m m' : Method) : Bool :=
  bytesLess m.pkgPath m'.pkgPath || (m.pkgPath == m'.pkgPath && bytesLess m.name m'.name)

/-- `sortMethods`. -/
def sortMethods (ms : List Method) : List Method := (Sort.sort methodLess ms.toArray).toList

/-- The loop of `computeInterfaceMethods`: `kept` are the methods before place `n`. -/
def dropDuplicates (isFunc : Option TypeRef → Bool) :
    List Method → List Method → Option (List Method)
  | [], kept => some kept
  | m :: ms, kept =>
    let mtd := { m with index := kept.length }
    if !isFunc mtd.type then none
    else
      match kept.getLast? with
      | none => dropDuplicates isFunc ms (kept ++ [mtd])
      | some last =>
        -- `checkDifferentMethod`
        if last.name ≠ mtd.name ∨ last.pkgPath ≠ mtd.pkgPath then
          dropDuplicates isFunc ms (kept ++ [mtd])
        else if last.type = mtd.type then dropDuplicates isFunc ms kept
        else none

/-- `computeInterfaceMethods`, after the methods have been collected. -/
def mergeMethods (isFunc : Option TypeRef → Bool) (out : List Method) : Option (List Method) :=
  dropDuplicates isFunc (if 1 < out.length then sortMethods out else out) []

/-- The number of places of the key for `n` methods. -/
def interfacePlaces (n : Nat) : Nat := if n = 0 then 0 else Store.funcPlaces n

/-- The key of `makeInterfaceKey`. -/
def interfaceKey (ms : List Method) : Option (List Method) :=
  if 65536 < ms.length then none
  else some (ms ++ List.replicate (interfacePlaces ms.length - ms.length) Method.zero)

/-- The kind `InterfaceKind`. -/
def interfaceKind : Kind := .other 20

namespace Universe

/-- Whether a type is a `*Func`. -/
def isFunc (s : Universe) (t : Option TypeRef) : Bool :=
  match t with
  | none => false
  | some t =>
    (s.named t).isNone && (s.interfaces t).isNone &&
      match s.store.common t with
      | some r => r.kind = .func
      | none => false

/-- `checkEmbeddedInterface`: the underlying type is an interface. -/
def isInterface (s : Universe) (t : TypeRef) : Bool :=
  match s.underlying t with
  | some u => (s.interfaces u).isSome
  | none => false

/-- The field `extra.methods` of a type. -/
def extraMethods (s : Universe) (t : TypeRef) : List Method :=
  match s.named t with
  | some n => n.methods
  | none => (s.interfaces t).getD []

/-- The methods that `computeInterfaceMethods` collects. -/
def collectMethods (s : Universe) (embedded : List TypeRef) (direct : List Method) :
    Option (List Method) :=
  if embedded.all s.isInterface then some (direct ++ embedded.flatMap s.extraMethods) else none

/-- `flagsAndMethod`. -/
def flagsAndMethod (s : Universe) : List Method → Flags
  | [] => BitVec.allOnes 16
  | m :: ms => ((m.type.bind s.store.common).map Complete.flags).getD 0 &&& s.flagsAndMethod ms

/-- The record of a new interface. -/
def interfaceRecord (s : Universe) (arch : Arch) (embedded : List TypeRef) (method : List Method) :
    Record :=
  let size := arch.bytes
  { rtype :=
      { size := 2 * size
        align := size.setWidth 16
        flags := (s.flagsAndMethod method &&& flagComplete) ||| flagComparable
        kind := interfaceKind
        elem := none
        hasExtra := true
        ptrTo := none }
    extra := { Extra.zero with types := embedded } }

/-- A new interface, with its methods and in the cache. -/
def fileInterface (s : Universe) (key method : List Method) (r : Record) : Universe :=
  let t := s.store.heap.length
  { s with
    store := { s.store with heap := s.store.heap ++ [r] }
    interfaces := Function.update s.interfaces t (some method)
    interfaceMap := (key, t) :: s.interfaceMap }

/-- `NewInterface`. -/
def newInterface (arch : Arch) (embedded : List TypeRef) (method : List Method) (s : Universe) :
    Option (TypeRef × Universe) := do
  let out ← s.collectMethods embedded method
  let method ← mergeMethods s.isFunc out
  let key ← interfaceKey method
  match s.interfaceMap.lookup key with
  | some t => some (t, s)
  | none =>
    some (s.store.heap.length,
      s.fileInterface key method (s.interfaceRecord arch embedded method))

/-- `AddMethod`, for a named type `t`. -/
def addMethod (t : TypeRef) (mtd : Method) (s : Universe) : Option Universe :=
  match s.named t with
  | none => none
  | some n =>
    if s.isFunc mtd.type then
      let m := { mtd with index := n.methods.length }
      some { s with named := Function.update s.named t (some { n with methods := n.methods ++ [m] }) }
    else none

end Universe

/-! ## The order of methods -/

/-- The package and name of a method, as numbers. -/
def Method.key (m : Method) : List Nat ×ₗ List Nat :=
  toLex (m.pkgPath.map UInt8.toNat, m.name.map UInt8.toNat)

theorem bytes_inj {a b : Bytes} (h : a.map UInt8.toNat = b.map UInt8.toNat) : a = b :=
  List.map_injective_iff.mpr (fun _ _ h => UInt8.toNat_inj.mp h) h

theorem key_eq_iff {m m' : Method} : m.key = m'.key ↔ m.pkgPath = m'.pkgPath ∧ m.name = m'.name := by
  constructor
  · intro h
    simp only [Method.key, EmbeddingLike.apply_eq_iff_eq, Prod.mk.injEq] at h
    exact ⟨bytes_inj h.1, bytes_inj h.2⟩
  · intro h
    simp [Method.key, h.1, h.2]

/-- `Less` is the lexicographic order of the keys. -/
theorem methodLess_iff {m m' : Method} :
    methodLess m m' = true ↔ m.key < m'.key := by
  have hpkg : m.pkgPath = m'.pkgPath ↔ m.pkgPath.map UInt8.toNat = m'.pkgPath.map UInt8.toNat :=
    ⟨fun h => by rw [h], bytes_inj⟩
  simp only [methodLess, bytesLess, Bool.or_eq_true, Bool.and_eq_true, decide_eq_true_eq,
    beq_iff_eq, Method.key, Prod.Lex.toLex_lt_toLex, hpkg]

theorem methodLess_false_iff {m m' : Method} :
    methodLess m m' = false ↔ m'.key ≤ m.key := by
  rw [← not_lt, ← methodLess_iff, Bool.not_eq_true]

theorem methodLess_weak : GapSort.Weak methodLess where
  asymm _ _ h := methodLess_false_iff.mpr (methodLess_iff.mp h).le
  trans _ _ _ hba hcb :=
    methodLess_false_iff.mpr ((methodLess_false_iff.mp hba).trans (methodLess_false_iff.mp hcb))

theorem sortMethods_perm (ms : List Method) : (sortMethods ms).Perm ms := by
  have h := (Sort.sort_perm methodLess ms.toArray).toList
  simpa [sortMethods] using h

theorem sortMethods_sorted (ms : List Method) :
    (sortMethods ms).Pairwise fun a b => a.key ≤ b.key :=
  (Sort.sort_sorted methodLess_weak ms.toArray).imp methodLess_false_iff.mp

/-! ## Without duplicates -/

/-- Two methods with one name and package have two types. -/
def Conflict (sigs : List (Option TypeRef × Bytes × Bytes)) : Prop :=
  ∃ a ∈ sigs, ∃ b ∈ sigs, a.2 = b.2 ∧ a.1 ≠ b.1

/-- Methods that are sorted, without duplicates, with their places as index. -/
structure Canonical (ms : List Method) : Prop where
  sorted : ms.Pairwise fun a b => a.key < b.key
  index : ∀ (i : Nat) m, ms[i]? = some m → m.index = i

theorem Canonical.nil : Canonical [] := ⟨.nil, by simp⟩

theorem Canonical.push {ms : List Method} (h : Canonical ms) {m : Method}
    (hlt : ∀ k ∈ ms, k.key < m.key) :
    Canonical (ms ++ [{ m with index := ms.length }]) where
  sorted := by
    rw [List.pairwise_append]
    refine ⟨h.sorted, List.pairwise_singleton _ _, fun a ha b hb => ?_⟩
    rw [List.mem_singleton.mp hb]
    exact hlt a ha
  index := by
    intro i x hx
    rcases Nat.lt_trichotomy i ms.length with hlt' | heq | hgt
    · rw [List.getElem?_append_left hlt'] at hx
      exact h.index i x hx
    · subst heq
      simp only [List.getElem?_concat_length, Option.some.injEq] at hx
      rw [← hx]
    · rw [List.getElem?_eq_none (by simp; omega)] at hx
      simp at hx

/-- In a sorted list the name and package determine the method. -/
theorem Canonical.no_conflict {ms : List Method} (h : Canonical ms) :
    ¬ Conflict (ms.map Method.sig) := by
  intro ⟨a, ha, b, hb, hkey, htype⟩
  obtain ⟨m, hm, rfl⟩ := List.mem_map.mp ha
  obtain ⟨m', hm', rfl⟩ := List.mem_map.mp hb
  simp only [Method.sig, Prod.mk.injEq] at hkey
  have heq : m.key = m'.key := key_eq_iff.mpr hkey
  obtain ⟨i, hi, hmi⟩ := List.getElem_of_mem hm
  obtain ⟨j, hj, hmj⟩ := List.getElem_of_mem hm'
  have hsorted := List.pairwise_iff_getElem.mp h.sorted
  rcases Nat.lt_trichotomy i j with hlt | hij | hlt
  · have := hsorted i j hi hj hlt
    rw [hmi, hmj, heq] at this
    exact lt_irrefl _ this
  · subst hij
    rw [hmi] at hmj
    exact htype (by rw [hmj])
  · have := hsorted j i hj hi hlt
    rw [hmi, hmj, heq] at this
    exact lt_irrefl _ this

section Drop

variable {isFunc : Option TypeRef → Bool}

/-- The loop fails on a conflict, and otherwise extends the methods kept so far by those whose
name and package are new. -/
theorem dropDuplicates_spec {ms kept : List Method} (hfunc : ∀ m ∈ ms, isFunc m.type = true)
    (hsorted : ms.Pairwise fun a b => a.key ≤ b.key) (hkept : Canonical kept)
    (hle : ∀ k ∈ kept, ∀ m ∈ ms, k.key ≤ m.key) :
    (dropDuplicates isFunc ms kept = none ∧ Conflict ((kept ++ ms).map Method.sig)) ∨
      ∃ out, dropDuplicates isFunc ms kept = some out ∧ Canonical out ∧
        ∀ a, a ∈ out.map Method.sig ↔ a ∈ (kept ++ ms).map Method.sig := by
  induction ms generalizing kept with
  | nil => exact .inr ⟨kept, rfl, hkept, by simp⟩
  | cons m ms ih =>
    have hm : isFunc m.type = true := hfunc m (by simp)
    obtain ⟨hms, hsorted'⟩ := List.pairwise_cons.mp hsorted
    have hfunc' : ∀ x ∈ ms, isFunc x.type = true := fun x hx => hfunc x (by simp [hx])
    -- the methods kept are below the next one: it is kept too
    have hpush (hlt : ∀ k ∈ kept, k.key < m.key)
        (hstep : dropDuplicates isFunc (m :: ms) kept =
          dropDuplicates isFunc ms (kept ++ [{ m with index := kept.length }])) :
        (dropDuplicates isFunc (m :: ms) kept = none ∧
          Conflict ((kept ++ m :: ms).map Method.sig)) ∨
        ∃ out, dropDuplicates isFunc (m :: ms) kept = some out ∧ Canonical out ∧
          ∀ a, a ∈ out.map Method.sig ↔ a ∈ (kept ++ m :: ms).map Method.sig := by
      have hle' : ∀ k ∈ kept ++ [{ m with index := kept.length }], ∀ x ∈ ms,
          k.key ≤ x.key := by
        intro k hk x hx
        rcases List.mem_append.mp hk with hk | hk
        · exact hle k hk x (by simp [hx])
        · rw [List.mem_singleton.mp hk]
          exact hms x hx
      have hsig : (kept ++ [{ m with index := kept.length }] ++ ms).map Method.sig =
          (kept ++ m :: ms).map Method.sig := by
        simp [Method.sig]
      rw [hstep, ← hsig]
      exact ih hfunc' hsorted' (hkept.push hlt) hle'
    rcases kept.eq_nil_or_concat with hnil | ⟨init, last, hlast⟩
    · refine hpush (by simp [hnil]) ?_
      simp [dropDuplicates, hm, hnil]
    · rw [List.concat_eq_append] at hlast
      have hget : kept.getLast? = some last := by simp [hlast]
      have hmem : last ∈ kept := by simp [hlast]
      by_cases hkey : last.key = m.key
      · obtain ⟨hpkg, hname⟩ := key_eq_iff.mp hkey
        by_cases htype : last.type = m.type
        · -- a duplicate
          have hstep : dropDuplicates isFunc (m :: ms) kept = dropDuplicates isFunc ms kept := by
            simp [dropDuplicates, hm, hget, hpkg, hname, htype]
          have hsig : m.sig = last.sig := by simp [Method.sig, hpkg, hname, htype]
          rw [hstep]
          rcases ih hfunc' hsorted' hkept (fun k hk x hx => hle k hk x (by simp [hx])) with
            ⟨hnone, a, ha, b, hb, hab⟩ | ⟨out, hout, hcanon, hset⟩
          · refine .inl ⟨hnone, a, ?_, b, ?_, hab⟩ <;> simp_all
          · refine .inr ⟨out, hout, hcanon, fun a => ?_⟩
            rw [hset]
            simp only [List.map_append, List.mem_append, List.map_cons, List.mem_cons, hsig]
            have : last.sig ∈ kept.map Method.sig := List.mem_map_of_mem hmem
            grind
        · refine .inl ⟨by simp [dropDuplicates, hm, hget, hpkg, hname, htype], last.sig, ?_, m.sig,
            ?_, by simp [Method.sig, hpkg, hname], htype⟩
          · exact List.mem_map_of_mem (by simp [hmem])
          · exact List.mem_map_of_mem (by simp)
      · refine hpush ?_ ?_
        · -- the last one kept is below the next one, and the others are below the last one
          have hlt : last.key < m.key :=
            lt_of_le_of_ne (hle last hmem m (by simp)) hkey
          intro k hk
          rw [hlast] at hk
          rcases List.mem_append.mp hk with hk | hk
          · have hsort := hkept.sorted
            rw [hlast, List.pairwise_append] at hsort
            exact (hsort.2.2 k hk last (by simp)).trans hlt
          · rw [List.mem_singleton.mp hk]
            exact hlt
        · have hne : last.name ≠ m.name ∨ last.pkgPath ≠ m.pkgPath := by
            by_contra hcon
            simp only [not_or, ne_eq, not_not] at hcon
            exact hkey (key_eq_iff.mpr ⟨hcon.2, hcon.1⟩)
          simp [dropDuplicates, hm, hget, hne]

/-- All methods are of function types where the loop does not fail. -/
theorem dropDuplicates_isFunc {ms kept out : List Method}
    (h : dropDuplicates isFunc ms kept = some out) : ∀ m ∈ ms, isFunc m.type = true := by
  induction ms generalizing kept with
  | nil => simp
  | cons m ms ih =>
    rw [dropDuplicates] at h
    by_cases hm : isFunc m.type = true
    · have hrest : ∃ kept', dropDuplicates isFunc ms kept' = some out := by
        simp only [hm, Bool.not_true, Bool.false_eq_true, if_false] at h
        cases hlast : kept.getLast? with
        | none =>
          rw [hlast] at h
          exact ⟨_, h⟩
        | some last =>
          rw [hlast] at h
          dsimp only at h
          split_ifs at h
          · exact ⟨_, h⟩
          · exact ⟨_, h⟩
      obtain ⟨kept', hrest⟩ := hrest
      exact List.forall_mem_cons.mpr ⟨hm, ih hrest⟩
    · simp [hm] at h

theorem mergeMethods_isFunc {out ms : List Method} (h : mergeMethods isFunc out = some ms) :
    ∀ m ∈ out, isFunc m.type = true := by
  rw [mergeMethods] at h
  intro m hm
  apply dropDuplicates_isFunc h
  split
  · exact (sortMethods_perm out).mem_iff.mpr hm
  · exact hm

/-- `computeInterfaceMethods` fails on a conflict, and otherwise returns the methods it has
collected, sorted and without duplicates. -/
theorem mergeMethods_spec {out : List Method} (hfunc : ∀ m ∈ out, isFunc m.type = true) :
    (mergeMethods isFunc out = none ∧ Conflict (out.map Method.sig)) ∨
      ∃ ms, mergeMethods isFunc out = some ms ∧ Canonical ms ∧
        ∀ a, a ∈ ms.map Method.sig ↔ a ∈ out.map Method.sig := by
  have hsorted : ∃ sorted : List Method, sorted.Perm out ∧
      (sorted.Pairwise fun a b => a.key ≤ b.key) ∧
      mergeMethods isFunc out = dropDuplicates isFunc sorted [] := by
    by_cases hlen : 1 < out.length
    · exact ⟨sortMethods out, sortMethods_perm out, sortMethods_sorted out,
        by rw [mergeMethods, if_pos hlen]⟩
    · refine ⟨out, .refl out, ?_, by rw [mergeMethods, if_neg hlen]⟩
      rcases out with _ | ⟨m, _ | ⟨m', ms⟩⟩
      · exact .nil
      · exact List.pairwise_singleton _ _
      · simp at hlen
  obtain ⟨sorted, hperm, hsorted, hmerge⟩ := hsorted
  have hmem : ∀ a, a ∈ sorted.map Method.sig ↔ a ∈ out.map Method.sig :=
    fun a => (hperm.map Method.sig).mem_iff
  have hspec := @dropDuplicates_spec isFunc sorted []
    (fun m hm => hfunc m (hperm.mem_iff.mp hm)) hsorted .nil (by simp)
  rw [hmerge]
  rcases hspec with ⟨hnone, a, ha, b, hb, hab⟩ | ⟨ms, hms, hcanon, hset⟩
  · exact .inl ⟨hnone, a, (hmem a).mp ha, b, (hmem b).mp hb, hab⟩
  · exact .inr ⟨ms, hms, hcanon, fun a => (hset a).trans (hmem a)⟩

end Drop

/-! ## Keys -/

/-- The places that are left in a key have no type, so that it determines the methods. -/
theorem interfaceKey_inj {ms ms' : List Method} {k : List Method}
    (h : ∀ m ∈ ms, m.type.isSome = true) (h' : ∀ m ∈ ms', m.type.isSome = true)
    (hk : interfaceKey ms = some k) (hk' : interfaceKey ms' = some k) : ms = ms' := by
  have hfilter : ∀ {l : List Method}, (∀ m ∈ l, m.type.isSome = true) → interfaceKey l = some k →
      k.filter (fun m => m.type.isSome) = l := by
    intro l hl hkey
    rw [interfaceKey] at hkey
    split_ifs at hkey
    rw [Option.some.injEq] at hkey
    subst hkey
    rw [List.filter_append, List.filter_eq_self.mpr hl, List.filter_replicate]
    simp [Method.zero]
  rw [← hfilter h hk, ← hfilter h' hk']

namespace Universe

/-! ## What the types keep -/

/-- Interfaces and named types have records, and the types of all their methods are functions. The
methods of interfaces are canonical, and the cache has one interface for each key. -/
structure Filed (s : Universe) : Prop where
  named : ∀ t, s.store.heap.length ≤ t → s.named t = none
  interfaces : ∀ t, s.store.heap.length ≤ t → s.interfaces t = none
  apart : ∀ t, (s.interfaces t).isSome = true → s.named t = none
  declared : ∀ t n, s.named t = some n → ∀ m ∈ n.methods, s.isFunc m.type = true
  methods : ∀ t ms, s.interfaces t = some ms → Canonical ms ∧ ∀ m ∈ ms, s.isFunc m.type = true
  interned : Interned s.interfaceMap s.store.heap.length
  cached : ∀ e ∈ s.interfaceMap, ∃ ms, s.interfaces e.2 = some ms ∧ interfaceKey ms = some e.1

/-- Types stay what they are. -/
structure Grows (s s' : Universe) : Prop where
  length : s.store.heap.length ≤ s'.store.heap.length
  isFunc : ∀ t, s.isFunc t = true → s'.isFunc t = true
  interfaces : ∀ t ms, s.interfaces t = some ms → s'.interfaces t = some ms
  interfaceMap : s.interfaceMap ⊆ s'.interfaceMap

theorem Grows.refl (s : Universe) : s.Grows s :=
  ⟨le_rfl, fun _ h => h, fun _ _ h => h, fun _ h => h⟩

theorem Grows.trans {s s' s'' : Universe} (h : s.Grows s') (h' : s'.Grows s'') : s.Grows s'' where
  length := h.length.trans h'.length
  isFunc t ht := h'.isFunc t (h.isFunc t ht)
  interfaces t ms hms := h'.interfaces t ms (h.interfaces t ms hms)
  interfaceMap := fun _ he => h'.interfaceMap (h.interfaceMap he)

theorem isFunc_iff {s : Universe} {t : Option TypeRef} :
    s.isFunc t = true ↔ ∃ u r, t = some u ∧ s.named u = none ∧ s.interfaces u = none ∧
      s.store.heap[u]? = some r ∧ r.rtype.kind = .func := by
  cases t with
  | none => simp [isFunc]
  | some u =>
    simp only [isFunc, Store.common, Bool.and_eq_true, Option.isNone_iff_eq_none,
      Option.some.injEq, exists_and_left, exists_eq_left']
    cases hr : s.store.heap[u]? with
    | none => simp
    | some r => simp [and_assoc]

theorem isFunc_isSome {s : Universe} {t : Option TypeRef} (h : s.isFunc t = true) :
    t.isSome = true := by
  obtain ⟨u, _, rfl, _⟩ := isFunc_iff.mp h
  rfl

/-- Functions stay functions if their records keep their kinds and get no names. -/
theorem grows_isFunc {s s' : Universe}
    (hnamed : ∀ t, t < s.store.heap.length → s.named t = none → s'.named t = none)
    (hinter : ∀ t, t < s.store.heap.length → s.interfaces t = none → s'.interfaces t = none)
    (hheap : ∀ t r, s.store.heap[t]? = some r → s.named t = none →
      ∃ r', s'.store.heap[t]? = some r' ∧ r'.rtype.kind = r.rtype.kind)
    (t : Option TypeRef) (h : s.isFunc t = true) : s'.isFunc t = true := by
  obtain ⟨u, r, rfl, hn, hi, hr, hk⟩ := isFunc_iff.mp h
  have hlt : u < s.store.heap.length := (List.getElem?_eq_some_iff.mp hr).1
  obtain ⟨r', hr', hk'⟩ := hheap u r hr hn
  exact isFunc_iff.mpr ⟨u, r', rfl, hnamed u hlt hn, hinter u hlt hi, hr', hk'.trans hk⟩

/-- A step that changes no interface keeps the interfaces. -/
theorem Filed.of_grows {s s' : Universe} (h : Filed s) (hg : s.Grows s')
    (hnamed : ∀ t, s'.store.heap.length ≤ t → s'.named t = none)
    (hinter : s'.interfaces = s.interfaces) (hmap : s'.interfaceMap = s.interfaceMap)
    (hapart : ∀ t, (s.interfaces t).isSome = true → s'.named t = none)
    (hdeclared : ∀ t n, s'.named t = some n → ∀ m ∈ n.methods, s'.isFunc m.type = true) :
    Filed s' where
  named := hnamed
  interfaces t ht := by
    rw [hinter]
    exact h.interfaces t (hg.length.trans ht)
  apart t ht := hapart t (by rwa [hinter] at ht)
  declared := hdeclared
  methods t ms hms := by
    rw [hinter] at hms
    obtain ⟨hcanon, hfunc⟩ := h.methods t ms hms
    exact ⟨hcanon, fun m hm => hg.isFunc _ (hfunc m hm)⟩
  interned := by
    rw [hmap]
    exact h.interned.mono hg.length
  cached e he := by
    rw [hmap] at he
    rw [hinter]
    exact h.cached e he

/-! ## Steps -/

theorem setUnderlying_link {s s' : Universe} {fuel : Nat} {t : TypeRef} {u : Option TypeRef}
    {r : Except Panic Unit} (h : s.setUnderlying fuel t u = some (r, s')) :
    s' = s ∨ ∃ n e, s.named t = some n ∧ s' = s.link t n e := by
  rw [setUnderlying] at h
  cases hn : s.named t with
  | none => simp [hn] at h
  | some n =>
    simp only [hn] at h
    split_ifs at h
    · exact .inl (by simp_all)
    · cases u with
      | none => exact .inl (by simp_all)
      | some u =>
        cases htr : s.traverseUnderlyingCheckLoop t fuel u with
        | none => simp [htr] at h
        | some res =>
          cases res with
          | error p => exact .inl (by simp_all)
          | ok e => exact .inr ⟨n, e, rfl, by simp_all⟩

theorem completeNamed_link {s s' : Universe} {fuel : Nat} {t : TypeRef} {r : Except Panic Unit}
    (h : s.completeNamed fuel t = some (r, s')) :
    s' = s ∨ ∃ n e, s.named t = some n ∧ s' = s.link t n e := by
  rw [completeNamed] at h
  cases hn : s.named t with
  | none => simp [hn] at h
  | some n =>
    simp only [hn] at h
    split_ifs at h
    · exact .inl (by simp_all)
    · cases hres : s.completeUnderlying t fuel n.underlying with
      | none => simp [hres] at h
      | some res =>
        cases res with
        | error p => exact .inl (by simp_all)
        | ok e =>
          simp only [hres] at h
          split_ifs at h
          · exact .inl (by simp_all)
          · exact .inr ⟨n, e, rfl, by simp_all⟩

section Steps

variable {s : Universe}

theorem Filed.lt_of_named (h : Filed s) {t : TypeRef} {n : NamedExtra} (hn : s.named t = some n) :
    t < s.store.heap.length := by
  by_contra hge
  simp [h.named t (not_lt.mp hge)] at hn

theorem Filed.lt_of_interface (h : Filed s) {t : TypeRef} (hi : (s.interfaces t).isSome = true) :
    t < s.store.heap.length := by
  by_contra hge
  simp [h.interfaces t (not_lt.mp hge)] at hi

theorem Filed.newNamed (h : Filed s) (name pkgPath : Bytes) :
    s.Grows (s.newNamed name pkgPath).2 ∧ Filed (s.newNamed name pkgPath).2 := by
  have hother : ∀ t, t ≠ s.store.heap.length →
      (s.newNamed name pkgPath).2.named t = s.named t :=
    fun t ht => Function.update_of_ne ht _ _
  have hlen : (s.newNamed name pkgPath).2.store.heap.length = s.store.heap.length + 1 := by
    simp [Universe.newNamed]
  have hg : s.Grows (s.newNamed name pkgPath).2 := by
    refine ⟨by omega, ?_, fun _ _ hms => hms, fun _ he => he⟩
    refine grows_isFunc (fun t ht hn => by rwa [hother t (by omega)]) (fun _ _ hi => hi) ?_
    intro t r hr _
    refine ⟨r, ?_, rfl⟩
    have hlt : t < s.store.heap.length := (List.getElem?_eq_some_iff.mp hr).1
    simp only [Universe.newNamed]
    rwa [List.getElem?_append_left hlt]
  refine ⟨hg, h.of_grows hg ?_ rfl rfl ?_ ?_⟩
  · intro t ht
    rw [hother t (by omega)]
    exact h.named t (by omega)
  · intro t ht
    rw [hother t (h.lt_of_interface ht).ne]
    exact h.apart t ht
  · intro t n hn m hm
    by_cases ht : t = s.store.heap.length
    · subst ht
      simp only [Universe.newNamed, Function.update_self, Option.some.injEq] at hn
      simp [← hn] at hm
    · rw [hother t ht] at hn
      exact hg.isFunc _ (h.declared t n hn m hm)

/-- A named type changes, but keeps its name. -/
theorem Filed.rename (h : Filed s) {s' : Universe} {t : TypeRef} {n n' : NamedExtra}
    (hn : s.named t = some n) (hnamed : s'.named = Function.update s.named t (some n'))
    (hlen : s'.store.heap.length = s.store.heap.length)
    (hheap : ∀ u, u ≠ t → s'.store.heap[u]? = s.store.heap[u]?)
    (hinter : s'.interfaces = s.interfaces) (hmap : s'.interfaceMap = s.interfaceMap)
    (hmethods : ∀ m ∈ n'.methods, m ∈ n.methods ∨ s.isFunc m.type = true) :
    s.Grows s' ∧ Filed s' := by
  have hother : ∀ u, u ≠ t → s'.named u = s.named u := by
    intro u hu
    rw [hnamed, Function.update_of_ne hu]
  have hne : ∀ u, s.named u = none → u ≠ t := by
    intro u hu heq
    rw [heq, hn] at hu
    simp at hu
  have hg : s.Grows s' := by
    refine ⟨hlen.ge, ?_, fun u ms hms => by rwa [hinter], fun e he => by rwa [hmap]⟩
    refine grows_isFunc (fun u _ hu => by rwa [hother u (hne u hu)])
      (fun u _ hu => by rwa [hinter]) ?_
    intro u r hr hu
    exact ⟨r, by rwa [hheap u (hne u hu)], rfl⟩
  refine ⟨hg, h.of_grows hg ?_ hinter hmap ?_ ?_⟩
  · intro u hu
    rw [hlen] at hu
    rw [hother u ((h.lt_of_named hn).trans_le hu).ne']
    exact h.named u hu
  · intro u hu
    have hnone := h.apart u hu
    rwa [hother u (hne u hnone)]
  · intro u x hx m hm
    by_cases hu : u = t
    · subst hu
      rw [hnamed, Function.update_self, Option.some.injEq] at hx
      subst hx
      rcases hmethods m hm with hold | hnew
      · exact hg.isFunc _ (h.declared u n hn m hold)
      · exact hg.isFunc _ hnew
    · rw [hother u hu] at hx
      exact hg.isFunc _ (h.declared u x hx m hm)

theorem Filed.link (h : Filed s) {t : TypeRef} {n : NamedExtra} (hn : s.named t = some n)
    (e : TypeRef) : s.Grows (s.link t n e) ∧ Filed (s.link t n e) := by
  refine h.rename hn rfl (length_link s t n e) ?_ rfl rfl fun m hm => .inl hm
  intro u hu
  simp only [Universe.link]
  split
  · rw [List.getElem?_modify]
    simp [Ne.symm hu]
  · rfl

theorem Filed.addMethod (h : Filed s) {s' : Universe} {t : TypeRef} {m : Method}
    (hs : s.addMethod t m = some s') : s.Grows s' ∧ Filed s' := by
  rw [Universe.addMethod] at hs
  cases hn : s.named t with
  | none => simp [hn] at hs
  | some n =>
    simp only [hn] at hs
    split_ifs at hs with hfunc
    rw [Option.some.injEq] at hs
    subst hs
    refine h.rename hn rfl rfl (fun _ _ => rfl) rfl rfl ?_
    intro x hx
    rcases List.mem_append.mp hx with hx | hx
    · exact .inl hx
    · rw [List.mem_singleton.mp hx]
      exact .inr hfunc

/-- A new interface. -/
theorem Filed.insert (h : Filed s) {key ms : List Method} (r : Record)
    (hnew : s.interfaceMap.lookup key = none) (hkey : interfaceKey ms = some key)
    (hcanon : Canonical ms) (hfunc : ∀ m ∈ ms, s.isFunc m.type = true) :
    s.Grows (s.fileInterface key ms r) ∧ Filed (s.fileInterface key ms r) := by
  have hother : ∀ t, t ≠ s.store.heap.length → (s.fileInterface key ms r).interfaces t = s.interfaces t :=
    fun t ht => Function.update_of_ne ht _ _
  have hself : (s.fileInterface key ms r).interfaces s.store.heap.length = some ms := Function.update_self _ _ _
  have hlen : (s.fileInterface key ms r).store.heap.length = s.store.heap.length + 1 := by simp [fileInterface]
  have hg : s.Grows (s.fileInterface key ms r) := by
    refine ⟨by omega, ?_, ?_, List.subset_cons_self _ _⟩
    · refine grows_isFunc (fun _ _ hn => hn) (fun t ht hi => by rwa [hother t (by omega)]) ?_
      intro t x hx _
      have hlt : t < s.store.heap.length := (List.getElem?_eq_some_iff.mp hx).1
      exact ⟨x, (List.getElem?_append_left hlt).trans hx, rfl⟩
    · intro t ms' hms'
      have hlt : t < s.store.heap.length := h.lt_of_interface (by rw [hms']; rfl)
      rwa [hother t hlt.ne]
  refine ⟨hg, ?_⟩
  exact {
    named := fun t ht => h.named t (by omega)
    interfaces := by
      intro t ht
      rw [hother t (by omega)]
      exact h.interfaces t (by omega)
    apart := by
      intro t ht
      by_cases heq : t = s.store.heap.length
      · exact h.named t heq.ge
      · rw [hother t heq] at ht
        exact h.apart t ht
    declared := fun t n hn m hm => hg.isFunc _ (h.declared t n hn m hm)
    methods := by
      intro t ms' hms'
      by_cases heq : t = s.store.heap.length
      · subst heq
        rw [hself, Option.some.injEq] at hms'
        subst hms'
        exact ⟨hcanon, fun m hm => hg.isFunc _ (hfunc m hm)⟩
      · rw [hother t heq] at hms'
        obtain ⟨hc, hf⟩ := h.methods t ms' hms'
        exact ⟨hc, fun m hm => hg.isFunc _ (hf m hm)⟩
    interned := by
      rw [hlen]
      exact h.interned.insert hnew
    cached := by
      intro e he
      rcases List.mem_cons.mp he with rfl | he
      · exact ⟨ms, hself, hkey⟩
      · obtain ⟨ms', hms', hkey'⟩ := h.cached e he
        exact ⟨ms', hg.interfaces _ _ hms', hkey'⟩ }

end Steps

end Universe

end OneJit.Go.Types
