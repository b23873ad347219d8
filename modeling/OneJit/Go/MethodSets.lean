import OneJit.Go.Interface
import Mathlib.Data.Finset.Card
import Mathlib.Data.Finset.Dedup

/-!
# Method sets of interfaces

The method set of an interface is the union of its direct methods and of the method sets of the
interfaces that are embedded. `NewInterface` returns it where the methods that are declared on
embedded named types add nothing to the union and leave nothing of it out.
-/

namespace OneJit.Go.Types

theorem Canonical.nodup {ms : List Method} (h : Canonical ms) : (ms.map Method.sig).Nodup := by
  refine List.pairwise_map.mpr (h.sorted.imp ?_)
  intro a b hlt heq
  simp only [Method.sig, Prod.mk.injEq] at heq
  rw [key_eq_iff.mpr heq.2] at hlt
  exact lt_irrefl _ hlt

/-- Canonical methods are determined by their set. -/
theorem Canonical.ext {ms ms' : List Method} (h : Canonical ms) (h' : Canonical ms')
    (heq : ∀ a, a ∈ ms.map Method.sig ↔ a ∈ ms'.map Method.sig) : ms = ms' := by
  -- the lists of keys are equal, then the methods place by place
  have hsigs : ms.map Method.sig = ms'.map Method.sig := by
    let key : Option TypeRef × Bytes × Bytes → List Nat ×ₗ List Nat :=
      fun a => toLex (a.2.1.map UInt8.toNat, a.2.2.map UInt8.toNat)
    have hs : ∀ {l : List Method}, Canonical l →
        (l.map Method.sig).Pairwise fun a b => key a < key b :=
      fun hl => List.pairwise_map.mpr hl.sorted
    have : Std.Antisymm fun a b => key a < key b := ⟨fun a b hab hba => absurd hab hba.not_gt⟩
    have : Std.Irrefl fun a b => key a < key b := ⟨fun a => lt_irrefl _⟩
    exact (hs h).eq_of_mem_iff (hs h') heq
  have hlen : ms.length = ms'.length := by simpa using congrArg List.length hsigs
  refine List.ext_getElem hlen fun i hi hi' => ?_
  have hsig : (ms[i]).sig = (ms'[i]).sig := by
    have := List.getElem_map Method.sig (l := ms) (i := i) (h := by simpa using hi)
    simp only [hsigs, List.getElem_map] at this
    exact this.symm
  have hindex := h.index i ms[i] (List.getElem?_eq_getElem hi)
  have hindex' := h'.index i ms'[i] (List.getElem?_eq_getElem hi')
  simp only [Method.sig, Prod.mk.injEq] at hsig
  cases hm : ms[i]
  cases hm' : ms'[i]
  simp_all

namespace Universe

/-- The method set of the interface that underlies a type. -/
def methodSet (s : Universe) (t : TypeRef) : List Method :=
  ((s.underlying t).bind s.interfaces).getD []

/-- The union of the direct methods and of the method sets of the embedded types. -/
def union (s : Universe) (embedded : List TypeRef) (direct : List Method) :
    List (Option TypeRef × Bytes × Bytes) :=
  (direct ++ embedded.flatMap s.methodSet).map Method.sig

/-- The union of the direct methods and of the methods that the embedded types have in `extra`. -/
def unionRead (s : Universe) (embedded : List TypeRef) (direct : List Method) :
    List (Option TypeRef × Bytes × Bytes) :=
  (direct ++ embedded.flatMap s.extraMethods).map Method.sig

/-- The embedded types are interfaces, or named types whose underlying types are. -/
def Embeddable (s : Universe) (embedded : List TypeRef) : Prop :=
  ∀ t ∈ embedded, s.isInterface t = true

/-- Methods that no interface has: two of them conflict, they are too many, or one of them has a
type that is no function type. -/
def Refusable (s : Universe) (sigs : List (Option TypeRef × Bytes × Bytes)) : Prop :=
  Conflict sigs ∨ 65536 < sigs.toFinset.card ∨ ∃ a ∈ sigs, s.isFunc a.1 = false

/-- What `NewInterface` does. -/
theorem Filed.newInterface {s : Universe} (h : Filed s) (arch : Arch) {embedded : List TypeRef}
    (direct : List Method) (ha : Embeddable s embedded) :
    (s.newInterface arch embedded direct = none ∧ Refusable s (s.unionRead embedded direct)) ∨
      ¬ Refusable s (s.unionRead embedded direct) ∧
        ∃ ms key t s', s.newInterface arch embedded direct = some (t, s') ∧ Canonical ms ∧
          (∀ a, a ∈ ms.map Method.sig ↔ a ∈ s.unionRead embedded direct) ∧
          interfaceKey ms = some key ∧ (key, t) ∈ s'.interfaceMap ∧ s'.interfaces t = some ms ∧
          s.Grows s' ∧ Filed s' := by
  have hcollect : s.collectMethods embedded direct =
      some (direct ++ embedded.flatMap s.extraMethods) := by
    rw [collectMethods, if_pos (List.all_eq_true.mpr ha)]
  by_cases hall : ∀ m ∈ direct ++ embedded.flatMap s.extraMethods, s.isFunc m.type = true
  case neg =>
    -- a direct method that is no function
    have hnone : mergeMethods s.isFunc (direct ++ embedded.flatMap s.extraMethods) = none := by
      cases hms : mergeMethods s.isFunc (direct ++ embedded.flatMap s.extraMethods) with
      | none => rfl
      | some ms => exact absurd (mergeMethods_isFunc hms) hall
    simp only [not_forall, Bool.not_eq_true] at hall
    obtain ⟨m, hm, hfalse⟩ := hall
    exact .inl ⟨by simp [Universe.newInterface, hcollect, hnone],
      .inr (.inr ⟨m.sig, List.mem_map_of_mem hm, hfalse⟩)⟩
  have hfunc := hall
  rcases mergeMethods_spec hfunc with ⟨hnone, hconflict⟩ | ⟨ms, hms, hcanon, hset⟩
  · exact .inl ⟨by simp [Universe.newInterface, hcollect, hnone], .inl hconflict⟩
  · have hnoconflict : ¬ Conflict (s.unionRead embedded direct) := by
      intro ⟨a, hma, b, hmb, hab⟩
      exact hcanon.no_conflict ⟨a, (hset a).mpr hma, b, (hset b).mpr hmb, hab⟩
    have hcard : (s.unionRead embedded direct).toFinset.card = ms.length := by
      have heq : (s.unionRead embedded direct).toFinset = (ms.map Method.sig).toFinset := by
        ext a
        rw [List.mem_toFinset, List.mem_toFinset, hset]
        rfl
      rw [heq, List.toFinset_card_of_nodup hcanon.nodup, List.length_map]
    by_cases hmany : 65536 < ms.length
    · refine .inl ⟨?_, .inr (.inl (by omega))⟩
      simp [Universe.newInterface, hcollect, hms, interfaceKey, hmany]
    · have hnot : ¬ Refusable s (s.unionRead embedded direct) := by
        rintro (hc | hc | ⟨a, hma, hfalse⟩)
        · exact hnoconflict hc
        · omega
        · obtain ⟨m, hm, rfl⟩ := List.mem_map.mp hma
          exact Bool.false_ne_true (hfalse.symm.trans (hfunc m hm))
      have htypes : ∀ m ∈ ms, s.isFunc m.type = true := by
        intro m hm
        obtain ⟨m', hm', hsig⟩ := List.mem_map.mp ((hset m.sig).mp (List.mem_map_of_mem hm))
        have htype : m'.type = m.type := congrArg Prod.fst hsig
        rw [← htype]
        exact hfunc m' hm'
      obtain ⟨key, hkey⟩ : ∃ key, interfaceKey ms = some key := by simp [interfaceKey, hmany]
      refine .inr ⟨hnot, ms, key, ?_⟩
      cases hlookup : s.interfaceMap.lookup key with
      | some t =>
        have hmem := Interned.mem_of_lookup hlookup
        obtain ⟨ms', hms', hkey'⟩ := h.cached _ hmem
        have heq : ms' = ms := interfaceKey_inj
          (fun m hm => isFunc_isSome ((h.methods t ms' hms').2 m hm))
          (fun m hm => isFunc_isSome (htypes m hm)) hkey' hkey
        refine ⟨t, s, ?_, hcanon, hset, hkey, hmem, heq ▸ hms', .refl s, h⟩
        simp [Universe.newInterface, hcollect, hms, hkey, hlookup]
      | none =>
        have hins := h.insert (s.interfaceRecord arch embedded ms) hlookup hkey hcanon htypes
        refine ⟨s.store.heap.length, s.fileInterface key ms (s.interfaceRecord arch embedded ms), ?_,
          hcanon, hset, hkey, List.mem_cons_self, Function.update_self _ _ _, hins⟩
        simp [Universe.newInterface, hcollect, hms, hkey, hlookup]

/-! ## Runs -/

/-- A step that makes or changes types. The other constructors, and `CompleteTypes` apart from named
types, keep the kinds of the types. -/
inductive Build : Universe → Universe → Prop
  | newNamed (s : Universe) (name pkgPath : Bytes) : Build s (s.newNamed name pkgPath).2
  | setUnderlying {s s' : Universe} (fuel : Nat) (t : TypeRef) (u : Option TypeRef)
      (r : Except Panic Unit) (h : s.setUnderlying fuel t u = some (r, s')) : Build s s'
  | completeNamed {s s' : Universe} (fuel : Nat) (t : TypeRef) (r : Except Panic Unit)
      (h : s.completeNamed fuel t = some (r, s')) : Build s s'
  | addMethod {s s' : Universe} (t : TypeRef) (mtd : Method) (h : s.addMethod t mtd = some s') :
      Build s s'
  | newInterface {s s' : Universe} (arch : Arch) (embedded : List TypeRef) (method : List Method)
      (t : TypeRef) (ha : Embeddable s embedded)
      (h : s.newInterface arch embedded method = some (t, s')) : Build s s'
  | compose (s : Universe) (store : Store) (hlen : s.store.heap.length ≤ store.heap.length)
      (hkind : ∀ (t : TypeRef) (r : Record), s.store.heap[t]? = some r →
        ∃ r' : Record, store.heap[t]? = some r' ∧ r'.rtype.kind = r.rtype.kind) :
      Build s { s with store := store }

theorem Filed.step {s s' : Universe} (h : Filed s) (hs : Build s s') : s.Grows s' ∧ Filed s' := by
  cases hs with
  | newNamed name pkgPath => exact h.newNamed name pkgPath
  | setUnderlying fuel t u r hrun =>
    rcases setUnderlying_link hrun with rfl | ⟨n, e, hn, rfl⟩
    · exact ⟨.refl _, h⟩
    · exact h.link hn e
  | completeNamed fuel t r hrun =>
    rcases completeNamed_link hrun with rfl | ⟨n, e, hn, rfl⟩
    · exact ⟨.refl _, h⟩
    · exact h.link hn e
  | addMethod t mtd hrun => exact h.addMethod hrun
  | newInterface arch embedded method t ha hrun =>
    rcases h.newInterface arch method ha with ⟨hnone, _⟩ |
      ⟨_, ms, key, t', s'', heq, _, _, _, _, _, hg, hf⟩
    · rw [hnone] at hrun
      simp at hrun
    · rw [heq, Option.some.injEq, Prod.mk.injEq] at hrun
      obtain ⟨-, rfl⟩ := hrun
      exact ⟨hg, hf⟩
  | compose store hlen hkind =>
    have hg : s.Grows { s with store := store } :=
      ⟨hlen, grows_isFunc (fun _ _ hn => hn) (fun _ _ hi => hi) fun t r hr _ => hkind t r hr,
        fun _ _ hms => hms, fun _ he => he⟩
    exact ⟨hg, h.of_grows hg (fun t ht => h.named t (hlen.trans ht)) rfl rfl h.apart
      fun t n hn m hm => hg.isFunc _ (h.declared t n hn m hm)⟩

theorem Filed.run {s s' : Universe} (h : Filed s) (hs : Relation.ReflTransGen Build s s') :
    s.Grows s' ∧ Filed s' := by
  induction hs with
  | refl => exact ⟨.refl s, h⟩
  | tail _ hstep ih =>
    obtain ⟨hg, hf⟩ := ih.2.step hstep
    exact ⟨ih.1.trans hg, hf⟩

/-- The types that constructors lead to, from types that are neither named nor interfaces. -/
def Built (s : Universe) : Prop :=
  ∃ start : Universe, (∀ t, start.named t = none) ∧ (∀ t, start.interfaces t = none) ∧
    start.interfaceMap = [] ∧ Relation.ReflTransGen Build start s

theorem Built.filed {s : Universe} (h : Built s) : Filed s := by
  obtain ⟨start, hn, hi, hm, hrun⟩ := h
  have hstart : Filed start := by
    refine ⟨fun t _ => hn t, fun t _ => hi t, ?_, ?_, ?_, hm ▸ .nil, ?_⟩
    · intro t ht
      simp [hi] at ht
    · intro t n h
      simp [hn] at h
    · intro t ms h
      simp [hi] at h
    · simp [hm]
  exact (hstart.run hrun).2

/-! ## Exactness -/

/-- `NewInterface` is exact: it panics if and only if two methods of the union conflict, and
otherwise its methods are the union, sorted, without duplicates and with their places as index. -/
def Exact (s : Universe) (arch : Arch) (embedded : List TypeRef) (direct : List Method) : Prop :=
  (s.newInterface arch embedded direct = none ↔ Conflict (s.union embedded direct)) ∧
    ∀ t s', s.newInterface arch embedded direct = some (t, s') →
      ∃ ms, s'.interfaces t = some ms ∧ Canonical ms ∧
        ∀ a, a ∈ ms.map Method.sig ↔ a ∈ s.union embedded direct

/-- Both the methods that are read and those of the union are refused, or neither, and then they are
the same. -/
def ReadsUnion (s : Universe) (embedded : List TypeRef) (direct : List Method) : Prop :=
  Refusable s (s.unionRead embedded direct) ∧ Conflict (s.union embedded direct) ∨
    ¬ Refusable s (s.unionRead embedded direct) ∧ ¬ Conflict (s.union embedded direct) ∧
      ∀ a, a ∈ s.unionRead embedded direct ↔ a ∈ s.union embedded direct

theorem Filed.exact_iff {s : Universe} (h : Filed s) (arch : Arch) {embedded : List TypeRef}
    (direct : List Method) (ha : Embeddable s embedded) :
    Exact s arch embedded direct ↔ ReadsUnion s embedded direct := by
  rcases h.newInterface arch direct ha with ⟨hnone, href⟩ |
    ⟨href, ms, key, t, s', hsome, hcanon, hset, _, _, hms, _, _⟩
  · simp [ReadsUnion, Exact, href, hnone]
  · simp only [ReadsUnion, href, false_and, not_false_eq_true, true_and, false_or, Exact, hsome,
      reduceCtorEq, false_iff, Option.some.injEq, Prod.mk.injEq]
    refine and_congr_right fun _ => ?_
    constructor
    · intro hall a
      obtain ⟨ms', hms', _, hset'⟩ := hall t s' ⟨rfl, rfl⟩
      rw [hms, Option.some.injEq] at hms'
      subst hms'
      rw [← hset, hset']
    · rintro hall t' s'' ⟨rfl, rfl⟩
      exact ⟨ms, hms, hcanon, fun a => (hset a).trans (hall a)⟩

/-- Two calls in a run with one set of methods read return one interface. -/
theorem Filed.same {s s₁ s₂ s₃ : Universe} (h : Filed s) {arch arch' : Arch}
    {embedded embedded' : List TypeRef} {direct direct' : List Method} {t t' : TypeRef}
    (ha : Embeddable s embedded) (hcall : s.newInterface arch embedded direct = some (t, s₁))
    (hrun : Relation.ReflTransGen Build s₁ s₂) (ha' : Embeddable s₂ embedded')
    (hcall' : s₂.newInterface arch' embedded' direct' = some (t', s₃))
    (heq : ∀ a, a ∈ s.unionRead embedded direct ↔ a ∈ s₂.unionRead embedded' direct') : t = t' := by
  rcases h.newInterface arch direct ha with ⟨hnone, _⟩ |
    ⟨_, ms, key, t₁, s₁', hsome, hcanon, hset, hkey, hmem, _, _, hf⟩
  · rw [hnone] at hcall
    simp at hcall
  · rw [hsome, Option.some.injEq, Prod.mk.injEq] at hcall
    obtain ⟨rfl, rfl⟩ := hcall
    obtain ⟨hg, hf'⟩ := hf.run hrun
    rcases hf'.newInterface arch' direct' ha' with ⟨hnone, _⟩ |
      ⟨_, ms', key', t₂, s₂', hsome', hcanon', hset', hkey', hmem', _, hg', hf''⟩
    · rw [hnone] at hcall'
      simp at hcall'
    · rw [hsome', Option.some.injEq, Prod.mk.injEq] at hcall'
      obtain ⟨rfl, rfl⟩ := hcall'
      have hms : ms = ms' :=
        hcanon.ext hcanon' fun a => (hset a).trans ((heq a).trans (hset' a).symm)
      subst hms
      rw [hkey, Option.some.injEq] at hkey'
      subst hkey'
      exact (hf''.interned.address_eq_iff (hg'.interfaceMap (hg.interfaceMap hmem)) hmem').mpr rfl

/-- A call reads its union. -/
theorem ReadsUnion.mem {s : Universe} {arch : Arch} {embedded : List TypeRef}
    {direct : List Method} (h : ReadsUnion s embedded direct) (hf : Filed s)
    (ha : Embeddable s embedded) {t : TypeRef} {s' : Universe}
    (hcall : s.newInterface arch embedded direct = some (t, s')) :
    ∀ a, a ∈ s.unionRead embedded direct ↔ a ∈ s.union embedded direct := by
  rcases h with ⟨href, _⟩ | ⟨_, _, hall⟩
  · rcases hf.newInterface arch direct ha with ⟨hnone, _⟩ | ⟨hnot, _⟩
    · rw [hnone] at hcall
      simp at hcall
    · exact absurd href hnot
  · exact hall

/-- Where `NewInterface` is exact, and that exact calls with one union return one interface. -/
theorem method_sets_iff {s : Universe} (h : Built s) {arch : Arch} {embedded : List TypeRef}
    {direct : List Method} (ha : Embeddable s embedded) :
    (Exact s arch embedded direct ↔ ReadsUnion s embedded direct) ∧
      (ReadsUnion s embedded direct → ∀ t s₁, s.newInterface arch embedded direct = some (t, s₁) →
        ∀ s₂, Relation.ReflTransGen Build s₁ s₂ →
        ∀ arch' embedded' direct' t' s₃, Embeddable s₂ embedded' →
          ReadsUnion s₂ embedded' direct' →
          s₂.newInterface arch' embedded' direct' = some (t', s₃) →
          (∀ a, a ∈ s.union embedded direct ↔ a ∈ s₂.union embedded' direct') → t = t') := by
  have hf := h.filed
  refine ⟨hf.exact_iff arch direct ha, ?_⟩
  intro hreads t s₁ hcall s₂ hrun arch' embedded' direct' t' s₃ ha' hreads' hcall' heq
  have hf₂ : Filed s₂ := by
    rcases hf.newInterface arch direct ha with ⟨hnone, _⟩ | ⟨_, _, _, _, _, hsome, _, _, _, _, _, _, hf'⟩
    · rw [hnone] at hcall
      simp at hcall
    · rw [hsome, Option.some.injEq, Prod.mk.injEq] at hcall
      obtain ⟨-, rfl⟩ := hcall
      exact (hf'.run hrun).2
  refine hf.same ha hcall hrun ha' hcall' fun a => ?_
  rw [hreads.mem hf ha hcall, heq, hreads'.mem hf₂ ha' hcall']

/-! ## An embedded named interface -/

/-- One type, `func()`. -/
def oneFunc : Universe :=
  { empty with store := { empty.store with
      heap := [⟨⟨8, 8, flagComplete ||| flagNotComparable, .func, none, true, none⟩, .zero⟩] } }

/-- The method `F` without parameters and results. -/
def methodF : Method := ⟨some 0, [70], [], 0⟩

/-- The interface with the method `F`, whose address is 1. -/
def oneInterface : Universe :=
  oneFunc.fileInterface [methodF, .zero] [methodF] (oneFunc.interfaceRecord .amd64 [] [methodF])

/-- A named type `N` with address 2, whose underlying type is that interface. -/
def oneNamed : Universe := ((oneInterface.newNamed [78] []).2).link 2 ⟨[78], [], none, []⟩ 1

theorem built_oneFunc : Built oneFunc := ⟨oneFunc, fun _ => rfl, fun _ => rfl, rfl, .refl⟩

theorem built_oneNamed : Built oneNamed := by
  have hinter : oneFunc.newInterface .amd64 [] [methodF] = some (1, oneInterface) := rfl
  have hset : ((oneInterface.newNamed [78] []).2).setUnderlying 1 2 (some 1) =
      some (.ok (), oneNamed) := rfl
  refine ⟨oneFunc, fun _ => rfl, fun _ => rfl, rfl, ?_⟩
  exact ((Relation.ReflTransGen.single (.newInterface .amd64 [] [methodF] 1 (by simp [Embeddable])
    hinter)).tail (.newNamed _ [78] [])).tail (.setUnderlying 1 2 (some 1) _ hset)

theorem embeddable_oneNamed : Embeddable oneNamed [2] := by
  intro t ht
  rw [List.mem_singleton.mp ht]
  rfl

/-- The interface with the method `F` is exact. -/
theorem method_sets_iff_direct : Exact oneFunc .amd64 [] [methodF] :=
  (method_sets_iff built_oneFunc (by simp [Embeddable])).1.mpr (by
    have hnot : ¬ Conflict (oneFunc.union [] [methodF]) := by
      simp [Conflict, union, Method.sig, methodF]
    refine .inr ⟨?_, hnot, fun _ => Iff.rfl⟩
    rintro (hc | hc | ⟨a, ha, hfalse⟩)
    · exact hnot hc
    · simp [unionRead, Method.sig] at hc
    · have heq : a = methodF.sig := by simpa [unionRead] using ha
      rw [heq] at hfalse
      exact absurd hfalse (by decide))

/-- An interface that embeds the named type has no methods, although its underlying interface has
one. -/
theorem embedded_named_lost : Built oneNamed ∧ Embeddable oneNamed [2] ∧
    (∃ s', oneNamed.newInterface .amd64 [2] [] = some (3, s') ∧ s'.interfaces 3 = some []) ∧
      (oneNamed.methodSet 2).map Method.sig = [methodF.sig] ∧ ¬ Exact oneNamed .amd64 [2] [] := by
  refine ⟨built_oneNamed, embeddable_oneNamed, ⟨_, rfl, rfl⟩, rfl, ?_⟩
  rw [built_oneNamed.filed.exact_iff .amd64 [] embeddable_oneNamed]
  have hread : oneNamed.unionRead [2] [] = [] := rfl
  have hunion : oneNamed.union [2] [] = [methodF.sig] := rfl
  rintro (⟨href | href | href, _⟩ | ⟨_, _, hall⟩)
  · obtain ⟨a, ha, _⟩ := href
    simp [hread] at ha
  · simp [hread] at href
  · obtain ⟨a, ha, _⟩ := href
    simp [hread] at ha
  · have hmem := (hall methodF.sig).mpr (by simp [hunion])
    simp [hread] at hmem

end Universe

end OneJit.Go.Types
