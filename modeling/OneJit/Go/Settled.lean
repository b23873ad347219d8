import OneJit.Go.StrongDeps
import OneJit.Go.TypesCanonical

/-!
# Types whose layout is settled

The record of a type changes in few ways, and size, alignment and flags of most types never change.
The types for which this can be said from their present records are the settled ones; all that may
change for them is that they are marked as complete.
-/

namespace OneJit.Go.Types

/-! ## Flags -/

/-- The flags that say whether values of a type can be compared. -/
def compareMask : Flags := flagComparable ||| flagNotComparable

/-- All flags but `flagComplete`. -/
def restMask : Flags := ~~~flagComplete

theorem and_of_mask {f f' m m' : Flags} (h : f' &&& m = f &&& m) (hm : m &&& m' = m') :
    f' &&& m' = f &&& m' := by
  rw [← hm, ← BitVec.and_assoc, h, BitVec.and_assoc]

theorem compare_of_rest {f f' : Flags} (h : f' &&& restMask = f &&& restMask) :
    f' &&& compareMask = f &&& compareMask := and_of_mask h (by decide)

theorem or_complete_rest (f : Flags) : (f ||| flagComplete) &&& restMask = f &&& restMask := by
  rw [BitVec.and_or_distrib_right, show flagComplete &&& restMask = 0 by decide]
  exact BitVec.or_zero

/-- The flag of a struct that says whether its values can be compared. -/
def structCompare (cs : List Complete) : Flags :=
  if cs.foldl (fun f c => f ||| c.flags) 0 &&& flagNotComparable ≠ 0 then flagNotComparable
  else if cs.foldl (fun f c => f &&& c.flags) (BitVec.allOnes 16) &&& flagComparable ≠ 0 then
    flagComparable
  else 0

/-- The flag of a struct that says whether it needs padding. -/
def structPadding (cs : List Complete) : Flags :=
  match cs.getLast? with
  | none => flagNeedPadding
  | some c => if c.flags &&& flagNeedPadding ≠ 0 then flagNeedPadding else 0

theorem computeStructFlags_eq (cs : List Complete) :
    Store.computeStructFlags cs =
      (cs.foldl (fun f c => f &&& c.flags) (BitVec.allOnes 16) &&& flagComplete) |||
        (structCompare cs ||| structPadding cs) := by
  unfold Store.computeStructFlags structCompare structPadding
  dsimp only
  cases cs.getLast? with
  | none => split_ifs <;> simp [BitVec.or_assoc]
  | some c =>
    dsimp only
    split_ifs <;> simp [BitVec.or_assoc]

theorem computeStructFlags_mask (cs : List Complete) {m : Flags} (hm : flagComplete &&& m = 0) :
    Store.computeStructFlags cs &&& m = (structCompare cs ||| structPadding cs) &&& m := by
  rw [computeStructFlags_eq, BitVec.and_or_distrib_right, BitVec.and_assoc, hm]
  simp

theorem structPadding_compare (cs : List Complete) : structPadding cs &&& compareMask = 0 := by
  unfold structPadding
  cases cs.getLast? with
  | none => decide
  | some c => dsimp only; split_ifs <;> decide

/-- Records that agree on whether values can be compared. -/
def CompareEq (c c' : Complete) : Prop := c'.flags &&& compareMask = c.flags &&& compareMask

theorem foldl_or_mask {m : Flags} (hm : compareMask &&& m = m) {cs cs' : List Complete}
    (h : List.Forall₂ CompareEq cs cs') {f f' : Flags} (hf : f' &&& m = f &&& m) :
    cs'.foldl (fun f c => f ||| c.flags) f' &&& m =
      cs.foldl (fun f c => f ||| c.flags) f &&& m := by
  induction h generalizing f f' with
  | nil => exact hf
  | @cons c c' _ _ hc _ ih =>
    refine ih ?_
    rw [BitVec.and_or_distrib_right, hf, and_of_mask hc hm, ← BitVec.and_or_distrib_right]

theorem foldl_and_mask {m : Flags} (hm : compareMask &&& m = m) {cs cs' : List Complete}
    (h : List.Forall₂ CompareEq cs cs') {f f' : Flags} (hf : f' &&& m = f &&& m) :
    cs'.foldl (fun f c => f &&& c.flags) f' &&& m =
      cs.foldl (fun f c => f &&& c.flags) f &&& m := by
  have hdist : ∀ a b : Flags, (a &&& b) &&& m = (a &&& m) &&& (b &&& m) := by
    intro a b
    ext i hi
    simp only [BitVec.getElem_and]
    cases a[i] <;> cases b[i] <;> simp
  induction h generalizing f f' with
  | nil => exact hf
  | @cons c c' _ _ hc _ ih =>
    refine ih ?_
    rw [hdist, hf, and_of_mask hc hm, ← hdist]

theorem structCompare_congr {cs cs' : List Complete} (h : List.Forall₂ CompareEq cs cs') :
    structCompare cs' = structCompare cs := by
  unfold structCompare
  rw [foldl_or_mask (by decide) h rfl, foldl_and_mask (by decide) h rfl]

/-- The flags for comparison of a struct depend on those of its fields. -/
theorem computeStructFlags_compare {cs cs' : List Complete} (h : List.Forall₂ CompareEq cs cs') :
    Store.computeStructFlags cs' &&& compareMask = Store.computeStructFlags cs &&& compareMask := by
  rw [computeStructFlags_mask cs' (by decide), computeStructFlags_mask cs (by decide),
    BitVec.and_or_distrib_right, BitVec.and_or_distrib_right, structPadding_compare,
    structPadding_compare, structCompare_congr h]

/-- All flags but `flagComplete` also depend on the padding of the last field. -/
theorem computeStructFlags_rest {cs cs' : List Complete} (h : List.Forall₂ CompareEq cs cs')
    (hlast : ∀ c c', cs.getLast? = some c → cs'.getLast? = some c' →
      c'.flags &&& restMask = c.flags &&& restMask) :
    Store.computeStructFlags cs' &&& restMask = Store.computeStructFlags cs &&& restMask := by
  have hpadding : structPadding cs' = structPadding cs := by
    unfold structPadding
    cases hc : cs.getLast? with
    | none =>
      rw [List.getLast?_eq_none_iff] at hc
      subst hc
      rw [List.forall₂_nil_left_iff.mp h]
      rfl
    | some c =>
      cases hc' : cs'.getLast? with
      | none =>
        rw [List.getLast?_eq_none_iff] at hc'
        subst hc'
        rw [List.forall₂_nil_right_iff.mp h] at hc
        simp at hc
      | some c' =>
        have hpad : c'.flags &&& flagNeedPadding = c.flags &&& flagNeedPadding :=
          and_of_mask (hlast c c' hc hc') (by decide)
        dsimp only
        rw [hpad]
  rw [computeStructFlags_mask cs' (by decide), computeStructFlags_mask cs (by decide),
    structCompare_congr h, hpadding]

theorem computeArrayFlags_compare (c : Complete) (len : BitVec 64) :
    Store.computeArrayFlags c len &&& compareMask = c.flags &&& compareMask := by
  have hmask : (c.flags &&& (flagComplete ||| flagComparable ||| flagNotComparable)) &&&
      compareMask = c.flags &&& compareMask := by
    rw [BitVec.and_assoc]
    congr 1
  unfold Store.computeArrayFlags
  dsimp only
  split_ifs
  · rw [BitVec.and_or_distrib_right, hmask, show flagNeedPadding &&& compareMask = 0 by decide]
    exact BitVec.or_zero
  · exact hmask

/-- The flags of an array of no elements depend on whether the elements can be compared. -/
theorem computeArrayFlags_rest {c c' : Complete} (h : CompareEq c c') :
    Store.computeArrayFlags c' 0 &&& restMask = Store.computeArrayFlags c 0 &&& restMask := by
  have hmask : ∀ f : Flags, ((f &&& (flagComplete ||| flagComparable ||| flagNotComparable)) |||
      flagNeedPadding) &&& restMask = (f &&& compareMask) ||| (flagNeedPadding &&& restMask) := by
    intro f
    rw [BitVec.and_or_distrib_right, BitVec.and_assoc]
    congr 2
  unfold Store.computeArrayFlags
  simp only [true_or, if_true]
  rw [hmask, hmask, show c'.flags &&& compareMask = c.flags &&& compareMask from h]

/-! ## Changes -/

/-- How the record of a type may change. -/
inductive Change (arch : Arch) (s : Universe) (t : TypeRef) (r : Record) : Record → Prop
  | ptrTo (p : Option TypeRef) : Change arch s t r { r with rtype := { r.rtype with ptrTo := p } }
  | mark : Change arch s t r (Universe.markRecord r)
  | fill (r' : Record) (hn : s.named t ≠ none) (hsize : r.rtype.size = unknownSize)
      (hc : r.rtype.flags &&& flagComplete = 0) : Change arch s t r r'
  | array {c : Complete} {size : BitVec 64} (hn : s.named t = none) (hk : r.rtype.kind = .array)
      (hc : r.rtype.flags &&& flagComplete = 0) (helem : r.elem.bind s.store.common = some c)
      (hsize : Store.computeArraySize arch c r.len = some size) :
      Change arch s t r
        { r with
          rtype := { r.rtype with
            size := size
            align := Store.computeArrayAlign c r.len
            flags := Store.computeArrayFlags c r.len } }
  | struct {cs : List Complete} {fields : List Field} (hn : s.named t = none)
      (hk : r.rtype.kind = .struct) (hc : r.rtype.flags &&& flagComplete = 0)
      (hcs : r.extra.fields.mapM s.store.fieldCommon = some cs)
      (hfields : fields.map Field.type = r.extra.fields.map Field.type) :
      Change arch s t r
        { rtype := { r.rtype with
            size :=
              if r.rtype.size = unknownSize then Store.computeStructSize cs 0 else r.rtype.size
            align :=
              if r.rtype.align = unknownAlign then Store.computeStructAlign cs 0
              else r.rtype.align
            flags := Store.computeStructFlags cs }
          extra := { r.extra with fields := fields } }
  | fields (fields : List Field) (hn : s.named t ≠ none) :
      Change arch s t r { r with extra := { r.extra with fields := fields } }

/-- A step that changes records, and may make new types. -/
structure Frame (arch : Arch) (s s' : Universe) : Prop where
  named : ∀ t r, s.store.heap[t]? = some r → (s'.named t = none ↔ s.named t = none)
  change : ∀ t r, s.store.heap[t]? = some r →
    ∃ r', s'.store.heap[t]? = some r' ∧ Change arch s t r r'

/-! ## Records whose size is known -/

/-- What constructors and completions store in the record of an unnamed type. -/
structure RecordFormed (s : Store) (r : Record) : Prop where
  bare : r.rtype.hasExtra = false → r.extra = .zero
  array : r.rtype.kind = .array → r.rtype.hasExtra = false ∧ (r.rtype.size ≠ unknownSize →
    ∃ c, r.elem.bind s.common = some c ∧ c.size ≠ unknownSize ∧ CompareEq c r.rtype)
  struct : r.rtype.kind = .struct → r.rtype.size ≠ unknownSize →
    ∃ cs, r.extra.fields.mapM s.fieldCommon = some cs ∧ (∀ c ∈ cs, c.size ≠ unknownSize) ∧
      r.rtype.flags &&& compareMask = Store.computeStructFlags cs &&& compareMask

/-- The records of all unnamed types are formed so. -/
def Formed (s : Universe) : Prop :=
  ∀ t r, s.store.heap[t]? = some r → s.named t = none → RecordFormed s.store r

theorem RecordFormed.len {s : Store} {r : Record} (h : RecordFormed s r)
    (hk : r.rtype.kind = .array) : r.len = 0 := by
  rw [Record.len, h.bare (h.array hk).1]
  rfl

theorem computeArraySize_zero (arch : Arch) {c : Complete} (h : c.size ≠ unknownSize) :
    Store.computeArraySize arch c 0 = some 0 := by
  have hnot : ¬ (c.size ≠ 0 ∧ arch.maxSizeBytes / c.size < 0) := fun hlt => by simp at hlt
  simp only [Store.computeArraySize, if_neg h, if_neg hnot]
  simp

theorem computeStructSize_known {cs : List Complete} {size : BitVec 64}
    (h : Store.computeStructSize cs size ≠ unknownSize) : ∀ c ∈ cs, c.size ≠ unknownSize := by
  induction cs generalizing size with
  | nil => simp
  | cons c cs ih =>
    rw [Store.computeStructSize] at h
    split_ifs at h with hc
    · exact absurd hc h
    · exact List.forall_mem_cons.mpr ⟨hc, ih h⟩

section Frame

variable {arch : Arch} {s s' : Universe} {t : TypeRef} {r r' : Record}

/-- A size that is known stays known, and it stays the same whether values can be compared. -/
theorem Change.known (h : Change arch s t r r') (hf : s.named t = none → RecordFormed s.store r)
    (hsize : r.rtype.size ≠ unknownSize) :
    r'.rtype.size ≠ unknownSize ∧ CompareEq r.rtype r'.rtype := by
  cases h with
  | ptrTo p => exact ⟨hsize, rfl⟩
  | mark => exact ⟨hsize, compare_of_rest (or_complete_rest _)⟩
  | fill r' hn hunknown hc => exact absurd hunknown hsize
  | @array c size hn hk hc helem hsize' =>
    obtain ⟨c', helem', hknown, hcompare⟩ := ((hf hn).array hk).2 hsize
    rw [helem, Option.some.injEq] at helem'
    subst helem'
    rw [(hf hn).len hk, computeArraySize_zero arch hknown, Option.some.injEq] at hsize'
    refine ⟨?_, ?_⟩
    · rw [← hsize']
      show (0 : BitVec 64) ≠ unknownSize
      decide
    · exact (computeArrayFlags_compare c _).trans hcompare.symm
  | @struct cs fields hn hk hc hcs hfields =>
    obtain ⟨cs', hcs', _, hcompare⟩ := (hf hn).struct hk hsize
    rw [hcs, Option.some.injEq] at hcs'
    subst hcs'
    refine ⟨?_, hcompare.symm⟩
    simp only [if_neg hsize]
    exact hsize
  | fields fields hn => exact ⟨hsize, rfl⟩

theorem Frame.common_known (h : Frame arch s s') (hf : Formed s) {c : Complete}
    (hc : s.store.common t = some c) (hsize : c.size ≠ unknownSize) :
    ∃ c', s'.store.common t = some c' ∧ c'.size ≠ unknownSize ∧ CompareEq c c' := by
  obtain ⟨r, hr, rfl⟩ := Option.map_eq_some_iff.mp hc
  obtain ⟨r', hr', hchange⟩ := h.change t r hr
  obtain ⟨hsize', hcompare⟩ := hchange.known (hf t r hr) hsize
  exact ⟨r'.rtype, by simp [Store.common, hr'], hsize', hcompare⟩

/-- Fields of the same types, with records in a relation. -/
theorem mapM_fieldCommon {R : Complete → Complete → Prop} {a b : Store} {fields fields' : List Field}
    {cs : List Complete} (hcs : fields.mapM a.fieldCommon = some cs)
    (htypes : fields'.map Field.type = fields.map Field.type)
    (h : ∀ t c, c ∈ cs → a.common t = some c → ∃ c', b.common t = some c' ∧ R c c') :
    ∃ cs', fields'.mapM b.fieldCommon = some cs' ∧ List.Forall₂ R cs cs' := by
  rw [List.mapM_eq_some] at hcs
  simp only [List.mapM_eq_some]
  induction hcs generalizing fields' with
  | nil =>
    rw [List.map_nil, List.map_eq_nil_iff] at htypes
    exact ⟨[], by rw [htypes]; exact .nil, .nil⟩
  | @cons f c fields cs hfc _ ih =>
    obtain ⟨f', rest, rfl, htype, hrest⟩ := List.map_eq_cons_iff.mp htypes
    obtain ⟨t, ht, hc⟩ := Option.bind_eq_some_iff.mp hfc
    obtain ⟨c', hc', hR⟩ := h t c (by simp) hc
    obtain ⟨cs', hcs', hRs⟩ := ih hrest fun t c hmem => h t c (by simp [hmem])
    refine ⟨c' :: cs', .cons ?_ hcs', .cons hR hRs⟩
    rw [Store.fieldCommon, htype, ht]
    exact hc'

theorem Frame.fields_known (h : Frame arch s s') (hf : Formed s) {fields fields' : List Field}
    {cs : List Complete} (hcs : fields.mapM s.store.fieldCommon = some cs)
    (hknown : ∀ c ∈ cs, c.size ≠ unknownSize)
    (htypes : fields'.map Field.type = fields.map Field.type) :
    ∃ cs', fields'.mapM s'.store.fieldCommon = some cs' ∧ (∀ c ∈ cs', c.size ≠ unknownSize) ∧
      List.Forall₂ CompareEq cs cs' := by
  have hrel := @mapM_fieldCommon (fun c c' => c'.size ≠ unknownSize ∧ CompareEq c c') s.store
    s'.store fields fields' cs hcs htypes fun t c hmem hc => h.common_known hf hc (hknown c hmem)
  obtain ⟨cs', hcs', hall⟩ := hrel
  refine ⟨cs', hcs', fun c hc => ?_, hall.imp fun _ _ hcc => hcc.2⟩
  obtain ⟨_, _, hsize, _⟩ := hall.exists_left c hc
  exact hsize

/-- A record stays formed that is kept but for its flags and what is not read here. -/
theorem RecordFormed.keep (hr : RecordFormed s.store r) (hframe : Frame arch s s') (hf : Formed s)
    (hextra : r'.rtype.hasExtra = r.rtype.hasExtra) (hkind : r'.rtype.kind = r.rtype.kind)
    (hsize : r'.rtype.size = r.rtype.size) (helem : r'.rtype.elem = r.rtype.elem)
    (hx : r'.extra = r.extra) (hcompare : CompareEq r.rtype r'.rtype) :
    RecordFormed s'.store r' := by
  refine ⟨fun hb => by rw [hx, hr.bare (hextra ▸ hb)], fun hk => ?_, fun hk hknown => ?_⟩
  · refine ⟨hextra.trans (hr.array (hkind ▸ hk)).1, fun hknown => ?_⟩
    obtain ⟨c, hc, hsc, hcc⟩ := (hr.array (hkind ▸ hk)).2 (hsize ▸ hknown)
    obtain ⟨e, he, hce⟩ := Option.bind_eq_some_iff.mp hc
    obtain ⟨c', hc', hsc', hcc'⟩ := hframe.common_known hf hce hsc
    refine ⟨c', ?_, hsc', hcompare.trans (hcc.trans hcc'.symm)⟩
    rw [Record.elem, helem, show r.rtype.elem = some e from he]
    exact hc'
  · obtain ⟨cs, hcs, hall, hcc⟩ := hr.struct (hkind ▸ hk) (hsize ▸ hknown)
    obtain ⟨cs', hcs', hall', hcc'⟩ := hframe.fields_known hf hcs hall rfl
    refine ⟨cs', by rw [hx]; exact hcs', hall', ?_⟩
    exact hcompare.trans (hcc.trans (computeStructFlags_compare hcc').symm)

/-- The records stay formed. -/
theorem Change.formed (h : Change arch s t r r') (hn : s.named t = none) (hframe : Frame arch s s')
    (hf : Formed s) (hr : RecordFormed s.store r) : RecordFormed s'.store r' := by
  cases h with
  | ptrTo p => exact hr.keep hframe hf rfl rfl rfl rfl rfl rfl
  | mark => exact hr.keep hframe hf rfl rfl rfl rfl rfl (compare_of_rest (or_complete_rest _))
  | fill r' hn' => exact absurd hn hn'
  | @array c size _ hk hc helem hsize =>
    refine ⟨hr.bare, fun _ => ⟨(hr.array hk).1, fun hknown => ?_⟩, fun hk' => ?_⟩
    · obtain ⟨e, he, hce⟩ := Option.bind_eq_some_iff.mp helem
      have hsc : c.size ≠ unknownSize := by
        intro hunknown
        simp only [Store.computeArraySize, if_pos hunknown, Option.some.injEq] at hsize
        exact hknown (hsize ▸ hunknown)
      obtain ⟨c', hc', hsc', hcc'⟩ := hframe.common_known hf hce hsc
      refine ⟨c', ?_, hsc', (computeArrayFlags_compare c _).trans hcc'.symm⟩
      exact Option.bind_eq_some_iff.mpr ⟨e, he, hc'⟩
    · have hkind : r.rtype.kind = .struct := hk'
      rw [hk] at hkind
      simp at hkind
  | @struct cs fields _ hk hc hcs hfields =>
    refine ⟨fun hb => ?_, fun hk' => ?_, fun _ hknown => ?_⟩
    · have hzero := hr.bare hb
      rw [hzero] at hfields
      have hnil : fields = [] := List.map_eq_nil_iff.mp hfields
      simp only [hzero, hnil]
      rfl
    · have hkind : r.rtype.kind = .array := hk'
      rw [hk] at hkind
      simp at hkind
    · have hall : ∀ c ∈ cs, c.size ≠ unknownSize := by
        by_cases hsize : r.rtype.size = unknownSize
        · simp only [if_pos hsize] at hknown
          exact computeStructSize_known hknown
        · obtain ⟨cs', hcs', hall, _⟩ := hr.struct hk hsize
          rw [hcs, Option.some.injEq] at hcs'
          exact hcs' ▸ hall
      obtain ⟨cs', hcs', hall', hcc'⟩ := hframe.fields_known hf hcs hall hfields
      exact ⟨cs', hcs', hall', (computeStructFlags_compare hcc').symm⟩
  | fields fields hn' => exact absurd hn hn'

/-- A step keeps the records formed if it forms the new ones so. -/
theorem Formed.frame (hf : Formed s) (h : Frame arch s s')
    (hnew : ∀ t r', s'.store.heap[t]? = some r' → s'.named t = none →
      s.store.heap.length ≤ t → RecordFormed s'.store r') : Formed s' := by
  intro t r' hr' hn'
  by_cases hlt : t < s.store.heap.length
  · have hr : s.store.heap[t]? = some s.store.heap[t] := List.getElem?_eq_getElem hlt
    have hn : s.named t = none := (h.named t _ hr).mp hn'
    obtain ⟨r'', hr'', hchange⟩ := h.change t _ hr
    rw [hr', Option.some.injEq] at hr''
    subst hr''
    exact hchange.formed hn h hf (hf t _ hr hn)
  · exact hnew t r' hr' hn' (Nat.le_of_not_lt hlt)

end Frame

/-! ## Settled types -/

/-- A type is complete, or its completion changes nothing but that flag. An array of no size stays
as it is; a struct whose size is known keeps its size, and its flags are those of its fields, of
which only the last one has to be settled. -/
inductive Settled (s : Universe) : TypeRef → Prop
  | complete {t : TypeRef} {r : Record} (hr : s.store.heap[t]? = some r)
      (hc : r.rtype.flags &&& flagComplete ≠ 0) : Settled s t
  | simple {t : TypeRef} {r : Record} (hr : s.store.heap[t]? = some r) (hn : s.named t = none)
      (harray : r.rtype.kind ≠ .array) (hstruct : r.rtype.kind ≠ .struct) : Settled s t
  | named {t : TypeRef} {r : Record} (hr : s.store.heap[t]? = some r) (hn : s.named t ≠ none)
      (hsize : r.rtype.size ≠ unknownSize) : Settled s t
  | array {t : TypeRef} {r : Record} {c : Complete} (hr : s.store.heap[t]? = some r)
      (hn : s.named t = none) (hk : r.rtype.kind = .array) (hsize : r.rtype.size = 0)
      (halign : r.rtype.align = 0) (hc : r.elem.bind s.store.common = some c)
      (hflags : r.rtype.flags &&& restMask = Store.computeArrayFlags c 0 &&& restMask) : Settled s t
  | struct {t : TypeRef} {r : Record} {cs : List Complete} (hr : s.store.heap[t]? = some r)
      (hn : s.named t = none) (hk : r.rtype.kind = .struct) (hsize : r.rtype.size ≠ unknownSize)
      (halign : r.rtype.align ≠ unknownAlign)
      (hcs : r.extra.fields.mapM s.store.fieldCommon = some cs)
      (hflags : r.rtype.flags &&& restMask = Store.computeStructFlags cs &&& restMask)
      (hlast : ∀ f u, r.extra.fields.getLast? = some f → f.type = some u → Settled s u) :
      Settled s t

/-- The same size, alignment and flags, but for `flagComplete`. -/
structure SameLayout (c c' : Complete) : Prop where
  size : c'.size = c.size
  align : c'.align = c.align
  flags : c'.flags &&& restMask = c.flags &&& restMask

theorem Settled.exists_record {s : Universe} {t : TypeRef} (h : Settled s t) :
    ∃ r, s.store.heap[t]? = some r := by
  cases h with
  | complete hr => exact ⟨_, hr⟩
  | simple hr => exact ⟨_, hr⟩
  | named hr => exact ⟨_, hr⟩
  | array hr => exact ⟨_, hr⟩
  | struct hr => exact ⟨_, hr⟩

section Settled

variable {arch : Arch} {s s' : Universe} {t : TypeRef} {r r' : Record}

/-- A complete type does not change. -/
theorem Change.complete (h : Change arch s t r r') (hc : r.rtype.flags &&& flagComplete ≠ 0) :
    r'.rtype.flags &&& flagComplete ≠ 0 ∧ SameLayout r.rtype r'.rtype := by
  cases h with
  | ptrTo p => exact ⟨hc, rfl, rfl, rfl⟩
  | mark =>
    refine ⟨?_, rfl, rfl, or_complete_rest _⟩
    show (r.rtype.flags ||| flagComplete) &&& flagComplete ≠ 0
    rw [BitVec.and_or_distrib_right, BitVec.and_self]
    intro hzero
    exact absurd (BitVec.or_eq_zero_iff.mp hzero).2 (by decide)
  | fill r' hn hsize hnot => exact absurd hnot hc
  | array hn hk hnot => exact absurd hnot hc
  | struct hn hk hnot => exact absurd hnot hc
  | fields fields hn => exact ⟨hc, rfl, rfl, rfl⟩

/-- A step keeps a settled type as it is. -/
theorem Settled.frame (h : Settled s t) (hf : Formed s) (hframe : Frame arch s s') :
    Settled s' t ∧ ∃ r r', s.store.heap[t]? = some r ∧ s'.store.heap[t]? = some r' ∧
      SameLayout r.rtype r'.rtype := by
  induction h with
  | @complete t r hr hc =>
    obtain ⟨r', hr', hchange⟩ := hframe.change t r hr
    obtain ⟨hc', hlayout⟩ := hchange.complete hc
    exact ⟨.complete hr' hc', r, r', hr, hr', hlayout⟩
  | @simple t r hr hn harray hstruct =>
    obtain ⟨r', hr', hchange⟩ := hframe.change t r hr
    have hn' := (hframe.named t r hr).mpr hn
    have hkeep : r'.rtype.kind = r.rtype.kind ∧ SameLayout r.rtype r'.rtype := by
      cases hchange with
      | ptrTo p => exact ⟨rfl, rfl, rfl, rfl⟩
      | mark => exact ⟨rfl, rfl, rfl, or_complete_rest _⟩
      | fill r' hnot => exact absurd hn hnot
      | array _ hk => exact absurd hk harray
      | struct _ hk => exact absurd hk hstruct
      | fields fields hnot => exact absurd hn hnot
    exact ⟨.simple hr' hn' (hkeep.1 ▸ harray) (hkeep.1 ▸ hstruct), r, r', hr, hr', hkeep.2⟩
  | @named t r hr hn hsize =>
    obtain ⟨r', hr', hchange⟩ := hframe.change t r hr
    have hn' : s'.named t ≠ none := fun hnone => hn ((hframe.named t r hr).mp hnone)
    have hkeep : SameLayout r.rtype r'.rtype := by
      cases hchange with
      | ptrTo p => exact ⟨rfl, rfl, rfl⟩
      | mark => exact ⟨rfl, rfl, or_complete_rest _⟩
      | fill r' _ hunknown => exact absurd hunknown hsize
      | array hnot => exact absurd hnot hn
      | struct hnot => exact absurd hnot hn
      | fields fields => exact ⟨rfl, rfl, rfl⟩
    exact ⟨.named hr' hn' (hkeep.size ▸ hsize), r, r', hr, hr', hkeep⟩
  | @array t r c hr hn hk hsize halign hc hflags =>
    obtain ⟨r', hr', hchange⟩ := hframe.change t r hr
    have hn' := (hframe.named t r hr).mpr hn
    have hknown : r.rtype.size ≠ unknownSize := by
      rw [hsize]
      decide
    -- the flags of the element may change, but not those that the array reads
    obtain ⟨e, he, hce⟩ := Option.bind_eq_some_iff.mp hc
    obtain ⟨d, hd, hsd, _⟩ := ((hf t r hr hn).array hk).2 hknown
    rw [hc, Option.some.injEq] at hd
    subst hd
    obtain ⟨c', hc', _, hcompare⟩ := hframe.common_known hf hce hsd
    have helem : r.elem.bind s'.store.common = some c' :=
      Option.bind_eq_some_iff.mpr ⟨e, he, hc'⟩
    have hrest := computeArrayFlags_rest hcompare
    have hkeep : r'.rtype.kind = .array ∧ r'.elem = r.elem ∧ SameLayout r.rtype r'.rtype := by
      cases hchange with
      | ptrTo p => exact ⟨hk, rfl, rfl, rfl, rfl⟩
      | mark => exact ⟨hk, rfl, rfl, rfl, or_complete_rest _⟩
      | fill r' hnot => exact absurd hn hnot
      | @array c₀ size _ _ _ hc₀ hsize₀ =>
        rw [hc, Option.some.injEq] at hc₀
        subst hc₀
        rw [(hf t r hr hn).len hk, computeArraySize_zero arch hsd, Option.some.injEq] at hsize₀
        refine ⟨hk, rfl, ?_, ?_, ?_⟩
        · exact hsize₀.symm.trans hsize.symm
        · show Store.computeArrayAlign c r.len = r.rtype.align
          rw [(hf t r hr hn).len hk, halign]
          rfl
        · show Store.computeArrayFlags c r.len &&& restMask = r.rtype.flags &&& restMask
          rw [(hf t r hr hn).len hk, hflags]
      | struct _ hk' =>
        rw [hk] at hk'
        simp at hk'
      | fields fields hnot => exact absurd hn hnot
    obtain ⟨hk', helem', hlayout⟩ := hkeep
    exact ⟨.array hr' hn' hk' (hlayout.size.trans hsize) (hlayout.align.trans halign)
      (by rw [helem']; exact helem) (hlayout.flags.trans (hflags.trans hrest.symm)),
      r, r', hr, hr', hlayout⟩
  | @struct t r cs hr hn hk hsize halign hcs hflags hlast ih =>
    obtain ⟨r', hr', hchange⟩ := hframe.change t r hr
    have hn' := (hframe.named t r hr).mpr hn
    obtain ⟨ds, hds, hall, _⟩ := (hf t r hr hn).struct hk hsize
    rw [hcs, Option.some.injEq] at hds
    subst hds
    have hkeep : r'.rtype.kind = .struct ∧
        r'.extra.fields.map Field.type = r.extra.fields.map Field.type ∧
        SameLayout r.rtype r'.rtype := by
      cases hchange with
      | ptrTo p => exact ⟨hk, rfl, rfl, rfl, rfl⟩
      | mark => exact ⟨hk, rfl, rfl, rfl, or_complete_rest _⟩
      | fill r' hnot => exact absurd hn hnot
      | array _ hk' =>
        rw [hk] at hk'
        simp at hk'
      | @struct cs₀ fields _ _ _ hcs₀ hfields =>
        rw [hcs, Option.some.injEq] at hcs₀
        subst hcs₀
        exact ⟨hk, hfields, if_neg hsize, if_neg halign, hflags.symm⟩
      | fields fields hnot => exact absurd hn hnot
    obtain ⟨hk', htypes, hlayout⟩ := hkeep
    obtain ⟨cs', hcs', _, hcompare⟩ := hframe.fields_known hf hcs hall htypes
    -- the last fields of both have one type
    have hlast' : ∀ f' u, r'.extra.fields.getLast? = some f' → f'.type = some u →
        ∃ f, r.extra.fields.getLast? = some f ∧ f.type = some u := by
      intro f' u hf' hu
      have hmap : (r.extra.fields.map Field.type).getLast? = some (some u) := by
        rw [← htypes, List.getLast?_map, hf', Option.map_some, hu]
      rw [List.getLast?_map] at hmap
      exact Option.map_eq_some_iff.mp hmap
    have hrest : Store.computeStructFlags cs' &&& restMask =
        Store.computeStructFlags cs &&& restMask := by
      refine computeStructFlags_rest hcompare fun c c' hc hc' => ?_
      obtain ⟨f', hf', hfc'⟩ := (List.mapM_eq_some.mp hcs').getLast? hc'
      obtain ⟨u, hu, hcu'⟩ := Option.bind_eq_some_iff.mp hfc'
      obtain ⟨f, hfl, hfu⟩ := hlast' f' u hf' hu
      obtain ⟨f₀, hf₀, hfc⟩ := (List.mapM_eq_some.mp hcs).getLast? hc
      rw [hfl, Option.some.injEq] at hf₀
      subst hf₀
      rw [Store.fieldCommon, hfu] at hfc
      obtain ⟨_, x, x', hx, hx', hxx⟩ := ih f u hfl hfu
      have hcx : x.rtype = c := by simpa [Store.common, hx] using hfc
      have hcx' : x'.rtype = c' := by simpa [Store.common, hx'] using hcu'
      rw [← hcx, ← hcx']
      exact hxx.flags
    refine ⟨.struct hr' hn' hk' (hlayout.size ▸ hsize) (hlayout.align ▸ halign) hcs'
      (hlayout.flags.trans (hflags.trans hrest.symm)) fun f' u hf' hu => ?_,
      r, r', hr, hr', hlayout⟩
    obtain ⟨f, hfl, hfu⟩ := hlast' f' u hf' hu
    exact (ih f u hfl hfu).1

/-- The layout is the same in both records. -/
theorem Settled.layout (h : Settled s t) (hf : Formed s) (hframe : Frame arch s s')
    (hr : s.store.heap[t]? = some r) (hr' : s'.store.heap[t]? = some r') :
    SameLayout r.rtype r'.rtype := by
  obtain ⟨_, a, b, ha, hb, hlayout⟩ := h.frame hf hframe
  rw [hr, Option.some.injEq] at ha
  rw [hr', Option.some.injEq] at hb
  exact ha ▸ hb ▸ hlayout

end Settled

end OneJit.Go.Types
