import OneJit.Go.Settled

/-!
# Named types mirror their underlying types

`SetUnderlying` copies the record of the underlying type as it is at that time, and the completion
of a named type copies it again only where the chain of underlying types has more than one link.
The copy is right whenever the type at the end of the chain is named, and thus copied again, or has
a settled layout.
-/

namespace OneJit.Go.Types

/-! ## New records -/

/-- A record has been appended; of the others only the pointer to the type may change. -/
structure Appends (s s' : Store) (r : Record) : Prop where
  length : s'.heap.length = s.heap.length + 1
  old : ∀ (i : Nat) x, s.heap[i]? = some x →
    ∃ p, s'.heap[i]? = some { x with rtype := { x.rtype with ptrTo := p } }
  new : s'.heap[s.heap.length]? = some r

theorem appends_append (s : Store) (r : Record) {s' : Store} (h : s'.heap = s.heap ++ [r]) :
    Appends s s' r where
  length := by simp [h]
  old i x hx := by
    have hlt := (List.getElem?_eq_some_iff.mp hx).1
    exact ⟨x.rtype.ptrTo, by rw [h, List.getElem?_append_left hlt, hx]⟩
  new := by simp [h]

theorem appends_setPtrTo (s : Store) (elem t : TypeRef) (r : Record) {s' : Store}
    (h : s'.heap = s.heap.modify elem (Record.setPtrTo · t) ++ [r]) : Appends s s' r where
  length := by simp [h]
  old i x hx := by
    have hlt := (List.getElem?_eq_some_iff.mp hx).1
    rw [h, List.getElem?_append_left (by simpa using hlt), List.getElem?_modify, hx]
    by_cases hi : elem = i
    · exact ⟨some t, by simp [hi, Record.setPtrTo]⟩
    · exact ⟨x.rtype.ptrTo, by simp [hi]⟩
  new := by simp [h]

/-- A record of a kind other than array and struct. -/
theorem recordFormed_other (s : Store) {r : Record} (hbare : r.rtype.hasExtra = false → r.extra = .zero)
    (harray : r.rtype.kind ≠ .array) (hstruct : r.rtype.kind ≠ .struct) : RecordFormed s r :=
  ⟨hbare, fun hk => absurd hk harray, fun hk => absurd hk hstruct⟩

theorem map_type_of_args {fields fields' : List Field}
    (h : fields.map Field.args = fields'.map Field.args) :
    fields.map Field.type = fields'.map Field.type := by
  have htype : ∀ fields : List Field,
      fields.map Field.type = (fields.map Field.args).map Field.type := by
    intro fields
    rw [List.map_map]
    rfl
  rw [htype, h, ← htype]

theorem newStruct_formed {s : Store} {fields copies : List Field} {cs : List Complete}
    (hcs : copies.mapM s.fieldCommon = some cs)
    (hfields : fields.map Field.type = copies.map Field.type) {align : BitVec 16} :
    RecordFormed s
      ⟨{ size := Store.computeStructSize cs 0
         align := align
         flags := Store.computeStructFlags cs
         kind := .struct
         elem := none
         hasExtra := true
         ptrTo := none }, { Extra.zero with fields := fields }⟩ := by
  refine ⟨fun h => by simp at h, fun h => by simp at h, fun _ hknown => ?_⟩
  obtain ⟨cs', hcs', heq⟩ := @mapM_fieldCommon Eq s s copies fields cs hcs hfields
    fun t c _ hc => ⟨c, hc, rfl⟩
  rw [List.forall₂_eq_eq_eq] at heq
  subst heq
  exact ⟨cs, hcs', computeStructSize_known hknown, rfl⟩

/-- A call of a constructor makes no type, or one with a record that is formed. -/
theorem exec_appends {arch : Arch} {s s' : Store} {c : Call} {t : TypeRef}
    (h : c.exec arch s = some (t, s')) :
    s' = s ∨ ∃ r, Appends s s' r ∧ RecordFormed s r := by
  cases c with
  | array elem len =>
    simp only [Call.exec, Store.newArray] at h
    split at h
    · cases h
    · split at h
      · exact .inl (Prod.mk.inj (Option.some.inj h)).2.symm
      · obtain ⟨relem, hrelem, h⟩ := Option.bind_eq_some_iff.mp h
        obtain ⟨size, hsize, h⟩ := Option.bind_eq_some_iff.mp h
        obtain ⟨-, rfl⟩ := Prod.mk.inj (Option.some.inj h)
        refine .inr ⟨_, appends_append _ _ rfl, fun _ => rfl, fun _ => ⟨rfl, fun hknown => ?_⟩,
          fun hk => by simp at hk⟩
        refine ⟨relem, hrelem, fun hunknown => ?_, computeArrayFlags_compare relem len⟩
        simp only [Store.computeArraySize, if_pos hunknown, Option.some.injEq] at hsize
        exact hknown (hsize ▸ hunknown)
  | chan dir elem =>
    simp only [Call.exec, Store.newChan] at h
    split at h
    · exact .inl (Prod.mk.inj (Option.some.inj h)).2.symm
    · obtain ⟨relem, hrelem, h⟩ := Option.bind_eq_some_iff.mp h
      obtain ⟨-, rfl⟩ := Prod.mk.inj (Option.some.inj h)
      exact .inr ⟨_, appends_append _ _ rfl, recordFormed_other s (fun _ => rfl) (by simp) (by simp)⟩
  | func ins outs variadic =>
    simp only [Call.exec, Store.newFunc] at h
    obtain ⟨⟨key, types⟩, hkey, h⟩ := Option.bind_eq_some_iff.mp h
    dsimp only at h
    split at h
    · exact .inl (Prod.mk.inj (Option.some.inj h)).2.symm
    · obtain ⟨flagsIn, hin, h⟩ := Option.bind_eq_some_iff.mp h
      obtain ⟨flagsOut, hout, h⟩ := Option.bind_eq_some_iff.mp h
      obtain ⟨-, rfl⟩ := Prod.mk.inj (Option.some.inj h)
      exact .inr ⟨_, appends_append _ _ rfl,
        recordFormed_other s (fun hb => by simp at hb) (by simp) (by simp)⟩
  | map key elem =>
    simp only [Call.exec, Store.newMap] at h
    obtain ⟨rkey, hrkey, h⟩ := Option.bind_eq_some_iff.mp h
    split at h
    · cases h
    · split at h
      · exact .inl (Prod.mk.inj (Option.some.inj h)).2.symm
      · obtain ⟨relem, hrelem, h⟩ := Option.bind_eq_some_iff.mp h
        obtain ⟨-, rfl⟩ := Prod.mk.inj (Option.some.inj h)
        exact .inr ⟨_, appends_append _ _ rfl,
          recordFormed_other s (fun hb => by simp at hb) (by simp) (by simp)⟩
  | pointer elem =>
    simp only [Call.exec, Store.newPointer] at h
    obtain ⟨relem, hrelem, h⟩ := Option.bind_eq_some_iff.mp h
    split at h
    · exact .inl (Prod.mk.inj (Option.some.inj h)).2.symm
    · obtain ⟨-, rfl⟩ := Prod.mk.inj (Option.some.inj h)
      exact .inr ⟨_, appends_setPtrTo _ elem _ _ rfl,
        recordFormed_other s (fun _ => rfl) (by simp) (by simp)⟩
  | slice elem =>
    simp only [Call.exec, Store.newSlice] at h
    split at h
    · exact .inl (Prod.mk.inj (Option.some.inj h)).2.symm
    · obtain ⟨relem, hrelem, h⟩ := Option.bind_eq_some_iff.mp h
      obtain ⟨-, rfl⟩ := Prod.mk.inj (Option.some.inj h)
      exact .inr ⟨_, appends_append _ _ rfl, recordFormed_other s (fun _ => rfl) (by simp) (by simp)⟩
  | struct fields =>
    simp only [Call.exec, Store.newStruct] at h
    obtain ⟨⟨key, copies⟩, hkey, h⟩ := Option.bind_eq_some_iff.mp h
    dsimp only at h
    split at h
    · exact .inl (Prod.mk.inj (Option.some.inj h)).2.symm
    · obtain ⟨cs, hcs, h⟩ := Option.bind_eq_some_iff.mp h
      obtain ⟨-, rfl⟩ := Prod.mk.inj (Option.some.inj h)
      have hlength : cs.length = copies.length := (List.mapM_eq_some.mp hcs).length_eq.symm
      exact .inr ⟨_, appends_append _ _ rfl, newStruct_formed hcs
        (map_type_of_args (map_args_updateFieldOffsets _ _ hlength))⟩

/-! ## What the records of named types hold -/

/-- The record of a named type before its underlying type is known. -/
structure Blank (r : Record) : Prop where
  size : r.rtype.size = unknownSize
  flags : r.rtype.flags = 0
  hasExtra : r.rtype.hasExtra = true
  extra : r.extra = .zero

/-- The record of a named type is that of its underlying type, but for `flagComplete`. -/
structure Mirrors (r u : Record) : Prop where
  layout : SameLayout u.rtype r.rtype
  kind : r.rtype.kind = u.rtype.kind
  elem : r.rtype.elem = u.rtype.elem
  extra : r.extra = u.extra

/-- A named type has a blank record as long as its underlying type is unknown or named, and then
that of its underlying type, which is settled or has been completed just now. -/
structure Coherent (done : List TypeRef) (s : Universe) : Prop where
  formed : Formed s
  lt : ∀ t, s.named t ≠ none → t < s.store.heap.length
  blank : ∀ t, s.named t ≠ none → (∀ u, s.next t = some u → s.named u ≠ none) →
    ∃ r, s.store.heap[t]? = some r ∧ Blank r
  mirrors : ∀ t u, s.next t = some u → s.named u = none →
    (Settled s u ∨ u ∈ done) ∧
      ∃ r ru, s.store.heap[t]? = some r ∧ s.store.heap[u]? = some ru ∧ Mirrors r ru
  synced : ∀ t u, s.next t = some u → s.named u = none → s.isComplete t = true →
    s.isComplete u = true

theorem isComplete_iff {s : Universe} {t : TypeRef} :
    s.isComplete t = true ↔ ∃ r, s.store.heap[t]? = some r ∧ r.rtype.flags &&& flagComplete ≠ 0 := by
  rw [Universe.isComplete, Store.common]
  cases s.store.heap[t]? with
  | none => simp
  | some r => simp

theorem next_of_none {s : Universe} {t : TypeRef} (h : s.named t = none) : s.next t = none := by
  simp [Universe.next, h]

theorem named_of_next {s : Universe} {t u : TypeRef} (h : s.next t = some u) : s.named t ≠ none := by
  intro hn
  simp [next_of_none hn] at h

theorem Blank.incomplete {r : Record} (h : Blank r) : r.rtype.flags &&& flagComplete = 0 := by
  rw [h.flags]
  rfl

section Coherent

variable {done : List TypeRef} {s s' : Universe} {t u : TypeRef} {r : Record}

/-- A complete named type has an unnamed underlying type, which is complete too. -/
theorem Coherent.complete_named (h : Coherent done s) (hn : s.named t ≠ none)
    (hc : s.isComplete t = true) :
    ∃ u, s.next t = some u ∧ s.named u = none ∧ s.isComplete u = true := by
  obtain ⟨r, hr, hflag⟩ := isComplete_iff.mp hc
  by_contra hcon
  have hblank : ∀ u, s.next t = some u → s.named u ≠ none := by
    intro u hu hnone
    exact hcon ⟨u, hu, hnone, h.synced t u hu hnone hc⟩
  obtain ⟨r', hr', hb⟩ := h.blank t hn hblank
  rw [hr, Option.some.injEq] at hr'
  exact hflag (hr' ▸ hb.incomplete)

/-- The underlying type of a type has a record. -/
theorem Coherent.next_lt (h : Coherent done s) (hu : s.next t = some u) :
    u < s.store.heap.length := by
  by_cases hn : s.named u = none
  · obtain ⟨_, _, ru, _, hru, _⟩ := h.mirrors t u hu hn
    exact (List.getElem?_eq_some_iff.mp hru).1
  · exact h.lt u hn

/-- New types, and new pointers to types. -/
theorem Coherent.grow (h : Coherent done s)
    (hold : ∀ (t : TypeRef) r, s.store.heap[t]? = some r →
      ∃ p, s'.store.heap[t]? = some { r with rtype := { r.rtype with ptrTo := p } })
    (hnamed : ∀ t, t < s.store.heap.length → (s'.named t = none ↔ s.named t = none))
    (hnext : ∀ t, t < s.store.heap.length → s'.next t = s.next t)
    (hlt : ∀ t, s'.named t ≠ none → t < s'.store.heap.length)
    (hnew : ∀ (t : TypeRef) r', s'.store.heap[t]? = some r' → s.store.heap.length ≤ t →
      (s'.named t = none → RecordFormed s.store r') ∧
        (s'.named t ≠ none → s'.next t = none ∧ Blank r')) : Coherent done s' := by
  have hframe : Frame .amd64 s s' := by
    refine ⟨fun t r hr => hnamed t (List.getElem?_eq_some_iff.mp hr).1, fun t r hr => ?_⟩
    obtain ⟨p, hp⟩ := hold t r hr
    exact ⟨_, hp, .ptrTo p⟩
  -- the links are the same, between the same types
  have hlink : ∀ t u, s'.next t = some u → s.next t = some u ∧
      (s'.named u = none ↔ s.named u = none) := by
    intro t u hu
    by_cases ht : t < s.store.heap.length
    · rw [hnext t ht] at hu
      exact ⟨hu, hnamed u (h.next_lt hu)⟩
    · have hn := named_of_next hu
      have hr' := List.getElem?_eq_getElem (hlt t hn)
      have hnone := ((hnew t _ hr' (Nat.le_of_not_lt ht)).2 hn).1
      rw [hu] at hnone
      simp at hnone
  refine ⟨?_, hlt, fun t hn hall => ?_, fun t u hu hnone => ?_, fun t u hu hnone hc => ?_⟩
  · refine h.formed.frame hframe fun t r' hr' hn hle => ?_
    exact ((hnew t r' hr' hle).1 hn).keep hframe h.formed rfl rfl rfl rfl rfl rfl
  · by_cases ht : t < s.store.heap.length
    · have hnold : s.named t ≠ none := fun hnone => hn ((hnamed t ht).mpr hnone)
      obtain ⟨r, hr, hb⟩ := h.blank t hnold fun u hu hnone =>
        hall u (by rw [hnext t ht, hu]) ((hnamed u (h.next_lt hu)).mpr hnone)
      obtain ⟨p, hp⟩ := hold t r hr
      exact ⟨_, hp, hb.size, hb.flags, hb.hasExtra, hb.extra⟩
    · have hr' := List.getElem?_eq_getElem (hlt t hn)
      exact ⟨_, hr', ((hnew t _ hr' (Nat.le_of_not_lt ht)).2 hn).2⟩
  · obtain ⟨hu', hiff⟩ := hlink t u hu
    obtain ⟨hsettled, r, ru, hr, hru, hm⟩ := h.mirrors t u hu' (hiff.mp hnone)
    obtain ⟨p, hp⟩ := hold t r hr
    obtain ⟨q, hq⟩ := hold u ru hru
    refine ⟨hsettled.imp (fun hs => (hs.frame h.formed hframe).1) id, _, _, hp, hq, ?_⟩
    exact ⟨⟨hm.layout.size, hm.layout.align, hm.layout.flags⟩, hm.kind, hm.elem, hm.extra⟩
  · obtain ⟨hu', hiff⟩ := hlink t u hu
    -- the flags of both are those of before
    have hflags : ∀ t, t < s.store.heap.length → s'.isComplete t = s.isComplete t := by
      intro t ht
      have hr := List.getElem?_eq_getElem ht
      obtain ⟨p, hp⟩ := hold t _ hr
      rw [Universe.isComplete, Universe.isComplete, Store.common, Store.common, hp, hr]
      rfl
    have hnt := named_of_next hu'
    rw [hflags t (h.lt t hnt)] at hc
    rw [hflags u (h.next_lt hu')]
    exact h.synced t u hu' (hiff.mp hnone) hc

/-! ## The calls that make types -/

theorem Coherent.newNamed (h : Coherent done s) (name pkgPath : Bytes) :
    Coherent done (s.newNamed name pkgPath).2 := by
  have hother : ∀ t, t ≠ s.store.heap.length →
      (s.newNamed name pkgPath).2.named t = s.named t :=
    fun t ht => Function.update_of_ne ht _ _
  have hlen : (s.newNamed name pkgPath).2.store.heap.length = s.store.heap.length + 1 := by
    simp [Universe.newNamed]
  refine h.grow (fun t r hr => ⟨r.rtype.ptrTo, ?_⟩) (fun t ht => by rw [hother t (Nat.ne_of_lt ht)])
    (fun t ht => by simp only [Universe.next, hother t (Nat.ne_of_lt ht)]) (fun t hn => ?_)
    fun t r' hr' hle => ?_
  · exact (List.getElem?_append_left (List.getElem?_eq_some_iff.mp hr).1).trans hr
  · rw [hlen]
    by_cases heq : t = s.store.heap.length
    · exact heq ▸ Nat.lt_succ_self _
    · rw [hother t heq] at hn
      exact Nat.lt_succ_of_lt (h.lt t hn)
  · have hlt := (List.getElem?_eq_some_iff.mp hr').1
    rw [hlen] at hlt
    have heq : t = s.store.heap.length := Nat.le_antisymm (Nat.le_of_lt_succ hlt) hle
    subst heq
    refine ⟨fun hn => ?_, fun _ => ⟨?_, ?_⟩⟩
    · simp [Universe.newNamed] at hn
    · simp [Universe.next, Universe.newNamed]
    · simp only [Universe.newNamed, List.getElem?_concat_length, Option.some.injEq] at hr'
      rw [← hr']
      exact ⟨rfl, rfl, rfl, rfl⟩

/-- A new type that is not named. -/
theorem Coherent.appends (h : Coherent done s) {r : Record} (hr : RecordFormed s.store r)
    (happ : Appends s.store s'.store r) (hnamed : s'.named = s.named) : Coherent done s' := by
  refine h.grow happ.old (fun t _ => by rw [hnamed]) (fun t _ => by rw [Universe.next, hnamed]; rfl)
    (fun t hn => ?_) fun t r' hr' hle => ?_
  · rw [hnamed] at hn
    rw [happ.length]
    exact Nat.lt_succ_of_lt (h.lt t hn)
  · have hlt := (List.getElem?_eq_some_iff.mp hr').1
    rw [happ.length] at hlt
    have heq : t = s.store.heap.length := Nat.le_antisymm (Nat.le_of_lt_succ hlt) hle
    subst heq
    rw [happ.new, Option.some.injEq] at hr'
    subst hr'
    refine ⟨fun _ => hr, fun hn => ?_⟩
    rw [hnamed] at hn
    exact absurd (h.lt _ hn) (lt_irrefl _)

theorem Coherent.make (h : Coherent done s) {arch : Arch} {c : Call} {store : Store}
    (hc : c.exec arch s.store = some (t, store)) : Coherent done { s with store := store } := by
  rcases exec_appends hc with rfl | ⟨r, happ, hr⟩
  · exact h
  · exact h.appends hr happ rfl

theorem newInterface_cases {arch : Arch} {embedded : List TypeRef} {direct : List Method}
    (h : s.newInterface arch embedded direct = some (t, s')) :
    s' = s ∨ ∃ key ms, s' = s.fileInterface key ms (s.interfaceRecord arch embedded ms) := by
  rw [Universe.newInterface] at h
  obtain ⟨out, _, h⟩ := Option.bind_eq_some_iff.mp h
  obtain ⟨ms, _, h⟩ := Option.bind_eq_some_iff.mp h
  obtain ⟨key, _, h⟩ := Option.bind_eq_some_iff.mp h
  split at h
  · exact .inl (Prod.mk.inj (Option.some.inj h)).2.symm
  · exact .inr ⟨key, ms, (Prod.mk.inj (Option.some.inj h)).2.symm⟩

theorem Coherent.newInterface (h : Coherent done s) {arch : Arch} {embedded : List TypeRef}
    {direct : List Method} (hs : s.newInterface arch embedded direct = some (t, s')) :
    Coherent done s' := by
  rcases newInterface_cases hs with rfl | ⟨key, ms, rfl⟩
  · exact h
  · refine h.appends (recordFormed_other _ (fun hb => ?_) ?_ ?_) (appends_append _ _ rfl) rfl
    · simp [Universe.interfaceRecord] at hb
    · simp [Universe.interfaceRecord, interfaceKind]
    · simp [Universe.interfaceRecord, interfaceKind]

/-- The links are the same when a method is added. -/
theorem addMethod_next {m : Method} (h : s.addMethod t m = some s') :
    s'.store = s.store ∧ s'.next = s.next ∧ ∀ u, s'.named u = none ↔ s.named u = none := by
  rw [Universe.addMethod] at h
  cases hn : s.named t with
  | none => simp [hn] at h
  | some n =>
    simp only [hn] at h
    split_ifs at h
    rw [Option.some.injEq] at h
    subst h
    refine ⟨rfl, ?_, fun u => ?_⟩
    · funext u
      by_cases hu : u = t
      · subst hu
        simp [Universe.next, hn]
      · simp [Universe.next, hu]
    · by_cases hu : u = t
      · subst hu
        simp [hn]
      · simp [hu]

theorem Coherent.addMethod (h : Coherent done s) {m : Method} (hs : s.addMethod t m = some s') :
    Coherent done s' := by
  obtain ⟨hstore, hnext, hnamed⟩ := addMethod_next hs
  refine h.grow (fun u r hr => ⟨r.rtype.ptrTo, by rw [hstore]; exact hr⟩) (fun u _ => hnamed u)
    (fun u _ => by rw [hnext]) (fun u hn => ?_) fun u r' hr' hle => ?_
  · rw [hstore]
    exact h.lt u fun hnone => hn ((hnamed u).mpr hnone)
  · rw [hstore] at hr'
    exact absurd (List.getElem?_eq_some_iff.mp hr').1 (Nat.not_lt.mpr hle)

/-! ## Links -/

theorem heap_link {n : NamedExtra} {e : TypeRef} {re : Record} (he : s.store.heap[e]? = some re)
    (i : TypeRef) :
    (s.link t n e).store.heap[i]? =
      if i = t then (s.store.heap[i]?).map (fillFromUnderlying · re) else s.store.heap[i]? := by
  simp only [Universe.link, he]
  rw [List.getElem?_modify]
  by_cases hi : t = i
  · subst hi
    simp
  · simp [hi, Ne.symm hi]

/-- A named type with a blank record is linked to a type that is named too and has one as well, or
is unnamed and settled or completed. -/
theorem Coherent.link (h : Coherent done s) {n : NamedExtra} {e : TypeRef} {re : Record}
    (hn : s.named t = some n) (hr : s.store.heap[t]? = some r) (hblank : Blank r)
    (hre : s.store.heap[e]? = some re) (hne : e ≠ t) (hnamed : s.named e ≠ none → Blank re)
    (hunnamed : s.named e = none → Settled s e ∨ e ∈ done) : Coherent done (s.link t n e) := by
  have hnt : s.named t ≠ none := by simp [hn]
  have hiff : ∀ u, (s.link t n e).named u = none ↔ s.named u = none := by
    intro u
    by_cases hu : u = t
    · subst hu
      simp [hn]
    · simp [hu]
  have hrecord : (s.link t n e).store.heap[t]? = some (fillFromUnderlying r re) := by
    rw [heap_link hre, if_pos rfl, hr, Option.map_some]
  have hother : ∀ u, u ≠ t → (s.link t n e).store.heap[u]? = s.store.heap[u]? := by
    intro u hu
    rw [heap_link hre, if_neg hu]
  have hnext : ∀ u, u ≠ t → (s.link t n e).next u = s.next u := by
    intro u hu
    rw [Universe.link_next, Function.update_of_ne hu]
  have hself : (s.link t n e).next t = some e := by
    rw [Universe.link_next, Function.update_self]
  have hframe : Frame .amd64 s (s.link t n e) := by
    refine ⟨fun u _ _ => hiff u, fun u ru hru => ?_⟩
    by_cases hu : u = t
    · subst hu
      rw [hr, Option.some.injEq] at hru
      subst hru
      exact ⟨_, hrecord, .fill _ hnt hblank.size hblank.incomplete⟩
    · exact ⟨ru, by rw [hother u hu, hru], .ptrTo ru.rtype.ptrTo⟩
  refine ⟨?_, fun u hu => ?_, fun u hu hall => ?_, fun u v hv hnone => ?_, fun u v hv hnone hc => ?_⟩
  · refine h.formed.frame hframe fun u r' hr' _ hle => ?_
    have hlt := (List.getElem?_eq_some_iff.mp hr').1
    rw [Universe.length_link] at hlt
    exact absurd hlt (Nat.not_lt.mpr hle)
  · rw [Universe.length_link]
    exact h.lt u fun hnone => hu ((hiff u).mpr hnone)
  · by_cases hut : u = t
    · subst hut
      have hne' : s.named e ≠ none := fun hnone => hall e hself ((hiff e).mpr hnone)
      have hb := hnamed hne'
      refine ⟨_, hrecord, hb.size, hb.flags, hblank.hasExtra, ?_⟩
      simp [fillFromUnderlying, hb.hasExtra, hb.extra]
    · obtain ⟨ru, hru, hb⟩ := h.blank u (fun hnone => hu ((hiff u).mpr hnone)) fun v hv hnone =>
        hall v (by rw [hnext u hut, hv]) ((hiff v).mpr hnone)
      exact ⟨ru, by rw [hother u hut, hru], hb⟩
  · have hv0 := (hiff v).mp hnone
    have hvt : v ≠ t := fun heq => hnt (heq ▸ hv0)
    by_cases hut : u = t
    · subst hut
      rw [hself, Option.some.injEq] at hv
      subst hv
      refine ⟨(hunnamed hv0).imp (fun hs => (hs.frame h.formed hframe).1) id, _, re, hrecord,
        by rw [hother e hvt, hre], ⟨rfl, rfl, rfl⟩, rfl, rfl, ?_⟩
      -- an underlying type without `extra` leaves that of the named type, which is zero
      by_cases hx : re.rtype.hasExtra = true
      · simp [fillFromUnderlying, hx]
      · have hbare := (h.formed e re hre hv0).bare (by simpa using hx)
        simp [fillFromUnderlying, hx, hbare, hblank.extra]
    · rw [hnext u hut] at hv
      obtain ⟨hsettled, ru, rv, hru, hrv, hm⟩ := h.mirrors u v hv hv0
      exact ⟨hsettled.imp (fun hs => (hs.frame h.formed hframe).1) id, ru, rv,
        by rw [hother u hut, hru], by rw [hother v hvt, hrv], hm⟩
  · have hv0 := (hiff v).mp hnone
    have hvt : v ≠ t := fun heq => hnt (heq ▸ hv0)
    obtain ⟨ru, hru, hflag⟩ := isComplete_iff.mp hc
    by_cases hut : u = t
    · subst hut
      rw [hself, Option.some.injEq] at hv
      subst hv
      rw [hrecord, Option.some.injEq] at hru
      subst hru
      exact isComplete_iff.mpr ⟨re, by rw [hother e hvt, hre], hflag⟩
    · rw [hnext u hut] at hv
      rw [hother u hut] at hru
      obtain ⟨rv, hrv, hflagv⟩ :=
        isComplete_iff.mp (h.synced u v hv hv0 (isComplete_iff.mpr ⟨ru, hru, hflag⟩))
      exact isComplete_iff.mpr ⟨rv, by rw [hother v hvt, hrv], hflagv⟩

/-! ## `SetUnderlying` -/

theorem traverse_end {fuel : Nat} {v e : TypeRef}
    (h : s.traverseUnderlyingCheckLoop t fuel v = some (.ok e)) :
    e ≠ t ∧ (s.underlying e = none ∨ s.underlying e = some e) := by
  induction fuel generalizing v with
  | zero => simp [Universe.traverseUnderlyingCheckLoop] at h
  | succ fuel ih =>
    rw [Universe.traverseUnderlyingCheckLoop] at h
    split_ifs at h with ht
    · simp at h
    · cases hu : s.underlying v with
      | none =>
        simp only [hu, Option.some.injEq, Except.ok.injEq] at h
        subst h
        exact ⟨Ne.symm ht, .inl hu⟩
      | some w =>
        simp only [hu] at h
        split_ifs at h with hw
        · simp only [Option.some.injEq, Except.ok.injEq] at h
          subst h
          exact ⟨Ne.symm ht, .inr (by rw [hu, hw])⟩
        · exact ih h

theorem setUnderlying_ok {fuel : Nat} {v : Option TypeRef} {res : Except Panic Unit}
    (h : s.setUnderlying fuel t v = some (res, s')) :
    s' = s ∨ ∃ n u e, s.named t = some n ∧ n.underlying = none ∧ v = some u ∧
      s.traverseUnderlyingCheckLoop t fuel u = some (.ok e) ∧ s' = s.link t n e := by
  rw [Universe.setUnderlying] at h
  cases hn : s.named t with
  | none => simp [hn] at h
  | some n =>
    simp only [hn] at h
    split_ifs at h with hset
    · exact .inl (by simp_all)
    · cases v with
      | none => exact .inl (by simp_all)
      | some u =>
        cases htr : s.traverseUnderlyingCheckLoop t fuel u with
        | none => simp [htr] at h
        | some out =>
          cases out with
          | error p => exact .inl (by simp_all)
          | ok e => exact .inr ⟨n, u, e, rfl, by simpa using hset, rfl, htr, by simp_all⟩

/-- The condition on `SetUnderlying`: the type at the end of the chain is named or settled. -/
def LinksSettled (s : Universe) : Action → Prop
  | .setUnderlying t (some u) =>
    ∀ fuel e, s.traverseUnderlyingCheckLoop t fuel u = some (.ok e) → s.named e ≠ none ∨ Settled s e
  | _ => True

theorem Coherent.setUnderlying (h : Coherent done s) {fuel : Nat} {v : Option TypeRef}
    {res : Except Panic Unit} (hs : s.setUnderlying fuel t v = some (res, s'))
    (hmeets : LinksSettled s (.setUnderlying t v)) : Coherent done s' := by
  rcases setUnderlying_ok hs with rfl | ⟨n, u, e, hn, hunset, rfl, htr, rfl⟩
  · exact h
  · obtain ⟨hne, hend⟩ := traverse_end htr
    have hnt : s.named t ≠ none := by simp [hn]
    obtain ⟨r, hr, hb⟩ := h.blank t hnt fun x hx => by simp [Universe.next, hn, hunset] at hx
    by_cases hnamed : s.named e = none
    · have hsettled := (hmeets fuel e htr).resolve_left fun hcon => hcon hnamed
      obtain ⟨re, hre⟩ := hsettled.exists_record
      exact h.link hn hr hb hre hne (fun hcon => absurd hnamed hcon) fun _ => .inl hsettled
    · -- the chain ends at a named type without an underlying type
      have hnext : s.next e = none ∨ s.next e = some e := by
        rwa [← Universe.underlying_of_named (Option.isSome_iff_ne_none.mpr hnamed)]
      obtain ⟨re, hre, hbe⟩ := h.blank e hnamed fun x hx => by
        rcases hnext with hnone | hself
        · simp [hnone] at hx
        · rw [hself, Option.some.injEq] at hx
          exact hx ▸ hnamed
      exact h.link hn hr hb hre hne (fun _ => hbe) fun hcon => absurd hcon hnamed

/-! ## Completions -/

/-- What the completion of an unnamed type keeps. -/
structure Completed (done : List TypeRef) (t : TypeRef) (s s' : Universe) : Prop where
  coherent : Coherent (done ++ [t]) s'
  named : s'.named = s.named
  complete : ∀ u, s.isComplete u = true → s'.isComplete u = true

theorem Coherent.weaken (h : Coherent done s) {done' : List TypeRef} (hsub : done ⊆ done') :
    Coherent done' s :=
  ⟨h.formed, h.lt, h.blank,
    fun t u hu hn => (h.mirrors t u hu hn).imp (Or.imp id (hsub ·)) id, h.synced⟩

theorem Coherent.unchanged (h : Coherent done s) (t : TypeRef) : Completed done t s s :=
  ⟨h.weaken (List.subset_append_left _ _), rfl, fun _ hu => hu⟩

/-- An unnamed type is completed. The named types that have it as their underlying type share its
fields. -/
theorem Coherent.completed (h : Coherent done s) {arch : Arch} {r' : Record}
    (hnt : s.named t = none) (htd : t ∉ done) (hr : s.store.heap[t]? = some r)
    (hr' : s'.store.heap[t]? = some r') (hchange : Change arch s t r r')
    (hkind : r'.rtype.kind = r.rtype.kind) (helem : r'.rtype.elem = r.rtype.elem)
    (hextra : r'.extra = { r.extra with fields := r'.extra.fields })
    (hnamed : s'.named = s.named) (hlen : s'.store.heap.length = s.store.heap.length)
    (hother : ∀ (u : TypeRef) ru, u ≠ t → s.store.heap[u]? = some ru →
      s'.store.heap[u]? = some (if s.next u = some t then
        { ru with extra := { ru.extra with fields := r'.extra.fields } } else ru)) :
    Completed done t s s' := by
  have hnext : s'.next = s.next := by
    funext u
    simp only [Universe.next, hnamed]
  have hframe : Frame arch s s' := by
    refine ⟨fun u _ _ => by rw [hnamed], fun u ru hru => ?_⟩
    by_cases hu : u = t
    · subst hu
      rw [hr, Option.some.injEq] at hru
      subst hru
      exact ⟨r', hr', hchange⟩
    · refine ⟨_, hother u ru hu hru, ?_⟩
      by_cases hut : s.next u = some t
      · rw [if_pos hut]
        exact .fields _ (named_of_next hut)
      · rw [if_neg hut]
        exact .ptrTo ru.rtype.ptrTo
  have hne : ∀ u, s.named u ≠ none → u ≠ t := fun u hu heq => hu (heq ▸ hnt)
  have hcomplete : ∀ u, s.isComplete u = true → s'.isComplete u = true := by
    intro u hu
    obtain ⟨ru, hru, hflag⟩ := isComplete_iff.mp hu
    obtain ⟨ru', hru', hch⟩ := hframe.change u ru hru
    exact isComplete_iff.mpr ⟨ru', hru', (hch.complete hflag).1⟩
  refine ⟨⟨?_, fun u hu => ?_, fun u hu hall => ?_, fun u v hv hnone => ?_,
    fun u v hv hnone hc => ?_⟩, hnamed, hcomplete⟩
  · refine h.formed.frame hframe fun u ru hru _ hle => ?_
    have hlt := (List.getElem?_eq_some_iff.mp hru).1
    rw [hlen] at hlt
    exact absurd hlt (Nat.not_lt.mpr hle)
  · rw [hnamed] at hu
    rw [hlen]
    exact h.lt u hu
  · rw [hnamed] at hu
    obtain ⟨ru, hru, hb⟩ := h.blank u hu fun v hv hnone =>
      hall v (by rw [hnext, hv]) (by rw [hnamed, hnone])
    have hnot : s.next u ≠ some t := fun hut => hall t (by rw [hnext, hut]) (by rw [hnamed, hnt])
    refine ⟨ru, ?_, hb⟩
    rw [hother u ru (hne u hu) hru, if_neg hnot]
  · rw [hnext] at hv
    rw [hnamed] at hnone
    obtain ⟨hsettled, ru, rv, hru, hrv, hm⟩ := h.mirrors u v hv hnone
    have hu := hother u ru (hne u (named_of_next hv)) hru
    by_cases hvt : v = t
    · subst hvt
      rw [if_pos hv] at hu
      rw [hr, Option.some.injEq] at hrv
      subst hrv
      -- the type was settled, as it had not been completed before
      have hlayout := (hsettled.resolve_right htd).layout h.formed hframe hr hr'
      refine ⟨.inr (by simp), _, r', hu, hr', ⟨?_, ?_, ?_⟩, ?_, ?_, ?_⟩
      · exact hm.layout.size.trans hlayout.size.symm
      · exact hm.layout.align.trans hlayout.align.symm
      · exact hm.layout.flags.trans hlayout.flags.symm
      · exact hm.kind.trans hkind.symm
      · exact hm.elem.trans helem.symm
      · rw [hm.extra]
        exact hextra.symm
    · have hvnot : s.next v ≠ some t := by simp [next_of_none hnone]
      have hv' := hother v rv hvt hrv
      rw [if_neg hvnot] at hv'
      rw [if_neg fun hcon => hvt (Option.some.inj (hv.symm.trans hcon))] at hu
      exact ⟨hsettled.imp (fun hs => (hs.frame h.formed hframe).1) (fun hd => by simp [hd]),
        ru, rv, hu, hv', hm⟩
  · rw [hnext] at hv
    rw [hnamed] at hnone
    obtain ⟨_, ru, rv, hru, hrv, _⟩ := h.mirrors u v hv hnone
    have hu := hother u ru (hne u (named_of_next hv)) hru
    obtain ⟨ru', hru', hflag⟩ := isComplete_iff.mp hc
    rw [hu, Option.some.injEq] at hru'
    have hflag0 : ru.rtype.flags &&& flagComplete ≠ 0 := by
      rw [← hru'] at hflag
      split_ifs at hflag <;> exact hflag
    exact hcomplete v (h.synced u v hv hnone (isComplete_iff.mpr ⟨ru, hru, hflag0⟩))

theorem heap_modify {f : Record → Record} (u : TypeRef) :
    (s.modify t f).store.heap[u]? =
      if u = t then (s.store.heap[u]?).map f else s.store.heap[u]? := by
  simp only [Universe.modify]
  rw [List.getElem?_modify]
  by_cases hu : t = u
  · subst hu
    simp
  · simp [hu, Ne.symm hu]

theorem Coherent.completeArray (h : Coherent done s) {arch : Arch} (hnt : s.named t = none)
    (htd : t ∉ done) (hr : s.store.heap[t]? = some r) (hk : r.rtype.kind = .array)
    (hs : s.completeArray arch t = some s') : Completed done t s s' := by
  rw [Universe.completeArray] at hs
  by_cases hc : s.isComplete t = true
  · rw [if_pos hc, Option.some.injEq] at hs
    exact hs ▸ h.unchanged t
  · rw [if_neg hc, hr] at hs
    have hflag : r.rtype.flags &&& flagComplete = 0 := by
      by_contra hcon
      exact hc (isComplete_iff.mpr ⟨r, hr, hcon⟩)
    simp only [Option.bind_eq_bind, Option.bind_some] at hs
    obtain ⟨c, hec, hs⟩ := Option.bind_eq_some_iff.mp hs
    obtain ⟨size, hsize, hs⟩ := Option.bind_eq_some_iff.mp hs
    rw [Option.some.injEq] at hs
    subst hs
    refine h.completed hnt htd hr ?_ (.array hnt hk hflag hec hsize) rfl rfl rfl rfl
      (by simp [Universe.modify]) fun u ru hu hru => ?_
    · rw [heap_modify, if_pos rfl, hr]
      rfl
    · rw [heap_modify, if_neg hu, hru]
      by_cases hut : s.next u = some t
      · -- the fields of an array and of its named types are the same before and after
        obtain ⟨_, ru', rt, hru', hrt, hm⟩ := h.mirrors u t hut hnt
        rw [hru, Option.some.injEq] at hru'
        rw [hr, Option.some.injEq] at hrt
        subst hru' hrt
        rw [if_pos hut, ← hm.extra]
      · rw [if_neg hut]

theorem Coherent.completeStruct (h : Coherent done s) (hnt : s.named t = none) (htd : t ∉ done)
    (hr : s.store.heap[t]? = some r) (hk : r.rtype.kind = .struct)
    (hs : s.completeStruct t = some s') : Completed done t s s' := by
  rw [Universe.completeStruct] at hs
  by_cases hc : s.isComplete t = true
  · rw [if_pos hc, Option.some.injEq] at hs
    exact hs ▸ h.unchanged t
  · rw [if_neg hc, hr] at hs
    have hflag : r.rtype.flags &&& flagComplete = 0 := by
      by_contra hcon
      exact hc (isComplete_iff.mpr ⟨r, hr, hcon⟩)
    simp only [Option.bind_eq_bind, Option.bind_some] at hs
    obtain ⟨cs, hcs, hs⟩ := Option.bind_eq_some_iff.mp hs
    rw [Option.some.injEq] at hs
    subst hs
    have hlength : cs.length = r.extra.fields.length :=
      (List.mapM_eq_some.mp hcs).length_eq.symm
    have hheap : ∀ (fields : List Field) (f : Record → Record) (i : TypeRef),
        ((s.modify t f).setFields t fields).store.heap[i]? =
          ((s.modify t f).store.heap[i]?).map fun x =>
            if i = t ∨ s.next i = some t then { x with extra := { x.extra with fields := fields } }
            else x := by
      intro fields f i
      simp only [Universe.setFields, List.getElem?_mapIdx]
      rfl
    generalize hfields : Store.updateFieldOffsets _ _ r.extra.fields cs = fields
    have htypes : fields.map Field.type = r.extra.fields.map Field.type := by
      rw [← hfields]
      exact map_type_of_args (map_args_updateFieldOffsets _ _ hlength)
    have hchange : Change .amd64 s t r _ := .struct hnt hk hflag hcs htypes
    refine h.completed hnt htd hr ?_ hchange rfl rfl rfl rfl
      (by simp [Universe.setFields, Universe.modify]) fun u ru hu hru => ?_
    · rw [hheap, heap_modify, if_pos rfl, hr]
      simp only [Option.map_some, true_or, if_true]
    · rw [hheap, heap_modify, if_neg hu, hru]
      simp only [hu, false_or, Option.map_some]

/-- The end of the chain that `(*Named).complete` follows. -/
theorem completeUnderlying_end {fuel : Nat} {v : Option TypeRef} {e : TypeRef}
    (h : s.completeUnderlying t fuel v = some (.ok e)) :
    s.named e = none ∧ e ≠ t ∧ ∃ u, v = some u ∧ (u = e ∨ (s.named u ≠ none ∧
      ∀ w, s.next u = some w → s.named w = none → w = e)) := by
  induction fuel generalizing v with
  | zero => simp [Universe.completeUnderlying] at h
  | succ fuel ih =>
    cases v with
    | none => simp [Universe.completeUnderlying] at h
    | some u =>
      rw [Universe.completeUnderlying] at h
      split_ifs at h with ht
      · simp at h
      · cases hu : s.named u with
        | none =>
          simp only [hu, Option.some.injEq, Except.ok.injEq] at h
          subst h
          exact ⟨hu, Ne.symm ht, u, rfl, .inl rfl⟩
        | some m =>
          simp only [hu] at h
          obtain ⟨hne, hte, u', hm, hu'⟩ := ih h
          refine ⟨hne, hte, u, rfl, .inr ⟨by simp [hu], fun w hw hnone => ?_⟩⟩
          have hwu : w = u' := by
            simpa [Universe.next, hu, hm] using hw.symm
          subst hwu
          rcases hu' with rfl | ⟨hnamed, _⟩
          · rfl
          · exact absurd hnone hnamed

theorem completeNamed_ok {fuel : Nat} {n : NamedExtra} (hn : s.named t = some n)
    (h : s.completeNamed fuel t = some (.ok (), s')) :
    (s' = s ∧ s.isComplete t = true) ∨
      ∃ e, s.completeUnderlying t fuel n.underlying = some (.ok e) ∧
        ((s' = s ∧ n.underlying = some e) ∨ (n.underlying ≠ some e ∧ s' = s.link t n e)) := by
  rw [Universe.completeNamed, hn] at h
  dsimp only at h
  split_ifs at h with hc
  · exact .inl ⟨by simp_all, hc⟩
  · cases hres : s.completeUnderlying t fuel n.underlying with
    | none => simp [hres] at h
    | some res =>
      cases res with
      | error p => simp [hres] at h
      | ok e =>
        simp only [hres] at h
        refine .inr ⟨e, rfl, ?_⟩
        split_ifs at h with hsame
        · exact .inl ⟨by simp_all, hsame.symm⟩
        · exact .inr ⟨fun hcon => hsame hcon.symm, by simp_all⟩

/-! ## The loop over the graph -/

/-- What holds in the loop of `CompleteTypes`, after the types `done` have been completed. -/
structure Loop (s₀ : Universe) (fwd : TypeGraph) (s : Universe) (done : List TypeRef) : Prop where
  coherent : Coherent done s
  named : ∀ t, s.named t = none ↔ s₀.named t = none
  next : ∀ t, t ∉ done → s.next t = s₀.next t
  complete : ∀ t, s₀.isComplete t = true → s.isComplete t = true
  linked : ∀ t ∈ done, s.named t ≠ none →
    ∃ u, s.next t = some u ∧ s.named u = none ∧ (u ∈ fwd.types ∨ s.isComplete u = true)

variable {s₀ : Universe} {fwd : TypeGraph}

/-- What a named type of the graph has as its underlying type is in the graph too, or complete. -/
theorem covers_next (hcov : s₀.Covers fwd t) (hu : s₀.next t = some u) :
    s₀.isComplete u = true ∨
      (u ∈ fwd.types ∧ (s₀.named u ≠ none → fwd.Strong t u)) := by
  obtain ⟨ds, hds, hall⟩ := hcov
  obtain ⟨n, hn⟩ := Option.ne_none_iff_exists'.mp (named_of_next hu)
  have hunder : n.underlying = some u := by simpa [Universe.next, hn] using hu
  simp only [Universe.content, hn, hunder, Option.map_some, Option.some.injEq] at hds
  rcases hall (u, true) (by simp [← hds]) with hc | ⟨hmem, hstrong⟩
  · exact .inl hc
  · exact .inr ⟨hmem, fun hnamed => hstrong rfl fun hweak => hnamed hweak.1⟩

/-- The loop keeps the records of all types where a step does nothing. -/
theorem Loop.skip (h : Loop s₀ fwd s done)
    (hlinked : s.named t ≠ none → ∃ u, s.next t = some u ∧ s.named u = none ∧
      (u ∈ fwd.types ∨ s.isComplete u = true)) : Loop s₀ fwd s (done ++ [t]) where
  coherent := h.coherent.weaken (List.subset_append_left _ _)
  named := h.named
  next u hu := h.next u fun hd => hu (by simp [hd])
  complete := h.complete
  linked u hu := by
    rcases List.mem_append.mp hu with hu | hu
    · exact h.linked u hu
    · rw [List.mem_singleton.mp hu]
      exact hlinked

/-- The completion of an unnamed type. -/
theorem Loop.unnamed (h : Loop s₀ fwd s done) (hnt : s.named t = none)
    (hs : Completed done t s s') : Loop s₀ fwd s' (done ++ [t]) where
  coherent := hs.coherent
  named u := by rw [hs.named, h.named]
  next u hu := by
    simp only [Universe.next, hs.named]
    exact h.next u fun hd => hu (by simp [hd])
  complete u hu := hs.complete u (h.complete u hu)
  linked u hu hn := by
    rw [hs.named] at hn
    have hud : u ∈ done := by
      rcases List.mem_append.mp hu with hu | hu
      · exact hu
      · exact absurd hnt (List.mem_singleton.mp hu ▸ hn)
    obtain ⟨v, hv, hnone, hvc⟩ := h.linked u hud hn
    refine ⟨v, ?_, by rw [hs.named, hnone], hvc.imp id (hs.complete v)⟩
    simp only [Universe.next, hs.named]
    exact hv

/-- The completion of a named type. -/
theorem Loop.namedType (h : Loop s₀ fwd s done) {fuel : Nat} {n : NamedExtra}
    (hn : s.named t = some n) (htd : t ∉ done) (hcov : s₀.Covers fwd t)
    (hdeps : ∀ v, fwd.Strong t v → v ∈ done) (hs : s.completeNamed fuel t = some (.ok (), s')) :
    Loop s₀ fwd s' (done ++ [t]) := by
  have hnt : s.named t ≠ none := by simp [hn]
  have hnext0 := h.next t htd
  rcases completeNamed_ok hn hs with ⟨rfl, hc⟩ | ⟨e, hend, ⟨rfl, hunder⟩ | ⟨hunder, rfl⟩⟩
  · refine h.skip fun _ => ?_
    obtain ⟨u, hu, hnone, huc⟩ := h.coherent.complete_named hnt hc
    exact ⟨u, hu, hnone, .inr huc⟩
  · obtain ⟨hnone, _⟩ := completeUnderlying_end hend
    have hte : s'.next t = some e := by simp [Universe.next, hn, hunder]
    refine h.skip fun _ => ⟨e, hte, hnone, ?_⟩
    rcases covers_next hcov (hnext0 ▸ hte) with hc | ⟨hmem, _⟩
    · exact .inr (h.complete e hc)
    · exact .inl hmem
  · obtain ⟨hnone, hne, v, hv, hve⟩ := completeUnderlying_end hend
    have hvnot : v ≠ e := fun heq => hunder (heq ▸ hv)
    obtain ⟨hvn, hlast⟩ := hve.resolve_left hvnot
    have htv : s.next t = some v := by simp [Universe.next, hn, hv]
    -- the next type of the chain has been completed, so that its underlying type ends the chain
    have hvdone : s.isComplete v = true ∨ v ∈ done := by
      rcases covers_next hcov (hnext0 ▸ htv) with hc | ⟨_, hstrong⟩
      · exact .inl (h.complete v hc)
      · exact .inr (hdeps v (hstrong fun hnone => hvn ((h.named v).mpr hnone)))
    have hvlink : ∃ u, s.next v = some u ∧ s.named u = none ∧
        (u ∈ fwd.types ∨ s.isComplete u = true) := by
      rcases hvdone with hc | hd
      · obtain ⟨u, hu, hun, huc⟩ := h.coherent.complete_named hvn hc
        exact ⟨u, hu, hun, .inr huc⟩
      · exact h.linked v hd hvn
    obtain ⟨u, hu, hun, huc⟩ := hvlink
    have heu := hlast u hu hun
    subst heu
    obtain ⟨hsettled, _, re, _, hre, _⟩ := h.coherent.mirrors v u hu hun
    obtain ⟨r, hr, hb⟩ := h.coherent.blank t hnt fun x hx => by
      rw [htv, Option.some.injEq] at hx
      exact hx ▸ hvn
    have hcoh := h.coherent.link hn hr hb hre hne (fun hcon => absurd hun hcon) fun _ => hsettled
    have hiff : ∀ x, (s.link t n u).named x = none ↔ s.named x = none := by
      intro x
      by_cases hx : x = t
      · subst hx
        simp [hn]
      · simp [hx]
    have hcomplete : ∀ x, s.isComplete x = true → (s.link t n u).isComplete x = true := by
      intro x hx
      obtain ⟨rx, hrx, hflag⟩ := isComplete_iff.mp hx
      have hxt : x ≠ t := by
        rintro rfl
        rw [hr, Option.some.injEq] at hrx
        exact hflag (hrx ▸ hb.incomplete)
      exact isComplete_iff.mpr ⟨rx, by rw [heap_link hre, if_neg hxt, hrx], hflag⟩
    refine ⟨hcoh.weaken (List.subset_append_left _ _), fun x => by rw [hiff, h.named],
      fun x hx => ?_, fun x hx => hcomplete x (h.complete x hx), fun x hx hxn => ?_⟩
    · have hxt : x ≠ t := fun heq => hx (by simp [heq])
      rw [Universe.link_next, Function.update_of_ne hxt]
      exact h.next x fun hd => hx (by simp [hd])
    · by_cases hxt : x = t
      · subst hxt
        refine ⟨u, by rw [Universe.link_next, Function.update_self], (hiff u).mpr hun, ?_⟩
        exact huc.imp id (hcomplete u)
      · have hxd : x ∈ done := (List.mem_append.mp hx).resolve_right fun hs => hxt (by simpa using hs)
        obtain ⟨w, hw, hwn, hwc⟩ := h.linked x hxd fun hnone => hxn ((hiff x).mpr hnone)
        refine ⟨w, ?_, (hiff w).mpr hwn, hwc.imp id (hcomplete w)⟩
        rw [Universe.link_next, Function.update_of_ne hxt, hw]

/-- One completion in the loop. -/
theorem Loop.step (h : Loop s₀ fwd s done) {arch : Arch} {fuel : Nat} (htd : t ∉ done)
    (hcov : s₀.Covers fwd t) (hdeps : ∀ v, fwd.Strong t v → v ∈ done)
    (hs : s.complete arch fuel t = some s') : Loop s₀ fwd s' (done ++ [t]) := by
  rw [Universe.complete] at hs
  cases hn : s.named t with
  | some n =>
    simp only [hn] at hs
    split at hs
    · next s₁ hrun =>
      rw [Option.some.injEq] at hs
      subst hs
      exact h.namedType hn htd hcov hdeps hrun
    · simp at hs
  | none =>
    simp only [hn] at hs
    refine h.unnamed hn ?_
    cases hr : s.store.heap[t]? with
    | none =>
      simp only [Store.common, hr, Option.map_none, Option.some.injEq] at hs
      exact hs ▸ h.coherent.unchanged t
    | some r =>
      simp only [Store.common, hr, Option.map_some] at hs
      split at hs
      · next hk => exact h.coherent.completeArray hn htd hr (Option.some.inj hk) hs
      · next hk => exact h.coherent.completeStruct hn htd hr (Option.some.inj hk) hs
      · rw [Option.some.injEq] at hs
        exact hs ▸ h.coherent.unchanged t

/-- The marks at the end. -/
theorem Loop.finish (h : Loop s₀ fwd s done) (hall : ∀ t, t ∈ fwd.types ↔ t ∈ done)
    (hs : Universe.Marked done s s') :
    Coherent [] s' ∧ (∀ t, s₀.isComplete t = true → s'.isComplete t = true) ∧
      ∀ t ∈ done, t < s.store.heap.length → s'.isComplete t = true := by
  have hc := h.coherent
  have hnext : s'.next = s.next := by
    funext u
    simp only [Universe.next, hs.named]
  -- each record is the same or marked
  have hrecord : ∀ (t : TypeRef) r, s.store.heap[t]? = some r → ∃ r', s'.store.heap[t]? = some r' ∧
      Change .amd64 s t r r' ∧ r'.extra = r.extra ∧ r'.rtype.kind = r.rtype.kind ∧
      r'.rtype.elem = r.rtype.elem ∧ SameLayout r.rtype r'.rtype ∧
      (r'.rtype.flags &&& flagComplete ≠ 0 ↔ r.rtype.flags &&& flagComplete ≠ 0 ∨ t ∈ done) := by
    intro t r hr
    by_cases ht : t ∈ done
    · obtain ⟨r', hr', rfl⟩ := hs.marked t ht r hr
      refine ⟨_, hr', .mark, rfl, rfl, rfl, ⟨rfl, rfl, or_complete_rest _⟩, ?_⟩
      have hflag : (Universe.markRecord r).rtype.flags &&& flagComplete ≠ 0 := by
        simp only [Universe.markRecord, BitVec.and_or_distrib_right, BitVec.and_self]
        intro hzero
        exact absurd (BitVec.or_eq_zero_iff.mp hzero).2 (by decide)
      exact iff_of_true hflag (.inr ht)
    · refine ⟨r, by rw [hs.other t ht, hr], .ptrTo r.rtype.ptrTo, rfl, rfl, rfl,
        ⟨rfl, rfl, rfl⟩, by simp [ht]⟩
  have hframe : Frame .amd64 s s' := by
    refine ⟨fun u _ _ => by rw [hs.named], fun u ru hru => ?_⟩
    obtain ⟨r', hr', hchange, _⟩ := hrecord u ru hru
    exact ⟨r', hr', hchange⟩
  have hcomplete : ∀ u, s.isComplete u = true → s'.isComplete u = true := by
    intro u hu
    obtain ⟨ru, hru, hflag⟩ := isComplete_iff.mp hu
    obtain ⟨r', hr', _, _, _, _, _, hiff⟩ := hrecord u ru hru
    exact isComplete_iff.mpr ⟨r', hr', hiff.mpr (.inl hflag)⟩
  have hdone : ∀ t ∈ done, t < s.store.heap.length → s'.isComplete t = true := by
    intro t ht hlt
    obtain ⟨r', hr', _, _, _, _, _, hiff⟩ := hrecord t _ (List.getElem?_eq_getElem hlt)
    exact isComplete_iff.mpr ⟨r', hr', hiff.mpr (.inr ht)⟩
  refine ⟨⟨?_, fun u hu => ?_, fun u hu hlinks => ?_, fun u v hv hnone => ?_,
    fun u v hv hnone huc => ?_⟩, fun t ht => hcomplete t (h.complete t ht), hdone⟩
  · refine hc.formed.frame hframe fun u ru hru _ hle => ?_
    have hlt := (List.getElem?_eq_some_iff.mp hru).1
    rw [hs.length] at hlt
    exact absurd hlt (Nat.not_lt.mpr hle)
  · rw [hs.named] at hu
    rw [hs.length]
    exact hc.lt u hu
  · rw [hs.named] at hu
    rw [hnext, hs.named] at hlinks
    obtain ⟨ru, hru, hb⟩ := hc.blank u hu hlinks
    -- a type that has been completed has an unnamed underlying type
    have hud : u ∉ done := by
      intro hd
      obtain ⟨v, hv, hvn, _⟩ := h.linked u hd hu
      exact hlinks v hv hvn
    exact ⟨ru, by rw [hs.other u hud, hru], hb⟩
  · rw [hnext] at hv
    rw [hs.named] at hnone
    obtain ⟨hsettled, ru, rv, hru, hrv, hm⟩ := hc.mirrors u v hv hnone
    obtain ⟨ru', hru', _, hxu, hku, heu, hlu, _⟩ := hrecord u ru hru
    obtain ⟨rv', hrv', _, hxv, hkv, hev, hlv, hiff⟩ := hrecord v rv hrv
    refine ⟨.inl ?_, ru', rv', hru', hrv', ⟨?_, ?_, ?_⟩, ?_, ?_, ?_⟩
    · rcases hsettled with hsettled | hd
      · exact (hsettled.frame hc.formed hframe).1
      · exact .complete hrv' (hiff.mpr (.inr hd))
    · exact hlu.size.trans (hm.layout.size.trans hlv.size.symm)
    · exact hlu.align.trans (hm.layout.align.trans hlv.align.symm)
    · exact hlu.flags.trans (hm.layout.flags.trans hlv.flags.symm)
    · exact hku.trans (hm.kind.trans hkv.symm)
    · exact heu.trans (hm.elem.trans hev.symm)
    · exact hxu.trans (hm.extra.trans hxv.symm)
  · rw [hnext] at hv
    rw [hs.named] at hnone
    obtain ⟨_, ru, rv, hru, hrv, _⟩ := hc.mirrors u v hv hnone
    obtain ⟨ru', hru', hflag⟩ := isComplete_iff.mp huc
    obtain ⟨ru'', hru'', _, _, _, _, _, hiff⟩ := hrecord u ru hru
    rw [hru', Option.some.injEq] at hru''
    subst hru''
    rcases hiff.mp hflag with hflag | hd
    · exact hcomplete v (hc.synced u v hv hnone (isComplete_iff.mpr ⟨ru, hru, hflag⟩))
    · obtain ⟨w, hw, _, hwc⟩ := h.linked u hd (named_of_next hv)
      rw [hv, Option.some.injEq] at hw
      subst hw
      rcases hwc with hmem | hwc
      · exact hdone v ((hall v).mp hmem) (List.getElem?_eq_some_iff.mp hrv).1
      · exact hcomplete v hwc

/-! ## `CompleteTypes` -/

/-- The types that are reached are complete or in the graph. -/
theorem needs_covered {ts : List TypeRef}
    (hts : ∀ t ∈ ts, s.isComplete t = true ∨ t ∈ fwd.types)
    (hcov : ∀ u ∈ fwd.types, s.isComplete u = false ∧ s.Covers fwd u) (h : Needs s ts t) :
    s.isComplete t = true ∨ t ∈ fwd.types := by
  induction h with
  | given h => exact hts _ h
  | dep _ hc hds hd ih =>
    obtain ⟨ds', hds', hall⟩ := (hcov _ (ih.resolve_left (by simp [hc]))).2
    rw [hds, Option.some.injEq] at hds'
    subst hds'
    exact (hall _ hd).imp id And.left

theorem Coherent.completeTypes (h : Coherent [] s) {arch : Arch} {Picks : Universe → TypeRef → Prop}
    {ts : List TypeRef} (hs : CompleteTypes arch Picks ts s s') :
    Coherent [] s' ∧ ∀ t, Needs s ts t → s'.isComplete t = true := by
  cases hs with
  | complete hall =>
    rw [List.all_eq_true] at hall
    refine ⟨h, fun t ht => ?_⟩
    have hempty : ∀ u, u ∉ TypeGraph.types [] := by simp [TypeGraph.types]
    have hcov : ∀ u ∈ TypeGraph.types [], s.isComplete u = false ∧ s.Covers [] u :=
      fun u hu => absurd hu (hempty u)
    exact (needs_covered (fun u hu => .inl (hall u hu)) hcov ht).resolve_right (hempty t)
  | @graph s₁ _ fwd g fuel hnot hadd hrun hfinish =>
    obtain ⟨hts, hcov⟩ := Universe.addTypes_covers hadd
    have hstart : Loop s fwd s [] :=
      ⟨h, fun _ => .rfl, fun _ _ => rfl, fun _ hc => hc, by simp⟩
    obtain ⟨hloop, hall⟩ := hrun.induct (I := Loop s fwd)
      (fun a b done t fuel ht htd _ hdeps _ hstep ha => ha.step htd (hcov t ht).2 hdeps hstep)
      (.init fwd _) hstart
    have hmarked := Universe.finish_marked hfinish
    obtain ⟨hcoh, hkeep, hdone⟩ := hloop.finish hall hmarked
    refine ⟨hcoh, fun t ht => ?_⟩
    rcases needs_covered hts hcov ht with hc | hmem
    · exact hkeep t hc
    · exact hdone t ((hall t).mp hmem) (hmarked.lt t ((hall t).mp hmem))

theorem coherent_start (h : Basic s) : Coherent [] s := by
  have hnext : ∀ t u, s.next t ≠ some u := fun t u hu => named_of_next hu (h.named t)
  refine ⟨fun t r hr _ => ?_, fun t hn => absurd (h.named t) hn,
    fun t hn => absurd (h.named t) hn, fun t u hu => absurd hu (hnext t u),
    fun t u hu => absurd hu (hnext t u)⟩
  have hmem := List.mem_of_getElem? hr
  obtain ⟨code, hcode, _⟩ := h.kind r hmem
  exact recordFormed_other _ (fun _ => (h.extra r hmem).2) (by simp [hcode]) (by simp [hcode])

/-- Every call keeps the records coherent, where `SetUnderlying` meets its condition. -/
theorem Coherent.takes (h : Coherent [] s) {arch : Arch} {Picks : Universe → TypeRef → Prop}
    {a : Action} (hmeets : LinksSettled s a) (ht : Takes arch Picks s a s') : Coherent [] s' := by
  cases ht with
  | newNamed name pkgPath => exact h.newNamed name pkgPath
  | setUnderlying hs => exact h.setUnderlying hs hmeets
  | addMethod hs => exact h.addMethod hs
  | make hc => exact h.make hc
  | newInterface hs => exact h.newInterface hs
  | completeTypes hs => exact (h.completeTypes hs).1

theorem Built.coherent {arch : Arch} {Picks : Universe → TypeRef → Prop}
    (h : Built arch LinksSettled Picks s) : Coherent [] s := by
  induction h with
  | start hs => exact coherent_start hs
  | call _ hmeets ht ih => exact ih.takes hmeets ht

end Coherent

theorem flags_eq_of_rest {f f' : Flags} (h : f' &&& restMask = f &&& restMask)
    (hf : f &&& flagComplete ≠ 0) (hf' : f' &&& flagComplete ≠ 0) : f' = f := by
  have hbit : ∀ f : Flags, f &&& flagComplete ≠ 0 → f &&& flagComplete = flagComplete := by
    intro f hf
    have htwo := BitVec.and_twoPow f 4
    rw [show BitVec.twoPow 16 4 = flagComplete by rfl] at htwo
    split_ifs at htwo
    · exact htwo
    · exact absurd htwo hf
  have hsplit : ∀ f : Flags, (f &&& restMask) ||| (f &&& flagComplete) = f := by
    intro f
    rw [← BitVec.and_or_distrib_left, show restMask ||| flagComplete = BitVec.allOnes 16 by decide,
      BitVec.and_allOnes]
  rw [← hsplit f', ← hsplit f, h, hbit f hf, hbit f' hf']

/-- The underlying type of a named type is unnamed, and both records have the same size, alignment,
flags, kind, element, and the same parameters, length and fields. -/
def Mirrored (s : Universe) (t : TypeRef) : Prop :=
  ∃ u r ru, s.next t = some u ∧ s.named u = none ∧ s.store.heap[t]? = some r ∧
    s.store.heap[u]? = some ru ∧ r.rtype.size = ru.rtype.size ∧ r.rtype.align = ru.rtype.align ∧
    r.rtype.flags = ru.rtype.flags ∧ r.rtype.kind = ru.rtype.kind ∧
    r.rtype.elem = ru.rtype.elem ∧ r.extra = ru.extra

/-- After `CompleteTypes` all types that it reaches are complete, and complete named types mirror
their underlying types, where each `SetUnderlying` had a chain that ended at a named type or at one
whose layout was settled. -/
theorem complete_named_mirrored {arch : Arch} {Picks : Universe → TypeRef → Prop} {s s' : Universe}
    (h : Built arch LinksSettled Picks s) {ts : List TypeRef}
    (hs : CompleteTypes arch Picks ts s s') :
    (∀ t, Needs s ts t → s'.isComplete t = true) ∧
      ∀ t, s'.named t ≠ none → s'.isComplete t = true → Mirrored s' t := by
  obtain ⟨hc, hneeds⟩ := h.coherent.completeTypes hs
  refine ⟨hneeds, fun t hn ht => ?_⟩
  obtain ⟨u, hu, hnone, huc⟩ := hc.complete_named hn ht
  obtain ⟨_, r, ru, hr, hru, hm⟩ := hc.mirrors t u hu hnone
  obtain ⟨r', hr', hflag⟩ := isComplete_iff.mp ht
  obtain ⟨ru', hru', hflagu⟩ := isComplete_iff.mp huc
  rw [hr, Option.some.injEq] at hr'
  rw [hru, Option.some.injEq] at hru'
  subst hr' hru'
  exact ⟨u, r, ru, hu, hnone, hr, hru, hm.layout.size, hm.layout.align,
    flags_eq_of_rest hm.layout.flags hflagu hflag, hm.kind, hm.elem, hm.extra⟩

/-! ## Two runs -/

theorem basic_empty : Basic Universe.empty :=
  ⟨fun _ => rfl, fun _ => rfl, rfl, rfl, by simp [Universe.empty], by simp [Universe.empty],
    by simp [Universe.empty], by simp [Universe.empty]⟩

/-- The types after a call of a constructor. -/
def made (c : Call) (s : Universe) : Universe :=
  match c.exec .amd64 s.store with
  | some (_, store) => { s with store := store }
  | none => s

theorem Built.made {Meets : Universe → Action → Prop} {Picks : Universe → TypeRef → Prop}
    {s : Universe} (h : Built .amd64 Meets Picks s) (c : Call) (hmeets : Meets s (.make c)) :
    Built .amd64 Meets Picks (made c s) := by
  rw [Types.made]
  cases hc : c.exec .amd64 s.store with
  | none => exact h
  | some res => exact h.call hmeets (.make hc)

/-- A field of some type. -/
def fieldOf (t : TypeRef) : Field := { Field.zero with type := some t }

/-- The type `*T`, with address 1, and the struct with a field of that type, with address 2. The
named type `T` has the address 0. -/
def listTypes : Universe :=
  made (.struct [fieldOf 1]) (made (.pointer 0) (Universe.empty.newNamed [84] []).2)

/-- The struct is the underlying type of `T`. -/
def listLinked : Universe := listTypes.link 0 ⟨[84], [], none, []⟩ 2

theorem settled_listTypes : Settled listTypes 2 := by
  have hptr : Settled listTypes 1 :=
    .simple (r := listTypes.store.heap[1]?.getD ⟨⟨0, 0, 0, .ptr, none, false, none⟩, .zero⟩) rfl rfl
      (by decide) (by decide)
  have hr : listTypes.store.heap[2]? = some _ := rfl
  have hcs : [{ fieldOf 1 with offset := 0 }].mapM listTypes.store.fieldCommon =
      some [⟨8, 8, flagComparable, .ptr, some 0, false, none⟩] := rfl
  refine .struct hr rfl rfl (by decide) (by decide) hcs (by decide) ?_
  intro f u hf hu
  have hf1 : some { fieldOf 1 with offset := 0 } = some f := hf
  rw [← Option.some.inj hf1] at hu
  exact Option.some.inj hu ▸ hptr

theorem built_listLinked : Built .amd64 LinksSettled (fun _ _ => True) listLinked := by
  have htypes : Built .amd64 LinksSettled (fun _ _ => True) listTypes :=
    ((Built.call (.start basic_empty) (by trivial) (.newNamed [84] [])).made _ (by trivial)).made _
      (by trivial)
  have hset : listTypes.setUnderlying 2 0 (some 2) = some (.ok (), listLinked) := rfl
  refine htypes.call (a := .setUnderlying 0 (some 2)) (fun fuel e he => .inr ?_) (.setUnderlying hset)
  have hrun : listTypes.traverseUnderlyingCheckLoop 0 2 2 = some (.ok 2) := rfl
  have hmono := Universe.traverse_mono _ _ _ hrun (Nat.le_max_right fuel 2)
  rw [Universe.traverse_mono _ _ _ he (Nat.le_max_left fuel 2)] at hmono
  simp only [Option.some.injEq, Except.ok.injEq] at hmono
  exact hmono ▸ settled_listTypes

/-- The completion of `T` and the two types on which it depends. -/
theorem completes_listLinked :
    ∃ s', CompleteTypes .amd64 (fun _ _ => True) [0] listLinked s' ∧ s'.named 0 ≠ none ∧
      s'.isComplete 0 = true :=
  ⟨_, .graph 5 rfl rfl (.pick 5 1 ⟨[], [0]⟩ (by decide) rfl trivial rfl
    (.pick 5 2 ⟨[], []⟩ (by decide) rfl trivial rfl
      (.pick 5 0 ⟨[], []⟩ (by decide) rfl trivial rfl (.done _ _ rfl)))) rfl,
    Option.isSome_iff_ne_none.mp rfl, rfl⟩

theorem complete_named_mirrored_list :
    ∃ s', CompleteTypes .amd64 (fun _ _ => True) [0] listLinked s' ∧ Mirrored s' 0 := by
  obtain ⟨s', hrun, hn, hc⟩ := completes_listLinked
  exact ⟨s', hrun, (complete_named_mirrored built_listLinked hrun).2 0 hn hc⟩

/-- The type `func()`, with address 0, a named type `N`, with address 1, and a struct with fields of
both types, with address 2. -/
def staleTypes : Universe :=
  made (.struct [fieldOf 1, fieldOf 0])
    ((made (.func [] [] false) Universe.empty).newNamed [78] []).2

/-- The struct becomes the underlying type of a named type `T`, with address 3, before `N` has an
underlying type. -/
def staleLinked : Universe :=
  (((staleTypes.newNamed [84] []).2).link 3 ⟨[84], [], none, []⟩ 2).link 1 ⟨[78], [], none, []⟩ 0

/-- The size of the struct is known when it is completed, but not that of `T`. -/
theorem stale_named :
    Built .amd64 (fun _ _ => True) (fun _ _ => True) staleLinked ∧
      ∃ s', CompleteTypes .amd64 (fun _ _ => True) [3] staleLinked s' ∧ s'.isComplete 3 = true ∧
        s'.named 3 ≠ none ∧ ¬ Mirrored s' 3 := by
  have htypes : Built .amd64 (fun _ _ => True) (fun _ _ => True) staleTypes :=
    ((((Built.start basic_empty).made _ trivial).call trivial (.newNamed [78] [])).made _ trivial)
  have hset : (staleTypes.newNamed [84] []).2.setUnderlying 2 3 (some 2) =
      some (.ok (), (staleTypes.newNamed [84] []).2.link 3 ⟨[84], [], none, []⟩ 2) := rfl
  have hset' : ((staleTypes.newNamed [84] []).2.link 3 ⟨[84], [], none, []⟩ 2).setUnderlying 2 1
      (some 0) = some (.ok (), staleLinked) := rfl
  refine ⟨((htypes.call trivial (.newNamed [84] [])).call trivial (.setUnderlying hset)).call trivial
    (.setUnderlying hset'), _, .graph 5 rfl rfl (.pick 5 2 ⟨[], []⟩ (by decide) rfl trivial rfl
      (.pick 5 3 ⟨[], []⟩ (by decide) rfl trivial rfl (.done _ _ rfl))) rfl, rfl,
    Option.isSome_iff_ne_none.mp rfl, ?_⟩
  intro ⟨u, r, ru, hu, _, hr, hru, hsize, _⟩
  have hu2 : some 2 = some u := hu
  rw [← Option.some.inj hu2] at hru
  have hknown : ru.rtype.size = 16 := by rw [← Option.some.inj hru]; rfl
  have hunknown : r.rtype.size = unknownSize := by rw [← Option.some.inj hr]; rfl
  rw [hknown, hunknown] at hsize
  exact absurd hsize (by decide)

end OneJit.Go.Types
