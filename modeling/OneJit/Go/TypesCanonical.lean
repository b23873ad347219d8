import OneJit.Go.Types
import OneJit.Lib.Interning
import OneJit.Lib.MapM

/-!
# Types are canonical

A run of the constructors: each cache holds one type for each key, and the record of a type keeps
what its constructor stored. From the keys follows which calls return the same type, and from the
records what the accessors return.
-/

namespace OneJit.Go.Types

/-- A call of a constructor. -/
inductive Call
  | array (elem : TypeRef) (len : BitVec 64)
  | chan (dir : ChanDir) (elem : TypeRef)
  | func (ins outs : List TypeRef) (variadic : Bool)
  | map (key elem : TypeRef)
  | pointer (elem : TypeRef)
  | slice (elem : TypeRef)
  | struct (fields : List Field)
  deriving DecidableEq

/-- What a caller says about a field: the constructor sets the offset and the index. -/
def Field.args (f : Field) : Field := { f with offset := 0, index := 0 }

namespace Call

/-- The constructor that is called. -/
def kind : Call → Kind
  | array .. => .array
  | chan .. => .chan
  | func .. => .func
  | map .. => .map
  | pointer .. => .ptr
  | slice .. => .slice
  | struct .. => .struct

/-- The arguments of a call. -/
def args : Call → Call
  | struct fields => struct (fields.map Field.args)
  | c => c

/-- A direction without other bits, and no variadic function without parameters and results. -/
def Keyed : Call → Prop
  | chan dir _ => dir &&& bothDir = dir
  | func ins outs variadic => ins = [] → outs = [] → variadic = false
  | _ => True

instance (c : Call) : Decidable c.Keyed := by
  cases c <;> unfold Keyed <;> infer_instance

/-- The call, with the target architecture of the time. -/
def exec (arch : Arch) (s : Store) : Call → Option (TypeRef × Store)
  | array elem len => s.newArray arch elem len
  | chan dir elem => s.newChan arch dir elem
  | func ins outs variadic => s.newFunc arch ins outs variadic
  | map key elem => s.newMap arch key elem
  | pointer elem => s.newPointer arch elem
  | slice elem => s.newSlice arch elem
  | struct fields => s.newStruct fields

end Call

/-- The stores that calls lead to, with the calls so far and their results. The other types are
made elsewhere, at the start or between two calls. -/
inductive Reached : Store → List (Call × TypeRef) → Prop
  | start {heap : List Record} (h : ∀ r ∈ heap, r.rtype.ptrTo = none) :
    Reached ⟨heap, [], [], [], [], [], []⟩ []
  | other {s : Store} {calls : List (Call × TypeRef)} {r : Record} (h : Reached s calls)
    (hr : r.rtype.ptrTo = none) : Reached { s with heap := s.heap ++ [r] } calls
  | call {s s' : Store} {calls : List (Call × TypeRef)} {arch : Arch} {c : Call} {t : TypeRef}
    (h : Reached s calls) (hc : c.exec arch s = some (t, s')) : Reached s' (calls ++ [(c, t)])

/-- The accessors of a type, the specific ones and those of `*Complete`, return the arguments. -/
def Readable (r : Record) : Call → Prop
  | .array elem len =>
    r.elem = some elem ∧ r.len = len ∧ r.completeElem = some elem ∧ r.completeLen = some len
  | .chan dir elem =>
    r.elem = some elem ∧ r.dir = dir ∧ r.completeElem = some elem ∧ r.completeChanDir = some dir
  | .func ins outs variadic =>
    (r.isVariadic = variadic ∧ r.numIn = ins.length ∧ r.numOut = outs.length ∧
      (∀ i, r.funcIn i = ins[i]?) ∧ ∀ i, r.funcOut i = outs[i]?) ∧
    r.completeIsVariadic = some variadic ∧ r.completeNumIn = some ins.length ∧
      r.completeNumOut = some outs.length ∧ (∀ i, r.completeIn i = ins[i]?) ∧
      ∀ i, r.completeOut i = outs[i]?
  | .map key elem =>
    r.key = some key ∧ r.elem = some elem ∧ r.completeKey = some key ∧ r.completeElem = some elem
  | .pointer elem | .slice elem => r.elem = some elem ∧ r.completeElem = some elem
  | .struct fields =>
    (r.numField = fields.length ∧ ∀ i, (r.field i).map Field.args = fields[i]?.map Field.args) ∧
    r.completeNumField = some fields.length ∧
      ∀ i, (r.completeField i).map Field.args = fields[i]?.map Field.args

/-! ## Stores only grow -/

/-- A type apart from the pointer to it. -/
def Record.erase (r : Record) : Record := { r with rtype := { r.rtype with ptrTo := none } }

/-- A type is the same but for the pointer to it, which is made at most once. -/
structure Record.Later (r r' : Record) : Prop where
  erase : r'.erase = r.erase
  ptrTo : ∀ t, r.rtype.ptrTo = some t → r'.rtype.ptrTo = some t

theorem Record.Later.refl (r : Record) : r.Later r := ⟨rfl, fun _ h => h⟩

theorem Record.Later.trans {r r' r'' : Record} (h : r.Later r') (h' : r'.Later r'') :
    r.Later r'' where
  erase := h'.erase.trans h.erase
  ptrTo t ht := h'.ptrTo t (h.ptrTo t ht)

/-- The types stay where they are. -/
def HeapLater (heap heap' : List Record) : Prop :=
  heap.length ≤ heap'.length ∧
    ∀ (t : TypeRef) r, heap[t]? = some r → ∃ r', heap'[t]? = some r' ∧ r.Later r'

theorem HeapLater.refl (heap : List Record) : HeapLater heap heap :=
  ⟨Nat.le_refl _, fun _ r h => ⟨r, h, .refl r⟩⟩

theorem HeapLater.trans {h h' h'' : List Record} (hl : HeapLater h h') (hl' : HeapLater h' h'') :
    HeapLater h h'' := by
  refine ⟨Nat.le_trans hl.1 hl'.1, fun t r hr => ?_⟩
  obtain ⟨r', hr', hrr'⟩ := hl.2 t r hr
  obtain ⟨r'', hr'', hrr''⟩ := hl'.2 t r' hr'
  exact ⟨r'', hr'', hrr'.trans hrr''⟩

theorem heapLater_append (heap : List Record) (r : Record) : HeapLater heap (heap ++ [r]) := by
  refine ⟨by simp, fun t x hx => ⟨x, ?_, .refl x⟩⟩
  rw [List.getElem?_append_left (List.getElem?_eq_some_iff.mp hx).1]
  exact hx

/-! ## Caches -/

/-- A cache holds one type for each of its keys, with a record that its constructor made. -/
structure Cached {κ : Type} (heap : List Record) (table : List (κ × TypeRef))
    (Made : κ → Record → Prop) : Prop where
  interned : Interned table heap.length
  made : ∀ e ∈ table, ∃ r, heap[e.2]? = some r ∧ Made e.1 r.erase

section

variable {κ : Type} {heap heap' : List Record} {table : List (κ × TypeRef)}
  {Made : κ → Record → Prop}

theorem Cached.nil : Cached heap [] Made := ⟨.nil, by simp⟩

theorem Cached.later (h : Cached heap table Made) (hl : HeapLater heap heap') :
    Cached heap' table Made where
  interned := h.interned.mono hl.1
  made e he := by
    obtain ⟨r, hr, hm⟩ := h.made e he
    obtain ⟨r', hr', hrr'⟩ := hl.2 e.2 r hr
    exact ⟨r', hr', hrr'.erase ▸ hm⟩

/-- A new type, for a key that is not in the cache. -/
theorem Cached.insert [BEq κ] [LawfulBEq κ] {key : κ} {r : Record} (h : Cached heap table Made)
    (hnew : table.lookup key = none) (hr : Made key r.erase) :
    Cached (heap ++ [r]) ((key, heap.length) :: table) Made where
  interned := by
    rw [List.length_append]
    exact h.interned.insert hnew
  made e he := by
    rcases List.mem_cons.mp he with rfl | he
    · exact ⟨r, by simp, hr⟩
    · exact (h.later (heapLater_append heap r)).made e he

end

/-! ## What each constructor stores -/

def MadeArray (k : ArrayKey) (r : Record) : Prop :=
  r.rtype.kind = .array ∧ r.rtype.elem = some k.elem ∧ r.rtype.hasExtra = false ∧ r.extra = .zero

def MadeChan (k : ChanKey) (r : Record) : Prop :=
  r.rtype.kind = .chan ∧ r.rtype.elem = some k.elem ∧ r.rtype.flags &&& bothDir = k.dir

def MadeFunc (k : FuncKey) (r : Record) : Prop :=
  ∃ ins outs variadic, (Call.func ins outs variadic).Keyed ∧
    Store.makeFuncKey ins outs variadic = some (k, ins ++ outs) ∧
    r.rtype.kind = .func ∧ r.rtype.hasExtra = true ∧
    r.extra = ⟨BitVec.ofNat 32 ins.length, BitVec.ofNat 32 outs.length, ins ++ outs, []⟩ ∧
    (r.rtype.flags &&& flagVariadic != 0) = variadic

def MadeMap (k : MapKey) (r : Record) : Prop :=
  r.rtype.kind = .map ∧ r.rtype.elem = some k.elem ∧ r.rtype.hasExtra = true ∧
    r.extra.types = [k.key]

def MadeSlice (elem : TypeRef) (r : Record) : Prop :=
  r.rtype.kind = .slice ∧ r.rtype.elem = some elem

def MadeStruct (k : StructKey) (r : Record) : Prop :=
  ∃ fields copies, Store.makeStructKey fields = some (k, copies) ∧
    r.rtype.kind = .struct ∧ r.rtype.hasExtra = true ∧
    r.extra.fields.map Field.args = fields.map Field.args

def MadePointer (elem : TypeRef) (r : Record) : Prop :=
  r.rtype.kind = .ptr ∧ r.rtype.elem = some elem

/-- The records and the caches agree. -/
structure Inv (s : Store) : Prop where
  arrays : Cached s.heap s.arrayMap MadeArray
  chans : Cached s.heap s.chanMap MadeChan
  funcs : Cached s.heap s.funcMap MadeFunc
  maps : Cached s.heap s.mapMap MadeMap
  slices : Cached s.heap s.sliceMap MadeSlice
  structs : Cached s.heap s.structMap MadeStruct
  pointers : ∀ (e : TypeRef) r t, s.heap[e]? = some r → r.rtype.ptrTo = some t →
    ∃ p, s.heap[t]? = some p ∧ MadePointer e p.erase

/-- A type more, without a pointer to it. -/
theorem Inv.append {s : Store} (h : Inv s) {r : Record} (hr : r.rtype.ptrTo = none) :
    Inv { s with heap := s.heap ++ [r] } where
  arrays := h.arrays.later (heapLater_append _ r)
  chans := h.chans.later (heapLater_append _ r)
  funcs := h.funcs.later (heapLater_append _ r)
  maps := h.maps.later (heapLater_append _ r)
  slices := h.slices.later (heapLater_append _ r)
  structs := h.structs.later (heapLater_append _ r)
  pointers e x t hx ht := by
    rw [List.getElem?_append] at hx
    split at hx
    · obtain ⟨p, hp, hmade⟩ := h.pointers e x t hx ht
      obtain ⟨p', hp', hlater⟩ := (heapLater_append s.heap r).2 t p hp
      exact ⟨p', hp', hlater.erase ▸ hmade⟩
    · obtain rfl : r = x := by
        have hmem := List.mem_of_getElem? hx
        exact (List.mem_singleton.mp hmem).symm
      rw [hr] at ht
      cases ht

/-! ## Calls -/

/-- The types stay, and so do the entries of the caches. -/
structure Store.Later (s s' : Store) : Prop where
  heap : HeapLater s.heap s'.heap
  arrays : s.arrayMap ⊆ s'.arrayMap
  chans : s.chanMap ⊆ s'.chanMap
  funcs : s.funcMap ⊆ s'.funcMap
  maps : s.mapMap ⊆ s'.mapMap
  slices : s.sliceMap ⊆ s'.sliceMap
  structs : s.structMap ⊆ s'.structMap

theorem Store.Later.refl (s : Store) : s.Later s :=
  ⟨.refl _, fun _ h => h, fun _ h => h, fun _ h => h, fun _ h => h, fun _ h => h, fun _ h => h⟩

theorem Store.later_append (s : Store) (r : Record) :
    s.Later { s with heap := s.heap ++ [r] } :=
  { Store.Later.refl s with heap := heapLater_append s.heap r }

/-- Where the result of a call is kept. -/
def Call.Entry (s : Store) (t : TypeRef) : Call → Prop
  | .array elem len => (⟨elem, len⟩, t) ∈ s.arrayMap
  | .chan dir elem => (⟨dir &&& bothDir, elem⟩, t) ∈ s.chanMap
  | .func ins outs variadic =>
    ∃ key, Store.makeFuncKey ins outs variadic = some (key, ins ++ outs) ∧ (key, t) ∈ s.funcMap
  | .map key elem => (⟨key, elem⟩, t) ∈ s.mapMap
  | .pointer elem => ∃ r, s.heap[elem]? = some r ∧ r.rtype.ptrTo = some t
  | .slice elem => (elem, t) ∈ s.sliceMap
  | .struct fields =>
    ∃ key copies, Store.makeStructKey fields = some (key, copies) ∧ (key, t) ∈ s.structMap

theorem Call.Entry.later {s s' : Store} {t : TypeRef} {c : Call} (h : c.Entry s t)
    (hl : s.Later s') : c.Entry s' t := by
  cases c with
  | array elem len => exact hl.arrays h
  | chan dir elem => exact hl.chans h
  | func ins outs variadic =>
    obtain ⟨key, hkey, hmem⟩ := h
    exact ⟨key, hkey, hl.funcs hmem⟩
  | map key elem => exact hl.maps h
  | pointer elem =>
    obtain ⟨r, hr, ht⟩ := h
    obtain ⟨r', hr', hrr'⟩ := hl.heap.2 elem r hr
    exact ⟨r', hr', hrr'.ptrTo t ht⟩
  | slice elem => exact hl.slices h
  | struct fields =>
    obtain ⟨key, copies, hkey, hmem⟩ := h
    exact ⟨key, copies, hkey, hl.structs hmem⟩

/-- What a call does to the store. -/
structure Call.Step (s s' : Store) (c : Call) (t : TypeRef) : Prop where
  inv : Inv s'
  later : s.Later s'
  entry : c.Entry s' t

section

variable {arch : Arch} {s s' : Store} {t : TypeRef}

theorem newArray_step {elem : TypeRef} {len : BitVec 64} (h : Inv s)
    (hc : s.newArray arch elem len = some (t, s')) : (Call.array elem len).Step s s' t := by
  unfold Store.newArray at hc
  split at hc
  · cases hc
  · dsimp only at hc
    split at hc
    · next t' hlookup =>
      obtain ⟨rfl, rfl⟩ := Prod.mk.inj (Option.some.inj hc)
      exact ⟨h, .refl s, Interned.mem_of_lookup hlookup⟩
    · next hlookup =>
      obtain ⟨relem, -, hc⟩ := Option.bind_eq_some_iff.mp hc
      obtain ⟨size, -, hc⟩ := Option.bind_eq_some_iff.mp hc
      obtain ⟨rfl, rfl⟩ := Prod.mk.inj (Option.some.inj hc)
      constructor
      · exact { h.append rfl with
          arrays := h.arrays.insert hlookup ⟨rfl, rfl, rfl, rfl⟩ }
      · exact { s.later_append _ with arrays := List.subset_cons_self _ _ }
      · exact List.mem_cons_self

theorem newChan_step {dir : ChanDir} {elem : TypeRef} (h : Inv s)
    (hc : s.newChan arch dir elem = some (t, s')) : (Call.chan dir elem).Step s s' t := by
  unfold Store.newChan at hc
  dsimp only at hc
  split at hc
  · next t' hlookup =>
    obtain ⟨rfl, rfl⟩ := Prod.mk.inj (Option.some.inj hc)
    exact ⟨h, .refl s, Interned.mem_of_lookup hlookup⟩
  · next hlookup =>
    obtain ⟨relem, -, hc⟩ := Option.bind_eq_some_iff.mp hc
    obtain ⟨rfl, rfl⟩ := Prod.mk.inj (Option.some.inj hc)
    have hdir : (dir &&& bothDir ||| relem.flags &&& flagComplete ||| flagNotComparable) &&&
        bothDir = dir &&& bothDir := by
      rw [BitVec.and_or_distrib_right, BitVec.and_or_distrib_right, BitVec.and_assoc,
        BitVec.and_assoc]
      simp [bothDir, recvDir, sendDir, flagComplete, flagNotComparable]
    constructor
    · exact { h.append rfl with
        chans := h.chans.insert hlookup ⟨rfl, rfl, hdir⟩ }
    · exact { s.later_append _ with chans := List.subset_cons_self _ _ }
    · exact List.mem_cons_self

theorem newSlice_step {elem : TypeRef} (h : Inv s)
    (hc : s.newSlice arch elem = some (t, s')) : (Call.slice elem).Step s s' t := by
  unfold Store.newSlice at hc
  split at hc
  · next t' hlookup =>
    obtain ⟨rfl, rfl⟩ := Prod.mk.inj (Option.some.inj hc)
    exact ⟨h, .refl s, Interned.mem_of_lookup hlookup⟩
  · next hlookup =>
    obtain ⟨relem, -, hc⟩ := Option.bind_eq_some_iff.mp hc
    obtain ⟨rfl, rfl⟩ := Prod.mk.inj (Option.some.inj hc)
    constructor
    · exact { h.append rfl with
        slices := h.slices.insert hlookup ⟨rfl, rfl⟩ }
    · exact { s.later_append _ with slices := List.subset_cons_self _ _ }
    · exact List.mem_cons_self

theorem newMap_step {key elem : TypeRef} (h : Inv s)
    (hc : s.newMap arch key elem = some (t, s')) : (Call.map key elem).Step s s' t := by
  unfold Store.newMap at hc
  obtain ⟨rkey, -, hc⟩ := Option.bind_eq_some_iff.mp hc
  split at hc
  · cases hc
  · dsimp only at hc
    split at hc
    · next t' hlookup =>
      obtain ⟨rfl, rfl⟩ := Prod.mk.inj (Option.some.inj hc)
      exact ⟨h, .refl s, Interned.mem_of_lookup hlookup⟩
    · next hlookup =>
      obtain ⟨relem, -, hc⟩ := Option.bind_eq_some_iff.mp hc
      obtain ⟨rfl, rfl⟩ := Prod.mk.inj (Option.some.inj hc)
      constructor
      · exact { h.append rfl with
          maps := h.maps.insert hlookup ⟨rfl, rfl, rfl, rfl⟩ }
      · exact { s.later_append _ with maps := List.subset_cons_self _ _ }
      · exact List.mem_cons_self

theorem makeFuncKey_types {ins outs types : List TypeRef} {variadic : Bool} {key : FuncKey}
    (h : Store.makeFuncKey ins outs variadic = some (key, types)) : types = ins ++ outs := by
  unfold Store.makeFuncKey at h
  dsimp only at h
  split at h
  · cases h
  · split at h
    · next hzero =>
      obtain ⟨-, rfl⟩ := Prod.mk.inj (Option.some.inj h)
      have hnil : (ins ++ outs).length = 0 := by rw [List.length_append, hzero]
      exact (List.length_eq_zero_iff.mp hnil).symm
    · exact (Prod.mk.inj (Option.some.inj h)).2.symm

theorem newFunc_step {ins outs : List TypeRef} {variadic : Bool} (h : Inv s)
    (hkeyed : (Call.func ins outs variadic).Keyed)
    (hc : s.newFunc arch ins outs variadic = some (t, s')) :
    (Call.func ins outs variadic).Step s s' t := by
  unfold Store.newFunc at hc
  obtain ⟨⟨key, types⟩, hkey, hc⟩ := Option.bind_eq_some_iff.mp hc
  obtain rfl := makeFuncKey_types hkey
  dsimp only at hc
  split at hc
  · next t' hlookup =>
    obtain ⟨rfl, rfl⟩ := Prod.mk.inj (Option.some.inj hc)
    exact ⟨h, .refl s, key, hkey, Interned.mem_of_lookup hlookup⟩
  · next hlookup =>
    obtain ⟨flagsIn, -, hc⟩ := Option.bind_eq_some_iff.mp hc
    obtain ⟨flagsOut, -, hc⟩ := Option.bind_eq_some_iff.mp hc
    obtain ⟨rfl, rfl⟩ := Prod.mk.inj (Option.some.inj hc)
    have hflag : (((if variadic then flagsIn &&& flagsOut &&& flagComplete ||| flagVariadic
        else flagsIn &&& flagsOut &&& flagComplete) ||| flagNotComparable) &&& flagVariadic != 0) =
          variadic := by
      cases variadic
      · simp only [Bool.false_eq_true, if_false]
        rw [BitVec.and_or_distrib_right, BitVec.and_assoc]
        simp [flagComplete, flagVariadic, flagNotComparable]
      · simp only [if_true]
        rw [BitVec.and_or_distrib_right, BitVec.and_or_distrib_right, BitVec.and_assoc]
        simp [flagComplete, flagVariadic, flagNotComparable]
    constructor
    · exact { h.append rfl with
        funcs := h.funcs.insert hlookup ⟨ins, outs, variadic, hkeyed, hkey, rfl, rfl, rfl, hflag⟩ }
    · exact { s.later_append _ with funcs := List.subset_cons_self _ _ }
    · exact ⟨key, hkey, List.mem_cons_self⟩

/-- The pointer to a type is stored in it. -/
theorem heapLater_setPtrTo {heap : List Record} {elem : TypeRef} {r : Record}
    (hr : heap[elem]? = some r) (hnone : r.rtype.ptrTo = none) (t : TypeRef) :
    HeapLater heap (heap.modify elem (Record.setPtrTo · t)) := by
  refine ⟨by simp, fun e x hx => ?_⟩
  rw [List.getElem?_modify, hx]
  by_cases he : elem = e
  · subst he
    obtain rfl := Option.some.inj (hr.symm.trans hx)
    refine ⟨r.setPtrTo t, by simp, rfl, fun t' ht' => ?_⟩
    rw [hnone] at ht'
    cases ht'
  · exact ⟨x, by simp [he], .refl x⟩

/-- The new pointer is the one that the type points to. -/
theorem pointers_setPtrTo {elem : TypeRef} {r p : Record} (h : Inv s) (hr : s.heap[elem]? = some r)
    (hp : p.rtype.ptrTo = none) (hmade : MadePointer elem p)
    (hlater : HeapLater s.heap (s.heap.modify elem (Record.setPtrTo · s.heap.length) ++ [p]))
    (e : TypeRef) (x : Record) (t : TypeRef)
    (hx : (s.heap.modify elem (Record.setPtrTo · s.heap.length) ++ [p])[e]? = some x)
    (ht : x.rtype.ptrTo = some t) :
    ∃ q, (s.heap.modify elem (Record.setPtrTo · s.heap.length) ++ [p])[t]? = some q ∧
      MadePointer e q.erase := by
  rw [List.getElem?_append, List.length_modify] at hx
  split at hx
  · rw [List.getElem?_modify] at hx
    by_cases he : elem = e
    · subst he
      rw [hr] at hx
      obtain rfl : r.setPtrTo s.heap.length = x := by simpa using hx
      obtain rfl := Option.some.inj ht
      exact ⟨p, by simp, hmade⟩
    · have hold : s.heap[e]? = some x := by simpa [he] using hx
      obtain ⟨q, hq, hqmade⟩ := h.pointers e x t hold ht
      obtain ⟨q', hq', hqq'⟩ := hlater.2 t q hq
      exact ⟨q', hq', hqq'.erase ▸ hqmade⟩
  · obtain rfl : x = p := List.mem_singleton.mp (List.mem_of_getElem? hx)
    rw [hp] at ht
    cases ht

theorem newPointer_step {elem : TypeRef} (h : Inv s)
    (hc : s.newPointer arch elem = some (t, s')) : (Call.pointer elem).Step s s' t := by
  unfold Store.newPointer at hc
  obtain ⟨relem, hrelem, hc⟩ := Option.bind_eq_some_iff.mp hc
  obtain ⟨r, hr, rfl⟩ := Option.map_eq_some_iff.mp hrelem
  split at hc
  · next t' hptr =>
    obtain ⟨rfl, rfl⟩ := Prod.mk.inj (Option.some.inj hc)
    exact ⟨h, .refl s, r, hr, hptr⟩
  · next hnone =>
    obtain ⟨rfl, rfl⟩ := Prod.mk.inj (Option.some.inj hc)
    have hset := heapLater_setPtrTo hr hnone s.heap.length
    have hlater := hset.trans (heapLater_append _ ⟨{
      size := arch.bytes
      align := arch.bytes.setWidth 16
      flags := (r.rtype.flags &&& flagComplete) ||| flagComparable
      kind := .ptr
      elem := some elem
      hasExtra := false
      ptrTo := none }, .zero⟩)
    have hlength : (s.heap.modify elem (Record.setPtrTo · s.heap.length)).length =
        s.heap.length := by simp
    constructor
    · constructor
      · exact h.arrays.later hlater
      · exact h.chans.later hlater
      · exact h.funcs.later hlater
      · exact h.maps.later hlater
      · exact h.slices.later hlater
      · exact h.structs.later hlater
      · exact pointers_setPtrTo h hr rfl ⟨rfl, rfl⟩ hlater
    · exact { Store.Later.refl s with heap := hlater }
    · refine ⟨r.setPtrTo s.heap.length, ?_, rfl⟩
      rw [List.getElem?_append_left, List.getElem?_modify, hr]
      · simp
      · rw [hlength]
        exact (List.getElem?_eq_some_iff.mp hr).1

theorem map_args_fillStructKey (fields : List Field) :
    (Store.fillStructKey fields).map Field.args = fields.map Field.args := by
  apply List.ext_getElem?
  intro i
  simp only [Store.fillStructKey, List.getElem?_map, List.getElem?_mapIdx, Option.map_map]
  rfl

theorem map_args_fieldOffsets (offset : BitVec 64) {fields : List Field} {cs : List Complete}
    (h : cs.length = fields.length) :
    (Store.fieldOffsets offset (fields.zip cs)).map Field.args = fields.map Field.args := by
  induction fields generalizing offset cs with
  | nil => rfl
  | cons field fields ih =>
    cases cs with
    | nil => cases h
    | cons c cs =>
      rw [List.zip_cons_cons, Store.fieldOffsets, List.map_cons, List.map_cons,
        ih _ (Nat.succ.inj h)]
      rfl

theorem map_args_updateFieldOffsets (size : BitVec 64) (align : BitVec 16) {fields : List Field}
    {cs : List Complete} (h : cs.length = fields.length) :
    (Store.updateFieldOffsets size align fields cs).map Field.args = fields.map Field.args := by
  rw [Store.updateFieldOffsets]
  split
  · rfl
  · exact map_args_fieldOffsets 0 h

theorem makeStructKey_eq {fields copies : List Field} {key : StructKey}
    (h : Store.makeStructKey fields = some (key, copies)) :
    copies = Store.fillStructKey fields ∧
      key = copies ++ List.replicate (Store.structPlaces fields.length - fields.length)
        Field.zero := by
  unfold Store.makeStructKey at h
  dsimp only at h
  split at h
  · cases h
  · obtain ⟨rfl, rfl⟩ := Prod.mk.inj (Option.some.inj h)
    exact ⟨rfl, rfl⟩

theorem newStruct_step {fields : List Field} (h : Inv s)
    (hc : s.newStruct fields = some (t, s')) : (Call.struct fields).Step s s' t := by
  unfold Store.newStruct at hc
  obtain ⟨⟨key, copies⟩, hkey, hc⟩ := Option.bind_eq_some_iff.mp hc
  dsimp only at hc
  split at hc
  · next t' hlookup =>
    obtain ⟨rfl, rfl⟩ := Prod.mk.inj (Option.some.inj hc)
    exact ⟨h, .refl s, key, copies, hkey, Interned.mem_of_lookup hlookup⟩
  · next hlookup =>
    obtain ⟨cs, hcs, hc⟩ := Option.bind_eq_some_iff.mp hc
    obtain ⟨rfl, rfl⟩ := Prod.mk.inj (Option.some.inj hc)
    have hlength : cs.length = copies.length := (List.mapM_eq_some.mp hcs).length_eq.symm
    have hargs : (Store.updateFieldOffsets (Store.computeStructSize cs 0)
        (Store.computeStructAlign cs 0) copies cs).map Field.args = fields.map Field.args := by
      rw [map_args_updateFieldOffsets _ _ hlength, (makeStructKey_eq hkey).1,
        map_args_fillStructKey]
    constructor
    · exact { h.append rfl with
        structs := h.structs.insert hlookup ⟨fields, copies, hkey, rfl, rfl, hargs⟩ }
    · exact { s.later_append _ with structs := List.subset_cons_self _ _ }
    · exact ⟨key, copies, hkey, List.mem_cons_self⟩

/-- A call keeps the invariant and the types made so far, and its result is in its cache. -/
theorem exec_step {c : Call} (h : Inv s) (hkeyed : c.Keyed)
    (hc : c.exec arch s = some (t, s')) : c.Step s s' t := by
  cases c with
  | array elem len => exact newArray_step h hc
  | chan dir elem => exact newChan_step h hc
  | func ins outs variadic => exact newFunc_step h hkeyed hc
  | map key elem => exact newMap_step h hc
  | pointer elem => exact newPointer_step h hc
  | slice elem => exact newSlice_step h hc
  | struct fields => exact newStruct_step h hc

end

/-! ## Runs -/

/-- In every run the invariant holds, and the results of all calls are in the caches. -/
theorem reached_inv {s : Store} {calls : List (Call × TypeRef)} (h : Reached s calls)
    (hkeyed : ∀ p ∈ calls, p.1.Keyed) : Inv s ∧ ∀ p ∈ calls, p.1.Entry s p.2 := by
  induction h with
  | @start heap hheap =>
    refine ⟨⟨.nil, .nil, .nil, .nil, .nil, .nil, fun e r t hr ht => ?_⟩, by simp⟩
    rw [hheap r (List.mem_of_getElem? hr)] at ht
    cases ht
  | @other s calls r _ hr ih =>
    obtain ⟨hinv, hentries⟩ := ih hkeyed
    exact ⟨hinv.append hr, fun p hp => (hentries p hp).later (s.later_append r)⟩
  | @call s s' calls arch c t _ hc ih =>
    rw [List.forall_mem_append] at hkeyed
    obtain ⟨hinv, hentries⟩ := ih hkeyed.1
    have hstep := exec_step hinv (hkeyed.2 (c, t) (List.mem_singleton_self _)) hc
    refine ⟨hstep.inv, List.forall_mem_append.mpr ⟨fun p hp => (hentries p hp).later hstep.later, ?_⟩⟩
    simpa using hstep.entry

/-! ## Keys -/

/-- The copies of the fields are what comes before the padding. -/
theorem makeStructKey_copies {fields copies : List Field} {key : StructKey}
    (h : Store.makeStructKey fields = some (key, copies)) :
    copies = key.takeWhile fun f => f.offset == unknownSize := by
  obtain ⟨rfl, rfl⟩ := makeStructKey_eq h
  have hall : ∀ f ∈ Store.fillStructKey fields, (f.offset == unknownSize) = true := by
    intro f hf
    obtain ⟨i, hi, rfl⟩ := List.mem_mapIdx.mp hf
    exact beq_self_eq_true _
  have hzero : (Field.zero.offset == unknownSize) = false := by decide
  rw [List.takeWhile_append_of_pos hall, List.takeWhile_replicate, hzero]
  simp

theorem fillStructKey_args (fields : List Field) :
    Store.fillStructKey (fields.map Field.args) = Store.fillStructKey fields := by
  apply List.ext_getElem?
  intro i
  simp only [Store.fillStructKey, List.getElem?_map, List.getElem?_mapIdx, Option.map_map]
  rfl

theorem makeStructKey_eq_iff {fields fields' copies copies' : List Field} {key key' : StructKey}
    (h : Store.makeStructKey fields = some (key, copies))
    (h' : Store.makeStructKey fields' = some (key', copies')) :
    key = key' ↔ fields.map Field.args = fields'.map Field.args := by
  constructor
  · rintro rfl
    have heq := (makeStructKey_copies h).trans (makeStructKey_copies h').symm
    rw [(makeStructKey_eq h).1, (makeStructKey_eq h').1] at heq
    rw [← map_args_fillStructKey, heq, map_args_fillStructKey]
  · intro heq
    have hfill : Store.fillStructKey fields = Store.fillStructKey fields' := by
      rw [← fillStructKey_args, heq, fillStructKey_args]
    have hlength : fields.length = fields'.length := by simpa using congrArg List.length heq
    rw [(makeStructKey_eq h).2, (makeStructKey_eq h').2, (makeStructKey_eq h).1,
      (makeStructKey_eq h').1, hfill, hlength]

/-- The second number of a key, with its highest bit for a variadic function. -/
theorem variadicBit_injective {l l' : Nat} {v v' : Bool} (hl : l < 32768) (hl' : l' < 32768)
    (h : BitVec.ofNat 16 (if v then l ||| 65536 / 2 else l) =
      BitVec.ofNat 16 (if v' then l' ||| 65536 / 2 else l')) : l = l' ∧ v = v' := by
  have hor : ∀ n < 32768, n ||| 65536 / 2 = n + 32768 := by
    intro n hn
    have hadd : 32768 + n = 32768 ||| n := Nat.two_pow_add_eq_or_of_lt (i := 15) hn 1
    rw [show 65536 / 2 = 32768 from rfl, Nat.or_comm, ← hadd, Nat.add_comm]
  have hnat := congrArg BitVec.toNat h
  simp only [BitVec.toNat_ofNat, hor l hl, hor l' hl'] at hnat
  cases v <;> cases v' <;> simp only [Bool.false_eq_true, if_false, if_true] at hnat <;>
    simp only [Bool.true_eq_false, Bool.false_eq_true, and_true, and_false] <;> omega

theorem makeFuncKey_lt {ins outs types : List TypeRef} {variadic : Bool} {key : FuncKey}
    (h : Store.makeFuncKey ins outs variadic = some (key, types)) :
    ins.length < 65536 ∧ outs.length < 32768 := by
  unfold Store.makeFuncKey at h
  dsimp only at h
  split at h
  · cases h
  · omega

/-- The parameters and results are what comes before the padding. -/
theorem makeFuncKey_eq {ins outs types : List TypeRef} {variadic : Bool} {key : FuncKey}
    (h : Store.makeFuncKey ins outs variadic = some (key, types)) :
    (ins = [] ∧ outs = [] ∧ key = .funcKey0) ∨
      ∃ inout, key = .funcKey (BitVec.ofNat 16 ins.length)
        (BitVec.ofNat 16 (if variadic then outs.length ||| 65536 / 2 else outs.length)) inout ∧
        inout.filterMap id = ins ++ outs := by
  unfold Store.makeFuncKey at h
  dsimp only at h
  split at h
  · cases h
  · split at h
    · next hzero =>
      obtain ⟨rfl, -⟩ := Prod.mk.inj (Option.some.inj h)
      left
      refine ⟨List.length_eq_zero_iff.mp ?_, List.length_eq_zero_iff.mp ?_, rfl⟩ <;> omega
    · obtain ⟨rfl, -⟩ := Prod.mk.inj (Option.some.inj h)
      right
      refine ⟨_, rfl, ?_⟩
      simp [List.filterMap_append]

theorem makeFuncKey_injective {ins outs ins' outs' types types' : List TypeRef}
    {variadic variadic' : Bool} {key : FuncKey} (hk : (Call.func ins outs variadic).Keyed)
    (hk' : (Call.func ins' outs' variadic').Keyed)
    (h : Store.makeFuncKey ins outs variadic = some (key, types))
    (h' : Store.makeFuncKey ins' outs' variadic' = some (key, types')) :
    ins = ins' ∧ outs = outs' ∧ variadic = variadic' := by
  obtain ⟨hins, houts⟩ := makeFuncKey_lt h
  obtain ⟨hins', houts'⟩ := makeFuncKey_lt h'
  rcases makeFuncKey_eq h with ⟨rfl, rfl, rfl⟩ | ⟨inout, rfl, htypes⟩
  · rcases makeFuncKey_eq h' with ⟨rfl, rfl, -⟩ | ⟨inout', hkey, -⟩
    · exact ⟨rfl, rfl, (hk rfl rfl).trans (hk' rfl rfl).symm⟩
    · cases hkey
  · rcases makeFuncKey_eq h' with ⟨-, -, hkey⟩ | ⟨inout', hkey, htypes'⟩
    · cases hkey
    · obtain ⟨hn1, hn2, rfl⟩ := FuncKey.funcKey.inj hkey
      have hlength : ins.length = ins'.length := by
        have hnat := congrArg BitVec.toNat hn1
        simp only [BitVec.toNat_ofNat] at hnat
        omega
      obtain ⟨-, rfl⟩ := variadicBit_injective houts houts' hn2
      obtain ⟨rfl, rfl⟩ := List.append_inj (htypes.symm.trans htypes') hlength
      exact ⟨rfl, rfl, rfl⟩

/-! ## Accessors -/

section

variable {r : Record}

/-- An array does not know its length, and `Len` of its `*Complete` reads a nil pointer. -/
theorem not_readable_array {elem : TypeRef} {len : BitVec 64} (h : MadeArray ⟨elem, len⟩ r.erase) :
    ¬Readable r (.array elem len) := by
  obtain ⟨hkind, -, hextra, -⟩ :
    r.rtype.kind = .array ∧ r.rtype.elem = some elem ∧ r.rtype.hasExtra = false ∧ _ := h
  intro ⟨_, _, _, hlen⟩
  rw [Record.completeLen, if_pos hkind, Record.rextra, hextra] at hlen
  cases hlen

theorem readable_chan {dir : ChanDir} {elem : TypeRef} (hkeyed : (Call.chan dir elem).Keyed)
    (h : MadeChan ⟨dir &&& bothDir, elem⟩ r.erase) : Readable r (.chan dir elem) := by
  obtain ⟨hkind, helem, hdir⟩ :
    r.rtype.kind = .chan ∧ r.rtype.elem = some elem ∧ r.rtype.flags &&& bothDir = _ := h
  have hmask : r.rtype.flags &&& bothDir = dir := hdir.trans hkeyed
  refine ⟨helem, hmask, ?_, ?_⟩
  · rw [Record.completeElem, hkind]
    exact helem
  · rw [Record.completeChanDir, if_pos hkind, hmask]

theorem readable_slice {elem : TypeRef} (h : MadeSlice elem r.erase) :
    Readable r (.slice elem) := by
  obtain ⟨hkind, helem⟩ : r.rtype.kind = .slice ∧ r.rtype.elem = some elem := h
  refine ⟨helem, ?_⟩
  rw [Record.completeElem, hkind]
  exact helem

theorem readable_pointer {elem : TypeRef} (h : MadePointer elem r.erase) :
    Readable r (.pointer elem) := by
  obtain ⟨hkind, helem⟩ : r.rtype.kind = .ptr ∧ r.rtype.elem = some elem := h
  refine ⟨helem, ?_⟩
  rw [Record.completeElem, hkind]
  exact helem

theorem readable_map {key elem : TypeRef} (h : MadeMap ⟨key, elem⟩ r.erase) :
    Readable r (.map key elem) := by
  obtain ⟨hkind, helem, hextra, htypes⟩ : r.rtype.kind = .map ∧ r.rtype.elem = some elem ∧
    r.rtype.hasExtra = true ∧ r.extra.types = [key] := h
  have hkey : r.extra.types[0]? = some key := by rw [htypes]; rfl
  refine ⟨hkey, helem, ?_, ?_⟩
  · rw [Record.completeKey, if_pos hkind, Record.rextra, if_pos hextra]
    exact hkey
  · rw [Record.completeElem, hkind]
    exact helem

theorem readable_struct {fields copies : List Field} {key : StructKey}
    (hkey : Store.makeStructKey fields = some (key, copies)) (h : MadeStruct key r.erase) :
    Readable r (.struct fields) := by
  obtain ⟨fields', copies', hkey', hkind, hextra, hargs⟩ := h
  change r.rtype.kind = .struct at hkind
  change r.rtype.hasExtra = true at hextra
  change r.extra.fields.map Field.args = _ at hargs
  rw [(makeStructKey_eq_iff hkey' hkey).mp rfl] at hargs
  have hlength : r.extra.fields.length = fields.length := by
    simpa using congrArg List.length hargs
  have hfield : ∀ i : Nat, (r.extra.fields[i]?).map Field.args = fields[i]?.map Field.args := by
    intro i
    rw [← List.getElem?_map, hargs, List.getElem?_map]
  refine ⟨⟨hlength, hfield⟩, ?_, fun i => ?_⟩
  · rw [Record.completeNumField, if_pos hkind, Record.rextra, if_pos hextra]
    exact congrArg some hlength
  · rw [Record.completeField, if_pos hkind, Record.rextra, if_pos hextra]
    exact hfield i

theorem readable_func {ins outs types : List TypeRef} {variadic : Bool} {key : FuncKey}
    (hkeyed : (Call.func ins outs variadic).Keyed)
    (hkey : Store.makeFuncKey ins outs variadic = some (key, types)) (h : MadeFunc key r.erase) :
    Readable r (.func ins outs variadic) := by
  obtain ⟨ins', outs', variadic', hkeyed', hkey', hkind, hextra, hx, hflag⟩ := h
  obtain ⟨rfl, rfl, rfl⟩ := makeFuncKey_injective hkeyed' hkeyed hkey' hkey
  change r.rtype.kind = .func at hkind
  change r.rtype.hasExtra = true at hextra
  change r.extra = _ at hx
  change (r.rtype.flags &&& flagVariadic != 0) = _ at hflag
  obtain ⟨hlt, hlt'⟩ := makeFuncKey_lt hkey
  have hn1 : r.extra.n1.toNat = ins'.length := by
    rw [hx]
    exact Nat.mod_eq_of_lt (by omega)
  have hn2 : r.extra.n2.toNat = outs'.length := by
    rw [hx]
    exact Nat.mod_eq_of_lt (by omega)
  have htypes : r.extra.types = ins' ++ outs' := by rw [hx]
  have hins : r.extra.ins = some ins' := by
    rw [Extra.ins, hn1, htypes, List.length_append, if_pos (Nat.le_add_right _ _),
      List.take_left]
  have houts : r.extra.outs = some outs' := by
    rw [Extra.outs, hn1, htypes, List.length_append, if_pos (Nat.le_add_right _ _),
      List.drop_left]
  have hrextra : r.rextra = some r.extra := by rw [Record.rextra, if_pos hextra]
  refine ⟨⟨hflag, hn1, hn2, fun i => ?_, fun i => ?_⟩, ?_, ?_, ?_, fun i => ?_, fun i => ?_⟩
  · rw [Record.funcIn, hins]
    rfl
  · rw [Record.funcOut, houts]
    rfl
  · rw [Record.completeIsVariadic, if_pos hkind, hflag]
  · rw [Record.completeNumIn, if_pos hkind, hrextra]
    exact congrArg some hn1
  · rw [Record.completeNumOut, if_pos hkind, hrextra]
    exact congrArg some hn2
  · rw [Record.completeIn, if_pos hkind, hrextra]
    simp [hins]
  · rw [Record.completeOut, if_pos hkind, hrextra]
    simp [houts, hn2]

end

/-! ## The results of a run -/

section

variable {s : Store} {c c' : Call} {t t' : TypeRef}

/-- Two results of one constructor are the same type if and only if the arguments are the same. -/
theorem entry_eq_iff (h : Inv s) (hc : c.Entry s t) (hc' : c'.Entry s t') (hkeyed : c.Keyed)
    (hkeyed' : c'.Keyed) (hkind : c.kind = c'.kind) : t = t' ↔ c.args = c'.args := by
  cases c with
  | array elem len =>
    cases c' with
    | array elem' len' =>
      rw [h.arrays.interned.address_eq_iff hc hc']
      simp [Call.args]
    | _ => cases hkind
  | chan dir elem =>
    cases c' with
    | chan dir' elem' =>
      have hdir : dir &&& bothDir = dir := hkeyed
      have hdir' : dir' &&& bothDir = dir' := hkeyed'
      rw [h.chans.interned.address_eq_iff hc hc', hdir, hdir']
      simp [Call.args]
    | _ => cases hkind
  | func ins outs variadic =>
    cases c' with
    | func ins' outs' variadic' =>
      obtain ⟨key, hkey, hmem⟩ := hc
      obtain ⟨key', hkey', hmem'⟩ := hc'
      rw [h.funcs.interned.address_eq_iff hmem hmem']
      simp only [Call.args, Call.func.injEq]
      constructor
      · rintro rfl
        exact makeFuncKey_injective hkeyed hkeyed' hkey hkey'
      · rintro ⟨rfl, rfl, rfl⟩
        exact congrArg Prod.fst (Option.some.inj (hkey.symm.trans hkey'))
    | _ => cases hkind
  | map key elem =>
    cases c' with
    | map key' elem' =>
      rw [h.maps.interned.address_eq_iff hc hc']
      simp [Call.args]
    | _ => cases hkind
  | pointer elem =>
    cases c' with
    | pointer elem' =>
      obtain ⟨r, hr, ht⟩ := hc
      obtain ⟨r', hr', ht'⟩ := hc'
      simp only [Call.args, Call.pointer.injEq]
      constructor
      · rintro rfl
        obtain ⟨p, hp, -, helem⟩ := h.pointers elem r t hr ht
        obtain ⟨p', hp', -, helem'⟩ := h.pointers elem' r' t hr' ht'
        obtain rfl := Option.some.inj (hp.symm.trans hp')
        exact Option.some.inj (helem.symm.trans helem')
      · rintro rfl
        obtain rfl := Option.some.inj (hr.symm.trans hr')
        exact Option.some.inj (ht.symm.trans ht')
    | _ => cases hkind
  | slice elem =>
    cases c' with
    | slice elem' =>
      rw [h.slices.interned.address_eq_iff hc hc']
      simp [Call.args]
    | _ => cases hkind
  | struct fields =>
    cases c' with
    | struct fields' =>
      obtain ⟨key, copies, hkey, hmem⟩ := hc
      obtain ⟨key', copies', hkey', hmem'⟩ := hc'
      rw [h.structs.interned.address_eq_iff hmem hmem', makeStructKey_eq_iff hkey hkey']
      simp [Call.args]
    | _ => cases hkind

/-- The accessors of a result return the arguments, unless it is an array. -/
theorem entry_readable_iff (h : Inv s) (hc : c.Entry s t) (hkeyed : c.Keyed) :
    ∃ r, s.heap[t]? = some r ∧ (Readable r c ↔ c.kind ≠ .array) := by
  cases c with
  | array elem len =>
    obtain ⟨r, hr, hmade⟩ := h.arrays.made _ hc
    exact ⟨r, hr, iff_of_false (not_readable_array hmade) (by simp [Call.kind])⟩
  | chan dir elem =>
    obtain ⟨r, hr, hmade⟩ := h.chans.made _ hc
    exact ⟨r, hr, iff_of_true (readable_chan hkeyed hmade) (by simp [Call.kind])⟩
  | func ins outs variadic =>
    obtain ⟨key, hkey, hmem⟩ := hc
    obtain ⟨r, hr, hmade⟩ := h.funcs.made _ hmem
    exact ⟨r, hr, iff_of_true (readable_func hkeyed hkey hmade) (by simp [Call.kind])⟩
  | map key elem =>
    obtain ⟨r, hr, hmade⟩ := h.maps.made _ hc
    exact ⟨r, hr, iff_of_true (readable_map hmade) (by simp [Call.kind])⟩
  | pointer elem =>
    obtain ⟨x, hx, ht⟩ := hc
    obtain ⟨r, hr, hmade⟩ := h.pointers elem x t hx ht
    exact ⟨r, hr, iff_of_true (readable_pointer hmade) (by simp [Call.kind])⟩
  | slice elem =>
    obtain ⟨r, hr, hmade⟩ := h.slices.made _ hc
    exact ⟨r, hr, iff_of_true (readable_slice hmade) (by simp [Call.kind])⟩
  | struct fields =>
    obtain ⟨key, copies, hkey, hmem⟩ := hc
    obtain ⟨r, hr, hmade⟩ := h.structs.made _ hmem
    exact ⟨r, hr, iff_of_true (readable_struct hkey hmade) (by simp [Call.kind])⟩

end

/-- In every run of calls whose arguments are in their keys, types are canonical, and all but the
arrays are readable. -/
theorem types_canonical {s : Store} {calls : List (Call × TypeRef)} (h : Reached s calls)
    (hkeyed : ∀ p ∈ calls, p.1.Keyed) :
    (∀ p ∈ calls, ∀ q ∈ calls, p.1.kind = q.1.kind → (p.2 = q.2 ↔ p.1.args = q.1.args)) ∧
      ∀ p ∈ calls, ∃ r, s.heap[p.2]? = some r ∧ (Readable r p.1 ↔ p.1.kind ≠ .array) := by
  obtain ⟨hinv, hentries⟩ := reached_inv h hkeyed
  constructor
  · intro p hp q hq hkind
    exact entry_eq_iff hinv (hentries p hp) (hentries q hq) (hkeyed p hp) (hkeyed q hq) hkind
  · intro p hp
    exact entry_readable_iff hinv (hentries p hp) (hkeyed p hp)

/-- `int`. -/
def intRecord : Record :=
  ⟨⟨8, 8, flagComparable ||| flagComplete, .other 2, none, false, none⟩, .zero⟩

theorem reached_int : Reached ⟨[intRecord], [], [], [], [], [], []⟩ [] :=
  .start (by simp [intRecord])

/-- Two pointers to `int` with a map between them. -/
theorem types_canonical_pointer :
    ∃ s, Reached s [(.pointer 0, 1), (.map 0 1, 2), (.pointer 0, 1)] ∧
      ∃ r, s.heap[1]? = some r ∧ (Readable r (.pointer 0) ↔ (Call.pointer 0).kind ≠ .array) := by
  have h1 := @Reached.call _ _ _ .amd64 (.pointer 0) _ reached_int rfl
  have h2 := @Reached.call _ _ _ .amd64 (.map 0 1) _ h1 rfl
  have h3 := @Reached.call _ _ _ .amd64 (.pointer 0) _ h2 rfl
  exact ⟨_, h3, (types_canonical h3 (by decide)).2 (.pointer 0, 1) (by decide)⟩

/-- The length of `[3]int` is not stored. -/
theorem not_types_readable :
    ¬∀ s calls, Reached s calls →
      (∀ p ∈ calls, ∀ q ∈ calls, p.1.kind = q.1.kind → (p.2 = q.2 ↔ p.1.args = q.1.args)) ∧
        ∀ p ∈ calls, ∃ r, s.heap[p.2]? = some r ∧ Readable r p.1 := by
  intro h
  have hr := @Reached.call _ _ _ .amd64 (.array 0 3) _ reached_int rfl
  obtain ⟨r, hget, -, hlen, -, -⟩ := (h _ _ hr).2 (.array 0 3, 1) (by decide)
  obtain rfl := Option.some.inj hget
  revert hlen
  decide

end OneJit.Go.Types
