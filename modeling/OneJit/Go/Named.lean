import OneJit.Go.Types
import OneJit.Lib.Links
import Mathlib.Tactic.SplitIfs

/-!
# Named types

`NewNamed`, `SetUnderlying` and the completion of named types. The underlying type of a named type
is set once, possibly to a named type that has no underlying type yet. The loops over the chain of
underlying types have a fuel; `none` is a loop that it does not suffice for.
-/

namespace OneJit.Go.Types

open Links

/-- `Method`. -/
structure Method where
  type : Option TypeRef
  name : Bytes
  pkgPath : Bytes
  index : Nat
  deriving DecidableEq

/-- What `extra` has besides the fields of `Extra`, in a named type. -/
structure NamedExtra where
  name : Bytes
  pkgPath : Bytes
  underlying : Option TypeRef
  methods : List Method
  deriving DecidableEq

/-- The types made so far, with what only named types and interfaces have. -/
structure Universe where
  store : Store
  named : TypeRef → Option NamedExtra
  interfaces : TypeRef → Option (List Method)
  interfaceMap : List (List Method × TypeRef)

/-- The panics of `SetUnderlying` and of the completion of named types. -/
inductive Panic
  | already | nil | loop | completeLoop | completeNil
  deriving DecidableEq, Repr

namespace Panic

def text : Panic → String
  | already => "SetUnderlying invoked already"
  | nil => "SetUnderlying underlying type is nil"
  | loop => "SetUnderlying loops are not allowed"
  | completeLoop => "CompleteTypes: named underlying loops are not allowed"
  | completeNil => "CompleteTypes: named underlying type is nil"

end Panic

/-- The kind `Invalid`. -/
def invalidKind : Kind := .other 0

/-- `fillFromUnderlying`. -/
def fillFromUnderlying (r u : Record) : Record where
  rtype :=
    { r.rtype with
      size := u.rtype.size
      align := u.rtype.align
      flags := u.rtype.flags
      kind := u.rtype.kind
      elem := u.rtype.elem }
  extra := if u.rtype.hasExtra then u.extra else r.extra

namespace Universe

/-- `Underlying`, which is the type itself for all but named types. -/
def underlying (s : Universe) (t : TypeRef) : Option TypeRef :=
  match s.named t with
  | some n => n.underlying
  | none => some t

/-- `NewNamed`. -/
def newNamed (name pkgPath : Bytes) (s : Universe) : TypeRef × Universe :=
  let rtype : Complete :=
    { size := unknownSize
      align := unknownAlign
      flags := 0
      kind := invalidKind
      elem := none
      hasExtra := true
      ptrTo := none }
  let t := s.store.heap.length
  (t, { s with
    store := { s.store with heap := s.store.heap ++ [⟨rtype, .zero⟩] }
    named := Function.update s.named t (some ⟨name, pkgPath, none, []⟩) })

/-- The loop of `traverseUnderlyingCheckLoop`, which goes on from `next`. -/
def traverseUnderlyingCheckLoop (s : Universe) (t : TypeRef) :
    Nat → TypeRef → Option (Except Panic TypeRef)
  | 0, _ => none
  | fuel + 1, next =>
    if t = next then some (.error .loop)
    else
      let u := next
      match s.underlying u with
      | none => some (.ok u)
      | some next =>
        if next = u then some (.ok u) else traverseUnderlyingCheckLoop s t fuel next

/-- `fillFromUnderlying(&t.rtype, u.common())` and `t.extra.underlying = u`. -/
def link (s : Universe) (t : TypeRef) (n : NamedExtra) (u : TypeRef) : Universe :=
  { s with
    store := { s.store with
      heap := match s.store.heap[u]? with
        | some ru => s.store.heap.modify t (fillFromUnderlying · ru)
        | none => s.store.heap }
    named := Function.update s.named t (some { n with underlying := some u }) }

/-- `SetUnderlying`, for a named type `t`: its outcome and the types afterwards. -/
def setUnderlying (fuel : Nat) (t : TypeRef) (u : Option TypeRef) (s : Universe) :
    Option (Except Panic Unit × Universe) :=
  match s.named t with
  | none => none
  | some n =>
    if n.underlying ≠ none then some (.error .already, s)
    else
      match u with
      | none => some (.error .nil, s)
      | some u =>
        match s.traverseUnderlyingCheckLoop t fuel u with
        | none => none
        | some (.error p) => some (.error p, s)
        | some (.ok u) => some (.ok (), s.link t n u)

/-- The loop of `(*Named).complete`. -/
def completeUnderlying (s : Universe) (t : TypeRef) :
    Nat → Option TypeRef → Option (Except Panic TypeRef)
  | 0, _ => none
  | _ + 1, none => some (.error .completeNil)
  | fuel + 1, some u =>
    if t = u then some (.error .completeLoop)
    else
      match s.named u with
      | some named => completeUnderlying s t fuel named.underlying
      | none => some (.ok u)

/-- Whether `flagComplete` is set. -/
def isComplete (s : Universe) (t : TypeRef) : Bool :=
  match s.store.common t with
  | some r => r.flags &&& flagComplete != 0
  | none => false

/-- `(*Named).complete`, for a named type `t`. -/
def completeNamed (fuel : Nat) (t : TypeRef) (s : Universe) :
    Option (Except Panic Unit × Universe) :=
  match s.named t with
  | none => none
  | some n =>
    if s.isComplete t then some (.ok (), s)
    else
      match s.completeUnderlying t fuel n.underlying with
      | none => none
      | some (.error p) => some (.error p, s)
      | some (.ok u) =>
        if some u = n.underlying then some (.ok (), s) else some (.ok (), s.link t n u)

/-! ## The relation between a named type and its underlying type -/

/-- The underlying type of a named type. -/
def next (s : Universe) (t : TypeRef) : Option TypeRef := (s.named t).bind NamedExtra.underlying

theorem underlying_of_named {s : Universe} {t : TypeRef} (h : (s.named t).isSome = true) :
    s.underlying t = s.next t := by
  obtain ⟨n, hn⟩ := Option.isSome_iff_exists.mp h
  simp [underlying, next, hn]

@[simp] theorem link_named (s : Universe) (t : TypeRef) (n : NamedExtra) (u : TypeRef) :
    (s.link t n u).named = Function.update s.named t (some { n with underlying := some u }) := rfl

theorem link_next (s : Universe) (t : TypeRef) (n : NamedExtra) (u : TypeRef) :
    (s.link t n u).next = Function.update s.next t (some u) := by
  funext a
  by_cases ha : a = t
  · subst ha
    simp [next]
  · simp [next, ha]

/-- The named types have records, and the chains of underlying types end. -/
structure Sound (s : Universe) : Prop where
  named : ∀ t, s.store.heap.length ≤ t → s.named t = none
  ends : Ends s.next

theorem Sound.newNamed {s : Universe} (h : Sound s) (name pkgPath : Bytes) :
    Sound (s.newNamed name pkgPath).2 where
  named := by
    intro t ht
    simp only [Universe.newNamed, List.length_append, List.length_singleton] at ht ⊢
    have hne : t ≠ s.store.heap.length := by omega
    rw [Function.update_of_ne hne]
    exact h.named t (by omega)
  ends := by
    have hnext : (s.newNamed name pkgPath).2.next = s.next := by
      funext t
      by_cases ht : t = s.store.heap.length
      · simp [next, Universe.newNamed, ht, h.named]
      · simp [next, Universe.newNamed, ht]
    rw [hnext]
    exact h.ends

theorem length_link (s : Universe) (t : TypeRef) (n : NamedExtra) (u : TypeRef) :
    (s.link t n u).store.heap.length = s.store.heap.length := by
  simp only [link]
  split <;> simp

/-- A link to the end of another chain. -/
theorem Sound.link {s : Universe} (h : Sound s) {t : TypeRef} {n : NamedExtra} {u : TypeRef}
    (hn : s.named t = some n) (hu : s.next u = none) (hne : u ≠ t) : Sound (s.link t n u) where
  named := by
    intro a ha
    rw [length_link] at ha
    have hlt : a ≠ t := fun heq => by simp [heq ▸ h.named a ha] at hn
    rw [link_named, Function.update_of_ne hlt]
    exact h.named a ha
  ends := by
    rw [link_next]
    exact h.ends.update hu hne

/-! ## The loops end -/

/-- `traverseUnderlyingCheckLoop` ends: it panics if the chain comes to `t`, and otherwise returns
the end of the chain. -/
theorem traverse_ends {s : Universe} (h : Ends s.next) (t u : TypeRef) :
    ∃ n, (Relation.ReflTransGen (Linked s.next) u t ∧
        ∀ fuel, n ≤ fuel → s.traverseUnderlyingCheckLoop t fuel u = some (.error .loop)) ∨
      ¬ Relation.ReflTransGen (Linked s.next) u t ∧
        ∃ e, s.next e = none ∧ e ≠ t ∧
          ∀ fuel, n ≤ fuel → s.traverseUnderlyingCheckLoop t fuel u = some (.ok e) := by
  induction u using h.induction with
  | _ u ih =>
    by_cases ht : t = u
    · refine ⟨1, .inl ⟨by rw [ht], fun fuel hfuel => ?_⟩⟩
      obtain ⟨fuel, rfl⟩ := Nat.exists_eq_add_of_le' hfuel
      rw [traverseUnderlyingCheckLoop, if_pos ht]
    · cases hnext : s.next u with
      | none =>
        -- a named type without an underlying type, or no named type
        refine ⟨1, .inr ⟨by rwa [reaches_of_none hnext], u, hnext, Ne.symm ht, fun fuel hfuel => ?_⟩⟩
        obtain ⟨fuel, rfl⟩ := Nat.exists_eq_add_of_le' hfuel
        rw [traverseUnderlyingCheckLoop, if_neg ht]
        cases hnamed : s.named u with
        | none => simp [underlying, hnamed]
        | some m => simp_all [underlying, next]
      | some v =>
        have hne : v ≠ u := by
          intro heq
          exact h.acyclic u (.single (hnext.trans (by rw [heq])))
        have hunderlying : s.underlying u = some v := by
          cases hnamed : s.named u with
          | none => simp [next, hnamed] at hnext
          | some m => simpa [underlying, next, hnamed] using hnext
        have hstep : ∀ fuel, s.traverseUnderlyingCheckLoop t (fuel + 1) u =
            s.traverseUnderlyingCheckLoop t fuel v := by
          intro fuel
          rw [traverseUnderlyingCheckLoop, if_neg ht]
          simp [hunderlying, hne]
        rw [reaches_of_linked hnext ht]
        obtain ⟨n, hn⟩ := ih v hnext
        refine ⟨n + 1, ?_⟩
        rcases hn with ⟨hreach, hrun⟩ | ⟨hreach, e, he, hte, hrun⟩
        · refine .inl ⟨hreach, fun fuel hfuel => ?_⟩
          obtain ⟨fuel, rfl⟩ := Nat.exists_eq_add_of_le' (show 1 ≤ fuel by omega)
          rw [hstep]
          exact hrun fuel (by omega)
        · refine .inr ⟨hreach, e, he, hte, fun fuel hfuel => ?_⟩
          obtain ⟨fuel, rfl⟩ := Nat.exists_eq_add_of_le' (show 1 ≤ fuel by omega)
          rw [hstep]
          exact hrun fuel (by omega)

/-- The loop of `(*Named).complete` ends, at a type that is not named if at all. -/
theorem completeUnderlying_ends {s : Universe} (h : Ends s.next) (t u : TypeRef) :
    ∃ n r, (∀ fuel, n ≤ fuel → s.completeUnderlying t fuel (some u) = some r) ∧
      ∀ e, r = .ok e → s.named e = none ∧ e ≠ t := by
  induction u using h.induction with
  | _ u ih =>
    by_cases ht : t = u
    · refine ⟨1, .error .completeLoop, fun fuel hfuel => ?_, fun e he => by simp at he⟩
      obtain ⟨fuel, rfl⟩ := Nat.exists_eq_add_of_le' hfuel
      rw [completeUnderlying, if_pos ht]
    · cases hnamed : s.named u with
      | none =>
        refine ⟨1, .ok u, fun fuel hfuel => ?_, ?_⟩
        · obtain ⟨fuel, rfl⟩ := Nat.exists_eq_add_of_le' hfuel
          rw [completeUnderlying, if_neg ht]
          simp [hnamed]
        · intro e he
          simp only [Except.ok.injEq] at he
          exact he ▸ ⟨hnamed, Ne.symm ht⟩
      | some m =>
        have hstep : ∀ fuel, s.completeUnderlying t (fuel + 1) (some u) =
            s.completeUnderlying t fuel m.underlying := by
          intro fuel
          rw [completeUnderlying, if_neg ht]
          simp [hnamed]
        cases hu : m.underlying with
        | none =>
          refine ⟨2, .error .completeNil, fun fuel hfuel => ?_, fun e he => by simp at he⟩
          obtain ⟨fuel, rfl⟩ := Nat.exists_eq_add_of_le' hfuel
          rw [hstep, hu]
          rfl
        | some v =>
          have hnext : s.next u = some v := by simp [next, hnamed, hu]
          obtain ⟨n, r, hrun, hr⟩ := ih v hnext
          refine ⟨n + 1, r, fun fuel hfuel => ?_, hr⟩
          obtain ⟨fuel, rfl⟩ := Nat.exists_eq_add_of_le' (show 1 ≤ fuel by omega)
          rw [hstep, hu]
          exact hrun fuel (by omega)

/-- A result does not depend on the fuel. -/
theorem traverse_mono (s : Universe) (t u : TypeRef) {fuel fuel' : Nat}
    {r : Except Panic TypeRef} (h : s.traverseUnderlyingCheckLoop t fuel u = some r)
    (hle : fuel ≤ fuel') : s.traverseUnderlyingCheckLoop t fuel' u = some r := by
  induction fuel generalizing fuel' u with
  | zero => simp [traverseUnderlyingCheckLoop] at h
  | succ fuel ih =>
    obtain ⟨fuel', rfl⟩ := Nat.exists_eq_add_of_le' (show 1 ≤ fuel' by omega)
    rw [traverseUnderlyingCheckLoop] at h ⊢
    split_ifs at h ⊢ with ht
    · exact h
    · cases hu : s.underlying u with
      | none => simpa [hu] using h
      | some v =>
        simp only [hu] at h ⊢
        split_ifs at h ⊢ with hv
        · exact h
        · exact ih v h (by omega)

theorem completeUnderlying_mono (s : Universe) (t : TypeRef) (u : Option TypeRef)
    {fuel fuel' : Nat} {r : Except Panic TypeRef} (h : s.completeUnderlying t fuel u = some r)
    (hle : fuel ≤ fuel') : s.completeUnderlying t fuel' u = some r := by
  induction fuel generalizing fuel' u with
  | zero => simp [completeUnderlying] at h
  | succ fuel ih =>
    obtain ⟨fuel', rfl⟩ := Nat.exists_eq_add_of_le' (show 1 ≤ fuel' by omega)
    cases u with
    | none => simpa [completeUnderlying] using h
    | some u =>
      rw [completeUnderlying] at h ⊢
      split_ifs at h ⊢ with ht
      · exact h
      · cases hn : s.named u with
        | none => simpa [hn] using h
        | some m =>
          simp only [hn] at h ⊢
          exact ih m.underlying h (by omega)

/-! ## Runs -/

/-- A step: a new named type, `SetUnderlying`, the completion of a named type, or the construction
and completion of types that are not named. A panic is an outcome too. -/
inductive Step : Universe → Universe → Prop
  | newNamed (s : Universe) (name pkgPath : Bytes) : Step s (s.newNamed name pkgPath).2
  | setUnderlying {s s' : Universe} (fuel : Nat) (t : TypeRef) (u : Option TypeRef)
      (r : Except Panic Unit) (h : s.setUnderlying fuel t u = some (r, s')) : Step s s'
  | completeNamed {s s' : Universe} (fuel : Nat) (t : TypeRef) (r : Except Panic Unit)
      (h : s.completeNamed fuel t = some (r, s')) : Step s s'
  | compose {s s' : Universe} (hnamed : s'.named = s.named)
      (hheap : s.store.heap.length ≤ s'.store.heap.length) : Step s s'

/-- The types that calls of `NewNamed` and `SetUnderlying` lead to, from types that are not
named. -/
inductive Reachable : Universe → Prop
  | init (s : Universe) (h : ∀ t, s.named t = none) : Reachable s
  | step {s s' : Universe} (h : Reachable s) (hs : Step s s') : Reachable s'

/-- What a call of `SetUnderlying` does. -/
theorem setUnderlying_cases {s s' : Universe} (h : Sound s) {fuel : Nat} {t : TypeRef}
    {u : Option TypeRef} {r : Except Panic Unit}
    (hs : s.setUnderlying fuel t u = some (r, s')) :
    (∃ p, r = .error p ∧ s' = s) ∨
      ∃ n e, r = .ok () ∧ s.named t = some n ∧ s.next e = none ∧ e ≠ t ∧ s' = s.link t n e := by
  rw [setUnderlying] at hs
  cases hn : s.named t with
  | none => simp [hn] at hs
  | some n =>
    simp only [hn] at hs
    by_cases hu : n.underlying ≠ none
    · rw [if_pos hu] at hs
      exact .inl ⟨.already, by simp_all⟩
    · rw [if_neg hu] at hs
      cases u with
      | none => exact .inl ⟨.nil, by simp_all⟩
      | some u =>
        cases htr : s.traverseUnderlyingCheckLoop t fuel u with
        | none => simp [htr] at hs
        | some res =>
          -- a longer run has the same result
          obtain ⟨m, hm⟩ := traverse_ends h.ends t u
          have hmono := traverse_mono s t u htr (Nat.le_max_left fuel m)
          rcases hm with ⟨_, hrun⟩ | ⟨_, e, he, hte, hrun⟩
          · rw [hrun _ (Nat.le_max_right fuel m), Option.some.injEq] at hmono
            subst hmono
            exact .inl ⟨.loop, by simp_all⟩
          · rw [hrun _ (Nat.le_max_right fuel m), Option.some.injEq] at hmono
            subst hmono
            exact .inr ⟨n, e, by simp_all⟩

/-- What the completion of a named type does. -/
theorem completeNamed_cases {s s' : Universe} (h : Sound s) {fuel : Nat} {t : TypeRef}
    {r : Except Panic Unit} (hs : s.completeNamed fuel t = some (r, s')) :
    s' = s ∨ ∃ n e, r = .ok () ∧ s.named t = some n ∧ s.named e = none ∧ e ≠ t ∧
      s' = s.link t n e := by
  rw [completeNamed] at hs
  cases hn : s.named t with
  | none => simp [hn] at hs
  | some n =>
    simp only [hn] at hs
    split_ifs at hs with hcomplete
    · exact .inl (by simp_all)
    · cases hres : s.completeUnderlying t fuel n.underlying with
      | none => simp [hres] at hs
      | some res =>
        cases res with
        | error p => exact .inl (by simp_all)
        | ok e =>
          simp only [hres] at hs
          split_ifs at hs with hsame
          · exact .inl (by simp_all)
          · cases hu : n.underlying with
            | none =>
              cases fuel <;> simp [hu, completeUnderlying] at hres
            | some u =>
              obtain ⟨m, r', hrun, hr'⟩ := completeUnderlying_ends h.ends t u
              rw [hu] at hres
              have hmono := completeUnderlying_mono s t (some u) hres (Nat.le_max_left fuel m)
              rw [hrun _ (Nat.le_max_right fuel m), Option.some.injEq] at hmono
              obtain ⟨he, hte⟩ := hr' e hmono
              exact .inr ⟨n, e, by simp_all⟩

theorem Sound.step {s s' : Universe} (h : Sound s) (hs : Step s s') : Sound s' := by
  cases hs with
  | newNamed name pkgPath => exact h.newNamed name pkgPath
  | setUnderlying fuel t u r hrun =>
    rcases setUnderlying_cases h hrun with ⟨p, _, rfl⟩ | ⟨n, e, _, hn, he, hte, rfl⟩
    · exact h
    · exact h.link hn he hte
  | completeNamed fuel t r hrun =>
    rcases completeNamed_cases h hrun with rfl | ⟨n, e, _, hn, he, hte, rfl⟩
    · exact h
    · exact h.link hn (by simp [next, he]) hte
  | compose hnamed hheap =>
    refine ⟨fun t ht => ?_, ?_⟩
    · rw [hnamed]
      exact h.named t (Nat.le_trans hheap ht)
    · have hnext : s'.next = s.next := by
        funext t
        simp [next, hnamed]
      rw [hnext]
      exact h.ends

theorem Reachable.sound {s : Universe} (h : Reachable s) : Sound s := by
  induction h with
  | init s hnone =>
    have hnext : s.next = fun _ => none := by
      funext t
      simp [next, hnone]
    exact ⟨fun t _ => hnone t, hnext ▸ ends_none⟩
  | step _ hs ih => exact ih.step hs

/-- `SetUnderlying` panics without effect if the type has an underlying type, the new one is nil, or
its chain comes to the type. -/
def Refused (s : Universe) (t : TypeRef) (u : Option TypeRef) : Prop :=
  u = none ∨ s.next t ≠ none ∨ ∃ u', u = some u' ∧ Relation.ReflTransGen (Linked s.next) u' t

/-- `SetUnderlying` ends, and panics exactly where it is refused. -/
theorem setUnderlying_ends {s : Universe} (h : Sound s) {t : TypeRef} {n : NamedExtra}
    (hn : s.named t = some n) (u : Option TypeRef) :
    ∃ m r s', (∀ fuel, m ≤ fuel → s.setUnderlying fuel t u = some (r, s')) ∧
      ((∃ p, r = .error p) ↔ Refused s t u) ∧ ((∃ p, r = .error p) → s' = s) := by
  have hnext : s.next t = n.underlying := by simp [next, hn]
  by_cases hu : n.underlying ≠ none
  · refine ⟨0, .error .already, s, fun fuel _ => ?_, ?_, fun _ => rfl⟩
    · rw [setUnderlying, hn]
      exact if_pos hu
    · simpa [Refused, hnext] using Or.inr (Or.inl hu)
  · cases u with
    | none =>
      refine ⟨0, .error .nil, s, fun fuel _ => ?_, by simp [Refused], fun _ => rfl⟩
      rw [setUnderlying, hn]
      exact if_neg hu
    | some u =>
      have hset : ∀ fuel, s.setUnderlying fuel t (some u) =
          match s.traverseUnderlyingCheckLoop t fuel u with
          | none => none
          | some (.error p) => some (.error p, s)
          | some (.ok u) => some (.ok (), s.link t n u) := by
        intro fuel
        rw [setUnderlying, hn]
        exact if_neg hu
      have hrefused : Refused s t (some u) ↔ Relation.ReflTransGen (Linked s.next) u t := by
        simp only [Refused, reduceCtorEq, false_or, hnext, hu, Option.some.injEq, exists_eq_left']
      obtain ⟨m, hm⟩ := traverse_ends h.ends t u
      rcases hm with ⟨hreach, hrun⟩ | ⟨hreach, e, _, _, hrun⟩
      · refine ⟨m, .error .loop, s, fun fuel hfuel => ?_, ?_, fun _ => rfl⟩
        · rw [hset, hrun fuel hfuel]
        · simp [hrefused, hreach]
      · refine ⟨m, .ok (), s.link t n e, fun fuel hfuel => ?_, ?_, fun ⟨p, hp⟩ => by simp at hp⟩
        · rw [hset, hrun fuel hfuel]
        · simp [hrefused, hreach]

/-- The completion of a named type ends. -/
theorem completeNamed_ends {s : Universe} (h : Sound s) {t : TypeRef} {n : NamedExtra}
    (hn : s.named t = some n) : ∃ m, ∀ fuel, m ≤ fuel → (s.completeNamed fuel t).isSome = true := by
  have hres : ∃ m r, ∀ fuel, m ≤ fuel →
      s.completeUnderlying t fuel n.underlying = some r := by
    cases hu : n.underlying with
    | none =>
      refine ⟨1, .error .completeNil, fun fuel hfuel => ?_⟩
      obtain ⟨fuel, rfl⟩ := Nat.exists_eq_add_of_le' hfuel
      rfl
    | some u =>
      obtain ⟨m, r, hrun, _⟩ := completeUnderlying_ends h.ends t u
      exact ⟨m, r, hrun⟩
  obtain ⟨m, r, hrun⟩ := hres
  refine ⟨m, fun fuel hfuel => ?_⟩
  rw [completeNamed, hn]
  simp only [hrun fuel hfuel]
  split_ifs
  · rfl
  · cases r <;> simp only
    · rfl
    · split_ifs <;> rfl

/-- In all types that calls of `NewNamed` and `SetUnderlying` lead to, the chains of underlying
types never loop, so that the loops over them end, and `SetUnderlying` panics exactly where it has
to and then changes nothing. -/
theorem underlying_never_loops {s : Universe} (h : Reachable s) :
    (∀ t, ¬ Relation.TransGen (Linked s.next) t t) ∧
    (∀ t u, ∃ m r, ∀ fuel, m ≤ fuel → s.traverseUnderlyingCheckLoop t fuel u = some r) ∧
    (∀ t, (s.named t).isSome = true →
      ∃ m, ∀ fuel, m ≤ fuel → (s.completeNamed fuel t).isSome = true) ∧
    ∀ t u, (s.named t).isSome = true →
      ∃ m r s', (∀ fuel, m ≤ fuel → s.setUnderlying fuel t u = some (r, s')) ∧
        ((∃ p, r = .error p) ↔ Refused s t u) ∧ ((∃ p, r = .error p) → s' = s) := by
  have hsound := h.sound
  refine ⟨hsound.ends.acyclic, fun t u => ?_, fun t ht => ?_, fun t u ht => ?_⟩
  · obtain ⟨m, ⟨_, hrun⟩ | ⟨_, e, _, _, hrun⟩⟩ := traverse_ends hsound.ends t u
    · exact ⟨m, _, hrun⟩
    · exact ⟨m, _, hrun⟩
  · obtain ⟨n, hn⟩ := Option.isSome_iff_exists.mp ht
    exact completeNamed_ends hsound hn
  · obtain ⟨n, hn⟩ := Option.isSome_iff_exists.mp ht
    exact setUnderlying_ends hsound hn u

/-- No types at all. -/
def empty : Universe where
  store := ⟨[], [], [], [], [], [], []⟩
  named := fun _ => none
  interfaces := fun _ => none
  interfaceMap := []

/-- Two named types, of which one is the underlying type of the other one, as `SetUnderlying` of
the second one with the first one is refused. -/
theorem underlying_never_loops_two :
    ∃ s : Universe, Reachable s ∧ s.next 0 = some 1 ∧ Refused s 1 (some 0) ∧
      ∀ t, ¬ Relation.TransGen (Linked s.next) t t := by
  have hzero : Reachable empty := .init _ fun _ => rfl
  have hone := (hzero.step (.newNamed _ [] [])).step (.newNamed _ [] [])
  let s := (((empty.newNamed [] []).2).newNamed [] []).2
  have hset : s.setUnderlying 1 0 (some 1) = some (.ok (), s.link 0 ⟨[], [], none, []⟩ 1) := rfl
  have htwo : Reachable (s.link 0 ⟨[], [], none, []⟩ 1) :=
    hone.step (.setUnderlying 1 0 (some 1) _ hset)
  refine ⟨_, htwo, rfl, .inr (.inr ⟨0, rfl, .single rfl⟩), (underlying_never_loops htwo).1⟩

end Universe

end OneJit.Go.Types
