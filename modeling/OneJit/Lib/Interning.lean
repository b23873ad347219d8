import Mathlib.Data.List.Nodup

/-!
# Tables of interned objects

A table maps keys to the addresses of objects in a store. An object is appended to the store when
its key is not in the table yet, so that two entries have one address if and only if they have one
key.
-/

/-- No key and no address is in the table twice, and all addresses are below the size of the
store. -/
structure Interned {κ : Type*} (table : List (κ × Nat)) (size : Nat) : Prop where
  keys : (table.map Prod.fst).Nodup
  addresses : (table.map Prod.snd).Nodup
  lt : ∀ e ∈ table, e.2 < size

namespace Interned

variable {κ : Type*} {table : List (κ × Nat)} {size : Nat}

theorem nil : Interned ([] : List (κ × Nat)) size where
  keys := .nil
  addresses := .nil
  lt := by simp

/-- The store may grow. -/
theorem mono {size' : Nat} (h : Interned table size) (hle : size ≤ size') :
    Interned table size' where
  keys := h.keys
  addresses := h.addresses
  lt e he := Nat.lt_of_lt_of_le (h.lt e he) hle

/-- A new key gets the address behind the store. -/
theorem insert [BEq κ] [LawfulBEq κ] {key : κ} (h : Interned table size)
    (hnew : table.lookup key = none) : Interned ((key, size) :: table) (size + 1) where
  keys := by
    rw [List.map_cons, List.nodup_cons]
    refine ⟨?_, h.keys⟩
    intro hmem
    obtain ⟨e, he, hkey⟩ := List.mem_map.mp hmem
    have hne := List.lookup_eq_none_iff.mp hnew e he
    simp [hkey] at hne
  addresses := by
    rw [List.map_cons, List.nodup_cons]
    refine ⟨?_, h.addresses⟩
    intro hmem
    obtain ⟨e, he, haddress⟩ := List.mem_map.mp hmem
    have hlt := h.lt e he
    omega
  lt e he := by
    rcases List.mem_cons.mp he with rfl | he
    · exact Nat.lt_succ_self size
    · exact Nat.lt_succ_of_lt (h.lt e he)

/-- Two entries have one address if and only if they have one key. -/
theorem address_eq_iff {k k' : κ} {a a' : Nat} (h : Interned table size) (he : (k, a) ∈ table)
    (he' : (k', a') ∈ table) : a = a' ↔ k = k' := by
  constructor
  · rintro rfl
    have heq := List.inj_on_of_nodup_map h.addresses he he' rfl
    exact congrArg Prod.fst heq
  · rintro rfl
    have heq := List.inj_on_of_nodup_map h.keys he he' rfl
    exact congrArg Prod.snd heq

theorem mem_of_lookup [BEq κ] [LawfulBEq κ] {key : κ} {a : Nat} (h : table.lookup key = some a) :
    (key, a) ∈ table := by
  obtain ⟨before, after, rfl, -⟩ := List.lookup_eq_some_iff.mp h
  simp

end Interned
