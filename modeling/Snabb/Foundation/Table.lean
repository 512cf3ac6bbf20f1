import Mathlib.Data.List.AList

/-!
# Tables

A table maps keys to values. A loop over a table visits each of its keys once, in an order
that is not specified: `Pairs` is one such order, for tables of any content. What is proved
for every `Pairs` holds whatever the order is.
-/

namespace Foundation

/-- A table with keys in `K` and values in `V`. -/
abbrev Table (K V : Type) := AList fun _ : K => V

/-- The order in which the keys of a table are visited. -/
structure Pairs (K : Type) where
  order : List K → List K
  perm : ∀ keys, (order keys).Perm keys

variable {K V : Type} {k : K} {pairs : Pairs K} {keys : List K}

@[simp] theorem Pairs.mem_order : k ∈ pairs.order keys ↔ k ∈ keys :=
  (pairs.perm keys).mem_iff

variable {t : Table K V}

namespace Table

variable [DecidableEq K]

theorem mem_iff_lookup : k ∈ t ↔ ∃ v, t.lookup k = some v := by
  rw [← AList.lookup_isSome, Option.isSome_iff_exists]

theorem lookup_insert_ite (t : Table K V) (k k' : K) (v : V) :
    (t.insert k v).lookup k' = if k' = k then some v else t.lookup k' := by
  split
  · next heq => rw [heq, AList.lookup_insert]
  · next hne => rw [AList.lookup_insert_ne hne]

theorem lookup_erase_ite (t : Table K V) (k k' : K) :
    (t.erase k).lookup k' = if k' = k then none else t.lookup k' := by
  split
  · next heq => rw [heq, AList.lookup_erase]
  · next hne => rw [AList.lookup_erase_ne hne]

/-- An entry and the entries of the other keys. -/
theorem entries_perm_erase {v : V} (h : t.lookup k = some v) :
    t.entries.Perm (⟨k, v⟩ :: (t.erase k).entries) := by
  have hnot : k ∉ t.erase k := by simp [AList.mem_erase]
  rw [← AList.entries_insert_of_notMem hnot]
  refine List.lookup_ext t.nodupKeys (AList.nodupKeys _) fun x y => ?_
  show y ∈ t.lookup x ↔ y ∈ ((t.erase k).insert k v).lookup x
  rw [lookup_insert_ite, lookup_erase_ite]
  split
  · next heq => rw [heq, h]
  · rfl

/-- The values of the entries. -/
def values (t : Table K V) : List V := t.entries.map fun e => e.2

theorem values_perm_erase {v : V} (h : t.lookup k = some v) :
    (values t).Perm (v :: values (t.erase k)) :=
  (entries_perm_erase h).map fun e : Sigma fun _ : K => V => e.2

/-- A new value takes the place of the old one. -/
theorem values_insert (t : Table K V) (k : K) (v : V) :
    values (t.insert k v) = v :: values (t.erase k) := by
  rfl

theorem values_insert_of_notMem (h : k ∉ t) (v : V) : values (t.insert k v) = v :: values t := by
  rw [values, AList.entries_insert_of_notMem h]
  rfl

end Table

end Foundation
