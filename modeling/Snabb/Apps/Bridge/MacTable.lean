import Mathlib.Data.List.Basic
import Mathlib.Logic.Function.Basic

/-!
# The MAC table (`apps/bridge/mac_table.lua`, `apps/bridge/mac_table.c`)

The table has the port and the split-horizon group that a MAC address was seen at last. It is a
main table, where addresses are looked up, and a shadow table, each of buckets with six slots. A
slot with the address 0 is free.

- `insert_all`, `of_lookup`: what holds of all entries that are inserted holds of those looked up.

The hash function with the mask is a field. What the timeouts do to the tables is left out.
-/

namespace Snabb

open List

namespace Bridge

/-- `mac_entry_t`. -/
structure MacEntry where
  mac : Nat
  port : Nat
  group : Nat
deriving DecidableEq, Repr

/-- `BUCKET_SIZE`. -/
def bucketSize : Nat := 6

/-- `hash_table_t`. -/
structure HashTable where
  ubuckets : Nat
  entries : Nat
  overflow : Bool
  buckets : Nat → List MacEntry

/-- A table as it is allocated. -/
def HashTable.new : HashTable := ⟨0, 0, false, fun _ => List.replicate bucketSize ⟨0, 0, 0⟩⟩

/-- The body of the loop of `mac_table_insert`. -/
def HashTable.insert (table : HashTable) (mac port group index : Nat) : HashTable :=
  let bucket := table.buckets index
  match bucket.findIdx? fun me => me.mac = 0 ∨ me.mac = mac with
  | some j =>
    let found := (bucket[j]?).any fun me => me.mac = 0
    { table with
      ubuckets := if found ∧ j = 0 then table.ubuckets + 1 else table.ubuckets
      entries := if found then table.entries + 1 else table.entries
      buckets := Function.update table.buckets index (bucket.set j ⟨mac, port, group⟩) }
  | none => { table with overflow := true }

/-- The loop of `mac_table_lookup_pft` over the slots. -/
def HashTable.lookup (table : HashTable) (mac index : Nat) : Option MacEntry :=
  ((table.buckets index).takeWhile fun me => me.mac ≠ 0).find? fun me => me.mac = mac

/-- The two tables, with the index of the bucket for an address. -/
structure MacTable where
  main : HashTable
  shadow : HashTable
  index : Nat → Nat

/-- `mac_table:insert`. -/
def MacTable.insert (t : MacTable) (mac port group : Nat) : MacTable :=
  { t with
    main := t.main.insert mac port group (t.index mac)
    shadow := t.shadow.insert mac port group (t.index mac) }

/-- The look up of `mac_table:lookup_pft`. -/
def MacTable.lookup (t : MacTable) (mac : Nat) : Option MacEntry := t.main.lookup mac (t.index mac)

/-! ## Entries -/

/-- All slots that are in use have the property. -/
def HashTable.All (P : MacEntry → Prop) (table : HashTable) : Prop :=
  ∀ i, ∀ me ∈ table.buckets i, me.mac ≠ 0 → P me

variable {P : MacEntry → Prop} {table : HashTable} {mac port group index : Nat} {me : MacEntry}

theorem HashTable.all_new : HashTable.new.All P := by
  intro i me hme hmac
  rw [eq_of_mem_replicate hme] at hmac
  exact absurd rfl hmac

/-- **An address is inserted.** -/
theorem HashTable.insert_all (h : table.All P) (hme : mac ≠ 0 → P ⟨mac, port, group⟩) :
    (table.insert mac port group index).All P := by
  unfold HashTable.insert
  dsimp only
  cases hslot : (table.buckets index).findIdx? fun me => me.mac = 0 ∨ me.mac = mac with
  | none => exact h
  | some j =>
    intro i me hmem hmac
    by_cases hi : i = index
    · subst hi
      simp only [Function.update_self] at hmem
      rcases mem_or_eq_of_mem_set hmem with hold | rfl
      · exact h i me hold hmac
      · exact hme hmac
    · simp only [Function.update_of_ne hi] at hmem
      exact h i me hmem hmac

/-- **An address is looked up.** -/
theorem HashTable.of_lookup (h : table.All P) (hme : table.lookup mac index = some me) : P me := by
  have hfound := mem_of_find?_eq_some hme
  have hused := all_eq_true.mp all_takeWhile me hfound
  exact h index me ((takeWhile_sublist _).subset hfound) (of_decide_eq_true hused)

/-- All addresses that are known have the property. -/
structure MacTable.All (P : MacEntry → Prop) (t : MacTable) : Prop where
  main : t.main.All P
  shadow : t.shadow.All P

theorem MacTable.of_lookup {t : MacTable} (h : t.All P) (hme : t.lookup mac = some me) : P me :=
  HashTable.of_lookup h.main hme

end Bridge

end Snabb
