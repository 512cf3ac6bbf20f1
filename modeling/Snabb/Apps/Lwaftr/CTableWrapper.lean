import Snabb.Core.Packet
import Snabb.Foundation.Run
import Snabb.Foundation.Table

/-!
# Tables that evict (`apps/lwaftr/ctable_wrapper.lua`)

A table that is full loses a random entry to a new one, instead of growing. Which entry it loses
is chosen by the input.

- `addWithRandomEviction_ok`: a new key can always be added, and of the other entries at most the
  evicted one is missing afterwards.
-/

namespace Snabb

open Foundation Table

variable {K V : Type} [DecidableEq K]

/-- `evict_random_entry`: the table loses the entry that the choice falls on. -/
def evictRandomEntry (ctab : Table K V) (choice : Nat) : Table K V :=
  match ctab.keys[choice % ctab.keys.length]? with
  | some key => ctab.erase key
  | none => ctab

/-- `add_with_random_eviction`, with updates not allowed: the table, and whether an entry was
evicted. -/
def addWithRandomEviction (occupancyHi : Nat) (ctab : Table K V) (key : K) (value : V)
    (choice : Nat) : Except Raise (Table K V × Bool) :=
  let didEvict := ctab.keys.length + 1 > occupancyHi
  let ctab := if didEvict then evictRandomEntry ctab choice else ctab
  if key ∈ ctab then .error .assertionFailed else .ok (ctab.insert key value, decide didEvict)

/-- The value that `cleanup_fn` is called with, if an entry is evicted. -/
def evictedEntry (occupancyHi : Nat) (ctab : Table K V) (choice : Nat) : Option V :=
  if ctab.keys.length + 1 > occupancyHi then
    ctab.keys[choice % ctab.keys.length]?.bind ctab.lookup
  else none

variable {occupancyHi : Nat}

/-- **A new key can always be added.** -/
theorem addWithRandomEviction_ok (hpos : 0 < occupancyHi) {ctab : Table K V}
    (hocc : ctab.keys.length ≤ occupancyHi) {key : K} (hnew : ctab.lookup key = none) (value : V)
    (choice : Nat) : ∃ room : Table K V,
      addWithRandomEviction occupancyHi ctab key value choice =
        .ok (room.insert key value, decide (ctab.keys.length + 1 > occupancyHi)) ∧
      key ∉ room ∧ room.keys.length + 1 ≤ occupancyHi ∧
      (∀ k v, room.lookup k = some v → ctab.lookup k = some v) ∧
      (Table.values ctab).Perm
        ((evictedEntry occupancyHi ctab choice).toList ++ Table.values room) := by
  have hadd : ∀ room : Table K V, (if ctab.keys.length + 1 > occupancyHi then
      evictRandomEntry ctab choice else ctab) = room →
      (∀ k v, room.lookup k = some v → ctab.lookup k = some v) → key ∉ room ∧
      addWithRandomEviction occupancyHi ctab key value choice =
        .ok (room.insert key value, decide (ctab.keys.length + 1 > occupancyHi)) := by
    intro room hroom hsub
    have hnot : key ∉ room := by
      rw [mem_iff_lookup]
      rintro ⟨v, hv⟩
      rw [hsub key v hv] at hnew
      cases hnew
    refine ⟨hnot, ?_⟩
    simp only [addWithRandomEviction, hroom]
    rw [if_neg hnot]
  by_cases hfull : ctab.keys.length + 1 > occupancyHi
  · have hlt : choice % ctab.keys.length < ctab.keys.length := Nat.mod_lt _ (by omega)
    obtain ⟨v, hv⟩ := Table.mem_iff_lookup.mp (AList.mem_keys.mpr (List.getElem_mem hlt))
    have hroom : evictRandomEntry ctab choice = ctab.erase ctab.keys[choice % ctab.keys.length] := by
      rw [evictRandomEntry, List.getElem?_eq_getElem hlt]
    have hsub : ∀ k v, (evictRandomEntry ctab choice).lookup k = some v →
        ctab.lookup k = some v := by
      intro k v hk
      rw [hroom, lookup_erase_ite] at hk
      split at hk
      · cases hk
      · exact hk
    obtain ⟨hnot, hok⟩ := hadd _ (if_pos hfull) hsub
    refine ⟨_, hok, hnot, ?_, hsub, ?_⟩
    · rw [hroom, AList.keys_erase, List.length_erase_of_mem (List.getElem_mem hlt)]
      omega
    · rw [evictedEntry, if_pos hfull, List.getElem?_eq_getElem hlt, Option.bind_some, hv, hroom]
      exact values_perm_erase hv
  · obtain ⟨hnot, hok⟩ := hadd _ (if_neg hfull) fun _ _ hk => hk
    refine ⟨_, hok, hnot, by omega, fun _ _ hk => hk, ?_⟩
    rw [evictedEntry, if_neg hfull]
    exact .refl _

theorem addWithRandomEviction_keeps {ctab ctab' : Table K V} {key k : K}
    {value v : V} {choice : Nat} {didEvict : Bool}
    (hadd : addWithRandomEviction occupancyHi ctab key value choice = .ok (ctab', didEvict))
    (hk : ctab.lookup k = some v) (hne : k ≠ key) (hspared : ctab.keys.length + 1 > occupancyHi →
      ctab.keys[choice % ctab.keys.length]? ≠ some k) : ctab'.lookup k = some v := by
  obtain ⟨room, hroom⟩ : ∃ room, (if ctab.keys.length + 1 > occupancyHi then
      evictRandomEntry ctab choice else ctab) = room := ⟨_, rfl⟩
  have hkept : room.lookup k = some v := by
    rw [← hroom]
    split
    · next hfull =>
      rw [evictRandomEntry]
      split
      · next evicted hevicted =>
        have hother : k ≠ evicted := by
          rintro rfl
          exact hspared hfull hevicted
        rwa [lookup_erase_ite, if_neg hother]
      · exact hk
    · exact hk
  simp only [addWithRandomEviction, hroom] at hadd
  by_cases hin : key ∈ room
  · rw [if_pos hin] at hadd
    cases hadd
  · rw [if_neg hin] at hadd
    cases hadd
    rwa [lookup_insert_ite, if_neg hne]

end Snabb
