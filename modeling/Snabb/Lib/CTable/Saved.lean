import Snabb.Lib.CTable.Shrink

/-!
# Saved hash tables (`lib/ctable.lua`)

`save` writes a header and the raw entries. `load` makes a table of the size in the header and reads
the entries into it. Of the parameters that it is given, the sizes, the seed and the rates are
replaced, but not `max_displacement_limit`: entries that are displaced further are refused.

- `load_save`: a saved table is loaded as it was, unless its entries are displaced too far.
-/

namespace Snabb

open Foundation CTable

variable {K V : Type}

/-- A table with its parameters. -/
structure LimitedTable (K V : Type) where
  conf : CTableParams K
  table : CTable K V

/-- What is written: the fields of `header_t`, with the rates and the hash function of the key type
in `conf`, and the entries. -/
structure SavedTable (K V : Type) where
  size : Nat
  occupancy : Nat
  maxDisplacement : Nat
  hashSeed : Nat
  conf : CTableParams K
  entries : List (Option (CTableEntry K V))

/-- `save`. Three fields of the header are of type `uint32_t`. -/
def LimitedTable.save (l : LimitedTable K V) : Except CTableFault (SavedTable K V) := do
  let t := l.table
  return {
    size := t.size % 2 ^ 32
    occupancy := t.occupancy % 2 ^ 32
    maxDisplacement := t.maxDisplacement % 2 ^ 32
    hashSeed := t.seed
    conf := l.conf
    entries := ← (List.range (t.size + t.maxDisplacement)).mapM t.slotAt }

/-- `load`, with the `max_displacement_limit` of the parameters. -/
def SavedTable.load [DecidableEq K] (saved : SavedTable K V) (limit : Option Nat) :
    Except CTableFault (Except CTableRaise (LimitedTable K V)) := do
  let (t, r) ← CTable.resize (V := V) saved.conf ⟨saved.hashSeed, 0, 0, 0, fun _ => none⟩ saved.size
  let entryCount := t.size + saved.maxDisplacement
  match r with
  | .error raised => return .error raised
  | .ok _ =>
    if within limit saved.maxDisplacement then
      if limit.elim t.allocSize (fun n => min t.allocSize (t.size + 2 * n)) < entryCount then
        throw (CTableFault.outOfBounds entryCount)
      else return .ok ⟨{ saved.conf with limit := limit }, { t with
        occupancy := saved.occupancy
        maxDisplacement := saved.maxDisplacement
        entries := fun i => if i < entryCount then (saved.entries[i]?).join else none }⟩
    else return .error .assertion

variable [DecidableEq K]

theorem CTable.Valid.load_saved {conf : CTableParams K} {t : CTable K V} (h : Valid conf t)
    (hsize : t.size < 2 ^ 32) (limit : Option Nat) :
    ∃ saved, LimitedTable.save ⟨conf, t⟩ = .ok saved ∧ saved.load limit =
      .ok (if within limit t.maxDisplacement then .ok ⟨{ conf with limit := limit }, t⟩
        else .error .assertion) := by
  have hocc := h.occupancy_le
  have hdisp := h.displacement_le
  refine ⟨_, bind_of_eq_ok h.slots, ?_⟩
  have hnew : CTable.resize (V := V) conf ⟨t.seed, 0, 0, 0, fun _ => none⟩ t.size =
      .ok (⟨t.seed, t.size, 0, 0, fun _ => none⟩, .ok ()) := if_pos (by simp [conf.quot_zero])
  rw [SavedTable.load]
  simp only [Nat.mod_eq_of_lt hsize, Nat.mod_eq_of_lt (hocc.trans_lt hsize),
    Nat.mod_eq_of_lt (show t.maxDisplacement < 2 ^ 32 by omega)]
  rw [bind_of_eq_ok hnew]
  by_cases hwithin : within limit t.maxDisplacement
  · have hroom : ¬ limit.elim (t.size * 2) (fun n => min (t.size * 2) (t.size + 2 * n)) <
        t.size + t.maxDisplacement := by
      cases limit with
      | none => exact Nat.not_lt.mpr (by show _ ≤ t.size * 2; omega)
      | some n =>
        have hle : t.maxDisplacement ≤ n := of_decide_eq_true hwithin
        refine Nat.not_lt.mpr (le_min ?_ ?_) <;> omega
    have hentries : (fun i => if i < t.size + t.maxDisplacement then
        (((List.range (t.size + t.maxDisplacement)).map t.entries)[i]?).join else none) =
          t.entries := by
      funext i
      split
      · next hi => simp [hi]
      · next hi =>
        by_contra hne
        obtain ⟨e, he⟩ := Option.ne_none_iff_exists'.mp (Ne.symm hne)
        exact hi (h.inside he)
    simp only [hwithin, hentries]
    exact if_neg hroom
  · simp only [hwithin]
    rfl

end Snabb
