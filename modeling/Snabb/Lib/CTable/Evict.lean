import Snabb.Lib.CTable.Shrink

/-!
# Hash tables of bounded size (`apps/lwaftr/ctable_wrapper.lua`)

`add` to a full table evicts an entry that a random number selects, instead of growing the table.
The comment in the source says that the table cannot be empty then. A table of size 0 is: it is full
and empty, and has no entry that the search could read. And the new key may be displaced further
than `max_displacement_limit` allows.

- `evictScan_ok`: the search ends at the first entry from where it begins, around the table.
- `evicts_exactly_iff`: `add` is exact if and only if the size is not 0 and the limit allows it.
-/

namespace Snabb

open Foundation Foundation.Slots CTable

variable {K V : Type}

namespace CTable

/-- The index of a random hash: `floor(random_hash*ctab.scale + 0.5)`. -/
def evictStart (t : CTable K V) (randomHash : Fin hashMax) : Nat :=
  (2 * (randomHash * t.size) + hashMax) / (2 * hashMax)

/-- The loop of `evict_random_entry`. -/
def evictScan (t : CTable K V) : Nat → Nat → Except CTableFault (Nat × CTableEntry K V)
  | 0, index => .error (.outOfBounds index)
  | fuel + 1, index => do
    match ← t.slotAt index with
    | some e => return (index, e)
    | none => t.evictScan fuel (if index ≥ t.size + t.maxDisplacement then 0 else index + 1)

/-- `add_with_random_eviction`: the table, what `add` returns or raises, and the entry that
`cleanup_fn` is called with. -/
def addWithRandomEviction [DecidableEq K] (conf : CTableParams K) (t : CTable K V) (key : K)
    (value : V) (updatesAllowed : UpdatesAllowed) (randomHash : Fin hashMax) :
    Except CTableFault (CTable K V × Except CTableRaise Nat × Option (CTableEntry K V)) :=
  if t.occupancy + 1 > t.occupancyHi conf then do
    let (index, e) ← t.evictScan (t.allocSize + t.loopFuel) (t.evictStart randomHash)
    let (t, removed) ← t.removePtr conf index
    match removed with
    | .error raised => return (t, .error raised, some e)
    | .ok _ =>
      let (t, r) ← t.add conf key value updatesAllowed
      return (t, r, some e)
  else do
    let (t, r) ← t.add conf key value updatesAllowed
    return (t, r, none)

/-- An operation with a random number. Errors are caught. -/
def evictingStep [DecidableEq K] (conf : CTableParams K) (t : CTable K V) :
    CTableOp K V × Fin hashMax → Except CTableFault (CTable K V)
  | (.add key value updatesAllowed, randomHash) =>
    (t.addWithRandomEviction conf key value updatesAllowed randomHash).map Prod.fst
  | (.update key value, randomHash) =>
    (t.addWithRandomEviction conf key value .required randomHash).map Prod.fst
  | (op, _) => t.after conf op

/-- The entry that a random hash selects: the first one from its index on, or from the start. -/
def Selects (t : CTable K V) (start : Nat) (e : CTableEntry K V) : Prop :=
  ∃ index, t.entries index = some e ∧
    (start ≤ index ∧ (∀ j, start ≤ j → j < index → t.entries j = none) ∨
      (∀ j, start ≤ j → t.entries j = none) ∧ ∀ j < index, t.entries j = none)

/-- The keys with the new one, without that of a selected entry where the table is full, are spread
as the limit asks. -/
def AddsWithin [DecidableEq K] (conf : CTableParams K) (t : CTable K V) (key : K)
    (randomHash : Fin hashMax) : Prop :=
  if t.occupancy + 1 > t.occupancyHi conf then
    ∀ e, t.Selects (t.evictStart randomHash) e →
      Spread conf t.seed t.size (key :: t.keys.erase e.key)
  else Spread conf t.seed t.size (key :: t.keys)

/-- Adding an absent key makes it present, evicts one other key if the table is full, and changes
nothing else. -/
def EvictsExactly [DecidableEq K] (conf : CTableParams K) (t : CTable K V) (m : K → Option V)
    (key : K) (value : V) (updatesAllowed : UpdatesAllowed) (randomHash : Fin hashMax) : Prop :=
  ∃ t' index evicted,
    t.addWithRandomEviction conf key value updatesAllowed randomHash =
      .ok (t', .ok index, evicted) ∧
    t'.size = t.size ∧ t'.occupancy ≤ t'.occupancyHi conf ∧
    (evicted.isSome ↔ t.occupancy + 1 > t.occupancyHi conf) ∧
    (∀ e ∈ evicted, m e.key = some e.value) ∧
    Holds t' (Function.update (evicted.elim m fun e => Function.update m e.key none)
      key (some value))

variable [DecidableEq K] {conf : CTableParams K} {t t' : CTable K V} {m : K → Option V}

omit [DecidableEq K] in
theorem evictStart_le (t : CTable K V) (randomHash : Fin hashMax) :
    t.evictStart randomHash ≤ t.size := by
  have hle : randomHash * t.size ≤ hashMax * t.size :=
    Nat.mul_le_mul_right _ randomHash.isLt.le
  rw [evictStart]
  simp only [hashMax] at hle ⊢
  omega

omit [DecidableEq K] in
/-- **The search ends at the selected entry**, before it comes around a second time. -/
theorem evictScan_ok {p : Nat} (h : Valid conf t) (hp : t.entries p ≠ none) (fuel : Nat)
    {i : Nat} (hi : i ≤ t.size + t.maxDisplacement)
    (hfuel : (if i ≤ p then p else t.size + t.maxDisplacement + 1 + p) - i < fuel) :
    ∃ index e, t.evictScan fuel i = .ok (index, e) ∧ t.entries index = some e ∧
      (i ≤ index ∧ (∀ j, i ≤ j → j < index → t.entries j = none) ∨
        (∀ j, i ≤ j → t.entries j = none) ∧ ∀ j < index, t.entries j = none) := by
  obtain ⟨e, he⟩ := Option.ne_none_iff_exists'.mp hp
  have hin := h.inside he
  have hdisp := h.displacement_le
  have hout : ∀ j, t.size + t.maxDisplacement ≤ j → t.entries j = none := by
    intro j hj
    by_contra hne
    obtain ⟨x, hx⟩ := Option.ne_none_iff_exists'.mp hne
    exact absurd (h.inside hx) (Nat.not_lt.mpr hj)
  induction fuel generalizing i with
  | zero => exact absurd hfuel (Nat.not_lt_zero _)
  | succ fuel ih =>
    have hslot := slotAt_eq (t := t) (i := i) (by rw [allocSize]; omega)
    rw [evictScan, bind_of_eq_ok hslot]
    cases hx : t.entries i with
    | some x => exact ⟨i, x, rfl, hx, .inl ⟨le_rfl, by omega⟩⟩
    | none =>
      have hne : i ≠ p := by
        rintro rfl
        exact hp hx
      obtain ⟨index, e, hscan, hindex, hfirst⟩ := ih (i := if i ≥ t.size + t.maxDisplacement then 0
        else i + 1) (by split <;> omega) (by split_ifs at hfuel ⊢ <;> omega)
      refine ⟨index, e, hscan, hindex, ?_⟩
      have hall (hrest : ∀ j, i + 1 ≤ j → t.entries j = none) (j : Nat) (hj : i ≤ j) :
          t.entries j = none := by
        rcases Nat.lt_or_eq_of_le hj with hlt | rfl
        · exact hrest j hlt
        · exact hx
      by_cases hlast : i ≥ t.size + t.maxDisplacement
      · rw [if_pos hlast] at hfirst
        refine .inr ⟨fun j hj => hout j (hlast.trans hj), fun j hj => ?_⟩
        rcases hfirst with ⟨-, hfirst⟩ | ⟨hnone, -⟩
        · exact hfirst j (Nat.zero_le j) hj
        · exact hnone j (Nat.zero_le j)
      · rw [if_neg hlast] at hfirst
        rcases hfirst with ⟨hle, hfirst⟩ | ⟨hnone, hfirst⟩
        · refine .inl ⟨by omega, fun j hj hlt => ?_⟩
          rcases Nat.lt_or_eq_of_le hj with hlt' | rfl
          · exact hfirst j hlt' hlt
          · exact hx
        · exact .inr ⟨hall hnone, hfirst⟩

omit [DecidableEq K] in
theorem Selects.unique {start : Nat} {e e' : CTableEntry K V} (h : t.Selects start e)
    (h' : t.Selects start e') : e = e' := by
  obtain ⟨i, hi, hfirst⟩ := h
  obtain ⟨j, hj, hfirst'⟩ := h'
  have hne : ∀ {k x}, t.entries k = some x → t.entries k ≠ none := by
    intro k x hk hnone
    cases hk.symm.trans hnone
  obtain rfl : i = j := by
    rcases hfirst with ⟨hle, hfirst⟩ | ⟨hnone, hfirst⟩
    · rcases hfirst' with ⟨hle', hfirst'⟩ | ⟨hnone', -⟩
      · rcases Nat.lt_trichotomy i j with hlt | heq | hlt
        · exact absurd (hfirst' i hle hlt) (hne hi)
        · exact heq
        · exact absurd (hfirst j hle' hlt) (hne hj)
      · exact absurd (hnone' i hle) (hne hi)
    · rcases hfirst' with ⟨hle', -⟩ | ⟨-, hfirst'⟩
      · exact absurd (hnone j hle') (hne hj)
      · rcases Nat.lt_trichotomy i j with hlt | heq | hlt
        · exact absurd (hfirst' i hlt) (hne hi)
        · exact heq
        · exact absurd (hfirst j hlt) (hne hj)
  exact Option.some.inj (hi.symm.trans hj)

theorem size_pos_of_adding {key : K} {value : V} {updatesAllowed : UpdatesAllowed}
    {randomHash : Fin hashMax} {r : CTable K V × Except CTableRaise Nat × Option (CTableEntry K V)}
    (h : t.addWithRandomEviction conf key value updatesAllowed randomHash = .ok r) :
    0 < t.size := by
  have hhi := occupancyHi_le_size conf t
  by_contra hzero
  rw [addWithRandomEviction, if_pos (by omega)] at h
  obtain ⟨_, hscan, -⟩ := bind_eq_ok h
  obtain ⟨_, hslot, -⟩ := bind_eq_ok hscan
  rw [slotAt, if_neg (by rw [allocSize]; omega)] at hslot
  cases hslot

variable (h : Valid conf t) (hm : Holds t m) (hmin : conf.minOccupancyRate = 0)
  (hle : t.occupancy ≤ t.occupancyHi conf)
include h hm hmin hle

/-- Whatever is added, there is room for it in what is left of the table. -/
theorem Valid.evicting (hsize : 0 < t.size) (randomHash : Fin hashMax) :
    ∃ t₁ evicted, (∀ key value updatesAllowed,
        t.addWithRandomEviction conf key value updatesAllowed randomHash =
          t₁.insert conf key value updatesAllowed >>= fun r => pure (r.1, r.2, evicted)) ∧
      Valid conf t₁ ∧ Holds t₁ (evicted.elim m fun e => Function.update m e.key none) ∧
      t₁.size = t.size ∧ t₁.occupancy + 1 ≤ t.occupancyHi conf ∧
      (evicted.isSome ↔ t.occupancy + 1 > t.occupancyHi conf) ∧
      (∀ e ∈ evicted, m e.key = some e.value) ∧
      ∀ key, t.AddsWithin conf key randomHash ↔ Spread conf t₁.seed t₁.size (key :: t₁.keys) := by
  by_cases hfull : t.occupancy + 1 > t.occupancyHi conf
  · have hceil := Int.ceil_pos.mpr (conf.mul_pos hsize)
    have hocc : 0 < (contents t.entries t.allocSize).length := by
      rw [h.occupancy]
      rw [occupancyHi] at hfull
      omega
    obtain ⟨x, hx⟩ := List.exists_mem_of_length_pos hocc
    obtain ⟨p, hp⟩ := h.mem_entries.mp hx
    have hin := h.inside hp
    have halloc := h.visited_le
    have hstart := t.evictStart_le randomHash
    obtain ⟨index, e, hscan, he, hfirst⟩ := evictScan_ok h (by rw [hp]; rintro ⟨⟩)
      (t.allocSize + t.loopFuel) (hstart.trans (Nat.le_add_right _ _))
      (by rw [loopFuel]; split <;> omega)
    have hlo : ¬ ((t.occupancy - 1 : Nat) : ℤ) < t.occupancyLo conf := by
      rw [occupancyLo, hmin, conf.mul_zero, Int.floor_zero]
      exact not_lt.mpr (Int.natCast_nonneg _)
    obtain ⟨t₁, r, hremove, hvalid, hm₁, -, hok, -, hkeep⟩ :=
      (h.removePtr hm he).ok fun hlow => absurd hlow hlo
    obtain rfl := hok fun hlow => absurd hlow hlo
    obtain ⟨hsize₁, hseed₁, hocc₁, hkeys₁⟩ := hkeep hmin
    have hroom : ¬ t₁.occupancy + 1 > t₁.occupancyHi conf := by
      rw [h.occupancy] at hocc
      rw [occupancyHi, hsize₁]
      rw [occupancyHi] at hle
      omega
    refine ⟨t₁, some e, fun key value updatesAllowed => ?_, hvalid, hm₁, hsize₁, ?_,
      iff_of_true rfl hfull, ?_, fun key => ?_⟩
    · rw [addWithRandomEviction, if_pos hfull, bind_of_eq_ok hscan]
      refine (bind_of_eq_ok hremove).trans ?_
      show CTable.add _ _ _ _ _ >>= _ = _
      rw [CTable.add, if_neg hroom]
    · rw [occupancyHi, hsize₁] at hroom
      exact Nat.le_of_not_gt hroom
    · rintro _ ⟨⟩
      exact (hm e.key e.value).mpr ⟨e, ⟨index, he⟩, rfl, rfl⟩
    · rw [AddsWithin, if_pos hfull, hsize₁, hseed₁, Spread.perm_iff (hkeys₁.cons key)]
      constructor
      · exact fun hall => hall e ⟨index, he, hfirst⟩
      · intro hspread e' hselects
        rwa [hselects.unique ⟨index, he, hfirst⟩]
  · refine ⟨t, none, fun key value updatesAllowed => ?_, h, hm, rfl, by omega,
      iff_of_false (by simp) hfull, by simp, fun key => ?_⟩
    · rw [addWithRandomEviction, if_neg hfull, CTable.add, if_neg hfull]
    · rw [AddsWithin, if_neg hfull]

/-- **`add` is exact** where the size of the table is not 0 and the limit allows it. -/
theorem Valid.evictsExactly_iff {key : K} (hkey : m key = none) (value : V)
    {updatesAllowed : UpdatesAllowed} (hupd : updatesAllowed ≠ .required)
    (randomHash : Fin hashMax) :
    t.EvictsExactly conf m key value updatesAllowed randomHash ↔
      0 < t.size ∧ t.AddsWithin conf key randomHash := by
  by_cases hsize : 0 < t.size
  swap
  · refine iff_of_false ?_ fun hyes => hsize hyes.1
    rintro ⟨_, _, _, hadd, -⟩
    exact hsize (size_pos_of_adding hadd)
  obtain ⟨t₁, evicted, hadd, hvalid, hm₁, hsize₁, hroom, hfull, hevicted, hspread⟩ :=
    h.evicting hm hmin hle hsize randomHash
  have hroom₁ := hroom.trans (occupancyHi_le_size conf t)
  have hkey₁ : (evicted.elim m fun e => Function.update m e.key none) key = none := by
    cases evicted with
    | none => exact hkey
    | some e => by_cases hk : key = e.key <;> simp [hk, hkey]
  rw [and_iff_right hsize, hspread]
  rcases hvalid.insert_new hm₁ (hroom₁.trans_eq hsize₁.symm) hkey₁ value hupd with
    ⟨hyes, t', _, heq, index, rfl, -, hsize', -, hocc, hm'⟩ | ⟨hnot, herror⟩
  · refine iff_of_true ⟨t', index, evicted, ?_, hsize'.trans hsize₁, ?_, hfull, hevicted, hm'⟩ hyes
    · rw [hadd, bind_of_eq_ok heq]
      rfl
    · rwa [hocc, occupancyHi, hsize', hsize₁]
  · refine iff_of_false ?_ hnot
    rintro ⟨_, _, _, hok, -⟩
    rw [hadd, bind_of_eq_error herror] at hok
    cases hok

/-- **Every operation** leaves a table that is not too full. -/
theorem Valid.evictingStep {op : CTableOp K V × Fin hashMax}
    (hstep : t.evictingStep conf op = .ok t') :
    (Valid conf t' ∧ ∃ m', Holds t' m') ∧ t'.occupancy ≤ t'.occupancyHi conf := by
  obtain ⟨op, randomHash⟩ := op
  have hadd (key : K) (value : V) (updatesAllowed : UpdatesAllowed)
      (hstep : (t.addWithRandomEviction conf key value updatesAllowed randomHash).map Prod.fst =
        .ok t') : (Valid conf t' ∧ ∃ m', Holds t' m') ∧ t'.occupancy ≤ t'.occupancyHi conf := by
    obtain ⟨_, hok, -⟩ := map_eq_ok hstep
    obtain ⟨t₁, evicted, hadd, hvalid, hm₁, hsize₁, hroom, -⟩ :=
      h.evicting hm hmin hle (size_pos_of_adding hok) randomHash
    have hroom₁ := hroom.trans (occupancyHi_le_size conf t)
    rw [hadd] at hstep
    obtain ⟨_, hbind, rfl⟩ := map_eq_ok hstep
    obtain ⟨⟨t₂, r⟩, heq, hret⟩ := bind_eq_ok hbind
    cases hret
    obtain ⟨-, hvalid₂, hsize₂, -, hocc, hm₂, -⟩ :=
      (hvalid.insert hm₁ (hroom₁.trans_eq hsize₁.symm) key value updatesAllowed).of_ok heq
    refine ⟨⟨hvalid₂, _, hm₂⟩, hocc.trans ?_⟩
    rwa [occupancyHi, hsize₂, hsize₁]
  have hafter (hop' : ∀ key value updatesAllowed,
      op ≠ .add key value updatesAllowed ∧ op ≠ .update key value)
      (hstep : t.after conf op = .ok t') :
      (Valid conf t' ∧ ∃ m', Holds t' m') ∧ t'.occupancy ≤ t'.occupancyHi conf := by
    obtain ⟨⟨_, r⟩, hperform, rfl⟩ := map_eq_ok hstep
    refine ⟨perform_valid h hm hperform, ?_⟩
    rcases perform_cases hperform with ⟨key, value, updatesAllowed, _, hop | hop, -⟩ | heq |
      ⟨index, _, heq⟩ | ⟨size, _, heq⟩
    · exact absurd hop (hop' key value updatesAllowed).1
    · exact absurd hop (hop' key value updatesAllowed).2
    · obtain rfl := heq
      exact hle
    · cases he : t.entries index with
      | none =>
        obtain ⟨rfl, -⟩ := ok_pair_inj (heq.symm.trans (h.removePtr_none he))
        exact hle
      | some e =>
        obtain ⟨-, -, -, -, -, -, hkeep⟩ := (h.removePtr hm he).of_ok heq
        obtain ⟨hsize, -, hocc, -⟩ := hkeep hmin
        rw [occupancyHi, hsize, hocc]
        exact (Nat.sub_le _ _).trans hle
    · by_cases hfits : conf.quot t.occupancy conf.maxOccupancyRate ≤ size
      · obtain ⟨-, -, -, -, hsize, hocc, -⟩ := (h.resize hm hfits).of_ok heq
        refine le_occupancyHi ?_
        rwa [hsize, hocc]
      · obtain ⟨rfl, -⟩ := ok_pair_inj (heq.symm.trans (if_neg hfits))
        exact hle
  cases op with
  | add key value updatesAllowed => exact hadd key value updatesAllowed hstep
  | update key value => exact hadd key value .required hstep
  | remove key missingAllowed => exact hafter (by simp) hstep
  | removePtr index => exact hafter (by simp) hstep
  | resize size => exact hafter (by simp) hstep

end CTable

/-- The parameters with a `min_occupancy_rate` of 0. -/
def CTableParams.neverShrinking (conf : CTableParams K) : CTableParams K :=
  { conf with minOccupancyRate := 0 }

/-- Colliding keys with a limit of 1. -/
def tightParams : CTableParams Nat :=
  { collidingConf.toCTableParams with limit := some 1 }

end Snabb
