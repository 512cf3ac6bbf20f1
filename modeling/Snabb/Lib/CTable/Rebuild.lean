import Snabb.Lib.CTable.Operations
import Mathlib.Tactic.GCongr

/-!
# Resizing and removing (`lib/ctable.lua`)

`resize` adds the old entries one by one to an empty array. It cannot run into a resize
inside the resize, since it has checked that the new table has room for them. `remove_ptr`
closes the gap that an entry leaves; the array that it may build anew is never too small.

- `Valid.resize`, `Valid.removePtr`, `Valid.remove`, `Valid.add`: what the operations do to
  the map that a table holds;
- `Valid.selfcheck`: the checks of `selfcheck` pass.
-/

namespace Snabb

open Foundation Foundation.Slots List CTableEntry
open Function (update_of_ne update_self)

namespace CTable

variable {K V : Type} {conf : CTableParams K} {t : CTable K V} {m : K → Option V}

/-! ## Visiting the entries -/

theorem Valid.visited_le (h : Valid conf t) : t.size + t.maxDisplacement ≤ t.allocSize := by
  have hdisp := h.displacement_le
  rw [allocSize]
  omega

theorem Valid.contents_visited (h : Valid conf t) :
    contents t.entries (t.size + t.maxDisplacement) = contents t.entries t.allocSize := by
  refine contents_eq h.visited_le fun i hi => ?_
  by_contra hne
  obtain ⟨e, he⟩ := Option.ne_none_iff_exists'.mp hne
  exact absurd (h.inside he) (Nat.not_lt.mpr hi)

theorem Valid.slots (h : Valid conf t) : (List.range (t.size + t.maxDisplacement)).mapM t.slotAt =
    .ok ((List.range (t.size + t.maxDisplacement)).map t.entries) := by
  rw [mapM_eq_ok, forall₂_map_right_iff, forall₂_same]
  intro i hi
  exact slotAt_eq ((mem_range.mp hi).trans_le h.visited_le)

/-- **`iterate`** visits the entries of the array. -/
theorem Valid.iterate (h : Valid conf t) : t.iterate = .ok (contents t.entries t.allocSize) := by
  rw [CTable.iterate, bind_of_eq_ok h.slots, ← h.contents_visited, filterMap_map]
  rfl

variable {e : CTableEntry K V} {idx i index : Nat}

theorem Valid.mem_entries (h : Valid conf t) :
    e ∈ contents t.entries t.allocSize ↔ ∃ i, t.entries i = some e := by
  rw [mem_contents]
  constructor
  · rintro ⟨i, -, hi⟩
    exact ⟨i, hi⟩
  · rintro ⟨i, hi⟩
    exact ⟨i, h.lt_alloc hi, hi⟩

/-! ## Resizing -/

theorem valid_empty (conf : CTableParams K) (seed size : Nat) :
    Valid conf (⟨seed, size, 0, 0, fun _ => none⟩ : CTable K V) where
  probed := ⟨nofun, nofun, nofun⟩
  hashed := nofun
  distinct := nofun
  near := nofun
  inside := nofun
  displacement_le := Nat.zero_le _
  allowed := by cases conf.limit <;> simp [within]
  occupancy := by simp [contents]
  occupancy_le := Nat.zero_le _

theorem holds_empty (seed size : Nat) :
    Holds (⟨seed, size, 0, 0, fun _ => none⟩ : CTable K V) fun _ => none := by
  intro key value
  constructor
  · nofun
  · rintro ⟨e, ⟨i, hi⟩, -⟩
    cases hi

theorem keys_empty (seed size : Nat) :
    (⟨seed, size, 0, 0, fun _ => none⟩ : CTable K V).keys = [] := by
  simp [keys, contents]

theorem le_occupancyHi {n : Nat} (h : conf.quot n conf.maxOccupancyRate ≤ t.size) :
    n ≤ t.occupancyHi conf := by
  have hcast := conf.fits h
  rw [occupancyHi]
  omega

variable [DecidableEq K]

/-- The loop of `resize` adds entries with new keys, for which there is room. -/
theorem Valid.readd (h : Valid conf t) (es : List (CTableEntry K V))
    (hroom : t.occupancy + es.length ≤ t.occupancyHi conf)
    (hnew : ∀ e ∈ es, ∀ i x, t.entries i = some x → x.key ≠ e.key) (hnodup : (es.map key).Nodup) :
    Limited (Spread conf t.seed t.size (es.map key ++ t.keys)) (t.readd conf es) fun t' r =>
      r = .ok () ∧ Valid conf t' ∧ t'.size = t.size ∧ t'.seed = t.seed ∧
        t'.occupancy = t.occupancy + es.length ∧ t'.keys.Perm (es.map key ++ t.keys) ∧
        ∀ key value, (∃ x, (∃ i, t'.entries i = some x) ∧ x.key = key ∧ x.value = value) ↔
          (∃ x, (∃ i, t.entries i = some x) ∧ x.key = key ∧ x.value = value) ∨
            ∃ x ∈ es, x.key = key ∧ x.value = value := by
  induction es generalizing t with
  | nil => exact .inl ⟨h.spread, t, _, rfl, rfl, h, rfl, rfl, rfl, .rfl, fun key value => by simp⟩
  | cons e es ih =>
    rw [length_cons] at hroom
    rw [map_cons, nodup_cons] at hnodup
    have hfits : t.occupancy + 1 ≤ t.size := by
      have hsize := occupancyHi_le_size conf t
      omega
    rw [CTable.readd, if_neg (by omega), map_cons, cons_append]
    rcases h.insert_absent hfits (hnew e mem_cons_self) e.value
        (show UpdatesAllowed.no ≠ .required by decide) with
      ⟨-, t₁, _, heq, index, rfl, hvalid, hsize, hseed, hocc, hkeys, hsame⟩ | ⟨hnot, herror⟩
    · have hhi : t₁.occupancyHi conf = t.occupancyHi conf := by
        rw [occupancyHi, occupancyHi, hsize]
      have hrest := ih hvalid (by omega) (by
        intro y hy i x hx hkey
        rcases (hsame x).mp ⟨i, hx⟩ with rfl | ⟨j, hj⟩
        · exact hnodup.1 (mem_map.mpr ⟨y, hy, hkey.symm⟩)
        · exact hnew y (mem_cons_of_mem _ hy) j x hj hkey) hnodup.2
      have hperm : (es.map key ++ t₁.keys).Perm (e.key :: (es.map key ++ t.keys)) :=
        (hkeys.append_left _).trans perm_middle
      rw [bind_of_eq_ok heq, ← Spread.perm_iff hperm, ← hsize, ← hseed]
      refine hrest.imp ?_
      rintro t' _ ⟨rfl, hvalid', hsize', hseed', hocc', hkeys', hsame'⟩
      refine ⟨rfl, hvalid', hsize', hseed', by rw [length_cons]; omega, hkeys'.trans hperm, ?_⟩
      intro key value
      rw [hsame']
      constructor
      · rintro (⟨x, hx, hkey, hvalue⟩ | ⟨x, hx, hkey, hvalue⟩)
        · rcases (hsame x).mp hx with rfl | hx
          · exact .inr ⟨e, mem_cons_self, hkey, hvalue⟩
          · exact .inl ⟨x, hx, hkey, hvalue⟩
        · exact .inr ⟨x, mem_cons_of_mem _ hx, hkey, hvalue⟩
      · rintro (⟨x, hx, hkey, hvalue⟩ | ⟨x, hx, hkey, hvalue⟩)
        · exact .inl ⟨x, (hsame x).mpr (.inr hx), hkey, hvalue⟩
        · rcases mem_cons.mp hx with rfl | hx
          · exact .inl ⟨_, (hsame _).mpr (.inl rfl), hkey, hvalue⟩
          · exact .inr ⟨x, hx, hkey, hvalue⟩
    · -- The keys that are still to come only make it worse.
      refine .inr ⟨fun hspread => hnot (hspread.of_subperm ?_), bind_of_eq_error herror⟩
      exact (subperm_cons _).mpr (sublist_append_right _ _).subperm

/-- **`resize`** to a size that the entries fit in keeps the map. -/
theorem Valid.resize (h : Valid conf t) (hm : Holds t m) {size : Nat}
    (hfits : conf.quot t.occupancy conf.maxOccupancyRate ≤ size) :
    Limited (Spread conf (if t.size ≠ 0 then t.seed + 1 else t.seed) size t.keys)
      (t.resize conf size) fun t' r =>
        r = .ok () ∧ Valid conf t' ∧ Holds t' m ∧ t'.size = size ∧
          t'.occupancy = t.occupancy ∧ t'.seed = (if t.size ≠ 0 then t.seed + 1 else t.seed) ∧
          t'.keys.Perm t.keys := by
  rw [CTable.resize, if_pos hfits, bind_of_eq_ok h.iterate]
  generalize (if t.size ≠ 0 then t.seed + 1 else t.seed) = seed
  have hempty := valid_empty (V := V) conf seed size
  have hreadd := hempty.readd (contents t.entries t.allocSize)
    (by rw [h.occupancy, Nat.zero_add]; exact le_occupancyHi hfits) nofun
    (Distinct.nodup h.distinct _)
  rw [keys_empty, append_nil] at hreadd
  refine hreadd.imp ?_
  rintro t' _ ⟨rfl, hvalid, hsize, hseed, hocc, hkeys, hsame⟩
  refine ⟨rfl, hvalid, ?_, hsize, hocc.trans ?_, hseed, hkeys⟩
  · intro key value
    rw [hm key value, hsame]
    constructor
    · rintro ⟨e, he, hkey, hvalue⟩
      exact .inr ⟨e, h.mem_entries.mpr he, hkey, hvalue⟩
    · rintro (⟨e, ⟨i, hi⟩, -⟩ | ⟨e, he, hkey, hvalue⟩)
      · cases hi
      · exact ⟨e, h.mem_entries.mp he, hkey, hvalue⟩
  · rw [h.occupancy, Nat.zero_add]

/-- **`new`** returns an empty table. -/
theorem new_ok (conf : CTableParams K) (initialSize : Nat) :
    ∃ t : CTable K V, CTable.new conf initialSize = .ok (t, .ok ()) ∧ Valid conf t ∧
      Holds t (fun _ => none) ∧ t.size = initialSize ∧ t.occupancy = 0 := by
  have hfits : conf.quot 0 conf.maxOccupancyRate ≤ initialSize := by simp [conf.quot_zero]
  have hresize := (valid_empty (V := V) conf 0 0).resize (holds_empty 0 0) hfits
  rw [keys_empty] at hresize
  obtain ⟨t, _, hnew, rfl, hvalid, hm, hsize, hocc, -⟩ :=
    hresize.ok (fun limit _ a b _ => by simp)
  exact ⟨t, hnew, hvalid, hm, hsize, hocc⟩

/-- What becomes of the array when a table is changed: it stays, or another one with another
hash function takes its place. -/
structure Successor (t t' : CTable K V) : Prop where
  size_pos : 0 < t'.size
  seed_le : t.seed ≤ t'.seed
  same : t'.seed = t.seed → t'.size = t.size

/-! ## Removing -/

omit [DecidableEq K] in
theorem update_closeAt (f : Slots (CTableEntry K V)) (hle : idx ≤ i) (he : f (i + 1) = some e) :
    Function.update (Function.update (closeAt f idx i) i (some e)) (i + 1) none =
      closeAt f idx (i + 1) := by
  funext j
  by_cases hlast : j = i + 1
  · subst hlast
    rw [update_self, closeAt_last (by omega)]
  · rw [update_of_ne hlast]
    by_cases hj : j = i
    · subst hj
      rw [update_self, closeAt_moved hle (Nat.lt_succ_self j), he]
    · rw [update_of_ne hj]
      rcases Nat.lt_or_ge j idx with hlt | hge
      · rw [closeAt_below hlt, closeAt_below hlt]
      · rcases Nat.lt_or_ge j i with hlt | hge'
        · rw [closeAt_moved hge hlt, closeAt_moved hge (by omega)]
        · rw [closeAt_above (by omega) hle, closeAt_above (by omega) (by omega)]

omit [DecidableEq K] in
/-- The loop of `remove_ptr` moves displaced entries back, up to one that is not displaced or an
empty slot. -/
theorem closeGap_ok {f : Slots (CTableEntry K V)} {z fuel : Nat} (hle : idx ≤ i)
    (hentries : t.entries = closeAt f idx i) (hz : f z = none) (hiz : i < z) (hlt : z < t.allocSize)
    (hfuel : z < i + fuel) :
    ∃ last, t.closeGap fuel i = .ok { t with entries := closeAt f idx last } ∧ i ≤ last ∧
      last < z ∧
      (∀ j, i < j → j ≤ last → ∃ x, f j = some x ∧ hashToIndex t.size x.hash ≠ j) ∧
      ∀ x, f (last + 1) = some x → hashToIndex t.size x.hash = last + 1 := by
  induction fuel generalizing t i with
  | zero => omega
  | succ fuel ih =>
    have hread : t.slotAt (i + 1) = .ok (f (i + 1)) := by
      rw [slotAt_eq (by omega), hentries, closeAt_above (Nat.lt_succ_self i) hle]
    have hdone : { t with entries := closeAt f idx i } = t := by rw [← hentries]
    rw [closeGap, bind_of_eq_ok hread]
    cases hnext : f (i + 1) with
    | none =>
      refine ⟨i, congrArg Except.ok hdone.symm, le_rfl, hiz, by omega, ?_⟩
      rw [hnext]
      nofun
    | some e =>
      simp only
      split
      · next hhome =>
        refine ⟨i, congrArg Except.ok hdone.symm, le_rfl, hiz, by omega, ?_⟩
        intro x hx
        obtain rfl := Option.mem_unique hnext hx
        exact hhome
      · next hhome =>
        have hiz' : i + 1 < z := by
          rcases Nat.lt_or_eq_of_le (Nat.succ_le_of_lt hiz) with h | rfl
          · exact h
          · rw [hz] at hnext
            cases hnext
        obtain ⟨last, hlast, hle', hltz, hall, hstop⟩ :=
          ih (t := { t with entries := closeAt f idx (i + 1) }) (i := i + 1) (by omega) rfl hiz' hlt
            (by omega)
        refine ⟨last, ?_, by omega, hltz, ?_, hstop⟩
        · rw [bind_of_eq_ok (setSlot_eq (by omega) _), hentries]
          refine (bind_of_eq_ok (setSlot_eq ?_ _)).trans ?_
          · show i + 1 < t.allocSize
            omega
          · have hmove := update_closeAt f hle hnext
            exact (congrArg (fun g => closeGap { t with entries := g } fuel (i + 1)) hmove).trans
              hlast
        · intro j hj hjl
          rcases Nat.lt_or_eq_of_le (Nat.succ_le_of_lt hj) with hlt' | rfl
          · exact hall j hlt' hjl
          · exact ⟨e, hnext, hhome⟩

omit [DecidableEq K] in
theorem Valid.closed (h : Valid conf t) {last : Nat} (he : t.entries idx = some e)
    (hle : idx ≤ last) (hrun : ∀ j, idx < j → j ≤ last →
      ∃ x, t.entries j = some x ∧ hashToIndex t.size x.hash ≠ j)
    (hstop : ∀ x, t.entries (last + 1) = some x → hashToIndex t.size x.hash = last + 1) :
    Valid conf { t with
      entries := closeAt t.entries idx last
      occupancy := t.occupancy - 1 } ∧
    t.keys.Perm (e.key :: CTable.keys { t with
      entries := closeAt t.entries idx last
      occupancy := t.occupancy - 1 }) := by
  have hold : ∀ {j x}, closeAt t.entries idx last j = some x →
      ∃ i, j ≤ i ∧ i ≠ idx ∧ t.entries i = some x := by
    intro j x hx
    rcases closeAt_eq_some hle hx with ⟨hlt, hx⟩ | ⟨hge, hlt, hx⟩ | ⟨hgt, hx⟩
    · exact ⟨j, le_rfl, by omega, hx⟩
    · exact ⟨j + 1, by omega, by omega, hx⟩
    · exact ⟨j, le_rfl, by omega, hx⟩
  have hperm : (contents t.entries t.allocSize).Perm
      (e :: contents (closeAt t.entries idx last) t.allocSize) := by
    refine contents_perm _ h.distinct ?_ (fun i x hx => h.lt_alloc hx) ?_
    · rw [map_cons, nodup_cons]
      refine ⟨?_, Distinct.nodup (Distinct.closeAt h.distinct hle) _⟩
      intro hmem
      obtain ⟨x, hx, hkey⟩ := mem_map.mp hmem
      obtain ⟨j, -, hj⟩ := mem_contents.mp hx
      obtain ⟨i, -, hne, hi⟩ := hold hj
      exact hne (h.distinct hi he hkey)
    · intro x
      rw [mem_cons, mem_contents]
      constructor
      · rintro ⟨i, hi⟩
        by_cases hidx : i = idx
        · subst hidx
          exact .inl (Option.mem_unique hi he)
        · obtain ⟨j, hj⟩ := (closeAt_elements hle).mpr ⟨i, hidx, hi⟩
          obtain ⟨k, hjk, -, hk⟩ := hold hj
          have hlt := h.lt_alloc hk
          exact .inr ⟨j, by omega, hj⟩
      · rintro (rfl | ⟨j, -, hj⟩)
        · exact ⟨idx, he⟩
        · obtain ⟨i, -, -, hi⟩ := hold hj
          exact ⟨i, hi⟩
  have hlen := hperm.length_eq
  rw [length_cons] at hlen
  refine ⟨?_, hperm.map CTableEntry.key⟩
  constructor
  · exact h.probed.closeAt (hashToIndex_mono _) hle hrun hstop
  · intro j x hj
    obtain ⟨i, -, -, hi⟩ := hold hj
    exact h.hashed hi
  · exact Distinct.closeAt h.distinct hle
  · intro j x hj
    obtain ⟨i, hji, -, hi⟩ := hold hj
    exact hji.trans (h.near hi)
  · intro j x hj
    obtain ⟨i, hji, -, hi⟩ := hold hj
    exact hji.trans_lt (h.inside hi)
  · exact h.displacement_le
  · exact h.allowed
  · have hocc := h.occupancy
    show (contents (closeAt t.entries idx last) t.allocSize).length = t.occupancy - 1
    omega
  · have hocc := h.occupancy_le
    show t.occupancy - 1 ≤ t.size
    omega

/-- One entry less is enough for the size of the table, or fits into half of it. -/
def CanRemove (conf : CTableParams K) (t : CTable K V) : Prop :=
  ((t.occupancy - 1 : Nat) : ℤ) < t.occupancyLo conf →
    conf.quot (t.occupancy - 1) conf.maxOccupancyRate ≤ (max ((t.size + 1) / 2) 1 : Nat)

/-- Where the table is built anew without a key, the others are spread as the limit asks. -/
def ShrinksWithin (conf : CTableParams K) (t : CTable K V) (key : K) : Prop :=
  ((t.occupancy - 1 : Nat) : ℤ) < t.occupancyLo conf →
    conf.quot (t.occupancy - 1) conf.maxOccupancyRate ≤ (max ((t.size + 1) / 2) 1 : Nat) →
      Spread conf (t.seed + 1) (max ((t.size + 1) / 2) 1) (t.keys.erase key)

omit [DecidableEq K] in
/-- Where the smaller rate is at most half the other one, shrinking never leaves too little room. -/
theorem canRemove (conf : CTableConf K) (t : CTable K V) : t.CanRemove conf := by
  intro h
  have hlo : ((t.occupancy - 1 : Nat) : ℚ) ≤ t.size * conf.minOccupancyRate := by
    have hfloor := Int.le_floor.mp (h.le.trans_eq rfl : ((t.occupancy - 1 : Nat) : ℤ) ≤ ⌊_⌋)
    exact_mod_cast hfloor
  have hhalf : (t.size : ℚ) / 2 ≤ (max ((t.size + 1) / 2) 1 : Nat) := by
    have hnat : t.size ≤ 2 * max ((t.size + 1) / 2) 1 := by omega
    have hcast : (t.size : ℚ) ≤ 2 * (max ((t.size + 1) / 2) 1 : Nat) := by exact_mod_cast hnat
    linarith
  refine (div_le_iff₀ conf.rate_pos).mpr ?_
  calc ((t.occupancy - 1 : Nat) : ℚ) ≤ t.size * conf.minOccupancyRate := hlo
    _ ≤ t.size * (conf.maxOccupancyRate / 2) :=
      mul_le_mul_of_nonneg_left conf.min_le (Nat.cast_nonneg _)
    _ = t.size / 2 * conf.maxOccupancyRate := by ring
    _ ≤ (max ((t.size + 1) / 2) 1 : Nat) * conf.maxOccupancyRate :=
      mul_le_mul_of_nonneg_right hhalf conf.rate_pos.le

/-- **`remove_ptr`** takes the key of the entry out of the map, also where shrinking raises. -/
theorem Valid.removePtr (h : Valid conf t) (hm : Holds t m) (he : t.entries index = some e) :
    Limited (ShrinksWithin conf t e.key) (t.removePtr conf index) fun t' r =>
      Valid conf t' ∧ Holds t' (Function.update m e.key none) ∧ Successor t t' ∧
        (CanRemove conf t → r = .ok ()) ∧ (¬ CanRemove conf t → r = .error .assertion) ∧
        (conf.minOccupancyRate = 0 → t'.size = t.size ∧ t'.seed = t.seed ∧
          t'.occupancy = t.occupancy - 1 ∧ t'.keys.Perm (t.keys.erase e.key)) := by
  have hin := h.inside he
  have hz : t.entries (t.size + t.maxDisplacement) = none := by
    by_contra hne
    obtain ⟨x, hx⟩ := Option.ne_none_iff_exists'.mp hne
    exact Nat.lt_irrefl _ (h.inside hx)
  have hlt : t.size + t.maxDisplacement < t.allocSize := by
    have hdisp := h.displacement_le
    rw [allocSize]
    omega
  have hgap : Function.update t.entries index none = closeAt t.entries index index := by
    funext j
    rcases Nat.lt_trichotomy j index with hj | rfl | hj
    · rw [update_of_ne hj.ne, closeAt_below hj]
    · rw [update_self, closeAt_last le_rfl]
    · rw [update_of_ne hj.ne', closeAt_above hj le_rfl]
  obtain ⟨last, hclose, hle, -, hrun, hstop⟩ := closeGap_ok (t := { t with
      entries := closeAt t.entries index index
      occupancy := t.occupancy - 1 }) le_rfl rfl hz hin hlt
    (show t.size + t.maxDisplacement < index + t.loopFuel by rw [loopFuel]; omega)
  obtain ⟨hvalid, hkeys⟩ := h.closed he hle hrun hstop
  have hholds : Holds { t with
      entries := closeAt t.entries index last
      occupancy := t.occupancy - 1 } (Function.update m e.key none) := by
    intro key value
    by_cases hkey : key = e.key
    · subst hkey
      rw [update_self]
      constructor
      · rintro ⟨⟩
      · rintro ⟨x, hx, hxkey, -⟩
        obtain ⟨i, hne, hi⟩ := (closeAt_elements hle).mp hx
        exact absurd (h.distinct hi he hxkey) hne
    · rw [update_of_ne hkey, hm key value]
      constructor
      · rintro ⟨x, ⟨i, hi⟩, rfl, hvalue⟩
        refine ⟨x, (closeAt_elements hle).mpr ⟨i, ?_, hi⟩, rfl, hvalue⟩
        rintro rfl
        exact hkey (congrArg key (Option.mem_unique hi he))
      · rintro ⟨x, hx, hxkey, hvalue⟩
        obtain ⟨i, -, hi⟩ := (closeAt_elements hle).mp hx
        exact ⟨x, ⟨i, hi⟩, hxkey, hvalue⟩
  have hslot : t.slotAt index = .ok (some e) := by rw [slotAt_eq (h.lt_alloc he), he]
  have hset : CTable.setSlot { t with occupancy := t.occupancy - 1 } index none = .ok { t with
      entries := closeAt t.entries index index
      occupancy := t.occupancy - 1 } := by
    rw [← hgap]
    exact if_pos (h.lt_alloc he)
  have hsize := h.size_pos he
  obtain ⟨t', ht', htsize, htseed, htocc⟩ : ∃ t' : CTable K V, t' = { t with
      entries := closeAt t.entries index last
      occupancy := t.occupancy - 1 } ∧ t'.size = t.size ∧ t'.seed = t.seed ∧
      t'.occupancy = t.occupancy - 1 := ⟨_, rfl, rfl, rfl, rfl⟩
  rw [← ht'] at hvalid hholds hkeys
  have hremove : t.removePtr conf index =
      if t'.occupancy < t'.occupancyLo conf then t'.resize conf (max ((t'.size + 1) / 2) 1)
      else .ok (t', .ok ()) := by
    rw [CTable.removePtr, if_pos hin, bind_of_eq_ok hslot]
    exact (bind_of_eq_ok hset).trans (bind_of_eq_ok (hclose.trans (congrArg Except.ok ht'.symm)))
  have hkeys' : (t.keys.erase e.key).Perm t'.keys := by
    have herase := hkeys.erase e.key
    rwa [erase_cons_head] at herase
  have hlo' : t'.occupancyLo conf = t.occupancyLo conf := by rw [occupancyLo, occupancyLo, htsize]
  have hsuccessor : Successor t t' := ⟨by omega, htseed.ge, fun _ => htsize⟩
  unfold CanRemove ShrinksWithin
  rw [hremove, ← htocc, ← htsize, ← htseed, ← hlo', Spread.perm_iff hkeys']
  by_cases hlo : t'.occupancy < t'.occupancyLo conf
  · have hmin : conf.minOccupancyRate ≠ 0 := by
      intro hmin
      rw [occupancyLo, hmin, conf.mul_zero, Int.floor_zero] at hlo
      exact hlo.not_ge (Int.natCast_nonneg _)
    by_cases hfits : conf.quot t'.occupancy conf.maxOccupancyRate ≤ (max ((t'.size + 1) / 2) 1 : Nat)
    · have hresize := hvalid.resize hholds hfits
      rw [if_pos hsuccessor.size_pos.ne'] at hresize
      rw [if_pos hlo, forall_prop_of_true hlo, forall_prop_of_true hfits]
      refine hresize.imp ?_
      rintro t₂ _ ⟨rfl, hvalid₂, hholds₂, hsize₂, -, hseed₂, -⟩
      exact ⟨hvalid₂, hholds₂, ⟨by omega, by omega, fun hsame => by omega⟩, fun _ => rfl,
        fun hnot => absurd (fun _ => hfits) hnot, fun hzero => absurd hzero hmin⟩
    · -- The entry is gone already when the assertion of `resize` fails.
      exact .inl ⟨fun _ hyes => absurd hyes hfits, t', _, (if_pos hlo).trans (if_neg hfits),
        hvalid, hholds, hsuccessor, fun hyes => absurd (hyes hlo) hfits, fun _ => rfl,
        fun hzero => absurd hzero hmin⟩
  · exact .inl ⟨fun hyes => absurd hyes hlo, t', _, if_neg hlo, hvalid, hholds, hsuccessor,
      fun _ => rfl, fun hnot => absurd (fun hyes => absurd hyes hlo) hnot,
      fun _ => ⟨rfl, rfl, rfl, hkeys'.symm⟩⟩

theorem Valid.removePtr_none (h : Valid conf t) (he : t.entries index = none) :
    t.removePtr conf index = .ok (t, .error .assertion) := by
  unfold CTable.removePtr
  split
  · next hin =>
    rw [bind_of_eq_ok (slotAt_eq (hin.trans_le h.visited_le)), he]
    rfl
  · rfl

/-- What `remove` does to a map, and what it returns or raises. -/
def documentedRemove (m : K → Option V) (key : K) (missingAllowed : Bool) :
    (K → Option V) × Except CTableRaise Bool :=
  match m key with
  | some _ => (Function.update m key none, .ok true)
  | none => (m, if missingAllowed then .ok false else .error .keyNotFound)

/-- **`remove`** does to the map what is documented, and raises where shrinking does. -/
theorem Valid.remove (h : Valid conf t) (hm : Holds t m) (hsize : 0 < t.size) (key : K)
    (missingAllowed : Bool) :
    Limited (m key ≠ none → ShrinksWithin conf t key) (t.remove conf key missingAllowed) fun t' r =>
      Valid conf t' ∧ Holds t' (documentedRemove m key missingAllowed).1 ∧ Successor t t' ∧
        (CanRemove conf t → r = (documentedRemove m key missingAllowed).2) ∧
        (¬ CanRemove conf t → m key ≠ none → r = .error .assertion) := by
  obtain ⟨p, hp, hfound⟩ := h.lookupPtr hsize key
  unfold documentedRemove
  rw [CTable.remove, bind_of_eq_ok hp]
  cases p with
  | none =>
    have hnone := hm.eq_none_iff.mpr hfound
    rw [hnone]
    exact .inl ⟨fun hne => absurd rfl hne, t, _, rfl, h, hm, ⟨hsize, le_rfl, fun _ => rfl⟩,
      fun _ => rfl, fun _ hne => absurd rfl hne⟩
  | some index =>
    obtain ⟨e, he, rfl⟩ := hfound
    rw [(hm e.key e.value).mpr ⟨e, ⟨index, he⟩, rfl, rfl⟩,
      forall_prop_of_true (Option.some_ne_none _)]
    refine (h.removePtr hm he).bind ?_
    rintro t' r ⟨hvalid, hholds, hsuccessor, hyes, hno, -⟩
    exact ⟨t', _, rfl, hvalid, hholds, hsuccessor, fun hcan => congrArg (Except.map _) (hyes hcan),
      fun hcan _ => congrArg (Except.map _) (hno hcan)⟩

/-! ## Adding -/

/-- The table has room, or growing gives it room. -/
def CanAdd (conf : CTableParams K) (t : CTable K V) : Prop :=
  t.occupancy + 1 ≤ t.occupancyHi conf ∨
    conf.quot t.occupancy conf.maxOccupancyRate ≤ (max (t.size * 2) 1 : Nat)

/-- **`add`**, where growing helps, does to the map what is documented. -/
theorem Valid.add (h : Valid conf t) (hm : Holds t m) (hcan : CanAdd conf t) (key : K) (value : V)
    (updatesAllowed : UpdatesAllowed) :
    ∃ spread, (conf.limit = none → spread) ∧
      Limited spread (t.add conf key value updatesAllowed) fun t' r =>
        Valid conf t' ∧ Holds t' (documentedAdd m key value updatesAllowed).1 ∧
          r.map (fun _ => ()) = (documentedAdd m key value updatesAllowed).2 ∧
          (0 < t.size → Successor t t') := by
  unfold CTable.add
  split
  · next hfull =>
    rcases h.resize hm (hcan.resolve_left (by omega)) with
      ⟨-, t₁, _, hgrow, rfl, hvalid₁, hm₁, hsize₁, hocc₁, hseed₁, -⟩ | ⟨hnot, herror⟩
    · have hle := h.occupancy_le
      rw [bind_of_eq_ok hgrow]
      refine ⟨_, fun hnone _ _ => .of_unlimited hnone _ _ _,
        (hvalid₁.insert hm₁ (by omega) key value updatesAllowed).imp ?_⟩
      rintro t' r ⟨hvalid, hsize, hseed, -, hm', hr⟩
      refine ⟨hvalid, hm', hr, fun hpos => ?_⟩
      rw [if_pos hpos.ne'] at hseed₁
      exact ⟨by omega, by omega, fun hsame => by omega⟩
    · exact ⟨_, fun hnone => absurd (.of_unlimited hnone _ _ _) hnot,
        .inr ⟨id, bind_of_eq_error herror⟩⟩
  · next hroom =>
    have hle := occupancyHi_le_size conf t
    refine ⟨_, fun hnone _ _ => .of_unlimited hnone _ _ _,
      (h.insert hm (by omega) key value updatesAllowed).imp ?_⟩
    rintro t' r ⟨hvalid, hsize, hseed, -, hm', hr⟩
    exact ⟨hvalid, hm', hr, fun hpos => ⟨hpos.trans_eq hsize.symm, hseed.ge, fun _ => hsize⟩⟩

/-- Where growing does not help, the error of `resize` is raised, and nothing changes. -/
theorem add_refused (hcan : ¬ CanAdd conf t) (key : K) (value : V)
    (updatesAllowed : UpdatesAllowed) :
    t.add conf key value updatesAllowed = .ok (t, .error .assertion) := by
  have hfull := not_or.mp hcan
  have hresize : t.resize conf (max (t.size * 2) 1) = .ok (t, .error .assertion) := if_neg hfull.2
  rw [CTable.add, if_pos (by omega), bind_of_eq_ok hresize]
  rfl

theorem Valid.add_new (h : Valid conf t) (hm : Holds t m) (hcan : CanAdd conf t)
    (hlimit : conf.limit = none) {key : K} (hkey : m key = none) (value : V) :
    ∃ t' index, t.add conf key value .no = .ok (t', .ok index) ∧
      t'.occupancy = t.occupancy + 1 ∧
      (t'.size = t.size ∧ t'.occupancy ≤ t.occupancyHi conf ∨ t'.size = max (t.size * 2) 1) := by
  have hle := h.occupancy_le
  have hno : UpdatesAllowed.no ≠ .required := by decide
  unfold CTable.add
  split
  · next hfull =>
    obtain ⟨t₁, _, hgrow, rfl, hvalid₁, hm₁, hsize₁, hocc₁, -⟩ :=
      (h.resize hm (hcan.resolve_left (by omega))).ok (.of_unlimited hlimit _ _ _)
    obtain ⟨t', _, heq, index, rfl, -, hsize, -, hocc, -⟩ :=
      (hvalid₁.insert_new hm₁ (by omega) hkey value hno).ok (.of_unlimited hlimit _ _ _)
    rw [bind_of_eq_ok hgrow]
    exact ⟨t', index, heq, by omega, .inr (hsize.trans hsize₁)⟩
  · next hroom =>
    have hle' := occupancyHi_le_size conf t
    obtain ⟨t', _, heq, index, rfl, -, hsize, -, hocc, -⟩ :=
      (h.insert_new hm (by omega) hkey value hno).ok (.of_unlimited hlimit _ _ _)
    exact ⟨t', index, heq, hocc, .inl ⟨hsize, by omega⟩⟩

theorem Valid.add_returned (h : Valid conf t) (hm : Holds t m) {t' : CTable K V} {key : K}
    {value : V} (hadd : t.add conf key value .no = .ok (t', .ok index)) :
    Valid conf t' ∧ m key = none ∧ Holds t' (Function.update m key (some value)) := by
  by_cases hcan : t.CanAdd conf
  · obtain ⟨_, -, hlimited⟩ := h.add hm hcan key value .no
    obtain ⟨hvalid, hm', hr, -⟩ := (hlimited.of_ok hadd).2
    cases hkey : m key with
    | none =>
      rw [documentedAdd_absent hkey] at hm'
      exact ⟨hvalid, rfl, hm'⟩
    | some old =>
      rw [documentedAdd_present hkey] at hr
      cases hr
  · have hraise := hadd.symm.trans (add_refused hcan key value .no)
    cases (ok_pair_inj hraise).2

omit [DecidableEq K]

/-! ## The checks -/

/-- What `selfcheck` remembers of the slot before. -/
def prevAt (t : CTable K V) : Nat → Nat
  | 0 => 0
  | i + 1 => hashAt hash hashMax t.entries i

/-- The checks of one slot pass. -/
theorem Valid.checkSlot (h : Valid conf t) {M : Nat} (occupancy : Nat)
    (hi : i < t.size + t.maxDisplacement) (hM : M ≤ t.maxDisplacement) :
    ∃ M' ≤ t.maxDisplacement, t.checkSlot conf ⟨t.prevAt i, occupancy, M⟩ i =
      .ok ⟨t.prevAt (i + 1), occupancy + (t.entries i).toList.length, M'⟩ := by
  rw [CTable.checkSlot, bind_of_eq_ok (slotAt_eq (hi.trans_le h.visited_le)), prevAt, hashAt]
  cases he : t.entries i with
  | none => exact ⟨M, hM, rfl⟩
  | some e =>
    have hhome := h.probed.home_le he
    have hnear := h.near he
    -- behind an empty slot there is no displaced entry
    have hgap : t.prevAt i = hashMax → hashToIndex t.size e.hash = i := by
      intro hprev
      cases i with
      | zero => cases hprev
      | succ j =>
        have hnone : t.entries j = none := by
          by_contra hne
          obtain ⟨x, hx⟩ := Option.ne_none_iff_exists'.mp hne
          rw [prevAt, hashAt, hx] at hprev
          have hlt := conf.hashFn_lt t.seed x.key
          rw [← h.hashed hx] at hlt
          exact Nat.lt_irrefl _ (hlt.trans_eq hprev.symm)
        by_contra hne
        exact h.probed.no_gap he (by omega) (Nat.lt_succ_self j) hnone
    have hsorted : t.prevAt i ≠ hashMax → t.prevAt i ≤ e.hash := by
      intro hprev
      cases i with
      | zero => exact Nat.zero_le _
      | succ j =>
        rw [prevAt, hashAt] at hprev ⊢
        cases hx : t.entries j with
        | none =>
          rw [hx] at hprev
          exact absurd rfl hprev
        | some x => exact h.probed.sorted hx he (Nat.le_succ j)
    simp only
    rw [if_neg (not_not.mpr (h.hashed he).symm), if_neg (fun hbad => hbad.2 (hgap hbad.1)),
      if_neg (fun hbad => hbad.2 (hsorted hbad.1))]
    exact ⟨max M (i - hashToIndex t.size e.hash), max_le hM (by omega), rfl⟩

/-- **`selfcheck`**: the checks pass. -/
theorem Valid.selfcheck (h : Valid conf t) : t.selfcheck conf = .ok () := by
  have hloop : ∀ n ≤ t.size + t.maxDisplacement, ∃ M ≤ t.maxDisplacement,
      (List.range n).foldlM (t.checkSlot conf) ⟨0, 0, 0⟩ =
        .ok ⟨t.prevAt n, (contents t.entries n).length, M⟩ := by
    intro n hn
    induction n with
    | zero => exact ⟨0, Nat.zero_le _, rfl⟩
    | succ n ih =>
      obtain ⟨M, hM, hfold⟩ := ih (Nat.le_of_succ_le hn)
      obtain ⟨M', hM', hslot⟩ := h.checkSlot (contents t.entries n).length hn hM
      refine ⟨M', hM', ?_⟩
      rw [range_succ, foldlM_append, bind_of_eq_ok hfold, foldlM_cons,
        bind_of_eq_ok hslot, contents_succ, List.length_append]
      rfl
  obtain ⟨M, hM, hfold⟩ := hloop _ le_rfl
  rw [CTable.selfcheck, bind_of_eq_ok hfold]
  rw [h.contents_visited, h.occupancy, if_neg (fun hne => hne rfl), if_neg (not_not.mpr hM)]
  rfl

end CTable

end Snabb
