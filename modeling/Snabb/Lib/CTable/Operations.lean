import Snabb.Lib.CTable.Model
import Mathlib.Algebra.Order.Field.Basic
import Mathlib.Tactic.Linarith

/-!
# The operations of a hash table (`lib/ctable.lua`)

`Valid` is the invariant of a table: its entries are probed in the order of their hashes
(`Foundation/Probing.lean`), no key occurs twice, no entry is further from its bucket than
`max_displacement`, and `occupancy` counts them. `Holds` says which finite map a table is.

Every operation has one lemma that says what it does to the map, that the invariant is
kept, and that no access leaves the array. Where `max_displacement_limit` may stop it, the lemma
says when (`Limited`): the displacements are a matter of how the keys are spread over the buckets.

- `within_iff_spread`: the limit is kept if and only if the keys are spread;
- `Valid.lookupPtr`, `Valid.insert`: looking up, and adding to a table with room.
-/

namespace Snabb

open Foundation Foundation.Slots List Option
open Function (update_of_ne update_self)

namespace CTable

variable {K V : Type} {conf : CTableParams K} {t : CTable K V} {size hash i z : Nat} {key : K}

/-! ## Buckets -/

theorem hashToIndex_mono (size : Nat) : Monotone (hashToIndex size) := by
  intro a b hab
  exact Nat.div_le_div_right (Nat.mul_le_mul_right size hab)

theorem hashToIndex_lt (hhash : hash < hashMax) (hsize : 0 < size) :
    hashToIndex size hash < size := by
  rw [hashToIndex, Nat.div_lt_iff_lt_mul (by decide), Nat.mul_comm size]
  exact Nat.mul_lt_mul_of_pos_right hhash hsize

theorem occupancyHi_le_size (conf : CTableParams K) (t : CTable K V) :
    t.occupancyHi conf ≤ t.size := by
  have hceil : ⌈conf.mul t.size conf.maxOccupancyRate⌉ ≤ t.size :=
    Int.ceil_le.mpr (by exact_mod_cast conf.mul_le t.size)
  rw [occupancyHi]
  omega

/-! ## The invariant -/

/-- A table as the operations leave it. -/
structure Valid (conf : CTableParams K) (t : CTable K V) : Prop where
  probed : Probed CTableEntry.hash (hashToIndex t.size) t.entries
  hashed : ∀ {i e}, t.entries i = some e → e.hash = conf.hashFn t.seed e.key
  distinct : Distinct CTableEntry.key t.entries
  near : ∀ {i e}, t.entries i = some e → i ≤ hashToIndex t.size e.hash + t.maxDisplacement
  inside : ∀ {i e}, t.entries i = some e → i < t.size + t.maxDisplacement
  displacement_le : t.maxDisplacement ≤ t.size - 1
  allowed : within conf.limit t.maxDisplacement
  occupancy : (contents t.entries t.allocSize).length = t.occupancy
  occupancy_le : t.occupancy ≤ t.size

/-- The keys of a table. -/
def keys (t : CTable K V) : List K := (contents t.entries t.allocSize).map CTableEntry.key

/-- No stretch of buckets is wanted by more keys than it and the slots behind it that the limit
allows can hold. -/
def Spread (conf : CTableParams K) (seed size : Nat) (keys : List K) : Prop :=
  ∀ limit ∈ conf.limit,
    Foundation.Spread limit (keys.map fun key => hashToIndex size (conf.hashFn seed key))

/-- A computation returns something wanted if the keys are spread, and fails at the limit
otherwise. -/
def Limited {α : Type} (spread : Prop) (x : Except CTableFault (CTable K V × α))
    (wanted : CTable K V → α → Prop) : Prop :=
  (spread ∧ ∃ t r, x = .ok (t, r) ∧ wanted t r) ∨ (¬ spread ∧ x = .error .displaced)

/-- The finite map that a table is. -/
def Holds (t : CTable K V) (m : K → Option V) : Prop :=
  ∀ key value, m key = some value ↔ ∃ e : CTableEntry K V,
    (∃ i, t.entries i = some e) ∧ e.key = key ∧ e.value = value

variable {m : K → Option V} {e : CTableEntry K V} {fuel : Nat}

theorem Holds.eq_none_iff (h : Holds t m) :
    m key = none ↔ ∀ i e, t.entries i = some e → e.key ≠ key := by
  constructor
  · intro hnone i e he hkey
    have hsome := (h key e.value).mpr ⟨e, ⟨i, he⟩, hkey, rfl⟩
    rw [hnone] at hsome
    cases hsome
  · intro hall
    by_contra hne
    obtain ⟨value, hvalue⟩ := Option.ne_none_iff_exists'.mp hne
    obtain ⟨e, ⟨i, he⟩, hkey, -⟩ := (h key value).mp hvalue
    exact hall i e he hkey

theorem Valid.lt_alloc (h : Valid conf t) (he : t.entries i = some e) : i < t.allocSize := by
  have hin := h.inside he
  have hle := h.displacement_le
  rw [allocSize]
  omega

theorem Valid.size_pos (h : Valid conf t) (he : t.entries i = some e) : 0 < t.size := by
  have hin := h.inside he
  have hle := h.displacement_le
  omega

/-- Behind every bucket there is an empty slot of the array, not further away than the table is
full. -/
theorem Valid.exists_empty (h : Valid conf t) {start : Nat} (hstart : start < t.size) :
    ∃ z, start ≤ z ∧ t.entries z = none ∧ (∀ j, start ≤ j → j < z → t.entries j ≠ none) ∧
      z ≤ start + t.occupancy ∧ z < t.allocSize := by
  have hout : t.entries t.allocSize = none := by
    by_contra hne
    obtain ⟨e, he⟩ := Option.ne_none_iff_exists'.mp hne
    exact Nat.lt_irrefl _ (h.lt_alloc he)
  have hex : ∃ z, start ≤ z ∧ t.entries z = none :=
    ⟨t.allocSize, by rw [allocSize]; omega, hout⟩
  obtain ⟨hle, hnone⟩ := Nat.find_spec hex
  have hrun : ∀ j, start ≤ j → j < Nat.find hex → t.entries j ≠ none :=
    fun j hj hlt hj' => Nat.find_min hex hlt ⟨hj, hj'⟩
  have hlast : Nat.find hex ≤ t.allocSize := Nat.find_min' hex ⟨by rw [allocSize]; omega, hout⟩
  have hlen := length_run_le hrun hlast
  rw [h.occupancy] at hlen
  have hocc := h.occupancy_le
  refine ⟨Nat.find hex, hle, hnone, hrun, by omega, ?_⟩
  rw [allocSize]
  omega

/-! ## The loops -/

theorem slotAt_eq (hi : i < t.allocSize) : t.slotAt i = .ok (t.entries i) := if_pos hi

theorem hashOf_eq (hi : i < t.allocSize) :
    t.hashOf i = .ok (hashAt CTableEntry.hash hashMax t.entries i) := if_pos hi

theorem setSlot_eq (hi : i < t.allocSize) (slot : Option (CTableEntry K V)) :
    t.setSlot i slot = .ok { t with entries := Function.update t.entries i slot } := if_pos hi

theorem hashAt_empty (hz : t.entries z = none) :
    hashAt CTableEntry.hash hashMax t.entries z = hashMax := by
  rw [hashAt, hz]
  rfl

theorem skipBelow_ok (hz : t.entries z = none) (hlt : z < t.allocSize) (hhash : hash < hashMax)
    (hi : i ≤ z) (hfuel : z < i + fuel) :
    ∃ a, t.skipBelow hash fuel i = .ok a ∧ i ≤ a ∧ a ≤ z ∧
      (∀ j, i ≤ j → j < a → hashAt CTableEntry.hash hashMax t.entries j < hash) ∧
      hash ≤ hashAt CTableEntry.hash hashMax t.entries a := by
  induction fuel generalizing i with
  | zero => omega
  | succ fuel ih =>
    rw [skipBelow, bind_of_eq_ok (hashOf_eq (by omega))]
    split
    · next hbelow =>
      have hne : i ≠ z := by
        rintro rfl
        rw [hashAt_empty hz] at hbelow
        omega
      obtain ⟨a, ha, hle, haz, hall, hge⟩ := ih (i := i + 1) (by omega) (by omega)
      refine ⟨a, ha, by omega, haz, ?_, hge⟩
      intro j hj hja
      rcases Nat.lt_or_eq_of_le hj with hlt' | rfl
      · exact hall j hlt' hja
      · exact hbelow
    · next hge => exact ⟨i, rfl, le_rfl, hi, by omega, Nat.le_of_not_lt hge⟩

theorem skipFull_ok (hz : t.entries z = none) (hlt : z < t.allocSize)
    (hrun : ∀ j, i ≤ j → j < z → t.entries j ≠ none) (hi : i ≤ z)
    (hfuel : z < i + fuel) : t.skipFull fuel i = .ok z := by
  induction fuel generalizing i with
  | zero => omega
  | succ fuel ih =>
    rw [skipFull, bind_of_eq_ok (slotAt_eq (by omega))]
    rcases Nat.lt_or_eq_of_le hi with hiz | rfl
    · rw [if_pos (Option.isSome_iff_ne_none.mpr (hrun i le_rfl hiz))]
      exact ih (fun j hj => hrun j (by omega)) hiz (by omega)
    · rw [hz]
      rfl

theorem scanEqual_ok [DecidableEq K] (hash : Nat) (key : K) (hz : t.entries z = none)
    (hlt : z < t.allocSize) (hi : i ≤ z) (hfuel : z < i + fuel) :
    ∃ b found, t.scanEqual hash key fuel i = .ok (b, found) ∧ i ≤ b ∧ b ≤ z ∧
      (∀ j e, i ≤ j → j < b → t.entries j = some e → e.hash = hash ∧ e.key ≠ key) ∧
      (∀ j, i ≤ j → j < b → t.entries j ≠ none) ∧
      if found then ∃ e, t.entries b = some e ∧ e.hash = hash ∧ e.key = key
      else ∀ e, t.entries b = some e → e.hash ≠ hash := by
  induction fuel generalizing i with
  | zero => omega
  | succ fuel ih =>
    rw [scanEqual, bind_of_eq_ok (slotAt_eq (by omega))]
    cases hslot : t.entries i with
    | none =>
      refine ⟨i, false, rfl, le_rfl, hi, by omega, by omega, ?_⟩
      intro e he
      rw [hslot] at he
      cases he
    | some e =>
      simp only
      split
      · next hhash =>
        split
        · next hkey =>
          refine ⟨i, true, rfl, le_rfl, hi, by omega, by omega, ?_⟩
          exact ⟨e, hslot, hhash, hkey⟩
        · next hkey =>
          have hne : i ≠ z := by
            rintro rfl
            rw [hz] at hslot
            cases hslot
          obtain ⟨b, found, hb, hib, hbz, hall, hrun, hfound⟩ :=
            ih (i := i + 1) (by omega) (by omega)
          refine ⟨b, found, hb, by omega, hbz, ?_, ?_, hfound⟩
          · intro j x hj hjb hx
            rcases Nat.lt_or_eq_of_le hj with hlt' | rfl
            · exact hall j x hlt' hjb hx
            · obtain rfl := Option.mem_unique hslot hx
              exact ⟨hhash, hkey⟩
          · intro j hj hjb
            rcases Nat.lt_or_eq_of_le hj with hlt' | rfl
            · exact hrun j hlt' hjb
            · rw [hslot]
              exact some_ne_none e
      · next hhash =>
        refine ⟨i, false, rfl, le_rfl, hi, by omega, by omega, ?_⟩
        intro x hx
        obtain rfl := Option.mem_unique hslot hx
        exact hhash

/-- **The entries with the hash of a key are where a search for the hash stops**: a scan from
there finds the key if it is present. -/
theorem Valid.found_iff (h : Valid conf t) {a b : Nat} {found : Bool}
    (hstart : hashToIndex t.size (conf.hashFn t.seed key) ≤ a)
    (hbelow : ∀ j, hashToIndex t.size (conf.hashFn t.seed key) ≤ j → j < a →
      hashAt CTableEntry.hash hashMax t.entries j < conf.hashFn t.seed key)
    (hge : conf.hashFn t.seed key ≤ hashAt CTableEntry.hash hashMax t.entries a) (hab : a ≤ b)
    (hall : ∀ j e, a ≤ j → j < b → t.entries j = some e →
      e.hash = conf.hashFn t.seed key ∧ e.key ≠ key) (hfound : if found then
        ∃ e, t.entries b = some e ∧ e.hash = conf.hashFn t.seed key ∧ e.key = key
      else ∀ e, t.entries b = some e → e.hash ≠ conf.hashFn t.seed key) (he : t.entries i = some e)
    (hkey : e.key = key) : found = true ∧ i = b := by
  have hhash : e.hash = conf.hashFn t.seed key := by rw [h.hashed he, hkey]
  rw [← hhash] at hstart hbelow hge hall hfound
  obtain ⟨hai, -⟩ := h.probed.run_of_hash (j := a) he hbelow hstart hge
  have hbi : b ≤ i := by
    by_contra hlt
    exact (hall i e hai (by omega) he).2 hkey
  obtain ⟨x, hx, hxhash⟩ := (h.probed.run_of_hash (j := b) he hbelow hstart hge).2 hab hbi
  cases found with
  | false =>
    exact absurd hxhash (hfound x hx)
  | true =>
    obtain ⟨y, hy, -, hykey⟩ := hfound
    exact ⟨rfl, h.distinct he hy (hkey.trans hykey.symm)⟩

/-! ## Looking up -/

theorem bucket_lt (conf : CTableParams K) (hsize : 0 < t.size) (key : K) :
    hashToIndex t.size (conf.hashFn t.seed key) < t.size :=
  hashToIndex_lt (conf.hashFn_lt t.seed key) hsize

/-- **`lookup_ptr`** finds the entry of a key that is present, and none for one that is not. -/
theorem Valid.lookupPtr [DecidableEq K] (h : Valid conf t) (hsize : 0 < t.size) (key : K) :
    ∃ p, t.lookupPtr conf key = .ok p ∧
      match p with
      | some i => ∃ e, t.entries i = some e ∧ e.key = key
      | none => ∀ i e, t.entries i = some e → e.key ≠ key := by
  have hstart := bucket_lt conf hsize key
  have hdisp := h.displacement_le
  obtain ⟨z, hz, hempty, -, -, hlt⟩ := h.exists_empty hstart
  have hhash := conf.hashFn_lt t.seed key
  have hread : ∀ k < t.maxDisplacement + 1,
      t.hashOf (hashToIndex t.size (conf.hashFn t.seed key) + k) =
        .ok (hashAt CTableEntry.hash hashMax t.entries
          (hashToIndex t.size (conf.hashFn t.seed key) + k)) := by
    intro k hk
    refine hashOf_eq ?_
    rw [allocSize]
    omega
  have hmono : ∀ j k, j ≤ k → k < t.maxDisplacement + 1 →
      conf.hashFn t.seed key ≤ hashAt CTableEntry.hash hashMax t.entries
        (hashToIndex t.size (conf.hashFn t.seed key) + j) →
      conf.hashFn t.seed key ≤ hashAt CTableEntry.hash hashMax t.entries
        (hashToIndex t.size (conf.hashFn t.seed key) + k) := by
    intro j k hjk _ hle
    exact h.probed.window (hashToIndex_mono _) hhash.le (Nat.le_add_right _ _)
      (Nat.add_le_add_left hjk _) hle
  obtain ⟨a, ha, hfirst⟩ := BinarySearch.search_ok (Nat.succ_pos t.maxDisplacement) hread hmono
  generalize hs : hashToIndex t.size (conf.hashFn t.seed key) = start at *
  have hbelow : ∀ j, start ≤ j → j < start + a →
      hashAt CTableEntry.hash hashMax t.entries j < conf.hashFn t.seed key := by
    intro j hj hja
    obtain ⟨k, rfl⟩ := Nat.exists_eq_add_of_le hj
    exact hfirst.below k (by omega)
  have haz : start + a ≤ z := by
    by_contra hlt'
    have hz' := hbelow z hz (by omega)
    rw [hashAt_empty hempty] at hz'
    omega
  obtain ⟨b, found, hscan, hab, -, hall, -, hfound⟩ :=
    scanEqual_ok (conf.hashFn t.seed key) key hempty hlt haz
      (show z < start + a + t.loopFuel by rw [loopFuel]; omega)
  refine ⟨if found then some b else none, ?_, ?_⟩
  · rw [CTable.lookupPtr, hs, bind_of_eq_ok ha, bind_of_eq_ok hscan]
    rfl
  cases found with
  | true =>
    obtain ⟨e, he, -, hkey⟩ := hfound
    exact ⟨e, he, hkey⟩
  | false =>
    intro i e he hkey
    -- the entry is in the window, so the search has stopped at or before it
    have hge : conf.hashFn t.seed key ≤ hashAt CTableEntry.hash hashMax t.entries (start + a) := by
      rcases hfirst.found with hge | hlast
      · exact hge
      · have hnear := h.near he
        have hhome := h.probed.home_le he
        rw [h.hashed he, hkey, hs] at hnear hhome
        have hei : hashAt CTableEntry.hash hashMax t.entries i = conf.hashFn t.seed key := by
          rw [hashAt, he, ← hkey, ← h.hashed he]
          rfl
        rcases Nat.lt_or_ge i (start + a) with hlt' | hge
        · have hi := hbelow i hhome hlt'
          omega
        · obtain rfl : i = start + a := by omega
          exact hei.ge
    subst hs
    exact absurd (h.found_iff (Nat.le_add_right _ _) hbelow hge hab hall hfound he hkey).1
      Bool.false_ne_true

theorem Valid.lookup_value [DecidableEq K] (h : Valid conf t) (hm : Holds t m) (hsize : 0 < t.size)
    (key : K) :
    ∃ p, t.lookupPtr conf key = .ok p ∧ (p.bind t.entries).map CTableEntry.value = m key := by
  obtain ⟨p, hp, hfound⟩ := h.lookupPtr hsize key
  refine ⟨p, hp, ?_⟩
  cases p with
  | none => exact (hm.eq_none_iff.mpr hfound).symm
  | some i =>
    obtain ⟨e, he, rfl⟩ := hfound
    rw [(hm e.key e.value).mpr ⟨e, ⟨i, he⟩, rfl, rfl⟩, bind_some, he]
    rfl

/-! ## Adding -/

theorem increase_cases (conf : CTableParams K) (t : CTable K V) (d : Nat) :
    (t.increaseMaxDisplacement conf d = .ok { t with maxDisplacement := max t.maxDisplacement d } ∧
      (within conf.limit t.maxDisplacement →
        within conf.limit (max t.maxDisplacement d))) ∨
    (t.increaseMaxDisplacement conf d = .error .displaced ∧ ¬ within conf.limit d) := by
  unfold increaseMaxDisplacement
  split
  · next hle =>
    rw [max_eq_left hle]
    exact .inl ⟨rfl, id⟩
  · next hgt =>
    rw [max_eq_right (Nat.le_of_not_le hgt)]
    split
    · next hwithin => exact .inl ⟨rfl, fun _ => hwithin⟩
    · next hwithin => exact .inr ⟨rfl, hwithin⟩

/-- The loop of `add` moves entries up, and notes how far they are displaced, as long as the limit
allows it. -/
theorem displace_cases (conf : CTableParams K) (index : Nat) {d : Nat} (hlt : index + d < t.allocSize)
    (hfull : ∀ j, index ≤ j → j < index + d → ∃ x, t.entries j = some x)
    (hwithin : within conf.limit t.maxDisplacement) :
    (∃ M, t.displace conf index d = .ok { t with
        entries := fun j => if index < j ∧ j ≤ index + d then t.entries (j - 1) else t.entries j
        maxDisplacement := M } ∧
      within conf.limit M ∧ t.maxDisplacement ≤ M ∧
      (∀ j x, index ≤ j → j < index + d → t.entries j = some x →
        j + 1 - hashToIndex t.size x.hash ≤ M) ∧
      ∀ B, t.maxDisplacement ≤ B → (∀ j x, index ≤ j → j < index + d → t.entries j = some x →
        j + 1 - hashToIndex t.size x.hash ≤ B) → M ≤ B) ∨
    (t.displace conf index d = .error .displaced ∧
      ∃ j x, index ≤ j ∧ j < index + d ∧ t.entries j = some x ∧
        ¬ within conf.limit (j + 1 - hashToIndex t.size x.hash)) := by
  induction d generalizing t with
  | zero =>
    refine .inl ⟨t.maxDisplacement, ?_, hwithin, le_rfl, by omega, fun B hB _ => hB⟩
    have hsame : (fun j => if index < j ∧ j ≤ index + 0 then t.entries (j - 1) else t.entries j) =
        t.entries := by
      funext j
      rw [if_neg (by omega)]
    rw [hsame]
    rfl
  | succ d ih =>
    obtain ⟨x, hx⟩ := hfull (index + d) (by omega) (by omega)
    have hslot : t.slotAt (index + d) = .ok (some x) := by rw [slotAt_eq (by omega), hx]
    have hother : ∀ j, j ≠ index + d + 1 →
        Function.update t.entries (index + d + 1) (some x) j = t.entries j :=
      fun j hj => update_of_ne hj _ _
    have hstep : t.displace conf index (d + 1) =
        increaseMaxDisplacement conf { t with
            entries := Function.update t.entries (index + d + 1) (some x) }
          (index + d + 1 - hashToIndex t.size x.hash) >>= fun t => t.displace conf index d := by
      rw [displace, bind_of_eq_ok hslot,
        bind_of_eq_ok (setSlot_eq (show index + d + 1 < t.allocSize by omega) (some x))]
      rfl
    rw [hstep]
    rcases increase_cases conf { t with
        entries := Function.update t.entries (index + d + 1) (some x) }
      (index + d + 1 - hashToIndex t.size x.hash) with ⟨hmax, hwithin'⟩ | ⟨hraise, hfar⟩
    swap
    · exact .inr ⟨bind_of_eq_error hraise, index + d, x, by omega, by omega, hx, hfar⟩
    rw [bind_of_eq_ok hmax]
    rcases ih (t := { t with
        entries := Function.update t.entries (index + d + 1) (some x)
        maxDisplacement := max t.maxDisplacement (index + d + 1 - hashToIndex t.size x.hash) })
      (show index + d < t.allocSize by omega) (by
        intro j hj hjd
        obtain ⟨y, hy⟩ := hfull j hj (by omega)
        exact ⟨y, (hother j (by omega)).trans hy⟩) (hwithin' hwithin) with
      ⟨M, hM, hMwithin, hle, hall, hleast⟩ | ⟨hraise, j, y, hj, hjd, hy, hfar⟩
    swap
    · exact .inr ⟨hraise, j, y, hj, by omega, (hother j (by omega)).symm.trans hy, hfar⟩
    refine .inl ⟨M, ?_, hMwithin, (le_max_left _ _).trans hle, ?_, ?_⟩
    · refine Eq.trans hM (congrArg (fun f => Except.ok (CTable.mk t.seed t.size t.occupancy M f)) ?_)
      funext j
      show (if index < j ∧ j ≤ index + d then
          Function.update t.entries (index + d + 1) (some x) (j - 1)
        else Function.update t.entries (index + d + 1) (some x) j) = _
      by_cases hlast : j = index + d + 1
      · subst hlast
        rw [if_neg (by omega), update_self, if_pos (by omega), ← hx]
        rfl
      · by_cases hin : index < j ∧ j ≤ index + d
        · rw [if_pos hin, hother _ (by omega), if_pos (by omega)]
        · rw [if_neg hin, hother _ hlast, if_neg (by omega)]
    · intro j y hj hjd hy
      rcases Nat.lt_or_eq_of_le (Nat.le_of_lt_succ hjd) with hlt' | rfl
      · exact hall j y hj hlt' ((hother j (by omega)).trans hy)
      · obtain rfl := Option.mem_unique hx hy
        exact (le_max_right _ _).trans hle
    · intro B hB hbound
      refine hleast B (max_le hB (hbound (index + d) x (by omega) (by omega) hx)) ?_
      intro j y hj hjd hy
      exact hbound j y hj (by omega) ((hother j (by omega)).symm.trans hy)

/-- Writing the new entry behind the moved ones opens a slot for it. -/
theorem update_moved_eq (f : Slots (CTableEntry K V)) (index d : Nat) (e : CTableEntry K V) :
    Function.update (fun j => if index < j ∧ j ≤ index + d then f (j - 1) else f j) index (some e) =
      openAt f index (index + d) e := by
  funext j
  rw [openAt]
  by_cases hj : j = index
  · subst hj
    rw [update_self, if_neg (Nat.lt_irrefl _), if_pos rfl]
  · rw [update_of_ne hj]
    by_cases hlt : j < index
    · rw [if_neg (by omega), if_pos hlt]
    · rw [if_neg hlt, if_neg hj]
      by_cases hle : j ≤ index + d
      · rw [if_pos (by omega), if_pos hle]
      · rw [if_neg (by omega), if_neg hle]

theorem update_eq_openAt (f : Slots (CTableEntry K V)) (index : Nat) (e : CTableEntry K V) :
    Function.update f index (some e) = openAt f index index e := by
  have hsame : (fun j => if index < j ∧ j ≤ index + 0 then f (j - 1) else f j) = f := by
    funext j
    rw [if_neg (by omega)]
  have hmoved := update_moved_eq f index 0 e
  rwa [hsame] at hmoved

theorem makeRoom_eq (conf : CTableParams K) (hi : i ≤ z) (hz : t.entries z = none) (hlt : z < t.allocSize)
    (hrun : ∀ j, i ≤ j → j < z → t.entries j ≠ none) :
    t.makeRoom conf i = t.displace conf i (z - i) := by
  rw [makeRoom, bind_of_eq_ok (slotAt_eq (by omega))]
  rcases Nat.lt_or_eq_of_le hi with hiz | rfl
  · rw [if_pos (Option.isSome_iff_ne_none.mpr (hrun i le_rfl hiz)),
      bind_of_eq_ok (skipFull_ok hz hlt hrun hi (by rw [loopFuel]; omega))]
  · rw [hz, Nat.sub_self]
    rfl

/-! ## Displacements -/

theorem within_mono {limit : Option Nat} {d d' : Nat} (h : within limit d) (hle : d' ≤ d) :
    within limit d' := by
  cases limit with
  | none => rfl
  | some n => exact decide_eq_true (hle.trans (of_decide_eq_true h))

/-- **The limit is kept** if and only if the keys are spread. -/
theorem within_iff_spread {seed n : Nat} {f : Slots (CTableEntry K V)}
    (h : Probed CTableEntry.hash (hashToIndex size) f)
    (hhashed : ∀ {i e}, f i = some e → e.hash = conf.hashFn seed e.key)
    (hout : ∀ {i e}, f i = some e → i < n) :
    (∀ i e, f i = some e → within conf.limit (i - hashToIndex size e.hash)) ↔
      Spread conf seed size ((contents f n).map CTableEntry.key) := by
  have hhomes : ((contents f n).map CTableEntry.key).map
      (fun key => hashToIndex size (conf.hashFn seed key)) =
      (contents f n).map fun e => hashToIndex size e.hash := by
    rw [List.map_map]
    refine map_congr_left fun e he => ?_
    obtain ⟨i, -, hi⟩ := mem_contents.mp he
    exact congrArg (hashToIndex size) (hhashed hi).symm
  rw [Spread, hhomes]
  cases conf.limit with
  | none => exact iff_of_true (fun _ _ _ => rfl) (by rintro _ ⟨⟩)
  | some limit =>
    have hnear := h.near_iff (hashToIndex_mono _) limit hout
    constructor
    · rintro hall _ ⟨⟩
      exact hnear.mp fun i e he => Nat.sub_le_iff_le_add'.mp (of_decide_eq_true (hall i e he))
    · intro hspread i e he
      exact decide_eq_true (Nat.sub_le_iff_le_add'.mpr (hnear.mpr (hspread limit rfl) i e he))

theorem Valid.spread (h : Valid conf t) : Spread conf t.seed t.size t.keys :=
  (within_iff_spread h.probed h.hashed h.lt_alloc).mp fun _ _ he =>
    within_mono h.allowed (Nat.sub_le_iff_le_add'.mpr (h.near he))

theorem Spread.of_subperm {seed : Nat} {ks ks' : List K} (h : Spread conf seed size ks)
    (hsub : ks'.Subperm ks) : Spread conf seed size ks' :=
  fun limit hlimit => (h limit hlimit).of_subperm <| by
    obtain ⟨l, hperm, hsub⟩ := hsub
    exact ⟨_, hperm.map _, hsub.map _⟩

theorem Spread.perm_iff {seed : Nat} {ks ks' : List K} (hperm : ks.Perm ks') :
    Spread conf seed size ks ↔ Spread conf seed size ks' :=
  ⟨fun h => h.of_subperm hperm.symm.subperm, fun h => h.of_subperm hperm.subperm⟩

theorem Spread.of_unlimited (h : conf.limit = none) (seed size : Nat) (ks : List K) :
    Spread conf seed size ks := by
  rw [Spread, h]
  rintro _ ⟨⟩

section Limited

variable {α : Type} {spread : Prop} {x : Except CTableFault (CTable K V × α)}
  {wanted : CTable K V → α → Prop}

theorem Limited.ok (h : Limited spread x wanted) (hspread : spread) :
    ∃ t r, x = .ok (t, r) ∧ wanted t r :=
  (h.resolve_right fun hnot => hnot.1 hspread).2

theorem Limited.of_ok (h : Limited spread x wanted) {r : α} (hx : x = .ok (t, r)) :
    spread ∧ wanted t r := by
  rcases h with ⟨hspread, t', r', heq, hwanted⟩ | ⟨-, herror⟩
  · obtain ⟨rfl, rfl⟩ := ok_pair_inj (hx.symm.trans heq)
    exact ⟨hspread, hwanted⟩
  · cases hx.symm.trans herror

theorem Limited.imp {wanted' : CTable K V → α → Prop} (h : Limited spread x wanted)
    (himp : ∀ t r, wanted t r → wanted' t r) : Limited spread x wanted' :=
  h.imp_left fun ⟨hspread, t, r, heq, hwanted⟩ => ⟨hspread, t, r, heq, himp t r hwanted⟩

/-- What follows a computation, without a further condition. -/
theorem Limited.bind {β : Type} {f : CTable K V × α → Except CTableFault (CTable K V × β)}
    {wanted' : CTable K V → β → Prop} (h : Limited spread x wanted)
    (hf : ∀ t r, wanted t r → ∃ t' r', f (t, r) = .ok (t', r') ∧ wanted' t' r') :
    Limited spread (x >>= f) wanted' := by
  rcases h with ⟨hspread, t, r, heq, hwanted⟩ | ⟨hnot, herror⟩
  · rw [bind_of_eq_ok heq]
    exact .inl ⟨hspread, hf t r hwanted⟩
  · exact .inr ⟨hnot, bind_of_eq_error herror⟩

end Limited

/-- The slots of a table with a new entry, put where a search for its hash stops. -/
theorem Valid.opened_entries (h : Valid conf t) (value : V) {index empty : Nat}
    (hnew : ∀ i e, t.entries i = some e → e.key ≠ key)
    (hstart : hashToIndex t.size (conf.hashFn t.seed key) ≤ index) (hle : index ≤ empty)
    (hempty : t.entries empty = none) (hlt : empty < t.allocSize)
    (hrun : ∀ j, hashToIndex t.size (conf.hashFn t.seed key) ≤ j → j < empty → t.entries j ≠ none)
    (hbefore : ∀ j x, hashToIndex t.size (conf.hashFn t.seed key) ≤ j → j < index →
      t.entries j = some x → x.hash ≤ conf.hashFn t.seed key)
    (hafter : ∀ x, t.entries index = some x → conf.hashFn t.seed key ≤ x.hash) :
    ∃ g, g = openAt t.entries index empty ⟨conf.hashFn t.seed key, key, value⟩ ∧
      Probed CTableEntry.hash (hashToIndex t.size) g ∧
      (∀ {i e}, g i = some e → e.hash = conf.hashFn t.seed e.key) ∧
      Distinct CTableEntry.key g ∧
      (∀ {i e}, g i = some e → i < t.allocSize) ∧
      (contents g t.allocSize).Perm
        (⟨conf.hashFn t.seed key, key, value⟩ :: contents t.entries t.allocSize) := by
  have hdistinct : Distinct CTableEntry.key
      (openAt t.entries index empty ⟨conf.hashFn t.seed key, key, value⟩) :=
    Distinct.openAt h.distinct hle hnew
  have hout : ∀ {i e}, openAt t.entries index empty ⟨conf.hashFn t.seed key, key, value⟩ i =
      some e → i < t.allocSize := by
    intro i e he
    rcases openAt_eq_some hle he with ⟨rfl, -⟩ | ⟨-, hx⟩ | ⟨j, rfl, -, hj, -⟩ | ⟨-, hx⟩
    · exact hle.trans_lt hlt
    · exact h.lt_alloc hx
    · omega
    · exact h.lt_alloc hx
  refine ⟨_, rfl, h.probed.openAt (hashToIndex_mono _) hstart hle hrun hbefore hafter, ?_,
    hdistinct, hout, contents_perm _ hdistinct ?_ (fun _ _ => hout) ?_⟩
  · intro i e he
    rcases openAt_eq_some hle he with ⟨-, rfl⟩ | ⟨-, hx⟩ | ⟨j, -, -, -, hx⟩ | ⟨-, hx⟩
    · rfl
    · exact h.hashed hx
    · exact h.hashed hx
    · exact h.hashed hx
  · rw [map_cons, nodup_cons]
    refine ⟨?_, Distinct.nodup h.distinct _⟩
    intro hmem
    obtain ⟨e, he, hkey⟩ := mem_map.mp hmem
    obtain ⟨i, -, hi⟩ := mem_contents.mp he
    exact hnew i e hi hkey
  · intro x
    rw [openAt_elements hle hempty, mem_cons, mem_contents]
    constructor
    · rintro (rfl | ⟨i, hi⟩)
      · exact .inl rfl
      · exact .inr ⟨i, h.lt_alloc hi, hi⟩
    · rintro (rfl | ⟨i, -, hi⟩)
      · exact .inl rfl
      · exact .inr ⟨i, hi⟩

/-- A table with a new entry, displaced no further than the limit allows. -/
theorem Valid.opened (h : Valid conf t) (hroom : t.occupancy + 1 ≤ t.size) (value : V)
    {index empty M : Nat} (hnew : ∀ i e, t.entries i = some e → e.key ≠ key)
    (hstart : hashToIndex t.size (conf.hashFn t.seed key) ≤ index) (hle : index ≤ empty)
    (hempty : t.entries empty = none) (hlt : empty < t.allocSize)
    (hrun : ∀ j, hashToIndex t.size (conf.hashFn t.seed key) ≤ j → j < empty → t.entries j ≠ none)
    (hbefore : ∀ j x, hashToIndex t.size (conf.hashFn t.seed key) ≤ j → j < index →
      t.entries j = some x → x.hash ≤ conf.hashFn t.seed key)
    (hafter : ∀ x, t.entries index = some x → conf.hashFn t.seed key ≤ x.hash)
    (hM : t.maxDisplacement ≤ M) (hMle : M ≤ t.size - 1) (hMwithin : within conf.limit M)
    (hMnew : index - hashToIndex t.size (conf.hashFn t.seed key) ≤ M)
    (hMmoved : ∀ j x, index ≤ j → j < empty → t.entries j = some x →
      j + 1 - hashToIndex t.size x.hash ≤ M) :
    Spread conf t.seed t.size (key :: t.keys) ∧ ∃ t' : CTable K V, t' = { t with
      entries := openAt t.entries index empty ⟨conf.hashFn t.seed key, key, value⟩
      maxDisplacement := M
      occupancy := t.occupancy + 1 } ∧ Valid conf t' ∧ t'.keys.Perm (key :: t.keys) := by
  obtain ⟨g, hg, hprobed, hhashed, hdistinct, hout, hperm⟩ :=
    h.opened_entries value hnew hstart hle hempty hlt hrun hbefore hafter
  have hnear : ∀ {i e}, g i = some e → i ≤ hashToIndex t.size e.hash + M := by
    intro i e he
    rw [hg] at he
    rcases openAt_eq_some hle he with ⟨rfl, rfl⟩ | ⟨-, hx⟩ | ⟨j, rfl, hj, hlt, hx⟩ | ⟨-, hx⟩
    · show i ≤ hashToIndex t.size (conf.hashFn t.seed key) + M
      omega
    · exact (h.near hx).trans (Nat.add_le_add_left hM _)
    · have hmoved := hMmoved j e hj hlt hx
      omega
    · exact (h.near hx).trans (Nat.add_le_add_left hM _)
  have hkeys : ((contents g t.allocSize).map CTableEntry.key).Perm (key :: t.keys) :=
    hperm.map CTableEntry.key
  refine ⟨(Spread.perm_iff hkeys).mp ((within_iff_spread hprobed hhashed hout).mp fun i e he =>
    within_mono hMwithin (Nat.sub_le_iff_le_add'.mpr (hnear he))), _, rfl, ?_⟩
  rw [← hg]
  refine ⟨⟨hprobed, hhashed, hdistinct, hnear, fun {i e} he => ?_, hMle, hMwithin,
    hperm.length_eq.trans (congrArg (· + 1) h.occupancy), hroom⟩, hkeys⟩
  have hbucket := bucket_lt conf (show 0 < t.size by omega) e.key
  rw [← hhashed he] at hbucket
  have hnear' := hnear he
  show i < t.size + M
  omega

theorem Valid.replaced (h : Valid conf t) (he : t.entries i = some e) (value : V) :
    Valid conf { t with
      entries := Function.update t.entries i (some ⟨conf.hashFn t.seed e.key, e.key, value⟩) } := by
  have hold : ∀ {j x},
      Function.update t.entries i (some ⟨conf.hashFn t.seed e.key, e.key, value⟩) j = some x →
        ∃ y, t.entries j = some y ∧ y.hash = x.hash ∧ y.key = x.key := by
    intro j x hx
    by_cases hj : j = i
    · subst hj
      rw [update_self] at hx
      cases hx
      exact ⟨e, he, h.hashed he, rfl⟩
    · rw [update_of_ne hj] at hx
      exact ⟨x, hx, rfl, rfl⟩
  have hcongr : ∀ {α : Type} (r : CTableEntry K V → α),
      r ⟨conf.hashFn t.seed e.key, e.key, value⟩ = r e → ∀ j,
      (Function.update t.entries i (some ⟨conf.hashFn t.seed e.key, e.key, value⟩) j).map r =
        (t.entries j).map r := by
    intro α r hr j
    by_cases hj : j = i
    · subst hj
      rw [update_self, he, map_some, map_some, hr]
    · rw [update_of_ne hj]
  constructor
  · exact h.probed.congr (hcongr _ (h.hashed he).symm)
  · intro j x hx
    obtain ⟨y, hy, hhash, hkey⟩ := hold hx
    rw [← hhash, ← hkey]
    exact h.hashed hy
  · exact Distinct.congr h.distinct (hcongr _ rfl)
  · intro j x hx
    obtain ⟨y, hy, hhash, -⟩ := hold hx
    rw [← hhash]
    exact h.near hy
  · intro j x hx
    obtain ⟨y, hy, -⟩ := hold hx
    exact h.inside hy
  · exact h.displacement_le
  · exact h.allowed
  · exact (length_contents_congr (hcongr CTableEntry.key rfl) _).trans h.occupancy
  · exact h.occupancy_le

/-- What `add` does to a map, and what it raises. -/
def documentedAdd [DecidableEq K] (m : K → Option V) (key : K) (value : V)
    (updatesAllowed : UpdatesAllowed) : (K → Option V) × Except CTableRaise Unit :=
  match m key, updatesAllowed with
  | some _, .no => (m, .error .keyPresent)
  | none, .required => (m, .error .keyNotFound)
  | _, _ => (Function.update m key (some value), .ok ())

theorem documentedAdd_absent [DecidableEq K] (h : m key = none) (value : V)
    (updatesAllowed : UpdatesAllowed) :
    documentedAdd m key value updatesAllowed =
      if updatesAllowed = .required then (m, .error .keyNotFound)
      else (Function.update m key (some value), .ok ()) := by
  unfold documentedAdd
  rw [h]
  cases updatesAllowed <;> rfl

theorem documentedAdd_present [DecidableEq K] {old : V} (h : m key = some old) (value : V)
    (updatesAllowed : UpdatesAllowed) :
    documentedAdd m key value updatesAllowed =
      if updatesAllowed = .no then (m, .error .keyPresent)
      else (Function.update m key (some value), .ok ()) := by
  unfold documentedAdd
  rw [h]
  cases updatesAllowed <;> rfl

/-- A table in which an entry takes the place of those with its key holds the map with a new
value for the key. -/
theorem Holds.updated [DecidableEq K] {t' : CTable K V} (hm : Holds t m)
    (hsame : ∀ x, (∃ i, t'.entries i = some x) ↔
      x = e ∨ (∃ i, t.entries i = some x) ∧ x.key ≠ e.key) :
    Holds t' (Function.update m e.key (some e.value)) := by
  intro k v
  by_cases hk : k = e.key
  · subst hk
    rw [update_self]
    constructor
    · intro heq
      exact ⟨e, (hsame e).mpr (.inl rfl), rfl, Option.some.inj heq⟩
    · rintro ⟨x, hx, hxkey, rfl⟩
      rcases (hsame x).mp hx with rfl | ⟨-, hne⟩
      · rfl
      · exact absurd hxkey hne
  · rw [update_of_ne hk, hm k v]
    constructor
    · rintro ⟨x, hx, rfl, hxvalue⟩
      exact ⟨x, (hsame x).mpr (.inr ⟨hx, hk⟩), rfl, hxvalue⟩
    · rintro ⟨x, hx, rfl, hxvalue⟩
      rcases (hsame x).mp hx with rfl | ⟨hx, -⟩
      · exact absurd rfl hk
      · exact ⟨x, hx, rfl, hxvalue⟩

variable [DecidableEq K]

variable (h : Valid conf t)
include h

/-- The two loops of `add` that look for the place of a key. -/
theorem Valid.search (key : K)
    (hz : hashToIndex t.size (conf.hashFn t.seed key) ≤ z) (hempty : t.entries z = none)
    (hlt : z < t.allocSize) :
    ∃ a b found, t.skipBelow (conf.hashFn t.seed key) t.loopFuel
        (hashToIndex t.size (conf.hashFn t.seed key)) = .ok a ∧
      t.scanEqual (conf.hashFn t.seed key) key t.loopFuel a = .ok (b, found) ∧
      hashToIndex t.size (conf.hashFn t.seed key) ≤ a ∧ a ≤ b ∧ b ≤ z ∧
      (∀ j x, hashToIndex t.size (conf.hashFn t.seed key) ≤ j → j < b → t.entries j = some x →
        x.hash ≤ conf.hashFn t.seed key) ∧
      (∀ j x, b ≤ j → t.entries j = some x → conf.hashFn t.seed key ≤ x.hash) ∧
      (if found then ∃ e, t.entries b = some e ∧ e.key = key
        else ∀ j e, t.entries j = some e → e.key ≠ key) := by
  have hhash := conf.hashFn_lt t.seed key
  obtain ⟨a, ha, hsa, haz, hbelow, hge⟩ := skipBelow_ok hempty hlt hhash hz
    (show z < hashToIndex t.size (conf.hashFn t.seed key) + t.loopFuel by rw [loopFuel]; omega)
  obtain ⟨b, found, hb, hab, hbz, hall, -, hfound⟩ :=
    scanEqual_ok (conf.hashFn t.seed key) key hempty hlt haz
      (show z < a + t.loopFuel by rw [loopFuel]; omega)
  refine ⟨a, b, found, ha, hb, hsa, hab, hbz, ?_, ?_, ?_⟩
  · intro j x hj hjb hx
    rcases Nat.lt_or_ge j a with hja | haj
    · have hlow := hbelow j hj hja
      rw [hashAt, hx] at hlow
      exact Nat.le_of_lt hlow
    · exact (hall j x haj hjb hx).1.le
  · intro j x hj hx
    have hle := h.probed.window (hashToIndex_mono _) hhash.le hsa (hab.trans hj) hge
    rwa [hashAt, hx] at hle
  · cases found with
    | true =>
      obtain ⟨e, he, -, hkey⟩ := hfound
      exact ⟨e, he, hkey⟩
    | false =>
      intro j e he hkey
      exact absurd (h.found_iff hsa hbelow hge hab hall hfound he hkey).1 Bool.false_ne_true

variable {updatesAllowed : UpdatesAllowed}

/-- **A new key** is added where the limit allows it. -/
theorem Valid.insert_absent (hroom : t.occupancy + 1 ≤ t.size)
    (hnew : ∀ i e, t.entries i = some e → e.key ≠ key) (value : V)
    (hupd : updatesAllowed ≠ .required) :
    Limited (Spread conf t.seed t.size (key :: t.keys)) (t.insert conf key value updatesAllowed)
      fun t' r => ∃ index, r = .ok index ∧ Valid conf t' ∧ t'.size = t.size ∧
        t'.seed = t.seed ∧ t'.occupancy = t.occupancy + 1 ∧ t'.keys.Perm (key :: t.keys) ∧
        ∀ x, (∃ i, t'.entries i = some x) ↔
          x = ⟨conf.hashFn t.seed key, key, value⟩ ∨ ∃ i, t.entries i = some x := by
  have hsize : 0 < t.size := by omega
  have hbucket := bucket_lt conf hsize key
  obtain ⟨z, hz, hempty, hrun, hnear, hlt⟩ := h.exists_empty hbucket
  have hdisp := h.displacement_le
  have hslot : t.slotAt (hashToIndex t.size (conf.hashFn t.seed key)) =
      .ok (t.entries (hashToIndex t.size (conf.hashFn t.seed key))) := slotAt_eq (by omega)
  rw [insert, bind_of_eq_ok hslot]
  split
  · next hfast =>
    have hnone := Option.isNone_iff_eq_none.mp hfast.1
    obtain ⟨hspread, t', rfl, hvalid, hkeys⟩ := h.opened hroom value hnew le_rfl le_rfl hnone
      (by omega) (by omega) (by omega) (by rw [hnone]; simp) le_rfl hdisp h.allowed
      (by omega) (by omega)
    refine .inl ⟨hspread, _, _, ?_, hashToIndex t.size (conf.hashFn t.seed key), rfl, hvalid, rfl,
      rfl, rfl, hkeys, fun x => openAt_elements le_rfl hnone⟩
    rw [bind_of_eq_ok (setSlot_eq (by omega) _), update_eq_openAt]
    rfl
  · next hslow =>
    obtain ⟨a, b, found, ha, hb, hsa, hab, hbz, hbefore, hafter, hfound⟩ :=
      h.search key hz hempty hlt
    have habsent : found = false := by
      rw [Bool.eq_false_iff]
      rintro rfl
      obtain ⟨e, he, hkey⟩ := hfound
      exact hnew b e he hkey
    have hmoved : ∀ j x, b ≤ j → j < b + (z - b) → t.entries j = some x →
        j + 1 - hashToIndex t.size x.hash ≤ t.size - 1 := by
      intro j x hj hjz hx
      have hhome := hashToIndex_mono t.size (hafter j x hj hx)
      omega
    obtain ⟨g, hg, hprobed, hhashed, hdistinct, hout, hperm⟩ := h.opened_entries value hnew
      (hsa.trans hab) hbz hempty hlt hrun hbefore (fun x => hafter b x le_rfl)
    -- an entry that is displaced too far contradicts the spread of the keys
    have hfar (j : Nat) (x : CTableEntry K V) (hx : g j = some x)
        (hfar : ¬ within conf.limit (j - hashToIndex t.size x.hash)) :
        ¬ Spread conf t.seed t.size (key :: t.keys) := by
      intro hspread
      have hkeys : ((contents g t.allocSize).map CTableEntry.key).Perm (key :: t.keys) :=
        hperm.map CTableEntry.key
      exact hfar ((within_iff_spread hprobed hhashed hout).mpr
        ((Spread.perm_iff hkeys).mpr hspread) j x hx)
    rw [bind_of_eq_ok ha, bind_of_eq_ok hb]
    simp only [habsent, if_neg Bool.false_ne_true]
    rcases increase_cases conf t (b - hashToIndex t.size (conf.hashFn t.seed key)) with
      ⟨hmax, hwithin⟩ | ⟨hraise, hnot⟩
    swap
    · exact .inr ⟨hfar b _ (by rw [hg, openAt_self]) hnot, bind_of_eq_error hraise⟩
    have hroom' := makeRoom_eq conf (t := { t with
        maxDisplacement := max t.maxDisplacement
          (b - hashToIndex t.size (conf.hashFn t.seed key)) }) hbz hempty hlt
      (fun j hj hjz => hrun j (by omega) hjz)
    rw [bind_of_eq_ok hmax, hroom']
    rcases displace_cases conf (t := { t with
        maxDisplacement := max t.maxDisplacement
          (b - hashToIndex t.size (conf.hashFn t.seed key)) }) b (d := z - b)
      (show b + (z - b) < t.allocSize by omega)
      (fun j hj hjz => Option.ne_none_iff_exists'.mp (hrun j (by omega) (by omega)))
      (hwithin h.allowed) with ⟨M, hM, hMwithin, hle, hMmoved, hleast⟩ | ⟨hraise, j, x, hj, hjz, hx, hnot⟩
    swap
    · refine .inr ⟨hfar (j + 1) x ?_ hnot, bind_of_eq_error hraise⟩
      rw [hg, openAt_moved hj (by omega)]
      exact hx
    have hMle := hleast (t.size - 1) (max_le hdisp (by omega)) hmoved
    rw [Nat.add_sub_cancel' hbz] at hM hMmoved
    obtain ⟨hspread, t', rfl, hvalid, hkeys⟩ := h.opened hroom value hnew (hsa.trans hab) hbz hempty
      hlt hrun hbefore (fun x => hafter b x le_rfl) ((le_max_left _ _).trans hle) hMle hMwithin
      ((le_max_right _ _).trans hle) hMmoved
    refine .inl ⟨hspread, _, _, ?_, b, rfl, hvalid, rfl, rfl, rfl, hkeys,
      fun x => openAt_elements hbz hempty⟩
    rw [bind_of_eq_ok hM]
    refine (bind_of_eq_ok (setSlot_eq ?_ _)).trans ?_
    · show b < t.allocSize
      omega
    · have hmove := update_moved_eq t.entries b (z - b) ⟨conf.hashFn t.seed key, key, value⟩
      rw [Nat.add_sub_cancel' hbz] at hmove
      rw [← hmove]
      rfl

theorem Valid.insert_present (he : t.entries i = some e) (value : V)
    (updatesAllowed : UpdatesAllowed) :
    t.insert conf e.key value updatesAllowed = .ok (
      if updatesAllowed = .no then (t, .error .keyPresent)
      else ({ t with
        entries := Function.update t.entries i (some ⟨conf.hashFn t.seed e.key, e.key, value⟩) },
        .ok i)) := by
  have hsize := h.size_pos he
  have hbucket := bucket_lt conf hsize e.key
  obtain ⟨z, hz, hempty, -, -, hlt⟩ := h.exists_empty hbucket
  have hhome := h.probed.home_le he
  rw [h.hashed he] at hhome
  have hfirst : t.entries (hashToIndex t.size (conf.hashFn t.seed e.key)) ≠ none := by
    rcases Nat.lt_or_eq_of_le hhome with hlt' | heq
    · exact h.probed.no_gap he (by rw [h.hashed he]) hlt'
    · rw [heq, he]
      exact some_ne_none e
  have hslow : ¬ ((t.entries (hashToIndex t.size (conf.hashFn t.seed e.key))).isNone = true ∧
      updatesAllowed ≠ .required) := fun hfast => hfirst (Option.isNone_iff_eq_none.mp hfast.1)
  obtain ⟨a, b, found, ha, hb, -, -, hbz, -, -, hfound⟩ := h.search e.key hz hempty hlt
  cases found with
  | false =>
    exact absurd rfl (hfound i e he)
  | true =>
    obtain ⟨x, hx, hxkey⟩ := hfound
    obtain rfl := h.distinct hx he hxkey
    rw [CTable.insert, bind_of_eq_ok (slotAt_eq (by omega)), if_neg hslow, bind_of_eq_ok ha,
      bind_of_eq_ok hb]
    simp only [if_true]
    split
    · rfl
    · rw [bind_of_eq_ok (setSlot_eq (by omega) _)]
      rfl

theorem Valid.insert_missing (hsize : 0 < t.size)
    (hnew : ∀ i e, t.entries i = some e → e.key ≠ key) (value : V) :
    t.insert conf key value .required = .ok (t, .error .keyNotFound) := by
  have hbucket := bucket_lt conf hsize key
  obtain ⟨z, hz, hempty, -, -, hlt⟩ := h.exists_empty hbucket
  obtain ⟨a, b, found, ha, hb, -, -, -, -, -, hfound⟩ := h.search key hz hempty hlt
  have habsent : found = false := by
    rw [Bool.eq_false_iff]
    rintro rfl
    obtain ⟨e, he, hkey⟩ := hfound
    exact hnew b e he hkey
  rw [CTable.insert, bind_of_eq_ok (slotAt_eq (by omega)), if_neg (fun hfast => hfast.2 rfl),
    bind_of_eq_ok ha, bind_of_eq_ok hb, habsent]
  rfl

theorem Valid.insert_new (hm : Holds t m) (hroom : t.occupancy + 1 ≤ t.size)
    (hkey : m key = none) (value : V) (hupd : updatesAllowed ≠ .required) :
    Limited (Spread conf t.seed t.size (key :: t.keys)) (t.insert conf key value updatesAllowed)
      fun t' r => ∃ index, r = .ok index ∧ Valid conf t' ∧ t'.size = t.size ∧
        t'.seed = t.seed ∧ t'.occupancy = t.occupancy + 1 ∧
        Holds t' (Function.update m key (some value)) := by
  have hnew := hm.eq_none_iff.mp hkey
  refine (h.insert_absent hroom hnew value hupd).imp ?_
  rintro t' _ ⟨index, rfl, hvalid, hsame, hseed, hocc, -, helements⟩
  refine ⟨index, rfl, hvalid, hsame, hseed, hocc, ?_⟩
  refine hm.updated (e := ⟨conf.hashFn t.seed key, key, value⟩) fun x => ?_
  rw [helements]
  constructor
  · rintro (rfl | ⟨i, hi⟩)
    · exact .inl rfl
    · exact .inr ⟨⟨i, hi⟩, hnew i x hi⟩
  · rintro (rfl | ⟨hx, -⟩)
    · exact .inl rfl
    · exact .inr hx

/-- **`add` to a table with room** does to the map what is documented. -/
theorem Valid.insert (hm : Holds t m) (hroom : t.occupancy + 1 ≤ t.size)
    (key : K) (value : V) (updatesAllowed : UpdatesAllowed) :
    Limited (m key = none → updatesAllowed ≠ .required →
        Spread conf t.seed t.size (key :: t.keys)) (t.insert conf key value updatesAllowed)
      fun t' r => Valid conf t' ∧ t'.size = t.size ∧ t'.seed = t.seed ∧
        t'.occupancy ≤ t.occupancy + 1 ∧
        Holds t' (documentedAdd m key value updatesAllowed).1 ∧
        r.map (fun _ => ()) = (documentedAdd m key value updatesAllowed).2 := by
  have hsize : 0 < t.size := by omega
  cases hkey : m key with
  | none =>
    rw [documentedAdd_absent hkey]
    by_cases hupd : updatesAllowed = .required
    · subst hupd
      exact .inl ⟨fun _ hne => absurd rfl hne, _, _,
        h.insert_missing hsize (hm.eq_none_iff.mp hkey) value, h, rfl, rfl, Nat.le_succ _, hm, rfl⟩
    · rw [if_neg hupd, forall_prop_of_true rfl, forall_prop_of_true hupd]
      refine (h.insert_new hm hroom hkey value hupd).imp ?_
      rintro t' _ ⟨index, rfl, hvalid, hsame, hseed, hocc, hm'⟩
      exact ⟨hvalid, hsame, hseed, hocc.le, hm', rfl⟩
  | some old =>
    obtain ⟨e, ⟨i, he⟩, rfl, rfl⟩ := (hm key old).mp hkey
    refine .inl ⟨nofun, ?_⟩
    have heq := h.insert_present he value updatesAllowed
    rw [documentedAdd_present hkey]
    by_cases hupd : updatesAllowed = .no
    · subst hupd
      exact ⟨t, _, heq, h, rfl, rfl, Nat.le_succ _, hm, rfl⟩
    · rw [if_neg hupd] at heq
      rw [if_neg hupd]
      refine ⟨_, _, heq, h.replaced he value, rfl, rfl, Nat.le_succ _, ?_, rfl⟩
      refine hm.updated (e := ⟨conf.hashFn t.seed e.key, e.key, value⟩) fun x => ?_
      constructor
      · rintro ⟨j, hj⟩
        by_cases hji : j = i
        · subst hji
          exact .inl (Option.mem_unique (update_self j _ t.entries) hj).symm
        · have hx := (update_of_ne hji _ t.entries).symm.trans hj
          exact .inr ⟨⟨j, hx⟩, fun hkey' => hji (h.distinct hx he hkey')⟩
      · rintro (rfl | ⟨⟨j, hj⟩, hne⟩)
        · exact ⟨i, update_self i _ t.entries⟩
        · refine ⟨j, (update_of_ne ?_ _ t.entries).trans hj⟩
          rintro rfl
          obtain rfl := Option.mem_unique hj he
          exact hne rfl

end CTable

end Snabb
