import Snabb.Foundation.BinarySearch
import Snabb.Foundation.Probing
import Mathlib.Algebra.Order.Floor.Ring
import Mathlib.Data.Rat.Floor

/-!
# Hash tables (`lib/ctable.lua`)

A table of `size` buckets is an array of `2 * size` entries. An entry is placed at the bucket
of its hash or behind it; the entries are in the order of their hashes, so that a lookup can
search the `max_displacement + 1` entries from the bucket on by bisection. Adding an entry
moves larger ones up, removing one moves displaced ones back, and a table that becomes too
full or too empty is built anew under another hash function.

An entry whose hash is `HASH_MAX` is empty; here an empty slot is `none`. Every access to the
array is checked: one outside the array is a fault, and so is a resize inside a resize. The
errors that Lua raises are values, since a caller may catch them and go on with the table. The
assertion of `max_displacement_limit` is a fault: it fails with the entries half moved.

The product of a size and a rate, and the quotient of a number and a rate, are rounded;
`hash * scale` is exact.
-/

namespace Snabb

open Foundation

/-- `HASH_MAX`. -/
def hashMax : Nat := 0xFFFFFFFF

/-- An entry that is not empty. -/
structure CTableEntry (K V : Type) where
  hash : Nat
  key : K
  value : V

/-- The parameters of a table. `hashFn seed` is the hash function of a seed; which one a new
seed selects is left open. `limit` is `max_displacement_limit`, a number or infinite. `mul` and
`quot` are the product and the quotient as the machine rounds them; a rounded product is not larger
than the size for a rate of at most 1, and is not 0, and what passes the assertion of `resize` does
not overfill the table. -/
structure CTableParams (K : Type) where
  hashFn : Nat → K → Nat
  maxOccupancyRate : ℚ
  minOccupancyRate : ℚ
  limit : Option Nat
  mul : Nat → ℚ → ℚ
  quot : Nat → ℚ → ℚ
  hashFn_lt : ∀ seed key, hashFn seed key < hashMax
  mul_le : ∀ size, mul size maxOccupancyRate ≤ size
  mul_pos : ∀ {size}, 0 < size → 0 < mul size maxOccupancyRate
  mul_zero : ∀ size, mul size 0 = 0
  quot_zero : quot 0 maxOccupancyRate = 0
  fits : ∀ {n size : Nat}, quot n maxOccupancyRate ≤ size → n ≤ ⌈mul size maxOccupancyRate⌉

/-- Parameters without a limit, under which a table that is too empty always fits into half its
size. -/
structure CTableConf (K : Type) where
  hashFn : Nat → K → Nat
  maxOccupancyRate : ℚ
  minOccupancyRate : ℚ
  hashFn_lt : ∀ seed key, hashFn seed key < hashMax
  rate_pos : 0 < maxOccupancyRate
  rate_le_one : maxOccupancyRate ≤ 1
  min_le : minOccupancyRate ≤ maxOccupancyRate / 2

/-- The parameters with exact products and quotients. -/
abbrev CTableConf.toCTableParams {K : Type} (conf : CTableConf K) : CTableParams K where
  hashFn := conf.hashFn
  maxOccupancyRate := conf.maxOccupancyRate
  minOccupancyRate := conf.minOccupancyRate
  limit := none
  mul size rate := size * rate
  quot n rate := n / rate
  hashFn_lt := conf.hashFn_lt
  mul_le size := mul_le_of_le_one_right (Nat.cast_nonneg size) conf.rate_le_one
  mul_pos hsize := mul_pos (Nat.cast_pos.mpr hsize) conf.rate_pos
  mul_zero size := mul_zero _
  quot_zero := by simp
  fits h := by exact_mod_cast ((div_le_iff₀ conf.rate_pos).mp h).trans (Int.le_ceil _)

instance (K : Type) : Coe (CTableConf K) (CTableParams K) := ⟨CTableConf.toCTableParams⟩

/-- A table; `seed` counts how often the hash function has been reseeded. -/
structure CTable (K V : Type) where
  seed : Nat
  size : Nat
  occupancy : Nat
  maxDisplacement : Nat
  entries : Slots (CTableEntry K V)

/-- What must not happen. -/
inductive CTableFault where
  /-- An access outside the array. -/
  | outOfBounds (index : Nat)
  /-- A resize while a resize is under way. -/
  | nestedResize
  /-- `assert(displacement <= self.max_displacement_limit)` -/
  | displaced
  /-- A check of `selfcheck` has failed. -/
  | selfcheck (what : String)
deriving DecidableEq, Repr

/-- The errors that the operations raise. -/
inductive CTableRaise where
  /-- "key is already present in ctable" -/
  | keyPresent
  /-- "key not found in ctable" -/
  | keyNotFound
  /-- An `assert` without a message. -/
  | assertion
deriving DecidableEq, Repr

/-- The argument `updates_allowed`: `nil`, `true` or `'required'`. -/
inductive UpdatesAllowed where
  | no
  | yes
  | required
deriving DecidableEq, Repr

namespace CTable

variable {K V : Type}

/-- `hash_to_index`, for `scale = size / HASH_MAX`. -/
def hashToIndex (size hash : Nat) : Nat := hash * size / hashMax

/-- The number of entries that `resize` allocates without a limit. With the limit `n` they are not
more than `size + 2 * n`; those that are looked at end at `size + max_displacement`. -/
def allocSize (t : CTable K V) : Nat := t.size * 2

/-- `occupancy_hi`. -/
def occupancyHi (conf : CTableParams K) (t : CTable K V) : Nat :=
  ⌈conf.mul t.size conf.maxOccupancyRate⌉.toNat

/-- `occupancy_lo`. -/
def occupancyLo (conf : CTableParams K) (t : CTable K V) : ℤ :=
  ⌊conf.mul t.size conf.minOccupancyRate⌋

/-- Read an entry. -/
def slotAt (t : CTable K V) (i : Nat) : Except CTableFault (Option (CTableEntry K V)) :=
  if i < t.allocSize then .ok (t.entries i) else .error (.outOfBounds i)

/-- Read the hash of an entry. -/
def hashOf (t : CTable K V) (i : Nat) : Except CTableFault Nat :=
  if i < t.allocSize then .ok (Slots.hashAt CTableEntry.hash hashMax t.entries i)
  else .error (.outOfBounds i)

/-- Write an entry. -/
def setSlot (t : CTable K V) (i : Nat) (slot : Option (CTableEntry K V)) :
    Except CTableFault (CTable K V) :=
  if i < t.allocSize then .ok { t with entries := Function.update t.entries i slot }
  else .error (.outOfBounds i)

/-- Whether a displacement is allowed by `max_displacement_limit`, which is a number or infinite. -/
def within (limit : Option Nat) (displacement : Nat) : Bool := limit.all (displacement ≤ ·)

/-- `maybe_increase_max_displacement`. -/
def increaseMaxDisplacement (conf : CTableParams K) (t : CTable K V) (displacement : Nat) :
    Except CTableFault (CTable K V) :=
  if displacement ≤ t.maxDisplacement then .ok t
  else if within conf.limit displacement then .ok { t with maxDisplacement := displacement }
  else .error .displaced

/-- No loop over the array takes more steps than this: it would leave the array before. -/
def loopFuel (t : CTable K V) : Nat := t.allocSize + 1

/-- `while entries[index].hash < hash`. -/
def skipBelow (t : CTable K V) (hash : Nat) : Nat → Nat → Except CTableFault Nat
  | 0, i => .error (.outOfBounds i)
  | fuel + 1, i => do
    let h ← t.hashOf i
    if h < hash then skipBelow t hash fuel (i + 1) else return i

/-- `while entries[empty].hash ~= HASH_MAX`. -/
def skipFull (t : CTable K V) : Nat → Nat → Except CTableFault Nat
  | 0, i => .error (.outOfBounds i)
  | fuel + 1, i => do
    let slot ← t.slotAt i
    if slot.isSome then skipFull t fuel (i + 1) else return i

/-- `while entries[index].hash == hash`: where the loop ends, and whether it has found the key
there. -/
def scanEqual [DecidableEq K] (t : CTable K V) (hash : Nat) (key : K) :
    Nat → Nat → Except CTableFault (Nat × Bool)
  | 0, i => .error (.outOfBounds i)
  | fuel + 1, i => do
    match ← t.slotAt i with
    | none => return (i, false)
    | some e =>
      if e.hash = hash then
        if e.key = key then return (i, true) else scanEqual t hash key fuel (i + 1)
      else return (i, false)

/-- The loop of `add` that moves the `d` entries from `index` on up by one. -/
def displace (conf : CTableParams K) (t : CTable K V) (index : Nat) :
    Nat → Except CTableFault (CTable K V)
  | 0 => .ok t
  | d + 1 => do
    let slot ← t.slotAt (index + d)
    let t ← t.setSlot (index + d + 1) slot
    let home := slot.elim 0 fun e => hashToIndex t.size e.hash
    let t ← t.increaseMaxDisplacement conf (index + d + 1 - home)
    displace conf t index d

/-- Make the slot at `index` free. -/
def makeRoom (conf : CTableParams K) (t : CTable K V) (index : Nat) :
    Except CTableFault (CTable K V) := do
  let slot ← t.slotAt index
  if slot.isSome then
    let empty ← t.skipFull t.loopFuel index
    t.displace conf index (empty - index)
  else
    return t

/-- `add`, once there is room. -/
def insert [DecidableEq K] (conf : CTableParams K) (t : CTable K V) (key : K) (value : V)
    (updatesAllowed : UpdatesAllowed) :
    Except CTableFault (CTable K V × Except CTableRaise Nat) := do
  let hash := conf.hashFn t.seed key
  let start := hashToIndex t.size hash
  let first ← t.slotAt start
  if first.isNone ∧ updatesAllowed ≠ .required then
    -- fast path
    let t ← t.setSlot start (some ⟨hash, key, value⟩)
    return ({ t with occupancy := t.occupancy + 1 }, .ok start)
  else
    let index ← t.skipBelow hash t.loopFuel start
    let (index, found) ← t.scanEqual hash key t.loopFuel index
    if found then
      if updatesAllowed = .no then
        return (t, .error .keyPresent)
      else
        let t ← t.setSlot index (some ⟨hash, key, value⟩)
        return (t, .ok index)
    else if updatesAllowed = .required then
      return (t, .error .keyNotFound)
    else
      let t ← t.increaseMaxDisplacement conf (index - start)
      let t ← t.makeRoom conf index
      let t ← t.setSlot index (some ⟨hash, key, value⟩)
      return ({ t with occupancy := t.occupancy + 1 }, .ok index)

/-- The entries that a loop over the table visits, in this order: `iterate`, and the loop of
`resize` over the old entries. -/
def iterate (t : CTable K V) : Except CTableFault (List (CTableEntry K V)) := do
  let slots ← (List.range (t.size + t.maxDisplacement)).mapM t.slotAt
  return slots.filterMap id

/-- The loop of `resize` that adds the old entries to the new table. -/
def readd [DecidableEq K] (conf : CTableParams K) (t : CTable K V) :
    List (CTableEntry K V) → Except CTableFault (CTable K V × Except CTableRaise Unit)
  | [] => .ok (t, .ok ())
  | e :: es =>
    if t.occupancy + 1 > t.occupancyHi conf then
      .error .nestedResize
    else do
      let (t, added) ← t.insert conf e.key e.value .no
      match added with
      | .error raised => return (t, .error raised)
      | .ok _ => readd conf t es

/-- `resize`. -/
def resize [DecidableEq K] (conf : CTableParams K) (t : CTable K V) (size : Nat) :
    Except CTableFault (CTable K V × Except CTableRaise Unit) :=
  if conf.quot t.occupancy conf.maxOccupancyRate ≤ size then do
    let old ← t.iterate
    readd conf {
      seed := if t.size ≠ 0 then t.seed + 1 else t.seed
      size := size
      occupancy := 0
      maxDisplacement := 0
      entries := fun _ => none } old
  else
    .ok (t, .error .assertion)

/-- `add`. -/
def add [DecidableEq K] (conf : CTableParams K) (t : CTable K V) (key : K) (value : V)
    (updatesAllowed : UpdatesAllowed) :
    Except CTableFault (CTable K V × Except CTableRaise Nat) :=
  if t.occupancy + 1 > t.occupancyHi conf then do
    -- the current size could be 0
    let (t, resized) ← t.resize conf (max (t.size * 2) 1)
    match resized with
    | .error raised => return (t, .error raised)
    | .ok _ => t.insert conf key value updatesAllowed
  else
    t.insert conf key value updatesAllowed

/-- `update`. -/
def update [DecidableEq K] (conf : CTableParams K) (t : CTable K V) (key : K) (value : V) :
    Except CTableFault (CTable K V × Except CTableRaise Nat) :=
  t.add conf key value .required

/-- `lookup_ptr`: the index of the entry. -/
def lookupPtr [DecidableEq K] (conf : CTableParams K) (t : CTable K V) (key : K) :
    Except CTableFault (Option Nat) := do
  let hash := conf.hashFn t.seed key
  let start := hashToIndex t.size hash
  let first ← BinarySearch.search (fun i => t.hashOf (start + i)) (t.maxDisplacement + 1) hash
  let (index, found) ← t.scanEqual hash key t.loopFuel (start + first)
  return if found then some index else none

/-- The loop of `remove_ptr` that moves displaced entries back. -/
def closeGap (t : CTable K V) : Nat → Nat → Except CTableFault (CTable K V)
  | 0, i => .error (.outOfBounds i)
  | fuel + 1, i => do
    match ← t.slotAt (i + 1) with
    | none => return t
    | some e =>
      if hashToIndex t.size e.hash = i + 1 then
        return t
      else
        -- give to the poor
        let t ← t.setSlot i (some e)
        let t ← t.setSlot (i + 1) none
        closeGap t fuel (i + 1)

/-- `remove_ptr`. -/
def removePtr [DecidableEq K] (conf : CTableParams K) (t : CTable K V) (index : Nat) :
    Except CTableFault (CTable K V × Except CTableRaise Unit) :=
  if index < t.size + t.maxDisplacement then do
    match ← t.slotAt index with
    | none => return (t, .error .assertion)
    | some _ =>
      let t ← { t with occupancy := t.occupancy - 1 }.setSlot index none
      let t ← t.closeGap t.loopFuel index
      if (t.occupancy : ℤ) < t.occupancyLo conf then
        t.resize conf (max ((t.size + 1) / 2) 1)
      else
        return (t, .ok ())
  else
    .ok (t, .error .assertion)

/-- `remove`. -/
def remove [DecidableEq K] (conf : CTableParams K) (t : CTable K V) (key : K)
    (missingAllowed : Bool) : Except CTableFault (CTable K V × Except CTableRaise Bool) := do
  match ← t.lookupPtr conf key with
  | none => return (t, if missingAllowed then .ok false else .error .keyNotFound)
  | some index =>
    let (t, removed) ← t.removePtr conf index
    return (t, removed.map fun _ => true)

/-- `new`, whose resize is the first one. -/
def new [DecidableEq K] (conf : CTableParams K) (initialSize : Nat) :
    Except CTableFault (CTable K V × Except CTableRaise Unit) :=
  resize conf
    { seed := 0, size := 0, occupancy := 0, maxDisplacement := 0, entries := fun _ => none }
    initialSize

/-- The state of the loop of `selfcheck`. -/
structure Selfcheck where
  prev : Nat
  occupancy : Nat
  maxDisplacement : Nat

/-- The body of the loop of `selfcheck`. -/
def checkSlot (conf : CTableParams K) (t : CTable K V) (c : Selfcheck) (i : Nat) :
    Except CTableFault Selfcheck := do
  match ← t.slotAt i with
  | none => return { c with prev := hashMax }
  | some e =>
    let index := hashToIndex t.size e.hash
    if conf.hashFn t.seed e.key ≠ e.hash then
      throw (.selfcheck "hash")
    else if c.prev = hashMax ∧ index ≠ i then
      throw (.selfcheck "undisplaced index")
    else if c.prev ≠ hashMax ∧ ¬ c.prev ≤ e.hash then
      throw (.selfcheck "displaced hash")
    else
      return ⟨e.hash, c.occupancy + 1, max c.maxDisplacement (i - index)⟩

/-- `selfcheck`. -/
def selfcheck (conf : CTableParams K) (t : CTable K V) : Except CTableFault Unit := do
  let c ← (List.range (t.size + t.maxDisplacement)).foldlM (t.checkSlot conf) ⟨0, 0, 0⟩
  if c.occupancy ≠ t.occupancy then
    throw (.selfcheck "occupancy")
  else if ¬ c.maxDisplacement ≤ t.maxDisplacement then
    throw (.selfcheck "max_displacement")
  else
    return ()

end CTable

end Snabb
