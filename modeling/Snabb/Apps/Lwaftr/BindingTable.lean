import Snabb.Apps.Lwaftr.RangeMap
import Snabb.Lib.CTable.Rebuild

/-!
# Binding tables (`apps/lwaftr/binding_table.lua`)

A binding table knows the softwires of an lwAFTR. An IPv4 address may be shared by several
softwires, which then have different port sets; the PSID of a port says which of them the
port belongs to. A range map gives the parameters of an address from which the PSID of a
port is computed, and a hash table gives the softwire of an address and a PSID.

A port set has `reserved_ports_bit_count` bits before the PSID. RFC 7597 excludes the ports
in which all of these bits are 0, the code the ports below `2^reserved_ports_bit_count`.

- `lookup_decodes_port_set`: a lookup finds the softwire of the address whose PSID is that
  of the port, unless the port is one of those that the code excludes.
- `rejects_conflicts_iff`: softwires of one address with different port sets are accepted,
  since `inter_psid_map:exists` compares the parameters that are there with themselves.
-/

namespace Snabb

open Foundation List
open Function (update update_of_ne update_self)
open Except (ok.inj)

structure SoftwireKey where
  ipv4 : Nat
  psid : Nat
deriving DecidableEq, Repr, Inhabited

structure SoftwireValue where
  b4Ipv6 : BitVec 128
  brAddress : BitVec 128
deriving DecidableEq, Repr, Inhabited

/-- `psid_map_value_t`. -/
structure PsidInfo where
  psidLength : Nat
  shift : Nat
deriving DecidableEq, Repr, Inhabited

structure PortSet where
  psidLength : Nat
  reservedPortsBitCount : Option Nat
deriving DecidableEq, Repr

/-- A softwire of the configuration. -/
structure Softwire where
  ipv4 : Nat
  psid : Nat
  b4Ipv6 : BitVec 128
  brAddress : BitVec 128
  portSet : PortSet
deriving DecidableEq, Repr

def PortSet.reservedBits (p : PortSet) : Nat := p.reservedPortsBitCount.getD 0

def Softwire.key (s : Softwire) : SoftwireKey := ⟨s.ipv4, s.psid⟩

def Softwire.value (s : Softwire) : SoftwireValue := ⟨s.b4Ipv6, s.brAddress⟩

/-- How `load` and the lookups fail. -/
inductive BindingTableError where
  | fault (fault : CTableFault)
  | raised (raised : CTableRaise)
  | message (text : String)
deriving DecidableEq, Repr

/-- The hash table of `load`, for a family of hash functions. -/
def softwireConf (hashFn : Nat → SoftwireKey → Nat)
    (hashFn_lt : ∀ seed key, hashFn seed key < hashMax) : CTableConf SoftwireKey where
  hashFn := hashFn
  maxOccupancyRate := 2 / 5
  minOccupancyRate := 0
  hashFn_lt := hashFn_lt
  rate_pos := by norm_num
  rate_le_one := by norm_num
  min_le := by norm_num

/-- The arithmetic of `lookup_psid`. `rshift` takes its count modulo 32. -/
def PsidInfo.psidOf (info : PsidInfo) (port : Nat) : Nat :=
  let psidMask := 2 ^ info.psidLength - 1
  let psid := (port >>> (info.shift % 32)) &&& psidMask
  if info.psidLength + info.shift < 16 then
    let reservedPortsBitCount := 16 - info.psidLength - info.shift
    let firstAllocatedPort := 2 ^ reservedPortsBitCount
    -- a bogus PSID, so that lookup will fail
    if port < firstAllocatedPort then psidMask + 1 else psid
  else psid

/-- The parameters that an accepted softwire gives for its address. -/
def Softwire.info (s : Softwire) : PsidInfo :=
  ⟨s.portSet.psidLength, ((16 - s.portSet.psidLength - s.portSet.reservedBits : ℤ) % 65536).toNat⟩

structure BindingTable where
  psidMap : RangeMap PsidInfo
  softwires : CTable SoftwireKey SoftwireValue

namespace BindingTable

/-- An operation of the range map. -/
def ofMessage {α : Type} : Except String α → Except BindingTableError α
  | .ok a => .ok a
  | .error text => .error (.message text)

/-- An operation of the hash table that must not raise. -/
def ofTable {α β : Type} : Except CTableFault (α × Except CTableRaise β) →
    Except BindingTableError α
  | .ok (a, .ok _) => .ok a
  | .ok (_, .error raised) => .error (.raised raised)
  | .error fault => .error (.fault fault)

/-- `lookup_psid`. -/
def lookupPsid (bt : BindingTable) (ipv4 port : Nat) : Except BindingTableError Nat := do
  let info ← ofMessage (bt.psidMap.lookup ipv4)
  return PsidInfo.psidOf info.value port

/-- `lookup`. -/
def lookup (conf : CTableConf SoftwireKey) (bt : BindingTable) (ipv4 port : Nat) :
    Except BindingTableError (Option SoftwireValue) := do
  let psid ← bt.lookupPsid ipv4 port
  match bt.softwires.lookupPtr conf ⟨ipv4, psid⟩ with
  | .error fault => .error (.fault fault)
  | .ok p => return (p.bind bt.softwires.entries).map CTableEntry.value

/-- `pack_psid_map_entry`. The shift is stored as a `uint16_t`. -/
def packPsidMapEntry (softwire : Softwire) : Except BindingTableError (Nat × PsidInfo) :=
  let psidLength := softwire.portSet.psidLength
  let shift : ℤ := 16 - psidLength - softwire.portSet.reservedBits
  if psidLength + shift ≤ 16 then
    .ok (softwire.ipv4, ⟨psidLength, (shift % 65536).toNat⟩)
  else
    .error (.message "psid_length and shift should not exceed 16")

/-- The state of the loop of `load`: the hash table, the intermediary map and the builder. -/
structure Loading where
  softwires : CTable SoftwireKey SoftwireValue
  keys : Nat → Option PsidInfo
  ranges : List (RangeMapRange PsidInfo)

/-- `inter_psid_map:exists`. It compares the value that is there with itself. -/
def Loading.exists (l : Loading) (key : Nat) : Except BindingTableError Bool :=
  match l.keys key with
  | none => .ok false
  | some v =>
    if v.psidLength ≠ v.psidLength ∨ v.shift ≠ v.shift then
      .error (.message "Port set already added with different values: ")
    else .ok true

/-- The body of the loop of `load`. -/
def loadEntry (conf : CTableConf SoftwireKey) (l : Loading) (entry : Softwire) :
    Except BindingTableError Loading := do
  let softwires ← ofTable (l.softwires.add conf entry.key entry.value .no)
  let (psidKey, psidValue) ← packPsidMapEntry entry
  if ← l.exists psidKey then
    return { l with softwires := softwires }
  else
    let ranges ← ofMessage (RangeMapBuilder.add l.ranges entry.ipv4 psidValue)
    return ⟨softwires, update l.keys psidKey (some psidValue), ranges⟩

/-- `load`. -/
def load (conf : CTableConf SoftwireKey) (softwire : List Softwire) :
    Except BindingTableError BindingTable := do
  let softwires ← ofTable (CTable.new conf 8)
  let l ← softwire.foldlM (loadEntry conf) ⟨softwires, fun _ => none, []⟩
  let psidMap ← ofMessage (RangeMapBuilder.build ⟨0, 0⟩ l.ranges)
  return ⟨psidMap, l.softwires⟩

/-! ## Loading -/

variable {conf : CTableConf SoftwireKey} {l l' : Loading}

theorem ofTable_eq_ok {α β : Type} {x : Except CTableFault (α × Except CTableRaise β)} {a : α}
    (h : ofTable x = .ok a) : ∃ b, x = .ok (a, .ok b) := by
  match x, h with
  | .ok (_, .ok b), h => exact ⟨b, by rw [ok.inj h]⟩

theorem ofMessage_eq_ok {α : Type} {x : Except String α} {a : α} (h : ofMessage x = .ok a) :
    x = .ok a := by
  match x, h with
  | .ok _, h => rw [ok.inj h]

/-- What `load` has made of the softwires up to some point. -/
structure Loaded (conf : CTableConf SoftwireKey) (done : List Softwire) (l : Loading) : Prop where
  valid : CTable.Valid conf l.softwires
  positive : 0 < l.softwires.size
  holds : ∃ m, l.softwires.Holds m ∧
    ∀ key value, m key = some value ↔ ∃ s ∈ done, s.key = key ∧ s.value = value
  keys : ∀ s ∈ done, l.keys s.ipv4 ≠ none
  ranges : ∀ e ∈ l.ranges, e.min = e.max ∧ ∃ s ∈ done, s.ipv4 = e.max ∧ e.value = s.info
  covered : ∀ ipv4, l.keys ipv4 ≠ none → ∃ e ∈ l.ranges, e.max = ipv4

variable {done : List Softwire} {entry : Softwire}

theorem Loaded.loadEntry (h : Loaded conf done l)
    (hload : loadEntry conf l entry = .ok l') : Loaded conf (done ++ [entry]) l' := by
  obtain ⟨t', hadd, hload⟩ := bind_eq_ok hload
  obtain ⟨index, hadd⟩ := ofTable_eq_ok hadd
  obtain ⟨⟨psidKey, psidValue⟩, hpack, hload⟩ := bind_eq_ok hload
  obtain ⟨rfl, rfl⟩ : entry.ipv4 = psidKey ∧ Softwire.info entry = psidValue := by
    unfold packPsidMapEntry at hpack
    simp only at hpack
    split at hpack
    · exact ok_pair_inj hpack
    · cases hpack
  obtain ⟨present, hpresent, hload⟩ := bind_eq_ok hload
  obtain ⟨m, hm, hdone⟩ := h.holds
  obtain ⟨hvalid, hnone, hm'⟩ := h.valid.add_returned hm hadd
  obtain ⟨x, ⟨i, hx⟩, -⟩ := (hm' entry.key entry.value).mp (update_self ..)
  have hpositive := hvalid.size_pos hx
  have hholds : ∀ key value, update m entry.key (some entry.value) key = some value ↔
      ∃ s ∈ done ++ [entry], s.key = key ∧ s.value = value := by
    intro key value
    by_cases hkey : key = entry.key
    · subst hkey
      rw [update_self]
      constructor
      · intro hvalue
        exact ⟨entry, by simp, rfl, Option.some.inj hvalue⟩
      · rintro ⟨s, hs, hskey, hsvalue⟩
        rcases mem_append.mp hs with hin | hlast
        · have hsome := (hdone s.key s.value).mpr ⟨s, hin, rfl, rfl⟩
          rw [hskey, hnone] at hsome
          cases hsome
        · obtain rfl := mem_singleton.mp hlast
          rw [hsvalue]
    · rw [update_of_ne hkey, hdone]
      constructor
      · rintro ⟨s, hs, hskey, hsvalue⟩
        exact ⟨s, mem_append_left _ hs, hskey, hsvalue⟩
      · rintro ⟨s, hs, hskey, hsvalue⟩
        rcases mem_append.mp hs with hin | hlast
        · exact ⟨s, hin, hskey, hsvalue⟩
        · obtain rfl := mem_singleton.mp hlast
          exact absurd hskey.symm hkey
  have hranges : ∀ e ∈ l.ranges, e.min = e.max ∧
      ∃ s ∈ done ++ [entry], s.ipv4 = e.max ∧ e.value = s.info := by
    intro e he
    obtain ⟨hpoint, s, hs, hipv4, hinfo⟩ := h.ranges e he
    exact ⟨hpoint, s, mem_append_left _ hs, hipv4, hinfo⟩
  unfold Loading.exists at hpresent
  cases hkeys : l.keys entry.ipv4 with
  | some v =>
    simp only [hkeys] at hpresent
    rw [if_neg (by simp)] at hpresent
    cases hpresent
    cases hload
    refine ⟨hvalid, hpositive, ⟨_, hm', hholds⟩, ?_, hranges, h.covered⟩
    intro s hs
    rcases mem_append.mp hs with hin | hlast
    · exact h.keys s hin
    · obtain rfl := mem_singleton.mp hlast
      rw [hkeys]
      exact Option.some_ne_none v
  | none =>
    simp only [hkeys] at hpresent
    cases hpresent
    obtain ⟨ranges, hadd', hload⟩ := bind_eq_ok hload
    have hinsert : l.ranges ++ [⟨entry.ipv4, entry.ipv4, entry.info⟩] = ranges := by
      have hok := ofMessage_eq_ok hadd'
      unfold RangeMapBuilder.add RangeMapBuilder.addRange at hok
      rw [if_pos le_rfl] at hok
      exact ok.inj hok
    cases hload
    subst hinsert
    refine ⟨hvalid, hpositive, ⟨_, hm', hholds⟩, ?_, ?_, ?_⟩
    · intro s hs
      show update l.keys entry.ipv4 _ s.ipv4 ≠ none
      by_cases hipv4 : s.ipv4 = entry.ipv4
      · rw [hipv4, update_self]
        exact Option.some_ne_none _
      · rw [update_of_ne hipv4]
        rcases mem_append.mp hs with hin | hlast
        · exact h.keys s hin
        · exact absurd (congrArg Softwire.ipv4 (mem_singleton.mp hlast)) hipv4
    · intro e he
      rcases mem_append.mp he with hin | hlast
      · exact hranges e hin
      · obtain rfl := mem_singleton.mp hlast
        exact ⟨rfl, entry, by simp, rfl, rfl⟩
    · intro ipv4 hipv4
      by_cases heq : ipv4 = entry.ipv4
      · exact ⟨⟨entry.ipv4, entry.ipv4, entry.info⟩, by simp, heq.symm⟩
      · have hold : l.keys ipv4 ≠ none := by
          rwa [← update_of_ne heq (some entry.info) l.keys]
        obtain ⟨e, he, hmax⟩ := h.covered ipv4 hold
        exact ⟨e, mem_append_left _ he, hmax⟩

variable {softwire : List Softwire}

theorem Loaded.foldlM (h : Loaded conf done l)
    (hload : softwire.foldlM (BindingTable.loadEntry conf) l = .ok l') :
    Loaded conf (done ++ softwire) l' := by
  induction softwire generalizing l done with
  | nil =>
    cases hload
    rwa [append_nil]
  | cons entry rest ih =>
    obtain ⟨l₁, hentry, hrest⟩ := bind_eq_ok hload
    have hall := ih (h.loadEntry hentry) hrest
    rwa [append_assoc] at hall

theorem Loaded.ranges_le (h : Loaded conf softwire l) (hipv4 : ∀ s ∈ softwire, s.ipv4 ≤ uint32Max) :
    ∀ e ∈ l.ranges, e.min ≤ e.max ∧ e.max ≤ uint32Max := by
  intro e he
  obtain ⟨hpoint, s, hs, hsipv4, -⟩ := h.ranges e he
  rw [← hsipv4]
  exact ⟨by omega, hipv4 s hs⟩

theorem new_loaded (conf : CTableConf SoftwireKey) :
    ∃ t₀, ofTable (CTable.new conf 8) = .ok t₀ ∧ t₀.size = 8 ∧ t₀.occupancy = 0 ∧
      Loaded conf [] ⟨t₀, fun _ => none, []⟩ := by
  obtain ⟨t₀, hnew, hvalid, hm, hsize, hocc⟩ :=
    CTable.new_ok (K := SoftwireKey) (V := SoftwireValue) conf 8
  exact ⟨t₀, congrArg ofTable hnew, hsize, hocc,
    hvalid, by rw [hsize]; decide, ⟨_, hm, by simp⟩, by simp, by simp, by simp⟩

/-- **An accepted binding table** holds the softwires of the configuration, and has for each of
their addresses the parameters of one of its softwires. -/
theorem load_returned {bt : BindingTable}
    (hload : load conf softwire = .ok bt) (hipv4 : ∀ s ∈ softwire, s.ipv4 ≤ uint32Max) :
    CTable.Valid conf bt.softwires ∧ 0 < bt.softwires.size ∧
      (∃ m, bt.softwires.Holds m ∧
        ∀ key value, m key = some value ↔ ∃ s ∈ softwire, s.key = key ∧ s.value = value) ∧
      ∀ ipv4 ≤ uint32Max, ∃ e, bt.psidMap.lookup ipv4 = .ok e ∧
        ((∃ s ∈ softwire, s.ipv4 = ipv4 ∧ e.value = s.info) ∨ ∀ s ∈ softwire, s.ipv4 ≠ ipv4) := by
  obtain ⟨t₀, hnew, -, -, hempty⟩ := new_loaded conf
  rw [load, bind_of_eq_ok hnew] at hload
  obtain ⟨l, hloop, hload⟩ := bind_eq_ok hload
  obtain ⟨psidMap, hbuild, hret⟩ := bind_eq_ok hload
  cases hret
  have hloaded := hempty.foldlM hloop
  refine ⟨hloaded.valid, hloaded.positive, hloaded.holds, fun ipv4 hle => ?_⟩
  obtain ⟨e, he, hvalue⟩ :=
    RangeMap.lookup_ok (hloaded.ranges_le hipv4) (ofMessage_eq_ok hbuild) hle
  refine ⟨e, he, ?_⟩
  rcases hvalue with ⟨r, hr, hmin, hmax, hvalue⟩ | ⟨hout, -⟩
  · obtain ⟨hpoint, s, hs, hsipv4, hinfo⟩ := hloaded.ranges r hr
    exact .inl ⟨s, hs, by omega, hvalue.symm.trans hinfo⟩
  · refine .inr fun s hs hsipv4 => ?_
    obtain ⟨r, hr, hmax⟩ := hloaded.covered s.ipv4 (hloaded.keys s hs)
    obtain ⟨hpoint, -⟩ := hloaded.ranges r hr
    have hr' := hout r hr
    omega

/-! ## Conflicting port sets -/

/-- There is room for one more softwire, at the latest after growing. -/
def Roomy (t : CTable SoftwireKey SoftwireValue) : Prop :=
  8 ≤ t.size ∧ 5 * t.occupancy ≤ 4 * t.size

section

variable {hashFn : Nat → SoftwireKey → Nat} {hlt : ∀ seed key, hashFn seed key < hashMax}

theorem Loaded.add_ok (h : Loaded (softwireConf hashFn hlt) done l)
    (hroomy : Roomy l.softwires) (hnew : ∀ s ∈ done, s.key ≠ entry.key) :
    ∃ t, ofTable (l.softwires.add (softwireConf hashFn hlt) entry.key entry.value .no) = .ok t ∧
      Roomy t := by
  obtain ⟨hsize, hocc⟩ := hroomy
  obtain ⟨m, hm, hdone⟩ := h.holds
  have hkey : m entry.key = none := by
    by_contra hne
    obtain ⟨v, hv⟩ := Option.ne_none_iff_exists'.mp hne
    obtain ⟨s, hs, hkey, -⟩ := (hdone _ v).mp hv
    exact hnew s hs hkey
  have hcan : CTable.CanAdd (softwireConf hashFn hlt) l.softwires := by
    refine .inr ((div_le_iff₀ (by norm_num [softwireConf])).mpr ?_)
    have hcast : (5 * l.softwires.occupancy : ℚ) ≤ 4 * l.softwires.size := by exact_mod_cast hocc
    rw [max_eq_left (by omega)]
    push_cast
    show _ ≤ _ * (2 / 5 : ℚ)
    linarith
  obtain ⟨t, index, hadd, hocc', hsize'⟩ := h.valid.add_new hm hcan rfl hkey entry.value
  refine ⟨t, congrArg ofTable hadd, ?_⟩
  rcases hsize' with ⟨hsame, hhi⟩ | hgrown
  · have hceil := Int.ceil_lt_add_one ((l.softwires.size : ℚ) * (2 / 5))
    have hhi' : t.occupancy ≤ ⌈(l.softwires.size : ℚ) * (2 / 5)⌉ := by
      exact Int.le_of_lt_add_one (by change _ ≤ Int.toNat ⌈_ * (2 / 5 : ℚ)⌉ at hhi; omega)
    have hcast : (t.occupancy : ℚ) < l.softwires.size * (2 / 5) + 1 :=
      lt_of_le_of_lt (by exact_mod_cast hhi') hceil
    have hnat : 5 * t.occupancy < 2 * l.softwires.size + 5 := by
      have hq : (5 * t.occupancy : ℚ) < 2 * l.softwires.size + 5 := by linarith
      exact_mod_cast hq
    exact ⟨by omega, by omega⟩
  · rw [max_eq_left (by omega)] at hgrown
    exact ⟨by omega, by omega⟩

/-- The body of the loop accepts a softwire with a new key, whatever its port set is. -/
theorem Loaded.loadEntry_ok (h : Loaded (softwireConf hashFn hlt) done l)
    (hroomy : Roomy l.softwires) (hapart : l.ranges.Pairwise RangeMapBuilder.Apart)
    (hnew : ∀ s ∈ done, s.key ≠ entry.key) :
    ∃ l', BindingTable.loadEntry (softwireConf hashFn hlt) l entry = .ok l' ∧
      Roomy l'.softwires ∧ l'.ranges.Pairwise RangeMapBuilder.Apart := by
  obtain ⟨t, hadd, hroomy'⟩ := h.add_ok hroomy hnew
  have hpack : packPsidMapEntry entry = .ok (entry.ipv4, entry.info) := if_pos (by omega)
  rw [BindingTable.loadEntry, bind_of_eq_ok hadd, bind_of_eq_ok hpack]
  cases hkeys : l.keys entry.ipv4 with
  | some v =>
    have hexists : l.exists entry.ipv4 = .ok true := by simp [Loading.exists, hkeys]
    exact ⟨_, bind_of_eq_ok hexists, hroomy', hapart⟩
  | none =>
    have hexists : l.exists entry.ipv4 = .ok false := by simp [Loading.exists, hkeys]
    refine ⟨⟨t, update l.keys entry.ipv4 (some entry.info),
      l.ranges ++ [⟨entry.ipv4, entry.ipv4, entry.info⟩]⟩,
      (bind_of_eq_ok hexists).trans ?_, hroomy', ?_⟩
    · rw [RangeMapBuilder.add, RangeMapBuilder.addRange, if_pos le_rfl]
      rfl
    · refine pairwise_append.mpr ⟨hapart, pairwise_singleton _ _, fun e he x hx => ?_⟩
      obtain rfl := mem_singleton.mp hx
      obtain ⟨hpoint, s, hs, hipv4, -⟩ := h.ranges e he
      have hne : e.max ≠ entry.ipv4 := fun heq => h.keys s hs (by rw [hipv4, heq, hkeys])
      rcases Nat.lt_or_gt_of_ne hne with hbelow | habove
      · exact .inl hbelow
      · exact .inr (hpoint ▸ habove)

theorem Loaded.foldlM_ok {softwire done : List Softwire}
    (h : Loaded (softwireConf hashFn hlt) done l) (hroomy : Roomy l.softwires)
    (hapart : l.ranges.Pairwise RangeMapBuilder.Apart)
    (hkeys : ((done ++ softwire).map Softwire.key).Nodup) :
    ∃ l', softwire.foldlM (BindingTable.loadEntry (softwireConf hashFn hlt)) l = .ok l' ∧
      l'.ranges.Pairwise RangeMapBuilder.Apart := by
  induction softwire generalizing l done with
  | nil => exact ⟨l, rfl, hapart⟩
  | cons entry rest ih =>
    rw [append_cons] at hkeys
    have hnew : ∀ s ∈ done, s.key ≠ entry.key := by
      intro s hs heq
      rw [map_append, nodup_append] at hkeys
      rw [map_append, nodup_append] at hkeys
      exact hkeys.1.2.2 _ (mem_map_of_mem hs) _ (by simp) heq
    obtain ⟨l₁, hstep, hroomy₁, hapart₁⟩ := h.loadEntry_ok hroomy hapart hnew
    rw [foldlM_cons, bind_of_eq_ok hstep]
    exact ih (h.loadEntry hstep) hroomy₁ hapart₁ hkeys

end

/-- Two of the softwires have one address, and different parameters. -/
def Conflicting (softwire : List Softwire) : Prop :=
  ∃ s ∈ softwire, ∃ t ∈ softwire, s.ipv4 = t.ipv4 ∧ s.info ≠ t.info

/-- The range map has the parameters that the softwire declares, the hash table its value. -/
def FindsSoftwire (conf : CTableConf SoftwireKey) (bt : BindingTable) (s : Softwire) : Prop :=
  (∃ e, bt.psidMap.lookup s.ipv4 = .ok e ∧ e.value = s.info) ∧
    ∃ p, bt.softwires.lookupPtr conf s.key = .ok p ∧
      (p.bind bt.softwires.entries).map CTableEntry.value = some s.value

/-- `load` raises for conflicting port sets only, and finds the softwires otherwise. -/
def RejectsConflicts (conf : CTableConf SoftwireKey) (softwire : List Softwire) : Prop :=
  ((∃ error, load conf softwire = .error error) ↔ Conflicting softwire) ∧
    (¬ Conflicting softwire →
      ∃ bt, load conf softwire = .ok bt ∧ ∀ s ∈ softwire, FindsSoftwire conf bt s)

/-- **Conflicting port sets are accepted**, and all other softwires are found. -/
theorem rejects_conflicts_iff (hashFn : Nat → SoftwireKey → Nat)
    (hlt : ∀ seed key, hashFn seed key < hashMax) (softwire : List Softwire)
    (hkeys : (softwire.map Softwire.key).Nodup) (hipv4 : ∀ s ∈ softwire, s.ipv4 ≤ uint32Max) :
    RejectsConflicts (softwireConf hashFn hlt) softwire ↔ ¬ Conflicting softwire := by
  obtain ⟨t₀, hnew, hsize, hocc, hempty⟩ := new_loaded (softwireConf hashFn hlt)
  obtain ⟨l, hloop, hapart⟩ := hempty.foldlM_ok ⟨hsize.ge, by rw [hocc]; omega⟩ .nil hkeys
  obtain ⟨map, hbuild⟩ := (RangeMapBuilder.build_ok_iff ⟨0, 0⟩
    ((hempty.foldlM hloop).ranges_le hipv4)).mpr hapart
  have hload : load (softwireConf hashFn hlt) softwire = .ok ⟨map, l.softwires⟩ := by
    rw [load, bind_of_eq_ok hnew, bind_of_eq_ok hloop, hbuild]
    rfl
  constructor
  · rintro ⟨hraises, -⟩ hconflict
    obtain ⟨error, herror⟩ := hraises.mpr hconflict
    cases hload.symm.trans herror
  · intro hnone
    obtain ⟨hvalid, hpositive, ⟨m, hm, hdone⟩, hmap⟩ := load_returned hload hipv4
    refine ⟨⟨?_, fun h => absurd h hnone⟩, fun _ => ⟨_, hload, fun s hs => ⟨?_, ?_⟩⟩⟩
    · rintro ⟨error, herror⟩
      cases hload.symm.trans herror
    · obtain ⟨e, he, hcase⟩ := hmap s.ipv4 (hipv4 s hs)
      rcases hcase with ⟨s', hs', heq, hinfo⟩ | hout
      · refine ⟨e, he, hinfo.trans ?_⟩
        by_contra hne
        exact hnone ⟨s', hs', s, hs, heq, hne⟩
      · exact absurd rfl (hout s hs)
    · obtain ⟨p, hp, hvalue⟩ := hvalid.lookup_value hm hpositive s.key
      exact ⟨p, hp, hvalue.trans ((hdone _ _).mpr ⟨s, hs, rfl, rfl⟩)⟩

end BindingTable

/-! ## The port set of a softwire -/

/-- The `k = psid_length` bits of a port below its `a = reserved_ports_bit_count` top bits. -/
def PortSet.psidBits (p : PortSet) (port : Nat) : Nat :=
  port / 2 ^ (16 - p.reservedBits - p.psidLength) % 2 ^ p.psidLength

/-- The PSID that is looked up is that of the port, but for the ports below `2 ^ a`. -/
theorem PsidInfo.psidOf_eq_iff {s : Softwire} {q port : Nat}
    (hsum : s.portSet.psidLength + s.portSet.reservedBits ≤ 16) (hq : q < 2 ^ s.portSet.psidLength) :
    s.info.psidOf port = q ↔ q = s.portSet.psidBits port ∧
      (s.portSet.reservedBits = 0 ∨ 2 ^ s.portSet.reservedBits ≤ port) := by
  have hshift : s.info.shift = 16 - s.portSet.reservedBits - s.portSet.psidLength := by
    show ((16 - s.portSet.psidLength - s.portSet.reservedBits : ℤ) % 65536).toNat = _
    omega
  have hlength : s.info.psidLength = s.portSet.psidLength := rfl
  have hbits : (port >>> (s.info.shift % 32)) &&& (2 ^ s.portSet.psidLength - 1) =
      s.portSet.psidBits port := by
    have hcount : s.info.shift % 32 = 16 - s.portSet.reservedBits - s.portSet.psidLength := by
      omega
    rw [Nat.and_two_pow_sub_one_eq_mod, Nat.shiftRight_eq_div_pow, hcount]
    rfl
  unfold PsidInfo.psidOf
  simp only [hlength, hbits]
  by_cases hreserved : s.portSet.reservedBits = 0
  · rw [if_neg (by omega)]
    constructor
    · rintro rfl
      exact ⟨rfl, .inl hreserved⟩
    · rintro ⟨rfl, -⟩
      rfl
  · have hcount : 16 - s.portSet.psidLength - s.info.shift = s.portSet.reservedBits := by omega
    rw [if_pos (by omega), hcount]
    split
    · next hlow =>
      constructor
      · intro heq
        omega
      · rintro ⟨-, hzero | hle⟩
        · exact absurd hzero hreserved
        · omega
    · next hhigh =>
      constructor
      · rintro rfl
        exact ⟨rfl, .inr (Nat.le_of_not_lt hhigh)⟩
      · rintro ⟨rfl, -⟩
        rfl

namespace BindingTable

/-- A lookup asks the hash table for the address and the PSID that its parameters give. -/
theorem lookup_eq {conf : CTableConf SoftwireKey} {bt : BindingTable}
    {m : SoftwireKey → Option SoftwireValue} (hvalid : CTable.Valid conf bt.softwires)
    (hm : bt.softwires.Holds m) (hpositive : 0 < bt.softwires.size) {ipv4 : Nat}
    {info : RangeMapEntry PsidInfo} (hinfo : bt.psidMap.lookup ipv4 = .ok info) (port : Nat) :
    bt.lookupPsid ipv4 port = .ok (info.value.psidOf port) ∧
      bt.lookup conf ipv4 port = .ok (m ⟨ipv4, info.value.psidOf port⟩) := by
  obtain ⟨p, hp, hvalue⟩ := hvalid.lookup_value hm hpositive ⟨ipv4, info.value.psidOf port⟩
  have hpsid : bt.lookupPsid ipv4 port = .ok (info.value.psidOf port) := by
    unfold BindingTable.lookupPsid
    rw [hinfo]
    rfl
  refine ⟨hpsid, ?_⟩
  rw [BindingTable.lookup, bind_of_eq_ok hpsid, hp, ← hvalue]
  rfl

/-- **A lookup decodes the port set of the address.** Where the softwires of an address have one
port set, and its bit fields fit into a port, a lookup of a port finds the softwire of the
address that has the PSID of the port, and nothing for the ports below `2 ^ a` if `a` bits are
reserved. -/
theorem lookup_decodes_port_set {conf : CTableConf SoftwireKey} {softwire : List Softwire}
    {bt : BindingTable} (hload : load conf softwire = .ok bt)
    (hipv4 : ∀ s ∈ softwire, s.ipv4 ≤ uint32Max)
    (hpsid : ∀ s ∈ softwire, s.psid < 2 ^ s.portSet.psidLength) {ipv4 port : Nat}
    (hle : ipv4 ≤ uint32Max) {portSet : PortSet}
    (hsum : portSet.psidLength + portSet.reservedBits ≤ 16)
    (hagree : ∀ s ∈ softwire, s.ipv4 = ipv4 → s.portSet = portSet) :
    ∃ r, bt.lookup conf ipv4 port = .ok r ∧ ∀ v, r = some v ↔
      ∃ s ∈ softwire, s.ipv4 = ipv4 ∧ s.value = v ∧ s.psid = portSet.psidBits port ∧
        (portSet.reservedBits = 0 ∨ 2 ^ portSet.reservedBits ≤ port) := by
  obtain ⟨hvalid, hpositive, ⟨m, hm, hdone⟩, hmap⟩ := load_returned hload hipv4
  obtain ⟨info, hinfo, hcase⟩ := hmap ipv4 hle
  obtain ⟨-, hlookup⟩ := lookup_eq hvalid hm hpositive hinfo port
  refine ⟨_, hlookup, fun v => ?_⟩
  rw [hdone]
  rcases hcase with ⟨s₀, hs₀, hs₀ipv4, hs₀info⟩ | hnone
  · have hport : ∀ s ∈ softwire, s.ipv4 = ipv4 → (info.value.psidOf port = s.psid ↔
        s.psid = portSet.psidBits port ∧
          (portSet.reservedBits = 0 ∨ 2 ^ portSet.reservedBits ≤ port)) := by
      intro s hs hsipv4
      have hset := hagree s hs hsipv4
      have hset₀ := hagree s₀ hs₀ hs₀ipv4
      have hlt := hpsid s hs
      rw [hset, ← hset₀] at hlt
      rw [← hset₀] at hsum
      rw [hs₀info, ← hset₀]
      exact PsidInfo.psidOf_eq_iff hsum hlt
    constructor
    · rintro ⟨s, hs, hkey, hsvalue⟩
      obtain ⟨hsipv4, hspsid⟩ := SoftwireKey.mk.inj hkey
      exact ⟨s, hs, hsipv4, hsvalue, (hport s hs hsipv4).mp hspsid.symm⟩
    · rintro ⟨s, hs, hsipv4, hsvalue, hdecoded⟩
      refine ⟨s, hs, ?_, hsvalue⟩
      rw [Softwire.key, hsipv4, (hport s hs hsipv4).mpr hdecoded]
  · constructor
    · rintro ⟨s, hs, hkey, -⟩
      exact absurd (SoftwireKey.mk.inj hkey).1 (hnone s hs)
    · rintro ⟨s, hs, hsipv4, -⟩
      exact absurd hsipv4 (hnone s hs)

/-- Hash functions for examples. -/
def sampleConf : CTableConf SoftwireKey :=
  softwireConf (fun seed key => (key.ipv4 + key.psid + seed) % hashMax)
    fun _ _ => Nat.mod_lt _ (by decide)

/-- Two of the softwires share an address, with 4 reserved bits before a PSID of 4 bits. -/
def sampleSoftwires : List Softwire :=
  [⟨1, 0, 10, 20, ⟨4, some 4⟩⟩, ⟨1, 3, 11, 21, ⟨4, some 4⟩⟩, ⟨5, 40, 12, 22, ⟨6, none⟩⟩]

theorem rejects_conflicts_sample :
    RejectsConflicts sampleConf sampleSoftwires ↔ ¬ Conflicting sampleSoftwires :=
  rejects_conflicts_iff _ _ sampleSoftwires (by decide) (by decide)

/-- The port sets of the softwires of address 1 have PSIDs of 4 and of 6 bits. -/
theorem conflict_is_accepted :
    ∃ bt, load sampleConf [⟨1, 0, 10, 20, ⟨4, none⟩⟩, ⟨1, 1, 11, 21, ⟨6, none⟩⟩] = .ok bt ∧
      Conflicting [⟨1, 0, 10, 20, ⟨4, none⟩⟩, ⟨1, 1, 11, 21, ⟨6, none⟩⟩] := by
  refine exists_ok_of_any (fun _ => true) (by decide +kernel) fun bt hload _ => ?_
  exact ⟨_, mem_cons_self, _, mem_cons_of_mem _ mem_cons_self, rfl, by decide⟩

theorem lookup_decodes_port_set_sample :
    ∃ bt, load sampleConf sampleSoftwires = .ok bt ∧
      ∃ r, bt.lookup sampleConf 1 0x8300 = .ok r ∧ ∀ v, r = some v ↔
        ∃ s ∈ sampleSoftwires, s.ipv4 = 1 ∧ s.value = v ∧
          s.psid = PortSet.psidBits ⟨4, some 4⟩ 0x8300 ∧
          (PortSet.reservedBits ⟨4, some 4⟩ = 0 ∨ 2 ^ PortSet.reservedBits ⟨4, some 4⟩ ≤ 0x8300) := by
  refine exists_ok_of_any (fun _ => true) (by decide +kernel) fun bt hload _ => ?_
  exact lookup_decodes_port_set hload (by decide) (by decide) (by decide) (by decide) (by decide)

/-- The top 4 bits of port 0x300 are 0, and yet it is found in a port set with 4 reserved bits. -/
theorem reserved_port_is_found :
    ∃ bt, load sampleConf sampleSoftwires = .ok bt ∧
      bt.lookup sampleConf 1 0x300 = .ok (some ⟨11, 21⟩) ∧
      (∀ s ∈ sampleSoftwires, s.ipv4 = 1 → s.portSet = ⟨4, some 4⟩) ∧ 0x300 / 2 ^ (16 - 4) = 0 := by
  refine exists_ok_of_any (fun bt => bt.lookup sampleConf 1 0x300 = .ok (some ⟨11, 21⟩))
    (by decide +kernel) fun bt hload hlookup => ?_
  exact ⟨hlookup, by decide, by decide⟩

end BindingTable

end Snabb
