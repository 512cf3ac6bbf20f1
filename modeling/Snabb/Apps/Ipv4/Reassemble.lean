import Snabb.Apps.Lwaftr.CTableWrapper
import Snabb.Lib.Ipsec.Esp

/-!
# Reassembly of IPv4 fragments (`apps/ipv4/reassemble.lua`)

The reassembler keeps a table of ongoing reassemblies. The first fragment of a datagram
to arrive makes an entry and leaves its headers there; every fragment copies its data
behind them, at the offset its header names, and the datagram leaves when as many bytes
as it is long have arrived. A table that is full loses a random entry to a new one.

What is copied from where depends on three header fields of the fragment (`ihl`,
`total_length` and the fragment offset) and on `reassembly_base`, the size of the headers
of another fragment. `ipv4_packet_has_valid_length` compares `total_length` with the
frame and `ihl` with 5, but not the two with each other, and nothing compares
`reassembly_base` with the frame.

`Reassembler.copies` is the history of what has been copied into the buffers, `Covered`
is what the header of a fragment has to satisfy besides the checks that are made, and
`reassembly_bounded` shows that it is exact.

- `receive_spec`: what one frame leads to, whatever its bytes are;
- `reassembly_bounded`: the copies of a run stay inside the frames and the buffers, and
  nothing is raised, if and only if the headers of all frames are covered.
-/

namespace Snabb

open Foundation List Table Packet
open Function (update)

/-! ## The headers -/

/-- `bit_mask`. -/
def bitMask (bits : Nat) : Nat := (1 <<< bits) - 1

def etherTypeIpv4 : Nat := 0x0800

def ipv4FragmentOffsetBits : Nat := 13

def ipv4FragmentOffsetMask : Nat := bitMask ipv4FragmentOffsetBits

def ipv4FlagMoreFragments : Nat := 0x1

/-- A packet with the flag "more fragments" or with a non-zero offset is a fragment. -/
def ipv4IsFragmentMask : Nat :=
  ipv4FragmentOffsetMask ||| ipv4FlagMoreFragments <<< ipv4FragmentOffsetBits

def ipv4IhlMask : Nat := bitMask 4

/-- `sizeof(ether_ipv4_header_t)`. -/
def etherIpv4HeaderLen : Nat := etherHeaderLen + ipv4HeaderLen

/-- The fields of an `ether_ipv4_header_t` at the start of a frame, and what the code
derives from them. -/
structure Ipv4Header where
  ihl : Nat
  totalLength : Nat
  id : Nat
  flagsAndFragmentOffset : Nat
  srcIp : List UInt8
  dstIp : List UInt8

/-- `ffi.cast(ether_ipv4_header_ptr_t, p.data)`. -/
def Packet.ipv4Header (p : Packet) : Ipv4Header where
  ihl := (p.byte etherHeaderLen).toNat &&& ipv4IhlMask
  totalLength := ntohs (leNat (p.window (etherHeaderLen + 2) 2))
  id := ntohs (leNat (p.window (etherHeaderLen + 4) 2))
  flagsAndFragmentOffset := ntohs (leNat (p.window (etherHeaderLen + 6) 2))
  srcIp := p.window (etherHeaderLen + 12) 4
  dstIp := p.window (etherHeaderLen + 16) 4

namespace Ipv4Header

def headersLen (h : Ipv4Header) : Nat := etherHeaderLen + h.ihl * 4

/-- The fragment offset is expressed in 8-octet units. -/
def fragStart (h : Ipv4Header) : Nat := (h.flagsAndFragmentOffset &&& ipv4FragmentOffsetMask) * 8

def fragSize (h : Ipv4Header) : Int := (h.totalLength : Int) - (h.ihl * 4 : Nat)

/-- The flag "more fragments" is not set. -/
def isFinal (h : Ipv4Header) : Prop :=
  (h.flagsAndFragmentOffset >>> ipv4FragmentOffsetBits) &&& ipv4FlagMoreFragments = 0

instance (h : Ipv4Header) : Decidable h.isFinal := inferInstanceAs (Decidable (_ = _))

def isFragment (h : Ipv4Header) : Prop := h.flagsAndFragmentOffset &&& ipv4IsFragmentMask ≠ 0

instance (h : Ipv4Header) : Decidable h.isFragment := inferInstanceAs (Decidable (_ ≠ _))

end Ipv4Header

/-- `ipv4_packet_has_valid_length`. -/
def ipv4PacketHasValidLength (p : Packet) : Prop :=
  etherIpv4HeaderLen ≤ p.length ∧ 5 ≤ p.ipv4Header.ihl ∧
    p.ipv4Header.totalLength ≤ p.length - etherHeaderLen

instance (p : Packet) : Decidable (ipv4PacketHasValidLength p) :=
  inferInstanceAs (Decidable (_ ∧ _ ∧ _))

/-! ## The reassembler -/

/-- The configuration of a reassembler; the table of the reassemblies has room for one. -/
structure ReassemblerConf where
  maxConcurrentReassemblies : Nat
  maxFragmentsPerReassembly : Nat
  concurrent_pos : 0 < maxConcurrentReassemblies

/-- `initial_size`, for a `max_occupy` of 9/10. -/
def ReassemblerConf.initialSize (conf : ReassemblerConf) : Nat :=
  (conf.maxConcurrentReassemblies * 10 + 8) / 9

/-- `occupancy_hi` of the table: the initial size times `max_occupy`, rounded up. The table
is never resized. -/
def ReassemblerConf.occupancyHi (conf : ReassemblerConf) : Nat := (conf.initialSize * 9 + 9) / 10

/-- `key_type`. -/
structure FragmentKey where
  srcAddr : List UInt8
  dstAddr : List UInt8
  fragmentId : Nat
deriving DecidableEq, Repr

/-- The value type: one ongoing reassembly. -/
structure Reassembly where
  fragmentStarts : Nat → Nat
  fragmentEnds : Nat → Nat
  fragmentCount : Nat
  finalStart : Nat
  reassemblyBase : Nat
  /-- Bytes copied so far. -/
  runningLength : Nat
  packet : Packet

/-- What was copied into the packet of a reassembly: `size` bytes from `srcOffset` on, of a
frame of `frameLength` bytes, to `dstOffset`. -/
structure ReassemblyCopy where
  size : Int
  srcOffset : Nat
  frameLength : Nat
  dstOffset : Nat
deriving DecidableEq, Repr

/-- The copy has a size, reads bytes of the frame, and writes bytes of the buffer. -/
def ReassemblyCopy.Inside (c : ReassemblyCopy) : Prop :=
  0 ≤ c.size ∧ c.srcOffset + c.size ≤ c.frameLength ∧ c.dstOffset + c.size ≤ maxPayload

instance (c : ReassemblyCopy) : Decidable c.Inside := inferInstanceAs (Decidable (_ ∧ _ ∧ _))

/-- The counters of `Reassembler.shm` that `push` changes. -/
structure ReassemblerCounters where
  needsReassembly : Nat
  reassembled : Nat
  reassemblyUnneeded : Nat
  invalidReassembly : Nat
  randomEvicted : Nat
deriving DecidableEq, Repr

/-- The state of the app: the table, the counters, what it has transmitted to its output
link, and the history of the copies into the buffers. -/
structure Reassembler where
  ctab : Table FragmentKey Reassembly
  shm : ReassemblerCounters
  transmitted : List Packet
  copies : List ReassemblyCopy

/-- What the loop of `push` works on: a frame, the choice that a full table makes, and the
name of the packet that the allocator would hand out. -/
structure FrameArrival where
  frame : Packet
  choice : Nat
  base : Nat

/-- How a step can fail: by a Lua error, or in a copy whose size is negative. -/
inductive ReassemblyFault where
  | raise (e : Raise)
  | copySize (size : Int)
deriving DecidableEq, Repr

/-- `Reassembler:new`. -/
def Reassembler.new : Reassembler where
  ctab := ∅
  shm := ⟨0, 0, 0, 0, 0⟩
  transmitted := []
  copies := []

/-- A number stored in a `uint16_t`. -/
def toUInt16 (n : Int) : Nat := (n % 2 ^ 16).toNat

/-- `swap`. -/
def swapElements (array : Nat → Nat) (i j : Nat) : Nat → Nat :=
  update (update array j (array i)) i (array j)

/-- The inner loop of `sort_array`: carry an element down while the one before it is larger. -/
def sinkElement (array : Nat → Nat) : Nat → Nat → Nat
  | 0 => array
  | j + 1 =>
    if array j > array (j + 1) then sinkElement (swapElements array (j + 1) j) j else array

/-- `sort_array`: an insertion sort. -/
def sortArray (array : Nat → Nat) (lastIndex : Nat) : Nat → Nat :=
  (List.range (lastIndex + 1)).foldl sinkElement array

namespace Reassembly

/-- `verify_valid_offsets`. -/
def verifyValidOffsets (r : Reassembly) : Prop :=
  r.fragmentStarts 0 = 0 ∧
    ∀ i < r.fragmentCount - 1, r.fragmentStarts (i + 1) = r.fragmentEnds i

instance (r : Reassembly) : Decidable r.verifyValidOffsets :=
  inferInstanceAs (Decidable (_ ∧ _))

/-- `fragment_starts[fcount - 1]`. What lies before the first element is the upper half of the
key's `fragment_id`, which is zero. -/
def previousStart (r : Reassembly) : Nat :=
  if r.fragmentCount = 0 then 0 else r.fragmentStarts (r.fragmentCount - 1)

/-- Note where a fragment starts and ends; the starts and the ends are sorted when it starts
before the one noted last. -/
def noteFragment (r : Reassembly) (fragStart : Nat) (fragSize : Int) : Reassembly :=
  let fcount := r.fragmentCount
  let starts := update r.fragmentStarts fcount (toUInt16 fragStart)
  let ends := update r.fragmentEnds fcount (toUInt16 (fragStart + fragSize))
  if starts fcount < r.previousStart then
    { r with fragmentStarts := sortArray starts fcount
             fragmentEnds := sortArray ends fcount
             fragmentCount := toUInt16 (fcount + 1) }
  else
    { r with fragmentStarts := starts
             fragmentEnds := ends
             fragmentCount := toUInt16 (fcount + 1) }

/-- Copy `size` bytes of the frame behind the headers, and count them. -/
def copyFragment (r : Reassembly) (frame : Packet) (fragStart size : Nat) : Reassembly :=
  let skipHeaders := r.reassemblyBase
  let packet := r.packet.write (skipHeaders + fragStart) (frame.window skipHeaders size)
  { r with packet := packet.setLength (max packet.length (skipHeaders + fragStart + size))
           runningLength := (r.runningLength + size) % 2 ^ 32 }

/-- Note a fragment, and whether it is the final one. -/
def join (r : Reassembly) (h : Ipv4Header) : Reassembly :=
  let r := r.noteFragment h.fragStart h.fragSize
  if h.isFinal then { r with finalStart := toUInt16 h.fragStart } else r

/-- What `handle_fragment` makes of a reassembly if it does not turn the fragment away. -/
def accept (r : Reassembly) (frame : Packet) : Reassembly :=
  (r.join frame.ipv4Header).copyFragment frame frame.ipv4Header.fragStart
    frame.ipv4Header.fragSize.toNat

end Reassembly

/-- `packet.clone`. -/
def Packet.clone (p : Packet) (base : Nat) : Except Raise Packet :=
  if p.length ≤ maxPayload then .ok (fromPointer base p.bytes) else .error .assertionFailed

namespace Reassembler

def fragmentKey (h : Ipv4Header) : FragmentKey := ⟨h.srcIp, h.dstIp, h.id⟩

/-- `reassembly_success`. -/
def reassemblySuccess (s : Reassembler) (key : FragmentKey) (pkt : Packet) : Reassembler :=
  { s with ctab := s.ctab.erase key
           shm := { s.shm with reassembled := s.shm.reassembled + 1 }
           transmitted := s.transmitted ++ [pkt] }

/-- `reassembly_error`, which is never given an ICMP packet. -/
def reassemblyError (s : Reassembler) (key : FragmentKey) : Reassembler :=
  { s with ctab := s.ctab.erase key
           shm := { s.shm with invalidReassembly := s.shm.invalidReassembly + 1 } }

/-- The reassembly that a first fragment starts: its headers are copied. -/
def startReassembly (h : Ipv4Header) (pkt : Packet) : Except Raise Reassembly := do
  let packet ← (fromPointer 0 []).append (pkt.window 0 h.headersLen)
  return {
    fragmentStarts := fun _ => 0
    fragmentEnds := fun _ => 0
    fragmentCount := 0
    finalStart := 0
    reassemblyBase := h.headersLen
    runningLength := h.headersLen
    packet := packet }

/-- `lookup_reassembly`: the entry is named by its key. -/
def lookupReassembly (conf : ReassemblerConf) (s : Reassembler) (a : FrameArrival) :
    Except Raise (Reassembler × Reassembly) :=
  let h := a.frame.ipv4Header
  let key := fragmentKey h
  match s.ctab.lookup key with
  | some reassembly => .ok (s, reassembly)
  | none => do
    let reassembly ← startReassembly h a.frame
    let (ctab, didEvict) ← addWithRandomEviction conf.occupancyHi s.ctab key reassembly a.choice
    let evicted := s.shm.randomEvicted + if didEvict then 1 else 0
    return ({ s with
      ctab := ctab
      shm := { s.shm with randomEvicted := evicted }
      copies := s.copies ++ [⟨h.headersLen, 0, a.frame.length, 0⟩] }, reassembly)

/-- `fix_ipv4_checksum`; `ipsum` is the function of `lib.checksum`. -/
def fixIpv4Checksum (ipsum : List UInt8 → Nat) (out : Packet) : Packet :=
  let out := out.write (etherHeaderLen + 10) (leBytes 2 0)
  let sum := ipsum (out.window etherHeaderLen (out.ipv4Header.ihl * 4))
  out.write (etherHeaderLen + 10) (leBytes 2 (htons sum))

/-- Make the headers of the first fragment those of a datagram that is not fragmented. -/
def finishHeader (ipsum : List UInt8 → Nat) (out : Packet) : Packet :=
  let out := out.write (etherHeaderLen + 4) (leBytes 2 0)
  let out := out.write (etherHeaderLen + 6) (leBytes 2 0)
  let out := out.write (etherHeaderLen + 2) (leBytes 2 (htons (out.length - etherHeaderLen)))
  fixIpv4Checksum ipsum out

/-- The end of `handle_fragment`: is the datagram complete? -/
def finishFragment (ipsum : List UInt8 → Nat) (s : Reassembler) (key : FragmentKey)
    (reassembly : Reassembly) (base : Nat) : Except Raise Reassembler :=
  if reassembly.finalStart = 0 ∨ reassembly.runningLength ≠ reassembly.packet.length then
    -- still reassembling
    .ok { s with ctab := s.ctab.insert key reassembly }
  else if reassembly.verifyValidOffsets then do
    let out ← reassembly.packet.clone base
    return s.reassemblySuccess key (finishHeader ipsum out)
  else
    .ok (s.reassemblyError key)

/-- `handle_fragment` from the copy of the data on. -/
def copyData (ipsum : List UInt8 → Nat) (s : Reassembler) (reassembly : Reassembly)
    (a : FrameArrival) : Except ReassemblyFault Reassembler :=
  let h := a.frame.ipv4Header
  let dstOffset := reassembly.reassemblyBase + h.fragStart
  if (dstOffset : Int) + h.fragSize > maxPayload then
    -- prevent a buffer overflow
    .ok (s.reassemblyError (fragmentKey h))
  else if h.fragSize < 0 then
    -- the total length was not compared with the length of the header
    .error (.copySize h.fragSize)
  else
    let reassembly' := reassembly.copyFragment a.frame h.fragStart h.fragSize.toNat
    let s := { s with copies := s.copies ++
      [⟨h.fragSize, reassembly.reassemblyBase, a.frame.length, dstOffset⟩] }
    (finishFragment ipsum s (fragmentKey h) reassembly' a.base).mapError .raise

/-- `handle_fragment`. -/
def handleFragment (conf : ReassemblerConf) (ipsum : List UInt8 → Nat) (s : Reassembler)
    (a : FrameArrival) : Except ReassemblyFault Reassembler := do
  let h := a.frame.ipv4Header
  let (s, reassembly) ← (lookupReassembly conf s a).mapError ReassemblyFault.raise
  if reassembly.fragmentCount + 1 > conf.maxFragmentsPerReassembly then
    -- too many fragments
    return s.reassemblyError (fragmentKey h)
  else
    let reassembly := reassembly.noteFragment h.fragStart h.fragSize
    if h.isFinal then
      if reassembly.finalStart ≠ 0 then
        -- there cannot be more than one final fragment
        return s.reassemblyError (fragmentKey h)
      else
        copyData ipsum s { reassembly with finalStart := toUInt16 h.fragStart } a
    else
      copyData ipsum s reassembly a

/-- The body of the loop of `push`. -/
def receive (conf : ReassemblerConf) (ipsum : List UInt8 → Nat) (s : Reassembler)
    (a : FrameArrival) : Except ReassemblyFault Reassembler :=
  let forward : Reassembler := { s with
    shm := { s.shm with reassemblyUnneeded := s.shm.reassemblyUnneeded + 1 }
    transmitted := s.transmitted ++ [a.frame] }
  if getEtherType a.frame ≠ etherTypeIpv4 then
    .ok forward
  else if ¬ ipv4PacketHasValidLength a.frame then
    .ok s
  else if ¬ a.frame.ipv4Header.isFragment then
    .ok forward
  else
    handleFragment conf ipsum { s with
      shm := { s.shm with needsReassembly := s.shm.needsReassembly + 1 } } a

/-- `Reassembler:push`, for the frames on the input link. -/
def push (conf : ReassemblerConf) (ipsum : List UInt8 → Nat) (s : Reassembler)
    (arrivals : List FrameArrival) : Except ReassemblyFault Reassembler :=
  run (receive conf ipsum) s arrivals

/-! ## What the headers have to satisfy -/

/-- The entry that a fragment joins. -/
def joined (s : Reassembler) (h : Ipv4Header) : Option Reassembly := s.ctab.lookup (fragmentKey h)

/-- The `reassembly_base` that holds for a fragment: that of the entry it joins, or the size of
its own headers. -/
def baseFor (s : Reassembler) (h : Ipv4Header) : Nat :=
  (s.joined h).elim h.headersLen (·.reassemblyBase)

/-- A fragment that is turned away before its data is copied: one too many, a second final
one, or one that ends behind the buffer. -/
def Refused (conf : ReassemblerConf) (s : Reassembler) (h : Ipv4Header) : Prop :=
  (s.joined h).elim 0 (·.fragmentCount) + 1 > conf.maxFragmentsPerReassembly ∨
    (h.isFinal ∧ (s.joined h).elim 0 (·.finalStart) ≠ 0) ∨
    ((s.baseFor h + h.fragStart : Nat) : Int) + h.fragSize > maxPayload

instance (conf : ReassemblerConf) (s : Reassembler) (h : Ipv4Header) :
    Decidable (Refused conf s h) :=
  inferInstanceAs (Decidable (_ ∨ _ ∨ _))

/-- The frame is one that `push` gives to `handle_fragment`. -/
def takesFragment (frame : Packet) : Prop :=
  getEtherType frame = etherTypeIpv4 ∧ ipv4PacketHasValidLength frame ∧
    frame.ipv4Header.isFragment

instance (frame : Packet) : Decidable (takesFragment frame) :=
  inferInstanceAs (Decidable (_ ∧ _ ∧ _))

/-- What nothing checks. The headers of a fragment that starts a reassembly are inside its
frame. The data of a fragment that is not turned away has a size, and is inside the frame
when it is taken to start at `reassembly_base`. -/
def Covered (conf : ReassemblerConf) (s : Reassembler) (a : FrameArrival) : Prop :=
  takesFragment a.frame →
    (s.joined a.frame.ipv4Header = none → a.frame.ipv4Header.headersLen ≤ a.frame.length) ∧
    (¬ Refused conf s a.frame.ipv4Header →
      0 ≤ a.frame.ipv4Header.fragSize ∧
        s.baseFor a.frame.ipv4Header + a.frame.ipv4Header.fragSize ≤ a.frame.length)

instance (conf : ReassemblerConf) (s : Reassembler) (a : FrameArrival) :
    Decidable (Covered conf s a) :=
  inferInstanceAs (Decidable (_ → _))

/-- Every copy so far was inside its frame and its buffer, and no reassembly has more fragments than
it may. -/
structure Bounded (conf : ReassemblerConf) (s : Reassembler) : Prop where
  copies : ∀ c ∈ s.copies, c.Inside
  fragmentCount : ∀ key r, s.ctab.lookup key = some r →
    r.fragmentCount ≤ conf.maxFragmentsPerReassembly

/-! ## The invariant -/

/-- What every reassembly in the table satisfies, whatever the frames were. -/
structure FitsBuffer (conf : ReassemblerConf) (r : Reassembly) : Prop where
  fragmentCount : r.fragmentCount ≤ conf.maxFragmentsPerReassembly
  length : r.packet.length ≤ maxPayload

/-- The invariant of the table: its entries are bounded, and it never has to be resized. -/
structure WellKept (conf : ReassemblerConf) (s : Reassembler) : Prop where
  entries : ∀ key r, s.ctab.lookup key = some r → FitsBuffer conf r
  occupancy : s.ctab.keys.length ≤ conf.occupancyHi

variable {conf : ReassemblerConf} {ipsum : List UInt8 → Nat} {s s' : Reassembler}
  {a : FrameArrival} {h : Ipv4Header} {key : FragmentKey} {r : Reassembly}

theorem wellKept_new : WellKept conf new where
  entries := by
    intro key r hlookup
    cases hlookup
  occupancy := Nat.zero_le _

theorem WellKept.erase (hs : WellKept conf s) (key : FragmentKey) :
    WellKept conf { s with ctab := s.ctab.erase key } where
  entries := by
    intro key' r hlookup
    rw [lookup_erase_ite] at hlookup
    split at hlookup
    · cases hlookup
    · exact hs.entries key' r hlookup
  occupancy := by
    rw [AList.keys_erase]
    exact (length_erase_le).trans hs.occupancy

theorem length_keys_insert (ctab : Table FragmentKey Reassembly) (key : FragmentKey)
    (r : Reassembly) : (ctab.insert key r).keys.length = (ctab.keys.erase key).length + 1 := by
  rw [AList.keys_insert, length_cons]

variable {r₀ : Reassembly}

theorem WellKept.replace (hs : WellKept conf s)
    (hkey : s.ctab.lookup key = some r₀) (hr : FitsBuffer conf r) :
    WellKept conf { s with ctab := s.ctab.insert key r } where
  entries := by
    intro key' r' hlookup
    rw [lookup_insert_ite] at hlookup
    split at hlookup
    · cases hlookup
      exact hr
    · exact hs.entries key' r' hlookup
  occupancy := by
    have hmem : key ∈ s.ctab.keys := AList.mem_keys.mp (Table.mem_iff_lookup.mpr ⟨r₀, hkey⟩)
    have hpos := length_pos_of_mem hmem
    rw [length_keys_insert, length_erase_of_mem hmem, Nat.sub_add_cancel hpos]
    exact hs.occupancy

/-! ## The table -/

theorem occupancyHi_pos (conf : ReassemblerConf) : 0 < conf.occupancyHi := by
  have hpos := conf.concurrent_pos
  rw [ReassemblerConf.occupancyHi, ReassemblerConf.initialSize]
  omega

/-- Adding a key that is not there never raises and never makes the table too large. -/
theorem addWithRandomEviction_spec (hs : WellKept conf s) (hnew : s.ctab.lookup key = none)
    (hr : FitsBuffer conf r) (choice : Nat) :
    ∃ room : Table FragmentKey Reassembly, addWithRandomEviction conf.occupancyHi s.ctab key r
        choice = .ok (room.insert key r, decide (s.ctab.keys.length + 1 > conf.occupancyHi)) ∧
      WellKept conf { s with ctab := room.insert key r } ∧
      ∀ k v, room.lookup k = some v → s.ctab.lookup k = some v := by
  obtain ⟨room, hadd, -, hroom, hsub, -⟩ :=
    addWithRandomEviction_ok (occupancyHi_pos conf) hs.occupancy hnew r choice
  refine ⟨room, hadd, ⟨?_, ?_⟩, hsub⟩
  · intro key' r' hlookup
    rw [lookup_insert_ite] at hlookup
    split at hlookup
    · cases hlookup
      exact hr
    · exact hs.entries key' r' (hsub key' r' hlookup)
  · show (room.insert key r).keys.length ≤ _
    rw [length_keys_insert]
    have hle : (room.keys.erase key).length ≤ room.keys.length := length_erase_le
    omega

/-! ## One frame -/

theorem headersLen_le (p : Packet) : p.ipv4Header.headersLen ≤ 74 := by
  have hihl : p.ipv4Header.ihl ≤ 15 := Nat.and_le_right
  rw [Ipv4Header.headersLen, etherHeaderLen]
  omega

theorem startReassembly_spec (conf : ReassemblerConf) (p : Packet) :
    ∃ r, startReassembly p.ipv4Header p = .ok r ∧ FitsBuffer conf r ∧ r.fragmentCount = 0 ∧
      r.finalStart = 0 ∧ r.reassemblyBase = p.ipv4Header.headersLen := by
  have hlen := headersLen_le p
  have hempty : (fromPointer 0 []).length = 0 := rfl
  have hfits : (fromPointer 0 []).length + (p.window 0 p.ipv4Header.headersLen).length
      ≤ maxPayload := by
    rw [length_window, maxPayload]
    omega
  have happend : (fromPointer 0 []).append (p.window 0 p.ipv4Header.headersLen) = .ok _ :=
    if_pos hfits
  refine ⟨_, bind_of_eq_ok happend, ⟨Nat.zero_le _, ?_⟩, rfl, rfl, rfl⟩
  exact length_append happend

/-- The copy of the headers. -/
def headerCopies (s : Reassembler) (frame : Packet) : List ReassemblyCopy :=
  if s.joined frame.ipv4Header = none then
    [⟨frame.ipv4Header.headersLen, 0, frame.length, 0⟩]
  else []

/-- A fragment that is turned away from a reassembly before its data is copied. -/
def TurnedAway (conf : ReassemblerConf) (r : Reassembly) (h : Ipv4Header) : Prop :=
  r.fragmentCount + 1 > conf.maxFragmentsPerReassembly ∨ (h.isFinal ∧ r.finalStart ≠ 0) ∨
    ((r.reassemblyBase + h.fragStart : Nat) : Int) + h.fragSize > maxPayload

/-- The reassembly that a fragment joins or starts. -/
def Joins (s : Reassembler) (frame : Packet) (r : Reassembly) : Prop :=
  s.joined frame.ipv4Header = some r ∨
    s.joined frame.ipv4Header = none ∧ startReassembly frame.ipv4Header frame = .ok r

/-- If a fragment starts a reassembly and the table is full, it is not the entry of `k` that is
evicted. -/
def Spares (conf : ReassemblerConf) (s : Reassembler) (a : FrameArrival) (k : FragmentKey) : Prop :=
  s.joined a.frame.ipv4Header = none → s.ctab.keys.length + 1 > conf.occupancyHi →
    s.ctab.keys[a.choice % s.ctab.keys.length]? ≠ some k

/-- The other entries stay as they are, or one of them is evicted. -/
structure Leaves (conf : ReassemblerConf) (s : Reassembler) (a : FrameArrival) (s' : Reassembler) :
    Prop where
  sub : ∀ k v, k ≠ fragmentKey a.frame.ipv4Header → s'.ctab.lookup k = some v →
    s.ctab.lookup k = some v
  spared : ∀ k v, k ≠ fragmentKey a.frame.ipv4Header → Spares conf s a k →
    s.ctab.lookup k = some v → s'.ctab.lookup k = some v

/-- `lookup_reassembly` finds the entry of a fragment or makes one. -/
theorem lookupReassembly_spec (hs : WellKept conf s) (a : FrameArrival) :
    ∃ s' r, lookupReassembly conf s a = .ok (s', r) ∧ WellKept conf s' ∧
      s'.ctab.lookup (fragmentKey a.frame.ipv4Header) = some r ∧
      s'.copies = s.copies ++ s.headerCopies a.frame ∧ s'.transmitted = s.transmitted ∧
      Leaves conf s a s' ∧ Joins s a.frame r := by
  rw [lookupReassembly, headerCopies]
  cases hjoined : s.joined a.frame.ipv4Header with
  | some r =>
    have hlookup : s.ctab.lookup (fragmentKey a.frame.ipv4Header) = some r := hjoined
    simp only [hlookup]
    exact ⟨s, r, rfl, hs, hlookup, (append_nil _).symm, rfl,
      ⟨fun _ _ _ h => h, fun _ _ _ _ h => h⟩, .inl hjoined⟩
  | none =>
    have hlookup : s.ctab.lookup (fragmentKey a.frame.ipv4Header) = none := hjoined
    obtain ⟨r, hstart, hr, -⟩ := startReassembly_spec conf a.frame
    obtain ⟨room, hadd, hkept, hsub⟩ := addWithRandomEviction_spec hs hlookup hr a.choice
    simp only [hlookup]
    rw [bind_of_eq_ok hstart, bind_of_eq_ok hadd]
    refine ⟨_, r, rfl, ⟨hkept.entries, hkept.occupancy⟩, AList.lookup_insert room, rfl, rfl,
      ⟨fun k v hne hk => hsub k v ?_, fun k v hne hspares hk => ?_⟩, .inr ⟨hjoined, hstart⟩⟩
    · rwa [lookup_insert_ite, if_neg hne] at hk
    · exact addWithRandomEviction_keeps hadd hk hne (hspares hjoined)

/-- What a fragment is turned away for depends on the reassembly only. -/
theorem Joins.refused_iff (hr : Joins s a.frame r) (conf : ReassemblerConf) :
    (Refused conf s a.frame.ipv4Header ↔ TurnedAway conf r a.frame.ipv4Header) ∧
      s.baseFor a.frame.ipv4Header = r.reassemblyBase := by
  rw [Refused, TurnedAway, baseFor]
  rcases hr with hjoined | ⟨hjoined, hstart⟩
  · rw [hjoined]
    exact ⟨.rfl, rfl⟩
  · obtain ⟨r', hstart', -, hcount, hfinal, hbase⟩ := startReassembly_spec conf a.frame
    obtain rfl := ok_unique hstart' hstart
    rw [hjoined, hcount, hfinal, hbase]
    exact ⟨.rfl, rfl⟩

theorem finishFragment_spec (ipsum : List UInt8 → Nat) (hs : WellKept conf s)
    (hkey : s.ctab.lookup key = some r₀) (hr : FitsBuffer conf r) (base : Nat) :
    ∃ s', finishFragment ipsum s key r base = .ok s' ∧ WellKept conf s' ∧
      s'.copies = s.copies := by
  rw [finishFragment]
  split
  · exact ⟨_, rfl, hs.replace hkey hr, rfl⟩
  · split
    · have hclone : r.packet.clone base = .ok _ := if_pos hr.length
      rw [bind_of_eq_ok hclone]
      exact ⟨_, rfl, ⟨(hs.erase key).entries, (hs.erase key).occupancy⟩, rfl⟩
    · exact ⟨_, rfl, ⟨(hs.erase key).entries, (hs.erase key).occupancy⟩, rfl⟩

theorem toUInt16_le (n : Nat) : toUInt16 (n : Int) ≤ n := by
  rw [toUInt16]
  omega

theorem noteFragment_spec (r : Reassembly) (fragStart : Nat) (fragSize : Int) :
    (r.noteFragment fragStart fragSize).fragmentCount ≤ r.fragmentCount + 1 ∧
      (r.noteFragment fragStart fragSize).finalStart = r.finalStart ∧
      (r.noteFragment fragStart fragSize).reassemblyBase = r.reassemblyBase ∧
      (r.noteFragment fragStart fragSize).packet = r.packet := by
  have hcount := toUInt16_le (r.fragmentCount + 1)
  simp only [Reassembly.noteFragment]
  split
  · exact ⟨hcount, rfl, rfl, rfl⟩
  · exact ⟨hcount, rfl, rfl, rfl⟩

/-- A fragment that is noted leaves all but the offsets, the count and the final offset as it is. -/
theorem join_spec (r : Reassembly) (h : Ipv4Header) :
    (r.join h).fragmentCount ≤ r.fragmentCount + 1 ∧
      (r.join h).reassemblyBase = r.reassemblyBase ∧ (r.join h).packet = r.packet ∧
      (r.join h).runningLength = r.runningLength := by
  obtain ⟨hcount, -, hbase, hpacket⟩ := noteFragment_spec r h.fragStart h.fragSize
  have hrunning : (r.noteFragment h.fragStart h.fragSize).runningLength = r.runningLength := by
    simp only [Reassembly.noteFragment]
    split <;> rfl
  rw [Reassembly.join]
  split <;> exact ⟨hcount, hbase, hpacket, hrunning⟩

/-- The copy of the data, for a fragment whose data starts at `base` of its frame. -/
def dataCopy (base : Nat) (frame : Packet) : ReassemblyCopy :=
  ⟨frame.ipv4Header.fragSize, base, frame.length, base + frame.ipv4Header.fragStart⟩

/-- **What a fragment does** to the reassembly that it joins. -/
theorem handleFragment_cases (ipsum : List UInt8 → Nat)
    (hlookup : lookupReassembly conf s a = .ok (t, r)) :
    (TurnedAway conf r a.frame.ipv4Header ∧ handleFragment conf ipsum s a =
        .ok (t.reassemblyError (fragmentKey a.frame.ipv4Header))) ∨
    (¬ TurnedAway conf r a.frame.ipv4Header ∧ a.frame.ipv4Header.fragSize < 0 ∧
      handleFragment conf ipsum s a = .error (.copySize a.frame.ipv4Header.fragSize)) ∨
    (¬ TurnedAway conf r a.frame.ipv4Header ∧ 0 ≤ a.frame.ipv4Header.fragSize ∧
      handleFragment conf ipsum s a = (finishFragment ipsum { t with copies := t.copies ++
          [dataCopy r.reassemblyBase a.frame] } (fragmentKey a.frame.ipv4Header)
          (r.accept a.frame) a.base).mapError .raise) := by
  have hrun : handleFragment conf ipsum s a = _ :=
    bind_of_eq_ok (congrArg (Except.mapError ReassemblyFault.raise) hlookup)
  obtain ⟨-, hnfinal, -⟩ :=
    noteFragment_spec r a.frame.ipv4Header.fragStart a.frame.ipv4Header.fragSize
  by_cases hmany : r.fragmentCount + 1 > conf.maxFragmentsPerReassembly
  · refine .inl ⟨.inl hmany, hrun.trans ?_⟩
    simp only [if_pos hmany]
    rfl
  by_cases hsecond : a.frame.ipv4Header.isFinal ∧ r.finalStart ≠ 0
  · refine .inl ⟨.inr (.inl hsecond), hrun.trans ?_⟩
    simp only [if_neg hmany, if_pos hsecond.1, hnfinal, if_pos hsecond.2]
    rfl
  -- the data is copied, unless it would end behind the buffer
  have hbase := (join_spec r a.frame.ipv4Header).2.1
  have hcopy : handleFragment conf ipsum s a = copyData ipsum t (r.join a.frame.ipv4Header) a := by
    refine hrun.trans ?_
    simp only [if_neg hmany, Reassembly.join]
    by_cases hlast : a.frame.ipv4Header.isFinal
    · have hzero : r.finalStart = 0 := by
        by_contra hne
        exact hsecond ⟨hlast, hne⟩
      simp only [if_pos hlast, hnfinal, hzero, ne_eq, not_true_eq_false, if_false]
    · simp only [if_neg hlast]
  simp only [copyData, hbase] at hcopy
  by_cases hover : ((r.reassemblyBase + a.frame.ipv4Header.fragStart : Nat) : Int) +
      a.frame.ipv4Header.fragSize > maxPayload
  · rw [if_pos hover] at hcopy
    exact .inl ⟨.inr (.inr hover), hcopy⟩
  · have hturned : ¬ TurnedAway conf r a.frame.ipv4Header := by
      rw [TurnedAway]
      tauto
    rw [if_neg hover] at hcopy
    by_cases hsize : a.frame.ipv4Header.fragSize < 0
    · rw [if_pos hsize] at hcopy
      exact .inr (.inl ⟨hturned, hsize, hcopy⟩)
    · rw [if_neg hsize] at hcopy
      exact .inr (.inr ⟨hturned, not_lt.mp hsize, hcopy⟩)

theorem accept_fits (hr : FitsBuffer conf r) {frame : Packet}
    (hturned : ¬ TurnedAway conf r frame.ipv4Header) (hsize : 0 ≤ frame.ipv4Header.fragSize) :
    FitsBuffer conf (r.accept frame) := by
  obtain ⟨hmany, -, hroom⟩ := not_or.mp hturned |>.imp_right not_or.mp
  obtain ⟨hcount, hbase, hpacket, -⟩ := join_spec r frame.ipv4Header
  refine ⟨hcount.trans (not_lt.mp hmany), (Nat.mod_le _ _).trans (max_le ?_ ?_)⟩
  · rw [hpacket]
    exact hr.length
  · rw [hbase]
    omega

/-- The copy of the data of a fragment that is not turned away. -/
def dataCopies (conf : ReassemblerConf) (s : Reassembler) (frame : Packet) :
    List ReassemblyCopy :=
  if Refused conf s frame.ipv4Header then [] else [dataCopy (s.baseFor frame.ipv4Header) frame]

/-- What `handle_fragment` copies, and when the copy fails. -/
theorem handleFragment_spec (ipsum : List UInt8 → Nat) (hs : WellKept conf s) (a : FrameArrival) :
    if ¬ Refused conf s a.frame.ipv4Header ∧ a.frame.ipv4Header.fragSize < 0 then
      handleFragment conf ipsum s a = .error (.copySize a.frame.ipv4Header.fragSize)
    else
      ∃ s', handleFragment conf ipsum s a = .ok s' ∧ WellKept conf s' ∧
        s'.copies = s.copies ++ s.headerCopies a.frame ++ dataCopies conf s a.frame := by
  obtain ⟨t, r, hlookup, ht, hkey, hcopies, -, -, hjoins⟩ := lookupReassembly_spec hs a
  obtain ⟨hrefused, hbase⟩ := hjoins.refused_iff conf
  rw [dataCopies, ← hcopies, hbase]
  rcases handleFragment_cases ipsum hlookup with
    ⟨hturned, hresult⟩ | ⟨hturned, hsize, hresult⟩ | ⟨hturned, hsize, hresult⟩
  · have hturned := hrefused.mpr hturned
    rw [if_neg fun hand => hand.1 hturned, if_pos hturned, append_nil]
    exact ⟨_, hresult, ⟨(ht.erase _).entries, (ht.erase _).occupancy⟩, rfl⟩
  · rw [if_pos ⟨mt hrefused.mp hturned, hsize⟩]
    exact hresult
  · rw [if_neg fun hand => hsize.not_gt hand.2, if_neg (mt hrefused.mp hturned)]
    obtain ⟨s', hs', hkept, hcopies'⟩ := finishFragment_spec ipsum
      (s := { t with copies := t.copies ++ [dataCopy r.reassemblyBase a.frame] })
      ⟨ht.entries, ht.occupancy⟩ hkey (accept_fits (ht.entries _ r hkey) hturned hsize) a.base
    exact ⟨s', hresult.trans (congrArg (Except.mapError ReassemblyFault.raise) hs'), hkept,
      hcopies'⟩

/-- What a frame makes `push` copy. -/
def copiesFor (conf : ReassemblerConf) (s : Reassembler) (frame : Packet) : List ReassemblyCopy :=
  if takesFragment frame then s.headerCopies frame ++ dataCopies conf s frame else []

/-- The copy of the data is attempted with a negative size. -/
def Faults (conf : ReassemblerConf) (s : Reassembler) (frame : Packet) : Prop :=
  takesFragment frame ∧ ¬ Refused conf s frame.ipv4Header ∧ frame.ipv4Header.fragSize < 0

instance (conf : ReassemblerConf) (s : Reassembler) (frame : Packet) :
    Decidable (Faults conf s frame) :=
  inferInstanceAs (Decidable (_ ∧ _ ∧ _))

/-- **What one frame leads to**, whatever its bytes are: nothing but a copy of negative size
makes `push` fail. -/
theorem receive_spec (ipsum : List UInt8 → Nat) (hs : WellKept conf s) (a : FrameArrival) :
    if Faults conf s a.frame then
      receive conf ipsum s a = .error (.copySize a.frame.ipv4Header.fragSize)
    else
      ∃ s', receive conf ipsum s a = .ok s' ∧ WellKept conf s' ∧
        s'.copies = s.copies ++ copiesFor conf s a.frame := by
  by_cases htakes : takesFragment a.frame
  · have hhandle := handleFragment_spec ipsum (s := { s with
      shm := { s.shm with needsReassembly := s.shm.needsReassembly + 1 } })
      ⟨hs.entries, hs.occupancy⟩ a
    simp only [receive, htakes.1, htakes.2.1, htakes.2.2]
    rw [copiesFor, if_pos htakes, ← append_assoc]
    split at hhandle
    · next hfaults => rwa [if_pos ⟨htakes, hfaults⟩]
    · next hfaults => rwa [if_neg fun hand => hfaults hand.2]
  · rw [if_neg (fun hand => htakes hand.1), copiesFor, if_neg htakes, append_nil]
    simp only [receive]
    split
    · exact ⟨_, rfl, ⟨hs.entries, hs.occupancy⟩, rfl⟩
    · next htype =>
      split
      · exact ⟨_, rfl, hs, rfl⟩
      · next hvalid =>
        split
        · exact ⟨_, rfl, ⟨hs.entries, hs.occupancy⟩, rfl⟩
        · next hfragment =>
          exact absurd ⟨not_not.mp htype, not_not.mp hvalid, not_not.mp hfragment⟩ htakes

/-- The buffers have room: a copy is inside if its size and its source are. -/
theorem covered_iff (conf : ReassemblerConf) (s : Reassembler) (a : FrameArrival) :
    Covered conf s a ↔
      ¬ Faults conf s a.frame ∧ ∀ c ∈ copiesFor conf s a.frame, c.Inside := by
  by_cases htakes : takesFragment a.frame
  · have hheader : (∀ c ∈ s.headerCopies a.frame, c.Inside) ↔
        (s.joined a.frame.ipv4Header = none →
          a.frame.ipv4Header.headersLen ≤ a.frame.length) := by
      have hlen := headersLen_le a.frame
      rw [headerCopies]
      split
      · next hnone =>
        simp only [forall_mem_singleton, ReassemblyCopy.Inside, maxPayload, hnone,
          forall_const]
        omega
      · next hjoined => simp [hjoined]
    have hdata : (¬ Faults conf s a.frame ∧ ∀ c ∈ dataCopies conf s a.frame, c.Inside) ↔
        (¬ Refused conf s a.frame.ipv4Header → 0 ≤ a.frame.ipv4Header.fragSize ∧
          s.baseFor a.frame.ipv4Header + a.frame.ipv4Header.fragSize ≤ a.frame.length) := by
      rw [Faults, dataCopies]
      by_cases hrefused : Refused conf s a.frame.ipv4Header
      · simp [hrefused]
      · have hroom : ((s.baseFor a.frame.ipv4Header + a.frame.ipv4Header.fragStart : Nat) : Int) +
            a.frame.ipv4Header.fragSize ≤ maxPayload := by
          rw [Refused] at hrefused
          omega
        simp only [hrefused, if_false, forall_mem_singleton, ReassemblyCopy.Inside, dataCopy,
          not_false_eq_true, forall_const]
        omega
    rw [Covered, copiesFor, if_pos htakes, forall_mem_append]
    tauto
  · rw [Covered, copiesFor, Faults]
    simp [htakes]

/-- The states of a run that has stayed inside frames and buffers. -/
structure Sound (conf : ReassemblerConf) (s : Reassembler) : Prop extends WellKept conf s where
  inside : ∀ c ∈ s.copies, c.Inside

theorem Sound.bounded (hs : Sound conf s) : Bounded conf s where
  copies := hs.inside
  fragmentCount key r hlookup := (hs.entries key r hlookup).fragmentCount

/-- The condition is exact for one frame. -/
theorem covered_exact (ipsum : List UInt8 → Nat) (hs : Sound conf s) (a : FrameArrival) :
    Covered conf s a ↔ ∃ s', receive conf ipsum s a = .ok s' ∧ Sound conf s' := by
  have hreceive := receive_spec ipsum hs.toWellKept a
  rw [covered_iff]
  by_cases hfaults : Faults conf s a.frame
  · rw [if_pos hfaults] at hreceive
    rw [hreceive]
    simp [hfaults]
  · rw [if_neg hfaults] at hreceive
    obtain ⟨t, ht, hkept, hcopies⟩ := hreceive
    constructor
    · rintro ⟨-, hinside⟩
      refine ⟨t, ht, hkept, ?_⟩
      rw [hcopies]
      exact forall_mem_append.mpr ⟨hs.inside, hinside⟩
    · rintro ⟨s', hs', hsound⟩
      rw [ht] at hs'
      cases hs'
      refine ⟨hfaults, fun c hc => hsound.inside c ?_⟩
      rw [hcopies]
      exact mem_append_right _ hc

theorem wellKept_receive (hs : WellKept conf s)
    (hok : receive conf ipsum s a = .ok s') : WellKept conf s' := by
  have hreceive := receive_spec ipsum hs a
  split at hreceive
  · rw [hreceive] at hok
    cases hok
  · obtain ⟨t, ht, hkept, -⟩ := hreceive
    rw [ht] at hok
    cases hok
    exact hkept

theorem wellKept_run {arrivals : List FrameArrival}
    (hrun : run (receive conf ipsum) new arrivals = .ok s) : WellKept conf s :=
  run_inv (I := fun s _ => WellKept conf s) (P := fun _ _ => True)
    (fun _ _ _ _ hs _ hstep => wellKept_receive hs hstep) wellKept_new along_true hrun

/-- **Reassembly stays inside its frames and buffers exactly when the headers are covered**: a
sequence of calls of `push` raises nothing, copies nothing that is not in a frame, writes
nothing outside a buffer and never notes more fragments than it may if and only if every
fragment that arrives meets `Covered`. -/
theorem reassembly_bounded (conf : ReassemblerConf) (ipsum : List UInt8 → Nat)
    (rounds : List (List FrameArrival)) :
    ((∃ s, run (push conf ipsum) new rounds = .ok s) ∧
      ∀ k s, run (receive conf ipsum) new (rounds.flatten.take k) = .ok s → Bounded conf s) ↔
    Along (receive conf ipsum) (Covered conf) new rounds.flatten := by
  have hnew : Sound conf new := ⟨wellKept_new, fun c hc => nomatch hc⟩
  rw [← returns_iff (fun s a hs => covered_exact ipsum hs a) hnew]
  refine and_congr ?_ ?_
  · show (∃ s, run (run (receive conf ipsum)) new rounds = .ok s) ↔ _
    rw [run_run]
  · refine forall_congr' fun k => forall_congr' fun s => ?_
    constructor
    · intro hbounded hrun
      exact ⟨wellKept_run hrun, (hbounded hrun).copies⟩
    · intro hsound hrun
      exact (hsound hrun).bounded

/-- The default configuration. -/
def defaultConf : ReassemblerConf := ⟨20000, 40, by decide⟩

/-- A frame with an IPv4 header of `ihl` words, of which the last ones hold options. -/
def sampleFrame (ihl totalLength flagsAndFragmentOffset : Nat) (payload : List UInt8) :
    FrameArrival where
  frame := .fromPointer 1 <| List.replicate 12 0 ++ [8, 0, .ofNat (64 + ihl), 0] ++
    leBytes 2 (htons totalLength) ++ [0, 7] ++ leBytes 2 (htons flagsAndFragmentOffset) ++
    [64, 17, 0, 0, 10, 0, 0, 1, 10, 0, 0, 2] ++ List.replicate (ihl * 4 - 20) 1 ++ payload
  choice := 0
  base := 2

-- Two fragments that arrive in the wrong order leave as one datagram.
example : (run (push defaultConf fun _ => 0) new
    [[sampleFrame 5 22 1 [9, 9]], [sampleFrame 5 28 0x2000 [1, 2, 3, 4, 5, 6, 7, 8]]]).toOption.any
    (fun s => s.transmitted.map (fun p => p.bytes.drop 34) = [[1, 2, 3, 4, 5, 6, 7, 8, 9, 9]])
    = true := by
  decide +kernel

/-- A frame of 34 bytes whose header says that the whole packet is 10 bytes long passes the
check of its length, and its data is copied with a size of -10. -/
theorem short_total_length_faults :
    (sampleFrame 5 10 0x2000 []).frame.length = 34 ∧
      ∃ e, run (push defaultConf fun _ => 0) new [[sampleFrame 5 10 0x2000 []]] = .error e ∧
        e = .copySize (-10) := by
  refine ⟨by decide +kernel, ?_⟩
  obtain ⟨e, he, hsize⟩ := error_of_any
    (r := run (push defaultConf fun _ => 0) new [[sampleFrame 5 10 0x2000 []]])
    (q := fun e => decide (e = .copySize (-10))) (by decide +kernel)
  exact ⟨e, he, of_decide_eq_true hsize⟩

end Reassembler

end Snabb
