import Snabb.Apps.Ipv4.Reassemble

/-!
# Reassembly of IPv6 fragments (`apps/ipv6/reassemble.lua`)

`push` goes over the input link twice: the first loop forwards what is not a fragment, frees what
has no valid length and puts the fragments back on the link, and the second loop handles and
frees them. `expire` frees the buffers of the reassemblies that are too old.

A buffer leaves its table entry in four ways: it is transmitted when it is complete, and freed
when a fragment is not valid, when it expires, or when its entry is evicted. `places` counts where
a packet is, by the name that it got when it was received or allocated.

The size of the data of a fragment is its `payload_length` less the size of the fragment header.
`ipv6_packet_has_valid_length` compares the former with the frame, but nothing compares it with
the latter: `Sized` is what the header of a fragment has to satisfy besides the checks that are
made, and `reassembly6_sound` shows that it is exact.

- `step_spec`: what one event leads to, whatever the bytes of the frames are;
- `reassembly6_sound`: the copies of a run stay inside the frames and the buffers, nothing is
  raised and each packet is at one place, if and only if the fragments are sized.
-/

namespace Snabb

open Foundation List Table Packet AList

/-! ## The headers -/

def etherTypeIpv6 : Nat := 0x86dd

/-- `sizeof(ether_ipv6_header_t)`. -/
def etherIpv6HeaderLen : Nat := etherHeaderLen + 40

/-- `sizeof(fragment_header_t)`. -/
def fragmentHeaderLen : Nat := 8

def fragmentOffsetMask : Nat := bitMask 16 - bitMask 3

def fragmentFlagMoreFragments : Nat := 0x1

def fragmentProto : Nat := 44

/-- The fields of an `ether_ipv6_header_t` at the start of a frame, and of a `fragment_header_t`
behind it. -/
structure Ipv6Header where
  payloadLength : Nat
  nextHeader : Nat
  srcIp : List UInt8
  dstIp : List UInt8
  fragmentNextHeader : UInt8
  fragmentOffsetAndFlags : Nat
  fragmentId : Nat

/-- `ffi.cast(ether_ipv6_header_ptr_t, p.data)`. -/
def Packet.ipv6Header (p : Packet) : Ipv6Header where
  payloadLength := ntohs (leNat (p.window (etherHeaderLen + 4) 2))
  nextHeader := (p.byte (etherHeaderLen + 6)).toNat
  srcIp := p.window (etherHeaderLen + 8) 16
  dstIp := p.window (etherHeaderLen + 24) 16
  fragmentNextHeader := p.byte etherIpv6HeaderLen
  fragmentOffsetAndFlags := ntohs (leNat (p.window (etherIpv6HeaderLen + 2) 2))
  fragmentId := beNat (p.window (etherIpv6HeaderLen + 4) 4)

namespace Ipv6Header

/-- The fragment offset in bytes: its units are those that masking the flags off leaves. -/
def fragStart (h : Ipv6Header) : Nat := h.fragmentOffsetAndFlags &&& fragmentOffsetMask

def fragSize (h : Ipv6Header) : Int := (h.payloadLength : Int) - fragmentHeaderLen

/-- The flag "more fragments" is not set. -/
def isFinal (h : Ipv6Header) : Prop := h.fragmentOffsetAndFlags &&& fragmentFlagMoreFragments = 0

instance (h : Ipv6Header) : Decidable h.isFinal := inferInstanceAs (Decidable (_ = _))

def key (h : Ipv6Header) : FragmentKey := ⟨h.srcIp, h.dstIp, h.fragmentId⟩

end Ipv6Header

/-- `ipv6_packet_has_valid_length`. -/
def ipv6PacketHasValidLength (p : Packet) : Prop :=
  etherIpv6HeaderLen ≤ p.length ∧ p.ipv6Header.payloadLength ≤ p.length - etherIpv6HeaderLen

instance (p : Packet) : Decidable (ipv6PacketHasValidLength p) :=
  inferInstanceAs (Decidable (_ ∧ _))

/-! ## The reassembler -/

/-- The configuration, with `ticks_per_timeout`. -/
structure Reassembler6Conf extends ReassemblerConf where
  ticksPerTimeout : Nat

/-- The value type: one ongoing reassembly, with its creation time in TSC ticks. -/
structure Reassembly6 extends Reassembly where
  tstamp : Nat

/-- A frame on the input link, and what the environment does while it is worked on: the choice
that a full table makes, the time stamp, and whether the output link is full. -/
structure FrameArrival6 where
  frame : Packet
  choice : Nat
  stamp : Nat
  blocked : Bool

/-- The state of the app: the table, the counters, the fragments that the first loop of `push`
has put back on the input link, what was transmitted and freed, the history of the copies into
the buffers, and how many packets were received or allocated: their names are the numbers below. -/
structure Reassembler6 where
  ctab : Table FragmentKey Reassembly6
  shm : ReassemblerCounters
  waiting : List FrameArrival6
  transmitted : List Packet
  freed : List Packet
  copies : List ReassemblyCopy
  names : Nat

namespace Reassembly6

/-- Note where a fragment starts and ends; the starts and the ends are sorted when it starts
before the one noted last. -/
def noteFragment (r : Reassembly6) (fragStart : Nat) (fragSize : Int) : Reassembly6 :=
  { r with toReassembly := r.toReassembly.noteFragment fragStart fragSize }

/-- Copy `size` bytes from behind the fragment header, and count them. -/
def copyFragment (r : Reassembly6) (frame : Packet) (fragStart size : Nat) : Reassembly6 :=
  let maxDataOffset := etherIpv6HeaderLen + fragStart + size
  let packet := r.packet.write (r.reassemblyBase + fragStart)
    (frame.window (etherIpv6HeaderLen + fragmentHeaderLen) size)
  { r with packet := packet.setLength (max packet.length maxDataOffset)
           runningLength := (r.runningLength + size) % 2 ^ 32 }

end Reassembly6

namespace Reassembler6

/-- `Reassembler:new`. -/
def new : Reassembler6 := ⟨∅, ⟨0, 0, 0, 0, 0⟩, [], [], [], [], 0⟩

/-- `link.transmit` to the output link, which frees the packet if the link is full. -/
def transmit (s : Reassembler6) (blocked : Bool) (pkt : Packet) : Reassembler6 :=
  if blocked then { s with freed := s.freed ++ [pkt] }
  else { s with transmitted := s.transmitted ++ [pkt] }

/-- `reassembly_success`. -/
def reassemblySuccess (s : Reassembler6) (blocked : Bool) (key : FragmentKey) (pkt : Packet) :
    Reassembler6 :=
  let s := { s with shm := { s.shm with reassembled := s.shm.reassembled + 1 } }
  let s := s.transmit blocked pkt
  { s with ctab := s.ctab.erase key }

/-- `reassembly_error`, which is never given an ICMP packet. -/
def reassemblyError (s : Reassembler6) (key : FragmentKey) (pkt : Packet) : Reassembler6 :=
  { s with freed := s.freed ++ [pkt]
           ctab := s.ctab.erase key
           shm := { s.shm with invalidReassembly := s.shm.invalidReassembly + 1 } }

/-- The reassembly that a first fragment starts. -/
def startReassembly (name : Nat) (a : FrameArrival6) : Except Raise Reassembly6 := do
  let packet ← (fromPointer name []).append (a.frame.window 0 etherIpv6HeaderLen)
  return {
    fragmentStarts := fun _ => 0
    fragmentEnds := fun _ => 0
    fragmentCount := 0
    finalStart := 0
    reassemblyBase := etherIpv6HeaderLen
    runningLength := etherIpv6HeaderLen
    packet := packet
    tstamp := a.stamp }

/-- `lookup_reassembly`: the entry is named by its key. What is evicted is freed. -/
def lookupReassembly (conf : Reassembler6Conf) (s : Reassembler6) (a : FrameArrival6) :
    Except Raise (Reassembler6 × Reassembly6) :=
  let key := a.frame.ipv6Header.key
  match s.ctab.lookup key with
  | some reassembly => .ok (s, reassembly)
  | none => do
    let reassembly ← startReassembly s.names a
    let evicted := evictedEntry conf.occupancyHi s.ctab a.choice
    let (ctab, didEvict) ←
      addWithRandomEviction conf.occupancyHi s.ctab key reassembly a.choice
    let randomEvicted := s.shm.randomEvicted + if didEvict then 1 else 0
    return ({ s with
      ctab := ctab
      shm := { s.shm with randomEvicted := randomEvicted }
      freed := s.freed ++ evicted.toList.map (·.packet)
      copies := s.copies ++ [⟨etherIpv6HeaderLen, 0, a.frame.length, 0⟩]
      names := s.names + 1 }, reassembly)

/-- Make the headers of the first fragment those of a packet that is not fragmented. -/
def finishHeader (nextHeader : UInt8) (pkt : Packet) : Packet :=
  let pkt := pkt.write (etherHeaderLen + 4) (leBytes 2 (htons (pkt.length - etherIpv6HeaderLen)))
  pkt.write (etherHeaderLen + 6) [nextHeader]

/-- The end of `handle_fragment`: is the packet complete? -/
def finishFragment (s : Reassembler6) (a : FrameArrival6) (reassembly : Reassembly6) :
    Reassembler6 :=
  let h := a.frame.ipv6Header
  if reassembly.finalStart = 0 ∨ reassembly.runningLength ≠ reassembly.packet.length then
    -- still reassembling
    { s with ctab := s.ctab.insert h.key reassembly }
  else if reassembly.verifyValidOffsets then
    s.reassemblySuccess a.blocked h.key (finishHeader h.fragmentNextHeader reassembly.packet)
  else
    s.reassemblyError h.key reassembly.packet

/-- The copy of the data of a fragment. -/
def dataCopy (reassembly : Reassembly6) (frame : Packet) : ReassemblyCopy :=
  ⟨frame.ipv6Header.fragSize, etherIpv6HeaderLen + fragmentHeaderLen, frame.length,
    reassembly.reassemblyBase + frame.ipv6Header.fragStart⟩

/-- `handle_fragment` from the copy of the data on. -/
def copyData (s : Reassembler6) (reassembly : Reassembly6) (a : FrameArrival6) :
    Except ReassemblyFault Reassembler6 :=
  let h := a.frame.ipv6Header
  if ((etherIpv6HeaderLen + h.fragStart : Nat) : Int) + h.fragSize > maxPayload then
    .ok (s.reassemblyError h.key reassembly.packet)
  else if h.fragSize < 0 then
    .error (.copySize h.fragSize)
  else
    let reassembly' := reassembly.copyFragment a.frame h.fragStart h.fragSize.toNat
    let s := { s with copies := s.copies ++ [dataCopy reassembly a.frame] }
    .ok (s.finishFragment a reassembly')

/-- `handle_fragment`. -/
def handleFragment (conf : Reassembler6Conf) (s : Reassembler6) (a : FrameArrival6) :
    Except ReassemblyFault Reassembler6 := do
  let h := a.frame.ipv6Header
  let (s, reassembly) ← (lookupReassembly conf s a).mapError ReassemblyFault.raise
  if reassembly.fragmentCount + 1 > conf.maxFragmentsPerReassembly then
    -- too many fragments
    return s.reassemblyError h.key reassembly.packet
  else
    let reassembly := reassembly.noteFragment h.fragStart h.fragSize
    if h.isFinal then
      if reassembly.finalStart ≠ 0 then
        -- there cannot be more than one final fragment
        return s.reassemblyError h.key reassembly.packet
      else
        copyData s { reassembly with finalStart := toUInt16 h.fragStart } a
    else if h.fragSize % 8 ≠ 0 then
      -- the size of all non-terminal fragments must be a multiple of 8
      return s.reassemblyError h.key reassembly.packet
    else
      copyData s reassembly a

/-- The body of the first loop of `push`. The frame gets its name. -/
def sortFrame (s : Reassembler6) (a : FrameArrival6) : Reassembler6 :=
  let a := { a with frame := { a.frame with base := s.names } }
  let s := { s with names := s.names + 1 }
  let forward := { s with shm := { s.shm with reassemblyUnneeded := s.shm.reassemblyUnneeded + 1 } }
  if getEtherType a.frame ≠ etherTypeIpv6 then
    forward.transmit a.blocked a.frame
  else if ¬ ipv6PacketHasValidLength a.frame then
    { s with freed := s.freed ++ [a.frame] }
  else if a.frame.ipv6Header.nextHeader = fragmentProto then
    { s with shm := { s.shm with needsReassembly := s.shm.needsReassembly + 1 }
             waiting := s.waiting ++ [a] }
  else
    forward.transmit a.blocked a.frame

/-- The body of the second loop of `push`. -/
def handleNext (conf : Reassembler6Conf) (s : Reassembler6) :
    Except ReassemblyFault Reassembler6 :=
  match s.waiting with
  | [] => .ok s
  | a :: waiting => do
    let s ← handleFragment conf { s with waiting := waiting } a
    return { s with freed := s.freed ++ [a.frame] }

/-- The body of the loop of `expire`. Which entry the scan meets, if any, is up to the layout of
the table, and chosen by the input. -/
def scan (conf : Reassembler6Conf) (s : Reassembler6) (now : Nat) (met : Option FragmentKey) :
    Reassembler6 :=
  match met with
  | none => s
  | some key =>
    match s.ctab.lookup key with
    | none => s
    | some r =>
      if (now + (2 ^ 64 - r.tstamp % 2 ^ 64)) % 2 ^ 64 > conf.ticksPerTimeout then
        s.reassemblyError key r.packet
      else s

/-- One pass through a loop of `push` or of `expire`. -/
inductive Event where
  | sort (a : FrameArrival6)
  | handle
  | scan (now : Nat) (met : Option FragmentKey)

def step (conf : Reassembler6Conf) (s : Reassembler6) : Event → Except ReassemblyFault Reassembler6
  | .sort a => .ok (s.sortFrame a)
  | .handle => s.handleNext conf
  | .scan now met => .ok (s.scan conf now met)

/-- `Reassembler:push`, for the frames on the input link, and `Reassembler:expire`, for the
entries that it meets. -/
inductive Call where
  | push (arrivals : List FrameArrival6)
  | expire (now : Nat) (met : List (Option FragmentKey))

/-- One call. The second loop of `push` has as many passes as the first has put fragments back. -/
def call (conf : Reassembler6Conf) (s : Reassembler6) : Call → Except ReassemblyFault Reassembler6
  | .push arrivals => do
    let s ← run (step conf) s (arrivals.map .sort)
    run (step conf) s (List.replicate s.waiting.length .handle)
  | .expire now met => run (step conf) s (met.map (.scan now))

/-- The frame is one that the first loop of `push` puts back. -/
def takesFragment (frame : Packet) : Prop :=
  getEtherType frame = etherTypeIpv6 ∧ ipv6PacketHasValidLength frame ∧
    frame.ipv6Header.nextHeader = fragmentProto

instance (frame : Packet) : Decidable (takesFragment frame) :=
  inferInstanceAs (Decidable (_ ∧ _ ∧ _))

/-- The passes through the loops that a call makes. -/
def eventsOf : Call → List Event
  | .push arrivals => arrivals.map .sort ++
      List.replicate (arrivals.filter fun a => takesFragment a.frame).length .handle
  | .expire now met => met.map (.scan now)

/-! ## What the headers have to satisfy -/

/-- The entry that a fragment joins. -/
def joined (s : Reassembler6) (h : Ipv6Header) : Option Reassembly6 := s.ctab.lookup h.key

/-- A fragment that is turned away before its data is copied: one too many, a second final one,
one that is not final and whose size is not a multiple of 8, or one that ends behind the buffer. -/
def Refused (conf : Reassembler6Conf) (s : Reassembler6) (h : Ipv6Header) : Prop :=
  (s.joined h).elim 0 (·.fragmentCount) + 1 > conf.maxFragmentsPerReassembly ∨
    (h.isFinal ∧ (s.joined h).elim 0 (·.finalStart) ≠ 0) ∨
    (¬ h.isFinal ∧ h.fragSize % 8 ≠ 0) ∨
    ((etherIpv6HeaderLen + h.fragStart : Nat) : Int) + h.fragSize > maxPayload

instance (conf : Reassembler6Conf) (s : Reassembler6) (h : Ipv6Header) :
    Decidable (Refused conf s h) :=
  inferInstanceAs (Decidable (_ ∨ _ ∨ _ ∨ _))

/-- What nothing checks: the `payload_length` of a fragment that is not turned away is not smaller
than the fragment header. -/
def Sized (conf : Reassembler6Conf) (s : Reassembler6) : Event → Prop
  | .sort _ => True
  | .handle => ∀ a ∈ s.waiting.head?, ¬ Refused conf s a.frame.ipv6Header →
      fragmentHeaderLen ≤ a.frame.ipv6Header.payloadLength
  | .scan _ _ => True

/-- How often a packet is on the input link, held by an entry of the table, transmitted or
freed. -/
def places (s : Reassembler6) (name : Nat) : Nat :=
  (s.waiting.map fun a => a.frame.base).count name +
    ((Table.values s.ctab).map fun r => r.packet.base).count name +
    (s.transmitted.map base).count name + (s.freed.map base).count name

/-- Every copy so far was inside its frame and its buffer, and each packet that was received or
allocated is at one place. -/
structure Conserved (s : Reassembler6) : Prop where
  inside : ∀ c ∈ s.copies, c.Inside
  places : ∀ name, s.places name = if name < s.names then 1 else 0

/-! ## What a step leads to -/

/-- The invariant of the table and of what waits on the input link. -/
structure WellKept (conf : Reassembler6Conf) (s : Reassembler6) : Prop where
  base : ∀ key r, s.ctab.lookup key = some r → r.reassemblyBase = etherIpv6HeaderLen
  occupancy : s.ctab.keys.length ≤ conf.occupancyHi
  waiting : ∀ a ∈ s.waiting, ipv6PacketHasValidLength a.frame

/-- A part of `handle_fragment` or of `expire` keeps the invariant and what waits, finds a place
for each packet that it allocates, and makes the copies `cs`. -/
structure Leads (conf : Reassembler6Conf) (s s' : Reassembler6) (cs : List ReassemblyCopy) :
    Prop where
  kept : WellKept conf s'
  waiting : s'.waiting = s.waiting
  names_le : s.names ≤ s'.names
  places : ∀ name, s'.places name =
    s.places name + if s.names ≤ name ∧ name < s'.names then 1 else 0
  copies : s'.copies = s.copies ++ cs

variable {conf : Reassembler6Conf} {s s' s'' : Reassembler6} {a : FrameArrival6}
  {h : Ipv6Header} {key : FragmentKey} {r r₀ : Reassembly6} {cs cs' : List ReassemblyCopy}

theorem Leads.trans (h : Leads conf s s' cs) (h' : Leads conf s' s'' cs') :
    Leads conf s s'' (cs ++ cs') where
  kept := h'.kept
  waiting := h'.waiting.trans h.waiting
  names_le := h.names_le.trans h'.names_le
  places name := by
    have hle := h.names_le
    have hle' := h'.names_le
    rw [h'.places, h.places, Nat.add_assoc]
    congr 1
    split_ifs <;> omega
  copies := by rw [h'.copies, h.copies, append_assoc]

theorem leads_of_places (hkept : WellKept conf s') (hwaiting : s'.waiting = s.waiting)
    (hnames : s'.names = s.names) (hplaces : ∀ name, s'.places name = s.places name)
    (hcopies : s'.copies = s.copies ++ cs) : Leads conf s s' cs where
  kept := hkept
  waiting := hwaiting
  names_le := hnames.ge
  places name := by rw [hplaces, hnames, if_neg (by omega), Nat.add_zero]
  copies := hcopies

theorem wellKept_erase (hs : WellKept conf s) (key : FragmentKey) :
    (∀ k r, (s.ctab.erase key).lookup k = some r → r.reassemblyBase = etherIpv6HeaderLen) ∧
      (s.ctab.erase key).keys.length ≤ conf.occupancyHi := by
  constructor
  · intro k r hlookup
    rw [lookup_erase_ite] at hlookup
    split at hlookup
    · cases hlookup
    · exact hs.base k r hlookup
  · rw [keys_erase]
    exact length_erase_le.trans hs.occupancy

/-- The buffer of an entry that is removed is at no place of the table. -/
theorem count_erase (hkey : s.ctab.lookup key = some r) (name : Nat) :
    ((Table.values s.ctab).map fun r => r.packet.base).count name =
      ((Table.values (s.ctab.erase key)).map fun r => r.packet.base).count name +
        if r.packet.base = name then 1 else 0 := by
  rw [((values_perm_erase hkey).map _).count_eq, map_cons, count_cons]
  congr 1
  simp only [beq_iff_eq]

theorem reassemblyError_leads (hs : WellKept conf s) (hkey : s.ctab.lookup key = some r)
    {pkt : Packet} (hpkt : pkt.base = r.packet.base) :
    Leads conf s (s.reassemblyError key pkt) [] := by
  have herase := wellKept_erase hs key
  refine leads_of_places ⟨herase.1, herase.2, hs.waiting⟩ rfl rfl (fun name => ?_)
    (append_nil _).symm
  simp only [places, reassemblyError, count_erase hkey, map_append, count_append,
    map_cons, map_nil, count_singleton, hpkt, beq_iff_eq]
  omega

@[simp] theorem transmit_ctab (blocked : Bool) (pkt : Packet) :
    (s.transmit blocked pkt).ctab = s.ctab := by cases blocked <;> rfl

@[simp] theorem transmit_waiting (blocked : Bool) (pkt : Packet) :
    (s.transmit blocked pkt).waiting = s.waiting := by cases blocked <;> rfl

@[simp] theorem transmit_names (blocked : Bool) (pkt : Packet) :
    (s.transmit blocked pkt).names = s.names := by cases blocked <;> rfl

@[simp] theorem transmit_copies (blocked : Bool) (pkt : Packet) :
    (s.transmit blocked pkt).copies = s.copies := by cases blocked <;> rfl

theorem places_transmit (s : Reassembler6) (blocked : Bool) (pkt : Packet) (name : Nat) :
    (s.transmit blocked pkt).places name = s.places name + if pkt.base = name then 1 else 0 := by
  rw [transmit]
  split <;>
  · simp only [places, map_append, count_append, map_cons, map_nil,
      count_singleton, beq_iff_eq]
    omega

section

variable (hs : WellKept conf s)
include hs

theorem reassemblySuccess_leads (hkey : s.ctab.lookup key = some r)
    (blocked : Bool) {pkt : Packet} (hpkt : pkt.base = r.packet.base) :
    Leads conf s (s.reassemblySuccess blocked key pkt) [] := by
  have herase := wellKept_erase hs key
  cases blocked <;>
  · refine leads_of_places ⟨herase.1, herase.2, hs.waiting⟩ rfl rfl (fun name => ?_)
      (append_nil _).symm
    simp only [places, reassemblySuccess, transmit, count_erase hkey, map_append,
      count_append, map_cons, map_nil, count_singleton, hpkt, beq_iff_eq,
      if_true, Bool.false_eq_true, if_false]
    omega

theorem replace_leads (hkey : s.ctab.lookup key = some r₀)
    (hbase : r.reassemblyBase = etherIpv6HeaderLen) (hpkt : r.packet.base = r₀.packet.base) :
    Leads conf s { s with ctab := s.ctab.insert key r } [] := by
  refine leads_of_places ⟨fun k r' hlookup => ?_, ?_, hs.waiting⟩ rfl rfl (fun name => ?_)
    (append_nil _).symm
  · simp only [lookup_insert_ite] at hlookup
    split at hlookup
    · cases hlookup
      exact hbase
    · exact hs.base k r' hlookup
  · have hmem : key ∈ s.ctab.keys := AList.mem_keys.mp (Table.mem_iff_lookup.mpr ⟨r₀, hkey⟩)
    have hpos := length_pos_of_mem hmem
    rw [keys_insert, length_cons, length_erase_of_mem hmem,
      Nat.sub_add_cancel hpos]
    exact hs.occupancy
  · simp only [places, values_insert, count_erase hkey, map_cons, count_cons, hpkt,
      beq_iff_eq]

/-- **`lookup_reassembly` finds the entry of a fragment or makes one.** -/
theorem lookupReassembly_leads (a : FrameArrival6) (hvalid : ipv6PacketHasValidLength a.frame) :
    ∃ s' r cs, lookupReassembly conf s a = .ok (s', r) ∧ Leads conf s s' cs ∧
      s'.ctab.lookup a.frame.ipv6Header.key = some r ∧ (∀ c ∈ cs, c.Inside) ∧
      r.fragmentCount = (s.joined a.frame.ipv6Header).elim 0 (·.fragmentCount) ∧
      r.finalStart = (s.joined a.frame.ipv6Header).elim 0 (·.finalStart) := by
  rw [lookupReassembly]
  cases hjoined : s.joined a.frame.ipv6Header with
  | some r =>
    have hlookup : s.ctab.lookup a.frame.ipv6Header.key = some r := hjoined
    simp only [hlookup]
    exact ⟨s, r, [], rfl, leads_of_places hs rfl rfl (fun _ => rfl) (append_nil _).symm,
      hlookup, fun c hc => (nomatch hc), rfl, rfl⟩
  | none =>
    have hlookup : s.ctab.lookup a.frame.ipv6Header.key = none := hjoined
    have hempty : (fromPointer s.names []).length = 0 := rfl
    have happend : (fromPointer s.names []).append (a.frame.window 0 etherIpv6HeaderLen) =
        .ok _ := if_pos (by
      rw [length_window, hempty]
      decide)
    obtain ⟨r, hstart, hbase, hcount, hfinal, hname⟩ : ∃ r, startReassembly s.names a = .ok r ∧
        r.reassemblyBase = etherIpv6HeaderLen ∧ r.fragmentCount = 0 ∧ r.finalStart = 0 ∧
        r.packet.base = s.names := ⟨_, bind_of_eq_ok happend, rfl, rfl, rfl, rfl⟩
    obtain ⟨room, hadd, hnot, hroom, hsub, hperm⟩ := addWithRandomEviction_ok
      (Reassembler.occupancyHi_pos conf.toReassemblerConf) hs.occupancy hlookup r a.choice
    simp only [hlookup]
    rw [bind_of_eq_ok hstart, bind_of_eq_ok hadd]
    refine ⟨_, r, [⟨etherIpv6HeaderLen, 0, a.frame.length, 0⟩], rfl, ⟨⟨?_, ?_, hs.waiting⟩, rfl,
      Nat.le_succ _, fun name => ?_, rfl⟩, lookup_insert room, ?_, hcount, hfinal⟩
    · intro k r' hk
      simp only [lookup_insert_ite] at hk
      split at hk
      · cases hk
        exact hbase
      · exact hs.base k r' (hsub k r' hk)
    · show (room.insert _ r).keys.length ≤ _
      rw [keys_insert, length_cons]
      have hle : (room.keys.erase a.frame.ipv6Header.key).length ≤ room.keys.length :=
        length_erase_le
      omega
    · have hcounts := (hperm.map fun r : Reassembly6 => r.packet.base).count_eq name
      rw [map_append, count_append] at hcounts
      simp only [places, values_insert_of_notMem hnot, map_cons, count_cons, map_append,
        count_append, map_map, beq_iff_eq]
      simp only [Function.comp_def]
      split_ifs <;> omega
    · intro c hc
      rw [mem_singleton.mp hc]
      have hle := hvalid.1
      simp only [ReassemblyCopy.Inside, maxPayload, etherIpv6HeaderLen, etherHeaderLen] at hle ⊢
      omega

section

variable (hkey : s.ctab.lookup a.frame.ipv6Header.key = some r₀)
  (hbase : r.reassemblyBase = etherIpv6HeaderLen)
include hkey hbase

/-- The end of `handle_fragment` moves the buffer, or leaves it where it is. -/
theorem finishFragment_leads (hpkt : r.packet.base = r₀.packet.base) :
    Leads conf s (s.finishFragment a r) [] := by
  rw [finishFragment]
  split
  · exact replace_leads hs hkey hbase hpkt
  · split
    · exact reassemblySuccess_leads hs hkey a.blocked hpkt
    · exact reassemblyError_leads hs hkey hpkt

/-- A fragment that ends behind the buffer is turned away, one whose data has no size makes the
copy fail, and of any other the data is copied, inside its frame and the buffer. -/
theorem copyData_leads (hpkt : r.packet.base = r₀.packet.base)
    (hvalid : ipv6PacketHasValidLength a.frame) :
    if ((etherIpv6HeaderLen + a.frame.ipv6Header.fragStart : Nat) : Int) +
        a.frame.ipv6Header.fragSize ≤ maxPayload ∧ a.frame.ipv6Header.fragSize < 0 then
      copyData s r a = .error (.copySize a.frame.ipv6Header.fragSize)
    else ∃ s' cs, copyData s r a = .ok s' ∧ Leads conf s s' cs ∧ ∀ c ∈ cs, c.Inside := by
  rw [copyData]
  by_cases hover : ((etherIpv6HeaderLen + a.frame.ipv6Header.fragStart : Nat) : Int) +
      a.frame.ipv6Header.fragSize > maxPayload
  · rw [if_neg fun hand => absurd hand.1 (by omega), if_pos hover]
    exact ⟨_, [], rfl, reassemblyError_leads hs hkey hpkt, fun c hc => (nomatch hc)⟩
  · rw [if_neg hover]
    by_cases hsize : a.frame.ipv6Header.fragSize < 0
    · rw [if_pos ⟨by omega, hsize⟩, if_pos hsize]
    · rw [if_neg fun hand => hsize hand.2, if_neg hsize]
      have hcopied : Leads conf s { s with copies := s.copies ++ [dataCopy r a.frame] }
          [dataCopy r a.frame] :=
        leads_of_places ⟨hs.base, hs.occupancy, hs.waiting⟩ rfl rfl (fun _ => rfl) rfl
      refine ⟨_, _, rfl, hcopied.trans (finishFragment_leads hcopied.kept hkey hbase hpkt),
        fun c hc => ?_⟩
      rw [mem_singleton.mp hc]
      obtain ⟨hlength, hpayload⟩ := hvalid
      simp only [ReassemblyCopy.Inside, dataCopy, Ipv6Header.fragSize] at hover hsize ⊢
      omega

end

/-- **What `handle_fragment` leads to**, and when its copy fails. -/
theorem handleFragment_leads (hvalid : ipv6PacketHasValidLength a.frame) :
    if ¬ Refused conf s a.frame.ipv6Header ∧ a.frame.ipv6Header.fragSize < 0 then
      handleFragment conf s a = .error (.copySize a.frame.ipv6Header.fragSize)
    else ∃ s' cs, handleFragment conf s a = .ok s' ∧ Leads conf s s' cs ∧ ∀ c ∈ cs, c.Inside := by
  obtain ⟨t, r, cs, hlookup, hleads, hkey, hinside, hcount, hfinal⟩ :=
    lookupReassembly_leads hs a hvalid
  have hrun : handleFragment conf s a = _ :=
    bind_of_eq_ok (congrArg (Except.mapError ReassemblyFault.raise) hlookup)
  rw [hrun]
  obtain ⟨-, hnfinal, hnbase, hnpacket⟩ := Reassembler.noteFragment_spec r.toReassembly
    a.frame.ipv6Header.fragStart a.frame.ipv6Header.fragSize
  have hbase := hleads.kept.base _ r hkey
  have hrefuse : Refused conf s a.frame.ipv6Header → ∀ pkt : Packet, pkt.base = r.packet.base →
      if ¬ Refused conf s a.frame.ipv6Header ∧ a.frame.ipv6Header.fragSize < 0 then
        (.ok (t.reassemblyError a.frame.ipv6Header.key pkt) : Except ReassemblyFault Reassembler6) =
          .error (.copySize a.frame.ipv6Header.fragSize)
      else ∃ s' cs, (.ok (t.reassemblyError a.frame.ipv6Header.key pkt) :
        Except ReassemblyFault Reassembler6) = .ok s' ∧ Leads conf s s' cs ∧
          ∀ c ∈ cs, c.Inside := by
    intro hrefused pkt hpkt
    rw [if_neg fun hand => hand.1 hrefused]
    exact ⟨_, _, rfl, hleads.trans (reassemblyError_leads hleads.kept hkey hpkt), by
      rwa [append_nil]⟩
  -- the fragment is one too many
  by_cases hmany : r.fragmentCount + 1 > conf.maxFragmentsPerReassembly
  · simp only [if_pos hmany]
    exact hrefuse (.inl (hcount ▸ hmany)) _ rfl
  simp only [if_neg hmany]
  -- it is a second final one
  by_cases hsecond : a.frame.ipv6Header.isFinal ∧ r.finalStart ≠ 0
  · simp only [Reassembly6.noteFragment, if_pos hsecond.1, hnfinal, if_pos hsecond.2]
    exact hrefuse (.inr (.inl (hfinal ▸ hsecond))) _ (congrArg base hnpacket)
  -- it is not final, and its size is not a multiple of 8
  by_cases hodd : ¬ a.frame.ipv6Header.isFinal ∧ a.frame.ipv6Header.fragSize % 8 ≠ 0
  · simp only [if_neg hodd.1, if_pos hodd.2]
    exact hrefuse (.inr (.inr (.inl hodd))) _ (congrArg base hnpacket)
  -- the data is copied, unless it would end behind the buffer
  have hrefused : Refused conf s a.frame.ipv6Header ↔
      ((etherIpv6HeaderLen + a.frame.ipv6Header.fragStart : Nat) : Int) +
        a.frame.ipv6Header.fragSize > maxPayload := by
    rw [Refused, ← hcount, ← hfinal]
    tauto
  have hcopy : ∀ r' : Reassembly6, r'.reassemblyBase = r.reassemblyBase →
      r'.packet = r.packet →
      if ¬ Refused conf s a.frame.ipv6Header ∧ a.frame.ipv6Header.fragSize < 0 then
        copyData t r' a = .error (.copySize a.frame.ipv6Header.fragSize)
      else ∃ s' cs, copyData t r' a = .ok s' ∧ Leads conf s s' cs ∧ ∀ c ∈ cs, c.Inside := by
    intro r' hbase' hpkt'
    have hdata := copyData_leads hleads.kept hkey (hbase'.trans hbase)
      (congrArg base hpkt') hvalid
    simp only [hrefused, not_lt]
    split at hdata
    · next hfails => rwa [if_pos hfails]
    · next hfails =>
      rw [if_neg hfails]
      obtain ⟨s', cs', hs', hleads', hinside'⟩ := hdata
      exact ⟨s', _, hs', hleads.trans hleads',
        forall_mem_append.mpr ⟨hinside, hinside'⟩⟩
  by_cases hlast : a.frame.ipv6Header.isFinal
  · have hfirst : r.finalStart = 0 := by
      by_contra hne
      exact hsecond ⟨hlast, hne⟩
    simp only [Reassembly6.noteFragment, if_pos hlast, hnfinal, hfirst]
    exact hcopy _ hnbase hnpacket
  · have heven : a.frame.ipv6Header.fragSize % 8 = 0 := by
      by_contra hne
      exact hodd ⟨hlast, hne⟩
    simp only [if_neg hlast, heven]
    exact hcopy _ hnbase hnpacket

end

/-! ## What an event leads to -/

/-- What every event keeps. -/
structure Sound (conf : Reassembler6Conf) (s : Reassembler6) : Prop where
  kept : WellKept conf s
  conserved : Conserved s

theorem Leads.sound (hleads : Leads conf s s' cs) (hinside : ∀ c ∈ cs, c.Inside)
    (hs : Sound conf s) : Sound conf s' where
  kept := hleads.kept
  conserved := {
    inside := by
      rw [hleads.copies]
      exact forall_mem_append.mpr ⟨hs.conserved.inside, hinside⟩
    places := fun name => by
      have hle := hleads.names_le
      rw [hleads.places, hs.conserved.places]
      split_ifs <;> omega }

theorem scan_leads (hs : WellKept conf s) (now : Nat) (met : Option FragmentKey) :
    Leads conf s (s.scan conf now met) [] := by
  have hsame : Leads conf s s [] :=
    leads_of_places hs rfl rfl (fun _ => rfl) (append_nil _).symm
  cases met with
  | none => exact hsame
  | some key =>
    cases hlookup : s.ctab.lookup key with
    | none =>
      simp only [scan, hlookup]
      exact hsame
    | some r =>
      simp only [scan, hlookup]
      split
      · exact reassemblyError_leads hs hlookup rfl
      · exact hsame

section

variable (hs : Sound conf s)
include hs

theorem Sound.receive (hkept : WellKept conf s')
    (hnames : s'.names = s.names + 1) (hcopies : s'.copies = s.copies)
    (hplaces : ∀ name, s'.places name = s.places name + if s.names = name then 1 else 0) :
    Sound conf s' where
  kept := hkept
  conserved := {
    inside := hcopies ▸ hs.conserved.inside
    places := fun name => by
      rw [hplaces, hs.conserved.places]
      split_ifs <;> omega }

/-- A frame that the first loop receives is forwarded, freed or put back. -/
theorem sortFrame_sound (a : FrameArrival6) :
    Sound conf (s.sortFrame a) ∧ (s.sortFrame a).waiting.length =
      s.waiting.length + if takesFragment a.frame then 1 else 0 := by
  obtain ⟨hbase, hoccupancy, hwaiting⟩ := hs.kept
  have hforward : ∀ shm pkt, pkt.base = s.names →
      Sound conf (transmit { s with names := s.names + 1, shm := shm } a.blocked pkt) := by
    intro shm pkt hpkt
    refine hs.receive ⟨?_, ?_, ?_⟩ (transmit_names ..) (transmit_copies ..) fun name => ?_
    · simpa only [transmit_ctab] using hbase
    · simpa only [transmit_ctab] using hoccupancy
    · simpa only [transmit_waiting] using hwaiting
    · rw [places_transmit, hpkt]
      rfl
  by_cases htype : getEtherType a.frame = etherTypeIpv6
  · by_cases hvalid : ipv6PacketHasValidLength a.frame
    · by_cases hproto : a.frame.ipv6Header.nextHeader = fragmentProto
      · have heq : s.sortFrame a = _ :=
          (if_neg (not_not_intro htype)).trans
            ((if_neg (not_not_intro hvalid)).trans (if_pos hproto))
        rw [heq, if_pos ⟨htype, hvalid, hproto⟩]
        refine ⟨hs.receive ⟨hbase, hoccupancy, ?_⟩ rfl rfl fun name => ?_, List.length_append⟩
        · exact forall_mem_append.mpr ⟨hwaiting, forall_mem_singleton.mpr hvalid⟩
        · simp only [places, map_append, count_append, map_cons, map_nil,
            count_singleton, beq_iff_eq]
          omega
      · have heq : s.sortFrame a = _ :=
          (if_neg (not_not_intro htype)).trans
            ((if_neg (not_not_intro hvalid)).trans (if_neg hproto))
        rw [heq, if_neg fun htakes => hproto htakes.2.2, transmit_waiting]
        exact ⟨hforward _ _ rfl, rfl⟩
    · have heq : s.sortFrame a = _ :=
        (if_neg (not_not_intro htype)).trans (if_pos hvalid)
      rw [heq, if_neg fun htakes => hvalid htakes.2.1]
      refine ⟨hs.receive ⟨hbase, hoccupancy, hwaiting⟩ rfl rfl fun name => ?_, rfl⟩
      simp only [places, map_append, count_append, map_cons, map_nil,
        count_singleton, beq_iff_eq]
      omega
  · have heq : s.sortFrame a = _ := if_pos htype
    rw [heq, if_neg fun htakes => htype htakes.1, transmit_waiting]
    exact ⟨hforward _ _ rfl, rfl⟩

theorem handleNext_sound :
    (Sized conf s .handle ↔ ∃ s', s.handleNext conf = .ok s') ∧
      ∀ s', s.handleNext conf = .ok s' → Sound conf s' ∧ s'.waiting = s.waiting.tail := by
  cases hwaiting : s.waiting with
  | nil =>
    have heq : s.handleNext conf = .ok s := by rw [handleNext, hwaiting]
    rw [heq]
    refine ⟨⟨fun _ => ⟨s, rfl⟩, fun _ a ha => ?_⟩, fun s' hs' => ?_⟩
    · rw [hwaiting] at ha
      cases ha
    · cases hs'
      exact ⟨hs, hwaiting⟩
  | cons a waiting =>
    obtain ⟨hvalid, hrest⟩ := forall_mem_cons.mp (hwaiting ▸ hs.kept.waiting)
    have hsized : Sized conf s .handle ↔
        ¬ (¬ Refused conf s a.frame.ipv6Header ∧ a.frame.ipv6Header.fragSize < 0) := by
      simp only [Sized, hwaiting, List.head?_cons, Option.mem_some_iff, forall_eq',
        Ipv6Header.fragSize, not_and, not_lt, sub_nonneg, Nat.cast_le]
    have hhandle := handleFragment_leads (s := { s with waiting := waiting })
      ⟨hs.kept.base, hs.kept.occupancy, hrest⟩ hvalid
    have heq : s.handleNext conf =
        (handleFragment conf { s with waiting := waiting } a >>= fun t =>
          .ok { t with freed := t.freed ++ [a.frame] }) := by
      rw [handleNext, hwaiting]
      rfl
    rw [heq, hsized]
    split at hhandle
    · next hfails =>
      rw [hhandle]
      refine ⟨⟨fun hnot => absurd hfails hnot, fun hok => ?_⟩, fun s' hs' => (nomatch hs')⟩
      obtain ⟨s', hs'⟩ := hok
      cases hs'
    · next hfails =>
      obtain ⟨t, cs, ht, hleads, hinside⟩ := hhandle
      rw [bind_of_eq_ok ht]
      refine ⟨⟨fun _ => ⟨_, rfl⟩, fun _ => hfails⟩, fun s' hs' => ?_⟩
      cases hs'
      refine ⟨⟨⟨hleads.kept.base, hleads.kept.occupancy, hleads.kept.waiting⟩,
        ⟨?_, fun name => ?_⟩⟩, hleads.waiting⟩
      · show ∀ c ∈ t.copies, c.Inside
        rw [hleads.copies]
        exact forall_mem_append.mpr ⟨hs.conserved.inside, hinside⟩
      · have hbefore := hs.conserved.places name
        have hafter := hleads.places name
        have hle : s.names ≤ t.names := hleads.names_le
        have hsame : t.waiting = waiting := hleads.waiting
        simp only [places, hwaiting, map_cons, count_cons, map_append, count_append, map_nil,
          count_nil] at hbefore hafter ⊢
        split_ifs at hbefore hafter ⊢ <;> omega

/-- An event raises nothing exactly when the fragment that it handles is sized, and leaves every
packet at one place. -/
theorem step_spec (e : Event) :
    (Sized conf s e ↔ ∃ s', step conf s e = .ok s') ∧
      ∀ s', step conf s e = .ok s' → Sound conf s' := by
  cases e with
  | sort a =>
    refine ⟨⟨fun _ => ⟨_, rfl⟩, fun _ => trivial⟩, fun s' hs' => ?_⟩
    cases hs'
    exact (sortFrame_sound hs a).1
  | handle =>
    obtain ⟨hsized, hkeeps⟩ := handleNext_sound hs
    exact ⟨hsized, fun s' hs' => (hkeeps s' hs').1⟩
  | scan now met =>
    refine ⟨⟨fun _ => ⟨_, rfl⟩, fun _ => trivial⟩, fun s' hs' => ?_⟩
    cases hs'
    exact (scan_leads hs.kept now met).sound (fun c hc => (nomatch hc)) hs

/-! ## Calls -/

theorem run_sort (arrivals : List FrameArrival6) :
    ∃ s', run (step conf) s (arrivals.map .sort) = .ok s' ∧ Sound conf s' ∧ s'.waiting.length =
      s.waiting.length + (arrivals.filter fun a => takesFragment a.frame).length := by
  induction arrivals generalizing s with
  | nil => exact ⟨s, rfl, hs, rfl⟩
  | cons a arrivals ih =>
    obtain ⟨hsorted, hlength⟩ := sortFrame_sound hs a
    obtain ⟨s', hrun, hs', hwaiting⟩ := ih hsorted
    refine ⟨s', hrun, hs', ?_⟩
    rw [hwaiting, hlength, filter_cons]
    by_cases htakes : takesFragment a.frame
    · rw [if_pos htakes, if_pos (decide_eq_true htakes), length_cons]
      omega
    · rw [if_neg htakes, if_neg (by simpa using htakes), Nat.add_zero]

theorem run_handle (hrun : run (step conf) s (List.replicate s.waiting.length .handle) = .ok s') :
    Sound conf s' ∧ s'.waiting = [] := by
  generalize hn : s.waiting.length = n at hrun
  induction n generalizing s with
  | zero =>
    cases hrun
    exact ⟨hs, eq_nil_of_length_eq_zero hn⟩
  | succ n ih =>
    obtain ⟨t, ht, hrest⟩ := run_cons_eq_ok hrun
    obtain ⟨hsound, htail⟩ := (handleNext_sound hs).2 t ht
    refine ih hsound ?_ hrest
    rw [htail, length_tail, hn, Nat.add_sub_cancel]

/-- Outside the calls nothing waits, and a call is the run of its events. -/
theorem call_eq_run (hwaiting : s.waiting = []) (c : Call) :
    call conf s c = run (step conf) s (eventsOf c) ∧
      ∀ s', call conf s c = .ok s' → Sound conf s' ∧ s'.waiting = [] := by
  cases c with
  | push arrivals =>
    obtain ⟨t, hrun, ht, hlength⟩ := run_sort hs arrivals
    rw [hwaiting, length_nil, Nat.zero_add] at hlength
    have heq : call conf s (.push arrivals) =
        run (step conf) t (List.replicate t.waiting.length .handle) := bind_of_eq_ok hrun
    refine ⟨?_, fun s' hs' => run_handle ht (heq ▸ hs')⟩
    rw [heq, eventsOf, run_append hrun, hlength]
  | expire now met =>
    refine ⟨rfl, fun s' hs' => ?_⟩
    refine run_inv (I := fun s es => (Sound conf s ∧ s.waiting = []) ∧
      ∀ e ∈ es, ∃ met, e = .scan now met) (P := fun _ _ => True) ?_ ⟨⟨hs, hwaiting⟩, ?_⟩
      along_true hs' |>.1
    · rintro t e es t' ⟨⟨ht, hnone⟩, hscans⟩ - hstep
      obtain ⟨hscan, hrest⟩ := forall_mem_cons.mp hscans
      obtain ⟨m, rfl⟩ := hscan
      cases hstep
      have hleads := scan_leads ht.kept now m
      exact ⟨⟨hleads.sound (fun c hc => (nomatch hc)) ht, hleads.waiting.trans hnone⟩, hrest⟩
    · intro e he
      obtain ⟨m, -, rfl⟩ := mem_map.mp he
      exact ⟨m, rfl⟩

theorem run_call (hwaiting : s.waiting = []) (calls : List Call) :
    run (call conf) s calls = run (step conf) s (calls.flatMap eventsOf) := by
  induction calls generalizing s with
  | nil => rfl
  | cons c calls ih =>
    obtain ⟨heq, hkeeps⟩ := call_eq_run hs hwaiting c
    rw [flatMap_cons]
    cases hcall : call conf s c with
    | ok t =>
      obtain ⟨ht, hnone⟩ := hkeeps t hcall
      rw [run_cons_ok hcall, ih ht hnone, run_append (heq ▸ hcall)]
    | error e => rw [run, hcall, run_append_error (heq ▸ hcall)]

end

theorem sound_new : Sound conf new where
  kept := ⟨fun _ _ hlookup => (nomatch hlookup), Nat.zero_le _, fun _ ha => (nomatch ha)⟩
  conserved := ⟨fun _ hc => (nomatch hc), fun _ => rfl⟩

/-- **Reassembly is safe and loses no packet exactly when the fragments are sized**: a sequence
of calls of `push` and `expire` raises nothing, copies nothing outside a frame or a buffer, and
has each packet at one place at every point, if and only if no fragment whose data is copied has
a `payload_length` smaller than the fragment header. -/
theorem reassembly6_sound (conf : Reassembler6Conf) (calls : List Call) :
    ((∃ s, run (call conf) new calls = .ok s) ∧
      ∀ k s, run (step conf) new ((calls.flatMap eventsOf).take k) = .ok s → Conserved s) ↔
    Along (step conf) (Sized conf) new (calls.flatMap eventsOf) := by
  rw [run_call sound_new rfl]
  have hnew : Sound conf new := sound_new
  refine returns_good_iff (I := Sound conf) (A := fun _ _ => True)
    (fun s e s' hs _ hstep => (step_spec hs e).2 s' hstep) (fun s e hs _ _ => ?_) hnew
    hnew.conserved along_true
  obtain ⟨hsized, hkeeps⟩ := step_spec hs e
  rw [hsized]
  constructor
  · rintro ⟨s', hs'⟩
    exact ⟨s', hs', (hkeeps s' hs').conserved⟩
  · rintro ⟨s', hs', -⟩
    exact ⟨s', hs'⟩

/-- The default configuration, with a clock of one tick per second. -/
def defaultConf : Reassembler6Conf := ⟨Reassembler.defaultConf, 60⟩

/-- A fragment of the flow 7, of a frame that arrives while the output link has room. -/
def sampleFragment (payloadLength offsetAndFlags : Nat) (payload : List UInt8) : FrameArrival6 where
  frame := .fromPointer 0 <| List.replicate 12 0 ++ [0x86, 0xdd, 0x60, 0, 0, 0] ++
    leBytes 2 (htons payloadLength) ++ [44, 64] ++ List.replicate 32 1 ++ [17, 0] ++
    leBytes 2 (htons offsetAndFlags) ++ [0, 0, 0, 7] ++ payload
  choice := 0
  stamp := 0
  blocked := false

-- Two fragments that arrive in the wrong order leave as one packet, in the buffer with number 2.
example : (run (call defaultConf) new [.push [sampleFragment 10 8 [9, 9],
    sampleFragment 16 1 [1, 2, 3, 4, 5, 6, 7, 8]]]).toOption.any (fun s =>
      s.transmitted.map (fun p => (p.base, p.bytes.drop 54)) =
        [(2, [1, 2, 3, 4, 5, 6, 7, 8, 9, 9])] ∧
      s.freed.map base = [0, 1] ∧ Table.values s.ctab = []) = true := by
  decide +kernel

/-- A fragment of 62 bytes whose header says that there is no payload passes the check of its
length, and its data is copied with a size of -8. -/
theorem empty_payload_length_faults :
    takesFragment (sampleFragment 0 1 []).frame ∧
      ∃ e, run (call defaultConf) new [.push [sampleFragment 0 1 []]] = .error e ∧
        e = .copySize (-8) := by
  refine ⟨by decide +kernel, ?_⟩
  obtain ⟨e, he, hsize⟩ := error_of_any
    (r := run (call defaultConf) new [.push [sampleFragment 0 1 []]])
    (q := fun e => decide (e = .copySize (-8))) (by decide +kernel)
  exact ⟨e, he, of_decide_eq_true hsize⟩

end Reassembler6

end Snabb
