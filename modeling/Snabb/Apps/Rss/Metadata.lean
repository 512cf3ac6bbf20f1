import Snabb.Foundation.Loop

/-!
# Packet meta-data (`apps/rss/metadata.lua`)

The rss app notes in the headroom of each packet what kind of packet it is. For an IPv6 packet it
goes through the extension headers to find the protocol behind them, and it may take them out.

A packet is what stands in memory from its first byte on, its length and the meta-data in front of
it; the pointers of the meta-data are positions in the packet. The while loop over the extension
headers is bounded by a fuel.
-/

namespace Snabb

namespace Rss

open Foundation

/-- What stands in memory from a position on. -/
abbrev Bytes := Nat → UInt8

/-- A `uint16_t`, from a number. -/
def uint16 (n : Int) : Nat := (n % 65536).toNat

/-- An `int16_t`, from a number. -/
def int16 (n : Int) : Int := n.bmod 65536

/-- The two bytes of a `uint16_t` in network order. -/
def ntohs (data : Bytes) (ptr : Nat) : Nat := (data ptr).toNat * 256 + (data (ptr + 1)).toNat

/-! ## Constants -/

def ethertypeIpv4 : Nat := 0x0800

def ethertypeIpv6 : Nat := 0x86dd

def ethertypeDot1q : Nat := 0x8100

def ethernetHeaderSize : Nat := 14

def ipv6FixedHeaderSize : Nat := 40

def magicNumber : Nat := 0x5abb

/-- `ffi.sizeof(pkt_meta_data_t)`. -/
def mdLen : Nat := 48

/-! ## Fields of the headers -/

section Fields

variable (data : Bytes) (l3 : Nat)

def getIpv4TotalLength : Nat := ntohs data (l3 + 2)

def getIpv4Ihl : Nat := (data l3).toNat &&& 0x0f

def getIpv4Offset : Nat := 0x1fff &&& ntohs data (l3 + 6)

def getIpv4Protocol : UInt8 := data (l3 + 9)

def getIpv6PayloadLength : Nat := ntohs data (l3 + 4)

def getIpv6NextHeader : UInt8 := data (l3 + 6)

def setIpv6NextHeader (type : UInt8) : Bytes := Function.update data (l3 + 6) type

def setIpv6PayloadLength (length : Int) : Bytes :=
  Function.update (Function.update data (l3 + 4) (.ofNat (uint16 length / 256)))
    (l3 + 5) (.ofNat (uint16 length % 256))

end Fields

/-- `memmove`, of bytes further behind. -/
def memmove (data : Bytes) (dst src count : Nat) : Bytes :=
  fun i => if dst ≤ i ∧ i < dst + count then data (src + (i - dst)) else data i

/-! ## Extension headers -/

/-- What is found in an extension header: its size, the next header, and the fragment offset if it
is one of a fragment. -/
structure ExtHdr where
  size : Int
  nextHeader : UInt8
  fragOffset : Option Nat

def ipv6GenericExtHdr (data : Bytes) (ptr : Nat) : ExtHdr where
  size := (data (ptr + 1)).toNat * 8 + 8
  nextHeader := data ptr
  fragOffset := none

/-- The function for a fragmentation header. -/
def ipv6FragHdr (data : Bytes) (ptr : Nat) : ExtHdr where
  size := 8
  nextHeader := data ptr
  fragOffset := some (ntohs data (ptr + 2) >>> 3)

/-- The function for an authentication header. -/
def ipv6AuthHdr (data : Bytes) (ptr : Nat) : ExtHdr where
  -- "in units of 4 bytes minus 2" would be (length + 2) * 4
  size := (data (ptr + 1)).toNat * 4 - 2
  nextHeader := data ptr
  fragOffset := none

/-- `ipv6_ext_hdr_fns`. -/
def ipv6ExtHdrFns (type : UInt8) : Option (Bytes → Nat → ExtHdr) :=
  if type = 44 then some ipv6FragHdr
  else if type = 51 then some ipv6AuthHdr
  else if type ∈ [0, 43, 60, 135, 139, 140] then some ipv6GenericExtHdr
  else none

/-- Where the traversal stands: `ext_hdrs_size`, `next_header` and `ipv6_frag_offset`. -/
structure Walk where
  extHdrsSize : Nat
  nextHeader : UInt8
  fragOffset : Nat

/-- How the traversal ends: outside the packet, or behind the headers. -/
inductive WalkEnd where
  | exit (fragOffset : Nat)
  | behind (w : Walk)

/-- One round of the loop over the headers. -/
def walkRound (data : Bytes) (payload : Nat) (effPayloadLength : Int) (w : Walk) :
    Walk ⊕ WalkEnd :=
  match ipv6ExtHdrFns w.nextHeader with
  | none => .inr (.behind w)
  | some fn =>
    let hdr := fn data (payload + w.extHdrsSize)
    let extHdrsSize := w.extHdrsSize + hdr.size
    let fragOffset := hdr.fragOffset.getD w.fragOffset
    if extHdrsSize < 0 ∨ effPayloadLength < extHdrsSize then .inr (.exit fragOffset)
    else .inl ⟨extHdrsSize.toNat, hdr.nextHeader, fragOffset⟩

/-! ## Packets -/

/-- `pkt_meta_data_t`. -/
structure Metadata where
  magic : Nat
  ethertype : Nat
  vlan : Nat
  totalLength : Nat
  filterStart : Nat
  filterLength : Nat
  l3 : Nat
  l4 : Nat
  filterOffset : Nat
  l3Offset : Nat
  l4Offset : Nat
  proto : UInt8
  fragOffset : UInt8
  lengthDelta : Int
  ref : Nat
  hash : Nat
deriving DecidableEq, Repr

/-- A packet, with what stands in its headroom where the meta-data goes. -/
structure Pkt where
  data : Bytes
  length : Nat
  headroom : Nat
  md : Metadata

/-- What ends a call before it returns: the fuel is used up, an assertion fails, or there is no
packet or no link where one is expected. -/
inductive Halt where
  | running
  | assertion
  | noPacket
  | noLink
deriving DecidableEq, Repr

/-- `md_ptr`, of which only the assertion is left. -/
def mdPtr (p : Pkt) : Except Halt Unit := if mdLen ≤ p.headroom then return else throw .assertion

/-- `set_pointers`. -/
def setPointers (md : Metadata) : Metadata :=
  { md with filterStart := md.filterOffset, l3 := md.l3Offset, l4 := md.l4Offset }

/-- `get`. -/
def Metadata.get (p : Pkt) : Except Halt Metadata := do
  mdPtr p
  if p.md.magic = magicNumber then return p.md else throw .assertion

/-- `traverse_extension_headers`: the payload length, the protocol, the fragment offset and what
becomes of the packet. -/
def traverseExtensionHeaders (fuel : Nat) (p : Pkt) (l3 : Nat) (squash : Bool) :
    Except Halt (Int × UInt8 × Nat × Pkt) :=
  let payload := l3 + ipv6FixedHeaderSize
  let payloadLength := getIpv6PayloadLength p.data l3
  let effPayloadLength : Int := (p.length : Int) - payload
  let ulp := getIpv6NextHeader p.data l3
  match loop (walkRound p.data payload effPayloadLength) fuel ⟨0, ulp, 0⟩ with
  | none => throw .running
  | some (.exit fragOffset) => return (payloadLength, ulp, fragOffset, p)
  | some (.behind w) =>
    if 0 < w.extHdrsSize ∧ squash then
      let length : Int := payloadLength - w.extHdrsSize
      let data := setIpv6PayloadLength (setIpv6NextHeader p.data l3 w.nextHeader) l3 length
      return (length, w.nextHeader, w.fragOffset, { p with
        length := p.length - w.extHdrsSize
        data := memmove data payload (payload + w.extHdrsSize)
          (effPayloadLength - w.extHdrsSize + mdLen).toNat })
    else return (payloadLength, w.nextHeader, w.fragOffset, p)

/-- The ethertype behind a tag, if there is one, with the VLAN and the size of the tag. -/
def etherType (data : Bytes) : Nat × Nat × Nat :=
  if ntohs data 12 = ethertypeDot1q then (ntohs data 16, ntohs data 14 &&& 0xfff, 4)
  else (ntohs data 12, 0, 0)

/-- `add`, the fields from the Ethernet header. -/
def addL2 (p : Pkt) (vlanOverride : Option Nat) : Metadata :=
  let (ethertype, vlan, filterOffset) := etherType p.data
  { p.md with
    magic := magicNumber
    ref := 0
    ethertype := ethertype
    vlan := vlanOverride.getD vlan
    l3Offset := ethernetHeaderSize + filterOffset }

/-- `add`, the fields from the header behind it. -/
def addL3 (fuel : Nat) (p : Pkt) (md : Metadata) (rmExtHeaders : Bool) :
    Except Halt (Metadata × Pkt) :=
  let l3 := md.l3Offset
  if md.ethertype = ethertypeIpv4 then
    return ({ md with
      totalLength := getIpv4TotalLength p.data l3
      l4Offset := md.l3Offset + 4 * getIpv4Ihl p.data l3
      fragOffset := .ofNat (getIpv4Offset p.data l3)
      proto := getIpv4Protocol p.data l3 }, p)
  else if md.ethertype = ethertypeIpv6 then do
    let (payloadLength, nextHeader, fragOffset, p) ←
      traverseExtensionHeaders fuel { p with md := md } l3 rmExtHeaders
    let md ← Metadata.get p
    return ({ md with
      totalLength := uint16 (payloadLength + ipv6FixedHeaderSize)
      l4Offset := md.l3Offset + ipv6FixedHeaderSize
      fragOffset := .ofNat fragOffset
      proto := nextHeader }, p)
  else
    return ({ md with
      totalLength := uint16 (p.length - md.l3Offset)
      l4Offset := md.l3Offset }, p)

/-- `add`, the fields for the filter. -/
def addFilter (p : Pkt) (md : Metadata) (filterOffset : Nat) : Metadata :=
  setPointers { md with
    filterOffset := filterOffset
    filterLength := uint16 (p.length - filterOffset)
    lengthDelta := int16 (p.length - md.l3Offset - md.totalLength) }

/-- `add`: the packet with its meta-data. -/
def add (fuel : Nat) (p : Pkt) (rmExtHeaders : Bool) (vlanOverride : Option Nat) :
    Except Halt Pkt := do
  mdPtr p
  let (md, p') ← addL3 fuel p (addL2 p vlanOverride) rmExtHeaders
  return { p' with md := addFilter p' md (etherType p.data).2.2 }

end Rss

end Snabb
