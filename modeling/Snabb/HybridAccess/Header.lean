import Snabb.Core.Packet
import Snabb.Foundation.Run
import Mathlib.Tactic.NormNum

/-!
# The hybrid-access header (`base/constants.lua`, `base/hybrid_access.lua`,
`base/hybrid_access_ip.lua`)

A load balancer encapsulates every frame: a 12-byte header with a sequence
number and the frame's own ether type goes behind the Ethernet header, whose
type field is replaced by `HYBRID_ACCESS_ETH_TYPE`. In IP mode a 20-byte IPv4
header stands between the two. `HybridAccess` and `HybridAccessIp` are the two
Lua classes; `Codec` is the object an app holds in `self.hybrid_access`, one of
the two.

Multi-byte fields are read and written in host order. The model is the
little-endian host of `core/lib.lua`, where `htons` swaps two bytes; the
sequence number and the buffered type are never swapped.

- `addHeader_spec`: what encapsulation writes and what it keeps;
- `removeHeader_spec`: what decapsulation returns, from the packet's bytes alone;
- `getHeader_eq_of_bytes_eq`: a frame that holds its headers is classified by
  its payload, not by the memory around it.
-/

namespace Snabb

open Foundation List Packet

/-! ## Constants -/

/-- `lib.htons` on a little-endian host: `rshift(bswap(b), 16)`. -/
def htons (b : Nat) : Nat := b % 256 * 256 + b / 256 % 256

/-- `lib.ntohs`, the same function as `htons`. -/
def ntohs : Nat → Nat := htons

/-- `sizeof(ETHER_HEADER_T)`: two addresses and the type. -/
def etherHeaderLen : Nat := 14

/-- `sizeof(IPV4_HEADER_T)`. -/
def ipv4HeaderLen : Nat := 20

/-- `sizeof(HA_HEADER_T)`: `seq_no`, `buf_type`, `type` and one unused byte. -/
def haHeaderLen : Nat := 12

def hybridAccessEthType : Nat := 0x9444

def hybridAccessIpType : Nat := 0x94

def ipv4EthType : Nat := 0x0800

def hybridAccessType : Nat := 0x01

def hybridAccessDdcType : Nat := 0x02

/-- `GET_ETHER_TYPE`. -/
def getEtherType (pkt : Packet) : Nat := ntohs (leNat (pkt.window (etherHeaderLen - 2) 2))

theorem htons_lt (b : Nat) : htons b < 2 ^ 16 := by
  rw [htons]
  omega

theorem htons_htons {b : Nat} (h : b < 2 ^ 16) : htons (htons b) = b := by
  have hhi : b / 256 % 256 = b / 256 := by omega
  have hlo : (b % 256 * 256 + b / 256) % 256 = b / 256 := by omega
  have hup : (b % 256 * 256 + b / 256) / 256 % 256 = b % 256 := by omega
  rw [htons, htons, hhi]
  omega

/-! ## The header structure -/

/-- `HA_HEADER_T`, as read through a pointer. The byte `unused` is never read. -/
structure HaHeader where
  seqNo : Nat
  bufType : Nat
  type : Nat
deriving DecidableEq, Repr

/-- The bytes of a `HA_HEADER_T`. -/
def HaHeader.toBytes (h : HaHeader) : List UInt8 :=
  leBytes 8 h.seqNo ++ leBytes 2 h.bufType ++ leBytes 1 h.type ++ leBytes 1 0

/-- Read a `HA_HEADER_T` from its bytes. -/
def HaHeader.ofBytes (bs : List UInt8) : HaHeader where
  seqNo := leNat (bs.take 8)
  bufType := leNat ((bs.drop 8).take 2)
  type := leNat ((bs.drop 10).take 1)

@[simp] theorem HaHeader.length_toBytes (h : HaHeader) : h.toBytes.length = haHeaderLen := by
  simp [toBytes, haHeaderLen]

/-- A header whose fields fit their C types survives a store and a load. -/
theorem HaHeader.ofBytes_toBytes {h : HaHeader} (hs : h.seqNo < 2 ^ 64)
    (hb : h.bufType < 2 ^ 16) (ht : h.type < 2 ^ 8) : ofBytes h.toBytes = h := by
  have h₈ : (leBytes 8 h.seqNo).length = 8 := length_leBytes 8 _
  have h₂ : (leBytes 2 h.bufType).length = 2 := length_leBytes 2 _
  have h₁ : (leBytes 1 h.type).length = 1 := length_leBytes 1 _
  have e₁ : h.toBytes.take 8 = leBytes 8 h.seqNo := by
    simp [toBytes]
  have e₂ : (h.toBytes.drop 8).take 2 = leBytes 2 h.bufType := by
    simp [toBytes]
  have e₃ : (h.toBytes.drop 10).take 1 = leBytes 1 h.type := by
    simp [toBytes, take_append, drop_append]
  rw [ofBytes, e₁, e₂, e₃, leNat_leBytes, leNat_leBytes, leNat_leBytes]
  rw [Nat.mod_eq_of_lt (by simpa using hs), Nat.mod_eq_of_lt (by simpa using hb),
    Nat.mod_eq_of_lt (by simpa using ht)]

/-- `cast(HA_HEADER_PTR_T, pkt.data + offset)`. -/
def haHeaderAt (pkt : Packet) (offset : Nat) : HaHeader :=
  HaHeader.ofBytes (pkt.window offset haHeaderLen)

/-- Set the `ether_type` field of a buffered `ETHER_HEADER_T`. -/
def setEtherType (ethBuf : List UInt8) (etherType : Nat) : List UInt8 :=
  ethBuf.take (etherHeaderLen - 2) ++ leBytes 2 etherType

@[simp] theorem length_setEtherType (pkt : Packet) (etherType : Nat) :
    (setEtherType (pkt.window 0 etherHeaderLen) etherType).length = etherHeaderLen := by
  simp [setEtherType, etherHeaderLen]

/-! ## `HybridAccess` -/

namespace HybridAccess

def getHeader (pkt : Packet) : Option HaHeader :=
  if getEtherType pkt = hybridAccessEthType then
    some (haHeaderAt pkt etherHeaderLen)
  else
    none

/-- `_move_eth_header`; `eth_buf_add` is filled before it is read, so it is a
local here. -/
def moveEthHeader (etherTypeHa : Nat) (pkt : Packet) (shiftLength : Nat) :
    Except Raise Packet := do
  let ethBufAdd := pkt.window 0 etherHeaderLen
  let pNew ← pkt.shiftright shiftLength
  return pNew.write 0 (setEtherType ethBufAdd etherTypeHa)

/-- `_set_ha_header`. -/
def setHaHeader (pkt : Packet) (offset : Nat) (haHeader : HaHeader) : Packet :=
  pkt.write offset haHeader.toBytes

/-- `self.ether_type_ha`. -/
def etherTypeHa : Nat := htons hybridAccessEthType

def addHeader (pkt : Packet) (seqNo bufType : Nat) : Except Raise Packet := do
  let pNew ← moveEthHeader etherTypeHa pkt haHeaderLen
  return setHaHeader pNew etherHeaderLen ⟨seqNo, bufType, hybridAccessType⟩

/-- `_remove_header`; like `eth_buf_add`, `eth_buf_remove` is a local here. -/
def removeHeaderBy (pkt : Packet) (shiftLength bufType : Nat) : Except Raise Packet := do
  let ethBufRemove := pkt.window 0 etherHeaderLen
  let pNew ← pkt.shiftleft shiftLength
  return pNew.write 0 (setEtherType ethBufRemove (htons bufType))

def removeHeader (pkt : Packet) (bufType : Nat) : Except Raise Packet :=
  removeHeaderBy pkt haHeaderLen bufType

/-- `make_ddc_packet`; `fresh` is the packet that `packet.allocate` returns,
with whatever its memory holds. -/
def makeDdcPacket (fresh origPkt : Packet) (seqNo : Nat) : Except Raise Packet :=
  let pkt := fresh.setLength (etherHeaderLen + haHeaderLen)
  let pkt := pkt.write 0 (origPkt.window 0 etherHeaderLen)
  let pkt := pkt.write (etherHeaderLen - 2) (leBytes 2 etherTypeHa)
  .ok (setHaHeader pkt etherHeaderLen ⟨seqNo, 0xFFFF, hybridAccessDdcType⟩)

end HybridAccess

/-! ## `HybridAccessIp` -/

/-- An IPv4 address in network order. -/
structure Ipv4Addr where
  a : UInt8
  b : UInt8
  c : UInt8
  d : UInt8
deriving DecidableEq, Repr

/-- The addresses `HybridAccessIp:new` looks for in its configuration. -/
structure IpConf where
  sourceIp : Option Ipv4Addr
  destinationIp : Option Ipv4Addr
deriving DecidableEq, Repr

def Ipv4Addr.toBytes (ip : Ipv4Addr) : List UInt8 := [ip.a, ip.b, ip.c, ip.d]

namespace HybridAccessIp

/-- `self.ipv4_h`: version 4, header length 5 words, TTL 64, and the addresses
when both are configured. Length and checksum stay zero. -/
def ipv4H (conf : IpConf) : List UInt8 :=
  let addresses :=
    match conf.sourceIp, conf.destinationIp with
    | some src, some dst => src.toBytes ++ dst.toBytes
    | _, _ => [0, 0, 0, 0, 0, 0, 0, 0]
  [0x45, 0, 0, 0, 0, 0, 0, 0, 64, UInt8.ofNat hybridAccessIpType, 0, 0] ++ addresses

/-- The offset of `protocol` in `IPV4_HEADER_T`. -/
def protocolOffset : Nat := 9

@[simp] theorem length_ipv4H (conf : IpConf) : (ipv4H conf).length = ipv4HeaderLen := by
  rcases conf with ⟨_ | src, _ | dst⟩ <;> rfl

theorem protocol_ipv4H (conf : IpConf) :
    leNat (((ipv4H conf).drop protocolOffset).take 1) = hybridAccessIpType := by
  rcases conf with ⟨_ | src, _ | dst⟩ <;> rfl

def getHeader (pkt : Packet) : Option HaHeader :=
  if getEtherType pkt ≠ ipv4EthType then
    none
  else if leNat (pkt.window (etherHeaderLen + protocolOffset) 1) ≠ hybridAccessIpType then
    none
  else
    some (haHeaderAt pkt (etherHeaderLen + ipv4HeaderLen))

/-- `self.ether_type_ha`. -/
def etherTypeHa : Nat := htons ipv4EthType

def addHeader (conf : IpConf) (pkt : Packet) (seqNo bufType : Nat) : Except Raise Packet := do
  let pNew ← HybridAccess.moveEthHeader etherTypeHa pkt (haHeaderLen + ipv4HeaderLen)
  let pNew := pNew.write etherHeaderLen (ipv4H conf)
  return HybridAccess.setHaHeader pNew (etherHeaderLen + ipv4HeaderLen)
    ⟨seqNo, bufType, hybridAccessType⟩

def removeHeader (pkt : Packet) (bufType : Nat) : Except Raise Packet :=
  HybridAccess.removeHeaderBy pkt (haHeaderLen + ipv4HeaderLen) bufType

/-- `make_ddc_packet` of the IP class. The module binds its local `allocate` to
`packet.shiftleft`, so `allocate()` compares a missing argument with a number
and raises before anything is built. -/
def makeDdcPacket (_fresh _origPkt : Packet) (_seqNo : Nat) : Except Raise Packet :=
  .error .compareNil

end HybridAccessIp

/-! ## The codec an app holds -/

/-- `self.hybrid_access`: an instance of `HybridAccess`, or of `HybridAccessIp`
when the configured mode is `"IP"`. -/
inductive Codec where
  | eth
  | ip (conf : IpConf)
deriving DecidableEq, Repr

namespace Codec

/-- The bytes `add_header` inserts. -/
def shiftLength : Codec → Nat
  | eth => haHeaderLen
  | ip _ => haHeaderLen + ipv4HeaderLen

def getHeader : Codec → Packet → Option HaHeader
  | eth => HybridAccess.getHeader
  | ip _ => HybridAccessIp.getHeader

def addHeader : Codec → Packet → Nat → Nat → Except Raise Packet
  | eth => HybridAccess.addHeader
  | ip conf => HybridAccessIp.addHeader conf

def removeHeader : Codec → Packet → Nat → Except Raise Packet
  | eth => HybridAccess.removeHeader
  | ip _ => HybridAccessIp.removeHeader

def makeDdcPacket : Codec → Packet → Packet → Nat → Except Raise Packet
  | eth => HybridAccess.makeDdcPacket
  | ip _ => HybridAccessIp.makeDdcPacket

end Codec

/-! ## Sample frames -/

/-- The shortest ordinary frame the recombination may be given: an IPv4 ether
type and twelve bytes of payload. -/
def ordinaryFrame (base : Nat) : Packet :=
  .fromPointer base (List.replicate 12 0 ++ [0x08, 0x00] ++ List.replicate 12 0)

/-- The shortest hybrid-access frame: an Ethernet header and a data header that
buffers the IPv4 ether type. -/
def haFrame (base seqNo : Nat) : Packet :=
  .fromPointer base (List.replicate 12 0 ++ leBytes 2 HybridAccess.etherTypeHa ++
    HaHeader.toBytes ⟨seqNo, ipv4EthType, hybridAccessType⟩)

/-! ## Specifications -/

namespace HybridAccess

theorem moveEthHeader_eq_ok {t n : Nat} {p q : Packet} (h : moveEthHeader t p n = .ok q) :
    ∃ r, p.shiftright n = .ok r ∧ q = r.write 0 (setEtherType (p.window 0 etherHeaderLen) t) := by
  obtain ⟨r, hr, hret⟩ := bind_eq_ok h
  exact ⟨r, hr, (Except.ok.inj hret).symm⟩

theorem window_moveEthHeader {t n : Nat} {p q : Packet} (h : moveEthHeader t p n = .ok q) :
    q.window 0 etherHeaderLen = setEtherType (p.window 0 etherHeaderLen) t := by
  obtain ⟨r, -, rfl⟩ := moveEthHeader_eq_ok h
  exact window_write_self r 0 _ (length_setEtherType p t).symm

end HybridAccess

variable {t : Nat}

/-- The type field of a packet whose Ethernet header was just rewritten. -/
theorem getEtherType_of_window {p q : Packet} (ht : t < 2 ^ 16)
    (h : q.window 0 etherHeaderLen = setEtherType (p.window 0 etherHeaderLen) t) :
    getEtherType q = ntohs t := by
  have hw : q.window (etherHeaderLen - 2) 2 = leBytes 2 t := by
    have hd := congrArg (List.drop (etherHeaderLen - 2)) h
    rw [drop_window q (by decide)] at hd
    rw [show q.window (0 + (etherHeaderLen - 2)) (etherHeaderLen - (etherHeaderLen - 2)) =
      q.window (etherHeaderLen - 2) 2 from rfl] at hd
    rw [hd, setEtherType, drop_left' (by simp [etherHeaderLen])]
  rw [getEtherType, hw, leNat_leBytes, Nat.mod_eq_of_lt (by simpa using ht)]

namespace Codec

variable {c : Codec} {p q : Packet} {seqNo bufType : Nat}

/-- What the writes behind a moved Ethernet header leave of the moved packet `r`, and the
header that is read from their result `q`. -/
structure Inserted (c : Codec) (haHeader : HaHeader) (r q : Packet) : Prop where
  base : q.base = r.base
  length : q.length = r.length
  front : q.window 0 etherHeaderLen = r.window 0 etherHeaderLen
  behind : ∀ k n, etherHeaderLen + c.shiftLength ≤ k → q.window k n = r.window k n
  header : c.getHeader q = some (HaHeader.ofBytes haHeader.toBytes)

theorem inserted_eth {r : Packet} (haHeader : HaHeader) (ht : t = HybridAccess.etherTypeHa)
    (hr : HybridAccess.moveEthHeader t p haHeaderLen = .ok r) :
    Inserted eth haHeader r (HybridAccess.setHaHeader r etherHeaderLen haHeader) := by
  subst ht
  have hfront : (HybridAccess.setHaHeader r etherHeaderLen haHeader).window 0 etherHeaderLen =
      r.window 0 etherHeaderLen :=
    window_write_disjoint r (Or.inl (by decide))
  refine ⟨rfl, rfl, hfront, fun k n hk => ?_, ?_⟩
  · exact window_write_disjoint r (Or.inr (by rwa [HaHeader.length_toBytes]))
  · have htype := getEtherType_of_window (by decide)
      (hfront.trans (HybridAccess.window_moveEthHeader hr))
    rw [getHeader, HybridAccess.getHeader, if_pos (htype.trans (by decide)), haHeaderAt,
      HybridAccess.setHaHeader, window_write_self r _ _ (HaHeader.length_toBytes _).symm]

theorem inserted_ip {conf : IpConf} {r : Packet} (haHeader : HaHeader)
    (ht : t = HybridAccessIp.etherTypeHa)
    (hr : HybridAccess.moveEthHeader t p (haHeaderLen + ipv4HeaderLen) = .ok r) :
    Inserted (ip conf) haHeader r
      (HybridAccess.setHaHeader (r.write etherHeaderLen (HybridAccessIp.ipv4H conf))
        (etherHeaderLen + ipv4HeaderLen) haHeader) := by
  subst ht
  have hfront : (HybridAccess.setHaHeader (r.write etherHeaderLen (HybridAccessIp.ipv4H conf))
      (etherHeaderLen + ipv4HeaderLen) haHeader).window 0 etherHeaderLen =
        r.window 0 etherHeaderLen := by
    rw [HybridAccess.setHaHeader, window_write_disjoint _ (Or.inl (by decide)),
      window_write_disjoint _ (Or.inl (by decide))]
  refine ⟨rfl, rfl, hfront, fun k n hk => ?_, ?_⟩
  · simp only [shiftLength, etherHeaderLen, haHeaderLen, ipv4HeaderLen] at hk
    rw [HybridAccess.setHaHeader, window_write_disjoint _ (Or.inr _),
      window_write_disjoint _ (Or.inr _)]
    · rw [HybridAccessIp.length_ipv4H, etherHeaderLen, ipv4HeaderLen]
      omega
    · rw [HaHeader.length_toBytes, etherHeaderLen, ipv4HeaderLen, haHeaderLen]
      omega
  · have htype := getEtherType_of_window (by decide)
      (hfront.trans (HybridAccess.window_moveEthHeader hr))
    -- the protocol stands in the IPv4 header, in front of the hybrid-access header
    have hproto : (HybridAccess.setHaHeader
        (r.write etherHeaderLen (HybridAccessIp.ipv4H conf)) (etherHeaderLen + ipv4HeaderLen)
        haHeader).window (etherHeaderLen + HybridAccessIp.protocolOffset) 1 =
        ((HybridAccessIp.ipv4H conf).drop HybridAccessIp.protocolOffset).take 1 := by
      rw [HybridAccess.setHaHeader, window_write_disjoint _ (Or.inl (by decide)),
        window_write_inside _ _ _ _ _ (by simp; decide)]
    rw [getHeader, HybridAccessIp.getHeader, if_neg (not_not.mpr (htype.trans (by decide))),
      hproto, if_neg (not_not.mpr (HybridAccessIp.protocol_ipv4H conf)), haHeaderAt,
      HybridAccess.setHaHeader, window_write_self _ _ _ (HaHeader.length_toBytes _).symm]

/-- Encapsulation is a move of the packet followed by writes behind the Ethernet
header that end with the hybrid-access header. -/
theorem addHeader_eq_ok (h : c.addHeader p seqNo bufType = .ok q) :
    ∃ t r, HybridAccess.moveEthHeader t p c.shiftLength = .ok r ∧
      Inserted c ⟨seqNo, bufType, hybridAccessType⟩ r q := by
  cases c with
  | eth =>
    obtain ⟨r, hr, hret⟩ := bind_eq_ok h
    cases hret
    exact ⟨_, r, hr, inserted_eth _ rfl hr⟩
  | ip conf =>
    obtain ⟨r, hr, hret⟩ := bind_eq_ok h
    cases hret
    exact ⟨_, r, hr, inserted_ip _ rfl hr⟩

/-- The header of an encapsulated packet reads back what was written, whatever
the packet was and wherever it was moved. -/
theorem getHeader_of_addHeader (h : c.addHeader p seqNo bufType = .ok q)
    (hs : seqNo < 2 ^ 64) (hb : bufType < 2 ^ 16) :
    c.getHeader q = some ⟨seqNo, bufType, hybridAccessType⟩ := by
  obtain ⟨_, _, _, hinserted⟩ := addHeader_eq_ok h
  rw [hinserted.header, HaHeader.ofBytes_toBytes hs hb (by decide : hybridAccessType < 2 ^ 8)]

/-- A DDC packet, which only the Ethernet class can build, reads back its number and
its type, whatever the packet it was built in held. -/
theorem getHeader_of_makeDdcPacket {f : Packet} (h : c.makeDdcPacket f p seqNo = .ok q)
    (hs : seqNo < 2 ^ 64) :
    c = eth ∧ q.length = etherHeaderLen + haHeaderLen ∧
      c.getHeader q = some ⟨seqNo, 0xFFFF, hybridAccessDdcType⟩ := by
  cases c with
  | ip conf => cases h
  | eth =>
    cases h
    refine ⟨rfl, rfl, ?_⟩
    have htype : getEtherType (HybridAccess.setHaHeader
        (((f.setLength (etherHeaderLen + haHeaderLen)).write 0 (p.window 0 etherHeaderLen)).write
          (etherHeaderLen - 2) (leBytes 2 HybridAccess.etherTypeHa)) etherHeaderLen
        ⟨seqNo, 0xFFFF, hybridAccessDdcType⟩) = hybridAccessEthType := by
      rw [getEtherType, HybridAccess.setHaHeader, window_write_disjoint _
        (Or.inl (by decide)), window_write_self _ _ _ (length_leBytes 2 _).symm]
      decide
    rw [getHeader, HybridAccess.getHeader, if_pos htype, haHeaderAt, HybridAccess.setHaHeader,
      window_write_self _ _ _ (HaHeader.length_toBytes _).symm,
      HaHeader.ofBytes_toBytes hs (by decide : 0xFFFF < 2 ^ 16)
        (by decide : hybridAccessDdcType < 2 ^ 8)]

theorem base_addHeader (h : c.addHeader p seqNo bufType = .ok q) : q.base = p.base := by
  obtain ⟨t, r, hr, hinserted⟩ := addHeader_eq_ok h
  obtain ⟨r', hr', rfl⟩ := HybridAccess.moveEthHeader_eq_ok hr
  rw [hinserted.base, write_base]
  exact shiftright_base hr'

/-- A frame that leaves room for the headers is always encapsulated. -/
theorem addHeader_isOk (c : Codec) (p : Packet) (seqNo bufType : Nat)
    (hfit : p.length + c.shiftLength ≤ maxPayload) : ∃ q, c.addHeader p seqNo bufType = .ok q := by
  obtain ⟨r, hr, -, -, -⟩ := shiftright_spec p hfit
  cases c with
  | eth =>
    have hr' : p.shiftright haHeaderLen = .ok r := hr
    exact ⟨_, by rw [addHeader, HybridAccess.addHeader, HybridAccess.moveEthHeader, hr']; rfl⟩
  | ip conf =>
    have hr' : p.shiftright (haHeaderLen + ipv4HeaderLen) = .ok r := hr
    exact ⟨_, by rw [addHeader, HybridAccessIp.addHeader, HybridAccess.moveEthHeader, hr']; rfl⟩

/-- What encapsulation does to a frame that leaves room for the headers: it grows
by the headers, keeps its addresses, and its payload stands behind the headers. -/
theorem addHeader_spec (h : c.addHeader p seqNo bufType = .ok q)
    (hfit : p.length + c.shiftLength ≤ maxPayload) (hlen : etherHeaderLen ≤ p.length) :
    q.length = p.length + c.shiftLength ∧
      q.window 0 (etherHeaderLen - 2) = p.window 0 (etherHeaderLen - 2) ∧
      q.window (etherHeaderLen + c.shiftLength) (p.length - etherHeaderLen) =
        p.window etherHeaderLen (p.length - etherHeaderLen) := by
  obtain ⟨t, r, hr, -, hqlen, hwin, hbehind, -⟩ := addHeader_eq_ok h
  have haddr : q.window 0 (etherHeaderLen - 2) = p.window 0 (etherHeaderLen - 2) :=
    congrArg (List.take (etherHeaderLen - 2)) (hwin.trans (HybridAccess.window_moveEthHeader hr))
  obtain ⟨r', hr', rfl⟩ := HybridAccess.moveEthHeader_eq_ok hr
  obtain ⟨r'', hr'', -, hlen', hbytes⟩ := shiftright_spec p hfit
  obtain rfl := ok_unique hr' hr''
  refine ⟨hqlen.trans hlen', haddr, ?_⟩
  rw [hbehind _ _ (Nat.le_refl _), window_write_disjoint _
    (Or.inr (by rw [length_setEtherType]; omega)), ← drop_bytes p hlen, ← hbytes,
    drop_window _ hlen, Nat.add_comm]

theorem removeHeader_eq (c : Codec) (q : Packet) (bufType : Nat) :
    c.removeHeader q bufType = HybridAccess.removeHeaderBy q c.shiftLength bufType := by
  cases c <;> rfl

/-- What decapsulation returns: the addresses of the packet, the given type, and
what stands behind the headers. -/
theorem removeHeader_spec (c : Codec) (q : Packet) (bufType : Nat)
    (hlen : etherHeaderLen + c.shiftLength ≤ q.length) :
    ∃ r, c.removeHeader q bufType = .ok r ∧ r.base = q.base ∧
      r.length = q.length - c.shiftLength ∧
      r.bytes = q.window 0 (etherHeaderLen - 2) ++ leBytes 2 (htons bufType) ++
        q.window (etherHeaderLen + c.shiftLength) (q.length - c.shiftLength - etherHeaderLen) := by
  obtain ⟨r, hr, hbase, hrlen, hbytes⟩ := shiftleft_spec q (by omega : c.shiftLength ≤ _)
  refine ⟨r.write 0 (setEtherType (q.window 0 etherHeaderLen) (htons bufType)), ?_, hbase, hrlen, ?_⟩
  · rw [removeHeader_eq, HybridAccess.removeHeaderBy, hr]
    rfl
  · have hsplit : r.length = etherHeaderLen + (r.length - etherHeaderLen) := by omega
    rw [bytes, write_length, hsplit, window_add, window_write_self _ _ _
      (length_setEtherType q _).symm, setEtherType, take_window q (by decide)]
    congr 1
    rw [window_write_disjoint _ (Or.inr (by rw [List.length_append, length_window,
      length_leBytes, etherHeaderLen])), Nat.zero_add, ← drop_bytes r (by omega), hbytes,
      drop_drop, drop_bytes q (by omega), Nat.add_comm]
    congr 1
    omega

theorem base_removeHeader (h : c.removeHeader p bufType = .ok q) : q.base = p.base := by
  rw [removeHeader_eq] at h
  obtain ⟨r, hr, hret⟩ := bind_eq_ok h
  cases hret
  rw [write_base]
  exact shiftleft_base hr

theorem removeHeader_isOk (c : Codec) (q : Packet) (bufType : Nat) (h : c.shiftLength ≤ q.length) :
    ∃ r, c.removeHeader q bufType = .ok r := by
  obtain ⟨r, hr, -⟩ := shiftleft_spec q h
  rw [removeHeader_eq, HybridAccess.removeHeaderBy, hr]
  exact ⟨_, rfl⟩

/-- A frame that holds its headers is classified by its payload. -/
theorem getHeader_eq_of_bytes_eq (hlen : etherHeaderLen + c.shiftLength ≤ q.length)
    (hbytes : p.bytes = q.bytes) : c.getHeader p = c.getHeader q := by
  have hwindow : ∀ k n, k + n ≤ etherHeaderLen + c.shiftLength → p.window k n = q.window k n := by
    intro k n hk
    rw [window_eq_bytes p, window_eq_bytes q (hk.trans hlen), hbytes]
    rw [← length_bytes p, hbytes, length_bytes]
    exact hk.trans hlen
  have htype : getEtherType p = getEtherType q := by
    rw [getEtherType, hwindow _ _ (Nat.le_add_right _ _), getEtherType]
  cases c with
  | eth =>
    have hheader : haHeaderAt p etherHeaderLen = haHeaderAt q etherHeaderLen :=
      congrArg HaHeader.ofBytes (hwindow _ _ (Nat.le_refl _))
    rw [getHeader, HybridAccess.getHeader, HybridAccess.getHeader, htype, hheader]
  | ip conf =>
    have hheader : haHeaderAt p (etherHeaderLen + ipv4HeaderLen) =
        haHeaderAt q (etherHeaderLen + ipv4HeaderLen) :=
      congrArg HaHeader.ofBytes (hwindow _ _ (by simp only [shiftLength]; omega))
    have hprotocol := hwindow (etherHeaderLen + HybridAccessIp.protocolOffset) 1 (by
      simp only [shiftLength, HybridAccessIp.protocolOffset, ipv4HeaderLen]
      omega)
    rw [getHeader, HybridAccessIp.getHeader, HybridAccessIp.getHeader, htype, hprotocol, hheader]

/-- **Decapsulation undoes encapsulation**, also on a packet that only shares its
payload with the encapsulated one. -/
theorem removeHeader_of_addHeader {q' : Packet}
    (h : c.addHeader p seqNo (getEtherType p) = .ok q) (hlen : etherHeaderLen ≤ p.length)
    (hfit : p.length + c.shiftLength ≤ maxPayload) (hbytes : q'.bytes = q.bytes) :
    ∃ r, c.removeHeader q' (getEtherType p) = .ok r ∧ r.length = p.length ∧ r.bytes = p.bytes := by
  obtain ⟨hqlen, haddr, hbehind⟩ := addHeader_spec h hfit hlen
  have hlength : q'.length = q.length := by
    rw [← length_bytes q', hbytes, length_bytes]
  obtain ⟨r, hr, -, hrlen, hrbytes⟩ := removeHeader_spec c q' (getEtherType p) (by omega)
  refine ⟨r, hr, by omega, ?_⟩
  have htype : leBytes 2 (htons (getEtherType p)) = p.window (etherHeaderLen - 2) 2 := by
    have hlt := leNat_lt (p.window (etherHeaderLen - 2) 2)
    rw [length_window] at hlt
    rw [getEtherType, ntohs, htons_htons hlt, leBytes_leNat _ (length_window p _ 2).symm]
  have hsub : q'.length - c.shiftLength = p.length := by omega
  have hhead : p.window 0 (etherHeaderLen - 2) ++ p.window (etherHeaderLen - 2) 2 =
      p.window 0 etherHeaderLen :=
    (window_add p 0 (etherHeaderLen - 2) 2).symm
  have hwhole := window_add p 0 etherHeaderLen (p.length - etherHeaderLen)
  rw [Nat.add_sub_cancel' hlen, Nat.zero_add] at hwhole
  -- what decapsulation reads lies inside the payload
  have hread : ∀ k n, k + n ≤ q.length → q'.window k n = q.window k n := by
    intro k n hk
    rw [window_eq_bytes q' (hlength ▸ hk), hbytes, window_eq_bytes q hk]
  rw [hrbytes, hsub, hread _ _ (by simp only [etherHeaderLen] at *; omega), haddr,
    hread _ _ (by omega), hbehind, htype, hhead, bytes, hwhole]

/-- **Encapsulation round trip**: every frame that leaves room for the headers is
encapsulated, its header reads back what was written, and decapsulation restores
its length and its bytes, whatever its headroom, its type and its payload are. -/
theorem header_round_trip (c : Codec) (p : Packet) (seqNo : Nat)
    (hlen : etherHeaderLen ≤ p.length) (hfit : p.length + c.shiftLength ≤ maxPayload)
    (hseq : seqNo < 2 ^ 64) :
    ∃ q haHeader r,
      c.addHeader p seqNo (getEtherType p) = .ok q ∧
      c.getHeader q = some haHeader ∧
      haHeader.seqNo = seqNo ∧ haHeader.type = hybridAccessType ∧
      haHeader.bufType = getEtherType p ∧
      c.removeHeader q haHeader.bufType = .ok r ∧
      r.length = p.length ∧ r.bytes = p.bytes := by
  obtain ⟨q, hq⟩ := addHeader_isOk c p seqNo (getEtherType p) hfit
  obtain ⟨r, hr, hrlen, hrbytes⟩ := removeHeader_of_addHeader hq hlen hfit rfl
  exact ⟨q, _, r, hq, getHeader_of_addHeader hq hseq (htons_lt _), rfl, rfl, rfl, hr, hrlen, hrbytes⟩

/-- The round trip on a frame that is a hybrid-access packet itself. -/
theorem header_round_trip_nested :
    ∃ q haHeader r,
      eth.addHeader (haFrame 0 7) 8 (getEtherType (haFrame 0 7)) = .ok q ∧
      eth.getHeader q = some haHeader ∧
      haHeader.seqNo = 8 ∧ haHeader.type = hybridAccessType ∧
      haHeader.bufType = getEtherType (haFrame 0 7) ∧
      eth.removeHeader q haHeader.bufType = .ok r ∧
      r.length = (haFrame 0 7).length ∧ r.bytes = (haFrame 0 7).bytes :=
  header_round_trip eth (haFrame 0 7) 8 (by decide) (by decide) (by decide)

end Codec

end Snabb
