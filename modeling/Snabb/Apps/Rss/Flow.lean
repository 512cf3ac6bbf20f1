import Snabb.Apps.Rss.HeaderChain
import Snabb.Apps.Rss.Model

/-!
# Flows

The flow of a packet is what its headers say: its addresses, the protocol behind the extension
headers, and the ports of TCP, UDP and SCTP. The app hashes a key, of which it takes the ports from
right behind the IPv6 header, whether or not the extension headers were taken out.

- `key_of_inFlow`: the key is the flow for IPv4, for IPv6 without extension headers, and for IPv6
  of which they are taken out, if none of them is an authentication header.
- `linkOf_eq_iff`: two keys select the same link under every hash function if they are equal, or if
  there is but one link to select.
-/

namespace Snabb

namespace Rss

open Foundation

/-! ## The flow of a packet -/

/-- The size of an extension header in bytes; other types are those of upper layers. -/
def extHdrSize (data : Bytes) (ptr : Nat) (type : UInt8) : Option Nat :=
  if type = 44 then some 8
  else if type = 51 then some (((data (ptr + 1)).toNat + 2) * 4)
  else if type ∈ [0, 43, 60, 135, 139, 140] then some (((data (ptr + 1)).toNat + 1) * 8)
  else none

/-- The fragment offset in a fragmentation header. -/
def fragmentOffset (data : Bytes) (ptr : Nat) : Nat := ntohs data (ptr + 2) >>> 3

/-- The headers from the one of a type at a position on lead to that of the upper layer: to its
position, its protocol and the fragment offset. A later fragment has no more headers to go through,
so it leads to an upper layer only if the next one is of that. -/
inductive Leads (p : Pkt) : Nat → UInt8 → Nat → UInt8 → Nat → Prop
  | upper {ptr : Nat} {type : UInt8} :
      extHdrSize p.data ptr type = none → Leads p ptr type ptr type 0
  | header {ptr size l4 fragOffset : Nat} {type proto : UInt8} :
      extHdrSize p.data ptr type = some size → ptr + size ≤ p.length →
      (type = 44 → fragmentOffset p.data ptr = 0) →
      Leads p (ptr + size) (p.data ptr) l4 proto fragOffset → Leads p ptr type l4 proto fragOffset
  | fragment {ptr : Nat} :
      ptr + 8 ≤ p.length → 0 < fragmentOffset p.data ptr →
      extHdrSize p.data (ptr + 8) (p.data ptr) = none →
      Leads p ptr 44 (ptr + 8) (p.data ptr) (fragmentOffset p.data ptr)

/-- The position of the header behind the Ethernet header. -/
def Pkt.l3 (p : Pkt) : Nat := ethernetHeaderSize + (etherType p.data).2.2

/-- The ports of a packet. Only a first fragment has them. -/
def Pkt.ports (p : Pkt) (proto : UInt8) (fragOffset l4 : Nat) : Option (List UInt8) :=
  if transportProtoP proto then
    if fragOffset = 0 ∧ l4 + 4 ≤ p.length then some (readBytes p.data l4 4) else none
  else some [0, 0, 0, 0]

/-- A packet is of a flow, by its headers. -/
inductive InFlow (p : Pkt) : Nat × FlowKey → Prop
  | ipv4 {ports : List UInt8} :
      (etherType p.data).1 = ethertypeIpv4 → p.l3 + 20 ≤ p.length →
      p.ports (getIpv4Protocol p.data p.l3) (getIpv4Offset p.data p.l3)
        (p.l3 + 4 * getIpv4Ihl p.data p.l3) = some ports →
      InFlow p (ethertypeIpv4, ⟨readBytes p.data (p.l3 + 12) 8, ports, getIpv4Protocol p.data p.l3⟩)
  | ipv6 {l4 fragOffset : Nat} {proto : UInt8} {ports : List UInt8} :
      (etherType p.data).1 = ethertypeIpv6 → p.l3 + ipv6FixedHeaderSize ≤ p.length →
      Leads p (p.l3 + ipv6FixedHeaderSize) (getIpv6NextHeader p.data p.l3) l4 proto fragOffset →
      p.ports proto fragOffset l4 = some ports →
      InFlow p (ethertypeIpv6, ⟨readBytes p.data (p.l3 + 8) 32, ports, proto⟩)

/-- Two packets are of one flow. -/
def SameFlow (p q : Pkt) : Prop := ∃ flow, InFlow p flow ∧ InFlow q flow

/-! ## The key of a packet -/

/-- The key of a packet with its meta-data, with the ethertype the addresses are of; packets of
other ethertypes have none. -/
def Pkt.key (p : Pkt) : Option (Nat × FlowKey) :=
  (hashInfo p.md.ethertype).map fun info => (p.md.ethertype, flowKey p info)

/-- The hash of a key. -/
def keyHash (hashFn : Nat → FlowKey → Nat) : Option (Nat × FlowKey) → Nat
  | some (ethertype, key) => uint16 (hashFn ethertype key >>> 1 : Nat)
  | none => 0

/-- The link that a class has for a key. -/
def Class.linkOf (cls : Class) (hashFn : Nat → FlowKey → Nat) (key : Option (Nat × FlowKey)) :
    Option String :=
  cls.output[linkIndex cls.output.length (keyHash hashFn key)]?

/-- All hashes select the same link of a class. -/
def Class.Single (cls : Class) : Prop :=
  ∀ hash < 65536, ∀ hash' < 65536, cls.output[linkIndex cls.output.length hash]? =
    cls.output[linkIndex cls.output.length hash']?

/-- What becomes of a packet when it gets its meta-data. -/
def Becomes (rss : Config) (vlan : Option Nat) (p pkt : Pkt) : Prop :=
  ∃ fuel q, add fuel p rss.rmExtHeaders vlan = .ok q ∧ pkt = hash rss.hashFn q

/-- The flow of a packet stands where the app takes its key from. -/
def Pkt.Plain (rmExtHeaders : Bool) (p : Pkt) : Prop :=
  (etherType p.data).1 = ethertypeIpv6 →
    let payload := p.l3 + ipv6FixedHeaderSize
    let first := getIpv6NextHeader p.data p.l3
    ipv6ExtHdrFns first = none ∨
      rmExtHeaders ∧ ∀ x, ¬ OnChain p.data payload (p.length - payload) first x 51

variable {rss : Config} {vlan : Option Nat} {p pkt : Pkt}

/-! ## Keys and links -/

theorem exists_hashFn {key key' : Nat × FlowKey} (hne : key ≠ key') {hash hash' : Nat}
    (hlt : hash < 65536) (hlt' : hash' < 65536) :
    ∃ hashFn, keyHash hashFn (some key) = hash ∧ keyHash hashFn (some key') = hash' := by
  have hsame (n : Nat) (hn : n < 65536) : uint16 ((2 * n) >>> 1 : Nat) = n := by
    unfold uint16
    omega
  refine ⟨fun ethertype k => 2 * if (ethertype, k) = key then hash else hash', ?_, ?_⟩
  · change uint16 ((2 * if key = key then hash else hash') >>> 1 : Nat) = hash
    rw [if_pos rfl]
    exact hsame hash hlt
  · change uint16 ((2 * if key' = key then hash else hash') >>> 1 : Nat) = hash'
    rw [if_neg hne.symm]
    exact hsame hash' hlt'

/-- **When two keys select the same link**, whatever the hash function. -/
theorem linkOf_eq_iff (cls : Class) (key key' : Nat × FlowKey) :
    (∀ hashFn, cls.linkOf hashFn (some key) = cls.linkOf hashFn (some key')) ↔
      key = key' ∨ cls.Single := by
  have hlt (n : Int) : uint16 n < 65536 := by
    unfold uint16
    omega
  constructor
  · intro h
    rw [or_iff_not_imp_left]
    intro hne hash hhash hash' hhash'
    obtain ⟨hashFn, heq, heq'⟩ := exists_hashFn hne hhash hhash'
    have hlink := h hashFn
    unfold Class.linkOf at hlink
    rwa [heq, heq'] at hlink
  · rintro (rfl | hsingle) hashFn
    · rfl
    · exact hsingle _ (hlt _) _ (hlt _)

/-! ## Where the key comes from -/

theorem extHdrSize_eq_none {data : Bytes} {ptr : Nat} {type : UInt8} :
    extHdrSize data ptr type = none ↔ ipv6ExtHdrFns type = none := by
  unfold extHdrSize ipv6ExtHdrFns
  split_ifs <;> simp

/-- Except for an authentication header, the app takes the size that a header has. -/
theorem size_of_extHdrSize {data : Bytes} {ptr size : Nat} {type : UInt8} (hauth : type ≠ 51)
    (h : extHdrSize data ptr type = some size) :
    ∃ fn, ipv6ExtHdrFns type = some fn ∧ (fn data ptr).size = size := by
  unfold extHdrSize at h
  unfold ipv6ExtHdrFns
  split_ifs at h ⊢ with hfrag hgeneric
  · cases h
    exact ⟨_, rfl, rfl⟩
  · cases h
    refine ⟨_, rfl, ?_⟩
    unfold ipv6GenericExtHdr
    push_cast
    ring

/-- **The app goes where the headers lead**, if there is no authentication header. -/
theorem Leads.walk {ptr l4 fragOffset payload x : Nat} {type proto first : UInt8} {eff : Int}
    (h : Leads p ptr type l4 proto fragOffset) (hptr : ptr = payload + x)
    (heff : eff = p.length - payload) (hx : x = 0 ∨ (x : Int) ≤ eff)
    (hchain : OnChain p.data payload eff first x type)
    (hauth : ∀ y, ¬ OnChain p.data payload eff first y 51) (frag : Nat) :
    ∃ fuel y frag', loop (walkRound p.data payload eff) fuel ⟨x, type, frag⟩ =
      some (.behind ⟨y, proto, frag'⟩) ∧ l4 = payload + y ∧ (y = 0 ∨ (y : Int) ≤ eff) := by
  have hend {x frag : Nat} {type : UInt8} {ptr : Nat} (h : extHdrSize p.data ptr type = none) :
      walkRound p.data payload eff ⟨x, type, frag⟩ = .inr (.behind ⟨x, type, frag⟩) := by
    unfold walkRound
    rw [extHdrSize_eq_none.mp h]
  have hne {x : Nat} {type : UInt8} (h : OnChain p.data payload eff first x type) : type ≠ 51 :=
    fun heq => hauth x (heq ▸ h)
  induction h generalizing x frag with
  | upper hnone => exact ⟨1, x, frag, loop_inr (hend hnone) 0, hptr, hx⟩
  | @header ptr size l4 fragOffset type proto hsize hle _ _ ih =>
    subst hptr
    obtain ⟨fn, hfn, hfnsize⟩ := size_of_extHdrSize (hne hchain) hsize
    have hy : (x : Int) + (fn p.data (payload + x)).size = (x + size : Nat) := by
      rw [hfnsize]
      push_cast
      ring
    have hin : ((x + size : Nat) : Int) ≤ eff := by omega
    have hon := hchain.next hfn hy hin
    have hround := walkRound_inl (w := ⟨x, type, frag⟩) hfn hy hin
    rw [nextHeader_eq hfn] at hon hround
    obtain ⟨fuel, y, frag', hloop, hl4, hyeff⟩ := ih (Nat.add_assoc ..) (.inr hin) hon _
    exact ⟨fuel + 1, y, frag', (loop_inl hround fuel).trans hloop, hl4, hyeff⟩
  | @fragment ptr hle _ hnone =>
    subst hptr
    have hy : (x : Int) + (ipv6FragHdr p.data (payload + x)).size = (x + 8 : Nat) := by
      unfold ipv6FragHdr
      push_cast
      rfl
    have hin : ((x + 8 : Nat) : Int) ≤ eff := by omega
    have hround := walkRound_inl (w := ⟨x, 44, frag⟩) rfl hy hin
    exact ⟨2, x + 8, _, (loop_inl hround 1).trans (loop_inr (hend hnone) 0), Nat.add_assoc ..,
      .inr hin⟩

/-- **The traversal of a plain packet** comes to the protocol of its flow, and what it goes over is
taken out. -/
theorem Pkt.Plain.walk {rmExtHeaders : Bool} {l4 fragOffset : Nat} {proto : UInt8}
    (hplain : p.Plain rmExtHeaders) (htype : (etherType p.data).1 = ethertypeIpv6)
    (h : Leads p (p.l3 + ipv6FixedHeaderSize) (getIpv6NextHeader p.data p.l3) l4 proto fragOffset) :
    ∃ fuel y frag, p.walk p.l3 fuel = some (.behind ⟨y, proto, frag⟩) ∧
      l4 = p.l3 + ipv6FixedHeaderSize + y ∧
      (y = 0 ∨ rmExtHeaders ∧ (y : Int) ≤ p.length - (p.l3 + ipv6FixedHeaderSize : Nat)) := by
  rcases hplain htype with hnone | ⟨hrm, hauth⟩
  · unfold Pkt.walk
    generalize getIpv6NextHeader p.data p.l3 = first at h hnone ⊢
    cases h with
    | upper hupper =>
      refine ⟨1, 0, 0, loop_inr ?_ 0, rfl, .inl rfl⟩
      unfold walkRound
      rw [hnone]
    | header hsize =>
      rw [extHdrSize_eq_none.mpr hnone] at hsize
      cases hsize
    | fragment => cases hnone
  · obtain ⟨fuel, y, frag, hloop, hl4, hy⟩ := h.walk (Nat.add_zero _).symm rfl (.inl rfl) .first hauth 0
    exact ⟨fuel, y, frag, hloop, hl4, hy.imp_right fun hle => ⟨hrm, hle⟩⟩

theorem becomes_unique {pkt' : Pkt} (h : Becomes rss vlan p pkt) (h' : Becomes rss vlan p pkt') :
    pkt = pkt' := by
  obtain ⟨fuel, q, hadd, rfl⟩ := h
  obtain ⟨fuel', q', hadd', rfl⟩ := h'
  have hmore := add_add (by rw [hadd]; simp) fuel'
  have hmore' := add_add (by rw [hadd']; simp) fuel
  rw [Nat.add_comm, hmore', hadd', hadd] at hmore
  cases hmore
  rfl

theorem readBytes_congr {data data' : Bytes} {ptr ptr' count : Nat}
    (h : ∀ i < count, data (ptr + i) = data' (ptr' + i)) :
    readBytes data ptr count = readBytes data' ptr' count :=
  List.map_congr_left fun i hi => h i (List.mem_range.mp hi)

/-- What is read in front of the headers that are taken out, and behind them. -/
theorem readBytes_squashed (data : Bytes) (l3 y : Nat) (proto : UInt8) (length : Int)
    {count : Nat} (hcount : 4 ≤ count) :
    let data' := memmove (setIpv6PayloadLength (setIpv6NextHeader data l3 proto) l3 length)
      (l3 + ipv6FixedHeaderSize) (l3 + ipv6FixedHeaderSize + y) count
    readBytes data' (l3 + 8) 32 = readBytes data (l3 + 8) 32 ∧
      readBytes data' (l3 + ipv6FixedHeaderSize) 4 =
        readBytes data (l3 + ipv6FixedHeaderSize + y) 4 := by
  have hset (i : Nat) (hi : l3 + 8 ≤ i) :
      setIpv6PayloadLength (setIpv6NextHeader data l3 proto) l3 length i = data i := by
    unfold setIpv6PayloadLength setIpv6NextHeader
    rw [Function.update_of_ne (by omega), Function.update_of_ne (by omega),
      Function.update_of_ne (by omega)]
  unfold memmove ipv6FixedHeaderSize
  refine ⟨readBytes_congr fun i hi => ?_, readBytes_congr fun i hi => ?_⟩
  · rw [if_neg (by omega)]
    exact hset _ (by omega)
  · rw [if_pos (by omega), Nat.add_sub_cancel_left]
    exact hset _ (by omega)

theorem ports_eq {proto : UInt8} {fragOffset l4 : Nat} {ports : List UInt8}
    (h : p.ports proto fragOffset l4 = some ports) :
    (if transportProtoP proto then readBytes p.data l4 4 else [0, 0, 0, 0]) = ports := by
  unfold Pkt.ports at h
  split_ifs at h ⊢ <;> exact Option.some.inj h

theorem add_of_l3 {fuel : Nat} {rmExtHeaders : Bool} {md : Metadata} {q : Pkt}
    (hroom : mdLen ≤ p.headroom)
    (h : addL3 fuel p (addL2 p vlan) rmExtHeaders = .ok (md, q)) :
    add fuel p rmExtHeaders vlan =
      .ok { q with md := addFilter q md (etherType p.data).2.2 } := by
  unfold add mdPtr
  rw [if_pos hroom, h]
  rfl

/-- The key, from what is found in the headers. -/
theorem key_of_l3 {fuel l4 : Nat} {ethertype : Nat} {proto : UInt8} {q : Pkt} {info : HashInfo}
    (h : ∃ md, addL3 fuel p (addL2 p vlan) rss.rmExtHeaders = .ok (md, q) ∧
      md.ethertype = ethertype ∧ md.l3Offset = p.l3 ∧ md.l4Offset = l4 ∧ md.proto = proto)
    (hinfo : hashInfo ethertype = some info) (hbecomes : Becomes rss vlan p pkt) :
    pkt.key = some (ethertype, {
      addrs := readBytes q.data (p.l3 + info.addrOffset) (8 * info.addrSize)
      ports := if transportProtoP proto then readBytes q.data l4 4 else [0, 0, 0, 0]
      proto := proto }) := by
  obtain ⟨md, h, rfl, hl3, rfl, rfl⟩ := h
  have hroom : mdLen ≤ p.headroom := by
    obtain ⟨fuel, q, hadd, -⟩ := hbecomes
    exact (straight_of_add hadd).1
  obtain rfl := becomes_unique hbecomes ⟨fuel, _, add_of_l3 hroom h, rfl⟩
  change (hashInfo md.ethertype).map _ = _
  rw [hinfo, ← hl3]
  rfl

/-- **The traversal of a plain packet leaves its flow behind the fixed header.** -/
theorem Pkt.Plain.traverse {rmExtHeaders : Bool} {l4 fragOffset : Nat} {proto : UInt8}
    (hplain : p.Plain rmExtHeaders) (htype : (etherType p.data).1 = ethertypeIpv6)
    (h : Leads p (p.l3 + ipv6FixedHeaderSize) (getIpv6NextHeader p.data p.l3) l4 proto fragOffset)
    (md : Metadata) :
    ∃ fuel payloadLength frag q,
      traverseExtensionHeaders fuel { p with md := md } p.l3 rmExtHeaders =
        .ok (payloadLength, proto, frag, q) ∧ q.md = md ∧ q.headroom = p.headroom ∧
      readBytes q.data (p.l3 + 8) 32 = readBytes p.data (p.l3 + 8) 32 ∧
      readBytes q.data (p.l3 + ipv6FixedHeaderSize) 4 = readBytes p.data l4 4 := by
  obtain ⟨fuel, y, frag, hwalk, rfl, hy⟩ := hplain.walk htype h
  unfold Pkt.walk at hwalk
  refine ⟨fuel, ?_⟩
  unfold traverseExtensionHeaders
  dsimp only
  rw [hwalk]
  by_cases hsquash : 0 < y ∧ rmExtHeaders
  · dsimp only
    rw [if_pos hsquash]
    have hcount : 4 ≤
        (p.length - (p.l3 + ipv6FixedHeaderSize : Nat) - (y : Nat) + mdLen : Int).toNat := by
      unfold mdLen
      omega
    exact ⟨_, _, _, rfl, rfl, rfl, readBytes_squashed p.data p.l3 y proto _ hcount⟩
  · obtain rfl : y = 0 := by
      by_contra hne
      rcases hy with hzero | ⟨hrm, -⟩
      · exact hne hzero
      · exact hsquash ⟨by omega, hrm⟩
    dsimp only
    rw [if_neg hsquash]
    exact ⟨_, _, _, rfl, rfl, rfl, rfl, rfl⟩

/-- **The key of a plain packet is its flow.** -/
theorem key_of_inFlow {flow : Nat × FlowKey} (h : InFlow p flow)
    (hplain : p.Plain rss.rmExtHeaders) (hbecomes : Becomes rss vlan p pkt) :
    pkt.key = some flow := by
  have hroom : mdLen ≤ p.headroom := by
    obtain ⟨fuel, q, hadd, -⟩ := hbecomes
    exact (straight_of_add hadd).1
  cases h with
  | ipv4 htype hlength hports =>
    have hl3 : ∃ md, addL3 0 p (addL2 p vlan) rss.rmExtHeaders = .ok (md, p) ∧
        md.ethertype = ethertypeIpv4 ∧ md.l3Offset = p.l3 ∧
        md.l4Offset = p.l3 + 4 * getIpv4Ihl p.data p.l3 ∧
        md.proto = getIpv4Protocol p.data p.l3 := by
      unfold addL3
      rw [if_pos (show (addL2 p vlan).ethertype = ethertypeIpv4 from htype)]
      exact ⟨_, rfl, htype, rfl, rfl, rfl⟩
    rw [← ports_eq hports]
    exact key_of_l3 hl3 rfl hbecomes
  | @ipv6 l4 fragOffset proto ports htype hlength hleads hports =>
    obtain ⟨fuel, payloadLength, frag, q, htraverse, hmd, hheadroom, haddrs, hread⟩ :=
      hplain.traverse htype hleads (addL2 p vlan)
    have hget : Metadata.get q = .ok (addL2 p vlan) := by
      unfold Metadata.get mdPtr
      rw [if_pos (by rw [hheadroom]; exact hroom), hmd]
      rfl
    have hl3 : ∃ md, addL3 fuel p (addL2 p vlan) rss.rmExtHeaders = .ok (md, q) ∧
        md.ethertype = ethertypeIpv6 ∧ md.l3Offset = p.l3 ∧
        md.l4Offset = p.l3 + ipv6FixedHeaderSize ∧ md.proto = proto := by
      unfold addL3
      dsimp only
      have hethertype : (addL2 p vlan).ethertype = ethertypeIpv6 := htype
      rw [if_neg (by rw [hethertype]; decide), if_pos hethertype]
      exact ⟨_, (bind_of_eq_ok htraverse).trans (bind_of_eq_ok hget), htype, rfl, rfl, rfl⟩
    rw [← ports_eq hports, ← haddrs, ← hread]
    exact key_of_l3 hl3 rfl hbecomes

/-- A packet of a flow has a key of its ethertype. -/
theorem exists_key {flow : Nat × FlowKey} (h : InFlow p flow) (hbecomes : Becomes rss vlan p pkt) :
    ∃ key, pkt.key = some key := by
  obtain ⟨fuel, q, hadd, rfl⟩ := hbecomes
  have htype : q.md.ethertype = (etherType p.data).1 := by
    rcases add_cases fuel p rss.rmExtHeaders vlan with
      ⟨-, h'⟩ | ⟨-, h'⟩ | ⟨-, q', h', -, -, htype, -⟩
    · rw [hadd] at h'
      cases h'
    · rw [hadd] at h'
      cases h'
    · rw [hadd] at h'
      cases h'
      exact htype
  unfold Pkt.key
  change ∃ key, (hashInfo q.md.ethertype).map _ = some key
  cases h with
  | ipv4 hipv4 =>
    rw [htype, hipv4]
    exact ⟨_, rfl⟩
  | ipv6 hipv6 =>
    rw [htype, hipv6]
    exact ⟨_, rfl⟩

end Rss

end Snabb
