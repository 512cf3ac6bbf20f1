import Snabb.Core.Link
import Snabb.Apps.Rss.Metadata
import Mathlib.Data.List.Sort

/-!
# Receive side scaling (`apps/rss/rss.lua`)

The rss app hands each packet to the classes that match it, and in each class to one of the output
links, which is selected by a hash of the flow. A class that is marked `continue` lets the packet go
on to the classes behind it, so that one packet may go to several classes; copies are made for all
but the last of them, of which the meta-data has the number.

The links of the app are queues of packets, of which a packet is known by a number; a copy gets a
number that no packet had before. What the filter of a class says, the hash functions and the names
of links are parameters. What happens to a packet behind an output link is left open: `sent` is what
is transmitted there.
-/

namespace Snabb

namespace Rss

open Foundation
open Function (update)

/-! ## The demultiplexer -/

def split (type : Nat) : Nat × Nat := (type >>> 8, type &&& 0x00ff)

/-- `etht_demux`: a table by the high byte, with the default table where there is no other, of
tables by the low byte. -/
structure EthtDemux (Q : Type) where
  default : Q
  l1 : Nat → Option (Nat → Q)

namespace EthtDemux

variable {Q : Type}

def new (defaultQueue : Q) : EthtDemux Q := ⟨defaultQueue, fun _ => none⟩

def add (demux : EthtDemux Q) (type : Nat) (queue : Q) : EthtDemux Q :=
  let (hi, lo) := split type
  let l2 := (demux.l1 hi).getD fun _ => demux.default
  { demux with l1 := update demux.l1 hi (some (update l2 lo queue)) }

def lookup (demux : EthtDemux Q) (type : Nat) : Q :=
  let (hi, lo) := split type
  ((demux.l1 hi).getD fun _ => demux.default) lo

end EthtDemux

/-- `demux_queues`. -/
inductive DemuxQueue where
  | defaultUntagged
  | dot1q
  | ipv4
  | ipv6
  | defaultTagged
  | ipv4Tagged
  | ipv6Tagged
deriving DecidableEq, Repr

/-- `demux1`. -/
def demux1 : EthtDemux DemuxQueue :=
  (((EthtDemux.new .defaultUntagged).add 0x8100 .dot1q).add 0x0800 .ipv4).add 0x86dd .ipv6

/-- `demux2`. -/
def demux2 : EthtDemux DemuxQueue :=
  ((EthtDemux.new .defaultTagged).add 0x0800 .ipv4Tagged).add 0x86dd .ipv6Tagged

/-! ## Flows -/

/-- `hash_info`: where the addresses of a packet are and how many words they have. -/
structure HashInfo where
  addrOffset : Nat
  addrSize : Nat

def hashInfo (ethertype : Nat) : Option HashInfo :=
  if ethertype = ethertypeIpv4 then some ⟨12, 1⟩
  else if ethertype = ethertypeIpv6 then some ⟨8, 4⟩
  else none

/-- `transport_proto_p`. -/
def transportProtoP (proto : UInt8) : Bool := proto ∈ [6, 17, 132]

/-- The key of a flow. -/
structure FlowKey where
  addrs : List UInt8
  ports : List UInt8
  proto : UInt8
deriving DecidableEq, Repr

/-- Some bytes of a packet. -/
def readBytes (data : Bytes) (ptr count : Nat) : List UInt8 :=
  (List.range count).map fun i => data (ptr + i)

/-- The key of the flow of a packet, as `hash` fills it in. -/
def flowKey (p : Pkt) (info : HashInfo) : FlowKey where
  addrs := readBytes p.data (p.md.l3 + info.addrOffset) (8 * info.addrSize)
  ports := if transportProtoP p.md.proto then readBytes p.data p.md.l4 4 else [0, 0, 0, 0]
  proto := p.md.proto

/-- `hash`; `hashFn` are the hash functions of the ethertypes. -/
def hash (hashFn : Nat → FlowKey → Nat) (p : Pkt) : Pkt :=
  let hash := match hashInfo p.md.ethertype with
    | some info => uint16 (hashFn p.md.ethertype (flowKey p info) >>> 1 : Nat)
    | none => 0
  { p with md := { p.md with hash := hash } }

/-! ## Classes -/

/-- What a class is configured to be. The filter is given a VLAN and some bytes. -/
structure ClassSpec where
  name : String
  matchFn : Nat → Bytes → Nat → Bool
  continue' : Bool

/-- A class, with its place in the list and the links it has: each link as often as its weight
says. -/
structure Class extends ClassSpec where
  seq : Nat
  output : List String

/-- `class.match_fn(md)`. -/
def Class.matchMd (cls : Class) (p : Pkt) : Bool :=
  cls.matchFn p.md.vlan (fun i => p.data (p.md.filterStart + i)) p.md.filterLength

/-- What an instance is configured with, and what was linked. -/
structure Config where
  classes : List Class
  classesActive : List Nat
  rmExtHeaders : Bool
  hashFn : Nat → FlowKey → Nat

/-- `add_class`. -/
def addClass (classes : List Class) (spec : ClassSpec) : List Class :=
  classes ++ [{ spec with seq := classes.length, output := [] }]

/-- `rss:new`, for classes of which the filters are compiled. -/
def Config.new (specs : List ClassSpec) (rmExtHeaders : Bool) (hashFn : Nat → FlowKey → Nat) :
    Config where
  classes := specs.foldl addClass []
  classesActive := []
  rmExtHeaders := rmExtHeaders
  hashFn := hashFn

def insertUnique (t : List Nat) (newElt : Nat) : List Nat :=
  if newElt ∈ t then t else t ++ [newElt]

/-- `rss:link` for an output. `weight` says for the name of a class and that of a link whether they
belong together, and with which weight. -/
def Config.linkOutput (weight : String → String → Option Nat) (rss : Config) (name : String) :
    Config :=
  let link (cls : Class) : Class :=
    { cls with output := cls.output ++ List.replicate ((weight cls.name name).getD 0) name }
  let matching := rss.classes.filter fun cls => (weight cls.name name).isSome
  { rss with
    classes := rss.classes.map link
    classesActive := ((matching.map Class.seq).foldl insertUnique rss.classesActive).insertionSort
      (· ≤ ·) }

/-- An instance with its output links. -/
def Config.make (weight : String → String → Option Nat) (specs : List ClassSpec)
    (links : List String) (rmExtHeaders : Bool) (hashFn : Nat → FlowKey → Nat) : Config :=
  links.foldl (Config.linkOutput weight) (.new specs rmExtHeaders hashFn)

/-- The classes of `classes_active`. -/
def Config.active (rss : Config) : List Class := rss.classesActive.filterMap (rss.classes[·]?)

/-! ## Packets and queues -/

/-- The links that packets are received from: the input link and those inside the app. -/
inductive QueueName where
  | input
  | queue
  | demux (name : DemuxQueue)
  | cls (seq : Nat)
deriving DecidableEq, Repr

/-- A packet that was transmitted to an output link of a class. -/
structure Sent where
  cls : Nat
  link : String
  ptr : Nat
deriving DecidableEq, Repr

/-- The packets and the queues, what was freed and what was sent. A packet from `next` on is not in
use. -/
structure State where
  pkts : Nat → Pkt
  next : Nat
  queues : QueueName → List Nat
  freed : List Nat
  sent : List Sent
  rxpackets : Nat
  rxdropsFilter : Nat

/-- The state with other packets in a queue. -/
def State.put (s : State) (q : QueueName) (packets : List Nat) : State :=
  { s with queues := update s.queues q packets }

/-- A call of the app. -/
abbrev Call := StateT State (Except Halt)

def nreadable (q : QueueName) : Call Nat := return ((← get).queues q).length

def receive (q : QueueName) : Call Nat := do
  match (← get).queues q with
  | p :: rest =>
    modify fun s => s.put q rest
    return p
  | [] => throw .noPacket

def free (p : Nat) : Call Unit := modify fun s => { s with freed := s.freed ++ [p] }

/-- `link.transmit`: a full link frees the packet. -/
def transmit (q : QueueName) (p : Nat) : Call Unit := do
  let packets := (← get).queues q
  if packets.length = linkMaxPackets then free p
  else modify fun s => s.put q (packets ++ [p])

/-- `for _ = 1, npackets do local p = receive(q) ... end`. -/
def forPackets (q : QueueName) (body : Nat → Call Unit) : Nat → Call Unit
  | 0 => return
  | npackets + 1 => do
    let p ← receive q
    body p
    forPackets q body npackets

/-- The loop over the packets that are readable when it begins. -/
def forReadable (q : QueueName) (body : Nat → Call Unit) : Call Unit := do
  let npackets ← nreadable q
  forPackets q body npackets

/-- `mdget`. -/
def mdget (p : Nat) : Call Metadata := do
  match Metadata.get ((← get).pkts p) with
  | .ok md => return md
  | .error e => throw e

def setPkt (p : Nat) (pkt : Pkt) : Call Unit :=
  modify fun s => { s with pkts := update s.pkts p pkt }

def setRef (p : Nat) (ref : Int) : Call Unit := do
  let pkt := (← get).pkts p
  setPkt p { pkt with md := { pkt.md with ref := uint16 ref } }

/-- `packet.default_headroom`. -/
def defaultHeadroom : Nat := 256

/-- `metadata.copy`: a packet that is not in use gets the bytes of the packet, and its meta-data. -/
def mdcopy (p : Nat) : Call Nat := do
  let smd ← mdget p
  let s ← get
  let pkt := s.pkts p
  let clone : Pkt := {
    data := fun i => if i < pkt.length then pkt.data i else (s.pkts s.next).data i
    length := pkt.length
    headroom := defaultHeadroom
    md := setPointers smd }
  setPkt s.next clone
  modify fun s => { s with next := s.next + 1 }
  return s.next

/-! ## `push` -/

/-- `index` in `distribute`, counted from 0. -/
def linkIndex (n hash : Nat) : Nat := (hash * n % 2 ^ 32) >>> 16

def distribute (cls : Class) (p hash : Nat) : Call Unit :=
  match cls.output[linkIndex cls.output.length hash]? with
  | some link => modify fun s => { s with sent := s.sent ++ [⟨cls.seq, link, p⟩] }
  | none => throw .noLink

/-- `md_wrapper`, behind the `receive`. -/
def mdWrapper (fuel : Nat) (rss : Config) (vlan : Option Nat) (p : Nat) : Call Unit := do
  match add fuel ((← get).pkts p) rss.rmExtHeaders vlan with
  | .ok pkt =>
    setPkt p (hash rss.hashFn pkt)
    transmit .queue p
  | .error e => throw e

/-- The queues in the order in which their packets get meta-data. -/
def mdQueues : List DemuxQueue :=
  [.defaultUntagged, .defaultTagged, .ipv4, .ipv6, .ipv4Tagged, .ipv6Tagged]

/-- A packet is shown to a class. -/
def classify (cls : Class) (p : Nat) : Call Unit := do
  let md ← mdget p
  if cls.matchMd ((← get).pkts p) then
    setRef p (md.ref + 1)
    transmit (.cls cls.seq) p
    if cls.continue' then transmit .queue p
  else transmit .queue p

/-- A packet that no class has is freed. -/
def drop (p : Nat) : Call Unit := do
  let md ← mdget p
  if md.ref = 0 then
    modify fun s => { s with rxdropsFilter := s.rxdropsFilter + 1 }
    free p

/-- A packet of a class is handed out, or a copy if there are other classes that have it. -/
def handOut (cls : Class) (p : Nat) : Call Unit := do
  let md ← mdget p
  if 1 < md.ref then
    setRef p (md.ref - 1)
    distribute cls (← mdcopy p) md.hash
  else distribute cls p md.hash

/-- A packet is sorted by the ethertype of its Ethernet header. -/
def demuxEther (p : Nat) : Call Unit := do
  let data := ((← get).pkts p).data
  transmit (.demux (demux1.lookup (ntohs data 12))) p

/-- A packet with a tag is sorted by the ethertype behind the tag. -/
def demuxDot1q (p : Nat) : Call Unit := do
  let data := ((← get).pkts p).data
  transmit (.demux (demux2.lookup (ntohs data 16))) p

/-- The first block of `push_with_vlan`, from the input link to the main queue. -/
def demux (fuel : Nat) (rss : Config) (vlan : Option Nat) : Call Unit := do
  let npackets ← nreadable .input
  modify fun s => { s with rxpackets := s.rxpackets + npackets }
  forPackets .input demuxEther npackets
  forReadable (.demux .dot1q) demuxDot1q
  mdQueues.forM fun q => forReadable (.demux q) (mdWrapper fuel rss vlan)

/-- `rss:push_with_vlan`. -/
def pushWithVlan (fuel : Nat) (rss : Config) (vlan : Option Nat) : Call Unit := do
  demux fuel rss vlan
  rss.active.forM fun cls => forReadable .queue (classify cls)
  forReadable .queue drop
  rss.active.forM fun cls => forReadable (.cls cls.seq) (handOut cls)

end Rss

end Snabb
