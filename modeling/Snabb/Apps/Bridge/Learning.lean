import Snabb.Foundation.Run
import Snabb.Apps.Bridge.Base
import Snabb.Apps.Bridge.MacTable
import Snabb.Core.Link

/-!
# The learning bridge (`apps/bridge/learning.lua`)

A push takes the packets from the ingress ports and looks up their destinations in the MAC table. By
the result, a packet is put into one of three packet forwarding tables: there is one for packets to
a known port, one for those that are flooded to all ports, and one for those to be discarded. Then
the packets of each table are dealt with.

The tables are allocated in the order in which `pairs` gives their names, and the C code that fills
them knows them by their numbers in this order. So the order is a parameter.

Packets are known by numbers. A clone gets a number that no packet had before; a packet that is
freed has the length 0. An access behind the end of an object or to none at all is a fault.
-/

namespace Snabb

namespace Bridge

open Foundation
open Function (Injective update)

/-! ## Packets -/

/-- The bytes of a packet, which stands in a buffer that is longer, and its length. -/
structure Frame where
  data : Nat → UInt8
  length : Nat

/-- `mac2u64`: the address that stands in memory. -/
def mac2u64 (data : Nat → UInt8) (mac : Nat) : Nat :=
  (List.range 6).foldr (fun i n => (data (mac + i)).toNat + 256 * n) 0

/-- `ethernet:is_mcast`. -/
def isMcast (data : Nat → UInt8) (addr : Nat) : Bool := data addr &&& 0x01 ≠ 0

/-! ## Packet forwarding tables -/

/-- `pft_spec`. -/
inductive Kind where
  | ucast
  | flood
  | discard
deriving DecidableEq, Repr

scoped instance : NeZero 3 := ⟨by decide⟩

/-- The order in which `pairs` gives the keys of `pft_spec`. -/
structure PairsOrder where
  kind : Fin 3 → Kind
  inj : Injective kind

/-- A list of ports that an entry points to: none, the one of the entry itself, or the one for
flooding of an ingress port. -/
inductive PortList where
  | null
  | own (port : Nat)
  | flooding (ports : List Nat)
deriving DecidableEq, Repr

/-- `pl.ports[j]`. -/
def PortList.port : PortList → Nat → Option Nat
  | .null, _ => none
  | .own port, j => if j = 0 then some port else none
  | .flooding ports, j => ports[j]?

/-- `pl.length`. -/
def PortList.length : PortList → Nat
  | .null => 0
  | .own _ => 1
  | .flooding ports => ports.length

/-- `pl.ports[0] = port`. -/
def PortList.setPort (port : Nat) : PortList → Option PortList
  | .null => none
  | .own _ => some (.own port)
  | .flooding ports => some (.flooding (ports.set 0 port))

/-- `pft_entry_t`. -/
structure PftEntry where
  p : Nat
  plist : PortList
deriving DecidableEq, Repr

/-- `pft_t`. The length is a `uint16_t`. -/
structure Pft where
  length : Nat
  entries : Nat → PftEntry

/-- `initial_pft_size`. -/
def initialPftSize : Nat := 256

/-- A table as it is allocated: the entries of `ucast` have port lists. -/
def Pft.new : Kind → Pft
  | .ucast => ⟨0, fun _ => ⟨0, .own 0⟩⟩
  | .flood => ⟨0, fun _ => ⟨0, .null⟩⟩
  | .discard => ⟨0, fun _ => ⟨0, .null⟩⟩

/-! ## The state -/

/-- What ends a push: a port that there is not is indexed, or a fault in memory. -/
inductive Fault where
  | nilPort
  | memory
  | noPacket
deriving DecidableEq, Repr

/-- A packet that was transmitted, with what was in it. `origin` is the received packet that it is
or was cloned from. -/
structure Sent where
  origin : Nat
  port : Nat
  ptr : Nat
  frame : Frame

/-- A packet from `next` on is not in use. The links are those of the ports. -/
structure State where
  pkts : Nat → Frame
  next : Nat
  inputs : Nat → List Nat
  outputs : Nat → List Nat
  macTable : MacTable
  pft : Kind → Pft
  pftSize : Nat
  discarded : List Nat
  sent : List Sent

abbrev Call := StateT State (Except Fault)

/-! ## Links and packets -/

def receive (port : Nat) : Call Nat := do
  let s ← get
  match s.inputs port with
  | p :: rest =>
    set { s with inputs := update s.inputs port rest }
    return p
  | [] => throw .noPacket

/-- `packet.free`. -/
def free (p : Nat) : Call Unit :=
  modify fun s => { s with pkts := update s.pkts p ⟨(s.pkts p).data, 0⟩ }

/-- `packet.clone`. -/
def clone (p : Nat) : Call Nat := do
  let s ← get
  let frame : Frame := {
    data := fun i => if i < (s.pkts p).length then (s.pkts p).data i else (s.pkts s.next).data i
    length := (s.pkts p).length }
  set { s with pkts := update s.pkts s.next frame, next := s.next + 1 }
  return s.next

/-- `transmit(ports[port].l_out, p)`: a full link frees the packet. -/
def transmit (b : Bridge) (origin port p : Nat) : Call Unit := do
  if port ∈ b.handlesOf then
    modify fun s => { s with sent := s.sent ++ [⟨origin, port, p, s.pkts p⟩] }
    if ((← get).outputs port).length = linkMaxPackets then free p
    else modify fun s => { s with
      outputs := update s.outputs port (s.outputs port ++ [p]) }
  else throw .nilPort

/-! ## Classification -/

/-- An entry of a table is filled in, and its port list set. -/
def addEntry (kind : Kind) (p : Nat) (plist : PortList → Option PortList) : Call Unit := do
  let s ← get
  let pft := s.pft kind
  if s.pftSize ≤ pft.length then throw .memory
  else match plist (pft.entries pft.length).plist with
    | some pl => set { s with pft := update s.pft kind {
        length := (pft.length + 1) % 65536
        entries := update pft.entries pft.length ⟨p, pl⟩ } }
    | none => throw .memory

/-- `mac_table_lookup_pft`, when the address was looked up. -/
def lookupPft (order : PairsOrder) (me : Option MacEntry) (port group p : Nat)
    (floodPl : List Nat) : Call Unit :=
  match me with
  | some me =>
    if (group ≠ 0 ∧ group = me.group) ∨ port = me.port then addEntry (order.kind 2) p some
    else addEntry (order.kind 0) p (PortList.setPort me.port)
  | none => addEntry (order.kind 1) p fun _ => some (.flooding floodPl)

/-- What is learned from a packet. -/
def learn (b : Bridge) (t : MacTable) (ip : Nat) (frame : Frame) : MacTable :=
  if isMcast frame.data 6 then t
  else t.insert (mac2u64 frame.data 6) ip (b.group ip)

/-- The body of the loop over an input link. -/
def classify (b : Bridge) (order : PairsOrder) (ip p : Nat) : Call Unit := do
  let s ← get
  lookupPft order (s.macTable.lookup (mac2u64 (s.pkts p).data 0)) ip (b.group ip) p
    (b.dstPorts ip)
  modify fun s => { s with macTable := learn b s.macTable ip (s.pkts p) }

/-- The loop over an input link, with the number of its packets and that of the packets so far. It
is left when the tables are full. -/
def receiveFrom (b : Bridge) (order : PairsOrder) (ip : Nat) : Nat → Nat → Call (Option Nat)
  | 0, packets => return some packets
  | n + 1, packets => do
    let p ← receive ip
    classify b order ip p
    if (← get).pftSize ≤ packets + 1 then return none
    else receiveFrom b order ip n (packets + 1)

/-- The loop over the ingress ports. It returns whether the tables are full. -/
def receivePorts (b : Bridge) (order : PairsOrder) : List Nat → Nat → Call Bool
  | [], _ => return false
  | ip :: rest, packets => do
    match ← receiveFrom b order ip ((← get).inputs ip).length packets with
    | some packets => receivePorts b order rest packets
    | none => return true

/-! ## Forwarding -/

def portAt (pl : PortList) (j : Nat) : Call Nat :=
  match pl.port j with
  | some port => return port
  | none => throw .memory

/-- Unicast forwarding of an entry. -/
def unicast (b : Bridge) (pfe : PftEntry) : Call Unit := do
  let port ← portAt pfe.plist 0
  transmit b pfe.p port pfe.p

/-- Flooding of an entry: the packet itself is transmitted first, and cloned for the others. -/
def flood (b : Bridge) (pfe : PftEntry) : Call Unit := do
  let port ← portAt pfe.plist 0
  transmit b pfe.p port pfe.p
  (List.range' 1 (pfe.plist.length - 1)).forM fun j => do
    let port ← portAt pfe.plist j
    let p ← clone pfe.p
    transmit b pfe.p port p

def discard (pfe : PftEntry) : Call Unit := do
  free pfe.p
  modify fun s => { s with discarded := s.discarded ++ [pfe.p] }

/-- The loop over the entries of a table. -/
def forEntries (pft : Pft) (body : PftEntry → Call Unit) : Call Unit :=
  (List.range pft.length).forM fun i => body (pft.entries i)

/-- `bridge:push`. -/
def push (b : Bridge) (order : PairsOrder) : Call Unit := do
  modify fun s => { s with pft := fun kind => { s.pft kind with length := 0 } }
  let full ← receivePorts b order b.handlesOf 0
  let pft := (← get).pft
  if full then modify fun s => { s with pft := Pft.new, pftSize := s.pftSize + initialPftSize }
  forEntries (pft .ucast) (unicast b)
  forEntries (pft .flood) (flood b)
  forEntries (pft .discard) discard

end Bridge

end Snabb
