import Snabb.Core.Link
import Snabb.HybridAccess.Header
import Mathlib.Logic.Function.Basic

/-!
# The recombination (`recombination/recombination.lua`, `base/buffer_ts.lua`)

The recombination merges the packets of two links back into one stream. Every
`push` first moves what has arrived into one receive buffer per link, stamped
with the time until which the packet may be held back. `process_links` then
delivers what is in order, and `process_timeout` delivers whatever has been held
back for too long.

The definitions follow the source function by function. A function that can
raise returns the state it leaves behind together with the error. The state
carries three histories that the program does not keep: the packets the output
link has accepted, the packets given back to the freelist with the reason, and
the sequence numbers consumed by `process_packet`.

Sequence numbers and time stamps are `uint64_t` in the source; the additions on
them are reduced modulo `2 ^ 64`.
-/

namespace Snabb

open Foundation

/-- `struct ts_packet`. -/
structure TsPacket where
  packet : Packet
  timestamp : Nat

/-- The slots of a receive buffer; one of them stays free. -/
def receiveBufferSize : Nat := 65536

/-- `PacketWithTimestampBuffer:enqueue`; nothing is stored when the ring is full. -/
def enqueueTs (buf : List TsPacket) (pkt : Packet) (timestamp : Nat) : Option (List TsPacket) :=
  if receiveBufferSize ≤ buf.length + 1 then none else some (buf ++ [⟨pkt, timestamp⟩])

/-- Why a packet was given back to the freelist. -/
inductive FreeReason where
  /-- Its sequence number is lower than expected. -/
  | late
  /-- It is a delay difference compensation packet. -/
  | ddc
  /-- The receive buffer of its link is full. -/
  | bufferFull
  /-- The output link is full (`link.transmit` frees it). -/
  | txdrop
deriving DecidableEq, Repr

/-- What `Recombination:new` keeps of its configuration. The link delays are
numbers that are converted to `uint64_t` when they are added to the clock. -/
structure RecombinationConf where
  hybridAccess : Codec
  linkTimeouts : LinkNo → Nat
  pullNpackets : Nat

/-- The state of a recombination, its output link, and its history. -/
structure Recombination where
  nextSeqNo : Nat
  buffer : LinkNo → List TsPacket
  output : Link
  /-- Packets accepted by the output link, with the link they came from. -/
  sent : List (LinkNo × Packet)
  /-- Packets freed, with the link they came from. -/
  freed : List (LinkNo × Packet × FreeReason)
  /-- Sequence numbers of the packets that `process_packet` consumed. -/
  consumed : List Nat

/-- The result of a function of the recombination: what it raises comes with the
state it leaves behind. -/
abbrev RecResult (α : Type) := Except (Raise × Recombination) α

namespace Recombination

/-- A recombination as `Recombination:new` makes it. -/
def new : Recombination where
  nextSeqNo := 0
  buffer := fun _ => []
  output := .new
  sent := []
  freed := []
  consumed := []

/-- `packet.free`. -/
def free (s : Recombination) (i : LinkNo) (pkt : Packet) (reason : FreeReason) : Recombination :=
  { s with freed := s.freed ++ [(i, pkt, reason)] }

/-- `link.transmit(output_link, pkt)`, for a packet of link `i`. -/
def transmit (s : Recombination) (i : LinkNo) (pkt : Packet) : Recombination :=
  if s.output.full then
    s.free i pkt .txdrop
  else
    { s with output := s.output.transmit pkt, sent := s.sent ++ [(i, pkt)] }

/-- `self.buffer[i]:dequeue()`, without its result. -/
def dequeue (s : Recombination) (i : LinkNo) : Recombination :=
  { s with buffer := Function.update s.buffer i (s.buffer i).tail }

/-- The loop of `fetch_links` over one link: enqueue until the buffer is full,
then free the rest. -/
def fetchLink (i : LinkNo) (timeout : Nat) : List Packet → Recombination → Recombination
  | [], s => s
  | pkt :: rest, s =>
    match enqueueTs (s.buffer i) pkt timeout with
    | some buf => fetchLink i timeout rest { s with buffer := Function.update s.buffer i buf }
    | none => (pkt :: rest).foldl (fun s pkt => s.free i pkt .bufferFull) s

variable (c : RecombinationConf)

/-- The time stamp `fetch_links` gives to the packets of link `i`. -/
def timeout (currentTime : Nat) (i : LinkNo) : Nat := (currentTime + c.linkTimeouts i) % 2 ^ 64

def fetchLinks (currentTime : Nat) (input : LinkNo → Link) (s : Recombination) : Recombination :=
  let s := fetchLink .one (timeout c currentTime .one) (input .one).packets s
  fetchLink .two (timeout c currentTime .two) (input .two).packets s

/-- The repeat loop of `read_next_hybrid_access_pkt`: forward the ordinary frames
at the head of a buffer. The list is the buffer from its read cursor on. -/
def skipOrdinary (i : LinkNo) : List TsPacket → Recombination → Recombination
  | [], s => s
  | pktTs :: rest, s =>
    match c.hybridAccess.getHeader pktTs.packet with
    | some _ => s
    | none => skipOrdinary i rest ((s.dequeue i).transmit i pktTs.packet)

/-- The header of the packet at the head of a buffer. -/
def headHeader (s : Recombination) (i : LinkNo) : Option HaHeader :=
  (s.buffer i).head?.bind fun pktTs => c.hybridAccess.getHeader pktTs.packet

def readNextHybridAccessPkt (i : LinkNo) (s : Recombination) : Option HaHeader × Recombination :=
  let s := skipOrdinary c i (s.buffer i) s
  (headHeader c s i, s)

/-- The rest of `process_packet` once the packet is dequeued. -/
def deliver (i : LinkNo) (pkt : Packet) (haHeader : HaHeader) (s : Recombination) :
    RecResult Recombination :=
  let s := { s with
    nextSeqNo := (haHeader.seqNo + 1) % 2 ^ 64
    consumed := s.consumed ++ [haHeader.seqNo] }
  if haHeader.type = hybridAccessType then
    match c.hybridAccess.removeHeader pkt haHeader.bufType with
    | .ok pkt => .ok (s.transmit i pkt)
    | .error e => .error (e, s)
  else
    -- drop packet (ddc)
    .ok (s.free i pkt .ddc)

def processPacket (i : LinkNo) (haHeader : Option HaHeader) (s : Recombination) :
    RecResult Recombination :=
  match s.buffer i with
  | [] => .error (.emptyBuffer, s)
  | pktTs :: _ =>
    match haHeader with
    | none => .error (.indexNil "ha_header", s.dequeue i)
    | some haHeader => deliver c i pktTs.packet haHeader (s.dequeue i)

/-! ## `process_links` -/

/-- The locals of one round of the while loop of `process_links`. -/
structure Scan where
  state : Recombination
  /-- `buffered_header` with `buffered_input_index`. -/
  buffered : Option (HaHeader × LinkNo)
  existsEmptyLink : Bool
  /-- The for loop was left by `break`. -/
  left : Bool

/-- The body of the for loop of `process_links`, for link `i`. -/
def scanLink (i : LinkNo) (sc : Scan) : RecResult Scan :=
  if sc.left then .ok sc
  else
    match readNextHybridAccessPkt c i sc.state with
    | (none, s) => .ok { sc with state := s, existsEmptyLink := true }
    | (some haHeader, s) =>
      if haHeader.seqNo = s.nextSeqNo then
        match processPacket c i (some haHeader) s with
        | .ok s => .ok { sc with state := s, buffered := none, left := true }
        | .error e => .error e
      else if haHeader.seqNo < s.nextSeqNo then
        -- discard packets with a smaller sequence number than expected
        match s.buffer i with
        | [] => .error (.emptyBuffer, s)
        | pktTs :: _ =>
          .ok { sc with state := (s.dequeue i).free i pktTs.packet .late, buffered := none, left := true }
      else if sc.buffered.all fun b => haHeader.seqNo < b.1.seqNo then
        .ok { sc with state := s, buffered := some (haHeader, i) }
      else
        .ok { sc with state := s }

/-- One round of the while loop of `process_links`; the flag says whether the
loop is left by `break`. -/
def processRound (s : Recombination) : RecResult (Recombination × Bool) :=
  match scanLink c .one ⟨s, none, false, false⟩ with
  | .error e => .error e
  | .ok sc =>
    match scanLink c .two sc with
    | .error e => .error e
    | .ok sc =>
      match sc.buffered with
      | none => .ok (sc.state, false)
      | some (haHeader, i) =>
        if sc.existsEmptyLink then .ok (sc.state, true)
        else
          match processPacket c i (some haHeader) sc.state with
          | .ok s => .ok (s, false)
          | .error e => .error e

/-- The while loop of `process_links` with `n` rounds left before
`pull_npackets` is reached. -/
def processLinksLoop : Nat → Recombination → RecResult Recombination
  | 0, s => .ok s
  | n + 1, s =>
    if (s.buffer .one).isEmpty && (s.buffer .two).isEmpty then .ok s
    else
      match processRound c s with
      | .error e => .error e
      | .ok (s, true) => .ok s
      | .ok (s, false) => processLinksLoop n s

def processLinks (s : Recombination) : RecResult Recombination :=
  processLinksLoop c c.pullNpackets s

/-! ## `process_timeout` -/

/-- The inner while loop of `process_timeout`: deliver what the other link holds
below the reference header. The loop consumes a packet in every round, so the
number of buffered packets bounds its rounds. -/
def processLower (j : LinkNo) (refHeader : Option HaHeader) :
    Nat → Option HaHeader → Recombination → RecResult (Option HaHeader × Recombination)
  | 0, otherHeader, s => .ok (otherHeader, s)
  | _ + 1, none, s => .ok (none, s)
  | n + 1, some otherHeader, s =>
    match refHeader with
    | none => .error (.indexNil "ref_header", s)
    | some ref =>
      if otherHeader.seqNo < ref.seqNo then
        match processPacket c j (some otherHeader) s with
        | .error e => .error e
        | .ok s =>
          let (otherHeader, s) := readNextHybridAccessPkt c j s
          processLower j (some ref) n otherHeader s
      else .ok (some otherHeader, s)

/-- The outer while loop of `process_timeout` for link `i`, with `init` and
`other_header` as arguments. Every round consumes a packet of link `i`. -/
def timeoutLoop (currentTime : Nat) (i : LinkNo) :
    Nat → Bool → Option HaHeader → Recombination → RecResult Recombination
  | 0, _, _, s => .ok s
  | n + 1, init, otherHeader, s =>
    match s.buffer i with
    | [] => .ok s
    | p :: _ =>
      if p.timestamp ≤ currentTime then
        let refHeader := c.hybridAccess.getHeader p.packet
        let (otherHeader, s) :=
          if init then readNextHybridAccessPkt c i.other s else (otherHeader, s)
        match processLower c i.other refHeader (s.buffer i.other).length otherHeader s with
        | .error e => .error e
        | .ok (otherHeader, s) =>
          -- the number is not compared with `next_seq_no`, as `process_links` does
          match processPacket c i refHeader s with
          | .error e => .error e
          | .ok s => timeoutLoop currentTime i n false otherHeader s
      else .ok s

def processTimeout (currentTime : Nat) (s : Recombination) : RecResult Recombination :=
  match timeoutLoop c currentTime .one (s.buffer .one).length true none s with
  | .error e => .error e
  | .ok s => timeoutLoop c currentTime .two (s.buffer .two).length true none s

/-! ## `push` -/

/-- What a push finds: the clock, the packets waiting on the two input links, and
how many packets the next app has taken from the output link since the last push. -/
structure PushInput where
  currentTime : Nat
  input : LinkNo → Link
  taken : Nat

def push (s : Recombination) (inp : PushInput) : RecResult Recombination :=
  let s := { s with output := s.output.drain inp.taken }
  match processLinks c (fetchLinks c inp.currentTime inp.input s) with
  | .error e => .error e
  | .ok s => processTimeout c inp.currentTime s

/-- A push at `currentTime` that finds `one` and `two` on its input links and an
empty output link. -/
def PushInput.finding (currentTime : Nat) (one two : List Packet) : PushInput where
  currentTime := currentTime
  input
    | .one => .holding one
    | .two => .holding two
  taken := linkMaxPackets

/-- What link `i` has delivered over a run. -/
def received (i : LinkNo) (inputs : List PushInput) : List Packet :=
  inputs.flatMap fun inp => (inp.input i).packets

end Recombination

end Snabb
