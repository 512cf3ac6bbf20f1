import Snabb.Core.Link
import Snabb.Foundation.Run
import Snabb.Foundation.TokenBucket
import Mathlib.Data.Rat.Floor

/-!
# The rate limiters (`middleware/rate_limiter.lua`, `middleware/rate_limiter_ts.lua`,
`base/buffer.lua`, `base/timestamp.lua`)

A rate limiter is a token bucket with a packet buffer. Every push refills the
bucket, sends what the bucket can pay from the buffer and then from the input
link, stores the rest in the buffer as long as the buffer contingent lasts, and
frees what is left.

`TBRateLimiter` and `RateLimiterTS` are the same program up to one line: the
second one writes a time stamp behind the payload of every packet it receives
from the link. The shared definitions take that line as the argument `stamp`.

Numbers are Lua numbers in the source and rationals here. The state carries the
packets handed to the output link, with the time of the push, and the packets
freed.
-/

namespace Snabb

open Foundation Packet

/-- `QUEUE_LENGTH`, the slots of the packet buffer; one of them stays free. -/
def queueLength : Nat := 65536

/-- The configuration of a rate limiter: `rate` in bit/s, the capacities in byte,
`buffer_latency` in ns. -/
structure RateLimiterConf where
  rate : ℚ
  bucketCapacity : ℚ
  additionalOverhead : Option ℚ
  layer1Overhead : Bool
  bufferCapacity : Option ℚ
  bufferLatency : Option ℚ
  timestamp : Bool
  rate_nonneg : 0 ≤ rate
  bucketCapacity_nonneg : 0 ≤ bucketCapacity

/-- The state of a rate limiter, its output link, and its history. -/
structure RateLimiter where
  byteRate : ℚ
  bucketCapacity : ℚ
  bucketContingent : ℚ
  bufferCapacity : ℚ
  bufferContingent : ℚ
  additionalOverhead : ℚ
  minPktSize : ℚ
  /-- `conf.timestamp`, which only `RateLimiterTS` reads. -/
  timestamp : Bool
  lastTime : Option ℚ
  /-- `self.buffer`, oldest packet first. -/
  buffer : Option (List Packet)
  output : Link
  /-- The packets handed to the output link, with the time of the push. -/
  sent : List (ℚ × Packet)
  freed : List Packet

/-- What a push finds: `engine.now()`, `C.get_time_ns()`, the packets waiting on the
input link, and how many packets the next app has taken from the output link. -/
structure RateLimiterInput where
  now : ℚ
  timeNs : Nat
  input : Link
  taken : Nat

theorem sampleRate_nonneg : (0 : ℚ) ≤ 8 := by decide

theorem sampleCapacity_nonneg : (0 : ℚ) ≤ 400 := by decide

/-- A rate limiter of 1 byte/s with a bucket of 400 byte and a buffer. -/
def RateLimiterConf.sample : RateLimiterConf where
  rate := 8
  bucketCapacity := 400
  additionalOverhead := none
  layer1Overhead := true
  bufferCapacity := some 2000
  bufferLatency := none
  timestamp := true
  rate_nonneg := sampleRate_nonneg
  bucketCapacity_nonneg := sampleCapacity_nonneg

/-- A push at `now` that finds frames of the given lengths, numbered from `base` on,
and an empty output link. -/
def RateLimiterInput.finding (now : ℚ) (base : Nat) (lengths : List Nat) : RateLimiterInput where
  now := now
  timeNs := 0
  input := .holding (lengths.mapIdx fun i n => .fromPointer (base + i) (List.replicate n 0))
  taken := linkMaxPackets

namespace RateLimiter

/-- `buffer_capacity`, from the latency when one is configured. -/
def bufferCapacityOf (conf : RateLimiterConf) (byteRate : ℚ) : Option ℚ :=
  match conf.bufferLatency with
  | some latency => some ⌊byteRate * (latency / 10 ^ 9)⌋
  | none => conf.bufferCapacity

/-- The overhead and the least size of a packet. -/
def overheadOf (conf : RateLimiterConf) : ℚ × ℚ :=
  match conf.additionalOverhead with
  | some overhead => (overhead, 64)
  | none => if conf.layer1Overhead then (7 + 1 + 4 + 12, 84) else (0, 64)

def new (conf : RateLimiterConf) : Except Raise RateLimiter :=
  if conf.bufferCapacity.isSome && conf.bufferLatency.isSome then
    .error .assertionFailed
  else
    let byteRate : ℚ := ⌊conf.rate / 8⌋
    match bufferCapacityOf conf byteRate with
    | none => .error .compareNil
    | some bufferCapacity =>
      if bufferCapacity < queueLength * 1500 then
        .ok {
          byteRate := byteRate
          bucketCapacity := conf.bucketCapacity
          bucketContingent := conf.bucketCapacity
          bufferCapacity := bufferCapacity
          bufferContingent := bufferCapacity
          additionalOverhead := (overheadOf conf).1
          minPktSize := (overheadOf conf).2
          timestamp := conf.timestamp
          lastTime := none
          buffer := if 0 < bufferCapacity then some [] else none
          output := .new
          sent := []
          freed := [] }
      else
        .error .assertionFailed

/-- What a packet costs: the local `length` of the loops. -/
def pktLength (o : RateLimiter) (p : Packet) : ℚ :=
  max (p.length + o.additionalOverhead) o.minPktSize

/-- Refill the bucket by the time since the last call. -/
def refill (now : ℚ) (o : RateLimiter) : RateLimiter :=
  let interval := now - o.lastTime.getD now
  { o with
    bucketContingent := min (o.bucketContingent + o.byteRate * interval) o.bucketCapacity
    lastTime := some now }

/-- `transmit(iface_out, p)`. -/
def transmit (now : ℚ) (p : Packet) (o : RateLimiter) : RateLimiter :=
  { o with output := o.output.transmit p, sent := o.sent ++ [(now, p)] }

/-- `free(p)`. -/
def free (p : Packet) (o : RateLimiter) : RateLimiter := { o with freed := o.freed ++ [p] }

/-- `self.buffer:enqueue(p)`; a full buffer does not store the packet, and the
result that says so is not looked at. -/
def enqueue (p : Packet) (o : RateLimiter) : Except Raise RateLimiter :=
  match o.buffer with
  | none => .error (.indexNil "buffer")
  | some buf =>
    .ok { o with buffer := some (if queueLength ≤ buf.length + 1 then buf else buf ++ [p]) }

/-- The loop of `send_from_buffer`. It runs at most as often as there are packets
in the buffer, so there is always one to peek at. -/
def sendFromBuffer (now : ℚ) : Nat → RateLimiter → RateLimiter
  | 0, o => o
  | n + 1, o =>
    match o.buffer with
    | some (p :: rest) =>
      let length := o.pktLength p
      if length ≤ o.bucketContingent then
        -- move packets from buffer to bucket
        sendFromBuffer now n (transmit now p { o with
          buffer := some rest
          bucketContingent := o.bucketContingent - length
          bufferContingent := o.bufferContingent + length })
      else
        sendFromBuffer now n o
    | _ => o

variable (stamp : Packet → Packet)

/-- The branch that `send_from_link` and `store_in_buffer` share: buffer a packet
if the contingent allows it, otherwise discard it. -/
def bufferOrFree (p : Packet) (o : RateLimiter) : Except Raise RateLimiter :=
  let length := o.pktLength p
  if length ≤ o.bufferContingent then
    -- the result of `enqueue` is ignored
    enqueue p { o with bufferContingent := o.bufferContingent - length }
  else
    .ok (o.free p)

/-- The loop of `send_from_link`; it returns what is left on the input link. -/
def sendFromLink (now : ℚ) : Nat → List Packet → RateLimiter →
    Except Raise (RateLimiter × List Packet)
  | n + 1, p :: rest, o =>
    let p := stamp p
    let length := o.pktLength p
    if length ≤ o.bucketContingent then
      sendFromLink now n rest
        (transmit now p { o with bucketContingent := o.bucketContingent - length })
    else do
      let o ← bufferOrFree p o
      sendFromLink now n rest o
  | _, rest, o => .ok (o, rest)

/-- The loop of `store_in_buffer`, which empties the input link. -/
def storeInBuffer : List Packet → RateLimiter → Except Raise RateLimiter
  | [], o => .ok o
  | p :: rest, o => do
    let o ← bufferOrFree (stamp p) o
    storeInBuffer rest o

def dropIncomingPackets (pkts : List Packet) (o : RateLimiter) : RateLimiter :=
  pkts.foldl (fun o p => o.free p) o

/-- `self.buffer:size()`, or 0 without a buffer. -/
def bufferSize (o : RateLimiter) : Nat := (o.buffer.getD []).length

/-- The part of `push` that receives packets from the link. -/
def receiveFromLink (inp : RateLimiterInput) (o : RateLimiter) : Except Raise RateLimiter := do
  let incoming := inp.input.nreadable
  let (o, rest) ← sendFromLink stamp inp.now (min incoming o.output.nwritable) inp.input.packets o
  if 0 < o.bufferContingent then
    storeInBuffer stamp rest o
  else
    return dropIncomingPackets rest o

/-- The body of both `push` functions. -/
def pushBy (o : RateLimiter) (inp : RateLimiterInput) : Except Raise RateLimiter :=
  let o := { o with output := o.output.drain inp.taken }
  let bufferSize := o.bufferSize
  let incoming := inp.input.nreadable
  if incoming = 0 ∧ bufferSize = 0 then
    .ok o
  else
    let o := o.refill inp.now
    let o :=
      if 0 < bufferSize then
        sendFromBuffer inp.now (min bufferSize o.output.nwritable) o
      else o
    if 0 < incoming then receiveFromLink stamp inp o else .ok o

end RateLimiter

/-- `TBRateLimiter:push`. -/
def TBRateLimiter.push (o : RateLimiter) (inp : RateLimiterInput) : Except Raise RateLimiter :=
  RateLimiter.pushBy (fun p => p) o inp

namespace RateLimiterTS

/-- `sizeof(pkt_timestamp)`: a marker and a 64-bit time stamp. -/
def pktTimestampLen : Nat := 9

def timestampMarker : UInt8 := 0x55

/-- `ts.append_timestamp(p, ts.timestamp_to_pointer(timestamp))`: the stamp stands
behind the payload and the length stays as it is. -/
def appendTimestamp (p : Packet) (timestamp : Nat) : Packet :=
  p.write p.length (timestampMarker :: leBytes 8 timestamp)

/-- What happens to a packet received from the link. -/
def stamp (o : RateLimiter) (inp : RateLimiterInput) (p : Packet) : Packet :=
  if o.timestamp && p.length + pktTimestampLen ≤ maxPayload then appendTimestamp p inp.timeNs
  else p

/-- `RateLimiterTS:push`. -/
def push (o : RateLimiter) (inp : RateLimiterInput) : Except Raise RateLimiter :=
  RateLimiter.pushBy (stamp o inp) o inp

end RateLimiterTS

namespace RateLimiter

/-! ## Structure of a push -/

variable {stamp : Packet → Packet} {o o' : RateLimiter} {inp : RateLimiterInput}

/-- The state of a push that does not return at once, after refilling. -/
def started (o : RateLimiter) (inp : RateLimiterInput) : RateLimiter :=
  { o with output := o.output.drain inp.taken }.refill inp.now

/-- ... and after sending from the buffer. -/
def drained (o : RateLimiter) (inp : RateLimiterInput) : RateLimiter :=
  sendFromBuffer inp.now (min o.bufferSize (started o inp).output.nwritable) (started o inp)

variable {conf : RateLimiterConf}

/-- The state that `new` returns, for some capacity of the buffer. -/
theorem new_eq_ok (h : new conf = .ok o) :
    ∃ bufferCapacity : ℚ, o = {
      byteRate := ⌊conf.rate / 8⌋
      bucketCapacity := conf.bucketCapacity
      bucketContingent := conf.bucketCapacity
      bufferCapacity := bufferCapacity
      bufferContingent := bufferCapacity
      additionalOverhead := (overheadOf conf).1
      minPktSize := (overheadOf conf).2
      timestamp := conf.timestamp
      lastTime := none
      buffer := if 0 < bufferCapacity then some [] else none
      output := .new
      sent := []
      freed := [] } := by
  simp only [new] at h
  split at h
  · cases h
  · split at h
    · cases h
    · split at h
      · cases h
        exact ⟨_, rfl⟩
      · cases h

/-- The inversion of `push`: it does nothing, or it sends from the buffer and then
receives from the link. -/
theorem pushBy_eq (stamp : Packet → Packet) (o : RateLimiter) (inp : RateLimiterInput) :
    pushBy stamp o inp = .ok { o with output := o.output.drain inp.taken } ∧
        inp.input.packets = [] ∨
      pushBy stamp o inp = receiveFromLink stamp inp (drained o inp) := by
  by_cases hidle : inp.input.nreadable = 0 ∧ o.bufferSize = 0
  · refine Or.inl ⟨if_pos hidle, List.eq_nil_of_length_eq_zero hidle.1⟩
  · refine Or.inr ?_
    -- sending zero packets from an empty buffer changes nothing, so the test may go
    have hdrained : (if 0 < o.bufferSize then
        sendFromBuffer inp.now (min o.bufferSize (started o inp).output.nwritable) (started o inp)
        else started o inp) = drained o inp := by
      by_cases hsize : 0 < o.bufferSize
      · exact if_pos hsize
      · rw [drained, Nat.eq_zero_of_not_pos hsize]
        rfl
    refine (if_neg hidle).trans ?_
    show (if 0 < inp.input.nreadable then receiveFromLink stamp inp
        (if 0 < o.bufferSize then sendFromBuffer inp.now
          (min o.bufferSize (started o inp).output.nwritable) (started o inp)
          else started o inp)
      else .ok (if 0 < o.bufferSize then sendFromBuffer inp.now
          (min o.bufferSize (started o inp).output.nwritable) (started o inp)
          else started o inp)) = _
    rw [hdrained]
    by_cases hincoming : 0 < inp.input.nreadable
    · rw [if_pos hincoming]
    · -- likewise for an input link on which nothing waits
      have hzero : inp.input.nreadable = 0 := Nat.eq_zero_of_not_pos hincoming
      have hnil : inp.input.packets = [] := List.eq_nil_of_length_eq_zero hzero
      rw [receiveFromLink, hzero, hnil]
      exact (ite_self _).symm

theorem receiveFromLink_eq_ok (h : receiveFromLink stamp inp o = .ok o') :
    ∃ t rest, sendFromLink stamp inp.now (min inp.input.nreadable o.output.nwritable)
        inp.input.packets o = .ok (t, rest) ∧
      (storeInBuffer stamp rest t = .ok o' ∨ o' = dropIncomingPackets rest t) := by
  obtain ⟨⟨t, rest⟩, hs, hrest⟩ := bind_eq_ok h
  refine ⟨t, rest, hs, ?_⟩
  by_cases hb : 0 < t.bufferContingent
  · exact Or.inl ((if_pos hb).symm.trans hrest)
  · exact Or.inr (ok_unique (if_neg hb) hrest).symm

/-! ## Pushes return -/

/-- What `new` establishes and every push keeps: whoever may buffer a packet finds
a buffer. -/
structure Ready (o : RateLimiter) : Prop where
  minPktSize_pos : 0 < o.minPktSize
  buffer : o.buffer = none → o.bufferContingent ≤ 0

theorem ready_new (h : new conf = .ok o) : Ready o := by
  have hmin : 0 < (overheadOf conf).2 := by
    simp only [overheadOf]
    split
    · norm_num
    · split <;> norm_num
  obtain ⟨bufferCapacity, rfl⟩ := new_eq_ok h
  refine ⟨hmin, fun hnone => ?_⟩
  simpa using hnone

section

variable (h : Ready o)
include h

theorem Ready.bufferOrFree (p : Packet) :
    ∃ o', RateLimiter.bufferOrFree p o = .ok o' ∧ Ready o' := by
  by_cases hfit : o.pktLength p ≤ o.bufferContingent
  · have hpos : 0 < o.bufferContingent :=
      lt_of_lt_of_le h.minPktSize_pos ((le_max_right _ _).trans hfit)
    obtain ⟨buf, hbuf⟩ : ∃ buf, o.buffer = some buf := by
      cases hb : o.buffer with
      | none => exact absurd (h.buffer hb) (not_le.mpr hpos)
      | some buf => exact ⟨buf, rfl⟩
    simp only [RateLimiter.bufferOrFree, if_pos hfit, hbuf]
    exact ⟨_, rfl, h.minPktSize_pos, nofun⟩
  · simp only [RateLimiter.bufferOrFree, if_neg hfit]
    exact ⟨_, rfl, h.minPktSize_pos, h.buffer⟩

theorem Ready.sendFromBuffer (now : ℚ) (n : Nat) : Ready (RateLimiter.sendFromBuffer now n o) := by
  induction n generalizing o with
  | zero => exact h
  | succ n ih =>
    rw [RateLimiter.sendFromBuffer]
    split
    · dsimp only
      split
      · exact ih ⟨h.minPktSize_pos, nofun⟩
      · exact ih h
    · exact h

theorem Ready.sendFromLink (stamp : Packet → Packet) (now : ℚ) (n : Nat) (pkts : List Packet) :
    ∃ o' rest, RateLimiter.sendFromLink stamp now n pkts o = .ok (o', rest) ∧ Ready o' := by
  induction n generalizing o pkts with
  | zero => cases pkts <;> exact ⟨o, _, rfl, h⟩
  | succ n ih =>
    cases pkts with
    | nil => exact ⟨o, _, rfl, h⟩
    | cons p rest =>
      simp only [RateLimiter.sendFromLink]
      split
      · refine ih ?_ rest
        exact ⟨h.minPktSize_pos, h.buffer⟩
      · obtain ⟨o₁, ho₁, hready⟩ := h.bufferOrFree (stamp p)
        rw [ho₁]
        exact ih hready rest

theorem Ready.storeInBuffer (stamp : Packet → Packet) (pkts : List Packet) :
    ∃ o', RateLimiter.storeInBuffer stamp pkts o = .ok o' ∧ Ready o' := by
  induction pkts generalizing o with
  | nil => exact ⟨o, rfl, h⟩
  | cons p rest ih =>
    obtain ⟨o₁, ho₁, hready⟩ := h.bufferOrFree (stamp p)
    rw [RateLimiter.storeInBuffer, ho₁]
    exact ih hready

theorem Ready.dropIncomingPackets (pkts : List Packet) :
    Ready (RateLimiter.dropIncomingPackets pkts o) := by
  induction pkts generalizing o with
  | nil => exact h
  | cons p rest ih =>
    refine ih ?_
    exact ⟨h.minPktSize_pos, h.buffer⟩

/-- **A push of a rate limiter never raises.** -/
theorem Ready.pushBy (stamp : Packet → Packet) (inp : RateLimiterInput) :
    ∃ o', RateLimiter.pushBy stamp o inp = .ok o' ∧ Ready o' := by
  have hstarted : Ready (started o inp) := ⟨h.minPktSize_pos, h.buffer⟩
  rcases pushBy_eq stamp o inp with ⟨heq, -⟩ | heq
  · exact ⟨_, heq, h.minPktSize_pos, h.buffer⟩
  · rw [heq, receiveFromLink]
    obtain ⟨t, rest, ht, hready⟩ := (hstarted.sendFromBuffer inp.now _).sendFromLink stamp
      inp.now (min inp.input.nreadable (drained o inp).output.nwritable) inp.input.packets
    have ht' : RateLimiter.sendFromLink stamp inp.now
        (min inp.input.nreadable (drained o inp).output.nwritable) inp.input.packets
        (drained o inp) = .ok (t, rest) := ht
    simp only [ht']
    by_cases hb : 0 < t.bufferContingent
    · obtain ⟨o', ho', hready'⟩ := hready.storeInBuffer stamp rest
      exact ⟨o', (if_pos hb).trans ho', hready'⟩
    · exact ⟨_, if_neg hb, hready.dropIncomingPackets rest⟩

end

/-- What a rate limiter has received over a run. -/
def received (inputs : List RateLimiterInput) : List Packet :=
  inputs.flatMap fun inp => inp.input.packets

end RateLimiter

namespace RateLimiterTS

variable (o : RateLimiter) (inp : RateLimiterInput) (p : Packet)

@[simp] theorem length_stamp : (stamp o inp p).length = p.length := by
  rw [stamp]
  split <;> rfl

@[simp] theorem base_stamp : (stamp o inp p).base = p.base := by
  rw [stamp]
  split <;> rfl

@[simp] theorem bytes_stamp : (stamp o inp p).bytes = p.bytes := by
  rw [stamp]
  split
  · rw [bytes]
    exact window_write_disjoint p (Or.inl (Nat.le_of_eq (Nat.zero_add _)))
  · rfl

end RateLimiterTS

end Snabb
