import Snabb.Core.Link
import Snabb.HybridAccess.Header
import Mathlib.Data.Rat.Defs
import Mathlib.Logic.Function.Basic

/-!
# The load balancer base class (`loadbalancer/loadbalancer.lua`)

Every load balancer sends a received frame with one of two functions: `send_pkt`
encapsulates it and transmits it on an output, `send_pkt_with_ddc` puts a delay
difference compensation packet in front of it on the other output. Both stamp
what they transmit with the next sequence numbers.

The state carries the calls of `link.transmit` in their order, with the time of the
push and the frame that was encapsulated. `Sends` says that a list of frames was
sent one after the other, each by one of the two functions on one of the outputs;
this is all that the policies have in common. `Logged` describes what such a
sequence of sends leaves in the log.
-/

namespace Snabb

open Foundation List

/-- One call of `link.transmit` by a load balancer. -/
structure Tx where
  now : ℚ
  port : LinkNo
  packet : Packet
  /-- The frame that was encapsulated; a DDC packet has none. -/
  frame : Option Packet
  /-- Whether the output link had room. -/
  accepted : Bool

/-- The state of the base class, the two output links, and the history. -/
structure LoadBalancer where
  hybridAccess : Codec
  sequenceNumber : Nat
  output : LinkNo → Link
  /-- How many packets were allocated. -/
  allocated : Nat
  transmitted : List Tx

/-- What a push finds: `engine.now()`, the packets waiting on the input link, and
how many packets the next apps have taken from the output links. -/
structure LoadBalancerInput where
  now : ℚ
  input : Link
  taken : LinkNo → Nat

/-- A push at `now` that finds frames of the given lengths, numbered from `base` on,
and empty output links. -/
def LoadBalancerInput.finding (now : ℚ) (base : Nat) (lengths : List Nat) :
    LoadBalancerInput where
  now := now
  input := .holding (lengths.mapIdx fun i n => .fromPointer (base + i) (List.replicate n 0))
  taken := fun _ => linkMaxPackets

namespace LoadBalancer

/-- `LoadBalancer:new` and `setup`. -/
def new (hybridAccess : Codec) : LoadBalancer where
  hybridAccess := hybridAccess
  sequenceNumber := 0
  output := fun _ => .new
  allocated := 0
  transmitted := []

/-- The output links as the push finds them. -/
def drained (lb : LoadBalancer) (inp : LoadBalancerInput) : LoadBalancer :=
  { lb with output := fun i => (lb.output i).drain (inp.taken i) }

/-- `transmit(l_out, p)`. -/
def transmit (now : ℚ) (port : LinkNo) (p : Packet) (frame : Option Packet)
    (lb : LoadBalancer) : LoadBalancer :=
  { lb with
    output := Function.update lb.output port ((lb.output port).transmit p)
    transmitted := lb.transmitted ++ [⟨now, port, p, frame, ¬ (lb.output port).full⟩] }

def buildPacket (lb : LoadBalancer) (p : Packet) (sequenceNumber : Nat) : Except Raise Packet :=
  lb.hybridAccess.addHeader p sequenceNumber (getEtherType p)

def sendPkt (now : ℚ) (pkt : Packet) (lOut : LinkNo) (lb : LoadBalancer) :
    Except Raise LoadBalancer := do
  let pNew ← lb.buildPacket pkt lb.sequenceNumber
  let lb := { lb with sequenceNumber := (lb.sequenceNumber + 1) % 2 ^ 64 }
  return lb.transmit now lOut pNew (some pkt)

variable (fresh : Nat → Packet)

/-- `send_pkt_with_ddc`; `fresh` gives the packets that `packet.allocate` returns, with
whatever their memory holds. -/
def sendPktWithDdc (now : ℚ) (pkt : Packet) (lOut lDelay : LinkNo) (lb : LoadBalancer) :
    Except Raise LoadBalancer := do
  let pDelay ← lb.hybridAccess.makeDdcPacket (fresh lb.allocated) pkt lb.sequenceNumber
  let pNew ← lb.buildPacket pkt ((lb.sequenceNumber + 1) % 2 ^ 64)
  let lb := { lb with
    sequenceNumber := (lb.sequenceNumber + 2) % 2 ^ 64
    allocated := lb.allocated + 1 }
  return (lb.transmit now lDelay pDelay none).transmit now lOut pNew (some pkt)

/-- Send a frame on an output, with a DDC packet on the other one or without. -/
def send (now : ℚ) (ddc : Bool) (port : LinkNo) (pkt : Packet) (lb : LoadBalancer) :
    Except Raise LoadBalancer :=
  if ddc then lb.sendPktWithDdc fresh now pkt port port.other else lb.sendPkt now pkt port

variable {port : LinkNo} {lb' : LoadBalancer} {ddc : Bool} {lb : LoadBalancer} {p : Packet}

theorem send_of_sendPkt {now : ℚ}
    (h : lb.sendPkt now p port = .ok lb') : lb.send fresh now false port p = .ok lb' :=
  h

theorem send_of_sendPktWithDdc {now : ℚ}
    (h : lb.sendPktWithDdc fresh now p port port.other = .ok lb') :
    lb.send fresh now true port p = .ok lb' :=
  h

/-- Frames are sent one after the other, each in some way. -/
inductive Sends (now : ℚ) : LoadBalancer → List Packet → LoadBalancer → Prop where
  | nil (lb : LoadBalancer) : Sends now lb [] lb
  | cons {lb lb₁ lb₂ : LoadBalancer} {p : Packet} {ps : List Packet} {ddc : Bool} {port : LinkNo}
      (hsend : lb.send fresh now ddc port p = .ok lb₁) (hrest : Sends now lb₁ ps lb₂) :
      Sends now lb (p :: ps) lb₂

variable {fresh} {now : ℚ} {lb lb₁ lb₂ : LoadBalancer} {p : Packet} {ps qs : List Packet}

theorem Sends.append (h₁ : Sends fresh now lb ps lb₁) (h₂ : Sends fresh now lb₁ qs lb₂) :
    Sends fresh now lb (ps ++ qs) lb₂ := by
  induction h₁ with
  | nil => exact h₂
  | cons hsend _ ih => exact .cons hsend (ih h₂)

theorem Sends.single (h : lb.send fresh now ddc port p = .ok lb₁) : Sends fresh now lb [p] lb₁ :=
  .cons h (.nil lb₁)

/-! ## What a send leaves in the log -/

@[simp] theorem transmit_transmitted (now : ℚ) (port : LinkNo) (p : Packet)
    (frame : Option Packet) (lb : LoadBalancer) :
    (lb.transmit now port p frame).transmitted =
      lb.transmitted ++ [⟨now, port, p, frame, ¬ (lb.output port).full⟩] := rfl

@[simp] theorem transmit_output (now : ℚ) (port : LinkNo) (p : Packet)
    (frame : Option Packet) (lb : LoadBalancer) :
    (lb.transmit now port p frame).output =
      Function.update lb.output port ((lb.output port).transmit p) := rfl

theorem sendPkt_eq_ok (h : lb.sendPkt now p port = .ok lb₁) :
    ∃ q, lb.hybridAccess.addHeader p lb.sequenceNumber (getEtherType p) = .ok q ∧
      lb₁ = { lb with sequenceNumber := (lb.sequenceNumber + 1) % 2 ^ 64 }.transmit now port q
        (some p) := by
  obtain ⟨q, hq, hret⟩ := bind_eq_ok h
  exact ⟨q, hq, (Except.ok.inj hret).symm⟩

theorem sendPktWithDdc_eq_ok {other : LinkNo}
    (h : lb.sendPktWithDdc fresh now p port other = .ok lb₁) :
    ∃ d q, lb.hybridAccess.makeDdcPacket (fresh lb.allocated) p lb.sequenceNumber = .ok d ∧
      lb.hybridAccess.addHeader p ((lb.sequenceNumber + 1) % 2 ^ 64) (getEtherType p) = .ok q ∧
      lb₁ = ({ lb with
        sequenceNumber := (lb.sequenceNumber + 2) % 2 ^ 64
        allocated := lb.allocated + 1 }.transmit now other d none).transmit now port q (some p) := by
  obtain ⟨d, hd, hrest⟩ := bind_eq_ok h
  obtain ⟨q, hq, hret⟩ := bind_eq_ok hrest
  exact ⟨d, q, hd, hq, (Except.ok.inj hret).symm⟩

theorem send_codec (h : lb.send fresh now ddc port p = .ok lb₁) :
    lb₁.hybridAccess = lb.hybridAccess := by
  cases ddc with
  | false =>
    obtain ⟨q, -, rfl⟩ := sendPkt_eq_ok h
    rfl
  | true =>
    obtain ⟨d, q, -, -, rfl⟩ :=
      sendPktWithDdc_eq_ok h
    rfl

/-- The log of sends from number `n` on: the frames in their order, each encapsulated
with the next number, or with the number after that of a DDC packet on the other
output. -/
inductive Logged (c : Codec) : Nat → List Tx → List Packet → Prop where
  | nil (n : Nat) : Logged c n [] []
  | data {n : Nat} {tx : Tx} {log : List Tx} {p : Packet} {ps : List Packet}
      (hpacket : c.addHeader p (n % 2 ^ 64) (getEtherType p) = .ok tx.packet)
      (hframe : tx.frame = some p) (hrest : Logged c (n + 1) log ps) :
      Logged c n (tx :: log) (p :: ps)
  | ddc {n : Nat} {txd tx : Tx} {log : List Tx} {f p : Packet} {ps : List Packet}
      (hddc : c.makeDdcPacket f p (n % 2 ^ 64) = .ok txd.packet) (hnone : txd.frame = none)
      (hport : txd.port = tx.port.other)
      (hpacket : c.addHeader p ((n + 1) % 2 ^ 64) (getEtherType p) = .ok tx.packet)
      (hframe : tx.frame = some p) (hrest : Logged c (n + 2) log ps) :
      Logged c n (txd :: tx :: log) (p :: ps)

theorem Logged.append {c : Codec} {n : Nat} {log log' : List Tx} (h : Logged c n log ps)
    (h' : Logged c (n + log.length) log' qs) : Logged c n (log ++ log') (ps ++ qs) := by
  induction h with
  | nil => exact h'
  | @data n tx log p ps hpacket hframe _ ih =>
    refine .data hpacket hframe (ih ?_)
    rwa [length_cons, Nat.add_comm log.length, ← Nat.add_assoc] at h'
  | @ddc n txd tx log f p ps hddc hnone hport hpacket hframe _ ih =>
    refine .ddc hddc hnone hport hpacket hframe (ih ?_)
    rwa [length_cons, length_cons, Nat.add_assoc log.length, Nat.add_comm log.length,
      ← Nat.add_assoc] at h'

/-- The counter of a load balancer agrees with its log. -/
def Counted (lb : LoadBalancer) : Prop := lb.sequenceNumber = lb.transmitted.length % 2 ^ 64

/-- **One send** logs one frame with the numbers that follow. -/
theorem send_logged (hcount : Counted lb) (h : lb.send fresh now ddc port p = .ok lb₁) :
    lb₁.hybridAccess = lb.hybridAccess ∧ Counted lb₁ ∧
      ∃ log, lb₁.transmitted = lb.transmitted ++ log ∧
        Logged lb.hybridAccess lb.transmitted.length log [p] := by
  cases ddc with
  | false =>
    obtain ⟨q, hq, rfl⟩ := sendPkt_eq_ok h
    rw [hcount] at hq
    refine ⟨rfl, ?_, _, rfl, .data hq rfl (.nil _)⟩
    show (lb.sequenceNumber + 1) % 2 ^ 64 = (lb.transmitted ++ [_]).length % 2 ^ 64
    rw [hcount, List.length_append, length_singleton, Nat.mod_add_mod]
  | true =>
    obtain ⟨d, q, hd, hq, rfl⟩ :=
      sendPktWithDdc_eq_ok h
    rw [hcount] at hd hq
    rw [Nat.mod_add_mod] at hq
    refine ⟨rfl, ?_, _, append_assoc _ _ _, .ddc hd rfl rfl hq rfl (.nil _)⟩
    show (lb.sequenceNumber + 2) % 2 ^ 64 = (lb.transmitted ++ [_] ++ [_]).length % 2 ^ 64
    rw [hcount, List.length_append, List.length_append, length_singleton,
      length_singleton, Nat.mod_add_mod]

theorem Sends.codec (h : Sends fresh now lb ps lb₁) : lb₁.hybridAccess = lb.hybridAccess := by
  induction h with
  | nil lb => rfl
  | cons hsend _ ih => exact ih.trans (send_codec hsend)

/-- **Sends** log the frames in their order. -/
theorem Sends.logged (h : Sends fresh now lb ps lb₁) (hcount : Counted lb) :
    lb₁.hybridAccess = lb.hybridAccess ∧ Counted lb₁ ∧
      ∃ log, lb₁.transmitted = lb.transmitted ++ log ∧
        Logged lb.hybridAccess lb.transmitted.length log ps := by
  induction h with
  | nil lb => exact ⟨rfl, hcount, [], (append_nil _).symm, .nil _⟩
  | @cons lb lb₁ lb₂ p ps ddc port hsend _ ih =>
    obtain ⟨hcodec, hcount₁, log, hlog, hlogged⟩ := send_logged hcount hsend
    obtain ⟨hcodec₂, hcount₂, log₂, hlog₂, hlogged₂⟩ := ih hcount₁
    refine ⟨hcodec₂.trans hcodec, hcount₂, log ++ log₂, ?_, ?_⟩
    · rw [hlog₂, hlog, append_assoc]
    · rw [hcodec, hlog, List.length_append] at hlogged₂
      exact hlogged.append hlogged₂

end LoadBalancer

end Snabb
