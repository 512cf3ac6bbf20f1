import Snabb.HybridAccess.LoadBalancer.Policies

/-!
# The discipline of the sequence numbers

Whatever the policy, a run of a load balancer leaves a log of the shape `Logged`:
the frames in their order, with a DDC packet in front of some of them. Everything
the receiver relies on can be read off this shape:

- the numbers are consecutive from 0 on, until the 64-bit counter wraps;
- the data packets are the encapsulated frames in their order;
- a DDC packet carries the number in front of that of the data packet it belongs to,
  on the other output.

A run returns if the frames leave room for the headers (and the policy sends no DDC
packets in IP mode). What is handed to `link.transmit` is accepted as long as the
output links are emptied between the pushes: a push sends at most one packet per
frame on each of them.
-/

namespace Snabb

open Foundation LoadBalancer List TokenBucket

/-- The number a packet was stamped with. -/
def Tx.seqNo (c : Codec) (tx : Tx) : Option Nat := (c.getHeader tx.packet).map HaHeader.seqNo

def Tx.isData (c : Codec) (tx : Tx) : Bool :=
  (c.getHeader tx.packet).any fun h => h.type = hybridAccessType

def Tx.isDdc (c : Codec) (tx : Tx) : Bool :=
  (c.getHeader tx.packet).any fun h => h.type = hybridAccessDdcType

/-- The frames that arrive over a run. -/
def frames (inputs : List LoadBalancerInput) : List Packet :=
  inputs.flatMap fun inp => inp.input.packets

variable {inp : LoadBalancerInput} {p : Packet} {n : Nat}

theorem mem_of_mem_frames_replicate
    (h : p ∈ frames (List.replicate n inp)) : p ∈ inp.input.packets := by
  obtain ⟨i, hi, hp⟩ := mem_flatMap.mp h
  rwa [eq_of_mem_replicate hi] at hp

theorem length_frames_replicate (n : Nat) (inp : LoadBalancerInput) :
    (frames (List.replicate n inp)).length = n * inp.input.packets.length := by
  rw [frames, length_flatMap, map_replicate, sum_replicate_nat]

/-- A packet is a frame with a hybrid-access header, in the same allocation. -/
def Encapsulates (c : Codec) (frame p : Packet) : Prop :=
  p.base = frame.base ∧ ∃ seqNo, c.addHeader frame seqNo (getEtherType frame) = .ok p

/-- What the log of a load balancer looks like to the receiver. -/
structure Disciplined (c : Codec) (log : List Tx) (frames : List Packet) : Prop where
  /-- Both outputs together: no gap and no duplicate. -/
  numbers : log.map (Tx.seqNo c) = (List.range log.length).map some
  /-- Each output on its own. -/
  increasing : ∀ port, ((log.filter fun tx => tx.port = port).filterMap (Tx.seqNo c)).Pairwise (· < ·)
  /-- Every packet is a data or a DDC packet. -/
  kinds : ∀ tx ∈ log, tx.isData c = !tx.isDdc c
  /-- No frame is lost, duplicated or reordered. -/
  data : List.Forall₂ (Encapsulates c) frames ((log.filter (Tx.isData c)).map Tx.packet)
  /-- The data packet behind a DDC packet goes out on the other output. -/
  ddc : ∀ k tx, log[k]? = some tx → tx.isDdc c →
    ∃ tx', log[k + 1]? = some tx' ∧ tx'.isData c ∧ tx.port = tx'.port.other

/-! ## The shape of the log -/

namespace LoadBalancer

variable {c : Codec} {n : Nat} {log : List Tx} {ps : List Packet} {tx : Tx}

theorem data_entry (h : c.addHeader p (n % 2 ^ 64) (getEtherType p) = .ok tx.packet) :
    tx.seqNo c = some (n % 2 ^ 64) ∧ tx.isData c = true ∧ tx.isDdc c = false := by
  have hget := Codec.getHeader_of_addHeader h (Nat.mod_lt _ (by norm_num)) (htons_lt _)
  rw [Tx.seqNo, Tx.isData, Tx.isDdc, hget]
  exact ⟨rfl, rfl, rfl⟩

theorem ddc_entry {f p : Packet} (h : c.makeDdcPacket f p (n % 2 ^ 64) = .ok tx.packet) :
    tx.seqNo c = some (n % 2 ^ 64) ∧ tx.isData c = false ∧ tx.isDdc c = true := by
  obtain ⟨-, -, hget⟩ := Codec.getHeader_of_makeDdcPacket h (Nat.mod_lt _ (by norm_num))
  rw [Tx.seqNo, Tx.isData, Tx.isDdc, hget]
  exact ⟨rfl, rfl, rfl⟩

section

variable (h : Logged c n log ps)
include h

theorem Logged.seqNos :
    log.map (Tx.seqNo c) = (List.range' n log.length).map fun k => some (k % 2 ^ 64) := by
  induction h with
  | nil => rfl
  | data hpacket _ _ ih =>
    rw [map_cons, ih, (data_entry hpacket).1, length_cons, List.range'_succ,
      map_cons]
  | ddc hddc _ _ hpacket _ _ ih =>
    rw [map_cons, map_cons, ih, (ddc_entry hddc).1, (data_entry hpacket).1,
      length_cons, length_cons, List.range'_succ, List.range'_succ, map_cons,
      map_cons]

theorem Logged.kinds : ∀ tx ∈ log, tx.isData c = !tx.isDdc c := by
  induction h with
  | nil => nofun
  | data hpacket _ _ ih =>
    obtain ⟨-, hdata, hddc⟩ := data_entry hpacket
    refine forall_mem_cons.mpr ⟨?_, ih⟩
    rw [hdata, hddc]
    rfl
  | ddc hddc _ _ hpacket _ _ ih =>
    obtain ⟨-, hdata₁, hddc₁⟩ := ddc_entry hddc
    obtain ⟨-, hdata₂, hddc₂⟩ := data_entry hpacket
    refine forall_mem_cons.mpr ⟨?_, forall_mem_cons.mpr ⟨?_, ih⟩⟩
    · rw [hdata₁, hddc₁]
      rfl
    · rw [hdata₂, hddc₂]
      rfl

/-- The data packets of a log are the encapsulated frames in their order. -/
theorem Logged.data_packets :
    List.Forall₂ (Encapsulates c) ps ((log.filter (Tx.isData c)).map Tx.packet) := by
  induction h with
  | nil => exact .nil
  | data hpacket _ _ ih =>
    rw [filter_cons_of_pos (data_entry hpacket).2.1]
    exact .cons ⟨Codec.base_addHeader hpacket, _, hpacket⟩ ih
  | ddc hddc _ _ hpacket _ _ ih =>
    rw [filter_cons_of_neg (by simp [(ddc_entry hddc).2.1]),
      filter_cons_of_pos (data_entry hpacket).2.1]
    exact .cons ⟨Codec.base_addHeader hpacket, _, hpacket⟩ ih

theorem Logged.ddc_packets :
    ∀ k tx, log[k]? = some tx → tx.isDdc c →
      ∃ tx', log[k + 1]? = some tx' ∧ tx'.isData c ∧ tx.port = tx'.port.other := by
  induction h with
  | nil => nofun
  | data hpacket _ _ ih =>
    intro k tx hk htx
    cases k with
    | zero =>
      cases hk
      rw [(data_entry hpacket).2.2] at htx
      cases htx
    | succ k => exact ih k tx hk htx
  | @ddc n txd tx₂ log f p ps hddc _ hport hpacket _ _ ih =>
    intro k tx hk htx
    match k with
    | 0 =>
      cases hk
      exact ⟨tx₂, rfl, (data_entry hpacket).2.1, hport⟩
    | 1 =>
      cases hk
      rw [(data_entry hpacket).2.2] at htx
      cases htx
    | k + 2 => exact ih k tx hk htx

theorem Logged.length_le : ps.length ≤ log.length := by
  induction h with
  | nil => exact Nat.le_refl _
  | data _ _ _ ih => exact Nat.succ_le_succ ih
  | ddc _ _ _ _ _ _ ih => exact (Nat.succ_le_succ ih).trans (Nat.le_succ _)

end

theorem Logged.disciplined (h : Logged c 0 log ps) (hwrap : log.length ≤ 2 ^ 64) :
    Disciplined c log ps := by
  have hnumbers : log.map (Tx.seqNo c) = (List.range log.length).map some := by
    rw [h.seqNos, ← range_eq_range']
    refine map_congr_left fun k hk => ?_
    rw [Nat.mod_eq_of_lt ((mem_range.mp hk).trans_le hwrap)]
  refine ⟨hnumbers, fun port => ?_, h.kinds, h.data_packets, h.ddc_packets⟩
  have hall : log.filterMap (Tx.seqNo c) = List.range log.length := by
    rw [show log.filterMap (Tx.seqNo c) = (log.map (Tx.seqNo c)).filterMap id by
      rw [filterMap_map]; rfl, hnumbers, filterMap_map]
    exact filterMap_some
  have hsorted : (log.filterMap (Tx.seqNo c)).Pairwise (· < ·) := by
    rw [hall]
    exact pairwise_lt_range
  exact hsorted.sublist (filter_sublist.filterMap _)

/-! ## Pushes return -/

variable {p : Packet} {lb : LoadBalancer}

/-- A frame can be sent if it leaves room for the headers, and with a DDC packet only
in Ethernet mode. -/
def Sendable (c : Codec) (ddc : Bool) (p : Packet) : Prop :=
  p.length + c.shiftLength ≤ maxPayload ∧ (ddc = true → c = .eth)

theorem sendPkt_isOk (now : ℚ) (port : LinkNo) (hp : Sendable c false p)
    (hcodec : lb.hybridAccess = c) :
    ∃ lb', lb.sendPkt now p port = .ok lb' ∧ lb'.hybridAccess = c := by
  obtain ⟨q, hq⟩ := Codec.addHeader_isOk c p lb.sequenceNumber (getEtherType p) hp.1
  rw [← hcodec] at hq
  simp only [sendPkt, buildPacket, hq]
  exact ⟨_, rfl, hcodec⟩

theorem sendPktWithDdc_isOk (fresh : Nat → Packet) (now : ℚ) (port other : LinkNo)
    (hp : Sendable c true p) (hcodec : lb.hybridAccess = c) :
    ∃ lb', lb.sendPktWithDdc fresh now p port other = .ok lb' ∧ lb'.hybridAccess = c := by
  obtain ⟨q, hq⟩ :=
    Codec.addHeader_isOk c p ((lb.sequenceNumber + 1) % 2 ^ 64) (getEtherType p) hp.1
  obtain ⟨d, hd⟩ : ∃ d, c.makeDdcPacket (fresh lb.allocated) p lb.sequenceNumber = .ok d := by
    rw [hp.2 rfl]
    exact ⟨_, rfl⟩
  rw [← hcodec] at hq hd
  simp only [sendPktWithDdc, buildPacket, hd, hq]
  exact ⟨_, rfl, hcodec⟩

theorem send_isOk (fresh : Nat → Packet) (now : ℚ) (ddc : Bool) (port : LinkNo)
    (hp : Sendable c ddc p) (hcodec : lb.hybridAccess = c) :
    ∃ lb', lb.send fresh now ddc port p = .ok lb' ∧ lb'.hybridAccess = c := by
  cases ddc with
  | false => exact sendPkt_isOk now port hp hcodec
  | true => exact sendPktWithDdc_isOk fresh now port port.other hp hcodec

end LoadBalancer

section Returns

variable {c : Codec} {ps : List Packet} {inp : LoadBalancerInput}

theorem SingleLink.push_isOk {o : LoadBalancer} (hcodec : o.hybridAccess = c)
    (hps : ∀ p ∈ inp.input.packets, Sendable c false p) : ∃ o', SingleLink.push o inp = .ok o' := by
  have hbody : ∀ (o : LoadBalancer), ∀ p ∈ inp.input.packets, o.hybridAccess = c →
      ∃ o', o.sendPkt inp.now p .one = .ok o' ∧ o'.hybridAccess = c :=
    fun o p hp hc => sendPkt_isOk inp.now .one (hps p hp) hc
  have hstart : (o.drained inp).hybridAccess = c := hcodec
  obtain ⟨o', ho', -⟩ := foldlM_isOk hbody hstart
  exact ⟨o', ho'⟩

theorem RoundRobin.push_isOk {o : RoundRobin} (hcodec : o.hybridAccess = c)
    (hps : ∀ p ∈ inp.input.packets, Sendable c false p) : ∃ o', o.push inp = .ok o' := by
  have hbody : ∀ o, ∀ p ∈ inp.input.packets, o.hybridAccess = c →
      ∃ o', processPacket inp.now o p = .ok o' ∧ o'.hybridAccess = c := by
    intro o p hp hc
    obtain ⟨lb, hlb, hc'⟩ := sendPkt_isOk inp.now (if o.flip then .one else .two) (hps p hp) hc
    simp only [processPacket, hlb]
    exact ⟨_, rfl, hc'⟩
  have hstart : ({ o with toLoadBalancer := o.drained inp } : RoundRobin).hybridAccess = c := hcodec
  obtain ⟨o', ho', -⟩ := foldlM_isOk hbody hstart
  exact ⟨o', ho'⟩

theorem WeightedRoundRobin.push_isOk {o : WeightedRoundRobin} (hcodec : o.hybridAccess = c)
    (hps : ∀ p ∈ inp.input.packets, Sendable c false p) : ∃ o', o.push inp = .ok o' := by
  have hbody : ∀ o, ∀ p ∈ inp.input.packets, o.hybridAccess = c →
      ∃ o', processPacket inp.now o p = .ok o' ∧ o'.hybridAccess = c := by
    intro o p hp hc
    obtain ⟨lb₁, hlb₁, hc₁⟩ := sendPkt_isOk inp.now .one (hps p hp) hc
    obtain ⟨lb₂, hlb₂, hc₂⟩ := sendPkt_isOk inp.now .two (hps p hp) hc
    simp only [processPacket, hlb₁, hlb₂]
    split
    · exact ⟨_, rfl, hc₁⟩
    · split
      · exact ⟨_, rfl, hc₂⟩
      · exact ⟨_, rfl, hc₁⟩
  have hstart : ({ o with toLoadBalancer := o.drained inp } : WeightedRoundRobin).hybridAccess = c :=
    hcodec
  obtain ⟨o', ho', -⟩ := foldlM_isOk hbody hstart
  exact ⟨o', ho'⟩

namespace TokenBucket

theorem sendFitting_isOk (fresh : Nat → Packet) (now : ℚ) (ddc : Bool)
    (hps : ∀ p ∈ ps, Sendable c ddc p) :
    ∀ {o : TokenBucket}, o.hybridAccess = c →
      ∃ o' rest, sendFitting (fun port p lb => lb.send fresh now ddc port p) ps o = .ok (o', rest) ∧
        rest <:+ ps ∧ o'.hybridAccess = c := by
  induction ps with
  | nil =>
    intro o hc
    exact ⟨o, [], rfl, suffix_refl _, hc⟩
  | cons p ps ih =>
    intro o hc
    obtain ⟨hp, hps⟩ := forall_mem_cons.mp hps
    rw [sendFitting]
    split
    · obtain ⟨lb, hlb, hc'⟩ := send_isOk fresh now ddc .one hp hc
      obtain ⟨o', rest, ho', hrest, hc''⟩ := ih hps (o := { o with
        toLoadBalancer := lb
        contingent := o.contingent - o.pktLength p }) hc'
      simp only [hlb]
      exact ⟨o', rest, ho', hrest.trans (suffix_cons p ps), hc''⟩
    · obtain ⟨lb, hlb, hc'⟩ := send_isOk fresh now ddc .two hp hc
      simp only [hlb]
      exact ⟨_, ps, rfl, suffix_cons p ps, hc'⟩

theorem pushBy_isOk (fresh : Nat → Packet) (ddc : Bool) {o : TokenBucket} (hcodec : o.hybridAccess = c)
    (hps : ∀ p ∈ inp.input.packets, Sendable c ddc p) :
    ∃ o', o.pushBy (fun port p lb => lb.send fresh inp.now ddc port p) inp = .ok o' := by
  rw [pushBy]
  split
  · exact ⟨_, rfl⟩
  · have hstart : (refill inp.now
        { o with toLoadBalancer := o.drained inp }).hybridAccess = c := hcodec
    obtain ⟨t, rest, ht, hsuffix, hc⟩ :=
      sendFitting_isOk fresh inp.now ddc hps hstart
    have hbody : ∀ o, ∀ p ∈ rest, o.hybridAccess = c →
        ∃ o', sendRest (fun port p lb => lb.send fresh inp.now ddc port p) o p = .ok o' ∧
          o'.hybridAccess = c := by
      intro o p hp hc
      obtain ⟨lb, hlb, hc'⟩ := send_isOk fresh inp.now ddc .two (hps p (hsuffix.subset hp)) hc
      simp only [sendRest, hlb]
      exact ⟨_, rfl, hc'⟩
    obtain ⟨o', ho', -⟩ := foldlM_isOk hbody hc
    simp only [ht]
    exact ⟨o', ho'⟩

end TokenBucket

namespace TokenBucketDDCSeries

variable (fresh : Nat → Packet)
include fresh

theorem sendFitting_isOk (now : ℚ) (sendDdc1 : Bool) (hps : ∀ p ∈ ps, Sendable c true p) :
    ∀ (sendDdc2 : Bool) (sendIndex1 : Nat) (o : TokenBucketDDCSeries), o.hybridAccess = c →
      ∃ o' sendIndex2 rest,
        sendFitting fresh now sendDdc1 ps sendDdc2 sendIndex1 o = .ok (o', sendIndex2, rest) ∧
        rest <:+ ps ∧ o'.hybridAccess = c := by
  induction ps with
  | nil =>
    intro sendDdc2 sendIndex1 o hc
    exact ⟨o, 0, [], rfl, suffix_refl _, hc⟩
  | cons p ps ih =>
    intro sendDdc2 sendIndex1 o hc
    obtain ⟨hp, hps⟩ := forall_mem_cons.mp hps
    have hp' : Sendable c false p := ⟨hp.1, nofun⟩
    rw [sendFitting]
    split
    · simp only
      split
      · obtain ⟨lb, hlb, hc'⟩ := sendPkt_isOk now .one hp' hc
        obtain ⟨o', sendIndex2, rest, ho', hrest, hc''⟩ := ih hps sendDdc2 (sendIndex1 + 1)
          { o with toLoadBalancer := lb, contingent := o.contingent - o.pktLength p } hc'
        simp only [hlb]
        exact ⟨o', sendIndex2, rest, ho', hrest.trans (suffix_cons p ps), hc''⟩
      · obtain ⟨lb, hlb, hc'⟩ := sendPktWithDdc_isOk fresh now .one .two hp hc
        obtain ⟨o', sendIndex2, rest, ho', hrest, hc''⟩ := ih hps false 1
          { o with toLoadBalancer := lb, contingent := o.contingent - o.pktLength p } hc'
        simp only [hlb]
        exact ⟨o', sendIndex2, rest, ho', hrest.trans (suffix_cons p ps), hc''⟩
    · split
      · obtain ⟨lb, hlb, hc'⟩ := sendPkt_isOk now .two hp' hc
        simp only [hlb]
        exact ⟨_, _, ps, rfl, suffix_cons p ps, hc'⟩
      · obtain ⟨lb, hlb, hc'⟩ := sendPktWithDdc_isOk fresh now .two .one hp hc
        simp only [hlb]
        exact ⟨_, _, ps, rfl, suffix_cons p ps, hc'⟩

theorem sendRest_isOk (now : ℚ) (hps : ∀ p ∈ ps, Sendable c true p) :
    ∀ (sendIndex2 : Nat) (o : TokenBucketDDCSeries), o.hybridAccess = c →
      ∃ o', sendRest fresh now ps sendIndex2 o = .ok o' := by
  induction ps with
  | nil =>
    intro sendIndex2 o hc
    exact ⟨o, rfl⟩
  | cons p ps ih =>
    intro sendIndex2 o hc
    obtain ⟨hp, hps⟩ := forall_mem_cons.mp hps
    rw [sendRest]
    split
    · obtain ⟨lb, hlb, hc'⟩ := sendPkt_isOk now .two ⟨hp.1, by simp⟩ hc
      obtain ⟨o', ho'⟩ := ih hps (sendIndex2 + 1) { o with toLoadBalancer := lb } hc'
      simp only [hlb]
      exact ⟨o', ho'⟩
    · obtain ⟨lb, hlb, hc'⟩ := sendPktWithDdc_isOk fresh now .two .one hp hc
      obtain ⟨o', ho'⟩ := ih hps 1 { o with toLoadBalancer := lb } hc'
      simp only [hlb]
      exact ⟨o', ho'⟩

theorem push_isOk {o : TokenBucketDDCSeries} (hcodec : o.hybridAccess = c)
    (hps : ∀ p ∈ inp.input.packets, Sendable c true p) : ∃ o', o.push fresh inp = .ok o' := by
  rw [push]
  split
  · exact ⟨_, rfl⟩
  · simp only
    obtain ⟨t, sendIndex2, rest, ht, hsuffix, hc⟩ := sendFitting_isOk fresh inp.now
      (o.ddcLink == 1 || o.ddcLink == 0) hps (o.ddcLink == 2 || o.ddcLink == 0) 0
      ({ o with toTokenBucket :=
        ({ o.toTokenBucket with toLoadBalancer := o.drained inp } : TokenBucket).refill inp.now })
      hcodec
    obtain ⟨o', ho'⟩ := sendRest_isOk fresh inp.now (fun p hp => hps p (hsuffix.subset hp))
      sendIndex2 t hc
    refine ⟨o', ?_⟩
    exact (congrArg (· >>= _) ht).trans ho'

end TokenBucketDDCSeries

/-- **A push of any policy returns** if it can send the waiting frames. -/
theorem Balancer.push_isOk (fresh : Nat → Packet) {b : Balancer} (hcodec : b.lb.hybridAccess = c)
    (hps : ∀ p ∈ inp.input.packets, Sendable c b.usesDdc p) :
    ∃ b', b.push fresh inp = .ok b' ∧ b'.usesDdc = b.usesDdc := by
  cases b with
  | singleLink o =>
    obtain ⟨o', ho'⟩ := SingleLink.push_isOk hcodec hps
    exact ⟨singleLink o', congrArg (Except.map singleLink) ho', rfl⟩
  | roundRobin o =>
    obtain ⟨o', ho'⟩ := RoundRobin.push_isOk hcodec hps
    exact ⟨roundRobin o', congrArg (Except.map roundRobin) ho', rfl⟩
  | weightedRoundRobin o =>
    obtain ⟨o', ho'⟩ := WeightedRoundRobin.push_isOk hcodec hps
    exact ⟨weightedRoundRobin o', congrArg (Except.map weightedRoundRobin) ho', rfl⟩
  | tokenBucket o =>
    obtain ⟨o', ho'⟩ := pushBy_isOk fresh false hcodec hps
    exact ⟨tokenBucket o', congrArg (Except.map tokenBucket) ho', rfl⟩
  | tokenBucketDDC o =>
    obtain ⟨o', ho'⟩ := pushBy_isOk fresh true hcodec hps
    exact ⟨tokenBucketDDC o', congrArg (Except.map tokenBucketDDC) ho', rfl⟩
  | tokenBucketDDCSeries o =>
    obtain ⟨o', ho'⟩ := TokenBucketDDCSeries.push_isOk fresh hcodec hps
    exact ⟨tokenBucketDDCSeries o', congrArg (Except.map tokenBucketDDCSeries) ho', rfl⟩

end Returns

/-! ## The output links accept the packets -/

namespace LoadBalancer

variable {fresh : Nat → Packet} {now : ℚ} {lb lb₁ : LoadBalancer} {p : Packet} {ps : List Packet}

/-- No packet was handed to a full link. -/
def Accepted (lb : LoadBalancer) : Prop := ∀ tx ∈ lb.transmitted, tx.accepted = true

theorem Accepted.transmit (h : Accepted lb) (now : ℚ) (port : LinkNo) (p : Packet)
    (frame : Option Packet) (hroom : (lb.output port).nreadable < linkMaxPackets) :
    Accepted (lb.transmit now port p frame) ∧
      ∀ i, ((lb.transmit now port p frame).output i).nreadable =
        (lb.output i).nreadable + if i = port then 1 else 0 := by
  have hfull : ¬ (lb.output port).full := Nat.ne_of_lt hroom
  constructor
  · intro tx htx
    rw [transmit_transmitted, mem_append, mem_singleton] at htx
    rcases htx with htx | rfl
    · exact h tx htx
    · exact decide_eq_true hfull
  · intro i
    by_cases hi : i = port
    · subst hi
      rw [if_pos rfl, transmit_output, Function.update_self, Link.nreadable,
        Link.packets_transmit hfull, List.length_append, length_singleton, Link.nreadable]
    · rw [if_neg hi, transmit_output, Function.update_of_ne hi, Nat.add_zero]

theorem Accepted.send (h : Accepted lb) {ddc : Bool} {port : LinkNo} {k : Nat}
    (hroom : ∀ i, (lb.output i).nreadable + (k + 1) ≤ linkMaxPackets)
    (hsend : lb.send fresh now ddc port p = .ok lb₁) :
    Accepted lb₁ ∧ ∀ i, (lb₁.output i).nreadable + k ≤ linkMaxPackets := by
  cases ddc with
  | false =>
    obtain ⟨q, -, rfl⟩ := sendPkt_eq_ok hsend
    have hport := hroom port
    have hstamped : Accepted { lb with sequenceNumber := (lb.sequenceNumber + 1) % 2 ^ 64 } := h
    obtain ⟨haccepted, hlength⟩ := hstamped.transmit now port q (some p)
      (show (lb.output port).nreadable < linkMaxPackets by omega)
    refine ⟨haccepted, fun i => ?_⟩
    have hi := hroom i
    have hle := hlength i
    dsimp only at hle
    split at hle <;> omega
  | true =>
    obtain ⟨d, q, -, -, rfl⟩ :=
      sendPktWithDdc_eq_ok hsend
    have hport := hroom port
    have hother := hroom port.other
    have hstamped : Accepted { lb with
        sequenceNumber := (lb.sequenceNumber + 2) % 2 ^ 64
        allocated := lb.allocated + 1 } := h
    -- the DDC packet goes first and takes no room on the port of the data packet
    obtain ⟨hfirst, hlength₁⟩ := hstamped.transmit now port.other d none
      (show (lb.output port.other).nreadable < linkMaxPackets by omega)
    have hsame := hlength₁ port
    rw [if_neg (LinkNo.ne_other port)] at hsame
    obtain ⟨haccepted, hlength₂⟩ := hfirst.transmit now port q (some p)
      (by rw [hsame]; show (lb.output port).nreadable + 0 < linkMaxPackets; omega)
    refine ⟨haccepted, fun i => ?_⟩
    have hi := hroom i
    have hle₁ := hlength₁ i
    have hle₂ := hlength₂ i
    dsimp only at hle₁
    by_cases hcase : i = port
    · rw [if_neg (by rw [hcase]; exact LinkNo.ne_other port)] at hle₁
      rw [if_pos hcase] at hle₂
      omega
    · rw [if_neg hcase] at hle₂
      split at hle₁ <;> omega

theorem Sends.accepted (h : Sends fresh now lb ps lb₁) :
    (∀ i, (lb.output i).nreadable + ps.length ≤ linkMaxPackets) → Accepted lb → Accepted lb₁ := by
  induction h with
  | nil lb => exact fun _ haccepted => haccepted
  | cons hsend _ ih =>
    intro hroom haccepted
    obtain ⟨haccepted₁, hroom₁⟩ := haccepted.send hroom hsend
    exact ih hroom₁ haccepted₁

end LoadBalancer

/-! ## Runs -/

namespace Balancer

variable {fresh : Nat → Packet} {c : Codec} {b b' : Balancer} {inputs : List LoadBalancerInput}

/-- The log so far is that of the frames that do not come later. -/
structure Tracks (c : Codec) (all : List Packet) (b : Balancer) (is : List LoadBalancerInput) :
    Prop where
  codec : b.lb.hybridAccess = c
  counted : Counted b.lb
  logged : ∃ ps, Logged c 0 b.lb.transmitted ps ∧ all = ps ++ frames is

variable {is : List LoadBalancerInput}

theorem Tracks.push {all : List Packet}
    (h : Tracks c all b (inp :: is)) (hpush : b.push fresh inp = .ok b') : Tracks c all b' is := by
  obtain ⟨hcodec, hcount, ps, hlogged, hframes⟩ := h
  obtain ⟨hcodec', hcount', log, hlog, hpushed⟩ := (push_sends hpush).logged hcount
  rw [show (b.lb.drained inp).hybridAccess = c from hcodec] at hcodec' hpushed
  refine ⟨hcodec', hcount', ps ++ inp.input.packets, ?_, ?_⟩
  · rw [hlog]
    refine hlogged.append ?_
    rw [Nat.zero_add]
    exact hpushed
  · rw [hframes, append_assoc]
    rfl

/-- **The log of a run** is that of the frames that have arrived. -/
theorem run_logged (hnew : b.lb = .new c) (hrun : run (push fresh) b inputs = .ok b') :
    Logged c 0 b'.lb.transmitted (frames inputs) := by
  have hstart : Tracks c (frames inputs) b inputs := by
    refine ⟨?_, ?_, [], ?_, rfl⟩ <;> rw [hnew]
    · rfl
    · rfl
    · exact .nil 0
  obtain ⟨-, -, ps, hlogged, hframes⟩ := run_inv (I := Tracks c (frames inputs))
    (P := fun _ _ => True) (fun _ _ _ _ hI _ hpush => hI.push hpush) hstart
    (along_of_forall fun _ _ => trivial) hrun
  rw [hframes]
  exact (append_nil ps).symm ▸ hlogged

/-- The frames still to come can be sent. -/
structure Supplied (c : Codec) (ddc : Bool) (b : Balancer) (is : List LoadBalancerInput) :
    Prop where
  codec : b.lb.hybridAccess = c
  usesDdc : b.usesDdc = ddc
  sendable : ∀ p ∈ frames is, Sendable c ddc p

theorem Supplied.push {ddc : Bool}
    (h : Supplied c ddc b (inp :: is)) : ∃ b', b.push fresh inp = .ok b' ∧ Supplied c ddc b' is := by
  obtain ⟨hcodec, rfl, hsendable⟩ := h
  obtain ⟨b', hb', huses⟩ := push_isOk fresh hcodec fun p hp =>
    hsendable p (mem_append_left _ hp)
  exact ⟨b', hb', (push_sends hb').codec.trans hcodec, huses,
    fun p hp => hsendable p (mem_append_right _ hp)⟩

/-- **A run returns** if its frames can be sent. -/
theorem run_isOk (hcodec : b.lb.hybridAccess = c)
    (hsendable : ∀ p ∈ frames inputs, Sendable c b.usesDdc p) :
    ∃ b', run (push fresh) b inputs = .ok b' := by
  obtain ⟨b', hrun, -⟩ := run_total (I := Supplied c b.usesDdc) (P := fun _ _ => True)
    (fun _ _ _ hI _ => hI.push) ⟨hcodec, rfl, hsendable⟩ (along_of_forall fun _ _ => trivial)
  exact ⟨b', hrun⟩

/-- The next apps have emptied the output links before the push. -/
def Emptied (b : Balancer) (inp : LoadBalancerInput) : Prop :=
  ∀ i, (b.lb.output i).nreadable ≤ inp.taken i

/-- **The output links accept everything** if they are emptied between the pushes. -/
theorem run_accepted (hnew : b.lb = .new c) (hemptied : Along (push fresh) Emptied b inputs)
    (hrun : run (push fresh) b inputs = .ok b') : Accepted b'.lb := by
  have hstep : ∀ b inp (_ : List LoadBalancerInput)
      b', Accepted b.lb → Emptied b inp → b.push fresh inp = .ok b' →
      Accepted b'.lb := by
    intro b inp _ b' haccepted hempty hpush
    refine (push_sends hpush).accepted (fun i => ?_) haccepted
    have hzero : ((b.lb.drained inp).output i).nreadable = 0 := by
      show ((b.lb.output i).packets.drop (inp.taken i)).length = 0
      rw [length_drop]
      exact Nat.sub_eq_zero_of_le (hempty i)
    rw [hzero, Nat.zero_add]
    exact inp.input.fits
  have hstart : Accepted b.lb := by
    rw [hnew]
    exact fun _ h => nomatch h
  exact run_inv (I := fun b _ => Accepted b.lb) hstep hstart hemptied hrun

/-- **Sequence-number discipline of every load balancer**: a run over frames that can
be sent returns; the log of a run that returns is disciplined until the counter wraps;
and the output links accept it if they are emptied between the pushes. -/
theorem sequence_discipline (fresh : Nat → Packet) (c : Codec) (b : Balancer)
    (inputs : List LoadBalancerInput) (hnew : b.lb = .new c) :
    ((∀ p ∈ frames inputs, Sendable c b.usesDdc p) →
      ∃ b', run (push fresh) b inputs = .ok b') ∧
    ∀ b', run (push fresh) b inputs = .ok b' →
      (b'.lb.transmitted.length ≤ 2 ^ 64 → Disciplined c b'.lb.transmitted (frames inputs)) ∧
      (Along (push fresh) Emptied b inputs → Accepted b'.lb) := by
  refine ⟨run_isOk (by rw [hnew]; rfl), fun b' hrun => ⟨?_, ?_⟩⟩
  · exact (run_logged hnew hrun).disciplined
  · exact fun hemptied => run_accepted hnew hemptied hrun

/-- Two frames of which the second one is sent with a DDC packet: three packets with
the numbers 0, 1 and 2. -/
theorem sequence_discipline_ddc :
    ∃ b', run (push ordinaryFrame) (.tokenBucketDDCSeries ⟨.new (.new .eth) .sample, 1, 0⟩)
        [.finding 0 0 [300, 300]] = .ok b' ∧
      b'.lb.transmitted.length = 3 ∧
      Disciplined .eth b'.lb.transmitted (frames [.finding 0 0 [300, 300]]) := by
  refine exists_ok_of_any (fun b => b.lb.transmitted.length = 3)
    (by decide +kernel) fun b' hrun hthree => ?_
  have hdisciplined := ((sequence_discipline ordinaryFrame .eth
    (.tokenBucketDDCSeries ⟨.new (.new .eth) .sample, 1, 0⟩) [.finding 0 0 [300, 300]] rfl).2
      b' hrun).1 (by rw [hthree]; norm_num)
  exact ⟨hthree, hdisciplined⟩

/-- A load balancer that sends more than `2 ^ 64` frames uses a number twice. -/
theorem numbers_repeat (hn : 2 ^ 64 < n) (hone : inp.input.packets.length = 1)
    (hsendable : ∀ p ∈ inp.input.packets, Sendable c false p) :
    ∃ b', run (push fresh) (.singleLink (.new c)) (List.replicate n inp) = .ok b' ∧
      b'.lb.transmitted.map (Tx.seqNo c) ≠ (List.range b'.lb.transmitted.length).map some := by
  have hall : ∀ p ∈ frames (List.replicate n inp), Sendable c false p := fun p hp =>
    hsendable p (mem_of_mem_frames_replicate hp)
  have hcount : (frames (List.replicate n inp)).length = n := by
    rw [length_frames_replicate, hone, Nat.mul_one]
  obtain ⟨b', hrun⟩ : ∃ b', run (push fresh) (.singleLink (.new c)) (List.replicate n inp) =
      .ok b' := run_isOk rfl hall
  have hlogged := run_logged rfl hrun
  refine ⟨b', hrun, fun hnumbers => ?_⟩
  have hlt : 2 ^ 64 < b'.lb.transmitted.length :=
    hn.trans_le (hcount ▸ hlogged.length_le)
  have hsame := congrArg (·[2 ^ 64]?) (hlogged.seqNos.symm.trans hnumbers)
  rw [← range_eq_range'] at hsame
  simp only [List.getElem?_map, List.getElem?_range hlt] at hsame
  cases hsame

/-- After `2 ^ 64` packets the counter starts again at 0. -/
theorem counter_wraps :
    ∃ b', run (push ordinaryFrame) (.singleLink (.new .eth))
        (List.replicate (2 ^ 64 + 1) (.finding 0 0 [60])) = .ok b' ∧
      b'.lb.transmitted.map (Tx.seqNo .eth) ≠
        (List.range b'.lb.transmitted.length).map some := by
  refine numbers_repeat (Nat.lt_succ_self _) rfl fun p hp => ⟨?_, nofun⟩
  obtain rfl := mem_singleton.mp hp
  decide

end Balancer

end Snabb
