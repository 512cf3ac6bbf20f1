import Snabb.HybridAccess.Path.Receiver

/-!
# Transparency of the hybrid-access path

A load balancer of any policy in Ethernet mode, two links, and a recombination: the
frames that go in come out in the same order and with the same bytes, however the
links delay what they carry and however the arrivals are grouped into pushes.

The log of the load balancer has the shape `Logged`; `Logged.carries` turns this
into what the receiver needs, that the packet at position `k` is read as number `k`.
The rest is `run_transparent`.

The numbers are 64-bit counters on both sides. A packet numbered 0 again that overtakes
the one numbered `2 ^ 64 - 1` on the other link is taken for a late one
(`wrapped_number_loses_frame`).
-/

namespace Snabb

open Foundation LoadBalancer Recombination List Packet

/-- The frames that a hybrid-access path carries: an Ethernet header, and room for the
hybrid-access header. -/
def EthernetSized (p : Packet) : Prop :=
  etherHeaderLen ≤ p.length ∧ p.length + haHeaderLen ≤ maxPayload

instance (p : Packet) : Decidable (EthernetSized p) := inferInstanceAs (Decidable (_ ∧ _))

/-! ## What the log carries -/

section Log

variable {n : Nat} {log : List Tx} {ps : List Packet} {p q : Packet} {tx : Tx}

/-- An encapsulated frame is read with its number and delivers its bytes. -/
theorem carries_of_addHeader (hsized : EthernetSized p)
    (h : Codec.eth.addHeader p (n % 2 ^ 64) (getEtherType p) = .ok tx.packet)
    (hframe : tx.frame = some p) (hq : q.bytes = tx.packet.bytes) :
    Carries .eth q (n % 2 ^ 64) (frameBytes tx) := by
  obtain ⟨hlen, hfit⟩ := hsized
  have hget := Codec.getHeader_of_addHeader h (Nat.mod_lt _ (by norm_num)) (htons_lt _)
  obtain ⟨hlength, -, -⟩ := Codec.addHeader_spec h hfit hlen
  have hlong : etherHeaderLen + Codec.eth.shiftLength ≤ tx.packet.length := by omega
  rw [← Codec.getHeader_eq_of_bytes_eq hlong hq] at hget
  obtain ⟨r, hr, -, hbytes⟩ := Codec.removeHeader_of_addHeader h hlen hfit hq
  refine ⟨_, hget, rfl, fun _ => ⟨r, hr, ?_⟩, fun hne => absurd rfl hne⟩
  rw [frameBytes, hframe, Option.map_some, hbytes]

/-- A DDC packet is read with its number and delivers nothing. -/
theorem carries_of_makeDdcPacket {f : Packet}
    (h : Codec.eth.makeDdcPacket f p (n % 2 ^ 64) = .ok tx.packet) (hframe : tx.frame = none)
    (hq : q.bytes = tx.packet.bytes) : Carries .eth q (n % 2 ^ 64) (frameBytes tx) := by
  obtain ⟨-, hlength, hget⟩ := Codec.getHeader_of_makeDdcPacket h (Nat.mod_lt _ (by norm_num))
  have hlong : etherHeaderLen + Codec.eth.shiftLength ≤ tx.packet.length :=
    Nat.le_of_eq hlength.symm
  rw [← Codec.getHeader_eq_of_bytes_eq hlong hq] at hget
  refine ⟨_, hget, rfl, fun hdata => ?_, fun _ => ?_⟩
  · exact absurd (show hybridAccessDdcType = hybridAccessType from hdata) (by decide)
  · rw [frameBytes, hframe, Option.map_none]

/-- **The packets of a log** are read with their positions as numbers. -/
theorem LoadBalancer.Logged.carries (h : Logged .eth n log ps)
    (hsized : ∀ p ∈ ps, EthernetSized p) :
    ∀ k tx, log[k]? = some tx → ∀ q : Packet, q.bytes = tx.packet.bytes →
      Carries .eth q ((n + k) % 2 ^ 64) (frameBytes tx) := by
  induction h with
  | nil => nofun
  | data hpacket hframe _ ih =>
    intro k tx hk q hq
    obtain ⟨hp, hps⟩ := forall_mem_cons.mp hsized
    cases k with
    | zero =>
      cases hk
      exact carries_of_addHeader hp hpacket hframe hq
    | succ k =>
      rw [Nat.add_comm k, ← Nat.add_assoc]
      exact ih hps k tx hk q hq
  | ddc hddc hnone _ hpacket hframe _ ih =>
    intro k tx hk q hq
    obtain ⟨hp, hps⟩ := forall_mem_cons.mp hsized
    match k with
    | 0 =>
      cases hk
      exact carries_of_makeDdcPacket hddc hnone hq
    | 1 =>
      cases hk
      exact carries_of_addHeader hp hpacket hframe hq
    | k + 2 =>
      rw [Nat.add_comm k, ← Nat.add_assoc]
      exact ih hps k tx hk q hq

theorem LoadBalancer.Logged.frames {c : Codec} (h : Logged c n log ps) :
    log.filterMap frameBytes = ps.map bytes := by
  induction h with
  | nil => rfl
  | data _ hframe _ ih =>
    rw [filterMap_cons_some (by rw [frameBytes, hframe]; rfl), ih, map_cons]
  | ddc _ hnone _ _ hframe _ ih =>
    rw [filterMap_cons_none (by rw [frameBytes, hnone]; rfl),
      filterMap_cons_some (by rw [frameBytes, hframe]; rfl), ih, map_cons]

theorem LoadBalancer.Logged.readable (h : Logged .eth 0 log ps)
    (hsized : ∀ p ∈ ps, EthernetSized p) (hwrap : log.length ≤ 2 ^ 64) : Readable .eth log := by
  intro k tx hk q hq
  have hcarries := h.carries hsized k tx hk q hq
  have hlt : k < log.length := (List.getElem?_eq_some_iff.mp hk).1
  rwa [Nat.zero_add, Nat.mod_eq_of_lt (hlt.trans_le hwrap)] at hcarries

end Log

/-! ## The path -/

/-- What the recombination has received on a link over a run, as bytes. -/
def arrivedOn (i : LinkNo) (inputs : List PushInput) : List (List UInt8) :=
  (received i inputs).map bytes

/-- What a load balancer has handed to an output, as bytes. -/
def sentOn (i : LinkNo) (lb : LoadBalancer) : List (List UInt8) :=
  (lane Tx.port i lb.transmitted).map fun tx => tx.packet.bytes

/-- What the recombination has put out, as bytes. -/
def delivered (s : Recombination) : List (List UInt8) := s.sent.map fun e => e.2.bytes

/-- **The hybrid-access path is transparent.** The load balancer sends every sequence of
frames; whatever part of it the links have delivered, in order on each of them, the
recombination returns and has put out a beginning of the sequence, byte for byte; it is
the whole sequence once everything has arrived and the buffers are empty. -/
theorem path_transparent (fresh : Nat → Packet) (b : Balancer) (arrivals : List LoadBalancerInput)
    (c : RecombinationConf) (hnew : b.lb = .new .eth) (heth : c.hybridAccess = .eth)
    (hsized : ∀ p ∈ frames arrivals, EthernetSized p) :
    ∃ b', run (Balancer.push fresh) b arrivals = .ok b' ∧
      (b'.lb.transmitted.length ≤ 2 ^ 64 → ∀ inputs : List PushInput,
        (∀ i, arrivedOn i inputs <+: sentOn i b'.lb) →
        Along (push c) (Calm c) .new inputs →
        ∃ s', run (push c) .new inputs = .ok s' ∧
          delivered s' <+: (frames arrivals).map bytes ∧
          ((∀ i, arrivedOn i inputs = sentOn i b'.lb) → (∀ i, s'.buffer i = []) →
            delivered s' = (frames arrivals).map bytes)) := by
  have hsendable : ∀ p ∈ frames arrivals, Sendable .eth b.usesDdc p := fun p hp =>
    ⟨(hsized p hp).2, fun _ => rfl⟩
  obtain ⟨b', hrun⟩ : ∃ b', run (Balancer.push fresh) b arrivals = .ok b' :=
    Balancer.run_isOk (by rw [hnew]; rfl) hsendable
  have hlogged := Balancer.run_logged hnew hrun
  refine ⟨b', hrun, fun hwrap inputs harrived hcalm => ?_⟩
  have hread : Readable c.hybridAccess b'.lb.transmitted := by
    rw [heth]
    exact hlogged.readable hsized hwrap
  rw [← hlogged.frames]
  exact run_transparent hread hwrap harrived hcalm

/-- The packets of a load balancer as two pushes may find them: first all that link 2
carries, then all that link 1 carries. -/
def linkTwoFirst (lb : LoadBalancer) : List PushInput :=
  [.finding 0 [] ((lane Tx.port .two lb.transmitted).map Tx.packet),
    .finding 1 ((lane Tx.port .one lb.transmitted).map Tx.packet) []]

/-- Two frames, of which the second one leaves on the other link with a DDC packet in
front of it and arrives before the first one. -/
theorem path_transparent_overtaking :
    ∃ b' s', run (Balancer.push ordinaryFrame)
        (.tokenBucketDDCSeries ⟨.new (.new .eth) .sample, 1, 0⟩) [.finding 0 0 [300, 300]] = .ok b' ∧
      run (push ⟨.eth, fun _ => 1000, 204⟩) .new (linkTwoFirst b'.lb) = .ok s' ∧
      delivered s' = (frames [.finding 0 0 [300, 300]]).map bytes := by
  obtain ⟨b', hrun, hpath⟩ := path_transparent ordinaryFrame
    (.tokenBucketDDCSeries ⟨.new (.new .eth) .sample, 1, 0⟩) [.finding 0 0 [300, 300]]
    ⟨.eth, fun _ => 1000, 204⟩ rfl rfl (by decide +kernel)
  obtain ⟨b, hb, hcheck⟩ := ok_of_any (q := fun b : Balancer =>
      decide (b.lb.transmitted.length ≤ 2 ^ 64 ∧
        (∀ i, arrivedOn i (linkTwoFirst b.lb) = sentOn i b.lb) ∧
        Along (push ⟨.eth, fun _ => 1000, 204⟩) (Calm ⟨.eth, fun _ => 1000, 204⟩) .new
          (linkTwoFirst b.lb) ∧
        ∀ i, ((final (run (push ⟨.eth, fun _ => 1000, 204⟩) .new
          (linkTwoFirst b.lb))).buffer i).length = 0))
    (by decide +kernel : (run (Balancer.push ordinaryFrame)
      (.tokenBucketDDCSeries ⟨.new (.new .eth) .sample, 1, 0⟩)
      [.finding 0 0 [300, 300]]).toOption.any _ = true)
  obtain rfl := ok_unique hb hrun
  obtain ⟨hwrap, hall, hcalm, hempty⟩ := of_decide_eq_true hcheck
  obtain ⟨s', hs', -, hwhole⟩ := hpath hwrap _ (fun i => hall i ▸ prefix_refl _) hcalm
  rw [hs'] at hempty
  exact ⟨b, s', hrun, hs', hwhole hall fun i => eq_nil_of_length_eq_zero (hempty i)⟩

/-! ## One packet at a time -/

section Single

variable {c : RecombinationConf} {s : Recombination} {tx : Tx} {p : TsPacket} {h : HaHeader}
  {i : LinkNo}

/-- A push that finds one packet, on the link it was sent to, and an empty output link. -/
def single (tx : Tx) : PushInput where
  currentTime := 0
  input := fun i => .holding (if tx.port = i then [tx.packet] else [])
  taken := linkMaxPackets

theorem packets_single (tx : Tx) (i : LinkNo) :
    ((single tx).input i).packets = if tx.port = i then [tx.packet] else [] := by
  refine take_of_length_le ?_
  split
  · exact (by decide : 1 ≤ linkMaxPackets)
  · exact Nat.zero_le _

theorem length_single_le (tx : Tx) (i : LinkNo) : ((single tx).input i).packets.length ≤ 1 := by
  rw [packets_single]
  split
  · exact Nat.le_refl 1
  · exact Nat.zero_le 1

theorem received_singles (txs : List Tx) (i : LinkNo) :
    received i (txs.map single) = (lane Tx.port i txs).map Tx.packet := by
  induction txs with
  | nil => rfl
  | cons tx txs ih =>
    rw [map_cons, received_cons, packets_single, ih, lane, lane]
    by_cases hi : tx.port = i <;> simp [hi]

/-- A recombination that has nothing to do and has lost nothing. -/
structure CaughtUp (s : Recombination) : Prop where
  empty : ∀ i, s.buffer i = []
  drops : s.txdrops = []

theorem skipped_of_header {rest : List TsPacket} (hbuf : s.buffer i = p :: rest)
    (hh : c.hybridAccess.getHeader p.packet = some h) : skipped c i s = s := by
  rw [skipped, hbuf, skipOrdinary, hh]

theorem skipped_of_empty (hbuf : s.buffer i = []) : skipped c i s = s := by
  rw [skipped, hbuf, skipOrdinary]

theorem dequeue_lone (hbuf : s.buffer i = [p]) (hother : s.buffer i.other = []) (j : LinkNo) :
    (s.dequeue i).buffer j = [] := by
  by_cases hj : j = i
  · rw [hj, dequeue_buffer_self, hbuf]
    rfl
  · rw [dequeue_buffer_of_ne s hj, LinkNo.eq_other_of_ne hj, hother]

/-- The round that takes a lone packet is decided by the scan of its link, and the next
one finds nothing. -/
theorem processLinks_lone {sc : Scan} (hpull : 0 < c.pullNpackets) (hbuf : s.buffer i = [p])
    (hother : s.buffer i.other = [])
    (hscan : scanLink c i ⟨s, none, decide (i = .two), false⟩ = .ok sc)
    (hbuffered : sc.buffered = none) (hleft : sc.left = true)
    (hempty : ∀ j, sc.state.buffer j = []) : processLinks c s = .ok sc.state := by
  obtain ⟨n, hn⟩ := Nat.exists_eq_succ_of_ne_zero (Nat.pos_iff_ne_zero.mp hpull)
  have hround : processRound c s = .ok (sc.state, false) := by
    cases i with
    | one =>
      -- the scan of link 2 is skipped: the for loop has been left
      rw [processRound, show scanLink c .one ⟨s, none, false, false⟩ = .ok sc from hscan]
      dsimp only
      rw [scanLink_left sc hleft]
      dsimp only
      rw [hbuffered]
    | two =>
      -- link 1 is scanned first and found empty
      have hone : s.buffer .one = [] := hother
      have hskip : skipped c .one s = s := skipped_of_empty hone
      have hnone : headHeader c (skipped c .one s) .one = none := by
        rw [hskip, headHeader, hone]
        rfl
      have hfirst := scanLink_empty ⟨s, none, false, false⟩ rfl hnone
      rw [hskip] at hfirst
      rw [processRound, hfirst]
      dsimp only
      rw [show scanLink c .two ⟨s, none, true, false⟩ = .ok sc from hscan]
      dsimp only
      rw [hbuffered]
  have hbusy : ¬ ((s.buffer .one).isEmpty && (s.buffer .two).isEmpty) = true := by
    intro hidle
    rw [Bool.and_eq_true, List.isEmpty_iff, List.isEmpty_iff] at hidle
    have hnil : s.buffer i = [] := by
      cases i with
      | one => exact hidle.1
      | two => exact hidle.2
    rw [hnil] at hbuf
    cases hbuf
  rw [processLinks, hn, processLinksLoop, if_neg hbusy, hround]
  exact processLinksLoop_of_empty n (hempty .one) (hempty .two)

/-- What a push that finds one packet enters `process_links` with. -/
theorem CaughtUp.fetched (hs : CaughtUp s) (c : RecombinationConf) (tx : Tx) :
    (Recombination.fetched c s (single tx)).buffer tx.port =
        [⟨tx.packet, timeout c 0 tx.port⟩] ∧
      (Recombination.fetched c s (single tx)).buffer tx.port.other = [] := by
  have hpresent : ∀ i, present c s (single tx) i =
      (if tx.port = i then [tx.packet] else []).map fun pkt => ⟨pkt, timeout c 0 i⟩ := by
    intro i
    rw [present, hs.empty i, take_of_length_le, packets_single]
    · rfl
    · exact (length_single_le tx i).trans (by decide)
  rw [fetched_buffer, fetched_buffer, hpresent, hpresent, if_pos rfl,
    if_neg (LinkNo.ne_other tx.port)]
  exact ⟨rfl, rfl⟩

/-- A push that finds one packet and leaves the buffers empty is calm. -/
theorem CaughtUp.calm (hs : CaughtUp s) {t : Recombination}
    (hlinks : processLinks c (Recombination.fetched c s (single tx)) = .ok t)
    (hempty : ∀ i, t.buffer i = []) :
    push c s (single tx) = .ok t ∧ CaughtUp t ∧ Calm c s (single tx) := by
  have hpush : push c s (single tx) = .ok t := by
    rw [push_of_links hlinks]
    refine processTimeout_of_not_due fun i p hp => ?_
    rw [hempty i] at hp
    cases hp
  have hroom : ∀ i, ((single tx).input i).packets.length ≤ room (s.buffer i) := by
    intro i
    rw [hs.empty i]
    exact (length_single_le tx i).trans (by decide)
  have hcount : ∀ i, (present c s (single tx) i).countP (deliverable c) ≤ 1 := by
    intro i
    refine countP_le_length.trans ?_
    rw [length_present, hs.empty i, length_nil, Nat.zero_add]
    exact (Nat.min_le_right _ _).trans (length_single_le tx i)
  -- at most two packets for an output link that was emptied
  have hsafe : OutputSafe c s (single tx) := by
    exact Or.inl ((Nat.add_le_add (hcount .one) (hcount .two)).trans (by decide))
  have hdrops := push_accepts (drop_of_length_le s.output.fits) hsafe
  refine ⟨hpush, ⟨hempty, ?_⟩, ⟨hroom, fun i p hp => ?_, by rw [hdrops]⟩⟩
  · rw [hpush] at hdrops
    exact hdrops.trans hs.drops
  · rw [hlinks] at hp
    rw [show (final (.ok t)).buffer i = t.buffer i from rfl, hempty i] at hp
    cases hp

variable {frame : Option (List UInt8)}

/-- **In step**: the expected packet is delivered by the push that finds it. -/
theorem CaughtUp.push_expected (hs : CaughtUp s)
    (hpull : 0 < c.pullNpackets) (hcarries : Carries c.hybridAccess tx.packet s.nextSeqNo frame) :
    ∃ s', push c s (single tx) = .ok s' ∧ CaughtUp s' ∧ Calm c s (single tx) ∧
      s'.nextSeqNo = (s.nextSeqNo + 1) % 2 ^ 64 ∧ delivered s' = delivered s ++ frame.toList := by
  obtain ⟨hbuf, hother⟩ := hs.fetched c tx
  obtain ⟨h, hget, -⟩ := hcarries.header
  have hskip := skipped_of_header (c := c) hbuf hget
  obtain ⟨hseq, s', hok, -, hsent⟩ := deliver_carries (c := c) (i := tx.port)
    (s := (Recombination.fetched c s (single tx)).dequeue tx.port) hcarries hget
  obtain ⟨hbuffer, hnext, -⟩ := deliver_ok hok
  have hempty : ∀ i, s'.buffer i = [] := by
    rw [hbuffer]
    exact dequeue_lone hbuf hother
  have hscan := scanLink_expected
    ⟨Recombination.fetched c s (single tx), none, decide (tx.port = .two), false⟩ rfl
    (hskip.symm ▸ hbuf) hget (hseq.trans (fetched_nextSeqNo c s (single tx)).symm)
  rw [hskip, hok] at hscan
  have hlinks := processLinks_lone hpull hbuf hother hscan rfl rfl hempty
  obtain ⟨hpush, hcaught, hcalm⟩ := hs.calm hlinks hempty
  refine ⟨s', hpush, hcaught, hcalm, by rw [hnext, hseq], ?_⟩
  have hbefore : ((Recombination.fetched c s (single tx)).dequeue tx.port).txdrops = [] :=
    (fetched_txdrops c s (single tx)).trans hs.drops
  have hsame : ((Recombination.fetched c s (single tx)).dequeue tx.port).sent = s.sent := by
    rw [fetched_eq]
    rfl
  rw [delivered, hsent (hcaught.drops.trans hbefore.symm), hsame, delivered]

theorem CaughtUp.push_late {n : Nat} (hs : CaughtUp s)
    (hpull : 0 < c.pullNpackets) (hcarries : Carries c.hybridAccess tx.packet n frame)
    (hlate : n < s.nextSeqNo) :
    ∃ s', push c s (single tx) = .ok s' ∧ CaughtUp s' ∧ Calm c s (single tx) ∧
      s'.nextSeqNo = s.nextSeqNo ∧ delivered s' = delivered s := by
  obtain ⟨hbuf, hother⟩ := hs.fetched c tx
  obtain ⟨h, hget, hseq, -⟩ := hcarries.header
  have hskip := skipped_of_header (c := c) hbuf hget
  have hscan := scanLink_late
    ⟨Recombination.fetched c s (single tx), none, decide (tx.port = .two), false⟩ rfl
    (hskip.symm ▸ hbuf) hget (by rw [fetched_nextSeqNo, hseq]; exact hlate)
  rw [hskip] at hscan
  have hempty := dequeue_lone hbuf hother
  have hlinks := processLinks_lone hpull hbuf hother hscan rfl rfl hempty
  obtain ⟨hpush, hcaught, hcalm⟩ := hs.calm hlinks hempty
  refine ⟨_, hpush, hcaught, hcalm, ?_, ?_⟩
  · exact fetched_nextSeqNo c s (single tx)
  · rw [fetched_eq]
    rfl

/-- Packets that arrive one by one in the order of the log are delivered in step. -/
theorem CaughtUp.run_expected (heth : c.hybridAccess = .eth) (hpull : 0 < c.pullNpackets)
    {txs : List Tx} (hs : CaughtUp s) (hnext : s.nextSeqNo < 2 ^ 64)
    (hcarries : ∀ k tx, txs[k]? = some tx →
      Carries .eth tx.packet ((s.nextSeqNo + k) % 2 ^ 64) (frameBytes tx)) :
    ∃ s', run (push c) s (txs.map single) = .ok s' ∧ CaughtUp s' ∧
      Along (push c) (Calm c) s (txs.map single) ∧
      s'.nextSeqNo = (s.nextSeqNo + txs.length) % 2 ^ 64 ∧
      delivered s' = delivered s ++ txs.filterMap frameBytes := by
  induction txs generalizing s with
  | nil =>
    refine ⟨s, rfl, hs, trivial, (Nat.mod_eq_of_lt hnext).symm, ?_⟩
    rw [filterMap_nil, append_nil]
  | cons tx txs ih =>
    have hfirst := hcarries 0 tx rfl
    rw [Nat.add_zero, Nat.mod_eq_of_lt hnext, ← heth] at hfirst
    obtain ⟨t, hpush, hcaught, hcalm, hnext', hsent⟩ := hs.push_expected hpull hfirst
    obtain ⟨s', hrun, hcaught', halong, hnext'', hsent'⟩ := ih hcaught
      (by rw [hnext']; exact Nat.mod_lt _ (by norm_num)) fun k tx' hk => by
        have hrest := hcarries (k + 1) tx' hk
        rwa [hnext', Nat.mod_add_mod, Nat.add_assoc, Nat.add_comm 1 k]
    refine ⟨s', ?_, hcaught', (along_cons_ok hpush).mpr ⟨hcalm, halong⟩, ?_, ?_⟩
    · rw [map_cons, run_cons_ok hpush, hrun]
    · rw [hnext'', hnext', Nat.mod_add_mod, length_cons, Nat.add_assoc,
        Nat.add_comm 1 txs.length]
    · have hcons : (tx :: txs).filterMap frameBytes =
          (frameBytes tx).toList ++ txs.filterMap frameBytes := by
        cases hframe : frameBytes tx <;> simp [hframe]
      rw [hsent', hsent, append_assoc, hcons]

end Single

/-! ## Behind the last number -/

section Wrap

variable {fresh : Nat → Packet} {p : Packet} {inp : LoadBalancerInput} {n : Nat}

/-- A round robin sends the packets with even positions on link 2. -/
structure Alternating (o : RoundRobin) : Prop where
  codec : o.hybridAccess = .eth
  flip : o.flip = decide (o.transmitted.length % 2 = 1)
  ports : ∀ k tx, o.transmitted[k]? = some tx → tx.port = if k % 2 = 1 then .one else .two

theorem Alternating.push {o : RoundRobin} (h : Alternating o) (hone : inp.input.packets = [p])
    (hsized : EthernetSized p) :
    ∃ o', o.push inp = .ok o' ∧ Alternating o' ∧
      o'.transmitted.length = o.transmitted.length + 1 := by
  have hcodec : (o.toLoadBalancer.drained inp).hybridAccess = .eth := h.codec
  have hsendable : Sendable .eth false p := ⟨hsized.2, nofun⟩
  obtain ⟨lb, hlb, hcodec'⟩ :=
    sendPkt_isOk inp.now (if o.flip then .one else .two) hsendable hcodec
  have hpush : o.push inp = .ok { toLoadBalancer := lb, flip := !o.flip } := by
    rw [RoundRobin.push, hone, foldlM_cons, RoundRobin.processPacket, hlb]
    rfl
  obtain ⟨q, -, rfl⟩ := sendPkt_eq_ok hlb
  refine ⟨_, hpush, ⟨hcodec', ?_, fun k tx hk => ?_⟩, ?_⟩
  · show (!o.flip) = decide ((o.transmitted ++ [_]).length % 2 = 1)
    rw [h.flip]
    rcases Nat.mod_two_eq_zero_or_one o.transmitted.length with hmod | hmod <;>
      simp [Nat.add_mod, hmod]
  · have hk' : (o.transmitted ++ [_])[k]? = some tx := hk
    by_cases hlt : k < o.transmitted.length
    · rw [List.getElem?_append_left hlt] at hk'
      exact h.ports k tx hk'
    · rw [List.getElem?_append_right (Nat.le_of_not_lt hlt)] at hk'
      obtain ⟨hzero, rfl⟩ := List.getElem?_eq_some_iff.mp hk'
      have hlast : k = o.transmitted.length := by
        simp only [length_singleton] at hzero
        omega
      simp only [getElem_singleton, hlast, h.flip, decide_eq_true_eq]
  · show (o.transmitted ++ [_]).length = _
    rw [List.length_append, length_singleton]

theorem alternating_run (fresh : Nat → Packet) (hone : inp.input.packets = [p])
    (hsized : EthernetSized p) (n : Nat) :
    ∀ o : RoundRobin, Alternating o →
      ∃ o', run (Balancer.push fresh) (.roundRobin o) (List.replicate n inp) = .ok (.roundRobin o') ∧
        Alternating o' ∧ o'.transmitted.length = o.transmitted.length + n := by
  induction n with
  | zero =>
    intro o h
    exact ⟨o, rfl, h, rfl⟩
  | succ n ih =>
    intro o h
    obtain ⟨o₁, hpush, h₁, hlength₁⟩ := h.push hone hsized
    have hstep : Balancer.push fresh (.roundRobin o) inp = .ok (.roundRobin o₁) :=
      congrArg (Except.map Balancer.roundRobin) hpush
    obtain ⟨o', hrun, h', hlength⟩ := ih o₁ h₁
    refine ⟨o', ?_, h', by omega⟩
    rw [replicate_succ, run_cons_ok hstep, hrun]

/-- If number 0 overtakes number `2 ^ 64 - 1` it is discarded. -/
theorem wrapped_number_discarded {c : RecombinationConf} (heth : c.hybridAccess = .eth)
    (hpull : 0 < c.pullNpackets) {txs : List Tx} {a b : Tx} (hlength : txs.length + 1 = 2 ^ 64)
    (hcarries : ∀ k tx, (txs ++ [a, b])[k]? = some tx →
      Carries .eth tx.packet (k % 2 ^ 64) (frameBytes tx)) :
    ∃ s', run (push c) .new (txs.map single ++ [single b, single a]) = .ok s' ∧
      Along (push c) (Calm c) .new (txs.map single ++ [single b, single a]) ∧ CaughtUp s' ∧
      delivered s' = txs.filterMap frameBytes ++ (frameBytes a).toList := by
  have hcarriesa := hcarries txs.length a (by simp)
  have hcarriesb := hcarries (txs.length + 1) b (by simp)
  have hlast : txs.length % 2 ^ 64 = txs.length := Nat.mod_eq_of_lt (by omega)
  rw [hlast, ← heth] at hcarriesa
  rw [← heth] at hcarriesb
  -- all numbers up to `2 ^ 64 - 2` in order
  obtain ⟨s₁, hrun₁, hcaught₁, halong₁, hnext₁, hsent₁⟩ :=
    CaughtUp.run_expected heth hpull (s := .new) ⟨fun _ => rfl, rfl⟩ (by decide)
      fun k tx hk => by
        have hlt : k < txs.length := (List.getElem?_eq_some_iff.mp hk).1
        have hfirst := hcarries k tx (by rw [List.getElem?_append_left hlt, hk])
        rwa [show Recombination.new.nextSeqNo = 0 from rfl, Nat.zero_add]
  rw [show Recombination.new.nextSeqNo = 0 from rfl, Nat.zero_add, hlast] at hnext₁
  -- then number 0, and then the number it has overtaken
  obtain ⟨s₂, hpush₂, hcaught₂, hcalm₂, hnext₂, hsent₂⟩ :=
    hcaught₁.push_late hpull hcarriesb (by omega)
  rw [← hnext₁, ← hnext₂] at hcarriesa
  obtain ⟨s₃, hpush₃, hcaught₃, hcalm₃, -, hsent₃⟩ := hcaught₂.push_expected hpull hcarriesa
  refine ⟨s₃, ?_, ?_, hcaught₃, ?_⟩
  · rw [run_append hrun₁, run_cons_ok hpush₂, run_cons_ok hpush₃]
    rfl
  · refine halong₁.append hrun₁ ?_
    exact (along_cons_ok hpush₂).mpr ⟨hcalm₂, (along_cons_ok hpush₃).mpr ⟨hcalm₃, trivial⟩⟩
  · rw [hsent₃, hsent₂, hsent₁]
    rfl

/-- A path that carries one frame more than there are numbers loses the last frame when
it overtakes the one before it. -/
theorem wrapped_frame_lost {m n : Nat} (hm : m + 1 = 2 ^ 64) (hn : n = m + 2)
    (hone : inp.input.packets = [p]) (hsized : EthernetSized p) :
    ∃ b' inputs s', run (Balancer.push fresh) (.roundRobin (.new (.new .eth)))
        (List.replicate n inp) = .ok b' ∧
      (∀ i, arrivedOn i inputs = sentOn i b'.lb) ∧
      Along (push ⟨.eth, fun _ => 1000, 204⟩) (Calm ⟨.eth, fun _ => 1000, 204⟩) .new inputs ∧
      run (push ⟨.eth, fun _ => 1000, 204⟩) .new inputs = .ok s' ∧ (∀ i, s'.buffer i = []) ∧
      delivered s' ≠ (frames (List.replicate n inp)).map bytes := by
  subst hn
  have hstart : Alternating (.new (.new .eth)) := ⟨rfl, rfl, nofun⟩
  obtain ⟨o, hrun, halternating, hlength⟩ := alternating_run fresh hone hsized (m + 2) _ hstart
  have hlogged : Logged .eth 0 o.transmitted (frames (List.replicate (m + 2) inp)) :=
    Balancer.run_logged rfl hrun
  have hall : ∀ p ∈ frames (List.replicate (m + 2) inp), EthernetSized p := by
    intro q hq
    have hmem := mem_of_mem_frames_replicate hq
    rw [hone, mem_singleton] at hmem
    rw [hmem]
    exact hsized
  have hlength' : o.transmitted.length = m + 2 := hlength.trans (Nat.zero_add _)
  -- the last two packets: number `m` on link 1, and number 0 on link 2
  obtain ⟨a, ha⟩ : ∃ a, o.transmitted[m]? = some a := ⟨_, List.getElem?_eq_getElem (by omega)⟩
  obtain ⟨b, hb⟩ : ∃ b, o.transmitted[m + 1]? = some b := ⟨_, List.getElem?_eq_getElem (by omega)⟩
  have hporta := halternating.ports m a ha
  have hportb := halternating.ports (m + 1) b hb
  rw [if_pos (by omega)] at hporta
  rw [if_neg (by omega)] at hportb
  have hsplit : o.transmitted = o.transmitted.take m ++ [a, b] := by
    have hrest := take_append_drop m o.transmitted
    rw [drop_eq_cons ha, drop_eq_cons hb, drop_of_length_le (by omega)] at hrest
    exact hrest.symm
  have htake : (o.transmitted.take m).length = m := by
    rw [length_take]
    omega
  obtain ⟨s', hrun', halong, hcaught, hsent⟩ := wrapped_number_discarded
    (c := ⟨.eth, fun _ => 1000, 204⟩) rfl (by decide) (by rw [htake]; exact hm)
    (a := a) (b := b) fun k tx hk => by
      rw [← hsplit] at hk
      have hcarries := hlogged.carries hall k tx hk tx.packet rfl
      rwa [Nat.zero_add] at hcarries
  refine ⟨.roundRobin o, _, s', hrun, fun i => ?_, halong, hrun', hcaught.empty, fun hsame => ?_⟩
  · have harrived : received i ((o.transmitted.take m).map single ++ [single b, single a]) =
        (lane Tx.port i o.transmitted).map Tx.packet := by
      have hpair : received i [single b, single a] = (lane Tx.port i [a, b]).map Tx.packet := by
        rw [received_cons, received_cons, packets_single, packets_single]
        cases i <;> simp [received, lane, hporta, hportb]
      rw [hsplit, lane_append, map_append, ← hpair, ← received_singles, ← hsplit]
      exact flatMap_append
    rw [arrivedOn, harrived, map_map]
    rfl
  · -- too few frames have come out
    have hfew := congrArg List.length hsame
    have hcount : (frames (List.replicate (m + 2) inp)).length = m + 2 := by
      rw [length_frames_replicate, hone, length_singleton, Nat.mul_one]
    have hmost := length_filterMap_le frameBytes (o.transmitted.take m)
    have honce : (frameBytes a).toList.length ≤ 1 := by
      cases frameBytes a <;> simp
    rw [hsent, List.length_append, length_map] at hfew
    omega

/-- The packet numbered 0 again overtakes the one numbered `2 ^ 64 - 1` on the other link,
and its frame is lost although everything has arrived. -/
theorem wrapped_number_loses_frame :
    ∃ b' inputs s', run (Balancer.push ordinaryFrame) (.roundRobin (.new (.new .eth)))
        (List.replicate (2 ^ 64 + 1) (.finding 0 0 [60])) = .ok b' ∧
      (∀ i, arrivedOn i inputs = sentOn i b'.lb) ∧
      Along (push ⟨.eth, fun _ => 1000, 204⟩) (Calm ⟨.eth, fun _ => 1000, 204⟩) .new inputs ∧
      run (push ⟨.eth, fun _ => 1000, 204⟩) .new inputs = .ok s' ∧ (∀ i, s'.buffer i = []) ∧
      delivered s' ≠ (frames (List.replicate (2 ^ 64 + 1) (.finding 0 0 [60]))).map bytes :=
  wrapped_frame_lost (m := 2 ^ 64 - 1) (by norm_num) (by norm_num) rfl (by decide)

end Wrap

end Snabb
