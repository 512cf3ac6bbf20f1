import Snabb.Foundation.Lanes
import Snabb.HybridAccess.LoadBalancer.Discipline
import Snabb.HybridAccess.Recombination.Output

/-!
# The receiving end of a hybrid-access path

Two links carry the log of a load balancer to a recombination: every packet leaves on
the link it was sent to, in order and with its bytes, at any later time. The
recombination has no access to the log; it sees the heads of its two buffers.

`InTransit` is the invariant: the first `k` packets of the log have been consumed, in
the order of the log, and on every link the buffered packets and those still to arrive
are what the log holds for that link from position `k` on. So the packet at position
`k`, which is the expected one, is at the head of its link or has not arrived yet, and
the recombination either consumes it or waits (`InTransit.move`): it never finds a late
packet, an ordinary frame, or both links ahead of the expected number.
-/

namespace Snabb

open List Packet

namespace Recombination

open Foundation Relation

variable {c : RecombinationConf} {s s' : Recombination} {inp : PushInput} {i : LinkNo} {k : Nat}
  {log : List Tx} {is : List PushInput} {late : LinkNo → List (List UInt8)}

/-! ## What the receiver reads -/

/-- A packet is read as number `n`, and it delivers `frame`: a data packet the bytes of
its frame, a DDC packet nothing. -/
structure Carries (c : Codec) (q : Packet) (n : Nat) (frame : Option (List UInt8)) : Prop where
  header : ∃ h, c.getHeader q = some h ∧ h.seqNo = n ∧
    (h.type = hybridAccessType → ∃ r, c.removeHeader q h.bufType = .ok r ∧ frame = some r.bytes) ∧
    (h.type ≠ hybridAccessType → frame = none)

/-- The bytes of the frame of a log entry. -/
def frameBytes (tx : Tx) : Option (List UInt8) := tx.frame.map bytes

/-- Whoever shares its bytes with the packet at position `k` is read as number `k`. -/
def Readable (c : Codec) (log : List Tx) : Prop :=
  ∀ k tx, log[k]? = some tx → ∀ q : Packet, q.bytes = tx.packet.bytes →
    Carries c q k (frameBytes tx)

/-- Delivering a packet that carries a frame returns; unless the output link is full it
sends the frame. -/
theorem deliver_carries {p : Packet} {h : HaHeader} {n : Nat} {frame : Option (List UInt8)}
    (hcarries : Carries c.hybridAccess p n frame) (hhead : c.hybridAccess.getHeader p = some h) :
    h.seqNo = n ∧ ∃ s', deliver c i p h s = .ok s' ∧ s.freed <+: s'.freed ∧
      (s'.txdrops = s.txdrops →
        s'.sent.map (fun e => e.2.bytes) = s.sent.map (fun e => e.2.bytes) ++ frame.toList) := by
  obtain ⟨h', hget, hseq, hdata, hother⟩ := hcarries.header
  obtain rfl : h' = h := Option.mem_unique hget hhead
  refine ⟨hseq, ?_⟩
  by_cases ht : h'.type = hybridAccessType
  · obtain ⟨r, hr, rfl⟩ := hdata ht
    simp only [deliver, if_pos ht, hr]
    refine ⟨_, rfl, ?_, ?_⟩
    · rw [transmit]
      split
      · exact prefix_append _ _
      · exact prefix_refl _
    · rw [transmit]
      split
      · -- a packet that the full output link drops is recorded
        intro hsame
        have hlength := congrArg List.length hsame
        simp [txdrops, free] at hlength
      · intro _
        simp
  · rw [hother ht]
    simp only [deliver, if_neg ht]
    refine ⟨_, rfl, prefix_append _ _, ?_⟩
    intro _
    simp [free]

/-! ## The invariant -/

/-- The first `k` packets of the log are consumed; `late` has not arrived when the
inputs are used up. -/
structure InTransit (log : List Tx) (late : LinkNo → List (List UInt8)) (s : Recombination)
    (is : List PushInput) (k : Nat) : Prop where
  bound : k ≤ log.length
  next : s.nextSeqNo = k % 2 ^ 64
  lanes : ∀ i, (s.buffer i).map (fun p => p.packet.bytes) ++
    ((received i is).map bytes ++ late i) =
      (lane Tx.port i (log.drop k)).map fun tx => tx.packet.bytes
  sent : s.txdrops = [] → s.sent.map (fun e => e.2.bytes) = (log.take k).filterMap frameBytes

/-- The packet at the head of a buffer is the first one of its link in what is left of
the log. -/
theorem InTransit.head (h : InTransit log late s is k) {p : TsPacket} {rest : List TsPacket}
    (hbuf : s.buffer i = p :: rest) :
    ∃ m tx, k ≤ m ∧ log[m]? = some tx ∧ tx.port = i ∧ p.packet.bytes = tx.packet.bytes ∧
      (m = k ∨ ∀ tx', log[k]? = some tx' → tx'.port ≠ i) := by
  have hlane := h.lanes i
  rw [hbuf] at hlane
  obtain ⟨tx, rest', htx, hbytes, -⟩ := map_eq_cons_iff.mp hlane.symm
  obtain ⟨m, hkm, hm, hport, hnext⟩ := lane_eq_cons htx
  exact ⟨m, tx, hkm, hm, hport, hbytes.symm, hnext⟩

section Moves

variable (hread : Readable c.hybridAccess log) (hwrap : log.length ≤ 2 ^ 64)
include hread hwrap

variable {p : TsPacket} {rest : List TsPacket} {hd : HaHeader}

variable (h : InTransit log late s is k)
include h

section

variable (hbuf : s.buffer i = p :: rest)
include hbuf

/-- What is at the head of a buffer is a hybrid-access packet whose number is its
position, and it is not late. -/
theorem InTransit.headHeader :
    ∃ hd, c.hybridAccess.getHeader p.packet = some hd ∧ s.nextSeqNo ≤ hd.seqNo ∧
      (hd.seqNo = s.nextSeqNo → ∃ tx, log[k]? = some tx ∧ tx.port = i ∧
        p.packet.bytes = tx.packet.bytes) ∧
      (s.nextSeqNo < hd.seqNo → ∃ tx, log[k]? = some tx ∧ tx.port = i.other) := by
  obtain ⟨m, tx, hkm, hm, hport, hbytes, hnext⟩ := h.head hbuf
  obtain ⟨hd, hget, hseq, -, -⟩ := (hread m tx hm p.packet hbytes).header
  have hlt : m < log.length := (List.getElem?_eq_some_iff.mp hm).1
  have hexpected : s.nextSeqNo = k := by
    rw [h.next]
    exact Nat.mod_eq_of_lt (by omega)
  refine ⟨hd, hget, by omega, fun heq => ?_, fun hahead => ?_⟩
  · obtain rfl : m = k := by omega
    exact ⟨tx, hm, hport, hbytes⟩
  · obtain ⟨tx', htx'⟩ : ∃ tx', log[k]? = some tx' :=
      ⟨_, List.getElem?_eq_getElem (hkm.trans_lt hlt)⟩
    rcases hnext with rfl | hother
    · omega
    · exact ⟨tx', htx', LinkNo.eq_other_of_ne (hother tx' htx')⟩

variable (hhead : c.hybridAccess.getHeader p.packet = some hd)
include hhead

/-- `process_links` only ever consumes the packet at position `k`. -/
theorem InTransit.expected (hguard : LinksGuard c s i hd) :
    ∃ tx, log[k]? = some tx ∧ tx.port = i ∧ p.packet.bytes = tx.packet.bytes := by
  obtain ⟨hd', hget, -, hequal, hahead⟩ := h.headHeader hread hwrap hbuf
  obtain rfl : hd' = hd := Option.mem_unique hget hhead
  rcases hguard with heq | ⟨hlt, hd₂, hother, hlt₂, -⟩
  · exact hequal heq
  · -- both links ahead: the packet at position `k` would have to be on neither
    obtain ⟨p₂, rest₂, hbuf₂, hhead₂⟩ := headHeader_eq_some hother
    obtain ⟨hd₂', hget₂, -, -, hahead₂⟩ := h.headHeader hread hwrap hbuf₂
    obtain rfl : hd₂' = hd₂ := Option.mem_unique hget₂ hhead₂
    obtain ⟨tx, htx, hport⟩ := hahead hlt
    obtain ⟨tx₂, htx₂, hport₂⟩ := hahead₂ hlt₂
    obtain rfl : tx = tx₂ := Option.mem_unique htx htx₂
    rw [hport, LinkNo.other_other] at hport₂
    exact absurd hport₂ (LinkNo.other_ne i)

/-- **Consuming the expected packet** advances the position by one. -/
theorem InTransit.consume (hguard : LinksGuard c s i hd) :
    ∃ s', deliver c i p.packet hd (s.dequeue i) = .ok s' ∧ InTransit log late s' is (k + 1) := by
  obtain ⟨tx, htx, hport, hbytes⟩ := h.expected hread hwrap hbuf hhead hguard
  have hlt : k < log.length := (List.getElem?_eq_some_iff.mp htx).1
  obtain ⟨hseq, s', hok, hfreed, hsent⟩ :=
    deliver_carries (c := c) (i := i) (s := s.dequeue i) (hread k tx htx p.packet hbytes) hhead
  obtain ⟨hbuffer, hnext, -⟩ := deliver_ok hok
  refine ⟨s', hok, ⟨hlt, by rw [hnext, hseq], fun j => ?_, fun hdrops => ?_⟩⟩
  · have hlane := h.lanes j
    rw [hbuffer]
    by_cases hj : j = i
    · subst hj
      rw [hbuf, lane_drop_self htx hport] at hlane
      rw [dequeue_buffer_self, hbuf]
      exact (List.cons.inj hlane).2
    · rw [dequeue_buffer_of_ne s hj, hlane, lane_drop_of_ne htx (by rw [hport]; exact Ne.symm hj)]
  · -- what was dropped before is still recorded, so nothing was
    have hbefore : s.txdrops = [] := by
      have hsub := (hfreed.filter fun e => e.2.2 = .txdrop).sublist
      rw [← txdrops, ← txdrops, hdrops] at hsub
      exact sublist_nil.mp hsub
    have hone : (some tx).toList.filterMap frameBytes = (frameBytes tx).toList := by
      cases hframe : frameBytes tx <;> simp [hframe]
    have hsame : (s.dequeue i).sent = s.sent := rfl
    rw [hsent (hdrops.trans hbefore.symm), hsame, h.sent hbefore, take_add_one,
      filterMap_append, htx, hone]

end

/-- **A move of `process_links` consumes the next packet of the log.** -/
theorem InTransit.move (hmove : Move c (LinksGuard c) s s') : InTransit log late s' is (k + 1) := by
  cases hmove with
  | forward hbuf hhead =>
    obtain ⟨hd, hget, -⟩ := h.headHeader hread hwrap hbuf
    rw [hhead] at hget
    cases hget
  | discard hbuf hhead hlate =>
    obtain ⟨hd, hget, hle, -⟩ := h.headHeader hread hwrap hbuf
    obtain rfl := Option.mem_unique hget hhead
    omega
  | consume hbuf hhead hguard hok =>
    obtain ⟨s₁, hok₁, h₁⟩ := h.consume hread hwrap hbuf hhead hguard
    obtain rfl := ok_unique hok hok₁
    exact h₁

/-- `process_links` returns and keeps the invariant. -/
theorem InTransit.processLinks :
    ∃ t k', Recombination.processLinks c s = .ok t ∧ InTransit log late t is k' := by
  have hends := (processLinks_reaches c s).rule (P := fun s => ∃ k, InTransit log late s is k)
    (Q := fun _ => False) (fun s s' ⟨k, hk⟩ hmove => ⟨k + 1, hk.move hread hwrap hmove⟩)
    (fun s s' ⟨k, hk⟩ hfail => by
      cases hfail with
      | ordinary _ _ hT _ => exact hT
      | consume hbuf hhead hguard herr =>
        obtain ⟨s₁, hok, -⟩ := hk.consume hread hwrap hbuf hhead hguard
        rw [hok] at herr
        cases herr) ⟨k, h⟩
  revert hends
  cases Recombination.processLinks c s with
  | error e => exact fun hfalse => hfalse.elim
  | ok t =>
    rintro ⟨k', hk'⟩
    exact ⟨t, k', rfl, hk'⟩

end Moves

/-! ## Pushes and runs -/

/-- A push in which the recombination can take its time: the buffers have room for what
has arrived, nothing that `process_links` leaves in them is due, and the output link
has room for what is delivered. -/
structure Calm (c : RecombinationConf) (s : Recombination) (inp : PushInput) : Prop where
  room : ∀ i, (inp.input i).packets.length ≤ room (s.buffer i)
  waiting : ∀ i, ∀ p ∈ (final (processLinks c (fetched c s inp))).buffer i,
    inp.currentTime < p.timestamp
  output : (final (push c s inp)).txdrops.length = s.txdrops.length

instance (c : RecombinationConf) (s : Recombination) (inp : PushInput) :
    Decidable (Calm c s inp) :=
  decidable_of_iff (_ ∧ _ ∧ _) ⟨fun h => ⟨h.1, h.2.1, h.2.2⟩, fun h => ⟨h.room, h.waiting, h.output⟩⟩

theorem InTransit.fetched (h : InTransit log late s (inp :: is) k)
    (hroom : ∀ i, (inp.input i).packets.length ≤ room (s.buffer i)) :
    InTransit log late (Recombination.fetched c s inp) is k := by
  have hsent : (Recombination.fetched c s inp).sent = s.sent := by
    rw [fetched_eq]
  refine ⟨h.bound, ?_, fun i => ?_, ?_⟩
  · rw [fetched_nextSeqNo, h.next]
  · rw [fetched_buffer, present, take_of_length_le (hroom i), ← h.lanes i, received_cons]
    simp [Function.comp_def]
  · rw [fetched_txdrops, hsent]
    exact h.sent

/-- **A calm push** returns, loses nothing and keeps the invariant. -/
theorem InTransit.push (hread : Readable c.hybridAccess log) (hwrap : log.length ≤ 2 ^ 64)
    (h : InTransit log late s (inp :: is) k) (hdrops : s.txdrops = []) (hcalm : Calm c s inp) :
    ∃ s' k', Recombination.push c s inp = .ok s' ∧ s'.txdrops = [] ∧
      InTransit log late s' is k' := by
  obtain ⟨t, k', hlinks, ht⟩ := (h.fetched (c := c) hcalm.room).processLinks hread hwrap
  have hwaiting := hcalm.waiting
  rw [hlinks] at hwaiting
  have hpush : Recombination.push c s inp = .ok t := by
    rw [push_of_links hlinks]
    exact processTimeout_of_not_due hwaiting
  have hnone := hcalm.output
  rw [hpush, hdrops] at hnone
  exact ⟨t, k', hpush, eq_nil_of_length_eq_zero hnone, ht⟩

/-- **A calm run** returns. What it has sent are the frames of a beginning of the log;
it is the whole log when all has arrived and the buffers are empty. -/
theorem run_transparent (hread : Readable c.hybridAccess log) (hwrap : log.length ≤ 2 ^ 64)
    {inputs : List PushInput} (harrived : ∀ i, (received i inputs).map bytes <+:
      (lane Tx.port i log).map fun tx => tx.packet.bytes)
    (hcalm : Along (push c) (Calm c) .new inputs) :
    ∃ s', run (push c) .new inputs = .ok s' ∧
      s'.sent.map (fun e => e.2.bytes) <+: log.filterMap frameBytes ∧
      ((∀ i, (received i inputs).map bytes =
          (lane Tx.port i log).map fun tx => tx.packet.bytes) →
        (∀ i, s'.buffer i = []) →
        s'.sent.map (fun e => e.2.bytes) = log.filterMap frameBytes) := by
  -- `late` is what each link has not delivered by the end of the run
  choose late hlate using harrived
  have hstart : InTransit log late .new inputs 0 := ⟨Nat.zero_le _, rfl, hlate, fun _ => rfl⟩
  obtain ⟨s', hrun, hdrops, k, hend⟩ := run_total
    (I := fun s is => s.txdrops = [] ∧ ∃ k, InTransit log late s is k)
    (fun s inp is ⟨hdrops, k, hk⟩ hP => by
      obtain ⟨s', k', hpush, hdrops', hk'⟩ := hk.push hread hwrap hdrops hP
      exact ⟨s', hpush, hdrops', k', hk'⟩) ⟨rfl, 0, hstart⟩ hcalm
  refine ⟨s', hrun, ?_, fun hall hempty => ?_⟩
  · rw [hend.sent hdrops]
    exact (List.take_prefix k log).filterMap frameBytes
  · -- nothing is late and nothing is buffered, so no packet of the log is left
    have hnone : ∀ i, late i = [] := by
      intro i
      have hsame := hlate i
      rw [← hall i] at hsame
      exact append_right_eq_self.mp hsame
    have hlanes : ∀ i, lane Tx.port i (log.drop k) = [] := by
      intro i
      have hlane := hend.lanes i
      rw [hempty i, hnone i] at hlane
      exact map_eq_nil_iff.mp hlane.symm
    rw [hend.sent hdrops, take_of_length_le (drop_eq_nil_iff.mp (eq_nil_of_lanes hlanes))]

end Recombination

end Snabb
