import Snabb.HybridAccess.Recombination.Model

/-!
# DDC packets

A load balancer makes a DDC packet from a frame and a number, and the recombination reads both the
kind and the number back from its header. In IP mode there is never such a packet, as its module
takes `packet.shiftleft` for `packet.allocate`.

- `makeDdcPacket_usable_iff`: the mode in which a DDC packet can be used.
-/

namespace Snabb

namespace Codec

open Recombination

/-- The recombination takes the packet from the head of its buffer for the DDC packet with the
number: the number is consumed, the packet freed, and nothing is emitted. -/
structure ConsumedAs (c : RecombinationConf) (i : LinkNo) (q : Packet) (seqNo : Nat)
    (s s' : Recombination) : Prop where
  returns : processPacket c i (c.hybridAccess.getHeader q) s = .ok s'
  nextSeqNo : s'.nextSeqNo = (seqNo + 1) % 2 ^ 64
  consumed : s'.consumed = s.consumed ++ [seqNo]
  freed : s'.freed = s.freed ++ [(i, q, .ddc)]
  sent : s'.sent = s.sent
  output : s'.output = s.output

/-- A fresh packet that has room for its headers, has the number and the type of a DDC packet in
them, and is consumed so wherever it is received. -/
structure Usable (c : Codec) (fresh q : Packet) (seqNo : Nat) : Prop where
  base : q.base = fresh.base
  covers : etherHeaderLen + c.shiftLength ≤ q.length
  header : ∃ h, c.getHeader q = some h ∧ h.seqNo = seqNo ∧ h.type = hybridAccessDdcType
  consumed : ∀ (conf : RecombinationConf) (i : LinkNo) (s : Recombination) (t : Nat)
    (rest : List TsPacket), conf.hybridAccess = c → s.buffer i = ⟨q, t⟩ :: rest →
      ∃ s', ConsumedAs conf i q seqNo s s'

theorem consumedAs_of_header {conf : RecombinationConf} {i : LinkNo} {s : Recombination}
    {q : Packet} {t : Nat} {rest : List TsPacket} {h : HaHeader}
    (hheader : conf.hybridAccess.getHeader q = some h) (htype : h.type = hybridAccessDdcType)
    (hbuffer : s.buffer i = ⟨q, t⟩ :: rest) : ∃ s', ConsumedAs conf i q h.seqNo s s' := by
  have hnot : h.type ≠ hybridAccessType := by
    rw [htype]
    decide
  refine ⟨{ (s.dequeue i).free i q .ddc with
    nextSeqNo := (h.seqNo + 1) % 2 ^ 64
    consumed := s.consumed ++ [h.seqNo] }, ?_, rfl, rfl, rfl, rfl, rfl⟩
  rw [hheader]
  unfold processPacket
  rw [hbuffer]
  dsimp only
  unfold deliver
  rw [if_neg hnot]
  rfl

/-- **DDC packets can be used** in Ethernet mode, and only there. -/
theorem makeDdcPacket_usable_iff (c : Codec) (fresh origPkt : Packet) (seqNo : UInt64) :
    (∃ q, c.makeDdcPacket fresh origPkt seqNo.toNat = .ok q ∧ Usable c fresh q seqNo.toNat) ↔
      c = .eth := by
  constructor
  · rintro ⟨q, hq, -⟩
    exact (getHeader_of_makeDdcPacket hq seqNo.toNat_lt).1
  · rintro rfl
    obtain ⟨q, hq⟩ : ∃ q, eth.makeDdcPacket fresh origPkt seqNo.toNat = .ok q := ⟨_, rfl⟩
    obtain ⟨-, hlength, hheader⟩ := getHeader_of_makeDdcPacket hq seqNo.toNat_lt
    have hbase : q.base = fresh.base := by
      cases hq
      rfl
    refine ⟨q, hq, hbase, hlength.ge, ⟨_, hheader, rfl, rfl⟩, fun conf i s t rest hconf hbuffer => ?_⟩
    rw [← hconf] at hheader
    exact consumedAs_of_header hheader rfl hbuffer

/-- No DDC packet is made of an ordinary frame in IP mode. -/
theorem ip_ddc_packet_raises :
    (ip ⟨none, none⟩).makeDdcPacket (ordinaryFrame 0) (ordinaryFrame 1) 7 = .error .compareNil ∧
      ¬ ∃ q, (ip ⟨none, none⟩).makeDdcPacket (ordinaryFrame 0) (ordinaryFrame 1) 7 = .ok q ∧
        Usable (ip ⟨none, none⟩) (ordinaryFrame 0) q 7 := by
  refine ⟨rfl, ?_⟩
  rintro ⟨q, hq, -⟩
  cases hq

end Codec

end Snabb
