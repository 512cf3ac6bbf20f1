import Snabb.Foundation.TwoRuns
import Snabb.HybridAccess.Header

/-!
# Headers and the memory behind a packet (`HybridAccess:get_header`, `HybridAccessIp:get_header`)

`get_header` reads its fields at fixed offsets, whatever the length of the packet is, so the fields
of a short frame are what its memory holds from an earlier use.

- `getHeader_iff_determined`: for which packets the bytes decide what `get_header` says: one of the
  type bytes is another one, or all fields that are read are within the packet.
- `removeHeader_agree`: what `remove_header` makes of a packet is decided by its bytes alone.
-/

namespace Snabb

open Foundation List

namespace Packet

variable {p q : Packet}

/-- Packets with the same bytes have the same windows, up to the end of the packet. -/
theorem window_eq_of_bytes_eq (h : p.bytes = q.bytes) {k n : Nat} (hk : k + n ≤ p.length) :
    p.window k n = q.window k n := by
  have hlength : p.length = q.length := by rw [← length_bytes p, h, length_bytes]
  rw [window_eq_bytes p hk, window_eq_bytes q (hlength ▸ hk), h]

theorem length_eq_of_bytes_eq (h : p.bytes = q.bytes) : p.length = q.length := by
  rw [← length_bytes p, h, length_bytes]

theorem byte_eq_of_bytes_eq (h : p.bytes = q.bytes) {k : Nat} (hk : k < p.length) :
    p.byte k = q.byte k := by
  have hwindow := window_eq_of_bytes_eq h (show k + 1 ≤ p.length from hk)
  exact head_eq_of_cons_eq hwindow

/-- Behind the packet its memory may hold anything. -/
def withMemory (p : Packet) (behind : Nat → UInt8) : Packet :=
  { p with mem := fun a => if a < p.data + p.length then p.mem a else behind (a - p.data) }

theorem bytes_withMemory (p : Packet) (behind : Nat → UInt8) :
    (p.withMemory behind).bytes = p.bytes := by
  refine Mem.load_congr fun k hk => if_pos ?_
  have hk : k < p.length := hk
  show p.data + 0 + k < p.data + p.length
  omega

theorem byte_withMemory (p : Packet) (behind : Nat → UInt8) {k : Nat} (hk : p.length ≤ k) :
    (p.withMemory behind).byte k = behind k := by
  show (if p.data + k < p.data + p.length then _ else behind (p.data + k - p.data)) = _
  rw [if_neg (by omega), Nat.add_sub_cancel_left]

theorem bytes_write_front (p : Packet) (bs : List UInt8) :
    (p.write 0 bs).bytes = bs.take p.length ++ p.bytes.drop bs.length := by
  by_cases hle : bs.length ≤ p.length
  · have hsplit : p.length = bs.length + (p.length - bs.length) := by omega
    rw [take_of_length_le hle, drop_bytes p hle, bytes, write_length]
    nth_rewrite 1 [hsplit]
    rw [window_add, window_write_self p 0 bs rfl, window_write_disjoint p (.inr (by omega)),
      Nat.zero_add]
  · have hnone : p.bytes.drop bs.length = [] := drop_eq_nil_of_le (by rw [length_bytes]; omega)
    have hinside := window_write_inside p 0 0 p.length bs (by omega)
    rw [hnone, append_nil]
    exact hinside

end Packet

/-! ## What `get_header` reads -/

/-- The bytes that `get_header` looks at first, and what they are in a hybrid-access packet. -/
def Codec.typeBytes : Codec → List (Nat × UInt8)
  | eth => [(12, 0x94), (13, 0x44)]
  | ip _ => [(12, 0x08), (13, 0x00), (23, 0x94)]

namespace Codec

variable {c : Codec} {p q : Packet}

theorem haHeaderLen_le (c : Codec) : haHeaderLen ≤ c.shiftLength := by
  cases c with
  | eth => exact le_rfl
  | ip conf => exact Nat.le_add_right _ _

theorem typeBytes_spec (c : Codec) : ∀ t ∈ c.typeBytes,
    t.1 + 2 < etherHeaderLen + c.shiftLength ∧ (c.typeBytes.lookup t.1).getD 0 = t.2 := by
  cases c with
  | eth => decide
  | ip conf =>
    exact (by decide : ∀ t ∈ (ip ⟨none, none⟩).typeBytes,
      t.1 + 2 < etherHeaderLen + (ip ⟨none, none⟩).shiftLength ∧
        ((ip ⟨none, none⟩).typeBytes.lookup t.1).getD 0 = t.2)

theorem getEtherType_eq (p : Packet) :
    getEtherType p = (p.byte 12).toNat * 256 + (p.byte 13).toNat := by
  have hwindow : p.window (etherHeaderLen - 2) 2 = [p.byte 12, p.byte 13] := rfl
  have h₁ := (p.byte 12).toNat_lt
  have h₂ := (p.byte 13).toNat_lt
  rw [getEtherType, hwindow]
  simp only [leNat, ntohs, htons]
  omega

theorem getEtherType_eq_iff (p : Packet) (a b : UInt8) :
    getEtherType p = a.toNat * 256 + b.toNat ↔ p.byte 12 = a ∧ p.byte 13 = b := by
  have h₁ := (p.byte 13).toNat_lt
  have h₂ := b.toNat_lt
  rw [getEtherType_eq, ← UInt8.toNat_inj, ← UInt8.toNat_inj]
  omega

/-- `get_header` compares the type bytes, and reads the header behind the other headers. -/
theorem getHeader_eq (c : Codec) (p : Packet) :
    c.getHeader p = if ∀ t ∈ c.typeBytes, p.byte t.1 = t.2 then
      some (haHeaderAt p (etherHeaderLen + c.shiftLength - haHeaderLen)) else none := by
  cases c with
  | eth =>
    have htype : getEtherType p = hybridAccessEthType ↔ ∀ t ∈ eth.typeBytes, p.byte t.1 = t.2 := by
      rw [show hybridAccessEthType = (0x94 : UInt8).toNat * 256 + (0x44 : UInt8).toNat from rfl,
        getEtherType_eq_iff]
      simp [typeBytes]
    exact if_congr htype rfl rfl
  | ip conf =>
    have htype : getEtherType p = ipv4EthType ↔ p.byte 12 = 0x08 ∧ p.byte 13 = 0x00 := by
      rw [show ipv4EthType = (0x08 : UInt8).toNat * 256 + (0x00 : UInt8).toNat from rfl,
        getEtherType_eq_iff]
    have hprotocol : leNat (p.window (etherHeaderLen + HybridAccessIp.protocolOffset) 1) =
        hybridAccessIpType ↔ p.byte 23 = 0x94 := by
      rw [← UInt8.toNat_inj]
      rfl
    have hall : (∀ t ∈ (ip conf).typeBytes, p.byte t.1 = t.2) ↔
        getEtherType p = ipv4EthType ∧
          leNat (p.window (etherHeaderLen + HybridAccessIp.protocolOffset) 1) =
            hybridAccessIpType := by
      rw [htype, hprotocol]
      simp [typeBytes, and_assoc]
    rw [getHeader, HybridAccessIp.getHeader, if_congr hall rfl rfl]
    by_cases h₁ : getEtherType p = ipv4EthType
    · by_cases h₂ : leNat (p.window (etherHeaderLen + HybridAccessIp.protocolOffset) 1) =
          hybridAccessIpType
      · rw [if_neg (not_not.mpr h₁), if_neg (not_not.mpr h₂), if_pos ⟨h₁, h₂⟩]
        rfl
      · rw [if_neg (not_not.mpr h₁), if_pos h₂, if_neg fun h => h₂ h.2]
    · rw [if_pos h₁, if_neg fun h => h₁ h.1]

/-- The bytes of the packet decide what `get_header` says: one of them is not that of a
hybrid-access packet, or the header is in the packet, up to its unused last byte. -/
def Determined (c : Codec) (p : Packet) : Prop :=
  (∃ t ∈ c.typeBytes, t.1 < p.length ∧ p.byte t.1 ≠ t.2) ∨
    etherHeaderLen + c.shiftLength ≤ p.length + 1

theorem haHeaderAt_congr {offset : Nat}
    (h : p.window offset (haHeaderLen - 1) = q.window offset (haHeaderLen - 1)) :
    haHeaderAt p offset = haHeaderAt q offset := by
  have hsplit (r : Packet) : r.window offset haHeaderLen =
      r.window offset (haHeaderLen - 1) ++ r.window (offset + (haHeaderLen - 1)) 1 :=
    r.window_add offset (haHeaderLen - 1) 1
  have hread (r : Packet) (k n : Nat) (hk : k + n ≤ haHeaderLen - 1) :
      ((r.window offset haHeaderLen).drop k).take n =
        ((r.window offset (haHeaderLen - 1)).drop k).take n := by
    rw [hsplit, drop_append_of_le_length (by rw [Packet.length_window]; omega),
      take_append_of_le_length (by rw [length_drop, Packet.length_window]; omega)]
  have hseq := hread p 0 8 (by decide)
  have hseq' := hread q 0 8 (by decide)
  have hbuf := hread p 8 2 (by decide)
  have hbuf' := hread q 8 2 (by decide)
  have htype := hread p 10 1 (by decide)
  have htype' := hread q 10 1 (by decide)
  rw [drop_zero] at hseq hseq'
  rw [haHeaderAt, haHeaderAt, HaHeader.ofBytes, HaHeader.ofBytes, hseq, hseq', hbuf, hbuf', htype,
    htype', h]

theorem type_haHeaderAt (p : Packet) (offset : Nat) :
    (haHeaderAt p offset).type = (p.byte (offset + 10)).toNat := by
  have hwindow : ((p.window offset haHeaderLen).drop 10).take 1 = [p.byte (offset + 10)] := by
    rw [Packet.drop_window p (by decide), Packet.take_window p (by decide), Packet.window_one]
  rw [haHeaderAt, HaHeader.ofBytes, hwindow, leNat, leNat, Nat.add_zero]

theorem Determined.getHeader_eq (h : c.Determined p) (hbytes : p.bytes = q.bytes) :
    c.getHeader q = c.getHeader p := by
  rw [Codec.getHeader_eq, Codec.getHeader_eq]
  rcases h with ⟨t, ht, hlt, hother⟩ | hlen
  · have hother' : q.byte t.1 ≠ t.2 := by
      rwa [← Packet.byte_eq_of_bytes_eq hbytes hlt]
    rw [if_neg fun hall => hother' (hall t ht), if_neg fun hall => hother (hall t ht)]
  · have hheader : haHeaderAt p (etherHeaderLen + c.shiftLength - haHeaderLen) =
        haHeaderAt q (etherHeaderLen + c.shiftLength - haHeaderLen) := by
      refine haHeaderAt_congr (Packet.window_eq_of_bytes_eq hbytes ?_)
      have hshift := c.haHeaderLen_le
      simp only [haHeaderLen] at hshift ⊢
      omega
    have htypes : (∀ t ∈ c.typeBytes, q.byte t.1 = t.2) ↔
        ∀ t ∈ c.typeBytes, p.byte t.1 = t.2 := by
      refine forall₂_congr fun t ht => ?_
      rw [Packet.byte_eq_of_bytes_eq hbytes ?_]
      have := (c.typeBytes_spec t ht).1
      omega
    rw [if_congr htypes rfl rfl, hheader]

/-- **The header is decided by the bytes** of the packet exactly if a byte in the packet tells that
it has none or the header is in the packet. -/
theorem getHeader_iff_determined (c : Codec) (p : Packet) :
    (∀ q : Packet, q.bytes = p.bytes → c.getHeader q = c.getHeader p) ↔ c.Determined p := by
  constructor
  · intro hsame
    by_contra hnot
    rw [Determined, not_or] at hnot
    obtain ⟨hbytes, hshort⟩ := hnot
    push Not at hbytes
    -- Memory that completes the types, and has `v` where the type of the header is read.
    let behind v k : UInt8 :=
      if k = etherHeaderLen + c.shiftLength - 2 then v else (c.typeBytes.lookup k).getD 0
    have hheader v : c.getHeader (p.withMemory (behind v)) = some
        (haHeaderAt (p.withMemory (behind v)) (etherHeaderLen + c.shiftLength - haHeaderLen)) := by
      rw [getHeader_eq, if_pos]
      intro t ht
      by_cases hlt : t.1 < p.length
      · rw [← Packet.byte_eq_of_bytes_eq (p.bytes_withMemory _).symm hlt]
        exact hbytes t ht hlt
      · rw [p.byte_withMemory _ (by omega)]
        obtain ⟨hfront, hval⟩ := c.typeBytes_spec t ht
        exact (if_neg (by omega)).trans hval
    have htype v : (haHeaderAt (p.withMemory (behind v))
        (etherHeaderLen + c.shiftLength - haHeaderLen)).type = v.toNat := by
      have hoffset : etherHeaderLen + c.shiftLength - haHeaderLen + 10 =
          etherHeaderLen + c.shiftLength - 2 := by cases c <;> rfl
      rw [type_haHeaderAt, hoffset, p.byte_withMemory _ (by omega)]
      exact congrArg UInt8.toNat (if_pos rfl)
    have hboth := (hsame _ (p.bytes_withMemory (behind 0))).trans
      (hsame _ (p.bytes_withMemory (behind 1))).symm
    rw [hheader, hheader, Option.some.injEq] at hboth
    have htypes := congrArg HaHeader.type hboth
    rw [htype, htype] at htypes
    exact absurd htypes (by decide)
  · exact fun h q hbytes => h.getHeader_eq hbytes.symm

end Codec

/-! ## What `remove_header` makes of a packet -/

/-- Packets with the same bytes, in allocations that correspond. -/
structure Alike (B : Nat → Nat → Prop) (p q : Packet) : Prop where
  base : B p.base q.base
  bytes : p.bytes = q.bytes

variable {B : Nat → Nat → Prop} {p q : Packet}

theorem Alike.shiftleft (h : Alike B p q) (n : Nat) :
    Agree (Alike B) (· = ·) (p.shiftleft n) (q.shiftleft n) := by
  have hlength := Packet.length_eq_of_bytes_eq h.bytes
  by_cases hn : n ≤ p.length
  · obtain ⟨p', hp', hpbase, -, hpbytes⟩ := p.shiftleft_spec hn
    obtain ⟨q', hq', hqbase, -, hqbytes⟩ := q.shiftleft_spec (hlength ▸ hn)
    rw [hp', hq']
    exact .ok ⟨by rw [hpbase, hqbase]; exact h.base, by rw [hpbytes, hqbytes, h.bytes]⟩
  · rw [Packet.shiftleft, Packet.shiftleft, if_neg hn, if_neg (hlength ▸ hn)]
    exact .error rfl

theorem take_setEtherType (hbytes : p.bytes = q.bytes) {n : Nat} (hn : n ≤ p.length) (t : Nat) :
    (setEtherType (p.window 0 etherHeaderLen) t).take n =
      (setEtherType (q.window 0 etherHeaderLen) t).take n := by
  have haddresses : (p.window 0 (etherHeaderLen - 2)).take n =
      (q.window 0 (etherHeaderLen - 2)).take n := by
    by_cases hshort : n ≤ etherHeaderLen - 2
    · rw [Packet.take_window p hshort, Packet.take_window q hshort,
        Packet.window_eq_of_bytes_eq hbytes (by omega)]
    · rw [Packet.window_eq_of_bytes_eq hbytes (by omega)]
  rw [setEtherType, setEtherType, Packet.take_window p (by decide),
    Packet.take_window q (by decide), take_append, take_append, haddresses,
    Packet.length_window, Packet.length_window]

/-- **Decapsulation** is decided by the bytes of the packet. -/
theorem removeHeader_agree (c : Codec) (h : Alike B p q) (bufType : Nat) :
    Agree (Alike B) (· = ·) (c.removeHeader p bufType) (c.removeHeader q bufType) := by
  rw [Codec.removeHeader_eq, Codec.removeHeader_eq, HybridAccess.removeHeaderBy,
    HybridAccess.removeHeaderBy]
  have hshift := h.shiftleft c.shiftLength
  by_cases hlen : c.shiftLength ≤ p.length
  · obtain ⟨r, hr, -, hrlength, -⟩ := p.shiftleft_spec hlen
    rw [hr] at hshift ⊢
    generalize q.shiftleft c.shiftLength = x at hshift
    cases hshift with
    | @ok _ r' hshift =>
      refine .ok ⟨hshift.base, ?_⟩
      have hsame := Packet.length_eq_of_bytes_eq hshift.bytes
      rw [Packet.bytes_write_front, Packet.bytes_write_front, length_setEtherType,
        length_setEtherType, hshift.bytes, ← hsame,
        take_setEtherType h.bytes (by omega)]
  · rw [Packet.shiftleft, if_neg hlen] at hshift ⊢
    generalize q.shiftleft c.shiftLength = x at hshift
    cases hshift with
    | error hshift => exact .error hshift

end Snabb
