import Snabb.Core.Payload
import Snabb.HybridAccess.Header
import Snabb.Lib.Ipsec.TrackSeqNo
import Mathlib.Data.Fintype.Vector
import Mathlib.Data.List.GetD

/-!
# ESP (`lib/ipsec/esp.lua`, `lib/ipsec/aes_gcm.lua`)

The sender appends a trailer (padding, its length and the next header) to the text of a packet,
encrypts text and trailer in place and puts an ESP header in front: the SPI, the low word of the
sequence number and an initialization vector. In transport mode this happens behind the
Ethernet and IPv6 headers of the packet, in tunnel mode to the whole packet. The receiver takes
the packet apart again, if `TrackSeqNo` lets it pass and the tag is right.

The cipher is assembly code; `Aead` is what is assumed of it. A function of the source that
works in place on `length` bytes at `ptr` is a function on this list of bytes here: the ESP
*frame*, which is what stands from the ESP header to the tag.

- `encapsulateTransport6_spec`, `encapsulateTunnel_spec`: where the sender puts what.
- `decryptPayload_frame`: the receiver accepts the frame and finds the text.
- `esp_round_trip`: **both modes give the packet back**.
-/

namespace Snabb

open Foundation List Packet

/-! ## The cipher -/

/-- The ciphers of `aes_gcm.lua`, with a key and an SPI. `gcmEnc` and `gcmDec` take the
initialization vector and the two words of the sequence number; they return the text they write
and the tag they compute. -/
structure Aead where
  gcmEnc : List UInt8 → Nat → Nat → List UInt8 → List UInt8 × List UInt8
  gcmDec : List UInt8 → Nat → Nat → List UInt8 → List UInt8 × List UInt8
  length_enc : ∀ iv low high text, (gcmEnc iv low high text).1.length = text.length
  length_dec : ∀ iv low high text, (gcmDec iv low high text).1.length = text.length
  length_tag : ∀ iv low high text, (gcmEnc iv low high text).2.length = 16
  dec_enc : ∀ iv low high text,
    gcmDec iv low high (gcmEnc iv low high text).1 = (text, (gcmEnc iv low high text).2)

/-- What sender and receiver share. -/
structure Esp where
  spi : Nat
  cipher : Aead

def ethernetSize : Nat := 14

def ipv6Size : Nat := 40

def espSize : Nat := 8

def espTailSize : Nat := 2

def ivSize : Nat := 8

def authSize : Nat := 16

/-- `PROTOCOL`. -/
def espProtocol : UInt8 := 50

def transport6PayloadOffset : Nat := ethernetSize + ipv6Size

/-- `padding`: `bit.band(-l, a-1)`. -/
def padding (a l : Nat) : Nat := (BitVec.ofInt 32 (-l) &&& BitVec.ofNat 32 (a - 1)).toNat

/-- `pad_to`. -/
def padTo : Nat := 4

def espCtextOverhead : Nat := ivSize + espTailSize

def espOverhead : Nat := espSize + espCtextOverhead + authSize

def minSize : Nat := espOverhead + padding padTo espOverhead

def ctextOffset : Nat := espSize + ivSize

def plainOverhead : Nat := espSize + ivSize + authSize

/-- Where `payload_length` and `next_header` of the IPv6 header stand in the packet. -/
def payloadLengthOffset : Nat := ethernetSize + 4

def nextHeaderOffset : Nat := ethernetSize + 6

/-- `htonl`, as the bytes in memory. -/
def beBytes (n : Nat) : List UInt8 := (leBytes 4 n).reverse

/-- `ntohl` of four bytes in memory. -/
def beNat (bs : List UInt8) : Nat := leNat bs.reverse

/-! ## The sender -/

namespace Esp

/-- `encrypt:next_seq_no`. -/
def nextSeqNo (seq : Nat) : Nat := (seq + 1) % 2 ^ 64

/-- `encrypt:padding`. -/
def encryptPadding (length : Nat) : Nat := padding padTo (length + espCtextOverhead)

/-- `encrypt:encode_esp_trailer`. -/
def encodeEspTrailer (p : Packet) (k : Nat) (nextHeader : UInt8) (padLength : Nat) : Packet :=
  p.write k [UInt8.ofNat padLength, nextHeader]

/-- `encrypt:encrypt_payload` with the sequence number that it has stepped to: what it leaves of
the text, and the tag behind it. -/
def encryptPayload (c : Esp) (seq : Nat) (text : List UInt8) : List UInt8 :=
  let enc := c.cipher.gcmEnc (leBytes ivSize seq) (lo32 seq) (hi32 seq) text
  enc.1 ++ enc.2

/-- What `encrypt:encode_esp_header` writes. -/
def espHeader (c : Esp) (seq : Nat) : List UInt8 :=
  beBytes c.spi ++ beBytes (lo32 seq) ++ leBytes ivSize seq

/-- `encrypt:encapsulate_transport6`: the sequence number and the packet. -/
def encapsulateTransport6 (c : Esp) (seq : Nat) (p : Packet) :
    Except Raise (Option (Nat × Packet)) :=
  if p.length < transport6PayloadOffset then .ok none
  else do
    let payload := transport6PayloadOffset
    let payloadLength := p.length - transport6PayloadOffset
    let padLength := encryptPadding payloadLength
    let overhead := espOverhead + padLength
    let p ← p.resize (p.length + overhead)
    let p := encodeEspTrailer p (payload + payloadLength + padLength) (p.byte nextHeaderOffset)
      padLength
    let ctextLength := payloadLength + padLength + espTailSize
    let seq := nextSeqNo seq
    let p := p.write payload (c.encryptPayload seq (p.window payload ctextLength))
    -- make room for the header
    let p := p.write (payload + espSize + ivSize) (p.window payload (ctextLength + authSize))
    let p := p.write payload (c.espHeader seq)
    let p := p.write nextHeaderOffset [espProtocol]
    let p := p.write payloadLengthOffset (leBytes 2 (htons (payloadLength + overhead)))
    return some (seq, p)

/-- `encrypt:encapsulate_tunnel`. -/
def encapsulateTunnel (c : Esp) (seq : Nat) (p : Packet) (nextHeader : UInt8) :
    Except Raise (Nat × Packet) := do
  let padLength := encryptPadding p.length
  let trailerOverhead := padLength + espTailSize + authSize
  let origLength := p.length
  let p ← p.resize (origLength + trailerOverhead)
  let p := encodeEspTrailer p (origLength + padLength) nextHeader padLength
  let ctextLength := origLength + padLength + espTailSize
  let seq := nextSeqNo seq
  let p := p.write 0 (c.encryptPayload seq (p.window 0 ctextLength))
  let p ← p.shiftright (espSize + ivSize)
  return (seq, p.write 0 (c.espHeader seq))

/-! ## The receiver -/

/-- The parts of a frame. -/
def frameIv (frame : List UInt8) : List UInt8 := (frame.drop espSize).take ivSize

def frameText (frame : List UInt8) : List UInt8 :=
  (frame.drop ctextOffset).take (frame.length - plainOverhead)

def frameTag (frame : List UInt8) : List UInt8 := frame.drop (frame.length - authSize)

/-- The frame with other text. -/
def withText (frame text : List UInt8) : List UInt8 :=
  frame.take ctextOffset ++ text ++ frameTag frame

/-- `aes_gcm:decrypt` on a frame, in place: the frame, and whether the tag is right. The
sequence number goes into 32-bit words. -/
def decryptFrame (c : Esp) (low high : Nat) (frame : List UInt8) : List UInt8 × Bool :=
  let dec := c.cipher.gcmDec (frameIv frame) low (high % 2 ^ 32) (frameText frame)
  (withText frame dec.1, dec.2 == frameTag frame)

/-- `aes_gcm:encrypt` on a frame that was decrypted in place; the tag goes elsewhere. -/
def undoFrame (c : Esp) (low high : Nat) (frame : List UInt8) : List UInt8 :=
  withText frame (c.cipher.gcmEnc (frameIv frame) low (high % 2 ^ 32) (frameText frame)).1

/-- The loop of `decrypt:resync`: the high word under which the frame is authentic, and the
frame decrypted. A frame that fails is copied back. -/
def resyncLoop (c : Esp) (low : Nat) (frame : List UInt8) : Nat → Nat → Option (Nat × List UInt8)
  | 0, _ => none
  | n + 1, seqHigh =>
    let dec := c.decryptFrame low (seqHigh + 1) frame
    if dec.2 then some (seqHigh + 1, dec.1) else resyncLoop c low frame n (seqHigh + 1)

/-- `decrypt:resync`. The copy is a packet, which does not hold more than `max_payload`. -/
def resync (c : Esp) (conf : ReceiverConf) (r : Receiver) (low : Nat) (seqHigh : Int)
    (frame : List UInt8) : Except Raise (Option (Nat × List UInt8)) :=
  if frame.length ≤ maxPayload then
    if seqHigh < 0 then .ok (c.resyncLoop low frame conf.resyncAttempts (hi32 r.seqNo))
    else
      .ok (c.resyncLoop low (c.undoFrame low seqHigh.toNat frame) conf.resyncAttempts
        seqHigh.toNat)
  else .error .assertionFailed

/-- The end of `decrypt:decrypt_payload`: the frame, the length of the text without its trailer
and the next header. -/
def decrypted (frame : List UInt8) : List UInt8 × Int × UInt8 :=
  let text := frameText frame
  let padLength := (text.getD (text.length - espTailSize) 0).toNat
  -- the two lengths are not compared
  (frame, (text.length : Int) - padLength - espTailSize, text.getD (text.length - 1) 0)

/-- `decrypt:decrypt_payload`. -/
def decryptPayload (c : Esp) (conf : ReceiverConf) (r : Receiver) (frame : List UInt8) :
    Except Raise (Receiver × Option (List UInt8 × Int × UInt8)) := do
  let low := beNat ((frame.drop 4).take 4)
  let seqHigh := checkSeqNo low r.seqNo r.window conf.windowSize
  let dec := c.decryptFrame low seqHigh.toNat frame
  if 0 ≤ seqHigh ∧ dec.2 then
    return (r.track conf seqHigh.toNat low, some (decrypted dec.1))
  else if conf.resyncThreshold < r.decapFail + 1 then
    -- a packet that looked replayed was not decrypted
    match ← c.resync conf r low seqHigh (if seqHigh < 0 then frame else dec.1) with
    | some (high, frame) => return (r.track conf (high % 2 ^ 32) low, some (decrypted frame))
    | none => return ({ r with decapFail := r.decapFail + 1 }, none)
  else
    return ({ r with decapFail := r.decapFail + 1 }, none)

/-- What can go wrong in a decapsulation. -/
inductive DecapError where
  | raise (e : Raise)
  /-- `memmove` with a negative length. -/
  | memoryFault
deriving DecidableEq, Repr

def liftRaise {α : Type} : Except Raise α → Except DecapError α
  | .ok a => .ok a
  | .error e => .error (.raise e)

/-- The end of `decrypt:decapsulate_transport6`, with the frame decrypted in place. -/
def openTransport6 (p : Packet) (frame : List UInt8) (ptextLength : Int) (nextHeader : UInt8) :
    Except DecapError Packet :=
  let payload := transport6PayloadOffset
  let p := p.write payload frame
  let p := p.write nextHeaderOffset [nextHeader]
  let p := p.write payloadLengthOffset (leBytes 2 (htons ptextLength.toNat))
  if ptextLength < 0 then .error .memoryFault
  else
    let p := p.write payload (p.window (payload + ctextOffset) ptextLength.toNat)
    liftRaise (p.resize (transport6PayloadOffset + ptextLength.toNat))

/-- `decrypt:decapsulate_transport6`. -/
def decapsulateTransport6 (c : Esp) (conf : ReceiverConf) (r : Receiver) (p : Packet) :
    Except DecapError (Receiver × Option Packet) :=
  if p.length < transport6PayloadOffset + minSize then .ok (r, none)
  else do
    let payload := transport6PayloadOffset
    let payloadLength := p.length - transport6PayloadOffset
    match ← liftRaise (c.decryptPayload conf r (p.window payload payloadLength)) with
    | (r, none) => return (r, none)
    | (r, some (frame, ptextLength, nextHeader)) =>
      let p ← openTransport6 p frame ptextLength nextHeader
      return (r, some p)

/-- `packet.resize` to a length that may be negative: the length field is 16 bits wide. -/
def resizeInt (p : Packet) (len : Int) : Except Raise Packet :=
  if len < 0 then .ok (p.setLength (len % 2 ^ 16).toNat) else p.resize len.toNat

/-- The end of `decrypt:decapsulate_tunnel`, with the frame decrypted in place. -/
def openTunnel (p : Packet) (frame : List UInt8) (ptextLength : Int) : Except Raise Packet := do
  let p ← (p.write 0 frame).shiftleft ctextOffset
  resizeInt p ptextLength

/-- `decrypt:decapsulate_tunnel`. -/
def decapsulateTunnel (c : Esp) (conf : ReceiverConf) (r : Receiver) (p : Packet) :
    Except DecapError (Receiver × Option (Packet × UInt8)) :=
  if p.length < minSize then .ok (r, none)
  else do
    match ← liftRaise (c.decryptPayload conf r p.bytes) with
    | (r, none) => return (r, none)
    | (r, some (frame, ptextLength, nextHeader)) =>
      let p ← liftRaise (openTunnel p frame ptextLength)
      return (r, some (p, nextHeader))

end Esp

/-! ## Lengths and windows -/

theorem padding_spec (l : Nat) : padding padTo l < 4 ∧ (l + padding padTo l) % 4 = 0 := by
  have hmask : (BitVec.ofNat 32 (padTo - 1)).toNat = 2 ^ 2 - 1 := rfl
  rw [padding, BitVec.toNat_and, hmask, Nat.and_two_pow_sub_one_eq_mod, BitVec.toNat_ofInt]
  omega

namespace Packet

theorem window_setLength (p : Packet) (len k n : Nat) :
    (p.setLength len).window k n = p.window k n := by
  rw [setLength, window_place]
  rfl

variable {p q : Packet} {len : Nat}

/-- `resize` fills what it adds with zeros, and keeps the rest. -/
theorem resize_eq_ok (h : p.resize len = .ok q) :
    q.length = len ∧ (∀ k n, k + n ≤ p.length → q.window k n = p.window k n) ∧
      ∀ d, p.length + d ≤ len → q.window p.length d = List.replicate d 0 := by
  rw [resize] at h
  split at h
  · next hle =>
    cases h
    refine ⟨Nat.mod_eq_of_lt (by simp only [maxPayload] at hle; omega), ?_, ?_⟩
    · intro k n hin
      rw [window_setLength, window_write_disjoint p (.inl hin)]
    · intro d hd
      have hinside := window_write_inside p p.length 0 d (List.replicate (len - p.length) 0)
        (by rw [length_replicate]; omega)
      rw [Nat.add_zero, drop_zero, take_replicate, Nat.min_eq_left (by omega)] at hinside
      rw [window_setLength, hinside]
  · cases h

theorem resize_isOk {p : Packet} (h : len ≤ maxPayload) : ∃ q, p.resize len = .ok q :=
  ⟨_, if_pos h⟩

/-- `shiftright` puts the payload behind the new bytes, whichever path it takes. -/
theorem shiftright_eq_ok {n : Nat} (h : p.shiftright n = .ok q)
    (hlt : p.length + n < 2 ^ 16) : q.length = p.length + n ∧ q.window n p.length = p.bytes := by
  by_cases hmoves : p.movesPointer n
  · have hle := hmoves.1
    rw [movesPointer] at hmoves
    rw [shiftright, dif_pos hmoves] at h
    cases h
    refine ⟨Nat.mod_eq_of_lt hlt, ?_⟩
    rw [window_place, bytes, window, data]
    congr 1
    omega
  · by_cases hfits : p.length + n ≤ maxPayload
    · obtain ⟨q', hq', -, hlen, hwindow⟩ := shiftright_spec p hfits
      rw [h] at hq'
      cases hq'
      exact ⟨hlen, hwindow⟩
    · rw [shiftright_slow hmoves (by omega)] at h
      cases h

theorem window_congr (h : q.bytes = p.bytes) {k n : Nat} (hin : k + n ≤ p.length) :
    q.window k n = p.window k n := by
  have hlen : q.length = p.length := by simpa using congrArg List.length h
  rw [window_eq_bytes q (by omega), window_eq_bytes p hin, h]

end Packet

/-! ## What the sender makes -/

namespace Esp

/-- What stands behind the text before it is encrypted. -/
def trailer (padLength : Nat) (nextHeader : UInt8) : List UInt8 :=
  List.replicate padLength 0 ++ [UInt8.ofNat padLength, nextHeader]

/-- The frame that carries a text. -/
def frame (c : Esp) (seq : Nat) (text : List UInt8) : List UInt8 :=
  c.espHeader seq ++ c.encryptPayload seq text

theorem length_trailer (padLength : Nat) (nextHeader : UInt8) :
    (trailer padLength nextHeader).length = padLength + 2 := by
  rw [trailer, List.length_append, length_replicate]
  rfl

theorem length_espHeader (c : Esp) (seq : Nat) : (c.espHeader seq).length = 16 := by
  simp only [espHeader, beBytes, List.length_append, length_reverse, length_leBytes, ivSize]

theorem length_encryptPayload (c : Esp) (seq : Nat) (text : List UInt8) :
    (c.encryptPayload seq text).length = text.length + 16 := by
  rw [encryptPayload, List.length_append, c.cipher.length_enc, c.cipher.length_tag]

/-- A packet that was resized holds text and trailer, once the trailer is encoded. -/
theorem window_trailer {p q : Packet} {len k padLength : Nat} (nextHeader : UInt8)
    (hq : p.resize len = .ok q) (hk : k ≤ p.length) (hlen : p.length + padLength ≤ len) :
    (encodeEspTrailer q (p.length + padLength) nextHeader padLength).window k
        (p.length - k + padLength + 2) =
      p.window k (p.length - k) ++ trailer padLength nextHeader := by
  obtain ⟨-, hkept, hzero⟩ := resize_eq_ok hq
  have hend : k + (p.length - k + padLength) = p.length + padLength := by omega
  have hmid : k + (p.length - k) = p.length := by omega
  have htail : (q.write (p.length + padLength) [UInt8.ofNat padLength, nextHeader]).window
      (p.length + padLength) 2 = [UInt8.ofNat padLength, nextHeader] :=
    window_write_self q _ _ rfl
  rw [encodeEspTrailer, window_add, hend, htail,
    window_write_disjoint q (.inl (Nat.le_of_eq hend)), window_add, hmid,
    hkept k _ (Nat.le_of_eq hmid), hzero _ hlen, trailer, append_assoc]

variable {c : Esp} {seq seq' : Nat} {p e : Packet} {nextHeader : UInt8} {n : Nat} {p e : Packet}

/-- The last steps of `encapsulate_transport6`: the encrypted text is moved, and the headers are
written in front of it. -/
theorem window_sealed {body header next payloadLength : List UInt8}
    (he : ((((p.write 54 body).write 70 ((p.write 54 body).window 54 n)).write 54 header).write 20
      next).write 18 payloadLength = e)
    (hn : body.length = n) (hheader : header.length = 16) (hnext : next.length = 1)
    (hlength : payloadLength.length = 2) :
    e.length = p.length ∧ e.window 0 18 = p.window 0 18 ∧ e.window 21 33 = p.window 21 33 ∧
      e.window 54 (16 + n) = header ++ body := by
  subst hn he
  refine ⟨rfl, ?_, ?_, ?_⟩
  · rw [window_write_disjoint _ (.inl (by omega)),
      window_write_disjoint _ (.inl (by omega)),
      window_write_disjoint _ (.inl (by omega)),
      window_write_disjoint _ (.inl (by omega)),
      window_write_disjoint _ (.inl (by omega))]
  · rw [window_write_disjoint _ (.inr (by omega)),
      window_write_disjoint _ (.inr (by omega)),
      window_write_disjoint _ (.inl (by omega)),
      window_write_disjoint _ (.inl (by omega)),
      window_write_disjoint _ (.inl (by omega))]
  · rw [window_write_disjoint _ (.inr (by omega)),
      window_write_disjoint _ (.inr (by omega)), window_add,
      window_write_self _ _ _ hheader.symm,
      window_write_disjoint _ (.inr (by omega)),
      window_write_self p 54 body rfl, window_write_self _ _ _ rfl]

/-- **Transport mode**: behind the headers stands the frame of text and trailer. -/
theorem encapsulateTransport6_spec (h : c.encapsulateTransport6 seq p = .ok (some (seq', e))) :
    ∃ padLength, padLength < 4 ∧ 2 ≤ p.length - 54 + padLength ∧ 54 ≤ p.length ∧
      p.length ≤ maxPayload ∧ seq' = nextSeqNo seq ∧ e.length = p.length + 34 + padLength ∧
      e.window 0 18 = p.window 0 18 ∧ e.window 21 33 = p.window 21 33 ∧
      e.window 54 (e.length - 54) =
        c.frame seq' (p.window 54 (p.length - 54) ++ trailer padLength (p.byte 20)) := by
  rw [encapsulateTransport6] at h
  by_cases hshort : p.length < transport6PayloadOffset
  · rw [if_pos hshort] at h
    cases h
  rw [if_neg hshort] at h
  obtain ⟨q, hq, h⟩ := bind_eq_ok h
  obtain ⟨rfl, he⟩ := Prod.mk.inj (Option.some.inj (Except.ok.inj h))
  replace hshort : 54 ≤ p.length := Nat.not_lt.mp hshort
  obtain ⟨hpad, hmult⟩ := padding_spec (p.length - 54 + 10)
  generalize hpadLength : padding padTo (p.length - 54 + 10) = padLength at hpad hmult
  have hpadding : encryptPadding (p.length - transport6PayloadOffset) = padLength := hpadLength
  rw [hpadding] at hq he
  replace hq : p.resize (p.length + (34 + padLength)) = .ok q := hq
  obtain ⟨hlen, hkept, -⟩ := resize_eq_ok hq
  have hmax := length_resize hq
  -- the packet with the trailer, and what the cipher makes of it
  have hbyte : q.byte nextHeaderOffset = p.byte 20 :=
    head_eq_of_cons_eq (hkept 20 1 (by omega))
  have hfits : p.length + padLength ≤ p.length + (34 + padLength) := by omega
  have htext := window_trailer (p.byte 20) hq hshort hfits
  have hoffset : transport6PayloadOffset + (p.length - transport6PayloadOffset) + padLength =
      p.length + padLength := by
    show 54 + (p.length - 54) + padLength = p.length + padLength
    omega
  rw [hbyte, hoffset] at he
  generalize hq' : encodeEspTrailer q (p.length + padLength) (p.byte 20) padLength = q' at htext he
  have hkept' : ∀ k n, k + n ≤ p.length → q'.window k n = p.window k n := by
    intro k n hin
    rw [← hq', encodeEspTrailer, window_write_disjoint q (.inl (by omega)), hkept k n hin]
  have hlen' : q'.length = q.length := by
    rw [← hq', encodeEspTrailer, write_length]
  obtain ⟨hlength, hfront, hback, hframe⟩ := window_sealed he
    ((length_encryptPayload c _ _).trans (congrArg (· + 16) (length_window _ _ _)))
    (length_espHeader c _) rfl (length_leBytes 2 _)
  refine ⟨padLength, hpad, by omega, hshort, by omega, rfl, by omega,
    hfront.trans (hkept' 0 18 (by omega)), hback.trans (hkept' 21 33 (by omega)), ?_⟩
  rw [← htext, show e.length - 54 = 16 + (p.length - 54 + padLength + 2 + 16) by omega]
  exact hframe

/-- **Tunnel mode**: the packet is the frame of its payload and the trailer. -/
theorem encapsulateTunnel_spec (h : c.encapsulateTunnel seq p nextHeader = .ok (seq', e)) :
    ∃ padLength, padLength < 4 ∧ 2 ≤ p.length + padLength ∧ p.length ≤ maxPayload ∧
      seq' = nextSeqNo seq ∧ e.length = p.length + 34 + padLength ∧
      e.bytes = c.frame seq' (p.bytes ++ trailer padLength nextHeader) := by
  obtain ⟨q, hq, h⟩ := bind_eq_ok h
  obtain ⟨hpad, hmult⟩ := padding_spec (p.length + 10)
  generalize hpadLength : padding padTo (p.length + 10) = padLength at hpad hmult
  have hpadding : encryptPadding p.length = padLength := hpadLength
  rw [hpadding] at hq h
  replace hq : p.resize (p.length + (padLength + 2 + 16)) = .ok q := hq
  obtain ⟨hlen, -, -⟩ := resize_eq_ok hq
  have hmax := length_resize hq
  have hfits : p.length + padLength ≤ p.length + (padLength + 2 + 16) := by omega
  have htext := window_trailer nextHeader hq (Nat.zero_le _) hfits
  generalize hq' : encodeEspTrailer q (p.length + padLength) nextHeader padLength = q' at htext h
  have hlen' : q'.length = q.length := by
    rw [← hq', encodeEspTrailer, write_length]
  obtain ⟨q'', hshift, h⟩ := bind_eq_ok h
  cases h
  replace hshift : (q'.write 0 (c.encryptPayload (nextSeqNo seq)
      (q'.window 0 (p.length + padLength + 2)))).shiftright 16 = .ok q'' := hshift
  rw [Nat.sub_zero] at htext
  rw [htext] at hshift
  obtain ⟨hshifted, hbehind⟩ := shiftright_eq_ok hshift
    (by rw [write_length]; simp only [maxPayload] at hmax; omega)
  rw [write_length] at hshifted hbehind
  have hbody : (c.encryptPayload (nextSeqNo seq) (p.window 0 p.length ++
      trailer padLength nextHeader)).length = q'.length := by
    rw [length_encryptPayload, List.length_append, length_window, length_trailer]
    omega
  refine ⟨padLength, hpad, by omega, by omega, rfl, ?_, ?_⟩
  · rw [write_length]
    omega
  · rw [bytes, write_length, hshifted, Nat.add_comm, window_add,
      window_write_self q'' 0 _ (length_espHeader c _).symm,
      window_write_disjoint q'' (.inr (by rw [length_espHeader])), hbehind, bytes, write_length,
      window_write_self q' 0 _ hbody.symm]
    rfl

/-! ## What the receiver finds -/

/-- Sender and receiver are synchronized: the next number is within the receiver's reach, and
was not accepted before. -/
structure Synchronized (conf : ReceiverConf) (seq : Nat) (r : Receiver) : Prop where
  tracks : r.Tracks conf
  window : r.seqNo < seq + 1 + conf.windowSize
  reach : seq + 1 + conf.windowSize ≤ r.seqNo + 2 ^ 32
  new : seq + 1 ∉ r.accepted
  below : seq + 1 < 2 ^ 64 - 2 ^ 32

theorem length_beBytes (n : Nat) : (beBytes n).length = 4 := by
  rw [beBytes, length_reverse, length_leBytes]

theorem beNat_beBytes (h : n < 2 ^ 32) : beNat (beBytes n) = n := by
  rw [beNat, beBytes, reverse_reverse, leNat_leBytes]
  exact Nat.mod_eq_of_lt h

section Parts

variable {header text tag : List UInt8}

theorem take_frame (hheader : header.length = 16) :
    (header ++ (text ++ tag)).take ctextOffset = header :=
  take_left' hheader

theorem frameText_frame (hheader : header.length = 16) (htag : tag.length = 16) :
    frameText (header ++ (text ++ tag)) = text := by
  have hlen : (header ++ (text ++ tag)).length - plainOverhead = text.length := by
    rw [List.length_append, List.length_append, hheader, htag]
    show 16 + (text.length + 16) - 32 = text.length
    omega
  have hdrop : (header ++ (text ++ tag)).drop ctextOffset = text ++ tag := drop_left' hheader
  rw [frameText, hlen, hdrop, take_left' rfl]

theorem frameTag_frame (htag : tag.length = 16) : frameTag (header ++ (text ++ tag)) = tag := by
  rw [← append_assoc]
  refine drop_left' ?_
  have hlen : (header ++ text ++ tag).length = (header ++ text).length + 16 := by
    rw [List.length_append, htag]
  rw [hlen]
  exact (Nat.add_sub_cancel _ 16).symm

theorem withText_frame (hheader : header.length = 16) (htag : tag.length = 16)
    (text' : List UInt8) : withText (header ++ (text ++ tag)) text' = header ++ (text' ++ tag) := by
  rw [withText, take_frame hheader, frameTag_frame htag, append_assoc]

theorem decrypted_frame (hheader : header.length = 16) (htag : tag.length = 16)
    (body : List UInt8) {padLength : Nat} (hpad : padLength < 4) (nextHeader : UInt8) :
    decrypted (header ++ ((body ++ trailer padLength nextHeader) ++ tag)) =
      (header ++ ((body ++ trailer padLength nextHeader) ++ tag), (body.length : Int),
        nextHeader) := by
  have hlen : (body ++ trailer padLength nextHeader).length = body.length + padLength + 2 := by
    rw [List.length_append, length_trailer, Nat.add_assoc]
  have hfront : (body ++ List.replicate padLength (0 : UInt8)).length = body.length + padLength := by
    rw [List.length_append, length_replicate]
  have hpadLength : (body ++ trailer padLength nextHeader).getD (body.length + padLength) 0 =
      UInt8.ofNat padLength := by
    rw [trailer, ← append_assoc, getD_append_right _ _ _ _ (Nat.le_of_eq hfront), hfront,
      Nat.sub_self]
    rfl
  have hnext : (body ++ trailer padLength nextHeader).getD (body.length + padLength + 1) 0 =
      nextHeader := by
    rw [trailer, ← append_assoc, getD_append_right _ _ _ _ (by omega), hfront,
      Nat.add_sub_cancel_left]
    rfl
  have hbyte : (UInt8.ofNat padLength).toNat = padLength := by
    rw [UInt8.toNat_ofNat', Nat.mod_eq_of_lt (by omega)]
  rw [decrypted, frameText_frame hheader htag, hlen]
  simp only [espTailSize, Nat.add_sub_cancel]
  rw [hpadLength]
  congr 2
  omega

end Parts

theorem decryptPayload_authentic {conf : ReceiverConf} {r : Receiver} {frame : List UInt8}
    (low high : Nat) (hlow : beNat ((frame.drop 4).take 4) = low)
    (hcheck : checkSeqNo low r.seqNo r.window conf.windowSize = high)
    (hdec : (c.decryptFrame low high frame).2 = true) :
    c.decryptPayload conf r frame =
      .ok (r.track conf high low, some (decrypted (c.decryptFrame low high frame).1)) := by
  rw [decryptPayload]
  simp only [hlow, hcheck]
  rw [if_pos ⟨Int.natCast_nonneg _, hdec⟩]
  rfl

/-- **A frame is accepted** and decrypted by a receiver that is synchronized with its sender. -/
theorem decryptPayload_frame {conf : ReceiverConf} {r : Receiver} (c : Esp)
    (hW : 0 < conf.windowSize) (hW' : conf.windowSize < 2 ^ 31) {seq : Nat}
    (h : Synchronized conf seq r) (body : List UInt8) {padLength : Nat} (hpad : padLength < 4)
    (nextHeader : UInt8) :
    ∃ header tag, header.length = 16 ∧ tag.length = 16 ∧
      c.decryptPayload conf r (c.frame (seq + 1) (body ++ trailer padLength nextHeader)) =
        .ok (r.track conf (hi32 (seq + 1)) (lo32 (seq + 1)),
          some (header ++ ((body ++ trailer padLength nextHeader) ++ tag), (body.length : Int),
            nextHeader)) := by
  have hheader := length_espHeader c (seq + 1)
  have htag := c.cipher.length_tag (leBytes ivSize (seq + 1)) (lo32 (seq + 1)) (hi32 (seq + 1))
    (body ++ trailer padLength nextHeader)
  refine ⟨_, _, hheader, htag, ?_⟩
  have hcheck := h.tracks.checkSeqNo_eq hW hW' h.below h.window h.reach h.new
  generalize hn : seq + 1 = n at *
  have hlo : lo32 n < 2 ^ 32 := Nat.mod_lt n (by decide)
  have hlow : beNat (((c.frame n (body ++ trailer padLength nextHeader)).drop 4).take 4) =
      lo32 n := by
    rw [frame, espHeader, append_assoc, append_assoc,
      drop_left' (length_beBytes c.spi), take_left' (length_beBytes (lo32 n)),
      beNat_beBytes hlo]
  have hiv : frameIv (c.frame n (body ++ trailer padLength nextHeader)) = leBytes ivSize n := by
    have hwords : (beBytes c.spi ++ beBytes (lo32 n)).length = espSize := by
      rw [List.length_append]
      rfl
    rw [frameIv, frame, espHeader, append_assoc, drop_left' hwords,
      take_left' (length_leBytes _ _)]
  have hhigh : hi32 n % 2 ^ 32 = hi32 n := Nat.mod_eq_of_lt (by
    have := h.below
    simp only [hi32]
    omega)
  have hdec : c.decryptFrame (lo32 n) (hi32 n) (c.frame n (body ++ trailer padLength nextHeader)) =
      (c.espHeader n ++ ((body ++ trailer padLength nextHeader) ++ (c.cipher.gcmEnc
        (leBytes ivSize n) (lo32 n) (hi32 n) (body ++ trailer padLength nextHeader)).2), true) := by
    rw [decryptFrame, hiv, hhigh, frame, encryptPayload, frameText_frame hheader htag,
      c.cipher.dec_enc, withText_frame hheader htag, frameTag_frame htag, beq_self_eq_true]
  rw [decryptPayload_authentic _ _ hlow hcheck (by rw [hdec]), hdec,
    decrypted_frame hheader htag body hpad]

/-! ## Frames and sequence numbers -/

/-! ## Decapsulation -/

/-- The last steps of `decapsulate_transport6`: the fields of the IPv6 header are written, and
the text is moved up behind it. -/
theorem window_opened {header body rest next payloadLength : List UInt8}
    (he : ((p.write 54 (header ++ (body ++ rest))).write 20 next).write 18 payloadLength = e)
    (hn : body.length = n) (hheader : header.length = 16) (hnext : next.length = 1)
    (hlength : payloadLength.length = 2) :
    (e.write 54 (e.window 70 n)).window 0 (54 + n) =
      p.window 0 18 ++ payloadLength ++ next ++ p.window 21 33 ++ body := by
  have hbody : e.window 70 n = body := by
    rw [← he, window_write_disjoint _ (.inr (by omega)),
      window_write_disjoint _ (.inr (by omega)), show 70 = 54 + 16 from rfl,
      window_write_inside _ _ _ _ _ (by simp only [List.length_append]; omega),
      drop_left' hheader, take_left' hn]
  have hfront : e.window 0 54 = p.window 0 18 ++ payloadLength ++ next ++ p.window 21 33 := by
    rw [show 54 = 18 + 2 + 1 + 33 from rfl, window_add, window_add, window_add,
      ← he, window_write_self _ 18 _ hlength.symm,
      window_write_disjoint _ (.inl (by omega)),
      window_write_disjoint _ (.inl (by omega)),
      window_write_disjoint _ (.inl (by omega)),
      window_write_disjoint _ (.inr (by omega)), window_write_self _ 20 _ hnext.symm,
      window_write_disjoint _ (.inr (by omega)),
      window_write_disjoint _ (.inr (by omega)),
      window_write_disjoint _ (.inl (by omega))]
  rw [hbody, window_add, window_write_disjoint e (.inl (by omega)), hfront,
    window_write_self e _ _ hn.symm]


theorem openTransport6_eq {frame : List UInt8}
    (he : ((p.write 54 frame).write 20 [nextHeader]).write 18 (leBytes 2 (htons n)) = e) :
    openTransport6 p frame n nextHeader =
      liftRaise ((e.write 54 (e.window 70 n)).resize (54 + n)) := by
  have hlength : ¬ (n : Int) < 0 := Int.not_lt.mpr (Int.natCast_nonneg n)
  subst he
  simp only [openTransport6]
  rw [if_neg hlength]
  rfl

variable {conf : ReceiverConf} {r r' : Receiver} {q p' : Packet} {body text : List UInt8}
  {ptextLength : Int} {padLength : Nat}

theorem decapsulateTransport6_eq {out : Option (List UInt8 × Int × UInt8)} (hlong : 90 ≤ q.length)
    (hpayload : c.decryptPayload conf r (q.window 54 (q.length - 54)) = .ok (r', out)) :
    c.decapsulateTransport6 conf r q = out.elim (.ok (r', none)) fun d =>
      openTransport6 q d.1 d.2.1 d.2.2 >>= fun p => .ok (r', some p) := by
  replace hlong : ¬ q.length < transport6PayloadOffset + minSize := Nat.not_lt.mpr hlong
  rw [decapsulateTransport6, if_neg hlong]
  refine (bind_of_eq_ok (congrArg liftRaise hpayload)).trans ?_
  cases out <;> rfl

/-- The end of `decapsulate_tunnel` leaves what stands behind the ESP header. -/
theorem openTunnel_eq (frame : List UInt8) (hin : n + 16 ≤ q.length) (hmax : n ≤ maxPayload) :
    ∃ p', openTunnel q frame n = .ok p' ∧ p'.length = n ∧
      p'.bytes = ((q.write 0 frame).bytes.drop 16).take n := by
  obtain ⟨q', hshift, -, hlen, hbytes⟩ := shiftleft_spec (q.write 0 frame) (n := 16)
    (by rw [write_length]; omega)
  rw [write_length] at hlen
  obtain ⟨p', hresize⟩ := q'.resize_isOk hmax
  obtain ⟨hlength, hkept, -⟩ := resize_eq_ok hresize
  refine ⟨p', (bind_of_eq_ok hshift).trans ?_, hlength, ?_⟩
  · rw [resizeInt, if_neg (Int.not_lt.mpr (Int.natCast_nonneg _)), Int.toNat_natCast, hresize]
  · rw [bytes, hlength, hkept 0 _ (by omega), ← hbytes]
    exact (take_window q' (by omega)).symm

theorem decapsulateTunnel_eq {out : Option (List UInt8 × Int × UInt8)} (hlong : 36 ≤ q.length)
    (hpayload : c.decryptPayload conf r q.bytes = .ok (r', out)) :
    c.decapsulateTunnel conf r q = out.elim (.ok (r', none)) fun d =>
      liftRaise (openTunnel q d.1 d.2.1) >>= fun p => .ok (r', some (p, d.2.2)) := by
  replace hlong : ¬ q.length < minSize := Nat.not_lt.mpr hlong
  rw [decapsulateTunnel, if_neg hlong]
  refine (bind_of_eq_ok (congrArg liftRaise hpayload)).trans ?_
  cases out <;> rfl

section

variable (hW : 0 < conf.windowSize) (hW' : conf.windowSize < 2 ^ 31) (h : Synchronized conf seq r)
  (hpad : padLength < 4) (hmin : 2 ≤ body.length + padLength)
include hW hW' h hpad hmin

/-- **Transport mode**: the text of a frame stands behind the IPv6 header again. -/
theorem decapsulateTransport6_frame (hmax : 54 + body.length ≤ maxPayload)
    (hlen : q.length = 54 + body.length + 34 + padLength) (hframe : q.window 54 (q.length - 54) =
      c.frame (seq + 1) (body ++ trailer padLength nextHeader)) :
    ∃ p', c.decapsulateTransport6 conf r q =
        .ok (r.track conf (hi32 (seq + 1)) (lo32 (seq + 1)), some p') ∧
      p'.bytes = q.window 0 18 ++ leBytes 2 (htons body.length) ++ [nextHeader] ++
        q.window 21 33 ++ body := by
  obtain ⟨header, tag, hheader, htag, hpayload⟩ :=
    decryptPayload_frame c hW hW' h body hpad nextHeader
  rw [← hframe] at hpayload
  generalize he : ((q.write 54 (header ++ ((body ++ trailer padLength nextHeader) ++ tag))).write 20
    [nextHeader]).write 18 (leBytes 2 (htons body.length)) = e
  have hsame : e.length = q.length := by
    rw [← he, write_length, write_length, write_length]
  have hopen := openTransport6_eq he
  obtain ⟨p', hresize⟩ :=
    (e.write 54 (e.window 70 body.length)).resize_isOk hmax
  rw [hresize] at hopen
  refine ⟨p', (decapsulateTransport6_eq (by omega) hpayload).trans (bind_of_eq_ok hopen), ?_⟩
  obtain ⟨hlen', hkept, -⟩ := resize_eq_ok hresize
  rw [append_assoc] at he
  rw [bytes, hlen', hkept 0 _ (by rw [write_length]; omega)]
  exact window_opened he rfl hheader rfl (length_leBytes 2 _)

/-- **Tunnel mode**: the text of a frame is the packet. -/
theorem decapsulateTunnel_frame (hmax : body.length ≤ maxPayload)
    (hlen : q.length = body.length + 34 + padLength)
    (hframe : q.bytes = c.frame (seq + 1) (body ++ trailer padLength nextHeader)) :
    ∃ p', c.decapsulateTunnel conf r q =
        .ok (r.track conf (hi32 (seq + 1)) (lo32 (seq + 1)), some (p', nextHeader)) ∧
      p'.bytes = body := by
  obtain ⟨header, tag, hheader, htag, hpayload⟩ :=
    decryptPayload_frame c hW hW' h body hpad nextHeader
  rw [← hframe] at hpayload
  have hsame : (header ++ (body ++ trailer padLength nextHeader ++ tag)).length = q.length := by
    simp only [List.length_append, length_trailer]
    omega
  have hwritten : (q.write 0 (header ++ (body ++ trailer padLength nextHeader ++ tag))).bytes =
      header ++ (body ++ trailer padLength nextHeader ++ tag) := by
    rw [bytes, write_length, window_write_self q 0 _ hsame.symm]
  obtain ⟨p', hopen, -, hbytes⟩ := openTunnel_eq
    (header ++ (body ++ trailer padLength nextHeader ++ tag)) (q := q) (by omega) hmax
  refine ⟨p', (decapsulateTunnel_eq (by omega) hpayload).trans
    (bind_of_eq_ok (congrArg liftRaise hopen)), ?_⟩
  rw [hbytes, hwritten, drop_left' hheader, append_assoc, take_left' rfl]

end

theorem Synchronized.nextSeqNo_eq (h : Synchronized conf seq r) : nextSeqNo seq = seq + 1 := by
  have hbelow := h.below
  exact Nat.mod_eq_of_lt (by omega)

theorem accepted_track (conf : ReceiverConf) (r : Receiver) (n : Nat) :
    (r.track conf (hi32 n) (lo32 n)).accepted = r.accepted ++ [n] := by
  rw [Receiver.accepted_track, mk64_lo32_hi32]

/-- **The round trip.** Sender and receiver are synchronized; the receiver gets a packet with the
bytes that the sender has made of `p`.

- Transport mode: the receiver makes a packet of the length of `p`, with its bytes and its next
  header; only `payload_length` is set to what it should be for this length, and if it was so
  before, the packets are the same.
- Tunnel mode: the receiver makes a packet with the bytes of `p` and finds the next header.

In both modes the receiver has accepted the number of the packet. -/
theorem esp_round_trip (c : Esp) (conf : ReceiverConf) (hW : 0 < conf.windowSize)
    (hW' : conf.windowSize < 2 ^ 31) (seq : Nat) (r : Receiver) (h : Synchronized conf seq r)
    (p : Packet) :
    (∀ seq' e q, c.encapsulateTransport6 seq p = .ok (some (seq', e)) → q.bytes = e.bytes →
      ∃ r' p', c.decapsulateTransport6 conf r q = .ok (r', some p') ∧ p'.length = p.length ∧
        p'.bytes = p.window 0 18 ++ leBytes 2 (htons (p.length - 54)) ++
          p.window 20 (p.length - 20) ∧
        (p.window 18 2 = leBytes 2 (htons (p.length - 54)) → p'.bytes = p.bytes) ∧
        seq' = seq + 1 ∧ r'.accepted = r.accepted ++ [seq']) ∧
    ∀ nextHeader seq' e q, c.encapsulateTunnel seq p nextHeader = .ok (seq', e) →
      q.bytes = e.bytes →
      ∃ r' p', c.decapsulateTunnel conf r q = .ok (r', some (p', nextHeader)) ∧
        p'.length = p.length ∧ p'.bytes = p.bytes ∧
        seq' = seq + 1 ∧ r'.accepted = r.accepted ++ [seq'] := by
  constructor
  · intro seq' e q hsend hq
    obtain ⟨padLength, hpad, hmin, hlong, hmax, hseq, hlen, hfront, hback, hframe⟩ :=
      encapsulateTransport6_spec hsend
    rw [h.nextSeqNo_eq] at hseq
    subst hseq
    have hsame : q.length = e.length := by simpa using congrArg List.length hq
    have hbody : (p.window 54 (p.length - 54)).length = p.length - 54 := length_window _ _ _
    rw [← window_congr hq (by omega), ← hsame] at hframe
    obtain ⟨p', hdecap, hbytes⟩ := decapsulateTransport6_frame hW hW' h hpad (by omega) (by omega)
      (by omega) hframe
    rw [window_congr hq (by omega), window_congr hq (by omega), hfront, hback,
      hbody] at hbytes
    -- next header, the rest of the IPv6 header and the text
    have hrest : p.window 20 (p.length - 20) =
        [p.byte 20] ++ p.window 21 33 ++ p.window 54 (p.length - 54) := by
      rw [show p.length - 20 = 1 + 33 + (p.length - 54) by omega, window_add,
        window_add, window_one]
    have hall : p.bytes = p.window 0 18 ++ p.window 18 2 ++ p.window 20 (p.length - 20) := by
      rw [bytes, ← window_add, ← window_add]
      congr 1
      omega
    have hrestored : p'.bytes = p.window 0 18 ++ leBytes 2 (htons (p.length - 54)) ++
        p.window 20 (p.length - 20) := by
      rw [hbytes, hrest]
      simp only [append_assoc]
    have hlength : p'.length = p.length := by
      have hcount := congrArg List.length hrestored
      simp only [length_bytes, List.length_append, length_window,
        length_leBytes] at hcount
      omega
    refine ⟨_, p', hdecap, hlength, hrestored, fun hmatch => ?_, rfl, accepted_track conf r _⟩
    rw [hrestored, ← hmatch, ← hall]
  · intro nextHeader seq' e q hsend hq
    obtain ⟨padLength, hpad, hmin, hmax, hseq, hlen, hframe⟩ := encapsulateTunnel_spec hsend
    rw [h.nextSeqNo_eq] at hseq
    subst hseq
    have hsame : q.length = e.length := by simpa using congrArg List.length hq
    have hbody := length_bytes p
    rw [← hq] at hframe
    obtain ⟨p', hdecap, hbytes⟩ := decapsulateTunnel_frame hW hW' h hpad (by omega) (by omega)
      (by omega) hframe
    have hlength : p'.length = p.length := by simpa using congrArg List.length hbytes
    exact ⟨_, p', hdecap, hlength, hbytes, rfl, accepted_track conf r _⟩

/-- The key stream of AES-128-GCM for the key and salt of the module's selftest, SPI 0 and number 1. -/
def sampleKeyStream : List UInt8 :=
  [193, 52, 2, 201, 217, 138, 129, 69, 221, 115, 207, 215, 174, 168, 185, 0, 123, 161, 64, 73, 140,
    127, 161, 169, 70, 58, 190, 105, 200, 67, 170, 156, 46, 51, 187, 12, 144, 23, 229, 42, 209, 53,
    60, 245, 240, 122, 146, 81, 231, 134, 112, 56, 175, 167, 88, 206]

def sampleCipher (text : List UInt8) : List UInt8 :=
  text.mapIdx fun i b => b ^^^ sampleKeyStream.getD i 0

/-- The tags of the two texts that are encrypted below. -/
def sampleTag (text : List UInt8) : List UInt8 :=
  if text.length = 4 then [90, 61, 76, 122, 37, 254, 175, 95, 246, 39, 41, 223, 141, 37, 49, 136]
  else [11, 79, 111, 106, 143, 62, 74, 136, 109, 245, 68, 5, 177, 134, 184, 200]

theorem length_sampleCipher (text : List UInt8) : (sampleCipher text).length = text.length :=
  length_mapIdx

theorem sampleCipher_sampleCipher (text : List UInt8) :
    sampleCipher (sampleCipher text) = text := by
  refine ext_getElem (by rw [length_sampleCipher, length_sampleCipher]) fun i h₁ h₂ => ?_
  simp only [sampleCipher, getElem_mapIdx]
  rw [UInt8.xor_assoc, UInt8.xor_self, UInt8.xor_zero]

/-- AES-128-GCM, as far as the packet below goes. -/
def sampleEsp : Esp where
  spi := 0
  cipher := {
    gcmEnc := fun _ _ _ text => (sampleCipher text, sampleTag text)
    gcmDec := fun _ _ _ text => (sampleCipher text, sampleTag text)
    length_enc := fun _ _ _ => length_sampleCipher
    length_dec := fun _ _ _ => length_sampleCipher
    length_tag := fun _ _ _ text => by
      show (sampleTag text).length = 16
      rw [sampleTag]
      split <;> rfl
    dec_enc := fun _ _ _ text => by
      simp only [sampleCipher_sampleCipher, sampleTag, length_sampleCipher] }

/-- The minimum packet of the selftest. -/
def samplePacket : Packet :=
  .fromPointer 0 [48, 49, 50, 51, 52, 53, 54, 55, 56, 57, 48, 49, 50, 51, 52, 53, 54, 55, 0, 0, 48,
    49, 50, 51, 52, 53, 54, 55, 56, 57, 48, 49, 50, 51, 52, 53, 54, 55, 56, 57, 48, 49, 50, 51, 52,
    53, 54, 55, 56, 57, 48, 49, 50, 51]

/-- The minimum packet of the selftest goes through both modes. -/
theorem esp_round_trip_sample :
    (∃ e r p, sampleEsp.encapsulateTransport6 0 samplePacket = .ok (some (1, e)) ∧
      sampleEsp.decapsulateTransport6 ⟨128, 1024, 8⟩ Receiver.new e = .ok (r, some p) ∧
      p.bytes = samplePacket.bytes) ∧
    ∃ e r p, sampleEsp.encapsulateTunnel 0 samplePacket 42 = .ok (1, e) ∧
      sampleEsp.decapsulateTunnel ⟨128, 1024, 8⟩ Receiver.new e = .ok (r, some (p, 42)) ∧
      p.bytes = samplePacket.bytes := by
  have hsync : Synchronized ⟨128, 1024, 8⟩ 0 Receiver.new :=
    ⟨Receiver.tracks_new _, by decide, by decide, not_mem_nil, by decide⟩
  obtain ⟨htransport, htunnel⟩ := esp_round_trip sampleEsp ⟨128, 1024, 8⟩ (by decide) (by decide) 0
    Receiver.new hsync samplePacket
  obtain ⟨e, he⟩ : ∃ e, sampleEsp.encapsulateTransport6 0 samplePacket = .ok (some (1, e)) :=
    ⟨_, rfl⟩
  obtain ⟨e', he'⟩ : ∃ e, sampleEsp.encapsulateTunnel 0 samplePacket 42 = .ok (1, e) := ⟨_, rfl⟩
  obtain ⟨r, p, hdecap, -, -, hsame, -, -⟩ := htransport 1 e e he rfl
  obtain ⟨r', p', hdecap', -, hsame', -, -⟩ := htunnel 42 1 e' e' he' rfl
  exact ⟨⟨e, r, p, he, hdecap, hsame (by decide)⟩, ⟨e', r', p', he', hdecap', hsame'⟩⟩

end Esp

end Snabb
