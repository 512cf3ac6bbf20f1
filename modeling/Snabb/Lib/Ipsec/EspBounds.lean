import Snabb.Lib.Ipsec.Esp

/-!
# Decapsulation and the trailer (`lib/ipsec/esp.lua`)

A text that the cipher releases ends with its trailer, and `decrypt_payload` subtracts the
`pad_length` it finds there from the length of the text. Nothing checks that the text is so long:
`decapsulations_in_range` says that this is all that a receiver relies on.
-/

namespace Snabb

open Foundation List Packet

namespace Esp

/-- The `pad_length` of the trailer. -/
def padLengthOf (text : List UInt8) : Nat := (text.getD (text.length - espTailSize) 0).toNat

/-- The cipher releases a text for a frame, padding and trailer included. -/
def Releases (c : Esp) (conf : ReceiverConf) (r : Receiver) (frame text : List UInt8) : Prop :=
  ∃ r' frame', c.decryptPayload conf r frame = .ok (r', some (decrypted frame')) ∧
    frameText frame' = text

/-- No error, and what is returned has the length of a text of `ctextLength` bytes without its
trailer, behind `front` bytes. -/
def InRange {α : Type} (result : Except DecapError (Receiver × Option α)) (length : α → Nat)
    (front ctextLength : Nat) (released : List UInt8 → Prop) : Prop :=
  ∃ r' out, result = .ok (r', out) ∧ ∀ q ∈ out, ∃ text, released text ∧
    padLengthOf text + espTailSize ≤ ctextLength ∧
    length q = front + (ctextLength - espTailSize - padLengthOf text)

/-! ## What `decrypt_payload` returns -/

variable {c : Esp} {conf : ReceiverConf} {r r' : Receiver} {frame frame' text : List UInt8}
  {p : Packet}

theorem length_frameText (frame : List UInt8) : (frameText frame).length = frame.length - 32 := by
  rw [frameText, length_take, length_drop]
  simp only [plainOverhead, ctextOffset, espSize, ivSize, authSize]
  omega

/-- A frame whose text is replaced by one of its length keeps its length. -/
theorem length_withText (hlong : 32 ≤ frame.length) (htext : text.length = (frameText frame).length) :
    (withText frame text).length = frame.length := by
  rw [length_frameText] at htext
  rw [withText, frameTag, List.length_append, List.length_append, length_take, length_drop]
  simp only [ctextOffset, espSize, ivSize, authSize]
  omega

theorem length_decryptFrame (c : Esp) (hlong : 32 ≤ frame.length) (low high : Nat) :
    (c.decryptFrame low high frame).1.length = frame.length :=
  length_withText hlong (c.cipher.length_dec _ _ _ _)

theorem length_resyncLoop (hlong : 32 ≤ frame.length) {low n high : Nat} {out : Nat × List UInt8}
    (h : c.resyncLoop low frame n high = some out) : out.2.length = frame.length := by
  induction n generalizing high with
  | zero => cases h
  | succ n ih =>
    simp only [resyncLoop] at h
    split at h
    · cases h
      exact c.length_decryptFrame hlong _ _
    · exact ih h

theorem resync_returns (hlong : 32 ≤ frame.length) (hmax : frame.length ≤ maxPayload) (low : Nat)
    (seqHigh : Int) : ∃ out, c.resync conf r low seqHigh frame = .ok out ∧
      ∀ d ∈ out, d.2.length = frame.length := by
  rw [resync, if_pos hmax]
  split
  · exact ⟨_, rfl, fun _ hd => length_resyncLoop hlong hd⟩
  · have hundo : (c.undoFrame low seqHigh.toNat frame).length = frame.length :=
      length_withText hlong (c.cipher.length_enc _ _ _ _)
    exact ⟨_, rfl, fun _ hd => (length_resyncLoop (by omega) hd).trans hundo⟩

/-- `decrypt_payload` returns, and the frame keeps its length. -/
theorem decryptPayload_returns (c : Esp) (conf : ReceiverConf) (r : Receiver)
    (hlong : 32 ≤ frame.length) (hmax : frame.length ≤ maxPayload) :
    ∃ r' out, c.decryptPayload conf r frame = .ok (r', out) ∧
      ∀ d ∈ out, ∃ frame', d = decrypted frame' ∧ frame'.length = frame.length := by
  simp only [decryptPayload]
  generalize beNat ((frame.drop 4).take 4) = low
  generalize checkSeqNo low r.seqNo r.window conf.windowSize = seqHigh
  have hdec := c.length_decryptFrame hlong low seqHigh.toNat
  split
  · refine ⟨_, _, rfl, fun d hd => ?_⟩
    cases hd
    exact ⟨_, rfl, hdec⟩
  · split
    · -- the copy of the frame has its length, decrypted or not
      have hcopy : (if seqHigh < 0 then frame
          else (c.decryptFrame low seqHigh.toNat frame).1).length = frame.length := by
        split
        · rfl
        · exact hdec
      generalize (if seqHigh < 0 then frame else (c.decryptFrame low seqHigh.toNat frame).1) = copy
        at hcopy
      obtain ⟨out, hout, hlength⟩ := resync_returns (hlong.trans_eq hcopy.symm)
        (hcopy.trans_le hmax) low seqHigh
      rw [hout]
      cases out with
      | none => exact ⟨_, none, rfl, by simp⟩
      | some found =>
        refine ⟨_, _, rfl, fun d hd => ?_⟩
        cases hd
        exact ⟨_, rfl, (hlength _ rfl).trans hcopy⟩
    · exact ⟨_, none, rfl, by simp⟩

theorem Releases.unique (h : c.decryptPayload conf r frame = .ok (r', some (decrypted frame')))
    (htext : Releases c conf r frame text) : text = frameText frame' := by
  obtain ⟨_, frame'', h', rfl⟩ := htext
  cases h.symm.trans h'
  rfl

/-! ## Both modes -/

theorem decrypted_length {n : Nat} (hlength : frame'.length = frame.length)
    (h : padLengthOf (frameText frame') + espTailSize + n = frame.length - 32) :
    (decrypted frame').2.1 = n := by
  have htext := length_frameText frame'
  rw [padLengthOf, espTailSize] at h
  simp only [decrypted, espTailSize]
  omega

/-- A decapsulation that ends with `finish` is in range exactly if the trailer is, provided that
`finish` takes every length that is not negative. -/
theorem inRange_iff {α : Type} {result : Except DecapError (Receiver × Option α)}
    {length : α → Nat} {front : Nat} (finish : List UInt8 × Int × UInt8 → Except DecapError α)
    (hlong : 32 ≤ frame.length) (hmax : frame.length ≤ maxPayload)
    (hresult : ∀ {r' out}, c.decryptPayload conf r frame = .ok (r', out) →
      result = out.elim (.ok (r', none)) fun d => finish d >>= fun q => .ok (r', some q))
    (hfinish : ∀ (d : List UInt8 × Int × UInt8) (n : Nat), d.1.length = frame.length → d.2.1 = n →
      n + 32 ≤ frame.length → ∃ q, finish d = .ok q ∧ length q = front + n) :
    InRange result length front (frame.length - 32) (Releases c conf r frame) ↔
      ∀ text, Releases c conf r frame text →
        padLengthOf text + espTailSize ≤ frame.length - 32 := by
  obtain ⟨r', out, hpayload, hdecrypted⟩ := c.decryptPayload_returns conf r hlong hmax
  cases out with
  | none =>
    refine ⟨fun _ text htext => ?_, fun _ => ⟨r', none, hresult hpayload, fun q hq => nomatch hq⟩⟩
    obtain ⟨_, _, h, _⟩ := htext
    cases hpayload.symm.trans h
  | some d =>
    obtain ⟨frame', rfl, hlength⟩ := hdecrypted d rfl
    replace hresult : result = finish (decrypted frame') >>= fun q => .ok (r', some q) :=
      hresult hpayload
    constructor
    · rintro ⟨r'', out, hout, hrange⟩ text htext
      cases hq : finish (decrypted frame') with
      | error e =>
        rw [hq] at hresult
        cases hresult.symm.trans hout
      | ok q =>
        rw [hq] at hresult
        cases hresult.symm.trans hout
        obtain ⟨text', htext', hfits, -⟩ := hrange q rfl
        rw [Releases.unique hpayload htext, ← Releases.unique hpayload htext']
        exact hfits
    · intro hfits
      have hreleases : Releases c conf r frame (frameText frame') := ⟨r', frame', hpayload, rfl⟩
      obtain ⟨n, hn⟩ := Nat.exists_eq_add_of_le (hfits _ hreleases)
      obtain ⟨q, hq, hlen⟩ := hfinish (decrypted frame') n hlength
        (decrypted_length hlength hn.symm) (by omega)
      rw [hq] at hresult
      refine ⟨r', some q, hresult, fun q' hq' => ?_⟩
      cases hq'
      exact ⟨_, hreleases, hfits _ hreleases, by rw [hlen]; omega⟩

/-- **Decapsulation stays in range** exactly if the trailer of a text that the cipher releases
does not ask for more padding than the text has. -/
theorem decapsulations_in_range (c : Esp) (conf : ReceiverConf) (r : Receiver) (p : Packet)
    (hmax : p.length ≤ maxPayload) :
    (InRange (c.decapsulateTransport6 conf r p) Packet.length 54 (p.length - 86)
        (Releases c conf r (p.window 54 (p.length - 54))) ↔
      (90 ≤ p.length → ∀ text, Releases c conf r (p.window 54 (p.length - 54)) text →
        padLengthOf text + espTailSize ≤ p.length - 86)) ∧
    (InRange (c.decapsulateTunnel conf r p) (fun out => out.1.length) 0 (p.length - 32)
        (Releases c conf r p.bytes) ↔
      (36 ≤ p.length → ∀ text, Releases c conf r p.bytes text →
        padLengthOf text + espTailSize ≤ p.length - 32)) := by
  constructor
  · by_cases hlong : 90 ≤ p.length
    · have hframe : (p.window 54 (p.length - 54)).length = p.length - 54 := length_window _ _ _
      have hctext : p.length - 86 = (p.window 54 (p.length - 54)).length - 32 := by omega
      rw [forall_prop_of_true hlong, hctext]
      refine inRange_iff (fun d => openTransport6 p d.1 d.2.1 d.2.2) (by omega) (by omega)
        (decapsulateTransport6_eq hlong) fun d n hd hn hle => ?_
      have hfits : 54 + n ≤ maxPayload := by omega
      rw [hn]
      obtain ⟨q, hresize⟩ := resize_isOk hfits
      exact ⟨q, congrArg liftRaise hresize, (resize_eq_ok hresize).1⟩
    · refine ⟨fun _ h => absurd h hlong, fun _ => ⟨r, none, ?_, fun q hq => nomatch hq⟩⟩
      exact if_pos (Nat.not_le.mp hlong)
  · by_cases hlong : 36 ≤ p.length
    · have hframe := length_bytes p
      rw [forall_prop_of_true hlong, ← hframe]
      refine inRange_iff (fun d => liftRaise (openTunnel p d.1 d.2.1) >>= fun q => .ok (q, d.2.2))
        (by omega) (by omega) (fun h => ?_) fun d n hd hn hle => ?_
      · rw [decapsulateTunnel_eq hlong h]
        simp only [bind_assoc]
        rfl
      · obtain ⟨q, hopen, hlength, -⟩ := openTunnel_eq d.1 (q := p) (n := n) (by omega) (by omega)
        refine ⟨(q, d.2.2), ?_, hlength.trans (Nat.zero_add n).symm⟩
        rw [hn, hopen]
        rfl
    · refine ⟨fun _ h => absurd h hlong, fun _ => ⟨r, none, ?_, fun q hq => nomatch hq⟩⟩
      exact if_pos (Nat.not_le.mp hlong)

/-- AES-128-GCM as in `sampleEsp`, as far as the frame below goes. -/
def longPadEsp : Esp where
  spi := 0
  cipher := { sampleEsp.cipher with
    gcmEnc := fun _ _ _ text => (sampleCipher text,
      [253, 7, 226, 159, 203, 206, 78, 97, 22, 144, 90, 214, 8, 21, 16, 122])
    gcmDec := fun _ _ _ text => (sampleCipher text,
      [253, 7, 226, 159, 203, 206, 78, 97, 22, 144, 90, 214, 8, 21, 16, 122])
    length_tag := fun _ _ _ _ => rfl
    dec_enc := fun _ _ _ _ => by simp only [sampleCipher_sampleCipher] }

/-- The text is two bytes and a trailer that asks for 255 bytes of padding. -/
def longPadFrame : List UInt8 := longPadEsp.frame 1 [0, 0, 255, 41]

/-- `memmove` gets a negative length. -/
theorem long_pad_out_of_range :
    longPadEsp.decapsulateTransport6 ⟨128, 1024, 8⟩ Receiver.new
      (.fromPointer 0 (samplePacket.bytes ++ longPadFrame)) = .error .memoryFault ∧
    ¬ ∀ (c : Esp) conf r (p : Packet), p.length ≤ maxPayload →
      InRange (c.decapsulateTransport6 conf r p) Packet.length 54 (p.length - 86)
        (Releases c conf r (p.window 54 (p.length - 54))) := by
  have hframe : (Packet.fromPointer 0 (samplePacket.bytes ++ longPadFrame)).window 54
      ((samplePacket.bytes ++ longPadFrame).length - 54) = longPadFrame := by decide +kernel
  have hpayload : longPadEsp.decryptPayload ⟨128, 1024, 8⟩ Receiver.new longPadFrame = _ :=
    decryptPayload_authentic 1 0 rfl (by decide +kernel) (by decide +kernel)
  have hneg : (decrypted (longPadEsp.decryptFrame 1 0 longPadFrame).1).2.1 < 0 := by decide +kernel
  have hfault : longPadEsp.decapsulateTransport6 ⟨128, 1024, 8⟩ Receiver.new
      (.fromPointer 0 (samplePacket.bytes ++ longPadFrame)) = .error .memoryFault := by
    rw [← hframe] at hpayload
    rw [decapsulateTransport6, if_neg (by decide)]
    refine (bind_of_eq_ok (congrArg liftRaise hpayload)).trans ?_
    dsimp only
    rw [openTransport6, hframe, if_pos hneg]
    rfl
  refine ⟨hfault, fun hclaim => ?_⟩
  obtain ⟨r, out, hout, -⟩ := hclaim longPadEsp ⟨128, 1024, 8⟩ Receiver.new
    (.fromPointer 0 (samplePacket.bytes ++ longPadFrame)) (by decide)
  cases hfault.symm.trans hout

/-- The frame that transport mode makes of `samplePacket`. -/
def sampleFrame : List UInt8 := sampleEsp.frame 1 (trailer 2 48)

/-- The frame of the selftest is decapsulated in range. -/
theorem decapsulations_in_range_sample :
    InRange (sampleEsp.decapsulateTunnel ⟨128, 1024, 8⟩ Receiver.new
        (.fromPointer 0 sampleFrame)) (fun out => out.1.length) 0 4
        (Releases sampleEsp ⟨128, 1024, 8⟩ Receiver.new (Packet.fromPointer 0 sampleFrame).bytes) := by
  refine (decapsulations_in_range sampleEsp ⟨128, 1024, 8⟩ Receiver.new
    (.fromPointer 0 sampleFrame) (by decide)).2.mpr fun _ text htext => ?_
  have hbytes : (Packet.fromPointer 0 sampleFrame).bytes = sampleFrame := by decide +kernel
  rw [hbytes] at htext
  rw [Releases.unique (decryptPayload_authentic 1 0 rfl (by decide +kernel) (by decide +kernel))
    htext]
  decide +kernel

end Esp

end Snabb
