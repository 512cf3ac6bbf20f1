import Snabb.Foundation.RingMemory
import Snabb.Foundation.Run

/-!
# The channel from the manager to a worker (`lib/ptree/channel.lua`)

A ring of bytes with two cursors of 32 bits. A message is written behind its length at the write
cursor, and published by moving the cursor. Positions are cursors modulo the size of the ring, and
a message may go over its end.

The manager and the worker take turns in the middle of `put_message`: it looks at the read cursor,
copies the length, copies the message and moves the write cursor, one after the other. The worker
has what it peeked at before its eyes until it discards it.

- `channel_is_fifo`: messages are read as they were put, unless a message meets an unread one;
- `channel_is_fifo_of_dvd`: this cannot be if the size divides 2 ^ 32;
- `wrapped_cursor_overwrites`: it happens where it does not.
-/

namespace Snabb

open Foundation List
open BitVec (ofNat)

/-- What a copy raises that would leave the ring. -/
inductive ChannelFault where
  | outOfBuffer
deriving DecidableEq, Repr

/-- `ring_buffer_t`. -/
structure Channel where
  read : BitVec 32
  write : BitVec 32
  size : BitVec 32
  buf : Mem

/-- What `peek_bytes` returns: a pointer into the ring, or a buffer of its own. -/
inductive View where
  | pointer (start count : Nat)
  | copy (bytes : List UInt8)

namespace Channel

/-- `read_avail`. -/
def readAvail (c : Channel) : Nat := (BitVec.ofInt 32 (c.write.toNat - c.read.toNat)).toNat

/-- `write_avail`. -/
def writeAvail (c : Channel) : Int := c.size.toNat - c.readAvail

/-- `ffi.copy` to the ring. -/
def copyIn (c : Channel) (start : Nat) (bytes : List UInt8) : Except ChannelFault Channel :=
  if start + bytes.length ≤ c.size.toNat then .ok { c with buf := c.buf.store start bytes }
  else .error .outOfBuffer

/-- `ffi.copy` from the ring. -/
def copyOut (c : Channel) (start count : Nat) : Except ChannelFault (List UInt8) :=
  if start + count ≤ c.size.toNat then .ok (c.buf.load start count) else .error .outOfBuffer

/-- `Channel:put_bytes`. -/
def putBytes (c : Channel) (bytes : List UInt8) (offset : Nat) : Except ChannelFault Channel :=
  let start := (c.write.toNat + offset) % c.size.toNat
  if start + bytes.length > c.size.toNat then do
    let head := c.size.toNat - start
    let c ← c.copyIn start (bytes.take head)
    c.copyIn 0 (bytes.drop head)
  else c.copyIn start bytes

/-- `Channel:peek_bytes`. -/
def peekBytes (c : Channel) (count offset : Nat) : Except ChannelFault View :=
  let start := (c.read.toNat + offset) % c.size.toNat
  if start + count > c.size.toNat then do
    let headCount := c.size.toNat - start
    let head ← c.copyOut start headCount
    let tail ← c.copyOut 0 (count - headCount)
    return .copy (head ++ tail)
  else .ok (.pointer start count)

/-- The bytes that are before the eyes of the reader. -/
def viewed (c : Channel) : View → List UInt8
  | .pointer start count => c.buf.load start count
  | .copy bytes => bytes

/-- Move the write cursor over a message. -/
def publish (c : Channel) (count : Nat) : Channel :=
  { c with write := ofNat 32 (c.write.toNat + count + 4) }

/-- `Channel:put_message`, if nothing happens in between. -/
def putMessage (c : Channel) (bytes : List UInt8) : Except ChannelFault (Channel × Bool) :=
  if c.writeAvail < bytes.length + 4 then .ok (c, false)
  else do
    let c ← c.putBytes (leBytes 4 bytes.length) 0
    let c ← c.putBytes bytes 4
    return (c.publish bytes.length, true)

/-- `Channel:peek_payload_len`. -/
def peekPayloadLen (c : Channel) : Except ChannelFault (Option Nat) :=
  if c.readAvail < 4 then .ok none
  else do
    let len := leNat (c.viewed (← c.peekBytes 4 0))
    return if c.readAvail < 4 + len then none else some len

/-- `Channel:peek_message`. -/
def peekMessage (c : Channel) : Except ChannelFault (Option (View × Nat)) := do
  match ← c.peekPayloadLen with
  | none => return none
  | some len => return some (← c.peekBytes len 4, len)

/-- `Channel:discard_message`. -/
def discardMessage (c : Channel) (payloadLen : Nat) : Channel :=
  { c with read := ofNat 32 (c.read.toNat + payloadLen + 4) }

/-! ## Messages in the ring -/

variable {c c' : Channel} {cursor : BitVec 32} {m : List UInt8} {ms : List (List UInt8)}
  {offset n : Nat} {bytes : List UInt8}

/-- A message behind its length. -/
def encode (m : List UInt8) : List UInt8 := leBytes 4 m.length ++ m

/-- The bytes that messages take. -/
def space (ms : List (List UInt8)) : Nat := (ms.map fun m => m.length + 4).sum

/-- The cursor behind a message. -/
def next (cursor : BitVec 32) (m : List UInt8) : BitVec 32 :=
  ofNat 32 (cursor.toNat + m.length + 4)

/-- The ring has the messages `ms` from a cursor to the write cursor. -/
def Stored (c : Channel) : BitVec 32 → List (List UInt8) → Prop
  | cursor, [] => cursor = c.write
  | cursor, m :: ms =>
    c.buf.loadRing c.size.toNat cursor.toNat (m.length + 4) = encode m ∧ Stored c (next cursor m) ms

/-- `n` bytes at the write cursor meet none of the messages `ms` from a cursor on. -/
def ClearOf (c : Channel) (n : Nat) : BitVec 32 → List (List UInt8) → Prop
  | _, [] => True
  | cursor, m :: ms =>
    Mem.Separate c.size.toNat c.write.toNat n cursor.toNat (m.length + 4) ∧
      ClearOf c n (next cursor m) ms

instance ClearOf.decidable (c : Channel) (n : Nat) :
    ∀ (cursor : BitVec 32) (ms : List (List UInt8)), Decidable (ClearOf c n cursor ms)
  | _, [] => isTrue trivial
  | cursor, m :: ms =>
    haveI := ClearOf.decidable c n (next cursor m) ms
    inferInstanceAs (Decidable (_ ∧ _))

@[simp] theorem space_nil : space [] = 0 := rfl

@[simp] theorem space_cons (m : List UInt8) (ms : List (List UInt8)) :
    space (m :: ms) = m.length + 4 + space ms := rfl

@[simp] theorem space_append (ms ms' : List (List UInt8)) :
    space (ms ++ ms') = space ms + space ms' := by
  simp [space]

theorem Stored.write_eq (h : Stored c cursor ms) :
    c.write = ofNat 32 (cursor.toNat + space ms) := by
  induction ms generalizing cursor with
  | nil =>
    obtain rfl : cursor = c.write := h
    simp
  | cons m ms ih =>
    rw [ih h.2, next, space_cons]
    apply BitVec.eq_of_toNat_eq
    simp only [BitVec.toNat_ofNat]
    omega

/-- **The bytes that can be read are those of the messages.** -/
theorem Stored.readAvail (h : Stored c c.read ms) (hspace : space ms < 2 ^ 32) :
    c.readAvail = space ms := by
  rw [Channel.readAvail, h.write_eq, BitVec.toNat_ofInt, BitVec.toNat_ofNat]
  omega

theorem Stored.snoc (h : Stored c cursor ms)
    (hm : c.buf.loadRing c.size.toNat c.write.toNat (m.length + 4) = encode m) :
    Stored (c.publish m.length) cursor (ms ++ [m]) := by
  induction ms generalizing cursor with
  | nil =>
    obtain rfl : cursor = c.write := h
    exact ⟨hm, rfl⟩
  | cons m' ms ih => exact ⟨h.1, ih h.2⟩

theorem Stored.store (h : Stored c cursor ms) (hclear : ClearOf c n cursor ms)
    (hwrite : c'.write = c.write) (hsize : c'.size = c.size)
    (hbuf : ∀ b k, Mem.Separate c.size.toNat c.write.toNat n b k →
      c'.buf.loadRing c.size.toNat b k = c.buf.loadRing c.size.toNat b k) :
    Stored c' cursor ms := by
  induction ms generalizing cursor with
  | nil => exact h.trans hwrite.symm
  | cons m ms ih =>
    refine ⟨?_, ih h.2 hclear.2⟩
    rw [hsize, hbuf _ _ hclear.1, h.1]

theorem ClearOf.congr (h : ClearOf c n cursor ms) (hwrite : c'.write = c.write)
    (hsize : c'.size = c.size) : ClearOf c' n cursor ms := by
  induction ms generalizing cursor with
  | nil => trivial
  | cons m ms ih =>
    refine ⟨?_, ih h.2⟩
    rw [hsize, hwrite]
    exact h.1

theorem Stored.congr (h : Stored c cursor ms) (hwrite : c'.write = c.write)
    (hsize : c'.size = c.size) (hbuf : c'.buf = c.buf) : Stored c' cursor ms := by
  induction ms generalizing cursor with
  | nil => exact h.trans hwrite.symm
  | cons m ms ih =>
    refine ⟨?_, ih h.2⟩
    rw [hsize, hbuf]
    exact h.1

/-! ## Copies -/

theorem copyOut_of_le {start : Nat} (h : start + n ≤ c.size.toNat) :
    c.copyOut start n = .ok (c.buf.load start n) := if_pos h

/-- **`put_bytes` overwrites a window of the ring.** -/
theorem putBytes_spec (hsize : 0 < c.size.toNat) (hn : bytes.length ≤ c.size.toNat) :
    c.putBytes bytes offset = .ok { c with
      buf := c.buf.storeRing c.size.toNat (c.write.toNat + offset) bytes } := by
  have hlt := Nat.mod_lt (c.write.toNat + offset) hsize
  rw [putBytes]
  simp only [Mem.storeRing]
  by_cases hover : c.size.toNat < (c.write.toNat + offset) % c.size.toNat + bytes.length
  · rw [if_pos hover, if_pos hover]
    have hhead : (c.write.toNat + offset) % c.size.toNat +
        (bytes.take (c.size.toNat - (c.write.toNat + offset) % c.size.toNat)).length ≤
        c.size.toNat := by
      rw [length_take]
      omega
    have htail : 0 + (bytes.drop (c.size.toNat - (c.write.toNat + offset) % c.size.toNat)).length ≤
        c.size.toNat := by
      rw [length_drop]
      omega
    rw [copyIn, if_pos hhead]
    exact if_pos htail
  · rw [if_neg hover, if_neg hover]
    exact if_pos (not_lt.mp hover)

/-- **`peek_bytes` shows a window of the ring**, in place if it does not go over the end. -/
theorem peekBytes_spec (c : Channel) (n offset : Nat) (hsize : 0 < c.size.toNat)
    (hn : n ≤ c.size.toNat) : ∃ v, c.peekBytes n offset = .ok v ∧
      c.viewed v = c.buf.loadRing c.size.toNat (c.read.toNat + offset) n ∧
      (v = .copy (c.viewed v) ∨ v = .pointer ((c.read.toNat + offset) % c.size.toNat) n ∧
        (c.read.toNat + offset) % c.size.toNat + n ≤ c.size.toNat) := by
  have hlt := Nat.mod_lt (c.read.toNat + offset) hsize
  rw [peekBytes]
  by_cases hover : c.size.toNat < (c.read.toNat + offset) % c.size.toNat + n
  · rw [if_pos hover, bind_of_eq_ok (copyOut_of_le (by omega))]
    refine ⟨_, bind_of_eq_ok (copyOut_of_le (by omega)), ?_, .inl rfl⟩
    exact (Mem.loadRing_eq_two hsize hn hover).symm
  · rw [if_neg hover]
    exact ⟨_, rfl, (Mem.loadRing_eq_load (not_lt.mp hover)).symm, .inr ⟨rfl, not_lt.mp hover⟩⟩

theorem loadRing_header (h : c.buf.loadRing c.size.toNat cursor.toNat (m.length + 4) = encode m) :
    c.buf.loadRing c.size.toNat cursor.toNat 4 = leBytes 4 m.length ∧
      c.buf.loadRing c.size.toNat (cursor.toNat + 4) m.length = m := by
  rw [Nat.add_comm m.length, Mem.loadRing_add] at h
  exact append_inj h (by simp)

/-- A view of a message that is in the ring. -/
def Shows (c : Channel) (m : List UInt8) (v : View) : Prop :=
  v = .copy m ∨ v = .pointer ((c.read.toNat + 4) % c.size.toNat) m.length ∧
    (c.read.toNat + 4) % c.size.toNat + m.length ≤ c.size.toNat

theorem Shows.viewed {v : View} (h : Shows c m v) (hstored : Stored c c.read (m :: ms)) :
    c.viewed v = m := by
  rcases h with rfl | ⟨rfl, hle⟩
  · rfl
  · rw [Channel.viewed, ← Mem.loadRing_eq_load hle]
    exact (loadRing_header hstored.1).2

/-- **`peek_message` finds the first message.** -/
theorem peekMessage_spec (hstored : Stored c c.read ms) (hspace : space ms ≤ c.size.toNat) :
    (ms = [] ∧ c.peekMessage = .ok none) ∨
    ∃ m ms' v, ms = m :: ms' ∧ c.peekMessage = .ok (some (v, m.length)) ∧ c.viewed v = m ∧
      Shows c m v := by
  have hsize := c.size.isLt
  have havail := hstored.readAvail (hspace.trans_lt hsize)
  cases ms with
  | nil =>
    refine .inl ⟨rfl, ?_⟩
    have hnone : c.peekPayloadLen = .ok none := by
      rw [peekPayloadLen, havail]
      rfl
    rw [peekMessage, bind_of_eq_ok hnone]
    rfl
  | cons m ms =>
    rw [space_cons] at hspace havail
    obtain ⟨hheader, hpayload⟩ := loadRing_header hstored.1
    obtain ⟨v, hv, hviewed, -⟩ := peekBytes_spec c 4 0 (by omega) (by omega)
    have hlen : c.peekPayloadLen = .ok (some m.length) := by
      rw [peekPayloadLen, if_neg (by omega), bind_of_eq_ok hv, hviewed, Nat.add_zero, hheader,
        leNat_leBytes, Nat.mod_eq_of_lt (by omega)]
      show Except.ok (if c.readAvail < 4 + m.length then none else some m.length) = _
      rw [if_neg (by omega)]
    obtain ⟨w, hw, hviewed', hshows⟩ := peekBytes_spec c m.length 4 (by omega) (by omega)
    refine .inr ⟨m, ms, w, rfl, ?_, hviewed'.trans hpayload, ?_⟩
    · rw [peekMessage, bind_of_eq_ok hlen]
      exact bind_of_eq_ok hw
    · rwa [hviewed', hpayload] at hshows

end Channel

/-! ## The manager and the worker -/

/-- How far `put_message` has come. -/
inductive WriterPhase where
  | idle
  | header (m : List UInt8)
  | payload (m : List UInt8)
  | publish (m : List UInt8)
deriving DecidableEq, Repr

/-- What one of the two does next: the manager calls `put_message` or goes on in it, the worker
peeks or discards what it peeked at. -/
inductive ChannelOp where
  | put (m : List UInt8)
  | write
  | peek
  | discard

/-- What a call returns. -/
inductive ChannelAnswer where
  | put (b : Bool)
  | message (m : Option (List UInt8))
deriving DecidableEq, Repr

/-- A channel in use: the messages that were put and not discarded, those that were put, those that
were read, what the calls returned and what they should have returned. -/
structure ChannelUse where
  channel : Channel
  writer : WriterPhase
  peeked : Option (View × Nat)
  pending : List (List UInt8)
  sent : List (List UInt8)
  received : List (List UInt8)
  answers : List ChannelAnswer
  expected : List ChannelAnswer

namespace ChannelUse

open Channel
export Channel (Stored)

/-- An empty channel with any cursor. -/
def start (buf : Mem) (size cursor : BitVec 32) : ChannelUse :=
  ⟨⟨cursor, cursor, size, buf⟩, .idle, none, [], [], [], [], []⟩

/-- The manager goes on in `put_message`. -/
def write (s : ChannelUse) : Except ChannelFault ChannelUse :=
  match s.writer with
  | .idle => .ok s
  | .header m => do
    let channel ← s.channel.putBytes (leBytes 4 m.length) 0
    return { s with channel := channel, writer := .payload m }
  | .payload m => do
    let channel ← s.channel.putBytes m 4
    return { s with channel := channel, writer := .publish m }
  | .publish m => .ok { s with
      channel := s.channel.publish m.length
      writer := .idle
      pending := s.pending ++ [m]
      sent := s.sent ++ [m] }

/-- A message may be put if it has room besides those that are there. -/
def Fits (s : ChannelUse) (m : List UInt8) : Prop :=
  space s.pending + m.length + 4 ≤ s.channel.size.toNat

instance (s : ChannelUse) (m : List UInt8) : Decidable (Fits s m) :=
  inferInstanceAs (Decidable (_ ≤ _))

def step (s : ChannelUse) : ChannelOp → Except ChannelFault ChannelUse
  | .put m =>
    let accepted : Bool := ¬ s.channel.writeAvail < m.length + 4
    .ok { s with
      writer := if accepted then .header m else s.writer
      answers := s.answers ++ [.put accepted]
      expected := s.expected ++ [.put (Fits s m)] }
  | .write => s.write
  | .peek => do
    let peeked ← s.channel.peekMessage
    return { s with
      peeked := peeked
      answers := s.answers ++ [.message (peeked.map fun v => s.channel.viewed v.1)]
      expected := s.expected ++ [.message s.pending.head?] }
  | .discard =>
    match s.peeked with
    | none => .ok s
    | some (v, len) => .ok { s with
        channel := s.channel.discardMessage len
        peeked := none
        pending := s.pending.tail
        received := s.received ++ [s.channel.viewed v] }

/-- **`put_message` is its steps**, one behind the other. -/
theorem put_steps {s : ChannelUse} {m : List UInt8} {c : Channel} {accepted : Bool}
    (hput : s.channel.putMessage m = .ok (c, accepted)) (hidle : s.writer = .idle) :
    ∃ s', run step s (.put m :: if accepted then [.write, .write, .write] else []) = .ok s' ∧
      s'.channel = c ∧ s'.writer = .idle ∧ s'.answers = s.answers ++ [.put accepted] := by
  rw [putMessage] at hput
  split at hput
  · next hfull =>
    cases hput
    exact ⟨_, rfl, rfl, by simpa [hfull] using hidle, by simp [hfull]⟩
  · next hroom =>
    obtain ⟨c₁, hheader, hput⟩ := bind_eq_ok hput
    obtain ⟨c₂, hpayload, hret⟩ := bind_eq_ok hput
    cases hret
    simp only [if_true, run, step, write, hroom, not_false_eq_true, decide_true]
    rw [bind_of_eq_ok hheader]
    simp only [pure, Except.pure]
    rw [bind_of_eq_ok hpayload]
    exact ⟨_, rfl, rfl, rfl, rfl⟩

/-- The manager puts one message at a time, and the worker discards what it peeked at. -/
def Scheduled (s : ChannelUse) : ChannelOp → Prop
  | .put _ => s.writer = .idle
  | .write => s.writer ≠ .idle
  | .peek => True
  | .discard => s.peeked.isSome

instance (s : ChannelUse) : DecidablePred (Scheduled s)
  | .put _ => inferInstanceAs (Decidable (_ = _))
  | .write => inferInstanceAs (Decidable (_ ≠ _))
  | .peek => inferInstanceAs (Decidable True)
  | .discard => inferInstanceAs (Decidable (_ = _))

/-- A message that is accepted falls on no byte of an unread one. -/
def Clear (s : ChannelUse) : ChannelOp → Prop
  | .put m => Fits s m → ClearOf s.channel (m.length + 4) s.channel.read s.pending
  | _ => True

instance (s : ChannelUse) : DecidablePred (Clear s)
  | .put _ => inferInstanceAs (Decidable (_ → _))
  | .write => inferInstanceAs (Decidable True)
  | .peek => inferInstanceAs (Decidable True)
  | .discard => inferInstanceAs (Decidable True)

/-- There is room for a message behind the pending ones. -/
def Room (s : ChannelUse) (m : List UInt8) : Prop :=
  Fits s m ∧ ClearOf s.channel (m.length + 4) s.channel.read s.pending

/-- What `put_message` has done so far. -/
def Written (s : ChannelUse) : WriterPhase → Prop
  | .idle => True
  | .header m => Room s m
  | .payload m => Room s m ∧
    s.channel.buf.loadRing s.channel.size.toNat s.channel.write.toNat 4 = leBytes 4 m.length
  | .publish m => Room s m ∧
    s.channel.buf.loadRing s.channel.size.toNat s.channel.write.toNat (m.length + 4) = encode m

/-- The invariant: the ring has the pending messages, and what is being written or shown is as it
should be. -/
structure Held (size : BitVec 32) (s : ChannelUse) : Prop where
  size_eq : s.channel.size = size
  space_le : space s.pending ≤ s.channel.size.toNat
  stored : Stored s.channel s.channel.read s.pending
  written : Written s s.writer
  shown : ∀ v len, s.peeked = some (v, len) →
    ∃ m ms, s.pending = m :: ms ∧ len = m.length ∧ Shows s.channel m v
  sent : s.sent = s.received ++ s.pending
  answers : s.answers = s.expected

variable {size : BitVec 32} {s : ChannelUse} {m : List UInt8} {op : ChannelOp}

section

variable (h : Held size s)
include h

/-- **`put_message` accepts a message if it has room.** -/
theorem accepted_iff : ¬ s.channel.writeAvail < m.length + 4 ↔ Fits s m := by
  have havail := h.stored.readAvail (h.space_le.trans_lt s.channel.size.isLt)
  rw [writeAvail, Fits]
  omega

theorem put_held (hclear : Clear s (.put m)) : ∃ s', step s (.put m) = .ok s' ∧ Held size s' := by
  have hiff := accepted_iff (m := m) h
  refine ⟨_, rfl, h.size_eq, h.space_le, h.stored, ?_, h.shown, h.sent, ?_⟩
  · by_cases hfits : Fits s m
    · have haccepted := hiff.mpr hfits
      simp only [haccepted]
      exact ⟨hfits, hclear hfits⟩
    · have hrefused := mt hiff.mp hfits
      simp only [hrefused]
      exact h.written
  · show s.answers ++ [_] = s.expected ++ [_]
    rw [h.answers]
    simp only [hiff]

theorem Room.put {bytes : List UInt8} {offset n : Nat} (hroom : Room s m)
    (hlength : bytes.length = n) (hinside : offset + n ≤ m.length + 4) :
    ∃ c, s.channel.putBytes bytes offset = .ok c ∧
      c = { s.channel with
        buf := s.channel.buf.storeRing s.channel.size.toNat (s.channel.write.toNat + offset)
          bytes } ∧
      Stored c c.read s.pending ∧ ClearOf c (m.length + 4) c.read s.pending := by
  obtain ⟨hfits, hclear⟩ := hroom
  rw [Fits] at hfits
  have hsize : 0 < s.channel.size.toNat := by omega
  have hn : bytes.length ≤ s.channel.size.toNat := by omega
  refine ⟨_, putBytes_spec hsize hn, rfl, ?_, hclear.congr rfl rfl⟩
  refine h.stored.store hclear rfl rfl fun b k hseparate => ?_
  refine Mem.loadRing_storeRing_separate hsize hn ?_
  obtain ⟨j, hj⟩ := Nat.exists_eq_add_of_le hinside
  rw [hj, Nat.add_assoc] at hseparate
  rw [hlength]
  exact hseparate.right.left

theorem write_held : ∃ s', step s .write = .ok s' ∧ Held size s' := by
  have hwritten := h.written
  rw [step, write]
  cases hphase : s.writer with
  | idle => exact ⟨s, rfl, h⟩
  | header m =>
    rw [hphase] at hwritten
    obtain ⟨c, hput, rfl, hstored, hclear⟩ :=
      hwritten.put h (length_leBytes 4 m.length) (Nat.le_add_left 4 m.length)
    refine ⟨_, bind_of_eq_ok hput, h.size_eq, h.space_le, hstored, ⟨⟨hwritten.1, hclear⟩, ?_⟩, h.shown, h.sent,
      h.answers⟩
    have hfits := hwritten.1
    rw [Fits] at hfits
    have hself := Mem.loadRing_storeRing_self (m := s.channel.buf) (a := s.channel.write.toNat)
      (show (leBytes 4 m.length).length ≤ s.channel.size.toNat by rw [length_leBytes]; omega)
    rwa [length_leBytes] at hself
  | payload m =>
    rw [hphase] at hwritten
    obtain ⟨hroom, hheader⟩ := hwritten
    obtain ⟨c, hput, rfl, hstored, hclear⟩ := hroom.put h rfl (by rw [Nat.add_comm])
    refine ⟨_, bind_of_eq_ok hput, h.size_eq, h.space_le, hstored, ⟨⟨hroom.1, hclear⟩, ?_⟩, h.shown, h.sent,
      h.answers⟩
    have hfits := hroom.1
    rw [Fits] at hfits
    have hlength : m.length ≤ s.channel.size.toNat := by omega
    have hseparate : Mem.Separate s.channel.size.toNat (s.channel.write.toNat + 4) m.length
        s.channel.write.toNat 4 := (Mem.separate_of_le (le_refl _) (by omega)).symm
    rw [Nat.add_comm m.length, Mem.loadRing_add, Mem.loadRing_storeRing_self hlength,
      Mem.loadRing_storeRing_separate (by omega) hlength hseparate, hheader, encode]
  | publish m =>
    rw [hphase] at hwritten
    obtain ⟨⟨hfits, -⟩, hmessage⟩ := hwritten
    refine ⟨_, rfl, h.size_eq, ?_, h.stored.snoc hmessage, trivial, ?_, ?_, h.answers⟩
    · show space (s.pending ++ [m]) ≤ s.channel.size.toNat
      rw [Fits] at hfits
      simp only [space_append, space_cons, space_nil]
      omega
    · intro v len hpeeked
      obtain ⟨m', ms, hpending, hlen, hshows⟩ := h.shown v len hpeeked
      refine ⟨m', ms ++ [m], ?_, hlen, hshows⟩
      rw [hpending, cons_append]
    · show s.sent ++ [m] = s.received ++ (s.pending ++ [m])
      rw [h.sent, append_assoc]

theorem peek_held : ∃ s', step s .peek = .ok s' ∧ Held size s' := by
  rcases peekMessage_spec h.stored h.space_le with
    ⟨hpending, hr⟩ | ⟨m, ms, w, hpending, hr, hviewed, hshows⟩
  · refine ⟨_, bind_of_eq_ok hr, h.size_eq, h.space_le, h.stored, h.written, fun _ _ hnone => (nomatch hnone),
      h.sent, ?_⟩
    rw [h.answers, hpending]
    rfl
  · refine ⟨_, bind_of_eq_ok hr, h.size_eq, h.space_le, h.stored, h.written, fun v len hpeeked => ?_, h.sent, ?_⟩
    · cases hpeeked
      exact ⟨m, ms, hpending, rfl, hshows⟩
    · show s.answers ++ [.message (some (s.channel.viewed w))] =
        s.expected ++ [.message s.pending.head?]
      rw [h.answers, hviewed, hpending]
      rfl

theorem discard_held : ∃ s', step s .discard = .ok s' ∧ Held size s' := by
  rw [step]
  cases hpeeked : s.peeked with
  | none => exact ⟨s, rfl, h⟩
  | some r =>
    obtain ⟨v, len⟩ := r
    obtain ⟨m, ms, hpending, rfl, hshows⟩ := h.shown v len hpeeked
    have hstored := h.stored
    have hle := h.space_le
    rw [hpending] at hstored hle
    rw [space_cons] at hle
    have hviewed := hshows.viewed hstored
    refine ⟨_, rfl, h.size_eq, ?_, ?_, ?_, fun _ _ hnone => (nomatch hnone), ?_, h.answers⟩
    · show space s.pending.tail ≤ s.channel.size.toNat
      rw [hpending, tail_cons]
      omega
    · show Stored _ _ s.pending.tail
      rw [hpending]
      exact hstored.2.congr rfl rfl rfl
    · have hsmaller : ∀ m', Room s m' → Room { s with
          channel := s.channel.discardMessage m.length
          peeked := none
          pending := s.pending.tail
          received := s.received ++ [s.channel.viewed v] } m' := by
        rintro m' ⟨hfits, hclear⟩
        rw [Fits, hpending, space_cons] at hfits
        rw [hpending] at hclear
        constructor
        · show space s.pending.tail + m'.length + 4 ≤ s.channel.size.toNat
          rw [hpending, tail_cons]
          omega
        · show ClearOf _ _ _ s.pending.tail
          rw [hpending]
          exact hclear.2.congr rfl rfl
      have hwritten := h.written
      cases hphase : s.writer with
      | idle => trivial
      | header m' =>
        rw [hphase] at hwritten
        exact hsmaller m' hwritten
      | payload m' =>
        rw [hphase] at hwritten
        exact ⟨hsmaller m' hwritten.1, hwritten.2⟩
      | publish m' =>
        rw [hphase] at hwritten
        exact ⟨hsmaller m' hwritten.1, hwritten.2⟩
    · show s.sent = s.received ++ [s.channel.viewed v] ++ s.pending.tail
      rw [h.sent, hviewed, hpending, append_assoc]
      rfl

/-- A step that meets no unread message keeps the invariant. -/
theorem step_held (hclear : Clear s op) : ∃ s', step s op = .ok s' ∧ Held size s' := by
  cases op with
  | put m => exact put_held h hclear
  | write => exact write_held h
  | peek => exact peek_held h
  | discard => exact discard_held h

end

theorem start_held (buf : Mem) (size cursor : BitVec 32) : Held size (start buf size cursor) where
  size_eq := rfl
  space_le := Nat.zero_le _
  stored := rfl
  written := trivial
  shown _ _ hnone := nomatch hnone
  sent := rfl
  answers := rfl

/-- **The channel is a queue of messages**, whatever its size and the cursor at the start, in every
interleaving in which no message falls on an unread one: every call returns, as the free space and
the first unread message say, and what was put is what was read and then what is unread. -/
theorem channel_is_fifo (buf : Mem) (size cursor : BitVec 32) (ops : List ChannelOp)
    (h : Along step (fun s op => Scheduled s op ∧ Clear s op) (start buf size cursor) ops) :
    (∃ s, run step (start buf size cursor) ops = .ok s) ∧
      ∀ k s, run step (start buf size cursor) (ops.take k) = .ok s →
        s.answers = s.expected ∧ s.sent = s.received ++ s.pending := by
  have hstep : ∀ s op, Held size s → Scheduled s op ∧ Clear s op →
      ∃ s', step s op = .ok s' ∧ Held size s' := fun _ _ hheld hop => step_held hheld hop.2
  obtain ⟨hreturns, hall⟩ := run_total_all hstep (start_held buf size cursor) h
  exact ⟨hreturns, fun k s hrun => ⟨(hall k s hrun).answers, (hall k s hrun).sent⟩⟩

/-! ## Cursors that start over -/

/-- Where cursors start over together with positions, or not at all, messages lie one behind the
other. -/
theorem clearOf_of_dvd_or_lt {c : Channel} {n : Nat} {cursor : BitVec 32} {ms : List (List UInt8)}
    (hcursor : c.size.toNat ∣ 2 ^ 32 ∨ cursor.toNat + space ms < 2 ^ 32)
    (hwrite : c.write.toNat % c.size.toNat = (cursor.toNat + space ms) % c.size.toNat)
    (hfits : space ms + n ≤ c.size.toNat) : ClearOf c n cursor ms := by
  induction ms generalizing cursor with
  | nil => trivial
  | cons m ms ih =>
    rw [space_cons] at hwrite hfits hcursor
    have hnext : (next cursor m).toNat = (cursor.toNat + m.length + 4) % 2 ^ 32 := rfl
    constructor
    · have hbehind : Mem.Separate c.size.toNat cursor.toNat (m.length + 4)
          (cursor.toNat + (m.length + 4 + space ms)) n :=
        Mem.separate_of_le (by omega) (by omega)
      intro i hi j hj
      rw [Nat.add_mod, hwrite, ← Nat.add_mod]
      exact hbehind.symm i hi j hj
    · rw [show cursor.toNat + (m.length + 4 + space ms) = cursor.toNat + m.length + 4 + space ms by
        omega] at hwrite
      rcases hcursor with hdvd | hlt
      · refine ih (.inl hdvd) ?_ (by omega)
        rw [hwrite, hnext, Nat.add_mod (_ % 2 ^ 32), Nat.mod_mod_of_dvd _ hdvd, ← Nat.add_mod]
      · have hsame : (next cursor m).toNat = cursor.toNat + m.length + 4 := by omega
        exact ih (.inr (by omega)) (by rw [hwrite, hsame]) (by omega)

/-- **No message falls on an unread one** if the size divides 2 ^ 32, or the cursor has not started
over since the first unread message. -/
theorem clear_of_dvd_or_lt {size : BitVec 32} {s : ChannelUse} (h : Held size s)
    (hcursor : size.toNat ∣ 2 ^ 32 ∨ s.channel.read.toNat + space s.pending < 2 ^ 32)
    (op : ChannelOp) : Clear s op := by
  cases op with
  | put m =>
    intro hfits
    rw [← h.size_eq] at hcursor
    refine clearOf_of_dvd_or_lt hcursor ?_ (by rw [Fits] at hfits; omega)
    rw [h.stored.write_eq, BitVec.toNat_ofNat]
    rcases hcursor with hdvd | hlt
    · exact Nat.mod_mod_of_dvd _ hdvd
    · rw [Nat.mod_eq_of_lt hlt]
  | _ => trivial

/-- **If the size divides 2 ^ 32**, the channel is a queue in every interleaving. -/
theorem channel_is_fifo_of_dvd (buf : Mem) {size : BitVec 32} (cursor : BitVec 32)
    (ops : List ChannelOp) (hdvd : size.toNat ∣ 2 ^ 32)
    (h : Along step Scheduled (start buf size cursor) ops) :
    (∃ s, run step (start buf size cursor) ops = .ok s) ∧
      ∀ k s, run step (start buf size cursor) (ops.take k) = .ok s →
        s.answers = s.expected ∧ s.sent = s.received ++ s.pending := by
  obtain ⟨hreturns, hall⟩ := run_total_all (P := Scheduled)
    (fun s op hheld _ => step_held hheld (clear_of_dvd_or_lt hheld (.inl hdvd) op))
    (start_held buf size cursor) h
  exact ⟨hreturns, fun k s hrun => ⟨(hall k s hrun).answers, (hall k s hrun).sent⟩⟩

/-- The cursors start over. -/
theorem channel_is_fifo_of_dvd_wrapped :
    let ops : List ChannelOp := [.put [1, 2], .write, .write, .write, .peek, .discard]
    ∃ s, run step (start (fun _ => 0) 8 (ofNat 32 (2 ^ 32 - 6))) ops = .ok s :=
  (channel_is_fifo_of_dvd _ _ _ (by decide) (by decide +kernel)).1

/-- In a ring of 12 bytes, a message is refused, and another goes over the end. -/
def sampleOps : List ChannelOp :=
  [.put [1, 2], .write, .write, .peek, .write, .peek, .put [1, 2, 3], .put [], .write, .discard,
    .write, .write, .peek, .discard, .put [4, 5, 6], .write, .write, .write, .peek, .discard]

theorem sample_channel_is_fifo :
    Along step (fun s op => Scheduled s op ∧ Clear s op) (start (fun _ => 0) 12 3) sampleOps ∧
    (∃ s, run step (start (fun _ => 0) 12 3) sampleOps = .ok s) ∧
      ∀ k s, run step (start (fun _ => 0) 12 3) (sampleOps.take k) = .ok s →
        s.answers = s.expected ∧ s.sent = s.received ++ s.pending := by
  have halong : Along step (fun s op => Scheduled s op ∧ Clear s op) (start (fun _ => 0) 12 3)
      sampleOps := by decide +kernel
  exact ⟨halong, channel_is_fifo _ _ _ _ halong⟩

/-- Two messages are put before the first is read. -/
def wrappedOps : List ChannelOp :=
  [.put [1, 2], .write, .write, .write, .put [], .write, .write, .write, .peek]

/-- **A write cursor that starts over overwrites an unread message**: 2 ^ 32 is 6 modulo 10, and
the second message falls on the first. -/
theorem wrapped_cursor_overwrites :
    Along step Scheduled (start (fun _ => 0) 10 (ofNat 32 (2 ^ 32 - 6))) wrappedOps ∧
    ∃ s, run step (start (fun _ => 0) 10 (ofNat 32 (2 ^ 32 - 6))) wrappedOps = .ok s ∧
      s.answers = [.put true, .put true, .message (some [])] ∧
      s.expected = [.put true, .put true, .message (some [1, 2])] := by
  refine ⟨by decide +kernel, ?_⟩
  exact exists_ok_of_any (fun s => s.answers = [.put true, .put true, .message (some [])] ∧
      s.expected = [.put true, .put true, .message (some [1, 2])])
    (by decide +kernel) fun _ _ hs => hs

end ChannelUse

end Snabb
