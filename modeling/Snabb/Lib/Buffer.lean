import Snabb.Foundation.RingMemory

/-!
# The ring buffer for bytes (`lib/buffer.lua`)

`read_idx` and `write_idx` run freely modulo 2 ^ 32. Positions are indices modulo the size, which
is a power of two, and a copy that goes over the end of the ring is made in two parts.

A `ByteStream` says what the buffer is for: all bytes that were written, and how many were taken.

- `buffer_serves_stream`: every call answers as the stream does, from any indices on.
-/

namespace Snabb

open Foundation List
open BitVec (ofNat toNat_ofNat toNat_sub)
open Mem (length_load)

/-- What the functions raise, and what a copy would that leaves the ring. -/
inductive BufferFault where
  | writeXrun
  | rewriteXrun
  | readXrun
  | notPowerOfTwo
  | sizeTooLarge
  | outOfBuffer
deriving DecidableEq, Repr

/-- `buffer_t`, after `init` has checked the size. -/
structure ByteBuffer where
  readIdx : BitVec 32
  writeIdx : BitVec 32
  size : Nat
  buf : Mem
  size_pow : size ≠ 0 ∧ size &&& (size - 1) = 0
  size_small : size + 12 < 2 ^ 31

namespace ByteBuffer

/-- `read_avail`. -/
def readAvail (b : ByteBuffer) : Nat := (b.writeIdx - b.readIdx).toNat

/-- `write_avail`. -/
def writeAvail (b : ByteBuffer) : Int := b.size - b.readAvail

/-- `band` of a number with the size less 1. -/
def band (b : ByteBuffer) (n : Nat) : Nat :=
  (ofNat 32 n &&& ofNat 32 (b.size - 1)).toNat

/-- `write_pos`. -/
def writePos (b : ByteBuffer) : Nat := b.band b.writeIdx.toNat

/-- `rewrite_pos`. -/
def rewritePos (b : ByteBuffer) (offset : Nat) : Nat := b.band (b.readIdx.toNat + offset)

/-- `read_pos`. -/
def readPos (b : ByteBuffer) : Nat := b.band b.readIdx.toNat

/-- What a function does with the buffer. What it has done before it raises stays done. -/
abbrev BufferM := EStateM BufferFault ByteBuffer

/-- `ffi.copy` to the ring. -/
def copyIn (pos : Nat) (bytes : List UInt8) : BufferM Unit := fun b =>
  if pos + bytes.length ≤ b.size then .ok () { b with buf := b.buf.store pos bytes }
  else .error .outOfBuffer b

/-- `ffi.copy` from the ring. -/
def copyOut (pos count : Nat) : BufferM (List UInt8) := fun b =>
  if pos + count ≤ b.size then .ok (b.buf.load pos count) b else .error .outOfBuffer b

/-- `advance_write`. -/
def advanceWrite (count : Nat) : BufferM Unit :=
  modify fun b => { b with writeIdx := ofNat 32 (b.writeIdx.toNat + count) }

/-- `advance_read`. -/
def advanceRead (count : Nat) : BufferM Unit :=
  modify fun b => { b with readIdx := ofNat 32 (b.readIdx.toNat + count) }

/-- The two copies from `bytes` to the ring. -/
def copyBytes (pos : Nat) (bytes : Mem) (count : Nat) : BufferM Unit := do
  let count1 := min ((← get).size - pos) count
  copyIn pos (bytes.load 0 count1)
  copyIn 0 (bytes.load count1 (count - count1))

/-- `buffer:write`. -/
def write (bytes : Mem) (count : Nat) : BufferM Unit := do
  let b ← get
  if b.writeAvail < count then throw .writeXrun
  else
    copyBytes b.writePos bytes count
    advanceWrite count

/-- `buffer:rewrite`. -/
def rewrite (offset : Nat) (bytes : Mem) (count : Nat) : BufferM Unit := do
  let b ← get
  if b.readAvail < offset + count then throw .rewriteXrun
  else copyBytes (b.rewritePos offset) bytes count

/-- `buffer:read`: the memory that `bytes` points to, after the copies. -/
def read (bytes : Mem) (count : Nat) : BufferM Mem := do
  let b ← get
  if b.readAvail < count then throw .readXrun
  else
    let pos := b.readPos
    let count1 := min (b.size - pos) count
    let bytes := bytes.store 0 (← copyOut pos count1)
    let bytes := bytes.store count1 (← copyOut 0 (count - count1))
    advanceRead count
    return bytes

/-- `buffer:drop`. -/
def drop (count : Nat) : BufferM Unit := do
  let b ← get
  if b.readAvail < count then throw .readXrun
  else advanceRead count

/-- `buffer:peek`: the position in the ring, and how many bytes there are from there on. -/
def peek (b : ByteBuffer) : Nat × Nat :=
  let pos := b.readPos
  (pos, min b.readAvail (b.size - pos))

end ByteBuffer

/-! ## Calls -/

/-- A call. What is written is in memory from 0 on, and what is read is copied there. -/
inductive BufferCall where
  | write (bytes : Mem) (count : Nat)
  | rewrite (offset : Nat) (bytes : Mem) (count : Nat)
  | read (bytes : Mem) (count : Nat)
  | drop (count : Nat)
  | peek

/-- What the caller gets: the memory that was read to, or what is behind the pointer from `peek`. -/
inductive BufferReply where
  | done
  | raised (e : BufferFault)
  | filled (bytes : Mem)
  | shown (bytes : List UInt8)

namespace ByteBuffer

/-- What a function returns or raises, and the buffer after it. -/
def reply {α : Type} (f : BufferM α) (answer : α → BufferReply) (b : ByteBuffer) :
    BufferReply × ByteBuffer :=
  match f b with
  | .ok a b' => (answer a, b')
  | .error e b' => (.raised e, b')

/-- One call. -/
def call (b : ByteBuffer) : BufferCall → BufferReply × ByteBuffer
  | .write bytes count => b.reply (write bytes count) fun _ => .done
  | .rewrite offset bytes count => b.reply (rewrite offset bytes count) fun _ => .done
  | .read bytes count => b.reply (read bytes count) .filled
  | .drop count => b.reply (drop count) fun _ => .done
  | .peek => b.reply (copyOut b.peek.1 b.peek.2) .shown

/-- Calls one after the other. -/
def calls (b : ByteBuffer) : List BufferCall → List BufferReply × ByteBuffer
  | [] => ([], b)
  | c :: cs =>
    let (r, b') := b.call c
    let (rs, b'') := b'.calls cs
    (r :: rs, b'')

end ByteBuffer

/-! ## Streams -/

/-- All bytes that were written, and how many of them were taken. -/
structure ByteStream where
  written : List UInt8
  taken : Nat

namespace ByteStream

/-- The bytes that were not taken yet. -/
def unread (s : ByteStream) : List UInt8 := s.written.drop s.taken

/-- Overwrite bytes from an index on. -/
def patch (xs : List UInt8) (i : Nat) (ys : List UInt8) : List UInt8 :=
  xs.take i ++ ys ++ xs.drop (i + ys.length)

/-- How a stream replies to a call, if there is room for `size` bytes that were not taken yet. -/
def Serves (size : Nat) (s : ByteStream) : BufferCall → BufferReply → ByteStream → Prop
  | .write bytes count, r, s' =>
    if s.unread.length + count ≤ size then
      r = .done ∧ s' = { s with written := s.written ++ bytes.load 0 count }
    else r = .raised .writeXrun ∧ s' = s
  | .rewrite offset bytes count, r, s' =>
    if offset + count ≤ s.unread.length then
      r = .done ∧ s' = { s with written := patch s.written (s.taken + offset) (bytes.load 0 count) }
    else r = .raised .rewriteXrun ∧ s' = s
  | .read bytes count, r, s' =>
    if count ≤ s.unread.length then
      r = .filled (bytes.store 0 (s.unread.take count)) ∧ s' = { s with taken := s.taken + count }
    else r = .raised .readXrun ∧ s' = s
  | .drop count, r, s' =>
    if count ≤ s.unread.length then r = .done ∧ s' = { s with taken := s.taken + count }
    else r = .raised .readXrun ∧ s' = s
  | .peek, r, s' =>
    s' = s ∧ ∃ bytes, r = .shown bytes ∧ bytes <+: s.unread ∧ (s.unread ≠ [] → bytes ≠ [])

/-- How a stream replies to calls one after the other. -/
def ServesAll (size : Nat) : ByteStream → List BufferCall → List BufferReply → ByteStream → Prop
  | s, [], [], s' => s' = s
  | s, c :: cs, r :: rs, s' => ∃ t, Serves size s c r t ∧ ServesAll size t cs rs s'
  | _, _, _, _ => False

end ByteStream

namespace ByteBuffer

variable {b b' : ByteBuffer} {s s' : ByteStream} {bytes : Mem} {offset count n : Nat}

/-! ## Positions -/

theorem exists_size (b : ByteBuffer) : ∃ k ≤ 30, b.size = 2 ^ k := by
  obtain ⟨hne, hpow⟩ := b.size_pow
  obtain ⟨k, hk⟩ := (Nat.and_sub_one_eq_zero_iff_isPowerOfTwo hne).mp hpow
  refine ⟨k, ?_, hk⟩
  by_contra hlarge
  have hle : 2 ^ 31 ≤ 2 ^ k := Nat.pow_le_pow_right (by decide) (by omega)
  have hsmall := b.size_small
  omega

theorem size_pos (b : ByteBuffer) : 0 < b.size := Nat.pos_of_ne_zero b.size_pow.1

theorem mod_size (b : ByteBuffer) (n : Nat) : n % 2 ^ 32 % b.size = n % b.size := by
  obtain ⟨k, hk, hsize⟩ := b.exists_size
  rw [hsize]
  exact Nat.mod_mod_of_dvd n (Nat.pow_dvd_pow 2 (by omega))

/-- **`band` takes a number modulo the size.** -/
theorem band_eq (b : ByteBuffer) (n : Nat) : b.band n = n % b.size := by
  have hmod := b.mod_size n
  obtain ⟨k, hk, hsize⟩ := b.exists_size
  have hle : 2 ^ k ≤ 2 ^ 30 := Nat.pow_le_pow_right (by decide) hk
  rw [hsize] at hmod
  rw [band, BitVec.toNat_and, toNat_ofNat, toNat_ofNat, hsize,
    Nat.mod_eq_of_lt (by omega : 2 ^ k - 1 < 2 ^ 32), Nat.and_two_pow_sub_one_eq_mod, hmod]

/-! ## Copies -/

theorem copyIn_of_le {bs : List UInt8} (h : n + bs.length ≤ b.size) :
    copyIn n bs b = .ok () { b with buf := b.buf.store n bs } := if_pos h

theorem copyOut_of_le (h : n + count ≤ b.size) : copyOut n count b = .ok (b.buf.load n count) b :=
  if_pos h

theorem bind_of_ok {α β : Type} {x : BufferM α} {f : α → BufferM β} {a : α} (h : x b = .ok a b') :
    (x >>= f) b = f a b' := by
  show EStateM.bind x f b = _
  rw [EStateM.bind, h]

theorem get_bind {α : Type} {f : ByteBuffer → BufferM α} : (get >>= f) b = f b b := rfl

/-- **The two copies overwrite a window of the ring.** -/
theorem copyBytes_eq (b : ByteBuffer) (a : Nat) (bytes : Mem) (hcount : count ≤ b.size) :
    copyBytes (a % b.size) bytes count b =
      .ok () { b with buf := b.buf.storeRing b.size a (bytes.load 0 count) } := by
  have hlt := Nat.mod_lt a b.size_pos
  obtain ⟨count1, hcount1⟩ : ∃ count1, count1 = min (b.size - a % b.size) count := ⟨_, rfl⟩
  have hcopies : copyBytes (a % b.size) bytes count b = .ok () { b with
      buf := (b.buf.store (a % b.size) (bytes.load 0 count1)).store 0
        (bytes.load count1 (count - count1)) } := by
    rw [copyBytes, get_bind, ← hcount1, bind_of_ok (copyIn_of_le ?_)]
    · refine copyIn_of_le ?_
      rw [length_load]
      show 0 + (count - count1) ≤ b.size
      omega
    · rw [length_load]
      omega
  rw [hcopies, Mem.storeRing, length_load]
  congr 2
  by_cases hover : b.size < a % b.size + count
  · rw [if_pos hover, Mem.take_load _ _ _ _ (by omega), Mem.drop_load _ _ _ _ (by omega),
      Nat.zero_add, hcount1, Nat.min_eq_left (by omega)]
  · -- the second copy is one of no bytes
    obtain rfl : count1 = count := by omega
    rw [if_neg hover]
    exact funext fun i => Mem.store_of_outside (by rw [length_load]; omega)

/-- **The two copies read a window of the ring.** -/
theorem read_eq (b : ByteBuffer) (bytes : Mem) (hcount : count ≤ b.readAvail)
    (hsize : count ≤ b.size) :
    read bytes count b = .ok (bytes.store 0 (b.buf.loadRing b.size b.readIdx.toNat count))
      { b with readIdx := ofNat 32 (b.readIdx.toNat + count) } := by
  have hlt := Nat.mod_lt b.readIdx.toNat b.size_pos
  obtain ⟨count1, hcount1⟩ : ∃ count1, count1 = min (b.size - b.readIdx.toNat % b.size) count :=
    ⟨_, rfl⟩
  have hcopies : read bytes count b = .ok
      ((bytes.store 0 (b.buf.load (b.readIdx.toNat % b.size) count1)).store count1
        (b.buf.load 0 (count - count1)))
      { b with readIdx := ofNat 32 (b.readIdx.toNat + count) } := by
    rw [read, get_bind, if_neg (not_lt.mpr hcount), readPos, band_eq, ← hcount1]
    rw [bind_of_ok (copyOut_of_le (by omega)), bind_of_ok (copyOut_of_le (by omega))]
    rfl
  have htwo : b.buf.loadRing b.size b.readIdx.toNat count =
      b.buf.load (b.readIdx.toNat % b.size) count1 ++ b.buf.load 0 (count - count1) := by
    by_cases hover : b.size < b.readIdx.toNat % b.size + count
    · rw [Mem.loadRing_eq_two b.size_pos hsize hover, hcount1, Nat.min_eq_left (by omega)]
    · obtain rfl : count1 = count := by omega
      rw [Mem.loadRing_eq_load (by omega), Nat.sub_self]
      exact (append_nil _).symm
  rw [hcopies, htwo, ← Mem.store_append, length_load, Nat.zero_add]

/-! ## What the buffer holds -/

/-- The buffer has the unread bytes of a stream from `read_idx` on. -/
structure Holds (b : ByteBuffer) (s : ByteStream) : Prop where
  taken_le : s.taken ≤ s.written.length
  avail : b.readAvail = s.unread.length
  fits : s.unread.length ≤ b.size
  bytes : b.buf.loadRing b.size b.readIdx.toNat s.unread.length = s.unread

theorem holds_empty (h : b.readIdx = b.writeIdx) : b.Holds ⟨[], 0⟩ := by
  refine ⟨le_rfl, ?_, Nat.zero_le _, rfl⟩
  rw [readAvail, h, BitVec.sub_self]
  rfl

/-- `write_idx` is ahead of `read_idx` by the bytes that can be read. -/
theorem writeIdx_mod (b : ByteBuffer) :
    b.writeIdx.toNat % b.size = (b.readIdx.toNat + b.readAvail) % b.size := by
  rw [← b.mod_size (b.readIdx.toNat + b.readAvail), readAvail, toNat_sub]
  congr 1
  omega

theorem Holds.writeAvail (h : b.Holds s) : b.writeAvail = b.size - s.unread.length := by
  rw [ByteBuffer.writeAvail, h.avail]

theorem sub_add_toNat (w r : BitVec 32) (hcount : count ≤ (w - r).toNat) :
    (w - ofNat 32 (r.toNat + count)).toNat = (w - r).toNat - count := by
  rw [toNat_sub] at hcount ⊢
  rw [toNat_sub, toNat_ofNat]
  omega

theorem add_sub_toNat (w r : BitVec 32) (hcount : (w - r).toNat + count < 2 ^ 32) :
    (ofNat 32 (w.toNat + count) - r).toNat = (w - r).toNat + count := by
  rw [toNat_sub] at hcount ⊢
  rw [toNat_sub, toNat_ofNat]
  omega

variable (h : b.Holds s)
include h

theorem Holds.advanceRead (hcount : count ≤ s.unread.length) :
    ({ b with readIdx := ofNat 32 (b.readIdx.toNat + count) } : ByteBuffer).Holds
      { s with taken := s.taken + count } := by
  have hfits := h.fits
  have hlength : (ByteStream.unread { s with taken := s.taken + count }).length =
      s.unread.length - count := by
    simp only [ByteStream.unread, length_drop]
    omega
  have hrest : ByteStream.unread { s with taken := s.taken + count } = s.unread.drop count :=
    drop_drop.symm
  refine ⟨?_, ?_, ?_, ?_⟩
  · have htaken : s.unread.length = s.written.length - s.taken := length_drop
    have hle := h.taken_le
    show s.taken + count ≤ s.written.length
    omega
  · rw [hlength, ← h.avail]
    exact sub_add_toNat _ _ (hcount.trans_eq h.avail.symm)
  · rw [hlength]
    exact (Nat.sub_le _ _).trans hfits
  · show b.buf.loadRing b.size (ofNat 32 (b.readIdx.toNat + count)).toNat _ = _
    have hmod : (ofNat 32 (b.readIdx.toNat + count)).toNat % b.size =
        (b.readIdx.toNat + count) % b.size := by
      rw [toNat_ofNat, mod_size]
    obtain ⟨n, hn⟩ := Nat.exists_eq_add_of_le hcount
    have hbytes := h.bytes
    rw [hn, Mem.loadRing_add] at hbytes
    rw [hlength, hn, Nat.add_sub_cancel_left, Mem.loadRing_mod hmod, hrest, ← hbytes,
      drop_left' Mem.length_loadRing]

theorem Holds.write (bytes : Mem) (hcount : s.unread.length + count ≤ b.size) :
    ∃ b', ByteBuffer.write bytes count b = .ok () b' ∧
      b'.Holds { s with written := s.written ++ bytes.load 0 count } ∧ b'.size = b.size := by
  have hsmall := b.size_small
  have havail := h.avail
  have hroom : ¬ b.writeAvail < count := by
    rw [h.writeAvail]
    omega
  have hunread : ByteStream.unread { s with written := s.written ++ bytes.load 0 count } =
      s.unread ++ bytes.load 0 count := drop_append_of_le_length h.taken_le
  have hlength : (ByteStream.unread { s with written := s.written ++ bytes.load 0 count }).length =
      s.unread.length + count := by
    rw [hunread, List.length_append, length_load]
  refine ⟨{ b with
    buf := b.buf.storeRing b.size b.writeIdx.toNat (bytes.load 0 count)
    writeIdx := ofNat 32 (b.writeIdx.toNat + count) }, ?_, ⟨?_, ?_, ?_, ?_⟩, rfl⟩
  · rw [ByteBuffer.write, get_bind, if_neg hroom, writePos, band_eq,
      bind_of_ok (copyBytes_eq b _ bytes (by omega))]
    rfl
  · show s.taken ≤ (s.written ++ bytes.load 0 count).length
    rw [List.length_append]
    exact h.taken_le.trans (Nat.le_add_right _ _)
  · rw [hlength, ← havail]
    exact add_sub_toNat _ _ (show b.readAvail + count < 2 ^ 32 by omega)
  · rw [hlength]
    exact hcount
  · show (b.buf.storeRing b.size b.writeIdx.toNat (bytes.load 0 count)).loadRing b.size
      b.readIdx.toNat _ = _
    have hbehind := b.writeIdx_mod
    rw [havail] at hbehind
    rw [hlength, hunread, Mem.loadRing_add, Mem.storeRing_mod hbehind]
    congr 1
    · have hseparate : Mem.Separate b.size (b.readIdx.toNat + s.unread.length)
          (bytes.load 0 count).length b.readIdx.toNat s.unread.length :=
        (Mem.separate_of_le le_rfl (by rw [length_load]; omega)).symm
      rw [Mem.loadRing_storeRing_separate b.size_pos (by rw [length_load]; omega) hseparate,
        h.bytes]
    · have hself : (b.buf.storeRing b.size (b.readIdx.toNat + s.unread.length)
          (bytes.load 0 count)).loadRing b.size (b.readIdx.toNat + s.unread.length)
          (bytes.load 0 count).length = bytes.load 0 count :=
        Mem.loadRing_storeRing_self (by rw [length_load]; omega)
      rwa [length_load] at hself

/-- What is rewritten is the addressed part of what the buffer has. -/
theorem Holds.rewrite (bytes : Mem) (hcount : offset + count ≤ s.unread.length) :
    ∃ b', ByteBuffer.rewrite offset bytes count b = .ok () b' ∧ b'.Holds { s with
      written := ByteStream.patch s.written (s.taken + offset) (bytes.load 0 count) } ∧
      b'.size = b.size := by
  have havail := h.avail
  have hfits := h.fits
  have htaken := h.taken_le
  have hunread : ByteStream.unread { s with
      written := ByteStream.patch s.written (s.taken + offset) (bytes.load 0 count) } =
      ByteStream.patch s.unread offset (bytes.load 0 count) := by
    simp only [ByteStream.unread, ByteStream.patch, append_assoc]
    rw [drop_append_of_le_length (by rw [length_take]; omega), drop_take,
      Nat.add_sub_cancel_left, drop_drop, Nat.add_assoc]
  have hlength : (ByteStream.patch s.unread offset (bytes.load 0 count)).length =
      s.unread.length := by
    simp only [ByteStream.patch, List.length_append, length_take, length_drop,
      length_load]
    omega
  refine ⟨{ b with
    buf := b.buf.storeRing b.size (b.readIdx.toNat + offset) (bytes.load 0 count) }, ?_,
    ⟨?_, ?_, ?_, ?_⟩, rfl⟩
  · rw [ByteBuffer.rewrite, get_bind, if_neg (by omega), rewritePos, band_eq]
    exact copyBytes_eq b _ bytes (by omega)
  · simp only [ByteStream.patch, List.length_append, length_take]
    omega
  · rw [hunread, hlength]
    exact havail
  · rw [hunread, hlength]
    exact hfits
  · rw [hunread, hlength]
    rw [Mem.loadRing_storeRing_inside b.size_pos (by rw [length_load]; omega) hfits, h.bytes]
    rfl

/-- **What `peek` points to** begins the bytes that can be read, and ends at the end of the ring
or with the last of them. -/
theorem Holds.peek :
    ∃ bytes, copyOut b.peek.1 b.peek.2 b = .ok bytes b ∧ bytes <+: s.unread ∧
      (s.unread ≠ [] → bytes ≠ []) := by
  have hlt := Nat.mod_lt b.readIdx.toNat b.size_pos
  have hpeek : b.peek = (b.readIdx.toNat % b.size,
      min s.unread.length (b.size - b.readIdx.toNat % b.size)) := by
    rw [ByteBuffer.peek, readPos, band_eq, h.avail]
  obtain ⟨n, hn⟩ : ∃ n, n = min s.unread.length (b.size - b.readIdx.toNat % b.size) := ⟨_, rfl⟩
  obtain ⟨rest, hrest⟩ := Nat.exists_eq_add_of_le (show n ≤ s.unread.length by omega)
  rw [hpeek, ← hn]
  refine ⟨_, copyOut_of_le (by omega), ?_, fun hne hnil => ?_⟩
  · have hbytes := h.bytes
    rw [hrest, Mem.loadRing_add] at hbytes
    rw [← hbytes, ← Mem.loadRing_eq_load (by omega)]
    exact prefix_append _ _
  · have hpos := length_pos_of_ne_nil hne
    have hzero := congrArg List.length hnil
    rw [length_load, length_nil] at hzero
    omega

/-- **One call.** The buffer replies as the stream does, and a call that raises changes nothing. -/
theorem Holds.call (c : BufferCall) :
    ∃ s', ByteStream.Serves b.size s c (b.call c).1 s' ∧ (b.call c).2.Holds s' ∧
      (b.call c).2.size = b.size ∧ ∀ e, (b.call c).1 = .raised e → (b.call c).2 = b := by
  have havail := h.avail
  have hfits := h.fits
  cases c with
  | write bytes count =>
    by_cases hroom : s.unread.length + count ≤ b.size
    · obtain ⟨b', hwrite, hholds, hsize⟩ := h.write bytes hroom
      rw [ByteBuffer.call, reply, hwrite]
      exact ⟨_, by rw [ByteStream.Serves, if_pos hroom]; exact ⟨rfl, rfl⟩, hholds, hsize, nofun⟩
    · have hxrun : ByteBuffer.write bytes count b = .error .writeXrun b := by
        rw [ByteBuffer.write, get_bind, if_pos (by rw [h.writeAvail]; omega)]
        rfl
      rw [ByteBuffer.call, reply, hxrun]
      exact ⟨s, by rw [ByteStream.Serves, if_neg hroom]; exact ⟨rfl, rfl⟩, h, rfl, fun _ _ => rfl⟩
  | rewrite offset bytes count =>
    by_cases hroom : offset + count ≤ s.unread.length
    · obtain ⟨b', hrewrite, hholds, hsize⟩ := h.rewrite bytes hroom
      rw [ByteBuffer.call, reply, hrewrite]
      exact ⟨_, by rw [ByteStream.Serves, if_pos hroom]; exact ⟨rfl, rfl⟩, hholds, hsize, nofun⟩
    · have hxrun : ByteBuffer.rewrite offset bytes count b = .error .rewriteXrun b := by
        rw [ByteBuffer.rewrite, get_bind, if_pos (by omega)]
        rfl
      rw [ByteBuffer.call, reply, hxrun]
      exact ⟨s, by rw [ByteStream.Serves, if_neg hroom]; exact ⟨rfl, rfl⟩, h, rfl, fun _ _ => rfl⟩
  | read bytes count =>
    by_cases hroom : count ≤ s.unread.length
    · have htake : b.buf.loadRing b.size b.readIdx.toNat count = s.unread.take count := by
        have hbytes := h.bytes
        obtain ⟨rest, hrest⟩ := Nat.exists_eq_add_of_le hroom
        rw [hrest, Mem.loadRing_add] at hbytes
        rw [← hbytes, take_left' Mem.length_loadRing]
      rw [ByteBuffer.call, reply, read_eq b bytes (by omega) (by omega), htake]
      exact ⟨_, by rw [ByteStream.Serves, if_pos hroom]; exact ⟨rfl, rfl⟩, h.advanceRead hroom, rfl,
        nofun⟩
    · have hxrun : ByteBuffer.read bytes count b = .error .readXrun b := by
        rw [ByteBuffer.read, get_bind, if_pos (by omega)]
        rfl
      rw [ByteBuffer.call, reply, hxrun]
      exact ⟨s, by rw [ByteStream.Serves, if_neg hroom]; exact ⟨rfl, rfl⟩, h, rfl, fun _ _ => rfl⟩
  | drop count =>
    by_cases hroom : count ≤ s.unread.length
    · have hdrop : ByteBuffer.drop count b =
          .ok () { b with readIdx := ofNat 32 (b.readIdx.toNat + count) } := by
        rw [ByteBuffer.drop, get_bind, if_neg (by omega)]
        rfl
      rw [ByteBuffer.call, reply, hdrop]
      exact ⟨_, by rw [ByteStream.Serves, if_pos hroom]; exact ⟨rfl, rfl⟩, h.advanceRead hroom, rfl,
        nofun⟩
    · have hxrun : ByteBuffer.drop count b = .error .readXrun b := by
        rw [ByteBuffer.drop, get_bind, if_pos (by omega)]
        rfl
      rw [ByteBuffer.call, reply, hxrun]
      exact ⟨s, by rw [ByteStream.Serves, if_neg hroom]; exact ⟨rfl, rfl⟩, h, rfl, fun _ _ => rfl⟩
  | peek =>
    obtain ⟨bytes, hcopy, hbegins, hsome⟩ := h.peek
    rw [ByteBuffer.call, reply, hcopy]
    exact ⟨s, ⟨rfl, bytes, rfl, hbegins, hsome⟩, h, rfl, nofun⟩

theorem Holds.calls (cs : List BufferCall) :
    ∃ s', ByteStream.ServesAll b.size s cs (b.calls cs).1 s' ∧ (b.calls cs).2.Holds s' ∧
      (b.calls cs).2.size = b.size := by
  induction cs generalizing b s with
  | nil => exact ⟨s, rfl, h, rfl⟩
  | cons c cs ih =>
    obtain ⟨t, hserves, hholds, hsize, -⟩ := h.call c
    obtain ⟨s', hrest, hholds', hsize'⟩ := ih hholds
    rw [hsize] at hrest
    exact ⟨s', ⟨t, hserves, hrest⟩, hholds', hsize'.trans hsize⟩

end ByteBuffer

/-- **The buffer is a byte FIFO.** From any indices that are the same, it replies to all calls as a
stream does. After them the bytes that can be read and those that can be written make up the size,
and a call that raises then changes nothing. -/
theorem buffer_serves_stream (b : ByteBuffer) (h : b.readIdx = b.writeIdx) (cs : List BufferCall) :
    ∃ s, ByteStream.ServesAll b.size ⟨[], 0⟩ cs (b.calls cs).1 s ∧
      (b.calls cs).2.readAvail = s.unread.length ∧
      (b.calls cs).2.readAvail + (b.calls cs).2.writeAvail = b.size ∧
      0 ≤ (b.calls cs).2.writeAvail ∧
      ∀ c e, ((b.calls cs).2.call c).1 = .raised e →
        ((b.calls cs).2.call c).2 = (b.calls cs).2 := by
  obtain ⟨s, hserves, hholds, hsize⟩ := (ByteBuffer.holds_empty h).calls cs
  have hfits := hholds.fits
  refine ⟨s, hserves, hholds.avail, ?_, ?_, fun c => ?_⟩
  · rw [hholds.writeAvail, hholds.avail]
    omega
  · rw [hholds.writeAvail]
    omega
  · obtain ⟨-, -, -, -, hsame⟩ := hholds.call c
    exact hsame

/-- Sixteen bytes from index 2 ^ 32 - 5 on. -/
def ByteBuffer.nearWrap : ByteBuffer :=
  ⟨0xfffffffb, 0xfffffffb, 16, fun _ => 0, by decide, by decide⟩

/-- Eight bytes are written over the wrap of the indices. -/
theorem buffer_serves_stream_over_wrap :
    (ByteBuffer.nearWrap.calls [.write UInt8.ofNat 8, .peek]).2.writeIdx = 3 ∧
      ∃ s, ByteStream.ServesAll 16 ⟨[], 0⟩ [.write UInt8.ofNat 8, .peek]
        (ByteBuffer.nearWrap.calls [.write UInt8.ofNat 8, .peek]).1 s := by
  refine ⟨rfl, ?_⟩
  obtain ⟨s, hserves, -⟩ := buffer_serves_stream .nearWrap rfl [.write UInt8.ofNat 8, .peek]
  exact ⟨s, hserves⟩

end Snabb
