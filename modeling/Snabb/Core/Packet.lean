import Snabb.Foundation.Memory
import Mathlib.Tactic.Linarith

/-!
# Packets (`core/packet.lua`, `core/packet.h`)

A packet lives inside one allocation of `packet_size + packet_alignment` bytes
whose base address is a multiple of `packet_alignment`. The packet structure
starts `headroom` bytes after the base: a 16-bit length, then the payload. To
prepend or remove a header Snabb moves the structure inside its allocation
instead of copying the payload, and falls back to `memmove` when the headroom
does not allow it.

`Packet` keeps the whole allocation, so bytes before and behind the payload are
part of the model: a read that leaves the payload sees what is really there.
The two facts every pointer satisfies (the headroom is below 512 and even) are
fields, so an operation that would produce a misaligned packet cannot be written.

The specifications are `shiftright_spec` and `shiftleft_spec`: whatever the
headroom is and whichever path the code takes, the payload survives.
-/

namespace Snabb

open Foundation

/-- The run-time errors a modelled Lua function can raise. -/
inductive Raise where
  /-- A failed `assert`. -/
  | assertionFailed
  /-- Indexing a variable that holds `nil`. -/
  | indexNil (name : String)
  /-- Comparing `nil` with a number. -/
  | compareNil
  /-- Dequeuing from an empty ring, which the ring buffers do not check for. -/
  | emptyBuffer
deriving DecidableEq, Repr

/-- `PACKET_PAYLOAD_SIZE`. -/
def maxPayload : Nat := 10 * 1024

def packetAlignment : Nat := 512

def defaultHeadroom : Nat := 256

def minimumAlignment : Nat := 2

/-- The bytes of `struct packet` in front of its payload: `uint16_t length`. -/
def lengthFieldSize : Nat := 2

/-- `struct packet`, together with the allocation it sits in. `base` names the
allocation: it is what stays the same when the structure is moved. -/
structure Packet where
  base : Nat
  headroom : Nat
  length : Nat
  mem : Mem
  headroom_lt : headroom < packetAlignment
  headroom_even : headroom % minimumAlignment = 0
  length_lt : length < 2 ^ 16

namespace Packet

/-- The offset of `p.data` in the allocation. -/
def data (p : Packet) : Nat := p.headroom + lengthFieldSize

/-- The bytes `p.data[k] .. p.data[k + n - 1]`, inside the payload or not. -/
def window (p : Packet) (k n : Nat) : List UInt8 := p.mem.load (p.data + k) n

/-- `p.data[k]`. -/
def byte (p : Packet) (k : Nat) : UInt8 := p.mem (p.data + k)

/-- The payload. -/
def bytes (p : Packet) : List UInt8 := p.window 0 p.length

/-- `ffi.copy(p.data + k, bs, #bs)`. -/
def write (p : Packet) (k : Nat) (bs : List UInt8) : Packet :=
  { p with mem := p.mem.store (p.data + k) bs }

variable (p : Packet)
include p

@[simp] theorem write_base (k : Nat) (bs : List UInt8) : (p.write k bs).base = p.base := rfl

@[simp] theorem write_length (k : Nat) (bs : List UInt8) : (p.write k bs).length = p.length := rfl

@[simp] theorem length_window (k n : Nat) : (p.window k n).length = n := by
  simp [window]

@[simp] theorem length_bytes : p.bytes.length = p.length := by
  simp [bytes]

theorem window_one (k : Nat) : p.window k 1 = [p.byte k] := rfl

theorem window_add (k n d : Nat) : p.window k (n + d) = p.window k n ++ p.window (k + n) d := by
  rw [window, Mem.load_add, Nat.add_assoc]
  rfl

theorem drop_window {k n j : Nat} (h : j ≤ n) :
    (p.window k n).drop j = p.window (k + j) (n - j) := by
  rw [window, Mem.drop_load _ _ _ _ h, Nat.add_assoc]
  rfl

theorem take_window {k n j : Nat} (h : j ≤ n) : (p.window k n).take j = p.window k j :=
  Mem.take_load _ _ _ _ h

theorem window_write_self (k : Nat) (bs : List UInt8) {n : Nat}
    (hn : n = bs.length) : (p.write k bs).window k n = bs :=
  Mem.load_store_self p.mem _ bs hn

theorem window_write_inside (k j n : Nat) (bs : List UInt8)
    (h : j + n ≤ bs.length) : (p.write k bs).window (k + j) n = (bs.drop j).take n := by
  rw [← Mem.load_store_inside p.mem (p.data + k) j n bs h, Nat.add_assoc]
  rfl

theorem window_write_disjoint {k j n : Nat} {bs : List UInt8}
    (h : j + n ≤ k ∨ k + bs.length ≤ j) : (p.write k bs).window j n = p.window j n := by
  refine Mem.load_store_disjoint p.mem ?_
  show p.data + j + n ≤ p.data + k ∨ p.data + k + bs.length ≤ p.data + j
  omega

theorem drop_bytes {k : Nat} (h : k ≤ p.length) : p.bytes.drop k = p.window k (p.length - k) := by
  rw [bytes, drop_window p h, Nat.zero_add]

theorem window_eq_bytes {k n : Nat} (h : k + n ≤ p.length) :
    p.window k n = (p.bytes.drop k).take n := by
  rw [drop_bytes p (by omega), take_window p (by omega)]

end Packet

/-! ## Moving a packet inside its allocation -/

/-- `headroom_valid`. -/
def headroomValid (headroom : Int) : Prop :=
  0 ≤ headroom ∧ headroom < packetAlignment ∧ headroom % minimumAlignment = 0

instance (headroom : Int) : Decidable (headroomValid headroom) :=
  inferInstanceAs (Decidable (_ ∧ _ ∧ _))

namespace Packet

/-- Place the structure at a new headroom of the same allocation, over the
memory `mem`, and store the new length in front of the payload. -/
def place (p : Packet) (headroom len : Nat) (mem : Mem)
    (hlt : headroom < packetAlignment) (heven : headroom % minimumAlignment = 0) : Packet where
  base := p.base
  headroom := headroom
  length := len % 2 ^ 16
  mem := mem.store headroom (leBytes lengthFieldSize len)
  headroom_lt := hlt
  headroom_even := heven
  length_lt := Nat.mod_lt _ (by decide)

/-- `p.length = len`. -/
def setLength (p : Packet) (len : Nat) : Packet :=
  p.place p.headroom len p.mem p.headroom_lt p.headroom_even

/-- `packet.from_pointer`: copy `bs` into a packet of a new allocation, which has
the default headroom. -/
def fromPointer (base : Nat) (bs : List UInt8) : Packet where
  base := base
  headroom := defaultHeadroom
  length := bs.length % 2 ^ 16
  mem := Mem.store (fun _ => 0) (defaultHeadroom + lengthFieldSize) bs
  headroom_lt := by decide
  headroom_even := by decide
  length_lt := Nat.mod_lt _ (by decide)

/-- `packet.shiftleft`: drop `bytes` bytes at the front of the payload. -/
def shiftleft (p : Packet) (bytes : Nat) : Except Raise Packet :=
  if bytes ≤ p.length then
    if h : headroomValid (bytes + p.headroom : Nat) then
      -- fast path: just shift the packet pointer
      .ok (p.place (bytes + p.headroom) (p.length - bytes) p.mem
        (by have := h.2.1; omega) (by have := h.2.2; omega))
    else
      -- slow path: shift the payload, resetting the default headroom
      .ok (p.place defaultHeadroom (p.length - bytes)
        (p.mem.memmove (defaultHeadroom + lengthFieldSize) (p.data + bytes) (p.length - bytes))
        (by decide) (by decide))
  else
    .error .assertionFailed

/-- `packet.shiftright`: make room for `bytes` bytes in front of the payload. -/
def shiftright (p : Packet) (bytes : Nat) : Except Raise Packet :=
  if h : headroomValid ((p.headroom : Int) - bytes) then
    -- fast path: just shift the packet pointer, the payload size is not checked
    .ok (p.place (p.headroom - bytes) (p.length + bytes) p.mem
      (by have := p.headroom_lt; omega)
      (by
        have h₀ := h.1
        have h₂ := h.2.2
        simp only [minimumAlignment] at h₂ ⊢
        omega))
  else if (bytes : Int) ≤ (maxPayload : Int) - p.length then
    .ok (p.place defaultHeadroom (p.length + bytes)
      (p.mem.memmove (defaultHeadroom + lengthFieldSize + bytes) p.data p.length)
      (by decide) (by decide))
  else
    .error .assertionFailed

/-- The length field sits right in front of the payload, so storing it leaves
every byte from `data` on alone. -/
theorem window_place (p : Packet) {headroom len : Nat} {mem : Mem}
    {hlt : headroom < packetAlignment} {heven : headroom % minimumAlignment = 0} (k n : Nat) :
    (p.place headroom len mem hlt heven).window k n =
      mem.load (headroom + lengthFieldSize + k) n := by
  refine Mem.load_store_disjoint mem (Or.inr ?_)
  show headroom + (leBytes lengthFieldSize len).length ≤ headroom + lengthFieldSize + k
  rw [length_leBytes]
  omega

variable {n : Nat}

/-- **`shiftright` keeps the payload**, whichever path it takes: the old payload
stands behind the `n` new bytes. -/
theorem shiftright_spec (p : Packet) (h : p.length + n ≤ maxPayload) :
    ∃ q, p.shiftright n = .ok q ∧ q.base = p.base ∧ q.length = p.length + n ∧
      q.window n p.length = p.bytes := by
  have hmod : (p.length + n) % 2 ^ 16 = p.length + n :=
    Nat.mod_eq_of_lt (by simp only [maxPayload] at h; omega)
  by_cases hv : headroomValid (p.headroom - n)
  · rw [shiftright, dif_pos hv]
    refine ⟨_, rfl, rfl, hmod, ?_⟩
    rw [window_place, bytes, window, data]
    congr 1
    have := hv.1
    omega
  · rw [shiftright, dif_neg hv, if_pos (by omega)]
    refine ⟨_, rfl, rfl, hmod, ?_⟩
    rw [window_place, bytes, window, Mem.load_memmove, Nat.add_zero]

/-- **`shiftleft` keeps the rest of the payload**, whichever path it takes. -/
theorem shiftleft_spec (p : Packet) (h : n ≤ p.length) :
    ∃ q, p.shiftleft n = .ok q ∧ q.base = p.base ∧ q.length = p.length - n ∧
      q.bytes = p.bytes.drop n := by
  have hmod : (p.length - n) % 2 ^ 16 = p.length - n :=
    Nat.mod_eq_of_lt (by have := p.length_lt; omega)
  rw [drop_bytes p h]
  by_cases hv : headroomValid (n + p.headroom : Nat)
  · rw [shiftleft, if_pos h, dif_pos hv]
    refine ⟨_, rfl, rfl, hmod, ?_⟩
    rw [bytes, window_place, window, data]
    congr 1
    omega
  · rw [shiftleft, if_pos h, dif_neg hv]
    refine ⟨_, rfl, rfl, hmod, ?_⟩
    rw [bytes, window_place, show (p.place _ _ _ _ _).length = p.length - n from hmod,
      Nat.add_zero, Mem.load_memmove, window]

theorem shiftleft_base {p q : Packet} (h : p.shiftleft n = .ok q) : q.base = p.base := by
  simp only [shiftleft] at h
  split at h
  · split at h <;> · cases h; rfl
  · cases h

theorem shiftright_base {p q : Packet} (h : p.shiftright n = .ok q) : q.base = p.base := by
  simp only [shiftright] at h
  split at h
  · cases h; rfl
  · split at h
    · cases h; rfl
    · cases h

end Packet

end Snabb
