import Snabb.Core.Packet

/-!
# Links (`core/link.lua`, `core/link.h`)

A link is a ring of `LINK_RING_SIZE` slots of which one stays free, so it holds
at most `LINK_MAX_PACKETS` packets. The model is the queue of packets between
the two cursors, oldest first; the bound is a field.

`LinkNo` numbers the two links of a hybrid-access path: `input1` and `input2` of
the recombination, `output1` and `output2` of a load balancer.
-/

namespace Snabb

def linkRingSize : Nat := 1024

def linkMaxPackets : Nat := linkRingSize - 1

/-- `struct link`: the queued packets, oldest first. -/
structure Link where
  packets : List Packet
  fits : packets.length ≤ linkMaxPackets

namespace Link

/-- A link as `link.new` makes it. -/
def new : Link := ⟨[], by decide⟩

def nreadable (r : Link) : Nat := r.packets.length

def nwritable (r : Link) : Nat := linkMaxPackets - r.nreadable

def full (r : Link) : Prop := r.nreadable = linkMaxPackets

instance (r : Link) : Decidable r.full := inferInstanceAs (Decidable (_ = _))

/-- `link.transmit`: a full link keeps its packets (the caller's packet is then
freed and counted in `txdrop`). -/
def transmit (r : Link) (p : Packet) : Link :=
  if h : r.full then r
  else ⟨r.packets ++ [p], by
    have hfits := r.fits
    have hroom : r.packets.length ≠ linkMaxPackets := h
    simp only [List.length_append, List.length_singleton]
    omega⟩

/-- The link after its receiver has taken the `n` oldest packets. -/
def drain (r : Link) (n : Nat) : Link :=
  ⟨r.packets.drop n, by
    have hfits := r.fits
    simp only [List.length_drop]
    omega⟩

/-- A link that was handed `ps` while it was empty. -/
def holding (ps : List Packet) : Link := ⟨ps.take linkMaxPackets, List.length_take_le _ _⟩

theorem packets_transmit {r : Link} {p : Packet} (h : ¬ r.full) :
    (r.transmit p).packets = r.packets ++ [p] := by
  rw [transmit, dif_neg h]

end Link

/-- The number of a link: the loops over the links run from 1 to 2. -/
inductive LinkNo where
  | one
  | two
deriving DecidableEq, Repr

instance LinkNo.decidableForall {P : LinkNo → Prop} [∀ i, Decidable (P i)] :
    Decidable (∀ i, P i) :=
  decidable_of_iff (P one ∧ P two)
    ⟨fun h i => match i with
      | one => h.1
      | two => h.2, fun h => ⟨h one, h two⟩⟩

/-- `3 - i`. -/
def LinkNo.other : LinkNo → LinkNo
  | one => two
  | two => one

@[simp] theorem LinkNo.other_other (i : LinkNo) : i.other.other = i := by
  cases i <;> rfl

@[simp] theorem LinkNo.other_ne (i : LinkNo) : i.other ≠ i := by
  cases i <;> decide

@[simp] theorem LinkNo.ne_other (i : LinkNo) : i ≠ i.other := by
  cases i <;> decide

theorem LinkNo.eq_other_of_ne {i j : LinkNo} (h : j ≠ i) : j = i.other := by
  cases i <;> cases j <;> first | rfl | exact absurd rfl h

end Snabb
