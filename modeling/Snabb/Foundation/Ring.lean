import Mathlib.Data.List.Basic
import Mathlib.Data.List.Range
import Mathlib.Logic.Function.Basic

/-!
# Ring buffers

A ring buffer is an array of `size` slots with two cursors: `read` is the next slot
to be read, `write` the next one to be written, and both move around the array. One
slot stays free, so that equal cursors mean an empty ring.

`Holds r xs` says that the slots between the cursors hold the queue `xs`; what the
other slots hold does not matter. The rules of this module are all that a proof
about a ring needs: what the cursors tell about the queue (`isEmpty_iff`,
`isFull_iff`, `count_eq`, `peek_eq`), and what the operations do to it (`enqueue`,
`dequeue`).
-/

namespace Foundation

open List

/-- An array of `size` slots with a read and a write cursor. -/
structure Ring (α : Type) (size : Nat) where
  slots : Nat → α
  read : Nat
  write : Nat

namespace Ring

variable {α : Type} {size : Nat}

/-- An empty ring; what its slots hold is left open. -/
def new (slots : Nat → α) : Ring α size := ⟨slots, 0, 0⟩

/-- Put an element into the slot of the write cursor. -/
def enqueue (r : Ring α size) (x : α) : Ring α size :=
  { r with slots := Function.update r.slots r.write x, write := (r.write + 1) % size }

/-- Move the read cursor on. -/
def dequeue (r : Ring α size) : Ring α size := { r with read := (r.read + 1) % size }

/-- The number of slots from the read cursor to the write cursor. -/
def count (r : Ring α size) : Nat :=
  if r.read ≤ r.write then r.write - r.read else r.write + size - r.read

/-- What the slots between the cursors hold, oldest first. -/
def contents (r : Ring α size) : List α :=
  (List.range r.count).map fun k => r.slots ((r.read + k) % size)

/-- The slots between the cursors hold the queue `xs`. -/
structure Holds (r : Ring α size) (xs : List α) : Prop where
  read_lt : r.read < size
  write_eq : r.write = (r.read + xs.length) % size
  room : xs.length < size
  slots : ∀ k (h : k < xs.length), r.slots ((r.read + k) % size) = xs[k]

variable {r : Ring α size} {xs : List α} {x : α} {a b : Nat}

/-- Two counters that are less than `size` apart are the same if their cursors are. -/
theorem eq_of_mod_eq (h : a % size = b % size) (hle : b ≤ a) (hlt : a < b + size) : a = b := by
  have hzero := Nat.sub_mod_eq_zero_of_mod_eq h
  rw [Nat.mod_eq_of_lt (by omega)] at hzero
  omega

/-- The next counter with the same cursor is `size` ahead. -/
theorem lt_add_iff_of_mod_eq (h : a % size = b % size) (hsize : 0 < size) :
    a < b + size ↔ a ≤ b := by
  constructor
  · intro hlt
    by_contra hgt
    have heq := eq_of_mod_eq h (Nat.le_of_not_le hgt) hlt
    omega
  · omega

/-- A sum of two numbers below `size` wraps at most once. -/
theorem add_mod_of_lt (ha : a < size) (hb : b < size) :
    (a + b) % size = if a + b < size then a + b else a + b - size := by
  split
  · exact Nat.mod_eq_of_lt ‹_›
  · rw [Nat.mod_eq_sub_mod (by omega), Nat.mod_eq_of_lt (by omega)]

theorem Holds.new (slots : Nat → α) (h : 0 < size) : (new slots : Ring α size).Holds [] where
  read_lt := h
  write_eq := (Nat.zero_mod _).symm
  room := h
  slots _ h := absurd h (Nat.not_lt_zero _)

theorem Holds.isEmpty_iff (h : r.Holds xs) : r.read = r.write ↔ xs = [] := by
  have hread := h.read_lt
  have hroom := h.room
  rw [h.write_eq, add_mod_of_lt hread hroom]
  constructor
  · intro heq
    refine eq_nil_of_length_eq_zero ?_
    split at heq <;> omega
  · rintro rfl
    simp [hread]

theorem Holds.isFull_iff (h : r.Holds xs) :
    (r.write + 1) % size = r.read ↔ xs.length + 1 = size := by
  have hread := h.read_lt
  have hroom := h.room
  rw [h.write_eq, Nat.mod_add_mod, Nat.add_assoc]
  rcases Nat.lt_or_eq_of_le (Nat.succ_le_of_lt hroom) with hlt | heq
  · rw [add_mod_of_lt hread hlt]
    split <;> omega
  · rw [show xs.length + 1 = size from heq, Nat.add_mod_right, Nat.mod_eq_of_lt hread]
    simp

theorem Holds.count_eq (h : r.Holds xs) : r.count = xs.length := by
  have hread := h.read_lt
  have hroom := h.room
  rw [count, h.write_eq, add_mod_of_lt hread hroom]
  split <;> split <;> omega

/-- The slot of the read cursor holds the oldest element. -/
theorem Holds.peek_eq {rest : List α} (h : r.Holds (x :: rest)) : r.slots r.read = x := by
  have hfirst := h.slots 0 (Nat.succ_pos _)
  rwa [Nat.add_zero, Nat.mod_eq_of_lt h.read_lt] at hfirst

theorem Holds.contents_eq (h : r.Holds xs) : r.contents = xs := by
  refine ext_getElem ?_ fun k h₁ h₂ => ?_
  · simp [contents, h.count_eq]
  · simpa [contents] using h.slots k h₂

/-- Whatever the cursors are, the ring holds what stands between them. -/
theorem holds_contents (hread : r.read < size) (hwrite : r.write < size) :
    r.Holds r.contents where
  read_lt := hread
  write_eq := by
    simp only [contents, length_map, length_range, count]
    split
    · rw [Nat.add_sub_cancel' ‹_›, Nat.mod_eq_of_lt hwrite]
    · rw [Nat.add_sub_cancel' (by omega), Nat.add_mod_right, Nat.mod_eq_of_lt hwrite]
  room := by
    simp only [contents, length_map, length_range, count]
    split <;> omega
  slots := by
    intro k hk
    simp [contents]

/-- **Enqueuing** appends to the queue, as long as a slot stays free. -/
theorem Holds.enqueue (h : r.Holds xs) (x : α) (hroom : xs.length + 1 < size) :
    (r.enqueue x).Holds (xs ++ [x]) where
  read_lt := h.read_lt
  write_eq := by
    show (r.write + 1) % size = (r.read + (xs ++ [x]).length) % size
    rw [h.write_eq, Nat.mod_add_mod, List.length_append, length_singleton, Nat.add_assoc]
  room := by
    rw [List.length_append]
    exact hroom
  slots := by
    intro k hk
    show Function.update r.slots r.write x ((r.read + k) % size) = (xs ++ [x])[k]
    rw [List.length_append, length_singleton] at hk
    by_cases hlast : k = xs.length
    · subst hlast
      rw [← h.write_eq]
      simp
    · have hlt : k < xs.length := by omega
      rw [Function.update_of_ne, h.slots k hlt, getElem_append_left hlt]
      -- two offsets below `size` do not meet
      have hread := h.read_lt
      rw [h.write_eq, add_mod_of_lt hread (by omega), add_mod_of_lt hread (by omega)]
      split <;> split <;> omega

/-- **Dequeuing** removes the oldest element. -/
theorem Holds.dequeue {rest : List α} (h : r.Holds (x :: rest)) : r.dequeue.Holds rest where
  read_lt := Nat.mod_lt _ (Nat.zero_lt_of_lt h.read_lt)
  write_eq := by
    show r.write = ((r.read + 1) % size + rest.length) % size
    rw [h.write_eq, Nat.mod_add_mod, length_cons, Nat.add_assoc, Nat.add_comm 1]
  room := Nat.lt_of_succ_lt h.room
  slots := by
    intro k hk
    have hnext := h.slots (k + 1) (Nat.succ_lt_succ hk)
    show r.slots (((r.read + 1) % size + k) % size) = rest[k]
    rw [Nat.mod_add_mod, Nat.add_assoc, Nat.add_comm 1]
    exact hnext

end Ring

end Foundation
