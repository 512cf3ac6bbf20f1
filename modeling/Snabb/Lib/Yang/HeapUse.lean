import Snabb.Foundation.Memory
import Snabb.Lib.Yang.Heap

/-!
# Heaps in use (`lib/yang/list.lua`, `Heap`)

A history of allocations, writes and releases, with the memory of the blocks and what the owner of
each region has put there. The memory is named by offsets, as `Heap:ptr` finds it.

- `heap_is_sound`: no region that is allocated meets another, or loses a byte.
-/

namespace Snabb

open Foundation
open List hiding beq_eq_decide

/-- What a caller does: it asks for memory, writes to what it was given, or gives it back. -/
inductive HeapOp where
  | allocate (bytes : Nat)
  | write (o : Nat) (data : List UInt8)
  | free (o bytes : Nat)

/-- A heap with its memory, and the regions that are allocated with their contents. -/
structure HeapUse where
  heap : Heap
  mem : Mem
  live : List (Heap.Region × List UInt8)

namespace HeapUse

open Heap

variable {s s' : HeapUse} {op : HeapOp} {r : Region} {live : List (Region × List UInt8)}

instance : Std.Symm Apart := ⟨fun _ _ => Or.symm⟩

/-- The heap that was just made, with any memory. -/
def new (mem : Mem) : HeapUse := ⟨.new, mem, []⟩

/-- One call. `allocate` fills the region with zeros. -/
def step (s : HeapUse) : HeapOp → Except HeapFault HeapUse
  | .allocate bytes => do
    let (heap, o) ← s.heap.allocate bytes
    let zeros := List.replicate bytes 0
    return ⟨heap, s.mem.store o zeros, ((o, bytes), zeros) :: s.live⟩
  | .write o data =>
    .ok ⟨s.heap, s.mem.store o data, s.live.map fun x =>
      if x.1 = (o, data.length) then (x.1, data) else x⟩
  | .free o bytes => do
    let heap ← s.heap.release o bytes
    return ⟨heap, s.mem, s.live.filter fun x => x.1 ≠ (o, bytes)⟩

/-- The regions that are allocated. -/
def regions (s : HeapUse) : List Region := s.live.map fun x => x.1

/-- The caller asks for 1 to `block_size` bytes, and writes and frees what it was given, with its
own size. The heap has less than 2 ^ 31 bytes. -/
def Proper (s : HeapUse) (op : HeapOp) : Prop :=
  s.heap.maxfree < 2 ^ 31 ∧
  match op with
  | .allocate bytes => 1 ≤ bytes ∧ bytes ≤ blockSize
  | .write o data => (o, data.length) ∈ s.regions
  | .free o bytes => (o, bytes) ∈ s.regions

instance (s : HeapUse) : DecidablePred (Proper s)
  | .allocate _ => inferInstanceAs (Decidable (_ ∧ _ ∧ _))
  | .write .. => inferInstanceAs (Decidable (_ ∧ _))
  | .free .. => inferInstanceAs (Decidable (_ ∧ _))

/-- Regions do not meet and lie in blocks that exist, they keep what their owner has put there, and
the counter of a line is the number of the regions that touch it, at most as many as the line has
bytes. -/
structure Sound (s : HeapUse) : Prop where
  apart : s.regions.Pairwise Apart
  block : ∀ r ∈ s.regions, 0 < r.2 ∧ r.1 % blockSize + r.2 ≤ blockSize ∧
    r.1 / blockSize ≤ s.heap.maxblock
  contents : ∀ x ∈ s.live, s.mem.load x.1.1 x.1.2 = x.2
  counters : ∀ l, s.heap.ref l = touching s.regions l ∧ s.heap.ref l ≤ lineSize

/-- The invariant: the heap holds the regions, and the memory their contents. -/
structure Held (s : HeapUse) : Prop where
  holds : s.heap.Holds s.regions
  contents : ∀ x ∈ s.live, s.mem.load x.1.1 x.1.2 = x.2

theorem Held.sound (h : Held s) : Sound s where
  apart := h.holds.apart
  block r hr := by
    refine ⟨h.holds.pos r hr, h.holds.block r hr, ?_⟩
    have hpos := h.holds.pos r hr
    have hbelow := (h.holds.below r hr).trans h.holds.free_le
    rw [h.holds.maxfree] at hbelow
    refine Nat.lt_succ_iff.mp ((Nat.div_lt_iff_lt_mul (by decide)).mpr ?_)
    exact (Nat.lt_add_of_pos_right hpos).trans_le hbelow
  contents := h.contents
  counters l := by
    have hcount := touching_le h.holds.pos h.holds.apart l
    rw [h.holds.refs]
    exact ⟨rfl, hcount⟩

variable {data : List UInt8} {o : Nat}

theorem load_store_apart {m : Mem} {n : Nat} (hapart : Apart (o, n) r) (hdata : data.length = n) :
    (m.store o data).load r.1 r.2 = m.load r.1 r.2 := by
  refine Mem.load_store_disjoint m ?_
  simp only [Apart] at hapart
  omega

/-- **`allocate` returns zeroed memory and touches no other region.** -/
theorem allocate_held {bytes : Nat} (h : Held s) (hp : Proper s (.allocate bytes)) :
    ∃ s', step s (.allocate bytes) = .ok s' ∧ Held s' := by
  obtain ⟨hroom, hpos, hsize⟩ := hp
  obtain ⟨heap, o, halloc, hholds, -⟩ := allocate_spec h.holds hpos hsize hroom
  refine ⟨_, bind_of_eq_ok halloc, hholds, forall_mem_cons.mpr ⟨?_, fun x hx => ?_⟩⟩
  · exact Mem.load_store_self s.mem o _ length_replicate.symm
  · have hapart := (pairwise_cons.mp hholds.apart).1 x.1 (mem_map_of_mem hx)
    exact (load_store_apart hapart length_replicate).trans (h.contents x hx)

theorem write_held (h : Held s) (hp : Proper s (.write o data)) :
    ∃ s', step s (.write o data) = .ok s' ∧ Held s' := by
  have hregions : (s.live.map fun x => if x.1 = (o, data.length) then (x.1, data) else x).map
      (fun x => x.1) = s.regions := by
    rw [map_map]
    refine map_congr_left fun x _ => ?_
    simp only [Function.comp_apply]
    split_ifs <;> rfl
  refine ⟨_, rfl, ?_, fun x hx => ?_⟩
  · show s.heap.Holds (List.map _ (List.map _ s.live))
    rw [hregions]
    exact h.holds
  · obtain ⟨y, hy, rfl⟩ := mem_map.mp hx
    by_cases heq : y.1 = (o, data.length)
    · rw [if_pos heq]
      show (s.mem.store o data).load y.1.1 y.1.2 = data
      rw [heq]
      exact Mem.load_store_self s.mem o data rfl
    · rw [if_neg heq]
      have hapart : Apart (o, data.length) y.1 :=
        h.holds.apart.forall hp.2 (mem_map_of_mem hy) (Ne.symm heq)
      exact (load_store_apart hapart rfl).trans (h.contents y hy)

theorem free_held {o bytes : Nat} (h : Held s) (hp : Proper s (.free o bytes)) :
    ∃ s', step s (.free o bytes) = .ok s' ∧ Held s' := by
  have hnodup : s.regions.Nodup := by
    refine h.holds.apart.imp_of_mem fun {r r'} hr _ hapart => ?_
    rintro rfl
    have hpos := h.holds.pos r hr
    simp only [Apart] at hapart
    omega
  have hfilter : (s.live.filter fun x => x.1 ≠ (o, bytes)).map (fun x => x.1) =
      s.regions.erase (o, bytes) := by
    rw [hnodup.erase_eq_filter, regions, filter_map]
    congr 2
    funext x
    rw [Function.comp_apply, bne, beq_eq_decide, decide_not]
  have hperm := perm_cons_erase hp.2
  obtain ⟨heap, hrelease, hholds, -⟩ := release_spec (h.holds.perm hperm)
  refine ⟨_, bind_of_eq_ok hrelease, ?_, fun x hx => ?_⟩
  · show heap.Holds (List.map _ (List.filter _ s.live))
    rw [hfilter]
    exact hholds
  · exact h.contents x (mem_filter.mp hx).1

theorem step_held (h : Held s) (hp : Proper s op) : ∃ s', step s op = .ok s' ∧ Held s' := by
  cases op with
  | allocate bytes => exact allocate_held h hp
  | write o data => exact write_held h hp
  | free o bytes => exact free_held h hp

/-- **The heap never overlaps regions that are allocated**: in every run of allocations, writes to
what was allocated, and releases with the right size, every call returns, and in every state no
two regions meet, each lies in one block and keeps its contents, zeros at first, and no counter
leaves its range. -/
theorem heap_is_sound (mem : Mem) (ops : List HeapOp) (h : Along step Proper (new mem) ops) :
    (∃ s, run step (new mem) ops = .ok s) ∧
      ∀ k s, run step (new mem) (ops.take k) = .ok s → Sound s := by
  have hinit : Held (new mem) := ⟨holds_new, fun _ hx => nomatch hx⟩
  obtain ⟨hreturns, hall⟩ := run_total_all (fun _ _ => step_held) hinit h
  exact ⟨hreturns, fun k s hrun => (hall k s hrun).sound⟩

/-- Regions of several sizes, of which two are freed and one is taken from a hole. -/
def sampleOps : List HeapOp :=
  [.allocate 64, .write 0 (List.replicate 64 1), .allocate 8192, .free 0 64, .allocate 100,
    .allocate 130, .free 8192 8192]

theorem sample_heap_is_sound :
    Along step Proper (new fun _ => 7) sampleOps ∧
    (∃ s, run step (new fun _ => 7) sampleOps = .ok s) ∧
    ∀ k s, run step (new fun _ => 7) (sampleOps.take k) = .ok s → Sound s := by
  have halong : Along step Proper (new fun _ => 7) sampleOps := by decide +kernel
  exact ⟨halong, heap_is_sound _ _ halong⟩

end HeapUse

end Snabb
