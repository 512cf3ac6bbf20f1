import Snabb.Foundation.Run
import Mathlib.Algebra.BigOperators.Group.Finset.Basic
import Mathlib.Algebra.Order.BigOperators.Group.Finset
import Mathlib.Data.Fintype.Basic
import Mathlib.Data.Multiset.UnionInter

/-!
# Packet freelists (`core/packet.lua`)

Every process keeps a freelist of packets. `allocate` takes a packet from it; when it is
empty, it is refilled from the group freelist that the processes share, and when there is
nothing to be had, with new packets. `free` puts a packet back, also one that another
process has allocated; when the process has a chunk of packets more than it has allocated
itself, it releases a chunk to the group freelist.

The processes run concurrently, so their operations are cut into the steps that touch one
packet or the group freelist (`Mode` says where a process is). Of the group freelist only
this matters here: `start_add` and `start_remove` may fail at any time, and a chunk that
was published is handed to one process only.

The check of `freelist_add` for an overflow is not compiled in, and the model has none:
that a freelist never holds more than `max` packets is proved (`freelists_bounded`).
-/

namespace Snabb

open Foundation List

/-- A packet, by the address of its memory. -/
abbrev PacketPtr := Nat

/-- `group_freelist.chunksize`. -/
def chunksize : Nat := 2048

/-- Where a process is. -/
inductive Mode where
  | idle
  /-- `allocate` is about to call `start_remove`. -/
  | reclaim
  /-- In the loop of `reclaim_step`; `rest` is still in the chunk. -/
  | reclaiming (rest : List PacketPtr)
  /-- In the loop of `preallocate_step`, called by `allocate` or directly. -/
  | preallocating (left : Nat) (inAllocate : Bool)
  /-- `allocate` is about to take the packet that it returns. -/
  | taking
  /-- `free` is about to call `start_add`. -/
  | rebalance
  /-- In the loop of `rebalance_step`, or of `shutdown` for a process that has ended. -/
  | releasing (chunk : List PacketPtr) (left : Nat) (ended : Bool)
  /-- The process has raised an error or was stopped. -/
  | ended
deriving DecidableEq, Repr

/-- The packets that a process has in its hands while it moves a chunk. -/
def Mode.chunk : Mode → List PacketPtr
  | .reclaiming rest => rest
  | .releasing chunk _ _ => chunk
  | _ => []

/-- The state of the module in a process. -/
structure Process where
  /-- The entries of `packets_fl.list` below `nfree`, the last one first. -/
  freelist : List PacketPtr
  max : Nat
  packetsAllocated : Nat
  packetAllocationStep : Nat
  /-- The packets made so far by a `preallocate_step` that has not returned. -/
  made : Nat
  mode : Mode

/-- What the processes share: the published chunks, the packets in use, and the next
address that `memory.dma_alloc` returns. -/
structure Shared where
  group : List (List PacketPtr)
  inUse : List PacketPtr
  fresh : PacketPtr

/-- What happens next to a process. `proceed` is the next step of a call; `answer` says
what the group freelist has answered, if it was asked. -/
inductive Move where
  | allocate
  | free (p : PacketPtr)
  | preallocate
  | proceed (answer : Option Nat)
  /-- The process is stopped, wherever it is. -/
  | stop
  /-- Another process calls `shutdown` for it; `added` is whether `start_add` succeeds. -/
  | shutdown (added : Bool)
deriving DecidableEq, Repr

namespace Process

/-- A process after `initialize`. -/
def new (max : Nat) : Process := ⟨[], max, 0, 1000, 0, .idle⟩

def nfree (p : Process) : Nat := p.freelist.length

/-- `freelist_add`, without the check that is compiled out. -/
def freelistAdd (p : Process) (element : PacketPtr) : Process :=
  { p with freelist := element :: p.freelist }

def needRebalance (p : Process) : Prop := p.packetsAllocated + chunksize ≤ p.nfree

instance (p : Process) : Decidable p.needRebalance := inferInstanceAs (Decidable (_ ≤ _))

/-- The process goes on at another place. -/
def enter (p : Process) (mode : Mode) : Process := { p with mode := mode }

/-- The assertion of `preallocate_step`, and the start of its loop. -/
def startPreallocate (p : Process) (inAllocate : Bool) : Process :=
  if p.packetsAllocated + p.packetAllocationStep + chunksize ≤ p.max then
    p.enter (.preallocating p.packetAllocationStep inAllocate)
  else p.enter .ended

/-- The end of `preallocate_step`. -/
def finishPreallocate (p : Process) : Process := { p with
  packetsAllocated := p.packetsAllocated + p.packetAllocationStep
  packetAllocationStep := 2 * p.packetAllocationStep
  made := 0 }

/-- The part of `allocate` after `reclaim_step`. -/
def afterReclaim (p : Process) : Process :=
  if p.nfree = 0 then p.startPreallocate true else p.enter .taking

/-- One move of a process. -/
def advance (p : Process) (g : Shared) (move : Move) : Option (Process × Shared) :=
  match p.mode, move with
  | .idle, .allocate => some (if p.nfree = 0 then p.enter .reclaim else p.enter .taking, g)
  | .idle, .free x =>
    if x ∈ g.inUse then
      let p := p.freelistAdd x
      some (if p.needRebalance then p.enter .rebalance else p, { g with inUse := g.inUse.erase x })
    else none
  | .idle, .preallocate => some (p.startPreallocate false, g)
  | .reclaim, .proceed none => some (p.afterReclaim, g)
  | .reclaim, .proceed (some k) =>
    match g.group[k]? with
    | some chunk => some (p.enter (.reclaiming chunk), { g with group := g.group.eraseIdx k })
    | none => none
  | .reclaiming (x :: rest), .proceed _ => some ((p.freelistAdd x).enter (.reclaiming rest), g)
  | .reclaiming [], .proceed _ => some (p.afterReclaim, g)
  | .preallocating (n + 1) inAllocate, .proceed _ =>
    some ({ p.freelistAdd g.fresh with
      made := p.made + 1
      mode := .preallocating n inAllocate }, { g with fresh := g.fresh + 1 })
  | .preallocating 0 inAllocate, .proceed _ =>
    some (p.finishPreallocate.enter (if inAllocate then .taking else .idle), g)
  | .taking, .proceed _ =>
    match p.freelist with
    | [] => some (p.enter .ended, g)
    | x :: rest => some ({ p with freelist := rest, mode := .idle }, { g with inUse := x :: g.inUse })
  | .rebalance, .proceed none => some (p.enter .ended, g)
  | .rebalance, .proceed (some _) => some (p.enter (.releasing [] chunksize false), g)
  | .releasing chunk (n + 1) ended, .proceed _ =>
    match p.freelist with
    | [] => some (p.enter .ended, g)
    | x :: rest =>
      some ({ p with freelist := rest, mode := .releasing (x :: chunk) n ended }, g)
  | .releasing chunk 0 ended, .proceed _ =>
    some (p.enter (if ended then .ended else .idle), { g with group := g.group ++ [chunk] })
  | .ended, .shutdown true =>
    if p.nfree = 0 then none
    else some (p.enter (.releasing [] (min chunksize p.nfree) true), g)
  | .ended, .shutdown false => some (p, g)
  | _, .stop => some (p.enter .ended, g)
  | _, _ => none

end Process

/-- The processes of a group. -/
structure PacketSystem (P : Type) where
  process : P → Process
  shared : Shared

namespace PacketSystem

variable {P : Type} [DecidableEq P]

def new (max : P → Nat) : PacketSystem P := ⟨fun p => .new (max p), ⟨[], [], 0⟩⟩

/-- A move of one of the processes. -/
def move (s : PacketSystem P) (next : P × Move) : Option (PacketSystem P) :=
  match (s.process next.1).advance s.shared next.2 with
  | some (p, g) => some ⟨Function.update s.process next.1 p, g⟩
  | none => none

end PacketSystem

/-! ## What a move can do -/

namespace Process

variable {p p' : Process} {g g' : Shared} {move : Move}

/-- The moves of a process, each with the place where the process is. -/
inductive Advances (p : Process) (g : Shared) : Process → Shared → Prop where
  | allocate (hmode : p.mode = .idle) :
      Advances p g (if p.nfree = 0 then p.enter .reclaim else p.enter .taking) g
  | free (x : PacketPtr) (hmode : p.mode = .idle) (hx : x ∈ g.inUse) :
      Advances p g (if (p.freelistAdd x).needRebalance then (p.freelistAdd x).enter .rebalance
        else p.freelistAdd x) { g with inUse := g.inUse.erase x }
  | preallocate (hmode : p.mode = .idle) : Advances p g (p.startPreallocate false) g
  /-- The group freelist has no chunk, or the chunk was moved. -/
  | reclaimed (hmode : p.mode = .reclaim ∨ p.mode = .reclaiming []) : Advances p g p.afterReclaim g
  | startRemove (k : Nat) (chunk : List PacketPtr) (hmode : p.mode = .reclaim)
      (hk : g.group[k]? = some chunk) :
      Advances p g (p.enter (.reclaiming chunk)) { g with group := g.group.eraseIdx k }
  | reclaim (x : PacketPtr) (rest : List PacketPtr) (hmode : p.mode = .reclaiming (x :: rest)) :
      Advances p g ((p.freelistAdd x).enter (.reclaiming rest)) g
  | make (n : Nat) (inAllocate : Bool) (hmode : p.mode = .preallocating (n + 1) inAllocate) :
      Advances p g { p.freelistAdd g.fresh with
        made := p.made + 1
        mode := .preallocating n inAllocate } { g with fresh := g.fresh + 1 }
  | preallocated (inAllocate : Bool) (hmode : p.mode = .preallocating 0 inAllocate) :
      Advances p g (p.finishPreallocate.enter (if inAllocate then .taking else .idle)) g
  | take (x : PacketPtr) (rest : List PacketPtr) (hmode : p.mode = .taking)
      (hfreelist : p.freelist = x :: rest) :
      Advances p g { p with freelist := rest, mode := .idle } { g with inUse := x :: g.inUse }
  | startAdd (hmode : p.mode = .rebalance) : Advances p g (p.enter (.releasing [] chunksize false)) g
  | release (chunk : List PacketPtr) (n : Nat) (ended : Bool) (x : PacketPtr)
      (rest : List PacketPtr) (hmode : p.mode = .releasing chunk (n + 1) ended)
      (hfreelist : p.freelist = x :: rest) :
      Advances p g { p with freelist := rest, mode := .releasing (x :: chunk) n ended } g
  | finish (chunk : List PacketPtr) (ended : Bool) (hmode : p.mode = .releasing chunk 0 ended) :
      Advances p g (p.enter (if ended then .ended else .idle)) { g with group := g.group ++ [chunk] }
  | shutdown (hmode : p.mode = .ended) :
      Advances p g (p.enter (.releasing [] (min chunksize p.nfree) true)) g
  | unchanged : Advances p g p g
  /-- The process is stopped, or raises. -/
  | stop : Advances p g (p.enter .ended) g

theorem advances_of_advance (hmove : p.advance g move = some (p', g')) : Advances p g p' g' := by
  unfold advance at hmove
  split at hmove
  · next hmode =>
    cases hmove
    exact .allocate hmode
  · next x hmode =>
    split at hmove
    · next hx =>
      cases hmove
      exact .free x hmode hx
    · cases hmove
  · next hmode =>
    cases hmove
    exact .preallocate hmode
  · next hmode =>
    cases hmove
    exact .reclaimed (.inl hmode)
  · next k hmode =>
    split at hmove
    · next chunk hk =>
      cases hmove
      exact .startRemove k chunk hmode hk
    · cases hmove
  · next x rest _ hmode =>
    cases hmove
    exact .reclaim x rest hmode
  · next hmode =>
    cases hmove
    exact .reclaimed (.inr hmode)
  · next n inAllocate _ hmode =>
    cases hmove
    exact .make n inAllocate hmode
  · next inAllocate _ hmode =>
    cases hmove
    exact .preallocated inAllocate hmode
  · next hmode =>
    split at hmove
    · cases hmove
      exact .stop
    · next x rest hfreelist =>
      cases hmove
      exact .take x rest hmode hfreelist
  · cases hmove
    exact .stop
  · next hmode =>
    cases hmove
    exact .startAdd hmode
  · next chunk n ended _ hmode =>
    split at hmove
    · cases hmove
      exact .stop
    · next x rest hfreelist =>
      cases hmove
      exact .release chunk n ended x rest hmode hfreelist
  · next chunk ended _ hmode =>
    cases hmove
    exact .finish chunk ended hmode
  · next hmode =>
    split at hmove
    · cases hmove
    · cases hmove
      exact .shutdown hmode
  · cases hmove
    exact .unchanged
  · cases hmove
    exact .stop
  · cases hmove

/-! ## How many packets a freelist holds -/

/-- What is known of the number of packets at each place. Inside of `allocate`,
`preallocate_step` starts with an empty freelist; the doubling of the step is what keeps
its packets below the limit. -/
def InBounds (p : Process) : Prop :=
  match p.mode with
  | .idle => p.made = 0 ∧ p.nfree < p.packetsAllocated + chunksize
  | .reclaim => p.made = 0 ∧ p.nfree = 0
  | .reclaiming rest => p.made = 0 ∧ p.nfree + rest.length ≤ chunksize
  | .preallocating left inAllocate =>
    p.packetsAllocated + p.packetAllocationStep + chunksize ≤ p.max ∧
      p.made + left = p.packetAllocationStep ∧
      if inAllocate then p.nfree = p.made else p.nfree < p.packetsAllocated + p.made + chunksize
  | .taking => p.made = 0 ∧ p.nfree ≤ p.packetsAllocated + chunksize
  | .rebalance => p.made = 0 ∧ p.nfree ≤ p.packetsAllocated + chunksize
  | .releasing chunk left ended =>
    chunk.length + left ≤ chunksize ∧
      if ended then p.nfree ≤ p.max ∧ p.nfree ≤ p.packetsAllocated + p.made + chunksize
      else p.made = 0 ∧ p.nfree ≤ p.packetsAllocated + left
  | .ended => p.nfree ≤ p.max ∧ p.nfree ≤ p.packetsAllocated + p.made + chunksize

/-- The invariant of a process. -/
structure Good (p : Process) : Prop where
  room : chunksize ≤ p.max
  step_eq : p.packetAllocationStep = p.packetsAllocated + 1000
  allocated : p.packetsAllocated = 0 ∨ p.packetsAllocated + chunksize ≤ p.max
  bounds : p.InBounds

theorem good_new {max : Nat} (h : chunksize ≤ max) : Good (new max) :=
  ⟨h, rfl, .inl rfl, rfl, (by decide : 0 < 0 + chunksize)⟩

section

variable (h : Good p)
include h

theorem Good.nfree_le : p.nfree ≤ p.max ∧ p.nfree ≤ p.packetsAllocated + p.made + chunksize := by
  obtain ⟨hroom, hstep, hallocated, hbounds⟩ := h
  unfold InBounds at hbounds
  split at hbounds
  case h_4 => split at hbounds <;> omega
  case h_7 => split at hbounds <;> omega
  all_goals omega

theorem Good.enter {mode : Mode} (hbounds : (p.enter mode).InBounds) : Good (p.enter mode) :=
  ⟨h.room, h.step_eq, h.allocated, hbounds⟩

theorem Good.stop : Good (p.enter .ended) := h.enter h.nfree_le

variable {inAllocate : Bool}

theorem Good.startPreallocate (hmade : p.made = 0)
    (hnfree : if inAllocate then p.nfree = 0 else p.nfree < p.packetsAllocated + chunksize) :
    Good (p.startPreallocate inAllocate) := by
  unfold Process.startPreallocate
  split
  · next hroom =>
    refine h.enter ⟨hroom, by simp [Process.enter, hmade], ?_⟩
    cases inAllocate with
    | true => exact Eq.trans hnfree hmade.symm
    | false =>
      show p.nfree < p.packetsAllocated + p.made + chunksize
      rw [hmade]
      exact hnfree
  · exact h.stop

theorem Good.afterReclaim (hmade : p.made = 0) (hnfree : p.nfree ≤ chunksize) :
    Good p.afterReclaim := by
  unfold Process.afterReclaim
  split
  · next hempty => exact h.startPreallocate hmade hempty
  · refine h.enter ⟨hmade, ?_⟩
    show p.nfree ≤ p.packetsAllocated + chunksize
    omega

theorem Good.free (hmade : p.made = 0)
    (hnfree : p.nfree < p.packetsAllocated + chunksize) (x : PacketPtr) (hmode : p.mode = .idle) :
    Good (if (p.freelistAdd x).needRebalance then (p.freelistAdd x).enter .rebalance
      else p.freelistAdd x) := by
  have hadd : (p.freelistAdd x).nfree = p.nfree + 1 := length_cons
  split
  · refine ⟨h.room, h.step_eq, h.allocated, hmade, ?_⟩
    show (p.freelistAdd x).nfree ≤ p.packetsAllocated + chunksize
    omega
  · next hneed =>
    refine ⟨h.room, h.step_eq, h.allocated, ?_⟩
    simp only [freelistAdd, hmode]
    exact ⟨hmade, Nat.lt_of_not_le hneed⟩

/-- The end of `preallocate_step`: the packets it has made count as allocated. -/
theorem Good.finishPreallocate (hmode : p.mode = .preallocating 0 inAllocate) :
    Good (p.finishPreallocate.enter (if inAllocate then .taking else .idle)) := by
  have hbounds := h.bounds
  simp only [InBounds, hmode] at hbounds
  obtain ⟨hmax, hmade, hnfree⟩ := hbounds
  have hstep := h.step_eq
  refine ⟨h.room, ?_, .inr hmax, ?_⟩
  · show 2 * p.packetAllocationStep = p.packetsAllocated + p.packetAllocationStep + 1000
    omega
  · cases inAllocate with
    | true =>
      refine ⟨rfl, ?_⟩
      show p.nfree ≤ p.packetsAllocated + p.packetAllocationStep + chunksize
      have hall : p.nfree = p.made := hnfree
      omega
    | false =>
      refine ⟨rfl, ?_⟩
      show p.nfree < p.packetsAllocated + p.packetAllocationStep + chunksize
      have hall : p.nfree < p.packetsAllocated + p.made + chunksize := hnfree
      omega

theorem Good.make {n : Nat} (x : PacketPtr) (hmode : p.mode = .preallocating (n + 1) inAllocate) :
    Good { p.freelistAdd x with made := p.made + 1, mode := .preallocating n inAllocate } := by
  have hbounds := h.bounds
  simp only [InBounds, hmode] at hbounds
  obtain ⟨hmax, hmade, hnfree⟩ := hbounds
  refine ⟨h.room, h.step_eq, h.allocated, hmax, ?_, ?_⟩
  · show p.made + 1 + n = p.packetAllocationStep
    omega
  · cases inAllocate with
    | true => exact congrArg (· + 1) hnfree
    | false =>
      show p.freelist.length + 1 < p.packetsAllocated + (p.made + 1) + chunksize
      have hlt : p.freelist.length < p.packetsAllocated + p.made + chunksize := hnfree
      omega

/-- A packet goes from the freelist to the chunk that the process fills. -/
theorem Good.release {chunk rest : List PacketPtr} {n : Nat} {ended : Bool}
    {x : PacketPtr} (hmode : p.mode = .releasing chunk (n + 1) ended)
    (hfreelist : p.freelist = x :: rest) :
    Good { p with freelist := rest, mode := .releasing (x :: chunk) n ended } := by
  have hbounds := h.bounds
  simp only [InBounds, hmode] at hbounds
  obtain ⟨hchunk, hnfree⟩ := hbounds
  have hlen : p.nfree = rest.length + 1 := by rw [nfree, hfreelist, length_cons]
  refine ⟨h.room, h.step_eq, h.allocated, ?_, ?_⟩
  · rw [length_cons]
    omega
  · cases ended with
    | true =>
      obtain ⟨hmax, hle⟩ : p.nfree ≤ p.max ∧ _ := hnfree
      show rest.length ≤ p.max ∧ rest.length ≤ p.packetsAllocated + p.made + chunksize
      omega
    | false =>
      obtain ⟨hmade, hle⟩ : p.made = 0 ∧ p.nfree ≤ p.packetsAllocated + (n + 1) := hnfree
      refine ⟨hmade, ?_⟩
      show rest.length ≤ p.packetsAllocated + n
      omega

theorem Good.finish {chunk : List PacketPtr} {ended : Bool}
    (hmode : p.mode = .releasing chunk 0 ended) :
    Good (p.enter (if ended then .ended else .idle)) ∧ chunk.length ≤ chunksize := by
  have hbounds := h.bounds
  simp only [InBounds, hmode] at hbounds
  obtain ⟨hchunk, hnfree⟩ := hbounds
  refine ⟨h.enter ?_, hchunk⟩
  cases ended with
  | true => exact hnfree
  | false =>
    obtain ⟨hmade, hle⟩ : p.made = 0 ∧ p.nfree ≤ p.packetsAllocated + 0 := hnfree
    refine ⟨hmade, ?_⟩
    show p.nfree < p.packetsAllocated + chunksize
    unfold chunksize
    omega

/-- **A move** of a process keeps its freelist within the limits. -/
theorem Good.advance (hgroup : ∀ chunk ∈ g.group, chunk.length ≤ chunksize)
    (hmove : Advances p g p' g') : Good p' ∧ ∀ chunk ∈ g'.group, chunk.length ≤ chunksize := by
  have hbounds := h.bounds
  unfold InBounds at hbounds
  cases hmove with
  | allocate hmode =>
    rw [hmode] at hbounds
    refine ⟨?_, hgroup⟩
    by_cases hempty : p.nfree = 0
    · rw [if_pos hempty]
      exact h.enter ⟨hbounds.1, hempty⟩
    · rw [if_neg hempty]
      exact h.enter ⟨hbounds.1, hbounds.2.le⟩
  | free x hmode _ =>
    rw [hmode] at hbounds
    exact ⟨h.free hbounds.1 hbounds.2 x hmode, hgroup⟩
  | preallocate hmode =>
    rw [hmode] at hbounds
    exact ⟨h.startPreallocate hbounds.1 hbounds.2, hgroup⟩
  | reclaimed hmode =>
    rcases hmode with hmode | hmode
    · rw [hmode] at hbounds
      exact ⟨h.afterReclaim hbounds.1 (by rw [hbounds.2]; exact Nat.zero_le _), hgroup⟩
    · rw [hmode] at hbounds
      exact ⟨h.afterReclaim hbounds.1 hbounds.2, hgroup⟩
  | startRemove k chunk hmode hk =>
    rw [hmode] at hbounds
    refine ⟨h.enter ⟨hbounds.1, ?_⟩, fun c hc => hgroup c (mem_of_mem_eraseIdx hc)⟩
    -- the freelist is empty, and no chunk is larger than the room for one
    show p.nfree + chunk.length ≤ chunksize
    rw [hbounds.2, Nat.zero_add]
    exact hgroup chunk (mem_of_getElem? hk)
  | reclaim x rest hmode =>
    rw [hmode] at hbounds
    refine ⟨⟨h.room, h.step_eq, h.allocated, hbounds.1, ?_⟩, hgroup⟩
    show p.freelist.length + 1 + rest.length ≤ chunksize
    have hle : p.freelist.length + (rest.length + 1) ≤ chunksize := hbounds.2
    omega
  | make n inAllocate hmode => exact ⟨h.make g.fresh hmode, hgroup⟩
  | preallocated inAllocate hmode => exact ⟨h.finishPreallocate hmode, hgroup⟩
  | take x rest hmode hfreelist =>
    rw [hmode] at hbounds
    refine ⟨⟨h.room, h.step_eq, h.allocated, hbounds.1, ?_⟩, hgroup⟩
    show rest.length < p.packetsAllocated + chunksize
    have hle := hbounds.2
    rw [nfree, hfreelist, length_cons] at hle
    omega
  | startAdd hmode =>
    rw [hmode] at hbounds
    exact ⟨h.enter ⟨by simp, hbounds⟩, hgroup⟩
  | release chunk n ended x rest hmode hfreelist => exact ⟨h.release hmode hfreelist, hgroup⟩
  | finish chunk ended hmode =>
    obtain ⟨hgood, hchunk⟩ := h.finish hmode
    refine ⟨hgood, fun c hc => ?_⟩
    rcases mem_append.mp hc with hold | hnew
    · exact hgroup c hold
    · rw [mem_singleton.mp hnew]
      exact hchunk
  | shutdown hmode =>
    refine ⟨h.enter ⟨?_, h.nfree_le⟩, hgroup⟩
    rw [length_nil, Nat.zero_add]
    exact Nat.min_le_left _ _
  | unchanged => exact ⟨h, hgroup⟩
  | stop => exact ⟨h.stop, hgroup⟩

end

/-! ## Where the packets are -/

/-- How often a packet is in the freelist of a process or in the chunk it moves. -/
def count (x : PacketPtr) (p : Process) : Nat := p.freelist.count x + p.mode.chunk.count x

end Process

/-- How often a packet is in a published chunk or in use. -/
def Shared.count (x : PacketPtr) (g : Shared) : Nat := g.group.flatten.count x + g.inUse.count x

namespace Process

variable {p p' : Process} {g g' : Shared} {move : Move}

@[simp] theorem count_enter (x : PacketPtr) (mode : Mode) :
    (p.enter mode).count x = p.freelist.count x + mode.chunk.count x := rfl

theorem count_enter_le (x : PacketPtr) {mode : Mode} (h : mode.chunk = []) :
    (p.enter mode).count x ≤ p.count x := by
  rw [count_enter, h]
  exact Nat.le_add_right _ _

theorem count_startPreallocate (x : PacketPtr) (inAllocate : Bool) :
    (p.startPreallocate inAllocate).count x ≤ p.count x := by
  unfold startPreallocate
  split <;> exact count_enter_le x rfl

theorem count_afterReclaim (x : PacketPtr) : p.afterReclaim.count x ≤ p.count x := by
  unfold afterReclaim
  split
  · exact count_startPreallocate x true
  · exact count_enter_le x rfl

theorem count_eraseIdx {group : List (List PacketPtr)} {k : Nat} {chunk : List PacketPtr}
    (h : group[k]? = some chunk) (x : PacketPtr) :
    chunk.count x + (group.eraseIdx k).flatten.count x = group.flatten.count x := by
  obtain ⟨hk, rfl⟩ := List.getElem?_eq_some_iff.mp h
  have hperm := (getElem_cons_eraseIdx_perm hk).flatten.count_eq x
  rwa [flatten_cons, count_append] at hperm

/-- The packet that `free` puts back is no longer in use. -/
theorem count_free {y : PacketPtr} (hmode : p.mode = .idle) (hy : y ∈ g.inUse) (x : PacketPtr) :
    (if (p.freelistAdd y).needRebalance then (p.freelistAdd y).enter .rebalance
      else p.freelistAdd y).count x + Shared.count x { g with inUse := g.inUse.erase y } =
      p.count x + g.count x := by
  have hpos : 0 < g.inUse.count y := count_pos_iff.mpr hy
  have hone : (p.freelistAdd y).count x = p.count x + if y = x then 1 else 0 := by
    simp [count, freelistAdd, hmode, Mode.chunk, count_cons]
  have hrebalance : (if (p.freelistAdd y).needRebalance then (p.freelistAdd y).enter .rebalance
      else p.freelistAdd y).count x = (p.freelistAdd y).count x := by
    split <;> simp [count, enter, freelistAdd, hmode, Mode.chunk]
  rw [hrebalance, hone]
  simp only [Shared.count, List.count_erase, beq_iff_eq]
  by_cases heq : y = x
  · subst heq
    rw [if_pos rfl]
    omega
  · rw [if_neg heq]
    omega

/-- **A move** carries packets from one place to another; only `preallocate_step` makes one. -/
theorem count_advance (hmove : Advances p g p' g') :
    g'.fresh = g.fresh ∧ (∀ x, p'.count x + g'.count x ≤ p.count x + g.count x) ∨
    g'.fresh = g.fresh + 1 ∧ ∀ x, p'.count x + g'.count x =
      p.count x + g.count x + if g.fresh = x then 1 else 0 := by
  cases hmove with
  | allocate hmode =>
    refine .inl ⟨rfl, fun x => Nat.add_le_add_right ?_ _⟩
    split <;> exact count_enter_le x rfl
  | free y hmode hy => exact .inl ⟨rfl, fun x => (count_free hmode hy x).le⟩
  | preallocate hmode =>
    exact .inl ⟨rfl, fun x => Nat.add_le_add_right (count_startPreallocate x false) _⟩
  | reclaimed hmode => exact .inl ⟨rfl, fun x => Nat.add_le_add_right (count_afterReclaim x) _⟩
  | startRemove k chunk hmode hk =>
    refine .inl ⟨rfl, fun x => ?_⟩
    have hcount := count_eraseIdx hk x
    simp only [enter, Mode.chunk, Shared.count, count]
    omega
  | reclaim y rest hmode =>
    refine .inl ⟨rfl, fun x => ?_⟩
    simp only [enter, freelistAdd, count, hmode, Mode.chunk, count_cons]
    omega
  | make n inAllocate hmode =>
    refine .inr ⟨rfl, fun x => ?_⟩
    simp only [count, freelistAdd, hmode, Mode.chunk, count_cons, Shared.count, beq_iff_eq]
    omega
  | preallocated inAllocate hmode =>
    refine .inl ⟨rfl, fun x => ?_⟩
    split <;> simp [count, finishPreallocate, enter, Mode.chunk]
  | take y rest hmode hfreelist =>
    refine .inl ⟨rfl, fun x => ?_⟩
    simp only [count, hfreelist, hmode, Mode.chunk, Shared.count, count_cons]
    omega
  | release chunk n ended y rest hmode hfreelist =>
    refine .inl ⟨rfl, fun x => ?_⟩
    simp only [count, hfreelist, hmode, Mode.chunk, count_cons]
    omega
  | finish chunk ended hmode =>
    refine .inl ⟨rfl, fun x => ?_⟩
    have hmoved : (if ended then Mode.ended else Mode.idle).chunk = [] := by split <;> rfl
    rw [count_enter, hmoved]
    simp only [count, hmode, Mode.chunk, Shared.count, flatten_append,
      count_append, flatten_cons, flatten_nil, count_nil]
    omega
  | unchanged => exact .inl ⟨rfl, fun x => le_rfl⟩
  | startAdd | shutdown | stop =>
    exact .inl ⟨rfl, fun x => Nat.add_le_add_right (count_enter_le x rfl) _⟩

end Process

/-! ## The processes together -/

namespace PacketSystem

open Process

variable {P : Type} [Fintype P] {s s' : PacketSystem P}

/-- In how many places a packet is: freelists, chunks, and in use. -/
def places (x : PacketPtr) (s : PacketSystem P) : Nat :=
  ∑ p, (s.process p).count x + s.shared.count x

/-- The invariant of the system. -/
structure Kept (s : PacketSystem P) : Prop where
  good : ∀ p, Good (s.process p)
  group : ∀ chunk ∈ s.shared.group, chunk.length ≤ chunksize
  once : ∀ x, s.places x ≤ 1
  fresh : ∀ x ≥ s.shared.fresh, s.places x = 0

theorem kept_new {max : P → Nat} (h : ∀ p, chunksize ≤ max p) : Kept (new max) := by
  have hempty : ∀ x, (new max).places x = 0 := by
    intro x
    simp [places, new, Process.new, Process.count, Shared.count, Mode.chunk]
  refine ⟨fun p => good_new (h p), fun _ hc => ?_, fun x => ?_, fun x _ => hempty x⟩
  · cases hc
  · rw [hempty x]
    exact Nat.zero_le 1

variable [DecidableEq P]

/-- Only the places of the process that moves and the shared ones change. -/
theorem places_update (p : P) (q : Process) (g : Shared) (x : PacketPtr) :
    (PacketSystem.mk (Function.update s.process p q) g).places x +
        ((s.process p).count x + s.shared.count x) =
      s.places x + (q.count x + g.count x) := by
  have hrest : ∑ p' ∈ Finset.univ.erase p, (Function.update s.process p q p').count x =
      ∑ p' ∈ Finset.univ.erase p, (s.process p').count x := by
    refine Finset.sum_congr rfl fun p' hp' => ?_
    rw [Function.update_of_ne (Finset.ne_of_mem_erase hp')]
  have hnew := Finset.add_sum_erase Finset.univ
    (fun p' => (Function.update s.process p q p').count x) (Finset.mem_univ p)
  have hold := Finset.add_sum_erase Finset.univ
    (fun p' => (s.process p').count x) (Finset.mem_univ p)
  simp only [Function.update_self] at hnew
  simp only [places]
  omega

/-- **A move** of the system keeps the invariant. -/
theorem Kept.move {next : P × Move} (h : Kept s) (hmove : move s next = some s') : Kept s' := by
  unfold PacketSystem.move at hmove
  split at hmove
  · next q g hadvance =>
    cases hmove
    replace hadvance := advances_of_advance hadvance
    obtain ⟨hgood, hgroup⟩ := (h.good next.1).advance h.group hadvance
    have hplaces := places_update (s := s) next.1 q g
    refine ⟨fun p => ?_, hgroup, fun x => ?_, fun x hx => ?_⟩
    · by_cases hp : p = next.1
      · subst hp
        simpa using hgood
      · simpa [hp] using h.good p
    · have hx := hplaces x
      have honce := h.once x
      obtain ⟨-, hle⟩ | ⟨-, hone⟩ := count_advance hadvance
      · have hcount := hle x
        omega
      · have hcount := hone x
        split at hcount
        · next heq =>
          have hnone := h.fresh x heq.le
          omega
        · omega
    · have hsum := hplaces x
      obtain ⟨hfresh, hle⟩ | ⟨hfresh, hone⟩ := count_advance hadvance
      · have hcount := hle x
        have hnone := h.fresh x (hfresh ▸ hx)
        omega
      · have hcount := hone x
        have hlt : s.shared.fresh < x := by
          rw [hfresh] at hx
          exact hx
        have hnone := h.fresh x hlt.le
        rw [if_neg hlt.ne] at hcount
        omega
  · cases hmove

/-- **Freelists never overflow.** However the processes of a group allocate and free
packets, their own ones or each other's, at every step the number of packets in a freelist
is at most `max`, and at most a chunk more than the process has allocated (while a
preallocation runs, what it has made counts as allocated; the one inside of `allocate` does
not need it). What was allocated leaves room for a chunk. And no packet is in two places. -/
theorem freelists_bounded (max : P → Nat) (hmax : ∀ p, chunksize ≤ max p)
    (moves : List (P × Move)) (hrun : run (enabled PacketSystem.move) (new max) moves = .ok s) :
    (∀ p, (s.process p).nfree ≤ (s.process p).max ∧
      (s.process p).nfree ≤ (s.process p).packetsAllocated + (s.process p).made + chunksize ∧
      ((s.process p).made = 0 ∨ (∃ left, (s.process p).mode = .preallocating left true) →
        (s.process p).nfree ≤ (s.process p).packetsAllocated + chunksize) ∧
      ((s.process p).packetsAllocated = 0 ∨
        (s.process p).packetsAllocated + chunksize ≤ (s.process p).max)) ∧
    ∀ x, s.places x ≤ 1 := by
  have hkept : Kept s := run_enabled (fun _ _ _ h hmove => h.move hmove) (kept_new hmax) hrun
  refine ⟨fun p => ?_, hkept.once⟩
  have hgood := hkept.good p
  obtain ⟨hle, hallocated⟩ := hgood.nfree_le
  refine ⟨hle, hallocated, ?_, hgood.allocated⟩
  rintro (hmade | ⟨left, hmode⟩)
  · omega
  · obtain ⟨-, hmade, hnfree⟩ : _ ∧ _ ∧ (s.process p).nfree = (s.process p).made := by
      have hbounds := hgood.bounds
      simpa only [InBounds, hmode, if_true] using hbounds
    have hstep := hgood.step_eq
    unfold chunksize
    omega

/-- Two packets into its first preallocation, the limits hold for a process. -/
theorem freelists_bounded_sample :
    ∃ s, run (enabled PacketSystem.move) (new fun _ : Bool => 10000)
        [(true, .allocate), (true, .proceed none), (true, .proceed none), (true, .proceed none)] =
          .ok s ∧
      (s.process true).nfree = 2 ∧
      (s.process true).nfree ≤ (s.process true).packetsAllocated + chunksize ∧
      ∀ x, s.places x ≤ 1 := by
  refine exists_ok_of_any (fun s : PacketSystem Bool =>
      (s.process true).nfree = 2 ∧ (s.process true).mode = .preallocating 998 true)
    (by decide +kernel) fun s hrun ⟨hnfree, hmode⟩ => ?_
  obtain ⟨hlimits, honce⟩ := freelists_bounded (fun _ => 10000) (fun _ => by decide) _ hrun
  exact ⟨hnfree, (hlimits true).2.2.1 (.inr ⟨998, hmode⟩), honce⟩

end PacketSystem

end Snabb
