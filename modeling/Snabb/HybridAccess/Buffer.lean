import Snabb.Core.LinkRing
import Snabb.HybridAccess.Middleware.Delayer

/-!
# The packet buffers (`base/buffer.lua`, `base/buffer_ts.lua`, `base/delay_buffer.c`)

`PacketBuffer` and `PacketWithTimestampBuffer` are the same ring, one of packets and one of
packets with a time stamp; the size is any power of two. The ring of the delayer in C is
`DelayBuffer`. All of them, and the ring of a link, are queues of one packet less than they
have slots: **`rings_are_fifos`**.

`PacketWithTimestampBuffer:dequeue` returns a reference to the slot of the ring, not a copy
of it. `enqueues_keep_reference` says why this is safe: the slot is not written before the
next packet is dequeued.
-/

namespace Snabb

open Foundation List Delayer

/-- A `PacketBuffer` with slots for values of type `α`. -/
structure PacketBuffer (α : Type) where
  buffer : Nat → α
  read : Nat
  write : Nat
  max : Nat
  maxPkt : Nat

namespace PacketBuffer

variable {α : Type}

/-- `PacketBuffer:new`; what the slots hold is left open. -/
def new (size : Nat) (buffer : Nat → α) : Except Raise (PacketBuffer α) :=
  if size &&& (size - 1) = 0 then .ok ⟨buffer, 0, 0, size, size - 1⟩ else .error .assertionFailed

def size (b : PacketBuffer α) : Nat :=
  if b.read ≤ b.write then b.write - b.read else b.write + b.max - b.read

def space (b : PacketBuffer α) : Nat := b.maxPkt - b.size

def isEmpty (b : PacketBuffer α) : Prop := b.write = b.read

instance (b : PacketBuffer α) : Decidable b.isEmpty := inferInstanceAs (Decidable (_ = _))

def isFull (b : PacketBuffer α) : Prop := (b.write + 1) &&& b.maxPkt = b.read

instance (b : PacketBuffer α) : Decidable b.isFull := inferInstanceAs (Decidable (_ = _))

/-- The rest of the code does not ask whether there is a packet. -/
def peek (b : PacketBuffer α) : α := b.buffer b.read

def dequeue (b : PacketBuffer α) : α × PacketBuffer α :=
  (b.buffer b.read, { b with read := (b.read + 1) &&& b.maxPkt })

/-- `PacketBuffer:enqueue`, with its result 1 or 0. -/
def enqueue (b : PacketBuffer α) (x : α) : Nat × PacketBuffer α :=
  if b.isFull then (0, b)
  else (1, { b with
    buffer := Function.update b.buffer b.write x
    write := (b.write + 1) &&& b.maxPkt })

/-- A buffer as a queue: `dequeue` is called on a buffer that is not empty only. -/
def call (b : PacketBuffer α) : QueueOp α → Option (QueueResult α × PacketBuffer α)
  | .enqueue x => some (if (b.enqueue x).1 = 0 then .refused else .stored, (b.enqueue x).2)
  | .dequeue => if b.isEmpty then none else some (.taken b.dequeue.1, b.dequeue.2)

end PacketBuffer

/-- `struct ts_packet`. -/
structure PacketTs (P : Type) where
  packet : P
  timestamp : UInt64
deriving DecidableEq, Repr

/-- A `PacketWithTimestampBuffer` is a `PacketBuffer` of time-stamped packets. -/
abbrev PacketWithTimestampBuffer (P : Type) := PacketBuffer (PacketTs P)

namespace PacketWithTimestampBuffer

variable {P : Type}

def enqueue (b : PacketWithTimestampBuffer P) (pkt : P) (timestamp : UInt64) :
    Nat × PacketWithTimestampBuffer P :=
  PacketBuffer.enqueue b ⟨pkt, timestamp⟩

/-- `PacketWithTimestampBuffer:dequeue`, which returns a reference to a slot. -/
def dequeue (b : PacketWithTimestampBuffer P) : Nat × PacketWithTimestampBuffer P :=
  (b.read, (PacketBuffer.dequeue b).2)

/-- What a reference to a slot shows. -/
def deref (b : PacketWithTimestampBuffer P) (ref : Nat) : PacketTs P := b.buffer ref

/-- The buffer as a queue of packets with time stamps. -/
def call (b : PacketWithTimestampBuffer P) :
    QueueOp (PacketTs P) → Option (QueueResult (PacketTs P) × PacketWithTimestampBuffer P)
  | .enqueue x =>
    some (if (enqueue b x.packet x.timestamp).1 = 0 then .refused else .stored,
      (enqueue b x.packet x.timestamp).2)
  | .dequeue =>
    if PacketBuffer.isEmpty b then none
    else some (.taken (deref (dequeue b).2 (dequeue b).1), (dequeue b).2)

end PacketWithTimestampBuffer

/-- The delay buffer as a queue: `db_peek_time` shows when the packet of `db_dequeue` is to
be sent. -/
def DelayBuffer.call (b : DelayBuffer) :
    QueueOp TimedPacket → Option (QueueResult TimedPacket × DelayBuffer)
  | .enqueue x =>
    match b.dbEnqueue x.packet x.sendingTime with
    | none => some (.refused, b)
    | some b' => some (.stored, b')
  | .dequeue =>
    if b.bufferIsEmpty then none
    else some (.taken ⟨b.dbDequeue.1, b.dbPeekTime⟩, b.dbDequeue.2)

/-- What the observers of a queue of capacity `cap` say when it holds `xs`. -/
structure Observed {α : Type} (cap size : Nat) (isEmpty isFull : Prop) (xs : List α) : Prop where
  size_eq : size = xs.length
  size_le : size ≤ cap
  empty_iff : isEmpty ↔ xs = []
  full_iff : isFull ↔ xs.length = cap

/-! ## The rings of Lua -/

namespace PacketBuffer

variable {α : Type} {b : PacketBuffer α} {n : Nat} {xs rest : List α} {x : α}

/-- A buffer with `2 ^ n` slots holds the queue `xs`. -/
structure Represents (n : Nat) (b : PacketBuffer α) (xs : List α) : Prop where
  max_eq : b.max = 2 ^ n
  maxPkt_eq : b.maxPkt = 2 ^ n - 1
  holds : (⟨b.buffer, b.read, b.write⟩ : Ring α (2 ^ n)).Holds xs

theorem represents_new (n : Nat) (buffer : Nat → α) :
    ∃ b, new (2 ^ n) buffer = .ok b ∧ Represents n b [] := by
  refine ⟨⟨buffer, 0, 0, 2 ^ n, 2 ^ n - 1⟩, ?_, rfl, rfl, Ring.Holds.new buffer (Nat.two_pow_pos n)⟩
  rw [new, if_pos]
  rw [Nat.and_two_pow_sub_one_eq_mod, Nat.mod_self]

section

variable (h : Represents n b xs)
include h

theorem and_maxPkt (k : Nat) : k &&& b.maxPkt = k % 2 ^ n := by
  rw [h.maxPkt_eq, Nat.and_two_pow_sub_one_eq_mod]

theorem isEmpty_iff : b.isEmpty ↔ xs = [] :=
  eq_comm.trans h.holds.isEmpty_iff

theorem isFull_iff : b.isFull ↔ xs.length = 2 ^ n - 1 := by
  have hroom := h.holds.room
  rw [isFull, and_maxPkt h]
  refine h.holds.isFull_iff.trans ?_
  omega

theorem size_eq : b.size = xs.length := by
  rw [← h.holds.count_eq, size, h.max_eq]
  rfl

theorem observed : Observed (2 ^ n - 1) b.size b.isEmpty b.isFull xs where
  size_eq := size_eq h
  size_le := by
    have hroom := h.holds.room
    rw [size_eq h]
    omega
  empty_iff := isEmpty_iff h
  full_iff := isFull_iff h

theorem space_eq : b.space = 2 ^ n - 1 - xs.length := by
  rw [space, h.maxPkt_eq, size_eq h]

end

theorem peek_eq (h : Represents n b (x :: rest)) : b.peek = x := h.holds.peek_eq

theorem enqueue_full (h : Represents n b xs) (hfull : xs.length = 2 ^ n - 1) (x : α) :
    b.enqueue x = (0, b) := by
  rw [enqueue, if_pos ((isFull_iff h).mpr hfull)]

theorem enqueue_room (h : Represents n b xs) (hroom : xs.length ≠ 2 ^ n - 1) (x : α) :
    ∃ b', b.enqueue x = (1, b') ∧ Represents n b' (xs ++ [x]) := by
  refine ⟨_, if_neg (mt (isFull_iff h).mp hroom), h.max_eq, h.maxPkt_eq, ?_⟩
  rw [and_maxPkt h]
  have hlt := h.holds.room
  exact h.holds.enqueue x (by omega)

theorem dequeue_cons (h : Represents n b (x :: rest)) :
    b.dequeue.1 = x ∧ Represents n b.dequeue.2 rest := by
  refine ⟨h.holds.peek_eq, h.max_eq, h.maxPkt_eq, ?_⟩
  show (⟨b.buffer, (b.read + 1) &&& b.maxPkt, b.write⟩ : Ring α (2 ^ n)).Holds rest
  rw [and_maxPkt h]
  exact h.holds.dequeue

/-- **A `PacketBuffer` is a queue** of one packet less than it has slots. -/
theorem simulates (n : Nat) : Simulates (2 ^ n - 1) call (Represents (α := α) n) where
  possible := by
    intro b xs op h hnone
    cases op with
    | enqueue x => cases hnone
    | dequeue =>
      cases xs with
      | nil => rw [call, if_pos ((isEmpty_iff h).mpr rfl)]
      | cons x rest => cases hnone
  does := by
    intro b xs op r xs' h hdoes
    cases op with
    | enqueue x =>
      have hlt := h.holds.room
      by_cases hfull : xs.length = 2 ^ n - 1
      · rw [fifo, if_neg (by omega)] at hdoes
        cases hdoes
        refine ⟨b, ?_, h⟩
        rw [call, enqueue_full h hfull, if_pos rfl]
      · rw [fifo, if_pos (by omega)] at hdoes
        cases hdoes
        obtain ⟨b', hb', hrep⟩ := enqueue_room h hfull x
        refine ⟨b', ?_, hrep⟩
        rw [call, hb', if_neg Nat.one_ne_zero]
    | dequeue =>
      cases xs with
      | nil => cases hdoes
      | cons x rest =>
        cases hdoes
        obtain ⟨hx, hrep⟩ := dequeue_cons h
        refine ⟨b.dequeue.2, ?_, hrep⟩
        rw [call, if_neg (mt (isEmpty_iff h).mp (cons_ne_nil _ _)), hx]

end PacketBuffer

namespace PacketWithTimestampBuffer

variable {P : Type} {b : PacketWithTimestampBuffer P} {n : Nat} {xs : List (PacketTs P)}
  {x : PacketTs P}

/-- Read at once, the reference shows what a `PacketBuffer` returns. -/
theorem call_eq (b : PacketWithTimestampBuffer P) (op : QueueOp (PacketTs P)) :
    call b op = PacketBuffer.call b op := by
  cases op <;> rfl

theorem simulates (n : Nat) :
    Simulates (2 ^ n - 1) call (PacketBuffer.Represents (α := PacketTs P) n) := by
  have heq : (call : PacketWithTimestampBuffer P → _) = PacketBuffer.call :=
    funext fun b => funext (call_eq b)
  rw [heq]
  exact PacketBuffer.simulates n

theorem enqueue_read (b : PacketWithTimestampBuffer P) (pkt : P) (timestamp : UInt64) :
    (enqueue b pkt timestamp).2.read = b.read := by
  unfold enqueue PacketBuffer.enqueue
  split <;> rfl

section

variable (h : PacketBuffer.Represents n b xs)
include h

theorem enqueue_represents (x : PacketTs P) :
    ∃ xs', PacketBuffer.Represents n (enqueue b x.packet x.timestamp).2 xs' := by
  by_cases hfull : xs.length = 2 ^ n - 1
  · refine ⟨xs, ?_⟩
    rwa [enqueue, PacketBuffer.enqueue_full h hfull]
  · obtain ⟨b', hb', hrep⟩ := PacketBuffer.enqueue_room h hfull x
    refine ⟨xs ++ [x], ?_⟩
    rwa [enqueue, hb']

/-- The slot in front of the read cursor is never written: the ring is full when the write
cursor is there. -/
theorem enqueue_keeps {ref : Nat} (href : b.read = (ref + 1) % 2 ^ n) (x : PacketTs P) :
    deref (enqueue b x.packet x.timestamp).2 ref = deref b ref := by
  by_cases hfull : b.isFull
  · rw [enqueue, PacketBuffer.enqueue, if_pos hfull]
  · rw [enqueue, PacketBuffer.enqueue, if_neg hfull]
    refine Function.update_of_ne (fun heq => hfull ?_) _ _
    rw [PacketBuffer.isFull, PacketBuffer.and_maxPkt h, ← heq, href]

theorem enqueues_keep {ref : Nat} (href : b.read = (ref + 1) % 2 ^ n) (more : List (PacketTs P)) :
    deref (more.foldl (fun b y => (enqueue b y.packet y.timestamp).2) b) ref = deref b ref := by
  induction more generalizing b xs with
  | nil => rfl
  | cons y more ih =>
    obtain ⟨xs', h'⟩ := enqueue_represents h y
    rw [foldl_cons, ih h' ((enqueue_read b _ _).trans href), enqueue_keeps h href]

end

/-- **A reference stays good** until the next packet is dequeued: whatever is enqueued in
between, it shows the packet that was dequeued. -/
theorem enqueues_keep_reference (h : PacketBuffer.Represents n b (x :: xs))
    (more : List (PacketTs P)) :
    deref (more.foldl (fun b y => (enqueue b y.packet y.timestamp).2) (dequeue b).2) (dequeue b).1 =
      x := by
  obtain ⟨hx, hrep⟩ := PacketBuffer.dequeue_cons h
  have hread : (dequeue b).2.read = (b.read + 1) % 2 ^ n := PacketBuffer.and_maxPkt h _
  exact (enqueues_keep (b := (dequeue b).2) hrep hread more).trans hx

end PacketWithTimestampBuffer

/-! ## The ring of the delayer -/

namespace DelayBuffer

variable {b : DelayBuffer} {qs : List TimedPacket}

theorem dbSize_eq (h : b.Holds qs) : b.dbSize = qs.length := h.count_eq

theorem bufferIsEmpty_iff (h : b.Holds qs) : b.bufferIsEmpty ↔ qs = [] := h.isEmpty_iff

theorem observed (h : b.Holds qs) :
    Observed (delayBufferSize - 1) b.dbSize b.bufferIsEmpty b.bufferIsFull qs where
  size_eq := dbSize_eq h
  size_le := by
    have hroom := h.room
    rw [dbSize_eq h]
    omega
  empty_iff := bufferIsEmpty_iff h
  full_iff := by
    have hroom := h.room
    rw [bufferIsFull, and_mask, h.isFull_iff]
    omega

/-- **The delay buffer is a queue** of one packet less than it has slots. -/
theorem simulates :
    Simulates (delayBufferSize - 1) DelayBuffer.call fun (b : DelayBuffer) qs => b.Holds qs where
  possible := by
    intro b qs op h hnone
    cases op with
    | enqueue x => cases hnone
    | dequeue =>
      cases qs with
      | nil => rw [DelayBuffer.call, if_pos ((bufferIsEmpty_iff h).mpr rfl)]
      | cons x rest => cases hnone
  does := by
    intro b qs op r qs' h hdoes
    cases op with
    | enqueue x =>
      have hlt := h.room
      by_cases hfull : qs.length + 1 = delayBufferSize
      · rw [fifo, if_neg (by omega)] at hdoes
        cases hdoes
        refine ⟨b, ?_, h⟩
        rw [DelayBuffer.call, dbEnqueue_full h hfull]
      · rw [fifo, if_pos (by omega)] at hdoes
        cases hdoes
        obtain ⟨b', hb', hrep⟩ := dbEnqueue_room h hfull x.packet x.sendingTime
        refine ⟨b', ?_, hrep⟩
        rw [DelayBuffer.call, hb']
    | dequeue =>
      cases qs with
      | nil => cases hdoes
      | cons x rest =>
        cases hdoes
        obtain ⟨b', hb', hrep⟩ := dbDequeue_cons h
        refine ⟨b', ?_, hrep⟩
        rw [DelayBuffer.call, if_neg (mt (bufferIsEmpty_iff h).mp (cons_ne_nil _ _)), hb',
          dbPeekTime_cons h]

end DelayBuffer

/-! ## Four queues -/

/-- **The rings are queues.** In every state that a link reaches by `transmit`, by `receive`
while it is not empty, and by changes of the packets' lengths:

- the packets accepted are the packets received and then the packets queued; the counters and
  `nreadable`, `nwritable`, `empty`, `full` and `front` agree with them;
- `transmit` frees the packet and counts it in `txdrop` if 1023 packets are queued, and queues
  it otherwise;
- the byte counters differ by the bytes queued, if no queued packet was given another length.

And over every sequence of calls, a `PacketBuffer` and a `PacketWithTimestampBuffer` with
`2 ^ n` slots and the delay buffer give the results of a queue with room for one packet less
than there are slots; their observers agree with it. -/
theorem rings_are_fifos :
    (∀ (P : Type) [DecidableEq P] (packets : Nat → P) (length : P → UInt16)
      (actions : List (LinkAction P)) (s : LinkUse P),
      run (enabled LinkUse.act) (.new packets length) actions = .ok s →
      ∃ queue, s.Consistent queue ∧
        (∀ p, ∃ s', s.act (.transmit p) = some s' ∧
          (s.link.nreadable = 1023 → s'.accepted = s.accepted ∧ s'.freed = s.freed ++ [p] ∧
            s'.link.stats.txdrop = s.link.stats.txdrop + 1) ∧
          (s.link.nreadable ≠ 1023 → s'.accepted = s.accepted ++ [p] ∧ s'.freed = s.freed ∧
            s'.link.stats.txdrop = s.link.stats.txdrop)) ∧
        (Along (enabled LinkUse.act) LinkUse.Undisturbed (.new packets length) actions →
          (s.link.stats.txbytes - s.link.stats.rxbytes).toNat = s.bytesOf queue)) ∧
    (∀ (P : Type) (n : Nat) (slots : Nat → P), ∃ b, PacketBuffer.new (2 ^ n) slots = .ok b ∧
      ∀ ops, (calls PacketBuffer.call b ops).map Prod.fst =
          (calls (fifo (2 ^ n - 1)) [] ops).map Prod.fst ∧
        ∀ rs b', calls PacketBuffer.call b ops = some (rs, b') →
          ∃ xs, takenBy rs ++ xs = storedBy ops rs ∧
            Observed (2 ^ n - 1) b'.size b'.isEmpty b'.isFull xs ∧
            b'.space = 2 ^ n - 1 - xs.length ∧ ∀ x ∈ xs.head?, b'.peek = x) ∧
    (∀ (P : Type) (n : Nat) (slots : Nat → PacketTs P),
      ∃ b : PacketWithTimestampBuffer P, PacketBuffer.new (2 ^ n) slots = .ok b ∧
      ∀ ops, (calls PacketWithTimestampBuffer.call b ops).map Prod.fst =
          (calls (fifo (2 ^ n - 1)) [] ops).map Prod.fst ∧
        ∀ rs b', calls PacketWithTimestampBuffer.call b ops = some (rs, b') →
          ∃ xs, takenBy rs ++ xs = storedBy ops rs ∧
            Observed (2 ^ n - 1) b'.size b'.isEmpty b'.isFull xs ∧
            b'.space = 2 ^ n - 1 - xs.length ∧ ∀ x ∈ xs.head?, b'.peek = x ∧
              ∀ more : List (PacketTs P), (more.foldl (fun b y =>
                (PacketWithTimestampBuffer.enqueue b y.packet y.timestamp).2)
                (PacketWithTimestampBuffer.dequeue b').2).deref
                (PacketWithTimestampBuffer.dequeue b').1 = x) ∧
    (∀ (slots : Nat → TimedPacket) (ops : List (QueueOp TimedPacket)),
      (calls DelayBuffer.call (.new slots) ops).map Prod.fst =
          (calls (fifo (delayBufferSize - 1)) [] ops).map Prod.fst ∧
        ∀ rs b', calls DelayBuffer.call (.new slots) ops = some (rs, b') →
          ∃ xs, takenBy rs ++ xs = storedBy ops rs ∧
            Observed (delayBufferSize - 1) b'.dbSize b'.bufferIsEmpty b'.bufferIsFull xs ∧
            b'.dbPeekTime = (xs.head?.map TimedPacket.sendingTime).getD (2 ^ 64 - 1)) := by
  refine ⟨?_, ?_, ?_, ?_⟩
  · intro P _ packets length actions s hrun
    obtain ⟨queue, h⟩ := LinkUse.kept_run hrun
    have hreadable := LinkRing.nreadable_eq h.holds
    refine ⟨queue, h.consistent, fun p => ?_, fun hquiet => ?_⟩
    · by_cases hfull : queue.length = linkMaxPackets
      · refine ⟨_, LinkUse.act_refused h hfull p, fun _ => ⟨rfl, rfl, rfl⟩, fun hne => ?_⟩
        exact absurd (hreadable.trans hfull) hne
      · refine ⟨_, LinkUse.act_stored h hfull p, fun heq => ?_, fun _ => ⟨rfl, rfl, rfl⟩⟩
        exact absurd (hreadable.symm.trans heq) hfull
    · obtain ⟨queue', h', hbytes⟩ := LinkUse.balanced_run hquiet hrun
      obtain rfl : queue = queue' := h.holds.contents_eq.symm.trans h'.holds.contents_eq
      exact hbytes.bytes_eq h
  · intro P n slots
    obtain ⟨b, hb, hrep⟩ := PacketBuffer.represents_new n slots
    refine ⟨b, hb, fun ops => ?_⟩
    obtain ⟨hsame, hstates⟩ := (PacketBuffer.simulates n).calls ops hrep
    refine ⟨hsame, fun rs b' hcalls => ?_⟩
    obtain ⟨xs, hxs, hrep'⟩ := hstates rs b' hcalls
    refine ⟨xs, fifo_conserves hxs, PacketBuffer.observed hrep', PacketBuffer.space_eq hrep', ?_⟩
    intro x hx
    obtain ⟨rest, rfl⟩ := List.head?_eq_some_iff.mp hx
    exact PacketBuffer.peek_eq hrep'
  · intro P n slots
    obtain ⟨b, hb, hrep⟩ := PacketBuffer.represents_new n slots
    refine ⟨b, hb, fun ops => ?_⟩
    obtain ⟨hsame, hstates⟩ := (PacketWithTimestampBuffer.simulates n).calls ops hrep
    refine ⟨hsame, fun rs b' hcalls => ?_⟩
    obtain ⟨xs, hxs, hrep'⟩ := hstates rs b' hcalls
    refine ⟨xs, fifo_conserves hxs, PacketBuffer.observed hrep', PacketBuffer.space_eq hrep', ?_⟩
    intro x hx
    obtain ⟨rest, rfl⟩ := List.head?_eq_some_iff.mp hx
    exact ⟨PacketBuffer.peek_eq hrep',
      PacketWithTimestampBuffer.enqueues_keep_reference hrep'⟩
  · intro slots ops
    obtain ⟨hsame, hstates⟩ :=
      DelayBuffer.simulates.calls ops (Ring.Holds.new slots (by decide))
    refine ⟨hsame, fun rs b' hcalls => ?_⟩
    obtain ⟨xs, hxs, h⟩ := hstates rs b' hcalls
    refine ⟨xs, fifo_conserves hxs, DelayBuffer.observed h, ?_⟩
    cases xs with
    | nil => exact dbPeekTime_nil h
    | cons x rest => exact dbPeekTime_cons h

/-- A link with two packets of 60 and 1514 bytes, of which the first one is received. -/
theorem rings_are_fifos_sample :
    ∃ s, run (enabled LinkUse.act) (.new (fun _ => 0) fun p : Nat => if p = 1 then 60 else 1514)
        [.transmit 1, .transmit 2, .receive, .setLength 1 70, .transmit 3] = .ok s ∧
      s.received = [1] ∧ s.link.nreadable = 2 ∧
      (s.link.stats.txpackets - s.link.stats.rxpackets).toNat = 2 ∧
      (s.link.stats.txbytes - s.link.stats.rxbytes).toNat = 3028 := by
  refine exists_ok_of_any (fun s : LinkUse Nat => s.received = [1] ∧ s.accepted = [1, 2, 3] ∧
      s.length 2 = 1514 ∧ s.length 3 = 1514)
    (by decide +kernel) fun s hrun ⟨hreceived, haccepted, h2, h3⟩ => ?_
  obtain ⟨queue, hlink, -, hbytes⟩ := rings_are_fifos.1 Nat _ _ _ s hrun
  obtain rfl : queue = [2, 3] := by
    have horder := hlink.order
    rw [hreceived, haccepted] at horder
    exact (List.cons.inj horder).2.symm
  refine ⟨hreceived, hlink.nreadable_eq, ?_, ?_⟩
  · rw [hlink.packets_eq, hlink.nreadable_eq]
    rfl
  · rw [hbytes (by decide +kernel), LinkUse.bytesOf, map_cons, map_singleton, h2, h3]
    rfl

end Snabb
