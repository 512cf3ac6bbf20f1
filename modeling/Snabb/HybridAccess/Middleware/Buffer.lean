import Snabb.HybridAccess.Buffer

/-!
# The buffer in front of a slow link (`middleware/buffer.lua`)

A push sends the packets that are queued, then those that arrive, as long as the output link has
room, and queues the rest. How many packets the first two loops send is computed from the lengths at
the start of the push.

- `Kept`: what is queued, and what has become of all packets so far.
- `kept_push`: a push keeps it. The second loop sends only if the first has emptied the queue.
- `order_and_ownership`: order and ownership over all runs.
-/

namespace Snabb

open Foundation List

/-- The state of the app, its output link, and the history. -/
structure Buffer where
  buffer : PacketBuffer Packet
  output : Link
  /-- The calls of `link.transmit`, and whether the link had room. -/
  transmitted : List (Packet × Bool)
  /-- The calls of `packet.free`, and how many packets were queued then. -/
  freed : List (Packet × Nat)

/-- What a push finds: the packets on the input link, and how many packets the next app has taken
from the output link. -/
structure BufferInput where
  input : Link
  taken : Nat

namespace Buffer

/-- `Buffer:new`, in front of an output link. -/
def new (size : Nat) (slots : Nat → Packet) (output : Link) : Except Raise Buffer := do
  return ⟨← PacketBuffer.new size slots, output, [], []⟩

def transmit (o : Buffer) (p : Packet) : Buffer :=
  { o with
    output := o.output.transmit p
    transmitted := o.transmitted ++ [(p, decide (¬ o.output.full))] }

def free (o : Buffer) (p : Packet) : Buffer :=
  { o with freed := o.freed ++ [(p, o.buffer.size)] }

/-- The first loop of `push`. -/
def forwardQueued : Nat → Buffer → Buffer
  | 0, o => o
  | queueForward + 1, o =>
    let (pkt, buffer) := o.buffer.dequeue
    forwardQueued queueForward (transmit { o with buffer := buffer } pkt)

/-- The last two loops: at the first packet that finds no room, the rest is freed. -/
def queueIncoming : List Packet → Buffer → Buffer
  | [], o => o
  | pkt :: rest, o =>
    let (stored, buffer) := o.buffer.enqueue pkt
    let o := { o with buffer := buffer }
    if stored = 0 then rest.foldl free (o.free pkt) else queueIncoming rest o

def push (o : Buffer) (inp : BufferInput) : Buffer :=
  let o := { o with output := o.output.drain inp.taken }
  let linkLen := inp.input.nreadable
  let outLen := o.output.nwritable
  let queueLen := o.buffer.size
  let queueForward := min queueLen outLen
  let o := forwardQueued queueForward o
  let linkForward := min (outLen - queueForward) linkLen
  let o := (inp.input.packets.take linkForward).foldl transmit o
  queueIncoming (inp.input.packets.drop linkForward) o

/-- The packets that arrive over a run. -/
def arrivals (inputs : List BufferInput) : List Packet :=
  inputs.flatMap fun inp => inp.input.packets

/-! ## What becomes of the packets -/

/-- The queue of a buffer that has received packets, with the fate of each. -/
structure Kept (n : Nat) (o : Buffer) (queue received : List Packet) : Prop where
  ring : PacketBuffer.Represents n o.buffer queue
  /-- The packets leave in the order in which they came. -/
  order : (o.transmitted.map Prod.fst ++ queue).Sublist received
  /-- Each packet is transmitted, queued or freed, and nothing happens twice. -/
  owned : (o.transmitted.map Prod.fst ++ queue ++ o.freed.map Prod.fst).Perm received
  room : ∀ tx ∈ o.transmitted, tx.2 = true
  full : ∀ f ∈ o.freed, f.2 = 2 ^ n - 1

variable {n : Nat} {o : Buffer} {queue received : List Packet} {p : Packet}

theorem nwritable_transmit {r : Link} (h : 0 < r.nwritable) :
    ¬ r.full ∧ (r.transmit p).nwritable + 1 = r.nwritable := by
  have hroom : ¬ r.full := fun hfull => by
    rw [Link.nwritable, hfull] at h
    exact absurd h (by simp)
  refine ⟨hroom, ?_⟩
  unfold Link.nwritable Link.nreadable at *
  rw [Link.packets_transmit hroom, List.length_append, length_singleton] at *
  omega

theorem sent_transmit (o : Buffer) (p : Packet) :
    (o.transmit p).transmitted.map Prod.fst = o.transmitted.map Prod.fst ++ [p] := map_append

theorem room_transmit (h : ∀ tx ∈ o.transmitted, tx.2 = true) (hroom : 0 < o.output.nwritable) :
    ∀ tx ∈ (o.transmit p).transmitted, tx.2 = true := by
  intro tx htx
  rcases mem_append.mp htx with htx | htx
  · exact h tx htx
  · rw [mem_singleton.mp htx]
    exact decide_eq_true (nwritable_transmit (p := p) hroom).1

/-- **The oldest packet** of the queue is transmitted. -/
theorem Kept.forward (h : Kept n o (p :: queue) received) (hroom : 0 < o.output.nwritable) :
    Kept n (transmit { o with buffer := o.buffer.dequeue.2 } o.buffer.dequeue.1) queue
      received := by
  obtain ⟨hp, hring⟩ := PacketBuffer.dequeue_cons h.ring
  have horder := h.order
  have howned := h.owned
  rw [← singleton_append, ← append_assoc] at horder howned
  rw [hp]
  refine ⟨hring, ?_, ?_, room_transmit h.room hroom, h.full⟩
  · rwa [sent_transmit]
  · rwa [sent_transmit]

theorem perm_snoc {xs ys zs : List Packet} (h : (xs ++ ys).Perm zs) (p : Packet) :
    (xs ++ [p] ++ ys).Perm (zs ++ [p]) := by
  have hmove : (xs ++ [p] ++ ys).Perm (xs ++ ys ++ [p]) := by
    rw [append_assoc, append_assoc]
    exact perm_append_comm.append_left xs
  exact hmove.trans (h.append_right [p])

/-- **A packet that arrives** at an empty queue is transmitted. -/
theorem Kept.pass (h : Kept n o [] received) (hroom : 0 < o.output.nwritable) (p : Packet) :
    Kept n (o.transmit p) [] (received ++ [p]) := by
  have horder := h.order
  have howned := h.owned
  rw [append_nil] at horder howned
  refine ⟨h.ring, ?_, ?_, room_transmit h.room hroom, h.full⟩
  · rw [append_nil, sent_transmit]
    exact horder.append_right [p]
  · rw [append_nil, sent_transmit]
    exact perm_snoc howned p

section

variable (h : Kept n o queue received)
include h

/-- **A packet that finds room** in the ring is queued. -/
theorem Kept.enqueue (hroom : queue.length ≠ 2 ^ n - 1) (p : Packet) :
    (o.buffer.enqueue p).1 = 1 ∧
      Kept n { o with buffer := (o.buffer.enqueue p).2 } (queue ++ [p]) (received ++ [p]) := by
  obtain ⟨b, hb, hring⟩ := PacketBuffer.enqueue_room h.ring hroom p
  rw [hb]
  refine ⟨rfl, hring, ?_, ?_, h.room, h.full⟩
  · rw [← append_assoc]
    exact h.order.append_right [p]
  · rw [← append_assoc]
    exact perm_snoc h.owned p

/-- **A packet that finds none** is freed. -/
theorem Kept.free (hfull : queue.length = 2 ^ n - 1) (p : Packet) :
    Kept n (o.free p) queue (received ++ [p]) := by
  refine ⟨h.ring, ?_, ?_, h.room, ?_⟩
  · exact h.order.trans (sublist_append_left received [p])
  · rw [Buffer.free, map_append, ← append_assoc]
    exact h.owned.append_right [p]
  · rintro f hf
    rcases mem_append.mp hf with hf | hf
    · exact h.full f hf
    · rw [mem_singleton.mp hf]
      exact (PacketBuffer.size_eq h.ring).trans hfull

/-! ## The loops -/

theorem Kept.forwardQueued {k : Nat} (hk : k ≤ queue.length) (hroom : k ≤ o.output.nwritable) :
    Kept n (forwardQueued k o) (queue.drop k) received ∧
      (Buffer.forwardQueued k o).output.nwritable + k = o.output.nwritable := by
  induction k generalizing o queue with
  | zero => exact ⟨h, rfl⟩
  | succ k ih =>
    cases queue with
    | nil => exact absurd hk (Nat.not_succ_le_zero k)
    | cons p queue =>
      have hone := h.forward (Nat.lt_of_lt_of_le (Nat.succ_pos k) hroom)
      have hless := (nwritable_transmit (p := o.buffer.dequeue.1)
        (Nat.lt_of_lt_of_le (Nat.succ_pos k) hroom)).2
      obtain ⟨hrest, hsum⟩ := ih hone (Nat.le_of_succ_le_succ hk) (by
        show k ≤ (o.output.transmit _).nwritable
        omega)
      refine ⟨hrest, ?_⟩
      have hsum : (Buffer.forwardQueued (k + 1) o).output.nwritable + k =
          (o.output.transmit o.buffer.dequeue.1).nwritable := hsum
      omega

end

theorem Kept.passAll (h : Kept n o [] received) {ps : List Packet}
    (hroom : ps.length ≤ o.output.nwritable) :
    Kept n (ps.foldl Buffer.transmit o) [] (received ++ ps) := by
  induction ps generalizing o received with
  | nil => rwa [append_nil]
  | cons p ps ih =>
    rw [length_cons] at hroom
    have hless := (nwritable_transmit (p := p) (Nat.lt_of_lt_of_le (Nat.succ_pos _) hroom)).2
    have hrest := ih (h.pass (Nat.lt_of_lt_of_le (Nat.succ_pos _) hroom) p) (by
      show ps.length ≤ (o.output.transmit p).nwritable
      omega)
    rwa [append_assoc] at hrest

section

variable (h : Kept n o queue received)
include h

theorem Kept.freeAll (hfull : queue.length = 2 ^ n - 1)
    (ps : List Packet) : Kept n (ps.foldl Buffer.free o) queue (received ++ ps) := by
  induction ps generalizing o received with
  | nil => rwa [append_nil]
  | cons p ps ih =>
    have hrest := ih (h.free hfull p)
    rwa [append_assoc] at hrest

theorem Kept.queueIncoming (ps : List Packet) :
    ∃ queue', Kept n (queueIncoming ps o) queue' (received ++ ps) := by
  induction ps generalizing o queue received with
  | nil => exact ⟨queue, by rwa [append_nil]⟩
  | cons p ps ih =>
    unfold Buffer.queueIncoming
    by_cases hfull : queue.length = 2 ^ n - 1
    · rw [PacketBuffer.enqueue_full h.ring hfull]
      have hrest := (h.free hfull p).freeAll hfull ps
      exact ⟨queue, by rwa [append_assoc] at hrest⟩
    · obtain ⟨hone, hkept⟩ := h.enqueue hfull p
      obtain ⟨queue', hrest⟩ := ih hkept
      rw [append_assoc] at hrest
      refine ⟨queue', ?_⟩
      simp only [hone]
      exact hrest

/-- **A push** keeps order and ownership: either the queue is emptied before packets pass it, or
the output link is full then and no packet passes. -/
theorem kept_push (inp : BufferInput) :
    ∃ queue', Kept n (o.push inp) queue' (received ++ inp.input.packets) := by
  have hstart : Kept n { o with output := o.output.drain inp.taken } queue received :=
    ⟨h.ring, h.order, h.owned, h.room, h.full⟩
  have hsize : o.buffer.size = queue.length := PacketBuffer.size_eq h.ring
  unfold push
  simp only [hsize]
  have hdrained := hstart.forwardQueued (k := min queue.length (o.output.drain inp.taken).nwritable)
    (Nat.min_le_left _ _) (Nat.min_le_right _ _)
  obtain ⟨hkept, hroom⟩ := hdrained
  have hroom : _ = (o.output.drain inp.taken).nwritable := hroom
  rcases Nat.le_total queue.length (o.output.drain inp.taken).nwritable with hle | hle
  · -- The queue is empty now, and as many packets pass as there is room left for.
    rw [Nat.min_eq_left hle] at hkept hroom ⊢
    rw [drop_length] at hkept
    have hlength : (inp.input.packets.take (min ((o.output.drain inp.taken).nwritable -
        queue.length) inp.input.nreadable)).length ≤ _ - queue.length :=
      (length_take_le _ _).trans (Nat.min_le_left _ _)
    have hpass := hkept.passAll (hlength.trans (by omega))
    obtain ⟨queue', hend⟩ := hpass.queueIncoming (inp.input.packets.drop
      (min ((o.output.drain inp.taken).nwritable - queue.length) inp.input.nreadable))
    rw [append_assoc, take_append_drop] at hend
    exact ⟨queue', hend⟩
  · -- There is no room left.
    rw [Nat.min_eq_right hle] at hkept ⊢
    rw [Nat.sub_self]
    exact hkept.queueIncoming inp.input.packets

end

/-- **Order and ownership.** Behind any pushes there is a queue that the ring holds, such that

- the packets transmitted, and then those queued, are some of the packets received, in their order;
- each packet received was transmitted once, freed once or is queued;
- the output link had room for each packet transmitted;
- at each packet freed the ring was full. -/
theorem order_and_ownership (n : Nat) (slots : Nat → Packet) (output : Link) :
    ∃ o, new (2 ^ n) slots output = .ok o ∧ ∀ inputs : List BufferInput,
      ∃ queue, Kept n (inputs.foldl push o) queue (arrivals inputs) := by
  obtain ⟨b, hb, hring⟩ := PacketBuffer.represents_new n slots
  have hrun inputs : ∀ {o : Buffer} {queue received : List Packet},
      Kept n o queue received → ∃ queue',
        Kept n (inputs.foldl push o) queue' (received ++ arrivals inputs) := by
    induction inputs with
    | nil => exact fun {o queue received} h => ⟨queue, by rwa [arrivals, flatMap_nil,
        append_nil]⟩
    | cons inp inputs ih =>
      intro o queue received h
      obtain ⟨queue₁, h₁⟩ := kept_push h inp
      obtain ⟨queue', h'⟩ := ih h₁
      exact ⟨queue', by rwa [arrivals, flatMap_cons, ← append_assoc]⟩
  refine ⟨⟨b, output, [], []⟩, ?_, fun inputs => ?_⟩
  · rw [new, hb]
    rfl
  · have hstart : Kept n ⟨b, output, [], []⟩ [] [] :=
      ⟨hring, List.Sublist.refl _, List.Perm.refl _, nofun, nofun⟩
    exact hrun inputs hstart

end Buffer

end Snabb
