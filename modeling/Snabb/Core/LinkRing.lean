import Snabb.Core.Link
import Snabb.Foundation.Fifo
import Snabb.Foundation.Run
import Mathlib.Algebra.Order.BigOperators.Group.List
import Mathlib.Algebra.Group.Action.Defs

/-!
# The ring of a link (`core/link.lua`, `core/link.h`)

`Snabb.Core.Link` takes a link to be the queue of its packets. This module is the ring that
is really there: an array of packet pointers with two cursors, and the counters that
`transmit` and `receive` keep. `link_refines` connects it to the queues the apps are modelled with.

The length of a packet is read when the packet is counted, once in `transmit` and once in
`receive`; in between, whoever has the pointer may change it. `LinkUse` has the lengths as a
part of the state, so that the byte counters can be compared with the packets that are queued.
-/

namespace Snabb

open Foundation List
open Option (some.inj)

/-- The counters of a link that its operations touch; a `struct counter` is a `uint64_t`. -/
structure LinkStats where
  rxpackets : UInt64
  rxbytes : UInt64
  txpackets : UInt64
  txbytes : UInt64
  txdrop : UInt64
deriving DecidableEq, Repr

/-- `struct link`, for packet pointers of any kind. -/
structure LinkRing (P : Type) where
  ring : Ring P linkRingSize
  stats : LinkStats

namespace LinkRing

variable {P : Type}

/-- `link.new`; what the slots hold is left open. -/
def new (packets : Nat → P) : LinkRing P := ⟨.new packets, ⟨0, 0, 0, 0, 0⟩⟩

def empty (r : LinkRing P) : Prop := r.ring.read = r.ring.write

instance (r : LinkRing P) : Decidable r.empty := inferInstanceAs (Decidable (_ = _))

def full (r : LinkRing P) : Prop := (r.ring.write + 1) &&& (linkRingSize - 1) = r.ring.read

instance (r : LinkRing P) : Decidable r.full := inferInstanceAs (Decidable (_ = _))

def nreadable (r : LinkRing P) : Nat :=
  if r.ring.write < r.ring.read then r.ring.write + linkRingSize - r.ring.read
  else r.ring.write - r.ring.read

def nwritable (r : LinkRing P) : Nat := linkMaxPackets - r.nreadable

def front (r : LinkRing P) : Option P :=
  if r.ring.read ≠ r.ring.write then some (r.ring.slots r.ring.read) else none

/-- `link.receive`, which does not ask whether there is a packet. -/
def receive (length : P → UInt16) (r : LinkRing P) : P × LinkRing P :=
  let p := r.ring.slots r.ring.read
  (p, {
    ring := { r.ring with read := (r.ring.read + 1) &&& (linkRingSize - 1) }
    stats := { r.stats with
      rxpackets := r.stats.rxpackets + 1
      rxbytes := r.stats.rxbytes + (length p).toUInt64 } })

/-- `link.transmit`, with the answer whether the packet was stored or freed. -/
def transmit (length : P → UInt16) (r : LinkRing P) (p : P) : QueueResult P × LinkRing P :=
  if r.full then
    (.refused, { r with stats := { r.stats with txdrop := r.stats.txdrop + 1 } })
  else
    (.stored, {
      ring := {
        slots := Function.update r.ring.slots r.ring.write p
        read := r.ring.read
        write := (r.ring.write + 1) &&& (linkRingSize - 1) }
      stats := { r.stats with
        txpackets := r.stats.txpackets + 1
        txbytes := r.stats.txbytes + (length p).toUInt64 } })

/-! ## The cursors and the queue -/

theorem and_mask (n : Nat) : n &&& (linkRingSize - 1) = n % linkRingSize :=
  Nat.and_two_pow_sub_one_eq_mod n 10

variable {r : LinkRing P} {queue rest : List P} {p : P} {length : P → UInt16}

section

variable (h : r.ring.Holds queue)
include h

theorem empty_iff : r.empty ↔ queue = [] := h.isEmpty_iff

theorem full_iff : r.full ↔ queue.length = linkMaxPackets := by
  rw [full, and_mask, h.isFull_iff]
  exact Nat.succ_inj

theorem nreadable_eq : r.nreadable = queue.length := by
  rw [← h.count_eq, nreadable, Ring.count]
  split <;> split <;> omega

theorem front_eq : r.front = queue.head? := by
  unfold front
  simp only [ne_eq, h.isEmpty_iff]
  cases queue with
  | nil => rfl
  | cons p rest => rw [if_pos (cons_ne_nil _ _), h.peek_eq, List.head?_cons]

/-- The link once it has freed a packet. -/
def dropping (r : LinkRing P) : LinkRing P :=
  { r with stats := { r.stats with txdrop := r.stats.txdrop + 1 } }

/-- The link once it has stored a packet. -/
def storing (length : P → UInt16) (r : LinkRing P) (p : P) : LinkRing P where
  ring := r.ring.enqueue p
  stats := { r.stats with
    txpackets := r.stats.txpackets + 1
    txbytes := r.stats.txbytes + (length p).toUInt64 }

/-- The link once its first packet is taken. -/
def taking (length : P → UInt16) (r : LinkRing P) (p : P) : LinkRing P where
  ring := r.ring.dequeue
  stats := { r.stats with
    rxpackets := r.stats.rxpackets + 1
    rxbytes := r.stats.rxbytes + (length p).toUInt64 }

theorem transmit_full (hfull : queue.length = linkMaxPackets) (p : P) :
    r.transmit length p = (.refused, r.dropping) := by
  rw [transmit, if_pos ((full_iff h).mpr hfull), dropping]

theorem transmit_room (hroom : queue.length ≠ linkMaxPackets) (p : P) :
    r.transmit length p = (.stored, r.storing length p) := by
  rw [transmit, if_neg (mt (full_iff h).mp hroom), and_mask]
  rfl

theorem holds_enqueue (hroom : queue.length ≠ linkMaxPackets) (p : P) :
    (r.ring.enqueue p).Holds (queue ++ [p]) := by
  have hlt := h.room
  refine h.enqueue p ?_
  simp only [linkMaxPackets] at hroom
  omega

end

theorem receive_cons (h : r.ring.Holds (p :: rest)) :
    r.receive length = (p, r.taking length p) := by
  rw [receive, h.peek_eq, and_mask]
  rfl

/-- The ring holds the packets of a link. -/
def Represents (r : LinkRing Packet) (l : Link) : Prop := r.ring.Holds l.packets

variable {r : LinkRing Packet} {l : Link}

/-- **The links of the apps** are what the ring represents: `transmit` does the same. -/
theorem Represents.transmit (h : r.Represents l)
    (length : Packet → UInt16) (p : Packet) : (r.transmit length p).2.Represents (l.transmit p) := by
  by_cases hfull : l.full
  · rw [transmit_full h hfull, Link.transmit, dif_pos hfull]
    exact h
  · rw [Represents, Link.packets_transmit hfull, transmit_room h hfull]
    exact holds_enqueue h hfull p

theorem Represents.receive {p : Packet} {rest : List Packet}
    (h : r.Represents l) (hcons : l.packets = p :: rest) (length : Packet → UInt16) :
    (r.receive length).1 = p ∧ (r.receive length).2.Represents (l.drain 1) := by
  have hdrain : (l.drain 1).packets = rest := by
    show l.packets.drop 1 = rest
    rw [hcons, drop_one, tail_cons]
  rw [Represents, hcons] at h
  rw [receive_cons h, Represents, hdrain]
  exact ⟨rfl, h.dequeue⟩

end LinkRing

/-! ## The counters -/

/-- A link, the lengths of the packets, and what has happened to the packets. -/
structure LinkUse (P : Type) where
  link : LinkRing P
  length : P → UInt16
  accepted : List P
  received : List P
  freed : List P

/-- What happens next: a call of the link, or a packet gets another length. -/
inductive LinkAction (P : Type) where
  | transmit (p : P)
  | receive
  | setLength (p : P) (n : UInt16)

namespace LinkUse

variable {P : Type}

def new (packets : Nat → P) (length : P → UInt16) : LinkUse P := ⟨.new packets, length, [], [], []⟩

/-- The bytes of queued packets. -/
def bytesOf (s : LinkUse P) (queue : List P) : Nat := (queue.map fun p => (s.length p).toNat).sum

/-- The invariant: `queue` is what has been accepted and not received yet, and the counters
count. -/
structure Kept (s : LinkUse P) (queue : List P) : Prop where
  holds : s.link.ring.Holds queue
  order : s.accepted = s.received ++ queue
  tx_eq : s.link.stats.txpackets = UInt64.ofNat s.accepted.length
  rx_eq : s.link.stats.rxpackets = UInt64.ofNat s.received.length
  drop_eq : s.link.stats.txdrop = UInt64.ofNat s.freed.length

/-- The byte counters differ by the bytes that are queued. -/
def Balanced (s : LinkUse P) (queue : List P) : Prop :=
  s.link.stats.txbytes = s.link.stats.rxbytes + UInt64.ofNat (s.bytesOf queue)

variable {s s' : LinkUse P} {queue rest : List P} {p : P}

theorem kept_new (packets : Nat → P) (length : P → UInt16) : Kept (new packets length) [] where
  holds := Ring.Holds.new packets (by decide)
  order := rfl
  tx_eq := rfl
  rx_eq := rfl
  drop_eq := rfl

theorem ofNat_length_snoc (xs : List P) (p : P) :
    UInt64.ofNat (xs ++ [p]).length = UInt64.ofNat xs.length + 1 := by
  rw [List.length_append, UInt64.ofNat_add]
  rfl

/-- What holds of a link between two calls; `queue` are its packets, oldest first. -/
structure Consistent (s : LinkUse P) (queue : List P) : Prop where
  order : s.accepted = s.received ++ queue
  nreadable_eq : s.link.nreadable = queue.length
  sum_eq : s.link.nreadable + s.link.nwritable = linkMaxPackets
  packets_eq : (s.link.stats.txpackets - s.link.stats.rxpackets).toNat = s.link.nreadable
  dropped_eq : s.link.stats.txdrop = UInt64.ofNat s.freed.length
  empty_iff : s.link.empty ↔ s.link.nreadable = 0
  full_iff : s.link.full ↔ s.link.nreadable = linkMaxPackets
  front_eq : s.link.front = queue.head?

theorem Kept.consistent (h : Kept s queue) : Consistent s queue := by
  have hreadable := LinkRing.nreadable_eq h.holds
  have hroom := h.holds.room
  refine {
    order := h.order
    nreadable_eq := hreadable
    sum_eq := ?_
    packets_eq := ?_
    dropped_eq := h.drop_eq
    empty_iff := ?_
    full_iff := ?_
    front_eq := LinkRing.front_eq h.holds }
  · rw [LinkRing.nwritable, linkMaxPackets]
    omega
  · rw [h.tx_eq, h.rx_eq, h.order, List.length_append, UInt64.ofNat_add, UInt64.add_comm,
      UInt64.add_sub_cancel, UInt64.toNat_ofNat']
    simp only [linkRingSize] at hroom
    omega
  · rw [LinkRing.empty_iff h.holds, hreadable, length_eq_zero_iff]
  · rw [LinkRing.full_iff h.holds, hreadable]

theorem bytesOf_lt (h : Kept s queue) : s.bytesOf queue < 2 ^ 64 := by
  have hroom := h.holds.room
  have hle : s.bytesOf queue ≤ queue.length * 2 ^ 16 := by
    have hsum := sum_le_card_nsmul (queue.map fun p => (s.length p).toNat) (2 ^ 16) (by
      intro n hn
      obtain ⟨p, -, rfl⟩ := mem_map.mp hn
      exact (s.length p).toNat_lt.le)
    rwa [length_map] at hsum
  simp only [linkRingSize] at hroom
  omega

/-- The difference of the byte counters, as the 64-bit subtraction gives it. -/
theorem Balanced.bytes_eq (h : Balanced s queue) (hkept : Kept s queue) :
    (s.link.stats.txbytes - s.link.stats.rxbytes).toNat = s.bytesOf queue := by
  rw [h, UInt64.add_comm, UInt64.add_sub_cancel, UInt64.toNat_ofNat',
    Nat.mod_eq_of_lt (bytesOf_lt hkept)]

/-! ## Runs -/

variable [DecidableEq P] {a : LinkAction P}

/-- One step. Whether a packet is accepted or freed is the answer of `transmit`. -/
def act (s : LinkUse P) : LinkAction P → Option (LinkUse P)
  | .transmit p =>
    match s.link.transmit s.length p with
    | (.refused, link) => some { s with link := link, freed := s.freed ++ [p] }
    | (_, link) => some { s with link := link, accepted := s.accepted ++ [p] }
  | .receive =>
    if s.link.empty then none
    else some { s with
      link := (s.link.receive s.length).2
      received := s.received ++ [(s.link.receive s.length).1] }
  | .setLength p n => some { s with length := Function.update s.length p n }

/-- A step does not change the length of a packet that is queued. -/
def Undisturbed (s : LinkUse P) : LinkAction P → Prop
  | .setLength p _ => p ∉ s.link.ring.contents
  | _ => True

instance (s : LinkUse P) (a : LinkAction P) : Decidable (Undisturbed s a) :=
  match a with
  | .setLength _ _ => inferInstanceAs (Decidable (¬ _))
  | .transmit _ => isTrue trivial
  | .receive => isTrue trivial

theorem act_refused (h : Kept s queue) (hfull : queue.length = linkMaxPackets) (p : P) :
    s.act (.transmit p) = some { s with link := s.link.dropping, freed := s.freed ++ [p] } := by
  rw [act, LinkRing.transmit_full h.holds hfull]

theorem act_stored (h : Kept s queue) (hroom : queue.length ≠ linkMaxPackets) (p : P) :
    s.act (.transmit p) = some { s with
      link := s.link.storing s.length p, accepted := s.accepted ++ [p] } := by
  rw [act, LinkRing.transmit_room h.holds hroom]

theorem act_receive (h : Kept s (p :: rest)) : s.act .receive =
    some { s with link := s.link.taking s.length p, received := s.received ++ [p] } := by
  rw [act, if_neg (mt (LinkRing.empty_iff h.holds).mp (cons_ne_nil _ _)),
    LinkRing.receive_cons h.holds]

theorem act_cases (h : Kept s queue) (hact : s.act a = some s') :
    (∃ p, a = .transmit p ∧ queue.length = linkMaxPackets ∧
      s' = { s with link := s.link.dropping, freed := s.freed ++ [p] }) ∨
    (∃ p, a = .transmit p ∧ queue.length ≠ linkMaxPackets ∧
      s' = { s with link := s.link.storing s.length p, accepted := s.accepted ++ [p] }) ∨
    (∃ p rest, a = .receive ∧ queue = p :: rest ∧
      s' = { s with link := s.link.taking s.length p, received := s.received ++ [p] }) ∨
    (∃ p n, a = .setLength p n ∧ s' = { s with length := Function.update s.length p n }) := by
  cases a with
  | transmit p =>
    by_cases hfull : queue.length = linkMaxPackets
    · rw [act_refused h hfull] at hact
      exact .inl ⟨p, rfl, hfull, (some.inj hact).symm⟩
    · rw [act_stored h hfull] at hact
      exact .inr (.inl ⟨p, rfl, hfull, (some.inj hact).symm⟩)
  | receive =>
    cases queue with
    | nil =>
      rw [act, if_pos ((LinkRing.empty_iff h.holds).mpr rfl)] at hact
      cases hact
    | cons p rest =>
      rw [act_receive h] at hact
      exact .inr (.inr (.inl ⟨p, rest, rfl, rfl, (some.inj hact).symm⟩))
  | setLength p n => exact .inr (.inr (.inr ⟨p, n, rfl, (some.inj hact).symm⟩))

/-- **A step keeps the order and the counts**, and the bytes if the queued packets keep their
lengths. -/
theorem Kept.act (h : Kept s queue) (hact : s.act a = some s') :
    ∃ queue', Kept s' queue' ∧ (Undisturbed s a → Balanced s queue → Balanced s' queue') := by
  obtain ⟨p, rfl, -, rfl⟩ | ⟨p, rfl, hroom, rfl⟩ | ⟨p, rest, rfl, rfl, rfl⟩ | ⟨p, n, rfl, rfl⟩ :=
    act_cases h hact
  · refine ⟨queue, { h with drop_eq := ?_ }, fun _ hbytes => hbytes⟩
    show s.link.stats.txdrop + 1 = _
    rw [h.drop_eq, ofNat_length_snoc]
  · refine ⟨queue ++ [p], {
      holds := LinkRing.holds_enqueue h.holds hroom p
      order := ?_
      tx_eq := ?_
      rx_eq := h.rx_eq
      drop_eq := h.drop_eq }, fun _ hbytes => ?_⟩
    · show s.accepted ++ [p] = s.received ++ (queue ++ [p])
      rw [h.order, append_assoc]
    · show s.link.stats.txpackets + 1 = _
      rw [h.tx_eq, ofNat_length_snoc]
    · show s.link.stats.txbytes + (s.length p).toUInt64 =
        s.link.stats.rxbytes + UInt64.ofNat (s.bytesOf (queue ++ [p]))
      rw [hbytes, UInt64.add_assoc]
      simp [bytesOf]
  · refine ⟨rest, {
      holds := h.holds.dequeue
      order := ?_
      tx_eq := h.tx_eq
      rx_eq := ?_
      drop_eq := h.drop_eq }, fun _ hbytes => ?_⟩
    · show s.accepted = s.received ++ [p] ++ rest
      rw [h.order, append_assoc, singleton_append]
    · show s.link.stats.rxpackets + 1 = _
      rw [h.rx_eq, ofNat_length_snoc]
    · show s.link.stats.txbytes =
        s.link.stats.rxbytes + (s.length p).toUInt64 + UInt64.ofNat (s.bytesOf rest)
      rw [hbytes, UInt64.add_assoc]
      simp [bytesOf]
  · refine ⟨queue, { h with }, fun hout hbytes => ?_⟩
    replace hout : p ∉ queue := by
      rw [← h.holds.contents_eq]
      exact hout
    have hsame : ({ s with length := Function.update s.length p n } : LinkUse P).bytesOf queue =
        s.bytesOf queue := by
      refine congrArg List.sum (map_congr_left fun q hq => ?_)
      exact congrArg UInt16.toNat (Function.update_of_ne (ne_of_mem_of_not_mem hq hout) n s.length)
    show s.link.stats.txbytes = s.link.stats.rxbytes + UInt64.ofNat _
    rw [hsame]
    exact hbytes

variable {actions : List (LinkAction P)} {length : P → UInt16} {packets : Nat → P}

/-- **Every run** keeps a link consistent. -/
theorem kept_run
    (hrun : run (enabled act) (new packets length) actions = .ok s) : ∃ queue, Kept s queue :=
  run_enabled (I := fun s : LinkUse P => ∃ queue, Kept s queue)
    (fun _ _ _ ⟨_, h⟩ hact => (h.act hact).imp fun _ => And.left) ⟨[], kept_new packets length⟩ hrun

/-- And the byte counters, if the queued packets keep their lengths. -/
theorem balanced_run (hquiet : Along (enabled act) Undisturbed (new packets length) actions)
    (hrun : run (enabled act) (new packets length) actions = .ok s) :
    ∃ queue, Kept s queue ∧ Balanced s queue := by
  refine run_inv (I := fun s _ => ∃ queue, Kept s queue ∧ Balanced s queue)
    ?_ ⟨[], kept_new packets length, rfl⟩ hquiet hrun
  rintro s a - s' ⟨queue, h, hbytes⟩ hquiet hact
  obtain ⟨queue', h', hbytes'⟩ := h.act (enabled_eq_ok.mp hact)
  exact ⟨queue', h', hbytes' hquiet hbytes⟩

end LinkUse

/-- What an action means for a link of the apps. -/
def Link.act (l : Link) : LinkAction Packet → Link
  | .transmit p => l.transmit p
  | .receive => l.drain 1
  | .setLength _ _ => l

/-- **The links of the apps are refined by their rings** over every run. -/
theorem link_refines [DecidableEq Packet] {packets : Nat → Packet} {length : Packet → UInt16}
    {actions : List (LinkAction Packet)} {s : LinkUse Packet}
    (hrun : run (enabled LinkUse.act) (.new packets length) actions = .ok s) :
    s.link.Represents (actions.foldl Link.act .new) := by
  induction actions using List.reverseRecOn generalizing s with
  | nil =>
    cases hrun
    exact Ring.Holds.new packets (by decide)
  | append_singleton actions a ih =>
    obtain ⟨s, hbefore, hact⟩ := run_snoc_eq_ok hrun
    have h := ih hbefore
    replace hact := enabled_eq_ok.mp hact
    rw [foldl_append, foldl_cons, foldl_nil]
    cases a with
    | transmit p =>
      have hnext := h.transmit s.length p
      rw [LinkUse.act] at hact
      split at hact
      all_goals
        next heq =>
          cases hact
          rwa [heq] at hnext
    | receive =>
      rw [LinkUse.act] at hact
      split at hact
      · cases hact
      · next hempty =>
        cases hact
        rw [LinkRing.empty_iff h] at hempty
        obtain ⟨p, rest, hcons⟩ := exists_cons_of_ne_nil hempty
        exact (h.receive hcons s.length).2
    | setLength p n =>
      cases hact
      exact h

theorem link_refines_one : let p : Packet := .fromPointer 0 [7]
    let actions : List (LinkAction Packet) := [.transmit p, .receive]
    ∃ (_ : DecidableEq Packet) (s : LinkUse Packet),
      run (enabled LinkUse.act) (.new (fun _ => p) fun _ => 1) actions = .ok s ∧
        s.link.Represents (actions.foldl Link.act .new) := by
  have dec := Classical.decEq Packet
  exact ⟨dec, exists_ok_of_any (fun _ => True) rfl fun _ hs _ => link_refines hs⟩

end Snabb
