import Snabb.Core.Link
import Snabb.Foundation.Ring
import Snabb.Foundation.Run
import Mathlib.Data.Rat.Floor

/-!
# The delayer (`middleware/delayer_c_buffer.lua`, `base/delay_buffer.c`)

The delayer emulates a slow link. Every packet that arrives is put into a ring
together with the time at which it is to leave; every push forwards the packets whose
time has come, as many as the output link has room for, and discards the other ones.

`db_peek_time` answers `UINT64_MAX` for an empty ring, and the discard loop runs as
long as the answer is not later than the clock. The loop is modelled with fuel: a push
that runs out of it returns `outOfFuel`, and `discard_isOk` shows that a clock below
`UINT64_MAX` never needs more fuel than the ring has slots.

Times are `uint64_t` in the source; the sum of clock and delay is reduced modulo
`2 ^ 64`.
-/

namespace Snabb

open Foundation List
open Prod (snd fst)

/-- `DELAY_BUFFER_SIZE`. -/
def delayBufferSize : Nat := 256 * 1024

/-- `struct timed_packet`. -/
structure TimedPacket where
  packet : Packet
  sendingTime : Nat

/-- `struct delay_buffer`. The memory comes from `malloc`, so what the slots hold at
first is left open. -/
abbrev DelayBuffer := Ring TimedPacket delayBufferSize

namespace DelayBuffer

def bufferIsEmpty (b : DelayBuffer) : Prop := b.read = b.write

instance (b : DelayBuffer) : Decidable b.bufferIsEmpty := inferInstanceAs (Decidable (_ = _))

def bufferIsFull (b : DelayBuffer) : Prop := (b.write + 1) &&& (delayBufferSize - 1) = b.read

instance (b : DelayBuffer) : Decidable b.bufferIsFull := inferInstanceAs (Decidable (_ = _))

/-- `db_enqueue`; nothing is stored when the buffer is full. -/
def dbEnqueue (b : DelayBuffer) (pkt : Packet) (sendingTime : Nat) : Option DelayBuffer :=
  if b.bufferIsFull then none
  else some { b with
    slots := Function.update b.slots b.write ⟨pkt, sendingTime⟩
    write := (b.write + 1) &&& (delayBufferSize - 1) }

/-- `db_dequeue`, which does not ask whether there is a packet. -/
def dbDequeue (b : DelayBuffer) : Packet × DelayBuffer :=
  ((b.slots b.read).packet, { b with read := (b.read + 1) &&& (delayBufferSize - 1) })

/-- `db_peek_time`. -/
def dbPeekTime (b : DelayBuffer) : Nat :=
  if b.bufferIsEmpty then 2 ^ 64 - 1 else (b.slots b.read).sendingTime

/-- `db_size`. -/
def dbSize (b : DelayBuffer) : Nat :=
  if b.read ≤ b.write then b.write - b.read else b.write + delayBufferSize - b.read

end DelayBuffer

/-- `delay` and `correction` in ns. -/
structure DelayerConf where
  delay : ℚ
  correction : ℚ

/-- The conversion of a Lua number to `uint64_t`: the fraction is cut off and the rest
is reduced to 64 bits. -/
def toUint64 (x : ℚ) : Nat := ((if 0 ≤ x then ⌊x⌋ else ⌈x⌉) % 2 ^ 64).toNat

/-- The whole nanoseconds that a packet has to wait. -/
def DelayerConf.difference (conf : DelayerConf) : Nat := ⌊conf.delay - conf.correction⌋₊

/-- A delay of 30 ms on a link that has 10 ms already. -/
def DelayerConf.sample : DelayerConf := ⟨30000000, 10000000⟩

/-- The state of a `DelayerWithCBuffer`, its output link, and its history. -/
structure Delayer where
  delay : Nat
  queue : DelayBuffer
  output : Link
  /-- The packets handed to the output link, with the time of the push. -/
  sent : List (Nat × Packet)
  /-- The packets that the next app has taken from the output link. -/
  delivered : List Packet
  freed : List Packet

/-- What a push finds: `C.get_time_ns()`, the packets waiting on the input link, and how
many packets the next app has taken from the output link since the last push. -/
structure DelayerInput where
  currentTime : Nat
  input : Link
  taken : Nat
  fits : currentTime < 2 ^ 64

/-- What a push finds at time `t` when the next app has not run. -/
def DelayerInput.arriving (t : UInt64) (ps : List Packet) : DelayerInput :=
  ⟨t.toNat, .holding ps, 0, t.toNat_lt⟩

/-- Why a modelled loop has not returned. -/
inductive OutOfFuel where
  | outOfFuel
deriving DecidableEq, Repr

namespace Delayer

open DelayBuffer

/-- `DelayerWithCBuffer:new`; `slots` is what the allocated memory holds. -/
def new (conf : DelayerConf) (slots : Nat → TimedPacket) : Delayer where
  delay := toUint64 (conf.delay - conf.correction)
  queue := ⟨slots, 0, 0⟩
  output := .new
  sent := []
  delivered := []
  freed := []

/-- A delayer in memory that happens to be cleared. -/
def cleared (conf : DelayerConf) : Delayer := new conf fun _ => ⟨.fromPointer 0 [], 0⟩

/-- `free(p)`. -/
def free (p : Packet) (o : Delayer) : Delayer := { o with freed := o.freed ++ [p] }

/-- The next app takes `n` packets from the output link. -/
def drained (n : Nat) (o : Delayer) : Delayer := { o with
  output := o.output.drain n
  delivered := o.delivered ++ o.output.packets.take n }

/-- The first loop of `push`: forward the packets whose delay is reached. -/
def forward (currentTime : Nat) : Nat → Delayer → Delayer
  | 0, o => o
  | n + 1, o =>
    -- only the head is looked at
    if o.queue.dbPeekTime ≤ currentTime then
      let (pkt, queue) := o.queue.dbDequeue
      forward currentTime n { o with
        queue := queue
        output := o.output.transmit pkt
        sent := o.sent ++ [(currentTime, pkt)] }
    else o

/-- The second loop: discard the packets that do not fit on the link. -/
def discard (currentTime : Nat) : Nat → Delayer → Except OutOfFuel Delayer
  | 0, _ => .error .outOfFuel
  | fuel + 1, o =>
    -- an empty ring has the time 2^64 - 1
    if o.queue.dbPeekTime ≤ currentTime then
      let (pkt, queue) := o.queue.dbDequeue
      discard currentTime fuel (free pkt { o with queue := queue })
    else .ok o

/-- The last two loops: put new packets on the link as long as there is space, and
discard the other ones. -/
def receive (sendingTime : Nat) : List Packet → Delayer → Delayer
  | [], o => o
  | p :: rest, o =>
    match o.queue.dbEnqueue p sendingTime with
    | some queue => receive sendingTime rest { o with queue := queue }
    | none => (p :: rest).foldl (fun o p => o.free p) o

def push (fuel : Nat) (o : Delayer) (inp : DelayerInput) : Except OutOfFuel Delayer := do
  let o := drained inp.taken o
  let maxPacketsToForward := min o.queue.dbSize o.output.nwritable
  let o := forward inp.currentTime maxPacketsToForward o
  let o ← discard inp.currentTime fuel o
  let sendingTime := (inp.currentTime + o.delay) % 2 ^ 64
  return receive sendingTime inp.input.packets o

/-- The packets in the ring, oldest first. -/
def queued (o : Delayer) : List TimedPacket := o.queue.contents

/-- What a delayer has received over a run, with the time of the push. -/
def received (inputs : List DelayerInput) : List (Nat × Packet) :=
  inputs.flatMap fun inp => inp.input.packets.map fun p => (inp.currentTime, p)

/-! ## The ring -/

theorem and_mask (n : Nat) : n &&& (delayBufferSize - 1) = n % delayBufferSize :=
  Nat.and_two_pow_sub_one_eq_mod n 18

variable {b : DelayBuffer} {qs : List TimedPacket} {q : TimedPacket}

theorem dbEnqueue_full (h : b.Holds qs) (hfull : qs.length + 1 = delayBufferSize) (p : Packet)
    (t : Nat) : b.dbEnqueue p t = none := by
  rw [dbEnqueue, if_pos]
  rw [bufferIsFull, and_mask]
  exact h.isFull_iff.mpr hfull

theorem dbEnqueue_room (h : b.Holds qs) (hroom : qs.length + 1 ≠ delayBufferSize) (p : Packet)
    (t : Nat) : ∃ b', b.dbEnqueue p t = some b' ∧ b'.Holds (qs ++ [⟨p, t⟩]) := by
  refine ⟨b.enqueue ⟨p, t⟩, ?_, h.enqueue _ ?_⟩
  · rw [dbEnqueue, if_neg, and_mask]
    · rfl
    · rw [bufferIsFull, and_mask, h.isFull_iff]
      exact hroom
  · have hlt := h.room
    omega

theorem dbDequeue_cons (h : b.Holds (q :: qs)) :
    ∃ b', b.dbDequeue = (q.packet, b') ∧ b'.Holds qs := by
  refine ⟨b.dequeue, ?_, h.dequeue⟩
  rw [dbDequeue, h.peek_eq, and_mask]
  rfl

theorem dbPeekTime_nil (h : b.Holds []) : b.dbPeekTime = 2 ^ 64 - 1 := by
  rw [dbPeekTime, if_pos]
  exact h.isEmpty_iff.mpr rfl

theorem dbPeekTime_cons (h : b.Holds (q :: qs)) : b.dbPeekTime = q.sendingTime := by
  rw [dbPeekTime, if_neg, h.peek_eq]
  rw [bufferIsEmpty, h.isEmpty_iff]
  exact cons_ne_nil _ _

/-! ## What the loops do to the packets -/

/-- A packet with the time of its arrival, as it is stored in the ring. -/
def timed (d : Nat) (a : Nat × Packet) : TimedPacket := ⟨a.2, a.1 + d⟩

/-- A delayer with delay `d` has sent the packets `due` of what it has received, and the
packets `waiting` are in its ring. -/
structure Keeps (d : Nat) (rs due waiting : List (Nat × Packet)) (o : Delayer) : Prop where
  delay_eq : o.delay = d
  holds : o.queue.Holds (waiting.map (timed d))
  order : (due ++ waiting).Sublist rs
  timely : List.Forall₂ (fun a s => a.2 = s.2 ∧ a.1 + d ≤ s.1) due o.sent
  account : (o.sent.map snd ++ waiting.map snd ++ o.freed).Perm (rs.map snd)
  onLink : o.delivered ++ o.output.packets = o.sent.map snd

variable {d t : Nat} {o : Delayer} {rs due waiting : List (Nat × Packet)} {a : Nat × Packet}

theorem keeps_new (conf : DelayerConf) (slots : Nat → TimedPacket) :
    Keeps (new conf slots).delay [] [] [] (new conf slots) where
  delay_eq := rfl
  holds := Ring.Holds.new slots (by decide)
  order := .slnil
  timely := .nil
  account := .nil
  onLink := rfl

theorem Keeps.drained (h : Keeps d rs due waiting o) (n : Nat) :
    Keeps d rs due waiting (drained n o) where
  delay_eq := h.delay_eq
  holds := h.holds
  order := h.order
  timely := h.timely
  account := h.account
  onLink := by
    have hlink := h.onLink
    simp only [Delayer.drained, Link.drain, append_assoc, take_append_drop]
    exact hlink

/-- Only a packet that is due makes a loop of `push` go on, as long as the clock has not
reached the answer for an empty ring. -/
theorem Keeps.head_due (h : Keeps d rs due waiting o) (ht : t < 2 ^ 64 - 1)
    (hpeek : o.queue.dbPeekTime ≤ t) : ∃ a rest, waiting = a :: rest ∧ a.1 + d ≤ t := by
  have hholds := h.holds
  cases waiting with
  | nil =>
    rw [dbPeekTime_nil hholds] at hpeek
    omega
  | cons a rest =>
    rw [dbPeekTime_cons hholds] at hpeek
    exact ⟨a, rest, rfl, hpeek⟩

variable {queue : DelayBuffer} {o' : Delayer} {n m : Nat} {inp : DelayerInput}
  {inputs : List DelayerInput}

theorem Keeps.send (h : Keeps d rs due (a :: waiting) o) (hdue : a.1 + d ≤ t)
    (hroom : ¬ o.output.full) (hqueue : queue.Holds (waiting.map (timed d))) :
    Keeps d rs (due ++ [a]) waiting { o with
      queue := queue
      output := o.output.transmit a.2
      sent := o.sent ++ [(t, a.2)] } where
  delay_eq := h.delay_eq
  holds := hqueue
  order := by
    rw [append_assoc]
    exact h.order
  timely := rel_append h.timely (.cons ⟨rfl, hdue⟩ .nil)
  account := by
    have haccount := h.account
    simpa using haccount
  onLink := by
    have hlink := h.onLink
    simp only [Link.packets_transmit hroom, map_append, ← hlink, append_assoc]
    rfl

theorem Keeps.discard (h : Keeps d rs due (a :: waiting) o)
    (hqueue : queue.Holds (waiting.map (timed d))) :
    Keeps d rs due waiting (free a.2 { o with queue := queue }) where
  delay_eq := h.delay_eq
  holds := hqueue
  order := (List.Sublist.append_left (sublist_cons_self ..) due).trans h.order
  timely := h.timely
  account := by
    refine List.Perm.trans ?_ h.account
    simp only [free, map_cons, append_assoc]
    refine List.Perm.append_left _ ?_
    rw [← append_assoc]
    exact perm_append_singleton ..
  onLink := h.onLink

theorem Keeps.store (h : Keeps d rs due waiting o) (a : Nat × Packet)
    (hqueue : queue.Holds ((waiting ++ [a]).map (timed d))) :
    Keeps d (rs ++ [a]) due (waiting ++ [a]) { o with queue := queue } where
  delay_eq := h.delay_eq
  holds := hqueue
  order := by
    rw [← append_assoc]
    exact h.order.append_right [a]
  timely := h.timely
  account := by
    rw [map_append, map_append]
    refine List.Perm.trans ?_ (h.account.append_right _)
    simp only [append_assoc]
    refine List.Perm.append_left _ (List.Perm.append_left _ ?_)
    exact perm_append_comm
  onLink := h.onLink

theorem Keeps.drop (h : Keeps d rs due waiting o) (a : Nat × Packet) :
    Keeps d (rs ++ [a]) due waiting (free a.2 o) where
  delay_eq := h.delay_eq
  holds := h.holds
  order := h.order.trans (sublist_append_left ..)
  timely := h.timely
  account := by
    rw [map_append, free, ← append_assoc]
    exact h.account.append_right [a.2]
  onLink := h.onLink

/-- **The first loop** only moves packets from the ring to the output link, and only those
whose time has come. -/
theorem Keeps.forward (ht : t < 2 ^ 64 - 1) (n : Nat) (h : Keeps d rs due waiting o)
    (hroom : n ≤ o.output.nwritable) :
    ∃ due' waiting', Keeps d rs due' waiting' (forward t n o) := by
  induction n generalizing o due waiting with
  | zero => exact ⟨due, waiting, h⟩
  | succ n ih =>
    rw [Delayer.forward]
    split
    · next hpeek =>
      obtain ⟨a, rest, rfl, hdue⟩ := h.head_due ht hpeek
      obtain ⟨queue, hdequeue, hqueue⟩ := dbDequeue_cons h.holds
      have hfull : ¬ o.output.full := by
        unfold Link.full
        unfold Link.nwritable at hroom
        omega
      simp only [hdequeue]
      refine ih (h.send hdue hfull hqueue) ?_
      simp only [Link.nwritable, Link.nreadable, Link.packets_transmit hfull, List.length_append,
        length_singleton] at hroom ⊢
      omega
    · exact ⟨due, waiting, h⟩

/-- **The second loop** returns before the fuel is used up. -/
theorem discard_isOk (ht : t < 2 ^ 64 - 1) (fuel : Nat) (h : o.queue.Holds qs)
    (hfuel : qs.length < fuel) : ∃ o', Delayer.discard t fuel o = .ok o' := by
  induction fuel generalizing o qs with
  | zero => omega
  | succ fuel ih =>
    rw [Delayer.discard]
    split
    · next hpeek =>
      cases qs with
      | nil =>
        rw [dbPeekTime_nil h] at hpeek
        omega
      | cons q qs =>
        obtain ⟨queue, hdequeue, hqueue⟩ := dbDequeue_cons h
        simp only [hdequeue]
        exact ih hqueue (Nat.lt_of_succ_lt_succ hfuel)
    · exact ⟨o, rfl⟩

theorem Keeps.discards (ht : t < 2 ^ 64 - 1) (fuel : Nat) (h : Keeps d rs due waiting o)
    (hok : Delayer.discard t fuel o = .ok o') :
    ∃ waiting', Keeps d rs due waiting' o' ∧ ∀ a ∈ waiting'.head?, t < a.1 + d := by
  induction fuel generalizing o waiting with
  | zero => cases hok
  | succ fuel ih =>
    rw [Delayer.discard] at hok
    split at hok
    · next hpeek =>
      obtain ⟨a, rest, rfl, -⟩ := h.head_due ht hpeek
      obtain ⟨queue, hdequeue, hqueue⟩ := dbDequeue_cons h.holds
      simp only [hdequeue] at hok
      exact ih (h.discard hqueue) hok
    · next hpeek =>
      cases hok
      refine ⟨waiting, h, ?_⟩
      rintro a ha
      obtain ⟨rest, rfl⟩ := List.head?_eq_some_iff.mp ha
      rw [dbPeekTime_cons h.holds] at hpeek
      exact Nat.lt_of_not_le hpeek

theorem Keeps.drops (ps : List Packet) (h : Keeps d rs due waiting o) :
    Keeps d (rs ++ ps.map fun p => (t, p)) due waiting (ps.foldl (fun o p => o.free p) o) := by
  induction ps generalizing o rs with
  | nil => simpa using h
  | cons p ps ih =>
    have hrest := ih (h.drop (t, p))
    rwa [append_assoc] at hrest

/-- **The last loops** store the packets of the input link behind those of the ring, as
long as there is space, and free the other ones. -/
theorem Keeps.receive (ps : List Packet) (h : Keeps d rs due waiting o) :
    ∃ waiting', Keeps d (rs ++ ps.map fun p => (t, p)) due waiting' (receive (t + d) ps o) ∧
      ∀ a ∈ waiting', a ∈ waiting ∨ a.1 = t ∧ a.2 ∈ ps := by
  induction ps generalizing o rs waiting with
  | nil => exact ⟨waiting, by simpa [Delayer.receive] using h, fun a ha => .inl ha⟩
  | cons p ps ih =>
    rw [Delayer.receive]
    by_cases hfull : (waiting.map (timed d)).length + 1 = delayBufferSize
    · rw [dbEnqueue_full h.holds hfull]
      exact ⟨waiting, h.drops (p :: ps), fun a ha => .inl ha⟩
    · obtain ⟨queue, henqueue, hqueue⟩ := dbEnqueue_room h.holds hfull p (t + d)
      rw [henqueue]
      have hstored : queue.Holds ((waiting ++ [(t, p)]).map (timed d)) := by
        rw [map_append]
        exact hqueue
      obtain ⟨waiting', hkeeps, hnew⟩ := ih (h.store (t, p) hstored)
      refine ⟨waiting', by rwa [append_assoc] at hkeeps, fun a ha => ?_⟩
      rcases hnew a ha with hold | ⟨ht, hp⟩
      · rcases mem_append.mp hold with hold | hlast
        · exact .inl hold
        · obtain rfl := mem_singleton.mp hlast
          exact .inr ⟨rfl, mem_cons_self ..⟩
      · exact .inr ⟨ht, mem_cons_of_mem _ hp⟩

/-! ## A push, and a run of pushes -/

variable {o : Delayer}

/-- More fuel does not change the result of a loop that has returned. -/
theorem discard_fuel (h : Delayer.discard t n o = .ok o')
    (hle : n ≤ m) : Delayer.discard t m o = .ok o' := by
  induction n generalizing o m with
  | zero => cases h
  | succ n ih =>
    obtain ⟨m, rfl⟩ := Nat.exists_eq_add_of_lt (Nat.lt_of_succ_le hle)
    rw [Delayer.discard] at h ⊢
    split at h
    · next hpeek =>
      rw [if_pos hpeek]
      exact ih h (by omega)
    · next hpeek =>
      rw [if_neg hpeek]
      exact h

theorem push_fuel (h : push n o inp = .ok o') (hle : n ≤ m) : push m o inp = .ok o' := by
  obtain ⟨o₁, hdiscard, hrest⟩ := bind_eq_ok h
  rw [push, discard_fuel hdiscard hle]
  exact hrest

theorem run_push_fuel (h : run (push n) o inputs = .ok o')
    (hle : n ≤ m) : run (push m) o inputs = .ok o' := by
  induction inputs generalizing o with
  | nil => exact h
  | cons inp inputs ih =>
    obtain ⟨o₁, hpush, hrest⟩ := run_cons_eq_ok h
    rw [run_cons_ok (push_fuel hpush hle)]
    exact ih hrest

/-- **A push** keeps the account, and leaves no packet in the ring that was due, except
one that has just arrived. -/
theorem Keeps.push (h : Keeps d rs due waiting o) (hsorted : rs.Pairwise fun a b => a.1 ≤ b.1)
    (ht : inp.currentTime < 2 ^ 64 - 1) (hsum : inp.currentTime + d < 2 ^ 64) :
    ∃ o' due' waiting', push delayBufferSize o inp = .ok o' ∧
      Keeps d (rs ++ inp.input.packets.map fun p => (inp.currentTime, p)) due' waiting' o' ∧
      ∀ a ∈ waiting', inp.currentTime < a.1 + d ∨
        a.1 = inp.currentTime ∧ a.2 ∈ inp.input.packets := by
  obtain ⟨due₁, waiting₁, h₁⟩ := (h.drained inp.taken).forward ht
    (min (Delayer.drained inp.taken o).queue.dbSize (Delayer.drained inp.taken o).output.nwritable)
    (Nat.min_le_right _ _)
  obtain ⟨o₂, hdiscard⟩ := discard_isOk ht delayBufferSize h₁.holds h₁.holds.room
  obtain ⟨waiting₂, h₂, hhead⟩ := h₁.discards ht delayBufferSize hdiscard
  obtain ⟨waiting₃, h₃, hnew⟩ := h₂.receive (t := inp.currentTime) inp.input.packets
  refine ⟨_, due₁, waiting₃, ?_, h₃, fun a ha => ?_⟩
  · rw [Delayer.push, hdiscard]
    show Except.ok (Delayer.receive ((inp.currentTime + o₂.delay) % 2 ^ 64) _ o₂) = _
    rw [h₂.delay_eq, Nat.mod_eq_of_lt hsum]
  · rcases hnew a ha with hold | harrived
    · refine .inl ?_
      cases waiting₂ with
      | nil => cases hold
      | cons b rest =>
        have hwaiting := hsorted.sublist ((sublist_append_right ..).trans h₂.order)
        have hb := hhead b rfl
        rcases mem_cons.mp hold with rfl | hrest
        · exact hb
        · have hle := rel_of_pairwise_cons hwaiting hrest
          omega
    · exact .inr harrived

theorem toUint64_eq {x : ℚ} (h : 0 ≤ x) : toUint64 x = ⌊x⌋₊ % 2 ^ 64 := by
  rw [toUint64, if_pos h, ← Int.floor_toNat]
  have hfloor := Int.floor_nonneg.mpr h
  omega

theorem received_snoc (inputs : List DelayerInput) (inp : DelayerInput) :
    received (inputs ++ [inp]) =
      received inputs ++ inp.input.packets.map fun p => (inp.currentTime, p) := by
  simp [received]

section

variable (hclock : inputs.Pairwise fun a b => a.currentTime ≤ b.currentTime)
include hclock

theorem received_pairwise : (received inputs).Pairwise fun a b => a.1 ≤ b.1 := by
  rw [received, pairwise_flatMap]
  refine ⟨fun inp _ => ?_, hclock.imp fun hle x hx y hy => ?_⟩
  · rw [pairwise_map]
    exact pairwise_of_forall fun _ _ => le_refl _
  · obtain ⟨p, -, rfl⟩ := mem_map.mp hx
    obtain ⟨p', -, rfl⟩ := mem_map.mp hy
    exact hle

/-- **A run** of pushes keeps the account; the last push leaves no packet in the ring that
was due, except one that has just arrived. -/
theorem keeps_run
    (hfits : ∀ inp ∈ inputs, inp.currentTime < 2 ^ 64 - 1 ∧ inp.currentTime + d < 2 ^ 64)
    (hinit : Keeps d [] [] [] o) :
    ∃ o' due waiting, run (push delayBufferSize) o inputs = .ok o' ∧
      Keeps d (received inputs) due waiting o' ∧
      ∀ inp ∈ inputs.getLast?, ∀ a ∈ waiting, inp.currentTime < a.1 + d ∨
        a.1 = inp.currentTime ∧ a.2 ∈ inp.input.packets := by
  induction inputs using List.reverseRecOn with
  | nil => exact ⟨o, [], [], rfl, hinit, fun inp h => by cases h⟩
  | append_singleton inputs inp ih =>
    have hbefore := (pairwise_append.mp hclock).1
    obtain ⟨o₁, due₁, waiting₁, hrun, h₁, -⟩ :=
      ih hbefore fun i hi => hfits i (mem_append_left _ hi)
    obtain ⟨ht, hsum⟩ := hfits inp (mem_append_right _ (mem_singleton_self _))
    obtain ⟨o', due', waiting', hpush, h', hdue⟩ := h₁.push (received_pairwise hbefore) ht hsum
    refine ⟨o', due', waiting', ?_, by rwa [received_snoc], ?_⟩
    · rw [run_append hrun, run_cons_ok hpush]
      rfl
    · rintro i hi
      rw [List.getLast?_concat] at hi
      cases hi
      exact hdue

end

theorem Keeps.queued_eq (h : Keeps d rs due waiting o) : o.queued = waiting.map (timed d) :=
  h.holds.contents_eq

/-- **The delay of a run.** Whenever the clock does not go back and the sums of clock and
delay stay below `2 ^ 64`, every push returns, and after it

- the packets handed to the output link are a part of the received ones in the order of
  their arrival, each one at least `delay - correction` after it was received, and the link
  has taken all of them;
- no packet in the ring is due, except that without a delay those of this push are;
- every received packet is sent, in the ring or freed, and only one of these.

The discard loop returns in every state of the ring. -/
theorem delay_emulated (conf : DelayerConf) (slots : Nat → TimedPacket)
    (inputs : List DelayerInput) (hconf : conf.correction ≤ conf.delay)
    (hclock : inputs.Pairwise fun a b => a.currentTime ≤ b.currentTime) (hfits : ∀ inp ∈ inputs,
      inp.currentTime < 2 ^ 64 - 1 ∧ inp.currentTime + conf.difference < 2 ^ 64) :
    (∃ o', (∀ fuel, delayBufferSize ≤ fuel →
        run (push fuel) (new conf slots) inputs = .ok o') ∧
      (∃ due, due.Sublist (received inputs) ∧
        List.Forall₂ (fun a s => a.2 = s.2 ∧ a.1 + conf.difference ≤ s.1) due o'.sent) ∧
      o'.delivered ++ o'.output.packets = o'.sent.map snd ∧
      (∀ inp ∈ inputs.getLast?, ∀ q ∈ o'.queued, inp.currentTime < q.sendingTime ∨
        conf.difference = 0 ∧ q.packet ∈ inp.input.packets) ∧
      (o'.sent.map snd ++ o'.queued.map TimedPacket.packet ++ o'.freed).Perm
        ((received inputs).map snd)) ∧
    ∀ (o : Delayer) (t : Nat), o.queue.read < delayBufferSize →
      o.queue.write < delayBufferSize → t < 2 ^ 64 - 1 →
      ∃ o', Delayer.discard t delayBufferSize o = .ok o' := by
  constructor
  · cases hinputs : inputs with
    | nil =>
      refine ⟨new conf slots, fun _ _ => rfl, ⟨[], .slnil, .nil⟩, rfl, (fun _ h => by cases h), ?_⟩
      exact .nil
    | cons inp rest =>
      rw [← hinputs]
      -- some push has added the delay to the clock, so the delay itself fits
      have hdelay : (new conf slots).delay = conf.difference := by
        have hlt := (hfits inp (hinputs ▸ mem_cons_self ..)).2
        show toUint64 _ = _
        rw [toUint64_eq (sub_nonneg.mpr hconf)]
        exact Nat.mod_eq_of_lt (by unfold DelayerConf.difference at hlt; omega)
      have hinit := keeps_new conf slots
      rw [hdelay] at hinit
      obtain ⟨o', due, waiting, hrun, hkeeps, hdue⟩ := keeps_run hclock hfits hinit
      refine ⟨o', fun fuel hfuel => run_push_fuel hrun hfuel,
        ⟨due, (sublist_append_left ..).trans hkeeps.order, hkeeps.timely⟩, hkeeps.onLink,
        fun i hi q hq => ?_, ?_⟩
      · rw [hkeeps.queued_eq] at hq
        obtain ⟨a, ha, rfl⟩ := mem_map.mp hq
        show i.currentTime < a.1 + conf.difference ∨ _
        rcases hdue i hi a ha with hlater | ⟨hnow, hp⟩
        · exact .inl hlater
        · rcases Nat.eq_zero_or_pos conf.difference with hzero | hpos
          · exact .inr ⟨hzero, hp⟩
          · exact .inl (by omega)
      · rw [hkeeps.queued_eq, map_map]
        exact hkeeps.account
  · intro o t hread hwrite ht
    have hholds := Ring.holds_contents hread hwrite
    exact discard_isOk ht delayBufferSize hholds hholds.room

/-- An empty packet arrives at 0, and the next push is 20 ms later. -/
def sampleInputs : List DelayerInput :=
  [.arriving 0 [.fromPointer 0 []], .arriving 20000000 []]

theorem delay_emulated_sample :
    ∃ o', run (push delayBufferSize) (cleared .sample) sampleInputs = .ok o' ∧
      o'.sent.map fst = [20000000] ∧
      (o'.sent.map snd ++ o'.queued.map TimedPacket.packet ++ o'.freed).Perm
        ((received sampleInputs).map snd) := by
  obtain ⟨⟨o', hrun, -, -, -, haccount⟩, -⟩ :=
    delay_emulated .sample (fun _ => ⟨.fromPointer 0 [], 0⟩) sampleInputs
      (by decide +kernel) (by decide +kernel) (by decide +kernel)
  have hreturns := hrun delayBufferSize (Nat.le_refl _)
  have hsent : (run (push delayBufferSize) (cleared .sample) sampleInputs).toOption.any
      (fun o => o.sent.map fst = [20000000]) = true := by decide +kernel
  rw [cleared, hreturns] at hsent
  exact ⟨o', hreturns, of_decide_eq_true hsent, haccount⟩

/-- A loop that waits for an answer later than `UINT64_MAX` uses up any fuel. -/
theorem discard_last_instant (fuel : Nat) (o : Delayer)
    (hslots : ∀ k, (o.queue.slots k).sendingTime < 2 ^ 64) :
    Delayer.discard (2 ^ 64 - 1) fuel o = .error .outOfFuel := by
  induction fuel generalizing o with
  | zero => rfl
  | succ fuel ih =>
    have hpeek : o.queue.dbPeekTime ≤ 2 ^ 64 - 1 := by
      rw [dbPeekTime]
      split
      · exact Nat.le_refl _
      · exact Nat.le_sub_one_of_lt (hslots _)
    rw [Delayer.discard, if_pos hpeek]
    exact ih _ hslots

/-- A packet received at 0 leaves after 20 ms and not after the configured 30 ms. Where
delay and correction are the same, a packet waits in the ring at its sending time. A sum
that wraps makes a packet leave at once, and at the last instant of the clock a push never
returns. -/
theorem delay_exceptions :
    (∃ o', run (push delayBufferSize) (cleared .sample) sampleInputs = .ok o' ∧
      o'.sent.map fst = [20000000] ∧ 20000000 < DelayerConf.sample.delay) ∧
    (∃ o', run (push delayBufferSize) (cleared ⟨10000000, 10000000⟩)
        [.arriving 5 [.fromPointer 0 []]] = .ok o' ∧
      o'.queued.map TimedPacket.sendingTime = [5]) ∧
    (∃ o', run (push delayBufferSize) (cleared .sample)
        [.arriving 18446744073709551614 [.fromPointer 0 []],
          .arriving 18446744073709551614 []] = .ok o' ∧
      o'.sent.map fst = [18446744073709551614]) ∧
    ∀ fuel, run (push fuel) (cleared .sample)
      [.arriving 18446744073709551615 []] = .error .outOfFuel := by
  refine ⟨?_, ?_, ?_, fun fuel => ?_⟩
  · exact exists_ok_of_any
      (fun o : Delayer => o.sent.map fst = [20000000] ∧ 20000000 < DelayerConf.sample.delay)
      (by decide +kernel) fun _ _ hsent => hsent
  · exact exists_ok_of_any (fun o : Delayer => o.queued.map TimedPacket.sendingTime = [5])
      (by decide +kernel) fun _ _ hqueued => hqueued
  · exact exists_ok_of_any (fun o : Delayer => o.sent.map fst = [18446744073709551614])
      (by decide +kernel) fun _ _ hsent => hsent
  · have hlate : push fuel (cleared .sample) (.arriving 18446744073709551615 []) =
        .error .outOfFuel := by
      show (Delayer.discard (2 ^ 64 - 1) fuel _ >>= _) = _
      rw [discard_last_instant]
      · rfl
      · exact fun _ => Nat.two_pow_pos 64
    simp only [run, hlate]

end Delayer

end Snabb
