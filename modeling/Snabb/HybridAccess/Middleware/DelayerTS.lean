import Snabb.HybridAccess.Middleware.Accounting
import Snabb.HybridAccess.Middleware.Delayer

/-!
# The delayer that goes by time stamps (`middleware/delayer_ts.lua`, `base/timestamp.lua`)

`DelayerTS` is the delayer with another rule for the sending time: a packet that was stamped by
`RateLimiterTS` is to leave a delay after its stamp, another one a delay after its arrival. What
stands behind the payload is taken for a stamp if it starts with the marker.

- `hand_over_iff`: when a stamp is read exactly where one was written.
- `released_on_time_iff`: when a run leaves no packet in the queue that is due. The queue is first in,
  first out, so a packet that is due waits behind one that is not.
-/

namespace Snabb

open Foundation List Packet

namespace RateLimiterTS

/-- `ts.get_timestamp`, which does not ask whether there is room for a stamp behind the payload. -/
def getTimestamp (p : Packet) : Option Nat :=
  let bytes := p.window p.length pktTimestampLen
  if bytes.take 1 = [timestampMarker] then some (leNat (bytes.drop 1)) else none

/-- The packet is stamped by the rate limiter. -/
def Stamps (o : RateLimiter) (p : Packet) : Prop :=
  o.timestamp = true ∧ p.length + pktTimestampLen ≤ maxPayload

instance (o : RateLimiter) (p : Packet) : Decidable (Stamps o p) :=
  inferInstanceAs (Decidable (_ ∧ _))

end RateLimiterTS

open RateLimiterTS

/-- The state of a `DelayerTS`, with the clock of the last push. -/
structure DelayerTS extends Delayer where
  timestamp : Bool
  now : Nat

namespace DelayerTS

open Delayer DelayBuffer

/-- `DelayerTS:new`; `slots` is what the allocated memory holds. -/
def new (conf : DelayerConf) (timestamp : Bool) (slots : Nat → Packet × UInt64) : DelayerTS where
  toDelayer := .new conf fun k => ⟨(slots k).1, (slots k).2.toNat⟩
  timestamp := timestamp
  now := 0

/-- `sending_time` of a packet. -/
def sendingTime (o : DelayerTS) (currentTime : Nat) (p : Packet) : Nat :=
  match if o.timestamp then getTimestamp p else none with
  | some queueTime => (queueTime + o.delay) % 2 ^ 64
  | none => (currentTime + o.delay) % 2 ^ 64

/-- The last two loops of `push`. -/
def receive (currentTime : Nat) : List Packet → DelayerTS → DelayerTS
  | [], o => o
  | p :: rest, o =>
    match o.queue.dbEnqueue p (o.sendingTime currentTime p) with
    | some queue => receive currentTime rest { o with queue := queue }
    | none => { o with toDelayer := (p :: rest).foldl (fun o p => o.free p) o.toDelayer }

def push (fuel : Nat) (o : DelayerTS) (inp : DelayerInput) : Except OutOfFuel DelayerTS := do
  let d := o.toDelayer.drained inp.taken
  let maxPacketsToForward := min d.queue.dbSize d.output.nwritable
  let d := Delayer.forward inp.currentTime maxPacketsToForward d
  let d ← Delayer.discard inp.currentTime fuel d
  return receive inp.currentTime inp.input.packets
    { o with toDelayer := d, now := inp.currentTime }

end DelayerTS

/-! ## Stamps -/

namespace RateLimiterTS

variable {o : RateLimiter} {inp : RateLimiterInput} {p : Packet}

theorem stamp_of_stamps (h : Stamps o p) : stamp o inp p = appendTimestamp p inp.timeNs := by
  unfold stamp
  rw [if_pos]
  rw [h.1]
  exact decide_eq_true h.2

theorem stamp_of_not_stamps (h : ¬ Stamps o p) : stamp o inp p = p := by
  unfold stamp
  rw [if_neg]
  intro hboth
  rw [Bool.and_eq_true, decide_eq_true_eq] at hboth
  exact h hboth

/-- **A stamp is read back.** -/
theorem getTimestamp_appendTimestamp (p : Packet) (t : Nat) :
    getTimestamp (appendTimestamp p t) = some (t % 2 ^ 64) := by
  have hlength : pktTimestampLen = (timestampMarker :: leBytes 8 t).length := by
    rfl
  unfold getTimestamp appendTimestamp
  rw [write_length, window_write_self _ _ _ hlength]
  simp only [drop_succ_cons, drop_zero, leNat_leBytes]
  rfl

/-- A packet without a stamp has none if it does not look as if it had one. -/
theorem getTimestamp_eq_none_iff (p : Packet) :
    getTimestamp p = none ↔ p.mem (p.data + p.length) ≠ timestampMarker := by
  have hfirst : (p.window p.length pktTimestampLen).take 1 = [p.mem (p.data + p.length)] := by
    rfl
  unfold getTimestamp
  dsimp only
  rw [hfirst]
  constructor
  · intro h heq
    rw [heq] at h
    cases h
  · intro hne
    rw [if_neg]
    exact fun heq => hne (singleton_inj.mp heq)

/-- The delayer takes a packet from the rate limiter for what the limiter made of it: the time stamp
is there if the limiter wrote it, and the packet leaves a delay after that, else a delay after its
arrival. -/
structure HandedOver (o : RateLimiter) (inp : RateLimiterInput) (p : Packet) : Prop where
  timestamp : getTimestamp (stamp o inp p) = if Stamps o p then some (inp.timeNs % 2 ^ 64) else none
  scheduled : ∀ (d : DelayerTS) (now : Nat) (qs : List TimedPacket), d.timestamp = true →
    d.queue.Holds qs → qs.length + 1 ≠ delayBufferSize →
      (d.receive now [stamp o inp p]).queue.Holds (qs ++
        [⟨stamp o inp p, ((if Stamps o p then inp.timeNs else now) + d.delay) % 2 ^ 64⟩])

end RateLimiterTS

namespace DelayerTS

open Delayer DelayBuffer

variable {o o' : DelayerTS} {qs : List TimedPacket} {t : Nat} {p : Packet} {ps : List Packet}

/-- **Packets are received**: as many as there is room for are stored. -/
theorem receive_queue (h : o.queue.Holds qs) (ps : List Packet) :
    (o.receive t ps).queue.Holds (qs ++
      (ps.take (delayBufferSize - 1 - qs.length)).map fun p => ⟨p, o.sendingTime t p⟩) := by
  induction ps generalizing o qs with
  | nil => simpa [receive] using h
  | cons p ps ih =>
    unfold receive
    by_cases hfull : qs.length + 1 = delayBufferSize
    · rw [dbEnqueue_full h hfull]
      have hnone : delayBufferSize - 1 - qs.length = 0 := by omega
      have hfreed (ps : List Packet) (d : Delayer) :
          (ps.foldl (fun o p => o.free p) d).queue = d.queue := by
        induction ps generalizing d with
        | nil => rfl
        | cons p ps ih => exact ih (d.free p)
      rw [hnone, take_zero, map_nil, append_nil]
      rwa [hfreed]
    · obtain ⟨queue, henqueue, hqueue⟩ := dbEnqueue_room h hfull p (o.sendingTime t p)
      rw [henqueue]
      have hroom := h.room
      have hlength : delayBufferSize - 1 - qs.length =
          delayBufferSize - 1 - (qs ++ [(⟨p, o.sendingTime t p⟩ : TimedPacket)]).length + 1 := by
        rw [List.length_append, length_singleton]
        omega
      have hrest := ih (o := { o with queue := queue }) hqueue
      rw [append_assoc] at hrest
      rw [hlength]
      exact hrest

theorem receive_now (ps : List Packet) : (o.receive t ps).now = o.now := by
  induction ps generalizing o with
  | nil => rfl
  | cons p ps ih =>
    unfold receive
    split
    · exact ih
    · rfl

end DelayerTS

namespace RateLimiterTS

/-- **The time stamps are handed over** if the limiter stamps the packet, or what stands behind its
payload does not start with the marker. -/
theorem hand_over_iff (o : RateLimiter) (inp : RateLimiterInput) (p : Packet) :
    HandedOver o inp p ↔
      p.mem (p.data + p.length) ≠ timestampMarker ∨ Stamps o p := by
  have htime (htimestamp : getTimestamp (stamp o inp p) =
      if Stamps o p then some (inp.timeNs % 2 ^ 64) else none) : HandedOver o inp p := by
    refine ⟨htimestamp, fun d now qs hd hqs hroom => ?_⟩
    have hreceive := DelayerTS.receive_queue (t := now) hqs [stamp o inp p]
    have hlt := hqs.room
    have hone : delayBufferSize - 1 - qs.length = delayBufferSize - 2 - qs.length + 1 := by omega
    rw [hone, take_succ_cons, take_nil, map_singleton] at hreceive
    have hsending : d.sendingTime now (stamp o inp p) =
        ((if Stamps o p then inp.timeNs else now) + d.delay) % 2 ^ 64 := by
      unfold DelayerTS.sendingTime
      rw [htimestamp]
      split_ifs
      · exact Nat.mod_add_mod _ _ _
      · rfl
    rwa [hsending] at hreceive
  by_cases hstamps : Stamps o p
  · refine iff_of_true (htime ?_) (.inr hstamps)
    rw [stamp_of_stamps hstamps, getTimestamp_appendTimestamp, if_pos hstamps]
  · rw [or_iff_left hstamps, ← getTimestamp_eq_none_iff]
    constructor
    · intro h
      have hnone := h.timestamp
      rwa [stamp_of_not_stamps hstamps, if_neg hstamps] at hnone
    · intro hnone
      refine htime ?_
      rw [stamp_of_not_stamps hstamps, if_neg hstamps]
      exact hnone

/-- A packet that leaves no room for a stamp, in memory that is full of markers. -/
def staleFrame : Packet :=
  { Packet.fromPointer 0 [] with
    length := maxPayload - 5
    mem := fun _ => timestampMarker
    length_lt := by decide }

/-- What happens to stand behind the payload is taken for a time stamp. -/
theorem stale_stamp_is_read :
    ∃ o, RateLimiter.new .sample = .ok o ∧ ¬ HandedOver o (.finding 0 0 []) staleFrame := by
  refine exists_ok_of_any (fun o : RateLimiter => o.timestamp)
    (by decide +kernel) fun o hnew _ => ?_
  have hnot : ¬ Stamps o staleFrame := fun h => absurd h.2 (by decide)
  intro h
  have hnone := h.timestamp
  rw [stamp_of_not_stamps hnot, if_neg hnot, getTimestamp_eq_none_iff] at hnone
  exact hnone rfl

end RateLimiterTS

namespace DelayerTS

/-! ## Packets that are due -/

/-- The sending time has come. -/
def Due (t : Nat) (q : TimedPacket) : Bool := q.sendingTime ≤ t

open Delayer DelayBuffer

variable {o o' : DelayerTS} {d d' : Delayer} {n fuel t : Nat} {q : TimedPacket}
  {qs : List TimedPacket}

theorem dropWhile_due {rest : List TimedPacket} (h : q.sendingTime ≤ t) :
    (q :: rest).dropWhile (Due t) = rest.dropWhile (Due t) := by
  rw [dropWhile_cons, if_pos]
  exact decide_eq_true h

theorem forward_queue (ht : t < 2 ^ 64 - 1) (n : Nat) (h : d.queue.Holds qs) :
    ∃ qs', (Delayer.forward t n d).queue.Holds qs' ∧
      qs'.dropWhile (Due t) = qs.dropWhile (Due t) ∧ (Delayer.forward t n d).delay = d.delay := by
  induction n generalizing d qs with
  | zero => exact ⟨qs, h, rfl, rfl⟩
  | succ n ih =>
    rw [Delayer.forward]
    split
    · next hpeek =>
      cases qs with
      | nil =>
        rw [dbPeekTime_nil h] at hpeek
        omega
      | cons q qs =>
        rw [dbPeekTime_cons h] at hpeek
        obtain ⟨queue, hdequeue, hqueue⟩ := dbDequeue_cons h
        simp only [hdequeue]
        rw [dropWhile_due hpeek]
        exact ih hqueue
    · exact ⟨qs, h, rfl, rfl⟩

/-- **The second loop** takes all of them up to the first that is not. -/
theorem discard_queue (ht : t < 2 ^ 64 - 1) (fuel : Nat) (h : d.queue.Holds qs)
    (hfuel : qs.length < fuel) :
    ∃ d', Delayer.discard t fuel d = .ok d' ∧ d'.queue.Holds (qs.dropWhile (Due t)) ∧
      d'.delay = d.delay := by
  induction fuel generalizing d qs with
  | zero => omega
  | succ fuel ih =>
    rw [Delayer.discard]
    cases qs with
    | nil =>
      rw [dbPeekTime_nil h, if_neg (by omega)]
      exact ⟨d, rfl, h, rfl⟩
    | cons q qs =>
      rw [dbPeekTime_cons h]
      by_cases hdue : q.sendingTime ≤ t
      · obtain ⟨queue, hdequeue, hqueue⟩ := dbDequeue_cons h
        rw [if_pos hdue, dropWhile_due hdue, hdequeue]
        exact ih hqueue (Nat.lt_of_succ_lt_succ hfuel)
      · have hfirst : (q :: qs).dropWhile (Due t) = q :: qs := by
          rw [dropWhile_cons, if_neg]
          exact fun h => hdue (of_decide_eq_true h)
        rw [if_neg hdue, hfirst]
        exact ⟨d, rfl, h, rfl⟩

/-! ## On time -/

/-- No packet in the queue was due at the last push. -/
def OnTime (o : DelayerTS) : Prop := ∀ q ∈ o.queued, o.now < q.sendingTime

/-- A push in which no packet that is due stands behind one that is not, and no packet that is
stored is due at once. The clock is not at its last instant. -/
structure Timely (o : DelayerTS) (inp : DelayerInput) : Prop where
  clock : inp.currentTime < 2 ^ 64 - 1
  order : ∀ q ∈ o.queued.dropWhile (Due inp.currentTime), inp.currentTime < q.sendingTime
  arrivals : ∀ p ∈ inp.input.packets.take
    (delayBufferSize - 1 - (o.queued.dropWhile (Due inp.currentTime)).length),
      inp.currentTime < o.sendingTime inp.currentTime p

/-- The cursors are in the ring, and the times in memory have 64 bits. -/
structure Sound (o : DelayerTS) : Prop where
  holds : o.queue.Holds o.queued
  slots : ∀ k, (o.queue.slots k).sendingTime < 2 ^ 64

theorem sendingTime_lt (o : DelayerTS) (t : Nat) (p : Packet) : o.sendingTime t p < 2 ^ 64 := by
  unfold sendingTime
  split <;> exact Nat.mod_lt _ (Nat.two_pow_pos 64)

theorem sound_new (conf : DelayerConf) (timestamp : Bool) (slots : Nat → Packet × UInt64) :
    Sound (new conf timestamp slots) ∧ OnTime (new conf timestamp slots) := by
  have hholds : (new conf timestamp slots).queue.Holds [] := Ring.Holds.new _ (by decide)
  have hnone : (new conf timestamp slots).queued = [] := hholds.contents_eq
  refine ⟨⟨by rwa [hnone], fun k => (slots k).2.toNat_lt⟩, fun q hq => ?_⟩
  exact absurd hq not_mem_nil

theorem forward_slots (n : Nat) (d : Delayer) :
    (Delayer.forward t n d).queue.slots = d.queue.slots := by
  induction n generalizing d with
  | zero => rfl
  | succ n ih =>
    rw [Delayer.forward]
    split
    · exact ih _
    · rfl

theorem discard_slots (h : Delayer.discard t fuel d = .ok d') : d'.queue.slots = d.queue.slots := by
  induction fuel generalizing d with
  | zero => cases h
  | succ fuel ih =>
    rw [Delayer.discard] at h
    split at h
    · have hrest := ih h
      exact hrest
    · cases h
      rfl

theorem receive_slots (h : ∀ k, (o.queue.slots k).sendingTime < 2 ^ 64) (ps : List Packet) (k : Nat) :
    ((o.receive t ps).queue.slots k).sendingTime < 2 ^ 64 := by
  induction ps generalizing o with
  | nil => exact h k
  | cons p ps ih =>
    unfold receive
    by_cases hfull : o.queue.bufferIsFull
    · have hfreed (ps : List Packet) (d : Delayer) :
          (ps.foldl (fun o p => o.free p) d).queue = d.queue := by
        induction ps generalizing d with
        | nil => rfl
        | cons p ps ih => exact ih (d.free p)
      rw [dbEnqueue, if_pos hfull]
      rw [hfreed]
      exact h k
    · rw [dbEnqueue, if_neg hfull]
      refine ih fun k => ?_
      by_cases hk : k = o.queue.write
      · simp only [hk, Function.update_self]
        exact sendingTime_lt o t p
      · simp only [Function.update_of_ne hk]
        exact h k

variable {inp : DelayerInput}

/-- **A push** takes the packets that are due from the head and stores those that arrive. -/
theorem push_spec (h : Sound o) (ht : inp.currentTime < 2 ^ 64 - 1) (extra : Nat) :
    ∃ o', push (delayBufferSize + extra) o inp = .ok o' ∧ Sound o' ∧ o'.now = inp.currentTime ∧
      o'.queued = o.queued.dropWhile (Due inp.currentTime) ++ (inp.input.packets.take
        (delayBufferSize - 1 - (o.queued.dropWhile (Due inp.currentTime)).length)).map
          fun p => ⟨p, o.sendingTime inp.currentTime p⟩ := by
  have hdrained : (o.toDelayer.drained inp.taken).queue.Holds o.queued := h.holds
  obtain ⟨qs, hforward, hqs, hdelay⟩ := forward_queue ht
    (min (o.toDelayer.drained inp.taken).queue.dbSize
      (o.toDelayer.drained inp.taken).output.nwritable) hdrained
  obtain ⟨d', hdiscard, hd', hdelay'⟩ := discard_queue ht (delayBufferSize + extra) hforward
    (Nat.lt_add_right extra hforward.room)
  rw [hqs] at hd'
  have hslots : d'.queue.slots = o.queue.slots :=
    (discard_slots hdiscard).trans (forward_slots _ _)
  have hsending p : ({ o with toDelayer := d', now := inp.currentTime } :
      DelayerTS).sendingTime inp.currentTime p = o.sendingTime inp.currentTime p := by
    have hsame : d'.delay = o.delay := hdelay'.trans hdelay
    simp only [sendingTime, hsame]
  have hreceive := receive_queue (t := inp.currentTime)
    (o := { o with toDelayer := d', now := inp.currentTime }) hd' inp.input.packets
  simp only [hsending] at hreceive
  refine ⟨_, ?_, ⟨?_, ?_⟩, receive_now _, hreceive.contents_eq⟩
  · rw [push, hdiscard]
    rfl
  · rw [queued, hreceive.contents_eq]
    exact hreceive
  · refine receive_slots ?_ _
    intro k
    rw [hslots]
    exact h.slots k

/-- At its last instant the clock is never later than what is said of an empty queue. -/
theorem push_last_instant (h : Sound o)
    (ht : ¬ inp.currentTime < 2 ^ 64 - 1) (fuel : Nat) : push fuel o inp = .error .outOfFuel := by
  have hfits := inp.fits
  have hlast : inp.currentTime = 2 ^ 64 - 1 := by omega
  have hdiscard := discard_last_instant fuel (Delayer.forward (2 ^ 64 - 1)
    (min (o.toDelayer.drained inp.taken).queue.dbSize
      (o.toDelayer.drained inp.taken).output.nwritable) (o.toDelayer.drained inp.taken)) (by
    rw [forward_slots]
    exact h.slots)
  rw [push, hlast, hdiscard]
  rfl

/-- **When a push leaves no packet in the queue that is due.** -/
theorem timely_iff (h : Sound o) (extra : Nat) :
    Timely o inp ↔ ∃ o', push (delayBufferSize + extra) o inp = .ok o' ∧ OnTime o' := by
  by_cases ht : inp.currentTime < 2 ^ 64 - 1
  · obtain ⟨o', hpush, -, hnow, hqueued⟩ := push_spec h ht extra
    have hexact : Timely o inp ↔ OnTime o' := by
      unfold OnTime
      rw [hnow, hqueued, forall_mem_append, forall_mem_map]
      exact ⟨fun h => ⟨h.order, h.arrivals⟩, fun h => ⟨ht, h.1, h.2⟩⟩
    rw [hexact]
    constructor
    · exact fun hontime => ⟨o', hpush, hontime⟩
    · rintro ⟨o'', hpush', hontime⟩
      rw [hpush] at hpush'
      cases hpush'
      exact hontime
  · refine iff_of_false (fun h => ht h.clock) ?_
    rintro ⟨o', hpush, -⟩
    rw [push_last_instant h ht] at hpush
    cases hpush

theorem push_sound (h : Sound o) (extra : Nat)
    (hpush : push (delayBufferSize + extra) o inp = .ok o') : Sound o' := by
  by_cases ht : inp.currentTime < 2 ^ 64 - 1
  · obtain ⟨o'', hpush', hsound, -⟩ := push_spec h ht extra
    rw [hpush] at hpush'
    cases hpush'
    exact hsound
  · rw [push_last_instant h ht] at hpush
    cases hpush

/-- **Packets are released on time** in a run if all its pushes are timely: every push returns, and
behind it no packet in the queue is due. -/
theorem released_on_time_iff (conf : DelayerConf) (timestamp : Bool) (slots : Nat → Packet × UInt64)
    (inputs : List DelayerInput) (extra : Nat) :
    ((∃ o', run (push (delayBufferSize + extra)) (new conf timestamp slots) inputs = .ok o') ∧
      ∀ k o', run (push (delayBufferSize + extra)) (new conf timestamp slots) (inputs.take k) =
        .ok o' → OnTime o') ↔
      Along (push (delayBufferSize + extra)) Timely (new conf timestamp slots) inputs :=
  returns_good_iff (I := Sound) (A := fun _ _ => True) (fun _ _ _ h _ => push_sound h extra)
    (fun _ _ h _ _ => timely_iff h extra) (sound_new conf timestamp slots).1
    (sound_new conf timestamp slots).2 along_true

/-- An empty packet that was stamped. -/
def stampedFrame (base t : Nat) : Packet := appendTimestamp (.fromPointer base []) t

/-- A packet with an earlier stamp arrives behind one with a later stamp. -/
def interleaved : List DelayerInput :=
  [.arriving 100 [stampedFrame 0 100, stampedFrame 1 85], .arriving 110 []]

/-- The packet stamped at 85 is due at 105 and waits at 110 behind the one that is due at 120. -/
theorem overdue_packet_waits :
    ∃ o', run (push delayBufferSize) (new ⟨20, 0⟩ true fun _ => (.fromPointer 0 [], 0))
      interleaved = .ok o' ∧ ¬ OnTime o' := by
  refine exists_ok_of_any (fun o : DelayerTS => o.queued.any fun q => q.sendingTime ≤ o.now)
    (by decide +kernel) fun o' hrun hlate => ?_
  obtain ⟨q, hq, hle⟩ := any_eq_true.mp hlate
  exact fun hontime => Nat.not_le_of_lt (hontime q hq) (of_decide_eq_true hle)

end DelayerTS

end Snabb
