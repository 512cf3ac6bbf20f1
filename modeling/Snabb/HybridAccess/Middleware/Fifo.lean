import Snabb.HybridAccess.Middleware.RateLimiter

/-!
# Order of the packets of a rate limiter

The buffer is first in, first out. But an arriving packet that the bucket can pay
is sent at once, also when an earlier one is still in the buffer because the
bucket could not pay that one: a short packet overtakes a long one.

The packets sent and those in the buffer, in this order, are the *stream* of a rate
limiter. Every part of a push extends the stream by packets of the input link in
their order, except for a packet that is sent from the link while the buffer is not
empty. `FifoSafe` excludes exactly these, in terms of the level of the bucket and
the costs of the packets when the push starts.
-/

namespace Snabb

open List

namespace RateLimiter

open Foundation

variable {stamp : Packet → Packet} {o o' : RateLimiter} {inp : RateLimiterInput} {now : ℚ}

/-! ## The stream -/

/-- What identifies a packet: its allocation and its payload. -/
def key (p : Packet) : Nat × List UInt8 := (p.base, p.bytes)

/-- The packets in the buffer. -/
def pending (o : RateLimiter) : List Packet := o.buffer.getD []

/-- The packets sent, then the packets in the buffer. -/
def stream (o : RateLimiter) : List (Nat × List UInt8) :=
  (o.sent.map Prod.snd ++ o.pending).map key

theorem stream_transmit (p : Packet) (h : o.pending = []) :
    (transmit now p o).stream = o.stream ++ [key p] := by
  have h' : (transmit now p o).pending = [] := h
  rw [stream, h', stream, h]
  simp [transmit]

theorem sendFromBuffer_stream (n : Nat) (o : RateLimiter) :
    (sendFromBuffer now n o).stream = o.stream := by
  induction n generalizing o with
  | zero => rfl
  | succ n ih =>
    rw [sendFromBuffer]
    split
    · rename_i p rest hbuf
      dsimp only
      split
      · rw [ih]
        simp [stream, pending, transmit, hbuf]
      · exact ih o
    · rfl

variable {p : Packet}

/-- Buffering or freeing a packet extends the stream by it at most. -/
theorem bufferOrFree_stream (h : bufferOrFree p o = .ok o') :
    o'.stream.Sublist (o.stream ++ [key p]) := by
  simp only [bufferOrFree] at h
  split at h
  · simp only [enqueue] at h
    split at h
    · cases h
    · rename_i buf hbuf
      cases h
      simp only [stream, pending, hbuf]
      split
      · exact sublist_append_left _ _
      · simp
  · cases h
    exact sublist_append_left _ _

theorem storeInBuffer_stream {pkts : List Packet} (h : storeInBuffer stamp pkts o = .ok o') :
    o'.stream.Sublist (o.stream ++ pkts.map fun p => key (stamp p)) := by
  induction pkts generalizing o with
  | nil =>
    cases h
    simp
  | cons p rest ih =>
    obtain ⟨o₁, hb, hrest⟩ := bind_eq_ok h
    have hstep := (bufferOrFree_stream hb).append_right (rest.map fun p => key (stamp p))
    rw [append_assoc] at hstep
    exact (ih hrest).trans hstep

theorem dropIncomingPackets_stream (pkts : List Packet) (o : RateLimiter) :
    (dropIncomingPackets pkts o).stream = o.stream := by
  induction pkts generalizing o with
  | nil => rfl
  | cons p rest ih =>
    exact ih (o.free p)

/-! ## Pushes without overtaking -/

/-- No arrival is sent while a packet is buffered. `blocked` says that one is,
`room` how many arrivals are looked at; the levels are those of the bucket and the
buffer, the list the costs of the arrivals. -/
def directSafe : Bool → Nat → ℚ → ℚ → List ℚ → Bool
  | blocked, room + 1, level, bufferLevel, a :: rest =>
    if a ≤ level then
      !blocked && directSafe blocked room (level - a) bufferLevel rest
    else if a ≤ bufferLevel then
      directSafe true room level (bufferLevel - a) rest
    else
      directSafe blocked room level bufferLevel rest
  | _, _, _, _, _ => true

/-- The same from the start of a push, with the costs of the buffered packets. They
are paid first, as long as the output link has room. -/
def orderedCosts : Nat → ℚ → ℚ → List ℚ → List ℚ → Bool
  | room, level, bufferLevel, [], arrivals => directSafe false room level bufferLevel arrivals
  | 0, _, _, _ :: _, _ => true
  | room + 1, level, bufferLevel, b :: rest, arrivals =>
    if b ≤ level then orderedCosts room (level - b) (bufferLevel + b) rest arrivals
    else directSafe true (room + 1) level bufferLevel arrivals

/-- A push in which no packet overtakes another one. -/
def FifoSafe (o : RateLimiter) (inp : RateLimiterInput) : Prop :=
  orderedCosts (o.output.drain inp.taken).nwritable (o.refill inp.now).bucketContingent
    o.bufferContingent (o.pending.map o.pktLength) (inp.input.packets.map o.pktLength) = true

instance (o : RateLimiter) (inp : RateLimiterInput) : Decidable (FifoSafe o inp) :=
  inferInstanceAs (Decidable (_ = true))

theorem directSafe_zero (blocked : Bool) (level bufferLevel : ℚ) (arrivals : List ℚ) :
    directSafe blocked 0 level bufferLevel arrivals = true := by
  simp [directSafe]

variable {rest : List Packet}

/-- A packet that the bucket cannot pay stays at the head of the buffer. -/
theorem sendFromBuffer_blocked (hbuf : o.buffer = some (p :: rest))
    (hcost : ¬ o.pktLength p ≤ o.bucketContingent) (n : Nat) : sendFromBuffer now n o = o := by
  induction n with
  | zero => rfl
  | succ n ih =>
    rw [sendFromBuffer, hbuf]
    dsimp only
    rw [if_neg hcost]
    exact ih

variable {n : Nat}

theorem nwritable_transmit {r : Link} (h : r.nwritable = n + 1) (p : Packet) :
    (r.transmit p).nwritable = n := by
  have hroom : ¬ r.full := by
    intro hfull
    rw [Link.nwritable, show r.nreadable = linkMaxPackets from hfull] at h
    cases h
  rw [Link.nwritable, Link.nreadable] at h
  rw [Link.nwritable, Link.nreadable, Link.packets_transmit hroom, List.length_append,
    length_singleton]
  omega

/-- Whether a packet is buffered. -/
def blocked (o : RateLimiter) : Bool := !o.pending.isEmpty

theorem sendFromBuffer_safe (now : ℚ) (arrivals : List ℚ) (n : Nat) :
    ∀ o, n = min o.pending.length o.output.nwritable →
      orderedCosts o.output.nwritable o.bucketContingent o.bufferContingent
        (o.pending.map o.pktLength) arrivals = true →
      directSafe (sendFromBuffer now n o).blocked (sendFromBuffer now n o).output.nwritable
        (sendFromBuffer now n o).bucketContingent (sendFromBuffer now n o).bufferContingent
        arrivals = true := by
  induction n with
  | zero =>
    intro o hn hsafe
    show directSafe o.blocked o.output.nwritable o.bucketContingent o.bufferContingent arrivals = true
    -- the buffer is empty, or the output link is full
    rcases Nat.min_eq_zero_iff.mp hn.symm with hnil | hzero
    · have hnil' : o.pending = [] := eq_nil_of_length_eq_zero hnil
      rw [hnil', orderedCosts.eq_def] at hsafe
      rw [blocked, hnil']
      exact hsafe
    · rw [hzero]
      exact directSafe_zero _ _ _ _
  | succ n ih =>
    intro o hn hsafe
    obtain ⟨p, rest, hpending⟩ : ∃ p rest, o.pending = p :: rest := by
      cases hp : o.pending with
      | nil => simp [hp] at hn
      | cons p rest => exact ⟨p, rest, rfl⟩
    have hbuf : o.buffer = some (p :: rest) := by
      cases hb : o.buffer with
      | none => simp [pending, hb] at hpending
      | some buf =>
        rw [pending, hb] at hpending
        rw [← hpending]
        rfl
    obtain ⟨room, hroom⟩ : ∃ room, o.output.nwritable = room + 1 :=
      Nat.exists_eq_succ_of_ne_zero (by omega)
    rw [hpending, hroom, map_cons, orderedCosts] at hsafe
    by_cases hfit : o.pktLength p ≤ o.bucketContingent
    · rw [if_pos hfit] at hsafe
      rw [sendFromBuffer, hbuf]
      dsimp only
      rw [if_pos hfit]
      have hwritable := nwritable_transmit hroom p
      refine ih _ ?_ ?_
      · show n = min rest.length (o.output.transmit p).nwritable
        rw [hpending, length_cons] at hn
        omega
      · show orderedCosts (o.output.transmit p).nwritable _ _ (rest.map o.pktLength) arrivals = true
        rw [hwritable]
        exact hsafe
    · -- from here on the loop looks at the same packet until it ends
      rw [if_neg hfit, ← hroom] at hsafe
      rw [sendFromBuffer_blocked hbuf hfit, blocked, hpending]
      exact hsafe

theorem sendFromBuffer_pktLength (n : Nat) (o : RateLimiter) :
    (sendFromBuffer now n o).pktLength = o.pktLength := by
  induction n generalizing o with
  | zero => rfl
  | succ n ih =>
    rw [sendFromBuffer]
    split
    · dsimp only
      split
      · rw [ih]
        rfl
      · exact ih o
    · rfl

theorem directSafe_mono {arrivals : List ℚ} :
    ∀ {m : Nat} {b : Bool} {level bufferLevel : ℚ},
      directSafe b n level bufferLevel arrivals = true → m ≤ n →
      directSafe b m level bufferLevel arrivals = true := by
  induction arrivals generalizing n with
  | nil =>
    intro m b level bufferLevel _ _
    cases m <;> simp [directSafe]
  | cons a rest ih =>
    intro m b level bufferLevel h hm
    cases m with
    | zero => exact directSafe_zero _ _ _ _
    | succ m =>
      obtain ⟨n, rfl⟩ : ∃ k, n = k + 1 := Nat.exists_eq_succ_of_ne_zero (by omega)
      rw [directSafe] at h ⊢
      split at h
      · rename_i hfit
        rw [if_pos hfit]
        rw [Bool.and_eq_true] at h ⊢
        exact ⟨h.1, ih h.2 (by omega)⟩
      · rename_i hfit
        rw [if_neg hfit]
        split at h
        · rename_i hstore
          rw [if_pos hstore]
          exact ih h (by omega)
        · rename_i hstore
          rw [if_neg hstore]
          exact ih h (by omega)

/-- What buffering or freeing a packet does to the quantities of the loop. -/
theorem bufferOrFree_spec (h : bufferOrFree p o = .ok o') :
    o'.pktLength = o.pktLength ∧ o'.bucketContingent = o.bucketContingent ∧
      (if o.pktLength p ≤ o.bufferContingent then
        o'.blocked = true ∧ o'.bufferContingent = o.bufferContingent - o.pktLength p
      else o'.blocked = o.blocked ∧ o'.bufferContingent = o.bufferContingent) := by
  simp only [bufferOrFree] at h
  split at h
  · rename_i hfit
    rw [if_pos hfit]
    simp only [enqueue] at h
    split at h
    · cases h
    · rename_i buf hbuf
      cases h
      refine ⟨rfl, rfl, ?_, rfl⟩
      simp only [blocked, pending]
      split
      · rename_i hfull
        cases buf with
        | nil => exact absurd hfull (by decide)
        | cons q rest => rfl
      · simp
  · rename_i hfit
    rw [if_neg hfit]
    cases h
    exact ⟨rfl, rfl, rfl, rfl⟩

/-- An arrival that the bucket cannot pay leaves the rest of the loop safe: it is buffered,
and then nothing may be sent behind it, or it is freed. -/
theorem bufferOrFree_safe {rest : List ℚ} (hb : bufferOrFree p o = .ok o')
    (hcost : ¬ o.pktLength p ≤ o.bucketContingent)
    (hsafe : directSafe o.blocked (n + 1) o.bucketContingent o.bufferContingent
      (o.pktLength p :: rest) = true) :
    directSafe o'.blocked n o'.bucketContingent o'.bufferContingent rest = true := by
  obtain ⟨-, hbucket, hbuffer⟩ := bufferOrFree_spec hb
  rw [directSafe, if_neg hcost] at hsafe
  rw [hbucket]
  split at hsafe
  · rename_i hstore
    rw [if_pos hstore] at hbuffer
    rw [hbuffer.1, hbuffer.2]
    exact hsafe
  · rename_i hstore
    rw [if_neg hstore] at hbuffer
    rw [hbuffer.1, hbuffer.2]
    exact hsafe

/-- **A safe loop over the input link extends the stream in order.** -/
theorem sendFromLink_stream (hlen : ∀ p, (stamp p).length = p.length) (n : Nat) :
    ∀ pkts o, directSafe o.blocked n o.bucketContingent o.bufferContingent
        (pkts.map o.pktLength) = true →
      sendFromLink stamp now n pkts o = .ok (o', rest) →
      ∃ used, pkts = used ++ rest ∧
        o'.stream.Sublist (o.stream ++ used.map fun p => key (stamp p)) := by
  induction n with
  | zero =>
    intro pkts o _ h
    cases pkts <;>
    · cases h
      exact ⟨[], rfl, by simp⟩
  | succ n ih =>
    intro pkts o hsafe h
    cases pkts with
    | nil =>
      cases h
      exact ⟨[], rfl, by simp⟩
    | cons p pkts =>
      have hcost : o.pktLength (stamp p) = o.pktLength p := by
        rw [pktLength, hlen, pktLength]
      rw [map_cons, ← hcost] at hsafe
      simp only [sendFromLink] at h
      split at h
      · -- the packet is sent, so no earlier one may be waiting in the buffer
        rename_i hfit
        rw [directSafe, if_pos hfit, Bool.and_eq_true] at hsafe
        obtain ⟨hclear, hsafe⟩ := hsafe
        have hnil : o.pending = [] := by simpa [blocked] using hclear
        obtain ⟨used, hused, hsub⟩ := ih pkts _ hsafe h
        have hsent : (transmit now (stamp p) { o with
            bucketContingent := o.bucketContingent - o.pktLength (stamp p) }).stream =
              o.stream ++ [key (stamp p)] := stream_transmit (stamp p) hnil
        rw [hsent, append_assoc] at hsub
        exact ⟨p :: used, by rw [hused]; rfl, hsub⟩
      · -- the packet joins the buffer behind the earlier ones, or it is freed
        rename_i hfit
        obtain ⟨o₁, hb, hrest⟩ := bind_eq_ok h
        have hsafe₁ := bufferOrFree_safe hb hfit hsafe
        rw [← (bufferOrFree_spec hb).1] at hsafe₁
        obtain ⟨used, hused, hsub⟩ := ih pkts o₁ hsafe₁ hrest
        refine ⟨p :: used, by rw [hused]; rfl, hsub.trans ?_⟩
        have hstep := (bufferOrFree_stream hb).append_right (used.map fun p => key (stamp p))
        rw [append_assoc] at hstep
        exact hstep

/-- **A safe push keeps the packets in order.** -/
theorem pushBy_stream (hlen : ∀ p, (stamp p).length = p.length) (hsafe : FifoSafe o inp)
    (h : pushBy stamp o inp = .ok o') :
    o'.stream.Sublist (o.stream ++ inp.input.packets.map fun p => key (stamp p)) := by
  rcases pushBy_eq stamp o inp with ⟨heq, hnil⟩ | heq
  · rw [heq] at h
    cases h
    rw [hnil, map_nil, append_nil]
    exact List.Sublist.refl _
  · rw [heq] at h
    obtain ⟨t, rest, hsend, hstore⟩ := receiveFromLink_eq_ok h
    have hdirect := sendFromBuffer_safe inp.now (inp.input.packets.map o.pktLength) _
      (started o inp) rfl hsafe
    have hcosts : (drained o inp).pktLength = o.pktLength := sendFromBuffer_pktLength _ _
    obtain ⟨used, hused, hsub⟩ := sendFromLink_stream hlen _ inp.input.packets (drained o inp)
      (by rw [hcosts]; exact directSafe_mono hdirect (Nat.min_le_right _ _)) hsend
    have hbefore : (drained o inp).stream = o.stream := sendFromBuffer_stream _ _
    rw [hbefore] at hsub
    rw [hused, map_append, ← append_assoc]
    rcases hstore with hstore | rfl
    · exact (storeInBuffer_stream hstore).trans (hsub.append_right _)
    · rw [dropIncomingPackets_stream]
      exact hsub.trans (sublist_append_left _ _)

/-- Runs of either app: with a `stamp` that keeps length and key, safe pushes
return and keep the packets in order. -/
theorem run_in_order {push : RateLimiter → RateLimiterInput → Except Raise RateLimiter}
    (stamp : RateLimiter → RateLimiterInput → Packet → Packet)
    (hpush : ∀ o inp, push o inp = pushBy (stamp o inp) o inp)
    (hlen : ∀ o inp p, (stamp o inp p).length = p.length)
    (hkey : ∀ o inp p, key (stamp o inp p) = key p) {conf : RateLimiterConf}
    (hnew : new conf = .ok o) (inputs : List RateLimiterInput)
    (hsafe : Along push FifoSafe o inputs) :
    ∃ o', run push o inputs = .ok o' ∧
      (o'.sent.map fun e => key e.2).Sublist ((received inputs).map key) := by
  have hstart : o.stream = [] := by
    obtain ⟨bufferCapacity, rfl⟩ := new_eq_ok hnew
    split <;> rfl
  have hstep : ∀ o inp is,
      (Ready o ∧ (o.stream ++ (received (inp :: is)).map key).Sublist
        ((received inputs).map key)) → FifoSafe o inp →
      ∃ o', push o inp = .ok o' ∧ Ready o' ∧
        (o'.stream ++ (received is).map key).Sublist ((received inputs).map key) := by
    rintro o inp is ⟨hready, hsub⟩ hP
    obtain ⟨o₁, ho₁, hready₁⟩ := hready.pushBy (stamp o inp) inp
    refine ⟨o₁, (hpush o inp).trans ho₁, hready₁, List.Sublist.trans ?_ hsub⟩
    have hstream := pushBy_stream (hlen o inp) hP ho₁
    simp only [hkey] at hstream
    rw [show received (inp :: is) = inp.input.packets ++ received is from rfl, map_append,
      ← append_assoc]
    exact hstream.append_right _
  obtain ⟨o', hrun, -, hsub⟩ := run_total (I := fun o is => Ready o ∧
    (o.stream ++ (received is).map key).Sublist ((received inputs).map key)) hstep
    ⟨ready_new hnew, by rw [hstart]; exact List.Sublist.refl _⟩ hsafe
  refine ⟨o', hrun, List.Sublist.trans ?_ hsub⟩
  rw [stream, map_append, map_map, append_assoc]
  exact sublist_append_left _ _

/-- **The rate limiters are FIFO when no packet overtakes another**: every run of
safe pushes returns, and the packets sent are a subsequence of those received, for
`TBRateLimiter` and for `RateLimiterTS`. -/
theorem rate_limiters_fifo (conf : RateLimiterConf) (o : RateLimiter) (hnew : new conf = .ok o)
    (inputs : List RateLimiterInput) :
    (Along TBRateLimiter.push FifoSafe o inputs →
      ∃ o', run TBRateLimiter.push o inputs = .ok o' ∧
        (o'.sent.map fun e => key e.2).Sublist ((received inputs).map key)) ∧
    (Along RateLimiterTS.push FifoSafe o inputs →
      ∃ o', run RateLimiterTS.push o inputs = .ok o' ∧
        (o'.sent.map fun e => key e.2).Sublist ((received inputs).map key)) := by
  constructor
  · exact run_in_order (fun _ _ p => p) (fun _ _ => rfl) (fun _ _ _ => rfl)
      (fun _ _ _ => rfl) hnew inputs
  · exact run_in_order RateLimiterTS.stamp (fun _ _ => rfl) (by simp)
      (by simp [key]) hnew inputs

/-- Two frames of which the second one waits in the buffer leave in order. -/
theorem rate_limiters_fifo_waiting :
    ∃ o o', new .sample = .ok o ∧
      run TBRateLimiter.push o [.finding 0 0 [276, 300], .finding 400 2 []] = .ok o' ∧
      (o'.sent.map fun e => key e.2).Sublist
        ((received [.finding 0 0 [276, 300], .finding 400 2 []]).map key) := by
  obtain ⟨o, hnew, hsafe⟩ := ok_of_any
    (q := fun o => decide (Along TBRateLimiter.push FifoSafe o
      [.finding 0 0 [276, 300], .finding 400 2 []]))
    (by decide +kernel : (new .sample).toOption.any _ = true)
  obtain ⟨o', hrun, hsub⟩ := (rate_limiters_fifo .sample o hnew _).1 (of_decide_eq_true hsafe)
  exact ⟨o, o', hnew, hrun, hsub⟩

/-- A short frame overtakes: the bucket pays the frame of 276 byte, cannot pay the
one of 300 byte, and pays the one of 60 byte at once. -/
theorem short_frame_overtakes :
    ∃ o o' o'', new .sample = .ok o ∧
      run TBRateLimiter.push o [.finding 0 0 [276, 300, 60], .finding 400 3 []] = .ok o' ∧
      ¬ (o'.sent.map fun e => key e.2).Sublist
        ((received [.finding 0 0 [276, 300, 60], .finding 400 3 []]).map key) ∧
      run RateLimiterTS.push o [.finding 0 0 [276, 300, 60], .finding 400 3 []] = .ok o'' ∧
      ¬ (o''.sent.map fun e => key e.2).Sublist
        ((received [.finding 0 0 [276, 300, 60], .finding 400 3 []]).map key) := by
  have hfirst : ∀ o : RateLimiter, (o.sent.map fun e => e.2.base) = [0, 2, 1] →
      ¬ (o.sent.map fun e => key e.2).Sublist
        ((received [.finding 0 0 [276, 300, 60], .finding 400 3 []]).map key) := by
    intro o hbases hsub
    have hsub' := hsub.map Prod.fst
    rw [map_map] at hsub'
    have hfalse : ([0, 2, 1] : List Nat).Sublist [0, 1, 2] := by
      rw [← hbases]
      exact hsub'
    exact absurd hfalse (by decide)
  obtain ⟨o, hnew, hcheck⟩ := ok_of_any
    (q := fun o =>
      (run TBRateLimiter.push o
        [.finding 0 0 [276, 300, 60], .finding 400 3 []]).toOption.any
          (fun o => (o.sent.map fun e => e.2.base) = [0, 2, 1]) &&
      (run RateLimiterTS.push o
        [.finding 0 0 [276, 300, 60], .finding 400 3 []]).toOption.any
          (fun o => (o.sent.map fun e => e.2.base) = [0, 2, 1]))
    (by decide +kernel : (new .sample).toOption.any _ = true)
  rw [Bool.and_eq_true] at hcheck
  obtain ⟨o', hrun', hbases'⟩ := ok_of_any hcheck.1
  obtain ⟨o'', hrun'', hbases''⟩ := ok_of_any hcheck.2
  exact ⟨o, o', o'', hnew, hrun', hfirst o' (of_decide_eq_true hbases'), hrun'',
    hfirst o'' (of_decide_eq_true hbases'')⟩

end RateLimiter

end Snabb
