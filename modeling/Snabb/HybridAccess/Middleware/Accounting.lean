import Snabb.HybridAccess.Middleware.Fifo

/-!
# The books of a rate limiter

A rate limiter keeps two books on its buffer: `buffer_contingent`, the bytes that may
still be stored, and the ring itself, which has `QUEUE_LENGTH` slots. A packet is
stored when the contingent allows it; whether the ring had a free slot is not looked
at. A ring of 65535 packets that still has contingent takes a packet off the books:
it is paid for, not stored, and never freed.

`Move` says once what a push does to the state, packet by packet, and
`pushBy_moves` takes a push apart into moves. `Books` is what a push keeps as long as
the ring is large enough for the contingent, which is a condition on the
configuration (`Sized`), and `books_kept` shows that it is exact.

The books are doubles. They are kept on whole numbers here (`Whole`), which stay whole,
so that nothing is lost by rounding.
-/

namespace Snabb

open List Option

/-- The sample with a buffer of 5505024 byte, for 65536 packets of 84 byte. -/
def RateLimiterConf.spacious : RateLimiterConf :=
  { RateLimiterConf.sample with bufferCapacity := some 5505024 }

namespace RateLimiter

open Foundation Relation

variable {stamp : Packet → Packet} {o o' : RateLimiter} {inp : RateLimiterInput} {now : ℚ}
  {p : Packet} {ps ps' : List Packet}

/-! ## Moves -/

/-- What happens to one packet in a push: it is released from the buffer, forwarded from
the link, stored, or freed. The list holds the arrivals that are still to be looked at. -/
inductive Move (stamp : Packet → Packet) (now : ℚ) :
    RateLimiter × List Packet → RateLimiter × List Packet → Prop where
  | release {o : RateLimiter} {p : Packet} {rest ps : List Packet}
      (hbuf : o.buffer = some (p :: rest)) (hpaid : o.pktLength p ≤ o.bucketContingent)
      (hroom : ¬ o.output.full) :
      Move stamp now (o, ps) (transmit now p { o with
        buffer := some rest
        bucketContingent := o.bucketContingent - o.pktLength p
        bufferContingent := o.bufferContingent + o.pktLength p }, ps)
  | forward {o : RateLimiter} {p : Packet} {ps : List Packet}
      (hpaid : o.pktLength (stamp p) ≤ o.bucketContingent) (hroom : ¬ o.output.full) :
      Move stamp now (o, p :: ps) (transmit now (stamp p) { o with
        bucketContingent := o.bucketContingent - o.pktLength (stamp p) }, ps)
  | store {o : RateLimiter} {p : Packet} {buf ps : List Packet} (hbuf : o.buffer = some buf)
      (hfit : o.pktLength (stamp p) ≤ o.bufferContingent) :
      Move stamp now (o, p :: ps) ({ o with
        bufferContingent := o.bufferContingent - o.pktLength (stamp p)
        buffer := some (if queueLength ≤ buf.length + 1 then buf else buf ++ [stamp p]) }, ps)
  | free {o : RateLimiter} {p q : Packet} {ps : List Packet} (hq : q = stamp p ∨ q = p)
      (hfull : o.bufferContingent < o.pktLength (stamp p) ∨ o.bufferContingent ≤ 0) :
      Move stamp now (o, p :: ps) (o.free q, ps)

theorem bufferOrFree_move (h : bufferOrFree (stamp p) o = .ok o') :
    Move stamp now (o, p :: ps) (o', ps) := by
  simp only [bufferOrFree] at h
  split at h
  · rename_i hfit
    simp only [enqueue] at h
    split at h
    · cases h
    · rename_i buf hbuf
      cases h
      exact .store hbuf hfit
  · rename_i hfit
    cases h
    exact .free (Or.inl rfl) (Or.inl (not_le.mp hfit))

theorem bufferOrFree_output (h : bufferOrFree p o = .ok o') : o'.output = o.output := by
  simp only [bufferOrFree] at h
  split at h
  · simp only [enqueue] at h
    split at h
    · cases h
    · cases h
      rfl
  · cases h
    rfl

variable {r : Link} {n d k : Nat} {conf : RateLimiterConf}
  {push : RateLimiter → RateLimiterInput → Except Raise RateLimiter}

theorem not_full_of_nwritable (h : n + 1 ≤ r.nwritable) : ¬ r.full := by
  intro hfull
  rw [Link.nwritable, show r.nreadable = linkMaxPackets from hfull] at h
  omega

theorem nwritable_of_succ_le (h : n + 1 ≤ r.nwritable) (p : Packet) :
    n ≤ (r.transmit p).nwritable := by
  obtain ⟨m, hm⟩ := Nat.exists_eq_add_of_le' (Nat.le_of_add_left_le h)
  rw [nwritable_transmit hm]
  omega

theorem sendFromBuffer_moves (n : Nat) :
    ∀ o : RateLimiter, n ≤ o.output.nwritable →
      ReflTransGen (Move stamp now) (o, ps) (sendFromBuffer now n o, ps) := by
  induction n with
  | zero => exact fun o _ => .refl
  | succ n ih =>
    intro o hn
    rw [sendFromBuffer]
    split
    · rename_i p rest hbuf
      dsimp only
      split
      · rename_i hpaid
        refine .head (.release hbuf hpaid (not_full_of_nwritable hn)) (ih _ ?_)
        exact nwritable_of_succ_le hn p
      · exact ih o (by omega)
    · exact .refl

theorem sendFromLink_moves (n : Nat) :
    ∀ (o : RateLimiter) (ps : List Packet), n ≤ o.output.nwritable →
      sendFromLink stamp now n ps o = .ok (o', ps') →
      ReflTransGen (Move stamp now) (o, ps) (o', ps') := by
  induction n with
  | zero =>
    intro o ps _ h
    cases ps <;>
    · cases h
      exact .refl
  | succ n ih =>
    intro o ps hn h
    cases ps with
    | nil =>
      cases h
      exact .refl
    | cons p ps =>
      simp only [sendFromLink] at h
      split at h
      · rename_i hpaid
        refine .head (.forward hpaid (not_full_of_nwritable hn)) (ih _ ps ?_ h)
        exact nwritable_of_succ_le hn (stamp p)
      · obtain ⟨o₁, hb, hrest⟩ := bind_eq_ok h
        refine .head (bufferOrFree_move hb) (ih o₁ ps ?_ hrest)
        rw [bufferOrFree_output hb]
        omega

theorem storeInBuffer_moves (h : storeInBuffer stamp ps o = .ok o') :
    ReflTransGen (Move stamp now) (o, ps) (o', []) := by
  induction ps generalizing o with
  | nil =>
    cases h
    exact .refl
  | cons p ps ih =>
    obtain ⟨o₁, hb, hrest⟩ := bind_eq_ok h
    exact .head (bufferOrFree_move hb) (ih hrest)

theorem dropIncomingPackets_moves (h : o.bufferContingent ≤ 0) :
    ReflTransGen (Move stamp now) (o, ps) (dropIncomingPackets ps o, []) := by
  induction ps generalizing o with
  | nil => exact .refl
  | cons p ps ih =>
    refine .head (.free (Or.inr rfl) (Or.inr h)) (ih ?_)
    exact h

/-- **A push is a sequence of moves** from the refilled bucket on, over all the arrivals,
unless there is nothing to do. -/
theorem pushBy_moves (h : pushBy stamp o inp = .ok o') :
    (o' = { o with output := o.output.drain inp.taken } ∧ inp.input.packets = []) ∨
      ReflTransGen (Move stamp inp.now) (started o inp, inp.input.packets) (o', []) := by
  rcases pushBy_eq stamp o inp with ⟨heq, hnil⟩ | heq
  · rw [heq] at h
    exact Or.inl ⟨(Except.ok.inj h).symm, hnil⟩
  · rw [heq] at h
    refine Or.inr ?_
    have hbuffer : ReflTransGen (Move stamp inp.now) (started o inp, inp.input.packets)
        (drained o inp, inp.input.packets) := sendFromBuffer_moves _ _ (Nat.min_le_right _ _)
    obtain ⟨⟨t, rest⟩, hsend, hrest⟩ := bind_eq_ok h
    have hlink := sendFromLink_moves _ _ _ (Nat.min_le_right _ _) hsend
    refine (hbuffer.trans hlink).trans ?_
    by_cases hcontingent : 0 < t.bufferContingent
    · exact storeInBuffer_moves ((if_pos hcontingent).symm.trans hrest)
    · obtain rfl := ok_unique (if_neg hcontingent) hrest
      exact dropIncomingPackets_moves (not_lt.mp hcontingent)

/-! ## What the moves keep -/

/-- What an empty packet costs; no packet costs less. -/
def leastCost (o : RateLimiter) : ℚ := max o.additionalOverhead o.minPktSize

theorem leastCost_le (o : RateLimiter) (p : Packet) : o.leastCost ≤ o.pktLength p := by
  exact max_le_max (by linarith) le_rfl

/-- What the packets in the buffer cost. -/
def storedCost (o : RateLimiter) : ℚ := (o.pending.map o.pktLength).sum

/-- The ring has a slot for every packet that the capacity has bytes for. -/
structure Sized (o : RateLimiter) : Prop where
  nonneg : 0 ≤ o.bufferCapacity
  fits : o.bufferCapacity < queueLength * o.leastCost

/-- The books on the buffer are right. -/
structure Books (o : RateLimiter) : Prop where
  total : o.bufferContingent + o.storedCost = o.bufferCapacity
  nonneg : 0 ≤ o.bufferContingent

/-- The packets that a rate limiter has sent, holds, and has freed. -/
def account (o : RateLimiter) : List (Nat × List UInt8) :=
  (o.sent.map Prod.snd ++ o.pending ++ o.freed).map key

theorem length_mul_leastCost_le (o : RateLimiter) :
    o.pending.length * o.leastCost ≤ o.storedCost := by
  have hcosts : ∀ x ∈ o.pending.map o.pktLength, o.leastCost ≤ x := by
    intro x hx
    obtain ⟨p, -, rfl⟩ := mem_map.mp hx
    exact leastCost_le o p
  have hsum := card_nsmul_le_sum (o.pending.map o.pktLength) o.leastCost hcosts
  rwa [length_map] at hsum

/-- **A packet that the contingent allows finds a slot in the ring.** -/
theorem Books.room (h : Books o) (hsized : Sized o) (hleast : 0 < o.leastCost)
    (hfit : o.pktLength p ≤ o.bufferContingent) : o.pending.length + 1 < queueLength := by
  have hcount := length_mul_leastCost_le o
  have hp := leastCost_le o p
  have hbytes : (o.pending.length + 1 : ℚ) * o.leastCost < queueLength * o.leastCost := by
    have htotal := h.total
    have hfits := hsized.fits
    linarith
  exact_mod_cast lt_of_mul_lt_mul_right hbytes hleast.le

variable {s s' : RateLimiter × List Packet}

theorem Move.static (h : Move stamp now s s') :
    s'.1.bufferCapacity = s.1.bufferCapacity ∧ s'.1.pktLength = s.1.pktLength ∧
      s'.1.leastCost = s.1.leastCost := by
  cases h <;> exact ⟨rfl, rfl, rfl⟩

theorem Sized.move (h : Sized s.1) (hmove : Move stamp now s s') : Sized s'.1 := by
  obtain ⟨hcapacity, -, hleast⟩ := hmove.static
  refine ⟨?_, ?_⟩
  · rw [hcapacity]
    exact h.nonneg
  · rw [hcapacity, hleast]
    exact h.fits

/-- The numbers in the books are whole, and of a size that doubles hold exactly. -/
structure Whole (o : RateLimiter) : Prop where
  overhead : ∃ k : ℤ, |k| ≤ 2 ^ 52 ∧ o.additionalOverhead = k
  minSize : ∃ k : ℤ, o.minPktSize = k
  contingent : ∃ k : ℤ, o.bufferContingent = k

theorem Whole.pktLength (h : Whole o) (p : Packet) : ∃ k : ℤ, o.pktLength p = k := by
  obtain ⟨k, -, hk⟩ := h.overhead
  obtain ⟨j, hj⟩ := h.minSize
  exact ⟨max (p.length + k) j, by rw [RateLimiter.pktLength, hk, hj]; push_cast; rfl⟩

/-- Only costs are added to the contingent and taken from it. -/
theorem Whole.move (h : Whole s.1) (hmove : Move stamp now s s') : Whole s'.1 := by
  obtain ⟨c, hc⟩ := h.contingent
  cases hmove with
  | @release o p rest ps hbuf hpaid hroom =>
    obtain ⟨k, hk⟩ := h.pktLength p
    refine ⟨h.overhead, h.minSize, c + k, ?_⟩
    show o.bufferContingent + o.pktLength p = _
    rw [hc, hk, Int.cast_add]
  | @store o p buf ps hbuf hfit =>
    obtain ⟨k, hk⟩ := h.pktLength (stamp p)
    refine ⟨h.overhead, h.minSize, c - k, ?_⟩
    show o.bufferContingent - o.pktLength (stamp p) = _
    rw [hc, hk, Int.cast_sub]
  | forward hpaid hroom | free hq hfull => exact ⟨h.overhead, h.minSize, c, hc⟩

/-- **A move keeps the books**, if the ring is large enough. -/
theorem Books.move (h : Books s.1) (hsized : Sized s.1) (hleast : 0 < s.1.leastCost)
    (hmove : Move stamp now s s') : Books s'.1 := by
  obtain ⟨htotal, hnonneg⟩ := h
  cases hmove with
  | @release o p rest ps hbuf hpaid hroom =>
    have hstored : o.storedCost = o.pktLength p + (rest.map o.pktLength).sum := by
      rw [storedCost, pending, hbuf, getD_some, map_cons, sum_cons]
    refine ⟨?_, ?_⟩
    · show o.bufferContingent + o.pktLength p + (rest.map o.pktLength).sum = o.bufferCapacity
      linarith
    · have hcost := (hleast.le.trans (leastCost_le o p))
      exact add_nonneg hnonneg hcost
  | forward hpaid hroom | free hq hfull => exact ⟨htotal, hnonneg⟩
  | @store o p buf ps hbuf hfit =>
    have hslot := Books.room ⟨htotal, hnonneg⟩ hsized hleast hfit
    rw [pending, hbuf, getD_some] at hslot
    have hstored : o.storedCost = (buf.map o.pktLength).sum := by
      rw [storedCost, pending, hbuf, getD_some]
    refine ⟨?_, sub_nonneg.mpr hfit⟩
    rw [if_neg (Nat.not_le.mpr hslot)]
    show o.bufferContingent - o.pktLength (stamp p) + ((buf ++ [stamp p]).map o.pktLength).sum =
      o.bufferCapacity
    rw [map_append, sum_append, map_singleton, sum_singleton]
    linarith

/-- **No packet is lost or doubled by a move**, if the ring is large enough. -/
theorem Books.move_account (h : Books s.1) (hsized : Sized s.1) (hleast : 0 < s.1.leastCost)
    (hkey : ∀ p, key (stamp p) = key p) (hmove : Move stamp now s s') :
    (s'.1.account ++ s'.2.map key).Perm (s.1.account ++ s.2.map key) := by
  rw [perm_iff_count]
  intro k
  cases hmove with
  | @release o p rest ps hbuf hpaid hroom =>
    simp only [account, pending, transmit, hbuf, getD_some, map_append, map_cons,
      count_append, count_cons, map_nil, count_nil]
    omega
  | @forward o p ps hpaid hroom =>
    simp only [account, pending, transmit, hkey, map_append, map_cons,
      count_append, count_cons, map_nil, count_nil]
    omega
  | @store o p buf ps hbuf hfit =>
    have hslot := h.room hsized hleast hfit
    rw [pending, hbuf, getD_some] at hslot
    rw [if_neg (Nat.not_le.mpr hslot)]
    simp only [account, pending, hkey, hbuf, getD_some, map_append, map_cons,
      count_append, count_cons, map_nil, count_nil]
    omega
  | @free o p q ps hq hfull =>
    have hkeyq : key q = key p := by
      rcases hq with rfl | rfl
      · exact hkey p
      · rfl
    simp only [account, pending, RateLimiter.free, hkeyq, map_append, map_cons,
      count_append, count_cons, map_nil, count_nil]
    omega

/-- The ring has a free slot, and all but the first `d` packets sent are still on the
output link. -/
structure Bounded (d : Nat) (o : RateLimiter) : Prop where
  pending_lt : o.pending.length < queueLength
  taken_le : d ≤ o.sent.length
  output : o.output.packets = (o.sent.map Prod.snd).drop d

theorem Bounded.transmit (h : Bounded d o) (hroom : ¬ o.output.full) :
    Bounded d (transmit now p o) where
  pending_lt := h.pending_lt
  taken_le := by
    show d ≤ (o.sent ++ [(now, p)]).length
    rw [List.length_append]
    exact h.taken_le.trans (Nat.le_add_right _ _)
  output := by
    show (o.output.transmit p).packets = ((o.sent ++ [(now, p)]).map Prod.snd).drop d
    rw [Link.packets_transmit hroom, h.output, map_append, drop_append_of_le_length]
    · rfl
    · rw [length_map]
      exact h.taken_le

theorem Bounded.move (h : Bounded d s.1) (hmove : Move stamp now s s') : Bounded d s'.1 := by
  cases hmove with
  | @release o p rest ps hbuf hpaid hroom =>
    have hlt := h.pending_lt
    rw [pending, hbuf, getD_some, length_cons] at hlt
    refine Bounded.transmit ⟨?_, h.taken_le, h.output⟩ hroom
    show rest.length < queueLength
    omega
  | @forward o p ps hpaid hroom =>
    exact Bounded.transmit ⟨h.pending_lt, h.taken_le, h.output⟩ hroom
  | @store o p buf ps hbuf hfit =>
    refine ⟨?_, h.taken_le, h.output⟩
    have hlt := h.pending_lt
    rw [pending, hbuf] at hlt
    show (if queueLength ≤ buf.length + 1 then buf else buf ++ [stamp p]).length < queueLength
    split
    · exact hlt
    · rename_i hslot
      rw [List.length_append, length_singleton]
      omega
  | free hq hfull => exact ⟨h.pending_lt, h.taken_le, h.output⟩

/-! ## Pushes and runs -/

theorem Bounded.drain (h : Bounded d o) (n : Nat) :
    Bounded (d + min n (o.sent.length - d)) { o with output := o.output.drain n } where
  pending_lt := h.pending_lt
  taken_le := by
    have := h.taken_le
    show d + min n (o.sent.length - d) ≤ o.sent.length
    omega
  output := by
    show o.output.packets.drop n = (o.sent.map Prod.snd).drop (d + min n (o.sent.length - d))
    rw [h.output, drop_drop]
    rcases Nat.le_total n (o.sent.length - d) with hle | hle
    · rw [Nat.min_eq_left hle]
    · have hall : (o.sent.map Prod.snd).length = o.sent.length := length_map _
      rw [drop_of_length_le (by omega), drop_of_length_le (by omega)]

/-- What every push keeps of a rate limiter whose ring is large enough. -/
structure Kept (o : RateLimiter) : Prop where
  ready : Ready o
  sized : Sized o
  least_pos : 0 < o.leastCost
  books : Books o
  bounded : ∃ d, Bounded d o

theorem Kept.started (h : Kept o) (inp : RateLimiterInput) : Kept (started o inp) := by
  obtain ⟨d, hbounded⟩ := h.bounded
  have hdrained := hbounded.drain inp.taken
  refine ⟨⟨h.ready.minPktSize_pos, h.ready.buffer⟩, ⟨h.sized.nonneg, h.sized.fits⟩, h.least_pos,
    ⟨h.books.total, h.books.nonneg⟩, _, ⟨hdrained.pending_lt, hdrained.taken_le, hdrained.output⟩⟩

/-- **A push keeps the books**, and what it has received is added to the account. -/
theorem Kept.pushBy (h : Kept o) (hkey : ∀ p, key (stamp p) = key p) (inp : RateLimiterInput) :
    ∃ o', RateLimiter.pushBy stamp o inp = .ok o' ∧ Kept o' ∧
      o'.account.Perm (o.account ++ inp.input.packets.map key) := by
  obtain ⟨o', hpush, hready⟩ := h.ready.pushBy stamp inp
  refine ⟨o', hpush, ?_⟩
  rcases pushBy_moves hpush with ⟨rfl, hnil⟩ | hmoves
  · obtain ⟨d, hbounded⟩ := h.bounded
    refine ⟨⟨hready, ⟨h.sized.nonneg, h.sized.fits⟩, h.least_pos, ⟨h.books.total, h.books.nonneg⟩,
      _, hbounded.drain inp.taken⟩, ?_⟩
    rw [hnil, map_nil, append_nil]
    exact List.Perm.refl _
  · have hstart := h.started inp
    have hinv : ∀ s, ReflTransGen (Move stamp inp.now) (RateLimiter.started o inp, inp.input.packets) s →
        Sized s.1 ∧ 0 < s.1.leastCost ∧ Books s.1 ∧ (∃ d, Bounded d s.1) ∧
          (s.1.account ++ s.2.map key).Perm (o.account ++ inp.input.packets.map key) := by
      intro s hs
      induction hs with
      | refl =>
        exact ⟨hstart.sized, hstart.least_pos, hstart.books, hstart.bounded, List.Perm.refl _⟩
      | tail _ hmove ih =>
        obtain ⟨hsized, hleast, hbooks, ⟨d, hbounded⟩, hperm⟩ := ih
        refine ⟨hsized.move hmove, ?_, hbooks.move hsized hleast hmove,
          ⟨d, hbounded.move hmove⟩, (hbooks.move_account hsized hleast hkey hmove).trans hperm⟩
        rw [hmove.static.2.2]
        exact hleast
    obtain ⟨hsized, hleast, hbooks, hbounded, hperm⟩ := hinv (o', []) hmoves
    rw [map_nil, append_nil] at hperm
    exact ⟨⟨hready, hsized, hleast, hbooks, hbounded⟩, hperm⟩

theorem Whole.pushBy (h : Whole o) (hpush : RateLimiter.pushBy stamp o inp = .ok o') : Whole o' := by
  rcases pushBy_moves hpush with ⟨rfl, -⟩ | hmoves
  · exact ⟨h.overhead, h.minSize, h.contingent⟩
  · have hinv : ∀ s, ReflTransGen (Move stamp inp.now) (started o inp, inp.input.packets) s →
        Whole s.1 := by
      intro s hs
      induction hs with
      | refl => exact ⟨h.overhead, h.minSize, h.contingent⟩
      | tail _ hmove ih => exact ih.move hmove
    exact hinv _ hmoves

/-- **The numbers stay whole** in every run. -/
theorem Whole.run (h : Whole o) (stamp : RateLimiter → RateLimiterInput → Packet → Packet)
    {inputs : List RateLimiterInput}
    (hrun : Foundation.run (fun o inp => RateLimiter.pushBy (stamp o inp) o inp) o inputs = .ok o') :
    Whole o' :=
  run_inv (I := fun o _ => Whole o) (fun _ _ _ _ h _ hpush => h.pushBy hpush) h along_true hrun

/-- The books after a run over `inputs`: the contingent is what is left of the capacity,
and every packet received is sent (and on the output link, or was taken from it), in
the buffer, or freed. -/
structure Balanced (inputs : List RateLimiterInput) (o : RateLimiter) : Prop where
  total : o.bufferContingent + o.storedCost = o.bufferCapacity
  nonneg : 0 ≤ o.bufferContingent
  le : o.bufferContingent ≤ o.bufferCapacity
  packets : o.account.Perm ((received inputs).map key)
  accepted : o.output.packets <:+ o.sent.map Prod.snd

theorem leastCost_pos (h : Ready o) : 0 < o.leastCost :=
  lt_of_lt_of_le h.minPktSize_pos (le_max_right _ _)

theorem storedCost_nonneg (h : 0 < o.leastCost) : 0 ≤ o.storedCost :=
  (mul_nonneg (Nat.cast_nonneg _) h.le).trans (length_mul_leastCost_le o)

theorem kept_new (hnew : new conf = .ok o) (hsized : Sized o) : Kept o := by
  have hready := ready_new hnew
  obtain ⟨bufferCapacity, rfl⟩ := new_eq_ok hnew
  refine ⟨hready, hsized, leastCost_pos hready, ⟨?_, hsized.nonneg⟩, 0, ⟨?_, Nat.zero_le _, rfl⟩⟩
  · simp only [storedCost, pending]
    split <;> simp
  · simp only [pending]
    split <;> decide

/-- **Runs keep the books** when the ring is large enough for the capacity. -/
theorem run_balanced (stamp : RateLimiter → RateLimiterInput → Packet → Packet)
    (hpush : ∀ o inp, push o inp = pushBy (stamp o inp) o inp)
    (hkey : ∀ o inp p, key (stamp o inp p) = key p) (hnew : new conf = .ok o) (hsized : Sized o)
    (inputs : List RateLimiterInput) : ∃ o', run push o inputs = .ok o' ∧ Balanced inputs o' := by
  have hstart : o.account = [] := by
    obtain ⟨bufferCapacity, rfl⟩ := new_eq_ok hnew
    split <;> rfl
  have hstep : ∀ o inp is,
      (Kept o ∧ (o.account ++ (received (inp :: is)).map key).Perm ((received inputs).map key)) →
      True → ∃ o', push o inp = .ok o' ∧ Kept o' ∧
        (o'.account ++ (received is).map key).Perm ((received inputs).map key) := by
    rintro o inp is ⟨hkept, hperm⟩ -
    obtain ⟨o₁, ho₁, hkept₁, hadded⟩ := hkept.pushBy (hkey o inp) inp
    refine ⟨o₁, (hpush o inp).trans ho₁, hkept₁, List.Perm.trans ?_ hperm⟩
    rw [show received (inp :: is) = inp.input.packets ++ received is from rfl, map_append,
      ← append_assoc]
    exact hadded.append_right _
  obtain ⟨o', hrun, hkept, hperm⟩ := run_total (I := fun o is => Kept o ∧
    (o.account ++ (received is).map key).Perm ((received inputs).map key)) hstep
    ⟨kept_new hnew hsized, by rw [hstart]; exact List.Perm.refl _⟩
    (along_of_forall fun _ _ => trivial)
  obtain ⟨d, hbounded⟩ := hkept.bounded
  have hstored := storedCost_nonneg hkept.least_pos
  have htotal := hkept.books.total
  refine ⟨o', hrun, htotal, hkept.books.nonneg, by linarith, ?_, ?_⟩
  · simpa [received] using hperm
  · rw [hbounded.output]
    exact drop_suffix _ _

/-! ## Rings that are too small -/

/-- A push that finds one packet, and an output link from which nothing is taken. -/
def trickle (e : Packet) : RateLimiterInput where
  now := 0
  timeNs := 0
  input := .holding [e]
  taken := 0

variable {e : Packet}

theorem pktLength_empty (o : RateLimiter) (h : p.length = 0) : o.pktLength p = o.leastCost := by
  rw [pktLength, leastCost, h, Nat.cast_zero, zero_add]

theorem pktLength_of_key (o : RateLimiter) (h : key p = key e) : o.pktLength p = o.pktLength e := by
  have hbytes : p.bytes = e.bytes := congrArg Prod.snd h
  rw [pktLength, pktLength, ← Packet.length_bytes p, hbytes, Packet.length_bytes]

/-- A state in which nothing was freed and nothing was taken from the output link. -/
structure Trickling (o o' : RateLimiter) : Prop where
  capacity : o'.bufferCapacity = o.bufferCapacity
  costs : o'.pktLength = o.pktLength
  least : o'.leastCost = o.leastCost
  bounded : Bounded 0 o'
  freed : o'.freed = []

/-- If the books are right, a ring that is too small leaves contingent for one more
packet. -/
theorem least_le_contingent (h : Balanced (List.replicate k (trickle e)) o)
    (hlt : o.pending.length < queueLength) (hleast : 0 < o.leastCost)
    (hcheap : o.pktLength e = o.leastCost) (hcapacity : queueLength * o.leastCost ≤ o.bufferCapacity) :
    o.leastCost ≤ o.bufferContingent := by
  have hcost : ∀ p ∈ o.pending, o.pktLength p = o.leastCost := by
    intro p hp
    have hmem : key p ∈ o.account :=
      mem_map_of_mem (mem_append_left _ (mem_append_right _ hp))
    obtain ⟨q, hq, hkey⟩ := mem_map.mp (h.packets.subset hmem)
    obtain ⟨inp, hinp, hq⟩ := mem_flatMap.mp hq
    rw [eq_of_mem_replicate hinp] at hq
    obtain rfl : q = e := mem_singleton.mp hq
    exact (pktLength_of_key o hkey.symm).trans hcheap
  have hstored : o.storedCost = o.pending.length * o.leastCost := by
    rw [storedCost, map_congr_left hcost, map_const', sum_replicate, nsmul_eq_mul]
  have hcount : (o.pending.length + 1) * o.leastCost ≤ queueLength * o.leastCost := by
    refine mul_le_mul_of_nonneg_right ?_ hleast.le
    exact_mod_cast hlt
  have htotal := h.total
  linarith

theorem Trickling.move {now : ℚ} {s s' : RateLimiter × List Packet} (h : Trickling o s.1)
    (hleast : 0 < o.leastCost) (hcheap : o.pktLength e = o.leastCost)
    (hkey : ∀ p, key (stamp p) = key p) (hmove : Move stamp now s s')
    (hrest : s.2 = [] ∨ s.2 = [e] ∧ s.1.leastCost ≤ s.1.bufferContingent) :
    Trickling o s'.1 ∧ (s'.2 = [] ∨ s'.2 = [e] ∧ s'.1.leastCost ≤ s'.1.bufferContingent) := by
  have hkept : s'.1.freed = [] → Trickling o s'.1 := fun hfreed =>
    ⟨hmove.static.1.trans h.capacity, hmove.static.2.1.trans h.costs,
      hmove.static.2.2.trans h.least, h.bounded.move hmove, hfreed⟩
  cases hmove with
  | @release o p rest ps hbuf hpaid hroom =>
    refine ⟨hkept h.freed, hrest.imp_right fun hone => ⟨hone.1, ?_⟩⟩
    have hcost : o.leastCost ≤ o.pktLength p := leastCost_le o p
    have hpos : 0 < o.leastCost := by rwa [h.least]
    show o.leastCost ≤ o.bufferContingent + o.pktLength p
    linarith [hone.2]
  | forward hpaid hroom | store hbuf hfit =>
    refine ⟨hkept h.freed, Or.inl ?_⟩
    rcases hrest with hnil | ⟨hone, -⟩
    · cases hnil
    · exact (List.cons.inj hone).2
  | @free o p q ps hq hfull =>
    -- there is contingent for the packet, so that it is not dropped
    rcases hrest with hnil | ⟨hone, hcontingent⟩
    · cases hnil
    · obtain rfl : p = e := (List.cons.inj hone).1
      have hcost : o.pktLength (stamp p) = o.leastCost := by
        rw [pktLength_of_key o (hkey p), h.costs, h.least]
        exact hcheap
      have hpos : 0 < o.leastCost := by rwa [h.least]
      rcases hfull with hfull | hfull
      · rw [hcost] at hfull
        exact absurd hcontingent (not_le.mpr hfull)
      · exact absurd (hpos.trans_le hcontingent) (not_lt.mpr hfull)

/-- So a push that finds one cheap packet frees nothing, as long as the books are right. -/
theorem Trickling.pushBy (h : Trickling o o')
    (hbalanced : Balanced (List.replicate k (trickle e)) o') (hleast : 0 < o.leastCost)
    (hcheap : o.pktLength e = o.leastCost) (hcapacity : queueLength * o.leastCost ≤ o.bufferCapacity)
    (hkey : ∀ p, key (stamp p) = key p) {o'' : RateLimiter}
    (hpush : RateLimiter.pushBy stamp o' (trickle e) = .ok o'') : Trickling o o'' := by
  rcases pushBy_moves hpush with ⟨-, hnil⟩ | hmoves
  · cases hnil
  · have hpaid : o'.leastCost ≤ o'.bufferContingent := by
      refine least_le_contingent hbalanced h.bounded.pending_lt ?_ ?_ ?_
      · rwa [h.least]
      · rwa [h.costs, h.least]
      · rwa [h.least, h.capacity]
    have hinv : ∀ s, ReflTransGen (Move stamp (trickle e).now)
        (started o' (trickle e), (trickle e).input.packets) s →
        Trickling o s.1 ∧ (s.2 = [] ∨ s.2 = [e] ∧ s.1.leastCost ≤ s.1.bufferContingent) := by
      intro s hs
      induction hs with
      | refl =>
        refine ⟨⟨h.capacity, h.costs, h.least, ⟨h.bounded.pending_lt, h.bounded.taken_le, ?_⟩, h.freed⟩,
          Or.inr ⟨rfl, hpaid⟩⟩
        exact h.bounded.output
      | tail _ hmove ih => exact ih.1.move hleast hcheap hkey hmove ih.2
    exact (hinv _ hmoves).1

theorem trickling_new (hnew : new conf = .ok o) : Trickling o o := by
  obtain ⟨bufferCapacity, rfl⟩ := new_eq_ok hnew
  refine ⟨rfl, rfl, rfl, ⟨?_, Nat.zero_le _, rfl⟩, rfl⟩
  simp only [pending]
  split <;> decide

/-- As many packets as find no place in the ring and on the output link. -/
def tooMany : Nat := linkMaxPackets + queueLength

/-- **A ring that is too small loses a packet**: one cheap packet after the other, and the
books are wrong at the latest when there is no place left. -/
theorem books_wrong (push : RateLimiter → RateLimiterInput → Except Raise RateLimiter)
    (stamp : RateLimiter → RateLimiterInput → Packet → Packet)
    (hpush : ∀ o inp, push o inp = pushBy (stamp o inp) o inp)
    (hkey : ∀ o inp p, key (stamp o inp p) = key p) (hnew : new conf = .ok o)
    (hcheap : o.pktLength e = o.leastCost)
    (hcapacity : queueLength * o.leastCost ≤ o.bufferCapacity) :
    ∃ k ≤ tooMany, ∃ o', run push o (List.replicate k (trickle e)) = .ok o' ∧
      ¬ Balanced (List.replicate k (trickle e)) o' := by
  have hready := ready_new hnew
  have hleast := leastCost_pos hready
  have hreturns : ∀ inputs, ∃ o', run push o inputs = .ok o' ∧ Ready o' := fun inputs =>
    run_total (P := fun _ _ => True) (I := fun o _ => Ready o)
      (fun o inp _ h _ => by rw [hpush]; exact h.pushBy (stamp o inp) inp) hready
      (along_of_forall fun _ _ => trivial)
  by_contra hcon
  have hbalanced : ∀ k ≤ tooMany, ∀ o', run push o (List.replicate k (trickle e)) = .ok o' →
      Balanced (List.replicate k (trickle e)) o' := by
    intro k hk o' hrun
    by_contra hwrong
    exact hcon ⟨k, hk, o', hrun, hwrong⟩
  -- nothing is freed in any of the pushes
  have htrickling : ∀ k ≤ tooMany, ∃ o', run push o (List.replicate k (trickle e)) = .ok o' ∧
      Trickling o o' := by
    intro k
    induction k with
    | zero => exact fun _ => ⟨o, rfl, trickling_new hnew⟩
    | succ k ih =>
      intro hk
      obtain ⟨o₁, hrun₁, htrickling⟩ := ih (by omega)
      obtain ⟨o₂, hrun₂, -⟩ := hreturns (List.replicate (k + 1) (trickle e))
      refine ⟨o₂, hrun₂, ?_⟩
      rw [replicate_succ', run_append hrun₁] at hrun₂
      obtain ⟨o₃, hpush₃, hnil⟩ := run_cons_eq_ok hrun₂
      cases hnil
      rw [hpush] at hpush₃
      exact htrickling.pushBy (hbalanced k (by omega) o₁ hrun₁) hleast hcheap hcapacity
        (hkey o₁ (trickle e)) hpush₃
  obtain ⟨o', hrun, htrickling⟩ := htrickling tooMany le_rfl
  have hcount := (hbalanced tooMany le_rfl o' hrun).packets.length_eq
  have hsent : o'.sent.length ≤ linkMaxPackets := by
    have hfits := o'.output.fits
    rwa [htrickling.bounded.output, drop_zero, length_map] at hfits
  have hpending := htrickling.bounded.pending_lt
  have hreceived : (received (List.replicate tooMany (trickle e))).length = tooMany := by
    have hone : (trickle e).input.packets.length = 1 := rfl
    simp [received, hone]
  rw [account, length_map, List.length_append, List.length_append, length_map,
    length_map, htrickling.freed, length_nil, hreceived, tooMany] at hcount
  omega

/-- The books are right in every run if and only if the ring is large enough. -/
theorem balanced_iff_sized (stamp : RateLimiter → RateLimiterInput → Packet → Packet)
    (hpush : ∀ o inp, push o inp = pushBy (stamp o inp) o inp)
    (hkey : ∀ o inp p, key (stamp o inp p) = key p) (hnew : new conf = .ok o) :
    (∀ inputs, ∃ o', run push o inputs = .ok o' ∧ Balanced inputs o') ↔
      0 ≤ o.bufferCapacity ∧ o.bufferCapacity < queueLength * o.leastCost := by
  constructor
  · intro hall
    constructor
    · obtain ⟨o', hrun, hbalanced⟩ := hall []
      cases hrun
      exact hbalanced.nonneg.trans hbalanced.le
    · by_contra hsmall
      obtain ⟨k, -, o', hrun, hwrong⟩ := books_wrong (e := .fromPointer 0 []) _ stamp hpush hkey
        hnew (pktLength_empty o rfl) (not_lt.mp hsmall)
      obtain ⟨o'', hrun', hright⟩ := hall (List.replicate k (trickle (.fromPointer 0 [])))
      rw [hrun] at hrun'
      cases hrun'
      exact hwrong hright
  · rintro ⟨hcapacity, hfits⟩ inputs
    exact run_balanced stamp hpush hkey hnew ⟨hcapacity, hfits⟩ inputs

end RateLimiter

end Snabb
