import Snabb.HybridAccess.Middleware.RateLimiter
import Snabb.HybridAccess.LoadBalancer.Policies

/-!
# Conformance to the configured rate

Five apps copy the same token bucket: the two rate limiters and the three token
bucket policies of the load balancer. Each is shown to be an instance of the bucket
of `Foundation.TokenBucket`: its contingent and its `last_time` are the bucket, and
the packets it lets through, with their costs, are the log.

A rate limiter spends on two paths, from the buffer and from the input link; a load
balancer spends on what it places on `output1`, and starts with more than its scaled
capacity. Pushes that find nothing to do do not look at the clock.
-/

namespace Snabb

open Foundation Bucket List

/-- In every interval the costs of the log are bounded by a capacity and a rate. -/
def WithinRate (rate cap : ℚ) (log : List (ℚ × ℚ)) : Prop :=
  ∀ t₁ t₂, t₁ ≤ t₂ → spent log t₁ t₂ ≤ cap + rate * (t₂ - t₁)

/-! ## Rate limiters -/

namespace RateLimiter

variable {o o' : RateLimiter} {inp : RateLimiterInput} {stamp : Packet → Packet} {now rate cap : ℚ}

/-- The packets handed to the output link, with their costs. -/
def costs (o : RateLimiter) : List (ℚ × ℚ) := o.sent.map fun e => (e.1, o.pktLength e.2)

/-- The state of a rate limiter is that of a token bucket with its log. -/
structure Metered (rate cap : ℚ) (o : RateLimiter) : Prop where
  byteRate : o.byteRate = rate
  bucketCapacity : o.bucketCapacity = cap
  conforms : Conforms rate cap ⟨o.bucketContingent, o.lastTime⟩ o.costs

theorem Metered.refill (h : Metered rate cap o) (hrate : 0 ≤ rate) (hcap : 0 ≤ cap)
    (hclock : ∀ t ∈ o.lastTime, t ≤ now) : Metered rate cap (o.refill now) := by
  obtain ⟨rfl, rfl, hconforms⟩ := h
  exact ⟨rfl, rfl, hconforms.refill hrate hcap hclock⟩

theorem Metered.spend (h : Metered rate cap o) (hrate : 0 ≤ rate) (hnow : o.lastTime = some now)
    {p : Packet} (hfit : o.pktLength p ≤ o.bucketContingent) :
    Metered rate cap (transmit now p
      { o with bucketContingent := o.bucketContingent - o.pktLength p }) := by
  refine ⟨h.byteRate, h.bucketCapacity, ?_⟩
  have hcosts : (transmit now p
      { o with bucketContingent := o.bucketContingent - o.pktLength p }).costs =
        o.costs ++ [(now, o.pktLength p)] :=
    map_append
  rw [hcosts]
  exact h.conforms.spend hrate hfit hnow

theorem Metered.sendFromBuffer (hrate : 0 ≤ rate) (n : Nat) :
    ∀ o, Metered rate cap o → o.lastTime = some now →
      Metered rate cap (RateLimiter.sendFromBuffer now n o) ∧
        (RateLimiter.sendFromBuffer now n o).lastTime = some now := by
  induction n with
  | zero =>
    intro o h hnow
    exact ⟨h, hnow⟩
  | succ n ih =>
    intro o h hnow
    rw [RateLimiter.sendFromBuffer]
    split
    · dsimp only
      split
      · rename_i hfit
        obtain ⟨hbyteRate, hcapacity, hconforms⟩ := h.spend hrate hnow hfit
        exact ih _ ⟨hbyteRate, hcapacity, hconforms⟩ hnow
      · exact ih o h hnow
    · exact ⟨h, hnow⟩

theorem Metered.bufferOrFree (h : Metered rate cap o) {p : Packet}
    (hb : RateLimiter.bufferOrFree p o = .ok o') :
    Metered rate cap o' ∧ o'.lastTime = o.lastTime := by
  obtain ⟨hbyteRate, hcapacity, hconforms⟩ := h
  simp only [RateLimiter.bufferOrFree] at hb
  split at hb
  · simp only [enqueue] at hb
    split at hb
    · cases hb
    · cases hb
      exact ⟨⟨hbyteRate, hcapacity, hconforms⟩, rfl⟩
  · cases hb
    exact ⟨⟨hbyteRate, hcapacity, hconforms⟩, rfl⟩

theorem Metered.sendFromLink (hrate : 0 ≤ rate) {rest : List Packet} (n : Nat) :
    ∀ pkts o, Metered rate cap o → o.lastTime = some now →
      RateLimiter.sendFromLink stamp now n pkts o = .ok (o', rest) →
      Metered rate cap o' ∧ o'.lastTime = some now := by
  induction n with
  | zero =>
    intro pkts o h hnow hs
    cases pkts <;>
    · cases hs
      exact ⟨h, hnow⟩
  | succ n ih =>
    intro pkts o h hnow hs
    cases pkts with
    | nil =>
      cases hs
      exact ⟨h, hnow⟩
    | cons p pkts =>
      simp only [RateLimiter.sendFromLink] at hs
      split at hs
      · rename_i hfit
        exact ih pkts _ (h.spend hrate hnow hfit) hnow hs
      · obtain ⟨o₁, hb, hrest⟩ := bind_eq_ok hs
        obtain ⟨h₁, hlast⟩ := h.bufferOrFree hb
        exact ih pkts o₁ h₁ (hlast.trans hnow) hrest

theorem Metered.storeInBuffer {pkts : List Packet} (h : Metered rate cap o)
    (hs : RateLimiter.storeInBuffer stamp pkts o = .ok o') :
    Metered rate cap o' ∧ o'.lastTime = o.lastTime := by
  induction pkts generalizing o with
  | nil =>
    cases hs
    exact ⟨h, rfl⟩
  | cons p pkts ih =>
    obtain ⟨o₁, hb, hrest⟩ := bind_eq_ok hs
    obtain ⟨h₁, hlast⟩ := h.bufferOrFree hb
    obtain ⟨h', hlast'⟩ := ih h₁ hrest
    exact ⟨h', hlast'.trans hlast⟩

theorem Metered.dropIncomingPackets (pkts : List Packet) (h : Metered rate cap o) :
    Metered rate cap (RateLimiter.dropIncomingPackets pkts o) ∧
      (RateLimiter.dropIncomingPackets pkts o).lastTime = o.lastTime := by
  induction pkts generalizing o with
  | nil => exact ⟨h, rfl⟩
  | cons p pkts ih =>
    exact ih (o := o.free p) ⟨h.byteRate, h.bucketCapacity, h.conforms⟩

/-- **A push of a rate limiter works on its bucket by refilling and spending.** -/
theorem Metered.pushBy (hrate : 0 ≤ rate) (hcap : 0 ≤ cap) (h : Metered rate cap o)
    (hclock : ∀ t ∈ o.lastTime, t ≤ inp.now) (hpush : RateLimiter.pushBy stamp o inp = .ok o') :
    Metered rate cap o' ∧ (o'.lastTime = o.lastTime ∨ o'.lastTime = some inp.now) := by
  have hidle : Metered rate cap { o with output := o.output.drain inp.taken } :=
    ⟨h.byteRate, h.bucketCapacity, h.conforms⟩
  rcases pushBy_eq stamp o inp with ⟨heq, -⟩ | heq
  · rw [heq] at hpush
    cases hpush
    exact ⟨hidle, Or.inl rfl⟩
  · rw [heq] at hpush
    obtain ⟨t, rest, hsend, hstore⟩ := receiveFromLink_eq_ok hpush
    obtain ⟨hbuffer, hnow⟩ := Metered.sendFromBuffer hrate
      (min o.bufferSize (started o inp).output.nwritable) (started o inp)
      (hidle.refill hrate hcap hclock) rfl
    obtain ⟨hlink, hnow⟩ := Metered.sendFromLink hrate _ _ (drained o inp) hbuffer hnow hsend
    rcases hstore with hstore | rfl
    · obtain ⟨h', hlast⟩ := hlink.storeInBuffer hstore
      exact ⟨h', Or.inr (hlast.trans hnow)⟩
    · obtain ⟨h', hlast⟩ := hlink.dropIncomingPackets rest
      exact ⟨h', Or.inr (hlast.trans hnow)⟩

variable {conf : RateLimiterConf}

theorem metered_new (hnew : new conf = .ok o) :
    Metered o.byteRate o.bucketCapacity o ∧ 0 ≤ o.byteRate ∧ 0 ≤ o.bucketCapacity ∧
      o.lastTime = none := by
  obtain ⟨bufferCapacity, rfl⟩ := new_eq_ok hnew
  have hrate : (0 : ℚ) ≤ ⌊conf.rate / 8⌋ :=
    Int.cast_nonneg (Int.floor_nonneg.mpr (div_nonneg conf.rate_nonneg (by norm_num)))
  exact ⟨⟨rfl, rfl, .fresh conf.bucketCapacity_nonneg rfl conf.bucketCapacity_nonneg hrate⟩, hrate,
    conf.bucketCapacity_nonneg, rfl⟩

theorem run_within_rate {push : RateLimiter → RateLimiterInput → Except Raise RateLimiter}
    (stamp : RateLimiter → RateLimiterInput → Packet → Packet)
    (hpush : ∀ o inp, push o inp = pushBy (stamp o inp) o inp)
    (hnew : new conf = .ok o) {inputs : List RateLimiterInput}
    (hclock : inputs.Pairwise fun a b => a.now ≤ b.now) :
    ∃ o', run push o inputs = .ok o' ∧ WithinRate o.byteRate o.bucketCapacity o'.costs := by
  obtain ⟨hmetered, hrate, hcap, hlast⟩ := metered_new hnew
  have hreturns : ∀ o inp (_ : List RateLimiterInput), Ready o → True →
      ∃ o', push o inp = .ok o' ∧ Ready o' := by
    intro o inp _ hready _
    rw [hpush]
    exact hready.pushBy (stamp o inp) inp
  obtain ⟨o', hrun, -⟩ := run_total (I := fun o _ => Ready o) (P := fun _ _ => True) hreturns
    (ready_new hnew) (along_of_forall fun _ _ => trivial)
  have hend : Metered o.byteRate o.bucketCapacity o' := by
    refine run_clock RateLimiter.lastTime RateLimiterInput.now ?_ hmetered hlast hclock hrun
    intro s inp s' hs hpast hstep
    rw [hpush] at hstep
    exact hs.pushBy hrate hcap hpast hstep
  exact ⟨o', hrun, hend.conforms.window⟩

end RateLimiter

/-! ## Load balancers -/

namespace LoadBalancer

variable {fresh : Nat → Packet} {now : ℚ} {lb lb₁ : LoadBalancer} {p : Packet}

/-- The frames placed on `output1`, with the times of their pushes. -/
def placed (lb : LoadBalancer) : List (ℚ × Packet) :=
  lb.transmitted.filterMap fun tx =>
    if tx.port = .one then tx.frame.map fun p => (tx.now, p) else none

/-- A send places its frame on the output it is for; a DDC packet is no frame. -/
theorem send_placed {ddc : Bool} {port : LinkNo} (h : lb.send fresh now ddc port p = .ok lb₁) :
    lb₁.placed = lb.placed ++ if port = .one then [(now, p)] else [] := by
  cases ddc with
  | false =>
    obtain ⟨q, -, rfl⟩ := sendPkt_eq_ok h
    cases port <;> simp [placed]
  | true =>
    obtain ⟨d, q, -, -, rfl⟩ :=
      sendPktWithDdc_eq_ok h
    cases port <;> simp [placed]

end LoadBalancer

namespace TokenBucket

open LoadBalancer

variable {fresh : Nat → Packet} {now rate cap : ℚ} {o o' : TokenBucket} {lb : LoadBalancer}
  {p : Packet} {ps rest : List Packet} {inp : LoadBalancerInput}

/-- The frames placed on `output1`, with their costs. -/
def costs (o : TokenBucket) : List (ℚ × ℚ) := o.placed.map fun e => (e.1, o.pktLength e.2)

/-- The state of a token bucket policy is that of a token bucket with its log. -/
structure Metered (rate cap : ℚ) (o : TokenBucket) : Prop where
  byteRate : o.byteRate = rate
  capacity : o.capacity = cap
  conforms : Conforms rate cap ⟨o.contingent, o.lastTime⟩ o.costs

theorem Metered.refill (h : Metered rate cap o) (hrate : 0 ≤ rate) (hcap : 0 ≤ cap)
    (hclock : ∀ t ∈ o.lastTime, t ≤ now) : Metered rate cap (o.refill now) := by
  obtain ⟨rfl, rfl, hconforms⟩ := h
  exact ⟨rfl, rfl, hconforms.refill hrate hcap hclock⟩

variable {ddc : Bool}

/-- Placing a frame on `output1` that the bucket has paid. -/
theorem Metered.spend (h : Metered rate cap o) (hrate : 0 ≤ rate) (hnow : o.lastTime = some now)
    (hfit : o.pktLength p ≤ o.contingent)
    (hsend : o.toLoadBalancer.send fresh now ddc .one p = .ok lb) :
    Metered rate cap { o with
      toLoadBalancer := lb
      contingent := o.contingent - o.pktLength p } := by
  refine ⟨h.byteRate, h.capacity, ?_⟩
  have hcosts : TokenBucket.costs { o with
      toLoadBalancer := lb
      contingent := o.contingent - o.pktLength p } = o.costs ++ [(now, o.pktLength p)] := by
    have hplaced : lb.placed = o.placed ++ [(now, p)] := send_placed hsend
    rw [costs, hplaced, map_append]
    rfl
  rw [hcosts]
  exact h.conforms.spend hrate hfit hnow

theorem Metered.divert (h : Metered rate cap o)
    (hsend : o.toLoadBalancer.send fresh now ddc .two p = .ok lb) :
    Metered rate cap { o with toLoadBalancer := lb } := by
  refine ⟨h.byteRate, h.capacity, ?_⟩
  have hcosts : TokenBucket.costs { o with toLoadBalancer := lb } = o.costs := by
    have hplaced : lb.placed = o.placed ++ [] := send_placed hsend
    rw [costs, hplaced, append_nil]
    rfl
  rw [hcosts]
  exact h.conforms

/-- The first loop pays for what it places on `output1`. -/
theorem Metered.sendFitting (hrate : 0 ≤ rate) :
    ∀ {o : TokenBucket}, Metered rate cap o → o.lastTime = some now →
      TokenBucket.sendFitting (fun port p lb => lb.send fresh now ddc port p) ps o =
        .ok (o', rest) →
      Metered rate cap o' ∧ o'.lastTime = some now := by
  induction ps with
  | nil =>
    intro o h hnow hs
    cases hs
    exact ⟨h, hnow⟩
  | cons p ps ih =>
    intro o h hnow hs
    simp only [TokenBucket.sendFitting] at hs
    split at hs
    · rename_i hfit
      obtain ⟨lb, hsend, hrest⟩ := bind_eq_ok hs
      exact ih (h.spend hrate hnow hfit hsend) hnow hrest
    · obtain ⟨lb, hsend, hret⟩ := bind_eq_ok hs
      cases hret
      exact ⟨h.divert hsend, hnow⟩

theorem Metered.sendRest {ps : List Packet} :
    ∀ {o : TokenBucket}, Metered rate cap o →
      ps.foldlM (TokenBucket.sendRest fun port p lb => lb.send fresh now ddc port p) o = .ok o' →
      Metered rate cap o' ∧ o'.lastTime = o.lastTime := by
  induction ps with
  | nil =>
    intro o h hs
    cases hs
    exact ⟨h, rfl⟩
  | cons p ps ih =>
    intro o h hs
    obtain ⟨o₁, hfirst, hrest⟩ := bind_eq_ok hs
    obtain ⟨lb, hsend, hret⟩ := bind_eq_ok hfirst
    cases hret
    obtain ⟨h', hlast⟩ := ih (h.divert hsend) hrest
    exact ⟨h', hlast⟩

theorem Metered.drained (h : Metered rate cap o) (inp : LoadBalancerInput) :
    Metered rate cap { o with toLoadBalancer := o.drained inp } :=
  ⟨h.byteRate, h.capacity, h.conforms⟩

/-- **A push of a token bucket policy works on its bucket by refilling and spending.** -/
theorem Metered.pushBy (fresh : Nat → Packet) (ddc : Bool) (hrate : 0 ≤ rate) (hcap : 0 ≤ cap)
    (h : Metered rate cap o) (hclock : ∀ t ∈ o.lastTime, t ≤ inp.now)
    (hpush : o.pushBy (fun port p lb => lb.send fresh inp.now ddc port p) inp = .ok o') :
    Metered rate cap o' ∧ (o'.lastTime = o.lastTime ∨ o'.lastTime = some inp.now) := by
  simp only [TokenBucket.pushBy] at hpush
  split at hpush
  · cases hpush
    exact ⟨h.drained inp, Or.inl rfl⟩
  · obtain ⟨⟨t, rest⟩, hfit, hrest⟩ := bind_eq_ok hpush
    obtain ⟨ht, hnow⟩ :=
      Metered.sendFitting hrate ((h.drained inp).refill hrate hcap hclock) rfl hfit
    obtain ⟨h', hlast⟩ := ht.sendRest hrest
    exact ⟨h', Or.inr (hlast.trans hnow)⟩

/-- A policy starts with the unscaled capacity in its bucket; the first refill cuts it
down to the scaled one. -/
theorem metered_new (c : Codec) (conf : TokenBucketConf) :
    Metered (new (.new c) conf).byteRate (new (.new c) conf).capacity (new (.new c) conf) ∧
      0 ≤ (new (.new c) conf).byteRate ∧ 0 ≤ (new (.new c) conf).capacity := by
  have hrate : (0 : ℚ) ≤ ⌊conf.rate * (conf.ratePercentage / 100) / 8⌋ := by
    have := mul_nonneg conf.rate_nonneg (div_nonneg conf.ratePercentage_nonneg (by norm_num :
      (0 : ℚ) ≤ 100))
    exact Int.cast_nonneg (Int.floor_nonneg.mpr (div_nonneg this (by norm_num)))
  have hcap : (0 : ℚ) ≤ ⌊conf.capacity * (conf.capacityPercentage / 100)⌋ :=
    Int.cast_nonneg (Int.floor_nonneg.mpr (mul_nonneg conf.capacity_nonneg
      (div_nonneg conf.capacityPercentage_nonneg (by norm_num))))
  exact ⟨⟨rfl, rfl, .fresh conf.capacity_nonneg rfl hcap hrate⟩, hrate, hcap⟩

end TokenBucket

namespace TokenBucketDDCSeries

open LoadBalancer TokenBucket

variable {fresh : Nat → Packet} {now rate cap : ℚ} {o o' : TokenBucketDDCSeries}
  {ps rest : List Packet} {inp : LoadBalancerInput} {sendDdc1 : Bool} {sendIndex2 : Nat}

/-- The first loop pays for what it places on `output1`, however it sends it. -/
theorem metered_sendFitting (hrate : 0 ≤ rate) :
    ∀ {sendDdc2 : Bool} {sendIndex1 : Nat} {o : TokenBucketDDCSeries},
      sendFitting fresh now sendDdc1 ps sendDdc2 sendIndex1 o = .ok (o', sendIndex2, rest) →
      Metered rate cap o.toTokenBucket → o.lastTime = some now →
      Metered rate cap o'.toTokenBucket ∧ o'.lastTime = some now := by
  induction ps with
  | nil =>
    intro sendDdc2 sendIndex1 o hs h hnow
    cases hs
    exact ⟨h, hnow⟩
  | cons p ps ih =>
    intro sendDdc2 sendIndex1 o hs h hnow
    simp only [sendFitting] at hs
    split at hs
    · rename_i hfit
      split at hs
      · obtain ⟨lb, hsend, hrest⟩ := bind_eq_ok hs
        exact ih hrest (h.spend hrate hnow hfit (send_of_sendPkt fresh hsend)) hnow
      · obtain ⟨lb, hsend, hrest⟩ := bind_eq_ok hs
        exact ih hrest (h.spend hrate hnow hfit (send_of_sendPktWithDdc fresh hsend)) hnow
    · split at hs
      · obtain ⟨lb, hsend, hret⟩ := bind_eq_ok hs
        cases hret
        exact ⟨h.divert (send_of_sendPkt fresh hsend), hnow⟩
      · obtain ⟨lb, hsend, hret⟩ := bind_eq_ok hs
        cases hret
        exact ⟨h.divert (send_of_sendPktWithDdc fresh hsend), hnow⟩

theorem metered_sendRest :
    ∀ {sendIndex2 : Nat} {o : TokenBucketDDCSeries}, sendRest fresh now ps sendIndex2 o = .ok o' →
      Metered rate cap o.toTokenBucket →
      Metered rate cap o'.toTokenBucket ∧ o'.lastTime = o.lastTime := by
  induction ps with
  | nil =>
    intro sendIndex2 o hs h
    cases hs
    exact ⟨h, rfl⟩
  | cons p ps ih =>
    intro sendIndex2 o hs h
    simp only [sendRest] at hs
    split at hs
    · obtain ⟨lb, hsend, hrest⟩ := bind_eq_ok hs
      obtain ⟨h', hlast⟩ := ih hrest (h.divert (send_of_sendPkt fresh hsend))
      exact ⟨h', hlast⟩
    · obtain ⟨lb, hsend, hrest⟩ := bind_eq_ok hs
      obtain ⟨h', hlast⟩ := ih hrest (h.divert (send_of_sendPktWithDdc fresh hsend))
      exact ⟨h', hlast⟩

theorem metered_push (hrate : 0 ≤ rate) (hcap : 0 ≤ cap) (h : Metered rate cap o.toTokenBucket)
    (hclock : ∀ t ∈ o.lastTime, t ≤ inp.now) (hpush : o.push fresh inp = .ok o') :
    Metered rate cap o'.toTokenBucket ∧
      (o'.lastTime = o.lastTime ∨ o'.lastTime = some inp.now) := by
  simp only [push] at hpush
  split at hpush
  · cases hpush
    exact ⟨h.drained inp, Or.inl rfl⟩
  · obtain ⟨⟨t, sendIndex2, rest⟩, hfit, hrest⟩ := bind_eq_ok hpush
    obtain ⟨ht, hnow⟩ :=
      metered_sendFitting hrate hfit ((h.drained inp).refill hrate hcap hclock) rfl
    obtain ⟨h', hlast⟩ := metered_sendRest hrest ht
    exact ⟨h', Or.inr (hlast.trans hnow)⟩

end TokenBucketDDCSeries

/-! ## All five -/

open TokenBucket in
/-- **The rate limiters and the token bucket policies conform to their rate**: on a
clock that does not go back, the rate limiters return, and in every interval the
packets they send cost at most the capacity and what the rate gives; so do the frames
that a token bucket policy places on `output1`, with the scaled capacity and rate. -/
theorem conform_to_rate (fresh : Nat → Packet) :
    (∀ conf o (inputs : List RateLimiterInput), RateLimiter.new conf = .ok o →
      inputs.Pairwise (fun a b => a.now ≤ b.now) →
      (∃ o', run TBRateLimiter.push o inputs = .ok o' ∧
        WithinRate o.byteRate o.bucketCapacity o'.costs) ∧
      (∃ o', run RateLimiterTS.push o inputs = .ok o' ∧
        WithinRate o.byteRate o.bucketCapacity o'.costs)) ∧
    (∀ c conf (inputs : List LoadBalancerInput), inputs.Pairwise (fun a b => a.now ≤ b.now) →
      (∀ o', run TokenBucket.push (.new (.new c) conf) inputs = .ok o' →
        WithinRate (new (.new c) conf).byteRate (new (.new c) conf).capacity o'.costs) ∧
      (∀ o', run (TokenBucketDDC.push fresh) (.new (.new c) conf) inputs = .ok o' →
        WithinRate (new (.new c) conf).byteRate (new (.new c) conf).capacity o'.costs) ∧
      (∀ ddcLink ddcSkipLimit o',
        run (TokenBucketDDCSeries.push fresh) ⟨.new (.new c) conf, ddcLink, ddcSkipLimit⟩ inputs =
          .ok o' →
        WithinRate (new (.new c) conf).byteRate (new (.new c) conf).capacity o'.costs)) := by
  constructor
  · intro conf o inputs hnew hclock
    exact ⟨RateLimiter.run_within_rate (fun _ _ p => p) (fun _ _ => rfl) hnew hclock,
      RateLimiter.run_within_rate RateLimiterTS.stamp (fun _ _ => rfl) hnew hclock⟩
  · intro c conf inputs hclock
    obtain ⟨hmetered, hrate, hcap⟩ := metered_new c conf
    refine ⟨fun o' hrun => ?_, fun o' hrun => ?_, fun ddcLink ddcSkipLimit o' hrun => ?_⟩
    · have hend := run_clock TokenBucket.lastTime LoadBalancerInput.now
        (fun s inp s' hs hpast hstep => Metered.pushBy fresh false hrate hcap hs hpast hstep)
        hmetered rfl hclock hrun
      exact hend.conforms.window
    · have hend := run_clock TokenBucket.lastTime LoadBalancerInput.now
        (fun s inp s' hs hpast hstep => Metered.pushBy fresh true hrate hcap hs hpast hstep)
        hmetered rfl hclock hrun
      exact hend.conforms.window
    · have hend := run_clock (I := fun o => Metered _ _ o.toTokenBucket)
        (fun o : TokenBucketDDCSeries => o.lastTime) LoadBalancerInput.now
        (fun s inp s' hs hpast hstep => TokenBucketDDCSeries.metered_push hrate hcap hs hpast hstep)
        hmetered rfl hclock hrun
      exact hend.conforms.window

/-- A rate limiter with a packet that waits, and a load balancer that sends its second
frame to `output2` with a DDC packet on `output1`. -/
theorem conform_to_rate_waiting :
    (∃ o o', RateLimiter.new .sample = .ok o ∧
      run TBRateLimiter.push o [.finding 0 0 [276, 300], .finding 400 2 []] = .ok o' ∧
      WithinRate o.byteRate o.bucketCapacity o'.costs) ∧
    ∃ o', run (TokenBucketDDCSeries.push ordinaryFrame)
        ⟨.new (.new .eth) .sample, 1, 0⟩ [.finding 0 0 [300, 300], .finding 400 2 [60]] = .ok o' ∧
      WithinRate 1 400 o'.costs ∧ o'.costs.length = 2 := by
  have hclock : [RateLimiterInput.finding 0 0 [276, 300], .finding 400 2 []].Pairwise
      fun a b => a.now ≤ b.now := by decide +kernel
  have hclock' : [LoadBalancerInput.finding 0 0 [300, 300], .finding 400 2 [60]].Pairwise
      fun a b => a.now ≤ b.now := by decide +kernel
  constructor
  · obtain ⟨o, hnew, -⟩ := ok_of_any (q := fun _ => true)
      (by decide +kernel : (RateLimiter.new .sample).toOption.any _ = true)
    obtain ⟨o', hrun, hwithin⟩ :=
      ((conform_to_rate ordinaryFrame).1 .sample o _ hnew hclock).1
    exact ⟨o, o', hnew, hrun, hwithin⟩
  · refine exists_ok_of_any (fun o => o.costs.length = 2)
      (by decide +kernel) fun o' hrun hlength => ?_
    have hwithin := ((conform_to_rate ordinaryFrame).2 .eth .sample _ hclock').2.2 1 0 o' hrun
    have hrate : (TokenBucket.new (.new .eth) .sample).byteRate = 1 := by decide +kernel
    have hcap : (TokenBucket.new (.new .eth) .sample).capacity = 400 := by decide +kernel
    rw [hrate, hcap] at hwithin
    exact ⟨hwithin, hlength⟩

end Snabb
