import Snabb.HybridAccess.LoadBalancer.Base
import Mathlib.Data.Rat.Floor

/-!
# The six policies (`single_link.lua`, `roundrobin.lua`, `weighted_roundrobin.lua`,
`tokenbucket.lua`, `tokenbucket_ddc.lua`, `tokenbucket_ddc_series.lua`)

A policy decides for every frame on which output it leaves and, in the last two,
whether a DDC packet goes along. `TokenBucket` and `TokenBucketDDC` are one program
with two ways to send; the series variant keeps counters to decide.

`Balancer` is a load balancer of any policy. `push_sends` is the only fact about
the policies that does not depend on which one it is: a push that returns has sent
the waiting frames in their order.
-/

namespace Snabb

open Foundation LoadBalancer

/-! ## `SingleLink`, `RoundRobin`, `WeightedRoundRobin` -/

/-- `SingleLink:push`. -/
def SingleLink.push (o : LoadBalancer) (inp : LoadBalancerInput) : Except Raise LoadBalancer :=
  inp.input.packets.foldlM (fun o p => o.sendPkt inp.now p .one) (o.drained inp)

structure RoundRobin extends LoadBalancer where
  flip : Bool

namespace RoundRobin

/-- `RoundRobin:new`. -/
def new (lb : LoadBalancer) : RoundRobin where
  toLoadBalancer := lb
  flip := false

def processPacket (now : ℚ) (o : RoundRobin) (p : Packet) : Except Raise RoundRobin := do
  let lb ← o.toLoadBalancer.sendPkt now p (if o.flip then .one else .two)
  return { o with toLoadBalancer := lb, flip := !o.flip }

def push (o : RoundRobin) (inp : LoadBalancerInput) : Except Raise RoundRobin :=
  inp.input.packets.foldlM (processPacket inp.now) { o with toLoadBalancer := o.drained inp }

end RoundRobin

/-- `w1` and `w2` are the bounds that `new` computes from the bandwidths. -/
structure WeightedRoundRobin extends LoadBalancer where
  index : ℚ
  w1 : ℚ
  w2 : ℚ

namespace WeightedRoundRobin

/-- The body of the loop of `push`. -/
def processPacket (now : ℚ) (o : WeightedRoundRobin) (p : Packet) :
    Except Raise WeightedRoundRobin := do
  if o.index < o.w1 then
    let lb ← o.toLoadBalancer.sendPkt now p .one
    return { o with toLoadBalancer := lb, index := o.index + 1 }
  else if o.index < o.w2 then
    let lb ← o.toLoadBalancer.sendPkt now p .two
    return { o with toLoadBalancer := lb, index := o.index + 1 }
  else
    let lb ← o.toLoadBalancer.sendPkt now p .one
    return { o with toLoadBalancer := lb, index := 0 + 1 }

def push (o : WeightedRoundRobin) (inp : LoadBalancerInput) : Except Raise WeightedRoundRobin :=
  inp.input.packets.foldlM (processPacket inp.now) { o with toLoadBalancer := o.drained inp }

end WeightedRoundRobin

/-! ## `TokenBucket` and `TokenBucketDDC` -/

/-- The configuration of the token bucket policies: `rate` in bit/s, `capacity` in
byte, and the percentages by which both are multiplied. -/
structure TokenBucketConf where
  rate : ℚ
  capacity : ℚ
  ratePercentage : ℚ
  capacityPercentage : ℚ
  layer1Overhead : Bool
  rate_nonneg : 0 ≤ rate
  capacity_nonneg : 0 ≤ capacity
  ratePercentage_nonneg : 0 ≤ ratePercentage
  capacityPercentage_nonneg : 0 ≤ capacityPercentage

/-- A policy of 1 byte/s with a bucket of 400 byte, not scaled. -/
def TokenBucketConf.sample : TokenBucketConf where
  rate := 8
  capacity := 400
  ratePercentage := 100
  capacityPercentage := 100
  layer1Overhead := true
  rate_nonneg := by decide
  capacity_nonneg := by decide
  ratePercentage_nonneg := by decide
  capacityPercentage_nonneg := by decide

structure TokenBucket extends LoadBalancer where
  byteRate : ℚ
  capacity : ℚ
  contingent : ℚ
  additionalOverhead : ℚ
  minPktSize : ℚ
  lastTime : Option ℚ

namespace TokenBucket

/-- What the three `new` functions share. -/
def new (lb : LoadBalancer) (conf : TokenBucketConf) : TokenBucket where
  toLoadBalancer := lb
  byteRate := ⌊conf.rate * (conf.ratePercentage / 100) / 8⌋
  capacity := ⌊conf.capacity * (conf.capacityPercentage / 100)⌋
  contingent := conf.capacity
  additionalOverhead := haHeaderLen + if conf.layer1Overhead then 7 + 1 + 4 + 12 else 0
  minPktSize := if conf.layer1Overhead then 84 else 64
  lastTime := none

/-- What a packet costs: the local `length` of the loops. -/
def pktLength (o : TokenBucket) (p : Packet) : ℚ :=
  max (p.length + o.additionalOverhead) o.minPktSize

def refill (now : ℚ) (o : TokenBucket) : TokenBucket :=
  let interval := now - o.lastTime.getD now
  { o with
    contingent := min (o.contingent + o.byteRate * interval) o.capacity
    lastTime := some now }

variable (send : LinkNo → Packet → LoadBalancer → Except Raise LoadBalancer)

/-- The first loop of `push`; it returns what is left on the input link. -/
def sendFitting : List Packet → TokenBucket → Except Raise (TokenBucket × List Packet)
  | [], o => .ok (o, [])
  | p :: rest, o =>
    let length := o.pktLength p
    if length ≤ o.contingent then do
      let lb ← send .one p o.toLoadBalancer
      sendFitting rest { o with toLoadBalancer := lb, contingent := o.contingent - length }
    else do
      let lb ← send .two p o.toLoadBalancer
      return ({ o with toLoadBalancer := lb }, rest)

/-- The second loop of `push`: send the rest of the packets to output 2. -/
def sendRest (o : TokenBucket) (p : Packet) : Except Raise TokenBucket := do
  let lb ← send .two p o.toLoadBalancer
  return { o with toLoadBalancer := lb }

/-- The body of both `push` functions. -/
def pushBy (o : TokenBucket) (inp : LoadBalancerInput) : Except Raise TokenBucket :=
  let o := { o with toLoadBalancer := o.drained inp }
  if inp.input.packets.isEmpty then
    .ok o
  else do
    let (o, rest) ← sendFitting send inp.input.packets (o.refill inp.now)
    rest.foldlM (sendRest send) o

def push (o : TokenBucket) (inp : LoadBalancerInput) : Except Raise TokenBucket :=
  pushBy (fun port p lb => lb.sendPkt inp.now p port) o inp

end TokenBucket

/-- `TokenBucketDDC:push`. -/
def TokenBucketDDC.push (fresh : Nat → Packet) (o : TokenBucket) (inp : LoadBalancerInput) :
    Except Raise TokenBucket :=
  o.pushBy (fun port p lb => lb.sendPktWithDdc fresh inp.now p port port.other) inp

/-! ## `TokenBucketDDCSeries` -/

structure TokenBucketDDCSeries extends TokenBucket where
  ddcLink : Nat
  ddcSkipLimit : Int

namespace TokenBucketDDCSeries

variable (fresh : Nat → Packet)

/-- The test of both loops: how many packets may go without a DDC packet. -/
def maySkip (o : TokenBucketDDCSeries) (sendIndex : Nat) : Bool :=
  o.ddcSkipLimit ≤ 0 || (sendIndex : Int) < o.ddcSkipLimit

/-- The first loop of `push`, with its locals as arguments. It returns
`send_index_2` and what is left on the input link. -/
def sendFitting (now : ℚ) (sendDdc1 : Bool) :
    List Packet → Bool → Nat → TokenBucketDDCSeries →
      Except Raise (TokenBucketDDCSeries × Nat × List Packet)
  | [], _, _, o => .ok (o, 0, [])
  | p :: rest, sendDdc2, sendIndex1, o =>
    let length := o.pktLength p
    if length ≤ o.contingent then
      let o := { o with contingent := o.contingent - length }
      if !sendDdc2 && o.maySkip sendIndex1 then do
        let lb ← o.toLoadBalancer.sendPkt now p .one
        sendFitting now sendDdc1 rest sendDdc2 (sendIndex1 + 1) { o with toLoadBalancer := lb }
      else do
        let lb ← o.toLoadBalancer.sendPktWithDdc fresh now p .one .two
        sendFitting now sendDdc1 rest false 1 { o with toLoadBalancer := lb }
    else if !sendDdc1 && o.maySkip 0 then do
      let lb ← o.toLoadBalancer.sendPkt now p .two
      return ({ o with toLoadBalancer := lb }, 0 + 1, rest)
    else do
      let lb ← o.toLoadBalancer.sendPktWithDdc fresh now p .two .one
      return ({ o with toLoadBalancer := lb }, 1, rest)

/-- The second loop of `push`: the DDC packet was already sent. -/
def sendRest (now : ℚ) : List Packet → Nat → TokenBucketDDCSeries →
    Except Raise TokenBucketDDCSeries
  | [], _, o => .ok o
  | p :: rest, sendIndex2, o =>
    if o.maySkip sendIndex2 then do
      let lb ← o.toLoadBalancer.sendPkt now p .two
      sendRest now rest (sendIndex2 + 1) { o with toLoadBalancer := lb }
    else do
      let lb ← o.toLoadBalancer.sendPktWithDdc fresh now p .two .one
      sendRest now rest 1 { o with toLoadBalancer := lb }

def push (o : TokenBucketDDCSeries) (inp : LoadBalancerInput) :
    Except Raise TokenBucketDDCSeries :=
  let o := { o with toLoadBalancer := o.drained inp }
  if inp.input.packets.isEmpty then
    .ok o
  else do
    let o := { o with toTokenBucket := o.refill inp.now }
    let sendDdc1 := o.ddcLink == 1 || o.ddcLink == 0
    let sendDdc2 := o.ddcLink == 2 || o.ddcLink == 0
    -- the counters are locals: each push counts from 0 again
    let (o, sendIndex2, rest) ← sendFitting fresh inp.now sendDdc1 inp.input.packets sendDdc2 0 o
    sendRest fresh inp.now rest sendIndex2 o

end TokenBucketDDCSeries

/-! ## Any policy -/

/-- A load balancer of any policy. -/
inductive Balancer where
  | singleLink (o : LoadBalancer)
  | roundRobin (o : RoundRobin)
  | weightedRoundRobin (o : WeightedRoundRobin)
  | tokenBucket (o : TokenBucket)
  | tokenBucketDDC (o : TokenBucket)
  | tokenBucketDDCSeries (o : TokenBucketDDCSeries)

namespace Balancer

/-- The state of the base class. -/
def lb : Balancer → LoadBalancer
  | singleLink o => o
  | roundRobin o => o.toLoadBalancer
  | weightedRoundRobin o => o.toLoadBalancer
  | tokenBucket o => o.toLoadBalancer
  | tokenBucketDDC o => o.toLoadBalancer
  | tokenBucketDDCSeries o => o.toLoadBalancer

/-- Whether the policy sends DDC packets. -/
def usesDdc : Balancer → Bool
  | tokenBucketDDC _ => true
  | tokenBucketDDCSeries _ => true
  | _ => false

def push (fresh : Nat → Packet) : Balancer → LoadBalancerInput → Except Raise Balancer
  | singleLink o, inp => (SingleLink.push o inp).map singleLink
  | roundRobin o, inp => (o.push inp).map roundRobin
  | weightedRoundRobin o, inp => (o.push inp).map weightedRoundRobin
  | tokenBucket o, inp => (o.push inp).map tokenBucket
  | tokenBucketDDC o, inp => (TokenBucketDDC.push fresh o inp).map tokenBucketDDC
  | tokenBucketDDCSeries o, inp => (o.push fresh inp).map tokenBucketDDCSeries

end Balancer

/-! ## Every policy sends the frames in their order -/

section Sends

variable {fresh : Nat → Packet} {now : ℚ} {ps : List Packet}

theorem sends_foldlM {σ : Type} (lbOf : σ → LoadBalancer) {f : σ → Packet → Except Raise σ}
    (hf : ∀ o p o', f o p = .ok o' →
      ∃ ddc port, (lbOf o).send fresh now ddc port p = .ok (lbOf o')) :
    ∀ {o o' : σ}, ps.foldlM f o = .ok o' → Sends fresh now (lbOf o) ps (lbOf o') := by
  induction ps with
  | nil =>
    intro o o' h
    cases h
    exact .nil _
  | cons p ps ih =>
    intro o o' h
    obtain ⟨o₁, hfirst, hrest⟩ := bind_eq_ok h
    obtain ⟨ddc, port, hsend⟩ := hf o p o₁ hfirst
    exact .cons hsend (ih hrest)

variable {inp : LoadBalancerInput}

theorem SingleLink.push_sends {o o' : LoadBalancer} (h : SingleLink.push o inp = .ok o') :
    Sends fresh inp.now (o.drained inp) inp.input.packets o' :=
  sends_foldlM id (fun _ _ _ h => ⟨false, .one, h⟩) h

theorem RoundRobin.push_sends {o o' : RoundRobin} (h : o.push inp = .ok o') :
    Sends fresh inp.now (o.drained inp) inp.input.packets o'.toLoadBalancer := by
  refine sends_foldlM RoundRobin.toLoadBalancer (fun o p o' h => ?_) h
  obtain ⟨lb, hsend, hret⟩ := bind_eq_ok h
  cases hret
  exact ⟨false, _, hsend⟩

theorem WeightedRoundRobin.push_sends {o o' : WeightedRoundRobin} (h : o.push inp = .ok o') :
    Sends fresh inp.now (o.drained inp) inp.input.packets o'.toLoadBalancer := by
  refine sends_foldlM WeightedRoundRobin.toLoadBalancer (fun o p o' h => ?_) h
  simp only [processPacket] at h
  split at h
  · obtain ⟨lb, hsend, hret⟩ := bind_eq_ok h
    cases hret
    exact ⟨false, .one, hsend⟩
  · split at h
    · obtain ⟨lb, hsend, hret⟩ := bind_eq_ok h
      cases hret
      exact ⟨false, .two, hsend⟩
    · obtain ⟨lb, hsend, hret⟩ := bind_eq_ok h
      cases hret
      exact ⟨false, .one, hsend⟩

namespace TokenBucket

variable {ddc : Bool} {rest : List Packet}

/-- The first loop sends the frames up to the one that does not fit. -/
theorem sendFitting_sends :
    ∀ {o o' : TokenBucket}, sendFitting (fun port p lb => lb.send fresh now ddc port p) ps o =
        .ok (o', rest) →
      ∃ used, ps = used ++ rest ∧ Sends fresh now o.toLoadBalancer used o'.toLoadBalancer := by
  induction ps with
  | nil =>
    intro o o' h
    cases h
    exact ⟨[], rfl, .nil _⟩
  | cons p ps ih =>
    intro o o' h
    simp only [sendFitting] at h
    split at h
    · obtain ⟨lb, hsend, hrest⟩ := bind_eq_ok h
      obtain ⟨used, hused, hsends⟩ := ih hrest
      exact ⟨p :: used, by rw [hused]; rfl, .cons hsend hsends⟩
    · obtain ⟨lb, hsend, hret⟩ := bind_eq_ok h
      cases hret
      exact ⟨[p], rfl, .single hsend⟩

theorem pushBy_sends (ddc : Bool) {o o' : TokenBucket}
    (h : o.pushBy (fun port p lb => lb.send fresh inp.now ddc port p) inp = .ok o') :
    Sends fresh inp.now (o.drained inp) inp.input.packets o'.toLoadBalancer := by
  simp only [pushBy] at h
  split at h
  · rename_i hempty
    cases h
    rw [List.isEmpty_iff.mp hempty]
    exact .nil _
  · obtain ⟨⟨t, rest⟩, hfit, hrest⟩ := bind_eq_ok h
    obtain ⟨used, hused, hsends⟩ := sendFitting_sends hfit
    rw [hused]
    refine hsends.append (sends_foldlM TokenBucket.toLoadBalancer (fun o p o' h => ?_) hrest)
    obtain ⟨lb, hsend, hret⟩ := bind_eq_ok h
    cases hret
    exact ⟨ddc, .two, hsend⟩

end TokenBucket

namespace TokenBucketDDCSeries

variable {sendDdc1 sendDdc2 : Bool} {sendIndex1 sendIndex2 : Nat} {rest : List Packet}

theorem sendFitting_sends :
    ∀ {sendDdc2 : Bool} {sendIndex1 : Nat} {o o' : TokenBucketDDCSeries},
      sendFitting fresh now sendDdc1 ps sendDdc2 sendIndex1 o = .ok (o', sendIndex2, rest) →
      ∃ used, ps = used ++ rest ∧ Sends fresh now o.toLoadBalancer used o'.toLoadBalancer := by
  induction ps with
  | nil =>
    intro sendDdc2 sendIndex1 o o' h
    cases h
    exact ⟨[], rfl, .nil _⟩
  | cons p ps ih =>
    intro sendDdc2 sendIndex1 o o' h
    simp only [sendFitting] at h
    split at h
    · split at h
      · obtain ⟨lb, hsend, hrest⟩ := bind_eq_ok h
        obtain ⟨used, hused, hsends⟩ := ih hrest
        exact ⟨p :: used, by rw [hused]; rfl, .cons (send_of_sendPkt fresh hsend) hsends⟩
      · obtain ⟨lb, hsend, hrest⟩ := bind_eq_ok h
        obtain ⟨used, hused, hsends⟩ := ih hrest
        exact ⟨p :: used, by rw [hused]; rfl, .cons (send_of_sendPktWithDdc fresh hsend) hsends⟩
    · split at h
      · obtain ⟨lb, hsend, hret⟩ := bind_eq_ok h
        cases hret
        exact ⟨[p], rfl, .single (send_of_sendPkt fresh hsend)⟩
      · obtain ⟨lb, hsend, hret⟩ := bind_eq_ok h
        cases hret
        exact ⟨[p], rfl, .single (send_of_sendPktWithDdc fresh hsend)⟩

theorem sendRest_sends :
    ∀ {sendIndex2 : Nat} {o o' : TokenBucketDDCSeries},
      sendRest fresh now ps sendIndex2 o = .ok o' →
      Sends fresh now o.toLoadBalancer ps o'.toLoadBalancer := by
  induction ps with
  | nil =>
    intro sendIndex2 o o' h
    cases h
    exact .nil _
  | cons p ps ih =>
    intro sendIndex2 o o' h
    simp only [sendRest] at h
    split at h
    · obtain ⟨lb, hsend, hrest⟩ := bind_eq_ok h
      exact .cons (send_of_sendPkt fresh hsend) (ih hrest)
    · obtain ⟨lb, hsend, hrest⟩ := bind_eq_ok h
      exact .cons (send_of_sendPktWithDdc fresh hsend) (ih hrest)

theorem push_sends {o o' : TokenBucketDDCSeries} (h : o.push fresh inp = .ok o') :
    Sends fresh inp.now (o.drained inp) inp.input.packets o'.toLoadBalancer := by
  simp only [push] at h
  split at h
  · rename_i hempty
    cases h
    rw [List.isEmpty_iff.mp hempty]
    exact .nil _
  · obtain ⟨⟨t, sendIndex2, rest⟩, hfit, hrest⟩ := bind_eq_ok h
    obtain ⟨used, hused, hsends⟩ := sendFitting_sends hfit
    rw [hused]
    exact hsends.append (sendRest_sends hrest)

end TokenBucketDDCSeries

/-- **A push of any policy sends the waiting frames in their order.** -/
theorem Balancer.push_sends {b b' : Balancer} (h : b.push fresh inp = .ok b') :
    Sends fresh inp.now (b.lb.drained inp) inp.input.packets b'.lb := by
  cases b with
  | singleLink o =>
    obtain ⟨o', ho', rfl⟩ := map_eq_ok h
    exact SingleLink.push_sends ho'
  | roundRobin o =>
    obtain ⟨o', ho', rfl⟩ := map_eq_ok h
    exact RoundRobin.push_sends ho'
  | weightedRoundRobin o =>
    obtain ⟨o', ho', rfl⟩ := map_eq_ok h
    exact WeightedRoundRobin.push_sends ho'
  | tokenBucket o =>
    obtain ⟨o', ho', rfl⟩ := map_eq_ok h
    exact TokenBucket.pushBy_sends false ho'
  | tokenBucketDDC o =>
    obtain ⟨o', ho', rfl⟩ := map_eq_ok h
    exact TokenBucket.pushBy_sends true ho'
  | tokenBucketDDCSeries o =>
    obtain ⟨o', ho', rfl⟩ := map_eq_ok h
    exact TokenBucketDDCSeries.push_sends ho'

end Sends

end Snabb
