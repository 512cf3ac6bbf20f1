import Snabb.Core.Packet
import Snabb.Foundation.Run
import Snabb.Foundation.TokenBucket
import Mathlib.Algebra.Order.Floor.Ring
import Mathlib.Algebra.Order.Floor.Semiring
import Mathlib.Data.Rat.Floor
import Mathlib.Tactic.Positivity

/-!
# Lazy token buckets (`lib/token_bucket.lua`)

A bucket is filled at a rate up to its burst size. It is brought up to date in a lazy fashion:
only a request that cannot be satisfied from the tokens that are there looks at the clock, adds
the whole tokens that have accrued since the time stamp, and moves the time stamp on by as many
times the ticks of a token.

A token arrives at the times `t₀ + j * tpt`; `slot` numbers them. On these numbers the bucket
is a `Foundation.Bucket` with rate 1, `Represents`, as long as laziness makes no difference.
It does when tokens are granted without a look at the clock although more has accrued than
the bucket can hold: what should have been cut off is still granted afterwards. `Timely` is the
condition that this does not happen.

The ticks of a token are a whole number. `Exact` says that nothing is lost by this.

Lua numbers are rationals here, times are `uint64_t`. On whole numbers up to `2 ^ 53` the doubles
of Lua are exact, and a timely bucket holds no others.
-/

namespace Snabb.Lib

open Foundation List

/-- The fields of a token bucket. -/
structure TokenBucket where
  rate : ℚ
  /-- Ticks per token. -/
  tpt : UInt64
  burstSize : ℚ
  tokens : ℚ
  tstamp : UInt64
deriving DecidableEq, Repr

/-- The calls of a token bucket; the number of tokens defaults to 1. -/
inductive TakeCall where
  | canTake (n : Option ℚ)
  | take (n : Option ℚ)
  | takeBurst
deriving DecidableEq, Repr

/-- What a call returns. -/
inductive TakeAnswer where
  | bool (b : Bool)
  | number (n : ℚ)
deriving DecidableEq, Repr

namespace TokenBucket

/-- `token_bucket:set`, at time `now` of a clock with `tps` ticks per second. -/
def set (tps : UInt64) (tb : TokenBucket) (rate burstSize : Option ℚ) (now : UInt64) :
    Except Raise TokenBucket := do
  let tb ← match rate with
    | none => pure tb
    | some rate =>
      if 0 < rate then
        pure { tb with rate := rate, tpt := UInt64.ofNat ⌊(tps.toNat : ℚ) / rate⌋₊ }
      else throw .assertionFailed
  let burstSize : ℚ := ⌈burstSize.getD tb.rate⌉
  return { tb with burstSize := burstSize, tokens := burstSize, tstamp := now }

/-- `new`. -/
def new (tps : UInt64) (rate : ℚ) (burstSize : Option ℚ) (now : UInt64) :
    Except Raise TokenBucket :=
  set tps ⟨0, 0, 0, 0, 0⟩ (some rate) burstSize now

/-- The division of two `uint64_t` in LuaJIT, which is defined also where the divisor is 0. -/
def divide (a b : UInt64) : UInt64 := if b = 0 then 0x8000000000000000 else a / b

/-- `token_bucket:can_take`, at time `now`. -/
def canTake (tb : TokenBucket) (n : ℚ) (now : UInt64) : Bool × TokenBucket :=
  if n ≤ tb.tokens then (true, tb)
  else
    let elapsed := now - tb.tstamp
    if tb.tpt ≤ elapsed then
      let freshTokens := divide elapsed tb.tpt
      let tokens := tb.tokens + freshTokens.toNat
      let tb := { tb with
        tstamp := tb.tstamp + tb.tpt * freshTokens
        tokens := if tb.burstSize < tokens then tb.burstSize else tokens }
      (n ≤ tb.tokens, tb)
    else (false, tb)

/-- `token_bucket:take`. -/
def take (tb : TokenBucket) (n : ℚ) (now : UInt64) : Bool × TokenBucket :=
  let (can, tb) := tb.canTake n now
  if can then (true, { tb with tokens := tb.tokens - n }) else (false, tb)

/-- `token_bucket:take_burst`. -/
def takeBurst (tb : TokenBucket) (now : UInt64) : ℚ × TokenBucket :=
  let (_, tb) := tb.canTake tb.burstSize now
  (tb.tokens, { tb with tokens := 0 })

/-- A call at time `now`. -/
def call (tb : TokenBucket) (now : UInt64) : TakeCall → TakeAnswer × TokenBucket
  | .canTake n =>
    let (b, tb) := tb.canTake (n.getD 1) now
    (.bool b, tb)
  | .take n =>
    let (b, tb) := tb.take (n.getD 1) now
    (.bool b, tb)
  | .takeBurst =>
    let (n, tb) := tb.takeBurst now
    (.number n, tb)

/-- The whole tokens that have accrued since the time stamp. -/
def accrued (tb : TokenBucket) (now : UInt64) : Nat := ((now - tb.tstamp) / tb.tpt).toNat

/-- If a call is granted tokens without a look at the clock, then no more has accrued than the
bucket can hold. Nobody takes a negative number of tokens, or a part of one. -/
def Timely (tb : TokenBucket) (now : UInt64) : TakeCall → Prop
  | .canTake _ => True
  | .take n =>
    (n.getD 1).isInt ∧ 0 ≤ n.getD 1 ∧
      (0 < n.getD 1 ∧ n.getD 1 ≤ tb.tokens → tb.tokens + tb.accrued now ≤ tb.burstSize)
  | .takeBurst =>
    0 < tb.tokens ∧ tb.burstSize ≤ tb.tokens → tb.tokens + tb.accrued now ≤ tb.burstSize

instance (tb : TokenBucket) (now : UInt64) : ∀ c : TakeCall, Decidable (tb.Timely now c)
  | .canTake _ => isTrue trivial
  | .take n => inferInstanceAs (Decidable ((n.getD 1).isInt ∧ 0 ≤ n.getD 1 ∧
      (0 < n.getD 1 ∧ n.getD 1 ≤ tb.tokens → tb.tokens + tb.accrued now ≤ tb.burstSize)))
  | .takeBurst => inferInstanceAs (Decidable (0 < tb.tokens ∧ tb.burstSize ≤ tb.tokens →
      tb.tokens + tb.accrued now ≤ tb.burstSize))

/-- A token takes a whole number of ticks, the burst size is not negative, and these numbers are
of a size that doubles hold exactly. -/
structure Exact (tps : UInt64) (rate : ℚ) (burstSize : Option ℚ) : Prop where
  ticks : ∃ tpt : Nat, 0 < tpt ∧ tpt ≤ 2 ^ 53 ∧ (tps.toNat : ℚ) = tpt * rate
  tps_le : tps.toNat ≤ 2 ^ 53
  burst : 0 ≤ ⌈burstSize.getD rate⌉
  burst_le : ⌈burstSize.getD rate⌉ ≤ 2 ^ 53

end TokenBucket

/-! ## Buckets in use -/

/-- A call, when it was made, and what it returned. -/
structure TakeEvent where
  now : UInt64
  call : TakeCall
  answer : TakeAnswer
deriving DecidableEq, Repr

/-- The tokens that a call was granted. -/
def TakeEvent.granted (e : TakeEvent) : ℚ :=
  match e.call, e.answer with
  | .take n, .bool true => n.getD 1
  | .takeBurst, .number n => n
  | _, _ => 0

/-- A bucket and the calls that were made. -/
structure MeteredBucket where
  bucket : TokenBucket
  log : List TakeEvent
deriving DecidableEq, Repr

namespace MeteredBucket

/-- One call. None raises. -/
def step (m : MeteredBucket) (c : UInt64 × TakeCall) : Except Empty MeteredBucket :=
  let (answer, bucket) := m.bucket.call c.1 c.2
  .ok ⟨bucket, m.log ++ [⟨c.1, c.2, answer⟩]⟩

/-- The tokens that were granted between two times. -/
def granted (m : MeteredBucket) (t₁ t₂ : UInt64) : ℚ :=
  ((m.log.filter fun e => t₁ ≤ e.now ∧ e.now ≤ t₂).map TakeEvent.granted).sum

/-- The condition on one call. -/
def Timely (m : MeteredBucket) (c : UInt64 × TakeCall) : Prop := m.bucket.Timely c.1 c.2

instance (m : MeteredBucket) (c : UInt64 × TakeCall) : Decidable (m.Timely c) :=
  inferInstanceAs (Decidable (m.bucket.Timely c.1 c.2))

end MeteredBucket

/-! ## What is there at a time -/

/-- The number of tokens that arrive from `t₀` to `t`. -/
def slot (t₀ tpt t : UInt64) : Nat := (t.toNat - t₀.toNat) / tpt.toNat

theorem slot_mono (t₀ tpt : UInt64) {t t' : UInt64} (h : t ≤ t') : slot t₀ tpt t ≤ slot t₀ tpt t' :=
  Nat.div_le_div_right (Nat.sub_le_sub_right (UInt64.le_iff_toNat_le.mp h) _)

namespace TokenBucket

/-- The time stamp is in the past and one of the times at which a token arrives, and no part of a
token was taken. -/
structure Good (t₀ : UInt64) (tb : TokenBucket) (now : UInt64) : Prop where
  tpt_pos : 0 < tb.tpt.toNat
  stamped : ∃ j, tb.tstamp.toNat = t₀.toNat + tb.tpt.toNat * j
  past : tb.tstamp ≤ now
  nonneg : 0 ≤ tb.tokens
  le_burst : tb.tokens ≤ tb.burstSize
  tokens_whole : ∃ k : ℤ, tb.tokens = k
  burst_whole : ∃ k : ℤ, tb.burstSize = k

/-- The tokens that a bucket has at a time, if it were brought up to date. -/
def available (tb : TokenBucket) (t : UInt64) : ℚ := min (tb.tokens + tb.accrued t) tb.burstSize

variable {t₀ now t : UInt64} {tb tb' : TokenBucket} {n : ℚ}

section

variable (h : Good t₀ tb now)
include h

theorem Good.later (ht : now ≤ t) : Good t₀ tb t :=
  { h with past := UInt64.le_trans h.past ht }

theorem Good.accrued_eq : tb.accrued now = (now.toNat - tb.tstamp.toNat) / tb.tpt.toNat := by
  rw [accrued, UInt64.toNat_div, UInt64.toNat_sub_of_le _ _ h.past]

/-- What has accrued are the tokens that have arrived since the time stamp. -/
theorem Good.slot_eq : slot t₀ tb.tpt now = slot t₀ tb.tpt tb.tstamp + tb.accrued now := by
  obtain ⟨j, hj⟩ := h.stamped
  have hle := UInt64.le_iff_toNat_le.mp h.past
  have hslot : slot t₀ tb.tpt tb.tstamp = j := by
    rw [slot, hj, Nat.add_sub_cancel_left, Nat.mul_div_cancel_left j h.tpt_pos]
  have hgap : now.toNat - t₀.toNat = now.toNat - tb.tstamp.toNat + tb.tpt.toNat * j := by omega
  rw [hslot, h.accrued_eq, slot, hgap, Nat.add_mul_div_left _ _ h.tpt_pos, Nat.add_comm]

theorem Good.accrued_add (ht : now ≤ t) :
    (tb.accrued t : ℚ) = tb.accrued now + ((slot t₀ tb.tpt t : ℚ) - slot t₀ tb.tpt now) := by
  rw [h.slot_eq, (h.later ht).slot_eq]
  push_cast
  ring

theorem Good.le_available : tb.tokens ≤ tb.available now :=
  le_min (le_add_of_nonneg_right (Nat.cast_nonneg _)) h.le_burst

theorem Good.available_nonneg : 0 ≤ tb.available now :=
  h.nonneg.trans h.le_available

end

/-- The bucket that `can_take` leaves when it looks at the clock. -/
def update (tb : TokenBucket) (now : UInt64) : TokenBucket :=
  let freshTokens := (now - tb.tstamp) / tb.tpt
  let tokens := tb.tokens + freshTokens.toNat
  { tb with
    tstamp := tb.tstamp + tb.tpt * freshTokens
    tokens := if tb.burstSize < tokens then tb.burstSize else tokens }

theorem tokens_update (tb : TokenBucket) (now : UInt64) :
    (tb.update now).tokens = tb.available now := by
  show (if tb.burstSize < tb.tokens + tb.accrued now then tb.burstSize
    else tb.tokens + tb.accrued now) = min (tb.tokens + tb.accrued now) tb.burstSize
  split
  · next h => exact (min_eq_right h.le).symm
  · next h => exact (min_eq_left (not_lt.mp h)).symm

theorem Good.toNat_tstamp_update (h : Good t₀ tb now) :
    (tb.update now).tstamp.toNat = tb.tstamp.toNat + tb.tpt.toNat * tb.accrued now := by
  have hle := UInt64.le_iff_toNat_le.mp h.past
  have hlt := now.toNat_lt
  have hmul : tb.tpt.toNat * tb.accrued now ≤ now.toNat - tb.tstamp.toNat := by
    rw [h.accrued_eq]
    exact Nat.mul_div_le _ _
  show (tb.tstamp + tb.tpt * ((now - tb.tstamp) / tb.tpt)).toNat = _
  show (tb.tstamp.toNat + tb.tpt.toNat * tb.accrued now % 2 ^ 64) % 2 ^ 64 = _
  rw [Nat.mod_eq_of_lt (by omega),
    Nat.mod_eq_of_lt (by omega)]

theorem Good.update (h : Good t₀ tb now) : Good t₀ (tb.update now) now where
  tpt_pos := h.tpt_pos
  stamped := by
    obtain ⟨j, hj⟩ := h.stamped
    refine ⟨j + tb.accrued now, ?_⟩
    rw [h.toNat_tstamp_update, hj, Nat.add_assoc, ← Nat.mul_add]
    rfl
  past := by
    have hle := UInt64.le_iff_toNat_le.mp h.past
    have hmul := Nat.mul_div_le (now.toNat - tb.tstamp.toNat) tb.tpt.toNat
    rw [UInt64.le_iff_toNat_le, h.toNat_tstamp_update, h.accrued_eq]
    omega
  nonneg := by
    rw [tokens_update]
    exact h.available_nonneg
  le_burst := by
    rw [tokens_update]
    exact min_le_right _ _
  tokens_whole := by
    obtain ⟨k, hk⟩ := h.tokens_whole
    obtain ⟨b, hb⟩ := h.burst_whole
    exact ⟨min (k + tb.accrued now) b, by rw [tokens_update, available, hk, hb]; push_cast; rfl⟩
  burst_whole := h.burst_whole

theorem Good.accrued_update (h : Good t₀ tb now) : (tb.update now).accrued now = 0 := by
  rw [h.update.accrued_eq, h.toNat_tstamp_update, h.accrued_eq]
  show (now.toNat - (tb.tstamp.toNat + tb.tpt.toNat * _)) / tb.tpt.toNat = 0
  rw [← Nat.sub_sub]
  generalize now.toNat - tb.tstamp.toNat = elapsed
  have hmod := Nat.mod_lt elapsed h.tpt_pos
  have hdiv := Nat.div_add_mod elapsed tb.tpt.toNat
  exact Nat.div_eq_of_lt (by omega)

theorem min_add_min {a b d : ℚ} (hd : 0 ≤ d) : min (min a b + d) b = min (a + d) b := by
  rcases le_total a b with hab | hab
  · rw [min_eq_left hab]
  · rw [min_eq_right hab, min_eq_right (by linarith), min_eq_right (by linarith)]

theorem slot_sub_nonneg (t₀ tpt : UInt64) (ht : now ≤ t) :
    (0 : ℚ) ≤ (slot t₀ tpt t : ℚ) - slot t₀ tpt now :=
  sub_nonneg.mpr (Nat.cast_le.mpr (slot_mono t₀ tpt ht))

theorem Good.available_update (h : Good t₀ tb now) (ht : now ≤ t) :
    (tb.update now).available t = tb.available t := by
  have hlater := h.update.accrued_add ht
  rw [h.accrued_update] at hlater
  rw [available, tokens_update, hlater, available, Nat.cast_zero, zero_add, available,
    h.accrued_add ht, ← add_assoc]
  exact min_add_min (slot_sub_nonneg t₀ tb.tpt ht)

/-- **`can_take`** says whether the tokens are available. It either finds them without a look at
the clock, or nothing is left to accrue. -/
theorem Good.canTake (h : Good t₀ tb now) (n : ℚ) :
    ∃ tb', tb.canTake n now = (decide (n ≤ tb.available now), tb') ∧ Good t₀ tb' now ∧
      tb'.tpt = tb.tpt ∧ tb'.burstSize = tb.burstSize ∧
      (∀ t, now ≤ t → tb'.available t = tb.available t) ∧
      (n ≤ tb.tokens ∧ tb' = tb ∨ tb.tokens < n ∧ tb'.accrued now = 0) := by
  rw [TokenBucket.canTake]
  by_cases hthere : n ≤ tb.tokens
  · rw [if_pos hthere, decide_eq_true (hthere.trans h.le_available)]
    exact ⟨tb, rfl, h, rfl, rfl, fun _ _ => rfl, .inl ⟨hthere, rfl⟩⟩
  · rw [if_neg hthere]
    by_cases hfresh : tb.tpt ≤ now - tb.tstamp
    · have hne : tb.tpt ≠ 0 := by
        intro hzero
        have hpos := h.tpt_pos
        rw [hzero] at hpos
        exact absurd hpos (by decide)
      simp only [if_pos hfresh, divide, if_neg hne]
      refine ⟨tb.update now, ?_, h.update, rfl, rfl, fun t ht => h.available_update ht,
        .inr ⟨not_le.mp hthere, h.accrued_update⟩⟩
      rw [← tokens_update]
      rfl
    · have hlt : now.toNat - tb.tstamp.toNat < tb.tpt.toNat := by
        rw [← UInt64.toNat_sub_of_le _ _ h.past]
        exact UInt64.not_le.mp hfresh
      have hzero : tb.accrued now = 0 := by
        rw [h.accrued_eq]
        exact Nat.div_eq_of_lt hlt
      have hnot : ¬ n ≤ tb.available now := by
        rw [available, hzero, Nat.cast_zero, add_zero, min_eq_left h.le_burst]
        exact hthere
      simp only [if_neg hfresh]
      rw [decide_eq_false hnot]
      exact ⟨tb, rfl, h, rfl, rfl, fun _ _ => rfl, .inr ⟨not_le.mp hthere, hzero⟩⟩

end TokenBucket

/-! ## An eager bucket -/

/-- What a bucket with this level returns. -/
def TakeCall.answer (level : ℚ) : TakeCall → TakeAnswer
  | .canTake n => .bool (n.getD 1 ≤ level)
  | .take n => .bool (n.getD 1 ≤ level)
  | .takeBurst => .number level

/-- What is taken from a bucket with this level. -/
def TakeCall.cost (level : ℚ) : TakeCall → ℚ
  | .canTake _ => 0
  | .take n => if n.getD 1 ≤ level then n.getD 1 else 0
  | .takeBurst => level

theorem TakeEvent.granted_eq (now : UInt64) (c : TakeCall) (level : ℚ) :
    TakeEvent.granted ⟨now, c, c.answer level⟩ = c.cost level := by
  cases c with
  | canTake n => rfl
  | take n => by_cases h : n.getD 1 ≤ level <;> simp [granted, TakeCall.answer, TakeCall.cost, h]
  | takeBurst => rfl

namespace Eager

variable (t₀ tpt : UInt64) (burst : ℚ)

/-- The bucket when a call is made: it is refilled first. -/
def ready (b : Bucket ℚ) (now : UInt64) : Bucket ℚ := b.refill 1 burst (slot t₀ tpt now)

/-- The bucket after a call. -/
def after (b : Bucket ℚ) (c : UInt64 × TakeCall) : Bucket ℚ :=
  (ready t₀ tpt burst b c.1).spend (c.2.cost (ready t₀ tpt burst b c.1).level)

/-- The calls and what they return. -/
def serve : Bucket ℚ → List (UInt64 × TakeCall) → List TakeEvent
  | _, [] => []
  | b, c :: cs =>
    ⟨c.1, c.2, c.2.answer (ready t₀ tpt burst b c.1).level⟩ :: serve (after t₀ tpt burst b c) cs

variable {t₀ tpt burst} {b : Bucket ℚ} {now t : UInt64}

theorem level_ready_spend {n : ℚ} :
    (ready t₀ tpt burst ((ready t₀ tpt burst b now).spend n) t).level =
      min ((ready t₀ tpt burst b now).level - n +
        ((slot t₀ tpt t : ℚ) - slot t₀ tpt now)) burst := by
  show min (_ + 1 * _) burst = _
  rw [one_mul]
  rfl

variable {g : ℚ}

/-- **A call that takes nothing** is not noticed later. -/
theorem ready_idle (hlast : b.last = some g) (ht : now ≤ t) :
    ready t₀ tpt burst ((ready t₀ tpt burst b now).spend 0) t = ready t₀ tpt burst b t := by
  have hready : ∀ t, (ready t₀ tpt burst b t).level =
      min (b.level + ((slot t₀ tpt t : ℚ) - g)) burst := by
    intro t
    show min (b.level + 1 * ((slot t₀ tpt t : ℚ) - b.last.getD _)) burst = _
    rw [hlast, one_mul]
    rfl
  have hlevel : (ready t₀ tpt burst ((ready t₀ tpt burst b now).spend 0) t).level =
      (ready t₀ tpt burst b t).level := by
    rw [level_ready_spend, sub_zero, hready, hready,
      TokenBucket.min_add_min (TokenBucket.slot_sub_nonneg t₀ tpt ht)]
    congr 1
    ring
  exact congrArg (fun level => (⟨level, some (slot t₀ tpt t : ℚ)⟩ : Bucket ℚ)) hlevel

theorem serve_idle (hlast : b.last = some g) {cs : List (UInt64 × TakeCall)}
    (hclock : ∀ c ∈ cs, now ≤ c.1) :
    serve t₀ tpt burst ((ready t₀ tpt burst b now).spend 0) cs = serve t₀ tpt burst b cs := by
  cases cs with
  | nil => rfl
  | cons c cs =>
    have heq : ready t₀ tpt burst ((ready t₀ tpt burst b now).spend 0) c.1 =
        ready t₀ tpt burst b c.1 := ready_idle hlast (hclock c (mem_cons_self ..))
    rw [serve, serve, after, after, heq]

/-- The bucket after some calls. -/
def afterAll (t₀ tpt : UInt64) (burst : ℚ) (b : Bucket ℚ) (cs : List (UInt64 × TakeCall)) : Bucket ℚ :=
  cs.foldl (after t₀ tpt burst) b

theorem serve_append (cs cs' : List (UInt64 × TakeCall)) :
    serve t₀ tpt burst b (cs ++ cs') =
      serve t₀ tpt burst b cs ++ serve t₀ tpt burst (afterAll t₀ tpt burst b cs) cs' := by
  induction cs generalizing b with
  | nil => rfl
  | cons c cs ih =>
    rw [cons_append, serve, ih]
    rfl

theorem length_serve (cs : List (UInt64 × TakeCall)) :
    (serve t₀ tpt burst b cs).length = cs.length := by
  induction cs generalizing b with
  | nil => rfl
  | cons c cs ih => rw [serve, length_cons, length_cons, ih]

theorem last_afterAll (hlast : b.last = some g) (cs : List (UInt64 × TakeCall)) :
    ∃ g', (afterAll t₀ tpt burst b cs).last = some g' := by
  induction cs generalizing b g with
  | nil => exact ⟨g, hlast⟩
  | cons c cs ih => exact ih rfl

/-- **A `take` that fails** may be left out. -/
theorem serve_without (hlast : b.last = some g) {before after : List (UInt64 × TakeCall)}
    {n : Option ℚ} (hclock : ∀ c ∈ after, now ≤ c.1)
    (hfailed : (serve t₀ tpt burst b (before ++ (now, .take n) :: after))[before.length]? =
      some ⟨now, .take n, .bool false⟩) :
    serve t₀ tpt burst b (before ++ after) =
      (serve t₀ tpt burst b (before ++ (now, .take n) :: after)).eraseIdx before.length := by
  obtain ⟨g', hlast'⟩ : ∃ g', (afterAll t₀ tpt burst b before).last = some g' :=
    last_afterAll hlast before
  rw [serve_append, List.getElem?_append_right (length_serve before).le, length_serve,
    Nat.sub_self] at hfailed
  have hanswer : TakeAnswer.bool (n.getD 1 ≤ (ready t₀ tpt burst
      (afterAll t₀ tpt burst b before) now).level) = .bool false :=
    congrArg TakeEvent.answer (Option.some.inj hfailed)
  have hnot := of_decide_eq_false (TakeAnswer.bool.inj hanswer)
  have hafter : Eager.after t₀ tpt burst (afterAll t₀ tpt burst b before) (now, .take n) =
      (ready t₀ tpt burst (afterAll t₀ tpt burst b before) now).spend 0 := by
    rw [Eager.after, TakeCall.cost, if_neg hnot]
  rw [serve_append, serve_append, serve, hafter, serve_idle hlast' hclock,
    eraseIdx_append_of_length_le (length_serve before).le, length_serve, Nat.sub_self,
    eraseIdx_cons_zero]

end Eager

/-! ## The lazy bucket is eager, if it is timely -/

/-- A lazy bucket and an eager one are the same from `now` on. -/
structure Represents (t₀ tpt : UInt64) (burst : ℚ) (tb : TokenBucket) (b : Bucket ℚ)
    (now : UInt64) : Prop where
  good : tb.Good t₀ now
  tpt_eq : tb.tpt = tpt
  burst_eq : tb.burstSize = burst
  level : ∀ t, now ≤ t → tb.available t = (Eager.ready t₀ tpt burst b t).level

namespace Represents

variable {t₀ tpt now t : UInt64} {burst n : ℚ} {tb tb' : TokenBucket} {b : Bucket ℚ}

variable (h : Represents t₀ tpt burst tb b now)
include h

theorem later (ht : now ≤ t) : Represents t₀ tpt burst tb b t :=
  { h with
    good := h.good.later ht
    level := fun t' ht' => h.level t' (UInt64.le_trans ht ht') }

theorem idle : Represents t₀ tpt burst tb ((Eager.ready t₀ tpt burst b now).spend 0) now :=
  { h with
    level := by
      intro t ht
      rw [Eager.level_ready_spend, sub_zero, ← h.level now (UInt64.le_refl now), TokenBucket.available,
        TokenBucket.available, h.good.accrued_add ht, h.tpt_eq, h.burst_eq,
        TokenBucket.min_add_min (TokenBucket.slot_sub_nonneg t₀ tpt ht), add_assoc] }

/-- Tokens are taken from what is there, and no more has accrued than the bucket can hold. -/
theorem spend (hpos : 0 ≤ n) (hwhole : ∃ k : ℤ, n = k) (hthere : n ≤ tb.tokens) (hroom : tb.tokens + tb.accrued now ≤ burst) :
    Represents t₀ tpt burst { tb with tokens := tb.tokens - n }
      ((Eager.ready t₀ tpt burst b now).spend n) now where
  good := { h.good with
    nonneg := sub_nonneg.mpr hthere
    le_burst := (sub_le_self _ hpos).trans h.good.le_burst
    tokens_whole := by
      obtain ⟨k, hk⟩ := h.good.tokens_whole
      obtain ⟨j, rfl⟩ := hwhole
      exact ⟨k - j, by rw [hk]; push_cast; rfl⟩ }
  tpt_eq := h.tpt_eq
  burst_eq := h.burst_eq
  level := by
    intro t ht
    have hnow : (Eager.ready t₀ tpt burst b now).level = tb.tokens + tb.accrued now := by
      rw [← h.level now (UInt64.le_refl now), TokenBucket.available, h.burst_eq, min_eq_left hroom]
    show min (tb.tokens - n + tb.accrued t) tb.burstSize = _
    rw [Eager.level_ready_spend, hnow, h.good.accrued_add ht, h.tpt_eq, h.burst_eq]
    congr 1
    ring

/-- **`can_take`** does what it should, and changes nothing. -/
theorem canTake (n : ℚ) :
    ∃ tb', tb.canTake n now = (decide (n ≤ (Eager.ready t₀ tpt burst b now).level), tb') ∧
      Represents t₀ tpt burst tb' b now ∧
      (n ≤ tb.tokens ∧ tb' = tb ∨ tb.tokens < n ∧ tb'.accrued now = 0) := by
  obtain ⟨tb', hcan, hgood, htpt, hburst, hlevel, hcase⟩ := h.good.canTake n
  rw [h.level now (UInt64.le_refl now)] at hcan
  refine ⟨tb', hcan, ⟨hgood, htpt.trans h.tpt_eq, hburst.trans h.burst_eq, fun t ht => ?_⟩, hcase⟩
  rw [hlevel t ht, h.level t ht]

theorem level_eq (hzero : tb.accrued now = 0) :
    (Eager.ready t₀ tpt burst b now).level = tb.tokens := by
  rw [← h.level now (UInt64.le_refl now), TokenBucket.available, hzero, Nat.cast_zero, add_zero,
    min_eq_left h.good.le_burst]

theorem room (hzero : tb.accrued now = 0) : tb.tokens + tb.accrued now ≤ burst := by
  rw [hzero, Nat.cast_zero, add_zero, ← h.burst_eq]
  exact h.good.le_burst

/-- **A call that is timely** returns what it returns on the eager bucket. -/
theorem call (c : TakeCall) (htimely : tb.Timely now c) :
    ∃ tb', tb.call now c = (c.answer (Eager.ready t₀ tpt burst b now).level, tb') ∧
      Represents t₀ tpt burst tb' (Eager.after t₀ tpt burst b (now, c)) now ∧
      0 ≤ c.cost (Eager.ready t₀ tpt burst b now).level := by
  cases c with
  | canTake n =>
    obtain ⟨tb', hcan, hrep, -⟩ := h.canTake (n.getD 1)
    refine ⟨tb', ?_, hrep.idle, le_refl 0⟩
    rw [TokenBucket.call, hcan]
    rfl
  | take n =>
    obtain ⟨hint, hpos, htimely⟩ := htimely
    have hwhole : ∃ k : ℤ, n.getD 1 = k := ⟨(n.getD 1).num, Rat.eq_num_of_isInt hint⟩
    obtain ⟨tb', hcan, hrep, hcase⟩ := h.canTake (n.getD 1)
    simp only [TakeCall.answer, TakeCall.cost, Eager.after]
    by_cases hle : n.getD 1 ≤ (Eager.ready t₀ tpt burst b now).level
    · rw [if_pos hle]
      refine ⟨{ tb' with tokens := tb'.tokens - n.getD 1 }, ?_, ?_, hpos⟩
      · rw [TokenBucket.call, TokenBucket.take, hcan, decide_eq_true hle]
        rfl
      rcases hcase with ⟨hthere, rfl⟩ | ⟨-, hzero⟩
      · rcases hpos.lt_or_eq with hlt | heq
        · have hroom := htimely ⟨hlt, hthere⟩
          rw [h.burst_eq] at hroom
          exact h.spend hpos hwhole hthere hroom
        · rw [← heq, sub_zero]
          exact h.idle
      · exact hrep.spend hpos hwhole (hrep.level_eq hzero ▸ hle) (hrep.room hzero)
    · rw [if_neg hle]
      refine ⟨tb', ?_, hrep.idle, le_refl 0⟩
      rw [TokenBucket.call, TokenBucket.take, hcan, decide_eq_false hle]
      rfl
  | takeBurst =>
    obtain ⟨tb', hcan, hrep, hcase⟩ := h.canTake tb.burstSize
    have hlevel : (Eager.ready t₀ tpt burst b now).level = tb'.tokens := by
      rcases hcase with ⟨hthere, rfl⟩ | ⟨-, hzero⟩
      · have hfull := le_antisymm h.good.le_burst hthere
        refine le_antisymm ?_ (h.level now (UInt64.le_refl now) ▸ h.good.le_available)
        rw [hfull, h.burst_eq]
        exact min_le_right _ _
      · exact hrep.level_eq hzero
    simp only [Eager.after, hlevel]
    refine ⟨{ tb' with tokens := 0 }, ?_, ?_, hrep.good.nonneg⟩
    · rw [TokenBucket.call, TokenBucket.takeBurst, hcan]
      rfl
    · have hall : (0 : ℚ) = tb'.tokens - tb'.tokens := (sub_self _).symm
      rcases hcase with ⟨hthere, rfl⟩ | ⟨-, hzero⟩
      · rcases h.good.nonneg.lt_or_eq with hlt | heq
        · have hroom := htimely ⟨hlt, hthere⟩
          rw [h.burst_eq] at hroom
          have hspend := h.spend h.good.nonneg h.good.tokens_whole (le_refl _) hroom
          rwa [← hall] at hspend
        · have hidle := h.idle
          rw [heq] at hidle ⊢
          exact hidle
      · have hspend :=
          hrep.spend hrep.good.nonneg hrep.good.tokens_whole (le_refl _) (hrep.room hzero)
        rwa [← hall] at hspend

end Represents

/-! ## Runs -/

namespace MeteredBucket

/-- A call as the eager bucket sees it. -/
def entry (t₀ tpt : UInt64) (e : TakeEvent) : ℚ × ℚ := (slot t₀ tpt e.now, e.granted)

/-- The lazy bucket is an eager one, which conforms to its rate. -/
structure Served (t₀ tpt : UInt64) (burst : ℚ) (m : MeteredBucket) (b : Bucket ℚ) (now : UInt64) :
    Prop where
  represents : Represents t₀ tpt burst m.bucket b now
  conforms : b.Conforms 1 burst (m.log.map (entry t₀ tpt))
  last : ∃ g, b.last = some g ∧ g ≤ slot t₀ tpt now
  granted : ∀ e ∈ m.log, 0 ≤ e.granted

variable {t₀ tpt now : UInt64} {burst : ℚ} {m m' : MeteredBucket} {b : Bucket ℚ}

theorem cost_le {level : ℚ} (h : 0 ≤ level) (c : TakeCall) : c.cost level ≤ level := by
  cases c with
  | canTake n => exact h
  | take n =>
    rw [TakeCall.cost]
    split
    · next hle => exact hle
    · exact h
  | takeBurst => exact le_refl _

/-- **A call** is served as by the eager bucket. -/
theorem Served.step (h : Served t₀ tpt burst m b now) (hburst : 0 ≤ burst) (c : UInt64 × TakeCall)
    (hclock : now ≤ c.1) (htimely : m.Timely c) :
    ∃ m', m.step c = .ok m' ∧
      m'.log = m.log ++ [⟨c.1, c.2, c.2.answer (Eager.ready t₀ tpt burst b c.1).level⟩] ∧
      Served t₀ tpt burst m' (Eager.after t₀ tpt burst b c) c.1 := by
  obtain ⟨g, hlast, hg⟩ := h.last
  obtain ⟨tb, hcall, hrep, hcost⟩ := (h.represents.later hclock).call c.2 htimely
  have hmono : (slot t₀ tpt now : ℚ) ≤ slot t₀ tpt c.1 := Nat.cast_le.mpr (slot_mono t₀ tpt hclock)
  have hrefill : (Eager.ready t₀ tpt burst b c.1).Conforms 1 burst (m.log.map (entry t₀ tpt)) :=
    h.conforms.refill zero_le_one hburst fun t ht => by
      obtain rfl : g = t := Option.mem_unique hlast ht
      exact hg.trans hmono
  have hspend := hrefill.spend zero_le_one (cost_le hrefill.nonneg c.2) rfl
  refine ⟨⟨tb, _⟩, ?_, rfl, hrep, ?_, ⟨_, rfl, le_refl _⟩, ?_⟩
  · rw [MeteredBucket.step, hcall]
  · rw [map_append, map_singleton, entry, TakeEvent.granted_eq]
    exact hspend
  · intro e he
    rcases mem_append.mp he with hold | hnew
    · exact h.granted e hold
    · rw [mem_singleton.mp hnew, TakeEvent.granted_eq]
      exact hcost

/-- **A run** is served as by the eager bucket. -/
theorem Served.run (h : Served t₀ tpt burst m b now) (hburst : 0 ≤ burst)
    {calls : List (UInt64 × TakeCall)} (hclock : (now :: calls.map Prod.fst).Pairwise (· ≤ ·))
    (halong : Along MeteredBucket.step Timely m calls) :
    ∃ m' now', Foundation.run MeteredBucket.step m calls = .ok m' ∧
      m'.log = m.log ++ Eager.serve t₀ tpt burst b calls ∧
      Served t₀ tpt burst m' (Eager.afterAll t₀ tpt burst b calls) now' := by
  induction calls generalizing m b now with
  | nil => exact ⟨m, now, rfl, (append_nil _).symm, h⟩
  | cons c calls ih =>
    obtain ⟨hfirst, hrest⟩ := pairwise_cons.mp hclock
    obtain ⟨m₁, hstep, hlog, hserved⟩ := h.step hburst c
      (hfirst c.1 (mem_cons_self ..)) halong.1
    obtain ⟨m₂, now₂, hrun, hlog₂, hserved₂⟩ := ih hserved hrest (halong.2 m₁ hstep)
    refine ⟨m₂, now₂, by rw [run_cons_ok hstep, hrun], ?_, hserved₂⟩
    rw [hlog₂, hlog, append_assoc]
    rfl

/-- The tokens that arrive between two times, as a part of the rate. -/
theorem slot_sub_le (t₀ : UInt64) {tpt : UInt64} (htpt : 0 < tpt.toNat) {t₁ t₂ : UInt64}
    (ht : t₁ ≤ t₂) :
    (slot t₀ tpt t₂ : ℚ) - slot t₀ tpt t₁ ≤
      ⌈((t₂.toNat : ℚ) - t₁.toNat) / tpt.toNat⌉ := by
  have hle := UInt64.le_iff_toNat_le.mp ht
  have hpos : (0 : ℚ) < tpt.toNat := Nat.cast_pos.mpr htpt
  have hupper : (slot t₀ tpt t₂ : ℚ) * tpt.toNat ≤ (t₂.toNat - t₀.toNat : Nat) := by
    exact_mod_cast Nat.div_mul_le_self _ _
  have hlower : ((t₁.toNat - t₀.toNat : Nat) : ℚ) < ((slot t₀ tpt t₁ : ℚ) + 1) * tpt.toNat := by
    have hdiv := Nat.lt_mul_div_succ (t₁.toNat - t₀.toNat) htpt
    rw [Nat.mul_comm] at hdiv
    exact_mod_cast hdiv
  have hgap : ((t₂.toNat - t₀.toNat : Nat) : ℚ) - (t₁.toNat - t₀.toNat : Nat) ≤
      t₂.toNat - t₁.toNat := by
    have hnat : t₂.toNat - t₀.toNat + t₁.toNat ≤ t₂.toNat + (t₁.toNat - t₀.toNat) := by omega
    have hcast : ((t₂.toNat - t₀.toNat : Nat) : ℚ) + t₁.toNat ≤
        t₂.toNat + (t₁.toNat - t₀.toNat : Nat) := by exact_mod_cast hnat
    linarith
  have hint : (slot t₀ tpt t₂ : ℤ) - slot t₀ tpt t₁ ≤
      ⌈((t₂.toNat : ℚ) - t₁.toNat) / tpt.toNat⌉ := by
    rw [Int.le_ceil_iff, lt_div_iff₀ hpos]
    push_cast
    nlinarith
  exact_mod_cast hint

/-- What is granted between two times is granted between their slots. -/
theorem granted_le_spent (t₀ tpt : UInt64) (h : ∀ e ∈ m.log, 0 ≤ e.granted) (t₁ t₂ : UInt64) :
    m.granted t₁ t₂ ≤
      Bucket.spent (m.log.map (entry t₀ tpt)) (slot t₀ tpt t₁) (slot t₀ tpt t₂) := by
  rw [granted, Bucket.spent]
  generalize m.log = log at h
  induction log with
  | nil => exact le_refl _
  | cons e log ih =>
    have hrest := ih fun e' he' => h e' (mem_cons_of_mem _ he')
    have hpos := h e (mem_cons_self ..)
    rw [map_cons, filter_cons, filter_cons]
    by_cases hin : t₁ ≤ e.now ∧ e.now ≤ t₂
    · have hslots : (slot t₀ tpt t₁ : ℚ) ≤ (entry t₀ tpt e).1 ∧
          (entry t₀ tpt e).1 ≤ slot t₀ tpt t₂ :=
        ⟨Nat.cast_le.mpr (slot_mono t₀ tpt hin.1), Nat.cast_le.mpr (slot_mono t₀ tpt hin.2)⟩
      rw [if_pos (decide_eq_true hin), if_pos (decide_eq_true hslots)]
      exact add_le_add (le_refl _) hrest
    · rw [if_neg (by simpa using hin)]
      split
      · rw [map_cons]
        exact hrest.trans (le_add_of_nonneg_left hpos)
      · exact hrest

/-- What `new` returns, if a token takes a whole number of ticks. -/
theorem new_eq_ok {tps : UInt64} {rate : ℚ} {burstSize : Option ℚ} {tb : TokenBucket}
    (hnew : TokenBucket.new tps rate burstSize t₀ = .ok tb)
    (hexact : TokenBucket.Exact tps rate burstSize) :
    0 < rate ∧ 0 < tb.tpt.toNat ∧ (tps.toNat : ℚ) = tb.tpt.toNat * rate ∧
      tb.burstSize = ⌈burstSize.getD rate⌉ ∧ tb.tokens = tb.burstSize ∧ tb.tstamp = t₀ := by
  rw [TokenBucket.new, TokenBucket.set] at hnew
  by_cases hrate : 0 < rate
  · simp only [if_pos hrate] at hnew
    cases hnew
    obtain ⟨tpt, hpos, hlt, hticks⟩ := hexact.ticks
    have hdiv : tps.toNat / rate = tpt := by
      rw [hticks, mul_div_assoc, div_self hrate.ne', mul_one]
    have htpt : (UInt64.ofNat ⌊tps.toNat / rate⌋₊).toNat = tpt := by
      rw [hdiv, Nat.floor_natCast, UInt64.toNat_ofNat', Nat.mod_eq_of_lt (by omega)]
    exact ⟨hrate, by rw [htpt]; exact hpos, by rw [htpt]; exact hticks, rfl, rfl, rfl⟩
  · simp only [if_neg hrate] at hnew
    cases hnew

theorem served_new {tb : TokenBucket} (htpt : 0 < tb.tpt.toNat) (hburst : 0 ≤ tb.burstSize)
    (hwhole : ∃ k : ℤ, tb.burstSize = k) (hfull : tb.tokens = tb.burstSize) :
    ∃ b, Served tb.tstamp tb.tpt tb.burstSize ⟨tb, []⟩ b tb.tstamp := by
  have hgood : tb.Good tb.tstamp tb.tstamp :=
    ⟨htpt, ⟨0, rfl⟩, UInt64.le_refl _, hfull ▸ hburst, hfull.le, hfull ▸ hwhole, hwhole⟩
  have hfresh : Bucket.Conforms 1 tb.burstSize ⟨tb.burstSize, none⟩ ([] : List (ℚ × ℚ)) :=
    .fresh hburst rfl hburst zero_le_one
  refine ⟨Eager.ready tb.tstamp tb.tpt tb.burstSize ⟨tb.burstSize, none⟩ tb.tstamp,
    ⟨hgood, rfl, rfl, fun t ht => ?_⟩, hfresh.refill zero_le_one hburst nofun,
    ⟨_, rfl, le_refl _⟩, nofun⟩
  have hlevel : (Eager.ready tb.tstamp tb.tpt tb.burstSize ⟨tb.burstSize, none⟩ tb.tstamp).level =
      tb.burstSize := by
    show min (tb.burstSize + 1 * (_ - _)) tb.burstSize = _
    rw [Option.getD_none, sub_self, mul_zero, add_zero, min_self]
  have hmore := TokenBucket.slot_sub_nonneg tb.tstamp tb.tpt ht
  show min (tb.tokens + tb.accrued t) tb.burstSize = min (_ + 1 * (_ - _)) tb.burstSize
  rw [hlevel, hfull, min_eq_right (le_add_of_nonneg_right (Nat.cast_nonneg _)),
    min_eq_right]
  rw [one_mul]
  exact le_add_of_nonneg_right hmore

/-- **Token buckets conform.** A token takes a whole number of ticks, and whenever tokens are
granted without a look at the clock, no more has accrued than the bucket can hold. Then after every
sequence of calls on a non-decreasing clock

- no call has divided by zero or will;
- the tokens are a whole number between 0 and the burst size, which doubles hold exactly;
- between any two times no more was granted than the burst size and what accrues at the rate,
  rounded up;
- a `take` that has failed could be left out: the other calls return the same. -/
theorem bucket_conforms (tps : UInt64) (rate : ℚ) (burstSize : Option ℚ) (t₀ : UInt64)
    (tb : TokenBucket) (hnew : TokenBucket.new tps rate burstSize t₀ = .ok tb)
    (hexact : TokenBucket.Exact tps rate burstSize) (calls : List (UInt64 × TakeCall))
    (hclock : (t₀ :: calls.map Prod.fst).Pairwise (· ≤ ·))
    (htimely : Along step Timely ⟨tb, []⟩ calls) :
    ∃ m, run step ⟨tb, []⟩ calls = .ok m ∧
      m.bucket.tpt ≠ 0 ∧ 0 ≤ m.bucket.tokens ∧ m.bucket.tokens ≤ ⌈burstSize.getD rate⌉ ∧
      (∃ k ≤ 2 ^ 53, m.bucket.tokens = (k : ℕ)) ∧
      (∀ t₁ t₂, t₁ ≤ t₂ → m.granted t₁ t₂ ≤
        ⌈burstSize.getD rate⌉ + ⌈rate * ((t₂.toNat : ℚ) - t₁.toNat) / tps.toNat⌉) ∧
      ∀ before now n after, calls = before ++ (now, .take n) :: after →
        m.log[before.length]? = some ⟨now, .take n, .bool false⟩ →
        Along step Timely ⟨tb, []⟩ (before ++ after) →
          ∃ m', run step ⟨tb, []⟩ (before ++ after) = .ok m' ∧
            m'.log = m.log.eraseIdx before.length := by
  obtain ⟨hrate, htpt, hticks, hburst, hfull, hstamp⟩ := new_eq_ok hnew hexact
  have hburst₀ : 0 ≤ tb.burstSize := by
    rw [hburst]
    exact_mod_cast hexact.burst
  obtain ⟨b, hserved⟩ := served_new htpt hburst₀ ⟨_, hburst⟩ hfull
  rw [hstamp] at hserved
  obtain ⟨m, now, hrun, hlog, hend⟩ := hserved.run hburst₀ hclock htimely
  have hgood := hend.represents.good
  have hle : m.bucket.tokens ≤ ⌈burstSize.getD rate⌉ := by
    rw [← hburst, ← hend.represents.burst_eq]
    exact hgood.le_burst
  refine ⟨m, hrun, ?_, hgood.nonneg, hle, ?_, ?_, ?_⟩
  · intro hzero
    have hpos := hgood.tpt_pos
    rw [hzero] at hpos
    exact Nat.lt_irrefl 0 hpos
  · obtain ⟨k, hk⟩ := hgood.tokens_whole
    have hnonneg := hgood.nonneg
    rw [hk] at hle hnonneg ⊢
    obtain ⟨n, rfl⟩ := Int.eq_ofNat_of_zero_le (Int.cast_nonneg_iff.mp hnonneg)
    have hbound := (Int.cast_le.mp hle).trans hexact.burst_le
    exact ⟨n, by exact_mod_cast hbound, rfl⟩
  · intro t₁ t₂ ht
    have hrate' : rate * (t₂.toNat - t₁.toNat) / tps.toNat =
        (t₂.toNat - t₁.toNat) / tb.tpt.toNat := by
      rw [hticks, mul_comm (tb.tpt.toNat : ℚ), mul_div_mul_left _ _ hrate.ne']
    have hslots : (slot t₀ tb.tpt t₁ : ℚ) ≤ slot t₀ tb.tpt t₂ :=
      Nat.cast_le.mpr (slot_mono t₀ tb.tpt ht)
    calc m.granted t₁ t₂
        ≤ Bucket.spent (m.log.map (entry t₀ tb.tpt)) (slot t₀ tb.tpt t₁) (slot t₀ tb.tpt t₂) :=
          granted_le_spent t₀ tb.tpt hend.granted t₁ t₂
      _ ≤ tb.burstSize + 1 * ((slot t₀ tb.tpt t₂ : ℚ) - slot t₀ tb.tpt t₁) :=
          hend.conforms.window _ _ hslots
      _ ≤ ⌈burstSize.getD rate⌉ + ⌈rate * (t₂.toNat - t₁.toNat) / tps.toNat⌉ := by
          rw [one_mul, hburst, hrate']
          exact add_le_add (le_refl _) (slot_sub_le t₀ htpt ht)
  · intro before now n after hcalls hfailed htimely'
    subst hcalls
    obtain ⟨g, hlast, -⟩ := hserved.last
    rw [hlog, nil_append] at hfailed ⊢
    have hsub : (before ++ after).Sublist (before ++ (now, .take n) :: after) :=
      (List.Sublist.refl before).append (sublist_cons_self _ _)
    have htail := hclock.sublist ((hsub.map Prod.fst).cons_cons t₀)
    have hafter : ∀ c ∈ after, now ≤ c.1 := by
      intro c hc
      rw [map_append, ← cons_append] at hclock
      have hrest := (pairwise_append.mp hclock).2.1
      exact (pairwise_cons.mp hrest).1 c.1 (mem_map_of_mem hc)
    obtain ⟨m', -, hrun', hlog', -⟩ := hserved.run hburst₀ htail htimely'
    refine ⟨m', hrun', ?_⟩
    rw [hlog', nil_append, Eager.serve_without hlast hafter hfailed]

/-- A bucket of ten tokens that is filled once a second: it is emptied after half a second, a
`take` fails, and the next token is there half a second later. -/
theorem bucket_conforms_sample :
    ∃ tb m, TokenBucket.new 1000000000 1 (some 10) 0 = .ok tb ∧
      run step ⟨tb, []⟩ [(500000000, .takeBurst), (600000000, .take none),
        (1000000000, .take none)] = .ok m ∧
      m.log.map TakeEvent.granted = [10, 0, 1] ∧ m.bucket.tokens ≤ 10 ∧
      m.granted 0 1000000000 ≤ 10 + 1 := by
  have hexact : TokenBucket.Exact 1000000000 1 (some 10) :=
    ⟨⟨1000000000, by decide, by decide, by decide +kernel⟩, by decide, by decide +kernel,
      by decide +kernel⟩
  obtain ⟨tb, hnew, htb⟩ := ok_of_any
    (r := TokenBucket.new 1000000000 1 (some 10) 0)
    (q := fun tb => tb = ⟨1, 1000000000, 10, 10, 0⟩) (by decide +kernel)
  obtain rfl := of_decide_eq_true htb
  obtain ⟨m, hrun, -, -, hle, -, hwindow, -⟩ := bucket_conforms 1000000000 1 (some 10) 0 _ hnew hexact
    [(500000000, .takeBurst), (600000000, .take none), (1000000000, .take none)]
    (by decide) (by decide +kernel)
  obtain ⟨m', hrun', hgranted⟩ := ok_of_any
    (r := run step ⟨⟨1, 1000000000, 10, 10, 0⟩, []⟩ [(500000000, .takeBurst),
      (600000000, .take none), (1000000000, .take none)])
    (q := fun m => m.log.map TakeEvent.granted = [10, 0, 1]) (by decide +kernel)
  obtain rfl : m = m' := ok_unique hrun hrun'
  refine ⟨_, m, hnew, hrun, of_decide_eq_true hgranted, hle.trans (by decide +kernel), ?_⟩
  exact (hwindow 0 1000000000 (by decide)).trans (by decide +kernel)

/-- **An idle bucket grants its burst size twice**: after twenty seconds two times ten tokens are
granted at once, as the first ten are granted without a look at the clock. -/
theorem idle_bucket_exceeds_burst :
    ∃ tb m, TokenBucket.new 1000000000 1 (some 10) 0 = .ok tb ∧
      run step ⟨tb, []⟩ [(20000000000, .take (some 10)), (20000000000, .take (some 10))] = .ok m ∧
      ¬ m.granted 20000000000 20000000000 ≤
        10 + ⌈(1 : ℚ) * (((20000000000 : UInt64).toNat : ℚ) - (20000000000 : UInt64).toNat) /
          (1000000000 : UInt64).toNat⌉ := by
  obtain ⟨tb, hnew, htb⟩ := ok_of_any
    (r := TokenBucket.new 1000000000 1 (some 10) 0)
    (q := fun tb => tb = ⟨1, 1000000000, 10, 10, 0⟩) (by decide +kernel)
  obtain rfl := of_decide_eq_true htb
  obtain ⟨m, hrun, hgranted⟩ := ok_of_any
    (r := run step ⟨⟨1, 1000000000, 10, 10, 0⟩, []⟩ [(20000000000, .take (some 10)),
      (20000000000, .take (some 10))])
    (q := fun m => m.granted 20000000000 20000000000 = 20) (by decide +kernel)
  refine ⟨_, m, hnew, hrun, ?_⟩
  rw [of_decide_eq_true hgranted]
  decide +kernel

end MeteredBucket

end Snabb.Lib
