import Snabb.Core.Timer.Callbacks

/-!
# When timers fire

For callbacks that do not use the timer module, `run_to_time` calls every timer exactly
when it is due, in whatever steps the time goes on: a timer with the count `k` that was
activated at tick `a` fires at `a + k`, and a repeating one at `a + k`, `a + 2 * k` and so
on. Timers that are due at the same tick fire in the order in which they were activated;
a repeating timer is activated anew by every call.

`OnSchedule` is the invariant. It says of every timer for which ticks it has been set; what
it has fired at follows, as nothing is cancelled (`sets_eq`).
-/

namespace Snabb

open List
open Function (update update_eq_self update_of_ne update_self)

namespace Timers

open Foundation Agenda

/-- Callbacks that do not use the timer module. -/
def quiet : TimerId → Timers → List TimerOp := fun _ _ => []

/-- The calls of `activate` are for inactive timers, and `run_to_time` is called when there
is a current tick. -/
def Proper (s : Timers) : TimerCall → Prop
  | .op (.activate t _) => s.nextTick t = none
  | .op (.cancel _) => False
  | .runToTime _ => s.ticks ≠ none

instance (s : Timers) : ∀ call, Decidable (Proper s call)
  | .op (.activate t _) => inferInstanceAs (Decidable (s.nextTick t = none))
  | .op (.cancel _) => inferInstanceAs (Decidable False)
  | .runToTime _ => inferInstanceAs (Decidable (s.ticks ≠ none))

/-- The current tick after a call. -/
def clockAfter (ticks : Option ℤ) : TimerCall → Option ℤ
  | .op (.activate _ now) => some (ticks.getD (tickOf now))
  | .op (.cancel _) => ticks
  | .runToTime ns => ticks.map fun now => max now (tickOf ns)

/-- The tick at which a call activates the timer `t`, if it does. -/
def activatedBy (t : TimerId) (ticks : Option ℤ) : TimerCall → List ℤ
  | .op (.activate j now) => if j = t then [ticks.getD (tickOf now)] else []
  | _ => []

/-- The ticks at which the calls activate a timer. -/
def activationTicks (t : TimerId) : Option ℤ → List TimerCall → List ℤ
  | _, [] => []
  | ticks, call :: rest => activatedBy t ticks call ++ activationTicks t (clockAfter ticks call) rest

/-- `a + k`, `a + 2 * k`, and so on: `n` ticks. -/
def progression (a k : ℤ) (n : Nat) : List ℤ := (List.range n).map fun j : Nat => a + (j + 1) * k

theorem progression_succ (a k : ℤ) (n : Nat) :
    progression a k (n + 1) = progression a k n ++ [a + (n + 1) * k] := by
  simp [progression, range_succ]

variable {timer : TimerId → Timer} {s s' : Timers} {t : TimerId} {tick last : ℤ} {n i : Nat}
  {log : List (TimerId × Event ℤ)} {acts : TimerId → List ℤ}

/-! ## The invariant -/

/-- The events of a timer that was activated at the ticks `acts` from outside: a timer that
does not repeat was set for each of them, a repeating one is set for the next multiple of
its count. -/
def Planned (timer : Timer) (acts : List ℤ) (es : List (Event ℤ)) : Prop :=
  if timer.repeating then
    es = [] ∧ acts = [] ∨
      ∃ a m es', acts = [a] ∧ es = es' ++ [.set (a + (m + 1 : Nat) * timer.ticks)] ∧
        sets es = progression a timer.ticks (m + 1)
  else sets es = acts.map (· + timer.ticks)

/-- Every timer is where its activations put it, and has fired up to `last` only. -/
structure OnSchedule (timer : TimerId → Timer) (acts : TimerId → List ℤ) (last : ℤ)
    (log : List (TimerId × Event ℤ)) : Prop where
  uncancelled : ∀ e ∈ log, e.2 ≠ .cancel
  planned : ∀ t, Planned (timer t) (acts t) (eventsOf t log)
  past : ∀ t, ∀ k ∈ fires (eventsOf t log), k ≤ last

theorem OnSchedule.extend (h : OnSchedule timer acts last log) (t : TimerId)
    (es : List (Event ℤ)) (as : List ℤ) (hcancel : .cancel ∉ es) (hpast : ∀ k ∈ fires es, k ≤ last)
    (hplanned : Planned (timer t) as (eventsOf t log ++ es)) :
    OnSchedule timer (update acts t as) last (log ++ es.map fun e => (t, e)) where
  uncancelled := by
    intro e he
    rcases mem_append.mp he with hold | hnew
    · exact h.uncancelled e hold
    · obtain ⟨e, hmem, rfl⟩ := mem_map.mp hnew
      exact fun heq => hcancel (heq ▸ hmem)
  planned := by
    intro j
    by_cases hj : j = t
    · subst hj
      rwa [eventsOf_append_self, update_self]
    · rw [eventsOf_append_of_ne hj, update_of_ne hj]
      exact h.planned j
  past := by
    intro j k hk
    by_cases hj : j = t
    · subst hj
      rw [eventsOf_append_self, fires_append] at hk
      rcases mem_append.mp hk with hold | hnew
      · exact h.past j k hold
      · exact hpast k hnew
    · rw [eventsOf_append_of_ne hj] at hk
      exact h.past j k hk

variable {es : List (Event ℤ)} {o : Option ℤ}

theorem Planned.cases {timer : Timer} {as : List ℤ}
    (h : Planned timer as es) (hrep : timer.repeating = true) (hrounds : Rounds es o) :
    es = [] ∧ as = [] ∧ o = none ∨
      ∃ a m, as = [a] ∧ o = some (a + (m + 1 : Nat) * timer.ticks) ∧
        sets es = progression a timer.ticks (m + 1) := by
  rw [Planned, if_pos hrep] at h
  rcases h with ⟨rfl, rfl⟩ | ⟨a, m, es', rfl, rfl, hsets⟩
  · exact .inl ⟨rfl, rfl, rounds_nil hrounds⟩
  · exact .inr ⟨a, m, rfl, rounds_snoc_set hrounds, hsets⟩

/-! ## The calls keep the invariant -/

/-- **A call** keeps every timer on schedule. -/
theorem onSchedule_call {l : ℤ} (hle : l ≤ last) :
    KeptByCalls timer quiet l (OnSchedule timer acts last) := by
  intro tick n i s s' hl hi hvisit hcall h
  have htick : tick ≤ last := hl.trans hle
  obtain ⟨t, ht, hhead⟩ := hvisit.head hi
  have hdue : s.nextTick t = some tick := by
    rw [hvisit.agrees.next_eq_some_iff, update_self, hhead]
    exact mem_cons_self ..
  have hrounds := hvisit.agrees.rounds t
  rw [hdue] at hrounds
  have hplanned := h.planned t
  simp only [callTimer, ht] at hcall
  cases hrep : (timer t).repeating with
  | false =>
    rw [hrep] at hcall
    cases hcall
    have hnew := h.extend t [.fire tick] (acts t) (by simp) (by simpa [fires] using htick)
      (by simpa [Planned, hrep, sets] using hplanned)
    rwa [update_eq_self] at hnew
  | true =>
    rw [hrep] at hcall
    have hinactive : (s.fire t tick).nextTick t = none := update_self ..
    -- a repeating timer is set again right after the call
    have hlog : s'.log = s.log ++ [.fire tick, .set (tick + (timer t).ticks)].map fun e => (t, e) := by
      have hactivate : activate timer t 0 (s.fire t tick) = .ok s' := hcall
      rw [activate_ok hinactive] at hactivate
      cases hactivate
      simp [schedule, fire, hvisit.ticks_eq]
    rw [hlog]
    obtain ⟨-, -, hnone⟩ | ⟨a, m, has, htickeq, hsets⟩ := hplanned.cases hrep hrounds
    · cases hnone
    · have hnext : Planned (timer t) (acts t)
          (eventsOf t s.log ++ [.fire tick, .set (tick + (timer t).ticks)]) := by
        have htick' := Option.some.inj htickeq
        have hlast : tick + (timer t).ticks = a + (m + 1 + 1 : Nat) * (timer t).ticks := by
          rw [htick']
          push_cast
          ring
        rw [Planned, if_pos hrep]
        refine .inr ⟨a, m + 1, eventsOf t s.log ++ [.fire tick], has, ?_, ?_⟩
        · rw [hlast, append_assoc]
          rfl
        · rw [progression_succ, ← hsets, hlast]
          simp [sets]
      have hnew := h.extend t [.fire tick, .set (tick + (timer t).ticks)] (acts t) (by simp)
        (by simpa [fires] using htick) hnext
      rwa [update_eq_self] at hnew

theorem carefulVisit_quiet (hpos : ∀ t, 1 ≤ (timer t).ticks) (s : Timers) (tick : ℤ) :
    CarefulVisit timer quiet s tick := by
  refine Along.mono (fun s i _ => ?_) (along_of_forall (Q := fun _ => True) fun _ _ => trivial)
  refine fun t _ => ⟨trivial, fun _ => ⟨?_, fun s' hs' => ?_⟩⟩
  · have hk := hpos t
    omega
  · cases hs'
    exact update_self ..

/-- What holds between two calls. -/
structure Kept (timer : TimerId → Timer) (acts : TimerId → List ℤ) (s : Timers) : Prop where
  sound : Sound s
  upcoming : ∀ now, s.ticks = some now → Upcoming (now + 1) s
  onSchedule : ∀ last, (∀ now, s.ticks = some now → now ≤ last) → OnSchedule timer acts last s.log

theorem kept_new (ticks : Option ℤ) : Kept timer (fun _ => []) (new ticks) where
  sound := sound_new ticks
  upcoming _ _ _ _ h := by cases h
  onSchedule _ _ := by
    refine ⟨fun e he => (not_mem_nil he).elim, fun t => ?_, fun t k hk => ?_⟩
    · show Planned (timer t) [] []
      unfold Planned
      split
      · exact .inl ⟨rfl, rfl⟩
      · rfl
    · exact (not_mem_nil hk).elim

section

variable (hpos : ∀ t, 1 ≤ (timer t).ticks) (h : Kept timer acts s)
include hpos h

theorem Kept.activate (hnone : s.nextTick t = none) (now : Nat) :
    Kept timer (update acts t (acts t ++ [s.ticks.getD (tickOf now)]))
      (schedule t (s.ticks.getD (tickOf now) + (timer t).ticks)
        { s with ticks := some (s.ticks.getD (tickOf now)) }) := by
  have hk := hpos t
  have hnonneg : ∀ t, 0 ≤ (timer t).ticks := fun t => Int.le_of_lt (hpos t)
  refine ⟨h.sound.activate hnonneg hnone now, ?_, fun last hlast => ?_⟩
  · intro ticks hticks
    cases hticks
    refine Upcoming.schedule (fun j k hj => ?_) (by omega)
    cases hnow : s.ticks with
    | none => simp [h.sound.unused hnow j] at hj
    | some ticks => exact h.upcoming ticks hnow j k hj
  · have hbefore : OnSchedule timer acts last s.log := by
      refine h.onSchedule last fun ticks hticks => hlast ticks ?_
      show some _ = some ticks
      rw [hticks, Option.getD_some]
    have hrounds := h.sound.agrees.rounds t
    rw [hnone] at hrounds
    refine hbefore.extend t [.set _] _ (by simp) (by simp [fires]) ?_
    cases hrep : (timer t).repeating with
    | false =>
      have hsets := hbefore.planned t
      simp only [Planned, hrep] at hsets ⊢
      rw [sets_append, hsets, map_append]
      rfl
    | true =>
      obtain ⟨hes, has, -⟩ | ⟨_, _, _, hnext, _⟩ := (hbefore.planned t).cases hrep hrounds
      · rw [Planned, if_pos hrep, hes, has]
        exact .inr ⟨_, 0, [], rfl, by simp, by simp [sets, progression]⟩
      · cases hnext

theorem Kept.runToTime (ns : ℚ) {now : ℤ} (hticks : s.ticks = some now) :
    ∃ s', runToTime timer quiet ns s = .ok s' ∧ s'.ticks = some (max now (tickOf ns)) ∧
      Kept timer acts s' := by
  obtain ⟨s', hrun, hsound, hlog, hcase⟩ := h.sound.runToTime
    (Q := fun log => ∀ last, now ≤ last → tickOf ns ≤ last → OnSchedule timer acts last log)
    (fun t => Int.le_of_lt (hpos t))
    (fun tick n i s s' htick hi hvisit hcall hs last hnow hlast =>
      onSchedule_call hlast tick n i s s' htick hi hvisit hcall (hs last hnow hlast))
    hticks
    (fun last hnow _ => h.onSchedule last fun k hk => by
      rw [hticks] at hk
      exact Option.some.inj hk ▸ hnow)
    (Along.mono (fun s tick _ => carefulVisit_quiet hpos s tick)
      (along_of_forall (Q := fun _ => True) fun _ _ => trivial))
  have hclock : s'.ticks = some (max now (tickOf ns)) ∧
      Upcoming (max now (tickOf ns) + 1) s' := by
    rcases hcase with ⟨hlt, rfl⟩ | ⟨hle, hticks', hupcoming⟩
    · rw [max_eq_left hlt.le]
      exact ⟨hticks, h.upcoming now hticks⟩
    · rw [max_eq_right hle]
      exact ⟨hticks', hupcoming⟩
  refine ⟨s', hrun, hclock.1, hsound, fun k hk => ?_, fun last hlast => ?_⟩
  · obtain rfl := Option.mem_unique hclock.1 hk
    exact hclock.2
  · have hmax := hlast _ hclock.1
    exact hlog last ((le_max_left _ _).trans hmax) ((le_max_right _ _).trans hmax)

/-- **A call** from outside keeps the timers on schedule. -/
theorem Kept.step {call : TimerCall} (hcall : Proper s call) :
    ∃ s', step timer quiet s call = .ok s' ∧ s'.ticks = clockAfter s.ticks call ∧
      Kept timer (fun t => acts t ++ activatedBy t s.ticks call) s' := by
  match call with
  | .op (.activate t now) =>
    refine ⟨_, activate_ok hcall now, rfl, ?_⟩
    have hacts : (fun j => acts j ++ activatedBy j s.ticks (.op (.activate t now))) =
        update acts t (acts t ++ [s.ticks.getD (tickOf now)]) := by
      funext j
      by_cases hj : j = t
      · subst hj
        simp [activatedBy]
      · simp [activatedBy, hj, Ne.symm hj]
    rw [hacts]
    exact h.activate hpos hcall now
  | .op (.cancel _) => exact hcall.elim
  | .runToTime ns =>
    obtain ⟨now, hnow⟩ := Option.ne_none_iff_exists'.mp hcall
    obtain ⟨s', hrun, hticks, h'⟩ := h.runToTime hpos ns hnow
    refine ⟨s', hrun, by rw [hticks, hnow]; rfl, ?_⟩
    simpa [activatedBy] using h'

end

/-! ## What a run amounts to -/

/-- What has fired is what was set up to now. -/
theorem fires_eq_filter (hrounds : Rounds es o)
    (hcancel : .cancel ∉ es) (hpast : ∀ k ∈ fires es, k ≤ last) (hnext : ∀ k ∈ o, last < k) :
    fires es = (sets es).filter (· ≤ last) := by
  rw [sets_eq hrounds hcancel, filter_append, filter_eq_self.mpr (by simpa using hpast),
    filter_eq_nil_iff.mpr, append_nil]
  intro k hk
  have hlater := hnext k (Option.mem_toList.mp hk)
  simpa using hlater

/-- The multiples up to `last` are as many as the count fits in. -/
theorem length_progression {a k : ℤ} {m : Nat} (hk : 1 ≤ k)
    (hpast : ∀ tick ∈ progression a k m, tick ≤ last) (hnext : last < a + (m + 1 : Nat) * k) :
    ((last - a) / k).toNat = m := by
  have hupper : (last - a) / k < m + 1 := by
    rw [Int.ediv_lt_iff_lt_mul (by omega)]
    push_cast at hnext
    omega
  cases m with
  | zero =>
    omega
  | succ m =>
    have hle : a + (m + 1) * k ≤ last := by
      refine hpast _ ?_
      rw [progression_succ]
      exact mem_append_right _ (mem_singleton_self _)
    have hlower : m + 1 ≤ (last - a) / k := by
      rw [Int.le_ediv_iff_mul_le (by omega)]
      omega
    push_cast at hupper
    omega

/-- **Timers fire exactly when they are due.** However the time goes on, after every run of
calls that activate inactive timers and run to some time, for the current tick `last`:

- a timer with the count `k` that does not repeat has fired at `a + k` for every tick `a` at
  which it was activated, as far as this is not later than `last`, and at no other tick;
- a repeating timer that was activated at tick `a` has fired `(last - a) / k` times, at
  `a + k`, `a + 2 * k` and so on;
- the timers that fired at a tick did so in the order in which they were activated for it. -/
theorem timers_on_schedule (timer : TimerId → Timer) (hpos : ∀ t, 1 ≤ (timer t).ticks)
    (ticks : Option ℤ) (calls : List TimerCall)
    (hproper : Along (Timers.step timer quiet) Proper (new ticks) calls) :
    ∃ s', run (Timers.step timer quiet) (new ticks) calls = .ok s' ∧
      s'.ticks = calls.foldl clockAfter ticks ∧
      ∀ last, s'.ticks = some last →
        (∀ t, (timer t).repeating = false → fires (eventsOf t s'.log) =
          ((activationTicks t ticks calls).map (· + (timer t).ticks)).filter (· ≤ last)) ∧
        (∀ t a, (timer t).repeating = true → activationTicks t ticks calls = [a] →
          fires (eventsOf t s'.log) =
            progression a (timer t).ticks ((last - a) / (timer t).ticks).toNat) ∧
        ∀ tick ≤ last, firedAt tick s'.log = setFor tick s'.log := by
  -- `acts` are the activations so far; those of the calls that are left come after them
  let Reached s rest : Prop := ∃ acts, Kept timer acts s ∧
    rest.foldl clockAfter s.ticks = calls.foldl clockAfter ticks ∧
    ∀ t, acts t ++ activationTicks t s.ticks rest = activationTicks t ticks calls
  have hbody : ∀ s call rest, Reached s (call :: rest) → Proper s call →
      ∃ s', Timers.step timer quiet s call = .ok s' ∧ Reached s' rest := by
    rintro s call rest ⟨acts, hkept, hclock, hacts⟩ hcall
    obtain ⟨s₁, hstep, hticks, h₁⟩ := hkept.step hpos hcall
    refine ⟨s₁, hstep, _, h₁, by rw [hticks]; exact hclock, fun t => ?_⟩
    rw [hticks, append_assoc]
    exact hacts t
  obtain ⟨s', hrun, acts, hkept, hclock, hacts⟩ :=
    run_total hbody ⟨fun _ => [], kept_new ticks, rfl, fun _ => rfl⟩ hproper
  refine ⟨s', hrun, hclock, fun last hlast => ?_⟩
  have hsched : OnSchedule timer acts last s'.log :=
    hkept.onSchedule last fun now hnow => (Option.mem_unique hlast hnow).ge
  have hacts' : ∀ t, acts t = activationTicks t ticks calls := fun t => by
    simpa [activationTicks] using hacts t
  have hcancel : ∀ t, .cancel ∉ eventsOf t s'.log := by
    intro t hmem
    obtain ⟨e, he, heq⟩ := mem_map.mp hmem
    exact hsched.uncancelled e (mem_filter.mp he).1 heq
  have hnext : ∀ t, ∀ k ∈ s'.nextTick t, last < k := fun t k hk => by
    have hlater := hkept.upcoming last hlast t k hk
    omega
  have hrounds := hkept.sound.agrees.rounds
  refine ⟨fun t hrep => ?_, fun t a hrep ha => ?_, fun tick htick => ?_⟩
  · have hsets := hsched.planned t
    rw [Planned, hrep, hacts' t] at hsets
    rw [fires_eq_filter (hrounds t) (hcancel t) (hsched.past t) (hnext t), hsets]
  · obtain ⟨-, hnil, -⟩ | ⟨a', m, ha', hdue, hsets⟩ := (hsched.planned t).cases hrep (hrounds t)
    · rw [hacts' t, ha] at hnil
      cases hnil
    · obtain rfl : a' = a := by
        rw [hacts' t, ha] at ha'
        simpa using ha'.symm
      -- all but the last time it was set have fired
      have hfires : fires (eventsOf t s'.log) = progression a' (timer t).ticks m := by
        have heq := sets_eq (hrounds t) (hcancel t)
        rw [hsets, hdue, progression_succ] at heq
        exact (append_inj_left' heq rfl).symm
      have hpast := hsched.past t
      rw [hfires] at hpast ⊢
      rw [length_progression (hpos t) hpast (hnext t _ hdue)]
  · -- what was set for a tick of the past has fired, in this order
    have hempty : s'.list tick = [] := by
      refine eq_nil_iff_forall_not_mem.mpr fun t ht => ?_
      have hlater := hnext t tick ((hkept.sound.agrees.next_eq_some_iff t tick).mpr ht)
      omega
    have hfifo := hkept.sound.agrees.fifo hsched.uncancelled tick
    rwa [hempty, append_nil] at hfifo

/-- Timer 0 fires once after 3 ticks, timer 1 every 2 ticks. -/
theorem timers_on_schedule_sample :
    ∃ s', run (step (fun t => if t = 0 then ⟨3, false⟩ else ⟨2, true⟩) quiet) (new none)
        [.op (.activate 0 1500000), .op (.activate 1 0), .runToTime 2000000, .runToTime 7900000] =
          .ok s' ∧
      fires (eventsOf 0 s'.log) = [4] ∧ fires (eventsOf 1 s'.log) = [3, 5, 7] := by
  obtain ⟨s', hrun, hticks, hfires⟩ := timers_on_schedule
    (fun t => if t = 0 then ⟨3, false⟩ else ⟨2, true⟩) (fun t => by split <;> decide) none
    [.op (.activate 0 1500000), .op (.activate 1 0), .runToTime 2000000, .runToTime 7900000]
    (by decide +kernel)
  have hlast : s'.ticks = some 7 := hticks.trans (by decide +kernel)
  obtain ⟨honce, hrepeated, -⟩ := hfires 7 hlast
  refine ⟨s', hrun, (honce 0 rfl).trans (by decide +kernel), ?_⟩
  exact (hrepeated 1 1 rfl (by decide +kernel)).trans (by decide +kernel)

end Timers

end Snabb
