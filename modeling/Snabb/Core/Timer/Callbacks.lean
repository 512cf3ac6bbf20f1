import Snabb.Core.Timer.Model

/-!
# Callbacks that use the timer module

A callback may activate and cancel timers while `call_timers` goes through the list of
the tick. That is safe as long as it leaves this list alone: `Careful` says that the
callbacks cancel no timer that is due in the tick that is visited, activate no timer for
it, and that a repeating timer is inactive when its callback returns.

The table of the module is an agenda (`Agrees`). While a tick is visited, the timers
already called are still in its list but no longer due (`Visiting`).
-/

namespace Snabb

open List
open Function (comp update update_comm update_eq_self update_idem update_of_ne update_self)

namespace Timers

open Foundation Agenda

variable (timer : TimerId → Timer) (fn : TimerId → Timers → List TimerOp)

/-! ## The condition -/

/-- What a callback may do while `tick` is visited. -/
def CarefulOp (tick : ℤ) (s : Timers) : TimerOp → Prop
  | .activate t _ => s.nextTick t = none ∧ (timer t).ticks ≠ 0
  | .cancel t => s.nextTick t ≠ some tick

/-- The callback of the timer at index `i` is careful, and if the timer is repeating then
it can be activated again when the callback has returned, for a later tick. -/
def CarefulCall (tick : ℤ) (s : Timers) (i : Nat) : Prop :=
  ∀ t ∈ (s.list tick)[i]?,
    Along (perform timer) (CarefulOp timer tick) (s.fire t tick) (fn t (s.fire t tick)) ∧
    ((timer t).repeating = true → (timer t).ticks ≠ 0 ∧
      ∀ s' ∈ (run (perform timer) (s.fire t tick) (fn t (s.fire t tick))).toOption,
        s'.nextTick t = none)

/-- All callbacks called at a tick are careful. -/
def CarefulVisit (s : Timers) (tick : ℤ) : Prop :=
  Along (callTimer timer fn tick) (CarefulCall timer fn tick) { s with ticks := some tick }
    (List.range' 0 (s.list tick).length)

/-- From outside, `activate` is called for inactive timers only and `run_to_time` once there
is a current tick. -/
def Careful (s : Timers) : TimerCall → Prop
  | .op (.activate t _) => s.nextTick t = none
  | .op (.cancel _) => True
  | .runToTime ns => ∃ ticks ∈ s.ticks,
      Along (visit timer fn) (CarefulVisit timer fn) s (ticksFrom ticks (tickOf ns))

instance (tick : ℤ) (s : Timers) : ∀ op, Decidable (CarefulOp timer tick s op)
  | .activate _ _ => inferInstanceAs (Decidable (_ ∧ _))
  | .cancel _ => inferInstanceAs (Decidable (_ ≠ _))

instance (tick : ℤ) (s : Timers) (i : Nat) : Decidable (CarefulCall timer fn tick s i) :=
  inferInstanceAs (Decidable (∀ t ∈ (s.list tick)[i]?, _))

instance (s : Timers) (tick : ℤ) : Decidable (CarefulVisit timer fn s tick) :=
  inferInstanceAs (Decidable (Along ..))

instance (s : Timers) : ∀ call, Decidable (Careful timer fn s call)
  | .op (.activate t _) => inferInstanceAs (Decidable (s.nextTick t = none))
  | .op (.cancel _) => inferInstanceAs (Decidable True)
  | .runToTime _ => inferInstanceAs (Decidable (∃ ticks ∈ s.ticks, _))

/-! ## What the operations do to the agenda -/

variable {timer fn} {s s' : Timers} {t : TimerId} {tick : ℤ} {i n : Nat}

theorem list_update (f : ℤ → Option (List TimerId)) (k tick : ℤ) (l : List TimerId) :
    (update f tick (some l) k).getD [] =
      update (fun k => (f k).getD []) tick l k := by
  by_cases hk : k = tick
  · subst hk
    simp
  · simp [hk]

@[simp] theorem list_schedule (s : Timers) (t : TimerId) (tick : ℤ) :
    (s.schedule t tick).list = update s.list tick (s.list tick ++ [t]) := by
  funext k
  exact list_update ..

@[simp] theorem list_unschedule (s : Timers) (t : TimerId) (tick : ℤ) :
    (s.unschedule t tick).list = update s.list tick ((s.list tick).erase t) := by
  funext k
  exact list_update ..

@[simp] theorem nextTick_schedule (s : Timers) (t : TimerId) (tick : ℤ) :
    (s.schedule t tick).nextTick = update s.nextTick t (some tick) := rfl

theorem activate_ok (h : s.nextTick t = none) (now : Nat) :
    activate timer t now s = .ok (schedule t (s.ticks.getD (tickOf now) + (timer t).ticks)
      { s with ticks := some (s.ticks.getD (tickOf now)) }) := by
  rw [activate, if_pos h]

variable {k : ℤ}

theorem cancel_ok (h : s.nextTick t = some k) (hmem : t ∈ s.list k) :
    cancel t s = .ok (s.unschedule t k) := by
  unfold list at hmem
  cases hl : s.timers k with
  | none => simp [hl] at hmem
  | some l =>
    rw [hl, Option.getD_some] at hmem
    simp only [cancel, h, hl, if_pos hmem]

/-- No timer is due before `k`. -/
def Upcoming (k : ℤ) (s : Timers) : Prop := ∀ t k', s.nextTick t = some k' → k ≤ k'

theorem Upcoming.schedule (h : Upcoming k s) (hle : k ≤ tick) : Upcoming k (s.schedule t tick) := by
  intro j k' hj
  by_cases hjt : j = t
  · subst hjt
    rw [nextTick_schedule, update_self] at hj
    exact Option.some.inj hj ▸ hle
  · rw [nextTick_schedule, update_of_ne hjt] at hj
    exact h j k' hj

theorem Upcoming.clear (h : Upcoming k s)
    (heq : s'.nextTick = update s.nextTick t none) : Upcoming k s' := by
  intro j k' hj
  rw [heq] at hj
  by_cases hjt : j = t
  · subst hjt
    rw [update_self] at hj
    cases hj
  · rw [update_of_ne hjt] at hj
    exact h j k' hj

/-! ## One tick -/

/-- While `tick` is visited, after `i` of the `n` timers in its list have been called. -/
structure Visiting (tick : ℤ) (n i : Nat) (s : Timers) : Prop where
  ticks_eq : s.ticks = some tick
  length_eq : (s.list tick).length = n
  agrees : Agrees s.nextTick (update s.list tick ((s.list tick).drop i)) s.log
  upcoming : Upcoming tick s

/-- To activate a timer for a later tick leaves the list of the tick alone. -/
theorem Visiting.activate (hnonneg : ∀ t, 0 ≤ (timer t).ticks) (h : Visiting tick n i s)
    (hnone : s.nextTick t = none) (hne : (timer t).ticks ≠ 0) (now : Nat) :
    ∃ s', activate timer t now s = .ok s' ∧ Visiting tick n i s' := by
  have hpos := hnonneg t
  -- with 0 ticks the timer would join the list that is being visited
  have hlater : tick + (timer t).ticks ≠ tick := by omega
  refine ⟨_, activate_ok hnone now, ?_⟩
  simp only [h.ticks_eq, Option.getD_some]
  rw [← h.ticks_eq]
  constructor
  · exact h.ticks_eq
  · rw [list_schedule, update_of_ne hlater.symm]
    exact h.length_eq
  · have hset := h.agrees.set hnone (tick + (timer t).ticks)
    rw [update_of_ne hlater, update_comm hlater.symm] at hset
    rw [list_schedule, update_of_ne hlater.symm]
    exact hset
  · exact h.upcoming.schedule (by omega)

theorem Visiting.cancel (h : Visiting tick n i s) (hother : s.nextTick t ≠ some tick) :
    ∃ s', cancel t s = .ok s' ∧ Visiting tick n i s' := by
  cases hnext : s.nextTick t with
  | none => exact ⟨s, by simp [Timers.cancel, hnext], h⟩
  | some k =>
    have hk : k ≠ tick := fun heq => hother (by rw [hnext, heq])
    have hmem : t ∈ s.list k := by
      have hdue := (h.agrees.next_eq_some_iff t k).mp hnext
      rwa [update_of_ne hk] at hdue
    refine ⟨_, cancel_ok hnext hmem, ?_⟩
    constructor
    · exact h.ticks_eq
    · rw [list_unschedule, update_of_ne hk.symm]
      exact h.length_eq
    · have hcancel := h.agrees.cancel hnext
      rw [update_of_ne hk, update_comm hk.symm] at hcancel
      rw [list_unschedule, update_of_ne hk.symm]
      exact hcancel
    · exact h.upcoming.clear rfl

theorem Visiting.perform (hnonneg : ∀ t, 0 ≤ (timer t).ticks) (h : Visiting tick n i s)
    {op : TimerOp} (hop : CarefulOp timer tick s op) :
    ∃ s', perform timer s op = .ok s' ∧ Visiting tick n i s' := by
  cases op with
  | activate t now => exact h.activate hnonneg hop.1 hop.2 now
  | cancel t => exact h.cancel hop

theorem Visiting.head (h : Visiting tick n i s) (hi : i < n) :
    ∃ t, (s.list tick)[i]? = some t ∧
      (s.list tick).drop i = t :: (s.list tick).drop (i + 1) := by
  have hlt : i < (s.list tick).length := by rw [h.length_eq]; exact hi
  exact ⟨(s.list tick)[i], List.getElem?_eq_getElem hlt, drop_eq_getElem_cons hlt⟩

theorem Visiting.fire (h : Visiting tick n i s)
    (hhead : (s.list tick).drop i = t :: (s.list tick).drop (i + 1)) :
    Visiting tick n (i + 1) (s.fire t tick) where
  ticks_eq := h.ticks_eq
  length_eq := h.length_eq
  agrees := by
    have hfire := h.agrees.fire (k := tick) (i := t) (by rw [update_self]; exact hhead)
    rwa [update_idem] at hfire
  upcoming := h.upcoming.clear rfl

/-- **A call** of the next timer returns, and leaves the other timers of the list to come. -/
theorem Visiting.callTimer (hnonneg : ∀ t, 0 ≤ (timer t).ticks) (h : Visiting tick n i s)
    (hi : i < n) (hcall : CarefulCall timer fn tick s i) :
    ∃ s', callTimer timer fn tick s i = .ok s' ∧ Visiting tick n (i + 1) s' := by
  obtain ⟨t, ht, hhead⟩ := h.head hi
  obtain ⟨hops, hrepeat⟩ := hcall t ht
  obtain ⟨s₁, hrun, h₁⟩ := run_total (I := fun s _ => Visiting tick n (i + 1) s)
    (fun s op _ hs hop => hs.perform hnonneg hop) (h.fire hhead) hops
  simp only [Timers.callTimer, ht]
  cases hrep : (timer t).repeating with
  | true =>
    obtain ⟨hne, hreturned⟩ := hrepeat hrep
    -- the callback must leave the timer to `call_timers`
    have hinactive : s₁.nextTick t = none := hreturned s₁ (by rw [hrun]; rfl)
    obtain ⟨s₂, hactivate, h₂⟩ := h₁.activate hnonneg hinactive hne 0
    refine ⟨s₂, ?_, h₂⟩
    rw [hrun]
    exact hactivate
  | false =>
    refine ⟨s₁, ?_, h₁⟩
    rw [hrun]
    rfl

/-- Every call of a timer that is due by `last` keeps `Q` of the log. -/
def KeptByCalls (timer : TimerId → Timer) (fn : TimerId → Timers → List TimerOp) (last : ℤ)
    (Q : List (TimerId × Event ℤ) → Prop) : Prop :=
  ∀ tick n i s s', tick ≤ last → i < n → Visiting tick n i s →
    callTimer timer fn tick s i = .ok s' → Q s.log → Q s'.log

section Loops

variable {Q : List (TimerId × Event ℤ) → Prop} {first last : ℤ}

section

variable (hnonneg : ∀ t, 0 ≤ (timer t).ticks) (hQ : KeptByCalls timer fn last Q)
  (htick : tick ≤ last)
include hnonneg hQ htick

/-- **All calls of a tick** return, and afterwards no timer of the list is left to come. -/
theorem Visiting.callTimers (h : Visiting tick n 0 s) (hlog : Q s.log)
    (hcalls : Along (Timers.callTimer timer fn tick) (CarefulCall timer fn tick) s
      (List.range' 0 n)) :
    ∃ s', run (Timers.callTimer timer fn tick) s (List.range' 0 n) = .ok s' ∧
      Visiting tick n n s' ∧ Q s'.log := by
  -- `i` calls were made, and the numbers from `i` on are left
  let Called s is : Prop :=
    ∃ i, is = List.range' i (n - i) ∧ i ≤ n ∧ Visiting tick n i s ∧ Q s.log
  have hbody : ∀ s j is, Called s (j :: is) → CarefulCall timer fn tick s j →
      ∃ s', Timers.callTimer timer fn tick s j = .ok s' ∧ Called s' is := by
    rintro s j is ⟨i, his, hle, hs, hlog⟩ hcall
    have hlt : i < n := by
      by_contra hge
      rw [Nat.sub_eq_zero_of_le (by omega)] at his
      cases his
    rw [show n - i = (n - (i + 1)) + 1 by omega] at his
    cases his
    obtain ⟨s₁, hs₁, h₁⟩ := hs.callTimer hnonneg hlt hcall
    exact ⟨s₁, hs₁, j + 1, rfl, hlt, h₁, hQ _ _ _ _ _ htick hlt hs hs₁ hlog⟩
  obtain ⟨s', hrun, i, hi, hle, h', hlog'⟩ :=
    run_total hbody ⟨0, rfl, Nat.zero_le n, h, hlog⟩ hcalls
  have hlen := congrArg List.length hi
  rw [length_range', length_nil] at hlen
  obtain rfl : i = n := by omega
  exact ⟨s', hrun, h', hlog'⟩

/-- **A visit** of a tick returns; afterwards every active timer is due later. -/
theorem visit_ok
    (hagrees : Agrees s.nextTick s.list s.log) (hupcoming : Upcoming tick s) (hlog : Q s.log)
    (hvisit : CarefulVisit timer fn s tick) :
    ∃ s', visit timer fn s tick = .ok s' ∧ s'.ticks = some tick ∧
      Agrees s'.nextTick s'.list s'.log ∧ Upcoming (tick + 1) s' ∧ Q s'.log := by
  cases hl : s.timers tick with
  | none =>
    refine ⟨{ s with ticks := some tick }, ?_, rfl, hagrees, fun t k ht => ?_, hlog⟩
    · simp only [visit, hl]
      rfl
    · have hne : k ≠ tick := by
        rintro rfl
        have hmem := (hagrees.next_eq_some_iff t k).mp ht
        simp [list, hl] at hmem
      have hle := hupcoming t k ht
      omega
  | some l =>
    have hstart : Visiting tick (s.list tick).length 0 { s with ticks := some tick } := by
      refine ⟨rfl, rfl, ?_, hupcoming⟩
      rw [drop_zero, update_eq_self]
      exact hagrees
    obtain ⟨s₁, hrun, h₁, hlog₁⟩ := hstart.callTimers hnonneg hQ htick hlog hvisit
    -- all that was in the list was called, so that it can be dropped
    have hempty : update s₁.list tick ((s₁.list tick).drop (s.list tick).length) =
        update s₁.list tick [] := by
      rw [drop_of_length_le h₁.length_eq.le]
    refine ⟨{ s₁ with timers := update s₁.timers tick none }, ?_, h₁.ticks_eq, ?_, ?_,
      hlog₁⟩
    · simp only [visit, hl]
      show (run _ _ (List.range' 0 (s.list tick).length) >>= _) = _
      rw [hrun]
      rfl
    · have hagrees₁ := h₁.agrees
      rw [hempty] at hagrees₁
      convert hagrees₁ using 1
      funext k
      by_cases hk : k = tick
      · subst hk
        simp [list]
      · simp [list, hk]
    · intro t k ht
      have hne : k ≠ tick := by
        rintro rfl
        have hmem := (h₁.agrees.next_eq_some_iff t k).mp ht
        rw [hempty, update_self] at hmem
        cases hmem
      have hle := h₁.upcoming t k ht
      omega

end

/-! ## Whole calls -/

theorem ticksFrom_of_le (h : first ≤ last) :
    ticksFrom first last = first :: ticksFrom (first + 1) last := by
  have hcount : (last + 1 - first).toNat = (last + 1 - (first + 1)).toNat + 1 := by omega
  simp only [ticksFrom, hcount, range_succ_eq_map, map_cons, map_map]
  congr 1
  · simp
  · refine map_congr_left fun k _ => ?_
    simp only [comp]
    push_cast
    ring

theorem ticksFrom_of_lt (h : last < first) : ticksFrom first last = [] := by
  rw [ticksFrom, Int.toNat_of_nonpos (by omega)]
  rfl

/-- Between two calls: the table is an agenda, and no timer is due in the past. -/
structure Sound (s : Timers) : Prop where
  agrees : Agrees s.nextTick s.list s.log
  upcoming : ∀ now, s.ticks = some now → Upcoming now s
  unused : s.ticks = none → ∀ t, s.nextTick t = none

theorem sound_new (ticks : Option ℤ) : Sound (new ticks) where
  agrees := Agrees.new
  upcoming _ _ _ _ h := by cases h
  unused _ _ := rfl

/-- **The loop over the ticks.** Every timer that is due up to the last tick is called;
afterwards every active timer is due later. -/
theorem visits_ok (hnonneg : ∀ t, 0 ≤ (timer t).ticks) (hQ : KeptByCalls timer fn last Q)
    (hle : first ≤ last) (hagrees : Agrees s.nextTick s.list s.log)
    (hupcoming : Upcoming first s) (hlog : Q s.log)
    (halong : Along (visit timer fn) (CarefulVisit timer fn) s (ticksFrom first last)) :
    ∃ s', run (visit timer fn) s (ticksFrom first last) = .ok s' ∧ s'.ticks = some last ∧
      Agrees s'.nextTick s'.list s'.log ∧ Upcoming (last + 1) s' ∧ Q s'.log := by
  -- on the number of ticks still to be visited
  obtain ⟨m, hm⟩ := Int.eq_ofNat_of_zero_le (Int.sub_nonneg_of_le hle)
  induction m generalizing s first with
  | zero =>
    obtain rfl : first = last := by omega
    rw [ticksFrom_of_le le_rfl, ticksFrom_of_lt (by omega)] at halong ⊢
    obtain ⟨s', hvisit, hrest⟩ := visit_ok hnonneg hQ hle hagrees hupcoming hlog halong.1
    exact ⟨s', by rw [run_cons_ok hvisit]; rfl, hrest⟩
  | succ m ih =>
    rw [ticksFrom_of_le hle] at halong ⊢
    obtain ⟨s₁, hvisit, -, hagrees₁, hupcoming₁, hlog₁⟩ :=
      visit_ok hnonneg hQ hle hagrees hupcoming hlog halong.1
    rw [run_cons_ok hvisit]
    exact ih (by omega) hagrees₁ hupcoming₁ hlog₁ (halong.2 s₁ hvisit) (by omega)

/-- **`run_to_time`** returns. Either the time is before the current tick and nothing
happens, or every timer that is due by then has been called. -/
theorem Sound.runToTime {ns : ℚ} {now : ℤ} (hnonneg : ∀ t, 0 ≤ (timer t).ticks)
    (hQ : KeptByCalls timer fn (tickOf ns) Q) (h : Sound s) (hticks : s.ticks = some now) (hlog : Q s.log)
    (halong : Along (visit timer fn) (CarefulVisit timer fn) s (ticksFrom now (tickOf ns))) :
    ∃ s', runToTime timer fn ns s = .ok s' ∧ Sound s' ∧ Q s'.log ∧
      (tickOf ns < now ∧ s' = s ∨
        now ≤ tickOf ns ∧ s'.ticks = some (tickOf ns) ∧ Upcoming (tickOf ns + 1) s') := by
  simp only [Timers.runToTime, hticks]
  rcases Int.lt_or_le (tickOf ns) now with hlt | hle
  · rw [ticksFrom_of_lt hlt]
    exact ⟨s, rfl, h, hlog, .inl ⟨hlt, rfl⟩⟩
  · obtain ⟨s', hrun, hticks', hagrees, hupcoming, hlog'⟩ :=
      visits_ok hnonneg hQ hle h.agrees (h.upcoming now hticks) hlog halong
    refine ⟨s', hrun, ⟨hagrees, fun k hk t k' ht => ?_, fun hnone => ?_⟩, hlog',
      .inr ⟨hle, hticks', hupcoming⟩⟩
    · obtain rfl := Option.mem_unique hticks' hk
      have hlater := hupcoming t k' ht
      omega
    · rw [hticks'] at hnone
      cases hnone

end Loops

theorem Sound.activate (hnonneg : ∀ t, 0 ≤ (timer t).ticks) (h : Sound s)
    (hnone : s.nextTick t = none) (now : Nat) :
    Sound (schedule t (s.ticks.getD (tickOf now) + (timer t).ticks)
      { s with ticks := some (s.ticks.getD (tickOf now)) }) where
  agrees := by
    rw [list_schedule]
    exact h.agrees.set hnone _
  upcoming := by
    intro k hk
    cases hk
    have hpos := hnonneg t
    refine Upcoming.schedule (fun j k' hj => ?_) (by omega)
    cases hticks : s.ticks with
    | none => simp [h.unused hticks j] at hj
    | some ticks => exact h.upcoming ticks hticks j k' hj
  unused hticks := by cases hticks

theorem Sound.cancel (h : Sound s) (t : TimerId) : ∃ s', cancel t s = .ok s' ∧ Sound s' := by
  cases hnext : s.nextTick t with
  | none => exact ⟨s, by simp [Timers.cancel, hnext], h⟩
  | some k =>
    refine ⟨_, cancel_ok hnext ((h.agrees.next_eq_some_iff t k).mp hnext), ?_, ?_, ?_⟩
    · rw [list_unschedule]
      exact h.agrees.cancel hnext
    · exact fun now hnow => (h.upcoming now hnow).clear rfl
    · intro hnone
      rw [h.unused hnone t] at hnext
      cases hnext

/-- **A call** from outside that meets the condition returns. -/
theorem Sound.step (hnonneg : ∀ t, 0 ≤ (timer t).ticks) (h : Sound s) {call : TimerCall}
    (hcall : Careful timer fn s call) :
    ∃ s', step timer fn s call = .ok s' ∧ Sound s' ∧
      ∀ ns, call = .runToTime ns → Upcoming (tickOf ns + 1) s' := by
  match call with
  | .op (.activate t now) =>
    exact ⟨_, activate_ok hcall now, h.activate hnonneg hcall now, fun _ heq => by cases heq⟩
  | .op (.cancel t) =>
    obtain ⟨s', hcancel, h'⟩ := h.cancel t
    exact ⟨s', hcancel, h', fun _ heq => by cases heq⟩
  | .runToTime ns =>
    obtain ⟨now, hticks, halong⟩ := hcall
    obtain ⟨s', hrun, h', -, hpast | ⟨-, -, hupcoming⟩⟩ :=
      h.runToTime (Q := fun _ => True) hnonneg (fun _ _ _ _ _ _ _ _ _ _ => trivial) hticks trivial
        halong
    · refine ⟨s', hrun, h', ?_⟩
      rintro _ ⟨⟩ t k ht
      obtain ⟨hlt, rfl⟩ := hpast
      have hle := h'.upcoming now hticks t k ht
      omega
    · refine ⟨s', hrun, h', ?_⟩
      rintro _ ⟨⟩
      exact hupcoming

/-- **Careful callbacks are safe.** In every run whose calls and callbacks meet the
condition, no call raises, and after each of them

- the log of every timer consists of rounds: it is activated for a tick, and then it is
  called at exactly that tick or cancelled before, and a round that is open belongs to a
  timer that is marked active;
- a timer that is marked active is in the list of its tick, exactly once, and the lists
  have no other timers;
- when `run_to_time` returns, every timer that was due by then has been called. -/
theorem callbacks_safe (timer : TimerId → Timer) (fn : TimerId → Timers → List TimerOp)
    (hnonneg : ∀ t, 0 ≤ (timer t).ticks) (ticks : Option ℤ) (calls : List TimerCall)
    (hcareful : Along (Timers.step timer fn) (Careful timer fn) (new ticks) calls) :
    ∃ s', run (Timers.step timer fn) (new ticks) calls = .ok s' ∧
      (∀ t, Rounds (eventsOf t s'.log) (s'.nextTick t)) ∧
      (∀ t tick, s'.nextTick t = some tick ↔ t ∈ s'.list tick) ∧
      (∀ tick, (s'.list tick).Nodup) ∧
      ∀ ns, calls.getLast? = some (.runToTime ns) →
        ∀ t tick, s'.nextTick t = some tick → tickOf ns < tick := by
  let Reached s rest : Prop := Sound s ∧ ∃ past,
    past ++ rest = calls ∧ ∀ ns, past.getLast? = some (.runToTime ns) → Upcoming (tickOf ns + 1) s
  have hbody : ∀ s call rest, Reached s (call :: rest) → Careful timer fn s call →
      ∃ s', Timers.step timer fn s call = .ok s' ∧ Reached s' rest := by
    rintro s call rest ⟨hs, past, hpast, -⟩ hcall
    obtain ⟨s₁, hstep, h₁, hlast⟩ := hs.step hnonneg hcall
    refine ⟨s₁, hstep, h₁, past ++ [call], by rw [append_assoc]; exact hpast, fun ns => ?_⟩
    rw [List.getLast?_concat]
    exact fun heq => hlast ns (Option.some.inj heq)
  obtain ⟨s', hrun, h', past, rfl, hlast⟩ :=
    run_total hbody ⟨sound_new ticks, [], rfl, fun _ h => by cases h⟩ hcareful
  refine ⟨s', hrun, h'.agrees.rounds, h'.agrees.next_eq_some_iff, h'.agrees.nodup, ?_⟩
  intro ns hns t tick ht
  rw [append_nil] at hns
  have hlater := hlast ns hns t tick ht
  omega

/-- Timer 0 fires after a tick and then stops timer 2 and starts timer 1, which repeats. -/
theorem callbacks_safe_sample :
    ∃ s', run (step (fun t => ⟨t + 1, t = 1⟩)
        fun t _ => if t = 0 then [.cancel 2, .activate 1 0] else [])
        (new (some 0)) [.op (.activate 0 0), .op (.activate 2 0), .runToTime 8000000] = .ok s' ∧
      (∀ t, Rounds (eventsOf t s'.log) (s'.nextTick t)) ∧
      fires (eventsOf 1 s'.log) = [3, 5, 7] ∧ fires (eventsOf 2 s'.log) = [] := by
  obtain ⟨s', hrun, hrounds, -⟩ := callbacks_safe (fun t => ⟨t + 1, t = 1⟩)
    (fun t _ => if t = 0 then [.cancel 2, .activate 1 0] else []) (fun t => by simp; omega) (some 0)
    [.op (.activate 0 0), .op (.activate 2 0), .runToTime 8000000] (by decide +kernel)
  have hfires : (run (step (fun t => ⟨t + 1, t = 1⟩)
      fun t _ => if t = 0 then [.cancel 2, .activate 1 0] else [])
      (new (some 0)) [.op (.activate 0 0), .op (.activate 2 0), .runToTime 8000000]).toOption.any
      (fun s => fires (eventsOf 1 s.log) = [3, 5, 7] ∧ fires (eventsOf 2 s.log) = []) = true := by
    decide +kernel
  rw [hrun] at hfires
  exact ⟨s', hrun, hrounds, of_decide_eq_true hfires⟩

/-- A callback that cancels a timer of the same tick makes `call_timers` run past the end
of the list. A timer that it activates with 0 ticks is lost, and so is a repeating timer
with 0 ticks: it stays marked active, is in no list and does not fire, and cancelling it
raises. A callback of a repeating timer that activates this timer fails the assertion. -/
theorem callbacks_unsafe :
    raised (run (step (fun _ => ⟨1, false⟩) fun t _ => if t = 0 then [.cancel 1] else [])
      (new (some 0)) [.op (.activate 0 0), .op (.activate 1 0), .runToTime 1000000]) =
        some .noTimer ∧
    (run (step (fun t => ⟨1 - t, false⟩) fun t _ => if t = 0 then [.activate 1 0] else [])
      (new (some 0)) [.op (.activate 0 0), .runToTime 1000000, .runToTime 9000000]).toOption.any
        (fun s => s.nextTick 1 = some 1 ∧ s.timers 1 = none ∧ fires (eventsOf 1 s.log) = []) ∧
    (run (step (fun _ => ⟨0, true⟩) fun _ _ => [])
      (new (some 0)) [.op (.activate 0 0), .runToTime 1000000, .runToTime 9000000]).toOption.any
        (fun s => s.nextTick 0 = some 0 ∧ s.timers 0 = none ∧ fires (eventsOf 0 s.log) = [0]) ∧
    raised (run (step (fun _ => ⟨0, true⟩) fun _ _ => [])
      (new (some 0)) [.op (.activate 0 0), .runToTime 1000000, .op (.cancel 0)]) =
        some .noList ∧
    raised (run (step (fun _ => ⟨1, true⟩) fun t _ => [.activate t 0])
      (new (some 0)) [.op (.activate 0 0), .runToTime 1000000]) =
        some .alreadyActivated := by
  decide +kernel

end Timers

end Snabb
