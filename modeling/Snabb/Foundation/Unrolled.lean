import Snabb.Foundation.Run
import Mathlib.Data.Nat.Log

/-!
# Bisections with more than one step a round

A bisection that compares its bounds only once in a few steps goes on for some steps after the
bounds have met. As long as the place where they met is not below what is searched, nothing
changes. If it is, the lower bound gets above the upper one, and the next step looks behind the
range.

- `rounds_turn`: with a turn in the range, the bisection finds it and looks at nothing else;
- `rounds_below`: if all of the range is below, it depends on the size of the range.
-/

namespace Foundation.Unrolled

open List

variable {ε : Type}

/-- The bounds of a bisection, and the places that it has looked at, the latest first. -/
structure Bounds where
  bottom : Int
  top : Int
  looked : List Int

/-- One step. The quotient is rounded towards zero. -/
def halve (below : Int → Except ε Bool) (s : Bounds) : Except ε Bounds := do
  let mid := s.bottom + (s.top - s.bottom).tdiv 2
  if ← below mid then return ⟨mid + 1, s.top, mid :: s.looked⟩
  else return ⟨s.bottom, mid, mid :: s.looked⟩

/-- The steps of a round. -/
def halves (below : Int → Except ε Bool) : Nat → Bounds → Except ε Bounds
  | 0, s => .ok s
  | n + 1, s => do
    let s ← halve below s
    halves below n s

/-- Rounds of `steps` steps until the bounds meet. -/
def rounds (below : Int → Except ε Bool) (steps : Nat) (stuck : ε) : Nat → Bounds → Except ε Bounds
  | 0, _ => .error stuck
  | fuel + 1, s =>
    if s.bottom < s.top then do
      let s ← halves below steps s
      rounds below steps stuck fuel s
    else .ok s

variable {below : Int → Except ε Bool} {s s' : Bounds} {bottom top k : Int} {n c steps fuel : Nat}
  {stuck : ε}

theorem halve_true (h : below (s.bottom + (s.top - s.bottom).tdiv 2) = .ok true) :
    halve below s = .ok ⟨s.bottom + (s.top - s.bottom).tdiv 2 + 1, s.top,
      (s.bottom + (s.top - s.bottom).tdiv 2) :: s.looked⟩ := by
  rw [halve, h]
  rfl

theorem halve_false (h : below (s.bottom + (s.top - s.bottom).tdiv 2) = .ok false) :
    halve below s = .ok ⟨s.bottom, s.bottom + (s.top - s.bottom).tdiv 2,
      (s.bottom + (s.top - s.bottom).tdiv 2) :: s.looked⟩ := by
  rw [halve, h]
  rfl

/-! ## What has been looked at -/

theorem looked_halve (h : halve below s = .ok s') :
    s'.looked = (s.bottom + (s.top - s.bottom).tdiv 2) :: s.looked := by
  cases hb : below (s.bottom + (s.top - s.bottom).tdiv 2) with
  | error e =>
    rw [halve, hb] at h
    cases h
  | ok b =>
    cases b
    · rw [halve_false hb] at h
      cases h
      rfl
    · rw [halve_true hb] at h
      cases h
      rfl

theorem looked_halves (h : halves below n s = .ok s') : s.looked ⊆ s'.looked := by
  induction n generalizing s with
  | zero =>
    cases h
    exact List.Subset.refl _
  | succ n ih =>
    rw [halves] at h
    cases hs : halve below s with
    | error e =>
      rw [hs] at h
      cases h
    | ok t =>
      rw [hs] at h
      have hmore := ih h
      rw [looked_halve hs] at hmore
      exact fun i hi => hmore (mem_cons_of_mem _ hi)

theorem looked_rounds (h : rounds below steps stuck fuel s = .ok s') : s.looked ⊆ s'.looked := by
  induction fuel generalizing s with
  | zero => cases h
  | succ fuel ih =>
    rw [rounds] at h
    split at h
    · cases hs : halves below steps s with
      | error e =>
        rw [hs] at h
        cases h
      | ok t =>
        rw [hs] at h
        exact fun i hi => ih h (looked_halves hs hi)
    · cases h
      exact List.Subset.refl _

/-! ## A turn in the range -/

/-- What comes before `k` is below, and `k` is not. -/
structure Turn (below : Int → Except ε Bool) (bottom top k : Int) : Prop where
  bottom_le : bottom ≤ k
  le_top : k ≤ top
  below_iff : ∀ m, bottom ≤ m → m < top → below m = .ok (decide (m < k))
  at_turn : below k = .ok false

/-- The turn is still between the bounds, and nothing outside of the range has been looked at. -/
structure Within (bottom top k : Int) (s : Bounds) : Prop where
  bottom_le : bottom ≤ s.bottom
  le_turn : s.bottom ≤ k
  turn_le : k ≤ s.top
  le_top : s.top ≤ top
  looked : ∀ i ∈ s.looked, bottom ≤ i ∧ i ≤ top

/-- A step keeps the turn between the bounds, and gets them closer if they have not met. -/
theorem Within.halve (hturn : Turn below bottom top k) (h : Within bottom top k s) :
    ∃ s', Unrolled.halve below s = .ok s' ∧ Within bottom top k s' ∧
      s'.top - s'.bottom ≤ s.top - s.bottom ∧
        (s.bottom < s.top → s'.top - s'.bottom < s.top - s.bottom) := by
  have hbottom := h.bottom_le
  have hle := h.le_turn
  have hge := h.turn_le
  have htop := h.le_top
  obtain ⟨mid, hmid⟩ : ∃ mid, mid = s.bottom + (s.top - s.bottom).tdiv 2 := ⟨_, rfl⟩
  have hdiv : (s.top - s.bottom).tdiv 2 = (s.top - s.bottom) / 2 :=
    Int.tdiv_eq_ediv_of_nonneg (by omega)
  have hbelow : below mid = .ok (decide (mid < k)) := by
    by_cases hopen : s.bottom < s.top
    · exact hturn.below_iff mid (by omega) (by omega)
    · -- the bounds have met
      obtain rfl : mid = k := by omega
      rw [hturn.at_turn, decide_eq_false (Int.lt_irrefl mid)]
  have hlooked : ∀ i ∈ mid :: s.looked, bottom ≤ i ∧ i ≤ top :=
    forall_mem_cons.mpr ⟨by omega, h.looked⟩
  by_cases hlt : mid < k
  · rw [decide_eq_true hlt, hmid] at hbelow
    refine ⟨_, halve_true hbelow, ?_, ?_⟩
    · rw [← hmid]
      exact ⟨show bottom ≤ mid + 1 by omega, show mid + 1 ≤ k by omega, hge, htop, hlooked⟩
    · simp only
      omega
  · rw [decide_eq_false hlt, hmid] at hbelow
    refine ⟨_, halve_false hbelow, ?_, ?_⟩
    · rw [← hmid]
      exact ⟨hbottom, hle, show k ≤ mid by omega, show mid ≤ top by omega, hlooked⟩
    · simp only
      omega

theorem Within.halves (hturn : Turn below bottom top k) (h : Within bottom top k s) (n : Nat) :
    ∃ s', Unrolled.halves below n s = .ok s' ∧ Within bottom top k s' ∧
      s'.top - s'.bottom ≤ s.top - s.bottom ∧
        (0 < n → s.bottom < s.top → s'.top - s'.bottom < s.top - s.bottom) := by
  induction n generalizing s with
  | zero => exact ⟨s, rfl, h, le_rfl, fun hpos => absurd hpos (Nat.lt_irrefl 0)⟩
  | succ n ih =>
    obtain ⟨t, ht, hwithin, hle, hlt⟩ := h.halve hturn
    obtain ⟨s', hs', hwithin', hle', -⟩ := ih hwithin
    refine ⟨s', ?_, hwithin', hle'.trans hle, fun _ hopen => hle'.trans_lt (hlt hopen)⟩
    rw [Unrolled.halves, ht]
    exact hs'

/-- **With a turn in the range, the bisection finds it** and looks at nothing else. -/
theorem rounds_turn (stuck : ε) (hturn : Turn below bottom top k) (h : Within bottom top k s)
    (hsteps : 0 < steps) (hfuel : (s.top - s.bottom).toNat < fuel) :
    ∃ s', rounds below steps stuck fuel s = .ok s' ∧ s'.top = k ∧
      ∀ i ∈ s'.looked, bottom ≤ i ∧ i ≤ top := by
  induction fuel generalizing s with
  | zero => exact absurd hfuel (Nat.not_lt_zero _)
  | succ fuel ih =>
    have hle := h.le_turn
    have hge := h.turn_le
    rw [rounds]
    by_cases hopen : s.bottom < s.top
    · obtain ⟨t, ht, hwithin, -, hlt⟩ := h.halves hturn steps
      obtain ⟨s', hs', hfound⟩ := ih hwithin (by omega)
      refine ⟨s', ?_, hfound⟩
      rw [if_pos hopen, ht]
      exact hs'
    · rw [if_neg hopen]
      exact ⟨s, rfl, by omega, h.looked⟩

/-! ## No turn in the range -/

/-- All of the range is below, and `c` places of it are left. -/
structure Climbing (bottom top : Int) (c : Nat) (s : Bounds) : Prop where
  top_eq : s.top = top
  bottom_eq : s.bottom = top + 1 - c
  bottom_le : bottom ≤ top + 1 - c
  looked : ∀ i ∈ s.looked, bottom ≤ i ∧ i ≤ top

/-- A step leaves half of the places. -/
theorem Climbing.halve (hall : ∀ m, bottom ≤ m → m ≤ top → below m = .ok true)
    (h : Climbing bottom top c s) (hc : 0 < c) :
    ∃ s', Unrolled.halve below s = .ok s' ∧ Climbing bottom top (c / 2) s' := by
  have htop := h.top_eq
  have hbottom := h.bottom_eq
  have hle := h.bottom_le
  obtain ⟨mid, hmid⟩ : ∃ mid, mid = s.bottom + (s.top - s.bottom).tdiv 2 := ⟨_, rfl⟩
  have hdiv : (s.top - s.bottom).tdiv 2 = (s.top - s.bottom) / 2 :=
    Int.tdiv_eq_ediv_of_nonneg (by omega)
  have hbelow := hall mid (by omega) (by omega)
  rw [hmid] at hbelow
  refine ⟨_, halve_true hbelow, ?_⟩
  rw [← hmid]
  exact ⟨htop, show mid + 1 = _ by omega, by omega, forall_mem_cons.mpr ⟨by omega, h.looked⟩⟩

/-- A step that begins with no place left looks behind the range. -/
theorem Climbing.halve_beyond (h : Climbing bottom top 0 s) (hs : Unrolled.halve below s = .ok s') :
    top + 1 ∈ s'.looked := by
  have hgap : s.top - s.bottom = -1 := by
    rw [h.top_eq, h.bottom_eq]
    omega
  rw [looked_halve hs, hgap, h.bottom_eq]
  exact mem_cons.mpr (.inl (by simp))

section

variable (hall : ∀ m, bottom ≤ m → m ≤ top → below m = .ok true)
include hall

theorem Climbing.halves (h : Climbing bottom top c s) (hn : 2 ^ n ≤ 2 * c) :
    ∃ s', Unrolled.halves below n s = .ok s' ∧ Climbing bottom top (c / 2 ^ n) s' := by
  induction n generalizing c s with
  | zero => exact ⟨s, rfl, by rwa [Nat.pow_zero, Nat.div_one]⟩
  | succ n ih =>
    have hpow : 1 ≤ 2 ^ n := Nat.one_le_two_pow
    obtain ⟨t, ht, hclimbing⟩ := h.halve hall (by omega)
    by_cases hlast : n = 0
    · subst hlast
      exact ⟨t, by rw [Unrolled.halves, ht]; rfl, hclimbing⟩
    · have hdouble : 2 ^ n = 2 * 2 ^ (n - 1) := by
        rw [← Nat.pow_succ', Nat.succ_eq_add_one, Nat.sub_add_cancel (by omega)]
      obtain ⟨s', hs', hclimbing'⟩ := ih hclimbing (by omega)
      refine ⟨s', ?_, ?_⟩
      · rw [Unrolled.halves, ht]
        exact hs'
      · rwa [Nat.div_div_eq_div_mul, ← Nat.pow_succ'] at hclimbing'

/-- A round with too few places left looks behind the range. -/
theorem Climbing.halves_beyond (h : Climbing bottom top c s) (hn : c < 2 ^ n)
    (hs : Unrolled.halves below (n + 1) s = .ok s') : top + 1 ∈ s'.looked := by
  induction n generalizing c s with
  | zero =>
    obtain rfl : c = 0 := Nat.lt_one_iff.mp hn
    obtain ⟨t, ht, hrest⟩ := bind_eq_ok hs
    exact looked_halves hrest (h.halve_beyond ht)
  | succ n ih =>
    rw [Unrolled.halves] at hs
    obtain ⟨t, ht, hrest⟩ := bind_eq_ok hs
    by_cases hc : c = 0
    · subst hc
      exact looked_halves hrest (h.halve_beyond ht)
    · obtain ⟨t', ht', hclimbing⟩ := h.halve hall (Nat.pos_of_ne_zero hc)
      obtain rfl := ok_unique ht' ht
      exact ih hclimbing (by omega) hrest

end

/-- **If all of the range is below**, it depends on the exponent of the greatest power of two that
is not greater than the number of places. The bisection returns and has looked at nothing else if
the steps of a round divide the exponent or the number after it. Else it looks behind the range. -/
theorem rounds_below (steps : Nat) (stuck : ε) (hall : ∀ m, bottom ≤ m → m ≤ top → below m = .ok true)
    (h : Climbing bottom top c s) (hc : 0 < c) (hfuel : c ≤ fuel) :
    (Nat.log 2 c % (steps + 1) = 0 ∨ Nat.log 2 c % (steps + 1) = steps →
      ∃ s', rounds below (steps + 1) stuck fuel s = .ok s' ∧ s'.top = top ∧
        ∀ i ∈ s'.looked, bottom ≤ i ∧ i ≤ top) ∧
    (¬ (Nat.log 2 c % (steps + 1) = 0 ∨ Nat.log 2 c % (steps + 1) = steps) →
      ∀ s', rounds below (steps + 1) stuck fuel s = .ok s' → top + 1 ∈ s'.looked) := by
  induction fuel generalizing c s with
  | zero => exact absurd hfuel (by omega)
  | succ fuel ih =>
    have htop := h.top_eq
    have hbottom := h.bottom_eq
    rw [rounds]
    by_cases hone : c = 1
    · subst hone
      rw [if_neg (by omega)]
      refine ⟨fun _ => ⟨s, rfl, htop, h.looked⟩, fun hlog => absurd (.inl ?_) hlog⟩
      rw [Nat.log_one_right, Nat.zero_mod]
    · rw [if_pos (by omega)]
      by_cases hfew : c < 2 ^ steps
      · have hlog : Nat.log 2 c < steps := Nat.log_lt_of_lt_pow (by omega) hfew
        have hpos : 0 < Nat.log 2 c := Nat.log_pos (by decide) (by omega)
        rw [Nat.mod_eq_of_lt (by omega)]
        refine ⟨fun hlog' => by omega, fun _ s' hs' => ?_⟩
        obtain ⟨t, ht, hrest⟩ := bind_eq_ok hs'
        exact looked_rounds hrest (h.halves_beyond hall hfew ht)
      · have hmany : 2 ^ (steps + 1) ≤ 2 * c := by
          omega
        obtain ⟨t, ht, hclimbing⟩ := h.halves hall hmany
        rw [bind_of_eq_ok ht]
        by_cases hlast : c / 2 ^ (steps + 1) = 0
        · -- the bounds have passed each other with the last step of the round
          have hlt : c < 2 ^ (steps + 1) := Nat.lt_of_div_eq_zero (Nat.two_pow_pos _) hlast
          have hlog : Nat.log 2 c = steps :=
            Nat.log_eq_of_pow_le_of_lt_pow (Nat.not_lt.mp hfew) hlt
          have hgap : ¬ t.bottom < t.top := by
            rw [hclimbing.top_eq, hclimbing.bottom_eq]
            omega
          rw [hlog, Nat.mod_eq_of_lt (Nat.lt_succ_self steps)]
          refine ⟨fun _ => ⟨t, ?_, hclimbing.top_eq, hclimbing.looked⟩,
            fun hnot => absurd (.inr rfl) hnot⟩
          cases fuel with
          | zero => omega
          | succ fuel => rw [rounds, if_neg hgap]
        · have hle : 2 ^ (steps + 1) ≤ c := by
            by_contra hlt
            exact hlast (Nat.div_eq_of_lt (Nat.not_le.mp hlt))
          have hlog : steps + 1 ≤ Nat.log 2 c := Nat.le_log_of_pow_le (by decide) hle
          have hsmaller : c / 2 ^ (steps + 1) ≤ fuel := by
            have hhalf : c / 2 ^ (steps + 1) ≤ c / 2 :=
              Nat.div_le_div_left (Nat.le_self_pow (Nat.succ_ne_zero steps) 2) (by decide)
            omega
          have hdeeper := ih hclimbing (Nat.pos_of_ne_zero hlast) hsmaller
          rwa [Nat.log_div_base_pow, ← Nat.mod_eq_sub_mod hlog] at hdeeper

end Foundation.Unrolled
