import Mathlib.Algebra.Order.Field.Basic
import Mathlib.Algebra.Order.BigOperators.Group.List
import Mathlib.Tactic.Linarith
import Mathlib.Tactic.Ring

/-!
# Token buckets

A token bucket holds a level. It is refilled with the time since it was last
looked at, up to its capacity, and every item that is let through takes its cost
out of it. Between two looks nothing happens: time that passes while nobody looks
is paid at the next one, and the level before the first look counts for at most
the capacity.

`Conforms` is the invariant of a bucket and the log of what it has let through.
It says that in every interval the costs are bounded by the capacity and the rate
(`window`); to carry this through a run it also relates the level to what has been
spent since any earlier time (`since`). The operations keep it: `Conforms.refill`
and `Conforms.spend`.
-/

namespace Foundation

open List

variable {K : Type} [Field K] [LinearOrder K]

/-- The level of a bucket and the time of the last refill. -/
structure Bucket (K : Type) where
  level : K
  last : Option K

namespace Bucket

/-- Add what has accrued since the last refill; the first refill adds nothing. -/
def refill (rate cap now : K) (b : Bucket K) : Bucket K where
  level := min (b.level + rate * (now - b.last.getD now)) cap
  last := some now

/-- Take the cost of one item. -/
def spend (cost : K) (b : Bucket K) : Bucket K := { b with level := b.level - cost }

/-- The costs of the items that were let through between two times. An entry of
the log is the time and the cost of an item. -/
def spent (log : List (K × K)) (t₁ t₂ : K) : K :=
  ((log.filter fun e => t₁ ≤ e.1 ∧ e.1 ≤ t₂).map Prod.snd).sum

/-- A bucket and its log conform to a rate and a capacity. -/
structure Conforms (rate cap : K) (b : Bucket K) (log : List (K × K)) : Prop where
  nonneg : 0 ≤ b.level
  past : ∀ e ∈ log, ∀ t ∈ b.last, e.1 ≤ t
  started : b.last = none → log = []
  since : ∀ t ∈ b.last, ∀ t₁ ≤ t, spent log t₁ t + b.level ≤ cap + rate * (t - t₁)
  window : ∀ t₁ t₂, t₁ ≤ t₂ → spent log t₁ t₂ ≤ cap + rate * (t₂ - t₁)

variable {rate cap cost now : K} {b : Bucket K} {log : List (K × K)}

/-! ## The log -/

theorem spent_snoc (t₁ t₂ : K) (e : K × K) :
    spent (log ++ [e]) t₁ t₂ = spent log t₁ t₂ + if t₁ ≤ e.1 ∧ e.1 ≤ t₂ then e.2 else 0 := by
  by_cases h : t₁ ≤ e.1 ∧ e.1 ≤ t₂ <;> simp [spent, filter_append, h]

/-- Nothing was let through in an interval that the log does not reach. -/
theorem spent_eq_zero {t₁ t₂ : K} (h : ∀ e ∈ log, e.1 < t₁) : spent log t₁ t₂ = 0 := by
  have hnil : (log.filter fun e => t₁ ≤ e.1 ∧ e.1 ≤ t₂) = [] := by
    refine filter_eq_nil_iff.mpr fun e he => ?_
    simp [not_le.mpr (h e he)]
  rw [spent, hnil]
  rfl

/-- Behind the last entry an interval may be cut off. -/
theorem spent_eq_of_past {t₁ t t₂ : K} (h : ∀ e ∈ log, e.1 ≤ t) (ht : t ≤ t₂) :
    spent log t₁ t₂ = spent log t₁ t := by
  have hfilter : (log.filter fun e => t₁ ≤ e.1 ∧ e.1 ≤ t₂) =
      log.filter fun e => t₁ ≤ e.1 ∧ e.1 ≤ t := by
    refine filter_congr fun e he => ?_
    have hle := h e he
    simp [hle, hle.trans ht]
  rw [spent, hfilter, spent]

/-! ## The operations conform -/

variable [IsStrictOrderedRing K]

/-- A bucket that nobody has looked at conforms, however full it is. -/
theorem Conforms.fresh (hlevel : 0 ≤ b.level) (hlast : b.last = none) (hcap : 0 ≤ cap)
    (hrate : 0 ≤ rate) : Conforms rate cap b [] where
  nonneg := hlevel
  past := nofun
  started _ := rfl
  since t ht := by simp [hlast] at ht
  window t₁ t₂ ht := by
    have hmul := mul_nonneg hrate (sub_nonneg.mpr ht)
    have hzero : spent ([] : List (K × K)) t₁ t₂ = 0 := rfl
    linarith

/-- **Refilling conforms**: what is added since the last look is paid by the rate,
and an interval that starts later finds at most the capacity. -/
theorem Conforms.refill (h : Conforms rate cap b log) (hrate : 0 ≤ rate) (hcap : 0 ≤ cap)
    (hclock : ∀ t ∈ b.last, t ≤ now) : Conforms rate cap (b.refill rate cap now) log where
  nonneg := by
    have hgap : 0 ≤ now - b.last.getD now := by
      cases hl : b.last with
      | none => simp
      | some t => exact sub_nonneg.mpr (hclock t hl)
    exact le_min (add_nonneg h.nonneg (mul_nonneg hrate hgap)) hcap
  past e he t ht := by
    cases ht
    cases hl : b.last with
    | none =>
      rw [h.started hl] at he
      cases he
    | some t => exact (h.past e he t hl).trans (hclock t hl)
  started := nofun
  since t ht t₁ ht₁ := by
    cases ht
    have hcap' : (b.refill rate cap now).level ≤ cap := min_le_right _ _
    have hmul := mul_nonneg hrate (sub_nonneg.mpr ht₁)
    cases hl : b.last with
    | none =>
      rw [h.started hl]
      have hzero : spent ([] : List (K × K)) t₁ now = 0 := rfl
      linarith
    | some t =>
      have hle := hclock t hl
      rw [spent_eq_of_past (fun e he => h.past e he t hl) hle]
      -- an interval that starts after the last look has seen no spending yet
      by_cases hbefore : t₁ ≤ t
      · have hlevel : (b.refill rate cap now).level ≤ b.level + rate * (now - t) := by
          simp only [Bucket.refill, hl]
          exact min_le_left _ _
        have hsince := h.since t hl t₁ hbefore
        linarith
      · rw [spent_eq_zero fun e he => (h.past e he t hl).trans_lt (not_le.mp hbefore)]
        linarith
  window := h.window

/-- **Spending conforms**: an item that fits takes its cost from the level. -/
theorem Conforms.spend (h : Conforms rate cap b log) (hrate : 0 ≤ rate) (hfit : cost ≤ b.level)
    (hnow : b.last = some now) : Conforms rate cap (b.spend cost) (log ++ [(now, cost)]) := by
  have hsince : ∀ t₁ ≤ now,
      spent (log ++ [(now, cost)]) t₁ now + (b.level - cost) ≤ cap + rate * (now - t₁) := by
    intro t₁ ht₁
    have := h.since now hnow t₁ ht₁
    rw [spent_snoc, if_pos ⟨ht₁, le_refl _⟩]
    linarith
  refine ⟨sub_nonneg.mpr hfit, ?_, ?_, ?_, ?_⟩
  · intro e he t ht
    rcases mem_append.mp he with he | he
    · exact h.past e he t ht
    · rw [mem_singleton.mp he]
      exact le_of_eq (Option.mem_unique hnow ht)
  · intro hnone
    rw [show b.last = none from hnone] at hnow
    cases hnow
  · intro t ht t₁ ht₁
    obtain rfl : now = t := Option.mem_unique hnow ht
    exact hsince t₁ ht₁
  · intro t₁ t₂ ht
    rw [spent_snoc]
    by_cases hin : t₁ ≤ now ∧ now ≤ t₂
    · -- nothing is spent after `now`, so the interval up to `now` decides
      have hall := hsince t₁ hin.1
      have hmore : rate * (now - t₁) ≤ rate * (t₂ - t₁) :=
        mul_le_mul_of_nonneg_left (sub_le_sub_right hin.2 _) hrate
      rw [spent_snoc, if_pos ⟨hin.1, le_refl _⟩] at hall
      rw [if_pos hin, spent_eq_of_past (fun e he => h.past e he now hnow) hin.2]
      linarith
    · rw [if_neg hin, add_zero]
      exact h.window t₁ t₂ ht

end Bucket

end Foundation
