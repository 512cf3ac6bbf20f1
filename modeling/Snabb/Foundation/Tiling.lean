import Mathlib.Algebra.GroupWithZero.Nat
import Mathlib.Data.List.Count
import Mathlib.Data.List.Perm.Basic
import Mathlib.Data.List.Sort
import Mathlib.Order.Nat

/-!
# Pieces that tile a range

A piece goes from its first number to the one before its second. Pieces tile the numbers below a
bound if each of these is in one piece and no piece has others.

To decide this it is enough to look at where pieces start and where they stop, without knowing
which start goes with which stop.

- `tiles_iff_perm`: pieces tile a range if and only if the starts and the bound are 0 and the stops;
- `Tiles.starts_concat`: for pieces that are not empty this is so in order, too.
-/

namespace Foundation.Tiling

open List
open Prod (snd fst)

variable {ps qs : List (Nat × Nat)} {p q : Nat × Nat} {n x : Nat} {starts stops : List Nat}

/-- How many pieces a number is in. -/
def coverage (ps : List (Nat × Nat)) (x : Nat) : Nat := ps.countP fun p => p.1 ≤ x ∧ x < p.2

/-- Each number below the bound is in one piece, and the others are in none. -/
def Tiles (ps : List (Nat × Nat)) (n : Nat) : Prop :=
  ∀ x, coverage ps x = if x < n then 1 else 0

/-- How long the pieces are together. -/
def total (ps : List (Nat × Nat)) : Nat := (ps.map fun p => p.2 - p.1).sum

@[simp] theorem total_nil : total [] = 0 := rfl

@[simp] theorem total_cons : total (p :: ps) = p.2 - p.1 + total ps := rfl

@[simp] theorem total_append : total (ps ++ qs) = total ps + total qs := by
  simp [total]

theorem total_le {m : Nat} (h : ∀ p ∈ ps, p.2 - p.1 ≤ m) : total ps ≤ ps.length * m := by
  induction ps with
  | nil => exact Nat.zero_le _
  | cons p ps ih =>
    obtain ⟨hp, hps⟩ := forall_mem_cons.mp h
    have ih := ih hps
    rw [total_cons, length_cons, Nat.succ_mul]
    omega

theorem length_le_total (hpos : ∀ p ∈ ps, p.1 < p.2) : ps.length ≤ total ps := by
  induction ps with
  | nil => exact le_rfl
  | cons p ps ih =>
    obtain ⟨hp, hps⟩ := forall_mem_cons.mp hpos
    have ih := ih hps
    rw [total_cons, length_cons]
    omega

/-- A number is in those pieces that start at it or before, but for those that stop there. -/
theorem coverage_add (hle : ∀ p ∈ ps, p.1 ≤ p.2) (x : Nat) :
    coverage ps x + (ps.map snd).countP (· ≤ x) = (ps.map fst).countP (· ≤ x) := by
  induction ps with
  | nil => rfl
  | cons p ps ih =>
    obtain ⟨hp, hps⟩ := forall_mem_cons.mp hle
    have ih := ih hps
    simp only [coverage] at ih ⊢
    simp only [map_cons, countP_cons, decide_eq_true_eq]
    split_ifs <;> omega

theorem total_add (hle : ∀ p ∈ ps, p.1 ≤ p.2) : total ps + (ps.map fst).sum = (ps.map snd).sum := by
  induction ps with
  | nil => rfl
  | cons p ps ih =>
    obtain ⟨hp, hps⟩ := forall_mem_cons.mp hle
    have ih := ih hps
    rw [total_cons, map_cons, map_cons, sum_cons, sum_cons]
    omega

/-- Lists with as many elements up to any number are the same but for their order. -/
theorem perm_of_countP_le {xs ys : List Nat}
    (h : ∀ x, xs.countP (· ≤ x) = ys.countP (· ≤ x)) : xs.Perm ys := by
  have hsucc : ∀ (zs : List Nat) x,
      zs.countP (· ≤ x + 1) = zs.countP (· ≤ x) + zs.count (x + 1) := by
    intro zs x
    induction zs with
    | nil => rfl
    | cons z zs ih =>
      simp only [countP_cons, count_cons, decide_eq_true_eq, beq_iff_eq]
      split_ifs <;> omega
  have hzero : ∀ zs : List Nat, zs.countP (· ≤ 0) = zs.count 0 := by
    intro zs
    exact countP_congr fun z _ => by simp
  rw [perm_iff_count]
  rintro (_ | x)
  · rw [← hzero, ← hzero, h]
  · have hx := h x
    have hnext := h (x + 1)
    rw [hsucc, hsucc] at hnext
    omega

/-- **Pieces tile a range** if and only if the starts and the bound are 0 and the stops. -/
theorem tiles_iff_perm (hle : ∀ p ∈ ps, p.1 ≤ p.2) :
    Tiles ps n ↔ (n :: ps.map fst).Perm (0 :: ps.map snd) := by
  constructor
  · intro h
    refine perm_of_countP_le fun x => ?_
    have hcover := coverage_add hle x
    rw [h x] at hcover
    simp only [countP_cons, decide_eq_true_eq, ← hcover]
    split_ifs <;> omega
  · intro h x
    have hcover := coverage_add hle x
    have hcount := h.countP_eq (· ≤ x)
    simp only [countP_cons, decide_eq_true_eq] at hcount
    split_ifs at hcount ⊢ <;> omega

theorem Tiles.total_eq (h : Tiles ps n) (hle : ∀ p ∈ ps, p.1 ≤ p.2) : total ps = n := by
  have hsum := ((tiles_iff_perm hle).mp h).sum_nat
  have htotal := total_add hle
  rw [sum_cons, sum_cons] at hsum
  omega

theorem total_perm (h : ps.Perm qs) : total ps = total qs := (h.map _).sum_nat

/-- Some of the pieces, none of which is empty, have fewer numbers than all of them. -/
theorem Tiles.total_lt (h : Tiles ps n) (hpos : ∀ p ∈ ps, p.1 < p.2) {rest : List (Nat × Nat)}
    (hrest : rest ≠ []) (hperm : (qs ++ rest).Perm ps) : total qs < n := by
  obtain ⟨p, rest, rfl⟩ := exists_cons_of_ne_nil hrest
  have hp := hpos p (hperm.subset (mem_append_right _ mem_cons_self))
  rw [← h.total_eq fun p hp => (hpos p hp).le, ← total_perm hperm, total_append, total_cons]
  omega

/-- A piece that is not empty is below the bound. -/
theorem Tiles.stop_le (h : Tiles ps n) (hp : p ∈ ps) (hpos : p.1 < p.2) : p.2 ≤ n := by
  have hlast : 0 < coverage ps (p.2 - 1) :=
    countP_pos_iff.mpr ⟨p, hp, decide_eq_true ⟨by omega, by omega⟩⟩
  rw [h] at hlast
  split_ifs at hlast <;> omega

theorem Tiles.disjoint (h : Tiles ps n) (hpos : ∀ p ∈ ps, p.1 < p.2) :
    ps.Pairwise fun p q => p.2 ≤ q.1 ∨ q.2 ≤ p.1 := by
  refine pairwise_iff_forall_sublist.mpr fun {p q} hsub => ?_
  by_contra hmeet
  have hp := hpos p (hsub.subset (by simp))
  have hq := hpos q (hsub.subset (by simp))
  -- the larger one of the starts is in both
  have htwo : coverage [p, q] (max p.1 q.1) = 2 := by
    simp only [coverage, countP_cons, countP_nil, decide_eq_true_eq]
    rw [if_pos ⟨by omega, by omega⟩, if_pos ⟨by omega, by omega⟩]
  have hle : coverage [p, q] (max p.1 q.1) ≤ coverage ps (max p.1 q.1) := hsub.countP_le
  rw [h] at hle
  split_ifs at hle <;> omega

/-- **For pieces that are not empty this is so in order, too.** -/
theorem Tiles.starts_concat (h : Tiles ps n) (hpos : ∀ p ∈ ps, p.1 < p.2)
    (hstarts : starts.Perm (ps.map fst)) (hstarts' : starts.Pairwise (· ≤ ·))
    (hstops : stops.Perm (ps.map snd)) (hstops' : stops.Pairwise (· ≤ ·)) :
    starts ++ [n] = 0 :: stops := by
  have hperm : (starts ++ [n]).Perm (0 :: stops) := by
    refine (perm_append_singleton n starts).trans ((hstarts.cons n).trans ?_)
    exact ((tiles_iff_perm fun p hp => (hpos p hp).le).mp h).trans (hstops.symm.cons 0)
  refine hperm.eq_of_pairwise (fun a b _ _ hab hba => Nat.le_antisymm hab hba) ?_ ?_
  · refine pairwise_append.mpr ⟨hstarts', pairwise_singleton _ _, fun a ha b hb => ?_⟩
    obtain ⟨p, hp, rfl⟩ := mem_map.mp (hstarts.subset ha)
    rw [mem_singleton.mp hb]
    exact (hpos p hp).le.trans (h.stop_le hp (hpos p hp))
  · exact pairwise_cons.mpr ⟨fun a _ => Nat.zero_le a, hstops'⟩

/-- **Starts that go on where a piece stops**, one after the other from 0 on, are those of pieces
that tile a range. -/
theorem tiles_of_starts (hle : ∀ p ∈ ps, p.1 ≤ p.2) (hstarts : starts.Perm (ps.map fst))
    (hstops : stops.Perm (ps.map snd)) (hchain : starts ++ [n] = 0 :: stops) : Tiles ps n := by
  refine (tiles_iff_perm hle).mpr ((hstarts.symm.cons n).trans ?_)
  refine (perm_append_singleton n starts).symm.trans ?_
  rw [hchain]
  exact hstops.cons 0

end Foundation.Tiling
