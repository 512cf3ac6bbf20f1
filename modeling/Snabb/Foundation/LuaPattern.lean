import Mathlib.Algebra.GroupWithZero.Nat
import Mathlib.Data.List.TakeWhile
import Mathlib.Order.Nat
import Mathlib.Tactic.Common

/-!
# Lua patterns

A pattern that is anchored at both ends is a list of items, each a class of characters with bounds
on how many of them it takes. The matcher lets an item take as many as it can and takes back one
after the other while the rest does not match, so it finds the first of all ways to match, in the
order that prefers long items and early ones.

- `fit_eq_some`: the matcher finds the greatest counts that fit, in lexicographic order;
- `fit_eq_none`: it fails where nothing fits.
-/

namespace Foundation.LuaPattern

open List

variable {α β : Type}

/-- A class of characters, and how many of them are taken. -/
structure Item (α : Type) where
  accepts : α → Bool
  least : Nat
  most : Option Nat

namespace Item

def one (p : α → Bool) : Item α := ⟨p, 1, some 1⟩

/-- `?`. -/
def opt (p : α → Bool) : Item α := ⟨p, 0, some 1⟩

/-- `+`. -/
def plus (p : α → Bool) : Item α := ⟨p, 1, none⟩

/-- How many characters the item can take. -/
def reach (it : Item α) (s : List α) : Nat :=
  match it.most with
  | some m => min m (s.takeWhile it.accepts).length
  | none => (s.takeWhile it.accepts).length

end Item

/-- The counts from `n` down to `least`. -/
def tryDown (least : Nat) (f : Nat → Option β) : Nat → Option β
  | 0 => if least = 0 then f 0 else none
  | k + 1 =>
    if k + 1 < least then none
    else match f (k + 1) with
      | some b => some b
      | none => tryDown least f k

/-- The matcher: how many characters each item takes. -/
def fit : List (Item α) → List α → Option (List Nat)
  | [], [] => some []
  | [], _ :: _ => none
  | it :: items, s =>
    tryDown it.least (fun k => (fit items (s.drop k)).map (k :: ·)) (it.reach s)

/-- The counts fit. -/
inductive Fits : List (Item α) → List Nat → List α → Prop where
  | nil : Fits [] [] []
  | cons {it : Item α} {items : List (Item α)} {k : Nat} {ks : List Nat} {s : List α}
      (hleast : it.least ≤ k) (hreach : k ≤ it.reach s) (hrest : Fits items ks (s.drop k)) :
      Fits (it :: items) (k :: ks) s

/-- The lexicographic order of counts. -/
def AtMost : List Nat → List Nat → Prop
  | k :: ks, k' :: ks' => k < k' ∨ k = k' ∧ AtMost ks ks'
  | [], _ => True
  | _ :: _, [] => False

theorem AtMost.refl (ks : List Nat) : AtMost ks ks := by
  induction ks with
  | nil => trivial
  | cons k ks ih => exact .inr ⟨rfl, ih⟩

theorem AtMost.antisymm {ks ks' : List Nat} (h : AtMost ks ks') (h' : AtMost ks' ks) :
    ks = ks' := by
  induction ks generalizing ks' with
  | nil =>
    cases ks' with
    | nil => rfl
    | cons k' ks' => exact h'.elim
  | cons k ks ih =>
    cases ks' with
    | nil => exact h.elim
    | cons k' ks' =>
      rcases h with hlt | ⟨rfl, hrest⟩
      · rcases h' with hgt | ⟨heq, -⟩
        · omega
        · omega
      · rcases h' with hgt | ⟨-, hrest'⟩
        · omega
        · rw [ih hrest hrest']

variable {it : Item α} {items : List (Item α)} {ks : List Nat} {s : List α} {f : Nat → Option β}

theorem tryDown_eq_some {least n : Nat} {b : β} :
    tryDown least f n = some b ↔
      ∃ k, least ≤ k ∧ k ≤ n ∧ f k = some b ∧ ∀ j, k < j → j ≤ n → f j = none := by
  induction n with
  | zero =>
    rw [tryDown]
    constructor
    · intro h
      split at h
      · next hleast => exact ⟨0, by omega, le_rfl, h, fun j hj hle => by omega⟩
      · cases h
    · rintro ⟨k, hleast, hk, hf, -⟩
      obtain rfl : k = 0 := by omega
      rw [if_pos (by omega), hf]
  | succ n ih =>
    rw [tryDown]
    by_cases hleast : n + 1 < least
    · rw [if_pos hleast]
      exact iff_of_false nofun fun ⟨k, hk, hle, _⟩ => by omega
    · rw [if_neg hleast]
      cases hf : f (n + 1) with
      | some c =>
        constructor
        · intro h
          exact ⟨n + 1, by omega, le_rfl, hf.trans h, fun j hj hle => by omega⟩
        · rintro ⟨k, -, hk, hfk, hafter⟩
          have heq : k = n + 1 := by
            by_contra hne
            have hnone := hafter (n + 1) (by omega) le_rfl
            rw [hf] at hnone
            cases hnone
          rw [heq, hf] at hfk
          exact hfk
      | none =>
        rw [ih]
        constructor
        · rintro ⟨k, hk, hle, hfk, hafter⟩
          refine ⟨k, hk, by omega, hfk, fun j hj hjle => ?_⟩
          by_cases hlast : j = n + 1
          · rw [hlast, hf]
          · exact hafter j hj (by omega)
        · rintro ⟨k, hk, hle, hfk, hafter⟩
          refine ⟨k, hk, ?_, hfk, fun j hj hjle => hafter j hj (by omega)⟩
          by_contra hlast
          obtain rfl : k = n + 1 := by omega
          rw [hf] at hfk
          cases hfk

theorem fits_of_fit (h : fit items s = some ks) : Fits items ks s := by
  induction items generalizing s ks with
  | nil =>
    cases s with
    | nil =>
      cases h
      exact .nil
    | cons c s => cases h
  | cons it items ih =>
    obtain ⟨k, hleast, hk, hf, -⟩ := tryDown_eq_some.mp h
    obtain ⟨ks', hrest, rfl⟩ := Option.map_eq_some_iff.mp hf
    exact .cons hleast hk (ih hrest)

theorem tryDown_eq_none {least n : Nat} :
    tryDown least f n = none ↔ ∀ k, least ≤ k → k ≤ n → f k = none := by
  constructor
  · intro h k hleast hk
    by_contra hsome
    -- the greatest count that would have been found
    induction hgap : n - k using Nat.strong_induction_on generalizing k with
    | _ gap ih =>
      obtain ⟨b, hb⟩ := Option.ne_none_iff_exists'.mp hsome
      by_cases hlater : ∃ j, k < j ∧ j ≤ n ∧ f j ≠ none
      · obtain ⟨j, hj, hjn, hfj⟩ := hlater
        exact ih (n - j) (by omega) j (by omega) hjn hfj rfl
      · have hfound : tryDown least f n = some b := by
          refine tryDown_eq_some.mpr ⟨k, hleast, hk, hb, fun j hj hjn => ?_⟩
          by_contra hfj
          exact hlater ⟨j, hj, hjn, hfj⟩
        rw [h] at hfound
        cases hfound
  · intro hall
    by_contra hsome
    obtain ⟨b, hb⟩ := Option.ne_none_iff_exists'.mp hsome
    obtain ⟨k, hleast, hk, hf, -⟩ := tryDown_eq_some.mp hb
    rw [hall k hleast hk] at hf
    cases hf

theorem not_fits_of_fit (h : fit items s = none) : ¬ Fits items ks s := by
  intro hfits
  induction hfits with
  | nil => cases h
  | cons hleast hreach hrest ih =>
    have hnone := tryDown_eq_none.mp h _ hleast hreach
    exact ih (Option.map_eq_none_iff.mp hnone)

/-- Nothing greater fits. -/
theorem le_of_fit {ks' : List Nat} (hfits : Fits items ks' s) (h : fit items s = some ks) :
    AtMost ks' ks := by
  induction hfits generalizing ks with
  | nil => trivial
  | @cons it items k ks' s hleast hreach hrest ih =>
    obtain ⟨j, -, hj, hf, hafter⟩ := tryDown_eq_some.mp h
    obtain ⟨rest, hfit, rfl⟩ := Option.map_eq_some_iff.mp hf
    rcases Nat.lt_trichotomy k j with hlt | rfl | hgt
    · exact .inl hlt
    · exact .inr ⟨rfl, ih hfit⟩
    · have hnone := hafter k hgt hreach
      exact absurd hrest (not_fits_of_fit (Option.map_eq_none_iff.mp hnone))

theorem fit_eq_none : fit items s = none ↔ ∀ ks, ¬ Fits items ks s := by
  refine ⟨fun h ks => not_fits_of_fit h, fun hall => ?_⟩
  by_contra hsome
  obtain ⟨ks, hks⟩ := Option.ne_none_iff_exists'.mp hsome
  exact hall ks (fits_of_fit hks)

/-- **The matcher** finds the greatest counts that fit. -/
theorem fit_eq_some :
    fit items s = some ks ↔ Fits items ks s ∧ ∀ ks', Fits items ks' s → AtMost ks' ks := by
  constructor
  · intro h
    exact ⟨fits_of_fit h, fun ks' hfits => le_of_fit hfits h⟩
  · rintro ⟨hfits, hmax⟩
    have hsome : fit items s ≠ none := fun hnone => not_fits_of_fit hnone hfits
    obtain ⟨found, hfound⟩ := Option.ne_none_iff_exists'.mp hsome
    rw [hfound, (hmax found (fits_of_fit hfound)).antisymm (le_of_fit hfits hfound)]

/-! ## Parts -/

/-- The part of the string that an item takes. -/
def Item.Takes (it : Item α) (part : List α) : Prop :=
  it.least ≤ part.length ∧ (∀ m ∈ it.most, part.length ≤ m) ∧ ∀ c ∈ part, it.accepts c

theorem le_takeWhile_iff {p : α → Bool} {k : Nat} :
    k ≤ (s.takeWhile p).length ↔ k ≤ s.length ∧ ∀ c ∈ s.take k, p c := by
  induction s generalizing k with
  | nil => simp
  | cons c s ih =>
    cases k with
    | zero => simp
    | succ k =>
      rw [takeWhile_cons]
      split
      · next hc => simp [ih, hc]
      · next hc => simp [hc]

theorem le_reach_iff {k : Nat} : k ≤ it.reach s ↔
    (∀ m ∈ it.most, k ≤ m) ∧ k ≤ s.length ∧ ∀ c ∈ s.take k, it.accepts c := by
  rw [Item.reach]
  cases it.most with
  | none => simpa using le_takeWhile_iff
  | some m =>
    rw [Nat.le_min, le_takeWhile_iff]
    simp

/-- **Counts that fit** are the lengths of parts that make up the string. -/
theorem fits_iff : Fits items ks s ↔
    ∃ parts : List (List α), List.Forall₂ Item.Takes items parts ∧ parts.flatten = s ∧
      parts.map List.length = ks := by
  constructor
  · intro h
    induction h with
    | nil => exact ⟨[], .nil, rfl, rfl⟩
    | @cons it items k ks s hleast hreach _ ih =>
      obtain ⟨parts, htakes, hflat, hlengths⟩ := ih
      obtain ⟨hmost, hlen, haccepts⟩ := le_reach_iff.mp hreach
      have htake : (s.take k).length = k := length_take_of_le hlen
      refine ⟨s.take k :: parts, .cons ⟨?_, ?_, haccepts⟩ htakes, ?_, ?_⟩
      · rwa [htake]
      · rwa [htake]
      · rw [flatten_cons, hflat, take_append_drop]
      · rw [map_cons, htake, hlengths]
  · rintro ⟨parts, htakes, rfl, rfl⟩
    induction htakes with
    | nil => exact .nil
    | @cons it part items parts htake _ ih =>
      obtain ⟨hleast, hmost, haccepts⟩ := htake
      refine .cons hleast (le_reach_iff.mpr ⟨hmost, ?_, ?_⟩) ?_
      · rw [flatten_cons, List.length_append]
        exact Nat.le_add_right _ _
      · rwa [flatten_cons, take_left]
      · rwa [flatten_cons, drop_left]

/-! ## Captures -/

/-- A part of a pattern, which may be a capture. -/
structure Piece (α : Type) where
  items : List (Item α)
  captured : Bool

/-- What the captures have taken. -/
def captures : List (Piece α) → List Nat → List α → List (List α)
  | [], _, _ => []
  | p :: ps, ks, s =>
    let n := (ks.take p.items.length).sum
    let rest := captures ps (ks.drop p.items.length) (s.drop n)
    if p.captured then s.take n :: rest else rest

/-- The captures, by the parts of the string. -/
def capturedParts : List (Piece α) → List (List α) → List (List α)
  | [], _ => []
  | p :: ps, parts =>
    let rest := capturedParts ps (parts.drop p.items.length)
    if p.captured then (parts.take p.items.length).flatten :: rest else rest

theorem captures_eq (ps : List (Piece α)) (parts : List (List α)) :
    captures ps (parts.map List.length) parts.flatten = capturedParts ps parts := by
  induction ps generalizing parts with
  | nil => rfl
  | cons p ps ih =>
    have hsplit : parts.flatten =
        (parts.take p.items.length).flatten ++ (parts.drop p.items.length).flatten := by
      rw [← flatten_append, take_append_drop]
    have hlen : ((parts.map List.length).take p.items.length).sum =
        (parts.take p.items.length).flatten.length := by
      rw [← map_take, length_flatten]
    simp only [captures, capturedParts]
    rw [hlen, hsplit, drop_left, take_left, ← map_drop, ih]

/-- `string.match`, for a pattern that begins with `^` and ends with `$`. -/
def luaMatch (ps : List (Piece α)) (s : List α) : Option (List (List α)) :=
  (fit (ps.flatMap Piece.items) s).map fun ks => captures ps ks s

/-- Parts that the items of a pattern take. -/
def Parts (ps : List (Piece α)) (parts : List (List α)) : Prop :=
  List.Forall₂ Item.Takes (ps.flatMap Piece.items) parts

variable {ps : List (Piece α)}

theorem luaMatch_eq_none : luaMatch ps s = none ↔ ∀ parts, Parts ps parts → parts.flatten ≠ s := by
  rw [luaMatch, Option.map_eq_none_iff, fit_eq_none]
  constructor
  · intro h parts hparts hflat
    exact h _ (fits_iff.mpr ⟨parts, hparts, hflat, rfl⟩)
  · intro h ks hfits
    obtain ⟨parts, hparts, hflat, -⟩ := fits_iff.mp hfits
    exact h parts hparts hflat

/-- **What a pattern matches**: of all parts that make up the string, those with the greatest
lengths. -/
theorem luaMatch_eq_some {found : List (List α)} :
    luaMatch ps s = some found ↔ ∃ parts, Parts ps parts ∧ parts.flatten = s ∧
      (∀ other, Parts ps other → other.flatten = s →
        AtMost (other.map List.length) (parts.map List.length)) ∧ capturedParts ps parts = found := by
  rw [luaMatch, Option.map_eq_some_iff]
  constructor
  · rintro ⟨ks, hfit, rfl⟩
    obtain ⟨hfits, hmax⟩ := fit_eq_some.mp hfit
    obtain ⟨parts, hparts, rfl, rfl⟩ := fits_iff.mp hfits
    exact ⟨parts, hparts, rfl, fun other hother hflat =>
      hmax _ (fits_iff.mpr ⟨other, hother, hflat, rfl⟩), (captures_eq ps parts).symm⟩
  · rintro ⟨parts, hparts, rfl, hmax, rfl⟩
    refine ⟨parts.map List.length, fit_eq_some.mpr ⟨fits_iff.mpr ⟨parts, hparts, rfl, rfl⟩,
      fun ks hfits => ?_⟩, captures_eq ps parts⟩
    obtain ⟨other, hother, hflat, rfl⟩ := fits_iff.mp hfits
    exact hmax other hother hflat

end Foundation.LuaPattern
