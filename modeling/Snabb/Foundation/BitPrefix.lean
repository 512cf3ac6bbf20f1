import Mathlib.Data.BitVec
import Mathlib.Data.Nat.Bitwise
import Mathlib.Data.List.Pairwise
import Mathlib.Data.List.Induction

/-!
# Bit prefixes

A prefix of width `w` is a length `l ≤ w` and a bit string of width `w` of which only the first
`l` bits are used. It contains the strings that begin with these bits. Two prefixes are nested
or disjoint, and the prefixes that contain a string are a chain: so a map from prefixes has at
most one longest match for a string.

- `contains_iff`: membership bit by bit;
- `covers_of_contains`: of two prefixes with a common string the shorter covers the longer;
- `IsLongest.unique`: there is only one longest match;
- `before_of_side`: below a fork, what goes left comes before what goes right.
-/

namespace Foundation

open List
open BitVec (eq_of_getMsbD_eq lt_def testBit_toNat le_def getMsbD_xor toNat_inj)

variable {w : Nat}

/-- The first `l` bits of a string, followed by zeros. -/
def keep (l : Nat) (a : BitVec w) : BitVec w := a &&& (BitVec.allOnes w <<< (w - l))

@[simp] theorem getMsbD_keep (l : Nat) (a : BitVec w) (i : Nat) :
    (keep l a).getMsbD i = (decide (i < l) && a.getMsbD i) := by
  rw [keep, BitVec.getMsbD_and, BitVec.getMsbD_shiftLeft, BitVec.getMsbD_allOnes, Bool.and_comm]
  by_cases hi : i < w
  · congr 1
    rw [decide_eq_decide]
    omega
  · rw [BitVec.getMsbD_of_ge a i (by omega), Bool.and_false, Bool.and_false]

variable {l : Nat} {a b : BitVec w}

/-- Two strings have the same first `l` bits. -/
theorem keep_eq_keep_iff : keep l a = keep l b ↔ ∀ i < l, a.getMsbD i = b.getMsbD i := by
  constructor
  · intro h i hi
    have hbit := congrArg (BitVec.getMsbD · i) h
    simpa [hi] using hbit
  · intro h
    refine eq_of_getMsbD_eq fun i _ => ?_
    rw [getMsbD_keep, getMsbD_keep]
    by_cases hi : i < l
    · rw [h i hi]
    · simp [hi]

theorem keep_keep {l k : Nat} (h : l ≤ k) (a : BitVec w) : keep l (keep k a) = keep l a := by
  rw [keep_eq_keep_iff]
  intro i hi
  rw [getMsbD_keep, decide_eq_true (by omega), Bool.true_and]

theorem keep_keep_of_ge {l k : Nat} (h : k ≤ l) (a : BitVec w) : keep l (keep k a) = keep k a := by
  refine eq_of_getMsbD_eq fun i _ => ?_
  rw [getMsbD_keep, getMsbD_keep, ← Bool.and_assoc, ← Bool.decide_and]
  congr 1
  rw [decide_eq_decide]
  omega

theorem keep_full (h : w ≤ l) (a : BitVec w) : keep l a = a := by
  refine eq_of_getMsbD_eq fun i hi => ?_
  rw [getMsbD_keep, decide_eq_true (by omega), Bool.true_and]

theorem keep_zero (a : BitVec w) : keep 0 a = 0#w := by
  refine eq_of_getMsbD_eq fun i hi => ?_
  rw [getMsbD_keep, decide_eq_false (by omega), Bool.false_and, BitVec.getMsbD_zero]

/-- The first bit in which two strings differ decides how they compare. -/
theorem lt_of_first_bit (hsame : keep l a = keep l b)
    (ha : a.getMsbD l = false) (hb : b.getMsbD l = true) : a < b := by
  have hl : l < w := by
    by_contra hge
    rw [BitVec.getMsbD_of_ge b l (by omega)] at hb
    cases hb
  rw [BitVec.getMsbD_eq_getLsbD, decide_eq_true hl, Bool.true_and] at ha hb
  refine Nat.lt_of_testBit (w - 1 - l) ?_ ?_ fun j hj => ?_
  · rw [testBit_toNat, ha]
  · rw [testBit_toNat, hb]
  · rw [testBit_toNat, testBit_toNat]
    by_cases hjw : j < w
    · have hbit := keep_eq_keep_iff.mp hsame (w - 1 - j) (by omega)
      rw [BitVec.getMsbD_eq_getLsbD, BitVec.getMsbD_eq_getLsbD, decide_eq_true (by omega),
        show w - 1 - (w - 1 - j) = j by omega] at hbit
      exact hbit
    · rw [BitVec.getLsbD_of_ge a j (by omega), BitVec.getLsbD_of_ge b j (by omega)]

theorem keep_le (l : Nat) (a : BitVec w) : keep l a ≤ a := by
  exact Nat.and_le_left

theorem toNat_keep (h : l ≤ w) (a : BitVec w) :
    (keep l a).toNat = a.toNat / 2 ^ (w - l) * 2 ^ (w - l) := by
  have heq : keep l a = (a >>> (w - l)) <<< (w - l) := by
    refine eq_of_getMsbD_eq fun i hi => ?_
    by_cases hil : i < l
    · simp [hil, show i + (w - l) < w by omega]
    · simp [hil, show ¬ i + (w - l) < w by omega]
  have hlt : a.toNat / 2 ^ (w - l) * 2 ^ (w - l) < 2 ^ w :=
    (Nat.div_mul_le_self _ _).trans_lt a.isLt
  rw [heq, BitVec.toNat_shiftLeft, BitVec.toNat_ushiftRight, Nat.shiftLeft_eq,
    Nat.shiftRight_eq_div_pow, Nat.mod_eq_of_lt hlt]

/-- How many bits two strings have in common at the front. -/
def commonBits (a b : BitVec w) : Nat :=
  ((List.range w).find? fun i => (a ^^^ b).getMsbD i).getD w

theorem commonBits_le (a b : BitVec w) : commonBits a b ≤ w := by
  unfold commonBits
  cases hfind : (List.range w).find? fun i => (a ^^^ b).getMsbD i with
  | none => exact le_rfl
  | some i => exact (mem_range.mp (mem_of_find?_eq_some hfind)).le

/-- The common bits are equal, and the next one is not. -/
theorem commonBits_spec (a b : BitVec w) :
    keep (commonBits a b) a = keep (commonBits a b) b ∧
      (commonBits a b < w → a.getMsbD (commonBits a b) ≠ b.getMsbD (commonBits a b)) := by
  unfold commonBits
  cases hfind : (List.range w).find? fun i => (a ^^^ b).getMsbD i with
  | none =>
    refine ⟨keep_eq_keep_iff.mpr fun i hi => ?_, fun h => absurd h (lt_irrefl _)⟩
    have hbit := List.find?_eq_none.mp hfind i (mem_range.mpr hi)
    simpa [getMsbD_xor] using hbit
  | some k =>
    obtain ⟨hk, hlt, hbefore⟩ := List.find?_range_eq_some.mp hfind
    refine ⟨keep_eq_keep_iff.mpr fun i hi => ?_, fun _ => ?_⟩
    · simpa [getMsbD_xor] using hbefore i hi
    · simpa [getMsbD_xor] using hk

/-- Two strings agree on `l` bits if and only if they have so many in common. -/
theorem le_commonBits_iff (hl : l ≤ w) : l ≤ commonBits a b ↔ keep l a = keep l b := by
  obtain ⟨hsame, hdiff⟩ := commonBits_spec a b
  constructor
  · intro h
    rw [← keep_keep h a, hsame, keep_keep h b]
  · intro h
    by_contra hlt
    exact hdiff (by omega) (keep_eq_keep_iff.mp h _ (by omega))

/-! ## Prefixes -/

/-- A bit string of which only the first `length` bits are used. -/
structure Prefix (w : Nat) where
  ip : BitVec w
  length : Nat
  length_le : length ≤ w
  kept : keep length ip = ip
deriving DecidableEq, Repr

namespace Prefix

variable {p q r : Prefix w} {a b : BitVec w}

theorem eq_of (hip : p.ip = q.ip) (hlength : p.length = q.length) : p = q := by
  obtain ⟨ip', l', hl', hkept'⟩ := q
  cases hip
  cases hlength
  rfl

/-- The prefix of a length that a string has. -/
def ofString (a : BitVec w) (l : Nat) (h : l ≤ w) : Prefix w := ⟨keep l a, l, h, keep_keep le_rfl a⟩

/-- The prefix that consists of one string. -/
def host (a : BitVec w) : Prefix w := ⟨a, w, le_rfl, keep_full le_rfl a⟩

/-- The string begins with the prefix. -/
def Contains (p : Prefix w) (a : BitVec w) : Prop := keep p.length a = p.ip

instance (p : Prefix w) (a : BitVec w) : Decidable (p.Contains a) :=
  inferInstanceAs (Decidable (_ = _))

/-- Each string of `q` is one of `p`. -/
def Covers (p q : Prefix w) : Prop := p.length ≤ q.length ∧ p.Contains q.ip

instance (p q : Prefix w) : Decidable (p.Covers q) := inferInstanceAs (Decidable (_ ∧ _))

/-- The order by address and then by length. -/
def Before (p q : Prefix w) : Prop := p.ip < q.ip ∨ p.ip = q.ip ∧ p.length < q.length

theorem contains_iff : p.Contains a ↔ ∀ i < p.length, a.getMsbD i = p.ip.getMsbD i := by
  rw [Contains, ← keep_eq_keep_iff, p.kept]

theorem contains_self : p.Contains p.ip := p.kept

theorem contains_ofString (h : l ≤ w) : (ofString a l h).Contains a := rfl

theorem contains_host : (host a).Contains b ↔ b = a := by
  rw [Contains, host, keep_full le_rfl]

theorem covers_refl : p.Covers p := ⟨le_rfl, contains_self⟩

theorem Covers.contains (h : p.Covers q) (hq : q.Contains a) : p.Contains a := by
  rw [Contains, ← keep_keep h.1, hq]
  exact h.2

theorem Covers.trans (h : p.Covers q) (h' : q.Covers r) : p.Covers r :=
  ⟨h.1.trans h'.1, h.contains h'.2⟩

/-- Of two prefixes of one string the shorter covers the longer. -/
theorem covers_of_contains (hp : p.Contains a) (hq : q.Contains a) (h : p.length ≤ q.length) :
    p.Covers q := by
  refine ⟨h, ?_⟩
  rw [Contains, ← hq, keep_keep h]
  exact hp

theorem eq_of_contains (hp : p.Contains a) (hq : q.Contains a) (h : p.length = q.length) :
    p = q := by
  refine eq_of ?_ h
  rw [← hp, ← hq, h]

theorem Covers.antisymm (h : p.Covers q) (h' : q.Covers p) : p = q :=
  eq_of_contains h.2 contains_self (le_antisymm h.1 h'.1)

theorem eq_of_covers (h : p.Covers q) (hlength : q.length ≤ p.length) : p = q :=
  eq_of_contains h.2 contains_self (le_antisymm h.1 hlength)

theorem Covers.length_lt (h : p.Covers q) (hne : p ≠ q) : p.length < q.length := by
  by_contra hge
  exact hne (eq_of_covers h (by omega))

/-- A prefix of full width is the string. -/
theorem eq_host_of_length (hp : p.Contains a) (h : p.length = w) : p = host a :=
  eq_of_contains hp (contains_host.mpr rfl) h

theorem Before.trans (h : p.Before q) (h' : q.Before r) : p.Before r := by
  simp only [Before, lt_def, ← toNat_inj] at h h' ⊢
  omega

theorem Before.ne (h : p.Before q) : p ≠ q := by
  rintro rfl
  rcases h with h | ⟨_, h⟩
  · exact absurd h (BitVec.lt_irrefl _)
  · exact absurd h (lt_irrefl _)

/-- What a prefix covers comes behind it. -/
theorem Covers.before (h : p.Covers q) (hne : p ≠ q) : p.Before q := by
  have hle : p.ip ≤ q.ip := by
    rw [← h.2]
    exact keep_le _ _
  have hlt := h.length_lt hne
  rw [Before, lt_def, ← toNat_inj]
  rw [le_def] at hle
  omega

/-! ## Prefixes as intervals -/

/-- How many strings a prefix contains. -/
def size (p : Prefix w) : Nat := 2 ^ (w - p.length)

theorem size_pos : 0 < p.size := Nat.two_pow_pos _

theorem size_dvd : p.size ∣ p.ip.toNat := by
  rw [← p.kept, toNat_keep p.length_le]
  exact Nat.dvd_mul_left _ _

/-- The strings of a prefix are an interval. -/
theorem contains_iff_interval :
    p.Contains a ↔ p.ip.toNat ≤ a.toNat ∧ a.toNat < p.ip.toNat + p.size := by
  obtain ⟨n, hn⟩ := p.size_dvd
  have hsize : 0 < p.size := size_pos
  rw [Contains, ← toNat_inj, toNat_keep p.length_le]
  show a.toNat / p.size * p.size = p.ip.toNat ↔ _
  rw [hn, Nat.mul_comm p.size n, Nat.mul_right_cancel_iff hsize, Nat.div_eq_iff hsize]
  omega
/-! ## Below a fork -/

/-- `q` is below `c`, on the side of the bit `b`. -/
def Side (c : Prefix w) (b : Bool) (q : Prefix w) : Prop :=
  c.length < q.length ∧ c.Contains q.ip ∧ q.ip.getMsbD c.length = b

variable {b : Bool}

theorem Side.covers (h : c.Side b q) : Covers c q := ⟨h.1.le, h.2.1⟩

theorem Side.ne (h : c.Side b q) : q ≠ c := by
  rintro rfl
  exact absurd h.1 (lt_irrefl _)

/-- A prefix that covers another properly has it on one side. -/
theorem Covers.side (h : p.Covers q) (hne : p ≠ q) : p.Side (q.ip.getMsbD p.length) q :=
  ⟨h.length_lt hne, h.2, rfl⟩

variable {c : Prefix w}

theorem Side.of_covers (h : c.Side b q) (hr : q.Covers r) : c.Side b r := by
  refine ⟨h.1.trans_le hr.1, h.covers.contains hr.2, ?_⟩
  rw [← h.2.2]
  exact contains_iff.mp hr.2 _ h.1

/-- Below a fork, what goes left comes before what goes right. -/
theorem before_of_side (hq : c.Side false q) (hr : c.Side true r) : q.Before r :=
  .inl (lt_of_first_bit (hq.2.1.trans hr.2.1.symm) hq.2.2 hr.2.2)

/-- A string is on at most one side. -/
theorem Side.bit_of_contains (h : c.Side b q) (hq : q.Contains a) : a.getMsbD c.length = b := by
  rw [← h.2.2]
  exact contains_iff.mp hq _ h.1

/-- The longest prefix that covers both of two prefixes. -/
def common (p q : Prefix w) : Prefix w :=
  ofString p.ip (min (commonBits p.ip q.ip) (min p.length q.length))
    ((Nat.min_le_left _ _).trans (commonBits_le _ _))

theorem common_covers_left : (common p q).Covers p :=
  ⟨by simp only [common, ofString]; omega, contains_ofString _⟩

theorem common_covers_right : (common p q).Covers q := by
  refine ⟨by simp only [common, ofString]; omega, ?_⟩
  have hle : (common p q).length ≤ commonBits p.ip q.ip := Nat.min_le_left _ _
  rw [Contains, ← (le_commonBits_iff (common p q).length_le).mp hle]
  rfl

/-- What covers both of two prefixes covers their common prefix. -/
theorem covers_common (hp : r.Covers p) (hq : r.Covers q) : r.Covers (common p q) := by
  have hbits : r.length ≤ commonBits p.ip q.ip := by
    rw [le_commonBits_iff r.length_le]
    exact hp.2.trans hq.2.symm
  refine covers_of_contains hp.2 (contains_ofString _) ?_
  exact le_min hbits (le_min hp.1 hq.1)

/-- What is on one side of a fork has its common prefix there. -/
theorem side_common (hp : c.Side b p) (hq : c.Side b q) : c.Side b (common p q) := by
  have hbits : c.length + 1 ≤ commonBits p.ip q.ip := by
    have hle : c.length + 1 ≤ w := Nat.lt_of_lt_of_le hp.1 p.length_le
    refine (le_commonBits_iff hle).mpr (keep_eq_keep_iff.mpr fun i hi => ?_)
    rcases Nat.lt_succ_iff_lt_or_eq.mp hi with hi | rfl
    · exact (contains_iff.mp hp.2.1 i hi).trans (contains_iff.mp hq.2.1 i hi).symm
    · exact hp.2.2.trans hq.2.2.symm
  have hlt : c.length < (common p q).length := lt_min hbits (lt_min hp.1 hq.1)
  refine ⟨hlt, (covers_common hp.covers hq.covers).2, ?_⟩
  rw [← hp.2.2]
  exact (contains_iff.mp common_covers_left.2 _ hlt).symm

/-- Prefixes of which neither covers the other are on different sides of their common prefix. -/
theorem common_sides (hpq : ¬ p.Covers q) (hqp : ¬ q.Covers p) :
    ∃ b, (common p q).Side b p ∧ (common p q).Side (!b) q := by
  have hp : common p q ≠ p := fun h => hpq (h ▸ common_covers_right)
  have hq : common p q ≠ q := fun h => hqp (h ▸ common_covers_left)
  have hltp := common_covers_left.length_lt hp
  have hltq := common_covers_right.length_lt hq
  have hlength : (common p q).length = commonBits p.ip q.ip := by
    have hmin : (common p q).length = min (commonBits p.ip q.ip) (min p.length q.length) := rfl
    omega
  have hdiff : p.ip.getMsbD (common p q).length ≠ q.ip.getMsbD (common p q).length := by
    rw [hlength]
    exact (commonBits_spec p.ip q.ip).2 (by have := p.length_le; omega)
  refine ⟨_, common_covers_left.side hp, ?_⟩
  have hside := common_covers_right.side hq
  rwa [Bool.eq_not_iff.mpr hdiff.symm] at hside

/-! ## Longest matches -/

/-- `p` is the longest prefix in the map that contains the string, and `v` its value. -/
def IsLongest {V : Type} (m : Prefix w → Option V) (a : BitVec w) (p : Prefix w) (v : V) : Prop :=
  m p = some v ∧ p.Contains a ∧ ∀ q v', m q = some v' → q.Contains a → q.length ≤ p.length

variable {V : Type} {m : Prefix w → Option V}

theorem IsLongest.unique {v v' : V}
    (h : IsLongest m a p v) (h' : IsLongest m a q v') : p = q ∧ v = v' := by
  have hpq : p = q := eq_of_contains h.2.1 h'.2.1
    (le_antisymm (h'.2.2 p v h.1 h.2.1) (h.2.2 q v' h'.1 h'.2.1))
  refine ⟨hpq, ?_⟩
  subst hpq
  exact Option.mem_unique h.1 h'.1

/-- A string that some prefix of the map contains has a longest match. -/
theorem exists_longest {v : V} (hp : m p = some v)
    (ha : p.Contains a) : ∃ q v', IsLongest m a q v' := by
  by_contra hnone
  have hlonger : ∀ n, ∃ q v', m q = some v' ∧ q.Contains a ∧ n ≤ q.length := by
    intro n
    induction n with
    | zero => exact ⟨p, v, hp, ha, Nat.zero_le _⟩
    | succ n ih =>
      obtain ⟨q, v', hq, hqa, hn⟩ := ih
      by_contra hmax
      refine hnone ⟨q, v', hq, hqa, fun q' v'' hq' hqa' => ?_⟩
      by_contra hlt
      exact hmax ⟨q', v'', hq', hqa', by omega⟩
  obtain ⟨q, -, -, -, hlength⟩ := hlonger (w + 1)
  exact absurd q.length_le (by omega)

/-- The value of the last prefix in a list that contains the string. -/
def lastMatch {V : Type} (ns : List (Prefix w × V)) (a : BitVec w) : Option V :=
  ns.foldl (fun v n => if n.1.Contains a then some n.2 else v) none

theorem lastMatch_concat (ns : List (Prefix w × V)) (n : Prefix w × V) :
    lastMatch (ns ++ [n]) a = if n.1.Contains a then some n.2 else lastMatch ns a := by
  rw [lastMatch, foldl_append]
  rfl

variable {ns : List (Prefix w × V)}

theorem lastMatch_eq_none : lastMatch ns a = none ↔ ∀ n ∈ ns, ¬ n.1.Contains a := by
  induction ns using List.reverseRecOn with
  | nil => exact ⟨fun _ n hn => (nomatch hn), fun _ => rfl⟩
  | append_singleton ns n ih =>
    rw [lastMatch_concat]
    by_cases ha : n.1.Contains a
    · rw [if_pos ha]
      exact ⟨fun h => (nomatch h), fun h =>
        absurd ha (h n (mem_append_right _ (mem_singleton_self n)))⟩
    · rw [if_neg ha, ih]
      constructor
      · intro h m hm
        rcases mem_append.mp hm with hm | hm
        · exact h m hm
        · rwa [mem_singleton.mp hm]
      · exact fun h m hm => h m (mem_append_left _ hm)

/-- In the order of the addresses the last match is the longest. -/
theorem IsLongest.lastMatch {v : V}
    (h : IsLongest m a p v) (hsorted : ns.Pairwise fun m n => m.1.Before n.1)
    (hns : ∀ q v, m q = some v ↔ (q, v) ∈ ns) : lastMatch ns a = some v := by
  have hlongest : ∀ n ∈ ns, n.1.Contains a → n.1.length ≤ p.length := fun n hn =>
    h.2.2 n.1 n.2 ((hns n.1 n.2).mpr hn)
  have hmem := (hns p v).mp h.1
  have hp : p.Contains a := h.2.1
  clear hns h
  induction ns using List.reverseRecOn with
  | nil => cases hmem
  | append_singleton ns n ih =>
    obtain ⟨hsorted, -, hbefore⟩ := pairwise_append.mp hsorted
    rw [lastMatch_concat]
    rcases mem_append.mp hmem with hmem | hmem
    · rw [if_neg fun ha => ?_]
      · exact ih hsorted (fun n hn => hlongest n (mem_append_left _ hn)) hmem
      · have hpn := hbefore _ hmem n (mem_singleton_self n)
        have hcovers := covers_of_contains ha hp
          (hlongest n (mem_append_right _ (mem_singleton_self n)) ha)
        exact (hpn.trans (hcovers.before hpn.ne.symm)).ne rfl
    · obtain rfl := mem_singleton.mp hmem
      rw [if_pos hp]

end Prefix

end Foundation
