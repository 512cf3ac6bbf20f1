import Snabb.Lib.Lpm.Dxr

/-!
# Searches in intervals (`lib/lpm/lpm4_dxr.lua`)

After `build_compressed` the arrays show the intervals that are left, and behind them one or two
that end the searches: a search never looks at the last one. A use of `LPM4_dxr` is a sequence of
`add`, `remove` and `build`, with the map from prefixes that the trie should be next to it.

- `Indexed.search`: a search finds the place of an address among the intervals that are left;
- `lookup_finds_longest`: if the additions fit and the builds are clean, then after each build
  every lookup gives the key of the longest prefix.
-/

namespace Snabb

open Foundation Prefix LpmTrie IntervalTable List
open Function (update update_of_ne update_self)

/-- Two intervals have the same key, and lie in the same block. -/
def SameInterval (x y : Nat × Nat) : Prop := x.2 = y.2 ∧ x.1 / 2 ^ 16 = y.1 / 2 ^ 16

instance : DecidableRel SameInterval := fun _ _ => inferInstanceAs (Decidable (_ ∧ _))

/-- What the arrays show. -/
def LpmDxr.interval (t : LpmDxr) (k : Nat) : Nat × Nat := (t.intervals k, t.keys k)

/-! ## Dropping intervals -/

section

variable {t₀ t : LpmDxr} {m j k : Nat}

/-- The first `m` intervals have been visited: those that are left are in front, and from `m` on
nothing has changed. -/
structure LpmDxr.Compressing (t₀ t : LpmDxr) (m j : Nat) : Prop where
  length_eq : j = (remaining SameInterval t₀.interval m).length
  built : t.built = t₀.built
  entry : ∀ k (h : k < (remaining SameInterval t₀.interval m).length),
    t.interval k = (remaining SameInterval t₀.interval m)[k] ∧ t.smints k = t.intervals k % 2 ^ 16
  beyond : ∀ k, m ≤ k → t.interval k = t₀.interval k

/-- An interval that is not the same as its successor moves to the front. -/
theorem LpmDxr.compress_spec (h : ¬ SameInterval (t.interval m) (t.interval (m + 1))) :
    ∃ t', LpmDxr.compress (t, j) m = (t', j + 1) ∧ t'.built = t.built ∧
      t'.interval j = t.interval m ∧ t'.smints j = t'.intervals j % 2 ^ 16 ∧
      ∀ k ≠ j, t'.interval k = t.interval k ∧ t'.smints k = t.smints k := by
  refine ⟨_, if_neg h, rfl, ?_, ?_, fun k hk => ⟨?_, update_of_ne hk _ _⟩⟩
  · exact Prod.ext (update_self ..) (update_self ..)
  · show update t.smints j _ j = update t.intervals j _ j % 2 ^ 16
    rw [update_self, update_self]
  · exact Prod.ext (update_of_ne hk _ _) (update_of_ne hk _ _)

theorem LpmDxr.Compressing.step (h : t₀.Compressing t m j) :
    t₀.Compressing (LpmDxr.compress (t, j) m).1 (m + 1) (LpmDxr.compress (t, j) m).2 := by
  have hj : j ≤ m := h.length_eq ▸ length_remaining_le m
  have hm := h.beyond m le_rfl
  have hsucc := h.beyond (m + 1) (Nat.le_succ m)
  by_cases hsame : SameInterval (t.interval m) (t.interval (m + 1))
  · have hremaining :
        remaining SameInterval t₀.interval (m + 1) = remaining SameInterval t₀.interval m := by
      rw [remaining, ← hm, ← hsucc, if_pos hsame, append_nil]
    have hkept : LpmDxr.compress (t, j) m = (t, j) := if_pos hsame
    rw [hkept]
    refine ⟨by rw [hremaining]; exact h.length_eq, h.built, ?_, fun k hk => h.beyond k (by omega)⟩
    rw [hremaining]
    exact h.entry
  · have hremaining : remaining SameInterval t₀.interval (m + 1) =
        remaining SameInterval t₀.interval m ++ [t.interval m] := by
      rw [remaining, ← hm, ← hsucc, if_neg hsame]
    obtain ⟨t', hcompress, hbuilt, hself, hsmint, hother⟩ := LpmDxr.compress_spec (j := j) hsame
    rw [hcompress]
    refine ⟨by rw [hremaining, List.length_append, ← h.length_eq]; rfl, hbuilt.trans h.built, ?_,
      fun k hk => ((hother k (by omega)).1).trans (h.beyond k (by omega))⟩
    rw [hremaining]
    intro k hk
    rw [List.length_append, ← h.length_eq] at hk
    rcases Nat.lt_succ_iff_lt_or_eq.mp hk with hlt | rfl
    · have hin : k < (remaining SameInterval t₀.interval m).length := h.length_eq ▸ hlt
      obtain ⟨hinterval, hsmints⟩ := hother k (Nat.ne_of_lt hlt)
      obtain ⟨hentry, hsmall⟩ := h.entry k hin
      rw [getElem_append_left hin, hinterval, hsmints, hsmall]
      exact ⟨hentry, congrArg (·.1 % 2 ^ 16) hinterval.symm⟩
    · simp only [h.length_eq, getElem_concat_length]
      exact ⟨h.length_eq ▸ hself, h.length_eq ▸ hsmint⟩

theorem LpmDxr.compressing (t : LpmDxr) (m : Nat) :
    t.Compressing ((List.range m).foldl LpmDxr.compress (t, 0)).1 m
      ((List.range m).foldl LpmDxr.compress (t, 0)).2 := by
  induction m with
  | zero => exact ⟨rfl, rfl, fun k hk => (nomatch hk), fun k _ => rfl⟩
  | succ m ih =>
    rw [range_succ, foldl_append]
    exact ih.step

end

/-! ## Searching -/

section

variable {t : LpmDxr} {es : List (Nat × Nat)} {key a : Nat}

/-- The arrays show a list of intervals, and behind it one or two that end the searches. -/
structure LpmDxr.Indexed (t : LpmDxr) (es : List (Nat × Nat)) (key : Nat) : Prop where
  sorted : es.Pairwise fun x y => x.1 ≤ y.1
  lt_ioff : es.length < t.ioff
  ioff_le : t.ioff ≤ LpmDxr.arrayLength
  entry : ∀ k (h : k < es.length), t.interval k = es[k] ∧ t.smints k = t.intervals k % 2 ^ 16
  key_behind : t.keys es.length = key
  behind : es.length + 1 < t.ioff → t.ioff = es.length + 2 ∧ t.intervals es.length = 2 ^ 32 - 1

section

variable (h : t.Indexed es key)
include h

variable {m : Nat}

theorem LpmDxr.Indexed.below_iff (ha : a < 2 ^ 32)
    (hm : m + 1 < t.ioff) : t.intervals m < a ↔ m < place es a := by
  have hle := place_le es a
  by_cases hlt : m < es.length
  · rw [lt_place_iff h.sorted hlt, ← (h.entry m hlt).1]
    rfl
  · obtain rfl : m = es.length := by
      by_contra hne
      have hioff := (h.behind (by omega)).1
      omega
    rw [(h.behind hm).2]
    omega

theorem LpmDxr.Indexed.search_all (hbuilt : t.built = false)
    (ha : a < 2 ^ 32) : t.searchInterval a = .ok (place es a : Int) := by
  have hle := place_le es a
  have hlt := h.lt_ioff
  have hioff := h.ioff_le
  rw [LpmDxr.searchInterval, if_neg (by rw [hbuilt]; decide)]
  refine bisect_ok (by omega) (by omega) fun m hm hm' => ?_
  obtain ⟨m, rfl⟩ := Int.eq_ofNat_of_zero_le hm
  rw [LpmDxr.below, if_pos (by omega)]
  congr 1
  rw [decide_eq_decide, h.below_iff ha (by omega)]
  omega

/-- The first `m` blocks know the intervals of their first and last addresses. -/
structure LpmDxr.Directed (t₀ t : LpmDxr) (es : List (Nat × Nat)) (m : Nat) : Prop where
  rest : t = { t₀ with bottoms := t.bottoms, tops := t.tops }
  bottom : ∀ b < m, t.bottoms b = place es (b * 2 ^ 16)
  top : ∀ b < m, t.tops b = place es (b * 2 ^ 16 + 2 ^ 16 - 1)

theorem LpmDxr.Indexed.of_rest {t' : LpmDxr}
    (hrest : t' = { t with bottoms := t'.bottoms, tops := t'.tops }) : t'.Indexed es key := by
  rw [hrest]
  exact ⟨h.sorted, h.lt_ioff, h.ioff_le, h.entry, h.key_behind, h.behind⟩

theorem LpmDxr.Indexed.finish : LpmDxr.Indexed { t with built := true } es key :=
  ⟨h.sorted, h.lt_ioff, h.ioff_le, h.entry, h.key_behind, h.behind⟩

/-- `build_direct` finds the intervals of the first and last addresses of all blocks. -/
theorem LpmDxr.Indexed.buildDirect (hbuilt : t.built = false)
    (hm : m ≤ 2 ^ 16) : ∃ t', (List.range m).foldlM LpmDxr.setDirect t = .ok t' ∧
      t.Directed t' es m := by
  induction m with
  | zero => exact ⟨t, rfl, rfl, fun b hb => absurd hb (Nat.not_lt_zero b),
      fun b hb => absurd hb (Nat.not_lt_zero b)⟩
  | succ m ih =>
    obtain ⟨t', hloop, hdirected⟩ := ih (by omega)
    have hsmall : ∀ x, ((place es x : Int) % 2 ^ 32).toNat = place es x := by
      intro x
      have hle := place_le es x
      have hlt := h.lt_ioff
      have hioff := h.ioff_le
      rw [LpmDxr.arrayLength] at hioff
      omega
    have hindexed := h.of_rest hdirected.rest
    have hbuilt' : t'.built = false := by rw [hdirected.rest]; exact hbuilt
    have hbottom : t'.searchInterval (m * 2 ^ 16) = _ := hindexed.search_all hbuilt' (by omega)
    have htop : LpmDxr.searchInterval { t' with bottoms := update t'.bottoms m (place es (m * 2 ^ 16)) } (m * 2 ^ 16 + 2 ^ 16 - 1) = _ :=
      LpmDxr.Indexed.search_all (hindexed.of_rest rfl) hbuilt' (by omega)
    refine ⟨{ t' with bottoms := update t'.bottoms m (place es (m * 2 ^ 16)), tops := update t'.tops m (place es (m * 2 ^ 16 + 2 ^ 16 - 1)) }, ?_, ?_, ?_, ?_⟩
    · rw [range_succ, foldlM_append, hloop]
      show LpmDxr.setDirect t' m >>= pure = _
      rw [bind_pure]
      refine (bind_of_eq_ok hbottom).trans ?_
      rw [hsmall]
      refine (bind_of_eq_ok htop).trans ?_
      rw [hsmall]
      rfl
    · rw [hdirected.rest]
    · intro b hb
      show update _ _ _ _ = _
      rcases Nat.lt_succ_iff_lt_or_eq.mp hb with hlt | rfl
      · rw [update_of_ne (Nat.ne_of_lt hlt), hdirected.bottom b hlt]
      · rw [update_self]
    · intro b hb
      show update _ _ _ _ = _
      rcases Nat.lt_succ_iff_lt_or_eq.mp hb with hlt | rfl
      · rw [update_of_ne (Nat.ne_of_lt hlt), hdirected.top b hlt]
      · rw [update_self]

theorem LpmDxr.Indexed.place_block (a : Nat) :
    place es (a / 2 ^ 16 * 2 ^ 16) ≤ place es a ∧
      place es a ≤ place es (a / 2 ^ 16 * 2 ^ 16 + 2 ^ 16 - 1) :=
  ⟨place_mono h.sorted (by omega), place_mono h.sorted (by omega)⟩

/-- Between the places of its first and its last address all intervals lie in the block. -/
theorem LpmDxr.Indexed.smints_iff (ha : a < 2 ^ 32) (hm : place es (a / 2 ^ 16 * 2 ^ 16) ≤ m)
    (hm' : m < place es (a / 2 ^ 16 * 2 ^ 16 + 2 ^ 16 - 1)) :
    t.smints m < a % 2 ^ 16 ↔ m < place es a := by
  have hle := place_le es (a / 2 ^ 16 * 2 ^ 16 + 2 ^ 16 - 1)
  have hlt := h.lt_ioff
  have hin : m < es.length := by omega
  have hfirst : ¬ t.intervals m < a / 2 ^ 16 * 2 ^ 16 := by
    rw [h.below_iff (by omega) (by omega)]
    omega
  have hlast : t.intervals m < a / 2 ^ 16 * 2 ^ 16 + 2 ^ 16 - 1 := by
    rw [h.below_iff (by omega) (by omega)]
    omega
  rw [(h.entry m hin).2, ← h.below_iff ha (by omega)]
  omega

/-- The arrays show intervals in order and one more. -/
structure LpmDxr.Built (t : LpmDxr) (es : List (Nat × Nat)) (key : Nat) : Prop where
  indexed : t.Indexed es key
  built : t.built = true
  bottom : ∀ b < 2 ^ 16, t.bottoms b = place es (b * 2 ^ 16)
  top : ∀ b < 2 ^ 16, t.tops b = place es (b * 2 ^ 16 + 2 ^ 16 - 1)

theorem LpmDxr.Indexed.finished (hbuilt : t.built = false) :
    ∃ t', t.buildDirect = .ok t' ∧ LpmDxr.Built { t' with built := true } es key := by
  obtain ⟨t', hdirect, hdirected⟩ := LpmDxr.Indexed.buildDirect h hbuilt le_rfl
  exact ⟨t', hdirect, (h.of_rest hdirected.rest).finish, rfl, hdirected.bottom, hdirected.top⟩

end

theorem LpmDxr.Indexed.build (t₀ : LpmDxr) {entries : List LpmEntry} (h : t.Indexed es key)
    (hbuilt : t.built = false)
    (ht : LpmDxr.buildIntervals { t₀ with built := false, ioff := 0 } entries >>=
      LpmDxr.buildCompressed = .ok t) :
    ∃ t', t₀.build entries = .ok t' ∧ t'.Built es key := by
  obtain ⟨t', hdirect, hfinished⟩ := h.finished hbuilt
  obtain ⟨t₁, hintervals, hcompressed⟩ := bind_eq_ok ht
  refine ⟨_, ?_, hfinished⟩
  exact (bind_of_eq_ok hintervals).trans ((bind_of_eq_ok hcompressed).trans (bind_of_eq_ok hdirect))

/-- **A search finds the place of an address** among the intervals. -/
theorem LpmDxr.Built.search (hb : t.Built es key) (ha : a < 2 ^ 32) :
    t.searchInterval a = .ok (place es a : Int) := by
  have h := hb.indexed
  have hblock : a / 2 ^ 16 < 2 ^ 16 := by omega
  obtain ⟨hlow, hhigh⟩ := h.place_block a
  have hle := place_le es (a / 2 ^ 16 * 2 ^ 16 + 2 ^ 16 - 1)
  have hlt := h.lt_ioff
  have hioff := h.ioff_le
  rw [LpmDxr.searchInterval, if_pos hb.built, hb.bottom _ hblock, hb.top _ hblock]
  refine bisect_ok (by omega) (by omega) fun m hm hm' => ?_
  obtain ⟨m, rfl⟩ := Int.eq_ofNat_of_zero_le (by omega : 0 ≤ m)
  rw [LpmDxr.below, if_pos (by omega)]
  congr 1
  rw [decide_eq_decide, h.smints_iff ha (by omega) (by omega)]
  omega

theorem LpmDxr.Built.lookup_eq (h : t.Built es key) (ha : a < 2 ^ 32) :
    t.lookup a = .ok (t.keys (place es a)) := by
  have hle := place_le es a
  have hlt := h.indexed.lt_ioff
  have hioff := h.indexed.ioff_le
  refine (bind_of_eq_ok (h.search ha)).trans ?_
  rw [if_pos ⟨by omega, by omega⟩, Int.toNat_natCast]

/-- A lookup gives the value of an address in the table of the intervals. -/
theorem LpmDxr.Built.lookup (hb : t.Built es key) (ha : a < 2 ^ 32) :
    t.lookup a = .ok (value es key a) := by
  have h := hb.indexed
  have hle := place_le es a
  rw [hb.lookup_eq ha]
  congr 1
  obtain ⟨hplace, hvalue⟩ := value_eq_place (a := a) es [((2 ^ 32 - 1, key) : Nat × Nat)] rfl
  rw [← hvalue]
  by_cases hin : place es a < es.length
  · rw [getElem_append_left hin, ← (h.entry _ hin).1]
    rfl
  · have heq : place es a = es.length := by omega
    simp only [heq, getElem_concat_length]
    exact h.key_behind

end

/-! ## Building -/

section

variable {ns rest : List (Prefix 32 × LpmKey)} {root : Prefix 32 × LpmKey}
  {raw : List (Nat × Nat)} {t₀ t : LpmDxr} {n : Nat}

section

variable (h : t₀.Shows t raw)
include h

theorem LpmDxr.Shows.interval_eq {k : Nat} (hk : k < raw.length) :
    t.interval k = raw[k] := h.entry k hk

variable (hraw : Raw root ns raw)
include hraw

theorem LpmDxr.Shows.interval_last (hsizes : Sizes root ns) (hn : raw.length = n + 1) :
    t.interval n = (2 ^ 32 - 1, root.2.1.toNat) := by
  obtain ⟨init, rfl⟩ := hraw.last
  have hinit : init.length = n := by simpa using hn
  rw [h.interval_eq (by omega), ← hsizes.root_stop]
  simp only [← hinit, getElem_concat_length]
  rfl

/-- The first interval that does not end before an address has the key of its longest prefix. -/
theorem LpmDxr.Shows.finds (hn : raw.length = n + 1)
    {a : BitVec 32} {m : Prefix 32 × LpmKey} (hm : LongestIn ns a m) :
    ∃ k, Finds t.interval n a.toNat k ∧ (t.interval k).2 = m.2.1.toNat := by
  obtain ⟨o, ho, hkey⟩ := hraw.answers a m hm
  obtain ⟨hfound, k, hk, rfl, hbelow⟩ := List.find?_eq_some_iff_getElem.mp ho
  refine ⟨k, ⟨by omega, fun i hi => ?_, .inr ?_⟩, ?_⟩
  · rw [h.interval_eq (by omega)]
    simpa using hbelow i hi
  · rw [h.interval_eq hk]
    exact of_decide_eq_true hfound
  · rw [h.interval_eq hk]
    exact hkey

theorem LpmDxr.Shows.interval_mono {i j : Nat}
    (hij : i < j) (hj : j < raw.length) : (t.interval i).1 ≤ (t.interval j).1 := by
  rw [h.interval_eq hj, h.interval_eq (hij.trans hj)]
  exact pairwise_iff_getElem.mp hraw.sorted i j _ _ hij

/-- **The last interval or the one behind it is left**, if those behind are not both like it. -/
theorem LpmDxr.Shows.buildCompressed (hsizes : Sizes root ns) (hn : raw.length = n + 1)
    (hfresh : ¬ (t₀.Stale root.2.1 (n + 1) ∧ t₀.Stale root.2.1 (n + 2))) :
    ∃ t', t.buildCompressed = .ok t' ∧ t'.built = false ∧
      t'.Indexed (remaining SameInterval t.interval n) root.2.1.toNat := by
  have hlast := h.interval_last hraw hsizes hn
  have hcount := hraw.length_eq ▸ hsizes.count
  have hioff : t.ioff = n + 1 := h.ioff.trans hn
  have hsame : SameInterval (t.interval n) (t.interval (n + 1)) ↔ t₀.Stale root.2.1 (n + 1) := by
    obtain ⟨hinterval, hkey⟩ := h.beyond (n + 1) (by omega)
    rw [hlast, LpmDxr.Stale, ← hkey]
    refine and_congr eq_comm ?_
    show (2 ^ 32 - 1) / 2 ^ 16 = t.intervals (n + 1) / 2 ^ 16 ↔ _
    omega
  obtain ⟨s, hs⟩ : ∃ s, s = (List.range (n + 2)).foldl LpmDxr.compress (t, 0) := ⟨_, rfl⟩
  have hcompressing := hs ▸ t.compressing (n + 2)
  obtain ⟨t', j⟩ := s
  obtain ⟨tail, htail, hkey, hbehind⟩ : ∃ tail, remaining SameInterval t.interval (n + 2) =
      remaining SameInterval t.interval n ++ tail ∧
      (∃ x xs, tail = x :: xs ∧ x.2 = root.2.1.toNat ∧ (xs ≠ [] → xs.length = 1 ∧
        x.1 = 2 ^ 32 - 1)) ∧ tail.length ≤ 2 := by
    rw [remaining, remaining, append_assoc]
    refine ⟨_, rfl, ?_, ?_⟩
    · by_cases hfirst : SameInterval (t.interval n) (t.interval (n + 1))
      · have hsecond : ¬ SameInterval (t.interval (n + 1)) (t.interval (n + 2)) := by
          intro hsecond
          have hstale := hsame.mp hfirst
          obtain ⟨hinterval, hkey⟩ := h.beyond (n + 1) (by omega)
          obtain ⟨hinterval', hkey'⟩ := h.beyond (n + 2) (by omega)
          refine hfresh ⟨hstale, ?_, ?_⟩
          · exact (hkey'.symm.trans hsecond.1.symm).trans (hkey.trans hstale.1)
          · rw [← hinterval']
            exact hsecond.2.symm.trans ((congrArg (· / 2 ^ 16) hinterval).trans hstale.2)
        rw [if_pos hfirst, if_neg hsecond]
        refine ⟨_, [], rfl, ?_, fun hne => absurd rfl hne⟩
        rw [← hfirst.1, hlast]
      · rw [if_neg hfirst, hlast]
        refine ⟨_, _, rfl, rfl, fun hne => ⟨?_, rfl⟩⟩
        split_ifs at hne ⊢
        · exact absurd rfl hne
        · rfl
    · split_ifs <;> simp
  obtain ⟨x, xs, rfl, hx, hxs⟩ := hkey
  have hlength : j = (remaining SameInterval t.interval n ++ x :: xs).length :=
    htail ▸ hcompressing.length_eq
  have hentry : ∀ k hk,
      t'.interval k = (remaining SameInterval t.interval n ++ x :: xs)[k] ∧
        t'.smints k = t'.intervals k % 2 ^ 16 := htail ▸ hcompressing.entry
  rw [List.length_append, length_cons] at hlength
  have hle : (remaining SameInterval t.interval n).length ≤ n := length_remaining_le n
  have hhead : t'.interval (remaining SameInterval t.interval n).length = x := by
    rw [(hentry _ (by rw [List.length_append, length_cons]; omega)).1]
    simp
  refine ⟨{ t' with ioff := j }, ?_, hcompressing.built.trans h.built, ?_, ?_, ?_, fun k hk => ?_,
    ?_, fun hlt => ?_⟩
  · rw [LpmDxr.buildCompressed, hioff, if_pos (by omega), ← hs]
  · exact pairwise_remaining fun i j hij hj => h.interval_mono hraw hij (by omega)
  · show _ < j
    omega
  · show j ≤ _
    rw [length_cons] at hbehind
    omega
  · have hin := hentry k (by rw [List.length_append]; omega)
    rwa [getElem_append_left hk] at hin
  · rw [← hx, ← hhead]
    rfl
  · replace hlt : (remaining SameInterval t.interval n).length + 1 < j := hlt
    obtain ⟨hone, hx'⟩ := hxs (by
      rintro rfl
      rw [length_nil] at hlength
      omega)
    refine ⟨show j = _ by omega, ?_⟩
    rw [← hx', ← hhead]
    rfl

end

/-- **After a clean build every address has the key of its longest prefix.** -/
theorem LpmDxr.build_spec (hsizes : Sizes root ns) (hns : ns = root :: rest)
    (hsorted : ns.Pairwise fun m n => m.1.Before n.1) (hclean : t.Clean (ns.map entryFor)) :
    ∃ t', t.build (ns.map entryFor) = .ok t' ∧
      ∀ a m, LongestIn ns a m → t'.lookup a.toNat = .ok m.2.1.toNat := by
  have hfilled : ∀ x ∈ cuts (ns.map entryFor), (∃ m ∈ ns, m.1.ip.toNat = x + 1) →
      ∃ m ∈ ns, (entryFor m).stop = x + 1 := by
    rintro x hx ⟨m, hm, hstart⟩
    obtain ⟨e, he, hstop⟩ := hclean.filled x hx ⟨entryFor m, mem_map_of_mem hm, hstart⟩
    obtain ⟨m', hm', rfl⟩ := mem_map.mp he
    exact ⟨m', hm', hstop⟩
  have hshallow : ∀ a : BitVec 32, ∃ l ≤ 32, ∀ m ∈ ns,
      ¬ (m.1.length = l ∧ m.1.ip = keep l a) := by
    intro a
    obtain ⟨l, hl, hnone⟩ := hclean.shallow a
    exact ⟨l, hl, fun m hm => hnone (entryFor m) (mem_map_of_mem hm)⟩
  obtain ⟨t₁, raw, hintervals, hshows, hraw⟩ := buildIntervals_spec
    (t := { t with built := false, ioff := 0 }) hsizes hns hsorted hfilled hshallow rfl rfl
  obtain ⟨n, hn⟩ : ∃ n, raw.length = n + 1 := by
    obtain ⟨init, rfl⟩ := hraw.last
    exact ⟨init.length, by simp⟩
  obtain ⟨t₂, hcompressed, hbuilt, hindexed⟩ := hshows.buildCompressed hraw hsizes hn (by
    have hfresh := hclean.fresh (entryFor root) (mem_map_of_mem hsizes.root_mem)
      hsizes.root_length
    rw [← hraw.length_eq, hn] at hfresh
    exact hfresh)
  obtain ⟨t₃, hbuild, hfinished⟩ :=
    hindexed.build t hbuilt ((bind_of_eq_ok hintervals).trans hcompressed)
  refine ⟨t₃, hbuild, fun a m hm => ?_⟩
  obtain ⟨k, hfinds, hkey⟩ := hshows.finds hraw hn hm
  have hvalue : value (remaining SameInterval t₁.interval n) (t₁.interval n).2 a.toNat = _ :=
    value_remaining (fun x y hxy => hxy.1)
      (fun i hi => hshows.interval_mono hraw (Nat.lt_succ_self i) (by omega)) hfinds
  rw [hshows.interval_last hraw hsizes hn, hkey] at hvalue
  rw [hfinished.lookup a.isLt, hvalue]

end

/-! ## Use -/

/-- The operations. -/
inductive DxrOp where
  | change (op : LpmOp)
  | build

/-- `LPM4_dxr` in use: the trie with its map, the arrays, and whether the last operation was a
build. -/
structure DxrUse where
  use : LpmUse
  table : LpmDxr
  current : Bool

/-- 0.0.0.0/0. -/
def anyAddress : Prefix 32 := ⟨0, 0, by decide, by decide⟩

namespace DxrUse

/-- A new instance. -/
def begin : DxrUse := ⟨.begin, .new, false⟩

/-- One operation. -/
def step (u : DxrUse) : DxrOp → Except LpmFault DxrUse
  | .change op => do
    let use ← u.use.attempt op
    return { u with use := use, current := false }
  | .build => do
    let es ← u.use.trie.entries
    let t ← u.table.build es
    return { u with table := t, current := true }

/-- Keys have 16 bits; a build finds 0.0.0.0/0, and room for the intervals in the arrays. -/
def Legal (u : DxrUse) : DxrOp → Prop
  | .change (.add _ key) => key.1.toNat < 2 ^ 16
  | .change (.remove _) => True
  | .build => (u.use.map anyAddress).isSome ∧
      ∀ es, u.use.trie.entries = .ok es → intervalCount es + 1 < LpmDxr.arrayLength

/-- The nodes that an addition takes are there, and a build is clean. -/
def Fits (u : DxrUse) : DxrOp → Prop
  | .change (.add p _) => u.use.trie.nodesTaken p.ip p.length levels 0 ≤ u.use.trie.alloc.room
  | .change (.remove _) => True
  | .build => ∀ es, u.use.trie.entries = .ok es → u.table.Clean es

/-- After a build every lookup gives the key of the longest prefix. -/
def Answers (u : DxrUse) : Prop :=
  u.current = true → ∀ ip : BitVec 32, ∃ p key, IsLongest u.use.map ip p key ∧
    u.table.lookup ip.toNat = .ok key.1.toNat

/-- What every operation keeps. -/
structure Kept (u : DxrUse) : Prop where
  holds : ∃ T, u.use.trie.Holds u.use.map T
  keys : ∀ p key, u.use.map p = some key → key.1.toNat < 2 ^ 16
  answers : u.Answers

variable {u : DxrUse}

theorem begin_kept : begin.Kept :=
  ⟨⟨_, new_holds⟩, fun _ _ h => (nomatch h), fun h => (nomatch h)⟩

theorem Kept.change (h : u.Kept) {op : LpmOp} (hlegal : u.Legal (.change op))
    (hfits : u.Fits (.change op)) : ∃ u', u.step (.change op) = .ok u' ∧ u'.Kept := by
  obtain ⟨T, hholds⟩ := h.holds
  obtain ⟨use, huse, hmap, hholds'⟩ := LpmUse.attempt_spec op hholds (by
    rintro p key rfl
    exact hfits)
  refine ⟨_, bind_of_eq_ok huse, hholds', fun q key' hq => ?_, fun h => (nomatch h)⟩
  rw [hmap] at hq
  refine LpmOp.forall_apply h.keys ?_ hq
  rintro p key rfl
  exact hlegal

theorem exists_eq_cons {ns : List (Prefix 32 × LpmKey)} {key : LpmKey}
    (hsorted : ns.Pairwise fun m n => m.1.Before n.1) (hmem : (anyAddress, key) ∈ ns) :
    ∃ rest, ns = (anyAddress, key) :: rest := by
  cases ns with
  | nil => cases hmem
  | cons n rest =>
    rcases mem_cons.mp hmem with heq | hrest
    · exact ⟨rest, heq ▸ rfl⟩
    · rcases (pairwise_cons.mp hsorted).1 _ hrest with hlt | ⟨-, hlt⟩
      · exact absurd (BitVec.lt_def.mp hlt) (Nat.not_lt_zero _)
      · exact absurd hlt (Nat.not_lt_zero _)

theorem Kept.build (h : u.Kept) (hlegal : u.Legal .build) (hfits : u.Fits .build) :
    ∃ u', u.step .build = .ok u' ∧ u'.Kept := by
  obtain ⟨T, hholds⟩ := h.holds
  obtain ⟨ns, hentries, hsorted, hmap⟩ := hholds.entries
  obtain ⟨hroot, hcount⟩ := hlegal
  obtain ⟨key, hkey⟩ := Option.isSome_iff_exists.mp hroot
  have hmem := (hmap _ _).mp hkey
  obtain ⟨rest, hns⟩ := exists_eq_cons hsorted hmem
  have hsizes : Sizes (anyAddress, key) ns :=
    ⟨fun n hn => h.keys n.1 n.2 ((hmap n.1 n.2).mpr hn), hcount _ hentries, hmem, rfl⟩
  obtain ⟨t', hbuild, hlookup⟩ := LpmDxr.build_spec hsizes hns hsorted (hfits _ hentries)
  refine ⟨_, (bind_of_eq_ok hentries).trans (bind_of_eq_ok hbuild), h.holds, h.keys,
    fun _ ip => ?_⟩
  obtain ⟨p, key', hlongest⟩ := exists_longest (a := ip) hkey
    (by rw [Prefix.Contains, anyAddress, keep_zero]; rfl)
  refine ⟨p, key', hlongest, hlookup ip (p, key') ⟨(hmap p key').mp hlongest.1, hlongest.2.1, ?_⟩⟩
  exact fun n hn => hlongest.2.2 n.1 n.2 ((hmap n.1 n.2).mpr hn)

end DxrUse

/-- **Intervals that are built clean answer as the longest prefix does.** In a use whose additions
fit and whose builds are clean, all operations return, and after each build every lookup gives the
key of the longest prefix. -/
theorem lookup_finds_longest (ops : List DxrOp) (hlegal : Along DxrUse.step DxrUse.Legal .begin ops)
    (hfits : Along DxrUse.step DxrUse.Fits .begin ops) :
    (∃ u, run DxrUse.step .begin ops = .ok u) ∧
      ∀ n u, run DxrUse.step .begin (ops.take n) = .ok u → u.Answers := by
  obtain ⟨hrun, hall⟩ := run_total_all (I := fun u : DxrUse => u.Kept)
    (P := fun u op => u.Legal op ∧ u.Fits op) (by
      rintro u op hkept ⟨hop, hfit⟩
      cases op with
      | change op => exact hkept.change hop hfit
      | build => exact hkept.build hop hfit)
    DxrUse.begin_kept (hlegal.and hfits)
  exact ⟨hrun, fun n u hu => (hall n u hu).answers⟩

/-- There are at most 32 prefixes, 0.0.0.0/0 among them, without gaps of one address, and the
arrays have room for the intervals and are not stale behind them. -/
def DxrUse.tidy (u : DxrUse) : Bool :=
  match u.use.trie.entries with
  | .ok es => decide ((u.use.map anyAddress).isSome ∧ es.length ≤ 32 ∧
      intervalCount es + 1 < LpmDxr.arrayLength ∧
      (∀ x ∈ cuts es, (∃ e ∈ es, e.ip.toNat = x + 1) → ∃ e ∈ es, e.stop = x + 1) ∧
      ∀ e ∈ es, ¬ u.table.Stale e.key (intervalCount es))
  | .error _ => false

/-- What a check of the state shows to be legal and to fit. -/
def DxrUse.Small (u : DxrUse) : DxrOp → Prop
  | .change (.add p key) => key.1.toNat < 2 ^ 16 ∧
      u.use.trie.nodesTaken p.ip p.length levels 0 ≤ u.use.trie.alloc.room
  | .change (.remove _) => True
  | .build => u.tidy = true

instance (u : DxrUse) (op : DxrOp) : Decidable (u.Small op) :=
  match op with
  | .change (.add _ _) => inferInstanceAs (Decidable (_ ∧ _))
  | .change (.remove _) => isTrue trivial
  | .build => inferInstanceAs (Decidable (_ = true))

variable {u : DxrUse}

theorem DxrUse.tidy_spec (h : u.tidy = true) : u.Legal .build ∧ u.Fits .build := by
  rw [DxrUse.tidy] at h
  split at h
  · next es hes =>
    obtain ⟨hroot, hlength, hcount, hfilled, hfresh⟩ := of_decide_eq_true h
    refine ⟨⟨hroot, fun es' hes' => ?_⟩, fun es' hes' => ?_⟩
    · obtain rfl := ok_unique hes hes'
      exact hcount
    · obtain rfl := ok_unique hes hes'
      refine ⟨hfilled, fun a => ?_, fun e he _ hstale => hfresh e he hstale.1⟩
      by_contra hall
      have hsub : Finset.range 33 ⊆ (es.map LpmEntry.length).toFinset := by
        intro l hl
        by_contra hnot
        refine hall ⟨l, Nat.le_of_lt_succ (Finset.mem_range.mp hl), fun e he heq => hnot ?_⟩
        exact mem_toFinset.mpr (mem_map.mpr ⟨e, he, heq.1⟩)
      have hcard := (Finset.card_le_card hsub).trans (toFinset_card_le _)
      rw [Finset.card_range, length_map] at hcard
      omega
  · cases h

theorem DxrUse.Small.legal {op : DxrOp} (h : u.Small op) : u.Legal op := by
  cases op with
  | change op =>
    cases op with
    | add p key => exact h.1
    | remove p => trivial
  | build => exact (DxrUse.tidy_spec h).1

theorem DxrUse.Small.fits {op : DxrOp} (h : u.Small op) : u.Fits op := by
  cases op with
  | change op =>
    cases op with
    | add p key => exact h.2
    | remove p => trivial
  | build => exact (DxrUse.tidy_spec h).2

/-- Prefixes are added above each other and next to each other, one that is not present is removed,
and the intervals are built. -/
theorem lookup_finds_longest_sample :
    let ops : List DxrOp := [.change (.add anyAddress ⟨700, by decide⟩),
      .change (.add ⟨0x80000000, 8, by decide, by decide⟩ ⟨701, by decide⟩),
      .change (.add ⟨0xC0000000, 8, by decide, by decide⟩ ⟨702, by decide⟩),
      .change (.add ⟨0xC0000000, 16, by decide, by decide⟩ ⟨703, by decide⟩),
      .change (.remove ⟨0xE0000000, 8, by decide, by decide⟩)] ++ [.build]
    (∃ u, run DxrUse.step .begin ops = .ok u) ∧
      ∀ n u, run DxrUse.step .begin (ops.take n) = .ok u → u.Answers := by
  intro ops
  obtain ⟨u, hu, htidy⟩ := ok_of_any (r := run DxrUse.step .begin (ops.take 5)) (q := DxrUse.tidy)
    (by decide +kernel)
  have hsmall : Along DxrUse.step DxrUse.Small .begin ops :=
    Along.append (by decide +kernel) hu ⟨htidy, fun _ _ => trivial⟩
  exact lookup_finds_longest ops (hsmall.mono fun _ _ h => h.legal)
    (hsmall.mono fun _ _ h => h.fits)

/-- 0.0.0.0 is between the begin of 0.0.0.0/0 and 0.0.0.1/32: it gets the key of the latter. -/
theorem lone_address_gets_next_key :
    let ops : List DxrOp := [.change (.add anyAddress ⟨1, by decide⟩),
      .change (.add (host 1) ⟨2, by decide⟩), .build]
    Along DxrUse.step DxrUse.Legal .begin ops ∧ ∃ u, run DxrUse.step .begin ops = .ok u ∧
      u.current = true ∧ IsLongest u.use.map 0 anyAddress ⟨1, by decide⟩ ∧
      u.table.lookup 0 = .ok 2 := by
  intro ops
  let es : List LpmEntry := [⟨0, 1, 0⟩, ⟨1, 2, 32⟩]
  obtain ⟨use, huse, hentries⟩ := ok_of_any
    (r := LpmUse.begin.attempt (.add anyAddress ⟨1, by decide⟩) >>= fun u =>
      u.attempt (.add (host 1) ⟨2, by decide⟩))
    (q := fun use => use.trie.entries = .ok es ∧ (use.map anyAddress).isSome) (by decide +kernel)
  obtain ⟨hentries, hroot⟩ := of_decide_eq_true hentries
  obtain ⟨use₁, hfirst, hsecond⟩ := bind_eq_ok huse
  obtain ⟨t, ht, hchecked⟩ := ok_of_any
    (r := LpmDxr.new.buildIntervals es >>= LpmDxr.buildCompressed)
    (q := fun t => t.built = false ∧ t.ioff = 2 ∧ t.interval 0 = (1, 2) ∧ t.smints 0 = 1 ∧
      t.keys 1 = 1) (by decide +kernel)
  obtain ⟨hbuilt, hioff, hinterval, hsmint, hkey⟩ := of_decide_eq_true hchecked
  have hindexed : t.Indexed [(1, 2)] 1 := by
    refine ⟨pairwise_singleton _ _, by rw [hioff]; decide, by rw [hioff]; decide, fun k hk => ?_,
      hkey, fun hlt => by rw [hioff] at hlt; exact absurd hlt (by decide)⟩
    obtain rfl : k = 0 := Nat.lt_one_iff.mp hk
    refine ⟨hinterval, ?_⟩
    rw [hsmint, show t.intervals 0 = 1 from congrArg Prod.fst hinterval]
    rfl
  obtain ⟨t', hbuild, hfinished⟩ := hindexed.build .new hbuilt ht
  have hstep₁ : DxrUse.step .begin (.change (.add anyAddress ⟨1, by decide⟩)) =
      .ok ⟨use₁, .new, false⟩ := bind_of_eq_ok hfirst
  have hstep₂ : DxrUse.step ⟨use₁, .new, false⟩ (.change (.add (host 1) ⟨2, by decide⟩)) =
      .ok ⟨use, .new, false⟩ := bind_of_eq_ok hsecond
  have hstep₃ : DxrUse.step ⟨use, .new, false⟩ .build =
      .ok ⟨use, t', true⟩ := (bind_of_eq_ok hentries).trans (bind_of_eq_ok hbuild)
  have hmap : use.map = update (update (fun _ => none) anyAddress
      (some ⟨1, by decide⟩)) (host 1) (some ⟨2, by decide⟩) := by
    rw [LpmUse.attempt_map hsecond, LpmUse.attempt_map hfirst]
    rfl
  refine ⟨?_, ⟨use, t', true⟩, ?_, rfl, ⟨?_, by decide, fun q key hq ha => ?_⟩,
    ?_⟩
  · refine (along_cons_ok hstep₁).mpr ⟨show 1 < 2 ^ 16 by decide, (along_cons_ok hstep₂).mpr
      ⟨show 2 < 2 ^ 16 by decide, (along_cons_ok hstep₃).mpr ⟨⟨hroot, fun es' hes' => ?_⟩, trivial⟩⟩⟩
    obtain rfl := ok_unique hentries hes'
    decide +kernel
  · rw [run_cons_ok hstep₁, run_cons_ok hstep₂, run_cons_ok hstep₃]
    rfl
  · show use.map anyAddress = _
    rw [hmap, update_of_ne (by decide), update_self]
  · replace hq : use.map q = some key := hq
    by_cases hhost : q = host 1
    · rw [hhost] at ha
      exact absurd ha (by decide)
    · rw [hmap, update_of_ne hhost] at hq
      by_cases hany : q = anyAddress
      · rw [hany]
      · rw [update_of_ne hany] at hq
        cases hq
  · exact hfinished.lookup (by decide)

end Snabb
