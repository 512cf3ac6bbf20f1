import Snabb.Foundation.Outcome
import Snabb.Lib.Lpm.DxrSearch

/-!
# Every build sorts the intervals (`lib/lpm/lpm4_dxr.lua`)

The intervals need not give every address its key, but they are recorded in order: an interval is
recorded if it ends behind the one before it, and what is left on the stack in the end is nested.

- `buildIntervals_sorted`: the intervals of a build that returns end in order;
- `build_indexed`: after a build that returns the arrays show intervals in order and one more, or
  there is none left.
-/

namespace Snabb

open Foundation Prefix LpmTrie IntervalTable List
open Function (update update_of_ne update_self)

namespace LpmDxr

/-- The intervals that are recorded are in order, and end with `previous` at most. -/
structure Rising (t₀ : LpmDxr) (s : LpmDxr × Int) : Prop where
  shown : ∃ out, t₀.Shows s.1 out ∧ out.Pairwise (fun x y => x.1 ≤ y.1) ∧
    ∀ o ∈ out, (o.1 : Int) ≤ s.2
  previous : -1 ≤ s.2

variable {t₀ t t' : LpmDxr} {s : LpmDxr × Int} {ns done chain : List (Prefix 32 × LpmKey)}
  {n c : Prefix 32 × LpmKey} {ip : Nat}

theorem stop_le_size (c : Prefix 32 × LpmKey) : (entryFor c).stop ≤ 2 ^ 32 := by
  have hcovers : anyAddress.Covers c.1 := by
    refine ⟨Nat.zero_le _, ?_⟩
    rw [Prefix.Contains, show anyAddress.length = 0 from rfl, keep_zero]
    rfl
  have hle := stop_le_of_covers (n := c) (c := (anyAddress, c.2)) hcovers
  have hall : (entryFor (anyAddress, c.2)).stop = (0#32).toNat + 2 ^ (32 - 0) := rfl
  rw [hall] at hle
  exact hle

theorem Rising.addInterval (h : t₀.Rising s) (head : LpmEntry) {finish : Nat}
    (hle : s.2 ≤ finish) (hfinish : finish < 2 ^ 32) :
    Outcome (fun _ => True) (fun s' => t₀.Rising s' ∧ s'.2 = finish)
      (LpmDxr.addInterval s head finish) := by
  obtain ⟨out, hshows, hsorted, hall⟩ := h.shown
  by_cases hroom : out.length < arrayLength
  · obtain ⟨t', hadd, hshows'⟩ := hshows.record head finish s.2 hroom hfinish
    rw [hadd]
    refine ⟨⟨⟨_, hshows', ?_, ?_⟩, show -1 ≤ (finish : Int) by omega⟩, rfl⟩
    · refine pairwise_append.mpr ⟨hsorted, pairwise_singleton _ _, fun o ho o' ho' => ?_⟩
      rw [mem_singleton.mp ho']
      exact Int.ofNat_le.mp ((hall o ho).trans hle)
    · intro o ho
      rcases mem_append.mp ho with ho | ho
      · exact (hall o ho).trans hle
      · rw [mem_singleton.mp ho]
  · rw [LpmDxr.addInterval, if_neg (hshows.ioff ▸ hroom)]
    trivial

theorem Rising.popBelow (h : t₀.Rising s) (hlt : s.2 < ip) :
    Outcome (fun _ => True) (fun s' : List LpmEntry × LpmDxr × Int =>
        ∃ chain', s'.1 = chain'.map entryFor ∧ chain' <:+ chain ∧
          (∀ c ∈ chain'.head?, ip < (entryFor c).stop) ∧ t₀.Rising s'.2 ∧ s'.2.2 < ip)
      (LpmDxr.popBelow ip (chain.map entryFor) s) := by
  induction chain generalizing s with
  | nil => trivial
  | cons c chain ih =>
    have hstop : c.1.ip.toNat < (entryFor c).stop := start_lt_stop
    have hsize := stop_le_size c
    obtain ⟨finish, hfinish⟩ : ∃ finish : Nat, bcast (entryFor c) = finish :=
      ⟨(entryFor c).stop - 1, by rw [bcast_entryFor]; omega⟩
    have heq := bcast_entryFor (n := c)
    rw [map_cons, LpmDxr.popBelow]
    by_cases hbelow : bcast (entryFor c) < ip
    · rw [if_pos hbelow]
      have hrecord : Outcome (fun _ => True) (fun s' => t₀.Rising s' ∧ s'.2 < ip)
          (if s.2 < bcast (entryFor c) then
            LpmDxr.addInterval s (entryFor c) (bcast (entryFor c)) else .ok s) := by
        split
        · next hbehind =>
          rw [hfinish]
          refine (h.addInterval _ (by omega) (by omega)).mono fun s' hs' => ⟨hs'.1, ?_⟩
          omega
        · exact ⟨h, hlt⟩
      refine hrecord.bind fun s' hs' => (ih hs'.1 hs'.2).mono fun s'' => ?_
      rintro ⟨chain', hstk, hsuffix, hrest⟩
      exact ⟨chain', hstk, hsuffix.trans (suffix_cons c chain), hrest⟩
    · rw [if_neg hbelow]
      refine ⟨c :: chain, rfl, suffix_rfl, fun d hd => ?_, h, hlt⟩
      cases hd
      omega

theorem Rising.fillGap (h : t₀.Rising s) (hlt : s.2 < ip) (hip : ip < 2 ^ 32)
    (stk : List LpmEntry) : Outcome (fun _ => True) (fun s' => t₀.Rising s' ∧ s'.2 < ip)
      (LpmDxr.fillGap ip stk s) := by
  have hprevious := h.previous
  unfold LpmDxr.fillGap
  split
  · next hgap =>
    cases stk with
    | nil => trivial
    | cons head stk =>
      obtain ⟨finish, hfinish⟩ : ∃ finish : Nat, (ip : Int) - 1 = finish := ⟨ip - 1, by omega⟩
      rw [hfinish]
      refine (h.addInterval head (by omega) (by omega)).mono fun s' hs' => ⟨hs'.1, ?_⟩
      omega
  · exact ⟨h, hlt⟩

/-- The state of the loop over the entries: the stack is nested, and reaches behind `previous`. -/
structure Stacked (t₀ : LpmDxr) (done : List (Prefix 32 × LpmKey))
    (s : List LpmEntry × LpmDxr × Int) : Prop where
  chain : ∃ chain : List (Prefix 32 × LpmKey), s.1 = chain.map entryFor ∧ (∀ c ∈ chain, c ∈ done) ∧
    (chain.Pairwise fun c d => d.1.Covers c.1) ∧ ∀ c ∈ chain.head?, s.2.2 < (entryFor c).stop
  rising : t₀.Rising s.2
  before : ∀ ip : Nat, (∀ d ∈ done, d.1.ip.toNat ≤ ip) → s.2.2 < ip

theorem Stacked.push (hchain : chain.Pairwise fun c d => d.1.Covers c.1)
    (hsub : ∀ c ∈ chain, c ∈ done) (hcovers : ∀ d ∈ chain, d.1.Covers n.1)
    (h : t₀.Rising s) (hlt : s.2 < n.1.ip.toNat) :
    Outcome (fun _ => True) (fun stk => t₀.Stacked (done ++ [n]) (stk, s))
      (LpmDxr.push (chain.map entryFor) (entryFor n)) := by
  have hstop : n.1.ip.toNat < (entryFor n).stop := start_lt_stop
  rw [LpmDxr.push]
  split
  · refine ⟨⟨n :: chain, rfl, ?_, pairwise_cons.mpr ⟨hcovers, hchain⟩, fun c hc => ?_⟩, h,
      fun ip hip => ?_⟩
    · exact forall_mem_cons.mpr ⟨mem_append_right _ (mem_singleton_self n),
        fun c hc => mem_append_left _ (hsub c hc)⟩
    · cases hc
      show s.2 < _
      omega
    · have hn := hip n (mem_append_right _ (mem_singleton_self n))
      show s.2 < _
      omega
  · trivial

theorem Stacked.addEntry {s : List LpmEntry × LpmDxr × Int} (h : t₀.Stacked done s)
    (hbefore : ∀ d ∈ done, d.1.Before n.1) :
    Outcome (fun _ => True) (t₀.Stacked (done ++ [n])) (LpmDxr.addEntry s (entryFor n)) := by
  obtain ⟨stk, s⟩ := s
  obtain ⟨⟨chain, rfl, hsub, hnested, -⟩, hrising, hprevious⟩ := h
  have hstart d (hd : d ∈ done) : d.1.ip.toNat ≤ n.1.ip.toNat := by
    rcases hbefore d hd with hlt | ⟨heq, -⟩
    · exact (BitVec.lt_def.mp hlt).le
    · rw [heq]
  have hlt : s.2 < n.1.ip.toNat := hprevious _ hstart
  rw [LpmDxr.addEntry]
  split
  · next hroot =>
    -- nothing comes before 0.0.0.0/0
    obtain rfl : chain = [] := by
      refine eq_nil_iff_forall_not_mem.mpr fun d hd => ?_
      rcases hbefore d (hsub d hd) with hless | ⟨-, hless⟩
      · rw [show n.1.ip = 0 from hroot.1] at hless
        exact absurd hless (Nat.not_lt_zero _)
      · rw [show n.1.length = 0 from hroot.2] at hless
        exact absurd hless (Nat.not_lt_zero _)
    have hself : ∀ d ∈ [n], d.1.Covers n.1 := by
      intro d hd
      rw [mem_singleton.mp hd]
      exact covers_refl
    have hgap : LpmDxr.fillGap n.1.ip.toNat [entryFor n] s = .ok s := by
      have hzero : n.1.ip.toNat = 0 := by
        rw [show n.1.ip = 0 from hroot.1]
        rfl
      have hge : -1 ≤ s.2 := hrising.previous
      exact if_neg (by omega)
    have hpush : LpmDxr.push [] (entryFor n) = .ok [entryFor n] := if_pos (by decide)
    have hpush' : LpmDxr.push [entryFor n] (entryFor n) = .ok [entryFor n, entryFor n] :=
      if_pos (by simp)
    have hstop : n.1.ip.toNat < (entryFor n).stop := start_lt_stop
    show Outcome _ _ (LpmDxr.fillGap n.1.ip.toNat [entryFor n] s >>= fun s => _)
    rw [hgap]
    show Outcome _ _ (LpmDxr.push [entryFor n] (entryFor n) >>= fun stk => _)
    have hn : n ∈ done ++ [n] := mem_append_right _ (mem_singleton_self n)
    refine ⟨⟨[n, n], rfl, ?_, ?_, fun c hc => ?_⟩, hrising, fun ip hip => ?_⟩
    · exact forall_mem_cons.mpr ⟨hn, forall_mem_singleton.mpr hn⟩
    · exact pairwise_cons.mpr ⟨hself, pairwise_singleton _ _⟩
    · cases hc
      show s.2 < _
      omega
    · have hle := hip n hn
      show s.2 < _
      omega
  · refine (hrising.popBelow hlt).bind ?_
    rintro ⟨-, s'⟩ ⟨chain', rfl, hsuffix, hreach, hrising', hlt'⟩
    refine (hrising'.fillGap hlt' n.1.ip.isLt _).bind fun s'' hs'' => ?_
    have hsub' d hd : d ∈ done := hsub d (hsuffix.mem hd)
    have hnested' := hnested.sublist hsuffix.sublist
    have hcovers : ∀ d ∈ chain', d.1.Covers n.1 := by
      cases chain' with
      | nil => simp
      | cons head chain' =>
        have hhead := hsub' head mem_cons_self
        have hfirst : head.1.Covers n.1 :=
          covers_of_before (hbefore head hhead) (hstart head hhead) (hreach head rfl)
        refine forall_mem_cons.mpr ⟨hfirst, fun d hd => ?_⟩
        exact ((pairwise_cons.mp hnested').1 d hd).trans hfirst
    exact (Stacked.push hnested' hsub' hcovers hs''.1 hs''.2).bind fun stk hstk => hstk

theorem Rising.drain (h : t₀.Rising s) (hnested : chain.Pairwise fun c d => d.1.Covers c.1)
    (hlt : ∀ c ∈ chain.head?, s.2 < (entryFor c).stop) :
    Outcome (fun _ => True) t₀.Rising
      ((chain.map entryFor).foldlM (fun s head => LpmDxr.addInterval s head (bcast head)) s) := by
  induction chain generalizing s with
  | nil => exact h
  | cons c chain ih =>
    have hstop : c.1.ip.toNat < (entryFor c).stop := start_lt_stop
    have hsize := stop_le_size c
    have hhead := hlt c rfl
    obtain ⟨finish, hfinish⟩ : ∃ finish : Nat, bcast (entryFor c) = finish :=
      ⟨(entryFor c).stop - 1, by rw [bcast_entryFor]; omega⟩
    have heq := bcast_entryFor (n := c)
    obtain ⟨hcovers, hrest⟩ := pairwise_cons.mp hnested
    rw [map_cons, foldlM_cons, hfinish]
    refine (h.addInterval (entryFor c) (by omega) (by omega)).bind fun s' hs' => ?_
    refine ih hs'.1 hrest fun d hd => ?_
    have hle := stop_le_of_covers (hcovers d (mem_of_mem_head? hd))
    omega

/-- **The intervals of a build that returns end in order.** -/
theorem buildIntervals_sorted (hsorted : ns.Pairwise fun m n => m.1.Before n.1)
    (hioff : t.ioff = 0) (hbuilt : t.built = false) :
    Outcome (fun _ => True)
      (fun t' => ∃ out, t.Shows t' out ∧ out.Pairwise fun x y => x.1 ≤ y.1)
      (t.buildIntervals (ns.map entryFor)) := by
  have hinit : t.Stacked [] ([], t, -1) := by
    refine ⟨⟨[], rfl, nofun, .nil, nofun⟩, ⟨⟨[], ⟨hioff, hbuilt, nofun, fun _ _ => ⟨rfl, rfl⟩⟩,
      .nil, nofun⟩, le_rfl⟩, fun ip _ => ?_⟩
    show (-1 : Int) < ip
    omega
  have hloop : Outcome (fun _ => True) (t.Stacked ns)
      (ns.foldlM (fun s n => LpmDxr.addEntry s (entryFor n)) ([], t, -1)) :=
    outcome_foldlM (I := t.Stacked) hinit fun done n rest hns s hs => hs.addEntry fun d hd =>
      (pairwise_append.mp (hns ▸ hsorted)).2.2 d hd n mem_cons_self
  rw [LpmDxr.buildIntervals, foldlM_map]
  refine hloop.bind fun s hs => ?_
  obtain ⟨stk, s⟩ := s
  obtain ⟨⟨chain, rfl, -, hnested, hreach⟩, hrising, -⟩ := hs
  refine (hrising.drain hnested hreach).bind fun s' hs' => ?_
  obtain ⟨out, hshows, hout, -⟩ := hs'.shown
  exact ⟨out, hshows, hout⟩

/-- There is no interval left, and the index of all blocks is -1. -/
structure Empty (t : LpmDxr) : Prop where
  ioff : t.ioff = 0
  built : t.built = true
  bottom : ∀ b < 2 ^ 16, t.bottoms b = 2 ^ 32 - 1
  top : ∀ b < 2 ^ 16, t.tops b = 2 ^ 32 - 1

variable {out : List (Nat × Nat)}

/-- What is left of intervals in order is in order but for the last one, which an earlier build may
have left. -/
theorem pairwise_dropLast (h : t₀.Shows t out) (hsorted : out.Pairwise fun x y => x.1 ≤ y.1) :
    (remaining SameInterval t.interval (out.length + 1)).dropLast.Pairwise
      fun x y => x.1 ≤ y.1 := by
  have hbefore : (remaining SameInterval t.interval out.length).Pairwise fun x y => x.1 ≤ y.1 :=
    pairwise_remaining fun i j hij hj => by
      rw [h.interval_eq (by omega), h.interval_eq hj]
      exact pairwise_iff_getElem.mp hsorted i j _ _ hij
  rw [remaining]
  split
  · rw [append_nil]
    exact hbefore.sublist (dropLast_sublist _)
  · rwa [dropLast_concat]

/-- After the intervals are compressed the arrays show those that are left. -/
theorem Shows.compressed (h : t₀.Shows t out) (hsorted : out.Pairwise fun x y => x.1 ≤ y.1) :
    Outcome (fun _ => True) (fun t' => t'.built = false ∧
        (t'.ioff = 0 ∨ ∃ es key, t'.Indexed es key)) t.buildCompressed := by
  rw [LpmDxr.buildCompressed, h.ioff]
  split
  · next hroom =>
    have hcompressing := t.compressing (out.length + 1)
    obtain ⟨s, hs⟩ : ∃ s, s = (List.range (out.length + 1)).foldl compress (t, 0) := ⟨_, rfl⟩
    rw [← hs] at hcompressing ⊢
    obtain ⟨t', j⟩ := s
    have hlength := hcompressing.length_eq
    have hle : j ≤ out.length + 1 := hlength.le.trans (length_remaining_le _)
    refine ⟨hcompressing.built.trans h.built, ?_⟩
    by_cases hj : j = 0
    · exact .inl hj
    · refine .inr ⟨_, _, pairwise_dropLast h hsorted, ?_, ?_, fun k hk => ?_, rfl, fun hlt => ?_⟩
      · show _ < j
        rw [length_dropLast]
        omega
      · show j ≤ _
        omega
      · rw [length_dropLast] at hk
        rw [getElem_dropLast]
        exact hcompressing.entry k (by omega)
      · replace hlt : _ < j := hlt
        rw [length_dropLast] at hlt
        omega
  · trivial

theorem setDirect_empty (hioff : t.ioff = 0) (hbuilt : t.built = false) (b : Nat) :
    t.setDirect b = .ok { t with bottoms := update t.bottoms b (2 ^ 32 - 1),
                                 tops := update t.tops b (2 ^ 32 - 1) } := by
  have hsearch {t : LpmDxr} (hioff : t.ioff = 0) (hbuilt : t.built = false) a :
      t.searchInterval a = .ok (-1) := by
    rw [searchInterval, if_neg (by rw [hbuilt]; decide), hioff, bisect]
    rfl
  refine (bind_of_eq_ok (hsearch hioff hbuilt _)).trans ?_
  refine (bind_of_eq_ok (hsearch ?_ ?_ _)).trans rfl
  · exact hioff
  · exact hbuilt

theorem buildDirect_empty (hioff : t.ioff = 0) (hbuilt : t.built = false) (m : Nat) :
    ∃ t', (List.range m).foldlM setDirect t = .ok t' ∧ t'.ioff = 0 ∧ t'.built = false ∧
      ∀ b < m, t'.bottoms b = 2 ^ 32 - 1 ∧ t'.tops b = 2 ^ 32 - 1 := by
  induction m with
  | zero => exact ⟨t, rfl, hioff, hbuilt, fun b hb => absurd hb (Nat.not_lt_zero b)⟩
  | succ m ih =>
    obtain ⟨t', hloop, hioff', hbuilt', hall⟩ := ih
    refine ⟨{ t' with bottoms := update t'.bottoms m (2 ^ 32 - 1),
                      tops := update t'.tops m (2 ^ 32 - 1) }, ?_, hioff', hbuilt',
      fun b hb => ?_⟩
    · rw [range_succ, foldlM_append, hloop]
      show setDirect t' m >>= pure = _
      rw [setDirect_empty hioff' hbuilt']
      rfl
    · show update _ _ _ _ = _ ∧ update _ _ _ _ = _
      rcases Nat.lt_succ_iff_lt_or_eq.mp hb with hlt | rfl
      · rw [update_of_ne (Nat.ne_of_lt hlt), update_of_ne (Nat.ne_of_lt hlt)]
        exact hall b hlt
      · rw [update_self, update_self]
        exact ⟨rfl, rfl⟩

theorem empty_finished (hioff : t.ioff = 0) (hbuilt : t.built = false) :
    ∃ t', t.buildDirect = .ok t' ∧ Empty { t' with built := true } := by
  obtain ⟨t', hdirect, hioff', -, hall⟩ := buildDirect_empty hioff hbuilt (2 ^ 16)
  exact ⟨t', hdirect, hioff', rfl, fun b hb => (hall b hb).1, fun b hb => (hall b hb).2⟩

/-- **After a build that returns** the arrays show intervals in order and one more, or there is
none left. -/
theorem build_indexed (hsorted : ns.Pairwise fun m n => m.1.Before n.1)
    (h : t.build (ns.map entryFor) = .ok t') : t'.Empty ∨ ∃ es key, t'.Built es key := by
  obtain ⟨t₁, hintervals, h⟩ := bind_eq_ok h
  obtain ⟨t₂, hcompressed, h⟩ := bind_eq_ok h
  obtain ⟨t₃, hdirect, h⟩ := bind_eq_ok h
  cases h
  obtain ⟨out, hshows, hout⟩ := (buildIntervals_sorted hsorted rfl rfl).of_eq_ok hintervals
  obtain ⟨hbuilt, hioff | ⟨es, key, hindexed⟩⟩ := (hshows.compressed hout).of_eq_ok hcompressed
  · obtain ⟨t₃', hdirect', hempty⟩ := empty_finished hioff hbuilt
    obtain rfl := ok_unique hdirect' hdirect
    exact .inl hempty
  · obtain ⟨t₃', hdirect', hbuilt'⟩ := hindexed.finished hbuilt
    obtain rfl := ok_unique hdirect' hdirect
    exact .inr ⟨es, key, hbuilt'⟩

end LpmDxr

end Snabb
