import Snabb.Foundation.Unrolled
import Snabb.Lib.Lpm.DxrSorted

/-!
# The search in C (`lib/lpm/lpm4_dxr.c`)

`lpm4_dxr_search` looks among few intervals one after the other, and bisects many with four steps
a round. At the last interval of a block it compares an address with the lower half of where that
interval ends, which is in another block if the interval goes on there, so that an address may be
above all intervals of its own block. Then the steps that are left in a round look behind them.

- `search_agrees_iff`: the addresses for which the search in C is the search in Lua.
-/

namespace Snabb

open Foundation Prefix LpmTrie IntervalTable Unrolled List LpmDxr

namespace LpmDxr

/-- An `int` that is read from a `uint32_t`. -/
def asInt (n : Nat) : Int := Int.bmod n (2 ^ 32)

/-- An element of `ints` or `keys`. -/
def fetch (arr : Nat → Nat) (i : Int) : Except LpmFault Nat :=
  if 0 ≤ i ∧ i < arrayLength then .ok (arr i.toNat) else .error (.outOfBounds i.toNat)

/-- `ints[mid] < ip`. -/
def belowAt (t : LpmDxr) (ip : Nat) (mid : Int) : Except LpmFault Bool := do
  let x ← fetch t.smints mid
  return decide (x < ip)

/-- `while(bottom < top && ip <= ints[top-1])`: the top, and the indexes that were read. -/
def linear (t : LpmDxr) (ip : Nat) (bottom : Int) :
    Nat → Int → List Int → Except LpmFault (Int × List Int)
  | 0, _, _ => .error .loops
  | fuel + 1, top, looked =>
    if bottom < top then do
      if ← t.belowAt ip (top - 1) then return (top, (top - 1) :: looked)
      else linear t ip bottom fuel (top - 1) ((top - 1) :: looked)
    else .ok (top, looked)

/-- The loop of bisections. -/
def bisections (t : LpmDxr) (ip : Nat) (bottom top : Int) : Except LpmFault (Int × List Int) := do
  let s ← rounds (t.belowAt ip) 4 .loops ((top - bottom).toNat + 1) ⟨bottom, top, []⟩
  return (s.top, s.looked)

/-- `lpm4_dxr_search`: the key, and the indexes that were read. -/
def lpm4DxrSearch (t : LpmDxr) (ip : Nat) : Except LpmFault (Nat × List Int) := do
  let base := ip / 2 ^ 16
  let ip := ip % 2 ^ 16
  let bottom := asInt (t.bottoms base)
  let top := asInt (t.tops base)
  let (top, looked) ← (
    if top ≤ bottom then .ok (top, [])
    else if top - bottom < 32 then linear t ip bottom ((top - bottom).toNat + 1) top []
    else bisections t ip bottom top)
  let key ← fetch t.keys top
  return (key, top :: looked)

/-- The search in C returns what the search in Lua does, and reads no other indexes than those of
the block. -/
def SearchAgrees (t : LpmDxr) (ip : Nat) : Prop :=
  ∃ key looked, t.lpm4DxrSearch ip = .ok (key, looked) ∧ t.lookup ip = .ok key ∧
    ∀ i ∈ looked, (t.bottoms (ip / 2 ^ 16) : Int) ≤ i ∧ i ≤ t.tops (ip / 2 ^ 16)

/-- The search in C goes too far: the block has 32 intervals or more besides the first one, the
address is above all of them, and the steps of the last round are not used up. -/
def Overshoots (t : LpmDxr) (ip : Nat) : Prop :=
  let bottom := t.bottoms (ip / 2 ^ 16)
  let top := t.tops (ip / 2 ^ 16)
  32 ≤ top - bottom ∧ (∀ i, bottom ≤ i → i ≤ top → t.smints i < ip % 2 ^ 16) ∧
    Nat.log 2 (top - bottom + 1) % 4 ≠ 0 ∧ Nat.log 2 (top - bottom + 1) % 4 ≠ 3

variable {t : LpmDxr} {es : List (Nat × Nat)} {key a : Nat} {ip : Nat} {bottom top k : Int}

theorem fetch_ok {arr : Nat → Nat} {i : Nat} (hi : i < arrayLength) :
    fetch arr i = .ok (arr i) := by
  rw [fetch, if_pos ⟨Int.natCast_nonneg i, by omega⟩, Int.toNat_natCast]

theorem belowAt_ok {i : Nat} (hi : i < arrayLength) :
    t.belowAt ip i = .ok (decide (t.smints i < ip)) := by
  rw [belowAt, fetch_ok hi]
  rfl

theorem linear_spec (hbelow : ∀ m, bottom ≤ m → m < top → t.belowAt ip m = .ok (decide (m < k)))
    (hbottom : bottom ≤ k) (htop : k ≤ top) {fuel : Nat} (hfuel : (top - bottom).toNat < fuel)
    (looked : List Int) {last : Int} (hlast : top ≤ last)
    (hlooked : ∀ i ∈ looked, bottom ≤ i ∧ i ≤ last) :
    ∃ looked', t.linear ip bottom fuel top looked = .ok (k, looked') ∧
      ∀ i ∈ looked', bottom ≤ i ∧ i ≤ last := by
  induction fuel generalizing top looked with
  | zero => exact absurd hfuel (Nat.not_lt_zero _)
  | succ fuel ih =>
    rw [linear]
    by_cases hopen : bottom < top
    · have hmore : ∀ i ∈ (top - 1) :: looked, bottom ≤ i ∧ i ≤ last :=
        forall_mem_cons.mpr ⟨by omega, hlooked⟩
      rw [if_pos hopen, bind_of_eq_ok (hbelow (top - 1) (by omega) (by omega))]
      by_cases hlt : top - 1 < k
      · obtain rfl : top = k := by omega
        rw [if_pos (decide_eq_true hlt)]
        exact ⟨_, rfl, hmore⟩
      · rw [if_neg (by simpa using hlt)]
        exact ih (fun m hm hm' => hbelow m hm (by omega)) (by omega) (by omega) _ (by omega) hmore
    · obtain rfl : top = k := by omega
      rw [if_neg hopen]
      exact ⟨looked, rfl, hlooked⟩

theorem asInt_eq {n : Nat} (h : n < arrayLength) : asInt n = n := by
  have hlt : (n : Int) < 2000000 := Int.ofNat_lt.mpr h
  have hpos : (0 : Int) ≤ n := Int.natCast_nonneg n
  refine Int.bmod_eq_of_le ?_ ?_
  · exact (show (-((2 ^ 32 : Nat) / 2 : Int)) ≤ 0 by decide).trans hpos
  · exact hlt.trans (show (2000000 : Int) < ((2 ^ 32 : Nat) + 1) / 2 by decide)

/-- The search between two indexes of a block. -/
def searchBetween (t : LpmDxr) (ip : Nat) (bottom top : Int) : Except LpmFault (Int × List Int) :=
  if top ≤ bottom then .ok (top, [])
  else if top - bottom < 32 then linear t ip bottom ((top - bottom).toNat + 1) top []
  else bisections t ip bottom top

theorem lpm4DxrSearch_eq {a top' : Nat} {looked : List Int}
    (h : t.searchBetween (a % 2 ^ 16) (asInt (t.bottoms (a / 2 ^ 16)))
      (asInt (t.tops (a / 2 ^ 16))) = .ok ((top' : Int), looked)) (htop : top' < arrayLength) :
    t.lpm4DxrSearch a = .ok (t.keys top', top' :: looked) := by
  refine (bind_of_eq_ok h).trans ?_
  exact bind_of_eq_ok (fetch_ok htop)

/-- The search in C is the search in Lua where it does not go too far, in a block of which the
first and the last interval are known, and that of the address. -/
theorem agrees_of_block {a first last found : Nat} (hbottom : t.bottoms (a / 2 ^ 16) = first)
    (htop : t.tops (a / 2 ^ 16) = last) (hlow : first ≤ found) (hhigh : found ≤ last)
    (hroom : last < arrayLength)
    (hturn : ∀ m, first ≤ m → m < last → (t.smints m < a % 2 ^ 16 ↔ m < found))
    (hlookup : t.lookup a = .ok (t.keys found)) : t.SearchAgrees a ↔ ¬ t.Overshoots a := by
  have hsmall : asInt (t.bottoms (a / 2 ^ 16)) = first ∧ asInt (t.tops (a / 2 ^ 16)) = last := by
    rw [hbottom, htop]
    exact ⟨asInt_eq (by omega), asInt_eq (by omega)⟩
  have hagrees looked
      (hsearch : t.lpm4DxrSearch a = .ok (t.keys found, found :: looked))
      (hlooked : ∀ i ∈ looked, first ≤ i ∧ i ≤ last) : t.SearchAgrees a := by
    refine ⟨_, _, hsearch, hlookup, forall_mem_cons.mpr ?_⟩
    rw [hbottom, htop]
    exact ⟨by omega, hlooked⟩
  have hbelow m (hm : (first : Int) ≤ m) (hm' : m < last) :
      t.belowAt (a % 2 ^ 16) m = .ok (decide (m < found)) := by
    obtain ⟨m, rfl⟩ := Int.eq_ofNat_of_zero_le (by omega : 0 ≤ m)
    rw [belowAt_ok (by omega)]
    congr 1
    rw [decide_eq_decide, hturn m (by omega) (by omega)]
    omega
  by_cases hfew : last - first < 32
  · have hnot : ¬ t.Overshoots a := by
      rintro ⟨hmany, -⟩
      omega
    refine iff_of_true ?_ hnot
    by_cases hone : last ≤ first
    · obtain rfl : found = last := by omega
      refine hagrees [] (lpm4DxrSearch_eq ?_ (by omega)) nofun
      rw [hsmall.2, searchBetween, if_pos (by omega)]
    · obtain ⟨looked, hlinear, hlooked⟩ := linear_spec hbelow (by omega) (by omega)
        (Nat.lt_succ_self _) [] le_rfl nofun
      refine hagrees _ (lpm4DxrSearch_eq ?_ (by omega)) hlooked
      rw [hsmall.1, hsmall.2, searchBetween, if_neg (by omega), if_pos (by omega)]
      exact hlinear
  · have hbisects : t.searchBetween (a % 2 ^ 16) (asInt (t.bottoms (a / 2 ^ 16)))
        (asInt (t.tops (a / 2 ^ 16))) = bisections t (a % 2 ^ 16) first last := by
      rw [hsmall.1, hsmall.2, searchBetween, if_neg (by omega), if_neg (by omega)]
    by_cases hedge : found = last ∧ t.smints last < a % 2 ^ 16
    · -- the address is above all intervals of the block
      obtain ⟨rfl, hedge⟩ := hedge
      have hall m (hm : first ≤ m) (hm' : m ≤ found) : t.smints m < a % 2 ^ 16 := by
        rcases Nat.lt_or_eq_of_le hm' with hlt' | rfl
        · exact (hturn m hm hlt').mpr hlt'
        · exact hedge
      have hovershoots : t.Overshoots a ↔ ¬ (Nat.log 2 (found - first + 1) % 4 = 0 ∨
          Nat.log 2 (found - first + 1) % 4 = 3) := by
        rw [Overshoots, hbottom, htop, not_or]
        exact ⟨fun hover => hover.2.2, fun hlog => ⟨by omega, hall, hlog⟩⟩
      have hclimbing : Climbing first found (found - first + 1) ⟨first, found, []⟩ :=
        ⟨rfl, show (first : Int) = _ by omega, by omega, nofun⟩
      have hbelow' m (hm : (first : Int) ≤ m) (hm' : m ≤ found) :
          t.belowAt (a % 2 ^ 16) m = .ok true := by
        obtain ⟨m, rfl⟩ := Int.eq_ofNat_of_zero_le (by omega : 0 ≤ m)
        rw [belowAt_ok (by omega), decide_eq_true (hall m (by omega) (by omega))]
      have hfuel : found - first + 1 ≤ ((found : Int) - first).toNat + 1 := by omega
      obtain ⟨hreturns, hbeyond⟩ :=
        rounds_below 3 LpmFault.loops hbelow' hclimbing (Nat.succ_pos _) hfuel
      rw [hovershoots, not_not]
      constructor
      · rintro ⟨found', looked, hsearch, -, hlooked⟩
        by_contra hlog
        obtain ⟨⟨top, looked'⟩, hloop, hkey⟩ := bind_eq_ok hsearch
        obtain ⟨key', hkey', hresult⟩ := bind_eq_ok hkey
        change t.searchBetween _ _ _ = _ at hloop
        rw [hbisects] at hloop
        obtain ⟨s', hs', heq⟩ := bind_eq_ok hloop
        cases heq
        cases hresult
        have hbehind := hlooked _ (mem_cons_of_mem _ (hbeyond hlog s' hs'))
        omega
      · intro hlog
        obtain ⟨s', hs', hstop, hlooked⟩ := hreturns hlog
        refine hagrees _ (lpm4DxrSearch_eq ?_ (by omega)) hlooked
        rw [hbisects, bisections, bind_of_eq_ok hs', hstop]
        rfl
    · have hnot : ¬ t.Overshoots a := by
        rintro ⟨-, hall, -⟩
        rw [htop] at hall
        refine hedge ⟨?_, hall last (by omega) le_rfl⟩
        by_contra hne
        exact absurd ((hturn found (by omega) (by omega)).mp (hall found (by omega) (by omega)))
          (Nat.lt_irrefl _)
      have hat : t.belowAt (a % 2 ^ 16) found = .ok false := by
        by_cases hlast : found = last
        · rw [hlast, belowAt_ok (by omega),
            decide_eq_false fun hlt' => hedge ⟨hlast, hlt'⟩]
        · rw [hbelow found (by omega) (by omega), decide_eq_false (Int.lt_irrefl _)]
      have hwithin : Within (first : Int) last found ⟨first, last, []⟩ :=
        ⟨le_rfl, show (first : Int) ≤ found by omega, show (found : Int) ≤ last by omega, le_rfl,
          nofun⟩
      obtain ⟨s', hs', hstop, hlooked⟩ := rounds_turn LpmFault.loops
        ⟨by omega, by omega, hbelow, hat⟩ hwithin (show 0 < 4 by decide) (Nat.lt_succ_self _)
      refine iff_of_true (hagrees _ (lpm4DxrSearch_eq ?_ (by omega)) hlooked) hnot
      rw [hbisects, bisections, bind_of_eq_ok hs', hstop]
      rfl

/-- **The search in C is the search in Lua where it does not go too far.** -/
theorem Built.agrees_iff (hb : t.Built es key) (ha : a < 2 ^ 32) :
    t.SearchAgrees a ↔ ¬ t.Overshoots a := by
  have h := hb.indexed
  have hblock : a / 2 ^ 16 < 2 ^ 16 := by omega
  obtain ⟨hlow, hhigh⟩ := h.place_block a
  have hle := place_le es (a / 2 ^ 16 * 2 ^ 16 + 2 ^ 16 - 1)
  have hroom := (Nat.lt_of_le_of_lt hle h.lt_ioff).trans_le h.ioff_le
  exact agrees_of_block (hb.bottom _ hblock) (hb.top _ hblock) hlow hhigh hroom
    (fun m hm hm' => h.smints_iff ha hm hm') (hb.lookup_eq ha)

/-- Without intervals the search in Lua ends outside of the arrays. -/
theorem Empty.not_agrees (h : t.Empty) (ha : a < 2 ^ 32) : ¬ t.SearchAgrees a := by
  have hblock : a / 2 ^ 16 < 2 ^ 16 := by omega
  have hsearch : t.searchInterval a = .ok (2 ^ 32 - 1) := by
    rw [searchInterval, if_pos h.built, h.bottom _ hblock, h.top _ hblock, bisect]
    rfl
  have hlookup : t.lookup a = .error (.outOfBounds (2 ^ 32 - 1)) := by
    refine (bind_of_eq_ok hsearch).trans ?_
    rfl
  rintro ⟨key, looked, -, heq, -⟩
  rw [hlookup] at heq
  cases heq

end LpmDxr

/-- After a build the arrays show intervals in order, or none. -/
structure DxrUse.Ready (u : DxrUse) : Prop where
  holds : ∃ T, u.use.trie.Holds u.use.map T
  built : u.current = true → u.table.Empty ∨ ∃ es key, u.table.Built es key

theorem DxrUse.Ready.step {u u' : DxrUse} {op : DxrOp} (h : u.Ready) (hstep : u.step op = .ok u') :
    u'.Ready := by
  obtain ⟨T, hholds⟩ := h.holds
  cases op with
  | change op =>
    obtain ⟨use, huse, heq⟩ := bind_eq_ok hstep
    cases heq
    exact ⟨hholds.attempt huse, nofun⟩
  | build =>
    obtain ⟨es, hes, heq⟩ := bind_eq_ok hstep
    obtain ⟨t, ht, heq⟩ := bind_eq_ok heq
    cases heq
    obtain ⟨ns, hns, hsorted, -⟩ := hholds.entries
    obtain rfl := ok_unique hns hes
    exact ⟨h.holds, fun _ => build_indexed hsorted ht⟩

/-- **The addresses for which the search in C is the search in Lua**, after any additions, removals
and builds of which the last is a build: if there is an interval, all those for which the search in
C does not go too far. -/
theorem search_agrees_iff (ops : List DxrOp) {u : DxrUse}
    (hrun : run DxrUse.step .begin ops = .ok u) (hcurrent : u.current = true) (ip : BitVec 32) :
    u.table.SearchAgrees ip.toNat ↔ u.table.ioff ≠ 0 ∧ ¬ u.table.Overshoots ip.toNat := by
  have hready : u.Ready := run_inv (I := fun u _ => u.Ready) (P := fun _ _ => True)
    (fun _ _ _ _ h _ hstep => h.step hstep) ⟨⟨_, new_holds⟩, nofun⟩ along_true hrun
  rcases hready.built hcurrent with hempty | ⟨es, key, hbuilt⟩
  · exact iff_of_false (hempty.not_agrees ip.isLt) fun h => h.1 hempty.ioff
  · have hioff : u.table.ioff ≠ 0 := Nat.ne_of_gt (Nat.zero_lt_of_lt hbuilt.indexed.lt_ioff)
    rw [hbuilt.agrees_iff ip.isLt]
    exact ⟨fun hnot => ⟨hioff, hnot⟩, fun h => h.2⟩

theorem DxrUse.run_changes_build {ops : List LpmOp} {use : LpmUse} {es : List LpmEntry} {t : LpmDxr}
    (hops : run LpmUse.attempt .begin ops = .ok use) (hentries : use.trie.entries = .ok es)
    (hbuild : LpmDxr.new.build es = .ok t) :
    run DxrUse.step .begin (ops.map .change ++ [.build]) = .ok ⟨use, t, true⟩ := by
  have hchanges : ∀ ops use₀, run LpmUse.attempt use₀ ops = .ok use →
      run DxrUse.step ⟨use₀, .new, false⟩ (ops.map .change) = .ok ⟨use, .new, false⟩ := by
    intro ops
    induction ops with
    | nil =>
      intro use₀ h
      cases h
      rfl
    | cons op ops ih =>
      intro use₀ h
      obtain ⟨use₁, hstep, hrest⟩ := run_cons_eq_ok h
      rw [map_cons, run_cons_ok (bind_of_eq_ok hstep)]
      exact ih use₁ hrest
  have hstep : DxrUse.step ⟨use, .new, false⟩ .build = .ok ⟨use, t, true⟩ :=
    (bind_of_eq_ok hentries).trans (bind_of_eq_ok hbuild)
  refine (run_append (hchanges ops .begin hops)).trans ?_
  rw [run_cons_ok hstep]
  rfl

/-- With 0.0.0.0/0 alone there is one interval for all blocks. -/
theorem search_agrees_on_one_interval : ∃ u, run DxrUse.step .begin
    [.change (.add anyAddress ⟨1, by decide⟩), .build] = .ok u ∧ u.current = true ∧
      u.table.SearchAgrees 0xffffffff := by
  obtain ⟨use, huse, hentries⟩ := ok_of_any
    (r := run LpmUse.attempt .begin [.add anyAddress ⟨1, by decide⟩])
    (q := fun use => use.trie.entries = .ok [⟨0, 1, 0⟩]) (by decide +kernel)
  obtain ⟨t, ht, hchecked⟩ := ok_of_any
    (r := LpmDxr.new.buildIntervals [⟨0, 1, 0⟩] >>= buildCompressed)
    (q := fun t => t.built = false ∧ t.ioff = 1 ∧ t.keys 0 = 1) (by decide +kernel)
  obtain ⟨hbuilt, hioff, hkey⟩ := of_decide_eq_true hchecked
  have hindexed : t.Indexed [] 1 := by
    refine ⟨.nil, by rw [hioff]; decide, by rw [hioff]; decide, nofun, hkey, fun hlt => ?_⟩
    rw [hioff] at hlt
    exact absurd hlt (by decide)
  obtain ⟨t', hbuild, hfinished⟩ := hindexed.build .new hbuilt ht
  have hrun := DxrUse.run_changes_build huse (of_decide_eq_true hentries) hbuild
  refine ⟨_, hrun, rfl, (search_agrees_iff _ hrun rfl 0xffffffff).mpr ⟨?_, ?_⟩⟩
  · exact Nat.ne_of_gt (Nat.zero_lt_of_lt hfinished.indexed.lt_ioff)
  · rintro ⟨hmany, -⟩
    -- the index of a block is 0
    have htop : t'.tops (2 ^ 16 - 1) = 0 := hfinished.top _ (by decide)
    rw [show (0xffffffff : BitVec 32).toNat / 2 ^ 16 = 2 ^ 16 - 1 by decide, htop] at hmany
    omega

/-- Every second /24 of 0.0.0.0/19, and 0.1.128.0/24. -/
def crowdedBlock : List LpmOp :=
  .add anyAddress ⟨1, by decide⟩ ::
    ((List.range 16).map fun k =>
      .add (ofString (BitVec.ofNat 32 ((2 * k + 1) * 256)) 24 (by decide)) ⟨2, by decide⟩) ++
    [.add (ofString 0x18000 24 (by decide)) ⟨2, by decide⟩]

/-- The 32 intervals in which the /24 prefixes end, and one that goes on in the next block. -/
def crowdedIntervals : List (Nat × Nat) :=
  ((List.range 32).map fun k => (256 * k + 255, k % 2 + 1)) ++ [(98303, 1), (98559, 2)]

/-- Of 33 intervals the last one of a block goes on to 0.1.127.255, and the lower half of that is
below 255.0, so that the search for 0.0.255.0 looks at the first interval of the next block. -/
theorem search_looks_behind_block :
    ¬ ∀ (ops : List DxrOp) (u : DxrUse), run DxrUse.step .begin ops = .ok u → u.current = true →
      ∀ ip : BitVec 32, u.table.SearchAgrees ip.toNat := by
  intro hall
  let entries : List LpmEntry :=
    ⟨0, 1, 0⟩ :: ((List.range 16).map fun k => ⟨(2 * k + 1) * 256, 2, 24⟩) ++ [⟨0x18000, 2, 24⟩]
  obtain ⟨use, huse, hentries⟩ := ok_of_any (r := run LpmUse.attempt .begin crowdedBlock)
    (q := fun use => use.trie.entries = .ok entries) (by decide +kernel)
  obtain ⟨t, ht, hchecked⟩ := ok_of_any
    (r := LpmDxr.new.buildIntervals entries >>= buildCompressed)
    (q := fun t => t.built = false ∧ t.ioff = 35 ∧
      (List.range 34).map t.interval = crowdedIntervals ∧
      (List.range 34).map t.smints = (List.range 34).map (t.intervals · % 2 ^ 16) ∧
      t.keys 34 = 1) (by decide +kernel)
  obtain ⟨hbuilt, hioff, hinterval, hsmint, hkey⟩ := of_decide_eq_true hchecked
  have hindexed : t.Indexed crowdedIntervals 1 := by
    refine ⟨by decide, by rw [hioff]; decide, by rw [hioff]; decide, fun k hk => ⟨?_, ?_⟩, hkey,
      fun hlt => ?_⟩
    · simp only [← hinterval, getElem_map, getElem_range]
    · exact map_inj_left.mp hsmint k (mem_range.mpr hk)
    · rw [hioff] at hlt
      exact absurd hlt (by decide)
  obtain ⟨t', hbuild, hfinished⟩ := hindexed.build .new hbuilt ht
  have hrun := DxrUse.run_changes_build huse (of_decide_eq_true hentries) hbuild
  have hagrees := hall _ _ hrun rfl 0xff00
  refine (hfinished.agrees_iff (by decide)).mp hagrees ?_
  have hbottom : t'.bottoms 0 = 0 := (hfinished.bottom 0 (by decide)).trans (by decide)
  have htop : t'.tops 0 = 32 := (hfinished.top 0 (by decide)).trans (by decide)
  have hbelow : ∀ i h,
      i ≤ 32 → crowdedIntervals[i].1 % 2 ^ 16 < 0xff00 := by decide
  have hlog : Nat.log 2 33 = 5 := (Nat.log_eq_iff (by decide)).mpr (by decide)
  have hblock : (0xff00 : BitVec 32).toNat / 2 ^ 16 = 0 := by decide
  rw [LpmDxr.Overshoots, hblock, hbottom, htop]
  refine ⟨le_rfl, fun i _ hi => ?_, by rw [hlog]; decide, by rw [hlog]; decide⟩
  have hlt : i < crowdedIntervals.length := (Nat.lt_succ_of_le hi).trans_le (by decide)
  obtain ⟨hentry, hlower⟩ := hfinished.indexed.entry i hlt
  rw [hlower, show t'.intervals i = _ from congrArg Prod.fst hentry]
  exact hbelow i hlt hi

end Snabb
