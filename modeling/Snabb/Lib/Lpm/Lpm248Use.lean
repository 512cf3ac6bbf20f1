import Snabb.Lib.Lpm.Lpm248

/-!
# Searches in 24-8 tables (`lib/lpm/lpm4_248.lua`)

A use of `LPM4_248` is a sequence of `add`, `remove` and `build`, with the map from prefixes that
the trie should be next to it. A `build` for which there is no memory ends the process.

- `search_finds_longest`: if the additions fit and the builds are clean, then after each build
  every search finds the key of the longest prefix, and 0 where there is none.
-/

namespace Snabb

open Foundation Prefix LpmTrie List

/-- The operations. -/
inductive Lpm248Op where
  | change (op : LpmOp)
  | build (malloc : Malloc)

/-- What an operation does to the map. -/
def Lpm248Op.apply (m : Prefix 32 → Option LpmKey) : Lpm248Op → Prefix 32 → Option LpmKey
  | change op => op.apply m
  | build _ => m

/-- `LPM4_248` in use: the trie with its map, the arrays, and whether the last operation was a
build. -/
structure Lpm248Use where
  use : LpmUse
  table : Lpm248
  built : Bool

namespace Lpm248Use

/-- A new instance. -/
def begin (keybits : LpmKeybits) : Lpm248Use := ⟨.begin, .new keybits, false⟩

/-- One operation. -/
def step (u : Lpm248Use) : Lpm248Op → Except LpmFault Lpm248Use
  | .change op => do
    let use ← u.use.attempt op
    return { u with use := use, built := false }
  | .build malloc => do
    let es ← u.use.trie.entries
    let t ← u.table.build malloc es
    return { u with table := t, built := true }

/-- Keys have `keybits` bits. -/
def Legal (u : Lpm248Use) : Lpm248Op → Prop
  | .change (.add _ key) => key.1.toNat < u.table.flag
  | .change (.remove _) => True
  | .build _ => True

/-- The nodes that an addition takes are there, and a build is clean. -/
def Fits (u : Lpm248Use) : Lpm248Op → Prop
  | .change (.add p _) => u.use.trie.nodesTaken p.ip p.length levels 0 ≤ u.use.trie.alloc.room
  | .change (.remove _) => True
  | .build _ => ∀ es, u.use.trie.entries = .ok es → u.table.Clean es

/-- After a build, a search finds the key of the longest prefix. -/
def Answers (u : Lpm248Use) : Prop :=
  u.built = true → ∀ ip, ∃ v, u.table.search ip = .ok v ∧
    (∀ p key, IsLongest u.use.map ip p key → v = key.1.toNat) ∧
    ((∀ p key, u.use.map p = some key → ¬ p.Contains ip) → v = 0)

/-- What every operation keeps. -/
structure Kept (keybits : LpmKeybits) (u : Lpm248Use) : Prop where
  holds : ∃ T, u.use.trie.Holds u.use.map T
  keys : ∀ p key, u.use.map p = some key → key.1.toNat < u.table.flag
  sized : u.table.Sized
  keybits : u.table.keybits = keybits
  answers : u.Answers

variable {keybits : LpmKeybits} {u : Lpm248Use}

theorem begin_kept (keybits : LpmKeybits) : (begin keybits).Kept keybits :=
  ⟨⟨_, new_holds⟩, fun _ _ h => (nomatch h),
    ⟨⟨1024, rfl⟩, (by decide : 256 < 1024 * 256), by cases keybits <;> decide, fun _ _ => rfl⟩, rfl,
    fun h => (nomatch h)⟩

theorem Kept.change (h : u.Kept keybits) {op : LpmOp} (hlegal : u.Legal (.change op))
    (hfits : u.Fits (.change op)) : ∃ u', u.step (.change op) = .ok u' ∧ u'.Kept keybits := by
  obtain ⟨T, hholds⟩ := h.holds
  obtain ⟨use, huse, hmap, hholds'⟩ := LpmUse.attempt_spec op hholds (by
    rintro p key rfl
    exact hfits)
  refine ⟨_, bind_of_eq_ok huse, hholds', fun q key' hq => ?_, h.sized, h.keybits,
    fun hbuilt => (nomatch hbuilt)⟩
  replace hq : use.map q = some key' := hq
  rw [hmap] at hq
  refine LpmOp.forall_apply h.keys ?_ hq
  rintro p key rfl
  exact hlegal

theorem Kept.build (h : u.Kept keybits) {malloc : Malloc} (hfits : u.Fits (.build malloc)) :
    (∃ u', u.step (.build malloc) = .ok u' ∧ u'.Kept keybits) ∨
      u.step (.build malloc) = .error .outOfMemory := by
  obtain ⟨T, hholds⟩ := h.holds
  obtain ⟨ns, hentries, hsorted, hmap⟩ := hholds.entries
  have hclean := hfits _ hentries
  have hkeys : ∀ m ∈ ns, m.2.1.toNat < u.table.flag := fun m hm =>
    h.keys m.1 m.2 ((hmap m.1 m.2).mpr hm)
  rcases Lpm248.build_spec malloc h.sized hclean hsorted hkeys with
    ⟨t', taboff, hbuild, hbuilding⟩ | hfault
  · have hflag : t'.flag = u.table.flag := by rw [Lpm248.flag, Lpm248.flag, hbuilding.keybits]
    refine .inl ⟨_, (bind_of_eq_ok hentries).trans (bind_of_eq_ok hbuild), h.holds,
      fun p key hp => hflag.symm ▸ h.keys p key hp, hbuilding.sized,
      hbuilding.keybits.trans h.keybits, fun _ ip => ⟨_, hbuilding.search hclean hkeys ip,
        fun p key hlongest => ?_, fun hnone => ?_⟩⟩
    · rw [valueAt, hlongest.lastMatch hsorted hmap]
      rfl
    · rw [valueAt, lastMatch_eq_none.mpr fun n hn => hnone n.1 n.2 ((hmap n.1 n.2).mpr hn)]
      rfl
  · exact .inr ((bind_of_eq_ok hentries).trans (bind_of_eq_error hfault))

theorem Kept.step (h : u.Kept keybits) {op : Lpm248Op} (hlegal : u.Legal op) (hfits : u.Fits op) :
    (∃ u', u.step op = .ok u' ∧ u'.Kept keybits) ∨ u.step op = .error .outOfMemory := by
  cases op with
  | change op => exact .inl (h.change hlegal hfits)
  | build malloc => exact h.build hfits

end Lpm248Use

/-- **24-8 tables that are built clean answer as the longest prefix does.** In a use whose
additions fit and whose builds are clean, all operations return unless a build has no memory, and
after each build every search finds the key of the longest prefix, and 0 where there is none. -/
theorem search_finds_longest (keybits : LpmKeybits) (ops : List Lpm248Op)
    (hlegal : Along Lpm248Use.step Lpm248Use.Legal (.begin keybits) ops)
    (hfits : Along Lpm248Use.step Lpm248Use.Fits (.begin keybits) ops) :
    ((∃ u, run Lpm248Use.step (.begin keybits) ops = .ok u) ∨
      run Lpm248Use.step (.begin keybits) ops = .error .outOfMemory) ∧
      ∀ n u, run Lpm248Use.step (.begin keybits) (ops.take n) = .ok u → u.Answers := by
  have hsteps := hlegal.and hfits
  have hkept : ∀ (u : Lpm248Use) op u', u.Kept keybits → u.Legal op ∧ u.Fits op →
      u.step op = .ok u' → u'.Kept keybits := by
    rintro u op u' hkept ⟨hop, hfit⟩ hstep
    rcases hkept.step hop hfit with ⟨_, hok, hkept'⟩ | hfault
    · exact ok_unique hok hstep ▸ hkept'
    · cases hstep.symm.trans hfault
  have hends := run_ends (I := fun u _ => u.Kept keybits) (Q := (· = LpmFault.outOfMemory))
    (fun u op _ u' => hkept u op u') (by
      rintro u op _ e hkept ⟨hop, hfit⟩ hstep
      rcases hkept.step hop hfit with ⟨_, hok, -⟩ | hfault
      · cases hstep.symm.trans hok
      · exact Except.error.inj (hstep.symm.trans hfault))
    (Lpm248Use.begin_kept keybits) hsteps
  refine ⟨?_, fun n u hu => (run_inv (I := fun (u : Lpm248Use) _ => u.Kept keybits)
    (fun u op _ u' => hkept u op u') (Lpm248Use.begin_kept keybits) (hsteps.take n) hu).answers⟩
  cases hrun : run Lpm248Use.step (.begin keybits) ops with
  | ok u => exact .inl ⟨u, rfl⟩
  | error e =>
    rw [hrun] at hends
    exact .inr (congrArg Except.error hends)

/-- A build is clean if a default route is present and there are tables enough. -/
def DefaultRoute (u : Lpm248Use) : Lpm248Op → Prop
  | .change (.add p _) => u.use.trie.nodesTaken p.ip p.length levels 0 ≤ u.use.trie.alloc.room
  | .change (.remove _) => True
  | .build _ => ∃ es, u.use.trie.entries = .ok es ∧ (∃ e ∈ es, e.ip = 0 ∧ e.length = 0) ∧
      (longBlocks es).card < 2 ^ u.table.keybits.bits

instance (u : Lpm248Use) (op : Lpm248Op) : Decidable (DefaultRoute u op) :=
  match op with
  | .change (.add _ _) => inferInstanceAs (Decidable (_ ≤ _))
  | .change (.remove _) => isTrue trivial
  | .build _ =>
    match h : u.use.trie.entries with
    | .ok es => decidable_of_iff ((∃ e ∈ es, e.ip = 0 ∧ e.length = 0) ∧
        (longBlocks es).card < 2 ^ u.table.keybits.bits)
        ⟨fun hes => ⟨es, h, hes⟩, fun ⟨_, h', hes⟩ => ok_unique h h' ▸ hes⟩
    | .error _ => isFalse fun ⟨_, h', _⟩ => nomatch h.symm.trans h'

instance (u : Lpm248Use) (op : Lpm248Op) : Decidable (u.Legal op) :=
  match op with
  | .change (.add _ _) => inferInstanceAs (Decidable (_ < _))
  | .change (.remove _) => isTrue trivial
  | .build _ => isTrue trivial

theorem DefaultRoute.fits {u : Lpm248Use} {op : Lpm248Op} (h : DefaultRoute u op) : u.Fits op := by
  cases op with
  | change op => cases op <;> exact h
  | build malloc =>
    obtain ⟨es, hes, ⟨e, he, hip, hlength⟩, hcard⟩ := h
    intro es' hes'
    obtain rfl := ok_unique hes hes'
    have hcovered : ∀ b < 2 ^ 24, Covered es b := by
      intro b hb
      refine ⟨e, he, by omega, ?_, ?_⟩
      · rw [hip]
        exact Nat.zero_le b
      · rw [hlength]
        exact Nat.lt_of_lt_of_le hb (Nat.le_add_left _ _)
    refine ⟨fun b hb _ => hcovered b hb, hcard, fun b hb hnot => absurd (hcovered b ?_) hnot⟩
    obtain ⟨e', -, rfl⟩ := mem_map.mp (mem_toFinset.mp hb)
    exact blockOf_lt _

/-- There is memory for whatever an `int` can ask for. -/
def plenty : Malloc := ⟨fun bytes => decide (bytes < 2 ^ 31), fun _ h => decide_eq_false (by omega)⟩

/-- Prefixes of all kinds are added, built, removed and built again, with a default route. -/
theorem search_finds_longest_sample :
    let ops : List Lpm248Op := [.change (.add ⟨0, 0, by decide, by decide⟩ ⟨700, by decide⟩),
      .change (.add ⟨0xC0000000, 8, by decide, by decide⟩ ⟨702, by decide⟩),
      .change (.add ⟨0xC0000280, 25, by decide, by decide⟩ ⟨703, by decide⟩), .build plenty,
      .change (.remove ⟨0xC0000000, 8, by decide, by decide⟩), .build plenty]
    ((∃ u, run Lpm248Use.step (.begin .k15) ops = .ok u) ∨
      run Lpm248Use.step (.begin .k15) ops = .error .outOfMemory) ∧
      ∀ n u, run Lpm248Use.step (.begin .k15) (ops.take n) = .ok u → u.Answers :=
  search_finds_longest .k15 _ (by decide +kernel)
    (Along.mono (fun _ _ h => DefaultRoute.fits h) (by decide +kernel))

theorem Lpm248Use.step_map {u u' : Lpm248Use} {op : Lpm248Op} (h : u.step op = .ok u') :
    u'.use.map = op.apply u.use.map := by
  cases op with
  | change op =>
    obtain ⟨use, huse, heq⟩ := bind_eq_ok h
    cases heq
    exact LpmUse.attempt_map huse
  | build malloc =>
    obtain ⟨es, -, h⟩ := bind_eq_ok h
    obtain ⟨t, -, heq⟩ := bind_eq_ok h
    cases heq
    rfl

/-- The only prefix is removed before the second build, but its key is still found. -/
theorem removed_prefix_is_found : let p : Prefix 32 := ⟨0x0A000000, 8, by decide, by decide⟩
    let ops : List Lpm248Op := [.change (.add p ⟨5, by decide⟩), .build plenty, .change (.remove p),
      .build plenty]
    Along Lpm248Use.step Lpm248Use.Legal (.begin .k15) ops ∧
      ∃ u, run Lpm248Use.step (.begin .k15) ops = .ok u ∧ u.built = true ∧
        (∀ q, u.use.map q = none) ∧ u.table.search 0x0A000001 = .ok 5 := by
  intro p ops
  refine ⟨by decide +kernel, ?_⟩
  refine exists_ok_of_any (fun u => u.built = true ∧ u.table.search 0x0A000001 = .ok 5)
    (by decide +kernel) fun u hu ⟨hbuilt, hsearch⟩ => ?_
  refine ⟨hbuilt, fun q => ?_, hsearch⟩
  have hmap : u.use.map = ops.foldl Lpm248Op.apply fun _ => none :=
    run_observe (fun _ _ _ => Lpm248Use.step_map) hu
  show u.use.map q = none
  rw [hmap]
  simp only [ops, foldl_cons, foldl_nil, Lpm248Op.apply, LpmOp.apply]
  by_cases hq : q = p
  · rw [hq, Function.update_self]
  · rw [Function.update_of_ne hq, Function.update_of_ne hq]

end Snabb
