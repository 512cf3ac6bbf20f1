import Snabb.Foundation.Run
import Snabb.Lib.Poptrie.Build

/-!
# Looking up keys in a poptrie (`lib/poptrie.lua`)

`build` compiles the RIB into nodes and leaves, below a direct map for the first `s` bits if there
is one. `lookup` goes down 6 bits at a time. As 6 divides neither 128 nor what the direct map leaves
of it, the last node that a key can reach may need bits behind the key: there `extract` returns
`nil`, and the shift by it raises.

- `lookup_eq`: what a look-up in a built poptrie gives;
- `lookup_longest_match`: if it returns, the longest prefix decides;
- `lookup_returns_iff`: when it returns.
-/

namespace Snabb

open Foundation List
open Function (update update_of_ne update_self)

open BitTrie hiding node absent value

/-- A poptrie. -/
structure Poptrie where
  config : PoptrieConfig
  rib : Rib
  fib : Fib
  directmap : Nat → Nat

/-- The arguments of `add`. -/
structure PoptrieEntry where
  key : Key
  length : Nat
  value : Nat

namespace Poptrie

/-- `new`, when no arrays are given. -/
def new (c : PoptrieConfig) : Except PoptrieFault Poptrie :=
  if c.directPointing ∧ 2 ^ 31 ≤ 2 ^ c.s * 4 then .error .tooLarge
  else if c.directPointing ∧ 32 < c.s then .error .assertion
  else .ok { config := c
             rib := .absent
             fib := { leaves := fun _ => 0, numLeaves := 100, nodes := fun _ => Fib.zeroNode,
                      numNodes := 10, leafBase := 0, nodeBase := 0 }
             directmap := fun _ => 0 }

/-- `add`. -/
def add (t : Poptrie) (e : PoptrieEntry) : Except PoptrieFault Poptrie := do
  let rib ← t.rib.add e.key e.length e.value
  return { t with rib }

/-- `clear_fib`. -/
def clearFib (f : Fib) : Fib :=
  { f with leaves := fun _ => 0, nodes := fun _ => Fib.zeroNode, leafBase := 0, nodeBase := 0 }

/-- An assignment to the direct map. -/
def setDirect (c : PoptrieConfig) (directmap : Nat → Nat) (index value : Nat) :
    Except PoptrieFault (Nat → Nat) :=
  if index < 2 ^ c.s then .ok (update directmap index (value % 2 ^ 32))
  else .error (.outOfBounds index)

/-- The function that `build_directmap` maps. -/
def directStep (c : PoptrieConfig) (rib : Rib) (s : Fib × (Nat → Nat))
    (e : Nat × Option Nat × Rib) : Except PoptrieFault (Fib × (Nat → Nat)) :=
  if e.2.2.present then do
    let (nodeIndex, f) ← s.1.allocateNode c
    let directmap ← setDirect c s.2 e.1 nodeIndex
    let f ← Fib.buildNode c rib (rib.height + 1) e.2.2 (directmap e.1) e.2.1 f
    return (f, directmap)
  else do
    let directmap ← setDirect c s.2 e.1 (e.2.1.getD 0 ||| 2 ^ 31)
    return (s.1, directmap)

/-- `build`. -/
def build (t : Poptrie) : Except PoptrieFault Poptrie := do
  let f := clearFib t.fib
  if t.config.directPointing then
    let (f, directmap) ←
      (t.rib.map t.config.s t.rib).foldlM (directStep t.config t.rib) (f, t.directmap)
    return { t with fib := f, directmap }
  else
    let (nodeIndex, f) ← f.allocateNode t.config
    let f ← Fib.buildNode t.config t.rib (t.rib.height + 1) t.rib nodeIndex none f
    return { t with fib := f }

/-- The loop of `popcnt`. Nothing is left of a vector after 64 rounds. -/
def popcntLoop : Nat → BitVec 64 → Nat → Nat
  | 0, _, c => c
  | rounds + 1, v, c =>
    if v = 0 then c else popcntLoop rounds (v >>> 1) (c + (v &&& 1).toNat)

/-- `popcnt`. -/
def popcnt (v : BitVec 64) : Nat := popcntLoop 64 v 0

def getNode (f : Fib) (index : Int) : Except PoptrieFault PoptrieNode :=
  if 0 ≤ index ∧ index < f.numNodes then .ok (f.nodes index.toNat)
  else .error (.outOfBounds index.toNat)

def getLeaf (f : Fib) (index : Int) : Except PoptrieFault Nat :=
  if 0 ≤ index ∧ index < f.numLeaves then .ok (f.leaves index.toNat)
  else .error (.outOfBounds index.toNat)

/-- The loop of `lookup`. -/
def lookupLoop (key : Key) (f : Fib) : Nat → PoptrieNode → Nat → Except PoptrieFault Nat
  | 0, _, _ => .error .outOfFuel
  | rounds + 1, node, offset =>
    match key.extract offset 6 with
    -- a shift by `nil`
    | none => .error .badArgument
    | some v =>
      if node.vector &&& 1#64 <<< v ≠ 0 then do
        let bc := popcnt (node.vector &&& (2#64 <<< v - 1#64))
        let node ← getNode f ((node.base1 : Int) + bc - 1)
        lookupLoop key f rounds node (offset + 6)
      else
        let bc := popcnt (node.leafvec &&& (2#64 <<< v - 1#64))
        getLeaf f ((node.base0 : Int) + bc - 1)

/-- `lookup`. A key has no more than 22 strides. -/
def lookup (t : Poptrie) (key : Key) : Except PoptrieFault Nat :=
  if t.config.directPointing then
    match key.extract 0 t.config.s with
    | none => .error .badArgument
    | some d =>
      if d < 2 ^ t.config.s then
        let index := t.directmap d
        if index &&& 2 ^ 31 ≠ 0 then .ok (index % 2 ^ 31)
        else do
          let node ← getNode t.fib index
          lookupLoop key t.fib 22 node t.config.s
      else .error (.outOfBounds d)
  else do
    let node ← getNode t.fib 0
    lookupLoop key t.fib 22 node 0

/-! ## Look-ups -/

theorem popcntLoop_eq (rounds : Nat) (v : BitVec 64) (c : Nat) :
    popcntLoop rounds v c = c + rank v rounds := by
  induction rounds generalizing v c with
  | zero => rfl
  | succ rounds ih =>
    rw [popcntLoop]
    split
    · next hzero =>
      rw [hzero]
      exact (congrArg (c + ·) (rank_zero_vector (rounds + 1))).symm
    · have hbit : (v &&& 1).toNat = (v.getLsbD 0).toNat := by
        rw [← BitVec.testBit_toNat, Nat.testBit_zero]
        show v.toNat &&& 1 = _
        rw [Nat.and_one_is_mod]
        rcases Nat.mod_two_eq_zero_or_one v.toNat with h | h
        · rw [h]
          rfl
        · rw [h]
          rfl
      rw [ih, hbit, rank_succ_shift, Nat.add_assoc]

theorem popcnt_mask (v : BitVec 64) {k : Nat} (hk : k < 64) :
    popcnt (v &&& (2#64 <<< k - 1#64)) = rank v (k + 1) := by
  rw [popcnt, popcntLoop_eq, rank_mask v hk, Nat.zero_add]

theorem testBit_ne_zero (v : BitVec 64) {k : Nat} (hk : k < 64) :
    v &&& 1#64 <<< k ≠ 0 ↔ v.getLsbD k := by
  have hand i : (v &&& 1#64 <<< k).getLsbD i = (v.getLsbD i && decide (i = k)) := by
    have hset := getLsbD_setBit (v := 0#64) hk i
    rw [Foundation.setBit, BitVec.zero_or, BitVec.getLsbD_zero, Bool.false_or] at hset
    rw [BitVec.getLsbD_and, hset]
  constructor
  · intro hne
    by_contra hbit
    refine hne (BitVec.eq_of_getLsbD_eq fun i _ => ?_)
    rw [hand]
    by_cases hi : i = k
    · rw [hi, Bool.eq_false_iff.mpr hbit]
      simp
    · simp [hi]
  · intro hbit hzero
    have hget := hand k
    rw [hzero, hbit] at hget
    simp at hget

/-- The first offset, in strides of 6, from which there are no 6 bits left. -/
def overrun (offset : Nat) : Nat := offset + 6 * ((128 - offset) / 6)

/-- **The loop** ends in a leaf unless the RIB goes on behind the last whole stride. -/
theorem lookupLoop_spec {key : Key} {f : Fib} (rounds : Nat) {leafEnd lo hi idx offset : Nat}
    {rib : Rib} {default : Option Nat}
    (h : Fib.Compiled f.nodes f.leaves leafEnd lo hi idx rib default)
    (hleaves : leafEnd ≤ f.numLeaves) (hnodes : hi ≤ f.numNodes)
    (hrounds : 128 < offset + 6 * rounds) (hoffset : offset ≤ 128)
    (hstart : rib.hasChildren ∨ offset + 6 ≤ 128) :
    lookupLoop key f rounds (f.nodes idx) offset =
      if (rib.walk (key.path offset (overrun offset - offset))).hasChildren then
        .error .badArgument
      else .ok ((rib.best default (key.path offset (128 - offset))).getD 0) := by
  induction rounds generalizing idx offset rib default with
  | zero => omega
  | succ rounds ih =>
    rw [lookupLoop]
    rcases Nat.lt_or_ge 128 (offset + 6) with hend | hwithin
    · -- the key has no 6 bits left
      have hover : overrun offset - offset = 0 := by
        rw [overrun]
        omega
      have hchildren : rib.hasChildren := hstart.resolve_right (by omega)
      rw [Key.extract_eq_none (.inr hend), hover]
      exact (if_pos hchildren).symm
    · obtain ⟨p, hp⟩ : ∃ p, p = key.path offset 6 := ⟨_, rfl⟩
      have hlength : p.length = 6 := by rw [hp, Key.length_path]
      have hlt : index p < 64 := by
        have hlt := index_lt p
        rwa [hlength] at hlt
      have hover : overrun offset - offset = 6 + (overrun (offset + 6) - (offset + 6)) := by
        rw [overrun, overrun]
        omega
      have hrest : 128 - offset = 6 + (128 - (offset + 6)) := by omega
      rw [Key.extract_eq (by decide) hwithin, hover, hrest, Key.path_add, Key.path_add, ← hp]
      obtain ⟨_, _, _, vector, within, child, leaf⟩ := h
      simp only [testBit_ne_zero _ hlt, popcnt_mask _ hlt, vector p hlength]
      cases hchildren : (rib.walk p).hasChildren with
      | true =>
        obtain ⟨hlo, hhi⟩ := within p hlength hchildren
        have hpos : 0 < rank (f.nodes idx).vector (index p + 1) := by
          rw [rank_succ, vector p hlength, hchildren]
          exact Nat.succ_pos _
        have hindex : ((f.nodes idx).base1 : Int) + rank (f.nodes idx).vector (index p + 1) - 1 =
            (Fib.childIndex (f.nodes idx) (index p) : Nat) := by
          rw [Fib.childIndex]
          omega
        rw [if_pos rfl, hindex, getNode, if_pos (by omega), walk_append, best_append]
        exact ih (child p hlength hchildren) (by omega) hwithin (.inl hchildren)
      | false =>
        obtain ⟨hpos, hlt, hvalue⟩ := leaf p hlength hchildren
        have hindex : ((f.nodes idx).base0 : Int) + rank (f.nodes idx).leafvec (index p + 1) - 1 =
            (Fib.leafIndex (f.nodes idx) (index p) : Nat) := by
          rw [Fib.leafIndex]
          omega
        rw [if_neg Bool.noConfusion, hindex, getLeaf, if_pos (by omega), Int.toNat_natCast, hvalue,
          not_hasChildren_append hchildren, if_neg Bool.noConfusion,
          best_append_of_not_hasChildren hchildren]

/-! ## Building -/

variable {c : PoptrieConfig} {rib : Rib} {f f' : Fib} {p : List Bool}

/-- An entry of the direct map: a node if the RIB goes on, or else a value. -/
structure Directed (f : Fib) (rib : Rib) (p : List Bool) (entry : Nat) : Prop where
  node : (rib.walk p).hasChildren → entry < f.nodeBase ∧ ∃ lo hi, hi ≤ f.nodeBase ∧
    Fib.Compiled f.nodes f.leaves f.leafBase lo hi entry (rib.walk p) (rib.best none p)
  leaf : (rib.walk p).hasChildren = false → entry = (rib.best none p).getD 0 ||| 2 ^ 31

theorem Directed.frame {entry : Nat} (h : Directed f rib p entry)
    (hnodes : ∀ i < f.nodeBase, f'.nodes i = f.nodes i)
    (hleaves : ∀ i < f.leafBase, f'.leaves i = f.leaves i) (hleafBase : f.leafBase ≤ f'.leafBase)
    (hnodeBase : f.nodeBase ≤ f'.nodeBase) : Directed f' rib p entry := by
  refine ⟨fun hchildren => ?_, h.leaf⟩
  obtain ⟨hentry, lo, hi, hhi, hcompiled⟩ := h.node hchildren
  refine ⟨hentry.trans_le hnodeBase, lo, hi, hhi.trans hnodeBase,
    hcompiled.frame (fun i hi' => hnodes i ?_) hleaves hleafBase le_rfl le_rfl⟩
  rcases hi' with rfl | ⟨-, hlt⟩
  · exact hentry
  · exact hlt.trans_le hhi

/-- The entries for some paths are made. -/
structure DirectBuilt (c : PoptrieConfig) (rib : Rib) (done : List (List Bool))
    (s : Fib × (Nat → Nat)) : Prop where
  ready : Fib.Ready c s.1
  entries : ∀ p ∈ done, Directed s.1 rib p (s.2 (index p))

theorem directStep_spec {done : List (List Bool)} {s : Fib × (Nat → Nat)}
    (h : DirectBuilt c rib done s) (hsmall : rib.Small) (hp : p.length = c.s)
    (hnew : index p ∉ done.map index) :
    Outcome (· = .tooLarge) (DirectBuilt c rib (done ++ [p]))
      (directStep c rib s (index p, rib.best none p, Rib.below (rib.walk p))) := by
  obtain ⟨f, directmap⟩ := s
  have hready : Fib.Ready c f := h.ready
  have hindex : index p < 2 ^ c.s := by
    have hlt := index_lt p
    rwa [hp] at hlt
  have hset {value : Nat} (hvalue : value < 2 ^ 32) : setDirect c directmap (index p) value =
      .ok (update directmap (index p) value) := by
    rw [setDirect, if_pos hindex, Nat.mod_eq_of_lt hvalue]
  have hbest := hsmall.best (d := none) nofun p
  -- the entries that are there
  have hold {f' : Fib} {entry : Nat} (hnodes : ∀ i < f.nodeBase, f'.nodes i = f.nodes i)
      (hleaves : ∀ i < f.leafBase, f'.leaves i = f.leaves i)
      (hleafBase : f.leafBase ≤ f'.leafBase) (hnodeBase : f.nodeBase ≤ f'.nodeBase)
      (hlast : Directed f' rib p entry) : ∀ q ∈ done ++ [p],
        Directed f' rib q (update directmap (index p) entry (index q)) := by
    intro q hq
    rcases mem_append.mp hq with hq | hq
    · have hne : index q ≠ index p := fun heq =>
        hnew (mem_map.mpr ⟨q, hq, heq⟩)
      rw [update_of_ne hne]
      exact (h.entries q hq).frame hnodes hleaves hleafBase hnodeBase
    · rw [mem_singleton.mp hq, update_self]
      exact hlast
  rw [directStep]
  simp only [Rib.present_below]
  cases hchildren : (rib.walk p).hasChildren with
  | true =>
    rw [Rib.below_of_hasChildren hchildren]
    refine (Fib.allocateNode_spec hready).bind fun r hr => ?_
    obtain ⟨idx, f₁⟩ := r
    obtain ⟨hidx, n, hn, hf₁, hready₁⟩ := hr
    have hidx : idx = f.nodeBase := hidx
    have hf₁ : f₁ = { f with numNodes := n, nodeBase := f.nodeBase + 1 } := hf₁
    have hlt := hready.nodeBase_lt
    have hpresent := present_of_hasChildren hchildren
    have hlow := height_walk hpresent
    rw [hset (show idx < 2 ^ 32 by omega)]
    show Outcome _ _ ((Fib.buildNode c rib (rib.height + 1) (rib.walk p)
      (update directmap (index p) idx (index p)) (rib.best none p) f₁).bind _)
    rw [update_self]
    refine (Fib.buildNode_spec (rib.height + 1) (by omega) (fun habsent => ?_) (hsmall.walk p)
      hbest hready₁ (show idx < f₁.nodeBase by rw [hf₁, hidx]; exact Nat.lt_succ_self _) ?_).bind
        fun f₂ hf₂ => ?_
    · rw [hpresent] at habsent
      cases habsent
    · rw [hf₁, hidx]
      exact hready.nodes _ le_rfl
    · have hnodeBase := hf₂.nodeBase_le
      have hleafBase := hf₂.leafBase_le
      rw [hf₁] at hnodeBase hleafBase
      have hnodeBase : f.nodeBase + 1 ≤ f₂.nodeBase := hnodeBase
      have hentry : idx < f₂.nodeBase := by omega
      refine ⟨hf₂.ready, hold (fun i hi => ?_) (fun i hi => ?_) hleafBase
        (Nat.le_of_succ_le hnodeBase) ⟨fun _ => ⟨hentry, _, _, le_rfl, hf₂.compiled⟩,
          fun hleaf => ?_⟩⟩
      · rw [hf₂.others i (by rw [hf₁]; exact Nat.lt_succ_of_lt hi) (by omega), hf₁]
      · rw [hf₂.leaves i (by rw [hf₁]; exact hi), hf₁]
      · rw [hchildren] at hleaf
        cases hleaf
  | false =>
    have hvalue := hsmall.getD_best p
    have hor : (rib.best none p).getD 0 ||| 2 ^ 31 < 2 ^ 32 :=
      Nat.or_lt_two_pow (by omega) (by decide)
    rw [hset hor]
    refine ⟨hready, hold (fun _ _ => rfl) (fun _ _ => rfl) le_rfl le_rfl
      ⟨fun hgoes => ?_, fun _ => rfl⟩⟩
    rw [hchildren] at hgoes
    cases hgoes

/-- The FIB stands for the RIB. -/
structure Complete (t : Poptrie) : Prop where
  ready : Fib.Ready t.config t.fib
  direct : t.config.directPointing → ∀ p, p.length = t.config.s →
    Directed t.fib t.rib p (t.directmap (index p))
  root : t.config.directPointing = false → ∃ lo hi, hi ≤ t.fib.nodeBase ∧
    Fib.Compiled t.fib.nodes t.fib.leaves t.fib.leafBase lo hi 0 t.rib none

theorem ready_clearFib (h : Fib.Ready c f) : Fib.Ready c (clearFib f) :=
  { h with
    leafBase := Nat.zero_le _
    nodeBase := Nat.zero_le _
    leaves := fun _ _ => rfl
    nodes := fun _ _ => rfl }

/-- **Building** makes a FIB that stands for the RIB, unless the arrays become too large. -/
theorem build_spec {t : Poptrie} (hready : Fib.Ready t.config t.fib) (hsmall : t.rib.Small) :
    Outcome (· = .tooLarge) (fun t' => Complete t' ∧ t'.rib = t.rib ∧ t'.config = t.config)
      t.build := by
  have hclear := ready_clearFib hready
  rw [build]
  cases hdirect : t.config.directPointing with
  | true =>
    rw [Rib.map_eq t.rib t.rib t.config.s fun _ => rfl, foldlM_map]
    have hinit : DirectBuilt t.config t.rib [] (clearFib t.fib, t.directmap) := ⟨hclear, nofun⟩
    refine (outcome_foldlM (I := DirectBuilt t.config t.rib) hinit
      fun done p rest heq s hs => ?_).bind fun r hr => ?_
    · have hp : p.length = t.config.s := mem_paths.mp (by rw [heq]; simp)
      have hnodup := nodup_index_paths t.config.s
      rw [heq, map_append, nodup_append] at hnodup
      exact directStep_spec hs hsmall hp fun hmem =>
        hnodup.2.2 _ hmem _ (mem_map_of_mem mem_cons_self) rfl
    · refine ⟨⟨hr.ready, fun _ p hp => hr.entries p (mem_paths.mpr hp), fun hoff => ?_⟩, rfl, rfl⟩
      rw [hdirect] at hoff
      cases hoff
  | false =>
    refine (Fib.allocateNode_spec hclear).bind fun r hr => ?_
    obtain ⟨idx, f₁⟩ := r
    obtain ⟨hidx, n, hn, hf₁, hready₁⟩ := hr
    have hidx : idx = 0 := hidx
    have hf₁ : f₁ = { clearFib t.fib with numNodes := n, nodeBase := 0 + 1 } := hf₁
    have hnone : ∀ v, none = some v → v < 2 ^ 16 := nofun
    refine (Fib.buildNode_spec (t.rib.height + 1) (Nat.lt_succ_self _) (fun _ => rfl) hsmall hnone
      hready₁ (show idx < f₁.nodeBase by rw [hf₁, hidx]; exact Nat.one_pos) ?_).bind
        fun f₂ hf₂ => ?_
    · rw [hf₁]
      rfl
    · refine ⟨⟨hf₂.ready, fun hon => ?_, fun _ => ⟨f₁.nodeBase, _, le_rfl, ?_⟩⟩, rfl, rfl⟩
      · have hon : t.config.directPointing = true := hon
        rw [hdirect] at hon
        cases hon
      · rw [← hidx]
        exact hf₂.compiled

/-- Where the nodes begin. -/
def start (c : PoptrieConfig) : Nat := if c.directPointing then c.s else 0

/-- **A look-up in a built poptrie** gives the last value on the way through the RIB, but needs the
bits of whole strides. -/
theorem lookup_eq {t : Poptrie} (h : Complete t) (hsmall : t.rib.Small)
    (hs : t.config.directPointing → t.config.s ≤ 28) (key : Key) :
    t.lookup key =
      if t.config.directPointing ∧ t.config.s = 0 ∨
          (t.rib.walk (key.path 0 (overrun (start t.config)))).hasChildren then .error .badArgument
      else .ok ((t.rib.best none (key.path 0 128)).getD 0) := by
  have hnodes := h.ready.nodeBase
  have hleaves := h.ready.leafBase
  rw [lookup]
  cases hdirect : t.config.directPointing with
  | true =>
    have hle := hs hdirect
    rw [if_pos rfl, start, if_pos hdirect]
    rcases Nat.eq_zero_or_pos t.config.s with hzero | hpos
    · rw [Key.extract_eq_none (.inl hzero), if_pos (.inl ⟨rfl, hzero⟩)]
    · obtain ⟨p, hp⟩ : ∃ p, p = key.path 0 t.config.s := ⟨_, rfl⟩
      have hlength : p.length = t.config.s := by rw [hp, Key.length_path]
      have hlt : index p < 2 ^ t.config.s := by
        have hlt := index_lt p
        rwa [hlength] at hlt
      have hentry := h.direct hdirect p hlength
      have hover : overrun t.config.s =
          t.config.s + (overrun t.config.s - t.config.s) := by
        rw [overrun]
        omega
      have hrest : 128 = t.config.s + (128 - t.config.s) := by omega
      rw [Key.extract_eq hpos (by omega), hover]
      conv_rhs => rw [hrest]
      rw [Key.path_add, Key.path_add, ← hp, Nat.zero_add]
      simp only [hlt, if_true, true_and, hpos.ne', false_or]
      cases hchildren : (t.rib.walk p).hasChildren with
      | true =>
        obtain ⟨hbelow, lo, hi, hhi, hcompiled⟩ := hentry.node hchildren
        have hsmallIndex := h.ready.nodeBase_lt
        have htag : ¬ t.directmap (index p) &&& 2 ^ 31 ≠ 0 := by
          rw [Nat.and_two_pow, Nat.testBit_lt_two_pow (by omega)]
          exact not_not_intro (Nat.zero_mul _)
        rw [if_neg htag, getNode, if_pos (by omega), walk_append, best_append]
        exact lookupLoop_spec 22 hcompiled hleaves (hhi.trans hnodes) (by omega) (by omega)
          (.inl hchildren)
      | false =>
        have hvalue : (t.rib.best none p).getD 0 < 2 ^ 31 :=
          (hsmall.getD_best p).trans (by decide)
        have hor : (t.rib.best none p).getD 0 ||| 2 ^ 31 = 2 ^ 31 + (t.rib.best none p).getD 0 := by
          have hadd := Nat.two_pow_add_eq_or_of_lt hvalue 1
          rw [Nat.mul_one] at hadd
          rw [hadd, Nat.or_comm]
        have htag : 2 ^ 31 + (t.rib.best none p).getD 0 &&& 2 ^ 31 ≠ 0 := by
          rw [Nat.and_two_pow, Nat.testBit_two_pow_add_eq, Nat.testBit_lt_two_pow hvalue]
          decide
        rw [hentry.leaf hchildren, hor, if_pos htag, Nat.add_mod_left, Nat.mod_eq_of_lt hvalue,
          not_hasChildren_append hchildren, if_neg Bool.noConfusion,
          best_append_of_not_hasChildren hchildren]
  | false =>
    obtain ⟨lo, hi, hhi, hcompiled⟩ := h.root hdirect
    have hnumNodes := h.ready.numNodes
    have hspec : lookupLoop key t.fib 22 (t.fib.nodes 0) 0 = _ :=
      lookupLoop_spec 22 hcompiled hleaves (hhi.trans hnodes) (by decide) (Nat.zero_le _)
        (.inr (by decide))
    have hstart : start t.config = 0 := by
      rw [start, hdirect]
      rfl
    have hcond : (false = true ∧ t.config.s = 0 ∨
        (t.rib.walk (key.path 0 (overrun 0))).hasChildren = true) ↔
          (t.rib.walk (key.path 0 (overrun 0 - 0))).hasChildren = true := by simp
    rw [if_neg Bool.noConfusion, hstart, getNode, if_pos (by omega)]
    exact hspec.trans (if_congr hcond.symm rfl rfl)

end Poptrie

/-! ## Runs -/

namespace PoptrieEntry

/-- The bits of a prefix, and its value. -/
def entry (e : PoptrieEntry) : List Bool × Nat := (e.key.path 0 e.length, e.value)

/-- The key begins with the prefix. -/
def Matches (e : PoptrieEntry) (key : Key) : Prop := ∀ i < e.length, e.key.bit i = key.bit i

end PoptrieEntry

/-- `v` is the value of the longest prefix that matches, the last one added if it was added more
than once. -/
def LongestMatch (adds : List PoptrieEntry) (key : Key) (v : Nat) : Prop :=
  ∃ before e after, adds = before ++ e :: after ∧ e.Matches key ∧ e.value = v ∧
    (∀ e' ∈ before, e'.Matches key → e'.length ≤ e.length) ∧
      ∀ e' ∈ after, e'.Matches key → e'.length < e.length

/-- What is done with a poptrie before it is built for the last time. -/
inductive PoptrieCall where
  | add (e : PoptrieEntry)
  | build

/-- The prefixes that are added. -/
def PoptrieCall.added (calls : List PoptrieCall) : List PoptrieEntry :=
  calls.filterMap fun
    | .add e => some e
    | .build => none

namespace Poptrie

open PoptrieCall

def step (t : Poptrie) : PoptrieCall → Except PoptrieFault Poptrie
  | .add e => t.add e
  | .build => t.build

/-- A new poptrie, some calls, and a build. -/
def built (c : PoptrieConfig) (calls : List PoptrieCall) : Except PoptrieFault Poptrie := do
  let t ← new c
  let t ← run step t calls
  t.build

theorem added_snoc_add (calls : List PoptrieCall) (e : PoptrieEntry) :
    added (calls ++ [.add e]) = added calls ++ [e] := by
  rw [added, filterMap_append]
  rfl

theorem added_snoc_build (calls : List PoptrieCall) : added (calls ++ [.build]) = added calls := by
  rw [added, filterMap_append]
  exact append_nil _

theorem path_prefix_iff {key key' : Key} {m n : Nat} :
    key.path 0 m <+: key'.path 0 n ↔ m ≤ n ∧ ∀ i < m, key.bit i = key'.bit i := by
  have hsame : key.path 0 m = key'.path 0 m ↔ ∀ i < m, key.bit i = key'.bit i := by
    rw [Key.path, Key.path, map_inj_left]
    simp only [mem_range'_1, Nat.zero_le, true_and, Nat.zero_add]
  rw [← hsame]
  constructor
  · intro h
    have hle := h.length_le
    rw [Key.length_path, Key.length_path] at hle
    obtain ⟨k, rfl⟩ := Nat.exists_eq_add_of_le hle
    have hlength : (key.path 0 m).length = (key'.path 0 m).length := by
      rw [Key.length_path, Key.length_path]
    rw [Key.path_add] at h
    have hprefix := prefix_of_prefix_length_le h (prefix_append _ _) hlength.le
    exact ⟨hle, hprefix.eq_of_length hlength⟩
  · rintro ⟨hle, heq⟩
    obtain ⟨k, rfl⟩ := Nat.exists_eq_add_of_le hle
    rw [heq, Key.path_add]
    exact prefix_append _ _

/-- What the calls leave behind. -/
structure Kept (c : PoptrieConfig) (adds : List PoptrieEntry) (t : Poptrie) : Prop where
  config : t.config = c
  ready : Fib.Ready c t.fib
  rib : t.rib = ofList (adds.map PoptrieEntry.entry)
  short : ∀ e ∈ adds, e.length ≤ 128

variable {adds : List PoptrieEntry} {t t' : Poptrie} {calls : List PoptrieCall}

theorem Kept.small (h : Kept c adds t) (hvalues : ∀ e ∈ adds, e.value < 2 ^ 16) : t.rib.Small := by
  intro p v hv
  rw [h.rib, value_walk_ofList] at hv
  obtain ⟨before, after, heq, -⟩ := hv
  have hmem : (p, v) ∈ adds.map PoptrieEntry.entry := by rw [heq]; simp
  obtain ⟨e, he, heq⟩ := mem_map.mp hmem
  have hvalue : e.value = v := congrArg Prod.snd heq
  rw [← hvalue]
  exact hvalues e he

theorem kept_new (h : new c = .ok t) : Kept c [] t := by
  rw [new] at h
  split at h
  · cases h
  · split at h
    · cases h
    · cases h
      have hbytes : 100 * c.leafType.bytes < 2 ^ 31 := by cases c.leafType <;> decide
      exact ⟨rfl, { leafBase := Nat.zero_le _
                    nodeBase := Nat.zero_le _
                    numLeaves := Nat.succ_pos _
                    numNodes := Nat.succ_pos _
                    leafBytes := hbytes
                    nodeBytes := show 10 * 24 < 2 ^ 31 by decide
                    leaves := fun _ _ => rfl
                    nodes := fun _ _ => rfl }, rfl, nofun⟩

theorem Kept.add {e : PoptrieEntry} (h : Kept c adds t) (hadd : t.add e = .ok t') :
    Kept c (adds ++ [e]) t' := by
  rw [Poptrie.add, Rib.add_eq] at hadd
  split at hadd
  · next hlength =>
    cases hadd
    refine ⟨h.config, h.ready, ?_, fun e' he' => ?_⟩
    · show t.rib.insert _ _ = _
      rw [h.rib, map_append, map_singleton, ofList_concat]
      rfl
    · rcases mem_append.mp he' with he' | he'
      · exact h.short e' he'
      · rwa [mem_singleton.mp he']
  · cases hadd

theorem Kept.build (h : Kept c adds t) (hvalues : ∀ e ∈ adds, e.value < 2 ^ 16)
    (hbuild : t.build = .ok t') : Kept c adds t' ∧ Complete t' := by
  have hspec := build_spec (h.config ▸ h.ready) (h.small hvalues)
  rw [hbuild] at hspec
  obtain ⟨hcomplete, hrib, hconfig⟩ := hspec
  have hready := hcomplete.ready
  rw [hconfig, h.config] at hready
  exact ⟨⟨hconfig.trans h.config, hready, hrib.trans h.rib, h.short⟩, hcomplete⟩

theorem kept_run {t₀ : Poptrie} (h₀ : Kept c [] t₀)
    (hvalues : ∀ e ∈ added calls, e.value < 2 ^ 16) (hrun : run step t₀ calls = .ok t) :
    Kept c (added calls) t := by
  induction calls using List.reverseRecOn generalizing t with
  | nil =>
    cases hrun
    exact h₀
  | append_singleton calls call ih =>
    obtain ⟨t₁, hbefore, hstep⟩ := run_snoc_eq_ok hrun
    cases call with
    | add e =>
      rw [added_snoc_add] at hvalues ⊢
      exact (ih (fun e' he' => hvalues e' (mem_append_left _ he')) hbefore).add hstep
    | build =>
      rw [added_snoc_build] at hvalues ⊢
      exact ((ih hvalues hbefore).build hvalues hstep).1

/-- **A built poptrie** stands for the prefixes that were added. -/
theorem built_spec (hvalues : ∀ e ∈ added calls, e.value < 2 ^ 16)
    (hbuilt : built c calls = .ok t) :
    Kept c (added calls) t ∧ Complete t ∧ (c.directPointing → c.s ≤ 28) := by
  obtain ⟨t₀, hnew, hbuilt⟩ := bind_eq_ok hbuilt
  obtain ⟨t₁, hrun, hbuild⟩ := bind_eq_ok hbuilt
  obtain ⟨hkept, hcomplete⟩ := (kept_run (kept_new hnew) hvalues hrun).build hvalues hbuild
  refine ⟨hkept, hcomplete, fun hdirect => ?_⟩
  by_contra hlarge
  have hpow : 2 ^ 29 ≤ 2 ^ c.s := Nat.pow_le_pow_right (by decide) (Nat.lt_of_not_le hlarge)
  rw [new, if_pos ⟨hdirect, by omega⟩] at hnew
  cases hnew

theorem entry_prefix_iff {e : PoptrieEntry} (h : e.length ≤ 128) (key : Key) :
    e.entry.1 <+: key.path 0 128 ↔ e.Matches key := by
  rw [PoptrieEntry.entry, path_prefix_iff]
  exact and_iff_right h

theorem longestMatch_of_isLongest {key : Key} {v : Nat} (hshort : ∀ e ∈ adds, e.length ≤ 128)
    (h : IsLongest (adds.map PoptrieEntry.entry) (key.path 0 128) v) : LongestMatch adds key v := by
  obtain ⟨q, hq, ⟨before, after, heq, hafter⟩, hlongest⟩ := h
  obtain ⟨before, rest, rfl, rfl, hrest⟩ := map_eq_append_iff.mp heq
  obtain ⟨e, after, rfl, hentry, rfl⟩ := map_eq_cons_iff.mp hrest
  have hpath : e.entry.1 = q := congrArg Prod.fst hentry
  have hlength : q.length = e.length := by rw [← hpath, PoptrieEntry.entry, Key.length_path]
  have hle e' (he' : e' ∈ before ++ e :: after) (hmatches : e'.Matches key) :
      e'.length ≤ e.length := by
    have hle := hlongest _ (mem_map_of_mem he')
      ((entry_prefix_iff (hshort e' he') key).mpr hmatches)
    rwa [hlength, PoptrieEntry.entry, Key.length_path] at hle
  refine ⟨before, e, after, rfl, ?_, congrArg Prod.snd hentry, fun e' he' => hle e' ?_,
    fun e' he' hmatches => ?_⟩
  · rw [← hpath] at hq
    exact (entry_prefix_iff (hshort e (by simp)) key).mp hq
  · exact mem_append_left _ he'
  · have hmem : e' ∈ before ++ e :: after :=
      mem_append_right _ (mem_cons_of_mem _ he')
    refine lt_of_le_of_ne (hle e' hmem hmatches) fun hsame => ?_
    -- two prefixes of one length that match are the same
    have hprefix := (entry_prefix_iff (hshort e' hmem) key).mpr hmatches
    have hsame : e'.entry.1.length = q.length := by
      rw [hlength, ← hsame, PoptrieEntry.entry, Key.length_path]
    have hsub := prefix_of_prefix_length_le hprefix hq hsame.le
    exact hafter _ (mem_map_of_mem he') (hsub.eq_of_length hsame)

/-- **The longest prefix decides** whenever a look-up in a built poptrie returns, and the RIB says
the same. -/
theorem lookup_longest_match {key : Key} {v : Nat}
    (hvalues : ∀ e ∈ added calls, e.value < 2 ^ 16) (hbuilt : built c calls = .ok t)
    (hlookup : t.lookup key = .ok v) :
    (LongestMatch (added calls) key v ∨ v = 0 ∧ ∀ e ∈ added calls, ¬ e.Matches key) ∧
      ∀ r, t.rib.lookup key 128 = .ok r → v = r.1.getD 0 := by
  obtain ⟨hkept, hcomplete, hs⟩ := built_spec hvalues hbuilt
  rw [lookup_eq hcomplete (hkept.small hvalues) (hkept.config ▸ hs)] at hlookup
  split at hlookup
  · cases hlookup
  · have hv := Except.ok.inj hlookup
    rw [← hv]
    refine ⟨?_, fun r hr => by rw [Rib.lookup_spec hr le_rfl]⟩
    rw [hkept.rib]
    rcases best_ofList ((added calls).map PoptrieEntry.entry) (key.path 0 128) with
      ⟨hbest, hnone⟩ | ⟨v, hbest, hlongest⟩
    · rw [hbest]
      refine .inr ⟨rfl, fun e he hmatches => hnone _ (mem_map_of_mem he) ?_⟩
      exact (entry_prefix_iff (hkept.short e he) key).mpr hmatches
    · rw [hbest]
      exact .inl (longestMatch_of_isLongest hkept.short hlongest)

theorem lookup_longest_match_nested :
    ∃ t, built ⟨true, 3, .uint16⟩ [.add ⟨fun _ => 0, 5, 7⟩, .add ⟨fun _ => 0, 2, 3⟩] = .ok t ∧
      LongestMatch [⟨fun _ => 0, 5, 7⟩, ⟨fun _ => 0, 2, 3⟩] (fun _ => 1) 7 := by
  have hrun : (built ⟨true, 3, .uint16⟩ [.add ⟨fun _ => 0, 5, 7⟩, .add ⟨fun _ => 0, 2, 3⟩] >>=
      fun t => t.lookup fun _ => 1) = .ok 7 := by decide +kernel
  obtain ⟨t, hbuilt, hlookup⟩ := bind_eq_ok hrun
  refine ⟨t, hbuilt, ?_⟩
  have hvalues : ∀ e ∈ added [.add ⟨fun _ => 0, 5, 7⟩, .add ⟨fun _ => 0, 2, 3⟩],
      e.value < 2 ^ 16 := by simp [added]
  exact (lookup_longest_match hvalues hbuilt hlookup).1.resolve_right (by simp)

/-- **When a look-up returns**: the direct map has to be indexed by at least one bit, and no prefix
may go on behind the last whole stride where the key has led to it. -/
theorem lookup_returns_iff (hvalues : ∀ e ∈ added calls, e.value < 2 ^ 16)
    (hbuilt : built c calls = .ok t) (key : Key) :
    (∃ v, t.lookup key = .ok v) ↔ ¬ (c.directPointing ∧ c.s = 0) ∧
      ∀ e ∈ added calls, overrun (start c) < e.length →
        ∃ i < overrun (start c), e.key.bit i ≠ key.bit i := by
  obtain ⟨hkept, hcomplete, hs⟩ := built_spec hvalues hbuilt
  have hgoes : (t.rib.walk (key.path 0 (overrun (start c)))).hasChildren ↔
      ∃ e ∈ added calls, overrun (start c) < e.length ∧
        ∀ i < overrun (start c), e.key.bit i = key.bit i := by
    rw [hkept.rib, hasChildren_walk_ofList]
    simp only [mem_map, exists_exists_and_eq_and, PoptrieEntry.entry, path_prefix_iff,
      Key.length_path]
    refine exists_congr fun e => and_congr_right fun _ => ?_
    constructor
    · rintro ⟨⟨-, hbits⟩, hlt⟩
      exact ⟨hlt, fun i hi => (hbits i hi).symm⟩
    · rintro ⟨hlt, hbits⟩
      exact ⟨⟨hlt.le, fun i hi => (hbits i hi).symm⟩, hlt⟩
  rw [lookup_eq hcomplete (hkept.small hvalues) (hkept.config ▸ hs), hkept.config]
  have hall : (¬ ∃ e ∈ added calls, overrun (start c) < e.length ∧
      ∀ i < overrun (start c), e.key.bit i = key.bit i) ↔
        ∀ e ∈ added calls, overrun (start c) < e.length →
          ∃ i < overrun (start c), e.key.bit i ≠ key.bit i := by
    simp only [not_exists, not_and, not_forall, exists_prop]
  rw [← hall, ← hgoes, ← not_or]
  split
  · next hraises => exact iff_of_false (fun ⟨_, h⟩ => nomatch h) (not_not_intro hraises)
  · next hreturns => exact iff_of_true ⟨_, rfl⟩ hreturns

theorem lookup_returns_iff_short :
    ∃ t v, built ⟨true, 3, .uint16⟩ [.add ⟨fun _ => 0, 5, 7⟩] = .ok t ∧
      t.lookup (fun _ => 1) = .ok v := by
  have hrun : (built ⟨true, 3, .uint16⟩ [.add ⟨fun _ => 0, 5, 7⟩] >>=
      fun t => .ok t.fib.nodeBase) = .ok 1 := by decide +kernel
  obtain ⟨t, hbuilt, -⟩ := bind_eq_ok hrun
  have hvalues : ∀ e ∈ added [.add ⟨fun _ => 0, 5, 7⟩], e.value < 2 ^ 16 := by simp [added]
  have hshort : ∀ e ∈ added [.add ⟨fun _ => 0, 5, 7⟩], ¬ overrun 3 < e.length := by
    simp [added, overrun]
  obtain ⟨v, hlookup⟩ := (lookup_returns_iff hvalues hbuilt fun _ => 1).mpr
    ⟨by decide, fun e he hlt => absurd hlt (hshort e he)⟩
  exact ⟨t, v, hbuilt, hlookup⟩

/-- The address of a host route raises. -/
theorem lookup_host_route :
    ∃ t, built ⟨false, 18, .uint16⟩ [.add ⟨fun _ => 0, 128, 1⟩] = .ok t ∧
      t.lookup (fun _ => 0) = .error .badArgument := by
  have hrun : (built ⟨false, 18, .uint16⟩ [.add ⟨fun _ => 0, 128, 1⟩] >>=
      fun t => .ok (t.lookup fun _ => 0)) = .ok (.error .badArgument) := by decide +kernel
  obtain ⟨t, hbuilt, hlookup⟩ := bind_eq_ok hrun
  exact ⟨t, hbuilt, Except.ok.inj hlookup⟩

end Poptrie

end Snabb
