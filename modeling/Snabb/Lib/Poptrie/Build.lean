import Snabb.Foundation.Outcome
import Snabb.Foundation.Rank
import Snabb.Lib.Poptrie.Rib

/-!
# Building the FIB of a poptrie (`lib/poptrie.lua`)

A node of the poptrie stands for the next 6 bits of a key. Its bit vector says which of the 64
continuations have a child node; the children of a node are next to each other. For the others
there are leaves, of which equal neighbours share one; a second bit vector says where a new leaf
begins. The arrays of nodes and leaves grow as needed, and every node and leaf is new.

- `Compiled`: the nodes and leaves that are reached from a node stand for a part of the RIB;
- `Compiled.frame`: this depends on these nodes and leaves only;
- `buildNode_spec`: what `build_node` makes.
-/

namespace Snabb

open Foundation List
open Function (update update_of_ne update_self)

open BitTrie hiding node absent value

/-- `leaf_t`. -/
inductive LeafType where
  | uint16
  | uint32
deriving DecidableEq, Repr

/-- The size of a leaf. -/
def LeafType.bytes : LeafType → Nat
  | uint16 => 2
  | uint32 => 4

/-- What a poptrie is made with. -/
structure PoptrieConfig where
  directPointing : Bool
  s : Nat
  leafType : LeafType
deriving DecidableEq, Repr

/-- `node_t`. -/
structure PoptrieNode where
  leafvec : BitVec 64
  vector : BitVec 64
  base0 : Nat
  base1 : Nat
deriving DecidableEq, Repr

/-- The arrays of nodes and leaves, and how many are in use. -/
structure Fib where
  leaves : Nat → Nat
  numLeaves : Nat
  nodes : Nat → PoptrieNode
  numNodes : Nat
  leafBase : Nat
  nodeBase : Nat

namespace Fib

export Foundation (setBit)

/-- A node of an array that has not been written to. -/
def zeroNode : PoptrieNode := ⟨0, 0, 0, 0⟩

/-- `grow_leaves`. -/
def growLeaves (c : PoptrieConfig) (f : Fib) : Except PoptrieFault Fib :=
  if f.numLeaves * 2 * c.leafType.bytes < 2 ^ 31 then
    .ok { f with leaves := fun i => if i < f.numLeaves then f.leaves i else 0,
                 numLeaves := f.numLeaves * 2 }
  else .error .tooLarge

/-- `grow_nodes`. -/
def growNodes (f : Fib) : Except PoptrieFault Fib :=
  if f.numNodes * 2 * 24 < 2 ^ 31 then
    .ok { f with nodes := fun i => if i < f.numNodes then f.nodes i else zeroNode,
                 numNodes := f.numNodes * 2 }
  else .error .tooLarge

/-- The loop of `allocate_leaf`. An array doubles less than 31 times. -/
def growLeavesLoop (c : PoptrieConfig) : Nat → Fib → Except PoptrieFault Fib
  | 0, f => if f.numLeaves ≤ f.leafBase then .error .outOfFuel else .ok f
  | rounds + 1, f =>
    if f.numLeaves ≤ f.leafBase then do
      let f ← f.growLeaves c
      growLeavesLoop c rounds f
    else .ok f

/-- `allocate_leaf`. -/
def allocateLeaf (c : PoptrieConfig) (f : Fib) : Except PoptrieFault (Nat × Fib) := do
  let f ← growLeavesLoop c 31 f
  return (f.leafBase, { f with leafBase := f.leafBase + 1 })

/-- The loop of `allocate_node`. -/
def growNodesLoop : Nat → Fib → Except PoptrieFault Fib
  | 0, f => if f.numNodes ≤ f.nodeBase then .error .outOfFuel else .ok f
  | rounds + 1, f =>
    if f.numNodes ≤ f.nodeBase then do
      let f ← f.growNodes
      growNodesLoop rounds f
    else .ok f

/-- `allocate_node`. -/
def allocateNode (c : PoptrieConfig) (f : Fib) : Except PoptrieFault (Nat × Fib) := do
  -- the bit that tells a leaf of the direct map from a node
  if c.directPointing ∧ f.nodeBase / 2 ^ 31 % 2 ≠ 0 then .error .nodeOverflow
  let f ← growNodesLoop 31 f
  return (f.nodeBase, { f with nodeBase := f.nodeBase + 1 })

/-- An assignment to fields of a node. -/
def setNode (f : Fib) (index : Nat) (g : PoptrieNode → PoptrieNode) : Except PoptrieFault Fib :=
  if index < f.numNodes then
    .ok { f with nodes := update f.nodes index (g (f.nodes index)) }
  else .error (.outOfBounds index)

/-- An assignment to a leaf. -/
def setLeaf (c : PoptrieConfig) (f : Fib) (index value : Nat) : Except PoptrieFault Fib :=
  if index < f.numLeaves then
    .ok { f with leaves := update f.leaves index (value % 2 ^ (8 * c.leafType.bytes)) }
  else .error (.outOfBounds index)

/-- The tables that `collect` fills. -/
def collect (slots : List (Nat × Option Nat × Rib)) : Nat → Option Nat × Rib :=
  slots.foldl (fun table e => update table e.1 e.2) fun _ => (none, .absent)

/-- The loop over the leaves; the other value is `last_leaf_value`. -/
def leafStep (c : PoptrieConfig) (table : Nat → Option Nat × Rib) (default : Option Nat)
    (nodeIndex : Nat) (s : Fib × Option Nat) (index : Nat) :
    Except PoptrieFault (Fib × Option Nat) :=
  if (table index).2.present then .ok s
  else
    let value := ((table index).1.or default).getD 0
    if s.2 = some value then .ok s
    else do
      let f ← s.1.setNode nodeIndex fun node => { node with leafvec := setBit node.leafvec index }
      let (leafIndex, f) ← f.allocateLeaf c
      let f ← f.setLeaf c leafIndex value
      return (f, some value)

/-- The loop that allocates the children; the other value is `child_nodes`. -/
def allocateStep (c : PoptrieConfig) (table : Nat → Option Nat × Rib) (s : Fib × (Nat → Nat))
    (index : Nat) : Except PoptrieFault (Fib × (Nat → Nat)) :=
  if (table index).2.present then do
    let (child, f) ← s.1.allocateNode c
    return (f, update s.2 index child)
  else .ok s

/-- `build_node`. It calls itself for parts of the RIB that are 6 levels further down. -/
def buildNode (c : PoptrieConfig) (self : Rib) :
    Nat → Rib → Nat → Option Nat → Fib → Except PoptrieFault Fib
  | 0, _, _, _, _ => .error .outOfFuel
  | fuel + 1, rib, nodeIndex, default, f => do
    let f ← f.setNode nodeIndex fun node =>
      { node with base0 := f.leafBase % 2 ^ 32, base1 := f.nodeBase % 2 ^ 32 }
    let table := collect (self.map 6 rib)
    let (f, _) ← (List.range 64).foldlM (leafStep c table default nodeIndex) (f, none)
    let (f, childNodes) ← (List.range 64).foldlM (allocateStep c table) (f, fun _ => 0)
    (List.range 64).foldlM (fun f index =>
      if (table index).2.present then do
        let f ← f.setNode nodeIndex fun node => { node with vector := setBit node.vector index }
        buildNode c self fuel (table index).2 (childNodes index) ((table index).1.or default) f
      else .ok f) f

/-! ## What is built -/

/-- The place of the child for a bit. -/
def childIndex (node : PoptrieNode) (v : Nat) : Nat := node.base1 + rank node.vector (v + 1) - 1

/-- The place of the leaf for a bit. -/
def leafIndex (node : PoptrieNode) (v : Nat) : Nat := node.base0 + rank node.leafvec (v + 1) - 1

/-- The node and what is reached from it stand for a part of the RIB and a default. What is below
the node is from `lo` on and before `hi`, and the leaves are before `leafEnd`. -/
inductive Compiled (nodes : Nat → PoptrieNode) (leaves : Nat → Nat) (leafEnd lo hi : Nat) :
    Nat → Rib → Option Nat → Prop
  | intro (idx : Nat) (rib : Rib) (default : Option Nat)
    (vector : ∀ p, p.length = 6 →
      (nodes idx).vector.getLsbD (index p) = (rib.walk p).hasChildren)
    (within : ∀ p, p.length = 6 → (rib.walk p).hasChildren →
      lo ≤ childIndex (nodes idx) (index p) ∧ childIndex (nodes idx) (index p) < hi)
    (child : ∀ p, p.length = 6 → (rib.walk p).hasChildren →
      Compiled nodes leaves leafEnd lo hi (childIndex (nodes idx) (index p)) (rib.walk p)
        (rib.best default p))
    (leaf : ∀ p, p.length = 6 → (rib.walk p).hasChildren = false →
      0 < rank (nodes idx).leafvec (index p + 1) ∧ leafIndex (nodes idx) (index p) < leafEnd ∧
        leaves (leafIndex (nodes idx) (index p)) = (rib.best default p).getD 0) :
    Compiled nodes leaves leafEnd lo hi idx rib default

variable {rib self : Rib} {k base : Nat} {slots : List (Nat × Option Nat × Rib)}

/-- **What is built stays** when other nodes change and leaves are added. -/
theorem Compiled.frame {nodes nodes' : Nat → PoptrieNode} {leaves leaves' : Nat → Nat}
    {leafEnd leafEnd' lo lo' hi hi' idx : Nat} {default : Option Nat}
    (h : Compiled nodes leaves leafEnd lo hi idx rib default)
    (hnodes : ∀ i, i = idx ∨ lo ≤ i ∧ i < hi → nodes' i = nodes i)
    (hleaves : ∀ i < leafEnd, leaves' i = leaves i) (hend : leafEnd ≤ leafEnd') (hlo : lo' ≤ lo)
    (hhi : hi ≤ hi') : Compiled nodes' leaves' leafEnd' lo' hi' idx rib default := by
  induction h with
  | intro idx rib default vector within child leaf ih =>
    have hidx := hnodes idx (.inl rfl)
    refine .intro idx rib default ?_ ?_ ?_ ?_
    · intro p hp
      rw [hidx]
      exact vector p hp
    · intro p hp hchildren
      have hbounds := within p hp hchildren
      rw [hidx]
      omega
    · intro p hp hchildren
      have hbounds := within p hp hchildren
      rw [hidx]
      refine ih p hp hchildren fun i hi => hnodes i ?_
      rcases hi with rfl | hi
      · exact .inr hbounds
      · exact .inr hi
    · intro p hp hchildren
      obtain ⟨hpos, hlt, hvalue⟩ := leaf p hp hchildren
      rw [hidx, hleaves _ hlt]
      exact ⟨hpos, hlt.trans_le hend, hvalue⟩

/-! ## Allocations -/

/-- The arrays have room for what is in use and are zero behind that, and they can be made. -/
structure Ready (c : PoptrieConfig) (f : Fib) : Prop where
  leafBase : f.leafBase ≤ f.numLeaves
  nodeBase : f.nodeBase ≤ f.numNodes
  numLeaves : 0 < f.numLeaves
  numNodes : 0 < f.numNodes
  leafBytes : f.numLeaves * c.leafType.bytes < 2 ^ 31
  nodeBytes : f.numNodes * 24 < 2 ^ 31
  leaves : ∀ i, f.leafBase ≤ i → f.leaves i = 0
  nodes : ∀ i, f.nodeBase ≤ i → f.nodes i = zeroNode

variable {c : PoptrieConfig} {f : Fib}

section

variable (h : Ready c f)
include h

theorem Ready.leafBase_lt : f.leafBase < 2 ^ 31 := by
  have hbytes : 0 < c.leafType.bytes := by cases c.leafType <;> decide
  have hle := Nat.le_mul_of_pos_right f.numLeaves hbytes
  have hbase := h.leafBase
  have hsmall := h.leafBytes
  omega

theorem Ready.nodeBase_lt : f.nodeBase < 2 ^ 31 := by
  have hbase := h.nodeBase
  have hsmall := h.nodeBytes
  omega

theorem growLeavesLoop_spec :
    Outcome (· = .tooLarge) (fun f' => ∃ n, f' = { f with numLeaves := n } ∧ f.leafBase < n ∧
      Ready c f') (growLeavesLoop c 31 f) := by
  rw [growLeavesLoop]
  split
  · next hfull =>
    unfold growLeaves
    split
    · next hbytes =>
      have hlt : f.leafBase < f.numLeaves * 2 := by
        have hle := h.leafBase
        have hpos := h.numLeaves
        omega
      have hsame : (fun i => if i < f.numLeaves then f.leaves i else 0) = f.leaves := by
        funext i
        split
        · rfl
        · next hge => exact (h.leaves i (by have := h.leafBase; omega)).symm
      have hroom : ¬ f.numLeaves * 2 ≤ f.leafBase := Nat.not_le.mpr hlt
      show Outcome _ _ (growLeavesLoop c 30 _)
      rw [growLeavesLoop, hsame, if_neg hroom]
      exact ⟨f.numLeaves * 2, rfl, hlt, { h with
        leafBase := hlt.le
        numLeaves := Nat.mul_pos h.numLeaves (by decide)
        leafBytes := hbytes }⟩
    · rfl
  · next hroom => exact ⟨f.numLeaves, rfl, Nat.lt_of_not_le hroom, h⟩

/-- **A new leaf**. -/
theorem allocateLeaf_spec :
    Outcome (· = .tooLarge) (fun r => r.1 = f.leafBase ∧ ∃ n, f.leafBase < n ∧
      r.2 = { f with numLeaves := n, leafBase := f.leafBase + 1 } ∧ Ready c r.2)
      (f.allocateLeaf c) := by
  refine (growLeavesLoop_spec h).bind fun f' hf' => ?_
  obtain ⟨n, rfl, hlt, hready⟩ := hf'
  exact ⟨rfl, n, hlt, rfl, { hready with
    leafBase := hlt
    leaves := fun i hi => hready.leaves i (Nat.le_of_succ_le hi) }⟩

theorem growNodesLoop_spec :
    Outcome (· = .tooLarge) (fun f' => ∃ n, f' = { f with numNodes := n } ∧ f.nodeBase < n ∧
      Ready c f') (growNodesLoop 31 f) := by
  rw [growNodesLoop]
  split
  · next hfull =>
    unfold growNodes
    split
    · next hbytes =>
      have hlt : f.nodeBase < f.numNodes * 2 := by
        have hle := h.nodeBase
        have hpos := h.numNodes
        omega
      have hsame : (fun i => if i < f.numNodes then f.nodes i else zeroNode) = f.nodes := by
        funext i
        split
        · rfl
        · next hge => exact (h.nodes i (by have := h.nodeBase; omega)).symm
      have hroom : ¬ f.numNodes * 2 ≤ f.nodeBase := Nat.not_le.mpr hlt
      show Outcome _ _ (growNodesLoop 30 _)
      rw [growNodesLoop, hsame, if_neg hroom]
      exact ⟨f.numNodes * 2, rfl, hlt, { h with
        nodeBase := hlt.le
        numNodes := Nat.mul_pos h.numNodes (by decide)
        nodeBytes := hbytes }⟩
    · rfl
  · next hroom => exact ⟨f.numNodes, rfl, Nat.lt_of_not_le hroom, h⟩

/-- **A new node**; there cannot be so many that the assertion fails. -/
theorem allocateNode_spec :
    Outcome (· = .tooLarge) (fun r => r.1 = f.nodeBase ∧ ∃ n, f.nodeBase < n ∧
      r.2 = { f with numNodes := n, nodeBase := f.nodeBase + 1 } ∧ Ready c r.2)
      (f.allocateNode c) := by
  have htag : ¬ (c.directPointing = true ∧ f.nodeBase / 2 ^ 31 % 2 ≠ 0) := by
    rw [Nat.div_eq_of_lt h.nodeBase_lt]
    simp
  rw [allocateNode, if_neg htag]
  refine (growNodesLoop_spec h).bind fun f' hf' => ?_
  obtain ⟨n, rfl, hlt, hready⟩ := hf'
  exact ⟨rfl, n, hlt, rfl, { hready with
    nodeBase := hlt
    nodes := fun i hi => hready.nodes i (Nat.le_of_succ_le hi) }⟩

theorem setNode_spec {idx : Nat} (hidx : idx < f.nodeBase) (g : PoptrieNode → PoptrieNode) :
    Outcome (· = .tooLarge) (fun f' => f' = { f with
      nodes := update f.nodes idx (g (f.nodes idx)) } ∧ Ready c f') (f.setNode idx g) := by
  rw [setNode, if_pos (hidx.trans_le h.nodeBase)]
  refine ⟨rfl, { h with nodes := fun i hi => ?_ }⟩
  have hle : f.nodeBase ≤ i := hi
  exact (update_of_ne (by omega) _ _).trans (h.nodes i hle)

end

/-! ## The leaves of a node -/

variable {table : Nat → Option Nat × Rib} {default : Option Nat} {idx : Nat} {f₀ : Fib}

/-- The leaf for a bit. -/
def leafValue (table : Nat → Option Nat × Rib) (default : Option Nat) (v : Nat) : Nat :=
  ((table v).1.or default).getD 0

/-- The leaves for the first `k` bits are there; `f₀` is what the loop began with. -/
structure LeavesDone (c : PoptrieConfig) (table : Nat → Option Nat × Rib) (default : Option Nat)
    (idx : Nat) (f₀ : Fib) (k : Nat) (s : Fib × Option Nat) : Prop where
  ready : Ready c s.1
  others : ∀ i, i ≠ idx → s.1.nodes i = f₀.nodes i
  vector : (s.1.nodes idx).vector = (f₀.nodes idx).vector
  base0 : (s.1.nodes idx).base0 = (f₀.nodes idx).base0
  base1 : (s.1.nodes idx).base1 = (f₀.nodes idx).base1
  nodeBase : s.1.nodeBase = f₀.nodeBase
  leafBase : s.1.leafBase = f₀.leafBase + rank (s.1.nodes idx).leafvec k
  above : ∀ i, k ≤ i → (s.1.nodes idx).leafvec.getLsbD i = false
  old : ∀ i < f₀.leafBase, s.1.leaves i = f₀.leaves i
  last : ∀ value, s.2 = some value →
    0 < rank (s.1.nodes idx).leafvec k ∧ s.1.leaves (s.1.leafBase - 1) = value
  value : ∀ v < k, (table v).2.present = false →
    0 < rank (s.1.nodes idx).leafvec (v + 1) ∧
      s.1.leaves (f₀.leafBase + rank (s.1.nodes idx).leafvec (v + 1) - 1) =
        leafValue table default v

variable {s : Fib × Option Nat}

theorem LeavesDone.skip (h : LeavesDone c table default idx f₀ k s)
    (hk : (table k).2.present ∨ s.2 = some (leafValue table default k)) :
    LeavesDone c table default idx f₀ (k + 1) s := by
  have hrank : rank (s.1.nodes idx).leafvec (k + 1) = rank (s.1.nodes idx).leafvec k := by
    rw [rank_succ, h.above k le_rfl, Bool.toNat_false, Nat.add_zero]
  refine { h with
    leafBase := by rw [hrank, h.leafBase]
    above := fun i hi => h.above i (Nat.le_of_succ_le hi)
    last := by rw [hrank]; exact h.last
    value := fun v hv hleaf => ?_ }
  rcases Nat.lt_succ_iff_lt_or_eq.mp hv with hv | rfl
  · exact h.value v hv hleaf
  · rcases hk with hchild | hlast
    · rw [hleaf] at hchild
      cases hchild
    · obtain ⟨hpos, hvalue⟩ := h.last _ hlast
      rw [hrank, ← h.leafBase]
      exact ⟨hpos, hvalue⟩

/-- **One bit**: its leaf is the last one, or a new one. -/
theorem leafStep_spec (hk : k < 64) (hidx : idx < f₀.nodeBase)
    (hsmall : leafValue table default k < 2 ^ 16) (h : LeavesDone c table default idx f₀ k s) :
    Outcome (· = .tooLarge) (LeavesDone c table default idx f₀ (k + 1))
      (leafStep c table default idx s k) := by
  rw [leafStep]
  split
  · next hchild => exact h.skip (.inl hchild)
  next hleaf =>
  show Outcome _ _ (if s.2 = some (leafValue table default k) then _ else _)
  split
  · next hlast => exact h.skip (.inr hlast)
  obtain ⟨f, last⟩ := s
  have hidx' : idx < f.nodeBase := by rwa [← h.nodeBase] at hidx
  refine (setNode_spec h.ready hidx' _).bind fun f' hf' => ?_
  obtain ⟨rfl, hready'⟩ := hf'
  refine (allocateLeaf_spec hready').bind fun r hr => ?_
  obtain ⟨i, f'⟩ := r
  obtain ⟨hi, n, hn, hf', hready⟩ := hr
  have hf' : f' = { f with
      nodes := update f.nodes idx
        { f.nodes idx with leafvec := setBit (f.nodes idx).leafvec k }
      numLeaves := n
      leafBase := f.leafBase + 1 } := hf'
  subst hi hf'
  have hbytes : 2 ^ 16 ≤ 2 ^ (8 * c.leafType.bytes) := by
    cases c.leafType <;> decide
  have hmod : leafValue table default k % 2 ^ (8 * c.leafType.bytes) = leafValue table default k :=
    Nat.mod_eq_of_lt (hsmall.trans_le hbytes)
  show Outcome _ _ ((setLeaf c _ f.leafBase (leafValue table default k)).bind _)
  rw [setLeaf, if_pos hn, hmod]
  -- the vector has one bit more, above all others
  have hset {v : Nat} hv : rank (setBit (f.nodes idx).leafvec k) v =
      rank (f.nodes idx).leafvec v := rank_setBit_of_le hk hv
  have hnext : rank (setBit (f.nodes idx).leafvec k) (k + 1) =
      rank (f.nodes idx).leafvec k + 1 := by
    rw [rank_succ, hset le_rfl, getLsbD_setBit hk, decide_eq_true rfl, Bool.or_true,
      Bool.toNat_true]
  have hbase : f.leafBase = f₀.leafBase + rank (f.nodes idx).leafvec k := h.leafBase
  refine { ready := ?_, others := ?_, vector := ?_, base0 := ?_, base1 := ?_,
           nodeBase := h.nodeBase, leafBase := ?_, above := ?_, old := ?_, last := ?_, value := ?_ }
  · refine { hready with leaves := fun i hi => ?_ }
    have hle : f.leafBase + 1 ≤ i := hi
    exact (update_of_ne (by omega) _ _).trans
      (h.ready.leaves i (Nat.le_of_succ_le hle))
  · intro i hi
    exact (update_of_ne hi _ _).trans (h.others i hi)
  · simpa using h.vector
  · simpa using h.base0
  · simpa using h.base1
  · simp only [update_self, hnext, hbase]
    rfl
  · intro i hi
    simp only [update_self, getLsbD_setBit hk]
    rw [decide_eq_false (by omega), Bool.or_false]
    exact h.above i (by omega)
  · intro i hi
    exact (update_of_ne (by omega) _ _).trans (h.old i hi)
  · intro value hvalue
    simp only [update_self, hnext, Nat.add_sub_cancel]
    exact ⟨Nat.succ_pos _, Option.some.inj hvalue⟩
  · intro v hv hvleaf
    simp only [update_self]
    rcases Nat.lt_succ_iff_lt_or_eq.mp hv with hv | rfl
    · obtain ⟨hpos, hvalue⟩ := h.value v hv hvleaf
      have hv : v + 1 ≤ k := hv
      have hmono := rank_mono (f.nodes idx).leafvec hv
      have hpos : 0 < rank (f.nodes idx).leafvec (v + 1) := hpos
      rw [hset hv, update_of_ne (by omega)]
      exact ⟨hpos, hvalue⟩
    · rw [hnext, show f₀.leafBase + (rank (f.nodes idx).leafvec v + 1) - 1 = f.leafBase by omega,
        update_self]
      exact ⟨Nat.succ_pos _, rfl⟩

/-! ## The children of a node -/

/-- The number of children for the first `k` bits. -/
def childCount (table : Nat → Option Nat × Rib) (k : Nat) : Nat :=
  (List.range k).countP fun v => (table v).2.present

theorem childCount_succ (table : Nat → Option Nat × Rib) (k : Nat) :
    childCount table (k + 1) = childCount table k + (table k).2.present.toNat := by
  rw [childCount, range_succ, countP_append, countP_singleton]
  cases (table k).2.present with
  | false => rfl
  | true => rfl

theorem childCount_mono {v : Nat} (h : v ≤ k) : childCount table v ≤ childCount table k := by
  induction h with
  | refl => exact le_rfl
  | step _ ih =>
    rw [childCount_succ]
    exact ih.trans (Nat.le_add_right _ _)

theorem childCount_lt {v : Nat} (hv : v < k) (hchild : (table v).2.present) :
    childCount table v < childCount table k := by
  have hmono : childCount table (v + 1) ≤ childCount table k := childCount_mono hv
  rw [childCount_succ, hchild, Bool.toNat_true] at hmono
  omega

/-- The children for the first `k` bits have nodes. -/
structure Allocated (c : PoptrieConfig) (table : Nat → Option Nat × Rib) (f₀ : Fib) (k : Nat)
    (s : Fib × (Nat → Nat)) : Prop where
  ready : Ready c s.1
  same : ∃ n, s.1 = { f₀ with numNodes := n, nodeBase := f₀.nodeBase + childCount table k }
  indices : ∀ v < k, (table v).2.present → s.2 v = f₀.nodeBase + childCount table v

theorem allocateStep_spec {s : Fib × (Nat → Nat)} (h : Allocated c table f₀ k s) :
    Outcome (· = .tooLarge) (Allocated c table f₀ (k + 1)) (allocateStep c table s k) := by
  obtain ⟨f, childNodes⟩ := s
  obtain ⟨hready, ⟨n, hf⟩, hindices⟩ := h
  subst hf
  rw [allocateStep]
  split
  · next hchild =>
    refine (allocateNode_spec hready).bind fun r hr => ?_
    obtain ⟨hi, n', -, hf', hready'⟩ := hr
    refine ⟨hready', ⟨n', ?_⟩, fun v hv hvchild => ?_⟩
    · rw [childCount_succ, hchild]
      exact hf'
    · rcases Nat.lt_succ_iff_lt_or_eq.mp hv with hv | rfl
      · exact (update_of_ne hv.ne _ _).trans (hindices v hv hvchild)
      · exact (update_self ..).trans hi
  · next hleaf =>
    have hsame : childCount table (k + 1) = childCount table k := by
      rw [childCount_succ, Bool.eq_false_iff.mpr hleaf, Bool.toNat_false, Nat.add_zero]
    refine ⟨hready, ⟨n, by rw [hsame]⟩, fun v hv hvchild => ?_⟩
    rcases Nat.lt_succ_iff_lt_or_eq.mp hv with hv | rfl
    · exact hindices v hv hvchild
    · exact absurd hvchild hleaf

/-- What `build_node` has made of a node. -/
structure Built (c : PoptrieConfig) (f : Fib) (idx : Nat) (rib : Rib) (default : Option Nat)
    (f' : Fib) : Prop where
  ready : Ready c f'
  leafBase_le : f.leafBase ≤ f'.leafBase
  nodeBase_le : f.nodeBase ≤ f'.nodeBase
  others : ∀ i < f.nodeBase, i ≠ idx → f'.nodes i = f.nodes i
  leaves : ∀ i < f.leafBase, f'.leaves i = f.leaves i
  compiled : Compiled f'.nodes f'.leaves f'.leafBase f.nodeBase f'.nodeBase idx rib default

/-- The children for the first `k` bits are built. `f₀` is what the loop began with, and the
children are the nodes from `base` on. -/
structure ChildrenBuilt (c : PoptrieConfig) (table : Nat → Option Nat × Rib) (default : Option Nat)
    (idx base : Nat) (f₀ : Fib) (k : Nat) (f : Fib) : Prop where
  ready : Ready c f
  leafBase_le : f₀.leafBase ≤ f.leafBase
  nodeBase_le : f₀.nodeBase ≤ f.nodeBase
  leafvec : (f.nodes idx).leafvec = (f₀.nodes idx).leafvec
  base0 : (f.nodes idx).base0 = (f₀.nodes idx).base0
  base1 : (f.nodes idx).base1 = (f₀.nodes idx).base1
  vector : ∀ i, (f.nodes idx).vector.getLsbD i = (decide (i < k) && (table i).2.present)
  others : ∀ i < base, i ≠ idx → f.nodes i = f₀.nodes i
  untouched : ∀ v, k ≤ v → v < 64 → (table v).2.present →
    f.nodes (base + childCount table v) = zeroNode
  leaves : ∀ i < f₀.leafBase, f.leaves i = f₀.leaves i
  compiled : ∀ v < k, (table v).2.present → ∃ lo hi, f₀.nodeBase ≤ lo ∧ hi ≤ f.nodeBase ∧
    Compiled f.nodes f.leaves f.leafBase lo hi (base + childCount table v) (table v).2
      ((table v).1.or default)

theorem ChildrenBuilt.skip (h : ChildrenBuilt c table default idx base f₀ k f)
    (hleaf : (table k).2.present = false) :
    ChildrenBuilt c table default idx base f₀ (k + 1) f := by
  have hlt {v : Nat} (hv : v < k + 1) (hchild : (table v).2.present) : v < k := by
    rcases Nat.lt_succ_iff_lt_or_eq.mp hv with hv | rfl
    · exact hv
    · rw [hleaf] at hchild
      cases hchild
  refine { h with
    vector := fun i => ?_
    untouched := fun v hv => h.untouched v (Nat.le_of_succ_le hv)
    compiled := fun v hv hchild => h.compiled v (hlt hv hchild) hchild }
  rw [h.vector]
  cases hchild : (table i).2.present with
  | false => rw [Bool.and_false, Bool.and_false]
  | true =>
    rw [Bool.and_true, Bool.and_true, decide_eq_decide]
    exact ⟨Nat.lt_succ_of_lt, fun hi => hlt hi hchild⟩

/-- **One child** is built behind everything that was there. -/
theorem ChildrenBuilt.step {build : Fib → Except PoptrieFault Fib} (hk : k < 64) (hidx : idx < base)
    (hbase : f₀.nodeBase = base + childCount table 64)
    (h : ChildrenBuilt c table default idx base f₀ k f) (hchild : (table k).2.present)
    (hbuild : ∀ f, Ready c f → base + childCount table k < f.nodeBase →
      f.nodes (base + childCount table k) = zeroNode →
      Outcome (· = .tooLarge)
        (Built c f (base + childCount table k) (table k).2 ((table k).1.or default)) (build f)) :
    Outcome (· = .tooLarge) (ChildrenBuilt c table default idx base f₀ (k + 1))
      (f.setNode idx (fun node => { node with vector := setBit node.vector k }) >>= build) := by
  have hcount := childCount_lt hk hchild
  have hle := h.nodeBase_le
  refine (setNode_spec h.ready (by omega) _).bind fun f₁ hf₁ => ?_
  obtain ⟨hf₁, hready₁⟩ := hf₁
  have hnodes₁ i (hi : i ≠ idx) : f₁.nodes i = f.nodes i := by
    rw [hf₁]
    exact update_of_ne hi _ _
  have hidx₁ : f₁.nodes idx =
      { f.nodes idx with vector := setBit (f.nodes idx).vector k } := by
    rw [hf₁]
    exact update_self ..
  have hnodeBase₁ : f₁.nodeBase = f.nodeBase := by rw [hf₁]
  have hleafBase₁ : f₁.leafBase = f.leafBase := by rw [hf₁]
  have hleaves₁ : f₁.leaves = f.leaves := by rw [hf₁]
  refine (hbuild f₁ hready₁ (by omega) ?_).mono fun f₂ hf₂ => ?_
  · rw [hnodes₁ _ (by omega)]
    exact h.untouched k le_rfl hk hchild
  have hothers i (hi : i < f.nodeBase) (hne : i ≠ idx)
      (hne' : i ≠ base + childCount table k) : f₂.nodes i = f.nodes i := by
    rw [hf₂.others i (by omega) hne', hnodes₁ i hne]
  have hidx₂ : f₂.nodes idx =
      { f.nodes idx with vector := setBit (f.nodes idx).vector k } := by
    rw [hf₂.others idx (by omega) (by omega), hidx₁]
  have hleafBase₂ := hf₂.leafBase_le
  have hnodeBase₂ := hf₂.nodeBase_le
  rw [hleafBase₁] at hleafBase₂
  rw [hnodeBase₁] at hnodeBase₂
  have hleaves₂ i (hi : i < f.leafBase) : f₂.leaves i = f.leaves i := by
    rw [hf₂.leaves i (by omega), hleaves₁]
  refine { ready := hf₂.ready, leafBase_le := h.leafBase_le.trans hleafBase₂,
           nodeBase_le := hle.trans hnodeBase₂, leafvec := by rw [hidx₂]; exact h.leafvec,
           base0 := by rw [hidx₂]; exact h.base0, base1 := by rw [hidx₂]; exact h.base1,
           vector := ?_, others := ?_, untouched := ?_, leaves := ?_, compiled := ?_ }
  · intro i
    rw [hidx₂]
    rw [getLsbD_setBit hk, h.vector]
    rcases Nat.lt_trichotomy i k with hlt | rfl | hgt
    · simp [hlt, hlt.ne, Nat.lt_succ_of_lt hlt]
    · simp [hchild]
    · simp [hgt.ne', Nat.not_lt.mpr hgt.le, Nat.not_lt.mpr (Nat.succ_le_of_lt hgt)]
  · intro i hi hne
    rw [hothers i (by omega) hne (by omega)]
    exact h.others i hi hne
  · intro v hv hv64 hvchild
    have hlt : childCount table k < childCount table v := childCount_lt hv hchild
    have hlt64 := childCount_lt hv64 hvchild
    rw [hothers _ (by omega) (by omega) (by omega)]
    exact h.untouched v (Nat.le_of_succ_le hv) hv64 hvchild
  · intro i hi
    have hleafBase := h.leafBase_le
    rw [hleaves₂ i (by omega)]
    exact h.leaves i hi
  · intro v hv hvchild
    rcases Nat.lt_succ_iff_lt_or_eq.mp hv with hv | rfl
    · -- the nodes of the children before are not touched
      obtain ⟨lo, hi, hlo, hhi, hcompiled⟩ := h.compiled v hv hvchild
      have hlt := childCount_lt hv hvchild
      refine ⟨lo, hi, hlo, hhi.trans hnodeBase₂, hcompiled.frame (fun i hi' => ?_)
        (fun i hi' => hleaves₂ i hi') hleafBase₂ le_rfl le_rfl⟩
      exact hothers i (by omega) (by omega) (by omega)
    · refine ⟨f₁.nodeBase, f₂.nodeBase, by omega, le_rfl, hf₂.compiled⟩

/-! ## A node -/

theorem foldl_update_of_notMem (hk : k ∉ slots.map Prod.fst) :
    slots.foldl (fun table e => update table e.1 e.2) table k = table k := by
  induction slots generalizing table with
  | nil => rfl
  | cons e slots ih =>
    rw [map_cons, mem_cons, not_or] at hk
    rw [foldl_cons, ih hk.2, update_of_ne hk.1]

theorem foldl_update_of_mem {e : Nat × Option Nat × Rib} (hnodup : (slots.map Prod.fst).Nodup)
    (he : e ∈ slots) : slots.foldl (fun table e => update table e.1 e.2) table e.1 = e.2 := by
  induction slots generalizing table with
  | nil => cases he
  | cons head slots ih =>
    rw [map_cons, nodup_cons] at hnodup
    rw [foldl_cons]
    rcases mem_cons.mp he with rfl | he
    · rw [foldl_update_of_notMem hnodup.1, update_self]
    · exact ih hnodup.2 he

theorem collect_map (hroot : rib.present = false → self = rib) {p : List Bool} (hp : p.length = 6) :
    collect (self.map 6 rib) (index p) = (rib.best none p, Rib.below (rib.walk p)) := by
  rw [Rib.map_eq self rib 6 hroot]
  refine foldl_update_of_mem (e := (index p, rib.best none p, Rib.below (rib.walk p))) ?_ ?_
  · rw [map_map]
    exact nodup_index_paths 6
  · exact mem_map.mpr ⟨p, mem_paths.mpr hp, rfl⟩

theorem rank_eq_childCount {v : BitVec 64}
    (h : ∀ i < k, v.getLsbD i = (table i).2.present) : rank v k = childCount table k := by
  refine countP_congr fun i hi => ?_
  rw [h i (mem_range.mp hi)]

/-- **Building a node**: it stands for the part of the RIB it is built for. The build only raises
when an array cannot be made. -/
theorem buildNode_spec (fuel : Nat) (hheight : rib.height < fuel)
    (hroot : rib.present = false → self = rib) (hsmall : rib.Small)
    (hdefault : ∀ v, default = some v → v < 2 ^ 16) (hready : Ready c f) (hidx : idx < f.nodeBase)
    (hzero : f.nodes idx = zeroNode) :
    Outcome (· = .tooLarge) (Built c f idx rib default)
      (buildNode c self fuel rib idx default f) := by
  induction fuel generalizing rib default f idx with
  | zero => cases hheight
  | succ fuel ih =>
  obtain ⟨table, htable⟩ : ∃ table, table = collect (self.map 6 rib) := ⟨_, rfl⟩
  have hslot (p : List Bool) (hp : p.length = 6) :
      table (index p) = (rib.best none p, Rib.below (rib.walk p)) := by
    rw [htable, collect_map hroot hp]
  have hchildren (p : List Bool) (hp : p.length = 6) :
      (table (index p)).2.present = (rib.walk p).hasChildren := by
    rw [hslot p hp, Rib.present_below]
  have hvalue (p : List Bool) (hp : p.length = 6) :
      (table (index p)).1.or default = rib.best default p := by
    rw [hslot p hp, best_eq_or rib default]
  have hleafValue (p : List Bool) (hp : p.length = 6) :
      leafValue table default (index p) = (rib.best default p).getD 0 := by
    rw [leafValue, hvalue p hp]
  have hpath (v : Nat) (hv : v < 64) : ∃ p, p.length = 6 ∧ index p = v := by
    obtain ⟨p, hp, hpv⟩ := exists_index (n := 6) hv
    exact ⟨p, mem_paths.mp hp, hpv⟩
  have hleafSmall (v : Nat) (hv : v < 64) : leafValue table default v < 2 ^ 16 := by
    obtain ⟨p, hp, rfl⟩ := hpath v hv
    rw [hleafValue p hp]
    cases hbest : rib.best default p with
    | none => exact Nat.two_pow_pos 16
    | some v => exact hsmall.best hdefault p v hbest
  refine (setNode_spec hready hidx _).bind fun f₁ hf₁ => ?_
  obtain ⟨hf₁, hready₁⟩ := hf₁
  rw [← htable]
  have hidx₁ : f₁.nodes idx = ⟨0, 0, f.leafBase, f.nodeBase⟩ := by
    have hleafBase := hready.leafBase_lt
    have hnodeBase := hready.nodeBase_lt
    rw [hf₁]
    simp only [update_self, hzero, zeroNode]
    rw [Nat.mod_eq_of_lt (by omega), Nat.mod_eq_of_lt (by omega)]
  have hnodes₁ (i : Nat) (hi : i ≠ idx) : f₁.nodes i = f.nodes i := by
    rw [hf₁]
    exact update_of_ne hi _ _
  have hnodeBase₁ : f₁.nodeBase = f.nodeBase := by rw [hf₁]
  have hleafBase₁ : f₁.leafBase = f.leafBase := by rw [hf₁]
  have hleaves₁ : f₁.leaves = f.leaves := by rw [hf₁]
  -- the leaves
  have hinit₁ : LeavesDone c table default idx f₁ 0 (f₁, none) := by
    refine { ready := hready₁, others := fun _ _ => rfl, vector := rfl, base0 := rfl, base1 := rfl,
             nodeBase := rfl, leafBase := rfl, above := fun i _ => ?_, old := fun _ _ => rfl,
             last := nofun, value := nofun }
    rw [hidx₁]
    exact BitVec.getLsbD_zero
  refine (outcome_foldlM_range (I := LeavesDone c table default idx f₁) hinit₁
    fun k hk s hs => leafStep_spec hk (by omega) (hleafSmall k hk) hs).bind fun r hr => ?_
  obtain ⟨f₂, last⟩ := r
  have hr₂ : LeavesDone c table default idx f₁ 64 (f₂, last) := hr
  have hnodeBase₂ : f₂.nodeBase = f.nodeBase := hr₂.nodeBase.trans hnodeBase₁
  -- the nodes of the children
  have hinit₂ : Allocated c table f₂ 0 (f₂, fun _ => 0) :=
    ⟨hr₂.ready, ⟨f₂.numNodes, rfl⟩, nofun⟩
  refine (outcome_foldlM_range (I := Allocated c table f₂) hinit₂
    fun k _ s hs => allocateStep_spec hs).bind fun r hr => ?_
  obtain ⟨f₃, childNodes⟩ := r
  obtain ⟨hready₃, ⟨n, hf₃⟩, hindices⟩ := hr
  have hf₃ : f₃ = { f₂ with numNodes := n, nodeBase := f₂.nodeBase + childCount table 64 } := hf₃
  have hindices (v : Nat) (hv : v < 64) (hchild : (table v).2.present) :
      childNodes v = f₂.nodeBase + childCount table v := hindices v hv hchild
  have hnodes₃ : f₃.nodes = f₂.nodes := by rw [hf₃]
  have hnodeBase₃ : f₃.nodeBase = f₂.nodeBase + childCount table 64 := by rw [hf₃]
  have hleafBase₃ : f₃.leafBase = f₂.leafBase := by rw [hf₃]
  have hleaves₃ : f₃.leaves = f₂.leaves := by rw [hf₃]
  have hzero₂ (i : Nat) (hi : f₂.nodeBase ≤ i) : f₃.nodes i = zeroNode := by
    rw [hnodes₃]
    exact hr₂.ready.nodes i hi
  -- the children
  have hinit₃ : ChildrenBuilt c table default idx f₂.nodeBase f₃ 0 f₃ := by
    refine { ready := hready₃, leafBase_le := le_rfl, nodeBase_le := le_rfl, leafvec := rfl,
             base0 := rfl, base1 := rfl, vector := fun i => ?_, others := fun _ _ _ => rfl,
             untouched := fun v _ _ _ => hzero₂ _ (Nat.le_add_right _ _),
             leaves := fun _ _ => rfl, compiled := nofun }
    rw [hnodes₃, hr₂.vector, hidx₁]
    exact BitVec.getLsbD_zero
  refine (outcome_foldlM_range (I := ChildrenBuilt c table default idx f₂.nodeBase f₃) hinit₃
    fun k hk s hs => ?_).mono fun f₄ hf₄ => ?_
  · split
    · next hchild =>
      rw [hindices k hk hchild]
      refine hs.step hk (by omega) hnodeBase₃ hchild fun f hf hlt hz => ?_
      obtain ⟨p, hp, rfl⟩ := hpath k hk
      have hhas : (rib.walk p).hasChildren := by rw [← hchildren p hp, hchild]
      have hwalk : (table (index p)).2 = rib.walk p := by
        rw [hslot p hp, Rib.below_of_hasChildren hhas]
      have hpresent := present_of_hasChildren hhas
      have hlow := height_walk hpresent
      rw [hwalk, hvalue p hp]
      refine ih (by omega) (fun habsent => ?_) (hsmall.walk p) (hsmall.best hdefault p) hf hlt hz
      rw [hpresent] at habsent
      cases habsent
    · next hleaf => exact hs.skip (Bool.eq_false_iff.mpr hleaf)
  -- the node has its leaves and its children
  have hbase0 : (f₄.nodes idx).base0 = f.leafBase := by
    rw [hf₄.base0, hnodes₃, hr₂.base0, hidx₁]
  have hbase1 : (f₄.nodes idx).base1 = f.nodeBase := by
    rw [hf₄.base1, hnodes₃, hr₂.base1, hidx₁]
  have hleafvec : (f₄.nodes idx).leafvec = (f₂.nodes idx).leafvec := by
    rw [hf₄.leafvec, hnodes₃]
  have hvector (v : Nat) (hv : v < 64) :
      (f₄.nodes idx).vector.getLsbD v = (table v).2.present := by
    rw [hf₄.vector, decide_eq_true hv, Bool.true_and]
  have hchildIndex (v : Nat) (hv : v < 64) (hchild : (table v).2.present) :
      childIndex (f₄.nodes idx) v = f₂.nodeBase + childCount table v := by
    have hrank : rank (f₄.nodes idx).vector (v + 1) = childCount table (v + 1) :=
      rank_eq_childCount fun i hi => hvector i (by omega)
    rw [childIndex, hrank, childCount_succ, hchild, Bool.toNat_true]
    omega
  have hleafBase₂ : f₂.leafBase = f.leafBase + rank (f₂.nodes idx).leafvec 64 := by
    rw [← hleafBase₁]
    exact hr₂.leafBase
  have hlt (p : List Bool) (hp : p.length = 6) : index p < 64 := by
    have hlt := index_lt p
    rwa [hp] at hlt
  have hleafBase₄ := hf₄.leafBase_le
  have hnodeBase₄ := hf₄.nodeBase_le
  have hleaves₄ (i : Nat) (hi : i < f₂.leafBase) : f₄.leaves i = f₂.leaves i := by
    rw [hf₄.leaves i (by omega), hleaves₃]
  refine { ready := hf₄.ready, leafBase_le := by omega, nodeBase_le := by omega, others := ?_,
           leaves := ?_, compiled := .intro idx rib default ?_ ?_ ?_ ?_ }
  · intro i hi hne
    rw [hf₄.others i (by omega) hne, hnodes₃, hr₂.others i hne, hnodes₁ i hne]
  · intro i hi
    rw [hleaves₄ i (by omega), hr₂.old i (by omega), hleaves₁]
  · intro p hp
    rw [hvector _ (hlt p hp), hchildren p hp]
  · intro p hp hhas
    have hchild : (table (index p)).2.present := by rw [hchildren p hp, hhas]
    have hcount := childCount_lt (hlt p hp) hchild
    rw [hchildIndex _ (hlt p hp) hchild]
    omega
  · intro p hp hhas
    have hchild : (table (index p)).2.present := by rw [hchildren p hp, hhas]
    obtain ⟨lo, hi, hlo, hhi, hcompiled⟩ := hf₄.compiled _ (hlt p hp) hchild
    rw [hvalue p hp, hslot p hp, Rib.below_of_hasChildren hhas] at hcompiled
    rw [hchildIndex _ (hlt p hp) hchild]
    exact hcompiled.frame (fun _ _ => rfl) (fun _ _ => rfl) le_rfl (by omega) hhi
  · intro p hp hhas
    have hleaf : (table (index p)).2.present = false := by rw [hchildren p hp, hhas]
    obtain ⟨hpos, hleaves⟩ := hr₂.value _ (hlt p hp) hleaf
    have hpos : 0 < rank (f₂.nodes idx).leafvec (index p + 1) := hpos
    have hmono := rank_mono (f₂.nodes idx).leafvec (show index p + 1 ≤ 64 from hlt p hp)
    have hleaves : f₂.leaves (f.leafBase + rank (f₂.nodes idx).leafvec (index p + 1) - 1) =
        leafValue table default (index p) := by
      rw [← hleafBase₁]
      exact hleaves
    rw [leafIndex, hbase0, hleafvec, hleaves₄ _ (by omega), hleaves, hleafValue p hp]
    exact ⟨hpos, by omega, rfl⟩

end Fib

end Snabb
