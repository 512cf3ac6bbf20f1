import Snabb.Foundation.PathTree
import Snabb.Foundation.Run
import Mathlib.Data.List.Find
import Mathlib.Logic.Function.Basic

/-!
# The prefix trie (`lib/lpm/lpm4_trie.lua`, `lib/lpm/ip4.lua`, `lib/lpm/lpm.lua`)

A trie is an array of nodes. A node has a prefix, a key, which is 0 for none, and the indexes of
two subtrees, which are 0 for none; node 0 is the root. Nodes come from the allocator of
`LPM:alloc`: a stack of freed indexes, then the indexes not used so far. When these are used up
the allocator moves the array to a larger one, but `get_node` writes to the array it has read
before: outside of it.
-/

namespace Snabb

open Foundation BitVec

/-- What must not happen. -/
inductive LpmFault where
  /-- An access outside an array. -/
  | outOfBounds (index : Nat)
  /-- An `assert` without a message. -/
  | assertion
  /-- A loop that does not end. -/
  | loops
  /-- A write through the null pointer that `malloc` has returned. -/
  | outOfMemory
deriving DecidableEq, Repr

/-! ## Addresses -/

namespace Ip4

/-- `get_bit`. -/
def getBit (ip : BitVec 32) (offset : Nat) : Except LpmFault Bool :=
  if offset < 32 then .ok ((ip >>> (31 - offset)).getLsbD 0) else .error .assertion

/-- The array of masks of `masked`. -/
def maskOf (length : Nat) : BitVec 32 :=
  if length = 0 then 0 else ~~~(BitVec.ofNat 32 (2 ^ (32 - length) - 1))

/-- `masked`. -/
def masked (ip : BitVec 32) (length : Nat) : BitVec 32 := ip &&& maskOf length

/-- `commonlength`. -/
def commonlength (ip1 ip2 : BitVec 32) : Nat :=
  ((List.range 32).find? fun i => ((ip1 ^^^ ip2) >>> (31 - i)).getLsbD 0).getD 32

theorem getBit_ok {ip : BitVec 32} {offset : Nat} (h : offset < 32) :
    getBit ip offset = .ok (ip.getMsbD offset) := by
  rw [getBit, if_pos h, getLsbD_ushiftRight, getMsbD_eq_getLsbD, decide_eq_true h,
    Bool.true_and, Nat.add_zero]

theorem masked_eq {ip : BitVec 32} {length : Nat} (h : length ≤ 32) :
    masked ip length = keep length ip := by
  refine eq_of_getMsbD_eq fun i hi => ?_
  rw [getMsbD_keep, masked, getMsbD_and, Bool.and_comm]
  congr 1
  rw [maskOf]
  split_ifs with hzero
  · rw [decide_eq_false (by omega)]
    simp
  · rw [getMsbD_not, getMsbD_eq_getLsbD, getLsbD_ofNat,
      Nat.testBit_two_pow_sub_one, decide_eq_true hi, decide_eq_true (show 32 - 1 - i < 32 by omega)]
    simp only [Bool.true_and, ← decide_not, decide_eq_decide]
    omega

theorem commonlength_eq (ip1 ip2 : BitVec 32) : commonlength ip1 ip2 = commonBits ip1 ip2 := by
  refine congrArg (Option.getD · 32) (List.find?_congr fun i hi => ?_)
  rw [getLsbD_ushiftRight, getMsbD_eq_getLsbD,
    decide_eq_true (List.mem_range.mp hi), Bool.true_and, Nat.add_zero]

end Ip4

/-! ## The allocator -/

/-- The state of `LPM:alloc` for one array: its length, the last index handed out, and the
indexes that were freed, the latest first. -/
structure LpmHeap where
  count : Nat
  idx : Nat
  heap : List Nat
deriving DecidableEq, Repr

namespace LpmHeap

/-- `_new`: the index, and the allocator afterwards. -/
def new (h : LpmHeap) : Nat × LpmHeap :=
  match h.heap with
  | [] =>
    (h.idx + 1, { h with count := if h.idx + 1 = h.count then h.count * 2 else h.count,
                         idx := h.idx + 1 })
  | i :: heap => (i, { h with heap := heap })

/-- `_free`. -/
def free (h : LpmHeap) (i : Nat) : LpmHeap := { h with heap := i :: h.heap }

/-- How many indexes there are before the array has to grow. -/
def room (h : LpmHeap) : Nat := h.heap.length + (h.count - 1 - h.idx)

end LpmHeap

/-! ## The trie -/

/-- A node of a trie. -/
structure LpmTrieNode where
  ip : BitVec 32
  key : BitVec 32
  length : Nat
  left : Nat
  right : Nat
deriving DecidableEq, Repr

/-- `down[b]`. -/
def LpmTrieNode.down (n : LpmTrieNode) (b : Bool) : Nat := bif b then n.right else n.left

/-- `lpm4.entry`. -/
structure LpmEntry where
  ip : BitVec 32
  key : BitVec 32
  length : Nat
deriving DecidableEq, Repr

/-- `LPM4_trie`: the array, and its allocator. -/
structure LpmTrie where
  nodes : Nat → LpmTrieNode
  alloc : LpmHeap

namespace LpmTrie

/-- `LPM4_trie:new`. -/
def new : LpmTrie := ⟨fun _ => ⟨0, 0, 0, 0, 0⟩, ⟨5000000, 0, []⟩⟩

/-- Write a node. -/
def write (t : LpmTrie) (i : Nat) (n : LpmTrieNode) : LpmTrie :=
  { t with nodes := Function.update t.nodes i n }

/-- `get_node`: `ts` is the array from before the allocation. -/
def getNode (t : LpmTrie) : Except LpmFault (Nat × LpmTrie) :=
  let (i, alloc) := t.alloc.new
  if i < t.alloc.count then
    .ok (i, { nodes := Function.update t.nodes i ⟨0, 0, (t.nodes i).length, 0, 0⟩, alloc := alloc })
  else .error (.outOfBounds i)

/-- `return_node`. -/
def returnNode (t : LpmTrie) (i : Nat) : LpmTrie := { t with alloc := t.alloc.free i }

/-- `set_trie`. -/
def setTrie (t : LpmTrie) (i : Nat) (ip : BitVec 32) (length : Nat) (key : BitVec 32)
    (left right : Nat) : LpmTrie :=
  t.write i ⟨Ip4.masked ip length, key, length, left, right⟩

/-- `ts[i].key = key`. -/
def setKey (t : LpmTrie) (i : Nat) (key : BitVec 32) : LpmTrie :=
  t.write i { t.nodes i with key := key }

/-- `ts[i].down[b] = d`. -/
def setDown (t : LpmTrie) (i : Nat) (b : Bool) (d : Nat) : LpmTrie :=
  t.write i (match b with
    | false => { t.nodes i with left := d }
    | true => { t.nodes i with right := d })

/-- `set_trie(i, ..)` with the contents of node `j`. -/
def copyNode (t : LpmTrie) (i j : Nat) : LpmTrie :=
  let n := t.nodes j
  t.setTrie i n.ip n.length n.key n.left n.right

/-- A path has one node for each length at most. -/
def levels : Nat := 33

/-- Of `LPM4_trie:add`: "A leaf node has been found, that partially matches ip". -/
def addSplit (t : LpmTrie) (ip : BitVec 32) (length : Nat) (key : BitVec 32) (i : Nat) :
    Except LpmFault LpmTrie := do
  let (new, t) ← t.getNode
  let t := t.copyNode new i
  let clength := min (Ip4.commonlength (t.nodes i).ip ip) length
  let t := t.setTrie i ip clength 0 0 0
  if (t.nodes i).length = length then
    let b ← Ip4.getBit (t.nodes new).ip (t.nodes i).length
    let t := t.setKey i key
    return t.setDown i b new
  else
    let b ← Ip4.getBit ip (t.nodes i).length
    let (new2, t) ← t.getNode
    let t := t.setTrie new2 ip length key 0 0
    let t := t.setDown i b new2
    return t.setDown i (!b) new

/-- The loop of `LPM4_trie:add`, at node `i`. -/
def addFrom (ip : BitVec 32) (length : Nat) (key : BitVec 32) :
    Nat → LpmTrie → Nat → Except LpmFault LpmTrie
  | 0, _, _ => .error .loops
  | fuel + 1, t, i =>
    let n := t.nodes i
    if n.ip = ip ∧ n.length = length then
      .ok (t.setTrie i ip length key n.left n.right)
    else if n.ip = ip ∧ length < n.length then do
      let (new, t) ← t.getNode
      let t := t.copyNode new i
      return t.setTrie i ip length key new 0
    else if n.ip = Ip4.masked ip n.length then do
      let b ← Ip4.getBit ip n.length
      if n.down b ≠ 0 then
        addFrom ip length key fuel t (n.down b)
      else
        let (new, t) ← t.getNode
        let t := t.setDown i b new
        return t.setTrie ((t.nodes i).down b) ip length key 0 0
    else t.addSplit ip length key i

/-- `LPM4_trie:add`. -/
def add (t : LpmTrie) (ip : BitVec 32) (length : Nat) (key : BitVec 32) :
    Except LpmFault LpmTrie :=
  addFrom ip length key levels t 0

/-- Pull the subtree at `u` up to node `i`. -/
def pullUp (t : LpmTrie) (i u : Nat) : LpmTrie := (t.copyNode i u).returnNode u

/-- The loop of `LPM4_trie:remove`, at node `i` below `prevt`. -/
def removeFrom (ip : BitVec 32) (length : Nat) :
    Nat → LpmTrie → Nat → Nat → Except LpmFault LpmTrie
  | 0, _, _, _ => .error .loops
  | fuel + 1, t, prevt, i =>
    let n := t.nodes i
    if n.ip = ip ∧ n.length = length then
      if n.left = 0 ∧ n.right = 0 then
        if i = 0 then .ok (t.setKey i 0)
        else if (t.nodes prevt).left = i then .ok ((t.setDown prevt false 0).returnNode i)
        else .ok ((t.setDown prevt true 0).returnNode i)
      else if n.left ≠ 0 ∧ n.right ≠ 0 then .ok (t.setKey i 0)
      else if n.left = 0 then .ok (t.pullUp i n.right)
      else .ok (t.pullUp i n.left)
    else do
      let b ← Ip4.getBit ip n.length
      if n.down b ≠ 0 then removeFrom ip length fuel t i (n.down b) else return t

/-- `LPM4_trie:remove`. -/
def remove (t : LpmTrie) (ip : BitVec 32) (length : Nat) : Except LpmFault LpmTrie :=
  removeFrom ip length levels t 0 0

/-- `traverse`: what it yields from node `i` on. -/
def traverse (t : LpmTrie) : Nat → Nat → Except LpmFault (List LpmEntry)
  | 0, _ => .error .loops
  | fuel + 1, i => do
    let n := t.nodes i
    let own := if n.key ≠ 0 then [⟨n.ip, n.key, n.length⟩] else []
    let left ← (if n.left ≠ 0 then traverse t fuel n.left else .ok [])
    let right ← (if n.right ≠ 0 then traverse t fuel n.right else .ok [])
    return own ++ (left ++ right)

/-- `LPM4_trie:entries`. -/
def entries (t : LpmTrie) : Except LpmFault (List LpmEntry) := t.traverse levels 0

/-- The loop of `LPM4_trie:search_trie`, at node `i`. -/
def searchFrom (t : LpmTrie) (ip : BitVec 32) (length : Nat) (internal : Bool) :
    Nat → Option Nat → Nat → Except LpmFault (Option Nat)
  | 0, _, _ => .error .loops
  | fuel + 1, prevt, i =>
    let n := t.nodes i
    if Ip4.masked n.ip n.length ≠ Ip4.masked ip n.length then .ok prevt
    else if length < n.length then .ok prevt
    -- a node of 32 bits is the result also without a key
    else if n.length = 32 then .ok (some i)
    else do
      let prevt := if n.key ≠ 0 ∨ internal then some i else prevt
      let b ← Ip4.getBit ip n.length
      if n.down b ≠ 0 then searchFrom t ip length internal fuel prevt (n.down b) else return prevt

/-- `LPM4_trie:search_trie`. -/
def searchTrie (t : LpmTrie) (ip : BitVec 32) (length : Nat) (internal : Bool) :
    Except LpmFault (Option Nat) :=
  t.searchFrom ip length internal levels none 0

/-- `LPM4_trie:search_entry`. -/
def searchEntry (t : LpmTrie) (ip : BitVec 32) : Except LpmFault (Option LpmEntry) := do
  let indx ← t.searchTrie ip 32 false
  return indx.map fun i => ⟨(t.nodes i).ip, (t.nodes i).key, (t.nodes i).length⟩

end LpmTrie

end Snabb
