import Snabb.Foundation.Memory
import Snabb.Foundation.Table
import Snabb.Lib.Yang.Heap

/-!
# Lists of a data model (`lib/yang/list.lua`, `List`)

A list is a hash trie over the keys of its entries, threaded with a doubly linked list. Nodes,
leaves and strings are objects of one heap, named by their offsets. A node has 16 children, and a
key takes 4 bits of its hash at each level; when the 32 bits are used up, it is hashed again with
the next seed.

An object of a wrong type, or one that was freed, cannot be read: `notAnObject` stands for what
the code would read there. `insert_leaf` calls itself for as long as two keys have the same hash,
and the depth of the stack is a parameter. So is the hash function.
-/

namespace Snabb

open Foundation

/-! ## Fields and values -/

/-- `List:type_kind`, with the size of a `ctype`. -/
inductive FieldKind where
  | string
  | empty
  | ctype (size : Nat)
  | lvalue
deriving DecidableEq, Repr

structure FieldSpec where
  name : String
  kind : FieldKind
  optional : Bool
deriving DecidableEq, Repr

/-- What `List:new` is given: the fields in `field_order`, and `sizeof(leaf_t)`. -/
structure ListSpec where
  keys : List FieldSpec
  members : List FieldSpec
  leafSize : Nat
  leafSize_pos : 0 < leafSize
  keys_nodup : (keys.map FieldSpec.name).Nodup
  members_nodup : (members.map FieldSpec.name).Nodup
  keys_mandatory : ∀ f ∈ keys, f.optional = false

/-- A Lua value other than nil. -/
inductive LuaValue where
  | boolean (b : Bool)
  | object (id : Nat)
deriving DecidableEq, Repr

/-- A value of a field. A `ctype` is the bytes of its representation. -/
inductive YangValue where
  | string (s : List UInt8)
  | empty
  | data (bytes : List UInt8)
  | lvalue (v : LuaValue)
deriving DecidableEq, Repr

/-- The fields of a Lua table. -/
abbrev Entry := String → Option YangValue

/-- The operator `#` finds a border of a table: it may be any. -/
structure LuaLength where
  border : Table Nat LuaValue → Nat
  absent : ∀ t : Table Nat LuaValue, t.lookup (border t + 1) = none
  present : ∀ t : Table Nat LuaValue, border t = 0 ∨ border t ∈ t

/-- What a list depends on: its fields, the hash of data and a seed, the lengths of tables, and
how deep a function may call itself. -/
structure ListConf extends ListSpec where
  hash32 : List UInt8 → Nat → BitVec 32
  lua : LuaLength
  depth : Nat

/-! ## Objects -/

/-- What a field of a struct holds. -/
inductive Cell where
  | str (o : Nat)
  | empty
  | data (bytes : List UInt8)
  | lvalue (idx : Nat)
deriving DecidableEq, Repr

/-- `node_t`. -/
structure ListNode where
  occupied : Nat
  leaf : Nat
  parent : Nat
  children : Nat → Nat

/-- `leaf_t`. A field that is optional may be not present. -/
structure ListLeaf where
  prev : Nat
  next : Nat
  keys : List (Option Cell)
  members : List (Option Cell)
deriving DecidableEq, Repr

inductive ListObject where
  | node (n : ListNode)
  | leaf (l : ListLeaf)
  | str (s : List UInt8)

/-- What a call raises, or where the model cannot go on. -/
inductive ListRaise where
  | heap (fault : HeapFault)
  | missingValue (name : String)
  | nyi
  | badValue
  | duplicate
  | assertion
  | unreachable
  | notAnObject
  | tooDeep
deriving DecidableEq, Repr

/-- A list: its heap with the objects, the ends of the linked list, and the Lua values that
members refer to. -/
structure YangList where
  heap : Heap
  objs : Table Nat ListObject
  first : Nat
  last : Nat
  root : Nat
  length : Nat
  lvalues : String → Table Nat LuaValue

namespace ListNode

def trieWidth : Nat := 4

def hashWidth : Nat := 32

def nodeChildren : Nat := 16

/-- Memory that is allocated is zeroed. -/
def zero : ListNode := ⟨0, 0, 0, fun _ => 0⟩

/-- `List:node_index`. -/
def nodeIndex (d : Nat) (h : BitVec 32) : Nat := (nodeChildren - 1) &&& (h.toNat >>> d)

/-- `List:node_occupied`, asked. -/
def nodeOccupied (node : ListNode) (index : Nat) : Prop := 0 < node.occupied &&& (1 <<< index)

/-- `List:node_leaf`, asked. -/
def nodeLeaf (node : ListNode) (index : Nat) : Prop := 0 < node.leaf &&& (1 <<< index)

instance (node : ListNode) (index : Nat) : Decidable (node.nodeOccupied index) :=
  inferInstanceAs (Decidable (_ < _))

instance (node : ListNode) (index : Nat) : Decidable (node.nodeLeaf index) :=
  inferInstanceAs (Decidable (_ < _))

/-- `bor(bits, lshift(1, index))`, or `band(bits, bnot(lshift(1, index)))`. -/
def setBit (bits index : Nat) (newval : Bool) : Nat :=
  if newval then bits ||| (1 <<< index) else bits &&& ((2 ^ 32 - 1) ^^^ (1 <<< index))

/-- `List:node_occupied`, told. -/
def setOccupied (node : ListNode) (index : Nat) (newval : Bool) : ListNode :=
  { node with occupied := setBit node.occupied index newval }

/-- `List:node_leaf`, told. -/
def setLeaf (node : ListNode) (index : Nat) (newval : Bool) : ListNode :=
  { node with leaf := setBit node.leaf index newval }

def setChild (node : ListNode) (index o : Nat) : ListNode :=
  { node with children := Function.update node.children index o }

/-- `msb_set`: the position of the highest bit, by the exponent of a floating point number. -/
def msbSet (v : Nat) : Nat := v.log2

/-- `List:next_hash_parameters`. -/
def nextHashParameters (d s : Nat) (h : Option (BitVec 32)) : Nat × Nat × Option (BitVec 32) :=
  if d + trieWidth < hashWidth then (d + trieWidth, s, h) else (0, s + 1, none)

/-- `List:prev_hash_parameters`. -/
def prevHashParameters (d s : Nat) (h : Option (BitVec 32)) : Nat × Nat × Option (BitVec 32) :=
  if trieWidth ≤ d then (d - trieWidth, s, h) else (hashWidth - trieWidth, s - 1, none)

/-- `sizeof(node_t)`. -/
def size : Nat := 72

end ListNode

namespace YangList

open ListNode

/-- `List:node`. -/
def node (l : YangList) (o : Nat) : Except ListRaise ListNode :=
  match l.objs.lookup o with
  | some (.node n) => .ok n
  | _ => .error .notAnObject

/-- `List:leaf`. -/
def leaf (l : YangList) (o : Nat) : Except ListRaise ListLeaf :=
  match l.objs.lookup o with
  | some (.leaf x) => .ok x
  | _ => .error .notAnObject

/-- `List:tostring`. -/
def tostring (l : YangList) (o : Nat) : Except ListRaise (List UInt8) :=
  match l.objs.lookup o with
  | some (.str s) => .ok s
  | _ => .error .notAnObject

def setNode (l : YangList) (o : Nat) (n : ListNode) : YangList :=
  { l with objs := l.objs.insert o (.node n) }

def setLeaf (l : YangList) (o : Nat) (x : ListLeaf) : YangList :=
  { l with objs := l.objs.insert o (.leaf x) }

/-- Allocate memory for an object. -/
def alloc (l : YangList) (bytes : Nat) (x : ListObject) : Except ListRaise (YangList × Nat) := do
  let (heap, o) ← (l.heap.allocate bytes).mapError ListRaise.heap
  return ({ l with heap := heap, objs := l.objs.insert o x }, o)

/-- Free the memory of an object. -/
def release (l : YangList) (o bytes : Nat) : Except ListRaise YangList := do
  let heap ← (l.heap.release o bytes).mapError ListRaise.heap
  return { l with heap := heap, objs := l.objs.erase o }

/-- `List:alloc_node`. -/
def allocNode (l : YangList) : Except ListRaise (YangList × Nat) := l.alloc ListNode.size (.node zero)

/-- `List:free_node`. -/
def freeNode (l : YangList) (o : Nat) : Except ListRaise YangList := l.release o ListNode.size

/-- `sizeof(string_t) + len - 1`. -/
def strSize (s : List UInt8) : Nat := 2 + s.length

/-- `List:alloc_str`. -/
def allocStr (l : YangList) (s : List UInt8) : Except ListRaise (YangList × Nat) :=
  l.alloc (strSize s) (.str s)

/-- `List:free_str`. -/
def freeStr (l : YangList) (o : Nat) : Except ListRaise YangList := do
  let s ← l.tostring o
  l.release o (strSize s)

/-- The bytes at the address of a Lua string: behind its terminator there may be anything. -/
def stringByte (s : List UInt8) (behind : Nat → UInt8) (i : Nat) : UInt8 :=
  (s ++ [0]).getD i (behind i)

/-- `List:str_equal_string`. `not str.len == #s` compares a boolean with a number, so lengths are
not compared, and `memcmp` looks at as many bytes as the string of the list has. -/
def strEqualString (l : YangList) (o : Nat) (s : List UInt8) (behind : Nat → UInt8) :
    Except ListRaise Bool := do
  let str ← l.tostring o
  return str == (List.range str.length).map (stringByte s behind)

/-! ## Fields -/

variable (conf : ListConf)

/-- `List:pack_mandatory`. A cell for an index has 32 bits. -/
def packMandatory (l : YangList) (f : FieldSpec) : Option YangValue →
    Except ListRaise (YangList × Cell)
  | none => .error (.missingValue f.name)
  | some value =>
    match f.kind, value with
    | .string, .string s => do
      let (l, o) ← l.allocStr s
      return (l, .str o)
    | .empty, _ => .ok (l, .empty)
    | .ctype _, .data bytes => .ok (l, .data bytes)
    | .lvalue, .lvalue v =>
      let idx := conf.lua.border (l.lvalues f.name) + 1
      if v = .boolean false then .error .assertion
      else
        let values := (l.lvalues f.name).insert idx v
        .ok ({ l with lvalues := Function.update l.lvalues f.name values }, .lvalue (idx % 2 ^ 32))
    | _, _ => .error .badValue

/-- `List:pack_field`. -/
def packField (l : YangList) (f : FieldSpec) (value : Option YangValue) :
    Except ListRaise (YangList × Option Cell) :=
  if f.optional ∧ value = none then .ok (l, none)
  else do
    let (l, c) ← l.packMandatory conf f value
    return (l, some c)

/-- `List:pack_fields`. -/
def packFields (l : YangList) (e : Entry) :
    List FieldSpec → Except ListRaise (YangList × List (Option Cell))
  | [] => .ok (l, [])
  | f :: fields => do
    let (l, c) ← l.packField conf f (e f.name)
    let (l, cs) ← packFields l e fields
    return (l, c :: cs)

/-- `List:unpack_mandatory`. -/
def unpackMandatory (l : YangList) (f : FieldSpec) : Cell → Except ListRaise YangValue
  | .str o => do return .string (← l.tostring o)
  | .empty => .ok .empty
  | .data bytes => .ok (.data bytes)
  | .lvalue idx =>
    match (l.lvalues f.name).lookup idx with
    | some v => .ok (.lvalue v)
    | none => .error .assertion

/-- `List:unpack_fields`: the assignments to the table that is returned. -/
def unpackFields (l : YangList) :
    List FieldSpec → List (Option Cell) → Except ListRaise (List (String × YangValue))
  | f :: fields, some c :: cs => do
    let value ← l.unpackMandatory f c
    let rest ← unpackFields l fields cs
    return (f.name, value) :: rest
  | _ :: fields, none :: cs => unpackFields l fields cs
  | _, _ => .ok []

/-- `List:free_mandatory`. -/
def freeMandatory (l : YangList) (f : FieldSpec) : Cell → Except ListRaise YangList
  | .str o => l.freeStr o
  | .empty => .ok l
  | .data _ => .ok l
  | .lvalue idx =>
    .ok { l with lvalues := Function.update l.lvalues f.name ((l.lvalues f.name).erase idx) }

/-- `List:free_fields`. -/
def freeFields (l : YangList) : List FieldSpec → List (Option Cell) → Except ListRaise YangList
  | f :: fields, some c :: cs => do
    let l ← l.freeMandatory f c
    freeFields l fields cs
  | _ :: fields, none :: cs => freeFields l fields cs
  | _, _ => .ok l

/-! ## Hashes and keys -/

/-- What `entry_hash` puts into `hashin` for a field. -/
def entryHashField (seed : Nat) (f : FieldSpec) (value : Option YangValue) :
    Except ListRaise (List UInt8) :=
  match f.kind, value with
  | .lvalue, _ => .error .nyi
  | _, none => .error (.missingValue f.name)
  | .string, some (.string s) => .ok (leBytes 4 (conf.hash32 s seed).toNat)
  | .empty, some _ => .ok [1]
  | .ctype _, some (.data bytes) => .ok bytes
  | _, _ => .error .badValue

/-- `List:entry_hash`. The padding of `hashin`, which is zero, is left out. -/
def entryHash (e : Entry) (seed : Nat) : Except ListRaise (BitVec 32) := do
  let hashin ← conf.keys.mapM fun f => entryHashField conf seed f (e f.name)
  return conf.hash32 hashin.flatten seed

/-- What `leaf_hash` puts into `hashin` for a field. -/
def leafHashField (l : YangList) (seed : Nat) (f : FieldSpec) (c : Option Cell) :
    Except ListRaise (List UInt8) :=
  match f.kind, c with
  | .lvalue, _ => .error .nyi
  | .string, some (.str o) => do
    let s ← l.tostring o
    return leBytes 4 (conf.hash32 s seed).toNat
  | .empty, some _ => .ok [1]
  | .ctype _, some (.data bytes) => .ok bytes
  | _, _ => .error .badValue

/-- `List:leaf_hash`. -/
def leafHash (l : YangList) (keys : List (Option Cell)) (seed : Nat) :
    Except ListRaise (BitVec 32) := do
  let hashin ← (conf.keys.zip keys).mapM fun (f, c) => l.leafHashField conf seed f c
  return conf.hash32 hashin.flatten seed

/-- What `entry_keys_equal` puts into `cmp` for a field. The offset 0 is that of the root node. -/
def cmpField (l : YangList) (behind : Nat → UInt8) (f : FieldSpec) (value : Option YangValue)
    (c : Option Cell) : Except ListRaise (Option Cell) :=
  match f.kind, value, c with
  | _, none, _ => .error (.missingValue f.name)
  | .string, some (.string s), some (.str o) => do
    let equal ← l.strEqualString o s behind
    return some (.str (if equal then o else 0))
  | .empty, some _, _ => .ok (some .empty)
  | .ctype _, some (.data bytes), _ => .ok (some (.data bytes))
  | _, _, _ => .error .badValue

/-- `List:entry_keys_equal`. -/
def entryKeysEqual (l : YangList) (behind : Nat → UInt8) (e : Entry) (o : Nat) :
    Except ListRaise Bool := do
  let x ← l.leaf o
  let cmp ← (conf.keys.zip x.keys).mapM fun (f, c) => l.cmpField behind f (e f.name) c
  return x.keys == cmp

/-! ## Leaves -/

/-- `List:new_leaf`, which is given no neighbours. -/
def newLeaf (l : YangList) (e : Entry) (members : Entry) : Except ListRaise (YangList × Nat) := do
  let (l, o) ← l.alloc conf.leafSize (.leaf ⟨0, 0, [], []⟩)
  let (l, keys) ← l.packFields conf e conf.keys
  let (l, members) ← l.packFields conf members conf.members
  return (l.setLeaf o ⟨0, 0, keys, members⟩, o)

/-- `List:update_leaf`. -/
def updateLeaf (l : YangList) (o : Nat) (members : Entry) : Except ListRaise YangList := do
  let x ← l.leaf o
  let l ← l.freeFields conf.members x.members
  let (l, members) ← l.packFields conf members conf.members
  return l.setLeaf o { x with members := members }

/-- `List:destroy_leaf`. -/
def destroyLeaf (l : YangList) (o : Nat) : Except ListRaise YangList := do
  let x ← l.leaf o
  let l ← l.freeFields conf.keys x.keys
  let l ← l.freeFields conf.members x.members
  l.release o conf.leafSize

/-- `List:leaf_entry`: the assignments to the table that is returned. -/
def leafEntry (l : YangList) (o : Nat) : Except ListRaise (List (String × YangValue)) := do
  let x ← l.leaf o
  let keys ← l.unpackFields conf.keys x.keys
  let members ← l.unpackFields conf.members x.members
  return keys ++ members

/-! ## The trie -/

/-- A hash that is nil is computed. -/
def hashOr (h : Option (BitVec 32)) (compute : Except ListRaise (BitVec 32)) :
    Except ListRaise (BitVec 32) :=
  match h with
  | some h => .ok h
  | none => compute

/-- `List:find_node`. -/
def findNode (l : YangList) (k : Entry) : Nat → (r d s : Nat) → Option (BitVec 32) →
    Except ListRaise (Nat × Nat × Nat × BitVec 32)
  | 0, _, _, _, _ => .error .tooDeep
  | depth + 1, r, d, s, h => do
    let h ← hashOr h (entryHash conf k s)
    let node ← l.node r
    let index := nodeIndex d h
    if node.nodeOccupied index ∧ ¬ node.nodeLeaf index then
      let (d, s, h) := nextHashParameters d s (some h)
      findNode l k depth (node.children index) d s h
    else return (r, d, s, h)

/-- `List:find_leaf`. -/
def findLeaf (l : YangList) (behind : Nat → UInt8) (k : Entry) (n d : Nat) (h : BitVec 32) :
    Except ListRaise (Option Nat) := do
  let node ← l.node n
  let index := nodeIndex d h
  if node.nodeOccupied index then
    if node.nodeLeaf index then do
      let o := node.children index
      let equal ← l.entryKeysEqual conf behind k o
      return if equal then some o else none
    else .error .assertion
  else return none

/-- `List:insert_leaf`. -/
def insertLeaf : Nat → YangList → (o r d s : Nat) → Option (BitVec 32) → Except ListRaise YangList
  | 0, _, _, _, _, _, _ => .error .tooDeep
  | depth + 1, l, o, r, d, s, h => do
    let x ← l.leaf o
    let h ← hashOr h (l.leafHash conf x.keys s)
    let node ← l.node r
    let index := nodeIndex d h
    if node.nodeOccupied index then
      if node.nodeLeaf index then do
        -- the leaf that is there and the new one move to a new node
        let other := node.children index
        let (l, n) ← l.allocNode
        let l := l.setNode n { zero with parent := r }
        let l := l.setNode r ((node.setChild index n).setLeaf index false)
        let (d, s, h) := nextHashParameters d s (some h)
        let l ← insertLeaf depth l other n d s none
        insertLeaf depth l o n d s h
      else .error .assertion
    else
      return l.setNode r (((node.setOccupied index true).setLeaf index true).setChild index o)

/-- `List:remove_obsolete_nodes`. -/
def removeObsoleteNodes (k : Entry) : Nat → YangList → (r d s : Nat) → Option (BitVec 32) →
    Except ListRaise YangList
  | 0, _, _, _, _, _ => .error .tooDeep
  | depth + 1, l, r, d, s, h => do
    if r = l.root then return l
    else do
      let node ← l.node r
      let (d, s, h) := prevHashParameters d s h
      let h ← hashOr h (entryHash conf k s)
      let parent ← l.node node.parent
      let parentIndex := nodeIndex d h
      if node.occupied = 0 then .error .unreachable
      else if node.occupied &&& (node.occupied - 1) = 0 then
        let index := msbSet node.occupied
        if node.nodeLeaf index then do
          -- the only child is a leaf, which moves to the parent
          let parent := (parent.setChild parentIndex (node.children index)).setLeaf parentIndex true
          let l ← (l.setNode node.parent parent).freeNode r
          removeObsoleteNodes k depth l node.parent d s (some h)
        else return l
      else return l

/-- `List:remove_child`. -/
def removeChild (l : YangList) (k : Entry) (r d s : Nat) (h : BitVec 32) :
    Except ListRaise YangList := do
  let node ← l.node r
  let index := nodeIndex d h
  if node.nodeOccupied index ∧ node.nodeLeaf index then
    let node := ((node.setOccupied index false).setLeaf index false).setChild index 0
    removeObsoleteNodes conf k (conf.depth + 1) (l.setNode r node) r d s (some h)
  else .error .assertion

/-! ## The linked list -/

/-- `List:append_leaf`, which is given no predecessor. -/
def appendLeaf (l : YangList) (o : Nat) : Except ListRaise YangList := do
  let prev := l.last
  let l ← (if prev = 0 then .ok { l with first := o, last := o }
    else do
      let x ← l.leaf o
      let p ← l.leaf prev
      let next := p.next
      let l := l.setLeaf o { x with prev := prev, next := next }
      let p ← l.leaf prev
      let l := l.setLeaf prev { p with next := o }
      return { l with last := if next = 0 then o else l.last })
  return { l with length := l.length + 1 }

/-- `List:unlink_leaf`. -/
def unlinkLeaf (l : YangList) (o : Nat) : Except ListRaise YangList := do
  let x ← l.leaf o
  let l := { l with first := if l.first = o then x.next else l.first }
  let l := { l with last := if l.last = o then x.prev else l.last }
  let l ← (if x.prev ≠ 0 then do
      let p ← l.leaf x.prev
      return l.setLeaf x.prev { p with next := x.next }
    else .ok l)
  let l ← (if x.next ≠ 0 then do
      let n ← l.leaf x.next
      return l.setLeaf x.next { n with prev := x.prev }
    else .ok l)
  return { l with length := l.length - 1 }

/-! ## Operations -/

/-- `List:new`. -/
def new : Except ListRaise YangList := do
  let (l, root) ← allocNode ⟨.new, ∅, 0, 0, 0, 0, fun _ => ∅⟩
  return { l with root := root }

/-- The leaf that a key leads to, and where. -/
def locate (l : YangList) (behind : Nat → UInt8) (k : Entry) :
    Except ListRaise ((Nat × Nat × Nat × BitVec 32) × Option Nat) := do
  let (n, d, s, h) ← l.findNode conf k (conf.depth + 1) l.root 0 0 none
  let o ← l.findLeaf conf behind k n d h
  return ((n, d, s, h), o)

/-- `List:add_entry`. -/
def addEntry (l : YangList) (behind : Nat → UInt8) (e : Entry) (update : Bool)
    (members : Option Entry) : Except ListRaise YangList := do
  let ((n, d, s, h), o) ← l.locate conf behind e
  match o with
  | some o =>
    if update then l.updateLeaf conf o (members.getD e) else .error .duplicate
  | none => do
    let (l, o) ← l.newLeaf conf e (members.getD e)
    let l ← insertLeaf conf (conf.depth + 1) l o n d s (some h)
    l.appendLeaf o

/-- `List:find_entry`. -/
def findEntry (l : YangList) (behind : Nat → UInt8) (k : Entry) :
    Except ListRaise (Option (List (String × YangValue))) := do
  let (_, o) ← l.locate conf behind k
  match o with
  | some o => do return some (← l.leafEntry conf o)
  | none => return none

/-- `List:remove_entry`. -/
def removeEntry (l : YangList) (behind : Nat → UInt8) (k : Entry) :
    Except ListRaise (YangList × Bool) := do
  let ((n, d, s, h), o) ← l.locate conf behind k
  match o with
  | some o => do
    let l ← l.removeChild conf k n d s h
    let l ← l.unlinkLeaf o
    let l ← l.destroyLeaf conf o
    return (l, true)
  | none => return (l, false)

/-- The iterator of `List:ipairs`, called until it returns nil. -/
def iterate (l : YangList) : Nat → (o n : Nat) → Except ListRaise (List (Nat × List (String × YangValue)))
  | 0, _, _ => .error .tooDeep
  | calls + 1, o, n =>
    if o = 0 then .ok []
    else do
      let e ← l.leafEntry conf o
      let x ← l.leaf o
      let rest ← iterate l calls x.next (n + 1)
      return (n, e) :: rest

/-- `List:ipairs`: the pairs that are visited. -/
def ipairs (l : YangList) : Except ListRaise (List (Nat × List (String × YangValue))) :=
  l.iterate conf (l.length + 1) l.first 1

end YangList

end Snabb
