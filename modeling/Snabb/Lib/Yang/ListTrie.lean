import Mathlib.Data.Nat.Bitwise
import Snabb.Foundation.DigitTrie
import Snabb.Lib.Yang.ListFields

/-!
# The trie of a list (`lib/yang/list.lua`)

The digits of a key are the nibbles of its hashes, one seed after the other. `Grown` relates the
nodes in the heap to a trie over these digits: `find_node`, `insert_leaf` and
`remove_obsolete_nodes` walk along the digits of one key, with the parameters of a level.

- `entryHash_spec`, `leafHash_spec`: an entry and its leaf have the same hashes;
- `entryKeysEqual_spec`: what the comparison of keys finds;
- `findNode_spec`, `insertLeaf_spec`, `removeChild_spec`: the trie after a walk.
-/

namespace Snabb

open Foundation List Table Set AList
open Function (update update_apply update_idem update_of_ne update_self)

namespace YangList

open ListNode DigitTrie
export ListNode (setBit)

/-! ## Hashes -/

variable {conf : ListConf} {l l' : YangList} {o seed n m leafSize : Nat} {e : Entry}
  {fields : List FieldSpec} {f : FieldSpec} {cs : List (Option Cell)} {row row' : Row}
  {value : Option YangValue} {behind : Nat → UInt8}

/-- No key is a Lua value. -/
def Hashable (conf : ListConf) : Prop := ∀ f ∈ conf.keys, f.kind ≠ .lvalue

instance (conf : ListConf) : Decidable (Hashable conf) :=
  inferInstanceAs (Decidable (∀ _ ∈ _, _))

/-- The bytes of a value in `hashin`. -/
def fieldBytes (conf : ListConf) (seed : Nat) : Option YangValue → List UInt8
  | some (.string s) => leBytes 4 (conf.hash32 s seed).toNat
  | some .empty => [1]
  | some (.data bytes) => bytes
  | _ => []

/-- The hash of the keys of a row. -/
def keyHash (conf : ListConf) (row : Row) (seed : Nat) : BitVec 32 :=
  conf.hash32 (row.map (fieldBytes conf seed)).flatten seed

/-- The values of a row have the types that some fields declare. -/
def RowTyped (fields : List FieldSpec) (row : Row) : Prop := List.Forall₂ HasType fields row

theorem rowTyped_rowOf (h : Typed fields e) : RowTyped fields (rowOf fields e) := by
  rw [RowTyped, rowOf, forall₂_map_right_iff, forall₂_same]
  exact h

theorem entryHashField_spec (htype : HasType f value) (hkind : f.kind ≠ .lvalue)
    (hmandatory : f.optional = false) :
    entryHashField conf seed f value = .ok (fieldBytes conf seed value) := by
  cases value with
  | none => cases hmandatory.symm.trans htype
  | some v =>
    cases v with
    | lvalue u => exact absurd htype hkind
    | _ =>
      have heq : f.kind = _ := htype
      simp only [entryHashField, heq, fieldBytes]

/-- **The hash of the keys of an entry.** -/
theorem entryHash_spec (hhash : Hashable conf) (htyped : Typed conf.keys e) :
    entryHash conf e seed = .ok (keyHash conf (rowOf conf.keys e) seed) := by
  have hfields : (conf.keys.mapM fun f => entryHashField conf seed f (e f.name)) =
      .ok (conf.keys.map fun f => fieldBytes conf seed (e f.name)) :=
    mapM_eq_ok.mpr <| forall₂_map_right_iff.mpr <| forall₂_same.mpr fun f hf =>
      entryHashField_spec (htyped f hf) (hhash f hf) (conf.keys_mandatory f hf)
  rw [entryHash, bind_of_eq_ok hfields, keyHash, rowOf, map_map]
  rfl

variable {c : Cell} {bits v lo : Nat} {y : Option (Slot Nat Nat)} {k : Entry}

theorem leafHashField_spec {v : YangValue} (hvalue : l.valueOf f c = some v)
    (htype : HasType f (some v)) (hkind : f.kind ≠ .lvalue) :
    l.leafHashField conf seed f (some c) = .ok (fieldBytes conf seed (some v)) := by
  cases c with
  | str o =>
    obtain ⟨s, hs, rfl⟩ := get_str.mp hvalue
    have heq : f.kind = .string := htype
    simp only [leafHashField, heq]
    exact bind_of_eq_ok (tostring_of_lookup hs)
  | empty =>
    cases hvalue
    have heq : f.kind = .empty := htype
    simp only [leafHashField, heq, fieldBytes]
  | data bytes =>
    cases hvalue
    have heq : f.kind = .ctype bytes.length := htype
    simp only [leafHashField, heq, fieldBytes]
  | lvalue idx =>
    obtain ⟨u, -, rfl⟩ := Option.map_eq_some_iff.mp hvalue
    exact absurd htype hkind

theorem leafHash_fields (hstored : Stored l fields cs row) (htyped : RowTyped fields row)
    (hkinds : ∀ f ∈ fields, f.kind ≠ .lvalue) (hmandatory : ∀ f ∈ fields, f.optional = false) :
    ((fields.zip cs).mapM fun (f, c) => l.leafHashField conf seed f c) =
      .ok (row.map (fieldBytes conf seed)) := by
  induction hstored with
  | nil => rfl
  | present hvalue _ ih =>
    obtain ⟨htype, htyped⟩ := forall₂_cons.mp htyped
    obtain ⟨hkind, hkinds⟩ := forall_mem_cons.mp hkinds
    obtain ⟨-, hmandatory⟩ := forall_mem_cons.mp hmandatory
    rw [zip_cons_cons, mapM_cons]
    rw [bind_of_eq_ok (leafHashField_spec hvalue htype hkind),
      bind_of_eq_ok (ih htyped hkinds hmandatory)]
    rfl
  | absent _ ih =>
    obtain ⟨htype, -⟩ := forall₂_cons.mp htyped
    obtain ⟨hfalse, -⟩ := forall_mem_cons.mp hmandatory
    cases hfalse.symm.trans htype

/-- **The hash of the keys of a leaf is that of its entry.** -/
theorem leafHash_spec (hhash : Hashable conf) (hstored : Stored l conf.keys cs row)
    (htyped : RowTyped conf.keys row) : l.leafHash conf cs seed = .ok (keyHash conf row seed) := by
  rw [leafHash, bind_of_eq_ok (leafHash_fields hstored htyped hhash conf.keys_mandatory)]
  rfl

/-! ## The comparison of keys -/

/-- What the comparison takes for equal: of a string it looks at as many bytes as the string in
the list has. -/
def valueMatches (behind : Nat → UInt8) : Option YangValue → Option YangValue → Bool
  | some (.string str), some (.string s) => str == (List.range str.length).map (stringByte s behind)
  | v, w => v == w

/-- The comparison takes the keys of a leaf for those of an entry. -/
def keysMatch (behind : Nat → UInt8) : Row → Row → Bool
  | v :: row, w :: row' => valueMatches behind v w && keysMatch behind row row'
  | [], [] => true
  | _, _ => false

theorem keysMatch_self (behind : Nat → UInt8) (row : Row) : keysMatch behind row row = true := by
  induction row with
  | nil => rfl
  | cons v row ih =>
    rw [keysMatch, ih, Bool.and_true]
    cases v with
    | none => rfl
    | some v =>
      cases v with
      | string s =>
        rw [valueMatches, beq_iff_eq]
        refine ext_getElem (by simp) fun i hi _ => ?_
        simp only [getElem_map, getElem_range, stringByte]
        rw [getD_eq_getElem?_getD, List.getElem?_append_left hi, List.getElem?_eq_getElem hi]
        rfl
      | _ => simp [valueMatches]

theorem cmpField_spec {v : YangValue} (behind : Nat → UInt8) (hvalue : l.valueOf f c = some v)
    (hroot : ∃ n, l.objs.lookup 0 = some (.node n)) (htype : HasType f (some v))
    (htype' : HasType f value) (hkind : f.kind ≠ .lvalue) (hmandatory : f.optional = false) :
    ∃ c', l.cmpField behind f value (some c) = .ok c' ∧
      (some c == c') = valueMatches behind (some v) value := by
  cases value with
  | none => cases hmandatory.symm.trans htype'
  | some w =>
    cases c with
    | str o =>
      obtain ⟨s, hs, rfl⟩ := get_str.mp hvalue
      have heq : f.kind = .string := htype
      have hne : o ≠ 0 := by
        rintro rfl
        obtain ⟨n, hn⟩ := hroot
        cases hn.symm.trans hs
      cases w with
      | string t =>
        refine ⟨some (.str (if s == (List.range s.length).map (stringByte t behind) then o else 0)),
          ?_, ?_⟩
        · simp only [cmpField, heq, strEqualString, bind_of_eq_ok (tostring_of_lookup hs)]
          rfl
        · rw [valueMatches]
          by_cases hsame : (s == (List.range s.length).map (stringByte t behind)) = true
          · simp [hsame]
          · simp [hne]
      | _ => cases heq.symm.trans htype'
    | empty =>
      cases hvalue
      have heq : f.kind = .empty := htype
      cases w with
      | empty => exact ⟨some .empty, by simp only [cmpField, heq], rfl⟩
      | _ => cases heq.symm.trans htype'
    | data bytes =>
      cases hvalue
      have heq : f.kind = .ctype bytes.length := htype
      cases w with
      | data bytes' =>
        have hmatch : valueMatches behind (some (.data bytes)) (some (.data bytes')) =
            (some (YangValue.data bytes) == some (.data bytes')) := rfl
        refine ⟨some (.data bytes'), by simp only [cmpField, heq], ?_⟩
        rw [hmatch]
        simp
      | _ => cases heq.symm.trans htype'
    | lvalue idx =>
      obtain ⟨u, -, rfl⟩ := Option.map_eq_some_iff.mp hvalue
      exact absurd htype hkind

theorem cmpFields_spec (behind : Nat → UInt8) (hstored : Stored l fields cs row)
    (hroot : ∃ n, l.objs.lookup 0 = some (.node n)) (htyped : RowTyped fields row)
    (htyped' : Typed fields e) (hkinds : ∀ f ∈ fields, f.kind ≠ .lvalue)
    (hmandatory : ∀ f ∈ fields, f.optional = false) :
    ∃ cmp, ((fields.zip cs).mapM fun (f, c) => l.cmpField behind f (e f.name) c) = .ok cmp ∧
      (cs == cmp) = keysMatch behind row (rowOf fields e) := by
  induction hstored with
  | nil => exact ⟨[], rfl, rfl⟩
  | present hvalue _ ih =>
    obtain ⟨htype, htyped⟩ := forall₂_cons.mp htyped
    obtain ⟨htype', htyped'⟩ := forall_mem_cons.mp htyped'
    obtain ⟨hkind, hkinds⟩ := forall_mem_cons.mp hkinds
    obtain ⟨hhead, hmandatory⟩ := forall_mem_cons.mp hmandatory
    obtain ⟨c', hcmp, heq⟩ := cmpField_spec behind hvalue hroot htype htype' hkind hhead
    obtain ⟨cmp, hrest, hrests⟩ := ih htyped htyped' hkinds hmandatory
    refine ⟨c' :: cmp, ?_, ?_⟩
    · rw [zip_cons_cons, mapM_cons, bind_of_eq_ok hcmp, bind_of_eq_ok hrest]
      rfl
    · rw [cons_beq_cons, heq, hrests]
      rfl
  | absent _ ih =>
    obtain ⟨htype, -⟩ := forall₂_cons.mp htyped
    obtain ⟨hfalse, -⟩ := forall_mem_cons.mp hmandatory
    cases hfalse.symm.trans htype

/-- **What the comparison of keys finds.** -/
theorem entryKeysEqual_spec {x : ListLeaf} (behind : Nat → UInt8) (hhash : Hashable conf)
    (hleaf : l.objs.lookup o = some (.leaf x)) (hstored : Stored l conf.keys x.keys row)
    (hroot : ∃ n, l.objs.lookup 0 = some (.node n)) (htyped : RowTyped conf.keys row)
    (htyped' : Typed conf.keys e) :
    l.entryKeysEqual conf behind e o = .ok (keysMatch behind row (rowOf conf.keys e)) := by
  obtain ⟨cmp, hcmp, heq⟩ :=
    cmpFields_spec behind hstored hroot htyped htyped' hhash conf.keys_mandatory
  have hx : l.leaf o = .ok x := by rw [leaf, hleaf]
  rw [entryKeysEqual, bind_of_eq_ok hx, bind_of_eq_ok hcmp, heq]
  rfl

/-! ## Bits of a node -/

theorem nodeOccupied_iff {node : ListNode} {index : Nat} :
    node.nodeOccupied index ↔ node.occupied.testBit index = true := by
  rw [nodeOccupied, Nat.one_shiftLeft, Nat.and_comm, Nat.two_pow_and]
  cases node.occupied.testBit index <;> simp

theorem nodeLeaf_iff {node : ListNode} {index : Nat} :
    node.nodeLeaf index ↔ node.leaf.testBit index = true := by
  rw [nodeLeaf, Nat.one_shiftLeft, Nat.and_comm, Nat.two_pow_and]
  cases node.leaf.testBit index <;> simp

theorem testBit_setBit {i j : Nat} {newval : Bool} (hj : j < 32) :
    (setBit bits i newval).testBit j = if j = i then newval else bits.testBit j := by
  cases newval with
  | true =>
    rw [setBit, Nat.one_shiftLeft]
    by_cases h : j = i
    · simp [h]
    · simp [h, Ne.symm h]
  | false =>
    rw [setBit, if_neg Bool.false_ne_true, Nat.testBit_and, Nat.testBit_xor, Nat.one_shiftLeft,
      Nat.testBit_two_pow_sub_one]
    by_cases h : j = i
    · simp [h, h ▸ hj]
    · simp [h, Ne.symm h, hj]

theorem setBit_lt {i : Nat} (newval : Bool) (hbits : bits < 2 ^ 16) (hi : i < 16) :
    setBit bits i newval < 2 ^ 16 := by
  cases newval with
  | true =>
    rw [setBit, Nat.one_shiftLeft]
    exact Nat.or_lt_two_pow hbits (Nat.pow_lt_pow_right (by decide) hi)
  | false =>
    rw [setBit]
    exact Nat.lt_of_le_of_lt Nat.and_le_left hbits

theorem msbSet_spec (hne : v ≠ 0) (hone : v &&& (v - 1) = 0) (j : Nat) :
    v.testBit j = true ↔ j = msbSet v := by
  obtain ⟨k, rfl⟩ := (Nat.and_sub_one_eq_zero_iff_isPowerOfTwo hne).mp hone
  rw [msbSet, Nat.log2_two_pow, Nat.testBit_two_pow, decide_eq_true_eq, eq_comm]

theorem exists_two_bits (hne : v ≠ 0) (hmany : v &&& (v - 1) ≠ 0) :
    ∃ i j, i ≠ j ∧ v.testBit i = true ∧ v.testBit j = true := by
  obtain ⟨i, hi⟩ := Nat.exists_testBit_of_ne_zero hne
  by_contra hnot
  refine hmany ((Nat.and_sub_one_eq_zero_iff_isPowerOfTwo hne).mpr ⟨i, ?_⟩)
  refine Nat.eq_of_testBit_eq fun j => ?_
  rw [Nat.testBit_two_pow]
  by_cases hij : i = j
  · simp [← hij, hi]
  · rw [decide_eq_false hij, Bool.eq_false_iff]
    exact fun hj => hnot ⟨i, j, hij, hi, hj⟩

/-! ## Levels -/

/-- The `n`-th digit of the hashes `hash`. -/
def digit (hash : Nat → BitVec 32) (n : Nat) : Fin 16 :=
  ⟨nodeIndex (trieWidth * (n % 8)) (hash (n / 8)), Nat.lt_of_le_of_lt Nat.and_le_left (by decide)⟩

/-- The parameters of a level. -/
structure AtLevel (hash : Nat → BitVec 32) (n d s : Nat) (h : Option (BitVec 32)) : Prop where
  shift : d = trieWidth * (n % 8)
  seed : s = n / 8
  hash : ∀ x ∈ h, x = hash s

variable {hash : Nat → BitVec 32} {d s r : Nat} {h : Option (BitVec 32)}

theorem atLevel_zero : AtLevel hash 0 0 0 none := ⟨rfl, rfl, fun _ hx => nomatch hx⟩

theorem AtLevel.index (hlevel : AtLevel hash n d s h) :
    nodeIndex d (hash s) = (digit hash n : Nat) := by
  rw [hlevel.shift, hlevel.seed]
  rfl

theorem AtLevel.next (hlevel : AtLevel hash n d s h) :
    AtLevel hash (n + 1) (nextHashParameters d s (some (hash s))).1
      (nextHashParameters d s (some (hash s))).2.1
      (nextHashParameters d s (some (hash s))).2.2 := by
  obtain ⟨rfl, rfl, -⟩ := hlevel
  rw [nextHashParameters]
  by_cases hlt : trieWidth * (n % 8) + trieWidth < hashWidth
  · simp only [if_pos hlt]
    simp only [trieWidth, hashWidth] at hlt
    have hseed : (n + 1) / 8 = n / 8 := by omega
    refine ⟨?_, hseed.symm, fun x hx => (Option.some.inj hx).symm⟩
    simp only [trieWidth]
    omega
  · simp only [if_neg hlt]
    simp only [trieWidth, hashWidth] at hlt
    refine ⟨?_, ?_, fun x hx => nomatch hx⟩
    · simp only [trieWidth]
      omega
    · omega

theorem AtLevel.prev (hlevel : AtLevel hash (n + 1) d s h) :
    AtLevel hash n (prevHashParameters d s h).1 (prevHashParameters d s h).2.1
      (prevHashParameters d s h).2.2 := by
  obtain ⟨rfl, rfl, hhash⟩ := hlevel
  rw [prevHashParameters]
  by_cases hle : trieWidth ≤ trieWidth * ((n + 1) % 8)
  · simp only [if_pos hle]
    simp only [trieWidth] at hle
    have hseed : (n + 1) / 8 = n / 8 := by omega
    refine ⟨?_, hseed, hhash⟩
    simp only [trieWidth]
    omega
  · simp only [if_neg hle]
    simp only [trieWidth, hashWidth] at hle ⊢
    refine ⟨?_, ?_, fun x hx => nomatch hx⟩
    · simp only [trieWidth]
      omega
    · omega

theorem AtLevel.given (hlevel : AtLevel hash n d s h) : AtLevel hash n d s (some (hash s)) :=
  ⟨hlevel.shift, hlevel.seed, fun _ hx => (Option.some.inj hx).symm⟩

theorem AtLevel.hashOr (hlevel : AtLevel hash n d s h) {compute : Except ListRaise (BitVec 32)}
    (hcompute : compute = .ok (hash s)) : hashOr h compute = .ok (hash s) := by
  cases h with
  | none => exact hcompute
  | some x => rw [YangList.hashOr, hlevel.hash x rfl]

/-! ## Nodes and slots -/

/-- The tries of lists: the digits are nibbles, leaves and nodes are offsets. -/
abbrev ListSlots := Slots (Fin 16) Nat Nat

/-- What a child of a node says of its slot. -/
def Child (n : ListNode) (i : Fin 16) : Option (Slot Nat Nat) → Prop
  | none => n.occupied.testBit i = false
  | some (.leaf o) =>
    n.occupied.testBit i = true ∧ n.leaf.testBit i = true ∧ n.children i = o
  | some (.node r) =>
    n.occupied.testBit i = true ∧ n.leaf.testBit i = false ∧ n.children i = r

/-- The nodes in the heap are those of the trie. -/
structure Grown (l : YangList) (T : ListSlots) : Prop where
  root : T [] = some (.node l.root)
  shape : Shape T
  nodes : ∀ p r, T p = some (.node r) → ∃ n, l.objs.lookup r = some (.node n) ∧
    n.occupied < 2 ^ 16 ∧ ∀ i, Child n i (T (p ++ [i]))
  parent : ∀ p i r r' n, T p = some (.node r) → T (p ++ [i]) = some (.node r') →
    l.objs.lookup r' = some (.node n) → n.parent = r

variable {T : ListSlots} {p q : List (Fin 16)} {i : Fin 16} {node node' : ListNode}
  {x : Option (Slot Nat Nat)}

theorem node_of_lookup (hn : l.objs.lookup r = some (.node node)) : l.node r = .ok node := by
  rw [YangList.node, hn]

theorem Grown.congr (hg : Grown l T) (hroot : l'.root = l.root)
    (h : ∀ p r, T p = some (.node r) → l'.objs.lookup r = l.objs.lookup r) : Grown l' T where
  root := by rw [hroot, hg.root]
  shape := hg.shape
  nodes p r hp := by rw [h p r hp]; exact hg.nodes p r hp
  parent p i r r' n hp hchild hn := hg.parent p i r r' n hp hchild (h _ r' hchild ▸ hn)

/-- A node has changed at one child. -/
structure Changed (n n' : ListNode) (i : Fin 16) (x : Option (Slot Nat Nat)) : Prop where
  parent : n'.parent = n.parent
  bound : n'.occupied < 2 ^ 16
  child : Child n' i x
  others : ∀ j : Fin 16, j ≠ i → n'.occupied.testBit j = n.occupied.testBit j ∧
    n'.leaf.testBit j = n.leaf.testBit j ∧ n'.children j = n.children j

theorem Changed.child_of_ne (hc : Changed node node' i x) {j : Fin 16} (hj : j ≠ i)
    (h : Child node j y) : Child node' j y := by
  obtain ⟨hoccupied, hleaf, hchildren⟩ := hc.others j hj
  cases y with
  | none => exact hoccupied.trans h
  | some y =>
    cases y with
    | leaf o | node r => exact ⟨hoccupied.trans h.1, hleaf.trans h.2.1, hchildren.trans h.2.2⟩

/-- **A slot changes with the child of its node.** -/
theorem Grown.put (hg : Grown l T) (hp : T p = some (.node r))
    (hnode : l.objs.lookup r = some (.node node)) (hchanged : Changed node node' i x)
    (hbelow : ∀ j, T (p ++ [i] ++ [j]) = none)
    (hfresh : ∀ r', x = some (.node r') → ∀ p, T p ≠ some (.node r'))
    (hnew : ∀ r', x = some (.node r') → l'.objs.lookup r' =
      some (.node { zero with parent := r }))
    (hroot : l'.root = l.root) (hself : l'.objs.lookup r = some (.node node'))
    (hothers : ∀ p' r', r' ≠ r → T p' = some (.node r') →
      l'.objs.lookup r' = l.objs.lookup r') :
    Grown l' (update T (p ++ [i]) x) := by
  have hpi : p ≠ p ++ [i] := by simp
  have hself' : ∀ q, q ++ [i] ≠ q := fun q => by simp
  -- a node of the trie is the new one, the one that has changed, or as before
  have hcases : ∀ p' r', update T (p ++ [i]) x p' = some (.node r') →
      (p' = p ++ [i] ∧ x = some (.node r')) ∨ (p' ≠ p ++ [i] ∧ T p' = some (.node r')) := by
    intro p' r' hp'
    rw [update_apply] at hp'
    split_ifs at hp' with heq
    · exact .inl ⟨heq, hp'⟩
    · exact .inr ⟨heq, hp'⟩
  have hlookup : ∀ p' r', T p' = some (.node r') →
      (p' = p ∧ r' = r) ∨ (p' ≠ p ∧ l'.objs.lookup r' = l.objs.lookup r') := by
    intro p' r' hp'
    by_cases heq : r' = r
    · exact .inl ⟨hg.shape.inj p' p r (heq ▸ hp') hp, heq⟩
    · refine .inr ⟨?_, hothers p' r' heq hp'⟩
      rintro rfl
      cases hp'.symm.trans hp
      exact heq rfl
  refine ⟨?_, hg.shape.put ⟨r, hp⟩ hbelow hfresh, ?_, ?_⟩
  · rw [update_of_ne (by simp), hroot, hg.root]
  · intro p' r' hp'
    rcases hcases p' r' hp' with ⟨rfl, hx⟩ | ⟨hne, hT⟩
    · refine ⟨_, hnew r' hx, Nat.two_pow_pos 16, fun j => ?_⟩
      rw [update_of_ne (by simp), hbelow j]
      exact Nat.zero_testBit j
    · obtain ⟨n, hn, hbound, hchild⟩ := hg.nodes p' r' hT
      rcases hlookup p' r' hT with ⟨rfl, rfl⟩ | ⟨hne', hsame⟩
      · cases hn.symm.trans hnode
        refine ⟨node', hself, hchanged.bound, fun j => ?_⟩
        by_cases hj : j = i
        · rw [hj, update_self]
          exact hchanged.child
        · rw [update_of_ne (by simpa using hj)]
          exact hchanged.child_of_ne hj (hchild j)
      · refine ⟨n, hsame.trans hn, hbound, fun j => ?_⟩
        rw [update_of_ne fun heq => hne' (append_one_inj.mp heq).1]
        exact hchild j
  · intro p' j r₁ r₂ n hp' hchild hn
    rcases hcases p' r₁ hp' with ⟨rfl, hx⟩ | ⟨hne, hT⟩
    · rw [update_of_ne (by simp), hbelow j] at hchild
      cases hchild
    · rcases hcases _ r₂ hchild with ⟨heq, hx⟩ | ⟨-, hT'⟩
      · obtain ⟨rfl, rfl⟩ := append_one_inj.mp heq
        cases hT.symm.trans hp
        cases hn.symm.trans (hnew r₂ hx)
        rfl
      · rcases hlookup _ r₂ hT' with ⟨heq, rfl⟩ | ⟨-, hsame⟩
        · cases hn.symm.trans hself
          rw [hchanged.parent]
          exact hg.parent p' j r₁ r₂ node hT hT' hnode
        · exact hg.parent p' j r₁ r₂ n hT hT' (hsame ▸ hn)

theorem Changed.of (leafBit : Bool) (hparent : node'.parent = node.parent)
    (hbound : node'.occupied < 2 ^ 16)
    (hoccupied : ∀ j : Fin 16, j ≠ i → node'.occupied.testBit j = node.occupied.testBit j)
    (hleaf : node'.leaf = setBit node.leaf i leafBit)
    (hchildren : node'.children = update node.children i o) (hchild : Child node' i x) :
    Changed node node' i x where
  parent := hparent
  bound := hbound
  child := hchild
  others j hj := by
    have hne : (j : Nat) ≠ i := fun heq => hj (Fin.ext heq)
    refine ⟨hoccupied j hj, ?_, ?_⟩
    · rw [hleaf, testBit_setBit (by omega), if_neg hne]
    · rw [hchildren, update_of_ne hne]

theorem testBit_setBit_self (bits : Nat) (i : Fin 16) (newval : Bool) :
    (setBit bits i newval).testBit i = newval := by
  rw [testBit_setBit (by omega), if_pos rfl]

theorem testBit_setBit_ne (bits : Nat) (newval : Bool) {i j : Fin 16} (hj : j ≠ i) :
    (setBit bits i newval).testBit j = bits.testBit j := by
  rw [testBit_setBit (by omega), if_neg fun heq => hj (Fin.ext heq)]

section

variable (hbound : node.occupied < 2 ^ 16)
include hbound

theorem changed_insert :
    Changed node (((node.setOccupied i true).setLeaf i true).setChild i o) i (some (.leaf o)) :=
  .of true rfl (setBit_lt true hbound i.isLt)
    (fun _ hj => testBit_setBit_ne node.occupied true hj) rfl rfl
    ⟨testBit_setBit_self node.occupied i true, testBit_setBit_self node.leaf i true,
      update_self ..⟩

theorem changed_split (hoccupied : node.occupied.testBit i = true) :
    Changed node ((node.setChild i r).setLeaf i false) i (some (.node r)) :=
  .of false rfl hbound (fun _ _ => rfl) rfl rfl
    ⟨hoccupied, testBit_setBit_self node.leaf i false, update_self ..⟩

theorem changed_collapse (hoccupied : node.occupied.testBit i = true) :
    Changed node ((node.setChild i o).setLeaf i true) i (some (.leaf o)) :=
  .of true rfl hbound (fun _ _ => rfl) rfl rfl
    ⟨hoccupied, testBit_setBit_self node.leaf i true, update_self ..⟩

theorem changed_remove :
    Changed node (((node.setOccupied i false).setLeaf i false).setChild i 0) i none :=
  .of false rfl (setBit_lt false hbound i.isLt)
    (fun _ hj => testBit_setBit_ne node.occupied false hj) rfl rfl
    (testBit_setBit_self node.occupied i false)

end

/-! ## Descending -/

theorem Grown.child (hg : Grown l T) (hp : T p = some (.node r)) :
    ∃ n, l.node r = .ok n ∧ l.objs.lookup r = some (.node n) ∧ n.occupied < 2 ^ 16 ∧
      ∀ i, Child n i (T (p ++ [i])) := by
  obtain ⟨n, hn, hrest⟩ := hg.nodes p r hp
  exact ⟨n, node_of_lookup hn, hn, hrest⟩

/-- **`find_node` ends at the last node on the path of a key.** -/
theorem findNode_spec {depth : Nat} (hg : Grown l T)
    (hhash : ∀ seed, entryHash conf k seed = .ok (hash seed)) (hlevel : AtLevel hash n d s h)
    (hnode : T (path (digit hash) n) = some (.node r))
    (hdepth : ∀ m r, T (path (digit hash) m) = some (.node r) → m < n + depth) :
    ∃ m r' d' s', l.findNode conf k depth r d s h = .ok (r', d', s', hash s') ∧
      AtLevel hash m d' s' (some (hash s')) ∧ T (path (digit hash) m) = some (.node r') ∧
      ∀ r'', T (path (digit hash) (m + 1)) ≠ some (.node r'') := by
  induction depth generalizing n r d s h with
  | zero => exact absurd (hdepth n r hnode) (by omega)
  | succ depth ih =>
    obtain ⟨node, hread, -, -, hchild⟩ := hg.child hnode
    have hslot := hchild (digit hash n)
    rw [← path_succ] at hslot
    have hrun : l.findNode conf k (depth + 1) r d s h = _ :=
      (bind_of_eq_ok (hlevel.hashOr (hhash s))).trans (bind_of_eq_ok hread)
    rw [hrun, hlevel.index]
    simp only [nodeOccupied_iff, nodeLeaf_iff]
    cases hnext : T (path (digit hash) (n + 1)) with
    | none =>
      rw [hnext] at hslot
      have hfree : node.occupied.testBit (digit hash n) = false := hslot
      refine ⟨n, r, d, s, ?_, hlevel.given, hnode, fun r'' heq => nomatch hnext.symm.trans heq⟩
      rw [if_neg fun hand => by rw [hfree] at hand; exact Bool.false_ne_true hand.1]
      rfl
    | some y =>
      rw [hnext] at hslot
      cases y with
      | leaf o =>
        refine ⟨n, r, d, s, ?_, hlevel.given, hnode, fun r'' heq => nomatch hnext.symm.trans heq⟩
        rw [if_neg fun hand => hand.2 hslot.2.1]
        rfl
      | node r' =>
        rw [if_pos ⟨hslot.1, by rw [hslot.2.1]; exact Bool.false_ne_true⟩, hslot.2.2]
        exact ih hlevel.next hnext fun m r hm => (hdepth m r hm).trans_eq (by omega)

/-! ## Inserting -/

/-- A call has changed nodes only. -/
structure OnlyNodes (l l' : YangList) : Prop where
  same : l' = { l with heap := l'.heap, objs := l'.objs }
  others : ∀ o x, (∀ n, x ≠ .node n) → l.objs.lookup o = some x → l'.objs.lookup o = some x

theorem OnlyNodes.refl (l : YangList) : OnlyNodes l l := ⟨rfl, fun _ _ _ h => h⟩

theorem OnlyNodes.trans {l'' : YangList} (h : OnlyNodes l l') (h' : OnlyNodes l' l'') :
    OnlyNodes l l'' where
  same := by
    rw [h'.same, h.same]
  others o x hx hlookup := h'.others o x hx (h.others o x hx hlookup)

/-- Strings and Lua values stay. -/
theorem OnlyNodes.get_eq (h : OnlyNodes l l') {r : Resource} (hr : l.get r ≠ none) :
    l'.get r = l.get r := by
  obtain ⟨v, hv⟩ := Option.ne_none_iff_exists'.mp hr
  rw [hv]
  cases r with
  | str o =>
    obtain ⟨s, hs, rfl⟩ := get_str.mp hv
    exact get_str.mpr ⟨s, h.others o _ (fun n hn => nomatch hn) hs, rfl⟩
  | lvalue name idx =>
    rw [h.same]
    exact hv

theorem OnlyNodes.stored (h : OnlyNodes l l') (hstored : Stored l fields cs row) :
    Stored l' fields cs row :=
  hstored.congr fun _ hr => h.get_eq (hstored.get_ne_none hr)

theorem OnlyNodes.setNode (hnode : l.objs.lookup r = some (.node node)) :
    OnlyNodes l (l.setNode r node') where
  same := rfl
  others o x hx hlookup := by
    show (l.objs.insert r _).lookup o = some x
    rw [lookup_insert_ite, if_neg]
    · exact hlookup
    · rintro rfl
      cases hnode.symm.trans hlookup
      exact hx _ rfl

/-- There is a leaf with a key. -/
def Keyed (conf : ListConf) (l : YangList) (o : Nat) (row : Row) : Prop :=
  ∃ x, l.objs.lookup o = some (.leaf x) ∧ Stored l conf.keys x.keys row ∧ RowTyped conf.keys row

theorem Keyed.onlyNodes (h : Keyed conf l o row) (honly : OnlyNodes l l') : Keyed conf l' o row := by
  obtain ⟨x, hx, hstored, htyped⟩ := h
  exact ⟨x, honly.others o _ (fun n hn => nomatch hn) hx, honly.stored hstored, htyped⟩

/-- The digits of the leaves, given their keys. -/
def digitsOf (conf : ListConf) (keyOf : Nat → Row) (o : Nat) : Nat → Fin 16 :=
  digit (keyHash conf (keyOf o))

variable {keyOf : Nat → Row} {os : Set Nat} {depth j : Nat}

theorem insertLeaf_free (depth : Nat) (hhash : Hashable conf) (hg : Grown l T)
    (hkeyed : Keyed conf l o (keyOf o)) (hlevel : AtLevel (keyHash conf (keyOf o)) n d s h)
    (hnode : T (path (digitsOf conf keyOf o) n) = some (.node r))
    (hfree : T (path (digitsOf conf keyOf o) (n + 1)) = none) (hledger : Ledger leafSize l) :
    ∃ l', insertLeaf conf (depth + 1) l o r d s h = .ok l' ∧
      Grown l' (update T (path (digitsOf conf keyOf o) (n + 1)) (some (.leaf o))) ∧
      OnlyNodes l l' ∧ Ledger leafSize l' ∧ l'.heap = l.heap := by
  obtain ⟨x, hx, hstored, htyped⟩ := hkeyed
  obtain ⟨node, hread, hlookup, hbound, hchild⟩ := hg.child hnode
  have hslot := hchild (digitsOf conf keyOf o n)
  rw [← path_succ, hfree] at hslot
  have hclear : node.occupied.testBit (digitsOf conf keyOf o n) = false := hslot
  have hrun : insertLeaf conf (depth + 1) l o r d s h = _ :=
    (bind_of_eq_ok (leaf_of_lookup hx)).trans ((bind_of_eq_ok
      (hlevel.hashOr (leafHash_spec hhash hstored htyped))).trans (bind_of_eq_ok hread))
  refine ⟨l.setNode r (((node.setOccupied (digitsOf conf keyOf o n) true).setLeaf
    (digitsOf conf keyOf o n) true).setChild (digitsOf conf keyOf o n) o), ?_, ?_,
    OnlyNodes.setNode hlookup, hledger.set hlookup rfl, rfl⟩
  · rw [hrun, hlevel.index]
    have hindex : (digit (keyHash conf (keyOf o)) n : Nat) = digitsOf conf keyOf o n := rfl
    simp only [nodeOccupied_iff, hindex, hclear]
    rfl
  · rw [path_succ]
    rw [path_succ] at hfree
    refine hg.put hnode hlookup (changed_insert hbound) (fun j => ?_) (fun r' hr' => nomatch hr')
      (fun r' hr' => nomatch hr') rfl (lookup_insert _) fun p' r' hne _ => ?_
    · exact hg.shape.below (fun r' hr' => nomatch hfree.symm.trans hr') j
    · exact lookup_insert_ne hne

theorem split_spec (hg : Grown l T) (hnode : T p = some (.node r))
    (hslot : T (p ++ [i]) = some (.leaf lo)) (hlookup : l.objs.lookup r = some (.node node))
    (hledger : Ledger leafSize l) (hroom : Room l (j + 1)) :
    ∃ l₁ nn, l.allocNode = .ok (l₁, nn) ∧
      Grown ((l₁.setNode nn { zero with parent := r }).setNode r
          ((node.setChild i nn).setLeaf i false))
        (update T (p ++ [i]) (some (.node nn))) ∧
      OnlyNodes l ((l₁.setNode nn { zero with parent := r }).setNode r
          ((node.setChild i nn).setLeaf i false)) ∧
      Ledger leafSize ((l₁.setNode nn { zero with parent := r }).setNode r
          ((node.setChild i nn).setLeaf i false)) ∧
      Room ((l₁.setNode nn { zero with parent := r }).setNode r
          ((node.setChild i nn).setLeaf i false)) j := by
  obtain ⟨heap, nn, halloc, hnone, hledger₁, hroom₁⟩ := alloc_spec (x := .node zero) hledger
    (show sizeOf leafSize (.node zero) = ListNode.size from rfl) (by decide) (by decide) hroom
  have hne : nn ≠ r := by
    rintro rfl
    cases hnone.symm.trans hlookup
  have hfresh : ∀ p, T p ≠ some (.node nn) := by
    intro p hp
    obtain ⟨n, hn, -⟩ := hg.nodes p nn hp
    cases hnone.symm.trans hn
  obtain ⟨n, hn, hbound, hchild⟩ := hg.nodes p r hnode
  obtain rfl : n = node := by
    cases hn.symm.trans hlookup
    rfl
  have hoccupied := hchild i
  rw [hslot] at hoccupied
  have hothers : ∀ o x, o ≠ nn → o ≠ r → l.objs.lookup o = some x →
      (((l.objs.insert nn (.node zero)).insert nn (.node { zero with parent := r })).insert r
        (.node ((n.setChild i nn).setLeaf i false))).lookup o = some x := by
    intro o x hnn hr hx
    rw [lookup_insert_ne hr, lookup_insert_ne hnn, lookup_insert_ne hnn, hx]
  refine ⟨_, nn, halloc, ?_, ?_, ?_, hroom₁⟩
  · refine hg.put hnode hlookup (changed_split hbound hoccupied.1) (fun j => ?_) (fun r' hr' => ?_)
      (fun r' hr' => ?_) rfl (lookup_insert _) fun p' r' hr hp' => ?_
    · exact hg.shape.below (fun r' hr' => nomatch hslot.symm.trans hr') j
    · cases hr'
      exact hfresh
    · cases hr'
      show AList.lookup nn (AList.insert r _ _) = _
      rw [lookup_insert_ne hne]
      exact lookup_insert _
    · obtain ⟨n', hn', -⟩ := hg.nodes p' r' hp'
      rw [hn']
      refine hothers r' _ ?_ hr hn'
      rintro rfl
      exact hfresh p' hp'
  · refine ⟨rfl, fun o x hx hlookup' => hothers o x ?_ ?_ hlookup'⟩
    · rintro rfl
      cases hnone.symm.trans hlookup'
    · rintro rfl
      cases hlookup'.symm.trans hlookup
      exact hx _ rfl
  · have hset := hledger₁.set (y := .node { zero with parent := r }) (lookup_insert _) rfl
    refine hset.set (x := .node n) ?_ rfl
    show AList.lookup r (AList.insert nn _ (AList.insert nn _ _)) = _
    rw [lookup_insert_ne hne.symm, lookup_insert_ne hne.symm, hlookup]

/-- **`insert_leaf` makes nodes until the leaves are told apart.** -/
theorem insertLeaf_spec (hhash : Hashable conf) (hg : Grown l T)
    (hplaced : Placed T (digitsOf conf keyOf) os)
    (hcompact : Compact T (digitsOf conf keyOf) (insert o os))
    (hkeyed : ∀ o' ∈ insert o os, Keyed conf l o' (keyOf o'))
    (hlevel : AtLevel (keyHash conf (keyOf o)) n d s h)
    (hnode : T (path (digitsOf conf keyOf o) n) = some (.node r))
    (hend : ∀ r', T (path (digitsOf conf keyOf o) (n + 1)) ≠ some (.node r'))
    (hdepth : 0 < depth) (ho : o ∉ os)
    (hapart : ∀ lo, T (path (digitsOf conf keyOf o) (n + 1)) = some (.leaf lo) →
      ∃ k < n + depth, digitsOf conf keyOf o k ≠ digitsOf conf keyOf lo k)
    (hledger : Ledger leafSize l) (hroom : Room l (depth + j)) :
    ∃ l' T', insertLeaf conf depth l o r d s h = .ok l' ∧ Grown l' T' ∧
      Placed T' (digitsOf conf keyOf) (insert o os) ∧
      Compact T' (digitsOf conf keyOf) (insert o os) ∧ OnlyNodes l l' ∧ Ledger leafSize l' ∧
      Room l' j := by
  induction depth generalizing l T n r d s h with
  | zero => exact absurd hdepth (lt_irrefl 0)
  | succ depth ih =>
    cases hslot : T (path (digitsOf conf keyOf o) (n + 1)) with
    | none =>
      obtain ⟨l', hrun, hg', honly, hledger', hheap⟩ := insertLeaf_free depth hhash hg
        (hkeyed o (mem_insert o os)) hlevel hnode hslot hledger
      refine ⟨l', _, hrun, hg', hplaced.put_leaf rfl hslot, ?_, honly, hledger', ?_⟩
      · intro p r' hp hp'
        rw [update_apply] at hp'
        split_ifs at hp'
        · cases hp'
        · exact hcompact p r' hp hp'
      · simp only [Room, hheap] at hroom ⊢
        exact (Nat.add_le_add_left (Nat.mul_le_mul_right _ (by omega)) _).trans hroom
    | some y =>
      cases y with
      | node r' => exact absurd hslot (hend r')
      | leaf lo =>
        obtain ⟨hlo, hpath⟩ := hplaced.only _ lo hslot
        rw [path_length] at hpath
        obtain ⟨k, hk, hdiffer⟩ := hapart lo hslot
        -- the leaves differ below the new node
        have hbelow : n < k := by
          by_contra hle
          refine hdiffer ?_
          have hget := congrArg (fun q => q[k]?) hpath
          have hlt : k < n + 1 := by omega
          simpa [path, hlt] using hget
        obtain ⟨x, hx, hstored, htyped⟩ := hkeyed o (mem_insert o os)
        obtain ⟨node, hread, hlookup, hbound, hchild⟩ := hg.child hnode
        have hbits := hchild (digitsOf conf keyOf o n)
        rw [← path_succ, hslot] at hbits
        have hslot' := hslot
        rw [path_succ] at hslot'
        obtain ⟨l₁, nn, halloc, hg₂, honly₂, hledger₂, hroom₂⟩ := split_spec hg hnode hslot' hlookup
          hledger (hroom.mono (show depth + j + 1 ≤ depth + 1 + j by omega))
        rw [← path_succ] at hg₂
        generalize hl₂ : (l₁.setNode nn { zero with parent := r }).setNode r _ = l₂
          at hg₂ honly₂ hledger₂ hroom₂
        have hplaced₂ := (hplaced.take_leaf hg.shape hslot).put_node (r := nn)
          (update_self ..)
        rw [update_idem] at hplaced₂
        have hnext := hlevel.next
        have hunder : ∀ i, T (path (digitsOf conf keyOf o) (n + 1) ++ [i]) = none := fun i =>
          hg.shape.below (by simp [hslot]) i
        -- the leaf that was there goes into the new node
        obtain ⟨depth, rfl⟩ : ∃ depth', depth = depth' + 1 := ⟨depth - 1, by omega⟩
        obtain ⟨l₃, hrun₃, hg₃, honly₃, hledger₃, hheap₃⟩ := insertLeaf_free depth hhash hg₂
          ((hkeyed lo (mem_insert_of_mem o hlo)).onlyNodes honly₂)
          (h := none) (n := n + 1) (r := nn) ⟨hnext.shift, hnext.seed, by simp⟩
          (by rw [← hpath, update_self])
          (by rw [path_succ (n := n + 1), ← hpath, update_of_ne (by simp), hunder]) hledger₂
        have hfree₂ : update T (path (digitsOf conf keyOf o) (n + 1)) (some (.node nn))
            (path (digitsOf conf keyOf lo) (n + 2)) = none := by
          rw [path_succ (n := n + 1), ← hpath, update_of_ne (by simp), hunder]
        have hplaced₃ := hplaced₂.put_leaf (o := lo) rfl hfree₂
        rw [insert_sdiff_self_of_mem hlo] at hplaced₃
        -- the new one follows it
        have hne : path (digitsOf conf keyOf o) (n + 1) ≠ path (digitsOf conf keyOf lo) (n + 2) :=
          fun heq => by simpa using congrArg List.length heq
        have hcompact₃ : Compact (update (update T
            (path (digitsOf conf keyOf o) (n + 1)) (some (.node nn)))
            (path (digitsOf conf keyOf lo) (n + 2)) (some (.leaf lo))) (digitsOf conf keyOf)
            (insert o os) := by
          intro p r' hp hp'
          simp only [update_apply] at hp'
          split_ifs at hp' with hleaf hnew
          · cases hp'
          · refine ⟨o, mem_insert o os, lo, mem_insert_of_mem o hlo, ?_, ?_, ?_⟩
            · rintro rfl
              exact ho hlo
            · rw [hnew, path_length]
            · rw [hnew, path_length, hpath]
          · exact hcompact p r' hp hp'
        have hslot₃ : ∀ y, update (update T
            (path (digitsOf conf keyOf o) (n + 1)) (some (.node nn)))
            (path (digitsOf conf keyOf lo) (n + 2)) (some (.leaf lo))
            (path (digitsOf conf keyOf o) (n + 2)) = some y → y = .leaf lo := by
          intro y hy
          rw [update_apply] at hy
          split_ifs at hy
          · exact (Option.some.inj hy).symm
          · rw [path_succ (n := n + 1), update_of_ne (by simp), hunder] at hy
            cases hy
        obtain ⟨l', T', hrun', hg', hplaced', hcompact', honly', hledger', hroom'⟩ := ih hg₃ hplaced₃
          hcompact₃ (fun o' ho' => (hkeyed o' ho').onlyNodes (honly₂.trans honly₃)) hnext
          (by rw [update_of_ne hne, update_self])
          (fun r' hr' => by cases hslot₃ _ hr') (Nat.succ_pos depth)
          (fun lo' hlo' => ⟨k, by omega, by cases hslot₃ _ hlo'; exact hdiffer⟩) hledger₃
          (by rwa [Room, hheap₃])
        refine ⟨l', T', ?_, hg', hplaced', hcompact', (honly₂.trans honly₃).trans honly', hledger',
          hroom'⟩
        have hrun : insertLeaf conf (depth + 1 + 1) l o r d s h = _ :=
          (bind_of_eq_ok (leaf_of_lookup hx)).trans ((bind_of_eq_ok
            (hlevel.hashOr (leafHash_spec hhash hstored htyped))).trans (bind_of_eq_ok hread))
        have hindex : (digit (keyHash conf (keyOf o)) n : Nat) = digitsOf conf keyOf o n := rfl
        rw [hrun, hlevel.index, hindex]
        simp only [nodeOccupied_iff, nodeLeaf_iff, hbits.1, hbits.2.1, hbits.2.2]
        rw [bind_of_eq_ok halloc]
        simp only [hl₂]
        rw [bind_of_eq_ok hrun₃]
        exact hrun'

/-! ## Removing -/

theorem collapse_spec {rp : Nat} {parent : ListNode} {i₀ : Fin 16} (hg : Grown l T)
    (hparent : T p = some (.node rp)) (hnode : T (p ++ [i]) = some (.node r))
    (hslot : T (p ++ [i] ++ [i₀]) = some (.leaf lo)) (honly : ∀ j ≠ i₀, T (p ++ [i] ++ [j]) = none)
    (hlookup : l.objs.lookup rp = some (.node parent)) (hledger : Ledger leafSize l) :
    ∃ l', (l.setNode rp ((parent.setChild i lo).setLeaf i true)).freeNode r = .ok l' ∧
      Grown l' (update (update T (p ++ [i] ++ [i₀]) none) (p ++ [i])
        (some (.leaf lo))) ∧
      OnlyNodes l l' ∧ Ledger leafSize l' ∧ l'.heap.maxfree = l.heap.maxfree := by
  obtain ⟨node, hn, hbound, -⟩ := hg.nodes _ r hnode
  obtain ⟨n, hpn, hpbound, hpchild⟩ := hg.nodes p rp hparent
  obtain rfl : n = parent := by
    cases hpn.symm.trans hlookup
    rfl
  have hbits := hpchild i
  rw [hnode] at hbits
  have hne : r ≠ rp := by
    rintro rfl
    have heq := hg.shape.inj _ _ _ hnode hparent
    simp at heq
  -- as if the leaf were taken out of its node first
  have hempty : Grown (l.setNode r (((node.setOccupied i₀ false).setLeaf i₀ false).setChild i₀ 0))
      (update T (p ++ [i] ++ [i₀]) none) := by
    refine hg.put hnode hn (changed_remove hbound) (fun j => ?_) (fun r' hr' => nomatch hr')
      (fun r' hr' => nomatch hr') rfl (lookup_insert _) fun p' r' hr _ =>
        lookup_insert_ne hr
    exact hg.shape.below (fun r' hr' => nomatch hslot.symm.trans hr') j
  have hlookup' : (l.objs.insert r (.node (((node.setOccupied i₀ false).setLeaf i₀ false).setChild
      i₀ 0))).lookup rp = some (.node n) := by
    rw [lookup_insert_ne hne.symm, hlookup]
  have hbelow : ∀ j, update T (p ++ [i] ++ [i₀]) none (p ++ [i] ++ [j]) = none := by
    intro j
    by_cases hj : j = i₀
    · rw [hj, update_self]
    · rw [update_of_ne (by simpa using hj), honly j hj]
  have hput : Grown ((l.setNode r (((node.setOccupied i₀ false).setLeaf i₀ false).setChild
      i₀ 0)).setNode rp ((n.setChild i lo).setLeaf i true))
      (update (update T (p ++ [i] ++ [i₀]) none) (p ++ [i])
        (some (.leaf lo))) :=
    hempty.put (by rw [update_of_ne (by simp), hparent]) hlookup'
      (changed_collapse hpbound hbits.1) hbelow (fun r' hr' => nomatch hr')
      (fun r' hr' => nomatch hr') rfl (lookup_insert _) fun p' r' hr _ =>
        lookup_insert_ne hr
  have hset := hledger.set (y := .node ((n.setChild i lo).setLeaf i true)) hlookup rfl
  have hr : (l.objs.insert rp (.node ((n.setChild i lo).setLeaf i true))).lookup r =
      some (.node node) := by
    rw [lookup_insert_ne hne, hn]
  obtain ⟨heap, hrelease, hledger', hmax⟩ :=
    release_spec hset hr (show sizeOf leafSize (.node node) = ListNode.size from rfl)
  refine ⟨_, hrelease, ?_, ⟨rfl, fun o x hx hlookup'' => ?_⟩, hledger', hmax⟩
  · refine hput.congr rfl fun p' r' hp' => ?_
    have hr' : r' ≠ r := by
      rintro rfl
      simp only [update_apply] at hp'
      split_ifs at hp' with hq hq'
      · cases hp'
      · exact hq (hg.shape.inj _ _ _ hp' hnode)
    show ((l.objs.insert rp _).erase r).lookup r' = ((l.objs.insert r _).insert rp _).lookup r'
    rw [lookup_erase_ite, if_neg hr', lookup_insert_ite, lookup_insert_ite,
      lookup_insert_ne hr']
  · show ((l.objs.insert rp _).erase r).lookup o = some x
    have hor : o ≠ r := by
      rintro rfl
      cases hn.symm.trans hlookup''
      exact hx _ rfl
    have horp : o ≠ rp := by
      rintro rfl
      cases hlookup.symm.trans hlookup''
      exact hx _ rfl
    rw [lookup_erase_ite, if_neg hor, lookup_insert_ne horp, hlookup'']

theorem testBit_of_child (h : Child node i y) : node.occupied.testBit i = true ↔ y ≠ none := by
  cases y with
  | none =>
    have hclear : node.occupied.testBit i = false := h
    simp [hclear]
  | some y =>
    cases y with
    | leaf o => simp [h.1]
    | node r => simp [h.1]

theorem lt_of_testBit {k : Nat} (hv : v < 2 ^ 16) (hk : v.testBit k = true) : k < 16 := by
  by_contra hle
  have hfalse := Nat.testBit_lt_two_pow
    (hv.trans_le (Nat.pow_le_pow_right (by decide) (not_lt.mp hle)))
  rw [hfalse] at hk
  cases hk

variable (hhash : ∀ seed, entryHash conf k seed = .ok (keyHash conf (keyOf o) seed))
include hhash

/-- **`remove_obsolete_nodes` makes the trie compact.** -/
theorem removeObsoleteNodes_spec (hg : Grown l T)
    (hplaced : Placed T (digitsOf conf keyOf) os) (hloose : Loose T (digitsOf conf keyOf) os o n)
    (hlevel : AtLevel (keyHash conf (keyOf o)) n d s h)
    (hnode : T (path (digitsOf conf keyOf o) n) = some (.node r)) (hdepth : n < depth)
    (hledger : Ledger leafSize l) :
    ∃ l' T', removeObsoleteNodes conf k depth l r d s h = .ok l' ∧ Grown l' T' ∧
      Placed T' (digitsOf conf keyOf) os ∧ Compact T' (digitsOf conf keyOf) os ∧ OnlyNodes l l' ∧
      Ledger leafSize l' ∧ l'.heap.maxfree = l.heap.maxfree := by
  induction n generalizing l T r d s h depth with
  | zero =>
    obtain ⟨depth, rfl⟩ : ∃ depth', depth = depth' + 1 := ⟨depth - 1, by omega⟩
    have hroot : r = l.root := by
      cases hnode.symm.trans hg.root
      rfl
    exact ⟨l, T, if_pos hroot, hg, hplaced, hloose.compact_of_shared (.inl rfl), OnlyNodes.refl l,
      hledger, rfl⟩
  | succ n ih =>
    obtain ⟨depth, rfl⟩ : ∃ depth', depth = depth' + 1 := ⟨depth - 1, by omega⟩
    have hroot : r ≠ l.root := by
      rintro rfl
      have heq := hg.shape.inj _ _ _ hnode hg.root
      exact absurd (congrArg List.length heq) (by simp)
    obtain ⟨rp, hparent⟩ := hg.shape.above (by rw [hnode]; exact Option.some_ne_none _)
      (Nat.lt_succ_self n)
    obtain ⟨node, hread, hlookup, hbound, hchild⟩ := hg.child hnode
    obtain ⟨parent, hpread, hplookup, -, -⟩ := hg.child hparent
    have hnode' := hnode
    rw [path_succ] at hnode'
    have hup : node.parent = rp := hg.parent _ _ rp r node hparent hnode' hlookup
    have hprev := hlevel.prev
    obtain ⟨⟨d', s', h'⟩, hparams⟩ : ∃ x, prevHashParameters d s h = x := ⟨_, rfl⟩
    rw [hparams] at hprev
    have hindex : nodeIndex d' (keyHash conf (keyOf o) s') = digitsOf conf keyOf o n := hprev.index
    -- a leaf is left below the node
    have hpathne : path (digitsOf conf keyOf o) (n + 1) ≠ [] := fun heq =>
      absurd (congrArg List.length heq) (by simp)
    obtain ⟨lo, hlo, hlopath⟩ := exists_below hplaced hloose.compact hpathne
      (by rw [hnode]; exact Option.some_ne_none _)
    have hsome := exists_child hg.shape hplaced hlo hlopath hnode
    have hne : node.occupied ≠ 0 := by
      intro hzero
      have hbit := (testBit_of_child (hchild _)).mpr hsome
      rw [hzero, Nat.zero_testBit] at hbit
      cases hbit
    rw [removeObsoleteNodes, if_neg hroot, bind_of_eq_ok hread, hparams]
    dsimp only
    rw [bind_of_eq_ok (hprev.hashOr (hhash s')), hup, bind_of_eq_ok hpread]
    simp only [if_neg hne]
    by_cases hone : node.occupied &&& (node.occupied - 1) = 0
    · have hmsb := msbSet_spec hne hone
      have hset : node.occupied.testBit (msbSet node.occupied) = true := (hmsb _).mpr rfl
      obtain ⟨i₀, hi₀⟩ : ∃ i₀ : Fin 16, i₀ = msbSet node.occupied :=
        ⟨⟨_, lt_of_testBit hbound hset⟩, rfl⟩
      have hothers : ∀ j ≠ i₀, T (path (digitsOf conf keyOf o) (n + 1) ++ [j]) = none := by
        intro j hj
        by_contra hused
        have hbit := (hmsb j).mp ((testBit_of_child (hchild j)).mpr hused)
        exact hj (Fin.ext (hbit.trans hi₀.symm))
      have hused : T (path (digitsOf conf keyOf o) (n + 1) ++ [i₀]) ≠ none :=
        (testBit_of_child (hchild i₀)).mp (hi₀ ▸ hset)
      have hbits := hchild i₀
      simp only [if_pos hone, ← hi₀, nodeLeaf_iff]
      cases hslot : T (path (digitsOf conf keyOf o) (n + 1) ++ [i₀]) with
      | none => exact absurd hslot hused
      | some y =>
        rw [hslot] at hbits
        cases y with
        | node r' =>
          have hshared := hloose.shared_of_child path_length hslot
          rw [if_neg (by rw [hbits.2.1]; exact Bool.false_ne_true)]
          exact ⟨l, T, rfl, hg, hplaced, hloose.compact_of_shared (.inr hshared),
            OnlyNodes.refl l, hledger, rfl⟩
        | leaf lo' =>
          rw [if_pos hbits.2.1, hindex, hbits.2.2]
          have hslot' := hslot
          rw [path_succ] at hslot' hothers
          obtain ⟨l₁, hfree, hg₁, honly₁, hledger₁, hmax₁⟩ := collapse_spec hg hparent hnode' hslot'
            hothers hplookup hledger
          rw [bind_of_eq_ok hfree]
          -- what changes are a leaf and a node on the path
          have hnodes : ∀ p r', update (update T (path (digitsOf conf keyOf o) n ++
              [digitsOf conf keyOf o n] ++ [i₀]) none) (path (digitsOf conf keyOf o) n ++
              [digitsOf conf keyOf o n]) (some (.leaf lo')) p = some (.node r') →
              p ≠ path (digitsOf conf keyOf o) (n + 1) ∧ T p = some (.node r') := by
            intro p r' hp
            simp only [update_apply] at hp
            split_ifs at hp with hq
            · cases hp
            · exact ⟨by rwa [path_succ], hp⟩
          have hloose₁ : Loose (update (update T (path (digitsOf conf keyOf o) n ++
              [digitsOf conf keyOf o n] ++ [i₀]) none) (path (digitsOf conf keyOf o) n ++
              [digitsOf conf keyOf o n]) (some (.leaf lo'))) (digitsOf conf keyOf) os o n := by
            refine ⟨fun p r' hp hp' => hloose.compact p r' hp (hnodes p r' hp').2,
              fun m r' hm hp' => ?_⟩
            obtain ⟨hother, hp⟩ := hnodes _ r' hp'
            refine hloose.strict m r' (Nat.lt_of_le_of_ne hm ?_) hp
            rintro rfl
            exact hother rfl
          obtain ⟨hlo', hpath⟩ := hplaced.only _ lo' hslot
          have hself := (path_of_path_append hpath.symm).symm
          rw [path_succ] at hself
          have hnode₁ : update T (path (digitsOf conf keyOf o) n ++
              [digitsOf conf keyOf o n] ++ [i₀]) none (path (digitsOf conf keyOf o) n ++
              [digitsOf conf keyOf o n]) = some (.node r) := by
            rw [update_of_ne (by simp), hnode']
          have hplaced₁ := ((hplaced.take_leaf hg.shape hslot').take_node hnode₁).put_leaf hself
            (update_self ..)
          rw [update_idem, insert_sdiff_self_of_mem hlo'] at hplaced₁
          obtain ⟨l', T', hrun', hg', hplaced', hcompact', honly', hledger', hmax'⟩ := ih hg₁ hplaced₁
            hloose₁ hprev.given (by rw [update_of_ne (by simp), update_of_ne
              (by simp [append_assoc]), hparent]) (show n < depth by omega) hledger₁
          exact ⟨l', T', hrun', hg', hplaced', hcompact', honly₁.trans honly', hledger',
            hmax'.trans hmax₁⟩
    · simp only [if_neg hone]
      obtain ⟨a, b, hab, ha, hb⟩ := exists_two_bits hne hone
      have ha' := (testBit_of_child (hchild ⟨a, lt_of_testBit hbound ha⟩)).mp ha
      have hb' := (testBit_of_child (hchild ⟨b, lt_of_testBit hbound hb⟩)).mp hb
      have hshared := shared_of_two hplaced hloose.compact
        (fun heq => hab (congrArg Fin.val heq)) ha' hb'
      exact ⟨l, T, rfl, hg, hplaced, hloose.compact_of_shared (.inr hshared), OnlyNodes.refl l,
        hledger, rfl⟩

/-- **`remove_child` takes the leaf with a key out of the trie.** -/
theorem removeChild_spec (hg : Grown l T) (hplaced : Placed T (digitsOf conf keyOf) os)
    (hcompact : Compact T (digitsOf conf keyOf) os) (ho : o ∈ os)
    (hlevel : AtLevel (keyHash conf (keyOf o)) n d s (some (keyHash conf (keyOf o) s)))
    (hnode : T (path (digitsOf conf keyOf o) n) = some (.node r))
    (hslot : T (path (digitsOf conf keyOf o) (n + 1)) = some (.leaf o)) (hdepth : n ≤ conf.depth)
    (hledger : Ledger leafSize l) :
    ∃ l' T', l.removeChild conf k r d s (keyHash conf (keyOf o) s) = .ok l' ∧ Grown l' T' ∧
      Placed T' (digitsOf conf keyOf) (os \ {o}) ∧
      Compact T' (digitsOf conf keyOf) (os \ {o}) ∧ OnlyNodes l l' ∧ Ledger leafSize l' ∧
      l'.heap.maxfree = l.heap.maxfree := by
  obtain ⟨node, hread, hlookup, hbound, hchild⟩ := hg.child hnode
  have hbits := hchild (digitsOf conf keyOf o n)
  rw [← path_succ, hslot] at hbits
  have hbelow : ∀ j, T (path (digitsOf conf keyOf o) (n + 1) ++ [j]) = none := fun j =>
    hg.shape.below (fun r' hr' => nomatch hslot.symm.trans hr') j
  have hindex : nodeIndex d (keyHash conf (keyOf o) s) = digitsOf conf keyOf o n := hlevel.index
  have hg₁ : Grown (l.setNode r (((node.setOccupied (digitsOf conf keyOf o n) false).setLeaf
      (digitsOf conf keyOf o n) false).setChild (digitsOf conf keyOf o n) 0))
      (update T (path (digitsOf conf keyOf o) (n + 1)) none) := by
    rw [path_succ] at hbelow ⊢
    exact hg.put hnode hlookup (changed_remove hbound) hbelow (fun r' hr' => nomatch hr')
      (fun r' hr' => nomatch hr') rfl (lookup_insert _)
      fun p' r' hne _ => lookup_insert_ne hne
  have hplaced₁ := hplaced.take_leaf hg.shape hslot
  have hloose : Loose (update T (path (digitsOf conf keyOf o) (n + 1)) none)
      (digitsOf conf keyOf) (os \ {o}) o n := by
    refine ⟨fun p r' hp hp' => ?_, fun m r' hm hp' => ?_⟩
    · rw [update_apply] at hp'
      split_ifs at hp'
      rw [insert_sdiff_self_of_mem ho]
      exact hcompact p r' hp hp'
    · rw [update_apply] at hp'
      split_ifs at hp' with heq
      -- below a leaf there is no node
      have hlt : n + 1 < m := by
        refine Nat.lt_of_le_of_ne hm ?_
        rintro rfl
        exact heq rfl
      obtain ⟨r'', hr''⟩ := hg.shape.above (by rw [hp']; exact Option.some_ne_none _) hlt
      cases hslot.symm.trans hr''
  obtain ⟨l', T', hrun, hg', hplaced', hcompact', honly, hledger', hmax⟩ :=
    removeObsoleteNodes_spec hhash hg₁ hplaced₁ hloose hlevel
      (by rw [path_succ, update_of_ne (by simp), hnode])
      (show n < conf.depth + 1 by omega)
      (hledger.set hlookup rfl)
  refine ⟨l', T', ?_, hg', hplaced', hcompact', (OnlyNodes.setNode hlookup).trans honly, hledger',
    hmax⟩
  rw [removeChild, bind_of_eq_ok hread]
  simp only [hindex, nodeOccupied_iff, nodeLeaf_iff]
  rw [if_pos ⟨hbits.1, hbits.2.1⟩]
  exact hrun

end YangList

end Snabb
