import Snabb.Lib.Yang.List

/-!
# The objects and the fields of a list (`lib/yang/list.lua`)

`Ledger` says that the objects of a list are the allocations of its heap. The fields of a leaf
refer to strings in the heap and to Lua values beside it: these are its resources, and no
resource belongs to two fields.

- `alloc_spec`, `release_spec`, `Ledger.set`: what happens to the objects;
- `packFields_spec`, `freeFields_spec`, `unpackFields_spec`: what is packed can be read until it
  is freed, whatever else is packed or freed.
-/

namespace Snabb

open Foundation List Table Option AList
open Function (update update_apply update_of_ne update_self)

namespace YangList

open ListNode

/-! ## Objects -/

/-- The memory that an object takes. -/
def sizeOf (leafSize : Nat) : ListObject → Nat
  | .node _ => ListNode.size
  | .leaf _ => leafSize
  | .str s => strSize s

/-- The region of an object. -/
def region (leafSize : Nat) (e : Sigma fun _ : Nat => ListObject) : Heap.Region :=
  (e.1, sizeOf leafSize e.2)

/-- The objects are what is allocated. -/
def Ledger (leafSize : Nat) (l : YangList) : Prop :=
  l.heap.Holds (l.objs.entries.map (region leafSize))

/-- The heap can take `n` more blocks. -/
def Room (l : YangList) (n : Nat) : Prop := l.heap.maxfree + n * Heap.blockSize ≤ 2 ^ 31

variable {conf : ListConf} {l l' : YangList} {o o' n m bytes leafSize : Nat} {x y : ListObject}

theorem Room.mono (h : Room l n) (hle : m ≤ n) : Room l m :=
  (Nat.add_le_add_left (Nat.mul_le_mul_right _ hle) _).trans h

/-- An object is allocated at an offset that is not in use. -/
theorem alloc_spec (hl : Ledger leafSize l) (hsize : sizeOf leafSize x = bytes) (hpos : 0 < bytes)
    (hle : bytes ≤ Heap.blockSize) (hroom : Room l (n + 1)) :
    ∃ heap o, l.alloc bytes x = .ok ({ l with heap := heap, objs := l.objs.insert o x }, o) ∧
      l.objs.lookup o = none ∧
      Ledger leafSize { l with heap := heap, objs := l.objs.insert o x } ∧
      Room { l with heap := heap, objs := l.objs.insert o x } n := by
  have hmax : l.heap.maxfree < 2 ^ 31 := by
    simp only [Room, Heap.blockSize] at hroom
    omega
  obtain ⟨heap, o, halloc, hholds, hgrow⟩ := Heap.allocate_spec hl hpos hle hmax
  have hnone : l.objs.lookup o = none := by
    cases hlookup : l.objs.lookup o with
    | none => rfl
    | some y =>
      have hmem : (⟨o, y⟩ : Sigma fun _ : Nat => ListObject) ∈ l.objs.entries :=
        AList.mem_lookup_iff.mp hlookup
      exact absurd rfl (hholds.fresh _ (mem_map_of_mem hmem))
  refine ⟨heap, o, ?_, hnone, ?_, ?_⟩
  · have heq : (l.heap.allocate bytes).mapError ListRaise.heap = .ok (heap, o) := by
      rw [halloc]
      rfl
    exact bind_of_eq_ok heq
  · have hnot : o ∉ l.objs := fun hmem => by
      obtain ⟨y, hy⟩ := Table.mem_iff_lookup.mp hmem
      cases hnone.symm.trans hy
    have hregion : region leafSize ⟨o, x⟩ = (o, bytes) := Prod.ext rfl hsize
    show heap.Holds ((l.objs.insert o x).entries.map (region leafSize))
    rw [entries_insert_of_notMem hnot, map_cons, hregion]
    exact hholds
  · simp only [Room, Heap.blockSize] at hroom hgrow ⊢
    omega

theorem release_spec (hl : Ledger leafSize l) (hlookup : l.objs.lookup o = some x)
    (hsize : sizeOf leafSize x = bytes) :
    ∃ heap, l.release o bytes = .ok { l with heap := heap, objs := l.objs.erase o } ∧
      Ledger leafSize { l with heap := heap, objs := l.objs.erase o } ∧
      heap.maxfree = l.heap.maxfree := by
  have hperm := (entries_perm_erase hlookup).map (region leafSize)
  rw [map_cons, show region leafSize ⟨o, x⟩ = (o, bytes) from Prod.ext rfl hsize] at hperm
  obtain ⟨heap, hrelease, hholds, hmax⟩ := Heap.release_spec (hl.perm hperm)
  have heq : (l.heap.release o bytes).mapError ListRaise.heap = .ok heap := by
    rw [hrelease]
    rfl
  exact ⟨heap, bind_of_eq_ok heq, hholds, hmax⟩

theorem Ledger.set (hl : Ledger leafSize l) (hlookup : l.objs.lookup o = some x)
    (hsize : sizeOf leafSize y = sizeOf leafSize x) :
    Ledger leafSize { l with objs := l.objs.insert o y } := by
  have hperm := (entries_perm_erase hlookup).map (region leafSize)
  show l.heap.Holds ((l.objs.insert o y).entries.map (region leafSize))
  rw [entries_insert, map_cons,
    show region leafSize ⟨o, y⟩ = region leafSize ⟨o, x⟩ from Prod.ext rfl hsize]
  exact hl.perm hperm

/-! ## Rows -/

/-- The values of some fields. -/
abbrev Row := List (Option YangValue)

/-- What an entry says of some fields. -/
def rowOf (fields : List FieldSpec) (e : Entry) : Row := fields.map fun f => e f.name

/-- The value has the type that the field declares. -/
def HasType (f : FieldSpec) : Option YangValue → Prop
  | none => f.optional = true
  | some (.string _) => f.kind = .string
  | some .empty => f.kind = .empty
  | some (.data bytes) => f.kind = .ctype bytes.length
  | some (.lvalue _) => f.kind = .lvalue

instance (f : FieldSpec) (v : Option YangValue) : Decidable (HasType f v) := by
  unfold HasType
  split <;> infer_instance

/-- The values of an entry have the types that some fields declare. -/
def Typed (fields : List FieldSpec) (e : Entry) : Prop := ∀ f ∈ fields, HasType f (e f.name)

instance (fields : List FieldSpec) (e : Entry) : Decidable (Typed fields e) :=
  inferInstanceAs (Decidable (∀ _ ∈ _, _))

/-- The value can be stored: a string fits into a block, and a Lua value is not false. -/
def Storable : Option YangValue → Prop
  | some (.string s) => strSize s ≤ Heap.blockSize
  | some (.lvalue v) => v ≠ .boolean false
  | _ => True

instance (v : Option YangValue) : Decidable (Storable v) := by
  unfold Storable
  split <;> infer_instance

/-- The assignments that make a row a Lua table. -/
def assignments : List FieldSpec → Row → List (String × YangValue)
  | f :: fields, some v :: row => (f.name, v) :: assignments fields row
  | _ :: fields, none :: row => assignments fields row
  | _, _ => []

/-! ## Resources -/

/-- What a cell refers to. -/
inductive Resource where
  | str (o : Nat)
  | lvalue (name : String) (idx : Nat)
deriving DecidableEq

/-- The value of a resource. -/
def get (l : YangList) : Resource → Option YangValue
  | .str o =>
    match l.objs.lookup o with
    | some (.str s) => some (.string s)
    | _ => none
  | .lvalue name idx => ((l.lvalues name).lookup idx).map .lvalue

/-- The value of a cell. -/
def valueOf (l : YangList) (f : FieldSpec) : Cell → Option YangValue
  | .str o => l.get (.str o)
  | .empty => some .empty
  | .data bytes => some (.data bytes)
  | .lvalue idx => l.get (.lvalue f.name idx)

def cellResources (f : FieldSpec) : Cell → List Resource
  | .str o => [.str o]
  | .lvalue idx => [.lvalue f.name idx]
  | _ => []

/-- The resources of some fields. -/
def resources : List FieldSpec → List (Option Cell) → List Resource
  | f :: fields, some c :: cs => cellResources f c ++ resources fields cs
  | _ :: fields, none :: cs => resources fields cs
  | _, _ => []

/-- The cells of some fields hold a row. -/
inductive Stored (l : YangList) : List FieldSpec → List (Option Cell) → Row → Prop where
  | nil : Stored l [] [] []
  | present {f : FieldSpec} {fields : List FieldSpec} {c : Cell} {cs : List (Option Cell)}
      {v : YangValue} {row : Row} (value : l.valueOf f c = some v)
      (rest : Stored l fields cs row) : Stored l (f :: fields) (some c :: cs) (some v :: row)
  | absent {f : FieldSpec} {fields : List FieldSpec} {cs : List (Option Cell)} {row : Row}
      (rest : Stored l fields cs row) : Stored l (f :: fields) (none :: cs) (none :: row)

variable {f : FieldSpec} {fields : List FieldSpec} {c : Cell} {cs : List (Option Cell)}
  {v : YangValue} {value : Option YangValue} {row : Row} {e : Entry} {r : Resource}
  {rs rs' : List Resource} {l'' : YangList}

theorem valueOf_congr (h : ∀ r ∈ cellResources f c, l'.get r = l.get r) :
    l'.valueOf f c = l.valueOf f c := by
  cases c with
  | str o | lvalue idx => exact h _ (mem_singleton_self _)
  | empty => rfl
  | data bytes => rfl

theorem Stored.congr (hstored : Stored l fields cs row)
    (h : ∀ r ∈ resources fields cs, l'.get r = l.get r) : Stored l' fields cs row := by
  induction hstored with
  | nil => exact .nil
  | present value _ ih =>
    refine .present ?_ (ih fun r hr => h r (mem_append_right _ hr))
    rw [valueOf_congr fun r hr => h r (mem_append_left _ hr)]
    exact value
  | absent _ ih => exact .absent (ih h)

theorem get_of_valueOf (hvalue : l.valueOf f c = some v) (hr : r ∈ cellResources f c) :
    l.get r = some v := by
  cases c with
  | str o | lvalue idx => rwa [mem_singleton.mp hr]
  | empty => cases hr
  | data bytes => cases hr

theorem Stored.get_ne_none (hstored : Stored l fields cs row) (hr : r ∈ resources fields cs) :
    l.get r ≠ none := by
  induction hstored with
  | nil => cases hr
  | present value _ ih =>
    rcases mem_append.mp hr with hhead | htail
    · rw [get_of_valueOf value hhead]
      exact some_ne_none _
    · exact ih htail
  | absent _ ih => exact ih hr

theorem get_str : l.get (.str o) = some v ↔ ∃ s, l.objs.lookup o = some (.str s) ∧ v = .string s := by
  rw [get]
  constructor
  · intro h
    split at h
    · next s hs => exact ⟨s, hs, (Option.some.inj h).symm⟩
    · cases h
  · rintro ⟨s, hs, rfl⟩
    rw [hs]

theorem tostring_of_lookup {s : List UInt8} (h : l.objs.lookup o = some (.str s)) :
    l.tostring o = .ok s := by
  rw [tostring, h]

theorem leaf_of_lookup {x : ListLeaf} (hx : l.objs.lookup o = some (.leaf x)) :
    l.leaf o = .ok x := by
  rw [leaf, hx]

theorem unpackMandatory_spec (hvalue : l.valueOf f c = some v) : l.unpackMandatory f c = .ok v := by
  cases c with
  | str o =>
    obtain ⟨s, hs, rfl⟩ := get_str.mp hvalue
    exact bind_of_eq_ok (tostring_of_lookup hs)
  | empty | data bytes =>
    cases hvalue
    rfl
  | lvalue idx =>
    obtain ⟨u, hu, rfl⟩ := Option.map_eq_some_iff.mp hvalue
    rw [unpackMandatory, hu]

/-- **What is stored can be read.** -/
theorem unpackFields_spec (hstored : Stored l fields cs row) :
    l.unpackFields fields cs = .ok (assignments fields row) := by
  induction hstored with
  | nil => rfl
  | present value _ ih =>
    rw [unpackFields, bind_of_eq_ok (unpackMandatory_spec value), bind_of_eq_ok ih]
    rfl
  | absent _ ih =>
    exact ih

/-! ## Packing -/

/-- A call has taken the resources `rs`, which were not in use, and changed nothing else. -/
structure Packs (l l' : YangList) (rs : List Resource) : Prop where
  same : l' = { l with heap := l'.heap, objs := l'.objs, lvalues := l'.lvalues }
  objs : ∀ o x, l.objs.lookup o = some x → l'.objs.lookup o = some x
  lvalues : ∀ name idx v, (l.lvalues name).lookup idx = some v →
    (l'.lvalues name).lookup idx = some v
  untouched : ∀ name, (∀ idx, .lvalue name idx ∉ rs) → l'.lvalues name = l.lvalues name
  fresh : ∀ r ∈ rs, l.get r = none
  live : ∀ r ∈ rs, l'.get r ≠ none
  nodup : rs.Nodup

theorem Packs.refl (l : YangList) : Packs l l [] where
  same := rfl
  objs _ _ h := h
  lvalues _ _ _ h := h
  untouched _ _ := rfl
  fresh _ hr := nomatch hr
  live _ hr := nomatch hr
  nodup := .nil

theorem Packs.get (h : Packs l l' rs) (hr : l.get r = some v) : l'.get r = some v := by
  cases r with
  | str o =>
    obtain ⟨s, hs, rfl⟩ := get_str.mp hr
    exact get_str.mpr ⟨s, h.objs o _ hs, rfl⟩
  | lvalue name idx =>
    obtain ⟨u, hu, rfl⟩ := Option.map_eq_some_iff.mp hr
    exact Option.map_eq_some_iff.mpr ⟨u, h.lvalues name idx u hu, rfl⟩

theorem Packs.get_eq (h : Packs l l' rs) (hr : l.get r ≠ none) : l'.get r = l.get r := by
  obtain ⟨v, hv⟩ := Option.ne_none_iff_exists'.mp hr
  rw [hv]
  exact h.get hv

theorem Packs.trans (h : Packs l l' rs) (h' : Packs l' l'' rs') : Packs l l'' (rs ++ rs') where
  same := by
    rw [h'.same, h.same]
  objs o x hx := h'.objs o x (h.objs o x hx)
  lvalues name idx v hv := h'.lvalues name idx v (h.lvalues name idx v hv)
  untouched name hname := by
    rw [h'.untouched name fun idx hmem => hname idx (mem_append_right _ hmem),
      h.untouched name fun idx hmem => hname idx (mem_append_left _ hmem)]
  fresh r hr := by
    rcases mem_append.mp hr with hr | hr
    · exact h.fresh r hr
    · by_contra hne
      obtain ⟨v, hv⟩ := Option.ne_none_iff_exists'.mp hne
      cases (h.get hv).symm.trans (h'.fresh r hr)
  live r hr := by
    rcases mem_append.mp hr with hr | hr
    · rw [h'.get_eq (h.live r hr)]
      exact h.live r hr
    · exact h'.live r hr
  nodup := nodup_append'.mpr ⟨h.nodup, h'.nodup, fun r hr hr' =>
    h.live r hr (h'.fresh r hr')⟩

/-- The indexes of the Lua values of a field are below 2 ^ 32 - 1. -/
def Indexed (l : YangList) (f : FieldSpec) : Prop :=
  f.kind = .lvalue → ∀ idx ∈ l.lvalues f.name, idx + 1 < 2 ^ 32

theorem packs_lvalue {name : String} {idx : Nat} {u : LuaValue}
    (habsent : (l.lvalues name).lookup idx = none) :
    Packs l { l with lvalues := update l.lvalues name ((l.lvalues name).insert idx u) }
      [.lvalue name idx] := by
  have hself : (update l.lvalues name ((l.lvalues name).insert idx u) name).lookup idx =
      some u := by
    rw [update_self, lookup_insert]
  exact {
    same := rfl
    objs := fun _ _ hx => hx
    lvalues := fun name' idx' v hv => by
      show (update l.lvalues name ((l.lvalues name).insert idx u) name').lookup idx' = _
      by_cases hname : name' = name
      · subst hname
        rw [update_self, lookup_insert_ite, if_neg]
        · exact hv
        · rintro rfl
          cases habsent.symm.trans hv
      · rw [update_of_ne hname]
        exact hv
    untouched := fun name' hnot => by
      refine update_of_ne ?_ _ _
      rintro rfl
      exact hnot idx (mem_singleton_self _)
    fresh := fun r hr => by
      rw [mem_singleton.mp hr, get, habsent]
      rfl
    live := fun r hr => by
      rw [mem_singleton.mp hr, get, hself]
      exact some_ne_none _
    nodup := nodup_singleton _ }

/-- **A value is packed into a cell.** -/
theorem packMandatory_spec (conf : ListConf) (hl : Ledger leafSize l) (htype : HasType f (some v))
    (hstorable : Storable (some v)) (hindexed : Indexed l f) (hroom : Room l (n + 1)) :
    ∃ l' c, l.packMandatory conf f (some v) = .ok (l', c) ∧ l'.valueOf f c = some v ∧
      Packs l l' (cellResources f c) ∧ Ledger leafSize l' ∧ Room l' n := by
  cases v with
  | string s =>
    have hkind : f.kind = .string := htype
    obtain ⟨heap, o, halloc, hnone, hledger, hroom'⟩ :=
      alloc_spec (x := .str s) hl rfl (by simp only [sizeOf, strSize]; omega) hstorable hroom
    have hself : (l.objs.insert o (.str s)).lookup o = some (.str s) := lookup_insert _
    refine ⟨_, .str o, ?_, get_str.mpr ⟨s, hself, rfl⟩, ?_, hledger, hroom'⟩
    · simp only [packMandatory, hkind]
      exact bind_of_eq_ok halloc
    · exact {
        same := rfl
        objs := fun o' x hx => by
          rw [lookup_insert_ite, if_neg]
          · exact hx
          · rintro rfl
            cases hnone.symm.trans hx
        lvalues := fun _ _ _ hu => hu
        untouched := fun _ _ => rfl
        fresh := fun r hr => by
          rw [mem_singleton.mp hr, get, hnone]
        live := fun r hr => by
          rw [mem_singleton.mp hr, get_str.mpr ⟨s, hself, rfl⟩]
          exact some_ne_none _
        nodup := nodup_singleton _ }
  | empty =>
    have hkind : f.kind = .empty := htype
    refine ⟨l, .empty, ?_, rfl, Packs.refl l, hl, hroom.mono (Nat.le_succ n)⟩
    simp only [packMandatory, hkind]
  | data bytes =>
    have hkind : f.kind = .ctype bytes.length := htype
    refine ⟨l, .data bytes, ?_, rfl, Packs.refl l, hl, hroom.mono (Nat.le_succ n)⟩
    simp only [packMandatory, hkind]
  | lvalue u =>
    have hkind : f.kind = .lvalue := htype
    have hsmall : (conf.lua.border (l.lvalues f.name) + 1) % 2 ^ 32 =
        conf.lua.border (l.lvalues f.name) + 1 := by
      refine Nat.mod_eq_of_lt ?_
      rcases conf.lua.present (l.lvalues f.name) with hzero | hmem
      · rw [hzero]
        decide
      · exact hindexed hkind _ hmem
    have habsent := conf.lua.absent (l.lvalues f.name)
    refine ⟨_, .lvalue (conf.lua.border (l.lvalues f.name) + 1), ?_, ?_, packs_lvalue (u := u) habsent,
      hl, hroom.mono (Nat.le_succ n)⟩
    · simp only [packMandatory, hkind]
      rw [if_neg (show ¬ u = .boolean false from hstorable), hsmall]
    · simp only [valueOf, get, update_self, lookup_insert, map_some]

theorem packField_spec (conf : ListConf) (hl : Ledger leafSize l) (htype : HasType f value)
    (hstorable : Storable value) (hindexed : Indexed l f) (hroom : Room l (n + 1)) :
    ∃ l' c, l.packField conf f value = .ok (l', c) ∧ Stored l' [f] [c] [value] ∧
      Packs l l' (resources [f] [c]) ∧ Ledger leafSize l' ∧ Room l' n := by
  cases value with
  | none =>
    have hoptional : f.optional = true := htype
    exact ⟨l, none, if_pos ⟨hoptional, rfl⟩, .absent .nil, Packs.refl l, hl,
      hroom.mono (Nat.le_succ n)⟩
  | some v =>
    obtain ⟨l', c, hpack, hvalue, hpacks, hl', hroom'⟩ :=
      packMandatory_spec conf hl htype hstorable hindexed hroom
    refine ⟨l', some c, ?_, .present hvalue .nil, ?_, hl', hroom'⟩
    · rw [packField, if_neg fun h => some_ne_none _ h.2, bind_of_eq_ok hpack]
      rfl
    · have hresources : resources [f] [some c] = cellResources f c := append_nil _
      rwa [hresources]

theorem Stored.cons {c : Option Cell} (h : Stored l [f] [c] [value])
    (hrest : Stored l fields cs row) : Stored l (f :: fields) (c :: cs) (value :: row) := by
  cases h with
  | present hvalue _ => exact .present hvalue hrest
  | absent _ => exact .absent hrest

theorem resources_cons (f : FieldSpec) (c : Option Cell) (fields : List FieldSpec)
    (cs : List (Option Cell)) :
    resources (f :: fields) (c :: cs) = resources [f] [c] ++ resources fields cs := by
  cases c with
  | none => rfl
  | some c =>
    have hresources : resources [f] [some c] = cellResources f c := append_nil _
    rw [hresources]
    rfl

theorem name_of_mem_resources {c : Option Cell} {name : String} {idx : Nat}
    (h : .lvalue name idx ∈ resources [f] [c]) : name = f.name := by
  cases c with
  | none => cases h
  | some c =>
    have hmem : .lvalue name idx ∈ cellResources f c := by
      have hresources : resources [f] [some c] = cellResources f c := append_nil _
      rwa [hresources] at h
    cases c with
    | str o => cases mem_singleton.mp hmem
    | empty => cases hmem
    | data bytes => cases hmem
    | lvalue idx' =>
      cases mem_singleton.mp hmem
      rfl

/-- **The fields of an entry are packed.** -/
theorem packFields_spec (conf : ListConf) (hl : Ledger leafSize l) (htyped : Typed fields e)
    (hstorable : ∀ v ∈ rowOf fields e, Storable v)
    (hnames : (fields.map FieldSpec.name).Nodup) (hindexed : ∀ f ∈ fields, Indexed l f)
    (hroom : Room l (fields.length + n)) :
    ∃ l' cs, l.packFields conf e fields = .ok (l', cs) ∧ Stored l' fields cs (rowOf fields e) ∧
      Packs l l' (resources fields cs) ∧ Ledger leafSize l' ∧ Room l' n := by
  induction fields generalizing l with
  | nil =>
    exact ⟨l, [], rfl, .nil, Packs.refl l, hl, hroom.mono (Nat.le_add_left _ _)⟩
  | cons f fields ih =>
    obtain ⟨hnot, hnames⟩ := nodup_cons.mp hnames
    obtain ⟨htype, htyped⟩ := forall_mem_cons.mp htyped
    obtain ⟨hstore, hstorable⟩ := forall_mem_cons.mp hstorable
    obtain ⟨hindex, hindexed⟩ := forall_mem_cons.mp hindexed
    obtain ⟨l₁, c, hpack, hstored₁, hpacks₁, hl₁, hroom₁⟩ :=
      packField_spec conf (n := fields.length + n) hl htype hstore hindex
        (hroom.mono (by rw [length_cons]; omega))
    have hindexed₁ : ∀ g ∈ fields, Indexed l₁ g := by
      intro g hg hkind
      have hne : g.name ≠ f.name := fun heq => hnot (heq ▸ mem_map_of_mem hg)
      rw [hpacks₁.untouched g.name fun idx hmem => hne (name_of_mem_resources hmem)]
      exact hindexed g hg hkind
    obtain ⟨l', cs, hpackrest, hstored, hpacks, hl', hroom'⟩ :=
      ih hl₁ htyped hstorable hnames hindexed₁ hroom₁
    refine ⟨l', c :: cs, ?_, ?_, ?_, hl', hroom'⟩
    · rw [packFields]
      exact (bind_of_eq_ok hpack).trans (bind_of_eq_ok hpackrest)
    · refine (hstored₁.congr fun r hr => ?_).cons hstored
      exact hpacks.get_eq (hstored₁.get_ne_none hr)
    · rw [resources_cons]
      exact hpacks₁.trans hpacks

/-! ## Freeing -/

/-- A call has freed the resources `rs` and changed nothing else. -/
structure Frees (l l' : YangList) (rs : List Resource) : Prop where
  same : l' = { l with heap := l'.heap, objs := l'.objs, lvalues := l'.lvalues }
  maxfree : l'.heap.maxfree = l.heap.maxfree
  objs : ∀ o, .str o ∉ rs → l'.objs.lookup o = l.objs.lookup o
  lvalues : ∀ name idx, .lvalue name idx ∉ rs →
    (l'.lvalues name).lookup idx = (l.lvalues name).lookup idx
  fewer : ∀ name idx, idx ∈ l'.lvalues name → idx ∈ l.lvalues name

theorem Frees.refl (l : YangList) : Frees l l [] := ⟨rfl, rfl, fun _ _ => rfl, fun _ _ _ => rfl,
  fun _ _ h => h⟩

theorem Frees.get_eq (h : Frees l l' rs) (hr : r ∉ rs) : l'.get r = l.get r := by
  cases r with
  | str o => rw [get, get, h.objs o hr]
  | lvalue name idx => rw [get, get, h.lvalues name idx hr]

theorem Frees.trans (h : Frees l l' rs) (h' : Frees l' l'' rs') : Frees l l'' (rs ++ rs') where
  same := by
    rw [h'.same, h.same]
  maxfree := h'.maxfree.trans h.maxfree
  objs o ho := by
    obtain ⟨hnot, hnot'⟩ := not_or.mp (mt mem_append.mpr ho)
    rw [h'.objs o hnot', h.objs o hnot]
  lvalues name idx hmem := by
    obtain ⟨hnot, hnot'⟩ := not_or.mp (mt mem_append.mpr hmem)
    rw [h'.lvalues name idx hnot', h.lvalues name idx hnot]
  fewer name idx hmem := h.fewer name idx (h'.fewer name idx hmem)

/-- **A cell is freed.** -/
theorem freeMandatory_spec (hl : Ledger leafSize l) (hvalue : l.valueOf f c = some v) :
    ∃ l', l.freeMandatory f c = .ok l' ∧ Frees l l' (cellResources f c) ∧ Ledger leafSize l' := by
  cases c with
  | str o =>
    obtain ⟨s, hs, rfl⟩ := get_str.mp hvalue
    obtain ⟨heap, hrelease, hledger, hmax⟩ := release_spec hl hs rfl
    refine ⟨_, (bind_of_eq_ok (tostring_of_lookup hs)).trans hrelease, ?_, hledger⟩
    refine ⟨rfl, hmax, fun o' ho' => ?_, fun _ _ _ => rfl, fun _ _ h => h⟩
    rw [lookup_erase_ite, if_neg]
    rintro rfl
    exact ho' (mem_singleton_self _)
  | empty | data bytes => exact ⟨l, rfl, Frees.refl l, hl⟩
  | lvalue idx =>
    refine ⟨_, rfl, ⟨rfl, rfl, fun _ _ => rfl, fun name idx' hnot => ?_, fun name idx' hmem => ?_⟩, hl⟩
    · show (update l.lvalues f.name _ name).lookup idx' = _
      rw [update_apply]
      split
      · next hname =>
        subst hname
        rw [lookup_erase_ite, if_neg]
        rintro rfl
        exact hnot (mem_singleton_self _)
      · rfl
    · change idx' ∈ update l.lvalues f.name _ name at hmem
      rw [update_apply] at hmem
      split at hmem
      · next hname =>
        subst hname
        exact (AList.mem_erase.mp hmem).2
      · exact hmem

/-- **The cells of some fields are freed.** -/
theorem freeFields_spec (hl : Ledger leafSize l) (hstored : Stored l fields cs row)
    (hnodup : (resources fields cs).Nodup) :
    ∃ l', l.freeFields fields cs = .ok l' ∧ Frees l l' (resources fields cs) ∧
      Ledger leafSize l' := by
  induction fields generalizing l cs row with
  | nil =>
    cases hstored
    exact ⟨l, rfl, Frees.refl l, hl⟩
  | cons f fields ih =>
    cases hstored with
    | absent hrest => exact ih hl hrest hnodup
    | present hvalue hrest =>
      obtain ⟨-, hnodup', hdisjoint⟩ := nodup_append'.mp hnodup
      obtain ⟨l₁, hfree, hfrees₁, hl₁⟩ := freeMandatory_spec hl hvalue
      have hrest₁ := hrest.congr fun r hr => hfrees₁.get_eq fun hmem => hdisjoint hmem hr
      obtain ⟨l', hfreerest, hfrees, hl'⟩ := ih hl₁ hrest₁ hnodup'
      refine ⟨l', ?_, hfrees₁.trans hfrees, hl'⟩
      exact (bind_of_eq_ok hfree).trans hfreerest

end YangList

end Snabb
