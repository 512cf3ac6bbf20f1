import Snabb.Lib.CTable.Shrink

/-!
# Streaming lookup (`lib/ctable.lua`)

A lookup streamer looks up `width` keys at once. For each key it copies the
`max_displacement + 1` entries from the key's bucket on into one array, all windows next to
each other and an empty entry behind the last one, and then searches each window. A search
that meets the hash of its key goes on through the entries with this hash, also into the
windows of the keys behind.

`streaming_lookup_agrees`: a vector of keys is looked up as `lookup_ptr` would, in every table
that can be reached.
-/

namespace Snabb

open Foundation Foundation.Slots CTable List CTableEntry

variable {K V : Type}

/-- A streamer. An entry of `entries` is a key and, after `stream`, what has been found;
`HASH_MAX` says that nothing has. -/
structure LookupStreamer (K V : Type) where
  allEntries : Slots (CTableEntry K V)
  allocated : Nat
  width : Nat
  entriesPerLookup : Nat
  size : Nat
  seed : Nat
  entries : List (CTableEntry K V)
  streamEntries : Slots (CTableEntry K V)

/-- `make_lookup_streamer`. A table of size 0 has the number 0 for its entries, which is no
pointer. -/
def CTable.makeLookupStreamer [Inhabited K] [Inhabited V] (t : CTable K V) (width : Nat) :
    Except String (LookupStreamer K V) :=
  if ¬ (0 < width ∧ width ≤ 262144) then
    .error "Width value out of range: "
  else if t.size = 0 then
    .error "cannot convert 'number' to 'void *'"
  else
    .ok {
      allEntries := t.entries
      allocated := t.allocSize
      width := width
      entriesPerLookup := t.maxDisplacement + 1
      size := t.size
      seed := t.seed
      entries := List.replicate width ⟨0, default, default⟩
      streamEntries := fun _ => none }

namespace LookupStreamer

/-- Put keys into the entries. -/
def place (s : LookupStreamer K V) (keys : List K) : LookupStreamer K V :=
  { s with entries := List.zipWith (fun e key => { e with key := key }) s.entries keys }

/-- The number of stream entries. -/
def streamSize (s : LookupStreamer K V) : Nat := s.width * s.entriesPerLookup + 1

/-- Read a stream entry. -/
def streamAt (s : LookupStreamer K V) (i : Nat) : Except CTableFault (Option (CTableEntry K V)) :=
  if i < s.streamSize then .ok (s.streamEntries i) else .error (.outOfBounds i)

/-- Read the hash of a stream entry. -/
def streamHash (s : LookupStreamer K V) (i : Nat) : Except CTableFault Nat :=
  if i < s.streamSize then .ok (hashAt hash hashMax s.streamEntries i)
  else .error (.outOfBounds i)

/-- `multi_copy`: one window for each pointer. -/
def multiCopy (s : LookupStreamer K V) (pointers : List Nat) :
    Except CTableFault (Slots (CTableEntry K V)) :=
  match pointers.find? fun p => s.allocated < p + s.entriesPerLookup with
  | some p => .error (.outOfBounds (p + s.entriesPerLookup - 1))
  | none => .ok fun j =>
    match pointers[j / s.entriesPerLookup]? with
    | some p => s.allEntries (p + j % s.entriesPerLookup)
    | none => s.streamEntries j

/-- `while found.hash == hash`: the value of the entry with the key. -/
def scan [DecidableEq K] (s : LookupStreamer K V) (hash : Nat) (key : K) :
    Nat → Nat → Except CTableFault (Option V)
  | 0, i => .error (.outOfBounds i)
  | fuel + 1, i => do
    match ← s.streamAt i with
    | none => return none
    | some e =>
      if e.hash = hash then
        if e.key = key then return some e.value else scan s hash key fuel (i + 1)
      else return none

/-- The body of the second loop of `stream`. -/
def findEntry [DecidableEq K] (s : LookupStreamer K V) (i : Nat) (e : CTableEntry K V) :
    Except CTableFault (CTableEntry K V) := do
  let index := i * s.entriesPerLookup
  let first ← BinarySearch.search (fun k => s.streamHash (index + k)) s.entriesPerLookup e.hash
  match ← s.scan e.hash e.key s.streamSize (index + first) with
  | some v => return { e with value := v }
  | none => return { e with hash := hashMax }

/-- `stream`. -/
def stream [DecidableEq K] (conf : CTableParams K) (s : LookupStreamer K V) :
    Except CTableFault (LookupStreamer K V) := do
  let entries := s.entries.map fun e => { e with hash := conf.hashFn s.seed e.key }
  let streamEntries ← s.multiCopy (entries.map fun e => hashToIndex s.size e.hash)
  let s := { s with streamEntries := streamEntries }
  let entries ← (entries.zipIdx).mapM fun (e, i) => s.findEntry i e
  return { s with entries := entries }

/-- What a streamer shows for an entry: nothing where `is_empty` holds. -/
def result (s : LookupStreamer K V) (i : Nat) : Option V :=
  match s.entries[i]? with
  | some e => if e.hash = hashMax then none else some e.value
  | none => none

/-- Place keys and look them up. -/
def lookupAll [DecidableEq K] (conf : CTableParams K) (s : LookupStreamer K V) (keys : List K) :
    Except CTableFault (LookupStreamer K V) :=
  (s.place keys).stream conf

/-- A streamer whose windows are wide enough for the table, and lie inside it. -/
structure Streams (t : CTable K V) (s : LookupStreamer K V) : Prop where
  allEntries : s.allEntries = t.entries
  allocated : s.allocated = t.allocSize
  wide : t.maxDisplacement < s.entriesPerLookup
  inside : s.entriesPerLookup ≤ t.size
  size : s.size = t.size
  seed : s.seed = t.seed
  length : s.entries.length = s.width
  sentinel : s.streamEntries (s.width * s.entriesPerLookup) = none

variable {conf : CTableParams K} {t : CTable K V} {s : LookupStreamer K V} {m : K → Option V}

/-! ## The copied windows -/

/-- The stream entries after the copy. -/
structure Copied (conf : CTableParams K) (t : CTable K V) (s : LookupStreamer K V)
    (keys : List K) : Prop where
  window : ∀ {i k key}, keys[i]? = some key → k < s.entriesPerLookup →
    s.streamEntries (i * s.entriesPerLookup + k) =
      t.entries (hashToIndex t.size (conf.hashFn t.seed key) + k)
  own : ∀ {j e}, j < s.streamSize → s.streamEntries j = some e → ∃ i, t.entries i = some e
  sentinel : s.streamEntries (s.width * s.entriesPerLookup) = none

variable {keys : List K}

theorem Streams.multiCopy_ok (conf : CTableParams K) (h : Streams t s)
    (hlength : keys.length = s.width) :
    ∃ f, s.multiCopy (keys.map fun key => hashToIndex t.size (conf.hashFn t.seed key)) = .ok f ∧
      Copied conf t { s with streamEntries := f } keys := by
  have hpos : 0 < s.entriesPerLookup := by
    have hwide := h.wide
    omega
  have hsize : 0 < t.size := hpos.trans_le h.inside
  have hinside : (keys.map fun key => hashToIndex t.size (conf.hashFn t.seed key)).find?
      (fun p => s.allocated < p + s.entriesPerLookup) = none := by
    rw [List.find?_eq_none]
    intro p hp
    obtain ⟨key, -, rfl⟩ := mem_map.mp hp
    have hbucket := bucket_lt conf hsize key
    have hle := h.inside
    rw [h.allocated, allocSize]
    simp only [decide_eq_true_eq]
    omega
  unfold multiCopy
  rw [hinside]
  refine ⟨_, rfl, ?_, ?_, ?_⟩
  · intro i k key hkey hk
    have hdiv : (i * s.entriesPerLookup + k) / s.entriesPerLookup = i := by
      rw [Nat.mul_comm, Nat.mul_add_div hpos, Nat.div_eq_of_lt hk, Nat.add_zero]
    have hmod : (i * s.entriesPerLookup + k) % s.entriesPerLookup = k := by
      rw [Nat.mul_comm, Nat.mul_add_mod, Nat.mod_eq_of_lt hk]
    simp only [hdiv, hmod, List.getElem?_map, hkey, Option.map_some, h.allEntries]
  · intro j e hj he
    simp only [List.getElem?_map] at he
    cases hkey : keys[j / s.entriesPerLookup]? with
    | some key =>
      rw [hkey, h.allEntries] at he
      exact ⟨_, he⟩
    | none =>
      -- behind the last window there is the sentinel only
      have hge := List.getElem?_eq_none_iff.mp hkey
      rw [hlength, Nat.le_div_iff_mul_le hpos] at hge
      have hlast : j = s.width * s.entriesPerLookup := by
        have hlt : j < s.width * s.entriesPerLookup + 1 := hj
        omega
      rw [hkey, hlast] at he
      have hsentinel := h.sentinel
      exact absurd (hsentinel.symm.trans he) (Option.some_ne_none e).symm
  · have hdiv : s.width * s.entriesPerLookup / s.entriesPerLookup = s.width :=
      Nat.mul_div_cancel _ hpos
    have hnone : keys[s.width]? = none := List.getElem?_eq_none_iff.mpr hlength.le
    simp only [hdiv, List.getElem?_map, hnone]
    exact h.sentinel

variable [DecidableEq K]

theorem scan_ok (hash : Nat) (key : K) {z : Nat} (hz : s.streamEntries z = none)
    (hlt : z < s.streamSize) {fuel i : Nat} (hi : i ≤ z) (hfuel : z < i + fuel) :
    ∃ r, s.scan hash key fuel i = .ok r ∧
      match r with
      | some v => ∃ j e, j < s.streamSize ∧ s.streamEntries j = some e ∧ e.key = key ∧
          e.value = v
      | none => ∃ b, i ≤ b ∧ (∀ j e, i ≤ j → j < b → s.streamEntries j = some e → e.key ≠ key) ∧
          ∀ e, s.streamEntries b = some e → e.hash ≠ hash := by
  induction fuel generalizing i with
  | zero => omega
  | succ fuel ih =>
    have hread : s.streamAt i = .ok (s.streamEntries i) := if_pos (hi.trans_lt hlt)
    rw [scan, bind_of_eq_ok hread]
    cases he : s.streamEntries i with
    | none =>
      refine ⟨none, rfl, i, le_rfl, by omega, ?_⟩
      rw [he]
      nofun
    | some e =>
      simp only
      split
      · next hhash =>
        split
        · next hkey => exact ⟨some e.value, rfl, i, e, hi.trans_lt hlt, he, hkey, rfl⟩
        · next hkey =>
          have hne : i ≠ z := by
            rintro rfl
            rw [hz] at he
            cases he
          obtain ⟨r, hr, hfound⟩ := ih (i := i + 1) (by omega) (by omega)
          refine ⟨r, hr, ?_⟩
          cases r with
          | some value => exact hfound
          | none =>
            obtain ⟨b, hib, hall, hstop⟩ := hfound
            refine ⟨b, by omega, ?_, hstop⟩
            intro j x hj hjb hx
            rcases Nat.lt_or_eq_of_le hj with hlt' | rfl
            · exact hall j x hlt' hjb hx
            · obtain rfl := Option.mem_unique he hx
              exact hkey
      · next hhash =>
        refine ⟨none, rfl, i, le_rfl, by omega, ?_⟩
        intro x hx
        obtain rfl := Option.mem_unique he hx
        exact hhash

/-! ## One entry -/

/-- **One entry is looked up** as the map says, whatever the windows behind its own hold. -/
theorem Copied.findEntry (hvalid : Valid conf t) (hm : Holds t m) (h : Streams t s)
    (hcopied : Copied conf t s keys) {i : Nat} {e : CTableEntry K V} (hi : i < s.width)
    (hkey : keys[i]? = some e.key) (hhash : e.hash = conf.hashFn t.seed e.key) :
    ∃ e', s.findEntry i e = .ok e' ∧ e'.key = e.key ∧
      (if e'.hash = hashMax then none else some e'.value) = m e.key := by
  have hlt := conf.hashFn_lt t.seed e.key
  have hwide := h.wide
  have hblock : i * s.entriesPerLookup + s.entriesPerLookup ≤ s.width * s.entriesPerLookup := by
    rw [← Nat.succ_mul]
    exact Nat.mul_le_mul_right _ hi
  have hread : ∀ k < s.entriesPerLookup,
      s.streamHash (i * s.entriesPerLookup + k) = .ok (hashAt hash hashMax t.entries
        (hashToIndex t.size (conf.hashFn t.seed e.key) + k)) := by
    intro k hk
    have hin : i * s.entriesPerLookup + k < s.streamSize := by
      rw [streamSize]
      omega
    refine (if_pos hin).trans (congrArg Except.ok ?_)
    rw [hashAt, hashAt, hcopied.window hkey hk]
  have hmono : ∀ j k, j ≤ k → k < s.entriesPerLookup →
      e.hash ≤ hashAt hash hashMax t.entries
        (hashToIndex t.size (conf.hashFn t.seed e.key) + j) →
      e.hash ≤ hashAt hash hashMax t.entries
        (hashToIndex t.size (conf.hashFn t.seed e.key) + k) := by
    intro j k hjk _ hle
    rw [hhash] at hle ⊢
    exact hvalid.probed.window (hashToIndex_mono _) hlt.le (Nat.le_add_right _ _)
      (Nat.add_le_add_left hjk _) hle
  obtain ⟨a, ha, hfirst⟩ := BinarySearch.search_ok (by omega) hread hmono
  have halt := hfirst.lt
  obtain ⟨r, hr, hfound⟩ := scan_ok (s := s) e.hash e.key hcopied.sentinel (Nat.lt_succ_self _)
    (show i * s.entriesPerLookup + a ≤ s.width * s.entriesPerLookup by omega)
    (show s.width * s.entriesPerLookup < i * s.entriesPerLookup + a + s.streamSize by
      rw [streamSize]; omega)
  unfold LookupStreamer.findEntry
  rw [bind_of_eq_ok ha, bind_of_eq_ok hr]
  cases r with
  | some value =>
    obtain ⟨j, x, hj, hx, hxkey, rfl⟩ := hfound
    obtain ⟨p, hp⟩ := hcopied.own hj hx
    refine ⟨_, rfl, rfl, ?_⟩
    rw [if_neg (by rw [hhash]; exact hlt.ne), (hm e.key x.value).mpr ⟨x, ⟨p, hp⟩, hxkey, rfl⟩]
  | none =>
    obtain ⟨b, hab, hall, hstop⟩ := hfound
    refine ⟨_, rfl, rfl, ?_⟩
    rw [if_pos rfl, eq_comm, hm.eq_none_iff]
    intro p x hx hxkey
    -- a present key lies in its own window, behind where the search has stopped
    have hnear := hvalid.near hx
    have hhome := hvalid.probed.home_le hx
    have hxhash := hvalid.hashed hx
    rw [hxkey] at hxhash
    rw [hxhash] at hnear hhome
    rw [hhash] at hfirst
    obtain ⟨q, rfl⟩ := Nat.exists_eq_add_of_le hhome
    have hcopy : ∀ k, k < s.entriesPerLookup → s.streamEntries (i * s.entriesPerLookup + k) =
        t.entries (hashToIndex t.size (conf.hashFn t.seed e.key) + k) :=
      fun k hk => hcopied.window hkey hk
    have hge : conf.hashFn t.seed e.key ≤ hashAt hash hashMax t.entries
        (hashToIndex t.size (conf.hashFn t.seed e.key) + a) := by
      rcases hfirst.found with hge | hlast
      · exact hge
      · rcases Nat.lt_or_eq_of_le (show q ≤ a by omega) with hlt' | rfl
        · have hbelow := hfirst.below q hlt'
          rw [hashAt, hx] at hbelow
          exact absurd hxhash hbelow.ne
        · rw [hashAt, hx]
          exact hxhash.ge
    have hbelow : ∀ k, hashToIndex t.size x.hash ≤ k →
        k < hashToIndex t.size (conf.hashFn t.seed e.key) + a →
        hashAt hash hashMax t.entries k < x.hash := by
      intro k hk hka
      rw [hxhash] at hk ⊢
      obtain ⟨d, rfl⟩ := Nat.exists_eq_add_of_le hk
      exact hfirst.below d (by omega)
    have hrun := fun c => hvalid.probed.run_of_hash (j := c) hx hbelow (by rw [hxhash]; omega)
      (by rw [hxhash]; exact hge)
    have haq := (hrun 0).1
    rcases Nat.lt_or_ge (i * s.entriesPerLookup + q) b with hqb | hbq
    · exact hall _ x (by omega) hqb ((hcopy q (by omega)).trans hx) hxkey
    · obtain ⟨c, rfl⟩ := Nat.exists_eq_add_of_le (show i * s.entriesPerLookup ≤ b by omega)
      obtain ⟨y, hy, hyhash⟩ := (hrun (hashToIndex t.size (conf.hashFn t.seed e.key) + c)).2
        (by omega) (by omega)
      exact hstop y ((hcopy c (by omega)).trans hy) (hyhash.trans (hxhash.trans hhash.symm))

/-! ## A vector of entries -/

/-- **A vector of keys is looked up** as the map says. -/
theorem Streams.stream (hvalid : Valid conf t) (hm : Holds t m) (h : Streams t s) :
    ∃ s', s.stream conf = .ok s' ∧ Streams t s' ∧ s'.width = s.width ∧
      ∀ i e, s.entries[i]? = some e → s'.result i = m e.key := by
  generalize hentries : (s.entries.map fun e =>
    { e with hash := conf.hashFn s.seed e.key }) = entries
  have hkeys : entries.map key = s.entries.map key := by
    rw [← hentries, map_map]
    rfl
  have hpointers : (entries.map fun e => hashToIndex s.size e.hash) =
      (entries.map key).map fun key => hashToIndex t.size (conf.hashFn t.seed key) := by
    rw [← hentries, map_map, map_map, map_map, h.size, h.seed]
    rfl
  have hlength : (entries.map key).length = s.width := by
    rw [hkeys, length_map, h.length]
  obtain ⟨f, hf, hcopied⟩ := h.multiCopy_ok conf hlength
  have hstreams : Streams t { s with streamEntries := f } :=
    ⟨h.allEntries, h.allocated, h.wide, h.inside, h.size, h.seed, h.length, hcopied.sentinel⟩
  have hfound : ∃ results, List.Forall₂ (fun x y =>
      LookupStreamer.findEntry { s with streamEntries := f } x.2 x.1 = .ok y ∧
        (if y.hash = hashMax then none else some y.value) = m x.1.key) entries.zipIdx results := by
    refine exists_results ?_
    rintro ⟨e, i⟩ hmem
    have he := mk_mem_zipIdx_iff_getElem?.mp hmem
    have hi : i < s.width := by
      obtain ⟨hlt, -⟩ := List.getElem?_eq_some_iff.mp he
      rwa [← length_map key, hlength] at hlt
    have hhash : e.hash = conf.hashFn t.seed e.key := by
      rw [← hentries, List.getElem?_map] at he
      obtain ⟨x, -, rfl⟩ := Option.map_eq_some_iff.mp he
      rw [h.seed]
    obtain ⟨e', he', -, hresult⟩ := hcopied.findEntry hvalid hm hstreams (e := e) hi
      (by rw [List.getElem?_map, he, Option.map_some]) hhash
    exact ⟨e', he', hresult⟩
  obtain ⟨results, hresults⟩ := hfound
  have hloop : (entries.zipIdx).mapM (fun x =>
      LookupStreamer.findEntry { s with streamEntries := f } x.2 x.1) = .ok results :=
    mapM_eq_ok.mpr (hresults.imp fun _ _ hR => hR.1)
  have hcount : results.length = s.entries.length := by
    rw [← hresults.length_eq, length_zipIdx, ← hentries, length_map]
  refine ⟨{ s with streamEntries := f, entries := results }, ?_, ?_, rfl, ?_⟩
  · unfold LookupStreamer.stream
    simp only [hentries]
    rw [hpointers, bind_of_eq_ok hf, bind_of_eq_ok hloop]
    rfl
  · exact ⟨h.allEntries, h.allocated, h.wide, h.inside, h.size, h.seed, hcount.trans h.length,
      hcopied.sentinel⟩
  · intro i e he
    obtain ⟨hlt, rfl⟩ := List.getElem?_eq_some_iff.mp he
    have hlt' : i < entries.zipIdx.length := by
      rw [hresults.length_eq, hcount]
      exact hlt
    have hlt'' : i < results.length := by
      rw [hcount]
      exact hlt
    have hi := (hresults.get hlt' hlt'').2
    have hkey : (entries.zipIdx.get ⟨i, hlt'⟩).1.key = s.entries[i].key := by
      subst hentries
      simp
    unfold LookupStreamer.result
    rw [List.getElem?_eq_getElem hlt'', ← hkey]
    exact hi

/-! ## Streamers of tables in use -/

omit [DecidableEq K] in
theorem Streams.place (h : Streams t s) (hlength : keys.length = s.width) :
    Streams t (s.place keys) ∧ (s.place keys).width = s.width ∧
      ∀ (i : Nat) key, keys[i]? = some key →
        ∃ e : CTableEntry K V, (s.place keys).entries[i]? = some e ∧ e.key = key := by
  refine ⟨⟨h.allEntries, h.allocated, h.wide, h.inside, h.size, h.seed, ?_, h.sentinel⟩, rfl, ?_⟩
  · show (List.zipWith _ s.entries keys).length = s.width
    rw [length_zipWith, h.length, hlength, Nat.min_self]
  · intro i key hkey
    obtain ⟨hlt, -⟩ := List.getElem?_eq_some_iff.mp hkey
    rw [hlength, ← h.length] at hlt
    refine ⟨{ s.entries[i] with key := key }, ?_, rfl⟩
    show (List.zipWith _ s.entries keys)[i]? = _
    rw [List.getElem?_zipWith, List.getElem?_eq_getElem hlt, hkey]

omit [DecidableEq K] in
theorem streams_of_make [Inhabited K] [Inhabited V] (hvalid : Valid conf t) {width : Nat}
    (hmake : t.makeLookupStreamer width = .ok s) : Streams t s ∧ s.width = width ∧ 0 < t.size := by
  unfold CTable.makeLookupStreamer at hmake
  split at hmake
  · cases hmake
  · split at hmake
    · cases hmake
    · next hsize =>
      cases hmake
      have hdisp := hvalid.displacement_le
      refine ⟨⟨rfl, rfl, Nat.lt_succ_self _, ?_, rfl, rfl, length_replicate, rfl⟩, rfl, ?_⟩
      · show t.maxDisplacement + 1 ≤ t.size
        omega
      · omega

end LookupStreamer

end Snabb
