import Mathlib.Data.List.ReduceOption
import Snabb.Foundation.Reader
import Snabb.Lib.Yang.Binary.Model

/-!
# Binary files bring data back (`lib/yang/binary.lua`)

What is written is read again, piece by piece (`Shipped`), for any table of strings that goes on
from the one there was. A struct is written with its keys normalized, and with what is found under
these.

- `visit_conveys`: what a file has is data whose keys are all normalized, and the same as what was
  written if its keys were;
- `round_trip_iff`: data comes back if and only if its keys have but letters, digits and
  underscores.
-/

namespace Snabb

open Foundation List
open Except (ok.inj)
open Prod (fst mk.inj)

namespace YangBinary

variable {α β : Type} {o o' o'' : Output}

/-! ## What is written -/

/-- The next write goes to the end of the file. -/
def Output.AtEnd (o : Output) : Prop := o.pos = o.content.length

/-- What was added to a file. -/
structure Adds (o o' : Output) (bytes : List UInt8) : Prop where
  content : o'.content = o.content ++ bytes
  atEnd : o'.AtEnd
  strings : o.strings <+: o'.strings

variable {bytes : List UInt8} {n i : Nat} {s : Str} {strings : List Str}
  {es ret entries : List (Key × Value)} {readKey : List UInt8 → List Str → Load Key} {g : Grammar}
  {memberKeys : List Key} {h : Header}

theorem Adds.trans {bytes' : List UInt8} (h : Adds o o' bytes) (h' : Adds o' o'' bytes') :
    Adds o o'' (bytes ++ bytes') where
  content := by rw [h'.content, h.content, append_assoc]
  atEnd := h'.atEnd
  strings := h.strings.trans h'.strings

theorem emit_bind {m : Emit α} {f : α → Emit β} {b : β} (h : (m >>= f) o = .ok (b, o'')) :
    ∃ a o', m o = .ok (a, o') ∧ f a o' = .ok (b, o'') := by
  obtain ⟨⟨a, o'⟩, hm, hf⟩ := bind_eq_ok h
  exact ⟨a, o', hm, hf⟩

theorem lift_eq_ok {x : Except CompileError α} {a : α}
    (h : (StateT.lift x : Emit α) o = .ok (a, o')) : x = .ok a ∧ o' = o := by
  obtain ⟨a', hx, hret⟩ := bind_eq_ok h
  cases hret
  exact ⟨hx, rfl⟩

theorem write_adds (hend : o.AtEnd) (h : write bytes o = .ok ((), o')) :
    Adds o o' bytes ∧ o'.pos < 2 ^ 63 ∧ o'.strings = o.strings := by
  unfold write at h
  split_ifs at h with hsize
  cases h
  unfold Output.AtEnd at hend
  have hcontent : o.content.take o.pos ++ bytes ++ o.content.drop (o.pos + bytes.length) =
      o.content ++ bytes := by
    rw [hend, take_length, drop_of_length_le (by omega), append_nil]
  refine ⟨⟨hcontent, ?_, prefix_rfl⟩, hsize, rfl⟩
  show o.pos + bytes.length = _
  rw [hcontent, List.length_append, hend]

theorem writeUint32_adds (hend : o.AtEnd) (h : writeUint32 n o = .ok ((), o')) :
    Adds o o' (leBytes 4 n) ∧ n < 2 ^ 32 ∧ o'.strings = o.strings ∧ o'.pos < 2 ^ 63 := by
  unfold writeUint32 at h
  split_ifs at h with hn
  · obtain ⟨hadds, hpos, hstrings⟩ := write_adds hend h
    exact ⟨hadds, hn, hstrings, hpos⟩
  · cases h

/-- A string gets the index under which it is in the table, and keeps it. -/
theorem intern_eq (h : intern s o = .ok (i, o')) :
    o'.content = o.content ∧ o'.pos = o.pos ∧ o.strings <+: o'.strings ∧
      o'.strings[i]? = some s := by
  unfold intern at h
  split_ifs at h with hs
  · cases h
    exact ⟨rfl, rfl, prefix_rfl, by rw [List.getElem?_idxOf hs]⟩
  · cases h
    exact ⟨rfl, rfl, prefix_append .., by rw [List.getElem?_concat_length]⟩

theorem getElem?_of_prefix {strtab : List Str} (hext : strings <+: strtab)
    (h : strings[i]? = some s) : strtab[i]? = some s := by
  obtain ⟨rest, rfl⟩ := hext
  rw [List.getElem?_append_left (List.getElem?_eq_some_iff.mp h).1, h]

/-! ## What is read again -/

/-- What was added is read as `v`, with any table of strings that goes on. -/
def Shipped (o o' : Output) (r : List UInt8 → List Str → Nat → Load α) (v : α) : Prop :=
  ∃ bytes, Adds o o' bytes ∧ ∀ strtab, o'.strings <+: strtab → ∀ file depth,
    bytes.length < depth → Takes file (r file strtab depth) bytes v

variable {r : List UInt8 → List Str → Nat → Load α} {v w x : Value}

theorem Shipped.atEnd {v : α} (h : Shipped o o' r v) : o'.AtEnd := by
  obtain ⟨_, hadds, -⟩ := h
  exact hadds.atEnd

theorem Shipped.bind {v : α} {w : β} {k : List UInt8 → List Str → Nat → α → Load β}
    (h : Shipped o o' r v)
    (h' : Shipped o' o'' (fun file strtab depth => k file strtab depth v) w) :
    Shipped o o'' (fun file strtab depth => r file strtab depth >>= k file strtab depth) w := by
  obtain ⟨bytes, hadds, hread⟩ := h
  obtain ⟨bytes', hadds', hread'⟩ := h'
  refine ⟨bytes ++ bytes', hadds.trans hadds', fun strtab hstrtab file depth hdepth => ?_⟩
  rw [List.length_append] at hdepth
  exact (hread strtab (hadds'.strings.trans hstrtab) file depth (by omega)).bind
    (hread' strtab hstrtab file depth (by omega))

theorem Shipped.map {v : α} {f : α → β} (h : Shipped o o' r v) :
    Shipped o o' (fun file strtab depth => f <$> r file strtab depth) (f v) := by
  obtain ⟨bytes, hadds, hread⟩ := h
  exact ⟨bytes, hadds, fun strtab hstrtab file depth hdepth =>
    (hread strtab hstrtab file depth hdepth).map⟩

theorem shipped_pure {v : α} (hend : o.AtEnd) : Shipped o o (fun _ _ _ => pure v) v :=
  ⟨[], ⟨(append_nil _).symm, hend, prefix_rfl⟩, fun _ _ _ _ _ => Takes.pure⟩

theorem readBytes_takes (file bytes : List UInt8) (hn : n = bytes.length) :
    Takes file (readBytes file n) bytes bytes := by
  subst hn
  intro p hat
  have htake : (file.drop p).take bytes.length = bytes := prefix_iff_eq_take.mp hat ▸ rfl
  rw [readBytes, htake, if_pos rfl]

theorem readUint32_takes (file : List UInt8) (hn : n < 2 ^ 32) :
    Takes file (readUint32 file) (leBytes 4 n) n := by
  have hread := (readBytes_takes file (leBytes 4 n) (length_leBytes 4 n).symm).map (k := leNat)
  rw [leNat_leBytes, Nat.mod_eq_of_lt (hn.trans_eq (by norm_num))] at hread
  exact hread

theorem readUint64_takes (file : List UInt8) (hn : n < 2 ^ 64) :
    Takes file (readUint64 file) (leBytes 8 n) n := by
  have hread := (readBytes_takes file (leBytes 8 n) (length_leBytes 8 n).symm).map (k := leNat)
  rw [leNat_leBytes, Nat.mod_eq_of_lt (hn.trans_eq (by norm_num))] at hread
  exact hread

theorem writeUint32_shipped (hend : o.AtEnd) (h : writeUint32 n o = .ok ((), o')) :
    Shipped o o' (fun file _ _ => readUint32 file) n := by
  obtain ⟨hadds, hn, -, -⟩ := writeUint32_adds hend h
  exact ⟨_, hadds, fun _ _ file _ _ => readUint32_takes file hn⟩

/-- **A string** is found in the table of strings. -/
theorem writeStringref_shipped (hend : o.AtEnd) (h : writeStringref s o = .ok ((), o')) :
    Shipped o o' (fun file strtab _ => readString file strtab) s := by
  obtain ⟨i, mid, hintern, hwrite⟩ := emit_bind h
  obtain ⟨hcontent, hpos, hstrings, hget⟩ := intern_eq hintern
  have hmid : mid.AtEnd := by
    unfold Output.AtEnd
    rw [hcontent, hpos]
    exact hend
  obtain ⟨hadds, hi, hsame, -⟩ := writeUint32_adds hmid hwrite
  refine ⟨leBytes 4 i, ⟨hcontent ▸ hadds.content, hadds.atEnd, hstrings.trans hadds.strings⟩,
    fun strtab hstrtab file depth _ => ?_⟩
  have hfound : strtab[i]? = some s := getElem?_of_prefix (hsame ▸ hstrtab) hget
  have hread : Takes file (readString file strtab) (leBytes 4 i ++ []) s :=
    (readUint32_takes file hi).bind (by rw [hfound]; exact Takes.pure)
  rw [append_nil] at hread
  exact hread

/-! ## Data -/

/-- Under which key a member is written. -/
def Key.normalized : Key → Key
  | number n => number n
  | string s => string (normalizeId s)

/-- The same data: tables have the same keys, in any order, with the same data. -/
inductive Value.Same : Value → Value → Prop where
  | boolean (b : Bool) : Same (.boolean b) (.boolean b)
  | number (bits : BitVec 64) : Same (.number bits) (.number bits)
  | string (s : Str) : Same (.string s) (.string s)
  | table {es fs : List (Key × Value)}
      (keys : ∀ k, (es.lookup k).isSome = (fs.lookup k).isSome)
      (values : ∀ k v w, es.lookup k = some v → fs.lookup k = some w → Same v w) :
      Same (.table es) (.table fs)

/-- The keys of a table differ from each other, and so at any depth. -/
inductive Value.WellFormed : Value → Prop where
  | boolean (b : Bool) : WellFormed (.boolean b)
  | number (bits : BitVec 64) : WellFormed (.number bits)
  | string (s : Str) : WellFormed (.string s)
  | table {es : List (Key × Value)} (nodup : (es.map fst).Nodup)
      (values : ∀ k v, (k, v) ∈ es → WellFormed v) : WellFormed (.table es)

/-- Keys that are strings have but letters, digits and underscores, and so at any depth. -/
inductive Value.PlainKeys : Value → Prop where
  | boolean (b : Bool) : PlainKeys (.boolean b)
  | number (bits : BitVec 64) : PlainKeys (.number bits)
  | string (s : Str) : PlainKeys (.string s)
  | table {es : List (Key × Value)}
      (keys : ∀ s, Key.string s ∈ es.map fst → ∀ c ∈ s, isIdByte c = true)
      (values : ∀ k v, (k, v) ∈ es → PlainKeys v) : PlainKeys (.table es)

theorem isIdByte_normalizeId : ∀ c ∈ normalizeId s, isIdByte c = true := by
  intro c hc
  obtain ⟨b, -, rfl⟩ := mem_map.mp hc
  split_ifs with hb
  · exact hb
  · decide

theorem normalizeId_eq (h : ∀ c ∈ s, isIdByte c = true) : normalizeId s = s :=
  map_congr_left (fun c hc => if_pos (h c hc)) |>.trans (List.map_id s)

variable {k : Key}

theorem mem_of_lookup (h : es.lookup k = some v) : (k, v) ∈ es := by
  obtain ⟨l, r, rfl, -⟩ := lookup_eq_some_iff.mp h
  simp

theorem lookup_isSome_iff : (es.lookup k).isSome = true ↔ k ∈ es.map fst := by
  rw [← not_iff_not, Bool.not_eq_true, Option.isSome_eq_false_iff, Option.isNone_iff_eq_none,
    lookup_eq_none_iff]
  simp only [mem_map, not_exists, not_and, bne_iff_ne, ne_eq]
  exact ⟨fun h e he heq => h e he heq.symm, fun h e he heq => h e he heq.symm⟩

theorem lookup_of_mem (hnodup : (es.map fst).Nodup) (h : (k, v) ∈ es) : es.lookup k = some v := by
  induction es with
  | nil => exact absurd h not_mem_nil
  | cons e es ih =>
    obtain ⟨hnot, hrest⟩ := nodup_cons.mp hnodup
    rcases mem_cons.mp h with rfl | hmem
    · exact lookup_cons_self
    · have hne : k ≠ e.1 := fun heq => hnot (heq ▸ mem_map_of_mem (f := fst) hmem)
      rw [lookup_cons, beq_false_of_ne hne]
      exact ih hrest hmem

/-- **Data that is the same** has the same keys. -/
theorem Value.Same.plainKeys (h : Same v w) (hwf : v.WellFormed)
    (hw : w.PlainKeys) : v.PlainKeys := by
  induction h with
  | boolean b | number bits | string s => exact hw
  | table keys values ih =>
    cases hwf with
    | table hnodup hvalues =>
    cases hw with
    | table hkeys hplain =>
    constructor
    · intro s hs
      rw [← lookup_isSome_iff, keys, lookup_isSome_iff] at hs
      exact hkeys s hs
    · intro k v hmem
      have hv := lookup_of_mem hnodup hmem
      obtain ⟨w, hw⟩ := Option.isSome_iff_exists.mp ((keys k).symm.trans (by rw [hv]; rfl))
      exact ih k v w hv hw (hvalues k v hmem) (hplain k w (mem_of_lookup hw))

/-! ## Members -/

/-- The entries that are set, one after the other. -/
def setEntries (ret entries : List (Key × Value)) : List (Key × Value) :=
  entries.foldl (fun ret e => setEntry ret e.1 e.2) ret

theorem mem_setEntries {e : Key × Value}
    (h : e ∈ setEntries ret entries) : e ∈ ret ∨ e ∈ entries := by
  induction entries generalizing ret with
  | nil => exact .inl h
  | cons e' entries ih =>
    rcases ih h with hret | hrest
    · rcases mem_append.mp hret with hold | hnew
      · exact .inl (mem_of_mem_filter hold)
      · exact .inr (mem_cons.mpr (.inl (mem_singleton.mp hnew)))
    · exact .inr (mem_cons_of_mem _ hrest)

theorem mem_keys_setEntry {k k' : Key} :
    k' ∈ (setEntry ret k v).map fst ↔ k' ∈ ret.map fst ∨ k' = k := by
  rw [setEntry, map_append, mem_append, map_singleton, mem_singleton]
  by_cases hk : k' = k
  · exact iff_of_true (.inr hk) (.inr hk)
  · simp only [hk, or_false, mem_map, mem_filter, decide_eq_true_eq]
    constructor
    · rintro ⟨e, ⟨he, -⟩, rfl⟩
      exact ⟨e, he, rfl⟩
    · rintro ⟨e, he, rfl⟩
      exact ⟨e, ⟨he, hk⟩, rfl⟩

theorem mem_keys_setEntries :
    k ∈ (setEntries ret entries).map fst ↔
      k ∈ ret.map fst ∨ k ∈ entries.map fst := by
  induction entries generalizing ret with
  | nil => rw [setEntries, foldl_nil, map_nil, or_iff_left not_mem_nil]
  | cons e entries ih =>
    rw [setEntries, foldl_cons, ← setEntries, ih, mem_keys_setEntry, map_cons,
      mem_cons, or_assoc]

/-- What is read for data, by the grammar with which it was written. -/
def Brings (g : Grammar) (d w : Value) : Prop :=
  w.PlainKeys ∧ (adHocGrammarFromData d = .ok g → d.WellFormed → d.PlainKeys → d.Same w)

/-- What the emitter writes is read again. -/
def Conveys (g : Grammar) (emit : Emitter) : Prop :=
  ∀ d o o', o.AtEnd → emit d o = .ok ((), o') → ∃ w, Shipped o o' read1 w ∧ Brings g d w

section

variable {K : Type} {writeKey : K → Emit Unit} {toKey : K → Key}
  {P : K × Emitter × Value → Value → Prop} {out : List (K × Emitter × Value)} {o o' : Output}
  (hkey : ∀ k o o', o.AtEnd → writeKey k o = .ok ((), o') → Shipped o o' (fun file strtab _ => readKey file strtab) (toKey k))
  (hout : ∀ elt ∈ out, ∀ o o', o.AtEnd → elt.2.1 elt.2.2 o = .ok ((), o') → ∃ w, Shipped o o' read1 w ∧ P elt w)
  (ret : List (Key × Value)) (hend : o.AtEnd)
include hkey hout hend

theorem emitElements_shipped (h : (out.forM fun elt => do
      writeKey elt.1
      elt.2.1 elt.2.2) o = .ok ((), o')) :
    ∃ entries, List.Forall₂ (fun elt e => e.1 = toKey elt.1 ∧ P elt e.2) out entries ∧
      Shipped o o' (fun file strtab depth =>
        readElements (readKey file strtab) (read1 file strtab depth) out.length ret)
        (setEntries ret entries) := by
  induction out generalizing ret o with
  | nil =>
    cases h
    exact ⟨[], .nil, shipped_pure hend⟩
  | cons elt out ih =>
    obtain ⟨⟨⟩, mid, helt, hrest⟩ := emit_bind h
    obtain ⟨⟨⟩, mid', hwriteKey, hemit⟩ := emit_bind helt
    have hshipped := hkey elt.1 o mid' hend hwriteKey
    obtain ⟨w, hw, hP⟩ := hout elt (mem_cons_self ..) mid' mid hshipped.atEnd hemit
    obtain ⟨entries, hall, hentries⟩ := ih (fun elt helt => hout elt (mem_cons_of_mem _ helt))
      (setEntry ret (toKey elt.1) w) hw.atEnd hrest
    exact ⟨(toKey elt.1, w) :: entries, .cons ⟨rfl, hP⟩ hall, hshipped.bind (hw.bind hentries)⟩

/-- **The members**, with their number. -/
theorem emitMembers_shipped (h : emitMembers writeKey out o = .ok ((), o')) :
    ∃ entries, List.Forall₂ (fun elt e => e.1 = toKey elt.1 ∧ P elt e.2) out entries ∧
      Shipped o o' (fun file strtab depth =>
        readMembers file (readKey file strtab) (read1 file strtab depth) ret)
        (setEntries ret entries) := by
  obtain ⟨⟨⟩, mid, hcount, hloop⟩ := emit_bind h
  have hshipped := writeUint32_shipped hend hcount
  obtain ⟨entries, hall, hentries⟩ := emitElements_shipped hkey hout ret hshipped.atEnd hloop
  exact ⟨entries, hall, hshipped.bind hentries⟩

end

/-! ## Emitters -/

theorem tagged_shipped {mid : Output} {tag : Str} (hend : o.AtEnd)
    (htag : writeStringref tag o = .ok ((), mid)) (hbody : Shipped mid o' (fun file strtab depth =>
      readers file strtab (read1 file strtab depth) tag) w) : Shipped o o' read1 w := by
  obtain ⟨bytes, hadds, hread⟩ := writeStringref_shipped hend htag
  obtain ⟨bytes', hadds', hread'⟩ := hbody
  have hne : bytes ≠ [] := by
    rintro rfl
    have hempty := hread _ prefix_rfl [] 1 (by decide) 0 (at_zero [])
    cases hempty
  refine ⟨bytes ++ bytes', hadds.trans hadds', fun strtab hstrtab file depth hdepth => ?_⟩
  have hpos := length_pos_iff.mpr hne
  rw [List.length_append] at hdepth
  cases depth with
  | zero => exact absurd hdepth (Nat.not_lt_zero _)
  | succ depth =>
    exact (hread strtab (hadds'.strings.trans hstrtab) file (depth + 1) (by omega)).bind
      (hread' strtab hstrtab file depth (by omega))

theorem conveys_string : Conveys .string emitString := by
  intro d o o' hend h
  obtain ⟨⟨⟩, mid, htag, hrest⟩ := emit_bind h
  have hmid := (writeStringref_shipped hend htag).atEnd
  cases d with
  | string s =>
    refine ⟨.string s, tagged_shipped hend htag (writeStringref_shipped hmid hrest).map, .string s,
      fun _ _ _ => .string s⟩
  | _ => cases hrest

theorem conveys_cscalar {ctype : Str} {convert : Value → Option (List UInt8)}
    (hread : ∀ d bytes, convert d = some bytes →
      ∃ w, (∀ file, Takes file (readScalar file ctype) bytes w) ∧ Brings g d w) :
    Conveys g (emitCscalar ctype convert) := by
  intro d o o' hend h
  obtain ⟨⟨⟩, mid, htag, hrest⟩ := emit_bind h
  obtain ⟨⟨⟩, mid', hctype, hvalue⟩ := emit_bind hrest
  have htagEnd := (writeStringref_shipped hend htag).atEnd
  have hshipped := writeStringref_shipped htagEnd hctype
  cases hconvert : convert d with
  | none =>
    rw [hconvert] at hvalue
    cases hvalue
  | some bytes =>
    rw [hconvert] at hvalue
    obtain ⟨w, htakes, hbrings⟩ := hread d bytes hconvert
    obtain ⟨hadds, -, -⟩ := write_adds hshipped.atEnd hvalue
    have hscalar : Shipped mid' o' (fun file _ _ => readScalar file ctype) w :=
      ⟨bytes, hadds, fun _ _ file _ _ => htakes file⟩
    exact ⟨w, tagged_shipped hend htag (hshipped.bind hscalar), hbrings⟩

theorem takes_double (file : List UInt8) (bits : BitVec 64) :
    Takes file (readScalar file (str "double")) (leBytes 8 bits.toNat) (.number bits) := by
  have hread := (readBytes_takes file (leBytes 8 bits.toNat) (length_leBytes 8 _).symm).map
    (k := fun bytes => Value.number (BitVec.ofNat 64 (leNat bytes)))
  rw [leNat_leBytes, Nat.mod_eq_of_lt (bits.isLt.trans_eq (by norm_num)),
    BitVec.ofNat_toNat, BitVec.setWidth_eq] at hread
  exact hread

theorem takes_bool (file : List UInt8) (b : Bool) :
    Takes file (readScalar file (str "bool")) (leBytes 1 b.toNat) (.boolean b) := by
  have hread := (readBytes_takes file (leBytes 1 b.toNat) (length_leBytes 1 _).symm).map
    (k := fun bytes => Value.boolean (leNat bytes != 0))
  cases b with
  | false => exact hread
  | true => exact hread

theorem conveys_decimal64 : Conveys .decimal64 (emitCscalar (str "double") toDouble) := by
  refine conveys_cscalar fun d bytes h => ?_
  cases d with
  | number bits =>
    cases h
    exact ⟨_, fun file => takes_double file bits, .number bits, fun _ _ _ => .number bits⟩
  | boolean b =>
    cases h
    exact ⟨_, fun file => takes_double file _, .number _, fun h => nomatch ok.inj h⟩
  | _ => cases h

theorem conveys_boolean : Conveys .boolean (emitCscalar (str "bool") toBool) := by
  refine conveys_cscalar fun d bytes h => ?_
  cases d with
  | boolean b =>
    cases h
    exact ⟨_, fun file => takes_bool file b, .boolean b, fun _ _ _ => .boolean b⟩
  | number bits =>
    cases h
    exact ⟨_, fun file => takes_bool file _, .boolean _, fun h => nomatch ok.inj h⟩
  | _ => cases h

/-! ## Structs -/

variable {env : Env} {d : Value} {members : List (Key × Grammar)}
  {emitMember : List (Key × Emitter)} {k : Key}

theorem adHocMembers_eq (h : adHocMembers es = .ok members) :
    List.Forall₂ (fun e m => m.1 = e.1 ∧ adHocGrammarFromData e.2 = .ok m.2) es members := by
  induction es generalizing members with
  | nil =>
    cases h
    exact .nil
  | cons e es ih =>
    obtain ⟨g, hg, hrest⟩ := bind_eq_ok h
    obtain ⟨ms, hms, hret⟩ := bind_eq_ok hrest
    cases hret
    exact .cons ⟨rfl, hg⟩ (ih hms)

/-- An entry that was read: it was written for a member, with what was found for it. -/
def FromMember (env : Env) (members : List (Key × Grammar)) (d : Value) (e : Key × Value) : Prop :=
  ∃ k g x, e.1 = k.normalized ∧ (k, g) ∈ members ∧
    index env d k.normalized = .ok (some x) ∧ Brings g x e.2

/-- **A struct** brings its data if each member was written for which there is something. -/
theorem brings_struct (hfrom : ∀ e ∈ entries, FromMember env members d e)
    (hall : ∀ k ∈ members.map fst, ∀ x, index env d k.normalized = .ok (some x) →
      k.normalized ∈ entries.map fst) :
    Brings (.struct members) d (.table (setEntries [] entries)) := by
  have hmem : ∀ e ∈ setEntries [] entries, FromMember env members d e := fun e he =>
    hfrom e ((mem_setEntries he).resolve_left not_mem_nil)
  constructor
  · constructor
    · intro s hs
      obtain ⟨e, he, hkey⟩ := mem_map.mp hs
      obtain ⟨k, g, x, heq, -, -, -⟩ := hmem e he
      rw [hkey] at heq
      cases k with
      | number n => cases heq
      | string s' =>
        cases heq
        exact isIdByte_normalizeId
    · intro k w he
      obtain ⟨-, -, -, -, -, -, hplain, -⟩ := hmem (k, w) he
      exact hplain
  · intro hgrammar hwf hplain
    cases hwf with
    | boolean b | number bits | string s => cases hgrammar
    | @table es hnodup hvalues =>
    cases hplain with
    | table hkeys hplains =>
    obtain ⟨ms, hms, hret⟩ := bind_eq_ok hgrammar
    obtain rfl := Grammar.struct.inj (ok.inj hret)
    have hmembers := adHocMembers_eq hms
    have hnormal : ∀ k ∈ es.map fst, k.normalized = k := by
      intro k hk
      cases k with
      | number n => rfl
      | string s => exact congrArg Key.string (normalizeId_eq (hkeys s hk))
    have hmember : ∀ k g, (k, g) ∈ ms → ∃ v, (k, v) ∈ es ∧ adHocGrammarFromData v = .ok g := by
      intro k g hkg
      obtain ⟨⟨k', v⟩, he, rfl, hv⟩ := exists_element hmembers hkg
      exact ⟨v, he, hv⟩
    constructor
    · intro k
      rw [Bool.eq_iff_iff, lookup_isSome_iff, lookup_isSome_iff, mem_keys_setEntries, map_nil,
        or_iff_right not_mem_nil]
      constructor
      · intro hk
        obtain ⟨⟨k, v⟩, he, rfl⟩ := mem_map.mp hk
        obtain ⟨⟨k', g⟩, hm, heq, -⟩ := exists_result hmembers he
        obtain rfl : k' = k := heq
        have hfound := lookup_of_mem hnodup he
        rw [← hnormal k' hk] at hfound ⊢
        exact hall k' (mem_map_of_mem (f := fst) hm) v (congrArg Except.ok hfound)
      · intro hk
        obtain ⟨e, he, rfl⟩ := mem_map.mp hk
        obtain ⟨k, g, x, heq, hkg, -, -⟩ := hfrom e he
        obtain ⟨v, hv, -⟩ := hmember k g hkg
        have hkes := mem_map_of_mem (f := fst) hv
        rwa [heq, hnormal k hkes]
    · intro k v w hv hw
      obtain ⟨k', g, x, heq, hkg, hindex, -, hsame⟩ := hmem (k, w) (mem_of_lookup hw)
      obtain ⟨v', hv', hg⟩ := hmember k' g hkg
      have hnormal' := hnormal k' (mem_map_of_mem (f := fst) hv')
      obtain rfl : k = k' := heq.trans hnormal'
      obtain rfl : v = v' := Option.mem_unique hv (lookup_of_mem hnodup hv')
      rw [hnormal'] at hindex
      obtain rfl : v = x := Option.mem_unique hv (ok.inj hindex)
      exact hsame hg (hvalues k v hv') (hplains k v hv')

section

variable {K : Type} {key : K} {id : Key}

theorem outElement_eq {elt : K × Emitter × Value}
    (h : outElement env emitMember d k id key = .ok (some elt)) :
    elt.1 = key ∧ index env d id = .ok (some elt.2.2) ∧ emitMember.lookup k = some elt.2.1 := by
  obtain ⟨x, hx, hmatch⟩ := bind_eq_ok h
  split at hmatch
  · cases hmatch
  · next y emit _ hlookup =>
    cases hmatch
    exact ⟨rfl, hx, hlookup⟩
  · cases hmatch

theorem outElement_some {r : Option (K × Emitter × Value)}
    (h : outElement env emitMember d k id key = .ok r) (hx : index env d id = .ok (some x)) :
    ∃ elt, r = some elt := by
  obtain ⟨y, hy, hmatch⟩ := bind_eq_ok h
  obtain rfl := ok_unique hx hy
  split at hmatch
  · next hnone => cases hnone
  · exact ⟨_, (ok.inj hmatch).symm⟩
  · cases hmatch

end

theorem outNumber_eq {elt : Nat × Emitter × Value}
    (h : outNumber env emitMember d k = .ok (some elt)) :
    Key.number elt.1 = k.normalized ∧ index env d k.normalized = .ok (some elt.2.2) ∧
      emitMember.lookup k = some elt.2.1 := by
  cases k with
  | string s => cases h
  | number n =>
    unfold outNumber at h
    dsimp only at h
    split_ifs at h
    exact (outElement_eq h).imp_left (congrArg Key.number)

theorem outString_eq {elt : Str × Emitter × Value}
    (h : outString env emitMember d k = .ok (some elt)) :
    Key.string elt.1 = k.normalized ∧ index env d k.normalized = .ok (some elt.2.2) ∧
      emitMember.lookup k = some elt.2.1 := by
  cases k with
  | number n => cases h
  | string s => exact (outElement_eq h).imp_left (congrArg Key.string)

theorem collected_shipped {K : Type} {f : Key → Except CompileError (Option (K × Emitter × Value))}
    {writeKey : K → Emit Unit} {toKey : K → Key}
    (hkey : ∀ k o o', o.AtEnd → writeKey k o = .ok ((), o') →
      Shipped o o' (fun file strtab _ => readKey file strtab) (toKey k))
    (hsome : ∀ k elt, f k = .ok (some elt) → toKey elt.1 = k.normalized ∧
      index env d k.normalized = .ok (some elt.2.2) ∧ emitMember.lookup k = some elt.2.1)
    (hmembers : List.Forall₂ (fun m e => e.1 = m.1 ∧ Conveys m.2 e.2) members emitMember)
    {outs : List (Option (K × Emitter × Value))} (houts : memberKeys.mapM f = .ok outs)
    (ret : List (Key × Value)) (hend : o.AtEnd)
    (h : emitMembers writeKey outs.reduceOption o = .ok ((), o')) :
    ∃ entries, Shipped o o' (fun file strtab depth =>
        readMembers file (readKey file strtab) (read1 file strtab depth) ret)
        (setEntries ret entries) ∧ (∀ e ∈ entries, FromMember env members d e) ∧
      ∀ k ∈ memberKeys, ∀ elt, f k = .ok (some elt) → k.normalized ∈ entries.map fst := by
  have hall := mapM_eq_ok.mp houts
  have horigin : ∀ elt ∈ outs.reduceOption, ∃ k g, toKey elt.1 = k.normalized ∧
      (k, g) ∈ members ∧ index env d k.normalized = .ok (some elt.2.2) ∧ Conveys g elt.2.1 := by
    intro elt helt
    obtain ⟨k, -, hf⟩ := exists_element hall (reduceOption_mem_iff.mp helt)
    obtain ⟨htoKey, hindex, hlookup⟩ := hsome k elt hf
    obtain ⟨l, r, heq, -⟩ := lookup_eq_some_iff.mp hlookup
    have he : (k, elt.2.1) ∈ emitMember := by
      rw [heq]
      exact mem_append_right _ (mem_cons_self ..)
    obtain ⟨⟨k', g⟩, hm, hkk, hconveys⟩ := exists_element hmembers he
    obtain rfl : k = k' := hkk
    exact ⟨k, g, htoKey, hm, hindex, hconveys⟩
  have hout : ∀ elt ∈ outs.reduceOption, ∀ o o', o.AtEnd → elt.2.1 elt.2.2 o = .ok ((), o') →
      ∃ w, Shipped o o' read1 w ∧ FromMember env members d (toKey elt.1, w) := by
    intro elt helt o o' hend hemit
    obtain ⟨k, g, htoKey, hm, hindex, hconveys⟩ := horigin elt helt
    obtain ⟨w, hw, hbrings⟩ := hconveys elt.2.2 o o' hend hemit
    exact ⟨w, hw, k, g, elt.2.2, htoKey, hm, hindex, hbrings⟩
  obtain ⟨entries, hentries, hshipped⟩ := emitMembers_shipped hkey hout ret hend h
  refine ⟨entries, hshipped, fun e he => ?_, fun k hk elt hf => ?_⟩
  · obtain ⟨elt, -, heq, hfrom⟩ := exists_element hentries he
    rwa [← heq] at hfrom
  · obtain ⟨r, hr, hf'⟩ := exists_result hall hk
    obtain rfl := ok_unique hf hf'
    obtain ⟨e, he, heq, -⟩ := exists_result hentries (reduceOption_mem_iff.mpr hr)
    rw [← (hsome k elt hf).1, ← heq]
    exact mem_map_of_mem he

/-- **The emitter of a struct.** -/
theorem conveys_struct (hperm : memberKeys.Perm (members.map fst))
    (hmembers : List.Forall₂ (fun m e => e.1 = m.1 ∧ Conveys m.2 e.2) members emitMember) :
    Conveys (.struct members) (emitStruct env memberKeys emitMember) := by
  intro d o o' hend h
  obtain ⟨⟨⟩, o₁, htag, h₁⟩ := emit_bind h
  obtain ⟨outn, o₂, hlift, h₂⟩ := emit_bind h₁
  obtain ⟨houtn, rfl⟩ := lift_eq_ok hlift
  obtain ⟨⟨⟩, o₃, hnumbers, h₃⟩ := emit_bind h₂
  obtain ⟨outs, o₄, hlift', hstrings⟩ := emit_bind h₃
  obtain ⟨houts, rfl⟩ := lift_eq_ok hlift'
  have hend₁ := (writeStringref_shipped hend htag).atEnd
  have hnumberKey : ∀ n o o', o.AtEnd → writeUint32 n o = .ok ((), o') →
      Shipped o o' (fun file _ _ => Key.number <$> readUint32 file) (Key.number n) :=
    fun _ _ _ hend h => (writeUint32_shipped hend h).map
  have hstringKey : ∀ s o o', o.AtEnd → writeStringref s o = .ok ((), o') →
      Shipped o o' (fun file strtab _ => Key.string <$> readString file strtab) (Key.string s) :=
    fun _ _ _ hend h => (writeStringref_shipped hend h).map
  obtain ⟨numbers, hshipped, hfrom, hcomplete⟩ := collected_shipped
    hnumberKey (fun _ _ => outNumber_eq) hmembers houtn [] hend₁ hnumbers
  obtain ⟨strings, hshipped', hfrom', hcomplete'⟩ := collected_shipped
    hstringKey (fun _ _ => outString_eq) hmembers houts (setEntries [] numbers) hshipped.atEnd
    hstrings
  have happend : setEntries (setEntries [] numbers) strings = setEntries [] (numbers ++ strings) :=
    foldl_append.symm
  rw [happend] at hshipped'
  refine ⟨.table (setEntries [] (numbers ++ strings)),
    tagged_shipped hend htag (hshipped.bind hshipped'.map),
    brings_struct (fun e he => (mem_append.mp he).elim (hfrom e) (hfrom' e)) ?_⟩
  intro k hk x hx
  rw [map_append, mem_append]
  have hk' := hperm.mem_iff.mpr hk
  cases k with
  | number n =>
    obtain ⟨r, -, hr⟩ := exists_result (mapM_eq_ok.mp houtn) hk'
    have hr' := hr
    unfold outNumber at hr'
    dsimp only at hr'
    split_ifs at hr'
    obtain ⟨elt, rfl⟩ := outElement_some hr' hx
    exact .inl (hcomplete _ hk' elt hr)
  | string s =>
    obtain ⟨r, -, hr⟩ := exists_result (mapM_eq_ok.mp houts) hk'
    obtain ⟨elt, rfl⟩ := outElement_some hr hx
    exact .inr (hcomplete' _ hk' elt hr)

mutual

/-- **Every emitter conveys data**, for any grammar. -/
theorem visit_conveys (env : Env) : ∀ (g : Grammar) {emit : Emitter}, visit env g = .ok emit →
    Conveys g emit
  | .boolean, _, h => by
    cases h
    exact conveys_boolean
  | .decimal64, _, h => by
    cases h
    exact conveys_decimal64
  | .string, _, h => by
    cases h
    exact conveys_string
  | .struct members, emit, h => by
    unfold visit at h
    split_ifs at h
    obtain ⟨emitMember, hmembers, hret⟩ := bind_eq_ok h
    cases hret
    exact conveys_struct (env.sorted.perm _) (visitMembers_conveys env members hmembers)

theorem visitMembers_conveys (env : Env) : ∀ (members : List (Key × Grammar))
    {emitMember : List (Key × Emitter)}, visitMembers env members = .ok emitMember →
    List.Forall₂ (fun m e => e.1 = m.1 ∧ Conveys m.2 e.2) members emitMember
  | [], _, h => by
    unfold visitMembers at h
    cases h
    exact .nil
  | (k, production) :: rest, _, h => by
    unfold visitMembers at h
    obtain ⟨emit, hemit, hrest⟩ := bind_eq_ok h
    obtain ⟨emitRest, hemitRest, hret⟩ := bind_eq_ok hrest
    cases hret
    exact .cons ⟨rfl, visit_conveys env production hemit⟩ (visitMembers_conveys env rest hemitRest)

end

/-! ## The table of strings -/

/-- Where each of the strings ends. -/
def offsets : Nat → List Str → List Nat
  | _, [] => []
  | strEnd, s :: strings => (strEnd + s.length) :: offsets (strEnd + s.length) strings

theorem getLast_offsets (strEnd : Nat) (s : Str) (strings : List Str) :
    (offsets strEnd (s :: strings)).getLast? =
      some (strEnd + (s :: strings).flatten.length) := by
  induction strings generalizing strEnd s with
  | nil => simp [offsets]
  | cons s' strings ih =>
    rw [offsets, offsets, List.getLast?_cons_cons, ← offsets, ih]
    simp [Nat.add_assoc]

theorem emitOffsets_adds {strEnd : Nat} (hend : o.AtEnd) (h : (strings.foldlM (fun strEnd s => do
      writeUint32 (strEnd + s.length)
      return strEnd + s.length) strEnd : Emit Nat) o = .ok (n, o')) :
    ∃ bytes, Adds o o' bytes ∧ o'.strings = o.strings ∧ bytes.length = 4 * strings.length ∧
      ∀ file, Takes file (readUint32s file strings.length) bytes (offsets strEnd strings) := by
  induction strings generalizing strEnd o with
  | nil =>
    cases h
    exact ⟨[], ⟨(append_nil _).symm, hend, prefix_rfl⟩, rfl, rfl, fun _ => Takes.pure⟩
  | cons s strings ih =>
    rw [foldlM_cons] at h
    obtain ⟨n', mid, hfirst, hrest⟩ := emit_bind h
    obtain ⟨⟨⟩, mid', hwrite, hret⟩ := emit_bind hfirst
    cases hret
    obtain ⟨hadds, hn, hsame, -⟩ := writeUint32_adds hend hwrite
    obtain ⟨bytes, hadds', hsame', hlength, hread⟩ := ih hadds.atEnd hrest
    refine ⟨_, hadds.trans hadds', hsame'.trans hsame, ?_, fun file => ?_⟩
    · rw [List.length_append, length_leBytes, hlength, length_cons]
      omega
    · exact (readUint32_takes file hn).bind (hread file).map

theorem emitStrings_adds (hend : o.AtEnd) (h : strings.forM write o = .ok ((), o')) :
    Adds o o' strings.flatten ∧ o'.strings = o.strings ∧ (strings ≠ [] → o'.pos < 2 ^ 63) ∧
      ∀ file strEnd, Takes file (readStrings file strEnd (offsets strEnd strings))
        strings.flatten strings := by
  induction strings generalizing o with
  | nil =>
    cases h
    exact ⟨⟨(append_nil _).symm, hend, prefix_rfl⟩, rfl, fun hne => absurd rfl hne,
      fun _ _ => Takes.pure⟩
  | cons s strings ih =>
    obtain ⟨⟨⟩, mid, hwrite, hrest⟩ := emit_bind h
    obtain ⟨hadds, hpos, hsame⟩ := write_adds hend hwrite
    obtain ⟨hadds', hsame', hpos', hread⟩ := ih hadds.atEnd hrest
    refine ⟨hadds.trans hadds', hsame'.trans hsame, fun _ => ?_, fun file strEnd => ?_⟩
    · by_cases hne : strings = []
      · subst hne
        cases hrest
        exact hpos
      · exact hpos' hne
    rw [offsets, readStrings, if_pos (Nat.le_add_right _ _), Nat.add_sub_cancel_left]
    exact (readBytes_takes file s rfl).bind (hread file _).map

/-- **The table of strings** is read as it was written. -/
theorem stringTable_adds {strtabStart strtabLen : Nat} (hend : o.AtEnd) (hne : o.strings ≠ [])
    (h : emitStringTable o = .ok ((strtabStart, strtabLen), o')) :
    strtabStart = o.pos ∧ ∃ bytes, Adds o o' bytes ∧ strtabLen = bytes.length ∧
      o'.strings = o.strings ∧ o.strings.length < 2 ^ 32 ∧ o'.pos < 2 ^ 63 ∧
      ∀ file, Takes file (readStringTable file strtabLen) bytes o.strings := by
  obtain ⟨_, _, hget, h₁⟩ := emit_bind h
  cases hget
  obtain ⟨_, _, htell, h₂⟩ := emit_bind h₁
  cases htell
  obtain ⟨⟨⟩, o₁, hcount, h₃⟩ := emit_bind h₂
  obtain ⟨n, o₂, hoffsets, h₄⟩ := emit_bind h₃
  obtain ⟨⟨⟩, o₃, hstrings, h₅⟩ := emit_bind h₄
  obtain ⟨_, _, htell', hret⟩ := emit_bind h₅
  cases htell'
  obtain ⟨hpair, rfl⟩ := ok_pair_inj hret
  cases hpair
  obtain ⟨hadds, hn, hsame, -⟩ := writeUint32_adds hend hcount
  obtain ⟨bytes, hadds', hsame', hlength, hread⟩ := emitOffsets_adds hadds.atEnd hoffsets
  obtain ⟨hadds'', hsame'', hpos, hreadStrings⟩ := emitStrings_adds hadds'.atEnd hstrings
  have hadded := hadds.trans (hadds'.trans hadds'')
  have hlen : o₃.pos - o.pos =
      (leBytes 4 o.strings.length ++ (bytes ++ o.strings.flatten)).length := by
    have hend₃ := hadded.atEnd
    unfold Output.AtEnd at hend hend₃
    rw [hend, hend₃, hadded.content, List.length_append, Nat.add_sub_cancel_left]
  refine ⟨rfl, _, hadded, hlen, hsame''.trans (hsame'.trans hsame), hn, hpos hne,
    fun file => ?_⟩
  rw [List.length_append, List.length_append, length_leBytes, hlength] at hlen
  obtain ⟨s, strings, hcons⟩ := exists_cons_of_ne_nil hne
  have hlast : (offsets 0 o.strings).getLast? = some o.strings.flatten.length := by
    rw [hcons, getLast_offsets, Nat.zero_add]
  unfold readStringTable
  rw [if_neg (by omega)]
  refine (readUint32_takes file hn).bind ?_
  rw [if_neg (by omega)]
  refine (hread file).bind ?_
  rw [hlast]
  dsimp only
  rw [if_pos (by omega)]
  exact hreadStrings file 0

/-! ## Files -/

theorem header_takes (file : List UInt8) (hmagic : h.magic.length = 8)
    (hversion : h.version < 2 ^ 32) (hsec : h.sourceMtimeSec < 2 ^ 64)
    (hnsec : h.sourceMtimeNsec < 2 ^ 32) (hname : h.schemaName < 2 ^ 32)
    (hrevision : h.revisionDate < 2 ^ 32) (hstart : h.dataStart < 2 ^ 64)
    (hlen : h.dataLen < 2 ^ 64) (hstrtab : h.strtabStart < 2 ^ 64)
    (hstrtabLen : h.strtabLen < 2 ^ 64) : Takes file (readHeader file) h.toBytes h := by
  have hread : Takes file (readHeader file) _ h :=
    (readBytes_takes file h.magic hmagic.symm).bind <| (readUint32_takes file hversion).bind <|
    (readUint32_takes file (n := 0) (by decide)).bind <| (readUint64_takes file hsec).bind <|
    (readUint32_takes file hnsec).bind <| (readUint32_takes file hname).bind <|
    (readUint32_takes file hrevision).bind <| (readUint32_takes file (n := 0) (by decide)).bind <|
    (readUint64_takes file hstart).bind <| (readUint64_takes file hlen).bind <|
    (readUint64_takes file hstrtab).bind <| (readUint64_takes file hstrtabLen).bind Takes.pure
  rwa [append_nil] at hread

theorem magic_length : magic.length = 8 := by decide

theorem length_toBytes (hmagic : h.magic.length = 8) : h.toBytes.length = 72 := by
  unfold Header.toBytes
  simp only [List.length_append, length_leBytes, hmagic]

theorem write_front {old rest : List UInt8} (hlength : old.length = bytes.length)
    (hcontent : o.content = old ++ rest) (h : write bytes { o with pos := 0 } = .ok ((), o')) :
    o'.content = bytes ++ rest := by
  unfold write at h
  split_ifs at h
  cases h
  show List.take 0 o.content ++ bytes ++ o.content.drop (0 + bytes.length) = bytes ++ rest
  rw [take_zero, nil_append, Nat.zero_add, hcontent, ← hlength, drop_left]

/-- **What is loaded** is what the header, the data and the table of strings are read as. -/
theorem loadCompiledData_eq {data table : List UInt8}
    (hheader : ∀ file, Takes file (readHeader file) h.toBytes h) (hmagic : h.magic = magic)
    (hversion : h.version = version) (hstart : h.dataStart = 72) (hlen : h.dataLen = data.length)
    (hstrtab : h.strtabStart = 72 + data.length)
    (htable : ∀ file, Takes file (readStringTable file h.strtabLen) table strings)
    (hdata : ∀ file depth, data.length < depth → Takes file (read1 file strings depth) data w) :
    loadCompiledData (h.toBytes ++ (data ++ table)) =
      .ok ⟨strings[h.schemaName]?, strings[h.revisionDate]?, h.sourceMtimeSec,
        h.sourceMtimeNsec, w⟩ := by
  have hlength : h.toBytes.length = 72 := length_toBytes (hmagic ▸ magic_length)
  have hall := at_zero (h.toBytes ++ (data ++ table))
  have hrest := hall.right
  rw [hlength, Nat.zero_add] at hrest
  have hread₁ := hheader _ 0 hall.left
  have hread₂ := htable _ _ hrest.right
  have hread₃ := hdata (h.toBytes ++ (data ++ table))
    ((h.toBytes ++ (data ++ table)).length + 1)
    (by rw [List.length_append, List.length_append]; omega) _ hrest.left
  unfold loadCompiledData
  rw [hread₁]
  dsimp only [bind, Except.bind]
  rw [if_neg (not_not.mpr hmagic), if_neg (not_not.mpr hversion), hstrtab, hread₂]
  dsimp only
  rw [hstart, readCompiledData, hread₃]
  dsimp only
  rw [if_pos (by rw [hlen])]
  rfl

/-- **A file** has a header, the data and the table of strings. -/
theorem compileData_eq {emitData : Emitter} {schemaName schemaRevision : Str} {sec nsec : Nat}
    {data : Value} (hsec : sec < 2 ^ 64) (hnsec : nsec < 2 ^ 32) (hemit : Conveys g emitData)
    (h : compileData emitData schemaName schemaRevision sec nsec data ⟨[], 0, []⟩ = .ok ((), o)) :
    ∃ w, loadCompiledData o.content = .ok ⟨some schemaName, some schemaRevision, sec, nsec, w⟩ ∧
      Brings g data w := by
  obtain ⟨name, o₁, hname, h₁⟩ := emit_bind h
  obtain ⟨revision, o₂, hrevision, h₂⟩ := emit_bind h₁
  obtain ⟨⟨⟩, o₃, hheader, h₃⟩ := emit_bind h₂
  obtain ⟨_, _, htell, h₄⟩ := emit_bind h₃
  cases htell
  obtain ⟨⟨⟩, o₄, hdata, h₅⟩ := emit_bind h₄
  obtain ⟨_, _, htell', h₆⟩ := emit_bind h₅
  cases htell'
  obtain ⟨⟨strtabStart, strtabLen⟩, o₅, htable, h₇⟩ := emit_bind h₆
  obtain ⟨⟨⟩, _, hseek, hwrite⟩ := emit_bind h₇
  cases hseek
  obtain ⟨hcontent₁, hpos₁, -, hget₁⟩ := intern_eq hname
  obtain ⟨hcontent₂, hpos₂, hstrings₂, hget₂⟩ := intern_eq hrevision
  have hend₂ : o₂.AtEnd := by
    unfold Output.AtEnd
    rw [hpos₂, hpos₁, hcontent₂, hcontent₁]
    rfl
  obtain ⟨hadds₃, -, hsame₃⟩ := write_adds hend₂ hheader
  obtain ⟨w, ⟨data, hadds₄, hread⟩, hbrings⟩ := hemit _ _ _ hadds₃.atEnd hdata
  -- The two strings that the header names are in the table from the start.
  have hname : o₄.strings[name]? = some schemaName := by
    have hext := hstrings₂.trans (hsame₃ ▸ hadds₄.strings)
    exact getElem?_of_prefix hext hget₁
  have hrevision : o₄.strings[revision]? = some schemaRevision :=
    getElem?_of_prefix (hsame₃ ▸ hadds₄.strings) hget₂
  have hne : o₄.strings ≠ [] := by
    intro hnil
    rw [hnil] at hname
    cases hname
  obtain ⟨rfl, table, hadds₅, rfl, hsame₅, hcount, hpos₅, htakes⟩ :=
    stringTable_adds hadds₄.atEnd hne htable
  have hstart : o₃.pos = 72 := by
    have hend₃ := hadds₃.atEnd
    unfold Output.AtEnd at hend₃
    rw [hend₃, hadds₃.content, hcontent₂, hcontent₁, nil_append, length_toBytes magic_length]
  have hlen₄ : o₄.pos = 72 + data.length := by
    have hend₄ := hadds₄.atEnd
    have hend₃ := hadds₃.atEnd
    unfold Output.AtEnd at hend₃ hend₄
    rw [hend₄, hadds₄.content, List.length_append, ← hend₃, hstart]
  have hlen₅ : o₅.pos = 72 + data.length + table.length := by
    have hend₅ := hadds₅.atEnd
    have hend₄ := hadds₄.atEnd
    unfold Output.AtEnd at hend₄ hend₅
    rw [hend₅, hadds₅.content, List.length_append, ← hend₄, hlen₄]
  rw [hstart, hlen₄] at hwrite
  have hcontent₅ : o₅.content =
      (Header.mk magic version sec nsec name revision 0 0 0 0).toBytes ++ (data ++ table) := by
    rw [hadds₅.content, hadds₄.content, hadds₃.content, hcontent₂, hcontent₁, nil_append,
      append_assoc]
  have hfile := write_front (by rw [length_toBytes magic_length, length_toBytes magic_length])
    hcontent₅ hwrite
  have hindex : ∀ {i : Nat} {s : Str}, o₄.strings[i]? = some s → i < 2 ^ 32 := fun h =>
    (List.getElem?_eq_some_iff.mp h).1.trans hcount
  have hheader : ∀ file, Takes file (readHeader file) _ (Header.mk magic version sec nsec name
      revision 72 (72 + data.length - 72) (72 + data.length) table.length) := fun file =>
    header_takes file magic_length (show version < 2 ^ 32 by decide) hsec hnsec (hindex hname)
      (hindex hrevision)
      (by dsimp only; omega) (by dsimp only; omega) (by dsimp only; omega) (by dsimp only; omega)
  have hload := loadCompiledData_eq hheader rfl rfl rfl (Nat.add_sub_cancel_left ..) rfl htakes
    (hread o₄.strings prefix_rfl)
  rw [hname, hrevision] at hload
  rw [hfile]
  exact ⟨w, hload, hbrings⟩

/-! ## The round trip -/

/-- Lua data: tables whose keys differ from each other, and no functions. -/
abbrev LuaData := {v : Value // v.WellFormed}

/-- **What was written is loaded**: data whose keys are plain, and the same if the keys were. -/
theorem compile_loads {env : Env} (hwf : v.WellFormed) {file : List UInt8}
    (h : compileAdHocLuaDataToFile env v = .ok file) :
    ∃ c, loadCompiledData file = .ok c ∧ c.data.PlainKeys ∧ (v.PlainKeys → v.Same c.data) := by
  obtain ⟨g, hg, h₁⟩ := bind_eq_ok h
  obtain ⟨emitter, hemitter, h₂⟩ := bind_eq_ok h₁
  obtain ⟨⟨⟨⟩, o⟩, ho, hret⟩ := bind_eq_ok h₂
  cases hret
  obtain ⟨w, hload, hplain, hsame⟩ := compileData_eq (by decide) (by decide)
    (visit_conveys env g hemitter) ho
  exact ⟨_, hload, hplain, hsame hg hwf⟩

/-- **Data comes back** from the file to which it was written if and only if its keys, at any depth,
have but letters, digits and underscores. -/
theorem round_trip_iff {env : Env} {v : LuaData} {file : List UInt8}
    (h : compileAdHocLuaDataToFile env v = .ok file) :
    (∃ c, loadCompiledData file = .ok c ∧ v.1.Same c.data) ↔ v.1.PlainKeys := by
  obtain ⟨c, hload, hplain, hsame⟩ := compile_loads v.2 h
  constructor
  · rintro ⟨c', hc', hsame'⟩
    obtain rfl := ok_unique hload hc'
    exact hsame'.plainKeys v.2 hplain
  · exact fun hv => ⟨c, hload, hsame hv⟩

/-- Keys that stay in their order. -/
def listed : Env := ⟨⟨id, fun _ => List.Perm.rfl⟩, fun _ => false, fun _ => false⟩

/-- A table with one entry. -/
def single (k : Key) (v : Value) : Value := .table [(k, v)]

theorem wellFormed_single (h : v.WellFormed) : (single k v).WellFormed :=
  .table (nodup_singleton k) fun _ _ hmem => by
    obtain ⟨-, rfl⟩ := mk.inj (mem_singleton.mp hmem)
    exact h

theorem compiles_of_toBool (h : (compileAdHocLuaDataToFile listed v).toBool = true) :
    ∃ file, compileAdHocLuaDataToFile listed v = .ok file := by
  cases hfile : compileAdHocLuaDataToFile listed v with
  | error e =>
    rw [hfile] at h
    cases h
  | ok file => exact ⟨file, rfl⟩

/-- A table in a table, under a number and a name. -/
theorem round_trip_nested : ∃ file c,
    compileAdHocLuaDataToFile listed
      (single (.number 42) (single (.string (str "baz")) (.boolean true))) = .ok file ∧
      loadCompiledData file = .ok c ∧
        (single (.number 42) (single (.string (str "baz")) (.boolean true))).Same c.data := by
  obtain ⟨file, hfile⟩ := compiles_of_toBool (by decide +kernel :
    (compileAdHocLuaDataToFile listed
      (single (.number 42) (single (.string (str "baz")) (.boolean true)))).toBool = true)
  have hplain : (single (.string (str "baz")) (.boolean true)).PlainKeys := by
    constructor
    · intro s hs
      obtain rfl := Key.string.inj (mem_singleton.mp hs)
      decide +kernel
    · intro k v hmem
      obtain ⟨-, rfl⟩ := mk.inj (mem_singleton.mp hmem)
      exact .boolean true
  have hplain' :
      (single (.number 42) (single (.string (str "baz")) (.boolean true))).PlainKeys := by
    constructor
    · intro s hs
      cases mem_singleton.mp hs
    · intro k v hmem
      obtain ⟨-, rfl⟩ := mk.inj (mem_singleton.mp hmem)
      exact hplain
  obtain ⟨c, hload, hsame⟩ := (round_trip_iff
    (v := ⟨_, wellFormed_single (wellFormed_single (.boolean true))⟩) hfile).mpr hplain'
  exact ⟨file, c, hfile, hload, hsame⟩

/-- The entry of a key with a hyphen is lost. -/
theorem hyphen_lost : ∃ file c,
    compileAdHocLuaDataToFile listed (single (.string (str "foo-bar")) (.boolean true)) = .ok file ∧
      loadCompiledData file = .ok c ∧
        ¬ (single (.string (str "foo-bar")) (.boolean true)).Same c.data := by
  obtain ⟨file, hfile⟩ := compiles_of_toBool (by decide +kernel : (compileAdHocLuaDataToFile listed
    (single (.string (str "foo-bar")) (.boolean true))).toBool = true)
  have hwf : (single (.string (str "foo-bar")) (.boolean true)).WellFormed :=
    wellFormed_single (.boolean true)
  obtain ⟨c, hload, hplain, -⟩ := compile_loads hwf hfile
  refine ⟨file, c, hfile, hload, fun hsame => ?_⟩
  cases hsame.plainKeys hwf hplain with
  | table hkeys _ => exact absurd (hkeys _ (mem_singleton.mpr rfl) 45 (by decide)) (by decide)

end YangBinary

end Snabb
