import Snabb.Foundation.LuaPattern
import Snabb.Foundation.Numeral
import Snabb.Foundation.Words
import Snabb.Core.Checksum

/-!
# IPv6 addresses as text (`lib/lpm/ip6.lua`)

`tostring` writes two colons for a run of zero groups at the beginning or at the end. At the
beginning it keeps the colon after the run as well, and `parse` asserts that there are no three
colons in a row.

- `matches_iff`: what the pattern of `parse` matches;
- `tostring_eq`: which run of zeros `tostring` leaves out;
- `parse_tostring_iff`: the addresses that are read as they are written.
-/

namespace Snabb.Ip6

open Foundation LuaPattern Words List
export Checksum (ntohs)

abbrev Str := List UInt8

/-- `ip6_t`, by its `u16`. -/
abbrev Ip6T := Fin 8 → BitVec 16

/-- `:`. -/
abbrev colon : UInt8 := 58

/-- `string.rep`. -/
def rep (s : Str) (n : Nat) : Str := (List.replicate n s).flatten

/-- `string.gsub`, for a pattern of plain characters after `^`. -/
def gsubStart (pattern replace str : Str) : Str :=
  if pattern <+: str then replace ++ str.drop pattern.length else str

/-- `string.gsub`, for a pattern of plain characters before `$`. -/
def gsubEnd (pattern replace str : Str) : Str :=
  if pattern <:+ str then str.take (str.length - pattern.length) ++ replace else str

def colons (str : Str) : Nat := str.count colon

/-- `"(%x?%x?%x?%x?)"`. -/
def blk : Piece UInt8 := ⟨[.opt isXDigit, .opt isXDigit, .opt isXDigit, .opt isXDigit], true⟩

/-- `string.rep(blk .. ":", n) .. blk`. -/
def blks : Nat → List (Piece UInt8)
  | 0 => [blk]
  | n + 1 => blk :: ⟨[.one (· == colon)], false⟩ :: blks n

/-- The string that `parse` matches. -/
def expand (str : Str) : Str :=
  let replace := rep [colon, 48] (8 - colons str) ++ [colon]
  let str := gsubEnd [colon] [colon, 48] str
  let str := gsubStart [colon] [48, colon] str
  gsubPair colon replace str

/-- `IP6.parse`. No number is read from an empty chunk, and comparing it raises. -/
def parse (str : Str) : Option Ip6T :=
  if [colon, colon, colon] <:+: str then none
  else
    match luaMatch (blks 7) (expand str) with
    | none => none
    | some chunks =>
      if ∀ v ∈ chunks, v ≠ [] ∧ value 16 v < 2 ^ 16 then
        some fun i => ntohs (BitVec.ofNat 16 (value 16 (chunks.getD i [])))
      else none

/-- The loop of `tostring`, from `i` down. -/
def compress (str : Str) : Nat → Str
  | 0 => str
  | i + 1 =>
    let r := rep [48, colon] (i + 1) ++ [48]
    let s := gsubStart r [colon, colon] str
    if s ≠ str then s
    else
      let s := gsubEnd (colon :: r) [colon, colon] str
      if s ≠ str then s else compress str i

/-- `string.format("%x", ntohs(group))`. -/
def hex (group : BitVec 16) : Str := numeral 16 (ntohs group).toNat

/-- `tab` of `tostring`. -/
def tab (ip : Ip6T) : List Str := List.ofFn fun i => hex (ip i)

/-- `IP6.tostring`. -/
def tostring (ip : Ip6T) : Str := compress ([colon].intercalate (tab ip)) 7

/-! ## Chunks -/

/-- What a `blk` takes. -/
def Chunk (w : Str) : Prop := w.length ≤ 4 ∧ ∀ c ∈ w, isXDigit c

variable {s : Str} {ws vs : List Str} {n k : Nat} {part : Str}

theorem takes_opt : (Item.opt isXDigit).Takes part ↔ part.length ≤ 1 ∧ ∀ c ∈ part, isXDigit c := by
  simp [Item.Takes, Item.opt]

theorem takes_colon : (Item.one (· == colon)).Takes part ↔ part = [colon] := by
  constructor
  · rintro ⟨hleast, hmost, hall⟩
    obtain ⟨c, rfl⟩ := length_eq_one_iff.mp (Nat.le_antisymm (hmost 1 rfl) hleast)
    rw [beq_iff_eq.mp (hall c mem_cons_self)]
  · rintro rfl
    exact ⟨le_rfl, fun m hm => (Option.some.inj hm).le, by simp [Item.one]⟩

theorem chunk_append {a b c d : Str} (ha : (Item.opt isXDigit).Takes a)
    (hb : (Item.opt isXDigit).Takes b) (hc : (Item.opt isXDigit).Takes c)
    (hd : (Item.opt isXDigit).Takes d) : Chunk (a ++ (b ++ (c ++ d))) := by
  rw [takes_opt] at ha hb hc hd
  constructor
  · simp only [List.length_append]
    omega
  · intro x hx
    simp only [mem_append] at hx
    rcases hx with hx | hx | hx | hx
    · exact ha.2 x hx
    · exact hb.2 x hx
    · exact hc.2 x hx
    · exact hd.2 x hx

theorem Chunk.exists_parts {w : Str} (h : Chunk w) : ∃ a b c d : Str,
    (Item.opt isXDigit).Takes a ∧ (Item.opt isXDigit).Takes b ∧ (Item.opt isXDigit).Takes c ∧
      (Item.opt isXDigit).Takes d ∧ a ++ (b ++ (c ++ d)) = w := by
  simp only [takes_opt]
  obtain ⟨hlen, hall⟩ := h
  match w with
  | [] => exact ⟨[], [], [], [], by simp⟩
  | [a] => exact ⟨[a], [], [], [], by simpa using hall⟩
  | [a, b] => exact ⟨[a], [b], [], [], by simpa using hall⟩
  | [a, b, c] => exact ⟨[a], [b], [c], [], by simpa using hall⟩
  | [a, b, c, d] => exact ⟨[a], [b], [c], [d], by simpa using hall⟩
  | _ :: _ :: _ :: _ :: _ :: _ =>
    simp only [length_cons] at hlen
    omega

variable {parts : List Str}

theorem parts_zero : Parts (blks 0) parts ↔ ∃ a b c d : Str,
    (Item.opt isXDigit).Takes a ∧ (Item.opt isXDigit).Takes b ∧ (Item.opt isXDigit).Takes c ∧
      (Item.opt isXDigit).Takes d ∧ parts = [a, b, c, d] := by
  simp only [Parts, blks, blk, flatMap_cons, flatMap_nil, cons_append,
    nil_append, forall₂_cons_left_iff, forall₂_nil_left_iff]
  grind

theorem parts_succ : Parts (blks (n + 1)) parts ↔ ∃ a b c d rest,
    (Item.opt isXDigit).Takes a ∧ (Item.opt isXDigit).Takes b ∧ (Item.opt isXDigit).Takes c ∧
      (Item.opt isXDigit).Takes d ∧ Parts (blks n) rest ∧
        parts = a :: b :: c :: d :: [colon] :: rest := by
  simp only [Parts, blks, blk, flatMap_cons, cons_append, nil_append,
    forall₂_cons_left_iff, takes_colon]
  grind

theorem captured_of_parts (h : Parts (blks n) parts) :
    (capturedParts (blks n) parts).length = n + 1 ∧ (∀ w ∈ capturedParts (blks n) parts, Chunk w) ∧
      [colon].intercalate (capturedParts (blks n) parts) = parts.flatten := by
  induction n generalizing parts with
  | zero =>
    obtain ⟨a, b, c, d, ha, hb, hc, hd, rfl⟩ := parts_zero.mp h
    have hchunk := chunk_append ha hb hc hd
    simpa [blks, blk, capturedParts] using hchunk
  | succ n ih =>
    obtain ⟨a, b, c, d, rest, ha, hb, hc, hd, hrest, rfl⟩ := parts_succ.mp h
    have hchunk := chunk_append ha hb hc hd
    obtain ⟨hlen, hall, hjoin⟩ := ih hrest
    have hcaptured : capturedParts (blks (n + 1)) (a :: b :: c :: d :: [colon] :: rest) =
        (a ++ (b ++ (c ++ d))) :: capturedParts (blks n) rest := by
      simp [blks, blk, capturedParts]
    rw [hcaptured]
    refine ⟨by rw [length_cons, hlen], forall_mem_cons.mpr ⟨hchunk, hall⟩, ?_⟩
    rw [intercalate_cons_of_ne_nil (ne_nil_of_length_pos (by omega)), hjoin]
    simp

theorem exists_parts (hlen : ws.length = n + 1) (hws : ∀ w ∈ ws, Chunk w) :
    ∃ parts, Parts (blks n) parts ∧ parts.flatten = [colon].intercalate ws := by
  induction n generalizing ws with
  | zero =>
    obtain ⟨w, rfl⟩ := length_eq_one_iff.mp hlen
    obtain ⟨a, b, c, d, ha, hb, hc, hd, hw⟩ := (hws w mem_cons_self).exists_parts
    exact ⟨_, parts_zero.mpr ⟨a, b, c, d, ha, hb, hc, hd, rfl⟩, by simpa using hw⟩
  | succ n ih =>
    obtain ⟨w, ws, rfl⟩ := exists_cons_of_length_eq_add_one hlen
    rw [length_cons, Nat.add_right_cancel_iff] at hlen
    obtain ⟨hw, hrest⟩ := forall_mem_cons.mp hws
    obtain ⟨a, b, c, d, ha, hb, hc, hd, hjoin⟩ := hw.exists_parts
    obtain ⟨rest, hparts, hflat⟩ := ih hlen hrest
    refine ⟨_, parts_succ.mpr ⟨a, b, c, d, rest, ha, hb, hc, hd, hparts, rfl⟩, ?_⟩
    rw [intercalate_cons_of_ne_nil (ne_nil_of_length_pos (by omega)), ← hflat, ← hjoin]
    simp

theorem Chunk.free (h : ∀ w ∈ ws, Chunk w) : Free colon ws := by
  intro w hw hcolon
  exact absurd ((h w hw).2 colon hcolon) (by decide)

/-- **What the pattern matches**: chunks between colons. -/
theorem matches_iff : luaMatch (blks n) s = some ws ↔
    ws.length = n + 1 ∧ (∀ w ∈ ws, Chunk w) ∧ s = [colon].intercalate ws := by
  constructor
  · intro h
    obtain ⟨parts, hparts, rfl, -, rfl⟩ := luaMatch_eq_some.mp h
    obtain ⟨hlen, hall, hjoin⟩ := captured_of_parts hparts
    exact ⟨hlen, hall, hjoin.symm⟩
  · rintro ⟨hlen, hall, rfl⟩
    have hsome : luaMatch (blks n) ([colon].intercalate ws) ≠ none := by
      intro hnone
      obtain ⟨parts, hparts, hflat⟩ := exists_parts hlen hall
      exact luaMatch_eq_none.mp hnone parts hparts hflat
    obtain ⟨found, hfound⟩ := Option.ne_none_iff_exists'.mp hsome
    obtain ⟨parts, hparts, hflat, -, rfl⟩ := luaMatch_eq_some.mp hfound
    obtain ⟨hlen', hall', hjoin⟩ := captured_of_parts hparts
    -- the chunks of both are what stands between the colons
    have hne {vs : List Str} (h : vs.length = n + 1) : vs ≠ [] :=
      ne_nil_of_length_pos (by omega)
    rw [hfound, ← splitOn_intercalate colon (Chunk.free hall') (hne hlen'), hjoin, hflat,
      splitOn_intercalate colon (Chunk.free hall) (hne hlen)]

/-! ## Runs of zeros -/

/-- Words as `tostring` writes them. -/
structure Groups (ws : List Str) : Prop where
  free : Free colon ws
  words : [] ∉ ws
  zero : ∀ w ∈ ws, w.head? = some 48 → w = [48]

theorem Groups.of_cons {w : Str} (h : Groups (w :: ws)) : Groups ws where
  free := h.free.of_cons.2
  words := fun hmem => h.words (mem_cons_of_mem w hmem)
  zero := fun v hv => h.zero v (mem_cons_of_mem w hv)

theorem Groups.of_append (h : Groups (ws ++ vs)) : Groups ws where
  free := fun w hw => h.free w (mem_append_left vs hw)
  words := fun hmem => h.words (mem_append_left vs hmem)
  zero := fun w hw => h.zero w (mem_append_left vs hw)

/-- `k` groups of zeros. -/
def zeros (k : Nat) : Str := [colon].intercalate (List.replicate k [48])

theorem zeros_succ (hk : 0 < k) : zeros (k + 1) = 48 :: colon :: zeros k := by
  rw [zeros, replicate_succ, intercalate_cons_of_ne_nil (by simp; omega)]
  rfl

theorem exists_zeros (k : Nat) : ∃ t, zeros (k + 1) = 48 :: t := by
  cases k with
  | zero => exact ⟨[], rfl⟩
  | succ k => exact ⟨_, zeros_succ (Nat.succ_pos k)⟩

/-- `r` of `tostring`. -/
theorem rep_zeros (k : Nat) : rep [48, colon] k ++ [48] = zeros (k + 1) := by
  induction k with
  | zero => rfl
  | succ k ih =>
    rw [zeros_succ (Nat.succ_pos k), ← ih]
    rfl

/-- `replace` of `parse`, with the digit that follows. -/
theorem rep_colons (k : Nat) : rep [colon, 48] k ++ [colon, 48] = colon :: zeros (k + 1) := by
  induction k with
  | zero => rfl
  | succ k ih =>
    rw [zeros_succ (Nat.succ_pos k), ← ih]
    rfl

/-- How many groups are zero at the beginning. -/
def leading (ws : List Str) : Nat := (ws.takeWhile (· == [48])).length

/-- How many groups are zero at the end. -/
def trailing (ws : List Str) : Nat := leading ws.reverse

theorem replicate_prefix_iff : List.replicate k [48] <+: ws ↔ k ≤ leading ws := by
  induction ws generalizing k with
  | nil => simp [leading]
  | cons w ws ih =>
    cases k with
    | zero => simp
    | succ k =>
      rw [replicate_succ, cons_prefix_cons, ih]
      by_cases hw : w = [48]
      · simp [hw, leading]
      · simp [hw, Ne.symm hw, leading]

theorem replicate_suffix_iff : List.replicate k [48] <:+ ws ↔ k ≤ trailing ws := by
  rw [trailing, ← replicate_prefix_iff, ← reverse_prefix, reverse_replicate]

theorem leading_le (ws : List Str) : leading ws ≤ ws.length := (List.takeWhile_prefix _).length_le

theorem trailing_le (ws : List Str) : trailing ws ≤ ws.length :=
  (leading_le ws.reverse).trans length_reverse.le

theorem zeros_prefix_iff (h : Groups ws) :
    zeros (k + 1) <+: [colon].intercalate ws ↔ k + 1 ≤ leading ws := by
  rw [← replicate_prefix_iff]
  induction ws generalizing k with
  | nil =>
    obtain ⟨t, ht⟩ := exists_zeros k
    simp [ht]
  | cons w ws ih =>
    by_cases hw : w = [48]
    · rw [hw, replicate_succ, cons_prefix_cons]
      by_cases hlast : ws = []
      · cases k with
        | zero => simp [hlast, zeros]
        | succ k => simp [hlast, zeros_succ, replicate_succ]
      · rw [intercalate_cons_of_ne_nil hlast]
        cases k with
        | zero => exact iff_of_true (prefix_append [48] _) ⟨rfl, nil_prefix⟩
        | succ k =>
          show 48 :: colon :: zeros (k + 1) <+: 48 :: colon :: [colon].intercalate ws ↔ _
          rw [cons_prefix_cons, cons_prefix_cons, ih h.of_cons]
          simp
    · -- the first group begins with another digit
      refine iff_of_false ?_ fun hbegins => hw (cons_prefix_cons.mp hbegins).1.symm
      obtain ⟨t, ht⟩ := exists_zeros k
      intro hbegins
      have hhead : ([colon].intercalate (w :: ws)).head? = some 48 := by
        obtain ⟨u, hu⟩ := hbegins
        rw [← hu, ht]
        rfl
      obtain ⟨c, w', rfl⟩ := exists_cons_of_ne_nil
        fun hnil => h.words (hnil ▸ mem_cons_self)
      refine hw (h.zero _ mem_cons_self ?_)
      cases ws with
      | nil | cons v vs => simpa using hhead

theorem zeros_suffix_iff (h : Groups ws) (hne : ws ≠ []) :
    colon :: zeros (k + 1) <:+ [colon].intercalate ws ↔
      k + 1 ≤ trailing ws ∧ k + 1 < ws.length := by
  have hfree : Free colon (List.replicate (k + 1) [48]) := by
    intro w hw
    rw [eq_of_mem_replicate hw]
    decide
  rw [zeros, suffix_iff h.free hne hfree (by simp), ← replicate_suffix_iff]
  constructor
  · rintro ⟨us, hus, rfl⟩
    refine ⟨suffix_append us _, ?_⟩
    have hpos := length_pos_of_ne_nil hus
    rw [List.length_append, length_replicate]
    omega
  · rintro ⟨⟨us, rfl⟩, hlen⟩
    refine ⟨us, ?_, rfl⟩
    rintro rfl
    rw [nil_append, length_replicate] at hlen
    exact Nat.lt_irrefl _ hlen

theorem leading_of_trailing (h : trailing ws = ws.length) : leading ws = ws.length := by
  have hsuffix : List.replicate ws.length [48] <:+ ws := replicate_suffix_iff.mpr h.ge
  have heq := hsuffix.eq_of_length length_replicate
  refine le_antisymm (leading_le ws) (replicate_prefix_iff.mp ?_)
  rw [heq]

/-! ## The printer -/

/-- The string with a run of zeros left out. -/
def shortened (ws : List Str) : Str :=
  if 2 ≤ leading ws ∧ trailing ws ≤ leading ws then
    gsubStart (zeros (leading ws)) [colon, colon] ([colon].intercalate ws)
  else if 2 ≤ trailing ws then
    gsubEnd (colon :: zeros (trailing ws)) [colon, colon] ([colon].intercalate ws)
  else [colon].intercalate ws

theorem gsubStart_ne (h : zeros (k + 1) <+: s) :
    gsubStart (zeros (k + 1)) [colon, colon] s ≠ s := by
  obtain ⟨t, ht⟩ := exists_zeros k
  obtain ⟨u, rfl⟩ := h
  rw [gsubStart, if_pos (prefix_append _ u), ht]
  exact fun heq => absurd (List.cons.inj heq).1 (by decide)

theorem gsubEnd_append (pattern replace t : Str) :
    gsubEnd pattern replace (t ++ pattern) = t ++ replace := by
  rw [gsubEnd, if_pos (suffix_append t pattern), List.length_append, Nat.add_sub_cancel,
    take_left]

theorem gsubEnd_ne (h : colon :: zeros (k + 1) <:+ s) :
    gsubEnd (colon :: zeros (k + 1)) [colon, colon] s ≠ s := by
  obtain ⟨t, ht⟩ := exists_zeros k
  obtain ⟨u, rfl⟩ := h
  rw [gsubEnd_append, ht]
  intro heq
  have hrest := append_cancel_left heq
  exact absurd (List.cons.inj (List.cons.inj hrest).2).1 (by decide)

theorem compress_eq (h : Groups ws) (hne : ws ≠ []) {i : Nat} (hleading : leading ws ≤ i + 1)
    (htrailing : trailing ws ≤ i + 1) : compress ([colon].intercalate ws) i = shortened ws := by
  induction i with
  | zero => rw [compress, shortened, if_neg (by omega), if_neg (by omega)]
  | succ i ih =>
    rw [compress, rep_zeros]
    by_cases hstart : leading ws = i + 1 + 1
    · have hbegins := (zeros_prefix_iff h).mpr hstart.ge
      rw [if_pos (gsubStart_ne hbegins), shortened, if_pos (by omega), hstart]
    · have hbegins : ¬ zeros (i + 1 + 1) <+: [colon].intercalate ws := by
        rw [zeros_prefix_iff h]
        omega
      rw [gsubStart, if_neg hbegins, if_neg (not_not_intro rfl)]
      by_cases hend : trailing ws = i + 1 + 1
      · have hlt : trailing ws < ws.length := by
          refine lt_of_le_of_ne (trailing_le ws) fun hall => ?_
          have hzero := leading_of_trailing hall
          omega
        have hsuffix := (zeros_suffix_iff h hne).mpr ⟨hend.ge, hend ▸ hlt⟩
        rw [if_pos (gsubEnd_ne hsuffix), shortened, if_neg (by omega), if_pos (by omega), hend]
      · have hsuffix : ¬ colon :: zeros (i + 1 + 1) <:+ [colon].intercalate ws := by
          rw [zeros_suffix_iff h hne]
          omega
        rw [gsubEnd, if_neg hsuffix, if_neg (not_not_intro rfl)]
        exact ih (by omega) (by omega)

/-! ## Addresses -/

variable {ip : Ip6T}

theorem ntohs_ntohs (n : BitVec 16) : ntohs (ntohs n) = n := by
  have hvalue : (ntohs n).toNat = n.toNat % 256 * 256 + n.toNat / 256 := by
    rw [ntohs, BitVec.toNat_ofNat]
    omega
  have hlow : (ntohs n).toNat % 256 = n.toNat / 256 := by omega
  have hhigh : (ntohs n).toNat / 256 = n.toNat % 256 := by omega
  rw [← BitVec.toNat_inj, ntohs, BitVec.toNat_ofNat]
  omega

theorem toNat_ntohs_eq_zero {n : BitVec 16} : (ntohs n).toNat = 0 ↔ n = 0 := by
  constructor
  · intro h
    have hzero : ntohs n = 0 := BitVec.toNat_inj.mp h
    rw [← ntohs_ntohs n, hzero]
    rfl
  · rintro rfl
    rfl

theorem hex_eq_zero {group : BitVec 16} : hex group = [48] ↔ group = 0 := by
  rw [← toNat_ntohs_eq_zero]
  constructor
  · intro h
    rw [← head_numeral (by decide) le_rfl, show numeral 16 _ = [48] from h]
    rfl
  · intro h
    rw [hex, h]
    rfl

theorem chunk_hex (group : BitVec 16) : Chunk (hex group) :=
  ⟨length_numeral_le (by decide) (by decide) (ntohs group).isLt,
    fun _ => isXDigit_of_mem_numeral (by decide) le_rfl⟩

theorem tab_eq (ip : Ip6T) : tab ip = (List.ofFn ip).map hex := by
  rfl

theorem chunk_tab : ∀ w ∈ tab ip, Chunk w := by
  rw [tab_eq]
  intro w hw
  obtain ⟨group, -, rfl⟩ := mem_map.mp hw
  exact chunk_hex group

theorem length_tab (ip : Ip6T) : (tab ip).length = 8 := length_ofFn

theorem tab_ne_nil : tab ip ≠ [] :=
  ne_nil_of_length_pos ((length_tab ip).symm ▸ Nat.succ_pos 7)

theorem groups_tab : Groups (tab ip) where
  free := Chunk.free chunk_tab
  words := by
    rw [tab_eq, mem_map]
    rintro ⟨group, -, hempty⟩
    exact numeral_ne_nil (by decide) _ hempty
  zero := by
    rw [tab_eq]
    intro w hw hhead
    obtain ⟨group, -, rfl⟩ := mem_map.mp hw
    rw [hex_eq_zero, ← toNat_ntohs_eq_zero]
    exact (head_numeral (by decide) le_rfl).mp hhead

/-- How many groups of an address are zero at its beginning. -/
def lead (ip : Ip6T) : Nat := ((List.ofFn ip).takeWhile (· == 0)).length

/-- How many groups of an address are zero at its end. -/
def trail (ip : Ip6T) : Nat := ((List.ofFn ip).reverse.takeWhile (· == 0)).length

theorem leading_map_hex (groups : List (BitVec 16)) :
    leading (groups.map hex) = (groups.takeWhile (· == 0)).length := by
  have hzero : (fun w => w == [48]) ∘ hex = fun group => group == 0 := by
    funext group
    exact Bool.eq_iff_iff.mpr (by simp only [Function.comp, beq_iff_eq, hex_eq_zero])
  rw [leading, takeWhile_map, hzero, length_map]

theorem leading_tab : leading (tab ip) = lead ip := by rw [tab_eq, leading_map_hex, lead]

theorem trailing_tab : trailing (tab ip) = trail ip := by
  rw [trailing, tab_eq, ← map_reverse, leading_map_hex, trail]

/-- **Which run of zeros `tostring` leaves out**: the longest one at the beginning or the end. -/
theorem tostring_eq (ip : Ip6T) : tostring ip =
    if 2 ≤ lead ip ∧ trail ip ≤ lead ip then
      gsubStart (zeros (lead ip)) [colon, colon] ([colon].intercalate (tab ip))
    else if 2 ≤ trail ip then
      gsubEnd (colon :: zeros (trail ip)) [colon, colon] ([colon].intercalate (tab ip))
    else [colon].intercalate (tab ip) := by
  have hleading : leading (tab ip) ≤ 7 + 1 := (leading_le _).trans (length_tab ip).le
  have htrailing : trailing (tab ip) ≤ 7 + 1 := (trailing_le _).trans (length_tab ip).le
  rw [tostring, compress_eq groups_tab tab_ne_nil hleading htrailing, shortened, leading_tab,
    trailing_tab]

/-! ## The parser -/

/-- A string that is expanded to all groups is read. -/
theorem parse_eq (hcolons : ¬ [colon, colon, colon] <:+: s)
    (hexpand : expand s = [colon].intercalate (tab ip)) : parse s = some ip := by
  have hmatch : luaMatch (blks 7) (expand s) = some (tab ip) :=
    matches_iff.mpr ⟨length_tab ip, chunk_tab, hexpand⟩
  have hvalue group : value 16 (hex group) = (ntohs group).toNat :=
    value_numeral (by decide) le_rfl _
  have hall : ∀ v ∈ tab ip, v ≠ [] ∧ value 16 v < 2 ^ 16 := by
    intro v hv
    refine ⟨fun hnil => groups_tab.words (hnil ▸ hv), ?_⟩
    rw [tab_eq] at hv
    obtain ⟨group, -, rfl⟩ := mem_map.mp hv
    rw [hvalue]
    exact (ntohs group).isLt
  rw [parse, if_neg hcolons, hmatch]
  show (if _ then _ else _) = _
  rw [if_pos hall]
  congr 1
  funext i
  have hget : (tab ip).getD i [] = hex (ip i) := by
    rw [tab, getD_eq_getElem?_getD, List.getElem?_ofFn]
    simp
  rw [hget, hvalue, BitVec.ofNat_toNat, BitVec.setWidth_eq, ntohs_ntohs]

theorem not_colons_of_pair (h : ¬ [colon, colon] <:+: s) : ¬ [colon, colon, colon] <:+: s :=
  fun hin => h ((prefix_append [colon, colon] [colon]).isInfix.trans hin)

theorem expand_intercalate (h : Groups ws) (hne : ws ≠ []) :
    expand ([colon].intercalate ws) = [colon].intercalate ws := by
  rw [expand, gsubEnd, if_neg (not_ends h.free hne h.words), gsubStart,
    if_neg (not_begins h.free hne h.words), gsubPair_eq_self (not_pair h.free hne h.words)]

/-- Two colons at the end are expanded to the groups that are missing. -/
theorem expand_end (h : Groups ws) (hne : ws ≠ []) (hlen : ws.length + (k + 1) = 8) :
    expand ([colon].intercalate ws ++ [colon, colon]) =
      [colon].intercalate (ws ++ List.replicate (k + 1) [48]) := by
  have hcount : colons ([colon].intercalate ws ++ [colon, colon]) = 8 - k := by
    have hpos := length_pos_of_ne_nil hne
    rw [colons, count_append, count_intercalate h.free]
    show ws.length - 1 + 2 = _
    omega
  have hend : gsubEnd [colon] [colon, 48] ([colon].intercalate ws ++ [colon, colon]) =
      [colon].intercalate ws ++ colon :: colon :: [48] := by
    have hsplit : [colon].intercalate ws ++ [colon, colon] =
        ([colon].intercalate ws ++ [colon]) ++ [colon] := by
      rw [append_assoc, singleton_append]
    rw [hsplit, gsubEnd_append, append_assoc, singleton_append]
  have hstart : ¬ [colon] <+: [colon].intercalate ws ++ colon :: colon :: [48] := by
    have hinit : [colon].intercalate ws ++ colon :: colon :: [48] =
        [colon].intercalate (ws ++ [[], [48]]) := by
      rw [intercalate_append hne (by simp)]
      rfl
    intro hbegins
    obtain ⟨w, vs, rfl⟩ := exists_cons_of_ne_nil hne
    obtain ⟨c, w', rfl⟩ := exists_cons_of_ne_nil
      fun hnil => h.words (hnil ▸ mem_cons_self)
    rw [hinit, cons_append, intercalate_cons_of_ne_nil (by simp)] at hbegins
    exact h.free _ mem_cons_self ((cons_prefix_cons.mp hbegins).1 ▸ mem_cons_self)
  have hmissing : 8 - (8 - k) = k := by omega
  rw [expand, hcount, hend, gsubStart, if_neg hstart,
    gsubPair_append (not_pair h.free hne h.words) (not_ends h.free hne h.words),
    intercalate_append hne (by simp), hmissing, ← zeros, ← rep_colons, gsubPair]
  simp

/-- The addresses that `tostring` writes with three colons: two or more groups are zero at the
beginning, though not all of them, and no more at the end. -/
def Tripled (ip : Ip6T) : Prop := 2 ≤ lead ip ∧ lead ip < 8 ∧ trail ip ≤ lead ip

theorem parse_tripled (h : Tripled ip) : parse (tostring ip) = none := by
  obtain ⟨htwo, hlt, hle⟩ := h
  obtain ⟨k, hk⟩ : ∃ k, lead ip = k + 1 := ⟨lead ip - 1, by omega⟩
  rw [tostring_eq, if_pos ⟨htwo, hle⟩, hk]
  obtain ⟨rest, hrest⟩ : List.replicate (k + 1) [48] <+: tab ip := by
    rw [replicate_prefix_iff, leading_tab, hk]
  have hlast : rest ≠ [] := by
    rintro rfl
    have hlen := congrArg List.length hrest
    rw [append_nil, length_replicate, length_tab ip] at hlen
    omega
  have htext : gsubStart (zeros (k + 1)) [colon, colon] ([colon].intercalate (tab ip)) =
      [colon, colon, colon] ++ [colon].intercalate rest := by
    rw [← hrest, intercalate_append (by simp) hlast, ← zeros, gsubStart,
      if_pos (prefix_append _ _), drop_left]
    rfl
  rw [htext, parse, if_pos (prefix_append _ _).isInfix]

theorem parse_zero (h : lead ip = 8) : parse (tostring ip) = some ip := by
  have htab : tab ip = List.replicate 8 [48] := by
    have hbegins : List.replicate 8 [48] <+: tab ip := by
      rw [replicate_prefix_iff, leading_tab, h]
    exact (hbegins.eq_of_length (by rw [length_replicate, length_tab ip])).symm
  have htrail : trail ip ≤ 8 := by
    rw [← trailing_tab]
    exact trailing_le (tab ip)
  have htext : gsubStart (zeros 8) [colon, colon] ([colon].intercalate (tab ip)) =
      [colon, colon] := by
    rw [htab]
    decide
  rw [tostring_eq, if_pos (by omega), h, htext]
  exact parse_eq (by decide) (htab ▸ by decide)

theorem parse_untouched (hlead : ¬ (2 ≤ lead ip ∧ trail ip ≤ lead ip)) (htrail : trail ip < 2) :
    parse (tostring ip) = some ip := by
  rw [tostring_eq, if_neg hlead, if_neg (by omega)]
  exact parse_eq (not_colons_of_pair (not_pair groups_tab.free tab_ne_nil groups_tab.words))
    (expand_intercalate groups_tab tab_ne_nil)

theorem parse_end (hlead : lead ip < trail ip) (htrail : 2 ≤ trail ip) :
    parse (tostring ip) = some ip := by
  obtain ⟨k, hk⟩ : ∃ k, trail ip = k + 1 := ⟨trail ip - 1, by omega⟩
  obtain ⟨us, hus⟩ : List.replicate (k + 1) [48] <:+ tab ip := by
    rw [replicate_suffix_iff, trailing_tab, hk]
  have hlen : us.length + (k + 1) = 8 := by
    rw [← length_tab ip, ← hus, List.length_append, length_replicate]
  have hne : us ≠ [] := by
    rintro rfl
    have hall := leading_of_trailing (show trailing (tab ip) = (tab ip).length by
      rw [trailing_tab, length_tab ip, hk, ← hlen, length_nil, Nat.zero_add])
    rw [leading_tab, length_tab ip] at hall
    omega
  have hgroups : Groups us := (hus ▸ groups_tab : Groups (us ++ _)).of_append
  have htext : gsubEnd (colon :: zeros (k + 1)) [colon, colon] ([colon].intercalate (tab ip)) =
      [colon].intercalate us ++ [colon, colon] := by
    rw [← hus, intercalate_append hne (by simp), ← zeros, gsubEnd_append]
  rw [tostring_eq, if_neg (by omega), if_pos htrail, hk, htext]
  exact parse_eq (not_triple hgroups.free hne hgroups.words)
    (hus ▸ expand_end hgroups hne hlen)

/-- **The addresses that are read as they are written**: all but those written with three
colons, which are not read. -/
theorem parse_tostring_iff (ip : Ip6T) : parse (tostring ip) = some ip ↔ ¬ Tripled ip := by
  constructor
  · intro h htripled
    rw [parse_tripled htripled] at h
    cases h
  · intro h
    have hle : lead ip ≤ 8 := by
      rw [← leading_tab]
      exact leading_le (tab ip)
    by_cases hlead : 2 ≤ lead ip ∧ trail ip ≤ lead ip
    · refine parse_zero ?_
      by_contra hall
      exact h ⟨hlead.1, by omega, hlead.2⟩
    · by_cases htrail : 2 ≤ trail ip
      · exact parse_end (by omega) htrail
      · exact parse_untouched hlead (by omega)

/-- The loopback address. -/
theorem parse_loopback : ¬ ∀ ip : Ip6T, parse (tostring ip) = some ip := by
  intro hall
  have hloopback := hall fun i => if i = 7 then 0x100 else 0
  cases hloopback

end Snabb.Ip6
