import Mathlib.Data.List.Pairwise
import Snabb.Lib.Yang.Parser

/-!
# Paths (`lib/yang/path.lua`)

A path is split at the slashes that stand outside brackets, and its parts are read. A relative path
may begin with `.`, and is resolved from a node like a directory.

- `parsePath1_text`: a path is read back from its text;
- `normalizePath_normal`: a path is normalised to one of the same meaning;
- `parseRelativePath_iff`: the path of the node is found if and only if there is no `.`, because the
  message of the assertion about it calls a string.
-/

namespace Snabb

open Foundation List

namespace Yang

/-- A component of a path. The query is the list of the keys and values assigned, in their order. -/
structure PathPart where
  name : Str
  query : List (Str × Str)
deriving DecidableEq

structure Path where
  relative : Bool
  parts : List PathPart
deriving DecidableEq

namespace Path

/-- `consume`. -/
def consume (char : UInt8) : Str → Option Str
  | c :: s => if c = char then some s else none
  | [] => none

/-- `token`: the first characters that are neither `=` nor `]`, wherever they begin. -/
def token (s : Str) : Option (Str × Str) :=
  let s := s.dropWhile (· ∈ str "=]")
  if s = [] then none else some (s.takeWhile (· ∉ str "=]"), s.dropWhile (· ∉ str "=]"))

/-- The loop of `extract_parts`; every round takes five characters at least. -/
def extractQuery : Nat → Str → Option (List (Str × Str))
  | _, [] => some []
  | 0, _ :: _ => none
  | fuel + 1, s => do
    let (k, s) ← token (← consume 91 s)
    let (v, s) ← token (← consume 61 s)
    return (k, v) :: (← extractQuery fuel (← consume 93 s))

/-- `extract_parts`: the name begins behind the `[` at the beginning, if there are any. -/
def extractParts (fragment : Str) : Option PathPart := do
  let s := fragment.dropWhile (· = 91)
  let rest := s.dropWhile (· ≠ 91)
  if s = [] then none else return ⟨s.takeWhile (· ≠ 91), ← extractQuery rest.length rest⟩

/-- The loop of `parse_path1`: the tokens, some of them empty. -/
def split (depth : Int) (token : Str) : Str → List Str
  | [] => [token]
  | c :: s =>
    if depth = 0 ∧ c = 47 then
      if token = [] then split depth [] s else token :: split depth [] s
    else if c = 91 then split (depth + 1) (token ++ [c]) s
    else if c = 93 then
      if depth - 1 = 0 ∧ s.head? ≠ some 91 then (token ++ [c]) :: split (depth - 1) [] s
      else split (depth - 1) (token ++ [c]) s
    else split depth (token ++ [c]) s

/-- `parse_path1`. -/
def parsePath1 (path : Str) : Option Path := do
  let parts ← ((split 0 [] path).filter (· ≠ [])).mapM extractParts
  return ⟨path.head? ≠ some 47, parts⟩

/-- `.` or `current()`. -/
def IsSelf (part : PathPart) : Prop := part.name = str "." ∨ part.name = str "current()"

instance (part : PathPart) : Decidable (IsSelf part) := inferInstanceAs (Decidable (_ ∨ _))

/-- The loop of `parse_relative_path`. -/
def traverse (apath : List PathPart) : List PathPart → Option (List PathPart)
  | [] => some apath
  | part :: rest =>
    -- The arguments of the assertion come first, and the message is no function to be called.
    if IsSelf part then none
    else if part.name = str ".." then if apath = [] then none else traverse apath.dropLast rest
    else traverse (apath ++ [part]) rest

/-- `parse_relative_path`. `extend` is what `parse_path` does with a grammar, or without one. -/
def parseRelativePath (extend : Path → Option Path) (path nodePath : Str) : Option Path := do
  let path ← parsePath1 path
  if path.relative then
    let node ← extend (← parsePath1 nodePath)
    if node.relative then none else extend ⟨false, ← traverse node.parts path.parts⟩
  else extend path

/-! ## Reading a text -/

/-- The selectors of a part. -/
def selectors (query : List (Str × Str)) : Str :=
  query.flatMap fun (k, v) => 91 :: (k ++ 61 :: v) ++ [93]

def partText (part : PathPart) : Str := part.name ++ selectors part.query

def slashed (parts : List PathPart) : Str := parts.flatMap fun part => 47 :: partText part

/-- The text of a path. -/
def text (path : Path) : Str := (if path.relative then [] else [47]) ++ (slashed path.parts).tail

def Without (bad s : Str) : Prop := s ≠ [] ∧ ∀ c ∈ s, c ∉ bad

/-- Names, keys and values that can be told from what stands between them. -/
structure WellFormed (part : PathPart) : Prop where
  name : Without (str "/[]") part.name
  query : ∀ e ∈ part.query, Without (str "=[]") e.1 ∧ Without (str "=[]") e.2

variable {s t w bad : Str} {depth : Int} {part : PathPart} {query : List (Str × Str)}

theorem split_append (h : ∀ c ∈ w, c ≠ 91 ∧ c ≠ 93 ∧ (depth = 0 → c ≠ 47)) :
    split depth t (w ++ s) = split depth (t ++ w) s := by
  induction w generalizing t with
  | nil => rw [nil_append, append_nil]
  | cons c w ih =>
    obtain ⟨hopen, hclose, hslash⟩ := h c mem_cons_self
    rw [cons_append, split, if_neg fun hc => hslash hc.1 hc.2, if_neg hopen, if_neg hclose,
      ih fun d hd => h d (mem_cons_of_mem c hd), append_assoc, singleton_append]

theorem Without.ne {c d : UInt8} (h : Without bad w) (hc : c ∈ w) (hd : d ∈ bad) : c ≠ d := by
  rintro rfl
  exact h.2 c hc hd

theorem split_selectors (hquery : ∀ e ∈ query, Without (str "=[]") e.1 ∧ Without (str "=[]") e.2)
    (hs : s.head? ≠ some 91) : split 0 t (selectors query ++ s) =
      if query = [] then split 0 t s else (t ++ selectors query) :: split 0 [] s := by
  induction query generalizing t with
  | nil => rfl
  | cons e query ih =>
    obtain ⟨hk, hv⟩ := hquery e mem_cons_self
    have hw : ∀ c ∈ e.1 ++ 61 :: e.2, c ≠ 91 ∧ c ≠ 93 ∧ ((0 : Int) + 1 = 0 → c ≠ 47) := by
      intro c hc
      rcases mem_append.mp hc with hc | hc
      · exact ⟨hk.ne hc (by decide), hk.ne hc (by decide), fun h => absurd h (by decide)⟩
      · rcases mem_cons.mp hc with rfl | hc
        · decide
        · exact ⟨hv.ne hc (by decide), hv.ne hc (by decide), fun h => absurd h (by decide)⟩
    have hcons : selectors (e :: query) = 91 :: (e.1 ++ 61 :: e.2) ++ 93 :: selectors query := by
      simp [selectors]
    rw [hcons, append_assoc, cons_append, split, if_neg (by decide), if_pos rfl, split_append hw,
      cons_append, split, if_neg (by decide), if_neg (by decide), if_pos rfl, Int.add_sub_cancel]
    cases query with
    | nil =>
      rw [selectors, if_pos ⟨rfl, hs⟩]
      simp
    | cons e' query =>
      rw [if_neg (by simp [selectors]), ih fun x hx => hquery x (mem_cons_of_mem e hx)]
      simp

theorem split_partText (h : WellFormed part) (hs : s = [] ∨ s.head? = some 47) :
    (split 0 [] (partText part ++ s)).filter (· ≠ []) =
      partText part :: (split 0 [] s).filter (· ≠ []) := by
  have hne := h.name.1
  have hhead : s.head? ≠ some 91 := by rcases hs with rfl | hs <;> simp [*]
  rw [partText, append_assoc, split_append fun c hc =>
    ⟨h.name.ne hc (by decide), h.name.ne hc (by decide), fun _ => h.name.ne hc (by decide)⟩,
    nil_append, split_selectors h.query hhead]
  split_ifs with hquery
  · rw [hquery]
    cases s with
    | nil => simp [split, selectors, hne]
    | cons c s =>
      obtain rfl : c = 47 := by simpa using hs
      simp [split, selectors, hne]
  · rw [filter_cons_of_pos (by simp [hne])]

theorem split_slashed {parts : List PathPart} (h : ∀ part ∈ parts, WellFormed part) :
    (split 0 [] (slashed parts)).filter (· ≠ []) = parts.map partText := by
  induction parts with
  | nil => rfl
  | cons part parts ih =>
    have hrest : slashed parts = [] ∨ (slashed parts).head? = some 47 := by
      cases parts <;> simp [slashed]
    have hcons : slashed (part :: parts) = 47 :: (partText part ++ slashed parts) := rfl
    rw [hcons, split, if_pos ⟨rfl, rfl⟩, if_pos rfl, split_partText (h part mem_cons_self) hrest,
      ih fun p hp => h p (mem_cons_of_mem part hp), map_cons]

theorem token_append {d : UInt8} (h : Without (str "=[]") w) (hd : d ∈ str "=]") :
    token (w ++ d :: s) = some (w, d :: s) := by
  obtain ⟨c, w, rfl⟩ := exists_cons_of_ne_nil h.1
  have hall : ∀ e ∈ c :: w, decide (e ∉ str "=]") = true := by
    intro e he
    have hne := h.2 e he
    simp_all [str]
  have hc := hall c mem_cons_self
  rw [token, cons_append, dropWhile_cons_of_neg (by simpa using hc), if_neg (cons_ne_nil _ _),
    ← cons_append, takeWhile_append_of_pos hall,
    dropWhile_append_of_pos hall, takeWhile_cons_of_neg (by simpa using hd),
    dropWhile_cons_of_neg (by simpa using hd), append_nil]

theorem extractQuery_selectors {fuel : Nat} (hfuel : query.length ≤ fuel)
    (hquery : ∀ e ∈ query, Without (str "=[]") e.1 ∧ Without (str "=[]") e.2) :
    extractQuery fuel (selectors query) = some query := by
  induction query generalizing fuel with
  | nil => cases fuel <;> rfl
  | cons e query ih =>
    obtain ⟨fuel, rfl⟩ := Nat.exists_eq_succ_of_ne_zero (Nat.ne_zero_of_lt hfuel)
    obtain ⟨hk, hv⟩ := hquery e mem_cons_self
    have hcons : selectors (e :: query) =
        91 :: (e.1 ++ 61 :: (e.2 ++ 93 :: selectors query)) := by simp [selectors]
    have hrest := ih (Nat.le_of_succ_le_succ hfuel) fun e' he' =>
      hquery e' (mem_cons_of_mem e he')
    simp [hcons, extractQuery, consume, token_append hk, token_append hv, str, hrest]

theorem extractParts_partText (h : WellFormed part) : extractParts (partText part) = some part := by
  obtain ⟨name, query⟩ := part
  obtain ⟨c, w, rfl⟩ := exists_cons_of_ne_nil h.name.1
  have hall : ∀ e ∈ c :: w, decide (e ≠ 91) = true := fun e he =>
    decide_eq_true (h.name.ne he (by decide))
  have hrest : (selectors query).takeWhile (· ≠ 91) = [] ∧
      (selectors query).dropWhile (· ≠ 91) = selectors query := by
    cases query <;> simp [selectors]
  have hlength : query.length ≤ (selectors query).length := by
    clear hrest h
    induction query with
    | nil => exact Nat.le_refl _
    | cons e query ih =>
      simp only [selectors, flatMap_cons, length_append, length_cons] at ih ⊢
      omega
  rw [extractParts, partText, cons_append,
    dropWhile_cons_of_neg (by simpa using hall c mem_cons_self), ← cons_append,
    takeWhile_append_of_pos hall, dropWhile_append_of_pos hall, hrest.1, hrest.2, append_nil,
    extractQuery_selectors hlength h.query]
  rfl

/-- **A path is read back from its text.** -/
theorem parsePath1_text {path : Path} (h : ∀ part ∈ path.parts, WellFormed part) :
    parsePath1 (text path) = some path := by
  have htext : ((split 0 [] (text path)).filter (· ≠ [])) = path.parts.map partText := by
    rw [← split_slashed h, text]
    cases path.relative <;> cases path.parts <;> simp [slashed, split]
  have hread : (path.parts.map partText).mapM extractParts = some path.parts := by
    have hall := mapM_eq_some_map (f := extractParts ∘ partText) (g := id) fun part hpart =>
      extractParts_partText (h part hpart)
    rw [mapM_map, hall, map_id]
  have hhead : decide ((text path).head? ≠ some 47) = path.relative := by
    obtain ⟨relative, parts⟩ := path
    cases relative with
    | false => rfl
    | true =>
      cases parts with
      | nil => rfl
      | cons part parts =>
        have hname := (h part mem_cons_self).name
        obtain ⟨c, w, hw⟩ := exists_cons_of_ne_nil hname.1
        have hc : c ≠ 47 := hname.ne (hw ▸ mem_cons_self) (by decide)
        simp [text, slashed, partText, hw, hc]
  rw [parsePath1, htext, hread]
  show some (Path.mk (decide _) path.parts) = some path
  rw [hhead]

/-! ## Normalising -/

/-- A query is a table: the last value assigned to a key is its value. -/
def valueOf (query : List (Str × Str)) (k : Str) : Option Str := query.reverse.lookup k

/-- The keys of a query in their order, with their values. -/
def sortQuery (query : List (Str × Str)) : List (Str × Str) :=
  (query.pwFilter fun a b => a.1 ≠ b.1).mergeSort fun a b => decide (a.1 ≤ b.1)

def normalPart (part : PathPart) : PathPart := ⟨part.name, sortQuery part.query⟩

/-- `normalize_path`, without a grammar. -/
def normalizePath (path : Str) : Option Str := do
  let path ← parsePath1 path
  return text ⟨path.relative, path.parts.map normalPart⟩

/-- The same name, and the same table. -/
def Same (part part' : PathPart) : Prop :=
  part.name = part'.name ∧ ∀ k, valueOf part.query k = valueOf part'.query k

theorem mem_sortQuery {e : Str × Str} : e ∈ sortQuery query ↔ valueOf query e.1 = some e.2 := by
  rw [sortQuery, mem_mergeSort, valueOf]
  induction query generalizing e with
  | nil => simp
  | cons a query ih =>
    have hone : [a].lookup e.1 = some e.2 ↔ e = a := by
      obtain ⟨k, v⟩ := a
      by_cases he : e.1 = k
      · simp [he, Prod.ext_iff, eq_comm]
      · simp [lookup_cons, beq_eq_false_iff_ne.mpr he, Prod.ext_iff, he]
    rw [reverse_cons, lookup_append, Option.or_eq_some_iff, ← ih, hone]
    by_cases h : ∀ b ∈ query.pwFilter fun a b => a.1 ≠ b.1, a.1 ≠ b.1
    · rw [pwFilter_cons_of_pos h, mem_cons, or_comm]
      refine or_congr_right ⟨?_, And.right⟩
      -- no later assignment is one to this key
      rintro rfl
      refine ⟨Option.eq_none_iff_forall_ne_some.mpr fun v hv => ?_, rfl⟩
      exact h (e.1, v) (ih.mpr hv) rfl
    · rw [pwFilter_cons_of_neg h]
      push Not at h
      obtain ⟨b, hb, hkey⟩ := h
      refine (or_iff_left ?_).symm
      rintro ⟨hnone, rfl⟩
      rw [hkey, ih.mp hb] at hnone
      cases hnone

theorem pairwise_sortQuery : (sortQuery query).Pairwise fun a b => a.1 ≤ b.1 := by
  refine (pairwise_mergeSort (fun a b c hab hbc => ?_) (fun a b => ?_) _).imp of_decide_eq_true
  · exact decide_eq_true (List.le_trans (of_decide_eq_true hab) (of_decide_eq_true hbc))
  · simpa using List.le_total a.1 b.1

theorem distinct_sortQuery : (sortQuery query).Pairwise fun a b => a.1 ≠ b.1 :=
  (pairwise_pwFilter _).perm (mergeSort_perm _ _).symm fun h => h.symm

theorem sortQuery_self : sortQuery (sortQuery query) = sortQuery query := by
  rw [sortQuery, pwFilter_eq_self.mpr distinct_sortQuery]
  exact mergeSort_of_pairwise (pairwise_sortQuery.imp decide_eq_true)

/-- **Normalising a path keeps its meaning**: the result is read again, to the same names with the
same values of the same keys, and it is normal. -/
theorem normalizePath_normal {p : Str} {path : Path} (hpath : parsePath1 p = some path)
    (h : ∀ part ∈ path.parts, WellFormed part) :
    ∃ q parts, normalizePath p = some q ∧ parsePath1 q = some ⟨path.relative, parts⟩ ∧
      Forall₂ Same path.parts parts ∧ normalizePath q = some q := by
  have hself : normalPart ∘ normalPart = normalPart := funext fun part =>
    congrArg (PathPart.mk part.name) sortQuery_self
  have hformed : ∀ part ∈ path.parts.map normalPart, WellFormed part := by
    rw [forall_mem_map]
    refine fun part hpart => ⟨(h part hpart).name, fun e he => (h part hpart).query e ?_⟩
    exact pwFilter_subset _ (mem_mergeSort.mp he)
  have hread := @parsePath1_text ⟨path.relative, _⟩ hformed
  refine ⟨_, _, by rw [normalizePath, hpath]; rfl, hread, ?_, ?_⟩
  · rw [forall₂_map_right_iff]
    refine forall₂_same.mpr fun part _ => ⟨rfl, fun k => Option.ext fun v => ?_⟩
    rw [← mem_sortQuery (e := (k, v)), ← mem_sortQuery (e := (k, v)), normalPart, sortQuery_self]
  · rw [normalizePath, hread, Option.bind_eq_bind, Option.bind_some, map_map, hself]
    rfl

/-- The path of the self-test. -/
theorem normalizePath_normal_sample : ∃ q parts,
    normalizePath (str "//foo[c=1][b=2]//bar//") = some q ∧ parsePath1 q = some ⟨false, parts⟩ ∧
      Forall₂ Same [⟨str "foo", [(str "c", str "1"), (str "b", str "2")]⟩, ⟨str "bar", []⟩] parts ∧
      normalizePath q = some q := by
  refine @normalizePath_normal _ ⟨false, [_, _]⟩ (by decide) ?_
  simp only [forall_mem_cons]
  refine ⟨⟨by simp [Without, str], ?_⟩, ⟨by simp [Without, str], ?_⟩, ?_⟩ <;> simp [Without, str]

/-! ## Walking -/

inductive Step where
  | up
  | down (part : PathPart)

/-- Go to the parent, or to a child. -/
def Step.take (dir : List PathPart) : Step → Option (List PathPart)
  | up => if dir = [] then none else some dir.dropLast
  | down part => some (dir ++ [part])

/-- The part that stands for a step. -/
def Step.toPart : Step → PathPart
  | up => ⟨str "..", []⟩
  | down part => part

/-- A child has a name of its own. -/
def Step.Proper : Step → Prop
  | up => True
  | down part => ¬ IsSelf part ∧ part.name ≠ str ".."

theorem traverse_eq {steps : List Step} (h : ∀ step ∈ steps, step.Proper) (dir : List PathPart) :
    traverse dir (steps.map Step.toPart) = steps.foldlM Step.take dir := by
  induction steps generalizing dir with
  | nil => rfl
  | cons step steps ih =>
    have ih := ih fun s hs => h s (mem_cons_of_mem step hs)
    cases step with
    | up =>
      rw [map_cons, traverse, if_neg (by decide), if_pos (by rfl), foldlM_cons, Step.take]
      split
      · rfl
      · exact ih _
    | down part =>
      obtain ⟨hself, hup⟩ := h _ mem_cons_self
      rw [map_cons, Step.toPart, traverse, if_neg hself, if_neg hup]
      exact ih _

/-- **A relative path is resolved** like a directory, if and only if it does not begin with `.`. -/
theorem parseRelativePath_iff (extend : Path → Option Path) {nodePath : Str} {node p r : Path}
    (lead : Option PathPart) {steps : List Step} {dir : List PathPart}
    (hnode : parsePath1 nodePath >>= extend = some node) (habs : node.relative = false)
    (hlead : ∀ part ∈ lead, IsSelf part) (hsteps : ∀ step ∈ steps, step.Proper)
    (hp : p = ⟨true, lead.toList ++ steps.map Step.toPart⟩)
    (hwalk : steps.foldlM Step.take node.parts = some dir) (hextend : extend ⟨false, dir⟩ = some r) :
    ((∀ part ∈ p.parts, WellFormed part) → parsePath1 (text p) = some p) ∧
    ∀ path, parsePath1 path = some p →
      (parseRelativePath extend path nodePath = some r ↔ lead = none) := by
  subst hp
  refine ⟨parsePath1_text, fun path hpath => ?_⟩
  obtain ⟨n, hn, hnode⟩ := Option.bind_eq_some_iff.mp hnode
  simp only [parseRelativePath, hpath, hn, hnode, habs, Option.bind_eq_bind, Option.bind_some]
  cases lead with
  | none => simp [traverse_eq hsteps, hwalk, hextend]
  | some part => simp [traverse, hlead part rfl]

theorem parseRelativePath_iff_sample :
    parseRelativePath some (str "../c[k=/]") (str "/a/b") = parsePath1 (str "/a/c[k=/]") := by
  have hnode : parsePath1 (str "/a/b") >>= some =
      some ⟨false, [⟨str "a", []⟩, ⟨str "b", []⟩]⟩ := by decide
  have hsteps : ∀ step ∈ [Step.up, .down ⟨str "c", [(str "k", str "/")]⟩], step.Proper := by
    simp [Step.Proper, IsSelf, str]
  exact ((parseRelativePath_iff some none hnode rfl nofun hsteps rfl rfl rfl).2 _ (by decide)).mpr rfl

/-- `./a` in the node `/b`. -/
theorem leading_dot_raises :
    parseRelativePath some (str "./a") (str "/b") ≠ parsePath1 (str "/b/a") := by decide

end Path

end Yang

end Snabb
