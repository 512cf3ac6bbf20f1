import Mathlib.Data.List.Infix
import Mathlib.Data.List.TakeWhile

/-!
# Words joined by a separator

Strings as `table.concat` makes them, of words without the separator.

- `suffix_iff`: words that a string of words ends with;
- `not_pair`, `not_triple`: separators do not stand side by side;
- `gsubPair`: two separators are replaced, as `string.gsub` does.
-/

namespace Foundation.Words

open List

variable {α : Type} {sep : α} {ws vs : List (List α)}

/-- The separator is in no word. -/
def Free (sep : α) (ws : List (List α)) : Prop := ∀ w ∈ ws, sep ∉ w

theorem Free.of_cons {w : List α} (h : Free sep (w :: ws)) : sep ∉ w ∧ Free sep ws :=
  ⟨h w mem_cons_self, fun v hv => h v (mem_cons_of_mem w hv)⟩

theorem Free.append (hws : Free sep ws) (hvs : Free sep vs) : Free sep (ws ++ vs) := by
  intro w hw
  rcases mem_append.mp hw with hw | hw
  · exact hws w hw
  · exact hvs w hw

theorem intercalate_append (hws : ws ≠ []) (hvs : vs ≠ []) :
    [sep].intercalate (ws ++ vs) = [sep].intercalate ws ++ sep :: [sep].intercalate vs := by
  induction ws with
  | nil => exact absurd rfl hws
  | cons w ws ih =>
    by_cases hlast : ws = []
    · rw [hlast, singleton_append, intercalate_cons_of_ne_nil hvs,
        intercalate_singleton, append_assoc, singleton_append]
    · rw [cons_append, intercalate_cons_of_ne_nil (by simp [hlast]), ih hlast,
        intercalate_cons_of_ne_nil hlast, append_assoc, append_assoc,
        append_assoc]

variable [DecidableEq α]

section

variable (hws : Free sep ws)
include hws

theorem count_intercalate : ([sep].intercalate ws).count sep = ws.length - 1 := by
  induction ws with
  | nil => rfl
  | cons w ws ih =>
    obtain ⟨hw, hfree⟩ := hws.of_cons
    have hzero : w.count sep = 0 := count_eq_zero_of_not_mem hw
    by_cases hlast : ws = []
    · rw [hlast, intercalate_singleton, hzero, length_singleton]
    · have hpos : 0 < ws.length := length_pos_of_ne_nil hlast
      rw [intercalate_cons_of_ne_nil hlast, count_append, count_append, ih hfree,
        count_singleton_self, length_cons]
      omega

variable (hne : ws ≠ [])
include hne

/-- **What a string of words ends with.** -/
theorem suffix_iff (hvs : Free sep vs) (hv : vs ≠ []) :
    sep :: [sep].intercalate vs <:+ [sep].intercalate ws ↔ ∃ us, us ≠ [] ∧ us ++ vs = ws := by
  constructor
  · rintro ⟨t, ht⟩
    refine ⟨t.splitOn sep, splitOn_ne_nil sep t, ?_⟩
    rw [← splitOn_intercalate sep hws hne, ← ht, splitOn_append_cons_self,
      splitOn_intercalate sep hvs hv]
  · rintro ⟨us, hus, rfl⟩
    exact ⟨[sep].intercalate us, (intercalate_append hus hv).symm⟩

/-! ## Separators side by side -/

variable (hwords : [] ∉ ws)
include hwords

/-- Where separators stand side by side, an empty word is between them. -/
theorem not_pair : ¬ [sep, sep] <:+: [sep].intercalate ws := by
  rintro ⟨a, b, hab⟩
  have hsplit := splitOn_intercalate sep hws hne
  rw [← hab, append_assoc] at hsplit
  have hempty : ([] : List α) ∈ (a ++ sep :: [] ++ sep :: b).splitOn sep := by
    rw [append_assoc, cons_append, splitOn_append_cons_self, nil_append,
      ← nil_append (sep :: b), splitOn_append_cons_self]
    simp
  rw [show a ++ ([sep, sep] ++ b) = a ++ sep :: [] ++ sep :: b by simp] at hsplit
  rw [hsplit] at hempty
  exact hwords hempty

/-- A string of words begins and ends with words. -/
theorem not_begins : ¬ [sep] <+: [sep].intercalate ws := by
  rintro ⟨t, ht⟩
  have hsplit := splitOn_intercalate sep hws hne
  rw [← ht, singleton_append, ← nil_append (sep :: t), splitOn_append_cons_self]
    at hsplit
  exact hwords (hsplit ▸ by simp)

theorem not_ends : ¬ [sep] <:+ [sep].intercalate ws := by
  rintro ⟨t, ht⟩
  have hsplit := splitOn_intercalate sep hws hne
  rw [← ht, splitOn_append_cons_self] at hsplit
  exact hwords (hsplit ▸ by simp)

/-- Three separators side by side have two empty words between them and a word after them. -/
theorem not_triple : ¬ [sep, sep, sep] <:+: [sep].intercalate ws ++ [sep, sep] := by
  rintro ⟨a, b, hab⟩
  have hend : [sep].intercalate (ws ++ [[], []]) = [sep].intercalate ws ++ [sep, sep] := by
    rw [intercalate_append hne (by simp)]
    rfl
  have hfree : Free sep (ws ++ [[], []]) := hws.append (by simp [Free])
  have hsplit := splitOn_intercalate sep hfree (by simp)
  rw [hend, ← hab, show a ++ [sep, sep, sep] ++ b = a ++ sep :: ([] ++ sep :: ([] ++ sep :: b)) by
    simp, splitOn_append_cons_self, splitOn_append_cons_self,
    splitOn_append_cons_self, splitOn_nil, ← append_assoc, ← append_assoc]
    at hsplit
  -- the last word is empty on both sides, which makes three empty words of two
  have hlast : ([] : List α) ∈ b.splitOn sep := by
    have hlasts := congrArg List.getLast? hsplit
    rw [List.getLast?_append_of_ne_nil _ (splitOn_ne_nil sep b),
      List.getLast?_append_of_ne_nil _ (cons_ne_nil _ _)] at hlasts
    exact mem_of_getLast? hlasts
  have hcount := congrArg (List.count []) hsplit
  simp only [count_append, count_cons_self, count_eq_zero_of_not_mem hwords] at hcount
  have hpos : 0 < (b.splitOn sep).count [] := count_pos_iff.mpr hlast
  omega

end

/-! ## Replacing -/

/-- `string.gsub`, for two separators. -/
def gsubPair (sep : α) (replace : List α) : List α → List α
  | [] => []
  | [c] => [c]
  | c :: d :: s =>
    if c = sep ∧ d = sep then replace ++ gsubPair sep replace s
    else c :: gsubPair sep replace (d :: s)

variable {replace : List α}

theorem gsubPair_eq_self {s : List α} (h : ¬ [sep, sep] <:+: s) : gsubPair sep replace s = s := by
  fun_induction gsubPair sep replace s with
  | case1 => rfl
  | case2 c => rfl
  | case3 c d s hsep ih =>
    obtain ⟨rfl, rfl⟩ := hsep
    exact absurd (prefix_append [d, d] s).isInfix h
  | case4 c d s hsep ih =>
    rw [ih fun hin => h (hin.trans (suffix_cons c (d :: s)).isInfix)]

/-- Two separators after a string without them that does not end with one. -/
theorem gsubPair_append {s t : List α} (h : ¬ [sep, sep] <:+: s) (hend : ¬ [sep] <:+ s) :
    gsubPair sep replace (s ++ sep :: sep :: t) = s ++ (replace ++ gsubPair sep replace t) := by
  induction s with
  | nil => rw [nil_append, nil_append, gsubPair, if_pos ⟨rfl, rfl⟩]
  | cons c s ih =>
    have hrest := ih (fun hin => h (hin.trans (suffix_cons c s).isInfix))
      fun hsuffix => hend (hsuffix.trans (suffix_cons c s))
    cases s with
    | nil =>
      have hc : c ≠ sep := by
        rintro rfl
        exact hend suffix_rfl
      rw [singleton_append, gsubPair, if_neg fun hsep => hc hsep.1]
      exact congrArg (c :: ·) hrest
    | cons d s =>
      have hcd : ¬ (c = sep ∧ d = sep) := by
        rintro ⟨rfl, rfl⟩
        exact h (prefix_append [d, d] s).isInfix
      rw [cons_append, cons_append, gsubPair, if_neg hcd]
      exact congrArg (c :: ·) hrest

end Foundation.Words
