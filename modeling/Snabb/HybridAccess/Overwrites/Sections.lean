import Snabb.Foundation.LuaTree
import Snabb.Foundation.Orders

/-!
# The sections of a link

The configuration of a link has two sections, the delayer and the rate limiter, each of which may be
absent. An action writes a field of a section, removes a section, or writes the timestamps of both.
Most actions are guarded by the presence of their section; setting the rate is not.

- `Hopeless.doomed`: an action that raises by itself is not saved by the order unless its section is
  removed;
- `exists_run`: what is unguarded goes first, then the removals, then the rest;
- `steady_iff`: when the order of the actions does not count.
-/

namespace Snabb.Overwrites

open Foundation List
open Function (update update_of_ne update_self)
open Option (bind_eq_some_iff)

open LuaValue hiding nil

/-- The sections. -/
inductive Part where
  | delayer
  | rateLimiter
deriving DecidableEq, Repr

namespace Part

def other : Part → Part
  | delayer => rateLimiter
  | rateLimiter => delayer

end Part

/-- What an option asks of a link. -/
inductive Action (N : Type) where
  /-- Write a field of a section, if it is there. -/
  | set (p : Part) (field : String) (w : Option (LuaValue N))
  /-- Write a field of a section. -/
  | put (p : Part) (field : String) (w : Option (LuaValue N))
  | remove (p : Part)
  /-- Write the timestamps, if both sections are there. -/
  | stamp (w : LuaValue N)

/-- The key of a timestamp. -/
def timestampKey : LuaKey := .name "timestamp"

variable {N : Type}

abbrev Sections (N : Type) := Part → LuaValue N

namespace Sections

def write (s : Sections N) (p : Part) (field : String) (w : Option (LuaValue N)) :
    Option (Sections N) := do
  let v ← (s p).assign (.name field) (← w)
  return update s p v

/-- Both sections are there. -/
def Complete (s : Sections N) : Prop :=
  (s .rateLimiter).isNil = false ∧ (s .delayer).isNil = false

instance (s : Sections N) : Decidable s.Complete :=
  inferInstanceAs (Decidable (_ ∧ _))

def act (s : Sections N) : Action N → Option (Sections N)
  | .set p field w => if (s p).isNil then some s else s.write p field w
  | .put p field w => s.write p field w
  | .remove p => some (update s p .nil)
  | .stamp w =>
    if s.Complete then do
      let s ← s.write .rateLimiter "timestamp" (some w)
      s.write .delayer "timestamp" (some w)
    else some s

end Sections

namespace Action

/-- The sections without which the action does nothing. -/
def guards : Action N → List Part
  | set p _ _ => [p]
  | stamp _ => [.delayer, .rateLimiter]
  | _ => []

/-- What goes first. -/
def rank : Action N → Nat
  | put _ _ _ => 0
  | remove _ => 1
  | _ => 2

/-- No field of its own is a timestamp. -/
def Plain : Action N → Prop
  | set _ field _ => field ≠ "timestamp"
  | put _ field _ => field ≠ "timestamp"
  | _ => True

end Action

open Sections Snabb.Overwrites.Action

/-- A field of a section. -/
def fieldOf (v : LuaValue N) (k : LuaKey) : LuaValue N :=
  match v with
  | .table t => t k
  | _ => .nil

/-- What the action writes to a field of a section. -/
def written (s : Sections N) (p : Part) (k : LuaKey) : Action N → Option (LuaValue N)
  | .set q field w => if q = p ∧ k = .name field ∧ (s p).isNil = false then w else none
  | .put q field w => if q = p ∧ k = .name field then w else none
  | .remove _ => none
  | .stamp w => if k = timestampKey ∧ s.Complete then some w else none

variable {s s' : Sections N} {a b : Action N} {p q : Part} {field : String}
  {w : Option (LuaValue N)} {k : LuaKey} {l l' : List (Action N)}

/-! ## One action -/

theorem complete_iff (s : Sections N) (p : Part) :
    s.Complete ↔ (s p).isNil = false ∧ (s p.other).isNil = false := by
  cases p with
  | delayer => exact and_comm
  | rateLimiter => exact Iff.rfl

theorem Sections.Complete.present (h : s.Complete) (p : Part) : (s p).isNil = false :=
  ((complete_iff s p).mp h).1

theorem write_eq_none : s.write p field w = none ↔ w = none ∨ (s p).isTable = false := by
  cases w with
  | none => exact iff_of_true rfl (.inl rfl)
  | some w =>
    rw [write]
    cases hp : s p with
    | table t => exact iff_of_false nofun (by simp [isTable])
    | nil | boolean b | number x | string x => exact iff_of_true rfl (.inr rfl)

theorem write_eq_some (h : s.write p field w = some s') : ∃ t x, s p = .table t ∧ w = some x ∧
    s' = update s p (.table (update t (.name field) x)) := by
  have hne : s.write p field w ≠ none := by rw [h]; exact Option.some_ne_none s'
  rw [ne_eq, write_eq_none, not_or] at hne
  obtain ⟨t, ht⟩ := isTable_iff.mp (Bool.not_eq_false _ ▸ hne.2)
  obtain ⟨x, hx⟩ := Option.ne_none_iff_exists'.mp hne.1
  refine ⟨t, x, ht, hx, ?_⟩
  rw [write, hx, ht] at h
  exact (Option.some.inj h).symm

/-- The section is as absent, and as much a table, as it was. -/
def SameShape (v v' : LuaValue N) : Prop := v'.isNil = v.isNil ∧ v'.isTable = v.isTable

theorem SameShape.refl (v : LuaValue N) : SameShape v v := ⟨rfl, rfl⟩

theorem SameShape.trans {v v' v'' : LuaValue N} (h : SameShape v v') (h' : SameShape v' v'') :
    SameShape v v'' :=
  ⟨h'.1.trans h.1, h'.2.trans h.2⟩

theorem write_shape (h : s.write p field w = some s') (q : Part) : SameShape (s q) (s' q) := by
  obtain ⟨t, x, ht, -, rfl⟩ := write_eq_some h
  by_cases hq : q = p
  · rw [hq, update_self, ht]
    exact ⟨rfl, rfl⟩
  · rw [update_of_ne hq]
    exact SameShape.refl _

/-- Only a removal changes the shape of a section. -/
theorem act_shape (h : s.act a = some s') (hne : a ≠ .remove p) : SameShape (s p) (s' p) := by
  cases a with
  | set q field w =>
    rw [act] at h
    split at h
    · cases h
      exact SameShape.refl _
    · exact write_shape h p
  | put q field w => exact write_shape h p
  | remove q =>
    cases h
    rw [update_of_ne fun heq => hne (by rw [heq])]
    exact SameShape.refl _
  | stamp w =>
    rw [act] at h
    split at h
    · obtain ⟨s₁, hs₁, h⟩ := bind_eq_some_iff.mp h
      exact (write_shape hs₁ p).trans (write_shape h p)
    · cases h
      exact SameShape.refl _

theorem stamp_eq_none {w : LuaValue N} :
    s.act (.stamp w) = none ↔ s.Complete ∧ ∃ q, (s q).isTable = false := by
  rw [act]
  split
  · next hcomplete =>
    rw [and_iff_right hcomplete]
    cases hfirst : s.write .rateLimiter "timestamp" (some w) with
    | none => exact iff_of_true rfl ⟨_, (write_eq_none.mp hfirst).resolve_left nofun⟩
    | some s₁ =>
      have hlimiter : (s .rateLimiter).isTable := by
        obtain ⟨t, x, ht, -⟩ := write_eq_some hfirst
        rw [ht]
        rfl
      have hsame := (write_shape hfirst .delayer).2
      show s₁.write .delayer "timestamp" (some w) = none ↔ _
      rw [write_eq_none, hsame]
      constructor
      · intro h
        exact ⟨_, h.resolve_left nofun⟩
      · rintro ⟨q, hq⟩
        cases q with
        | delayer => exact .inr hq
        | rateLimiter =>
          rw [hlimiter] at hq
          cases hq
  · next habsent => exact iff_of_false nofun fun h => habsent h.1

theorem act_of_nil (hp : p ∈ a.guards) (hnil : (s p).isNil) : s.act a = some s := by
  cases a with
  | set q field w =>
    rw [mem_singleton.mp hp] at hnil
    exact if_pos hnil
  | put q field w => cases hp
  | remove q => cases hp
  | stamp w =>
    refine if_neg fun hcomplete => ?_
    rw [hcomplete.present p] at hnil
    cases hnil

/-- Whether a guarded action raises is decided by the shape of its sections. -/
theorem act_none_congr (hshape : ∀ p ∈ a.guards, SameShape (s p) (s' p))
    (hput : ∀ p field w, a = .put p field w → (s' p).isTable = (s p).isTable) :
    s'.act a = none ↔ s.act a = none := by
  cases a with
  | set q field w =>
    have hsame := hshape q (mem_singleton_self q)
    rw [act, act, hsame.1]
    split
    · exact iff_of_false nofun nofun
    · rw [write_eq_none, write_eq_none, hsame.2]
  | put q field w =>
    rw [act, act, write_eq_none, write_eq_none, hput q field w rfl]
  | remove q => exact iff_of_false nofun nofun
  | stamp w =>
    have hall q : SameShape (s q) (s' q) := hshape q (by cases q <;> simp [guards])
    rw [stamp_eq_none, stamp_eq_none, Complete, Complete]
    simp only [(hall _).1, (hall _).2]

theorem act_of_not_table (h : s.act a = some s') (hp : (s p).isTable = false)
    (hne : a ≠ .remove p) : s' p = s p := by
  have hwrite {q : Part} {field : String} {w : Option (LuaValue N)} {s s' : Sections N}
      (hp : (s p).isTable = false) (h : s.write q field w = some s') : s' p = s p := by
    obtain ⟨t, x, ht, -, rfl⟩ := write_eq_some h
    refine update_of_ne (fun heq => ?_) _ _
    rw [heq, ht] at hp
    cases hp
  cases a with
  | set q field w =>
    rw [act] at h
    split at h
    · cases h
      rfl
    · exact hwrite hp h
  | put q field w => exact hwrite hp h
  | remove q =>
    cases h
    exact update_of_ne (fun heq => hne (by rw [heq])) _ _
  | stamp w =>
    rw [act] at h
    split at h
    · obtain ⟨s₁, hs₁, h⟩ := bind_eq_some_iff.mp h
      have hfirst := hwrite hp hs₁
      rw [hwrite (by rw [hfirst]; exact hp) h, hfirst]
    · cases h
      rfl

theorem fieldOf_write (h : s.write q field w = some s') (p : Part) (k : LuaKey) :
    fieldOf (s' p) k = (if q = p ∧ k = .name field then w else none).getD (fieldOf (s p) k) := by
  obtain ⟨t, x, ht, rfl, rfl⟩ := write_eq_some h
  by_cases hp : q = p
  · rw [hp] at ht ⊢
    rw [update_self, ht]
    by_cases hk : k = .name field
    · rw [if_pos ⟨rfl, hk⟩, hk]
      exact update_self _ _ _
    · rw [if_neg fun h => hk h.2]
      exact update_of_ne hk _ _
  · rw [update_of_ne fun heq => hp heq.symm, if_neg fun h => hp h.1]
    rfl

/-- **The fields after an action**. -/
theorem fieldOf_act (h : s.act a = some s') (hne : a ≠ .remove p) (k : LuaKey) :
    fieldOf (s' p) k = (written s p k a).getD (fieldOf (s p) k) := by
  cases a with
  | set q field w =>
    rw [act] at h
    rw [written]
    split at h
    · next hnil =>
      cases h
      rw [if_neg]
      · rfl
      · rintro ⟨rfl, -, hpresent⟩
        rw [hnil] at hpresent
        cases hpresent
    · next hpresent =>
      rw [fieldOf_write h p k]
      by_cases hq : q = p
      · simp [← hq, hpresent]
      · simp [hq]
  | put q field w => exact fieldOf_write h p k
  | remove q =>
    cases h
    rw [update_of_ne fun heq => hne (by rw [heq])]
    rfl
  | stamp w =>
    rw [act] at h
    rw [written]
    split at h
    · next hcomplete =>
      obtain ⟨s₁, hs₁, h⟩ := bind_eq_some_iff.mp h
      rw [fieldOf_write h p k, fieldOf_write hs₁ p k]
      by_cases hk : k = timestampKey
      · have hwritten : (if k = timestampKey ∧ s.Complete then some w else none) = some w :=
          if_pos ⟨hk, hcomplete⟩
        rw [hwritten, hk, timestampKey]
        cases p with
        | delayer => simp
        | rateLimiter => simp
      · have hwritten : (if k = timestampKey ∧ s.Complete then some w else none) = none :=
          if_neg fun h => hk h.1
        have hname : k ≠ .name "timestamp" := hk
        rw [hwritten]
        simp [hname]
    · next habsent =>
      cases h
      rw [if_neg fun h => habsent h.2]
      rfl

/-! ## Runs -/

theorem run_shape (h : l.foldlM act s = some s') (hp : ∀ a ∈ l, a ≠ .remove p) :
    SameShape (s p) (s' p) :=
  foldlM_inv (I := fun s' => SameShape (s p) (s' p)) (SameShape.refl _)
    (fun a ha _ _ hI hact => hI.trans (act_shape hact (hp a ha))) h

theorem act_nil (h : s.act a = some s') (hp : s p = .nil) : s' p = .nil := by
  have htable : (s p).isTable = false := by
    rw [hp]
    rfl
  cases a with
  | remove q =>
    by_cases hq : q = p
    · cases h
      rw [hq]
      exact update_self _ _ _
    · rw [act_of_not_table h htable (by simp [hq]), hp]
  | set q field w | put q field w | stamp w => rw [act_of_not_table h htable nofun, hp]

section

variable (h : l.foldlM act s = some s')
include h

theorem run_nil (hp : s p = .nil) : s' p = .nil :=
  foldlM_inv (I := fun s' : Sections N => s' p = .nil) hp (fun _ _ _ _ hI hact => act_nil hact hI) h

theorem run_removed (hp : .remove p ∈ l) : s' p = .nil := by
  obtain ⟨before, after, rfl⟩ := append_of_mem hp
  rw [foldlM_append] at h
  obtain ⟨s₁, -, h⟩ := bind_eq_some_iff.mp h
  rw [foldlM_cons] at h
  obtain ⟨s₂, hs₂, h⟩ := bind_eq_some_iff.mp h
  cases hs₂
  exact run_nil h (update_self _ _ _)

theorem run_of_not_table (hp : (s p).isTable = false)
    (hkept : ∀ a ∈ l, a ≠ .remove p) : s' p = s p := by
  refine foldlM_inv (I := fun s' : Sections N => s' p = s p) rfl (fun a ha s₁ s₂ hI hact => ?_) h
  rw [act_of_not_table hact (by rw [hI]; exact hp) (hkept a ha), hI]

theorem run_not_table (hp : (s p).isTable = false) : (s' p).isTable = false := by
  by_cases hremoved : .remove p ∈ l
  · rw [run_removed h hremoved]
    rfl
  · rw [run_of_not_table h hp fun a ha heq => hremoved (by rwa [heq] at ha), hp]

end

/-- An action raises by itself, and no section that guards it is removed. -/
def Hopeless (s : Sections N) (l : List (Action N)) : Prop :=
  ∃ a ∈ l, s.act a = none ∧ ∀ p ∈ a.guards, .remove p ∉ l

/-- **An action that raises by itself** raises in any order unless its section is removed. -/
theorem Hopeless.doomed (h : Hopeless s l) : Doomed act s l := by
  obtain ⟨a, ha, hnone, hguards⟩ := h
  intro l' hl'
  obtain ⟨before, after, rfl⟩ := append_of_mem (hl'.mem_iff.mpr ha)
  have hsub {b : Action N} hb : b ∈ l :=
    hl'.mem_iff.mp (mem_append_left _ hb)
  refine foldlM_eq_none_of_split fun s' hs' => ?_
  have hshape p hp : SameShape (s p) (s' p) :=
    run_shape hs' fun b hb heq => hguards p hp (by rw [← heq]; exact hsub hb)
  cases a with
  | put q field w =>
    rw [act, write_eq_none] at hnone ⊢
    exact hnone.imp_right (run_not_table hs')
  | set q field w | stamp w => exact (act_none_congr hshape nofun).mpr hnone
  | remove q => cases hnone

/-- What is unguarded comes before its section is removed, and what is guarded after that. -/
def Timely (l : List (Action N)) : Prop :=
  ∀ before a after, l = before ++ a :: after →
    (∀ p field w, a = .put p field w → .remove p ∉ before) ∧
      ∀ p ∈ a.guards, .remove p ∈ l → .remove p ∈ before

/-- An action that does not raise by itself does not raise later on, and none does without a section
that guards it. -/
theorem act_ne_none_after (hs' : l.foldlM act s = some s')
    (halone : s.act a ≠ none ∨ ∃ p ∈ a.guards, .remove p ∈ l)
    (hput : ∀ p field w, a = .put p field w → .remove p ∉ l) : s'.act a ≠ none := by
  by_cases hremoved : ∃ p ∈ a.guards, .remove p ∈ l
  · obtain ⟨p, hp, hremoved⟩ := hremoved
    rw [act_of_nil hp (by rw [run_removed hs' hremoved]; rfl)]
    exact Option.some_ne_none s'
  · have hshape {p : Part} (hp : .remove p ∉ l) : SameShape (s p) (s' p) :=
      run_shape hs' fun b hb heq => hp (by rwa [heq] at hb)
    refine fun hnone => halone.resolve_right hremoved ((act_none_congr (fun p hp => hshape ?_)
      fun p field w ha => (hshape (hput p field w ha)).2).mp hnone)
    exact fun hmem => hremoved ⟨p, hp, hmem⟩

/-- **A timely order** does not raise if the actions are not hopeless. -/
theorem exists_run (hhope : ¬ Hopeless s l) (htimely : Timely l) :
    ∃ s', l.foldlM act s = some s' := by
  refine exists_foldlM fun before a after heq s' hs' => ?_
  obtain ⟨hput, hguards⟩ := htimely before a after heq
  refine act_ne_none_after hs' ?_ hput
  by_contra halone
  rw [not_or, not_not] at halone
  exact hhope ⟨a, by rw [heq]; simp, halone.1, fun p hp hmem =>
    halone.2 ⟨p, hp, hguards p hp hmem⟩⟩

/-- The order by rank is timely. -/
theorem timely_of_sorted (h : l.Pairwise fun a b => a.rank ≤ b.rank) : Timely l := by
  rintro before a after rfl
  rw [pairwise_append, pairwise_cons] at h
  obtain ⟨-, ⟨hafter, -⟩, hbefore⟩ := h
  constructor
  · rintro p field w rfl hmem
    have hle := hbefore _ hmem _ mem_cons_self
    simp [Action.rank] at hle
  · intro p hp hmem
    have hrank : a.rank = 2 := by cases a <;> simp_all [guards, Action.rank]
    rcases mem_append.mp hmem with hmem | hmem
    · exact hmem
    · rcases mem_cons.mp hmem with heq | hmem
      · rw [← heq] at hp
        cases hp
      · have hle := hafter _ hmem
        rw [hrank] at hle
        simp [Action.rank] at hle

theorem Hopeless.perm (h : Hopeless s l) (hperm : l.Perm l') : Hopeless s l' := by
  obtain ⟨a, ha, hnone, hguards⟩ := h
  exact ⟨a, hperm.mem_iff.mp ha, hnone, fun p hp hmem => hguards p hp (hperm.mem_iff.mpr hmem)⟩

/-! ## When the order does not count -/

/-- The actions do not get in each other's way. -/
structure Consistent (s : Sections N) (l : List (Action N)) : Prop where
  /-- What is unguarded is not removed. -/
  puts : ∀ p field w, .remove p ∈ l → .put p field w ∉ l
  /-- What is kept is written one way. -/
  agree : ∀ p, .remove p ∉ l → ∀ k, (k = timestampKey → .remove p.other ∉ l) →
    ∀ a ∈ l, ∀ b ∈ l, ∀ x y, written s p k a = some x → written s p k b = some y → x = y
  /-- Timestamps are what they will be, if the other section is removed. -/
  stale : ∀ p, .remove p ∉ l → .remove p.other ∈ l → ∀ a ∈ l, ∀ x,
    written s p timestampKey a = some x → x = fieldOf (s p) timestampKey

/-- And none of them raises by itself. -/
structure Agreeable (s : Sections N) (l : List (Action N)) : Prop extends Consistent s l where
  alone : ∀ a ∈ l, s.act a ≠ none

/-- What is written to a section that is kept does not depend on what was done before. -/
theorem written_congr {l₀ : List (Action N)} (h : l₀.foldlM act s = some s') (hp : .remove p ∉ l₀)
    (hk : k = timestampKey → .remove p.other ∉ l₀) (a : Action N) :
    written s' p k a = written s p k a := by
  have hshape {q : Part} (hq : .remove q ∉ l₀) : (s' q).isNil = (s q).isNil :=
    (run_shape h fun b hb heq => hq (by rwa [heq] at hb)).1
  cases a with
  | set q field w => rw [written, written, hshape hp]
  | put q field w => rfl
  | remove q => rfl
  | stamp w =>
    rw [written, written]
    by_cases hkey : k = timestampKey
    · simp only [complete_iff _ p, hshape hp, hshape (hk hkey)]
    · rw [if_neg fun h => hkey h.1, if_neg fun h => hkey h.1]

/-- **The fields after a run**: what was written last. -/
theorem fieldOf_run (h : l.foldlM act s = some s') (hp : .remove p ∉ l)
    (hk : k = timestampKey → .remove p.other ∉ l) :
    fieldOf (s' p) k = ((l.filterMap (written s p k)).getLast?).getD (fieldOf (s p) k) := by
  induction l using List.reverseRecOn generalizing s' with
  | nil =>
    cases h
    rfl
  | append_singleton l a ih =>
    rw [foldlM_snoc] at h
    obtain ⟨s₁, hs₁, hact⟩ := bind_eq_some_iff.mp h
    have hp₁ : .remove p ∉ l := fun hmem => hp (mem_append_left _ hmem)
    have hk₁ : k = timestampKey → .remove p.other ∉ l := fun hkey hmem =>
      hk hkey (mem_append_left _ hmem)
    have hne : a ≠ .remove p := fun heq => hp (by rw [heq]; simp)
    rw [fieldOf_act hact hne, written_congr hs₁ hp₁ hk₁, ih hs₁ hp₁ hk₁]
    cases hw : written s p k a with
    | none => simp [hw]
    | some x => simp [hw]

theorem Action.Plain.written (h : a.Plain) {x : LuaValue N}
    (hx : written s p timestampKey a = some x) : a = .stamp x ∧ s.Complete := by
  cases a with
  | set q field w =>
    rw [Overwrites.written, if_neg] at hx
    · cases hx
    · exact fun heq => h (LuaKey.name.inj heq.2.1).symm
  | put q field w =>
    rw [Overwrites.written, if_neg] at hx
    · cases hx
    · exact fun heq => h (LuaKey.name.inj heq.2).symm
  | remove q => cases hx
  | stamp w =>
    rw [Overwrites.written] at hx
    split at hx
    · next hcomplete =>
      cases hx
      exact ⟨rfl, hcomplete.2⟩
    · cases hx

theorem timestamp_run (hplain : ∀ a ∈ l, a.Plain)
    (hstale : ∀ x, .stamp x ∈ l → s.Complete → x = fieldOf (s p) timestampKey)
    (h : l.foldlM act s = some s') (hp : .remove p ∉ l) :
    fieldOf (s' p) timestampKey = fieldOf (s p) timestampKey := by
  -- what is absent at the start stays so, and then nothing is stamped
  refine (foldlM_inv (I := fun s' : Sections N => (∀ q, s q = .nil → s' q = .nil) ∧
    fieldOf (s' p) timestampKey = fieldOf (s p) timestampKey) ⟨fun _ hq => hq, rfl⟩
      (fun a ha s₁ s₂ hI hact => ⟨fun q hq => act_nil hact (hI.1 q hq), ?_⟩) h).2
  rw [fieldOf_act hact fun heq => hp (by rwa [heq] at ha), hI.2]
  cases hx : written s₁ p timestampKey a with
  | none => rfl
  | some x =>
    obtain ⟨rfl, hcomplete⟩ := (hplain a ha).written hx
    refine hstale x ha ?_
    by_contra habsent
    have hnil : ∃ q, s q = .nil := by
      by_contra hall
      refine habsent ⟨?_, ?_⟩
      · exact Bool.eq_false_iff.mpr fun hnil => hall ⟨_, isNil_iff.mp hnil⟩
      · exact Bool.eq_false_iff.mpr fun hnil => hall ⟨_, isNil_iff.mp hnil⟩
    obtain ⟨q, hq⟩ := hnil
    have hpresent := hcomplete.present q
    rw [hI.1 q hq] at hpresent
    cases hpresent

/-- In the order by rank the other section is removed before there are stamps. -/
theorem timestamp_of_sorted (hplain : ∀ a ∈ l, a.Plain)
    (hsorted : l.Pairwise fun a b => a.rank ≤ b.rank) (hp : .remove p ∉ l)
    (hother : .remove p.other ∈ l) (h : l.foldlM act s = some s') :
    fieldOf (s' p) timestampKey = fieldOf (s p) timestampKey := by
  obtain ⟨before, after, rfl⟩ := append_of_mem hother
  rw [foldlM_append] at h
  obtain ⟨s₁, hs₁, h⟩ := bind_eq_some_iff.mp h
  rw [foldlM_cons] at h
  obtain ⟨s₂, hs₂, h⟩ := bind_eq_some_iff.mp h
  cases hs₂
  have hne : p ≠ p.other := by cases p <;> simp [Part.other]
  rw [timestamp_run (fun a ha => hplain a (by simp [ha])) (fun x _ hcomplete => ?_) h
    fun hmem => hp (by simp [hmem]), update_of_ne hne]
  · refine timestamp_run (fun a ha => hplain a (by simp [ha])) (fun x hx _ => ?_) hs₁
      fun hmem => hp (by simp [hmem])
    have hle := (pairwise_append.mp hsorted).2.2 _ hx _ mem_cons_self
    simp [Action.rank] at hle
  · have hpresent := hcomplete.present p.other
    rw [update_self] at hpresent
    cases hpresent

theorem eq_of_fieldOf {v v' : LuaValue N} (hv : v.isTable) (hv' : v'.isTable)
    (h : ∀ k, fieldOf v k = fieldOf v' k) : v = v' := by
  obtain ⟨t, rfl⟩ := isTable_iff.mp hv
  obtain ⟨t', rfl⟩ := isTable_iff.mp hv'
  exact congrArg LuaValue.table (funext h)

theorem Agreeable.steady (h : Agreeable s l) (hplain : ∀ a ∈ l, a.Plain) : Steady act s l := by
  intro l₁ l₂ h₁ h₂
  have hrun {l' : List (Action N)} (hl' : l'.Perm l) : ∃ s', l'.foldlM act s = some s' := by
    refine exists_foldlM fun before a after heq s' hs' => ?_
    have hmem {b : Action N} hb : b ∈ l :=
      hl'.mem_iff.mp (by rw [heq]; exact mem_append_left _ hb)
    have ha : a ∈ l := hl'.mem_iff.mp (by rw [heq]; simp)
    refine act_ne_none_after hs' (.inl (h.alone a ha)) fun p field w hput hremoved => ?_
    exact h.puts p field w (hmem hremoved) (by rwa [hput] at ha)
  obtain ⟨s₁, hs₁⟩ := hrun h₁
  obtain ⟨s₂, hs₂⟩ := hrun h₂
  rw [hs₁, hs₂]
  refine congrArg some (funext fun p => ?_)
  by_cases hremoved : .remove p ∈ l
  · rw [run_removed hs₁ (h₁.mem_iff.mpr hremoved), run_removed hs₂ (h₂.mem_iff.mpr hremoved)]
  · have hkept {l' : List (Action N)} (hl' : l'.Perm l) : .remove p ∉ l' := fun hmem =>
      hremoved (hl'.mem_iff.mp hmem)
    have hne {l' : List (Action N)} hl' : ∀ a ∈ l', a ≠ .remove p :=
      fun a ha heq => hkept hl' (by rwa [heq] at ha)
    cases htable : (s p).isTable with
    | false => rw [run_of_not_table hs₁ htable (hne h₁), run_of_not_table hs₂ htable (hne h₂)]
    | true =>
      refine eq_of_fieldOf ((run_shape hs₁ (hne h₁)).2.trans htable)
        ((run_shape hs₂ (hne h₂)).2.trans htable) fun k => ?_
      by_cases hstale : k = timestampKey ∧ .remove p.other ∈ l
      · obtain ⟨rfl, hother⟩ := hstale
        have hstay {l' : List (Action N)} {s' : Sections N} (hl' : l'.Perm l)
            (hs' : l'.foldlM act s = some s') :
            fieldOf (s' p) timestampKey = fieldOf (s p) timestampKey := by
          refine timestamp_run (fun a ha => hplain a (hl'.mem_iff.mp ha))
            (fun x hx hcomplete => ?_) hs' (hkept hl')
          exact h.stale p hremoved hother _ (hl'.mem_iff.mp hx) x (if_pos ⟨rfl, hcomplete⟩)
        rw [hstay h₁ hs₁, hstay h₂ hs₂]
      · have hother hk : .remove p.other ∉ l := fun hmem =>
          hstale ⟨hk, hmem⟩
        rw [fieldOf_run hs₁ (hkept h₁) fun hk hmem => hother hk (h₁.mem_iff.mp hmem),
          fieldOf_run hs₂ (hkept h₂) fun hk hmem => hother hk (h₂.mem_iff.mp hmem),
          getLast?_eq_of_perm ((h₁.trans h₂.symm).filterMap _) ?_]
        intro x hx y hy
        obtain ⟨a, ha, hx⟩ := mem_filterMap.mp hx
        obtain ⟨b, hb, hy⟩ := mem_filterMap.mp hy
        exact h.agree p hremoved k hother a (h₁.mem_iff.mp ha) b (h₁.mem_iff.mp hb) x y hx hy

theorem fieldOf_last {s₀ : Sections N}
    (hall : ∀ l' : List (Action N), l'.Perm l → l'.foldlM act s = some s₀)
    (ha : a ∈ l) (hp : .remove p ∉ l) (hk : k = timestampKey → .remove p.other ∉ l)
    {x : LuaValue N} (hx : written s p k a = some x) : fieldOf (s₀ p) k = x := by
  obtain ⟨before, after, rfl⟩ := append_of_mem ha
  have hrun := hall (before ++ after ++ [a]) (by
    rw [append_assoc]
    exact (perm_append_comm.trans (List.Perm.refl _)).append_left before)
  rw [foldlM_snoc] at hrun
  obtain ⟨s', hs', hact⟩ := bind_eq_some_iff.mp hrun
  have hsub {b : Action N} (hb : b ∈ before ++ after) : b ∈ before ++ a :: after := by
    rcases mem_append.mp hb with hb | hb
    · exact mem_append_left _ hb
    · exact mem_append_right _ (mem_cons_of_mem _ hb)
  have hne : a ≠ .remove p := by
    rintro rfl
    cases hx
  rw [fieldOf_act hact hne, written_congr hs' (fun h => hp (hsub h))
    (fun hkey h => hk hkey (hsub h)), hx]
  rfl

theorem agreeable_of_steady (hplain : ∀ a ∈ l, a.Plain) (hsteady : Steady act s l)
    (hhope : ¬ Hopeless s l) : Agreeable s l := by
  obtain ⟨l₀, hperm, hsorted⟩ := exists_sorted Action.rank l
  obtain ⟨s₀, hs₀⟩ := exists_run (fun h => hhope (h.perm hperm)) (timely_of_sorted hsorted)
  have hall (l' : List (Action N)) hl' : l'.foldlM act s = some s₀ :=
    (hsteady l' l₀ hl' hperm).trans hs₀
  have hfirst {a : Action N} {rest : List (Action N)} (hrest : (a :: rest).Perm l) :
      ∃ s₁, s.act a = some s₁ ∧ rest.foldlM act s₁ = some s₀ := by
    have hrun := hall _ hrest
    exact bind_eq_some_iff.mp hrun
  have hmiddle {a : Action N} {l : List (Action N)} (ha : a ∈ l) :
      ∃ rest, (a :: rest).Perm l := by
    obtain ⟨before, after, rfl⟩ := append_of_mem ha
    exact ⟨before ++ after, perm_middle.symm⟩
  refine ⟨⟨fun p field w hremove hput => ?_, fun p hp k hk a ha b hb x y hx hy => ?_,
    fun p hp hother a ha x hx => ?_⟩, fun a ha hnone => ?_⟩
  · obtain ⟨rest, hrest⟩ := hmiddle hremove
    have hmem : .put p field w ∈ rest :=
      (mem_cons.mp (hrest.mem_iff.mpr hput)).resolve_left nofun
    obtain ⟨rest', hrest'⟩ := hmiddle hmem
    obtain ⟨s₁, hs₁, hrun⟩ := hfirst ((hrest'.cons _).trans hrest)
    cases hs₁
    rw [foldlM_cons] at hrun
    obtain ⟨s₂, hs₂, -⟩ := bind_eq_some_iff.mp hrun
    have hnone : Sections.act (update s p .nil) (.put p field w) = none := by
      rw [act, write_eq_none, update_self]
      exact .inr rfl
    rw [hnone] at hs₂
    cases hs₂
  · rw [← fieldOf_last hall ha hp hk hx, ← fieldOf_last hall hb hp hk hy]
  · obtain ⟨rfl, hcomplete⟩ := (hplain a ha).written hx
    -- once with the stamp first, and once by rank
    obtain ⟨rest, hrest⟩ := hmiddle ha
    obtain ⟨sorted, hsub, hrank⟩ := exists_sorted Action.rank rest
    obtain ⟨s₁, hs₁, hrun⟩ := hfirst ((hsub.cons _).trans hrest)
    have hmem {b : Action N} hb : b ∈ l :=
      hrest.mem_iff.mp (mem_cons_of_mem _ (hsub.mem_iff.mp hb))
    have hremoved : .remove p.other ∈ sorted :=
      hsub.mem_iff.mpr ((mem_cons.mp (hrest.mem_iff.mpr hother)).resolve_left nofun)
    have hstamped := timestamp_of_sorted (fun b hb => hplain b (hmem hb)) hrank
      (fun h => hp (hmem h)) hremoved hrun
    have hbefore := timestamp_of_sorted (fun b hb => hplain b (hperm.mem_iff.mp hb)) hsorted
      (fun h => hp (hperm.mem_iff.mp h)) (hperm.mem_iff.mpr hother) hs₀
    rw [← hbefore, hstamped, fieldOf_act hs₁ nofun, hx]
    rfl
  · obtain ⟨rest, hrest⟩ := hmiddle ha
    obtain ⟨s₁, hs₁, -⟩ := hfirst hrest
    rw [hnone] at hs₁
    cases hs₁

/-- **When the order of the actions does not count**. -/
theorem steady_iff (hplain : ∀ a ∈ l, a.Plain) : Steady act s l ↔ Hopeless s l ∨ Agreeable s l := by
  constructor
  · intro hsteady
    by_cases hhope : Hopeless s l
    · exact .inl hhope
    · exact .inr (agreeable_of_steady hplain hsteady hhope)
  · rintro (hhope | hagree)
    · exact hhope.doomed.steady
    · exact hagree.steady hplain

end Snabb.Overwrites
