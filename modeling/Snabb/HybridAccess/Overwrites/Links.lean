import Snabb.HybridAccess.Overwrites.Fields
import Snabb.HybridAccess.Overwrites.Sections

/-!
# What options do to a link

The options that are about a link act on its sections, if the link is a table, and otherwise they
raise or do nothing.

- `foldlM_link`: options applied to a link are actions on its sections;
- `hopelessAt_link`: an option is hopeless at a link if its action is.
-/

namespace Snabb.Overwrites

open Foundation List Option
open Function (Injective update update_comm update_eq_self update_idem update_of_ne update_self)

open LuaValue hiding nil

variable {N : Type} {n : Numerals N} {t : LuaKey → LuaValue N} {k : LuaKey}
  {o : String × String} {os : List (String × String)} {v : LuaValue N}

/-! ## Links -/

def Part.key : Part → LuaKey
  | delayer => .name "delayer"
  | rateLimiter => .name "rate_limiter"

/-- The keys of the links. -/
def links : List LuaKey := [.name "link1", .name "link2"]

/-- What a setting asks of a link. -/
def Setting.action (n : Numerals N) (value : String) : Setting → Option (Action N)
  | delay _ => some (if value = "off" then .remove .delayer
      else .set .delayer "delay" (resolveTime n value))
  | delayCorr _ => some (.set .delayer "correction" (resolveTime n value))
  | rate _ => some (if value = "off" then .remove .rateLimiter
      else .put .rateLimiter "rate" (resolveBandwidth n value))
  | rateLimiter _ field resolver => some (.set .rateLimiter field (resolver.resolve n value))
  | timestamp => some (.stamp (.boolean (resolveBool value)))
  | _ => none

/-- What an option asks of a link. -/
def linkAction (n : Numerals N) (link : LuaKey) (o : String × String) : Option (Action N) :=
  match settingOf o.1 with
  | some s => if link ∈ s.fields then s.action n o.2 else none
  | none => none

/-- The sections of a link. -/
def sectionsOf (v : LuaValue N) : Sections N := fun p => fieldOf v p.key

/-- The fields of a link, with these sections. -/
def withSections (t : LuaKey → LuaValue N) (s : Sections N) : LuaKey → LuaValue N :=
  update (update t Part.delayer.key (s .delayer)) Part.rateLimiter.key
    (s .rateLimiter)

section

variable (t : LuaKey → LuaValue N)

theorem withSections_key (s : Sections N) (p : Part) : withSections t s p.key = s p := by
  cases p with
  | delayer =>
    exact (update_of_ne (by decide) _ _).trans (update_self _ _ _)
  | rateLimiter => exact update_self _ _ _

theorem withSections_update (s : Sections N) (p : Part) (x : LuaValue N) :
    update (withSections t s) p.key x = withSections t (update s p x) := by
  have hkeys : Part.rateLimiter.key ≠ Part.delayer.key := by decide
  cases p with
  | delayer =>
    rw [withSections, update_comm hkeys, update_idem, withSections,
      update_self, update_of_ne (by decide)]
  | rateLimiter =>
    rw [withSections, update_idem, withSections, update_self,
      update_of_ne (by decide)]

theorem withSections_sectionsOf : withSections t (sectionsOf (.table t)) = t := by
  show update (update t _ (t Part.delayer.key)) _ (t Part.rateLimiter.key) = t
  rw [update_eq_self, update_eq_self]

theorem withSections_injective : Injective fun s => LuaValue.table (withSections t s) := by
  intro s s' h
  have hfields : withSections t s = withSections t s' := LuaValue.table.inj h
  funext p
  rw [← withSections_key t s p, ← withSections_key t s' p, hfields]

theorem setField_section (s : Sections N) (p : Part) (field : String) (w : Option (LuaValue N)) :
    setField [p.key] (.name field) w (.table (withSections t s)) =
      (s.write p field w).map fun s => .table (withSections t s) := by
  rw [setField, modifyAt_table, withSections_key, Sections.write]
  cases w with
  | none => rfl
  | some w =>
    simp only [bind_eq_bind, bind_some, modifyAt]
    cases (s p).assign (.name field) w with
    | none => rfl
    | some x => exact congrArg (fun t => some (LuaValue.table t)) (withSections_update t s p x)

theorem setField_nil (s : Sections N) (p : Part) :
    setField [] p.key (some .nil) (.table (withSections t s)) =
      some (.table (withSections t (update s p .nil))) :=
  congrArg (fun t => some (LuaValue.table t)) (withSections_update t s p .nil)

end

variable {part value : String} {F : LuaValue N → Option (LuaValue N)} {a : Action N} {st : Setting}

theorem guarded_section {p : Part} (hpart : p.key = .name part) (t : LuaKey → LuaValue N)
    (s : Sections N) :
    guarded part F (.table (withSections t s)) =
      if (s p).isNil then some (.table (withSections t s))
      else F (.table (withSections t s)) := by
  show (if (withSections t s (.name part)).isNil = true then _ else _) = _
  rw [← hpart, withSections_key]

/-- **What a setting does** to a link is its action on the sections. -/
theorem touch_action (ha : st.action n value = some a) (t : LuaKey → LuaValue N) (s : Sections N) :
    touch n value st (.table (withSections t s)) =
      (s.act a).map fun s => .table (withSections t s) := by
  cases st with
  | delay link =>
    cases ha
    rw [touch, guarded_section (p := .delayer) rfl]
    by_cases hoff : value = "off"
    · rw [if_pos hoff]
      split
      · next hnil =>
        rw [Sections.act]
        refine congrArg (fun s => some (LuaValue.table (withSections t s))) ?_
        rw [← isNil_iff.mp hnil, update_eq_self]
      · exact setField_nil t s .delayer
    · rw [if_neg hoff, if_neg hoff, Sections.act]
      split
      · rfl
      · exact setField_section t s .delayer _ _
  | delayCorr link =>
    cases ha
    rw [touch, guarded_section (p := .delayer) rfl, Sections.act]
    split
    · rfl
    · exact setField_section t s .delayer _ _
  | rate link =>
    cases ha
    simp only [touch]
    by_cases hoff : value = "off"
    · rw [if_pos hoff, if_pos hoff]
      exact setField_nil t s .rateLimiter
    · rw [if_neg hoff, if_neg hoff]
      exact setField_section t s .rateLimiter _ _
  | rateLimiter link field resolver =>
    cases ha
    rw [touch, guarded_section (p := .rateLimiter) rfl, Sections.act]
    split
    · rfl
    · exact setField_section t s .rateLimiter _ _
  | timestamp =>
    cases ha
    rw [touch, guarded_section (p := .rateLimiter) rfl, guarded_section (p := .delayer) rfl,
      Sections.act]
    by_cases hcomplete : s.Complete
    · rw [if_pos hcomplete, if_neg (by simp [hcomplete.1]), if_neg (by simp [hcomplete.2])]
      show Option.bind (setField [Part.rateLimiter.key] _ _ _) _ = Option.map _ (Option.bind _ _)
      rw [setField_section]
      cases s.write .rateLimiter "timestamp" (some (.boolean (resolveBool value))) with
      | none => rfl
      | some s₁ => exact setField_section t s₁ .delayer _ _
    · rw [if_neg hcomplete]
      split
      · rfl
      · next hlimiter =>
        rw [if_pos]
        · rfl
        · by_contra hdelayer
          exact hcomplete ⟨Bool.not_eq_true _ ▸ hlimiter, Bool.not_eq_true _ ▸ hdelayer⟩
  | recDelay i | loadbalancer | wrrBandwidth output | balancer field resolver => cases ha

theorem exists_action (hk : k ∈ links) (hfields : k ∈ st.fields) (n : Numerals N)
    (value : String) : ∃ a, st.action n value = some a := by
  cases st with
  | recDelay i | loadbalancer | wrrBandwidth output | balancer field resolver =>
    rw [mem_singleton.mp hfields] at hk
    exact absurd hk (by decide)
  | _ => exact ⟨_, rfl⟩

theorem actAt_of_no_action (hk : k ∈ links) (h : linkAction n k o = none) (v : LuaValue N) :
    actAt n k v o = some v := by
  rw [linkAction] at h
  rw [actAt]
  cases hsetting : settingOf o.1 with
  | none => rfl
  | some st =>
    rw [hsetting] at h
    simp only at h ⊢
    by_cases hfields : k ∈ st.fields
    · obtain ⟨a, ha⟩ := exists_action hk hfields n o.2
      rw [if_pos hfields, ha] at h
      cases h
    · exact if_neg hfields

theorem linkAction_eq_some (h : linkAction n k o = some a) :
    ∃ st, settingOf o.1 = some st ∧ k ∈ st.fields ∧ st.action n o.2 = some a := by
  rw [linkAction] at h
  split at h
  · next st hst =>
    split at h
    · next hfields => exact ⟨st, hst, hfields, h⟩
    · cases h
  · cases h

theorem actAt_of_action (h : linkAction n k o = some a) (v : LuaValue N) :
    ∃ st, st.action n o.2 = some a ∧ actAt n k v o = touch n o.2 st v := by
  obtain ⟨st, hst, hfields, ha⟩ := linkAction_eq_some h
  refine ⟨st, ha, ?_⟩
  rw [actAt, hst]
  exact if_pos hfields

/-- The actions on a link. -/
def actions (n : Numerals N) (os : List (String × String)) (link : LuaKey) : List (Action N) :=
  os.filterMap (linkAction n link)

/-- **Options applied to a link** are actions on its sections. -/
theorem foldlM_link (hk : k ∈ links) (t : LuaKey → LuaValue N) (s : Sections N)
    (os : List (String × String)) :
    os.foldlM (actAt n k) (.table (withSections t s)) =
      ((actions n os k).foldlM Sections.act s).map fun s => .table (withSections t s) := by
  induction os generalizing s with
  | nil => rfl
  | cons o os ih =>
    rw [foldlM_cons]
    cases haction : linkAction n k o with
    | none =>
      rw [actAt_of_no_action hk haction, actions, filterMap_cons_none haction]
      exact ih s
    | some a =>
      obtain ⟨st, ha, htouch⟩ := actAt_of_action haction (.table (withSections t s))
      rw [htouch, touch_action ha, actions, filterMap_cons_some haction, foldlM_cons]
      cases s.act a with
      | none => rfl
      | some s₁ => exact ih s₁

theorem actAt_link (h : linkAction n k o = some a) :
    actAt n k (.table t) o = none ↔ (sectionsOf (.table t)).act a = none := by
  obtain ⟨st, ha, htouch⟩ := actAt_of_action h (.table t)
  have htable := touch_action ha t (sectionsOf (.table t))
  rw [withSections_sectionsOf] at htable
  rw [htouch, htable, map_eq_none_iff]

/-- An option raises at a field by itself, and no section that guards it is removed. -/
def HopelessAt (n : Numerals N) (os : List (String × String)) (k : LuaKey) (v : LuaValue N) :
    Prop :=
  ∃ o ∈ os, actAt n k v o = none ∧ ∀ a, linkAction n k o = some a → ∀ p ∈ a.guards,
    .remove p ∉ actions n os k

theorem hopelessAt_link (hk : k ∈ links) : HopelessAt n os k (.table t) ↔
    Hopeless (sectionsOf (.table t)) (actions n os k) := by
  constructor
  · rintro ⟨o, ho, hnone, hguards⟩
    cases haction : linkAction n k o with
    | none =>
      rw [actAt_of_no_action hk haction] at hnone
      cases hnone
    | some a => exact ⟨a, mem_filterMap.mpr ⟨o, ho, haction⟩, (actAt_link haction).mp hnone,
        hguards a haction⟩
  · rintro ⟨a, ha, hnone, hguards⟩
    obtain ⟨o, ho, haction⟩ := mem_filterMap.mp ha
    refine ⟨o, ho, (actAt_link haction).mpr hnone, fun a' ha' => ?_⟩
    rw [haction] at ha'
    cases ha'
    exact hguards

/-- The place of an option in an order that does not raise. -/
def optionRank (n : Numerals N) (o : String × String) : Nat :=
  match (settingOf o.1).bind (Setting.action n o.2) with
  | some a => a.rank
  | none => 2

theorem rank_linkAction (h : linkAction n k o = some a) : a.rank = optionRank n o := by
  obtain ⟨st, hst, -, ha⟩ := linkAction_eq_some h
  rw [optionRank, hst, bind_some, ha]

theorem sorted_actions (h : os.Pairwise fun o o' => optionRank n o ≤ optionRank n o')
    (k : LuaKey) : (actions n os k).Pairwise fun a b => a.rank ≤ b.rank := by
  refine h.filterMap _ fun o o' hle a ha b hb => ?_
  rw [rank_linkAction ha, rank_linkAction hb]
  exact hle

/-- No field of a rate limiter that is set by an option is the timestamp. -/
theorem branches_plain : ∀ b ∈ branches, ∀ link field resolver,
    b.setting = .rateLimiter link field resolver → field ≠ "timestamp" := by
  intro b hb link field resolver hsetting
  have hall : ∀ b ∈ branches, (match b.setting with
      | .rateLimiter _ field _ => decide (field ≠ "timestamp")
      | _ => true) = true := by decide
  have hplain := hall b hb
  rw [hsetting] at hplain
  exact of_decide_eq_true hplain

theorem exists_branch {key : String} (h : settingOf key = some st) :
    ∃ b ∈ branches, key ∈ b.keys ∧ b.setting = st := by
  obtain ⟨b, hb, hst⟩ := Option.map_eq_some_iff.mp h
  exact ⟨b, mem_of_find?_eq_some hb, by simpa using List.find?_some hb, hst⟩

theorem plain_actions : ∀ a ∈ actions n os k, a.Plain := by
  intro a ha
  obtain ⟨o, -, haction⟩ := mem_filterMap.mp ha
  obtain ⟨st, hst, -, ha⟩ := linkAction_eq_some haction
  obtain ⟨b, hb, -, hsetting⟩ := exists_branch hst
  have hdelay : "delay" ≠ "timestamp" ∧ "correction" ≠ "timestamp" ∧ "rate" ≠ "timestamp" := by
    decide
  cases st with
  | delay link =>
    cases ha
    split
    · trivial
    · exact hdelay.1
  | delayCorr link =>
    cases ha
    exact hdelay.2.1
  | rate link =>
    cases ha
    split
    · trivial
    · exact hdelay.2.2
  | rateLimiter link field resolver =>
    cases ha
    exact branches_plain b hb link field resolver hsetting
  | timestamp =>
    cases ha
    trivial
  | recDelay i | loadbalancer | wrrBandwidth output | balancer field resolver => cases ha

/-! ## What is not a table -/

theorem guarded_of_not_table
    (hv : v.isTable = false) : guarded part F v = none ∨ guarded part F v = some v := by
  cases v with
  | table t => cases hv
  | string x => exact .inr rfl
  | nil | boolean b | number x => exact .inl rfl

theorem touch_rate_of_not_table {link : String} (hv : v.isTable = false) :
    touch n value (.rate link) v = none := by
  simp only [touch]
  split
  · cases v with
    | table t => cases hv
    | _ => rfl
  · exact modifyAt_eq_none hv _ _ _

theorem touch_of_not_table (ha : st.action n value = some a) (hv : v.isTable = false) :
    touch n value st v = none ∨ touch n value st v = some v := by
  cases st with
  | delay link | delayCorr link | rateLimiter link field resolver | timestamp =>
    rw [touch]
    exact guarded_of_not_table hv
  | rate link => exact .inl (touch_rate_of_not_table hv)
  | recDelay i | loadbalancer | wrrBandwidth output | balancer field resolver => cases ha

/-- A string has no sections, and nothing else lets itself be indexed. -/
theorem touch_none_of_not_table (hv : v.isTable = false) :
    (∀ value a st, Setting.action n value st = some a → touch n value st v = none) ∨
      ∀ value a st, Setting.action n value st = some a → touch n value st v = none →
        a.guards = [] := by
  have hguards value a link
      (ha : Setting.action n value (.rate link) = some a) : a.guards = [] := by
    cases ha
    split
    · rfl
    · rfl
  cases v with
  | table t => cases hv
  | string x =>
    refine .inr fun value a st ha hnone => ?_
    cases st with
    | rate link => exact hguards value a link ha
    | recDelay i | loadbalancer | wrrBandwidth output | balancer field resolver => cases ha
    | _ => cases hnone
  | _ =>
    refine .inl fun value a st ha => ?_
    cases st with
    | rate link => exact touch_rate_of_not_table rfl
    | recDelay i | loadbalancer | wrrBandwidth output | balancer field resolver => cases ha
    | _ => rfl

theorem actAt_of_not_table (hk : k ∈ links) (hv : v.isTable = false) (o : String × String) :
    actAt n k v o = none ∨ actAt n k v o = some v := by
  cases haction : linkAction n k o with
  | none => exact .inr (actAt_of_no_action hk haction v)
  | some a =>
    obtain ⟨st, ha, htouch⟩ := actAt_of_action haction v
    rw [htouch]
    exact touch_of_not_table ha hv

theorem hopelessAt_of_not_table (hv : v.isTable = false)
    (h : ∃ o ∈ os, actAt n k v o = none) : HopelessAt n os k v := by
  obtain ⟨o, ho, hnone⟩ := h
  by_contra hhope
  rcases touch_none_of_not_table (n := n) hv with hall | hstring
  · -- a removal raises like anything else, and nothing guards it
    refine hhope ⟨o, ho, hnone, fun a haction p hp hremove => ?_⟩
    obtain ⟨o', ho', haction'⟩ := mem_filterMap.mp hremove
    refine hhope ⟨o', ho', ?_, fun a' ha' q hq => ?_⟩
    · obtain ⟨st, ha, htouch⟩ := actAt_of_action haction' v
      rw [htouch, hall _ _ st ha]
    · rw [haction'] at ha'
      cases ha'
      cases hq
  · refine hhope ⟨o, ho, hnone, fun a haction p hp => ?_⟩
    obtain ⟨st, ha, htouch⟩ := actAt_of_action haction v
    rw [hstring _ _ st ha (htouch ▸ hnone)] at hp
    cases hp

end Snabb.Overwrites
