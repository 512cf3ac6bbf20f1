import Snabb.HybridAccess.Overwrites.Links

/-!
# The order of the options (`program/hybrid_access/hybrid_access.lua`)

`pairs` goes over the options in an order that is not specified. For most sets of options it does
not count, as they write different fields. It does where a section is removed that another option
needs or changes, and where both names of an option are given with different values.

- `overwrites_ordered_iff`: when the order does not count.
-/

namespace Snabb.Overwrites

open Foundation List Option
open Function (update update_comm update_of_ne update_self)

open LuaValue hiding nil

variable {N : Type} {n : Numerals N} {k : LuaKey} {o o' : String × String}
  {os l : List (String × String)} {v v' : LuaValue N}

/-! ## What is not a link -/

/-- An option does not decide whether another one raises. -/
def RaiseFree (F G : LuaValue N → Option (LuaValue N)) : Prop :=
  ∀ v v', G v = some v' → (F v' = none ↔ F v = none)

def Commutes (F G : LuaValue N → Option (LuaValue N)) : Prop :=
  ∀ v, (F v).bind G = (G v).bind F

variable {F G H : LuaValue N → Option (LuaValue N)}

theorem Commutes.symm (h : Commutes F G) : Commutes G F := fun v => (h v).symm

theorem commutes_of_idle (h : ∀ v, F v = some v) : Commutes F G := by
  intro v
  rw [h, bind_some, funext h]
  cases G v with
  | none => rfl
  | some w => rfl

theorem Commutes.seq (hF : Commutes F H) (hG : Commutes G H) :
    Commutes (fun v => (F v).bind G) H := by
  intro v
  calc ((F v).bind G).bind H = (F v).bind fun w => (G w).bind H := bind_assoc _ _ _
    _ = (F v).bind fun w => (H w).bind G := congrArg _ (funext fun w => hG w)
    _ = ((F v).bind H).bind G := (bind_assoc _ _ _).symm
    _ = ((H v).bind F).bind G := by rw [hF v]
    _ = (H v).bind fun w => (F w).bind G := bind_assoc _ _ _

theorem setField_eq (path : List LuaKey) (field : LuaKey) (w : Option (LuaValue N))
    (v : LuaValue N) : setField path field w v = modifyAt (path ++ [field]) (fun _ => w) v := by
  induction path generalizing v with
  | nil =>
    cases v with
    | table t => rfl
    | string x => rfl
    | _ =>
      cases w with
      | none => rfl
      | some w => rfl
  | cons k path ih =>
    show ((v.index k).bind fun below => (setField path field w below).bind fun below =>
      v.assign k below) = (v.index k).bind fun below =>
        (modifyAt (path ++ [field]) (fun _ => w) below).bind fun below => v.assign k below
    simp only [ih]

/-- The field that a setting writes, if it writes one outside of the links. -/
def Setting.target : Setting → Option (List LuaKey)
  | recDelay i => some [.name "config", .name "link_delays", .number i]
  | wrrBandwidth output => some [.name "config", .name "bandwidths", .name output]
  | balancer field _ => some [.name "config", .name field]
  | _ => none

/-- Write a bandwidth. -/
def setBandwidth (output : String) (w v : LuaValue N) : Option (LuaValue N) :=
  (if v.truthy then v else empty).assign (.name output) w

theorem touch_wrrBandwidth (n : Numerals N) (value output : String) (v : LuaValue N) :
    touch n value (.wrrBandwidth output) v =
      modifyAt [.name "config", .name "bandwidths"] (setBandwidth output (n.value value)) v := by
  simp only [touch, modifyAt, setBandwidth, setField]
  cases v with
  | table t =>
    simp only [index, bind_eq_bind, bind_some]
    cases t (.name "config") with
    | table u =>
      simp only [assign, bind_some]
      cases (u (.name "bandwidths")).truthy with
      | true => simp only [if_true]
      | false => simp [empty]
    | string x => simp [assign, truthy]
    | _ => rfl
  | string x => simp [index, assign]
  | _ => rfl

variable {output output' value str : String} {w : LuaValue N} {st st' : Setting}
  {path : List LuaKey} {kind : String × String}

theorem setBandwidth_eq_none :
    setBandwidth output w v = none ↔ (if v.truthy then v else empty).isTable = false := by
  rw [setBandwidth]
  cases (if v.truthy then v else empty) with
  | table t => exact iff_of_false nofun nofun
  | _ => exact iff_of_true rfl rfl

theorem setBandwidth_eq_some
    (h : setBandwidth output w v = some v') : ∃ t, (if v.truthy then v else empty) = .table t ∧
      v' = .table (update t (.name output) w) := by
  rw [setBandwidth] at h
  cases hv : (if v.truthy then v else empty) with
  | table t =>
    rw [hv] at h
    exact ⟨t, rfl, (Option.some.inj h).symm⟩
  | _ =>
    rw [hv] at h
    cases h

theorem setBandwidth_raiseFree {w' : LuaValue N} :
    RaiseFree (setBandwidth output w) (setBandwidth output' w') := by
  intro v v' h
  obtain ⟨t, ht, rfl⟩ := setBandwidth_eq_some h
  rw [setBandwidth_eq_none, setBandwidth_eq_none, ht]
  exact Iff.rfl

theorem setBandwidth_commutes (hne : output ≠ output')
    (w w' : LuaValue N) : Commutes (setBandwidth output w) (setBandwidth output' w') := by
  intro v
  have hkey : LuaKey.name output ≠ .name output' := fun h => hne (LuaKey.name.inj h)
  cases hv : (if v.truthy then v else empty) with
  | table t =>
    have hset output w : setBandwidth output w v =
        some (.table (update t (.name output) w)) := by
      rw [setBandwidth, hv]
      rfl
    have hnext u output (w : LuaValue N) :
        setBandwidth output w (.table u) = some (.table (update u (.name output) w)) := rfl
    rw [hset, hset, bind_some, bind_some, hnext, hnext, update_comm hkey]
  | _ =>
    have hnone output w : setBandwidth output w v = none := by
      rw [setBandwidth, hv]
      rfl
    rw [hnone, hnone]
    rfl

/-- A change outside of the links: the path below a field, and what is done at its end. -/
def Setting.edit (n : Numerals N) (value : String) :
    Setting → Option (List LuaKey × (LuaValue N → Option (LuaValue N)))
  | recDelay i =>
    some ([.name "config", .name "link_delays", .number i], fun _ => resolveTime n value)
  | wrrBandwidth output =>
    some ([.name "config", .name "bandwidths"], setBandwidth output (n.value value))
  | balancer field resolver =>
    some ([.name "config", .name field], fun _ => resolver.resolve n value)
  | _ => none

theorem touch_edit (h : st.edit n value = some (path, F)) (v : LuaValue N) :
    touch n value st v = modifyAt path F v := by
  cases st with
  | recDelay i =>
    cases h
    exact setField_eq [.name "config", .name "link_delays"] _ _ v
  | wrrBandwidth output =>
    cases h
    exact touch_wrrBandwidth n value output v
  | balancer field resolver =>
    cases h
    exact setField_eq [.name "config"] _ _ v
  | _ => cases h

/-- The fields of a load balancer's configuration that options write are no bandwidths. -/
theorem branches_balancer : ∀ b ∈ branches, ∀ field resolver,
    b.setting = .balancer field resolver → field ≠ "bandwidths" := by
  intro b hb field resolver hsetting
  have hall : ∀ b ∈ branches, (match b.setting with
      | .balancer field _ => decide (field ≠ "bandwidths")
      | _ => true) = true := by decide
  have hfield := hall b hb
  rw [hsetting] at hfield
  exact of_decide_eq_true hfield

theorem settingOf_balancer {key field : String} {resolver : Resolver}
    (h : settingOf key = some (.balancer field resolver)) : field ≠ "bandwidths" := by
  obtain ⟨b, hb, -, hsetting⟩ := exists_branch h
  exact branches_balancer b hb field resolver hsetting

/-- **Two changes of one field** part, or are at one place. -/
theorem edits_apart {value' : String} {path' : List LuaKey} (hst : settingOf o.1 = some st)
    (hst' : settingOf o'.1 = some st') (hfields : k ∈ st.fields) (hfields' : k ∈ st'.fields)
    (he : st.edit n value = some (path, F)) (he' : st'.edit n value' = some (path', G)) :
    Parting path path' ∨
      path = path' ∧ RaiseFree F G ∧ (st.target ≠ st'.target → Commutes F G) := by
  have hother (h : k ∈ [LuaKey.name "recombination"]) (h' : k ∈ [LuaKey.name "loadbalancer"]) :
      False :=
    absurd ((mem_singleton.mp h).symm.trans (mem_singleton.mp h')) (by decide)
  have hconst w (G : LuaValue N → Option (LuaValue N)) :
      RaiseFree (fun _ => w) G := fun _ _ _ => Iff.rfl
  cases st with
  | recDelay i =>
    cases he
    cases st' with
    | recDelay j =>
      cases he'
      by_cases hij : i = j
      · subst hij
        exact .inr ⟨rfl, hconst _ _, fun hne => absurd rfl hne⟩
      · exact .inl ⟨[.name "config", .name "link_delays"], .number i, [], .number j, [],
          by simpa using hij, rfl, rfl⟩
    | wrrBandwidth output | balancer field resolver =>
      exact (hother hfields hfields').elim
    | _ => cases he'
  | wrrBandwidth output =>
    cases he
    cases st' with
    | recDelay j =>
      exact (hother hfields' hfields).elim
    | wrrBandwidth output' =>
      cases he'
      refine .inr ⟨rfl, setBandwidth_raiseFree, fun hne => setBandwidth_commutes ?_ _ _⟩
      rintro rfl
      exact hne rfl
    | balancer field resolver =>
      cases he'
      refine .inl ⟨[.name "config"], .name "bandwidths", [], .name field, [], fun heq => ?_,
        rfl, rfl⟩
      exact settingOf_balancer hst' (LuaKey.name.inj heq).symm
    | _ => cases he'
  | balancer field resolver =>
    cases he
    cases st' with
    | recDelay j =>
      exact (hother hfields' hfields).elim
    | wrrBandwidth output =>
      cases he'
      refine .inl ⟨[.name "config"], .name field, [], .name "bandwidths", [], fun heq => ?_,
        rfl, rfl⟩
      exact settingOf_balancer hst (LuaKey.name.inj heq)
    | balancer field' resolver' =>
      cases he'
      by_cases hfield : field = field'
      · subst hfield
        exact .inr ⟨rfl, hconst _ _, fun hne => absurd rfl hne⟩
      · exact .inl ⟨[.name "config"], .name field, [], .name field', [], by simpa using hfield,
          rfl, rfl⟩
    | _ => cases he'
  | _ => cases he

/-! ## The kind of the load balancer -/

theorem touch_loadbalancer (h : balancerOf value = some kind) (v : LuaValue N) :
    touch n value .loadbalancer v =
      (modifyAt [.name "path"] (fun _ => some (.string kind.1)) v).bind
        (modifyAt [.name "type"] fun _ => some (.string kind.2)) := by
  simp only [touch, h, setField_eq]
  rfl

theorem touch_loadbalancer_none (h : balancerOf value = none) (v : LuaValue N) :
    touch n value .loadbalancer v = some v := by
  simp only [touch, h]

theorem loadbalancer_table (h : balancerOf value = some kind) (t : LuaKey → LuaValue N) :
    touch n value .loadbalancer (.table t) = some (.table (update
      (update t (.name "path") (.string kind.1)) (.name "type") (.string kind.2))) := by
  rw [touch_loadbalancer h]
  rfl

theorem loadbalancer_eq_none (h : balancerOf value = some kind) :
    touch n value .loadbalancer v = none ↔ v.isTable = false := by
  cases hv : v.isTable with
  | true =>
    obtain ⟨t, rfl⟩ := isTable_iff.mp hv
    rw [loadbalancer_table h]
    exact iff_of_false nofun nofun
  | false =>
    rw [touch_loadbalancer h, modifyAt_eq_none hv]
    exact iff_of_true rfl rfl

/-! ## Options outside of the links -/

theorem branches_outside : ∀ b ∈ branches, b.setting.target = none →
    b.setting = .loadbalancer ∨ ∀ k ∈ b.setting.fields, k ∈ links := by decide

theorem exists_edit (h : st.target ≠ none) (n : Numerals N) (value : String) :
    ∃ path F, st.edit n value = some (path, F) := by
  cases st with
  | recDelay i | wrrBandwidth output | balancer field resolver => exact ⟨_, _, rfl⟩
  | _ => exact absurd rfl h

/-- **What an option does outside of the links**: nothing, a change, or setting the kind of the load
balancer. -/
inductive Outside (n : Numerals N) (k : LuaKey) (o : String × String) : Prop where
  | idle (h : ∀ v, actAt n k v o = some v)
  | edit (st : Setting) (path : List LuaKey) (F : LuaValue N → Option (LuaValue N))
      (hst : settingOf o.1 = some st) (hfields : k ∈ st.fields)
      (he : st.edit n o.2 = some (path, F)) (h : ∀ v, actAt n k v o = modifyAt path F v)
  | kind (kind : String × String) (hk : k = .name "loadbalancer")
      (hst : settingOf o.1 = some .loadbalancer) (hkind : balancerOf o.2 = some kind)
      (h : ∀ v, actAt n k v o = touch n o.2 .loadbalancer v)

theorem outside (hk : k ∉ links) (n : Numerals N) (o : String × String) : Outside n k o := by
  cases hst : settingOf o.1 with
  | none =>
    refine .idle fun v => ?_
    rw [actAt, hst]
  | some st =>
    by_cases hfields : k ∈ st.fields
    · have hact v : actAt n k v o = touch n o.2 st v := by
        rw [actAt, hst]
        exact if_pos hfields
      by_cases htarget : st.target = none
      · obtain ⟨b, hb, -, rfl⟩ := exists_branch hst
        rcases branches_outside b hb htarget with hsetting | hlinks
        · rw [hsetting] at hst hact hfields
          cases hkind : balancerOf o.2 with
          | none => exact .idle fun v => (hact v).trans (touch_loadbalancer_none hkind v)
          | some kind => exact .kind kind (mem_singleton.mp hfields) hst hkind hact
        · exact absurd (hlinks k hfields) hk
      · obtain ⟨path, F, he⟩ := exists_edit htarget n o.2
        exact .edit st path F hst hfields he fun v => (hact v).trans (touch_edit he v)
    · refine .idle fun v => ?_
      rw [actAt, hst]
      exact if_neg hfields

theorem edit_path
    (h : st.edit n value = some (path, F)) : ∃ path', path = .name "config" :: path' := by
  cases st with
  | recDelay i | wrrBandwidth output | balancer field resolver =>
    cases h
    exact ⟨_, rfl⟩
  | _ => cases h

theorem isTable_of_modifyAt (h : modifyAt (k :: path) F v = some v') : v.isTable ∧ v'.isTable := by
  cases hv : v.isTable with
  | false =>
    rw [modifyAt_eq_none hv] at h
    cases h
  | true =>
    obtain ⟨t, rfl⟩ := isTable_iff.mp hv
    rw [modifyAt_table] at h
    obtain ⟨w, -, rfl⟩ := Option.map_eq_some_iff.mp h
    exact ⟨rfl, rfl⟩

/-- **No option outside of the links** decides whether another one raises. -/
theorem actAt_raiseFree (hk : k ∉ links) (n : Numerals N) (o o' : String × String) :
    RaiseFree (fun v => actAt n k v o) fun v => actAt n k v o' := by
  intro v v' h
  simp only at h ⊢
  rcases outside hk n o' with hidle | ⟨st', path', G, hst', hfields', he', hG⟩ |
    ⟨kind', -, hst', hkind', hG⟩
  · rw [hidle] at h
    cases h
    exact Iff.rfl
  · obtain ⟨below, hbelow⟩ := edit_path he'
    rw [hG] at h
    rcases outside hk n o with hidle | ⟨st, path, F, hst, hfields, he, hF⟩ |
      ⟨kind, hlb, hst, hkind, hF⟩
    · rw [hidle, hidle]
      exact iff_of_false nofun nofun
    · rw [hF, hF]
      rcases edits_apart hst hst' hfields hfields' he he' with hparting | ⟨rfl, hfree, -⟩
      · exact hparting.none_iff h
      · exact modifyAt_none_iff_of_same hfree h
    · rw [hbelow] at h
      obtain ⟨hv, hv'⟩ := isTable_of_modifyAt h
      rw [hF, hF, loadbalancer_eq_none hkind, loadbalancer_eq_none hkind, hv, hv']
  · rw [hG] at h
    have hv : v.isTable = true := by
      by_contra hv
      rw [(loadbalancer_eq_none hkind').mpr (Bool.not_eq_true _ ▸ hv)] at h
      cases h
    obtain ⟨t, rfl⟩ := isTable_iff.mp hv
    rw [loadbalancer_table hkind'] at h
    cases h
    rcases outside hk n o with hidle | ⟨st, path, F, hst, hfields, he, hF⟩ |
      ⟨kind, hlb, hst, hkind, hF⟩
    · rw [hidle, hidle]
      exact iff_of_false nofun nofun
    · obtain ⟨below, rfl⟩ := edit_path he
      rw [hF, hF, modifyAt_table, modifyAt_table, update_of_ne (by decide),
        update_of_ne (by decide), map_eq_none_iff, map_eq_none_iff]
    · rw [hF, hF, loadbalancer_table hkind, loadbalancer_table hkind]
      exact iff_of_false nofun nofun

/-- The names of a setting outside of the links, without the ones that have an underscore. -/
theorem branches_target : ∀ b ∈ branches, ∀ b' ∈ branches, b.setting.target ≠ none →
    b.setting.target = b'.setting.target → ∀ key ∈ b.keys, ∀ key' ∈ b'.keys,
      '_' ∈ key.toList ∨ '_' ∈ key'.toList ∨ key = key' := by decide +kernel

theorem option_of_target (ho : o ∈ options str) (ho' : o' ∈ options str)
    (hst : settingOf o.1 = some st) (hst' : settingOf o'.1 = some st') (hne : st.target ≠ none)
    (htarget : st.target = st'.target) : o = o' := by
  obtain ⟨b, hb, hkey, rfl⟩ := exists_branch hst
  obtain ⟨b', hb', hkey', rfl⟩ := exists_branch hst'
  have hname : o.1 = o'.1 := by
    rcases branches_target b hb b' hb' hne htarget _ hkey _ hkey' with hscore | hscore | heq
    · exact absurd rfl ((accepted_options ho).ne_of_underscore hscore).1
    · exact absurd rfl ((accepted_options ho').ne_of_underscore hscore).1
    · exact heq
  have hmem : (o'.1, o.2) ∈ options str := by
    rw [← hname]
    exact ho
  exact Prod.ext hname (option_of_key hmem ho')

/-- All options that set the kind of the load balancer set the same one. -/
def KindsAgree (os : List (String × String)) : Prop :=
  ∀ o ∈ os, ∀ o' ∈ os, settingOf o.1 = some .loadbalancer → settingOf o'.1 = some .loadbalancer →
    ∀ kind kind', balancerOf o.2 = some kind → balancerOf o'.2 = some kind' → kind = kind'

theorem edit_target {e : _} (h : st.edit n value = some e) : st.target ≠ none := by
  cases st with
  | recDelay i | wrrBandwidth output | balancer field resolver => exact nofun
  | _ => cases h

theorem loadbalancer_commutes (hkind : balancerOf value = some kind)
    (F : LuaValue N → Option (LuaValue N)) :
    Commutes (touch n value .loadbalancer) (modifyAt (.name "config" :: path) F) := by
  have hparting field (hne : field ≠ "config") :
      Parting [.name field] (.name "config" :: path) :=
    ⟨[], .name field, [], .name "config", path, fun h => hne (LuaKey.name.inj h), rfl, rfl⟩
  have hseq := Commutes.seq (H := modifyAt (.name "config" :: path) F)
    (fun v => (hparting "path" (by decide)).comm (fun _ => some (.string kind.1)) F v)
    fun v => (hparting "type" (by decide)).comm (fun _ => some (.string kind.2)) F v
  intro v
  simp only [touch_loadbalancer hkind]
  exact hseq v

/-- **Options outside of the links** commute, but for two kinds of load balancers. -/
theorem actAt_commutes (hk : k ∉ links) (ho : o ∈ options str) (ho' : o' ∈ options str)
    (hagree : k = .name "loadbalancer" → KindsAgree (options str)) :
    Commutes (fun v => actAt n k v o) fun v => actAt n k v o' := by
  intro v
  rcases outside hk n o with hidle | ⟨st, path, F, hst, hfields, he, hF⟩ |
    ⟨kind, hlb, hst, hkind, hF⟩
  · exact commutes_of_idle hidle v
  · obtain ⟨below, hbelow⟩ := edit_path he
    rcases outside hk n o' with hidle | ⟨st', path', G, hst', hfields', he', hG⟩ |
      ⟨kind', -, hst', hkind', hG⟩
    · exact (commutes_of_idle (G := fun v => actAt n k v o) hidle v).symm
    · simp only [hF, hG]
      rcases edits_apart hst hst' hfields hfields' he he' with hparting | ⟨rfl, -, hcomm⟩
      · exact hparting.comm F G v
      · by_cases htarget : st.target = st'.target
        · -- one setting under one name is one option
          have heq := option_of_target ho ho' hst hst' (edit_target he) htarget
          subst heq
          simp only [← hF, ← hG]
        · rw [modifyAt_modifyAt, modifyAt_modifyAt]
          exact congrArg (modifyAt path · v) (funext fun w => hcomm htarget w)
    · simp only [hF, hG, hbelow]
      exact (loadbalancer_commutes hkind' F).symm v
  · rcases outside hk n o' with hidle | ⟨st', path', G, hst', hfields', he', hG⟩ |
      ⟨kind', -, hst', hkind', hG⟩
    · exact (commutes_of_idle (G := fun v => actAt n k v o) hidle v).symm
    · obtain ⟨below, rfl⟩ := edit_path he'
      simp only [hF, hG]
      exact loadbalancer_commutes hkind G v
    · have hsame := hagree hlb o ho o' ho' hst hst' kind kind' hkind hkind'
      subst hsame
      simp only [hF, hG, touch_loadbalancer hkind, touch_loadbalancer hkind']

theorem loadbalancer_last (hkind : balancerOf o.2 = some kind)
    (hst : settingOf o.1 = some .loadbalancer)
    (h : (l ++ [o]).foldlM (actAt n (.name "loadbalancer")) v = some v') :
    v'.index (.name "path") = some (.string kind.1) ∧
      v'.index (.name "type") = some (.string kind.2) := by
  rw [foldlM_snoc] at h
  obtain ⟨w, -, h⟩ := Option.bind_eq_some_iff.mp h
  have hact : actAt n (.name "loadbalancer") w o = touch n o.2 .loadbalancer w := by
    rw [actAt, hst]
    exact if_pos (mem_singleton_self _)
  rw [hact] at h
  have hw : w.isTable = true := by
    by_contra hw
    rw [(loadbalancer_eq_none hkind).mpr (Bool.not_eq_true _ ▸ hw)] at h
    cases h
  obtain ⟨t, rfl⟩ := isTable_iff.mp hw
  rw [loadbalancer_table hkind] at h
  cases h
  constructor
  · show some (update _ _ _ _) = _
    rw [update_of_ne (by decide), update_self]
  · exact congrArg some (update_self _ _ _)

/-! ## One field -/

theorem linkAction_eq_none (hk : k ∉ links) (n : Numerals N) (o : String × String) :
    linkAction n k o = none := by
  by_contra haction
  obtain ⟨a, haction⟩ := Option.ne_none_iff_exists'.mp haction
  obtain ⟨st, hst, hfields, ha⟩ := linkAction_eq_some haction
  obtain ⟨b, hb, -, rfl⟩ := exists_branch hst
  have htarget : b.setting.target = none := by
    cases hsetting : b.setting with
    | recDelay i | wrrBandwidth output | balancer field resolver =>
      rw [hsetting] at ha
      cases ha
    | _ => rfl
  rcases branches_outside b hb htarget with hsetting | hlinks
  · rw [hsetting] at ha
    cases ha
  · exact hk (hlinks k hfields)

/-- Outside of the links, and where a link is not a table, no option decides whether another one
raises. -/
theorem foldlM_eq_none_alone (h : k ∉ links ∨ v.isTable = false) (l : List (String × String)) :
    l.foldlM (actAt n k) v = none ↔ ∃ o ∈ l, actAt n k v o = none := by
  rcases h with hk | hv
  · exact foldlM_eq_none_iff (I := fun _ => True) trivial fun o _ v v' _ hact =>
      ⟨trivial, fun o' _ => actAt_raiseFree hk n o' o v v' hact⟩
  · by_cases hk : k ∈ links
    · refine foldlM_eq_none_iff (I := fun w => w = v) rfl fun o _ w w' hw hact => ?_
      rw [hw] at hact ⊢
      rcases actAt_of_not_table hk hv o with hnone | hsome
      · rw [hnone] at hact
        cases hact
      · rw [hsome] at hact
        cases hact
        exact ⟨rfl, fun _ _ => Iff.rfl⟩
    · exact foldlM_eq_none_iff (I := fun _ => True) trivial fun o _ v v' _ hact =>
        ⟨trivial, fun o' _ => actAt_raiseFree hk n o' o v v' hact⟩

theorem hopelessAt_alone (h : k ∉ links ∨ v.isTable = false) :
    HopelessAt n os k v ↔ ∃ o ∈ os, actAt n k v o = none := by
  constructor
  · rintro ⟨o, ho, hnone, -⟩
    exact ⟨o, ho, hnone⟩
  · rintro ⟨o, ho, hnone⟩
    rcases h with hk | hv
    · refine ⟨o, ho, hnone, fun a ha => ?_⟩
      rw [linkAction_eq_none hk] at ha
      cases ha
    · exact hopelessAt_of_not_table hv ⟨o, ho, hnone⟩

theorem link_cases (k : LuaKey) (v : LuaValue N) :
    (k ∈ links ∧ ∃ t, v = .table t) ∨ (k ∉ links ∨ v.isTable = false) := by
  by_cases hk : k ∈ links
  · cases hv : v.isTable with
    | true => exact .inl ⟨hk, isTable_iff.mp hv⟩
    | false => exact .inr (.inr rfl)
  · exact .inr (.inl hk)

theorem foldlM_table (hk : k ∈ links) (t : LuaKey → LuaValue N) (l : List (String × String)) :
    l.foldlM (actAt n k) (.table t) = ((actions n l k).foldlM Sections.act
      (sectionsOf (.table t))).map fun s => .table (withSections t s) := by
  have hlink := foldlM_link (n := n) hk t (sectionsOf (.table t)) l
  rwa [withSections_sectionsOf] at hlink

/-- **A hopeless option** raises in every order. -/
theorem HopelessAt.doomed (h : HopelessAt n os k v) : Doomed (actAt n k) v os := by
  intro l hl
  rcases link_cases k v with ⟨hk, t, rfl⟩ | halone
  · have hhope := (hopelessAt_link hk).mp h
    have hnone := hhope.doomed (actions n l k) (hl.filterMap _)
    rw [foldlM_table hk, hnone]
    rfl
  · obtain ⟨o, ho, hnone⟩ := (hopelessAt_alone halone).mp h
    exact (foldlM_eq_none_alone halone l).mpr ⟨o, hl.mem_iff.mpr ho, hnone⟩

theorem hopelessAt_of_sorted (hl : l.Perm os)
    (hsorted : l.Pairwise fun o o' => optionRank n o ≤ optionRank n o')
    (h : l.foldlM (actAt n k) v = none) : HopelessAt n os k v := by
  rcases link_cases k v with ⟨hk, t, rfl⟩ | halone
  · rw [foldlM_table hk] at h
    have hhope : Hopeless (sectionsOf (.table t)) (actions n l k) := by
      by_contra hhope
      obtain ⟨s, hs⟩ := exists_run hhope (timely_of_sorted (sorted_actions hsorted k))
      rw [hs] at h
      cases h
    exact (hopelessAt_link hk).mpr (hhope.perm (hl.filterMap _))
  · obtain ⟨o, ho, hnone⟩ := (foldlM_eq_none_alone halone l).mp h
    exact (hopelessAt_alone halone).mpr ⟨o, hl.mem_iff.mp ho, hnone⟩

/-- The options do not get in each other's way. -/
structure Compatible (n : Numerals N) (base : LuaKey → LuaValue N)
    (os : List (String × String)) : Prop where
  /-- No option raises by itself. -/
  alone : ∀ o ∈ os, overwrite n (.table base) o ≠ none
  /-- The sections of a link are not changed in two ways. -/
  links : ∀ link ∈ links, ∀ t, base link = .table t →
    Consistent (sectionsOf (.table t)) (actions n os link)
  kinds : KindsAgree os

/-- **A field** that no option is hopeless at. -/
theorem steadyAt_iff (hhope : ¬ HopelessAt n (options str) k v) :
    Steady (actAt n k) v (options str) ↔ (∀ o ∈ options str, actAt n k v o ≠ none) ∧
      (k ∈ links → ∀ t, v = .table t →
        Consistent (sectionsOf (.table t)) (actions n (options str) k)) ∧
      (k = .name "loadbalancer" → KindsAgree (options str)) := by
  rcases link_cases k v with ⟨hk, t, rfl⟩ | halone
  · have hsteady : Steady (actAt n k) (.table t) (options str) ↔
        Steady Sections.act (sectionsOf (.table t)) (actions n (options str) k) := by
      have himage : Steady (actAt n k) (.table (withSections t (sectionsOf (.table t))))
          (options str) ↔ _ :=
        steady_image (g := fun s => LuaValue.table (withSections t s)) (f := linkAction n k)
          (withSections_injective t) fun l => foldlM_link hk t (sectionsOf (.table t)) l
      rw [withSections_sectionsOf] at himage
      exact himage
    rw [hsteady, steady_iff plain_actions,
      or_iff_right fun h => hhope ((hopelessAt_link hk).mpr h)]
    constructor
    · intro hagree
      refine ⟨fun o ho hnone => ?_, fun _ t' ht' => ?_, fun hlb => ?_⟩
      · cases haction : linkAction n k o with
        | none =>
          rw [actAt_of_no_action hk haction] at hnone
          cases hnone
        | some a =>
          exact hagree.alone a (mem_filterMap.mpr ⟨o, ho, haction⟩)
            ((actAt_link haction).mp hnone)
      · cases ht'
        exact hagree.toConsistent
      · rw [hlb] at hk
        exact absurd hk (by decide)
    · rintro ⟨hall, hcons, -⟩
      refine ⟨hcons hk t rfl, fun a ha hnone => ?_⟩
      obtain ⟨o, ho, haction⟩ := mem_filterMap.mp ha
      exact hall o ho ((actAt_link haction).mpr hnone)
  · have hall : ∀ o ∈ options str, actAt n k v o ≠ none := fun o ho hnone =>
      hhope ((hopelessAt_alone halone).mpr ⟨o, ho, hnone⟩)
    have hrun {l : List (String × String)} (hl : l.Perm (options str)) :
        ∃ v', l.foldlM (actAt n k) v = some v' := by
      refine Option.ne_none_iff_exists'.mp fun hnone => ?_
      obtain ⟨o, ho, hnone⟩ := (foldlM_eq_none_alone halone l).mp hnone
      exact hall o (hl.mem_iff.mp ho) hnone
    by_cases hk : k ∈ links
    · -- a link that is not a table stays as it is
      have hv := halone.resolve_left (not_not.mpr hk)
      have hstay {l : List (String × String)} {v' : LuaValue N}
          (h : l.foldlM (actAt n k) v = some v') : v' = v := by
        refine foldlM_inv (I := fun w => w = v) rfl (fun o _ w w' hw hact => ?_) h
        rw [hw] at hact
        rcases actAt_of_not_table hk hv o with hnone | hsome
        · rw [hnone] at hact
          cases hact
        · rw [hsome] at hact
          exact (Option.some.inj hact).symm
      refine iff_of_true (fun l₁ l₂ h₁ h₂ => ?_) ⟨hall, fun _ t ht => ?_, fun hlb => ?_⟩
      · obtain ⟨v₁, hv₁⟩ := hrun h₁
        obtain ⟨v₂, hv₂⟩ := hrun h₂
        rw [hv₁, hv₂, hstay hv₁, hstay hv₂]
      · rw [ht] at hv
        cases hv
      · rw [hlb] at hk
        exact absurd hk (by decide)
    · constructor
      · intro hsteady
        refine ⟨hall, fun h => absurd h hk, ?_⟩
        rintro rfl o ho o' ho' hst hst' kind kind' hkind hkind'
        -- each of the two options may be the last one
        have hlast {o : String × String} (ho : o ∈ options str) :
            ∃ l : List (String × String), (l ++ [o]).Perm (options str) := by
          obtain ⟨before, after, heq⟩ := append_of_mem ho
          refine ⟨before ++ after, ?_⟩
          rw [heq]
          exact (perm_append_singleton o (before ++ after)).trans perm_middle.symm
        obtain ⟨l, hl⟩ := hlast ho
        obtain ⟨l', hl'⟩ := hlast ho'
        obtain ⟨w, hw⟩ := hrun hl
        have hw' := (hsteady _ _ hl' hl).trans hw
        obtain ⟨hpath, htype⟩ := loadbalancer_last hkind hst hw
        obtain ⟨hpath', htype'⟩ := loadbalancer_last hkind' hst' hw'
        rw [hpath] at hpath'
        rw [htype] at htype'
        exact Prod.ext (LuaValue.string.inj (Option.some.inj hpath'))
          (LuaValue.string.inj (Option.some.inj htype'))
      · rintro ⟨-, -, hkinds⟩ l₁ l₂ h₁ h₂
        refine foldlM_perm (h₁.trans h₂.symm) fun o ho o' ho' v => ?_
        exact actAt_commutes hk (h₁.mem_iff.mp ho) (h₁.mem_iff.mp ho') hkinds v

theorem exists_actAt_eq_none {base : LuaKey → LuaValue N} (ho : Accepted o) :
    overwrite n (.table base) o = none ↔ ∃ k, actAt n k (base k) o = none := by
  constructor
  · intro hnone
    by_contra hall
    choose t ht using fun k => Option.ne_none_iff_exists'.mp fun hk => hall ⟨k, hk⟩
    rw [(overwrite_eq_some ho).mpr ⟨t, rfl, ht⟩] at hnone
    cases hnone
  · rintro ⟨k, hk⟩
    by_contra hsome
    obtain ⟨c, hc⟩ := Option.ne_none_iff_exists'.mp hsome
    obtain ⟨t, -, ht⟩ := (overwrite_eq_some ho).mp hc
    rw [ht k] at hk
    cases hk

/-- **When the order of the options does not count**: if one of them raises in every order, or if
they do not get in each other's way. -/
theorem overwrites_ordered_iff (n : Numerals N) (base : LuaKey → LuaValue N) (str : String) :
    (∀ order₁ order₂ : List (String × String), order₁.Perm (options str) →
      order₂.Perm (options str) →
        parseCli n order₁ (.table base) = parseCli n order₂ (.table base)) ↔
      (∃ k, HopelessAt n (options str) k (base k)) ∨ Compatible n base (options str) := by
  have haccepted : ∀ o ∈ options str, Accepted o := fun o => accepted_options
  have horder : (∀ order₁ order₂ : List (String × String), order₁.Perm (options str) →
      order₂.Perm (options str) →
        parseCli n order₁ (.table base) = parseCli n order₂ (.table base)) ↔
      Steady (overwriteFields n) base (options str) := by
    refine forall₄_congr fun l₁ l₂ h₁ h₂ => ?_
    rw [parseCli_table fun o ho => haccepted o (h₁.mem_iff.mp ho),
      parseCli_table fun o ho => haccepted o (h₂.mem_iff.mp ho)]
    exact (map_injective fun _ _ => LuaValue.table.inj).eq_iff
  obtain ⟨l, hl, hsorted⟩ := exists_sorted (optionRank n) (options str)
  rw [horder, (cellwise_overwrite haccepted).steady_iff hl fun k hnone =>
    (hopelessAt_of_sorted hl hsorted hnone).doomed]
  by_cases hhope : ∃ k, HopelessAt n (options str) k (base k)
  · obtain ⟨k, hk⟩ := hhope
    exact iff_of_true (.inl ⟨k, hk.doomed⟩) (.inl ⟨k, hk⟩)
  · rw [or_iff_right hhope]
    have hnone k : ¬ HopelessAt n (options str) k (base k) := fun hk => hhope ⟨k, hk⟩
    have hfield k := steadyAt_iff (hnone k)
    constructor
    · rintro (⟨k, hdoomed⟩ | hsteady)
      · exact absurd ⟨k, hopelessAt_of_sorted hl hsorted (hdoomed l hl)⟩ hhope
      · refine ⟨fun o ho hnone => ?_, fun link hlink t ht => ?_, ?_⟩
        · obtain ⟨k, hk⟩ := (exists_actAt_eq_none (haccepted o ho)).mp hnone
          exact ((hfield k).mp (hsteady k)).1 o ho hk
        · exact ((hfield link).mp (hsteady link)).2.1 hlink t ht
        · exact ((hfield _).mp (hsteady (.name "loadbalancer"))).2.2 rfl
    · intro hcompatible
      refine .inr fun k => (hfield k).mpr ⟨fun o ho hnone => ?_, fun hk t ht => ?_, fun _ => ?_⟩
      · exact hcompatible.alone o ho ((exists_actAt_eq_none (haccepted o ho)).mpr ⟨k, hnone⟩)
      · exact hcompatible.links k hk t ht
      · exact hcompatible.kinds

/-- A configuration whose links have both sections. -/
def bothSections : LuaKey → LuaValue Nat := fun k =>
  if k ∈ links then .table fun k =>
    if k = Part.delayer.key ∨ k = Part.rateLimiter.key then empty else .nil
  else .nil

/-- Whether the packets of the first link are delayed by their timestamps. -/
def stamped (cfg : Option (LuaValue Nat)) : Bool :=
  (do
    let link ← (← cfg).index (.name "link1")
    let delayer ← link.index Part.delayer.key
    let timestamp ← delayer.index timestampKey
    return timestamp.truthy).getD false

/-- Taking the rate limiter of a link away before or after timestamps are asked for. -/
theorem overwrites_ts_r1 : ¬ ∀ (base : LuaKey → LuaValue Nat) (str : String)
    (order₁ order₂ : List (String × String)), order₁.Perm (options str) →
      order₂.Perm (options str) →
        parseCli ⟨String.toNat?, (· * ·)⟩ order₁ (.table base) =
          parseCli ⟨String.toNat?, (· * ·)⟩ order₂ (.table base) := by
  intro h
  have hoptions : options "-r1=off;-ts=true" = [("ts", "true"), ("r1", "off")] := by decide +kernel
  have hsame := h bothSections "-r1=off;-ts=true" [("ts", "true"), ("r1", "off")]
    [("r1", "off"), ("ts", "true")] (by rw [hoptions])
    (by rw [hoptions]; exact List.Perm.swap _ _ _)
  have hfirst : stamped (parseCli ⟨String.toNat?, (· * ·)⟩ [("ts", "true"), ("r1", "off")]
      (.table bothSections)) = true := by decide +kernel
  have hsecond : stamped (parseCli ⟨String.toNat?, (· * ·)⟩ [("r1", "off"), ("ts", "true")]
      (.table bothSections)) = false := by decide +kernel
  rw [hsame] at hfirst
  cases hfirst

end Snabb.Overwrites
