import Snabb.HybridAccess.Overwrites.Model
import Mathlib.Data.List.TakeWhile

/-!
# The fields that options overwrite

The keys of the branches of `parse_cli` are different, and the values that some of them compare with
by mistake have an underscore, which no value has. So an option is about one setting, and a setting
is about the fields of the configuration that it names, each by itself.

`cellwise_overwrite`: the fields are independent cells.
-/

namespace Snabb.Overwrites

open Foundation List
open Function (update update_eq_self update_idem update_of_ne update_self)
open Option (map_some bind_some some.inj)

open LuaValue hiding nil

variable {N : Type}

/-! ## Options -/

/-- The setting that a key is for. -/
def settingIn (bs : List Branch) (key : String) : Option Setting :=
  (bs.find? fun b => key ∈ b.keys).map Branch.setting

def settingOf (key : String) : Option Setting := settingIn branches key

/-- What the pattern of `parse_cli` lets through. -/
structure Accepted (o : String × String) : Prop where
  key : ∀ c ∈ o.1.toList, isWord c
  value : ∀ c ∈ o.2.toList, isWord c ∨ c = '.'

variable {o : String × String} {str : String} {bs : List Branch} {cfg c : LuaValue N}
  {g : LuaValue N → Option (LuaValue N)} {os : List (String × String)}

theorem accepted_of_match {item : List Char} (h : matchOption item = some o) : Accepted o := by
  unfold matchOption at h
  split at h
  · split at h
    · simp only at h
      split at h
      · cases h
        refine ⟨fun c hc => ?_, fun c hc => ?_⟩
        · rw [String.toList_ofList] at hc
          exact mem_takeWhile_imp hc
        · rw [String.toList_ofList] at hc
          have hword := mem_takeWhile_imp hc
          simpa using hword
      · cases h
    · cases h
  · cases h

theorem accepted_options (h : o ∈ options str) : Accepted o := by
  obtain ⟨e, he, rfl⟩ := mem_map.mp h
  have hall : ∀ e ∈ (overwrites str).entries, Accepted (e.1, e.2) := by
    have hinit : ∀ e ∈ (∅ : Table String String).entries, Accepted (e.1, e.2) := nofun
    unfold overwrites
    generalize (∅ : Table String String) = table at hinit
    induction (str.toList.splitOn ';').filter (· ≠ []) generalizing table with
    | nil => exact hinit
    | cons item items ih =>
      rw [foldl_cons]
      refine ih _ ?_
      cases hmatch : matchOption item with
      | none => exact hinit
      | some o =>
        intro e he
        rcases mem_cons.mp he with rfl | he
        · exact accepted_of_match hmatch
        · exact hinit e ((kerase_sublist _ _).subset he)
  exact hall e he

theorem nodup_options (str : String) : ((options str).map Prod.fst).Nodup := by
  have hnodup := (overwrites str).nodupKeys
  rw [options, map_map]
  exact hnodup

theorem option_of_key {key v v' : String} (h : (key, v) ∈ options str)
    (h' : (key, v') ∈ options str) : v = v' := by
  have hinj := inj_on_of_nodup_map (nodup_options str) h h' rfl
  exact congrArg Prod.snd hinj

theorem Accepted.ne_of_underscore (h : Accepted o) {s : String}
    (hs : '_' ∈ s.toList) : o.1 ≠ s ∧ o.2 ≠ s := by
  constructor
  · rintro rfl
    exact absurd (h.key _ hs) (by decide)
  · rintro rfl
    exact absurd (h.value _ hs) (by decide)

theorem overwriteBy_none {n : Numerals N} (hkeys : ∀ b ∈ bs, o.1 ∉ b.keys)
    (hvalues : ∀ b ∈ bs, b.value ≠ some o.2) : overwriteBy n bs cfg o = some cfg := by
  induction bs with
  | nil => rfl
  | cons b bs ih =>
    rw [overwriteBy, if_neg]
    · exact ih (fun b' hb' => hkeys b' (mem_cons_of_mem b hb'))
        fun b' hb' => hvalues b' (mem_cons_of_mem b hb')
    · rintro (hkey | hvalue)
      · exact hkeys b mem_cons_self hkey
      · exact hvalues b mem_cons_self hvalue

/-- A branch whose key is the one of the option. -/
def takeBranch (n : Numerals N) (value : String) (cfg : LuaValue N) (s : Setting) :
    Option (LuaValue N) := do
  if ← guard cfg s then perform n value cfg s
  else some cfg

/-- The branch for a key, where no two branches are for the same one. -/
theorem overwriteBy_eq {n : Numerals N} (hkeys : (bs.flatMap Branch.keys).Nodup)
    (hvalues : ∀ b ∈ bs, b.value ≠ some o.2) : overwriteBy n bs cfg o =
      match settingIn bs o.1 with
      | none => some cfg
      | some s => takeBranch n o.2 cfg s := by
  induction bs with
  | nil => rfl
  | cons b bs ih =>
    have hvalues' : ∀ b' ∈ bs, b'.value ≠ some o.2 := fun b' hb' =>
      hvalues b' (mem_cons_of_mem b hb')
    rw [flatMap_cons, nodup_append] at hkeys
    obtain ⟨-, hrest, hdisjoint⟩ := hkeys
    rw [overwriteBy, settingIn]
    by_cases hkey : o.1 ∈ b.keys
    · have hnone : overwriteBy n bs cfg o = some cfg := overwriteBy_none (fun b' hb' hkey' =>
        hdisjoint _ hkey _ (mem_flatMap.mpr ⟨b', hb', hkey'⟩) rfl) hvalues'
      rw [if_pos (.inl hkey), List.find?_cons_of_pos (by simpa using hkey)]
      simp only [hnone]
      rfl
    · rw [if_neg, List.find?_cons_of_neg (by simpa using hkey)]
      · exact ih hrest hvalues'
      · exact not_or.mpr ⟨hkey, hvalues b mem_cons_self⟩

theorem branches_keys : (branches.flatMap Branch.keys).Nodup := by decide

theorem branches_values : ∀ b ∈ branches, ∀ s ∈ b.value, '_' ∈ s.toList := by decide

/-- **An option** is about the setting of its key. -/
theorem overwrite_setting (n : Numerals N) (cfg : LuaValue N) (h : Accepted o) : overwrite n cfg o =
      match settingOf o.1 with
      | none => some cfg
      | some s => takeBranch n o.2 cfg s := by
  refine overwriteBy_eq branches_keys fun b hb heq => ?_
  exact (h.ne_of_underscore (branches_values b hb _ heq)).2 rfl

/-! ## Fields -/

/-- The fields of the configuration that a setting is about. -/
def Setting.fields : Setting → List LuaKey
  | delay link => [.name link]
  | delayCorr link => [.name link]
  | rate link => [.name link]
  | rateLimiter link _ _ => [.name link]
  | timestamp => [.name "link1", .name "link2"]
  | recDelay _ => [.name "recombination"]
  | loadbalancer => [.name "loadbalancer"]
  | wrrBandwidth _ => [.name "loadbalancer"]
  | balancer _ _ => [.name "loadbalancer"]

/-- Do something if a part is there. -/
def guarded (part : String) (F : LuaValue N → Option (LuaValue N)) (v : LuaValue N) :
    Option (LuaValue N) := do
  let x ← v.index (.name part)
  if x.isNil then some v else F v

/-- What a setting does to one of its fields. -/
def touch (n : Numerals N) (value : String) : Setting → LuaValue N → Option (LuaValue N)
  | .delay _ => guarded "delayer" fun v =>
    if value = "off" then setField [] (.name "delayer") (some .nil) v
    else setField [.name "delayer"] (.name "delay") (resolveTime n value) v
  | .delayCorr _ => guarded "delayer" fun v =>
    setField [.name "delayer"] (.name "correction") (resolveTime n value) v
  | .rate _ => fun v =>
    if value = "off" then setField [] (.name "rate_limiter") (some .nil) v
    else setField [.name "rate_limiter"] (.name "rate") (resolveBandwidth n value) v
  | .rateLimiter _ field resolver => guarded "rate_limiter" fun v =>
    setField [.name "rate_limiter"] (.name field) (resolver.resolve n value) v
  | .timestamp => guarded "rate_limiter" <| guarded "delayer" fun v => do
    let w : LuaValue N := .boolean (resolveBool value)
    let v ← setField [.name "rate_limiter"] (.name "timestamp") (some w) v
    setField [.name "delayer"] (.name "timestamp") (some w) v
  | .recDelay i => fun v =>
    setField [.name "config", .name "link_delays"] (.number i) (resolveTime n value) v
  | .loadbalancer => fun v =>
    match balancerOf value with
    | some (path, type) => do
      let v ← setField [] (.name "path") (some (.string path)) v
      setField [] (.name "type") (some (.string type)) v
    | none => some v
  | .wrrBandwidth output => fun v => do
    let config ← v.index (.name "config")
    let bandwidths ← config.index (.name "bandwidths")
    let v ← if bandwidths.truthy then some v
      else setField [.name "config"] (.name "bandwidths") (some empty) v
    setField [.name "config", .name "bandwidths"] (.name output) (some (n.value value)) v
  | .balancer field resolver => fun v =>
    setField [.name "config"] (.name field) (resolver.resolve n value) v

/-- What an option does to a field of the configuration. -/
def actAt (n : Numerals N) (k : LuaKey) (v : LuaValue N) (o : String × String) :
    Option (LuaValue N) :=
  match settingOf o.1 with
  | none => some v
  | some s => if k ∈ s.fields then touch n o.2 s v else some v

variable {n : Numerals N} {t t' : LuaKey → LuaValue N} {value link part : String} {k : LuaKey}
  {path : List LuaKey} {F : LuaValue N → Option (LuaValue N)}

/-- Change a field of the configuration. -/
def lift (k : LuaKey) (F : LuaValue N → Option (LuaValue N)) (t : LuaKey → LuaValue N) :
    Option (LuaValue N) :=
  (F (t k)).map fun v => .table (update t k v)

theorem lift_some (k : LuaKey) (t : LuaKey → LuaValue N) : lift k some t = some (.table t) := by
  rw [lift, map_some, update_eq_self]

theorem setField_lift (k : LuaKey) (path : List LuaKey) (field : LuaKey) (w : Option (LuaValue N)) :
    setField (k :: path) field w (.table t) = lift k (setField path field w) t :=
  modifyAt_table t k path _

theorem lift_bind {F G : LuaValue N → Option (LuaValue N)} (hg : ∀ t, g (.table t) = lift k G t) :
    (lift k F t).bind g = lift k (fun v => (F v).bind G) t := by
  rw [lift, lift]
  cases F (t k) with
  | none => rfl
  | some v =>
    show g (.table (update t k v)) = _
    rw [hg, lift, update_self]
    simp only [update_idem]
    rfl

theorem present_eq (link part : String) (t : LuaKey → LuaValue N) :
    present link part (.table t) = ((t (.name link)).index (.name part)).map fun v => !v.isNil := by
  rw [Option.map_eq_bind]
  rfl

theorem guarded_lift (hg : g (.table t) = lift (.name link) F t) :
    (do if ← present link part (.table t) then g (.table t) else some (.table t)) =
      lift (.name link) (guarded part F) t := by
  rw [present_eq]
  rw [lift, guarded]
  cases (t (.name link)).index (.name part) with
  | none => rfl
  | some x =>
    show (if (!x.isNil) = true then g (.table t) else some (.table t)) =
      Option.map _ (if x.isNil = true then some (t (.name link)) else F (t (.name link)))
    cases x.isNil with
    | true => exact (lift_some _ t).symm
    | false => exact hg

/-- **A setting of one field**. -/
theorem takeBranch_lift {s : Setting} (hs : s.fields = [k]) :
    takeBranch n value (.table t) s = lift k (touch n value s) t := by
  cases s with
  | delay link =>
    cases hs
    refine guarded_lift (g := fun cfg => perform n value cfg (.delay link)) ?_
    simp only [perform]
    split
    · exact setField_lift _ _ _ _
    · exact setField_lift _ _ _ _
  | delayCorr link =>
    cases hs
    exact guarded_lift (g := fun cfg => perform n value cfg (.delayCorr link))
      (setField_lift _ _ _ _)
  | rate link =>
    cases hs
    show perform n value (.table t) (.rate link) = _
    simp only [perform, touch]
    split
    · exact setField_lift _ _ _ _
    · exact setField_lift _ _ _ _
  | rateLimiter link field resolver =>
    cases hs
    exact guarded_lift (g := fun cfg => perform n value cfg (.rateLimiter link field resolver))
      (setField_lift _ _ _ _)
  | timestamp => cases hs
  | recDelay i | balancer field resolver =>
    cases hs
    exact setField_lift _ _ _ _
  | loadbalancer =>
    cases hs
    show perform n value (.table t) .loadbalancer = _
    simp only [perform, touch]
    cases balancerOf value with
    | none => exact (lift_some _ t).symm
    | some kind =>
      show (setField _ _ _ _).bind _ = _
      rw [setField_lift]
      exact lift_bind fun t => setField_lift _ _ _ _
  | wrrBandwidth output =>
    cases hs
    show Option.bind ((t (.name "loadbalancer")).index (.name "config")) _ = _
    simp only [lift, touch]
    cases (t (.name "loadbalancer")).index (.name "config") with
    | none => rfl
    | some config =>
      show Option.bind (config.index (.name "bandwidths")) _ = Option.map _ (Option.bind _ _)
      cases hbandwidths : config.index (.name "bandwidths") with
      | none =>
        show none = Option.map _ (Option.bind (config.index (.name "bandwidths")) _)
        rw [hbandwidths]
        rfl
      | some bandwidths =>
        show Option.bind _ _ = Option.map _ (Option.bind (config.index (.name "bandwidths")) _)
        rw [hbandwidths]
        simp only [bind_some]
        by_cases htruthy : bandwidths.truthy = true
        · rw [if_pos htruthy, if_pos htruthy]
          exact setField_lift _ _ _ _
        · rw [if_neg htruthy, if_neg htruthy]
          rw [setField_lift]
          exact lift_bind fun t => setField_lift _ _ _ _

theorem setTimestamps_lift (n : Numerals N) (link value : String) (t : LuaKey → LuaValue N) :
    setTimestamps link value (.table t) = lift (.name link) (touch n value .timestamp) t := by
  show Option.bind (present link "rate_limiter" (.table t)) _ = _
  rw [present_eq, lift, touch, guarded]
  cases (t (.name link)).index (.name "rate_limiter") with
  | none => rfl
  | some limiter =>
    simp only [map_some, bind_some]
    show _ = Option.map _ (if limiter.isNil = true then _ else guarded _ _ _)
    cases limiter.isNil with
    | true => exact (lift_some _ t).symm
    | false =>
      rw [if_neg Bool.false_ne_true]
      show Option.bind (present link "delayer" (.table t)) _ = Option.map _ (guarded _ _ _)
      rw [present_eq, guarded]
      cases (t (.name link)).index (.name "delayer") with
      | none => rfl
      | some delayer =>
        simp only [map_some]
        show _ = Option.map _ (if delayer.isNil = true then _ else _)
        cases delayer.isNil with
        | true => exact (lift_some _ t).symm
        | false =>
          rw [setField_lift]
          exact lift_bind fun t => setField_lift _ _ _ _

theorem lift_eq_some : lift k F t = some c ↔ ∃ t', c = .table t' ∧
    F (t k) = some (t' k) ∧ ∀ j, j ≠ k → t' j = t j := by
  rw [lift, Option.map_eq_some_iff]
  constructor
  · rintro ⟨v, hv, rfl⟩
    exact ⟨_, rfl, by rw [hv, update_self], fun j hj => update_of_ne hj _ _⟩
  · rintro ⟨t', rfl, hk, hother⟩
    refine ⟨t' k, hk, congrArg LuaValue.table (funext fun j => ?_)⟩
    by_cases hj : j = k
    · rw [hj, update_self]
    · rw [update_of_ne hj, hother j hj]

/-- **What an option does** to each field. -/
theorem overwrite_eq_some (ho : Accepted o) :
    overwrite n (.table t) o = some c ↔
      ∃ t', c = .table t' ∧ ∀ k, actAt n k (t k) o = some (t' k) := by
  rw [overwrite_setting n _ ho]
  cases hsetting : settingOf o.1 with
  | none =>
    have hact k v : actAt n k v o = some v := by rw [actAt, hsetting]
    simp only [hact, Option.some.injEq]
    constructor
    · rintro rfl
      exact ⟨t, rfl, fun _ => rfl⟩
    · rintro ⟨t', rfl, ht'⟩
      exact congrArg LuaValue.table (funext ht')
  | some s =>
    have hact k v :
        actAt n k v o = if k ∈ s.fields then touch n o.2 s v else some v := by rw [actAt, hsetting]
    simp only [hact]
    by_cases hts : s = .timestamp
    · subst hts
      have htake : takeBranch n o.2 (.table t) .timestamp =
          (lift (.name "link1") (touch n o.2 .timestamp) t).bind (setTimestamps "link2" o.2) := by
        rw [← setTimestamps_lift]
        rfl
      have hne : LuaKey.name "link1" ≠ LuaKey.name "link2" := by decide
      rw [htake]
      constructor
      · intro h
        obtain ⟨c₁, hfirst, hsecond⟩ := Option.bind_eq_some_iff.mp h
        obtain ⟨t₁, rfl, h₁, hother₁⟩ := lift_eq_some.mp hfirst
        rw [setTimestamps_lift n] at hsecond
        obtain ⟨t₂, rfl, h₂, hother₂⟩ := lift_eq_some.mp hsecond
        refine ⟨t₂, rfl, fun k => ?_⟩
        by_cases hk₁ : k = .name "link1"
        · rw [hk₁, if_pos (by simp [Setting.fields]), hother₂ _ hne, h₁]
        · by_cases hk₂ : k = .name "link2"
          · rw [hk₂, if_pos (by simp [Setting.fields]), ← h₂, hother₁ _ hne.symm]
          · rw [if_neg (by simp [Setting.fields, hk₁, hk₂]), hother₂ k hk₂, hother₁ k hk₁]
      · rintro ⟨t', rfl, ht'⟩
        have h₁ := ht' (.name "link1")
        have h₂ := ht' (.name "link2")
        rw [if_pos (by simp [Setting.fields])] at h₁ h₂
        refine Option.bind_eq_some_iff.mpr ⟨.table (update t (.name "link1")
          (t' (.name "link1"))), ?_, ?_⟩
        · exact lift_eq_some.mpr ⟨_, rfl, by rw [h₁, update_self],
            fun j hj => update_of_ne hj _ _⟩
        · rw [setTimestamps_lift n]
          refine lift_eq_some.mpr ⟨t', rfl, ?_, fun j hj => ?_⟩
          · rw [update_of_ne hne.symm, h₂]
          · by_cases hj₁ : j = .name "link1"
            · rw [hj₁, update_self]
            · have hstay := ht' j
              rw [if_neg (by simp [Setting.fields, hj, hj₁])] at hstay
              rw [update_of_ne hj₁]
              exact (some.inj hstay).symm
    · obtain ⟨k₀, hfields⟩ : ∃ k₀, s.fields = [k₀] := by
        cases s with
        | timestamp => exact absurd rfl hts
        | _ => exact ⟨_, rfl⟩
      rw [takeBranch_lift hfields, lift_eq_some, hfields]
      refine exists_congr fun t' => and_congr_right fun _ => ?_
      constructor
      · rintro ⟨hk₀, hother⟩ k
        by_cases hk : k = k₀
        · rw [hk, if_pos (mem_singleton_self k₀), hk₀]
        · rw [if_neg (by simpa using hk), hother k hk]
      · intro hall
        refine ⟨?_, fun j hj => ?_⟩
        · have hk₀ := hall k₀
          rwa [if_pos (mem_singleton_self k₀)] at hk₀
        · have hstay := hall j
          rw [if_neg (by simpa using hj)] at hstay
          exact (some.inj hstay).symm

/-- An option, as a step of the fields of the configuration. -/
def overwriteFields (n : Numerals N) (t : LuaKey → LuaValue N) (o : String × String) :
    Option (LuaKey → LuaValue N) :=
  match overwrite n (.table t) o with
  | some (.table t') => some t'
  | _ => none

theorem overwriteFields_eq_some (ho : Accepted o) :
    overwriteFields n t o = some t' ↔ ∀ k, actAt n k (t k) o = some (t' k) := by
  have htable t₁ : overwrite n (.table t) o = some (.table t₁) ↔
      ∀ k, actAt n k (t k) o = some (t₁ k) := by
    rw [overwrite_eq_some ho]
    constructor
    · rintro ⟨t₂, heq, hall⟩
      cases heq
      exact hall
    · intro hall
      exact ⟨t₁, rfl, hall⟩
  rw [← htable, overwriteFields]
  cases hrun : overwrite n (.table t) o with
  | none => exact iff_of_false nofun nofun
  | some c =>
    obtain ⟨t₁, rfl, -⟩ := (overwrite_eq_some ho).mp hrun
    simp

theorem cellwise_overwrite (hos : ∀ o ∈ os, Accepted o) :
    Cellwise (overwriteFields n) (actAt n) os := fun o ho _ _ => overwriteFields_eq_some (hos o ho)

theorem parseCli_table (hos : ∀ o ∈ os, Accepted o) (t : LuaKey → LuaValue N) :
    parseCli n os (.table t) = (os.foldlM (overwriteFields n) t).map .table := by
  induction os generalizing t with
  | nil => rfl
  | cons o os ih =>
    have hrest t := ih (fun o' ho' => hos o' (mem_cons_of_mem o ho')) t
    rw [parseCli, foldlM_cons, foldlM_cons]
    cases hrun : overwrite n (.table t) o with
    | none =>
      have hnone : overwriteFields n t o = none := by rw [overwriteFields, hrun]
      rw [hnone]
      rfl
    | some c =>
      obtain ⟨t₁, rfl, -⟩ := (overwrite_eq_some (hos o mem_cons_self)).mp hrun
      have hsome : overwriteFields n t o = some t₁ := by rw [overwriteFields, hrun]
      rw [hsome]
      exact hrest t₁

end Snabb.Overwrites
