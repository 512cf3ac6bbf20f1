import Snabb.Apps.Rss.Model
import Snabb.Foundation.Run

/-!
# Instances of the rss app (`rss:new`, `rss:link`, `rss:unlink`)

The engine starts and stops instances of the app and attaches links to them (`apply_config_actions`
of `core/app.lua`). A class has the function that its filter is compiled to. The one for VLANs and a
BPF expression calls `match_fn_aux`, which is a variable of the module: it has the VLANs of the
filter that was compiled last, of whatever class and instance.

- `separate_iff`: the packets of a class are those of its own filter, in all instances, if and only
  if the filters with VLANs and a BPF expression that are in use name the VLANs of the one compiled
  last; and the entries of `push_link` are the input links that are attached.
- `Separate.config`: then `push_with_vlan` works with classes that match what their filters match.

What `pf.compile_filter` makes of an expression is a parameter. An app that raises ends the run.
-/

namespace Snabb

open List Option

namespace RssApps

open Foundation Rss

/-! ## Filters -/

/-- What an expression is compiled to. -/
abbrev Filter := Bytes → Nat → Bool

/-- What ends a run. -/
inductive Raise where
  | noApp
  | duplicateClass (name : String)
  | illegalClassName (name : String)
  | illegalVlanId (word : List Char)
  | badExpression
  | duplicateLink (name : String)
  | illegalVlan (vlan : Nat)

/-- `match_fn` of a class. -/
inductive MatchFn where
  | always
  | filter (pfFn : Filter)
  | vlans (ids : List Nat)
  | aux (pfFn : Filter)

/-- A call of `match_fn`. The last kind of function looks up `match_fn_aux` when it is called. -/
def MatchFn.call (matchFnAux : Option (List Nat)) (vlan : Nat) (data : Bytes) (length : Nat) :
    MatchFn → Option Bool
  | .always => some true
  | .filter pfFn => some (pfFn data length)
  | .vlans ids => some (decide (vlan ∈ ids))
  | .aux pfFn => matchFnAux.map fun ids => decide (vlan ∈ ids) && pfFn data length

/-- `%s` in a pattern. -/
def isSpace (c : Char) : Bool := c ∈ [' ', '\t', '\n', '\x0b', '\x0c', '\r']

/-- `^%d+$`. -/
def isNumber (word : List Char) : Bool := !word.isEmpty && word.all Char.isDigit

def tonumber (word : List Char) : Nat :=
  word.foldl (fun n c => 10 * n + (c.toNat - '0'.toNat)) 0

/-- The loop over the words behind `VLAN`: the VLANs, and whether there is the word `BPF`. -/
def vlanWords : List (List Char) → Except Raise (List Nat × Bool)
  | [] => .ok ([], false)
  | word :: rest =>
    if isNumber word then do
      let (ids, bpf) ← vlanWords rest
      return (tonumber word :: ids, bpf)
    else if word = "BPF".toList then .ok ([], true)
    else .error (.illegalVlanId word)

/-- What stands behind the first `"BPF "`. -/
def behindBpf : List Char → Option (List Char)
  | [] => none
  | c :: rest => ((c :: rest).dropPrefix? "BPF ".toList).or (behindBpf rest)

/-- `config.filter:match("BPF (.*)")`. -/
def bpfOf (filter : String) : Option String := (behindBpf filter.toList).map String.ofList

/-- `config.filter:match("^VLAN (.*)$")`. -/
def vlansOf (filter : String) : Option (List Char) := filter.toList.dropPrefix? "VLAN ".toList

/-! ## Instances -/

/-- `class_config`. -/
structure ClassConfig where
  name : String
  filter : String
  continue' : Bool

/-- `rss.config`. -/
structure Arg where
  defaultClass : Bool
  classes : List ClassConfig
  removeExtensionHeaders : Bool

structure AppClass where
  name : String
  matchFn : MatchFn
  continue' : Bool

/-- An instance as the engine has it, with the links that are attached and those that were linked as
outputs. An entry of `push_link` calls `push_with_vlan` with the VLAN that the name of the link
says. -/
structure Instance where
  arg : Arg
  classes : List AppClass
  pushLink : String → Option (Option Nat)
  input : List String
  output : List String
  linked : List String

/-- The variable `match_fn_aux`, `push_link` of the class `rss`, and the instances. -/
structure Engine where
  matchFnAux : Option (List Nat)
  pushLink : String → Option (Option Nat)
  apps : String → Option Instance

def Engine.init : Engine := ⟨none, fun _ => none, fun _ => none⟩

section Compile

variable (compile : Option String → Option Filter)

/-- `pf.compile_filter`. -/
def compileFilter (expr : Option String) : Except Raise Filter :=
  match compile expr with
  | some pfFn => .ok pfFn
  | none => .error .badExpression

/-- The function for a filter, and what `match_fn_aux` is then. -/
def compileMatch (filter : String) (matchFnAux : Option (List Nat)) :
    Except Raise (MatchFn × Option (List Nat)) :=
  match vlansOf filter with
  | some vlans => do
    let (ids, bpf) ← vlanWords (vlans.splitOnP isSpace)
    if bpf then
      let pfFn ← compileFilter compile (bpfOf filter)
      return (.aux pfFn, some ids)
    else return (.vlans ids, matchFnAux)
  | none => do
    let pfFn ← compileFilter compile (some filter)
    return (.filter pfFn, matchFnAux)

/-- The loop of `rss:new` over the classes, with those it has added. -/
def addClasses : List ClassConfig → List AppClass → Option (List Nat) →
    Except Raise (List AppClass × Option (List Nat))
  | [], classes, matchFnAux => .ok (classes, matchFnAux)
  | config :: rest, classes, matchFnAux =>
    if config.name = "default" ∨ config.name ∈ classes.map AppClass.name then
      .error (.duplicateClass config.name)
    else do
      let (matchFn, matchFnAux) ← compileMatch compile config.filter matchFnAux
      if config.name.toList.any Char.isAlphanum then
        addClasses rest (classes ++ [⟨config.name, matchFn, config.continue'⟩]) matchFnAux
      else .error (.illegalClassName config.name)

/-! ## The actions of the engine -/

/-- The actions about instances of the app. -/
inductive Action where
  | startApp (app : String) (arg : Arg)
  | stopApp (app : String)
  | linkInput (app link : String)
  | unlinkInput (app link : String)
  | linkOutput (app link : String)
  | unlinkOutput (app link : String)

def Engine.app (s : Engine) (app : String) : Except Raise Instance :=
  match s.apps app with
  | some inst => .ok inst
  | none => .error .noApp

def Engine.setApp (s : Engine) (app : String) (inst : Option Instance) : Engine :=
  { s with apps := Function.update s.apps app inst }

theorem setApp_apps (s : Engine) (app : String) (inst : Option Instance) (app' : String) :
    (s.setApp app inst).apps app' = if app' = app then inst else s.apps app' :=
  Function.update_apply _ _ _ _

theorem app_eq_ok {s : Engine} {app : String} {inst : Instance} (h : s.app app = .ok inst) :
    s.apps app = some inst := by
  unfold Engine.app at h
  cases happ : s.apps app with
  | none =>
    rw [happ] at h
    cases h
  | some inst' =>
    rw [happ] at h
    cases h
    rfl

/-- The VLAN that the name of an input link says: `name:match("^vlan(%d+)$")`. -/
def vlanOf (link : String) : Except Raise (Option Nat) :=
  match (link.toList.dropPrefix? "vlan".toList).filter isNumber with
  | some digits =>
    let vlan := tonumber digits
    if 0 < vlan ∧ vlan < 4095 then .ok (some vlan) else .error (.illegalVlan vlan)
  | none => .ok none

/-- `ops.start_app`: the instance gets a copy of `push_link` of its class. -/
def startApp (s : Engine) (app : String) (arg : Arg) : Except Raise Engine := do
  let (classes, matchFnAux) ← addClasses compile arg.classes [] s.matchFnAux
  let default := if arg.defaultClass then [⟨"default", .always, false⟩] else []
  let inst : Instance := {
    arg := arg
    classes := classes ++ default
    pushLink := s.pushLink
    input := []
    output := []
    linked := [] }
  return { s with matchFnAux := matchFnAux }.setApp app (some inst)

/-- `ops.link_input`, with `rss:link`. -/
def linkInput (s : Engine) (app link : String) : Except Raise Engine := do
  let inst ← s.app app
  if link ∈ inst.input then .error (.duplicateLink link)
  else do
    let vlan ← vlanOf link
    return s.setApp app (some { inst with
      input := inst.input ++ [link]
      pushLink := Function.update inst.pushLink link (some vlan) })

/-- `ops.unlink_input`, with `rss:unlink`. -/
def unlinkInput (s : Engine) (app link : String) : Except Raise Engine := do
  let inst ← s.app app
  return s.setApp app (some { inst with
    input := inst.input.filter (· ≠ link)
    pushLink := Function.update inst.pushLink link none })

/-- `ops.link_output`; what `rss:link` does to the classes then is `Config.linkOutput`. -/
def linkOutput (s : Engine) (app link : String) : Except Raise Engine := do
  let inst ← s.app app
  if link ∈ inst.output then .error (.duplicateLink link)
  else return s.setApp app (some { inst with
    output := inst.output ++ [link]
    linked := inst.linked ++ [link] })

/-- `ops.unlink_output`: the classes keep the link. -/
def unlinkOutput (s : Engine) (app link : String) : Except Raise Engine := do
  let inst ← s.app app
  return s.setApp app (some { inst with output := inst.output.filter (· ≠ link) })

/-- One action. -/
def step (s : Engine) : Action → Except Raise Engine
  | .startApp app arg => startApp compile s app arg
  | .stopApp app => .ok (s.setApp app none)
  | .linkInput app link => linkInput s app link
  | .unlinkInput app link => unlinkInput s app link
  | .linkOutput app link => linkOutput s app link
  | .unlinkOutput app link => unlinkOutput s app link

end Compile

/-- A class as `push_with_vlan` sees it. -/
def AppClass.spec (matchFnAux : Option (List Nat)) (cls : AppClass) : ClassSpec where
  name := cls.name
  matchFn vlan data length := cls.matchFn.call matchFnAux vlan data length = some true
  continue' := cls.continue'

/-- What `push_with_vlan` works with. -/
def Instance.config (weight : String → String → Option Nat) (hashFn : Nat → FlowKey → Nat)
    (matchFnAux : Option (List Nat)) (inst : Instance) : Config :=
  .make weight (inst.classes.map (AppClass.spec matchFnAux)) inst.linked
    inst.arg.removeExtensionHeaders hashFn

/-! ## What a filter says -/

section Separate

variable (compile : Option String → Option Filter)

/-- What a filter says of a packet where it is the only one. -/
def alone (filter : String) (vlan : Nat) (data : Bytes) (length : Nat) : Option Bool :=
  match compileMatch compile filter none with
  | .ok (matchFn, matchFnAux) => matchFn.call matchFnAux vlan data length
  | .error _ => none

/-- The VLANs of a filter that has a BPF expression as well. -/
def vlanBpf (filter : String) : Option (List Nat) :=
  (vlansOf filter).bind fun vlans =>
    match vlanWords (vlans.splitOnP isSpace) with
    | .ok (ids, true) => some ids
    | _ => none

end Separate

variable {compile : Option String → Option Filter} {filter : String}
  {matchFnAux matchFnAux' : Option (List Nat)} {matchFn : MatchFn}

/-- **The function for a filter depends on the filter alone**, and `match_fn_aux` is set by the
filters with VLANs and a BPF expression. -/
theorem compileMatch_eq (compile : Option String → Option Filter) (filter : String)
    (matchFnAux : Option (List Nat)) :
    compileMatch compile filter matchFnAux = (compileMatch compile filter none).map fun r =>
      (r.1, (vlanBpf filter).or matchFnAux) := by
  unfold compileMatch vlanBpf
  cases vlansOf filter with
  | none =>
    cases compileFilter compile (some filter) with
    | ok pfFn => rfl
    | error e => rfl
  | some vlans =>
    cases hwords : vlanWords (vlans.splitOnP isSpace) with
    | error e => simp [hwords, bind, Except.bind, Except.map]
    | ok words =>
      obtain ⟨ids, bpf⟩ := words
      cases bpf with
      | false => simp [hwords, bind, Except.bind, pure, Except.pure, Except.map]
      | true =>
        cases compileFilter compile (bpfOf filter) with
        | ok pfFn => simp [hwords, bind, Except.bind, pure, Except.pure, Except.map]
        | error e => simp [hwords, bind, Except.bind, Except.map]

theorem compileMatch_cases (h : compileMatch compile filter none = .ok (matchFn, matchFnAux)) :
    (vlanBpf filter = none ∧ ∃ f : Nat → Bytes → Nat → Bool, ∀ aux vlan data length,
        matchFn.call aux vlan data length = some (f vlan data length)) ∨
      ∃ ids pfFn, vlanBpf filter = some ids ∧ compile (bpfOf filter) = some pfFn ∧
        matchFn = .aux pfFn ∧ matchFnAux = some ids := by
  have hpf {expr : Option String} {pfFn : Filter} (h : compileFilter compile expr = .ok pfFn) :
      compile expr = some pfFn := by
    unfold compileFilter at h
    cases hexpr : compile expr with
    | none =>
      rw [hexpr] at h
      cases h
    | some pfFn' =>
      rw [hexpr] at h
      cases h
      rfl
  unfold compileMatch at h
  unfold vlanBpf
  cases hvlans : vlansOf filter with
  | none =>
    rw [hvlans] at h
    obtain ⟨pfFn, -, hok⟩ := bind_eq_ok h
    cases hok
    exact .inl ⟨rfl, fun _ data length => pfFn data length, fun _ _ _ _ => rfl⟩
  | some vlans =>
    rw [hvlans] at h
    obtain ⟨⟨ids, bpf⟩, hwords, hrest⟩ := bind_eq_ok h
    cases bpf with
    | false =>
      cases hrest
      refine .inl ⟨by simp [hwords], fun vlan _ _ => decide (vlan ∈ ids), fun _ _ _ _ => rfl⟩
    | true =>
      obtain ⟨pfFn, hpfFn, hok⟩ := bind_eq_ok hrest
      cases hok
      exact .inr ⟨ids, pfFn, by simp [hwords], hpf hpfFn, rfl, rfl⟩

/-! ## What holds in every run -/

/-- The VLANs of the last of some filters that has a BPF expression as well, or `last`. -/
def lastFrom (last : Option (List Nat)) (filters : List String) : Option (List Nat) :=
  filters.foldl (fun last filter => (vlanBpf filter).or last) last

/-- The VLANs of the last of some filters that has a BPF expression as well. -/
def lastVlans (filters : List String) : Option (List Nat) := lastFrom none filters

/-- The filters that an action compiles. -/
def Action.filters : Action → List String
  | .startApp _ arg => arg.classes.map ClassConfig.filter
  | _ => []

/-- All filters that were compiled. -/
def filtersOf (actions : List Action) : List String := actions.flatMap Action.filters

theorem exists_lastVlans {filters : List String} {ids : List Nat} (hmem : filter ∈ filters)
    (h : vlanBpf filter = some ids) : ∃ last, lastVlans filters = some last := by
  have hfold filters last :
      ∃ last', lastFrom (some last) filters = some last' := by
    induction filters generalizing last with
    | nil => exact ⟨last, rfl⟩
    | cons first rest ih =>
      rw [lastFrom, foldl_cons]
      cases vlanBpf first with
      | none => exact ih last
      | some ids => exact ih ids
  obtain ⟨before, behind, rfl⟩ := append_of_mem hmem
  unfold lastVlans lastFrom
  rw [foldl_append, foldl_cons, h]
  exact hfold behind ids

/-- A class is made from its configuration. -/
structure Made (compile : Option String → Option Filter) (config : ClassConfig)
    (cls : AppClass) : Prop where
  name : cls.name = config.name
  matchFn : ∃ matchFnAux, compileMatch compile config.filter none = .ok (cls.matchFn, matchFnAux)

/-- The classes of an instance are made from its configuration, with filters that were compiled, and
`push_link` has the input links. -/
structure Instance.Sound (compile : Option String → Option Filter) (filters : List String)
    (inst : Instance) : Prop where
  classes : ∃ made default, inst.classes = made ++ default ∧
    List.Forall₂ (Made compile) inst.arg.classes made
  compiled : ∀ config ∈ inst.arg.classes, config.filter ∈ filters
  links : ∀ link, (inst.pushLink link).isSome ↔ link ∈ inst.input

structure Engine.Sound (compile : Option String → Option Filter) (filters : List String)
    (s : Engine) : Prop where
  matchFnAux : s.matchFnAux = lastVlans filters
  pushLink : s.pushLink = fun _ => none
  apps : ∀ app inst, s.apps app = some inst → inst.Sound compile filters

variable {filters : List String} {s s' : Engine} {app link : String} {inst : Instance}

theorem addClasses_spec {configs : List ClassConfig} {classes classes' : List AppClass}
    (h : addClasses compile configs classes matchFnAux = .ok (classes', matchFnAux')) :
    ∃ made, classes' = classes ++ made ∧ List.Forall₂ (Made compile) configs made ∧
      matchFnAux' = lastFrom matchFnAux (configs.map ClassConfig.filter) := by
  induction configs generalizing classes matchFnAux with
  | nil =>
    cases h
    exact ⟨[], (append_nil _).symm, .nil, rfl⟩
  | cons config rest ih =>
    rw [addClasses] at h
    split_ifs at h with hdup hname
    swap
    · obtain ⟨_, -, herror⟩ := bind_eq_ok h
      cases herror
    obtain ⟨⟨matchFn, aux⟩, hmatch, hrest⟩ := bind_eq_ok h
    obtain ⟨made, rfl, hmade, rfl⟩ := ih hrest
    rw [compileMatch_eq] at hmatch
    obtain ⟨⟨matchFn', aux'⟩, hnone⟩ : ∃ r, compileMatch compile config.filter none = .ok r := by
      cases hnone : compileMatch compile config.filter none with
      | ok r => exact ⟨r, rfl⟩
      | error e =>
        rw [hnone] at hmatch
        cases hmatch
    rw [hnone] at hmatch
    cases hmatch
    exact ⟨_ :: made, by rw [append_assoc, singleton_append],
      .cons ⟨rfl, aux', hnone⟩ hmade, rfl⟩

theorem Instance.Sound.mono (h : inst.Sound compile filters) (more : List String) :
    inst.Sound compile (filters ++ more) :=
  ⟨h.classes, fun config hconfig => mem_append_left _ (h.compiled config hconfig), h.links⟩

theorem Engine.Sound.setApp (h : s.Sound compile filters) (hinst : inst.Sound compile filters) :
    (s.setApp app (some inst)).Sound compile filters := by
  refine ⟨h.matchFnAux, h.pushLink, fun app' i hi => ?_⟩
  rw [setApp_apps] at hi
  split_ifs at hi with happ
  · cases hi
    exact hinst
  · exact h.apps app' i hi

section

variable (hs : s.Sound compile filters)
include hs

theorem startApp_sound {arg : Arg} (h : startApp compile s app arg = .ok s') :
    s'.Sound compile (filters ++ arg.classes.map ClassConfig.filter) := by
  obtain ⟨⟨classes, aux⟩, hclasses, hs'⟩ := bind_eq_ok h
  cases hs'
  obtain ⟨made, heq, hmade, rfl⟩ := addClasses_spec hclasses
  subst heq
  have hcompiled : Engine.Sound compile (filters ++ arg.classes.map ClassConfig.filter)
      { s with matchFnAux := lastFrom s.matchFnAux (arg.classes.map ClassConfig.filter) } := by
    refine ⟨?_, hs.pushLink, fun app inst hinst => (hs.apps app inst hinst).mono _⟩
    rw [hs.matchFnAux]
    unfold lastVlans lastFrom
    rw [foldl_append]
  refine hcompiled.setApp ⟨⟨_, _, rfl, hmade⟩, fun config hconfig => ?_, fun link => ?_⟩
  · exact mem_append_right _ (mem_map_of_mem hconfig)
  · dsimp only
    rw [hs.pushLink]
    exact iff_of_false (by simp) not_mem_nil

theorem linkInput_sound (h : linkInput s app link = .ok s') : s'.Sound compile filters := by
  obtain ⟨inst, happ, h⟩ := bind_eq_ok h
  split_ifs at h with hdup
  obtain ⟨vlan, -, h⟩ := bind_eq_ok h
  cases h
  have hinst := hs.apps app inst (app_eq_ok happ)
  refine hs.setApp ⟨hinst.classes, hinst.compiled, fun name => ?_⟩
  by_cases hname : name = link
  · subst hname
    simp
  · simp [hname, hinst.links]

theorem unlinkInput_sound (h : unlinkInput s app link = .ok s') : s'.Sound compile filters := by
  obtain ⟨inst, happ, h⟩ := bind_eq_ok h
  cases h
  have hinst := hs.apps app inst (app_eq_ok happ)
  refine hs.setApp ⟨hinst.classes, hinst.compiled, fun name => ?_⟩
  by_cases hname : name = link
  · subst hname
    simp
  · simp [hname, hinst.links]

/-- **One action.** -/
theorem step_sound {action : Action}
    (h : step compile s action = .ok s') : s'.Sound compile (filters ++ action.filters) := by
  cases action with
  | startApp app arg => exact startApp_sound hs h
  | stopApp app =>
    change s'.Sound compile (filters ++ [])
    rw [append_nil]
    cases h
    refine ⟨hs.matchFnAux, hs.pushLink, fun app' i hi => ?_⟩
    rw [setApp_apps] at hi
    split_ifs at hi with happ
    exact hs.apps app' i hi
  | linkInput app link =>
    change s'.Sound compile (filters ++ [])
    rw [append_nil]
    exact linkInput_sound hs h
  | unlinkInput app link =>
    change s'.Sound compile (filters ++ [])
    rw [append_nil]
    exact unlinkInput_sound hs h
  | linkOutput app link =>
    change s'.Sound compile (filters ++ [])
    rw [append_nil]
    obtain ⟨inst, happ, h⟩ := bind_eq_ok (show linkOutput s app link = .ok s' from h)
    split_ifs at h with hdup
    cases h
    have hinst := hs.apps app inst (app_eq_ok happ)
    exact hs.setApp ⟨hinst.classes, hinst.compiled, hinst.links⟩
  | unlinkOutput app link =>
    change s'.Sound compile (filters ++ [])
    rw [append_nil]
    obtain ⟨inst, happ, h⟩ := bind_eq_ok (show unlinkOutput s app link = .ok s' from h)
    cases h
    have hinst := hs.apps app inst (app_eq_ok happ)
    exact hs.setApp ⟨hinst.classes, hinst.compiled, hinst.links⟩

end

/-- **A whole run.** -/
theorem run_sound {actions : List Action} (h : run (step compile) .init actions = .ok s) :
    s.Sound compile (filtersOf actions) := by
  induction actions using List.reverseRecOn generalizing s with
  | nil =>
    cases h
    exact ⟨rfl, rfl, fun app inst hinst => by cases hinst⟩
  | append_singleton actions action ih =>
    obtain ⟨t, ht, hstep⟩ := run_snoc_eq_ok h
    have hfilters : filtersOf (actions ++ [action]) = filtersOf actions ++ action.filters := by
      unfold filtersOf
      rw [flatMap_append, flatMap_singleton]
    rw [hfilters]
    exact step_sound (ih ht) hstep

/-! ## Whether instances interfere -/

/-- **The instances do not interfere**: a class matches the packets that its filter matches where it
is the only one, and the entries of `push_link` are the input links that are attached. -/
structure Separate (compile : Option String → Option Filter) (s : Engine) : Prop where
  matching : ∀ app (inst : Instance), s.apps app = some inst →
    ∀ (i : Nat) (config : ClassConfig), inst.arg.classes[i]? = some config →
      ∃ cls : AppClass, inst.classes[i]? = some cls ∧ cls.name = config.name ∧
        ∀ vlan < 65536, ∀ data length, ∃ matching : Bool,
          cls.matchFn.call s.matchFnAux vlan data length = some matching ∧
            alone compile config.filter vlan data length = some matching
  links : ∀ app (inst : Instance), s.apps app = some inst → ∀ link,
    (inst.pushLink link).isSome ↔ link ∈ inst.input

/-- The links of a class do not change what it matches. -/
theorem make_matchFn (weight : String → String → Option Nat) (specs : List ClassSpec)
    (links : List String) (rmExtHeaders : Bool) (hashFn : Nat → FlowKey → Nat) :
    (Config.make weight specs links rmExtHeaders hashFn).classes.map (·.matchFn) =
      specs.map ClassSpec.matchFn := by
  unfold Config.make
  induction links using List.reverseRecOn with
  | nil =>
    show (specs.foldl addClass []).map _ = _
    induction specs using List.reverseRecOn with
    | nil => rfl
    | append_singleton specs spec ih =>
      rw [foldl_concat, addClass, map_append, ih, map_append]
      rfl
  | append_singleton links name ih =>
    rw [foldl_concat, Config.linkOutput, ← ih]
    exact List.map_map ..

/-- **The classes of an instance match what their filters match alone.** -/
theorem Separate.config (h : Separate compile s) (weight : String → String → Option Nat)
    (hashFn : Nat → FlowKey → Nat) (hinst : s.apps app = some inst) {i : Nat}
    {config : ClassConfig} (hconfig : inst.arg.classes[i]? = some config) :
    ∃ cls, (inst.config weight hashFn s.matchFnAux).classes[i]? = some cls ∧
      ∀ vlan < 65536, ∀ data length,
        alone compile config.filter vlan data length = some (cls.matchFn vlan data length) := by
  obtain ⟨made, hmade, -, hmatching⟩ := h.matching app inst hinst i config hconfig
  have hfns := congrArg (·[i]?) (make_matchFn weight
    (inst.classes.map (AppClass.spec s.matchFnAux)) inst.linked inst.arg.removeExtensionHeaders
    hashFn)
  simp only [List.getElem?_map, hmade, Option.map_some] at hfns
  obtain ⟨cls, hcls, hfn⟩ := Option.map_eq_some_iff.mp hfns
  refine ⟨cls, hcls, fun vlan hvlan data length => ?_⟩
  obtain ⟨matching, hcall, halone⟩ := hmatching vlan hvlan data length
  have hmatch : cls.matchFn vlan data length = matching := by
    simp [hfn, AppClass.spec, hcall]
  rw [halone, hmatch]

/-- The filters with VLANs and a BPF expression that are in use name the VLANs of the one that was
compiled last, or their expressions match nothing. -/
def Agree (compile : Option String → Option Filter) (filters : List String) (s : Engine) : Prop :=
  ∀ app inst, s.apps app = some inst → ∀ config ∈ inst.arg.classes,
    ∀ ids pfFn, vlanBpf config.filter = some ids → compile (bpfOf config.filter) = some pfFn →
      (∃ data length, pfFn data length = true) →
        ∀ vlan < 65536, vlan ∈ ids ↔ vlan ∈ (lastVlans filters).getD []

/-- **The instances do not interfere if and only if their filters agree.** -/
theorem separate_iff (compile : Option String → Option Filter) (actions : List Action) (s : Engine)
    (h : run (step compile) .init actions = .ok s) :
    Separate compile s ↔ Agree compile (filtersOf actions) s := by
  have hsound := run_sound h
  have hclass app inst (hinst : s.apps app = some inst) (i : Nat)
      config (hconfig : inst.arg.classes[i]? = some config) :
      ∃ cls, inst.classes[i]? = some cls ∧ Made compile config cls := by
    obtain ⟨made, default, hclasses, hmade⟩ := (hsound.apps app inst hinst).classes
    obtain ⟨hi, rfl⟩ := List.getElem?_eq_some_iff.mp hconfig
    have hlt : i < made.length := by rwa [← hmade.length_eq]
    refine ⟨made[i], ?_, hmade.get hi hlt⟩
    rw [hclasses, List.getElem?_append_left hlt, List.getElem?_eq_getElem hlt]
  constructor
  · intro hseparate app inst hinst config hconfig ids pfFn hids hpfFn hsome vlan hvlan
    obtain ⟨data, length, hmatch⟩ := hsome
    obtain ⟨i, hi⟩ := List.getElem?_of_mem hconfig
    obtain ⟨cls, hcls, -, hmatching⟩ := hseparate.matching app inst hinst i config hi
    obtain ⟨cls', hcls', hmade⟩ := hclass app inst hinst i config hi
    rw [hcls] at hcls'
    cases hcls'
    obtain ⟨matching, hcall, halone⟩ := hmatching vlan hvlan data length
    obtain ⟨aux, hcompile⟩ := hmade.matchFn
    rcases compileMatch_cases hcompile with ⟨hnone, -⟩ | ⟨ids', pfFn', hids', hpfFn', hfn, rfl⟩
    · rw [hids] at hnone
      cases hnone
    · rw [hids] at hids'
      rw [hpfFn] at hpfFn'
      cases hids'
      cases hpfFn'
      unfold alone at halone
      rw [hcompile, hfn] at halone
      rw [hfn, hsound.matchFnAux] at hcall
      obtain ⟨last, hlast⟩ := exists_lastVlans
        ((hsound.apps app inst hinst).compiled config hconfig) hids
      rw [hlast] at hcall ⊢
      simp only [MatchFn.call, map_some, hmatch, Bool.and_true, Option.some.injEq]
        at hcall halone
      rw [getD_some, ← decide_eq_decide, hcall, halone]
  · intro hagree
    refine ⟨fun app inst hinst i config hconfig => ?_, fun app inst hinst =>
      (hsound.apps app inst hinst).links⟩
    obtain ⟨cls, hcls, hmade⟩ := hclass app inst hinst i config hconfig
    refine ⟨cls, hcls, hmade.name, fun vlan hvlan data length => ?_⟩
    obtain ⟨aux, hcompile⟩ := hmade.matchFn
    unfold alone
    rw [hcompile]
    rcases compileMatch_cases hcompile with ⟨-, f, hf⟩ | ⟨ids, pfFn, hids, hpfFn, hfn, rfl⟩
    · exact ⟨f vlan data length, hf _ _ _ _, hf _ _ _ _⟩
    · have hmem := mem_of_getElem? hconfig
      obtain ⟨last, hlast⟩ := exists_lastVlans
        ((hsound.apps app inst hinst).compiled config hmem) hids
      have hiff := hagree app inst hinst config hmem ids pfFn hids hpfFn
      rw [hfn, hsound.matchFnAux, hlast]
      rw [hlast] at hiff
      refine ⟨decide (vlan ∈ ids) && pfFn data length, ?_, rfl⟩
      cases hmatch : pfFn data length with
      | false => simp [MatchFn.call, hmatch]
      | true => simp [MatchFn.call, hmatch, hiff ⟨data, length, hmatch⟩ vlan hvlan]

/-- An instance with two classes, for one VLAN each. -/
def twoVlans : Arg where
  defaultClass := true
  classes := [⟨"a", "VLAN 1 BPF ip", false⟩, ⟨"b", "VLAN 2 BPF ip", false⟩]
  removeExtensionHeaders := true

/-- The packets of the VLAN of the class `a` are not packets of the class `a`. -/
theorem two_vlans_interfere :
    ∃ s, run (step fun _ => some fun _ _ => true) .init [.startApp "rss" twoVlans] = .ok s ∧
      ¬ Separate (fun _ => some fun _ _ => true) s := by
  refine ⟨_, rfl, fun hseparate => ?_⟩
  obtain ⟨cls, hcls, -, hmatching⟩ := hseparate.matching "rss" _ rfl 0 _ rfl
  cases hcls
  obtain ⟨matching, hcall, halone⟩ := hmatching 1 (by decide) (fun _ => 0) 0
  cases halone
  cases hcall

/-- Two instances with a class for the same VLAN each, one of them with links. -/
def sameVlans : List Action :=
  [.startApp "rss1" ⟨true, [⟨"a", "VLAN 1 BPF ip", false⟩], true⟩,
    .startApp "rss2" ⟨false, [⟨"b", "VLAN 1 BPF ip", true⟩, ⟨"c", "VLAN 2 3", true⟩], true⟩,
    .linkInput "rss1" "vlan7", .linkOutput "rss1" "a_1"]

theorem same_vlans_separate_iff :
    ∃ s, run (step fun _ => some fun _ _ => true) .init sameVlans = .ok s ∧
      (Separate (fun _ => some fun _ _ => true) s ↔
        Agree (fun _ => some fun _ _ => true) (filtersOf sameVlans) s) :=
  ⟨_, rfl, separate_iff _ sameVlans _ rfl⟩

end RssApps

end Snabb
