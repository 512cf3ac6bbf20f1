import Snabb.Foundation.DepthFirst
import Snabb.Foundation.Table
import Mathlib.Data.List.Sort

/-!
# The order of a breath (`core/app.lua`)

In a breath the engine first calls `pull` of the apps that have it, and then the push
methods of the apps, once for each link in the network. `compute_breathe_order` sorts the
links by a depth-first search so that a push comes after the pushes that fill its link.

A link leads to the outputs of the app that receives it, unless that app pulls (`Feeds`).
`breathe_order_topological` says that the order follows these edges; on a network with
cycles it still has every link exactly once.

The loops over tables visit the keys in an order that Lua leaves open; the orders are
parameters here. What cannot be indexed or compared raises an error (`none`). An app is
identified by its name, as there is one app for each name in `app_table`.
-/

namespace Snabb

open Foundation Relation List Table Option

/-- The methods of an app that the engine calls in a breath. -/
structure Methods (F : Type) where
  pull : Bool
  push : Option F
  pushLink : Table String F
  tick : Bool

/-- An `input` or `output` table. Each link is there by name and by number. -/
structure Ports (L : Type) where
  named : Table String L
  indexed : List L

/-- What a loop over the whole table visits. -/
def Ports.values {L : Type} (ports : Ports L) : List L :=
  ports.indexed ++ ports.named.entries.map Sigma.snd

structure App (L F : Type) where
  methods : Methods F
  input : Ports L
  output : Ports L

/-- An entry of `inputs`: a link, and the app and the method that receive from it. -/
structure InputSpec (L F : Type) where
  appname : String
  app : App L F
  push : Option F
  link : L

section Model

variable {L F : Type} [DecidableEq L]

/-- An app has a link among its inputs. The push method for the link is its own
`push_link`, or else `push` of the app. -/
def inputSpec (appname : String) (app : App L F) (linkname : String) (link : L) :
    InputSpec L F where
  appname := appname
  app := app
  push := (app.methods.pushLink.lookup linkname).or app.methods.push
  link := link

/-- The tables of `compute_breathe_order`. -/
structure Collected (L F : Type) where
  pullOrder : List (String × App L F)
  pullLinks : List L
  inputs : Table L (InputSpec L F)
  successors : Table L (List L)
  linknames : Table L String

/-- The outputs of an app that pulls. -/
def collectPull (c : Collected L F) (appname : String) (app : App L F) : Collected L F :=
  if app.methods.pull then
    { c with
      pullOrder := c.pullOrder ++ [(appname, app)]
      pullLinks := app.output.values.foldl (fun links link => links.insert link) c.pullLinks
      successors := app.output.values.foldl (fun t link => t.insert link []) c.successors }
  else c

/-- An input of an app. -/
def collectInput (appname : String) (app : App L F) (c : Collected L F)
    (entry : Σ _ : String, L) : Collected L F :=
  { c with
    linknames := c.linknames.insert entry.2 (appname ++ "." ++ entry.1)
    inputs := c.inputs.insert entry.2 (inputSpec appname app entry.1 entry.2) }

/-- The body of the loop over `app_table`. -/
def collectApp (c : Collected L F) (appname : String) (app : App L F) : Collected L F :=
  app.input.named.entries.foldl (collectInput appname app) (collectPull c appname app)

/-- The first loop. -/
def collect (appPairs : Pairs String) (apps : Table String (App L F)) : Collected L F :=
  (appPairs.order apps.keys).foldl (fun c appname =>
    match apps.lookup appname with
    | some app => collectApp c appname app
    | none => c) ⟨[], [], ∅, ∅, ∅⟩

/-- An entry for a link that has none. -/
def touch (successors : Table L (List L)) (link : L) : Table L (List L) :=
  if link ∈ successors then successors else successors.insert link []

/-- The inner loop of the second one. -/
def addSuccessors (successors : Table L (List L)) (link : L) (succs : List L) :
    Table L (List L) :=
  succs.foldl (fun t succ =>
    touch (t.insert link (((t.lookup link).getD []).insert succ)) succ) successors

/-- The second loop, over `inputs`. -/
def connect (linkPairs : Pairs L) (inputs : Table L (InputSpec L F))
    (successors : Table L (List L)) : Table L (List L) :=
  (linkPairs.order inputs.keys).foldl (fun t link =>
    match inputs.lookup link with
    | some spec =>
      -- the outputs of an app that pulls are entries of their own
      if spec.app.methods.pull then t.insert link []
      else addSuccessors (t.insert link []) link spec.app.output.values
    | none => t) successors

/-- The third loop. -/
def complete (linkPairs : Pairs L) (successors : Table L (List L)) : Table L (List L) :=
  (linkPairs.order successors.keys).foldl (fun t link => ((t.lookup link).getD []).foldl touch t)
    successors

/-- `table.sort(links, cmp_links)`; names are compared as soon as there are two links. -/
def sortLinks (linknames : Table L String) (links : List L) : Option (List L) :=
  if links.length ≤ 1 then some links
  else if ∀ link ∈ links, link ∈ linknames then
    some (links.mergeSort fun a b =>
      decide ((linknames.lookup a).getD "" ≤ (linknames.lookup b).getD ""))
  else none

/-- The last loop over `successors`. -/
def sortSuccessors (linkPairs : Pairs L) (linknames : Table L String)
    (successors : Table L (List L)) : Option (Table L (List L)) :=
  (linkPairs.order successors.keys).foldlM (fun t link => do
    let sorted ← sortLinks linknames (linkPairs.order ((t.lookup link).getD []))
    some (t.insert link sorted)) successors

/-- `tsort`. The recursion is no deeper than the number of nodes. -/
def tsort (nodes entries : List L) (successors : Table L (List L)) : Option (List L) := do
  let visit := Search.visit (fun node => successors.lookup node) (successors.keys.length + 1)
  -- the links that are pulled into come first
  let s ← entries.foldlM visit Search.new
  let s ← nodes.foldlM visit s
  some s.postOrder.reverse

variable [DecidableEq F]

/-- The next entry of `breathe_push_order`. Neighbours with the same app and the same method
share one call. -/
def insertPush (order : List (InputSpec L F)) (spec : InputSpec L F) : List (InputSpec L F) :=
  if spec.push.isSome then
    match order.getLast? with
    | none => order ++ [spec]
    | some prev =>
      if prev.appname ≠ spec.appname ∨ prev.push ≠ spec.push then order ++ [spec] else order
  else order

/-- The loop over `link_order`. -/
def pushOrder (inputs : Table L (InputSpec L F)) (linkOrder : List L) :
    Option (List (InputSpec L F)) :=
  linkOrder.foldlM (fun order link => (inputs.lookup link).map (insertPush order)) []

/-- `table.sort(apps, cmp_apps)`. -/
def sortApps (apps : List (String × App L F)) : List (String × App L F) :=
  apps.mergeSort fun a b => decide (a.1 ≤ b.1)

/-- What `compute_breathe_order` leaves; `linkOrder` is a local variable of it. -/
structure BreatheOrder (L F : Type) where
  pullOrder : List (String × App L F)
  pushOrder : List (InputSpec L F)
  ticks : List (String × App L F)
  linkOrder : List L

def computeBreatheOrder (appPairs : Pairs String) (linkPairs : Pairs L)
    (apps : Table String (App L F)) : Option (BreatheOrder L F) := do
  let c := collect appPairs apps
  let successors := complete linkPairs (connect linkPairs c.inputs c.successors)
  let nodes ← sortLinks c.linknames (linkPairs.order c.inputs.keys)
  let entryNodes ← sortLinks c.linknames (linkPairs.order c.pullLinks)
  let successors ← sortSuccessors linkPairs c.linknames successors
  let linkOrder ← tsort nodes entryNodes successors
  let pushOrder ← pushOrder c.inputs linkOrder
  let named := (appPairs.order apps.keys).filterMap fun name =>
    (apps.lookup name).map fun app => (name, app)
  some
    { pullOrder := sortApps c.pullOrder
      pushOrder := pushOrder
      ticks := sortApps (named.filter fun app => app.2.methods.tick)
      linkOrder := linkOrder }

end Model

/-- An app receives from a link. -/
def Receives {L F : Type} (apps : Table String (App L F)) (link : L) (spec : InputSpec L F) : Prop :=
  ∃ appname app linkname, apps.lookup appname = some app ∧
    app.input.named.lookup linkname = some link ∧ inputSpec appname app linkname link = spec

/-- An app sends to a link. -/
def Emits {L F : Type} (apps : Table String (App L F)) (link : L) : Prop :=
  ∃ appname app, apps.lookup appname = some app ∧ link ∈ app.output.values

/-- The app that receives from the first link does not pull, and sends to the second one. -/
def Feeds {L F : Type} (apps : Table String (App L F)) (link link' : L) : Prop :=
  ∃ spec, Receives apps link spec ∧ spec.app.methods.pull = false ∧ link' ∈ spec.app.output.values

/-- An app network, as `configure` builds it: every link has one app that receives from it. -/
structure Network (L F : Type) where
  apps : Table String (App L F)
  received : ∀ link, Emits apps link → ∃ spec, Receives apps link spec
  once : ∀ link spec spec', Receives apps link spec → Receives apps link spec' → spec = spec'

variable {L F : Type} {apps : Table String (App L F)} {appname : String} {app : App L F}
  {link link' : L} {spec : InputSpec L F} {t : Table L (List L)}

theorem Feeds.emits (h : Feeds apps link link') : Emits apps link' := by
  obtain ⟨_, ⟨appname, app, _, happ, _, rfl⟩, -, hout⟩ := h
  exact ⟨appname, app, happ, hout⟩

/-- A call of a push method, as it is compared with its neighbour. -/
def InputSpec.call (spec : InputSpec L F) : String × Option F := (spec.appname, spec.push)

theorem call_ne_of_feeds {spec' : InputSpec L F} (hacyclic : ∀ link, ¬ TransGen (Feeds apps) link link)
    (hspec : Receives apps spec.link spec) (hspec' : Receives apps spec'.link spec')
    (honce : ∀ other, Receives apps spec.link other → spec = other)
    (hfeeds : Feeds apps spec.link spec'.link) : spec.call ≠ spec'.call := by
  intro hcall
  obtain ⟨other, hother, hpull, hout⟩ := hfeeds
  obtain rfl := honce other hother
  have happ : spec.app = spec'.app := by
    obtain ⟨name, app, _, happ, -, heq⟩ := hspec
    obtain ⟨name', app', _, happ', -, heq'⟩ := hspec'
    have hname : name = name' := by
      rw [← heq, ← heq'] at hcall
      exact congrArg Prod.fst hcall
    rw [← heq, ← heq']
    exact Option.mem_unique happ (hname ▸ happ')
  exact hacyclic spec'.link (.single ⟨spec', hspec', happ ▸ hpull, happ ▸ hout⟩)

section Tables

variable [DecidableEq L]

/-! ## The tables -/

/-- What the first loop has found in some of the apps. -/
structure Gathered (apps : Table String (App L F)) (appnames : List String)
    (c : Collected L F) : Prop where
  receives : ∀ link spec, c.inputs.lookup link = some spec → Receives apps link spec
  all_inputs : ∀ appname ∈ appnames, ∀ app, apps.lookup appname = some app →
    ∀ linkname link, app.input.named.lookup linkname = some link → link ∈ c.inputs
  named : ∀ link ∈ c.inputs, link ∈ c.linknames
  pulled : ∀ link ∈ c.pullLinks, Emits apps link
  successors : ∀ link succs, c.successors.lookup link = some succs → succs = [] ∧ Emits apps link

variable {c : Collected L F} {appnames : List String}

theorem mem_foldl_insert {links pulled : List L} :
    link ∈ links.foldl (fun links link => links.insert link) pulled ↔
      link ∈ pulled ∨ link ∈ links := by
  induction links generalizing pulled with
  | nil => simp
  | cons head links ih =>
    rw [foldl_cons, ih, mem_insert_iff, mem_cons]
    tauto

theorem lookup_foldl_insert {links succs : List L}
    (h : (links.foldl (fun t link => t.insert link []) t).lookup link = some succs) :
    succs = [] ∧ link ∈ links ∨ t.lookup link = some succs := by
  induction links generalizing t with
  | nil => exact .inr h
  | cons head links ih =>
    rcases ih h with ⟨hnil, hmem⟩ | hlookup
    · exact .inl ⟨hnil, mem_cons_of_mem _ hmem⟩
    · rw [lookup_insert_ite] at hlookup
      split at hlookup
      · next heq =>
        rw [heq]
        exact .inl ⟨(Option.some.inj hlookup).symm, mem_cons_self⟩
      · exact .inr hlookup

theorem Gathered.collectPull (h : Gathered apps appnames c) (happ : apps.lookup appname = some app) :
    Gathered apps appnames (collectPull c appname app) := by
  unfold Snabb.collectPull
  split
  · refine { h with pulled := fun link hlink => ?_, successors := fun link succs hsuccs => ?_ }
    · rcases mem_foldl_insert.mp hlink with hold | hout
      · exact h.pulled link hold
      · exact ⟨appname, app, happ, hout⟩
    · rcases lookup_foldl_insert hsuccs with ⟨hnil, hout⟩ | hold
      · exact ⟨hnil, appname, app, happ, hout⟩
      · exact h.successors link succs hold
  · exact h

theorem Gathered.collectInput {entry : Σ _ : String, L} (h : Gathered apps appnames c)
    (happ : apps.lookup appname = some app) (hentry : entry ∈ app.input.named.entries) :
    Gathered apps appnames (collectInput appname app c entry) := by
  have hport : app.input.named.lookup entry.1 = some entry.2 := AList.mem_lookup_iff.mpr hentry
  refine { h with receives := ?_, all_inputs := ?_, named := ?_ }
  · intro link spec hspec
    simp only [Snabb.collectInput] at hspec
    rw [lookup_insert_ite] at hspec
    split at hspec
    · next heq =>
      cases hspec
      exact ⟨appname, app, entry.1, happ, heq ▸ hport, heq ▸ rfl⟩
    · exact h.receives link spec hspec
  · intro name hname app' happ' linkname link hlink
    exact (AList.mem_insert _).mpr (.inr (h.all_inputs name hname app' happ' linkname link hlink))
  · intro link hlink
    rcases (AList.mem_insert _).mp hlink with hnew | hold
    · exact (AList.mem_insert _).mpr (.inl hnew)
    · exact (AList.mem_insert _).mpr (.inr (h.named link hold))

theorem mem_inputs_foldl {entries : List (Σ _ : String, L)} :
    link ∈ (entries.foldl (collectInput appname app) c).inputs ↔
      link ∈ c.inputs ∨ ∃ entry ∈ entries, entry.2 = link := by
  induction entries generalizing c with
  | nil => simp
  | cons entry entries ih =>
    have hinsert : link ∈ (collectInput appname app c entry).inputs ↔ link = entry.2 ∨ link ∈ c.inputs :=
      AList.mem_insert _
    grind

/-- **An app is collected.** -/
theorem Gathered.collectApp (h : Gathered apps appnames c) (happ : apps.lookup appname = some app) :
    Gathered apps (appname :: appnames) (collectApp c appname app) := by
  have hfold : ∀ entries : List (Σ _ : String, L), (∀ e ∈ entries, e ∈ app.input.named.entries) →
      ∀ c, Gathered apps appnames c →
        Gathered apps appnames (entries.foldl (Snabb.collectInput appname app) c) := by
    intro entries
    induction entries with
    | nil => exact fun _ _ hc => hc
    | cons entry entries ih =>
      intro hentries c hc
      exact ih (fun e he => hentries e (mem_cons_of_mem _ he)) _
        (hc.collectInput happ (hentries entry mem_cons_self))
  have hall := hfold _ (fun _ he => he) _ (h.collectPull happ)
  refine { hall with all_inputs := ?_ }
  intro name hname app' happ' linkname link hlink
  rcases mem_cons.mp hname with rfl | hold
  · obtain rfl := Option.mem_unique happ happ'
    exact mem_inputs_foldl.mpr (.inr ⟨⟨linkname, link⟩, AList.mem_lookup_iff.mp hlink, rfl⟩)
  · exact hall.all_inputs name hold app' happ' linkname link hlink

/-- **All apps are collected.** -/
theorem gathered_collect (apps : Table String (App L F)) (appPairs : Pairs String) :
    Gathered apps apps.keys (collect appPairs apps) := by
  -- `done` are the apps that the loop has visited
  have hfold : ∀ names done c, Gathered apps done c → (∀ name ∈ names, name ∈ apps) →
      Gathered apps (names ++ done) (names.foldl (fun c appname =>
        match apps.lookup appname with
        | some app => Snabb.collectApp c appname app
        | none => c) c) := by
    intro names
    induction names with
    | nil => exact fun _ _ hc _ => hc
    | cons name names ih =>
      intro done c hc hnames
      obtain ⟨app, happ⟩ := Table.mem_iff_lookup.mp (hnames name mem_cons_self)
      have hrest := ih (name :: done) _ (hc.collectApp happ)
        fun n hn => hnames n (mem_cons_of_mem _ hn)
      rw [foldl_cons]
      simp only [happ]
      refine { hrest with all_inputs := fun n hn => hrest.all_inputs n ?_ }
      simp only [mem_append, mem_cons] at hn ⊢
      tauto
  have hnone : Gathered apps [] (⟨[], [], ∅, ∅, ∅⟩ : Collected L F) :=
    { receives := by simp
      all_inputs := by simp
      named := by simp
      pulled := by simp
      successors := by simp }
  have hall := hfold (appPairs.order apps.keys) [] _ hnone
    fun name hname => AList.mem_keys.mpr (Pairs.mem_order.mp hname)
  refine { hall with all_inputs := fun name hname => hall.all_inputs name ?_ }
  rw [append_nil]
  exact Pairs.mem_order.mpr hname

theorem Gathered.mem_inputs (h : Gathered apps apps.keys c) :
    link ∈ c.inputs ↔ ∃ spec, Receives apps link spec := by
  constructor
  · intro hlink
    obtain ⟨spec, hspec⟩ := Table.mem_iff_lookup.mp hlink
    exact ⟨spec, h.receives link spec hspec⟩
  · rintro ⟨_, appname, app, linkname, happ, hlink, -⟩
    exact h.all_inputs appname (AList.mem_keys.mp (Table.mem_iff_lookup.mpr ⟨app, happ⟩)) app happ
      linkname link hlink

/-- The table says which links a link feeds. -/
structure Successors (apps : Table String (App L F)) (t : Table L (List L)) : Prop where
  mem_iff : ∀ link, link ∈ t ↔ ∃ spec, Receives apps link spec
  feeds_iff : ∀ link succs, t.lookup link = some succs → ∀ x, x ∈ succs ↔ Feeds apps link x

theorem lookup_touch (t : Table L (List L)) (link x : L) : (touch t x).lookup link = t.lookup link ∨
    link = x ∧ t.lookup link = none ∧ (touch t x).lookup link = some [] := by
  unfold touch
  split
  · exact .inl rfl
  · next hnew =>
    rw [lookup_insert_ite]
    split
    · next heq =>
      subst heq
      exact .inr ⟨rfl, AList.lookup_eq_none.mpr hnew, rfl⟩
    · exact .inl rfl

theorem lookup_addSuccessors {old : List L} (succs : List L) (h : t.lookup link = some old) :
    ∃ new, (addSuccessors t link succs).lookup link = some new ∧
      ∀ x, x ∈ new ↔ x ∈ old ∨ x ∈ succs := by
  induction succs generalizing t old with
  | nil => exact ⟨old, h, by simp⟩
  | cons succ succs ih =>
    have hnext : (touch (t.insert link (((t.lookup link).getD []).insert succ)) succ).lookup link =
        some (old.insert succ) := by
      rcases lookup_touch (t.insert link (((t.lookup link).getD []).insert succ)) link succ with
        hsame | ⟨-, hnone, -⟩
      · rw [hsame, AList.lookup_insert, h, getD_some]
      · rw [AList.lookup_insert] at hnone
        cases hnone
    obtain ⟨new, hnew, hmem⟩ := ih hnext
    refine ⟨new, hnew, fun x => ?_⟩
    rw [hmem, mem_insert_iff, mem_cons]
    tauto

/-- The entries of the other links: there may be new ones, without successors. -/
theorem lookup_addSuccessors_ne (t : Table L (List L)) (succs : List L) (hne : link' ≠ link) :
    (addSuccessors t link succs).lookup link' = t.lookup link' ∨
      link' ∈ succs ∧ t.lookup link' = none ∧
        (addSuccessors t link succs).lookup link' = some [] := by
  induction succs generalizing t with
  | nil => exact .inl rfl
  | cons succ succs ih =>
    have htouch := lookup_touch (t.insert link (((t.lookup link).getD []).insert succ)) link' succ
    rw [AList.lookup_insert_ne hne] at htouch
    rcases ih (touch (t.insert link (((t.lookup link).getD []).insert succ)) succ) with
      hsame | ⟨hmem, hnone, hnil⟩
    · rcases htouch with hkept | ⟨heq, hnone, hnil⟩
      · exact .inl (hsame.trans hkept)
      · exact .inr ⟨heq ▸ mem_cons_self, hnone, hsame.trans hnil⟩
    · rcases htouch with hkept | ⟨-, -, hnil'⟩
      · exact .inr ⟨mem_cons_of_mem _ hmem, hkept.symm.trans hnone, hnil⟩
      · rw [hnone] at hnil'
        cases hnil'

/-- What the second loop has done for some of the links. -/
structure Connected (apps : Table String (App L F)) (done : List L) (t : Table L (List L)) :
    Prop where
  received : ∀ link ∈ t, ∃ spec, Receives apps link spec
  done_feeds : ∀ link ∈ done, ∃ succs, t.lookup link = some succs ∧
    ∀ x, x ∈ succs ↔ Feeds apps link x
  todo_nil : ∀ link ∉ done, ∀ succs, t.lookup link = some succs → succs = []

variable {net : Network L F} {done : List L}

/-- **A link is connected** to the outputs of its app. -/
theorem Connected.connectLink {t' : Table L (List L)} (h : Connected net.apps done t)
    (hspec : Receives net.apps link spec) (ht' : t' = if spec.app.methods.pull then t.insert link []
      else addSuccessors (t.insert link []) link spec.app.output.values) :
    Connected net.apps (link :: done) t' := by
  -- a link has one receiver, so it feeds what this app sends to
  have hfeeds : ∀ x, Feeds net.apps link x ↔
      spec.app.methods.pull = false ∧ x ∈ spec.app.output.values := by
    intro x
    constructor
    · rintro ⟨spec', hspec', hpull, hout⟩
      rw [net.once link spec spec' hspec hspec']
      exact ⟨hpull, hout⟩
    · rintro ⟨hpull, hout⟩
      exact ⟨spec, hspec, hpull, hout⟩
  have hself : ∃ succs, t'.lookup link = some succs ∧ ∀ x, x ∈ succs ↔ Feeds net.apps link x := by
    simp only [hfeeds]
    split at ht'
    · next hpull =>
      refine ⟨[], by rw [ht', AList.lookup_insert], ?_⟩
      simp [hpull]
    · next hpull =>
      have hempty : (t.insert link []).lookup link = some [] := AList.lookup_insert t
      obtain ⟨succs, hsuccs, hmem⟩ := lookup_addSuccessors spec.app.output.values hempty
      refine ⟨succs, by rw [ht', hsuccs], fun x => ?_⟩
      rw [hmem]
      simp [hpull]
  -- other links keep their entry, or get an empty one
  have hothers : ∀ link' ≠ link, t'.lookup link' = t.lookup link' ∨
      Feeds net.apps link link' ∧ t.lookup link' = none ∧ t'.lookup link' = some [] := by
    intro link' hne
    split at ht'
    · rw [ht']
      exact .inl (AList.lookup_insert_ne hne)
    · next hpull =>
      have hadd := lookup_addSuccessors_ne (t.insert link []) spec.app.output.values hne
      rw [← ht', AList.lookup_insert_ne hne] at hadd
      refine hadd.imp_right fun hout => ⟨(hfeeds link').mpr ⟨by simpa using hpull, hout.1⟩, hout.2⟩
  constructor
  · intro link' hlink'
    by_cases hne : link' = link
    · exact ⟨spec, hne ▸ hspec⟩
    · obtain ⟨succs, hsuccs⟩ := Table.mem_iff_lookup.mp hlink'
      rcases hothers link' hne with hsame | ⟨hfed, -⟩
      · exact h.received link' (Table.mem_iff_lookup.mpr ⟨succs, hsame ▸ hsuccs⟩)
      · exact net.received link' hfed.emits
  · intro link' hlink'
    by_cases hne : link' = link
    · exact hne ▸ hself
    · obtain ⟨succs, hsuccs, hmem⟩ :=
        h.done_feeds link' ((mem_cons.mp hlink').resolve_left hne)
      -- a link that was done before has an entry already
      rcases hothers link' hne with hsame | ⟨-, hnone, -⟩
      · exact ⟨succs, hsame.trans hsuccs, hmem⟩
      · rw [hnone] at hsuccs
        cases hsuccs
  · intro link' hlink' succs hsuccs
    have hne : link' ≠ link := fun heq => hlink' (heq ▸ mem_cons_self)
    rcases hothers link' hne with hsame | ⟨-, -, hnil⟩
    · exact h.todo_nil link' (fun hin => hlink' (mem_cons_of_mem _ hin)) succs (hsame ▸ hsuccs)
    · exact (Option.mem_unique hnil hsuccs).symm

/-- **All links are connected.** -/
theorem successors_connect (linkPairs : Pairs L) (h : Gathered net.apps net.apps.keys c) :
    Successors net.apps (connect linkPairs c.inputs c.successors) := by
  have hfold : ∀ (links done : List L) t, Connected net.apps done t →
      (∀ link ∈ links, link ∈ c.inputs) →
      Connected net.apps (links.reverse ++ done) (links.foldl (fun t link =>
        match c.inputs.lookup link with
        | some spec =>
          if spec.app.methods.pull then t.insert link []
          else addSuccessors (t.insert link []) link spec.app.output.values
        | none => t) t) := by
    intro links
    induction links with
    | nil => exact fun _ _ ht _ => ht
    | cons link links ih =>
      intro done t ht hlinks
      obtain ⟨spec, hspec⟩ := Table.mem_iff_lookup.mp (hlinks link mem_cons_self)
      have hnext := ih (link :: done) _ (ht.connectLink (h.receives link spec hspec) rfl)
        fun l hl => hlinks l (mem_cons_of_mem _ hl)
      simpa [hspec] using hnext
  have hstart : Connected net.apps [] c.successors := by
    refine ⟨fun link hlink => ?_, by simp, fun link _ succs hsuccs => (h.successors link succs hsuccs).1⟩
    obtain ⟨succs, hsuccs⟩ := Table.mem_iff_lookup.mp hlink
    exact net.received link (h.successors link succs hsuccs).2
  have hall := hfold (linkPairs.order c.inputs.keys) [] _ hstart
    fun link hlink => AList.mem_keys.mpr (Pairs.mem_order.mp hlink)
  have hdone : ∀ link, (∃ spec, Receives net.apps link spec) →
      link ∈ (linkPairs.order c.inputs.keys).reverse ++ [] := by
    intro link hlink
    rw [append_nil, mem_reverse, Pairs.mem_order]
    exact AList.mem_keys.mp (h.mem_inputs.mpr hlink)
  constructor
  · intro link
    refine ⟨hall.received link, fun hlink => ?_⟩
    obtain ⟨succs, hsuccs, -⟩ := hall.done_feeds link (hdone link hlink)
    exact Table.mem_iff_lookup.mpr ⟨succs, hsuccs⟩
  · intro link succs hsuccs
    obtain ⟨succs', hsuccs', hmem⟩ := hall.done_feeds link
      (hdone link (hall.received link (Table.mem_iff_lookup.mpr ⟨succs, hsuccs⟩)))
    obtain rfl := Option.mem_unique hsuccs hsuccs'
    exact hmem

theorem Successors.mem_of_feeds (h : Successors net.apps t) (hfeeds : Feeds net.apps link link') :
    link' ∈ t :=
  (h.mem_iff link').mpr (net.received link' hfeeds.emits)

theorem Successors.edge_iff (h : Successors net.apps t) :
    Edge (fun node => t.lookup node) link link' ↔ Feeds net.apps link link' := by
  constructor
  · rintro ⟨succs, hsuccs, hmem⟩
    exact (h.feeds_iff link succs hsuccs link').mp hmem
  · intro hfeeds
    obtain ⟨spec, hspec, -⟩ := id hfeeds
    obtain ⟨succs, hsuccs⟩ := Table.mem_iff_lookup.mp ((h.mem_iff link).mpr ⟨spec, hspec⟩)
    exact ⟨succs, hsuccs, (h.feeds_iff link succs hsuccs link').mpr hfeeds⟩

theorem Successors.complete_eq (h : Successors net.apps t) (linkPairs : Pairs L) :
    complete linkPairs t = t := by
  have htouch : ∀ links : List L, (∀ link ∈ links, link ∈ t) → links.foldl touch t = t := by
    intro links
    induction links with
    | nil => exact fun _ => rfl
    | cons link links ih =>
      intro hlinks
      rw [foldl_cons, touch, if_pos (hlinks link mem_cons_self)]
      exact ih fun l hl => hlinks l (mem_cons_of_mem _ hl)
  have hbody : ∀ link, ((t.lookup link).getD []).foldl touch t = t := by
    intro link
    refine htouch _ fun succ hsucc => ?_
    cases hlookup : t.lookup link with
    | none => simp [hlookup] at hsucc
    | some succs =>
      rw [hlookup] at hsucc
      exact h.mem_of_feeds ((h.feeds_iff link succs hlookup succ).mp hsucc)
  unfold complete
  induction linkPairs.order t.keys with
  | nil => rfl
  | cons link links ih => rw [foldl_cons, hbody, ih]

theorem sortLinks_eq_some (linknames : Table L String) (links : List L)
    (h : ∀ link ∈ links, link ∈ linknames) :
    ∃ sorted, sortLinks linknames links = some sorted ∧ sorted.Perm links := by
  unfold sortLinks
  split
  · exact ⟨links, rfl, .refl _⟩
  · exact ⟨_, rfl, mergeSort_perm ..⟩

/-- Sorting the successors of each link does not change what they are. -/
theorem Successors.sortSuccessors {linknames : Table L String} (h : Successors net.apps t)
    (hnames : ∀ link ∈ t, link ∈ linknames) (linkPairs : Pairs L) :
    ∃ t', sortSuccessors linkPairs linknames t = some t' ∧ Successors net.apps t' := by
  have hfold : ∀ (links : List L) t, Successors net.apps t →
      (∀ link ∈ t, link ∈ linknames) → (∀ link ∈ links, link ∈ t) →
      ∃ t', links.foldlM (fun t link => do
        let sorted ← sortLinks linknames (linkPairs.order ((t.lookup link).getD []))
        some (t.insert link sorted)) t = some t' ∧ Successors net.apps t' := by
    intro links
    induction links with
    | nil => exact fun t ht _ _ => ⟨t, rfl, ht⟩
    | cons link links ih =>
      intro t ht hnames hlinks
      obtain ⟨succs, hsuccs⟩ := Table.mem_iff_lookup.mp (hlinks link mem_cons_self)
      have hfeeds := ht.feeds_iff link succs hsuccs
      obtain ⟨sorted, hsorted, hperm⟩ := sortLinks_eq_some linknames (linkPairs.order succs)
        fun x hx => hnames x (ht.mem_of_feeds ((hfeeds x).mp (Pairs.mem_order.mp hx)))
      -- only an entry that exists is replaced, so the table has the same links
      have hmem : ∀ link', link' ∈ t.insert link sorted ↔ link' ∈ t := by
        intro link'
        rw [AList.mem_insert]
        exact ⟨fun hin => hin.elim (fun heq => heq ▸ hlinks link mem_cons_self) id, .inr⟩
      have hnext : Successors net.apps (t.insert link sorted) := by
        refine ⟨fun link' => (hmem link').trans (ht.mem_iff link'), fun link' succs' hsuccs' => ?_⟩
        rw [lookup_insert_ite] at hsuccs'
        split at hsuccs'
        · next heq =>
          cases hsuccs'
          intro x
          rw [heq, hperm.mem_iff, Pairs.mem_order, hfeeds]
        · exact ht.feeds_iff link' succs' hsuccs'
      obtain ⟨t', ht', hs'⟩ := ih _ hnext (fun l hl => hnames l ((hmem l).mp hl))
        fun l hl => (hmem l).mpr (hlinks l (mem_cons_of_mem _ hl))
      refine ⟨t', ?_, hs'⟩
      rw [foldlM_cons, hsuccs, getD_some, hsorted]
      exact ht'
  exact hfold _ t h hnames fun link hlink => AList.mem_keys.mpr (Pairs.mem_order.mp hlink)

/-! ## Sorting the links -/

/-- **`tsort` returns** every node once, whether the graph has cycles or not. An edge that
goes backwards lies on a cycle. -/
theorem tsort_eq_some {nodes entries : List L} (t : Table L (List L))
    (hclosed : ∀ node succs, t.lookup node = some succs → ∀ succ ∈ succs, succ ∈ t)
    (hnodes : ∀ node ∈ nodes, node ∈ t) (hentries : ∀ node ∈ entries, node ∈ t) :
    ∃ order, tsort nodes entries t = some order ∧ order.Nodup ∧ (∀ node ∈ nodes, node ∈ order) ∧
      (∀ node ∈ order, node ∈ t) ∧
      order.Pairwise fun a b => Edge (fun node => t.lookup node) b a →
        ReflTransGen (Edge fun node => t.lookup node) a b := by
  have hkeys : ∀ a ∈ t.keys.toFinset, ∃ succs, t.lookup a = some succs ∧
      ∀ b ∈ succs, b ∈ t.keys.toFinset := by
    intro a ha
    obtain ⟨succs, hsuccs⟩ := Table.mem_iff_lookup.mp (AList.mem_keys.mpr (mem_toFinset.mp ha))
    exact ⟨succs, hsuccs, fun b hb =>
      mem_toFinset.mpr (AList.mem_keys.mp (hclosed a succs hsuccs b hb))⟩
  have hin : ∀ links : List L, (∀ link ∈ links, link ∈ t) → ∀ link ∈ links, link ∈ t.keys.toFinset :=
    fun links h link hlink => mem_toFinset.mpr (AList.mem_keys.mp (h link hlink))
  -- the recursion ends when all keys were visited
  have hfuel : ∀ s : Search L, (t.keys.toFinset \ s.visited).card < t.keys.length + 1 := fun s =>
    Nat.lt_succ_of_le ((Finset.card_le_card Finset.sdiff_subset).trans (toFinset_card_le _))
  have htotal : ∀ {s : Search L} {node}, s.Sound (fun node => t.lookup node) →
      node ∈ t.keys.toFinset → (t.keys.toFinset \ s.visited).card < t.keys.length + 1 →
      ∃ s', Search.visit (fun node => t.lookup node) (t.keys.length + 1) s node = some s' :=
    fun hs hnode hlt => hs.visit_total hkeys hnode hlt
  obtain ⟨s₁, hs₁⟩ := Search.sound_new.foldlM_total htotal (hin entries hentries) (hfuel _)
  obtain ⟨hsound₁, new₁, hext₁⟩ := Search.sound_new.foldlM Search.Sound.visit hs₁
  obtain ⟨s₂, hs₂⟩ := hsound₁.foldlM_total htotal (hin nodes hnodes) (hfuel _)
  obtain ⟨hsound₂, new₂, hext₂⟩ := hsound₁.foldlM Search.Sound.visit hs₂
  have hext := hext₁.trans hext₂
  refine ⟨s₂.postOrder.reverse, ?_, nodup_reverse.mpr hsound₂.nodup, ?_, ?_,
    pairwise_reverse.mpr hsound₂.ordered⟩
  · simp [tsort, hs₁, hs₂]
  · intro node hnode
    have hvisited := (hext.visited_iff node).mp (hext.visited node (mem_append_right _ hnode))
    rw [mem_reverse, hext.postOrder_eq]
    simpa [Search.new] using hvisited
  · intro node hnode
    rw [mem_reverse, hext.postOrder_eq] at hnode
    obtain ⟨root, hroot, hreach⟩ := hext.reached node (by simpa [Search.new] using hnode)
    cases hreach with
    | refl => exact (mem_append.mp hroot).elim (hentries node) (hnodes node)
    | tail _ hedge =>
      obtain ⟨succs, hsuccs, hmem⟩ := hedge
      exact hclosed _ succs hsuccs _ hmem

end Tables

/-! ## The push order -/

variable [DecidableEq F]

theorem insertPush_eq (order : List (InputSpec L F)) (hpush : spec.push.isSome) :
    insertPush order spec = order ++ [spec] ∨
      ∃ init prev, order = init ++ [prev] ∧ prev.call = spec.call ∧ insertPush order spec = order := by
  unfold insertPush
  rw [if_pos hpush]
  cases hlast : order.getLast? with
  | none => exact .inl rfl
  | some prev =>
    by_cases hnew : prev.appname ≠ spec.appname ∨ prev.push ≠ spec.push
    · exact .inl (if_pos hnew)
    · obtain ⟨init, hinit⟩ := List.getLast?_eq_some_iff.mp hlast
      refine .inr ⟨init, prev, hinit, ?_, if_neg hnew⟩
      rw [not_or, not_not, not_not] at hnew
      exact Prod.ext hnew.1 hnew.2

theorem prefix_insertPush (order : List (InputSpec L F)) : order <+: insertPush order spec := by
  unfold insertPush
  split
  · split
    · exact prefix_append ..
    · split
      · exact prefix_append ..
      · exact prefix_refl _
  · exact prefix_refl _

/-- **Sharing calls keeps the order.** Receivers along a path whose neighbours are different
are called one after the other. -/
theorem sublist_foldl_insertPush {specs route : List (InputSpec L F)} (hsub : route.Sublist specs)
    (hpush : ∀ spec ∈ route, spec.push.isSome) (hchain : route.IsChain fun a b => a.call ≠ b.call) :
    (route.map InputSpec.call).Sublist ((specs.foldl insertPush []).map InputSpec.call) := by
  induction specs using List.reverseRecOn generalizing route with
  | nil =>
    rw [sublist_nil.mp hsub]
    exact nil_sublist _
  | append_singleton specs spec ih =>
    rw [foldl_append, foldl_cons, foldl_nil]
    obtain ⟨front, last, rfl, hfront, hlast⟩ := sublist_append_iff.mp hsub
    obtain ⟨hchain', -, hends⟩ := isChain_append.mp hchain
    have hcalls := ih hfront (fun s hs => hpush s (mem_append_left _ hs)) hchain'
    rcases sublist_singleton.mp hlast with rfl | rfl
    · rw [append_nil]
      exact hcalls.trans ((prefix_insertPush _).sublist.map _)
    · have hspec := hpush spec (mem_append_right _ (mem_singleton_self _))
      rcases insertPush_eq (specs.foldl insertPush []) hspec with
        hnew | ⟨init, prev, hinit, hcall, hsame⟩
      · rw [hnew, map_append, map_append]
        exact hcalls.append (.refl _)
      · -- the call is shared with the entry before; the front needs only what comes earlier
        rw [hsame, hinit, map_append, map_append, map_singleton, map_singleton,
          hcall]
        rw [hinit, map_append, map_singleton, hcall] at hcalls
        obtain ⟨calls, call, heq, hcalls', hcall'⟩ := sublist_append_iff.mp hcalls
        rcases sublist_singleton.mp hcall' with rfl | rfl
        · rw [heq, append_nil]
          exact hcalls'.append (.refl _)
        · have hlast := congrArg List.getLast? heq
          rw [List.getLast?_map, List.getLast?_concat, map_eq_some_iff] at hlast
          obtain ⟨spec', hspec', hcall''⟩ := hlast
          exact absurd hcall'' (hends spec' hspec' spec rfl)

variable [DecidableEq L]

theorem pushOrder_eq_some (inputs : Table L (InputSpec L F)) (linkOrder : List L)
    (h : ∀ link ∈ linkOrder, link ∈ inputs) :
    pushOrder inputs linkOrder =
      some ((linkOrder.filterMap fun link => inputs.lookup link).foldl insertPush []) := by
  unfold pushOrder
  generalize ([] : List (InputSpec L F)) = order
  induction linkOrder generalizing order with
  | nil => rfl
  | cons link linkOrder ih =>
    obtain ⟨spec, hspec⟩ := Table.mem_iff_lookup.mp (h link mem_cons_self)
    rw [foldlM_cons, filterMap_cons_some (f := fun link => inputs.lookup link) hspec, hspec]
    exact ih (fun l hl => h l (mem_cons_of_mem _ hl)) _

theorem linkOrder_eq_some (net : Network L F) (appPairs : Pairs String) (linkPairs : Pairs L) :
    ∃ order, computeBreatheOrder appPairs linkPairs net.apps = some order ∧
      order.linkOrder.Nodup ∧
      (∀ link, link ∈ order.linkOrder ↔ ∃ spec, Receives net.apps link spec) ∧
      (order.linkOrder.Pairwise fun a b =>
        Feeds net.apps b a → ReflTransGen (Feeds net.apps) a b) ∧
      pushOrder (collect appPairs net.apps).inputs order.linkOrder = some order.pushOrder := by
  have hg := gathered_collect net.apps appPairs
  have hnamed : ∀ link, (∃ spec, Receives net.apps link spec) →
      link ∈ (collect appPairs net.apps).linknames :=
    fun link hlink => hg.named link (hg.mem_inputs.mpr hlink)
  have hs := successors_connect linkPairs hg
  have hcomplete := hs.complete_eq linkPairs
  obtain ⟨nodes, hnodes, hnodesPerm⟩ := sortLinks_eq_some
    (collect appPairs net.apps).linknames (linkPairs.order (collect appPairs net.apps).inputs.keys)
    fun link hlink => hg.named link (AList.mem_keys.mpr (Pairs.mem_order.mp hlink))
  have hmemNodes : ∀ link, link ∈ nodes ↔ ∃ spec, Receives net.apps link spec := fun link => by
    rw [hnodesPerm.mem_iff, Pairs.mem_order, ← AList.mem_keys, hg.mem_inputs]
  have hpulled : ∀ link ∈ linkPairs.order (collect appPairs net.apps).pullLinks,
      ∃ spec, Receives net.apps link spec :=
    fun link hlink => net.received link (hg.pulled link (Pairs.mem_order.mp hlink))
  obtain ⟨entries, hentries, hentriesPerm⟩ := sortLinks_eq_some
    (collect appPairs net.apps).linknames (linkPairs.order (collect appPairs net.apps).pullLinks)
    fun link hlink => hnamed link (hpulled link hlink)
  obtain ⟨t, ht, hst⟩ := hs.sortSuccessors (fun link hlink => hnamed link ((hs.mem_iff link).mp hlink))
    linkPairs
  obtain ⟨order, horder, hnodup, hall, hin, hpairwise⟩ := tsort_eq_some t
    (fun node succs hsuccs succ hsucc =>
      hst.mem_of_feeds ((hst.feeds_iff node succs hsuccs succ).mp hsucc))
    (fun node hnode => (hst.mem_iff node).mpr ((hmemNodes node).mp hnode))
    (fun node hnode => (hst.mem_iff node).mpr (hpulled node (hentriesPerm.mem_iff.mp hnode)))
  have hmem : ∀ link, link ∈ order ↔ ∃ spec, Receives net.apps link spec := fun link =>
    ⟨fun h => (hst.mem_iff link).mp (hin link h), fun h => hall link ((hmemNodes link).mpr h)⟩
  have hpushes := pushOrder_eq_some (collect appPairs net.apps).inputs order
    fun link hlink => hg.mem_inputs.mpr ((hmem link).mp hlink)
  -- the graph that was searched is that of the network
  have hedge : Edge (fun node => t.lookup node) = Feeds net.apps :=
    funext₂ fun a b => propext hst.edge_iff
  rw [hedge] at hpairwise
  obtain ⟨result, hresult, hlinks, hcalls⟩ : ∃ result,
      computeBreatheOrder appPairs linkPairs net.apps = some result ∧ result.linkOrder = order ∧
        pushOrder (collect appPairs net.apps).inputs order = some result.pushOrder := by
    simp [computeBreatheOrder, hnodes, hentries, hcomplete, ht, horder, hpushes]
  rw [← hlinks] at hnodup hmem hpairwise hcalls
  exact ⟨result, hresult, hnodup, hmem, hpairwise, hcalls⟩

/-- **The order of a breath is topological.** For every network, `compute_breathe_order`
returns an order that has every input link exactly once. If no link leads back to itself,

- a link comes before those that it feeds;
- for every path of links, the push methods of the apps that receive from them are called
  one after the other in one breath. So a packet that was pulled can go all the way. -/
theorem breathe_order_topological (net : Network L F) (appPairs : Pairs String)
    (linkPairs : Pairs L) :
    ∃ order, computeBreatheOrder appPairs linkPairs net.apps = some order ∧
      order.linkOrder.Nodup ∧
      (∀ link, link ∈ order.linkOrder ↔ ∃ spec, Receives net.apps link spec) ∧
      ((∀ link, ¬ TransGen (Feeds net.apps) link link) →
        (∀ link link', Feeds net.apps link link' →
          order.linkOrder.idxOf link < order.linkOrder.idxOf link') ∧
        ∀ route : List (InputSpec L F),
          (∀ spec ∈ route, Receives net.apps spec.link spec ∧ spec.push.isSome) →
          route.IsChain (fun a b => Feeds net.apps a.link b.link) →
          (route.map InputSpec.call).Sublist (order.pushOrder.map InputSpec.call)) := by
  obtain ⟨order, hcompute, hnodup, hmem, hpairwise, hpushes⟩ :=
    linkOrder_eq_some net appPairs linkPairs
  refine ⟨order, hcompute, hnodup, hmem, fun hacyclic => ?_⟩
  -- without cycles, no edge goes backwards
  have hforward : order.linkOrder.Pairwise fun a b => ¬ Feeds net.apps b a := by
    refine hpairwise.imp ?_
    intro a b hback hfeeds
    exact hacyclic b (TransGen.head' hfeeds (hback hfeeds))
  have hg := gathered_collect net.apps appPairs
  have hlookup : ∀ spec, Receives net.apps spec.link spec →
      (collect appPairs net.apps).inputs.lookup spec.link = some spec := by
    intro spec hspec
    obtain ⟨spec', hspec'⟩ := Table.mem_iff_lookup.mp (hg.mem_inputs.mpr ⟨spec, hspec⟩)
    rw [hspec', net.once _ _ _ (hg.receives _ _ hspec') hspec]
  constructor
  · intro link link' hfeeds
    obtain ⟨spec, hspec, -⟩ := id hfeeds
    have hin := (hmem link).mpr ⟨spec, hspec⟩
    have hin' := (hmem link').mpr (net.received link' hfeeds.emits)
    by_contra hle
    have hlt : order.linkOrder.idxOf link' < order.linkOrder.idxOf link := by
      refine Nat.lt_of_le_of_ne (Nat.le_of_not_lt hle) fun heq => ?_
      have hsame := (idxOf_inj hin').mp heq
      exact hacyclic link (.single (hsame ▸ hfeeds))
    have hnot := pairwise_iff_getElem.mp hforward _ _ (idxOf_lt_length_of_mem hin')
      (idxOf_lt_length_of_mem hin) hlt
    rw [getElem_idxOf, getElem_idxOf] at hnot
    exact hnot hfeeds
  · intro route hroute hchain
    -- the links of a path stand in this order, and so do the calls of their receivers
    have hpath : (route.map InputSpec.link).Sublist order.linkOrder := by
      refine path_sublist hforward hacyclic ((isChain_map InputSpec.link).mpr hchain) ?_
      intro link hlink
      obtain ⟨spec, hspec, rfl⟩ := mem_map.mp hlink
      exact (hmem _).mpr ⟨spec, (hroute spec hspec).1⟩
    have hspecs : (route.map InputSpec.link).filterMap
        (fun link => (collect appPairs net.apps).inputs.lookup link) = route := by
      rw [filterMap_map]
      exact (filterMap_congr fun spec hspec => hlookup spec (hroute spec hspec).1).trans
        filterMap_some
    rw [pushOrder_eq_some _ _ fun link hlink => hg.mem_inputs.mpr ((hmem link).mp hlink)] at hpushes
    rw [← Option.some.inj hpushes]
    refine sublist_foldl_insertPush ?_ (fun spec hspec => (hroute spec hspec).2) ?_
    · rw [← hspecs]
      exact hpath.filterMap _
    · refine hchain.imp_of_mem_imp fun a b ha hb hfeeds => ?_
      exact call_ne_of_feeds hacyclic (hroute a ha).1 (hroute b hb).1
        (fun other => net.once _ _ _ (hroute a ha).1) hfeeds

/-- At most one port. -/
def samplePorts (linkname : String) : Option Nat → Ports Nat
  | none => { named := ∅, indexed := [] }
  | some link => { named := AList.insert linkname link ∅, indexed := [link] }

def sampleApp (pull : Bool) (input output : Option Nat) (push : Option Nat) : App Nat Nat where
  methods := { pull := pull, push := push, pushLink := ∅, tick := false }
  input := samplePorts "rx" input
  output := samplePorts "tx" output

def sampleSource : App Nat Nat := sampleApp true none (some 0) none

def sampleForward : App Nat Nat := sampleApp false (some 0) (some 1) (some 7)

def sampleSink : App Nat Nat := sampleApp false (some 1) none (some 8)

def sampleApps : Table String (App Nat Nat) :=
  AList.insert "source" sampleSource
    (AList.insert "forward" sampleForward (AList.insert "sink" sampleSink ∅))

theorem lookup_sampleApps {appname : String} {app : App Nat Nat}
    (h : sampleApps.lookup appname = some app) :
    appname = "source" ∧ app = sampleSource ∨ appname = "forward" ∧ app = sampleForward ∨
      appname = "sink" ∧ app = sampleSink := by
  unfold sampleApps at h
  rw [lookup_insert_ite, lookup_insert_ite, lookup_insert_ite] at h
  grind [AList.lookup_empty]

theorem receives_sampleApps {link : Nat} {spec : InputSpec Nat Nat} :
    Receives sampleApps link spec ↔ link = 0 ∧ spec = inputSpec "forward" sampleForward "rx" 0 ∨
      link = 1 ∧ spec = inputSpec "sink" sampleSink "rx" 1 := by
  constructor
  · rintro ⟨appname, app, linkname, happ, hlink, rfl⟩
    rcases lookup_sampleApps happ with ⟨rfl, rfl⟩ | ⟨rfl, rfl⟩ | ⟨rfl, rfl⟩
    · simp [sampleSource, sampleApp, samplePorts] at hlink
    · simp only [sampleForward, sampleApp, samplePorts] at hlink
      rw [lookup_insert_ite] at hlink
      grind [AList.lookup_empty]
    · simp only [sampleSink, sampleApp, samplePorts] at hlink
      rw [lookup_insert_ite] at hlink
      grind [AList.lookup_empty]
  · rintro (⟨rfl, rfl⟩ | ⟨rfl, rfl⟩)
    · refine ⟨"forward", sampleForward, "rx", ?_, by decide, rfl⟩
      rw [sampleApps, AList.lookup_insert_ne (by decide), AList.lookup_insert]
    · refine ⟨"sink", sampleSink, "rx", ?_, by decide, rfl⟩
      rw [sampleApps, AList.lookup_insert_ne (by decide), AList.lookup_insert_ne (by decide),
        AList.lookup_insert]

theorem feeds_sampleApps {link link' : Nat} (h : Feeds sampleApps link link') :
    link = 0 ∧ link' = 1 := by
  obtain ⟨spec, hspec, -, hout⟩ := h
  rcases receives_sampleApps.mp hspec with ⟨rfl, rfl⟩ | ⟨rfl, rfl⟩
  · simpa [inputSpec, sampleForward, sampleApp, samplePorts, Ports.values] using hout
  · simp [inputSpec, sampleSink, sampleApp, samplePorts, Ports.values] at hout

/-- A source, an app that forwards, and a sink. -/
def sampleNetwork : Network Nat Nat where
  apps := sampleApps
  received := by
    rintro link ⟨appname, app, happ, hout⟩
    rcases lookup_sampleApps happ with ⟨rfl, rfl⟩ | ⟨rfl, rfl⟩ | ⟨rfl, rfl⟩
    · obtain rfl : link = 0 := by
        simpa [sampleSource, sampleApp, samplePorts, Ports.values] using hout
      exact ⟨_, receives_sampleApps.mpr (.inl ⟨rfl, rfl⟩)⟩
    · obtain rfl : link = 1 := by
        simpa [sampleForward, sampleApp, samplePorts, Ports.values] using hout
      exact ⟨_, receives_sampleApps.mpr (.inr ⟨rfl, rfl⟩)⟩
    · simp [sampleSink, sampleApp, samplePorts, Ports.values] at hout
  once := by
    intro link spec spec' hspec hspec'
    rw [receives_sampleApps] at hspec hspec'
    grind

theorem breathe_order_topological_sample :
    ∃ order, computeBreatheOrder ⟨id, fun _ => .refl _⟩ ⟨id, fun _ => .refl _⟩ sampleApps = some order ∧
      order.linkOrder.idxOf 0 < order.linkOrder.idxOf 1 ∧
      [("forward", some 7), ("sink", some 8)].Sublist (order.pushOrder.map InputSpec.call) := by
  obtain ⟨order, horder, -, -, hacyclic⟩ :=
    breathe_order_topological sampleNetwork ⟨id, fun _ => .refl _⟩ ⟨id, fun _ => .refl _⟩
  have hfirst : Receives sampleApps 0 (inputSpec "forward" sampleForward "rx" 0) :=
    receives_sampleApps.mpr (.inl ⟨rfl, rfl⟩)
  have hsecond : Receives sampleApps 1 (inputSpec "sink" sampleSink "rx" 1) :=
    receives_sampleApps.mpr (.inr ⟨rfl, rfl⟩)
  have hfeeds : Feeds sampleApps 0 1 := by
    refine ⟨_, hfirst, rfl, ?_⟩
    simp [inputSpec, sampleForward, sampleApp, samplePorts, Ports.values]
  have hends : ∀ link link', TransGen (Feeds sampleApps) link link' → link = 0 ∧ link' = 1 := by
    intro link link' hpath
    induction hpath with
    | single h => exact feeds_sampleApps h
    | tail _ h ih => exact ⟨ih.1, (feeds_sampleApps h).2⟩
  obtain ⟨hbefore, hroutes⟩ := hacyclic fun link hcycle => by
    have hboth := hends link link hcycle
    omega
  refine ⟨order, horder, hbefore 0 1 hfeeds, ?_⟩
  refine hroutes [inputSpec "forward" sampleForward "rx" 0, inputSpec "sink" sampleSink "rx" 1] ?_ ?_
  · intro spec hspec
    rcases mem_pair.mp hspec with rfl | rfl
    · exact ⟨hfirst, by decide⟩
    · exact ⟨hsecond, by decide⟩
  · exact isChain_pair.mpr hfeeds

end Snabb
