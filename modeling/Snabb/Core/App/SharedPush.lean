import Snabb.Core.App.Breathe

/-!
# The push calls of a breath (`core/app.lua`)

Neighbours in the push order that have the same app and the same method share one call, which
is made with the link of the first of them. That is what the app's `push` needs, which serves all
links; a method of `push_link` serves the link it is called with, so the call for the second link
is lost if both links have the same method.

- `foldl_insertPush_around`: the entries that the loop over the links makes around one of them;
- `push_serves_iff`: which links of a network are served in a breath.
-/

namespace Snabb

open Foundation Relation List Table Option AList

section Model

variable {L F : Type} [DecidableEq L]

/-- The push loop of `breathe`: `push(app, link)` for every entry. A `nil` cannot be called. -/
def exhale (pushOrder : List (InputSpec L F)) : Option (List (InputSpec L F)) :=
  pushOrder.mapM fun spec => spec.push.map fun _ => spec

/-- The inputs that have a push method, in the order of their links. -/
def pushInputs (inputs : Table L (InputSpec L F)) (linkOrder : List L) : List (InputSpec L F) :=
  (linkOrder.filterMap fun link => inputs.lookup link).filter fun spec => spec.push.isSome

/-- Among the calls of a breath is one of the link's own method with this very link, or one of the
app's `push` that does not come before a call for an earlier link. -/
def Served (linkOrder : List L) (calls : List (InputSpec L F)) (appname : String) (app : App L F)
    (linkname : String) (link : L) : Prop :=
  (∃ push, app.methods.pushLink.lookup linkname = some push ∧
    ∃ call ∈ calls, call.appname = appname ∧ call.push = some push ∧ call.link = link) ∨
  ∃ before call after, calls = before ++ call :: after ∧ call.appname = appname ∧
    call.push.isSome ∧ call.push = app.methods.push ∧
    ∀ other ∈ after, linkOrder.idxOf link ≤ linkOrder.idxOf other.link

/-- The input before has the same app and the same method, which is not the app's `push`, and the
app's `push` is not called for a later link either. -/
structure CallLost (before after : List (InputSpec L F)) (spec : InputSpec L F) : Prop where
  shared : before.getLast?.map InputSpec.call = some spec.call
  own : spec.push ≠ spec.app.methods.push
  notLater : ∀ later ∈ after, later.call ≠ (spec.appname, spec.app.methods.push)

end Model

variable {L F : Type} {spec : InputSpec L F} {order specs before after : List (InputSpec L F)}

theorem exhale_eq_some (h : ∀ spec ∈ order, spec.push.isSome) : exhale order = some order := by
  induction order with
  | nil => rfl
  | cons spec order ih =>
    obtain ⟨hspec, horder⟩ := forall_mem_cons.mp h
    obtain ⟨push, hpush⟩ := Option.isSome_iff_exists.mp hspec
    have hrest := ih horder
    unfold exhale at hrest ⊢
    rw [mapM_cons, hrest, hpush]
    rfl

section Inputs

variable [DecidableEq L] {link : L}

theorem lookup_collect_iff (net : Network L F) (appPairs : Pairs String) :
    (collect appPairs net.apps).inputs.lookup link = some spec ↔ Receives net.apps link spec := by
  have hg := gathered_collect net.apps appPairs
  refine ⟨hg.receives link spec, fun hspec => ?_⟩
  obtain ⟨spec', hspec'⟩ := Table.mem_iff_lookup.mp (hg.mem_inputs.mpr ⟨spec, hspec⟩)
  rw [hspec', net.once link _ _ (hg.receives _ _ hspec') hspec]

theorem pushInputs_links (inputs : Table L (InputSpec L F))
    (h : ∀ link spec, inputs.lookup link = some spec → spec.link = link) (linkOrder : List L) :
    ((pushInputs inputs linkOrder).map InputSpec.link).Sublist linkOrder := by
  refine (filter_sublist.map InputSpec.link).trans ?_
  induction linkOrder with
  | nil => exact .slnil
  | cons link linkOrder ih =>
    cases hlookup : inputs.lookup link with
    | none =>
      rw [filterMap_cons_none (f := fun link => inputs.lookup link) hlookup]
      exact ih.cons link
    | some spec =>
      rw [filterMap_cons_some (f := fun link => inputs.lookup link) hlookup, map_cons,
        h link spec hlookup]
      exact ih.cons_cons link

end Inputs

/-! ## The entries that the loop makes -/

variable [DecidableEq F]

theorem insertPush_eq_ite (order : List (InputSpec L F)) (hpush : spec.push.isSome) :
    insertPush order spec =
      if order.getLast?.map InputSpec.call = some spec.call then order else order ++ [spec] := by
  unfold insertPush
  rw [if_pos hpush]
  cases hlast : order.getLast? with
  | none => rfl
  | some prev =>
    simp only [map_some, Option.some.injEq, InputSpec.call, Prod.mk.injEq]
    by_cases hsame : prev.appname = spec.appname ∧ prev.push = spec.push
    · rw [if_pos hsame, if_neg (by tauto)]
    · rw [if_neg hsame, if_pos (by tauto)]

theorem foldl_insertPush_filter (specs order : List (InputSpec L F)) :
    specs.foldl insertPush order =
      (specs.filter fun spec => spec.push.isSome).foldl insertPush order := by
  induction specs generalizing order with
  | nil => rfl
  | cons spec specs ih =>
    rw [foldl_cons, filter_cons]
    split
    · rw [foldl_cons, ih]
    · next hpush => rw [ih, insertPush, if_neg hpush]

/-- **The entries of a list of inputs**: some of the inputs, the last of them with the call of the
last input. An input whose call has no entry shares it with what was there before. -/
theorem foldl_insertPush (order : List (InputSpec L F)) (hpush : ∀ spec ∈ specs, spec.push.isSome) :
    ∃ added, specs.foldl insertPush order = order ++ added ∧ (∀ entry ∈ added, entry ∈ specs) ∧
      (specs.foldl insertPush order).getLast?.map InputSpec.call =
        (specs.getLast?.or order.getLast?).map InputSpec.call ∧
      ∀ spec ∈ specs, (∃ entry ∈ added, entry.call = spec.call) ∨
        order.getLast?.map InputSpec.call = some spec.call := by
  induction specs generalizing order with
  | nil => exact ⟨[], (append_nil _).symm, by simp, rfl, by simp⟩
  | cons spec specs ih =>
    obtain ⟨hspec, hspecs⟩ := forall_mem_cons.mp hpush
    have hlast : (spec :: specs).getLast? = specs.getLast?.or (some spec) := by
      rw [List.getLast?_cons]
      cases specs.getLast? with
      | none => rfl
      | some last => rfl
    rw [foldl_cons, insertPush_eq_ite order hspec, hlast]
    split
    · next hshared =>
      obtain ⟨added, heq, hsub, hends, hall⟩ := ih order hspecs
      refine ⟨added, heq, fun entry hentry => mem_cons_of_mem _ (hsub entry hentry), ?_, ?_⟩
      · rw [hends]
        cases specs.getLast? with
        | none => exact hshared
        | some last => rfl
      · intro other hother
        rcases mem_cons.mp hother with rfl | hother
        · exact .inr hshared
        · exact hall other hother
    · obtain ⟨added, heq, hsub, hends, hall⟩ := ih (order ++ [spec]) hspecs
      rw [List.getLast?_concat] at hends hall
      refine ⟨spec :: added, by rw [heq, append_assoc]; rfl, ?_, ?_, ?_⟩
      · intro entry hentry
        rcases mem_cons.mp hentry with rfl | hentry
        · exact mem_cons_self
        · exact mem_cons_of_mem _ (hsub entry hentry)
      · rw [hends]
        cases specs.getLast? with
        | none => rfl
        | some last => rfl
      · intro other hother
        rcases mem_cons.mp hother with rfl | hother
        · exact .inl ⟨other, mem_cons_self, rfl⟩
        · rcases hall other hother with ⟨entry, hentry, hcall⟩ | hcall
          · exact .inl ⟨entry, mem_cons_of_mem _ hentry, hcall⟩
          · exact .inl ⟨spec, mem_cons_self, Option.some.inj hcall⟩

theorem isChain_foldl_insertPush (specs : List (InputSpec L F)) :
    (specs.foldl insertPush []).IsChain fun a b => a.call ≠ b.call := by
  induction specs using List.reverseRecOn with
  | nil => exact .nil
  | append_singleton specs spec ih =>
    rw [foldl_append, foldl_cons]
    by_cases hpush : spec.push.isSome
    · rw [insertPush_eq_ite _ hpush]
      split
      · exact ih
      · next hnew =>
        refine isChain_append.mpr ⟨ih, .singleton spec, ?_⟩
        intro last hlast other hother hcall
        cases hother
        rw [Option.mem_def.mp hlast] at hnew
        exact hnew (congrArg some hcall)
    · rw [insertPush, if_neg hpush]
      exact ih

/-- **The entries around an input**: those made before it, its own unless it shares one, and those
made after it. -/
theorem foldl_insertPush_around (hpush : ∀ other ∈ before ++ spec :: after, other.push.isSome) :
    ∃ entries added, (before ++ spec :: after).foldl insertPush [] = entries ++
        ((if before.getLast?.map InputSpec.call = some spec.call then [] else [spec]) ++ added) ∧
      entries.getLast?.map InputSpec.call = before.getLast?.map InputSpec.call ∧
      (∀ entry ∈ entries, entry ∈ before) ∧ (∀ entry ∈ added, entry ∈ after) ∧
      ∀ later ∈ after, (∃ entry ∈ added, entry.call = later.call) ∨ later.call = spec.call := by
  obtain ⟨hpushBefore, hpushRest⟩ := forall_mem_append.mp hpush
  obtain ⟨hpushSpec, hpushAfter⟩ := forall_mem_cons.mp hpushRest
  obtain ⟨entries, hentries, hsub, hends, -⟩ := foldl_insertPush [] hpushBefore
  rw [nil_append] at hentries
  rw [List.getLast?_nil, or_none, hentries] at hends
  rw [foldl_append, foldl_cons, hentries, insertPush_eq_ite entries hpushSpec, hends]
  split
  · next hshared =>
    obtain ⟨added, hadded, haddedSub, -, hall⟩ := foldl_insertPush entries hpushAfter
    rw [hends, hshared] at hall
    refine ⟨entries, added, hadded, hends, hsub, haddedSub, fun later hlater => ?_⟩
    exact (hall later hlater).imp_right fun heq => (Option.some.inj heq).symm
  · obtain ⟨added, hadded, haddedSub, -, hall⟩ := foldl_insertPush (entries ++ [spec]) hpushAfter
    rw [List.getLast?_concat] at hall
    refine ⟨entries, added, hadded.trans (append_assoc ..), hends, hsub, haddedSub,
      fun later hlater => ?_⟩
    exact (hall later hlater).imp_right fun heq => (Option.some.inj heq).symm

/-! ## The calls for a link -/

variable [DecidableEq L] {linkOrder : List L} {appname linkname : String} {app : App L F} {link : L}

theorem pairwise_idxOf (h : linkOrder.Nodup) :
    linkOrder.Pairwise fun a b => linkOrder.idxOf a < linkOrder.idxOf b := by
  rw [pairwise_iff_getElem]
  intro i j hi hj hlt
  rwa [h.idxOf_getElem, h.idxOf_getElem]

section

variable (hspec : spec = inputSpec appname app linkname link)
  (hpush : ∀ other ∈ before ++ spec :: after, other.push.isSome)
  (horder : (before ++ spec :: after).Pairwise fun a b => linkOrder.idxOf a.link < linkOrder.idxOf b.link)
include hspec hpush horder

theorem CallLost.not_served (hlost : CallLost before after spec) :
    ¬ Served linkOrder ((before ++ spec :: after).foldl insertPush []) appname app linkname
      link := by
  obtain ⟨hshared, hown, hnotLater⟩ := hlost
  obtain ⟨-, hrest, hearlier⟩ := pairwise_append.mp horder
  obtain ⟨hlater, -⟩ := pairwise_cons.mp hrest
  have hlink : spec.link = link := by rw [hspec]; rfl
  have hname : spec.appname = appname := by rw [hspec]; rfl
  have happ : spec.app = app := by rw [hspec]; rfl
  obtain ⟨entries, added, hentries, hends, hsub, haddedSub, -⟩ := foldl_insertPush_around hpush
  rw [if_pos hshared, nil_append] at hentries
  rw [hentries]
  rintro (⟨push, -, call, hcall, -, -, hsame⟩ |
    ⟨earlier, call, rest, hsplit, hcallName, -, hcallPush, hposition⟩)
  · -- no entry has this very link
    rw [← hlink] at hsame
    rcases mem_append.mp hcall with hcall | hcall
    · have hlt := hearlier call (hsub call hcall) spec mem_cons_self
      rw [hsame] at hlt
      exact lt_irrefl _ hlt
    · have hlt := hlater call (haddedSub call hcall)
      rw [hsame] at hlt
      exact lt_irrefl _ hlt
  · have hgeneric : call.call = (spec.appname, spec.app.methods.push) := by
      rw [hname, happ, ← hcallName, ← hcallPush]
      rfl
    have hcall : call ∉ added := fun hcall => hnotLater call (haddedSub call hcall) hgeneric
    rcases append_eq_append_iff.mp hsplit with ⟨mid, -, hmid⟩ | ⟨mid, hmid, htail⟩
    · exact hcall (hmid ▸ mem_append_right _ mem_cons_self)
    cases mid with
    | nil =>
      rw [nil_append] at htail
      exact hcall (htail ▸ mem_cons_self)
    | cons head mid =>
      obtain ⟨rfl, rfl⟩ := htail
      cases mid with
      | nil =>
        -- the entry that is shared would be a call of the app's `push`
        rw [hshared, hmid, List.getLast?_concat, map_some, hgeneric] at hends
        exact hown (congrArg Prod.snd (Option.some.inj hends)).symm
      | cons next mid =>
        -- a call for an earlier link would come after it
        have hnext : next ∈ entries := by
          rw [hmid]
          exact mem_append_right _ (mem_cons_of_mem _ mem_cons_self)
        have hle := hposition next (mem_append_left _ mem_cons_self)
        have hlt := hearlier next (hsub next hnext) spec mem_cons_self
        rw [hlink] at hlt
        exact absurd hlt (Nat.not_lt.mpr hle)

theorem served_of_not_lost (hkept : ¬ CallLost before after spec) :
    Served linkOrder ((before ++ spec :: after).foldl insertPush []) appname app linkname link := by
  have hpushSpec := hpush spec (mem_append_right _ mem_cons_self)
  obtain ⟨-, hrest, -⟩ := pairwise_append.mp horder
  obtain ⟨hlater, -⟩ := pairwise_cons.mp hrest
  have hlink : spec.link = link := by rw [hspec]; rfl
  have hname : spec.appname = appname := by rw [hspec]; rfl
  have happ : spec.app = app := by rw [hspec]; rfl
  have hmethod : spec.push = (app.methods.pushLink.lookup linkname).or app.methods.push := by
    rw [hspec]
    rfl
  obtain ⟨entries, added, hentries, hends, -, haddedSub, hall⟩ := foldl_insertPush_around hpush
  have hposition {rest : List (InputSpec L F)} (hrest : ∀ other ∈ rest, other ∈ added) :
      ∀ other ∈ rest, linkOrder.idxOf link ≤ linkOrder.idxOf other.link := by
    intro other hother
    rw [← hlink]
    exact (hlater other (haddedSub other (hrest other hother))).le
  rw [hentries]
  by_cases hshared : before.getLast?.map InputSpec.call = some spec.call
  · rw [if_pos hshared]
    rw [hshared] at hends
    by_cases hown : spec.push = spec.app.methods.push
    · -- the call that is shared is one of the app's `push`
      obtain ⟨prev, hprev, hcall⟩ := Option.map_eq_some_iff.mp hends
      obtain ⟨init, rfl⟩ := List.getLast?_eq_some_iff.mp hprev
      have hprevPush : prev.push = spec.push := congrArg Prod.snd hcall
      refine .inr ⟨init, prev, added, by simp, (congrArg Prod.fst hcall).trans hname, ?_, ?_,
        hposition fun _ h => h⟩
      · rwa [hprevPush]
      · rw [hprevPush, hown, happ]
    · -- there is a later call of the app's `push`
      obtain ⟨later, hmem, hgeneric⟩ : ∃ later ∈ after,
          later.call = (spec.appname, spec.app.methods.push) := by
        by_contra hnone
        exact hkept ⟨hshared, hown, fun later hmem hcall => hnone ⟨later, hmem, hcall⟩⟩
      rcases hall later hmem with ⟨entry, hentry, hsame⟩ | hsame
      · obtain ⟨front, rest, rfl⟩ := append_of_mem hentry
        rw [hgeneric] at hsame
        have hentryPush : entry.push = spec.app.methods.push := congrArg Prod.snd hsame
        have hentryAfter := haddedSub entry hentry
        refine .inr ⟨entries ++ front, entry, rest, by simp,
          (congrArg Prod.fst hsame).trans hname, ?_, by rw [hentryPush, happ], ?_⟩
        · exact hpush entry (mem_append_right _ (mem_cons_of_mem _ hentryAfter))
        · exact hposition fun other hother =>
            mem_append_right _ (mem_cons_of_mem _ hother)
      · rw [hgeneric] at hsame
        exact absurd (congrArg Prod.snd hsame).symm hown
  · -- the input has an entry of its own
    rw [if_neg hshared]
    cases hlookup : app.methods.pushLink.lookup linkname with
    | some push =>
      rw [hlookup] at hmethod
      exact .inl ⟨push, hlookup, spec, by simp, hname, hmethod, hlink⟩
    | none =>
      rw [hlookup] at hmethod
      exact .inr ⟨entries, spec, added, rfl, hname, hpushSpec, hmethod, hposition fun _ h => h⟩

end

/-! ## The links of a network -/

theorem exhale_computeBreatheOrder (net : Network L F) (appPairs : Pairs String)
    (linkPairs : Pairs L) :
    ∃ order, computeBreatheOrder appPairs linkPairs net.apps = some order ∧
      exhale order.pushOrder = some order.pushOrder ∧ order.linkOrder.Nodup ∧
      (∀ link, link ∈ order.linkOrder ↔ ∃ spec, Receives net.apps link spec) ∧
      order.pushOrder =
        (pushInputs (collect appPairs net.apps).inputs order.linkOrder).foldl insertPush [] := by
  obtain ⟨order, hcompute, hnodup, hmem, -, hpushes⟩ := linkOrder_eq_some net appPairs linkPairs
  have hg := gathered_collect net.apps appPairs
  rw [pushOrder_eq_some _ _ fun link hlink => hg.mem_inputs.mpr ((hmem link).mp hlink),
    foldl_insertPush_filter, ← pushInputs] at hpushes
  have hpushed : ∀ spec ∈ pushInputs (collect appPairs net.apps).inputs order.linkOrder,
      spec.push.isSome := fun spec hspec => (mem_filter.mp hspec).2
  obtain ⟨entries, hentries, hsub, -, -⟩ := foldl_insertPush [] hpushed
  refine ⟨order, hcompute, exhale_eq_some fun spec hspec => ?_, hnodup, hmem,
    (Option.some.inj hpushes).symm⟩
  rw [← Option.some.inj hpushes, hentries] at hspec
  exact hpushed spec (hsub spec hspec)

/-- **Which links are served**: for every network and every input link with a push method, each
breath calls a push method that serves the link, if and only if its call is not lost. -/
theorem push_serves_iff (net : Network L F) (appPairs : Pairs String) (linkPairs : Pairs L) :
    ∃ order calls, computeBreatheOrder appPairs linkPairs net.apps = some order ∧
      exhale order.pushOrder = some calls ∧
      ∀ appname app linkname link, net.apps.lookup appname = some app →
        app.input.named.lookup linkname = some link →
        (inputSpec appname app linkname link).push.isSome →
        ∃ before after, pushInputs (collect appPairs net.apps).inputs order.linkOrder =
            before ++ inputSpec appname app linkname link :: after ∧
          (Served order.linkOrder calls appname app linkname link ↔
            ¬ CallLost before after (inputSpec appname app linkname link)) := by
  obtain ⟨order, hcompute, hcalls, hnodup, hmem, hpushOrder⟩ :=
    exhale_computeBreatheOrder net appPairs linkPairs
  refine ⟨order, order.pushOrder, hcompute, hcalls, ?_⟩
  intro appname app linkname link happ hport hpush
  have hreceives : Receives net.apps link (inputSpec appname app linkname link) :=
    ⟨appname, app, linkname, happ, hport, rfl⟩
  have hspec : inputSpec appname app linkname link ∈
      pushInputs (collect appPairs net.apps).inputs order.linkOrder := by
    refine mem_filter.mpr ⟨mem_filterMap.mpr ⟨link, ?_, ?_⟩, hpush⟩
    · exact (hmem link).mpr ⟨_, hreceives⟩
    · exact (lookup_collect_iff net appPairs).mpr hreceives
  have hlinks := pushInputs_links (collect appPairs net.apps).inputs (by
    intro link spec hspec
    obtain ⟨_, _, _, -, -, rfl⟩ := (lookup_collect_iff net appPairs).mp hspec
    rfl) order.linkOrder
  have hpositions := pairwise_map.mp ((pairwise_idxOf hnodup).sublist hlinks)
  have hpushed : ∀ spec ∈ pushInputs (collect appPairs net.apps).inputs order.linkOrder,
      spec.push.isSome := fun spec hspec => (mem_filter.mp hspec).2
  obtain ⟨before, after, hsplit⟩ := append_of_mem hspec
  refine ⟨before, after, hsplit, ?_⟩
  rw [hsplit] at hpushOrder hpositions hpushed
  rw [hpushOrder]
  exact ⟨fun hserved hlost => hlost.not_served rfl hpushed hpositions hserved,
    served_of_not_lost rfl hpushed hpositions⟩

def noPorts : Ports Nat := ⟨∅, []⟩

def twoPorts : Ports Nat := ⟨AList.insert "a" 0 (AList.insert "b" 1 ∅), [0, 1]⟩

def twoSource : App Nat Nat := ⟨⟨true, none, ∅, false⟩, noPorts, twoPorts⟩

/-- A sink with one method for both of its links. -/
def sharedSink : App Nat Nat :=
  ⟨⟨false, none, AList.insert "a" 5 (AList.insert "b" 5 ∅), false⟩, twoPorts, noPorts⟩

def sharedApps : Table String (App Nat Nat) :=
  AList.insert "source" twoSource (AList.insert "sink" sharedSink ∅)

theorem lookup_twoPorts {linkname : String} {link : Nat} :
    twoPorts.named.lookup linkname = some link ↔
      linkname = "a" ∧ link = 0 ∨ linkname = "b" ∧ link = 1 := by
  unfold twoPorts
  rw [lookup_insert_ite, lookup_insert_ite]
  grind [lookup_empty]

theorem lookup_sharedApps {appname : String} {app : App Nat Nat}
    (h : sharedApps.lookup appname = some app) :
    appname = "source" ∧ app = twoSource ∨ appname = "sink" ∧ app = sharedSink := by
  unfold sharedApps at h
  rw [lookup_insert_ite, lookup_insert_ite] at h
  grind [lookup_empty]

theorem lookup_sharedSink : sharedApps.lookup "sink" = some sharedSink := by
  rw [sharedApps, lookup_insert_ne (by decide), lookup_insert]

theorem receives_sharedApps {link : Nat} {spec : InputSpec Nat Nat} :
    Receives sharedApps link spec ↔ link = 0 ∧ spec = inputSpec "sink" sharedSink "a" 0 ∨
      link = 1 ∧ spec = inputSpec "sink" sharedSink "b" 1 := by
  constructor
  · rintro ⟨appname, app, linkname, happ, hlink, rfl⟩
    rcases lookup_sharedApps happ with ⟨rfl, rfl⟩ | ⟨rfl, rfl⟩
    · cases hlink
    · rcases lookup_twoPorts.mp hlink with ⟨rfl, rfl⟩ | ⟨rfl, rfl⟩
      · exact .inl ⟨rfl, rfl⟩
      · exact .inr ⟨rfl, rfl⟩
  · rintro (⟨rfl, rfl⟩ | ⟨rfl, rfl⟩)
    · exact ⟨"sink", sharedSink, "a", lookup_sharedSink, by decide, rfl⟩
    · exact ⟨"sink", sharedSink, "b", lookup_sharedSink, by decide, rfl⟩

/-- Two links from a source to a sink. -/
def sharedNetwork : Network Nat Nat where
  apps := sharedApps
  received := by
    rintro link ⟨appname, app, happ, hout⟩
    rcases lookup_sharedApps happ with ⟨rfl, rfl⟩ | ⟨rfl, rfl⟩
    · have hlink : link = 0 ∨ link = 1 := by
        rcases mem_append.mp hout with hout | hout
        · simpa [twoSource, twoPorts] using hout
        · obtain ⟨⟨linkname, _⟩, hentry, rfl⟩ := mem_map.mp hout
          rcases lookup_twoPorts.mp (AList.mem_lookup_iff.mpr hentry) with ⟨-, rfl⟩ | ⟨-, rfl⟩
          · exact .inl rfl
          · exact .inr rfl
      rcases hlink with rfl | rfl
      · exact ⟨_, receives_sharedApps.mpr (.inl ⟨rfl, rfl⟩)⟩
      · exact ⟨_, receives_sharedApps.mpr (.inr ⟨rfl, rfl⟩)⟩
    · cases hout
  once := by
    intro link spec spec' hspec hspec'
    rw [receives_sharedApps] at hspec hspec'
    grind

theorem push_serves_iff_shared :
    ∃ order calls,
      computeBreatheOrder ⟨id, fun _ => .refl _⟩ ⟨id, fun _ => .refl _⟩ sharedNetwork.apps =
        some order ∧ exhale order.pushOrder = some calls ∧
      ∃ before after,
        pushInputs (collect ⟨id, fun _ => .refl _⟩ sharedNetwork.apps).inputs order.linkOrder =
          before ++ inputSpec "sink" sharedSink "a" 0 :: after ∧
        (Served order.linkOrder calls "sink" sharedSink "a" 0 ↔
          ¬ CallLost before after (inputSpec "sink" sharedSink "a" 0)) := by
  obtain ⟨order, calls, horder, hcalls, hall⟩ :=
    push_serves_iff sharedNetwork ⟨id, fun _ => .refl _⟩ ⟨id, fun _ => .refl _⟩
  exact ⟨order, calls, horder, hcalls,
    hall "sink" sharedSink "a" 0 lookup_sharedSink (by decide) (by decide)⟩

/-- The two links share one call, which is made with one of them. -/
theorem shared_push_starves :
    ¬ ∀ order calls,
      computeBreatheOrder ⟨id, fun _ => .refl _⟩ ⟨id, fun _ => .refl _⟩ sharedNetwork.apps =
        some order → exhale order.pushOrder = some calls →
      Served order.linkOrder calls "sink" sharedSink "a" 0 ∧
        Served order.linkOrder calls "sink" sharedSink "b" 1 := by
  intro hall
  obtain ⟨order, hcompute, hcalls, -, -, hpushOrder⟩ :=
    exhale_computeBreatheOrder sharedNetwork ⟨id, fun _ => .refl _⟩ ⟨id, fun _ => .refl _⟩
  have hchain := isChain_foldl_insertPush
    (pushInputs (collect ⟨id, fun _ => .refl _⟩ sharedNetwork.apps).inputs order.linkOrder)
  have hpushed : ∀ spec ∈ pushInputs (collect ⟨id, fun _ => .refl _⟩ sharedNetwork.apps).inputs
      order.linkOrder, spec.push.isSome := fun spec hspec => (mem_filter.mp hspec).2
  obtain ⟨entries, hentries, hsub, -, -⟩ := foldl_insertPush [] hpushed
  rw [hentries, nil_append] at hpushOrder hchain
  have hcall : ∀ spec ∈ entries, spec.call = ("sink", some 5) := by
    intro spec hspec
    obtain ⟨link, -, hlookup⟩ := mem_filterMap.mp (mem_filter.mp (hsub spec hspec)).1
    rcases receives_sharedApps.mp ((lookup_collect_iff sharedNetwork _).mp hlookup) with
      ⟨-, rfl⟩ | ⟨-, rfl⟩
    · rfl
    · rfl
  have hlinks {linkname : String} {link : Nat}
      (h : Served order.linkOrder order.pushOrder "sink" sharedSink linkname link) :
      ∃ spec ∈ entries, spec.link = link := by
    rcases h with ⟨-, -, spec, hspec, -, -, hlink⟩ | ⟨-, spec, -, -, -, hsome, hnone, -⟩
    · exact ⟨spec, hpushOrder ▸ hspec, hlink⟩
    · rw [hnone] at hsome
      cases hsome
  obtain ⟨hfirst, hsecond⟩ := hall order _ hcompute hcalls
  obtain ⟨spec, hspec, hlink⟩ := hlinks hfirst
  obtain ⟨spec', hspec', hlink'⟩ := hlinks hsecond
  -- there is no more than one entry, as neighbours are different calls
  match entries, hchain, hcall, hspec, hspec' with
  | [entry], _, _, hspec, hspec' =>
    rw [mem_singleton.mp hspec] at hlink
    rw [mem_singleton.mp hspec', hlink] at hlink'
    cases hlink'
  | a :: b :: rest, hchain, hcall, _, _ =>
    obtain ⟨hne, -⟩ := isChain_cons_cons.mp hchain
    have hsame : a.call = b.call := by
      rw [hcall a mem_cons_self, hcall b (mem_cons_of_mem _ mem_cons_self)]
    exact hne hsame

end Snabb
