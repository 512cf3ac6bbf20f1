import Snabb.Lib.Yang.Data.Statements

/-!
# The members of a struct are read apart from each other (`lib/yang/data.lua`)

The statements of a struct may stand in any order: what is read for a member comes from the
statements that have its name (`payloadsOf`), and for the leaves of a choice it is kept which case
was chosen.

- `readStatements_facts`, `exists_readStatements`: what a struct has read, and when it reads on;
- `members_iff`: which statements give which fields.
-/

namespace Snabb

open Foundation List
open Function (update update_of_ne update_self)

namespace Yang

/-! ## Statements of one member -/

/-- The statements that have the name. -/
def payloadsOf (children : List (Str × Payload)) (k : Str) : List Payload :=
  children.filterMap fun c => if c.1 = k then some c.2 else none

theorem payloadsOf_snoc_self (children : List (Str × Payload)) (k : Str) (p : Payload) :
    payloadsOf (children ++ [(k, p)]) k = payloadsOf children k ++ [p] := by
  simp [payloadsOf]

theorem payloadsOf_snoc_of_ne {k k' : Str} (children : List (Str × Payload)) (p : Payload)
    (h : k ≠ k') : payloadsOf (children ++ [(k, p)]) k' = payloadsOf children k' := by
  simp [payloadsOf, h]

/-- What a node makes of statements, one after the other. -/
def feed (node : Node Payload) (out : Option Acc) (ps : List Payload) :
    Except ParseError (Option Acc) :=
  ps.foldlM (fun out p => (fun r => some r.1) <$> node.parse out p) out

/-- The same for a leaf of a choice. -/
def feedLeaf (node : Node Payload) (ps : List Payload) : Except ParseError (Option Acc) :=
  ps.foldlM (fun out p => (fun r => some r.1) <$> node.parse (node.resume out) p) none

/-- What is in the table of a struct for a member when it has read the statements. -/
def Member.fed (e : Member (Node Payload)) (ps : List Payload) : Except ParseError (Option Acc) :=
  match e.choice with
  | none => feed e.node e.node.init ps
  | some _ => feedLeaf e.node ps

/-- What a member reads on with. -/
def Member.input (e : Member (Node Payload)) (out : Option Acc) : Option Acc :=
  match e.choice with
  | none => out
  | some _ => e.node.resume out

variable {members : List (Member (Node Payload))} {e : Member (Node Payload)}
  {children : List (Str × Payload)} {st st' : Progress} {k : Str} {p : Payload}

theorem Member.fed_snoc (e : Member (Node Payload)) (ps : List Payload) (p : Payload) :
    e.fed (ps ++ [p]) = e.fed ps >>= fun out =>
      (fun r => some r.1) <$> e.node.parse (e.input out) p := by
  unfold Member.fed Member.input
  cases e.choice with
  | none => simp [feed]
  | some c => simp [feedLeaf]

/-! ## Statements of a struct -/

theorem find?_name (hids : (members.map Member.id).Nodup) (he : e ∈ members) :
    members.find? (·.name = e.name) = some e := by
  cases hfind : members.find? (·.name = e.name) with
  | none => exact absurd (decide_eq_true rfl) (List.find?_eq_none.mp hfind e he)
  | some e' =>
    have hname : e'.name = e.name := by simpa using List.find?_some hfind
    have hid : e'.id = e.id := by rw [Member.id, Member.id, hname]
    rw [inj_on_of_nodup_map hids (mem_of_find?_eq_some hfind) he hid]

/-- At first a member has what `init` makes, but a leaf of a choice has nothing. -/
theorem structInit_ret (hids : (members.map Member.id).Nodup) (he : e ∈ members) :
    e.fed [] = .ok ((structInit members).ret e.id) := by
  unfold structInit Member.fed
  simp only
  cases hfind : members.find? fun e' => e'.choice.isNone ∧ e'.id = e.id with
  | none =>
    have hleaf : e.choice ≠ none := by simpa using List.find?_eq_none.mp hfind e he
    obtain ⟨c, hc⟩ := Option.ne_none_iff_exists'.mp hleaf
    rw [hc]
    rfl
  | some e' =>
    have hmem := mem_of_find?_eq_some hfind
    have hfound : e'.choice = none ∧ e'.id = e.id := by simpa using List.find?_some hfind
    obtain rfl := inj_on_of_nodup_map hids hmem he hfound.2
    rw [hfound.1]
    rfl

/-- What a struct has read. -/
structure ReadFacts (members : List (Member (Node Payload))) (children : List (Str × Payload))
    (st : Progress) : Prop where
  known : ∀ c ∈ children, ∃ e ∈ members, e.name = c.1
  fed : ∀ e ∈ members, e.fed (payloadsOf children e.name) = .ok (st.ret e.id)
  chosen : ∀ e ∈ members, ∀ c, e.choice = some c → payloadsOf children e.name ≠ [] →
    st.chosen c.name = some c.case
  origin : ∀ name case, st.chosen name = some case → ∃ e ∈ members, ∃ c, e.choice = some c ∧
    c.name = name ∧ c.case = case ∧ payloadsOf children e.name ≠ []

/-- The statements of each choice are all of one case. -/
def OneCase (members : List (Member (Node Payload))) (children : List (Str × Payload)) : Prop :=
  ∀ e ∈ members, ∀ e' ∈ members, ∀ c c', e.choice = some c → e'.choice = some c' →
    c.name = c'.name → payloadsOf children e.name ≠ [] → payloadsOf children e'.name ≠ [] →
    c.case = c'.case

theorem ReadFacts.oneCase (h : ReadFacts members children st) : OneCase members children := by
  intro e he e' he' c c' hc hc' hname hps hps'
  have hcase := h.chosen e he c hc hps
  rw [hname, h.chosen e' he' c' hc' hps'] at hcase
  exact (Option.some.inj hcase).symm

theorem structStep_eq_ok {q : Payload} (h : structStep members st k p = .ok (st', q)) :
    ∃ e ∈ members, e.name = k ∧ ∃ out,
      (fun r => some r.1) <$> e.node.parse (e.input (st.ret e.id)) p = .ok out ∧
      st'.ret = update st.ret e.id out ∧
      ((e.choice = none ∧ st'.chosen = st.chosen) ∨ ∃ c, e.choice = some c ∧
        (st.chosen c.name = none ∨ st.chosen c.name = some c.case) ∧
        st'.chosen = update st.chosen c.name (some c.case)) := by
  unfold structStep at h
  cases hfind : members.find? (·.name = k) with
  | none =>
    rw [hfind] at h
    cases h
  | some e =>
    have hname : e.name = k := by simpa using List.find?_some hfind
    rw [hfind] at h
    refine ⟨e, mem_of_find?_eq_some hfind, hname, ?_⟩
    unfold Member.input
    cases hc : e.choice with
    | none =>
      simp only [hc] at h
      obtain ⟨⟨out, p'⟩, hout, hst⟩ := bind_eq_ok h
      cases hst
      exact ⟨some out, by simp only [hout]; rfl, rfl, .inl ⟨rfl, rfl⟩⟩
    | some c =>
      simp only [hc] at h
      split_ifs at h with hchosen
      · cases h
      · obtain ⟨⟨out, p'⟩, hout, hst⟩ := bind_eq_ok h
        cases hst
        refine ⟨some out, by simp only [hout]; rfl, rfl, .inr ⟨c, rfl, ?_, rfl⟩⟩
        tauto

theorem structStep_ok (hids : (members.map Member.id).Nodup) (he : e ∈ members) {a : Acc}
    {q : Payload} (hparse : e.node.parse (e.input (st.ret e.id)) p = .ok (a, q))
    (hfree : ∀ c, e.choice = some c →
      ¬ (st.chosen c.name ≠ none ∧ st.chosen c.name ≠ some c.case)) :
    ∃ st', structStep members st e.name p = .ok (st', q) := by
  have hfind := find?_name hids he
  obtain ⟨name, choice, node⟩ := e
  unfold structStep
  rw [hfind]
  cases choice with
  | none => exact ⟨_, bind_of_eq_ok hparse⟩
  | some c =>
    simp only [if_neg (hfree c rfl)]
    exact ⟨_, bind_of_eq_ok hparse⟩

theorem readStatements_snoc {step : Progress → Str → StateT Payload (Except ParseError) Progress}
    (children : List (Str × Payload)) (k : Str) (p : Payload) (st : Progress) :
    readStatements step (children ++ [(k, p)]) st =
      readStatements step children st >>= fun st => Prod.fst <$> step st k p := by
  simp [readStatements]

theorem payloadsOf_ne_nil_of_snoc {k' : Str} (h : payloadsOf children k' ≠ []) :
    payloadsOf (children ++ [(k, p)]) k' ≠ [] := by
  by_cases hname : k = k'
  · rw [← hname, payloadsOf_snoc_self]
    simp
  · rwa [payloadsOf_snoc_of_ne _ _ hname]

theorem id_name_ne (hids : (members.map Member.id).Nodup) {e' : Member (Node Payload)}
    (he : e ∈ members) (he' : e' ∈ members) (hne : e' ≠ e) : e'.id ≠ e.id ∧ e.name ≠ e'.name := by
  have hid : e'.id ≠ e.id := fun heq => hne (inj_on_of_nodup_map hids he' he heq)
  exact ⟨hid, fun hname => hid (by rw [Member.id, Member.id, hname])⟩

/-- **What is read for each member comes from its own statements.** -/
theorem readStatements_facts (hids : (members.map Member.id).Nodup)
    (h : readStatements (structStep members) children (structInit members) = .ok st) :
    ReadFacts members children st := by
  induction children using List.reverseRecOn generalizing st with
  | nil =>
    cases h
    exact ⟨nofun, fun e he => structInit_ret hids he, fun _ _ _ _ hps => absurd rfl hps, nofun⟩
  | append_singleton children c ih =>
    obtain ⟨k, p⟩ := c
    rw [readStatements_snoc] at h
    obtain ⟨mid, hmid, h⟩ := bind_eq_ok h
    obtain ⟨⟨_, q⟩, hstep, rfl⟩ := map_eq_ok h
    have hfacts := ih hmid
    obtain ⟨e, he, rfl, out, hout, hret, hchosen⟩ := structStep_eq_ok hstep
    have hother {e' : Member (Node Payload)} (he' : e' ∈ members) := id_name_ne hids he he'
    refine ⟨?_, ?_, ?_, ?_⟩
    · intro c hc
      rcases mem_append.mp hc with hc | hc
      · exact hfacts.known c hc
      · obtain rfl := mem_singleton.mp hc
        exact ⟨e, he, rfl⟩
    · intro e' he'
      by_cases heq : e' = e
      · subst heq
        rw [payloadsOf_snoc_self, Member.fed_snoc, hfacts.fed e' he', hret, update_self]
        exact hout
      · obtain ⟨hid, hname⟩ := hother he' heq
        rw [payloadsOf_snoc_of_ne _ _ hname, hret, update_of_ne hid]
        exact hfacts.fed e' he'
    · intro e' he' c hc hps
      by_cases heq : e' = e
      · subst heq
        obtain ⟨hplain, -⟩ | ⟨c', hc', -, hst⟩ := hchosen
        · rw [hplain] at hc
          cases hc
        · obtain rfl := Option.mem_unique hc hc'
          rw [hst, update_self]
      · rw [payloadsOf_snoc_of_ne _ _ (hother he' heq).2] at hps
        have hbefore := hfacts.chosen e' he' c hc hps
        obtain ⟨-, hst⟩ | ⟨c', hc', hfree, hst⟩ := hchosen
        · rw [hst, hbefore]
        · rw [hst]
          by_cases hname : c.name = c'.name
          · rw [← hname, hbefore] at hfree
            rw [← hname, update_self]
            exact (hfree.resolve_left nofun).symm
          · rw [update_of_ne hname, hbefore]
    · intro name case hcase
      obtain ⟨-, hst⟩ | ⟨c', hc', hfree, hst⟩ := hchosen
      · rw [hst] at hcase
        obtain ⟨e', he', c, hc, hn, hk, hps⟩ := hfacts.origin name case hcase
        exact ⟨e', he', c, hc, hn, hk, payloadsOf_ne_nil_of_snoc hps⟩
      · rw [hst] at hcase
        by_cases hname : name = c'.name
        · rw [hname, update_self] at hcase
          refine ⟨e, he, c', hc', hname.symm, Option.some.inj hcase, ?_⟩
          rw [payloadsOf_snoc_self]
          simp
        · rw [update_of_ne hname] at hcase
          obtain ⟨e', he', c, hc, hn, hk, hps⟩ := hfacts.origin name case hcase
          exact ⟨e', he', c, hc, hn, hk, payloadsOf_ne_nil_of_snoc hps⟩

/-- Statements are read if each member reads its own, and those of each choice are of one case. -/
theorem exists_readStatements (hids : (members.map Member.id).Nodup)
    (hknown : ∀ c ∈ children, ∃ e ∈ members, e.name = c.1)
    (hfed : ∀ e ∈ members, ∃ out, e.fed (payloadsOf children e.name) = .ok out)
    (hone : OneCase members children) :
    ∃ st, readStatements (structStep members) children (structInit members) = .ok st := by
  induction children using List.reverseRecOn with
  | nil => exact ⟨_, rfl⟩
  | append_singleton children c ih =>
    obtain ⟨k, p⟩ := c
    obtain ⟨e, he, rfl⟩ := hknown (k, p) (by simp)
    have hbefore : ∀ e' ∈ members, ∃ out, e'.fed (payloadsOf children e'.name) = .ok out := by
      intro e' he'
      obtain ⟨out, hout⟩ := hfed e' he'
      by_cases heq : e' = e
      · subst heq
        rw [payloadsOf_snoc_self, Member.fed_snoc] at hout
        obtain ⟨before, hbefore, -⟩ := bind_eq_ok hout
        exact ⟨before, hbefore⟩
      · rw [payloadsOf_snoc_of_ne _ _ (id_name_ne hids he he' heq).2] at hout
        exact ⟨out, hout⟩
    obtain ⟨st, hst⟩ := ih (fun c hc => hknown c (by simp [hc])) hbefore
      fun e he e' he' c c' hc hc' hname hps hps' => hone e he e' he' c c' hc hc' hname
        (payloadsOf_ne_nil_of_snoc hps) (payloadsOf_ne_nil_of_snoc hps')
    have hfacts := readStatements_facts hids hst
    have hself : payloadsOf (children ++ [(e.name, p)]) e.name ≠ [] := by
      rw [payloadsOf_snoc_self]
      simp
    obtain ⟨out, hout⟩ := hfed e he
    rw [payloadsOf_snoc_self, Member.fed_snoc, hfacts.fed e he] at hout
    obtain ⟨⟨a, q⟩, hparse, rfl⟩ := map_eq_ok hout
    rw [readStatements_snoc, hst]
    have hfree : ∀ c, e.choice = some c →
        ¬ (st.chosen c.name ≠ none ∧ st.chosen c.name ≠ some c.case) := by
      rintro c hc ⟨hsome, hne⟩
      obtain ⟨case, hcase⟩ := Option.ne_none_iff_exists'.mp hsome
      obtain ⟨e', he', c', hc', hname, rfl, hps⟩ := hfacts.origin c.name case hcase
      have hsame := hone e he e' he' c c' hc hc' hname.symm hself (payloadsOf_ne_nil_of_snoc hps)
      exact hne (by rw [hcase, hsame])
    obtain ⟨st', hstep⟩ := structStep_ok hids he hparse hfree
    refine ⟨st', ?_⟩
    show Prod.fst <$> structStep members st e.name p = _
    rw [hstep]
    rfl

/-! ## Fields -/

theorem finishMembers_eq_ok {σ : Type} {members : List (Member (Node σ))} {fields : Fields}
    (hids : (members.map Member.id).Nodup) : finishMembers members st = .ok fields ↔
      (∀ e ∈ members, finishMember st e = .ok (fields e.id)) ∧
        ∀ id ∉ members.map Member.id, fields id = none := by
  have hloop start : members.foldlM (fun fields e => do
      let d ← finishMember st e
      return update fields e.id d) start = .ok fields ↔
      (∀ e ∈ members, finishMember st e = .ok (fields e.id)) ∧
        ∀ id ∉ members.map Member.id, fields id = start id := by
    induction members generalizing start with
    | nil =>
      constructor
      · intro h
        cases h
        exact ⟨nofun, fun _ _ => rfl⟩
      · rintro ⟨-, h⟩
        exact congrArg Except.ok (funext fun id => (h id nofun).symm)
    | cons e members ih =>
      obtain ⟨hid, hids⟩ := nodup_cons.mp hids
      rw [foldlM_cons]
      cases hd : finishMember st e with
      | error err =>
        refine ⟨nofun, fun h => ?_⟩
        cases hd.symm.trans (h.1 e mem_cons_self)
      | ok d =>
        refine (ih hids _).trans ?_
        constructor
        · rintro ⟨hall, hrest⟩
          have hself : fields e.id = d := by rw [hrest _ hid, update_self]
          refine ⟨?_, fun id hout => ?_⟩
          · rintro e' (_ | ⟨_, he'⟩)
            · rw [hd, hself]
            · exact hall e' he'
          · rw [map_cons, mem_cons, not_or] at hout
            obtain ⟨hne, hout⟩ := hout
            rw [hrest id hout, update_of_ne hne]
        · rintro ⟨hall, hrest⟩
          refine ⟨fun e' he' => hall e' (mem_cons_of_mem _ he'), fun id hout => ?_⟩
          by_cases hne : id = e.id
          · subst hne
            rw [update_self]
            exact (ok_unique hd (hall e mem_cons_self)).symm
          · rw [update_of_ne hne]
            exact hrest id (by simp [hne, hout])
  exact hloop _

/-- There is a statement for a leaf of the choice. -/
def Chosen (members : List (Member (Node Payload))) (children : List (Str × Payload))
    (name : Str) : Prop :=
  ∃ e ∈ members, ∃ c, e.choice = some c ∧ c.name = name ∧ payloadsOf children e.name ≠ []

/-- The member becomes `d`. -/
def MemberReads (members : List (Member (Node Payload))) (children : List (Str × Payload))
    (e : Member (Node Payload)) (d : Option Data) : Prop :=
  match e.choice with
  | none => feed e.node e.node.init (payloadsOf children e.name) >>= e.node.finish = .ok d
  | some c =>
    (payloadsOf children e.name ≠ [] ∧
      feedLeaf e.node (payloadsOf children e.name) >>= e.node.finish = .ok d) ∨
    (payloadsOf children e.name = [] ∧ (c.mandatory = true → Chosen members children c.name) ∧
      (if c.default = some c.case then e.node.bare else .ok none) = .ok d)

theorem feedLeaf_isSome {node : Node Payload} {ps : List Payload} {out : Option Acc}
    (hps : ps ≠ []) (h : feedLeaf node ps = .ok out) : ∃ a, out = some a := by
  obtain ⟨ps, p, rfl⟩ := eq_nil_or_concat ps |>.resolve_left hps
  rw [feedLeaf, concat_eq_append, foldlM_append] at h
  obtain ⟨mid, -, h⟩ := bind_eq_ok h
  obtain ⟨out', hout, hnil⟩ := bind_eq_ok h
  cases hnil
  obtain ⟨r, -, rfl⟩ := map_eq_ok hout
  exact ⟨r.1, rfl⟩

theorem ReadFacts.chosen_iff (h : ReadFacts members children st) (name : Str) :
    st.chosen name ≠ none ↔ Chosen members children name := by
  constructor
  · intro hsome
    obtain ⟨case, hcase⟩ := Option.ne_none_iff_exists'.mp hsome
    obtain ⟨e, he, c, hc, hname, -, hps⟩ := h.origin name case hcase
    exact ⟨e, he, c, hc, hname, hps⟩
  · rintro ⟨e, he, c, hc, rfl, hps⟩
    rw [h.chosen e he c hc hps]
    exact nofun

theorem ReadFacts.finishMember_iff (h : ReadFacts members children st) (he : e ∈ members)
    {d : Option Data} : finishMember st e = .ok d ↔ MemberReads members children e d := by
  have hfed := h.fed e he
  unfold finishMember MemberReads
  unfold Member.fed at hfed
  cases hc : e.choice with
  | none =>
    simp only [hc] at hfed ⊢
    rw [bind_of_eq_ok hfed]
  | some c =>
    simp only [hc] at hfed ⊢
    have hchosen := h.chosen_iff c.name
    by_cases hps : payloadsOf children e.name = []
    · have hnone : st.ret e.id = none := by
        rw [hps] at hfed
        exact (Except.ok.inj hfed).symm
      rw [hnone]
      simp only [hps, ne_eq, not_true_eq_false, false_and, false_or, true_and]
      by_cases hmandatory : c.mandatory = true ∧ st.chosen c.name = none
      · rw [if_pos hmandatory]
        exact ⟨nofun, fun hd => absurd hmandatory.2 (hchosen.mpr (hd.1 hmandatory.1))⟩
      · rw [if_neg hmandatory]
        refine ⟨fun hd => ⟨fun hm => hchosen.mp fun hnot => hmandatory ⟨hm, hnot⟩, hd⟩, And.right⟩
    · obtain ⟨a, ha⟩ := feedLeaf_isSome hps hfed
      rw [bind_of_eq_ok hfed, ha]
      simp [hps]

/-- **The fields that statements give.** -/
theorem members_iff (hids : (members.map Member.id).Nodup) {fields : Fields} :
    (∃ st, readStatements (structStep members) children (structInit members) = .ok st ∧
      finishMembers members st = .ok fields) ↔
    (∀ c ∈ children, ∃ e ∈ members, e.name = c.1) ∧ OneCase members children ∧
      (∀ e ∈ members, MemberReads members children e (fields e.id)) ∧
      ∀ id ∉ members.map Member.id, fields id = none := by
  constructor
  · rintro ⟨st, hst, hfinish⟩
    have hfacts := readStatements_facts hids hst
    obtain ⟨hall, hout⟩ := (finishMembers_eq_ok hids).mp hfinish
    exact ⟨hfacts.known, hfacts.oneCase, fun e he => (hfacts.finishMember_iff he).mp (hall e he),
      hout⟩
  · rintro ⟨hknown, hone, hall, hout⟩
    have hfed : ∀ e ∈ members, ∃ out, e.fed (payloadsOf children e.name) = .ok out := by
      intro e he
      have hreads := hall e he
      unfold MemberReads at hreads
      unfold Member.fed
      cases hc : e.choice with
      | none =>
        simp only [hc] at hreads ⊢
        obtain ⟨out, hout, -⟩ := bind_eq_ok hreads
        exact ⟨out, hout⟩
      | some c =>
        simp only [hc] at hreads ⊢
        rcases hreads with ⟨-, hreads⟩ | ⟨hps, -⟩
        · obtain ⟨out, hout, -⟩ := bind_eq_ok hreads
          exact ⟨out, hout⟩
        · rw [hps]
          exact ⟨none, rfl⟩
    obtain ⟨st, hst⟩ := exists_readStatements hids hknown hfed hone
    have hfacts := readStatements_facts hids hst
    exact ⟨st, hst, (finishMembers_eq_ok hids).mpr
      ⟨fun e he => (hfacts.finishMember_iff he).mpr (hall e he), hout⟩⟩

end Yang

end Snabb
