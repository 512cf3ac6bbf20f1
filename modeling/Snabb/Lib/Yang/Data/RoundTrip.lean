import Snabb.Lib.Yang.Data.Nodes
import Snabb.Lib.Yang.Data.Reading

/-!
# Configurations are brought back by their texts (`lib/yang/data.lua`)

- `Returns`: what a node has obtained is read again if and only if it is `Good`;
- `body_returns`: a struct or an entry of a list returns if its members do;
- `visit_returns`: every node returns.
-/

namespace Snabb

open Foundation List
open Except (ok.inj)
open Option (some.inj bind_eq_some_iff mem_unique)

namespace Yang

variable {env : Env} {printDefault : Bool} {store : Primitive → Value → Value}

/-- The nodes of the members of a struct. -/
def nodes (env : Env) (members : List (Str × Grammar)) : List (Member (Node Payload)) :=
  (expand members).map (Member.map (node env))

/-- The fields that a block gives. -/
def readFields (members : List (Member (Node Payload))) : Payload → Except ParseError Fields
  | .block children =>
    readStatements (structStep members) children (structInit members) >>= finishMembers members
  | _ => .error .expected

theorem node_struct (members : List (Str × Grammar)) : node env (.struct members) =
    structParser statementSource (nodes env members) (membersCtype members)
      (structStore members) := by
  rw [node, visit, visitn_eq]
  rfl

theorem node_list (keys : List (Str × Scalar)) (values : List (Str × Grammar)) :
    node env (.list keys values) =
      listParser env statementSource (nodes env (listMembers keys values)) keys values := by
  rw [node, visit_list, visitn_eq]
  rfl

theorem struct_parse (members : List (Str × Grammar)) (children : List (Str × Payload)) :
    (node env (.struct members)).parse none (.block children) =
      readStatements (structStep (nodes env members)) children (structInit (nodes env members)) >>=
        fun st => .ok (.struct st.ret st.chosen, .block children) := by
  rw [node_struct]
  show ((readStatements (structStep (nodes env members)) children
    (structInit (nodes env members)) >>= fun st => Except.ok (st, Payload.block children)) >>=
      fun r => Except.ok (Acc.struct r.1.ret r.1.chosen, r.2)) = _
  cases readStatements (structStep (nodes env members)) children
    (structInit (nodes env members)) <;> rfl

theorem settle_struct (members : List (Str × Grammar)) (p : Payload) :
    settle (node env (.struct members)) [p] =
      (fun fields => some (.struct (structStore members fields))) <$>
        readFields (nodes env members) p := by
  unfold settle
  rw [feed_single]
  cases p with
  | block children =>
    have hinit : (node env (.struct members)).init = none := by rw [node_struct]; rfl
    rw [hinit, struct_parse, readFields]
    cases readStatements (structStep (nodes env members)) children
        (structInit (nodes env members)) with
    | error e => rfl
    | ok st =>
      rw [node_struct]
      cases finishMembers (nodes env members) st <;> rfl
  | _ =>
    rfl

theorem list_parse (keys : List (Str × Scalar)) (values : List (Str × Grammar))
    (given : List Fields) (p : Payload) :
    (node env (.list keys values)).parse (some (.list given)) p =
      readFields (nodes env (listMembers keys values)) p >>= fun entry =>
        (fun given => (.list given, p)) <$> addEntry env keys values given entry := by
  rw [node_list]
  cases p with
  | block children =>
    rw [readFields]
    generalize nodes env (listMembers keys values) = members
    show ((readStatements (structStep members) children (structInit members) >>=
      fun st => Except.ok (st, Payload.block children)) >>= fun r =>
        (StateT.lift (finishMembers members r.1) >>= fun entry => (do
          return .list (← StateT.lift (addEntry env keys values given entry)) :
            StateT Payload (Except ParseError) Acc)) r.2) = _
    cases readStatements (structStep members) children (structInit members) with
    | error e => rfl
    | ok st =>
      show (StateT.lift (finishMembers members st) >>= fun entry => (do
        return .list (← StateT.lift (addEntry env keys values given entry)) :
          StateT Payload (Except ParseError) Acc)) (.block children) =
        finishMembers members st >>= _
      cases finishMembers members st with
      | error e => rfl
      | ok entry =>
        show (StateT.lift (addEntry env keys values given entry) >>= fun given =>
          (pure (.list given) : StateT Payload (Except ParseError) Acc)) (.block children) =
            _ <$> addEntry env keys values given entry
        cases addEntry env keys values given entry <;> rfl
  | _ => rfl

/-- What a list is given by its blocks. -/
def readEntries (env : Env) (keys : List (Str × Scalar)) (values : List (Str × Grammar))
    (given : List Fields) (ps : List Payload) : Except ParseError (List Fields) :=
  ps.foldlM (fun given p =>
    readFields (nodes env (listMembers keys values)) p >>= addEntry env keys values given) given

theorem list_feed (keys : List (Str × Scalar)) (values : List (Str × Grammar))
    (given : List Fields) (ps : List Payload) :
    feed (node env (.list keys values)) (some (.list given)) ps =
      (fun given => some (.list given)) <$> readEntries env keys values given ps := by
  induction ps generalizing given with
  | nil => rfl
  | cons p ps ih =>
    rw [feed, foldlM_cons, list_parse, readEntries, foldlM_cons]
    cases readFields (nodes env (listMembers keys values)) p with
    | error e => rfl
    | ok entry =>
      show (((fun r => some r.1) <$> ((fun given => (Acc.list given, p)) <$>
        addEntry env keys values given entry)) >>= fun out => feed _ out ps) =
          _ <$> (addEntry env keys values given entry >>= fun given =>
            readEntries env keys values given ps)
      cases addEntry env keys values given entry with
      | error e => rfl
      | ok given' => exact ih given'

/-! ## What was obtained -/

/-- What a member has may come of statements, of its default, or of nothing. -/
def MemberObtained (env : Env) (e : Member Grammar) (d : Option Data) : Prop :=
  match e.choice with
  | none => Obtained env e.node d
  | some c =>
    (∃ ps, ps ≠ [] ∧ settle (node env e.node) ps = .ok d) ∨
      (if c.default = some c.case then (node env e.node).bare else .ok none) = .ok d

/-- The fields may come of a block, or of a struct that is not there. -/
def BodyObtained (env : Env) (members : List (Str × Grammar)) (fields : Fields) : Prop :=
  (∀ e ∈ expand members, MemberObtained env e (fields e.id)) ∧
    ∀ id ∉ (expand members).map Member.id, fields id = none

theorem nodes_ids (env : Env) (members : List (Str × Grammar)) :
    (nodes env members).map Member.id = (expand members).map Member.id := by
  rw [nodes, map_map]
  rfl

variable {fields entry : Fields} {ps : List Payload} {g : Grammar} {c : Choice} {d₀ : Option Data}
  {members : List (Str × Grammar)}

theorem readFields_obtained {p : Payload} (hids : ((expand members).map Member.id).Nodup)
    (h : readFields (nodes env members) p = .ok fields) : BodyObtained env members fields := by
  cases p with
  | block children =>
    obtain ⟨st, hst, hfinish⟩ := bind_eq_ok h
    rw [← nodes_ids env] at hids
    obtain ⟨-, -, hall, hout⟩ := (members_iff hids).mp ⟨st, hst, hfinish⟩
    rw [nodes_ids] at hout
    refine ⟨fun e he => ?_, hout⟩
    have hreads := hall (e.map (node env)) (mem_map_of_mem he)
    unfold MemberReads at hreads
    unfold MemberObtained
    simp only [Member.map_choice, Member.map_node, Member.map_id] at hreads
    cases hc : e.choice with
    | none =>
      simp only [hc] at hreads
      exact .inl ⟨_, hreads⟩
    | some c =>
      simp only [hc] at hreads
      rcases hreads with ⟨hps, hreads⟩ | ⟨-, -, hreads⟩
      · obtain ⟨out, hout, hfinish⟩ := bind_eq_ok hreads
        obtain ⟨ps, hne, hfeed⟩ := exists_feed_of_feedLeaf hps hout
        exact .inl ⟨ps, hne, by rw [settle, bind_of_eq_ok hfeed, hfinish]⟩
      · exact .inr hreads
  | _ => cases h

theorem absent_obtained (hids : ((expand members).map Member.id).Nodup)
    (h : finishMembers (nodes env members) ⟨fun _ => none, fun _ => none⟩ = .ok fields) :
    BodyObtained env members fields := by
  rw [← nodes_ids env] at hids
  obtain ⟨hall, hout⟩ := (finishMembers_eq_ok hids).mp h
  rw [nodes_ids] at hout
  refine ⟨fun e he => ?_, hout⟩
  have hfinish := hall (e.map (node env)) (mem_map_of_mem he)
  unfold finishMember at hfinish
  unfold MemberObtained
  simp only [Member.map_choice] at hfinish
  cases hc : e.choice with
  | none =>
    simp only [hc] at hfinish
    exact .inr hfinish
  | some c =>
    simp only [hc] at hfinish
    split_ifs at hfinish with hmandatory hdefault
    · exact .inr (by rwa [if_pos hdefault])
    · exact .inr (by rwa [if_neg hdefault])

theorem struct_finish_none (members : List (Str × Grammar)) :
    (node env (.struct members)).finish none =
      if (nodes env members).isEmpty then
        if membersCtype members then .error .unsupported else .ok none
      else finishMembers (nodes env members) ⟨fun _ => none, fun _ => none⟩ >>= fun fields =>
        .ok (some (.struct (structStore members fields))) := by
  rw [node_struct]
  rfl

variable {d : Option Data}

theorem struct_settle_eq_ok (hps : ps ≠ []) (h : settle (node env (.struct members)) ps = .ok d) :
    ∃ p fields, readFields (nodes env members) p = .ok fields ∧
      d = some (.struct (structStore members fields)) := by
  have hout {a : Acc} {p : Payload} {r : Acc × Payload} :
      (node env (.struct members)).parse (some a) p ≠ .ok r := by
    exact nofun
  obtain ⟨out, hfeed, hfinish⟩ := bind_eq_ok h
  obtain ⟨rfl, -⟩ | ⟨before, p, mid, a, q, rfl, hbefore, hparse, rfl⟩ := feed_last hfeed
  · exact absurd rfl hps
  · obtain ⟨rfl, rfl⟩ | ⟨_, _, _, a', _, -, -, -, rfl⟩ := feed_last hbefore
    · rw [nil_append, settle_struct] at h
      obtain ⟨fields, hfields, rfl⟩ := map_eq_ok h
      exact ⟨p, fields, hfields, rfl⟩
    · exact absurd hparse hout

theorem obtained_struct
    (hids : ((expand members).map Member.id).Nodup) (h : Obtained env (.struct members) d) :
    (d = none ∧ (node env (.struct members)).finish none = .ok none) ∨
      ∃ fields, BodyObtained env members fields ∧
        d = some (.struct (structStore members fields)) := by
  have hnone (h : (node env (.struct members)).finish none = .ok d) :
      (d = none ∧ (node env (.struct members)).finish none = .ok none) ∨
        ∃ fields, BodyObtained env members fields ∧
          d = some (.struct (structStore members fields)) := by
    have hfinish := h
    rw [struct_finish_none] at h
    split_ifs at h
    · cases h
      exact .inl ⟨rfl, hfinish⟩
    · obtain ⟨fields, hfields, h⟩ := bind_eq_ok h
      exact .inr ⟨fields, absent_obtained hids hfields, (ok.inj h).symm⟩
  rcases h with ⟨ps, h⟩ | h
  · by_cases hps : ps = []
    · subst hps
      have hinit : (node env (.struct members)).init = none := by rw [node_struct]; rfl
      exact hnone h
    · obtain ⟨p, fields, hfields, rfl⟩ := struct_settle_eq_ok hps h
      exact .inr ⟨fields, readFields_obtained hids hfields, rfl⟩
  · exact hnone h

variable {values : List (Str × Grammar)} {keys : List (Str × Scalar)}

theorem addEntry_eq_ok {given given' : List Fields} {entry : Fields} :
    addEntry env keys values given entry = .ok given' ↔
      env.listed keys given entry = false ∧
      (entryComplete keys values entry = true ∧ stringsFit keys values entry = true) ∧
      given' = given ++ [entry] := by
  unfold addEntry
  constructor
  · intro h
    split_ifs at h with hlisted hcomplete hfits
    exact ⟨Bool.eq_false_of_not_eq_true hlisted, ⟨hcomplete, hfits⟩, (ok.inj h).symm⟩
  · rintro ⟨hlisted, ⟨hcomplete, hfits⟩, rfl⟩
    rw [hlisted, if_neg Bool.false_ne_true, if_pos hcomplete, if_pos hfits]

/-- Each entry of a list was read, found to be complete, and not found among those before it. -/
theorem readEntries_eq_ok
    {given : List Fields} (h : readEntries env keys values [] ps = .ok given) :
    given.length = ps.length ∧ ∀ entry ∈ given,
      (entryComplete keys values entry = true ∧ stringsFit keys values entry = true) ∧
      ∃ p, readFields (nodes env (listMembers keys values)) p = .ok entry := by
  induction ps using List.reverseRecOn generalizing given with
  | nil =>
    cases h
    exact ⟨rfl, nofun⟩
  | append_singleton ps p ih =>
    rw [readEntries, foldlM_append] at h
    obtain ⟨mid, hmid, h⟩ := bind_eq_ok h
    obtain ⟨given', hlast, hnil⟩ := bind_eq_ok h
    cases hnil
    obtain ⟨entry, hentry, hadd⟩ := bind_eq_ok hlast
    obtain ⟨hlength, hall⟩ := ih hmid
    obtain ⟨-, hkept, rfl⟩ := addEntry_eq_ok.mp hadd
    refine ⟨by simp [hlength], fun entry' hmem => ?_⟩
    rcases mem_append.mp hmem with hmem | hmem
    · exact hall entry' hmem
    · obtain rfl := mem_singleton.mp hmem
      exact ⟨hkept, p, hentry⟩

/-- Entries as they are read from their list. -/
def storedEntry (keys : List (Str × Scalar)) (values : List (Str × Grammar)) : Fields → Fields :=
  storeFields Primitive.store (expand (listMembers keys values))

theorem list_settle_eq_ok (h : settle (node env (.list keys values)) ps = .ok d) :
    ∃ given, readEntries env keys values [] ps = .ok given ∧
      d = some (.list (given.map (storedEntry keys values))) := by
  have hinit : (node env (.list keys values)).init = some (.list []) := by rw [node_list]; rfl
  unfold settle at h
  rw [hinit, list_feed] at h
  obtain ⟨out, hout, h⟩ := bind_eq_ok h
  obtain ⟨given, hgiven, rfl⟩ := map_eq_ok hout
  exact ⟨given, hgiven, (ok.inj h).symm⟩

theorem obtained_list (h : Obtained env (.list keys values) d) :
    d = none ∨ ∃ given ps, readEntries env keys values [] ps = .ok given ∧
      d = some (.list (given.map (storedEntry keys values))) := by
  rcases h with ⟨ps, h⟩ | h
  · obtain ⟨given, hgiven, rfl⟩ := list_settle_eq_ok h
    exact .inr ⟨given, ps, hgiven, rfl⟩
  · rw [node_list] at h
    exact .inl (ok.inj h).symm

/-- Statements give data, and more than an empty list or leaf-list. -/
theorem settle_some (hps : ps ≠ []) (h : settle (node env g) ps = .ok d) :
    ∃ d', d = some d' ∧ d' ≠ .array [] ∧ d' ≠ .list [] := by
  have hlength : 0 < ps.length := length_pos_iff.mpr hps
  cases g with
  | scalar s =>
    obtain ⟨out, hfeed, hfinish⟩ := bind_eq_ok h
    obtain ⟨rfl, -⟩ | ⟨_, p, mid, a, q, -, -, hparse, rfl⟩ := feed_last hfeed
    · exact absurd rfl hps
    · obtain ⟨-, v, arg, rfl, -⟩ := scalar_parse_eq_ok hparse
      exact ⟨.value v, (ok.inj hfinish).symm, nofun, nofun⟩
  | array elementType =>
    obtain ⟨out, hfeed, hfinish⟩ := bind_eq_ok h
    obtain ⟨vs, rfl, hvs, -⟩ := array_feed hfeed
    refine ⟨.array vs, (ok.inj hfinish).symm, ?_, nofun⟩
    rintro ⟨⟩
    exact absurd hvs hlength.ne
  | struct members =>
    obtain ⟨_, fields, -, rfl⟩ := struct_settle_eq_ok hps h
    exact ⟨_, rfl, nofun, nofun⟩
  | list keys values =>
    obtain ⟨given, hgiven, rfl⟩ := list_settle_eq_ok h
    refine ⟨_, rfl, nofun, ?_⟩
    have hgivens := (readEntries_eq_ok hgiven).1
    intro hnil
    rw [Data.list.inj hnil |> map_eq_nil_iff.mp] at hgivens
    rw [← hgivens] at hlength
    exact absurd hlength (lt_irrefl 0)
  | choice default mandatory leaves =>
    obtain ⟨out, hfeed, -⟩ := bind_eq_ok h
    obtain ⟨rfl, -⟩ | ⟨_, p, mid, a, q, -, -, hparse, -⟩ := feed_last hfeed
    · exact absurd rfl hps
    · cases hparse

/-! ## Members -/

/-- What is printed for a node is read again if and only if it is good, and as it was. -/
def Returns (env : Env) (printDefault : Bool) (g : Grammar) : Prop :=
  ∀ store, Keeps env store → ∀ d₀, Obtained env g d₀ →
    ∃ ps, fieldStatements (printerOf env.toProtocol printDefault g) (storeField store g d₀) =
        some ps ∧
      ∀ x, settle (node env g) ps = .ok x ∧ storeField store g x = storeField store g d₀ ↔
        x = storeField store g d₀ ∧ Good env printDefault g (storeField store g d₀)

variable {e : Member Grammar}

/-- What is obtained of a leaf of a choice may be obtained elsewhere, or is nothing. -/
theorem MemberObtained.leaf (hc : e.choice = some c)
    (h : MemberObtained env e d) : d = none ∨ Obtained env e.node d := by
  unfold MemberObtained at h
  simp only [hc] at h
  rcases h with ⟨ps, -, h⟩ | h
  · exact .inr (.inl ⟨ps, h⟩)
  · split_ifs at h
    · cases hg : e.node with
      | scalar s =>
        rw [hg] at h
        exact .inr (.inr h)
      | array elementType =>
        rw [hg] at h
        exact .inl (ok.inj h).symm
      | struct members =>
        rw [hg] at h
        cases h
      | list keys values =>
        rw [hg] at h
        exact .inl (ok.inj h).symm
      | choice default mandatory leaves =>
        rw [hg] at h
        cases h
    · exact .inl (ok.inj h).symm

variable {d : Data} {entries : List Fields}

theorem MemberObtained.ne (hc : e.choice = some c) (h : MemberObtained env e (some d)) :
    d ≠ .array [] ∧ d ≠ .list [] := by
  have hobtained := (h.leaf hc).resolve_left nofun
  unfold MemberObtained at h
  simp only [hc] at h
  rcases h with ⟨ps, hps, h⟩ | h
  · obtain ⟨d', hd, hne⟩ := settle_some hps h
    cases hd
    exact hne
  · split_ifs at h
    · cases hg : e.node with
      | scalar s =>
        rw [hg] at hobtained
        obtain ⟨hd, -⟩ | ⟨v, hd, -⟩ := obtained_scalar hobtained
        · cases hd
        · cases hd
          exact ⟨nofun, nofun⟩
      | array elementType | choice default mandatory leaves =>
        rw [hg] at h
        cases h
      | struct members =>
        rw [hg] at h
        cases h
      | list keys values =>
        rw [hg] at h
        cases h
    · cases h

theorem MemberObtained.stored_ne (hc : e.choice = some c) (h : MemberObtained env e d₀)
    (hd : storeField store e.node d₀ = some d) : d ≠ .array [] ∧ d ≠ .list [] := by
  cases d₀ with
  | none =>
    rw [storeField_none] at hd
    cases hd
  | some d₁ =>
    have hd₁ := h.ne hc
    unfold storeField at hd
    split at hd
    · cases hd
      exact ⟨nofun, nofun⟩
    · cases hd
      exact hd₁

theorem mapM_eq_some_nil {α β : Type} {f : α → Option β} {xs : List α}
    (h : xs.mapM f = some []) : xs = [] := by
  cases xs with
  | nil => rfl
  | cons x xs =>
    rw [mapM_cons] at h
    obtain ⟨y, -, h⟩ := bind_eq_some_iff.mp h
    obtain ⟨ys, -, h⟩ := bind_eq_some_iff.mp h
    cases h

theorem scalarPrinter_eq_some {s : Scalar}
    (h : scalarPrinter env.toProtocol printDefault s d = some ps) :
    ∃ v text, d = .value v ∧ s.argumentType.primitive.tostring env.toProtocol v = some text ∧
      ps = if s.omits printDefault text then [] else [.argument text] := by
  cases d with
  | value v =>
    obtain ⟨text, htext, h⟩ := bind_eq_some_iff.mp h
    refine ⟨v, text, rfl, htext, ?_⟩
    split_ifs at h ⊢ <;> exact (some.inj h).symm
  | _ => cases h

theorem structPrinter_eq_some
    (h : printerOf env.toProtocol printDefault (.struct members) d = some ps) : ∃ p, ps = [p] := by
  unfold printerOf printMember at h
  cases hprinters : printMembers env.toProtocol printDefault members with
  | none =>
    rw [hprinters] at h
    cases h
  | some printers =>
    rw [hprinters] at h
    cases d with
    | struct fields =>
      obtain ⟨children, -, h⟩ := bind_eq_some_iff.mp h
      exact ⟨_, (some.inj h).symm⟩
    | _ => cases h

/-- Nothing is printed for a scalar that is left out, and for an empty list or leaf-list. -/
theorem printed_nil (h : printerOf env.toProtocol printDefault g d = some []) :
    Omitted env printDefault g d ∨ d = .array [] ∨ d = .list [] := by
  cases g with
  | scalar s =>
    obtain ⟨v, text, rfl, htext, hps⟩ := scalarPrinter_eq_some h
    split_ifs at hps with homits
    exact .inl ⟨s, v, text, rfl, rfl, htext, homits⟩
  | array elementType =>
    cases d with
    | array vs => exact .inr (.inl (congrArg Data.array (mapM_eq_some_nil h)))
    | _ => cases h
  | struct members =>
    obtain ⟨p, hp⟩ := structPrinter_eq_some h
    cases hp
  | list keys values =>
    unfold printerOf printMember at h
    cases hprinters : printMembers env.toProtocol printDefault values with
    | none =>
      rw [hprinters] at h
      cases h
    | some printers =>
      rw [hprinters] at h
      cases d with
      | list entries => exact .inr (.inr (congrArg Data.list (mapM_eq_some_nil h)))
      | _ => cases h
  | choice default mandatory leaves => cases h

theorem Omitted.printed (h : Omitted env printDefault g d) :
    printerOf env.toProtocol printDefault g d = some [] := by
  obtain ⟨s, v, text, rfl, rfl, htext, homits⟩ := h
  simp [printerOf, printMember, scalarPrinter, htext, homits]

/-- A leaf that does not go on with its table has one statement at most. -/
theorem printed_length (h : printerOf env.toProtocol printDefault g d = some ps) :
    (node env g).resumes = true ∨ ps.length ≤ 1 := by
  cases g with
  | scalar s =>
    obtain ⟨v, text, rfl, htext, rfl⟩ := scalarPrinter_eq_some h
    right
    split_ifs <;> simp
  | array elementType => exact .inl rfl
  | struct members =>
    obtain ⟨p, rfl⟩ := structPrinter_eq_some h
    exact .inr le_rfl
  | list keys values =>
    exact .inl rfl
  | choice default mandatory leaves => cases h

/-- What is good of a leaf that may not be there. -/
def LeafGood (env : Env) (printDefault : Bool) (e : Member Grammar) (c : Choice)
    (d : Option Data) : Prop :=
  ∀ d', d = some d' → Good env printDefault e.node (some d') ∧
    (Omitted env printDefault e.node d' → c.default = some c.case)

variable {members : List (Str × Grammar)} {children : List (Str × Payload)} {e : Member Grammar}

/-- **A leaf of a choice is read again if it is good, and what is left out is of the default
case.** -/
theorem leaf_reads (hreturns : Returns env printDefault e.node) (hkeeps : Keeps env store)
    (hc : e.choice = some c) (he : e ∈ expand members) (hobtained : MemberObtained env e d₀)
    (hprinted : fieldStatements (printerOf env.toProtocol printDefault e.node)
      (storeField store e.node d₀) = some (payloadsOf children e.name)) (x : Option Data) :
    MemberReads (nodes env members) children (e.map (node env)) x ∧
        storeField store e.node x = storeField store e.node d₀ ↔
      x = storeField store e.node d₀ ∧
        LeafGood env printDefault e c (storeField store e.node d₀) ∧
        (c.mandatory = true → Chosen (nodes env members) children c.name) := by
  unfold MemberReads
  simp only [Member.map_choice, Member.map_node, Member.map_name, hc]
  generalize hps : payloadsOf children e.name = ps at hprinted
  have hiff (hd : d₀ ≠ none) x : settle (node env e.node) ps = .ok x ∧
      storeField store e.node x = storeField store e.node d₀ ↔ x = storeField store e.node d₀ ∧
        Good env printDefault e.node (storeField store e.node d₀) := by
    obtain ⟨ps', hps', hiff⟩ := hreturns store hkeeps d₀ ((hobtained.leaf hc).resolve_left hd)
    obtain rfl := mem_unique hps' hprinted
    exact hiff x
  by_cases hnil : ps = []
  · subst hnil
    simp only [ne_eq, not_true_eq_false, false_and, false_or, true_and]
    cases hd : storeField store e.node d₀ with
    | none =>
      have hisSome := storeField_isSome store e.node d₀
      rw [hd] at hisSome
      obtain rfl : d₀ = none := by simpa using hisSome.symm
      have hbare : (if c.default = some c.case then (node env e.node).bare else .ok none) =
          .ok none := by
        unfold MemberObtained at hobtained
        simp only [hc] at hobtained
        rcases hobtained with ⟨ps, hps, h⟩ | h
        · obtain ⟨d', hd', -⟩ := settle_some hps h
          cases hd'
        · exact h
      rw [hbare]
      constructor
      · rintro ⟨⟨hchosen, hx⟩, -⟩
        exact ⟨(ok.inj hx).symm, nofun, hchosen⟩
      · rintro ⟨rfl, -, hchosen⟩
        exact ⟨⟨hchosen, rfl⟩, storeField_none ..⟩
    | some d =>
      have hsome : d₀ ≠ none := by
        rintro rfl
        rw [storeField_none] at hd
        cases hd
      have homitted : Omitted env printDefault e.node d := by
        rw [hd] at hprinted
        exact (printed_nil hprinted).resolve_right (not_or.mpr (hobtained.stored_ne hc hd))
      have hbare : (node env e.node).bare = settle (node env e.node) [] := by
        obtain ⟨s, -, -, hg, -⟩ := homitted
        rw [hg]
        rfl
      have hleaf : LeafGood env printDefault e c (some d) ↔
          Good env printDefault e.node (some d) ∧ c.default = some c.case := by
        constructor
        · exact fun h => ⟨(h d rfl).1, (h d rfl).2 homitted⟩
        · rintro h d' ⟨⟩
          exact ⟨h.1, fun _ => h.2⟩
      have hread := hiff hsome x
      rw [hd, ← hbare] at hread
      rw [hleaf]
      split_ifs with hdefault
      · tauto
      · refine ⟨?_, fun h => absurd h.2.1.2 hdefault⟩
        rintro ⟨⟨-, hx⟩, hstore⟩
        cases hx
        rw [storeField_none] at hstore
        cases hstore
  · have hsome : d₀ ≠ none := by
      rintro rfl
      rw [storeField_none] at hprinted
      exact hnil (some.inj hprinted).symm
    have hisSome := storeField_isSome store e.node d₀
    obtain ⟨d, hd⟩ := Option.isSome_iff_exists.mp
      (hisSome.trans (Option.isSome_iff_ne_none.mpr hsome))
    rw [hd] at hprinted
    have hfeed : feedLeaf (node env e.node) ps >>= (node env e.node).finish =
        settle (node env e.node) ps := by
      rw [feedLeaf_eq_feed hnil (printed_length hprinted)]
      rfl
    have hchosen : Chosen (nodes env members) children c.name :=
      ⟨e.map (node env), mem_map_of_mem he, c, hc, rfl, by rwa [Member.map_name, hps]⟩
    have hleaf : LeafGood env printDefault e c (some d) ↔
        Good env printDefault e.node (some d) := by
      refine ⟨fun h => (h d rfl).1, ?_⟩
      rintro h d' ⟨⟩
      exact ⟨h, fun homitted =>
        absurd (mem_unique hprinted homitted.printed) hnil⟩
    have hread := hiff hsome x
    rw [hd] at hread ⊢
    rw [hfeed]
    tauto

/-! ## Structs -/

/-- The fields of a struct, or of an entry of a list, are good. -/
structure GoodFields (env : Env) (printDefault : Bool) (members : List (Str × Grammar))
    (fields : Fields) : Prop where
  plain : ∀ e ∈ expand members, e.choice = none → Good env printDefault e.node (fields e.id)
  leaves : ∀ e ∈ expand members, ∀ d, e.choice ≠ none → fields e.id = some d →
    Good env printDefault e.node (some d)
  choices : ChoicesGood env printDefault members fields

/-- The printers of the members of a struct. -/
def printers (env : Env) (printDefault : Bool) (members : List (Str × Grammar)) :
    List (Member Printer) :=
  (expand members).map (Member.map (printerOf env.toProtocol printDefault))

/-- What is printed for each member. -/
def printedFields (fields : Fields) (e : Member Printer) : List Payload :=
  (fieldStatements e.node (fields e.id)).getD []

theorem names_nodup {P : Type} {members : List (Member P)}
    (hids : (members.map Member.id).Nodup) : (members.map Member.name).Nodup := by
  have heq : members.map Member.id = (members.map Member.name).map normalizeId := by
    rw [map_map]
    rfl
  rw [heq] at hids
  exact List.Nodup.of_map _ hids

variable {fields₀ : Fields}

section

variable (hids : ((expand members).map Member.id).Nodup)
  (hreturns : ∀ e ∈ expand members, Returns env printDefault e.node) (hkeeps : Keeps env store)
  (h : BodyObtained env members fields₀)
include hids hreturns hkeeps h

theorem fields_printed (he : e ∈ expand members) :
    fieldStatements (printerOf env.toProtocol printDefault e.node)
      (storeField store e.node (fields₀ e.id)) =
        some (printedFields (storeFields store (expand members) fields₀)
          (e.map (printerOf env.toProtocol printDefault))) := by
  have hsome : ∃ ps, fieldStatements (printerOf env.toProtocol printDefault e.node)
      (storeField store e.node (fields₀ e.id)) = some ps := by
    have hmember := h.1 e he
    have hprint (hobtained : Obtained env e.node (fields₀ e.id)) :
        ∃ ps, fieldStatements (printerOf env.toProtocol printDefault e.node)
          (storeField store e.node (fields₀ e.id)) = some ps := by
      obtain ⟨ps, hps, -⟩ := hreturns e he store hkeeps _ hobtained
      exact ⟨ps, hps⟩
    cases hc : e.choice with
    | none =>
      unfold MemberObtained at hmember
      simp only [hc] at hmember
      exact hprint hmember
    | some c =>
      rcases hmember.leaf hc with hnone | hobtained
      · rw [hnone, storeField_none]
        exact ⟨[], rfl⟩
      · exact hprint hobtained
  obtain ⟨ps, hps⟩ := hsome
  unfold printedFields
  rw [Member.map_node, Member.map_id, storeFields_eq hids he, hps]
  rfl

/-- **The statements of a struct, in whatever order its members stand, give its fields again if
and only if these are good.** -/
theorem body_returns {order : List (Member Printer)}
    (horder : order.Perm (printers env printDefault members)) (fields : Fields) :
    readFields (nodes env members) (.block (namedStatements
        (printedFields (storeFields store (expand members) fields₀)) order)) = .ok fields ∧
      storeFields store (expand members) fields = storeFields store (expand members) fields₀ ↔
    fields = storeFields store (expand members) fields₀ ∧
      GoodFields env printDefault members (storeFields store (expand members) fields₀) := by
  have hprinted {e : Member Grammar} (he : e ∈ expand members) :=
    fields_printed hids hreturns hkeeps h he
  have hmember {e : Member Grammar} he := h.1 e he
  have hat {e : Member Grammar} he fields :
      storeFields store (expand members) fields e.id = storeField store e.node (fields e.id) :=
    storeFields_eq hids he fields
  have hids' := hids
  rw [← nodes_ids env] at hids'
  generalize hchildren : namedStatements
    (printedFields (storeFields store (expand members) fields₀)) order = children
  -- Under the name of a member stand the statements that are printed for it.
  have hpayloads {e : Member Grammar} (he : e ∈ expand members) :
      fieldStatements (printerOf env.toProtocol printDefault e.node)
        (storeField store e.node (fields₀ e.id)) = some (payloadsOf children e.name) := by
    have hnames : (order.map Member.name).Nodup := by
      refine (horder.map _).nodup_iff.mpr ?_
      rw [printers, map_map]
      exact names_nodup hids
    have hmem : e.map (printerOf env.toProtocol printDefault) ∈ order :=
      horder.mem_iff.mpr (mem_map_of_mem he)
    rw [hprinted he, ← hchildren]
    exact congrArg some (payloadsOf_printed hnames hmem).symm
  have hshown {e : Member Grammar} (he : e ∈ expand members) {c : Choice}
      (hc : e.choice = some c) : payloadsOf children e.name ≠ [] ↔
        Shown env printDefault (storeFields store (expand members) fields₀) e := by
    have hps := hpayloads he
    unfold Shown
    rw [hat he]
    cases hd : storeField store e.node (fields₀ e.id) with
    | none =>
      rw [hd] at hps
      exact ⟨fun hne => absurd (some.inj hps).symm hne, nofun⟩
    | some d =>
      rw [hd] at hps
      constructor
      · intro hne
        exact ⟨d, rfl, fun homitted => hne (mem_unique hps homitted.printed)⟩
      · rintro ⟨d', hd', homitted⟩ hnil
        cases hd'
        rw [hnil] at hps
        exact (printed_nil hps).elim homitted (not_or.mpr ((hmember he).stored_ne hc hd))
  have hchosen name : Chosen (nodes env members) children name ↔
      ∃ e ∈ expand members, ∃ c, e.choice = some c ∧ c.name = name ∧
        Shown env printDefault (storeFields store (expand members) fields₀) e := by
    constructor
    · rintro ⟨_, hmem, c, hc, hname, hps⟩
      obtain ⟨e, he, rfl⟩ := mem_map.mp hmem
      exact ⟨e, he, c, hc, hname, (hshown he hc).mp hps⟩
    · rintro ⟨e, he, c, hc, hname, hps⟩
      exact ⟨e.map (node env), mem_map_of_mem he, c, hc, hname, (hshown he hc).mpr hps⟩
  have hplain {e : Member Grammar} (he : e ∈ expand members) (hc : e.choice = none)
      x : MemberReads (nodes env members) children (e.map (node env)) x ∧
        storeField store e.node x = storeField store e.node (fields₀ e.id) ↔
      x = storeField store e.node (fields₀ e.id) ∧
        Good env printDefault e.node (storeField store e.node (fields₀ e.id)) := by
    have hobtained := hmember he
    unfold MemberObtained at hobtained
    simp only [hc] at hobtained
    obtain ⟨ps, hps, hiff⟩ := hreturns e he store hkeeps _ hobtained
    obtain rfl := mem_unique hps (hpayloads he)
    unfold MemberReads
    simp only [Member.map_choice, hc]
    exact hiff x
  have hleaf {e : Member Grammar} he {c : Choice} (hc : e.choice = some c) :=
    leaf_reads (hreturns e he) hkeeps hc he (hmember he) (hpayloads he)
  have hidem : storeFields store (expand members) (storeFields store (expand members) fields₀) =
      storeFields store (expand members) fields₀ := by
    funext id
    by_cases hid : id ∈ (expand members).map Member.id
    · obtain ⟨e, he, rfl⟩ := mem_map.mp hid
      rw [hat he, hat he, hkeeps.storeField]
    · have hnone : storeFields store (expand members) fields₀ id = none :=
        storeFields_none (h.2 id hid)
      rw [storeFields_none hnone, hnone]
  constructor
  · rintro ⟨hread, hstore⟩
    obtain ⟨st, hst, hfinish⟩ := bind_eq_ok hread
    obtain ⟨-, hone, hall, hout⟩ := (members_iff hids').mp ⟨st, hst, hfinish⟩
    have hfield {e : Member Grammar} he :
        MemberReads (nodes env members) children (e.map (node env)) (fields e.id) ∧
          storeField store e.node (fields e.id) = storeField store e.node (fields₀ e.id) :=
      ⟨hall _ (mem_map_of_mem he), by rw [← hat he, hstore, hat he]⟩
    have hsame : fields = storeFields store (expand members) fields₀ := by
      funext id
      by_cases hid : id ∈ (expand members).map Member.id
      · obtain ⟨e, he, rfl⟩ := mem_map.mp hid
        rw [hat he]
        cases hc : e.choice with
        | none => exact ((hplain he hc _).mp (hfield he)).1
        | some c => exact ((hleaf he hc _).mp (hfield he)).1
      · rw [storeFields_none (h.2 id hid)]
        exact hout id (by rwa [nodes_ids])
    have hgood {e : Member Grammar} he {c : Choice}
        (hc : e.choice = some c) := ((hleaf he hc _).mp (hfield he)).2
    refine ⟨hsame, ⟨fun e he hc => ?_, fun e he d hne hd => ?_, ?_⟩⟩
    · rw [hat he]
      exact ((hplain he hc _).mp (hfield he)).2
    · obtain ⟨c, hc⟩ := Option.ne_none_iff_exists'.mp hne
      rw [hat he] at hd
      exact ((hgood he hc).1 d hd).1
    · refine ⟨fun e he e' he' c c' hc hc' hname hps hps' => ?_, fun e he c hc hmandatory => ?_,
        fun e he c d hc hd homitted => ?_⟩
      · exact hone _ (mem_map_of_mem he) _ (mem_map_of_mem he') c c' hc hc' hname
          ((hshown he hc).mpr hps) ((hshown he' hc').mpr hps')
      · exact (hchosen c.name).mp ((hgood he hc).2 hmandatory)
      · rw [hat he] at hd
        exact ((hgood he hc).1 d hd).2 homitted
  · rintro ⟨rfl, hgood⟩
    refine ⟨?_, hidem⟩
    have hfields : ∃ st, readStatements (structStep (nodes env members)) children
        (structInit (nodes env members)) = .ok st ∧
        finishMembers (nodes env members) st =
          .ok (storeFields store (expand members) fields₀) := by
      refine (members_iff hids').mpr ⟨?_, ?_, ?_, ?_⟩
      · intro c hc
        rw [← hchildren] at hc
        obtain ⟨printer, hprinter, hc⟩ := mem_flatMap.mp hc
        obtain ⟨p, -, rfl⟩ := mem_map.mp hc
        obtain ⟨e, he, rfl⟩ := mem_map.mp (horder.mem_iff.mp hprinter)
        exact ⟨_, mem_map_of_mem he, rfl⟩
      · intro _ hmem _ hmem' c c' hc hc' hname hps hps'
        obtain ⟨e, he, rfl⟩ := mem_map.mp hmem
        obtain ⟨e', he', rfl⟩ := mem_map.mp hmem'
        exact hgood.choices.oneCase e he e' he' c c' hc hc' hname ((hshown he hc).mp hps)
          ((hshown he' hc').mp hps')
      · intro _ hmem
        obtain ⟨e, he, rfl⟩ := mem_map.mp hmem
        rw [Member.map_id, hat he]
        cases hc : e.choice with
        | none =>
          have hplain' := hgood.plain e he hc
          rw [hat he] at hplain'
          exact ((hplain he hc _).mpr ⟨rfl, hplain'⟩).1
        | some c =>
          refine ((hleaf he hc _).mpr ⟨rfl, fun d hd => ?_, fun hmandatory => ?_⟩).1
          · rw [← hat he] at hd
            exact ⟨hgood.leaves e he d (by rw [hc]; exact nofun) hd,
              hgood.choices.default e he c d hc hd⟩
          · exact (hchosen c.name).mpr (hgood.choices.mandatory e he c hc hmandatory)
      · intro id hid
        rw [nodes_ids] at hid
        exact storeFields_none (h.2 id hid)
    obtain ⟨st, hst, hfinish⟩ := hfields
    exact (bind_of_eq_ok hst).trans hfinish

end

theorem storeFields_self (members : List (Member Grammar)) (fields : Fields) :
    storeFields (fun _ v => v) members fields = fields := by
  funext id
  unfold storeFields
  cases hd : fields id with
  | none => rfl
  | some d =>
    cases scalarAt members id with
    | none | some s => cases d <;> rfl

theorem structStore_eq (env : Env) (members : List (Str × Grammar)) : ∃ store, Keeps env store ∧
    structStore members = storeFields store (expand members) := by
  by_cases hctype : membersCtype members = true
  · exact ⟨Primitive.store, keeps_store, by funext fields; rw [structStore, if_pos hctype]⟩
  · refine ⟨fun _ v => v, keeps_none, ?_⟩
    funext fields
    rw [structStore, if_neg hctype, storeFields_self]

theorem printMembers_eq_printers (hprintable : ∀ e ∈ expand members, e.node.Printable) :
    printMembers env.toProtocol printDefault members = some (printers env printDefault members) :=
  printMembers_eq fun e he => (printMember_isSome_iff e.node).mpr (hprintable e he)

theorem printOrder_perm {P : Type} (members : List (Member P)) :
    (printOrder members).Perm members := perm_insertionSort ..

theorem bodyPrinter_fields (hids : ((expand members).map Member.id).Nodup)
    (hreturns : ∀ e ∈ expand members, Returns env printDefault e.node) (hkeeps : Keeps env store)
    (h : BodyObtained env members fields₀) {entries : List (Member Printer)}
    (hentries : entries ⊆ printers env printDefault members) :
    bodyPrinter entries (storeFields store (expand members) fields₀) =
      some (namedStatements (printedFields (storeFields store (expand members) fields₀))
        (printOrder entries)) := by
  refine bodyPrinter_eq_some fun printer hprinter => ?_
  obtain ⟨e, he, rfl⟩ := mem_map.mp (hentries hprinter)
  rw [← fields_printed hids hreturns hkeeps h he, Member.map_node, Member.map_id,
    storeFields_eq hids he]

/-- **A struct returns if its members do.** -/
theorem struct_returns (hids : ((expand members).map Member.id).Nodup)
    (hprintable : ∀ e ∈ expand members, e.node.Printable)
    (hreturns : ∀ e ∈ expand members, Returns env printDefault e.node) :
    Returns env printDefault (.struct members) := by
  intro store hkeeps d₀ hobtained
  show ∃ ps, fieldStatements (printerOf env.toProtocol printDefault (.struct members)) d₀ =
      some ps ∧ ∀ x, settle (node env (.struct members)) ps = .ok x ∧ x = d₀ ↔
      x = d₀ ∧ Good env printDefault (.struct members) d₀
  rcases obtained_struct hids hobtained with ⟨rfl, hnone⟩ | ⟨fields, hfields, rfl⟩
  · refine ⟨[], rfl, fun x => ?_⟩
    have hsettle : settle (node env (.struct members)) [] = .ok none := by
      have hinit : (node env (.struct members)).init = none := by rw [node_struct]; rfl
      exact hnone
    rw [hsettle]
    constructor
    · exact fun h => ⟨h.2, .absentStruct members⟩
    · rintro ⟨rfl, -⟩
      exact ⟨rfl, rfl⟩
  · obtain ⟨store, hkeeps, hstore⟩ := structStore_eq env members
    rw [hstore]
    refine ⟨[.block (namedStatements (printedFields (storeFields store (expand members) fields))
      (printOrder (printers env printDefault members)))], ?_, fun x => ?_⟩
    · have hprinter : printerOf env.toProtocol printDefault (.struct members) =
          structPrinter (printers env printDefault members) := by
        rw [printerOf, printMember, printMembers_eq_printers hprintable]
        rfl
      rw [fieldStatements, hprinter, structPrinter,
        bodyPrinter_fields hids hreturns hkeeps hfields (List.Subset.refl _)]
      rfl
    · have hbody := body_returns hids hreturns hkeeps hfields
        (printOrder_perm (printers env printDefault members))
      rw [settle_struct, hstore]
      constructor
      · rintro ⟨hx, rfl⟩
        obtain ⟨fields', hread, hsame⟩ := map_eq_ok hx
        have hfields' := Data.struct.inj (some.inj hsame)
        obtain ⟨-, hgood⟩ := (hbody fields').mp ⟨hread, hfields'⟩
        exact ⟨rfl, .struct members _ hgood.plain hgood.leaves hgood.choices⟩
      · rintro ⟨rfl, hgood⟩
        have hgoods : GoodFields env printDefault members
            (storeFields store (expand members) fields) := by
          cases hgood with
          | struct _ _ plain leaves choices => exact ⟨plain, leaves, choices⟩
        obtain ⟨hread, hsame⟩ := (hbody _).mpr ⟨rfl, hgoods⟩
        rw [hread]
        exact ⟨congrArg (fun fields => Except.ok (some (Data.struct fields))) hsame, rfl⟩

/-! ## Lists -/

variable {keys : List (Str × Scalar)} {values : List (Str × Grammar)}

/-- No entry is found among those before it. -/
def Distinct (env : Env) (keys : List (Str × Scalar)) (entries : List Fields) : Prop :=
  ∀ before entry after, entries = before ++ entry :: after → env.listed keys before entry = false

theorem distinct_snoc :
    Distinct env keys (entries ++ [entry]) ↔
      Distinct env keys entries ∧ env.listed keys entries entry = false := by
  constructor
  · intro h
    refine ⟨fun before entry' after heq => h before entry' (after ++ [entry]) ?_, h _ _ [] rfl⟩
    rw [heq, append_assoc]
    rfl
  · rintro ⟨hall, hlast⟩ before entry' after heq
    obtain rfl | ⟨after, last, rfl⟩ := eq_nil_or_concat after
    · obtain ⟨rfl, hentry⟩ := append_inj' heq rfl
      obtain rfl := (List.cons.inj hentry).1
      exact hlast
    · rw [concat_eq_append, ← cons_append, ← append_assoc] at heq
      exact hall before entry' after (append_inj' heq rfl).1

/-- The order in which the members of an entry are printed. -/
def entryOrder (env : Env) (printDefault : Bool) (keys : List (Str × Scalar))
    (values : List (Str × Grammar)) : List (Member Printer) :=
  printOrder (printers env printDefault (keys.map fun (k, s) => (k, .scalar s))) ++
    printOrder (printers env printDefault values)

theorem printers_listMembers : printers env printDefault (listMembers keys values) =
    printers env printDefault (keys.map fun (k, s) => (k, .scalar s)) ++
      printers env printDefault values := by
  unfold printers expand listMembers
  rw [flatMap_append, map_append]

theorem printers_keys_subset : printers env printDefault (keys.map fun (k, s) => (k, .scalar s)) ⊆
    printers env printDefault (listMembers keys values) := by
  rw [printers_listMembers]
  exact subset_append_left ..

theorem printers_values_subset : printers env printDefault values ⊆
    printers env printDefault (listMembers keys values) := by
  rw [printers_listMembers]
  exact subset_append_right ..

theorem entryOrder_perm : (entryOrder env printDefault keys values).Perm
    (printers env printDefault (listMembers keys values)) := by
  rw [printers_listMembers]
  exact (printOrder_perm _).append (printOrder_perm _)

/-- The block of an entry. -/
def entryBlock (env : Env) (printDefault : Bool) (keys : List (Str × Scalar))
    (values : List (Str × Grammar)) (entry : Fields) : Payload :=
  .block (namedStatements (printedFields entry) (entryOrder env printDefault keys values))

theorem printers_keys : printers env printDefault (keys.map fun (k, s) => (k, .scalar s)) =
    keys.map fun (k, s) => ⟨k, none, scalarPrinter env.toProtocol printDefault s⟩ := by
  induction keys with
  | nil => rfl
  | cons key keys ih => exact congrArg (_ :: ·) ih

theorem printerOf_list (hprintable : ∀ e ∈ expand values, e.node.Printable) :
    printerOf env.toProtocol printDefault (.list keys values) =
      listPrinter (printers env printDefault (keys.map fun (k, s) => (k, .scalar s)))
        (printers env printDefault values) := by
  rw [printerOf, printMember, printMembers_eq_printers hprintable, printers_keys]
  rfl

theorem entryComplete_stored :
    entryComplete keys values (storedEntry keys values entry) =
      entryComplete keys values entry := by
  have hisSome id : (storedEntry keys values entry id).isSome = (entry id).isSome := by
    unfold storedEntry storeFields
    cases hd : entry id with
    | none => rfl
    | some d =>
      cases scalarAt (expand (listMembers keys values)) id with
      | none | some s => cases d <;> rfl
  unfold entryComplete
  simp only [hisSome]

theorem stringsFit_stored :
    stringsFit keys values (storedEntry keys values entry) = stringsFit keys values entry := by
  unfold stringsFit storedEntry storeFields
  refine congrArg _ (funext fun e => ?_)
  cases entry e.id with
  | none => rfl
  | some d =>
    cases d with
    | value v =>
      cases scalarAt (expand (listMembers keys values)) e.id with
      | none => rfl
      -- what is stored for a string is the string
      | some s =>
        obtain ⟨⟨primitive, _, _, _, _⟩, _, _⟩ := s
        cases primitive <;> cases v <;> rfl
    | _ => rfl

/-- **The blocks of a list give its entries again if and only if these are good, and none is found
among those before it.** -/
theorem entries_return (hkept : ∀ entry ∈ entries,
      entryComplete keys values entry = true ∧ stringsFit keys values entry = true)
    (hbody : ∀ entry ∈ entries, ∀ fields,
      readFields (nodes env (listMembers keys values))
          (entryBlock env printDefault keys values entry) = .ok fields ∧
        storedEntry keys values fields = entry ↔
      fields = entry ∧ GoodFields env printDefault (listMembers keys values) entry)
    (given : List Fields) :
    readEntries env keys values [] (entries.map (entryBlock env printDefault keys values)) =
        .ok given ∧ given.map (storedEntry keys values) = entries ↔
      given = entries ∧ (∀ entry ∈ entries,
        GoodFields env printDefault (listMembers keys values) entry) ∧
      Distinct env keys entries := by
  induction entries using List.reverseRecOn generalizing given with
  | nil =>
    constructor
    · rintro ⟨-, hnil⟩
      exact ⟨map_eq_nil_iff.mp hnil, nofun, fun before entry after h => by simp at h⟩
    · rintro ⟨rfl, -⟩
      exact ⟨rfl, rfl⟩
  | append_singleton entries entry ih =>
    have hlast := hbody entry (by simp)
    have hbefore := ih (fun entry h => hkept entry (by simp [h]))
      (fun entry h => hbody entry (by simp [h]))
    rw [map_append, readEntries, foldlM_append, distinct_snoc]
    constructor
    · rintro ⟨hread, hsame⟩
      obtain ⟨mid, hmid, hread⟩ := bind_eq_ok hread
      obtain ⟨given', hadd, hnil⟩ := bind_eq_ok hread
      cases hnil
      obtain ⟨fields, hfields, hadd⟩ := bind_eq_ok hadd
      obtain ⟨hlisted, -, rfl⟩ := addEntry_eq_ok.mp hadd
      rw [map_append] at hsame
      obtain ⟨hmids, hfield⟩ := append_inj' hsame rfl
      obtain ⟨rfl, hgood, hdistinct⟩ := (hbefore mid).mp ⟨hmid, hmids⟩
      obtain ⟨rfl, hgoodLast⟩ := (hlast fields).mp ⟨hfields, (List.cons.inj hfield).1⟩
      refine ⟨rfl, fun entry' hmem => ?_, hdistinct, hlisted⟩
      rcases mem_append.mp hmem with hmem | hmem
      · exact hgood entry' hmem
      · obtain rfl := mem_singleton.mp hmem
        exact hgoodLast
    · rintro ⟨rfl, hgood, hdistinct, hlisted⟩
      obtain ⟨hread, hsame⟩ := (hbefore entries).mpr
        ⟨rfl, fun entry h => hgood entry (by simp [h]), hdistinct⟩
      obtain ⟨hfields, hstored⟩ := (hlast entry).mpr ⟨rfl, hgood entry (by simp)⟩
      have hadd : addEntry env keys values entries entry = .ok (entries ++ [entry]) :=
        addEntry_eq_ok.mpr ⟨hlisted, hkept entry (by simp), rfl⟩
      refine ⟨(bind_of_eq_ok hread).trans ?_, by rw [map_append, hsame, map_singleton,
        hstored]⟩
      show readEntries env keys values entries [entryBlock env printDefault keys values entry] = _
      rw [readEntries, foldlM_cons, hfields]
      show addEntry env keys values entries entry >>= _ = _
      rw [hadd]
      rfl

/-- **A list returns if the members of its entries do.** -/
theorem list_returns (hids : ((expand (listMembers keys values)).map Member.id).Nodup)
    (hprintable : ∀ e ∈ expand values, e.node.Printable)
    (hreturns : ∀ e ∈ expand (listMembers keys values), Returns env printDefault e.node) :
    Returns env printDefault (.list keys values) := by
  intro store hkeeps d₀ hobtained
  show ∃ ps, fieldStatements (printerOf env.toProtocol printDefault (.list keys values)) d₀ =
      some ps ∧ ∀ x, settle (node env (.list keys values)) ps = .ok x ∧ x = d₀ ↔
        x = d₀ ∧ Good env printDefault (.list keys values) d₀
  have hsettle ps : settle (node env (.list keys values)) ps =
      (fun given => some (.list (given.map (storedEntry keys values)))) <$>
        readEntries env keys values [] ps := by
    have hinit : (node env (.list keys values)).init = some (.list []) := by rw [node_list]; rfl
    rw [settle, hinit, list_feed]
    cases readEntries env keys values [] ps <;> rfl
  rcases obtained_list hobtained with rfl | ⟨given, ps, hgiven, rfl⟩
  · refine ⟨[], rfl, fun x => ?_⟩
    constructor
    · rintro ⟨hx, rfl⟩
      cases hx
    · rintro ⟨-, ⟨⟩⟩
  · obtain ⟨-, hall⟩ := readEntries_eq_ok hgiven
    have hbodies : ∀ fields ∈ given, BodyObtained env (listMembers keys values) fields := by
      intro fields hfields
      obtain ⟨-, p, hp⟩ := hall fields hfields
      exact readFields_obtained hids hp
    refine ⟨(given.map (storedEntry keys values)).map (entryBlock env printDefault keys values), ?_,
      fun x => ?_⟩
    · rw [printerOf_list hprintable]
      refine mapM_eq_some_map fun entry hentry => ?_
      obtain ⟨fields, hfields, rfl⟩ := mem_map.mp hentry
      have hobtained := hbodies fields hfields
      rw [storedEntry, bodyPrinter_fields hids hreturns keeps_store hobtained printers_keys_subset,
        bodyPrinter_fields hids hreturns keeps_store hobtained printers_values_subset]
      refine congrArg (fun statements => some (Payload.block statements)) ?_
      exact (flatMap_append ..).symm
    · have hkept : ∀ entry ∈ given.map (storedEntry keys values),
          entryComplete keys values entry = true ∧ stringsFit keys values entry = true := by
        intro entry hentry
        obtain ⟨fields, hfields, rfl⟩ := mem_map.mp hentry
        rw [entryComplete_stored, stringsFit_stored]
        exact (hall fields hfields).1
      have hentries := entries_return hkept (fun entry hentry fields => by
        obtain ⟨fields₀, hfields₀, rfl⟩ := mem_map.mp hentry
        exact body_returns hids hreturns keeps_store (hbodies fields₀ hfields₀) entryOrder_perm
          fields)
      rw [hsettle]
      constructor
      · rintro ⟨hx, hstore⟩
        obtain ⟨given', hread, rfl⟩ := map_eq_ok hx
        obtain ⟨-, hgood, hdistinct⟩ :=
          (hentries given').mp ⟨hread, Data.list.inj (some.inj hstore)⟩
        exact ⟨hstore, .list keys values _ (fun entry h => (hgood entry h).plain)
          (fun entry h => (hgood entry h).leaves) (fun entry h => (hgood entry h).choices)
          hdistinct⟩
      · rintro ⟨rfl, hgood⟩
        have hfacts : (∀ entry ∈ given.map (storedEntry keys values),
            GoodFields env printDefault (listMembers keys values) entry) ∧
            Distinct env keys (given.map (storedEntry keys values)) := by
          cases hgood with
          | list _ _ _ plain leaves choices distinct =>
            exact ⟨fun entry h => ⟨plain entry h, leaves entry h, choices entry h⟩, distinct⟩
        obtain ⟨hread, hsame⟩ := (hentries _).mpr ⟨rfl, hfacts⟩
        rw [hread]
        exact ⟨congrArg (fun entries => Except.ok (some (Data.list entries))) hsame, rfl⟩

/-! ## Every node -/

/-- The members of each struct and list have names, and stay apart when these are normalized. -/
inductive Grammar.WellFormed : Grammar → Prop
  | scalar (s : Scalar) : WellFormed (.scalar s)
  | array (elementType : ArgumentType) : WellFormed (.array elementType)
  | struct (members : List (Str × Grammar))
    (names : ∀ e ∈ expand members, isIdentifier e.name = true)
    (ids : ((expand members).map Member.id).Nodup) (h : ∀ e ∈ expand members, WellFormed e.node) :
    WellFormed (.struct members)
  | list (keys : List (Str × Scalar)) (values : List (Str × Grammar))
    (names : ∀ e ∈ expand (listMembers keys values), isIdentifier e.name = true)
    (ids : ((expand (listMembers keys values)).map Member.id).Nodup)
    (h : ∀ e ∈ expand values, WellFormed e.node) : WellFormed (.list keys values)
  | choice (default : Option Str) (mandatory : Bool) (leaves : List (Str × Str × Grammar)) :
    WellFormed (.choice default mandatory leaves)

variable (hinverse : env.toProtocol.Inverse)
include hinverse

theorem scalar_returns_node (s : Scalar) : Returns env printDefault (.scalar s) := by
  intro store hkeeps d₀ hobtained
  obtain ⟨ps, hps, -, hiff⟩ := scalar_returns hinverse hkeeps hobtained
  exact ⟨ps, hps, hiff⟩

theorem array_returns_node (elementType : ArgumentType) :
    Returns env printDefault (.array elementType) := by
  intro store hkeeps d₀ hobtained
  rcases obtained_array hobtained with rfl | ⟨vs, rfl, hvs⟩
  · refine ⟨[], rfl, fun x => ?_⟩
    have hsettle : settle (node env (.array elementType)) [] = .ok (some (.array [])) := rfl
    constructor
    · rintro ⟨hx, rfl⟩
      cases hx
    · rintro ⟨-, ⟨⟩⟩
  · obtain ⟨ps, hps, -, hsettle⟩ := array_returns hinverse hvs
    refine ⟨ps, hps, fun x => ?_⟩
    rw [hsettle]
    constructor
    · rintro ⟨-, rfl⟩
      exact ⟨rfl, .array elementType vs⟩
    · rintro ⟨rfl, -⟩
      exact ⟨rfl, rfl⟩

/-- **Every node that can be printed returns.** -/
theorem visit_returns (hg : g.WellFormed)
    (hprintable : g.Printable) : Returns env printDefault g := by
  induction g using Grammar.induction with
  | scalar s => exact scalar_returns_node hinverse s
  | array elementType => exact array_returns_node hinverse elementType
  | struct members ih =>
    cases hg with
    | struct _ _ ids wellFormed =>
    cases hprintable with
    | struct _ printable =>
    exact struct_returns ids printable fun e he => ih e he (wellFormed e he) (printable e he)
  | list keys values ih =>
    cases hg with
    | list _ _ _ ids wellFormed =>
    cases hprintable with
    | list _ _ printable =>
    refine list_returns ids printable (listMembers_induction (P := Returns env printDefault)
      (scalar_returns_node hinverse) fun e he => ih e he (wellFormed e he) (printable e he))
  | choice default mandatory leaves => cases hprintable

end Yang

end Snabb
