import Snabb.Lib.Yang.Data.Printed

/-!
# Single nodes bring their data back (`lib/yang/data.lua`)

What a node has made of some statements (`Obtained`) is printed and read again by the same node. In
between it may have been kept in a field of a C type or in a list (`storeField`).

- `Good`: the data that comes back;
- `scalar_returns`, `array_returns`: it does so for the leaves and the leaf-lists;
- `feedLeaf_eq_feed`: a leaf of a choice reads what is printed for it as it does elsewhere.
-/

namespace Snabb

open Foundation List
open Except (ok.inj)

namespace Yang

variable {env : Env} {printDefault : Bool}

/-! ## What comes back -/

/-- The data is a scalar that is left out. -/
def Omitted (env : Env) (printDefault : Bool) (g : Grammar) (d : Data) : Prop :=
  ∃ s v text, g = .scalar s ∧ d = .value v ∧
    s.argumentType.primitive.tostring env.toProtocol v = some text ∧
    s.omits printDefault text = true

/-- Something is printed for the member. -/
def Shown (env : Env) (printDefault : Bool) (fields : Fields) (e : Member Grammar) : Prop :=
  ∃ d, fields e.id = some d ∧ ¬ Omitted env printDefault e.node d

/-- What the choices of a struct are read from again gives back their leaves: what is printed of a
choice is of one case, a choice that has to be there has something printed, and what is left out is
of the default case. -/
structure ChoicesGood (env : Env) (printDefault : Bool) (members : List (Str × Grammar))
    (fields : Fields) : Prop where
  oneCase : ∀ e ∈ expand members, ∀ e' ∈ expand members, ∀ c c', e.choice = some c →
    e'.choice = some c' → c.name = c'.name → Shown env printDefault fields e →
    Shown env printDefault fields e' → c.case = c'.case
  mandatory : ∀ e ∈ expand members, ∀ c, e.choice = some c → c.mandatory = true →
    ∃ e' ∈ expand members, ∃ c', e'.choice = some c' ∧ c'.name = c.name ∧
      Shown env printDefault fields e'
  default : ∀ e ∈ expand members, ∀ c d, e.choice = some c → fields e.id = some d →
    Omitted env printDefault e.node d → c.default = some c.case

/-- **The data that is brought back by what is printed for it.** There is none for which nothing
can be read, and a member that is not there is no list and no leaf-list. -/
inductive Good (env : Env) (printDefault : Bool) : Grammar → Option Data → Prop
  | absentScalar (s : Scalar) : Good env printDefault (.scalar s) none
  | scalar (s : Scalar) (v : Value) (valued : s.argumentType.primitive ≠ .empty)
    (accepts : s.argumentType.accepts v = true) :
    Good env printDefault (.scalar s) (some (.value v))
  | array (elementType : ArgumentType) (vs : List Value) :
    Good env printDefault (.array elementType) (some (.array vs))
  | absentStruct (members : List (Str × Grammar)) : Good env printDefault (.struct members) none
  | struct (members : List (Str × Grammar)) (fields : Fields)
    (plain : ∀ e ∈ expand members, e.choice = none → Good env printDefault e.node (fields e.id))
    (leaves : ∀ e ∈ expand members, ∀ d, e.choice ≠ none → fields e.id = some d →
      Good env printDefault e.node (some d))
    (choices : ChoicesGood env printDefault members fields) :
    Good env printDefault (.struct members) (some (.struct fields))
  | list (keys : List (Str × Scalar)) (values : List (Str × Grammar)) (entries : List Fields)
    (plain : ∀ entry ∈ entries, ∀ e ∈ expand (listMembers keys values), e.choice = none →
      Good env printDefault e.node (entry e.id))
    (leaves : ∀ entry ∈ entries, ∀ e ∈ expand (listMembers keys values), ∀ d, e.choice ≠ none →
      entry e.id = some d → Good env printDefault e.node (some d))
    (choices : ∀ entry ∈ entries,
      ChoicesGood env printDefault (listMembers keys values) entry)
    (distinct : ∀ before entry after, entries = before ++ entry :: after →
      env.listed keys before entry = false) :
    Good env printDefault (.list keys values) (some (.list entries))

/-! ## Stored data -/

/-- Data of a node as it is read from where it was stored. -/
def storeField (store : Primitive → Value → Value) : Grammar → Option Data → Option Data
  | .scalar s, some (.value v) => some (.value (store s.argumentType.primitive v))
  | _, d => d

/-- What is stored is of the type, and stays as it is when it is stored again. -/
structure Keeps (env : Env) (store : Primitive → Value → Value) : Prop where
  fits : ∀ (primitive : Primitive) v, primitive.Fits env.toProtocol v →
    primitive.Fits env.toProtocol (store primitive v)
  idem : ∀ primitive v, store primitive (store primitive v) = store primitive v

theorem keeps_none : Keeps env fun _ v => v := ⟨fun _ _ h => h, fun _ _ => rfl⟩

theorem keeps_store : Keeps env Primitive.store :=
  ⟨fun _ _ => Primitive.store_fits, fun _ _ => Primitive.store_store⟩

theorem storeField_none (store : Primitive → Value → Value) (g : Grammar) :
    storeField store g none = none := by
  cases g <;> rfl

theorem storeField_isSome (store : Primitive → Value → Value) (g : Grammar) (d : Option Data) :
    (storeField store g d).isSome = d.isSome := by
  unfold storeField
  split <;> rfl

variable {store : Primitive → Value → Value} {out : Option Acc} {ps : List Payload} {p q : Payload}
  {s : Scalar} {a : Acc} {d : Option Data} {v : Value}

theorem Keeps.storeField (h : Keeps env store) (g : Grammar)
    (d : Option Data) : storeField store g (storeField store g d) = storeField store g d := by
  cases g with
  | scalar s =>
    cases d with
    | none => rfl
    | some d =>
      cases d with
      | value v => simp only [Yang.storeField, h.idem]
      | _ => rfl
  | _ => rfl

theorem find?_id {P : Type} {members : List (Member P)} {e : Member P}
    (hids : (members.map Member.id).Nodup) (he : e ∈ members) :
    members.find? (·.id = e.id) = some e := by
  cases hfind : members.find? (·.id = e.id) with
  | none => exact absurd (decide_eq_true rfl) (List.find?_eq_none.mp hfind e he)
  | some e' =>
    have hid : e'.id = e.id := by simpa using List.find?_some hfind
    rw [inj_on_of_nodup_map hids (mem_of_find?_eq_some hfind) he hid]

variable {members : List (Member Grammar)}

theorem storeFields_eq {e : Member Grammar}
    (hids : (members.map Member.id).Nodup) (he : e ∈ members) (fields : Fields) :
    storeFields store members fields e.id = storeField store e.node (fields e.id) := by
  unfold storeFields scalarAt
  rw [find?_id hids he]
  obtain ⟨name, choice, g⟩ := e
  cases hd : fields (Member.id ⟨name, choice, g⟩) with
  | none => cases g <;> rfl
  | some d => cases g <;> cases d <;> rfl

theorem storeFields_none {fields : Fields} {id : Str} (h : fields id = none) :
    storeFields store members fields id = none := by
  unfold storeFields
  rw [h]

/-! ## Nodes -/

/-- The node that reads statements. -/
def node (env : Env) (g : Grammar) : Node Payload := visit env statementSource g

/-- What a node makes of statements. -/
def settle (node : Node Payload) (ps : List Payload) : Except ParseError (Option Data) :=
  feed node node.init ps >>= node.finish

/-- The data may come of a node of the grammar. -/
def Obtained (env : Env) (g : Grammar) (d : Option Data) : Prop :=
  (∃ ps, settle (node env g) ps = .ok d) ∨ (node env g).finish none = .ok d

/-- What is in the table after some statements was read from the last of them. -/
theorem feed_last {node : Node Payload} {out' : Option Acc}
    (h : feed node out ps = .ok out') : (ps = [] ∧ out' = out) ∨
      ∃ before p mid a q, ps = before ++ [p] ∧ feed node out before = .ok mid ∧
        node.parse mid p = .ok (a, q) ∧ out' = some a := by
  obtain rfl | ⟨before, p, rfl⟩ := eq_nil_or_concat ps
  · exact .inl ⟨rfl, (ok.inj h).symm⟩
  · rw [concat_eq_append] at h ⊢
    rw [feed, foldlM_append] at h
    obtain ⟨mid, hmid, h⟩ := bind_eq_ok h
    obtain ⟨out'', hparse, hnil⟩ := bind_eq_ok h
    cases hnil
    obtain ⟨⟨a, q⟩, hlast, rfl⟩ := map_eq_ok hparse
    exact .inr ⟨before, p, mid, a, q, rfl, hmid, hlast, rfl⟩

theorem feed_single {node : Node Payload} :
    feed node out [p] = (fun r => some r.1) <$> node.parse out p := by
  unfold feed
  rw [foldlM_cons]
  cases h : node.parse out p <;> simp

/-! ## Scalars -/

theorem scalar_parse_eq_ok (h : (node env (.scalar s)).parse out p = .ok (a, q)) :
    out = none ∧ ∃ v arg, a = .value v ∧ s.argumentType.parse env.toProtocol arg = .ok v := by
  unfold node visit scalarParser at h
  simp only at h
  split_ifs at h with hout
  · cases h
  all_goals
    obtain ⟨⟨arg, q'⟩, -, h⟩ := bind_eq_ok h
    obtain ⟨⟨v, q''⟩, hv, h⟩ := bind_eq_ok h
    obtain ⟨v', hv', hq⟩ := bind_eq_ok hv
    obtain ⟨rfl, rfl⟩ := ok_pair_inj hq
    obtain ⟨rfl, -⟩ := ok_pair_inj h
    exact ⟨by simpa using hout, v', arg, rfl, hv'⟩

/-- For a scalar there is nothing, where it has no default, or a value of its type. -/
theorem obtained_scalar (h : Obtained env (.scalar s) d) :
    (d = none ∧ s.absent env = .ok none) ∨
      ∃ v, d = some (.value v) ∧ s.argumentType.primitive.Fits env.toProtocol v := by
  have hparsed {arg : Option Str} {v : Value}
      (hv : s.argumentType.parse env.toProtocol arg = .ok v) :
      s.argumentType.primitive.Fits env.toProtocol v :=
    Primitive.parse_fits (ArgumentType.parse_eq_ok.mp hv).1
  have habsent (h : s.absent env = .ok d) : (d = none ∧ s.absent env = .ok none) ∨
      ∃ v, d = some (.value v) ∧ s.argumentType.primitive.Fits env.toProtocol v := by
    unfold Scalar.absent at h ⊢
    cases hdefault : s.default with
    | none =>
      simp only [hdefault] at h ⊢
      split_ifs at h ⊢
      exact .inl ⟨(ok.inj h).symm, rfl⟩
    | some text =>
      simp only [hdefault] at h
      obtain ⟨v, hv, h⟩ := bind_eq_ok h
      exact .inr ⟨v, (ok.inj h).symm, hparsed hv⟩
  rcases h with ⟨ps, h⟩ | h
  · obtain ⟨out, hfeed, hfinish⟩ := bind_eq_ok h
    obtain ⟨rfl, rfl⟩ | ⟨before, p, mid, a, q, -, -, hparse, rfl⟩ := feed_last hfeed
    · exact habsent hfinish
    · obtain ⟨-, v, arg, rfl, hv⟩ := scalar_parse_eq_ok hparse
      exact .inr ⟨v, (ok.inj hfinish).symm, hparsed hv⟩
  · exact habsent h

theorem parse_printed {text : Str} (hinverse : env.toProtocol.Inverse)
    (hfits : s.argumentType.primitive.Fits env.toProtocol v)
    (htext : s.argumentType.primitive.tostring env.toProtocol v = some text) {w : Value}
    (h : s.argumentType.parse env.toProtocol (some text) = .ok w) : w = v := by
  obtain ⟨hparse, -⟩ := ArgumentType.parse_eq_ok.mp h
  have hne : s.argumentType.primitive ≠ .empty := by
    intro hempty
    rw [hempty] at hparse
    cases hparse
  obtain ⟨text', htext', hparse'⟩ := Primitive.parse_tostring hinverse hne hfits
  obtain rfl := Option.mem_unique htext htext'
  exact ok_unique hparse hparse'

theorem scalar_parse_argument (s : Scalar) (text : Str) :
    (node env (.scalar s)).parse none (.argument text) =
      if s.argumentType.primitive = .empty then .error .expected
      else (fun v => (.value v, .argument text)) <$>
        s.argumentType.parse env.toProtocol (some text) := by
  unfold node visit scalarParser
  split_ifs
  · rfl
  · show (StateT.lift (s.argumentType.parse env.toProtocol (some text)) >>= fun v =>
      (pure (.value v) : StateT Payload (Except ParseError) Acc)) (.argument text) = _
    cases s.argumentType.parse env.toProtocol (some text) <;> rfl

theorem good_scalar_iff :
    Good env printDefault (.scalar s) (some (.value v)) ↔
      s.argumentType.primitive ≠ .empty ∧ s.argumentType.accepts v = true := by
  constructor
  · rintro ⟨⟩
    exact ⟨‹_›, ‹_›⟩
  · exact fun h => .scalar s v h.1 h.2

/-- **A scalar comes back if it passes the validators, and its type has texts.** -/
theorem scalar_returns (hinverse : env.toProtocol.Inverse) (hkeeps : Keeps env store)
    {d₀ : Option Data} (h : Obtained env (.scalar s) d₀) :
    ∃ ps, fieldStatements (scalarPrinter env.toProtocol printDefault s)
        (storeField store (.scalar s) d₀) = some ps ∧ ps.length ≤ 1 ∧
      ∀ x, settle (node env (.scalar s)) ps = .ok x ∧
        storeField store (.scalar s) x = storeField store (.scalar s) d₀ ↔
          x = storeField store (.scalar s) d₀ ∧
          Good env printDefault (.scalar s) (storeField store (.scalar s) d₀) := by
  obtain ⟨rfl, habsent⟩ | ⟨v₀, rfl, hfits⟩ := obtained_scalar h
  · refine ⟨[], rfl, Nat.zero_le _, fun x => ?_⟩
    have hsettle : settle (node env (.scalar s)) [] = .ok none := habsent
    rw [hsettle]
    constructor
    · rintro ⟨hx, -⟩
      exact ⟨(ok.inj hx).symm, .absentScalar s⟩
    · rintro ⟨rfl, -⟩
      exact ⟨rfl, rfl⟩
  · have hstored := hkeeps.fits _ _ hfits
    obtain ⟨text, htext⟩ := Primitive.exists_tostring hstored
    have hparse w : s.argumentType.parse env.toProtocol (some text) = .ok w ↔
        w = store s.argumentType.primitive v₀ ∧ Good env printDefault (.scalar s)
          (some (.value (store s.argumentType.primitive v₀))) := by
      rw [good_scalar_iff, ← ArgumentType.parse_tostring hinverse hstored htext]
      constructor
      · intro hw
        obtain rfl := parse_printed hinverse hstored htext hw
        exact ⟨rfl, hw⟩
      · rintro ⟨rfl, hw⟩
        exact hw
    -- Both the default and the argument are read as the text.
    have hread {r : Except ParseError (Option Data)}
        (hr : ∀ x, r = .ok x ↔ ∃ w, x = some (.value w) ∧
          s.argumentType.parse env.toProtocol (some text) = .ok w) x :
        r = .ok x ∧ storeField store (.scalar s) x =
            storeField store (.scalar s) (some (.value v₀)) ↔
          x = storeField store (.scalar s) (some (.value v₀)) ∧ Good env printDefault (.scalar s)
            (storeField store (.scalar s) (some (.value v₀))) := by
      rw [hr]
      constructor
      · rintro ⟨⟨w, rfl, hw⟩, -⟩
        obtain ⟨rfl, hgood⟩ := (hparse w).mp hw
        exact ⟨rfl, hgood⟩
      · rintro ⟨rfl, hgood⟩
        exact ⟨⟨_, rfl, (hparse _).mpr ⟨rfl, hgood⟩⟩, hkeeps.storeField _ _⟩
    by_cases homits : s.omits printDefault text = true
    · refine ⟨[], ?_, Nat.zero_le _, hread fun x => ?_⟩
      · simp [fieldStatements, storeField, scalarPrinter, htext, homits]
      · have hdefault : s.default = some text := by
          unfold Scalar.omits at homits
          simp only [Bool.and_eq_true, beq_iff_eq] at homits
          exact homits.2.symm
        show s.absent env = .ok x ↔ _
        unfold Scalar.absent
        rw [hdefault]
        constructor
        · intro hx
          obtain ⟨w, hw, hx⟩ := bind_eq_ok hx
          exact ⟨w, (ok.inj hx).symm, hw⟩
        · rintro ⟨w, rfl, hw⟩
          exact bind_of_eq_ok hw
    · refine ⟨[.argument text], ?_, le_rfl, hread fun x => ?_⟩
      · simp [fieldStatements, storeField, scalarPrinter, htext, homits]
      · unfold settle
        rw [feed_single]
        show (((fun r => some r.1) <$> (node env (.scalar s)).parse none (.argument text)) >>=
          (node env (.scalar s)).finish) = .ok x ↔ _
        rw [scalar_parse_argument]
        split_ifs with hempty
        · refine ⟨nofun, ?_⟩
          rintro ⟨w, -, hw⟩
          rw [ArgumentType.parse_eq_ok, hempty] at hw
          cases hw.1
        · cases hw : s.argumentType.parse env.toProtocol (some text) with
          | error e => exact ⟨nofun, fun ⟨_, _, h⟩ => nomatch h⟩
          | ok w =>
            constructor
            · exact fun hx => ⟨w, (ok.inj hx).symm, rfl⟩
            · rintro ⟨w', rfl, hw'⟩
              cases hw'
              rfl

/-! ## Leaf-lists -/

variable {elementType : ArgumentType}

theorem array_parse (h : (node env (.array elementType)).parse out p = .ok (a, q)) :
    ∃ vs v arg, out = some (.array vs) ∧ a = .array (vs ++ [v]) ∧
      elementType.parse env.toProtocol (some arg) = .ok v := by
  obtain ⟨⟨arg, q'⟩, -, h⟩ := bind_eq_ok h
  obtain ⟨⟨v, q''⟩, hv, h⟩ := bind_eq_ok h
  obtain ⟨v', hv', hq⟩ := bind_eq_ok hv
  obtain ⟨rfl, rfl⟩ := ok_pair_inj hq
  cases out with
  | none => cases h
  | some out =>
    cases out with
    | array vs =>
      obtain ⟨rfl, -⟩ := ok_pair_inj h
      exact ⟨vs, v', arg, rfl, rfl, hv'⟩
    | _ => cases h

theorem array_feed (h : feed (node env (.array elementType)) (some (.array [])) ps = .ok out) :
    ∃ vs, out = some (.array vs) ∧ vs.length = ps.length ∧
      ∀ v ∈ vs, ∃ arg, elementType.parse env.toProtocol (some arg) = .ok v := by
  induction ps using List.reverseRecOn generalizing out with
  | nil => exact ⟨[], (ok.inj h).symm, rfl, nofun⟩
  | append_singleton ps p ih =>
    obtain ⟨hnil, -⟩ | ⟨before, p', mid, a, q, heq, hfeed, hparse, rfl⟩ := feed_last h
    · simp at hnil
    · obtain ⟨rfl, hp⟩ := append_inj' heq rfl
      obtain ⟨vs, rfl, hlength, hall⟩ := ih hfeed
      obtain ⟨vs', v, arg, hvs, rfl, hv⟩ := array_parse hparse
      cases hvs
      refine ⟨vs ++ [v], rfl, by simp [hlength], fun w hw => ?_⟩
      rcases mem_append.mp hw with hw | hw
      · exact hall w hw
      · obtain rfl := mem_singleton.mp hw
        exact ⟨arg, hv⟩

theorem obtained_array
    (h : Obtained env (.array elementType) d) : d = none ∨ ∃ vs, d = some (.array vs) ∧
      ∀ v ∈ vs, ∃ arg, elementType.parse env.toProtocol (some arg) = .ok v := by
  rcases h with ⟨ps, h⟩ | h
  · obtain ⟨out, hfeed, hfinish⟩ := bind_eq_ok h
    obtain ⟨vs, rfl, -, hall⟩ := array_feed hfeed
    exact .inr ⟨vs, (ok.inj hfinish).symm, hall⟩
  · exact .inl (ok.inj h).symm

/-- **The values of a leaf-list come back.** -/
theorem array_returns (hinverse : env.toProtocol.Inverse)
    {vs : List Value} (h : ∀ v ∈ vs, ∃ arg, elementType.parse env.toProtocol (some arg) = .ok v) :
    ∃ ps, arrayPrinter env.toProtocol elementType (.array vs) = some ps ∧
      ps.length = vs.length ∧
      settle (node env (.array elementType)) ps = .ok (some (.array vs)) := by
  -- Of each value, its text is read as the value again.
  have hprinted : ∀ v ∈ vs, ∃ text, elementType.primitive.tostring env.toProtocol v = some text ∧
      elementType.parse env.toProtocol (some text) = .ok v := by
    intro v hv
    obtain ⟨arg, harg⟩ := h v hv
    obtain ⟨hparse, haccepts⟩ := ArgumentType.parse_eq_ok.mp harg
    have hne : elementType.primitive ≠ .empty := by
      intro hempty
      rw [hempty] at hparse
      cases hparse
    obtain ⟨text, htext, hback⟩ :=
      Primitive.parse_tostring hinverse hne (Primitive.parse_fits hparse)
    exact ⟨text, htext, ArgumentType.parse_eq_ok.mpr ⟨hback, haccepts⟩⟩
  have hfeed done : ∃ ps : List Payload,
      vs.mapM (fun v => Payload.argument <$> elementType.primitive.tostring env.toProtocol v) =
        some ps ∧ ps.length = vs.length ∧
      feed (node env (.array elementType)) (some (.array done)) ps =
        .ok (some (.array (done ++ vs))) := by
    clear h
    induction vs generalizing done with
    | nil => exact ⟨[], rfl, rfl, by rw [append_nil]; rfl⟩
    | cons v vs ih =>
      obtain ⟨text, htext, hparse⟩ := hprinted v mem_cons_self
      obtain ⟨ps, hps, hlength, hrest⟩ :=
        ih (fun w hw => hprinted w (mem_cons_of_mem _ hw)) (done ++ [v])
      refine ⟨.argument text :: ps, ?_, by simp [hlength], ?_⟩
      · rw [mapM_cons, htext, hps]
        rfl
      · have hread : (node env (.array elementType)).parse (some (.array done)) (.argument text) =
            .ok (.array (done ++ [v]), .argument text) := by
          show (StateT.lift (elementType.parse env.toProtocol (some text)) >>= fun v =>
            (pure (.array (done ++ [v])) : StateT Payload (Except ParseError) Acc))
              (.argument text) = _
          rw [hparse]
          rfl
        rw [feed, foldlM_cons, hread]
        rw [append_assoc] at hrest
        exact hrest
  obtain ⟨ps, hps, hlength, hread⟩ := hfeed []
  exact ⟨ps, hps, hlength, bind_of_eq_ok hread⟩

/-! ## Leaves of choices -/

theorem Node.resume_none (node : Node Payload) : node.resume none = node.init := by
  unfold Node.resume
  split_ifs <;> rfl

/-- A leaf of a choice reads as elsewhere if it goes on with its table, or has but one statement. -/
theorem feedLeaf_eq_feed {node : Node Payload} (hps : ps ≠ [])
    (h : node.resumes = true ∨ ps.length ≤ 1) : feedLeaf node ps = feed node node.init ps := by
  obtain ⟨p, rest, rfl⟩ := exists_cons_of_ne_nil hps
  have hrest a :
      rest.foldlM (fun out p => (fun r => some r.1) <$> node.parse (node.resume out) p) (some a) =
        rest.foldlM (fun out p => (fun r => some r.1) <$> node.parse out p) (some a) := by
    rcases h with hresumes | hlength
    · clear hps
      induction rest generalizing a with
      | nil => rfl
      | cons q rest ih =>
        have hresume : node.resume (some a) = some a := by
          unfold Node.resume
          rw [if_pos hresumes]
          rfl
        rw [foldlM_cons, foldlM_cons, hresume]
        cases node.parse (some a) q with
        | error e => rfl
        | ok r => exact ih r.1
    · have hnil : rest = [] := by
        rw [length_cons] at hlength
        exact length_eq_zero_iff.mp (by omega)
      rw [hnil]
      rfl
  unfold feedLeaf feed
  rw [foldlM_cons, foldlM_cons, node.resume_none]
  cases node.parse node.init p with
  | error e => rfl
  | ok r => exact hrest r.1

/-- What a leaf of a choice has read, its node may have read elsewhere. -/
theorem exists_feed_of_feedLeaf {node : Node Payload} (hps : ps ≠ [])
    (h : feedLeaf node ps = .ok out) : ∃ ps', ps' ≠ [] ∧ feed node node.init ps' = .ok out := by
  by_cases hresumes : node.resumes = true
  · exact ⟨ps, hps, by rw [← feedLeaf_eq_feed hps (.inl hresumes), h]⟩
  · obtain ⟨before, p, rfl⟩ := (eq_nil_or_concat ps).resolve_left hps
    rw [concat_eq_append, feedLeaf, foldlM_append] at h
    obtain ⟨mid, -, h⟩ := bind_eq_ok h
    rw [foldlM_cons] at h
    obtain ⟨out', hparse, hnil⟩ := bind_eq_ok h
    cases hnil
    have hresume : node.resume mid = node.init := by
      unfold Node.resume
      rw [if_neg hresumes]
      rfl
    rw [hresume] at hparse
    exact ⟨[p], by simp, by rw [feed_single, hparse]⟩

end Yang

end Snabb
