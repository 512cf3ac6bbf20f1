import Snabb.Lib.Yang.Data.Statements

/-!
# What is read from a text is read from statements (`lib/yang/data.lua`)

However a text is laid out, a node that reads it does what it does on some statement (`Reflects`).

- `visit_reflects`: this holds for every node;
- `topLoop_reflects`, `bareLoop_reflects`: a whole text stands for a list of statements.
-/

namespace Snabb

open Foundation

namespace Yang

variable {α β : Type} {n : Nat}

/-- What is read from a text can be read from a statement. -/
def Reflects (x : Read α) (y : StateT Payload (Except ParseError) α) : Prop :=
  ∀ t v t', x t = .ok (v, t') → ∃ p, y p = .ok (v, p)

/-- What is returned without reading anything is returned for every statement. -/
def Passes (x : Read α) (y : StateT Payload (Except ParseError) α) : Prop :=
  ∀ t v t', x t = .ok (v, t') → ∀ p, y p = .ok (v, p)

variable {w : β} {p : Payload} {y : StateT Payload (Except ParseError) α}
  {g : α → StateT Payload (Except ParseError) β} {st st' : Progress} {t' : Text}

/-- Two steps that are read one after the other are read each. -/
theorem read_bind {σ : Type} {x : StateT σ (Except ParseError) α}
    {f : α → StateT σ (Except ParseError) β} {t t'' : σ}
    (h : (x >>= f) t = .ok (w, t'')) : ∃ v t', x t = .ok (v, t') ∧ f v t' = .ok (w, t'') := by
  obtain ⟨⟨v, t'⟩, hx, hf⟩ := bind_eq_ok h
  exact ⟨v, t', hx, hf⟩

/-- Two steps that leave a statement as it is do so together. -/
theorem bind_ok {x : StateT Payload (Except ParseError) α}
    {f : α → StateT Payload (Except ParseError) β} {v : α} (hx : x p = .ok (v, p))
    (hf : f v p = .ok (w, p)) : (x >>= f) p = .ok (w, p) := by
  show (x p >>= fun a => f a.1 a.2) = _
  rw [hx]
  exact hf

theorem Passes.pure (v : α) : Passes (pure v) (pure v) := by
  intro t w t' h p
  cases h
  rfl

theorem Passes.throw (e : ParseError) :
    Passes (throw e : Read α) (throw e : StateT Payload (Except ParseError) α) :=
  fun _ _ _ h => nomatch h

theorem Passes.lift (r : Except ParseError α) : Passes (StateT.lift r) (StateT.lift r) := by
  intro t v t' h p
  cases r with
  | error e => cases h
  | ok w =>
    cases h
    rfl

variable {x : Read α} {f : α → Read β}

/-- What returns for every statement, and then does so again, returns for every statement. -/
theorem Passes.bind (h : Passes x y)
    (h' : ∀ v, Passes (f v) (g v)) : Passes (x >>= f) (y >>= g) := by
  intro t w t'' hxf p
  obtain ⟨v, t', hx, hf⟩ := read_bind hxf
  exact bind_ok (h t v t' hx p) (h' v t' w t'' hf p)

/-- The first step settles the statement; the second takes whatever that is. -/
theorem Reflects.bind (h : Reflects x y)
    (h' : ∀ v, Passes (f v) (g v)) : Reflects (x >>= f) (y >>= g) := by
  intro t w t'' hxf
  obtain ⟨v, t', hx, hf⟩ := read_bind hxf
  obtain ⟨p, hp⟩ := h t v t' hx
  exact ⟨p, bind_ok hp (h' v t' w t'' hf p)⟩

theorem Reflects.map {f : α → β} (h : Reflects x y) : Reflects (f <$> x) (f <$> y) := by
  intro t w t' hfx
  obtain ⟨⟨v, t''⟩, hx, hw⟩ := bind_eq_ok hfx
  obtain ⟨rfl, rfl⟩ := ok_pair_inj hw
  obtain ⟨p, hp⟩ := h t v t'' hx
  refine ⟨p, ?_⟩
  show (y p >>= fun a => Except.ok (f a.1, a.2)) = _
  rw [hp]
  rfl

theorem Reflects.throw (e : ParseError) (y : StateT Payload (Except ParseError) α) :
    Reflects (throw e : Read α) y := fun _ _ _ h => nomatch h

/-! ## Sources -/

/-- An argument is that of the statement with this argument. -/
theorem argument_reflects : Reflects (textSource n).argument statementSource.argument :=
  fun _ s _ _ => ⟨.argument s, rfl⟩

/-- A semicolon is that of the empty statement. -/
theorem semicolon_reflects : Reflects (textSource n).semicolon statementSource.semicolon :=
  fun _ _ _ _ => ⟨.empty, rfl⟩

variable {step : Progress → Str → Read Progress}
  {step' : Progress → Str → StateT Payload (Except ParseError) Progress}

/-- Reading a statement and then others. -/
theorem readStatements_cons {k : Str} {children : List (Str × Payload)}
    (hstep : step' st k p = .ok (st', p)) :
    readStatements step' ((k, p) :: children) st = readStatements step' children st' := by
  unfold readStatements
  rw [List.foldlM_cons]
  simp only [hstep]
  rfl

section

variable (h : ∀ st k, Reflects (step st k) (step' st k))
include h

variable {t : Text}

/-- What the loop of a struct read is a list of statements. -/
theorem blockLoop_reflects (m : Nat) (hloop : blockLoop n step m st t = .ok (st', t')) :
    ∃ children, readStatements step' children st = .ok st' := by
  induction m generalizing st t with
  | zero => cases hloop
  | succ m ih =>
    obtain ⟨ends, t₁, -, hloop⟩ := read_bind hloop
    split_ifs at hloop
    · cases hloop
      exact ⟨[], rfl⟩
    · obtain ⟨k, t₂, -, hloop⟩ := read_bind hloop
      obtain ⟨st₁, t₃, hstep, hloop⟩ := read_bind hloop
      obtain ⟨_, t₄, -, hloop⟩ := read_bind hloop
      obtain ⟨p, hp⟩ := h st k t₂ st₁ t₃ hstep
      obtain ⟨children, hread⟩ := ih hloop
      exact ⟨(k, p) :: children, by rw [readStatements_cons hp, hread]⟩

/-- What the loop of a top-level struct read is a list of statements. -/
theorem topLoop_reflects (m : Nat) (hloop : topLoop n step m st t = .ok (st', t')) :
    ∃ children, readStatements step' children st = .ok st' := by
  induction m generalizing st t with
  | zero => cases hloop
  | succ m ih =>
    obtain ⟨_, t₀, -, hloop⟩ := read_bind hloop
    obtain ⟨ends, t₁, -, hloop⟩ := read_bind hloop
    split_ifs at hloop
    · cases hloop
      exact ⟨[], rfl⟩
    · obtain ⟨k, t₂, -, hloop⟩ := read_bind hloop
      obtain ⟨st₁, t₃, hstep, hloop⟩ := read_bind hloop
      obtain ⟨p, hp⟩ := h st k t₂ st₁ t₃ hstep
      obtain ⟨children, hread⟩ := ih hloop
      exact ⟨(k, p) :: children, by rw [readStatements_cons hp, hread]⟩

/-- A block in braces is the statement with a list of statements. -/
theorem block_reflects (st : Progress) :
    Reflects ((textSource n).block step st) (statementSource.block step' st) := by
  intro t st' t' hblock
  obtain ⟨_, t₁, -, hblock⟩ := read_bind hblock
  obtain ⟨_, t₂, -, hblock⟩ := read_bind hblock
  obtain ⟨_, t₃, -, hblock⟩ := read_bind hblock
  obtain ⟨children, hread⟩ := blockLoop_reflects h n hblock
  refine ⟨.block children, ?_⟩
  show (readStatements step' children st >>= fun st => Except.ok (st, _)) = _
  rw [hread]
  rfl

end

/-! ## Nodes -/

variable {members : List (Member Grammar)} {nodes : Grammar → Node Text}
  {nodes' : Grammar → Node Payload}

/-- What a node reads from a text can be read from a statement. -/
def NodeReflects (node : Node Text) (node' : Node Payload) : Prop :=
  ∀ out, Reflects (node.parse out) (node'.parse out)

/-- A member that is read by its name from a text is read so from a statement. -/
theorem structStep_reflects (h : ∀ e ∈ members, NodeReflects (nodes e.node) (nodes' e.node))
    (hsame : ∀ e ∈ members, Same n (nodes e.node) (nodes' e.node)) (st : Progress) (k : Str) :
    Reflects (structStep (members.map (Member.map nodes)) st k)
      (structStep (members.map (Member.map nodes')) st k) := by
  unfold structStep
  rw [find?_map_name, find?_map_name]
  cases hfind : members.find? (·.name = k) with
  | none => exact .throw _ _
  | some e =>
    have hmem := List.mem_of_find?_eq_some hfind
    simp only [Option.map_some, Member.map_choice, Member.map_node]
    cases e.choice with
    | none => exact (h e hmem _).bind fun out => .pure _
    | some choice =>
      have hresume out : (nodes e.node).resume out = (nodes' e.node).resume out := by
        rw [Node.resume, Node.resume, (hsame e hmem).init, (hsame e hmem).resumes]
      simp only [hresume]
      split_ifs with hchosen
      · exact .throw _ _
      · exact (h e hmem _).bind fun out => .pure _

theorem scalarParser_reflects (env : Env) (s : Scalar) :
    NodeReflects (scalarParser env (textSource n) s) (scalarParser env statementSource s) := by
  intro out
  unfold scalarParser
  simp only
  split_ifs
  · exact .throw _ _
  · exact semicolon_reflects.map.bind fun arg => (Passes.lift _).bind fun v => .pure _
  · exact argument_reflects.map.bind fun arg => (Passes.lift _).bind fun v => .pure _

theorem arrayParser_reflects (env : Env) (elementType : ArgumentType) :
    NodeReflects (arrayParser env (textSource n) elementType)
      (arrayParser env statementSource elementType) := by
  intro out
  refine argument_reflects.bind fun arg => (Passes.lift _).bind fun v => ?_
  cases out with
  | none => exact .throw _
  | some out => cases out <;> first | exact .pure _ | exact .throw _

theorem structParser_reflects (ctype : Bool) (store : Fields → Fields)
    (h : ∀ e ∈ members, NodeReflects (nodes e.node) (nodes' e.node))
    (hsame : ∀ e ∈ members, Same n (nodes e.node) (nodes' e.node)) :
    NodeReflects (structParser (textSource n) (members.map (Member.map nodes)) ctype store)
      (structParser statementSource (members.map (Member.map nodes')) ctype store) := by
  intro out
  unfold structParser
  simp only [structInit_same hsame]
  split_ifs
  · exact .throw _ _
  · exact (block_reflects (structStep_reflects h hsame) _).bind fun st => .pure _

theorem listParser_reflects (env : Env) (keys : List (Str × Scalar)) (values : List (Str × Grammar))
    (h : ∀ e ∈ members, NodeReflects (nodes e.node) (nodes' e.node))
    (hsame : ∀ e ∈ members, Same n (nodes e.node) (nodes' e.node)) :
    NodeReflects (listParser env (textSource n) (members.map (Member.map nodes)) keys values)
      (listParser env statementSource (members.map (Member.map nodes')) keys values) := by
  intro out
  unfold listParser
  simp only [structInit_same hsame, finishMembers_same hsame]
  refine (block_reflects (structStep_reflects h hsame) _).bind fun st =>
    (Passes.lift _).bind fun entry => ?_
  cases out with
  | none => exact .throw _
  | some out =>
    cases out with
    | list given => exact (Passes.lift _).bind fun given => .pure _
    | _ => exact .throw _

/-- **Whatever a node reads from a text is what it reads from some statement.** -/
theorem visit_reflects (env : Env) (n : Nat) (g : Grammar) :
    NodeReflects (visit env (textSource n) g) (visit env statementSource g) := by
  induction g using Grammar.induction with
  | scalar s => exact scalarParser_reflects env s
  | array elementType => exact arrayParser_reflects env elementType
  | struct members ih =>
    rw [visit, visit, visitn_eq, visitn_eq]
    exact structParser_reflects _ _ ih fun e _ => visit_same env n e.node
  | list keys values ih =>
    rw [visit_list, visit_list, visitn_eq, visitn_eq]
    refine listParser_reflects env keys values (listMembers_induction
      (P := fun g => NodeReflects (visit env (textSource n) g) (visit env statementSource g)) ?_ ih)
      fun e _ => visit_same env n e.node
    exact fun s => scalarParser_reflects env s
  | choice default mandatory leaves => exact fun _ => .throw _ _

/-- A top-level array or list is what some statements are. -/
theorem bareLoop_reflects {node : Node Text} {node' : Node Payload} (h : NodeReflects node node')
    (m : Nat) {out out' : Option Acc} (hloop : bareLoop n node m out t = .ok (out', t')) :
    ∃ ps : List Payload,
      ps.foldlM (fun out p => (fun r => some r.1) <$> node'.parse out p) out = .ok out' := by
  induction m generalizing out t with
  | zero => cases hloop
  | succ m ih =>
    obtain ⟨_, t₀, -, hloop⟩ := read_bind hloop
    obtain ⟨ends, t₁, -, hloop⟩ := read_bind hloop
    split_ifs at hloop
    · cases hloop
      exact ⟨[], rfl⟩
    · obtain ⟨a, t₂, hparse, hloop⟩ := read_bind hloop
      obtain ⟨p, hp⟩ := h out t₁ a t₂ hparse
      obtain ⟨ps, hfeed⟩ := ih hloop
      refine ⟨p :: ps, ?_⟩
      rw [List.foldlM_cons]
      simp only [hp]
      exact hfeed

end Yang

end Snabb
