import Snabb.Lib.Yang.Data.Text

/-!
# Written statements are read as statements (`lib/yang/data.lua`)

A grammar is visited for texts and for statements alike, and a node does on the text of a statement
what it does on the statement (`Same`).

- `Grammar.induction`: the induction rule, with the members of a struct as they are expanded;
- `visit_same`: every node reads a text as its statement;
- `topLoop_gives`: so does the loop at the top.
-/

namespace Snabb

open Foundation List

namespace Yang

/-! ## Grammars -/

/-- The same member of another struct. -/
def Member.map {P Q : Type} (f : P → Q) (e : Member P) : Member Q := ⟨e.name, e.choice, f e.node⟩

variable {P Q : Type}

@[simp] theorem Member.map_id (f : P → Q) (e : Member P) : (e.map f).id = e.id := rfl

@[simp] theorem Member.map_name (f : P → Q) (e : Member P) : (e.map f).name = e.name := rfl

@[simp] theorem Member.map_choice (f : P → Q) (e : Member P) : (e.map f).choice = e.choice := rfl

@[simp] theorem Member.map_node (f : P → Q) (e : Member P) : (e.map f).node = f e.node := rfl

theorem sizeOf_expand {members : List (Str × Grammar)} {e : Member Grammar}
    (he : e ∈ expand members) : sizeOf e.node < sizeOf members := by
  obtain ⟨⟨k, g⟩, hmem, he⟩ := mem_flatMap.mp he
  have hlt := sizeOf_lt_of_mem hmem
  rw [Prod.mk.sizeOf_spec] at hlt
  cases g with
  | choice default mandatory leaves =>
    obtain ⟨⟨case, name, g⟩, hleaf, rfl⟩ := mem_map.mp he
    have hlt' := sizeOf_lt_of_mem hleaf
    simp only [Prod.mk.sizeOf_spec, Grammar.choice.sizeOf_spec] at hlt hlt'
    show sizeOf g < sizeOf members
    omega
  | _ =>
    obtain rfl := mem_singleton.mp he
    refine lt_trans ?_ hlt
    simp only
    omega

/-- **Induction over grammars.** -/
theorem Grammar.induction {P : Grammar → Prop} (scalar : ∀ s, P (.scalar s))
    (array : ∀ t, P (.array t))
    (struct : ∀ members, (∀ e ∈ expand members, P e.node) → P (.struct members))
    (list : ∀ keys values, (∀ e ∈ expand values, P e.node) → P (.list keys values))
    (choice : ∀ default mandatory leaves, P (.choice default mandatory leaves)) (g : Grammar) :
    P g := by
  induction hsize : sizeOf g using Nat.strong_induction_on generalizing g with
  | _ size ih =>
    subst hsize
    cases g with
    | scalar s => exact scalar s
    | array t => exact array t
    | struct members =>
      refine struct members fun e he => ih _ ?_ e.node rfl
      have hlt := sizeOf_expand he
      rw [Grammar.struct.sizeOf_spec]
      omega
    | list keys values =>
      refine list keys values fun e he => ih _ ?_ e.node rfl
      have hlt := sizeOf_expand he
      rw [Grammar.list.sizeOf_spec]
      omega
    | choice default mandatory leaves => exact choice default mandatory leaves

variable {σ : Type} {env : Env} {src : Source σ}

theorem visitLeaves_eq (k : Str) (default : Option Str) (mandatory : Bool)
    (leaves : List (Str × Str × Grammar)) :
    visitLeaves env src k default mandatory leaves = leaves.map fun (case, name, g) =>
      ⟨name, some ⟨k, case, default, mandatory⟩, visit env src g⟩ := by
  induction leaves with
  | nil => rfl
  | cons leaf leaves ih => rw [visitLeaves, ih, map_cons]

theorem visitn_eq (members : List (Str × Grammar)) :
    visitn env src members = (expand members).map (Member.map (visit env src)) := by
  induction members with
  | nil => rfl
  | cons member members ih =>
    obtain ⟨k, g⟩ := member
    unfold expand at ih ⊢
    rw [flatMap_cons, map_append, ← ih]
    cases g with
    | choice default mandatory leaves =>
      rw [visitn, visitLeaves_eq, map_map]
      rfl
    | _ =>
      rw [visitn]
      · rfl
      · simp

theorem visit_list (keys : List (Str × Scalar)) (values : List (Str × Grammar)) :
    visit env src (.list keys values) =
      listParser env src (visitn env src (listMembers keys values)) keys values := by
  have hkeys : visitn env src (listMembers keys values) =
      keys.map (fun k => ⟨k.1, none, scalarParser env src k.2⟩) ++ visitn env src values := by
    unfold listMembers
    induction keys with
    | nil => rfl
    | cons key keys ih =>
      rw [map_cons, cons_append, visitn, ih]
      · rfl
      · simp
  rw [visit, hkeys]

/-! ## Blocks -/

variable {α β : Type} {s t ws indent : Str} {n : Nat}

/-- All keywords in a statement are names. -/
inductive Payload.Valid : Payload → Prop
  | empty : Valid .empty
  | argument (s : Str) : Valid (.argument s)
  | block (children : List (Str × Payload)) (names : ∀ c ∈ children, isIdentifier c.1 = true)
      (valid : ∀ c ∈ children, Valid c.2) : Valid (.block children)

/-- The statements of a block, one after the other. -/
def readStatements (step : Progress → Str → StateT Payload (Except ParseError) Progress)
    (children : List (Str × Payload)) (st : Progress) : Except ParseError Progress :=
  children.foldlM (fun st (k, child) => Prod.fst <$> step st k child) st

/-- Each of the statements is read from its text as it is. -/
def StepSame (n : Nat) (step : Progress → Str → Read Progress)
    (step' : Progress → Str → StateT Payload (Except ParseError) Progress)
    (children : List (Str × Payload)) : Prop :=
  ∀ st, ∀ c ∈ children, ∀ indent t, indent.all isSpace = true →
    (writePayload indent c.2).length < n →
    Gives (step st c.1) (32 :: writePayload indent c.2 ++ t) (10 :: t)
      (Prod.fst <$> step' st c.1 c.2)

variable {step : Progress → Str → Read Progress}
  {step' : Progress → Str → StateT Payload (Except ParseError) Progress}
  {children : List (Str × Payload)} {k : Str} {p : Payload} {st : Progress}

theorem StepSame.tail (h : StepSame n step step' ((k, p) :: children)) :
    StepSame n step step' children :=
  fun st c hc => h st c (mem_cons_of_mem _ hc)

/-- A name begins with none of the bytes at which the parser stops. -/
theorem identifier_head (hk : isIdentifier k = true) (t : Str) :
    ((k ++ t).head?.any isSpace = false ∧ (k ++ t).head? ≠ some 47) ∧
      (k ++ t).head? ≠ some 125 ∧ (k ++ t).isEmpty = false := by
  obtain ⟨-, -, c, rest, rfl, hc⟩ := printYangString_identifier hk
  obtain ⟨hspace, -, -, h47, -, -, h125⟩ := isPlain_not hc
  simp [hspace, h47, h125]

theorem length_writeBody_cons : (writeBody indent ((k, p) :: children)).length =
    indent.length + (printYangString k).length + 1 + (writePayload indent p).length +
      (writeBody indent children).length := by
  rw [writeBody]
  simp only [List.length_append, length_singleton]

variable {u : Str} {x : Read α} {y : StateT Payload (Except ParseError) α}

/-- The first statement of a block is read, up to the end of its line. -/
theorem statement_gives {r : Progress → Except ParseError α} {f : Progress → Read α}
    (hn : (writeBody indent ((k, p) :: children)).length < n) (hk : isIdentifier k = true)
    (hindent : indent.all isSpace = true) (h : StepSame n step step' ((k, p) :: children))
    (hrest : ∀ st', Gives (f st') (10 :: (writeBody indent children ++ t)) u (r st')) :
    Gives (do
      let k ← parseIdentifier n
      let st ← step st k
      f st) (k ++ 32 :: (writePayload indent p ++ (writeBody indent children ++ t))) u
      ((Prod.fst <$> step' st k p) >>= r) := by
  rw [length_writeBody_cons] at hn
  have hstep := h st (k, p) mem_cons_self indent (writeBody indent children ++ t) hindent
    (by simp only; omega)
  exact (parseIdentifier_gives (by omega) hk).next (hstep.bind fun st' _ => hrest st')

theorem skip_statement_gives {r : Except ParseError α} (hn : 0 < n) (hk : isIdentifier k = true)
    (hws : ws.all isSpace = true) (hindent : indent.all isSpace = true)
    (h : Gives x (k ++ 32 :: (writePayload indent p ++ (writeBody indent children ++ t))) u r) :
    Gives (skipWhitespace n >>= fun _ => x) (ws ++ (writeBody indent ((k, p) :: children) ++ t)) u
      r := by
  obtain ⟨hhead, -⟩ := identifier_head hk
    (32 :: (writePayload indent p ++ (writeBody indent children ++ t)))
  have htext : ws ++ (writeBody indent ((k, p) :: children) ++ t) = (ws ++ indent) ++
      (k ++ 32 :: (writePayload indent p ++ (writeBody indent children ++ t))) := by
    rw [writeBody, (printYangString_identifier hk).1]
    simp
  rw [htext]
  exact (skipWhitespace_gives hn (by simp [hws, hindent]) hhead.1 hhead.2).next h

section

variable (ws : Str) (m : Nat) (hm : children.length < m)
  (hn : (writeBody indent children).length < n) (hnames : ∀ c ∈ children, isIdentifier c.1 = true)
  (hws : ws.all isSpace = true) (hindent : indent.all isSpace = true)
include hm hn hnames hws hindent

/-- A loop reads the statements of a block up to what stops it. -/
theorem loop_gives (loop : Nat → Progress → Read Progress) {stop : Read Bool} {last : Str}
    (hloop : ∀ m st, loop (m + 1) st = (do
      let _ ← skipWhitespace n
      if ← stop then return st else
        let k ← parseIdentifier n
        let st ← step st k
        loop m st))
    (hstop : ∀ (ws : Str) (f : Bool → Read Progress) (r : Except ParseError Progress),
      ws.all isSpace = true → Gives (f true) t t r →
        Gives (skipWhitespace n >>= fun _ => stop >>= f) (ws ++ last) t r)
    (hgo : ∀ k u, isIdentifier k = true → Gives stop (k ++ u) (k ++ u) (.ok false))
    (h : StepSame n step step' children) :
    Gives (loop m st) (ws ++ (writeBody indent children ++ last)) t
      (readStatements step' children st) := by
  induction children generalizing ws m st with
  | nil =>
    obtain ⟨m, rfl⟩ := Nat.exists_eq_add_of_lt hm
    rw [writeBody, nil_append, hloop]
    exact hstop ws _ _ hws (.pure st)
  | cons c children ih =>
    obtain ⟨m, rfl⟩ := Nat.exists_eq_add_of_lt hm
    have hk := hnames _ mem_cons_self
    have hrest : (writeBody indent children).length < n := by
      rw [length_writeBody_cons] at hn
      omega
    rw [hloop]
    refine skip_statement_gives (by omega) hk hws hindent ?_
    refine (hgo _ _ hk).next (statement_gives hn hk hindent h fun st' => ?_)
    exact ih [10] _ (by rw [length_cons]; omega) hrest
      (fun c hc => hnames c (mem_cons_of_mem _ hc)) rfl h.tail

/-- The loop of a struct reads the statements up to the brace that ends them. -/
theorem blockLoop_gives {last : Str} (hlast : last.all isSpace = true)
    (h : StepSame n step step' children) :
    Gives (skipWhitespace n >>= fun _ => blockLoop n step m st)
      (ws ++ (writeBody indent children ++ (last ++ 125 :: t))) t
      (readStatements step' children st) := by
  refine loop_gives ws m hm hn hnames hws hindent
    (fun m st => skipWhitespace n >>= fun _ => blockLoop n step m st) (fun _ _ => rfl)
    (fun ws f r hws hf => ?_) (fun k u hk => check_no (identifier_head hk _).2.1) h
  rw [← append_assoc]
  exact (skipWhitespace_gives (by omega) (by simp [hws, hlast]) rfl (by simp)).next
    ((check_yes 125).next hf)

/-- The loop of a top-level struct reads the statements up to the end of the text. -/
theorem topLoop_gives (h : StepSame n step step' children) :
    Gives (topLoop n step m st) (ws ++ (writeBody indent children ++ [])) []
      (readStatements step' children st) := by
  refine loop_gives ws m hm hn hnames hws hindent (topLoop n step) (fun _ _ => rfl)
    (fun ws f r hws hf => ?_) (fun k u hk => ?_) h
  · exact (skipWhitespace_gives (by omega) hws rfl (by simp)).next (isEof_gives.next hf)
  · rw [← (identifier_head hk u).2.2]
    exact isEof_gives

end

/-! ## Statements -/

/-- On the text `s` the reader does what the other one does on a statement, and leaves `t`. -/
def Follows (x : Read α) (y : StateT Payload (Except ParseError) α) (p : Payload) (s t : Str) :
    Prop :=
  ∃ r, y p = (fun v => (v, p)) <$> r ∧ Gives x s t r

theorem Follows.gives (h : Follows x y p s t) : Gives x s t (Prod.fst <$> y p) := by
  obtain ⟨r, hy, hx⟩ := h
  have hr : Prod.fst <$> y p = r := by
    rw [hy]
    cases r <;> rfl
  rwa [hr]

theorem Follows.pure (v : α) : Follows (pure v) (pure v) p t t := ⟨.ok v, rfl, .pure v⟩

theorem Follows.throw (e : ParseError) :
    Follows (throw e : Read α) (throw e : StateT Payload (Except ParseError) α) p s t :=
  ⟨.error e, rfl, .throw e⟩

theorem Follows.lift (r : Except ParseError α) : Follows (StateT.lift r) (StateT.lift r) p t t := by
  refine ⟨r, ?_, .lift r⟩
  cases r <;> rfl

theorem Follows.bind {f : α → Read β} {g : α → StateT Payload (Except ParseError) β}
    (h : Follows x y p s t)
    (h' : ∀ v, Follows (f v) (g v) p t t) : Follows (x >>= f) (y >>= g) p s t := by
  obtain ⟨r, hy, hx⟩ := h
  choose r' hg hf using h'
  refine ⟨r >>= r', ?_, hx.bind fun v _ => hf v⟩
  show (y p >>= fun a => g a.1 a.2) = _
  rw [hy]
  cases r with
  | error e => rfl
  | ok v => exact hg v

theorem Follows.map {f : α → β} (h : Follows x y p s t) : Follows (f <$> x) (f <$> y) p s t := by
  obtain ⟨r, hy, hx⟩ := h
  refine ⟨f <$> r, ?_, hx.map⟩
  show (y p >>= fun a => Except.ok (f a.1, a.2)) = _
  rw [hy]
  cases r <;> rfl

/-- A printed string begins with none of the bytes at which the parser stops. -/
theorem printYangString_head (s t : Str) : ∃ c u, printYangString s ++ t = c :: u ∧
    isSpace c = false ∧ c ≠ 47 ∧ c ≠ 59 ∧ c ≠ 123 := by
  unfold printYangString
  split_ifs with hempty hplain
  · exact ⟨39, 39 :: t, rfl, by decide⟩
  · obtain ⟨c, rest, rfl⟩ := exists_cons_of_ne_nil hempty
    have hc : isPlain c = true := by simpa using (all_eq_true.mp hplain) c mem_cons_self
    obtain ⟨hspace, -, -, h47, h59, h123, -⟩ := isPlain_not hc
    exact ⟨c, rest ++ t, rfl, hspace, h47, h59, h123⟩
  · exact ⟨34, _, rfl, by decide⟩

theorem skip_space_gives (hn : 0 < n) {c : UInt8} (hspace : isSpace c = false)
    (hcomment : c ≠ 47) : Gives (skipWhitespace n) (32 :: c :: u) (c :: u) (.ok true) :=
  skipWhitespace_gives (s := [32]) hn rfl (by simpa using hspace) (by simpa using hcomment)

theorem argument_follows (hn : (writePayload indent p).length < n) :
    Follows (textSource n).argument statementSource.argument p (32 :: writePayload indent p ++ t)
      (10 :: t) := by
  have hpos : 0 < n := by omega
  have hempty {c : UInt8} hc (hhead : c ≠ 34 ∧ c ≠ 39 ∧ c ≠ 47) u :
      Gives (parseString n) (c :: u) (c :: u) (.ok []) :=
    (check_no (by simpa using hhead.2.1)).next ((check_no (by simpa using hhead.1)).next
      (plainString_gives (s := []) hpos rfl (by simpa using hc) (by simpa using hhead.2.2)))
  cases p with
  | empty =>
    refine ⟨.ok [], rfl, ?_⟩
    refine ((skip_space_gives hpos rfl (by decide)).next (.pure ())).next ?_
    refine (hempty (by decide) (by decide) _).next ?_
    refine (skipWhitespace_gives (s := []) hpos rfl rfl (by simp)).next ?_
    exact (consume_gives 59).next (.pure [])
  | argument s =>
    refine ⟨.ok s, rfl, ?_⟩
    rw [writePayload] at hn ⊢
    have hlength : (printYangString s).length < n := by
      rw [List.length_append] at hn
      omega
    have htext : 32 :: (printYangString s ++ [59, 10]) ++ t =
        32 :: (printYangString s ++ 59 :: 10 :: t) := by
      simp
    obtain ⟨c, u, hhead, hspace, hcomment, -⟩ := printYangString_head s (59 :: 10 :: t)
    have hskip : Gives (consumeWhitespace n) (32 :: (printYangString s ++ 59 :: 10 :: t))
        (printYangString s ++ 59 :: 10 :: t) (.ok ()) := by
      rw [hhead]
      exact (skip_space_gives hpos hspace hcomment).next (.pure ())
    rw [htext]
    refine hskip.next ((parseString_gives hlength (afterArgument_semicolon _)).next ?_)
    refine (skipWhitespace_gives (s := []) hpos rfl rfl (by simp)).next ?_
    exact (consume_gives 59).next (.pure s)
  | block children =>
    refine ⟨.error .expected, rfl, ?_⟩
    rw [writePayload]
    refine ((skip_space_gives hpos rfl (by decide)).next (.pure ())).next ?_
    refine (hempty (by decide) (by decide) _).next ?_
    refine (skipWhitespace_gives (s := []) hpos rfl rfl (by simp)).next ?_
    exact (consume_error (t := []) (by simp)).bind (g := fun _ => .error .expected) nofun

theorem semicolon_follows (hn : 0 < n) :
    Follows (textSource n).semicolon statementSource.semicolon p (32 :: writePayload indent p ++ t)
      (10 :: t) := by
  cases p with
  | empty =>
    refine ⟨.ok (), rfl, ?_⟩
    exact (skip_space_gives hn rfl (by decide)).next (consume_gives 59)
  | argument s =>
    refine ⟨.error .expected, rfl, ?_⟩
    obtain ⟨c, u, hhead, hspace, hcomment, h59, -⟩ := printYangString_head s (59 :: 10 :: t)
    have htext : 32 :: writePayload indent (.argument s) ++ t = 32 :: c :: u := by
      rw [writePayload, ← hhead]
      simp
    rw [htext]
    exact (skip_space_gives hn hspace hcomment).next (consume_error (by simpa using h59))
  | block children =>
    refine ⟨.error .expected, rfl, ?_⟩
    rw [writePayload]
    exact (skip_space_gives hn rfl (by decide)).next (consume_error (by simp))

theorem length_children : children.length ≤ (writeBody indent children).length := by
  induction children with
  | nil => exact Nat.zero_le _
  | cons c children ih =>
    rw [length_writeBody_cons, length_cons]
    omega

/-- A block that was written is read, with or without a space before it. -/
theorem block_gives (ws : Str) (hws : ws.all isSpace = true) (hindent : indent.all isSpace = true)
    (hn : (writePayload indent (.block children)).length < n)
    (hp : Payload.Valid (.block children)) (h : StepSame n step step' children) :
    Gives ((textSource n).block step st) (ws ++ (writePayload indent (.block children) ++ t))
      (10 :: t) (readStatements step' children st) := by
  cases hp with
  | block _ names _ =>
    rw [writePayload] at hn ⊢
    simp only [List.length_append] at hn
    have hcount : children.length ≤ (writeBody (indent ++ [32, 32]) children).length :=
      length_children
    have htext : ws ++ ([123, 10] ++ writeBody (indent ++ [32, 32]) children ++ indent ++
        [125, 10] ++ t) = ws ++ (123 :: ([10] ++ (writeBody (indent ++ [32, 32]) children ++
          (indent ++ 125 :: 10 :: t)))) := by
      simp
    rw [htext]
    refine (skipWhitespace_gives (by omega) hws rfl (by simp)).next ((consume_gives 123).next ?_)
    exact blockLoop_gives [10] n (by omega) (by omega) names rfl (by simp [hindent, isSpace])
      hindent h

theorem block_follows (hindent : indent.all isSpace = true)
    (hn : (writePayload indent p).length < n) (hp : p.Valid)
    (h : ∀ children, p = .block children → StepSame n step step' children) :
    Follows ((textSource n).block step st) (statementSource.block step' st) p
      (32 :: writePayload indent p ++ t) (10 :: t) := by
  cases p with
  | empty =>
    refine ⟨.error .expected, rfl, ?_⟩
    refine (skip_space_gives (by omega) rfl (by decide)).next ?_
    exact (consume_error (t := []) (by simp)).bind (g := fun _ => .error .expected) nofun
  | argument s =>
    refine ⟨.error .expected, rfl, ?_⟩
    obtain ⟨c, u, hhead, hspace, hcomment, -, h123⟩ := printYangString_head s (59 :: 10 :: t)
    have htext : 32 :: writePayload indent (.argument s) ++ t = 32 :: c :: u := by
      rw [writePayload, ← hhead]
      simp
    rw [htext]
    refine (skip_space_gives (by omega) hspace hcomment).next ?_
    have hbrace : (c :: u).head? ≠ some 123 := by simpa using h123
    exact (consume_error (t := []) hbrace).bind (g := fun _ => .error .expected) nofun
  | block children =>
    refine ⟨readStatements step' children st, ?_, block_gives [32] rfl hindent hn hp (h _ rfl)⟩
    show (readStatements step' children st >>= fun st => .ok (st, _)) = _
    cases readStatements step' children st <;> rfl

/-! ## Nodes -/

/-- A node for texts and a node for statements do the same. -/
structure Same (n : Nat) (node : Node Text) (node' : Node Payload) : Prop where
  init : node.init = node'.init
  finish : node.finish = node'.finish
  bare : node.bare = node'.bare
  resumes : node.resumes = node'.resumes
  parse : ∀ out p indent t, p.Valid → indent.all isSpace = true →
    (writePayload indent p).length < n →
    Follows (node.parse out) (node'.parse out) p (32 :: writePayload indent p ++ t) (10 :: t)

theorem find?_map_name {f : P → Q} (members : List (Member P)) (k : Str) :
    (members.map (Member.map f)).find? (·.name = k) =
      (members.find? (·.name = k)).map (Member.map f) := by
  rw [List.find?_map]
  rfl

variable {members : List (Member Grammar)} {nodes : Grammar → Node Text}
  {nodes' : Grammar → Node Payload}

section

variable (h : ∀ e ∈ members, Same n (nodes e.node) (nodes' e.node))
include h

theorem structStep_same (hp : Payload.Valid (.block children)) :
    StepSame n (structStep (members.map (Member.map nodes)))
      (structStep (members.map (Member.map nodes'))) children := by
  intro st c hc indent t hindent hn
  cases hp with
  | block _ _ valid =>
  unfold structStep
  rw [find?_map_name, find?_map_name]
  cases hfind : members.find? (·.name = c.1) with
  | none => exact (Follows.throw _).gives
  | some e =>
    have hsame := h e (mem_of_find?_eq_some hfind)
    have hparse out := hsame.parse out c.2 indent t (valid c hc) hindent hn
    simp only [Option.map_some, Member.map_choice, Member.map_node]
    cases e.choice with
    | none => exact ((hparse _).bind fun out => .pure _).gives
    | some choice =>
      have hresume out : (nodes e.node).resume out = (nodes' e.node).resume out := by
        rw [Node.resume, Node.resume, hsame.init, hsame.resumes]
      simp only [hresume]
      split_ifs with hchosen
      · exact (Gives.throw _)
      · exact ((hparse _).bind fun out => .pure _).gives

theorem structInit_same :
    structInit (members.map (Member.map nodes)) = structInit (members.map (Member.map nodes')) := by
  unfold structInit
  congr 1
  funext id
  rw [List.find?_map, List.find?_map]
  show Option.bind (Option.map _ (members.find? fun e => e.choice.isNone ∧ e.id = id)) _ =
    Option.bind (Option.map _ (members.find? fun e => e.choice.isNone ∧ e.id = id)) _
  cases hfind : members.find? fun e => e.choice.isNone ∧ e.id = id with
  | none => rfl
  | some e => exact (h e (mem_of_find?_eq_some hfind)).init

theorem finishMembers_same (st : Progress) : finishMembers (members.map (Member.map nodes)) st =
      finishMembers (members.map (Member.map nodes')) st := by
  unfold finishMembers
  rw [foldlM_map, foldlM_map]
  refine foldlM_congr (fun fields e he => ?_) _
  have hfinish : finishMember st (e.map nodes) = finishMember st (e.map nodes') := by
    have hsame := h e he
    unfold finishMember
    simp only [Member.map_choice, Member.map_node, Member.map_id, hsame.finish, hsame.bare]
  rw [hfinish]
  rfl

end

theorem scalarParser_same (env : Env) (s : Scalar) :
    Same n (scalarParser env (textSource n) s) (scalarParser env statementSource s) where
  init := rfl
  finish := rfl
  bare := rfl
  resumes := rfl
  parse out p indent t hp hindent hn := by
    unfold scalarParser
    simp only
    split_ifs with hout hempty
    · exact ⟨.error .duplicateParameter, rfl, .throw _⟩
    · refine (semicolon_follows (by omega)).map.bind fun arg => ?_
      exact (Follows.lift _).bind fun v => .pure _
    · exact (argument_follows hn).map.bind fun arg => (Follows.lift _).bind fun v => .pure _

theorem arrayParser_same (env : Env) (elementType : ArgumentType) :
    Same n (arrayParser env (textSource n) elementType)
      (arrayParser env statementSource elementType) where
  init := rfl
  finish := rfl
  bare := rfl
  resumes := rfl
  parse out p indent t hp hindent hn := by
    refine (argument_follows hn).bind fun arg => (Follows.lift _).bind fun v => ?_
    cases out with
    | none => exact .throw _
    | some out => cases out <;> first | exact .pure _ | exact .throw _

theorem structParser_same (ctype : Bool) (store : Fields → Fields)
    (h : ∀ e ∈ members, Same n (nodes e.node) (nodes' e.node)) :
    Same n (structParser (textSource n) (members.map (Member.map nodes)) ctype store)
      (structParser statementSource (members.map (Member.map nodes')) ctype store) where
  init := rfl
  finish := by
    unfold structParser
    simp only [finishMembers_same h, isEmpty_map]
  bare := rfl
  resumes := rfl
  parse out p indent t hp hindent hn := by
    unfold structParser
    simp only [structInit_same h]
    split_ifs with hout
    · exact ⟨.error .duplicateParameter, rfl, .throw _⟩
    · refine (block_follows hindent hn hp fun children hchildren => ?_).bind fun st => .pure _
      exact structStep_same h (hchildren ▸ hp)

section

variable (env : Env) (keys : List (Str × Scalar)) (values : List (Str × Grammar))
  (h : ∀ e ∈ members, Same n (nodes e.node) (nodes' e.node))
include h

theorem listParser_follows (out : Option Acc)
    (hblock : ∀ st, Follows ((textSource n).block (structStep (members.map (Member.map nodes))) st)
      (statementSource.block (structStep (members.map (Member.map nodes'))) st) p s t) :
    Follows ((listParser env (textSource n) (members.map (Member.map nodes)) keys values).parse out)
      ((listParser env statementSource (members.map (Member.map nodes')) keys values).parse out)
      p s t := by
  unfold listParser
  simp only [structInit_same h, finishMembers_same h]
  refine (hblock _).bind fun st => (Follows.lift _).bind fun entry => ?_
  cases out with
  | none => exact .throw _
  | some out =>
    cases out with
    | list given => exact (Follows.lift _).bind fun given => .pure _
    | _ => exact .throw _

theorem listParser_same :
    Same n (listParser env (textSource n) (members.map (Member.map nodes)) keys values)
      (listParser env statementSource (members.map (Member.map nodes')) keys values) where
  init := rfl
  finish := rfl
  bare := rfl
  resumes := rfl
  parse out _ _ _ hp hindent hn :=
    listParser_follows env keys values h out fun _ =>
      block_follows hindent hn hp fun _ hchildren => structStep_same h (hchildren ▸ hp)

end

theorem listMembers_induction {P : Grammar → Prop} (hscalar : ∀ s, P (.scalar s))
    {keys : List (Str × Scalar)} {values : List (Str × Grammar)}
    (h : ∀ e ∈ expand values, P e.node) : ∀ e ∈ expand (listMembers keys values), P e.node := by
  intro e he
  unfold expand listMembers at he
  rw [flatMap_append, mem_append] at he
  rcases he with he | he
  · obtain ⟨m, hm, he⟩ := mem_flatMap.mp he
    obtain ⟨key, -, rfl⟩ := mem_map.mp hm
    obtain rfl := mem_singleton.mp he
    exact hscalar _
  · exact h e he

/-- **Every node reads the text of a statement as the statement.** -/
theorem visit_same (env : Env) (n : Nat) (g : Grammar) :
    Same n (visit env (textSource n) g) (visit env statementSource g) := by
  induction g using Grammar.induction with
  | scalar s => exact scalarParser_same env s
  | array elementType => exact arrayParser_same env elementType
  | struct members ih =>
    rw [visit, visit, visitn_eq, visitn_eq]
    exact structParser_same _ _ ih
  | list keys values ih =>
    rw [visit_list, visit_list, visitn_eq, visitn_eq]
    refine listParser_same env keys values (listMembers_induction
      (P := fun g => Same n (visit env (textSource n) g) (visit env statementSource g)) ?_ ih)
    exact fun s => scalarParser_same env s
  | choice default mandatory leaves =>
    exact ⟨rfl, rfl, rfl, rfl, fun _ _ _ _ _ _ _ => ⟨.error .unsupported, rfl, .throw _⟩⟩

/-- A list at the top reads the text of a block, with no keyword before it. -/
theorem visit_list_gives (env : Env) (keys : List (Str × Scalar)) (values : List (Str × Grammar))
    (out : Option Acc) (hp : Payload.Valid (.block children))
    (hn : (writePayload [] (.block children)).length < n) :
    Gives ((visit env (textSource n) (.list keys values)).parse out)
      (writePayload [] (.block children) ++ t) (10 :: t)
      (Prod.fst <$> (visit env statementSource (.list keys values)).parse out
        (.block children)) := by
  rw [visit_list, visit_list, visitn_eq, visitn_eq]
  have hsame : ∀ e ∈ expand (listMembers keys values),
      Same n (visit env (textSource n) e.node) (visit env statementSource e.node) :=
    fun e _ => visit_same env n e.node
  refine (listParser_follows env keys values hsame out fun st => ?_).gives
  refine ⟨readStatements _ children st, ?_,
    block_gives [] rfl rfl hn hp (structStep_same hsame hp)⟩
  show (readStatements _ children st >>= fun st => .ok (st, _)) = _
  cases readStatements _ children st <;> rfl

end Yang

end Snabb
