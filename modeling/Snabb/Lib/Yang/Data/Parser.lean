import Mathlib.Data.List.Sort
import Mathlib.Logic.Function.Basic
import Snabb.Lib.Yang.Value

/-!
# The parser of configurations (`data_parser_from_grammar` of `lib/yang/data.lua`)

A grammar is visited once, and each of its nodes becomes a parser: what the table of its struct has
for it at first (`init`), how a statement is read into that (`parse`), and the data that comes of it
(`finish`). The leaves of a choice stand in the struct of the choice, and a struct keeps for each of
its choices which case was chosen.

The parsers are written over the two ways there are to read a statement (`Source`): from a text,
which is what the source does, and from a statement that is there already (`Payload`).

- `structParser`, `arrayParser`, `scalarParser`, `listParser`: the parsers of the nodes;
- `dataParser`: `data_parser_from_grammar`.

A parser is used for one text. Tables are functions from normalized names. What `add_entry` of
`lib/yang/list.lua` finds among the entries before is a parameter; grammars of RPCs are left out.
-/

namespace Snabb

open Foundation
open Function (update)

namespace Yang

/-- `normalize_id`. -/
def normalizeId (id : Str) : Str := id.map fun c => if isAlnum c || c == 95 then c else 95

/-! ## Grammars and data -/

/-- A grammar of type `scalar`. -/
structure Scalar where
  argumentType : ArgumentType
  default : Option Str
  mandatory : Bool

/-- `production`. The choices of a choice are given by their leaves, each with its case. -/
inductive Grammar where
  | scalar (scalar : Scalar)
  | array (elementType : ArgumentType)
  | struct (members : List (Str × Grammar))
  | list (keys : List (Str × Scalar)) (values : List (Str × Grammar))
  | choice (default : Option Str) (mandatory : Bool) (leaves : List (Str × Str × Grammar))

inductive Data where
  | value (v : Value)
  | array (vs : List Value)
  | struct (fields : Str → Option Data)
  | list (entries : List (Str → Option Data))

/-- The data under each normalized name. -/
abbrev Fields := Str → Option Data

/-- The addresses, and whether a list that was given some entries finds the keys of another. -/
structure Env extends Protocol where
  listed : List (Str × Scalar) → List Fields → Fields → Bool

/-- What a choice tells each of its leaves. -/
structure Choice where
  name : Str
  case : Str
  default : Option Str
  mandatory : Bool

/-- A member of a struct, or a leaf of one of its choices. -/
structure Member (P : Type) where
  name : Str
  choice : Option Choice
  node : P

def Member.id {P : Type} (e : Member P) : Str := normalizeId e.name

/-- `expanded_members`. -/
def expand (members : List (Str × Grammar)) : List (Member Grammar) :=
  members.flatMap fun
    | (k, .choice default mandatory leaves) =>
      leaves.map fun (case, name, g) => ⟨name, some ⟨k, case, default, mandatory⟩, g⟩
    | (k, g) => [⟨k, none, g⟩]

/-! ## Fields of C types -/

mutual

/-- A grammar has a `ctype`. -/
def Grammar.hasCtype : Grammar → Bool
  | .scalar s => (s.default.isSome || s.mandatory) && s.argumentType.primitive.hasCtype
  | .struct members => membersCtype members
  | _ => false

/-- `struct_ctype`. -/
def membersCtype : List (Str × Grammar) → Bool
  | [] => true
  | (_, g) :: rest => g.hasCtype && membersCtype rest

end

/-- The scalar that is kept under an id. -/
def scalarAt (members : List (Member Grammar)) (id : Str) : Option Scalar :=
  match members.find? (·.id = id) with
  | some ⟨_, _, .scalar s⟩ => some s
  | _ => none

/-- Fields as they are read from where they were stored. -/
def storeFields (store : Primitive → Value → Value) (members : List (Member Grammar))
    (fields : Fields) : Fields := fun id =>
  match fields id, scalarAt members id with
  | some (.value v), some s => some (.value (store s.argumentType.primitive v))
  | d, _ => d

/-- `struct_t` of a struct, if there is one. -/
def structStore (members : List (Str × Grammar)) (fields : Fields) : Fields :=
  if membersCtype members then storeFields Primitive.store (expand members) fields else fields

/-- The members of the entries of a list. -/
def listMembers (keys : List (Str × Scalar)) (values : List (Str × Grammar)) :
    List (Str × Grammar) :=
  keys.map (fun (k, s) => (k, .scalar s)) ++ values

mutual

/-- The ids that are not optional in a list. -/
def required (name : Str) : Grammar → List Str
  | .scalar s => if s.default.isSome || s.mandatory then [normalizeId name] else []
  | .struct members => if membersCtype members then [normalizeId name] else []
  | .choice _ _ leaves => requiredLeaves leaves
  | _ => []

def requiredLeaves : List (Str × Str × Grammar) → List Str
  | [] => []
  | (_, name, g) :: rest => required name g ++ requiredLeaves rest

end

/-- An entry has what the list asks for. -/
def entryComplete (keys : List (Str × Scalar)) (values : List (Str × Grammar)) (entry : Fields) :
    Bool :=
  (keys.map (normalizeId ·.1) ++ values.flatMap fun (k, g) => required k g).all fun id =>
    (entry id).isSome

/-- `alloc_str` has room for the strings of an entry: a string is kept behind its length of two
bytes, and `Heap:allocate` gives at most a block of 8192 bytes. -/
def stringsFit (keys : List (Str × Scalar)) (values : List (Str × Grammar)) (entry : Fields) :
    Bool :=
  (expand (listMembers keys values)).all fun e =>
    match entry e.id with
    | some (.value (.string s)) => 2 + s.length ≤ 64 * 128
    | _ => true

/-- `assoc:add`. -/
def addEntry (env : Env) (keys : List (Str × Scalar)) (values : List (Str × Grammar))
    (given : List Fields) (entry : Fields) : Except ParseError (List Fields) :=
  if env.listed keys given entry then .error .duplicateEntry
  else if entryComplete keys values entry then
    if stringsFit keys values entry then .ok (given ++ [entry]) else .error .stringTooLong
  else .error .missingValue

/-! ## Sources -/

/-- What the table of a struct has for a member before it is finished. -/
inductive Acc where
  | value (v : Value)
  | array (vs : List Value)
  | struct (ret : Str → Option Acc) (chosen : Str → Option Str)
  | list (given : List Fields)

/-- `ret` of a struct, and for each of its choices the case that was chosen. -/
structure Progress where
  ret : Str → Option Acc
  chosen : Str → Option Str

/-- How a statement is read. -/
structure Source (σ : Type) where
  argument : StateT σ (Except ParseError) Str
  semicolon : StateT σ (Except ParseError) Unit
  block : (Progress → Str → StateT σ (Except ParseError) Progress) → Progress →
    StateT σ (Except ParseError) Progress

/-- The loop of `parse1` of `struct_parser`. -/
def blockLoop (n : Nat) (step : Progress → Str → Read Progress) : Nat → Progress → Read Progress
  | 0, _ => throw .rounds
  | m + 1, st => do
    if ← check 125 then return st
    else
      let k ← parseIdentifier n
      let st ← step st k
      let _ ← skipWhitespace n
      blockLoop n step m st

/-- Statements of a text. -/
def textSource (n : Nat) : Source Text where
  argument := do
    consumeWhitespace n
    let s ← parseString n
    let _ ← skipWhitespace n
    consume 59
    return s
  semicolon := do
    let _ ← skipWhitespace n
    consume 59
  block step st := do
    let _ ← skipWhitespace n
    consume 123
    let _ ← skipWhitespace n
    blockLoop n step n st

/-- What stands behind the keyword of a statement. -/
inductive Payload where
  | empty
  | argument (s : Str)
  | block (children : List (Str × Payload))

/-- Statements that are there already. -/
def statementSource : Source Payload where
  argument p :=
    match p with
    | .empty => .ok ([], p)
    | .argument s => .ok (s, p)
    | .block _ => .error .expected
  semicolon p :=
    match p with
    | .empty => .ok ((), p)
    | _ => .error .expected
  block step st p :=
    match p with
    | .block children => do
      let st ← children.foldlM (fun st (k, child) => Prod.fst <$> step st k child) st
      return (st, p)
    | _ => .error .expected

/-! ## Nodes -/

/-- A parser of a node. `bare` is `finish()` where `init` was not called, and `resumes` tells that
`init` makes a table to which each statement adds.

The source makes one parser of a node for all entries of a list. A struct in a default case is
`bare` here in each entry that does not name it; there it is so only up to the first entry that
does, and from then on finishes with the members that this one left behind. -/
structure Node (σ : Type) where
  init : Option Acc
  parse : Option Acc → StateT σ (Except ParseError) Acc
  finish : Option Acc → Except ParseError (Option Data)
  bare : Except ParseError (Option Data)
  resumes : Bool

variable {σ : Type}

/-- `finish` of a scalar for which nothing was read. -/
def Scalar.absent (s : Scalar) (env : Env) : Except ParseError (Option Data) :=
  match s.default with
  | some default => do
    let v ← s.argumentType.parse env.toProtocol (some default)
    return some (.value v)
  | none => if s.mandatory then .error .missingValue else .ok none

/-- `scalar_parser`. -/
def scalarParser (env : Env) (src : Source σ) (s : Scalar) : Node σ where
  init := none
  parse out := do
    if out.isSome then throw .duplicateParameter
    else
      let arg ←
        if s.argumentType.primitive = .empty then (fun _ => none) <$> src.semicolon
        else some <$> src.argument
      let v ← StateT.lift (s.argumentType.parse env.toProtocol arg)
      return .value v
  finish
    | some (.value v) => .ok (some (.value v))
    | some _ => .error .unsupported
    | none => s.absent env
  bare := s.absent env
  resumes := false

/-- `array_parser`. -/
def arrayParser (env : Env) (src : Source σ) (elementType : ArgumentType) : Node σ where
  init := some (.array [])
  parse out := do
    let arg ← src.argument
    let v ← StateT.lift (elementType.parse env.toProtocol (some arg))
    match out with
    | some (.array vs) => return .array (vs ++ [v])
    | _ => throw .unsupported
  finish
    | some (.array vs) => .ok (some (.array vs))
    | some _ => .error .unsupported
    | none => .ok none
  bare := .ok none
  resumes := true

/-- What `parse` of a leaf of a choice gets: `inits` has but tables. -/
def Node.resume (node : Node σ) (out : Option Acc) : Option Acc :=
  (if node.resumes then out else none).or node.init

/-- A statement of a struct, for a member or by `parse` of `choice_parser`. -/
def structStep (members : List (Member (Node σ))) (st : Progress) (k : Str) :
    StateT σ (Except ParseError) Progress :=
  match members.find? (·.name = k) with
  | none => throw .unrecognizedParameter
  | some e =>
    match e.choice with
    | none => do
      let out ← e.node.parse (st.ret e.id)
      return { st with ret := update st.ret e.id (some out) }
    | some c => do
      if st.chosen c.name ≠ none ∧ st.chosen c.name ≠ some c.case then throw .oneChoiceSet
      else
        let out ← e.node.parse (e.node.resume (st.ret e.id))
        return ⟨update st.ret e.id (some out),
          update st.chosen c.name (some c.case)⟩

/-- `init` of `struct_parser`. -/
def structInit (members : List (Member (Node σ))) : Progress where
  ret id := (members.find? fun e => e.choice.isNone ∧ e.id = id).bind (·.node.init)
  chosen _ := none

/-- `finish` of a member, or of `choice_parser`. -/
def finishMember (st : Progress) (e : Member (Node σ)) : Except ParseError (Option Data) :=
  match e.choice with
  | none => e.node.finish (st.ret e.id)
  | some c =>
    match st.ret e.id with
    | some out => e.node.finish (some out)
    | none =>
      if c.mandatory = true ∧ st.chosen c.name = none then .error .missingValue
      else if c.default = some c.case then e.node.bare
      else .ok none

/-- The loop of `finish` of `struct_parser`. -/
def finishMembers (members : List (Member (Node σ))) (st : Progress) :
    Except ParseError Fields :=
  members.foldlM (fun fields e => do
    let d ← finishMember st e
    return update fields e.id d) fun _ => none

/-- `struct_parser`, with what its C type makes of the fields. -/
def structParser (src : Source σ) (members : List (Member (Node σ))) (ctype : Bool)
    (store : Fields → Fields) : Node σ where
  init := none
  parse out := do
    if out.isSome then throw .duplicateParameter
    else
      let st ← src.block (structStep members) (structInit members)
      return .struct st.ret st.chosen
  finish
    | some (.struct ret chosen) => do
      let fields ← finishMembers members ⟨ret, chosen⟩
      return some (.struct (store fields))
    | some _ => .error .unsupported
    -- Without members the table stays nil, which no C type takes.
    | none =>
      if members.isEmpty then if ctype then .error .unsupported else .ok none
      else do
        let fields ← finishMembers members ⟨fun _ => none, fun _ => none⟩
        return some (.struct (store fields))
  bare := .error .unsupported
  resumes := false

/-- `list_parser`. -/
def listParser (env : Env) (src : Source σ) (members : List (Member (Node σ)))
    (keys : List (Str × Scalar)) (values : List (Str × Grammar)) : Node σ where
  init := some (.list [])
  parse out := do
    let st ← src.block (structStep members) (structInit members)
    let entry ← StateT.lift (finishMembers members st)
    match out with
    | some (.list given) => return .list (← StateT.lift (addEntry env keys values given entry))
    | _ => throw .unsupported
  finish
    | some (.list given) =>
      .ok (some (.list (given.map (storeFields Primitive.store (expand (listMembers keys values))))))
    | some _ => .error .unsupported
    | none => .ok none
  bare := .ok none
  resumes := true

/-- A choice that is a leaf of a choice: its parser has neither `init` nor `finish`. -/
def choiceLeaf : Node σ where
  init := none
  parse _ := throw .unsupported
  finish _ := .error .unsupported
  bare := .error .unsupported
  resumes := false

mutual

/-- `visit1`. -/
def visit (env : Env) (src : Source σ) : Grammar → Node σ
  | .scalar s => scalarParser env src s
  | .array elementType => arrayParser env src elementType
  | .struct members =>
    structParser src (visitn env src members) (membersCtype members) (structStore members)
  | .list keys values =>
    let keyNodes := keys.map fun (k, s) => ⟨k, none, scalarParser env src s⟩
    listParser env src (keyNodes ++ visitn env src values) keys values
  | .choice _ _ _ => choiceLeaf

/-- `visitn`, and the leaves of the choices in place of these. -/
def visitn (env : Env) (src : Source σ) : List (Str × Grammar) → List (Member (Node σ))
  | [] => []
  | (k, .choice default mandatory leaves) :: rest =>
    visitLeaves env src k default mandatory leaves ++ visitn env src rest
  | (k, g) :: rest => ⟨k, none, visit env src g⟩ :: visitn env src rest

def visitLeaves (env : Env) (src : Source σ) (k : Str) (default : Option Str) (mandatory : Bool) :
    List (Str × Str × Grammar) → List (Member (Node σ))
  | [] => []
  | (case, name, g) :: rest =>
    ⟨name, some ⟨k, case, default, mandatory⟩, visit env src g⟩ ::
      visitLeaves env src k default mandatory rest

end

/-! ## Texts -/

/-- The loop of a top-level struct. -/
def topLoop (n : Nat) (step : Progress → Str → Read Progress) : Nat → Progress → Read Progress
  | 0, _ => throw .rounds
  | m + 1, st => do
    let _ ← skipWhitespace n
    if ← isEof then return st
    else
      let k ← parseIdentifier n
      let st ← step st k
      topLoop n step m st

/-- The loop of a top-level array or list. -/
def bareLoop (n : Nat) (node : Node Text) : Nat → Option Acc → Read (Option Acc)
  | 0, _ => throw .rounds
  | m + 1, out => do
    let _ ← skipWhitespace n
    if ← isEof then return out
    else
      let out ← node.parse out
      bareLoop n node m (some out)

/-- The parser of a top-level scalar. -/
def topScalar (n : Nat) : Read Str := do
  let _ ← skipWhitespace n
  let s ← parseString n
  let _ ← skipWhitespace n
  if ← isEof then return s else throw .expected

/-- `data_parser_from_grammar`, of which `none` is nil. -/
def dataParser (env : Env) (n : Nat) (production : Grammar) (text : Str) :
    Except ParseError (Option Data) :=
  match production with
  | .struct members => do
    let nodes := visitn env (textSource n) members
    let (st, _) ← topLoop n (structStep nodes) n (structInit nodes) ⟨text, 0⟩
    let fields ← finishMembers nodes st
    return some (.struct (structStore members fields))
  | .scalar s => do
    let (arg, _) ← topScalar n ⟨text, 0⟩
    let v ← s.argumentType.parse env.toProtocol (some arg)
    return some (.value v)
  | .choice _ _ _ => .error .unsupported
  | g => do
    let node := visit env (textSource n) g
    let (out, _) ← bareLoop n node n node.init ⟨text, 0⟩
    node.finish out

end Yang

end Snabb
