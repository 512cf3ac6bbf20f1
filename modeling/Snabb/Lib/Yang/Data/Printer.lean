import Snabb.Lib.Yang.Data.Parser

/-!
# The printer of configurations (`data_printer_from_grammar` of `lib/yang/data.lua`)

A printer of a node makes the statements of its data, each without its keyword (`Payload`); the
keyword and the indentation are written with the statement (`writeBody`). A choice is printed by its
leaves, which stand among the members of the struct. A scalar that is printed as its default is left
out, unless `print_default` is asked for.

- `printMember`: the printers of the nodes;
- `dataPrinter`: `data_printer_from_grammar`.
-/

namespace Snabb

namespace Yang

/-! ## Texts of statements -/

/-- The bytes that are written for a byte between quotes. -/
def quoteByte (c : UInt8) : Str :=
  if c = 10 then [92, 110]
  else if c = 9 then [92, 116]
  else if c = 34 ∨ c = 92 then [92, c]
  else [c]

/-- `print_yang_string`. -/
def printYangString (s : Str) : Str :=
  if s = [] then [39, 39]
  else if s.all isPlain then s
  else 34 :: s.flatMap quoteByte ++ [34]

mutual

/-- A statement behind its keyword. -/
def writePayload (indent : Str) : Payload → Str
  | .empty => [59, 10]
  | .argument s => printYangString s ++ [59, 10]
  | .block children => [123, 10] ++ writeBody (indent ++ [32, 32]) children ++ indent ++ [125, 10]

/-- Statements with their keywords, by `print_keyword`. -/
def writeBody (indent : Str) : List (Str × Payload) → Str
  | [] => []
  | (k, p) :: rest =>
    indent ++ printYangString k ++ [32] ++ writePayload indent p ++ writeBody indent rest

end

/-! ## Printers -/

/-- The statements that are printed for data, if it is of the grammar. -/
abbrev Printer := Data → Option (List Payload)

/-- A value is printed, unless it is printed as the default. -/
def Scalar.omits (s : Scalar) (printDefault : Bool) (text : Str) : Bool :=
  !printDefault && some text == s.default

/-- `handlers.scalar`. -/
def scalarPrinter (protocol : Protocol) (printDefault : Bool) (s : Scalar) : Printer
  | .value v => do
    let text ← s.argumentType.primitive.tostring protocol v
    if s.omits printDefault text then some [] else some [.argument text]
  | _ => none

/-- `handlers.array`. -/
def arrayPrinter (protocol : Protocol) (elementType : ArgumentType) : Printer
  | .array vs => vs.mapM fun v => .argument <$> elementType.primitive.tostring protocol v
  | _ => none

/-- The members in the order in which they are printed. -/
def printOrder {P : Type} (members : List (Member P)) : List (Member P) :=
  members.insertionSort fun e e' => e.name ≤ e'.name

/-- `body_printer`. -/
def bodyPrinter (members : List (Member Printer)) (fields : Fields) :
    Option (List (Str × Payload)) := do
  let statements ← (printOrder members).mapM fun e =>
    match fields e.id with
    | none => some []
    | some d => do
      let ps ← e.node d
      some (ps.map fun p => (e.name, p))
  some statements.flatten

/-- `handlers.struct`. -/
def structPrinter (members : List (Member Printer)) : Printer
  | .struct fields => do
    let children ← bodyPrinter members fields
    some [.block children]
  | _ => none

/-- `handlers.list`. -/
def listPrinter (keys values : List (Member Printer)) : Printer
  | .list entries => entries.mapM fun entry => do
    let keyStatements ← bodyPrinter keys entry
    let valueStatements ← bodyPrinter values entry
    some (.block (keyStatements ++ valueStatements))
  | _ => none

mutual

/-- `printer` of a node. There is no handler of choices: none is made for a choice in a case. -/
def printMember (protocol : Protocol) (printDefault : Bool) : Grammar → Option Printer
  | .scalar s => some (scalarPrinter protocol printDefault s)
  | .array elementType => some (arrayPrinter protocol elementType)
  | .struct members => structPrinter <$> printMembers protocol printDefault members
  | .list keys values =>
    listPrinter (keys.map fun (k, s) => ⟨k, none, scalarPrinter protocol printDefault s⟩) <$>
      printMembers protocol printDefault values
  | .choice _ _ _ => none

/-- The printers of `body_printer`, with the leaves of the choices in place of these. -/
def printMembers (protocol : Protocol) (printDefault : Bool) :
    List (Str × Grammar) → Option (List (Member Printer))
  | [] => some []
  | (k, .choice default mandatory leaves) :: rest => do
    let printers ← printLeaves protocol printDefault k default mandatory leaves
    let others ← printMembers protocol printDefault rest
    some (printers ++ others)
  | (k, g) :: rest => do
    let printer ← printMember protocol printDefault g
    let others ← printMembers protocol printDefault rest
    some (⟨k, none, printer⟩ :: others)

def printLeaves (protocol : Protocol) (printDefault : Bool) (k : Str) (default : Option Str)
    (mandatory : Bool) : List (Str × Str × Grammar) → Option (List (Member Printer))
  | [] => some []
  | (case, name, g) :: rest => do
    let printer ← printMember protocol printDefault g
    let others ← printLeaves protocol printDefault k default mandatory rest
    some (⟨name, some ⟨k, case, default, mandatory⟩, printer⟩ :: others)

end

/-- `data_printer_from_grammar`: what is written to the file, if the data is of the grammar. -/
def dataPrinter (protocol : Protocol) (printDefault : Bool) :
    Grammar → Option (Data → Option Str)
  | .struct members => do
    let printers ← printMembers protocol printDefault members
    some fun
      | .struct fields => writeBody [] <$> bodyPrinter printers fields
      | _ => none
  | .list keys values => do
    let printer ← printMember protocol printDefault (.list keys values)
    some fun d => (fun ps => ps.flatMap (writePayload [])) <$> printer d
  | .array elementType =>
    some fun
      | .array vs => do
        let texts ← vs.mapM (elementType.primitive.tostring protocol)
        some (texts.flatMap fun text => printYangString text ++ [10])
      | _ => none
  | .scalar s =>
    some fun
      | .value v => printYangString <$> s.argumentType.primitive.tostring protocol v
      | _ => none
  | .choice _ _ _ => none

end Yang

end Snabb
