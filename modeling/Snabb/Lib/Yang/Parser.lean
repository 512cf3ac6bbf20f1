import Snabb.Foundation.Run
import Mathlib.Data.List.TakeWhile

/-!
# The YANG parser (`lib/yang/parser.lua`)

A parser has the text that is still to be read, whose first byte is `peek_char`, and the column,
which tells how much of the indentation of a quoted line is left out. Lines and locations are left
out: they only stand in messages.

Every loop that does not go over the text byte by byte makes at most `n` rounds, and raises
`.rounds` when these are used up.
-/

namespace Snabb

open Foundation

namespace Yang

/-- The bytes of a Lua string. -/
abbrev Str := List UInt8

/-- The bytes of a text. -/
def str (s : String) : Str := s.toList.map fun c => UInt8.ofNat c.toNat

inductive ParseError where
  | rounds
  | expected
  | missingWhitespace
  | invalidIdentifier
  | unrecognizedParameter
  | duplicateParameter
  | oneChoiceSet
  | missingValue
  | invalidValue
  | outOfRange
  | duplicateEntry
  | stringTooLong
  | unsupported
deriving DecidableEq, Repr

/-- `Parser`. -/
structure Text where
  rest : Str
  column : Nat
deriving DecidableEq, Repr

abbrev Read := StateT Text (Except ParseError)

/-! ## Characters -/

/-- `%s`. -/
def isSpace (c : UInt8) : Bool := c == 32 || (9 ≤ c && c ≤ 13)

/-- `%a`. -/
def isAlpha (c : UInt8) : Bool := (65 ≤ c && c ≤ 90) || (97 ≤ c && c ≤ 122)

/-- `%w`. -/
def isAlnum (c : UInt8) : Bool := isAlpha c || (48 ≤ c && c ≤ 57)

/-- `[^%s;{}"'/]`. -/
def isPlain (c : UInt8) : Bool :=
  !(isSpace c || c == 59 || c == 123 || c == 125 || c == 34 || c == 39 || c == 47)

/-- How a byte moves the column. -/
def advance (column : Nat) (c : UInt8) : Nat :=
  if c = 10 then 0 else if c = 9 then 8 * ((column + 8) / 8) else column + 1

/-- `next`. -/
def Text.next (t : Text) : Text :=
  match t.rest with
  | [] => t
  | c :: rest => ⟨rest, advance t.column c⟩

/-- `check` of a byte. -/
def check (c : UInt8) : Read Bool := fun t =>
  if t.rest.head? = some c then .ok (true, t.next) else .ok (false, t)

/-- `is_eof`. -/
def isEof : Read Bool := fun t => .ok (t.rest.isEmpty, t)

def column : Read Nat := fun t => .ok (t.column, t)

/-- `consume` of a byte. -/
def consume (c : UInt8) : Read Unit := do
  if ← check c then return () else throw .expected

/-- `take_while`. -/
def takeWhile (p : UInt8 → Bool) : Read Str := fun t =>
  .ok (t.rest.takeWhile p, ⟨t.rest.dropWhile p, (t.rest.takeWhile p).foldl advance t.column⟩)

/-- `skip_c_comment`. -/
def skipCComment : Nat → Read Unit
  | 0 => throw .rounds
  | n + 1 => do
    let _ ← takeWhile (· ≠ 42)
    consume 42
    if ← check 47 then return () else skipCComment n

/-- The comments of `skip_whitespace`, each with the whitespace behind it. -/
def skipComments (n : Nat) : Nat → Bool → Read Bool
  | 0, _ => throw .rounds
  | m + 1, result => do
    if ← check 47 then
      if ← check 42 then skipCComment n
      else
        consume 47
        let _ ← takeWhile (· ≠ 10)
      let _ ← takeWhile isSpace
      skipComments n m true
    else return result

/-- `skip_whitespace`. -/
def skipWhitespace (n : Nat) : Read Bool := do
  let space ← takeWhile isSpace
  skipComments n n (!space.isEmpty)

/-- `consume_whitespace`. -/
def consumeWhitespace (n : Nat) : Read Unit := do
  if ← skipWhitespace n then return () else throw .missingWhitespace

/-! ## Strings -/

/-- The indentation of a quoted line, up to where the string started. -/
def skipIndentation (start : Nat) : Str → Nat → Text
  | [], column => ⟨[], column⟩
  | c :: rest, column =>
    if column < start ∧ (c = 32 ∨ c = 9) then skipIndentation start rest (advance column c)
    else ⟨c :: rest, column⟩

/-- The bytes at which a quoted string is looked at more closely. -/
def isTerminator (quote c : UInt8) : Bool := c == 10 || c == quote || (quote == 34 && c == 92)

/-- What stands behind a backslash. -/
def escaped : Read UInt8 := do
  if ← check 110 then return 10
  else if ← check 116 then return 9
  else if ← check 34 then return 34
  else if ← check 92 then return 92
  else return 92

/-- The loop of `parse_qstring`. -/
def qstringLoop (quote : UInt8) (start : Nat) : Nat → Str → Read Str
  | 0, _ => throw .rounds
  | n + 1, result => do
    let part ← takeWhile fun c => !isTerminator quote c
    if ← check quote then return result ++ part
    else if ← check 10 then
      modify fun t => skipIndentation start t.rest t.column
      let indented ← column
      qstringLoop quote start n (result ++ part ++ 10 :: List.replicate (indented - start) 32)
    else if ← check 92 then
      let c ← escaped
      qstringLoop quote start n (result ++ part ++ [c])
    else qstringLoop quote start n (result ++ part)

/-- `parse_qstring`; a string that goes on behind a `+` is one round. -/
def parseQstring (n : Nat) : Nat → UInt8 → Read Str
  | 0, _ => throw .rounds
  | m + 1, quote => do
    let start ← column
    let result ← qstringLoop quote start n []
    let _ ← check quote
    let _ ← skipWhitespace n
    if ← check 43 then
      let _ ← skipWhitespace n
      if ← check 39 then return result ++ (← parseQstring n m 39)
      else if ← check 34 then return result ++ (← parseQstring n m 34)
      else throw .expected
    else return result

/-- `check_pattern` of `isPlain`. -/
def atPlain : Read Bool := fun t => .ok (t.rest.head?.any isPlain, t)

/-- `peek_n(2)` is the beginning of a comment. -/
def atComment : Read Bool := fun t =>
  .ok (t.rest.take 2 == [47, 42] || t.rest.take 2 == [47, 47], t)

/-- A string without quotes. -/
def plainString : Nat → Str → Read Str
  | 0, _ => throw .rounds
  | n + 1, ret => do
    let part ← takeWhile isPlain
    if ← isEof then return ret ++ part
    else if ← atComment then return ret ++ part
    else
      let slash := if ← check 47 then [47] else []
      if ← atPlain then plainString n (ret ++ part ++ slash) else return ret ++ part ++ slash

/-- `parse_string`. -/
def parseString (n : Nat) : Read Str := do
  if ← check 39 then parseQstring n n 39
  else if ← check 34 then parseQstring n n 34
  else plainString n []

/-- `[%w_.-]`. -/
def isIdentifierByte (c : UInt8) : Bool := isAlnum c || c == 95 || c == 46 || c == 45

/-- `^[%a_][%w_.-]*$`. -/
def isIdentifier : Str → Bool
  | [] => false
  | c :: rest => (isAlpha c || c == 95) && rest.all isIdentifierByte

/-- `parse_identifier`. -/
def parseIdentifier (n : Nat) : Read Str := do
  let id ← parseString n
  if isIdentifier id then return id else throw .invalidIdentifier

end Yang

end Snabb
