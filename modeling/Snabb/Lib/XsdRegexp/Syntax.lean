import Mathlib.Computability.Language

/-!
# Regular expressions of XML Schema (`lib/xsd_regexp.lua`: the parser rules)

The syntax is that of Appendix G of the specification. `parse` reads an expression as the program
does, rule by rule, where the first alternative that fits is taken. The language of an expression is
what the appendix gives it, with the categories of characters as the table `GC` has them.

In the program `.` and `\.` are both a table with the field `escape`. Here they are kept apart,
since they do not mean the same.
-/

namespace Snabb

namespace XsdRegexp

/-! ## General categories (`GC`) -/

namespace GC

def emptyCategory (_ : Nat) : Bool := false

def Lu (c : Nat) : Bool := 65 ≤ c && c ≤ 90

def Ll (c : Nat) : Bool := 97 ≤ c && c ≤ 122

def L (c : Nat) : Bool := Lu c || Ll c

def Nd (c : Nat) : Bool := 48 ≤ c && c ≤ 57

def N (c : Nat) : Bool := Nd c

def Pc (c : Nat) : Bool := c == 95

def Pd (c : Nat) : Bool := c == 45

def Ps (c : Nat) : Bool := c == 40 || c == 91 || c == 123

def Pe (c : Nat) : Bool := c == 41 || c == 93 || c == 125

def Po (c : Nat) : Bool :=
  (33 ≤ c && c ≤ 35) || (37 ≤ c && c ≤ 39) || c == 42 || c == 44 || (46 ≤ c && c ≤ 47) ||
    (58 ≤ c && c ≤ 59) || (63 ≤ c && c ≤ 64) || c == 92

def P (c : Nat) : Bool := Pc c || Pd c || Ps c || Pe c || Po c

def Sm (c : Nat) : Bool := c == 43 || (60 ≤ c && c ≤ 62) || c == 124 || c == 126

def Sc (c : Nat) : Bool := c == 36

def Sk (c : Nat) : Bool := c == 94 || c == 96

def S (c : Nat) : Bool := Sm c || Sc c

def Zs (c : Nat) : Bool := c == 32

def Z (c : Nat) : Bool := Zs c

def Cc (c : Nat) : Bool := c ≤ 31

def C (c : Nat) : Bool := Cc c

/-- The predicate of a category. -/
def find (name : List Char) : Option (Nat → Bool) :=
  match name with
  | ['L', 'u'] => some Lu
  | ['L', 'l'] => some Ll
  | ['L', 't'] => some emptyCategory
  | ['L', 'm'] => some emptyCategory
  | ['L', 'o'] => some emptyCategory
  | ['L'] => some L
  | ['M', 'n'] => some emptyCategory
  | ['M', 'c'] => some emptyCategory
  | ['M', 'e'] => some emptyCategory
  | ['M'] => some emptyCategory
  | ['N', 'd'] => some Nd
  | ['N', 'l'] => some emptyCategory
  | ['N', 'o'] => some emptyCategory
  | ['N'] => some N
  | ['P', 'c'] => some Pc
  | ['P', 'd'] => some Pd
  | ['P', 's'] => some Ps
  | ['P', 'e'] => some Pe
  | ['P', 'i'] => some emptyCategory
  | ['P', 'f'] => some emptyCategory
  | ['P', 'o'] => some Po
  | ['P'] => some P
  | ['S', 'm'] => some Sm
  | ['S', 'c'] => some Sc
  | ['S', 'k'] => some Sk
  | ['S', 'o'] => some emptyCategory
  | ['S'] => some S
  | ['Z', 's'] => some Zs
  | ['Z', 'l'] => some emptyCategory
  | ['Z', 'p'] => some emptyCategory
  | ['Z'] => some Z
  | ['C', 'c'] => some Cc
  | ['C', 'f'] => some emptyCategory
  | ['C', 's'] => some emptyCategory
  | ['C', 'o'] => some emptyCategory
  | ['C', 'n'] => some emptyCategory
  | ['C'] => some C
  | _ => none

end GC

/-! ## Syntax trees -/

/-- The characters of `is_SingleCharEsc`. -/
def singleEscapes : List Char :=
  ['n', 'r', 't', '\\', '|', '.', '?', '*', '+', '(', ')', '{', '}', '-', '[', ']', '^']

/-- The characters of `is_multiCharEsc`. -/
def multiEscapes : List Char := ['s', 'S', 'i', 'I', 'c', 'C', 'd', 'D', 'w', 'W']

/-- A single character, as it is or escaped. -/
inductive SingleChar where
  | char (c : Char)
  | escape (c : Char) (mem : c ∈ singleEscapes)
deriving DecidableEq

/-- What stands for some characters. -/
inductive CharPart where
  | single (c : SingleChar)
  | multi (c : Char) (mem : c ∈ multiEscapes)
  | property (name : List Char)
  | complement (name : List Char)
  | range (start stop : SingleChar)
deriving DecidableEq

/-- The parts of a class, or those that it excludes. -/
inductive CharGroup where
  | include (parts : List CharPart)
  | exclude (parts : List CharPart)
deriving DecidableEq

/-- A class, with the class that is subtracted from it. -/
inductive CharClass where
  | group (g : CharGroup)
  | subtract (g : CharGroup) (c : CharClass)
deriving DecidableEq

/-- How often an atom may come. -/
inductive Quantifier where
  | optional
  | all
  | oneOrMore
  | exactly (n : Nat)
  | min (n : Nat)
  | range (n m : Nat)
deriving DecidableEq, Repr

mutual

/-- A character, a class or an expression in brackets. -/
inductive Atom where
  | part (p : CharPart)
  | wildcard
  | cls (c : CharClass)
  | sub (re : RegExp)

/-- An atom, and how often it may come. -/
inductive Piece where
  | mk (atom : Atom) (quantifier : Option Quantifier)

/-- Pieces, one after the other. -/
inductive Branch where
  | empty
  | cons (piece : Piece) (rest : Branch)

/-- Branches, separated by bars. -/
inductive RegExp where
  | branch (b : Branch)
  | or (b : Branch) (re : RegExp)

end

/-- The branch with these pieces, as `combine.any` gives them. -/
def Branch.ofList (pieces : List Piece) : Branch := pieces.foldr .cons .empty

/-- The first branch and those behind the bars. -/
def RegExp.ofList (b : Branch) : List Branch → RegExp
  | [] => .branch b
  | b' :: bs => .or b (RegExp.ofList b' bs)

/-! ## Parser rules -/

/-- A rule gives a value and what is left of the input. -/
abbrev Rule (α : Type) := StateT (List Char) Option α

namespace Rule

variable {α β : Type}

/-- `capture.element`. -/
def element : Rule Char
  | [] => none
  | c :: rest => some (c, rest)

/-- `match.satisfies`, with the character. -/
def satisfies (test : Char → Bool) : Rule Char := do
  let c ← element
  if test c then pure c else failure

/-- `match.equal`. -/
def equal (x : Char) : Rule Char := satisfies fun y => x == y

/-- `match._not`. -/
def not (p : Rule α) : Rule Char := fun s => if (p s).isSome then none else element s

/-- `combine.diff` of two rules. -/
def diff (p : Rule α) (q : Rule β) : Rule α := fun s => if (q s).isSome then none else p s

/-- `combine.maybe`. -/
def maybe (p : Rule α) : Rule (Option α) := (some <$> p) <|> pure none

/-- The loop of `combine.any`, for as many rounds as there are characters. -/
def anyRounds (p : Rule α) : Nat → List Char → List α × List Char
  | 0, s => ([], s)
  | k + 1, s =>
    match p s with
    | none => ([], s)
    | some (a, rest) => ((a :: (anyRounds p k rest).1), (anyRounds p k rest).2)

/-- `combine.any`. -/
def any (p : Rule α) : Rule (List α) := fun s => some (anyRounds p s.length s)

/-- `combine.some`. -/
def some (p : Rule α) : Rule (List α) := fun s => if (p s).isSome then any p s else none

end Rule

open Rule hiding some

/-- `capture.quantExact`: a decimal number. -/
def quantExact : Rule Nat := do
  let digits ← Rule.some (satisfies fun c => c ∈ ['0', '1', '2', '3', '4', '5', '6', '7', '8', '9'])
  pure (digits.foldl (fun n d => 10 * n + (d.toNat - 48)) 0)

/-- `capture.quantMin`: `n,`. -/
def quantMin : Rule Quantifier := do
  let min ← quantExact
  let _ ← equal ','
  pure (.min min)

/-- `capture.quantRange`: `n,m`. -/
def quantRange : Rule Quantifier := do
  let min ← quantExact
  let _ ← equal ','
  let max ← quantExact
  pure (.range min max)

/-- `capture.quantity`. The number alone comes last, as it is a start of the others. -/
def quantity : Rule Quantifier := quantRange <|> quantMin <|> (Quantifier.exactly <$> quantExact)

/-- `capture.quantifier`. -/
def quantifier : Rule Quantifier :=
  (do let _ ← equal '?'; pure .optional) <|> (do let _ ← equal '*'; pure .all) <|>
    (do let _ ← equal '+'; pure .oneOrMore) <|>
    (do
      let _ ← equal '{'
      let quantity ← quantity
      let _ ← equal '}'
      pure quantity)

/-- `match.NormalChar`. -/
def normalChar : Rule Char :=
  Rule.not (satisfies fun c => c ∈ ['.', '\\', '?', '*', '+', '{', '}', '(', ')', '|', '[', ']'])

/-- `capture.SingleCharEsc`: a backslash and the character. -/
def singleCharEsc : Rule SingleChar := do
  let _ ← equal '\\'
  let c ← element
  if h : c ∈ singleEscapes then pure (.escape c h) else failure

/-- `capture.singleCharNoEsc`; the hyphen in front of a class that is subtracted is left. -/
def singleCharNoEsc : Rule SingleChar :=
  diff (SingleChar.char <$> satisfies fun c => c ∉ ['[', ']']) (do let _ ← equal '-'; equal '[')

/-- `capture.singleChar`. -/
def singleChar : Rule SingleChar := singleCharEsc <|> singleCharNoEsc

/-- `capture.charProp`: the name of a category. -/
def charProp : Rule (List Char) :=
  Rule.some (satisfies fun c => c == '-' || GC.Nd c.toNat || GC.L c.toNat)

/-- `capture.catEsc`: `\\p` and a name in braces. -/
def catEsc : Rule CharPart := do
  let _ ← equal '\\'
  let _ ← equal 'p'
  let _ ← equal '{'
  let name ← charProp
  let _ ← equal '}'
  pure (.property name)

/-- `capture.complEsc`: `\\P` and a name in braces. -/
def complEsc : Rule CharPart := do
  let _ ← equal '\\'
  let _ ← equal 'P'
  let _ ← equal '{'
  let name ← charProp
  let _ ← equal '}'
  pure (.complement name)

/-- `capture.MultiCharEsc`. -/
def multiCharEsc : Rule CharPart := do
  let _ ← equal '\\'
  let c ← element
  if h : c ∈ multiEscapes then pure (.multi c h) else failure

/-- `capture.charClassEsc`. -/
def charClassEsc : Rule CharPart := multiCharEsc <|> catEsc <|> complEsc

/-- A bound of a range, which is no hyphen. -/
def rangeChar : Rule SingleChar := diff singleChar (equal '-')

/-- `capture.charRange`. That the bounds are in order is not asked. -/
def charRange : Rule CharPart := do
  let start ← rangeChar
  let _ ← equal '-'
  let stop ← rangeChar
  pure (.range start stop)

/-- `capture.charGroupPart`. -/
def charGroupPart : Rule CharPart := charClassEsc <|> charRange <|> (CharPart.single <$> singleChar)

/-- `capture.posCharGroup`: at least one part. -/
def posCharGroup : Rule (List CharPart) := Rule.some charGroupPart

/-- `capture.negCharGroup`: the parts behind `^`. -/
def negCharGroup : Rule (List CharPart) := do
  let _ ← equal '^'
  posCharGroup

/-- `capture.charClassExpr`, with a rule for the class that is subtracted. -/
def charClassExpr (charClassExprParser : Rule CharClass) : Rule CharClass := do
  let _ ← equal '['
  let group ← (CharGroup.exclude <$> negCharGroup) <|> (CharGroup.include <$> posCharGroup)
  let subtract ← maybe (do let _ ← equal '-'; charClassExprParser)
  let _ ← equal ']'
  match subtract with
  | none => pure (.group group)
  | some c => pure (.subtract group c)

/-- `charClassExpr_parser`, to a depth. -/
def charClassExprParser : Nat → Rule CharClass
  | 0 => failure
  | depth + 1 => charClassExpr (charClassExprParser depth)

/-- `capture.charClass`. -/
def charClass (depth : Nat) : Rule Atom :=
  ((fun c => Atom.part (.single c)) <$> singleCharEsc) <|> (Atom.part <$> charClassEsc) <|>
    (Atom.cls <$> charClassExprParser depth) <|> (do let _ ← equal '.'; pure .wildcard)

/-- `capture.atom`, with a rule for what is in brackets. -/
def atom (depth : Nat) (regExpParser : Rule RegExp) : Rule Atom :=
  ((fun c => Atom.part (.single (.char c))) <$> normalChar) <|> charClass depth <|>
    (do
      let _ ← equal '('
      let expression ← regExpParser
      let _ ← equal ')'
      pure (.sub expression))

/-- `capture.piece`. -/
def piece (depth : Nat) (regExpParser : Rule RegExp) : Rule Piece := do
  let atom ← atom depth regExpParser
  let quantifier ← maybe quantifier
  pure (.mk atom quantifier)

/-- `capture.branch`; it may have no piece. -/
def branch (depth : Nat) (regExpParser : Rule RegExp) : Rule Branch :=
  Branch.ofList <$> any (piece depth regExpParser)

/-- `capture.otherBranch`. -/
def otherBranch (depth : Nat) (regExpParser : Rule RegExp) : Rule Branch := do
  let _ ← equal '|'
  branch depth regExpParser

/-- `regExp_parser`, to a depth. -/
def regExpParser : Nat → Rule RegExp
  | 0 => failure
  | depth + 1 => do
    let b ← branch depth (regExpParser depth)
    let others ← any (otherBranch depth (regExpParser depth))
    pure (RegExp.ofList b others)

/-- `parse`; an expression is not nested deeper than it is long. -/
def parse (expr : List Char) : Option RegExp :=
  match regExpParser (expr.length + 1) expr with
  | some (result, []) => some result
  | _ => none

/-! ## Languages -/

/-- The character of an escape. -/
def SingleChar.value : SingleChar → Char
  | char c => c
  | escape c _ => if c = 'n' then '\n' else if c = 'r' then '\r' else if c = 't' then '\t' else c

/-- White space. -/
def isSpace (c : Char) : Bool := c ∈ [' ', '\t', '\n', '\r']

/-- Characters that start a name. -/
def isNameStartChar (c : Char) : Bool := GC.L c.toNat || c ∈ [':', '_']

/-- Characters of names. -/
def isNameChar (c : Char) : Bool := isNameStartChar c || GC.Nd c.toNat || c ∈ ['-', '.']

/-- Decimal digits. -/
def isDigit (c : Char) : Bool := GC.Nd c.toNat

/-- All characters but punctuation, separators and others. -/
def isWord (c : Char) : Bool := !(GC.P c.toNat || GC.Z c.toNat || GC.C c.toNat)

/-- The characters that `\\p` and the name of a category stand for. A name that is not in the table
stands for none. -/
def hasProperty (name : List Char) (c : Char) : Bool :=
  match GC.find name with
  | some predicate => predicate c.toNat
  | none => false

/-- The characters of an escape for several ones. -/
def multiHas (escape c : Char) : Bool :=
  match escape with
  | 's' => isSpace c
  | 'S' => !isSpace c
  | 'i' => isNameStartChar c
  | 'I' => !isNameStartChar c
  | 'c' => isNameChar c
  | 'C' => !isNameChar c
  | 'd' => isDigit c
  | 'D' => !isDigit c
  | 'w' => isWord c
  | 'W' => !isWord c
  | _ => false

/-- The characters that a part of a class stands for. -/
def CharPart.has (p : CharPart) (c : Char) : Bool :=
  match p with
  | single x => x.value == c
  | multi escape _ => multiHas escape c
  | property name => hasProperty name c
  | complement name => (GC.find name).isSome && !hasProperty name c
  | range start stop => start.value.toNat ≤ c.toNat && c.toNat ≤ stop.value.toNat

/-- The characters that a group stands for. -/
def CharGroup.has (g : CharGroup) (c : Char) : Bool :=
  match g with
  | .include parts => parts.any fun p => p.has c
  | exclude parts => !parts.any fun p => p.has c

/-- The characters of a class that are not in the one subtracted from it. -/
def CharClass.has (cls : CharClass) (c : Char) : Bool :=
  match cls with
  | group g => g.has c
  | subtract g cls => g.has c && !cls.has c

/-- The strings of a repetition. -/
def Quantifier.lang (l : Language Char) : Quantifier → Language Char
  | optional => l + 1
  | all => KStar.kstar l
  | oneOrMore => l * KStar.kstar l
  | exactly n => l ^ n
  | min n => {w | ∃ k, n ≤ k ∧ w ∈ l ^ k}
  | range n m => {w | ∃ k, n ≤ k ∧ k ≤ m ∧ w ∈ l ^ k}

mutual

/-- The language of an atom. -/
def Atom.lang : Atom → Language Char
  | .part p => {w | ∃ c, p.has c = true ∧ w = [c]}
  | .wildcard => {w | ∃ c, c ∉ ['\n', '\r'] ∧ w = [c]}
  | .cls cls => {w | ∃ c, cls.has c = true ∧ w = [c]}
  | .sub re => re.lang

/-- The language of a piece. -/
def Piece.lang : Piece → Language Char
  | .mk atom none => atom.lang
  | .mk atom (some q) => q.lang atom.lang

/-- The language of a branch: its pieces one after the other. -/
def Branch.lang : Branch → Language Char
  | .empty => 1
  | .cons piece rest => piece.lang * rest.lang

/-- The language of a regular expression: that of any of its branches. -/
def RegExp.lang : RegExp → Language Char
  | .branch b => b.lang
  | .or b re => b.lang + re.lang

end

end XsdRegexp

end Snabb
