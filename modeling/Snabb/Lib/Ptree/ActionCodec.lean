import Snabb.Foundation.Memory
import Snabb.Foundation.Reader
import Snabb.Foundation.Run

/-!
# Configuration actions as bytes (`lib/ptree/action_codec.lua`)

The function of an action says in which order its arguments go through a codec. It is run with an
encoder, which is given the arguments and collects bytes, and with a decoder, which is given nothing
and returns the arguments.

The argument of an app goes through a file, of which the encoding has the name. How the files are
written and loaded, and how classes are named and found, is left open (`Env`).
-/

namespace Snabb

open Foundation

/-- `action_names`, in the order of their codes. -/
inductive ActionName where
  | unlinkOutput
  | unlinkInput
  | freeLink
  | newLink
  | linkOutput
  | linkInput
  | stopApp
  | startApp
  | reconfigApp
  | callAppMethodWithBlob
  | commit
  | shutdown
deriving DecidableEq, Repr

namespace ActionCodec

def actionNames : List ActionName :=
  [.unlinkOutput, .unlinkInput, .freeLink, .newLink, .linkOutput, .linkInput, .stopApp, .startApp,
    .reconfigApp, .callAppMethodWithBlob, .commit, .shutdown]

/-- `action_codes`. -/
def actionCodes (name : ActionName) : Nat := actionNames.idxOf name + 1

/-- The type of a Lua value other than nil. -/
inductive LuaType where
  | table
  | cdata
  | number
  | string
  | boolean
  | function
  | thread
  | userdata
deriving DecidableEq, Repr

/-- `ad_hoc_encodable`. -/
def adHocEncodable : LuaType → Bool
  | .table | .cdata | .number | .string | .boolean => true
  | _ => false

/-- What ends a call: an assertion, a value that cannot be encoded, or an access behind the end of
the bytes. -/
inductive CodecRaise where
  | assertion
  | notEncodable
  | outOfBounds
deriving DecidableEq, Repr

/-- The bytes of a Lua string. -/
abbrev Str := List UInt8

/-- Classes, app arguments and compiled files, and what is done with them elsewhere: naming a class
and finding it again, the type of an argument, compiling and loading files. `none` is a raise where
it is not nil. -/
structure Env (C V F : Type) where
  yangSchema : C → Option Str
  findPublicName : C → Option (Str × Str)
  requireModule : Str → Option C
  requireMember : Str → Str → Option C
  luaType : V → LuaType
  compileConfig : Str → Option V → Option F
  compileAdHoc : V → Option F
  load : F → Option (Option V)

variable {C V F : Type}

/-- An argument of an action. -/
inductive Arg (C V : Type) where
  | string (s : Str)
  | blob (b : List UInt8)
  | cls (c : C)
  | value (v : V)
deriving DecidableEq, Repr

/-- What an action calls, with or without the values. -/
structure Codec (C V S R : Type) where
  string : Option Str → StateT S (Except CodecRaise) (Option Str)
  blob : Option (List UInt8) → StateT S (Except CodecRaise) (Option (List UInt8))
  cls : Option C → StateT S (Except CodecRaise) (Option C)
  config : Option C → Option V → StateT S (Except CodecRaise) (Option V)
  finish : List (Option (Arg C V)) → StateT S (Except CodecRaise) R

/-! ## Actions -/

section Actions

variable {S R : Type} (codec : Codec C V S R)

/-- An action without arguments. -/
def noArgument : StateT S (Except CodecRaise) R := codec.finish []

/-- An action with one string. -/
def oneString (a : Option Str) : StateT S (Except CodecRaise) R := do
  let a ← codec.string a
  codec.finish [a.map .string]

/-- An action with two strings. -/
def twoStrings (a b : Option Str) : StateT S (Except CodecRaise) R := do
  let a ← codec.string a
  let b ← codec.string b
  codec.finish [a.map .string, b.map .string]

/-- An action with three strings. -/
def threeStrings (a b c : Option Str) : StateT S (Except CodecRaise) R := do
  let a ← codec.string a
  let b ← codec.string b
  let c ← codec.string c
  codec.finish [a.map .string, b.map .string, c.map .string]

/-- An action with the name of an app, its class and its argument. -/
def appWithConfig (appname : Option Str) (cls : Option C) (arg : Option V) :
    StateT S (Except CodecRaise) R := do
  let appname ← codec.string appname
  let cls' ← codec.cls cls
  let config ← codec.config cls arg
  codec.finish [appname.map .string, cls'.map .cls, config.map .value]

def unlinkOutput (appname linkname : Option Str) := twoStrings codec appname linkname

def unlinkInput (appname linkname : Option Str) := twoStrings codec appname linkname

def freeLink (linkspec : Option Str) := oneString codec linkspec

def newLink (linkspec : Option Str) := oneString codec linkspec

def linkOutput (appname linkname linkspec : Option Str) :=
  threeStrings codec appname linkname linkspec

def linkInput (appname linkname linkspec : Option Str) :=
  threeStrings codec appname linkname linkspec

def stopApp (appname : Option Str) := oneString codec appname

def startApp (appname : Option Str) (cls : Option C) (arg : Option V) :=
  appWithConfig codec appname cls arg

def reconfigApp (appname : Option Str) (cls : Option C) (arg : Option V) :=
  appWithConfig codec appname cls arg

def callAppMethodWithBlob (appname methodname : Option Str) (blob : Option (List UInt8)) :
    StateT S (Except CodecRaise) R := do
  let appname ← codec.string appname
  let methodname ← codec.string methodname
  let blob ← codec.blob blob
  codec.finish [appname.map .string, methodname.map .string, blob.map .blob]

def commit := noArgument codec

def shutdown := noArgument codec

end Actions

/-- An action with its arguments. -/
inductive Action (C V : Type) where
  | unlinkOutput (appname linkname : Str)
  | unlinkInput (appname linkname : Str)
  | freeLink (linkspec : Str)
  | newLink (linkspec : Str)
  | linkOutput (appname linkname linkspec : Str)
  | linkInput (appname linkname linkspec : Str)
  | stopApp (appname : Str)
  | startApp (appname : Str) (cls : C) (arg : Option V)
  | reconfigApp (appname : Str) (cls : C) (arg : Option V)
  | callAppMethodWithBlob (appname methodname : Str) (blob : List UInt8)
  | commit
  | shutdown

namespace Action

def name : Action C V → ActionName
  | .unlinkOutput .. => .unlinkOutput
  | .unlinkInput .. => .unlinkInput
  | .freeLink .. => .freeLink
  | .newLink .. => .newLink
  | .linkOutput .. => .linkOutput
  | .linkInput .. => .linkInput
  | .stopApp .. => .stopApp
  | .startApp .. => .startApp
  | .reconfigApp .. => .reconfigApp
  | .callAppMethodWithBlob .. => .callAppMethodWithBlob
  | .commit => .commit
  | .shutdown => .shutdown

/-- The arguments; the last one of an app may be nil. -/
def args : Action C V → List (Option (Arg C V))
  | .unlinkOutput a b | .unlinkInput a b => [some (.string a), some (.string b)]
  | .freeLink a | .newLink a | .stopApp a => [some (.string a)]
  | .linkOutput a b c | .linkInput a b c => [some (.string a), some (.string b), some (.string c)]
  | .startApp a c v | .reconfigApp a c v => [some (.string a), some (.cls c), v.map .value]
  | .callAppMethodWithBlob a b c => [some (.string a), some (.string b), some (.blob c)]
  | .commit | .shutdown => []

end Action

/-- `actions[name](codec, unpack(args))`. -/
def call {S R : Type} (codec : Codec C V S R) : Action C V → StateT S (Except CodecRaise) R
  | .unlinkOutput a b => unlinkOutput codec (some a) (some b)
  | .unlinkInput a b => unlinkInput codec (some a) (some b)
  | .freeLink a => freeLink codec (some a)
  | .newLink a => newLink codec (some a)
  | .linkOutput a b c => linkOutput codec (some a) (some b) (some c)
  | .linkInput a b c => linkInput codec (some a) (some b) (some c)
  | .stopApp a => stopApp codec (some a)
  | .startApp a c v => startApp codec (some a) (some c) v
  | .reconfigApp a c v => reconfigApp codec (some a) (some c) v
  | .callAppMethodWithBlob a b c => callAppMethodWithBlob codec (some a) (some b) (some c)
  | .commit => commit codec
  | .shutdown => shutdown codec

/-- `actions[name](codec)`. -/
def callBare {S R : Type} (codec : Codec C V S R) : ActionName → StateT S (Except CodecRaise) R
  | .unlinkOutput => unlinkOutput codec none none
  | .unlinkInput => unlinkInput codec none none
  | .freeLink => freeLink codec none
  | .newLink => newLink codec none
  | .linkOutput => linkOutput codec none none none
  | .linkInput => linkInput codec none none none
  | .stopApp => stopApp codec none
  | .startApp => startApp codec none none none
  | .reconfigApp => reconfigApp codec none none none
  | .callAppMethodWithBlob => callAppMethodWithBlob codec none none none
  | .commit => commit codec
  | .shutdown => shutdown codec

/-! ## The encoder -/

/-- `random_file_name`, of `shm.root` and the resolved name. -/
def randomFileName (root resolved : Str) : Str := root ++ 47 :: resolved

/-- The files that were compiled, by name. -/
abbrev Files (F : Type) := Str → Option F

/-- What an encoder has collected, `out`. -/
structure Encoder (F : Type) where
  out : List (List UInt8)
  files : Files F

namespace Encoder

def insert (bytes : List UInt8) : StateT (Encoder F) (Except CodecRaise) Unit :=
  modify fun e => { e with out := e.out ++ [bytes] }

def uint32 (n : Nat) : StateT (Encoder F) (Except CodecRaise) Unit := insert (leBytes 4 n)

def string (s : Str) : StateT (Encoder F) (Except CodecRaise) Unit := do
  uint32 s.length
  insert s

def blob (b : List UInt8) : StateT (Encoder F) (Except CodecRaise) Unit := do
  uint32 b.length
  insert b

/-- Write a file, if there is something to be written. -/
def write (fileName : Str) (file : Option F) : StateT (Encoder F) (Except CodecRaise) Str :=
  match file with
  | some file => do
    modify fun e => { e with files := Function.update e.files fileName (some file) }
    return fileName
  | none => throw .notEncodable

variable (env : Env C V F)

def cls (c : C) : StateT (Encoder F) (Except CodecRaise) Unit :=
  match env.findPublicName c with
  | some (requirePath, name) => do
    string requirePath
    string name
  | none => throw .notEncodable

/-- `fileName` is a `random_file_name()`. -/
def config (fileName : Str) (c : C) (arg : Option V) :
    StateT (Encoder F) (Except CodecRaise) Unit := do
  let fileName ← (match env.yangSchema c, arg with
    | some schema, arg => write fileName (env.compileConfig schema arg)
    | none, some v =>
      if adHocEncodable (env.luaType v) then write fileName (env.compileAdHoc v)
      else throw .notEncodable
    | none, none => return [])
  string fileName

/-- Copy what was collected into one buffer. That `ffi.new` refuses one of 2^31 bytes and more is
left out. -/
def finish : StateT (Encoder F) (Except CodecRaise) (List UInt8) := do
  return (← get).out.flatten

/-- A value that is nil cannot be encoded, and the methods return nothing. -/
def given {A B : Type} (f : A → StateT (Encoder F) (Except CodecRaise) Unit) (a : Option A) :
    StateT (Encoder F) (Except CodecRaise) (Option B) :=
  match a with
  | some a => do
    f a
    return none
  | none => throw .notEncodable

end Encoder

/-- `encoder()`. -/
def encoder (env : Env C V F) (fileName : Str) : Codec C V (Encoder F) (List UInt8) where
  string := Encoder.given Encoder.string
  blob := Encoder.given Encoder.blob
  cls := Encoder.given (Encoder.cls env)
  config c arg := Encoder.given (fun c => Encoder.config env fileName c arg) c
  finish _ := Encoder.finish

/-- `encode`: the bytes, and the files there are then. -/
def encode (env : Env C V F) (fileName : Str) (files : Files F) (action : Action C V) :
    Except CodecRaise (List UInt8 × Files F) := do
  let (_, codec) ← Encoder.uint32 (actionCodes action.name) ⟨[], files⟩
  let (bytes, codec) ← call (encoder env fileName) action codec
  return (bytes, codec.files)

/-! ## The decoder -/

/-- A decoder of given bytes. -/
structure Decoder (F : Type) where
  pos : Nat
  files : Files F

namespace Decoder

/-- Look at the bytes behind a pointer. -/
def fetch (buf : List UInt8) (ptr count : Nat) : StateT (Decoder F) (Except CodecRaise) (List UInt8) :=
  if ptr + count ≤ buf.length then return (buf.drop ptr).take count else throw .outOfBounds

variable (env : Env C V F) (buf : List UInt8) (len : Nat)

/-- Move on, and return a pointer. -/
def read (count : Nat) : StateT (Decoder F) (Except CodecRaise) Nat := do
  let ret := (← get).pos
  modify fun d => { d with pos := d.pos + count }
  if (← get).pos ≤ len then return ret else throw .assertion

def uint32 : StateT (Decoder F) (Except CodecRaise) Nat := do
  return leNat (← fetch buf (← read len 4) 4)

def string : StateT (Decoder F) (Except CodecRaise) Str := do
  let count ← uint32 buf len
  fetch buf (← read len count) count

def blob : StateT (Decoder F) (Except CodecRaise) (List UInt8) := do
  let count ← uint32 buf len
  fetch buf (← read len count) count

def cls : StateT (Decoder F) (Except CodecRaise) C := do
  let requirePath ← string buf len
  let name ← string buf len
  match (if 0 < name.length then env.requireMember requirePath name
    else env.requireModule requirePath) with
  | some c => return c
  | none => throw .assertion

/-- Load a file and unlink it. -/
def config : StateT (Decoder F) (Except CodecRaise) (Option V) := do
  let fileName ← string buf len
  if 0 < fileName.length then
    match (← get).files fileName >>= env.load with
    | some data => do
      modify fun d => { d with files := Function.update d.files fileName none }
      return data
    | none => throw .assertion
  else return none

end Decoder

/-- `decoder(buf, len)`. -/
def decoder (env : Env C V F) (buf : List UInt8) (len : Nat) :
    Codec C V (Decoder F) (List (Option (Arg C V))) where
  string _ := return some (← Decoder.string buf len)
  blob _ := return some (← Decoder.blob buf len)
  cls _ := return some (← Decoder.cls env buf len)
  config _ _ := Decoder.config env buf len
  finish args := return args

/-- The name and the arguments, by a decoder. -/
def nameAndArgs (env : Env C V F) (buf : List UInt8) (len : Nat) :
    StateT (Decoder F) (Except CodecRaise) (ActionName × List (Option (Arg C V))) := do
  let code ← Decoder.uint32 buf len
  match (if code = 0 then none else actionNames[code - 1]?) with
  | some name => return (name, ← callBare (decoder env buf len) name)
  | none => throw .assertion

/-- `decode`: the name and the arguments, and what becomes of the decoder. -/
def decode (env : Env C V F) (buf : List UInt8) (len : Nat) (files : Files F) :
    Except CodecRaise ((ActionName × List (Option (Arg C V))) × Decoder F) :=
  nameAndArgs env buf len ⟨0, files⟩

end ActionCodec

end Snabb
