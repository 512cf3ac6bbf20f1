import Snabb.Foundation.Memory
import Snabb.Foundation.Run
import Snabb.Foundation.Table

/-!
# Lua data in binary files (`lib/yang/binary.lua`)

Data without a schema is written with a grammar that is made from the data itself
(`adHocGrammarFromData`), by the emitters that are there for data with a schema (`visit`). Strings
go to a table of strings at the end of the file and stand in the data by their index.

- `compileAdHocLuaDataToFile`: the bytes of the file;
- `loadCompiledData`: what is read from a file.

The streams are modelled by their bytes and the position; no file grows to 2 ^ 63 bytes. Data of C
types, and the tags that only data with a schema has, are left out.
-/

namespace Snabb

open Foundation

namespace YangBinary

/-- The bytes of a Lua string. -/
abbrev Str := List UInt8

/-- The bytes of a name. -/
def str (s : String) : Str := s.toList.map fun c => UInt8.ofNat c.toNat

/-- A key of a table; the numbers are whole and not negative. -/
inductive Key where
  | number (n : Nat)
  | string (s : Str)
deriving DecidableEq, Repr

/-- A Lua value. Numbers are given by their bits. A builtin is what the string library has under a
name. -/
inductive Value where
  | boolean (b : Bool)
  | number (bits : BitVec 64)
  | string (s : Str)
  | builtin (name : Str)
  | table (entries : List (Key × Value))

/-- A grammar that is made from data. -/
inductive Grammar where
  | boolean
  | decimal64
  | string
  | struct (members : List (Key × Grammar))

/-- What `table.sort` does with a predicate that is not an order, and the names in the string
library. -/
structure Env where
  sorted : Pairs Key
  invalidOrder : List Key → Bool
  stringLibrary : Str → Bool

inductive CompileError where
  | unhandledDataType
  | invalidOrderFunction
  | assertion
  | notIndexable
  | notConvertible
  | notAString
  | callNil
  | fileTooLarge
deriving DecidableEq, Repr

/-- The bytes of `%w` and the underscore. -/
def isIdByte (c : UInt8) : Bool :=
  (48 ≤ c && c ≤ 57) || (65 ≤ c && c ≤ 90) || (97 ≤ c && c ≤ 122) || c == 95

/-- `normalize_id` of `lib/yang/data.lua`. -/
def normalizeId (id : Str) : Str := id.map fun c => if isIdByte c then c else 95

/-! ## Output -/

/-- A file that is written, and the strings of `string_table_builder`. -/
structure Output where
  content : List UInt8
  pos : Nat
  strings : List Str
deriving DecidableEq, Repr

abbrev Emit := StateT Output (Except CompileError)

/-- `write_bytes`. -/
def write (bytes : List UInt8) : Emit Unit := fun o =>
  if o.pos + bytes.length < 2 ^ 63 then
    .ok ((), { o with
      content := o.content.take o.pos ++ bytes ++ o.content.drop (o.pos + bytes.length)
      pos := o.pos + bytes.length })
  else .error .fileTooLarge

/-- `seek` without arguments. -/
def tell : Emit Nat := fun o => .ok (o.pos, o)

def seekSet (offset : Nat) : Emit Unit := fun o => .ok ((), { o with pos := offset })

/-- `write_scalar` of an `uint32_t`. -/
def writeUint32 (n : Nat) : Emit Unit :=
  if n < 2 ^ 32 then write (leBytes 4 n) else throw .assertion

/-- `intern`. -/
def intern (s : Str) : Emit Nat := fun o =>
  if s ∈ o.strings then .ok (o.strings.idxOf s, o)
  else .ok (o.strings.length, { o with strings := o.strings ++ [s] })

def writeStringref (s : Str) : Emit Unit := do
  let i ← intern s
  writeUint32 i

/-- `emit` of the table of strings: where it starts and how long it is. -/
def emitStringTable : Emit (Nat × Nat) := do
  let strings := (← get).strings
  let strtabStart ← tell
  writeUint32 strings.length
  let _ ← strings.foldlM (fun strEnd s => do
    writeUint32 (strEnd + s.length)
    return strEnd + s.length) 0
  strings.forM write
  return (strtabStart, (← tell) - strtabStart)

/-! ## Emitters -/

abbrev Emitter := Value → Emit Unit

/-- A string. What is not a string can be interned too, but has no method `len`. -/
def emitString : Emitter := fun data => do
  writeStringref (str "stringref")
  match data with
  | .string s => writeStringref s
  | _ => throw .notAString

/-- A value of a C type. -/
def emitCscalar (ctype : Str) (convert : Value → Option (List UInt8)) : Emitter := fun data => do
  writeStringref (str "cscalar")
  writeStringref ctype
  match convert data with
  | some bytes => write bytes
  | none => throw .notConvertible

/-- The bits of 1.0. -/
def doubleOne : BitVec 64 := 0x3ff0000000000000#64

/-- How a value is converted to a `double`. -/
def toDouble : Value → Option (List UInt8)
  | .number bits => some (leBytes 8 bits.toNat)
  | .boolean b => some (leBytes 8 (if b then doubleOne else 0#64).toNat)
  | _ => none

/-- How a value is converted to a `bool`; a number is true unless it is 0 or -0. -/
def toBool : Value → Option (List UInt8)
  | .boolean b => some (leBytes 1 b.toNat)
  | .number bits => some (leBytes 1 (bits <<< 1 != 0#64).toNat)
  | _ => none

/-- `data[id]`, where a string has the members of the string library. -/
def index (env : Env) (data : Value) (id : Key) : Except CompileError (Option Value) :=
  match data, id with
  | .table entries, id => .ok (entries.lookup id)
  | .string _, .string name =>
    .ok (if env.stringLibrary name then some (.builtin name) else none)
  | .string _, .number _ => .ok none
  | _, _ => .error .notIndexable

/-- An element of `outn` or `outs`: the key that is written, the emitter of the member and the data
that is found under `id`. -/
def outElement {K : Type} (env : Env) (emitMember : List (Key × Emitter)) (data : Value) (k id : Key)
    (key : K) : Except CompileError (Option (K × Emitter × Value)) := do
  match ← index env data id, emitMember.lookup k with
  | none, _ => .ok none
  | some d, some emit => .ok (some (key, emit, d))
  | some _, none => .error .callNil

/-- An element of `outn`, for a key that is a number. -/
def outNumber (env : Env) (emitMember : List (Key × Emitter)) (data : Value) (k : Key) :
    Except CompileError (Option (Nat × Emitter × Value)) :=
  match k with
  | .string _ => .ok none
  | .number n =>
    if n < 2 ^ 32 then outElement env emitMember data k (.number n) n else .error .assertion

/-- An element of `outs`, for a key that is a string. -/
def outString (env : Env) (emitMember : List (Key × Emitter)) (data : Value) (k : Key) :
    Except CompileError (Option (Str × Emitter × Value)) :=
  match k with
  | .number _ => .ok none
  | .string s => outElement env emitMember data k (.string (normalizeId s)) (normalizeId s)

/-- How many members there are, and each with its key. -/
def emitMembers {K : Type} (writeKey : K → Emit Unit) (out : List (K × Emitter × Value)) :
    Emit Unit := do
  writeUint32 out.length
  out.forM fun elt => do
    writeKey elt.1
    elt.2.1 elt.2.2

/-- The emitter of `handlers.struct`. -/
def emitStruct (env : Env) (memberKeys : List Key) (emitMember : List (Key × Emitter)) : Emitter :=
  fun data => do
    writeStringref (str "lstruct")
    let outn ← StateT.lift (memberKeys.mapM (outNumber env emitMember data))
    emitMembers writeUint32 outn.reduceOption
    let outs ← StateT.lift (memberKeys.mapM (outString env emitMember data))
    emitMembers writeStringref outs.reduceOption

mutual

/-- `visit1`. -/
def visit (env : Env) : Grammar → Except CompileError Emitter
  | .boolean => .ok (emitCscalar (str "bool") toBool)
  | .decimal64 => .ok (emitCscalar (str "double") toDouble)
  | .string => .ok emitString
  | .struct members =>
    if env.invalidOrder (members.map Prod.fst) then .error .invalidOrderFunction
    else do
      let emitMember ← visitMembers env members
      return emitStruct env (env.sorted.order (members.map Prod.fst)) emitMember

/-- `visitn`. -/
def visitMembers (env : Env) : List (Key × Grammar) → Except CompileError (List (Key × Emitter))
  | [] => .ok []
  | (k, production) :: rest => do
    let emit ← visit env production
    let emitMember ← visitMembers env rest
    return (k, emit) :: emitMember

/-- `ad_hoc_grammar_from_data`. -/
def adHocGrammarFromData : Value → Except CompileError Grammar
  | .boolean _ => .ok .boolean
  | .number _ => .ok .decimal64
  | .string _ => .ok .string
  | .builtin _ => .error .unhandledDataType
  | .table entries => do
    let members ← adHocMembers entries
    return .struct members

def adHocMembers : List (Key × Value) → Except CompileError (List (Key × Grammar))
  | [] => .ok []
  | (k, v) :: rest => do
    let production ← adHocGrammarFromData v
    let members ← adHocMembers rest
    return (k, production) :: members

end

/-! ## Files -/

/-- `header_t`. -/
structure Header where
  magic : List UInt8
  version : Nat
  sourceMtimeSec : Nat
  sourceMtimeNsec : Nat
  schemaName : Nat
  revisionDate : Nat
  dataStart : Nat
  dataLen : Nat
  strtabStart : Nat
  strtabLen : Nat
deriving DecidableEq, Repr

/-- The bytes of a header; the 64-bit fields are aligned. -/
def Header.toBytes (h : Header) : List UInt8 :=
  h.magic ++ (leBytes 4 h.version ++ (leBytes 4 0 ++ (leBytes 8 h.sourceMtimeSec ++
    (leBytes 4 h.sourceMtimeNsec ++ (leBytes 4 h.schemaName ++ (leBytes 4 h.revisionDate ++
      (leBytes 4 0 ++ (leBytes 8 h.dataStart ++ (leBytes 8 h.dataLen ++
        (leBytes 8 h.strtabStart ++ leBytes 8 h.strtabLen))))))))))

def magic : List UInt8 := str "yangconf"

def version : Nat := 0x0000f300

/-- The function of `data_compiler_from_grammar`, on a file that is new. -/
def compileData (emitData : Emitter) (schemaName schemaRevision : Str) (sec nsec : Nat)
    (data : Value) : Emit Unit := do
  let name ← intern schemaName
  let revision ← intern schemaRevision
  let header : Header := ⟨magic, version, sec, nsec, name, revision, 0, 0, 0, 0⟩
  -- Written with empty fields, and once more when they are known.
  write header.toBytes
  let dataStart ← tell
  emitData data
  let dataEnd ← tell
  let (strtabStart, strtabLen) ← emitStringTable
  seekSet 0
  write { header with
    dataStart := dataStart
    dataLen := dataEnd - dataStart
    strtabStart := strtabStart
    strtabLen := strtabLen }.toBytes

/-- `compile_ad_hoc_lua_data_to_file`: the bytes of the file. -/
def compileAdHocLuaDataToFile (env : Env) (data : Value) : Except CompileError (List UInt8) := do
  let grammar ← adHocGrammarFromData data
  let emitter ← visit env grammar
  let ((), o) ← compileData emitter [] [] 0 0 data ⟨[], 0, []⟩
  return o.content

/-! ## Input -/

inductive LoadError where
  | earlyEof
  | assertion
  | outOfBounds
  | stackOverflow
  /-- A tag that only data with a schema has, or an unknown one. -/
  | otherTag (tag : Str)
deriving DecidableEq, Repr

/-- A reader of a file moves its position. -/
abbrev Load := StateT Nat (Except LoadError)

variable (file : List UInt8)

/-- `read_bytes_or_error`. -/
def readBytes (count : Nat) : Load (List UInt8) := fun pos =>
  if ((file.drop pos).take count).length = count then
    .ok ((file.drop pos).take count, pos + count)
  else .error .earlyEof

def readUint32 : Load Nat := do
  let bytes ← readBytes file 4
  return leNat bytes

def readUint64 : Load Nat := do
  let bytes ← readBytes file 8
  return leNat bytes

def readHeader : Load Header := do
  let magic ← readBytes file 8
  let version ← readUint32 file
  let _ ← readUint32 file
  let sourceMtimeSec ← readUint64 file
  let sourceMtimeNsec ← readUint32 file
  let schemaName ← readUint32 file
  let revisionDate ← readUint32 file
  let _ ← readUint32 file
  let dataStart ← readUint64 file
  let dataLen ← readUint64 file
  let strtabStart ← readUint64 file
  let strtabLen ← readUint64 file
  return ⟨magic, version, sourceMtimeSec, sourceMtimeNsec, schemaName, revisionDate, dataStart,
    dataLen, strtabStart, strtabLen⟩

/-- `read_array` of `uint32_t`. -/
def readUint32s : Nat → Load (List Nat)
  | 0 => return []
  | count + 1 => do
    let n ← readUint32 file
    let ns ← readUint32s count
    return n :: ns

/-- The loop of `read_string_table`. -/
def readStrings : Nat → List Nat → Load (List Str)
  | _, [] => return []
  | offset, strEnd :: offsets =>
    if offset ≤ strEnd then do
      let s ← readBytes file (strEnd - offset)
      let strings ← readStrings strEnd offsets
      return s :: strings
    else throw .assertion

def readStringTable (strtabLen : Nat) : Load (List Str) :=
  if strtabLen < 4 then throw .assertion
  else do
    let count ← readUint32 file
    if strtabLen < 4 * (count + 1) then throw .assertion
    else do
      let offsets ← readUint32s file count
      match offsets.getLast? with
      | none => throw .outOfBounds
      | some strEnd =>
        if strtabLen = 4 * (count + 1) + strEnd then readStrings file 0 offsets
        else throw .assertion

variable (strtab : List Str)

/-- `read_string`. -/
def readString : Load Str := do
  let i ← readUint32 file
  match strtab[i]? with
  | some s => return s
  | none => throw .assertion

/-- `ret[k] = v`. -/
def setEntry (entries : List (Key × Value)) (k : Key) (v : Value) : List (Key × Value) :=
  entries.filter (fun e => e.1 ≠ k) ++ [(k, v)]

/-- A loop of `readers.lstruct`. -/
def readElements (readKey : Load Key) (read1 : Load Value) :
    Nat → List (Key × Value) → Load (List (Key × Value))
  | 0, ret => return ret
  | count + 1, ret => do
    let k ← readKey
    let v ← read1
    readElements readKey read1 count (setEntry ret k v)

/-- The number of members, and the loop. -/
def readMembers (readKey : Load Key) (read1 : Load Value) (ret : List (Key × Value)) :
    Load (List (Key × Value)) := do
  let count ← readUint32 file
  readElements readKey read1 count ret

/-- `readers.lstruct`. -/
def readLstruct (read1 : Load Value) : Load Value := do
  let ret ← readMembers file (Key.number <$> readUint32 file) read1 []
  Value.table <$> readMembers file (Key.string <$> readString file strtab) read1 ret

/-- `read_scalar` of a C type. -/
def readScalar (ctype : Str) : Load Value :=
  if ctype = str "double" then do
    let bytes ← readBytes file 8
    return .number (BitVec.ofNat 64 (leNat bytes))
  else if ctype = str "bool" then do
    let bytes ← readBytes file 1
    return .boolean (leNat bytes != 0)
  else throw (.otherTag ctype)

/-- `readers[tag]`. -/
def readers (read1 : Load Value) (tag : Str) : Load Value :=
  if tag = str "lstruct" then readLstruct file strtab read1
  else if tag = str "stringref" then Value.string <$> readString file strtab
  else if tag = str "cscalar" then readString file strtab >>= readScalar file
  else throw (.otherTag tag)

/-- `read1`, to a depth. -/
def read1 : Nat → Load Value
  | 0 => throw .stackOverflow
  | depth + 1 => readString file strtab >>= readers file strtab (read1 depth)

/-- `read_compiled_data`; each value takes some bytes, so data is not nested deeper than the file is
long. -/
def readCompiledData : Load Value := read1 file strtab (file.length + 1)

/-- What `load_compiled_data` returns. -/
structure Compiled where
  schemaName : Option Str
  revisionDate : Option Str
  sourceMtimeSec : Nat
  sourceMtimeNsec : Nat
  data : Value

/-- `load_compiled_data`. -/
def loadCompiledData : Except LoadError Compiled := do
  let (header, _) ← readHeader file 0
  if header.magic ≠ magic then throw .assertion
  else if header.version ≠ version then throw .assertion
  else do
    let (strtab, _) ← readStringTable file header.strtabLen header.strtabStart
    let (data, pos) ← readCompiledData file strtab header.dataStart
    if pos = header.dataStart + header.dataLen then
      return ⟨strtab[header.schemaName]?, strtab[header.revisionDate]?, header.sourceMtimeSec,
        header.sourceMtimeNsec, data⟩
    else throw .assertion

end YangBinary

end Snabb
