import Snabb.Lib.Ptree.ActionCodec

/-!
# The round trip of an action

The encoder is described by the bytes it collects (`Writes`), the decoder by where it begins and
ends in them (`Reads`). Both are put together from the methods of a codec, in the order in which
the action calls them.

- `action_round_trip`: an action that is decoded is the one that was encoded, and a beginning of an
  encoding is refused.
-/

namespace Snabb

open List hiding get modify

namespace ActionCodec

open Foundation

variable {C V F A B : Type}

/-! ## What can be encoded -/

/-- A class that was named is found again, and a file that was compiled loads back. -/
structure Env.Faithful (env : Env C V F) : Prop where
  found : ∀ c requirePath name, env.findPublicName c = some (requirePath, name) →
    (if 0 < name.length then env.requireMember requirePath name
      else env.requireModule requirePath) = some c
  loaded : ∀ schema arg file, env.compileConfig schema arg = some file → env.load file = some arg
  loadedAdHoc : ∀ v file, env.compileAdHoc v = some file → env.load file = some (some v)

/-- A length fits the four bytes it is written in. -/
def Short (s : List UInt8) : Prop := s.length < 2 ^ 32

instance (s : List UInt8) : Decidable (Short s) := inferInstanceAs (Decidable (_ < _))

/-- A class with a public name. -/
def Env.Named (env : Env C V F) (c : C) : Prop :=
  ∃ requirePath name, env.findPublicName c = some (requirePath, name) ∧
    Short requirePath ∧ Short name

/-- The argument of an app: nil, or of a type that is compiled. An app with a schema has its
argument compiled by that. -/
def Env.Compiles (env : Env C V F) (c : C) (arg : Option V) : Prop :=
  match env.yangSchema c, arg with
  | some schema, arg => (env.compileConfig schema arg).isSome
  | none, some v => adHocEncodable (env.luaType v) ∧ (env.compileAdHoc v).isSome
  | none, none => True

/-- The actions with arguments of any content. -/
def Encodable (env : Env C V F) : Action C V → Prop
  | .unlinkOutput a b | .unlinkInput a b => Short a ∧ Short b
  | .freeLink a | .newLink a | .stopApp a => Short a
  | .linkOutput a b c | .linkInput a b c => Short a ∧ Short b ∧ Short c
  | .startApp a c v | .reconfigApp a c v => Short a ∧ env.Named c ∧ env.Compiles c v
  | .callAppMethodWithBlob a b c => Short a ∧ Short b ∧ Short c
  | .commit | .shutdown => True

/-! ## The encoder -/

/-- The computation collects the bytes and returns `v`. -/
def Writes (x : StateT (Encoder F) (Except CodecRaise) A) (files files' : Files F)
    (bytes : List UInt8) (v : A) : Prop :=
  ∀ out, ∃ out', x ⟨out, files⟩ = .ok (v, ⟨out', files'⟩) ∧
    out'.flatten = out.flatten ++ bytes

variable {x : StateT (Encoder F) (Except CodecRaise) A} {v : A} {w : B}
  {f : A → StateT (Encoder F) (Except CodecRaise) B} {files files' files'' : Files F}
  {bytes more : List UInt8}

theorem Writes.pure : Writes (pure v) files files [] v := by
  intro out
  exact ⟨out, rfl, (append_nil _).symm⟩

theorem Writes.bind (h : Writes x files files' bytes v) (h' : Writes (f v) files' files'' more w) :
    Writes (x >>= f) files files'' (bytes ++ more) w := by
  intro out
  obtain ⟨out', hx, hout'⟩ := h out
  obtain ⟨out'', hf, hout''⟩ := h' out'
  refine ⟨out'', ?_, ?_⟩
  · simp only [Bind.bind, StateT.bind, hx]
    exact hf
  · rw [hout'', hout', append_assoc]

theorem insert_writes : Writes (Encoder.insert bytes) files files bytes () := by
  intro out
  refine ⟨out ++ [bytes], rfl, ?_⟩
  rw [flatten_append, flatten_singleton]

/-- A string or a blob with its length in front. -/
def counted (s : List UInt8) : List UInt8 := leBytes 4 s.length ++ s

theorem string_writes (s : Str) : Writes (Encoder.string s) files files (counted s) () :=
  insert_writes.bind insert_writes

theorem blob_writes (b : List UInt8) : Writes (Encoder.blob b) files files (counted b) () :=
  insert_writes.bind insert_writes

theorem given_writes {g : A → StateT (Encoder F) (Except CodecRaise) Unit} {a : A}
    (h : Writes (g a) files files' bytes ()) :
    Writes (Encoder.given (B := B) g (some a)) files files' bytes none := by
  have := h.bind (f := fun _ => Pure.pure none) (Writes.pure (v := (none : Option B)))
  rwa [append_nil] at this

variable {requirePath name : Str} {file : F} {arg : Option V}
  {g : A → StateT (Encoder F) (Except CodecRaise) (List UInt8)} {env : Env C V F} {c : C}

theorem cls_writes (h : env.findPublicName c = some (requirePath, name)) :
    Writes (Encoder.cls env c) files files (counted requirePath ++ counted name) () := by
  unfold Encoder.cls
  rw [h]
  exact (string_writes requirePath).bind (string_writes name)

/-- The argument that a file name stands for. -/
def Stands (env : Env C V F) (files : Files F) (name : Str) (arg : Option V) : Prop :=
  (if 0 < name.length then files name >>= env.load else some none) = some arg

variable {fileName : Str}

theorem write_writes :
    Writes (Encoder.write fileName (some file)) files
      (Function.update files fileName (some file)) [] fileName := by
  intro out
  exact ⟨out, rfl, (append_nil _).symm⟩

theorem stands_update (hname : 0 < fileName.length) (hload : env.load file = some arg) :
    Stands env (Function.update files fileName (some file)) fileName arg := by
  unfold Stands
  rw [if_pos hname, Function.update_self]
  exact hload

/-- **The argument of an app is written as the name of a file that stands for it.** -/
theorem config_writes (files : Files F)
    (henv : env.Faithful) (hname : 0 < fileName.length) (hshort : Short fileName)
    (h : env.Compiles c arg) :
    ∃ name files', Writes (Encoder.config env fileName c arg) files files' (counted name) () ∧
      Short name ∧ Stands env files' name arg := by
  unfold Env.Compiles at h
  unfold Encoder.config
  cases hschema : env.yangSchema c with
  | some schema =>
    simp only [hschema] at h ⊢
    obtain ⟨file, hfile⟩ := Option.isSome_iff_exists.mp h
    have hload := henv.loaded schema arg file hfile
    rw [hfile]
    exact ⟨fileName, _, write_writes.bind (string_writes fileName), hshort,
      stands_update hname hload⟩
  | none =>
    cases arg with
    | some v =>
      simp only [hschema] at h ⊢
      obtain ⟨htype, hsome⟩ := h
      obtain ⟨file, hfile⟩ := Option.isSome_iff_exists.mp hsome
      have hload := henv.loadedAdHoc v file hfile
      rw [if_pos htype, hfile]
      exact ⟨fileName, _, write_writes.bind (string_writes fileName), hshort,
        stands_update hname hload⟩
    | none =>
      refine ⟨[], files, Writes.pure.bind (string_writes []), by simp [Short], ?_⟩
      unfold Stands
      rw [if_neg (by simp)]

/-! ## The decoder

It is given the first `limit` bytes of `full`. -/

variable {full : List UInt8} {limit p : Nat}

/-- A method of a decoder of these bytes. -/
abbrev Decodes (limit : Nat) (x : StateT (Decoder F) (Except CodecRaise) A) :=
  Reads Decoder.pos CodecRaise.assertion limit x

theorem read_reads (count : Nat) :
    Decodes limit (Decoder.read limit count) ⟨p, files⟩ ⟨p + count, files⟩ p := by
  refine ⟨Nat.le_add_right _ _, fun hle => ?_, fun _ hlt => ?_⟩
  · unfold Decoder.read
    simp only [bind, StateT.bind, get, getThe, MonadStateOf.get, StateT.get, pure, Except.pure,
      Except.bind, modify, modifyGet, MonadStateOf.modifyGet, StateT.modifyGet]
    rw [if_pos hle]
    rfl
  · unfold Decoder.read
    simp only [bind, StateT.bind, get, getThe, MonadStateOf.get, StateT.get, pure, Except.pure,
      Except.bind, modify, modifyGet, MonadStateOf.modifyGet, StateT.modifyGet]
    rw [if_neg (not_le.mpr hlt)]
    rfl

theorem fetch_reads (files : Files F) (hlimit : limit ≤ full.length) (h : At full p bytes) :
    Decodes limit (Decoder.fetch (full.take limit) p bytes.length)
      ⟨p + bytes.length, files⟩ ⟨p + bytes.length, files⟩ bytes := by
  have hlength : (full.take limit).length = limit := by
    rw [length_take]
    exact min_eq_left hlimit
  refine ⟨le_rfl, fun hle => ?_, fun hle hlt => absurd hlt (not_lt.mpr hle)⟩
  unfold Decoder.fetch
  rw [if_pos (by rw [hlength]; exact hle), h.take_drop hle]
  rfl

theorem uint32_reads {n : Nat} (files : Files F) (hlimit : limit ≤ full.length) (hn : n < 2 ^ 32)
    (h : At full p (leBytes 4 n)) :
    Decodes limit (Decoder.uint32 (full.take limit) limit) ⟨p, files⟩ ⟨p + 4, files⟩ n := by
  have hfetch := fetch_reads files hlimit h
  have hvalue : leNat (leBytes 4 n) = n := by
    rw [leNat_leBytes]
    exact Nat.mod_eq_of_lt hn
  have hread : Decodes limit (Decoder.uint32 (full.take limit) limit) ⟨p, files⟩ ⟨p + 4, files⟩
      (leNat (leBytes 4 n)) := (read_reads 4).bind (hfetch.bind Reads.pure)
  rwa [hvalue] at hread

theorem counted_length (s : List UInt8) : (counted s).length = 4 + s.length := by
  unfold counted
  rw [List.length_append, length_leBytes]

theorem string_reads {s : Str} (files : Files F) (hlimit : limit ≤ full.length) (hs : Short s)
    (h : At full p (counted s)) :
    Decodes limit (Decoder.string (full.take limit) limit) ⟨p, files⟩
      ⟨p + (counted s).length, files⟩ s := by
  have hcount := uint32_reads files hlimit hs h.left
  have hrest := h.right
  have hfetch := fetch_reads files hlimit hrest
  rw [counted_length, ← Nat.add_assoc]
  exact hcount.bind ((read_reads s.length).bind hfetch)

theorem cls_reads (henv : env.Faithful)
    (hc : env.findPublicName c = some (requirePath, name)) (hlimit : limit ≤ full.length)
    (hpath : Short requirePath) (hname : Short name)
    (h : At full p (counted requirePath ++ counted name)) :
    Decodes limit (Decoder.cls env (full.take limit) limit) ⟨p, files⟩
      ⟨p + (counted requirePath ++ counted name).length, files⟩ c := by
  have hfirst := string_reads files hlimit hpath h.left
  have hsecond := string_reads files hlimit hname h.right
  rw [List.length_append, ← Nat.add_assoc]
  refine hfirst.bind (hsecond.bind ?_)
  rw [henv.found c requirePath name hc]
  exact Reads.pure

/-- The files that are left when the argument was read. -/
def leftBy (files : Files F) (name : Str) : Files F :=
  if 0 < name.length then Function.update files name none else files

theorem config_reads (hlimit : limit ≤ full.length) (hname : Short name)
    (hstands : Stands env files name arg) (h : At full p (counted name)) :
    Decodes limit (Decoder.config env (full.take limit) limit) ⟨p, files⟩
      ⟨p + (counted name).length, leftBy files name⟩ arg := by
  have hstring := string_reads files hlimit hname h
  unfold Stands at hstands
  unfold Decoder.config leftBy
  by_cases hlength : 0 < name.length
  · rw [if_pos hlength] at hstands ⊢
    refine hstring.bind (Reads.of_eq ?_ rfl)
    simp only [if_pos hlength, bind, StateT.bind, get, getThe, MonadStateOf.get, StateT.get, pure,
      Except.pure, Except.bind]
    simp only [bind] at hstands
    rw [hstands]
    rfl
  · rw [if_neg hlength] at hstands ⊢
    cases hstands
    refine hstring.bind ?_
    rw [if_neg hlength]
    exact Reads.pure

/-! ## Actions -/

variable {env : Env C V F} {fileName : Str} {enc : StateT (Encoder F) (Except CodecRaise) (List UInt8)}
  {args : List (Option (Arg C V))}

/-- The computation collects the bytes and returns all that was collected. -/
def Collects (x : StateT (Encoder F) (Except CodecRaise) (List UInt8)) (files files' : Files F)
    (bytes : List UInt8) : Prop :=
  ∀ out, ∃ e, x ⟨out, files⟩ = .ok (out.flatten ++ bytes, e) ∧ e.files = files'

theorem Writes.collect (h : Writes x files files' bytes v)
    (h' : Collects (g v) files' files'' more) :
    Collects (x >>= g) files files'' (bytes ++ more) := by
  intro out
  obtain ⟨out', hx, hout'⟩ := h out
  obtain ⟨e, hg, he⟩ := h' out'
  refine ⟨e, ?_, he⟩
  rw [hout', append_assoc] at hg
  simp only [Bind.bind, StateT.bind, hx]
  exact hg

/-- What the encoder collects, the decoder takes for the arguments `args`. -/
def Carries (env : Env C V F) (enc : StateT (Encoder F) (Except CodecRaise) (List UInt8))
    (dec : Codec C V (Decoder F) (List (Option (Arg C V))) →
      StateT (Decoder F) (Except CodecRaise) A) (files : Files F) (v : A) : Prop :=
  ∃ bytes files' files'', Collects enc files files' bytes ∧
    ∀ full limit p, At full p bytes → limit ≤ full.length →
      Decodes limit (dec (decoder env (full.take limit) limit)) ⟨p, files'⟩
        ⟨p + bytes.length, files''⟩ v

theorem carries_finish (given : List (Option (Arg C V))) :
    Carries env ((encoder env fileName).finish given) (fun d => d.finish args) files args := by
  refine ⟨[], files, files, fun out => ⟨⟨out, files⟩, ?_, rfl⟩, fun _ _ _ _ _ => Reads.pure⟩
  rw [append_nil]
  rfl

theorem Carries.bind {m : StateT (Encoder F) (Except CodecRaise) A} {a : A}
    {r : Codec C V (Decoder F) (List (Option (Arg C V))) → StateT (Decoder F) (Except CodecRaise) B}
    {b : B} {k : Codec C V (Decoder F) (List (Option (Arg C V))) → B →
      StateT (Decoder F) (Except CodecRaise) (List (Option (Arg C V)))}
    (hwrites : Writes m files files bytes a)
    (hreads : ∀ files full limit p, At full p bytes → limit ≤ full.length →
      Decodes limit (r (decoder env (full.take limit) limit)) ⟨p, files⟩
        ⟨p + bytes.length, files⟩ b)
    (h : Carries env (g a) (fun d => k d b) files args) :
    Carries env (m >>= g) (fun d => r d >>= k d) files args := by
  obtain ⟨more, files', files'', hcollects, hdecodes⟩ := h
  refine ⟨bytes ++ more, files', files'', hwrites.collect hcollects, ?_⟩
  intro full limit p hat hlimit
  have hfirst := hreads files' full limit p hat.left hlimit
  have hrest := hdecodes full limit _ hat.right hlimit
  rw [List.length_append, ← Nat.add_assoc]
  exact hfirst.bind hrest

section Shapes

variable {a b c : Str}

theorem codec_string_writes (a : Str) :
    Writes ((encoder env fileName).string (some a)) files files (counted a) none :=
  given_writes (string_writes a)

theorem codec_string_reads (ha : Short a) (files : Files F) (full : List UInt8) (limit p : Nat)
    (hat : At full p (counted a)) (hlimit : limit ≤ full.length) :
    Decodes limit ((decoder env (full.take limit) limit).string none) ⟨p, files⟩
      ⟨p + (counted a).length, files⟩ (some a) :=
  (string_reads files hlimit ha hat).bind Reads.pure

theorem noArgument_carries :
    Carries env (noArgument (encoder env fileName)) (fun d => noArgument d) files [] :=
  carries_finish _

theorem oneString_carries (ha : Short a) :
    Carries env (oneString (encoder env fileName) (some a)) (fun d => oneString d none) files
      [some (.string a)] := by
  exact .bind (codec_string_writes a) (codec_string_reads ha) (carries_finish _)

theorem twoStrings_carries (ha : Short a) (hb : Short b) :
    Carries env (twoStrings (encoder env fileName) (some a) (some b))
      (fun d => twoStrings d none none) files [some (.string a), some (.string b)] := by
  exact .bind (codec_string_writes a) (codec_string_reads ha)
    (.bind (codec_string_writes b) (codec_string_reads hb) (carries_finish _))

theorem threeStrings_carries (ha : Short a) (hb : Short b) (hc : Short c) :
    Carries env (threeStrings (encoder env fileName) (some a) (some b) (some c))
      (fun d => threeStrings d none none none) files
      [some (.string a), some (.string b), some (.string c)] := by
  exact .bind (codec_string_writes a) (codec_string_reads ha)
    (.bind (codec_string_writes b) (codec_string_reads hb)
      (.bind (codec_string_writes c) (codec_string_reads hc) (carries_finish _)))

theorem withBlob_carries {blob : List UInt8} (ha : Short a) (hb : Short b) (hblob : Short blob) :
    Carries env (callAppMethodWithBlob (encoder env fileName) (some a) (some b) (some blob))
      (fun d => callAppMethodWithBlob d none none none) files
      [some (.string a), some (.string b), some (.blob blob)] := by
  refine .bind (codec_string_writes a) (codec_string_reads ha)
    (.bind (codec_string_writes b) (codec_string_reads hb) ?_)
  have hwrites files : Writes ((encoder env fileName).blob (some blob)) files files
      (counted blob) none := given_writes (blob_writes blob)
  refine .bind (b := some blob) (hwrites _) ?_ (carries_finish _)
  intro files full limit p hat hlimit
  exact (string_reads files hlimit hblob hat).bind Reads.pure

variable {c : C} {arg : Option V} (henv : env.Faithful) (hname : 0 < fileName.length)
  (hshort : Short fileName)
include henv hname hshort

/-- The argument comes last, for its file is gone when it was read. -/
theorem config_carries {given read : Option V → List (Option (Arg C V))} (h : env.Compiles c arg) :
    Carries env ((encoder env fileName).config (some c) arg >>= fun config =>
        (encoder env fileName).finish (given config))
      (fun d => d.config none none >>= fun config => d.finish (read config)) files (read arg) := by
  obtain ⟨name, files', hwrites, hsmall, hstands⟩ :=
    config_writes files henv hname hshort h
  have hgiven : Writes ((encoder env fileName).config (some c) arg) files files' (counted name)
      none := given_writes hwrites
  have hfinish : Collects ((encoder env fileName).finish (given none)) files' files' [] :=
    fun out => ⟨⟨out, files'⟩, by rw [append_nil]; rfl, rfl⟩
  refine ⟨counted name ++ [], files', leftBy files' name, hgiven.collect hfinish, ?_⟩
  intro full limit p hat hlimit
  rw [append_nil] at hat ⊢
  exact (config_reads hlimit hsmall hstands hat).bind Reads.pure

theorem appWithConfig_carries (ha : Short a) (hc : env.Named c) (harg : env.Compiles c arg) :
    Carries env (appWithConfig (encoder env fileName) (some a) (some c) arg)
      (fun d => appWithConfig d none none none) files
      [some (.string a), some (.cls c), arg.map .value] := by
  obtain ⟨requirePath, name, hfind, hpath, hclass⟩ := hc
  have hwrites files : Writes ((encoder env fileName).cls (some c)) files files
      (counted requirePath ++ counted name) none := given_writes (cls_writes hfind)
  refine .bind (codec_string_writes a) (codec_string_reads ha) ?_
  refine .bind (b := some c) (hwrites _) ?_ (config_carries henv hname hshort harg)
  intro files full limit p hat hlimit
  exact (cls_reads henv hfind hlimit hpath hclass hat).bind Reads.pure

end Shapes

/-- **Every action is carried.** -/
theorem call_carries {action : Action C V} (files : Files F) (henv : env.Faithful)
    (hname : 0 < fileName.length) (hshort : Short fileName) (h : Encodable env action) :
    Carries env (call (encoder env fileName) action) (fun d => callBare d action.name) files
      action.args := by
  cases action with
  | unlinkOutput a b | unlinkInput a b => exact twoStrings_carries h.1 h.2
  | freeLink a | newLink a | stopApp a => exact oneString_carries h
  | linkOutput a b c | linkInput a b c => exact threeStrings_carries h.1 h.2.1 h.2.2
  | startApp a c v | reconfigApp a c v =>
    exact appWithConfig_carries henv hname hshort h.1 h.2.1 h.2.2
  | callAppMethodWithBlob a b c => exact withBlob_carries h.1 h.2.1 h.2.2
  | commit | shutdown => exact noArgument_carries

theorem actionCodes_lt (name : ActionName) : actionCodes name < 2 ^ 32 := by
  cases name <;> decide

theorem name_of_code (name : ActionName) :
    (if actionCodes name = 0 then none else actionNames[actionCodes name - 1]?) = some name := by
  cases name <;> decide

/-- **What is encoded is decoded**, from the whole of the bytes and not from a beginning. -/
theorem nameAndArgs_reads {name : ActionName}
    (hat : At full 0 (leBytes 4 (actionCodes name) ++ more)) (hlimit : limit ≤ full.length)
    (h : At full 4 more → Decodes limit (callBare (decoder env (full.take limit) limit) name)
      ⟨4, files⟩ ⟨4 + more.length, files'⟩ args) :
    Decodes limit (nameAndArgs env (full.take limit) limit) ⟨0, files⟩
      ⟨4 + more.length, files'⟩ (name, args) := by
  have hcode := uint32_reads files hlimit (actionCodes_lt name) hat.left
  have hrest := hat.right
  refine hcode.bind ?_
  rw [name_of_code]
  exact (h hrest).bind Reads.pure

/-- **An action survives its encoding.** It is decoded to the same name and arguments from exactly
the bytes it was encoded to, and each proper beginning of these is refused, without a look behind
its end. -/
theorem action_round_trip (env : Env C V F) (henv : env.Faithful) (root resolved : Str)
    (hshort : Short (randomFileName root resolved)) (files : Files F) (action : Action C V)
    (h : Encodable env action) :
    ∃ bytes files', encode env (randomFileName root resolved) files action = .ok (bytes, files') ∧
      (∃ files'', decode env bytes bytes.length files' =
        .ok ((action.name, action.args), ⟨bytes.length, files''⟩)) ∧
      ∀ k < bytes.length, decode env (bytes.take k) k files' = .error .assertion := by
  have hname : 0 < (randomFileName root resolved).length := by simp [randomFileName]
  obtain ⟨more, files', files'', hcollects, hdecodes⟩ :=
    call_carries files henv hname hshort h
  have hcode : Writes (Encoder.uint32 (actionCodes action.name)) files files
      (leBytes 4 (actionCodes action.name)) () := insert_writes
  obtain ⟨out, hout, hflat⟩ := hcode []
  obtain ⟨e, hcall, rfl⟩ := hcollects out
  set bytes := leBytes 4 (actionCodes action.name) ++ more with hbytes
  have hlength : 4 + more.length = bytes.length := by
    rw [List.length_append, length_leBytes]
  have hreads limit (hlimit : limit ≤ bytes.length) :
      Decodes limit (nameAndArgs env (bytes.take limit) limit) ⟨0, e.files⟩
        ⟨bytes.length, files''⟩ (action.name, action.args) := by
    rw [← hlength]
    exact nameAndArgs_reads (at_zero bytes) hlimit fun hat => hdecodes bytes limit 4 hat hlimit
  refine ⟨bytes, e.files, ?_, ⟨files'', ?_⟩, ?_⟩
  · rw [hflat] at hcall
    unfold encode
    rw [hout]
    exact bind_of_eq_ok hcall
  · have hall := (hreads bytes.length le_rfl).returns le_rfl
    rwa [take_length] at hall
  · intro k hk
    exact (hreads k hk.le).raises (Nat.zero_le k) hk

/-- One class, `Tee` of the module `b`, and arguments that are tables of bytes. -/
def sampleEnv : Env Unit (List UInt8) (List UInt8) where
  yangSchema _ := none
  findPublicName _ := some ([98], [84, 101, 101])
  requireModule _ := none
  requireMember requirePath name :=
    if requirePath = [98] ∧ name = [84, 101, 101] then some () else none
  luaType _ := .table
  compileConfig _ _ := none
  compileAdHoc v := some v
  load file := some (some file)

theorem sampleEnv_faithful : sampleEnv.Faithful where
  found := by
    intro c requirePath name h
    cases h
    rfl
  loaded := by
    intro schema arg file h
    cases h
  loadedAdHoc := by
    intro v file h
    cases h
    rfl

/-- Starting the app `a` with the argument `{1, 2}`. -/
theorem sample_action_round_trip :
    ∃ bytes files', encode sampleEnv (randomFileName [47] [120]) (fun _ => none)
        (.startApp [97] () (some [1, 2])) = .ok (bytes, files') ∧
      (∃ files'', decode sampleEnv bytes bytes.length files' =
        .ok ((.startApp, [some (.string [97]), some (.cls ()), some (.value [1, 2])]),
          ⟨bytes.length, files''⟩)) ∧
      ∀ k < bytes.length, decode sampleEnv (bytes.take k) k files' = .error .assertion :=
  action_round_trip sampleEnv sampleEnv_faithful [47] [120] (by decide) (fun _ => none)
    (.startApp [97] () (some [1, 2]))
    ⟨by decide, ⟨[98], [84, 101, 101], rfl, by decide, by decide⟩, by decide, rfl⟩

end ActionCodec

end Snabb
