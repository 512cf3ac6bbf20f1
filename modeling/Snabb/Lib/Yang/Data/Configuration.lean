import Snabb.Lib.Yang.Data.RoundTrip

/-!
# The round trip of a configuration (`lib/yang/data.lua`)

At the top of a text the loops of `data_parser_from_grammar` read what their nodes read elsewhere.

- `printerOf_valid`: printed statements have names for their keywords;
- `dataParser_struct`, `dataParser_list`: what a printed text is read as;
- `text_round_trip_iff`: a configuration is brought back by its text if and only if it is `Good`.
-/

namespace Snabb

open Foundation List
open Option (bind_eq_some_iff some.inj)

namespace Yang

variable {env : Env} {printDefault : Bool} {n : Nat}

/-! ## Printed statements -/

/-- Whatever the printer prints has names for its keywords. -/
def PrintsValid (printer : Printer) : Prop :=
  ∀ d ps, printer d = some ps → ∀ p ∈ ps, p.Valid

variable {children : List (Str × Payload)}

theorem bodyPrinter_valid {entries : List (Member Printer)} {fields : Fields}
    (hentries : ∀ e ∈ entries, isIdentifier e.name = true ∧ PrintsValid e.node)
    (h : bodyPrinter entries fields = some children) :
    ∀ c ∈ children, isIdentifier c.1 = true ∧ c.2.Valid := by
  obtain ⟨statements, hstatements, h⟩ := bind_eq_some_iff.mp h
  cases h
  intro c hc
  obtain ⟨block, hblock, hc⟩ := mem_flatten.mp hc
  obtain ⟨e, he, heq⟩ := exists_of_mapM hstatements hblock
  obtain ⟨hname, hvalid⟩ := hentries e ((mem_insertionSort _).mp he)
  cases hd : fields e.id with
  | none =>
    simp only [hd] at heq
    cases heq
    cases hc
  | some d =>
    simp only [hd] at heq
    obtain ⟨ps, hps, heq⟩ := bind_eq_some_iff.mp heq
    cases heq
    obtain ⟨p, hp, rfl⟩ := mem_map.mp hc
    exact ⟨hname, hvalid d ps hps p hp⟩

theorem block_valid
    (h : ∀ c ∈ children, isIdentifier c.1 = true ∧ c.2.Valid) : (Payload.block children).Valid :=
  .block children (fun c hc => (h c hc).1) fun c hc => (h c hc).2

theorem scalarPrinter_valid (s : Scalar) :
    PrintsValid (scalarPrinter env.toProtocol printDefault s) := by
  intro d ps h p hp
  obtain ⟨v, text, -, -, rfl⟩ := scalarPrinter_eq_some h
  split_ifs at hp
  · cases hp
  · obtain rfl := mem_singleton.mp hp
    exact .argument text

theorem printers_valid {members : List (Str × Grammar)}
    (hnames : ∀ e ∈ expand members, isIdentifier e.name = true)
    (h : ∀ e ∈ expand members, PrintsValid (printerOf env.toProtocol printDefault e.node)) :
    ∀ e ∈ printers env printDefault members, isIdentifier e.name = true ∧ PrintsValid e.node := by
  intro _ hmem
  obtain ⟨e, he, rfl⟩ := mem_map.mp hmem
  exact ⟨hnames e he, h e he⟩

variable {g : Grammar} {text : Str} {ps : List Payload} {b : Bool} {t : Text} {s : Scalar}
  {name : String} {primitive : Primitive}

/-- **Printed statements have names for their keywords.** -/
theorem printerOf_valid (hg : g.WellFormed) (hprintable : g.Printable) :
    PrintsValid (printerOf env.toProtocol printDefault g) := by
  induction g using Grammar.induction with
  | scalar s => exact scalarPrinter_valid s
  | array elementType =>
    intro d ps h p hp
    cases d with
    | array vs =>
      obtain ⟨v, -, hv⟩ := exists_of_mapM h hp
      obtain ⟨text, -, rfl⟩ := Option.map_eq_some_iff.mp hv
      exact .argument text
    | _ => cases h
  | struct members ih =>
    cases hg with
    | struct _ names ids wellFormed =>
    cases hprintable with
    | struct _ printable =>
    intro d ps h p hp
    rw [printerOf, printMember, printMembers_eq_printers printable] at h
    cases d with
    | struct fields =>
      obtain ⟨children, hchildren, h⟩ := bind_eq_some_iff.mp h
      cases h
      obtain rfl := mem_singleton.mp hp
      exact block_valid (bodyPrinter_valid (printers_valid names fun e he =>
        ih e he (wellFormed e he) (printable e he)) hchildren)
    | _ => cases h
  | list keys values ih =>
    cases hg with
    | list _ _ names ids wellFormed =>
    cases hprintable with
    | list _ _ printable =>
    intro d ps h p hp
    rw [printerOf_list printable] at h
    have hvalid : ∀ e ∈ printers env printDefault (listMembers keys values),
        isIdentifier e.name = true ∧ PrintsValid e.node := by
      refine printers_valid names (listMembers_induction
        (P := fun g => PrintsValid (printerOf env.toProtocol printDefault g)) ?_ fun e he =>
          ih e he (wellFormed e he) (printable e he))
      exact scalarPrinter_valid
    cases d with
    | list entries =>
      obtain ⟨entry, -, hentry⟩ := exists_of_mapM h hp
      obtain ⟨keyStatements, hkeys, hentry⟩ := bind_eq_some_iff.mp hentry
      obtain ⟨valueStatements, hvalues, hentry⟩ := bind_eq_some_iff.mp hentry
      cases hentry
      refine block_valid fun c hc => ?_
      rcases mem_append.mp hc with hc | hc
      · exact bodyPrinter_valid (fun e he => hvalid e (printers_keys_subset he)) hkeys c hc
      · exact bodyPrinter_valid (fun e he => hvalid e (printers_values_subset he)) hvalues c hc
    | _ => cases h
  | choice default mandatory leaves => cases hprintable

/-! ## Structs -/

variable {members : List (Str × Grammar)} {children : List (Str × Payload)} {d : Option Data}

theorem dataParser_struct_reads (h : dataParser env n (.struct members) text = .ok d) :
    ∃ p fields, readFields (nodes env members) p = .ok fields ∧
      d = some (.struct (structStore members fields)) := by
  have hsame : ∀ e ∈ expand members,
      Same n (visit env (textSource n) e.node) (visit env statementSource e.node) :=
    fun e _ => visit_same env n e.node
  unfold dataParser at h
  simp only [visitn_eq] at h
  obtain ⟨⟨st, t'⟩, hloop, h⟩ := bind_eq_ok h
  obtain ⟨fields, hfinish, h⟩ := bind_eq_ok h
  obtain ⟨children, hread⟩ := topLoop_reflects
    (structStep_reflects (fun e _ => visit_reflects env n e.node) hsame) n hloop
  refine ⟨.block children, fields, ?_, (Except.ok.inj h).symm⟩
  rw [structInit_same hsame] at hread
  rw [finishMembers_same hsame] at hfinish
  exact (bind_of_eq_ok hread).trans hfinish

/-- **Statements that were written are read as the block of them.** -/
theorem dataParser_struct (hvalid : Payload.Valid (.block children))
    (hn : (writeBody [] children).length < n) :
    dataParser env n (.struct members) (writeBody [] children) =
      (fun fields => some (.struct (structStore members fields))) <$>
        readFields (nodes env members) (.block children) := by
  have hsame : ∀ e ∈ expand members,
      Same n (visit env (textSource n) e.node) (visit env statementSource e.node) :=
    fun e _ => visit_same env n e.node
  have hnames : ∀ c ∈ children, isIdentifier c.1 = true := by
    cases hvalid with
    | block _ names _ => exact names
  have hloop : Gives (topLoop n (structStep ((expand members).map
      (Member.map (visit env (textSource n))))) n (structInit (nodes env members)))
      (writeBody [] children) [] (readStatements (structStep (nodes env members)) children
        (structInit (nodes env members))) := by
    have hstep := structStep_same hsame hvalid
    have hcount := lt_of_le_of_lt length_children hn
    rw [← append_nil (writeBody [] children)]
    exact topLoop_gives [] n hcount hn hnames rfl rfl hstep
  unfold dataParser readFields
  simp only [visitn_eq, structInit_same hsame, finishMembers_same hsame]
  cases hread : readStatements (structStep (nodes env members)) children
      (structInit (nodes env members)) with
  | error e =>
    have herror := Gives.eq_error (e := e) (by rw [← hread]; exact hloop) 0
    exact (congrArg (· >>= _) herror).trans rfl
  | ok st =>
    obtain ⟨column, hok⟩ := Gives.eq_ok (v := st) (by rw [← hread]; exact hloop) 0
    refine (bind_of_eq_ok hok).trans ?_
    cases finishMembers (nodes env members) st <;> rfl

/-! ## Lists -/

theorem length_flatMap_writePayload {p : Payload} (hp : p ∈ ps) :
    (writePayload [] p).length ≤ (ps.flatMap (writePayload [])).length := by
  obtain ⟨before, after, rfl⟩ := append_of_mem hp
  simp only [flatMap_append, flatMap_cons, List.length_append]
  omega

theorem length_payloads (ps : List Payload) :
    ps.length ≤ (ps.flatMap (writePayload [])).length := by
  induction ps with
  | nil => exact Nat.zero_le _
  | cons p ps ih =>
    have hp : 0 < (writePayload [] p).length := by
      cases p <;> simp [writePayload]
    rw [flatMap_cons, List.length_append, length_cons]
    omega

/-- The loop of a top-level list reads the blocks up to the end of the text. -/
theorem bareLoop_gives {node : Node Text} {node' : Node Payload} (ws : Str) (m : Nat)
    (hm : ps.length < m) (hn : 0 < n) (hws : ws.all isSpace = true)
    (hblocks : ∀ p ∈ ps, ∃ children, p = .block children)
    (h : ∀ p ∈ ps, ∀ out t, Gives (node.parse out) (writePayload [] p ++ t) (10 :: t)
      (Prod.fst <$> node'.parse out p)) (out : Option Acc) :
    Gives (bareLoop n node m out) (ws ++ ps.flatMap (writePayload [])) [] (feed node' out ps) := by
  induction ps generalizing ws m out with
  | nil =>
    obtain ⟨m, rfl⟩ := Nat.exists_eq_add_of_lt hm
    refine (skipWhitespace_gives hn hws rfl (by simp)).next ?_
    exact isEof_gives.next (.pure out)
  | cons p ps ih =>
    obtain ⟨m, rfl⟩ := Nat.exists_eq_add_of_lt hm
    obtain ⟨children, rfl⟩ := hblocks p mem_cons_self
    have hblock := h _ mem_cons_self out (ps.flatMap (writePayload []))
    refine (skipWhitespace_gives hn hws rfl (by simp [writePayload])).next (isEof_gives.next ?_)
    have hfeed : feed node' out (.block children :: ps) =
        (Prod.fst <$> node'.parse out (.block children)) >>= fun a => feed node' (some a) ps := by
      rw [feed, foldlM_cons]
      cases node'.parse out (.block children) <;> rfl
    rw [hfeed]
    refine hblock.bind fun a _ => ?_
    exact ih [10] _ (by rw [length_cons]; omega) rfl
      (fun p hp => hblocks p (mem_cons_of_mem _ hp))
      (fun p hp => h p (mem_cons_of_mem _ hp)) (some a)

variable {keys : List (Str × Scalar)} {values : List (Str × Grammar)}

/-- A text at the top without names stands for statements of a node. -/
theorem bare_reads {t' : Str} {out : Option Acc} {column : Nat}
    (h : bareLoop n (visit env (textSource n) g) n (visit env (textSource n) g).init ⟨text, 0⟩ =
      .ok (out, ⟨t', column⟩)) : ∃ ps, feed (node env g) (node env g).init ps = .ok out := by
  rw [(visit_same env n g).init] at h
  exact bareLoop_reflects (visit_reflects env n g) n h

/-- **Blocks that were written are read as the entries of a list.** -/
theorem dataParser_list (hblocks : ∀ p ∈ ps, ∃ children, p = .block children)
    (hvalid : ∀ p ∈ ps, p.Valid) (hn : (ps.flatMap (writePayload [])).length < n) :
    dataParser env n (.list keys values) (ps.flatMap (writePayload [])) =
      settle (node env (.list keys values)) ps := by
  have hsame := visit_same env n (.list keys values)
  have hloop : Gives (bareLoop n (visit env (textSource n) (.list keys values)) n
      (node env (.list keys values)).init) (ps.flatMap (writePayload [])) []
      (feed (node env (.list keys values)) (node env (.list keys values)).init ps) := by
    refine bareLoop_gives [] n (lt_of_le_of_lt (length_payloads ps) hn) (by omega) rfl hblocks ?_ _
    intro p hp out t
    obtain ⟨children, rfl⟩ := hblocks p hp
    exact visit_list_gives env keys values out (hvalid _ hp)
      (lt_of_le_of_lt (length_flatMap_writePayload hp) hn)
  unfold dataParser settle
  cases hfeed : feed (node env (.list keys values)) (node env (.list keys values)).init ps with
  | error e =>
    have herror := Gives.eq_error (e := e) (by rw [← hfeed]; exact hloop) 0
    exact (congrArg (· >>= _) herror).trans rfl
  | ok out =>
    obtain ⟨column, hok⟩ := Gives.eq_ok (v := out) (by rw [← hfeed]; exact hloop) 0
    exact bind_of_eq_ok hok

/-! ## Leaf-lists and leaves -/

theorem head?_dropWhile (p : UInt8 → Bool) (s : Str) : (s.dropWhile p).head?.any p = false := by
  have hhead := List.head?_dropWhile_not p s
  cases hrest : (s.dropWhile p).head? with
  | none => rfl
  | some c =>
    rw [hrest] at hhead
    exact hhead

theorem skipComments_again {m : Nat} {result : Bool} {t' : Text}
    (ht : t.rest.head?.any isSpace = false) (h : skipComments n m result t = .ok (b, t')) :
    t'.rest.head?.any isSpace = false ∧ t'.rest.head? ≠ some 47 := by
  induction m generalizing result t with
  | zero => cases h
  | succ m ih =>
    obtain ⟨slash, t₁, hcheck, h⟩ := read_bind h
    unfold check at hcheck
    split_ifs at hcheck with hslash
    · cases hcheck
      have hrest {t₂ : Text} (h : (takeWhile isSpace >>= fun _ => skipComments n m true) t₂ =
          .ok (b, t')) : t'.rest.head?.any isSpace = false ∧ t'.rest.head? ≠ some 47 := by
        obtain ⟨_, t₃, htake, h⟩ := read_bind h
        cases htake
        exact ih (head?_dropWhile isSpace t₂.rest) h
      obtain ⟨star, t₂, -, h⟩ := read_bind h
      split_ifs at h
      · obtain ⟨_, t₃, -, h⟩ := read_bind h
        exact hrest h
      · obtain ⟨_, t₃, -, h⟩ := read_bind h
        exact hrest h
    · cases hcheck
      cases h
      exact ⟨ht, hslash⟩

theorem skipWhitespace_again {t' : Text} (h : skipWhitespace n t = .ok (b, t')) :
    Gives (skipWhitespace n) t'.rest t'.rest (.ok false) := by
  obtain ⟨space, t₁, htake, h⟩ := read_bind h
  cases htake
  have hn : 0 < n := by
    rcases Nat.eq_zero_or_pos n with rfl | hn
    · cases h
    · exact hn
  obtain ⟨hrest, hcomment⟩ := skipComments_again (head?_dropWhile isSpace t.rest) h
  exact skipWhitespace_gives (s := []) hn rfl hrest hcomment

variable {elementType : ArgumentType}

/-- No value of a leaf-list is read at the top: whitespace was skipped where it has to be. -/
theorem dataParser_array
    (h : dataParser env n (.array elementType) text = .ok d) : d = some (.array []) := by
  obtain ⟨⟨out, t'⟩, hloop, h⟩ := bind_eq_ok h
  have hout : out = some (.array []) := by
    cases hm : n with
    | zero =>
      rw [hm] at hloop
      cases hloop
    | succ m =>
      have hloop' : bareLoop n (visit env (textSource n) (.array elementType)) (m + 1)
          (some (.array [])) ⟨text, 0⟩ = .ok (out, t') := by
        rw [← hm]
        exact hloop
      obtain ⟨b, t₁, hskip, hloop'⟩ := read_bind hloop'
      obtain ⟨ends, t₂, hends, hloop'⟩ := read_bind hloop'
      cases hends
      split_ifs at hloop'
      · exact (ok_pair_inj hloop').1.symm
      · obtain ⟨a, t₃, hparse, -⟩ := read_bind hloop'
        obtain ⟨arg, t₄, harg, -⟩ := read_bind hparse
        obtain ⟨_, t₅, hconsume, -⟩ := read_bind harg
        have hraise : Gives (consumeWhitespace n) t₁.rest t₁.rest (.error .missingWhitespace) :=
          (skipWhitespace_again hskip).next (.throw _)
        rw [hraise.eq_error] at hconsume
        cases hconsume
  rw [hout] at h
  exact (Except.ok.inj h).symm

/-- A leaf at the top is the value of its type that its text is parsed to. -/
theorem dataParser_scalar_reads (h : dataParser env n (.scalar s) text = .ok d) :
    ∃ v arg, d = some (.value v) ∧ s.argumentType.parse env.toProtocol (some arg) = .ok v := by
  obtain ⟨⟨arg, t'⟩, -, h⟩ := bind_eq_ok h
  obtain ⟨v, hv, h⟩ := bind_eq_ok h
  exact ⟨v, arg, (Except.ok.inj h).symm, hv⟩

/-- **A string that was written is read as the argument of a leaf at the top.** -/
theorem dataParser_scalar {arg : Str} (hn : (printYangString arg).length < n) :
    dataParser env n (.scalar s) (printYangString arg) =
      (fun v => some (.value v)) <$> s.argumentType.parse env.toProtocol (some arg) := by
  have htop : Gives (topScalar n) (printYangString arg) [] (.ok arg) := by
    obtain ⟨c, u, hhead, hspace, hcomment, -⟩ := printYangString_head arg []
    have hskip : Gives (skipWhitespace n) (printYangString arg ++ []) (printYangString arg ++ [])
        (.ok false) := by
      rw [hhead]
      exact skipWhitespace_gives (s := []) (by omega) rfl (by simpa using hspace)
        (by simpa using hcomment)
    rw [append_nil] at hskip
    have hstring := parseString_gives (t := []) hn rfl
    rw [append_nil] at hstring
    refine hskip.next (hstring.next ?_)
    exact (skipWhitespace_gives (s := []) (by omega) rfl rfl (by simp)).next
      (isEof_gives.next (.pure arg))
  obtain ⟨column, hok⟩ := htop.eq_ok 0
  refine (bind_of_eq_ok hok).trans ?_
  show (s.argumentType.parse env.toProtocol (some arg) >>= fun v =>
    Except.ok (some (Data.value v))) = _ <$> s.argumentType.parse env.toProtocol (some arg)
  cases s.argumentType.parse env.toProtocol (some arg) <;> rfl

/-! ## The round trip -/

/-- The text that is printed for the data is read as the data again. -/
def RoundTrips (env : Env) (printDefault : Bool) (g : Grammar) (d : Data) : Prop :=
  ∃ printer out, dataPrinter env.toProtocol printDefault g = some printer ∧ printer d = some out ∧
    ∃ rounds, ∀ n ≥ rounds, dataParser env n g out = .ok (some d)

/-- Some text is printed, and read as the data if and only if this is good. -/
def PrintedText (env : Env) (printDefault : Bool) (g : Grammar) (d : Data) : Prop :=
  ∃ printer out, dataPrinter env.toProtocol printDefault g = some printer ∧ printer d = some out ∧
    ∀ n, out.length < n →
      (dataParser env n g out = .ok (some d) ↔ Good env printDefault g (some d))

variable {d : Data}

theorem PrintedText.roundTrips_iff (h : PrintedText env printDefault g d) :
    RoundTrips env printDefault g d ↔ Good env printDefault g (some d) := by
  obtain ⟨printer, out, hprinter, hout, hiff⟩ := h
  constructor
  · rintro ⟨printer', out', hprinter', hout', rounds, hread⟩
    obtain rfl := Option.mem_unique hprinter hprinter'
    obtain rfl := Option.mem_unique hout hout'
    exact (hiff (max rounds (out.length + 1)) (by omega)).mp (hread _ (le_max_left ..))
  · intro hgood
    exact ⟨printer, out, hprinter, hout, out.length + 1, fun n hn => (hiff n (by omega)).mpr hgood⟩

/-- A printer is made of the grammars in which no choice stands in a case. -/
theorem dataPrinter_isSome_iff (g : Grammar) :
    (dataPrinter env.toProtocol printDefault g).isSome ↔ g.Printable := by
  have hmember : (printMember env.toProtocol printDefault g).isSome ↔ g.Printable :=
    printMember_isSome_iff g
  cases g with
  | struct members =>
    rw [← hmember, printMember, dataPrinter]
    cases printMembers env.toProtocol printDefault members <;> simp
  | list keys values =>
    rw [← hmember, dataPrinter]
    cases printMember env.toProtocol printDefault (.list keys values) <;> simp
  | _ =>
    rw [← hmember]
    rfl

theorem printed_struct (hinverse : env.toProtocol.Inverse)
    (hg : Grammar.WellFormed (.struct members)) (hprintable : Grammar.Printable (.struct members))
    (h : dataParser env n (.struct members) text = .ok (some d)) :
    PrintedText env printDefault (.struct members) d := by
  have hprints : PrintsValid (printerOf env.toProtocol printDefault (.struct members)) :=
    printerOf_valid hg hprintable
  cases hg with
  | struct _ names ids wellFormed =>
  cases hprintable with
  | struct _ printable =>
  obtain ⟨p, fields, hfields, hd⟩ := dataParser_struct_reads h
  cases hd
  have hobtained := readFields_obtained ids hfields
  have hreturns : ∀ e ∈ expand members, Returns env printDefault e.node :=
    fun e he => visit_returns hinverse (wellFormed e he) (printable e he)
  obtain ⟨store, hkeeps, hstore⟩ := structStore_eq env members
  have hbody := body_returns ids hreturns hkeeps hobtained
    (printOrder_perm (printers env printDefault members))
  have hchildren := bodyPrinter_fields ids hreturns hkeeps hobtained (List.Subset.refl _)
  rw [← hstore] at hchildren hbody
  generalize namedStatements (printedFields (structStore members fields))
    (printOrder (printers env printDefault members)) = children at hchildren hbody
  have hvalid : Payload.Valid (.block children) := by
    refine hprints (.struct (structStore members fields)) [.block children] ?_ _
      (mem_singleton_self _)
    rw [printerOf, printMember, printMembers_eq_printers printable]
    show (bodyPrinter _ _ >>= fun children => some [Payload.block children]) = _
    rw [hchildren]
    rfl
  have hprinter : ∃ printer, dataPrinter env.toProtocol printDefault (.struct members) =
      some printer ∧ ∀ fields, printer (.struct fields) =
        writeBody [] <$> bodyPrinter (printers env printDefault members) fields := by
    rw [dataPrinter, printMembers_eq_printers printable]
    exact ⟨_, rfl, fun _ => rfl⟩
  obtain ⟨printer, hprinter, hout⟩ := hprinter
  refine ⟨printer, writeBody [] children, hprinter, ?_, fun n hn => ?_⟩
  · rw [hout, hchildren]
    rfl
  · rw [dataParser_struct hvalid hn]
    constructor
    · intro hread
      obtain ⟨fields', hread, hsame⟩ := map_eq_ok hread
      obtain ⟨-, hgood⟩ := (hbody fields').mp ⟨hread, Data.struct.inj (some.inj hsame)⟩
      exact .struct members _ hgood.plain hgood.leaves hgood.choices
    · intro hgood
      have hgoods : GoodFields env printDefault members (structStore members fields) := by
        cases hgood with
        | struct _ _ plain leaves choices => exact ⟨plain, leaves, choices⟩
      obtain ⟨hread, hsame⟩ := (hbody _).mpr ⟨rfl, hgoods⟩
      rw [hread]
      exact congrArg (fun fields => Except.ok (some (Data.struct fields))) hsame

theorem printed_list (hinverse : env.toProtocol.Inverse)
    (hg : Grammar.WellFormed (.list keys values))
    (hprintable : Grammar.Printable (.list keys values))
    (h : dataParser env n (.list keys values) text = .ok (some d)) :
    PrintedText env printDefault (.list keys values) d := by
  obtain ⟨⟨out, t'⟩, hloop, hfinish⟩ := bind_eq_ok h
  obtain ⟨given, hfeed⟩ := bare_reads hloop
  have hobtained : Obtained env (.list keys values) (some d) := by
    refine .inl ⟨given, (bind_of_eq_ok hfeed).trans ?_⟩
    exact hfinish
  have hreturns : Returns env printDefault (.list keys values) :=
    visit_returns hinverse hg hprintable
  obtain ⟨ps, hps, hiff⟩ := hreturns (fun _ v => v) keeps_none (some d) hobtained
  have hprinted : printerOf env.toProtocol printDefault (.list keys values) d = some ps := hps
  have hvalid := printerOf_valid hg hprintable d ps hprinted
  have hprinter : printMember env.toProtocol printDefault (.list keys values) =
      some (printerOf env.toProtocol printDefault (.list keys values)) :=
    printMember_eq ((printMember_isSome_iff _).mpr hprintable)
  have hblocks : ∀ p ∈ ps, ∃ children, p = .block children := by
    intro p hp
    cases hprintable with
    | list _ _ printable =>
    rw [printerOf_list printable] at hprinted
    cases d with
    | list entries =>
      obtain ⟨entry, -, hentry⟩ := exists_of_mapM hprinted hp
      obtain ⟨keyStatements, -, hentry⟩ := bind_eq_some_iff.mp hentry
      obtain ⟨valueStatements, -, hentry⟩ := bind_eq_some_iff.mp hentry
      exact ⟨_, (some.inj hentry).symm⟩
    | _ => cases hprinted
  refine ⟨fun d => (fun ps => ps.flatMap (writePayload [])) <$>
    printerOf env.toProtocol printDefault (.list keys values) d,
    ps.flatMap (writePayload []), ?_, ?_, fun n hn => ?_⟩
  · rw [dataPrinter, hprinter]
    rfl
  · exact congrArg (fun r => (fun ps => ps.flatMap (writePayload [])) <$> r) hprinted
  · rw [dataParser_list hblocks hvalid hn]
    have hread := hiff (some d)
    simpa [storeField] using hread

theorem printed_array (h : dataParser env n (.array elementType) text = .ok (some d)) :
    PrintedText env printDefault (.array elementType) d := by
  obtain rfl := some.inj (dataParser_array h)
  refine ⟨_, [], rfl, rfl, fun n hn => ?_⟩
  refine ⟨fun _ => .array elementType [], fun _ => ?_⟩
  obtain ⟨m, rfl⟩ := Nat.exists_eq_add_of_lt hn
  rfl

theorem printed_scalar (hinverse : env.toProtocol.Inverse)
    (h : dataParser env n (.scalar s) text = .ok (some d)) :
    PrintedText env printDefault (.scalar s) d := by
  obtain ⟨v, arg, hd, hv⟩ := dataParser_scalar_reads h
  cases hd
  have hfits : s.argumentType.primitive.Fits env.toProtocol v :=
    Primitive.parse_fits (ArgumentType.parse_eq_ok.mp hv).1
  obtain ⟨out, hout⟩ := Primitive.exists_tostring hfits
  refine ⟨_, printYangString out, rfl, ?_, fun n hn => ?_⟩
  · show printYangString <$> s.argumentType.primitive.tostring env.toProtocol v = _
    rw [hout]
    rfl
  · rw [dataParser_scalar hn, good_scalar_iff, ← ArgumentType.parse_tostring hinverse hfits hout]
    constructor
    · intro hread
      obtain ⟨w, hw, hsame⟩ := map_eq_ok hread
      cases hsame
      exact hw
    · intro hread
      rw [hread]
      rfl

/-- **A configuration that was read is brought back by its text if and only if it is good and no
choice of its grammar stands in a case.** -/
theorem text_round_trip_iff (hinverse : env.toProtocol.Inverse) {g : Grammar} (hg : g.WellFormed)
    {text : Str} {d : Data} (h : dataParser env n g text = .ok (some d)) :
    RoundTrips env printDefault g d ↔ g.Printable ∧ Good env printDefault g (some d) := by
  have hprinted (hprintable : g.Printable) : PrintedText env printDefault g d := by
    cases g with
    | scalar s => exact printed_scalar hinverse h
    | array elementType => exact printed_array h
    | struct members => exact printed_struct hinverse hg hprintable h
    | list keys values => exact printed_list hinverse hg hprintable h
    | choice default mandatory leaves => cases hprintable
  constructor
  · intro hreturns
    have hprintable : g.Printable := by
      obtain ⟨printer, _, hprinter, -⟩ := hreturns
      exact (dataPrinter_isSome_iff g).mp (Option.isSome_iff_exists.mpr ⟨printer, hprinter⟩)
    exact ⟨hprintable, (hprinted hprintable).roundTrips_iff.mp hreturns⟩
  · rintro ⟨hprintable, hgood⟩
    exact (hprinted hprintable).roundTrips_iff.mpr hgood

/-- A scalar without a default. -/
def plainScalar (primitive : Primitive) : Scalar :=
  ⟨⟨primitive, none, none, [], none⟩, none, false⟩

/-- A list with a key, and in it a choice of an address or a name. -/
def softwires : Grammar :=
  .struct [(str "softwire", .list [(str "id", plainScalar (.integer .uint8))]
    [(str "peer", .choice none false
      [(str "by-address", str "br-address", .scalar (plainScalar (.address .ipv4))),
        (str "by-name", str "br-name", .scalar (plainScalar .string))])])]

/-- The address `10.0.0.1`, and lists whose entries are found by their keys. -/
def oneAddress : Env where
  pton _ s := if s = str "10.0.0.1" then some 0x0100000a else none
  ntop _ _ := str "10.0.0.1"
  listed keys given entry := given.any fun e => keys.all fun (k, _) =>
    match e (normalizeId k), entry (normalizeId k) with
    | some (.value v), some (.value v') => v = v'
    | _, _ => false

theorem oneAddress_inverse : oneAddress.toProtocol.Inverse := by
  intro family s a h
  have ha : (if s = str "10.0.0.1" then some 0x0100000a else none) = some a := h
  split_ifs at ha
  exact ha

theorem softwires_wellFormed : softwires.WellFormed := by
  refine .struct _ (fun e he => ?_) (nodup_singleton _) fun e he => ?_
  all_goals obtain rfl := mem_singleton.mp he
  · rfl
  · refine .list _ _ (by decide +kernel) (by decide +kernel) fun e he => ?_
    simp [expand] at he
    rcases he with rfl | rfl <;> exact .scalar _

/-- Of two entries, one with an address and one with a name, the text is brought back. -/
theorem text_round_trip_iff_softwires : ∃ d,
    dataParser oneAddress 80 softwires
      (str "softwire { id 1; br-address 10.0.0.1; } softwire { id 2; br-name b; }") =
        .ok (some d) ∧
      (RoundTrips oneAddress false softwires d ↔
        softwires.Printable ∧ Good oneAddress false softwires (some d)) := by
  obtain ⟨d, hd, hsome⟩ := ok_of_any (q := Option.isSome) (by decide +kernel :
    (dataParser oneAddress 80 softwires (str
      "softwire { id 1; br-address 10.0.0.1; } softwire { id 2; br-name b; }")).toOption.any
        Option.isSome = true)
  cases d with
  | none => cases hsome
  | some d => exact ⟨d, hd, text_round_trip_iff oneAddress_inverse softwires_wellFormed hd⟩

/-- A struct with a leaf of one type. -/
def leafGrammar (name : String) (primitive : Primitive) : Grammar :=
  .struct [(str name, .scalar (plainScalar primitive))]

theorem leafGrammar_wellFormed
    (hname : isIdentifier (str name) = true) : (leafGrammar name primitive).WellFormed := by
  refine .struct _ (fun e he => ?_) (nodup_singleton _) fun e he => ?_
  all_goals obtain rfl := mem_singleton.mp he
  · exact hname
  · exact .scalar _

theorem leafGrammar_printable : (leafGrammar name primitive).Printable := by
  refine .struct _ fun e he => ?_
  obtain rfl := mem_singleton.mp he
  exact .scalar _

/-- Addresses of which there are none. -/
def noAddresses : Env := ⟨⟨fun _ _ => none, fun _ _ => []⟩, fun _ _ _ => false⟩

theorem noAddresses_inverse : noAddresses.toProtocol.Inverse := nofun

/-- A leaf without a value is printed with one, which is not read again. -/
theorem empty_leaf_lost : ∃ d,
    dataParser noAddresses 20 (leafGrammar "e" .empty) (str "e;") = .ok (some d) ∧
      ¬ RoundTrips noAddresses false (leafGrammar "e" .empty) d := by
  have hread : ∃ d, dataParser noAddresses 20 (leafGrammar "e" .empty) (str "e;") = .ok (some d) ∧
      ∃ fields v, d = .struct fields ∧ fields (str "e") = some (.value v) :=
    ⟨_, rfl, _, _, rfl, rfl⟩
  obtain ⟨d, hd, fields, v, rfl, hv⟩ := hread
  refine ⟨_, hd, fun hreturns => ?_⟩
  have hprinted : PrintedText noAddresses false (leafGrammar "e" .empty) (.struct fields) :=
    printed_struct noAddresses_inverse (leafGrammar_wellFormed rfl) leafGrammar_printable hd
  cases hprinted.roundTrips_iff.mp hreturns with
  | struct _ _ plain _ _ =>
    have hgood := plain _ (mem_singleton_self _) rfl
    have hfield : Good noAddresses false (.scalar (plainScalar .empty))
        (some (.value v)) := by
      rw [← hv]
      exact hgood
    exact (good_scalar_iff.mp hfield).1 rfl

end Yang

end Snabb
