import Snabb.Lib.Yang.Data.Members

/-!
# What is printed for a struct (`lib/yang/data.lua`)

The statements of a struct are printed in the order of the names, but under each name there stands
what is printed for its member.

- `bodyPrinter_eq_some`: the statements of a struct;
- `payloadsOf_printed`: the statements of one of its members;
- `printMember_isSome_iff`: the grammars that have a printer.
-/

namespace Snabb

open Foundation List

namespace Yang

variable {protocol : Protocol} {printDefault : Bool}

/-! ## Grammars with a printer -/

/-- No choice stands in a case of a choice. -/
inductive Grammar.Printable : Grammar → Prop
  | scalar (s : Scalar) : Printable (.scalar s)
  | array (elementType : ArgumentType) : Printable (.array elementType)
  | struct (members : List (Str × Grammar)) (h : ∀ e ∈ expand members, Printable e.node) :
    Printable (.struct members)
  | list (keys : List (Str × Scalar)) (values : List (Str × Grammar))
    (h : ∀ e ∈ expand values, Printable e.node) : Printable (.list keys values)

/-- The printer of a grammar that has one. -/
def printerOf (protocol : Protocol) (printDefault : Bool) (g : Grammar) : Printer :=
  (printMember protocol printDefault g).getD fun _ => none

theorem printMember_eq {g : Grammar} (h : (printMember protocol printDefault g).isSome) :
    printMember protocol printDefault g = some (printerOf protocol printDefault g) := by
  obtain ⟨pr, hpr⟩ := Option.isSome_iff_exists.mp h
  rw [printerOf, hpr]
  rfl

/-- The printer of an expanded member. -/
def printEntry (protocol : Protocol) (printDefault : Bool) (e : Member Grammar) :
    Option (Member Printer) :=
  (fun pr => ⟨e.name, e.choice, pr⟩) <$> printMember protocol printDefault e.node

theorem printLeaves_eq (k : Str) (default : Option Str) (mandatory : Bool)
    (leaves : List (Str × Str × Grammar)) :
    printLeaves protocol printDefault k default mandatory leaves =
      (leaves.map fun (case, name, g) => ⟨name, some ⟨k, case, default, mandatory⟩, g⟩).mapM
        (printEntry protocol printDefault) := by
  induction leaves with
  | nil => rfl
  | cons leaf leaves ih =>
    obtain ⟨case, name, g⟩ := leaf
    rw [printLeaves, ih, map_cons, mapM_cons, printEntry]
    cases printMember protocol printDefault g <;> rfl

theorem printMembers_eq_mapM (members : List (Str × Grammar)) :
    printMembers protocol printDefault members =
      (expand members).mapM (printEntry protocol printDefault) := by
  induction members with
  | nil => rfl
  | cons member members ih =>
    obtain ⟨k, g⟩ := member
    unfold expand at ih ⊢
    rw [flatMap_cons, mapM_append, ← ih]
    cases g with
    | choice default mandatory leaves =>
      rw [printMembers, printLeaves_eq]
      rfl
    | _ =>
      rw [printMembers]
      · simp only [mapM_cons, printEntry]
        cases printMember protocol printDefault _ <;> rfl
      · simp

variable {members : List (Str × Grammar)}

theorem printMembers_eq
    (h : ∀ e ∈ expand members, (printMember protocol printDefault e.node).isSome) :
    printMembers protocol printDefault members =
      some ((expand members).map (Member.map (printerOf protocol printDefault))) := by
  rw [printMembers_eq_mapM]
  refine mapM_eq_some_map fun e he => ?_
  rw [printEntry, printMember_eq (h e he)]
  rfl

theorem isSome_of_printMembers (h : (printMembers protocol printDefault members).isSome) :
    ∀ e ∈ expand members, (printMember protocol printDefault e.node).isSome := by
  obtain ⟨printers, hprinters⟩ := Option.isSome_iff_exists.mp h
  rw [printMembers_eq_mapM] at hprinters
  intro e he
  have hsome := isSome_of_mapM hprinters e he
  rwa [printEntry, Option.map_eq_map, Option.isSome_map] at hsome

/-- **A grammar has a printer if no choice stands in a case.** -/
theorem printMember_isSome_iff (g : Grammar) :
    (printMember protocol printDefault g).isSome ↔ g.Printable := by
  induction g using Grammar.induction with
  | scalar s => exact ⟨fun _ => .scalar s, fun _ => rfl⟩
  | array elementType => exact ⟨fun _ => .array elementType, fun _ => rfl⟩
  | struct members ih =>
    rw [printMember, Option.map_eq_map, Option.isSome_map]
    constructor
    · exact fun h => .struct members fun e he => (ih e he).mp (isSome_of_printMembers h e he)
    · rintro ⟨⟩
      next h =>
      rw [printMembers_eq fun e he => (ih e he).mpr (h e he)]
      rfl
  | list keys values ih =>
    rw [printMember, Option.map_eq_map, Option.isSome_map]
    constructor
    · exact fun h => .list keys values fun e he => (ih e he).mp (isSome_of_printMembers h e he)
    · rintro ⟨⟩
      next h =>
      rw [printMembers_eq fun e he => (ih e he).mpr (h e he)]
      rfl
  | choice default mandatory leaves => exact ⟨nofun, nofun⟩

/-! ## Statements of a struct -/

/-- What is printed for a member. -/
def fieldStatements (printer : Printer) : Option Data → Option (List Payload)
  | none => some []
  | some d => printer d

/-- The printed statements of members, with the names. -/
def namedStatements (ps : Member Printer → List Payload) (order : List (Member Printer)) :
    List (Str × Payload) :=
  order.flatMap fun e => (ps e).map fun p => (e.name, p)

variable {ps : Member Printer → List Payload}

theorem bodyPrinter_eq_some {printers : List (Member Printer)} {fields : Fields}
    (h : ∀ e ∈ printers, fieldStatements e.node (fields e.id) = some (ps e)) :
    bodyPrinter printers fields = some (namedStatements ps (printOrder printers)) := by
  refine (congrArg (· >>= fun statements => some statements.flatten) (mapM_eq_some_map
    (g := fun e => (ps e).map fun p => (e.name, p)) fun e he => ?_)).trans rfl
  have hprinted := h e ((mem_insertionSort _).mp he)
  cases hd : fields e.id with
  | none =>
    rw [hd] at hprinted
    obtain hnil : [] = ps e := Option.some.inj hprinted
    simp [← hnil]
  | some d =>
    rw [hd] at hprinted
    have hps : e.node d = some (ps e) := hprinted
    simp only [hps]
    rfl

theorem payloadsOf_append (xs ys : List (Str × Payload)) (k : Str) :
    payloadsOf (xs ++ ys) k = payloadsOf xs k ++ payloadsOf ys k := filterMap_append ..

theorem payloadsOf_named (ps : List Payload) (k k' : Str) :
    payloadsOf (ps.map fun p => (k, p)) k' = if k = k' then ps else [] := by
  unfold payloadsOf
  rw [filterMap_map]
  split_ifs with hk <;> simp [hk]

/-- **Under the name of a member stands what is printed for it.** -/
theorem payloadsOf_printed {order : List (Member Printer)}
    (hnames : (order.map Member.name).Nodup) {e : Member Printer} (he : e ∈ order) :
    payloadsOf (namedStatements ps order) e.name = ps e := by
  unfold namedStatements
  induction order with
  | nil => cases he
  | cons e' order ih =>
    rw [map_cons, nodup_cons] at hnames
    have hrest {k : Str} (hk : k ∉ order.map Member.name) :
        payloadsOf (order.flatMap fun e => (ps e).map fun p => (e.name, p)) k = [] := by
      unfold payloadsOf
      rw [filterMap_eq_nil_iff]
      intro c hc
      obtain ⟨e'', he'', hc⟩ := mem_flatMap.mp hc
      obtain ⟨p, -, rfl⟩ := mem_map.mp hc
      rw [if_neg]
      rintro rfl
      exact hk (mem_map_of_mem he'')
    rw [flatMap_cons, payloadsOf_append, payloadsOf_named]
    rcases mem_cons.mp he with rfl | he
    · rw [if_pos rfl, hrest hnames.1, append_nil]
    · rw [if_neg, nil_append, ih hnames.2 he]
      intro hname
      exact hnames.1 (hname ▸ mem_map_of_mem he)

end Yang

end Snabb
