import Snabb.Lib.XsdRegexp.Syntax

/-!
# What is parsed is written so (`lib/xsd_regexp.lua`: the parser rules)

A tree is written in more than one way only because of leading zeros in its numbers. Every rule takes
off the input what its value is written as.

- `Reads.bind`, `Reads.any`: the rules for what a parser rule takes off the input;
- `parse_reads`: the expression of a tree is one of the texts of the tree.
-/

namespace Snabb

namespace XsdRegexp

open Rule hiding some
open List

/-! ## Texts -/

def SingleChar.text : SingleChar → List Char
  | .char c => [c]
  | .escape c _ => ['\\', c]

def CharPart.text : CharPart → List Char
  | .single c => c.text
  | .multi c _ => ['\\', c]
  | .property name => '\\' :: 'p' :: '{' :: (name ++ ['}'])
  | .complement name => '\\' :: 'P' :: '{' :: (name ++ ['}'])
  | .range start stop => start.text ++ '-' :: stop.text

def CharGroup.text : CharGroup → List Char
  | .include parts => parts.flatMap CharPart.text
  | .exclude parts => '^' :: parts.flatMap CharPart.text

def CharClass.text : CharClass → List Char
  | .group g => '[' :: (g.text ++ [']'])
  | .subtract g c => '[' :: (g.text ++ '-' :: (c.text ++ [']']))

/-- The decimal numerals of a number. -/
def numerals (n : Nat) : Language Char :=
  {w | w ≠ [] ∧ (∀ c ∈ w, c ∈ ['0', '1', '2', '3', '4', '5', '6', '7', '8', '9']) ∧
    w.foldl (fun n d => 10 * n + (d.toNat - 48)) 0 = n}

/-- A quantity as it stands between the braces. -/
def Quantifier.quantity : Quantifier → Language Char
  | .exactly n => numerals n
  | .min n => numerals n * {[',']}
  | .range n m => numerals n * ({[',']} * numerals m)
  | _ => 0

def Quantifier.texts : Quantifier → Language Char
  | .optional => {['?']}
  | .all => {['*']}
  | .oneOrMore => {['+']}
  | q => {['{']} * (q.quantity * {['}']})

mutual

def Atom.texts : Atom → Language Char
  | .part p => {p.text}
  | .wildcard => {['.']}
  | .cls c => {c.text}
  | .sub re => {['(']} * (re.texts * {[')']})

def Piece.texts : Piece → Language Char
  | .mk atom none => atom.texts
  | .mk atom (some q) => atom.texts * q.texts

def Branch.texts : Branch → Language Char
  | .empty => 1
  | .cons piece rest => piece.texts * rest.texts

def RegExp.texts : RegExp → Language Char
  | .branch b => b.texts
  | .or b re => b.texts * ({['|']} * re.texts)

end

/-! ## What a rule takes off the input -/

variable {α β : Type} {p q : Rule α} {T : α → List Char → Prop} {U : β → List Char → Prop}

/-- The rule takes off the input what is related to its value. -/
def Reads (p : Rule α) (T : α → List Char → Prop) : Prop :=
  ∀ s a rest, p s = some (a, rest) → ∃ w, s = w ++ rest ∧ T a w

namespace Reads

theorem pure {b : β} (h : U b []) : Reads (Pure.pure b : Rule β) U := by
  intro s b' rest heq
  cases heq
  exact ⟨[], rfl, h⟩

theorem failure : Reads (Alternative.failure : Rule β) U := by
  intro s b rest heq
  cases heq

theorem bind {f : α → Rule β} (hp : Reads p T)
    (hf : ∀ a v, T a v → Reads (f a) fun b w => U b (v ++ w)) : Reads (p >>= f) U := by
  intro s b rest h
  obtain ⟨⟨a, mid⟩, ha, hb⟩ := Option.bind_eq_some_iff.mp h
  obtain ⟨v, rfl, hv⟩ := hp s a mid ha
  obtain ⟨w, rfl, hw⟩ := hf a v hv mid b rest hb
  exact ⟨v ++ w, (append_assoc ..).symm, hw⟩

theorem map {f : α → β} (hp : Reads p fun a w => U (f a) w) : Reads (f <$> p) U := by
  intro s b rest h
  obtain ⟨⟨a, mid⟩, ha, hb⟩ := Option.bind_eq_some_iff.mp h
  cases hb
  exact hp s a rest ha

theorem orElse (hp : Reads p T) (hq : Reads q T) : Reads (p <|> q) T := by
  intro s a rest h
  replace h : (p s).orElse (fun _ => q s) = some (a, rest) := h
  rw [Option.orElse_eq_or] at h
  rcases Option.or_eq_some_iff.mp h with h | ⟨-, h⟩
  · exact hp s a rest h
  · exact hq s a rest h

theorem element : Reads Rule.element fun c w => w = [c] := by
  intro s c rest h
  cases s with
  | nil => cases h
  | cons c' s =>
    cases h
    exact ⟨[c], rfl, rfl⟩

theorem satisfies (test : Char → Bool) :
    Reads (Rule.satisfies test) fun c w => test c = true ∧ w = [c] := by
  refine element.bind fun c v hv => ?_
  split_ifs with htest
  · exact .pure ⟨htest, by rw [hv, append_nil]⟩
  · exact .failure

theorem equal (x : Char) : Reads (Rule.equal x) fun _ w => w = [x] := by
  intro s c rest h
  obtain ⟨w, hs, hx, hw⟩ := satisfies _ s c rest h
  exact ⟨w, hs, hw.trans (congrArg (fun y => [y]) (eq_of_beq hx).symm)⟩

theorem not : Reads (Rule.not p) fun c w => w = [c] := by
  intro s c rest h
  unfold Rule.not at h
  split_ifs at h
  exact element s c rest h

theorem diff {r : Rule β} (hp : Reads p T) : Reads (Rule.diff p r) T := by
  intro s a rest h
  unfold Rule.diff at h
  split_ifs at h
  exact hp s a rest h

theorem maybe {U : Option α → List Char → Prop} (hp : Reads p fun a w => U (some a) w)
    (hnone : U none []) : Reads (Rule.maybe p) U :=
  hp.map.orElse (.pure hnone)

/-- What a repetition takes off is put together from what its rule takes off. -/
theorem any {U : List α → List Char → Prop} (hp : Reads p T) (hnil : U [] [])
    (hcons : ∀ a as v w, T a v → U as w → U (a :: as) (v ++ w)) : Reads (Rule.any p) U := by
  have hrounds : ∀ n s, ∃ w, s = w ++ (anyRounds p n s).2 ∧ U (anyRounds p n s).1 w := by
    intro n
    induction n with
    | zero => exact fun s => ⟨[], rfl, hnil⟩
    | succ n ih =>
      intro s
      rw [anyRounds]
      cases h : p s with
      | none => exact ⟨[], rfl, hnil⟩
      | some r =>
        obtain ⟨a, rest⟩ := r
        obtain ⟨v, rfl, hv⟩ := hp s a rest h
        obtain ⟨w, hw, hU⟩ := ih rest
        refine ⟨v ++ w, ?_, hcons a _ v w hv hU⟩
        rw [append_assoc]
        exact congrArg (v ++ ·) hw
  intro s as rest h
  obtain ⟨w, hs, hU⟩ := hrounds s.length s
  rw [show anyRounds p s.length s = (as, rest) from Option.some.inj h] at hs hU
  exact ⟨w, hs, hU⟩

theorem some {U : List α → List Char → Prop} (hany : Reads (Rule.any p) U) (hnil : p [] = none) :
    Reads (Rule.some p) fun as w => as ≠ [] ∧ U as w := by
  intro s as rest h
  unfold Rule.some at h
  split_ifs at h with hsome
  obtain ⟨w, hs, hU⟩ := hany s as rest h
  refine ⟨w, hs, ?_, hU⟩
  rintro rfl
  cases s with
  | nil =>
    rw [hnil] at hsome
    cases hsome
  | cons c s =>
    have heq : anyRounds p (s.length + 1) (c :: s) = ([], rest) := Option.some.inj h
    rw [anyRounds] at heq
    cases hr : p (c :: s) with
    | none =>
      rw [hr] at hsome
      cases hsome
    | some r =>
      rw [hr] at heq
      cases heq

end Reads

/-- Characters that are repeated are what was taken off. -/
theorem reads_chars (test : Char → Bool) : Reads (Rule.any (satisfies test)) fun cs w =>
    w = cs ∧ ∀ c ∈ cs, test c = true :=
  (Reads.satisfies test).any ⟨rfl, forall_mem_nil _⟩ fun c cs v w ⟨hc, hv⟩ ⟨hw, hcs⟩ =>
    ⟨by rw [hv, hw]; rfl, forall_mem_cons.mpr ⟨hc, hcs⟩⟩

/-! ## Quantifiers -/

theorem reads_quantExact : Reads quantExact fun n w => w ∈ numerals n := by
  intro s n rest h
  obtain ⟨⟨digits, mid⟩, hdigits, hn⟩ := Option.bind_eq_some_iff.mp h
  cases hn
  obtain ⟨w, hs, hne, rfl, hall⟩ := (reads_chars _).some rfl s digits rest hdigits
  exact ⟨w, hs, hne, fun c hc => of_decide_eq_true (hall c hc), rfl⟩

theorem reads_quantity : Reads quantity fun q w => w ∈ q.quantity := by
  have hcomma := Reads.equal ','
  refine .orElse ?_ (.orElse ?_ (.map reads_quantExact))
  · refine reads_quantExact.bind fun n v hv => hcomma.bind fun _ c hc =>
      reads_quantExact.bind fun m w hw => .pure ?_
    rw [append_nil]
    exact Language.append_mem_mul hv (Language.append_mem_mul hc hw)
  · refine reads_quantExact.bind fun n v hv => hcomma.bind fun _ c hc => .pure ?_
    rw [append_nil]
    exact Language.append_mem_mul hv hc

theorem reads_quantifier : Reads quantifier fun q w => w ∈ q.texts := by
  have hmark (x : Char) (q : Quantifier) (hq : q.texts = {[x]}) :
      Reads (do let _ ← Rule.equal x; pure q) fun q w => w ∈ q.texts := by
    refine (Reads.equal x).bind fun _ v hv => .pure ?_
    rw [append_nil, hq]
    exact hv
  refine (hmark '?' .optional rfl).orElse <| (hmark '*' .all rfl).orElse <|
    (hmark '+' .oneOrMore rfl).orElse ?_
  refine (Reads.equal '{').bind fun _ u hu => reads_quantity.bind fun q v hv =>
    (Reads.equal '}').bind fun _ w hw => .pure ?_
  have hbraces := Language.append_mem_mul (l := {['{']}) hu
    (Language.append_mem_mul (m := {['}']}) hv hw)
  rw [append_nil]
  cases q with
  | optional | all | oneOrMore => cases hv
  | exactly | min | range => exact hbraces

/-! ## Classes -/

theorem reads_singleCharEsc : Reads singleCharEsc fun c w => w = c.text := by
  refine (Reads.equal '\\').bind fun _ u hu => Reads.element.bind fun c v hv => ?_
  split_ifs
  · exact .pure (by rw [hu, hv]; rfl)
  · exact .failure

theorem reads_singleChar : Reads singleChar fun c w => w = c.text := by
  refine reads_singleCharEsc.orElse (.diff (.map fun s c rest h => ?_))
  obtain ⟨w, hs, -, hw⟩ := Reads.satisfies _ s c rest h
  exact ⟨w, hs, hw⟩

theorem reads_charClassEsc : Reads charClassEsc fun p w => w = p.text := by
  have hname : Reads charProp fun name w => w = name := by
    intro s name rest h
    obtain ⟨w, hs, -, hw, -⟩ := (reads_chars _).some rfl s name rest h
    exact ⟨w, hs, hw⟩
  refine .orElse ?_ (.orElse ?_ ?_)
  · refine (Reads.equal '\\').bind fun _ u hu => Reads.element.bind fun c v hv => ?_
    split_ifs
    · exact .pure (by rw [hu, hv]; rfl)
    · exact .failure
  all_goals
    refine (Reads.equal '\\').bind fun _ u hu => (Reads.equal _).bind fun _ v hv =>
      (Reads.equal '{').bind fun _ w hw => hname.bind fun name x hx =>
        (Reads.equal '}').bind fun _ y hy => .pure ?_
    rw [hu, hv, hw, hx, hy, append_nil]
    rfl

theorem reads_charGroupPart : Reads charGroupPart fun p w => w = p.text := by
  refine reads_charClassEsc.orElse (.orElse ?_ (.map reads_singleChar))
  refine (Reads.diff reads_singleChar).bind fun start u hu => (Reads.equal '-').bind fun _ v hv =>
    (Reads.diff reads_singleChar).bind fun stop w hw => .pure ?_
  rw [hu, hv, hw, append_nil]
  rfl

theorem reads_posCharGroup : Reads posCharGroup fun ps w => w = ps.flatMap CharPart.text := by
  intro s ps rest h
  obtain ⟨w, hs, -, hw⟩ := (reads_charGroupPart.any (U := fun ps w => w = ps.flatMap CharPart.text)
    rfl fun p ps v w hv hw => by rw [hv, hw]; rfl).some rfl s ps rest h
  exact ⟨w, hs, hw⟩

theorem reads_charClassExprParser (depth : Nat) :
    Reads (charClassExprParser depth) fun c w => w = c.text := by
  induction depth with
  | zero => exact .failure
  | succ depth ih =>
    have hgroup : Reads ((CharGroup.exclude <$> negCharGroup) <|>
        (CharGroup.include <$> posCharGroup)) fun g w => w = g.text := by
      refine .orElse (.map ?_) (.map reads_posCharGroup)
      refine (Reads.equal '^').bind fun _ u hu s ps rest h => ?_
      obtain ⟨w, hs, hw⟩ := reads_posCharGroup s ps rest h
      exact ⟨w, hs, by rw [hu, hw]; rfl⟩
    have hsubtract : Reads (maybe (do let _ ← Rule.equal '-'; charClassExprParser depth))
        fun c w => w = (c.map fun c => '-' :: c.text).getD [] := by
      refine .maybe ((Reads.equal '-').bind fun _ u hu s c rest h => ?_) rfl
      obtain ⟨w, hs, hw⟩ := ih s c rest h
      exact ⟨w, hs, by rw [hu, hw]; rfl⟩
    refine (Reads.equal '[').bind fun _ u hu => hgroup.bind fun g v hv => hsubtract.bind
      fun c w hw => (Reads.equal ']').bind fun _ x hx => ?_
    cases c with
    | none | some c => exact .pure (by rw [hu, hv, hw, hx]; simp [CharClass.text])

/-! ## Expressions -/

theorem reads_atom (depth : Nat) {re : Rule RegExp} (hre : Reads re fun r w => w ∈ r.texts) :
    Reads (atom depth re) fun a w => w ∈ a.texts := by
  refine .orElse (.map Reads.not) (.orElse ?_ ?_)
  · refine .orElse (.map reads_singleCharEsc) <| .orElse (.map reads_charClassEsc) <|
      .orElse (.map (reads_charClassExprParser depth)) ?_
    refine (Reads.equal '.').bind fun _ u hu => .pure ?_
    rw [append_nil]
    exact hu
  · refine (Reads.equal '(').bind fun _ u hu => hre.bind fun r v hv =>
      (Reads.equal ')').bind fun _ w hw => .pure ?_
    rw [append_nil]
    exact Language.append_mem_mul hu (Language.append_mem_mul hv hw)

theorem reads_branch (depth : Nat) {re : Rule RegExp} (hre : Reads re fun r w => w ∈ r.texts) :
    Reads (branch depth re) fun b w => w ∈ b.texts := by
  have hpiece : Reads (piece depth re) fun p w => w ∈ p.texts := by
    refine (reads_atom depth hre).bind fun a u hu => (Reads.maybe (U := fun q w =>
      u ++ w ∈ (Piece.mk a q).texts) (fun s q rest h => ?_) ?_).bind fun q v hv => .pure ?_
    · obtain ⟨w, hs, hw⟩ := reads_quantifier s q rest h
      exact ⟨w, hs, Language.append_mem_mul hu hw⟩
    · rw [append_nil]
      exact hu
    · rw [append_nil]
      exact hv
  exact .map (hpiece.any (Language.nil_mem_one) fun p ps v w hv hw => Language.append_mem_mul hv hw)

/-- **An expression to any depth takes off one of its texts.** -/
theorem reads_regExpParser (depth : Nat) :
    Reads (regExpParser depth) fun re w => w ∈ re.texts := by
  induction depth with
  | zero => exact .failure
  | succ depth ih =>
    -- what stands behind a branch, whatever this is
    have hothers : Reads (Rule.any (otherBranch depth (regExpParser depth))) fun bs w =>
        ∀ b, ∀ v ∈ b.texts, v ++ w ∈ (RegExp.ofList b bs).texts := by
      refine Reads.any (T := fun b w => w ∈ ({['|']} : Language Char) * b.texts) ?_ ?_ ?_
      · refine (Reads.equal '|').bind fun _ u hu s b rest h => ?_
        obtain ⟨w, hs, hw⟩ := reads_branch depth ih s b rest h
        exact ⟨w, hs, Language.append_mem_mul hu hw⟩
      · intro b v hv
        rw [append_nil]
        exact hv
      · rintro b' bs _ w hother hw b u hu
        obtain ⟨bar, hbar, v, hv, rfl⟩ := Language.mem_mul.mp hother
        rw [append_assoc]
        exact Language.append_mem_mul hu (Language.append_mem_mul hbar (hw b' v hv))
    refine (reads_branch depth ih).bind fun b u hu => hothers.bind fun bs v hv => .pure ?_
    rw [append_nil]
    exact hv b u hu

/-- **An expression that was parsed is a text of its tree.** -/
theorem parse_reads {expr : List Char} {re : RegExp} (h : parse expr = some re) :
    expr ∈ re.texts := by
  unfold parse at h
  split at h
  · rename_i hre
    obtain ⟨w, rfl, hmem⟩ := reads_regExpParser _ _ _ _ hre
    cases h
    rwa [append_nil]
  · cases h

end XsdRegexp

end Snabb
