import Snabb.Foundation.Matches
import Mathlib.Computability.Language

/-!
# Parser combinators (`lib/maxpc.lua`)

A parser is called with an input and gives what is left of it. A parser that can backtrack gives a
function as well that is called for the next result; the results of a parser are modelled by
`Matches`. Only the matching combinators are here, which give no values.

A call that is not a tail call takes a place on the Lua stack, which is bounded (`LUAI_MAXSTACK`). So
a parser is given the number of calls that there is room for, and it does not return when they are
used up, as `match.all` does that calls itself over and over.

- `Sound p l`: whatever `p` takes off the input is in the language `l`;
- `Complete p l d`: with room for `d` calls for each character, and once more, `p` ends and takes
  off all that is in `l`.
-/

namespace Snabb

open Foundation List Foundation.Matches

namespace Maxpc

export Foundation (Matches)

/-- A parser: the calls that the stack has room for, and the input. -/
abbrev Parser := Nat → List Char → Matches (List Char)

/-- A call, in which there is room for one call less. -/
def call (body : Parser) : Parser
  | 0, _ => .diverge
  | n + 1, s => body n s

/-- `match.eof`. -/
def eof : Parser := call fun _ s => if s.isEmpty then .one s else .fail

/-- `match.satisfies`, on `capture.element`. -/
def satisfies (test : Char → Bool) : Parser := call fun _ s =>
  match s with
  | [] => .fail
  | c :: rest => if test c then .one rest else .fail

/-- `match.equal`. -/
def equal (x : Char) : Parser := satisfies fun y => x == y

/-- The loop of `match.seq`: each parser goes on from the first result of the one before. -/
def seqLoop : List Parser → Parser
  | [], _, s => .one s
  | p :: ps, n, s => (p n s).andThen (seqLoop ps n)

/-- `match.seq`. -/
def seq (ps : List Parser) : Parser := call (seqLoop ps)

/-- `combine.diff` of two parsers. -/
def diff (p q : Parser) : Parser := call fun n s =>
  -- The second parser is called by `combine._or`, the first one by a tail call.
  match call q n s with
  | .found _ _ => .fail
  | .fail => p (n + 1) s
  | .diverge => .diverge

theorem diff_succ (p q : Parser) (n : Nat) (s : List Char) :
    diff p q (n + 1) s = match call q n s with
      | .found _ _ => .fail
      | .fail => p (n + 1) s
      | .diverge => .diverge := rfl

/-- `match._not`. -/
def not (p : Parser) : Parser := diff (satisfies fun _ => true) p

/-- `match.plus`. -/
def plus (a b : Parser) : Parser := call fun n s => (a n s).bind (b n)

/-- `match.alternate`, of which the second parser is called by a tail call. -/
def alternate (x y : Parser) : Parser := call fun n s => (x n s).orElse (y (n + 1) s)

/-- `match.optional`. -/
def optional (p : Parser) : Parser := alternate p (seq [])

/-- `match.all`: `match.optional` of `match.plus` of the parser and `match.all`. -/
def all (p : Parser) : Parser
  | 0, _ => .diverge
  | 1, _ => .diverge
  | n + 2, s => ((p n s).bind (all p n)).orElse (.one s)

theorem all_eq (p : Parser) : all p = optional (plus p (all p)) := by
  funext n s
  rcases n with _ | _ | n <;> rfl

/-- `match.path`. -/
def path : List Parser → Parser
  | [] => call fun _ s => .one s
  | p :: ps => ps.foldl plus p

/-- `match.either`. -/
def either : List Parser → Parser
  | [] => call fun _ _ => .fail
  | p :: ps => ps.foldl alternate p

/-- What `maxpc.parse` says of a string: whether the parser was successful, and whether it came to
the end. -/
def parse (str : List Char) (p : Parser) (n : Nat) : Bool × Bool :=
  match p n str with
  | .found rest _ => (true, str.isEmpty || rest.isEmpty)
  | _ => (false, str.isEmpty)

/-! ## Languages -/

/-- What the parser takes off is in the language. -/
def Sound (p : Parser) (l : Language Char) : Prop :=
  ∀ n s, ∀ rest ∈ p n s, ∃ w ∈ l, s = w ++ rest

/-- The parser ends, and takes off all that is in the language, if there is room for `d` calls for
each character, and once more. -/
def Complete (p : Parser) (l : Language Char) (d : Nat) : Prop :=
  ∀ n s, d * (s.length + 1) ≤ n →
    (p n s).Ends ∧ ∀ w ∈ l, ∀ rest, s = w ++ rest → rest ∈ p n s

variable {p q : Parser} {l k l' : Language Char} {ps : List Parser} {ls : List (Language Char)}
  {d e : Nat}

theorem Sound.mono (h : Sound p l) (hle : ∀ w ∈ l, w ∈ k) : Sound p k := fun n s rest hrest => by
  obtain ⟨w, hw, hs⟩ := h n s rest hrest
  exact ⟨w, hle w hw, hs⟩

theorem Complete.mono (h : Complete p l d) (hle : d ≤ e) : Complete p l e := fun n s hn =>
  h n s ((Nat.mul_le_mul_right _ hle).trans hn)

variable {s rest mid : List Char} {n : Nat}

/-- What is left is not longer, and shorter where the empty string is not in the language. -/
theorem Sound.length_le (h : Sound p l) (hrest : rest ∈ p n s) : rest.length ≤ s.length := by
  obtain ⟨w, -, rfl⟩ := h n s rest hrest
  rw [List.length_append]
  omega

theorem Sound.length_lt (h : Sound p l) (hnil : [] ∉ l)
    (hrest : rest ∈ p n s) : rest.length < s.length := by
  obtain ⟨w, hw, rfl⟩ := h n s rest hrest
  cases w with
  | nil => exact absurd hw hnil
  | cons c w =>
    rw [List.length_append, length_cons]
    omega

/-! ## Room on the stack -/

/-- There is room for some calls and what is called in them. -/
theorem exists_room {i : Nat} (h : (d + i) * (s.length + 1) ≤ n) :
    ∃ m, n = m + i ∧ d * (s.length + 1) ≤ m := by
  have hi : i ≤ i * (s.length + 1) := Nat.le_mul_of_pos_right i (Nat.succ_pos s.length)
  rw [Nat.add_mul] at h
  exact ⟨n - i, by omega, by omega⟩

theorem room_of_le (h : d * (s.length + 1) ≤ n) (hle : mid.length ≤ s.length) :
    d * (mid.length + 1) ≤ n :=
  (Nat.mul_le_mul_left d (Nat.succ_le_succ hle)).trans h

/-- There is less to be called on a shorter input. -/
theorem room_of_lt {i : Nat} (h : (d + i) * (s.length + 1) ≤ n + i) (hlt : mid.length < s.length) :
    (d + i) * (mid.length + 1) ≤ n := by
  have hle : (d + i) * (mid.length + 1 + 1) ≤ (d + i) * (s.length + 1) :=
    Nat.mul_le_mul_left _ (by omega)
  rw [Nat.mul_succ] at hle
  omega

theorem Sound.call (h : Sound p l) : Sound (call p) l := by
  intro n s rest hrest
  cases n with
  | zero => exact absurd hrest not_mem_diverge
  | succ n => exact h n s rest hrest

theorem Complete.call (h : Complete p l d) : Complete (call p) l (d + 1) := by
  intro n s hn
  obtain ⟨m, rfl, hm⟩ := exists_room hn
  exact h m s hm

/-! ## Combinators -/

theorem sound_one : Sound (fun _ s => .one s) 1 := fun n s rest hrest => by
  rw [Matches.mem_one.mp hrest]
  exact ⟨[], rfl, rfl⟩

theorem complete_one : Complete (fun _ s => .one s) 1 0 := fun n s _ => by
  refine ⟨trivial, fun w hw rest hs => ?_⟩
  obtain rfl : w = [] := hw
  exact Matches.mem_one.mpr hs.symm

theorem sound_nil : Sound (seq []) 1 := sound_one.call

theorem complete_nil : Complete (seq []) 1 1 := complete_one.call

theorem sound_eof : Sound eof 1 := by
  refine Sound.call fun n s rest hrest => ?_
  split_ifs at hrest
  · exact sound_one n s rest hrest
  · exact absurd hrest not_mem_fail

theorem Sound.plus (hp : Sound p l) (hq : Sound q k) : Sound (plus p q) (l * k) := by
  refine Sound.call fun n s rest hrest => ?_
  obtain ⟨mid, hmid, hlast⟩ := mem_of_mem_bind hrest
  obtain ⟨w, hw, rfl⟩ := hp n s mid hmid
  obtain ⟨v, hv, rfl⟩ := hq n mid rest hlast
  exact ⟨w ++ v, Language.append_mem_mul hw hv, (append_assoc ..).symm⟩

theorem Complete.plus (hp : Complete p l d) (hq : Complete q k d) (hsound : Sound p l') :
    Complete (plus p q) (l * k) (d + 1) := by
  refine Complete.call fun n s hn => ?_
  have hq mid (hmid : mid ∈ p n s) := hq n mid (room_of_le hn (hsound.length_le hmid))
  have hends : ∀ mid ∈ p n s, (q n mid).Ends := fun mid hmid => (hq mid hmid).1
  refine ⟨(hp n s hn).1.bind hends, fun w hw rest heq => ?_⟩
  obtain ⟨u, hu, v, hv, rfl⟩ := Language.mem_mul.mp hw
  rw [append_assoc] at heq
  have hmid := (hp n s hn).2 u hu (v ++ rest) heq
  exact mem_bind hends hmid ((hq _ hmid).2 v hv rest rfl)

theorem Sound.alternate (hp : Sound p l) (hq : Sound q k) : Sound (alternate p q) (l + k) := by
  refine Sound.call fun n s rest hrest => ?_
  rcases mem_of_mem_orElse hrest with hrest | hrest
  · obtain ⟨w, hw, hs⟩ := hp n s rest hrest
    exact ⟨w, .inl hw, hs⟩
  · obtain ⟨w, hw, hs⟩ := hq (n + 1) s rest hrest
    exact ⟨w, .inr hw, hs⟩

theorem Complete.alternate (hp : Complete p l d) (hq : Complete q k (d + 1)) :
    Complete (alternate p q) (l + k) (d + 1) := by
  intro n s hn
  obtain ⟨m, rfl, hm⟩ := exists_room hn
  obtain ⟨hends, hmem⟩ := hp m s hm
  obtain ⟨hends', hmem'⟩ := hq (m + 1) s hn
  refine ⟨hends.orElse hends', fun w hw rest heq => ?_⟩
  rcases hw with hw | hw
  · exact mem_orElse_left (hmem w hw rest heq)
  · exact mem_orElse_right hends (hmem' w hw rest heq)

theorem Sound.optional (hp : Sound p l) : Sound (optional p) (l + 1) := hp.alternate sound_nil

theorem Complete.optional (hp : Complete p l d) : Complete (optional p) (l + 1) (d + 1) :=
  hp.alternate (complete_nil.mono (Nat.le_add_left 1 d))

/-- `match.all` takes off strings of the language, one after the other. -/
theorem Sound.all (hp : Sound p l) : Sound (all p) (KStar.kstar l) := by
  intro n
  induction n using Nat.twoStepInduction with
  | zero => exact fun s rest hrest => absurd hrest not_mem_diverge
  | one => exact fun s rest hrest => absurd hrest not_mem_diverge
  | more n ih _ =>
    intro s rest hrest
    rcases mem_of_mem_orElse hrest with hrest | hrest
    · obtain ⟨mid, hmid, hlast⟩ := mem_of_mem_bind hrest
      obtain ⟨w, hw, rfl⟩ := hp n s mid hmid
      obtain ⟨v, hv, rfl⟩ := ih mid rest hlast
      refine ⟨w ++ v, ?_, (append_assoc ..).symm⟩
      rw [← Language.one_add_self_mul_kstar_eq_kstar]
      exact .inr (Language.append_mem_mul hw hv)
    · rw [Matches.mem_one.mp hrest]
      exact ⟨[], Language.nil_mem_kstar l, rfl⟩

/-- It takes off all of them, if each of the strings is longer than 0. -/
theorem Complete.all (hp : Complete p l d) (hsound : Sound p l') (hnil : [] ∉ l') :
    Complete (all p) (KStar.kstar l) (d + 2) := by
  have hrounds : ∀ n s, (d + 2) * (s.length + 1) ≤ n → (Maxpc.all p n s).Ends ∧
      ∀ ws : List (List Char), (∀ w ∈ ws, w ∈ l) → ∀ rest, s = ws.flatten ++ rest →
        rest ∈ Maxpc.all p n s := by
    intro n
    induction n using Nat.twoStepInduction with
    | zero | one =>
      intro s hn
      obtain ⟨m, hm, -⟩ := exists_room hn
      omega
    | more n ih _ =>
      intro s hn
      obtain ⟨m, hm, hroom⟩ := exists_room hn
      obtain rfl : m = n := by omega
      obtain ⟨hends, hmem⟩ := hp m s hroom
      have hall mid (hmid : mid ∈ p m s) := ih mid (room_of_lt hn (hsound.length_lt hnil hmid))
      have hbind := hends.bind fun mid hmid => (hall mid hmid).1
      refine ⟨hbind.orElse trivial, fun ws hws rest heq => ?_⟩
      cases ws with
      | nil => exact mem_orElse_right hbind (Matches.mem_one.mpr heq.symm)
      | cons w ws =>
        rw [flatten_cons, append_assoc] at heq
        have hmid := hmem w (hws w (mem_cons_self ..)) _ heq
        refine mem_orElse_left (mem_bind (fun mid hmid => (hall mid hmid).1) hmid ?_)
        exact (hall _ hmid).2 ws (fun v hv => hws v (mem_cons_of_mem _ hv)) rest rfl
  intro n s hn
  obtain ⟨hends, hall⟩ := hrounds n s hn
  refine ⟨hends, fun w hw rest heq => ?_⟩
  obtain ⟨ws, rfl, hws⟩ := Language.mem_kstar.mp hw
  exact hall ws hws rest heq

/-- What an operation keeps holds of what is folded with it, here with one more call each time. -/
theorem foldl_induction {A B : Type} {op : A → A → A} {mul : B → B → B} {R : Nat → A → B → Prop}
    (hop : ∀ {i a a' b b'}, R i a b → R 0 a' b' → R (i + 1) (op a a') (mul b b')) {as : List A}
    {bs : List B} (h : List.Forall₂ (R 0) as bs) {i : Nat} {a : A} {b : B} (ha : R i a b) :
    R (i + as.length) (as.foldl op a) (bs.foldl mul b) := by
  induction h generalizing i a b with
  | nil => exact ha
  | cons hb _ ih =>
    rw [length_cons, Nat.add_comm _ 1, ← Nat.add_assoc]
    exact ih (hop ha hb)

variable {R : Nat → Parser → Language Char → Prop}

theorem path_induction (hnil : R 0 (path []) 1)
    (hplus : ∀ {i p q l k}, R i p l → R 0 q k → R (i + 1) (plus p q) (l * k))
    (h : List.Forall₂ (R 0) ps ls) : R (ps.length - 1) (path ps) ls.prod := by
  cases h with
  | nil => exact hnil
  | cons hp hps =>
    rw [prod_eq_foldl, foldl_cons, one_mul]
    have hfold := foldl_induction hplus hps hp
    rwa [Nat.zero_add] at hfold

/-- What is kept by `match.alternate` holds of a choice. -/
theorem either_induction (hfail : R 0 (either []) 0)
    (halternate : ∀ {i p q l k}, R i p l → R 0 q k → R (i + 1) (alternate p q) (l + k))
    (h : List.Forall₂ (R 0) ps ls) : R (ps.length - 1) (either ps) ls.sum := by
  cases h with
  | nil => exact hfail
  | cons hp hps =>
    rw [sum_eq_foldl, foldl_cons, zero_add]
    have hfold := foldl_induction halternate hps hp
    rwa [Nat.zero_add] at hfold

/-- `match.path` takes off a string of each language. -/
theorem sound_path (h : List.Forall₂ Sound ps ls) : Sound (path ps) ls.prod :=
  @path_induction _ _ (fun _ => Sound) sound_nil (fun hp hq => hp.plus hq) h

theorem complete_path (h : List.Forall₂ (fun p l => Sound p l ∧ Complete p l (d + 1)) ps ls) :
    Complete (path ps) ls.prod (d + 1 + (ps.length - 1)) :=
  have hboth := @path_induction _ _ (fun i p l => Sound p l ∧ Complete p l (d + 1 + i))
    ⟨sound_nil, complete_nil.mono (Nat.le_add_left 1 d)⟩
    (fun hp hq => ⟨hp.1.plus hq.1, hp.2.plus (hq.2.mono (by omega)) hp.1⟩) h
  hboth.2

theorem sound_either (h : List.Forall₂ Sound ps ls) : Sound (either ps) ls.sum :=
  @either_induction _ _ (fun _ => Sound)
    (Sound.call fun _ _ _ hrest => absurd hrest not_mem_fail) (fun hp hq => hp.alternate hq) h

theorem complete_either (h : List.Forall₂ (fun p l => Complete p l (d + 1)) ps ls) :
    Complete (either ps) ls.sum (d + 1 + (ps.length - 1)) := by
  have hfail : Complete (either []) 0 1 :=
    Complete.call fun _ _ _ => ⟨trivial, fun w hw => absurd hw (Language.notMem_zero w)⟩
  exact @either_induction _ _ (fun i p l => Complete p l (d + 1 + i))
    (hfail.mono (Nat.le_add_left 1 d))
    (fun hp hq => hp.alternate (hq.mono (by omega))) h

/-! ## Sequences without backtracking -/

theorem sound_seq (h : Sound p l) (n : Nat) : Sound (seq (List.replicate n p)) (l ^ n) := by
  refine Sound.call ?_
  induction n with
  | zero => exact sound_one
  | succ n ih =>
    intro m s rest hrest
    obtain ⟨mid, hmid, hlast⟩ := mem_of_mem_andThen hrest
    obtain ⟨w, hw, rfl⟩ := h m s mid hmid
    obtain ⟨v, hv, rfl⟩ := ih m mid rest hlast
    rw [pow_succ']
    exact ⟨w ++ v, Language.append_mem_mul hw hv, (append_assoc ..).symm⟩

/-- No string of the language goes on as another one. -/
def PrefixFree (l : Language Char) : Prop := ∀ w ∈ l, ∀ v ∈ l, w <+: v → w = v

/-- From one place there is one string of `l'` at most, if there is one of `l`. -/
def Committed (l l' : Language Char) : Prop :=
  ∀ w ∈ l, ∀ v ∈ l', ∀ rest rest', w ++ rest = v ++ rest' → rest = rest'

theorem PrefixFree.committed (h : PrefixFree l) : Committed l l := by
  intro w hw v hv rest rest' heq
  have hsame : w = v := by
    rcases prefix_or_prefix_of_prefix (prefix_append w rest)
      (heq ▸ prefix_append v rest') with hwv | hvw
    · exact h w hw v hv hwv
    · exact (h v hv w hw hvw).symm
  subst hsame
  exact append_cancel_left heq

theorem complete_seq (hp : Complete p l d) (hsound : Sound p l') (hfree : Committed l l')
    (n : Nat) : Complete (seq (List.replicate n p)) (l ^ n) (d + 1) := by
  refine Complete.call ?_
  induction n with
  | zero => exact complete_one.mono (Nat.zero_le d)
  | succ n ih =>
    intro m s hm
    have hroom mid (hmid : mid ∈ p m s) := room_of_le hm (hsound.length_le hmid)
    refine ⟨(hp m s hm).1.andThen fun mid hmid => (ih m mid (hroom mid hmid)).1,
      fun w hw rest heq => ?_⟩
    rw [pow_succ'] at hw
    obtain ⟨u, hu, v, hv, rfl⟩ := Language.mem_mul.mp hw
    rw [append_assoc] at heq
    have hmid := (hp m s hm).2 u hu _ heq
    -- The first result is the only one, so the commitment to it does no harm.
    have hone : ∀ mid ∈ p m s, mid = v ++ rest := fun mid hmid => by
      obtain ⟨u', hu', hs'⟩ := hsound m s mid hmid
      exact (hfree u hu u' hu' _ _ (heq.symm.trans hs')).symm
    show rest ∈ (p m s).andThen _
    rw [andThen_eq hmid hone]
    exact (ih m _ (hroom _ hmid)).2 v hv rest rfl

/-! ## Single characters -/

/-- The parser takes off one character, and only those of the class; it ends if there is room for
`d` calls. -/
structure ReadsOne (p : Parser) (A : Char → Bool) (d : Nat) : Prop where
  hit : ∀ n s, ∀ rest ∈ p n s, ∃ c, A c = true ∧ s = c :: rest
  miss : ∀ n c rest, A c = true → p n (c :: rest) ≠ .fail
  ends : ∀ n s, d ≤ n → (p n s).Ends

/-- The strings of one character of the class. -/
def oneOf (A : Char → Bool) : Language Char := {w | ∃ c, A c = true ∧ w = [c]}

variable {A B : Char → Bool}

theorem readsOne_satisfies (A : Char → Bool) : ReadsOne (satisfies A) A 1 where
  hit n s rest hrest := by
    cases n with
    | zero => exact absurd hrest not_mem_diverge
    | succ n =>
      unfold satisfies call at hrest
      cases s with
      | nil => exact absurd hrest not_mem_fail
      | cons c s =>
        dsimp only at hrest
        split_ifs at hrest with hc
        · exact ⟨c, hc, by rw [Matches.mem_one.mp hrest]⟩
        · exact absurd hrest not_mem_fail
  miss n c rest hc := by
    cases n with
    | zero => rintro ⟨⟩
    | succ n =>
      unfold satisfies call
      dsimp only
      rw [if_pos hc]
      rintro ⟨⟩
  ends n s hn := by
    obtain ⟨n, rfl⟩ := Nat.exists_eq_add_of_le' hn
    unfold satisfies call
    cases s with
    | nil => trivial
    | cons c s =>
      dsimp only
      split_ifs <;> trivial

theorem ReadsOne.sound (h : ReadsOne p A d) : Sound p (oneOf A) := fun n s rest hrest => by
  obtain ⟨c, hc, rfl⟩ := h.hit n s rest hrest
  exact ⟨[c], ⟨c, hc, rfl⟩, rfl⟩

theorem ReadsOne.complete (h : ReadsOne p A d) : Complete p (oneOf A) d := by
  intro n s hn
  have hends := h.ends n s ((Nat.le_mul_of_pos_right d (Nat.succ_pos s.length)).trans hn)
  refine ⟨hends, ?_⟩
  rintro w ⟨c, hc, rfl⟩ rest rfl
  have hmiss := h.miss n c rest hc
  have hhit := h.hit n (c :: rest)
  change rest ∈ p n (c :: rest)
  cases hresult : p n (c :: rest) with
  | fail => exact absurd hresult hmiss
  | diverge =>
    change (p n (c :: rest)).Ends at hends
    rw [hresult] at hends
    exact hends.elim
  | found rest' more =>
    rw [hresult] at hhit
    obtain ⟨c', -, heq⟩ := hhit rest' (.head rest' more)
    cases heq
    exact .head rest more

theorem ReadsOne.congr (h : ReadsOne p A d) (hAB : ∀ c, A c = B c) : ReadsOne p B d := by
  rwa [← funext hAB]

theorem ReadsOne.mono (h : ReadsOne p A d) (hle : d ≤ e) : ReadsOne p A e :=
  ⟨h.hit, h.miss, fun n s hn => h.ends n s (hle.trans hn)⟩

theorem ReadsOne.call (h : ReadsOne p A d) : ReadsOne (call p) A (d + 1) where
  hit n s rest hrest := by
    cases n with
    | zero => exact absurd hrest not_mem_diverge
    | succ n => exact h.hit n s rest hrest
  miss n c rest hc := by
    cases n with
    | zero => rintro ⟨⟩
    | succ n => exact h.miss n c rest hc
  ends n s hn := by
    obtain ⟨n, rfl⟩ := Nat.exists_eq_add_of_le' (Nat.le_of_add_left_le hn)
    exact h.ends n s (by omega)

theorem ReadsOne.diff (hp : ReadsOne p A d) (hq : ReadsOne q B e) :
    ReadsOne (diff p q) (fun c => A c && !B c) (max d (e + 2)) := by
  have hq := hq.call
  constructor
  · intro n s rest hrest
    cases n with
    | zero => exact absurd hrest not_mem_diverge
    | succ n =>
      rw [diff_succ] at hrest
      cases hresult : Maxpc.call q n s with
      | fail =>
        rw [hresult] at hrest
        obtain ⟨c, hc, rfl⟩ := hp.hit _ _ _ hrest
        refine ⟨c, ?_, rfl⟩
        rw [hc, Bool.true_and, Bool.not_eq_true']
        exact Bool.eq_false_iff.mpr fun hB => hq.miss n c rest hB hresult
      | diverge =>
        rw [hresult] at hrest
        exact absurd hrest not_mem_diverge
      | found a more =>
        rw [hresult] at hrest
        exact absurd hrest not_mem_fail
  · intro n c rest hc
    obtain ⟨hA, hB⟩ := Bool.and_eq_true_iff.mp hc
    cases n with
    | zero => rintro ⟨⟩
    | succ n =>
      rw [diff_succ]
      cases hresult : Maxpc.call q n (c :: rest) with
      | fail => exact hp.miss _ c rest hA
      | diverge => rintro ⟨⟩
      | found a more =>
        obtain ⟨c', hB', heq⟩ := hq.hit n (c :: rest) a (hresult ▸ .head a more)
        cases heq
        rw [hB'] at hB
        cases hB
  · intro n s hn
    obtain ⟨n, rfl⟩ : ∃ m, n = m + 1 := ⟨n - 1, by omega⟩
    rw [diff_succ]
    have hends := hq.ends n s (by omega)
    cases hresult : Maxpc.call q n s with
    | fail => exact hp.ends _ s (by omega)
    | diverge =>
      rw [hresult] at hends
      exact hends.elim
    | found a more => trivial

theorem ReadsOne.not (h : ReadsOne p A d) : ReadsOne (not p) (fun c => !A c) (d + 2) :=
  (((readsOne_satisfies fun _ => true).diff h).mono (by omega)).congr fun _ => Bool.true_and _

theorem ReadsOne.alternate (hp : ReadsOne p A d) (hq : ReadsOne q B (d + 1)) :
    ReadsOne (alternate p q) (fun c => A c || B c) (d + 1) where
  hit n s rest hrest := by
    cases n with
    | zero => exact absurd hrest not_mem_diverge
    | succ n =>
      rcases mem_of_mem_orElse hrest with hrest | hrest
      · obtain ⟨c, hc, hs⟩ := hp.hit n s rest hrest
        exact ⟨c, by rw [hc, Bool.true_or], hs⟩
      · obtain ⟨c, hc, hs⟩ := hq.hit (n + 1) s rest hrest
        exact ⟨c, by rw [hc, Bool.or_true], hs⟩
  miss n c rest hc := by
    cases n with
    | zero => rintro ⟨⟩
    | succ n =>
      change (p n (c :: rest)).orElse (q (n + 1) (c :: rest)) ≠ .fail
      cases hresult : p n (c :: rest) with
      | fail =>
        refine hq.miss (n + 1) c rest ((Bool.or_eq_true_iff.mp hc).resolve_left fun hA => ?_)
        exact hp.miss n c rest hA hresult
      | diverge => rintro ⟨⟩
      | found a more => rintro ⟨⟩
  ends n s hn := by
    obtain ⟨n, rfl⟩ := Nat.exists_eq_add_of_le' (Nat.le_of_add_left_le hn)
    exact (hp.ends n s (by omega)).orElse (hq.ends (n + 1) s hn)

theorem readsOne_either {As : List (Char → Bool)}
    (h : List.Forall₂ (fun p A => ReadsOne p A (d + 1)) ps As) :
    ReadsOne (either ps) (fun c => As.any fun A => A c) (d + 1 + (ps.length - 1)) := by
  cases h with
  | nil =>
    refine ⟨fun n s rest hrest => ?_, fun _ _ _ h => Bool.noConfusion h, fun n s hn => ?_⟩
    · cases n with
      | zero => exact absurd hrest not_mem_diverge
      | succ n => exact absurd hrest not_mem_fail
    · obtain ⟨n, rfl⟩ : ∃ m, n = m + 1 := ⟨n - 1, by omega⟩
      trivial
  | @cons p A ps As hp hps =>
    have hfold := @foldl_induction _ _ _ (fun A B c => A c || B c)
      (fun i p A => ReadsOne p A (d + 1 + i))
      (fun hp hq => hp.alternate (hq.mono (by omega))) _ _ hps 0 _ _ hp
    rw [Nat.zero_add] at hfold
    refine hfold.congr fun c => ?_
    have hany (A : Char → Bool) : (As.foldl (fun A B c => A c || B c) A) c =
        (A c || As.any fun A => A c) := by
      clear hfold hp hps
      induction As generalizing A with
      | nil => exact (Bool.or_false _).symm
      | cons B As ih => exact (ih _).trans (Bool.or_assoc ..)
    exact hany A

end Maxpc

end Snabb
