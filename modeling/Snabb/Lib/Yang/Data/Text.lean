import Snabb.Lib.Yang.Data.Printer

/-!
# Printed texts are read as their statements (`lib/yang/data.lua`)

`Gives x s t r` tells what the reader `x` does on the text `s`: it returns what `r` is and leaves
the text `t`, or raises, in whatever column it starts.

`parseString_gives`: a printed string is read as what it was, whatever its bytes are.
-/

namespace Snabb

open Foundation List Bool

namespace Yang

variable {α β : Type} {s t u : Str} {n : Nat}

/-! ## What readers give -/

/-- On the text `s` the reader does what `r` is, and leaves `t`. -/
def Gives (x : Read α) (s t : Str) (r : Except ParseError α) : Prop :=
  ∀ column, (fun p => (p.1, p.2.rest)) <$> x ⟨s, column⟩ = (fun v => (v, t)) <$> r

variable {x : Read α} {v : α} {c quote : UInt8} {p : UInt8 → Bool} {start : Nat} {k : Str}

theorem Gives.of_eq (h : ∀ column, ∃ column',
    x ⟨s, column⟩ = .ok (v, ⟨t, column'⟩)) : Gives x s t (.ok v) := by
  intro column
  obtain ⟨column', hx⟩ := h column
  rw [hx]
  rfl

theorem Gives.eq_ok (h : Gives x s t (.ok v)) (column : Nat) :
    ∃ column', x ⟨s, column⟩ = .ok (v, ⟨t, column'⟩) := by
  obtain ⟨⟨w, t', column'⟩, hx, hw⟩ := map_eq_ok (h column)
  cases hw
  exact ⟨column', hx⟩

theorem Gives.eq_error {e : ParseError} (h : Gives x s t (.error e)) (column : Nat) :
    x ⟨s, column⟩ = .error e := by
  have hx := h column
  cases hr : x ⟨s, column⟩ with
  | ok p =>
    rw [hr] at hx
    cases hx
  | error e' =>
    rw [hr] at hx
    rw [Except.error.inj hx]

theorem Gives.pure (v : α) : Gives (pure v) s s (.ok v) := fun _ => rfl

theorem Gives.throw (e : ParseError) : Gives (throw e : Read α) s t (.error e) := fun _ => rfl

theorem Gives.lift (r : Except ParseError α) : Gives (StateT.lift r) s s r := by
  intro column
  cases r <;> rfl

variable {r : Except ParseError α} {f : α → Read β}

/-- **One reader after another.** -/
theorem Gives.bind {g : α → Except ParseError β} (h : Gives x s t r)
    (h' : ∀ v, r = .ok v → Gives (f v) t u (g v)) : Gives (x >>= f) s u (r >>= g) := by
  intro column
  cases r with
  | error e =>
    simp only [Bind.bind, StateT.bind, h.eq_error column]
    rfl
  | ok v =>
    obtain ⟨column', hx⟩ := h.eq_ok column
    simp only [Bind.bind, StateT.bind, hx]
    exact h' v rfl column'

theorem Gives.next {r : Except ParseError β} (h : Gives x s t (.ok v))
    (h' : Gives (f v) t u r) : Gives (x >>= f) s u r :=
  h.bind (g := fun _ => r) fun _ hv => by
    cases hv
    exact h'

theorem Gives.map {f : α → β} (h : Gives x s t r) : Gives (f <$> x) s t (f <$> r) := by
  intro column
  cases r with
  | error e =>
    simp only [Functor.map, StateT.map, h.eq_error column]
    rfl
  | ok v =>
    obtain ⟨column', hx⟩ := h.eq_ok column
    simp only [Functor.map, StateT.map, hx]
    rfl

/-! ## Bytes -/

theorem check_yes (c : UInt8) : Gives (check c) (c :: t) t (.ok true) := by
  exact .of_eq fun column => ⟨advance column c, by simp [check, Text.next]⟩

theorem check_no (h : s.head? ≠ some c) : Gives (check c) s s (.ok false) := by
  exact .of_eq fun column => ⟨column, by simp [check, h]⟩

theorem consume_gives (c : UInt8) : Gives (consume c) (c :: t) t (.ok ()) :=
  (check_yes c).next (.pure ())

theorem consume_error (h : s.head? ≠ some c) : Gives (consume c) s t (.error .expected) :=
  (check_no h).next (.throw _)

theorem takeWhile_gives (hs : s.all p) (ht : t.head?.any p = false) :
    Gives (takeWhile p) (s ++ t) t (.ok s) := by
  have htake : t.takeWhile p = [] ∧ t.dropWhile p = t := by
    cases t with
    | nil => exact ⟨rfl, rfl⟩
    | cons c t =>
      have hc : p c = false := by simpa using ht
      simp [hc]
  have hall : ∀ c ∈ s, p c = true := by simpa using hs
  refine .of_eq fun column => ⟨s.foldl advance column, ?_⟩
  simp only [takeWhile]
  rw [takeWhile_append_of_pos hall, dropWhile_append_of_pos hall, htake.1, htake.2,
    append_nil]

theorem skipWhitespace_gives (hn : 0 < n) (hs : s.all isSpace) (ht : t.head?.any isSpace = false)
    (hcomment : t.head? ≠ some 47) : Gives (skipWhitespace n) (s ++ t) t (.ok (!s.isEmpty)) := by
  obtain ⟨m, rfl⟩ := Nat.exists_eq_add_of_lt hn
  exact (takeWhile_gives hs ht).next ((check_no hcomment).next (.pure _))

theorem isEof_gives : Gives isEof s s (.ok s.isEmpty) := fun _ => rfl

theorem atComment_gives (h : s.head? ≠ some 47) : Gives atComment s s (.ok false) := by
  refine .of_eq fun column => ⟨column, ?_⟩
  cases s with
  | nil => rfl
  | cons c s =>
    have hc : c ≠ 47 := by simpa using h
    cases s <;> simp [atComment, hc]

theorem atPlain_gives : Gives atPlain s s (.ok (s.head?.any isPlain)) := fun _ => rfl

/-! ## Strings -/

theorem isPlain_not (h : isPlain c = true) :
    isSpace c = false ∧ c ≠ 34 ∧ c ≠ 39 ∧ c ≠ 47 ∧ c ≠ 59 ∧ c ≠ 123 ∧ c ≠ 125 := by
  unfold isPlain at h
  simp only [not_eq_true', or_eq_false_iff, beq_eq_false_iff_ne] at h
  tauto

/-- A string without quotes ends before anything that has no place in it. -/
theorem plainString_gives (hn : 0 < n) (hs : s.all isPlain) (ht : t.head?.any isPlain = false)
    (hcomment : t.head? ≠ some 47) : Gives (plainString n []) (s ++ t) t (.ok s) := by
  obtain ⟨m, rfl⟩ := Nat.exists_eq_add_of_lt hn
  refine (takeWhile_gives hs ht).next (isEof_gives.next ?_)
  cases hempty : t.isEmpty with
  | true => exact .pure _
  | false =>
    refine (atComment_gives hcomment).next ((check_no hcomment).next (atPlain_gives.next ?_))
    rw [ht]
    simpa using Gives.pure (s := t) s

theorem qstringLoop_cons {column : Nat} {result : Str} (hc : isTerminator quote c = false) :
    qstringLoop quote start (n + 1) result ⟨c :: s, column⟩ =
      qstringLoop quote start (n + 1) (result ++ [c]) ⟨s, advance column c⟩ := by
  simp [qstringLoop, takeWhile, hc, bind, StateT.bind, Except.bind]

/-- **The bytes between quotes are the bytes of the string.** -/
theorem qstringLoop_gives (n : Nat) (result : Str) (hn : s.length < n) :
    Gives (qstringLoop 34 start n result) (s.flatMap quoteByte ++ 34 :: t) t
      (.ok (result ++ s)) := by
  induction s generalizing n result with
  | nil =>
    obtain ⟨m, rfl⟩ := Nat.exists_eq_add_of_lt hn
    refine (takeWhile_gives (s := []) rfl rfl).next ((check_yes 34).next ?_)
    exact .pure _
  | cons c s ih =>
    obtain ⟨m, rfl⟩ := Nat.exists_eq_add_of_lt hn
    -- A byte with a backslash takes a round, and the string before it is empty.
    have hescape {d : UInt8} (hd : Gives escaped (d :: (s.flatMap quoteByte ++ 34 :: t))
        (s.flatMap quoteByte ++ 34 :: t) (.ok c)) :
        Gives (qstringLoop 34 start ((c :: s).length + m + 1) result)
          (92 :: d :: (s.flatMap quoteByte ++ 34 :: t)) t (.ok (result ++ c :: s)) := by
      refine (takeWhile_gives (s := []) rfl rfl).next ((check_no (by simp)).next
        ((check_no (by simp)).next ((check_yes 92).next (hd.next ?_))))
      have hrest := ih ((c :: s).length + m) (result ++ [c]) (by rw [length_cons]; omega)
      simpa using hrest
    rw [flatMap_cons, append_assoc, quoteByte]
    split_ifs with h10 h9 hquote
    · subst h10
      exact hescape ((check_yes 110).next (.pure _))
    · subst h9
      exact hescape ((check_no (by simp)).next ((check_yes 116).next (.pure _)))
    · rcases hquote with rfl | rfl
      · exact hescape ((check_no (by simp)).next ((check_no (by simp)).next
          ((check_yes 34).next (.pure _))))
      · exact hescape ((check_no (by simp)).next ((check_no (by simp)).next
          ((check_no (by simp)).next ((check_yes 92).next (.pure _)))))
    · intro column
      have hterminator : isTerminator 34 c = false := by
        simp [isTerminator, h10, not_or.mp hquote]
      have hrest := ih ((c :: s).length + m + 1) (result ++ [c]) (by rw [length_cons]; omega)
        (advance column c)
      rw [cons_append, qstringLoop_cons hterminator]
      simpa using hrest

theorem length_quoteBytes : s.length ≤ (s.flatMap quoteByte).length := by
  induction s with
  | nil => exact le_rfl
  | cons c s ih =>
    have hc : 1 ≤ (quoteByte c).length := by
      unfold quoteByte
      split_ifs <;> simp
    rw [flatMap_cons, List.length_append, length_cons]
    omega

/-- What stands behind an argument: a semicolon, or nothing. -/
def AfterArgument (t : Str) : Prop := t.head?.all (· = 59)

theorem afterArgument_semicolon (t : Str) : AfterArgument (59 :: t) := by simp [AfterArgument]

theorem AfterArgument.not (ht : AfterArgument t) (hc : c ≠ 59) : t.head? ≠ some c := by
  rintro h
  rw [AfterArgument, h] at ht
  simp [hc] at ht

theorem AfterArgument.any (ht : AfterArgument t) (hp : p 59 = false) : t.head?.any p = false := by
  unfold AfterArgument at ht
  cases h : t.head? with
  | none => rfl
  | some c =>
    rw [h] at ht
    have hc : c = 59 := by simpa using ht
    simpa [hc] using hp

theorem parseQstring_gives {u : Str} {m : Nat} (hn : 0 < n) (hm : 0 < m) (hquote : quote ≠ 59)
    (ht : AfterArgument t) (h : ∀ start, Gives (qstringLoop quote start n []) u t (.ok s)) :
    Gives (parseQstring n m quote) u t (.ok s) := by
  obtain ⟨m, rfl⟩ := Nat.exists_eq_add_of_lt hm
  have hspace := skipWhitespace_gives (s := []) hn rfl (ht.any rfl) (ht.not (by decide))
  rw [Nat.zero_add]
  have hcolumn : ∀ start, Gives (do
      let result ← qstringLoop quote start n []
      let _ ← check quote
      let _ ← skipWhitespace n
      if ← check 43 then
        let _ ← skipWhitespace n
        if ← check 39 then return result ++ (← parseQstring n m 39)
        else if ← check 34 then return result ++ (← parseQstring n m 34)
        else throw .expected
      else return result) u t (.ok s) := fun start =>
    (h start).next ((check_no (ht.not hquote)).next (hspace.next
      ((check_no (ht.not (by decide))).next (.pure s))))
  exact fun column => hcolumn column column

/-- **A printed string is read again, whatever its bytes are.** -/
theorem parseString_gives (hn : (printYangString s).length < n) (ht : AfterArgument t) :
    Gives (parseString n) (printYangString s ++ t) t (.ok s) := by
  have hpos : 0 < n := by omega
  unfold printYangString at hn ⊢
  split_ifs at hn ⊢ with hempty hplain
  · subst hempty
    refine (check_yes 39).next (parseQstring_gives hpos hpos (by decide) ht fun start => ?_)
    obtain ⟨m, rfl⟩ := Nat.exists_eq_add_of_lt hpos
    exact (takeWhile_gives (s := []) rfl rfl).next ((check_yes 39).next (.pure _))
  · obtain ⟨c, rest, rfl⟩ := exists_cons_of_ne_nil hempty
    have hc : isPlain c = true := by simpa using (all_eq_true.mp hplain) c mem_cons_self
    obtain ⟨-, h34, h39, -⟩ := isPlain_not hc
    exact (check_no (by simpa using h39)).next ((check_no (by simpa using h34)).next
      (plainString_gives hpos hplain (ht.any rfl) (ht.not (by decide))))
  · have htext : 34 :: s.flatMap quoteByte ++ [34] ++ t =
        34 :: (s.flatMap quoteByte ++ 34 :: t) := by
      simp
    rw [htext]
    refine (check_no (by simp)).next ((check_yes 34).next ?_)
    refine parseQstring_gives hpos hpos (by decide) ht fun start => ?_
    have hlength := length_quoteBytes (s := s)
    simp only [List.length_append, length_cons] at hn
    exact qstringLoop_gives n [] (by omega)

theorem isPlain_identifier (h : isIdentifierByte c = true) : isPlain c = true := by
  simp only [isIdentifierByte, isAlnum, isAlpha, or_eq_true, and_eq_true,
    decide_eq_true_eq, beq_iff_eq, UInt8.le_iff_toNat_le, ← UInt8.toNat_inj] at h
  simp only [isPlain, isSpace, not_eq_true', or_eq_false_iff, beq_eq_false_iff_ne,
    and_eq_false_iff, decide_eq_false_iff_not, UInt8.le_iff_toNat_le, ne_eq,
    ← UInt8.toNat_inj]
  simp only [UInt8.reduceToNat] at h ⊢
  omega

theorem printYangString_identifier (hk : isIdentifier k = true) :
    printYangString k = k ∧ k.all isPlain = true ∧ ∃ c rest, k = c :: rest ∧ isPlain c = true := by
  cases k with
  | nil => cases hk
  | cons c rest =>
    simp only [isIdentifier, and_eq_true, or_eq_true] at hk
    have hc : isPlain c = true := isPlain_identifier (by
      simp only [isIdentifierByte, isAlnum, or_eq_true]
      tauto)
    have hrest : rest.all isPlain = true := by
      rw [all_eq_true] at hk ⊢
      exact fun d hd => isPlain_identifier (hk.2 d hd)
    have hall : (c :: rest).all isPlain = true := by simp [hc, hrest]
    exact ⟨by simp [printYangString, hall], hall, c, rest, rfl, hc⟩

/-- **The name of a statement is read up to the space behind it.** -/
theorem parseIdentifier_gives (hn : 0 < n) (hk : isIdentifier k = true) :
    Gives (parseIdentifier n) (k ++ 32 :: t) (32 :: t) (.ok k) := by
  obtain ⟨-, hall, c, rest, rfl, hc⟩ := printYangString_identifier hk
  obtain ⟨-, h34, h39, -⟩ := isPlain_not hc
  refine Gives.next (t := 32 :: t) (v := c :: rest) ?_ ?_
  · exact (check_no (by simpa using h39)).next ((check_no (by simpa using h34)).next
      (plainString_gives hn hall rfl (by simp)))
  · rw [if_pos hk]
    exact .pure _

end Yang

end Snabb
