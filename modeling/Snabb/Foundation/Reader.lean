import Mathlib.Data.List.Basic
import Mathlib.Order.Nat
import Mathlib.Tactic.Common

/-!
# Readers that stop at a limit

A reader is a stateful computation that moves a position forward and raises when it would pass a
limit. `Reads` describes one by where it begins and ends: with the limit behind its end it returns,
with the limit in between it raises. Readers in sequence are described by their composition, so one
description serves both for the whole of an input and for each of its beginnings.

`At xs p ys` says that `ys` stands in `xs` at position `p`. `Takes` describes a reader by the part
of the input that it takes wherever it stands.
-/

namespace Foundation

open List

variable {σ ε α β : Type} {pos : σ → Nat} {short : ε} {limit : Nat}
  {x : StateT σ (Except ε) α} {f : α → StateT σ (Except ε) β} {s s' s'' : σ} {v : α} {w : β}

/-- The reader `x` takes `s` to `s'` and returns `v`, unless it has to pass the limit. -/
structure Reads (pos : σ → Nat) (short : ε) (limit : Nat) (x : StateT σ (Except ε) α) (s s' : σ)
    (v : α) : Prop where
  le : pos s ≤ pos s'
  returns : pos s' ≤ limit → x s = .ok (v, s')
  raises : pos s ≤ limit → limit < pos s' → x s = .error short

theorem Reads.of_eq (h : x s = .ok (v, s')) (hpos : pos s' = pos s) :
    Reads pos short limit x s s' v :=
  ⟨hpos.ge, fun _ => h, fun hle hlt => absurd hlt (by omega)⟩

theorem Reads.pure : Reads pos short limit (pure v) s s v := .of_eq rfl rfl

/-- **One reader after another.** -/
theorem Reads.bind (h : Reads pos short limit x s s' v) (h' : Reads pos short limit (f v) s' s'' w) :
    Reads pos short limit (x >>= f) s s'' w where
  le := h.le.trans h'.le
  returns hle := by
    have hx := h.returns (h'.le.trans hle)
    have hf := h'.returns hle
    simp only [Bind.bind, StateT.bind, hx]
    exact hf
  raises hle hlt := by
    by_cases hfirst : limit < pos s'
    · have hx := h.raises hle hfirst
      simp only [Bind.bind, StateT.bind, hx]
      rfl
    · have hx := h.returns (not_lt.mp hfirst)
      have hf := h'.raises (not_lt.mp hfirst) hlt
      simp only [Bind.bind, StateT.bind, hx]
      exact hf

/-! ## Positions -/

variable {A : Type} {xs ys zs : List A} {p n : Nat}

/-- `ys` stands in `xs` at position `p`. -/
def At (xs : List A) (p : Nat) (ys : List A) : Prop := ys <+: xs.drop p

theorem At.left (h : At xs p (ys ++ zs)) : At xs p ys := (prefix_append ys zs).trans h

theorem At.right (h : At xs p (ys ++ zs)) : At xs (p + ys.length) zs := by
  obtain ⟨rest, hrest⟩ := h
  refine ⟨rest, ?_⟩
  rw [← drop_drop, ← hrest, append_assoc, drop_left]

theorem at_zero (xs : List A) : At xs 0 xs := prefix_rfl

/-- What stands before a cut is still there. -/
theorem At.take_drop (h : At xs p ys) (hle : p + ys.length ≤ n) :
    ((xs.take n).drop p).take ys.length = ys := by
  obtain ⟨rest, hrest⟩ := h
  rw [drop_take, ← hrest, take_take, min_eq_left (by omega), take_left]

/-! ## Readers of a part -/

variable {r : StateT Nat (Except ε) α} {g : α → StateT Nat (Except ε) β}

/-- Wherever `ys` stands in `xs`, the reader takes it and returns `v`. -/
def Takes (xs : List A) (r : StateT Nat (Except ε) α) (ys : List A) (v : α) : Prop :=
  ∀ p, At xs p ys → r p = .ok (v, p + ys.length)

theorem Takes.pure : Takes xs (pure v : StateT Nat (Except ε) α) [] v := fun _ _ => rfl

theorem Takes.bind (h : Takes xs r ys v) (h' : Takes xs (g v) zs w) :
    Takes xs (r >>= g) (ys ++ zs) w := by
  intro p hat
  have hr := h p hat.left
  have hg := h' (p + ys.length) hat.right
  simp only [Bind.bind, StateT.bind, hr]
  rw [List.length_append, ← Nat.add_assoc]
  exact hg

theorem Takes.map {k : α → β} (h : Takes xs r ys v) : Takes xs (k <$> r) ys (k v) := by
  intro p hat
  have hr := h p hat
  simp only [Functor.map, StateT.map, hr]
  rfl

end Foundation
