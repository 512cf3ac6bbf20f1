import Mathlib.Logic.Function.Basic
import Mathlib.Tactic.Common

/-!
# Trees of Lua tables

A value is `nil`, a boolean, a number, a string, or a table whose fields are values; no table is a
field twice. Indexing anything but a table or a string raises, which is `none` here, and so does
assigning to a field of anything but a table. `modifyAt` changes what is at the end of a path.

- `modifyAt_comm`: changes at the ends of paths that part commute;
- `modifyAt_none_iff`: and do not decide whether the other one raises.
-/

namespace Foundation

open List Option
open Function (update update_comm update_idem update_of_ne update_self)

/-- A key of a table. -/
inductive LuaKey where
  | name (s : String)
  | number (n : Nat)
deriving DecidableEq, Repr

/-- A value, over a type of numbers. -/
inductive LuaValue (N : Type) where
  | nil
  | boolean (b : Bool)
  | number (x : N)
  | string (s : String)
  | table (fields : LuaKey → LuaValue N)

namespace LuaValue

variable {N : Type}

/-- A table without fields. -/
def empty : LuaValue N := table fun _ => nil

def isNil : LuaValue N → Bool
  | nil => true
  | _ => false

/-- Whether a condition holds. -/
def truthy : LuaValue N → Bool
  | nil => false
  | boolean b => b
  | _ => true

def isTable : LuaValue N → Bool
  | table _ => true
  | _ => false

/-- `v[k]`, for a key that is not the name of a string function. -/
def index : LuaValue N → LuaKey → Option (LuaValue N)
  | table t, k => some (t k)
  | string _, _ => some nil
  | _, _ => none

/-- `v[k] = w`. -/
def assign (v : LuaValue N) (k : LuaKey) (w : LuaValue N) : Option (LuaValue N) :=
  match v with
  | table t => some (table (update t k w))
  | _ => none

/-- Change what is at the end of a path. -/
def modifyAt : List LuaKey → (LuaValue N → Option (LuaValue N)) → LuaValue N → Option (LuaValue N)
  | [], f, v => f v
  | k :: path, f, v => do
    let below ← v.index k
    let below ← modifyAt path f below
    v.assign k below

variable {f g : LuaValue N → Option (LuaValue N)} {v v' : LuaValue N} {t : LuaKey → LuaValue N}
  {k k' : LuaKey} {path p q : List LuaKey}

theorem isNil_iff : v.isNil ↔ v = nil := by
  cases v <;> simp [isNil]

theorem isTable_iff : v.isTable ↔ ∃ t, v = table t := by
  cases v <;> simp [isTable]

theorem modifyAt_table (t : LuaKey → LuaValue N) (k : LuaKey) (path : List LuaKey)
    (f : LuaValue N → Option (LuaValue N)) : modifyAt (k :: path) f (table t) =
      (modifyAt path f (t k)).map fun w => table (update t k w) := by
  rw [map_eq_bind]
  rfl

/-- Only tables have something at the end of a path. -/
theorem modifyAt_eq_none (h : v.isTable = false) (k : LuaKey) (path : List LuaKey)
    (f : LuaValue N → Option (LuaValue N)) : modifyAt (k :: path) f v = none := by
  cases v with
  | table t => cases h
  | string s =>
    show (modifyAt path f nil).bind _ = none
    cases modifyAt path f nil with
    | none => rfl
    | some w => rfl
  | nil => rfl
  | boolean b => rfl
  | number x => rfl

/-- A change below a field is one of what the field holds. -/
theorem modifyAt_cons_eq_some (hg : modifyAt (k :: path) g v = some v') :
    ∃ t w, v = table t ∧ modifyAt path g (t k) = some w ∧ v' = table (update t k w) := by
  cases htable : v.isTable with
  | false =>
    rw [modifyAt_eq_none htable] at hg
    cases hg
  | true =>
    obtain ⟨t, rfl⟩ := isTable_iff.mp htable
    rw [modifyAt_table] at hg
    obtain ⟨w, hw, rfl⟩ := Option.map_eq_some_iff.mp hg
    exact ⟨t, w, rfl, hw, rfl⟩

theorem modifyAt_below (k : LuaKey) (p q : List LuaKey) (f g : LuaValue N → Option (LuaValue N))
    (t : LuaKey → LuaValue N) : (modifyAt (k :: p) f (table t)).bind (modifyAt (k :: q) g) =
      ((modifyAt p f (t k)).bind (modifyAt q g)).map fun w => table (update t k w) := by
  rw [modifyAt_table]
  cases modifyAt p f (t k) with
  | none => rfl
  | some w =>
    show modifyAt (k :: q) g (table (update t k w)) = _
    rw [modifyAt_table, update_self]
    simp only [update_idem]
    rfl

theorem modifyAt_modifyAt (path : List LuaKey) (f g : LuaValue N → Option (LuaValue N))
    (v : LuaValue N) :
    (modifyAt path f v).bind (modifyAt path g) = modifyAt path (fun w => (f w).bind g) v := by
  induction path generalizing v with
  | nil => rfl
  | cons k path ih =>
    cases htable : v.isTable with
    | false =>
      rw [modifyAt_eq_none htable, modifyAt_eq_none htable]
      rfl
    | true =>
      obtain ⟨t, rfl⟩ := isTable_iff.mp htable
      rw [modifyAt_below, ih, modifyAt_table]

/-- **Changes at the ends of paths that part** commute. -/
theorem modifyAt_comm (h : k ≠ k') (path p q : List LuaKey) (f g : LuaValue N → Option (LuaValue N))
    (v : LuaValue N) :
    (modifyAt (path ++ k :: p) f v).bind (modifyAt (path ++ k' :: q) g) =
      (modifyAt (path ++ k' :: q) g v).bind (modifyAt (path ++ k :: p) f) := by
  induction path generalizing v with
  | nil =>
    simp only [nil_append]
    cases htable : v.isTable with
    | false =>
      rw [modifyAt_eq_none htable, modifyAt_eq_none htable]
      rfl
    | true =>
      obtain ⟨t, rfl⟩ := isTable_iff.mp htable
      have hother {w w' : LuaValue N} : update (update t k w) k' w' =
          update (update t k' w') k w := update_comm h _ _ _
      rw [modifyAt_table, modifyAt_table]
      cases hf : modifyAt p f (t k) with
      | none =>
        cases hg : modifyAt q g (t k') with
        | none => rfl
        | some w' =>
          show none = modifyAt (k :: p) f (table (update t k' w'))
          rw [modifyAt_table, update_of_ne h, hf]
          rfl
      | some w =>
        show modifyAt (k' :: q) g (table (update t k w)) = _
        rw [modifyAt_table, update_of_ne h.symm]
        cases hg : modifyAt q g (t k') with
        | none => rfl
        | some w' =>
          show some _ = modifyAt (k :: p) f (table (update t k' w'))
          rw [modifyAt_table, update_of_ne h, hf]
          exact congrArg (fun t => some (table t)) hother
  | cons k₀ path ih =>
    simp only [cons_append]
    cases htable : v.isTable with
    | false =>
      rw [modifyAt_eq_none htable, modifyAt_eq_none htable]
      rfl
    | true =>
      obtain ⟨t, rfl⟩ := isTable_iff.mp htable
      rw [modifyAt_below, modifyAt_below, ih]

/-- A change does not decide whether one at the end of a path that parts from its own raises. -/
theorem modifyAt_none_iff (h : k ≠ k') (hg : modifyAt (path ++ k' :: q) g v = some v') :
    modifyAt (path ++ k :: p) f v' = none ↔ modifyAt (path ++ k :: p) f v = none := by
  induction path generalizing v v' with
  | nil =>
    obtain ⟨t, w, rfl, -, rfl⟩ := modifyAt_cons_eq_some hg
    rw [nil_append, modifyAt_table, modifyAt_table, update_of_ne h, map_eq_none_iff,
      map_eq_none_iff]
  | cons k₀ path ih =>
    obtain ⟨t, w, rfl, hw, rfl⟩ := modifyAt_cons_eq_some hg
    rw [cons_append, modifyAt_table, modifyAt_table, update_self, map_eq_none_iff,
      map_eq_none_iff]
    exact ih hw

/-- A change does not decide whether another one at its place raises if this is so for what is
there. -/
theorem modifyAt_none_iff_of_same (h : ∀ w w', g w = some w' → (f w' = none ↔ f w = none))
    (hg : modifyAt path g v = some v') : modifyAt path f v' = none ↔ modifyAt path f v = none := by
  induction path generalizing v v' with
  | nil => exact h v v' hg
  | cons k path ih =>
    obtain ⟨t, w, rfl, hw, rfl⟩ := modifyAt_cons_eq_some hg
    rw [modifyAt_table, modifyAt_table, update_self, map_eq_none_iff, map_eq_none_iff]
    exact ih hw

/-- Paths that part. -/
def Parting (p q : List LuaKey) : Prop :=
  ∃ path k p' k' q', k ≠ k' ∧ p = path ++ k :: p' ∧ q = path ++ k' :: q'

theorem Parting.comm (h : Parting p q) (f g : LuaValue N → Option (LuaValue N)) (v : LuaValue N) :
    (modifyAt p f v).bind (modifyAt q g) = (modifyAt q g v).bind (modifyAt p f) := by
  obtain ⟨path, k, p', k', q', hne, rfl, rfl⟩ := h
  exact modifyAt_comm hne path p' q' f g v

theorem Parting.none_iff (h : Parting p q) (hg : modifyAt q g v = some v') :
    modifyAt p f v' = none ↔ modifyAt p f v = none := by
  obtain ⟨path, k, p', k', q', hne, rfl, rfl⟩ := h
  exact modifyAt_none_iff hne hg

end LuaValue

end Foundation
