import Snabb.Lib.CTable.Rebuild

/-!
# Hash tables are finite maps (`lib/ctable.lua`)

A use of a table is a sequence of operations. Next to the table stands the map that the
documentation promises, and what each operation should have returned or raised.

`add` to a full table resizes it to twice its size first. `resize` refuses a size that the
entries would overfill, and for small tables with a low `max_occupancy_rate` twice the size
is too small: the error of `resize` is then raised by `add`. And a table of size 0 has no
entry that a lookup could read. `Fits` excludes exactly this.

- `ctable_is_a_map`: a use that meets `Fits` at each operation touches no entry outside the
  array, returns and raises what is documented, and its table is the promised map.
-/

namespace Snabb

open Foundation Foundation.Slots CTable

variable {K V : Type}

/-- The operations that change a table. -/
inductive CTableOp (K V : Type) where
  | add (key : K) (value : V) (updatesAllowed : UpdatesAllowed)
  | update (key : K) (value : V)
  | remove (key : K) (missingAllowed : Bool)
  | removePtr (index : Nat)
  | resize (size : Nat)

/-- A table in use, with the map it should be, and the results of the operations. -/
structure CTableUse (K V : Type) where
  table : CTable K V
  map : K → Option V
  results : List (Except CTableRaise Bool)
  documented : List (Except CTableRaise Bool)

namespace CTableOp

variable [DecidableEq K]

/-- Perform an operation. -/
def perform (conf : CTableParams K) (t : CTable K V) :
    CTableOp K V → Except CTableFault (CTable K V × Except CTableRaise Bool)
  | add key value updatesAllowed => do
    let (t, r) ← t.add conf key value updatesAllowed
    return (t, r.map fun _ => true)
  | update key value => do
    let (t, r) ← t.update conf key value
    return (t, r.map fun _ => true)
  | remove key missingAllowed => t.remove conf key missingAllowed
  | removePtr index => do
    let (t, r) ← t.removePtr conf index
    return (t, r.map fun _ => true)
  | resize size => do
    let (t, r) ← t.resize conf size
    return (t, r.map fun _ => true)

/-- What an operation does to the map, and what it returns or raises. -/
def documented (conf : CTableConf K) (t : CTable K V) (m : K → Option V) :
    CTableOp K V → (K → Option V) × Except CTableRaise Bool
  | add key value updatesAllowed =>
    let (m, r) := documentedAdd m key value updatesAllowed
    (m, r.map fun _ => true)
  | update key value =>
    let (m, r) := documentedAdd m key value .required
    (m, r.map fun _ => true)
  | remove key missingAllowed => documentedRemove m key missingAllowed
  | removePtr index =>
    match t.entries index with
    | some e => (Function.update m e.key none, .ok true)
    | none => (m, .error .assertion)
  | resize size =>
    (m, if (t.occupancy : ℚ) / conf.maxOccupancyRate ≤ size then .ok true else .error .assertion)

/-- Growing helps where it is needed, and there is an entry where a lookup begins. -/
def Fits (conf : CTableConf K) (t : CTable K V) : CTableOp K V → Prop
  | add _ _ _ => t.CanAdd conf
  | update _ _ => t.CanAdd conf
  | remove _ _ => 0 < t.size
  | removePtr _ => True
  | resize _ => True

instance (conf : CTableConf K) (t : CTable K V) (op : CTableOp K V) : Decidable (op.Fits conf t) :=
  match op with
  | add _ _ _ => inferInstanceAs (Decidable (_ ∨ _))
  | update _ _ => inferInstanceAs (Decidable (_ ∨ _))
  | remove _ _ => inferInstanceAs (Decidable (_ < _))
  | removePtr _ => isTrue trivial
  | resize _ => isTrue trivial

end CTableOp

namespace CTableUse

variable [DecidableEq K]

/-- A new table. -/
def begin (conf : CTableConf K) (initialSize : Nat) : Except CTableFault (CTableUse K V) := do
  let (t, r) ← CTable.new conf initialSize
  return ⟨t, fun _ => none, [r.map fun _ => true], [.ok true]⟩

/-- One operation. -/
def step (conf : CTableConf K) (u : CTableUse K V) (op : CTableOp K V) :
    Except CTableFault (CTableUse K V) := do
  let (t, r) ← op.perform conf u.table
  let (m, r') := op.documented conf u.table u.map
  return ⟨t, m, u.results ++ [r], u.documented ++ [r']⟩

end CTableUse

/-- A table is a map: for whoever looks a key up, for whoever visits the entries, and for
`selfcheck`. -/
structure CTable.Agrees [DecidableEq K] (conf : CTableParams K) (t : CTable K V)
    (m : K → Option V) : Prop where
  lookup : 0 < t.size → ∀ key, ∃ p, t.lookupPtr conf key = .ok p ∧
    (p.bind t.entries).map (fun e => (e.key, e.value)) = (m key).map fun value => (key, value)
  iterate : ∃ es, t.iterate = .ok es ∧ (es.map CTableEntry.key).Nodup ∧
    (∀ key value, m key = some value ↔ ∃ e ∈ es, e.key = key ∧ e.value = value) ∧
    es.length = t.occupancy
  selfcheck : t.selfcheck conf = .ok ()
  valid : Valid conf t

section

variable [DecidableEq K] {conf : CTableConf K} {t : CTable K V} {m : K → Option V}

/-- **A valid table is the map that it holds.** -/
theorem CTable.Valid.agrees {conf : CTableParams K} (h : Valid conf t) (hm : Holds t m) :
    t.Agrees conf m := by
  constructor
  · intro hsize key
    obtain ⟨p, hp, hfound⟩ := h.lookupPtr hsize key
    refine ⟨p, hp, ?_⟩
    cases p with
    | none =>
      rw [hm.eq_none_iff.mpr hfound]
      rfl
    | some i =>
      obtain ⟨e, he, rfl⟩ := hfound
      rw [(hm e.key e.value).mpr ⟨e, ⟨i, he⟩, rfl, rfl⟩, Option.bind_some, he]
      rfl
  · refine ⟨_, h.iterate, Distinct.nodup h.distinct _, fun key value => ?_, h.occupancy⟩
    rw [hm key value]
    constructor
    · rintro ⟨e, he, hkey, hvalue⟩
      exact ⟨e, h.mem_entries.mpr he, hkey, hvalue⟩
    · rintro ⟨e, he, hkey, hvalue⟩
      exact ⟨e, h.mem_entries.mp he, hkey, hvalue⟩
  · exact h.selfcheck
  · exact h

theorem CTableOp.perform_ok (h : Valid conf t) (hm : Holds t m) {op : CTableOp K V}
    (hfits : op.Fits conf t) :
    ∃ t' r, op.perform conf t = .ok (t', r) ∧ Valid conf t' ∧
      Holds t' (op.documented conf t m).1 ∧ r = (op.documented conf t m).2 := by
  have hadd : ∀ key value updatesAllowed, t.CanAdd conf → ∃ t' r,
      CTableOp.perform conf t (.add key value updatesAllowed) = .ok (t', r) ∧ Valid conf t' ∧
        Holds t' (CTableOp.documented conf t m (.add key value updatesAllowed)).1 ∧
        r = (CTableOp.documented conf t m (.add key value updatesAllowed)).2 := by
    intro key value updatesAllowed hcan
    obtain ⟨_, hspread, hlimited⟩ := h.add hm hcan key value updatesAllowed
    obtain ⟨t', r, heq, hvalid, hm', hr, -⟩ := hlimited.ok (hspread rfl)
    refine ⟨t', r.map fun _ => true, bind_of_eq_ok heq, hvalid, hm', ?_⟩
    show r.map _ = (documentedAdd m key value updatesAllowed).2.map _
    rw [← hr]
    cases r <;> rfl
  cases op with
  | add key value updatesAllowed => exact hadd key value updatesAllowed hfits
  | update key value => exact hadd key value .required hfits
  | remove key missingAllowed =>
    obtain ⟨t', r, heq, hvalid, hm', -, hr, -⟩ :=
      (h.remove hm hfits key missingAllowed).ok fun _ _ _ => .of_unlimited rfl _ _ _
    exact ⟨t', r, heq, hvalid, hm', hr (canRemove conf t)⟩
  | removePtr index =>
    cases he : t.entries index with
    | none =>
      have hdoc : CTableOp.documented conf t m (.removePtr index) = (m, .error .assertion) := by
        simp only [CTableOp.documented, he]
      rw [hdoc]
      exact ⟨t, _, bind_of_eq_ok (h.removePtr_none he), h, hm, rfl⟩
    | some e =>
      have hdoc : CTableOp.documented conf t m (.removePtr index) =
          (Function.update m e.key none, .ok true) := by
        simp only [CTableOp.documented, he]
      obtain ⟨t', r, heq, hvalid, hm', -, hr, -⟩ :=
        (h.removePtr hm he).ok fun _ _ => .of_unlimited rfl _ _ _
      obtain rfl := hr (canRemove conf t)
      rw [hdoc]
      exact ⟨t', _, bind_of_eq_ok heq, hvalid, hm', rfl⟩
  | resize size =>
    by_cases hsize : t.occupancy / conf.maxOccupancyRate ≤ size
    · obtain ⟨t', _, heq, rfl, hvalid, hm', -⟩ :=
        (h.resize hm hsize).ok (.of_unlimited rfl _ _ _)
      exact ⟨t', _, bind_of_eq_ok heq, hvalid, hm', (if_pos hsize).symm⟩
    · exact ⟨t, _, bind_of_eq_ok (if_neg hsize), h, hm, (if_neg hsize).symm⟩

end

/-- **A hash table is a finite map.** From any initial size on, a use whose operations fit
touches no entry outside the array, each operation returns and raises what is documented, and
the table that it ends with is the map that the documentation promises. -/
theorem ctable_is_a_map [DecidableEq K] (conf : CTableConf K) (initialSize : Nat) :
    ∃ u₀, CTableUse.begin (V := V) conf initialSize = .ok u₀ ∧
      ∀ ops, Along (CTableUse.step conf) (fun u op => op.Fits conf u.table) u₀ ops →
        ∃ u, run (CTableUse.step conf) u₀ ops = .ok u ∧ u.results = u.documented ∧
          u.table.Agrees conf u.map := by
  obtain ⟨t₀, hnew, hvalid₀, hm₀, -⟩ := CTable.new_ok (K := K) (V := V) conf initialSize
  refine ⟨_, bind_of_eq_ok hnew, fun ops hfits => ?_⟩
  obtain ⟨u, hrun, hvalid, hm, hresults⟩ := run_total
    (I := fun u _ => Valid conf u.table ∧ Holds u.table u.map ∧ u.results = u.documented)
    (by
      rintro u op ops ⟨hvalid, hm, hresults⟩ hfit
      obtain ⟨t', r, hperform, hvalid', hm', rfl⟩ := CTableOp.perform_ok hvalid hm hfit
      exact ⟨_, bind_of_eq_ok hperform, hvalid', hm', congrArg (· ++ _) hresults⟩)
    ⟨hvalid₀, hm₀, rfl⟩ hfits
  exact ⟨u, hrun, hresults, hvalid.agrees hm⟩

/-- Hash functions under which every third key collides, with the default rates. -/
def collidingConf : CTableConf Nat where
  hashFn seed key := (key % 3 + seed) % hashMax
  maxOccupancyRate := 9 / 10
  minOccupancyRate := 0
  hashFn_lt _ _ := Nat.mod_lt _ (by decide)
  rate_pos := by norm_num
  rate_le_one := by norm_num
  min_le := by norm_num

/-- The same with a quarter of the table in use at most. -/
def sparseConf : CTableConf Nat :=
  { collidingConf with
    maxOccupancyRate := 1 / 4
    rate_pos := by norm_num
    rate_le_one := by norm_num
    min_le := by norm_num [collidingConf] }

/-- A table grows, is updated, and loses keys. -/
theorem ctable_is_a_map_sample :
    ∃ u₀ u, CTableUse.begin (V := Nat) collidingConf 1 = .ok u₀ ∧
      run (CTableUse.step collidingConf) u₀
        [.add 1 10 .no, .add 4 40 .no, .add 7 70 .no, .remove 4 false, .update 7 77, .resize 9,
          .removePtr 3, .remove 5 true] = .ok u ∧
      u.results = u.documented ∧ u.table.Agrees collidingConf u.map := by
  obtain ⟨u₀, hbegin, hall⟩ := ctable_is_a_map (V := Nat) collidingConf 1
  have hfits : (CTableUse.begin (V := Nat) collidingConf 1).toOption.all (fun u => decide
      (Along (CTableUse.step collidingConf) (fun u op => op.Fits collidingConf u.table) u
        [.add 1 10 .no, .add 4 40 .no, .add 7 70 .no, .remove 4 false, .update 7 77, .resize 9,
          .removePtr 3, .remove 5 true])) = true := by decide +kernel
  rw [hbegin] at hfits
  obtain ⟨u, hu⟩ := hall _ (of_decide_eq_true hfits)
  exact ⟨u₀, u, hbegin, hu⟩

/-- A sparse table of size 1 cannot grow: adding a second key raises. -/
theorem sparse_table_refuses_second_key :
    ∃ u₀ u, CTableUse.begin (V := Nat) sparseConf 1 = .ok u₀ ∧
      run (CTableUse.step sparseConf) u₀ [.add 0 0 .no, .add 1 1 .no] = .ok u ∧
      u.results = [.ok true, .ok true, .error .assertion] ∧
      u.documented = [.ok true, .ok true, .ok true] := by
  obtain ⟨u₀, hbegin, hrun⟩ := ok_of_any (r := CTableUse.begin (V := Nat) sparseConf 1)
    (q := fun u => (run (CTableUse.step sparseConf) u
      [.add 0 0 .no, .add 1 1 .no]).toOption.any fun u : CTableUse Nat Nat =>
        decide (u.results = [.ok true, .ok true, .error .assertion] ∧
          u.documented = [.ok true, .ok true, .ok true])) (by decide +kernel)
  obtain ⟨u, hu, hresults⟩ := ok_of_any hrun
  exact ⟨u₀, u, hbegin, hu, of_decide_eq_true hresults⟩

end Snabb
