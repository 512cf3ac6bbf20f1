import Snabb.Foundation.Ring
import Snabb.Foundation.Run
import Mathlib.Data.UInt
import Mathlib.Data.Finset.Card

/-!
# The group freelist (`core/group_freelist.lua`)

The processes of a group exchange chunks of packets through a bounded queue in shared
memory that works without locks. `enqueue_pos` and `dequeue_pos` count the chunks that were
added and removed; the slot of a position is the position modulo the size. Every slot has a
sequence number that says whose turn it is: `pos` when the chunk of position `pos` may be
added, `pos + 1` when it may be removed, and `pos + size` when the slot is free again.

Any number of processes run concurrently. A step of the model is one load or one
compare-and-swap of a 64-bit word; a process may stop between two of them for as long as it
likes. What is in a chunk is a value of a type of its own.

All positions are `uint64_t`. Their differences are taken as `int64_t`, which goes wrong for
a process that sleeps while the others add `2 ^ 63` chunks (`sleeper_refused`).
-/

namespace Snabb

open Foundation List Bool
open Function (update update_of_ne update_self)
open Option (some.inj)

/-- Where a process is. -/
inductive Party where
  | idle
  /-- `start_add` is about to load `enqueue_pos`. -/
  | loadEnqueue
  /-- It is about to load the sequence number of the slot. -/
  | loadAddSequence (pos : UInt64)
  /-- It is about to swap `enqueue_pos`. -/
  | casEnqueue (pos : UInt64)
  /-- It has returned the chunk of the slot and the sequence number `pos + 1`. -/
  | adding (pos : UInt64)
  /-- `finish` has loaded the sequence number and is about to swap it. -/
  | finishAdd (pos old : UInt64)
  /-- `start_remove` is about to load `dequeue_pos`. -/
  | loadDequeue
  | loadRemoveSequence (pos : UInt64)
  | casDequeue (pos : UInt64)
  /-- It has returned the chunk of the slot and the sequence number `pos + mask + 1`. -/
  | removing (pos : UInt64)
  | finishRemove (pos old : UInt64)
  /-- The assertion of `finish` has failed. -/
  | broken
deriving DecidableEq

/-- What a process does next. -/
inductive PartyMove (α : Type) where
  | startAdd
  | startRemove
  | proceed
  /-- The process that adds a chunk writes to it. -/
  | fill (v : α)
  | finish

/-- `struct group_freelist`, the processes, and the history of the queue. -/
structure GroupFreelist (P α : Type) where
  size : Nat
  enqueuePos : UInt64
  dequeuePos : UInt64
  sequence : Nat → UInt64
  chunk : Nat → α
  party : P → Party
  /-- How often `start_add` has succeeded. -/
  added : Nat
  /-- The positions that `start_add` and `start_remove` have given out. -/
  addOrder : List Nat
  removeOrder : List Nat
  /-- The positions and the contents of the chunks that were published by `finish`. -/
  published : List (Nat × α)
  /-- The positions of the chunks that were removed and whose slot was freed by `finish`. -/
  recycled : List Nat

/-- `ffi.cast("int64_t", a) - ffi.cast("int64_t", b)`. -/
def int64Difference (a b : UInt64) : Int := (a - b).toBitVec.toInt

namespace GroupFreelist

variable {P α : Type} [DecidableEq P]

/-- `freelist_create`; what the chunks hold is left open. -/
def new (size : Nat) (chunk : Nat → α) : GroupFreelist P α where
  size := size
  enqueuePos := 0
  dequeuePos := 0
  sequence i := UInt64.ofNat i
  chunk := chunk
  party _ := .idle
  added := 0
  addOrder := []
  removeOrder := []
  published := []
  recycled := []

/-- `enqueue_mask` and `dequeue_mask`. -/
def mask (s : GroupFreelist P α) : UInt64 := UInt64.ofNat (s.size - 1)

/-- `band(pos, mask)`. -/
def slot (s : GroupFreelist P α) (pos : UInt64) : Nat := (pos &&& s.mask).toNat

/-- A process goes on at another place. -/
def enter (s : GroupFreelist P α) (p : P) (party : Party) : GroupFreelist P α :=
  { s with party := update s.party p party }

/-- The next step of `start_add`, `start_remove` or `finish`. -/
def proceed (s : GroupFreelist P α) (p : P) : Party → Option (GroupFreelist P α)
  | .loadEnqueue => some (s.enter p (.loadAddSequence s.enqueuePos))
  | .loadAddSequence pos =>
    let dif := int64Difference (s.sequence (s.slot pos)) pos
    if dif = 0 then some (s.enter p (.casEnqueue pos))
    else if dif < 0 then some (s.enter p .idle)
    else some (s.enter p .loadEnqueue)
  | .casEnqueue pos =>
    if s.enqueuePos = pos then
      some { s.enter p (.adding pos) with
        enqueuePos := pos + 1
        added := s.added + 1
        addOrder := s.addOrder ++ [pos.toNat] }
    -- the loop goes on with the same position
    else some (s.enter p (.loadAddSequence pos))
  | .loadDequeue => some (s.enter p (.loadRemoveSequence s.dequeuePos))
  | .loadRemoveSequence pos =>
    let dif := int64Difference (s.sequence (s.slot pos)) (pos + 1)
    if dif = 0 then some (s.enter p (.casDequeue pos))
    else if dif < 0 then some (s.enter p .idle)
    else some (s.enter p .loadDequeue)
  | .casDequeue pos =>
    if s.dequeuePos = pos then
      some { s.enter p (.removing pos) with
        dequeuePos := pos + 1
        removeOrder := s.removeOrder ++ [pos.toNat] }
    else some (s.enter p (.loadRemoveSequence pos))
  | .finishAdd pos old =>
    if s.sequence (s.slot pos) = old then
      some { s.enter p .idle with
        sequence := update s.sequence (s.slot pos) (pos + 1)
        published := s.published ++ [(pos.toNat, s.chunk (s.slot pos))] }
    else some (s.enter p .broken)
  | .finishRemove pos old =>
    if s.sequence (s.slot pos) = old then
      some { s.enter p .idle with
        sequence := update s.sequence (s.slot pos) (pos + s.mask + 1)
        recycled := s.recycled ++ [pos.toNat] }
    else some (s.enter p .broken)
  | .idle | .adding _ | .removing _ | .broken => none

/-- One step of a process. -/
def move (s : GroupFreelist P α) (next : P × PartyMove α) : Option (GroupFreelist P α) :=
  match s.party next.1, next.2 with
  | .idle, .startAdd => some (s.enter next.1 .loadEnqueue)
  | .idle, .startRemove => some (s.enter next.1 .loadDequeue)
  | .adding pos, .fill v => some { s with chunk := update s.chunk (s.slot pos) v }
  | .adding pos, .finish => some (s.enter next.1 (.finishAdd pos (s.sequence (s.slot pos))))
  | .removing pos, .finish => some (s.enter next.1 (.finishRemove pos (s.sequence (s.slot pos))))
  | party, .proceed => s.proceed next.1 party
  | _, _ => none

end GroupFreelist

/-- The position of the chunk that a process holds, between `start_add` or `start_remove`
and the end of `finish`. -/
def Party.holds : Party → Option UInt64
  | .adding pos => some pos
  | .finishAdd pos _ => some pos
  | .removing pos => some pos
  | .finishRemove pos _ => some pos
  | _ => none

namespace GroupFreelist

variable {P α : Type} {s s' : GroupFreelist P α} {n : Nat} {p : P}

/-! ## Positions that do not wrap -/

theorem int64Difference_eq {a b : UInt64} (ha : a.toNat < 2 ^ 63) (hb : b.toNat < 2 ^ 63) :
    int64Difference a b = (a.toNat : Int) - b.toNat := by
  have hsub := UInt64.toNat_sub a b
  show (if 2 * (a - b).toNat < 2 ^ 64 then ((a - b).toNat : Int)
    else ((a - b).toNat : Int) - (2 ^ 64 : Nat)) = _
  split <;> omega

theorem toNat_succ {a : UInt64} (h : a.toNat < 2 ^ 63) : (a + 1).toNat = a.toNat + 1 := by
  rw [UInt64.toNat_add, UInt64.toNat_one]
  omega

theorem slot_eq (hsize : s.size = 2 ^ n) (hn : 2 ^ n < 2 ^ 63) (pos : UInt64) :
    s.slot pos = pos.toNat % 2 ^ n := by
  have hmask : (UInt64.ofNat (2 ^ n - 1)).toNat = 2 ^ n - 1 := UInt64.toNat_ofNat_of_lt'
    (show 2 ^ n - 1 < 2 ^ 64 by omega)
  rw [slot, mask, hsize, UInt64.toNat_and, hmask, Nat.and_two_pow_sub_one_eq_mod]

/-! ## The invariant -/

/-- The chunk of position `t` was published. `cur` is the position whose turn it is at a slot,
and `full` says that its chunk was published already. -/
def Published (n : Nat) (cur : Nat → Nat) (full : Nat → Bool) (t : Nat) : Prop :=
  t < cur (t % 2 ^ n) ∨ t = cur (t % 2 ^ n) ∧ full (t % 2 ^ n) = true

/-- What a process knows. What it has seen at a slot stays true, as slots only move on; and
the slot of a chunk that it holds does not move. -/
def Knows (n : Nat) (s : GroupFreelist P α) (cur : Nat → Nat) (full : Nat → Bool) :
    Party → Prop
  | .idle => True
  | .loadEnqueue => True
  | .loadAddSequence pos => pos.toNat ≤ s.added
  | .casEnqueue pos => pos.toNat ≤ s.added ∧ pos.toNat ≤ cur (pos.toNat % 2 ^ n)
  | .adding pos => pos.toNat < s.added ∧ cur (pos.toNat % 2 ^ n) = pos.toNat ∧
      full (pos.toNat % 2 ^ n) = false
  | .finishAdd pos old => pos.toNat < s.added ∧ cur (pos.toNat % 2 ^ n) = pos.toNat ∧
      full (pos.toNat % 2 ^ n) = false ∧ s.sequence (pos.toNat % 2 ^ n) = old
  | .loadDequeue => True
  | .loadRemoveSequence pos => pos.toNat ≤ s.dequeuePos.toNat
  | .casDequeue pos => pos.toNat ≤ s.dequeuePos.toNat ∧ Published n cur full pos.toNat
  | .removing pos => pos.toNat < s.dequeuePos.toNat ∧ cur (pos.toNat % 2 ^ n) = pos.toNat ∧
      full (pos.toNat % 2 ^ n) = true
  | .finishRemove pos old => pos.toNat < s.dequeuePos.toNat ∧
      cur (pos.toNat % 2 ^ n) = pos.toNat ∧ full (pos.toNat % 2 ^ n) = true ∧
      s.sequence (pos.toNat % 2 ^ n) = old
  | .broken => False

/-- The invariant of the queue, for positions that have not wrapped. -/
structure Kept (n : Nat) (s : GroupFreelist P α) (cur : Nat → Nat) (full : Nat → Bool) : Prop where
  size_eq : s.size = 2 ^ n
  two_le : 2 ≤ 2 ^ n
  bound : s.added + 2 ^ n < 2 ^ 63
  enqueue_eq : s.enqueuePos.toNat = s.added
  dequeue_le : s.dequeuePos.toNat ≤ s.added
  cur_mod : ∀ i < 2 ^ n, cur i % 2 ^ n = i
  sequence_eq : ∀ i < 2 ^ n, (s.sequence i).toNat = cur i + (full i).toNat
  cur_lt : ∀ i < 2 ^ n, cur i < s.dequeuePos.toNat + 2 ^ n
  full_lt : ∀ i < 2 ^ n, full i = true → cur i < s.added
  taken_le : ∀ t < s.added, t ≤ cur (t % 2 ^ n)
  removed_published : ∀ t < s.dequeuePos.toNat, Published n cur full t
  addOrder_eq : s.addOrder = List.range s.added
  removeOrder_eq : s.removeOrder = List.range s.dequeuePos.toNat
  published_iff : ∀ t, t ∈ s.published.map Prod.fst ↔ Published n cur full t
  published_nodup : (s.published.map Prod.fst).Nodup
  recycled_iff : ∀ t, t ∈ s.recycled ↔ t < cur (t % 2 ^ n)
  recycled_nodup : s.recycled.Nodup
  chunk_mem : ∀ i < 2 ^ n, full i = true → (cur i, s.chunk i) ∈ s.published
  knows : ∀ p, Knows n s cur full (s.party p)
  exclusive : ∀ p q pos, (s.party p).holds = some pos → (s.party q).holds = some pos → p = q

variable {cur cur' : Nat → Nat} {full full' : Nat → Bool} {party : Party} {pos : UInt64}

theorem Knows.mono (h : Knows n s cur full party) (hadded : s.added ≤ s'.added)
    (hdequeue : s.dequeuePos.toNat ≤ s'.dequeuePos.toNat) (hcur : ∀ i, cur i ≤ cur' i)
    (hpublished : ∀ t, Published n cur full t → Published n cur' full' t)
    (hheld : ∀ pos, party.holds = some pos → cur' (pos.toNat % 2 ^ n) = cur (pos.toNat % 2 ^ n) ∧
      full' (pos.toNat % 2 ^ n) = full (pos.toNat % 2 ^ n) ∧
      s'.sequence (pos.toNat % 2 ^ n) = s.sequence (pos.toNat % 2 ^ n)) :
    Knows n s' cur' full' party := by
  cases party with
  | idle => trivial
  | loadEnqueue => trivial
  | loadAddSequence pos => exact h.trans hadded
  | casEnqueue pos => exact ⟨h.1.trans hadded, h.2.trans (hcur _)⟩
  | adding pos =>
    obtain ⟨hc, hf, -⟩ := hheld pos rfl
    exact ⟨h.1.trans_le hadded, hc.trans h.2.1, hf.trans h.2.2⟩
  | finishAdd pos old =>
    obtain ⟨hc, hf, hs⟩ := hheld pos rfl
    exact ⟨h.1.trans_le hadded, hc.trans h.2.1, hf.trans h.2.2.1, hs.trans h.2.2.2⟩
  | loadDequeue => trivial
  | loadRemoveSequence pos => exact h.trans hdequeue
  | casDequeue pos => exact ⟨h.1.trans hdequeue, hpublished _ h.2⟩
  | removing pos =>
    obtain ⟨hc, hf, -⟩ := hheld pos rfl
    exact ⟨h.1.trans_le hdequeue, hc.trans h.2.1, hf.trans h.2.2⟩
  | finishRemove pos old =>
    obtain ⟨hc, hf, hs⟩ := hheld pos rfl
    exact ⟨h.1.trans_le hdequeue, hc.trans h.2.1, hf.trans h.2.2.1, hs.trans h.2.2.2⟩
  | broken => exact h.elim

theorem Knows.cur_eq (h : Knows n s cur full party) (hholds : party.holds = some pos) :
    cur (pos.toNat % 2 ^ n) = pos.toNat := by
  cases party <;> simp only [Party.holds, Option.some.injEq, reduceCtorEq] at hholds
  · exact hholds ▸ h.2.1
  · exact hholds ▸ h.2.1
  · exact hholds ▸ h.2.1
  · exact hholds ▸ h.2.1

theorem Kept.size_lt (h : Kept n s cur full) : 2 ^ n < 2 ^ 63 := by
  have hbound := h.bound
  omega

theorem Kept.added_lt (h : Kept n s cur full) : s.added < 2 ^ 63 :=
  (Nat.le_add_right _ _).trans_lt h.bound

theorem Kept.slot_eq (h : Kept n s cur full) (pos : UInt64) : s.slot pos = pos.toNat % 2 ^ n :=
  GroupFreelist.slot_eq h.size_eq h.size_lt pos

theorem slot_lt (pos : UInt64) : pos.toNat % 2 ^ n < 2 ^ n := Nat.mod_lt _ (Nat.two_pow_pos n)

section

variable (h : Kept n s cur full)
include h

/-- The turn at the slot of a position is at that position or whole rounds away. -/
theorem Kept.cur_round (t : Nat) (hlt : cur (t % 2 ^ n) < t) : cur (t % 2 ^ n) + 2 ^ n ≤ t := by
  have hmod := h.cur_mod (t % 2 ^ n) (Nat.mod_lt _ (Nat.two_pow_pos n))
  by_contra hnear
  have heq := Ring.eq_of_mod_eq hmod.symm hlt.le (by omega)
  omega

theorem Kept.cur_round' (t : Nat) (hlt : t < cur (t % 2 ^ n)) : t + 2 ^ n ≤ cur (t % 2 ^ n) := by
  have hmod := h.cur_mod (t % 2 ^ n) (Nat.mod_lt _ (Nat.two_pow_pos n))
  by_contra hnear
  have heq := Ring.eq_of_mod_eq hmod hlt.le (by omega)
  omega

theorem Kept.sequence_lt {i : Nat} (hi : i < 2 ^ n) : (s.sequence i).toNat < 2 ^ 63 := by
  have hseq := h.sequence_eq i hi
  have hcur := h.cur_lt i hi
  have hbound := h.bound
  have hdequeue := h.dequeue_le
  cases hfull : full i with
  | false =>
    rw [hfull, toNat_false] at hseq
    omega
  | true =>
    rw [hfull, toNat_true] at hseq
    omega

theorem Kept.holds_lt (hheld : (s.party p).holds = some pos) : pos.toNat < s.added := by
  have hknows := h.knows p
  have hdequeue := h.dequeue_le
  cases hp : s.party p <;> rw [hp] at hknows hheld <;>
    simp only [Party.holds, Option.some.injEq, reduceCtorEq] at hheld <;> subst hheld
  · exact hknows.1
  · exact hknows.1
  · exact hknows.1.trans_le hdequeue
  · exact hknows.1.trans_le hdequeue

theorem Kept.slot_ne {q : P} {pos' : UInt64} (hne : q ≠ p)
    (hp : (s.party p).holds = some pos) (hq : (s.party q).holds = some pos') :
    pos'.toNat % 2 ^ n ≠ pos.toNat % 2 ^ n := by
  intro heq
  have hcur := (h.knows p).cur_eq hp
  have hcur' := (h.knows q).cur_eq hq
  rw [heq, hcur] at hcur'
  obtain rfl : pos = pos' := UInt64.toNat_inj.mp hcur'
  exact hne (h.exclusive q p pos hq hp)

/-- The process that adds a chunk writes to it; nobody else looks at it. -/
theorem Kept.fill (hparty : s.party p = .adding pos) (v : α) :
    Kept n { s with chunk := update s.chunk (pos.toNat % 2 ^ n) v } cur full := by
  obtain ⟨-, -, hfull⟩ : Knows n s cur full (.adding pos) := hparty ▸ h.knows p
  refine { h with chunk_mem := fun j hj hj' => ?_ }
  have hne : j ≠ pos.toNat % 2 ^ n := by
    rintro rfl
    exact false_ne_true (hfull.symm.trans hj')
  show (cur j, update s.chunk (pos.toNat % 2 ^ n) v j) ∈ s.published
  rw [update_of_ne hne]
  exact h.chunk_mem j hj hj'

end

theorem kept_new (hn : 1 ≤ n) (hbound : 2 ^ n < 2 ^ 63) (chunk : Nat → α) :
    Kept n (new (2 ^ n) chunk : GroupFreelist P α) (fun i => i) fun _ => false where
  size_eq := rfl
  two_le := Nat.le_self_pow (Nat.one_le_iff_ne_zero.mp hn) 2
  bound := by simpa [new] using hbound
  enqueue_eq := rfl
  dequeue_le := le_refl 0
  cur_mod _ hi := Nat.mod_eq_of_lt hi
  sequence_eq i hi := UInt64.toNat_ofNat_of_lt' (show i < 2 ^ 64 by omega)
  cur_lt i hi := by simpa [new] using hi
  full_lt _ _ h := by cases h
  taken_le t ht := absurd ht (Nat.not_lt_zero t)
  removed_published t ht := absurd ht (Nat.not_lt_zero t)
  addOrder_eq := rfl
  removeOrder_eq := rfl
  published_iff t := by simp [new, Published, Nat.mod_le]
  published_nodup := nodup_nil
  recycled_iff t := by simp [new, Nat.mod_le]
  recycled_nodup := nodup_nil
  chunk_mem _ _ h := by cases h
  knows _ := trivial
  exclusive _ _ _ h := by cases h

/-- The chunks that were added and not yet recycled have different slots. -/
theorem Kept.outstanding_le (h : Kept n s cur full) :
    ((Finset.range s.added).filter (· ∉ s.recycled)).card ≤ 2 ^ n := by
  have hturn : ∀ t ∈ (Finset.range s.added).filter (· ∉ s.recycled), cur (t % 2 ^ n) = t := by
    intro t ht
    rw [Finset.mem_filter, Finset.mem_range, h.recycled_iff] at ht
    exact le_antisymm (Nat.le_of_not_lt ht.2) (h.taken_le t ht.1)
  calc ((Finset.range s.added).filter (· ∉ s.recycled)).card
      ≤ (Finset.range (2 ^ n)).card := by
        refine Finset.card_le_card_of_injOn (· % 2 ^ n) (fun t _ => ?_) fun t ht t' ht' heq => ?_
        · simpa using Nat.mod_lt t (Nat.two_pow_pos n)
        · replace heq : t % 2 ^ n = t' % 2 ^ n := heq
          rw [← hturn t ht, ← hturn t' ht', heq]
    _ = 2 ^ n := Finset.card_range _

/-- `start_add` gives up at a position whose slot is still in use by an earlier round. -/
theorem Kept.add_refused (h : Kept n s cur full) (hparty : s.party p = .loadAddSequence pos)
    (hdif : int64Difference (s.sequence (s.slot pos)) pos < 0) :
    2 ^ n ≤ pos.toNat ∧ pos.toNat - 2 ^ n ∉ s.recycled := by
  have hknows : pos.toNat ≤ s.added := by
    have hp := h.knows p
    rwa [hparty] at hp
  rw [h.slot_eq, int64Difference_eq (h.sequence_lt (slot_lt pos)) (hknows.trans_lt h.added_lt)] at hdif
  have hseq := h.sequence_eq _ (slot_lt pos)
  have hround := h.cur_round pos.toNat (by omega)
  refine ⟨by omega, ?_⟩
  rw [h.recycled_iff, ← Nat.mod_eq_sub_mod (by omega)]
  omega

/-- `start_remove` gives up at a position whose chunk was not published. -/
theorem Kept.remove_refused (h : Kept n s cur full) (hparty : s.party p = .loadRemoveSequence pos)
    (hdif : int64Difference (s.sequence (s.slot pos)) (pos + 1) < 0) :
    pos.toNat ∉ s.published.map Prod.fst := by
  have hknows : pos.toNat ≤ s.dequeuePos.toNat := by
    have hp := h.knows p
    rwa [hparty] at hp
  have hbound := h.bound
  have htwo := h.two_le
  have hdequeue := h.dequeue_le
  have hsucc : (pos + 1).toNat = pos.toNat + 1 := toNat_succ (by omega)
  rw [h.slot_eq, int64Difference_eq (h.sequence_lt (slot_lt pos)) (by omega)] at hdif
  have hseq := h.sequence_eq _ (slot_lt pos)
  rw [h.published_iff]
  rintro (hlt | ⟨heq, hfull⟩)
  · omega
  · rw [hfull, toNat_true] at hseq
    omega

/-! ## Slots that move on -/

variable {t : Nat}

theorem published_publish (hcur : cur (t % 2 ^ n) = t) (hfull : full (t % 2 ^ n) = false)
    (t' : Nat) : Published n cur (update full (t % 2 ^ n) true) t' ↔
      Published n cur full t' ∨ t' = t := by
  unfold Published
  by_cases hslot : t' % 2 ^ n = t % 2 ^ n
  · rw [hslot, hcur, hfull]
    simp
  · have hne : t' ≠ t := fun heq => hslot (by rw [heq])
    rw [update_of_ne hslot]
    simp [hne]

/-- A chunk that was published and removed stays published when its slot moves on. -/
theorem published_recycle (hcur : cur (t % 2 ^ n) = t) (hfull : full (t % 2 ^ n) = true)
    (t' : Nat) : Published n (update cur (t % 2 ^ n) (t + 2 ^ n))
      (update full (t % 2 ^ n) false) t' ↔ Published n cur full t' := by
  unfold Published
  by_cases hslot : t' % 2 ^ n = t % 2 ^ n
  · rw [hslot, update_self, hcur, hfull, Ring.lt_add_iff_of_mod_eq hslot (Nat.two_pow_pos n)]
    simp [Nat.le_iff_lt_or_eq]
  · rw [update_of_ne hslot, update_of_ne hslot]

theorem le_update_recycle (hcur : cur (t % 2 ^ n) = t) (i : Nat) :
    cur i ≤ update cur (t % 2 ^ n) (t + 2 ^ n) i := by
  by_cases hi : i = t % 2 ^ n
  · subst hi
    rw [update_self, hcur]
    exact Nat.le_add_right _ _
  · rw [update_of_ne hi]

/-- The sequence number that frees a slot is the position of the next round. -/
theorem Kept.toNat_recycle (h : Kept n s cur full) (hlt : pos.toNat < s.dequeuePos.toNat) :
    (pos + s.mask + 1).toNat = pos.toNat + 2 ^ n := by
  have hbound := h.bound
  have hdequeue := h.dequeue_le
  have htwo := h.two_le
  have hmask : s.mask.toNat = 2 ^ n - 1 := by
    rw [mask, h.size_eq]
    exact UInt64.toNat_ofNat_of_lt' (show 2 ^ n - 1 < 2 ^ 64 by omega)
  rw [UInt64.toNat_add, UInt64.toNat_add, UInt64.toNat_one]
  omega

section Steps

variable [DecidableEq P]

/-! ## Steps that only look -/

theorem exclusive_update {f : P → Party}
    (h : ∀ p q pos, (f p).holds = some pos → (f q).holds = some pos → p = q)
    (hnew : ∀ q ≠ p, ∀ pos, party.holds = some pos → (f q).holds ≠ some pos) :
    ∀ q q' pos, (update f p party q).holds = some pos →
      (update f p party q').holds = some pos → q = q' := by
  intro q q' pos hq hq'
  by_cases hqp : q = p <;> by_cases hqp' : q' = p
  · rw [hqp, hqp']
  · subst hqp
    rw [update_self] at hq
    rw [update_of_ne hqp'] at hq'
    exact absurd hq' (hnew q' hqp' pos hq)
  · subst hqp'
    rw [update_self] at hq'
    rw [update_of_ne hqp] at hq
    exact absurd hq (hnew q hqp pos hq')
  · rw [update_of_ne hqp] at hq
    rw [update_of_ne hqp'] at hq'
    exact h q q' pos hq hq'

theorem knows_update {f : P → Party} (hp : Knows n s cur full party)
    (hothers : ∀ q ≠ p, Knows n s cur full (f q)) (q : P) :
    Knows n s cur full (update f p party q) := by
  by_cases hq : q = p
  · subst hq
    rwa [update_self]
  · rw [update_of_ne hq]
    exact hothers q hq

section

variable (h : Kept n s cur full)
include h

theorem Kept.enter (hknows : Knows n s cur full party)
    (hholds : ∀ pos, party.holds = some pos → (s.party p).holds = some pos) :
    Kept n (s.enter p party) cur full :=
  { h with
    knows := knows_update (s := s) hknows fun q _ => h.knows q
    exclusive := exclusive_update h.exclusive fun q hq pos hpos hheld =>
      hq (h.exclusive q p pos hheld (hholds pos hpos)) }

theorem Kept.loadAddSequence (hparty : s.party p = .loadAddSequence pos)
    (hstep : s.proceed p (.loadAddSequence pos) = some s') : Kept n s' cur full := by
  have hknows : pos.toNat ≤ s.added := by
    have hp := h.knows p
    rwa [hparty] at hp
  have hpos : pos.toNat < 2 ^ 63 := hknows.trans_lt h.added_lt
  simp only [proceed, h.slot_eq, int64Difference_eq (h.sequence_lt (slot_lt pos)) hpos] at hstep
  split at hstep
  · next hdif =>
    cases hstep
    refine h.enter ⟨hknows, ?_⟩ nofun
    -- an earlier turn would be at least two rounds of sequence numbers away
    have hseq := h.sequence_eq _ (slot_lt pos)
    have htwo := h.two_le
    have hflag := toNat_le (full (pos.toNat % 2 ^ n))
    by_contra hlt
    have hround := h.cur_round pos.toNat (by omega)
    omega
  · split at hstep
    · cases hstep
      exact h.enter trivial nofun
    · cases hstep
      exact h.enter trivial nofun

theorem Kept.loadRemoveSequence (hparty : s.party p = .loadRemoveSequence pos)
    (hstep : s.proceed p (.loadRemoveSequence pos) = some s') : Kept n s' cur full := by
  have hknows : pos.toNat ≤ s.dequeuePos.toNat := by
    have hp := h.knows p
    rwa [hparty] at hp
  have hadded := h.bound
  have htwo := h.two_le
  have hdequeue := h.dequeue_le
  have hsucc : (pos + 1).toNat = pos.toNat + 1 := toNat_succ (by omega)
  have hdif := int64Difference_eq (h.sequence_lt (slot_lt pos)) (b := pos + 1) (by omega)
  simp only [proceed, h.slot_eq] at hstep
  split at hstep
  · next hzero =>
    cases hstep
    refine h.enter ⟨hknows, ?_⟩ nofun
    have hseq := h.sequence_eq _ (slot_lt pos)
    unfold Published
    cases hfull : full (pos.toNat % 2 ^ n) with
    | true =>
      rw [hfull, toNat_true] at hseq
      exact .inr ⟨by omega, rfl⟩
    | false =>
      rw [hfull, toNat_false] at hseq
      exact .inl (by omega)
  · split at hstep
    · cases hstep
      exact h.enter trivial nofun
    · cases hstep
      exact h.enter trivial nofun

/-! ## Steps that take or give a chunk -/

/-- **`start_add` succeeds**: the process takes the next position, whose slot is free. -/
theorem Kept.takeAdd (hparty : s.party p = .casEnqueue pos)
    (hcas : s.enqueuePos = pos) (hbound : s.added + 1 + 2 ^ n < 2 ^ 63) :
    Kept n { s.enter p (.adding pos) with
      enqueuePos := pos + 1
      added := s.added + 1
      addOrder := s.addOrder ++ [pos.toNat] } cur full := by
  have hpos : pos.toNat = s.added := by rw [← hcas, h.enqueue_eq]
  have hfree : cur (pos.toNat % 2 ^ n) = pos.toNat := by
    have hknows := h.knows p
    rw [hparty] at hknows
    by_contra hne
    have hround := h.cur_round' pos.toNat (Nat.lt_of_le_of_ne hknows.2 (Ne.symm hne))
    have hlt := h.cur_lt _ (slot_lt pos)
    have hdequeue := h.dequeue_le
    omega
  have hempty : full (pos.toNat % 2 ^ n) = false := by
    by_contra hfull
    have hlt := h.full_lt _ (slot_lt pos) (by simpa using hfull)
    omega
  refine { h with
    bound := hbound
    enqueue_eq := ?_
    dequeue_le := h.dequeue_le.trans (Nat.le_succ _)
    full_lt := fun i hi hfull => (h.full_lt i hi hfull).trans (Nat.lt_succ_self _)
    taken_le := ?_
    addOrder_eq := by rw [h.addOrder_eq, hpos, ← range_succ]
    knows := ?_
    exclusive := ?_ }
  · show (pos + 1).toNat = s.added + 1
    rw [toNat_succ (hpos ▸ h.added_lt), hpos]
  · intro t ht
    rcases Nat.lt_succ_iff_lt_or_eq.mp ht with hlt | rfl
    · exact h.taken_le t hlt
    · rw [← hpos]
      exact hfree.ge
  · refine knows_update ⟨hpos ▸ Nat.lt_succ_self _, hfree, hempty⟩ fun q _ => ?_
    exact (h.knows q).mono (Nat.le_succ _) le_rfl (fun _ => le_rfl) (fun _ => id)
      fun _ _ => ⟨rfl, rfl, rfl⟩
  · -- positions in the hands of others were given out before
    refine exclusive_update h.exclusive fun q _ pos' hpos' hheld => ?_
    obtain rfl : pos = pos' := some.inj hpos'
    have hlt := h.holds_lt hheld
    omega

/-- **`start_remove` succeeds**: the process takes the next position, whose chunk was
published. -/
theorem Kept.takeRemove (hparty : s.party p = .casDequeue pos) (hcas : s.dequeuePos = pos) :
    Kept n { s.enter p (.removing pos) with
      dequeuePos := pos + 1
      removeOrder := s.removeOrder ++ [pos.toNat] } cur full := by
  have hknows : Published n cur full pos.toNat := by
    have hp := h.knows p
    rw [hparty] at hp
    exact hp.2
  have hpos : pos.toNat = s.dequeuePos.toNat := by rw [hcas]
  have hadded := h.added_lt
  have hdequeue := h.dequeue_le
  have hsucc : (pos + 1).toNat = s.dequeuePos.toNat + 1 := by
    rw [toNat_succ (by omega), hpos]
  obtain ⟨hcur, hfull⟩ : cur (pos.toNat % 2 ^ n) = pos.toNat ∧
      full (pos.toNat % 2 ^ n) = true := by
    rcases hknows with hlt | ⟨heq, hfull⟩
    · -- the slot cannot be a round ahead of a chunk that was not removed
      have hround := h.cur_round' pos.toNat hlt
      have hless := h.cur_lt _ (slot_lt pos)
      omega
    · exact ⟨heq.symm, hfull⟩
  have hlt := h.full_lt _ (slot_lt pos) hfull
  refine { h with
    dequeue_le := ?_
    cur_lt := fun i hi => ?_
    removed_published := fun t ht => ?_
    removeOrder_eq := by rw [h.removeOrder_eq, hpos, hsucc, ← range_succ]
    knows := ?_
    exclusive := ?_ }
  · show (pos + 1).toNat ≤ s.added
    omega
  · show cur i < (pos + 1).toNat + 2 ^ n
    have hless := h.cur_lt i hi
    omega
  · replace ht : t < (pos + 1).toNat := ht
    rw [hsucc] at ht
    rcases Nat.lt_succ_iff_lt_or_eq.mp ht with hold | rfl
    · exact h.removed_published t hold
    · exact hpos ▸ hknows
  · refine knows_update ⟨?_, hcur, hfull⟩ fun q _ => ?_
    · show pos.toNat < (pos + 1).toNat
      omega
    · refine (h.knows q).mono le_rfl ?_ (fun _ => le_rfl) (fun _ => id) fun _ _ => ⟨rfl, rfl, rfl⟩
      show s.dequeuePos.toNat ≤ (pos + 1).toNat
      omega
  · -- a producer would hold a slot that is not full, a consumer an earlier position
    refine exclusive_update h.exclusive fun q _ pos' hpos' hheld => ?_
    obtain rfl : pos = pos' := some.inj hpos'
    have hq := h.knows q
    cases hp : s.party q <;> rw [hp] at hq hheld <;>
      simp only [Party.holds, Option.some.injEq, reduceCtorEq] at hheld <;> subst hheld
    · exact false_ne_true (hq.2.2.symm.trans hfull)
    · exact false_ne_true (hq.2.2.1.symm.trans hfull)
    · exact absurd hq.1 (by omega)
    · exact absurd hq.1 (by omega)

/-- **`finish` of an added chunk** publishes it. -/
theorem Kept.publish {old : UInt64} (hparty : s.party p = .finishAdd pos old) :
    Kept n { s.enter p .idle with
      sequence := update s.sequence (pos.toNat % 2 ^ n) (pos + 1)
      published := s.published ++ [(pos.toNat, s.chunk (pos.toNat % 2 ^ n))] }
      cur (update full (pos.toNat % 2 ^ n) true) := by
  obtain ⟨hlt, hcur, hfull, -⟩ : Knows n s cur full (.finishAdd pos old) := hparty ▸ h.knows p
  have hheld : (s.party p).holds = some pos := by rw [hparty]; rfl
  have hnew := published_publish hcur hfull
  refine { h with
    sequence_eq := fun j hj => ?_
    full_lt := fun j hj hj' => ?_
    removed_published := fun t ht => (hnew t).mpr (.inl (h.removed_published t ht))
    published_iff := fun t => ?_
    published_nodup := ?_
    chunk_mem := fun j hj hj' => ?_
    knows := knows_update trivial fun q hq => ?_
    exclusive := exclusive_update h.exclusive nofun }
  · by_cases hji : j = pos.toNat % 2 ^ n
    · subst hji
      simp only [update_self, toNat_succ (hlt.trans h.added_lt), hcur, toNat_true]
    · simp only [update_of_ne hji]
      exact h.sequence_eq j hj
  · by_cases hji : j = pos.toNat % 2 ^ n
    · subst hji
      rw [hcur]
      exact hlt
    · rw [update_of_ne hji] at hj'
      exact h.full_lt j hj hj'
  · rw [hnew, ← h.published_iff]
    simp
  · have hnot : pos.toNat ∉ s.published.map Prod.fst := by
      rw [h.published_iff, Published, hcur, hfull]
      simp
    simp only [map_append]
    exact nodup_append.mpr ⟨h.published_nodup, nodup_singleton _, by grind⟩
  · by_cases hji : j = pos.toNat % 2 ^ n
    · subst hji
      rw [hcur]
      exact mem_append_right _ (mem_singleton_self _)
    · rw [update_of_ne hji] at hj'
      exact mem_append_left _ (h.chunk_mem j hj hj')
  · refine (h.knows q).mono le_rfl le_rfl (fun _ => le_rfl) (fun t ht => (hnew t).mpr (.inl ht))
      fun pos' hpos' => ?_
    have hslot := h.slot_ne hq hheld hpos'
    exact ⟨rfl, update_of_ne hslot .., update_of_ne hslot ..⟩

/-- **`finish` of a removed chunk** frees its slot for the next round. -/
theorem Kept.recycle {old : UInt64} (hparty : s.party p = .finishRemove pos old) :
    Kept n { s.enter p .idle with
      sequence := update s.sequence (pos.toNat % 2 ^ n) (pos + s.mask + 1)
      recycled := s.recycled ++ [pos.toNat] }
      (update cur (pos.toNat % 2 ^ n) (pos.toNat + 2 ^ n))
      (update full (pos.toNat % 2 ^ n) false) := by
  obtain ⟨hlt, hcur, hfull, -⟩ : Knows n s cur full (.finishRemove pos old) := hparty ▸ h.knows p
  have hheld : (s.party p).holds = some pos := by rw [hparty]; rfl
  have hnew := published_recycle hcur hfull
  have hgrows := le_update_recycle hcur
  refine { h with
    cur_mod := fun j hj => ?_
    sequence_eq := fun j hj => ?_
    cur_lt := fun j hj => ?_
    full_lt := fun j hj hj' => ?_
    taken_le := fun t ht => (h.taken_le t ht).trans (hgrows _)
    removed_published := fun t ht => (hnew t).mpr (h.removed_published t ht)
    published_iff := fun t => ?_
    recycled_iff := fun t => ?_
    recycled_nodup := ?_
    chunk_mem := fun j hj hj' => ?_
    knows := knows_update trivial fun q hq => ?_
    exclusive := exclusive_update h.exclusive nofun }
  · by_cases hji : j = pos.toNat % 2 ^ n
    · subst hji
      rw [update_self, Nat.add_mod_right]
    · rw [update_of_ne hji]
      exact h.cur_mod j hj
  · by_cases hji : j = pos.toNat % 2 ^ n
    · subst hji
      simp only [update_self]
      exact h.toNat_recycle hlt
    · simp only [update_of_ne hji]
      exact h.sequence_eq j hj
  · by_cases hji : j = pos.toNat % 2 ^ n
    · subst hji
      rw [update_self]
      exact Nat.add_lt_add_right hlt _
    · rw [update_of_ne hji]
      exact h.cur_lt j hj
  · by_cases hji : j = pos.toNat % 2 ^ n
    · subst hji
      rw [update_self] at hj'
      cases hj'
    · rw [update_of_ne hji] at hj' ⊢
      exact h.full_lt j hj hj'
  · rw [hnew]
    exact h.published_iff t
  · rw [mem_append, h.recycled_iff, mem_singleton]
    by_cases ht : t % 2 ^ n = pos.toNat % 2 ^ n
    · rw [ht, update_self, hcur, Ring.lt_add_iff_of_mod_eq ht (Nat.two_pow_pos n)]
      exact Nat.le_iff_lt_or_eq.symm
    · have hne : t ≠ pos.toNat := fun heq => ht (by rw [heq])
      rw [update_of_ne ht]
      simp [hne]
  · have hnot : pos.toNat ∉ s.recycled := by
      rw [h.recycled_iff, hcur]
      exact Nat.lt_irrefl _
    exact nodup_append.mpr ⟨h.recycled_nodup, nodup_singleton _, by grind⟩
  · by_cases hji : j = pos.toNat % 2 ^ n
    · subst hji
      rw [update_self] at hj'
      cases hj'
    · rw [update_of_ne hji] at hj' ⊢
      exact h.chunk_mem j hj hj'
  · refine (h.knows q).mono le_rfl le_rfl hgrows (fun t ht => (hnew t).mpr ht) fun pos' hpos' => ?_
    have hslot := h.slot_ne hq hheld hpos'
    exact ⟨update_of_ne hslot .., update_of_ne hslot ..,
      update_of_ne hslot ..⟩

theorem Kept.proceed (hstep : s.proceed p (s.party p) = some s')
    (hbound : s'.added + 2 ^ n < 2 ^ 63) : ∃ cur full, Kept n s' cur full := by
  cases hparty : s.party p with
  | loadEnqueue =>
    rw [hparty] at hstep
    cases hstep
    exact ⟨cur, full, h.enter h.enqueue_eq.le nofun⟩
  | loadAddSequence pos =>
    rw [hparty] at hstep
    exact ⟨cur, full, h.loadAddSequence hparty hstep⟩
  | casEnqueue pos =>
    rw [hparty] at hstep
    simp only [GroupFreelist.proceed] at hstep
    split at hstep
    · next hcas =>
      cases hstep
      exact ⟨cur, full, h.takeAdd hparty hcas hbound⟩
    · cases hstep
      have hknows : Knows n s cur full (.casEnqueue pos) := hparty ▸ h.knows p
      exact ⟨cur, full, h.enter hknows.1 nofun⟩
  | loadDequeue =>
    rw [hparty] at hstep
    cases hstep
    exact ⟨cur, full, h.enter (le_refl s.dequeuePos.toNat) nofun⟩
  | loadRemoveSequence pos =>
    rw [hparty] at hstep
    exact ⟨cur, full, h.loadRemoveSequence hparty hstep⟩
  | casDequeue pos =>
    rw [hparty] at hstep
    simp only [GroupFreelist.proceed] at hstep
    split at hstep
    · next hcas =>
      cases hstep
      exact ⟨cur, full, h.takeRemove hparty hcas⟩
    · cases hstep
      have hknows : Knows n s cur full (.casDequeue pos) := hparty ▸ h.knows p
      exact ⟨cur, full, h.enter hknows.1 nofun⟩
  | finishAdd pos old =>
    have hknows : Knows n s cur full (.finishAdd pos old) := hparty ▸ h.knows p
    rw [hparty] at hstep
    simp only [GroupFreelist.proceed, h.slot_eq, if_pos hknows.2.2.2] at hstep
    cases hstep
    exact ⟨cur, _, h.publish hparty⟩
  | finishRemove pos old =>
    have hknows : Knows n s cur full (.finishRemove pos old) := hparty ▸ h.knows p
    rw [hparty] at hstep
    simp only [GroupFreelist.proceed, h.slot_eq, if_pos hknows.2.2.2] at hstep
    cases hstep
    exact ⟨_, _, h.recycle hparty⟩
  | idle | adding _ | removing _ | broken =>
    rw [hparty] at hstep
    cases hstep

variable {next : P × PartyMove α}

/-- **A step** of a process keeps the invariant, as long as the positions do not wrap. -/
theorem Kept.move (hmove : s.move next = some s')
    (hbound : s'.added + 2 ^ n < 2 ^ 63) : ∃ cur full, Kept n s' cur full := by
  unfold GroupFreelist.move at hmove
  split at hmove
  · cases hmove
    exact ⟨cur, full, h.enter trivial nofun⟩
  · cases hmove
    exact ⟨cur, full, h.enter trivial nofun⟩
  · next pos v hparty _ =>
    cases hmove
    rw [h.slot_eq]
    exact ⟨cur, full, h.fill hparty v⟩
  · next pos hparty _ =>
    cases hmove
    obtain ⟨hlt, hcur, hfull⟩ : Knows n s cur full (.adding pos) := hparty ▸ h.knows next.1
    rw [h.slot_eq]
    refine ⟨cur, full, h.enter ⟨hlt, hcur, hfull, rfl⟩ fun pos' hpos' => ?_⟩
    rw [hparty]
    exact hpos'
  · next pos hparty _ =>
    cases hmove
    obtain ⟨hlt, hcur, hfull⟩ : Knows n s cur full (.removing pos) := hparty ▸ h.knows next.1
    rw [h.slot_eq]
    refine ⟨cur, full, h.enter ⟨hlt, hcur, hfull, rfl⟩ fun pos' hpos' => ?_⟩
    rw [hparty]
    exact hpos'
  · exact h.proceed hmove hbound
  · cases hmove

end

theorem added_le {next : P × PartyMove α} (hmove : s.move next = some s') : s.added ≤ s'.added := by
  unfold GroupFreelist.move GroupFreelist.proceed GroupFreelist.enter at hmove
  grind

/-- **The group freelist is a queue.** As long as fewer than `2 ^ 63 - size` chunks were
added, however the steps of any number of processes are interleaved:

- no chunk is held by two processes between `start_add` or `start_remove` and `finish`;
- `start_add` and `start_remove` give out the positions one after the other; a chunk that
  is removed is the one that was published at its position, and as it was published;
- `start_add` fails only if the slot of its position was not recycled, `start_remove` only
  if the chunk of its position was not published;
- at most `size` chunks are on their way between `start_add` and being recycled;
- the assertion of `finish` does not fail. -/
theorem group_freelist_queue (n : Nat) (hn : 1 ≤ n) (chunk : Nat → α)
    (moves : List (P × PartyMove α))
    (hrun : run (enabled GroupFreelist.move) (new (2 ^ n) chunk) moves = .ok s)
    (hadded : s.added + 2 ^ n < 2 ^ 63) :
    (∀ p q pos pos', (s.party p).holds = some pos → (s.party q).holds = some pos' →
      s.slot pos = s.slot pos' → p = q) ∧
    s.addOrder = List.range s.added ∧
    s.removeOrder = List.range s.removeOrder.length ∧
    (∀ t ∈ s.removeOrder, t ∈ s.published.map Prod.fst) ∧
    (s.published.map Prod.fst).Nodup ∧
    (∀ p pos, s.party p = .removing pos →
      (pos.toNat, s.chunk (s.slot pos)) ∈ s.published ∧ pos.toNat ∉ s.recycled) ∧
    (∀ p pos, s.party p = .loadAddSequence pos →
      int64Difference (s.sequence (s.slot pos)) pos < 0 →
      2 ^ n ≤ pos.toNat ∧ pos.toNat - 2 ^ n ∉ s.recycled) ∧
    (∀ p pos, s.party p = .loadRemoveSequence pos →
      int64Difference (s.sequence (s.slot pos)) (pos + 1) < 0 →
      pos.toNat ∉ s.published.map Prod.fst) ∧
    ((Finset.range s.added).filter (· ∉ s.recycled)).card ≤ 2 ^ n ∧
    ∀ p, s.party p ≠ .broken := by
  have hinv := run_enabled
    (I := fun s : GroupFreelist P α => s.added + 2 ^ n < 2 ^ 63 → ∃ cur full, Kept n s cur full)
    (fun s next s' hs hmove hbound => by
      obtain ⟨cur, full, h⟩ := hs ((Nat.add_le_add_right (added_le hmove) _).trans_lt hbound)
      exact h.move hmove hbound)
    (fun hbound => ⟨_, _, kept_new hn (by simpa [new] using hbound) chunk⟩) hrun
  obtain ⟨cur, full, h⟩ := hinv hadded
  refine ⟨fun p q pos pos' hp hq hslot => ?_, h.addOrder_eq, ?_, fun t ht => ?_, h.published_nodup,
    fun p pos hp => ?_, fun p pos hp => h.add_refused hp, fun p pos hp => h.remove_refused hp,
    h.outstanding_le, fun p hp => ?_⟩
  · rw [h.slot_eq, h.slot_eq] at hslot
    by_contra hne
    exact h.slot_ne hne hq hp hslot
  · rw [h.removeOrder_eq, length_range]
  · rw [h.removeOrder_eq, mem_range] at ht
    exact (h.published_iff t).mpr (h.removed_published t ht)
  · obtain ⟨-, hcur, hfull⟩ : Knows n s cur full (.removing pos) := hp ▸ h.knows p
    have hmem := h.chunk_mem _ (slot_lt pos) hfull
    rw [hcur] at hmem
    rw [h.slot_eq, h.recycled_iff, hcur]
    exact ⟨hmem, Nat.lt_irrefl _⟩
  · have hbroken : Knows n s cur full .broken := hp ▸ h.knows p
    exact hbroken

end Steps

/-- Two processes and two slots: one chunk was added and recycled, the next one is being
removed, and no third one could be added before the first was recycled. -/
theorem group_freelist_queue_sample :
    ∃ s : GroupFreelist Bool Nat, run (enabled move) (new (2 ^ 1) fun _ => 0)
        [(true, .startAdd), (true, .proceed), (false, .startAdd), (true, .proceed), (true, .proceed),
          (false, .proceed), (true, .fill 7), (false, .proceed), (false, .proceed), (false, .fill 8),
          (false, .finish), (true, .finish), (false, .proceed), (true, .proceed),
          (true, .startRemove), (true, .proceed), (true, .proceed), (true, .proceed),
          (false, .startAdd), (false, .proceed), (false, .proceed), (true, .finish),
          (true, .proceed), (true, .startRemove), (true, .proceed), (true, .proceed),
          (true, .proceed)] = .ok s ∧
      s.party true = .removing 1 ∧ s.published = [(1, 8), (0, 7)] ∧
      s.removeOrder = List.range s.removeOrder.length ∧
      (1, s.chunk (s.slot 1)) ∈ s.published ∧ ∀ p, s.party p ≠ .broken := by
  refine exists_ok_of_any (fun s : GroupFreelist Bool Nat => s.party true = .removing 1 ∧
      s.published = [(1, 8), (0, 7)] ∧ s.added = 2)
    (by decide +kernel) fun s hrun ⟨hremoving, hpublished, hadded⟩ => ?_
  obtain ⟨-, -, horder, -, -, hchunk, -, -, -, hbroken⟩ :=
    group_freelist_queue 1 le_rfl _ _ hrun (by rw [hadded]; decide)
  exact ⟨hremoving, hpublished, horder, (hchunk true 1 hremoving).1, hbroken⟩

/-! ## A process that sleeps for too long -/

/-- An empty queue of two slots at position `pos`. The second process sleeps before it loads
the sequence number for position 0. -/
structure Resting (pos : UInt64) (s : GroupFreelist Bool Unit) : Prop where
  size_eq : s.size = 2
  enqueue_eq : s.enqueuePos = pos
  dequeue_eq : s.dequeuePos = pos
  sequence_eq : s.sequence (s.slot pos) = pos
  sequence_next : s.sequence (s.slot (pos + 1)) = pos + 1
  recycled_length : s.recycled.length = s.added
  awake : s.party true = .idle
  asleep : s.party false = .loadAddSequence 0

/-- The first process adds a chunk and removes it. -/
def exchange : List (Bool × PartyMove Unit) :=
  ([.startAdd, .proceed, .proceed, .proceed, .finish, .proceed].map fun m => (true, m)) ++
    [.startRemove, .proceed, .proceed, .proceed, .finish, .proceed].map fun m => (true, m)

section Exchange

variable {s s' : GroupFreelist Bool Unit} {pos : UInt64} {party party' : Party}
  {m : PartyMove Unit} {moves : List (Bool × PartyMove Unit)}

theorem int64Difference_self (a : UInt64) : int64Difference a a = 0 := by
  simp [int64Difference]

theorem enter_enter : (s.enter true party).enter true party' = s.enter true party' := by
  simp [enter]

theorem enter_party : (s.enter true party).party true = party := by
  simp [enter]

theorem slot_of_two (h : s.size = 2) (pos : UInt64) :
    s.slot (pos + 1 + 1) = s.slot pos ∧ s.slot (pos + 1) ≠ s.slot pos := by
  have hslot := slot_eq (s := s) (n := 1) h (by decide)
  have hnext := UInt64.toNat_add pos 1
  have hnext' := UInt64.toNat_add (pos + 1) 1
  simp only [UInt64.reduceToNat] at hnext hnext'
  rw [hslot, hslot, hslot]
  constructor <;> omega

theorem run_awake (h : s.move (true, m) = some s') :
    run (enabled move) s ((true, m) :: moves) = run (enabled move) s' moves :=
  run_cons_ok (enabled_eq_ok.mpr h)

theorem run_add (hidle : s.party true = .idle) (henqueue : s.enqueuePos = pos)
    (hturn : s.sequence (s.slot pos) = pos) :
    run (enabled move) s
      ([.startAdd, .proceed, .proceed, .proceed, .finish, .proceed].map fun m => (true, m)) =
      .ok { s.enter true .idle with
        enqueuePos := pos + 1
        added := s.added + 1
        addOrder := s.addOrder ++ [pos.toNat]
        sequence := update s.sequence (s.slot pos) (pos + 1)
        published := s.published ++ [(pos.toNat, s.chunk (s.slot pos))] } := by
  have hdif : int64Difference (s.sequence (s.slot pos)) pos = 0 := by
    rw [hturn, int64Difference_self]
  let taken : GroupFreelist Bool Unit :=
    { s with enqueuePos := pos + 1, added := s.added + 1, addOrder := s.addOrder ++ [pos.toNat] }
  calc _ = run (enabled move) (s.enter true .loadEnqueue) _ :=
        run_awake (by simp only [move, hidle])
    _ = run (enabled move) (s.enter true (.loadAddSequence pos)) _ :=
        run_awake (by simp only [move, enter_party, proceed, enter_enter, ← henqueue]; rfl)
    _ = run (enabled move) (s.enter true (.casEnqueue pos)) _ :=
        run_awake (by simp only [move, enter_party, proceed, enter_enter]; exact if_pos hdif)
    _ = run (enabled move) (taken.enter true (.adding pos)) _ :=
        run_awake (by simp only [move, enter_party, proceed, enter_enter]; exact if_pos henqueue)
    _ = run (enabled move) (taken.enter true (.finishAdd pos (s.sequence (s.slot pos)))) _ :=
        run_awake (by simp only [move, enter_party, enter_enter]; rfl)
    _ = _ := run_awake (by simp only [move, enter_party, proceed, enter_enter]; exact if_pos rfl)

theorem run_remove (hidle : s.party true = .idle) (hdequeue : s.dequeuePos = pos)
    (hturn : s.sequence (s.slot pos) = pos + 1) :
    run (enabled move) s
      ([.startRemove, .proceed, .proceed, .proceed, .finish, .proceed].map fun m => (true, m)) =
      .ok { s.enter true .idle with
        dequeuePos := pos + 1
        removeOrder := s.removeOrder ++ [pos.toNat]
        sequence := update s.sequence (s.slot pos) (pos + s.mask + 1)
        recycled := s.recycled ++ [pos.toNat] } := by
  have hdif : int64Difference (s.sequence (s.slot pos)) (pos + 1) = 0 := by
    rw [hturn, int64Difference_self]
  let taken : GroupFreelist Bool Unit :=
    { s with dequeuePos := pos + 1, removeOrder := s.removeOrder ++ [pos.toNat] }
  calc _ = run (enabled move) (s.enter true .loadDequeue) _ :=
        run_awake (by simp only [move, hidle])
    _ = run (enabled move) (s.enter true (.loadRemoveSequence pos)) _ :=
        run_awake (by simp only [move, enter_party, proceed, enter_enter, ← hdequeue]; rfl)
    _ = run (enabled move) (s.enter true (.casDequeue pos)) _ :=
        run_awake (by simp only [move, enter_party, proceed, enter_enter]; exact if_pos hdif)
    _ = run (enabled move) (taken.enter true (.removing pos)) _ :=
        run_awake (by simp only [move, enter_party, proceed, enter_enter]; exact if_pos hdequeue)
    _ = run (enabled move) (taken.enter true (.finishRemove pos (s.sequence (s.slot pos)))) _ :=
        run_awake (by simp only [move, enter_party, enter_enter]; rfl)
    _ = _ := run_awake (by simp only [move, enter_party, proceed, enter_enter]; exact if_pos rfl)

theorem Resting.exchange (h : Resting pos s) :
    ∃ s', run (enabled move) s exchange = .ok s' ∧ Resting (pos + 1) s' := by
  obtain ⟨hround, hother⟩ := slot_of_two h.size_eq pos
  have hmask : s.mask = 1 := by rw [mask, h.size_eq]; rfl
  refine ⟨_, (run_append (run_add h.awake h.enqueue_eq h.sequence_eq)).trans
    (run_remove (enter_party (s := s)) h.dequeue_eq (update_self ..)), ?_⟩
  constructor
  · exact h.size_eq
  · rfl
  · rfl
  · show update (update s.sequence (s.slot pos) _) (s.slot pos) _
      (s.slot (pos + 1)) = pos + 1
    rw [update_of_ne hother, update_of_ne hother, h.sequence_next]
  · show update (update s.sequence (s.slot pos) _) (s.slot pos)
      (pos + s.mask + 1) (s.slot (pos + 1 + 1)) = pos + 1 + 1
    rw [hround, update_self, hmask]
  · show (s.recycled ++ [pos.toNat]).length = s.added + 1
    rw [List.length_append, h.recycled_length, length_singleton]
  · exact enter_party (s := s)
  · exact h.asleep

/-- Any number of exchanges. -/
theorem Resting.exchanges (h : Resting pos s) (m : Nat) :
    ∃ s', run (enabled move) s (List.replicate m GroupFreelist.exchange).flatten = .ok s' ∧
      Resting (pos + UInt64.ofNat m) s' := by
  induction m generalizing pos s with
  | zero => exact ⟨s, rfl, by simpa using h⟩
  | succ m ih =>
    obtain ⟨t, ht, hnext⟩ := h.exchange
    obtain ⟨s', hs', hlast⟩ := ih hnext
    refine ⟨s', ?_, ?_⟩
    · rw [replicate_succ, flatten_cons, run_append ht, hs']
    · have hsum : pos + UInt64.ofNat (m + 1) = pos + 1 + UInt64.ofNat m := by
        rw [UInt64.ofNat_add, UInt64.ofNat_one, UInt64.add_assoc, UInt64.add_comm 1]
      rwa [hsum]

end Exchange

/-- **A process that sleeps for too long is refused.** It loads `enqueue_pos` from a new
queue of two slots, and sleeps while another process exchanges `2 ^ 63` chunks. Every slot
was recycled then, and no earlier chunk had ever to be recycled for position 0; but the
difference of the sequence number and the position is negative. -/
theorem sleeper_refused :
    ∃ (moves : List (Bool × PartyMove Unit)) (s : GroupFreelist Bool Unit),
      run (enabled move) (new (2 ^ 1) fun _ => ()) moves = .ok s ∧
      s.party false = .loadAddSequence 0 ∧
      int64Difference (s.sequence (s.slot 0)) 0 < 0 ∧
      s.move (false, .proceed) = some (s.enter false .idle) ∧
      s.recycled.length = s.added ∧
      ¬ (2 ^ 1 ≤ (0 : UInt64).toNat ∧ (0 : UInt64).toNat - 2 ^ 1 ∉ s.recycled) := by
  let falling : GroupFreelist Bool Unit :=
    ((new 2 fun _ => ()).enter false .loadEnqueue).enter false (.loadAddSequence 0)
  have hsleep : run (enabled move) (new 2 fun _ => ()) [(false, .startAdd), (false, .proceed)] =
      .ok falling := rfl
  have hrest : Resting 0 falling :=
    { size_eq := rfl
      enqueue_eq := rfl
      dequeue_eq := rfl
      sequence_eq := by decide
      sequence_next := by decide
      recycled_length := rfl
      awake := rfl
      asleep := rfl }
  obtain ⟨s, hs, hlast⟩ := hrest.exchanges (2 ^ 63)
  have hslot : s.slot 0 = s.slot (0 + UInt64.ofNat (2 ^ 63)) := by
    rw [slot_eq (n := 1) hlast.size_eq (by decide), slot_eq (n := 1) hlast.size_eq (by decide)]
    decide
  have hdif : int64Difference (s.sequence (s.slot 0)) 0 < 0 := by
    rw [hslot, hlast.sequence_eq]
    decide
  refine ⟨_, s, (run_append hsleep).trans hs, hlast.asleep, hdif, ?_, hlast.recycled_length,
    fun h => absurd h.1 (by decide)⟩
  simp only [move, hlast.asleep, proceed, if_neg hdif.ne, if_pos hdif]

end GroupFreelist

end Snabb
