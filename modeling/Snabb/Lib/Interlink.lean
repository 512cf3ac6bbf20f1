import Snabb.Foundation.Ring
import Snabb.Foundation.Run

/-!
# Interlinks (`lib/interlink.lua`)

An interlink is a ring in shared memory through which one process, the transmitter, hands
packets to another one, the receiver. Each side has a private cursor (`nwrite`, `nread`)
that it publishes from time to time (`push` and `pull` store it to `write` and `read`), and
a private copy of the other side's cursor (`lread`, `lwrite`) that `full` and `empty` look
at first.

The two processes run concurrently, and a step of the model has at most one access to a
shared cursor: `full` and `empty` load it twice, with anything happening in between.
Transmitter and receiver may detach and be replaced by a new process at any time. All
cursors are in the shared memory, so the new process goes on with them.
-/

namespace Snabb

open Foundation List
open Option (ite_none_right_eq_some)

/-- The states in which an interlink is used. -/
inductive InterlinkState where
  | free
  | rxup
  | txup
  | dxup
  | down
deriving DecidableEq, Repr

/-- Where one side is: outside of `full` or `empty`, before the second load of the other
side's cursor, or after they have returned false. -/
inductive Side where
  | idle
  | loading
  | clear
deriving DecidableEq, Repr

/-- `struct interlink`, with the places of the two sides and the history of the ring. -/
structure Interlink (α : Type) where
  size : Nat
  state : InterlinkState
  read : Nat
  write : Nat
  lwrite : Nat
  nread : Nat
  lread : Nat
  nwrite : Nat
  packets : Nat → α
  transmitter : Side
  receiver : Side
  inserted : List α
  /-- How many packets were inserted before the last `push`. -/
  pushed : Nat
  extracted : List α
  /-- How many packets were extracted before the last `pull`. -/
  pulled : Nat

/-- What happens next. -/
inductive InterlinkAction (α : Type) where
  | attachTransmitter
  | detachTransmitter
  | full
  | fullLoad
  | insert (p : α)
  | push
  | attachReceiver
  | detachReceiver
  | empty
  | emptyLoad
  | extract
  | pull

namespace Interlink

variable {α : Type}

/-- A configured interlink; what its slots hold is left open. -/
def new (size : Nat) (packets : Nat → α) : Interlink α where
  size := size
  state := .free
  read := 0
  write := 0
  lwrite := 0
  nread := 0
  lread := 0
  nwrite := 0
  packets := packets
  transmitter := .idle
  receiver := .idle
  inserted := []
  pushed := 0
  extracted := []
  pulled := 0

/-- `NEXT`, with the mask `size - 1`. -/
def next (r : Interlink α) (i : Nat) : Nat := (i + 1) &&& (r.size - 1)

/-- `full` up to the first load of `read`. -/
def full (r : Interlink α) : Interlink α :=
  if r.next r.nwrite = r.lread then
    if r.next r.nwrite = r.read then { r with transmitter := .idle }
    else { r with transmitter := .loading }
  else { r with transmitter := .clear }

/-- The second load of `read`. -/
def fullLoad (r : Interlink α) : Interlink α := { r with lread := r.read, transmitter := .clear }

def insert (r : Interlink α) (p : α) : Interlink α := { r with
  packets := Function.update r.packets r.nwrite p
  nwrite := r.next r.nwrite
  transmitter := .idle
  inserted := r.inserted ++ [p] }

def push (r : Interlink α) : Interlink α := { r with
  write := r.nwrite
  pushed := r.inserted.length }

/-- `empty` up to the first load of `write`. -/
def empty (r : Interlink α) : Interlink α :=
  if r.nread = r.lwrite then
    if r.nread = r.write then { r with receiver := .idle }
    else { r with receiver := .loading }
  else { r with receiver := .clear }

/-- The second load of `write`. -/
def emptyLoad (r : Interlink α) : Interlink α := { r with lwrite := r.write, receiver := .clear }

def extract (r : Interlink α) : Interlink α := { r with
  nread := r.next r.nread
  receiver := .idle
  extracted := r.extracted ++ [r.packets r.nread] }

def pull (r : Interlink α) : Interlink α := { r with
  read := r.nread
  pulled := r.extracted.length }

/-- The state after a compare-and-swap of `attach` or `detach` by one side, which is at the
start of its program afterwards. The last side to detach drains the ring. -/
def attachTransmitter (r : Interlink α) : Option (Interlink α) :=
  match r.state with
  | .free => some { r with state := .txup, transmitter := .idle }
  | .rxup => some { r with state := .dxup, transmitter := .idle }
  | _ => none

def detachTransmitter (r : Interlink α) : Option (Interlink α) :=
  match r.state with
  | .dxup => some { r with state := .rxup, transmitter := .idle }
  | .txup => some { r with state := .down, transmitter := .idle, receiver := .idle }
  | _ => none

def attachReceiver (r : Interlink α) : Option (Interlink α) :=
  match r.state with
  | .free => some { r with state := .rxup, receiver := .idle }
  | .txup => some { r with state := .dxup, receiver := .idle }
  | _ => none

def detachReceiver (r : Interlink α) : Option (Interlink α) :=
  match r.state with
  | .dxup => some { r with state := .txup, receiver := .idle }
  | .rxup => some { r with state := .down, receiver := .idle }
  | _ => none

/-- There is a transmitter, and it is at `side`. -/
def transmitterAt (r : Interlink α) (side : Side) : Prop :=
  (r.state = .txup ∨ r.state = .dxup) ∧ r.transmitter = side

instance (r : Interlink α) (side : Side) : Decidable (r.transmitterAt side) :=
  inferInstanceAs (Decidable (_ ∧ _))

/-- There is a receiver, or the process that shuts the interlink down in its place, and it
is at `side`. -/
def receiverAt (r : Interlink α) (side : Side) : Prop :=
  (r.state = .rxup ∨ r.state = .dxup ∨ r.state = .down) ∧ r.receiver = side

instance (r : Interlink α) (side : Side) : Decidable (r.receiverAt side) :=
  inferInstanceAs (Decidable (_ ∧ _))

/-- One step of the system. `insert` and `extract` are called only when `full` and `empty`
have returned false; `full`, `push`, `empty` and `pull` at any time outside of a call. -/
def act (r : Interlink α) : InterlinkAction α → Option (Interlink α)
  | .attachTransmitter => r.attachTransmitter
  | .detachTransmitter => r.detachTransmitter
  | .full => if r.transmitterAt .idle ∨ r.transmitterAt .clear then some r.full else none
  | .fullLoad => if r.transmitterAt .loading then some r.fullLoad else none
  | .insert p => if r.transmitterAt .clear then some (r.insert p) else none
  | .push => if r.transmitterAt .idle ∨ r.transmitterAt .clear then some r.push else none
  | .attachReceiver => r.attachReceiver
  | .detachReceiver => r.detachReceiver
  | .empty => if r.receiverAt .idle ∨ r.receiverAt .clear then some r.empty else none
  | .emptyLoad => if r.receiverAt .loading then some r.emptyLoad else none
  | .extract => if r.receiverAt .clear then some r.extract else none
  | .pull => if r.receiverAt .idle ∨ r.receiverAt .clear then some r.pull else none

/-! ## The cursors count the packets -/

/-- The invariant. The private copies of the cursors are counts of the past: `lr` packets
had been pulled when the transmitter looked, `lw` packets pushed when the receiver did. -/
structure Kept (r : Interlink α) (lr lw : Nat) : Prop where
  nwrite_eq : r.nwrite = r.inserted.length % r.size
  write_eq : r.write = r.pushed % r.size
  nread_eq : r.nread = r.extracted.length % r.size
  read_eq : r.read = r.pulled % r.size
  lread_eq : r.lread = lr % r.size
  lwrite_eq : r.lwrite = lw % r.size
  lr_le : lr ≤ r.pulled
  pulled_le : r.pulled ≤ r.extracted.length
  extracted_le : r.extracted.length ≤ lw
  lw_le : lw ≤ r.pushed
  pushed_le : r.pushed ≤ r.inserted.length
  room : r.inserted.length < lr + r.size
  slots : ∀ k p, r.pulled ≤ k → r.inserted[k]? = some p → r.packets (k % r.size) = p
  order : r.extracted <+: r.inserted
  -- what `full` and `empty` have seen stays true, as the other side only moves on
  fullLoading : r.transmitter = .loading → r.inserted.length + 1 < r.pulled + r.size
  fullClear : r.transmitter = .clear → r.inserted.length + 1 < lr + r.size
  emptyLoading : r.receiver = .loading → r.extracted.length < r.pushed
  emptyClear : r.receiver = .clear → r.extracted.length < lw

variable {r r' : Interlink α} {n lr lw : Nat}

theorem kept_new (hsize : 0 < n) (packets : Nat → α) : Kept (new n packets) 0 0 := by
  constructor <;> simp [new, hsize]

theorem next_mod (h : r.size = 2 ^ n) (k : Nat) : r.next (k % r.size) = (k + 1) % r.size := by
  rw [next, h, Nat.and_two_pow_sub_one_eq_mod, Nat.mod_add_mod]

theorem size_full (r : Interlink α) : r.full.size = r.size := by
  unfold full
  split
  · split <;> rfl
  · rfl

theorem size_empty (r : Interlink α) : r.empty.size = r.size := by
  unfold empty
  split
  · split <;> rfl
  · rfl

section

variable (h : Kept r lr lw)
include h

/-- `full` answers for what the transmitter knows, or for `read` itself. -/
theorem Kept.full (hsize : r.size = 2 ^ n) : Kept r.full lr lw := by
  have hroom := h.room
  unfold Interlink.full
  split
  · next hlread =>
    rw [h.nwrite_eq, next_mod hsize, h.lread_eq] at hlread
    split
    · exact { h with fullLoading := nofun, fullClear := nofun }
    · next hread =>
      rw [h.nwrite_eq, next_mod hsize, h.read_eq] at hread
      refine { h with fullLoading := fun _ => ?_, fullClear := nofun }
      -- the ring is full for `lr`, so `read` has moved on
      show r.inserted.length + 1 < r.pulled + r.size
      have hpulled : lr ≠ r.pulled := fun heq => hread (heq ▸ hlread)
      have hlr := h.lr_le
      omega
  · next hlread =>
    rw [h.nwrite_eq, next_mod hsize, h.lread_eq] at hlread
    refine { h with fullLoading := nofun, fullClear := fun _ => ?_ }
    show r.inserted.length + 1 < lr + r.size
    have hne : r.inserted.length + 1 ≠ lr + r.size := fun heq =>
      hlread (by rw [heq, Nat.add_mod_right])
    omega

theorem Kept.fullLoad (hload : r.transmitter = .loading) : Kept r.fullLoad r.pulled lw :=
  { h with
    lread_eq := h.read_eq
    lr_le := Nat.le_refl _
    room := Nat.lt_of_succ_lt (h.fullLoading hload)
    fullLoading := nofun
    fullClear := fun _ => h.fullLoading hload }

/-- **To insert** a packet overwrites a slot that the receiver has pulled past. -/
theorem Kept.insert (hsize : r.size = 2 ^ n) (hclear : r.transmitter = .clear)
    (p : α) : Kept (r.insert p) lr lw := by
  have hroom := h.fullClear hclear
  have hlr := h.lr_le
  refine { h with
    nwrite_eq := ?_
    pushed_le := ?_
    room := ?_
    slots := ?_
    order := h.order.trans (prefix_append ..)
    fullLoading := nofun
    fullClear := nofun }
  · show r.next r.nwrite = (r.inserted ++ [p]).length % r.size
    rw [h.nwrite_eq, next_mod hsize, List.length_append, length_singleton]
  · show r.pushed ≤ (r.inserted ++ [p]).length
    rw [List.length_append]
    exact h.pushed_le.trans (Nat.le_add_right _ _)
  · show (r.inserted ++ [p]).length < lr + r.size
    rw [List.length_append]
    exact hroom
  · intro k q hpulled hk
    show Function.update r.packets r.nwrite p (k % r.size) = q
    replace hk : (r.inserted ++ [p])[k]? = some q := hk
    replace hpulled : r.pulled ≤ k := hpulled
    rw [List.getElem?_append] at hk
    split at hk
    · next hlt =>
      -- packets that were not pulled are less than a round behind the new one
      rw [Function.update_of_ne, h.slots k q hpulled hk]
      rw [h.nwrite_eq]
      exact fun heq => hlt.ne (Ring.eq_of_mod_eq heq.symm hlt.le (by omega)).symm
    · obtain ⟨hlast, rfl⟩ := List.getElem?_eq_some_iff.mp hk
      rw [length_singleton] at hlast
      obtain rfl : k = r.inserted.length := by omega
      rw [← h.nwrite_eq]
      simp

theorem Kept.push : Kept r.push lr lw :=
  { h with
    write_eq := h.nwrite_eq
    lw_le := h.lw_le.trans h.pushed_le
    pushed_le := Nat.le_refl _
    emptyLoading := fun hload => (h.emptyLoading hload).trans_le h.pushed_le }

theorem Kept.empty : Kept r.empty lr lw := by
  have hle := h.extracted_le
  have hlw := h.lw_le
  unfold Interlink.empty
  split
  · split
    · exact { h with emptyLoading := nofun, emptyClear := nofun }
    · next hwrite =>
      rw [h.nread_eq, h.write_eq] at hwrite
      refine { h with emptyLoading := fun _ => ?_, emptyClear := nofun }
      show r.extracted.length < r.pushed
      have hne : r.extracted.length ≠ r.pushed := fun heq => hwrite (by rw [heq])
      omega
  · next hlwrite =>
    rw [h.nread_eq, h.lwrite_eq] at hlwrite
    refine { h with emptyLoading := nofun, emptyClear := fun _ => ?_ }
    show r.extracted.length < lw
    have hne : r.extracted.length ≠ lw := fun heq => hlwrite (by rw [heq])
    omega

theorem Kept.emptyLoad (hload : r.receiver = .loading) : Kept r.emptyLoad lr r.pushed :=
  { h with
    lwrite_eq := h.write_eq
    extracted_le := (h.emptyLoading hload).le
    lw_le := Nat.le_refl _
    emptyLoading := nofun
    emptyClear := fun _ => h.emptyLoading hload }

/-- **To extract** a packet yields the next one that was inserted. -/
theorem Kept.extract (hsize : r.size = 2 ^ n) (hclear : r.receiver = .clear) :
    Kept r.extract lr lw := by
  have hlt := h.emptyClear hclear
  have hinserted : r.extracted.length < r.inserted.length :=
    hlt.trans_le (h.lw_le.trans h.pushed_le)
  obtain ⟨rest, hrest⟩ := h.order
  obtain ⟨p, rest, rfl⟩ : ∃ p rest', rest = p :: rest' := by
    refine exists_cons_of_ne_nil fun hnil => ?_
    rw [← hrest, hnil, append_nil] at hinserted
    exact Nat.lt_irrefl _ hinserted
  -- the slot still holds what was inserted, as it was not pulled past
  have hpacket : r.packets r.nread = p := by
    rw [h.nread_eq]
    refine h.slots _ p h.pulled_le ?_
    rw [← hrest]
    simp
  refine { h with
    nread_eq := ?_
    pulled_le := ?_
    extracted_le := ?_
    order := ?_
    emptyLoading := nofun
    emptyClear := nofun }
  · show r.next r.nread = (r.extracted ++ [_]).length % r.size
    rw [h.nread_eq, next_mod hsize, List.length_append, length_singleton]
  · show r.pulled ≤ (r.extracted ++ [_]).length
    rw [List.length_append]
    exact h.pulled_le.trans (Nat.le_add_right _ _)
  · show (r.extracted ++ [_]).length ≤ lw
    rw [List.length_append]
    exact hlt
  · show r.extracted ++ [r.packets r.nread] <+: r.inserted
    refine ⟨rest, ?_⟩
    rw [hpacket, append_assoc]
    exact hrest

theorem Kept.pull : Kept r.pull lr lw :=
  { h with
    read_eq := h.nread_eq
    lr_le := h.lr_le.trans h.pulled_le
    pulled_le := Nat.le_refl _
    slots := fun k p hle => h.slots k p (h.pulled_le.trans hle)
    fullLoading := fun hload => (h.fullLoading hload).trans_le (Nat.add_le_add_right h.pulled_le _) }

/-- A new process on either side starts outside of `full` and `empty`. -/
theorem Kept.transmitterIdle (state : InterlinkState) :
    Kept { r with state := state, transmitter := .idle } lr lw :=
  { h with fullLoading := nofun, fullClear := nofun }

theorem Kept.receiverIdle (state : InterlinkState) :
    Kept { r with state := state, receiver := .idle } lr lw :=
  { h with emptyLoading := nofun, emptyClear := nofun }

/-- **A step** of either side keeps the invariant. -/
theorem Kept.act (hsize : r.size = 2 ^ n) {a : InterlinkAction α}
    (hact : r.act a = some r') : r'.size = 2 ^ n ∧ ∃ lr lw, Kept r' lr lw := by
  cases a with
  | attachTransmitter =>
    simp only [Interlink.act, Interlink.attachTransmitter] at hact
    split at hact
    · cases hact
      exact ⟨hsize, lr, lw, h.transmitterIdle _⟩
    · cases hact
      exact ⟨hsize, lr, lw, h.transmitterIdle _⟩
    · cases hact
  | detachTransmitter =>
    simp only [Interlink.act, Interlink.detachTransmitter] at hact
    split at hact
    · cases hact
      exact ⟨hsize, lr, lw, h.transmitterIdle _⟩
    · cases hact
      exact ⟨hsize, lr, lw, (h.transmitterIdle .down).receiverIdle .down⟩
    · cases hact
  | attachReceiver =>
    simp only [Interlink.act, Interlink.attachReceiver] at hact
    split at hact
    · cases hact
      exact ⟨hsize, lr, lw, h.receiverIdle _⟩
    · cases hact
      exact ⟨hsize, lr, lw, h.receiverIdle _⟩
    · cases hact
  | detachReceiver =>
    simp only [Interlink.act, Interlink.detachReceiver] at hact
    split at hact
    · cases hact
      exact ⟨hsize, lr, lw, h.receiverIdle _⟩
    · cases hact
      exact ⟨hsize, lr, lw, h.receiverIdle _⟩
    · cases hact
  | full =>
    obtain ⟨-, heq⟩ := ite_none_right_eq_some.mp hact
    cases heq
    exact ⟨r.size_full.trans hsize, lr, lw, h.full hsize⟩
  | fullLoad =>
    obtain ⟨hload, heq⟩ := ite_none_right_eq_some.mp hact
    cases heq
    exact ⟨hsize, r.pulled, lw, h.fullLoad hload.2⟩
  | insert p =>
    obtain ⟨hclear, heq⟩ := ite_none_right_eq_some.mp hact
    cases heq
    exact ⟨hsize, lr, lw, h.insert hsize hclear.2 p⟩
  | push =>
    obtain ⟨-, heq⟩ := ite_none_right_eq_some.mp hact
    cases heq
    exact ⟨hsize, lr, lw, h.push⟩
  | empty =>
    obtain ⟨-, heq⟩ := ite_none_right_eq_some.mp hact
    cases heq
    exact ⟨r.size_empty.trans hsize, lr, lw, h.empty⟩
  | emptyLoad =>
    obtain ⟨hload, heq⟩ := ite_none_right_eq_some.mp hact
    cases heq
    exact ⟨hsize, lr, r.pushed, h.emptyLoad hload.2⟩
  | extract =>
    obtain ⟨hclear, heq⟩ := ite_none_right_eq_some.mp hact
    cases heq
    exact ⟨hsize, lr, lw, h.extract hsize hclear.2⟩
  | pull =>
    obtain ⟨-, heq⟩ := ite_none_right_eq_some.mp hact
    cases heq
    exact ⟨hsize, lr, lw, h.pull⟩

end

/-- **An interlink is a queue.** However the steps of a transmitter and a receiver are
interleaved, and however often either side is replaced, at every moment

- the packets extracted are the first ones that were inserted, in the same order, and all
  of them were inserted before the last `push`;
- every packet that the receiver has not pulled past is still in its slot;
- there are at most `size - 1` such packets. -/
theorem interlink_queue (n : Nat) (packets : Nat → α) (actions : List (InterlinkAction α))
    (hrun : run (enabled Interlink.act) (new (2 ^ n) packets) actions = .ok r) :
    r.extracted <+: r.inserted.take r.pushed ∧
      (∀ k p, r.pulled ≤ k → r.inserted[k]? = some p → r.packets (k % 2 ^ n) = p) ∧
      r.pulled ≤ r.extracted.length ∧ r.inserted.length ≤ r.pulled + (2 ^ n - 1) := by
  obtain ⟨hsize, lr, lw, h⟩ := run_enabled
    (I := fun r : Interlink α => r.size = 2 ^ n ∧ ∃ lr lw, Kept r lr lw)
    (fun r a r' hr hact => by
      obtain ⟨hsize, lr, lw, h⟩ := hr
      exact h.act hsize hact)
    ⟨rfl, 0, 0, kept_new (Nat.two_pow_pos n) packets⟩ hrun
  refine ⟨?_, ?_, h.pulled_le, ?_⟩
  · have htake := prefix_iff_eq_take.mp h.order
    rw [htake]
    exact take_prefix_take_left (h.extracted_le.trans h.lw_le)
  · rw [← hsize]
    exact h.slots
  · have hroom := h.room
    have hlr := h.lr_le
    omega

/-- A ring of two slots. The receiver is replaced after it has extracted the first packet. -/
theorem interlink_queue_sample :
    ∃ r, run (enabled Interlink.act) (new (2 ^ 1) fun _ => 0)
        [.attachTransmitter, .full, .insert 7, .attachReceiver, .push, .empty, .emptyLoad, .extract,
          .detachReceiver, .full, .attachReceiver, .pull, .full, .fullLoad, .insert 8] = .ok r ∧
      r.extracted = [7] ∧ r.inserted = [7, 8] ∧ r.extracted <+: r.inserted.take r.pushed ∧
      r.inserted.length ≤ r.pulled + (2 ^ 1 - 1) := by
  refine exists_ok_of_any (fun r : Interlink Nat => r.extracted = [7] ∧ r.inserted = [7, 8])
    (by decide +kernel) fun r hrun ⟨hextracted, hinserted⟩ => ?_
  obtain ⟨horder, -, -, hroom⟩ := interlink_queue 1 _ _ hrun
  exact ⟨hextracted, hinserted, horder, hroom⟩

end Interlink

end Snabb
