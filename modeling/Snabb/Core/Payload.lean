import Snabb.Core.Packet
import Snabb.Foundation.Run

/-!
# Operations on the payload (`core/packet.lua`)

`append`, `prepend` and `resize` work on the payload where it lies; `shiftleft`
and `shiftright` move the packet structure inside its allocation when the headroom
allows it, and the payload otherwise. A caller sees a sequence of bytes that grows
and shrinks at both ends: `ShiftsRight` and `ShiftsLeft` say what it may rely on,
whatever the headroom is.

The slow path of `shiftright` checks that the result fits into `max_payload`, the
fast path does not. `InRoom` is the condition under which this makes no
difference, and `payload_operations` shows that it is exact: for one shift, and
along every sequence of operations.

`PacketOp.accesses` lists what an operation touches of the allocation, and
`apply_frame` ties the list to the operation.
-/

namespace Snabb

open Foundation List

/-- `sizeof(struct packet)`. -/
def packetSize : Nat := lengthFieldSize + maxPayload

/-- What `new_packet` allocates. -/
def allocationSize : Nat := packetSize + packetAlignment

/-- Bytes of the allocation that are read or written, from `offset` on. -/
structure Access where
  offset : Int
  size : Nat

def Access.Inside (a : Access) : Prop := 0 ≤ a.offset ∧ a.offset + a.size ≤ allocationSize

def Access.Covers (a : Access) (k : Nat) : Prop := a.offset ≤ k ∧ k < a.offset + a.size

/-- The length field of a structure that starts at `headroom`. -/
def lengthField (headroom : Nat) : Access := ⟨headroom, lengthFieldSize⟩

/-- The operations that change a payload. -/
inductive PacketOp where
  | shiftleft (bytes : Nat)
  | shiftright (bytes : Nat)
  | append (bs : List UInt8)
  | prepend (bs : List UInt8)
  | resize (len : Nat)

namespace Packet

/-- `packet.append`. -/
def append (p : Packet) (bs : List UInt8) : Except Raise Packet :=
  if p.length + bs.length ≤ maxPayload then
    .ok ((p.write p.length bs).setLength (p.length + bs.length))
  else
    .error .assertionFailed

/-- `packet.prepend`. -/
def prepend (p : Packet) (bs : List UInt8) : Except Raise Packet := do
  let p ← p.shiftright bs.length
  -- fill the gap
  return p.write 0 bs

/-- `packet.resize`. -/
def resize (p : Packet) (len : Nat) : Except Raise Packet :=
  if len ≤ maxPayload then
    .ok ((p.write p.length (List.replicate (len - p.length) 0)).setLength len)
  else
    .error .assertionFailed

def apply (p : Packet) : PacketOp → Except Raise Packet
  | .shiftleft bytes => p.shiftleft bytes
  | .shiftright bytes => p.shiftright bytes
  | .append bs => p.append bs
  | .prepend bs => p.prepend bs
  | .resize len => p.resize len

/-- What `shiftleft` touches. -/
def shiftleftAccesses (p : Packet) (bytes : Nat) : List Access :=
  lengthField p.headroom ::
    if bytes ≤ p.length then
      if headroomValid (bytes + p.headroom : Nat) then
        [lengthField (p.headroom + bytes)]
      else
        let deltaHeadroom : Int := defaultHeadroom - p.headroom
        [⟨p.data + bytes, p.length - bytes⟩, ⟨p.data + deltaHeadroom, p.length - bytes⟩,
          lengthField defaultHeadroom]
    else []

/-- The test that selects the fast path of a `shiftright` by `bytes`. -/
def movesPointer (p : Packet) (bytes : Nat) : Prop := headroomValid ((p.headroom : Int) - bytes)

instance (p : Packet) (bytes : Nat) : Decidable (p.movesPointer bytes) :=
  inferInstanceAs (Decidable (headroomValid _))

/-- What `shiftright` touches. -/
def shiftrightAccesses (p : Packet) (bytes : Nat) : List Access :=
  lengthField p.headroom ::
    if p.movesPointer bytes then
      [lengthField (p.headroom - bytes)]
    else if (bytes : Int) ≤ (maxPayload : Int) - p.length then
      let deltaHeadroom : Int := defaultHeadroom - p.headroom
      [⟨p.data, p.length⟩, ⟨p.data + bytes + deltaHeadroom, p.length⟩, lengthField defaultHeadroom]
    else []

/-- The headroom that `shiftright` leaves. -/
def shiftrightHeadroom (p : Packet) (bytes : Nat) : Nat :=
  if p.movesPointer bytes then p.headroom - bytes else defaultHeadroom

/-- What an operation touches of the allocation when it does not raise. -/
def accesses (p : Packet) : PacketOp → List Access
  | .shiftleft bytes => p.shiftleftAccesses bytes
  | .shiftright bytes => p.shiftrightAccesses bytes
  | .append bs => [lengthField p.headroom, ⟨p.data + p.length, bs.length⟩]
  | .prepend bs =>
    p.shiftrightAccesses bs.length ++
      [⟨p.shiftrightHeadroom bs.length + lengthFieldSize, bs.length⟩]
  | .resize len => [lengthField p.headroom, ⟨p.data + p.length, len - p.length⟩]

/-! ## The shifts -/

/-- What a caller relies on when it shifts a packet to the right by `n` bytes. -/
structure ShiftsRight (p : Packet) (n : Nat) : Prop where
  raises : (∃ e, p.shiftright n = .error e) ↔ maxPayload < p.length + n
  returns : ∀ q, p.shiftright n = .ok q → q.length = p.length + n ∧ q.window n p.length = p.bytes ∧
    q.headroom < packetAlignment ∧ q.headroom % minimumAlignment = 0
  inside : ∀ a ∈ p.accesses (.shiftright n), a.Inside

/-- What a caller relies on when it shifts a packet to the left by `n` bytes. -/
structure ShiftsLeft (p : Packet) (n : Nat) : Prop where
  raises : (∃ e, p.shiftleft n = .error e) ↔ p.length < n
  returns : ∀ q, p.shiftleft n = .ok q → q.length = p.length - n ∧ q.bytes = p.bytes.drop n ∧
    q.headroom < packetAlignment ∧ q.headroom % minimumAlignment = 0
  inside : ∀ a ∈ p.accesses (.shiftleft n), a.Inside

variable {p q : Packet} {n : Nat} {bs : List UInt8}

theorem shiftright_fast (h : p.movesPointer n) :
    ∃ q, p.shiftright n = .ok q ∧ q.length = (p.length + n) % 2 ^ 16 :=
  ⟨_, dif_pos h, rfl⟩

theorem shiftright_slow (h : ¬ p.movesPointer n) (hover : maxPayload < p.length + n) :
    p.shiftright n = .error .assertionFailed := by
  rw [movesPointer] at h
  rw [shiftright, dif_neg h, if_neg]
  omega

theorem shiftright_headroom (h : p.shiftright n = .ok q) : q.headroom = p.shiftrightHeadroom n := by
  rw [shiftright] at h
  rw [shiftrightHeadroom]
  by_cases hmoves : p.movesPointer n
  · rw [if_pos hmoves]
    rw [movesPointer] at hmoves
    rw [dif_pos hmoves] at h
    cases h
    rfl
  · rw [if_neg hmoves]
    rw [movesPointer] at hmoves
    rw [dif_neg hmoves] at h
    split at h
    · cases h
      rfl
    · cases h

theorem lengthField_inside {headroom : Nat} (h : headroom < packetAlignment) :
    (lengthField headroom).Inside := by
  simp only [packetAlignment] at h
  constructor
  · exact Int.natCast_nonneg _
  · simp only [lengthField, allocationSize, packetSize, packetAlignment]
    omega

theorem shiftright_inside (h : p.length ≤ maxPayload) : ∀ a ∈ p.shiftrightAccesses n, a.Inside := by
  have hlt := p.headroom_lt
  intro a ha
  rcases mem_cons.mp ha with rfl | ha
  · exact lengthField_inside hlt
  · split at ha
    · -- the pointer moves to the left
      obtain rfl := mem_singleton.mp ha
      exact lengthField_inside (by omega)
    · split at ha
      · simp only [mem_cons, not_mem_nil, or_false] at ha
        simp only [maxPayload, packetAlignment] at h hlt
        rcases ha with rfl | rfl | rfl
        · constructor <;>
          · simp only [data, allocationSize, packetSize, packetAlignment]
            omega
        · rename_i hfits
          simp only [maxPayload] at hfits
          constructor <;>
          · simp only [data, defaultHeadroom, allocationSize, packetSize, maxPayload,
              packetAlignment]
            omega
        · exact lengthField_inside (by decide)
      · cases ha

theorem shiftleft_inside (h : p.length ≤ maxPayload) : ∀ a ∈ p.shiftleftAccesses n, a.Inside := by
  have hlt := p.headroom_lt
  intro a ha
  rcases mem_cons.mp ha with rfl | ha
  · exact lengthField_inside hlt
  · split at ha
    · split at ha
      · rename_i hvalid
        obtain rfl := mem_singleton.mp ha
        refine lengthField_inside ?_
        have := hvalid.2.1
        omega
      · rename_i hn _
        simp only [mem_cons, not_mem_nil, or_false] at ha
        simp only [maxPayload, packetAlignment] at h hlt
        rcases ha with rfl | rfl | rfl
        · constructor <;>
          · simp only [data, allocationSize, packetSize, maxPayload, packetAlignment]
            omega
        · constructor <;>
          · simp only [data, defaultHeadroom, allocationSize, packetSize, maxPayload,
              packetAlignment]
            omega
        · exact lengthField_inside (by decide)
    · cases ha

/-- **`shiftleft` does what its callers rely on.** -/
theorem shiftsLeft (p : Packet) (n : Nat) (h : p.length ≤ maxPayload) : p.ShiftsLeft n where
  raises := by
    constructor
    · rintro ⟨e, he⟩
      by_contra hle
      obtain ⟨q, hq, -⟩ := shiftleft_spec p (Nat.le_of_not_lt hle)
      rw [hq] at he
      cases he
    · intro hlt
      exact ⟨.assertionFailed, if_neg (Nat.not_le.mpr hlt)⟩
  returns := by
    intro q hq
    have hn : n ≤ p.length := by
      by_contra hlt
      rw [shiftleft, if_neg hlt] at hq
      cases hq
    obtain ⟨q', hq', -, hlength, hbytes⟩ := shiftleft_spec p hn
    obtain rfl : q' = q := ok_unique hq' hq
    exact ⟨hlength, hbytes, q'.headroom_lt, q'.headroom_even⟩
  inside := shiftleft_inside h

/-- **`shiftright` does what its callers rely on** unless it moves the pointer of a
packet that becomes too long. -/
theorem shiftsRight_iff (p : Packet) (n : Nat) (h : p.length ≤ maxPayload) :
    p.ShiftsRight n ↔ p.length + n ≤ maxPayload ∨ ¬ p.movesPointer n := by
  constructor
  · intro hshifts
    by_contra hcon
    rw [not_or, not_not] at hcon
    obtain ⟨q, hq, -⟩ := shiftright_fast hcon.2
    obtain ⟨e, he⟩ := hshifts.raises.mpr (Nat.lt_of_not_le hcon.1)
    rw [hq] at he
    cases he
  · intro hroom
    by_cases hfits : p.length + n ≤ maxPayload
    · obtain ⟨q, hq, -, hlength, hwindow⟩ := shiftright_spec p hfits
      refine ⟨?_, ?_, shiftright_inside h⟩
      · constructor
        · rintro ⟨e, he⟩
          rw [hq] at he
          cases he
        · intro hover
          exact absurd hfits (Nat.not_le.mpr hover)
      · intro q' hq'
        obtain rfl : q = q' := ok_unique hq hq'
        exact ⟨hlength, hwindow, q.headroom_lt, q.headroom_even⟩
    · have hraise := shiftright_slow (hroom.resolve_left hfits) (Nat.lt_of_not_le hfits)
      refine ⟨?_, ?_, shiftright_inside h⟩
      · exact ⟨fun _ => Nat.lt_of_not_le hfits, fun _ => ⟨_, hraise⟩⟩
      · intro q hq
        rw [hraise] at hq
        cases hq

/-! ## Sequences of operations -/

/-- The operation does not make the packet too long by moving its pointer. -/
def InRoom (p : Packet) : PacketOp → Prop
  | .shiftright bytes => p.length + bytes ≤ maxPayload ∨ ¬ p.movesPointer bytes
  | .prepend bs => p.length + bs.length ≤ maxPayload ∨ ¬ p.movesPointer bs.length
  | _ => True

theorem shiftright_inRoom (h : p.length ≤ maxPayload) :
    (p.length + n ≤ maxPayload ∨ ¬ p.movesPointer n) ↔
      ∀ q, p.shiftright n = .ok q → q.length ≤ maxPayload := by
  constructor
  · intro hroom q hq
    have hshifts := (shiftsRight_iff p n h).mpr hroom
    rw [(hshifts.returns q hq).1]
    by_contra hover
    obtain ⟨e, he⟩ := hshifts.raises.mpr (Nat.lt_of_not_le hover)
    rw [hq] at he
    cases he
  · intro hkeeps
    by_contra hcon
    rw [not_or, not_not] at hcon
    obtain ⟨q, hq, hlength⟩ := shiftright_fast hcon.2
    have hle := hkeeps q hq
    have hmoves := hcon.2.1
    have hlt := p.headroom_lt
    -- the pointer moves by at most the headroom, so the length does not wrap
    simp only [maxPayload, packetAlignment] at h hle hcon hlt
    omega

theorem length_append (h : p.append bs = .ok q) : q.length ≤ maxPayload := by
  rw [append] at h
  split at h
  · cases h
    exact (Nat.mod_le _ _).trans ‹_›
  · cases h

theorem length_resize {len : Nat} (h : p.resize len = .ok q) : q.length ≤ maxPayload := by
  rw [resize] at h
  split at h
  · cases h
    exact (Nat.mod_le _ _).trans ‹_›
  · cases h

theorem prepend_eq_ok (h : p.prepend bs = .ok q) :
    ∃ r, p.shiftright bs.length = .ok r ∧ q = r.write 0 bs := by
  obtain ⟨r, hr, hret⟩ := bind_eq_ok h
  exact ⟨r, hr, (Except.ok.inj hret).symm⟩

/-- **`InRoom` is exact**: an operation keeps the bound on the length if and only if it
is in room. -/
theorem inRoom_iff (op : PacketOp) (h : p.length ≤ maxPayload) :
    p.InRoom op ↔ ∀ q, p.apply op = .ok q → q.length ≤ maxPayload := by
  cases op with
  | shiftleft bytes =>
    refine ⟨fun _ q hq => ?_, fun _ => trivial⟩
    rw [((shiftsLeft p bytes h).returns q hq).1]
    exact (Nat.sub_le _ _).trans h
  | shiftright bytes => exact shiftright_inRoom h
  | append bs => exact ⟨fun _ q hq => length_append hq, fun _ => trivial⟩
  | prepend bs =>
    rw [InRoom, shiftright_inRoom h]
    constructor
    · intro hkeeps q hq
      obtain ⟨r, hr, rfl⟩ := prepend_eq_ok hq
      exact hkeeps r hr
    · intro hkeeps r hr
      exact hkeeps (r.write 0 bs) (by rw [apply, prepend, hr]; rfl)
  | resize len => exact ⟨fun _ q hq => length_resize hq, fun _ => trivial⟩

theorem payload_inside {k m : Nat} (h : p.headroom + k + m ≤ packetAlignment + maxPayload) :
    Access.Inside ⟨p.data + k, m⟩ := by
  simp only [packetAlignment, maxPayload] at h
  constructor <;>
  · simp only [data, allocationSize, packetSize, maxPayload, packetAlignment]
    omega

theorem accesses_inside (op : PacketOp) (h : p.length ≤ maxPayload) (hok : p.apply op = .ok q) :
    ∀ a ∈ p.accesses op, a.Inside := by
  have hlt := p.headroom_lt
  cases op with
  | shiftleft bytes => exact shiftleft_inside h
  | shiftright bytes => exact shiftright_inside h
  | append bs =>
    have hfits : p.length + bs.length ≤ maxPayload := by
      by_contra hover
      rw [apply, append, if_neg hover] at hok
      cases hok
    simp only [accesses, mem_cons, not_mem_nil, or_false, forall_eq_or_imp, forall_eq]
    exact ⟨lengthField_inside hlt, payload_inside (by omega)⟩
  | prepend bs =>
    intro a ha
    rcases mem_append.mp ha with ha | ha
    · exact shiftright_inside h a ha
    · obtain rfl := mem_singleton.mp ha
      obtain ⟨r, hr, -⟩ := prepend_eq_ok hok
      by_cases hmoves : p.movesPointer bs.length
      · rw [shiftrightHeadroom, if_pos hmoves]
        have hle := hmoves.1
        simp only [packetAlignment] at hlt
        constructor <;>
        · simp only [allocationSize, packetSize, packetAlignment]
          omega
      · rw [shiftrightHeadroom, if_neg hmoves]
        have hfits : p.length + bs.length ≤ maxPayload := by
          by_contra hover
          rw [shiftright_slow hmoves (Nat.lt_of_not_le hover)] at hr
          cases hr
        simp only [maxPayload] at hfits
        constructor <;>
        · simp only [defaultHeadroom, allocationSize, packetSize, maxPayload, packetAlignment]
          omega
  | resize len =>
    have hfits : len ≤ maxPayload := by
      by_contra hover
      rw [apply, resize, if_neg hover] at hok
      cases hok
    simp only [accesses, mem_cons, not_mem_nil, or_false, forall_eq_or_imp, forall_eq]
    exact ⟨lengthField_inside hlt, payload_inside (by omega)⟩

theorem store_of_not_covers {m : Mem} {a k : Nat} {bs : List UInt8}
    (h : ¬ Access.Covers ⟨a, bs.length⟩ k) : m.store a bs k = m k := by
  refine Mem.store_of_outside ?_
  simp only [Access.Covers] at h
  omega

/-- Placing the structure changes the length field in front of the payload only. -/
theorem place_of_not_covers {headroom len k : Nat} {mem : Mem} {hlt : headroom < packetAlignment}
    {heven : headroom % minimumAlignment = 0} (h : ¬ (lengthField headroom).Covers k) :
    (p.place headroom len mem hlt heven).mem k = mem k := by
  refine store_of_not_covers ?_
  rwa [length_leBytes]

variable {k : Nat}

theorem shiftright_frame (hok : p.shiftright n = .ok q)
    (hk : ∀ a ∈ p.shiftrightAccesses n, ¬ a.Covers k) : q.mem k = p.mem k := by
  by_cases hmoves : p.movesPointer n
  · have hfield : lengthField (p.headroom - n) ∈ p.shiftrightAccesses n := by
      simp [shiftrightAccesses, hmoves]
    rw [movesPointer] at hmoves
    rw [shiftright, dif_pos hmoves] at hok
    cases hok
    exact place_of_not_covers (hk _ hfield)
  · by_cases hfits : n ≤ (maxPayload : Int) - p.length
    · have hall : p.shiftrightAccesses n = lengthField p.headroom :: [⟨p.data, p.length⟩,
          ⟨p.data + n + (defaultHeadroom - p.headroom), p.length⟩,
          lengthField defaultHeadroom] := by
        simp [shiftrightAccesses, hmoves, hfits]
      rw [hall] at hk
      simp only [mem_cons, not_mem_nil, or_false, forall_eq_or_imp, forall_eq] at hk
      obtain ⟨-, -, htarget, hfield⟩ := hk
      rw [movesPointer] at hmoves
      rw [shiftright, dif_neg hmoves, if_pos hfits] at hok
      cases hok
      refine (place_of_not_covers hfield).trans (store_of_not_covers ?_)
      rw [Mem.length_load]
      refine fun hcovers => htarget ?_
      simp only [Access.Covers, data] at hcovers ⊢
      omega
    · rw [movesPointer] at hmoves
      rw [shiftright, dif_neg hmoves, if_neg hfits] at hok
      cases hok

theorem shiftleft_frame (hok : p.shiftleft n = .ok q)
    (hk : ∀ a ∈ p.shiftleftAccesses n, ¬ a.Covers k) : q.mem k = p.mem k := by
  by_cases hn : n ≤ p.length
  · by_cases hvalid : headroomValid (n + p.headroom : Nat)
    · have hfield : lengthField (p.headroom + n) ∈ p.shiftleftAccesses n := by
        rw [shiftleftAccesses, if_pos hn, if_pos hvalid]
        exact mem_cons_of_mem _ (mem_singleton_self _)
      rw [shiftleft, if_pos hn, dif_pos hvalid] at hok
      cases hok
      refine place_of_not_covers ?_
      rw [Nat.add_comm]
      exact hk _ hfield
    · have hall : p.shiftleftAccesses n = lengthField p.headroom :: [⟨p.data + n, p.length - n⟩,
          ⟨p.data + (defaultHeadroom - p.headroom), p.length - n⟩,
          lengthField defaultHeadroom] := by
        rw [shiftleftAccesses, if_pos hn, if_neg hvalid]
      rw [hall] at hk
      simp only [mem_cons, not_mem_nil, or_false, forall_eq_or_imp, forall_eq] at hk
      obtain ⟨-, -, htarget, hfield⟩ := hk
      rw [shiftleft, if_pos hn, dif_neg hvalid] at hok
      cases hok
      refine (place_of_not_covers hfield).trans (store_of_not_covers ?_)
      rw [Mem.length_load]
      refine fun hcovers => htarget ?_
      simp only [Access.Covers, data] at hcovers ⊢
      omega
  · rw [shiftleft, if_neg hn] at hok
    cases hok

/-- **An operation writes nothing but what it lists.** -/
theorem apply_frame (op : PacketOp) (hok : p.apply op = .ok q)
    (hk : ∀ a ∈ p.accesses op, ¬ a.Covers k) : q.mem k = p.mem k := by
  cases op with
  | shiftleft bytes => exact shiftleft_frame hok hk
  | shiftright bytes => exact shiftright_frame hok hk
  | append bs =>
    rw [apply, append] at hok
    split at hok
    · cases hok
      simp only [accesses, mem_cons, not_mem_nil, or_false, forall_eq_or_imp,
        forall_eq] at hk
      exact (place_of_not_covers hk.1).trans (store_of_not_covers hk.2)
    · cases hok
  | prepend bs =>
    obtain ⟨r, hr, rfl⟩ := prepend_eq_ok hok
    have hshift : r.mem k = p.mem k :=
      shiftright_frame hr fun a ha => hk a (mem_append_left _ ha)
    have hgap := hk _ (mem_append_right _ (mem_singleton_self _))
    refine (store_of_not_covers ?_).trans hshift
    rwa [data, shiftright_headroom hr]
  | resize len =>
    rw [apply, resize] at hok
    split at hok
    · cases hok
      simp only [accesses, mem_cons, not_mem_nil, or_false, forall_eq_or_imp,
        forall_eq] at hk
      refine (place_of_not_covers hk.1).trans (store_of_not_covers ?_)
      rw [length_replicate]
      exact hk.2
    · cases hok

/-- **The operations on a payload**: `shiftright` does what its callers rely on if and
only if it is in room, `shiftleft` always does; and a sequence of operations keeps the
bound on the length if and only if each of them is in room. Then all that they touch is
inside the allocation, and nothing behind it is changed. -/
theorem payload_operations (p : Packet) (n : Nat) (ops : List PacketOp) (h : p.length ≤ maxPayload) :
    (p.ShiftsRight n ↔ p.length + n ≤ maxPayload ∨ ¬ p.movesPointer n) ∧
    p.ShiftsLeft n ∧
    ((∀ k q, run apply p (ops.take k) = .ok q → q.length ≤ maxPayload) ↔ Along apply InRoom p ops) ∧
    (Along apply InRoom p ops →
      Along apply (fun p op => ∀ q, p.apply op = .ok q →
        (∀ a ∈ p.accesses op, a.Inside) ∧ ∀ k ≥ allocationSize, q.mem k = p.mem k) p ops) := by
  refine ⟨shiftsRight_iff p n h, shiftsLeft p n h, ?_, fun halong => ?_⟩
  · exact prefixes_iff (fun p op hp => inRoom_iff op hp) h
  · refine halong.imp (I := fun p => p.length ≤ maxPayload) ?_ ?_ h
    · intro p op q hp hroom hq
      exact (inRoom_iff op hp).mp hroom q hq
    · intro p op hp _ q hq
      have hinside := accesses_inside op hp hq
      refine ⟨hinside, fun k hk => apply_frame op hq fun a ha hcovers => ?_⟩
      have hbelow := (hinside a ha).2
      have habove := hcovers.2
      omega

/-- A header of 14 bytes is prepended to a frame and removed again. -/
theorem payload_operations_header :
    (fromPointer 0 (List.replicate 60 7)).ShiftsRight 14 ∧
      (fromPointer 0 (List.replicate 60 7)).ShiftsLeft 14 ∧
      ∀ k q, run apply (fromPointer 0 (List.replicate 60 7))
        ([.prepend (List.replicate 14 1), .shiftleft 14].take k) = .ok q → q.length ≤ maxPayload := by
  have hroom : (fromPointer 0 (List.replicate 60 7)).length + 14 ≤ maxPayload := by decide
  obtain ⟨hright, hleft, hrun, -⟩ := payload_operations (fromPointer 0 (List.replicate 60 7)) 14
    [.prepend (List.replicate 14 1), .shiftleft 14] (by decide)
  refine ⟨hright.mpr (.inl hroom), hleft, hrun.mpr ?_⟩
  exact ⟨.inl hroom, fun q _ => ⟨trivial, fun _ _ => trivial⟩⟩

/-- A packet of the largest size with room in front of it grows by two bytes. -/
theorem full_packet_grows :
    (fromPointer 0 (List.replicate maxPayload 0)).length = maxPayload ∧
      ¬ (fromPointer 0 (List.replicate maxPayload 0)).ShiftsRight 2 ∧
      ∃ q, run apply (fromPointer 0 (List.replicate maxPayload 0)) [.shiftright 2] = .ok q ∧
        q.length = maxPayload + 2 := by
  have hlength : (fromPointer 0 (List.replicate maxPayload 0)).length = maxPayload := by
    show (List.replicate maxPayload (0 : UInt8)).length % 2 ^ 16 = maxPayload
    rw [length_replicate]
    rfl
  have hmoves : (fromPointer 0 (List.replicate maxPayload 0)).movesPointer 2 := by
    decide
  obtain ⟨q, hq, hgrown⟩ := shiftright_fast hmoves
  rw [hlength] at hgrown
  refine ⟨hlength, ?_, q, ?_, hgrown⟩
  · rw [shiftsRight_iff _ _ hlength.le, hlength]
    rintro (hfits | hslow)
    · exact absurd hfits (by decide)
    · exact hslow hmoves
  · rw [run, apply, hq]
    rfl

end Packet

end Snabb
