import Snabb.HybridAccess.Recombination.Push

/-!
# In-order delivery

Each link delivers hybrid-access packets with increasing sequence numbers. Is the
sequence of consumed numbers increasing too?

`process_links` never steps back: it discards whatever is below the expected
number. `process_timeout` has no such test, so it steps back when it meets a
*stale* packet, one below the expected number. A push is safe (`OrderSafe`) when
it cannot meet one:

- nothing is due, so that `process_timeout` does nothing; or
- `process_links` has enough rounds for every packet, so that it leaves no stale
  packet behind (`processLinks_fresh`); or
- no packet is stale to begin with and no number is on both links, so that none
  becomes stale (`Fresh.move`).

The number `2 ^ 64 - 1` is excluded, since the number after it is 0.
-/

namespace Snabb

open List

namespace Recombination

open Foundation Relation

variable {c : RecombinationConf} {s s' t : Recombination} {inp : PushInput} {i j : LinkNo}
  {G : Recombination → LinkNo → HaHeader → Prop}

/-! ## Sequence numbers of the buffered packets -/

/-- The sequence numbers of the hybrid-access packets among `pkts`. -/
def seqNos (c : RecombinationConf) (pkts : List Packet) : List Nat :=
  (pkts.filterMap c.hybridAccess.getHeader).map HaHeader.seqNo

/-- The sequence numbers of the packets buffered for link `i`. -/
def heldSeqNos (c : RecombinationConf) (s : Recombination) (i : LinkNo) : List Nat :=
  seqNos c ((s.buffer i).map TsPacket.packet)

theorem seqNos_append (pkts pkts' : List Packet) :
    seqNos c (pkts ++ pkts') = seqNos c pkts ++ seqNos c pkts' := by
  rw [seqNos, filterMap_append, map_append]
  rfl

theorem seqNos_sublist {pkts pkts' : List Packet} (h : pkts.Sublist pkts') :
    (seqNos c pkts).Sublist (seqNos c pkts') :=
  (h.filterMap _).map _

variable {p : TsPacket} {rest : List TsPacket} {h : HaHeader} {n now : Nat}

theorem heldSeqNos_cons (hbuf : s.buffer i = p :: rest)
    (hhead : c.hybridAccess.getHeader p.packet = some h) :
    heldSeqNos c s i = h.seqNo :: heldSeqNos c (s.dequeue i) i := by
  simp [heldSeqNos, seqNos, hbuf, hhead]

theorem heldSeqNos_of_headHeader (hh : headHeader c s i = some h) :
    heldSeqNos c s i = h.seqNo :: heldSeqNos c (s.dequeue i) i := by
  obtain ⟨p, rest, hbuf, hhead⟩ := headHeader_eq_some hh
  exact heldSeqNos_cons hbuf hhead

theorem heldSeqNos_suffix (h : s'.buffer i <:+ s.buffer i) :
    (heldSeqNos c s' i).Sublist (heldSeqNos c s i) :=
  seqNos_sublist (h.sublist.map _)

theorem heldSeqNos_congr (h : s'.buffer i = s.buffer i) : heldSeqNos c s' i = heldSeqNos c s i := by
  rw [heldSeqNos, h, heldSeqNos]

/-- What the links promise: on each of them the numbers increase. The successor
of a number fits in 64 bits. -/
structure Streams (c : RecombinationConf) (s : Recombination) : Prop where
  increasing : ∀ i, (heldSeqNos c s i).Pairwise (· < ·)
  bounded : ∀ i, ∀ n ∈ heldSeqNos c s i, n + 1 < 2 ^ 64

theorem Streams.of_suffix (h : Streams c s) (hsuf : ∀ i, s'.buffer i <:+ s.buffer i) :
    Streams c s' where
  increasing i := (h.increasing i).sublist (heldSeqNos_suffix (hsuf i))
  bounded i n hn := h.bounded i n ((heldSeqNos_suffix (hsuf i)).subset hn)

theorem Streams.moves (h : Streams c s) (hmoves : ReflTransGen (Move c G) s s') : Streams c s' :=
  h.of_suffix (moves_suffix hmoves)

theorem Streams.move (h : Streams c s) (hmove : Move c G s s') : Streams c s' :=
  h.of_suffix hmove.suffix

/-! ## The order of consumption -/

/-- The consumed numbers increase, and the expected number is the successor of
the last one. -/
structure InOrder (s : Recombination) : Prop where
  increasing : s.consumed.Pairwise (· < ·)
  below : ∀ n ∈ s.consumed, n < s.nextSeqNo
  expected : s.nextSeqNo = (s.consumed.getLast?.map (· + 1)).getD 0

theorem InOrder.new : InOrder .new := ⟨List.Pairwise.nil, nofun, rfl⟩

/-- Consuming a number that is not below the expected one keeps the order. -/
theorem InOrder.consume (h : InOrder s) (hn : s.nextSeqNo ≤ n)
    (hcons : s'.consumed = s.consumed ++ [n]) (hnext : s'.nextSeqNo = n + 1) : InOrder s' where
  increasing := by
    rw [hcons]
    refine pairwise_append.mpr ⟨h.increasing, pairwise_singleton _ _, ?_⟩
    intro m hm k hk
    rw [mem_singleton.mp hk]
    exact Nat.lt_of_lt_of_le (h.below m hm) hn
  below m hm := by
    rw [hcons] at hm
    rcases mem_append.mp hm with hm | hm
    · have := h.below m hm
      omega
    · rw [mem_singleton.mp hm]
      omega
  expected := by simp [hcons, hnext]

theorem InOrder.congr (h : InOrder s) (hcons : s'.consumed = s.consumed)
    (hnext : s'.nextSeqNo = s.nextSeqNo) : InOrder s' where
  increasing := by rw [hcons]; exact h.increasing
  below := by rw [hcons, hnext]; exact h.below
  expected := by rw [hcons, hnext]; exact h.expected

/-- A guard that lets no stale packet through keeps the order, also in a move
that fails. -/
theorem InOrder.deliver {r : RecResult Recombination} (ho : InOrder s) (hs : Streams c s)
    (hbuf : s.buffer i = p :: rest) (hhead : c.hybridAccess.getHeader p.packet = some h)
    (hfresh : s.nextSeqNo ≤ h.seqNo)
    (hr : Recombination.deliver c i p.packet h (s.dequeue i) = r) : InOrder (final r) := by
  have hmem : h.seqNo ∈ heldSeqNos c s i := by
    rw [heldSeqNos_cons hbuf hhead]
    exact mem_cons_self ..
  obtain ⟨t, ht, -, hnext, hcons⟩ := deliver_eq hr
  have hfinal : final r = t := by rcases ht with rfl | ⟨e, rfl⟩ <;> rfl
  rw [Nat.mod_eq_of_lt (hs.bounded i _ hmem)] at hnext
  rw [hfinal]
  exact ho.consume hfresh hcons hnext

section

variable (ho : InOrder s) (hs : Streams c s)
  (hG : ∀ i h, G s i h → headHeader c s i = some h → s.nextSeqNo ≤ h.seqNo)
include ho hs hG

theorem InOrder.move (hmove : Move c G s s') : InOrder s' := by
  cases hmove with
  | forward hbuf hhead | discard hbuf hhead hlate => exact ho.congr (by simp) (by simp)
  | consume hbuf hhead hguard hok =>
    exact ho.deliver hs hbuf hhead (hG _ _ hguard ((headHeader_cons hbuf).trans hhead)) hok

theorem InOrder.fails {T : TsPacket → Prop} (hfail : Fails c G T s s') : InOrder s' := by
  cases hfail with
  | ordinary hbuf hhead hT hs' =>
    rcases hs' with rfl | rfl
    · exact ho
    · exact ho.congr rfl rfl
  | consume hbuf hhead hguard herr =>
    exact ho.deliver hs hbuf hhead (hG _ _ hguard ((headHeader_cons hbuf).trans hhead)) herr

end

/-- **`process_links` keeps the order**, whatever it finds. -/
theorem processLinks_inOrder (hs : Streams c s) (ho : InOrder s) :
    InOrder (final (processLinks c s)) := by
  have hG : ∀ s i h, LinksGuard c s i h → headHeader c s i = some h →
      s.nextSeqNo ≤ h.seqNo := by
    rintro s i h (heq | ⟨hlt, -⟩) -
    · exact Nat.le_of_eq heq.symm
    · exact Nat.le_of_lt hlt
  have hrule := (processLinks_reaches c s).rule (P := fun s => Streams c s ∧ InOrder s)
    (Q := InOrder) (fun s _ h hmove => ⟨h.1.move hmove, h.2.move h.1 (hG s) hmove⟩)
    (fun s _ h hfail => h.2.fails h.1 (hG s) hfail) ⟨hs, ho⟩
  revert hrule
  cases processLinks c s with
  | ok t => exact And.right
  | error e => exact id

/-! ## Fresh buffers -/

/-- No buffered packet is stale, and none can become so. -/
structure Fresh (c : RecombinationConf) (s : Recombination) : Prop where
  expected : ∀ i, ∀ n ∈ heldSeqNos c s i, s.nextSeqNo ≤ n
  disjoint : ∀ n ∈ heldSeqNos c s .one, n ∉ heldSeqNos c s .two

theorem Fresh.of_suffix (h : Fresh c s) (hsuf : ∀ i, s'.buffer i <:+ s.buffer i)
    (hnext : s'.nextSeqNo = s.nextSeqNo) : Fresh c s' where
  expected i n hn := by
    rw [hnext]
    exact h.expected i n ((heldSeqNos_suffix (hsuf i)).subset hn)
  disjoint n hone htwo :=
    h.disjoint n ((heldSeqNos_suffix (hsuf .one)).subset hone)
      ((heldSeqNos_suffix (hsuf .two)).subset htwo)

theorem Fresh.not_mem_other (h : Fresh c s) (hn : n ∈ heldSeqNos c s i) :
    n ∉ heldSeqNos c s i.other := by
  cases i with
  | one => exact h.disjoint n hn
  | two => exact fun hone => h.disjoint n hone hn

/-- The lowest number on both links may be consumed: what is left is above it. -/
theorem Fresh.consume (hf : Fresh c s) (hs : Streams c s) (hbuf : s.buffer i = p :: rest)
    (hhead : c.hybridAccess.getHeader p.packet = some h)
    (hlow : ∀ n ∈ heldSeqNos c s i.other, h.seqNo ≤ n)
    (hok : deliver c i p.packet h (s.dequeue i) = .ok s') : Fresh c s' := by
  obtain ⟨hbuf', hnext, -⟩ := deliver_ok hok
  have hself := heldSeqNos_cons hbuf hhead
  have hmem : h.seqNo ∈ heldSeqNos c s i := by
    rw [hself]
    exact mem_cons_self ..
  rw [Nat.mod_eq_of_lt (hs.bounded i _ hmem)] at hnext
  have hsuf : ∀ j, s'.buffer j <:+ s.buffer j := fun j => by
    rw [hbuf']
    exact dequeue_suffix s i j
  refine ⟨fun j n hn => ?_, fun n hone htwo => ?_⟩
  · rw [hnext]
    by_cases hj : j = i
    · -- its own link is sorted, and the other one has no equal number
      subst hj
      rw [heldSeqNos_congr (congrFun hbuf' j)] at hn
      have hincr := hs.increasing j
      rw [hself] at hincr
      exact rel_of_pairwise_cons hincr hn
    · rw [LinkNo.eq_other_of_ne hj] at hn
      have hn' := (heldSeqNos_suffix (hsuf i.other)).subset hn
      have hne : n ≠ h.seqNo := fun e => hf.not_mem_other hmem (e ▸ hn')
      have := hlow n hn'
      omega
  · exact hf.disjoint n ((heldSeqNos_suffix (hsuf .one)).subset hone)
      ((heldSeqNos_suffix (hsuf .two)).subset htwo)

theorem Streams.head_le (hs : Streams c s) (hh : headHeader c s i = some h) :
    ∀ n ∈ heldSeqNos c s i, h.seqNo ≤ n := by
  have hincr := hs.increasing i
  rw [heldSeqNos_of_headHeader hh] at hincr ⊢
  intro n hn
  rcases mem_cons.mp hn with rfl | hn
  · exact Nat.le_refl _
  · exact Nat.le_of_lt (rel_of_pairwise_cons hincr hn)

/-- Moves keep the buffers fresh when the guard picks the lowest number. -/
theorem Fresh.move (hf : Fresh c s) (hs : Streams c s)
    (hG : ∀ i h, G s i h → headHeader c s i = some h →
      ∀ n ∈ heldSeqNos c s i.other, h.seqNo ≤ n)
    (hmove : Move c G s s') : Fresh c s' := by
  cases hmove with
  | forward hbuf hhead =>
    exact hf.of_suffix (Move.suffix (.forward (G := G) hbuf hhead)) (by simp)
  | discard hbuf hhead hlate =>
    exact hf.of_suffix (Move.suffix (.discard (G := G) hbuf hhead hlate)) (by simp)
  | consume hbuf hhead hguard hok =>
    exact hf.consume hs hbuf hhead
      (hG _ _ hguard ((headHeader_cons hbuf).trans hhead)) hok

theorem LinksGuard.lowest (hg : LinksGuard c s i h) (hf : Fresh c s)
    (hs : Streams c s) : ∀ n ∈ heldSeqNos c s i.other, h.seqNo ≤ n := by
  intro n hn
  rcases hg with heq | ⟨-, h', hh', -, hle⟩
  · rw [heq]
    exact hf.expected i.other n hn
  · exact Nat.le_trans hle (hs.head_le hh' n hn)

theorem TimeoutGuard.lowest (hg : TimeoutGuard c s i h) (hs : Streams c s) :
    ∀ n ∈ heldSeqNos c s i.other, h.seqNo ≤ n := by
  intro n hn
  rcases hg with hnil | ⟨h', hh', hle⟩
  · rw [heldSeqNos, hnil] at hn
    cases hn
  · exact Nat.le_trans hle (hs.head_le hh' n hn)

theorem processLinks_keeps_fresh (hf : Fresh c s) (hs : Streams c s)
    (h : processLinks c s = .ok t) : Fresh c t := by
  refine (moves_inv (P := fun s => Streams c s ∧ Fresh c s) ?_ (processLinks_moves h) ⟨hs, hf⟩).2
  rintro s s' ⟨hs, hf⟩ hmove
  exact ⟨hs.move hmove, hf.move hs (fun i h hg _ => hg.lowest hf hs) hmove⟩

/-- **`process_timeout` keeps the order of fresh buffers.** -/
theorem processTimeout_inOrder (hf : Fresh c s) (hs : Streams c s) (ho : InOrder s) :
    InOrder (final (processTimeout c now s)) := by
  have hG : ∀ s, Fresh c s → ∀ i h, TimeoutGuard c s i h → headHeader c s i = some h →
      s.nextSeqNo ≤ h.seqNo := by
    intro s hf i h _ hh
    refine hf.expected i _ ?_
    rw [heldSeqNos_of_headHeader hh]
    exact mem_cons_self ..
  have hrule := (processTimeout_reaches c now s).rule
    (P := fun s => Streams c s ∧ Fresh c s ∧ InOrder s) (Q := InOrder)
    (fun s _ h hmove => ⟨h.1.move hmove,
      h.2.1.move h.1 (fun i _ hg _ => hg.lowest h.1) hmove, h.2.2.move h.1 (hG s h.2.1) hmove⟩)
    (fun s _ h hfail => h.2.2.fails h.1 (hG s h.2.1) hfail) ⟨hs, hf, ho⟩
  revert hrule
  cases processTimeout c now s with
  | ok t => exact fun h => h.2.2
  | error e => exact id

/-! ## Enough rounds -/

/-- The hybrid-access packets in the two buffers. -/
def haCount (c : RecombinationConf) (s : Recombination) : Nat :=
  (heldSeqNos c s .one).length + (heldSeqNos c s .two).length

theorem haCount_suffix (hsuf : ∀ i, s'.buffer i <:+ s.buffer i) : haCount c s' ≤ haCount c s :=
  Nat.add_le_add (heldSeqNos_suffix (hsuf .one)).length_le (heldSeqNos_suffix (hsuf .two)).length_le

theorem haCount_dequeue (hbuf : t.buffer i = p :: rest)
    (hhead : c.hybridAccess.getHeader p.packet = some h) :
    haCount c (t.dequeue i) + 1 = haCount c t := by
  have hself := congrArg List.length (heldSeqNos_cons hbuf hhead)
  have hother : heldSeqNos c (t.dequeue i) i.other = heldSeqNos c t i.other :=
    heldSeqNos_congr (dequeue_buffer_of_ne t (LinkNo.other_ne i))
  rw [length_cons] at hself
  cases i with
  | one | two =>
    rw [LinkNo.other] at hother
    rw [haCount, haCount, hother]
    omega

theorem haCount_congr (h : s'.buffer = s.buffer) : haCount c s' = haCount c s := by
  rw [haCount, haCount, heldSeqNos_congr (congrFun h .one), heldSeqNos_congr (congrFun h .two)]

theorem fresh_of_haCount_eq_zero (h : haCount c s = 0) : Fresh c s := by
  have hnil : ∀ i, heldSeqNos c s i = [] := by
    rw [haCount, Nat.add_eq_zero_iff] at h
    rintro (_ | _)
    · exact eq_nil_of_length_eq_zero h.1
    · exact eq_nil_of_length_eq_zero h.2
  exact ⟨fun i n hn => by simp [hnil] at hn, fun n hn => by simp [hnil] at hn⟩

/-- The states in which `process_links` has nothing to do: one link is empty, and
the other one is empty too or is ahead of the expected number. -/
def Idle (c : RecombinationConf) (s : Recombination) : Prop :=
  ∃ i, s.buffer i = [] ∧
    (s.buffer i.other = [] ∨ ∃ h, headHeader c s i.other = some h ∧ s.nextSeqNo < h.seqNo)

theorem processLinksLoop_of_empty (n : Nat) (hone : s.buffer .one = []) (htwo : s.buffer .two = []) :
    processLinksLoop c n s = .ok s := by
  cases n with
  | zero => rfl
  | succ n => simp [processLinksLoop, hone, htwo]

/-- Every round but the last takes a hybrid-access packet, so the loop stops in an
idle state unless there is a packet for each of its rounds. -/
theorem processLinksLoop_stops (n : Nat) :
    ∀ s, processLinksLoop c n s = .ok t → Idle c t ∨ haCount c t + n ≤ haCount c s := by
  induction n with
  | zero =>
    rintro s h
    cases h
    exact Or.inr (Nat.le_refl _)
  | succ n ih =>
    intro s h
    rw [processLinksLoop] at h
    split at h
    · rename_i hempty
      cases h
      rw [Bool.and_eq_true, List.isEmpty_iff, List.isEmpty_iff] at hempty
      exact Or.inl ⟨.one, hempty.1, Or.inl hempty.2⟩
    · have hround := processRound_round c s
      revert hround h
      generalize processRound c s = r
      intro h hround
      cases hround with
      | @consume t' i p rest hdr ht hbuf hhead hguard =>
        cases hd : deliver c i p.packet hdr (t'.dequeue i) with
        | error e =>
          rw [hd] at h
          cases h
        | ok s₁ =>
          rw [hd] at h
          -- skipping takes no hybrid-access packet, and the round takes one
          have hle := haCount_suffix (c := c)
            (moves_suffix ((skipped_moves _).trans (moves_of_scanned (LinksGuard c) ht)))
          have hone := haCount_dequeue hbuf hhead
          rw [← haCount_congr (deliver_ok hd).1] at hone
          refine (ih s₁ h).imp_right fun hrest => ?_
          omega
      | @discard t' i p rest hdr ht hbuf hhead hlate =>
        have hle := haCount_suffix (c := c)
            (moves_suffix ((skipped_moves _).trans (moves_of_scanned (LinksGuard c) ht)))
        have hone := haCount_dequeue hbuf hhead
        have hfree : haCount c ((t'.dequeue i).free i p.packet .late) = haCount c (t'.dequeue i) :=
          haCount_congr rfl
        refine (ih _ h).imp_right fun hrest => ?_
        omega
      | drained h₁ h₂ =>
        have h' := h.symm.trans (processLinksLoop_of_empty n h₁ h₂)
        cases h'
        exact Or.inl ⟨.one, h₁, Or.inl h₂⟩
      | wait hempty hhead hahead =>
        cases h
        exact Or.inl ⟨_, hempty, Or.inr ⟨_, hhead, by simpa using hahead⟩⟩

theorem Idle.fresh (h : Idle c s) (hs : Streams c s) : Fresh c s := by
  obtain ⟨i, hempty, hother⟩ := h
  have hnil : heldSeqNos c s i = [] := by
    rw [heldSeqNos, hempty]
    rfl
  refine ⟨fun j n hn => ?_, fun n hone htwo => ?_⟩
  · by_cases hj : j = i
    · rw [hj, hnil] at hn
      cases hn
    · rw [LinkNo.eq_other_of_ne hj] at hn
      rcases hother with hnil' | ⟨h, hhead, hahead⟩
      · rw [heldSeqNos, hnil'] at hn
        cases hn
      · have := hs.head_le hhead n hn
        omega
  · cases i with
    | one =>
      rw [hnil] at hone
      cases hone
    | two =>
      rw [hnil] at htwo
      cases htwo

/-- With a round for every packet, `process_links` leaves no stale packet. -/
theorem processLinks_fresh (hs : Streams c s) (hcount : haCount c s ≤ c.pullNpackets)
    (h : processLinks c s = .ok t) : Fresh c t := by
  rcases processLinksLoop_stops c.pullNpackets s h with hidle | hrounds
  · exact hidle.fresh (hs.moves (processLinks_moves h))
  · exact fresh_of_haCount_eq_zero (by omega)

/-! ## Safe pushes -/

/-- The sequence numbers on link `i` when a push starts: those buffered and those
that wait on the input link. -/
def presentSeqNos (c : RecombinationConf) (s : Recombination) (inp : PushInput) (i : LinkNo) :
    List Nat :=
  seqNos c ((present c s inp i).map TsPacket.packet)

/-- A push that cannot step back. -/
structure OrderSafe (c : RecombinationConf) (s : Recombination) (inp : PushInput) : Prop where
  bounded : ∀ i, ∀ n ∈ presentSeqNos c s inp i, n + 1 < 2 ^ 64
  safe :
    (∀ i, ∀ p ∈ present c s inp i, inp.currentTime < p.timestamp) ∨
    (presentSeqNos c s inp .one).length + (presentSeqNos c s inp .two).length ≤ c.pullNpackets ∨
    (∀ i, ∀ n ∈ presentSeqNos c s inp i, s.nextSeqNo ≤ n) ∧
      ∀ n ∈ presentSeqNos c s inp .one, n ∉ presentSeqNos c s inp .two

theorem heldSeqNos_fetched (c : RecombinationConf) (s : Recombination) (inp : PushInput)
    (i : LinkNo) : heldSeqNos c (fetched c s inp) i = presentSeqNos c s inp i := by
  rw [heldSeqNos, fetched_buffer]
  rfl

/-- `process_timeout` does nothing while nothing is due. -/
theorem processTimeout_of_not_due (h : ∀ i, ∀ p ∈ s.buffer i, now < p.timestamp) :
    processTimeout c now s = .ok s := by
  have hloop : ∀ i n init hdr, timeoutLoop c now i n init hdr s = .ok s := by
    intro i n init hdr
    cases n with
    | zero => rfl
    | succ n =>
      rw [timeoutLoop]
      cases hb : s.buffer i with
      | nil => rfl
      | cons p rest =>
        have hlt := h i p (by rw [hb]; exact mem_cons_self ..)
        exact if_neg (by omega)
  rw [processTimeout, hloop]
  exact hloop _ _ _ _

/-- **A safe push keeps the order**, whether it returns or raises. -/
theorem push_inOrder (hincr : ∀ i, (presentSeqNos c s inp i).Pairwise (· < ·))
    (hsafe : OrderSafe c s inp) (ho : InOrder s) : InOrder (final (push c s inp)) := by
  have hs : Streams c (fetched c s inp) :=
    ⟨fun i => by rw [heldSeqNos_fetched]; exact hincr i,
      fun i n hn => hsafe.bounded i n (by rwa [heldSeqNos_fetched] at hn)⟩
  have ho₁ := processLinks_inOrder hs
    (ho.congr (fetched_consumed c s inp) (fetched_nextSeqNo c s inp))
  cases hl : processLinks c (fetched c s inp) with
  | error e =>
    rw [push_of_links_error hl]
    rwa [hl] at ho₁
  | ok t =>
    rw [push_of_links hl]
    rw [hl] at ho₁
    have hmoves := processLinks_moves hl
    have hfresh : Fresh c t → InOrder (final (processTimeout c inp.currentTime t)) := fun hf =>
      processTimeout_inOrder hf (hs.moves hmoves) ho₁
    rcases hsafe.safe with hdue | hrounds | ⟨hexp, hdisj⟩
    · -- nothing is due
      rw [processTimeout_of_not_due]
      · exact ho₁
      · intro i p hp
        have hmem := (moves_suffix hmoves i).subset hp
        rw [fetched_buffer] at hmem
        exact hdue i p hmem
    · -- there is a round for every packet, so `process_links` drops what is late
      refine hfresh (processLinks_fresh hs ?_ hl)
      rwa [haCount, heldSeqNos_fetched, heldSeqNos_fetched]
    · -- nothing is late to begin with, and nothing becomes late
      refine hfresh (processLinks_keeps_fresh ⟨fun i n hn => ?_, ?_⟩ hs hl)
      · rw [fetched_nextSeqNo]
        rw [heldSeqNos_fetched] at hn
        exact hexp i n hn
      · rw [heldSeqNos_fetched, heldSeqNos_fetched]
        exact hdisj

/-- What waits in front of a push: the buffered numbers and all that arrive from
then on. -/
def pendingSeqNos (c : RecombinationConf) (s : Recombination) (inputs : List PushInput)
    (i : LinkNo) : List Nat :=
  seqNos c ((s.buffer i).map TsPacket.packet ++ received i inputs)

theorem presentSeqNos_sublist_pending (c : RecombinationConf) (s : Recombination)
    (inp : PushInput) (inputs : List PushInput) (i : LinkNo) :
    (presentSeqNos c s inp i).Sublist (pendingSeqNos c s (inp :: inputs) i) := by
  refine seqNos_sublist ?_
  rw [received_cons, ← append_assoc]
  exact (map_packet_present_isPrefix c s inp i).sublist.trans (sublist_append_left _ _)

theorem pendingSeqNos_push (inputs : List PushInput) (h : push c s inp = .ok s') (i : LinkNo) :
    (pendingSeqNos c s' inputs i).Sublist (pendingSeqNos c s (inp :: inputs) i) := by
  refine seqNos_sublist ?_
  have hsub := ((push_buffer_suffix h i).sublist.map TsPacket.packet).trans
    (map_packet_present_isPrefix c s inp i).sublist
  rw [received_cons, ← append_assoc]
  exact hsub.append (List.Sublist.refl _)

/-- **In-order delivery**: in every run of safe pushes over links with increasing
numbers, the consumed numbers increase and the expected number is the successor of
the last of them, up to and including a push that raises. -/
theorem consumed_in_order (c : RecombinationConf) (inputs : List PushInput)
    (hincr : ∀ i, (seqNos c (received i inputs)).Pairwise (· < ·))
    (hsafe : Along (push c) (OrderSafe c) .new inputs) :
    InOrder (final (run (push c) .new inputs)) := by
  have hends := run_ends (Q := fun e => InOrder e.2)
    (I := fun s is => InOrder s ∧ ∀ i, (pendingSeqNos c s is i).Pairwise (· < ·))
    ?_ ?_ ⟨InOrder.new, hincr⟩ hsafe
  · revert hends
    cases run (push c) .new inputs with
    | ok s => exact And.left
    | error e => exact id
  · rintro s inp is s' ⟨ho, hpend⟩ hP hpush
    refine ⟨?_, fun i => (hpend i).sublist (pendingSeqNos_push is hpush i)⟩
    have hfinal := push_inOrder
      (fun i => (hpend i).sublist (presentSeqNos_sublist_pending c s inp is i)) hP ho
    rwa [hpush] at hfinal
  · rintro s inp is e ⟨ho, hpend⟩ hP hpush
    have hfinal := push_inOrder
      (fun i => (hpend i).sublist (presentSeqNos_sublist_pending c s inp is i)) hP ho
    rwa [hpush] at hfinal

/-- Three packets that arrive interleaved are consumed in order. -/
theorem consumed_in_order_interleaved :
    InOrder (final (run (push ⟨.eth, fun _ => 0, 204⟩) .new
      [.finding 1 [haFrame 0 0, haFrame 1 2] [haFrame 2 1]])) ∧
    (final (run (push ⟨.eth, fun _ => 0, 204⟩) .new
      [.finding 1 [haFrame 0 0, haFrame 1 2] [haFrame 2 1]])).consumed = [0, 1, 2] := by
  refine ⟨consumed_in_order _ _ ?_ ⟨⟨?_, Or.inr (Or.inl (by decide +kernel))⟩, ?_⟩,
    by decide +kernel⟩
  · rintro (_ | _) <;> decide +kernel
  · rintro (_ | _) <;> decide +kernel
  · exact fun _ _ => trivial

/-- `process_timeout` steps back: after number 10 the two stale packets of link 1
exceed the one round of `process_links`, and number 2 is delivered. -/
theorem timeout_delivers_stale_packet :
    (∀ i, (seqNos ⟨.eth, fun _ => 0, 1⟩ (received i
      [.finding 0 [] [haFrame 0 10], .finding 1 [haFrame 1 1, haFrame 2 2] []])).Pairwise (· < ·)) ∧
    ∃ s, run (push ⟨.eth, fun _ => 0, 1⟩) .new
        [.finding 0 [] [haFrame 0 10], .finding 1 [haFrame 1 1, haFrame 2 2] []] = .ok s ∧
      s.consumed = [10, 2] ∧ ¬ s.consumed.Pairwise (· < ·) := by
  refine ⟨?_, ?_⟩
  · rintro (_ | _) <;> decide +kernel
  · refine exists_ok_of_any (fun s => s.consumed = [10, 2])
      (by decide +kernel) fun s hs hcons => ?_
    exact ⟨hcons, by rw [hcons]; decide⟩

end Recombination

end Snabb
