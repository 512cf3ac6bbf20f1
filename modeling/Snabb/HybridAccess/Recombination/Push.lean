import Snabb.HybridAccess.Recombination.Moves

/-!
# A push and a run of pushes

`push` is `fetch_links`, then moves under the guard of `process_links`, then
moves under the guard of `process_timeout` (`push_eq_ok`). What
`fetch_links` does is said once: it appends as many of the waiting packets as fit to
the buffer of their link, all with the same time stamp, and frees the rest
(`fetched_eq`).
-/

namespace Snabb

open List

namespace Recombination

open Foundation Relation

variable {c : RecombinationConf} {s s' : Recombination} {inp : PushInput} {i j : LinkNo}

/-! ## `fetch_links` -/

theorem foldl_free (i : LinkNo) (pkts : List Packet) (s : Recombination) :
    pkts.foldl (fun s pkt => s.free i pkt .bufferFull) s =
      { s with freed := s.freed ++ pkts.map fun pkt => (i, pkt, .bufferFull) } := by
  induction pkts generalizing s with
  | nil => simp
  | cons pkt pkts ih =>
    rw [foldl_cons, ih]
    simp [free]

/-- How many packets a receive buffer can still take. -/
def room (buf : List TsPacket) : Nat := receiveBufferSize - 1 - buf.length

theorem enqueueTs_eq (buf : List TsPacket) (pkt : Packet) (ts : Nat) :
    enqueueTs buf pkt ts = if room buf = 0 then none else some (buf ++ [⟨pkt, ts⟩]) := by
  rw [enqueueTs, room]
  by_cases h : receiveBufferSize ≤ buf.length + 1
  · rw [if_pos h, if_pos (by omega)]
  · rw [if_neg h, if_neg (by omega)]

/-- One link of `fetch_links`: as many packets as fit are buffered, the rest is
freed. -/
theorem fetchLink_eq (i : LinkNo) (ts : Nat) (pkts : List Packet) (s : Recombination) :
    fetchLink i ts pkts s =
      { s with
        buffer := Function.update s.buffer i
          (s.buffer i ++ (pkts.take (room (s.buffer i))).map fun pkt => ⟨pkt, ts⟩)
        freed := s.freed ++
          (pkts.drop (room (s.buffer i))).map fun pkt => (i, pkt, .bufferFull) } := by
  induction pkts generalizing s with
  | nil => simp [fetchLink]
  | cons pkt rest ih =>
    rw [fetchLink, enqueueTs_eq]
    by_cases hroom : room (s.buffer i) = 0
    · rw [hroom]
      rw [foldl_free]
      simp
    · have hone : room (s.buffer i) = room (s.buffer i ++ [⟨pkt, ts⟩]) + 1 := by
        simp only [room, List.length_append, length_singleton] at hroom ⊢
        omega
      rw [if_neg hroom]
      show fetchLink i ts rest _ = _
      rw [ih, hone]
      simp

/-- The state in which `push` enters `process_links`. -/
def fetched (c : RecombinationConf) (s : Recombination) (inp : PushInput) : Recombination :=
  fetchLinks c inp.currentTime inp.input { s with output := s.output.drain inp.taken }

/-- The buffer of link `i` once the waiting packets have been fetched. -/
def present (c : RecombinationConf) (s : Recombination) (inp : PushInput) (i : LinkNo) :
    List TsPacket :=
  s.buffer i ++ ((inp.input i).packets.take (room (s.buffer i))).map fun pkt =>
    ⟨pkt, timeout c inp.currentTime i⟩

/-- The waiting packets of link `i` that find no room. -/
def overflow (s : Recombination) (inp : PushInput) (i : LinkNo) : List Packet :=
  (inp.input i).packets.drop (room (s.buffer i))

section

variable (c : RecombinationConf) (s : Recombination) (inp : PushInput)

theorem fetched_eq :
    fetched c s inp =
      { s with
        buffer := present c s inp
        output := s.output.drain inp.taken
        freed := s.freed ++ (overflow s inp .one).map (fun pkt => (.one, pkt, .bufferFull)) ++
          (overflow s inp .two).map (fun pkt => (.two, pkt, .bufferFull)) } := by
  rw [fetched, fetchLinks, fetchLink_eq, fetchLink_eq]
  simp only [Recombination.mk.injEq, true_and]
  refine ⟨?_, ?_⟩
  · funext i
    cases i <;> simp [present]
  · simp [overflow]

@[simp] theorem fetched_buffer (i : LinkNo) : (fetched c s inp).buffer i = present c s inp i := by
  rw [fetched_eq]

@[simp] theorem fetched_nextSeqNo : (fetched c s inp).nextSeqNo = s.nextSeqNo := by
  rw [fetched_eq]

@[simp] theorem fetched_consumed : (fetched c s inp).consumed = s.consumed := by
  rw [fetched_eq]

end

/-- What is buffered after `fetch_links` was buffered before or has just arrived. -/
theorem mem_present {p : TsPacket} (h : p ∈ present c s inp i) :
    p ∈ s.buffer i ∨ p.packet ∈ (inp.input i).packets ∧ p.timestamp = timeout c inp.currentTime i := by
  rcases mem_append.mp h with hold | hnew
  · exact Or.inl hold
  · obtain ⟨pkt, hpkt, rfl⟩ := mem_map.mp hnew
    exact Or.inr ⟨mem_of_mem_take hpkt, rfl⟩

theorem map_packet_present_isPrefix (c : RecombinationConf) (s : Recombination) (inp : PushInput)
    (i : LinkNo) : (present c s inp i).map TsPacket.packet <+:
      (s.buffer i).map TsPacket.packet ++ (inp.input i).packets := by
  rw [present, map_append, List.map_map,
    show TsPacket.packet ∘ (fun pkt => ⟨pkt, timeout c inp.currentTime i⟩) = id from rfl,
    List.map_id]
  exact (prefix_append_right_inj _).mpr (List.take_prefix _ _)

/-! ## `push` -/

theorem push_eq_ok (h : push c s inp = .ok s') :
    ∃ t, processLinks c (fetched c s inp) = .ok t ∧
      processTimeout c inp.currentTime t = .ok s' := by
  simp only [push] at h
  cases hl : processLinks c (fetched c s inp) with
  | error e =>
    rw [fetched] at hl
    rw [hl] at h
    cases h
  | ok t =>
    rw [fetched] at hl
    rw [hl] at h
    exact ⟨t, rfl, h⟩

variable {t : Recombination}

theorem push_of_links (h : processLinks c (fetched c s inp) = .ok t) :
    push c s inp = processTimeout c inp.currentTime t := by
  rw [fetched] at h
  simp only [push, h]

theorem processLinks_moves (h : processLinks c s = .ok t) :
    ReflTransGen (Move c (LinksGuard c)) s t := by
  have hreach := processLinks_reaches c s
  rwa [h] at hreach

variable {G : Recombination → LinkNo → HaHeader → Prop}

theorem Move.weaken (h : Move c G s s') : Move c (fun _ _ _ => True) s s' := by
  cases h with
  | forward hbuf hhead => exact .forward hbuf hhead
  | discard hbuf hhead hlate => exact .discard hbuf hhead hlate
  | consume hbuf hhead _ hok => exact .consume hbuf hhead trivial hok

theorem push_moves (h : push c s inp = .ok s') :
    ReflTransGen (Move c fun _ _ _ => True) (fetched c s inp) s' := by
  obtain ⟨t, hlinks, htimeout⟩ := push_eq_ok h
  refine ReflTransGen.trans (b := t) ?_ ?_
  · exact ReflTransGen.mono (fun _ _ => Move.weaken) _ _ (processLinks_moves hlinks)
  · have hreach := processTimeout_reaches c inp.currentTime t
    rw [htimeout] at hreach
    exact ReflTransGen.mono (fun _ _ => Move.weaken) _ _ hreach

theorem moves_inv {P : Recombination → Prop}
    (hmove : ∀ s s', P s → Move c G s s' → P s') (h : ReflTransGen (Move c G) s s') (hs : P s) :
    P s' := by
  induction h with
  | refl => exact hs
  | tail _ hstep ih => exact hmove _ _ ih hstep

/-- A result that returns a state with `P`, or raises in a state with `Q`. -/
def Ends (P Q : Recombination → Prop) : RecResult Recombination → Prop
  | .ok s => P s
  | .error (_, s) => Q s

/-- Rule for results that may be raises: what every move preserves, and what the
last incomplete move makes of it. -/
theorem Reaches.rule {T : TsPacket → Prop}
    {P Q : Recombination → Prop} {r : RecResult Recombination} (h : Reaches c G T s r)
    (hmove : ∀ s s', P s → Move c G s s' → P s') (hfail : ∀ s s', P s → Fails c G T s s' → Q s')
    (hs : P s) : Ends P Q r := by
  cases r with
  | ok s' => exact moves_inv hmove h hs
  | error e =>
    obtain ⟨t, ht, hlast⟩ := h
    exact hfail t e.2 (moves_inv hmove ht hs) hlast

/-- The state a function of the recombination leaves behind, whether it returns
or raises. -/
def final : RecResult Recombination → Recombination
  | .ok s => s
  | .error (_, s) => s

/-- A push that does not get past `process_links` ends with its raise. -/
theorem push_of_links_error {e : Raise × Recombination}
    (h : processLinks c (fetched c s inp) = .error e) : push c s inp = .error e := by
  rw [fetched] at h
  simp only [push, h]

theorem received_cons (inp : PushInput) (inputs : List PushInput) (i : LinkNo) :
    received i (inp :: inputs) = (inp.input i).packets ++ received i inputs := rfl

/-- What is buffered after a push was buffered before it or has just arrived. -/
theorem push_buffer_suffix (h : push c s inp = .ok s') (i : LinkNo) :
    s'.buffer i <:+ present c s inp i := by
  rw [← fetched_buffer]
  exact moves_suffix (push_moves h) i

end Recombination

end Snabb
