import Snabb.HybridAccess.Recombination.Order

/-!
# Pushes that return

`process_timeout` reads the header of the packet it releases without asking
whether there is one: a due ordinary frame at the head of a buffer makes `push`
raise. `process_links` and the read of the other link forward ordinary frames
where they find them, so the question is which of them can still stand behind a
hybrid-access packet, or in front of link 2, when `process_timeout` starts.

`ReturnSafe` lists the pushes in which none of them is due:

- no ordinary frame is due at all; or
- the due ones stand in front of link 1, which the first round of `process_links`
  forwards; or
- `process_links` has enough rounds to stop in an idle state, and no due ordinary
  frame stands behind a packet that it waits at (`Ahead`).

In IP mode a frame can moreover be too short for the headers that it is taken to
have, and then decapsulation raises.
-/

namespace Snabb

open List

namespace Recombination

open Foundation Relation

variable {c : RecombinationConf} {s s' t : Recombination} {inp : PushInput} {i : LinkNo}
  {G : Recombination → LinkNo → HaHeader → Prop} {now : Nat}

/-! ## What can raise -/

/-- A data packet that is long enough to lose its headers. -/
def Decapsulable (c : RecombinationConf) (p : Packet) : Prop :=
  ∀ h, c.hybridAccess.getHeader p = some h → h.type = hybridAccessType →
    c.hybridAccess.shiftLength ≤ p.length

theorem deliver_isOk {p : Packet} {h : HaHeader}
    (hp : h.type = hybridAccessType → c.hybridAccess.shiftLength ≤ p.length) :
    ∃ s', deliver c i p h s = .ok s' := by
  by_cases ht : h.type = hybridAccessType
  · obtain ⟨q, hq⟩ := Codec.removeHeader_isOk c.hybridAccess p h.bufType (hp ht)
    simp only [deliver, if_pos ht, hq]
    exact ⟨_, rfl⟩
  · simp only [deliver, if_neg ht]
    exact ⟨_, rfl⟩

variable {T : TsPacket → Prop}

theorem exists_ordinary_of_fails (h : Fails c G T s s')
    (hdec : ∀ i, ∀ p ∈ s.buffer i, Decapsulable c p.packet) :
    ∃ i, ∃ p ∈ s.buffer i, ordinary c p = true ∧ T p := by
  cases h with
  | @ordinary i p rest hbuf hhead hT hs' =>
    refine ⟨i, p, ?_, by simp [ordinary, hhead], hT⟩
    rw [hbuf]
    exact mem_cons_self ..
  | @consume i p rest h e hbuf hhead hguard herr =>
    have hmem : p ∈ s.buffer i := by
      rw [hbuf]
      exact mem_cons_self ..
    obtain ⟨t, ht⟩ := deliver_isOk (c := c) (s := s.dequeue i) (i := i) (hdec i p hmem h hhead)
    rw [ht] at herr
    cases herr

/-- A result that is reached by moves returns when no packet it can meet fails. -/
theorem Reaches.isOk {r : RecResult Recombination} (h : Reaches c G T s r)
    (hdec : ∀ i, ∀ p ∈ s.buffer i, Decapsulable c p.packet)
    (hT : ∀ i, ∀ p ∈ s.buffer i, ordinary c p = true → ¬ T p) : ∃ s', r = .ok s' := by
  cases r with
  | ok s' => exact ⟨s', rfl⟩
  | error e =>
    obtain ⟨t, hmoves, hfail⟩ := h
    have hsub : ∀ i, ∀ p ∈ t.buffer i, p ∈ s.buffer i := fun i p hp =>
      (moves_suffix hmoves i).subset hp
    obtain ⟨i, p, hp, ho, hTp⟩ := exists_ordinary_of_fails hfail fun i p hp => hdec i p (hsub i p hp)
    exact absurd hTp (hT i p (hsub i p hp) ho)

/-- No ordinary frame of the list is due. -/
def NoneDue (c : RecombinationConf) (now : Nat) (buf : List TsPacket) : Prop :=
  ∀ p ∈ buf, ordinary c p = true → now < p.timestamp

section

variable (hdec : ∀ i, ∀ p ∈ s.buffer i, Decapsulable c p.packet)
include hdec

theorem processLinks_isOk : ∃ t, processLinks c s = .ok t :=
  (processLinks_reaches c s).isOk hdec fun _ _ _ _ => id

theorem processTimeout_isOk
    (hdue : ∀ i, NoneDue c now (s.buffer i)) : ∃ s', processTimeout c now s = .ok s' :=
  (processTimeout_reaches c now s).isOk hdec fun i p hp ho => Nat.not_le.mpr (hdue i p hp ho)

end

/-! ## What `process_links` leaves behind -/

theorem processLinks_skips (hpull : 0 < c.pullNpackets) (h : processLinks c s = .ok t) :
    t.buffer .one <:+ (s.buffer .one).dropWhile (ordinary c) := by
  obtain ⟨n, hn⟩ := Nat.exists_eq_succ_of_ne_zero (Nat.pos_iff_ne_zero.mp hpull)
  rw [processLinks, hn, processLinksLoop] at h
  split at h
  · rename_i hempty
    cases h
    rw [Bool.and_eq_true, List.isEmpty_iff] at hempty
    rw [hempty.1]
    exact suffix_refl _
  · have hround := (processRound_round c s).reaches_from_skipped
    rw [← skipped_buffer_self]
    revert hround h
    cases processRound c s with
    | error e => rintro ⟨⟩
    | ok r =>
      obtain ⟨s₁, brk⟩ := r
      intro h hround
      have hfirst := moves_suffix hround .one
      cases brk with
      | true =>
        cases h
        exact hfirst
      | false =>
        have hrest := processLinksLoop_reaches (c := c) n s₁
        rw [show processLinksLoop c n s₁ = .ok t from h] at hrest
        exact (moves_suffix hrest .one).trans hfirst

/-- What has been taken from the buffers of `s` on the way to `t` is below the
number that `t` expects. -/
structure Passed (c : RecombinationConf) (s t : Recombination) : Prop where
  next_le : s.nextSeqNo ≤ t.nextSeqNo
  taken : ∀ i, ∃ buf, s.buffer i = buf ++ t.buffer i ∧
    ∀ n ∈ seqNos c (buf.map TsPacket.packet), n < t.nextSeqNo

theorem Passed.refl (c : RecombinationConf) (s : Recombination) : Passed c s s :=
  ⟨Nat.le_refl _, fun _ => ⟨[], rfl, nofun⟩⟩

theorem Passed.step {p : TsPacket} {rest : List TsPacket} (h : Passed c s t)
    (hbuf : t.buffer i = p :: rest) (hbuf' : s'.buffer = (t.dequeue i).buffer)
    (hnext : t.nextSeqNo ≤ s'.nextSeqNo) (hp : ∀ n ∈ seqNos c [p.packet], n < s'.nextSeqNo) :
    Passed c s s' := by
  refine ⟨Nat.le_trans h.next_le hnext, fun j => ?_⟩
  obtain ⟨buf, heq, hlt⟩ := h.taken j
  by_cases hj : j = i
  · subst hj
    refine ⟨buf ++ [p], ?_, fun n hn => ?_⟩
    · rw [heq, hbuf', dequeue_buffer_self, hbuf, append_assoc]
      rfl
    · rw [map_append, seqNos_append] at hn
      rcases mem_append.mp hn with hn | hn
      · exact Nat.lt_of_lt_of_le (hlt n hn) hnext
      · exact hp n hn
  · refine ⟨buf, ?_, fun n hn => Nat.lt_of_lt_of_le (hlt n hn) hnext⟩
    rw [heq, hbuf', dequeue_buffer_of_ne t hj]

theorem seqNos_singleton {p : Packet} {h : HaHeader} (hhead : c.hybridAccess.getHeader p = some h) :
    seqNos c [p] = [h.seqNo] := by
  simp [seqNos, hhead]

/-- **`process_links` passes everything it takes.** -/
theorem processLinks_passed
    (hbound : ∀ i, ∀ n ∈ heldSeqNos c s i, n + 1 < 2 ^ 64) (h : processLinks c s = .ok t) :
    Passed c s t := by
  refine (moves_inv (P := fun t => (∀ i, t.buffer i <:+ s.buffer i) ∧ Passed c s t) ?_
    (processLinks_moves h) ⟨fun _ => suffix_refl _, .refl c s⟩).2
  rintro t t' ⟨hsuf, hpass⟩ hmove
  refine ⟨fun i => (hmove.suffix i).trans (hsuf i), ?_⟩
  cases hmove with
  | forward hbuf hhead =>
    exact hpass.step hbuf (by simp) (by simp) (by simp [seqNos, hhead])
  | discard hbuf hhead hlate =>
    refine hpass.step hbuf (by simp) (by simp) ?_
    rw [seqNos_singleton hhead]
    simpa using hlate
  | @consume _ i p rest h hbuf hhead hguard hok =>
    obtain ⟨hbuf', hnext, -⟩ := deliver_ok hok
    have hmem : h.seqNo ∈ heldSeqNos c t i := by
      rw [heldSeqNos_cons hbuf hhead]
      exact mem_cons_self ..
    rw [Nat.mod_eq_of_lt (hbound i _ ((heldSeqNos_suffix (hsuf i)).subset hmem))] at hnext
    have hle : t.nextSeqNo ≤ h.seqNo := by
      rcases hguard with heq | ⟨hlt, -⟩ <;> omega
    refine hpass.step hbuf hbuf' (by omega) ?_
    rw [seqNos_singleton hhead]
    simp only [mem_singleton]
    omega

/-! ## Safe pushes -/

/-- A packet of link `i`, behind the packets `pre` of its buffer, that
`process_links` waits at: its number is ahead of the expected one and leaves a
gap to all the numbers in front of it and on the other link. -/
def Ahead (c : RecombinationConf) (s : Recombination) (inp : PushInput) (i : LinkNo)
    (pre : List TsPacket) (h : HaHeader) : Prop :=
  s.nextSeqNo < h.seqNo ∧ (∀ n ∈ seqNos c (pre.map TsPacket.packet), n + 1 < h.seqNo) ∧
    ∀ n ∈ presentSeqNos c s inp i.other, n + 1 < h.seqNo

/-- A push that cannot meet a due ordinary frame in `process_timeout`. -/
structure ReturnSafe (c : RecombinationConf) (s : Recombination) (inp : PushInput) : Prop where
  decapsulable : ∀ conf, c.hybridAccess = .ip conf →
    ∀ i, ∀ p ∈ present c s inp i, Decapsulable c p.packet
  safe :
    (∀ i, NoneDue c inp.currentTime (present c s inp i)) ∨
    (0 < c.pullNpackets ∧
      NoneDue c inp.currentTime ((present c s inp .one).dropWhile (ordinary c)) ∧
      NoneDue c inp.currentTime (present c s inp .two)) ∨
    ((presentSeqNos c s inp .one).length + (presentSeqNos c s inp .two).length < c.pullNpackets ∧
      (∀ i, ∀ n ∈ presentSeqNos c s inp i, n + 1 < 2 ^ 64) ∧
      ∀ i pre p post h, present c s inp i = pre ++ p :: post →
        c.hybridAccess.getHeader p.packet = some h → Ahead c s inp i pre h →
        NoneDue c inp.currentTime post)

/-- With rounds to spare `process_links` stops at a packet that is ahead. -/
theorem noneDue_of_idle (h : processLinks c (fetched c s inp) = .ok t) (hidle : Idle c t)
    (hbound : ∀ i, ∀ n ∈ presentSeqNos c s inp i, n + 1 < 2 ^ 64)
    (hahead : ∀ i pre p post h, present c s inp i = pre ++ p :: post →
      c.hybridAccess.getHeader p.packet = some h → Ahead c s inp i pre h → NoneDue c now post) :
    ∀ i, NoneDue c now (t.buffer i) := by
  have hpass : Passed c (fetched c s inp) t := by
    refine processLinks_passed (fun i n hn => ?_) h
    rw [heldSeqNos_fetched] at hn
    exact hbound i n hn
  have hnext : s.nextSeqNo ≤ t.nextSeqNo := by
    rw [← fetched_nextSeqNo c s inp]
    exact hpass.next_le
  obtain ⟨i, hempty, hother⟩ := hidle
  intro j
  by_cases hj : j = i
  · rw [hj, hempty]
    exact nofun
  · rw [LinkNo.eq_other_of_ne hj]
    rcases hother with hnil | ⟨h, hhead, hlt⟩
    · rw [hnil]
      exact nofun
    · obtain ⟨p, rest, hbuf, hp⟩ := headHeader_eq_some hhead
      obtain ⟨pre, hpre, hpre_lt⟩ := hpass.taken i.other
      obtain ⟨all, hall, hall_lt⟩ := hpass.taken i
      rw [fetched_buffer, hbuf] at hpre
      rw [fetched_buffer, hempty, append_nil] at hall
      -- what was taken is below the expected number, so the head `p` leaves a gap to it
      have hrest : NoneDue c now rest := by
        refine hahead i.other pre p rest h hpre hp ⟨by omega, fun n hn => ?_, fun n hn => ?_⟩
        · have := hpre_lt n hn
          omega
        · rw [LinkNo.other_other, presentSeqNos, hall] at hn
          have := hall_lt n hn
          omega
      rw [hbuf]
      intro q hq ho
      rcases mem_cons.mp hq with rfl | hq
      · simp [ordinary, hp] at ho
      · exact hrest q hq ho

/-- **A safe push returns.** -/
theorem push_isOk (hlen : ∀ i, ∀ p ∈ present c s inp i, etherHeaderLen + haHeaderLen ≤ p.packet.length)
    (hsafe : ReturnSafe c s inp) : ∃ s', push c s inp = .ok s' := by
  have hdec : ∀ i, ∀ p ∈ (fetched c s inp).buffer i, Decapsulable c p.packet := by
    intro i p hp
    rw [fetched_buffer] at hp
    cases hc : c.hybridAccess with
    | ip conf => exact hsafe.decapsulable conf hc i p hp
    | eth =>
      -- in ETH mode 26 bytes are enough
      intro h _ _
      have := hlen i p hp
      rw [hc, Codec.shiftLength]
      omega
  obtain ⟨t, hlinks⟩ := processLinks_isOk hdec
  have hsuf := moves_suffix (processLinks_moves hlinks)
  rw [push_of_links hlinks]
  refine processTimeout_isOk (fun i p hp => hdec i p ((hsuf i).subset hp)) ?_
  simp only [fetched_buffer] at hsuf
  rcases hsafe.safe with hnone | ⟨hpull, hone, htwo⟩ | ⟨hrounds, hbound, hahead⟩
  · exact fun i p hp => hnone i p ((hsuf i).subset hp)
  · rintro (_ | _)
    · have hskip := processLinks_skips hpull hlinks
      rw [fetched_buffer] at hskip
      exact fun p hp => hone p (hskip.subset hp)
    · exact fun p hp => htwo p ((hsuf .two).subset hp)
  · refine noneDue_of_idle hlinks ?_ hbound hahead
    rcases processLinksLoop_stops c.pullNpackets (fetched c s inp) hlinks with hidle | hused
    · exact hidle
    · rw [haCount, haCount, heldSeqNos_fetched, heldSeqNos_fetched] at hused
      omega

/-- Every frame, buffered or still to come, is long enough for an Ethernet and a
hybrid-access header. -/
def LongFrames (s : Recombination) (inputs : List PushInput) : Prop :=
  (∀ i, ∀ p ∈ s.buffer i, etherHeaderLen + haHeaderLen ≤ p.packet.length) ∧
    ∀ inp ∈ inputs, ∀ i, ∀ p ∈ (inp.input i).packets, etherHeaderLen + haHeaderLen ≤ p.length

theorem LongFrames.push {is : List PushInput} (h : LongFrames s (inp :: is))
    (hsafe : ReturnSafe c s inp) : ∃ s', Recombination.push c s inp = .ok s' ∧ LongFrames s' is := by
  obtain ⟨hbuf, hin⟩ := h
  have hpres : ∀ i, ∀ p ∈ present c s inp i, etherHeaderLen + haHeaderLen ≤ p.packet.length := by
    intro i p hp
    rcases mem_present hp with hold | ⟨hnew, -⟩
    · exact hbuf i p hold
    · exact hin inp (mem_cons_self ..) i p.packet hnew
  obtain ⟨s', hs'⟩ := push_isOk hpres hsafe
  refine ⟨s', hs', fun i p hp => hpres i p ((push_buffer_suffix hs' i).subset hp), ?_⟩
  exact fun inp' hinp' => hin inp' (mem_cons_of_mem _ hinp')

/-- **Runs return**: every run of safe pushes over frames that are long enough for
an Ethernet and a hybrid-access header runs to completion. -/
theorem push_returns (c : RecombinationConf) (inputs : List PushInput)
    (hlen : ∀ inp ∈ inputs, ∀ i, ∀ p ∈ (inp.input i).packets, etherHeaderLen + haHeaderLen ≤ p.length)
    (hsafe : Along (push c) (ReturnSafe c) .new inputs) :
    ∃ s, run (push c) .new inputs = .ok s := by
  have hinit : LongFrames .new inputs := ⟨nofun, hlen⟩
  obtain ⟨s, hs, -⟩ := run_total (I := LongFrames) (fun _ _ _ => LongFrames.push) hinit hsafe
  exact ⟨s, hs⟩

/-- A due ordinary frame in front of link 1 is forwarded and the push returns. -/
theorem push_returns_leading_frame :
    ∃ s, run (push ⟨.eth, fun _ => 0, 204⟩) .new
      [.finding 3 [ordinaryFrame 0, haFrame 1 0] [haFrame 2 1]] = .ok s := by
  refine push_returns _ _ ?_ ⟨⟨nofun, Or.inr (Or.inl ⟨by decide, ?_, ?_⟩)⟩, fun _ _ => trivial⟩
  · simp only [mem_singleton, forall_eq]
    rintro (_ | _) <;> decide +kernel
  · unfold NoneDue
    decide +kernel
  · unfold NoneDue
    decide +kernel

/-- An ordinary frame behind a packet that waits: when both are due, the second
push indexes `nil`. -/
theorem due_ordinary_frame_raises :
    ∃ s, run (push ⟨.eth, fun _ => 5, 204⟩) .new
      [.finding 0 [haFrame 0 5, ordinaryFrame 1] [], .finding 5 [] []] =
        .error (.indexNil "ha_header", s) := by
  obtain ⟨⟨e, s⟩, hrun, hcheck⟩ := error_of_any (q := fun e => e.1 = .indexNil "ha_header")
    (by decide +kernel : (raised (run (push ⟨.eth, fun _ => 5, 204⟩) .new
      [.finding 0 [haFrame 0 5, ordinaryFrame 1] [], .finding 5 [] []])).any _ = true)
  have he : e = .indexNil "ha_header" := of_decide_eq_true hcheck
  exact ⟨s, by rw [hrun, he]⟩

end Recombination

end Snabb
