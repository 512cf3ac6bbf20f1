import Snabb.HybridAccess.Recombination.Safety

/-!
# Room on the output link

The recombination hands packets to `link.transmit` without looking at the output
link, and a full link frees them. `pull_npackets` bounds the rounds of
`process_links`, but neither the ordinary frames forwarded in a round nor what
`process_timeout` releases.

A push that starts with an empty output link loses nothing when everything that
could be delivered fits (`move_accepts`: what is queued plus what may still be
queued never grows), or when nothing is due and the ordinary frames leave room for
one packet per round (`processLinksLoop_accepts`).
-/

namespace Snabb

open List

namespace Recombination

open Foundation Relation

variable {c : RecombinationConf} {s s' t : Recombination} {inp : PushInput} {i : LinkNo}
  {G : Recombination → LinkNo → HaHeader → Prop}

/-- The packets that the output link had no room for. -/
def txdrops (s : Recombination) : List (LinkNo × Packet × FreeReason) :=
  s.freed.filter fun e => e.2.2 = .txdrop

/-- Whether the recombination would hand a buffered packet to the output link: it
is an ordinary frame or a data packet. -/
def deliverable (c : RecombinationConf) (p : TsPacket) : Bool :=
  (c.hybridAccess.getHeader p.packet).all fun h => h.type = hybridAccessType

/-- The buffered packets that satisfy `q`. -/
def countHeld (q : TsPacket → Bool) (s : Recombination) : Nat :=
  (s.buffer .one).countP q + (s.buffer .two).countP q

variable {q : TsPacket → Bool} {rest : List TsPacket} {h : HaHeader}
  {drops : List (LinkNo × Packet × FreeReason)} {n : Nat}

theorem countHeld_congr (h : s'.buffer = s.buffer) : countHeld q s' = countHeld q s := by
  rw [countHeld, h, countHeld]

theorem countHeld_dequeue {p : TsPacket} (hbuf : s.buffer i = p :: rest) :
    countHeld q (s.dequeue i) + (if q p then 1 else 0) = countHeld q s := by
  cases i with
  | one =>
    have hother := dequeue_buffer_of_ne s (by decide : LinkNo.two ≠ .one)
    rw [countHeld, countHeld, hother, dequeue_buffer_self, hbuf, tail_cons, countP_cons]
    omega
  | two =>
    have hother := dequeue_buffer_of_ne s (by decide : LinkNo.one ≠ .two)
    rw [countHeld, countHeld, hother, dequeue_buffer_self, hbuf, tail_cons, countP_cons]
    omega

/-! ## Effects on the output link -/

theorem transmit_of_room (i : LinkNo) (p : Packet) (h : s.output.nreadable < linkMaxPackets) :
    (s.transmit i p).txdrops = s.txdrops ∧
      (s.transmit i p).output.nreadable = s.output.nreadable + 1 := by
  have hroom : ¬ s.output.full := Nat.ne_of_lt h
  rw [transmit, if_neg hroom]
  refine ⟨rfl, ?_⟩
  show (s.output.transmit p).packets.length = _
  rw [Link.packets_transmit hroom, List.length_append]
  rfl

variable {p : Packet}

theorem txdrops_free {r : FreeReason} (hr : r ≠ .txdrop) : (s.free i p r).txdrops = s.txdrops := by
  simp [txdrops, free, hr]

/-- With room on the output link, `deliver` drops nothing and adds at most the
packet it was given. -/
theorem deliver_of_room (hok : deliver c i p h s = .ok s')
    (hroom : h.type = hybridAccessType → s.output.nreadable < linkMaxPackets) :
    s'.txdrops = s.txdrops ∧ s'.output.nreadable =
      s.output.nreadable + if h.type = hybridAccessType then 1 else 0 := by
  simp only [deliver] at hok
  split at hok
  · rename_i ht
    rw [if_pos ht]
    split at hok
    · cases hok
      exact transmit_of_room i _ (hroom ht)
    · cases hok
  · rename_i ht
    rw [if_neg ht]
    cases hok
    exact ⟨txdrops_free (by decide), rfl⟩

theorem deliver_error_txdrops {e : Raise}
    (herr : deliver c i p h s = .error (e, s')) : s'.txdrops = s.txdrops := by
  simp only [deliver] at herr
  split at herr
  · split at herr
    · cases herr
    · cases herr
      rfl
  · cases herr

variable {T : TsPacket → Prop}

theorem fails_txdrops (h : Fails c G T s s') : s'.txdrops = s.txdrops := by
  cases h with
  | ordinary hbuf hhead hT hs' =>
    rcases hs' with rfl | rfl
    · rfl
    · rfl
  | consume hbuf hhead hguard herr => exact (deliver_error_txdrops herr).trans rfl

/-! ## Everything fits -/

/-- Nothing was dropped since `drops`, and the output link has room for whatever
may still be delivered. -/
def Fits (c : RecombinationConf) (drops : List (LinkNo × Packet × FreeReason))
    (s : Recombination) : Prop :=
  s.txdrops = drops ∧ s.output.nreadable + countHeld (deliverable c) s ≤ linkMaxPackets

/-- **A move never needs more room than was set aside for its packet.** -/
theorem move_accepts (h : Fits c drops s) (hmove : Move c G s s') : Fits c drops s' := by
  obtain ⟨hdrops, hfit⟩ := h
  cases hmove with
  | @forward i p rest hbuf hhead =>
    have hcount := countHeld_dequeue (q := deliverable c) hbuf
    rw [if_pos (by simp [deliverable, hhead])] at hcount
    have hroom : (s.dequeue i).output.nreadable < linkMaxPackets := by
      show s.output.nreadable < _
      omega
    obtain ⟨hd, hn⟩ := transmit_of_room i p.packet hroom
    refine ⟨hd.trans hdrops, ?_⟩
    rw [hn, countHeld_congr (transmit_buffer _ i p.packet)]
    show s.output.nreadable + 1 + _ ≤ _
    omega
  | @discard i p rest h hbuf hhead hlate =>
    have hcount := countHeld_dequeue (q := deliverable c) hbuf
    refine ⟨(txdrops_free (by decide)).trans hdrops, ?_⟩
    rw [countHeld_congr (free_buffer _ i p.packet .late)]
    show s.output.nreadable + _ ≤ _
    omega
  | @consume _ i p rest h hbuf hhead hguard hok =>
    have hcount := countHeld_dequeue (q := deliverable c) hbuf
    rw [show deliverable c p = decide (h.type = hybridAccessType) by simp [deliverable, hhead]] at hcount
    simp only [decide_eq_true_eq] at hcount
    have hroom : h.type = hybridAccessType → (s.dequeue i).output.nreadable < linkMaxPackets := by
      intro ht
      rw [if_pos ht] at hcount
      show s.output.nreadable < _
      omega
    obtain ⟨hd, hn⟩ := deliver_of_room hok hroom
    refine ⟨hd.trans hdrops, ?_⟩
    rw [hn, countHeld_congr (deliver_ok hok).1]
    show s.output.nreadable + _ + _ ≤ _
    omega

/-- What is reached by moves from a state in which everything fits drops nothing. -/
theorem reaches_accepts {r : RecResult Recombination} (hr : Reaches c G T s r)
    (h : Fits c drops s) : Ends (Fits c drops) (fun s' => s'.txdrops = drops) r :=
  hr.rule (fun _ _ => move_accepts) (fun _ _ hs hfail => (fails_txdrops hfail).trans hs.1) h

/-! ## One packet per round -/

/-- Nothing was dropped since `drops`, and the output link has room for the
ordinary frames and `n` packets more. -/
def FitsRounds (c : RecombinationConf) (drops : List (LinkNo × Packet × FreeReason)) (n : Nat)
    (s : Recombination) : Prop :=
  s.txdrops = drops ∧ s.output.nreadable + countHeld (ordinary c) s + n ≤ linkMaxPackets

theorem forward_accepts (h : FitsRounds c drops n s) (hmove : Move c (fun _ _ _ => False) s s') :
    FitsRounds c drops n s' := by
  obtain ⟨hdrops, hfit⟩ := h
  cases hmove with
  | @forward i p rest hbuf hhead =>
    have hcount := countHeld_dequeue (q := ordinary c) hbuf
    rw [if_pos (by simp [ordinary, hhead])] at hcount
    have hroom : (s.dequeue i).output.nreadable < linkMaxPackets := by
      show s.output.nreadable < _
      omega
    obtain ⟨hd, hn⟩ := transmit_of_room i p.packet hroom
    refine ⟨hd.trans hdrops, ?_⟩
    rw [hn, countHeld_congr (transmit_buffer _ i p.packet)]
    show s.output.nreadable + 1 + _ + _ ≤ _
    omega
  | @discard i p rest h hbuf hhead hlate =>
    have hcount := countHeld_dequeue (q := ordinary c) hbuf
    refine ⟨(txdrops_free (by decide)).trans hdrops, ?_⟩
    rw [countHeld_congr (free_buffer _ i p.packet .late)]
    show s.output.nreadable + _ + _ ≤ _
    omega
  | consume hbuf hhead hguard hok => exact hguard.elim

theorem consume_accepts {p : TsPacket} (hs : FitsRounds c drops (n + 1) s)
    (hbuf : s.buffer i = p :: rest) (hok : deliver c i p.packet h (s.dequeue i) = .ok s') :
    FitsRounds c drops n s' := by
  obtain ⟨hdrops, hfit⟩ := hs
  have hcount := countHeld_dequeue (q := ordinary c) hbuf
  obtain ⟨hd, hn⟩ := deliver_of_room hok fun _ => by
    show s.output.nreadable < _
    omega
  refine ⟨hd.trans hdrops, ?_⟩
  rw [hn, countHeld_congr (deliver_ok hok).1]
  show s.output.nreadable + _ + _ + _ ≤ _
  split <;> omega

theorem FitsRounds.mono {m : Nat} (h : FitsRounds c drops n s)
    (hm : m ≤ n) : FitsRounds c drops m s :=
  ⟨h.1, by have := h.2; omega⟩

/-- **`process_links` drops nothing** when the output link has room for the ordinary
frames and one packet per round. -/
theorem processLinksLoop_accepts (n : Nat) :
    ∀ s, FitsRounds c drops n s →
      Ends (FitsRounds c drops 0) (fun s' => s'.txdrops = drops) (processLinksLoop c n s) := by
  induction n with
  | zero => exact fun s h => h
  | succ n ih =>
    intro s hs
    -- skipping forwards ordinary frames, for which room has been set aside
    have hscan : ∀ {t i}, (t = skipped c .one s ∧ i = LinkNo.one ∨
        t = skipped c .two (skipped c .one s)) → FitsRounds c drops (n + 1) t := by
      intro t i ht
      exact moves_inv (fun _ _ => forward_accepts)
        ((skipped_moves fun _ _ _ => False).trans (moves_of_scanned _ ht)) hs
    rw [processLinksLoop]
    split
    · exact hs.mono (Nat.zero_le _)
    · have hround := processRound_round c s
      revert hround
      generalize processRound c s = r
      intro hround
      cases hround with
      | @consume t i p rest h ht hbuf hhead hguard =>
        cases hd : deliver c i p.packet h (t.dequeue i) with
        | error e => exact (deliver_error_txdrops hd).trans (hscan ht).1
        | ok s₁ => exact ih s₁ (consume_accepts (hscan ht) hbuf hd)
      | @discard t i p rest h ht hbuf hhead hlate =>
        refine ih _ ((forward_accepts (hscan ht) ?_).mono (Nat.le_succ n))
        exact .discard hbuf hhead hlate
      | drained h₁ h₂ => exact ih _ ((hscan (i := .two) (Or.inr rfl)).mono (Nat.le_succ n))
      | wait hempty hhead hahead =>
        exact (hscan (i := .two) (Or.inr rfl)).mono (Nat.zero_le _)

/-! ## Safe pushes -/

/-- The output link is empty when the push starts. -/
def StartsEmpty (s : Recombination) (inp : PushInput) : Prop :=
  (s.output.drain inp.taken).packets = []

/-- The packets on both links, buffered or waiting, that satisfy `q`. -/
def countPresent (c : RecombinationConf) (q : TsPacket → Bool) (s : Recombination)
    (inp : PushInput) : Nat :=
  (present c s inp .one).countP q + (present c s inp .two).countP q

/-- A push for which an empty output link is large enough. -/
def OutputSafe (c : RecombinationConf) (s : Recombination) (inp : PushInput) : Prop :=
  countPresent c (deliverable c) s inp ≤ linkMaxPackets ∨
    (∀ i, ∀ p ∈ present c s inp i, inp.currentTime < p.timestamp) ∧
      countPresent c (ordinary c) s inp + c.pullNpackets ≤ linkMaxPackets

theorem countHeld_fetched (c : RecombinationConf) (q : TsPacket → Bool) (s : Recombination)
    (inp : PushInput) : countHeld q (fetched c s inp) = countPresent c q s inp := by
  rw [countHeld, fetched_buffer, fetched_buffer]
  rfl

theorem fetched_txdrops (c : RecombinationConf) (s : Recombination) (inp : PushInput) :
    (fetched c s inp).txdrops = s.txdrops := by
  simp [txdrops, fetched_eq]

theorem fetched_nreadable (h : StartsEmpty s inp) : (fetched c s inp).output.nreadable = 0 := by
  rw [fetched_eq, Link.nreadable]
  rw [h]
  rfl

/-- **A safe push drops nothing**, whether it returns or raises. -/
theorem push_accepts (hempty : StartsEmpty s inp) (hsafe : OutputSafe c s inp) :
    (final (push c s inp)).txdrops = s.txdrops := by
  have hzero := fetched_nreadable (c := c) hempty
  rcases hsafe with hfit | ⟨hdue, hfit⟩
  · -- everything fits, whichever of the two loops delivers it
    have hfits : Fits c s.txdrops (fetched c s inp) :=
      ⟨fetched_txdrops c s inp, by rw [hzero, countHeld_fetched]; omega⟩
    have hlinks := reaches_accepts (processLinks_reaches c _) hfits
    cases hl : processLinks c (fetched c s inp) with
    | error e =>
      rw [hl] at hlinks
      rw [push_of_links_error hl]
      exact hlinks
    | ok t =>
      rw [hl] at hlinks
      rw [push_of_links hl]
      have htimeout := reaches_accepts (processTimeout_reaches c inp.currentTime t) hlinks
      revert htimeout
      cases processTimeout c inp.currentTime t with
      | error e => exact id
      | ok s' => exact And.left
  · -- `process_timeout` does nothing, and `process_links` delivers one packet per round
    have hfits : FitsRounds c s.txdrops c.pullNpackets (fetched c s inp) :=
      ⟨fetched_txdrops c s inp, by rw [hzero, countHeld_fetched]; omega⟩
    have hlinks := processLinksLoop_accepts c.pullNpackets _ hfits
    cases hl : processLinks c (fetched c s inp) with
    | error e =>
      rw [← processLinks, hl] at hlinks
      rw [push_of_links_error hl]
      exact hlinks
    | ok t =>
      rw [← processLinks, hl] at hlinks
      rw [push_of_links hl, processTimeout_of_not_due]
      · exact hlinks.1
      · intro i p hp
        have hmem := (moves_suffix (processLinks_moves hl) i).subset hp
        rw [fetched_buffer] at hmem
        exact hdue i p hmem

/-- **No self-inflicted loss**: in every run in which the pushes that start with an
empty output link are safe, none of these pushes loses a packet on it. -/
theorem output_accepts_all (c : RecombinationConf) (inputs : List PushInput)
    (hsafe : Along (push c) (fun s inp => StartsEmpty s inp → OutputSafe c s inp) .new inputs) :
    Along (push c) (fun s inp => StartsEmpty s inp → (final (push c s inp)).txdrops = s.txdrops)
      .new inputs :=
  hsafe.mono fun _ _ h hempty => push_accepts hempty (h hempty)

/-- One data packet and one ordinary frame are accepted. -/
theorem output_accepts_all_sample :
    StartsEmpty .new (.finding 3 [haFrame 0 0] [ordinaryFrame 1]) ∧
    (final (push ⟨.eth, fun _ => 0, 204⟩ .new
      (.finding 3 [haFrame 0 0] [ordinaryFrame 1]))).txdrops = [] := by
  refine ⟨rfl, ?_⟩
  have hrun := output_accepts_all ⟨.eth, fun _ => 0, 204⟩ [.finding 3 [haFrame 0 0] [ordinaryFrame 1]]
    ⟨fun _ => Or.inl (by decide +kernel), fun _ _ => trivial⟩
  exact hrun.1 rfl

/-! ## Too many ordinary frames -/

/-- While only ordinary frames are buffered, each of them is queued or dropped. -/
def Balanced (c : RecombinationConf) (total : Nat) (s : Recombination) : Prop :=
  (∀ i, ∀ p ∈ s.buffer i, ordinary c p = true) ∧
    s.txdrops.length + s.output.nreadable + countHeld (ordinary c) s = total

theorem move_balanced {total : Nat} (h : Balanced c total s) (hmove : Move c G s s') :
    Balanced c total s' := by
  obtain ⟨hall, htotal⟩ := h
  refine ⟨fun i p hp => hall i p ((hmove.suffix i).subset hp), ?_⟩
  have hhead : ∀ {i p rest}, s.buffer i = p :: rest → ordinary c p = true := by
    intro i p rest hbuf
    refine hall i p ?_
    rw [hbuf]
    exact mem_cons_self ..
  cases hmove with
  | @forward i p rest hbuf hnone =>
    have hcount := countHeld_dequeue (q := ordinary c) hbuf
    rw [if_pos (hhead hbuf)] at hcount
    rw [countHeld_congr (transmit_buffer _ i p.packet)]
    by_cases hfull : (s.dequeue i).output.full
    · -- the frame moves from the buffer to the drops, otherwise to the link
      rw [transmit, if_pos hfull]
      have hdrop : ((s.dequeue i).free i p.packet .txdrop).txdrops.length = s.txdrops.length + 1 := by
        simp [txdrops, free, dequeue]
      rw [hdrop]
      show s.txdrops.length + 1 + s.output.nreadable + _ = _
      omega
    · have hlt : (s.dequeue i).output.nreadable < linkMaxPackets :=
        Nat.lt_of_le_of_ne (s.dequeue i).output.fits hfull
      obtain ⟨hd, hn⟩ := transmit_of_room i p.packet hlt
      rw [hd, hn]
      show s.txdrops.length + (s.output.nreadable + 1) + _ = _
      omega
  | discard hbuf hsome =>
    have hordinary := hhead hbuf
    simp [ordinary, hsome] at hordinary
  | consume hbuf hsome =>
    have hordinary := hhead hbuf
    simp [ordinary, hsome] at hordinary

/-- **Ordinary frames beyond the size of the output link are lost**: a push that
finds nothing else hands all of them to the output link. -/
theorem push_drops_ordinary (hpull : 0 < c.pullNpackets)
    (hall : ∀ i, ∀ p ∈ present c s inp i, ordinary c p = true) :
    ∃ s', push c s inp = .ok s' ∧ s.txdrops.length + (s.output.drain inp.taken).nreadable +
      countPresent c (ordinary c) s inp ≤ s'.txdrops.length + linkMaxPackets := by
  have hnone : ∀ i, ∀ p ∈ (fetched c s inp).buffer i, c.hybridAccess.getHeader p.packet = none := by
    intro i p hp
    rw [fetched_buffer] at hp
    simpa [ordinary] using hall i p hp
  obtain ⟨t, ht⟩ := processLinks_isOk (c := c) (s := fetched c s inp) fun i p hp h hh => by
    rw [hnone i p hp] at hh
    cases hh
  have hsuf := moves_suffix (processLinks_moves ht)
  have hcount : haCount c (fetched c s inp) = 0 := by
    have hnil : ∀ i, heldSeqNos c (fetched c s inp) i = [] := by
      intro i
      rw [heldSeqNos, seqNos, map_eq_nil_iff, filterMap_eq_nil_iff]
      intro pkt hpkt
      obtain ⟨p, hp, rfl⟩ := mem_map.mp hpkt
      exact hnone i p hp
    rw [haCount, hnil, hnil]
    rfl
  -- no hybrid-access packet uses up the rounds, so the loop stops with empty buffers
  have hempty : ∀ i, t.buffer i = [] := by
    rcases processLinksLoop_stops c.pullNpackets _ ht with ⟨i, hi, hother⟩ | hused
    · intro j
      by_cases hj : j = i
      · rw [hj, hi]
      · rw [LinkNo.eq_other_of_ne hj]
        rcases hother with hnil | ⟨h, hh, -⟩
        · exact hnil
        · obtain ⟨p, rest, hbuf, hp⟩ := headHeader_eq_some hh
          have hmem : p ∈ t.buffer i.other := by
            rw [hbuf]
            exact mem_cons_self ..
          rw [hnone i.other p ((hsuf i.other).subset hmem)] at hp
          cases hp
    · omega
  refine ⟨t, ?_, ?_⟩
  · rw [push_of_links ht]
    exact processTimeout_of_not_due fun i p hp => by rw [hempty i] at hp; cases hp
  · have hstart : Balanced c ((fetched c s inp).txdrops.length +
        (fetched c s inp).output.nreadable + countHeld (ordinary c) (fetched c s inp))
        (fetched c s inp) := ⟨fun i p hp => by rw [fetched_buffer] at hp; exact hall i p hp, rfl⟩
    have hend := (moves_inv (fun _ _ => move_balanced) (processLinks_moves ht) hstart).2
    rw [fetched_txdrops, countHeld_fetched, fetched_eq] at hend
    rw [countHeld, hempty .one, hempty .two] at hend
    have hfits : t.output.nreadable ≤ linkMaxPackets := t.output.fits
    simp only [countP_nil] at hend
    omega

theorem length_present (c : RecombinationConf) (s : Recombination) (inp : PushInput)
    (i : LinkNo) : (present c s inp i).length =
      (s.buffer i).length + min (room (s.buffer i)) (inp.input i).packets.length := by
  rw [present, List.length_append, length_map, length_take]

/-- A push that finds 1023 ordinary frames on link 1 and one on link 2 loses one of
them on its empty output link. -/
theorem ordinary_frames_overflow_output :
    StartsEmpty .new (.finding 0 (List.replicate 1023 (ordinaryFrame 0)) [ordinaryFrame 1]) ∧
    ∃ s, run (push ⟨.eth, fun _ => 5, 204⟩) .new
        [.finding 0 (List.replicate 1023 (ordinaryFrame 0)) [ordinaryFrame 1]] = .ok s ∧
      s.txdrops ≠ [] := by
  refine ⟨rfl, ?_⟩
  have hall : ∀ i, ∀ p ∈ present ⟨.eth, fun _ => 5, 204⟩ .new
      (.finding 0 (List.replicate 1023 (ordinaryFrame 0)) [ordinaryFrame 1]) i,
      ordinary ⟨.eth, fun _ => 5, 204⟩ p = true := by
    intro i p hp
    rcases mem_present hp with hold | ⟨hnew, -⟩
    · cases hold
    · have hpkt : p.packet = ordinaryFrame 0 ∨ p.packet = ordinaryFrame 1 := by
        cases i with
        | one => exact Or.inl (eq_of_mem_replicate (mem_of_mem_take hnew))
        | two => exact Or.inr (mem_singleton.mp (mem_of_mem_take hnew))
      rcases hpkt with h | h <;>
      · rw [ordinary, h]
        decide +kernel
  obtain ⟨s, hs, hdrops⟩ := push_drops_ordinary (c := ⟨.eth, fun _ => 5, 204⟩) (by decide) hall
  refine ⟨s, by rw [run, hs]; rfl, fun hnil => ?_⟩
  have hone : (Link.holding (List.replicate 1023 (ordinaryFrame 0))).packets.length = 1023 := by
    rw [Link.holding, length_take, length_replicate]
    rfl
  rw [hnil, countPresent, countP_eq_length.mpr (hall .one), length_present] at hdrops
  simp only [PushInput.finding, hone] at hdrops
  exact absurd hdrops (by decide)

end Recombination

end Snabb
