import Snabb.HybridAccess.Recombination.Push

/-!
# Bounded holding time

`process_timeout` walks each buffer from its head and stops at the first packet
that is not due. That is enough because the time stamps of a buffer never
decrease: they are the clock plus a constant, in the order of arrival. A stale
packet of link 1 cannot come back while link 2 is walked, since every move only
takes packets from the heads.

The clock and the delays are added in 64 bits. Once that sum wraps, a packet can
be stamped below the ones before it, and it is then held behind them.
-/

namespace Snabb

open List Recombination

namespace Recombination

open Foundation Relation

variable {c : RecombinationConf} {s s' : Recombination} {inp : PushInput} {i : LinkNo}

/-- The time stamps of a buffer, from its head on, never decrease. -/
def StampsSorted (buf : List TsPacket) : Prop := buf.Pairwise fun p q => p.timestamp ≤ q.timestamp

variable {now : Nat}

theorem StampsSorted.lt_of_head {buf : List TsPacket} (h : StampsSorted buf)
    (hhead : ∀ p ∈ buf.head?, now < p.timestamp) : ∀ p ∈ buf, now < p.timestamp := by
  cases buf with
  | nil => simp
  | cons q rest =>
    have hq : now < q.timestamp := hhead q rfl
    intro p hp
    rcases mem_cons.mp hp with rfl | hp
    · exact hq
    · exact Nat.lt_of_lt_of_le hq (rel_of_pairwise_cons h hp)

/-- **After `process_timeout` nothing is due**, on either link. -/
theorem processTimeout_not_due (hsorted : ∀ i, StampsSorted (s.buffer i))
    (h : processTimeout c now s = .ok s') : ∀ i, ∀ p ∈ s'.buffer i, now < p.timestamp := by
  obtain ⟨t, hone, htwo⟩ := processTimeout_eq_ok h
  obtain ⟨hreach₁, hhead₁⟩ := timeoutLoop_spec c now .one _ true none s (Nat.le_refl _) nofun
  obtain ⟨hreach₂, hhead₂⟩ := timeoutLoop_spec c now .two _ true none t (Nat.le_refl _) nofun
  rw [hone] at hreach₁
  rw [htwo] at hreach₂
  have hsorted₁ : ∀ i, StampsSorted (t.buffer i) := fun i =>
    (hsorted i).sublist (moves_suffix hreach₁ i).sublist
  have hsorted₂ : ∀ i, StampsSorted (s'.buffer i) := fun i =>
    (hsorted₁ i).sublist (moves_suffix hreach₂ i).sublist
  intro i p hp
  cases i with
  | one =>
    -- what the second pass leaves of link 1 is a part of what the first one left
    have hp' : p ∈ t.buffer .one := (moves_suffix hreach₂ .one).subset hp
    exact (hsorted₁ .one).lt_of_head (hhead₁ t hone) p hp'
  | two => exact (hsorted₂ .two).lt_of_head (hhead₂ s' htwo) p hp

/-- Arrivals stamped at least as late as the packets before them keep the order. -/
theorem StampsSorted.present (h : StampsSorted (s.buffer i))
    (hle : ∀ p ∈ s.buffer i, p.timestamp ≤ timeout c inp.currentTime i) :
    StampsSorted (present c s inp i) := by
  refine pairwise_append.mpr ⟨h, ?_, ?_⟩
  · rw [pairwise_map]
    exact pairwise_of_forall fun _ _ => Nat.le_refl _
  · intro p hp q hq
    obtain ⟨pkt, -, rfl⟩ := mem_map.mp hq
    exact hle p hp

theorem push_not_due (hsorted : ∀ i, StampsSorted (s.buffer i))
    (hle : ∀ i, ∀ p ∈ s.buffer i, p.timestamp ≤ timeout c inp.currentTime i)
    (h : push c s inp = .ok s') :
    (∀ i, StampsSorted (s'.buffer i)) ∧ ∀ i, ∀ p ∈ s'.buffer i, inp.currentTime < p.timestamp := by
  have hall : ∀ i, StampsSorted (present c s inp i) := fun i =>
    (hsorted i).present (hle i)
  refine ⟨fun i => (hall i).sublist (push_buffer_suffix h i).sublist, ?_⟩
  obtain ⟨t, hlinks, htimeout⟩ := push_eq_ok h
  refine processTimeout_not_due (fun i => (hall i).sublist ?_) htimeout
  rw [← fetched_buffer]
  exact (moves_suffix (processLinks_moves hlinks) i).sublist

/-- The packets of every buffer arrived with one of the pushes `done`, and are
stamped with the clock of that push plus the delay of their link. -/
def Stamped (c : RecombinationConf) (done : List PushInput) (s : Recombination) : Prop :=
  ∀ i, ∀ p ∈ s.buffer i, ∃ inp ∈ done, p.packet ∈ (inp.input i).packets ∧
    p.timestamp = inp.currentTime + c.linkTimeouts i

theorem timeout_eq (h : now + c.linkTimeouts i < 2 ^ 64) :
    timeout c now i = now + c.linkTimeouts i := Nat.mod_eq_of_lt h

theorem Stamped.push {done : List PushInput} (h : Stamped c done s)
    (hfit : ∀ i, inp.currentTime + c.linkTimeouts i < 2 ^ 64)
    (hpush : push c s inp = .ok s') : Stamped c (done ++ [inp]) s' := by
  intro i p hp
  rcases mem_present ((push_buffer_suffix hpush i).subset hp) with hold | ⟨hpkt, hts⟩
  · obtain ⟨a, ha, hmem, hts⟩ := h i p hold
    exact ⟨a, mem_append_left _ ha, hmem, hts⟩
  · exact ⟨inp, mem_append_right _ (mem_singleton_self _), hpkt,
      hts.trans (timeout_eq (hfit i))⟩

/-- Packets of earlier pushes are not stamped later than those of the next one. -/
theorem Stamped.le_timeout {done rest : List PushInput} (h : Stamped c done s)
    (hclock : (done ++ inp :: rest).Pairwise fun a b => a.currentTime ≤ b.currentTime)
    (hfit : ∀ i, inp.currentTime + c.linkTimeouts i < 2 ^ 64) :
    ∀ i, ∀ p ∈ s.buffer i, p.timestamp ≤ timeout c inp.currentTime i := by
  intro i p hp
  obtain ⟨a, ha, -, hts⟩ := h i p hp
  have hle := (pairwise_append.mp hclock).2.2 a ha inp (mem_cons_self ..)
  rw [timeout_eq (hfit i)]
  omega

/-- **Bounded holding time**: with a clock that never decreases and sums of clock
and delay that fit in 64 bits, every packet left in a buffer is stamped with its
arrival plus the delay of its link, and that time is still to come. -/
theorem bounded_holding (c : RecombinationConf) (inputs : List PushInput) (last : PushInput)
    (s : Recombination)
    (hclock : (inputs ++ [last]).Pairwise fun a b => a.currentTime ≤ b.currentTime)
    (hfit : ∀ inp ∈ inputs ++ [last], ∀ i, inp.currentTime + c.linkTimeouts i < 2 ^ 64)
    (hrun : run (push c) .new (inputs ++ [last]) = .ok s) :
    ∀ i, ∀ p ∈ s.buffer i, last.currentTime < p.timestamp ∧
      ∃ inp ∈ inputs ++ [last], p.packet ∈ (inp.input i).packets ∧
        p.timestamp = inp.currentTime + c.linkTimeouts i := by
  obtain ⟨t, hbefore, hlast⟩ := run_snoc_eq_ok hrun
  -- the pushes done so far, which the stamps in the buffers refer to
  have hinv : ∃ done, done ++ [] = inputs ∧ Stamped c done t ∧ ∀ i, StampsSorted (t.buffer i) := by
    refine run_inv (P := fun _ _ => True)
      (I := fun s is => ∃ done, done ++ is = inputs ∧ Stamped c done s ∧
        ∀ i, StampsSorted (s.buffer i)) ?_ ?_ (along_of_forall fun _ _ => trivial) hbefore
    · rintro s inp is s' ⟨done, hdone, hstamped, hsorted⟩ - hpush
      have hmem : inp ∈ inputs ++ [last] := by simp [← hdone]
      have hclock' : (done ++ inp :: is).Pairwise fun a b => a.currentTime ≤ b.currentTime := by
        rw [hdone]
        exact (pairwise_append.mp hclock).1
      refine ⟨done ++ [inp], by simp [← hdone], hstamped.push (hfit inp hmem) hpush, ?_⟩
      exact (push_not_due hsorted (hstamped.le_timeout hclock' (hfit inp hmem)) hpush).1
    · refine ⟨[], rfl, ?_, fun i => List.Pairwise.nil⟩
      intro i p hp
      cases hp
  obtain ⟨done, hdone, hstamped, hsorted⟩ := hinv
  rw [append_nil] at hdone
  subst hdone
  have hfit' := hfit last (mem_append_right _ (mem_singleton_self _))
  intro i p hp
  refine ⟨?_, hstamped.push hfit' hlast i p hp⟩
  exact (push_not_due hsorted (hstamped.le_timeout hclock hfit') hlast).2 i p hp

/-- A packet is held: it arrives ahead of the expected number, with a delay that
has not passed. -/
theorem bounded_holding_waiting :
    ∃ s, run (push ⟨.eth, fun _ => 5, 204⟩) .new [.finding 0 [] [], .finding 3 [haFrame 0 7] []] =
        .ok s ∧
      (∃ p ∈ s.buffer .one, p.timestamp = 8) ∧
      ∀ i, ∀ p ∈ s.buffer i, 3 < p.timestamp := by
  refine exists_ok_of_any (fun s => (s.buffer .one).any fun p => p.timestamp = 8)
    (by decide +kernel) fun s hs hcheck => ?_
  refine ⟨by simpa using hcheck, ?_⟩
  intro i p hp
  exact (bounded_holding _ [.finding 0 [] []] _ s (by decide) (by simp [PushInput.finding]) hs i p hp).1

/-- A delay that is close to 2 ^ 64 makes the sum wrap: the second packet is
stamped 952 and still held at time 3000. -/
theorem stamp_wraps_and_packet_is_held :
    ∃ s, run (push ⟨.eth, fun _ => 2 ^ 64 - 2048, 204⟩) .new
        [.finding 1000 [haFrame 0 7] [], .finding 3000 [haFrame 1 8] []] = .ok s ∧
      ∃ p ∈ s.buffer .one, p.timestamp ≤ 3000 := by
  refine exists_ok_of_any (fun s => (s.buffer .one).any fun p => p.timestamp ≤ 3000)
    (by decide +kernel) fun s hs hcheck => ?_
  simpa using hcheck

end Recombination

end Snabb
