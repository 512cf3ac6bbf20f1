import Snabb.HybridAccess.Recombination.Model
import Mathlib.Tactic.SplitIfs
import Mathlib.Data.List.DropRight

/-!
# What one round of the recombination can do

Every loop of the recombination is a sequence of three moves on the head of a
receive buffer: an ordinary frame is *forwarded*, a late packet is *discarded*,
a hybrid-access packet is *consumed* (transmitted without its headers, or freed
when it is a DDC packet). The loops differ in the guard under which they consume:

- `LinksGuard`: the packet is the expected one, or both links have a packet ahead
  of the expected one and this is the lower of the two;
- `TimeoutGuard`: the other link is empty or has no lower packet at its head.

`Reaches G T s r` says this about a result: either moves lead from `s` to the
returned state, or moves lead to a state in which the function raised, because
it met an ordinary frame that satisfies `T` or because decapsulation failed.
`processLinks_reaches` and `processTimeout_reaches` are the only places where the
loops are unfolded; the invariants of the recombination are proved per move.
-/

namespace Snabb

open List

namespace Recombination

open Foundation Relation

variable {c : RecombinationConf} {s s' t : Recombination} {i j : LinkNo}

/-! ## Frame lemmas of the state updates -/

section

variable (s : Recombination) (i : LinkNo)

@[simp] theorem free_buffer (p : Packet) (r : FreeReason) : (s.free i p r).buffer = s.buffer := rfl

@[simp] theorem free_nextSeqNo (p : Packet) (r : FreeReason) :
    (s.free i p r).nextSeqNo = s.nextSeqNo := rfl

@[simp] theorem free_consumed (p : Packet) (r : FreeReason) :
    (s.free i p r).consumed = s.consumed := rfl

@[simp] theorem transmit_buffer (p : Packet) : (s.transmit i p).buffer = s.buffer := by
  rw [transmit]
  split <;> rfl

@[simp] theorem transmit_nextSeqNo (p : Packet) : (s.transmit i p).nextSeqNo = s.nextSeqNo := by
  rw [transmit]
  split <;> rfl

@[simp] theorem transmit_consumed (p : Packet) : (s.transmit i p).consumed = s.consumed := by
  rw [transmit]
  split <;> rfl

@[simp] theorem dequeue_nextSeqNo : (s.dequeue i).nextSeqNo = s.nextSeqNo := rfl

@[simp] theorem dequeue_consumed : (s.dequeue i).consumed = s.consumed := rfl

@[simp] theorem dequeue_buffer_self : (s.dequeue i).buffer i = (s.buffer i).tail := by
  simp [dequeue]

end

theorem dequeue_buffer_of_ne (s : Recombination) (h : j ≠ i) :
    (s.dequeue i).buffer j = s.buffer j := by
  simp [dequeue, h]

theorem dequeue_suffix (s : Recombination) (i j : LinkNo) :
    (s.dequeue i).buffer j <:+ s.buffer j := by
  by_cases h : j = i
  · subst h
    rw [dequeue_buffer_self]
    exact tail_suffix _
  · exact (dequeue_buffer_of_ne s h).symm ▸ suffix_refl _

variable {h : HaHeader} {rest : List TsPacket} {now : Nat}

theorem headHeader_eq_some (hh : headHeader c s i = some h) :
    ∃ p rest, s.buffer i = p :: rest ∧ c.hybridAccess.getHeader p.packet = some h := by
  unfold headHeader at hh
  cases hb : s.buffer i with
  | nil => simp [hb] at hh
  | cons p rest => exact ⟨p, rest, rfl, by simpa [hb] using hh⟩

variable {p : TsPacket} {r : RecResult (Recombination × Bool)}

theorem headHeader_cons (hb : s.buffer i = p :: rest) :
    headHeader c s i = c.hybridAccess.getHeader p.packet := by
  simp [headHeader, hb]

/-! ## The effect of `deliver` -/

/-- Whether it returns or raises, `deliver` has recorded the packet and moved the
expected number behind it, and it has not touched the buffers. -/
theorem deliver_eq {p : Packet} {r : RecResult Recombination} (hr : deliver c i p h s = r) :
    ∃ s', (r = .ok s' ∨ ∃ e, r = .error (e, s')) ∧ s'.buffer = s.buffer ∧
      s'.nextSeqNo = (h.seqNo + 1) % 2 ^ 64 ∧ s'.consumed = s.consumed ++ [h.seqNo] := by
  simp only [deliver] at hr
  split at hr
  · split at hr
    · exact ⟨_, Or.inl hr.symm, by simp, by simp, by simp⟩
    · exact ⟨_, Or.inr ⟨_, hr.symm⟩, rfl, rfl, rfl⟩
  · exact ⟨_, Or.inl hr.symm, by simp, by simp, by simp⟩

theorem deliver_ok {p : Packet} (hr : deliver c i p h s = .ok s') :
    s'.buffer = s.buffer ∧ s'.nextSeqNo = (h.seqNo + 1) % 2 ^ 64 ∧
      s'.consumed = s.consumed ++ [h.seqNo] := by
  obtain ⟨t, ht | ⟨e, ht⟩, hfacts⟩ := deliver_eq hr
  · cases ht
    exact hfacts
  · cases ht

/-! ## Moves -/

variable (c)

/-- One move of the recombination; `G` guards what is consumed. -/
inductive Move (G : Recombination → LinkNo → HaHeader → Prop) :
    Recombination → Recombination → Prop where
  | forward {s : Recombination} {i : LinkNo} {p : TsPacket} {rest : List TsPacket}
      (hbuf : s.buffer i = p :: rest) (hhead : c.hybridAccess.getHeader p.packet = none) :
      Move G s ((s.dequeue i).transmit i p.packet)
  | discard {s : Recombination} {i : LinkNo} {p : TsPacket} {rest : List TsPacket} {h : HaHeader}
      (hbuf : s.buffer i = p :: rest) (hhead : c.hybridAccess.getHeader p.packet = some h)
      (hlate : h.seqNo < s.nextSeqNo) :
      Move G s ((s.dequeue i).free i p.packet .late)
  | consume {s s' : Recombination} {i : LinkNo} {p : TsPacket} {rest : List TsPacket}
      {h : HaHeader} (hbuf : s.buffer i = p :: rest)
      (hhead : c.hybridAccess.getHeader p.packet = some h) (hguard : G s i h)
      (hok : deliver c i p.packet h (s.dequeue i) = .ok s') :
      Move G s s'

/-- The last, incomplete move of a function that raises: it met an ordinary frame
that satisfies `T` where it expects a header, or decapsulation failed. -/
inductive Fails (G : Recombination → LinkNo → HaHeader → Prop) (T : TsPacket → Prop) :
    Recombination → Recombination → Prop where
  | ordinary {s s' : Recombination} {i : LinkNo} {p : TsPacket} {rest : List TsPacket}
      (hbuf : s.buffer i = p :: rest) (hhead : c.hybridAccess.getHeader p.packet = none)
      (hT : T p) (hs' : s' = s ∨ s' = s.dequeue i) : Fails G T s s'
  | consume {s s' : Recombination} {i : LinkNo} {p : TsPacket} {rest : List TsPacket}
      {h : HaHeader} {e : Raise} (hbuf : s.buffer i = p :: rest)
      (hhead : c.hybridAccess.getHeader p.packet = some h) (hguard : G s i h)
      (herr : deliver c i p.packet h (s.dequeue i) = .error (e, s')) :
      Fails G T s s'

/-- The guard of `process_links`. -/
def LinksGuard (s : Recombination) (i : LinkNo) (h : HaHeader) : Prop :=
  h.seqNo = s.nextSeqNo ∨
    s.nextSeqNo < h.seqNo ∧ ∃ h', headHeader c s i.other = some h' ∧
      s.nextSeqNo < h'.seqNo ∧ h.seqNo ≤ h'.seqNo

/-- The guard of `process_timeout`. -/
def TimeoutGuard (s : Recombination) (i : LinkNo) (h : HaHeader) : Prop :=
  s.buffer i.other = [] ∨ ∃ h', headHeader c s i.other = some h' ∧ h.seqNo ≤ h'.seqNo

/-- A result is reached by moves, up to a last incomplete one when it is a raise. -/
def Reaches (G : Recombination → LinkNo → HaHeader → Prop) (T : TsPacket → Prop)
    (s : Recombination) : RecResult Recombination → Prop
  | .ok s' => ReflTransGen (Move c G) s s'
  | .error (_, s'') => ∃ s', ReflTransGen (Move c G) s s' ∧ Fails c G T s' s''

variable {c} {G : Recombination → LinkNo → HaHeader → Prop}

theorem Move.suffix (h : Move c G s s') (j : LinkNo) : s'.buffer j <:+ s.buffer j := by
  cases h with
  | forward hbuf hhead =>
    rw [transmit_buffer]
    exact dequeue_suffix s _ j
  | discard hbuf hhead hlate =>
    exact dequeue_suffix s _ j
  | consume hbuf hhead hguard hok =>
    rw [(deliver_ok hok).1]
    exact dequeue_suffix s _ j

theorem moves_suffix
    (h : ReflTransGen (Move c G) s s') (j : LinkNo) : s'.buffer j <:+ s.buffer j := by
  induction h with
  | refl => exact suffix_refl _
  | tail _ hmove ih => exact (hmove.suffix j).trans ih

variable {T : TsPacket → Prop}

theorem Reaches.of_moves {r : RecResult Recombination} (h : ReflTransGen (Move c G) s s')
    (hr : Reaches c G T s' r) : Reaches c G T s r := by
  cases r with
  | ok s'' => exact h.trans hr
  | error e =>
    obtain ⟨t, ht, hfail⟩ := hr
    exact ⟨t, h.trans ht, hfail⟩

/-! ## `read_next_hybrid_access_pkt` -/

/-- What the function returns describes the head of the buffer: it is empty when
there is no header. -/
def Settled (c : RecombinationConf) (s : Recombination) (i : LinkNo) (header : Option HaHeader) :
    Prop :=
  header = headHeader c s i ∧ (header = none → s.buffer i = [])

/-- Whether a buffered packet is an ordinary frame. -/
def ordinary (c : RecombinationConf) (p : TsPacket) : Bool :=
  (c.hybridAccess.getHeader p.packet).isNone

/-- Skipping forwards the ordinary frames at the head and changes nothing else. -/
theorem skipOrdinary_spec (c : RecombinationConf) (i : LinkNo)
    (G : Recombination → LinkNo → HaHeader → Prop) :
    ∀ (buf : List TsPacket) (s : Recombination), s.buffer i = buf →
      ReflTransGen (Move c G) s (skipOrdinary c i buf s) ∧
      (skipOrdinary c i buf s).buffer i = buf.dropWhile (ordinary c) ∧
      (∀ j, j ≠ i → (skipOrdinary c i buf s).buffer j = s.buffer j) ∧
      (skipOrdinary c i buf s).nextSeqNo = s.nextSeqNo
  | [], s, hbuf => by simp [skipOrdinary, hbuf, ReflTransGen.refl]
  | p :: rest, s, hbuf => by
    cases hh : c.hybridAccess.getHeader p.packet with
    | some h =>
      have ho : ordinary c p = false := by simp [ordinary, hh]
      simp [skipOrdinary, hh, hbuf, ho, ReflTransGen.refl]
    | none =>
      have ho : ordinary c p = true := by simp [ordinary, hh]
      have hmove : Move c G s ((s.dequeue i).transmit i p.packet) := .forward hbuf hh
      obtain ⟨hstar, hself, hother, hseq⟩ := skipOrdinary_spec c i G rest
        ((s.dequeue i).transmit i p.packet) (by rw [transmit_buffer, dequeue_buffer_self, hbuf]; rfl)
      simp only [skipOrdinary, hh]
      refine ⟨ReflTransGen.head hmove hstar, ?_, fun j hj => ?_, ?_⟩
      · rw [hself, dropWhile_cons_of_pos ho]
      · rw [hother j hj, transmit_buffer, dequeue_buffer_of_ne s hj]
      · rw [hseq, transmit_nextSeqNo, dequeue_nextSeqNo]

/-- The state in which `read_next_hybrid_access_pkt` leaves the recombination. -/
def skipped (c : RecombinationConf) (i : LinkNo) (s : Recombination) : Recombination :=
  skipOrdinary c i (s.buffer i) s

theorem skipped_moves (G : Recombination → LinkNo → HaHeader → Prop) :
    ReflTransGen (Move c G) s (skipped c i s) :=
  (skipOrdinary_spec c i G (s.buffer i) s rfl).1

theorem skipped_buffer_self : (skipped c i s).buffer i = (s.buffer i).dropWhile (ordinary c) :=
  (skipOrdinary_spec c i (fun _ _ _ => True) (s.buffer i) s rfl).2.1

theorem skipped_buffer_of_ne (h : j ≠ i) : (skipped c i s).buffer j = s.buffer j :=
  (skipOrdinary_spec c i (fun _ _ _ => True) (s.buffer i) s rfl).2.2.1 j h

@[simp] theorem skipped_nextSeqNo : (skipped c i s).nextSeqNo = s.nextSeqNo :=
  (skipOrdinary_spec c i (fun _ _ _ => True) (s.buffer i) s rfl).2.2.2

theorem readNext_eq :
    readNextHybridAccessPkt c i s = (headHeader c (skipped c i s) i, skipped c i s) := rfl

/-- After skipping, a buffer without a header at its head is empty. -/
theorem skipped_settled : Settled c (skipped c i s) i (headHeader c (skipped c i s) i) := by
  refine ⟨rfl, fun hnone => ?_⟩
  cases hb : (skipped c i s).buffer i with
  | nil => rfl
  | cons p rest =>
    rw [headHeader_cons hb] at hnone
    rw [skipped_buffer_self] at hb
    have hp := List.head?_dropWhile_not (ordinary c) (s.buffer i)
    rw [hb] at hp
    simp [ordinary, hnone] at hp

/-! ## `process_links` -/

theorem processPacket_some (hbuf : s.buffer i = p :: rest)
    (h : HaHeader) : processPacket c i (some h) s = deliver c i p.packet h (s.dequeue i) := by
  simp [processPacket, hbuf]

section Scan

variable (sc : Scan)

theorem scanLink_left (hleft : sc.left = true) : scanLink c i sc = .ok sc := by
  simp [scanLink, hleft]

theorem scanLink_empty (hleft : sc.left = false)
    (hh : headHeader c (skipped c i sc.state) i = none) :
    scanLink c i sc =
      .ok { sc with state := skipped c i sc.state, existsEmptyLink := true } := by
  simp [scanLink, hleft, readNext_eq, hh]

variable {rest : List TsPacket} {p : TsPacket} {h : HaHeader}
  (hleft : sc.left = false) (hbuf : (skipped c i sc.state).buffer i = p :: rest)
  (hh : c.hybridAccess.getHeader p.packet = some h)
include hleft hbuf hh

theorem scanLink_expected (hseq : h.seqNo = sc.state.nextSeqNo) :
    scanLink c i sc =
      match deliver c i p.packet h ((skipped c i sc.state).dequeue i) with
      | .ok s => .ok { sc with state := s, buffered := none, left := true }
      | .error e => .error e := by
  cases hd : deliver c i p.packet h ((skipped c i sc.state).dequeue i) <;>
    simp [scanLink, hleft, readNext_eq, headHeader_cons hbuf, hh, hseq, processPacket_some hbuf, hd]

theorem scanLink_late (hseq : h.seqNo < sc.state.nextSeqNo) :
    scanLink c i sc =
      .ok { sc with
        state := ((skipped c i sc.state).dequeue i).free i p.packet .late
        buffered := none
        left := true } := by
  have hne : h.seqNo ≠ sc.state.nextSeqNo := by omega
  simp [scanLink, hleft, readNext_eq, headHeader_cons hbuf, hh, hne, hseq, hbuf]

theorem scanLink_ahead (hseq : sc.state.nextSeqNo < h.seqNo) :
    scanLink c i sc =
      .ok { sc with
        state := skipped c i sc.state
        buffered :=
          if sc.buffered.all fun b => h.seqNo < b.1.seqNo then some (h, i) else sc.buffered } := by
  have hne : h.seqNo ≠ sc.state.nextSeqNo := by omega
  have hlt : ¬ h.seqNo < sc.state.nextSeqNo := by omega
  simp only [scanLink, hleft, readNext_eq, headHeader_cons hbuf, hh, skipped_nextSeqNo, hne, hlt,
    if_false, Bool.false_eq_true]
  split <;> rfl

end Scan

/-- The outcomes of one round of `process_links`. Ordinary frames are skipped on
link 1 and, unless link 1 has the expected or a late packet, on link 2; then at
most one packet is consumed or discarded. The loop is left when one link is empty
and the other one is ahead of the expected number. -/
inductive Round (c : RecombinationConf) (s : Recombination) :
    RecResult (Recombination × Bool) → Prop where
  | consume {t : Recombination} {i : LinkNo} {p : TsPacket} {rest : List TsPacket} {h : HaHeader}
      (ht : t = skipped c .one s ∧ i = .one ∨ t = skipped c .two (skipped c .one s))
      (hbuf : t.buffer i = p :: rest) (hhead : c.hybridAccess.getHeader p.packet = some h)
      (hguard : LinksGuard c t i h) :
      Round c s ((deliver c i p.packet h (t.dequeue i)).map fun s' => (s', false))
  | discard {t : Recombination} {i : LinkNo} {p : TsPacket} {rest : List TsPacket} {h : HaHeader}
      (ht : t = skipped c .one s ∧ i = .one ∨ t = skipped c .two (skipped c .one s))
      (hbuf : t.buffer i = p :: rest) (hhead : c.hybridAccess.getHeader p.packet = some h)
      (hlate : h.seqNo < t.nextSeqNo) :
      Round c s (.ok ((t.dequeue i).free i p.packet .late, false))
  | drained (h₁ : (skipped c .two (skipped c .one s)).buffer .one = [])
      (h₂ : (skipped c .two (skipped c .one s)).buffer .two = []) :
      Round c s (.ok (skipped c .two (skipped c .one s), false))
  | wait {i : LinkNo} {h : HaHeader}
      (hempty : (skipped c .two (skipped c .one s)).buffer i = [])
      (hhead : headHeader c (skipped c .two (skipped c .one s)) i.other = some h)
      (hahead : s.nextSeqNo < h.seqNo) :
      Round c s (.ok (skipped c .two (skipped c .one s), true))

/-- The rest of a round, once both links have been scanned. -/
def serve (c : RecombinationConf) : RecResult Scan → RecResult (Recombination × Bool)
  | .error e => .error e
  | .ok sc =>
    match sc.buffered with
    | none => .ok (sc.state, false)
    | some (haHeader, i) =>
      if sc.existsEmptyLink then .ok (sc.state, true)
      else
        match processPacket c i (some haHeader) sc.state with
        | .ok s => .ok (s, false)
        | .error e => .error e

theorem processRound_of_scan {sc : Scan} (h : scanLink c .one ⟨s, none, false, false⟩ = .ok sc) :
    processRound c s = serve c (scanLink c .two sc) := by
  rw [processRound, h]
  rfl

/-- A packet on link 2 that is not ahead is consumed or discarded, whatever the scan
of link 1 has found. -/
theorem round_of_not_ahead {buffered : Option (HaHeader × LinkNo)} {empty : Bool}
    (hbuf : (skipped c .two (skipped c .one s)).buffer .two = p :: rest)
    (hh : c.hybridAccess.getHeader p.packet = some h) (hle : h.seqNo ≤ s.nextSeqNo) :
    Round c s (serve c (scanLink c .two ⟨skipped c .one s, buffered, empty, false⟩)) := by
  rcases Nat.lt_or_eq_of_le hle with hlt | heq
  · rw [scanLink_late _ rfl hbuf hh (by simpa using hlt)]
    exact .discard (Or.inr rfl) hbuf hh (by simpa using hlt)
  · have hround : Round c s _ := .consume (Or.inr rfl) hbuf hh (Or.inl (by simpa using heq))
    rw [scanLink_expected _ rfl hbuf hh (by simpa using heq)]
    revert hround
    cases deliver c .two p.packet h ((skipped c .two (skipped c .one s)).dequeue .two) <;>
      exact id

/-- With a header ahead of the expected number on both links the lower one is
served, that of link 1 on a tie. -/
theorem round_of_both_ahead {q : TsPacket} {rest' : List TsPacket} {g : HaHeader}
    (hbuf₁ : (skipped c .two (skipped c .one s)).buffer .one = p :: rest)
    (hh : c.hybridAccess.getHeader p.packet = some h) (hgt : s.nextSeqNo < h.seqNo)
    (hbuf₂ : (skipped c .two (skipped c .one s)).buffer .two = q :: rest')
    (hg : c.hybridAccess.getHeader q.packet = some g) (hgt' : s.nextSeqNo < g.seqNo) :
    Round c s (serve c (scanLink c .two ⟨skipped c .one s, some (h, .one), false, false⟩)) := by
  rw [scanLink_ahead _ rfl hbuf₂ hg (by simpa using hgt')]
  by_cases hlow : g.seqNo < h.seqNo
  · have hround : Round c s _ := .consume (Or.inr rfl) hbuf₂ hg
      (Or.inr ⟨by simpa using hgt', h, (headHeader_cons hbuf₁).trans hh, by simpa using hgt,
        by omega⟩)
    simp only [serve, Option.all_some, hlow, decide_true, if_true, processPacket_some hbuf₂]
    revert hround
    cases deliver c .two q.packet g ((skipped c .two (skipped c .one s)).dequeue .two) <;>
      exact id
  · have hround : Round c s _ := .consume (Or.inr rfl) hbuf₁ hh
      (Or.inr ⟨by simpa using hgt, g, (headHeader_cons hbuf₂).trans hg, by simpa using hgt',
        by omega⟩)
    simp only [serve, Option.all_some, hlow, decide_false, Bool.false_eq_true, if_false,
      processPacket_some hbuf₁]
    revert hround
    cases deliver c .one p.packet h ((skipped c .two (skipped c .one s)).dequeue .one) <;>
      exact id

/-- The inversion lemma of one round. -/
theorem processRound_round (c : RecombinationConf) (s : Recombination) :
    Round c s (processRound c s) := by
  have hone : (skipped c .two (skipped c .one s)).buffer .one = (skipped c .one s).buffer .one :=
    skipped_buffer_of_ne (by decide)
  cases h₁ : headHeader c (skipped c .one s) .one with
  | none =>
    have hempty₁ := skipped_settled.2 h₁
    rw [processRound_of_scan (scanLink_empty ⟨s, none, false, false⟩ rfl h₁)]
    cases h₂ : headHeader c (skipped c .two (skipped c .one s)) .two with
    | none =>
      rw [scanLink_empty _ rfl h₂]
      exact .drained (hone.trans hempty₁) (skipped_settled.2 h₂)
    | some h =>
      -- only link 2 has a packet
      obtain ⟨p, rest, hbuf, hh⟩ := headHeader_eq_some h₂
      rcases Nat.lt_or_ge s.nextSeqNo h.seqNo with hgt | hle
      · rw [scanLink_ahead _ rfl hbuf hh (by simpa using hgt)]
        exact .wait (hone.trans hempty₁) h₂ hgt
      · exact round_of_not_ahead hbuf hh hle
  | some h =>
    obtain ⟨p, rest, hbuf, hh⟩ := headHeader_eq_some h₁
    rcases Nat.lt_trichotomy h.seqNo s.nextSeqNo with hlt | heq | hgt
    · -- a late or an expected packet on link 1 ends the round before link 2 is looked at
      rw [processRound_of_scan (scanLink_late ⟨s, none, false, false⟩ rfl hbuf hh hlt), scanLink_left]
      · exact .discard (Or.inl ⟨rfl, rfl⟩) hbuf hh (by simpa using hlt)
      · rfl
    · have hround : Round c s _ := .consume (Or.inl ⟨rfl, rfl⟩) hbuf hh (Or.inl (by simpa using heq))
      simp only [processRound, scanLink_expected ⟨s, none, false, false⟩ rfl hbuf hh heq]
      revert hround
      cases deliver c .one p.packet h ((skipped c .one s).dequeue .one) with
      | ok s' =>
        exact id
      | error e => exact id
    · have hbuf₁ := hone.trans hbuf
      rw [processRound_of_scan (scanLink_ahead ⟨s, none, false, false⟩ rfl hbuf hh hgt)]
      cases h₂ : headHeader c (skipped c .two (skipped c .one s)) .two with
      | none =>
        rw [scanLink_empty _ rfl h₂]
        exact .wait (skipped_settled.2 h₂) ((headHeader_cons hbuf₁).trans hh) hgt
      | some g =>
        obtain ⟨q, rest', hbuf₂, hg⟩ := headHeader_eq_some h₂
        rcases Nat.lt_or_ge s.nextSeqNo g.seqNo with hgt' | hle
        · exact round_of_both_ahead hbuf₁ hh hgt hbuf₂ hg hgt'
        · exact round_of_not_ahead hbuf₂ hg hle

theorem moves_of_scanned (G : Recombination → LinkNo → HaHeader → Prop)
    (ht : t = skipped c .one s ∧ i = .one ∨ t = skipped c .two (skipped c .one s)) :
    ReflTransGen (Move c G) (skipped c .one s) t := by
  rcases ht with ⟨rfl, -⟩ | rfl
  · exact .refl
  · exact skipped_moves G

theorem Round.reaches_from_skipped (h : Round c s r) :
    Reaches c (LinksGuard c) (fun _ => False) (skipped c .one s) (r.map Prod.fst) := by
  cases h with
  | @consume t i p rest h ht hbuf hhead hguard =>
    refine Reaches.of_moves (moves_of_scanned _ ht) ?_
    cases hd : deliver c i p.packet h (t.dequeue i) with
    | ok s' => exact ReflTransGen.single (.consume hbuf hhead hguard hd)
    | error e => exact ⟨t, .refl, .consume hbuf hhead hguard hd⟩
  | discard ht hbuf hhead hlate =>
    refine Reaches.of_moves (moves_of_scanned _ ht) ?_
    exact ReflTransGen.single (.discard hbuf hhead hlate)
  | drained _ _ | wait _ _ _ => exact moves_of_scanned (i := .two) _ (Or.inr rfl)

theorem Round.reaches (h : Round c s r) :
    Reaches c (LinksGuard c) (fun _ => False) s (r.map Prod.fst) :=
  Reaches.of_moves (skipped_moves _) h.reaches_from_skipped

theorem processLinksLoop_reaches (n : Nat) (s : Recombination) :
    Reaches c (LinksGuard c) (fun _ => False) s (processLinksLoop c n s) := by
  induction n generalizing s with
  | zero => exact ReflTransGen.refl
  | succ n ih =>
    rw [processLinksLoop]
    split
    · exact ReflTransGen.refl
    · have hround := (processRound_round c s).reaches
      revert hround
      cases processRound c s with
      | error e => exact id
      | ok r =>
        obtain ⟨s', brk⟩ := r
        intro hround
        cases brk with
        | true => exact hround
        | false => exact Reaches.of_moves hround (ih s')

/-- `process_links` makes moves under its guard, and it raises only when
decapsulation fails. -/
theorem processLinks_reaches (c : RecombinationConf) (s : Recombination) :
    Reaches c (LinksGuard c) (fun _ => False) s (processLinks c s) :=
  processLinksLoop_reaches _ s

/-! ## `process_timeout` -/

/-- The inner loop delivers the packets of link `j` below the reference header,
which is the head of the other link, and leaves that link alone. -/
theorem processLower_spec {refHeader : Option HaHeader} (hT : T p)
    (hhead : c.hybridAccess.getHeader p.packet = refHeader) :
    ∀ (n : Nat) (otherHeader : Option HaHeader) (s : Recombination),
      s.buffer j.other = p :: rest → (s.buffer j).length ≤ n → Settled c s j otherHeader →
      match processLower c j refHeader n otherHeader s with
      | .error (_, s'') =>
        ∃ s', ReflTransGen (Move c (TimeoutGuard c)) s s' ∧ Fails c (TimeoutGuard c) T s' s''
      | .ok (otherHeader', s') =>
        ReflTransGen (Move c (TimeoutGuard c)) s s' ∧ s'.buffer j.other = p :: rest ∧
          Settled c s' j otherHeader' ∧
          ∀ ref, refHeader = some ref → ∀ o, otherHeader' = some o → ref.seqNo ≤ o.seqNo := by
  intro n
  -- the bound `n` on the buffer decreases with each packet that is delivered
  induction n with
  | zero =>
    intro otherHeader s hbuf hlen hset
    have hnil : s.buffer j = [] := eq_nil_of_length_eq_zero (Nat.le_zero.mp hlen)
    have hnone : otherHeader = none := by rw [hset.1, headHeader, hnil]; rfl
    refine ⟨.refl, hbuf, hset, ?_⟩
    rintro ref - o ho
    rw [hnone] at ho
    cases ho
  | succ n ih =>
    intro otherHeader s hbuf hlen hset
    cases otherHeader with
    | none => exact ⟨.refl, hbuf, hset, by simp⟩
    | some o =>
      cases hr : refHeader with
      | none =>
        -- the due packet is an ordinary frame: the comparison indexes `nil`
        exact ⟨s, .refl, .ordinary hbuf (hhead.trans hr) hT (Or.inl rfl)⟩
      | some ref =>
        by_cases hlow : o.seqNo < ref.seqNo
        · -- the lower packet is consumed, and the loop goes on with a shorter buffer
          simp only [processLower, hlow]
          obtain ⟨q, rest', hq, ho⟩ := headHeader_eq_some hset.1.symm
          have hguard : TimeoutGuard c s j o :=
            Or.inr ⟨ref, (headHeader_cons hbuf).trans (hhead.trans hr), by omega⟩
          rw [processPacket_some hq]
          cases hd : deliver c j q.packet o (s.dequeue j) with
          | error e => exact ⟨s, .refl, .consume hq ho hguard hd⟩
          | ok s₁ =>
            have hmove : Move c (TimeoutGuard c) s s₁ := .consume hq ho hguard hd
            have hbuf₁ : s₁.buffer j = rest' := by
              rw [(deliver_ok hd).1, dequeue_buffer_self, hq]
              rfl
            have hkeep : (skipped c j s₁).buffer j.other = p :: rest := by
              rw [skipped_buffer_of_ne (LinkNo.other_ne j), (deliver_ok hd).1,
                dequeue_buffer_of_ne s (LinkNo.other_ne j), hbuf]
            have hshort : ((skipped c j s₁).buffer j).length ≤ n := by
              have h₁ := (moves_suffix (skipped_moves (c := c) (i := j) (s := s₁)
                (fun _ _ _ => True)) j).length_le
              rw [hq, length_cons] at hlen
              rw [hbuf₁] at h₁
              omega
            have hrec := ih (headHeader c (skipped c j s₁) j) (skipped c j s₁) hkeep hshort
              skipped_settled
            rw [hr] at hrec
            have hpre : ReflTransGen (Move c (TimeoutGuard c)) s (skipped c j s₁) :=
              ReflTransGen.head hmove (skipped_moves _)
            simp only [readNext_eq]
            revert hrec
            cases processLower c j (some ref) n (headHeader c (skipped c j s₁) j)
                (skipped c j s₁) with
            | error e =>
              rintro ⟨s', hs', hfail⟩
              exact ⟨s', hpre.trans hs', hfail⟩
            | ok r =>
              rintro ⟨hs', hrest⟩
              exact ⟨hpre.trans hs', hrest⟩
        · simp only [processLower, hlow]
          refine ⟨.refl, hbuf, hset, ?_⟩
          intro ref' href' o' ho'
          cases href'
          cases ho'
          omega

/-- One round of the outer loop on a due packet, once the header of the other link has
been read: it delivers what is lower on the other link and then the packet itself. -/
theorem timeoutRound_spec {header : Option HaHeader} (hdue : p.timestamp ≤ now)
    (hbuf : s.buffer i = p :: rest) (hset : Settled c s i.other header) :
    match processLower c i.other (c.hybridAccess.getHeader p.packet)
        (s.buffer i.other).length header s with
    | .error e => Reaches c (TimeoutGuard c) (fun p => p.timestamp ≤ now) s (.error e)
    | .ok (header', s₂) =>
      match processPacket c i (c.hybridAccess.getHeader p.packet) s₂ with
      | .error e => Reaches c (TimeoutGuard c) (fun p => p.timestamp ≤ now) s (.error e)
      | .ok s' =>
        ReflTransGen (Move c (TimeoutGuard c)) s s' ∧ s'.buffer i = rest ∧
          Settled c s' i.other header' := by
  have hlower := processLower_spec (j := i.other) (T := fun p => p.timestamp ≤ now) hdue rfl
    (s.buffer i.other).length header s (by rwa [LinkNo.other_other]) (Nat.le_refl _) hset
  rw [LinkNo.other_other] at hlower
  revert hlower
  cases processLower c i.other (c.hybridAccess.getHeader p.packet)
      (s.buffer i.other).length header s with
  | error e => exact id
  | ok r =>
    obtain ⟨header₂, s₂⟩ := r
    rintro ⟨hmoves, hkeep, hset₂, hlow⟩
    dsimp only
    cases hh : c.hybridAccess.getHeader p.packet with
    | none =>
      -- `ha_header.seq_no` of an ordinary frame
      simp only [processPacket, hkeep]
      exact ⟨s₂, hmoves, .ordinary hkeep hh hdue (Or.inr rfl)⟩
    | some ref =>
      have hguard : TimeoutGuard c s₂ i ref := by
        cases hheader : header₂ with
        | none => exact Or.inl (hset₂.2 hheader)
        | some o => exact Or.inr ⟨o, by rw [← hset₂.1, hheader], hlow ref hh o hheader⟩
      rw [processPacket_some hkeep]
      cases hd : deliver c i p.packet ref (s₂.dequeue i) with
      | error e => exact ⟨s₂, hmoves, .consume hkeep hh hguard hd⟩
      | ok s₃ =>
        have hbuf₃ := (deliver_ok hd).1
        have hother : s₃.buffer i.other = s₂.buffer i.other := by
          rw [hbuf₃, dequeue_buffer_of_ne s₂ (LinkNo.other_ne i)]
        refine ⟨hmoves.tail (.consume hkeep hh hguard hd), ?_, ?_, ?_⟩
        · rw [hbuf₃, dequeue_buffer_self, hkeep]
          rfl
        · rw [hset₂.1, headHeader, headHeader, hother]
        · exact fun hn => hother.trans (hset₂.2 hn)

/-- What the loop over link `i` returns is reached by moves under the guard of
`process_timeout`, and the packet it stops at is not due. It raises only on a
due ordinary frame, or when decapsulation fails. -/
theorem timeoutLoop_spec (c : RecombinationConf) (now : Nat) (i : LinkNo) :
    ∀ (n : Nat) (init : Bool) (otherHeader : Option HaHeader) (s : Recombination),
      (s.buffer i).length ≤ n → (init = false → Settled c s i.other otherHeader) →
      Reaches c (TimeoutGuard c) (fun p => p.timestamp ≤ now) s
        (timeoutLoop c now i n init otherHeader s) ∧
      ∀ s', timeoutLoop c now i n init otherHeader s = .ok s' →
        ∀ p ∈ (s'.buffer i).head?, now < p.timestamp := by
  intro n
  induction n with
  | zero =>
    intro init otherHeader s hlen _
    have hnil : s.buffer i = [] := eq_nil_of_length_eq_zero (Nat.le_zero.mp hlen)
    refine ⟨ReflTransGen.refl, ?_⟩
    rintro s' hs'
    cases hs'
    simp [hnil]
  | succ n ih =>
    intro init otherHeader s hlen hset
    cases hbuf : s.buffer i with
    | nil =>
      simp only [timeoutLoop, hbuf]
      refine ⟨ReflTransGen.refl, ?_⟩
      rintro s' hs'
      cases hs'
      simp [hbuf]
    | cons p rest =>
      simp only [timeoutLoop, hbuf]
      split
      case isFalse hnot =>
        refine ⟨ReflTransGen.refl, ?_⟩
        rintro s' hs'
        cases hs'
        simp [hbuf]
        omega
      case isTrue hdue =>
        -- the state and the header of the other link once they have been read
        obtain ⟨header, s₁, heq, hmoves, hkeep, hset₁⟩ : ∃ header s₁,
            (if init = true then readNextHybridAccessPkt c i.other s else (otherHeader, s)) =
              (header, s₁) ∧
            ReflTransGen (Move c (TimeoutGuard c)) s s₁ ∧ s₁.buffer i = p :: rest ∧
            Settled c s₁ i.other header := by
          cases init with
          | true =>
            exact ⟨_, _, rfl, skipped_moves _,
              (skipped_buffer_of_ne (LinkNo.ne_other i)).trans hbuf, skipped_settled⟩
          | false => exact ⟨_, _, rfl, .refl, hbuf, hset rfl⟩
        rw [heq]
        have hround := timeoutRound_spec hdue hkeep hset₁
        revert hround
        cases processLower c i.other (c.hybridAccess.getHeader p.packet)
            (s₁.buffer i.other).length header s₁ with
        | error e => exact fun hfail => ⟨Reaches.of_moves hmoves hfail, by simp⟩
        | ok r =>
          obtain ⟨header₂, s₂⟩ := r
          dsimp only
          cases processPacket c i (c.hybridAccess.getHeader p.packet) s₂ with
          | error e => exact fun hfail => ⟨Reaches.of_moves hmoves hfail, by simp⟩
          | ok s₃ =>
            rintro ⟨hmoves₃, hrest, hset₃⟩
            have hlen₃ : (s₃.buffer i).length ≤ n := by
              rw [hbuf] at hlen
              rw [hrest]
              exact Nat.le_of_succ_le_succ hlen
            obtain ⟨hreach, hdone⟩ := ih false header₂ s₃ hlen₃ fun _ => hset₃
            exact ⟨Reaches.of_moves (hmoves.trans hmoves₃) hreach, hdone⟩

/-- `process_timeout` makes moves under its guard. It raises only on a due
ordinary frame, or when decapsulation fails. -/
theorem processTimeout_reaches (c : RecombinationConf) (now : Nat) (s : Recombination) :
    Reaches c (TimeoutGuard c) (fun p => p.timestamp ≤ now) s (processTimeout c now s) := by
  rw [processTimeout]
  have hone := (timeoutLoop_spec c now .one _ true none s (Nat.le_refl _) nofun).1
  revert hone
  cases timeoutLoop c now .one (s.buffer .one).length true none s with
  | error e => exact id
  | ok s₁ =>
    intro hone
    exact Reaches.of_moves hone
      (timeoutLoop_spec c now .two _ true none s₁ (Nat.le_refl _) nofun).1

theorem processTimeout_eq_ok (h : processTimeout c now s = .ok s') :
    ∃ s₁, timeoutLoop c now .one (s.buffer .one).length true none s = .ok s₁ ∧
      timeoutLoop c now .two (s₁.buffer .two).length true none s₁ = .ok s' := by
  rw [processTimeout] at h
  cases hone : timeoutLoop c now .one (s.buffer .one).length true none s with
  | error e =>
    rw [hone] at h
    cases h
  | ok s₁ =>
    rw [hone] at h
    exact ⟨s₁, rfl, h⟩

end Recombination

end Snabb
