import Snabb.HybridAccess.Recombination.Model
import Snabb.HybridAccess.StaleMemory

/-!
# The recombination and the memory behind its packets

Two recombinations are handed packets with the same bytes, in memory that may hold anything else
behind them. Where the bytes decide which packets have a header, the two do the same.

The relation `Related` between the two states is kept by every function of `recombination.lua`, one
lemma for each: the packets in corresponding places of buffers and links have the same bytes, and
all else is equal.

- `push_related`: one push;
- `recombination_memory`: whole runs, and which packets the bytes decide.
-/

namespace Snabb

open Foundation List Packet

namespace Recombination

/-- Buffered packets that correspond, and whose bytes decide whether there is a header. -/
structure Waiting (c : Codec) (B : Nat → Nat → Prop) (a b : TsPacket) : Prop where
  packet : Alike B a.packet b.packet
  timestamp : a.timestamp = b.timestamp
  determined : c.Determined a.packet

/-- The same state, up to the memory of the packets. -/
structure Related (c : Codec) (B : Nat → Nat → Prop) (s t : Recombination) : Prop where
  nextSeqNo : s.nextSeqNo = t.nextSeqNo
  buffer : ∀ i, List.Forall₂ (Waiting c B) (s.buffer i) (t.buffer i)
  output : List.Forall₂ (Alike B) s.output.packets t.output.packets
  sent : List.Forall₂ (fun a b => a.1 = b.1 ∧ Alike B a.2 b.2) s.sent t.sent
  freed : List.Forall₂ (fun a b => a.1 = b.1 ∧ Alike B a.2.1 b.2.1 ∧ a.2.2 = b.2.2) s.freed t.freed
  consumed : s.consumed = t.consumed

/-- The same error, and the same state is left. -/
def SameRaise (c : Codec) (B : Nat → Nat → Prop) (e e' : Raise × Recombination) : Prop :=
  e.1 = e'.1 ∧ Related c B e.2 e'.2

/-- Both return with related values, or both raise the same. -/
abbrev SameEnd {α : Type} (c : Codec) (B : Nat → Nat → Prop) (R : α → α → Prop) :
    RecResult α → RecResult α → Prop := Agree R (SameRaise c B)

variable {c : RecombinationConf} {B : Nat → Nat → Prop} {s t : Recombination} {p q : Packet}
  {i : LinkNo}

section Queues

variable {d : Codec}

section

variable (h : Related d B s t)
include h

theorem Related.free (hp : Alike B p q) (i : LinkNo) (reason : FreeReason) :
    Related d B (s.free i p reason) (t.free i q reason) where
  nextSeqNo := h.nextSeqNo
  buffer := h.buffer
  output := h.output
  sent := h.sent
  freed := rel_append h.freed (.cons ⟨rfl, hp, rfl⟩ .nil)
  consumed := h.consumed

theorem Related.transmit (hp : Alike B p q) (i : LinkNo) :
    Related d B (s.transmit i p) (t.transmit i q) := by
  have hfull : s.output.full ↔ t.output.full := by
    rw [Link.full, Link.full, Link.nreadable, Link.nreadable, h.output.length_eq]
  by_cases hs : s.output.full
  · rw [Recombination.transmit, Recombination.transmit, if_pos hs, if_pos (hfull.mp hs)]
    exact h.free hp i .txdrop
  · rw [Recombination.transmit, Recombination.transmit, if_neg hs, if_neg (mt hfull.mpr hs)]
    refine ⟨h.nextSeqNo, h.buffer, ?_, rel_append h.sent (.cons ⟨rfl, hp⟩ .nil), h.freed,
      h.consumed⟩
    rw [Link.packets_transmit hs, Link.packets_transmit (mt hfull.mpr hs)]
    exact rel_append h.output (.cons hp .nil)

theorem Related.update {buf buf' : List TsPacket} (hbuf : List.Forall₂ (Waiting d B) buf buf') :
    Related d B { s with buffer := Function.update s.buffer i buf }
      { t with buffer := Function.update t.buffer i buf' } where
  nextSeqNo := h.nextSeqNo
  buffer j := by
    dsimp only
    by_cases hj : j = i
    · subst hj
      rw [Function.update_self, Function.update_self]
      exact hbuf
    · rw [Function.update_of_ne hj, Function.update_of_ne hj]
      exact h.buffer j
  output := h.output
  sent := h.sent
  freed := h.freed
  consumed := h.consumed

theorem Related.dequeue (i : LinkNo) : Related d B (s.dequeue i) (t.dequeue i) := by
  refine h.update ?_
  have hbuf := h.buffer i
  generalize s.buffer i = buf, t.buffer i = buf' at hbuf
  cases hbuf with
  | nil => exact .nil
  | cons _ hrest => exact hrest

end

variable {ps qs : List Packet}

theorem foldl_free_related (i : LinkNo) (reason : FreeReason)
    (hps : List.Forall₂ (Alike B) ps qs) (h : Related d B s t) :
    Related d B (ps.foldl (fun s p => s.free i p reason) s)
      (qs.foldl (fun s p => s.free i p reason) t) := by
  induction hps generalizing s t with
  | nil => exact h
  | cons hp _ ih => exact ih (h.free hp i reason)

/-- Packets that arrive. -/
structure Arriving (d : Codec) (B : Nat → Nat → Prop) (p q : Packet) : Prop where
  alike : Alike B p q
  determined : d.Determined p

theorem fetchLink_related (i : LinkNo) (timeout : Nat)
    (hps : List.Forall₂ (Arriving d B) ps qs) (h : Related d B s t) :
    Related d B (fetchLink i timeout ps s) (fetchLink i timeout qs t) := by
  induction hps generalizing s t with
  | nil => exact h
  | @cons p q ps qs hp hrest ih =>
    have hlength := (h.buffer i).length_eq
    unfold fetchLink enqueueTs
    by_cases hfull : receiveBufferSize ≤ (s.buffer i).length + 1
    · rw [if_pos hfull, if_pos (hlength ▸ hfull)]
      exact foldl_free_related i .bufferFull
        (.cons hp.alike (hrest.imp fun _ _ h => h.alike)) h
    · rw [if_neg hfull, if_neg (hlength ▸ hfull)]
      exact ih (h.update (rel_append (h.buffer i) (.cons ⟨hp.alike, rfl, hp.determined⟩ .nil)))

end Queues

theorem readNext_related (i : LinkNo) (h : Related c.hybridAccess B s t) :
    (readNextHybridAccessPkt c i s).1 = (readNextHybridAccessPkt c i t).1 ∧
      Related c.hybridAccess B (readNextHybridAccessPkt c i s).2
        (readNextHybridAccessPkt c i t).2 := by
  have hskip : ∀ {buf buf' : List TsPacket} {s t : Recombination},
      List.Forall₂ (Waiting c.hybridAccess B) buf buf' → Related c.hybridAccess B s t →
        Related c.hybridAccess B (skipOrdinary c i buf s) (skipOrdinary c i buf' t) := by
    intro buf buf' s t hbuf h
    induction hbuf generalizing s t with
    | nil => exact h
    | @cons a b buf buf' hab _ ih =>
      unfold skipOrdinary
      rw [hab.determined.getHeader_eq hab.packet.bytes]
      cases c.hybridAccess.getHeader a.packet with
      | some _ => exact h
      | none => exact ih ((h.dequeue i).transmit hab.packet i)
  have hread := hskip (h.buffer i) h
  refine ⟨?_, hread⟩
  unfold readNextHybridAccessPkt
  dsimp only
  have hbuf := hread.buffer i
  unfold headHeader
  generalize (skipOrdinary c i (s.buffer i) s).buffer i = buf,
    (skipOrdinary c i (t.buffer i) t).buffer i = buf' at hbuf
  cases hbuf with
  | nil => rfl
  | cons hab _ => exact (hab.determined.getHeader_eq hab.packet.bytes).symm

theorem deliver_agree (i : LinkNo) (header : HaHeader) (hp : Alike B p q)
    (h : Related c.hybridAccess B s t) :
    SameEnd c.hybridAccess B (Related c.hybridAccess B) (deliver c i p header s)
      (deliver c i q header t) := by
  have hnext : Related c.hybridAccess B
      { s with
        nextSeqNo := (header.seqNo + 1) % 2 ^ 64
        consumed := s.consumed ++ [header.seqNo] }
      { t with
        nextSeqNo := (header.seqNo + 1) % 2 ^ 64
        consumed := t.consumed ++ [header.seqNo] } :=
    ⟨rfl, h.buffer, h.output, h.sent, h.freed, by rw [h.consumed]⟩
  unfold deliver
  by_cases htype : header.type = hybridAccessType
  · rw [if_pos htype, if_pos htype]
    have hremove := removeHeader_agree c.hybridAccess hp header.bufType
    generalize c.hybridAccess.removeHeader p header.bufType = x,
      c.hybridAccess.removeHeader q header.bufType = y at hremove
    cases hremove with
    | ok hr => exact .ok (hnext.transmit hr i)
    | error he => exact .error ⟨he, hnext⟩
  · rw [if_neg htype, if_neg htype]
    exact .ok (hnext.free hp i .ddc)

theorem processPacket_agree (i : LinkNo) (header : Option HaHeader)
    (h : Related c.hybridAccess B s t) :
    SameEnd c.hybridAccess B (Related c.hybridAccess B) (processPacket c i header s)
      (processPacket c i header t) := by
  have hbuf := h.buffer i
  have hdequeue := h.dequeue i
  unfold processPacket
  generalize s.buffer i = buf, t.buffer i = buf' at hbuf
  cases hbuf with
  | nil => exact .error ⟨rfl, h⟩
  | cons hab _ =>
    cases header with
    | none => exact .error ⟨rfl, hdequeue⟩
    | some header => exact deliver_agree i header hab.packet hdequeue

/-! ## `process_links` -/

/-- The same locals. -/
structure SameScan (c : Codec) (B : Nat → Nat → Prop) (a b : Scan) : Prop where
  state : Related c B a.state b.state
  buffered : a.buffered = b.buffered
  existsEmptyLink : a.existsEmptyLink = b.existsEmptyLink
  left : a.left = b.left

theorem scanLink_agree (i : LinkNo) {a b : Scan} (h : SameScan c.hybridAccess B a b) :
    SameEnd c.hybridAccess B (SameScan c.hybridAccess B) (scanLink c i a) (scanLink c i b) := by
  unfold scanLink
  rw [← h.left]
  cases a.left with
  | true => exact .ok h
  | false =>
    obtain ⟨hheader, hstate⟩ := readNext_related i h.state
    generalize readNextHybridAccessPkt c i a.state = x,
      readNextHybridAccessPkt c i b.state = y at hheader hstate
    obtain ⟨header, s⟩ := x
    obtain ⟨header', t⟩ := y
    obtain rfl : header = header' := hheader
    have hst : Related c.hybridAccess B s t := hstate
    cases header with
    | none => exact .ok ⟨hst, h.buffered, rfl, rfl⟩
    | some header =>
      simp only [Bool.false_eq_true, if_false, ← hst.nextSeqNo, ← h.buffered]
      by_cases heq : header.seqNo = s.nextSeqNo
      · rw [if_pos heq, if_pos heq]
        have hprocess := processPacket_agree i (some header) hst
        generalize processPacket c i (some header) s = x,
          processPacket c i (some header) t = y at hprocess
        cases hprocess with
        | ok hnext => exact .ok ⟨hnext, rfl, h.existsEmptyLink, rfl⟩
        | error he => exact .error he
      · rw [if_neg heq, if_neg heq]
        by_cases hlate : header.seqNo < s.nextSeqNo
        · rw [if_pos hlate, if_pos hlate]
          have hbuf := hst.buffer i
          have hdequeue := hst.dequeue i
          generalize s.buffer i = buf, t.buffer i = buf' at hbuf
          cases hbuf with
          | nil => exact .error ⟨rfl, hst⟩
          | cons hab _ => exact .ok ⟨hdequeue.free hab.packet i .late, rfl, h.existsEmptyLink, rfl⟩
        · rw [if_neg hlate]
          split_ifs
          · exact .ok ⟨hst, rfl, h.existsEmptyLink, rfl⟩
          · exact .ok ⟨hst, rfl, h.existsEmptyLink, rfl⟩

/-- Related states, and the same decision to leave the loop. -/
def SameRound (c : Codec) (B : Nat → Nat → Prop) (x y : Recombination × Bool) : Prop :=
  Related c B x.1 y.1 ∧ x.2 = y.2

theorem processRound_agree (h : Related c.hybridAccess B s t) :
    SameEnd c.hybridAccess B (SameRound c.hybridAccess B) (processRound c s) (processRound c t) := by
  unfold processRound
  have hone := scanLink_agree (c := c) .one (a := ⟨s, none, false, false⟩)
    (b := ⟨t, none, false, false⟩) ⟨h, rfl, rfl, rfl⟩
  generalize scanLink c .one ⟨s, none, false, false⟩ = x,
    scanLink c .one ⟨t, none, false, false⟩ = y at hone
  cases hone with
  | error he => exact .error he
  | @ok a b hab =>
    have htwo := scanLink_agree .two hab
    dsimp only
    generalize scanLink c .two a = x, scanLink c .two b = y at htwo
    cases htwo with
    | error he => exact .error he
    | @ok a b hab =>
      dsimp only
      rw [← hab.buffered, ← hab.existsEmptyLink]
      cases a.buffered with
      | none => exact .ok ⟨hab.state, rfl⟩
      | some best =>
        cases a.existsEmptyLink with
        | true => exact .ok ⟨hab.state, rfl⟩
        | false =>
          have hprocess := processPacket_agree best.2 (some best.1) hab.state
          dsimp only [if_false]
          generalize processPacket c best.2 (some best.1) a.state = x,
            processPacket c best.2 (some best.1) b.state = y at hprocess
          cases hprocess with
          | ok hnext => exact .ok ⟨hnext, rfl⟩
          | error he => exact .error he

theorem isEmpty_buffer (h : Related c.hybridAccess B s t) (i : LinkNo) :
    (s.buffer i).isEmpty = (t.buffer i).isEmpty := by
  have hbuf := h.buffer i
  generalize s.buffer i = buf, t.buffer i = buf' at hbuf
  cases hbuf with
  | nil => rfl
  | cons _ _ => rfl

theorem processLinksLoop_agree (n : Nat) (h : Related c.hybridAccess B s t) :
    SameEnd c.hybridAccess B (Related c.hybridAccess B) (processLinksLoop c n s)
      (processLinksLoop c n t) := by
  induction n generalizing s t with
  | zero => exact .ok h
  | succ n ih =>
    unfold processLinksLoop
    rw [isEmpty_buffer h .one, isEmpty_buffer h .two]
    split_ifs
    · exact .ok h
    · have hround := processRound_agree h
      generalize processRound c s = x, processRound c t = y at hround
      cases hround with
      | error he => exact .error he
      | @ok a b hab =>
        obtain ⟨s', left⟩ := a
        obtain ⟨t', left'⟩ := b
        obtain ⟨hst, rfl⟩ : Related c.hybridAccess B s' t' ∧ left = left' := hab
        cases left with
        | true => exact .ok hst
        | false => exact ih hst

/-! ## `process_timeout` -/

/-- The same header of the other link. -/
def SameOther (c : Codec) (B : Nat → Nat → Prop) (x y : Option HaHeader × Recombination) : Prop :=
  x.1 = y.1 ∧ Related c B x.2 y.2

theorem processLower_agree (j : LinkNo) (ref : Option HaHeader) (n : Nat)
    (other : Option HaHeader) (h : Related c.hybridAccess B s t) :
    SameEnd c.hybridAccess B (SameOther c.hybridAccess B) (processLower c j ref n other s)
      (processLower c j ref n other t) := by
  induction n generalizing other s t with
  | zero => exact .ok ⟨rfl, h⟩
  | succ n ih =>
    cases other with
    | none => exact .ok ⟨rfl, h⟩
    | some other =>
      unfold processLower
      cases ref with
      | none => exact .error ⟨rfl, h⟩
      | some ref =>
        dsimp only
        by_cases hlower : other.seqNo < ref.seqNo
        · rw [if_pos hlower, if_pos hlower]
          have hprocess := processPacket_agree j (some other) h
          generalize processPacket c j (some other) s = x,
            processPacket c j (some other) t = y at hprocess
          cases hprocess with
          | error he => exact .error he
          | @ok s' t' hst =>
            obtain ⟨hheader, hnext⟩ := readNext_related j hst
            dsimp only
            rw [hheader]
            exact ih _ hnext
        · rw [if_neg hlower, if_neg hlower]
          exact .ok ⟨rfl, h⟩

theorem timeoutLoop_agree (now : Nat) (i : LinkNo) (n : Nat) (init : Bool)
    (other : Option HaHeader) (h : Related c.hybridAccess B s t) :
    SameEnd c.hybridAccess B (Related c.hybridAccess B) (timeoutLoop c now i n init other s)
      (timeoutLoop c now i n init other t) := by
  induction n generalizing init other s t with
  | zero => exact .ok h
  | succ n ih =>
    unfold timeoutLoop
    have hbuf := h.buffer i
    generalize s.buffer i = buf, t.buffer i = buf' at hbuf
    cases hbuf with
    | nil => exact .ok h
    | @cons a b _ _ hab _ =>
      dsimp only
      rw [← hab.timestamp, hab.determined.getHeader_eq hab.packet.bytes]
      by_cases hdue : a.timestamp ≤ now
      · rw [if_pos hdue, if_pos hdue]
        -- With or without a look at the other link, the header is the same.
        have hother : SameOther c.hybridAccess B
            (if init then readNextHybridAccessPkt c i.other s else (other, s))
            (if init then readNextHybridAccessPkt c i.other t else (other, t)) := by
          cases init with
          | true => exact readNext_related i.other h
          | false => exact ⟨rfl, h⟩
        generalize (if init then readNextHybridAccessPkt c i.other s else (other, s)) = x,
          (if init then readNextHybridAccessPkt c i.other t else (other, t)) = y at hother
        obtain ⟨other', s'⟩ := x
        obtain ⟨other'', t'⟩ := y
        obtain ⟨rfl, hst⟩ : other' = other'' ∧ Related c.hybridAccess B s' t' := hother
        rw [(hst.buffer i.other).length_eq]
        have hlower := processLower_agree i.other (c.hybridAccess.getHeader a.packet)
          (t'.buffer i.other).length other' hst
        generalize processLower c i.other (c.hybridAccess.getHeader a.packet)
            (t'.buffer i.other).length other' s' = x,
          processLower c i.other (c.hybridAccess.getHeader a.packet)
            (t'.buffer i.other).length other' t' = y at hlower
        cases hlower with
        | error he => exact .error he
        | @ok x y hxy =>
          obtain ⟨other₁, s₁⟩ := x
          obtain ⟨other₂, t₁⟩ := y
          obtain ⟨rfl, hst⟩ : other₁ = other₂ ∧ Related c.hybridAccess B s₁ t₁ := hxy
          have hprocess := processPacket_agree i (c.hybridAccess.getHeader a.packet) hst
          dsimp only
          generalize processPacket c i (c.hybridAccess.getHeader a.packet) s₁ = x,
            processPacket c i (c.hybridAccess.getHeader a.packet) t₁ = y at hprocess
          cases hprocess with
          | error he => exact .error he
          | ok hst => exact ih false other₁ hst
      · rw [if_neg hdue, if_neg hdue]
        exact .ok h

theorem processTimeout_agree (now : Nat) (h : Related c.hybridAccess B s t) :
    SameEnd c.hybridAccess B (Related c.hybridAccess B) (processTimeout c now s)
      (processTimeout c now t) := by
  unfold processTimeout
  have hone := timeoutLoop_agree (c := c) now .one (s.buffer .one).length true none h
  rw [← (h.buffer .one).length_eq]
  generalize timeoutLoop c now .one (s.buffer .one).length true none s = x,
    timeoutLoop c now .one (s.buffer .one).length true none t = y at hone
  cases hone with
  | error he => exact .error he
  | @ok s' t' hst =>
    dsimp only
    rw [(hst.buffer .two).length_eq]
    exact timeoutLoop_agree now .two _ true none hst

/-! ## Runs -/

/-- What two pushes find: the same clock, and packets with the same bytes. -/
structure SameInput (c : Codec) (B : Nat → Nat → Prop) (inp inp' : PushInput) : Prop where
  currentTime : inp.currentTime = inp'.currentTime
  taken : inp.taken = inp'.taken
  input : ∀ i, List.Forall₂ (Arriving c B) (inp.input i).packets (inp'.input i).packets

/-- **A push** of both. -/
theorem push_related {inp inp' : PushInput} (h : Related c.hybridAccess B s t)
    (hinp : SameInput c.hybridAccess B inp inp') :
    SameEnd c.hybridAccess B (Related c.hybridAccess B) (push c s inp) (push c t inp') := by
  have hdrain : Related c.hybridAccess B { s with output := s.output.drain inp.taken }
      { t with output := t.output.drain inp'.taken } := by
    rw [hinp.taken]
    exact ⟨h.nextSeqNo, h.buffer, forall₂_drop _ h.output, h.sent, h.freed, h.consumed⟩
  have hfetch := fetchLink_related .two (timeout c inp.currentTime .two) (hinp.input .two)
    (fetchLink_related .one (timeout c inp.currentTime .one) (hinp.input .one) hdrain)
  unfold push
  rw [← hinp.currentTime]
  dsimp only [processLinks, fetchLinks]
  generalize fetchLink .two _ (inp.input .two).packets _ = s',
    fetchLink .two _ (inp'.input .two).packets _ = t' at hfetch
  have hlinks := processLinksLoop_agree c.pullNpackets hfetch
  generalize processLinksLoop c c.pullNpackets s' = x,
    processLinksLoop c c.pullNpackets t' = y at hlinks
  cases hlinks with
  | error he => exact .error he
  | ok hst => exact processTimeout_agree inp.currentTime hst

theorem related_new (c : Codec) : Related c B new new :=
  ⟨rfl, fun _ => .nil, .nil, .nil, .nil, rfl⟩

/-- **Packets are classified by their bytes** exactly if the bytes decide, and a recombination that
is handed such packets does the same whatever their memory holds behind them. -/
theorem recombination_memory (c : RecombinationConf) :
    (∀ p : Packet, (∀ q : Packet, q.bytes = p.bytes →
        c.hybridAccess.getHeader q = c.hybridAccess.getHeader p) ↔ c.hybridAccess.Determined p) ∧
    ∀ (B : Nat → Nat → Prop) (inputs inputs' : List PushInput),
      List.Forall₂ (SameInput c.hybridAccess B) inputs inputs' →
        SameEnd c.hybridAccess B (Related c.hybridAccess B) (run (push c) new inputs)
          (run (push c) new inputs') := by
  refine ⟨c.hybridAccess.getHeader_iff_determined, fun B inputs inputs' hinputs => ?_⟩
  have hstep : ∀ s t inp inp', Related c.hybridAccess B s t →
      SameInput c.hybridAccess B inp inp' →
        SameEnd c.hybridAccess B (Related c.hybridAccess B) (push c s inp) (push c t inp') :=
    fun _ _ _ _ => push_related
  exact run_agree hstep (related_new c.hybridAccess) hinputs

/-- An ordinary frame, and the same frame with other memory behind it. -/
theorem recombination_memory_ordinary :
    List.Forall₂ (SameInput .eth Eq) [.finding 0 [ordinaryFrame 0] []]
        [.finding 0 [(ordinaryFrame 0).withMemory fun _ => 0xFF] []] ∧
      SameEnd .eth Eq (Related .eth Eq)
        (run (push ⟨.eth, fun _ => 0, 204⟩) new [.finding 0 [ordinaryFrame 0] []])
        (run (push ⟨.eth, fun _ => 0, 204⟩) new
          [.finding 0 [(ordinaryFrame 0).withMemory fun _ => 0xFF] []]) := by
  have harriving : Arriving .eth Eq (ordinaryFrame 0)
      ((ordinaryFrame 0).withMemory fun _ => 0xFF) :=
    ⟨⟨rfl, (bytes_withMemory _ _).symm⟩, .inl ⟨(12, 0x94), by decide, by decide, by decide⟩⟩
  have hinputs : List.Forall₂ (SameInput .eth Eq) [.finding 0 [ordinaryFrame 0] []]
      [.finding 0 [(ordinaryFrame 0).withMemory fun _ => 0xFF] []] := by
    refine .cons ⟨rfl, rfl, fun i => ?_⟩ .nil
    cases i with
    | one => exact .cons harriving .nil
    | two => exact .nil
  exact ⟨hinputs, (recombination_memory ⟨.eth, fun _ => 0, 204⟩).2 Eq _ _ hinputs⟩

/-- Frames of 14 bytes with the type of a hybrid-access packet: their header is what the memory
holds. In IP mode the memory says as well whether there is one. -/
theorem truncated_frame_reads_memory :
    (∃ p q : Packet, p.bytes = q.bytes ∧
      Codec.getHeader .eth p = some ⟨0, 0, 0⟩ ∧ Codec.getHeader .eth q = some ⟨1, 0, 1⟩) ∧
    (∃ p q : Packet, p.bytes = q.bytes ∧ Codec.getHeader (.ip ⟨none, none⟩) p = none ∧
      Codec.getHeader (.ip ⟨none, none⟩) q = some ⟨0, 0, 1⟩) := by
  constructor
  · refine ⟨.fromPointer 0 (List.replicate 12 0 ++ [0x94, 0x44]),
      (fromPointer 0 (List.replicate 12 0 ++ [0x94, 0x44])).withMemory
        fun k => if k = 14 ∨ k = 24 then 1 else 0,
      (bytes_withMemory _ _).symm, by decide, by decide⟩
  · refine ⟨.fromPointer 0 (List.replicate 12 0 ++ [0x08, 0x00]),
      (fromPointer 0 (List.replicate 12 0 ++ [0x08, 0x00])).withMemory
        fun k => if k = 23 then 0x94 else if k = 44 then 1 else 0,
      (bytes_withMemory _ _).symm, by decide, by decide⟩

end Recombination

end Snabb
