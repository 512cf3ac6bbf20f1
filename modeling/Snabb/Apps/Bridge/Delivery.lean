import Snabb.Apps.Bridge.Push

/-!
# Every packet is forwarded

A packet to a known address is sent to its port, one to an unknown address to all other ports, and
in both cases not to the split-horizon group of its ingress port. A push does so if the tables have
the order that the C code expects as far as they are used, every list for flooding that is used has a
port, and the link to the first port of a list has room.

- `push_forwards_iff`: when a push forwards the packets it takes.
-/

namespace Snabb

open List

namespace Bridge

open Foundation

variable {b : Bridge} {order : PairsOrder} {a : Before b order} {s : State} {r : Received}

/-- The ports that a packet is to be sent to. -/
def Received.egress (b : Bridge) (r : Received) : List Nat :=
  match r.me with
  | some me => if r.ip = me.port ∨ b.SameGroup r.ip me.port then [] else [me.port]
  | none => b.handlesOf.filter fun port => port ≠ r.ip ∧ ¬ b.SameGroup r.ip port

/-- Every packet was sent once to each of its ports, as it was received, and no packet is leaked or
released twice: those received and the clones are each handed over to a link or discarded. -/
structure Forwarded (a : Before b order) (s : State) : Prop where
  ports : ∀ r ∈ a.received,
    ((s.sent.filter (·.origin = r.p)).map Sent.port).Perm (r.egress b)
  intact : ∀ r ∈ a.received, ∀ e ∈ s.sent, e.origin = r.p → SameFrame e.frame (a.pkts r.p)
  origin : ∀ e ∈ s.sent, ∃ r ∈ a.received, e.origin = r.p
  released : (s.sent.map Sent.ptr ++ s.discarded).Perm
    (a.received.map Received.p ++ List.range' a.next (s.next - a.next))
  waiting : incoming b.handlesOf s.inputs =
    (incoming b.handlesOf a.inputs).drop a.received.length

/-- The ports that packets to known addresses are sent to, and those that the packets before one are
flooded to. -/
def Before.sentBefore (a : Before b order) (pre : List Received) : List Nat :=
  (a.received.filter (·.slot b = 0)).map Received.port ++
    (pre.filter (·.slot b = 1)).flatMap fun r => b.dstPorts r.ip

/-- The table that the packet is put into is one from which it gets to where it is to be sent. -/
structure Suits (b : Bridge) (order : PairsOrder) (r : Received) : Prop where
  known : r.slot b = 0 → order.kind 0 = .ucast
  unknown : r.slot b = 1 →
    (order.kind 1 = .flood ∧ b.dstPorts r.ip ≠ []) ∨
    (order.kind 1 = .ucast ∧ (b.dstPorts r.ip).length = 1) ∨
    (order.kind 1 = .discard ∧ b.dstPorts r.ip = [])
  dropped : r.slot b = 2 → order.kind 2 = .discard

/-- What the packets that are taken have to be like, with the order of the tables. -/
structure Forwardable (a : Before b order) : Prop where
  few : ∀ i, (a.received.filter (·.slot b = i)).length < 65536
  suits : ∀ r ∈ a.received, Suits b order r
  room : ∀ pre r post, a.received = pre ++ r :: post → r.slot b = 1 →
    Intact a (a.sentBefore pre) r (b.dstPorts r.ip)

/-! ## What is in the log -/

variable {work : List (Received × List Nat)} {log : List Sent}

theorem Logged.origin (h : Logged a work log) : ∀ e ∈ log, ∃ w ∈ work, e.origin = w.1.p := by
  induction h with
  | nil => exact fun e he => absurd he not_mem_nil
  | snoc h hsends ih =>
    intro e he
    rcases mem_append.mp he with he | he
    · obtain ⟨w, hw, heq⟩ := ih e he
      exact ⟨w, mem_append_left _ hw, heq⟩
    · exact ⟨_, mem_append_right _ (mem_singleton_self _), hsends.origin e he⟩

/-- **The packets of the log** that come from one that was sent. -/
theorem Logged.filter (h : Logged a work log) (hnodup : (work.map (·.1.p)).Nodup)
    {ports : List Nat} {pre post : List (Received × List Nat)}
    (hsplit : work = pre ++ (r, ports) :: post) :
    Sends a (portsOf pre) r ports (log.filter (·.origin = r.p)) := by
  induction h generalizing post with
  | nil =>
    have := congrArg List.length hsplit
    simp at this
  | @snoc work sent log r' ports' h hsends ih =>
    rw [ps_snoc] at hnodup
    have hlast : r'.p ∉ work.map (·.1.p) := by
      intro hmem
      exact (nodup_append.mp hnodup).2.2 _ hmem _ (mem_singleton_self _) rfl
    rw [filter_append]
    -- The packet is the last one, or it was sent before.
    rcases eq_nil_or_concat post with rfl | ⟨post, last, rfl⟩
    · obtain ⟨rfl, hrest⟩ := append_inj' hsplit rfl
      cases hrest
      have hnone : sent.filter (·.origin = r.p) = [] := by
        refine filter_eq_nil_iff.mpr fun e he heq => ?_
        obtain ⟨w, hw, horigin⟩ := h.origin e he
        refine hlast (mem_map.mpr ⟨w, hw, ?_⟩)
        rw [← horigin]
        exact of_decide_eq_true heq
      have hall : log.filter (·.origin = r.p) = log :=
        filter_eq_self.mpr fun e he => decide_eq_true (hsends.origin e he)
      rw [hnone, hall]
      exact hsends
    · have hsplit' : work ++ [(r', ports')] = (pre ++ (r, ports) :: post) ++ [last] := by
        rw [hsplit]
        simp
      obtain ⟨hwork, hone⟩ := append_inj' hsplit' rfl
      have hr : r.p ∈ work.map (·.1.p) := by
        rw [hwork]
        simp
      have hnone : log.filter (·.origin = r.p) = [] := by
        refine filter_eq_nil_iff.mpr fun e he heq => ?_
        rw [hsends.origin e he] at heq
        have heq : r'.p = r.p := of_decide_eq_true heq
        exact hlast (heq ▸ hr)
      rw [hnone, append_nil]
      exact ih (nodup_append.mp hnodup).1 hwork

/-- **The pointers that were handed over** are those of the packets and of their clones. -/
theorem Used.ptrs {touched ports freed : List Nat} (h : Used a touched ports freed s) :
    (s.sent.map Sent.ptr).Perm (touched ++ List.range' a.next (s.next - a.next)) := by
  rw [← h.old, ← h.fresh]
  have hneg : (s.sent.map Sent.ptr).filter (a.next ≤ ·) =
      (s.sent.map Sent.ptr).filter fun p => !decide (p < a.next) := by
    refine filter_congr fun p _ => ?_
    by_cases hp : p < a.next
    · simp [hp]
    · simp [Nat.not_lt.mp hp]
  rw [hneg]
  exact (filter_append_perm _ _).symm

/-! ## Tables and destinations -/

theorem slot_eq_of_known {me : MacEntry} (hme : r.me = some me) (hknown : Known b me) :
    r.slot b = if r.ip = me.port ∨ b.SameGroup r.ip me.port then 2 else 0 := by
  rw [Received.slot, hme]
  dsimp only
  rw [hknown.2]
  refine if_congr ?_ rfl rfl
  exact or_comm

/-- **Where a packet is to be sent** can be read off its table. -/
theorem Before.egress_eq (hr : r ∈ a.received) :
    r.egress b = match r.slot b with
      | 0 => [r.port]
      | 1 => b.dstPorts r.ip
      | 2 => [] := by
  cases hme : r.me with
  | none =>
    have hslot : r.slot b = 1 := by rw [Received.slot, hme]
    rw [hslot, Received.egress, hme]
    refine filter_congr fun port _ => ?_
    rw [decide_eq_decide, not_or]
    exact and_congr_left fun _ => ⟨Ne.symm, Ne.symm⟩
  | some me =>
    have hport : r.port = me.port := by rw [Received.port, hme]; rfl
    rw [slot_eq_of_known hme (a.received_known hr hme), Received.egress, hme, hport]
    dsimp only
    split_ifs
    · rfl
    · rfl

theorem slot_cases (i : Fin 3) : i = 0 ∨ i = 1 ∨ i = 2 := by
  revert i
  decide

/-- **A packet can be forwarded to where it is to be sent** if it is in a table that suits it. -/
theorem ports_iff (hr : r ∈ a.received) :
    (∃ ports, r.ports b order = some ports ∧ ports.Perm (r.egress b)) ↔ Suits b order r := by
  have hegress := a.egress_eq hr
  rcases slot_cases (r.slot b) with hslot | hslot | hslot
  · rw [hslot] at hegress
    have hports : r.ports b order = r.portsIn b 0 (order.kind 0) := ports_eq hslot rfl
    constructor
    · rintro ⟨ports, hsome, -⟩
      refine ⟨fun _ => ?_, fun hone => ?_, fun htwo => ?_⟩
      · rw [hports] at hsome
        cases hkind : order.kind 0 with
        | ucast => rfl
        | flood | discard =>
          rw [hkind] at hsome
          cases hsome
      · rw [hslot] at hone
        cases hone
      · rw [hslot] at htwo
        cases htwo
    · intro h
      refine ⟨[r.port], ?_, hegress ▸ .refl _⟩
      rw [hports, h.known hslot]
      rfl
  · rw [hslot] at hegress
    have hports : r.ports b order = r.portsIn b 1 (order.kind 1) := ports_eq hslot rfl
    rw [hegress, hports]
    constructor
    · rintro ⟨ports, hsome, hperm⟩
      refine ⟨fun hzero => ?_, fun _ => ?_, fun htwo => ?_⟩
      · rw [hslot] at hzero
        cases hzero
      · revert hsome
        cases order.kind 1 with
        | ucast =>
          intro hsome
          obtain ⟨d, -, rfl⟩ := Option.map_eq_some_iff.mp hsome
          exact .inr (.inl ⟨rfl, hperm.length_eq.symm⟩)
        | flood =>
          intro hsome
          refine .inl ⟨rfl, fun hempty => ?_⟩
          rw [Received.portsIn, if_pos hempty] at hsome
          cases hsome
        | discard =>
          intro hsome
          cases hsome
          exact .inr (.inr ⟨rfl, hperm.nil_eq.symm⟩)
      · rw [hslot] at htwo
        cases htwo
    · intro h
      refine ⟨b.dstPorts r.ip, ?_, .refl _⟩
      rcases h.unknown hslot with ⟨hkind, hne⟩ | ⟨hkind, hone⟩ | ⟨hkind, hempty⟩
      · rw [hkind]
        exact if_neg hne
      · obtain ⟨d, hd⟩ := length_eq_one_iff.mp hone
        rw [hkind, Received.portsIn, hd]
        rfl
      · rw [hkind, hempty]
        rfl
  · rw [hslot] at hegress
    have hports : r.ports b order = r.portsIn b 2 (order.kind 2) := ports_eq hslot rfl
    constructor
    · rintro ⟨ports, hsome, -⟩
      refine ⟨fun hzero => ?_, fun hone => ?_, fun _ => ?_⟩
      · rw [hslot] at hzero
        cases hzero
      · rw [hslot] at hone
        cases hone
      · rw [hports] at hsome
        cases hkind : order.kind 2 with
        | ucast | flood =>
          rw [hkind] at hsome
          cases hsome
        | discard => rfl
    · intro h
      refine ⟨[], ?_, hegress ▸ .refl _⟩
      rw [hports, h.dropped hslot]
      rfl

theorem Suits.ports (h : Suits b order r) (hr : r ∈ a.received) :
    ∃ ports, r.ports b order = some ports ∧ ports.Perm (r.egress b) := (ports_iff hr).mpr h

/-! ## All packets -/

variable {σ : Slots order} {rs : List Received} {i : Fin 3}

theorem Slots.cover (σ : Slots order) (i : Fin 3) : i = σ.u ∨ i = σ.f ∨ i = σ.d := by
  cases hkind : order.kind i with
  | ucast => exact .inl (order.inj (hkind.trans σ.ucast.symm))
  | flood => exact .inr (.inl (order.inj (hkind.trans σ.flood.symm)))
  | discard => exact .inr (.inr (order.inj (hkind.trans σ.discard.symm)))

theorem Slots.mem_all : r ∈ σ.all b rs ↔ r ∈ inSlot b (r.slot b) rs := by
  unfold Slots.all
  rw [mem_append, mem_append]
  constructor
  · rintro ((h | h) | h)
    · rwa [slot_of_mem_inSlot h]
    · rwa [slot_of_mem_inSlot h]
    · rwa [slot_of_mem_inSlot h]
  · intro h
    rcases σ.cover (r.slot b) with hslot | hslot | hslot
    · exact .inl (.inl (hslot ▸ h))
    · exact .inl (.inr (hslot ▸ h))
    · exact .inr (hslot ▸ h)

theorem Slots.forward_mem_tasks : .forward r ∈ σ.tasks b rs ↔ r ∈ σ.all b rs := by
  simp [Slots.tasks, Slots.all]

/-- No packet is lost. -/
def Few (b : Bridge) (rs : List Received) : Prop :=
  ∀ i, (rs.filter (·.slot b = i)).length < 65536

theorem Few.inSlot (h : Few b rs) (i : Fin 3) : inSlot b i rs = rs.filter (·.slot b = i) :=
  recent_of_lt (h i)

theorem Few.mem_all (h : Few b rs) (hr : r ∈ rs) : r ∈ σ.all b rs := by
  rw [Slots.mem_all, h.inSlot]
  exact mem_filter.mpr ⟨hr, decide_eq_true rfl⟩

/-- **The tables have all the packets.** -/
theorem Few.all_perm (h : Few b rs) (hnodup : (rs.map Received.p).Nodup) :
    (σ.all b rs).Perm rs := by
  refine (perm_ext_iff_of_nodup ?_ ?_).mpr fun r => ⟨fun hr => σ.all_subset hr, h.mem_all⟩
  · exact List.Nodup.of_map _ (σ.all_nodup hnodup)
  · exact List.Nodup.of_map _ hnodup

theorem Before.received_inj {r' : Received} (hr : r ∈ a.received) (hr' : r' ∈ a.received)
    (hp : r.p = r'.p) : r = r' := inj_on_of_nodup_map a.received_nodup hr hr' hp

theorem Slots.work_nodup (σ : Slots order) (a : Before b order) :
    (((inSlot b σ.u a.received ++ inSlot b σ.f a.received).map (sends b order)).map
      (·.1.p)).Nodup := by
  rw [ps_sends]
  have hall := σ.all_nodup (b := b) a.received_nodup
  rw [Slots.all, map_append] at hall
  exact (nodup_append.mp hall).1

section Pushed

variable (h : Pushed σ a s)
include h

/-- **A packet that is lost is leaked.** -/
theorem Pushed.few (hreleased : ∀ r ∈ a.received, r.p ∈ s.sent.map Sent.ptr ++ s.discarded) :
    Few b a.received := by
  intro i
  by_contra hmany
  rw [Nat.not_lt] at hmany
  obtain ⟨x, l, hl⟩ : ∃ x l, a.received.filter (·.slot b = i) = x :: l := by
    refine exists_cons_of_ne_nil fun hempty => ?_
    rw [hempty] at hmany
    exact absurd hmany (by decide)
  have hnodup : (a.received.filter (·.slot b = i)).Nodup :=
    (List.Nodup.of_map _ a.received_nodup).sublist filter_sublist
  have hx : x ∈ a.received.filter (·.slot b = i) := hl ▸ mem_cons_self
  obtain ⟨hmem, hslot⟩ := mem_filter.mp hx
  have hlost : x ∉ inSlot b i a.received := by
    unfold Bridge.inSlot
    rw [hl]
    rw [hl] at hnodup hmany
    exact head_notMem_recent (by decide) hnodup hmany
  have hfound : ∀ y ∈ σ.all b a.received, y.p ≠ x.p := by
    intro y hy hp
    have heq := a.received_inj (σ.all_subset hy) hmem hp
    rw [heq, Slots.mem_all, of_decide_eq_true hslot] at hy
    exact hlost hy
  rcases mem_append.mp (hreleased x hmem) with hsent | hdiscarded
  · have hold : x.p ∈ (s.sent.map Sent.ptr).filter (· < a.next) :=
      mem_filter.mpr ⟨hsent, decide_eq_true (a.received_inUse hmem)⟩
    rw [h.forwarding.used.old, ps_sends] at hold
    obtain ⟨y, hy, hp⟩ := mem_map.mp hold
    exact hfound y (mem_append_left _ hy) hp
  · rw [h.forwarding.used.discarded] at hdiscarded
    obtain ⟨y, hy, hp⟩ := mem_map.mp hdiscarded
    exact hfound y (mem_append_right _ hy) hp

theorem Pushed.released (hfew : Few b a.received) :
    (s.sent.map Sent.ptr ++ s.discarded).Perm
      (a.received.map Received.p ++ List.range' a.next (s.next - a.next)) := by
  have hall : ((σ.all b a.received).map Received.p).Perm (a.received.map Received.p) :=
    (hfew.all_perm a.received_nodup).map _
  have hptrs := h.forwarding.used.ptrs
  rw [ps_sends] at hptrs
  rw [h.forwarding.used.discarded]
  refine (hptrs.append_right _).trans (List.Perm.trans ?_ (hall.append_right _))
  have hsplit : (σ.all b a.received).map Received.p =
      (inSlot b σ.u a.received ++ inSlot b σ.f a.received).map Received.p ++
        (inSlot b σ.d a.received).map Received.p := map_append
  rw [hsplit, append_assoc, append_assoc]
  exact perm_append_comm.append_left _

theorem Pushed.origin : ∀ e ∈ s.sent, ∃ r ∈ a.received, r.slot b ≠ σ.d ∧ e.origin = r.p := by
  intro e he
  obtain ⟨w, hw, horigin⟩ := h.forwarding.logged.origin e he
  obtain ⟨r, hr, rfl⟩ := mem_map.mp hw
  refine ⟨r, σ.all_subset (mem_append_left _ hr), fun hd => ?_, horigin⟩
  rcases mem_append.mp hr with hr | hr
  · exact σ.ud ((slot_of_mem_inSlot hr).symm.trans hd)
  · exact σ.fd ((slot_of_mem_inSlot hr).symm.trans hd)

variable {pre post : List Received}

/-- **What was sent of a packet.** -/
theorem Pushed.sends_split
    (hsplit : inSlot b σ.u a.received ++ inSlot b σ.f a.received = pre ++ r :: post) :
    Sends a (portsOf (pre.map (sends b order))) r ((r.ports b order).getD [])
      (s.sent.filter (·.origin = r.p)) := by
  have hwork : (inSlot b σ.u a.received ++ inSlot b σ.f a.received).map (sends b order) =
      pre.map (sends b order) ++ (r, (r.ports b order).getD []) :: post.map (sends b order) := by
    rw [hsplit, map_append]
    rfl
  exact h.forwarding.logged.filter (σ.work_nodup a) hwork

theorem Pushed.ports (hfew : Few b a.received) (hr : r ∈ a.received) :
    (s.sent.filter (·.origin = r.p)).map Sent.port = (r.ports b order).getD [] := by
  by_cases hslot : r.slot b = σ.d
  · have hnone : s.sent.filter (·.origin = r.p) = [] := by
      refine filter_eq_nil_iff.mpr fun e he heq => ?_
      obtain ⟨r', hr', hne, horigin⟩ := h.origin e he
      rw [horigin] at heq
      rw [a.received_inj hr' hr (of_decide_eq_true heq)] at hne
      exact hne hslot
    rw [hnone, ports_eq hslot σ.discard]
    rcases slot_cases σ.d with hd | hd | hd <;> rw [hd] <;> rfl
  · have hmem : r ∈ inSlot b σ.u a.received ++ inSlot b σ.f a.received := by
      rcases mem_append.mp (hfew.mem_all hr (σ := σ)) with hmem | hmem
      · exact hmem
      · exact absurd (slot_of_mem_inSlot hmem) hslot
    obtain ⟨pre, post, hsplit⟩ := append_of_mem hmem
    exact (h.sends_split hsplit).port

end Pushed

/-! ## The links for flooding -/

theorem ports_of_flood (hsuits : Suits b order r) (hslot : r.slot b = 1)
    (hkind : order.kind 1 = .flood) : (r.ports b order).getD [] = b.dstPorts r.ip := by
  have hne : b.dstPorts r.ip ≠ [] := by
    rcases hsuits.unknown hslot with ⟨-, hne⟩ | ⟨hother, -⟩ | ⟨hother, -⟩
    · exact hne
    · rw [hkind] at hother
      cases hother
    · rw [hkind] at hother
      cases hother
  rw [ports_eq hslot hkind, Received.portsIn, if_neg hne]
  rfl

/-- The packets of the table for unicast forwarding are those to known addresses. -/
theorem ucast_ports (hfew : Few b a.received) (hsuits : ∀ r ∈ a.received, Suits b order r)
    (hf : σ.f = 1) : portsOf ((inSlot b σ.u a.received).map (sends b order)) =
      (a.received.filter (·.slot b = 0)).map Received.port := by
  have hnone {i : Fin 3} (hno : ∀ r ∈ a.received, r.slot b ≠ i) :
      a.received.filter (·.slot b = i) = [] :=
    filter_eq_nil_iff.mpr fun r hr heq => hno r hr (of_decide_eq_true heq)
  have hucast := σ.ucast
  have hne := σ.uf
  rw [hfew.inSlot]
  rcases slot_cases σ.u with hu | hu | hu
  · rw [hu] at hucast ⊢
    unfold portsOf
    rw [flatMap_map, map_eq_flatMap]
    refine flatMap_congr fun r hr => ?_
    have hslot := of_decide_eq_true (mem_filter.mp hr).2
    rw [sends, ports_eq hslot hucast]
    rfl
  · exact absurd (hu.trans hf.symm) hne
  · rw [hu] at hucast ⊢
    rw [hnone fun r hr hslot => ?_, hnone fun r hr hslot => ?_]
    · rfl
    · have hzero := order.inj ((hsuits r hr).known hslot |>.trans hucast.symm)
      exact absurd hzero (by decide)
    · have htwo := (hsuits r hr).dropped hslot
      rw [hucast] at htwo
      cases htwo

/-- **The ports that were used before a packet is flooded.** -/
theorem portsOf_sentBefore (hfew : Few b a.received) (hsuits : ∀ r ∈ a.received, Suits b order r)
    (hf : σ.f = 1) (hsplit : a.received = pre ++ post) :
    portsOf ((inSlot b σ.u a.received ++ pre.filter (·.slot b = 1)).map (sends b order)) =
      a.sentBefore pre := by
  have hkind : order.kind 1 = .flood := hf ▸ σ.flood
  unfold Before.sentBefore
  rw [← ucast_ports hfew hsuits hf, map_append]
  unfold portsOf
  rw [flatMap_append]
  congr 1
  rw [flatMap_map]
  refine flatMap_congr fun r hr => ?_
  obtain ⟨hmem, hslot⟩ := mem_filter.mp hr
  have hr' : r ∈ a.received := hsplit ▸ mem_append_left _ hmem
  exact ports_of_flood (hsuits r hr') (of_decide_eq_true hslot) hkind

theorem Suits.flood_or_few (h : Suits b order r) (hslot : r.slot b = 1) :
    order.kind 1 = .flood ∨ (b.dstPorts r.ip).length ≤ 1 := by
  rcases h.unknown hslot with ⟨hkind, -⟩ | ⟨-, hone⟩ | ⟨-, hempty⟩
  · exact .inl hkind
  · exact .inr hone.le
  · rw [hempty]
    exact .inr (Nat.zero_le 1)

/-- **When the packets arrive as they were received.** -/
theorem Pushed.intact_iff (h : Pushed σ a s) (hfew : Few b a.received)
    (hsuits : ∀ r ∈ a.received, Suits b order r) :
    (∀ r ∈ a.received, ∀ e ∈ s.sent, e.origin = r.p → SameFrame e.frame (a.pkts r.p)) ↔
      ∀ pre r post, a.received = pre ++ r :: post → r.slot b = 1 →
        Intact a (a.sentBefore pre) r (b.dstPorts r.ip) := by
  -- A packet that is flooded stands in the table behind those that were received before.
  have hflood {pre post : List Received} {r : Received} (hsplit : a.received = pre ++ r :: post)
      (hslot : r.slot b = 1) (hkind : order.kind 1 = .flood) :
      Sends a (a.sentBefore pre) r (b.dstPorts r.ip) (s.sent.filter (·.origin = r.p)) := by
    have hr : r ∈ a.received := by
      rw [hsplit]
      simp
    have hf : σ.f = 1 := order.inj (σ.flood.trans hkind.symm)
    have htable : inSlot b σ.u a.received ++ inSlot b σ.f a.received =
        (inSlot b σ.u a.received ++ pre.filter (·.slot b = 1)) ++
          r :: post.filter (·.slot b = 1) := by
      rw [append_assoc, hf, hfew.inSlot 1]
      nth_rewrite 2 [hsplit]
      rw [filter_append, filter_cons, if_pos (decide_eq_true hslot)]
    have hsends := h.sends_split htable
    rwa [portsOf_sentBefore hfew hsuits hf hsplit, ports_of_flood (hsuits r hr) hslot hkind]
      at hsends
  constructor
  · intro hall pre r post hsplit hslot
    have hr : r ∈ a.received := by
      rw [hsplit]
      simp
    rcases (hsuits r hr).flood_or_few hslot with hkind | hone
    · refine (hflood hsplit hslot hkind).frame.mp fun e he => ?_
      obtain ⟨he, horigin⟩ := mem_filter.mp he
      exact hall r hr e he (of_decide_eq_true horigin)
    · exact .inl hone
  · intro hroom r hr e he horigin
    have hmem : e ∈ s.sent.filter (·.origin = r.p) :=
      mem_filter.mpr ⟨he, decide_eq_true horigin⟩
    by_cases hflooded : r.slot b = 1 ∧ order.kind 1 = .flood
    · obtain ⟨pre, post, hsplit⟩ := append_of_mem hr
      have hsends := hflood hsplit hflooded.1 hflooded.2
      exact hsends.frame.mpr (hroom pre r post hsplit hflooded.1) e hmem
    · obtain ⟨r', hr', hne, horigin'⟩ := h.origin e he
      rw [a.received_inj hr' hr (horigin'.symm.trans horigin)] at hne
      have hall : r ∈ inSlot b σ.u a.received ++ inSlot b σ.f a.received := by
        rcases mem_append.mp (hfew.mem_all hr (σ := σ)) with hmem | hmem
        · exact hmem
        · exact absurd (slot_of_mem_inSlot hmem) hne
      obtain ⟨pre, post, hsplit⟩ := append_of_mem hall
      have hsends := h.sends_split hsplit
      refine hsends.frame.mpr (.inl ?_) e hmem
      obtain ⟨ports, hports, hperm⟩ := (hsuits r hr).ports hr
      rw [hports, Option.getD_some, hperm.length_eq, a.egress_eq hr]
      rcases slot_cases (r.slot b) with hslot | hslot | hslot
      · rw [hslot]
        exact le_rfl
      · rw [hslot]
        exact ((hsuits r hr).flood_or_few hslot).resolve_left fun hkind => hflooded ⟨hslot, hkind⟩
      · rw [hslot]
        exact Nat.zero_le 1

/-! ## The bridge -/

/-- **A push forwards its packets** if they can be forwarded. -/
theorem Pushed.forwarded (h : Pushed σ a s) (hforward : Forwardable a) : Forwarded a s := by
  have hfew : Few b a.received := hforward.few
  refine ⟨fun r hr => ?_, (h.intact_iff hfew hforward.suits).mpr hforward.room, fun e he => ?_,
    h.released hfew, ?_⟩
  · obtain ⟨ports, hports, hperm⟩ := (hforward.suits r hr).ports hr
    rw [h.ports hfew hr, hports]
    exact hperm
  · obtain ⟨r, hr, -, horigin⟩ := h.origin e he
    exact ⟨r, hr, horigin⟩
  · rw [h.waiting, Before.received, received_length, length_take]
    rcases Nat.le_total a.pftSize (incoming b.handlesOf a.inputs).length with hle | hle
    · rw [Nat.min_eq_left hle]
    · rw [Nat.min_eq_right hle, drop_of_length_le hle, drop_length]

/-- **When a push forwards the packets it takes**: it returns, and each was sent to its ports. -/
theorem push_forwards_iff (a : Before b order) :
    (∃ s, push b order a.toState = .ok ((), s) ∧ Forwarded a s) ↔ Forwardable a := by
  obtain ⟨σ⟩ := slots_exist order
  have hworks := push_works σ a
  constructor
  · rintro ⟨s, hpush, hs⟩
    obtain ⟨hdone, h⟩ := hworks.of_ok hpush
    have hfew : Few b a.received := by
      refine h.few fun r hr => hs.released.mem_iff.mpr ?_
      exact mem_append_left _ (mem_map_of_mem hr)
    have hsuits r (hr : r ∈ a.received) : Suits b order r := by
      refine (ports_iff hr).mp ?_
      have hsome : (r.ports b order).isSome :=
        hdone (.forward r) (Slots.forward_mem_tasks.mpr (hfew.mem_all hr))
      obtain ⟨ports, hports⟩ := Option.isSome_iff_exists.mp hsome
      refine ⟨ports, hports, ?_⟩
      have hperm := hs.ports r hr
      rwa [h.ports hfew hr, hports] at hperm
    exact ⟨hfew, hsuits, (h.intact_iff hfew hsuits).mp hs.intact⟩
  · intro hforward
    have hdo : ∀ t ∈ σ.tasks b a.received, Task.Doable b order t := by
      intro t ht
      cases t with
      | queue r =>
        have hr : r ∈ a.received := by simpa [Slots.tasks] using ht
        exact (hforward.suits r hr).known
      | forward r =>
        have hr := σ.all_subset (Slots.forward_mem_tasks.mp ht)
        obtain ⟨ports, hports, -⟩ := (hforward.suits r hr).ports hr
        change (r.ports b order).isSome
        rw [hports]
        rfl
    obtain ⟨s, hpush, h⟩ := hworks.returns hdo
    exact ⟨s, hpush, h.forwarded hforward⟩

/-! ## One port -/

/-- A bridge with one port. -/
def singlePort : Bridge := ⟨[⟨"port", 0⟩], by decide⟩

/-- The order in which the tables are expected. -/
def expectedOrder : PairsOrder where
  kind
    | 0 => .ucast
    | 1 => .flood
    | 2 => .discard
  inj := by decide

/-- The bridge as it starts, with a packet on its input link. -/
def singlePacket : Before singlePort expectedOrder where
  pkts _ := ⟨fun _ => 2, 60⟩
  next := 1
  inputs port := if port = 1 then [0] else []
  outputs _ := []
  macTable := ⟨.new, .new, fun _ => 0⟩
  pft := Pft.new
  pftSize := initialPftSize
  discarded := []
  sent := []
  distinct := by decide
  inUse := by decide
  fits _ := Nat.zero_le _
  known := ⟨HashTable.all_new, HashTable.all_new⟩
  pftSize_pos := by decide
  shaped := shaped_new expectedOrder
  discarded_eq := rfl
  sent_eq := rfl

/-- The list for flooding is empty, and its first port is read. -/
theorem single_port_push_fails :
    push singlePort expectedOrder singlePacket.toState = .error .memory ∧
      ¬ ∃ s, push singlePort expectedOrder singlePacket.toState = .ok ((), s) ∧
        Forwarded singlePacket s := by
  have hfails : push singlePort expectedOrder singlePacket.toState = .error .memory := rfl
  refine ⟨hfails, ?_⟩
  rintro ⟨s, hpush, -⟩
  cases hpush

/-- **Behind a push the bridge can be pushed again.** -/
theorem push_before (h : push b order a.toState = .ok ((), s)) :
    ∃ a' : Before b order, a'.toState = { s with discarded := [], sent := [] } := by
  obtain ⟨σ⟩ := slots_exist order
  obtain ⟨-, hs⟩ := (push_works σ a).of_ok h
  have hsub : incoming b.handlesOf s.inputs <:+ incoming b.handlesOf a.inputs := by
    rw [hs.waiting]
    exact drop_suffix _ _
  exact ⟨{
    toState := { s with discarded := [], sent := [] }
    distinct := a.distinct.sublist (hsub.sublist.map _)
    inUse := fun x hx => (a.inUse x (hsub.subset hx)).trans_le hs.forwarding.used.next_le
    fits := fun port => (hs.forwarding.used.outputs port).trans_le (min_le_left _ _)
    known := hs.known
    pftSize_pos := hs.pftSize_pos
    shaped := hs.shaped
    discarded_eq := rfl
    sent_eq := rfl }, rfl⟩

/-- A bridge with two ports. -/
def twoPorts : Bridge := ⟨[⟨"one", 0⟩, ⟨"two", 0⟩], by decide⟩

/-- A packet on each input link. Both packets are to and from the same address. -/
def twoPackets : Before twoPorts expectedOrder where
  toState := { singlePacket.toState with
    next := 2
    inputs := fun port => if port = 1 then [0] else if port = 2 then [1] else [] }
  distinct := by decide
  inUse := by decide
  fits _ := Nat.zero_le _
  known := ⟨HashTable.all_new, HashTable.all_new⟩
  pftSize_pos := by decide
  shaped := shaped_new expectedOrder
  discarded_eq := rfl
  sent_eq := rfl

/-- The first packet is flooded, and the second one goes to the port that was learned from it. -/
theorem push_before_learned :
    ∃ s, push twoPorts expectedOrder twoPackets.toState = .ok ((), s) ∧
      s.sent.map (fun e => (e.origin, e.port)) = [(1, 1), (0, 2)] ∧
      ∃ a' : Before twoPorts expectedOrder, a'.toState = { s with discarded := [], sent := [] } := by
  obtain ⟨⟨⟨⟩, s⟩, hpush, hsent⟩ := ok_of_any
    (r := push twoPorts expectedOrder twoPackets.toState)
    (q := fun r => r.2.sent.map (fun e => (e.origin, e.port)) = [(1, 1), (0, 2)])
    (by decide +kernel)
  exact ⟨s, hpush, of_decide_eq_true hsent, push_before hpush⟩

end Bridge

end Snabb
