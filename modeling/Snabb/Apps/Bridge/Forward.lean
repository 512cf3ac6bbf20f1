import Snabb.Apps.Bridge.Receive

/-!
# Packets are forwarded

What a push does with one packet of a table. A packet that is flooded is transmitted itself first,
and then cloned for the other ports; if the first link is full, it was freed in between, and the
clones are empty.

- `Forwarding.one`: a packet is transmitted to one port.
- `flood_works`: a packet is flooded.
-/

namespace Snabb

open List hiding get modify
open Function (update update_of_ne update_self)

namespace Bridge

open Foundation

/-! ## What is sent -/

/-- The frames are equal, up to what stands behind their ends. -/
structure SameFrame (f g : Frame) : Prop where
  length : f.length = g.length
  data : ∀ i < g.length, f.data i = g.data i

theorem SameFrame.refl (f : Frame) : SameFrame f f := ⟨rfl, fun _ _ => rfl⟩

variable {b : Bridge} {order : PairsOrder} {a : Before b order}

/-- The ports of some packets. -/
def portsOf (work : List (Received × List Nat)) : List Nat := work.flatMap Prod.snd

section Sends

variable (a)

/-- The packet gets to all its ports: there is only one, it is empty, or the first of the links has
room behind what was sent before. -/
def Intact (before : List Nat) (r : Received) (ports : List Nat) : Prop :=
  ports.length ≤ 1 ∨ (a.pkts r.p).length = 0 ∨
    ∀ port ∈ ports.head?, (a.outputs port).length + before.count port < linkMaxPackets

/-- A packet was sent to some ports. -/
structure Sends (before : List Nat) (r : Received) (ports : List Nat) (log : List Sent) : Prop where
  port : log.map Sent.port = ports
  origin : ∀ e ∈ log, e.origin = r.p
  frame : (∀ e ∈ log, SameFrame e.frame (a.pkts r.p)) ↔ Intact a before r ports

/-- What was sent, packet by packet. -/
inductive Logged : List (Received × List Nat) → List Sent → Prop
  | nil : Logged [] []
  | snoc {work : List (Received × List Nat)} {sent log : List Sent} {r : Received}
      {ports : List Nat} : Logged work sent → Sends a (portsOf work) r ports log →
      Logged (work ++ [(r, ports)]) (sent ++ log)

/-- The state when some packets were transmitted and freed, and some ports were used. -/
structure Used (touched ports freed : List Nat) (s : State) : Prop where
  next_le : a.next ≤ s.next
  pkts : ∀ p < a.next, p ∉ touched → p ∉ freed → s.pkts p = a.pkts p
  outputs : ∀ port, (s.outputs port).length =
    min linkMaxPackets ((a.outputs port).length + ports.count port)
  fresh : (s.sent.map Sent.ptr).filter (a.next ≤ ·) = List.range' a.next (s.next - a.next)
  old : (s.sent.map Sent.ptr).filter (· < a.next) = touched
  discarded : s.discarded = freed

/-- The state when some packets were forwarded. -/
structure Forwarding (work : List (Received × List Nat)) (freed : List Nat) (s : State) :
    Prop where
  used : Used a (work.map (·.1.p)) (portsOf work) freed s
  logged : Logged a work s.sent

end Sends

/-! ## Calls -/

variable {s : State} {touched ports freed : List Nat} {origin port p : Nat} {r : Received}
  {work : List (Received × List Nat)}

/-- The state when a packet was transmitted. -/
def transmitted (s : State) (origin port p : Nat) : State :=
  { s with
    sent := s.sent ++ [⟨origin, port, p, s.pkts p⟩]
    pkts := if (s.outputs port).length = linkMaxPackets
      then update s.pkts p ⟨(s.pkts p).data, 0⟩ else s.pkts
    outputs := if (s.outputs port).length = linkMaxPackets then s.outputs
      else update s.outputs port (s.outputs port ++ [p]) }

theorem transmit_eq (h : port ∈ b.handlesOf) :
    transmit b origin port p s = .ok ((), transmitted s origin port p) := by
  unfold transmit transmitted
  rw [if_pos h]
  by_cases hfull : (s.outputs port).length = linkMaxPackets
  · simp only [bind, StateT.bind, modify, modifyGet, MonadStateOf.modifyGet, StateT.modifyGet, get,
      getThe, MonadStateOf.get, StateT.get, pure, Except.pure, Except.bind, if_pos hfull]
    rfl
  · simp only [bind, StateT.bind, modify, modifyGet, MonadStateOf.modifyGet, StateT.modifyGet, get,
      getThe, MonadStateOf.get, StateT.get, pure, Except.pure, Except.bind, if_neg hfull]

theorem transmit_nilPort (h : port ∉ b.handlesOf) : transmit b origin port p s = .error .nilPort := by
  unfold transmit
  rw [if_neg h]
  rfl

/-- The state with a clone of a packet. -/
def cloned (s : State) (p : Nat) : State :=
  let frame : Frame := {
    data := fun i => if i < (s.pkts p).length then (s.pkts p).data i else (s.pkts s.next).data i
    length := (s.pkts p).length }
  { s with pkts := update s.pkts s.next frame, next := s.next + 1 }

theorem pkts_transmitted_of_ne {q : Nat} (h : q ≠ p) :
    (transmitted s origin port p).pkts q = s.pkts q := by
  dsimp only [transmitted]
  by_cases hfull : (s.outputs port).length = linkMaxPackets
  · rw [if_pos hfull, update_of_ne h]
  · rw [if_neg hfull]

theorem pkts_cloned_of_ne {q : Nat} (h : q ≠ s.next) : (cloned s p).pkts q = s.pkts q :=
  update_of_ne h _ _

theorem sameFrame_cloned (s : State) (p : Nat) :
    SameFrame ((cloned s p).pkts s.next) (s.pkts p) := by
  simp only [cloned, update_self]
  exact ⟨rfl, fun i hi => if_pos hi⟩

/-! ## Links -/

theorem outputs_transmitted (h : ∀ port, (s.outputs port).length =
    min linkMaxPackets ((a.outputs port).length + ports.count port)) (port' : Nat) :
    ((transmitted s origin port p).outputs port').length =
      min linkMaxPackets ((a.outputs port').length + (ports ++ [port]).count port') := by
  have hport := h port'
  simp only [transmitted, count_append, count_singleton, beq_iff_eq]
  by_cases heq : port = port'
  · subst heq
    rw [if_pos rfl]
    split_ifs with hfull
    · omega
    · rw [update_self, List.length_append, length_singleton]
      omega
  · rw [if_neg heq]
    split_ifs with hfull
    · exact hport
    · rw [update_of_ne (Ne.symm heq)]
      exact hport

section

variable (h : Used a touched ports freed s)
include h

theorem full_iff (port : Nat) :
    (s.outputs port).length = linkMaxPackets ↔
      ¬ (a.outputs port).length + ports.count port < linkMaxPackets := by
  have hport := h.outputs port
  omega

/-- **A packet is transmitted itself.** -/
theorem Used.transmit (hp : p < a.next) :
    Used a (touched ++ [p]) (ports ++ [port]) freed (transmitted s origin port p) where
  next_le := h.next_le
  pkts := by
    intro q hq htouched hfreed
    have hne : q ≠ p := fun heq => htouched (heq ▸ by simp)
    rw [pkts_transmitted_of_ne hne]
    exact h.pkts q hq (fun hmem => htouched (mem_append_left _ hmem)) hfreed
  outputs := outputs_transmitted h.outputs
  fresh := by
    have hnot : ¬ a.next ≤ p := by omega
    simp only [transmitted, map_append, filter_append]
    rw [h.fresh]
    simp [hnot]
  old := by
    simp only [transmitted, map_append, filter_append]
    rw [h.old]
    simp [hp]
  discarded := h.discarded

/-- **A clone is transmitted.** -/
theorem Used.cloneTransmit :
    Used a touched (ports ++ [port]) freed (transmitted (cloned s p) origin port s.next) where
  next_le := h.next_le.trans (Nat.le_succ _)
  pkts := by
    intro q hq htouched hfreed
    have hne : q ≠ s.next := by
      have := h.next_le
      omega
    rw [pkts_transmitted_of_ne hne, pkts_cloned_of_ne hne]
    exact h.pkts q hq htouched hfreed
  outputs := by
    have houtputs : ∀ port, ((cloned s p).outputs port).length =
        min linkMaxPackets ((a.outputs port).length + ports.count port) := h.outputs
    exact outputs_transmitted houtputs
  fresh := by
    have hle := h.next_le
    simp only [transmitted, cloned, map_append, filter_append]
    rw [h.fresh, Nat.succ_sub hle, List.range'_1_concat]
    simp [hle]
  old := by
    have hnot : ¬ s.next < a.next := Nat.not_lt_of_le h.next_le
    simp only [transmitted, cloned, map_append, filter_append]
    rw [h.old]
    simp [hnot]
  discarded := h.discarded

end

/-! ## One packet -/

theorem portAt_eq {pl : PortList} {j : Nat} (h : pl.port j = some port) :
    portAt pl j s = .ok (port, s) := by
  unfold portAt
  rw [h]
  rfl

theorem portAt_error {pl : PortList} {j : Nat} (h : pl.port j = none) :
    portAt pl j s = .error .memory := by
  unfold portAt
  rw [h]
  rfl

/-- The packet was not dealt with yet. -/
structure Fresh (a : Before b order) (work : List (Received × List Nat)) (freed : List Nat)
    (r : Received) : Prop where
  inUse : r.p < a.next
  notSent : r.p ∉ work.map (·.1.p)
  notFreed : r.p ∉ freed

theorem Forwarding.pkts (h : Forwarding a work freed s) (hr : Fresh a work freed r) :
    s.pkts r.p = a.pkts r.p := h.used.pkts r.p hr.inUse hr.notSent hr.notFreed

theorem portsOf_snoc (work : List (Received × List Nat)) (r : Received) (ports : List Nat) :
    portsOf (work ++ [(r, ports)]) = portsOf work ++ ports := by
  unfold portsOf
  rw [flatMap_append, flatMap_singleton]

theorem ps_snoc (work : List (Received × List Nat)) (r : Received) (ports : List Nat) :
    (work ++ [(r, ports)]).map (·.1.p) = work.map (·.1.p) ++ [r.p] := by simp

theorem Forwarding.one (h : Forwarding a work freed s) (hr : Fresh a work freed r) :
    Forwarding a (work ++ [(r, [port])]) freed (transmitted s r.p port r.p) := by
  refine ⟨?_, ?_⟩
  · rw [portsOf_snoc, ps_snoc]
    exact h.used.transmit hr.inUse
  · refine h.logged.snoc ⟨rfl, fun e he => ?_, iff_of_true (fun e he => ?_) (.inl le_rfl)⟩
    · rw [mem_singleton.mp he]
    · rw [mem_singleton.mp he]
      rw [h.pkts hr]
      exact .refl _

/-- What a packet is when it was transmitted. -/
def afterFirst (s : State) (port p : Nat) : Frame :=
  if (s.outputs port).length = linkMaxPackets then ⟨(s.pkts p).data, 0⟩ else s.pkts p

theorem pkts_transmitted_self : (transmitted s origin port p).pkts p = afterFirst s port p := by
  dsimp only [transmitted, afterFirst]
  by_cases hfull : (s.outputs port).length = linkMaxPackets
  · rw [if_pos hfull, if_pos hfull, update_self]
  · rw [if_neg hfull, if_neg hfull]

/-- The state while clones of a packet are transmitted, of which the contents are `q`. -/
structure Cloning (a : Before b order) (touched ports freed : List Nat) (r : Received) (q : Frame)
    (sent : List Sent) (begun : List Nat) (log : List Sent) (s : State) : Prop where
  used : Used a touched (ports ++ begun) freed s
  self : s.pkts r.p = q
  sent : s.sent = sent ++ log
  port : log.map Sent.port = begun
  origin : ∀ e ∈ log, e.origin = r.p
  frame : ∀ e ∈ log, SameFrame e.frame q

theorem Cloning.step {q : Frame} {sent log : List Sent} {begun : List Nat}
    (h : Cloning a touched ports freed r q sent begun log s) (hp : r.p < a.next) :
    Cloning a touched ports freed r q sent (begun ++ [port])
      (log ++ [⟨r.p, port, s.next, (cloned s r.p).pkts s.next⟩])
      (transmitted (cloned s r.p) r.p port s.next) := by
  have hne : r.p ≠ s.next := by
    have := h.used.next_le
    omega
  refine ⟨?_, ?_, ?_, ?_, ?_, ?_⟩
  · rw [← append_assoc]
    exact h.used.cloneTransmit
  · rw [pkts_transmitted_of_ne hne, pkts_cloned_of_ne hne]
    exact h.self
  · rw [← append_assoc, ← h.sent]
    rfl
  · rw [map_append, h.port]
    rfl
  · intro e he
    rcases mem_append.mp he with he | he
    · exact h.origin e he
    · rw [mem_singleton.mp he]
  · intro e he
    rcases mem_append.mp he with he | he
    · exact h.frame e he
    · rw [mem_singleton.mp he]
      have hsame := sameFrame_cloned s r.p
      rwa [h.self] at hsame

variable {ι : Type} {C : ι → Prop} {E : ι → Fault → Prop} {rest : List Nat} {pfe : PftEntry}

/-- **The clones of a packet**: the loop over the other ports. -/
theorem clones_works {q : Frame} {sent : List Sent}
    (hp : r.p < a.next) (hself : pfe.p = r.p) (hlength : pfe.plist.length - 1 = rest.length)
    (hport : ∀ j, (hj : j < rest.length) → pfe.plist.port (1 + j) = some rest[j])
    (hrest : ∀ d ∈ rest, d ∈ b.handlesOf) (h : Cloning a touched ports freed r q sent [] [] s) :
    Works C E []
      ((List.range' 1 (pfe.plist.length - 1)).forM fun j => portAt pfe.plist j >>= fun port =>
        clone pfe.p >>= fun p => transmit b pfe.p port p) s
      fun s' => ∃ log, Cloning a touched ports freed r q sent rest log s' := by
  rw [hself, hlength]
  refine (Works.forM_done (fun js s => ∃ begun left log, rest = begun ++ left ∧
    js = List.range' (1 + begun.length) left.length ∧
    Cloning a touched ports freed r q sent begun log s) ?_ ⟨[], rest, [], rfl, rfl, h⟩).mono ?_
  · rintro j js s ⟨begun, left, log, hsplit, hjs, hs⟩
    cases left with
    | nil => cases hjs
    | cons d left =>
      cases hjs
      have hd : pfe.plist.port (1 + begun.length) = some d := by
        rw [hport begun.length (by rw [hsplit]; simp)]
        simp [hsplit]
      have hmem : d ∈ b.handlesOf := hrest d (by rw [hsplit]; simp)
      have hcall : (portAt pfe.plist (1 + begun.length) >>= fun port =>
          clone r.p >>= fun p => transmit b r.p port p) s =
            .ok ((), transmitted (cloned s r.p) r.p d s.next) := by
        simp only [bind, StateT.bind, portAt_eq hd]
        exact transmit_eq hmem
      refine .done hcall ⟨begun ++ [d], left, _, by simp [hsplit], ?_, hs.step hp⟩
      rw [List.length_append, length_singleton, Nat.add_assoc]
  · rintro s' ⟨begun, left, log, hsplit, hjs, hs'⟩
    cases left with
    | nil =>
      rw [append_nil] at hsplit
      exact ⟨log, hsplit ▸ hs'⟩
    | cons d left => cases hjs

/-- **A packet is flooded.** -/
theorem flood_works {d : Nat} (hr : Fresh a work freed r)
    (hself : pfe.p = r.p) (hlist : pfe.plist = .flooding (d :: rest))
    (hports : ∀ port ∈ d :: rest, port ∈ b.handlesOf) (h : Forwarding a work freed s) :
    Works C E [] (flood b pfe) s fun s' => Forwarding a (work ++ [(r, d :: rest)]) freed s' := by
  set s₁ := transmitted s r.p d r.p with hs₁
  set q := afterFirst s d r.p with hq
  have hcloning : Cloning a (work.map (·.1.p) ++ [r.p]) (portsOf work ++ [d]) freed r q s₁.sent []
      [] s₁ := by
    refine ⟨?_, pkts_transmitted_self, (append_nil _).symm, rfl,
      fun e he => absurd he not_mem_nil, fun e he => absurd he not_mem_nil⟩
    rw [append_nil]
    exact h.used.transmit hr.inUse
  have hcall : flood b pfe s = ((List.range' 1 (pfe.plist.length - 1)).forM fun j =>
      portAt pfe.plist j >>= fun port => clone pfe.p >>= fun p => transmit b pfe.p port p) s₁ := by
    have hfirst : portAt pfe.plist 0 s = .ok (d, s) := portAt_eq (by rw [hlist]; rfl)
    unfold flood
    simp only [bind, StateT.bind, hfirst, Except.bind]
    rw [hself, transmit_eq (hports d mem_cons_self)]
  refine .of_eq hcall ((clones_works hr.inUse hself (by rw [hlist]; rfl) (fun j hj => ?_)
    (fun port hport => hports port (mem_cons_of_mem d hport)) hcloning).mono ?_)
  · rw [hlist, Nat.add_comm]
    change (d :: rest)[j + 1]? = _
    rw [List.getElem?_cons_succ, List.getElem?_eq_getElem hj]
  rintro s' ⟨log, hs'⟩
  have hfirst := h.pkts hr
  have hsent : s'.sent = s.sent ++ (⟨r.p, d, r.p, s.pkts r.p⟩ :: log) := by
    rw [hs'.sent, hs₁]
    simp [transmitted]
  refine ⟨?_, ?_⟩
  · rw [portsOf_snoc, ps_snoc]
    have hused := hs'.used
    rwa [append_assoc] at hused
  · rw [hsent]
    refine h.logged.snoc ⟨?_, ?_, ?_⟩
    · rw [map_cons, hs'.port]
    · intro e he
      rcases mem_cons.mp he with rfl | he
      · rfl
      · exact hs'.origin e he
    · -- The clones are equal to the packet if nothing became of it when it was transmitted.
      have hfull := full_iff h.used d
      constructor
      · intro hall
        by_contra hnot
        unfold Intact at hnot
        push Not at hnot
        obtain ⟨hmany, hlength, port, hport, hroom⟩ := hnot
        cases hport
        have hempty : q = ⟨(s.pkts r.p).data, 0⟩ := if_pos (hfull.mpr (Nat.not_lt.mpr hroom))
        cases log with
        | nil =>
          have := hs'.port
          cases this
          exact absurd hmany (by simp)
        | cons e log =>
          have hone := (hall e (by simp)).length
          have hother := (hs'.frame e mem_cons_self).length
          rw [hempty] at hother
          exact hlength (hone.symm.trans hother)
      · intro hintact e he
        rcases mem_cons.mp he with rfl | he
        · dsimp only
          rw [hfirst]
          exact .refl _
        have hsame := hs'.frame e he
        rcases hintact with hone | hlength | hroom
        · have hnil : log = [] := by
            have hlen : log.length = rest.length := by rw [← hs'.port, length_map]
            rw [length_cons] at hone
            exact length_eq_zero_iff.mp (by omega)
          rw [hnil] at he
          exact absurd he not_mem_nil
        · have hzero : q.length = 0 := by
            rw [hq, afterFirst]
            split_ifs
            · rfl
            · rw [hfirst]
              exact hlength
          refine ⟨by rw [hsame.length, hzero, hlength], fun i hi => ?_⟩
          rw [hlength] at hi
          exact absurd hi (Nat.not_lt_zero i)
        · have hq : q = a.pkts r.p := by
            rw [hq, afterFirst, if_neg fun h => hfull.mp h (hroom d rfl), hfirst]
          rwa [hq] at hsame

end Bridge

end Snabb
