import Snabb.Apps.Bridge.Learning
import Snabb.Foundation.Tasks

/-!
# Packets are received

The first part of a push takes packets from the ingress ports until there are no more, or as many as
the tables have entries. Each is put into the table for its kind; the length of a table has 16 bits,
so that of the packets of a kind those behind the last full 2^16 remain.

- `receivePorts_yields`: what the loop over the ingress ports does.
-/

namespace Snabb

open List hiding get modify
open Function (update update_eq_self update_idem update_of_ne update_self)

namespace Bridge

open Foundation
export Foundation (Works)

/-! ## The last lap -/

section Recent

variable {A : Type} {n : Nat} {l : List A}

/-- What is left of a list when it is cleared each time it has `n` elements. -/
def recent (n : Nat) (l : List A) : List A := l.drop (l.length / n * n)

theorem recent_length (n : Nat) (l : List A) : (recent n l).length = l.length % n := by
  unfold recent
  rw [length_drop]
  have := Nat.div_add_mod l.length n
  rw [Nat.mul_comm] at this
  omega

theorem recent_snoc (hn : 0 < n) (l : List A) (x : A) :
    recent n (l ++ [x]) = if (recent n l).length + 1 = n then [] else recent n l ++ [x] := by
  have hdiv := Nat.div_add_mod l.length n
  have hmod := Nat.mod_lt l.length hn
  rw [Nat.mul_comm] at hdiv
  rw [recent_length]
  unfold recent
  rw [List.length_append, length_singleton]
  split_ifs with hfull
  · have hlap : (l.length + 1) / n * n = l.length + 1 := by
      refine Nat.div_mul_cancel ⟨l.length / n + 1, ?_⟩
      rw [Nat.mul_add, Nat.mul_comm n]
      omega
    rw [hlap]
    exact drop_of_length_le (by simp)
  · have hlap : (l.length + 1) / n = l.length / n :=
      Nat.div_eq_of_lt_le (by omega) (by rw [Nat.add_mul]; omega)
    rw [hlap, drop_append_of_le_length (by omega)]

theorem recent_of_lt (h : l.length < n) : recent n l = l := by
  rw [recent, Nat.div_eq_of_lt h, Nat.zero_mul, drop_zero]

theorem recent_sublist (n : Nat) (l : List A) : (recent n l).Sublist l := drop_sublist _ _

theorem head_notMem_recent {x : A} (hn : 0 < n) (hnodup : (x :: l).Nodup)
    (h : n ≤ (x :: l).length) : x ∉ recent n (x :: l) := by
  have hpos : 0 < (x :: l).length / n * n := Nat.mul_pos (Nat.div_pos h hn) hn
  obtain ⟨k, hk⟩ : ∃ k, (x :: l).length / n * n = k + 1 := ⟨_, (Nat.succ_pred_eq_of_pos hpos).symm⟩
  rw [recent, hk]
  exact fun hmem => (nodup_cons.mp hnodup).1 (mem_of_mem_drop hmem)

end Recent

/-! ## Received packets -/

/-- A packet that was received, with what is known of its destination. -/
structure Received where
  ip : Nat
  p : Nat
  me : Option MacEntry
deriving DecidableEq

/-- The number of the table that the packet is put into. -/
def Received.slot (b : Bridge) (r : Received) : Fin 3 :=
  match r.me with
  | some me => if (b.group r.ip ≠ 0 ∧ b.group r.ip = me.group) ∨ r.ip = me.port then 2 else 0
  | none => 1

/-- The port that the destination is known at. -/
def Received.port (r : Received) : Nat := (r.me.map MacEntry.port).getD 0

section Tables

variable (b : Bridge) (pkts : Nat → Frame)

/-- The packets, given with their ingress ports, as they are received one after the other. -/
def received : MacTable → List (Nat × Nat) → List Received
  | _, [] => []
  | t, (ip, p) :: rest =>
    ⟨ip, p, t.lookup (mac2u64 (pkts p).data 0)⟩ :: received (learn b t ip (pkts p)) rest

/-- The MAC table behind the packets. -/
def learned (t : MacTable) (packets : List (Nat × Nat)) : MacTable :=
  packets.foldl (fun t x => learn b t x.1 (pkts x.2)) t

theorem received_append (t : MacTable) (xs ys : List (Nat × Nat)) :
    received b pkts t (xs ++ ys) =
      received b pkts t xs ++ received b pkts (learned b pkts t xs) ys := by
  induction xs generalizing t with
  | nil => rfl
  | cons x xs ih => exact congrArg _ (ih _)

theorem learned_append (t : MacTable) (xs ys : List (Nat × Nat)) :
    learned b pkts t (xs ++ ys) = learned b pkts (learned b pkts t xs) ys := foldl_append

theorem received_map (t : MacTable) (xs : List (Nat × Nat)) :
    (received b pkts t xs).map (fun r => (r.ip, r.p)) = xs := by
  induction xs generalizing t with
  | nil => rfl
  | cons x xs ih => exact congrArg _ (ih _)

end Tables

/-- An entry that a bridge can have learned. -/
def Known (b : Bridge) (me : MacEntry) : Prop := me.port ∈ b.handlesOf ∧ me.group = b.group me.port

/-- What the port list of an entry can be, in the table that has a number. -/
def Shaped : Fin 3 → Kind → PortList → Prop
  | 1, _, _ => True
  | 0, .ucast, pl => ∃ port, pl = .own port
  | 2, .ucast, pl => pl = .own 0
  | _, _, pl => pl = .null

/-- The packets on some input links. -/
def incoming (ips : List Nat) (inputs : Nat → List Nat) : List (Nat × Nat) :=
  ips.flatMap fun ip => (inputs ip).map (ip, ·)

/-- A bridge before a push: the packets on the input links are different, the entries of the MAC
table are of ports of the bridge, and nothing was sent yet. -/
structure Before (b : Bridge) (order : PairsOrder) extends State where
  distinct : ((incoming b.handlesOf inputs).map Prod.snd).Nodup
  inUse : ∀ x ∈ incoming b.handlesOf inputs, x.2 < next
  fits : ∀ port, (outputs port).length ≤ linkMaxPackets
  known : macTable.All (Known b)
  pftSize_pos : 0 < pftSize
  shaped : ∀ i j, Shaped i (order.kind i) ((pft (order.kind i)).entries j).plist
  discarded_eq : discarded = []
  sent_eq : sent = []

variable {b : Bridge} {order : PairsOrder}

/-- The packets that a push receives. -/
def Before.received (a : Before b order) : List Received :=
  Bridge.received b a.pkts a.macTable ((incoming b.handlesOf a.inputs).take a.pftSize)

/-! ## Tables -/

/-- The entry has the packet. -/
structure Fits (b : Bridge) (r : Received) (e : PftEntry) : Prop where
  p : e.p = r.p
  own : r.slot b = 0 → e.plist = .own r.port
  flooding : r.slot b = 1 → e.plist = .flooding (b.dstPorts r.ip)

/-- The table has the packets. -/
structure Holds (b : Bridge) (pft : Pft) (rs : List Received) : Prop where
  length : pft.length = rs.length
  entries : ∀ (j : Nat) (h : j < rs.length), Fits b rs[j] (pft.entries j)

/-- The packets of a table. -/
def inSlot (b : Bridge) (i : Fin 3) (rs : List Received) : List Received :=
  recent 65536 (rs.filter fun r => r.slot b = i)

variable (a : Before b order)

/-- The state when some packets were received. -/
structure Receiving (done : List (Nat × Nat)) (s : State) : Prop where
  pkts : s.pkts = a.pkts
  next : s.next = a.next
  outputs : s.outputs = a.outputs
  pftSize : s.pftSize = a.pftSize
  discarded : s.discarded = []
  sent : s.sent = []
  macTable : s.macTable = learned b a.pkts a.macTable done
  holds : ∀ i, Holds b (s.pft (order.kind i))
    (inSlot b i (Bridge.received b a.pkts a.macTable done))
  shaped : ∀ i j, Shaped i (order.kind i) ((s.pft (order.kind i)).entries j).plist

/-- The ports that a packet is sent to from the table with a number that is of a kind. -/
def Received.portsIn (b : Bridge) (r : Received) : Fin 3 → Kind → Option (List Nat)
  | 0, .ucast => some [r.port]
  | 1, .ucast => (b.dstPorts r.ip).head?.map ([·])
  | 1, .flood => if b.dstPorts r.ip = [] then none else some (b.dstPorts r.ip)
  | 1, .discard => some []
  | 2, .discard => some []
  | _, _ => none

/-- The ports that a packet is sent to, if it can be forwarded. -/
def Received.ports (b : Bridge) (order : PairsOrder) (r : Received) : Option (List Nat) :=
  r.portsIn b (r.slot b) (order.kind (r.slot b))

/-- What can go wrong in a push: a packet is put into a table, or it is forwarded from there. -/
inductive Task where
  | queue (r : Received)
  | forward (r : Received)

def Task.Doable (b : Bridge) (order : PairsOrder) : Task → Prop
  | .queue r => r.slot b = 0 → order.kind 0 = .ucast
  | .forward r => (r.ports b order).isSome

/-! ## One packet -/

variable {a} {done : List (Nat × Nat)} {s : State} {r : Received} {i : Fin 3}

theorem inSlot_snoc (rs : List Received) (hslot : r.slot b = i) :
    inSlot b i (rs ++ [r]) =
      if (inSlot b i rs).length + 1 = 65536 then [] else inSlot b i rs ++ [r] := by
  unfold inSlot
  rw [filter_append, filter_singleton, decide_eq_true hslot]
  exact recent_snoc (by decide) _ _

theorem inSlot_snoc_of_ne (rs : List Received) (hslot : r.slot b ≠ i) :
    inSlot b i (rs ++ [r]) = inSlot b i rs := by
  unfold inSlot
  rw [filter_append, filter_singleton, decide_eq_false hslot]
  exact congrArg _ (append_nil _)

theorem received_length (b : Bridge) (pkts : Nat → Frame) (t : MacTable) (xs : List (Nat × Nat)) :
    (received b pkts t xs).length = xs.length := by
  rw [← length_map, received_map b pkts t xs]

theorem Receiving.room (h : Receiving a done s) (hroom : done.length < a.pftSize) (i : Fin 3) :
    (s.pft (order.kind i)).length < s.pftSize := by
  rw [h.pftSize, (h.holds i).length]
  refine lt_of_le_of_lt ?_ hroom
  rw [← received_length b a.pkts a.macTable done]
  exact ((recent_sublist _ _).trans filter_sublist).length_le

/-- **A table with one more entry.** -/
theorem Holds.snoc {pft : Pft} {rs : List Received} {e : PftEntry} (h : Holds b pft (inSlot b i rs))
    (hslot : r.slot b = i) (he : Fits b r e) :
    Holds b ⟨(pft.length + 1) % 65536, update pft.entries pft.length e⟩
      (inSlot b i (rs ++ [r])) := by
  have hlt : (inSlot b i rs).length < 65536 := by
    unfold inSlot
    rw [recent_length]
    exact Nat.mod_lt _ (by decide)
  rw [inSlot_snoc rs hslot]
  split_ifs with hfull
  · refine ⟨?_, fun j hj => absurd hj (Nat.not_lt_zero j)⟩
    rw [h.length, hfull]
    rfl
  · refine ⟨?_, fun j hj => ?_⟩
    · rw [h.length, List.length_append]
      exact Nat.mod_eq_of_lt (by omega)
    · rw [List.length_append] at hj
      dsimp only
      rw [h.length]
      rcases Nat.lt_succ_iff_lt_or_eq.mp hj with hlast | rfl
      · rw [update_of_ne hlast.ne, getElem_append_left hlast]
        exact h.entries j hlast
      · rw [update_self, getElem_concat_length rfl]
        exact he

/-- The state with one more entry in a table, and what was learned. -/
def queued (order : PairsOrder) (s : State) (i : Fin 3) (e : PftEntry) (t : MacTable) : State :=
  let pft := s.pft (order.kind i)
  { s with
    pft := update s.pft (order.kind i)
      ⟨(pft.length + 1) % 65536, update pft.entries pft.length e⟩
    macTable := t }

variable {ip p : Nat} {pl : PortList} {f : PortList → Option PortList} {ips : List Nat}

theorem Receiving.queued (h : Receiving a done s)
    (hslot : Received.slot b ⟨ip, p, s.macTable.lookup (mac2u64 (s.pkts p).data 0)⟩ = i)
    (he : Fits b ⟨ip, p, s.macTable.lookup (mac2u64 (s.pkts p).data 0)⟩ ⟨p, pl⟩)
    (hshaped : Shaped i (order.kind i) pl) :
    Receiving a (done ++ [(ip, p)])
      (queued order s i ⟨p, pl⟩ (learn b s.macTable ip (s.pkts p))) := by
  have hone : Bridge.received b a.pkts a.macTable (done ++ [(ip, p)]) =
      Bridge.received b a.pkts a.macTable done ++
        [⟨ip, p, s.macTable.lookup (mac2u64 (s.pkts p).data 0)⟩] := by
    rw [received_append, h.macTable, h.pkts]
    rfl
  have hother {i' : Fin 3} (hne : i' ≠ i) : order.kind i' ≠ order.kind i :=
    fun heq => hne (order.inj heq)
  refine ⟨h.pkts, h.next, h.outputs, h.pftSize, h.discarded, h.sent, ?_, fun i' => ?_,
    fun i' j => ?_⟩
  · rw [learned_append, ← h.macTable, ← h.pkts]
    rfl
  · rw [hone]
    by_cases hi : i' = i
    · subst hi
      simp only [Bridge.queued, update_self]
      exact (h.holds i').snoc hslot he
    · simp only [Bridge.queued, update_of_ne (hother hi)]
      rw [inSlot_snoc_of_ne _ (by rw [hslot]; exact Ne.symm hi)]
      exact h.holds i'
  · by_cases hi : i' = i
    · subst hi
      simp only [Bridge.queued, update_self]
      by_cases hj : j = (s.pft (order.kind i')).length
      · rw [hj, update_self]
        exact hshaped
      · rw [update_of_ne hj]
        exact h.shaped i' j
    · simp only [Bridge.queued, update_of_ne (hother hi)]
      exact h.shaped i' j

section

variable (hroom : (s.pft (order.kind i)).length < s.pftSize)
include hroom

theorem addEntry_eq
    (hpl : f ((s.pft (order.kind i)).entries (s.pft (order.kind i)).length).plist = some pl) :
    addEntry (order.kind i) p f s = .ok ((), queued order s i ⟨p, pl⟩ s.macTable) := by
  simp only [addEntry, bind, StateT.bind, get, getThe, MonadStateOf.get, StateT.get, pure,
    Except.pure, Except.bind, if_neg (Nat.not_le_of_lt hroom), hpl]
  rfl

theorem addEntry_error
    (hpl : f ((s.pft (order.kind i)).entries (s.pft (order.kind i)).length).plist = none) :
    addEntry (order.kind i) p f s = .error .memory := by
  simp only [addEntry, bind, StateT.bind, get, getThe, MonadStateOf.get, StateT.get, pure,
    Except.pure, Except.bind, if_neg (Nat.not_le_of_lt hroom), hpl]
  rfl

theorem classify_eq
    (hlookup : lookupPft order (s.macTable.lookup (mac2u64 (s.pkts p).data 0)) ip (b.group ip) p
      (b.dstPorts ip) = addEntry (order.kind i) p f)
    (hpl : f ((s.pft (order.kind i)).entries (s.pft (order.kind i)).length).plist = some pl) :
    classify b order ip p s =
      .ok ((), queued order s i ⟨p, pl⟩ (learn b s.macTable ip (s.pkts p))) := by
  have hcall : classify b order ip p s = (addEntry (order.kind i) p f >>= fun _ =>
      modify fun s => { s with macTable := learn b s.macTable ip (s.pkts p) }) s := by
    rw [← hlookup]
    rfl
  rw [hcall]
  simp only [bind, StateT.bind, addEntry_eq hroom hpl]
  rfl

end

/-- **A packet is classified.** -/
theorem classify_works (h : Receiving a done s) (hroom : done.length < a.pftSize) :
    Works (Task.Doable b order) (fun _ _ => True)
      [.queue ⟨ip, p, s.macTable.lookup (mac2u64 (s.pkts p).data 0)⟩] (classify b order ip p) s
      fun s' => Receiving a (done ++ [(ip, p)]) s' ∧ s'.inputs = s.inputs := by
  set me := s.macTable.lookup (mac2u64 (s.pkts p).data 0) with hme
  have hroom' := h.room hroom
  cases hfound : me with
  | none =>
    have hlookup : lookupPft order me ip (b.group ip) p (b.dstPorts ip) =
        addEntry (order.kind 1) p fun _ => some (.flooding (b.dstPorts ip)) := by
      rw [hfound]
      rfl
    refine .one (fun hzero => ?_) (classify_eq (hroom' 1) hlookup rfl) ⟨?_, rfl⟩
    · cases hzero
    · refine h.queued (by rw [← hme, hfound]; rfl) ⟨rfl, fun hzero => ?_, fun _ => rfl⟩ trivial
      rw [← hme, hfound] at hzero
      cases hzero
  | some entry =>
    by_cases hdrop : (b.group ip ≠ 0 ∧ b.group ip = entry.group) ∨ ip = entry.port
    · have hslot : Received.slot b ⟨ip, p, some entry⟩ = 2 := if_pos hdrop
      refine .one (fun hzero => ?_) (classify_eq (f := some) (hroom' 2) ?_ rfl) ⟨?_, rfl⟩
      · rw [hslot] at hzero
        cases hzero
      · rw [← hme, hfound]
        exact if_pos hdrop
      · refine h.queued (by rw [← hme, hfound]; exact hslot) ⟨rfl, fun hzero => ?_, fun hone => ?_⟩
          (h.shaped 2 _)
        · rw [← hme, hfound, hslot] at hzero
          cases hzero
        · rw [← hme, hfound, hslot] at hone
          cases hone
    · have hslot : Received.slot b ⟨ip, p, some entry⟩ = 0 := if_neg hdrop
      have hlookup : lookupPft order me ip (b.group ip) p (b.dstPorts ip) =
          addEntry (order.kind 0) p (PortList.setPort entry.port) := by
        rw [hfound]
        exact if_neg hdrop
      have hshaped := h.shaped 0 (s.pft (order.kind 0)).length
      by_cases hkind : order.kind 0 = .ucast
      · rw [hkind] at hshaped
        obtain ⟨port, hport⟩ := hshaped
        rw [← hkind] at hport
        refine .one (fun _ => hkind) (classify_eq (hroom' 0) hlookup (by rw [hport]; rfl)) ⟨?_, rfl⟩
        refine h.queued (by rw [← hme, hfound]; exact hslot) ⟨rfl, fun _ => ?_, fun hone => ?_⟩ ?_
        · rw [← hme, hfound]
          rfl
        · rw [← hme, hfound, hslot] at hone
          cases hone
        · rw [hkind]
          exact ⟨_, rfl⟩
      · have hnull : ((s.pft (order.kind 0)).entries (s.pft (order.kind 0)).length).plist =
            .null := by
          revert hshaped hkind
          cases order.kind 0 with
          | ucast => exact fun _ hne => absurd rfl hne
          | flood | discard => exact fun hnull _ => hnull
        refine .fail (e := .memory) (fun hdoable => hkind (hdoable hslot)) ?_ trivial
        have hcall : classify b order ip p s = (addEntry (order.kind 0) p
            (PortList.setPort entry.port) >>= fun _ =>
            modify fun s => { s with macTable := learn b s.macTable ip (s.pkts p) }) s := by
          rw [← hlookup]
          rfl
        rw [hcall]
        simp only [bind, StateT.bind]
        rw [addEntry_error (hroom' 0) (by rw [hnull]; rfl)]
        rfl

/-! ## The loops -/

theorem receive_eq {rest : List Nat} (h : s.inputs ip = p :: rest) :
    receive ip s = .ok (p, { s with inputs := update s.inputs ip rest }) := by
  simp only [receive, bind, StateT.bind, get, getThe, MonadStateOf.get, StateT.get, pure,
    Except.pure, Except.bind, h]
  rfl

theorem Receiving.of_inputs (h : Receiving a done s) (inputs : Nat → List Nat) :
    Receiving a done { s with inputs := inputs } :=
  ⟨h.pkts, h.next, h.outputs, h.pftSize, h.discarded, h.sent, h.macTable, h.holds, h.shaped⟩

variable {n packets : Nat} {ps : List Nat}

/-- The packets that are still received from a link or from several. -/
def nextReceived (a : Before b order) (done todo : List (Nat × Nat)) : List Received :=
  Bridge.received b a.pkts (learned b a.pkts a.macTable done) (todo.take (a.pftSize - done.length))

theorem nextReceived_nil : nextReceived a done [] = [] := by
  rw [nextReceived, take_nil]
  rfl

/-- **The loop over an input link.** -/
theorem receiveFrom_yields (h : Receiving a done s) (hroom : done.length < a.pftSize)
    (hinput : s.inputs ip = ps) :
    Yields (Task.Doable b order) (fun _ _ => True)
      ((nextReceived a done (ps.map (ip, ·))).map .queue)
      (receiveFrom b order ip ps.length done.length) s fun res s' =>
        Receiving a (done ++ (ps.map (ip, ·)).take (a.pftSize - done.length)) s' ∧
        s'.inputs = update s.inputs ip (ps.drop (a.pftSize - done.length)) ∧
        res = if a.pftSize ≤ done.length + ps.length then none
          else some (done.length + ps.length) := by
  induction ps generalizing done s with
  | nil =>
    have hcall : receiveFrom b order ip 0 done.length s = .ok (some done.length, s) := rfl
    rw [map_nil, nextReceived_nil]
    refine .done hcall ⟨by rwa [take_nil, append_nil], ?_, ?_⟩
    · rw [drop_nil, ← hinput]
      exact (update_eq_self _ _).symm
    · rw [if_neg (by simpa using hroom)]
      rfl
  | cons p ps ih =>
    obtain ⟨k, hk⟩ : ∃ k, a.pftSize - done.length = k + 1 :=
      ⟨_, (Nat.succ_pred_eq_of_pos (by omega)).symm⟩
    set s₁ : State := { s with inputs := update s.inputs ip ps } with hs₁
    have h₁ : Receiving a done s₁ := h.of_inputs _
    have hcall : receiveFrom b order ip (p :: ps).length done.length s =
        (classify b order ip p >>= fun _ => get >>= fun s' =>
          if s'.pftSize ≤ done.length + 1 then pure none
          else receiveFrom b order ip ps.length (done.length + 1)) s₁ := by
      change (receive ip >>= fun p => classify b order ip p >>= fun _ => get >>= fun s' =>
        if s'.pftSize ≤ done.length + 1 then pure none
          else receiveFrom b order ip ps.length (done.length + 1)) s = _
      simp only [bind, StateT.bind, receive_eq hinput]
      rfl
    have htasks : (nextReceived a done ((p :: ps).map (ip, ·))).map Task.queue =
        [.queue ⟨ip, p, s₁.macTable.lookup (mac2u64 (s₁.pkts p).data 0)⟩] ++
          (nextReceived a (done ++ [(ip, p)]) (ps.map (ip, ·))).map .queue := by
      have hlength : a.pftSize - (done ++ [(ip, p)]).length = k := by
        rw [List.length_append, length_singleton]
        omega
      rw [nextReceived, nextReceived, hk, hlength, learned_append, ← h.macTable, ← h.pkts]
      rfl
    have hsnoc : done ++ ((p :: ps).map (ip, ·)).take (a.pftSize - done.length) =
        (done ++ [(ip, p)]) ++ (ps.map (ip, ·)).take k := by
      rw [hk, map_cons, take_succ_cons, append_assoc, singleton_append]
    have hdrop : (p :: ps).drop (a.pftSize - done.length) = ps.drop k := by
      rw [hk, drop_succ_cons]
    rw [htasks, hsnoc, hdrop]
    refine .of_eq hcall (Yields.bind (classify_works h₁ hroom) ?_)
    rintro - s₂ ⟨h₂, hinputs⟩
    have hinputs : s₂.inputs = update s.inputs ip ps := hinputs
    by_cases hfull : a.pftSize ≤ done.length + 1
    · have hzero : k = 0 := by omega
      subst hzero
      have htake : nextReceived a (done ++ [(ip, p)]) (ps.map (ip, ·)) = [] := by
        rw [nextReceived, List.length_append, length_singleton, Nat.sub_eq_zero_of_le hfull]
        rfl
      rw [htake, take_zero, append_nil]
      have hlast : (get >>= fun s' : State => if s'.pftSize ≤ done.length + 1 then pure none
          else receiveFrom b order ip ps.length (done.length + 1) : Call (Option Nat)) s₂ =
            .ok (none, s₂) := by
        change (if s₂.pftSize ≤ done.length + 1 then pure none else _ : Call _) s₂ = _
        rw [h₂.pftSize, if_pos hfull]
        rfl
      refine .done hlast ⟨h₂, hinputs, ?_⟩
      rw [length_cons, if_pos (by omega)]
    · have hlength : (done ++ [(ip, p)]).length = done.length + 1 := by simp
      have hrest := ih h₂ (by rw [hlength]; omega)
        (by rw [hinputs, update_self])
      have hsub : a.pftSize - (done.length + 1) = k := by omega
      rw [hlength, hsub] at hrest
      refine .of_eq ?_ (hrest.mono ?_)
      · change (if s₂.pftSize ≤ done.length + 1 then pure none else _ : Call _) s₂ = _
        rw [h₂.pftSize, if_neg hfull]
      · rintro res s' ⟨hs', hinputs', rfl⟩
        refine ⟨hs', ?_, ?_⟩
        · rw [hinputs', hinputs, update_idem]
        · rw [length_cons, Nat.add_assoc, Nat.add_comm 1]

theorem incoming_cons (ip : Nat) (ips : List Nat) (inputs : Nat → List Nat) :
    incoming (ip :: ips) inputs = (inputs ip).map (ip, ·) ++ incoming ips inputs :=
  flatMap_cons

theorem incoming_congr {inputs inputs' : Nat → List Nat}
    (h : ∀ ip ∈ ips, inputs ip = inputs' ip) : incoming ips inputs = incoming ips inputs' := by
  induction ips with
  | nil => rfl
  | cons ip ips ih =>
    rw [incoming_cons, incoming_cons, h ip mem_cons_self,
      ih fun ip' hip' => h ip' (mem_cons_of_mem ip hip')]

theorem receivePorts_cons (ip n : Nat) (ips : List Nat) (s : State) :
    receivePorts b order (ip :: ips) n s =
      (receiveFrom b order ip (s.inputs ip).length n >>= fun
        | some packets => receivePorts b order ips packets
        | none => pure true) s := rfl

/-- **The loop over the ingress ports.** -/
theorem receivePorts_yields (hips : ips.Nodup) (h : Receiving a done s)
    (hroom : done.length < a.pftSize) :
    Yields (Task.Doable b order) (fun _ _ => True)
      ((nextReceived a done (incoming ips s.inputs)).map .queue)
      (receivePorts b order ips done.length) s fun full s' =>
        Receiving a (done ++ (incoming ips s.inputs).take (a.pftSize - done.length)) s' ∧
        incoming ips s'.inputs = (incoming ips s.inputs).drop (a.pftSize - done.length) ∧
        (∀ ip ∉ ips, s'.inputs ip = s.inputs ip) ∧
        full = decide (a.pftSize ≤ done.length + (incoming ips s.inputs).length) := by
  induction ips generalizing done s with
  | nil =>
    have hnone : incoming [] s.inputs = [] := rfl
    have hcall : receivePorts b order [] done.length s = .ok (false, s) := rfl
    rw [hnone, nextReceived_nil]
    refine .done hcall ⟨?_, by rw [drop_nil]; rfl, fun _ _ => rfl, ?_⟩
    · rwa [take_nil, append_nil]
    · rw [length_nil]
      exact (decide_eq_false (by omega)).symm
  | cons ip ips ih =>
    obtain ⟨hip, hips⟩ := nodup_cons.mp hips
    set link := (s.inputs ip).map (ip, ·) with hlink
    have hlength : link.length = (s.inputs ip).length := length_map ..
    have hsplit : incoming (ip :: ips) s.inputs = link ++ incoming ips s.inputs :=
      incoming_cons ip ips s.inputs
    have htasks : (nextReceived a done (incoming (ip :: ips) s.inputs)).map Task.queue =
        (nextReceived a done link).map .queue ++
          (nextReceived a (done ++ link.take (a.pftSize - done.length))
            (if a.pftSize ≤ done.length + link.length then [] else incoming ips s.inputs)).map
              .queue := by
      rw [← map_append, nextReceived, hsplit, take_append, received_append,
        ← learned_append]
      congr 2
      unfold nextReceived
      split_ifs with hfull
      · rw [Nat.sub_eq_zero_of_le (by omega : a.pftSize - done.length ≤ link.length), take_zero,
          take_nil]
      · have hall : link.take (a.pftSize - done.length) = link :=
          take_of_length_le (by omega)
        rw [hall, List.length_append, Nat.sub_add_eq]
    rw [htasks]
    refine .of_eq (receivePorts_cons ip _ ips s) (Yields.bind (receiveFrom_yields h hroom rfl) ?_)
    rintro res s₁ ⟨h₁, hinputs, rfl⟩
    have hothers : incoming ips s₁.inputs = incoming ips s.inputs := by
      refine incoming_congr fun ip' hip' => ?_
      have hne : ip' ≠ ip := fun heq => hip (heq ▸ hip')
      rw [hinputs, update_of_ne hne]
    have hown : (s₁.inputs ip).map (ip, ·) = link.drop (a.pftSize - done.length) := by
      rw [hinputs, update_self, map_drop]
    have hin ip' (hip' : ip' ∉ ip :: ips) : s₁.inputs ip' = s.inputs ip' := by
      have hne : ip' ≠ ip := fun heq => hip' (heq ▸ mem_cons_self)
      rw [hinputs, update_of_ne hne]
    rw [← hlength]
    split_ifs with hfull
    · have hzero : a.pftSize - done.length - link.length = 0 := by omega
      have htake : (incoming (ip :: ips) s.inputs).take (a.pftSize - done.length) =
          link.take (a.pftSize - done.length) := by
        rw [hsplit, take_append, hzero, take_zero, append_nil]
      rw [nextReceived_nil]
      refine .done rfl ⟨by rwa [htake], ?_, hin, ?_⟩
      · rw [incoming_cons, hown, hothers, hsplit, drop_append, hzero, drop_zero]
      · rw [hsplit, List.length_append]
        exact (decide_eq_true (by omega)).symm
    · have hall : link.take (a.pftSize - done.length) = link := take_of_length_le (by omega)
      rw [hall] at h₁ ⊢
      have hlen : (done ++ link).length = done.length + link.length := List.length_append
      have hrest := ih hips h₁ (by omega)
      rw [hothers, hlen] at hrest
      refine hrest.mono ?_
      rintro full s' ⟨hs', hdrop, hin', rfl⟩
      refine ⟨?_, ?_, fun ip' hip' => ?_, ?_⟩
      · rw [hsplit, take_append, hall, ← append_assoc, ← Nat.sub_add_eq]
        exact hs'
      · rw [incoming_cons, hin' ip hip, hown, hdrop, hsplit, drop_append, ← Nat.sub_add_eq]
      · rw [hin' ip' fun hmem => hip' (mem_cons_of_mem ip hmem), hin ip' hip']
      · rw [hsplit, List.length_append, Nat.add_assoc]

end Bridge

end Snabb
