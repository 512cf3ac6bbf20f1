import Snabb.Apps.Bridge.Forward
import Mathlib.Data.Fintype.EquivFin

/-!
# A push

A push receives packets and then goes through the three tables. It fails at the first packet that it
cannot put into a table or forward from there.

`push_works`: what a push does.
-/

namespace Snabb

open List

namespace Bridge

open Foundation

variable {b : Bridge} {order : PairsOrder} {a : Before b order} {s s' : State} {r : Received}
  {rs rest : List Received} {freed : List Nat} {work : List (Received × List Nat)} {i : Fin 3}

/-! ## Entries of a table -/

variable {pft : Pft} {body : PftEntry → Call Unit} {ip : Nat} {kind : Kind} {t : MacTable}
  {pkts : Nat → Frame} {xs : List (Nat × Nat)} {j : Fin 3}

/-- **The loop over a table.** -/
theorem forEntries_works {ι : Type} {C : ι → Prop} {E : ι → Fault → Prop} {t : Received → ι}
    {P : PortList → Prop} (I : List Received → State → Prop) (hpft : Holds b pft rs)
    (hP : ∀ j, P (pft.entries j).plist)
    (h : ∀ r rest e s, Fits b r e → P e.plist → I (r :: rest) s →
      Works C E [t r] (body e) s (I rest)) (hI : I rs s) :
    Works C E (rs.map t) (forEntries pft body) s (I []) := by
  have hfrom (rest done : List Received) (hsplit : rs = done ++ rest) s (hs : I rest s) :
      Works C E (rest.map t) ((List.range' done.length rest.length).forM fun i =>
        body (pft.entries i)) s (I []) := by
    induction rest generalizing done s with
    | nil => exact .done rfl hs
    | cons r rest ih =>
      have hlt : done.length < rs.length := by
        rw [hsplit]
        simp
      have hfits : Fits b r (pft.entries done.length) := by
        have hentry := hpft.entries done.length hlt
        simpa [hsplit] using hentry
      have hrest := ih (done ++ [r]) (by rw [hsplit]; simp)
      rw [List.length_append] at hrest
      exact (h r rest _ s hfits (hP _) hs).bind fun s' hs' => hrest s' hs'
  unfold forEntries
  rw [hpft.length, range_eq_range']
  exact hfrom rs [] rfl s hI

/-- The ports that a packet is sent to. -/
def sends (b : Bridge) (order : PairsOrder) (r : Received) : Received × List Nat :=
  (r, (r.ports b order).getD [])

/-- Packets of a table that are still to be dealt with. -/
structure Left (a : Before b order) (i : Fin 3) (work : List (Received × List Nat))
    (freed : List Nat) (rs : List Received) : Prop where
  slot : ∀ r ∈ rs, r.slot b = i
  inUse : ∀ r ∈ rs, r.p < a.next
  queued : ∀ r ∈ rs, Task.Doable b order (.queue r)
  port : ∀ r ∈ rs, r.slot b = 0 → r.port ∈ b.handlesOf
  nodup : (work.map (·.1.p) ++ freed ++ rs.map Received.p).Nodup

section

variable (h : Left a i work freed (r :: rest))
include h

theorem Left.fresh : Fresh a work freed r := by
  have hnew : r.p ∉ work.map (·.1.p) ++ freed := by
    have hdisjoint := (nodup_append.mp h.nodup).2.2
    exact fun hmem => hdisjoint _ hmem r.p (by simp) rfl
  rw [mem_append, not_or] at hnew
  exact ⟨h.inUse r mem_cons_self, hnew.1, hnew.2⟩

theorem Left.sent {ports : List Nat} :
    Left a i (work ++ [(r, ports)]) freed rest where
  slot r hr := h.slot r (mem_cons_of_mem _ hr)
  inUse r hr := h.inUse r (mem_cons_of_mem _ hr)
  queued r hr := h.queued r (mem_cons_of_mem _ hr)
  port r hr := h.port r (mem_cons_of_mem _ hr)
  nodup := by
    refine (List.Perm.nodup_iff ?_).mp h.nodup
    rw [ps_snoc, append_assoc, append_assoc, append_assoc]
    exact perm_middle.append_left _

theorem Left.dropped :
    Left a i work (freed ++ [r.p]) rest where
  slot r hr := h.slot r (mem_cons_of_mem _ hr)
  inUse r hr := h.inUse r (mem_cons_of_mem _ hr)
  queued r hr := h.queued r (mem_cons_of_mem _ hr)
  port r hr := h.port r (mem_cons_of_mem _ hr)
  nodup := by
    have hnodup := h.nodup
    simpa using hnodup

end

theorem dstPorts_subset {port : Nat} (h : port ∈ b.dstPorts ip) : port ∈ b.handlesOf :=
  mem_of_mem_filter h

theorem ports_eq (h : r.slot b = i) (hkind : order.kind i = kind) :
    r.ports b order = r.portsIn b i kind := by
  rw [Received.ports, h, hkind]

section Entries

variable {e : PftEntry} {E : Task → Fault → Prop}

/-- **An entry of the table for unicast forwarding.** -/
theorem unicast_works (hi : order.kind i = .ucast) (hleft : Left a i work freed (r :: rest))
    (he : Fits b r e) (hshape : Shaped i .ucast e.plist) (h : Forwarding a work freed s) :
    Works (Task.Doable b order) (fun _ _ => True) [.forward r] (unicast b e) s fun s' =>
      Forwarding a (work ++ [sends b order r]) freed s' := by
  have hslot := hleft.slot r mem_cons_self
  have hports := ports_eq hslot hi
  have hsend {port : Nat} (hplist : e.plist.port 0 = some port) (hport : port ∈ b.handlesOf)
      (hr : r.ports b order = some [port]) :
      Works (Task.Doable b order) (fun _ _ => True) [.forward r] (unicast b e) s fun s' =>
        Forwarding a (work ++ [sends b order r]) freed s' := by
    have hcall : unicast b e s = .ok ((), transmitted s r.p port r.p) := by
      simp only [unicast, bind, StateT.bind, portAt_eq hplist]
      rw [he.p]
      exact transmit_eq hport
    refine .one ?_ hcall ?_
    · change (r.ports b order).isSome
      rw [hr]
      rfl
    · rw [sends, hr]
      exact h.one hleft.fresh
  have hfail fault (hr : r.ports b order = none)
      (hcall : unicast b e s = .error fault) :
      Works (Task.Doable b order) (fun _ _ => True) [.forward r] (unicast b e) s fun s' =>
        Forwarding a (work ++ [sends b order r]) freed s' := by
    refine .fail (fun hdo => ?_) hcall trivial
    rw [Task.Doable, hr] at hdo
    cases hdo
  match i with
  | 0 =>
    have hown := he.own hslot
    exact hsend (by rw [hown]; rfl) (hleft.port r mem_cons_self hslot) hports
  | 1 =>
    have hflooding := he.flooding hslot
    have hhead : r.ports b order = (b.dstPorts r.ip).head?.map ([·]) := hports
    cases hdst : b.dstPorts r.ip with
    | nil =>
      refine hfail .memory (by rw [hhead, hdst]; rfl) ?_
      simp only [unicast, bind, StateT.bind]
      rw [portAt_error (by rw [hflooding, hdst]; rfl)]
      rfl
    | cons d ds =>
      have hd : d ∈ b.dstPorts r.ip := by
        rw [hdst]
        exact mem_cons_self
      exact hsend (by rw [hflooding, hdst]; rfl) (dstPorts_subset hd) (by rw [hhead, hdst]; rfl)
  | 2 =>
    -- The port list is as it was allocated, and there is no port 0.
    have hown : e.plist = .own 0 := hshape
    refine hfail .nilPort hports ?_
    have hzero : portAt e.plist 0 s = .ok (0, s) := portAt_eq (by rw [hown]; rfl)
    simp only [unicast, bind, StateT.bind, hzero]
    exact transmit_nilPort (by simp [handlesOf])

/-- **An entry of the table for flooding.** -/
theorem floodEntry_works (hi : order.kind i = .flood) (hleft : Left a i work freed (r :: rest))
    (he : Fits b r e) (hshape : Shaped i .flood e.plist) (h : Forwarding a work freed s) :
    Works (Task.Doable b order) (fun _ _ => True) [.forward r] (flood b e) s fun s' =>
      Forwarding a (work ++ [sends b order r]) freed s' := by
  have hslot := hleft.slot r mem_cons_self
  have hports := ports_eq hslot hi
  have hfail (hr : r.ports b order = none) (hnone : e.plist.port 0 = none) :
      Works (Task.Doable b order) (fun _ _ => True) [.forward r] (flood b e) s fun s' =>
        Forwarding a (work ++ [sends b order r]) freed s' := by
    refine .fail (e := .memory) (fun hdo => ?_) ?_ trivial
    · rw [Task.Doable, hr] at hdo
      cases hdo
    · simp only [flood, bind, StateT.bind]
      rw [portAt_error hnone]
      rfl
  match i with
  | 0 =>
    have hnull : e.plist = .null := hshape
    exact hfail hports (by rw [hnull]; rfl)
  | 1 =>
    have hflooding := he.flooding hslot
    have hall : r.ports b order =
        if b.dstPorts r.ip = [] then none else some (b.dstPorts r.ip) := hports
    cases hdst : b.dstPorts r.ip with
    | nil => exact hfail (by rw [hall, hdst]; rfl) (by rw [hflooding, hdst]; rfl)
    | cons d ds =>
      have hsome : r.ports b order = some (d :: ds) := by
        rw [hall, hdst]
        rfl
      have hmem port (hport : port ∈ d :: ds) : port ∈ b.handlesOf := by
        rw [← hdst] at hport
        exact dstPorts_subset hport
      have hflood : Works (Task.Doable b order) (fun _ _ => True) [] (flood b e) s fun s' =>
          Forwarding a (work ++ [(r, d :: ds)]) freed s' :=
        flood_works hleft.fresh he.p (by rw [hflooding, hdst]) hmem h
      obtain ⟨s', hcall, hs'⟩ := hflood.returns fun t ht => absurd ht not_mem_nil
      refine .one ?_ hcall ?_
      · change (r.ports b order).isSome
        rw [hsome]
        rfl
      · rw [sends, hsome]
        exact hs'
  | 2 =>
    have hnull : e.plist = .null := hshape
    exact hfail hports (by rw [hnull]; rfl)

/-- The packet is freed. -/
def discarded (s : State) (p : Nat) : State :=
  { s with
    pkts := Function.update s.pkts p ⟨(s.pkts p).data, 0⟩
    discarded := s.discarded ++ [p] }

theorem Forwarding.discard (h : Forwarding a work freed s) (p : Nat) :
    Forwarding a work (freed ++ [p]) (discarded s p) := by
  refine ⟨⟨h.used.next_le, ?_, h.used.outputs, h.used.fresh, h.used.old, ?_⟩, h.logged⟩
  · intro q hq htouched hfreed
    rw [mem_append, not_or, mem_singleton] at hfreed
    simp only [discarded, Function.update_of_ne hfreed.2]
    exact h.used.pkts q hq htouched hfreed.1
  · rw [discarded, h.used.discarded]

/-- **An entry of the table for packets to be discarded.** -/
theorem discard_works (hi : order.kind i = .discard) (hleft : Left a i work freed (r :: rest))
    (he : Fits b r e) (h : Forwarding a work freed s) :
    Works (Task.Doable b order) (fun _ _ => True) [.forward r] (discard e) s fun s' =>
      Forwarding a work (freed ++ [r.p]) s' := by
  have hslot := hleft.slot r mem_cons_self
  have hports := ports_eq hslot hi
  have hcall : discard e s = .ok ((), discarded s r.p) := by
    rw [← he.p]
    rfl
  refine .one ?_ hcall (h.discard r.p)
  change (r.ports b order).isSome
  match i with
  | 0 =>
    -- Such a packet could not have been put into the table.
    have hkind := hleft.queued r mem_cons_self hslot
    rw [hi] at hkind
    cases hkind
  | 1 =>
    rw [hports]
    rfl
  | 2 =>
    rw [hports]
    rfl

end Entries

/-! ## The tables -/

/-- **A table** whose packets `worked` and `dropped` tell what becomes of. -/
theorem entries_works (worked : List Received → List (Received × List Nat))
    (dropped : List Received → List Nat) {P : PortList → Prop}
    (hentry : ∀ {done r rest e s}, Left a i (worked done) (dropped done) (r :: rest) →
      Fits b r e → P e.plist → Forwarding a (worked done) (dropped done) s →
      Works (Task.Doable b order) (fun _ _ => True) [.forward r] (body e) s
        (Forwarding a (worked (done ++ [r])) (dropped (done ++ [r]))))
    (hnext : ∀ {done r rest}, Left a i (worked done) (dropped done) (r :: rest) →
      Left a i (worked (done ++ [r])) (dropped (done ++ [r])) rest)
    (hpft : Holds b pft rs) (hP : ∀ j, P (pft.entries j).plist)
    (hleft : Left a i (worked []) (dropped []) rs)
    (h : Forwarding a (worked []) (dropped []) s) :
    Works (Task.Doable b order) (fun _ _ => True) (rs.map .forward) (forEntries pft body) s
      (Forwarding a (worked rs) (dropped rs)) := by
  refine (forEntries_works (fun rest s => ∃ done, rs = done ++ rest ∧
    Left a i (worked done) (dropped done) rest ∧
    Forwarding a (worked done) (dropped done) s) hpft hP ?_ ⟨[], rfl, hleft, h⟩).mono ?_
  · rintro r rest e s he hshape ⟨done, hsplit, hleft, hs⟩
    exact (hentry hleft he hshape hs).mono fun s' hs' =>
      ⟨done ++ [r], by simp [hsplit], hnext hleft, hs'⟩
  · rintro s' ⟨done, hsplit, -, hs'⟩
    rw [append_nil] at hsplit
    rwa [hsplit]

/-- **A table from which packets are sent.** -/
theorem sending_works (hentry : ∀ {r rest work e s}, Left a i work freed (r :: rest) → Fits b r e →
      Shaped i kind e.plist → Forwarding a work freed s →
      Works (Task.Doable b order) (fun _ _ => True) [.forward r] (body e) s fun s' =>
        Forwarding a (work ++ [sends b order r]) freed s') (hpft : Holds b pft rs)
    (hshaped : ∀ j, Shaped i kind (pft.entries j).plist) (hleft : Left a i work freed rs)
    (h : Forwarding a work freed s) :
    Works (Task.Doable b order) (fun _ _ => True) (rs.map .forward) (forEntries pft body) s
      fun s' => Forwarding a (work ++ rs.map (sends b order)) freed s' := by
  have hsnoc (done : List Received) (r : Received) : work ++ (done ++ [r]).map (sends b order) =
      work ++ done.map (sends b order) ++ [sends b order r] := by
    rw [map_append, append_assoc, map_singleton]
  rw [← append_nil work] at hleft h
  refine entries_works (fun done => work ++ done.map (sends b order)) (fun _ => freed)
    (fun hleft he hshape hs => ?_) (fun hleft => ?_) hpft hshaped hleft h
  · rw [hsnoc]
    exact hentry hleft he hshape hs
  · rw [hsnoc]
    exact hleft.sent

/-- **The table from which packets are discarded.** -/
theorem discarding_works (hi : order.kind i = .discard) (hpft : Holds b pft rs)
    (hleft : Left a i work freed rs) (h : Forwarding a work freed s) :
    Works (Task.Doable b order) (fun _ _ => True) (rs.map .forward) (forEntries pft discard) s
      fun s' => Forwarding a work (freed ++ rs.map Received.p) s' := by
  have hsnoc (done : List Received) (r : Received) :
      freed ++ (done ++ [r]).map Received.p = freed ++ done.map Received.p ++ [r.p] := by
    rw [map_append, append_assoc, map_singleton]
  rw [← append_nil freed] at hleft h
  refine entries_works (fun _ => work) (fun done => freed ++ done.map Received.p)
    (P := fun _ => True) (fun hleft he _ hs => ?_) (fun hleft => ?_) hpft (fun _ => trivial) hleft h
  · rw [hsnoc]
    exact discard_works hi hleft he hs
  · rw [hsnoc]
    exact hleft.dropped

/-! ## What forwarding leaves alone -/

/-- The input links and the tables are the same. -/
structure Same (s s' : State) : Prop where
  inputs : s'.inputs = s.inputs
  macTable : s'.macTable = s.macTable
  pft : s'.pft = s.pft
  pftSize : s'.pftSize = s.pftSize

theorem Same.refl (s : State) : Same s s := ⟨rfl, rfl, rfl, rfl⟩

theorem Same.trans {s'' : State} (h : Same s s') (h' : Same s' s'') : Same s s'' :=
  ⟨h'.inputs.trans h.inputs, h'.macTable.trans h.macTable, h'.pft.trans h.pft,
    h'.pftSize.trans h.pftSize⟩

/-- The computation leaves the input links and the tables as they are. -/
def Keeps {A : Type} (x : Call A) : Prop := ∀ s v s', x s = .ok (v, s') → Same s s'

section Keeps

variable {A B : Type} {x : Call A} {f : A → Call B}

theorem Keeps.bind (hx : Keeps x) (hf : ∀ v, Keeps (f v)) : Keeps (x >>= f) := by
  intro s v s' h
  obtain ⟨⟨v₁, s₁⟩, h₁, h₂⟩ := bind_eq_ok h
  exact (hx s v₁ s₁ h₁).trans (hf v₁ s₁ v s' h₂)

theorem Keeps.forM {f : A → Call Unit} (hf : ∀ v, Keeps (f v)) (vs : List A) :
    Keeps (vs.forM f) := by
  induction vs with
  | nil =>
    intro s v s' h
    cases h
    exact .refl s
  | cons v vs ih => exact Keeps.bind (hf v) fun _ => ih

theorem keeps_portAt (pl : PortList) (j : Nat) : Keeps (portAt pl j) := by
  intro s v s' h
  cases hport : pl.port j with
  | none =>
    rw [portAt_error hport] at h
    cases h
  | some port =>
    rw [portAt_eq hport] at h
    cases h
    exact .refl s

theorem keeps_transmit (origin port p : Nat) : Keeps (transmit b origin port p) := by
  intro s v s' h
  by_cases hport : port ∈ b.handlesOf
  · rw [transmit_eq hport] at h
    cases h
    exact ⟨rfl, rfl, rfl, rfl⟩
  · rw [transmit_nilPort hport] at h
    cases h

theorem keeps_clone (p : Nat) : Keeps (clone p) := by
  intro s v s' h
  cases h
  exact ⟨rfl, rfl, rfl, rfl⟩

theorem keeps_unicast (e : PftEntry) : Keeps (unicast b e) :=
  (keeps_portAt _ _).bind fun _ => keeps_transmit _ _ _

theorem keeps_flood (e : PftEntry) : Keeps (flood b e) := by
  refine (keeps_portAt _ _).bind fun _ => (keeps_transmit _ _ _).bind fun _ => ?_
  refine Keeps.forM (fun j => ?_) _
  exact (keeps_portAt _ _).bind fun _ => (keeps_clone _).bind fun _ => keeps_transmit _ _ _

theorem keeps_discard (e : PftEntry) : Keeps (discard e) := by
  intro s v s' h
  cases h
  exact ⟨rfl, rfl, rfl, rfl⟩

theorem keeps_forEntries {body : PftEntry → Call Unit} (h : ∀ e, Keeps (body e)) (pft : Pft) :
    Keeps (forEntries pft body) := Keeps.forM (fun _ => h _) _

/-- The three loops behind the one that receives packets. -/
def tables (b : Bridge) (pft : Kind → Pft) : Call Unit := do
  forEntries (pft .ucast) (unicast b)
  forEntries (pft .flood) (flood b)
  forEntries (pft .discard) discard

theorem keeps_tables (pft : Kind → Pft) : Keeps (tables b pft) :=
  (keeps_forEntries keeps_unicast _).bind fun _ =>
    (keeps_forEntries keeps_flood _).bind fun _ => keeps_forEntries keeps_discard _

end Keeps

/-! ## What is received -/

theorem learn_known (h : t.All (Known b)) (hip : ip ∈ b.handlesOf)
    (frame : Frame) : (learn b t ip frame).All (Known b) := by
  unfold learn
  split_ifs
  · exact h
  · exact ⟨HashTable.insert_all h.main fun _ => ⟨hip, rfl⟩,
      HashTable.insert_all h.shadow fun _ => ⟨hip, rfl⟩⟩

theorem learned_known (h : t.All (Known b)) (hxs : ∀ x ∈ xs, x.1 ∈ b.handlesOf) :
    (learned b pkts t xs).All (Known b) := by
  induction xs generalizing t with
  | nil => exact h
  | cons x xs ih =>
    exact ih (learn_known h (hxs x mem_cons_self) _)
      fun y hy => hxs y (mem_cons_of_mem x hy)

/-- **What is known of a destination** was learned from a port of the bridge. -/
theorem received_known (h : t.All (Known b)) (hxs : ∀ x ∈ xs, x.1 ∈ b.handlesOf) :
    ∀ r ∈ received b pkts t xs, ∀ me, r.me = some me → Known b me := by
  induction xs generalizing t with
  | nil => exact fun r hr => absurd hr not_mem_nil
  | cons x xs ih =>
    intro r hr me hme
    rcases mem_cons.mp hr with rfl | hr
    · exact MacTable.of_lookup h hme
    · exact ih (learn_known h (hxs x mem_cons_self) _)
        (fun y hy => hxs y (mem_cons_of_mem x hy)) r hr me hme

theorem fst_mem_of_mem_incoming {ips : List Nat} {inputs : Nat → List Nat} {x : Nat × Nat}
    (h : x ∈ incoming ips inputs) : x.1 ∈ ips := by
  obtain ⟨ip, hip, hx⟩ := mem_flatMap.mp h
  obtain ⟨p, -, rfl⟩ := mem_map.mp hx
  exact hip

variable (a)

theorem Before.received_ps :
    a.received.map Received.p = ((incoming b.handlesOf a.inputs).take a.pftSize).map Prod.snd := by
  rw [← received_map b a.pkts a.macTable ((incoming b.handlesOf a.inputs).take a.pftSize),
    map_map]
  rfl

theorem Before.received_nodup : (a.received.map Received.p).Nodup := by
  rw [a.received_ps, map_take]
  exact a.distinct.sublist (take_sublist _ _)

variable {a}

theorem Before.mem_received (hr : r ∈ a.received) : (r.ip, r.p) ∈ incoming b.handlesOf a.inputs := by
  have hmem : (r.ip, r.p) ∈ a.received.map fun r => (r.ip, r.p) := mem_map_of_mem hr
  unfold Before.received at hmem
  rw [received_map] at hmem
  exact mem_of_mem_take hmem

theorem Before.received_inUse (hr : r ∈ a.received) : r.p < a.next :=
  a.inUse _ (a.mem_received hr)

theorem Before.received_known {me : MacEntry} (hr : r ∈ a.received) (hme : r.me = some me) :
    Known b me :=
  Bridge.received_known a.known (fun _ hx => fst_mem_of_mem_incoming (mem_of_mem_take hx)) r hr
    me hme

theorem Received.known_of_slot (h : r.slot b ≠ 1) : ∃ me, r.me = some me := by
  cases hme : r.me with
  | none =>
    refine absurd ?_ h
    rw [Received.slot, hme]
  | some me => exact ⟨me, rfl⟩

theorem Before.received_port (hr : r ∈ a.received) (hslot : r.slot b = 0) :
    r.port ∈ b.handlesOf := by
  obtain ⟨me, hme⟩ := Received.known_of_slot (b := b) (r := r) (by rw [hslot]; decide)
  rw [Received.port, hme]
  exact (a.received_known hr hme).1

/-! ## The packets of the tables -/

theorem inSlot_sublist (i : Fin 3) (rs : List Received) : (inSlot b i rs).Sublist rs :=
  (recent_sublist _ _).trans filter_sublist

theorem slot_of_mem_inSlot (h : r ∈ inSlot b i rs) : r.slot b = i :=
  of_decide_eq_true (mem_filter.mp ((recent_sublist _ _).subset h)).2

theorem disjoint_inSlot (hij : i ≠ j) : (inSlot b i rs).Disjoint (inSlot b j rs) :=
  fun _ hi hj => hij ((slot_of_mem_inSlot hi).symm.trans (slot_of_mem_inSlot hj))

/-- The numbers of the tables for unicast forwarding, for flooding and for discarding. -/
structure Slots (order : PairsOrder) where
  u : Fin 3
  f : Fin 3
  d : Fin 3
  ucast : order.kind u = .ucast
  flood : order.kind f = .flood
  discard : order.kind d = .discard

instance : Fintype Kind where
  elems := {.ucast, .flood, .discard}
  complete kind := by cases kind <;> decide

theorem slots_exist (order : PairsOrder) : Nonempty (Slots order) := by
  have hcard : Fintype.card (Fin 3) = Fintype.card Kind := rfl
  have hsurj := ((Fintype.bijective_iff_injective_and_card order.kind).mpr ⟨order.inj, hcard⟩).2
  obtain ⟨u, hu⟩ := hsurj .ucast
  obtain ⟨f, hf⟩ := hsurj .flood
  obtain ⟨d, hd⟩ := hsurj .discard
  exact ⟨⟨u, f, d, hu, hf, hd⟩⟩

theorem Slots.ne {i : Fin 3} (h : order.kind i ≠ order.kind j) : i ≠ j :=
  fun heq => h (congrArg _ heq)

variable (σ : Slots order)

theorem Slots.uf : σ.u ≠ σ.f := Slots.ne (by rw [σ.ucast, σ.flood]; decide)

theorem Slots.ud : σ.u ≠ σ.d := Slots.ne (by rw [σ.ucast, σ.discard]; decide)

theorem Slots.fd : σ.f ≠ σ.d := Slots.ne (by rw [σ.flood, σ.discard]; decide)

/-- The packets of the three tables. -/
def Slots.all (σ : Slots order) (b : Bridge) (rs : List Received) : List Received :=
  inSlot b σ.u rs ++ inSlot b σ.f rs ++ inSlot b σ.d rs

theorem Slots.all_subset : σ.all b rs ⊆ rs :=
  append_subset.mpr ⟨append_subset.mpr ⟨(inSlot_sublist _ _).subset,
    (inSlot_sublist _ _).subset⟩, (inSlot_sublist _ _).subset⟩

/-- **No packet is in two tables.** -/
theorem Slots.all_nodup (h : (rs.map Received.p).Nodup) : ((σ.all b rs).map Received.p).Nodup := by
  have hrs : rs.Nodup := List.Nodup.of_map _ h
  have hslot i : (inSlot b i rs).Nodup := hrs.sublist (inSlot_sublist i rs)
  have hboth : (inSlot b σ.u rs ++ inSlot b σ.f rs).Nodup :=
    List.Nodup.append (hslot _) (hslot _) (disjoint_inSlot σ.uf)
  have hlast : (inSlot b σ.u rs ++ inSlot b σ.f rs).Disjoint (inSlot b σ.d rs) :=
    disjoint_append_left.mpr ⟨disjoint_inSlot σ.ud, disjoint_inSlot σ.fd⟩
  have hall : (σ.all b rs).Nodup := List.Nodup.append hboth (hslot _) hlast
  refine List.Nodup.map_on (fun x hx y hy heq => ?_) hall
  exact inj_on_of_nodup_map h (σ.all_subset hx) (σ.all_subset hy) heq

/-! ## The push -/

/-- Everything that a push has to do. -/
def Slots.tasks (σ : Slots order) (b : Bridge) (rs : List Received) : List Task :=
  rs.map .queue ++ ((inSlot b σ.u rs).map .forward ++
    ((inSlot b σ.f rs).map .forward ++ (inSlot b σ.d rs).map .forward))

/-- The bridge behind a push. -/
structure Pushed (σ : Slots order) (a : Before b order) (s : State) : Prop where
  forwarding : Forwarding a
    ((inSlot b σ.u a.received ++ inSlot b σ.f a.received).map (sends b order))
    ((inSlot b σ.d a.received).map Received.p) s
  waiting : incoming b.handlesOf s.inputs = (incoming b.handlesOf a.inputs).drop a.pftSize
  known : s.macTable.All (Known b)
  shaped : ∀ i j, Shaped i (order.kind i) ((s.pft (order.kind i)).entries j).plist
  pftSize_pos : 0 < s.pftSize

/-- The tables are emptied. -/
def emptied (s : State) : State := { s with pft := fun kind => { s.pft kind with length := 0 } }

theorem receiving_emptied (a : Before b order) : Receiving a [] (emptied a.toState) where
  pkts := rfl
  next := rfl
  outputs := rfl
  pftSize := rfl
  discarded := a.discarded_eq
  sent := a.sent_eq
  macTable := rfl
  holds i := by
    have hnone : inSlot b i [] = [] := drop_nil
    exact ⟨congrArg List.length hnone.symm, fun j hj => by simp [received, hnone] at hj⟩
  shaped := a.shaped

theorem forwarding_nil (hpkts : s.pkts = a.pkts) (hnext : s.next = a.next)
    (houtputs : s.outputs = a.outputs) (hdiscarded : s.discarded = []) (hsent : s.sent = []) :
    Forwarding a [] [] s := by
  have hused : Used a [] [] [] s := by
    refine ⟨hnext.ge, fun p _ _ _ => by rw [hpkts], fun port => ?_, ?_, ?_, hdiscarded⟩
    · rw [houtputs]
      exact (min_eq_right (a.fits port)).symm
    · rw [hsent, hnext, Nat.sub_self]
      rfl
    · rw [hsent]
      rfl
  refine ⟨hused, ?_⟩
  rw [hsent]
  exact .nil

theorem shaped_new (order : PairsOrder) (i : Fin 3) (j : Nat) :
    Shaped i (order.kind i) ((Pft.new (order.kind i)).entries j).plist := by
  match i with
  | 0 =>
    cases order.kind 0 with
    | ucast => exact ⟨0, rfl⟩
    | flood => rfl
    | discard => rfl
  | 1 => trivial
  | 2 => cases order.kind 2 <;> rfl

/-- Behind the loop over the ingress ports, where the tables are replaced if they are full. -/
def enlarged (full : Bool) (s : State) : State :=
  if full then { s with pft := Pft.new, pftSize := s.pftSize + initialPftSize } else s

theorem left_inSlot (a : Before b order) {freed : List Nat} {work : List (Received × List Nat)}
    (hqueued : ∀ t ∈ a.received.map .queue, Task.Doable b order t)
    (hnodup : (work.map (·.1.p) ++ freed ++ (inSlot b i a.received).map Received.p).Nodup) :
    Left a i work freed (inSlot b i a.received) where
  slot _ hr := slot_of_mem_inSlot hr
  inUse _ hr := a.received_inUse ((inSlot_sublist _ _).subset hr)
  queued _ hr := hqueued _ (mem_map_of_mem ((inSlot_sublist _ _).subset hr))
  port _ hr := a.received_port ((inSlot_sublist _ _).subset hr)
  nodup := hnodup

theorem ps_sends (rs : List Received) :
    (rs.map (sends b order)).map (·.1.p) = rs.map Received.p := by
  rw [map_map]
  rfl

theorem push_eq (b : Bridge) (order : PairsOrder) (s : State) :
    push b order s = (receivePorts b order b.handlesOf 0 >>= fun full s =>
      tables b s.pft (enlarged full s)) (emptied s) := by
  change Except.bind (receivePorts b order b.handlesOf 0 (emptied s)) _ = _
  congr 1
  funext res
  obtain ⟨full, s⟩ := res
  cases full <;> rfl

/-- **The packets of the three tables** are dealt with. -/
theorem tables_works (σ : Slots order) {pft : Kind → Pft} (h : Forwarding a [] [] s)
    (hqueued : ∀ t ∈ a.received.map .queue, Task.Doable b order t)
    (hholds : ∀ i, Holds b (pft (order.kind i)) (inSlot b i a.received))
    (hshaped : ∀ i j, Shaped i (order.kind i) ((pft (order.kind i)).entries j).plist) :
    Works (Task.Doable b order) (fun _ _ => True)
      ((inSlot b σ.u a.received).map .forward ++ ((inSlot b σ.f a.received).map .forward ++
        (inSlot b σ.d a.received).map .forward)) (tables b pft) s fun s' =>
      Forwarding a ((inSlot b σ.u a.received ++ inSlot b σ.f a.received).map (sends b order))
        ((inSlot b σ.d a.received).map Received.p) s' := by
  have hnodup := σ.all_nodup (b := b) a.received_nodup
  unfold Slots.all at hnodup
  rw [map_append, map_append] at hnodup
  have hboth := (nodup_append.mp hnodup).1
  have hkind i {kind : Kind} (hi : order.kind i = kind) :
      Holds b (pft kind) (inSlot b i a.received) ∧
        ∀ j, Shaped i kind ((pft kind).entries j).plist := by
    subst hi
    exact ⟨hholds i, hshaped i⟩
  obtain ⟨hu, hushaped⟩ := hkind σ.u σ.ucast
  obtain ⟨hf, hfshaped⟩ := hkind σ.f σ.flood
  obtain ⟨hd, -⟩ := hkind σ.d σ.discard
  rw [map_append]
  refine Works.bind (sending_works (unicast_works σ.ucast) hu hushaped (left_inSlot a hqueued ?_)
    h) fun s₁ h₁ => ?_
  · rw [map_nil, nil_append, nil_append]
    exact (nodup_append.mp hboth).1
  rw [nil_append] at h₁
  refine Works.bind (sending_works (floodEntry_works σ.flood) hf hfshaped
    (left_inSlot a hqueued ?_) h₁) fun s₂ h₂ => ?_
  · rw [ps_sends, append_nil]
    exact hboth
  rw [← nil_append (map Received.p _)]
  refine discarding_works σ.discard hd (left_inSlot a hqueued ?_) h₂
  rw [map_append, ps_sends, ps_sends, append_nil]
  exact hnodup

/-- **A push** does all that it has to do, or fails. -/
theorem push_works (σ : Slots order) (a : Before b order) :
    Works (Task.Doable b order) (fun _ _ => True) (σ.tasks b a.received) (push b order) a.toState
      (Pushed σ a) := by
  have hips : b.handlesOf.Nodup := nodup_range'
  have hreceive := receivePorts_yields hips (receiving_emptied a) a.pftSize_pos
  refine .of_eq (push_eq b order a.toState) (Yields.bind hreceive.known ?_)
  rintro full s₁ ⟨⟨h₁, hwaiting, -, -⟩, hqueued⟩
  have hforward : Forwarding a [] [] (enlarged full s₁) := by
    cases full <;> exact forwarding_nil h₁.pkts h₁.next h₁.outputs h₁.discarded h₁.sent
  refine Works.of_eq rfl (x := tables b s₁.pft) (((tables_works σ hforward hqueued h₁.holds
    h₁.shaped).and fun s' hs' => keeps_tables _ _ _ _ hs').mono ?_)
  rintro s' ⟨hs', hsame⟩
  have hknown : s₁.macTable.All (Known b) := by
    rw [h₁.macTable]
    exact learned_known a.known fun _ hx => fst_mem_of_mem_incoming (mem_of_mem_take hx)
  have hpos : 0 < s₁.pftSize := h₁.pftSize ▸ a.pftSize_pos
  refine ⟨hs', ?_, ?_, fun i j => ?_, ?_⟩
  · rw [hsame.inputs]
    cases full <;> exact hwaiting
  · rw [hsame.macTable]
    cases full <;> exact hknown
  · rw [hsame.pft]
    cases full
    · exact h₁.shaped i j
    · exact shaped_new order i j
  · rw [hsame.pftSize]
    cases full
    · exact hpos
    · exact Nat.add_pos_left hpos _

end Bridge

end Snabb
