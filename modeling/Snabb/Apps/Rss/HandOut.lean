import Snabb.Apps.Rss.Classify

/-!
# Handing out

The packets of each class are handed out to its links. A packet that several classes have is copied
for each but the last of them: its reference count says how many are left.

- `handOut_works`: what the last loops of `push_with_vlan` do.
-/

namespace Snabb

open List
open Function (update update_eq_self update_idem update_of_ne update_self)

namespace Rss

open Foundation

variable {fuel : Nat} {rss : Config} {vlan : Option Nat} {a : Arrival} {p : Nat}

/-! ## Packets with their meta-data -/

/-- A packet as `md_wrapper` leaves it. -/
structure Pkt.Complete (p : Pkt) : Prop extends p.Marked where
  ref : p.md.ref = 0
  pointers : setPointers p.md = p.md
  hash : p.md.hash < 65536

theorem hash_lt (hashFn : Nat → FlowKey → Nat) (p : Pkt) : (hash hashFn p).md.hash < 65536 := by
  unfold hash
  dsimp only
  cases hashInfo p.md.ethertype with
  | none => exact (by decide : 0 < 65536)
  | some info =>
    change uint16 _ < 65536
    unfold uint16
    omega

/-- **A packet that gets its meta-data has it.** -/
theorem prepared_complete (h : (Task.addMd p).Doable fuel rss vlan a) :
    (prepared fuel rss vlan a p).Complete := by
  obtain ⟨pkt, hadd⟩ := h
  have hprepared : prepared fuel rss vlan a p = hash rss.hashFn pkt := by
    unfold prepared
    rw [hadd]
  rcases add_cases fuel (a.pkts p) rss.rmExtHeaders vlan with
    ⟨-, h⟩ | ⟨-, h⟩ | ⟨⟨hroom, -⟩, pkt', h, hmagic, href, -, hheadroom⟩
  · rw [hadd] at h
    cases h
  · rw [hadd] at h
    cases h
  · rw [hadd] at h
    cases h
    rw [hprepared]
    refine ⟨⟨hmagic, ?_⟩, href, ?_, hash_lt _ _⟩
    · change mdLen ≤ pkt.headroom
      rw [hheadroom]
      exact hroom
    · obtain ⟨-, -, hrest⟩ := bind_eq_ok hadd
      obtain ⟨⟨md, p'⟩, -, hpkt⟩ := bind_eq_ok hrest
      cases hpkt
      rfl

/-! ## Copies -/

/-- The one packet is the other, up to the reference count and what stands behind its end. -/
structure Pkt.CopyOf (q p : Pkt) : Prop where
  length : q.length = p.length
  data : ∀ i < p.length, q.data i = p.data i
  md : { q.md with ref := p.md.ref } = p.md

theorem copyOf_withRef (p : Pkt) (n : Nat) : (p.withRef n).CopyOf p :=
  ⟨rfl, fun _ _ => rfl, rfl⟩

/-- The link of a class that a packet is for. -/
def Class.linkFor (cls : Class) (p : Pkt) : Option String :=
  cls.output[linkIndex cls.output.length p.md.hash]?

variable {pkt : Pkt} {link : String} {hash : Nat} {task : Class × Nat} {e : Sent}

/-- **There is a link wherever there are links**: the index is in the list. -/
theorem linkFor_isSome {cls : Class} (hhash : pkt.md.hash < 65536)
    (h : cls.output ≠ []) : ∃ link ∈ cls.output, cls.linkFor pkt = some link := by
  have hpos : 0 < cls.output.length := length_pos_iff.mpr h
  have hlt : linkIndex cls.output.length pkt.md.hash < cls.output.length := by
    unfold linkIndex
    rw [Nat.shiftRight_eq_div_pow, Nat.div_lt_iff_lt_mul (by decide)]
    calc pkt.md.hash * cls.output.length % 2 ^ 32
        ≤ pkt.md.hash * cls.output.length := Nat.mod_le _ _
      _ < 2 ^ 16 * cls.output.length := Nat.mul_lt_mul_of_pos_right hhash hpos
      _ = cls.output.length * 2 ^ 16 := Nat.mul_comm _ _
  exact ⟨_, getElem_mem hlt, List.getElem?_eq_getElem hlt⟩

/-! ## Handing out one packet -/

section Handing

variable (fuel : Nat) (rss : Config) (vlan : Option Nat) (a : Arrival)

/-- A packet was handed out for a class: itself, or a copy of it. -/
structure HandedOut (s : State) (task : Class × Nat) (e : Sent) : Prop where
  arrived : task.2 ∈ a.order
  cls : e.cls = task.1.seq
  link : task.1.linkFor (prepared fuel rss vlan a task.2) = some e.link
  ptr : e.ptr = task.2 ∨ a.next ≤ e.ptr ∧ e.ptr < s.next
  copy : (s.pkts e.ptr).CopyOf (prepared fuel rss vlan a task.2)

/-- The reference count of a packet. -/
def State.ref (s : State) (p : Nat) : Nat := (s.pkts p).md.ref

/-- The state while packets are handed out. A packet that `n` classes have is handed out itself
when its reference count is down to 1. -/
structure Handing (n : Nat → Nat) (freed : List Nat) (done todo : List (Class × Nat))
    (s : State) : Prop where
  next_le : a.next ≤ s.next
  freed_eq : s.freed = freed
  rxdropsFilter_eq : s.rxdropsFilter = a.rxdropsFilter + freed.length
  rxpackets_eq : s.rxpackets = a.rxpackets + a.packets.length
  sent : List.Forall₂ (HandedOut fuel rss vlan a s) done s.sent
  fresh : (s.sent.map Sent.ptr).filter (a.next ≤ ·) = List.range' a.next (s.next - a.next)
  pkts : ∀ p ∈ a.order, s.ref p < 65536 ∧
    s.pkts p = (prepared fuel rss vlan a p).withRef (s.ref p)
  count : ∀ p ∈ a.order,
    (s.sent.map Sent.ptr).count p + (todo.map Prod.snd).count p + max (n p % 65536) 1 =
      n p + max (s.ref p) 1
  ref_le : ∀ p ∈ a.order, max (s.ref p) 1 ≤ max ((todo.map Prod.snd).count p) 1

end Handing

variable {n : Nat → Nat} {freed : List Nat} {done todo : List (Class × Nat)} {s : State}
  {cls : Class}

theorem distribute_eq (p : Nat) (h : cls.output[linkIndex cls.output.length hash]? = some link)
    (s : State) :
    distribute cls p hash s = .ok ((), { s with sent := s.sent ++ [⟨cls.seq, link, p⟩] }) := by
  unfold distribute
  rw [h]
  rfl

theorem distribute_noLink (p : Nat) (h : cls.output = []) (s : State) :
    distribute cls p hash s = .error .noLink := by
  unfold distribute
  rw [h]
  rfl

theorem inUse_of_mem_order (h : p ∈ a.order) : p < a.next := by
  obtain ⟨d, -, hp⟩ := mem_flatMap.mp h
  exact a.inUse p (mem_filter.mp hp).1

theorem HandedOut.lt (h : HandedOut fuel rss vlan a s task e)
    (hnext : a.next ≤ s.next) : e.ptr < s.next := by
  rcases h.ptr with hptr | hptr
  · have := inUse_of_mem_order h.arrived
    omega
  · exact hptr.2

theorem HandedOut.mono {s s' : State} (h : HandedOut fuel rss vlan a s task e)
    (hnext : s.next ≤ s'.next) (hcopy : (s'.pkts e.ptr).CopyOf (prepared fuel rss vlan a task.2)) :
    HandedOut fuel rss vlan a s' task e where
  arrived := h.arrived
  cls := h.cls
  link := h.link
  ptr := h.ptr.imp id fun hfresh => ⟨hfresh.1, hfresh.2.trans_le hnext⟩
  copy := hcopy

theorem CopyOf.withRef {q p : Pkt} {m : Nat} (h : (q.withRef m).CopyOf p) (m' : Nat) :
    (q.withRef m').CopyOf p :=
  ⟨h.length, h.data, h.md⟩

/-- **The packet itself is handed out.** -/
theorem Handing.last (hp : p ∈ a.order) (href : s.ref p ≤ 1)
    (hlink : cls.linkFor (prepared fuel rss vlan a p) = some link)
    (h : Handing fuel rss vlan a n freed done ((cls, p) :: todo) s) :
    Handing fuel rss vlan a n freed (done ++ [(cls, p)]) todo
      { s with sent := s.sent ++ [⟨cls.seq, link, p⟩] } where
  next_le := h.next_le
  freed_eq := h.freed_eq
  rxdropsFilter_eq := h.rxdropsFilter_eq
  rxpackets_eq := h.rxpackets_eq
  sent := by
    refine rel_append (h.sent.imp fun t e he => he.mono le_rfl he.copy) (.cons ?_ .nil)
    refine ⟨hp, rfl, hlink, .inl rfl, ?_⟩
    rw [(h.pkts p hp).2]
    exact copyOf_withRef _ _
  fresh := by
    have hold := inUse_of_mem_order hp
    rw [← h.fresh]
    simp [hold]
  pkts := h.pkts
  count := by
    intro q hq
    have hcount := h.count q hq
    change _ + _ + _ = _ + max (s.ref q) 1
    simp only [map_append, map_cons, map_nil, count_append, count_cons, count_nil] at hcount ⊢
    omega
  ref_le := by
    intro q hq
    have hle := h.ref_le q hq
    change max (s.ref q) 1 ≤ _
    simp only [map_cons, count_cons, beq_iff_eq] at hle
    by_cases heq : p = q
    · subst heq
      omega
    · rw [if_neg heq] at hle
      omega

/-- The state with a reference count that is one less. -/
def lowered (s : State) (p : Nat) : State :=
  let pkt : Pkt := { s.pkts p with md := { (s.pkts p).md with ref := s.ref p - 1 } }
  { s with pkts := update s.pkts p pkt }

/-- The state with a copy of a packet, of which the reference count is one less. -/
def copied (s : State) (p : Nat) (clone : Pkt) (sent : Sent) : State :=
  { s with
    pkts := update (lowered s p).pkts s.next clone
    next := s.next + 1
    sent := s.sent ++ [sent] }

/-- **A copy of the packet is handed out.** -/
theorem Handing.copy {clone : Pkt} (hp : p ∈ a.order) (href : 1 < s.ref p)
    (hclone : clone.CopyOf (prepared fuel rss vlan a p))
    (hlink : cls.linkFor (prepared fuel rss vlan a p) = some link)
    (h : Handing fuel rss vlan a n freed done ((cls, p) :: todo) s) :
    Handing fuel rss vlan a n freed (done ++ [(cls, p)]) todo
      (copied s p clone ⟨cls.seq, link, s.next⟩) := by
  have hpkt q (hq : q < s.next) : (copied s p clone ⟨cls.seq, link, s.next⟩).pkts q =
      if q = p then (prepared fuel rss vlan a p).withRef (s.ref p - 1) else s.pkts q := by
    simp only [copied, lowered, update_of_ne hq.ne]
    by_cases heq : q = p
    · subst heq
      obtain ⟨hlt, hpkt⟩ := h.pkts q hp
      rw [update_self, if_pos rfl, hpkt]
      simp only [Pkt.withRef]
      rw [Nat.mod_eq_of_lt (by omega)]
    · rw [update_of_ne heq, if_neg heq]
  have hold q hq : q < s.next :=
    (inUse_of_mem_order hq).trans_le h.next_le
  have href' q (hq : q ∈ a.order) :
      (copied s p clone ⟨cls.seq, link, s.next⟩).ref q = if q = p then s.ref p - 1 else s.ref q := by
    obtain ⟨hlt, -⟩ := h.pkts p hp
    unfold State.ref at hlt ⊢
    rw [hpkt q (hold q hq)]
    split_ifs with heq
    · exact Nat.mod_eq_of_lt (by unfold State.ref; omega)
    · rfl
  refine ⟨h.next_le.trans (Nat.le_succ _), h.freed_eq, h.rxdropsFilter_eq, h.rxpackets_eq, ?_, ?_,
    ?_, ?_, ?_⟩
  · have hbefore : List.Forall₂ (HandedOut fuel rss vlan a
        (copied s p clone ⟨cls.seq, link, s.next⟩)) done s.sent := by
      refine h.sent.imp fun t e he => he.mono (Nat.le_succ _) ?_
      rw [hpkt e.ptr (he.lt h.next_le)]
      split_ifs with heq
      · have hcopy := he.copy
        rw [heq, (h.pkts p hp).2] at hcopy
        exact CopyOf.withRef hcopy _
      · exact he.copy
    refine rel_append hbefore (.cons ?_ .nil)
    · refine ⟨hp, rfl, hlink, .inr ⟨h.next_le, Nat.lt_succ_self _⟩, ?_⟩
      simp only [copied, update_self]
      exact hclone
  · change ((s.sent ++ [_]).map Sent.ptr).filter _ = List.range' a.next (s.next + 1 - a.next)
    have hle := h.next_le
    rw [map_append, filter_append, h.fresh, Nat.succ_sub hle, List.range'_1_concat]
    simp [hle]
  · intro q hq
    rw [href' q hq, hpkt q (hold q hq)]
    split_ifs with heq
    · subst heq
      obtain ⟨hlt, -⟩ := h.pkts q hp
      exact ⟨by omega, rfl⟩
    · exact h.pkts q hq
  · intro q hq
    have hcount := h.count q hq
    have hne : s.next ≠ q := (hold q hq).ne'
    rw [href' q hq]
    simp only [copied, map_append, map_cons, map_nil, count_append,
      count_cons, count_nil, beq_iff_eq, if_neg hne] at hcount ⊢
    by_cases heq : q = p
    · subst heq
      simp only [if_true] at hcount ⊢
      omega
    · rw [if_neg (Ne.symm heq)] at hcount
      rw [if_neg heq]
      omega
  · intro q hq
    have hle := h.ref_le q hq
    rw [href' q hq]
    simp only [map_cons, count_cons, beq_iff_eq] at hle
    by_cases heq : q = p
    · subst heq
      simp only [if_true] at hle ⊢
      omega
    · rw [if_neg (Ne.symm heq)] at hle
      rw [if_neg heq]
      omega

/-- The copy that is made of a packet. -/
def cloneOf (s : State) (p : Nat) : Pkt where
  data := fun i => if i < (s.pkts p).length then (s.pkts p).data i else (s.pkts s.next).data i
  length := (s.pkts p).length
  headroom := defaultHeadroom
  md := setPointers (s.pkts p).md

theorem mdcopy_eq (h : (s.pkts p).Marked) :
    mdcopy p s = .ok (s.next,
      { s with pkts := update s.pkts s.next (cloneOf s p), next := s.next + 1 }) := by
  unfold mdcopy
  simp only [bind, StateT.bind, mdget_eq h]
  rfl

theorem setRef_pred (href : 1 < s.ref p) (hlt : s.ref p < 65536) :
    setRef p ((s.ref p : Int) - 1) s = .ok ((), lowered s p) := by
  have hcount : uint16 ((s.ref p : Int) - 1) = s.ref p - 1 := by
    unfold uint16
    omega
  rw [setRef_eq, hcount]
  rfl

theorem cloneOf_lowered {r : Nat} (hpkt : s.pkts p = pkt.withRef r)
    (hpointers : setPointers pkt.md = pkt.md) : (cloneOf (lowered s p) p).CopyOf pkt := by
  have hself : (lowered s p).pkts p = { pkt with md := { pkt.md with ref := s.ref p - 1 } } := by
    simp only [lowered, update_self]
    rw [hpkt]
    rfl
  refine ⟨by rw [cloneOf, hself], fun i hi => ?_, ?_⟩
  · unfold cloneOf
    rw [hself]
    exact if_pos hi
  · unfold cloneOf
    rw [hself]
    exact hpointers

/-- **A packet is handed out**, if the class has a link. -/
theorem handOut_works (hcomplete : (prepared fuel rss vlan a p).Complete) (hp : p ∈ a.order)
    (h : Handing fuel rss vlan a n freed done ((cls, p) :: todo) s) :
    Works (Task.Doable fuel rss vlan a) (Task.Fails fuel rss vlan a) [.handOut cls p]
      (handOut cls p) s fun s' =>
        Handing fuel rss vlan a n freed (done ++ [(cls, p)]) todo s' ∧ s'.queues = s.queues := by
  obtain ⟨hlt, hpkt⟩ := h.pkts p hp
  have hhash : (s.pkts p).md.hash = (prepared fuel rss vlan a p).md.hash := by rw [hpkt]; rfl
  have hmarked : (s.pkts p).Marked := by
    rw [hpkt]
    exact ⟨hcomplete.magic, hcomplete.room⟩
  have hcall : handOut cls p s =
      (if 1 < s.ref p then
        setRef p ((s.ref p : Int) - 1) >>= fun _ => mdcopy p >>= fun q =>
          distribute cls q (s.pkts p).md.hash
      else distribute cls p (s.pkts p).md.hash : Call Unit) s := by
    unfold handOut
    simp only [bind, StateT.bind, mdget_eq hmarked]
    rfl
  by_cases href : 1 < s.ref p
  swap
  · rw [if_neg href, hhash] at hcall
    by_cases houtput : cls.output = []
    · exact .fail (fun hC => hC houtput) (by rw [hcall]; exact distribute_noLink p houtput s) rfl
    · obtain ⟨link, -, hlink⟩ := linkFor_isSome hcomplete.hash houtput
      refine .one houtput (by rw [hcall]; exact distribute_eq p hlink s) ?_
      exact ⟨h.last hp (not_lt.mp href) hlink, rfl⟩
  · rw [if_pos href, hhash] at hcall
    have hlowered : ((lowered s p).pkts p).Marked := by
      simp only [lowered, update_self]
      exact ⟨hmarked.magic, hmarked.room⟩
    simp only [bind, StateT.bind, setRef_pred href hlt, Except.bind, mdcopy_eq hlowered] at hcall
    by_cases houtput : cls.output = []
    · exact .fail (fun hC => hC houtput) (by rw [hcall]; exact distribute_noLink _ houtput _) rfl
    · obtain ⟨link, -, hlink⟩ := linkFor_isSome hcomplete.hash houtput
      refine .one houtput (by rw [hcall]; exact distribute_eq _ hlink _) ?_
      exact ⟨h.copy hp href (cloneOf_lowered hpkt hcomplete.pointers) hlink, rfl⟩

/-! ## All classes -/

theorem targets_sublist (classes : List Class) (p : Pkt) : (targets classes p).Sublist classes := by
  induction classes with
  | nil => exact .slnil
  | cons first rest ih =>
    rw [targets]
    split_ifs
    · exact ih.cons_cons first
    · exact (nil_sublist rest).cons_cons first
    · exact ih.cons first

theorem filter_eq_of_sublist {chosen classes : List Class} (h : chosen.Sublist classes)
    (hseqs : (classes.map Class.seq).Nodup) :
    classes.filter (fun cls => chosen.any (·.seq = cls.seq)) = chosen := by
  induction h with
  | slnil => rfl
  | @cons chosen rest first hsub ih =>
    rw [map_cons, nodup_cons] at hseqs
    have hnot : ¬ (chosen.any fun cls => cls.seq = first.seq) = true := by
      rw [any_eq_true]
      rintro ⟨cls, hcls, hseq⟩
      rw [decide_eq_true_eq] at hseq
      exact hseqs.1 (hseq ▸ mem_map_of_mem (hsub.subset hcls))
    rw [filter_cons, if_neg hnot]
    exact ih hseqs.2
  | @cons_cons chosen rest first hsub ih =>
    rw [map_cons, nodup_cons] at hseqs
    have hrest : rest.filter (fun cls => (first :: chosen).any (·.seq = cls.seq)) =
        rest.filter (fun cls => chosen.any (·.seq = cls.seq)) := by
      refine filter_congr fun cls hcls => ?_
      have hne : first.seq ≠ cls.seq := fun heq => hseqs.1 (heq ▸ mem_map_of_mem hcls)
      simp [hne]
    rw [filter_cons, if_pos (by simp), hrest, ih hseqs.2]

section Tasks

variable (fuel : Nat) (rss : Config) (vlan : Option Nat) (a : Arrival)

/-- What is to be handed out for some of the classes. -/
def tasksOf (classes : List Class) : List (Class × Nat) :=
  classes.flatMap fun cls => (inputOf fuel rss vlan a rss.active cls.seq).map (cls, ·)

end Tasks

/-- **A packet is handed out once for each class that has it.** -/
theorem count_tasksOf (hseqs : (rss.active.map Class.seq).Nodup) (hp : p ∈ a.order) :
    ((tasksOf fuel rss vlan a rss.active).map Prod.snd).count p =
      holders fuel rss vlan a rss.active p := by
  have hcount classes :
      ((tasksOf fuel rss vlan a classes).map Prod.snd).count p = (classes.filter fun cls =>
        (targets rss.active (prepared fuel rss vlan a p)).any (·.seq = cls.seq)).length := by
    induction classes with
    | nil => rfl
    | cons cls rest ih =>
      have hinput : (((inputOf fuel rss vlan a rss.active cls.seq).map (cls, ·)).map
          Prod.snd) = inputOf fuel rss vlan a rss.active cls.seq := by simp
      change (((_ ++ tasksOf fuel rss vlan a rest).map Prod.snd).count p) = _
      rw [map_append, count_append, ih, hinput, filter_cons]
      split_ifs with hany
      · have hmem : p ∈ inputOf fuel rss vlan a rss.active cls.seq := mem_filter.mpr ⟨hp, hany⟩
        have hone : (inputOf fuel rss vlan a rss.active cls.seq).count p = 1 :=
          count_eq_one_of_mem (order_nodup.filter _) hmem
        rw [hone, length_cons, Nat.add_comm]
      · have hnot : p ∉ inputOf fuel rss vlan a rss.active cls.seq :=
          fun hmem => hany (mem_filter.mp hmem).2
        rw [count_eq_zero_of_not_mem hnot, Nat.zero_add]
  rw [hcount, filter_eq_of_sublist (targets_sublist _ _) hseqs, holders]

theorem Handing.put (h : Handing fuel rss vlan a n freed done todo s) (q : QueueName)
    (packets : List Nat) : Handing fuel rss vlan a n freed done todo (s.put q packets) :=
  ⟨h.next_le, h.freed_eq, h.rxdropsFilter_eq, h.rxpackets_eq,
    h.sent.imp fun _ _ he => he.mono le_rfl he.copy, h.fresh, h.pkts, h.count, h.ref_le⟩

theorem handing_dropping (hseqs : (rss.active.map Class.seq).Nodup) :
    Handing fuel rss vlan a (holders fuel rss vlan a rss.active) freed []
      (tasksOf fuel rss vlan a rss.active)
      (dropping fuel rss vlan a (holders fuel rss vlan a rss.active) []
        (inputOf fuel rss vlan a rss.active) freed) := by
  set n := holders fuel rss vlan a rss.active with hn
  set s := dropping fuel rss vlan a n [] (inputOf fuel rss vlan a rss.active) freed
  have hpkt p hp :
      s.pkts p = (prepared fuel rss vlan a p).withRef (n p) := if_pos hp
  have href p (hp : p ∈ a.order) : s.ref p = n p % 65536 := by
    unfold State.ref
    rw [hpkt p hp]
    rfl
  refine ⟨le_rfl, rfl, rfl, rfl, .nil, ?_, fun p hp => ?_, fun p hp => ?_, fun p hp => ?_⟩
  · rw [show s.next = a.next from rfl, Nat.sub_self]
    rfl
  · rw [href p hp, hpkt p hp]
    refine ⟨Nat.mod_lt _ (by decide), ?_⟩
    unfold Pkt.withRef
    rw [Nat.mod_mod]
  · rw [href p hp, count_tasksOf hseqs hp, ← hn]
    simp [show s.sent = [] from rfl]
  · rw [href p hp, count_tasksOf hseqs hp, ← hn]
    omega

/-- The queues while the classes in `rest` have their packets. -/
def waitingFor (fuel : Nat) (rss : Config) (vlan : Option Nat) (a : Arrival) (rest : List Class) :
    QueueName → List Nat
  | .cls k => if k ∈ rest.map Class.seq then inputOf fuel rss vlan a rss.active k else []
  | _ => []

/-- **A class hands out its packets.** -/
theorem handClass_works {seen rest : List Class}
    (hcomplete : ∀ p ∈ a.order, (prepared fuel rss vlan a p).Complete)
    (hfresh : cls.seq ∉ rest.map Class.seq)
    (h : Handing fuel rss vlan a n freed (tasksOf fuel rss vlan a seen)
      (tasksOf fuel rss vlan a (cls :: rest)) s)
    (hqueues : s.queues = waitingFor fuel rss vlan a (cls :: rest)) :
    Works (Task.Doable fuel rss vlan a) (Task.Fails fuel rss vlan a)
      ((inputOf fuel rss vlan a rss.active cls.seq).map (.handOut cls))
      (forReadable (.cls cls.seq) (handOut cls)) s fun s' =>
        Handing fuel rss vlan a n freed (tasksOf fuel rss vlan a (seen ++ [cls]))
          (tasksOf fuel rss vlan a rest) s' ∧ s'.queues = waitingFor fuel rss vlan a rest := by
  set input := inputOf fuel rss vlan a rss.active cls.seq with hinput
  have hqueue : s.queues (.cls cls.seq) = input := by
    rw [hqueues]
    exact if_pos mem_cons_self
  rw [map_eq_flatMap]
  refine (forReadable_works (fun todo s => ∃ begun, input = begun ++ todo ∧
    Handing fuel rss vlan a n freed (tasksOf fuel rss vlan a seen ++ begun.map (cls, ·))
      (todo.map (cls, ·) ++ tasksOf fuel rss vlan a rest) s ∧
    s.queues = update (waitingFor fuel rss vlan a rest) (.cls cls.seq) todo)
    ?_ input hqueue ⟨[], rfl, ?_, ?_⟩).mono ?_
  · rintro p todo s ⟨begun, hbegun, hs, hq⟩
    have hp : p ∈ a.order := by
      have : p ∈ input := by rw [hbegun]; simp
      exact (mem_filter.mp this).1
    refine ⟨todo, by rw [hq, update_self], ?_⟩
    refine (handOut_works (hcomplete p hp) hp (hs.put _ _)).mono ?_
    rintro s' ⟨hs', hq'⟩
    refine ⟨begun ++ [p], by rw [hbegun, append_assoc, singleton_append], ?_, ?_⟩
    · rw [map_append, ← append_assoc]
      exact hs'
    · rw [hq', State.put]
      rw [hq, update_idem]
  · rw [map_nil, append_nil]
    exact h
  · rw [hqueues]
    funext q
    by_cases hq : q = .cls cls.seq
    · subst hq
      rw [update_self]
      exact if_pos mem_cons_self
    · rw [update_of_ne hq]
      cases q with
      | cls k =>
        have hk : k ≠ cls.seq := fun heq => hq (heq ▸ rfl)
        simp [waitingFor, hk]
      | _ => rfl
  · rintro s' ⟨begun, hbegun, hs', hq'⟩
    rw [append_nil] at hbegun
    have htasks : tasksOf fuel rss vlan a (seen ++ [cls]) =
        tasksOf fuel rss vlan a seen ++ begun.map (cls, ·) := by
      rw [← hbegun]
      exact flatMap_append.trans (congrArg _ (append_nil _))
    rw [htasks]
    refine ⟨hs', ?_⟩
    have hnone : waitingFor fuel rss vlan a rest (.cls cls.seq) = [] := if_neg hfresh
    rw [hq', ← hnone]
    exact update_eq_self _ _

/-- **All classes hand out their packets.** -/
theorem handAll_works (hseqs : (rss.active.map Class.seq).Nodup)
    (hcomplete : ∀ p ∈ a.order, (prepared fuel rss vlan a p).Complete)
    (h : Handing fuel rss vlan a n freed [] (tasksOf fuel rss vlan a rss.active) s)
    (hqueues : s.queues = waitingFor fuel rss vlan a rss.active) :
    Works (Task.Doable fuel rss vlan a) (Task.Fails fuel rss vlan a)
      ((tasksOf fuel rss vlan a rss.active).map fun t => .handOut t.1 t.2)
      (rss.active.forM fun cls => forReadable (.cls cls.seq) (handOut cls)) s fun s' =>
        Handing fuel rss vlan a n freed (tasksOf fuel rss vlan a rss.active) [] s' ∧
          ∀ q, s'.queues q = [] := by
  have htasks : (tasksOf fuel rss vlan a rss.active).map (fun t => Task.handOut t.1 t.2) =
      rss.active.flatMap fun cls =>
        (inputOf fuel rss vlan a rss.active cls.seq).map (Task.handOut cls) := by
    unfold tasksOf
    rw [map_flatMap]
    simp only [map_map]
    rfl
  rw [htasks]
  refine (Works.forM (fun rest s => ∃ seen, rss.active = seen ++ rest ∧
    Handing fuel rss vlan a n freed (tasksOf fuel rss vlan a seen) (tasksOf fuel rss vlan a rest) s ∧
    s.queues = waitingFor fuel rss vlan a rest) ?_ ⟨[], rfl, h, hqueues⟩).mono ?_
  · rintro cls rest s ⟨seen, hseen, hs, hq⟩
    have hfresh : cls.seq ∉ rest.map Class.seq := by
      rw [hseen, map_append] at hseqs
      exact (nodup_cons.mp (nodup_append.mp hseqs).2.1).1
    refine (handClass_works hcomplete hfresh hs hq).mono ?_
    rintro s' ⟨hs', hq'⟩
    exact ⟨seen ++ [cls], by rw [hseen, append_assoc, singleton_append], hs', hq'⟩
  · rintro s' ⟨seen, hseen, hs', hq'⟩
    rw [append_nil] at hseen
    rw [hseen]
    refine ⟨hs', fun q => ?_⟩
    rw [hq']
    cases q <;> rfl

end Rss

end Snabb
