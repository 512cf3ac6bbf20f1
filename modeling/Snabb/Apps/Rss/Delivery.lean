import Snabb.Apps.Rss.HandOut
import Snabb.Apps.Rss.Flow
import Mathlib.Tactic.IntervalCases

/-!
# What a push delivers

- `push_returns_iff`: a push comes to an end unless there is a packet of which the extension headers
  lead round in circles.
- `push_delivers_iff`: each packet is handed out once for each class that matches it, up to the
  first one that is not marked `continue`, and freed if there is none, and the packets of one flow
  that a class has go to one link, where the packets have room and are not circular, the classes
  that match have a link, a packet has less than 2^16 of them, and the keys of packets of one flow
  select the same link.
- `keys_eq_of_plain`: the keys are equal where the flows stand where the app looks for them.
- `traversal_ends_iff`: the same about the end of `add` and of a push.
-/

namespace Snabb

open List

namespace Rss

open Foundation

/-! ## Classes and links -/

/-- The classes are numbered by their places in the list, and the active ones are known by their
numbers, in ascending order. -/
structure Config.Sound (rss : Config) : Prop where
  seq : ∀ i (cls : Class), rss.classes[i]? = some cls → cls.seq = i
  sorted : rss.classesActive.Pairwise (· < ·)
  bound : ∀ i ∈ rss.classesActive, i < rss.classes.length

theorem sound_new (specs : List ClassSpec) (rmExtHeaders : Bool) (hashFn : Nat → FlowKey → Nat) :
    (Config.new specs rmExtHeaders hashFn).Sound := by
  refine ⟨?_, .nil, fun i hi => absurd hi not_mem_nil⟩
  have hadd classes (h : ∀ i (cls : Class), classes[i]? = some cls → cls.seq = i) :
      ∀ i (cls : Class), (specs.foldl addClass classes)[i]? = some cls → cls.seq = i := by
    induction specs generalizing classes with
    | nil => exact h
    | cons spec rest ih =>
      refine ih _ fun i cls hcls => ?_
      rcases Nat.lt_or_ge i classes.length with hlt | hge
      · rw [addClass, List.getElem?_append_left hlt] at hcls
        exact h i cls hcls
      · rw [addClass, List.getElem?_append_right hge] at hcls
        obtain ⟨k, rfl⟩ : ∃ k, i = classes.length + k := ⟨i - classes.length, by omega⟩
        rw [Nat.add_sub_cancel_left] at hcls
        cases k with
        | zero =>
          cases hcls
          rfl
        | succ k => cases hcls
  exact hadd [] fun i cls h => by cases h

theorem insertUnique_spec {t : List Nat} (h : t.Nodup) (x : Nat) :
    (insertUnique t x).Nodup ∧ ∀ y, y ∈ insertUnique t x ↔ y ∈ t ∨ y = x := by
  unfold insertUnique
  split_ifs with hx
  · exact ⟨h, fun y => ⟨.inl, fun hy => hy.elim id fun heq => heq ▸ hx⟩⟩
  · refine ⟨nodup_append.mpr ⟨h, nodup_singleton x, ?_⟩, fun y => by simp⟩
    rintro y hy z hz rfl
    exact hx (mem_singleton.mp hz ▸ hy)

variable {rss : Config}

theorem sound_linkOutput {weight : String → String → Option Nat} (h : rss.Sound)
    (name : String) : (rss.linkOutput weight name).Sound := by
  have hinsert (new t : List Nat) (ht : t.Nodup) :
      (new.foldl insertUnique t).Nodup ∧ ∀ y, y ∈ new.foldl insertUnique t ↔ y ∈ t ∨ y ∈ new := by
    induction new generalizing t with
    | nil => exact ⟨ht, fun y => by simp⟩
    | cons x new ih =>
      obtain ⟨hnodup, hmem⟩ := insertUnique_spec ht x
      obtain ⟨hnodup', hmem'⟩ := ih _ hnodup
      refine ⟨hnodup', fun y => ?_⟩
      rw [foldl_cons, hmem', hmem, mem_cons, or_assoc]
  obtain ⟨hnodup, hmem⟩ := hinsert ((rss.classes.filter fun cls =>
    (weight cls.name name).isSome).map Class.seq) rss.classesActive (h.sorted.imp fun hlt => hlt.ne)
  refine ⟨fun i cls hcls => ?_, ?_, fun i hi => ?_⟩
  · simp only [Config.linkOutput, List.getElem?_map, Option.map_eq_some_iff] at hcls
    obtain ⟨cls', hcls', rfl⟩ := hcls
    exact h.seq i cls' hcls'
  · have hsorted := pairwise_insertionSort (· ≤ ·) (((rss.classes.filter fun cls =>
      (weight cls.name name).isSome).map Class.seq).foldl insertUnique rss.classesActive)
    have hne := (perm_insertionSort (· ≤ ·) (((rss.classes.filter fun cls =>
      (weight cls.name name).isSome).map Class.seq).foldl insertUnique
        rss.classesActive)).nodup_iff.mpr hnodup
    exact (hsorted.and hne).imp fun hij => lt_of_le_of_ne hij.1 hij.2
  · have hi : i ∈ rss.classesActive ∨ i ∈ (rss.classes.filter fun cls =>
        (weight cls.name name).isSome).map Class.seq := by
      rw [← hmem]
      exact (mem_insertionSort _).mp hi
    simp only [Config.linkOutput, length_map]
    rcases hi with hi | hi
    · exact h.bound i hi
    · obtain ⟨cls, hcls, rfl⟩ := mem_map.mp hi
      obtain ⟨j, hj, hget⟩ := mem_iff_getElem.mp (mem_filter.mp hcls).1
      have hseq := h.seq j cls (by rw [List.getElem?_eq_getElem hj, hget])
      rw [hseq]
      exact hj

theorem sound_make (weight : String → String → Option Nat) (specs : List ClassSpec)
    (links : List String) (rmExtHeaders : Bool) (hashFn : Nat → FlowKey → Nat) :
    (Config.make weight specs links rmExtHeaders hashFn).Sound := by
  have hlink rss (h : rss.Sound) :
      (links.foldl (Config.linkOutput weight) rss).Sound := by
    induction links generalizing rss with
    | nil => exact h
    | cons name rest ih => exact ih _ (sound_linkOutput h name)
  exact hlink _ (sound_new specs rmExtHeaders hashFn)

theorem Config.Sound.active_seq (h : rss.Sound) : rss.active.map Class.seq = rss.classesActive := by
  have hmap (is : List Nat) (his : ∀ i ∈ is, i < rss.classes.length) :
      (is.filterMap (rss.classes[·]?)).map Class.seq = is := by
    induction is with
    | nil => rfl
    | cons i is ih =>
      have hi := List.getElem?_eq_getElem (his i mem_cons_self)
      rw [filterMap_cons, hi, map_cons, h.seq i _ hi,
        ih fun j hj => his j (mem_cons_of_mem i hj)]
  exact hmap _ h.bound

theorem Config.Sound.active_nodup (h : rss.Sound) : (rss.active.map Class.seq).Nodup := by
  rw [h.active_seq]
  exact h.sorted.imp fun hlt => hlt.ne

/-! ## The whole push -/

variable {fuel : Nat} {rss : Config} {vlan : Option Nat} {a : Arrival} {p : Nat} {s : State}

theorem mem_order : p ∈ a.order ↔ p ∈ a.packets := by
  constructor
  · intro h
    obtain ⟨d, -, hp⟩ := mem_flatMap.mp h
    exact (mem_filter.mp hp).1
  · intro h
    exact mem_flatMap.mpr
      ⟨_, queue2_mem (a.pkts p), mem_filter.mpr ⟨h, decide_eq_true rfl⟩⟩

theorem order_perm : a.order.Perm a.packets :=
  (perm_ext_iff_of_nodup order_nodup a.nodup).mpr fun _ => mem_order

/-- The packets that are freed, by their reference counts. -/
def freedOf (fuel : Nat) (rss : Config) (vlan : Option Nat) (a : Arrival) : List Nat :=
  (remaining fuel rss vlan a rss.active).filter
    fun p => holders fuel rss vlan a rss.active p % 65536 = 0

/-- All that can go wrong in a push. -/
def pushTasks (fuel : Nat) (rss : Config) (vlan : Option Nat) (a : Arrival) : List Task :=
  a.order.map .addMd ++ (tasksOf fuel rss vlan a rss.active).map fun t => .handOut t.1 t.2

/-- **What a push does.** -/
theorem push_works (hsound : rss.Sound) :
    Works (Task.Doable fuel rss vlan a) (Task.Fails fuel rss vlan a) (pushTasks fuel rss vlan a)
      (pushWithVlan fuel rss vlan) a.start fun s =>
        Handing fuel rss vlan a (holders fuel rss vlan a rss.active) (freedOf fuel rss vlan a)
          (tasksOf fuel rss vlan a rss.active) [] s ∧ ∀ q, s.queues q = [] := by
  refine demux_works.known.bind ?_
  rintro _ ⟨rfl, hdoable⟩
  have hcomplete p hp : (prepared fuel rss vlan a p).Complete :=
    prepared_complete (hdoable _ (mem_map_of_mem hp))
  have hstart : (preparing fuel rss vlan a a.order fun _ => []) =
      classified fuel rss vlan a (fun _ => 0) a.order fun _ => [] := by
    simp only [preparing, classified, State.mk.injEq, and_true, true_and]
    constructor
    · funext p
      split_ifs with hp
      · have href := (hcomplete p hp).ref
        unfold Pkt.withRef
        rw [Nat.zero_mod, ← href]
      · rfl
    · funext q
      cases q <;> rfl
  rw [hstart]
  refine (classify_works hsound.active_nodup fun p hp => (hcomplete p hp).toMarked).bind_done ?_
  rintro _ rfl
  refine (drop_works fun p hp => ?_).bind_done ?_
  · have hp := (mem_filter.mp hp).1
    exact ⟨hp, (hcomplete p hp).toMarked⟩
  rintro _ rfl
  refine handAll_works hsound.active_nodup hcomplete (handing_dropping hsound.active_nodup) ?_
  funext q
  cases q with
  | cls k =>
    change inputOf fuel rss vlan a rss.active k = if _ then _ else _
    split_ifs with hk
    · rfl
    · refine filter_eq_nil_iff.mpr fun p _ => ?_
      rw [any_eq_true]
      rintro ⟨cls, hcls, hseq⟩
      rw [decide_eq_true_eq] at hseq
      exact hk (hseq ▸ mem_map_of_mem (mem_of_mem_targets hcls))
  | _ => rfl

/-! ## Termination -/

/-- The packets in front of the first that has no room for its meta-data. -/
def Arrival.accepted (a : Arrival) : List Nat :=
  a.order.takeWhile fun p => mdLen ≤ (a.pkts p).headroom

theorem add_error_of_room {p : Pkt} {rmExtHeaders : Bool} {vlanOverride : Option Nat} {e : Halt}
    (hroom : mdLen ≤ p.headroom) (h : add fuel p rmExtHeaders vlanOverride = .error e) :
    e = .running := by
  rcases add_cases fuel p rmExtHeaders vlanOverride with ⟨hno, -⟩ | ⟨-, h'⟩ | ⟨-, pkt, h', -⟩
  · exact absurd hroom hno
  · rw [h] at h'
    cases h'
    rfl
  · rw [h] at h'
    cases h'

/-- **A push comes to an end, unless it comes to a circular packet.** -/
theorem push_returns_iff (hsound : rss.Sound) :
    Returns (fun fuel => pushWithVlan fuel rss vlan a.start) ↔
      ∀ p ∈ a.accepted, ¬ (a.pkts p).Circular := by
  constructor
  · rintro ⟨fuel, hreturns⟩ p hp hcircular
    obtain ⟨pre, post, haccepted⟩ := append_of_mem hp
    have hroom q (hq : q ∈ a.accepted) : mdLen ≤ (a.pkts q).headroom := by
      have hall := all_eq_true.mp (all_takeWhile (l := a.order)
        (p := fun p => decide (mdLen ≤ (a.pkts p).headroom))) q hq
      exact of_decide_eq_true hall
    have horder : a.order = pre ++ p :: (post ++
        a.order.dropWhile fun p => mdLen ≤ (a.pkts p).headroom) := by
      conv_lhs => rw [← takeWhile_append_dropWhile (p := fun p => decide
        (mdLen ≤ (a.pkts p).headroom)) (l := a.order)]
      change a.accepted ++ _ = _
      rw [haccepted, append_assoc, cons_append]
    have hworks : Works (Task.Doable fuel rss vlan a) (Task.Fails fuel rss vlan a)
      (pushTasks fuel rss vlan a) _ _ _ := push_works hsound
    unfold pushTasks at hworks
    rw [horder, map_append, append_assoc] at hworks
    obtain ⟨t, ht, e, herror, -, hfails⟩ := hworks.stops
      (by rintro ⟨pkt, hadd⟩; exact (straight_of_add hadd).2 hcircular)
    obtain ⟨q, hq, rfl⟩ : ∃ q ∈ a.accepted, t = .addMd q := by
      rw [haccepted]
      simp only [mem_append, mem_map, mem_singleton] at ht
      rcases ht with ⟨q, hq, rfl⟩ | rfl
      · exact ⟨q, by simp [hq], rfl⟩
      · exact ⟨p, by simp, rfl⟩
    rw [add_error_of_room (hroom q hq) hfails] at herror
    exact hreturns herror
  · intro h
    obtain ⟨fuel, hfuel⟩ := exists_fuel (a.accepted.map a.pkts) rss.rmExtHeaders vlan (by
      intro p hp
      obtain ⟨q, hq, rfl⟩ := mem_map.mp hp
      exact h q hq)
    refine ⟨fuel, fun hrunning => ?_⟩
    obtain ⟨pre, t, post, htasks, hpre, -, hfails⟩ := (push_works hsound).of_error hrunning
    cases t with
    | handOut cls p => cases hfails
    | addMd p =>
      have hlast : ∀ t ∈ (tasksOf fuel rss vlan a rss.active).map fun t => Task.handOut t.1 t.2,
          t ≠ .addMd p := by
        rintro _ ht rfl
        obtain ⟨t, -, ht⟩ := mem_map.mp ht
        cases ht
      obtain ⟨begun, rest, horder, hbegun⟩ : ∃ begun rest, a.order = begun ++ p :: rest ∧
          begun.map Task.addMd = pre := by
        rcases append_eq_append_iff.mp htasks with ⟨mid, rfl, hmid⟩ | ⟨mid, horder, hmid⟩
        · exact absurd rfl (hlast (.addMd p) (by rw [hmid]; simp))
        · cases mid with
          | nil =>
            have hmem : Task.addMd p ∈ [] ++ (tasksOf fuel rss vlan a rss.active).map fun t =>
                Task.handOut t.1 t.2 := by
              rw [← hmid]
              exact mem_cons_self
            exact absurd rfl (hlast _ hmem)
          | cons t mid =>
            cases hmid
            obtain ⟨begun, rest, horder, hbegun, hrest⟩ := map_eq_append_iff.mp horder
            obtain ⟨q, rest, rfl, hq, -⟩ := map_eq_cons_iff.mp hrest
            cases hq
            exact ⟨begun, rest, horder, hbegun⟩
      have hbefore : ∀ q ∈ begun, decide (mdLen ≤ (a.pkts q).headroom) = true := by
        intro q hq
        obtain ⟨pkt, hadd⟩ := hpre (.addMd q) (by rw [← hbegun]; exact mem_map_of_mem hq)
        exact decide_eq_true (straight_of_add hadd).1
      have hroom : mdLen ≤ (a.pkts p).headroom := by
        rcases add_cases fuel (a.pkts p) rss.rmExtHeaders vlan with
          ⟨-, h'⟩ | ⟨⟨hroom, -⟩, -⟩ | ⟨-, pkt, h', -⟩
        · rw [hfails] at h'
          cases h'
        · exact hroom
        · rw [hfails] at h'
          cases h'
      have hp : p ∈ a.accepted := by
        unfold Arrival.accepted
        rw [horder, takeWhile_append_of_pos hbefore, takeWhile_cons,
          if_pos (decide_eq_true hroom)]
        simp
      exact hfuel _ (mem_map_of_mem hp) hfails

/-! ## Delivery -/

/-- The ethertype of a packet, and whether it has a tag. -/
def Pkt.kind (p : Pkt) : Bool × Nat := (ntohs p.data 12 = ethertypeDot1q, (etherType p.data).1)

/-- A class has a packet. -/
def Has (rss : Config) (pkt : Nat → Pkt) (cls : Class) (p : Nat) : Bool :=
  (targets rss.active (pkt p)).any (·.seq = cls.seq)

/-- Packets of one flow are sent on one link. -/
def FlowsKept (a : Arrival) (packets : List Nat) (sent : List Sent) : Prop :=
  ∀ x ∈ packets.zip sent, ∀ y ∈ packets.zip sent,
    SameFlow (a.pkts x.1) (a.pkts y.1) → x.2.link = y.2.link

/-- **What a push is to deliver.** `pkt` are the packets with their meta-data, and `order` is the
order in which they come to the classes. -/
structure Delivered (rss : Config) (vlan : Option Nat) (a : Arrival) (pkt : Nat → Pkt)
    (order : List Nat) (s : State) : Prop where
  becomes : ∀ p ∈ a.packets, Becomes rss vlan (a.pkts p) (pkt p)
  /-- Each packet is looked at once, and those of one ethertype and tagging in their order. -/
  all : order.Perm a.packets
  inOrder : ∀ kind, (order.filter fun p => (a.pkts p).kind = kind) =
    a.packets.filter fun p => (a.pkts p).kind = kind
  /-- Each class is sent a copy of each packet it has, on the link it has for the key. -/
  sent : ∀ cls ∈ rss.active, List.Forall₂
    (fun p e => cls.linkOf rss.hashFn (pkt p).key = some e.link ∧ e.link ∈ cls.output ∧
      (s.pkts e.ptr).CopyOf (pkt p))
    (order.filter (Has rss pkt cls)) (s.sent.filter fun e => e.cls = cls.seq)
  /-- The packets of one flow that a class has are sent on one link. -/
  flows : ∀ cls ∈ rss.active, FlowsKept a (order.filter (Has rss pkt cls))
    (s.sent.filter fun e => e.cls = cls.seq)
  sentOnly : ∀ e ∈ s.sent, e.cls ∈ rss.active.map Class.seq
  /-- The packets without a class are freed and counted. -/
  freed : s.freed = order.filter fun p => (targets rss.active (pkt p)).isEmpty
  dropped : s.rxdropsFilter = a.rxdropsFilter + s.freed.length
  /-- Each packet, old or new, is sent or freed exactly once. -/
  owned : (s.sent.map Sent.ptr ++ s.freed).Perm
    (a.packets ++ List.range' a.next (s.next - a.next))
  idle : ∀ q, s.queues q = []

/-- **When a push can deliver.** -/
structure Deliverable (rss : Config) (vlan : Option Nat) (a : Arrival) : Prop where
  room : ∀ p ∈ a.packets, mdLen ≤ (a.pkts p).headroom
  straight : ∀ p ∈ a.packets, ¬ (a.pkts p).Circular
  linked : ∀ p ∈ a.packets, ∀ pkt, Becomes rss vlan (a.pkts p) pkt →
    ∀ cls ∈ targets rss.active pkt, cls.output ≠ []
  few : ∀ p ∈ a.packets, ∀ pkt, Becomes rss vlan (a.pkts p) pkt →
    (targets rss.active pkt).length < 2 ^ 16

/-- The keys of packets of one flow that a class has are related. -/
def KeysAgree (rss : Config) (vlan : Option Nat) (a : Arrival)
    (R : Class → Option (Nat × FlowKey) → Option (Nat × FlowKey) → Prop) : Prop :=
  ∀ p ∈ a.packets, ∀ q ∈ a.packets, SameFlow (a.pkts p) (a.pkts q) →
    ∀ pkt pkt', Becomes rss vlan (a.pkts p) pkt → Becomes rss vlan (a.pkts q) pkt' →
      ∀ cls ∈ targets rss.active pkt, cls ∈ targets rss.active pkt' → R cls pkt.key pkt'.key

/-- A push delivers. -/
def Delivers (rss : Config) (vlan : Option Nat) (a : Arrival) : Prop :=
  ∃ fuel s pkt order, pushWithVlan fuel rss vlan a.start = .ok ((), s) ∧
    Delivered rss vlan a pkt order s

theorem exists_queue2 (kind : Bool × Nat) :
    ∃ d ∈ mdQueues, ∀ p : Pkt, p.kind = kind → p.queue2 = d := by
  have hqueue1 (p : Pkt) : p.queue1 = .dot1q ↔ ntohs p.data 12 = ethertypeDot1q := by
    unfold Pkt.queue1
    rw [demux1_lookup]
    unfold ethertypeDot1q
    split_ifs <;> simp_all
  have hqueue2 (p : Pkt) (hkind : p.kind = kind) :
      p.queue2 = if kind.1 then demux2.lookup kind.2 else demux1.lookup kind.2 := by
    subst hkind
    unfold Pkt.queue2 Pkt.kind etherType
    by_cases htag : ntohs p.data 12 = ethertypeDot1q
    · rw [if_pos ((hqueue1 p).mpr htag), if_pos (decide_eq_true htag), if_pos htag]
    · rw [if_neg (mt (hqueue1 p).mp htag), if_neg (by simpa using htag), if_neg htag]
      rfl
  by_cases hsome : ∃ p : Pkt, p.kind = kind
  · obtain ⟨p, hp⟩ := hsome
    exact ⟨p.queue2, queue2_mem p, fun q hq => by rw [hqueue2 q hq, hqueue2 p hp]⟩
  · exact ⟨.ipv4, by decide, fun p hp => absurd ⟨p, hp⟩ hsome⟩

/-- **The packets of one kind stay in their order.** -/
theorem order_filter_kind (kind : Bool × Nat) :
    (a.order.filter fun p => (a.pkts p).kind = kind) =
      a.packets.filter fun p => (a.pkts p).kind = kind := by
  obtain ⟨d, hd, hqueue⟩ := exists_queue2 kind
  have hsorted d' : ((a.sorted d').filter fun p => (a.pkts p).kind = kind) =
      if d' = d then a.packets.filter fun p => (a.pkts p).kind = kind else [] := by
    unfold Arrival.sorted
    rw [filter_filter]
    split_ifs with heq
    · refine filter_congr fun p _ => ?_
      by_cases hkind : (a.pkts p).kind = kind
      · simp [heq, hqueue _ hkind]
      · simp [hkind]
    · refine filter_eq_nil_iff.mpr fun p _ => ?_
      simp only [Bool.and_eq_true, decide_eq_true_eq, not_and]
      intro hkind hd'
      exact heq (hd' ▸ hqueue _ hkind)
  unfold Arrival.order
  rw [filter_flatMap]
  simp only [hsorted]
  revert hd
  cases d <;> simp [mdQueues]

theorem becomes_prepared (h : (Task.addMd p).Doable fuel rss vlan a) :
    Becomes rss vlan (a.pkts p) (prepared fuel rss vlan a p) := by
  obtain ⟨q, hadd⟩ := h
  refine ⟨fuel, q, hadd, ?_⟩
  unfold prepared
  rw [hadd]

/-- The link is selected by the key. -/
theorem linkFor_eq {p pkt : Pkt} (h : Becomes rss vlan p pkt) (cls : Class) :
    cls.linkFor pkt = cls.linkOf rss.hashFn pkt.key := by
  obtain ⟨fuel, q, -, rfl⟩ := h
  have hhash : (hash rss.hashFn q).md.hash = keyHash rss.hashFn (hash rss.hashFn q).key := by
    unfold hash Pkt.key
    cases hashInfo q.md.ethertype with
    | none => rfl
    | some info => rfl
  unfold Class.linkFor Class.linkOf
  rw [hhash]

/-! ## What is handed out -/

variable {k : Nat} {freed : List Nat} {cls : Class}

theorem tasksOf_filter {classes : List Class} (hseqs : (classes.map Class.seq).Nodup)
    (hcls : cls ∈ classes) :
    ((tasksOf fuel rss vlan a classes).filter fun t => t.1.seq = cls.seq) =
      (inputOf fuel rss vlan a rss.active cls.seq).map (cls, ·) := by
  have hother (first : Class) (hne : first.seq ≠ cls.seq) :
      ((inputOf fuel rss vlan a rss.active first.seq).map (first, ·)).filter
        (fun t => t.1.seq = cls.seq) = [] := by
    refine filter_eq_nil_iff.mpr fun t ht => ?_
    obtain ⟨p, -, rfl⟩ := mem_map.mp ht
    simpa using hne
  induction classes with
  | nil => exact absurd hcls not_mem_nil
  | cons first rest ih =>
    rw [map_cons, nodup_cons] at hseqs
    change (((inputOf fuel rss vlan a rss.active first.seq).map (first, ·) ++
      tasksOf fuel rss vlan a rest).filter fun t => t.1.seq = cls.seq) = _
    rw [filter_append]
    rcases mem_cons.mp hcls with rfl | hrest
    · have hnone : (tasksOf fuel rss vlan a rest).filter (fun t => t.1.seq = cls.seq) = [] := by
        unfold tasksOf
        rw [filter_flatMap, flatMap_eq_nil_iff]
        intro second hsecond
        exact hother second fun heq => hseqs.1 (heq ▸ mem_map_of_mem hsecond)
      have hself : ((inputOf fuel rss vlan a rss.active cls.seq).map (cls, ·)).filter
          (fun t => t.1.seq = cls.seq) =
            (inputOf fuel rss vlan a rss.active cls.seq).map (cls, ·) := by
        refine filter_eq_self.mpr fun t ht => ?_
        obtain ⟨p, -, rfl⟩ := mem_map.mp ht
        exact decide_eq_true rfl
      rw [hnone, hself, append_nil]
    · rw [hother first fun heq => hseqs.1 (heq ▸ mem_map_of_mem hrest), ih hseqs.2 hrest,
        nil_append]

theorem mem_tasksOf (hcls : cls ∈ targets rss.active (prepared fuel rss vlan a p))
    (hp : p ∈ a.order) : (cls, p) ∈ tasksOf fuel rss vlan a rss.active := by
  refine mem_flatMap.mpr ⟨cls, mem_of_mem_targets hcls, mem_map_of_mem ?_⟩
  exact mem_filter.mpr ⟨hp, any_eq_true.mpr ⟨cls, hcls, decide_eq_true rfl⟩⟩

theorem mem_targets_of_mem_tasksOf (hseqs : (rss.active.map Class.seq).Nodup)
    (h : (cls, p) ∈ tasksOf fuel rss vlan a rss.active) :
    p ∈ a.order ∧ cls ∈ targets rss.active (prepared fuel rss vlan a p) := by
  obtain ⟨cls', hcls', hmem⟩ := mem_flatMap.mp h
  obtain ⟨q, hq, heq⟩ := mem_map.mp hmem
  cases heq
  obtain ⟨hp, hany⟩ := mem_filter.mp hq
  obtain ⟨cls'', hcls'', hseq⟩ := any_eq_true.mp hany
  rw [decide_eq_true_eq] at hseq
  have heq : cls'' = cls := inj_on_of_nodup_map hseqs (mem_of_mem_targets hcls'') hcls' hseq
  exact ⟨hp, heq ▸ hcls''⟩

/-- **How often a packet of the input link is sent.** -/
theorem Handing.count_sent (hp : p ∈ a.order)
    (h : Handing fuel rss vlan a (holders fuel rss vlan a rss.active) freed
      (tasksOf fuel rss vlan a rss.active) [] s) :
    (s.sent.map Sent.ptr).count p + max (holders fuel rss vlan a rss.active p % 65536) 1 =
      holders fuel rss vlan a rss.active p + 1 := by
  have hcount := h.count p hp
  have hle := h.ref_le p hp
  simp only [map_nil, count_nil] at hcount hle
  omega

theorem Handing.exists_task {done todo : List (Class × Nat)} {n : Nat → Nat} {e : Sent}
    (h : Handing fuel rss vlan a n freed done todo s) (he : e ∈ s.sent) :
    ∃ t ∈ done, HandedOut fuel rss vlan a s t e := by
  obtain ⟨i, hi, rfl⟩ := mem_iff_getElem.mp he
  have hlt : i < done.length := by rwa [h.sent.length_eq]
  exact ⟨done[i], getElem_mem hlt, h.sent.get hlt hi⟩

theorem Handing.count_fresh {done : List (Class × Nat)} {n : Nat → Nat} (hp : p ∉ a.order)
    (h : Handing fuel rss vlan a n freed done [] s) :
    (s.sent.map Sent.ptr).count p = (List.range' a.next (s.next - a.next)).count p := by
  rw [← h.fresh]
  by_cases hnew : a.next ≤ p
  · exact (count_filter (p := fun x => decide (a.next ≤ x)) (decide_eq_true hnew)).symm
  · have hsent : p ∉ s.sent.map Sent.ptr := by
      intro hmem
      obtain ⟨e, he, rfl⟩ := mem_map.mp hmem
      obtain ⟨t, -, hhanded⟩ := h.exists_task he
      rcases hhanded.ptr with hptr | hptr
      · exact hp (hptr ▸ hhanded.arrived)
      · exact hnew hptr.1
    rw [count_eq_zero_of_not_mem hsent,
      count_eq_zero_of_not_mem fun hmem => hsent (mem_filter.mp hmem).1]

/-! ## Packets and what is sent for them -/

theorem exists_mem_zip {A B : Type} {R : A → B → Prop} {l : List A} {l' : List B}
    (h : List.Forall₂ R l l') {x : A} (hx : x ∈ l) : ∃ y, (x, y) ∈ l.zip l' := by
  induction h with
  | nil => exact absurd hx not_mem_nil
  | @cons x' y' _ _ _ _ ih =>
    rcases mem_cons.mp hx with rfl | hx
    · exact ⟨y', mem_cons_self⟩
    · obtain ⟨y, hy⟩ := ih hx
      exact ⟨y, mem_cons_of_mem _ hy⟩

theorem of_mem_zip {A B : Type} {R : A → B → Prop} {l : List A} {l' : List B}
    (h : List.Forall₂ R l l') {x : A × B} (hx : x ∈ l.zip l') : x.1 ∈ l ∧ R x.1 x.2 :=
  ⟨(List.of_mem_zip hx).1, (forall₂_iff_zip.mp h).2 hx⟩

theorem has_iff {pkt : Nat → Pkt} (hseqs : (rss.active.map Class.seq).Nodup)
    (hcls : cls ∈ rss.active) : Has rss pkt cls p = true ↔ cls ∈ targets rss.active (pkt p) := by
  unfold Has
  rw [any_eq_true]
  constructor
  · rintro ⟨cls', hcls', hseq⟩
    rw [decide_eq_true_eq] at hseq
    exact inj_on_of_nodup_map hseqs (mem_of_mem_targets hcls') hcls hseq ▸ hcls'
  · exact fun h => ⟨cls, h, decide_eq_true rfl⟩

/-- **What was handed out is what is to be delivered**, if no packet has too many classes and the
keys of packets of one flow select the same link. -/
theorem Handing.delivered (hsound : rss.Sound)
    (hdoable : ∀ p ∈ a.packets, (Task.addMd p).Doable fuel rss vlan a)
    (hfew : ∀ p ∈ a.packets, holders fuel rss vlan a rss.active p < 2 ^ 16)
    (hkeys : KeysAgree rss vlan a fun cls key key' =>
      cls.linkOf rss.hashFn key = cls.linkOf rss.hashFn key')
    (h : Handing fuel rss vlan a (holders fuel rss vlan a rss.active) (freedOf fuel rss vlan a)
      (tasksOf fuel rss vlan a rss.active) [] s) (hidle : ∀ q, s.queues q = []) :
    Delivered rss vlan a (prepared fuel rss vlan a) a.order s := by
  have hbecomes p hp := becomes_prepared (hdoable p hp)
  have hfreed : s.freed = a.order.filter fun p =>
      (targets rss.active (prepared fuel rss vlan a p)).isEmpty := by
    rw [h.freed_eq, freedOf, remaining, filter_filter]
    refine filter_congr fun p hp => ?_
    have hlt := hfew p (mem_order.mp hp)
    unfold holders at hlt ⊢
    cases htargets : targets rss.active (prepared fuel rss vlan a p) with
    | nil =>
      have hkept : kept rss.active (prepared fuel rss vlan a p) = true := by
        by_contra hnot
        exact targets_ne_nil (Bool.eq_false_iff.mpr hnot) htargets
      rw [hkept]
      rfl
    | cons cls rest =>
      rw [htargets, length_cons] at hlt
      have hne : ¬ (rest.length + 1) % 65536 = 0 := by omega
      simp [hne]
  have hsent cls (hcls : cls ∈ rss.active) : List.Forall₂
      (fun p e => cls.linkOf rss.hashFn (prepared fuel rss vlan a p).key = some e.link ∧
        e.link ∈ cls.output ∧ (s.pkts e.ptr).CopyOf (prepared fuel rss vlan a p))
      (a.order.filter (Has rss (prepared fuel rss vlan a) cls))
      (s.sent.filter fun e => e.cls = cls.seq) := by
    have hforall : List.Forall₂ (HandedOut fuel rss vlan a s)
        ((tasksOf fuel rss vlan a rss.active).filter fun t => t.1.seq = cls.seq)
        (s.sent.filter fun e => e.cls = cls.seq) := by
      refine rel_filter (fun t e hte => ?_) h.sent
      simp only [hte.cls]
    rw [tasksOf_filter hsound.active_nodup hcls, forall₂_map_left_iff] at hforall
    refine hforall.imp fun p e hte => ?_
    have hlink := hte.link
    rw [linkFor_eq (hbecomes p (mem_order.mp hte.arrived))] at hlink
    exact ⟨hlink, mem_of_getElem? hlink, hte.copy⟩
  refine ⟨hbecomes, order_perm, order_filter_kind, hsent, fun cls hcls x hx y hy hflow => ?_,
    fun e he => ?_, hfreed, ?_, ?_, hidle⟩
  · have hhas {p} (hp : p ∈ a.order.filter (Has rss (prepared fuel rss vlan a) cls)) :
        p ∈ a.packets ∧ cls ∈ targets rss.active (prepared fuel rss vlan a p) := by
      obtain ⟨hmem, hof⟩ := mem_filter.mp hp
      exact ⟨mem_order.mp hmem, (has_iff hsound.active_nodup hcls).mp hof⟩
    obtain ⟨hxhas, hxlink, -⟩ := of_mem_zip (hsent cls hcls) hx
    obtain ⟨hyhas, hylink, -⟩ := of_mem_zip (hsent cls hcls) hy
    obtain ⟨hxmem, hxcls⟩ := hhas hxhas
    obtain ⟨hymem, hycls⟩ := hhas hyhas
    have hsame := hkeys _ hxmem _ hymem hflow _ _ (hbecomes _ hxmem) (hbecomes _ hymem) cls
      hxcls hycls
    exact Option.some.inj (hxlink.symm.trans (hsame.trans hylink))
  · obtain ⟨t, ht, hhanded⟩ := h.exists_task he
    obtain ⟨cls, hcls, hmem⟩ := mem_flatMap.mp ht
    obtain ⟨p, -, rfl⟩ := mem_map.mp hmem
    rw [hhanded.cls]
    exact mem_map_of_mem hcls
  · rw [h.rxdropsFilter_eq, h.freed_eq]
  · rw [perm_iff_count]
    intro p
    rw [count_append, count_append]
    by_cases hp : p ∈ a.order
    · have hsent := h.count_sent hp
      have hlt := hfew p (mem_order.mp hp)
      have hfresh : p ∉ List.range' a.next (s.next - a.next) := by
        rw [mem_range'_1]
        have := inUse_of_mem_order hp
        omega
      rw [count_eq_one_of_mem a.nodup (mem_order.mp hp),
        count_eq_zero_of_not_mem hfresh, hfreed]
      by_cases hnone : holders fuel rss vlan a rss.active p = 0
      · have hmem : p ∈ a.order.filter fun p =>
            (targets rss.active (prepared fuel rss vlan a p)).isEmpty :=
          mem_filter.mpr ⟨hp, List.isEmpty_iff.mpr (length_eq_zero_iff.mp hnone)⟩
        rw [count_eq_one_of_mem (order_nodup.filter _) hmem]
        omega
      · have hmem : p ∉ a.order.filter fun p =>
            (targets rss.active (prepared fuel rss vlan a p)).isEmpty := by
          intro hmem
          have hempty := List.isEmpty_iff.mp (mem_filter.mp hmem).2
          exact hnone (by rw [holders, hempty, length_nil])
        rw [count_eq_zero_of_not_mem hmem]
        omega
    · rw [h.count_fresh hp, hfreed,
        count_eq_zero_of_not_mem fun hmem => hp (mem_filter.mp hmem).1,
        count_eq_zero_of_not_mem fun hmem => hp (mem_order.mpr hmem)]
      omega

/-! ## A circular packet -/

/-- An IPv6 packet with an authentication header of 12 bytes. The bytes 2 bytes into it say that
there is another one, of length 0, and that an authentication header follows. -/
def loopingPkt : Pkt where
  data
    | 12 => 0x86
    | 13 => 0xdd
    | 20 => 51
    | 54 => 51
    | 55 => 1
    | 56 => 51
    | _ => 0
  length := 66
  headroom := defaultHeadroom
  md := ⟨0, 0, 0, 0, 0, 0, 0, 0, 0, 0, 0, 0, 0, 0, 0, 0⟩

theorem loopingPkt_circular : loopingPkt.Circular := by
  have htype : etherType loopingPkt.data = (ethertypeIpv6, 0, 0) := by
    unfold etherType
    decide
  have hround : GoesRound loopingPkt.data 54 12 0 51 := by
    refine ⟨ipv6AuthHdr, 1, auth_fn, by decide, .inl ⟨rfl, rfl⟩, by decide, ?_⟩
    intro k hpos hle
    obtain rfl : k = 1 := by omega
    exact ⟨rfl, rfl⟩
  unfold Pkt.Circular
  rw [htype]
  exact ⟨rfl, 0, 51, .first, hround⟩

/-- The packet, alone on the input link. -/
def loopingArrival : Arrival where
  pkts _ := loopingPkt
  next := 1
  packets := [0]
  rxpackets := 0
  rxdropsFilter := 0
  nodup := by decide
  fits := Nat.le_add_left 1 _
  inUse := by decide

/-! ## When a push delivers -/

/-- **When a push delivers**, with a given hash function. -/
theorem delivers_iff (hsound : rss.Sound) :
    Delivers rss vlan a ↔ Deliverable rss vlan a ∧ KeysAgree rss vlan a fun cls key key' =>
      cls.linkOf rss.hashFn key = cls.linkOf rss.hashFn key' := by
  constructor
  · rintro ⟨fuel, s, pkt, order, hpush, hdelivered⟩
    obtain ⟨hdoable, hhanding, -⟩ := (push_works hsound).of_ok hpush
    have hadd p hp : (Task.addMd p).Doable fuel rss vlan a :=
      hdoable _ (mem_append_left _ (mem_map_of_mem (mem_order.mpr hp)))
    have hstraight p (hp : p ∈ a.packets) :
        mdLen ≤ (a.pkts p).headroom ∧ ¬ (a.pkts p).Circular := by
      obtain ⟨q, hq⟩ := hadd p hp
      exact straight_of_add hq
    refine ⟨⟨fun p hp => (hstraight p hp).1, fun p hp => (hstraight p hp).2,
      fun p hp q hq cls hcls => ?_, fun p hp q hq => ?_⟩, ?_⟩
    · rw [becomes_unique hq (becomes_prepared (hadd p hp))] at hcls
      exact hdoable (.handOut cls p)
        (mem_append_right _ (mem_map_of_mem (mem_tasksOf hcls (mem_order.mpr hp))))
    · rw [becomes_unique hq (becomes_prepared (hadd p hp))]
      by_contra hmany
      have hcount := hhanding.count_sent (mem_order.mpr hp)
      have hnodup : (s.sent.map Sent.ptr ++ s.freed).Nodup := by
        refine hdelivered.owned.nodup_iff.mpr (nodup_append.mpr ⟨a.nodup,
          nodup_range', fun x hx y hy => ?_⟩)
        have := a.inUse x hx
        have := mem_range'_1.mp hy
        omega
      have hle := nodup_iff_count_le_one.mp (nodup_append.mp hnodup).1 p
      unfold holders at hcount
      omega
    · intro p hp q hq hflow pktp pktq hpktp hpktq cls hclsp hclsq
      have hcls := mem_of_mem_targets hclsp
      obtain rfl := becomes_unique (hdelivered.becomes p hp) hpktp
      obtain rfl := becomes_unique (hdelivered.becomes q hq) hpktq
      have hsent := hdelivered.sent cls hcls
      have hmem {p} (hp : p ∈ a.packets) (hclsp : cls ∈ targets rss.active (pkt p)) :
          p ∈ order.filter (Has rss pkt cls) :=
        mem_filter.mpr ⟨hdelivered.all.mem_iff.mpr hp,
          (has_iff hsound.active_nodup hcls).mpr hclsp⟩
      obtain ⟨e, he⟩ := exists_mem_zip hsent (hmem hp hclsp)
      obtain ⟨e', he'⟩ := exists_mem_zip hsent (hmem hq hclsq)
      rw [(of_mem_zip hsent he).2.1, (of_mem_zip hsent he').2.1]
      exact congrArg some (hdelivered.flows cls hcls _ he _ he' hflow)
  · rintro ⟨h, hkeys⟩
    obtain ⟨fuel, hfuel⟩ := exists_fuel (a.packets.map a.pkts) rss.rmExtHeaders vlan (by
      intro q hq
      obtain ⟨p, hp, rfl⟩ := mem_map.mp hq
      exact h.straight p hp)
    have hadd p (hp : p ∈ a.packets) : (Task.addMd p).Doable fuel rss vlan a := by
      cases hcall : add fuel (a.pkts p) rss.rmExtHeaders vlan with
      | ok q => exact ⟨q, hcall⟩
      | error e =>
        have hrunning := add_error_of_room (h.room p hp) hcall
        exact absurd (hrunning ▸ hcall) (hfuel _ (mem_map_of_mem hp))
    obtain ⟨s, hpush, hhanding, hidle⟩ := (push_works hsound).returns (by
      intro t ht
      rcases mem_append.mp ht with ht | ht
      · obtain ⟨p, hp, rfl⟩ := mem_map.mp ht
        exact hadd p (mem_order.mp hp)
      · obtain ⟨⟨cls, p⟩, hmem, rfl⟩ := mem_map.mp ht
        obtain ⟨hp, hcls⟩ := mem_targets_of_mem_tasksOf hsound.active_nodup hmem
        exact h.linked p (mem_order.mp hp) _ (becomes_prepared (hadd p (mem_order.mp hp))) cls hcls)
    refine ⟨fuel, s, _, _, hpush, hhanding.delivered hsound hadd (fun p hp => ?_) hkeys hidle⟩
    exact h.few p hp _ (becomes_prepared (hadd p hp))

/-! ## Other hash functions -/

theorem targets_hash (classes : List Class) (hashFn : Nat → FlowKey → Nat) (p : Pkt) :
    targets classes (hash hashFn p) = targets classes p := by
  induction classes with
  | nil => rfl
  | cons cls rest ih =>
    unfold targets
    rw [ih]
    rfl

/-- With another hash function a packet becomes the same but for the hash. -/
theorem becomes_hash {hashFn : Nat → FlowKey → Nat} {p pkt : Pkt}
    (h : Becomes { rss with hashFn := hashFn } vlan p pkt) :
    Becomes rss vlan p (hash rss.hashFn pkt) := by
  obtain ⟨fuel, q, hadd, rfl⟩ := h
  exact ⟨fuel, q, hadd, rfl⟩

theorem Deliverable.hash {hashFn : Nat → FlowKey → Nat} (h : Deliverable rss vlan a) :
    Deliverable { rss with hashFn := hashFn } vlan a where
  room := h.room
  straight := h.straight
  linked p hp pkt hpkt := by
    have hlinked := h.linked p hp _ (becomes_hash hpkt)
    rwa [targets_hash] at hlinked
  few p hp pkt hpkt := by
    have hfew := h.few p hp _ (becomes_hash hpkt)
    rwa [targets_hash] at hfew

theorem KeysAgree.hash {R : Class → Option (Nat × FlowKey) → Option (Nat × FlowKey) → Prop}
    {hashFn : Nat → FlowKey → Nat} (h : KeysAgree rss vlan a R) :
    KeysAgree { rss with hashFn := hashFn } vlan a R := by
  intro p hp q hq hflow pkt pkt' hpkt hpkt' cls hcls hcls'
  refine h p hp q hq hflow _ _ (becomes_hash hpkt) (becomes_hash hpkt') cls ?_ ?_
  · rwa [targets_hash]
  · rwa [targets_hash]

/-- **When a push delivers**, whatever the hash function. -/
theorem forall_delivers_iff (hsound : ∀ hashFn, { rss with hashFn := hashFn }.Sound) :
    (∀ hashFn, Delivers { rss with hashFn := hashFn } vlan a) ↔
      Deliverable rss vlan a ∧ KeysAgree rss vlan a fun cls key key' =>
        key = key' ∨ cls.Single := by
  constructor
  · intro h
    refine ⟨((delivers_iff (hsound rss.hashFn)).mp (h rss.hashFn)).1, ?_⟩
    intro p hp q hq hflow pkt pkt' hpkt hpkt' cls hcls hcls'
    obtain ⟨flow, hflowp, hflowq⟩ := id hflow
    obtain ⟨key, hkey⟩ := exists_key hflowp hpkt
    obtain ⟨key', hkey'⟩ := exists_key hflowq hpkt'
    rw [hkey, hkey', Option.some_inj, ← linkOf_eq_iff, ← hkey, ← hkey']
    intro hashFn
    exact ((delivers_iff (hsound hashFn)).mp (h hashFn)).2.hash p hp q hq hflow _ _ hpkt hpkt' cls hcls
      hcls'
  · rintro ⟨hdeliverable, hkeys⟩ hashFn
    refine (delivers_iff (hsound hashFn)).mpr ⟨hdeliverable.hash, ?_⟩
    intro p hp q hq hflow pkt pkt' hpkt hpkt' cls hcls hcls'
    obtain ⟨flow, hflowp, hflowq⟩ := id hflow
    obtain ⟨key, hkey⟩ := exists_key hflowp hpkt
    obtain ⟨key', hkey'⟩ := exists_key hflowq hpkt'
    have hsame := hkeys.hash p hp q hq hflow _ _ hpkt hpkt' cls hcls hcls'
    rw [hkey, hkey', Option.some_inj] at hsame
    rw [hkey, hkey']
    exact (linkOf_eq_iff cls key key').mpr hsame hashFn

/-- The keys of packets of one flow are equal where the flows stand where the app looks for them. -/
theorem keys_eq_of_plain (h : ∀ p ∈ a.packets, (a.pkts p).Plain rss.rmExtHeaders) :
    KeysAgree rss vlan a fun _ key key' => key = key' := by
  rintro p hp q hq ⟨flow, hflowp, hflowq⟩ pkt pkt' hpkt hpkt' cls - -
  rw [key_of_inFlow hflowp (h p hp) hpkt, key_of_inFlow hflowq (h q hq) hpkt']

theorem make_hashFn (weight : String → String → Option Nat) (specs : List ClassSpec)
    (links : List String) (rmExtHeaders : Bool) (hashFn hashFn' : Nat → FlowKey → Nat) :
    Config.make weight specs links rmExtHeaders hashFn' =
      { Config.make weight specs links rmExtHeaders hashFn with hashFn := hashFn' } := by
  have hlink (links : List String) (rss : Config) :
      links.foldl (Config.linkOutput weight) { rss with hashFn := hashFn' } =
        { links.foldl (Config.linkOutput weight) rss with hashFn := hashFn' } := by
    induction links generalizing rss with
    | nil => rfl
    | cons name rest ih => exact ih (rss.linkOutput weight name)
  exact hlink links (.new specs rmExtHeaders hashFn)

/-- A TCP packet over IPv6 with a header of destination options, which begin with two given bytes;
the ports behind it are 80 and 443. -/
def optionsPkt (option length : UInt8) : Pkt where
  data
    | 12 => 0x86
    | 13 => 0xdd
    | 20 => 60
    | 54 => 6
    | 56 => option
    | 57 => length
    | 63 => 80
    | 64 => 1
    | 65 => 187
    | _ => 0
  length := 82
  headroom := defaultHeadroom
  md := ⟨0, 0, 0, 0, 0, 0, 0, 0, 0, 0, 0, 0, 0, 0, 0, 0⟩

/-- Two such packets on the input link, one with four bytes of padding and one without options. -/
def optionsArrival : Arrival where
  pkts p := if p = 0 then optionsPkt 1 4 else optionsPkt 0 0
  next := 2
  packets := [0, 1]
  rxpackets := 0
  rxdropsFilter := 0
  nodup := by decide
  fits := Nat.le_add_left 2 _
  inUse := by decide

theorem optionsPkt_inFlow (option length : UInt8) :
    InFlow (optionsPkt option length)
      (ethertypeIpv6, ⟨readBytes (fun _ => 0) 0 32, [0, 80, 1, 187], 6⟩) := by
  have htype : (etherType (optionsPkt option length).data).1 = ethertypeIpv6 := by
    simp [etherType, ntohs, optionsPkt, ethertypeDot1q, ethertypeIpv6]
  have hl3 : (optionsPkt option length).l3 = 14 := by
    simp [Pkt.l3, etherType, ntohs, optionsPkt, ethertypeDot1q, ethernetHeaderSize]
  have haddrs : readBytes (optionsPkt option length).data 22 32 = readBytes (fun _ => 0) 0 32 :=
    readBytes_congr fun i hi => by interval_cases i <;> rfl
  have hleads : Leads (optionsPkt option length) 54 60 62 6 0 :=
    @Leads.header _ 54 8 62 0 60 6 rfl (show 54 + 8 ≤ 82 by decide)
      (fun h => absurd h (by decide)) (.upper rfl)
  have hports : (optionsPkt option length).ports 6 0 62 = some [0, 80, 1, 187] := rfl
  have hflow := InFlow.ipv6 htype (by rw [hl3]; exact (show 14 + 40 ≤ 82 by decide))
    (by rw [hl3]; exact hleads) hports
  rwa [hl3, haddrs] at hflow

set_option maxRecDepth 4000 in
/-- The packets are of one flow, and an app that leaves the headers in sends them on two links. -/
theorem options_part_flow :
    let rss := Config.make (fun _ _ => some 1) [⟨"default", fun _ _ _ => true, false⟩]
      ["default_1", "default_2"] false fun _ key => if key.ports = [6, 0, 1, 4] then 2 ^ 16 else 0
    ¬ Delivers rss none optionsArrival := by
  intro rss h
  have hsound : rss.Sound := sound_make _ _ _ _ _
  have hflow : SameFlow (optionsArrival.pkts 0) (optionsArrival.pkts 1) :=
    ⟨_, optionsPkt_inFlow 1 4, optionsPkt_inFlow 0 0⟩
  have hlink := ((delivers_iff hsound).mp h).2 0 (by decide) 1 (by decide) hflow _ _
    ⟨2, _, rfl, rfl⟩ ⟨2, _, rfl, rfl⟩
    ⟨⟨"default", fun _ _ _ => true, false⟩, 0, ["default_1", "default_2"]⟩ (.head _) (.head _)
  exact absurd hlink (by decide)

/-! ## Termination of the traversal -/

/-- **The traversal of the extension headers ends, unless the packet is circular**: in `add`, and
so in a push, which comes to the packets in front of the first that has no room. -/
theorem traversal_ends_iff (p : Pkt) (rmExtHeaders : Bool) (vlan : Option Nat)
    (weight : String → String → Option Nat) (specs : List ClassSpec) (links : List String)
    (hashFn : Nat → FlowKey → Nat) (a : Arrival) :
    (Returns (fun fuel => add fuel p rmExtHeaders vlan) ↔
      ¬ (mdLen ≤ p.headroom ∧ p.Circular)) ∧
    (Returns (fun fuel => pushWithVlan fuel (.make weight specs links rmExtHeaders hashFn) vlan
      a.start) ↔ ∀ p ∈ a.accepted, ¬ (a.pkts p).Circular) :=
  ⟨add_returns_iff .., push_returns_iff (sound_make ..)⟩

/-- The traversal of this packet goes round, whether headers are removed or not. -/
theorem looping_add_never_returns :
    ¬ ∃ rmExtHeaders, Returns (fun fuel => add fuel loopingPkt rmExtHeaders none) := by
  rintro ⟨rmExtHeaders, hreturns⟩
  exact (add_returns_iff ..).mp hreturns ⟨by decide, loopingPkt_circular⟩

end Rss

end Snabb
