import Snabb.Apps.Rss.HeaderChain
import Snabb.Apps.Rss.Model
import Snabb.Foundation.Tasks

/-!
# From the input link to the main queue

The packets are sorted by their ethertypes into queues, and these are emptied into the main queue
one after the other, where each packet has its meta-data. So the packets of one ethertype stay in
their order.

- `forPackets_works`: the rule for the loops of the app.
- `demux_works`: what the first part of `push_with_vlan` does to the packets of the input link.
-/

namespace Snabb

open List hiding get modify
open Function (update update_eq_self update_idem update_of_ne update_self)

namespace Rss

open Foundation
export Foundation (Works)

variable {ι : Type} {C : ι → Prop} {E : ι → Halt → Prop} {s : State} {q : QueueName} {p : Nat}
  {ps rest : List Nat}

/-! ## Loops -/

theorem put_of_ne {q' : QueueName} (h : q' ≠ q) (packets : List Nat) :
    (s.put q packets).queues q' = s.queues q' := update_of_ne h _ _

theorem receive_eq (h : s.queues q = p :: rest) : receive q s = .ok (p, s.put q rest) := by
  simp only [receive, bind, StateT.bind, get, getThe, MonadStateOf.get, StateT.get, pure,
    Except.pure, Except.bind, h]
  rfl

theorem transmit_eq (h : (s.queues q).length < linkMaxPackets) :
    transmit q p s = .ok ((), s.put q (s.queues q ++ [p])) := by
  simp only [transmit, bind, StateT.bind, get, getThe, MonadStateOf.get, StateT.get, pure,
    Except.pure, Except.bind]
  rw [if_neg h.ne]
  rfl

variable {tasks : Nat → List ι} {body : Nat → Call Unit} {done todo : List Nat} {s : State}

section

variable (I : List Nat → State → Prop)
  (h : ∀ p todo s, I (p :: todo) s → ∃ rest, s.queues q = p :: rest ∧ Works C E (tasks p) (body p) (s.put q rest) (I todo))
include h

/-- **The loop over packets.** The invariant is about the packets that are left. -/
theorem forPackets_works {ps : List Nat} (hI : I ps s) :
    Works C E (ps.flatMap tasks) (forPackets q body ps.length) s (I []) := by
  induction ps generalizing s with
  | nil => exact .done rfl hI
  | cons p todo ih =>
    obtain ⟨rest, hq, hbody⟩ := h p todo s hI
    have hreceive : forPackets q body (p :: todo).length s =
        (body p >>= fun _ => forPackets q body todo.length) (s.put q rest) := by
      change (receive q >>= fun p => body p >>= fun _ => forPackets q body todo.length) s = _
      simp only [bind, StateT.bind, receive_eq hq]
      rfl
    exact .of_eq hreceive (hbody.bind fun s' hs' => ih hs')

theorem forReadable_works (ps : List Nat) (hq : s.queues q = ps) (hI : I ps s) :
    Works C E (ps.flatMap tasks) (forReadable q body) s (I []) := by
  have hloop : forReadable q body s = forPackets q body ps.length s := by
    rw [← hq]
    rfl
  exact .of_eq hloop (forPackets_works I h hI)

end

section

variable (I : List Nat → State → Prop)
  (h : ∀ p todo s, I (p :: todo) s → ∃ rest, s.queues q = p :: rest ∧ Works C E [] (body p) (s.put q rest) (I todo))
include h

theorem forPackets_done {ps : List Nat} (hI : I ps s) :
    Works C E [] (forPackets q body ps.length) s (I []) := by
  have hloop : Works C E (ps.flatMap fun _ => []) (forPackets q body ps.length) s (I []) :=
    forPackets_works I h hI
  rwa [flatMap_eq_nil_iff.mpr fun _ _ => rfl] at hloop

theorem forReadable_done (ps : List Nat) (hq : s.queues q = ps) (hI : I ps s) :
    Works C E [] (forReadable q body) s (I []) := by
  have hloop : forReadable q body s = forPackets q body ps.length s := by
    rw [← hq]
    rfl
  exact .of_eq hloop (forPackets_done I h hI)

end

/-! ## The input link -/

/-- The packets of the input link, with what else there is before a push. -/
structure Arrival where
  pkts : Nat → Pkt
  next : Nat
  packets : List Nat
  rxpackets : Nat
  rxdropsFilter : Nat
  nodup : packets.Nodup
  fits : packets.length ≤ linkMaxPackets
  inUse : ∀ p ∈ packets, p < next

/-- All packets are on the input link, and the queues inside the app are empty. -/
def Arrival.start (a : Arrival) : State where
  pkts := a.pkts
  next := a.next
  queues
    | .input => a.packets
    | _ => []
  freed := []
  sent := []
  rxpackets := a.rxpackets
  rxdropsFilter := a.rxdropsFilter

/-! ## Demultiplexing -/

theorem split_inj {t u : Nat} : split t = split u ↔ t = u := by
  constructor
  · intro h
    simp only [split, Prod.mk.injEq, show (0x00ff : Nat) = 2 ^ 8 - 1 from rfl,
      Nat.and_two_pow_sub_one_eq_mod] at h
    omega
  · rintro rfl
    rfl

namespace EthtDemux

variable {Q : Type}

theorem lookup_new (d : Q) (t : Nat) : (new d).lookup t = d := rfl

/-- **The demultiplexer is a table of ethertypes.** -/
theorem lookup_add (demux : EthtDemux Q) (type : Nat) (queue : Q) (t : Nat) :
    (demux.add type queue).lookup t = if t = type then queue else demux.lookup t := by
  have hsplit := split_inj (t := t) (u := type)
  rw [Prod.ext_iff] at hsplit
  unfold add lookup
  dsimp only
  by_cases hhi : (split t).1 = (split type).1
  · by_cases hlo : (split t).2 = (split type).2
    · rw [if_pos (hsplit.mp ⟨hhi, hlo⟩), hhi, update_self, hlo]
      exact update_self _ _ _
    · rw [if_neg fun heq => hlo (hsplit.mpr heq).2, hhi, update_self]
      exact update_of_ne hlo _ _
  · rw [if_neg fun heq => hhi (hsplit.mpr heq).1, update_of_ne hhi]

end EthtDemux

theorem demux1_lookup (t : Nat) :
    demux1.lookup t = if t = 0x86dd then .ipv6 else if t = 0x0800 then .ipv4
      else if t = 0x8100 then .dot1q else .defaultUntagged := by
  unfold demux1
  rw [EthtDemux.lookup_add, EthtDemux.lookup_add, EthtDemux.lookup_add, EthtDemux.lookup_new]

theorem demux2_lookup (t : Nat) :
    demux2.lookup t = if t = 0x86dd then .ipv6Tagged else if t = 0x0800 then .ipv4Tagged
      else .defaultTagged := by
  unfold demux2
  rw [EthtDemux.lookup_add, EthtDemux.lookup_add, EthtDemux.lookup_new]

/-- The queue that a packet first comes to. -/
def Pkt.queue1 (p : Pkt) : DemuxQueue := demux1.lookup (ntohs p.data 12)

/-- The queue from which it comes to the main queue. -/
def Pkt.queue2 (p : Pkt) : DemuxQueue :=
  if p.queue1 = .dot1q then demux2.lookup (ntohs p.data 16) else p.queue1

/-- The queues of `demux2`. -/
def DemuxQueue.tagged : DemuxQueue → Bool
  | .defaultTagged | .ipv4Tagged | .ipv6Tagged => true
  | _ => false

theorem queue1_tagged (p : Pkt) : p.queue1.tagged = false := by
  unfold Pkt.queue1
  rw [demux1_lookup]
  split_ifs <;> rfl

theorem queue2_tagged (p : Pkt) : p.queue2.tagged = true ↔ p.queue1 = .dot1q := by
  unfold Pkt.queue2
  by_cases h : p.queue1 = .dot1q
  · rw [demux2_lookup]
    refine iff_of_true ?_ h
    split_ifs <;> rfl
  · rw [if_neg h, queue1_tagged]
    exact iff_of_false (by decide) h

theorem queue2_ne_dot1q (p : Pkt) : p.queue2 ≠ .dot1q := by
  unfold Pkt.queue2
  split_ifs with h
  · rw [demux2_lookup]
    split_ifs <;> decide
  · exact h

theorem queue2_mem (p : Pkt) : p.queue2 ∈ mdQueues := by
  have hne := queue2_ne_dot1q p
  revert hne
  cases p.queue2 <;> decide

/-! ## Before the classes -/

/-- What can go wrong in a push: a packet gets its meta-data, or it is handed out for a class. -/
inductive Task where
  | addMd (p : Nat)
  | handOut (cls : Class) (p : Nat)

section Push

variable (fuel : Nat) (rss : Config) (vlan : Option Nat) (a : Arrival)

/-- A packet gets its meta-data if `add` returns, and it is handed out if there is a link. -/
def Task.Doable : Task → Prop
  | .addMd p => ∃ pkt, add fuel (a.pkts p) rss.rmExtHeaders vlan = .ok pkt
  | .handOut cls _ => cls.output ≠ []

def Task.Fails : Task → Halt → Prop
  | .addMd p, e => add fuel (a.pkts p) rss.rmExtHeaders vlan = .error e
  | .handOut _ _, e => e = .noLink

/-- The packet with its meta-data. -/
def prepared (p : Nat) : Pkt :=
  match add fuel (a.pkts p) rss.rmExtHeaders vlan with
  | .ok pkt => hash rss.hashFn pkt
  | .error _ => a.pkts p

/-- The packets of the input link that come to the main queue from a queue. -/
def Arrival.sorted (d : DemuxQueue) : List Nat :=
  a.packets.filter fun p => (a.pkts p).queue2 = d

/-- **The packets in the order in which they come to the main queue.** -/
def Arrival.order : List Nat := mdQueues.flatMap a.sorted

/-- The state while the packets are sorted by their first ethertype. -/
def sorting1 (done todo : List Nat) : State :=
  { a.start with
    rxpackets := a.rxpackets + a.packets.length
    queues
      | .input => todo
      | .demux d => done.filter fun p => (a.pkts p).queue1 = d
      | _ => [] }

/-- The state while the tagged packets are sorted by their second ethertype. -/
def sorting2 (done todo : List Nat) : State :=
  { a.start with
    rxpackets := a.rxpackets + a.packets.length
    queues
      | .demux d => if d = .dot1q then todo
          else (a.packets.filter fun p => (a.pkts p).queue1 = d) ++
            done.filter fun p => (a.pkts p).queue2 = d
      | _ => [] }

/-- The state while packets get their meta-data: these are in the main queue, the others wait. -/
def preparing (done : List Nat) (waiting : DemuxQueue → List Nat) : State :=
  { a.start with
    rxpackets := a.rxpackets + a.packets.length
    pkts := fun p => if p ∈ done then prepared fuel rss vlan a p else a.pkts p
    queues
      | .queue => done
      | .demux d => waiting d
      | _ => [] }

end Push

variable {fuel : Nat} {rss : Config} {vlan : Option Nat} {a : Arrival}

theorem sorting1_step (h : a.packets = done ++ p :: todo) :
    transmit (.demux (a.pkts p).queue1) p ((sorting1 a done (p :: todo)).put .input todo) =
      .ok ((), sorting1 a (done ++ [p]) todo) := by
  have hfits := a.fits
  rw [h, List.length_append, length_cons] at hfits
  have hqueue : ((sorting1 a done (p :: todo)).put .input todo).queues
      (.demux (a.pkts p).queue1) = done.filter fun x => (a.pkts x).queue1 = (a.pkts p).queue1 :=
    put_of_ne (by simp) _
  have hle := length_filter_le (fun x => decide ((a.pkts x).queue1 = (a.pkts p).queue1)) done
  rw [transmit_eq (by rw [hqueue]; omega)]
  simp only [sorting1, State.put, Except.ok.injEq, Prod.mk.injEq, true_and, State.mk.injEq,
    and_true]
  funext q
  cases q with
  | input => simp
  | queue => simp
  | cls k => simp
  | demux d =>
    by_cases hd : d = (a.pkts p).queue1
    · subst hd
      simp
    · simp [hd, Ne.symm hd]

/-- What two conditions that exclude each other leave of a list is no more than the list. -/
theorem length_filter_add_le {A : Type} {P Q : A → Bool} (h : ∀ x, P x → ¬ Q x) (xs : List A) :
    (xs.filter P).length + (xs.filter Q).length ≤ xs.length := by
  induction xs with
  | nil => rfl
  | cons x xs ih =>
    cases hP : P x <;> cases hQ : Q x <;> simp_all <;> omega

theorem sorting2_step
    (h : (a.packets.filter fun p => (a.pkts p).queue1 = .dot1q) = done ++ p :: todo) :
    transmit (.demux (demux2.lookup (ntohs (a.pkts p).data 16))) p
        ((sorting2 a done (p :: todo)).put (.demux .dot1q) todo) =
      .ok ((), sorting2 a (done ++ [p]) todo) := by
  have hp : (a.pkts p).queue1 = .dot1q := by
    have : p ∈ a.packets.filter fun p => (a.pkts p).queue1 = .dot1q := by
      rw [h]
      simp
    simpa using (mem_filter.mp this).2
  have hq2 : demux2.lookup (ntohs (a.pkts p).data 16) = (a.pkts p).queue2 := by
    unfold Pkt.queue2
    rw [if_pos hp]
  have hne := queue2_ne_dot1q (a.pkts p)
  have hqueue : ((sorting2 a done (p :: todo)).put (.demux .dot1q) todo).queues
      (.demux (a.pkts p).queue2) =
        (a.packets.filter fun x => (a.pkts x).queue1 = (a.pkts p).queue2) ++
          done.filter fun x => (a.pkts x).queue2 = (a.pkts p).queue2 := by
    rw [put_of_ne (by simpa using hne)]
    exact if_neg hne
  have hroom : (a.packets.filter fun x => (a.pkts x).queue1 = (a.pkts p).queue2).length +
      (done.filter fun x => (a.pkts x).queue2 = (a.pkts p).queue2).length < linkMaxPackets := by
    have hfits := a.fits
    have hle := length_filter_le (fun x => decide ((a.pkts x).queue2 = (a.pkts p).queue2)) done
    have hboth := length_filter_add_le
      (P := fun x => decide ((a.pkts x).queue1 = (a.pkts p).queue2))
      (Q := fun x => decide ((a.pkts x).queue1 = .dot1q))
      (by simp only [decide_eq_true_eq]; rintro x hx hdot1q; exact hne (hx ▸ hdot1q)) a.packets
    rw [h, List.length_append, length_cons] at hboth
    omega
  rw [hq2, transmit_eq (by rw [hqueue, List.length_append]; exact hroom)]
  simp only [sorting2, State.put, Except.ok.injEq, Prod.mk.injEq, true_and, State.mk.injEq,
    and_true]
  funext q
  cases q with
  | input => simp
  | queue => simp
  | cls k => simp
  | demux d =>
    by_cases hd : d = (a.pkts p).queue2
    · subst hd
      simp [hne]
    · by_cases hd1 : d = .dot1q
      · subst hd1
        simp [Ne.symm hne]
      · simp [hd, hd1, Ne.symm hd]

/-- Sorted by the first ethertype and then by the second, the packets are sorted. -/
theorem sorting2_eq : sorting2 a (a.packets.filter fun p => (a.pkts p).queue1 = .dot1q) [] =
    preparing fuel rss vlan a [] fun d => if d ∈ mdQueues then a.sorted d else [] := by
  simp only [sorting2, preparing, State.mk.injEq, and_true, true_and]
  refine ⟨rfl, ?_⟩
  funext q
  cases q with
  | input => rfl
  | queue => rfl
  | cls k => rfl
  | demux d =>
    dsimp only
    by_cases hd : d = .dot1q
    · subst hd
      rfl
    have hmem : d ∈ mdQueues := by
      revert hd
      cases d <;> decide
    rw [if_neg hd, if_pos hmem, filter_filter]
    cases htag : d.tagged with
    | false =>
      have hnone : (a.packets.filter fun p => decide ((a.pkts p).queue2 = d) &&
          decide ((a.pkts p).queue1 = .dot1q)) = [] := by
        refine filter_eq_nil_iff.mpr fun p _ => ?_
        simp only [Bool.and_eq_true, decide_eq_true_eq, not_and]
        rintro rfl hdot1q
        rw [(queue2_tagged _).mpr hdot1q] at htag
        cases htag
      rw [hnone, append_nil]
      refine filter_congr fun p _ => decide_eq_decide.mpr ?_
      unfold Pkt.queue2
      split_ifs with hdot1q
      · refine iff_of_false (by rw [hdot1q]; exact Ne.symm hd) ?_
        rintro rfl
        have := (queue2_tagged (a.pkts p)).mpr hdot1q
        unfold Pkt.queue2 at this
        rw [if_pos hdot1q, htag] at this
        cases this
      · exact Iff.rfl
    | true =>
      have hnone : (a.packets.filter fun p => decide ((a.pkts p).queue1 = d)) = [] := by
        refine filter_eq_nil_iff.mpr fun p _ => ?_
        simp only [decide_eq_true_eq]
        rintro rfl
        rw [queue1_tagged] at htag
        cases htag
      rw [hnone]
      refine filter_congr fun p _ => ?_
      by_cases hq2 : (a.pkts p).queue2 = d
      · have hdot1q := (queue2_tagged (a.pkts p)).mp (hq2 ▸ htag)
        simp [hdot1q]
      · simp [hq2]

/-- **A packet that waits gets its meta-data**, if `add` returns. -/
theorem mdWrapper_works {rest : List Nat} {waiting : DemuxQueue → List Nat} {d : DemuxQueue}
    (hp : p ∉ done) (hroom : done.length < linkMaxPackets) :
    Works (Task.Doable fuel rss vlan a) (Task.Fails fuel rss vlan a) [.addMd p]
      (mdWrapper fuel rss vlan p) ((preparing fuel rss vlan a done waiting).put (.demux d) rest)
      fun s => s = preparing fuel rss vlan a (done ++ [p]) (update waiting d rest) := by
  set s := (preparing fuel rss vlan a done waiting).put (.demux d) rest with hs
  have hpkt : s.pkts p = a.pkts p := if_neg hp
  have hqueue : s.queues .queue = done := put_of_ne (by simp) _
  have hcall : mdWrapper fuel rss vlan p s =
      (match add fuel (a.pkts p) rss.rmExtHeaders vlan with
        | .ok pkt => setPkt p (hash rss.hashFn pkt) >>= fun _ => transmit .queue p
        | .error e => throw e : Call Unit) s := by
    rw [← hpkt]
    rfl
  cases hadd : add fuel (a.pkts p) rss.rmExtHeaders vlan with
  | error e =>
    refine .fail ?_ (by rw [hcall, hadd]; rfl) hadd
    rintro ⟨pkt, hok⟩
    rw [hok] at hadd
    cases hadd
  | ok pkt =>
    refine .one ⟨pkt, hadd⟩ ?_ rfl
    rw [hcall, hadd]
    change transmit .queue p { s with pkts := update s.pkts p (hash rss.hashFn pkt) } = _
    rw [transmit_eq (by dsimp only; rw [hqueue]; exact hroom)]
    rw [hs]
    simp only [preparing, State.put, Except.ok.injEq, Prod.mk.injEq, true_and, State.mk.injEq,
      and_true]
    constructor
    · funext x
      by_cases hx : x = p
      · subst hx
        simp [prepared, hadd]
      · simp [hx]
    · funext q
      cases q with
      | input => simp
      | queue => simp
      | cls k => simp
      | demux d' =>
        by_cases hd : d' = d
        · subst hd
          simp
        · simp [hd]

/-- **A queue of packets that wait is emptied.** -/
theorem prepare_works (done : List Nat) (waiting : DemuxQueue → List Nat) (d : DemuxQueue)
    (hnodup : (done ++ waiting d).Nodup) (hfits : (done ++ waiting d).length ≤ linkMaxPackets) :
    Works (Task.Doable fuel rss vlan a) (Task.Fails fuel rss vlan a) ((waiting d).map .addMd)
      (forReadable (.demux d) (mdWrapper fuel rss vlan))
      (preparing fuel rss vlan a done waiting)
      fun s =>
        s = preparing fuel rss vlan a (done ++ waiting d) (update waiting d []) := by
  rw [map_eq_flatMap]
  refine (forReadable_works (fun todo s => ∃ begun, waiting d = begun ++ todo ∧
    s = preparing fuel rss vlan a (done ++ begun) (update waiting d todo))
    ?_ (waiting d) rfl ?_).mono ?_
  · rintro p todo s ⟨begun, hbegun, rfl⟩
    refine ⟨todo, update_self _ _ _, ?_⟩
    rw [hbegun, ← append_assoc] at hnodup hfits
    have hp : p ∉ done ++ begun := by
      intro hmem
      exact (nodup_append.mp hnodup).2.2 p hmem p mem_cons_self rfl
    rw [List.length_append, length_cons] at hfits
    refine (mdWrapper_works hp (by omega)).mono ?_
    rintro _ rfl
    refine ⟨begun ++ [p], by rw [hbegun, append_assoc, singleton_append], ?_⟩
    rw [update_idem, append_assoc]
  · refine ⟨[], rfl, ?_⟩
    rw [append_nil]
    exact congrArg _ (update_eq_self d waiting).symm
  · rintro _ ⟨begun, hbegun, rfl⟩
    rw [hbegun, append_nil]

/-- The queues are disjoint, and they have no more packets than the input link. -/
theorem sorted_fits (ds : List DemuxQueue) (hds : ds.Nodup) :
    (ds.flatMap a.sorted).Nodup ∧ (ds.flatMap a.sorted).length ≤ a.packets.length := by
  have hmem {ds : List DemuxQueue} {p : Nat} (h : p ∈ ds.flatMap a.sorted) :
      p ∈ a.packets ∧ (a.pkts p).queue2 ∈ ds := by
    obtain ⟨d, hd, hp⟩ := mem_flatMap.mp h
    obtain ⟨hpackets, hqueue⟩ := mem_filter.mp hp
    rw [decide_eq_true_eq] at hqueue
    exact ⟨hpackets, hqueue ▸ hd⟩
  have hnodup : (ds.flatMap a.sorted).Nodup := by
    induction ds with
    | nil => exact nodup_nil
    | cons d ds ih =>
      obtain ⟨hd, hds⟩ := nodup_cons.mp hds
      refine nodup_append.mpr ⟨a.nodup.filter _, ih hds, ?_⟩
      rintro p hp q hq rfl
      have hqueue := (mem_filter.mp hp).2
      rw [decide_eq_true_eq] at hqueue
      exact hd (hqueue ▸ (hmem hq).2)
  refine ⟨hnodup, ?_⟩
  exact (subperm_of_subset hnodup fun p hp => (hmem hp).1).length_le

/-- **All the packets get their meta-data**, queue by queue. -/
theorem prepareAll_works :
    Works (Task.Doable fuel rss vlan a) (Task.Fails fuel rss vlan a) (a.order.map .addMd)
      (mdQueues.forM fun q => forReadable (.demux q) (mdWrapper fuel rss vlan))
      (preparing fuel rss vlan a [] fun d => if d ∈ mdQueues then a.sorted d else [])
      fun s => s = preparing fuel rss vlan a a.order fun _ => [] := by
  unfold Arrival.order
  rw [map_flatMap]
  refine (Works.forM (fun ds s => ∃ begun, mdQueues = begun ++ ds ∧
    s = preparing fuel rss vlan a (begun.flatMap a.sorted)
      (fun d => if d ∈ ds then a.sorted d else [])) ?_ ⟨[], rfl, rfl⟩).mono ?_
  · rintro d ds s ⟨begun, hbegun, rfl⟩
    have hnodup : (begun ++ d :: ds).Nodup := by
      rw [← hbegun]
      decide
    have hd : d ∉ ds := (nodup_cons.mp (nodup_append.mp hnodup).2.1).1
    have hqueue : (if d ∈ d :: ds then a.sorted d else []) = a.sorted d := if_pos mem_cons_self
    have hsnoc : (begun ++ [d]).flatMap a.sorted = begun.flatMap a.sorted ++ a.sorted d := by
      rw [flatMap_append, flatMap_singleton]
    have hsnodup : (begun ++ [d]).Nodup := by
      refine hnodup.sublist ?_
      exact List.Sublist.append_left (singleton_sublist.mpr mem_cons_self) _
    obtain ⟨hn, hle⟩ := sorted_fits (a := a) _ hsnodup
    rw [hsnoc] at hn hle
    have hworks : Works (Task.Doable fuel rss vlan a) (Task.Fails fuel rss vlan a) _ _ _ _ :=
      prepare_works (begun.flatMap a.sorted) (fun d' => if d' ∈ d :: ds then a.sorted d' else []) d
        (by rw [hqueue]; exact hn) (by rw [hqueue]; exact hle.trans a.fits)
    rw [hqueue] at hworks
    refine hworks.mono ?_
    rintro _ rfl
    refine ⟨begun ++ [d], by rw [hbegun, append_assoc, singleton_append], ?_⟩
    rw [hsnoc]
    congr 1
    funext d'
    by_cases hd' : d' = d
    · subst hd'
      rw [update_self, if_neg hd]
    · rw [update_of_ne hd']
      simp [hd']
  · rintro _ ⟨begun, hbegun, rfl⟩
    rw [hbegun]
    simp

theorem sort1_works :
    Works C E [] (forPackets .input demuxEther a.packets.length) (sorting1 a [] a.packets)
      fun s => s = sorting1 a a.packets [] := by
  refine (forPackets_done
    (fun todo s => ∃ done, a.packets = done ++ todo ∧ s = sorting1 a done todo) ?_
    ⟨[], rfl, rfl⟩).mono ?_
  · rintro p todo s ⟨done, hdone, rfl⟩
    refine ⟨todo, rfl, .done (sorting1_step hdone) ⟨done ++ [p], ?_, rfl⟩⟩
    rw [hdone, append_assoc, singleton_append]
  · rintro _ ⟨done, hdone, rfl⟩
    rw [append_nil] at hdone
    rw [← hdone]

theorem sort2_works :
    Works C E [] (forReadable (.demux .dot1q) demuxDot1q)
      (sorting2 a [] (a.packets.filter fun p => (a.pkts p).queue1 = .dot1q))
      fun s => s = sorting2 a (a.packets.filter fun p => (a.pkts p).queue1 = .dot1q) [] := by
  set dot1q := a.packets.filter fun p => (a.pkts p).queue1 = .dot1q with hdot1q
  refine (forReadable_done
    (fun todo s => ∃ done, dot1q = done ++ todo ∧ s = sorting2 a done todo) ?_ dot1q rfl
    ⟨[], rfl, rfl⟩).mono ?_
  · rintro p todo s ⟨done, hdone, rfl⟩
    refine ⟨todo, rfl, .done (sorting2_step (hdot1q ▸ hdone)) ⟨done ++ [p], ?_, rfl⟩⟩
    rw [hdone, append_assoc, singleton_append]
  · rintro _ ⟨done, hdone, rfl⟩
    rw [append_nil] at hdone
    rw [← hdone]

/-- **The packets come to the main queue**, those that get their meta-data. -/
theorem demux_works :
    Works (Task.Doable fuel rss vlan a) (Task.Fails fuel rss vlan a) (a.order.map .addMd)
      (demux fuel rss vlan) a.start fun s => s = preparing fuel rss vlan a a.order fun _ => [] := by
  have hstart : ({ a.start with rxpackets := a.rxpackets + a.packets.length } : State) =
      sorting1 a [] a.packets := by
    simp only [sorting1, State.mk.injEq, and_true, true_and]
    funext q
    cases q <;> rfl
  have hsorted : sorting1 a a.packets [] =
      sorting2 a [] (a.packets.filter fun p => (a.pkts p).queue1 = .dot1q) := by
    simp only [sorting1, sorting2, State.mk.injEq, and_true, true_and]
    funext q
    cases q with
    | input => rfl
    | queue => rfl
    | cls k => rfl
    | demux d =>
      by_cases hd : d = .dot1q
      · subst hd
        rfl
      · simp [hd]
  have hcall : demux fuel rss vlan a.start =
      (forPackets .input demuxEther a.packets.length >>= fun _ =>
        forReadable (.demux .dot1q) demuxDot1q >>= fun _ =>
          mdQueues.forM fun q => forReadable (.demux q) (mdWrapper fuel rss vlan))
        (sorting1 a [] a.packets) := by
    rw [← hstart]
    rfl
  refine .of_eq hcall ?_
  refine sort1_works.bind_done ?_
  rintro _ rfl
  rw [hsorted]
  refine sort2_works.bind_done ?_
  rintro _ rfl
  rw [sorting2_eq]
  exact prepareAll_works

end Rss

end Snabb
