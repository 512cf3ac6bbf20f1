import Snabb.Apps.Rss.Demux

/-!
# The classes of a packet

Each class takes from the main queue the packets that match it, and leaves there those that other
classes may have as well. So a packet comes to the classes that match it, up to the first of them
that does not let it go on (`targets`), and the reference count of its meta-data is their number
modulo 2^16.

- `classify_works`: what the loops over the classes do.
- `drop_works`: the packets without a class are freed.
-/

namespace Snabb

open List hiding get modify
open Function (update update_eq_self update_idem update_of_ne update_self)

namespace Rss

open Foundation

/-! ## Targets -/

/-- The packet is still in the main queue behind the class. -/
def Class.keeps (cls : Class) (p : Pkt) : Bool := !cls.matchMd p || cls.continue'

/-- The classes that match the packet, up to the first one that is not marked `continue`. -/
def targets : List Class → Pkt → List Class
  | [], _ => []
  | cls :: rest, p =>
    if cls.matchMd p then
      if cls.continue' then cls :: targets rest p else [cls]
    else targets rest p

/-- The packet is still in the main queue behind the classes. -/
def kept (classes : List Class) (p : Pkt) : Bool := classes.all (·.keeps p)

theorem kept_snoc (classes : List Class) (cls : Class) (p : Pkt) :
    kept (classes ++ [cls]) p = (kept classes p && cls.keeps p) := by
  simp [kept]

/-- **One more class.** -/
theorem targets_snoc (classes : List Class) (cls : Class) (p : Pkt) :
    targets (classes ++ [cls]) p =
      targets classes p ++ if kept classes p && cls.matchMd p then [cls] else [] := by
  induction classes with
  | nil =>
    simp only [nil_append, targets, kept, all_nil, Bool.true_and]
    split_ifs <;> rfl
  | cons first rest ih =>
    by_cases hmatch : first.matchMd p = true <;> by_cases hcontinue : first.continue' = true <;>
      simp [targets, ih, kept, Class.keeps, hmatch, hcontinue]

variable {classes : List Class} {cls : Class} {p : Pkt}

theorem mem_of_mem_targets (h : cls ∈ targets classes p) : cls ∈ classes := by
  induction classes with
  | nil => exact absurd h not_mem_nil
  | cons first rest ih =>
    rw [targets] at h
    split_ifs at h
    · rcases mem_cons.mp h with rfl | h'
      · exact mem_cons_self
      · exact mem_cons_of_mem _ (ih h')
    · rw [mem_singleton.mp h]
      exact mem_cons_self
    · exact mem_cons_of_mem _ (ih h)

theorem targets_ne_nil (h : kept classes p = false) : targets classes p ≠ [] := by
  induction classes with
  | nil => cases h
  | cons first rest ih =>
    rw [targets]
    split_ifs with hmatch hcontinue
    · exact cons_ne_nil _ _
    · exact cons_ne_nil _ _
    · refine ih ?_
      simp only [kept, Class.keeps] at h ⊢
      simpa [hmatch] using h

/-! ## Classification -/

/-- The packet with a reference count. -/
def Pkt.withRef (p : Pkt) (n : Nat) : Pkt := { p with md := { p.md with ref := n % 65536 } }

@[simp] theorem matchMd_withRef (cls : Class) (p : Pkt) (n : Nat) :
    cls.matchMd (p.withRef n) = cls.matchMd p := rfl

/-- A packet with meta-data. -/
structure Pkt.Marked (p : Pkt) : Prop where
  magic : p.md.magic = magicNumber
  room : mdLen ≤ p.headroom

theorem mdget_eq {s : State} {p : Nat} (h : (s.pkts p).Marked) :
    mdget p s = .ok ((s.pkts p).md, s) := by
  have hget : Metadata.get (s.pkts p) = .ok (s.pkts p).md := by
    unfold Metadata.get mdPtr
    rw [if_pos h.room, if_pos h.magic]
    rfl
  simp only [mdget, bind, StateT.bind, get, getThe, MonadStateOf.get, StateT.get, pure,
    Except.pure, Except.bind, hget]
  rfl

section States

variable (fuel : Nat) (rss : Config) (vlan : Option Nat) (a : Arrival)

/-- The state while packets are classified: with these reference counts, these packets in the main
queue and these in the input queues of the classes. -/
def classified (n : Nat → Nat) (main : List Nat) (inputs : Nat → List Nat) : State :=
  { a.start with
    rxpackets := a.rxpackets + a.packets.length
    pkts := fun p => if p ∈ a.order then (prepared fuel rss vlan a p).withRef (n p) else a.pkts p
    queues
      | .queue => main
      | .cls k => inputs k
      | _ => [] }

/-- The state while the packets without a class are freed. -/
def dropping (n : Nat → Nat) (main : List Nat) (inputs : Nat → List Nat) (freed : List Nat) :
    State :=
  { classified fuel rss vlan a n main inputs with
    freed := freed
    rxdropsFilter := a.rxdropsFilter + freed.length }

end States

variable {fuel : Nat} {rss : Config} {vlan : Option Nat} {a : Arrival} {ι : Type} {C : ι → Prop}
  {E : ι → Halt → Prop} {n : Nat → Nat} {main : List Nat} {inputs : Nat → List Nat} {p : Nat}

theorem transmit_main (h : main.length < linkMaxPackets) :
    transmit .queue p (classified fuel rss vlan a n main inputs) =
      .ok ((), classified fuel rss vlan a n (main ++ [p]) inputs) := by
  rw [transmit_eq h]
  simp only [classified, State.put, Except.ok.injEq, Prod.mk.injEq, true_and, State.mk.injEq,
    and_true]
  funext q
  cases q <;> simp

theorem transmit_cls {k : Nat} (h : (inputs k).length < linkMaxPackets) :
    transmit (.cls k) p (classified fuel rss vlan a n main inputs) =
      .ok ((), classified fuel rss vlan a n main (update inputs k (inputs k ++ [p]))) := by
  rw [transmit_eq h]
  simp only [classified, State.put, Except.ok.injEq, Prod.mk.injEq, true_and, State.mk.injEq,
    and_true]
  funext q
  cases q with
  | input => simp
  | queue => simp
  | demux d => simp
  | cls k' =>
    by_cases hk : k' = k
    · subst hk
      simp
    · simp [hk]

theorem setRef_eq (p : Nat) (ref : Int) (s : State) :
    let pkt : Pkt := { s.pkts p with md := { (s.pkts p).md with ref := uint16 ref } }
    setRef p ref s = .ok ((), { s with pkts := update s.pkts p pkt }) := rfl

theorem setRef_succ (hp : p ∈ a.order) :
    setRef p (((prepared fuel rss vlan a p).withRef (n p)).md.ref + 1)
        (classified fuel rss vlan a n main inputs) =
      .ok ((), classified fuel rss vlan a (update n p (n p + 1)) main inputs) := by
  have hcount : uint16 (((n p % 65536 : Nat) : Int) + 1) = (n p + 1) % 65536 := by
    unfold uint16
    omega
  rw [setRef_eq]
  simp only [classified, Except.ok.injEq, Prod.mk.injEq, true_and, State.mk.injEq, and_true]
  funext x
  by_cases hx : x = p
  · subst hx
    rw [update_self, if_pos hp, if_pos hp, update_self]
    simp only [Pkt.withRef, hcount]
  · rw [update_of_ne hx, update_of_ne hx]

/-- **A packet is shown to a class.** -/
theorem classify_step (hp : p ∈ a.order)
    (hmarked : (prepared fuel rss vlan a p).Marked) (hmain : main.length < linkMaxPackets)
    (hinput : (inputs cls.seq).length < linkMaxPackets) :
    classify cls p (classified fuel rss vlan a n main inputs) = .ok ((),
      if cls.matchMd (prepared fuel rss vlan a p) then
        classified fuel rss vlan a (update n p (n p + 1))
          (if cls.continue' then main ++ [p] else main)
          (update inputs cls.seq (inputs cls.seq ++ [p]))
      else classified fuel rss vlan a n (main ++ [p]) inputs) := by
  have hpkt : (classified fuel rss vlan a n main inputs).pkts p =
      (prepared fuel rss vlan a p).withRef (n p) := if_pos hp
  have hget := mdget_eq (s := classified fuel rss vlan a n main inputs) (p := p)
    (by rw [hpkt]; exact ⟨hmarked.magic, hmarked.room⟩)
  have hcall : classify cls p (classified fuel rss vlan a n main inputs) =
      (if cls.matchMd (prepared fuel rss vlan a p) then
          setRef p (((prepared fuel rss vlan a p).withRef (n p)).md.ref + 1) >>= fun _ =>
            transmit (.cls cls.seq) p >>= fun _ =>
              if cls.continue' then transmit .queue p else pure ()
        else transmit .queue p : Call Unit) (classified fuel rss vlan a n main inputs) := by
    rw [← matchMd_withRef cls _ (n p), ← hpkt]
    unfold classify
    simp only [bind, StateT.bind, hget]
    rfl
  rw [hcall]
  split_ifs with hmatch hcontinue
  · simp only [bind, StateT.bind, setRef_succ hp, Except.bind, transmit_cls hinput]
    exact transmit_main hmain
  · simp only [bind, StateT.bind, setRef_succ hp, Except.bind, transmit_cls hinput]
    rfl
  · exact transmit_main hmain

theorem put_main (packets : List Nat) :
    (classified fuel rss vlan a n main inputs).put .queue packets =
      classified fuel rss vlan a n packets inputs := by
  simp only [classified, State.put, State.mk.injEq, and_true, true_and]
  funext q
  cases q <;> simp

/-- The reference counts when the packets of a list that match were shown to a class. -/
def raised (matching : Nat → Bool) (done : List Nat) (n : Nat → Nat) : Nat → Nat :=
  fun p => if p ∈ done ∧ matching p then n p + 1 else n p

variable {matching : Nat → Bool} {done : List Nat}

theorem raised_snoc (hnew : p ∉ done) (h : matching p) :
    update (raised matching done n) p (raised matching done n p + 1) =
      raised matching (done ++ [p]) n := by
  funext x
  unfold raised
  by_cases hx : x = p
  · subst hx
    simp [hnew, h]
  · simp [hx]

theorem raised_snoc_of_not (h : ¬ matching p) :
    raised matching (done ++ [p]) n = raised matching done n := by
  funext x
  unfold raised
  by_cases hx : x = p
  · subst hx
    simp [h]
  · simp [hx]

/-- **The main queue is shown to a class.** -/
theorem class_works (hnodup : main.Nodup)
    (hmain : ∀ p ∈ main, p ∈ a.order ∧ (prepared fuel rss vlan a p).Marked)
    (hfits : main.length ≤ linkMaxPackets) (hempty : inputs cls.seq = []) :
    Works C E [] (forReadable .queue (classify cls)) (classified fuel rss vlan a n main inputs)
      fun s => s = classified fuel rss vlan a
        (raised (fun p => cls.matchMd (prepared fuel rss vlan a p)) main n)
        (main.filter fun p => cls.keeps (prepared fuel rss vlan a p))
        (update inputs cls.seq
          (main.filter fun p => cls.matchMd (prepared fuel rss vlan a p))) := by
  set matching : Nat → Bool := fun p => cls.matchMd (prepared fuel rss vlan a p) with hmatching
  set keeps : Nat → Bool := fun p => cls.keeps (prepared fuel rss vlan a p) with hkeeps
  refine (forReadable_done (fun todo s => ∃ done, main = done ++ todo ∧
    s = classified fuel rss vlan a (raised matching done n) (todo ++ done.filter keeps)
      (update inputs cls.seq (done.filter matching))) ?_ main rfl ⟨[], rfl, ?_⟩).mono ?_
  · rintro p todo s ⟨done, hdone, rfl⟩
    obtain ⟨hp, hmarked⟩ := hmain p (by rw [hdone]; simp)
    have hnew : p ∉ done := by
      rw [hdone] at hnodup
      intro hmem
      exact (nodup_append.mp hnodup).2.2 p hmem p mem_cons_self rfl
    have hkeep := length_filter_le keeps done
    have hmatch := length_filter_le matching done
    rw [hdone, List.length_append, length_cons] at hfits
    refine ⟨todo ++ done.filter keeps, rfl, ?_⟩
    rw [put_main]
    refine .done (classify_step hp hmarked ?_ ?_) ⟨done ++ [p], by simp [hdone], ?_⟩
    · rw [List.length_append]
      omega
    · rw [update_self]
      omega
    · by_cases hm : matching p
      · have hfilter : (done ++ [p]).filter matching = done.filter matching ++ [p] := by
          simp [hm]
        have hkept : (done ++ [p]).filter keeps =
            if cls.continue' then done.filter keeps ++ [p] else done.filter keeps := by
          have hp : keeps p = cls.continue' := by
            simp only [hkeeps, Class.keeps]
            rw [show cls.matchMd (prepared fuel rss vlan a p) = true from hm]
            rfl
          cases hcontinue : cls.continue' <;> simp [hp, hcontinue]
        rw [raised_snoc hnew hm, hfilter, hkept]
        split_ifs <;> simp
      · have hp : keeps p = true := by
          simp only [hkeeps, Class.keeps]
          rw [show cls.matchMd (prepared fuel rss vlan a p) = false from Bool.eq_false_iff.mpr hm]
          rfl
        rw [if_neg hm, raised_snoc_of_not hm]
        simp [hm, hp]
  · have hnothing : update inputs cls.seq [] = inputs := by
      rw [← hempty]
      exact update_eq_self _ _
    simp only [filter_nil, append_nil, hnothing]
    congr 1
  · rintro _ ⟨done, hdone, rfl⟩
    rw [append_nil] at hdone
    rw [hdone, nil_append]

theorem classified_congr {n' : Nat → Nat} (h : ∀ p ∈ a.order, n p = n' p) :
    classified fuel rss vlan a n main inputs = classified fuel rss vlan a n' main inputs := by
  simp only [classified, State.mk.injEq, and_true]
  funext p
  split_ifs with hp
  · rw [h p hp]
  · rfl

section Inputs

variable (fuel : Nat) (rss : Config) (vlan : Option Nat) (a : Arrival) (classes : List Class)

/-- The number of classes that have a packet. -/
def holders (p : Nat) : Nat := (targets classes (prepared fuel rss vlan a p)).length

/-- The packets that are still in the main queue. -/
def remaining : List Nat := a.order.filter fun p => kept classes (prepared fuel rss vlan a p)

/-- The packets that a class has, by its number. -/
def inputOf (k : Nat) : List Nat :=
  a.order.filter fun p => (targets classes (prepared fuel rss vlan a p)).any (·.seq = k)

end Inputs

theorem order_nodup : a.order.Nodup := (sorted_fits mdQueues (by decide)).1

theorem order_fits : a.order.length ≤ linkMaxPackets :=
  (sorted_fits mdQueues (by decide)).2.trans a.fits

/-- **The main queue is shown to the classes**, one after the other. -/
theorem classify_works (hseqs : (classes.map Class.seq).Nodup)
    (hmarked : ∀ p ∈ a.order, (prepared fuel rss vlan a p).Marked) :
    Works C E [] (classes.forM fun cls => forReadable .queue (classify cls))
      (classified fuel rss vlan a (fun _ => 0) a.order fun _ => [])
      fun s => s = classified fuel rss vlan a (holders fuel rss vlan a classes)
        (remaining fuel rss vlan a classes) (inputOf fuel rss vlan a classes) := by
  refine (Works.forM_done (fun rest s => ∃ seen, classes = seen ++ rest ∧
    s = classified fuel rss vlan a (holders fuel rss vlan a seen)
      (remaining fuel rss vlan a seen) (inputOf fuel rss vlan a seen)) ?_ ⟨[], rfl, ?_⟩).mono ?_
  · rintro cls rest s ⟨seen, hseen, rfl⟩
    have hfresh p :
        ¬ (targets seen (prepared fuel rss vlan a p)).any (·.seq = cls.seq) := by
      rw [any_eq_true]
      rintro ⟨cls', hcls', hseq⟩
      rw [decide_eq_true_eq] at hseq
      rw [hseen, map_append] at hseqs
      exact (nodup_append.mp hseqs).2.2 _ (mem_map_of_mem (mem_of_mem_targets hcls')) _
        mem_cons_self hseq
    have hnodup : (remaining fuel rss vlan a seen).Nodup := order_nodup.filter _
    refine (class_works hnodup (fun p hp => ?_) ?_ ?_).mono ?_
    · have hp := (mem_filter.mp hp).1
      exact ⟨hp, hmarked p hp⟩
    · exact (length_filter_le _ _).trans order_fits
    · refine filter_eq_nil_iff.mpr fun p _ => hfresh p
    · rintro _ rfl
      refine ⟨seen ++ [cls], by simp [hseen], ?_⟩
      have hremaining : (remaining fuel rss vlan a seen).filter
          (fun p => cls.keeps (prepared fuel rss vlan a p)) =
          remaining fuel rss vlan a (seen ++ [cls]) := by
        unfold remaining
        rw [filter_filter]
        refine filter_congr fun p _ => ?_
        rw [kept_snoc, Bool.and_comm]
      have hinputs : update (inputOf fuel rss vlan a seen) cls.seq
          ((remaining fuel rss vlan a seen).filter
            fun p => cls.matchMd (prepared fuel rss vlan a p)) =
          inputOf fuel rss vlan a (seen ++ [cls]) := by
        funext k
        have hlast p : ((if kept seen (prepared fuel rss vlan a p) &&
            cls.matchMd (prepared fuel rss vlan a p) then [cls] else []).any (·.seq = k)) =
            (kept seen (prepared fuel rss vlan a p) && cls.matchMd (prepared fuel rss vlan a p) &&
              decide (cls.seq = k)) := by
          split_ifs with h
          · simp [h]
          · simp [Bool.eq_false_iff.mpr h]
        by_cases hk : k = cls.seq
        · subst hk
          rw [update_self, remaining, filter_filter]
          refine filter_congr fun p _ => ?_
          rw [targets_snoc, any_append, Bool.eq_false_iff.mpr (hfresh p), hlast]
          simp [Bool.and_comm]
        · rw [update_of_ne hk]
          refine filter_congr fun p _ => ?_
          rw [targets_snoc]
          simp [Ne.symm hk]
      rw [hremaining, hinputs]
      refine classified_congr fun p hp => ?_
      simp only [raised, remaining, holders, mem_filter, targets_snoc]
      split_ifs <;> simp_all
  · have hremaining : remaining fuel rss vlan a [] = a.order := filter_true _
    have hinputs : inputOf fuel rss vlan a [] = fun _ => [] := by
      funext k
      exact filter_false _
    rw [hremaining, hinputs]
    rfl
  · rintro _ ⟨seen, hseen, rfl⟩
    rw [append_nil] at hseen
    rw [hseen]

/-! ## Packets without a class -/

theorem drop_step {freed : List Nat} (hp : p ∈ a.order)
    (hmarked : (prepared fuel rss vlan a p).Marked) :
    drop p (dropping fuel rss vlan a n main inputs freed) = .ok ((),
      dropping fuel rss vlan a n main inputs
        (if n p % 65536 = 0 then freed ++ [p] else freed)) := by
  have hpkt : (dropping fuel rss vlan a n main inputs freed).pkts p =
      (prepared fuel rss vlan a p).withRef (n p) := if_pos hp
  have hget := mdget_eq (s := dropping fuel rss vlan a n main inputs freed) (p := p)
    (by rw [hpkt]; exact ⟨hmarked.magic, hmarked.room⟩)
  unfold drop
  simp only [bind, StateT.bind, hget, hpkt]
  change (if n p % 65536 = 0 then _ else _ : Call Unit) _ = _
  split_ifs with hzero
  · simp only [dropping, List.length_append]
    rfl
  · rfl

/-- **The packets without a class are freed**, those of which the reference count is 0. -/
theorem drop_works (hmain : ∀ p ∈ main, p ∈ a.order ∧ (prepared fuel rss vlan a p).Marked) :
    Works C E [] (forReadable .queue drop) (classified fuel rss vlan a n main inputs)
      fun s => s = dropping fuel rss vlan a n [] inputs (main.filter fun p => n p % 65536 = 0) := by
  refine (forReadable_done (fun todo s => ∃ done, main = done ++ todo ∧
    s = dropping fuel rss vlan a n todo inputs (done.filter fun p => n p % 65536 = 0))
    ?_ main rfl ⟨[], rfl, rfl⟩).mono ?_
  · rintro p todo s ⟨done, hdone, rfl⟩
    obtain ⟨hp, hmarked⟩ := hmain p (by rw [hdone]; simp)
    have hput freed : (dropping fuel rss vlan a n (p :: todo) inputs freed).put .queue
        todo = dropping fuel rss vlan a n todo inputs freed := by
      have hmain : (classified fuel rss vlan a n (p :: todo) inputs).put .queue todo =
          classified fuel rss vlan a n todo inputs := put_main todo
      simp only [dropping, State.put] at hmain ⊢
      rw [← hmain]
    refine ⟨todo, rfl, ?_⟩
    rw [hput]
    refine .done (drop_step hp hmarked) ⟨done ++ [p], by simp [hdone], ?_⟩
    congr 1
    split_ifs with hzero <;> simp [hzero]
  · rintro _ ⟨done, hdone, rfl⟩
    rw [append_nil] at hdone
    rw [hdone]

end Rss

end Snabb
