import Mathlib.Data.Rat.Defs
import Snabb.Core.Link
import Snabb.Foundation.Run

/-!
# The packet dropper (`middleware/packet_dropper.lua`)

The dropper counts the packets that it lets through, and frees one when it has counted `value` of
them. The one that is freed is not counted, so that in mode `nth` the period is `value + 1`.

- `log_push`: what has become of each packet;
- `nth_iff`: when every `value`th packet was dropped.
-/

namespace Snabb

open Foundation List

/-- `mode` of the configuration. -/
inductive DropMode where
  | nth
  | prob
  | other
deriving DecidableEq, Repr

structure PacketDropperConf where
  mode : DropMode
  value : ℚ

inductive DropperRaise where
  /-- "value has to be larger than 1". -/
  | valueTooSmall
  /-- `Exponential:next` divides by `lambda`, and `new` has set `lamda`. -/
  | arithmeticOnNil
  /-- "mode must be 'nth' or 'prob'". -/
  | badMode
deriving DecidableEq, Repr

/-- What became of a packet. -/
inductive Fate where
  | transmitted
  | freed
deriving DecidableEq, Repr

/-- The state of a dropper, its output link, and the packets that it received. -/
structure PacketDropper where
  mode : Nat
  index : Nat
  next : ℚ
  dropped : UInt64
  output : Link
  log : List (Packet × Fate)

/-- What a push finds: the packets on the input link, and how many packets the next app has taken
from the output link. -/
structure PacketDropperInput where
  input : Link
  taken : Nat

namespace PacketDropper

/-- `PacketDropper:new`. -/
def new (conf : PacketDropperConf) : Except DropperRaise PacketDropper :=
  if 1 < conf.value then
    match conf.mode with
    | .nth => .ok ⟨1, 0, conf.value, 0, .new, []⟩
    | .prob => .error .arithmeticOnNil
    | .other => .ok ⟨0, 0, 0, 0, .new, []⟩
  else .error .valueTooSmall

/-- `get_next`. -/
def getNext (o : PacketDropper) : Except DropperRaise PacketDropper :=
  if o.mode = 1 then .ok o
  else if o.mode = 2 then .error .arithmeticOnNil
  else .error .badMode

/-- The body of the loop of `push`. -/
def processPacket (o : PacketDropper) (p : Packet) : Except DropperRaise PacketDropper :=
  if o.index = o.next then do
    let o ← getNext { o with dropped := o.dropped + 1, log := o.log ++ [(p, .freed)] }
    -- the packet that is freed is not counted
    return { o with index := 0 }
  else
    .ok { o with
      output := o.output.transmit p
      log := o.log ++ [(p, .transmitted)]
      index := o.index + 1 }

def push (o : PacketDropper) (inp : PacketDropperInput) : Except DropperRaise PacketDropper :=
  inp.input.packets.foldlM processPacket { o with output := o.output.drain inp.taken }

/-- The packets that arrive over a run. -/
def arrivals (inputs : List PacketDropperInput) : List Packet :=
  inputs.flatMap fun inp => inp.input.packets

/-! ## The period -/

/-- The fate of the packet at a position, counted from 0. -/
def fateAt (value k : Nat) : Fate := if value + 1 ∣ k + 1 then .freed else .transmitted

/-- The packets so far had the fates of their positions, and the counter goes on from there. -/
structure Counts (value : Nat) (o : PacketDropper) (ps : List Packet) : Prop where
  mode : o.mode = 1
  next : o.next = value
  index : o.index = ps.length % (value + 1)
  log : o.log = ps.mapIdx fun k p => (p, fateAt value k)

variable {value : Nat} {o : PacketDropper} {ps : List Packet}

/-- The counter is at its bound before every packet whose position is a multiple. -/
theorem mod_eq_iff (value k : Nat) : k % (value + 1) = value ↔ value + 1 ∣ k + 1 := by
  have hdiv := Nat.mod_add_div k (value + 1)
  constructor
  · intro h
    refine ⟨k / (value + 1) + 1, ?_⟩
    rw [Nat.mul_add]
    omega
  · rintro ⟨c, hc⟩
    -- The remainder of `k` is one less than that of a multiple.
    have hk : k = (value + 1) * (c - 1) + value := by
      cases c with
      | zero => omega
      | succ c =>
        rw [Nat.mul_add] at hc
        rw [Nat.add_sub_cancel]
        omega
    rw [hk, Nat.mul_add_mod, Nat.mod_eq_of_lt (Nat.lt_succ_self value)]

theorem Counts.snoc {o' : PacketDropper} {p : Packet} {fate : Fate} (h : Counts value o ps)
    (hmode : o'.mode = o.mode) (hnext : o'.next = o.next)
    (hindex : o'.index = (ps.length + 1) % (value + 1)) (hfate : fate = fateAt value ps.length)
    (hlog : o'.log = o.log ++ [(p, fate)]) : Counts value o' (ps ++ [p]) where
  mode := hmode.trans h.mode
  next := hnext.trans h.next
  index := by rw [hindex, List.length_append, length_singleton]
  log := by
    rw [hlog, h.log, mapIdx_append, hfate, mapIdx_cons, mapIdx_nil, Nat.zero_add]

/-- **One packet** is freed if and only if its position is a multiple of `value + 1`. -/
theorem Counts.processPacket (h : Counts value o ps) (p : Packet) :
    ∃ o', processPacket o p = .ok o' ∧ Counts value o' (ps ++ [p]) := by
  have hnext : (o.index = o.next) ↔ value + 1 ∣ ps.length + 1 := by
    rw [h.next, h.index, Nat.cast_inj, mod_eq_iff]
  unfold PacketDropper.processPacket
  by_cases hdvd : value + 1 ∣ ps.length + 1
  · rw [if_pos (hnext.mpr hdvd), getNext, if_pos h.mode]
    refine ⟨_, rfl, h.snoc rfl rfl ?_ (if_pos hdvd).symm rfl⟩
    exact (Nat.mod_eq_zero_of_dvd hdvd).symm
  · rw [if_neg (mt hnext.mp hdvd)]
    refine ⟨_, rfl, h.snoc rfl rfl ?_ (if_neg hdvd).symm rfl⟩
    have hne := mt (mod_eq_iff value ps.length).mp hdvd
    have hlt : ps.length % (value + 1) < value + 1 := Nat.mod_lt _ (Nat.succ_pos value)
    have hmod : (ps.length + 1) % (value + 1) = ps.length % (value + 1) + 1 := by
      rw [← Nat.mod_add_mod, Nat.mod_eq_of_lt (by omega)]
    rw [h.index, hmod]

theorem Counts.push (h : Counts value o ps) (inp : PacketDropperInput) :
    ∃ o', push o inp = .ok o' ∧ Counts value o' (ps ++ inp.input.packets) := by
  have hloop qs : ∀ {o : PacketDropper} {ps : List Packet}, Counts value o ps →
      ∃ o', qs.foldlM PacketDropper.processPacket o = .ok o' ∧ Counts value o' (ps ++ qs) := by
    induction qs with
    | nil => exact fun {o ps} h => ⟨o, rfl, by rwa [append_nil]⟩
    | cons q qs ih =>
      intro o ps h
      obtain ⟨o₁, hq, h₁⟩ := h.processPacket q
      obtain ⟨o', hqs, h'⟩ := ih h₁
      refine ⟨o', ?_, by rwa [append_assoc] at h'⟩
      rw [foldlM_cons, hq]
      exact hqs
  exact hloop inp.input.packets ⟨h.mode, h.next, h.index, h.log⟩

/-- **A run** gives each packet the fate of its position, however the packets are grouped. -/
theorem log_push (hnew : new ⟨.nth, value⟩ = .ok o) (inputs : List PacketDropperInput) :
    ∃ o', run push o inputs = .ok o' ∧ Counts value o' (arrivals inputs) := by
  have hstart : Counts value o [] := by
    unfold new at hnew
    split_ifs at hnew
    cases hnew
    exact ⟨rfl, rfl, (Nat.zero_mod _).symm, rfl⟩
  have htotal o ps (h : Counts value o ps) :
      ∃ o', run push o inputs = .ok o' ∧ Counts value o' (ps ++ arrivals inputs) := by
    induction inputs generalizing o ps with
    | nil => exact ⟨o, rfl, by rwa [arrivals, flatMap_nil, append_nil]⟩
    | cons inp inputs ih =>
      obtain ⟨o₁, hpush, h₁⟩ := h.push inp
      obtain ⟨o', hrun, h'⟩ := ih o₁ _ h₁
      exact ⟨o', by rw [run_cons_ok hpush, hrun],
        by rwa [arrivals, flatMap_cons, ← append_assoc]⟩
  exact htotal o [] hstart

/-! ## Every `value`th packet -/

/-- The packets at the multiples of `value`, counted from 1, were freed, and all others were
transmitted. -/
def DropsEvery (value : Nat) (log : List (Packet × Fate)) : Prop :=
  ∀ k entry, log[k]? = some entry → (entry.2 = .freed ↔ value ∣ k + 1)

/-- **Every `value`th packet is dropped** if and only if there are fewer packets than that. -/
theorem nth_iff {value : Nat} (hvalue : 1 < value) {o : PacketDropper}
    (hnew : new ⟨.nth, value⟩ = .ok o) (inputs : List PacketDropperInput) :
    ∃ o', run push o inputs = .ok o' ∧ o'.log.map Prod.fst = arrivals inputs ∧
      (DropsEvery value o'.log ↔ (arrivals inputs).length < value) := by
  obtain ⟨o', hrun, hcounts⟩ := log_push hnew inputs
  have hfate : ∀ k, fateAt value k = .freed ↔ value + 1 ∣ k + 1 := by
    intro k
    unfold fateAt
    split_ifs with h <;> simp [h]
  refine ⟨o', hrun, ?_, ?_⟩
  · rw [hcounts.log]
    exact ext_getElem (by simp) (by simp)
  rw [hcounts.log]
  constructor
  · intro hall
    by_contra hmany
    -- The packet number `value` is there, and was transmitted.
    have hlt : value - 1 < (arrivals inputs).length := by omega
    have hget : ((arrivals inputs).mapIdx fun k p => (p, fateAt value k))[value - 1]? =
        some ((arrivals inputs)[value - 1], fateAt value (value - 1)) := by
      rw [List.getElem?_mapIdx, List.getElem?_eq_getElem hlt, Option.map_some]
    have hfreed := (hall (value - 1) _ hget).mpr (by rw [Nat.sub_add_cancel (by omega)])
    have hdvd := (hfate (value - 1)).mp hfreed
    exact absurd (Nat.le_of_dvd (by omega) hdvd) (by omega)
  · intro hfew k entry hentry
    rw [List.getElem?_mapIdx] at hentry
    obtain ⟨p, hp, rfl⟩ := Option.map_eq_some_iff.mp hentry
    have hk := (List.getElem?_eq_some_iff.mp hp).1
    refine (hfate k).trans (iff_of_false ?_ ?_)
    · exact fun h => absurd (Nat.le_of_dvd (Nat.succ_pos k) h) (by omega)
    · exact fun h => absurd (Nat.le_of_dvd (Nat.succ_pos k) h) (by omega)

/-- A frame with one byte. -/
def frame (byte : UInt8) : Packet := .fromPointer 0 [byte]

/-- A dropper as `new` makes it in mode `nth`. -/
def every (value : Nat) : PacketDropper := ⟨1, 0, value, 0, .new, []⟩

/-- Two packets in two pushes, and the number 3 has not come yet. -/
theorem nth_iff_two :
    (1 < 3 ∧ new ⟨.nth, (3 : Nat)⟩ = .ok (every 3)) ∧
      ∃ o', run push (every 3) [⟨.holding [frame 1], 0⟩, ⟨.holding [frame 2], 0⟩] = .ok o' ∧
        o'.log.map Prod.fst = [frame 1, frame 2] ∧
        (DropsEvery 3 o'.log ↔ [frame 1, frame 2].length < 3) :=
  ⟨⟨by decide, by rfl⟩, nth_iff (by decide) (by rfl) _⟩

/-- With `value = 2`, the second packet is transmitted and the third one is freed. -/
theorem second_transmitted :
    new ⟨.nth, (2 : Nat)⟩ = .ok (every 2) ∧
      ∃ o', run push (every 2) [⟨.holding [frame 1, frame 2, frame 3], 0⟩] = .ok o' ∧
        o'.log = [(frame 1, .transmitted), (frame 2, .transmitted), (frame 3, .freed)] ∧
        ¬ DropsEvery 2 o'.log := by
  have hnew : new ⟨.nth, (2 : Nat)⟩ = .ok (every 2) := by rfl
  obtain ⟨o', hrun, hcounts⟩ := log_push hnew [⟨.holding [frame 1, frame 2, frame 3], 0⟩]
  have hlog : o'.log = [(frame 1, .transmitted), (frame 2, .transmitted), (frame 3, .freed)] := by
    rw [hcounts.log]
    rfl
  refine ⟨hnew, o', hrun, hlog, fun hall => ?_⟩
  have hsecond := (hall 1 (frame 2, .transmitted) (by rw [hlog]; rfl)).mpr (by decide)
  exact absurd hsecond (by decide)

end PacketDropper

end Snabb
