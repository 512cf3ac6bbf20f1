import Snabb.HybridAccess.Recombination.Push
import Mathlib.Algebra.Order.Group.Multiset
import Mathlib.Tactic.Abel

/-!
# Packet conservation

Ownership of a packet moves from the input link into a receive buffer and from
there either to the output link or back to the freelist. A packet is named by
its allocation, which stays the same when its structure is moved to drop the
headers.

The invariant is a balance per link: the packets received are, as a multiset,
those held, those accepted by the output link, and those freed. Each primitive
operation has one balance lemma, and every move is two of them.
-/

namespace Snabb

open List Packet

namespace Recombination

open Foundation Relation

variable {c : RecombinationConf} {s s' : Recombination} {i j : LinkNo}

/-- The packets of link `i` in its receive buffer. -/
def held (s : Recombination) (i : LinkNo) : List Nat := (s.buffer i).map fun p => p.packet.base

/-- The packets of link `i` that the output link has accepted. -/
def sentFrom (s : Recombination) (i : LinkNo) : List Nat :=
  (s.sent.filter fun e => e.1 = i).map fun e => e.2.base

/-- The packets of link `i` that were freed for the given reason. -/
def freedFrom (s : Recombination) (i : LinkNo) (r : FreeReason) : List Nat :=
  (s.freed.filter fun e => e.1 = i && e.2.2 = r).map fun e => e.2.1.base

/-- All packets of link `i` that the recombination has ever owned. -/
def account (s : Recombination) (i : LinkNo) : Multiset Nat :=
  (s.held i : Multiset Nat) + s.sentFrom i + s.freedFrom i .late + s.freedFrom i .ddc +
    s.freedFrom i .bufferFull + s.freedFrom i .txdrop

/-- One packet, on link `i` only. -/
def single (i : LinkNo) (p : Packet) (j : LinkNo) : Multiset Nat := if j = i then {p.base} else 0

theorem account_free (s : Recombination) (i j : LinkNo) (p : Packet) (r : FreeReason) :
    (s.free i p r).account j = s.account j + single i p j := by
  by_cases h : j = i
  · subst h
    cases r <;>
    · simp [account, free, held, sentFrom, freedFrom, single, ← Multiset.coe_add]
      try abel
  · have h' : ¬ i = j := fun e => h e.symm
    simp [account, free, held, sentFrom, freedFrom, single, h, h']

theorem account_transmit (s : Recombination) (i j : LinkNo) (p : Packet) :
    (s.transmit i p).account j = s.account j + single i p j := by
  rw [transmit]
  split
  · exact account_free s i j p .txdrop
  · by_cases h : j = i
    · subst h
      simp [account, held, sentFrom, single, ← Multiset.coe_add]
      abel
    · have h' : ¬ i = j := fun e => h e.symm
      simp [account, held, sentFrom, freedFrom, single, h, h']

theorem account_dequeue {p : TsPacket} {rest : List TsPacket} (hbuf : s.buffer i = p :: rest)
    (j : LinkNo) : (s.dequeue i).account j + single i p.packet j = s.account j := by
  by_cases h : j = i
  · subst h
    have hheld : (s.held j : Multiset Nat) = (s.dequeue j).held j + {p.packet.base} := by
      rw [held, held, dequeue_buffer_self, hbuf, tail_cons, map_cons,
        ← Multiset.cons_coe, ← Multiset.singleton_add, add_comm]
    rw [account, account, hheld, single]
    simp only [sentFrom, freedFrom, dequeue]
    abel
  · have hkeep : (s.dequeue i).held j = s.held j := by
      rw [held, dequeue_buffer_of_ne s h, held]
    rw [account, hkeep, single, if_neg h, add_zero]
    rfl

/-- Consuming a packet puts it in exactly one of the two histories. -/
theorem account_deliver {p : Packet} {h : HaHeader} (hok : deliver c i p h s = .ok s')
    (j : LinkNo) : s'.account j = s.account j + single i p j := by
  simp only [deliver] at hok
  split at hok
  · split at hok
    · rename_i q hq
      cases hok
      have hbase : single i q j = single i p j := by
        rw [single, single, Codec.base_removeHeader hq]
      rw [account_transmit, hbase]
      rfl
    · cases hok
  · cases hok
    rw [account_free]
    rfl

/-- No move leaks, duplicates or mixes up a packet. -/
theorem account_move {G : Recombination → LinkNo → HaHeader → Prop} (h : Move c G s s')
    (j : LinkNo) : s'.account j = s.account j := by
  cases h with
  | forward hbuf hhead => rw [account_transmit, account_dequeue hbuf]
  | discard hbuf hhead hlate => rw [account_free, account_dequeue hbuf]
  | consume hbuf hhead hguard hok => rw [account_deliver hok, account_dequeue hbuf]

theorem account_fetched (c : RecombinationConf) (s : Recombination) (inp : PushInput)
    (i : LinkNo) : (fetched c s inp).account i =
      s.account i + ((inp.input i).packets.map base : List Nat) := by
  have hsplit : (inp.input i).packets =
      (inp.input i).packets.take (room (s.buffer i)) ++ overflow s inp i :=
    (take_append_drop _ _).symm
  have hheld : (fetched c s inp).held i =
      s.held i ++ ((inp.input i).packets.take (room (s.buffer i))).map base := by
    rw [held, fetched_buffer, present, map_append, List.map_map]
    rfl
  have hsent : (fetched c s inp).sentFrom i = s.sentFrom i := by rw [fetched_eq]; rfl
  have hfull : (fetched c s inp).freedFrom i .bufferFull =
      s.freedFrom i .bufferFull ++ (overflow s inp i).map base := by
    rw [fetched_eq]
    cases i <;> simp [filter_map, Function.comp_def, freedFrom]
  have hother : ∀ r ≠ .bufferFull, (fetched c s inp).freedFrom i r = s.freedFrom i r := by
    intro r hr
    have hr' : ¬ FreeReason.bufferFull = r := fun e => hr e.symm
    rw [fetched_eq]
    simp [freedFrom, hr']
  rw [account, hheld, hfull, hother .late (by decide), hother .ddc (by decide),
    hother .txdrop (by decide), hsent, hsplit, map_append, account]
  rw [← hsplit]
  simp only [← Multiset.coe_add]
  abel

/-- **Packet conservation**: after any run of pushes that return, the packets
received from a link are exactly those still in its buffer, those accepted by the
output link, and those freed: late, as a DDC packet, on a full buffer, or by
`link.transmit` on a full output link. Each packet is in one of them and once. -/
theorem packet_conservation (c : RecombinationConf) (inputs : List PushInput) (s : Recombination)
    (hrun : run (push c) .new inputs = .ok s) (i : LinkNo) :
    List.Perm ((received i inputs).map base)
      (s.held i ++ s.sentFrom i ++ s.freedFrom i .late ++ s.freedFrom i .ddc ++
        s.freedFrom i .bufferFull ++ s.freedFrom i .txdrop) := by
  have hinv : ∀ inputs s₀, run (push c) s₀ inputs = .ok s →
      s.account i = s₀.account i + ((received i inputs).map base : List Nat) := by
    intro inputs
    induction inputs with
    | nil =>
      rintro s₀ h
      cases h
      simp [received]
    | cons inp inputs ih =>
      intro s₀ h
      obtain ⟨s₁, hpush, hrest⟩ := run_cons_eq_ok h
      have hstep : s₁.account i = (fetched c s₀ inp).account i :=
        moves_inv (P := fun t => t.account i = (fetched c s₀ inp).account i)
          (fun _ _ ht hmove => (account_move hmove i).trans ht) (push_moves hpush) rfl
      rw [ih s₁ hrest, hstep, account_fetched, add_assoc, Multiset.coe_add, ← map_append]
      rfl
  have hfinal := hinv inputs .new hrun
  simpa [account, new, held, sentFrom, freedFrom] using hfinal.symm

/-- Conservation at work: of three packets one is sent, one freed and one held. -/
theorem packet_conservation_sample :
    ∃ s, run (push ⟨.eth, fun _ => 5, 204⟩) .new
        [.finding 0 [haFrame 10 0] [], .finding 1 [haFrame 11 0, haFrame 12 7] []] = .ok s ∧
      s.sent.length = 1 ∧ s.freed.length = 1 ∧
      List.Perm [10, 11, 12]
        (s.held .one ++ s.sentFrom .one ++ s.freedFrom .one .late ++ s.freedFrom .one .ddc ++
          s.freedFrom .one .bufferFull ++ s.freedFrom .one .txdrop) := by
  refine exists_ok_of_any (fun s => s.sent.length = 1 ∧ s.freed.length = 1)
    (by decide +kernel) fun s hs ⟨hsent, hfreed⟩ => ?_
  exact ⟨hsent, hfreed, packet_conservation _ _ s hs .one⟩

end Recombination

end Snabb
