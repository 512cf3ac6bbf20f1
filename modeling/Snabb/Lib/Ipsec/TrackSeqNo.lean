import Snabb.Foundation.Ring
import Snabb.Foundation.Run
import Mathlib.Order.Lattice

/-!
# Sequence numbers of IPsec packets (`lib/ipsec/track_seq_no.c`, `lib/ipsec/esp.lua`)

An ESP packet carries the low 32 bits of its 64-bit sequence number. The receiver knows the
largest number `T` it has accepted and a window of `W` bits, a ring indexed by the number
modulo `W`, which says which of the numbers in `(T - W, T]` it has accepted. From these
`check_seq_no` infers the high 32 bits and says whether the packet is a replay; a packet that
is then found to be authentic is recorded by `track_seq_no`.

When packets fail for too long, `decrypt:resync` looks for a higher high word under which the
packet is authentic. The numbers are 64 bits wide, and the source does not look for their
wrap-around: the high words that `resync` tries are used modulo `2 ^ 32`.

Integers of the source are natural numbers with explicit remainders.
-/

namespace Snabb

open Foundation List

/-- The bytes of a window. -/
abbrev SeqWindow := Nat → BitVec 8

/-- `LO32`. -/
def lo32 (n : Nat) : Nat := n % 2 ^ 32

/-- `HI32`. -/
def hi32 (n : Nat) : Nat := n / 2 ^ 32

/-- `MK64`. -/
def mk64 (low high : Nat) : Nat := high * 2 ^ 32 + low

/-- `set_bit`. -/
def setBit (on : Bool) (seq : Nat) (window : SeqWindow) (W : Nat) : SeqWindow :=
  let bitno := seq % W
  let blockno := bitno / 8
  let bitno := bitno % 8
  -- first clear the bit, then maybe set it
  Function.update window blockno
    ((window blockno &&& ~~~(1#8 <<< bitno)) ||| ((if on then 1#8 else 0#8) <<< bitno))

/-- `get_bit`. -/
def getBit (seq : Nat) (window : SeqWindow) (W : Nat) : Bool :=
  let bitno := seq % W
  let blockno := bitno / 8
  let bitno := bitno % 8
  window blockno &&& (1#8 <<< bitno) ≠ 0#8

/-- The loop of `advance_window`: clear the bits of `seq`, `seq - 1`, ... -/
def clearBits (W : Nat) : Nat → Nat → SeqWindow → SeqWindow
  | 0, _, window => window
  | diff + 1, seq, window => clearBits W diff (seq - 1) (setBit false seq window W)

/-- `advance_window`. -/
def advanceWindow (seq T : Nat) (window : SeqWindow) (W : Nat) : SeqWindow :=
  let diff := seq - T
  clearBits W (if W < diff then W else diff) seq window

/-- The high word that `check_seq_no` infers. The comparisons are those of `uint32_t`. -/
def inferHigh (seqLo T W : Nat) : Nat :=
  let Tl := lo32 T
  let Th := hi32 T
  let bottom := (Tl + 2 ^ 32 - W + 1) % 2 ^ 32
  if W - 1 ≤ Tl then
    if bottom ≤ seqLo then Th else (Th + 1) % 2 ^ 32
  else
    if bottom ≤ seqLo then (Th + 2 ^ 32 - 1) % 2 ^ 32 else Th

/-- `check_seq_no`: -1 for a replay, else the high word. -/
def checkSeqNo (seqLo T : Nat) (window : SeqWindow) (W : Nat) : Int :=
  let seqHi := inferHigh seqLo T W
  let seq := mk64 seqLo seqHi
  if seq ≤ T ∧ getBit seq window W then -1 else seqHi

/-- `track_seq_no`: the new `T` and the new window. -/
def trackSeqNo (seqHi seqLo T : Nat) (window : SeqWindow) (W : Nat) : Nat × SeqWindow :=
  let seq := mk64 seqLo seqHi
  if T < seq then (seq, setBit true seq (advanceWindow seq T window W) W)
  else (T, setBit true seq window W)

/-- What `decrypt:new` is configured with; `window_size` is a multiple of 8 there. -/
structure ReceiverConf where
  windowSize : Nat
  resyncThreshold : Nat
  resyncAttempts : Nat
deriving DecidableEq, Repr

/-- The state of a receiver, as far as it is about sequence numbers, and the numbers it has
accepted. -/
structure Receiver where
  seqNo : Nat
  window : SeqWindow
  decapFail : Nat
  accepted : List Nat

/-- A packet as it is received: the low word of its number, and the high words under which
the cipher finds it authentic. No sender has come to the numbers from `2 ^ 64 - 2 ^ 32` on. -/
structure SeqInput where
  low : Nat
  authentic : Nat → Bool
  low_lt : low < 2 ^ 32
  below : authentic (2 ^ 32 - 1) = false

/-- The packet that a sender makes with number `n`: it is authentic under the high word of `n`
only. -/
def SeqInput.ofNumber (n : Nat) (hn : n < 2 ^ 64 - 2 ^ 32) : SeqInput where
  low := lo32 n
  authentic high := high == hi32 n
  low_lt := Nat.mod_lt n (by decide)
  below := by
    rw [beq_eq_false_iff_ne, hi32]
    omega

namespace Receiver

/-- A receiver with a cleared window. -/
def new : Receiver where
  seqNo := 0
  window := fun _ => 0
  decapFail := 0
  accepted := []

/-- The loop of `decrypt:resync`. The cipher and `track_seq_no` take the high word as a
`uint32_t`. -/
def resyncLoop (authentic : Nat → Bool) : Nat → Nat → Option Nat
  | 0, _ => none
  | n + 1, seqHigh =>
    if authentic ((seqHigh + 1) % 2 ^ 32) then some ((seqHigh + 1) % 2 ^ 32)
    else resyncLoop authentic n (seqHigh + 1)

/-- `decrypt:resync`; a packet that looked replayed starts from the last high word seen. -/
def resync (conf : ReceiverConf) (r : Receiver) (authentic : Nat → Bool) (seqHigh : Int) : Option Nat :=
  resyncLoop authentic conf.resyncAttempts (if seqHigh < 0 then hi32 r.seqNo else seqHigh.toNat)

/-- The end of `decrypt:decrypt_payload` for a packet that is accepted. -/
def track (conf : ReceiverConf) (r : Receiver) (seqHigh low : Nat) : Receiver :=
  let tracked := trackSeqNo seqHigh low r.seqNo r.window conf.windowSize
  { r with
    decapFail := 0
    seqNo := tracked.1
    window := tracked.2
    accepted := r.accepted ++ [mk64 low seqHigh] }

/-- The high word under which `decrypt:decrypt_payload` accepts a packet, if it does. -/
def acceptHigh (conf : ReceiverConf) (r : Receiver) (low : Nat) (authentic : Nat → Bool) : Option Nat :=
  let seqHigh := checkSeqNo low r.seqNo r.window conf.windowSize
  if 0 ≤ seqHigh ∧ authentic seqHigh.toNat then some seqHigh.toNat
  -- the failure is counted before it is compared with the threshold
  else if conf.resyncThreshold < r.decapFail + 1 then r.resync conf authentic seqHigh
  else none

/-- The receiver after `decrypt:decrypt_payload`. -/
def settle (conf : ReceiverConf) (r : Receiver) (low : Nat) : Option Nat → Receiver
  | some seqHigh => r.track conf seqHigh low
  | none => { r with decapFail := r.decapFail + 1 }

/-- A packet is received. -/
def receive (conf : ReceiverConf) (r : Receiver) (inp : SeqInput) : Receiver :=
  r.settle conf inp.low (r.acceptHigh conf inp.low inp.authentic)

def receiveAll (conf : ReceiverConf) (r : Receiver) (inputs : List SeqInput) : Receiver := inputs.foldl (receive conf) r

/-- The high words that `resync` would try for the next packet are below `2 ^ 32`, or it would
not try any. -/
def RoomForResync (conf : ReceiverConf) (r : Receiver) : Prop :=
  r.decapFail < conf.resyncThreshold ∨ hi32 r.seqNo + 1 + conf.resyncAttempts < 2 ^ 32

instance (conf : ReceiverConf) (r : Receiver) : Decidable (r.RoomForResync conf) := inferInstanceAs (Decidable (_ ∨ _))

/-- Every packet of a sequence is received while there is room for the high words. -/
def RoomAlong (conf : ReceiverConf) : Receiver → List SeqInput → Prop
  | _, [] => True
  | r, inp :: inputs => r.RoomForResync conf ∧ RoomAlong conf (r.receive conf inp) inputs

instance RoomAlong.decidable (conf : ReceiverConf) :
    ∀ (r : Receiver) (inputs : List SeqInput), Decidable (RoomAlong conf r inputs)
  | _, [] => isTrue trivial
  | r, inp :: inputs =>
    have := RoomAlong.decidable conf (r.receive conf inp) inputs
    inferInstanceAs (Decidable (_ ∧ _))

end Receiver

/-! ## The bits of the window -/

theorem getLsbD_bit {i j : Nat} (hi : i < 8) : (1#8 <<< i).getLsbD j = decide (i = j) := by
  rw [← BitVec.twoPow_eq, BitVec.getLsbD_twoPow, decide_eq_true hi, Bool.true_and]

theorem and_bit_ne_zero (x : BitVec 8) {j : Nat} (hj : j < 8) :
    x &&& (1#8 <<< j) ≠ 0#8 ↔ x.getLsbD j = true := by
  rw [← BitVec.twoPow_eq, BitVec.and_twoPow]
  cases h : x.getLsbD j with
  | false => simp
  | true =>
    refine ⟨fun _ => rfl, fun _ heq => ?_⟩
    have hbit := congrArg (BitVec.getLsbD · j) heq
    simp [hj] at hbit

/-- A bit is cleared and then set to `on`, the other bits of the byte stay. -/
theorem getLsbD_replace (x : BitVec 8) (on : Bool) {i j : Nat} (hi : i < 8) (hj : j < 8) :
    ((x &&& ~~~(1#8 <<< i)) ||| ((if on then 1#8 else 0#8) <<< i)).getLsbD j =
      if i = j then on else x.getLsbD j := by
  rw [BitVec.getLsbD_or, BitVec.getLsbD_and, BitVec.getLsbD_not, getLsbD_bit hi, decide_eq_true hj]
  cases on with
  | false => by_cases hij : i = j <;> simp [hij]
  | true =>
    rw [if_pos rfl, getLsbD_bit hi]
    by_cases hij : i = j <;> simp [hij]

theorem getBit_eq (seq : Nat) (window : SeqWindow) (W : Nat) :
    getBit seq window W = (window (seq % W / 8)).getLsbD (seq % W % 8) := by
  have hiff := and_bit_ne_zero (window (seq % W / 8)) (Nat.mod_lt (seq % W) (by decide))
  rw [getBit, Bool.eq_iff_iff, decide_eq_true_iff]
  exact hiff

/-- The window is a ring: a bit is the one that was set last for its remainder. -/
theorem getBit_setBit (on : Bool) (m n : Nat) (window : SeqWindow) (W : Nat) :
    getBit n (setBit on m window W) W = if m % W = n % W then on else getBit n window W := by
  have hlt : ∀ k, k % 8 < 8 := fun k => Nat.mod_lt k (by decide)
  rw [getBit_eq, getBit_eq]
  unfold setBit
  by_cases hblock : n % W / 8 = m % W / 8
  · rw [hblock, Function.update_self, getLsbD_replace _ _ (hlt _) (hlt _)]
    by_cases hbit : m % W % 8 = n % W % 8
    · rw [if_pos hbit, if_pos (by omega)]
    · rw [if_neg hbit, if_neg (by omega)]
  · rw [Function.update_of_ne hblock, if_neg (by omega)]

/-- The loop clears the bits of the last `diff` numbers up to `seq`. -/
theorem getBit_clearBits {diff seq : Nat} (hle : diff ≤ seq) (n : Nat) (window : SeqWindow)
    (W : Nat) : getBit n (clearBits W diff seq window) W = true ↔
      getBit n window W = true ∧ ∀ m, seq < m + diff → m ≤ seq → m % W ≠ n % W := by
  induction diff generalizing seq window with
  | zero =>
    refine ⟨fun h => ⟨h, fun m hlt hle' => ?_⟩, And.left⟩
    omega
  | succ diff ih =>
    rw [clearBits, ih (by omega), getBit_setBit]
    constructor
    · rintro ⟨hbit, hrest⟩
      have hne : seq % W ≠ n % W := by
        intro heq
        rw [if_pos heq] at hbit
        cases hbit
      rw [if_neg hne] at hbit
      refine ⟨hbit, fun m hlt hle' => ?_⟩
      rcases Nat.lt_or_eq_of_le hle' with hm | rfl
      · exact hrest m (by omega) (by omega)
      · exact hne
    · rintro ⟨hbit, hall⟩
      rw [if_neg (hall seq (by omega) (Nat.le_refl _))]
      exact ⟨hbit, fun m hlt hle' => hall m (by omega) (by omega)⟩

/-! ## The inferred number -/

variable {T W low n : Nat}

/-- The four cases of `check_seq_no`, with the comparisons of `uint32_t` carried out. -/
theorem inferHigh_cases (hW : 0 < W) (hW' : W < 2 ^ 31) (low T : Nat) :
    (W - 1 ≤ lo32 T ∧ lo32 T < low + W ∧ inferHigh low T W = hi32 T) ∨
    (W - 1 ≤ lo32 T ∧ low + W ≤ lo32 T ∧ inferHigh low T W = (hi32 T + 1) % 2 ^ 32) ∨
    (lo32 T < W - 1 ∧ lo32 T + 2 ^ 32 < low + W ∧
      inferHigh low T W = (hi32 T + 2 ^ 32 - 1) % 2 ^ 32) ∨
    (lo32 T < W - 1 ∧ low + W ≤ lo32 T + 2 ^ 32 ∧ inferHigh low T W = hi32 T) := by
  have hlo : lo32 T < 2 ^ 32 := Nat.mod_lt T (by decide)
  generalize hTl : lo32 T = Tl at hlo
  have hbottom : (Tl + 2 ^ 32 - W + 1) % 2 ^ 32 =
      if W - 1 ≤ Tl then Tl + 1 - W else Tl + 2 ^ 32 + 1 - W := by
    split <;> omega
  rw [inferHigh, hTl, hbottom]
  by_cases hcase : W - 1 ≤ Tl
  · rw [if_pos hcase, if_pos hcase]
    by_cases hle : Tl + 1 - W ≤ low
    · rw [if_pos hle]
      exact .inl ⟨hcase, by omega, rfl⟩
    · rw [if_neg hle]
      exact .inr (.inl ⟨hcase, by omega, rfl⟩)
  · rw [if_neg hcase, if_neg hcase]
    by_cases hle : Tl + 2 ^ 32 + 1 - W ≤ low
    · rw [if_pos hle]
      exact .inr (.inr (.inl ⟨by omega, by omega, rfl⟩))
    · rw [if_neg hle]
      exact .inr (.inr (.inr ⟨by omega, by omega, rfl⟩))

/-- **The inferred number** is the one with the low word in `(T - W, T + 2 ^ 32 - W]`; at the
start, where this interval reaches below 0, it may have the last high word of all. -/
theorem inferHigh_spec (hW : 0 < W) (hW' : W < 2 ^ 31) (hT : T < 2 ^ 64 - 2 ^ 32)
    (hlow : low < 2 ^ 32) :
    (inferHigh low T W = 2 ^ 32 - 1 ∧ hi32 T = 0 ∧ lo32 T < low) ∨
      (T < mk64 low (inferHigh low T W) + W ∧ mk64 low (inferHigh low T W) + W ≤ T + 2 ^ 32 ∧
        inferHigh low T W ≤ hi32 T + 1) := by
  have hcases := inferHigh_cases hW hW' low T
  simp only [mk64, hi32, lo32] at hcases ⊢
  omega

theorem inferHigh_eq (hW : 0 < W) (hW' : W < 2 ^ 31) (hn : n < 2 ^ 64 - 2 ^ 32)
    (hT : T < 2 ^ 64 - 2 ^ 32) (hlt : T < n + W) (hle : n + W ≤ T + 2 ^ 32) :
    inferHigh (lo32 n) T W = hi32 n := by
  have hcases := inferHigh_cases hW hW' (lo32 n) T
  simp only [hi32, lo32] at hcases ⊢
  omega

theorem mk64_lo32_hi32 (n : Nat) : mk64 (lo32 n) (hi32 n) = n := by
  unfold mk64 lo32 hi32
  omega

theorem lt_mk64_add {high i : Nat} (h : T < mk64 low high + W) (hW : W < 2 ^ 31) (hi : 0 < i) :
    T < mk64 low (high + i) := by
  simp only [mk64, Nat.add_mul] at h ⊢
  omega

/-! ## The invariant -/

namespace Receiver

/-- `T` is the largest number accepted, no number was accepted twice, and the window shows
which of the last `W` numbers were accepted. -/
structure Tracks (conf : ReceiverConf) (r : Receiver) : Prop where
  largest : r.seqNo = r.accepted.foldr max 0
  nodup : r.accepted.Nodup
  window_iff : ∀ n, n ≤ r.seqNo → r.seqNo < n + conf.windowSize →
    (getBit n r.window conf.windowSize = true ↔ n ∈ r.accepted)
  below : r.seqNo < 2 ^ 64 - 2 ^ 32

variable {conf : ReceiverConf} {r : Receiver}

theorem tracks_new (conf : ReceiverConf) : Tracks conf new where
  largest := rfl
  nodup := nodup_nil
  window_iff := by
    intro n _ _
    rw [getBit_eq]
    simp [new]
  below := by
    decide

theorem Tracks.le_seqNo (h : Tracks conf r) (hn : n ∈ r.accepted) : n ≤ r.seqNo := by
  rw [h.largest]
  generalize r.accepted = xs at hn
  induction xs with
  | nil => cases hn
  | cons x xs ih =>
    rcases mem_cons.mp hn with rfl | htail
    · exact Nat.le_max_left _ _
    · exact (ih htail).trans (Nat.le_max_right _ _)

theorem foldr_max_snoc (xs : List Nat) (n : Nat) :
    (xs ++ [n]).foldr max 0 = max (xs.foldr max 0) n := by
  induction xs with
  | nil => simp
  | cons x xs ih => rw [cons_append, foldr_cons, ih, foldr_cons, max_assoc]

/-- Two numbers that are less than `W` apart have different bits. -/
theorem mod_ne_mod {m n W : Nat} (hne : m ≠ n) (hm : m < n + W) (hn : n < m + W) :
    m % W ≠ n % W := by
  intro heq
  rcases Nat.lt_or_gt_of_ne hne with hlt | hlt
  · exact hne.symm (Ring.eq_of_mod_eq heq.symm hlt.le hn)
  · exact hne (Ring.eq_of_mod_eq heq hlt.le hm)

variable {high k start i : Nat} {authentic : Nat → Bool} {inp : SeqInput} {inputs : List SeqInput}
  {low : Nat}

/-- **Tracking** a number that is new, and in the window or ahead of it, keeps the invariant. -/
theorem Tracks.track (h : Tracks conf r) (hnew : mk64 low high ∉ r.accepted)
    (hlt : r.seqNo < mk64 low high + conf.windowSize) (hbelow : mk64 low high < 2 ^ 64 - 2 ^ 32) :
    Tracks conf (r.track conf high low) ∧ r.seqNo ≤ (r.track conf high low).seqNo := by
  generalize hs : mk64 low high = s at hnew hlt hbelow
  have hnodup : (r.accepted ++ [s]).Nodup :=
    nodup_append.mpr ⟨h.nodup, pairwise_singleton _ s, fun a ha b hb heq => by
      rw [mem_singleton.mp hb] at heq
      exact hnew (heq ▸ ha)⟩
  have hmem : ∀ n, n ∈ r.accepted ++ [s] ↔ n ∈ r.accepted ∨ n = s := by simp
  by_cases hahead : r.seqNo < s
  · have htrack : r.track conf high low = { r with
        decapFail := 0
        seqNo := s
        window := setBit true s (advanceWindow s r.seqNo r.window conf.windowSize) conf.windowSize
        accepted := r.accepted ++ [s] } := by
      simp only [Receiver.track, trackSeqNo, hs, if_pos hahead]
    rw [htrack]
    refine ⟨{ largest := ?_, nodup := hnodup, window_iff := ?_, below := hbelow }, hahead.le⟩
    · show s = (r.accepted ++ [s]).foldr max 0
      rw [foldr_max_snoc, ← h.largest, max_eq_right hahead.le]
    · intro n hn hin
      replace hin : s < n + conf.windowSize := hin
      rw [hmem, getBit_setBit]
      rcases Nat.lt_or_eq_of_le hn with hold | rfl
      · rw [if_neg (mod_ne_mod hold.ne' (by omega) (by omega)), advanceWindow,
          getBit_clearBits (by split <;> omega)]
        by_cases hseen : n ≤ r.seqNo
        · -- inside the old window: no number that is cleared has the same bit
          rw [h.window_iff n hseen (by omega)]
          refine ⟨fun hbit => .inl hbit.1, fun hbit => ⟨hbit.resolve_right hold.ne, ?_⟩⟩
          intro m hm hms
          refine mod_ne_mod ?_ ?_ ?_ <;> · split at hm <;> omega
        · -- new in the window: its bit is cleared
          refine ⟨fun hbit => absurd rfl (hbit.2 n ?_ hn), fun hbit => ?_⟩
          · split <;> omega
          · exact absurd (h.le_seqNo (hbit.resolve_right hold.ne)) hseen
      · simp
  · have htrack : r.track conf high low = { r with
        decapFail := 0
        window := setBit true s r.window conf.windowSize
        accepted := r.accepted ++ [s] } := by
      simp only [Receiver.track, trackSeqNo, hs, if_neg hahead]
    rw [htrack]
    refine ⟨{ largest := ?_, nodup := hnodup, window_iff := ?_, below := h.below }, Nat.le_refl _⟩
    · show r.seqNo = (r.accepted ++ [s]).foldr max 0
      rw [foldr_max_snoc, ← h.largest, max_eq_left (Nat.le_of_not_lt hahead)]
    · intro n hn hin
      replace hn : n ≤ r.seqNo := hn
      replace hin : r.seqNo < n + conf.windowSize := hin
      rw [getBit_setBit]
      by_cases heq : n = s
      · subst heq
        simp
      · rw [if_neg (mod_ne_mod (Ne.symm heq) (by omega) (by omega)), h.window_iff n hn hin]
        simp [heq]

/-! ## One packet -/

/-- What `resync` returns is one of the high words it tries. -/
theorem resyncLoop_eq_some (h : resyncLoop authentic k start = some high) :
    authentic high = true ∧ ∃ i, 0 < i ∧ i ≤ k ∧ high = (start + i) % 2 ^ 32 := by
  induction k generalizing start with
  | zero => cases h
  | succ k ih =>
    rw [resyncLoop] at h
    split at h
    · next hauth =>
      cases h
      exact ⟨hauth, 1, Nat.one_pos, by omega, rfl⟩
    · obtain ⟨hauth, i, hpos, hle, heq⟩ := ih h
      exact ⟨hauth, i + 1, Nat.succ_pos i, by omega, by rw [heq]; congr 1; omega⟩

theorem checkSeqNo_cases (low T : Nat) (window : SeqWindow) (W : Nat) :
    (checkSeqNo low T window W = -1 ∧ mk64 low (inferHigh low T W) ≤ T ∧
        getBit (mk64 low (inferHigh low T W)) window W = true) ∨
      (checkSeqNo low T window W = (inferHigh low T W : Int) ∧
        (mk64 low (inferHigh low T W) ≤ T →
          getBit (mk64 low (inferHigh low T W)) window W = false)) := by
  by_cases hseen : mk64 low (inferHigh low T W) ≤ T ∧
      getBit (mk64 low (inferHigh low T W)) window W = true
  · exact .inl ⟨if_pos hseen, hseen⟩
  · exact .inr ⟨if_neg hseen, fun hle => by simpa [hle] using hseen⟩

/-- A high word that `resync` finds gives a number that is ahead of all others. -/
theorem resync_ahead (h : Tracks conf r) (hW : 0 < conf.windowSize) (hW' : conf.windowSize < 2 ^ 31)
    (hroom : hi32 r.seqNo + 1 + conf.resyncAttempts < 2 ^ 32) (hlow : low < 2 ^ 32)
    (heq : r.resync conf authentic (checkSeqNo low r.seqNo r.window conf.windowSize) = some high) :
    authentic high = true ∧ high < 2 ^ 32 ∧ r.seqNo < mk64 low high := by
  obtain ⟨hauth, i, hpos, hle, rfl⟩ := resyncLoop_eq_some heq
  have hinfer := inferHigh_spec hW hW' h.below hlow
  refine ⟨hauth, Nat.mod_lt _ (by decide), ?_⟩
  rcases checkSeqNo_cases low r.seqNo r.window conf.windowSize with ⟨hc, -, -⟩ | ⟨hc, -⟩
  · rw [hc, if_pos (by decide), Nat.mod_eq_of_lt (by omega)]
    simp only [mk64, hi32]
    omega
  · rw [hc, if_neg (by omega)]
    generalize inferHigh low r.seqNo conf.windowSize = high at hinfer
    rcases hinfer with ⟨rfl, hzero, hgt⟩ | ⟨hin, -, hhigh⟩
    · have hwrap : (2 ^ 32 - 1 + i) % 2 ^ 32 = i - 1 := by omega
      simp only [mk64, hi32, lo32] at hzero hgt ⊢
      omega
    · rw [Nat.mod_eq_of_lt (by omega)]
      exact lt_mk64_add hin hW' hpos

/-- A high word under which a packet may be accepted. -/
structure Acceptable (conf : ReceiverConf) (r : Receiver) (inp : SeqInput) (high : Nat) : Prop where
  authentic : inp.authentic high = true
  new : mk64 inp.low high ∉ r.accepted
  window : r.seqNo < mk64 inp.low high + conf.windowSize
  below : mk64 inp.low high < 2 ^ 64 - 2 ^ 32

theorem below_of_authentic (hauth : inp.authentic high = true)
    (hlt : high < 2 ^ 32) : mk64 inp.low high < 2 ^ 64 - 2 ^ 32 := by
  have hne : high ≠ 2 ^ 32 - 1 := by
    rintro rfl
    rw [inp.below] at hauth
    cases hauth
  have hlow := inp.low_lt
  simp only [mk64]
  omega

section

variable (h : Tracks conf r) (hW : 0 < conf.windowSize) (hW' : conf.windowSize < 2 ^ 31)
include h hW hW'

/-- The inferred high word is acceptable if it is authentic and was not seen. -/
theorem acceptable_inferHigh
    (hauth : inp.authentic (inferHigh inp.low r.seqNo conf.windowSize) = true)
    (hunseen : mk64 inp.low (inferHigh inp.low r.seqNo conf.windowSize) ≤ r.seqNo →
      getBit (mk64 inp.low (inferHigh inp.low r.seqNo conf.windowSize)) r.window conf.windowSize = false) :
    Acceptable conf r inp (inferHigh inp.low r.seqNo conf.windowSize) := by
  have hbelow := h.below
  rcases inferHigh_spec hW hW' hbelow inp.low_lt with ⟨hlast, -, -⟩ | ⟨hin, -, hhigh⟩
  · rw [hlast, inp.below] at hauth
    cases hauth
  · refine ⟨hauth, fun hmem => ?_, hin, below_of_authentic hauth ?_⟩
    · have hle := h.le_seqNo hmem
      have hseen := (h.window_iff _ hle hin).mpr hmem
      rw [hunseen hle] at hseen
      cases hseen
    · refine Nat.lt_of_le_of_lt hhigh ?_
      simp only [hi32]
      omega

/-- **A packet is accepted** under an acceptable high word only. -/
theorem acceptHigh_acceptable (hroom : r.RoomForResync conf)
    (heq : r.acceptHigh conf inp.low inp.authentic = some high) : Acceptable conf r inp high := by
  rw [acceptHigh] at heq
  by_cases hfirst : 0 ≤ checkSeqNo inp.low r.seqNo r.window conf.windowSize ∧
      inp.authentic (checkSeqNo inp.low r.seqNo r.window conf.windowSize).toNat
  · rw [if_pos hfirst] at heq
    rcases checkSeqNo_cases inp.low r.seqNo r.window conf.windowSize with ⟨hc, -, -⟩ | ⟨hc, hunseen⟩
    · rw [hc] at hfirst
      exact absurd hfirst.1 (by decide)
    · rw [hc] at hfirst heq
      cases heq
      exact acceptable_inferHigh h hW hW' hfirst.2 hunseen
  · rw [if_neg hfirst] at heq
    obtain ⟨htry, heq⟩ := Option.ite_none_right_eq_some.mp heq
    have hroom : hi32 r.seqNo + 1 + conf.resyncAttempts < 2 ^ 32 :=
      hroom.resolve_left (Nat.not_lt.mpr (Nat.le_of_lt_succ htry))
    obtain ⟨hauth, hlt, hahead⟩ := resync_ahead h hW hW' hroom inp.low_lt heq
    refine ⟨hauth, fun hmem => ?_, Nat.lt_add_right _ hahead, below_of_authentic hauth hlt⟩
    exact absurd (h.le_seqNo hmem) (Nat.not_le.mpr hahead)

/-- **A packet keeps the invariant**, whatever becomes of it. -/
theorem Tracks.receive (hroom : r.RoomForResync conf) (inp : SeqInput) :
    Tracks conf (r.receive conf inp) ∧ r.seqNo ≤ (r.receive conf inp).seqNo := by
  rw [Receiver.receive]
  cases heq : r.acceptHigh conf inp.low inp.authentic with
  | none => exact ⟨{ h with }, Nat.le_refl _⟩
  | some high =>
    have hacc := acceptHigh_acceptable h hW hW' hroom heq
    exact h.track hacc.new hacc.window hacc.below

/-- **A run keeps the invariant**, and `T` does not decrease. -/
theorem Tracks.receiveAll (hroom : RoomAlong conf r inputs) :
    Tracks conf (r.receiveAll conf inputs) ∧ r.seqNo ≤ (r.receiveAll conf inputs).seqNo := by
  induction inputs generalizing r with
  | nil => exact ⟨h, Nat.le_refl _⟩
  | cons inp inputs ih =>
    obtain ⟨hnext, hle⟩ := h.receive hW hW' hroom.1 inp
    obtain ⟨hlast, hle'⟩ := ih hnext hroom.2
    exact ⟨hlast, hle.trans hle'⟩

end

theorem roomAlong_append {more : List SeqInput} (h : RoomAlong conf r (inputs ++ more)) :
    RoomAlong conf r inputs ∧ RoomAlong conf (r.receiveAll conf inputs) more := by
  induction inputs generalizing r with
  | nil => exact ⟨trivial, h⟩
  | cons inp inputs ih =>
    obtain ⟨hinputs, hmore⟩ := ih h.2
    exact ⟨⟨h.1, hinputs⟩, hmore⟩

section

variable (h : Tracks conf r) (hW : 0 < conf.windowSize) (hW' : conf.windowSize < 2 ^ 31)
  (hn : n < 2 ^ 64 - 2 ^ 32) (hlt : r.seqNo < n + conf.windowSize)
  (hle : n + conf.windowSize ≤ r.seqNo + 2 ^ 32) (hnew : n ∉ r.accepted)
include h hW hW' hn hlt hle hnew

/-- The high word of a number that is new and in reach is inferred, and not taken for a replay. -/
theorem Tracks.checkSeqNo_eq :
    checkSeqNo (lo32 n) r.seqNo r.window conf.windowSize = (hi32 n : Int) := by
  rw [checkSeqNo, inferHigh_eq hW hW' hn h.below hlt hle, mk64_lo32_hi32, if_neg]
  rintro ⟨hseen, hbit⟩
  exact hnew ((h.window_iff n hseen hlt).mp hbit)

theorem Tracks.accepts (hauth : authentic (hi32 n) = true) :
    r.acceptHigh conf (lo32 n) authentic = some (hi32 n) := by
  rw [acceptHigh, h.checkSeqNo_eq hW hW' hn hlt hle hnew,
    if_pos ⟨Int.natCast_nonneg _, by simpa using hauth⟩, Int.toNat_natCast]

end

theorem Tracks.seqNo_mem (h : Tracks conf r) : r.seqNo ∈ r.accepted ∨ r.seqNo = 0 ∧ r.accepted = [] := by
  rw [h.largest]
  generalize r.accepted = xs
  induction xs with
  | nil => exact .inr ⟨rfl, rfl⟩
  | cons x xs ih =>
    left
    rw [foldr_cons, mem_cons]
    rcases Nat.le_total (xs.foldr max 0) x with hle | hle
    · exact .inl (max_eq_left hle)
    · rw [max_eq_right hle]
      rcases ih with hmem | ⟨hzero, -⟩
      · exact .inr hmem
      · left
        omega

/-- **Anti-replay.** A receiver with a window of `W` bits receives packets; the high words that `resync` tries stay below `2 ^ 32`. Then

- no sequence number is accepted twice;
- `T` is the largest number accepted (0 before the first one) and never decreases;
- a packet that is authentic under its number `n`, in `(T - W, T + 2 ^ 32 - W]`, is accepted
  as number `n`, if `n` was not accepted before. -/
theorem anti_replay (conf : ReceiverConf) (hW : 0 < conf.windowSize)
    (hW' : conf.windowSize < 2 ^ 31) (inputs more : List SeqInput)
    (hroom : RoomAlong conf new (inputs ++ more)) : let r := new.receiveAll conf inputs
    r.accepted.Nodup ∧ (∀ n ∈ r.accepted, n ≤ r.seqNo) ∧
      (r.seqNo ∈ r.accepted ∨ r.seqNo = 0 ∧ r.accepted = []) ∧
      r.seqNo ≤ (r.receiveAll conf more).seqNo ∧
      ∀ inp : SeqInput, ∀ n, lo32 n = inp.low → inp.authentic (hi32 n) = true →
        n < 2 ^ 64 - 2 ^ 32 → r.seqNo < n + conf.windowSize →
        n + conf.windowSize ≤ r.seqNo + 2 ^ 32 → n ∉ r.accepted →
          (r.receive conf inp).accepted = r.accepted ++ [n] := by
  intro r
  obtain ⟨hroom, hroom'⟩ := roomAlong_append hroom
  obtain ⟨h, -⟩ := (tracks_new conf).receiveAll hW hW' hroom
  obtain ⟨-, hle⟩ := h.receiveAll hW hW' hroom'
  refine ⟨h.nodup, fun n => h.le_seqNo, h.seqNo_mem, hle, ?_⟩
  intro inp n hlow hauth hn hlt hle' hnew
  have haccept : r.acceptHigh conf inp.low inp.authentic = some (hi32 n) := by
    rw [← hlow]
    exact h.accepts hW hW' hn hlt hle' hnew hauth
  rw [receive, haccept]
  show r.accepted ++ [mk64 inp.low (hi32 n)] = r.accepted ++ [n]
  rw [← hlow, mk64_lo32_hi32]

/-- Numbers around the wrap-around of the low word: packet `2 ^ 32 + 1` overtakes `2 ^ 32 - 1`,
which is accepted late, but not twice. -/
theorem anti_replay_wrapping :
    ∃ r, new.receiveAll ⟨128, 1024, 8⟩ [.ofNumber (2 ^ 32 - 200) (by decide),
        .ofNumber (2 ^ 32 + 1) (by decide), .ofNumber (2 ^ 32 + 1) (by decide)] = r ∧
      r.accepted = [2 ^ 32 - 200, 2 ^ 32 + 1] ∧ r.accepted.Nodup ∧
      (r.receive ⟨128, 1024, 8⟩ (.ofNumber (2 ^ 32 - 1) (by decide))).accepted =
        [2 ^ 32 - 200, 2 ^ 32 + 1, 2 ^ 32 - 1] := by
  have h := anti_replay ⟨128, 1024, 8⟩ (by decide) (by decide)
    [.ofNumber (2 ^ 32 - 200) (by decide), .ofNumber (2 ^ 32 + 1) (by decide),
      .ofNumber (2 ^ 32 + 1) (by decide)] [] (by decide +kernel)
  refine ⟨_, rfl, ?_⟩
  generalize hr : new.receiveAll ⟨128, 1024, 8⟩ [.ofNumber (2 ^ 32 - 200) (by decide),
    .ofNumber (2 ^ 32 + 1) (by decide), .ofNumber (2 ^ 32 + 1) (by decide)] = r at h
  have haccepted : r.accepted = [2 ^ 32 - 200, 2 ^ 32 + 1] := by
    rw [← hr]
    decide +kernel
  have hseqNo : r.seqNo = 2 ^ 32 + 1 := by
    rw [← hr]
    decide +kernel
  obtain ⟨hnodup, -, -, -, hnext⟩ := h
  have hlate := hnext (.ofNumber (2 ^ 32 - 1) (by decide)) (2 ^ 32 - 1) rfl (by decide) (by decide)
    (hseqNo ▸ by decide) (hseqNo ▸ by decide) (haccepted ▸ by decide)
  refine ⟨haccepted, hnodup, hlate.trans ?_⟩
  rw [haccepted]
  rfl

/-! ## The wrap-around of the high word -/

/-- `resync` returns the first high word under which the packet is authentic. -/
theorem resyncLoop_eq (hpos : 0 < i) (hle : i ≤ k) (hauth : authentic ((start + i) % 2 ^ 32) = true)
    (hfirst : ∀ j, 0 < j → j < i → authentic ((start + j) % 2 ^ 32) = false) :
    resyncLoop authentic k start = some ((start + i) % 2 ^ 32) := by
  induction k generalizing start i with
  | zero => omega
  | succ k ih =>
    rw [resyncLoop]
    by_cases hone : i = 1
    · subst hone
      rw [if_pos hauth]
    · have hnot := hfirst 1 Nat.one_pos (by omega)
      rw [if_neg (by rw [hnot]; exact Bool.false_ne_true)]
      obtain ⟨i, rfl⟩ : ∃ i', i = i' + 1 := ⟨i - 1, by omega⟩
      have hshift : ∀ j, start + 1 + j = start + (j + 1) := by omega
      rw [← hshift i] at hauth ⊢
      exact ih (by omega) (by omega) hauth fun j hj hlt => by
        rw [hshift j]
        exact hfirst (j + 1) (by omega) (by omega)

variable {conf : ReceiverConf} {r : Receiver}

/-- A packet that fails under the inferred high word is accepted under the first authentic one
that `resync` tries. -/
theorem acceptHigh_resync (authentic : Nat → Bool)
    (hcheck : checkSeqNo low r.seqNo r.window conf.windowSize = (high : Int))
    (hfail : authentic high = false) (htry : conf.resyncThreshold = 0) (hpos : 0 < i)
    (hle : i ≤ conf.resyncAttempts) (hauth : authentic ((high + i) % 2 ^ 32) = true)
    (hfirst : ∀ j, 0 < j → j < i → authentic ((high + j) % 2 ^ 32) = false) :
    r.acceptHigh conf low authentic = some ((high + i) % 2 ^ 32) := by
  rw [acceptHigh, hcheck, if_neg, if_pos (by omega)]
  · exact resyncLoop_eq hpos hle hauth hfirst
  · rw [Int.toNat_natCast, hfail]
    exact fun h => Bool.false_ne_true h.2

theorem receive_eq_track (h : r.acceptHigh conf inp.low inp.authentic = some high) :
    r.receive conf inp = r.track conf high inp.low := by
  rw [receive, h, settle]

theorem accepted_track (conf : ReceiverConf) (r : Receiver) (high low : Nat) :
    (r.track conf high low).accepted = r.accepted ++ [mk64 low high] := rfl

/-- **The wrap-around is not detected.** With enough attempts, number 5 is accepted, then
number `2 ^ 64 - 2 ^ 33 + 1` after a resynchronization, and then number 5 again: `resync` tries
the high word `2 ^ 32`, which is 0 as a `uint32_t`. -/
theorem resync_wraps :
    (new.receiveAll ⟨8, 0, 2 ^ 32⟩ [.ofNumber 5 (by decide),
      .ofNumber (2 ^ 64 - 2 ^ 33 + 1) (by decide), .ofNumber 5 (by decide)]).accepted =
      [5, 2 ^ 64 - 2 ^ 33 + 1, 5] := by
  generalize hfive : SeqInput.ofNumber 5 (by decide) = five
  generalize hfar : SeqInput.ofNumber (2 ^ 64 - 2 ^ 33 + 1) (by decide) = far
  generalize hconf : (⟨8, 0, 2 ^ 32⟩ : ReceiverConf) = conf
  have hfirst : new.acceptHigh conf five.low five.authentic = some 0 := by
    subst hconf hfive
    decide +kernel
  have hcheck₁ : checkSeqNo far.low (new.track conf 0 five.low).seqNo
      (new.track conf 0 five.low).window conf.windowSize = (0 : Nat) := by
    subst hconf hfive hfar
    decide +kernel
  have hcheck₂ : checkSeqNo five.low ((new.track conf 0 five.low).track conf (2 ^ 32 - 2)
      far.low).seqNo ((new.track conf 0 five.low).track conf (2 ^ 32 - 2) far.low).window
      conf.windowSize = (2 ^ 32 - 2 : Nat) := by
    subst hconf hfive hfar
    decide +kernel
  have hlow : five.low = 5 ∧ far.low = 1 := by
    subst hfive hfar
    decide
  have hfive' : ∀ high, five.authentic high = (high == 0) := by
    subst hfive
    exact fun _ => rfl
  have hfar' : ∀ high, far.authentic high = (high == 2 ^ 32 - 2) := by
    subst hfar
    exact fun _ => rfl
  have hsecond := acceptHigh_resync far.authentic (i := 2 ^ 32 - 2) hcheck₁
    (by rw [hfar']; rfl) (by rw [← hconf]) (by decide) (by rw [← hconf]; decide)
    (by rw [hfar']; decide) fun j hj hlt => by
      rw [hfar', Nat.zero_add, Nat.mod_eq_of_lt (by omega), beq_eq_false_iff_ne]
      exact hlt.ne
  rw [Nat.zero_add, Nat.mod_eq_of_lt (by decide)] at hsecond
  have hthird := acceptHigh_resync five.authentic (i := 2) hcheck₂
    (by rw [hfive']; rfl) (by rw [← hconf]) (by decide) (by rw [← hconf]; decide)
    (by rw [hfive']; decide) fun j hj hlt => by
      obtain rfl : j = 1 := by omega
      rw [hfive']
      decide
  rw [receiveAll, foldl_cons, foldl_cons, foldl_cons, foldl_nil,
    receive_eq_track hfirst, receive_eq_track hsecond, receive_eq_track hthird]
  simp only [accepted_track, hlow]
  decide

end Receiver

end Snabb
