import Snabb.Apps.Rss.Metadata
import Snabb.Foundation.Run
import Mathlib.Order.Lattice.Nat

/-!
# The chain of the extension headers

An authentication header of length 0 leads two bytes back: its length is taken as 4 times the
length byte minus 2, where it is 4 times the length byte plus 8. All other headers lead on. So the
traversal of a packet goes round in circles if a header is followed by such authentication headers
as far as it leads on, and it ends in all other packets.

- `walk_ends_iff`: the traversal ends unless there is a header on the chain that is led back to.
- `add_returns_iff`: and so does `add`.
-/

namespace Snabb

open List

namespace Rss

open Foundation

variable {data : Bytes} {payload : Nat} {eff : Int} {first : UInt8}

/-- A header of the type `type` stands at the offset `x` in the chain of headers that begins with
one of the type `first`. -/
inductive OnChain (data : Bytes) (payload : Nat) (eff : Int) (first : UInt8) :
    Nat → UInt8 → Prop
  | first : OnChain data payload eff first 0 first
  | next {x y : Nat} {type : UInt8} {fn : Bytes → Nat → ExtHdr} :
      OnChain data payload eff first x type → ipv6ExtHdrFns type = some fn →
      (x : Int) + (fn data (payload + x)).size = y → (y : Int) ≤ eff →
      OnChain data payload eff first y (fn data (payload + x)).nextHeader

/-- Authentication headers of length 0 stand behind the offset `x`, one every two bytes. Each
leads to the one before it, and the first of them to a header of the type `type` at `x`. -/
def LeadBack (data : Bytes) (payload x : Nat) (type : UInt8) (count : Nat) : Prop :=
  ∀ k, 0 < k → k ≤ count → data (payload + (x + 2 * k) + 1) = 0 ∧
    data (payload + (x + 2 * k)) = if k = 1 then type else 51

/-- A header that leads into headers that lead back to it, at once or over another one. -/
def GoesRound (data : Bytes) (payload : Nat) (eff : Int) (x : Nat) (type : UInt8) : Prop :=
  ∃ fn count, ipv6ExtHdrFns type = some fn ∧ 0 < (fn data (payload + x)).size ∧
    ((fn data (payload + x)).nextHeader = 51 ∧ (fn data (payload + x)).size = 2 * (count : Nat) ∨
      (fn data (payload + x)).nextHeader ≠ 51 ∧
        (ipv6ExtHdrFns (fn data (payload + x)).nextHeader).isSome ∧
        (fn data (payload + x)).size + 8 = 2 * (count : Nat)) ∧
    ((x + 2 * count : Nat) : Int) ≤ eff ∧ LeadBack data payload x type count

/-! ## The sizes of headers -/

variable {type : UInt8} {fn : Bytes → Nat → ExtHdr} {w : Walk} {x fuel : Nat} {p : Pkt}
  {rmExtHeaders : Bool} {vlanOverride : Option Nat}

section

variable (h : ipv6ExtHdrFns type = some fn)
include h

/-- **A header leads on, unless it is an authentication header of length 0.** -/
theorem size_cases (data : Bytes) (ptr : Nat) :
    (∃ k : Nat, 0 < k ∧ (fn data ptr).size = 2 * (k : Nat) ∧ (k = 1 → type = 51)) ∨
      type = 51 ∧ data (ptr + 1) = 0 ∧ (fn data ptr).size = -2 := by
  unfold ipv6ExtHdrFns at h
  split_ifs at h with hfrag hauth hgeneric
  · cases h
    exact .inl ⟨4, by decide, rfl, fun h4 => absurd h4 (by decide)⟩
  · cases h
    by_cases hzero : data (ptr + 1) = 0
    · refine .inr ⟨hauth, hzero, ?_⟩
      unfold ipv6AuthHdr
      rw [hzero]
      rfl
    · have hpos : (data (ptr + 1)).toNat ≠ 0 := fun h0 => hzero (UInt8.toNat_inj.mp h0)
      refine .inl ⟨(data (ptr + 1)).toNat * 2 - 1, by omega, ?_, fun _ => hauth⟩
      unfold ipv6AuthHdr
      dsimp only
      omega
  · cases h
    refine .inl ⟨(data (ptr + 1)).toNat * 4 + 4, by omega, ?_, fun h1 => by omega⟩
    unfold ipv6GenericExtHdr
    dsimp only
    omega

theorem nextHeader_eq (data : Bytes) (ptr : Nat) : (fn data ptr).nextHeader = data ptr := by
  unfold ipv6ExtHdrFns at h
  split_ifs at h <;> cases h <;> rfl

/-- A header of length 0 that is no authentication header has 8 bytes. -/
theorem size_eq_eight (hauth : type ≠ 51) {ptr : Nat} (hzero : data (ptr + 1) = 0) :
    (fn data ptr).size = 8 := by
  unfold ipv6ExtHdrFns at h
  split_ifs at h
  · cases h
    rfl
  · cases h
    unfold ipv6GenericExtHdr
    rw [hzero]
    rfl

end

/-! ## Rounds -/

theorem walkRound_inl {y : Nat} (h : ipv6ExtHdrFns w.nextHeader = some fn)
    (hy : (w.extHdrsSize : Int) + (fn data (payload + w.extHdrsSize)).size = y)
    (hle : (y : Int) ≤ eff) :
    walkRound data payload eff w = .inl ⟨y, (fn data (payload + w.extHdrsSize)).nextHeader,
      (fn data (payload + w.extHdrsSize)).fragOffset.getD w.fragOffset⟩ := by
  unfold walkRound
  rw [h]
  simp only [hy]
  rw [if_neg (by omega)]
  rfl

theorem walkRound_eq_inl {w' : Walk} (h : walkRound data payload eff w = .inl w') :
    ∃ fn, ipv6ExtHdrFns w.nextHeader = some fn ∧
      (w.extHdrsSize : Int) + (fn data (payload + w.extHdrsSize)).size = w'.extHdrsSize ∧
      (w'.extHdrsSize : Int) ≤ eff ∧ w'.nextHeader = data (payload + w.extHdrsSize) := by
  unfold walkRound at h
  cases hfn : ipv6ExtHdrFns w.nextHeader with
  | none =>
    rw [hfn] at h
    cases h
  | some fn =>
    simp only [hfn] at h
    split_ifs at h with hout
    cases h
    have hnext := nextHeader_eq hfn data (payload + w.extHdrsSize)
    refine ⟨fn, rfl, ?_, ?_, hnext⟩ <;> dsimp only <;> omega

/-! ## Going round -/

theorem auth_fn : ipv6ExtHdrFns 51 = some ipv6AuthHdr := rfl

theorem LeadBack.round {k count : Nat} (h : LeadBack data payload x type count) (hk : 0 < k)
    (hle : k ≤ count) (heff : ((x + 2 * count : Nat) : Int) ≤ eff)
    (hsize : w.extHdrsSize = x + 2 * k) (hauth : w.nextHeader = 51) :
    ∃ w', walkRound data payload eff w = .inl w' ∧ w'.extHdrsSize = x + 2 * (k - 1) ∧
      w'.nextHeader = if k = 1 then type else 51 := by
  obtain ⟨hzero, hnext⟩ := h k hk hle
  have hfn : ipv6ExtHdrFns w.nextHeader = some ipv6AuthHdr := by rw [hauth, auth_fn]
  have hback : (ipv6AuthHdr data (payload + w.extHdrsSize)).size = -2 := by
    unfold ipv6AuthHdr
    rw [hsize, hzero]
    rfl
  refine ⟨_, walkRound_inl (y := x + 2 * (k - 1)) hfn (by rw [hback, hsize]; omega) (by omega),
    rfl, ?_⟩
  rw [← hnext, ← hsize]
  exact nextHeader_eq hfn _ _

/-- **A walk that comes to a header it is led back to does not end.** -/
theorem not_ends_of_goesRound (h : GoesRound data payload eff w.extHdrsSize w.nextHeader) :
    ¬ Ends (walkRound data payload eff) w := by
  obtain ⟨fn, count, hfn, hpos, hlead, hle, hback⟩ := h
  set x := w.extHdrsSize with hx
  set type := w.nextHeader with htype
  have hnext := nextHeader_eq hfn data (payload + x)
  rw [hnext] at hlead
  -- The header, the ones that lead back to it, and the one between if there is one.
  refine not_ends_of_closed {w | w.extHdrsSize = x ∧ w.nextHeader = type ∨
    (∃ k, 0 < k ∧ k ≤ count ∧ w.extHdrsSize = x + 2 * k ∧ w.nextHeader = 51) ∨
    (w.extHdrsSize = x + (fn data (payload + x)).size ∧
      w.nextHeader = data (payload + x) ∧ data (payload + x) ≠ 51)} ?_ (.inl ⟨hx.symm, htype.symm⟩)
  rintro v (⟨hsize, hv⟩ | ⟨k, hk, hkle, hsize, hv⟩ | ⟨hsize, hv, hauth⟩)
  · rw [← hv] at hfn
    rw [← hsize] at hlead hpos hnext ⊢
    obtain ⟨y, hy⟩ : ∃ y : Nat, v.extHdrsSize + (fn data (payload + v.extHdrsSize)).size = y :=
      ⟨(v.extHdrsSize + (fn data (payload + v.extHdrsSize)).size).toNat, by omega⟩
    refine ⟨_, ?_, walkRound_inl hfn hy (by omega)⟩
    rcases hlead with ⟨hauth, hcount⟩ | ⟨hauth, -, -⟩
    · exact .inr (.inl ⟨count, by omega, le_rfl, by dsimp only; omega, by rw [← hauth, hnext]⟩)
    · exact .inr (.inr ⟨hy.symm, hnext, hauth⟩)
  · obtain ⟨v', hround, hsize', hnext'⟩ := hback.round hk hkle hle hsize hv
    refine ⟨v', ?_, hround⟩
    by_cases hone : k = 1
    · rw [if_pos hone] at hnext'
      exact .inl ⟨by omega, hnext'⟩
    · rw [if_neg hone] at hnext'
      exact .inr (.inl ⟨k - 1, by omega, by omega, hsize', hnext'⟩)
  · rcases hlead with ⟨hauth', -⟩ | ⟨-, hsome, hcount⟩
    · exact absurd hauth' hauth
    obtain ⟨fn', hfn'⟩ := Option.isSome_iff_exists.mp hsome
    obtain ⟨k, hk, hsizek, hone⟩ : ∃ k : Nat, 0 < k ∧ (fn data (payload + x)).size = 2 * k ∧
        (k = 1 → type = 51) := by
      rcases size_cases hfn data (payload + x) with hcase | ⟨-, -, hminus⟩
      · exact hcase
      · omega
    obtain ⟨hzero, hauth'⟩ := hback k hk (by omega)
    have hv' : v.extHdrsSize = x + 2 * k := by omega
    have height : (fn' data (payload + v.extHdrsSize)).size = 8 :=
      size_eq_eight hfn' hauth (by rw [hv', hzero])
    rw [← hv] at hfn'
    refine ⟨_, .inr (.inl ⟨count, by omega, le_rfl, rfl, ?_⟩),
      walkRound_inl (y := x + 2 * count) hfn' (by rw [height]; omega) hle⟩
    rw [nextHeader_eq hfn', hv', hauth']
    split_ifs with h1
    · exact hone h1
    · rfl

/-! ## Walking forever -/

/-- A walk without an end. -/
structure Endless (data : Bytes) (payload : Nat) (eff : Int) (run : Nat → Walk) : Prop where
  round : ∀ n, walkRound data payload eff (run n) = .inl (run (n + 1))

namespace Endless

variable {run : Nat → Walk}

variable (h : Endless data payload eff run)
include h

theorem onChain (hfirst : (run 0).extHdrsSize = 0) (n : Nat) :
    OnChain data payload eff (run 0).nextHeader (run n).extHdrsSize (run n).nextHeader := by
  induction n with
  | zero =>
    rw [hfirst]
    exact .first
  | succ n ih =>
    obtain ⟨fn, hfn, hsize, hle, hnext⟩ := walkRound_eq_inl (h.round n)
    have := ih.next hfn hsize hle
    rwa [nextHeader_eq hfn, ← hnext] at this

theorem exists_furthest : ∃ n, ∀ m, (run m).extHdrsSize ≤ (run n).extHdrsSize := by
  have hbound : BddAbove (Set.range fun n => (run n).extHdrsSize) := by
    refine ⟨max (run 0).extHdrsSize eff.toNat, ?_⟩
    rintro _ ⟨n, rfl⟩
    cases n with
    | zero => exact le_max_left _ _
    | succ n =>
      obtain ⟨_, -, -, hle, -⟩ := walkRound_eq_inl (h.round n)
      dsimp only
      exact le_max_of_le_right (by omega)
  obtain ⟨n, hn⟩ := Nat.sSup_mem (Set.range_nonempty _) hbound
  refine ⟨n, fun m => ?_⟩
  have hle := le_csSup hbound ⟨m, rfl⟩
  dsimp only at hn hle
  omega

theorem round_cases (n : Nat) :
    (run (n + 1)).nextHeader = data (payload + (run n).extHdrsSize) ∧
      ((run n).extHdrsSize < (run (n + 1)).extHdrsSize ∨
        (run n).nextHeader = 51 ∧ data (payload + (run n).extHdrsSize + 1) = 0 ∧
          (run n).extHdrsSize = (run (n + 1)).extHdrsSize + 2) := by
  obtain ⟨fn, hfn, hsize, -, hnext⟩ := walkRound_eq_inl (h.round n)
  refine ⟨hnext, ?_⟩
  rcases size_cases hfn data (payload + (run n).extHdrsSize) with ⟨k, hk, hk2, -⟩ | ⟨hauth, hzero, hm⟩
  · exact .inl (by omega)
  · exact .inr ⟨hauth, hzero, by omega⟩

/-- It does not go back forever. -/
theorem exists_on (n : Nat) : ∃ j, (run (n + j)).extHdrsSize < (run (n + j + 1)).extHdrsSize := by
  by_contra hnone
  push Not at hnone
  have hback j : (run (n + j)).extHdrsSize + 2 * j = (run n).extHdrsSize := by
    induction j with
    | zero => rfl
    | succ j ih =>
      rcases (h.round_cases (n + j)).2 with hon | ⟨-, -, hsize⟩
      · exact absurd hon (not_lt.mpr (hnone j))
      · rw [← Nat.add_assoc]
        omega
  have := hback ((run n).extHdrsSize + 1)
  omega

/-- **From as far out as it gets, it goes back to a header that leads on.** -/
theorem exists_leadBack :
    ∃ n count, (∀ m, (run m).extHdrsSize ≤ (run n).extHdrsSize + 2 * count) ∧
      (run n).extHdrsSize < (run (n + 1)).extHdrsSize ∧
      LeadBack data payload (run n).extHdrsSize (run n).nextHeader count := by
  obtain ⟨n, hmax⟩ := h.exists_furthest
  have hex := h.exists_on n
  obtain ⟨hon, hleast⟩ := Nat.find_spec hex, fun j => Nat.find_min hex (m := j)
  set count := Nat.find hex
  have hdown j (hj : j < count) : (run (n + j)).nextHeader = 51 ∧
      data (payload + (run (n + j)).extHdrsSize + 1) = 0 ∧
      (run (n + j)).extHdrsSize = (run (n + j + 1)).extHdrsSize + 2 := by
    rcases (h.round_cases (n + j)).2 with hup | hback
    · exact absurd hup (hleast j hj)
    · exact hback
  have hsize j (hj : j ≤ count) :
      (run (n + j)).extHdrsSize + 2 * j = (run n).extHdrsSize := by
    induction j with
    | zero => rfl
    | succ j ih =>
      have hstep := (hdown j (by omega)).2.2
      rw [← Nat.add_assoc]
      omega
  refine ⟨n + count, count, fun m => ?_, hon, ?_⟩
  · rw [hsize count le_rfl]
    exact hmax m
  · intro k hk hle
    -- The header `k` of them is met `count - k` rounds after the furthest one.
    obtain ⟨j, hj⟩ : ∃ j, j + k = count := ⟨count - k, by omega⟩
    have hat : (run (n + count)).extHdrsSize + 2 * k = (run (n + j)).extHdrsSize := by
      have h1 := hsize count le_rfl
      have h2 := hsize j (by omega)
      omega
    obtain ⟨-, hzero, -⟩ := hdown j (by omega)
    have hnext := (h.round_cases (n + j)).1
    rw [hat]
    refine ⟨hzero, ?_⟩
    rw [← hnext]
    split_ifs with hone
    · rw [show n + count = n + j + 1 by omega]
    · exact (hdown (j + 1) (by omega)).1

/-- **A walk without an end comes to a header it is led back to.** -/
theorem exists_goesRound :
    ∃ n, GoesRound data payload eff (run n).extHdrsSize (run n).nextHeader := by
  obtain ⟨n, count, hmax, hon, hback⟩ := h.exists_leadBack
  obtain ⟨fn, hfn, hsize, -, hnext⟩ := walkRound_eq_inl (h.round n)
  obtain ⟨k, hk, hk2⟩ : ∃ k : Nat, 0 < k ∧
      (fn data (payload + (run n).extHdrsSize)).size = 2 * k := by
    rcases size_cases hfn data (payload + (run n).extHdrsSize) with ⟨k, hk, hk2, -⟩ | ⟨-, -, hm⟩
    · exact ⟨k, hk, hk2⟩
    · omega
  have hdata : (fn data (payload + (run n).extHdrsSize)).nextHeader = (run (n + 1)).nextHeader := by
    rw [nextHeader_eq hfn, hnext]
  have hupto {bound : Nat} hbound : LeadBack data payload (run n).extHdrsSize
      (run n).nextHeader bound := fun j hj hle => hback j hj (hle.trans hbound)
  have hat : (run (n + 1)).extHdrsSize = (run n).extHdrsSize + 2 * k := by omega
  have hmax1 := hmax (n + 1)
  obtain ⟨fn', hfn', hsize', hle', -⟩ := walkRound_eq_inl (h.round (n + 1))
  refine ⟨n, ?_⟩
  by_cases hauth : (run (n + 1)).nextHeader = 51
  · refine ⟨fn, k, hfn, by omega, .inl ⟨by rw [hdata, hauth], hk2⟩, ?_, hupto (by omega)⟩
    obtain ⟨_, -, -, hle, -⟩ := walkRound_eq_inl (h.round n)
    omega
  · -- What it leads to stands in a header of length 0, and leads on by 8 bytes.
    have hzero := (hback k hk (by omega)).1
    rw [← hat] at hzero
    have height := size_eq_eight hfn' hauth hzero
    have hmax2 := hmax (n + 1 + 1)
    refine ⟨fn, k + 4, hfn, by omega, .inr ⟨by rwa [hdata], ?_, by omega⟩, by omega,
      hupto (by omega)⟩
    rw [hdata, hfn']
    rfl

end Endless

theorem OnChain.ends (h : OnChain data payload eff first x type)
    (hends : Ends (walkRound data payload eff) ⟨0, first, 0⟩) :
    ∃ fragOffset, Ends (walkRound data payload eff) ⟨x, type, fragOffset⟩ := by
  induction h with
  | first => exact ⟨0, hends⟩
  | next _ hfn hy hle ih =>
    obtain ⟨fragOffset, hx⟩ := ih
    exact ⟨_, (ends_inl (walkRound_inl hfn hy hle)).mp hx⟩

/-- **The traversal ends, unless there is a header on the chain that it is led back to.** -/
theorem walk_ends_iff (data : Bytes) (payload : Nat) (eff : Int) (first : UInt8) :
    Ends (walkRound data payload eff) ⟨0, first, 0⟩ ↔
      ¬ ∃ x type, OnChain data payload eff first x type ∧ GoesRound data payload eff x type := by
  constructor
  · rintro hends ⟨x, type, hchain, hround⟩
    obtain ⟨fragOffset, hx⟩ := hchain.ends hends
    exact not_ends_of_goesRound (w := ⟨x, type, fragOffset⟩) hround hx
  · intro hnone
    by_contra hends
    have hrun : Endless data payload eff (after (walkRound data payload eff) ⟨0, first, 0⟩) :=
      ⟨fun n => (step_after hends n).2⟩
    obtain ⟨n, hround⟩ := hrun.exists_goesRound
    exact hnone ⟨_, _, hrun.onChain rfl n, hround⟩

/-! ## `add` -/

/-- A call that returns or raises, if it is given enough fuel. -/
def Returns {A : Type} (call : Nat → Except Halt A) : Prop := ∃ fuel, call fuel ≠ .error .running

/-- An IPv6 packet with a header on its chain that the traversal is led back to. -/
def Pkt.Circular (p : Pkt) : Prop :=
  let (ethertype, _, filterOffset) := etherType p.data
  let l3 := ethernetHeaderSize + filterOffset
  let payload := l3 + ipv6FixedHeaderSize
  ethertype = ethertypeIpv6 ∧
    ∃ x type, OnChain p.data payload (p.length - payload) (getIpv6NextHeader p.data l3) x type ∧
      GoesRound p.data payload (p.length - payload) x type

/-- The loop over the headers of a packet, with its first state. -/
def Pkt.walk (p : Pkt) (l3 : Nat) (fuel : Nat) : Option WalkEnd :=
  loop (walkRound p.data (l3 + ipv6FixedHeaderSize) (p.length - (l3 + ipv6FixedHeaderSize : Nat)))
    fuel ⟨0, getIpv6NextHeader p.data l3, 0⟩

/-- **The traversal returns if the loop does**, and leaves the headroom as it is. -/
theorem traverse_cases (fuel : Nat) (p : Pkt) (l3 : Nat) (squash : Bool) :
    p.walk l3 fuel = none ∧ traverseExtensionHeaders fuel p l3 squash = .error .running ∨
      p.walk l3 fuel ≠ none ∧ ∃ payloadLength ulp fragOffset p',
        traverseExtensionHeaders fuel p l3 squash = .ok (payloadLength, ulp, fragOffset, p') ∧
          p'.md = p.md ∧ p'.headroom = p.headroom := by
  unfold traverseExtensionHeaders
  cases hwalk : p.walk l3 fuel with
  | none =>
    unfold Pkt.walk at hwalk
    refine .inl ⟨rfl, ?_⟩
    dsimp only
    rw [hwalk]
    rfl
  | some e =>
    unfold Pkt.walk at hwalk
    refine .inr ⟨by simp, ?_⟩
    dsimp only
    rw [hwalk]
    cases e with
    | exit fragOffset => exact ⟨_, _, _, _, rfl, rfl, rfl⟩
    | behind w =>
      dsimp only
      split_ifs
      · exact ⟨_, _, _, _, rfl, rfl, rfl⟩
      · exact ⟨_, _, _, _, rfl, rfl, rfl⟩

/-- **The fields from the L3 header are found, unless the traversal goes on.** -/
theorem addL3_cases (fuel : Nat) {md : Metadata} (rmExtHeaders : Bool) (hroom : mdLen ≤ p.headroom)
    (hmagic : md.magic = magicNumber) :
    (md.ethertype = ethertypeIpv6 ∧ p.walk md.l3Offset fuel = none) ∧
        addL3 fuel p md rmExtHeaders = .error .running ∨
      ¬ (md.ethertype = ethertypeIpv6 ∧ p.walk md.l3Offset fuel = none) ∧
        ∃ md' p', addL3 fuel p md rmExtHeaders = .ok (md', p') ∧ md'.magic = md.magic ∧
          md'.ref = md.ref ∧ md'.ethertype = md.ethertype ∧ p'.headroom = p.headroom := by
  unfold addL3
  by_cases h4 : md.ethertype = ethertypeIpv4
  · rw [if_pos h4]
    refine .inr ⟨fun h => ?_, _, _, rfl, rfl, rfl, rfl, rfl⟩
    rw [h4] at h
    exact absurd h.1 (by decide)
  rw [if_neg h4]
  by_cases h6 : md.ethertype = ethertypeIpv6
  swap
  · rw [if_neg h6]
    exact .inr ⟨fun h => h6 h.1, _, _, rfl, rfl, rfl, rfl, rfl⟩
  rw [if_pos h6]
  rcases traverse_cases fuel { p with md := md } md.l3Offset rmExtHeaders with
    ⟨hwalk, htraverse⟩ | ⟨hwalk, payloadLength, ulp, fragOffset, p', htraverse, hmd, hheadroom⟩
  · rw [htraverse]
    exact .inl ⟨⟨h6, hwalk⟩, rfl⟩
  · have hget : Metadata.get p' = .ok md := by
      unfold Metadata.get mdPtr
      rw [if_pos (by rw [hheadroom]; exact hroom), hmd]
      simp only [hmagic]
      rfl
    rw [htraverse]
    refine .inr ⟨fun h => hwalk h.2, _, _, bind_of_eq_ok hget, rfl, rfl, rfl, hheadroom⟩

/-- **What `add` does.** -/
theorem add_cases (fuel : Nat) (p : Pkt) (rmExtHeaders : Bool) (vlanOverride : Option Nat) :
    ¬ mdLen ≤ p.headroom ∧ add fuel p rmExtHeaders vlanOverride = .error .assertion ∨
      (mdLen ≤ p.headroom ∧ ((etherType p.data).1 = ethertypeIpv6 ∧
          p.walk (ethernetHeaderSize + (etherType p.data).2.2) fuel = none)) ∧
        add fuel p rmExtHeaders vlanOverride = .error .running ∨
      (mdLen ≤ p.headroom ∧ ¬ ((etherType p.data).1 = ethertypeIpv6 ∧
          p.walk (ethernetHeaderSize + (etherType p.data).2.2) fuel = none)) ∧
        ∃ p', add fuel p rmExtHeaders vlanOverride = .ok p' ∧ p'.md.magic = magicNumber ∧
          p'.md.ref = 0 ∧ p'.md.ethertype = (etherType p.data).1 ∧ p'.headroom = p.headroom := by
  unfold add mdPtr
  by_cases hroom : mdLen ≤ p.headroom
  swap
  · rw [if_neg hroom]
    exact .inl ⟨hroom, rfl⟩
  rw [if_pos hroom]
  refine .inr ?_
  rcases addL3_cases fuel rmExtHeaders hroom (show (addL2 p vlanOverride).magic = magicNumber from rfl) with
    ⟨hwalk, hadd⟩ | ⟨hwalk, md', p', hadd, hmagic, href, hethertype, hheadroom⟩
  · exact .inl ⟨⟨hroom, hwalk⟩, by rw [hadd]; rfl⟩
  · refine .inr ⟨⟨hroom, hwalk⟩, { p' with md := addFilter p' md' (etherType p.data).2.2 }, ?_,
      hmagic, href, hethertype, hheadroom⟩
    rw [hadd]
    rfl

theorem circular_iff (p : Pkt) :
    p.Circular ↔ (etherType p.data).1 = ethertypeIpv6 ∧
      ∀ fuel, p.walk (ethernetHeaderSize + (etherType p.data).2.2) fuel = none := by
  unfold Pkt.Circular
  have hends := walk_ends_iff p.data
    (ethernetHeaderSize + (etherType p.data).2.2 + ipv6FixedHeaderSize)
    (p.length - (ethernetHeaderSize + (etherType p.data).2.2 + ipv6FixedHeaderSize : Nat))
    (getIpv6NextHeader p.data (ethernetHeaderSize + (etherType p.data).2.2))
  dsimp only
  refine and_congr_right fun _ => ?_
  rw [← not_not (a := ∃ x type, _), ← hends]
  unfold Ends Pkt.walk
  push Not
  exact forall_congr' fun fuel => (Option.eq_none_iff_forall_ne_some).symm

/-- **`add` returns, unless the packet is circular.** A packet without room for the meta-data is
refused before its headers are looked at. -/
theorem add_returns_iff (p : Pkt) (rmExtHeaders : Bool) (vlanOverride : Option Nat) :
    Returns (fun fuel => add fuel p rmExtHeaders vlanOverride) ↔
      ¬ (mdLen ≤ p.headroom ∧ p.Circular) := by
  rw [circular_iff]
  unfold Returns
  constructor
  · rintro ⟨fuel, hne⟩ ⟨hroom, htype, hwalk⟩
    rcases add_cases fuel p rmExtHeaders vlanOverride with h | h | h
    · exact h.1 hroom
    · exact hne h.2
    · exact h.1.2 ⟨htype, hwalk fuel⟩
  · intro h
    by_contra hnone
    push Not at hnone
    have hgoes fuel : mdLen ≤ p.headroom ∧ (etherType p.data).1 = ethertypeIpv6 ∧
        p.walk (ethernetHeaderSize + (etherType p.data).2.2) fuel = none := by
      rcases add_cases fuel p rmExtHeaders vlanOverride with h' | h' | ⟨-, p', h', -⟩
      · rw [hnone fuel] at h'
        cases h'.2
      · exact h'.1
      · rw [hnone fuel] at h'
        cases h'
    exact h ⟨(hgoes 0).1, (hgoes 0).2.1, fun fuel => (hgoes fuel).2.2⟩

theorem traverse_add {l3 : Nat} (h : p.walk l3 fuel ≠ none) (more : Nat) (squash : Bool) :
    traverseExtensionHeaders (fuel + more) p l3 squash =
      traverseExtensionHeaders fuel p l3 squash := by
  obtain ⟨e, he⟩ := Option.ne_none_iff_exists'.mp h
  unfold Pkt.walk at he
  unfold traverseExtensionHeaders
  dsimp only
  rw [he, loop_add he]

/-- **More fuel changes nothing** once `add` returns or raises. -/
theorem add_add (h : add fuel p rmExtHeaders vlanOverride ≠ .error .running) (more : Nat) :
    add (fuel + more) p rmExtHeaders vlanOverride = add fuel p rmExtHeaders vlanOverride := by
  have hl3 : mdLen ≤ p.headroom → addL3 (fuel + more) p (addL2 p vlanOverride) rmExtHeaders =
      addL3 fuel p (addL2 p vlanOverride) rmExtHeaders := by
    intro hroom
    unfold addL3
    dsimp only
    split_ifs with h4 h6
    · rfl
    · have hwalk : p.walk (addL2 p vlanOverride).l3Offset fuel ≠ none := by
        rcases add_cases fuel p rmExtHeaders vlanOverride with h' | h' | h'
        · exact absurd hroom h'.1
        · exact absurd h'.2 h
        · exact fun hnone => h'.1.2 ⟨h6, hnone⟩
      rw [traverse_add (p := { p with md := addL2 p vlanOverride }) hwalk]
    · rfl
  unfold add mdPtr
  by_cases hroom : mdLen ≤ p.headroom
  · rw [hl3 hroom]
  · rw [if_neg hroom]
    rfl

/-- A packet that `add` returns has room, and it is not circular. -/
theorem straight_of_add {pkt : Pkt}
    (h : add fuel p rmExtHeaders vlanOverride = .ok pkt) : mdLen ≤ p.headroom ∧ ¬ p.Circular := by
  have hreturns := (add_returns_iff p rmExtHeaders vlanOverride).mp ⟨fuel, by simp [h]⟩
  rcases add_cases fuel p rmExtHeaders vlanOverride with ⟨-, h'⟩ | ⟨-, h'⟩ | ⟨⟨hroom, -⟩, -⟩
  · rw [h] at h'
    cases h'
  · rw [h] at h'
    cases h'
  · exact ⟨hroom, fun hcircular => hreturns ⟨hroom, hcircular⟩⟩

/-- Some fuel is enough for all packets of a list that `add` returns for. -/
theorem exists_fuel (ps : List Pkt) (rmExtHeaders : Bool) (vlanOverride : Option Nat)
    (h : ∀ p ∈ ps, ¬ p.Circular) :
    ∃ fuel, ∀ p ∈ ps, add fuel p rmExtHeaders vlanOverride ≠ .error .running := by
  induction ps with
  | nil => exact ⟨0, fun p hp => absurd hp not_mem_nil⟩
  | cons p rest ih =>
    obtain ⟨fuel, hfuel⟩ := ih fun q hq => h q (mem_cons_of_mem p hq)
    obtain ⟨fuel', hfuel'⟩ := (add_returns_iff p rmExtHeaders vlanOverride).mpr
      fun hp => h p mem_cons_self hp.2
    refine ⟨fuel + fuel', fun q hq => ?_⟩
    rcases mem_cons.mp hq with rfl | hq
    · rw [Nat.add_comm, add_add hfuel']
      exact hfuel'
    · rw [add_add (hfuel q hq)]
      exact hfuel q hq

end Rss

end Snabb
