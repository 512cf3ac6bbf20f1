import Snabb.Apps.Ipv4.FragmentOffsets

/-!
# Which datagrams are reassembled (`apps/ipv4/reassemble.lua`)

`handle_fragment` takes the data of a fragment from behind `reassembly_base` bytes of its frame,
which is the size of the headers of the fragment that arrived first, not of its own.

`ReassemblerUse` keeps with the app what fragments each reassembly was made of.

`reassembled_iff`: fragments that tile a datagram and arrive in any order become that datagram
if and only if their data is where it is taken from.
-/

namespace Snabb

open Foundation Tiling List Table Packet AList

/-- Where the data of a fragment starts and stops. -/
def Ipv4Header.piece (h : Ipv4Header) : Nat × Nat := (h.fragStart, h.fragStart + h.fragSize.toNat)

namespace Reassembly

/-- The last fragment has been noted, and as many bytes as it says have been copied. -/
def Ready (r : Reassembly) : Prop := r.finalStart ≠ 0 ∧ r.runningLength = r.packet.length

end Reassembly

namespace Reassembler

variable {conf : ReassemblerConf} {ipsum : List UInt8 → Nat} {s s' t : Reassembler}
  {a : FrameArrival} {key k : FragmentKey} {r r' : Reassembly} {out : Packet}

/-! ## One fragment -/

theorem Leaves.erase (h : Leaves conf s a t)
    (hctab : s'.ctab = t.ctab.erase (fragmentKey a.frame.ipv4Header)) : Leaves conf s a s' where
  sub k v hne hk := by
    rw [hctab, lookup_erase_ite, if_neg hne] at hk
    exact h.sub k v hne hk
  spared k v hne hspares hk := by
    rw [hctab, lookup_erase_ite, if_neg hne]
    exact h.spared k v hne hspares hk

theorem Leaves.insert (h : Leaves conf s a t) {r : Reassembly}
    (hctab : s'.ctab = t.ctab.insert (fragmentKey a.frame.ipv4Header) r) : Leaves conf s a s' where
  sub k v hne hk := by
    rw [hctab, lookup_insert_ite, if_neg hne] at hk
    exact h.sub k v hne hk
  spared k v hne hspares hk := by
    rw [hctab, lookup_insert_ite, if_neg hne]
    exact h.spared k v hne hspares hk

/-- What a fragment leads to that joins the reassembly `r`. -/
inductive Handled (conf : ReassemblerConf) (ipsum : List UInt8 → Nat) (s : Reassembler)
    (a : FrameArrival) (r : Reassembly) (s' : Reassembler) : Prop where
  | dropped (hwhy : TurnedAway conf r a.frame.ipv4Header ∨
        (r.accept a.frame).Ready ∧ ¬ (r.accept a.frame).verifyValidOffsets)
      (hentry : s'.ctab.lookup (fragmentKey a.frame.ipv4Header) = none)
      (hout : s'.transmitted = s.transmitted)
  | gathering (hjoins : ¬ TurnedAway conf r a.frame.ipv4Header)
      (hsize : 0 ≤ a.frame.ipv4Header.fragSize) (hready : ¬ (r.accept a.frame).Ready)
      (hentry : s'.ctab.lookup (fragmentKey a.frame.ipv4Header) = some (r.accept a.frame))
      (hout : s'.transmitted = s.transmitted)
  | emitted (hjoins : ¬ TurnedAway conf r a.frame.ipv4Header)
      (hsize : 0 ≤ a.frame.ipv4Header.fragSize) (hready : (r.accept a.frame).Ready)
      (hverify : (r.accept a.frame).verifyValidOffsets)
      (hentry : s'.ctab.lookup (fragmentKey a.frame.ipv4Header) = none)
      (hout : s'.transmitted = s.transmitted ++
        [finishHeader ipsum (.fromPointer a.base (r.accept a.frame).packet.bytes)])

/-- **One fragment.** -/
theorem receive_handled (hs : WellKept conf s) (htakes : takesFragment a.frame)
    (hok : receive conf ipsum s a = .ok s') :
    ∃ r, Joins s a.frame r ∧ Leaves conf s a s' ∧ Handled conf ipsum s a r s' := by
  have hhandle : handleFragment conf ipsum { s with
      shm := { s.shm with needsReassembly := s.shm.needsReassembly + 1 } } a = .ok s' := by
    simpa only [receive, htakes.1, htakes.2.1, htakes.2.2, ne_eq, not_true_eq_false, if_false]
      using hok
  have hs' : WellKept conf { s with
      shm := { s.shm with needsReassembly := s.shm.needsReassembly + 1 } } :=
    ⟨hs.entries, hs.occupancy⟩
  obtain ⟨t, r, hlookup, -, -, -, hout, hleaves, hjoined⟩ := lookupReassembly_spec hs' a
  have hleaves : Leaves conf s a t := ⟨hleaves.sub, hleaves.spared⟩
  refine ⟨r, hjoined, ?_⟩
  obtain ⟨hturned, hresult⟩ | ⟨-, -, hresult⟩ | ⟨hjoins, hsize, hresult⟩ :=
    handleFragment_cases ipsum hlookup
  · obtain rfl := ok_unique hresult hhandle
    exact ⟨hleaves.erase rfl, .dropped (.inl hturned) (lookup_erase _ _) hout⟩
  · rw [hresult] at hhandle
    cases hhandle
  · have hfinish := hresult.symm.trans hhandle
    rw [finishFragment] at hfinish
    split at hfinish
    · next hopen =>
      cases hfinish
      refine ⟨hleaves.insert rfl, .gathering hjoins hsize ?_ (lookup_insert _) hout⟩
      rintro ⟨hfinal, hlengths⟩
      exact hopen.elim hfinal fun hne => hne hlengths
    · next hopen =>
      have hready : (r.accept a.frame).Ready := by
        rw [not_or, not_not] at hopen
        exact hopen
      split at hfinish
      · next hverify =>
        rw [clone] at hfinish
        split at hfinish
        · cases hfinish
          refine ⟨hleaves.erase rfl,
            .emitted hjoins hsize hready hverify (lookup_erase _ _) ?_⟩
          show t.transmitted ++ [_] = _
          rw [hout]
        · cases hfinish
      · next hverify =>
        cases hfinish
        exact ⟨hleaves.erase rfl, .dropped (.inr ⟨hready, hverify⟩) (lookup_erase _ _) hout⟩

theorem receive_other (htakes : ¬ takesFragment a.frame)
    (hok : receive conf ipsum s a = .ok s') : s'.ctab = s.ctab := by
  rw [receive] at hok
  split at hok
  · cases hok
    rfl
  · next htype =>
    split at hok
    · cases hok
      rfl
    · next hvalid =>
      split at hok
      · cases hok
        rfl
      · next hfragment =>
        exact absurd ⟨not_not.mp htype, not_not.mp hvalid, not_not.mp hfragment⟩ htakes

/-! ## The headers of a datagram -/

/-- The headers of a fragment, with a checksum and the length, the id and the fragment fields of a
datagram of `size` bytes that is not fragmented. -/
def headerWith (header : List UInt8) (size : Nat) (checksum : List UInt8) : List UInt8 :=
  header.take 16 ++ leBytes 2 (htons (header.length + size - etherHeaderLen)) ++
    leBytes 2 0 ++ leBytes 2 0 ++ (header.drop 22).take 2 ++ checksum ++ header.drop 26

/-- The headers of the datagram, with the checksum for which it is zero. -/
def restoredHeader (ipsum : List UInt8 → Nat) (header : List UInt8) (size : Nat) : List UInt8 :=
  headerWith header size
    (leBytes 2 (htons (ipsum ((headerWith header size (leBytes 2 0)).drop etherHeaderLen))))

theorem window_write_other (p : Packet) {k j n m : Nat} (h : j + n ≤ k ∨ k + 2 ≤ j) :
    (p.write k (leBytes 2 m)).window j n = p.window j n :=
  p.window_write_disjoint (by rwa [length_leBytes])

theorem window_write_field (p : Packet) (k m : Nat) :
    (p.write k (leBytes 2 m)).window k 2 = leBytes 2 m :=
  p.window_write_self k _ (length_leBytes _ _).symm

/-- The fields of an IPv4 header that are written, and what is between and behind them. -/
theorem window_fields (p : Packet) {n : Nat} (h : 26 ≤ n) :
    p.window 0 n = p.window 0 16 ++ p.window 16 2 ++ p.window 18 2 ++ p.window 20 2 ++
      p.window 22 2 ++ p.window 24 2 ++ p.window 26 (n - 26) := by
  obtain ⟨m, rfl⟩ := Nat.exists_eq_add_of_le h
  rw [Nat.add_sub_cancel_left, p.window_add 0 26, p.window_add 0 24 2, p.window_add 0 22 2,
    p.window_add 0 20 2, p.window_add 0 18 2, p.window_add 0 16 2]

/-- A packet has the fields of a datagram of `n` bytes that is not fragmented, and all else from
another packet. -/
structure Restores (out q : Packet) (base n : Nat) : Prop where
  first : q.window 0 16 = out.window 0 16
  totalLength : q.window 16 2 = leBytes 2 (htons (base + n - etherHeaderLen))
  id : q.window 18 2 = leBytes 2 0
  fragment : q.window 20 2 = leBytes 2 0
  between : q.window 22 2 = out.window 22 2
  behind : ∀ k m, 26 ≤ k → q.window k m = out.window k m

theorem Restores.window {out q : Packet} {base n : Nat} (h : Restores out q base n)
    (hbase : 26 ≤ base) : q.window 0 base = headerWith (out.window 0 base) n (q.window 24 2) := by
  rw [window_fields q hbase, h.first, h.totalLength, h.id, h.fragment, h.between,
    h.behind _ _ le_rfl, headerWith, length_window, take_window _ (by omega),
    drop_window _ hbase, drop_window _ (by omega), take_window _ (by omega)]

theorem Restores.write {out q : Packet} {base n : Nat} (h : Restores out q base n) (m : Nat) :
    Restores out (q.write 24 (leBytes 2 m)) base n where
  first := by rw [window_write_other _ (by omega), h.first]
  totalLength := by rw [window_write_other _ (by omega), h.totalLength]
  id := by rw [window_write_other _ (by omega), h.id]
  fragment := by rw [window_write_other _ (by omega), h.fragment]
  between := by rw [window_write_other _ (by omega), h.between]
  behind k m hk := by rw [window_write_other _ (by omega), h.behind k m hk]

/-- **The headers are restored**, and what is behind them stays. -/
theorem finishHeader_bytes (ipsum : List UInt8 → Nat) (out : Packet) {n : Nat}
    (hihl : 5 ≤ out.ipv4Header.ihl) (hlength : out.length = out.ipv4Header.headersLen + n) :
    (finishHeader ipsum out).bytes =
      restoredHeader ipsum (out.window 0 out.ipv4Header.headersLen) n ++
        out.window out.ipv4Header.headersLen n := by
  obtain ⟨base, hbase⟩ : ∃ base, base = out.ipv4Header.headersLen := ⟨_, rfl⟩
  have hlarge : 34 ≤ base := by
    rw [hbase, Ipv4Header.headersLen, etherHeaderLen]
    omega
  rw [← hbase] at hlength ⊢
  obtain ⟨zeroed, hzeroed⟩ : ∃ zeroed : Packet, zeroed = (((out.write 18 (leBytes 2 0)).write 20
      (leBytes 2 0)).write 16 (leBytes 2 (htons (base + n - etherHeaderLen)))).write 24
      (leBytes 2 0) := ⟨_, rfl⟩
  have hrestores : Restores out zeroed base n := by
    subst hzeroed
    refine ⟨?_, ?_, ?_, ?_, ?_, fun k m hk => ?_⟩
    all_goals simp (disch := omega) only [window_write_other, window_write_field]
  have hzero : zeroed.window 0 base = headerWith (out.window 0 base) n (leBytes 2 0) := by
    rw [hrestores.window (by omega), hzeroed, window_write_field]
  have hsame : zeroed.ipv4Header.ihl = out.ipv4Header.ihl := by
    have hbyte : zeroed.window 14 1 = out.window 14 1 := by
      subst hzeroed
      simp (disch := omega) only [window_write_other]
    rw [window_one, window_one] at hbyte
    show (zeroed.byte 14).toNat &&& _ = (out.byte 14).toNat &&& _
    rw [(List.cons.inj hbyte).1]
  have hfinish : finishHeader ipsum out = zeroed.write 24
      (leBytes 2 (htons (ipsum (zeroed.window 14 (base - 14))))) := by
    have hihl' : base - 14 = zeroed.ipv4Header.ihl * 4 := by
      rw [hbase, Ipv4Header.headersLen, etherHeaderLen]
      omega
    rw [hihl', hzeroed, ← hlength]
    rfl
  have hsum : zeroed.window 14 (base - 14) =
      (headerWith (out.window 0 base) n (leBytes 2 0)).drop etherHeaderLen := by
    rw [← hzero, drop_window _ (by rw [etherHeaderLen]; omega)]
    rfl
  rw [hfinish, hsum, bytes, write_length, show zeroed.length = out.length by
    subst hzeroed; rfl, hlength, window_add,
    (hrestores.write _).window (by omega), window_write_field, Nat.zero_add,
    (hrestores.write _).behind _ _ (by omega)]
  rfl

/-! ## What a reassembly is made of -/

/-- A reassembly that a fragment has just started. -/
structure Started (r : Reassembly) (frame : Packet) : Prop where
  gathered : r.Gathered []
  base : r.reassemblyBase = frame.ipv4Header.headersLen
  header : r.packet.window 0 r.reassemblyBase = frame.window 0 frame.ipv4Header.headersLen
  final : r.finalStart = 0

variable {frame : Packet}

theorem started_of_start (h : startReassembly frame.ipv4Header frame = .ok r) :
    Started r frame := by
  have hlen := headersLen_le frame
  obtain ⟨packet, happend, heq⟩ := bind_eq_ok h
  cases heq
  rw [append] at happend
  split at happend
  · cases happend
    have hlength : (((fromPointer 0 []).write (fromPointer 0 []).length
        (frame.window 0 frame.ipv4Header.headersLen)).setLength
        ((fromPointer 0 []).length +
          (frame.window 0 frame.ipv4Header.headersLen).length)).length =
        frame.ipv4Header.headersLen := by
      show ((0 + _) % 2 ^ 16) = _
      rw [length_window, Nat.zero_add, Nat.mod_eq_of_lt (by omega)]
    refine ⟨⟨⟨rfl, .refl _, .nil, .refl _⟩, by simp, by simp, rfl, hlength.ge, by simp, .inl hlength⟩,
      rfl, ?_, rfl⟩
    rw [window_setLength]
    exact window_write_self _ _ _ (length_window _ _ _).symm
  · cases happend

theorem gathered_accept {ps : List (Nat × Nat)} (hr : FitsBuffer conf r)
    (h : r.Gathered ps) (hcount : ps.length + 1 < 2 ^ 16)
    (hjoins : ¬ TurnedAway conf r frame.ipv4Header) (hsize : 0 ≤ frame.ipv4Header.fragSize) :
    (r.accept frame).Gathered (ps ++ [frame.ipv4Header.piece]) ∧
      (r.accept frame).reassemblyBase = r.reassemblyBase := by
  obtain ⟨size, hsize'⟩ := Int.eq_ofNat_of_zero_le hsize
  have hfits : r.reassemblyBase + (frame.ipv4Header.fragStart + size) ≤ maxPayload := by
    have hroom := (not_or.mp (not_or.mp hjoins).2).2
    omega
  have hpiece : frame.ipv4Header.piece =
      (frame.ipv4Header.fragStart, frame.ipv4Header.fragStart + size) := by
    rw [Ipv4Header.piece, hsize', Int.toNat_natCast]
  have hsmall : frame.ipv4Header.fragStart + size < 2 ^ 16 := by
    rw [maxPayload] at hfits
    omega
  obtain ⟨-, hbase, hpacket, hrunning⟩ := join_spec r frame.ipv4Header
  have hnoted := h.toNoted.note hsmall hcount
  rw [← hsize'] at hnoted
  have hjoined : (r.accept frame).Noted (ps ++ [frame.ipv4Header.piece]) := by
    rw [hpiece]
    simp only [Reassembly.accept, Reassembly.join]
    split
    · exact ⟨hnoted.count, hnoted.starts, hnoted.starts_sorted, hnoted.ends⟩
    · exact ⟨hnoted.count, hnoted.starts, hnoted.starts_sorted, hnoted.ends⟩
  rw [hpiece] at hjoined ⊢
  refine ⟨h.accept hfits hcount hjoined hbase ?_ ?_ hr.length, hbase⟩
  · simp only [Reassembly.accept, Reassembly.copyFragment, hrunning, hsize', Int.toNat_natCast]
  · simp only [Reassembly.accept, Reassembly.copyFragment, hbase, hpacket, hsize']
    rfl

/-- The packet of a reassembly has the headers of the first fragment, and behind them what was taken
from the fragments, which do not meet. -/
structure Carries (r : Reassembly) (first : Packet) (frames : List Packet) : Prop where
  gathered : r.Gathered (frames.map (·.ipv4Header.piece))
  base : r.reassemblyBase = first.ipv4Header.headersLen
  header : r.packet.window 0 r.reassemblyBase = first.window 0 r.reassemblyBase
  data : ∀ f ∈ frames, r.packet.window (r.reassemblyBase + f.ipv4Header.fragStart)
    f.ipv4Header.fragSize.toNat = f.window r.reassemblyBase f.ipv4Header.fragSize.toNat
  ends_sorted : (firsts r.fragmentEnds frames.length).Pairwise (· ≤ ·)
  final : r.finalStart ≠ 0 ↔ ∃ f ∈ frames, f.ipv4Header.isFinal

theorem Started.carries (h : Started r frame) : Carries r frame [] where
  gathered := h.gathered
  base := h.base
  header := by rw [h.header, h.base]
  data := nofun
  ends_sorted := .nil
  final := by simp [h.final]

theorem fragStart_pos {h : Ipv4Header} (hfragment : h.isFragment) (hfinal : h.isFinal) :
    0 < h.fragStart := by
  have hmask : ipv4IsFragmentMask = 2 ^ 14 - 1 := by decide
  have hoffset : ipv4FragmentOffsetMask = 2 ^ 13 - 1 := by decide
  have hmore : ipv4FlagMoreFragments = 2 ^ 1 - 1 := by decide
  rw [Ipv4Header.isFragment, hmask, Nat.and_two_pow_sub_one_eq_mod] at hfragment
  rw [Ipv4Header.isFinal, hmore, Nat.and_two_pow_sub_one_eq_mod, ipv4FragmentOffsetBits] at hfinal
  rw [Ipv4Header.fragStart, hoffset, Nat.and_two_pow_sub_one_eq_mod]
  omega

/-- **A fragment that meets no other one** is carried with them. -/
theorem Carries.accept {first frame : Packet} {frames : List Packet} (h : Carries r first frames)
    (hr : FitsBuffer conf r) (hcount : frames.length + 1 < 2 ^ 16)
    (hjoins : ¬ TurnedAway conf r frame.ipv4Header) (htakes : takesFragment frame)
    (hsize : 0 < frame.ipv4Header.fragSize)
    (hdisjoint : ∀ f ∈ frames, f.ipv4Header.piece.1 < f.ipv4Header.piece.2 ∧
      (f.ipv4Header.piece.2 ≤ frame.ipv4Header.piece.1 ∨
        frame.ipv4Header.piece.2 ≤ f.ipv4Header.piece.1)) :
    Carries (r.accept frame) first (frames ++ [frame]) := by
  obtain ⟨haccept, hbase⟩ :=
    gathered_accept hr h.gathered (by rwa [length_map]) hjoins hsize.le
  obtain ⟨size, hsize'⟩ := Int.eq_ofNat_of_zero_le hsize.le
  have hfits : r.reassemblyBase + (frame.ipv4Header.fragStart + size) ≤ maxPayload := by
    have hroom := (not_or.mp (not_or.mp hjoins).2).2
    omega
  have hsmall : frame.ipv4Header.fragStart + size < 2 ^ 16 := by
    rw [maxPayload] at hfits
    omega
  obtain ⟨-, hjbase, hjpacket, -⟩ := join_spec r frame.ipv4Header
  have hwindow (k n : Nat) : (r.accept frame).packet.window k n =
      (r.packet.write (r.reassemblyBase + frame.ipv4Header.fragStart)
        (frame.window r.reassemblyBase size)).window k n := by
    simp only [Reassembly.accept, Reassembly.copyFragment, hjbase, hjpacket, hsize',
      Int.toNat_natCast, window_setLength]
  refine ⟨by rwa [map_append], hbase.trans h.base, ?_, ?_, ?_, ?_⟩
  · rw [hbase, hwindow, window_write_disjoint _ (.inl (by omega)), h.header]
  · rw [hbase]
    refine forall_mem_append.mpr ⟨fun f hf => ?_, forall_mem_singleton.mpr ?_⟩
    · obtain ⟨-, hmeet⟩ := hdisjoint f hf
      simp only [Ipv4Header.piece] at hmeet
      rw [hwindow, window_write_disjoint _ (by rw [length_window]; omega),
        h.data f hf]
    · rw [hwindow, hsize']
      exact window_write_self _ _ _ (length_window _ _ _).symm
  · have hsorted := h.gathered.toNoted.note_ends_sorted
      (by rw [length_map]; exact h.ends_sorted) hsmall (by rwa [length_map])
      (by omega) (by
        intro p hp
        obtain ⟨f, hf, rfl⟩ := mem_map.mp hp
        obtain ⟨hpos, hmeet⟩ := hdisjoint f hf
        simp only [Ipv4Header.piece, hsize'] at hmeet hpos ⊢
        exact ⟨hpos, hmeet⟩)
    have hends : (r.accept frame).fragmentEnds =
        (r.noteFragment frame.ipv4Header.fragStart frame.ipv4Header.fragSize).fragmentEnds := by
      simp only [Reassembly.accept, Reassembly.join]
      split <;> rfl
    rw [length_map, ← hsize'] at hsorted
    rwa [hends, List.length_append]
  · have hfinal : (r.accept frame).finalStart =
        if frame.ipv4Header.isFinal then frame.ipv4Header.fragStart else r.finalStart := by
      simp only [Reassembly.accept, Reassembly.join]
      split
      · exact Reassembly.toUInt16_of_lt (by omega)
      · exact (noteFragment_spec r _ _).2.1
    rw [hfinal]
    by_cases hlast : frame.ipv4Header.isFinal
    · rw [if_pos hlast]
      refine iff_of_true (fragStart_pos htakes.2.2 hlast).ne' ⟨frame, ?_, hlast⟩
      exact mem_append_right _ (mem_singleton_self _)
    · rw [if_neg hlast, h.final]
      simp only [mem_append, mem_singleton]
      constructor
      · rintro ⟨f, hf, hf'⟩
        exact ⟨f, .inl hf, hf'⟩
      · rintro ⟨f, hf | rfl, hf'⟩
        · exact ⟨f, hf, hf'⟩
        · exact absurd hf' hlast

/-- The fragments that a reassembly is made of, in the order in which they arrived. -/
structure Collected (r : Reassembly) (frames : List Packet) : Prop where
  gathered : r.Gathered (frames.map (·.ipv4Header.piece))
  sizes : ∀ f ∈ frames, 0 ≤ f.ipv4Header.fragSize
  base : ∃ first ∈ frames.head?, r.reassemblyBase = first.ipv4Header.headersLen

end Reassembler

/-- A datagram that was emitted, and the fragments that it was made of. -/
structure Emission where
  key : FragmentKey
  frames : List Packet
  packet : Packet

/-- What is behind the headers of the first fragment is as long as the fragments are together, and
they tile it. -/
def Emission.Tiled (e : Emission) : Prop :=
  (∀ f ∈ e.frames, 0 ≤ f.ipv4Header.fragSize) ∧
    ∃ first ∈ e.frames.head?, first.ipv4Header.headersLen ≤ e.packet.length ∧
      Tiles (e.frames.map (·.ipv4Header.piece))
        (e.packet.length - first.ipv4Header.headersLen)

/-- The app, the fragments that the reassembly of a key is made of, and the datagrams that were
emitted. -/
structure ReassemblerUse where
  app : Reassembler
  heard : FragmentKey → List Packet
  emitted : List Emission

namespace ReassemblerUse

open Reassembler
export Reassembler (Collected)

def new : ReassemblerUse := ⟨.new, fun _ => [], []⟩

/-- The fragments that are in the reassembly which a fragment joins. -/
def before (u : ReassemblerUse) (h : Ipv4Header) : List Packet :=
  if (u.app.joined h).isSome then u.heard (fragmentKey h) else []

/-- One frame. -/
def step (conf : ReassemblerConf) (ipsum : List UInt8 → Nat) (u : ReassemblerUse)
    (a : FrameArrival) : Except ReassemblyFault ReassemblerUse := do
  let app ← receive conf ipsum u.app a
  if takesFragment a.frame then
    let key := fragmentKey a.frame.ipv4Header
    let frames := u.before a.frame.ipv4Header ++ [a.frame]
    let out := app.transmitted.drop u.app.transmitted.length
    return ⟨app, Function.update u.heard key frames, u.emitted ++ out.map (⟨key, frames, ·⟩)⟩
  else return { u with app := app }

variable {conf : ReassemblerConf} {ipsum : List UInt8 → Nat} {u u' : ReassemblerUse}
  {a : FrameArrival} {r : Reassembly} {key : FragmentKey} {app : Reassembler}

theorem step_takes (htakes : takesFragment a.frame) (hstep : step conf ipsum u a = .ok u') :
    receive conf ipsum u.app a = .ok u'.app ∧
      u'.heard = Function.update u.heard (fragmentKey a.frame.ipv4Header)
        (u.before a.frame.ipv4Header ++ [a.frame]) ∧
      u'.emitted = u.emitted ++ (u'.app.transmitted.drop u.app.transmitted.length).map
        (⟨fragmentKey a.frame.ipv4Header, u.before a.frame.ipv4Header ++ [a.frame], ·⟩) := by
  obtain ⟨app, happ, hrest⟩ := bind_eq_ok hstep
  rw [if_pos htakes] at hrest
  cases hrest
  exact ⟨happ, rfl, rfl⟩

theorem step_other (htakes : ¬ takesFragment a.frame) (hstep : step conf ipsum u a = .ok u') :
    receive conf ipsum u.app a = .ok u'.app ∧ u'.heard = u.heard ∧ u'.emitted = u.emitted := by
  obtain ⟨app, happ, hrest⟩ := bind_eq_ok hstep
  rw [if_neg htakes] at hrest
  cases hrest
  exact ⟨happ, rfl, rfl⟩

/-- The entries of the table are made of what was heard, and what was emitted was tiled. -/
structure Kept (conf : ReassemblerConf) (u : ReassemblerUse) : Prop where
  app : WellKept conf u.app
  entries : ∀ key r, u.app.ctab.lookup key = some r → Collected r (u.heard key)
  emitted : ∀ e ∈ u.emitted, e.Tiled

theorem kept_new : Kept conf new := ⟨wellKept_new, nofun, nofun⟩

theorem wellKept_step (hkept : WellKept conf u.app) (hstep : step conf ipsum u a = .ok u') :
    WellKept conf u'.app := by
  by_cases htakes : takesFragment a.frame
  · exact wellKept_receive hkept (step_takes htakes hstep).1
  · exact wellKept_receive hkept (step_other htakes hstep).1

theorem length_finishHeader_clone (ipsum : List UInt8 → Nat) (p : Packet) (base : Nat) :
    (finishHeader ipsum (.fromPointer base p.bytes)).length = p.length := by
  show p.bytes.length % 2 ^ 16 = p.length
  rw [length_bytes, Nat.mod_eq_of_lt p.length_lt]

theorem Kept.joins (h : u.Kept conf) (hjoined : Joins u.app a.frame r) :
    r.Gathered ((u.before a.frame.ipv4Header).map (·.ipv4Header.piece)) ∧
      (∀ f ∈ u.before a.frame.ipv4Header, 0 ≤ f.ipv4Header.fragSize) ∧
      (∃ first ∈ (u.before a.frame.ipv4Header ++ [a.frame]).head?,
        r.reassemblyBase = first.ipv4Header.headersLen) ∧ FitsBuffer conf r := by
  rcases hjoined with hsome | ⟨hnone, hstart⟩
  · have hcollected := h.entries _ _ hsome
    have hbefore : u.before a.frame.ipv4Header = u.heard (fragmentKey a.frame.ipv4Header) := by
      rw [before, hsome]
      rfl
    obtain ⟨first, hfirst, hbase⟩ := hcollected.base
    rw [hbefore]
    refine ⟨hcollected.gathered, hcollected.sizes, ⟨first, ?_, hbase⟩, h.app.entries _ _ hsome⟩
    rw [List.head?_append, hfirst]
    rfl
  · have hbefore : u.before a.frame.ipv4Header = [] := by
      rw [before, hnone]
      rfl
    have hstarted := started_of_start hstart
    obtain ⟨r', hr', hfits, -⟩ := startReassembly_spec conf a.frame
    obtain rfl := ok_unique hr' hstart
    rw [hbefore]
    exact ⟨hstarted.gathered, nofun, ⟨a.frame, rfl, hstarted.base⟩, hfits⟩

variable (hmax : conf.maxFragmentsPerReassembly < 2 ^ 16)
include hmax

theorem Kept.step (h : u.Kept conf)
    (hstep : ReassemblerUse.step conf ipsum u a = .ok u') : u'.Kept conf := by
  by_cases htakes : takesFragment a.frame
  · obtain ⟨hreceive, hheard, hemitted⟩ := step_takes htakes hstep
    obtain ⟨r, hjoined, hleaves, hhandled⟩ := receive_handled h.app htakes hreceive
    obtain ⟨hgathered, hsizes, hbase, hfits⟩ := h.joins hjoined
    have hothers : ∀ k v, k ≠ fragmentKey a.frame.ipv4Header → u'.app.ctab.lookup k = some v →
        Collected v (u'.heard k) := by
      intro k v hne hk
      rw [hheard, Function.update_of_ne hne]
      exact h.entries k v (hleaves.sub k v hne hk)
    -- the reassembly with the fragment
    have hcollected : ¬ TurnedAway conf r a.frame.ipv4Header → 0 ≤ a.frame.ipv4Header.fragSize →
        Collected (r.accept a.frame) (u.before a.frame.ipv4Header ++ [a.frame]) := by
      intro hjoins hsize
      have hcount := (not_or.mp hjoins).1
      rw [hgathered.count, length_map] at hcount
      obtain ⟨haccept, hsame⟩ := gathered_accept hfits hgathered
        (by rw [length_map]; omega) hjoins hsize
      refine ⟨?_, forall_mem_append.mpr ⟨hsizes, forall_mem_singleton.mpr hsize⟩, ?_⟩
      · rw [map_append]
        exact haccept
      · rw [hsame]
        exact hbase
    refine ⟨wellKept_receive h.app hreceive, fun k v hk => ?_, ?_⟩
    · by_cases hkey : k = fragmentKey a.frame.ipv4Header
      · subst hkey
        cases hhandled with
        | dropped _ hentry _ =>
          rw [hentry] at hk
          cases hk
        | gathering hjoins hsize _ hentry _ =>
          rw [hentry] at hk
          cases hk
          rw [hheard, Function.update_self]
          exact hcollected hjoins hsize
        | emitted _ _ _ _ hentry _ =>
          rw [hentry] at hk
          cases hk
      · exact hothers k v hkey hk
    · rw [hemitted]
      refine forall_mem_append.mpr ⟨h.emitted, ?_⟩
      cases hhandled with
      | dropped _ _ hout =>
        rw [hout, drop_length]
        exact nofun
      | gathering _ _ _ _ hout =>
        rw [hout, drop_length]
        exact nofun
      | emitted hjoins hsize hready hverify _ hout =>
        rw [hout, drop_left]
        refine forall_mem_singleton.mpr ?_
        have hcollected := hcollected hjoins hsize
        obtain ⟨first, hfirst, hbase'⟩ := hcollected.base
        refine ⟨hcollected.sizes, first, hfirst, ?_, ?_⟩
        · rw [length_finishHeader_clone, ← hbase']
          exact hcollected.gathered.base_le
        · have htiles := hcollected.gathered.tiles (by simp) hverify
          have hrunning := hcollected.gathered.running
          rw [hready.2] at hrunning
          rw [length_finishHeader_clone, ← hbase', hrunning, Nat.add_sub_cancel_left]
          exact htiles
  · obtain ⟨hreceive, hheard, hemitted⟩ := step_other htakes hstep
    refine ⟨wellKept_receive h.app hreceive, fun k v hk => ?_, ?_⟩
    · rw [receive_other htakes hreceive] at hk
      rw [hheard]
      exact h.entries k v hk
    · rw [hemitted]
      exact h.emitted

/-- **What is emitted is tiled by the fragments that it was made of**, whatever frames arrive. -/
theorem kept_run {arrivals : List FrameArrival}
    (hrun : run (ReassemblerUse.step conf ipsum) new arrivals = .ok u) : u.Kept conf :=
  run_inv (I := fun u _ => u.Kept conf) (P := fun _ _ => True)
    (fun _ _ _ _ h _ hstep => h.step hmax hstep) kept_new along_true hrun

end ReassemblerUse

/-! ## The fragments of a datagram -/

/-- Fragments of a datagram, in the order in which they arrive: they tile its payload, and each has
its part of it behind its own headers. There are not too many, and the datagram is not too long. -/
structure FragmentsOf (conf : ReassemblerConf) (key : FragmentKey) (payload : List UInt8)
    (first : Packet) (frames : List Packet) : Prop where
  takes : ∀ f ∈ frames, Reassembler.takesFragment f
  key : ∀ f ∈ frames, Reassembler.fragmentKey f.ipv4Header = key
  sizes : ∀ f ∈ frames, 0 < f.ipv4Header.fragSize
  tiles : Tiles (frames.map (·.ipv4Header.piece)) payload.length
  final : ∀ f ∈ frames, f.ipv4Header.isFinal ↔ f.ipv4Header.piece.2 = payload.length
  data : ∀ f ∈ frames, f.window f.ipv4Header.headersLen f.ipv4Header.fragSize.toNat =
    (payload.drop f.ipv4Header.fragStart).take f.ipv4Header.fragSize.toNat
  head : frames.head? = some first
  count : frames.length ≤ conf.maxFragmentsPerReassembly
  room : first.ipv4Header.headersLen + payload.length ≤ maxPayload

/-- The data of each fragment is also where it is taken from: behind as many bytes of its frame as
the headers of the first fragment have. -/
def SameData (first : Packet) (frames : List Packet) : Prop :=
  ∀ f ∈ frames, f.window first.ipv4Header.headersLen f.ipv4Header.fragSize.toNat =
    f.window f.ipv4Header.headersLen f.ipv4Header.fragSize.toNat

/-- A packet that has the headers of a datagram, and behind them what was taken from its
fragments. -/
structure Assembled (ipsum : List UInt8 → Nat) (first : Packet) (frames : List Packet) (n : Nat)
    (out : Packet) (data : List UInt8) : Prop where
  bytes : out.bytes = Reassembler.restoredHeader ipsum
    (first.window 0 first.ipv4Header.headersLen) n ++ data
  length : data.length = n
  parts : ∀ f ∈ frames, (data.drop f.ipv4Header.fragStart).take f.ipv4Header.fragSize.toNat =
    f.window first.ipv4Header.headersLen f.ipv4Header.fragSize.toNat

section Fragments

variable {conf : ReassemblerConf} {key : FragmentKey} {payload data : List UInt8}
  {first f g : Packet} {frames done rest : List Packet} {ipsum : List UInt8 → Nat} {n : Nat}
  {out : Packet}

theorem FragmentsOf.pos (h : FragmentsOf conf key payload first frames) :
    ∀ p ∈ frames.map (·.ipv4Header.piece), p.1 < p.2 := by
  intro p hp
  obtain ⟨f, hf, rfl⟩ := mem_map.mp hp
  have hsize := h.sizes f hf
  show f.ipv4Header.fragStart < f.ipv4Header.fragStart + f.ipv4Header.fragSize.toNat
  omega

theorem FragmentsOf.disjoint (h : FragmentsOf conf key payload first (done ++ f :: rest)) :
    ∀ g ∈ done, g.ipv4Header.piece.1 < g.ipv4Header.piece.2 ∧
      (g.ipv4Header.piece.2 ≤ f.ipv4Header.piece.1 ∨
        f.ipv4Header.piece.2 ≤ g.ipv4Header.piece.1) := by
  intro g hg
  refine ⟨h.pos _ (mem_map_of_mem (mem_append_left _ hg)), ?_⟩
  have hpairs := pairwise_map.mp (h.tiles.disjoint h.pos)
  exact (pairwise_append.mp hpairs).2.2 g hg f mem_cons_self

variable (h : FragmentsOf conf key payload first frames)
include h

/-- Some fragment is the final one. -/
theorem FragmentsOf.exists_final : ∃ f ∈ frames, f.ipv4Header.isFinal := by
  have hmem : first ∈ frames := mem_of_head? h.head
  have hpos := h.pos _ (mem_map_of_mem hmem)
  have hlarge := h.tiles.stop_le (mem_map_of_mem hmem) hpos
  have hcover : 0 < coverage (frames.map (·.ipv4Header.piece)) (payload.length - 1) := by
    rw [h.tiles, if_pos (by omega)]
    exact Nat.one_pos
  obtain ⟨p, hp, hin⟩ := countP_pos_iff.mp hcover
  obtain ⟨f, hf, rfl⟩ := mem_map.mp hp
  have hin := of_decide_eq_true hin
  have hle := h.tiles.stop_le hp (h.pos _ hp)
  exact ⟨f, hf, (h.final f hf).mpr (by omega)⟩

/-- **What was taken from the fragments is the payload** if and only if their data is there. -/
theorem FragmentsOf.data_eq_iff (hout : Assembled ipsum first frames payload.length out data) :
    data = payload ↔ SameData first frames := by
  constructor
  · rintro rfl f hf
    rw [h.data f hf, hout.parts f hf]
  · intro hsame
    have hparts : ∀ f ∈ frames, (data.drop f.ipv4Header.fragStart).take
        f.ipv4Header.fragSize.toNat =
        (payload.drop f.ipv4Header.fragStart).take f.ipv4Header.fragSize.toNat := by
      intro f hf
      rw [hout.parts f hf, hsame f hf, h.data f hf]
    refine ext_getElem? fun i => ?_
    rcases Nat.lt_or_ge i payload.length with hi | hi
    · have hcover : 0 < coverage (frames.map (·.ipv4Header.piece)) i := by
        rw [h.tiles, if_pos hi]
        exact Nat.one_pos
      obtain ⟨p, hp, hin⟩ := countP_pos_iff.mp hcover
      obtain ⟨f, hf, rfl⟩ := mem_map.mp hp
      have hin := of_decide_eq_true hin
      simp only [Ipv4Header.piece] at hin
      have hat := congrArg (fun xs => xs[i - f.ipv4Header.fragStart]?) (hparts f hf)
      simp only [List.getElem?_take_of_lt (show i - f.ipv4Header.fragStart <
        f.ipv4Header.fragSize.toNat by omega), List.getElem?_drop] at hat
      rwa [Nat.add_sub_cancel' hin.1] at hat
    · rw [List.getElem?_eq_none (by rw [hout.length]; exact hi), List.getElem?_eq_none hi]

theorem FragmentsOf.length_lt : frames.length < 2 ^ 16 := by
  have hlength := length_le_total h.pos
  have hroom := h.room
  rw [h.tiles.total_eq fun p hp => (h.pos p hp).le, length_map] at hlength
  rw [maxPayload] at hroom
  omega

end Fragments

namespace ReassemblerUse

open Reassembler

/-- What was emitted for a key. -/
def emittedFor (u : ReassemblerUse) (key : FragmentKey) : List Emission :=
  u.emitted.filter fun e => e.key = key

/-- The frame is a fragment with the key. -/
def Own (key : FragmentKey) (a : FrameArrival) : Prop :=
  takesFragment a.frame ∧ fragmentKey a.frame.ipv4Header = key

instance (key : FragmentKey) (a : FrameArrival) : Decidable (Own key a) :=
  inferInstanceAs (Decidable (_ ∧ _))

/-- How far a datagram has come after the fragments `done` have arrived. -/
inductive Phase (ipsum : List UInt8 → Nat) (key : FragmentKey) (n : Nat) (first : Packet)
    (frames : List Packet) (es : List Emission) (u : ReassemblerUse) : List Packet → Prop where
  | waiting (hentry : u.app.ctab.lookup key = none) (hout : u.emittedFor key = es) :
      Phase ipsum key n first frames es u []
  | gathering {r : Reassembly} {done : List Packet} (hentry : u.app.ctab.lookup key = some r)
      (hheard : u.heard key = done) (hcarries : Carries r first done) (hmore : done ≠ frames)
      (hout : u.emittedFor key = es) : Phase ipsum key n first frames es u done
  | finished {out : Packet} {data : List UInt8} (hentry : u.app.ctab.lookup key = none)
      (hassembled : Assembled ipsum first frames n out data)
      (hout : u.emittedFor key = es ++ [⟨key, frames, out⟩]) :
      Phase ipsum key n first frames es u frames

variable {conf : ReassemblerConf} {ipsum : List UInt8 → Nat} {u u' : ReassemblerUse}
  {a : FrameArrival} {key : FragmentKey} {payload : List UInt8} {first : Packet}
  {frames done rest : List Packet} {es : List Emission} {r : Reassembly} {n : Nat}

/-- **Other frames** change nothing, if they do not evict the reassembly. -/
theorem Phase.other (h : Phase ipsum key n first frames es u done) (hkept : WellKept conf u.app)
    (hown : ¬ Own key a) (hspares : Spares conf u.app a key)
    (hstep : step conf ipsum u a = .ok u') : Phase ipsum key n first frames es u' done := by
  obtain ⟨hentry, hheard, hout⟩ : u'.app.ctab.lookup key = u.app.ctab.lookup key ∧
      u'.heard key = u.heard key ∧ u'.emittedFor key = u.emittedFor key := by
    by_cases htakes : takesFragment a.frame
    · have hne : key ≠ fragmentKey a.frame.ipv4Header := fun heq => hown ⟨htakes, heq.symm⟩
      obtain ⟨hreceive, hheard, hemitted⟩ := step_takes htakes hstep
      obtain ⟨r, -, hleaves, -⟩ := receive_handled hkept htakes hreceive
      refine ⟨?_, by rw [hheard, Function.update_of_ne hne], ?_⟩
      · cases hlookup : u.app.ctab.lookup key with
        | some v => exact hleaves.spared key v hne hspares hlookup
        | none =>
          cases hlookup' : u'.app.ctab.lookup key with
          | none => rfl
          | some v =>
            rw [hleaves.sub key v hne hlookup'] at hlookup
            cases hlookup
      · rw [emittedFor, hemitted, filter_append]
        refine (congrArg (_ ++ ·) (filter_eq_nil_iff.mpr fun e he => ?_)).trans
          (append_nil _)
        obtain ⟨out, -, rfl⟩ := mem_map.mp he
        simpa using hne.symm
    · obtain ⟨hreceive, hheard, hemitted⟩ := step_other htakes hstep
      rw [receive_other htakes hreceive, hheard, emittedFor, hemitted]
      exact ⟨rfl, rfl, rfl⟩
  cases h with
  | waiting hentry' hout' => exact .waiting (hentry.trans hentry') (hout.trans hout')
  | gathering hentry' hheard' hcarries hmore hout' =>
    exact .gathering (hentry.trans hentry') (hheard.trans hheard') hcarries hmore
      (hout.trans hout')
  | finished hentry' hassembled hout' =>
    exact .finished (hentry.trans hentry') hassembled (hout.trans hout')

theorem Phase.joins (h : Phase ipsum key n first frames es u done)
    (hfragments : FragmentsOf conf key payload first (done ++ a.frame :: rest))
    (hframes : frames = done ++ a.frame :: rest) (hown : Own key a) (hkept : WellKept conf u.app)
    (hjoined : Joins u.app a.frame r) :
    Carries r first done ∧ u.before a.frame.ipv4Header = done ∧ u.emittedFor key = es ∧
      FitsBuffer conf r := by
  obtain ⟨htakes, rfl⟩ := hown
  cases h with
  | waiting hentry hout =>
    have hnone : u.app.joined a.frame.ipv4Header = none := hentry
    rcases hjoined with hsome | ⟨-, hstart⟩
    · rw [hnone] at hsome
      cases hsome
    · obtain rfl : a.frame = first := Option.some.inj hfragments.head
      obtain ⟨r', hr', hfits, -⟩ := startReassembly_spec conf a.frame
      obtain rfl := ok_unique hr' hstart
      refine ⟨(started_of_start hstart).carries, ?_, hout, hfits⟩
      rw [before, hnone]
      rfl
  | gathering hentry hheard hcarries _ hout =>
    have hsome : u.app.joined a.frame.ipv4Header = some _ := hentry
    rcases hjoined with hsome' | ⟨hnone, -⟩
    · obtain rfl := Option.mem_unique hsome hsome'
      refine ⟨hcarries, ?_, hout, hkept.entries _ _ hentry⟩
      rw [before, hsome]
      exact hheard
    · rw [hsome] at hnone
      cases hnone
  | finished =>
    have hlength := congrArg List.length hframes
    simp at hlength

/-- A packet of which the reassembly is complete, with the headers of the datagram. -/
theorem assembled_of_carries (ipsum : List UInt8 → Nat) (h : Carries r first frames)
    (hihl : 5 ≤ first.ipv4Header.ihl) (hlength : r.packet.length = r.reassemblyBase + n)
    (hle : ∀ f ∈ frames, f.ipv4Header.fragStart + f.ipv4Header.fragSize.toNat ≤ n) (base : Nat) :
    Assembled ipsum first frames n (finishHeader ipsum (.fromPointer base r.packet.bytes))
      (r.packet.window r.reassemblyBase n) := by
  obtain ⟨out, hout⟩ : ∃ out, out = fromPointer base r.packet.bytes := ⟨_, rfl⟩
  have hbytes : out.window 0 (r.reassemblyBase + n) = r.packet.window 0 (r.reassemblyBase + n) := by
    rw [hout, ← hlength]
    exact window_write_self ⟨base, defaultHeadroom, 0, fun _ => 0, by decide, by decide,
      by decide⟩ 0 r.packet.bytes (by rw [length_bytes])
  rw [window_add, window_add, Nat.zero_add] at hbytes
  obtain ⟨hheader, hdata⟩ := append_inj hbytes (by simp)
  rw [h.header] at hheader
  have hsame : out.ipv4Header.ihl = first.ipv4Header.ihl := by
    have hlarge : 15 ≤ r.reassemblyBase := by
      rw [h.base, Ipv4Header.headersLen]
      omega
    have hbyte := congrArg (fun xs => (xs.drop 14).take 1) hheader
    simp only [drop_window _ (show 14 ≤ r.reassemblyBase by omega),
      take_window _ (show 1 ≤ r.reassemblyBase - 14 by omega)] at hbyte
    show (out.byte 14).toNat &&& _ = (first.byte 14).toNat &&& _
    rw [show out.byte 14 = first.byte 14 from (List.cons.inj hbyte).1]
  have hheadersLen : out.ipv4Header.headersLen = r.reassemblyBase := by
    rw [h.base, Ipv4Header.headersLen, hsame]
    rfl
  have hlength' : out.length = out.ipv4Header.headersLen + n := by
    rw [hheadersLen, ← hlength, hout]
    show r.packet.bytes.length % 2 ^ 16 = r.packet.length
    rw [length_bytes, Nat.mod_eq_of_lt r.packet.length_lt]
  refine ⟨?_, length_window _ _ _, fun f hf => ?_⟩
  · rw [← hout, finishHeader_bytes ipsum out (hsame.symm ▸ hihl) hlength', hheadersLen, hheader,
      hdata, h.base]
  · have hf' := hle f hf
    rw [drop_window _ (by omega), take_window _ (by omega), h.data f hf, h.base]

/-- **The next fragment** of the datagram. After the last one it is complete, and not before. -/
theorem Phase.own (h : Phase ipsum key payload.length first frames es u done)
    (hfragments : FragmentsOf conf key payload first frames)
    (hframes : frames = done ++ a.frame :: rest) (hown : Own key a) (hkept : WellKept conf u.app)
    (hstep : step conf ipsum u a = .ok u') :
    Phase ipsum key payload.length first frames es u' (done ++ [a.frame]) := by
  have hparts := hframes ▸ hfragments
  obtain ⟨hreceive, hheard, hemitted⟩ := step_takes hown.1 hstep
  obtain ⟨r, hjoined, -, hhandled⟩ := receive_handled hkept hown.1 hreceive
  obtain ⟨hcarries, hbefore, hout, hfits⟩ := h.joins hparts hframes hown hkept hjoined
  have hmem : a.frame ∈ frames := hframes ▸ mem_append_right _ mem_cons_self
  have hlast := hparts.disjoint
  have hsize := hparts.sizes a.frame (mem_append_right _ mem_cons_self)
  have hstop := hfragments.tiles.stop_le (mem_map_of_mem hmem)
    (hfragments.pos _ (mem_map_of_mem hmem))
  have hlength := hfragments.length_lt
  have hcount := hfragments.count
  have hroom := hfragments.room
  rw [hframes, List.length_append, length_cons] at hlength hcount
  -- the fragment is not turned away
  have hjoins : ¬ TurnedAway conf r a.frame.ipv4Header := by
    rintro (hmany | ⟨hfinal, hsecond⟩ | hover)
    · rw [hcarries.gathered.count, length_map] at hmany
      omega
    · -- the final fragment has not arrived before
      obtain ⟨g, hg, hgfinal⟩ := hcarries.final.mp hsecond
      obtain ⟨hpos, hmeet⟩ := hlast g hg
      have hgstop := (hparts.final g (mem_append_left _ hg)).mp hgfinal
      have hastop := (hfragments.final a.frame hmem).mp hfinal
      have hapos := hfragments.pos _ (mem_map_of_mem hmem)
      omega
    · simp only [Ipv4Header.piece] at hstop
      rw [hcarries.base] at hover
      omega
  have haccept := hcarries.accept hfits (by omega) hjoins hown.1 hsize hlast
  have hready : (r.accept a.frame).Ready → rest = [] := by
    intro hready
    by_contra hrest
    obtain ⟨f, hf, hfinal⟩ := haccept.final.mp hready.1
    have hperm : ((done ++ [a.frame]).map (·.ipv4Header.piece) ++
        rest.map (·.ipv4Header.piece)).Perm (frames.map (·.ipv4Header.piece)) := by
      rw [hframes, ← map_append, append_assoc]
      exact .refl _
    refine haccept.gathered.incomplete hfragments.tiles hfragments.pos
      (fun hnil => hrest (map_eq_nil_iff.mp hnil)) hperm
      ⟨_, mem_map_of_mem hf, ?_⟩ hready.2
    refine (hfragments.final f ?_).mp hfinal
    rw [hframes]
    rcases mem_append.mp hf with hf | hf
    · exact mem_append_left _ hf
    · rw [mem_singleton.mp hf]
      exact mem_append_right _ mem_cons_self
  have hcomplete : rest = [] → frames = done ++ [a.frame] ∧ (r.accept a.frame).Ready ∧
      (r.accept a.frame).verifyValidOffsets ∧
      (r.accept a.frame).packet.length = (r.accept a.frame).reassemblyBase + payload.length := by
    rintro rfl
    have hfinal := haccept.final
    rw [← hframes] at haccept hfinal
    obtain ⟨hlength', hrunning, hverify⟩ := haccept.gathered.complete hfragments.tiles
      hfragments.pos (by rw [hframes]; simp) (by rw [length_map]; exact haccept.ends_sorted)
    exact ⟨hframes, ⟨hfinal.mpr hfragments.exists_final, hrunning⟩, hverify, hlength'⟩
  obtain ⟨htakes, rfl⟩ := hown
  cases hhandled with
  | dropped hwhy _ _ =>
    rcases hwhy with hturned | ⟨hready', hverify⟩
    · exact absurd hturned hjoins
    · exact absurd (hcomplete (hready hready')).2.2.1 hverify
  | gathering _ _ hopen hentry hsame =>
    have hmore : done ++ [a.frame] ≠ frames := by
      intro heq
      rw [hframes] at heq
      have hrest := (List.cons.inj (append_cancel_left heq)).2
      exact hopen (hcomplete hrest.symm).2.1
    refine .gathering hentry ?_ haccept hmore ?_
    · rw [hheard, Function.update_self, hbefore]
    · rw [← hout, emittedFor, hemitted, hsame, drop_length, map_nil, append_nil]
      rfl
  | emitted _ _ hready' _ hentry hmore =>
    obtain ⟨hall, -, -, hlength'⟩ := hcomplete (hready hready')
    rw [← hall] at haccept ⊢
    have hvalid := (hfragments.takes first (mem_of_head? hfragments.head)).2.1
    have hassembled := assembled_of_carries ipsum haccept hvalid.2.1 hlength'
      (fun f hf => hfragments.tiles.stop_le (mem_map_of_mem hf)
        (hfragments.pos _ (mem_map_of_mem hf))) a.base
    refine .finished hentry hassembled ?_
    rw [emittedFor, hemitted, hmore, drop_left, map_singleton, filter_append,
      hbefore, ← hall, ← hout, filter_singleton]
    simp only [decide_true]
    rfl

variable {arrivals : List FrameArrival}

/-- **The fragments of a datagram**, among other frames. -/
theorem Phase.run (h : Phase ipsum key payload.length first frames es u done)
    (hfragments : FragmentsOf conf key payload first frames) (hkept : WellKept conf u.app)
    (hframes : frames = done ++ (arrivals.filter (Own key)).map (·.frame))
    (hothers : Along (step conf ipsum) (fun u a => ¬ Own key a →
      Spares conf u.app a key ∧ ¬ Faults conf u.app a.frame) u arrivals)
    (hrun : Foundation.run (step conf ipsum) u arrivals = .ok u') :
    Phase ipsum key payload.length first frames es u' frames := by
  induction arrivals generalizing u done with
  | nil =>
    cases hrun
    rw [filter_nil, map_nil, append_nil] at hframes
    rwa [hframes] at h ⊢
  | cons a arrivals ih =>
    obtain ⟨u₁, hstep, hrest⟩ := run_cons_eq_ok hrun
    obtain ⟨hother, hothers⟩ := (along_cons_ok hstep).mp hothers
    have hkept' := wellKept_step hkept hstep
    by_cases hown : Own key a
    · rw [filter_cons_of_pos (by simpa using hown)] at hframes
      refine ih (h.own hfragments hframes hown hkept hstep) hkept' ?_ hothers hrest
      rw [hframes, append_assoc]
      rfl
    · rw [filter_cons_of_neg (by simpa using hown)] at hframes
      exact ih (h.other hkept hown (hother hown).1 hstep) hkept' hframes hothers hrest

/-- The fragments of a datagram arrive, among other frames, at a reassembler that has none of them
yet. The other frames do not evict their reassembly, and do not make the app fail. -/
structure Delivery (conf : ReassemblerConf) (ipsum : List UInt8 → Nat) (key : FragmentKey)
    (payload : List UInt8) (first : Packet) (frames : List Packet) (u : ReassemblerUse)
    (arrivals : List FrameArrival) : Prop where
  fragments : FragmentsOf conf key payload first frames
  reached : ∃ before, Foundation.run (step conf ipsum) new before = .ok u
  absent : u.app.ctab.lookup key = none
  arrived : (arrivals.filter (Own key)).map (·.frame) = frames
  others : Along (step conf ipsum) (fun u a => ¬ Own key a →
    Spares conf u.app a key ∧ ¬ Faults conf u.app a.frame) u arrivals

/-- A single packet is emitted for the datagram: the headers of the first fragment, restored, and
the payload. -/
def Delivered (ipsum : List UInt8 → Nat) (key : FragmentKey) (payload : List UInt8)
    (first : Packet) (frames : List Packet) (u u' : ReassemblerUse) : Prop :=
  ∃ out, u'.emittedFor key = u.emittedFor key ++ [⟨key, frames, out⟩] ∧
    out.bytes = restoredHeader ipsum (first.window 0 first.ipv4Header.headersLen) payload.length ++
      payload

theorem run_returns (hkept : WellKept conf u.app)
    (hsizes : ∀ a ∈ arrivals, Own key a → 0 < a.frame.ipv4Header.fragSize)
    (hothers : Along (step conf ipsum) (fun u a => ¬ Own key a →
      Spares conf u.app a key ∧ ¬ Faults conf u.app a.frame) u arrivals) :
    ∃ u', Foundation.run (step conf ipsum) u arrivals = .ok u' := by
  induction arrivals generalizing u with
  | nil => exact ⟨u, rfl⟩
  | cons a arrivals ih =>
    obtain ⟨hsize, hsizes⟩ := forall_mem_cons.mp hsizes
    have hfaults : ¬ Faults conf u.app a.frame := by
      by_cases hown : Own key a
      · rintro ⟨-, -, hneg⟩
        have hpos := hsize hown
        omega
      · exact (hothers.1 hown).2
    have hreceive := receive_spec ipsum hkept a
    rw [if_neg hfaults] at hreceive
    obtain ⟨app, happ, -⟩ := hreceive
    obtain ⟨u₁, hstep⟩ : ∃ u₁, step conf ipsum u a = .ok u₁ := by
      rw [step, bind_of_eq_ok happ]
      split <;> exact ⟨_, rfl⟩
    obtain ⟨u', hu'⟩ := ih (wellKept_step hkept hstep) hsizes ((along_cons_ok hstep).mp hothers).2
    exact ⟨u', (run_cons_ok hstep).trans hu'⟩

theorem Delivery.delivered_iff (h : Delivery conf ipsum key payload first frames u arrivals) :
    (∃ u', Foundation.run (step conf ipsum) u arrivals = .ok u' ∧
      Delivered ipsum key payload first frames u u') ↔ SameData first frames := by
  obtain ⟨before, hbefore⟩ := h.reached
  have hkept : WellKept conf u.app :=
    run_inv (I := fun u _ => WellKept conf u.app) (P := fun _ _ => True)
      (fun _ _ _ _ hkept _ hstep => wellKept_step hkept hstep) wellKept_new along_true hbefore
  have hsizes : ∀ a ∈ arrivals, Own key a → 0 < a.frame.ipv4Header.fragSize := by
    intro a ha hown
    refine h.fragments.sizes a.frame ?_
    rw [← h.arrived]
    exact mem_map_of_mem (mem_filter.mpr ⟨ha, by simpa using hown⟩)
  obtain ⟨u', hrun⟩ := run_returns hkept hsizes h.others
  have hphase : Phase ipsum key payload.length first frames (u.emittedFor key) u [] :=
    .waiting h.absent rfl
  obtain ⟨out, data, hassembled, hout⟩ : ∃ out data,
      Assembled ipsum first frames payload.length out data ∧
      u'.emittedFor key = u.emittedFor key ++ [⟨key, frames, out⟩] := by
    have hend := hphase.run h.fragments hkept h.arrived.symm h.others hrun
    generalize hdone : frames = done at hend
    cases hend with
    | waiting =>
      have hhead := h.fragments.head
      rw [hdone] at hhead
      cases hhead
    | gathering _ _ _ hmore _ => exact absurd rfl hmore
    | finished _ hassembled hout => exact ⟨_, _, hassembled, hout⟩
  rw [← h.fragments.data_eq_iff hassembled]
  constructor
  · rintro ⟨u'', hrun', out', hout', hbytes⟩
    obtain rfl := ok_unique hrun hrun'
    rw [hout] at hout'
    cases append_cancel_left hout'
    rw [hassembled.bytes] at hbytes
    exact append_cancel_left hbytes
  · rintro rfl
    exact ⟨u', hrun, out, hout, hassembled.bytes⟩

end ReassemblerUse

open ReassemblerUse in
/-- **Reassembly of IPv4 fragments.** Whatever arrives, what is emitted is tiled by the fragments
that it was made of. Fragments that tile a datagram become that datagram, in whatever order they
arrive, if and only if the data of each is also behind as many bytes of its frame as the headers of
the first one have. -/
theorem reassembled_iff (conf : ReassemblerConf) (ipsum : List UInt8 → Nat)
    (hmax : conf.maxFragmentsPerReassembly < 2 ^ 16) :
    (∀ arrivals u, run (step conf ipsum) new arrivals = .ok u → ∀ e ∈ u.emitted, e.Tiled) ∧
      ∀ key payload first frames u arrivals,
        Delivery conf ipsum key payload first frames u arrivals →
        ((∃ u', run (step conf ipsum) u arrivals = .ok u' ∧
          Delivered ipsum key payload first frames u u') ↔ SameData first frames) := by
  refine ⟨fun arrivals u hrun => (kept_run hmax hrun).emitted, ?_⟩
  exact fun key payload first frames u arrivals h => h.delivered_iff

namespace ReassemblerUse

open Reassembler

/-- The addresses and the id of the sample frames. -/
def sampleKey : FragmentKey := ⟨[10, 0, 0, 1], [10, 0, 0, 2], 7⟩

def samplePayload : List UInt8 := [1, 2, 3, 4, 5, 6, 7, 8, 9, 9]

/-- Two fragments of the sample payload arrive at a new reassembler. -/
theorem sample_delivery {a b : FrameArrival} (hown : Own sampleKey a ∧ Own sampleKey b)
    (hsizes : 0 < a.frame.ipv4Header.fragSize ∧ 0 < b.frame.ipv4Header.fragSize)
    (hperm : (samplePayload.length :: [a, b].map (·.frame.ipv4Header.piece.1)).Perm
      (0 :: [a, b].map (·.frame.ipv4Header.piece.2)))
    (hcontent : ∀ c ∈ [a, b],
      (c.frame.ipv4Header.isFinal ↔ c.frame.ipv4Header.piece.2 = samplePayload.length) ∧
      c.frame.window c.frame.ipv4Header.headersLen c.frame.ipv4Header.fragSize.toNat =
        (samplePayload.drop c.frame.ipv4Header.fragStart).take c.frame.ipv4Header.fragSize.toNat) :
    Delivery defaultConf (fun _ => 0) sampleKey samplePayload a.frame [a.frame, b.frame] new
      [a, b] := by
  have hall {P : Packet → Prop} (ha : P a.frame) (hb : P b.frame) :
      ∀ f ∈ [a.frame, b.frame], P f := by
    simpa using ⟨ha, hb⟩
  obtain ⟨⟨hafinal, hadata⟩, hbfinal, hbdata⟩ :=
    (⟨hcontent a (by simp), hcontent b (by simp)⟩ : _ ∧ _)
  refine ⟨⟨hall hown.1.1 hown.2.1, hall hown.1.2 hown.2.2, hall hsizes.1 hsizes.2, ?_,
    hall hafinal hbfinal, hall hadata hbdata, rfl, ?_, ?_⟩, ⟨[], rfl⟩, rfl, ?_, ?_⟩
  · refine (tiles_iff_perm fun p hp => ?_).mpr hperm
    obtain ⟨f, -, rfl⟩ := mem_map.mp hp
    exact Nat.le_add_right _ _
  · show 2 ≤ 40
    decide
  · have hlen := headersLen_le a.frame
    have hten : samplePayload.length = 10 := rfl
    rw [maxPayload]
    omega
  · rw [filter_cons_of_pos (by simpa using hown.1),
      filter_cons_of_pos (by simpa using hown.2)]
    rfl
  · have hvacuous : ∀ c ∈ [a, b], Own sampleKey c := by simpa using hown
    refine (along_of_forall hvacuous).mono fun u c hc hnot => absurd hc hnot

/-- The last fragment arrives first. -/
theorem reversed_fragments_reassembled :
    ∃ u', run (step defaultConf fun _ => 0) new
        [sampleFrame 5 22 1 [9, 9], sampleFrame 5 28 0x2000 [1, 2, 3, 4, 5, 6, 7, 8]] = .ok u' ∧
      Delivered (fun _ => 0) sampleKey samplePayload (sampleFrame 5 22 1 [9, 9]).frame
        [(sampleFrame 5 22 1 [9, 9]).frame,
          (sampleFrame 5 28 0x2000 [1, 2, 3, 4, 5, 6, 7, 8]).frame] new u' := by
  have hdelivery := sample_delivery (a := sampleFrame 5 22 1 [9, 9])
    (b := sampleFrame 5 28 0x2000 [1, 2, 3, 4, 5, 6, 7, 8]) (by decide +kernel)
    (by decide +kernel) (by decide +kernel) (by decide +kernel)
  refine ((reassembled_iff defaultConf (fun _ => 0) (show 40 < 2 ^ 16 by decide)).2 _ _ _ _ _ _
    hdelivery).mpr ?_
  rw [SameData]
  decide +kernel

/-- The data of a fragment with options is taken from its options if the first one has none. -/
theorem options_taken_for_data :
    ¬ ∀ key payload first frames u arrivals,
      Delivery defaultConf (fun _ => 0) key payload first frames u arrivals →
      ∃ u', run (step defaultConf fun _ => 0) u arrivals = .ok u' ∧
        Delivered (fun _ => 0) key payload first frames u u' := by
  intro h
  have hdelivery := sample_delivery (a := sampleFrame 5 28 0x2000 [1, 2, 3, 4, 5, 6, 7, 8])
    (b := sampleFrame 6 26 1 [9, 9]) (by decide +kernel)
    (by decide +kernel) (by decide +kernel) (by decide +kernel)
  have hsame := hdelivery.delivered_iff.mp (h _ _ _ _ _ _ hdelivery)
  rw [SameData] at hsame
  revert hsame
  decide +kernel

end ReassemblerUse

end Snabb
