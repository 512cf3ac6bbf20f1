import Snabb.Apps.Lwaftr.BindingTable
import Snabb.Lib.CTable.Streamer

/-!
# Batched softwire lookup (`apps/lwaftr/binding_table.lua`)

A lookup queue collects up to 128 packets with the address and the port to look up, looks
them all up at once with a streamer, and hands them out again with what was found. The
streamer is made once, together with the queue: it keeps the array of the hash table, its
hash function, its scale and the width of its windows as they are then.

Softwires may be added and removed while the queue exists. As long as this happens in the
array that the streamer has, the streamer sees it. A resize puts another array in its place,
with another hash function, and entries that are moved further away than ever before are
outside the windows. `Fresh` says that neither has happened.

- `batched_lookup_agrees`: in a run in which every batch finds the queue fresh, each packet
  comes with the value that a lookup in the table gives.
-/

namespace Snabb

open Foundation CTable List Option

variable {P : Type}

/-- A queue; its length is the number of packets. -/
structure BTLookupQueue (P : Type) where
  streamer : LookupStreamer SoftwireKey SoftwireValue
  packetQueue : List P

def btLookupQueueSize : Nat := 128

namespace BTLookupQueue

open BindingTable

/-- `BTLookupQueue.new`. -/
def new (bt : BindingTable) : Except BindingTableError (BTLookupQueue P) := do
  let streamer ← ofMessage (bt.softwires.makeLookupStreamer btLookupQueueSize)
  return ⟨streamer, []⟩

/-- `enqueue_lookup`. -/
def enqueueLookup (q : BTLookupQueue P) (pkt : P) (ipv4 port : Nat) :
    Except BindingTableError (BTLookupQueue P) :=
  if q.packetQueue.length < btLookupQueueSize then
    .ok ⟨{ q.streamer with
      entries := q.streamer.entries.modify q.packetQueue.length
        fun e => { e with key := ⟨ipv4, port⟩ } }, q.packetQueue ++ [pkt]⟩
  else
    .error (.message "BTLookupQueue overflow")

/-- The body of the loop of `process_queue`: the PSID takes the place of the port. -/
def setPsid (bt : BindingTable) (e : CTableEntry SoftwireKey SoftwireValue) :
    Except BindingTableError (CTableEntry SoftwireKey SoftwireValue) := do
  let psid ← bt.lookupPsid e.key.ipv4 e.key.psid
  return { e with key := ⟨e.key.ipv4, psid⟩ }

/-- `process_queue`. -/
def processQueue (conf : CTableConf SoftwireKey) (bt : BindingTable) (q : BTLookupQueue P) :
    Except BindingTableError (BTLookupQueue P) :=
  if q.packetQueue.length > 0 then do
    let decoded ← (q.streamer.entries.take q.packetQueue.length).mapM (setPsid bt)
    let streamer := { q.streamer with
      entries := decoded ++ q.streamer.entries.drop q.packetQueue.length }
    match streamer.stream conf with
    | .ok streamer => return { q with streamer := streamer }
    | .error fault => throw (.fault fault)
  else
    return q

/-- `get_lookup`. -/
def getLookup (q : BTLookupQueue P) (n : Nat) : Option (P × Option SoftwireValue) :=
  (q.packetQueue[n]?).map fun pkt => (pkt, q.streamer.result n)

/-- `reset_queue`. -/
def resetQueue (q : BTLookupQueue P) : BTLookupQueue P := { q with packetQueue := [] }

end BTLookupQueue

/-- What an update of the table means for a streamer: it has the array of the table, or that of
an earlier one with another hash function, which nobody writes to any more. -/
def LookupStreamer.observe {K V : Type} (s : LookupStreamer K V) (t : CTable K V) :
    LookupStreamer K V :=
  if t.seed = s.seed then { s with allEntries := t.entries } else s

/-- A packet with the address and the port to look up. -/
structure LookupRequest (P : Type) where
  pkt : P
  ipv4 : Nat
  port : Nat

/-- What happens to a binding table and a queue. -/
inductive LookupOp (P : Type) where
  | addSoftwireEntry (key : SoftwireKey) (value : SoftwireValue)
  | removeSoftwireEntry (key : SoftwireKey)
  | batch (requests : List (LookupRequest P))

/-- A binding table and a queue in use, what the queue has given for the packets, and what the
table would have given. -/
structure LookupUse (P : Type) where
  bt : BindingTable
  queue : BTLookupQueue P
  answers : List (Option (P × Option SoftwireValue))
  expected : List (Option (P × Option SoftwireValue))

namespace LookupUse

open BindingTable

/-- After an operation of the hash table, also where it has raised. -/
def updated {α : Type} (u : LookupUse P) :
    Except CTableFault (CTable SoftwireKey SoftwireValue × α) →
      Except BindingTableError (LookupUse P)
  | .ok (t, _) => .ok { u with
      bt := { u.bt with softwires := t }
      queue := { u.queue with streamer := u.queue.streamer.observe t } }
  | .error fault => .error (.fault fault)

/-- One operation; a batch is enqueued, processed, handed out and reset. -/
def step (conf : CTableConf SoftwireKey) (u : LookupUse P) :
    LookupOp P → Except BindingTableError (LookupUse P)
  | .addSoftwireEntry key value => u.updated (u.bt.softwires.add conf key value .no)
  | .removeSoftwireEntry key => u.updated (u.bt.softwires.remove conf key false)
  | .batch requests => do
    let queue ← requests.foldlM (fun q r => q.enqueueLookup r.pkt r.ipv4 r.port) u.queue
    let queue ← queue.processQueue conf u.bt
    let values ← requests.mapM fun r => u.bt.lookup conf r.ipv4 r.port
    return { u with
      queue := queue.resetQueue
      answers := u.answers ++ (List.range requests.length).map queue.getLookup
      expected := u.expected ++
        List.zipWith (fun r value => some (r.pkt, value)) requests values }

/-- A binding table and its queue, as the lwAFTR makes them when it starts. -/
def start (conf : CTableConf SoftwireKey) (softwire : List Softwire) :
    Except BindingTableError (LookupUse P) := do
  let bt ← load conf softwire
  let queue ← BTLookupQueue.new bt
  return ⟨bt, queue, [], []⟩

/-- The array of the table is that of the streamer, and no entry is outside the windows. -/
def Fresh (u : LookupUse P) : Prop :=
  u.bt.softwires.seed = u.queue.streamer.seed ∧
    u.bt.softwires.maxDisplacement < u.queue.streamer.entriesPerLookup

/-- Batches fit into the queue, look up 32-bit addresses, and find the queue fresh. -/
def Meets (u : LookupUse P) : LookupOp P → Prop
  | .addSoftwireEntry _ _ => True
  | .removeSoftwireEntry _ => True
  | .batch requests => requests.length ≤ btLookupQueueSize ∧
      (∀ r ∈ requests, r.ipv4 ≤ uint32Max) ∧ u.Fresh

end LookupUse

/-! ## One batch -/

namespace BTLookupQueue

open BindingTable

variable {conf : CTableConf SoftwireKey} {bt : BindingTable} {q : BTLookupQueue P}
  {requests : List (LookupRequest P)}

/-- The queue holds these requests, one after the other. -/
structure Queued (bt : BindingTable) (requests : List (LookupRequest P)) (q : BTLookupQueue P) :
    Prop where
  streams : LookupStreamer.Streams bt.softwires q.streamer
  width : q.streamer.width = btLookupQueueSize
  packets : q.packetQueue = requests.map LookupRequest.pkt
  keys : ∀ (i : Nat) r, requests[i]? = some r →
    ∃ e, q.streamer.entries[i]? = some e ∧ e.key = ⟨r.ipv4, r.port⟩

theorem Queued.enqueueLookup (h : Queued bt requests q) (hroom : requests.length < btLookupQueueSize)
    (r : LookupRequest P) :
    ∃ q', q.enqueueLookup r.pkt r.ipv4 r.port = .ok q' ∧ Queued bt (requests ++ [r]) q' := by
  have hlength : q.packetQueue.length = requests.length := by rw [h.packets, length_map]
  refine ⟨_, if_pos (hlength ▸ hroom), ?_, h.width, by rw [h.packets, map_append]; rfl, ?_⟩
  · refine ⟨h.streams.allEntries, h.streams.allocated, h.streams.wide, h.streams.inside,
      h.streams.size, h.streams.seed, ?_, h.streams.sentinel⟩
    rw [length_modify]
    exact h.streams.length
  · intro i x hx
    rcases Nat.lt_trichotomy i requests.length with hlt | rfl | hgt
    · rw [List.getElem?_append_left hlt] at hx
      obtain ⟨e, he, hkey⟩ := h.keys i x hx
      exact ⟨e, by rw [List.getElem?_modify_ne _ _ (by omega), he], hkey⟩
    · rw [List.getElem?_append_right le_rfl, Nat.sub_self] at hx
      cases hx
      have hin : requests.length < q.streamer.entries.length := by
        rw [h.streams.length, h.width]
        exact hroom
      refine ⟨{ q.streamer.entries[requests.length] with key := ⟨r.ipv4, r.port⟩ }, ?_, rfl⟩
      rw [hlength, List.getElem?_modify_eq, List.getElem?_eq_getElem hin]
      rfl
    · rw [List.getElem?_eq_none (by rw [List.length_append]; simp; omega)] at hx
      cases hx

theorem Queued.enqueueAll (h : Queued bt requests q) (more : List (LookupRequest P))
    (hroom : requests.length + more.length ≤ btLookupQueueSize) :
    ∃ q', more.foldlM (fun q r => q.enqueueLookup r.pkt r.ipv4 r.port) q = .ok q' ∧
      Queued bt (requests ++ more) q' := by
  induction more generalizing q requests with
  | nil => exact ⟨q, rfl, by rwa [append_nil]⟩
  | cons r more ih =>
    rw [length_cons] at hroom
    obtain ⟨q₁, hq₁, hqueued⟩ := h.enqueueLookup (by omega) r
    obtain ⟨q', hq', hall⟩ := ih hqueued (by rw [List.length_append, length_singleton]; omega)
    refine ⟨q', ?_, by rwa [append_assoc] at hall⟩
    rw [foldlM_cons, bind_of_eq_ok hq₁]
    exact hq'

/-- **A batch is looked up** as the map that the table holds says. -/
theorem Queued.processQueue {m : SoftwireKey → Option SoftwireValue}
    (hvalid : CTable.Valid conf bt.softwires) (hm : bt.softwires.Holds m) (h : Queued bt requests q)
    (psid : LookupRequest P → Nat)
    (hpsid : ∀ r ∈ requests, bt.lookupPsid r.ipv4 r.port = .ok (psid r)) :
    ∃ q', q.processQueue conf bt = .ok q' ∧ LookupStreamer.Streams bt.softwires q'.streamer ∧
      q'.streamer.width = btLookupQueueSize ∧ ∀ (i : Nat) r, requests[i]? = some r →
        q'.getLookup i = some (r.pkt, m ⟨r.ipv4, psid r⟩) := by
  have hlength : q.packetQueue.length = requests.length := by rw [h.packets, length_map]
  unfold BTLookupQueue.processQueue
  split
  · next hsome =>
    have hroom : requests.length ≤ q.streamer.entries.length := by
      by_contra hlt
      have hlast := List.getElem?_eq_getElem (l := requests) (i := q.streamer.entries.length)
        (by omega)
      obtain ⟨e, he, -⟩ := h.keys _ _ hlast
      rw [List.getElem?_eq_none le_rfl] at he
      cases he
    have htake : (q.streamer.entries.take requests.length).length = requests.length := by
      rw [length_take, Nat.min_eq_left hroom]
    -- the entries with the PSIDs in the place of the ports
    generalize hzip : List.zipWith
      (fun e r =>
        { e with key := SoftwireKey.mk r.ipv4 (psid r) })
      (q.streamer.entries.take requests.length) requests = decoded
    have hcount : decoded.length = requests.length := by
      rw [← hzip, length_zipWith, htake, Nat.min_self]
    have hdecoded : ∀ (i : Nat) e r, q.streamer.entries[i]? = some e → requests[i]? = some r →
        decoded[i]? = some { e with key := SoftwireKey.mk r.ipv4 (psid r) } := by
      intro i e r he hr
      obtain ⟨hi, -⟩ := List.getElem?_eq_some_iff.mp hr
      rw [← hzip, List.getElem?_zipWith, List.getElem?_take_of_lt hi, he, hr]
    have hloop : (q.streamer.entries.take requests.length).mapM (setPsid bt) = .ok decoded := by
      rw [mapM_eq_ok, forall₂_iff_get]
      refine ⟨htake.trans hcount.symm, fun i hi hi' => ?_⟩
      rw [hcount] at hi'
      have hr := List.getElem?_eq_getElem hi'
      obtain ⟨e, he, hkey⟩ := h.keys i _ hr
      have hread : (q.streamer.entries.take requests.length)[i]? = some e := by
        rw [List.getElem?_take_of_lt hi', he]
      have hwritten := hdecoded i e _ he hr
      rw [get_eq_getElem, get_eq_getElem,
        Option.mem_unique (List.getElem?_eq_getElem hi) hread,
        Option.mem_unique (List.getElem?_eq_getElem (hcount ▸ hi')) hwritten, setPsid,
        hkey, bind_of_eq_ok (hpsid _ (getElem_mem hi'))]
      rfl
    have hstreams : LookupStreamer.Streams bt.softwires { q.streamer with
        entries := decoded ++ q.streamer.entries.drop requests.length } := by
      refine ⟨h.streams.allEntries, h.streams.allocated, h.streams.wide, h.streams.inside,
        h.streams.size, h.streams.seed, ?_, h.streams.sentinel⟩
      have hall := h.streams.length
      show (decoded ++ q.streamer.entries.drop requests.length).length = q.streamer.width
      rw [List.length_append, length_drop]
      omega
    obtain ⟨s', hs', hstreams', hwidth', hresult⟩ := hstreams.stream hvalid hm
    rw [hlength, bind_of_eq_ok hloop]
    simp only
    rw [hs']
    refine ⟨{ q with streamer := s' }, rfl, hstreams', hwidth'.trans h.width, fun i r hr => ?_⟩
    obtain ⟨hi, -⟩ := List.getElem?_eq_some_iff.mp hr
    obtain ⟨e, he, -⟩ := h.keys i r hr
    have hentry : (decoded ++ q.streamer.entries.drop requests.length)[i]? =
        some { e with key := SoftwireKey.mk r.ipv4 (psid r) } := by
      rw [List.getElem?_append_left (by omega), hdecoded i e r he hr]
    have hvalue := hresult i _ hentry
    unfold BTLookupQueue.getLookup
    rw [h.packets, List.getElem?_map, hr, map_some, map_some, hvalue]
  · next hnone =>
    refine ⟨q, rfl, h.streams, h.width, fun i r hr => ?_⟩
    have hempty : requests = [] := eq_nil_of_length_eq_zero (by omega)
    rw [hempty] at hr
    cases hr

end BTLookupQueue

/-! ## Runs -/

namespace LookupUse

open BindingTable

variable {conf : CTableConf SoftwireKey} {u u' : LookupUse P}

/-- What holds between the operations. The streamer may have the array of an earlier table. -/
structure Kept (conf : CTableConf SoftwireKey) (u : LookupUse P) : Prop where
  valid : CTable.Valid conf u.bt.softwires
  positive : 0 < u.bt.softwires.size
  holds : ∃ m, u.bt.softwires.Holds m
  mapped : ∀ ipv4 ≤ uint32Max, ∃ info, u.bt.psidMap.lookup ipv4 = .ok info
  behind : u.queue.streamer.seed ≤ u.bt.softwires.seed
  shared : u.bt.softwires.seed = u.queue.streamer.seed →
    u.queue.streamer.allEntries = u.bt.softwires.entries ∧
      u.queue.streamer.allocated = u.bt.softwires.allocSize ∧
      u.queue.streamer.size = u.bt.softwires.size ∧
      u.queue.streamer.entriesPerLookup ≤ u.bt.softwires.size
  width : u.queue.streamer.width = btLookupQueueSize
  length : u.queue.streamer.entries.length = u.queue.streamer.width
  sentinel : u.queue.streamer.streamEntries
    (u.queue.streamer.width * u.queue.streamer.entriesPerLookup) = none
  idle : u.queue.packetQueue = []
  agree : u.answers = u.expected

theorem Kept.streams (h : Kept conf u) (hfresh : u.Fresh) :
    LookupStreamer.Streams u.bt.softwires u.queue.streamer := by
  obtain ⟨hentries, hallocated, hsize, hinside⟩ := h.shared hfresh.1
  exact ⟨hentries, hallocated, hfresh.2, hinside, hsize, hfresh.1.symm, h.length, h.sentinel⟩

theorem Kept.updated {α : Type} (h : Kept conf u) {t : CTable SoftwireKey SoftwireValue} {a : α}
    (hvalid : CTable.Valid conf t) (hholds : ∃ m, t.Holds m)
    (hsuccessor : CTable.Successor u.bt.softwires t) :
    ∃ u', u.updated (.ok (t, a)) = .ok u' ∧ Kept conf u' := by
  refine ⟨_, rfl, ?_⟩
  have hbehind := h.behind
  have hle := hsuccessor.seed_le
  unfold LookupStreamer.observe
  by_cases hseed : t.seed = u.queue.streamer.seed
  · -- the streamer's array is the table's, before and after
    have hsame : u.bt.softwires.seed = u.queue.streamer.seed := by omega
    have hsize := hsuccessor.same (hseed.trans hsame.symm)
    obtain ⟨-, hallocated, hsize', hinside⟩ := h.shared hsame
    rw [if_pos hseed]
    refine ⟨hvalid, hsuccessor.size_pos, hholds, h.mapped, hseed.ge, fun _ => ⟨rfl, ?_, ?_, ?_⟩,
      h.width, h.length, h.sentinel, h.idle, h.agree⟩
    · exact hallocated.trans (by rw [allocSize, allocSize, hsize])
    · exact hsize'.trans hsize.symm
    · exact hinside.trans hsize.ge
  · rw [if_neg hseed]
    exact ⟨hvalid, hsuccessor.size_pos, hholds, h.mapped, hbehind.trans hle,
      fun heq => absurd heq hseed, h.width, h.length, h.sentinel, h.idle, h.agree⟩

theorem Kept.batch (h : Kept conf u) {requests : List (LookupRequest P)}
    (hroom : requests.length ≤ btLookupQueueSize) (hipv4 : ∀ r ∈ requests, r.ipv4 ≤ uint32Max)
    (hfresh : u.Fresh) : ∃ u', u.step conf (.batch requests) = .ok u' ∧ Kept conf u' := by
  obtain ⟨m, hm⟩ := h.holds
  have hqueued : BTLookupQueue.Queued u.bt [] u.queue :=
    ⟨h.streams hfresh, h.width, h.idle, by simp⟩
  obtain ⟨q₁, hq₁, hqueued₁⟩ := hqueued.enqueueAll requests (by simpa using hroom)
  have hlookups : ∀ r : LookupRequest P, ∃ psid, r ∈ requests →
      u.bt.lookupPsid r.ipv4 r.port = .ok psid ∧
        u.bt.lookup conf r.ipv4 r.port = .ok (m ⟨r.ipv4, psid⟩) := by
    intro r
    by_cases hr : r ∈ requests
    · obtain ⟨info, hinfo⟩ := h.mapped r.ipv4 (hipv4 r hr)
      exact ⟨_, fun _ => lookup_eq h.valid hm h.positive hinfo r.port⟩
    · exact ⟨0, fun hin => absurd hin hr⟩
  choose psid hpsid using hlookups
  obtain ⟨q₂, hq₂, hstreams, hwidth, hanswers⟩ := hqueued₁.processQueue h.valid hm
    psid fun r hr => (hpsid r hr).1
  have hvalues : requests.mapM (fun r => u.bt.lookup conf r.ipv4 r.port) =
      .ok (requests.map fun r => m ⟨r.ipv4, psid r⟩) := by
    rw [mapM_eq_ok, forall₂_map_right_iff, forall₂_same]
    exact fun r hr => (hpsid r hr).2
  refine ⟨_, (bind_of_eq_ok hq₁).trans ((bind_of_eq_ok hq₂).trans (bind_of_eq_ok hvalues)), ?_⟩
  refine ⟨h.valid, h.positive, h.holds, h.mapped, hstreams.seed.le, fun _ =>
    ⟨hstreams.allEntries, hstreams.allocated, hstreams.size, hstreams.inside⟩, hwidth,
    hstreams.length, hstreams.sentinel, rfl, ?_⟩
  have hbatch : (List.range requests.length).map q₂.getLookup =
      List.zipWith (fun r value => some (r.pkt, value)) requests
        (requests.map fun r => m ⟨r.ipv4, psid r⟩) := by
    refine ext_getElem? fun i => ?_
    rw [List.getElem?_map, List.getElem?_zipWith, List.getElem?_map]
    rcases Nat.lt_or_ge i requests.length with hi | hi
    · have hr := List.getElem?_eq_getElem hi
      rw [List.getElem?_range hi, hr, map_some, hanswers i _ hr]
      rfl
    · rw [List.getElem?_eq_none hi, List.getElem?_eq_none (by rwa [length_range])]
      rfl
  exact congrArg₂ (· ++ ·) h.agree hbatch

/-- **One operation.** -/
theorem Kept.step (h : Kept conf u) {op : LookupOp P} (hmeets : u.Meets op) :
    ∃ u', u.step conf op = .ok u' ∧ Kept conf u' := by
  obtain ⟨m, hm⟩ := h.holds
  cases op with
  | addSoftwireEntry key value =>
    show ∃ u', u.updated (u.bt.softwires.add conf key value .no) = .ok u' ∧ Kept conf u'
    by_cases hcan : u.bt.softwires.CanAdd conf
    · obtain ⟨_, hspread, hlimited⟩ := h.valid.add hm hcan key value .no
      obtain ⟨t, r, heq, hvalid, hm', -, hsuccessor⟩ := hlimited.ok (hspread rfl)
      rw [heq]
      exact h.updated hvalid ⟨_, hm'⟩ (hsuccessor h.positive)
    · rw [add_refused hcan key value .no]
      exact h.updated h.valid h.holds ⟨h.positive, le_rfl, fun _ => rfl⟩
  | removeSoftwireEntry key =>
    obtain ⟨t, r, heq, hvalid, hm', hsuccessor, -⟩ :=
      (h.valid.remove hm h.positive key false).ok fun _ _ _ => .of_unlimited rfl _ _ _
    show ∃ u', u.updated (u.bt.softwires.remove conf key false) = .ok u' ∧ Kept conf u'
    rw [heq]
    exact h.updated hvalid ⟨_, hm'⟩ hsuccessor
  | batch requests => exact h.batch hmeets.1 hmeets.2.1 hmeets.2.2

theorem kept_start {softwire : List Softwire} (hipv4 : ∀ s ∈ softwire, s.ipv4 ≤ uint32Max)
    (hstart : start conf softwire = .ok u) : Kept conf u := by
  obtain ⟨bt, hload, hstart⟩ := bind_eq_ok hstart
  obtain ⟨queue, hqueue, hret⟩ := bind_eq_ok hstart
  obtain ⟨s, hmake, hret'⟩ := bind_eq_ok hqueue
  cases hret
  cases hret'
  obtain ⟨hvalid, hpositive, ⟨m, hm, -⟩, hmap⟩ := load_returned hload hipv4
  obtain ⟨hstreams, hwidth, -⟩ := LookupStreamer.streams_of_make hvalid (ofMessage_eq_ok hmake)
  exact ⟨hvalid, hpositive, ⟨m, hm⟩, fun ipv4 hle => (hmap ipv4 hle).imp fun _ h => h.1,
    hstreams.seed.le, fun _ => ⟨hstreams.allEntries, hstreams.allocated, hstreams.size,
      hstreams.inside⟩, hwidth, hstreams.length, hstreams.sentinel, rfl, rfl⟩

end LookupUse

/-- **Batched lookup agrees with the table.** In a run of updates and batches in which every
batch finds the queue fresh, the queue gives each packet with the value that a lookup in the
table gives at that time. -/
theorem batched_lookup_agrees (conf : CTableConf SoftwireKey) {softwire : List Softwire}
    (hipv4 : ∀ s ∈ softwire, s.ipv4 ≤ uint32Max) {u₀ : LookupUse P}
    (hstart : LookupUse.start conf softwire = .ok u₀) {ops : List (LookupOp P)}
    (hmeets : Along (LookupUse.step conf) LookupUse.Meets u₀ ops) :
    ∃ u, run (LookupUse.step conf) u₀ ops = .ok u ∧ u.answers = u.expected := by
  obtain ⟨u, hrun, hkept⟩ := run_total (I := fun u _ => LookupUse.Kept conf u)
    (fun u op ops hkept hop => LookupUse.Kept.step hkept hop) (LookupUse.kept_start hipv4 hstart)
    hmeets
  exact ⟨u, hrun, hkept.agree⟩

/-- Hash functions that spread the keys. -/
def spreadConf : CTableConf SoftwireKey :=
  softwireConf (fun seed key => (key.ipv4 + key.psid + seed) * 2 ^ 29 % hashMax)
    fun _ _ => Nat.mod_lt _ (by decide)

instance (u : LookupUse P) (op : LookupOp P) : Decidable (u.Meets op) :=
  match op with
  | .addSoftwireEntry _ _ => isTrue trivial
  | .removeSoftwireEntry _ => isTrue trivial
  | .batch _ => inferInstanceAs (Decidable (_ ∧ _ ∧ _ ∧ _))

/-- Lookups before and after an update that stays in the array. -/
theorem batched_lookup_agrees_sample :
    ∃ u₀ u : LookupUse Nat, LookupUse.start spreadConf BindingTable.sampleSoftwires = .ok u₀ ∧
      run (LookupUse.step spreadConf) u₀ [.batch [⟨0, 1, 0x8300⟩, ⟨1, 1, 0x8100⟩],
        .addSoftwireEntry ⟨1, 1⟩ ⟨7, 8⟩, .batch [⟨2, 1, 0x8100⟩], .removeSoftwireEntry ⟨1, 3⟩,
        .batch [⟨3, 1, 0x8300⟩]] = .ok u ∧ u.answers = u.expected := by
  obtain ⟨u₀, hstart, hmeets⟩ := ok_of_any
    (r := (LookupUse.start spreadConf BindingTable.sampleSoftwires : Except _ (LookupUse Nat)))
    (q := fun u => decide (Along (LookupUse.step spreadConf) LookupUse.Meets u
      [.batch [⟨0, 1, 0x8300⟩, ⟨1, 1, 0x8100⟩],
        .addSoftwireEntry ⟨1, 1⟩ ⟨7, 8⟩, .batch [⟨2, 1, 0x8100⟩], .removeSoftwireEntry ⟨1, 3⟩,
        .batch [⟨3, 1, 0x8300⟩]])) (by decide +kernel)
  obtain ⟨u, hrun, hagree⟩ :=
    batched_lookup_agrees spreadConf (by decide) hstart (of_decide_eq_true hmeets)
  exact ⟨u₀, u, hstart, hrun, hagree⟩

/-- The fifth softwire makes the table grow; the queue does not find it. -/
theorem resized_table_is_not_streamed :
    ∃ u₀ u : LookupUse Nat, LookupUse.start spreadConf BindingTable.sampleSoftwires = .ok u₀ ∧
      run (LookupUse.step spreadConf) u₀ [.addSoftwireEntry ⟨1, 1⟩ ⟨7, 8⟩,
        .addSoftwireEntry ⟨1, 2⟩ ⟨9, 10⟩, .batch [⟨0, 1, 0x8200⟩]] = .ok u ∧
      u.answers = [some (0, none)] ∧ u.expected = [some (0, some ⟨9, 10⟩)] := by
  obtain ⟨u₀, hstart, hnext⟩ := ok_of_any
    (r := (LookupUse.start spreadConf BindingTable.sampleSoftwires : Except _ (LookupUse Nat)))
    (q := fun u => (run (LookupUse.step spreadConf) u [.addSoftwireEntry ⟨1, 1⟩ ⟨7, 8⟩,
      .addSoftwireEntry ⟨1, 2⟩ ⟨9, 10⟩, .batch [⟨0, 1, 0x8200⟩]]).toOption.any
        fun u : LookupUse Nat => decide (u.answers = [some (0, none)] ∧
          u.expected = [some (0, some ⟨9, 10⟩)])) (by decide +kernel)
  obtain ⟨u, hrun, hresults⟩ := ok_of_any hnext
  exact ⟨u₀, u, hstart, hrun, of_decide_eq_true hresults⟩

end Snabb
