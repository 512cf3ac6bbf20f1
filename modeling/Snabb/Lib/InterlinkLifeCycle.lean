import Snabb.Foundation.Run
import Mathlib.Logic.Function.Basic

/-!
# The life cycle of interlinks (`lib/interlink.lua`, `attach` and `detach`)

Any number of processes attach to and detach from the queue that a name stands for. They
agree on who may do what by compare-and-swap on the state word of the queue. The process that
moves a queue to `DOWN` drains it and unlinks its name; the next process to open the name
creates a new queue.

A step of the model has at most one access to shared memory: the program of `attach` and
`detach` is cut at every compare-and-swap, and between two of them anything may happen. A
process is a number, and `Place` is where it is in its program.

What a process may rely on is a *claim* on a queue: while it configures the queue, and while
it is attached to it. A claim shows in the state word (`Claim.Shown`), and no two processes
have the same claim. Everything else follows from these two facts, which every step keeps
(`Kept.move`).

`attach` looks at the size of the queue only after it has made its transition, and the error
leaves the state word as it then is. `SizesAgree` is the condition that this does not happen.
-/

namespace Snabb

open Foundation List
open Function (update update_of_ne update_self)
open Option (some.inj mem_unique)

/-- The values of the state word. -/
inductive StateWord where
  | init
  | conf
  | free
  | rxup
  | txup
  | dxup
  | down
deriving DecidableEq, Repr

inductive Role where
  | receiver
  | transmitter
deriving DecidableEq, Repr

namespace Role

def other : Role → Role
  | receiver => transmitter
  | transmitter => receiver

/-- The state in which only this end has attached. -/
def up : Role → StateWord
  | receiver => .rxup
  | transmitter => .txup

/-- The transitions that the table of the module lists as valid. -/
def valid (role : Role) : StateWord → StateWord → Bool
  | .init, .conf => true
  | .conf, .free => true
  | .free, .rxup => role = receiver
  | .txup, .dxup => role = receiver
  | .dxup, .txup => role = receiver
  | .rxup, .down => role = receiver
  | .free, .txup => role = transmitter
  | .rxup, .dxup => role = transmitter
  | .dxup, .rxup => role = transmitter
  | .txup, .down => role = transmitter
  | _, _ => false

end Role

/-- A queue object in shared memory; of its packets only their number. -/
structure QueueObject where
  state : StateWord
  size : Nat
  queued : Nat
deriving DecidableEq, Repr

/-- Where a process is: in `attach` up to the check of the size, attached, or in `detach`. -/
inductive Place where
  | idle
  | opening (role : Role) (size : Nat)
  | initializing (role : Role) (size r : Nat)
  | configuring (role : Role) (size r : Nat)
  | configured (role : Role) (size r : Nat)
  | attachingFree (role : Role) (size r : Nat)
  | attachingReady (role : Role) (size r : Nat)
  | checking (role : Role) (size r : Nat)
  | attached (role : Role) (r : Nat)
  | resetting (role : Role) (r : Nat)
  | shuttingDown (role : Role) (r : Nat)
  | draining (role : Role) (r : Nat)
  /-- `attach` has raised. -/
  | failed
deriving DecidableEq, Repr

/-- What is done to a queue at the end of its life, and by whom. -/
inductive LifeEvent where
  | shutdown (p r : Nat)
  | drain (p r : Nat)
  | unlink (p r : Nat)
deriving DecidableEq, Repr

/-- The shared memory, the places of the processes, and the history. -/
structure LifeCycle where
  queues : Nat → QueueObject
  /-- How many queues were created. -/
  created : Nat
  /-- The queue that the name stands for. -/
  name : Option Nat
  place : Nat → Place
  /-- The transitions that a process has made in its call of `attach`. -/
  changes : Nat → List (StateWord × StateWord)
  log : List LifeEvent

/-- What happens next. -/
inductive LifeAction where
  | attach (p : Nat) (role : Role) (size : Nat)
  | advance (p : Nat)
  | detach (p : Nat)
  | insert (p : Nat)
  | extract (p : Nat)
  /-- `unlink` without draining: the packet module is not loaded. -/
  | unlink (p : Nat)
deriving DecidableEq, Repr

/-- The process that acts. -/
def LifeAction.process : LifeAction → Nat
  | attach p _ _ => p
  | advance p => p
  | detach p => p
  | insert p => p
  | extract p => p
  | unlink p => p

namespace LifeCycle

/-- No queue has been created, and every process is idle. -/
def new : LifeCycle where
  queues := fun _ => ⟨.init, 0, 0⟩
  created := 0
  name := none
  place := fun _ => .idle
  changes := fun _ => []
  log := []

def goto (s : LifeCycle) (p : Nat) (place : Place) : LifeCycle :=
  { s with place := update s.place p place }

/-- `sync.cas` on the state word of queue `r`, if it succeeds. -/
def cas (s : LifeCycle) (p r : Nat) (old new : StateWord) : Option LifeCycle :=
  if (s.queues r).state = old then
    some { s with
      queues := update s.queues r { s.queues r with state := new }
      changes := update s.changes p (s.changes p ++ [(old, new)]) }
  else none

/-- `shm.create`: open the queue, or create it. -/
def create (s : LifeCycle) : LifeCycle × Nat :=
  match s.name with
  | some r => (s, r)
  | none =>
    ({ s with
      queues := update s.queues s.created ⟨.init, 0, 0⟩
      created := s.created + 1
      name := some s.created }, s.created)

def setSize (s : LifeCycle) (r size : Nat) : LifeCycle :=
  { s with queues := update s.queues r { s.queues r with size := size } }

def setQueued (s : LifeCycle) (r queued : Nat) : LifeCycle :=
  { s with queues := update s.queues r { s.queues r with queued := queued } }

def record (s : LifeCycle) (e : LifeEvent) : LifeCycle := { s with log := s.log ++ [e] }

/-- `shm.unlink` of the name, whatever it stands for. -/
def unlinkName (s : LifeCycle) (p : Nat) : LifeCycle :=
  match s.name with
  | some r => { s with name := none, log := s.log ++ [.unlink p r] }
  | none => s

/-- The next step of a process in `attach` or `detach`. -/
def advance (s : LifeCycle) (p : Nat) : Option LifeCycle :=
  match s.place p with
  | .opening role size => some (s.create.1.goto p (.initializing role size s.create.2))
  | .initializing role size r =>
    match s.cas p r .init .conf with
    | some s => some (s.goto p (.configuring role size r))
    | none => some (s.goto p (.attachingFree role size r))
  | .configuring role size r => some ((s.setSize r size).goto p (.configured role size r))
  | .configured role size r =>
    match s.cas p r .conf .free with
    | some s => some (s.goto p (.attachingFree role size r))
    | none => some (s.goto p .failed)
  | .attachingFree role size r =>
    match s.cas p r .free role.up with
    | some s => some (s.goto p (.checking role size r))
    | none => some (s.goto p (.attachingReady role size r))
  | .attachingReady role size r =>
    match s.cas p r role.other.up .dxup with
    | some s => some (s.goto p (.checking role size r))
    -- unmap the queue and try again
    | none => some (s.goto p (.opening role size))
  | .checking role size r =>
    if (s.queues r).size = size then some (s.goto p (.attached role r))
    else some (s.goto p .failed)
  | .resetting role r =>
    match s.cas p r .dxup role.other.up with
    | some s => some (s.goto p .idle)
    | none => some (s.goto p (.shuttingDown role r))
  | .shuttingDown role r =>
    match s.cas p r role.up .down with
    | some s => some ((s.record (.shutdown p r)).goto p (.draining role r))
    | none => some (s.goto p (.resetting role r))
  | .draining _ r =>
    if 0 < (s.queues r).queued then
      some ((s.setQueued r ((s.queues r).queued - 1)).record (.drain p r))
    else some ((s.unlinkName p).goto p .idle)
  | _ => none

/-- `attach` asserts that the size is a power of two. -/
def sizeAccepted (size : Nat) : Bool := size &&& (size - 1) = 0

/-- An action, if it is possible. -/
def act (s : LifeCycle) : LifeAction → Option LifeCycle
  | .attach p role size =>
    if s.place p = .idle then
      some ({ s with changes := update s.changes p [] }.goto p
        (if sizeAccepted size then .opening role size else .failed))
    else none
  | .advance p => s.advance p
  | .detach p =>
    match s.place p with
    | .attached role r => some (s.goto p (.resetting role r))
    | _ => none
  | .insert p =>
    match s.place p with
    | .attached .transmitter r => some (s.setQueued r ((s.queues r).queued + 1))
    | _ => none
  | .extract p =>
    match s.place p with
    | .attached .receiver r => some (s.setQueued r ((s.queues r).queued - 1))
    | _ => none
  | .unlink p =>
    match s.place p with
    | .draining _ _ => some ((s.unlinkName p).goto p .idle)
    | _ => none

end LifeCycle

/-! ## Claims -/

/-- What a process may have on a queue: it configures it, or it is one of its ends. -/
inductive Claim where
  | conf
  | up (role : Role)
deriving DecidableEq, Repr

/-- The claim shows in the state word. -/
def Claim.Shown : Claim → StateWord → Prop
  | .conf, state => state = .conf
  | .up role, state => state = role.up ∨ state = .dxup

instance : ∀ (c : Claim) (state : StateWord), Decidable (c.Shown state)
  | .conf, state => inferInstanceAs (Decidable (state = .conf))
  | .up _, _ => inferInstanceAs (Decidable (_ ∨ _))

namespace Place

/-- The claim of a process, and the queue it is on. -/
def claim : Place → Option (Nat × Claim)
  | configuring _ _ r => some (r, .conf)
  | configured _ _ r => some (r, .conf)
  | checking role _ r => some (r, .up role)
  | attached role r => some (r, .up role)
  | resetting role r => some (r, .up role)
  | shuttingDown role r => some (r, .up role)
  | _ => none

/-- The queue that a process has opened. -/
def queue : Place → Option Nat
  | initializing _ _ r => some r
  | configuring _ _ r => some r
  | configured _ _ r => some r
  | attachingFree _ _ r => some r
  | attachingReady _ _ r => some r
  | checking _ _ r => some r
  | attached _ r => some r
  | resetting _ r => some r
  | shuttingDown _ r => some r
  | draining _ r => some r
  | _ => none

/-- The end of the queue as which a process acts. -/
def role : Place → Option Role
  | opening role _ => some role
  | initializing role _ _ => some role
  | configuring role _ _ => some role
  | configured role _ _ => some role
  | attachingFree role _ _ => some role
  | attachingReady role _ _ => some role
  | checking role _ _ => some role
  | attached role _ => some role
  | resetting role _ => some role
  | shuttingDown role _ => some role
  | draining role _ => some role
  | _ => none

theorem queue_of_claim {place : Place} {r : Nat} {c : Claim} (h : place.claim = some (r, c)) :
    place.queue = some r := by
  cases place <;> cases h <;> rfl

end Place

namespace LifeCycle

/-- The processes that have moved a queue to `DOWN`. -/
def shutdowns (s : LifeCycle) (r : Nat) : List Nat :=
  s.log.filterMap fun e => match e with
    | .shutdown p r' => if r' = r then some p else none
    | _ => none

/-- The shared memory: a queue that is not down is the one that the name stands for, and what is
done at the end of its life is done by the one process that has moved it to `DOWN`. -/
structure Shared (s : LifeCycle) : Prop where
  linked : ∀ r, r < s.created → (s.queues r).state ≠ .down → s.name = some r
  named : ∀ r, s.name = some r → r < s.created
  alive : ∀ r, (r < s.created → (s.queues r).state ≠ .down) → s.shutdowns r = []
  logged : ∀ p r, .drain p r ∈ s.log ∨ .unlink p r ∈ s.log →
    r < s.created ∧ (s.queues r).state = .down ∧ s.shutdowns r = [p]

/-- What a process at a place may rely on. -/
structure Standing (s : LifeCycle) (p : Nat) (place : Place) : Prop where
  opened : ∀ r, place.queue = some r → r < s.created
  shown : ∀ r c, place.claim = some (r, c) → c.Shown (s.queues r).state
  draining : ∀ role r, place = .draining role r →
    (s.queues r).state = .down ∧ s.shutdowns r = [p] ∧ s.name = some r

/-- What every step keeps. -/
structure Kept (s : LifeCycle) : Prop where
  shared : Shared s
  standing : ∀ p, Standing s p (s.place p)
  exclusive : ∀ p p' k, (s.place p).claim = some k → (s.place p').claim = some k → p = p'

variable {s t : LifeCycle} {p r : Nat} {old new : StateWord} {place : Place}

theorem kept_new : Kept LifeCycle.new where
  shared := ⟨nofun, nofun, fun _ _ => rfl, fun p r h => by rcases h with h | h <;> cases h⟩
  standing _ := ⟨nofun, nofun, nofun⟩
  exclusive := nofun

/-- A process changes the shared memory and goes on. The others keep their standing, and none of
them has the claim that the process now has. -/
theorem Kept.step (h : Kept s) (hplace : t.place = s.place) (hshared : Shared t)
    (hothers : ∀ p', p' ≠ p → Standing t p' (s.place p')) (hself : Standing t p place)
    (hclaim : ∀ p', p' ≠ p → ∀ k, place.claim = some k → (s.place p').claim ≠ some k) :
    Kept (t.goto p place) where
  shared := ⟨hshared.linked, hshared.named, hshared.alive, hshared.logged⟩
  standing p' := by
    have hgoto : Standing t p' (update t.place p place p') := by
      rcases eq_or_ne p' p with rfl | hne
      · rwa [update_self]
      · rw [update_of_ne hne, hplace]
        exact hothers p' hne
    exact ⟨hgoto.opened, hgoto.shown, hgoto.draining⟩
  exclusive p₁ p₂ k h₁ h₂ := by
    simp only [LifeCycle.goto, hplace] at h₁ h₂
    rcases eq_or_ne p₁ p with rfl | hne₁
    · rw [update_self] at h₁
      rcases eq_or_ne p₂ p₁ with rfl | hne₂
      · rfl
      · rw [update_of_ne hne₂] at h₂
        exact absurd h₂ (hclaim p₂ hne₂ k h₁)
    · rw [update_of_ne hne₁] at h₁
      rcases eq_or_ne p₂ p with rfl | hne₂
      · rw [update_self] at h₂
        exact absurd h₁ (hclaim p₁ hne₁ k h₂)
      · rw [update_of_ne hne₂] at h₂
        exact h.exclusive p₁ p₂ k h₁ h₂

theorem Kept.claim_ne (h : Kept s) {k : Nat × Claim} (hk : (s.place p).claim = some k) {p' : Nat}
    (hne : p' ≠ p) : (s.place p').claim ≠ some k := fun hk' => hne (h.exclusive p' p k hk' hk)

/-- A process goes on without an access to the shared memory, and without a new claim. -/
theorem Kept.goto (h : Kept s) (hself : Standing s p place)
    (hclaim : place.claim = none ∨ place.claim = (s.place p).claim) : Kept (s.goto p place) := by
  refine h.step rfl h.shared (fun p' _ => h.standing p') hself ?_
  intro p' hne k hk
  rcases hclaim with hnone | heq
  · rw [hnone] at hk
    cases hk
  · exact h.claim_ne (heq ▸ hk) hne

/-! ## Compare-and-swap -/

theorem cas_eq_some (h : s.cas p r old new = some t) :
    (s.queues r).state = old ∧
      t = { s with
        queues := update s.queues r { s.queues r with state := new }
        changes := update s.changes p (s.changes p ++ [(old, new)]) } := by
  rw [cas] at h
  split at h
  · next heq => exact ⟨heq, (some.inj h).symm⟩
  · cases h

theorem state_update (queues : Nat → QueueObject) (r r' : Nat) (state : StateWord) :
    (update queues r { queues r with state := state } r').state =
      if r' = r then state else (queues r').state := by
  by_cases heq : r' = r
  · rw [if_pos heq, heq, update_self]
  · rw [if_neg heq, update_of_ne heq]

/-- **A transition between states in which the queue is alive.** The other claims on the queue
still show, and the process that makes it may have a claim that did not show before. -/
theorem Kept.cas (h : Kept s) (hcas : s.cas p r old new = some t) (hr : r < s.created)
    (hold : old ≠ .down) (hnew : new ≠ .down)
    (hothers : ∀ c : Claim, c.Shown old → c.Shown new ∨ (s.place p).claim = some (r, c))
    (hqueue : ∀ r', place.queue = some r' → r' = r)
    (hclaim : ∀ r' c, place.claim = some (r', c) → r' = r ∧ c.Shown new ∧ ¬ c.Shown old)
    (hdraining : ∀ role r, place ≠ .draining role r) : Kept (t.goto p place) := by
  obtain ⟨hstate, rfl⟩ := cas_eq_some hcas
  have hdown : ∀ r', (update s.queues r { s.queues r with state := new } r').state = .down ↔
      (s.queues r').state = .down := by
    intro r'
    rw [state_update]
    split
    · next heq =>
      rw [heq, hstate]
      exact ⟨fun hn => absurd hn hnew, fun ho => absurd ho hold⟩
    · rfl
  refine h.step rfl ⟨?_, h.shared.named, ?_, ?_⟩ ?_ ⟨?_, ?_, ?_⟩ ?_
  · exact fun r' hr' halive => h.shared.linked r' hr' (mt (hdown r').mpr halive)
  · exact fun r' halive => h.shared.alive r' fun hr' => mt (hdown r').mpr (halive hr')
  · intro p' r' hlog
    obtain ⟨hlt, hd, hp⟩ := h.shared.logged p' r' hlog
    exact ⟨hlt, (hdown r').mpr hd, hp⟩
  · intro p' hne
    have hstand := h.standing p'
    refine ⟨hstand.opened, fun r' c hc => ?_, fun role r' hd => ?_⟩
    · have hshown := hstand.shown r' c hc
      rw [state_update]
      split
      · next heq =>
        subst heq
        rcases hothers c (hstate ▸ hshown) with hnew' | hown
        · exact hnew'
        · exact absurd hc (h.claim_ne hown hne)
      · exact hshown
    · obtain ⟨hd', hp⟩ := hstand.draining role r' hd
      exact ⟨(hdown r').mpr hd', hp⟩
  · intro r' hr'
    rw [hqueue r' hr']
    exact hr
  · intro r' c hc
    obtain ⟨rfl, hshown, -⟩ := hclaim r' c hc
    rw [state_update, if_pos rfl]
    exact hshown
  · exact fun role r' hd => absurd hd (hdraining role r')
  · rintro p' - ⟨r', c⟩ hc hc'
    obtain ⟨rfl, -, hnot⟩ := hclaim r' c hc
    exact hnot (hstate ▸ (h.standing p').shown r' c hc')

/-! ## The other accesses -/

theorem shutdowns_record (s : LifeCycle) (e : LifeEvent) (r : Nat) :
    (s.record e).shutdowns r = s.shutdowns r ++
      (match e with
        | .shutdown p r' => if r' = r then [p] else []
        | _ => []) := by
  simp only [shutdowns, record, filterMap_append]
  congr 1
  cases e with
  | shutdown p r' => by_cases heq : r' = r <;> simp [heq]
  | drain p r' => rfl
  | unlink p r' => rfl

theorem Standing.congr (h : Standing s p place)
    (hstate : ∀ r, (t.queues r).state = (s.queues r).state) (hcreated : t.created = s.created)
    (hname : t.name = s.name) (hshut : ∀ r, t.shutdowns r = s.shutdowns r) : Standing t p place where
  opened r hr := hcreated ▸ h.opened r hr
  shown r c hc := hstate r ▸ h.shown r c hc
  draining role r hd := by
    rw [hstate, hshut, hname]
    exact h.draining role r hd

theorem Shared.congr (h : Shared s) (hstate : ∀ r, (t.queues r).state = (s.queues r).state)
    (hcreated : t.created = s.created) (hname : t.name = s.name) (hlog : t.log = s.log) :
    Shared t where
  linked r := by
    rw [hstate, hcreated, hname]
    exact h.linked r
  named r := by
    rw [hcreated, hname]
    exact h.named r
  alive r := by
    rw [hstate, hcreated, shutdowns, hlog]
    exact h.alive r
  logged p r := by
    rw [hstate, hcreated, shutdowns, hlog]
    exact h.logged p r

theorem state_setSize (s : LifeCycle) (r size r' : Nat) :
    ((s.setSize r size).queues r').state = (s.queues r').state := by
  by_cases heq : r' = r
  · subst heq
    simp only [setSize, update_self]
  · simp only [setSize, update_of_ne heq]

theorem state_setQueued (s : LifeCycle) (r queued r' : Nat) :
    ((s.setQueued r queued).queues r').state = (s.queues r').state := by
  by_cases heq : r' = r
  · subst heq
    simp only [setQueued, update_self]
  · simp only [setQueued, update_of_ne heq]

theorem Kept.setSize (h : Kept s) (size : Nat) (hself : Standing s p place)
    (hclaim : place.claim = (s.place p).claim) : Kept ((s.setSize r size).goto p place) := by
  have hstate := state_setSize s r size
  refine h.step rfl (h.shared.congr hstate rfl rfl rfl)
    (fun p' _ => (h.standing p').congr hstate rfl rfl fun _ => rfl)
    (hself.congr hstate rfl rfl fun _ => rfl) ?_
  exact fun p' hne k hk => h.claim_ne (hclaim ▸ hk) hne

theorem Kept.setQueued (h : Kept s) (r queued : Nat) : Kept (s.setQueued r queued) where
  shared := h.shared.congr (state_setQueued s r queued) rfl rfl rfl
  standing p := (h.standing p).congr (state_setQueued s r queued) rfl rfl fun _ => rfl
  exclusive := h.exclusive

variable {role : Role} {c : Claim} {yes no : Place} {a : LifeAction}

/-- The process that has moved a queue to `DOWN` drains it. -/
theorem Kept.drain (h : Kept s) (hplace : s.place p = .draining role r)
    (queued : Nat) : Kept ((s.setQueued r queued).record (.drain p r)) := by
  have hset := h.setQueued r queued
  obtain ⟨hdown, hshut, -⟩ := (hset.standing p).draining role r hplace
  have hlt := (hset.standing p).opened r (by rw [show (s.setQueued r queued).place p = _ from hplace]; rfl)
  generalize s.setQueued r queued = s at *
  have hsame : ∀ r', (s.record (.drain p r)).shutdowns r' = s.shutdowns r' := by
    intro r'
    rw [shutdowns_record, append_nil]
  refine ⟨⟨hset.shared.linked, hset.shared.named, fun r' ha => ?_, fun p' r' hlog => ?_⟩,
    fun p' => (hset.standing p').congr (fun _ => rfl) rfl rfl hsame, hset.exclusive⟩
  · rw [hsame]
    exact hset.shared.alive r' ha
  · rw [hsame]
    have hcases : (.drain p' r' ∈ s.log ∨ .unlink p' r' ∈ s.log) ∨ p' = p ∧ r' = r := by
      simpa [record, or_comm, or_assoc] using hlog
    rcases hcases with hold | ⟨rfl, rfl⟩
    · exact hset.shared.logged p' r' hold
    · exact ⟨hlt, hdown, hshut⟩

theorem queues_unlinkName (s : LifeCycle) (p : Nat) : (s.unlinkName p).queues = s.queues := by
  rw [LifeCycle.unlinkName]
  split <;> rfl

theorem created_unlinkName (s : LifeCycle) (p : Nat) : (s.unlinkName p).created = s.created := by
  rw [LifeCycle.unlinkName]
  split <;> rfl

/-- The process that has moved a queue to `DOWN` unlinks it, and nothing else. -/
theorem Kept.unlinkName (h : Kept s) (hplace : s.place p = .draining role r) :
    Kept ((s.unlinkName p).goto p .idle) := by
  obtain ⟨hdown, hshut, hname⟩ := (h.standing p).draining role r hplace
  have heq : s.unlinkName p = { s with name := none, log := s.log ++ [.unlink p r] } := by
    rw [LifeCycle.unlinkName, hname]
  have hlt := h.shared.named r hname
  have hsame : ∀ r', (s.unlinkName p).shutdowns r' = s.shutdowns r' := by
    intro r'
    rw [heq]
    exact (shutdowns_record s (.unlink p r) r').trans (append_nil _)
  have hqueues := queues_unlinkName s p
  have hcreated := created_unlinkName s p
  refine h.step (by rw [heq]) ⟨fun r' hr' ha => ?_, fun r' hn => ?_, fun r' ha => ?_,
    fun p' r' hlog => ?_⟩ (fun p' hne => ⟨fun r' hr' => ?_, fun r' c hc => ?_,
      fun role' r' hd => ?_⟩) ⟨nofun, nofun, nofun⟩ (fun _ _ k hk => by cases hk)
  · rw [hqueues] at ha
    rw [hcreated] at hr'
    obtain rfl : r = r' := mem_unique hname (h.shared.linked r' hr' ha)
    exact absurd hdown ha
  · rw [heq] at hn
    cases hn
  · rw [hqueues, hcreated] at ha
    rw [hsame]
    exact h.shared.alive r' ha
  · rw [hqueues, hcreated, hsame]
    have hcases : (.drain p' r' ∈ s.log ∨ .unlink p' r' ∈ s.log) ∨ p' = p ∧ r' = r := by
      simpa [heq, or_assoc] using hlog
    rcases hcases with hold | ⟨rfl, rfl⟩
    · exact h.shared.logged p' r' hold
    · exact ⟨hlt, hdown, hshut⟩
  · rw [hcreated]
    exact (h.standing p').opened r' hr'
  · rw [hqueues]
    exact (h.standing p').shown r' c hc
  · -- a second process that drains would have moved the same queue to `DOWN`
    obtain ⟨-, hshut', hname'⟩ := (h.standing p').draining role' r' hd
    obtain rfl : r = r' := mem_unique hname hname'
    exact absurd (List.cons.inj (hshut'.symm.trans hshut)).1 hne

/-- In the state in which one end has attached, only this end has a claim. -/
theorem eq_up_of_shown (h : c.Shown role.up) : c = .up role := by
  cases c with
  | conf => cases role <;> cases h
  | up role' => cases role <;> cases role' <;> first | rfl | (rcases h with h | h <;> cases h)

/-- **The last end to detach** moves the queue to `DOWN` and is the one to drain it. -/
theorem Kept.shutdown (h : Kept s) (hcas : s.cas p r role.up .down = some t)
    (hplace : (s.place p).claim = some (r, .up role)) (hr : r < s.created) :
    Kept ((t.record (.shutdown p r)).goto p (.draining role r)) := by
  obtain ⟨hstate, rfl⟩ := cas_eq_some hcas
  have halive : (s.queues r).state ≠ .down := by
    rw [hstate]
    cases role <;> decide
  have hnone := h.shared.alive r fun _ => halive
  generalize ht : LifeCycle.record _ (.shutdown p r) = t
  have hcreated : t.created = s.created := by rw [← ht]; rfl
  have hname : t.name = s.name := by rw [← ht]; rfl
  have hlog : t.log = s.log ++ [.shutdown p r] := by rw [← ht]; rfl
  have hstate' : ∀ r', (t.queues r').state = if r' = r then .down else (s.queues r').state := by
    intro r'
    rw [← ht]
    exact state_update s.queues r r' .down
  have hshut : ∀ r', t.shutdowns r' = s.shutdowns r' ++ if r = r' then [p] else [] := by
    intro r'
    rw [← ht]
    exact shutdowns_record _ (.shutdown p r) r'
  -- a queue that was down before is another one, and nothing happens to it
  have hother : ∀ r', (s.queues r').state = .down →
      (t.queues r').state = .down ∧ t.shutdowns r' = s.shutdowns r' := by
    intro r' hdown
    have hne : r' ≠ r := by
      rintro rfl
      exact halive hdown
    rw [hstate', if_neg hne, hshut, if_neg hne.symm, append_nil]
    exact ⟨hdown, rfl⟩
  refine h.step (by rw [← ht]; rfl) ⟨fun r' hr' ha => ?_, fun r' hn => ?_, fun r' ha => ?_,
    fun p' r' hl => ?_⟩ (fun p' hne => ⟨fun r' hr' => ?_, fun r' c hc => ?_, fun role' r' hd => ?_⟩)
    ⟨fun r' hr' => ?_, nofun, fun role' r' hd => ?_⟩ (fun _ _ k hk => by cases hk)
  · rw [hstate'] at ha
    rw [hname]
    refine h.shared.linked r' (hcreated ▸ hr') fun hdown => ha ?_
    split
    · rfl
    · exact hdown
  · rw [hcreated]
    exact h.shared.named r' (hname ▸ hn)
  · have hne : r ≠ r' := by
      rintro rfl
      refine ha (hcreated ▸ hr) ?_
      rw [hstate', if_pos rfl]
    rw [hshut, if_neg hne, append_nil]
    refine h.shared.alive r' fun hr' => ?_
    have ha' := ha (hcreated ▸ hr')
    rwa [hstate', if_neg hne.symm] at ha'
  · have hold : .drain p' r' ∈ s.log ∨ .unlink p' r' ∈ s.log := by simpa [hlog] using hl
    obtain ⟨hlt, hdown, hp⟩ := h.shared.logged p' r' hold
    obtain ⟨hdown', hsame⟩ := hother r' hdown
    rw [hcreated, hsame]
    exact ⟨hlt, hdown', hp⟩
  · rw [hcreated]
    exact (h.standing p').opened r' hr'
  · have hshown := (h.standing p').shown r' c hc
    rw [hstate']
    split
    · next heq =>
      subst heq
      rw [hstate] at hshown
      obtain rfl := eq_up_of_shown hshown
      exact absurd hc (h.claim_ne hplace hne)
    · exact hshown
  · obtain ⟨hdown, hp, hn⟩ := (h.standing p').draining role' r' hd
    obtain ⟨hdown', hsame⟩ := hother r' hdown
    rw [hsame, hname]
    exact ⟨hdown', hp, hn⟩
  · obtain rfl : r = r' := some.inj hr'
    rw [hcreated]
    exact hr
  · obtain ⟨-, rfl⟩ : role = role' ∧ r = r' := by simpa using hd
    rw [hstate', if_pos rfl, hshut, if_pos rfl, hnone, hname]
    exact ⟨rfl, rfl, h.shared.linked r hr halive⟩

theorem place_create (s : LifeCycle) : s.create.1.place = s.place := by
  rw [LifeCycle.create]
  split <;> rfl

theorem changes_create (s : LifeCycle) : s.create.1.changes = s.changes := by
  rw [LifeCycle.create]
  split <;> rfl

theorem queues_create (s : LifeCycle) {r : Nat} (hr : r < s.created) :
    s.create.1.queues r = s.queues r := by
  rw [LifeCycle.create]
  split
  · rfl
  · exact update_of_ne (Nat.ne_of_lt hr) _ _

/-- A process opens the queue, which is created if the name stands for none. -/
theorem Kept.create (h : Kept s) (role : Role) (size : Nat) :
    Kept (s.create.1.goto p (.initializing role size s.create.2)) := by
  cases hname : s.name with
  | some r =>
    have heq : s.create = (s, r) := by rw [LifeCycle.create, hname]
    rw [heq]
    refine h.goto ⟨fun r' hr' => ?_, nofun, nofun⟩ (.inl rfl)
    obtain rfl : r = r' := some.inj hr'
    exact h.shared.named r hname
  | none =>
    have heq : s.create = ({ s with
        queues := update s.queues s.created ⟨.init, 0, 0⟩
        created := s.created + 1
        name := some s.created }, s.created) := by rw [LifeCycle.create, hname]
    have hplace := place_create s
    have hcreated : s.create.1.created = s.created + 1 := by rw [heq]
    have hname' : s.create.1.name = some s.created := by rw [heq]
    have hlog : s.create.1.log = s.log := by rw [heq]
    have hnew : s.create.2 = s.created := by rw [heq]
    have hold : ∀ r, r < s.created → s.create.1.queues r = s.queues r := fun r => queues_create s
    refine h.step hplace ⟨fun r' hr' ha => ?_, fun r' hn => ?_, fun r' ha => ?_, fun p' r' hl => ?_⟩
      (fun p' hne => ⟨fun r' hr' => ?_, fun r' c hc => ?_, fun role' r' hd => ?_⟩)
      ⟨fun r' hr' => ?_, nofun, nofun⟩ (fun _ _ k hk => by cases hk)
    · rw [hcreated] at hr'
      rcases Nat.lt_succ_iff_lt_or_eq.mp hr' with hlt | rfl
      · rw [hold r' hlt] at ha
        have hlinked := h.shared.linked r' hlt ha
        rw [hname] at hlinked
        cases hlinked
      · exact hname'
    · obtain rfl : s.created = r' := mem_unique hname' hn
      rw [hcreated]
      exact Nat.lt_succ_self _
    · rw [shutdowns, hlog]
      refine h.shared.alive r' fun hlt => ?_
      rw [← hold r' hlt]
      exact ha (hcreated ▸ Nat.lt_succ_of_lt hlt)
    · rw [hlog] at hl
      obtain ⟨hlt, hdown, hp⟩ := h.shared.logged p' r' hl
      rw [hcreated, hold r' hlt, shutdowns, hlog]
      exact ⟨Nat.lt_succ_of_lt hlt, hdown, hp⟩
    · rw [hcreated]
      exact Nat.lt_succ_of_lt ((h.standing p').opened r' hr')
    · rw [hold r' ((h.standing p').opened r' (Place.queue_of_claim hc))]
      exact (h.standing p').shown r' c hc
    · obtain ⟨-, -, hn⟩ := (h.standing p').draining role' r' hd
      rw [hname] at hn
      cases hn
    · obtain rfl : s.create.2 = r' := some.inj hr'
      rw [hcreated, hnew]
      exact Nat.lt_succ_self _

/-! ## Every step keeps it -/

theorem not_shown_init (c : Claim) : ¬ c.Shown .init := by
  cases c with
  | conf => nofun
  | up role => cases role <;> rintro (h | h) <;> cases h

theorem not_shown_free (c : Claim) : ¬ c.Shown .free := by
  cases c with
  | conf => nofun
  | up role => cases role <;> rintro (h | h) <;> cases h

theorem eq_conf_of_shown (h : c.Shown .conf) : c = .conf := by
  cases c with
  | conf => rfl
  | up role => cases role <;> rcases h with h | h <;> cases h

theorem not_shown_other (role : Role) : ¬ (Claim.up role).Shown role.other.up := by
  cases role <;> rintro (h | h) <;> cases h

/-- In the state in which both ends have attached, the claims are those of one end or the other. -/
theorem eq_of_shown_dxup (h : c.Shown .dxup) (role : Role) : c = .up role ∨ c = .up role.other := by
  cases c with
  | conf => cases h
  | up role' =>
    cases role <;> cases role'
    · exact .inl rfl
    · exact .inr rfl
    · exact .inr rfl
    · exact .inl rfl

theorem up_ne_down (role : Role) : role.up ≠ .down := by cases role <;> decide

/-- The transition that a process tries at a place, and where it is then. -/
inductive Tries (r : Nat) : Role → Place → StateWord → StateWord → Place → Place → Prop where
  | setUp {role : Role} {size : Nat} : Tries r role (.initializing role size r) .init .conf
      (.configuring role size r) (.attachingFree role size r)
  | release {role : Role} {size : Nat} : Tries r role (.configured role size r) .conf .free
      (.attachingFree role size r) .failed
  | attachFree {role : Role} {size : Nat} : Tries r role (.attachingFree role size r) .free
      role.up (.checking role size r) (.attachingReady role size r)
  | attachReady {role : Role} {size : Nat} : Tries r role (.attachingReady role size r)
      role.other.up .dxup (.checking role size r) (.opening role size)
  | reset {role : Role} : Tries r role (.resetting role r) .dxup role.other.up .idle
      (.shuttingDown role r)

/-- A process goes on without an access to the shared memory, or without success: it has no new
queue or claim. -/
structure GoesOn (s : LifeCycle) (p : Nat) (place : Place) : Prop where
  queue : place.queue = none ∨ place.queue = (s.place p).queue
  claim : place.claim = none ∨ place.claim = (s.place p).claim
  draining : ∀ role r, place ≠ .draining role r
  checking : ∀ role size r, place ≠ .checking role size r
  failed : place = .failed → (∃ role size r, s.place p = .configured role size r ∧
    (s.queues r).state ≠ .conf) ∨
    ∃ role size r, s.place p = .checking role size r ∧ (s.queues r).size ≠ size

/-- What an action can do. -/
inductive Does (s : LifeCycle) : LifeAction → LifeCycle → Prop where
  | attach {p size : Nat} {role : Role} (hplace : s.place p = .idle) :
      Does s (.attach p role size) ({ s with changes := update s.changes p [] }.goto p
        (if sizeAccepted size then .opening role size else .failed))
  | create {p size : Nat} {role : Role} (hplace : s.place p = .opening role size) :
      Does s (.advance p) (s.create.1.goto p (.initializing role size s.create.2))
  | cas {p r : Nat} {role : Role} {old new : StateWord} {yes no : Place} {t : LifeCycle}
      (htries : Tries r role (s.place p) old new yes no) (hcas : s.cas p r old new = some t) :
      Does s (.advance p) (t.goto p yes)
  | setSize {p size r : Nat} {role : Role} (hplace : s.place p = .configuring role size r) :
      Does s (.advance p) ((s.setSize r size).goto p (.configured role size r))
  | shutdown {p r : Nat} {role : Role} {t : LifeCycle} (hplace : s.place p = .shuttingDown role r)
      (hcas : s.cas p r role.up .down = some t) :
      Does s (.advance p) ((t.record (.shutdown p r)).goto p (.draining role r))
  | drain {p r : Nat} {role : Role} (hplace : s.place p = .draining role r) :
      Does s (.advance p) ((s.setQueued r ((s.queues r).queued - 1)).record (.drain p r))
  | unlink {a : LifeAction} {r : Nat} {role : Role} (hplace : s.place a.process = .draining role r) :
      Does s a ((s.unlinkName a.process).goto a.process .idle)
  | goesOn {a : LifeAction} {place : Place} (hnext : GoesOn s a.process place) :
      Does s a (s.goto a.process place)
  | setQueued {a : LifeAction} (r queued : Nat) : Does s a (s.setQueued r queued)

theorem does_of_tries (h : (match s.cas p r old new with
      | some s => some (s.goto p yes)
      | none => some (s.goto p no)) = some t) (htries : Tries r role (s.place p) old new yes no)
    (hno : (s.queues r).state ≠ old → GoesOn s p no) : Does s (.advance p) t := by
  cases hcas : s.cas p r old new with
  | some t' =>
    simp only [hcas, Option.some.injEq] at h
    exact h ▸ .cas htries hcas
  | none =>
    simp only [hcas, Option.some.injEq] at h
    refine h ▸ .goesOn (a := .advance p) (hno fun heq => ?_)
    rw [LifeCycle.cas, if_pos heq] at hcas
    cases hcas

theorem does_of_advance (h : s.advance p = some t) : Does s (.advance p) t := by
  rw [LifeCycle.advance] at h
  have hgoes : ∀ {place : Place}, GoesOn s p place → Does s (.advance p) (s.goto p place) :=
    fun hnext => .goesOn (a := .advance p) hnext
  cases hplace : s.place p with
  | opening role size =>
    simp only [hplace, Option.some.injEq] at h
    exact h ▸ .create hplace
  | initializing role size r =>
    simp only [hplace] at h
    exact does_of_tries h (by rw [hplace]; exact .setUp) fun _ =>
      ⟨.inr (by rw [hplace]; rfl), .inl rfl, nofun, nofun, nofun⟩
  | configuring role size r =>
    simp only [hplace, Option.some.injEq] at h
    exact h ▸ .setSize hplace
  | configured role size r =>
    simp only [hplace] at h
    exact does_of_tries h (by rw [hplace]; exact .release) fun hne =>
      ⟨.inl rfl, .inl rfl, nofun, nofun, fun _ => .inl ⟨role, size, r, hplace, hne⟩⟩
  | attachingFree role size r =>
    simp only [hplace] at h
    exact does_of_tries h (by rw [hplace]; exact .attachFree) fun _ =>
      ⟨.inr (by rw [hplace]; rfl), .inl rfl, nofun, nofun, nofun⟩
  | attachingReady role size r =>
    simp only [hplace] at h
    exact does_of_tries h (by rw [hplace]; exact .attachReady) fun _ =>
      ⟨.inl rfl, .inl rfl, nofun, nofun, nofun⟩
  | checking role size r =>
    simp only [hplace] at h
    split at h
    · exact some.inj h ▸ hgoes
        ⟨.inr (by rw [hplace]; rfl), .inr (by rw [hplace]; rfl), nofun, nofun, nofun⟩
    · next hne =>
      exact some.inj h ▸ hgoes
        ⟨.inl rfl, .inl rfl, nofun, nofun, fun _ => .inr ⟨role, size, r, hplace, hne⟩⟩
  | resetting role r =>
    simp only [hplace] at h
    exact does_of_tries h (by rw [hplace]; exact .reset) fun _ =>
      ⟨.inr (by rw [hplace]; rfl), .inr (by rw [hplace]; rfl), nofun, nofun, nofun⟩
  | shuttingDown role r =>
    simp only [hplace] at h
    cases hcas : s.cas p r role.up .down with
    | some t' =>
      simp only [hcas, Option.some.injEq] at h
      exact h ▸ .shutdown hplace hcas
    | none =>
      simp only [hcas, Option.some.injEq] at h
      exact h ▸ hgoes
        ⟨.inr (by rw [hplace]; rfl), .inr (by rw [hplace]; rfl), nofun, nofun, nofun⟩
  | draining role r =>
    simp only [hplace] at h
    split at h
    · exact some.inj h ▸ .drain hplace
    · exact some.inj h ▸ .unlink (a := .advance p) hplace
  | idle | attached role r | failed => simp only [hplace, reduceCtorEq] at h

/-- **What an action can do.** -/
theorem does_of_act (h : s.act a = some t) : Does s a t := by
  cases a with
  | attach p role size =>
    simp only [LifeCycle.act] at h
    split at h
    · next hplace => exact some.inj h ▸ .attach hplace
    · cases h
  | advance p => exact does_of_advance h
  | detach p =>
    rw [LifeCycle.act] at h
    split at h
    · next role r hplace =>
      exact some.inj h ▸ .goesOn (a := .detach p)
        ⟨.inr (by rw [LifeAction.process, hplace]; rfl),
          .inr (by rw [LifeAction.process, hplace]; rfl), nofun, nofun, nofun⟩
    · cases h
  | insert p | extract p =>
    rw [LifeCycle.act] at h
    split at h
    · exact some.inj h ▸ .setQueued _ _
    · cases h
  | unlink p =>
    rw [LifeCycle.act] at h
    split at h
    · next role r hplace => exact some.inj h ▸ .unlink (a := .unlink p) hplace
    · cases h

theorem Standing.goesOn (h : Standing s p (s.place p)) (hnext : GoesOn s p place) :
    Standing s p place where
  opened r hr := h.opened r (hnext.queue.elim (fun hnone => by rw [hnone] at hr; cases hr)
    fun heq => heq ▸ hr)
  shown r c hc := h.shown r c (hnext.claim.elim (fun hnone => by rw [hnone] at hc; cases hc)
    fun heq => heq ▸ hc)
  draining role r hd := absurd hd (hnext.draining role r)

/-- **A transition** of a process keeps it. -/
theorem Kept.tries (h : Kept s) (htries : Tries r role (s.place p) old new yes no)
    (hcas : s.cas p r old new = some t) : Kept (t.goto p yes) := by
  generalize hplace : s.place p = place at htries
  have hr : r < s.created := (h.standing p).opened r (by rw [hplace]; cases htries <;> rfl)
  have hqueue : ∀ r', yes.queue = some r' → r' = r := by
    cases htries <;> rintro r' ⟨⟩ <;> rfl
  cases htries with
  | setUp =>
    refine h.cas hcas hr (by decide) (by decide) (fun c hc => absurd hc (not_shown_init c)) hqueue
      ?_ nofun
    rintro r' c ⟨⟩
    exact ⟨rfl, rfl, not_shown_init _⟩
  | release =>
    refine h.cas hcas hr (by decide) (by decide) (fun c hc => .inr ?_) hqueue nofun nofun
    rw [eq_conf_of_shown hc, hplace]
    rfl
  | attachFree =>
    refine h.cas hcas hr (by decide) (up_ne_down role) (fun c hc => absurd hc (not_shown_free c))
      hqueue ?_ nofun
    rintro r' c ⟨⟩
    exact ⟨rfl, .inl rfl, not_shown_free _⟩
  | attachReady =>
    refine h.cas hcas hr (up_ne_down _) (by decide) (fun c hc => .inl ?_) hqueue ?_ nofun
    · rw [eq_up_of_shown hc]
      exact .inr rfl
    · rintro r' c ⟨⟩
      exact ⟨rfl, .inr rfl, not_shown_other role⟩
  | reset =>
    refine h.cas hcas hr (by decide) (up_ne_down _) (fun c hc => ?_) hqueue nofun nofun
    rcases eq_of_shown_dxup hc role with rfl | rfl
    · rw [hplace]
      exact .inr rfl
    · exact .inl (.inl rfl)

/-- **Every action** keeps it. -/
theorem Kept.act (h : Kept s) (hact : s.act a = some t) : Kept t := by
  cases does_of_act hact with
  | @attach p =>
    have hkept : Kept { s with changes := update s.changes p [] } :=
      ⟨h.shared.congr (fun _ => rfl) rfl rfl rfl,
        fun p' => (h.standing p').congr (fun _ => rfl) rfl rfl fun _ => rfl, h.exclusive⟩
    refine hkept.goto ?_ (.inl ?_)
    · split <;> exact ⟨nofun, nofun, nofun⟩
    · split <;> rfl
  | create => exact h.create _ _
  | cas htries hcas => exact h.tries htries hcas
  | @setSize p _ r _ hplace =>
    have hstand := hplace ▸ h.standing p
    refine h.setSize _ ⟨fun r' hr' => hstand.opened r' hr', ?_, nofun⟩ (by rw [hplace]; rfl)
    rintro r' c ⟨⟩
    exact hstand.shown r _ rfl
  | @shutdown p r _ _ hplace hcas =>
    exact h.shutdown hcas (by rw [hplace]; rfl) ((h.standing p).opened r (by rw [hplace]; rfl))
  | drain hplace => exact h.drain hplace _
  | unlink hplace => exact h.unlinkName hplace
  | goesOn hnext => exact h.goto ((h.standing _).goesOn hnext) hnext.claim
  | setQueued r queued => exact h.setQueued r queued

/-! ## Valid transitions -/

/-- The transition of one state word, by one of the two ends. -/
def ValidChange (s t : LifeCycle) (role : Option Role) (r : Nat) : Prop :=
  (t.queues r).state = (s.queues r).state ∨
    ∃ role', role = some role' ∧ role'.valid (s.queues r).state (t.queues r).state = true

theorem validChange_cas (hcas : s.cas p r old new = some t) (hvalid : role.valid old new = true)
    (r' : Nat) : ValidChange s t (some role) r' := by
  obtain ⟨hstate, rfl⟩ := cas_eq_some hcas
  have hstate' := state_update s.queues r r' new
  rw [ValidChange, hstate']
  split
  · next heq =>
    subst heq
    exact .inr ⟨role, rfl, hstate ▸ hvalid⟩
  · exact .inl rfl

/-- **Every change of a state word is valid**: in a step of a process, the state words of the
queues change as the table allows for its end, and a new queue starts in the initial state. -/
theorem act_valid (h : s.act a = some t) :
    (∀ r, r < s.created → ValidChange s t (s.place a.process).role r) ∧ (t.created = s.created ∨
        t.created = s.created + 1 ∧ (t.queues s.created).state = .init) := by
  cases does_of_act h with
  | attach | goesOn => exact ⟨fun r' _ => .inl rfl, .inl rfl⟩
  | create =>
    cases hname : s.name with
    | some r =>
      rw [show s.create = (s, r) by rw [create, hname]]
      exact ⟨fun r' _ => .inl rfl, .inl rfl⟩
    | none =>
      rw [show s.create = ({ s with
        queues := update s.queues s.created ⟨.init, 0, 0⟩
        created := s.created + 1
        name := some s.created }, s.created) by rw [create, hname]]
      refine ⟨fun r' hr' => .inl ?_, .inr ⟨rfl, ?_⟩⟩
      · show (update s.queues s.created _ r').state = _
        rw [update_of_ne (Nat.ne_of_lt hr')]
      · show (update s.queues s.created _ s.created).state = _
        rw [update_self]
  | @cas p r role _ _ _ _ _ htries hcas =>
    have hrole : (s.place p).role = some role := by
      generalize s.place p = place at htries
      cases htries <;> rfl
    refine ⟨fun r' _ => ?_, .inl ?_⟩
    · rw [LifeAction.process, hrole]
      refine validChange_cas hcas ?_ r'
      generalize s.place p = place at htries
      cases htries <;> cases role <;> rfl
    · obtain ⟨-, rfl⟩ := cas_eq_some hcas
      rfl
  | setSize => exact ⟨fun r' _ => .inl (state_setSize s _ _ r'), .inl rfl⟩
  | @shutdown p r role _ hplace hcas =>
    refine ⟨fun r' _ => ?_, .inl ?_⟩
    · rw [LifeAction.process, hplace]
      exact validChange_cas hcas (by cases role <;> rfl) r'
    · obtain ⟨-, rfl⟩ := cas_eq_some hcas
      rfl
  | drain | setQueued => exact ⟨fun r' _ => .inl (state_setQueued s _ _ r'), .inl rfl⟩
  | unlink =>
    refine ⟨fun r' _ => .inl ?_, .inl (created_unlinkName s _)⟩
    exact congrArg (fun q => (q r').state) (queues_unlinkName s _)

/-! ## Sizes -/

/-- A process that attaches asks for the size that the queue has. -/
def SizesAgree (s : LifeCycle) : LifeAction → Prop
  | .advance p =>
    match s.place p with
    | .attachingFree _ size r => (s.queues r).state = .free → (s.queues r).size = size
    | .attachingReady role size r =>
      (s.queues r).state = role.other.up → (s.queues r).size = size
    | _ => True
  | _ => True

instance (s : LifeCycle) : ∀ a : LifeAction, Decidable (s.SizesAgree a)
  | .advance p =>
    match hplace : s.place p with
    | .attachingFree _ size r =>
      decidable_of_iff ((s.queues r).state = .free → (s.queues r).size = size)
        (by rw [SizesAgree, hplace])
    | .attachingReady role size r =>
      decidable_of_iff ((s.queues r).state = role.other.up → (s.queues r).size = size)
        (by rw [SizesAgree, hplace])
    | .idle | .opening .. | .initializing .. | .configuring .. | .configured .. | .checking ..
    | .attached .. | .resetting .. | .shuttingDown .. | .draining .. | .failed =>
      isTrue (by rw [SizesAgree, hplace]; trivial)
  | .attach .. | .detach _ | .insert _ | .extract _ | .unlink _ => isTrue trivial

/-- An `attach` that has raised has not made a transition, and one that has made its transition
will find the size that it asks for. -/
structure Sized (s : LifeCycle) : Prop where
  failed : ∀ p, s.place p = .failed → s.changes p = []
  checking : ∀ p role size r, s.place p = .checking role size r → (s.queues r).size = size

theorem sized_new : Sized LifeCycle.new := ⟨fun _ _ => rfl, nofun⟩

/-- A process goes on; the sizes and what the others have done are the same. -/
theorem Sized.step (h : Sized s) (hplace : t.place = s.place)
    (hsize : ∀ p' role size r, p' ≠ p → s.place p' = .checking role size r →
      (t.queues r).size = (s.queues r).size)
    (hchanges : ∀ p', p' ≠ p → t.changes p' = s.changes p')
    (hfailed : place = .failed → t.changes p = [])
    (hchecking : ∀ role size r, place = .checking role size r → (t.queues r).size = size) :
    Sized (t.goto p place) where
  failed p' hp' := by
    simp only [LifeCycle.goto, hplace] at hp'
    rcases eq_or_ne p' p with rfl | hne
    · rw [update_self] at hp'
      exact hfailed hp'
    · rw [update_of_ne hne] at hp'
      exact (hchanges p' hne).trans (h.failed p' hp')
  checking p' role size r hp' := by
    simp only [LifeCycle.goto, hplace] at hp'
    rcases eq_or_ne p' p with rfl | hne
    · rw [update_self] at hp'
      exact hchecking role size r hp'
    · rw [update_of_ne hne] at hp'
      exact (hsize p' role size r hne hp').trans (h.checking p' role size r hp')

theorem Sized.goto (h : Sized s) (hfailed : place = .failed → s.changes p = [])
    (hchecking : ∀ role size r, place = .checking role size r → (s.queues r).size = size) :
    Sized (s.goto p place) :=
  h.step rfl (fun _ _ _ _ _ _ => rfl) (fun _ _ => rfl) hfailed hchecking

theorem size_cas (hcas : s.cas p r old new = some t) (r' : Nat) :
    (t.queues r').size = (s.queues r').size := by
  obtain ⟨-, rfl⟩ := cas_eq_some hcas
  by_cases heq : r' = r
  · subst heq
    simp only [update_self]
  · simp only [update_of_ne heq]

theorem Sized.cas (h : Sized s) (hcas : s.cas p r old new = some t) (hfailed : place ≠ .failed)
    (hchecking : ∀ role size r, place = .checking role size r → (s.queues r).size = size) :
    Sized (t.goto p place) := by
  refine h.step ?_ (fun _ _ _ r' _ _ => size_cas hcas r') ?_ (fun hf => absurd hf hfailed)
    (fun role size r' hc => (size_cas hcas r').trans (hchecking role size r' hc))
  · obtain ⟨-, rfl⟩ := cas_eq_some hcas
    rfl
  · intro p' hne
    obtain ⟨-, rfl⟩ := cas_eq_some hcas
    exact update_of_ne hne _ _

theorem Sized.setQueued (h : Sized s) (r queued : Nat) : Sized (s.setQueued r queued) where
  failed := h.failed
  checking p role size r' hc := by
    have hsize := h.checking p role size r' hc
    by_cases heq : r' = r
    · subst heq
      simpa only [LifeCycle.setQueued, update_self] using hsize
    · simpa only [LifeCycle.setQueued, update_of_ne heq] using hsize

theorem Sized.unlinkName (h : Sized s) (p : Nat) : Sized ((s.unlinkName p).goto p .idle) := by
  refine h.step ?_ (fun _ _ _ r _ _ => ?_) (fun p' _ => ?_) nofun nofun
  · rw [LifeCycle.unlinkName]
    split <;> rfl
  · rw [queues_unlinkName]
  · rw [LifeCycle.unlinkName]
    split <;> rfl

theorem Sized.setSize (h : Sized s) (hkept : Kept s) {size : Nat}
    (hplace : s.place p = .configuring role size r) :
    Sized ((s.setSize r size).goto p (.configured role size r)) := by
  have hshown := (hkept.standing p).shown r .conf (by rw [hplace]; rfl)
  refine h.step rfl (fun p' role' size' r' _ hc => ?_) (fun _ _ => rfl) nofun nofun
  have hne : r' ≠ r := by
    rintro rfl
    have hup := (hkept.standing p').shown r' (.up role') (by rw [hc]; rfl)
    rw [show (s.queues r').state = .conf from hshown] at hup
    cases eq_conf_of_shown hup
  show (update s.queues r _ r').size = _
  rw [update_of_ne hne]

theorem Sized.act (h : Sized s) (hkept : Kept s) (hagree : s.SizesAgree a)
    (hact : s.act a = some t) : Sized t := by
  cases does_of_act hact with
  | attach =>
    refine h.step rfl (fun _ _ _ _ _ _ => rfl) (fun p' hne => update_of_ne hne _ _)
      (fun _ => update_self ..) fun role' size' r hc => ?_
    split at hc <;> cases hc
  | create =>
    refine h.step (place_create s) (fun p' role' size' r _ hc => ?_)
      (fun p' _ => congrFun (changes_create s) p') nofun nofun
    rw [queues_create s ((hkept.standing p').opened r (by rw [hc]; rfl))]
  | @cas p r role _ _ _ _ _ htries hcas =>
    have hstate := (cas_eq_some hcas).1
    rw [SizesAgree] at hagree
    generalize s.place p = place at htries hagree
    refine h.cas hcas (by cases htries <;> nofun) fun role' size' r' hchecking => ?_
    cases htries with
    | attachFree | attachReady =>
      cases hchecking
      exact hagree hstate
    | _ => cases hchecking
  | setSize hplace => exact h.setSize hkept hplace
  | @shutdown p r role t' _ hcas =>
    have hnext : Sized (t'.goto p (.draining role r)) := h.cas hcas nofun nofun
    exact ⟨hnext.failed, hnext.checking⟩
  | drain => exact ⟨h.failed, (h.setQueued _ _).checking⟩
  | unlink => exact h.unlinkName _
  | goesOn hnext =>
    refine h.goto (fun hfailed => ?_) fun role size r hc => absurd hc (hnext.checking role size r)
    rcases hnext.failed hfailed with ⟨role, size, r, hplace, hne⟩ | ⟨role, size, r, hplace, hne⟩
    · exact absurd ((hkept.standing _).shown r .conf (by rw [hplace]; rfl)) hne
    · exact absurd (h.checking _ role size r hplace) hne
  | setQueued r queued => exact h.setQueued r queued

/-! ## Runs -/

theorem kept_run {actions : List LifeAction} (hrun : run (enabled act) LifeCycle.new actions = .ok s) :
    Kept s :=
  run_enabled (fun _ _ _ hkept hact => hkept.act hact) kept_new hrun

/-- **The life cycle of interlinks.** Any number of processes attach to and detach from a name, in
any order of their steps. Then

- every change of the state word of a queue is one of the table, for the end as which the
  process acts, and a new queue starts in the initial state;
- at most one process is attached to a queue as receiver, and at most one as transmitter;
- a queue is drained and unlinked only by the one process that has moved it to `DOWN`;
- if every process that attaches asks for the size that the queue has, then an `attach` that
  raises has not changed a state word. -/
theorem interlink_life_cycle (actions : List LifeAction) (s : LifeCycle)
    (hrun : run (enabled act) LifeCycle.new actions = .ok s) :
    (∀ a t, s.act a = some t →
      (∀ r, r < s.created → ValidChange s t (s.place a.process).role r) ∧
        (t.created = s.created ∨
          t.created = s.created + 1 ∧ (t.queues s.created).state = .init)) ∧
      (∀ role r p p', (s.place p).claim = some (r, .up role) →
        (s.place p').claim = some (r, .up role) → p = p') ∧
      (∀ p r, .drain p r ∈ s.log ∨ .unlink p r ∈ s.log → s.shutdowns r = [p]) ∧
      (Along (enabled act) SizesAgree LifeCycle.new actions →
        ∀ p, s.place p = .failed → s.changes p = []) := by
  have hkept := kept_run hrun
  refine ⟨fun a t hact => act_valid hact, fun role r p p' => hkept.exclusive p p' _, fun p r hlog => ?_,
    fun hagree => ?_⟩
  · exact (hkept.shared.logged p r hlog).2.2
  · have hsized := run_inv (I := fun s _ => Kept s ∧ Sized s)
      (fun s a _ t hinv hagree hstep => by
        have hact := enabled_eq_ok.mp hstep
        exact ⟨hinv.1.act hact, hinv.2.act hinv.1 hagree hact⟩)
      ⟨kept_new, sized_new⟩ hagree hrun
    exact hsized.2.failed

/-- The steps of an `attach` that creates the queue. -/
def createSteps (p : Nat) : List LifeAction := List.replicate 6 (.advance p)

/-- A transmitter creates the queue and a receiver attaches; then both detach, and the receiver,
which is the last one, drains a packet and unlinks the queue. A third process asks for a size
that is not a power of two. -/
theorem interlink_life_cycle_sample :
    ∃ s, run (enabled act) LifeCycle.new
        (.attach 0 .transmitter 4 :: createSteps 0 ++ .attach 1 .receiver 4 ::
          List.replicate 5 (.advance 1) ++ [.insert 0, .detach 0, .advance 0, .detach 1, .advance 1,
            .advance 1, .advance 1, .advance 1, .attach 2 .receiver 3]) = .ok s ∧
      s.log = [.shutdown 1 0, .drain 1 0, .unlink 1 0] ∧ s.shutdowns 0 = [1] ∧
      s.place 2 = .failed ∧ s.changes 2 = [] := by
  refine exists_ok_of_any
    (fun s => s.log = [.shutdown 1 0, .drain 1 0, .unlink 1 0] ∧ s.place 2 = .failed)
    (by decide +kernel) fun s hrun ⟨hlog, hplace⟩ => ?_
  obtain ⟨-, -, hends, hfails⟩ := interlink_life_cycle _ s hrun
  have hdrain := hends 1 0 (.inl (by rw [hlog]; decide))
  exact ⟨hlog, hdrain, hplace, hfails (by decide +kernel) 2 hplace⟩

/-- **An attach that raises leaves its transition**: a transmitter has created a queue of size 4,
and a receiver that asks for size 8 makes the transition from `TXUP` to `DXUP` before it raises. The
transmitter is the only process attached, but the state word says that both ends are. -/
theorem size_mismatch_leaves_transition :
    ∃ s t, run (enabled act) LifeCycle.new
        (.attach 0 .transmitter 4 :: createSteps 0) = .ok s ∧
      run (enabled act) s (.attach 1 .receiver 8 :: List.replicate 5 (.advance 1)) = .ok t ∧
      (s.queues 0).state = .txup ∧ t.place 1 = .failed ∧ t.changes 1 = [(.txup, .dxup)] ∧
      (t.queues 0).state = .dxup := by
  obtain ⟨s, hrun, hs⟩ := ok_of_any
    (r := run (enabled act) LifeCycle.new (.attach 0 .transmitter 4 :: createSteps 0))
    (q := fun s => (s.queues 0).state = .txup) (by decide +kernel)
  obtain ⟨t, hrun', ht⟩ := ok_of_any
    (r := run (enabled act) LifeCycle.new (.attach 0 .transmitter 4 :: createSteps 0 ++
      .attach 1 .receiver 8 :: List.replicate 5 (.advance 1)))
    (q := fun t => t.place 1 = .failed ∧ t.changes 1 = [(.txup, .dxup)] ∧
      (t.queues 0).state = .dxup) (by decide +kernel)
  rw [run_append hrun] at hrun'
  exact ⟨s, t, hrun, hrun', of_decide_eq_true hs, of_decide_eq_true ht⟩

end LifeCycle

end Snabb
