import Snabb.Foundation.LinkedList
import Snabb.Lib.Yang.ListFields

/-!
# The linked list of leaves (`lib/yang/list.lua`)

`Chain` says that the leaves of a list are linked in a sequence. A leaf is appended or unlinked
by changing `prev` and `next` of its neighbours, and `ipairs` visits the sequence.

- `appendLeaf_spec`, `unlinkLeaf_spec`: the sequence after a change;
- `iterate_spec`: the leaves that are visited.
-/

namespace Snabb

open Foundation List Table

namespace YangList

variable {conf : ListConf} {l l' l'' : YangList} {o o' leafSize : Nat} {x y : ListLeaf}
  {os as bs : List Nat}

/-- What `prev` of a leaf points to. -/
def prevOf (l : YangList) (o : Nat) : Nat :=
  match l.objs.lookup o with
  | some (.leaf x) => x.prev
  | _ => 0

/-- What `next` of a leaf points to. -/
def nextOf (l : YangList) (o : Nat) : Nat :=
  match l.objs.lookup o with
  | some (.leaf x) => x.next
  | _ => 0

theorem prevOf_of_lookup (hx : l.objs.lookup o = some (.leaf x)) : l.prevOf o = x.prev := by
  rw [prevOf, hx]

theorem nextOf_of_lookup (hx : l.objs.lookup o = some (.leaf x)) : l.nextOf o = x.next := by
  rw [nextOf, hx]

@[simp] theorem prevOf_setLeaf (l : YangList) (o o' : Nat) (x : ListLeaf) :
    (l.setLeaf o x).prevOf o' = if o' = o then x.prev else l.prevOf o' := by
  rw [prevOf, setLeaf, lookup_insert_ite]
  split_ifs <;> rfl

@[simp] theorem nextOf_setLeaf (l : YangList) (o o' : Nat) (x : ListLeaf) :
    (l.setLeaf o x).nextOf o' = if o' = o then x.next else l.nextOf o' := by
  rw [nextOf, setLeaf, lookup_insert_ite]
  split_ifs <;> rfl

/-- The leaves `os` are linked, and counted. -/
structure Chain (l : YangList) (os : List Nat) : Prop where
  first : l.first = os.headD 0
  last : l.last = os.reverse.headD 0
  length : l.length = os.length
  leaves : ∀ o ∈ os, ∃ x, l.objs.lookup o = some (.leaf x)
  links : Linked 0 l.prevOf l.nextOf os

/-- A call has changed links only. -/
structure Relinks (l l' : YangList) : Prop where
  same : l' = { l with objs := l'.objs, first := l'.first, last := l'.last, length := l'.length }
  leaves : ∀ o x, l.objs.lookup o = some (.leaf x) →
    ∃ prev next, l'.objs.lookup o = some (.leaf { x with prev := prev, next := next })
  others : ∀ o y, (∀ x, y ≠ .leaf x) → l.objs.lookup o = some y → l'.objs.lookup o = some y

theorem Relinks.refl (l : YangList) : Relinks l l :=
  ⟨rfl, fun _ x hx => ⟨x.prev, x.next, hx⟩, fun _ _ _ hy => hy⟩

theorem Relinks.trans (h : Relinks l l') (h' : Relinks l' l'') : Relinks l l'' where
  same := by
    rw [h'.same, h.same]
  leaves o x hx := by
    obtain ⟨prev, next, hlookup⟩ := h.leaves o x hx
    obtain ⟨prev', next', hlookup'⟩ := h'.leaves o _ hlookup
    exact ⟨prev', next', hlookup'⟩
  others o y hy hlookup := h'.others o y hy (h.others o y hy hlookup)

theorem Relinks.setLeaf (hx : l.objs.lookup o = some (.leaf x)) (prev next : Nat) :
    Relinks l (l.setLeaf o { x with prev := prev, next := next }) where
  same := rfl
  leaves o' x' hx' := by
    show ∃ prev' next', (l.objs.insert o _).lookup o' = _
    rw [lookup_insert_ite]
    split_ifs with heq
    · subst heq
      cases hx.symm.trans hx'
      exact ⟨prev, next, rfl⟩
    · exact ⟨x'.prev, x'.next, hx'⟩
  others o' y hy hlookup := by
    show (l.objs.insert o _).lookup o' = some y
    rw [lookup_insert_ite, if_neg]
    · exact hlookup
    · rintro rfl
      cases hx.symm.trans hlookup
      exact hy x rfl

/-- Strings and Lua values stay. -/
theorem Relinks.get_eq (h : Relinks l l') {r : Resource} (hr : l.get r ≠ none) :
    l'.get r = l.get r := by
  obtain ⟨v, hv⟩ := Option.ne_none_iff_exists'.mp hr
  rw [hv]
  cases r with
  | str o =>
    obtain ⟨s, hs, rfl⟩ := get_str.mp hv
    exact get_str.mpr ⟨s, h.others o _ (fun n hn => nomatch hn) hs, rfl⟩
  | lvalue name idx =>
    rw [h.same]
    exact hv

theorem ledger_setLeaf (hledger : Ledger leafSize l) (hx : l.objs.lookup o = some (.leaf x)) :
    Ledger leafSize (l.setLeaf o y) := hledger.set hx rfl

/-- **A leaf is appended.** -/
theorem appendLeaf_spec (hchain : Chain l os) (hx : l.objs.lookup o = some (.leaf x))
    (hprev : x.prev = 0) (hnext : x.next = 0) (ho : o ∉ os) (hzero : o ≠ 0)
    (hledger : Ledger leafSize l) :
    ∃ l', l.appendLeaf o = .ok l' ∧ Chain l' (os ++ [o]) ∧ Relinks l l' ∧
      Ledger leafSize l' := by
  obtain ⟨hfirst, hlast, hlength, hleaves, hlinks⟩ := hchain
  rcases eq_nil_or_concat os with rfl | ⟨as, p, rfl⟩
  · have hempty : l.last = 0 := hlast
    refine ⟨{ l with first := o, last := o, length := l.length + 1 }, ?_, ?_, ?_, hledger⟩
    · rw [appendLeaf]
      simp only [hempty]
      rfl
    · refine ⟨rfl, rfl, by simp [hlength], ?_, ?_⟩
      · intro o' ho'
        rw [nil_append, mem_singleton] at ho'
        exact ⟨x, ho' ▸ hx⟩
      · refine hlinks.append ho hzero ?_ ?_ (fun _ hmem => nomatch hmem) (fun _ hmem => nomatch hmem)
        · exact (prevOf_of_lookup hx).trans hprev
        · exact (nextOf_of_lookup hx).trans hnext
    · exact ⟨rfl, fun _ x hx => ⟨x.prev, x.next, hx⟩, fun _ _ _ hy => hy⟩
  · rw [concat_eq_append] at *
    have hlast : l.last = p := by simpa using hlast
    have hp0 : p ≠ 0 := fun heq => hlinks.null_not_mem (by simp [heq])
    have hop : o ≠ p := fun heq => ho (by simp [heq])
    obtain ⟨y, hy⟩ := hleaves p (by simp)
    have hynext : y.next = 0 := by
      rw [← nextOf_of_lookup hy, hlinks.next as p [] rfl]
      rfl
    have hy₁ : (l.setLeaf o { x with prev := p, next := 0 }).objs.lookup p = some (.leaf y) := by
      rw [setLeaf, lookup_insert_ite, if_neg hop.symm]
      exact hy
    obtain ⟨l₂, hl₂⟩ : ∃ l₂, l₂ = (l.setLeaf o { x with prev := p, next := 0 }).setLeaf p
        { y with next := o } := ⟨_, rfl⟩
    have hrelinks : Relinks l l₂ := by
      rw [hl₂]
      exact (Relinks.setLeaf hx p 0).trans (Relinks.setLeaf hy₁ y.prev o)
    refine ⟨{ l₂ with last := o, length := l.length + 1 }, ?_, ?_, ?_, ?_⟩
    · have hlink : (do
          let x ← l.leaf o
          let p' ← l.leaf p
          let next := p'.next
          let l := l.setLeaf o { x with prev := p, next := next }
          let p' ← l.leaf p
          let l := l.setLeaf p { p' with next := o }
          return { l with last := if next = 0 then o else l.last }) =
          Except.ok { l₂ with last := o } := by
        rw [bind_of_eq_ok (leaf_of_lookup hx), bind_of_eq_ok (leaf_of_lookup hy)]
        simp only [hynext]
        rw [bind_of_eq_ok (leaf_of_lookup hy₁), hl₂]
        rfl
      rw [appendLeaf]
      simp only [hlast, if_neg hp0]
      rw [bind_of_eq_ok hlink, hl₂]
      rfl
    · refine ⟨?_, by simp, ?_, ?_, ?_⟩
      · show l₂.first = _
        rw [hl₂]
        show l.first = _
        rw [hfirst]
        cases as <;> rfl
      · show l.length + 1 = _
        rw [hlength]
        simp
      · intro o' ho'
        rcases mem_append.mp ho' with hold | hnew
        · obtain ⟨z, hz⟩ := hleaves o' hold
          obtain ⟨prev, next, hz'⟩ := hrelinks.leaves o' z hz
          exact ⟨_, hz'⟩
        · obtain ⟨prev, next, hz'⟩ := hrelinks.leaves o x hx
          exact ⟨_, mem_singleton.mp hnew ▸ hz'⟩
      · refine hlinks.append ho hzero ?_ ?_ (fun q hq => ?_) fun q hq => ?_
        · show l₂.prevOf o = _
          simp [hl₂, hop]
        · show l₂.nextOf o = 0
          simp [hl₂, hop]
        · have hqo : q ≠ o := fun heq => ho (heq ▸ hq)
          show l₂.prevOf q = _
          by_cases hqp : q = p
          · simp [hl₂, hqp, prevOf_of_lookup hy]
          · simp [hl₂, hqp, hqo]
        · have hqo : q ≠ o := fun heq => ho (heq ▸ hq)
          show l₂.nextOf q = _
          simp [hl₂, hqo]
    · refine ⟨?_, hrelinks.leaves, hrelinks.others⟩
      rw [hl₂]
      rfl
    · have hledger₂ : Ledger leafSize l₂ := by
        rw [hl₂]
        exact ledger_setLeaf (ledger_setLeaf hledger hx) hy₁
      exact hledger₂

theorem link_spec {q : Nat} (prev next : ListLeaf → Nat)
    (hq : q ≠ 0 → ∃ p, l.objs.lookup q = some (.leaf p)) (hledger : Ledger leafSize l) :
    ∃ l', (if q ≠ 0 then do
        let p ← l.leaf q
        return l.setLeaf q { p with prev := prev p, next := next p }
      else .ok l) = .ok l' ∧ l' = { l with objs := l'.objs } ∧ Relinks l l' ∧
      Ledger leafSize l' ∧ ∀ o y, o ≠ 0 → l.objs.lookup o = some (.leaf y) →
        l'.prevOf o = (if o = q then prev y else y.prev) ∧
        l'.nextOf o = (if o = q then next y else y.next) := by
  by_cases hzero : q = 0
  · refine ⟨l, if_neg (not_not_intro hzero), rfl, Relinks.refl l, hledger, fun o y ho hy => ?_⟩
    rw [if_neg (hzero ▸ ho), if_neg (hzero ▸ ho)]
    exact ⟨prevOf_of_lookup hy, nextOf_of_lookup hy⟩
  · obtain ⟨p, hp⟩ := hq hzero
    refine ⟨l.setLeaf q { p with prev := prev p, next := next p }, ?_, rfl,
      Relinks.setLeaf hp _ _, ledger_setLeaf hledger hp, fun o y _ hy => ?_⟩
    · rw [if_pos hzero, bind_of_eq_ok (leaf_of_lookup hp)]
      rfl
    · rw [prevOf_setLeaf, nextOf_setLeaf, prevOf_of_lookup hy, nextOf_of_lookup hy]
      by_cases heq : o = q
      · subst heq
        cases hp.symm.trans hy
        simp
      · simp [heq]

theorem headD_mem (h : os.headD 0 ≠ 0) : os.headD 0 ∈ os := by
  cases os with
  | nil => exact absurd rfl h
  | cons o os => exact mem_cons_self

theorem headD_remove (hnodup : (as ++ o :: bs).Nodup) :
    (if (as ++ o :: bs).headD 0 = o then bs.headD 0 else (as ++ o :: bs).headD 0) =
      (as ++ bs).headD 0 := by
  cases as with
  | nil => exact if_pos rfl
  | cons a as =>
    refine if_neg fun heq => ?_
    obtain rfl : a = o := heq
    exact (nodup_cons.mp hnodup).1 (by simp)

/-- **A leaf is unlinked.** -/
theorem unlinkLeaf_spec (hchain : Chain l (as ++ o :: bs)) (hledger : Ledger leafSize l) :
    ∃ l', l.unlinkLeaf o = .ok l' ∧ Chain l' (as ++ bs) ∧ Relinks l l' ∧ Ledger leafSize l' := by
  obtain ⟨hfirst, hlast, hlength, hleaves, hlinks⟩ := hchain
  obtain ⟨x, hx⟩ := hleaves o (by simp)
  have hnext : x.next = bs.headD 0 := by
    rw [← nextOf_of_lookup hx]
    exact hlinks.next as o bs rfl
  have hprev : x.prev = as.reverse.headD 0 := by
    rw [← prevOf_of_lookup hx]
    exact hlinks.prev bs.reverse o as.reverse (by simp)
  have hnonzero : ∀ q ∈ as ++ o :: bs, q ≠ 0 := by
    rintro q hq rfl
    exact hlinks.null_not_mem hq
  obtain ⟨l₁, hl₁⟩ : ∃ l₁, l₁ = { l with
    first := if l.first = o then x.next else l.first
    last := if l.last = o then x.prev else l.last } := ⟨_, rfl⟩
  have hobjs₁ : l₁.objs = l.objs := by rw [hl₁]
  have hledger₁ : Ledger leafSize l₁ := by
    rw [hl₁]
    exact hledger
  have hprevleaf : x.prev ≠ 0 → ∃ p, l₁.objs.lookup x.prev = some (.leaf p) := by
    rw [hprev, hobjs₁]
    intro hne
    exact hleaves _ (mem_append_left _ (mem_reverse.mp (headD_mem hne)))
  obtain ⟨l₂, hrun₂, hsame₂, hrelinks₂, hledger₂, hptr₂⟩ :=
    link_spec (fun p => p.prev) (fun _ => x.next) hprevleaf hledger₁
  have hnextleaf : x.next ≠ 0 → ∃ n, l₂.objs.lookup x.next = some (.leaf n) := by
    rw [hnext]
    intro hne
    obtain ⟨n, hn⟩ := hleaves _ (mem_append_right as (mem_cons_of_mem o (headD_mem hne)))
    obtain ⟨prev, next, hn₂⟩ := hrelinks₂.leaves _ n (hobjs₁ ▸ hn)
    exact ⟨_, hn₂⟩
  obtain ⟨l₃, hrun₃, hsame₃, hrelinks₃, hledger₃, hptr₃⟩ :=
    link_spec (fun _ => x.prev) (fun n => n.next) hnextleaf hledger₂
  have hrelinks := hrelinks₂.trans hrelinks₃
  -- what the leaves point to in the end
  have hptr : ∀ q ∈ as ++ bs, l₃.prevOf q = (if q = l.nextOf o then l.prevOf o else l.prevOf q) ∧
      l₃.nextOf q = (if q = l.prevOf o then l.nextOf o else l.nextOf q) := by
    intro q hq
    have hmem : q ∈ as ++ o :: bs := by
      rcases mem_append.mp hq with hq | hq
      · exact mem_append_left _ hq
      · exact mem_append_right _ (mem_cons_of_mem o hq)
    obtain ⟨z, hz⟩ := hleaves q hmem
    obtain ⟨hprev₂, hnext₂⟩ := hptr₂ q z (hnonzero q hmem) (hobjs₁ ▸ hz)
    obtain ⟨prev, next, hz₂⟩ := hrelinks₂.leaves q z (hobjs₁ ▸ hz)
    obtain ⟨hprev₃, hnext₃⟩ := hptr₃ q _ (hnonzero q hmem) hz₂
    rw [prevOf_of_lookup hz₂] at hprev₂
    rw [nextOf_of_lookup hz₂] at hnext₂
    rw [hprev₃, hnext₃, prevOf_of_lookup hx, nextOf_of_lookup hx, prevOf_of_lookup hz,
      nextOf_of_lookup hz]
    simp only [ite_self] at hprev₂ ⊢
    exact ⟨by rw [hprev₂], hnext₂⟩
  have hends : l₃.first = l₁.first ∧ l₃.last = l₁.last ∧ l₃.length = l.length := by
    rw [hsame₃, hsame₂, hl₁]
    exact ⟨rfl, rfl, rfl⟩
  refine ⟨{ l₃ with length := l₃.length - 1 }, ?_, ?_, ?_, hledger₃⟩
  · rw [unlinkLeaf, bind_of_eq_ok (leaf_of_lookup hx)]
    subst hl₁
    exact (bind_of_eq_ok hrun₂).trans (bind_of_eq_ok hrun₃)
  · refine ⟨?_, ?_, ?_, ?_, ?_⟩
    · show l₃.first = _
      rw [hends.1, hl₁]
      rw [hfirst, hnext]
      exact headD_remove hlinks.nodup
    · show l₃.last = _
      rw [hends.2.1, hl₁]
      rw [hlast, hprev, reverse_append, reverse_cons, append_assoc,
        reverse_append]
      refine headD_remove ?_
      have hreverse := nodup_reverse.mpr hlinks.nodup
      simpa using hreverse
    · show l₃.length - 1 = _
      rw [hends.2.2, hlength]
      simp
    · intro q hq
      obtain ⟨z, hz⟩ := hleaves q (by
        rcases mem_append.mp hq with hq | hq
        · exact mem_append_left _ hq
        · exact mem_append_right _ (mem_cons_of_mem o hq))
      obtain ⟨prev, next, hz'⟩ := hrelinks.leaves q z (hobjs₁ ▸ hz)
      exact ⟨_, hz'⟩
    · exact hlinks.remove (fun q hq => (hptr q hq).1) fun q hq => (hptr q hq).2
  · refine ⟨?_, ?_, ?_⟩
    · rw [hsame₃, hsame₂, hl₁]
    · intro q z hz
      exact hrelinks.leaves q z (hobjs₁ ▸ hz)
    · intro q z hne hz
      exact hrelinks.others q z hne (hobjs₁ ▸ hz)

/-- **The iterator visits the leaves in order.** -/
theorem iterate_spec {entry : Nat → List (String × YangValue)} {n calls : Nat}
    (hlinks : Linked 0 l.prevOf l.nextOf (as ++ bs))
    (hleaves : ∀ o ∈ bs, ∃ x, l.objs.lookup o = some (.leaf x))
    (hentry : ∀ o ∈ bs, l.leafEntry conf o = .ok (entry o)) (hcalls : bs.length < calls) :
    l.iterate conf calls (bs.headD 0) n =
      .ok ((bs.map entry).zipIdx n |>.map fun (e, i) => (i, e)) := by
  induction bs generalizing as n calls with
  | nil =>
    obtain ⟨calls, rfl⟩ : ∃ k, calls = k + 1 := ⟨calls - 1, by simp at hcalls; omega⟩
    rfl
  | cons o bs ih =>
    obtain ⟨calls, rfl⟩ : ∃ k, calls = k + 1 := ⟨calls - 1, by simp at hcalls; omega⟩
    obtain ⟨x, hx⟩ := hleaves o mem_cons_self
    have hzero : o ≠ 0 := fun heq => hlinks.null_not_mem (by simp [heq])
    have hnext : x.next = bs.headD 0 := by
      rw [← nextOf_of_lookup hx]
      exact hlinks.next as o bs rfl
    have hlinks' : Linked 0 l.prevOf l.nextOf (as ++ [o] ++ bs) := by simpa using hlinks
    have hcalls' : bs.length < calls := by simpa using hcalls
    have hrest : l.iterate conf calls (bs.headD 0) (n + 1) =
        .ok ((bs.map entry).zipIdx (n + 1) |>.map fun (e, i) => (i, e)) :=
      ih hlinks' (fun q hq => hleaves q (mem_cons_of_mem o hq))
        (fun q hq => hentry q (mem_cons_of_mem o hq)) hcalls'
    rw [iterate, headD_cons, if_neg hzero, bind_of_eq_ok (hentry o mem_cons_self),
      bind_of_eq_ok (leaf_of_lookup hx), hnext, bind_of_eq_ok hrest]
    rfl

end YangList

end Snabb
