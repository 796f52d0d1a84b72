import Mathlib.Data.Fintype.Card

/-!
# Linked lists

A list of items threaded through `next` pointers, with a head node that belongs to no item: `Loop`
says which list the pointers lead through from the head. `Spells` says the same of `next` and `prev`
pointers. Inserting behind the head, taking an item out and searching in either direction are the
operations.
-/
namespace Lib.Chain

open Function List Option

variable {α : Type} [DecidableEq α]

/-- A node is an item, or the head. -/
abbrev Node (α : Type) := Option α

structure Links (α : Type) where
  next : Node α → Node α
  prev : Node α → Node α

namespace Links

variable (l : Links α)

def setNext (u v : Node α) : Links α := { l with next := Function.update l.next u v }

def setPrev (u v : Node α) : Links α := { l with prev := Function.update l.prev u v }

/-- The head alone. -/
def empty : Links α := ⟨fun _ => none, fun _ => none⟩

/-- Links an item between the head and its successor. -/
def pushFront (b : α) : Links α :=
  let l := l.setNext (some b) (l.next none)
  let l := l.setPrev (some b) none
  let l := l.setPrev (l.next none) (some b)
  l.setNext none (some b)

/-- Makes the neighbours of an item neighbours of each other. -/
def remove (b : α) : Links α :=
  let l := l.setPrev (l.next (some b)) (l.prev (some b))
  l.setNext (l.prev (some b)) (l.next (some b))

end Links

/-- The loop `for (u = start; u != &head; u = follow(u))` that stops at the first item with `p`. -/
def search (follow : Node α → Node α) (p : α → Bool) : Nat → Node α → Option α
  | 0, _ => none
  | _ + 1, none => none
  | n + 1, some b => if p b then some b else search follow p n (follow (some b))

/-! ## Singly linked lists -/

/-- From `a` the pointers lead through the items of the list to `stop`. -/
def Threaded (next : β → β) (stop : β) : β → List β → Prop
  | a, [] => a = stop
  | a, y :: ys => a = y ∧ Threaded next stop (next y) ys

lemma Threaded.congr (h : Threaded f stop a ys) (hg : ∀ y ∈ ys, g y = f y) :
    Threaded g stop a ys := by
  induction ys generalizing a with
  | nil => exact h
  | cons y ys ih =>
    refine ⟨h.1, ?_⟩
    rw [hg y mem_cons_self]
    exact ih h.2 fun z hz => hg z (mem_cons_of_mem y hz)

lemma Threaded.unique (h : Threaded f stop a ys) (h' : Threaded f stop a zs) (hy : stop ∉ ys)
    (hz : stop ∉ zs) : ys = zs := by
  induction ys generalizing a zs with
  | nil =>
    cases zs with
    | nil => rfl
    | cons z zs => exact absurd (h.symm.trans h'.1) (by grind)
  | cons y ys ih =>
    cases zs with
    | nil => exact absurd (h'.symm.trans h.1) (by grind)
    | cons z zs =>
      obtain rfl : y = z := h.1.symm.trans h'.1
      rw [ih h.2 h'.2 (by grind) (by grind)]

lemma threaded_append :
    Threaded f stop a (ys ++ y :: zs) ↔ Threaded f y a ys ∧ Threaded f stop (f y) zs := by
  induction ys generalizing a with
  | nil => rfl
  | cons x ys ih => simp only [cons_append, Threaded, ih, and_assoc]

/-- From the head the pointers lead through the items of the list and back to the head. -/
def Loop (next : Node α → Node α) (xs : List α) : Prop :=
  Threaded next none (next none) (xs.map some)

variable {next : Node α → Node α} {xs as bs : List α} {b : α}

/-- A new item is linked behind the items `as`. -/
lemma Loop.insert (h : Loop next (as ++ bs)) (hb : b ∉ as ++ bs) (hnd : (as ++ bs).Nodup) :
    Loop (update (update next (some b) (next as.getLast?)) as.getLast? (some b))
      (as ++ b :: bs) := by
  unfold Loop at h ⊢
  rcases eq_nil_or_concat' as with rfl | ⟨as, j, rfl⟩
  · simp only [getLast?_nil, nil_append, update_self, map_cons]
    refine ⟨rfl, ?_⟩
    rw [update_of_ne (some_ne_none b), update_self]
    exact h.congr fun y hy => by grind
  · rw [getLast?_concat]
    simp only [append_assoc, cons_append, nil_append, map_append, map_cons, threaded_append,
      update_self, Threaded, true_and] at h ⊢
    have hbj : some b ≠ some j := by grind
    rw [update_of_ne (some_ne_none j).symm, update_of_ne (some_ne_none b).symm, update_of_ne hbj,
      update_self]
    exact ⟨h.1.congr fun y hy => by grind, h.2.congr fun y hy => by grind⟩

/-- The item behind the items `as` is taken out. -/
lemma Loop.remove (h : Loop next (as ++ b :: bs)) (hnd : (as ++ b :: bs).Nodup) :
    Loop (update next as.getLast? (next (some b))) (as ++ bs) := by
  unfold Loop at h ⊢
  rw [map_append, map_cons, threaded_append] at h
  rcases eq_nil_or_concat' as with rfl | ⟨as, j, rfl⟩
  · simp only [getLast?_nil, nil_append, update_self]
    exact h.2.congr fun y hy => by grind
  · rw [getLast?_concat]
    simp only [append_assoc, cons_append, nil_append, map_append, map_cons, map_nil,
      threaded_append, update_self, Threaded] at h ⊢
    rw [update_of_ne (some_ne_none j).symm]
    exact ⟨h.1.1.congr fun y hy => by grind, h.2.congr fun y hy => by grind⟩

omit [DecidableEq α] in
lemma Loop.search_eq (h : Loop next xs) (p : α → Bool) (hn : xs.length ≤ n) :
    search next p n (next none) = xs.find? p := by
  unfold Loop at h
  generalize next none = a at h ⊢
  induction xs generalizing a n with
  | nil =>
    obtain rfl : a = none := h
    cases n <;> rfl
  | cons x xs ih =>
    obtain ⟨rfl, hrest⟩ := h
    obtain ⟨n, rfl⟩ : ∃ k, n = k + 1 := ⟨n - 1, by simp at hn; omega⟩
    rw [search, find?_cons]
    cases p x with
    | true => rfl
    | false => exact ih (by simpa using hn) _ hrest

/-! ## Doubly linked lists -/

/-- From the node `u` the pointers lead through the items of the list to the node `v`. -/
def Segment (l : Links α) : Node α → List α → Node α → Prop
  | u, [], v => l.next u = v ∧ l.prev v = u
  | u, x :: xs, v => l.next u = some x ∧ l.prev (some x) = u ∧ Segment l (some x) xs v

structure Spells (l : Links α) (xs : List α) : Prop where
  nodup : xs.Nodup
  segment : Segment l none xs none

variable {l : Links α} {u v : Node α}

omit [DecidableEq α] in
lemma segment_iff : Segment l u xs v ↔
    Threaded l.next v (l.next u) (xs.map some) ∧
      Threaded l.prev u (l.prev v) (xs.reverse.map some) := by
  induction xs generalizing u with
  | nil => rfl
  | cons x xs ih =>
    simp only [Segment, ih, map_cons, reverse_cons, map_append, map_nil, threaded_append, Threaded]
    tauto

omit [DecidableEq α] in
lemma spells_iff : Spells l xs ↔ xs.Nodup ∧ Loop l.next xs ∧ Loop l.prev xs.reverse :=
  ⟨fun h => ⟨h.nodup, segment_iff.mp h.segment⟩, fun h => ⟨h.1, segment_iff.mpr h.2⟩⟩

omit [DecidableEq α] in
lemma spells_empty : Spells (Links.empty : Links α) [] := ⟨nodup_nil, rfl, rfl⟩

lemma Links.pushFront_eq (h : l.next none = v) : l.pushFront b =
    ⟨update (update l.next (some b) v) none (some b),
      update (update l.prev (some b) none) v (some b)⟩ := by
  simp [Links.pushFront, Links.setNext, Links.setPrev, h]

lemma Links.remove_eq (hnext : l.next (some b) = v) (hprev : l.prev (some b) = u) :
    l.remove b = ⟨update l.next u v, update l.prev v u⟩ := by
  have hu : update l.prev v u (some b) = u := by
    by_cases hv : some b = v
    · rw [hv, update_self]
    · rw [update_of_ne hv, hprev]
  simp only [Links.remove, Links.setNext, Links.setPrev, hnext, hprev, hu]

omit [DecidableEq α] in
/-- The last item before a place leads to the first one behind it. -/
lemma Loop.next_eq (h : Loop next (as ++ bs)) : next as.getLast? = bs.head? := by
  have hstart : ∀ {a}, Threaded next none a (bs.map some) → a = bs.head? := by
    cases bs with
    | nil => exact id
    | cons x bs => exact And.left
  unfold Loop at h
  rcases eq_nil_or_concat' as with rfl | ⟨as, j, rfl⟩
  · exact hstart h
  · rw [map_append, map_append, append_assoc, map_cons, cons_append, threaded_append] at h
    rw [getLast?_concat]
    exact hstart h.2

lemma Spells.pushFront (h : Spells l xs) (hb : b ∉ xs) : Spells (l.pushFront b) (b :: xs) := by
  obtain ⟨hnodup, hnext, hprev⟩ := spells_iff.mp h
  rw [← append_nil xs.reverse] at hprev
  have hlast : l.prev xs.head? = none := getLast?_reverse ▸ hprev.next_eq
  have hback := hprev.insert (by simpa using hb) (by simpa using hnodup)
  rw [getLast?_reverse, hlast, ← reverse_cons] at hback
  have hfirst : l.next none = xs.head? := @Loop.next_eq _ _ [] _ hnext
  rw [Links.pushFront_eq hfirst, spells_iff]
  exact ⟨nodup_cons.mpr ⟨hb, hnodup⟩, hfirst ▸ @Loop.insert _ _ _ [] _ _ hnext hb hnodup, hback⟩

lemma Spells.remove (h : Spells l xs) (hb : b ∈ xs) : Spells (l.remove b) (xs.erase b) := by
  obtain ⟨as, bs, hnb, rfl, herase⟩ := exists_erase_eq hb
  obtain ⟨hnodup, hnext, hprev⟩ := spells_iff.mp h
  rw [reverse_append, reverse_cons, append_assoc, cons_append, nil_append] at hprev
  have hafter : l.next (some b) = bs.head? := by
    rw [append_cons] at hnext
    exact getLast?_concat ▸ hnext.next_eq
  have hbefore : l.prev (some b) = as.getLast? := by
    have hprev := hprev
    rw [append_cons] at hprev
    exact head?_reverse ▸ getLast?_concat ▸ hprev.next_eq
  have hback := hprev.remove (by simpa using nodup_reverse.mpr hnodup)
  rw [getLast?_reverse, ← reverse_append, hbefore] at hback
  rw [Links.remove_eq hafter hbefore, spells_iff]
  exact ⟨hnodup.erase b, herase ▸ hafter ▸ hnext.remove hnodup, herase ▸ hback⟩

lemma Spells.toFront (h : Spells l xs) (hb : b ∈ xs) :
    Spells ((l.remove b).pushFront b) (b :: xs.erase b) :=
  (h.remove hb).pushFront h.nodup.not_mem_erase

lemma mem_toFront (h : x ∈ xs) : x ∈ b :: xs.erase b := by
  by_cases hx : x = b
  · exact hx ▸ mem_cons_self
  · exact mem_cons_of_mem b ((mem_erase_of_ne hx).mpr h)

lemma Spells.pushAll (h : Spells l ys) (hnd : xs.Nodup) (hd : ∀ x ∈ xs, x ∉ ys) :
    Spells (xs.foldl Links.pushFront l) (xs.reverse ++ ys) := by
  induction xs generalizing l ys with
  | nil => exact h
  | cons x xs ih =>
    obtain ⟨hx, hnd⟩ := nodup_cons.mp hnd
    have hstep := ih (h.pushFront (hd x mem_cons_self)) hnd fun y hy hc => ?_
    · simpa using hstep
    · rcases mem_cons.mp hc with rfl | hc
      · exact hx hy
      · exact hd y (mem_cons_of_mem x hy) hc

lemma spells_finRange (n : Nat) :
    Spells ((finRange n).foldl Links.pushFront Links.empty) (finRange n).reverse := by
  have h := (@spells_empty (Fin n)).pushAll (nodup_finRange n) fun _ _ => not_mem_nil
  rwa [append_nil] at h

omit [DecidableEq α] in
lemma Spells.perm {n : Nat} {l : Links (Fin n)} {xs : List (Fin n)} (h : Spells l xs)
    (hmem : ∀ i, i ∈ xs) : xs.Perm (finRange n) := by
  apply (perm_ext_iff_of_nodup h.nodup (nodup_finRange n)).mpr
  intro i
  simp [hmem i]

omit [DecidableEq α] in
lemma Spells.length_le {n : Nat} {l : Links (Fin n)} {xs : List (Fin n)} (h : Spells l xs) :
    xs.length ≤ n := by
  have := h.nodup.length_le_card
  rwa [Fintype.card_fin] at this

/-! ## Searching -/

omit [DecidableEq α] in
lemma Spells.search_next (h : Spells l xs) (p : α → Bool) (hn : xs.length ≤ n) :
    search l.next p n (l.next none) = xs.find? p := (spells_iff.mp h).2.1.search_eq p hn

omit [DecidableEq α] in
lemma Spells.search_prev (h : Spells l xs) (p : α → Bool) (hn : xs.length ≤ n) :
    search l.prev p n (l.prev none) = xs.reverse.find? p :=
  (spells_iff.mp h).2.2.search_eq p (by simpa using hn)

end Lib.Chain
