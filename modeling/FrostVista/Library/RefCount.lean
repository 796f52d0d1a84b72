import Mathlib.Data.Set.Card

/-!
# Reference counts of shared resources

Places hold resources, several places may hold the same one, and a counter is kept for each
resource. `Counted` says that the counter of every held resource is the number of places that hold
it.

`Balanced` speaks about all resources and about the middle of an operation: besides the places there
are references in transit, which the operation has taken and not yet stored or given back.
-/
namespace Lib.RefCount

open Function List Option Set

variable {X P : Type}

/-- The places that hold `p`. -/
def holders (f : X → Option P) (p : P) : Set X := {x | f x = some p}

def Held (f : X → Option P) (p : P) : Prop := ∃ x, f x = some p

structure Counted (f : X → Option P) (cnt : P → Int) : Prop where
  finite : {x | f x ≠ none}.Finite
  count : ∀ p, Held f p → cnt p = (holders f p).ncard

variable {f : X → Option P} {cnt : P → Int} {x y : X} {p q : P}

@[simp] lemma mem_holders : x ∈ holders f p ↔ f x = some p := Iff.rfl

lemma holders_finite (h : {x | f x ≠ none}.Finite) (p : P) : (holders f p).Finite := by
  refine h.subset fun x hx => ?_
  simp [mem_holders.mp hx]

lemma Counted.pos (h : Counted f cnt) (hp : Held f p) : 1 ≤ cnt p := by
  obtain ⟨x, hx⟩ := hp
  have hne : (holders f p).ncard ≠ 0 :=
    (ncard_pos (holders_finite h.finite p)).mpr ⟨x, hx⟩ |>.ne'
  rw [h.count p ⟨x, hx⟩]
  omega

lemma Counted.unique (h : Counted f cnt) (hc : cnt p ≤ 1) (hx : f x = some p)
    (hy : f y = some p) : x = y := by
  have hle : (holders f p).ncard ≤ 1 := by
    have := h.count p ⟨x, hx⟩
    omega
  exact (ncard_le_one (holders_finite h.finite p)).mp hle x hx y hy

lemma Counted.congr (h : Counted f cnt) (hc : ∀ p, Held f p → cnt' p = cnt p) :
    Counted f cnt' :=
  ⟨h.finite, fun p hp => (hc p hp).trans (h.count p hp)⟩

lemma Counted.set_cnt [DecidableEq P] (h : Counted f cnt) (hp : ¬Held f p) (n : Int) :
    Counted f (update cnt p n) := by
  refine h.congr fun q hq => ?_
  have hne : q ≠ p := by
    rintro rfl
    exact hp hq
  rw [update_of_ne hne]

section Update

variable [DecidableEq X]

lemma support_update_finite (h : {x | f x ≠ none}.Finite) (x : X) (o : Option P) :
    {y | update f x o y ≠ none}.Finite := by
  refine (h.insert x).subset fun y hy => ?_
  by_cases hyx : y = x
  · exact .inl hyx
  · exact .inr (by simpa [update_of_ne hyx] using hy)

lemma holders_update_some (x : X) (p : P) :
    holders (update f x (some p)) p = insert x (holders f p) := by
  ext y
  by_cases hyx : y = x
  · subst hyx
    simp
  · simp [hyx]

lemma holders_update_of_ne (ho : o ≠ some q) (hx : f x ≠ some q) :
    holders (update f x o) q = holders f q := by
  ext y
  by_cases hyx : y = x
  · subst hyx
    simp [ho, hx]
  · simp [update_of_ne hyx]

lemma holders_update_none : holders (update f x none) p = holders f p \ {x} := by
  ext y
  by_cases hyx : y = x
  · subst hyx
    simp
  · simp [hyx]

lemma held_update_of_ne (ho : o ≠ some q) (hx : f x ≠ some q) :
    Held (update f x o) q ↔ Held f q := by
  have h := holders_update_of_ne ho hx
  simp only [holders, Set.ext_iff, Set.mem_ofPred_eq] at h
  simp only [Held, h]

section
variable (h : Counted f cnt)
include h

lemma Counted.hold (hx : f x = none) (hp : ¬Held f p) (hc : cnt p = 1) :
    Counted (update f x (some p)) cnt := by
  refine ⟨support_update_finite h.finite x _, fun q hq => ?_⟩
  by_cases hqp : q = p
  · subst hqp
    have hempty : holders f q = ∅ := eq_empty_of_forall_notMem fun y hy => hp ⟨y, hy⟩
    rw [holders_update_some, hempty, hc]
    simp
  · have ho : some p ≠ some q := fun he => hqp (some.inj he).symm
    have hxq : f x ≠ some q := by simp [hx]
    rw [holders_update_of_ne ho hxq]
    exact h.count q ((held_update_of_ne ho hxq).mp hq)

lemma Counted.share [DecidableEq P] (hy : f y = none) (hp : Held f p) :
    Counted (update f y (some p)) (update cnt p (cnt p + 1)) := by
  refine ⟨support_update_finite h.finite y _, fun q hq => ?_⟩
  by_cases hqp : q = p
  · subst hqp
    have hmem : y ∉ holders f q := by simp [hy]
    rw [holders_update_some, ncard_insert_of_notMem hmem (holders_finite h.finite q),
      update_self, h.count q hp]
    push_cast
    rfl
  · have ho : some p ≠ some q := fun he => hqp (some.inj he).symm
    have hyq : f y ≠ some q := by simp [hy]
    rw [holders_update_of_ne ho hyq, update_of_ne hqp]
    exact h.count q ((held_update_of_ne ho hyq).mp hq)

section
variable (hx : f x = some p)
include hx

lemma ncard_drop :
    ((holders (update f x none) p).ncard : Int) = cnt p - 1 := by
  have hmem : x ∈ holders f p := hx
  have hcard := ncard_sdiff_singleton_add_one hmem (holders_finite h.finite p)
  rw [holders_update_none, h.count p ⟨x, hx⟩]
  omega

lemma Counted.drop [DecidableEq P] :
    Counted (update f x none) (update cnt p (cnt p - 1)) := by
  refine ⟨support_update_finite h.finite x _, fun q hq => ?_⟩
  by_cases hqp : q = p
  · subst hqp
    rw [update_self, ncard_drop h hx]
  · have hxq : f x ≠ some q := fun he => hqp (some.inj (he.symm.trans hx))
    rw [holders_update_of_ne (by simp) hxq, update_of_ne hqp]
    exact h.count q ((held_update_of_ne (by simp) hxq).mp hq)

lemma Counted.drop_last (hc : cnt p ≤ 1) :
    ¬Held (update f x none) p := by
  rintro ⟨y, hy⟩
  by_cases hyx : y = x
  · subst hyx
    simp at hy
  · rw [update_of_ne hyx] at hy
    exact hyx (h.unique hc hy hx)

lemma Counted.drop_last_counted (hc : cnt p ≤ 1) :
    Counted (update f x none) cnt := by
  refine ⟨support_update_finite h.finite x _, fun q hq => ?_⟩
  have hqp : q ≠ p := by
    rintro rfl
    exact h.drop_last hx hc hq
  have hxq : f x ≠ some q := fun he => hqp (some.inj (he.symm.trans hx))
  rw [holders_update_of_ne (by simp) hxq]
  exact h.count q ((held_update_of_ne (by simp) hxq).mp hq)

lemma Counted.held_of_drop (hc : 1 < cnt p) :
    Held (update f x none) p := by
  have hcard := ncard_drop h hx
  have hpos : 0 < (holders (update f x none) p).ncard := by omega
  obtain ⟨y, hy⟩ := (ncard_pos
    (holders_finite (support_update_finite h.finite x none) p)).mp hpos
  exact ⟨y, hy⟩

end

end

end Update

/-! ## References in transit -/

/-- Every counter is the number of places that hold the resource and of references in transit. -/
structure Balanced [DecidableEq P] (f : X → Option P) (cnt : P → Int) (transit : List P) :
    Prop where
  finite : {x | f x ≠ none}.Finite
  count : ∀ p, cnt p = (holders f p).ncard + transit.count p

namespace Balanced

variable [DecidableEq P] {transit : List P}

lemma pos_of_held (h : Balanced f cnt transit) (hp : f x = some p) : 1 ≤ cnt p := by
  have hpos : 0 < (holders f p).ncard :=
    (ncard_pos (holders_finite h.finite p)).mpr ⟨x, hp⟩
  rw [h.count p]
  omega

lemma pos_of_transit (h : Balanced f cnt transit) (hp : p ∈ transit) : 1 ≤ cnt p := by
  have hpos : 0 < transit.count p := count_pos_iff.mpr hp
  rw [h.count p]
  omega

lemma acquire (h : Balanced f cnt transit) (p : P) :
    Balanced f (update cnt p (cnt p + 1)) (p :: transit) := by
  refine ⟨h.finite, fun q => ?_⟩
  by_cases hq : q = p
  · subst hq
    rw [update_self, count_cons_self, h.count q]
    push_cast
    omega
  · rw [update_of_ne hq, count_cons_of_ne (Ne.symm hq), h.count q]

lemma release (h : Balanced f cnt (p :: transit)) :
    Balanced f (update cnt p (cnt p - 1)) transit := by
  refine ⟨h.finite, fun q => ?_⟩
  have hcount := h.count q
  by_cases hq : q = p
  · subst hq
    rw [count_cons_self] at hcount
    rw [update_self]
    omega
  · rw [count_cons_of_ne (Ne.symm hq)] at hcount
    rw [update_of_ne hq, hcount]

variable [DecidableEq X]

lemma put (h : Balanced f cnt (p :: transit)) (hx : f x = none) :
    Balanced (update f x (some p)) cnt transit := by
  refine ⟨support_update_finite h.finite x _, fun q => ?_⟩
  have hcount := h.count q
  by_cases hq : q = p
  · subst hq
    have hmem : x ∉ holders f q := by simp [hx]
    rw [count_cons_self] at hcount
    rw [holders_update_some, ncard_insert_of_notMem hmem (holders_finite h.finite q)]
    omega
  · rw [count_cons_of_ne (Ne.symm hq)] at hcount
    rw [holders_update_of_ne (fun he => hq (some.inj he).symm) (by simp [hx]), hcount]

lemma take (h : Balanced f cnt transit) (hx : f x = some p) :
    Balanced (update f x none) cnt (p :: transit) := by
  refine ⟨support_update_finite h.finite x _, fun q => ?_⟩
  have hcount := h.count q
  by_cases hq : q = p
  · subst hq
    have hmem : x ∈ holders f q := hx
    have hcard := ncard_sdiff_singleton_add_one hmem (holders_finite h.finite q)
    rw [count_cons_self, holders_update_none]
    omega
  · rw [count_cons_of_ne (Ne.symm hq),
      holders_update_of_ne (by simp) (fun he => hq (some.inj (he.symm.trans hx))), hcount]

end Balanced

/-! ## Bounds on the number of references -/

section Bound

variable {S S' : Set X} {n : Nat}

section
variable (h : S.encard ≤ n)
include h

lemma one_le_of_mem (hx : x ∈ S) : 1 ≤ n := by
  have hone : (1 : ℕ∞) ≤ n := (one_le_encard_iff_nonempty.mpr ⟨x, hx⟩).trans h
  exact_mod_cast hone

lemma encard_le_take (hs : S' ⊆ insert x S) : S'.encard ≤ (n + 1 : Nat) :=
  calc S'.encard ≤ (insert x S).encard := encard_le_encard hs
    _ ≤ S.encard + 1 := encard_insert_le S x
    _ ≤ (n + 1 : Nat) := by push_cast; gcongr

lemma encard_le_drop (hx : x ∈ S) (hx' : x ∉ S') (hs : S' ⊆ S) :
    S'.encard ≤ (n - 1 : Nat) := by
  have hone : S'.encard + 1 ≤ n := by
    rw [← encard_insert_of_notMem hx']
    exact (encard_le_encard (insert_subset hx hs)).trans h
  have hfinite : S'.encard ≠ ⊤ := by
    intro hc
    rw [hc] at hone
    simp at hone
  obtain ⟨k, hk⟩ := ENat.ne_top_iff_exists.mp hfinite
  rw [← hk] at hone ⊢
  norm_cast at hone ⊢
  omega

lemma encard_le_move (hx : x ∈ S) (hs : S' ⊆ insert y (S \ {x})) : S'.encard ≤ n := by
  have hpos := one_le_of_mem h hx
  have hdrop : (S \ {x}).encard ≤ (n - 1 : Nat) := encard_le_drop h hx (by simp) sdiff_subset
  have htake := encard_le_take hdrop hs
  rwa [Nat.sub_add_cancel hpos] at htake

end

end Bound

end Lib.RefCount
