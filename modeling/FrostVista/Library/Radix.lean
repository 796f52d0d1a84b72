import Mathlib.Data.Set.Insert
import Mathlib.Data.List.Induction

/-!
# Radix tables in a flat store

A store maps a table and an index to an entry, and an entry may point to another table. A path is
a list of indices followed from a root. The module says when the tables reached from a set of roots
share nothing, and what changing such a store does to every path.
-/
namespace Lib

open List Option

/-- Replaces one entry of a two-place function. -/
def write {P I E : Type} [DecidableEq P] [DecidableEq I] (st : P → I → E) (p : P) (i : I) (e : E) :
    P → I → E :=
  fun p' i' => if p' = p ∧ i' = i then e else st p' i'

section Write

variable {P I E : Type} [DecidableEq P] [DecidableEq I] {st : P → I → E} {p p' : P} {i i' : I}
  {e : E}

@[simp] lemma write_same : write st p i e p i = e := by simp [write]

lemma write_of_ne (h : ¬(p' = p ∧ i' = i)) : write st p i e p' i' = st p' i' := by
  simp [write, h]

@[simp] lemma write_write (e' : E) : write (write st p i e) p i e' = write st p i e' := by
  funext p' i'
  by_cases h : p' = p ∧ i' = i
  · simp [h.1, h.2]
  · rw [write_of_ne h, write_of_ne h, write_of_ne h]

lemma write_row_of_ne (h : p' ≠ p) : write st p i e p' = st p' := by
  funext j
  exact write_of_ne fun hj => h hj.1

end Write

namespace Radix

variable {P I E : Type}

/-- Follows the indices of a path from the table `p`. -/
def descend (next : E → Option P) (st : P → I → E) : P → List I → Option P
  | p, [] => some p
  | p, i :: path => (next (st p i)).bind fun q => descend next st q path

/-- The paths of a table hierarchy: closed under dropping the last index. -/
structure Levels (I : Type) where
  mem : List I → Prop
  nil : mem []
  init : ∀ path i, mem (path ++ [i]) → mem path

/-- `q` is a table of the hierarchy below one of the roots. -/
def Table (next : E → Option P) (lv : Levels I) (roots : Set P) (st : P → I → E) (q : P) : Prop :=
  ∃ r ∈ roots, ∃ path, lv.mem path ∧ descend next st r path = some q

/-- Every table is reached by one path from one root only. -/
def Forest (next : E → Option P) (lv : Levels I) (roots : Set P) (st : P → I → E) : Prop :=
  ∀ r ∈ roots, ∀ r' ∈ roots, ∀ path path', lv.mem path → lv.mem path' →
    ∀ q, descend next st r path = some q → descend next st r' path' = some q →
      r = r' ∧ path = path'

variable {next : E → Option P} {lv : Levels I} {roots : Set P} {st st' : P → I → E}

@[simp] lemma descend_nil (p : P) : descend next st p [] = some p := rfl

lemma descend_append (p : P) (path path' : List I) : descend next st p (path ++ path') =
      (descend next st p path).bind fun q => descend next st q path' := by
  induction path generalizing p with
  | nil => rfl
  | cons i path ih =>
    simp only [cons_append, descend]
    cases next (st p i) with
    | none => rfl
    | some q => exact ih q

lemma descend_snoc (p : P) (path : List I) (i : I) :
    descend next st p (path ++ [i]) = (descend next st p path).bind fun q => next (st q i) := by
  rw [descend_append]
  congr 1
  funext q
  simp [descend]

variable {r q : P} {path : List I}

lemma Table.of_root (h : r ∈ roots) : Table next lv roots st r :=
  ⟨r, h, [], lv.nil, rfl⟩

lemma Table.of_descend (hr : r ∈ roots) (hp : lv.mem path)
    (h : descend next st r path = some q) : Table next lv roots st q :=
  ⟨r, hr, path, hp, h⟩

lemma Table.mono (hs : roots' ⊆ roots)
    (h : Table next lv roots' st q) : Table next lv roots st q := by
  obtain ⟨r, hr, path, hp, hd⟩ := h
  exact ⟨r, hs hr, path, hp, hd⟩

/-- The store matters only in the entries on paths of the hierarchy. -/
lemma descend_congr_on
    (h : ∀ r ∈ roots, ∀ path i, lv.mem (path ++ [i]) → ∀ q, descend next st r path = some q →
      next (st' q i) = next (st q i)) (hr : r ∈ roots) (hp : lv.mem path) :
    descend next st' r path = descend next st r path := by
  induction path using reverseRecOn with
  | nil => rfl
  | append_singleton path i ih =>
    rw [descend_snoc, descend_snoc, ih (lv.init path i hp)]
    cases hd : descend next st r path with
    | none => rfl
    | some q => exact h r hr path i hp q hd

lemma Forest.of_sub (hf : Forest next lv roots st)
    (h : ∀ r ∈ roots, ∀ path, lv.mem path → ∀ q, descend next st' r path = some q →
      descend next st r path = some q) : Forest next lv roots st' :=
  fun r hr r' hr' path path' hp hp' q hd hd' =>
    hf r hr r' hr' path path' hp hp' q (h r hr path hp q hd) (h r' hr' path' hp' q hd')

lemma table_of_descend
    (h : ∀ r ∈ roots, ∀ path, lv.mem path → descend next st' r path = descend next st r path)
    (q : P) :
    Table next lv roots st' q ↔ Table next lv roots st q :=
  exists_congr fun r => and_congr_right fun hr => exists_congr fun path =>
    and_congr_right fun hp => by
    rw [h r hr path hp]

section
variable (h : ∀ q, Table next lv roots st q → st' q = st q)
include h

lemma descend_congr (hr : r ∈ roots) (hp : lv.mem path) :
    descend next st' r path = descend next st r path :=
  descend_congr_on (fun _ hr _ i hp _ hd => by rw [h _ (.of_descend hr (lv.init _ i hp) hd)]) hr hp

lemma table_congr (q : P) : Table next lv roots st' q ↔ Table next lv roots st q :=
  table_of_descend (fun _ hr _ hp => descend_congr h hr hp) q

lemma Forest.congr (hf : Forest next lv roots st) : Forest next lv roots st' :=
  hf.of_sub fun _ hr _ hp _ hd => by rwa [← descend_congr h hr hp]

end

section Root

variable {q : P}

variable {path : List I}

lemma Levels.initial (lv : Levels I) (hpre : path <+: path') (h : lv.mem path') : lv.mem path := by
  obtain ⟨rest, rfl⟩ := hpre
  induction rest using reverseRecOn with
  | nil => simpa using h
  | append_singleton rest j ih =>
    rw [← append_assoc] at h
    exact ih (lv.init _ j h)

lemma Levels.head (lv : Levels I) (h : lv.mem (i :: path)) :
    lv.mem [i] := lv.initial (prefix_append [i] path) h

lemma descend_fresh_root (hz : ∀ i, lv.mem [i] → next (st q i) = none)
    (hp : lv.mem path) (h : descend next st q path = some x) : path = [] ∧ x = q := by
  cases path with
  | nil => exact ⟨rfl, (some.inj h).symm⟩
  | cons i path => simp [descend, hz i (lv.head hp)] at h

lemma Forest.insert_root (hf : Forest next lv roots st) (hq : ¬Table next lv roots st q)
    (hz : ∀ i, lv.mem [i] → next (st q i) = none) : Forest next lv (insert q roots) st := by
  intro r hr r' hr' path path' hp hp' x hd hd'
  rcases hr with rfl | hr <;> rcases hr' with rfl | hr'
  · exact ⟨rfl, (descend_fresh_root hz hp hd).1.trans (descend_fresh_root hz hp' hd').1.symm⟩
  · obtain ⟨-, rfl⟩ := descend_fresh_root hz hp hd
    exact absurd (.of_descend hr' hp' hd') hq
  · obtain ⟨-, rfl⟩ := descend_fresh_root hz hp' hd'
    exact absurd (.of_descend hr hp hd) hq
  · exact hf r hr r' hr' path path' hp hp' x hd hd'

lemma table_insert_root (hz : ∀ i, lv.mem [i] → next (st q i) = none) (x : P) :
    Table next lv (insert q roots) st x ↔ Table next lv roots st x ∨ x = q := by
  constructor
  · rintro ⟨r, rfl | hr, path, hp, hd⟩
    · exact .inr (descend_fresh_root hz hp hd).2
    · exact .inl ⟨r, hr, path, hp, hd⟩
  · rintro (h | rfl)
    · exact h.mono (Set.subset_insert q roots)
    · exact .of_root (Set.mem_insert x roots)

end Root

/-! ## Changes given by their effect on the paths

The lemmas of this section speak about any other store. What they ask of it concerns only the
entries that lie on paths of the hierarchy. -/

section Changes

variable [DecidableEq P] [DecidableEq I] {r p q : P} {path : List I} {i : I}

variable {path' : List I} {r' : P}

section
variable (hf : Forest next lv roots st) (hr : r ∈ roots) (hp : lv.mem path)
  (hd : descend next st r path = some p)
include hf hr hp hd

/-- One entry is changed to `o`. The tables that it led to and leads to have no entries of their
own, so only the path through it changes; the other entries of the table that it led to do not
matter. -/
lemma descend_changed (hold : ∀ j, lv.mem (path ++ [i] ++ [j]) → ∀ x, next (st p i) = some x →
    next (st x j) = none)
    (hnew : ∀ j, lv.mem (path ++ [i] ++ [j]) → ∀ x, o = some x → next (st' x j) = none)
    (hrow : ∀ r' ∈ roots, ∀ path' j, lv.mem (path' ++ [j]) → ∀ p', descend next st r' path' =
      some p' →
      ¬(r' = r ∧ path' = path ++ [i]) →
      next (st' p' j) = if p' = p ∧ j = i then o else next (st p' j))
    (hr' : r' ∈ roots) (hp' : lv.mem path') : descend next st' r' path' =
      if r' = r ∧ path' = path ++ [i] then o else descend next st r' path' := by
  induction path' using reverseRecOn with
  | nil => simp
  | append_singleton path' j ih =>
    have hinit := lv.init path' j hp'
    rw [descend_snoc, descend_snoc, ih hinit]
    by_cases hc : r' = r ∧ path' = path ++ [i]
    · -- below the entry there is nothing, before and after
      obtain ⟨rfl, rfl⟩ := hc
      have hbelow : (o.bind fun x => next (st' x j)) = none :=
        bind_eq_none_iff.mpr (hnew j hp')
      have hbelow' : (next (st p i)).bind (fun x => next (st x j)) = none :=
        bind_eq_none_iff.mpr (hold j hp')
      simp [descend_snoc, hd, hbelow, hbelow']
    · rw [if_neg hc]
      cases hd' : descend next st r' path' with
      | none =>
        have hne : ¬(r' = r ∧ path' ++ [j] = path ++ [i]) := by
          rintro ⟨rfl, hpath⟩
          obtain ⟨rfl, -⟩ := append_singleton_inj.mp hpath
          simp [hd] at hd'
        rw [if_neg hne]
        rfl
      | some p' =>
        simp only [bind_some]
        rw [hrow r' hr' path' j hp' p' hd' hc]
        by_cases hw : p' = p ∧ j = i
        · obtain ⟨rfl, rfl⟩ := hw
          obtain ⟨rfl, rfl⟩ := hf r' hr' r hr path' path hinit hp p' hd' hd
          simp
        · have hne : ¬(r' = r ∧ path' ++ [j] = path ++ [i]) := by
            rintro ⟨rfl, hpath⟩
            obtain ⟨rfl, rfl⟩ := append_singleton_inj.mp hpath
            rw [hd] at hd'
            exact hw ⟨(some.inj hd').symm, rfl⟩
          rw [if_neg hne, if_neg hw]

lemma descend_linked (hn : next (st p i) = none)
    (hrow : ∀ r' ∈ roots, ∀ path' j, lv.mem (path' ++ [j]) → ∀ p', descend next st r' path' =
      some p' →
      next (st' p' j) = if p' = p ∧ j = i then some q else next (st p' j))
    (hz : ∀ j, lv.mem (path ++ [i] ++ [j]) → next (st' q j) = none)
    (hr' : r' ∈ roots) (hp' : lv.mem path') : descend next st' r' path' =
      if r' = r ∧ path' = path ++ [i] then some q else descend next st r' path' := by
  refine descend_changed hf hr hp hd ?_ ?_
    (fun r' hr' path' j hj p' hd' _ => hrow r' hr' path' j hj p' hd')
    hr' hp'
  · intro j _ x hx
    simp [hn] at hx
  · rintro j hj x ⟨⟩
    exact hz j hj

end

/-- A table without entries is taken out of its place; its own entries do not matter any more. -/
lemma descend_unlinked (hf : Forest next lv roots st) (hr : r ∈ roots) (hp : lv.mem (path ++ [i]))
    (hd : descend next st r path = some p) (hq : next (st p i) = some q)
    (hz : ∀ j, lv.mem (path ++ [i] ++ [j]) → next (st q j) = none)
    (hrow : ∀ r' ∈ roots, ∀ path' j, lv.mem (path' ++ [j]) → ∀ p', descend next st r' path' =
      some p' →
      p' ≠ q → next (st' p' j) = if p' = p ∧ j = i then none else next (st p' j))
    (hr' : r' ∈ roots) (hp' : lv.mem path') : descend next st' r' path' =
      if r' = r ∧ path' = path ++ [i] then none else descend next st r' path' := by
  have hchild : descend next st r (path ++ [i]) = some q := by simp [descend_snoc, hd, hq]
  refine descend_changed hf hr (lv.init path i hp) hd ?_ ?_ ?_ hr' hp'
  · intro j hj x hx
    obtain rfl := some.inj (hq.symm.trans hx)
    exact hz j hj
  · rintro j - x ⟨⟩
  · intro r' hr' path' j hj p' hd' hc
    refine hrow r' hr' path' j hj p' hd' ?_
    rintro rfl
    exact hc (hf r' hr' r hr path' (path ++ [i]) (lv.init path' j hj) hp p' hd' hchild)

lemma Forest.linked (hf : Forest next lv roots st) (hq : ¬Table next lv roots st q)
    (h : ∀ r' ∈ roots, ∀ path', lv.mem path' → descend next st' r' path' =
      if r' = r ∧ path' = path ++ [i] then some q else descend next st r' path') :
    Forest next lv roots st' := by
  intro r1 hr1 r2 hr2 path1 path2 hp1 hp2 x hd1 hd2
  rw [h r1 hr1 path1 hp1] at hd1
  rw [h r2 hr2 path2 hp2] at hd2
  split at hd1 <;> rename_i hc1
  · split at hd2 <;> rename_i hc2
    · exact ⟨hc1.1.trans hc2.1.symm, hc1.2.trans hc2.2.symm⟩
    · obtain rfl := some.inj hd1
      exact absurd (.of_descend hr2 hp2 hd2) hq
  · split at hd2 <;> rename_i hc2
    · obtain rfl := some.inj hd2
      exact absurd (.of_descend hr1 hp1 hd1) hq
    · exact hf r1 hr1 r2 hr2 path1 path2 hp1 hp2 x hd1 hd2

end Changes

variable [DecidableEq P] [DecidableEq I]

section Leaf

variable {r p : P} {path : List I} {i : I} {e : E}

section
variable (hf : Forest next lv roots st) (hr : r ∈ roots) (hp : lv.mem path)
  (hd : descend next st r path = some p) (hi : ¬lv.mem (path ++ [i]))
include hf hr hp hd hi

lemma descend_write_leaf (hr' : r' ∈ roots) (hp' : lv.mem path') :
    descend next (write st p i e) r' path' = descend next st r' path' := by
  refine descend_congr_on ?_ hr' hp'
  intro r' hr' path' j hj q hd'
  have hne : ¬(q = p ∧ j = i) := by
    rintro ⟨rfl, rfl⟩
    obtain ⟨-, rfl⟩ := hf r' hr' r hr path' path (lv.init path' j hj) hp q hd' hd
    exact hi hj
  rw [write_of_ne hne]

lemma Forest.write_leaf :
    Forest next lv roots (write st p i e) := by
  refine hf.of_sub fun r' hr' path' hp' q hd' => ?_
  rwa [descend_write_leaf hf hr hp hd hi hr' hp'] at hd'

lemma table_write_leaf (q : P) :
    Table next lv roots (write st p i e) q ↔ Table next lv roots st q :=
  table_of_descend (fun _ hr' _ hp' => descend_write_leaf hf hr hp hd hi hr' hp') q

end

end Leaf

section Link

variable {r p q : P} {path : List I} {i : I} {e : E}

section
variable (hf : Forest next lv roots st) (hr : r ∈ roots) (hp : lv.mem path)
  (hd : descend next st r path = some p) (hn : next (st p i) = none) (he : next e = some q)
  (hq : ¬Table next lv roots st q) (hz : ∀ j, next (st q j) = none)
include hf hr hp hd hn he hq hz

/-- Linking a fresh table with no children of its own adds exactly one path. -/
lemma descend_link (hr' : r' ∈ roots) (hp' : lv.mem path') :
    descend next (write st p i e) r' path' =
      if r' = r ∧ path' = path ++ [i] then some q else descend next st r' path' := by
  have hqp : q ≠ p := by
    rintro rfl
    exact hq (.of_descend hr hp hd)
  refine descend_linked hf hr hp hd hn ?_ ?_ hr' hp'
  · intro r' _ path' j _ p' _
    by_cases hw : p' = p ∧ j = i
    · obtain ⟨rfl, rfl⟩ := hw
      simp [he]
    · rw [if_neg hw, write_of_ne hw]
  · intro j _
    rw [write_of_ne fun h => hqp h.1, hz]

lemma Forest.link :
    Forest next lv roots (write st p i e) :=
  hf.linked hq fun _ hr' _ hp' => descend_link hf hr hp hd hn he hq hz hr' hp'

end

lemma table_link (hf : Forest next lv roots st) (hr : r ∈ roots) (hp : lv.mem path)
    (hd : descend next st r path = some p) (hi : lv.mem (path ++ [i]))
    (hn : next (st p i) = none) (he : next e = some q)
    (hq : ¬Table next lv roots st q) (hz : ∀ j, next (st q j) = none) (x : P) :
    Table next lv roots (write st p i e) x ↔ Table next lv roots st x ∨ x = q := by
  constructor
  · rintro ⟨r', hr', path', hp', hd'⟩
    rw [descend_link hf hr hp hd hn he hq hz hr' hp'] at hd'
    split at hd'
    · exact .inr (some.inj hd').symm
    · exact .inl ⟨r', hr', path', hp', hd'⟩
  · rintro (⟨r', hr', path', hp', hd'⟩ | rfl)
    · refine ⟨r', hr', path', hp', ?_⟩
      rw [descend_link hf hr hp hd hn he hq hz hr' hp', if_neg, hd']
      rintro ⟨rfl, rfl⟩
      simp [descend_snoc, hd, hn] at hd'
    · refine ⟨r, hr, path ++ [i], hi, ?_⟩
      rw [descend_link hf hr hp hd hn he hq hz hr hi, if_pos ⟨rfl, rfl⟩]

end Link

end Radix

end Lib
