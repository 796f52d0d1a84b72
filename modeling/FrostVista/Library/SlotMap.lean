import Mathlib.Data.List.Nodup

/-!
# Tables of slots as finite maps

A table is a list of slots; a slot is free or holds a key with a value. A new key is put into the
first free slot, or into a new one at the end, and a key is removed by freeing its slot.
-/
namespace Lib.SlotMap

open Function List

variable {K V : Type}

abbrev Table (K V : Type) := List (Option (K × V))

/-- What a slot holds for the key. -/
def value [DecidableEq K] (key : K) : Option (K × V) → Option V
  | some p => if p.1 = key then some p.2 else none
  | none => none

/-- The value in the first slot with the key. -/
def find [DecidableEq K] (l : Table K V) (key : K) : Option V := l.findSome? (value key)

/-- The first free slot, or the end. -/
def hole (l : Table K V) : Nat := l.findIdx (·.isNone)

def put (l : Table K V) (p : K × V) : Table K V :=
  if hole l < l.length then l.set (hole l) (some p) else l ++ [some p]

/-- The slot `j` is freed. -/
def free (l : Table K V) (j : Nat) : Table K V := l.set j none

/-- The keys with their values. -/
def entries (l : Table K V) : List (K × V) := l.filterMap id

/-- No key is in two slots. -/
def Distinct (l : Table K V) : Prop :=
  ∀ (i j : Nat) (p q : K × V), l[i]? = some (some p) → l[j]? = some (some q) → p.1 = q.1 → i = j

variable {l : Table K V} {key key' : K} {a : V} {p : K × V} {i j : Nat}

/-! ## Finding a key -/

lemma value_eq_some [DecidableEq K] : value key e = some a ↔ e = some (key, a) := by
  cases e with
  | none => simp [value]
  | some p =>
    obtain ⟨k, b⟩ := p
    simp only [value]
    split_ifs with h
    · simp [h]
    · simp [h]

lemma find_eq_none [DecidableEq K] : find l key = none ↔ ∀ a, some (key, a) ∉ l := by
  rw [find, findSome?_eq_none_iff]
  refine ⟨fun h a ha => ?_, fun h e he => ?_⟩
  · have hnone := h _ ha
    simp [value] at hnone
  · cases hv : value key e with
    | none => rfl
    | some a => exact absurd (value_eq_some.mp hv ▸ he) (h a)

lemma mem_of_find [DecidableEq K] (h : find l key = some a) : some (key, a) ∈ l := by
  obtain ⟨e, he, hv⟩ := exists_of_findSome?_eq_some h
  exact value_eq_some.mp hv ▸ he

lemma Distinct.find_eq_some [DecidableEq K] (h : Distinct l) :
    find l key = some a ↔ some (key, a) ∈ l := by
  refine ⟨mem_of_find, fun ha => ?_⟩
  cases hf : find l key with
  | none => exact absurd ha (find_eq_none.mp hf a)
  | some b =>
    obtain ⟨i, hi⟩ := mem_iff_getElem?.mp ha
    obtain ⟨j, hj⟩ := mem_iff_getElem?.mp (mem_of_find hf)
    have hij := h i j _ _ hi hj rfl
    rw [hij, hj] at hi
    simpa using hi

/-! ## Putting a key -/

lemma hole_le : hole l ≤ l.length := findIdx_le_length

lemma getElem?_put (i : Nat) : (put l p)[i]? = if i = hole l then some (some p) else l[i]? := by
  have hle := hole_le (l := l)
  unfold put
  by_cases hi : i = hole l
  · subst hi
    rw [if_pos rfl]
    split_ifs with hlt
    · exact getElem?_set_self hlt
    · have heq : hole l = l.length := by omega
      rw [heq, getElem?_append_right (Nat.le_refl _)]
      simp
  · rw [if_neg hi]
    split_ifs with hlt
    · exact getElem?_set_ne (Ne.symm hi)
    · have heq : hole l = l.length := by omega
      rcases Nat.lt_or_ge i l.length with hil | hil
      · exact getElem?_append_left hil
      · rw [getElem?_eq_none (by simp; omega), getElem?_eq_none hil]

lemma getElem?_hole (q : K × V) : l[hole l]? ≠ some (some q) := by
  intro h
  obtain ⟨hlt, hget⟩ := List.getElem?_eq_some_iff.mp h
  have hnone : l[hole l].isNone = true := findIdx_getElem
  rw [hget] at hnone
  cases hnone

lemma mem_put : some p ∈ put l (key, a) ↔ p = (key, a) ∨ some p ∈ l := by
  simp only [mem_iff_getElem?, getElem?_put]
  constructor
  · rintro ⟨i, hi⟩
    split_ifs at hi with hh
    · exact .inl (by simpa using hi.symm)
    · exact .inr ⟨i, hi⟩
  · rintro (rfl | ⟨i, hi⟩)
    · exact ⟨hole l, by simp⟩
    · refine ⟨i, ?_⟩
      rw [if_neg fun hh => getElem?_hole p (hh ▸ hi)]
      exact hi

lemma Distinct.put [DecidableEq K] (h : Distinct l) (hnew : find l key = none) :
    Distinct (put l (key, a)) := by
  have hnot : ∀ (i : Nat) (q : K × V), l[i]? = some (some q) → q.1 ≠ key := by
    rintro i ⟨k, b⟩ hi rfl
    exact find_eq_none.mp hnew b (mem_iff_getElem?.mpr ⟨i, hi⟩)
  intro i j q r hi hj hqr
  rw [getElem?_put] at hi hj
  split_ifs at hi hj with hih hjh hjh
  · rw [hih, hjh]
  · cases hi
    exact absurd hqr.symm (hnot j r hj)
  · cases hj
    exact absurd hqr (hnot i q hi)
  · exact h i j q r hi hj hqr

lemma Distinct.find_put [DecidableEq K] (h : Distinct l) (hnew : find l key = none) :
    find (SlotMap.put l (key, a)) = update (find l) key (some a) := by
  funext k
  refine Option.ext fun b => ?_
  rw [(h.put hnew).find_eq_some, mem_put, ← h.find_eq_some]
  by_cases hk : k = key
  · subst hk
    simp [hnew, eq_comm]
  · simp [hk]

/-! ## Freeing a slot -/

lemma getElem?_free (i : Nat) :
    (free l j)[i]? = if i = j ∧ i < l.length then some none else l[i]? := by
  unfold free
  by_cases hij : i = j
  · subst hij
    by_cases hlt : i < l.length
    · rw [getElem?_set_self hlt, if_pos ⟨rfl, hlt⟩]
    · rw [if_neg fun hc => hlt hc.2, getElem?_eq_none (by simp; omega), getElem?_eq_none (by omega)]
  · rw [getElem?_set_ne (Ne.symm hij), if_neg fun hc => hij hc.1]

lemma getElem?_free_eq_some :
    (free l j)[i]? = some (some q) ↔ i ≠ j ∧ l[i]? = some (some q) := by
  rw [getElem?_free]
  by_cases hij : i = j
  · subst hij
    simp only [true_and, ne_eq, not_true_eq_false, false_and, iff_false]
    split_ifs with hlt
    · simp
    · rw [getElem?_eq_none (by omega)]
      simp
  · simp [hij]

lemma Distinct.free (h : Distinct l) (j : Nat) :
    Distinct (SlotMap.free l j) := fun i k p q hi hk hpq =>
  h i k p q (getElem?_free_eq_some.mp hi).2 (getElem?_free_eq_some.mp hk).2 hpq

lemma Distinct.find_free [DecidableEq K] (h : Distinct l) (hj : l[j]? = some (some (key, a))) :
    find (SlotMap.free l j) = update (find l) key none := by
  funext k
  refine Option.ext fun b => ?_
  rw [(h.free j).find_eq_some, mem_iff_getElem?]
  simp only [getElem?_free_eq_some]
  by_cases hk : k = key
  · subst hk
    simp only [update_self, reduceCtorEq, iff_false, not_exists, not_and]
    intro i hij hi
    exact hij (h i j _ _ hi hj rfl)
  · rw [update_of_ne hk, h.find_eq_some, mem_iff_getElem?]
    refine ⟨fun ⟨i, _, hi⟩ => ⟨i, hi⟩, fun ⟨i, hi⟩ => ⟨i, ?_, hi⟩⟩
    rintro rfl
    rw [hj] at hi
    simp at hi
    exact hk hi.1.symm

/-! ## The entries -/

lemma mem_entries : p ∈ entries l ↔ some p ∈ l := by
  simp [entries]

lemma Distinct.nodup_entries (h : Distinct l) : ((entries l).map Prod.fst).Nodup := by
  rw [entries, map_filterMap, nodup_iff_pairwise_ne, pairwise_filterMap, pairwise_iff_getElem]
  intro i j hi hj hij k hk k' hk' hkk
  simp only [id_eq, Option.map_eq_some_iff] at hk hk'
  obtain ⟨p, hp, rfl⟩ := hk
  obtain ⟨q, hq, rfl⟩ := hk'
  have heq := h i j p q (by rw [getElem?_eq_getElem hi, hp])
    (by rw [getElem?_eq_getElem hj, hq]) hkk
  omega

end Lib.SlotMap
