import FrostVista.Library.Radix
import Mathlib.Data.Finset.Lattice.Union
import Mathlib.Order.Interval.Finset.Nat

/-!
# Block trees

The blocks of a file form a tree: some are named by the inode itself, some by one index block, and
the rest by the index blocks that a second index block names. The parameters are the number of
direct blocks and the number of entries of an index block. The tree is filled from the top: a block
is reached when all the places on the way to it have a node.
-/
namespace Lib.BlockTree

open Radix List Finset

variable {direct fan : Nat}

/-- The places of the tree. -/
def isPlace (direct fan : Nat) : List Nat → Prop
  | [] => True
  | [i] => i < direct + 2
  | [i, j] => direct ≤ i ∧ i < direct + 2 ∧ j < fan
  | [i, j, k] => i = direct + 1 ∧ j < fan ∧ k < fan
  | _ => False

def levels (direct fan : Nat) : Levels Nat where
  mem := isPlace direct fan
  nil := trivial
  init path i h := by
    match path with
    | [] => trivial
    | [j] => exact h.2.1
    | [j, k] => exact ⟨by have := h.1; omega, by have := h.1; omega, h.2.1⟩
    | [_, _, _] => exact False.elim h
    | _ :: _ :: _ :: _ :: _ => exact False.elim h

/-- The number of blocks of the largest file. -/
def capacity (direct fan : Nat) : Nat := direct + fan + fan * fan

/-- The place of a block of the file. -/
def blockPath (direct fan bn : Nat) : List Nat :=
  if bn < direct then [bn]
  else if bn < direct + fan then [direct, bn - direct]
  else [direct + 1, (bn - direct - fan) / fan, (bn - direct - fan) % fan]

variable {bn bn' : Nat}

lemma isPlace_blockPath (h : bn < capacity direct fan) :
    isPlace direct fan (blockPath direct fan bn) := by
  unfold capacity at h
  unfold blockPath
  split_ifs with hdirect hsingle
  · exact (by omega : bn < direct + 2)
  · exact ⟨le_rfl, by omega, by omega⟩
  · have hlt : bn - direct - fan < fan * fan := by omega
    have hfan : 0 < fan := Nat.pos_of_ne_zero fun h => by simp [h] at hlt
    exact ⟨rfl, Nat.div_lt_of_lt_mul hlt, Nat.mod_lt _ hfan⟩

lemma not_isPlace_below (bn j : Nat) : ¬isPlace direct fan (blockPath direct fan bn ++ [j]) := by
  unfold blockPath
  split_ifs with hdirect hsingle
  · rintro ⟨hle, -⟩
    omega
  · rintro ⟨h, -⟩
    omega
  · exact id

lemma blockPath_ne_nil (bn : Nat) : blockPath direct fan bn ≠ [] := by
  unfold blockPath
  split_ifs <;> simp

lemma length_blockPath_le (bn : Nat) : (blockPath direct fan bn).length ≤ 3 := by
  unfold blockPath
  split_ifs <;> simp

lemma blockPath_injective (h : blockPath direct fan bn = blockPath direct fan bn') : bn = bn' := by
  unfold blockPath at h
  split_ifs at h with h1 h2 h3 h4 h5 h6 h7 h8
  all_goals simp only [cons.injEq, and_true, true_and, reduceCtorEq, and_false] at h
  · exact h
  · omega
  · have hdiv := Nat.div_add_mod (bn - direct - fan) fan
    have hdiv' := Nat.div_add_mod (bn' - direct - fan) fan
    rw [h.1, h.2] at hdiv
    omega

/-- A finite set that contains all places. -/
def places (direct fan : Nat) : Finset (List Nat) :=
  let two := (Finset.range fan ×ˢ Finset.range fan).image fun x => [x.1, x.2]
  let below := {[]} ∪ (Finset.range fan).image (fun j => [j]) ∪ two
  {[]} ∪ (Finset.range (direct + 2) ×ˢ below).image fun x => x.1 :: x.2

lemma mem_places (h : isPlace direct fan path) : path ∈ places direct fan := by
  unfold places
  match path with
  | [] => simp
  | [i] =>
    have hi : i < direct + 2 := h
    simp [hi]
  | [i, j] =>
    obtain ⟨-, hi, hj⟩ := h
    simp [hi, hj]
  | [i, j, k] =>
    obtain ⟨rfl, hj, hk⟩ := h
    simp [hj, hk]
  | _ :: _ :: _ :: _ :: _ => exact False.elim h

lemma card_places_le (direct fan : Nat) :
    (places direct fan).card ≤ 1 + (direct + 2) * (1 + fan + fan * fan) := by
  unfold places
  refine (card_union_le _ _).trans (Nat.add_le_add (card_singleton _).le ?_)
  refine card_image_le.trans ?_
  rw [card_product, card_range]
  refine Nat.mul_le_mul_left _ ((card_union_le _ _).trans (Nat.add_le_add ?_ ?_))
  · refine (card_union_le _ _).trans (Nat.add_le_add (card_singleton _).le ?_)
    exact card_image_le.trans (card_range fan).le
  · refine card_image_le.trans ?_
    rw [card_product, card_range]

/-! ## The way to a place -/

/-- The places on the way from `path` along the indices `rest`, without `path` itself. -/
def wayFrom (path : List Nat) : List Nat → Finset (List Nat)
  | [] => ∅
  | i :: rest => insert (path ++ [i]) (wayFrom (path ++ [i]) rest)

/-- The places on the ways to the blocks from `first` to `last`. -/
def ways (direct fan first last : Nat) : Finset (List Nat) :=
  (Finset.Icc first last).biUnion fun bn => wayFrom [] (blockPath direct fan bn)

/-- The places among `Q` where there is no node. -/
def lack {N : Type} (node : List Nat → Option N) (Q : Finset (List Nat)) : Nat :=
  (Q.filter fun q => (node q).isNone).card

variable {N : Type} {node node' : List Nat → Option N} {Q Q' : Finset (List Nat)}
  {path rest q : List Nat}

lemma mem_wayFrom : q ∈ wayFrom path rest ↔ ∃ r, r ≠ [] ∧ r <+: rest ∧ q = path ++ r := by
  induction rest generalizing path with
  | nil =>
    simp only [wayFrom, notMem_empty, prefix_nil, false_iff, not_exists, not_and]
    exact fun r hr h => absurd h hr
  | cons i rest ih =>
    simp only [wayFrom, mem_insert, ih, append_assoc, singleton_append]
    constructor
    · rintro (rfl | ⟨r, -, hpre, rfl⟩)
      · exact ⟨[i], by simp, by simp, rfl⟩
      · exact ⟨i :: r, by simp, cons_prefix_cons.mpr ⟨rfl, hpre⟩, rfl⟩
    · rintro ⟨r, hne, hpre, rfl⟩
      obtain ⟨j, r, rfl⟩ := exists_cons_of_ne_nil hne
      obtain ⟨rfl, hrest⟩ := cons_prefix_cons.mp hpre
      by_cases hr : r = []
      · exact .inl (by rw [hr])
      · exact .inr ⟨r, hr, hrest, rfl⟩

lemma isPlace_of_mem_wayFrom (hp : isPlace direct fan (path ++ rest)) (hq : q ∈ wayFrom path rest) :
    isPlace direct fan q := by
  obtain ⟨r, -, ⟨r', rfl⟩, rfl⟩ := mem_wayFrom.mp hq
  exact (levels direct fan).initial ⟨r', append_assoc path r r'⟩ hp

lemma mem_wayFrom_self (hne : rest ≠ []) : path ++ rest ∈ wayFrom path rest :=
  mem_wayFrom.mpr ⟨rest, hne, prefix_rfl, rfl⟩

lemma ways_self (bn : Nat) : ways direct fan bn bn = wayFrom [] (blockPath direct fan bn) := by
  simp [ways]

lemma ways_succ (h : first < last) : ways direct fan first last =
    wayFrom [] (blockPath direct fan first) ∪ ways direct fan (first + 1) last := by
  have hinsert : Finset.Icc first last = insert first (Finset.Icc (first + 1) last) := by
    ext bn
    simp only [mem_Icc, mem_insert]
    omega
  rw [ways, hinsert, biUnion_insert, ways]

lemma isPlace_of_mem_ways (hlast : last < capacity direct fan)
    (hq : q ∈ ways direct fan first last) : isPlace direct fan q := by
  obtain ⟨bn, hbn, hq⟩ := mem_biUnion.mp hq
  have hlt : bn < capacity direct fan := (mem_Icc.mp hbn).2.trans_lt hlast
  exact isPlace_of_mem_wayFrom (isPlace_blockPath hlt) hq

lemma ways_mono (h : last ≤ last') :
    ways direct fan first last ⊆ ways direct fan first last' :=
  biUnion_subset_biUnion_of_subset_left _ (Finset.Icc_subset_Icc_right h)

lemma lack_mono (h : Q ⊆ Q') : lack node Q ≤ lack node Q' :=
  card_le_card (filter_subset_filter _ h)

lemma lack_le_card : lack node Q ≤ Q.card := card_filter_le _ _

lemma card_wayFrom_le : (wayFrom path rest).card ≤ rest.length := by
  induction rest generalizing path with
  | nil => exact le_rfl
  | cons i rest ih => exact (card_insert_le _ _).trans (Nat.succ_le_succ ih)

lemma lack_union (h : ∀ q ∈ Q', node' q = none ↔ node q = none ∧ q ∉ Q) :
    lack node (Q ∪ Q') = lack node Q + lack node' Q' := by
  have hnew : (Q'.filter fun q => (node' q).isNone) = Q'.filter fun q => (node q).isNone ∧
    q ∉ Q := by
    refine Finset.filter_congr fun q hq => ?_
    rw [Option.isNone_iff_eq_none, Option.isNone_iff_eq_none, h q hq]
  have hall : ((Q ∪ Q').filter fun q => (node q).isNone) =
      (Q.filter fun q => (node q).isNone) ∪ Q'.filter fun q => (node q).isNone ∧ q ∉ Q := by
    ext q
    simp only [Finset.mem_filter, Finset.mem_union]
    tauto
  have hdisjoint : Disjoint (Q.filter fun q => (node q).isNone)
      (Q'.filter fun q => (node q).isNone ∧ q ∉ Q) := by
    rw [Finset.disjoint_left]
    intro q hq hq'
    exact (Finset.mem_filter.mp hq').2.2 (Finset.mem_filter.mp hq).1
  unfold lack
  rw [hall, card_union_of_disjoint hdisjoint, hnew]

end Lib.BlockTree
