import Mathlib.Algebra.Group.Nat.Defs
import Mathlib.Data.List.Basic

/-!
# Ring buffers with wrapping counters

Two counters of `w` bits run freely: one counts the elements written, the other the elements read,
both modulo `2 ^ w`. The cell of an element is its counter value modulo the capacity `N`. If `N`
divides `2 ^ w`, the wrap-around of the counters cannot be noticed.
-/
namespace Lib

open Function List BitVec Nat

structure Ring (α : Type) (w : Nat) where
  cells : Nat → α
  nread : BitVec w
  nwrite : BitVec w

namespace Ring

variable {α : Type} {w N : Nat} {q : Ring α w}

/-- The number of elements in the ring. -/
def count (q : Ring α w) : Nat := (q.nwrite - q.nread).toNat

/-- The cell `k` places after the counter value `i`. -/
def cell (N : Nat) (i : BitVec w) (k : Nat) : Nat := (i + BitVec.ofNat w k).toNat % N

def contents (N : Nat) (q : Ring α w) : List α :=
  (List.range q.count).map fun k => q.cells (cell N q.nread k)

def push (N : Nat) (q : Ring α w) (a : α) : Ring α w where
  cells := Function.update q.cells (q.nwrite.toNat % N) a
  nread := q.nread
  nwrite := q.nwrite + 1#w

def pop (q : Ring α w) : Ring α w := { q with nread := q.nread + 1#w }

@[simp] lemma length_contents : (q.contents N).length = q.count := by
  simp [contents]

@[simp] lemma count_eq_zero : q.count = 0 ↔ q.nread = q.nwrite := by
  rw [count, toNat_sub]
  constructor
  · intro h
    apply eq_of_toNat_eq
    have h1 := q.nread.isLt
    have h2 := q.nwrite.isLt
    by_cases hle : q.nread.toNat ≤ q.nwrite.toNat
    · rw [show 2 ^ w - q.nread.toNat + q.nwrite.toNat =
        q.nwrite.toNat - q.nread.toNat + 2 ^ w by omega, add_mod_right,
        mod_eq_of_lt (by omega)] at h
      omega
    · rw [mod_eq_of_lt (by omega)] at h
      omega
  · intro h
    rw [h, Nat.sub_add_cancel (by have := q.nwrite.isLt; omega), Nat.mod_self]

lemma cell_eq (hN : N ∣ 2 ^ w) (i : BitVec w) (k : Nat) : cell N i k = (i.toNat + k) % N := by
  rw [cell, toNat_add, toNat_ofNat, mod_mod_of_dvd _ hN, add_mod, mod_mod_of_dvd _ hN, ← add_mod]

lemma cell_ne (hN : N ∣ 2 ^ w) (i : BitVec w) (hlt : k < k') (hk : k' < N) :
    cell N i k ≠ cell N i k' := by
  rw [cell_eq hN, cell_eq hN]
  intro h
  have hmod : (i.toNat + k) % N = (i.toNat + k + (k' - k)) % N := by
    rw [h, show i.toNat + k + (k' - k) = i.toNat + k' by omega]
  have hz : (k' - k) % N = 0 := by
    have := sub_mod_eq_zero_of_mod_eq hmod.symm
    rwa [Nat.add_sub_cancel_left] at this
  rw [mod_eq_of_lt (by omega)] at hz
  omega

lemma cell_count (N : Nat) (q : Ring α w) : cell N q.nread q.count = q.nwrite.toNat % N := by
  rw [cell, count, BitVec.ofNat_toNat, BitVec.setWidth_eq, BitVec.add_comm, BitVec.sub_add_cancel]

lemma count_push (h : q.count + 1 < 2 ^ w) (a : α) : (q.push N a).count = q.count + 1 := by
  have hsub : (q.push N a).nwrite - (q.push N a).nread = (q.nwrite - q.nread) + 1#w := by
    simp only [push, BitVec.sub_eq_add_neg, BitVec.add_assoc]
    rw [BitVec.add_comm (1#w)]
  rw [count, hsub, toNat_add, toNat_ofNat, add_mod_mod]
  exact mod_eq_of_lt h

lemma count_pop (h : 0 < q.count) : q.pop.count + 1 = q.count := by
  have hsub : q.pop.nwrite - q.pop.nread = (q.nwrite - q.nread) - 1#w := by
    simp only [pop]
    rw [sub_sub]
  have hlt := (q.nwrite - q.nread).isLt
  have hw : 1 % 2 ^ w = 1 := mod_eq_of_lt (by unfold count at h; omega)
  rw [count, hsub, toNat_sub, toNat_ofNat, hw]
  unfold count at h ⊢
  rw [show 2 ^ w - 1 + (q.nwrite - q.nread).toNat =
    (q.nwrite - q.nread).toNat - 1 + 2 ^ w by omega, add_mod_right, mod_eq_of_lt (by omega)]
  omega

lemma contents_push (hN : N ∣ 2 ^ w) (hw : N < 2 ^ w) (h : q.count < N) (a : α) :
    (q.push N a).contents N = q.contents N ++ [a] := by
  have hlast : (q.push N a).cells (cell N q.nread q.count) = a := by
    rw [cell_count]
    exact update_self ..
  have hrest : (range q.count).map (fun k => (q.push N a).cells (cell N q.nread k)) =
      q.contents N := by
    refine map_congr_left fun k hk => ?_
    have hk := mem_range.mp hk
    refine update_of_ne ?_ _ _
    rw [← cell_count]
    exact cell_ne hN q.nread hk h
  rw [contents, count_push (by omega), range_succ, map_append]
  exact congrArg₂ (· ++ ·) hrest (by simp [push, cell_count])

lemma contents_pop (h : 0 < q.count) :
    q.contents N = q.cells (q.nread.toNat % N) :: q.pop.contents N := by
  rw [contents, ← count_pop h, range_succ_eq_map, map_cons, map_map]
  refine congrArg₂ (· :: ·) (by simp [cell]) (map_congr_left fun k _ => ?_)
  simp only [comp, cell, pop]
  rw [succ_eq_add_one, BitVec.ofNat_add, BitVec.add_assoc, BitVec.add_comm (1#w)]

end Ring

end Lib
