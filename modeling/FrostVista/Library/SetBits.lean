import Mathlib.Data.Nat.Factorization.Basic
import Mathlib.Tactic.Ring

/-!
# The bits of a mask, one after the other

A loop over the bits of a mask takes the lowest one and clears it with `x &&& (x - 1)`. The module
says where the lowest bit is and that the loop goes through the list of all bits in ascending order.
-/
namespace Lib

open List BitVec Nat

variable {w : Nat} {x : BitVec w} {t : Nat}

/-- The lowest bit of `x` is at `t`. -/
def Lowest (x : BitVec w) (t : Nat) : Prop := ∃ q, x.toNat = 2 ^ (t + 1) * q + 2 ^ t

lemma exists_lowest (hx : x ≠ 0#w) : ∃ t, Lowest x t := by
  have hne : x.toNat ≠ 0 := fun h => hx (eq_of_toNat_eq (by simpa using h))
  obtain ⟨t, m, hm, h⟩ := exists_eq_two_pow_mul_odd hne
  obtain ⟨q, rfl⟩ := hm
  exact ⟨t, q, by rw [h]; ring⟩

namespace Lowest

section
variable (h : Lowest x t)
include h

lemma lt : t < w := by
  obtain ⟨q, hq⟩ := h
  have hle : 2 ^ t ≤ x.toNat := by omega
  exact (Nat.pow_lt_pow_iff_right (by decide)).mp (hle.trans_lt x.isLt)

/-- The bits below `n` are clear exactly if the lowest bit is not among them. -/
lemma mod_eq_zero_iff (n : Nat) : x.toNat % 2 ^ n = 0 ↔ n ≤ t := by
  obtain ⟨q, hq⟩ := h
  constructor
  · intro hmod
    by_contra hlt
    have hdvd : 2 ^ (t + 1) ∣ x.toNat := (pow_dvd_pow 2 (by omega)).trans (dvd_of_mod_eq_zero hmod)
    rw [hq, Nat.dvd_add_right (Nat.dvd_mul_right ..)] at hdvd
    have := Nat.le_of_dvd (Nat.two_pow_pos t) hdvd
    have : 2 ^ t < 2 ^ (t + 1) := Nat.pow_lt_pow_right (by decide) (Nat.lt_succ_self t)
    omega
  · intro hle
    obtain ⟨d, rfl⟩ := Nat.exists_eq_add_of_le hle
    rw [hq, show 2 ^ (n + d + 1) * q + 2 ^ (n + d) =
      2 ^ n * (2 ^ (d + 1) * q + 2 ^ d) by ring, mul_mod_right]

lemma shift (hn : n ≤ t) : Lowest (x >>> n) (t - n) := by
  obtain ⟨q, hq⟩ := h
  obtain ⟨d, rfl⟩ := Nat.exists_eq_add_of_le hn
  refine ⟨q, ?_⟩
  rw [toNat_ushiftRight, Nat.shiftRight_eq_div_pow, hq, Nat.add_sub_cancel_left,
    show 2 ^ (n + d + 1) * q + 2 ^ (n + d) = 2 ^ n * (2 ^ (d + 1) * q + 2 ^ d) by ring,
    Nat.mul_div_cancel_left _ (Nat.two_pow_pos n)]

lemma toNat_clear : ∃ q, x.toNat = 2 ^ (t + 1) * q + 2 ^ t ∧
    (x &&& (x - 1#w)).toNat = 2 ^ (t + 1) * q := by
  have hlt := h.lt
  obtain ⟨q, hq⟩ := h
  refine ⟨q, hq, ?_⟩
  have hpos := Nat.two_pow_pos t
  have hlt' : 2 ^ t < 2 ^ (t + 1) := Nat.pow_lt_pow_right (by decide) (Nat.lt_succ_self t)
  have hsub : (x - 1#w).toNat = 2 ^ (t + 1) * q + (2 ^ t - 1) := by
    rw [toNat_sub_of_le, hq]
    · rw [toNat_ofNat, Nat.mod_eq_of_lt (Nat.one_lt_two_pow (by omega))]
      omega
    · rw [le_def, toNat_ofNat, Nat.mod_eq_of_lt (Nat.one_lt_two_pow (by omega))]
      omega
  rw [toNat_and, hsub, hq]
  refine eq_of_testBit_eq fun i => ?_
  rw [testBit_and, testBit_two_pow_mul_add _ hlt', testBit_two_pow_mul_add _ (by omega),
    testBit_two_pow_mul]
  by_cases hi : i < t + 1
  · simp only [hi, if_true, testBit_two_pow, testBit_two_pow_sub_one, show ¬i ≥ t + 1 by omega]
    by_cases hit : t = i
    · simp [hit]
    · simp [hit]
  · simp [hi, show i ≥ t + 1 by omega]

lemma getLsbD_clear (i : Nat) :
    x.getLsbD i = (decide (i = t) || (x &&& (x - 1#w)).getLsbD i) ∧
      (i ≤ t → (x &&& (x - 1#w)).getLsbD i = false) := by
  obtain ⟨q, hq, hclear⟩ := h.toNat_clear
  have hlt : 2 ^ t < 2 ^ (t + 1) := Nat.pow_lt_pow_right (by decide) (Nat.lt_succ_self t)
  rw [← testBit_toNat, ← testBit_toNat, hq, hclear, testBit_two_pow_mul_add _ hlt,
    testBit_two_pow_mul, testBit_two_pow]
  constructor
  · by_cases hi : i < t + 1
    · simp [hi, show ¬i ≥ t + 1 by omega, eq_comm]
    · simp [hi, show i ≥ t + 1 by omega, show i ≠ t by omega]
  · intro hi
    simp [show ¬i ≥ t + 1 by omega]

end

end Lowest

/-- The places of the bits of a mask, in ascending order. -/
def setBits (x : BitVec w) : List Nat := (List.range w).filter fun i => x.getLsbD i

lemma mem_setBits : i ∈ setBits x ↔ x.getLsbD i = true := by
  simp only [setBits, mem_filter, mem_range, and_iff_right_iff_imp]
  exact lt_of_getLsbD

lemma lt_of_mem_setBits (h : i ∈ setBits x) : i < w := lt_of_getLsbD (mem_setBits.mp h)

lemma length_setBits_le (x : BitVec 64) : (setBits x).length ≤ 64 :=
  (length_filter_le ..).trans_eq length_range

lemma pairwise_setBits (x : BitVec w) : (setBits x).Pairwise (· < ·) := pairwise_lt_range.filter _

@[simp] lemma setBits_zero : setBits (0#w) = [] := by
  simp [setBits]

lemma Lowest.setBits_eq (h : Lowest x t) : setBits x = t :: setBits (x &&& (x - 1#w)) := by
  have hmem := h.getLsbD_clear
  refine List.Pairwise.eq_of_mem_iff (r := (· < ·)) (pairwise_setBits x) ?_ fun i => ?_
  · refine pairwise_cons.mpr ⟨fun i hi => ?_, pairwise_setBits _⟩
    by_contra hle
    rw [mem_setBits, (hmem i).2 (by omega)] at hi
    cases hi
  · rw [mem_cons, mem_setBits, mem_setBits, (hmem i).1]
    simp

end Lib
