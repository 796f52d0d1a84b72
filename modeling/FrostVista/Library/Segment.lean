import Mathlib.Data.List.Basic

/-!
# Segments of a partial sequence

The elements of a partial sequence from a position on, up to a number of elements or to the first
position without one. A segment can be read in pieces of any sizes.
-/
namespace Lib

open List Nat

variable {α : Type}

/-- At most `n` elements of the sequence, from position `i` on. -/
def segment (get : Nat → Option α) : Nat → Nat → List α
  | _, 0 => []
  | i, n + 1 =>
    match get i with
    | none => []
    | some a => a :: segment get (i + 1) n

variable {get get' : Nat → Option α}

@[simp] lemma segment_zero (i : Nat) : segment get i 0 = [] := rfl

variable {i m n : Nat}

lemma segment_of_none (h : get i = none) (n : Nat) : segment get i n = [] := by
  cases n with
  | zero => rfl
  | succ n => simp [segment, h]

lemma segment_of_some (h : get i = some a) (n : Nat) :
    segment get i (n + 1) = a :: segment get (i + 1) n := by
  simp [segment, h]

lemma length_segment_le (get : Nat → Option α) (i n : Nat) : (segment get i n).length ≤ n := by
  fun_induction segment get i n with
  | case1 => exact Nat.le_refl _
  | case2 => exact zero_le _
  | case3 i n a _ ih => exact succ_le_succ ih

lemma segment_split (get : Nat → Option α) (i : Nat) (h : m ≤ n) :
    segment get i n = segment get i m ++
      segment get (i + (segment get i m).length) (n - (segment get i m).length) := by
  induction m generalizing i n with
  | zero => simp
  | succ m ih =>
    obtain ⟨n, rfl⟩ : ∃ k, n = k + 1 := ⟨n - 1, by omega⟩
    cases hget : get i with
    | none => simp [segment_of_none hget]
    | some a =>
      simp only [segment_of_some hget, length_cons, cons_append, cons.injEq, true_and]
      rw [ih (i + 1) (Nat.le_of_succ_le_succ h), Nat.add_right_comm, Nat.add_assoc,
        Nat.add_sub_add_right]

lemma get_of_short (h : (segment get i n).length < n) :
    get (i + (segment get i n).length) = none := by
  induction n generalizing i with
  | zero => omega
  | succ n ih =>
    cases hget : get i with
    | none => simpa [segment_of_none hget] using hget
    | some a =>
      rw [segment_of_some hget, length_cons] at h ⊢
      rw [Nat.add_comm _ 1, ← Nat.add_assoc]
      exact ih (lt_of_succ_lt_succ h)

lemma segment_eq_of_none (h : m ≤ n) (hget : m < n → get (i + m) = none) :
    segment get i m = segment get i n := by
  have hlen := length_segment_le get i m
  rw [segment_split get i h]
  by_cases hfull : (segment get i m).length = m
  · obtain rfl | hlt := Nat.eq_or_lt_of_le h
    · simp [hfull]
    · rw [hfull, segment_of_none (hget hlt), append_nil]
  · rw [segment_of_none (get_of_short (by omega)), append_nil]

lemma segment_eq_map (h : ∀ j < n, get (i + j) = some (f j)) :
    segment get i n = (range n).map f := by
  induction n generalizing i f with
  | zero => rfl
  | succ n ih =>
    have hhead : get i = some (f 0) := h 0 (succ_pos n)
    have htail : segment get (i + 1) n = (range n).map fun j => f (j + 1) := by
      refine ih fun j hj => ?_
      rw [Nat.add_assoc, Nat.add_comm 1]
      exact h (j + 1) (succ_lt_succ hj)
    rw [segment_of_some hhead, htail, range_succ_eq_map, map_cons, map_map]
    rfl

end Lib
