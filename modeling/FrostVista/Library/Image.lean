import FrostVista.Library.Bytes
import Mathlib.Data.List.Flatten

/-!
# Images

An image is written piece by piece, each piece at its own place. If no two pieces overlap, each of
them can be read back whatever the order in which they were written, and the rest is as it was
before.
-/
namespace Lib

open List Nat

/-- Where a piece of an image is written, and its bytes. -/
abbrev Piece := Nat × List (BitVec 8)

namespace Piece

def Covers (p : Piece) (o : Nat) : Prop := p.1 ≤ o ∧ o < p.1 + p.2.length

def Apart (p q : Piece) : Prop := p.1 + p.2.length ≤ q.1 ∨ q.1 + q.2.length ≤ p.1

variable {p q : Piece} {ps qs : List Piece} {lo mid hi o i : Nat}

lemma Apart.not_covers (h : Apart p q) (hi : i < p.2.length) : ¬Covers q (p.1 + i) := by
  grind [Apart, Covers]

/-- The pieces lie one after the other between `lo` and `hi`. -/
def Ascending (lo : Nat) : List Piece → Nat → Prop
  | [], hi => lo ≤ hi
  | p :: ps, hi => lo ≤ p.1 ∧ Ascending (p.1 + p.2.length) ps hi

lemma Ascending.of_le (h : Ascending mid ps hi) (hle : lo ≤ mid) : Ascending lo ps hi := by
  cases ps with
  | nil => exact le_trans hle h
  | cons p ps => exact ⟨le_trans hle h.1, h.2⟩

lemma Ascending.append (h : Ascending lo ps mid) (h' : Ascending mid qs hi) :
    Ascending lo (ps ++ qs) hi := by
  induction ps generalizing lo with
  | nil => exact h'.of_le h
  | cons p ps ih => exact ⟨h.1, ih h.2⟩

lemma Ascending.le (h : Ascending lo ps hi) : lo ≤ hi := by
  induction ps generalizing lo with
  | nil => exact h
  | cons p ps ih =>
    have hrest := ih h.2
    have hfirst := h.1
    omega

lemma Ascending.mem (h : Ascending lo ps hi) (hp : p ∈ ps) : lo ≤ p.1 ∧ p.1 + p.2.length ≤ hi := by
  induction ps generalizing lo with
  | nil => cases hp
  | cons q ps ih =>
    rcases mem_cons.mp hp with rfl | hp
    · exact ⟨h.1, h.2.le⟩
    · obtain ⟨hlo, hhi⟩ := ih h.2 hp
      have hfirst := h.1
      omega

lemma Ascending.pairwise (h : Ascending lo ps hi) : ps.Pairwise Apart := by
  induction ps generalizing lo with
  | nil => exact .nil
  | cons p ps ih => exact .cons (fun q hq => .inl (h.2.mem hq).1) (ih h.2)

lemma ascending_map_range (hlo : ∀ i < n, (f i).1 = lo + len * i)
    (hlen : ∀ i < n, (f i).2.length = len) : Ascending lo ((range n).map f) (lo + len * n) := by
  induction n with
  | zero => exact le_rfl
  | succ n ih =>
    rw [range_succ, map_append]
    refine (ih (fun i hi => hlo i (by omega)) fun i hi => hlen i (by omega)).append ⟨?_, ?_⟩
    · rw [hlo n (by omega)]
    · change _ ≤ _
      rw [hlo n (by omega), hlen n (by omega), mul_succ, add_assoc]

end Piece

namespace Bytes

open Piece

/-- The image after the pieces were written. -/
def writes (b : Bytes) (ps : List Piece) : Bytes := ps.foldl (fun b p => b.copyIn p.1 p.2) b

variable {b : Bytes} {p : Piece} {ps : List Piece} {o i n : Nat}

lemma writes_of_not (h : ∀ p ∈ ps, ¬p.Covers o) : b.writes ps o = b o := by
  induction ps generalizing b with
  | nil => rfl
  | cons p ps ih =>
    refine (ih fun q hq => h q (.tail _ hq)).trans ?_
    exact copyIn_of_not (h p (.head _))

lemma writes_of_mem (hapart : ps.Pairwise Apart) (hp : p ∈ ps) (hi : i < p.2.length) :
    b.writes ps (p.1 + i) = p.2[i] := by
  induction ps generalizing b with
  | nil => cases hp
  | cons q ps ih =>
    obtain ⟨hq, hps⟩ := pairwise_cons.mp hapart
    rcases mem_cons.mp hp with rfl | hp
    · refine (writes_of_not fun q' hq' => (hq q' hq').not_covers hi).trans ?_
      exact copyIn_of_mem hi
    · exact ih hps hp

/-- The block `n` of an image of blocks of `B` bytes. -/
def block (img : Bytes) (B n : Nat) : Bytes := fun o => if o < B then img (B * n + o) else 0

lemma block_of_lt (h : o < B) : b.block B n o = b (B * n + o) := if_pos h

/-- The bitmap with the given bits. -/
def ofBits (bits : List Nat) : Bytes := bits.foldl setBit zero

lemma bit_foldl_setBit (bits : List Nat) :
    (bits.foldl setBit b).bit n = true ↔ n ∈ bits ∨ b.bit n = true := by
  induction bits generalizing b with
  | nil => simp
  | cons m bits ih =>
    rw [foldl_cons, ih, mem_cons]
    by_cases h : n = m
    · simp [h]
    · simp [h, bit_setBit_of_ne h]

@[simp] lemma bit_zero (n : Nat) : zero.bit n = false := by simp [bit, zero]

lemma bit_ofBits {bits : List Nat} : (ofBits bits).bit n = true ↔ n ∈ bits := by
  simp [ofBits, bit_foldl_setBit]

end Bytes

lemma getD_flatMap {α : Type*} {l : List α} {f : α → List (BitVec 8)} {len k i : Nat}
    (hlen : ∀ x ∈ l, (f x).length = len) (hk : k < l.length) (hi : i < len) :
    (l.flatMap f).getD (len * k + i) 0 = (f l[k]).getD i 0 := by
  induction l generalizing k with
  | nil => exact absurd hk (not_lt_zero k)
  | cons x l ih =>
    have hx := hlen x (.head _)
    rw [flatMap_cons]
    cases k with
    | zero => rw [mul_zero, zero_add, getD_append _ _ _ _ (by omega)]; rfl
    | succ k =>
      have hsub : len * (k + 1) + i - (f x).length = len * k + i := by
        rw [hx, mul_succ]
        omega
      rw [getD_append_right _ _ _ _ (by rw [hx, mul_succ]; omega), hsub,
        ih (fun y hy => hlen y (.tail _ hy)) (by simpa using hk)]
      rfl

end Lib
