import Mathlib.Algebra.Order.Group.Nat
import Mathlib.Data.Finset.Card
import Mathlib.Data.List.GetD
import Mathlib.Data.Nat.ModEq

/-!
# Blocks of bytes

A block is a function from offsets to bytes. Numbers are stored in it with the least significant
byte first, pieces of it are copied in and out as lists, and it can be used as a bitmap.
-/
namespace Lib

open List Nat

abbrev Bytes := Nat → BitVec 8

namespace Bytes

/-- `memset` of a whole block -/
def zero : Bytes := fun _ => 0#8

/-- The number in the `w` bytes from offset `o` on. -/
def load (b : Bytes) : Nat → Nat → Nat
  | _, 0 => 0
  | o, w + 1 => (b o).toNat + 256 * load b (o + 1) w

def store (b : Bytes) (o w v : Nat) : Bytes := fun i =>
  if o ≤ i ∧ i < o + w then BitVec.ofNat 8 (v / 256 ^ (i - o)) else b i

/-- Stores `n` numbers of `w` bytes one after the other. -/
def storeAll (b : Bytes) (o w n : Nat) (f : Nat → Nat) : Bytes := fun i =>
  if o ≤ i ∧ i < o + w * n then BitVec.ofNat 8 (f ((i - o) / w) / 256 ^ ((i - o) % w)) else b i

/-- `memmove` into the block -/
def copyIn (b : Bytes) (o : Nat) (data : List (BitVec 8)) : Bytes := fun i =>
  if o ≤ i ∧ i < o + data.length then data.getD (i - o) 0#8 else b i

/-- `memmove` out of the block -/
def copyOut (b : Bytes) (o n : Nat) : List (BitVec 8) := (List.range n).map fun i => b (o + i)

section Numbers

variable {b b' : Bytes} {o o' w w' v : Nat}

lemma load_congr (h : ∀ i, o ≤ i → i < o + w → b i = b' i) : b.load o w = b'.load o w := by
  induction w generalizing o with
  | zero => rfl
  | succ w ih =>
    rw [load, load, h o le_rfl (by omega), ih fun i hi hi' => h i (by omega) (by omega)]

lemma load_shift (h : ∀ i < w, b (o + i) = b' (o' + i)) : b.load o w = b'.load o' w := by
  induction w generalizing o o' with
  | zero => rfl
  | succ w ih =>
    have hfirst := h 0 (by omega)
    have hrest : b.load (o + 1) w = b'.load (o' + 1) w := ih fun i hi => by
      have hnext := h (i + 1) (by omega)
      rwa [add_comm i, ← add_assoc, ← add_assoc] at hnext
    rw [load, load, hrest]
    exact congrArg (fun x : BitVec 8 => x.toNat + 256 * b'.load (o' + 1) w) hfirst

lemma load_lt (b : Bytes) (o w : Nat) : b.load o w < 256 ^ w := by
  induction w generalizing o with
  | zero => exact one_pos
  | succ w ih =>
    have hbyte := (b o).isLt
    have hrest := ih (o + 1)
    rw [load, pow_succ]
    omega

lemma store_of_not (h : ¬(o ≤ o' ∧ o' < o + w)) : b.store o w v o' = b o' := if_neg h

lemma load_store_same : (b.store o w v).load o w = v % 256 ^ w := by
  suffices hgen : ∀ n k, k + n = w →
      (b.store o w v).load (o + k) n = v / 256 ^ k % 256 ^ n by
    simpa using hgen w 0 (by omega)
  intro n
  induction n with
  | zero =>
    intro k _
    simp [load, mod_one]
  | succ n ih =>
    intro k hk
    have hbyte : (b.store o w v (o + k)).toNat = v / 256 ^ k % 256 := by
      rw [store, if_pos ⟨by omega, by omega⟩, BitVec.toNat_ofNat, Nat.add_sub_cancel_left]
    rw [load, hbyte, Nat.add_assoc, ih (k + 1) (by omega), pow_succ, pow_succ', Nat.mod_mul,
      Nat.div_div_eq_div_mul]

lemma load_store_of_disjoint (h : o' + w' ≤ o ∨ o + w ≤ o') :
    (b.store o w v).load o' w' = b.load o' w' := by
  apply load_congr
  intro i hi hi'
  exact store_of_not (by omega)

lemma storeAll_of_not (h : ¬(o ≤ o' ∧ o' < o + w * n)) :
    b.storeAll o w n f o' = b o' := if_neg h

lemma load_storeAll (hk : k < n) :
    (b.storeAll o w n f).load (o + w * k) w = f k % 256 ^ w := by
  rw [← @load_store_same b (o + w * k) w (f k)]
  apply load_congr
  intro i hi hi'
  have hend : w * k + w ≤ w * n := by
    rw [← mul_succ]
    exact mul_le_mul_left w hk
  obtain ⟨j, rfl⟩ := Nat.exists_eq_add_of_le hi
  have hj : j < w := by omega
  have hsub : o + w * k + j - o = j + w * k := by omega
  have hdiv : (j + w * k) / w = k := by
    rw [add_mul_div_left j k (by omega), div_eq_of_lt hj, zero_add]
  have hmod : (j + w * k) % w = j := by
    rw [add_mul_mod_self_left, mod_eq_of_lt hj]
  rw [storeAll, store, if_pos ⟨by omega, by omega⟩, if_pos ⟨by omega, by omega⟩, hsub, hdiv, hmod,
    Nat.add_sub_cancel_left]

lemma load_storeAll_of_disjoint (h : o' + w' ≤ o ∨ o + w * n ≤ o') :
    (b.storeAll o w n f).load o' w' = b.load o' w' := by
  apply load_congr
  intro i hi hi'
  exact storeAll_of_not (by omega)

@[simp] lemma load_zero (o w : Nat) : zero.load o w = 0 := by
  induction w generalizing o with
  | zero => rfl
  | succ w ih => simp [load, ih, zero]

end Numbers

section Pieces

variable {b : Bytes} {o n i : Nat} {data : List (BitVec 8)}

lemma copyIn_of_not (h : ¬(o ≤ i ∧ i < o + data.length)) : b.copyIn o data i = b i := if_neg h

lemma copyIn_of_mem (h : i < data.length) : b.copyIn o data (o + i) = data[i] := by
  rw [copyIn, if_pos ⟨by omega, by omega⟩, Nat.add_sub_cancel_left, getD_eq_getElem?_getD,
    getElem?_eq_getElem h, Option.getD_some]

@[simp] lemma length_copyOut : (b.copyOut o n).length = n := by simp [copyOut]

lemma getElem_copyOut (h : i < (b.copyOut o n).length) : (b.copyOut o n)[i] = b (o + i) := by
  simp [copyOut]

lemma copyOut_append (m : Nat) : b.copyOut o n ++ b.copyOut (o + n) m = b.copyOut o (n + m) := by
  simp only [copyOut, range_add, map_append, map_map, append_cancel_left_eq]
  refine map_congr_left fun i _ => ?_
  simp [add_assoc]

lemma copyOut_congr {b' : Bytes} {o' : Nat} (h : ∀ i < n, b (o + i) = b' (o' + i)) :
    b.copyOut o n = b'.copyOut o' n :=
  map_congr_left fun i hi => h i (mem_range.mp hi)

lemma copyOut_copyIn_self (h : data.length = n) : (b.copyIn o data).copyOut o n = data := by
  refine ext_getElem (by simp [h]) fun i hi hi' => ?_
  rw [getElem_copyOut, copyIn_of_mem hi']

lemma copyOut_copyIn_of_disjoint {o' : Nat} (h : o' + n ≤ o ∨ o + data.length ≤ o') :
    (b.copyIn o data).copyOut o' n = b.copyOut o' n :=
  copyOut_congr fun i hi => copyIn_of_not (by omega)

@[simp] lemma copyIn_nil : b.copyIn o [] = b := by
  funext i
  exact copyIn_of_not (by simp)

lemma copyIn_append (data' : List (BitVec 8)) :
    (b.copyIn o data).copyIn (o + data.length) data' = b.copyIn o (data ++ data') := by
  funext i
  simp only [copyIn, length_append]
  by_cases h1 : o ≤ i ∧ i < o + data.length
  · rw [if_neg (by omega), if_pos h1, if_pos (by omega), getD_append _ _ _ _ (by omega)]
  · by_cases h2 : o + data.length ≤ i ∧ i < o + data.length + data'.length
    · rw [if_pos h2, if_pos (by omega), getD_append_right _ _ _ _ (by omega)]
      congr 1
      omega
    · rw [if_neg h2, if_neg h1, if_neg (by omega)]

lemma copyIn_block {B off : Nat} {f : Bytes} (hlen : off % B + data.length ≤ B)
    (hb : ∀ o, o / B = off / B → b (o % B) = f o) (o : Nat) :
    f.copyIn off data o = if o / B = off / B then b.copyIn (off % B) data (o % B) else f o := by
  have hoff := div_add_mod off B
  have ho := div_add_mod o B
  split
  · rename_i hsame
    rw [hsame] at ho
    unfold copyIn
    by_cases hin : off ≤ o ∧ o < off + data.length
    · have hsub : o % B - off % B = o - off := by omega
      rw [if_pos hin, if_pos (by omega), hsub]
    · rw [if_neg hin, if_neg (by omega), hb o hsame]
  · rename_i hother
    refine copyIn_of_not ?_
    rintro ⟨hle, hlt⟩
    have hdiv : o / B = off / B := by
      refine Nat.div_eq_of_lt_le ?_ ?_
      · rw [Nat.mul_comm]
        omega
      · rw [succ_mul, mul_comm]
        omega
    exact hother hdiv

lemma copyOut_block {B off n : Nat} {f : Bytes} (hlen : off % B + n ≤ B)
    (hb : ∀ o, o / B = off / B → b (o % B) = f o) : b.copyOut (off % B) n = f.copyOut off n := by
  refine copyOut_congr fun i hi => ?_
  have hoff := div_add_mod off B
  have hpos : off % B + i < B := by omega
  have hdiv : (off + i) / B = off / B := by
    refine Nat.div_eq_of_lt_le ?_ ?_
    · rw [Nat.mul_comm]
      omega
    · rw [succ_mul, mul_comm]
      omega
  have hmod : (off + i) % B = off % B + i := by
    have := div_add_mod (off + i) B
    rw [hdiv] at this
    omega
  rw [← hb (off + i) hdiv, hmod]

end Pieces

/-! ## Bitmaps -/

def mask (n : Nat) : BitVec 8 := 1#8 <<< (n % 8)

/-- The test `data[n / 8] & (1 << n % 8)` -/
def bit (b : Bytes) (n : Nat) : Bool := b (n / 8) &&& mask n ≠ 0#8

def setBit (b : Bytes) (n : Nat) : Bytes := Function.update b (n / 8) (b (n / 8) ||| mask n)

def clearBit (b : Bytes) (n : Nat) : Bytes := Function.update b (n / 8) (b (n / 8) &&& ~~~mask n)

section Bitmap

variable {b : Bytes} {n m : Nat}

lemma bit_congr {b' : Bytes} (h : b (n / 8) = b' (n / 8)) : b.bit n = b'.bit n := by
  rw [bit, bit, h]

lemma mask_and_mask : ∀ i < 8, ∀ j < 8, i ≠ j → (1#8 <<< i) &&& (1#8 <<< j) = 0#8 := by decide

lemma mask_ne_zero (n : Nat) : mask n ≠ 0#8 := by
  have hlt : n % 8 < 8 := mod_lt n (by decide)
  have hall : ∀ i < 8, 1#8 <<< i ≠ 0#8 := by decide
  exact hall _ hlt

lemma mask_and_of_ne (hbyte : m / 8 = n / 8) (hne : m ≠ n) : mask n &&& mask m = 0#8 :=
  mask_and_mask _ (mod_lt n (by decide)) _ (mod_lt m (by decide)) (by omega)

@[simp] lemma bit_setBit_self : (b.setBit n).bit n = true := by
  have h : (b (n / 8) ||| mask n) &&& mask n = mask n := by
    rw [BitVec.and_comm, BitVec.or_comm]
    ext i
    simp only [BitVec.getElem_and, BitVec.getElem_or]
    cases (mask n)[i] <;> simp
  simp [bit, setBit, h, mask_ne_zero]

/-- A byte that differs only in the bit `n` has the other bits. -/
lemma bit_update_of_ne (h : m ≠ n) {x : BitVec 8}
    (hx : ∀ (i : Nat) (hi : i < 8), (mask n)[i] = false → x[i] = (b (n / 8))[i]) :
    bit (Function.update b (n / 8) x) m = b.bit m := by
  by_cases hbyte : m / 8 = n / 8
  · have hand : x &&& mask m = b (n / 8) &&& mask m := by
      have hdisj := mask_and_of_ne hbyte h
      ext i hi
      have hi' := congrArg (fun x => x[i]) hdisj
      have hsame := hx i hi
      simp only [BitVec.getElem_and, BitVec.getElem_zero] at hi' ⊢
      cases hm : (mask n)[i] <;> simp_all
    simp [bit, hbyte, hand]
  · simp [bit, hbyte]

lemma bit_setBit_of_ne (h : m ≠ n) : (b.setBit n).bit m = b.bit m :=
  bit_update_of_ne h fun i hi hm => by simp [hm]

@[simp] lemma bit_clearBit_self : (b.clearBit n).bit n = false := by
  have h : (b (n / 8) &&& ~~~mask n) &&& mask n = 0#8 := by
    ext i hi
    simp only [BitVec.getElem_and, BitVec.getElem_not, BitVec.getElem_zero]
    cases (mask n)[i] <;> simp
  simp [bit, clearBit, h]

lemma bit_clearBit_of_ne (h : m ≠ n) : (b.clearBit n).bit m = b.bit m :=
  bit_update_of_ne h fun i hi hm => by simp [hm]

/-- The clear bits below a limit. -/
def clearBits (b : Bytes) (lim : Nat) : Finset Nat :=
  (Finset.range lim).filter fun n => b.bit n = false

lemma mem_clearBits : n ∈ b.clearBits lim ↔ n < lim ∧ b.bit n = false := by
  simp [clearBits]

lemma clearBits_setBit (b : Bytes) (lim n : Nat) :
    (b.setBit n).clearBits lim = (b.clearBits lim).erase n := by
  ext m
  rw [mem_clearBits, Finset.mem_erase, mem_clearBits]
  by_cases h : m = n
  · subst h
    simp
  · simp [bit_setBit_of_ne h, h]

/-- The first clear bit below a limit. -/
def firstClear (b : Bytes) (lim : Nat) : Option Nat := (List.range lim).find? fun n => !b.bit n

lemma firstClear_eq_some (h : b.firstClear lim = some n) : n ∈ b.clearBits lim := by
  have hbit := find?_some h
  have hmem := mem_of_find?_eq_some h
  rw [mem_clearBits]
  exact ⟨mem_range.mp hmem, by simpa using hbit⟩

lemma firstClear_eq_none : b.firstClear lim = none ↔ b.clearBits lim = ∅ := by
  rw [firstClear, find?_eq_none, Finset.eq_empty_iff_forall_notMem]
  simp [mem_clearBits]

end Bitmap

end Bytes

/-! ## Flat arrays -/

/-- The file after `data` was written at `off`; a gap is filled with zeros. -/
def overwrite (f : List (BitVec 8)) (off : Nat) (data : List (BitVec 8)) : List (BitVec 8) :=
  (f ++ List.replicate (off - f.length) 0).take off ++ data ++ f.drop (off + data.length)

variable {f data : List (BitVec 8)} {off size : Nat}

lemma length_overwrite : (overwrite f off data).length = max f.length (off + data.length) := by
  simp only [overwrite, length_append, length_take, length_replicate, length_drop]
  omega

lemma getD_overwrite (o : Nat) :
    (overwrite f off data).getD o 0 = Bytes.copyIn (fun o => f.getD o 0) off data o := by
  have hlen : ((f ++ replicate (off - f.length) (0 : BitVec 8)).take off).length = off := by
    simp only [length_take, length_append, length_replicate]
    omega
  unfold overwrite Bytes.copyIn
  by_cases hlo : o < off
  · rw [if_neg (by omega), append_assoc, getD_append _ _ _ _ (by omega)]
    simp only [getD_eq_getElem?_getD, getElem?_take, if_pos hlo, getElem?_append,
      getElem?_replicate]
    split
    · rfl
    · rename_i hf
      rw [getElem?_eq_none (by omega)]
      split <;> rfl
  · rw [append_assoc, getD_append_right _ _ _ _ (by omega), hlen]
    by_cases hhi : o < off + data.length
    · rw [if_pos (by omega), getD_append _ _ _ _ (by omega)]
      rfl
    · rw [if_neg (by omega), getD_append_right _ _ _ _ (by omega)]
      simp only [getD_eq_getElem?_getD, getElem?_drop]
      congr 2
      omega

lemma take_drop_eq_copyOut :
    (f.drop off).take size = Bytes.copyOut (fun o => f.getD o 0) off
    (min size (f.length - off)) := by
  apply ext_getElem
  · simp
  · intro i h1 h2
    have hi : i < f.length - off := by
      simp only [length_take, length_drop] at h1
      omega
    rw [Bytes.getElem_copyOut, getElem_take, getElem_drop, getD_eq_getElem?_getD,
      getElem?_eq_getElem (by omega), Option.getD_some]

end Lib
