import Mathlib.Data.Nat.Bitwise
import Mathlib.Tactic.NormNum

/-!
# Machine words, page rounding and page numbers

Addresses and page-table entries are 64-bit words with wrapping arithmetic. The rounding macros are
the bit masks of the source; the lemmas restate them as divisions.
-/
namespace FrostVista

open BitVec

abbrev Word := BitVec 64

def pgSize : Nat := 4096

/-- `PGROUNDUP`, including its wrap-around at the top of the address space. -/
def pgRoundUp (value : Word) : Word := (value + 4096#64 - 1#64) &&& ~~~(4096#64 - 1#64)

def pgRoundDown (value : Word) : Word := value &&& ~~~(4096#64 - 1#64)

def vpnGet (va : Word) (i : Nat) : Nat := ((va >>> (12 + 9 * i)) &&& 0x1ff#64).toNat

def kernelVirtOffset : Word := 0xFFFFFFC000000000#64

def pa2va (adr : Word) : Word := adr + kernelVirtOffset

def va2pa (adr : Word) : Word := adr - kernelVirtOffset

def userVaTop : Word := 1#64 <<< 38

/-- The number of the page that holds an address. -/
def pageNo (va : Word) : Nat := va.toNat / 4096

/-- The rounds of `for (; a < bound; a += PGSIZE)`. -/
def pagesBelow (a bound : Word) : Nat :=
  if a < bound then (bound.toNat - a.toNat + 4095) / 4096 else 0

/-- The `i`-th address of such a loop. -/
def pageAt (a : Word) (i : Nat) : Word := a + BitVec.ofNat 64 (4096 * i)

@[simp] lemma pa2va_va2pa (a : Word) : pa2va (va2pa a) = a := by
  simp only [pa2va, va2pa]
  bv_omega

@[simp] lemma va2pa_pa2va (a : Word) : va2pa (pa2va a) = a := by
  simp only [pa2va, va2pa]
  bv_omega

lemma mask_eq_shift {m : Word} {k : Nat} (hmask : m = allOnes 64 <<< k) (v : Word) :
    v &&& m = (v >>> k) <<< k := by
  rw [hmask]
  ext i hi
  simp only [getElem_and, getElem_shiftLeft, getElem_ushiftRight, getElem_allOnes]
  by_cases h : i < k
  · simp [h]
  · simp only [h, decide_false, Bool.not_false, Bool.true_and, Bool.and_true]
    rw [show k + (i - k) = i by omega, getLsbD_eq_getElem]

lemma mask_toNat {m : Word} {k : Nat} (hmask : m = allOnes 64 <<< k) (v : Word) :
    (v &&& m).toNat = v.toNat / 2 ^ k * 2 ^ k := by
  have hle : v.toNat / 2 ^ k * 2 ^ k ≤ v.toNat := Nat.div_mul_le_self ..
  rw [mask_eq_shift hmask, toNat_shiftLeft, toNat_ushiftRight, Nat.shiftRight_eq_div_pow,
    Nat.shiftLeft_eq, Nat.mod_eq_of_lt (hle.trans_lt v.isLt)]

lemma pgRoundDown_toNat (v : Word) : (pgRoundDown v).toNat = v.toNat / 4096 * 4096 :=
  mask_toNat (k := 12) (by decide) v

lemma pgRoundUp_toNat (v : Word) :
    (pgRoundUp v).toNat = (v.toNat + 4095) % 2 ^ 64 / 4096 * 4096 := by
  have h : pgRoundUp v = pgRoundDown (v + 4095#64) := by
    have : v + 4096#64 - 1#64 = v + 4095#64 := by bv_omega
    rw [pgRoundUp, pgRoundDown, this]
  rw [h, pgRoundDown_toNat, toNat_add]
  rfl

lemma vpnGet_eq (va : Word) (i : Nat) : vpnGet va i = va.toNat / 2 ^ (12 + 9 * i) % 512 := by
  have hmask : (0x1ff#64).toNat = 2 ^ 9 - 1 := by decide
  rw [vpnGet, toNat_and, hmask, Nat.and_two_pow_sub_one_eq_mod, toNat_ushiftRight,
    Nat.shiftRight_eq_div_pow]

lemma vpnGet_zero (va : Word) : vpnGet va 0 = pageNo va % 512 := by
  norm_num [vpnGet_eq, pageNo]

lemma vpnGet_one (va : Word) : vpnGet va 1 = pageNo va / 512 % 512 := by
  norm_num [vpnGet_eq, pageNo, Nat.div_div_eq_div_mul]

lemma vpnGet_two (va : Word) : vpnGet va 2 = pageNo va / 512 / 512 % 512 := by
  norm_num [vpnGet_eq, pageNo, Nat.div_div_eq_div_mul]

@[simp] lemma pageNo_pgRoundDown (va : Word) : pageNo (pgRoundDown va) = pageNo va := by
  rw [pageNo, pgRoundDown_toNat, pageNo]
  omega

lemma signExtend_setWidth {w : Word} (h : w.toNat < 2 ^ 31) :
    (w.setWidth 32).signExtend 64 = w := by
  have hm : (w.setWidth 32).msb = false := by
    rw [msb_eq_decide]
    simp only [toNat_setWidth, decide_eq_false_iff_not, Nat.not_le]
    omega
  rw [signExtend_eq_setWidth_of_msb_false hm]
  refine eq_of_toNat_eq ?_
  simp only [toNat_setWidth]
  omega

lemma pagesBelow_of_toNat (h : b.toNat = a.toNat + 4096 * n) :
    pagesBelow a b = n := by
  simp only [pagesBelow, lt_def, h]
  split <;> omega

end FrostVista
