import FrostVista.Vm.Walk

/-!
# Sv39 page-table entries

The flag bits and conversion macros of `arch/riscv/include/asm/mm.h`, the permission bits of
`include/kernel/vm.h`, and the resulting instance of the generic walk. Entries are compared bit by
bit: flags live below bit ten, the page number above.
-/
namespace FrostVista

open BitVec Nat

/-- `PTE_READ` -/
def permRead : Word := 1#64
/-- `PTE_WRITE` -/
def permWrite : Word := 2#64
/-- `PTE_EXEC` -/
def permExec : Word := 4#64
/-- `PTE_USER` -/
def permUser : Word := 8#64

/-- The test `word & flag`. -/
def has (w flag : Word) : Bool := w &&& flag != 0#64

/-- Bit `k` of a word. -/
def bit (w : Word) (k : Nat) : Bool := w.getLsbD k

@[simp] lemma bit_or (v w : Word) (k : Nat) : bit (v ||| w) k = (bit v k || bit w k) :=
  getLsbD_or

@[simp] lemma bit_and (v w : Word) (k : Nat) : bit (v &&& w) k = (bit v k && bit w k) :=
  getLsbD_and

lemma bit_not (w : Word) {k : Nat} (hk : k < 64) : bit (~~~w) k = !bit w k := by
  simp only [bit, getLsbD_not, hk, decide_true, Bool.true_and]

@[simp] lemma bit_zero (k : Nat) : bit 0#64 k = false := getLsbD_zero

lemma bit_twoPow (j k : Nat) (hj : j < 64) : bit (twoPow 64 j) k = decide (k = j) := by
  rw [bit, getLsbD_twoPow]
  simp [hj, eq_comm]

lemma eq_of_bit_eq {v w : Word} (h : ∀ k < 64, bit v k = bit w k) : v = w :=
  eq_of_getLsbD_eq h

lemma has_twoPow (w : Word) (k : Nat) (hk : k < 64) : has w (twoPow 64 k) = bit w k := by
  have hz : w &&& twoPow 64 k = 0#64 ↔ bit w k = false := by
    constructor
    · intro h
      have := congrArg (fun x => bit x k) h
      simpa [bit_twoPow k k hk] using this
    · intro h
      refine eq_of_bit_eq fun i _ => ?_
      by_cases hik : i = k
      · subst hik
        simp [h]
      · simp [bit_twoPow k i hk, hik]
  cases hb : bit w k with
  | false => simp [has, hz.mpr hb]
  | true =>
    have : ¬w &&& twoPow 64 k = 0#64 := fun hc => by simp [hz.mp hc] at hb
    simp [has, this]

lemma bit_of_aligned {pa : Word} (ha : pa.toNat % 4096 = 0) {i : Nat} (hi : i < 12) :
    bit pa i = false := by
  rw [bit, getLsbD, testBit, shiftRight_eq_div_pow]
  have hdvd : 2 ^ (i + 1) ∣ pa.toNat := by
    refine dvd_trans (pow_dvd_pow 2 (show i + 1 ≤ 12 by omega)) ?_
    exact dvd_of_mod_eq_zero ha
  obtain ⟨c, hc⟩ := hdvd
  rw [hc, pow_succ, Nat.mul_assoc, Nat.mul_div_cancel_left _ (by positivity)]
  simp

namespace Riscv

def pteV : Word := 1#64
def pteR : Word := 2#64
def pteW : Word := 4#64
def pteX : Word := 8#64
def pteU : Word := 16#64
def pteCow : Word := 256#64

def pte2pa (pte : Word) : Word := (pte >>> 10) <<< 12

def pa2pte (pa : Word) : Word := (pa >>> 12) <<< 10

def pteFlags (pte : Word) : Word := pte &&& 0x3ff#64

def pteFromPerm (perm : Word) : Word :=
  (if has perm permRead then pteR else 0#64) ||| (if has perm permWrite then pteW else 0#64) |||
    (if has perm permExec then pteX else 0#64) ||| (if has perm permUser then pteU else 0#64)

section Bits

variable (e : Word) (k : Nat)

@[simp] lemma has_pteV : has e pteV = bit e 0 := has_twoPow e 0 (by decide)
@[simp] lemma has_pteW : has e pteW = bit e 2 := has_twoPow e 2 (by decide)
@[simp] lemma has_pteU : has e pteU = bit e 4 := has_twoPow e 4 (by decide)
@[simp] lemma has_pteCow : has e pteCow = bit e 8 := has_twoPow e 8 (by decide)

@[simp] lemma bit_pteV : bit pteV k = decide (k = 0) := bit_twoPow 0 k (by decide)
@[simp] lemma bit_pteR : bit pteR k = decide (k = 1) := bit_twoPow 1 k (by decide)
@[simp] lemma bit_pteW : bit pteW k = decide (k = 2) := bit_twoPow 2 k (by decide)
@[simp] lemma bit_pteX : bit pteX k = decide (k = 3) := bit_twoPow 3 k (by decide)
@[simp] lemma bit_pteU : bit pteU k = decide (k = 4) := bit_twoPow 4 k (by decide)
@[simp] lemma bit_pteCow : bit pteCow k = decide (k = 8) := bit_twoPow 8 k (by decide)

lemma bit_flagMask : bit 0x3ff#64 k = decide (k < 10) := by
  rw [bit, show (0x3ff#64) = (allOnes 10).setWidth 64 by decide, getLsbD_setWidth, getLsbD_allOnes]
  by_cases hk : k < 10
  · have : k < 64 := by omega
    simp [hk, this]
  · simp [hk]

@[simp] lemma bit_pteFlags : bit (pteFlags e) k = (bit e k && decide (k < 10)) := by
  rw [pteFlags, bit_and, bit_flagMask]

lemma bit_pa2pte (pa : Word) {k : Nat} (hk : k < 64) :
    bit (pa2pte pa) k = (decide (10 ≤ k) && bit pa (k + 2)) := by
  simp only [bit, pa2pte, getLsbD_shiftLeft, getLsbD_ushiftRight]
  by_cases h : k < 10
  · simp [h]
  · have h' : 10 ≤ k := by omega
    rw [show 12 + (k - 10) = k + 2 by omega]
    simp [h, h', hk]

lemma bit_pte2pa {k : Nat} (hk : k < 64) :
    bit (pte2pa e) k = (decide (12 ≤ k) && bit e (k - 2)) := by
  simp only [bit, pte2pa, getLsbD_shiftLeft, getLsbD_ushiftRight]
  by_cases h : k < 12
  · simp [h]
  · have h' : 12 ≤ k := by omega
    rw [show 10 + (k - 12) = k - 2 by omega]
    simp [h, h', hk]

lemma bit_pteFromPerm (perm : Word) : bit (pteFromPerm perm) k =
      (has perm permRead && decide (k = 1) || has perm permWrite && decide (k = 2) ||
        has perm permExec && decide (k = 3) || has perm permUser && decide (k = 4)) := by
  simp only [pteFromPerm, bit_or, apply_ite (fun w : Word => bit w k), bit_pteR, bit_pteW,
    bit_pteX, bit_pteU, bit_zero]
  grind

end Bits

/-- A flag word has no bit from ten on. -/
def IsFlags (f : Word) : Prop := ∀ k, 10 ≤ k → bit f k = false

variable {f e e' pa q perm : Word} {m : Machine} {k : Nat}

lemma isFlags_or (hf : IsFlags f) (hg : IsFlags g) : IsFlags (f ||| g) := by
  intro k hk
  simp [hf k hk, hg k hk]

lemma isFlags_pteV : IsFlags pteV := by
  intro k hk
  simp
  omega

lemma isFlags_pteFlags (e : Word) : IsFlags (pteFlags e) := by
  intro k hk
  simp [not_lt.mpr hk]

lemma isFlags_pteFromPerm (perm : Word) : IsFlags (pteFromPerm perm) := by
  intro k hk
  have h1 : k ≠ 1 := by omega
  have h2 : k ≠ 2 := by omega
  have h3 : k ≠ 3 := by omega
  have h4 : k ≠ 4 := by omega
  simp [bit_pteFromPerm, h1, h2, h3, h4]

lemma pte2pa_congr (h : ∀ k, 10 ≤ k → k < 64 → bit e k = bit e' k) : pte2pa e = pte2pa e' := by
  refine eq_of_bit_eq fun i hi => ?_
  rw [bit_pte2pa _ hi, bit_pte2pa _ hi]
  by_cases h12 : 12 ≤ i
  · rw [h (i - 2) (by omega) (by omega)]
  · simp [h12]

lemma pte2pa_pa2pte (hf : IsFlags f) (ha : pa.toNat % 4096 = 0) :
    pte2pa (pa2pte pa ||| f) = pa := by
  refine eq_of_bit_eq fun i hi => ?_
  rw [bit_pte2pa _ hi]
  by_cases h12 : 12 ≤ i
  · have h10 : 10 ≤ i - 2 := by omega
    rw [bit_or, bit_pa2pte _ (by omega), hf _ h10, show i - 2 + 2 = i by omega]
    simp [h12, h10]
  · rw [bit_of_aligned ha (by omega)]
    simp [h12]

/-- The Sv39 instance of the walk. -/
def riscv : Arch where
  dramBaseLow := 0x80000000#64
  phystopLow := 0x88000000#64
  valid pte := has pte pteV
  pte2pa := pte2pa
  dirEntry pa := pa2pte pa ||| pteV
  valid_zero := by decide
  valid_dirEntry pa := by simp
  pte2pa_dirEntry pa ha _ _ := pte2pa_pa2pte isFlags_pteV ha
  dram_le := by decide

@[simp] lemma riscv_valid (e : Word) : riscv.valid e = bit e 0 := has_pteV e

lemma riscv_next (e : Word) : riscv.next e = if bit e 0 then some (riscv.page e) else none := by
  rw [Arch.next, riscv_valid]

lemma riscv_page (e : Word) : riscv.page e = pa2va (pte2pa e) := rfl

lemma riscv_next_congr (h0 : bit e 0 = bit e' 0)
    (h : ∀ k, 10 ≤ k → k < 64 → bit e k = bit e' k) : riscv.next e = riscv.next e' := by
  rw [riscv_next, riscv_next, h0, riscv_page, riscv_page, pte2pa_congr h]

lemma va2pa_aligned (hq : IsPage riscv m q) : (va2pa q).toNat % 4096 = 0 := by
  have h1 := hq.aligned
  simp only [va2pa, kernelVirtOffset]
  bv_omega

/-! ## The entries written by `vm.c` -/

/-- The entry `mappages` writes. -/
def leafPte (pa perm : Word) : Word := pa2pte pa ||| perm ||| pteV

lemma bit_leafPte (h1 : 1 ≤ k) (h10 : k < 10) : bit (leafPte pa perm) k = bit perm k := by
  have hk : ¬10 ≤ k := by omega
  have hk0 : k ≠ 0 := by omega
  simp [leafPte, bit_pa2pte _ (show k < 64 by omega), hk, hk0]

lemma next_leafPte (hq : IsPage riscv m q) (hf : IsFlags perm) :
    riscv.next (leafPte (va2pa q) perm) = some q := by
  have hpa : pte2pa (leafPte (va2pa q) perm) = va2pa q := by
    rw [leafPte, BitVec.or_assoc]
    exact pte2pa_pa2pte (isFlags_or hf isFlags_pteV) (va2pa_aligned hq)
  have hv : bit (leafPte (va2pa q) perm) 0 = true := by simp [leafPte]
  simp [riscv_next, riscv_page, hpa, hv]

/-- The entry `uvmcopy` leaves behind: copy-on-write and not writable. -/
def cowPte (e : Word) : Word := (e ||| pteCow) &&& ~~~pteW

lemma bit_cowPte (e : Word) (hk : k < 64) :
    bit (cowPte e) k = ((bit e k || decide (k = 8)) && !decide (k = 2)) := by
  simp [cowPte, bit_not _ hk]

lemma next_cowPte (e : Word) : riscv.next (cowPte e) = riscv.next e := by
  refine riscv_next_congr ?_ fun k h10 hk => ?_
  · simp [bit_cowPte]
  · have h8 : k ≠ 8 := by omega
    have h2 : k ≠ 2 := by omega
    simp [bit_cowPte _ hk, h8, h2]

/-- Clearing the copy-on-write bit, with or without setting the write bit, keeps the page. -/
lemma next_clearCow (e : Word) : riscv.next (e &&& ~~~pteCow) = riscv.next e := by
  refine riscv_next_congr ?_ fun k h10 hk => ?_
  · simp [bit_not]
  · have h8 : k ≠ 8 := by omega
    simp [bit_not _ hk, h8]

lemma next_setWrite (e : Word) : riscv.next (e ||| pteW) = riscv.next e := by
  refine riscv_next_congr ?_ fun k h10 hk => ?_
  · simp
  · have h2 : k ≠ 2 := by omega
    simp [h2]

/-- The entry of the private copy made by `handle_cow_fault`. -/
def resolvedPte (pa e : Word) : Word := pa2pte pa ||| ((pteFlags e &&& ~~~pteCow) ||| pteW)

lemma isFlags_resolved (e : Word) : IsFlags ((pteFlags e &&& ~~~pteCow) ||| pteW) := by
  intro k hk
  have h2 : k ≠ 2 := by omega
  have h10 : ¬k < 10 := by omega
  simp [h2, h10]

lemma bit_resolvedPte (pa e : Word) (hk : k < 10) :
    bit (resolvedPte pa e) k = ((bit e k && !decide (k = 8)) || decide (k = 2)) := by
  have h10 : ¬10 ≤ k := by omega
  have h64 : k < 64 := by omega
  simp [resolvedPte, bit_pa2pte _ h64, bit_not _ h64, hk, h10]

lemma next_resolvedPte (hq : IsPage riscv m q)
    (hv : bit e 0 = true) : riscv.next (resolvedPte (va2pa q) e) = some q := by
  have hpa : pte2pa (resolvedPte (va2pa q) e) = va2pa q :=
    pte2pa_pa2pte (isFlags_resolved e) (va2pa_aligned hq)
  have hv' : bit (resolvedPte (va2pa q) e) 0 = true := by
    simp [bit_resolvedPte, hv]
  simp [riscv_next, riscv_page, hpa, hv']

end Riscv

end FrostVista
