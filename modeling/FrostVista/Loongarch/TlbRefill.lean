import FrostVista.Riscv.Pte

/-!
# The TLB refill handler of LoongArch

The entry format of `arch/loongarch/include/asm/mm.h`, the resulting instance of the generic walk,
and the handler of `arch/loongarch/mm/tlb_refill.c` with its own walker. That walker reaches the
tables through the window `DMW0`, where `walk` uses the high-half map; both show the same pages.
-/
namespace FrostVista.Loongarch

open BitVec Lib.Radix Option

def pteV : Word := 0x1#64
def pteD : Word := 0x2#64
def ptePlv : Word := 0xc#64
def pteMat : Word := 0x30#64
def pteMatCc : Word := 0x10#64
def pteG : Word := 0x40#64
def pteP : Word := 0x80#64
def pteW : Word := 0x100#64
def pteNr : Word := 0x2000000000000000#64
def pteNx : Word := 0x4000000000000000#64
def pteRplv : Word := 0x8000000000000000#64

/-- `LOONGARCH_PA_MASK` -/
def paMask : Word := 0xffffffffffff#64

/-- `LA_PTE_PPN_MASK` -/
def ppnMask : Word := 0xfffffffff000#64

/-- `LA_PTE_IS_VALID` -/
def isValid (pte : Word) : Bool := pte &&& (pteV ||| pteP) == pteV ||| pteP

def pteFromPerm (perm : Word) : Word :=
  (if has perm permUser then ptePlv else 0#64) ||| (if has perm permRead then 0#64 else pteNr) |||
    (if has perm permExec then 0#64 else pteNx) |||
    (if has perm permWrite then pteW ||| pteD else 0#64)

/-- The entry `mappages` writes. -/
def leafPte (pa perm : Word) : Word :=
  (pa &&& ppnMask) ||| (if has perm pteW then perm ||| pteD
    else perm) ||| pteV ||| pteP ||| pteMatCc

def pteToTlbelo (pte : Word) : Word :=
  if !isValid pte then 0#64
  else
    let tlbelo := pte &&& ppnMask
    let tlbelo := if has pte pteV then tlbelo ||| pteV else tlbelo
    let tlbelo := if has pte pteD then tlbelo ||| pteD else tlbelo
    let tlbelo := if has pte ptePlv then tlbelo ||| (pte &&& ptePlv) else tlbelo
    let tlbelo := if has pte pteMat then tlbelo ||| (pte &&& pteMat) else tlbelo
    let tlbelo := if has pte pteG then tlbelo ||| pteG else tlbelo
    let tlbelo := if has pte pteNr then tlbelo ||| pteNr else tlbelo
    let tlbelo := if has pte pteNx then tlbelo ||| pteNx else tlbelo
    if has pte pteRplv then tlbelo ||| pteRplv else tlbelo

/-! ## Bits -/

lemma bit_low (k : Nat) (hk : k < 12) (w : Word) : bit (w &&& ppnMask) k = false := by
  have : ∀ k < 12, bit ppnMask k = false := by decide
  simp [this k hk]

lemma ite_has (w f x : Word) : (if has w f then x ||| (w &&& f) else x) = x ||| (w &&& f) := by
  by_cases h : w &&& f = 0#64 <;> simp [has, h]

lemma ite_has_flag (hf : f = twoPow 64 k) (hk : k < 64) (w x : Word) :
    (if has w f then x ||| f else x) = x ||| (w &&& f) := by
  rw [hf, has_twoPow w k hk, and_twoPow, bit]
  split <;> simp

/-- The fields that an entry and its TLB form share, at the same places. -/
def shared : Word :=
  ppnMask ||| pteV ||| pteD ||| ptePlv ||| pteMat ||| pteG ||| pteNr ||| pteNx ||| pteRplv

lemma pteToTlbelo_eq (h : isValid pte = true) : pteToTlbelo pte = pte &&& shared := by
  have hV : pteV = twoPow 64 0 := by decide
  have hD : pteD = twoPow 64 1 := by decide
  have hG : pteG = twoPow 64 6 := by decide
  have hNr : pteNr = twoPow 64 61 := by decide
  have hNx : pteNx = twoPow 64 62 := by decide
  have hRplv : pteRplv = twoPow 64 63 := by decide
  simp only [pteToTlbelo, h, Bool.not_true, Bool.false_eq_true, if_false, shared,
    and_or_distrib_left, ite_has, ite_has_flag hV, ite_has_flag hD, ite_has_flag hG,
    ite_has_flag hNr, ite_has_flag hNx, ite_has_flag hRplv, Nat.reduceLT]

/-- In the permissions of `kvmmap` and `uvmalloc` the dirty bit comes with the write bit. -/
lemma bit_pteFromPerm (perm : Word) : bit (pteFromPerm perm) 1 = bit (pteFromPerm perm) 8 := by
  unfold pteFromPerm
  generalize has perm permUser = u, has perm permRead = r, has perm permExec =
    x, has perm permWrite = w
  revert u r x w
  decide

lemma bit_leafPte (h : bit perm 1 = true → bit perm 8 = true) :
    bit (leafPte pa perm) 1 = bit (leafPte pa perm) 8 := by
  have hconst : ∀ k ∈ [1, 8], bit pteV k = false ∧ bit pteP k = false ∧ bit pteMatCc k = false ∧
      bit pteD k = decide (k = 1) := by
    decide
  have h1 := hconst 1 (by decide)
  have h8 := hconst 8 (by decide)
  have hW : has perm pteW = bit perm 8 := has_twoPow perm 8 (by decide)
  simp only [leafPte, hW, bit_or, bit_low 1 (by decide), bit_low 8 (by decide), h1, h8]
  cases hb : bit perm 8 with
  | true => simp [h1, h8, hb]
  | false => simpa [hb] using h

lemma pte2pa_dirEntry {pa : Word} (ha : pa.toNat % 4096 = 0) (hpa : pa.toNat < 2 ^ 48) :
    (pa &&& ppnMask ||| (pteV ||| pteP)) &&& ppnMask = pa := by
  have hflags : (pteV ||| pteP) &&& ppnMask = 0#64 := by decide
  have hmask : pa &&& ppnMask = pa := by
    have hbit : ∀ k < 64, bit ppnMask k = decide (12 ≤ k ∧ k < 48) := by decide +kernel
    refine eq_of_bit_eq fun k hk => ?_
    rw [bit_and, hbit k hk]
    by_cases hlow : k < 12
    · simp [bit_of_aligned ha hlow]
    · by_cases hhigh : k < 48
      · simp [hhigh, not_lt.mp hlow]
      · have hz : bit pa k = false :=
          Nat.testBit_lt_two_pow (hpa.trans_le (Nat.pow_le_pow_right (by decide) (not_lt.mp hhigh)))
        simp [hz]
  rw [and_or_distrib_right, hflags, hmask, hmask, BitVec.or_zero]

/-- The LoongArch instance of the walk. -/
def loongarch : Arch where
  dramBaseLow := 0x200000#64
  phystopLow := 0x8000000#64
  valid := isValid
  pte2pa pte := pte &&& ppnMask
  dirEntry pa := pa &&& ppnMask ||| (pteV ||| pteP)
  valid_zero := by decide
  valid_dirEntry pa := by
    rw [isValid, and_or_distrib_right, BitVec.and_assoc, show ppnMask &&& (pteV ||| pteP) =
      0#64 by decide]
    simp
  pte2pa_dirEntry pa ha _ htop := pte2pa_dirEntry ha (by bv_omega)
  dram_le := by decide

/-! ## The handler -/

def dmw0Pa2va (pa : Word) : Word := pa ||| 0x8000000000000000#64

/-- A load through `DMW0`, which drops the upper sixteen bits of an address. -/
def loadDmw0 (m : Machine) (pagetable : Word) (idx : Nat) : Word :=
  m.word (pa2va (pagetable &&& paMask)) idx

def isLowVa (va : Word) : Bool := va < 0x4000000000#64

def isHighVa (va : Word) : Bool := 0xffffffc000000000#64 ≤ va

def bootWalkFrom (m : Machine) (va : Word) : Nat → Word → Option (Word × Nat)
  | 0, pagetable => some (pagetable, vpnGet va 0)
  | level + 1, pagetable =>
    let pte := loadDmw0 m pagetable (vpnGet va (level + 1))
    if !isValid pte then none else bootWalkFrom m va level (dmw0Pa2va (pte &&& ppnMask))

def bootWalkExisting (m : Machine) (root va : Word) : Option (Word × Nat) :=
  if root = 0#64 ∨ !isHighVa va ∧ !isLowVa va then none else bootWalkFrom m va 2 root

/-- The registers that the handler reads. -/
structure Csr where
  tlbrbadv : Word
  pgdl : Word
  pgdh : Word
  tlbrprmd : Word

inductive Refill where
  /-- The handler returns 0. -/
  | refused
  | panic
  | entry (tlbrehi tlbrelo0 tlbrelo1 : Word)
  deriving DecidableEq

def tlbelo (m : Machine) (root va : Word) : Word :=
  match bootWalkExisting m root va with
  | none => 0#64
  | some (pagetable, idx) =>
    let pte := loadDmw0 m pagetable idx
    if isValid pte then pteToTlbelo pte else 0#64

/-- `boot_tlb_refill_handler` once it has chosen the root. -/
def refillFrom (m : Machine) (c : Csr) (root : Word) : Refill :=
  let pairVa := c.tlbrbadv &&& ~~~0x1fff#64
  let elo0 := tlbelo m root pairVa
  let elo1 := tlbelo m root (pairVa + 4096#64)
  let previousPlv := c.tlbrprmd &&& 3#64
  if elo0 = 0#64 ∧ elo1 = 0#64 ∧ previousPlv ≠ 3#64 then .panic
  else .entry (pairVa &&& ~~~0x1fff#64 ||| 12#64) elo0 elo1

def bootTlbRefillHandler (m : Machine) (c : Csr) : Refill :=
  if isHighVa c.tlbrbadv then refillFrom m c (dmw0Pa2va c.pgdh)
  else if isLowVa c.tlbrbadv then refillFrom m c (dmw0Pa2va c.pgdl)
  else .refused

lemma loadDmw0_pa2va (h : pa &&& paMask = pa) (m : Machine) (idx : Nat) :
    loadDmw0 m (dmw0Pa2va pa) idx = m.word (pa2va pa) idx := by
  have hbase : 0x8000000000000000#64 &&& paMask = 0#64 := by decide
  rw [loadDmw0, dmw0Pa2va, and_or_distrib_right, hbase, h, BitVec.or_zero]

lemma ppnMask_and (w : Word) : w &&& ppnMask &&& paMask = w &&& ppnMask := by
  rw [BitVec.and_assoc, show ppnMask &&& paMask = ppnMask by decide]

lemma tlbelo_eq {pgd : Word} (hpgd : pgd &&& paMask = pgd) (hva : isHighVa va ∨ isLowVa va) :
    tlbelo m (dmw0Pa2va pgd) va =
      ((leafAt loongarch m (pa2va pgd) (pageNo va)).map pteToTlbelo).getD 0#64 := by
  have hroot : dmw0Pa2va pgd ≠ 0#64 := by
    intro h
    have hbit := congrArg (bit · 63) h
    simp [dmw0Pa2va, show bit 0x8000000000000000#64 63 = true by decide] at hbit
  have hguard : ¬(dmw0Pa2va pgd = 0#64 ∨ !isHighVa va ∧ !isLowVa va) := by
    simp only [hroot, false_or]
    grind
  have hpath : pathOf (pageNo va) = [vpnGet va 2, vpnGet va 1] := by
    rw [pathOf, vpnGet_two, vpnGet_one]
  have hnext (e : Word) : loongarch.next e = if isValid e then some (pa2va (e &&& ppnMask))
    else none := rfl
  have hload (e : Word) := loadDmw0_pa2va (ppnMask_and e) m
  simp only [tlbelo, bootWalkExisting, if_neg hguard, bootWalkFrom, loadDmw0_pa2va hpgd, leafAt,
    slotAt, hpath, descend, hnext, hload]
  generalize m.word (pa2va pgd) (vpnGet va 2) = e2
  cases isValid e2 with
  | false => rfl
  | true =>
    cases h1 : isValid (m.word (pa2va (e2 &&& ppnMask)) (vpnGet va 1)) with
    | false => simp [h1]
    | true =>
      simp only [Bool.not_true, Bool.false_eq_true, if_false, if_true, h1, hload, vpnGet_zero,
        bind_some, map_some]
      change _ = ((if isValid _ then _ else _ : Option Word).map pteToTlbelo).getD _
      split <;> rfl

/-- The fields of an entry that the TLB must show. -/
def fields : Word := ppnMask ||| ptePlv ||| pteMat ||| pteNr ||| pteNx

/-- A word for `TLBRELO0` or `TLBRELO1` against the leaf that `walk` finds. -/
def Agrees (elo : Word) : Option Word → Prop
  | none => elo = 0#64
  | some pte => bit elo 0 = true ∧ elo &&& fields = pte &&& fields ∧ bit elo 1 = bit pte 8

/-- Every leaf was written by `mappages`, whose callers pass `D` only with `W`. -/
def Mapped (m : Machine) (root : Word) : Prop :=
  ∀ v e, leafAt loongarch m root v = some e →
    ∃ pa perm, (bit perm 1 = true → bit perm 8 = true) ∧ e = leafPte pa perm

lemma agrees_leaf (h : Mapped m root) (v : Nat) :
    Agrees (((leafAt loongarch m root v).map pteToTlbelo).getD 0#64)
      (leafAt loongarch m root v) := by
  cases hl : leafAt loongarch m root v with
  | none => rfl
  | some e =>
    obtain ⟨pa, perm, hperm, he⟩ := h v e hl
    obtain ⟨-, -, -, -, hvalid⟩ := leafAt_eq_some.mp hl
    have hshared : bit shared 0 = true ∧ bit shared 1 = true ∧ shared &&& fields = fields := by
      decide
    have hV : bit e 0 = true := by
      have hv := congrArg (bit · 0) (eq_of_beq hvalid)
      simpa [show bit (pteV ||| pteP) 0 = true by decide] using hv
    simp only [map_some, getD_some, pteToTlbelo_eq hvalid, Agrees, bit_and, hshared, hV,
      BitVec.and_assoc, Bool.and_true, true_and]
    rw [he]
    exact bit_leafPte hperm

lemma Agrees.eq_zero_iff (h : Agrees elo leaf) : elo = 0#64 ↔ leaf = none := by
  cases leaf with
  | none => simpa [Agrees] using h
  | some pte =>
    simp only [reduceCtorEq, iff_false]
    rintro rfl
    simp [Agrees] at h

lemma pair_toNat (va : Word) : (va &&& ~~~0x1fff#64).toNat = va.toNat / 8192 * 8192 :=
  mask_toNat (k := 13) (by decide) va

/-- The root that the handler chooses. -/
def Csr.pgd (c : Csr) : Word := if isHighVa c.tlbrbadv then c.pgdh else c.pgdl

lemma handler_eq (hva : isHighVa c.tlbrbadv ∨ isLowVa c.tlbrbadv) :
    bootTlbRefillHandler m c = refillFrom m c (dmw0Pa2va c.pgd) := by
  unfold bootTlbRefillHandler Csr.pgd
  grind

/-- **TLB refill**: for a fault in either half, both words agree with the leaves of the pair in the
one table of that half, unless the kernel itself faulted on a pair without any leaf. -/
theorem tlb_refill_agrees (m : Machine) (c : Csr) (hva : isHighVa c.tlbrbadv ∨ isLowVa c.tlbrbadv)
    (hpgd : c.pgd &&& paMask = c.pgd) (hmapped : Mapped m (pa2va c.pgd)) :
    let leaf := leafAt loongarch m (pa2va c.pgd)
    let v := pageNo c.tlbrbadv / 2 * 2
    if leaf v = none ∧ leaf (v + 1) = none ∧ c.tlbrprmd &&& 3#64 ≠ 3#64 then
      bootTlbRefillHandler m c = .panic
    else ∃ elo0 elo1, bootTlbRefillHandler m c =
        .entry (c.tlbrbadv &&& ~~~0x1fff#64 ||| 12#64) elo0 elo1 ∧
      Agrees elo0 (leaf v) ∧ Agrees elo1 (leaf (v + 1)) := by
  intro leaf v
  have hpair := pair_toNat c.tlbrbadv
  generalize hp : c.tlbrbadv &&& ~~~0x1fff#64 = pair at hpair
  -- the pair lies in the half of the faulting address, because both halves are multiples of 8 KiB
  have hhalf : (isHighVa pair ∨ isLowVa pair) ∧
      (isHighVa (pair + 4096#64) ∨ isLowVa (pair + 4096#64)) := by
    simp only [isHighVa, isLowVa, decide_eq_true_eq] at hva ⊢
    bv_omega
  have hv : pageNo pair = v ∧ pageNo (pair + 4096#64) = v + 1 := by
    simp only [pageNo, v]
    bv_omega
  have hidem : pair &&& ~~~0x1fff#64 = pair := by
    rw [← hp, BitVec.and_assoc, BitVec.and_self]
  have h0 := agrees_leaf hmapped v
  have h1 := agrees_leaf hmapped (v + 1)
  rw [handler_eq hva, refillFrom, hp, tlbelo_eq hpgd hhalf.1, tlbelo_eq hpgd hhalf.2, hv.1, hv.2]
  simp only [h0.eq_zero_iff, h1.eq_zero_iff, hidem]
  split
  · rfl
  · exact ⟨_, _, rfl, h0, h1⟩

/-- A machine whose pages hold one entry everywhere. -/
def filledWith (e : Word) : Machine := ⟨fun _ _ => e, [], 0, fun _ => 0, [], 0, 0, []⟩

/-- The entry of a user page with all permissions. -/
def userLeaf : Word := leafPte 0x200000#64 (pteFromPerm 15#64)

theorem tlb_refill_agrees_user : ∃ elo0 elo1, bootTlbRefillHandler (filledWith userLeaf)
    ⟨0x3456#64, 0x200000#64, 0#64, 3#64⟩ = .entry 0x200c#64 elo0 elo1 ∧
      Agrees elo0 (some userLeaf) ∧ Agrees elo1 (some userLeaf) := by
  have hvalid : loongarch.valid userLeaf = true := by decide
  have hleaf (v : Nat) : leafAt loongarch (filledWith userLeaf) (pa2va 0x200000#64) v =
    some userLeaf := by
    simp [leafAt, slotAt, pathOf, descend, Arch.next, filledWith, hvalid]
  have h := tlb_refill_agrees (filledWith userLeaf) ⟨0x3456#64, 0x200000#64, 0#64, 3#64⟩
    (by decide) rfl
    fun v e he =>
      ⟨_, _, (bit_pteFromPerm _).symm.trans, (some.inj ((hleaf v).symm.trans he)).symm⟩
  simp only [Csr.pgd, show isHighVa 0x3456#64 =
    false by decide, Bool.false_eq_true, if_false, hleaf] at h
  simpa using h

/-- The kernel faults on a pair of which no page is mapped. -/
theorem kernel_fault_panics :
    bootTlbRefillHandler (filledWith 0#64) ⟨0xffffffc000000000#64, 0#64, 0x200000#64, 0#64⟩ =
      .panic ∧
      leafAt loongarch (filledWith 0#64) (pa2va 0x200000#64) 0xffffffc000000 = none := by
  decide

end FrostVista.Loongarch
