import FrostVista.Machine.State

/-!
# The physical page allocator

`kalloc`, `kfree` and the reference counts of `kernel/mm/kalloc.c`. The intrusive list that starts
at `head.next` is a list of page addresses, and the array `refcnt` is indexed by the page's kernel
virtual address. Every function takes `mem_lock` around its critical sections, so each result below
asks for a CPU that does not hold it yet.
-/
namespace FrostVista

open Lib Lib.Comp Function Machine

/-- What the two architectures do differently: the RAM layout and the page-table entry format. -/
structure Arch where
  dramBaseLow : Word
  phystopLow : Word
  /-- The test on an entry before it is followed. -/
  valid : Word → Bool
  /-- The physical address in an entry. -/
  pte2pa : Word → Word
  /-- The entry that points to a next-level table. -/
  dirEntry : Word → Word
  valid_zero : valid 0#64 = false
  valid_dirEntry : ∀ pa, valid (dirEntry pa) = true
  pte2pa_dirEntry : ∀ pa, pa.toNat % 4096 = 0 → dramBaseLow ≤ pa → pa < phystopLow →
    pte2pa (dirEntry pa) = pa
  dram_le : dramBaseLow.toNat + 4096 ≤ phystopLow.toNat ∧ phystopLow.toNat < 2 ^ 32

variable (A : Arch)

def Arch.isRamKva (va : Word) : Bool := pa2va A.dramBaseLow ≤ va ∧ va ≤ pa2va A.phystopLow

/-- The page an entry points to, as a kernel virtual address. -/
def Arch.page (e : Word) : Word := pa2va (A.pte2pa e)

def refcntInc (va : Word) : M Unit := do
  acquire .mem
  let m ← get
  if m.refcnt va ≤ 0 then fail .refcntInc
  else
    modify fun m => { m with refcnt := update m.refcnt va (m.refcnt va + 1) }
    release .mem

def refcntDec (va : Word) : M Unit := do
  acquire .mem
  let m ← get
  if m.refcnt va ≤ 0 then fail .refcntDec
  else
    modify fun m => { m with refcnt := update m.refcnt va (m.refcnt va - 1) }
    release .mem

def kfree (va : Word) : M Unit := do
  let m ← get
  if !A.isRamKva va then fail .kfreeLow
  else if va.toNat % pgSize ≠ 0 ∨ pa2va A.phystopLow < va ∨ va < m.kernelEnd then fail .kfree
  else
    acquire .mem
    if 1 < m.refcnt va then
      modify fun m => { m with refcnt := update m.refcnt va (m.refcnt va - 1) }
      release .mem
    else
      release .mem
      modify fun m => m.zeroPage va
      acquire .mem
      modify fun m => { m with freelist := va :: m.freelist, size := m.size + 1 }
      release .mem

/-- The result `none` stands for the null pointer. -/
def kalloc : M (Option Word) := do
  acquire .mem
  let m ← get
  match m.freelist with
  | [] =>
    release .mem
    pure none
  | temp :: rest =>
    modify fun m =>
      { m with
        freelist := rest
        size := m.size - 1
        refcnt := update m.refcnt temp 1 }
    release .mem
    modify fun m => m.zeroPage temp
    pure (some temp)

namespace Machine

/-- The state after the page `p` was taken from the head of the free list. -/
@[simps -fullyApplied freelist refcnt held kernelEnd kernelTable trace]
def taken (m : Machine) (p : Word) : Machine :=
  { m.zeroPage p with
    freelist := m.freelist.tail
    size := m.size - 1
    refcnt := update m.refcnt p 1 }

/-- The state after one of several references to `p` was dropped. -/
@[simps -fullyApplied word freelist refcnt held kernelEnd kernelTable]
def unshared (m : Machine) (p : Word) : Machine :=
  { m with refcnt := update m.refcnt p (m.refcnt p - 1) }

/-- The state after `p` was put on the free list. -/
@[simps -fullyApplied freelist refcnt]
def returned (m : Machine) (p : Word) : Machine :=
  { m.zeroPage p with freelist := p :: m.freelist, size := m.size + 1 }

/-- The state `kfree` leaves for a page it accepts. -/
def freed (m : Machine) (p : Word) : Machine :=
  if 1 < m.refcnt p then m.unshared p else m.returned p

/-- The state after one more reference to `p` was counted. -/
@[simps -fullyApplied word freelist refcnt held kernelEnd kernelTable]
def shared (m : Machine) (p : Word) : Machine :=
  { m with refcnt := update m.refcnt p (m.refcnt p + 1) }

section Fields

variable (m : Machine) (p : Word)

@[simp] lemma taken_word : (m.taken p).word = update m.word p fun _ => 0 := rfl
@[simp] lemma returned_word : (m.returned p).word = update m.word p fun _ => 0 := rfl

lemma freed_word : (m.freed p).word =
    if 1 < m.refcnt p then m.word else update m.word p fun _ => 0 := by
  unfold freed
  split <;> rfl

lemma freed_freelist : (m.freed p).freelist =
    if 1 < m.refcnt p then m.freelist else p :: m.freelist := by
  unfold freed
  split <;> rfl

lemma freed_refcnt : (m.freed p).refcnt =
    if 1 < m.refcnt p then update m.refcnt p (m.refcnt p - 1) else m.refcnt := by
  unfold freed
  split <;> rfl

@[simp] lemma freed_held : (m.freed p).held = m.held := by
  unfold freed
  split <;> rfl

@[simp] lemma freed_kernelEnd : (m.freed p).kernelEnd = m.kernelEnd := by
  unfold freed
  split <;> rfl

@[simp] lemma freed_kernelTable : (m.freed p).kernelTable = m.kernelTable := by
  unfold freed
  split <;> rfl

end Fields

end Machine

/-- The pages the allocator hands out: aligned, above the kernel image, below the end of RAM. -/
structure IsPage (m : Machine) (p : Word) : Prop where
  aligned : p.toNat % 4096 = 0
  ram : pa2va A.dramBaseLow ≤ p
  kernelEnd : m.kernelEnd ≤ p
  top : p < pa2va A.phystopLow

variable {A} {m : Machine} {p : Word}

section
variable (hl : Lock.mem ∉ m.held)
include hl

lemma run_kalloc_nil (hf : m.freelist = []) : kalloc.run m = .ok (none, m) := by
  have hm : { m with freelist := [] } = m := by rw [← hf]
  simp [kalloc, run_bind, run_acquire hl, run_release, hf, hm, setHeld]

lemma run_kalloc_cons (hf : m.freelist = p :: ps) :
    kalloc.run m = .ok (some p, m.taken p) := by
  simp [kalloc, run_bind, run_acquire hl, run_release, hf, taken, zeroPage, setPage, setHeld]

lemma run_kfree (hp : IsPage A m p) :
    (kfree A p).run m = .ok ((), m.freed p) := by
  have hram : A.isRamKva p = true := by
    have h1 := hp.ram
    have h2 := hp.top
    simp only [Arch.isRamKva, decide_eq_true_eq]
    exact ⟨h1, by bv_omega⟩
  have hok : ¬(p.toNat % pgSize ≠ 0 ∨ pa2va A.phystopLow < p ∨ p < m.kernelEnd) := by
    have h1 := hp.aligned
    have h2 := hp.top
    have h3 := hp.kernelEnd
    simp only [pgSize]
    bv_omega
  by_cases hc : 1 < m.refcnt p
  · simp [kfree, run_bind, hram, hok, hc, run_acquire hl, run_release, freed, unshared, setHeld]
  · simp [kfree, run_bind, hram, hok, hc, run_acquire, hl, run_release, freed,
      returned, zeroPage, setPage, setHeld]

lemma run_refcntInc (hc : 0 < m.refcnt p) :
    (refcntInc p).run m = .ok ((), m.shared p) := by
  simp [refcntInc, run_bind, run_acquire hl, run_release, not_le.mpr hc, shared, setHeld]

lemma run_refcntDec (hc : 0 < m.refcnt p) :
    (refcntDec p).run m = .ok ((), m.unshared p) := by
  simp [refcntDec, run_bind, run_acquire hl, run_release, not_le.mpr hc, unshared, setHeld]

end

end FrostVista
