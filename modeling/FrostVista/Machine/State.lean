import FrostVista.Library.Comp
import FrostVista.Library.Radix
import FrostVista.Machine.Word

/-!
# The machine: memory, page allocator data, spinlocks and panics

Physical memory is seen through the kernel's direct map: a page is named by its kernel virtual
address and holds 512 words. Page tables and data live in the same memory, so a mistake in one is
visible in the other. The allocator's free list, its reference counts and the spinlocks held by the
running CPU are further fields. Every store to a page-table entry and every TLB flush is recorded.
-/
namespace FrostVista

open Function

/-- The spinlocks of the kernel; `proc i` is the lock of `proc[i]`, `pipe i` that of a pipe. -/
inductive Lock where
  | mem
  | pid
  | ftable
  | blk
  | cache
  | proc (slot : Nat)
  | pipe (i : Nat)
  deriving DecidableEq, Repr

/-- The ways in which the kernel stops. -/
inductive Panic where
  | alreadyHolding
  | notHolding
  | schedLock
  | schedLocks
  | kfreeLow
  | kfree
  | refcntInc
  | refcntDec
  | mappagesVa
  | mappagesSizeAlign
  | mappagesSize
  | remap
  | kvmunmap
  | uvmcreate
  | allocProcess
  | copyoutPa
  | filedup
  | fileclose
  | dup
  | initExiting
  | zombieExit
  | nullDeref
  | halt
  deriving DecidableEq, Repr

/-- What a function of the kernel does that a TLB can notice. -/
inductive Event where
  | store (page : Word) (idx : Nat) (old new : Word)
  | fence
  deriving DecidableEq, Repr

structure Machine where
  /-- The words of the page at a kernel virtual address. -/
  word : Word → Nat → Word
  /-- The list that starts at `head.next`. -/
  freelist : List Word
  /-- `FMM.size` -/
  size : Int
  refcnt : Word → Int
  /-- The spinlocks this CPU holds; their number is `noff`. -/
  held : List Lock
  /-- `_kernel_end` -/
  kernelEnd : Word
  kernelTable : Word
  /-- The most recent event comes first. -/
  trace : List Event

abbrev M := Lib.Comp Machine Panic

open Lib Lib.Comp

/-! ## Spinlocks -/

def acquire (lk : Lock) : M Unit := do
  let m ← get
  if lk ∈ m.held then fail .alreadyHolding
  else modify fun m => { m with held := lk :: m.held }

def release (lk : Lock) : M Unit := do
  let m ← get
  if lk ∈ m.held then modify fun m => { m with held := m.held.erase lk }
  else fail .notHolding

def Machine.setHeld (m : Machine) (held : List Lock) : Machine := { m with held := held }

@[simp] lemma Machine.setHeld_held (m : Machine) (l : List Lock) : (m.setHeld l).held = l := rfl

@[simp] lemma Machine.setHeld_setHeld (m : Machine) (l l' : List Lock) :
    (m.setHeld l).setHeld l' = m.setHeld l' := rfl

variable {m : Machine} {lk : Lock}

lemma Machine.setHeld_eq_self (h : m.held = l) : m.setHeld l = m := by
  subst h
  rfl

lemma run_acquire (h : lk ∉ m.held) : (acquire lk).run m = .ok ((), m.setHeld (lk :: m.held)) := by
  simp [acquire, run_bind, h, Machine.setHeld]

lemma run_acquire_held (h : lk ∈ m.held) : (acquire lk).run m = .error .alreadyHolding := by
  simp [acquire, run_bind, h]

lemma run_release (h : lk ∈ m.held) :
    (release lk).run m = .ok ((), m.setHeld (m.held.erase lk)) := by
  simp [release, run_bind, h, Machine.setHeld]

/-! ## Page-table entries and pages -/

namespace Machine

@[simps -fullyApplied word freelist refcnt held kernelEnd kernelTable]
def setPte (m : Machine) (page : Word) (idx : Nat) (e : Word) : Machine :=
  { m with
    word := write m.word page idx e
    trace := .store page idx (m.word page idx) e :: m.trace }

/-- Replaces the contents of a page. -/
@[simps -fullyApplied word freelist refcnt held kernelEnd kernelTable]
def setPage (m : Machine) (page : Word) (c : Nat → Word) : Machine :=
  { m with word := Function.update m.word page c }

/-- `memset(page, 0, PGSIZE)` -/
def zeroPage (m : Machine) (page : Word) : Machine := m.setPage page fun _ => 0

/-- `memmove(dst, src, PGSIZE)` between pages. -/
def copyPage (m : Machine) (dst src : Word) : Machine := m.setPage dst (m.word src)

end Machine

def readPte (page : Word) (idx : Nat) : M Word := gets fun m => m.word page idx

def storePte (page : Word) (idx : Nat) (e : Word) : M Unit := modify fun m => m.setPte page idx e

/-- Flushes the TLB of this CPU. -/
def sfenceVma : M Unit := modify fun m => { m with trace := .fence :: m.trace }

@[simp] lemma run_readPte (m : Machine) (page : Word) (idx : Nat) :
    (readPte page idx).run m = .ok (m.word page idx, m) := rfl

@[simp] lemma run_storePte (m : Machine) (page : Word) (idx : Nat) (e : Word) :
    (storePte page idx e).run m = .ok ((), m.setPte page idx e) := rfl

/-! ## Bytes -/

abbrev Byte := BitVec 8

def getByte (w : Word) (j : Nat) : Byte := (w >>> (8 * j)).setWidth 8

def setByte (w : Word) (j : Nat) (b : Byte) : Word :=
  (w &&& ~~~(0xff#64 <<< (8 * j))) ||| (b.setWidth 64 <<< (8 * j))

lemma getLsbD_byteMask (j k : Nat) (hk : k < 64) :
    (0xff#64 <<< (8 * j)).getLsbD k = decide (8 * j ≤ k ∧ k < 8 * j + 8) := by
  have hff : ∀ i, (0xff#64).getLsbD i = decide (i < 8) := by
    intro i
    have h : (0xff#64) = (BitVec.allOnes 8).setWidth 64 := by decide
    rw [h, BitVec.getLsbD_setWidth, BitVec.getLsbD_allOnes]
    by_cases hi : i < 8
    · simp [hi]
      omega
    · simp [hi]
  rw [BitVec.getLsbD_shiftLeft, hff]
  simp only [hk, decide_true, Bool.true_and]
  by_cases h1 : k < 8 * j
  · have h2 : ¬(8 * j ≤ k ∧ k < 8 * j + 8) := by omega
    simp [h1, h2]
  · have h2 : k - 8 * j < 8 ↔ 8 * j ≤ k ∧ k < 8 * j + 8 := by omega
    simp only [h1, decide_false, Bool.not_false, Bool.true_and, h2]

lemma getByte_setByte (hj : j < 8) (hk : k < 8) (w : Word) (b : Byte) :
    getByte (setByte w j b) k = if k = j then b else getByte w k := by
  ext i hi
  have hbit : 8 * k + i < 64 := by omega
  simp only [getByte, setByte, BitVec.getElem_setWidth, BitVec.getLsbD_ushiftRight,
    BitVec.getLsbD_or, BitVec.getLsbD_and, BitVec.getLsbD_not, getLsbD_byteMask _ _ hbit,
    BitVec.getLsbD_shiftLeft, BitVec.getLsbD_setWidth]
  by_cases hkj : k = j
  · subst hkj
    simp [hbit, hi]
    grind
  · have hout : ¬(8 * j ≤ 8 * k + i ∧ 8 * k + i < 8 * j + 8) := by omega
    have hzero : b.getLsbD (8 * k + i - 8 * j) = false ∨ 8 * k + i < 8 * j := by
      by_cases h : 8 * k + i < 8 * j
      · exact .inr h
      · exact .inl (BitVec.getLsbD_of_ge _ _ (by omega))
    simp [hbit, hout, hkj]
    grind

namespace Machine

/-- The byte at an offset of a page. -/
def readByte (m : Machine) (page : Word) (off : Nat) : Byte :=
  getByte (m.word page (off / 8)) (off % 8)

def writeByte (m : Machine) (page : Word) (off : Nat) (b : Byte) : Machine :=
  { m with word := write m.word page (off / 8) (setByte (m.word page (off / 8)) (off % 8) b) }

/-- `memmove(page + off, bytes, length)` -/
def writeBytes (m : Machine) (page : Word) (off : Nat) : List Byte → Machine
  | [] => m
  | b :: bs => (m.writeByte page off b).writeBytes page (off + 1) bs

@[simp] lemma writeByte_refcnt (m : Machine) (page : Word) (off : Nat) (b : Byte) :
    (m.writeByte page off b).refcnt = m.refcnt := rfl

@[simp] lemma writeByte_word (m : Machine) (page : Word) (off : Nat) (b : Byte) :
    (m.writeByte page off b).word =
      write m.word page (off / 8) (setByte (m.word page (off / 8)) (off % 8) b) := rfl

lemma writeByte_word_of_ne (h : q ≠ page) (off : Nat) (b : Byte) :
    (m.writeByte page off b).word q = m.word q :=
  write_row_of_ne h

lemma readByte_writeByte (m : Machine) (page q : Word) (off o : Nat) (b : Byte) :
    (m.writeByte page off b).readByte q o =
      if q = page ∧ o = off then b else m.readByte q o := by
  simp only [readByte, writeByte_word]
  by_cases hw : q = page ∧ o / 8 = off / 8
  · obtain ⟨rfl, hw⟩ := hw
    have hiff : o % 8 = off % 8 ↔ o = off := by omega
    rw [hw, write_same, getByte_setByte (by omega) (by omega)]
    simp [hiff]
  · have hne : ¬(q = page ∧ o = off) := by
      rintro ⟨rfl, rfl⟩
      exact hw ⟨rfl, rfl⟩
    rw [write_of_ne hw, if_neg hne]

lemma writeBytes_eq_setPage (m : Machine) (page : Word) (off : Nat) (bs : List Byte) :
    ∃ c, m.writeBytes page off bs = m.setPage page c := by
  induction bs generalizing m off with
  | nil => exact ⟨m.word page, by simp [writeBytes, setPage]⟩
  | cons b bs ih =>
    obtain ⟨c, hc⟩ := ih (m.writeByte page off b) (off + 1)
    refine ⟨c, ?_⟩
    rw [writeBytes, hc]
    have hw : update (m.writeByte page off b).word page c =
        update m.word page c := by
      funext q
      by_cases hq : q = page
      · subst hq
        simp
      · rw [update_of_ne hq, update_of_ne hq, writeByte_word_of_ne hq]
    simp only [setPage, hw]
    rfl

lemma readByte_writeBytes (m : Machine) (page q : Word) (off o : Nat) (bs : List Byte) :
    (m.writeBytes page off bs).readByte q o =
      if q = page ∧ off ≤ o ∧ o < off + bs.length then bs.getD (o - off) 0
      else m.readByte q o := by
  induction bs generalizing m off with
  | nil => grind [writeBytes]
  | cons b bs ih =>
    rw [writeBytes, ih, readByte_writeByte]
    by_cases hq : q = page
    · subst hq
      by_cases ho : o = off
      · subst ho
        simp
      · by_cases hin : off + 1 ≤ o ∧ o < off + 1 + bs.length
        · have hidx : o - off = (o - (off + 1)) + 1 := by omega
          have hin' : off ≤ o ∧ o < off + (b :: bs).length := by
            simp only [List.length_cons]
            omega
          simp only [hin, hin', and_self, if_true, hidx, List.getD_cons_succ]
        · have hin' : ¬(off ≤ o ∧ o < off + (b :: bs).length) := by
            simp only [List.length_cons]
            omega
          simp only [hin, hin', ho, and_false, if_false]
    · simp [hq]

end Machine

end FrostVista
