import FrostVista.Machine.State
import Mathlib.Data.List.FinRange

/-!
# Processes, memory areas and sleeping

The process control block of `include/kernel/proc.h` with the fields the modelled functions read,
the lookup of memory areas of `kernel/mm/mmap.c`, and the lock protocol of `sched`, `sleep` and
`yield`. Reading a file is a parameter of the development: it returns data or fails, and it may
wait for the disk or for the terminal on the way.
-/
namespace FrostVista

open Lib Lib.Comp List Machine

namespace Kernel

def eNoEnt : Int := 2

def eIo : Int := 5

def eBadf : Int := 9

def eChild : Int := 10

def eAgain : Int := 11

def eNoMem : Int := 12

def eFault : Int := 14

def eNotDir : Int := 20

def eIsDir : Int := 21

def eInval : Int := 22

def eNFile : Int := 23

def eMFile : Int := 24

def eSPipe : Int := 29

def ePipe : Int := 32

def eOpNotSupp : Int := 95

end Kernel

def nproc : Nat := 64

lemma nproc_pos : 0 < nproc := by decide

def nvma : Nat := 16

/-- `PROCESS_MAX_OPEN_FILES` -/
def nofile : Nat := 128

/-- Why a function of the kernel returned a negative value. -/
inductive Err where
  | noMem
  | invalid
  | fault
  deriving DecidableEq, Repr

/-- The return value of a function that yields 0 or a negative number. -/
abbrev Ret := Except Err Unit

/-- `struct vm_area_struct`; a file is named by its index in `ftable`. -/
structure Vma where
  used : Bool
  vaStart : Word
  vaEnd : Word
  flags : Word
  fileOffset : Word
  vmPageProt : Word
  file : Option Nat
  deriving DecidableEq, Repr

/-- The area `(struct vm_area_struct){0}`. -/
def Vma.zero : Vma := ⟨false, 0, 0, 0, 0, 0, none⟩

/-- The offset in the file of the page at `va`. -/
def Vma.offset (vma : Vma) (va : Word) : Word := vma.fileOffset + (va - vma.vaStart)

inductive ProcState where
  | unused
  | used
  | runnable
  | running
  | sleeping
  | zombie
  deriving DecidableEq, Repr

structure Sigaction where
  handler : Word
  flags : Word
  restorer : Word
  mask : Word
  deriving DecidableEq, Repr

structure Sighand where
  sigPending : Word
  sigBlocked : Word
  actions : Nat → Sigaction

/-- `memset(&p->sighand, 0, sizeof(struct sighand))` -/
def Sighand.zero : Sighand := ⟨0, 0, fun _ => ⟨0, 0, 0, 0⟩⟩

structure Process where
  /-- The index of the process in `proc`. -/
  slot : Nat
  state : ProcState
  pid : Int
  ofile : Nat → Option Nat
  exitCode : Int
  kstack : Word
  parent : Option Nat
  pagetable : Word
  context : Word
  heapBottom : Word
  heapTop : Word
  stackBottom : Word
  stackTop : Word
  vmArea : Fin nvma → Vma
  sighand : Sighand
  /-- `trapframe->sp` -/
  sp : Word

/-- `&p->lock` -/
def Process.lock (p : Process) : Lock := .proc p.slot

/-! ## Memory areas -/

/-- The test `addr < vma->va_end && vma->va_start < addr + len` on an area in use. -/
def Vma.overlaps (vma : Vma) (addr len : Word) : Bool :=
  vma.used && (addr < vma.vaEnd && vma.vaStart < addr + len)

/-- `find_overlapping_vma` on the areas of the current process. -/
def findOverlappingVma (p : Process) (addr len : Word) : Option Vma :=
  if addr ≠ 0 then
    ((List.finRange nvma).find? fun i => (p.vmArea i).overlaps addr len).map p.vmArea
  else none

/-! ## Scheduling points -/

/-- The checks of `sched`; afterwards the process runs again with the same locks. -/
def sched (p : Process) : M Unit := do
  let m ← get
  if p.lock ∉ m.held then fail .schedLock
  else if m.held.length ≠ 1 then fail .schedLocks
  else pure ()

/-- The locks taken and released by `sleep(chan, lk)`. -/
def sleep (p : Process) (lk : Lock) : M Unit := do
  if lk ≠ p.lock then
    acquire p.lock
    release lk
    sched p
    release p.lock
    acquire lk
  else sched p

/-- The locks taken and released by `yield`. -/
def yield (p : Process) : M Unit := do
  acquire p.lock
  sched p
  release p.lock

section Sleep

variable {m : Machine} {p : Process} {lk : Lock}

lemma run_sleep (hne : lk ≠ p.lock) (h : m.held = [lk]) : (sleep p lk).run m = .ok ((), m) := by
  have h1 : p.lock ∉ m.held := by simp [h, Ne.symm hne]
  have hsched : (sched p).run (m.setHeld [p.lock]) = .ok ((), m.setHeld [p.lock]) := by
    simp [sched, run_bind]
  rw [sleep, if_pos hne, run_bind_ok (run_acquire h1), run_bind_ok (run_release (by simp [h]))]
  simp only [setHeld_held, setHeld_setHeld, h, erase_cons, erase_nil,
    beq_self_eq_true, if_true, beq_eq_false_iff_ne.mpr hne.symm, Bool.false_eq_true, if_false]
  rw [run_bind_ok hsched, run_bind_ok (run_release (by simp)), run_acquire (by simp)]
  simp [setHeld_eq_self h]

lemma run_sleep_locked (hne : lk ≠ p.lock) (hl : lk ∈ m.held) (h : m.held.length ≠ 1) :
    (sleep p lk).run m = .error (if p.lock ∈ m.held then .alreadyHolding else .schedLocks) := by
  rw [sleep, if_pos hne]
  by_cases h1 : p.lock ∈ m.held
  · rw [run_bind_error (run_acquire_held h1), if_pos h1]
  · have hlen : ((p.lock :: m.held).erase lk).length ≠ 1 := by
      rw [length_erase_of_mem (by simp [hl])]
      simpa using h
    have hmem : p.lock ∈ (p.lock :: m.held).erase lk :=
      (mem_erase_of_ne hne.symm).mpr mem_cons_self
    rw [run_bind_ok (run_acquire h1), run_bind_ok (run_release (by simp [hl])), if_neg h1]
    refine run_bind_error ?_ _
    simp [sched, run_bind, hmem, hlen]

end Sleep

/-- What a file-system operation may wait for. -/
inductive Wait where
  | disk
  | terminal
  deriving DecidableEq, Repr

/-- A disk request sleeps on its buffer with `blk_lock`; the terminal driver yields. -/
def Wait.run (p : Process) : Wait → M Unit
  | .disk => do
    acquire .blk
    sleep p .blk
    release .blk
  | .terminal => yield p

lemma Wait.run_of_unlocked (w : Wait) (h : m.held = []) :
    (w.run p).run m = .ok ((), m) := by
  cases w with
  | disk =>
    have hne : Lock.blk ≠ p.lock := by simp [Process.lock]
    rw [Wait.run, run_bind_ok (run_acquire (by simp [h])),
      run_bind_ok (run_sleep hne (by simp [h])), run_release (by simp)]
    simp [h, setHeld_eq_self h]
  | terminal =>
    have hsched : (sched p).run (m.setHeld [p.lock]) = .ok ((), m.setHeld [p.lock]) := by
      simp [sched, run_bind]
    rw [Wait.run, yield, run_bind_ok (run_acquire (by simp [h])), h, run_bind_ok hsched,
      run_release (by simp)]
    simp [setHeld_eq_self h]

lemma Wait.run_of_locked (w : Wait) (h : m.held ≠ []) :
    (w.run p).run m = .error .alreadyHolding ∨ (w.run p).run m = .error .schedLocks := by
  have hlen : 0 < m.held.length := length_pos_iff.mpr h
  cases w with
  | disk =>
    have hne : Lock.blk ≠ p.lock := by simp [Process.lock]
    by_cases hb : Lock.blk ∈ m.held
    · exact .inl (run_bind_error (run_acquire_held hb) _)
    · rw [Wait.run, run_bind_ok (run_acquire hb),
        run_bind_error (run_sleep_locked hne (by simp) (by simp; omega))]
      split
      · exact .inl rfl
      · exact .inr rfl
  | terminal =>
    by_cases hp : p.lock ∈ m.held
    · exact .inl (run_bind_error (run_acquire_held hp) _)
    · refine .inr ?_
      rw [Wait.run, yield, run_bind_ok (run_acquire hp)]
      refine run_bind_error ?_ _
      simp [sched, run_bind, h]

/-- The answer of the file system to a read: the bytes or a failure, and the waits before it. -/
structure ReadResult where
  data : Option (List Byte)
  waits : List Wait

/-- The file system as seen by a page fault: a file and an offset determine the answer. -/
abbrev FileSys := Nat → Word → ReadResult

/-- `vfs_read_at(file->node, off, buf, PGSIZE)` -/
def vfsReadAt (fs : FileSys) (p : Process) (file : Nat) (off : Word) : M (Option (List Byte)) := do
  let r := fs file off
  (r.waits.forM fun w => w.run p)
  pure (r.data.map fun bytes => bytes.take pgSize)

section Read

variable {m : Machine} {p : Process} {fs : FileSys} {file : Nat} {off : Word}

lemma run_waits (ws : List Wait) (h : m.held = [] ∨ ws = []) :
    (ws.forM fun w => w.run p).run m = .ok (PUnit.unit, m) := by
  induction ws with
  | nil => rfl
  | cons w ws ih =>
    have hm : m.held = [] := by simpa using h
    rw [List.forM, run_bind_ok (w.run_of_unlocked hm), ih (.inl hm)]

/-- Without locks, or without waiting, a read returns and leaves the machine as it was. -/
lemma run_vfsReadAt (h : m.held = [] ∨ (fs file off).waits = []) : (vfsReadAt fs p file off).run m =
      .ok ((fs file off).data.map fun bytes => bytes.take pgSize, m) := by
  rw [vfsReadAt, run_bind_ok (run_waits _ h), run_pure]

lemma run_vfsReadAt_locked (h : m.held ≠ []) (hw : (fs file off).waits ≠ []) :
    (vfsReadAt fs p file off).run m = .error .alreadyHolding ∨
      (vfsReadAt fs p file off).run m = .error .schedLocks := by
  obtain ⟨w, ws, hws⟩ := exists_cons_of_ne_nil hw
  have hrun : ∀ e, (w.run p).run m = .error e → (vfsReadAt fs p file off).run m = .error e := by
    intro e he
    rw [vfsReadAt, hws, List.forM]
    exact run_bind_error (run_bind_error he _) _
  exact (w.run_of_locked h).imp (hrun _) (hrun _)

end Read

end FrostVista
