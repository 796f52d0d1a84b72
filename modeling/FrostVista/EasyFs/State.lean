import FrostVista.Kernel.Namei
import FrostVista.Library.Bytes
import FrostVista.Library.Prog

/-!
# EasyFS: the disk, the cached inodes and the operations on them

The code of EasyFS is written over a small set of operations: reading, writing and releasing a block
(`bread`, `bwrite`, `brelse` of the block cache, which is transparent), `get_inode` and `put_inode`,
access to the fields of a cached inode, and its sleeplock. A process can be descheduled only in an
operation that may wait: for the disk, for a buffer, or for a sleeplock.

Running out of kernel pages is not modelled: an inode in the cache always has its page of private
data.
-/
namespace FrostVista.EasyFs

open Lib Kernel Function List

/-! ## The layout of the disk -/

/-- `INOBLK_BMIP`, the inode bitmap -/
def inoblkBmip : Nat := 2

/-- `DABLK_BMIP`, the data block bitmap -/
def dablkBmip : Nat := 3

/-- `INODE_BLOCK`, the start of the inode table -/
def inodeBlock : Nat := 4

/-- `DATA_BLOCK`, the start of the data area -/
def dataBlock : Nat := 11

def totalBlocks : Nat := 4096

def bsize : Nat := 4096

def ndirect : Nat := 10

def nindirect : Nat := 1024

/-- `SINDIRECT_INDEX` -/
def sindirect : Nat := 10

/-- `DINDIRECT_INDEX` -/
def dindirect : Nat := 11

/-- `MAXFILE`, in blocks -/
def maxfile : Nat := ndirect + nindirect + nindirect * nindirect

def vfsDir : Nat := 0x1

/-- `struct disk_inode`; the last two of the twelve block numbers are those of the single-indirect
and the double-indirect block. -/
structure DiskInode where
  type : Nat
  nlinks : Nat
  size : Nat
  blocks : Nat → Nat

/-- The inode at its place in a block of the inode table. -/
def diskInode (b : Bytes) (ino : Nat) : DiskInode where
  type := b.load (64 * (ino % 64)) 2
  nlinks := b.load (64 * (ino % 64) + 2) 2
  size := b.load (64 * (ino % 64) + 4) 4
  blocks i := b.load (64 * (ino % 64) + 8 + 4 * i) 4

/-- The assignments to the fields of `dip`. -/
def setDiskInode (b : Bytes) (ino : Nat) (d : DiskInode) : Bytes :=
  let o := 64 * (ino % 64)
  (((b.store o 2 d.type).store (o + 2) 2 d.nlinks).store (o + 4) 4 d.size).storeAll
    (o + 8) 4 12 d.blocks

/-- An array of numbers; it ends in zeros. -/
def nums (l : List Nat) : Nat → Nat := fun i => l.getD i 0

/-! ## The state -/

/-- A process; its `pid`. -/
abbrev Tid := Nat

abbrev SlotId := Fin Namei.ninodes

/-- `struct vfs_inode` of an EasyFS inode; `blocks` is its private data and `owner` the process that
holds its sleeplock. -/
structure Slot where
  dev : Nat
  ino : Nat
  count : Nat
  nlinks : Nat
  type : Nat
  size : Nat
  blocks : Nat → Nat
  owner : Option Tid

structure Fs where
  /-- The blocks of the disk, as the block cache shows them. -/
  blk : Nat → Bytes
  /-- Some process is between `bread` and `brelse` of the block. -/
  busy : Nat → Bool
  slot : SlotId → Slot
  /-- The slots from `head.prev` on. -/
  order : List SlotId

@[simps -fullyApplied] def Fs.setBlk (s : Fs) (n : Nat) (b : Bytes) : Fs :=
  { s with blk := update s.blk n b }

@[simps -fullyApplied] def Fs.setBusy (s : Fs) (n : Nat) (v : Bool) : Fs :=
  { s with busy := update s.busy n v }

@[simps -fullyApplied] def Fs.setSlot (s : Fs) (i : SlotId) (e : Slot) : Fs :=
  { s with slot := update s.slot i e }

/-- `get_inode(EASYFS_DEV, ino, 1)`; a slot that comes from another device gets a fresh page. -/
def Fs.getInode (s : Fs) (ino : Nat) : Option (SlotId × Fs) :=
  match (List.finRange Namei.ninodes).find? fun i => (s.slot i).ino = ino ∧ (s.slot i).dev = 0 with
  | some i => some (i, s.setSlot i { s.slot i with count := (s.slot i).count + 1 })
  | none =>
    match s.order.find? fun i => (s.slot i).count = 0 with
    | some i => some (i, s.setSlot i { s.slot i with
        dev := 0
        ino := ino
        count := 1
        blocks := if (s.slot i).dev = 0 then (s.slot i).blocks else fun _ => 0 })
    | none => none

/-- `put_inode(ip, 1)` -/
def Fs.putInode (s : Fs) (i : SlotId) : Fs :=
  if (s.slot i).count = 1 ∧ (s.slot i).nlinks = 0 then
    { s.setSlot i { s.slot i with count := 0, blocks := fun _ => 0 } with
      order := s.order.erase i ++ [i] }
  else if (s.slot i).count = 0 then s
  else s.setSlot i { s.slot i with count := (s.slot i).count - 1 }

section References

variable {s s' : Fs} {n : Nat} {i : SlotId}

lemma slot_setSlot {α : Type} (f : Slot → α) (h : f e = f (s.slot i)) (j : SlotId) :
    f ((s.setSlot i e).slot j) = f (s.slot j) := by
  by_cases hji : j = i
  · subst hji
    simpa [Fs.setSlot] using h
  · simp [Fs.setSlot, hji]

/-- A slot that `get_inode` returns holds the inode already or is taken over. -/
lemma getInode_eq_some (h : s.getInode n = some (i, s')) : ∃ e, s' = s.setSlot i e ∧
    (e.dev, e.ino) = (0, n) ∧ e.count = (s.slot i).count + 1 ∧ e.owner = (s.slot i).owner ∧
    ((s.slot i).dev = 0 ∧ (s.slot i).ino = n ∨
      (s.slot i).count = 0 ∧ ∀ j, (s.slot j).dev = 0 → (s.slot j).ino ≠ n) := by
  unfold Fs.getInode at h
  split at h
  · rename_i j hj
    cases h
    have hfound := find?_some hj
    rw [decide_eq_true_eq] at hfound
    exact ⟨_, rfl, Prod.ext hfound.2 hfound.1, rfl, rfl, .inl hfound.symm⟩
  · rename_i hnone
    rw [find?_eq_none] at hnone
    split at h
    · rename_i j hj
      cases h
      have hzero := find?_some hj
      rw [decide_eq_true_eq] at hzero
      refine ⟨_, rfl, rfl, by rw [hzero], rfl, .inr ⟨hzero, fun k hdev hino => ?_⟩⟩
      exact hnone k (mem_finRange k) (decide_eq_true ⟨hino, hdev⟩)
    · cases h

lemma putInode_eq (hc : 1 ≤ (s.slot i).count) :
    ∃ e order, s.putInode i = { s.setSlot i e with order } ∧
    (e.dev, e.ino) = ((s.slot i).dev, (s.slot i).ino) ∧ e.count = (s.slot i).count - 1 ∧
    e.owner = (s.slot i).owner ∧
      (1 ≤ e.count → e = { s.slot i with count := (s.slot i).count - 1 }) ∧
    ∀ j, j ∈ s.order → j ∈ order := by
  unfold Fs.putInode
  split
  · rename_i hlast
    refine ⟨_, _, rfl, rfl, by simp [hlast.1], rfl, nofun, fun j hj => ?_⟩
    by_cases hji : j = i
    · simp [hji]
    · simp [mem_erase_of_ne hji, hj]
  · rw [if_neg (by omega)]
    exact ⟨_, s.order, rfl, rfl, rfl, rfl, fun _ => rfl, fun _ => id⟩

end References

/-! ## The operations -/

inductive Panic where
  | bfreeRange
  | bfreeFree
  | ilock
  | iunlock
  | readError
  | dirlinkRead
  | unlinkWrite
  /-- An access outside of a buffer. -/
  | outOfBounds
  /-- A loop that does not end. -/
  | endless
  deriving DecidableEq

inductive Stop where
  | wait
  | panic (p : Panic)

inductive Op where
  | bread (n : Nat)
  | bwrite (n : Nat) (b : Bytes)
  | brelse (n : Nat)
  | getInode (ino : Nat)
  | putInode (i : SlotId)
  /-- Reads the fields of a cached inode. -/
  | load (i : SlotId)
  /-- Assigns to fields of a cached inode. -/
  | edit (i : SlotId) (f : Slot → Slot)
  /-- The assignments of `easyfs_fill_vfs_inode`. -/
  | fill (i : SlotId) (ino : Nat) (d : DiskInode)
  | acquiresleep (i : SlotId)
  | releasesleep (i : SlotId)
  | holdingsleep (i : SlotId)
  /-- Does nothing; it marks that `easyfs_ilock`, `iupdate` or `ifree` accesses the block next. -/
  | touch (n : Nat)
  | panic (p : Panic)

abbrev Op.Res : Op → Type
  | .bread _ => Bytes
  | .getInode _ => Option SlotId
  | .load _ => Slot
  | .holdingsleep _ => Bool
  | .panic _ => Empty
  | _ => Unit

/-- The operations in which a process may be descheduled. -/
def Op.waits : Op → Bool
  | .bread _ => true
  | .bwrite _ _ => true
  | .acquiresleep _ => true
  | _ => false

abbrev ops : Ops := ⟨Op, Op.Res⟩

abbrev FsProg := Prog ops

abbrev FsComp := Comp Fs Stop

/-- What an operation of the process `t` does. A buffer or a sleeplock that is taken has to be
waited for. -/
def exec (t : Tid) : (o : Op) → FsComp o.Res
  | .bread n => fun s => if s.busy n then .error .wait else .ok (s.blk n, s.setBusy n true)
  | .bwrite n b => fun s => .ok ((), s.setBlk n b)
  | .brelse n => fun s => .ok ((), s.setBusy n false)
  | .getInode ino => fun s =>
    match s.getInode ino with
    | none => .ok (none, s)
    | some (i, s) => .ok (some i, s)
  | .putInode i => fun s => .ok ((), s.putInode i)
  | .load i => fun s => .ok (s.slot i, s)
  | .edit i f => fun s => .ok ((), s.setSlot i (f (s.slot i)))
  | .fill i ino d => fun s => .ok ((), s.setSlot i { s.slot i with
      dev := 0
      ino := ino
      nlinks := d.nlinks
      type := d.type % 2 ^ 8  -- the parameter is a uint8
      size := d.size
      blocks := d.blocks
      owner := none })  -- initsleeplock
  | .acquiresleep i => fun s =>
    match (s.slot i).owner with
    | none => .ok ((), s.setSlot i { s.slot i with owner := some t })
    | some _ => .error .wait
  | .releasesleep i => fun s => .ok ((), s.setSlot i { s.slot i with owner := none })
  | .holdingsleep i => fun s => .ok (decide ((s.slot i).owner = some t), s)
  | .touch _ => fun s => .ok ((), s)
  | .panic p => fun _ => .error (.panic p)

/-- Runs a program of the process `t` alone. -/
abbrev runAs {α : Type} (t : Tid) (x : FsProg α) : FsComp α := Prog.run (exec t) x

def act (o : Op) : FsProg o.Res := @Prog.perform ops o

def bread (n : Nat) : FsProg Bytes := act (.bread n)

def bwrite (n : Nat) (b : Bytes) : FsProg Unit := act (.bwrite n b)

def brelse (n : Nat) : FsProg Unit := act (.brelse n)

def getInode (ino : Nat) : FsProg (Option SlotId) := act (.getInode ino)

def putInode (i : SlotId) : FsProg Unit := act (.putInode i)

def load (i : SlotId) : FsProg Slot := act (.load i)

def edit (i : SlotId) (f : Slot → Slot) : FsProg Unit := act (.edit i f)

def fill (i : SlotId) (ino : Nat) (d : DiskInode) : FsProg Unit := act (.fill i ino d)

def acquiresleep (i : SlotId) : FsProg Unit := act (.acquiresleep i)

def releasesleep (i : SlotId) : FsProg Unit := act (.releasesleep i)

def holdingsleep (i : SlotId) : FsProg Bool := act (.holdingsleep i)

def touch (n : Nat) : FsProg Unit := act (.touch n)

def panic {α : Type} (p : Panic) : FsProg α := do
  let e ← act (.panic p)
  nomatch (e : Empty)

/-! ## Running the operations -/

section Run

variable {t : Tid} {s : Fs} {n : Nat} {i : SlotId}

lemma run_bread (h : s.busy n = false) :
    (runAs t (bread n)).run s = .ok (s.blk n, s.setBusy n true) := by
  have hexec : exec t (.bread n) s = .ok (s.blk n, s.setBusy n true) := by simp [exec, h]
  exact Comp.run_bind_ok hexec _

@[simp] lemma run_bwrite (b : Bytes) : (runAs t (bwrite n b)).run s = .ok ((), s.setBlk n b) := rfl

@[simp] lemma run_brelse : (runAs t (brelse n)).run s = .ok ((), s.setBusy n false) := rfl

@[simp] lemma run_load : (runAs t (load i)).run s = .ok (s.slot i, s) := rfl

@[simp] lemma run_edit (f : Slot → Slot) :
    (runAs t (edit i f)).run s = .ok ((), s.setSlot i (f (s.slot i))) := rfl

@[simp] lemma run_touch : (runAs t (touch n)).run s = .ok ((), s) := rfl

@[simp] lemma run_panic {α : Type} (p : Panic) :
    (runAs t (panic p : FsProg α)).run s = .error (.panic p) := rfl

end Run

end FrostVista.EasyFs
