import FrostVista.Library.BlockTree
import FrostVista.Library.Bytes

/-!
# tmpfs: the file operations

`tmpfs_bmap`, `tmpfs_vfs_read`, `tmpfs_vfs_write`, `tmpfs_free_blocks` and `tmpfs_vfs_truncate` of
`kernel/fs/tmpfs/inode.c` for one file. The contents of a file are in whole pages of memory, which
are named by the inode, by an index page, or by the index pages that a second index page names.
Pages come from `kalloc` and go back with `kfree`; both clear the page.
-/
namespace FrostVista.Tmpfs

open Lib

abbrev Byte := BitVec 8

def pgsize : Nat := 4096

def ndirect : Nat := 10

/-- The page addresses in an index page. -/
def nindirect : Nat := 512

def ndindirect : Nat := nindirect * nindirect

def maxfile : Nat := ndirect + nindirect + ndindirect

/-- What holds page addresses: the inode or an index page. -/
inductive Node where
  | inode
  | page (p : Nat)
  deriving DecidableEq

/-- The pages of the memory with the free list of the allocator, and the inode of the file. -/
structure Mem where
  page : Nat → Bytes
  free : List Nat
  blocks : Nat → Nat
  size : Nat

def Mem.entry (m : Mem) : Node → Nat → Nat
  | .inode, i => m.blocks i
  | .page p, i => (m.page p).load (8 * i) 8

def Mem.setEntry (m : Mem) (q : Node) (i v : Nat) : Mem :=
  match q with
  | .inode => { m with blocks := Function.update m.blocks i v }
  | .page p => { m with page := Function.update m.page p ((m.page p).store (8 * i) 8 v) }

def Mem.setPage (m : Mem) (p : Nat) (b : Bytes) : Mem :=
  { m with page := Function.update m.page p b }

/-- `kalloc`; the result 0 is the null pointer. -/
def kalloc (m : Mem) : Nat × Mem :=
  match m.free with
  | [] => (0, m)
  | p :: rest => (p, { m.setPage p Bytes.zero with free := rest })

/-- `kfree` of a page with one reference -/
def kfree (p : Nat) (m : Mem) : Mem := { m.setPage p Bytes.zero with free := p :: m.free }

/-- One step of `tmpfs_bmap`: the page that an entry names, which is allocated if it is missing. -/
def fetch (alloc : Bool) (q : Node) (i : Nat) (m : Mem) : Nat × Mem :=
  if m.entry q i ≠ 0 then (m.entry q i, m)
  else if alloc then
    let (p, m) := kalloc m
    if p = 0 then (0, m) else (p, m.setEntry q i p)
  else (0, m)

/-- `tmpfs_bmap` -/
def bmap (bn : Nat) (alloc : Bool) (m : Mem) : Nat × Mem :=
  if bn < ndirect then fetch alloc .inode bn m
  else if bn - ndirect < nindirect then
    let (indirect, m) := fetch alloc .inode ndirect m
    if indirect = 0 then (0, m) else fetch alloc (.page indirect) (bn - ndirect) m
  else if bn - ndirect - nindirect < ndindirect then
    let (dindirect, m) := fetch alloc .inode (ndirect + 1) m
    if dindirect = 0 then (0, m)
    else
      let (indirect, m) := fetch alloc (.page dindirect) ((bn - ndirect - nindirect) / nindirect) m
      if indirect = 0 then (0, m)
      else fetch alloc (.page indirect) ((bn - ndirect - nindirect) % nindirect) m
  else (0, m)

/-- The loop of `tmpfs_vfs_read`; it stops at a page that was never written. -/
def readLoop : Nat → Nat → Nat → List Byte → Mem → List Byte × Mem
  | 0, _, _, out, m => (out, m)
  | fuel + 1, off, total, out, m =>
    if total ≤ off then (out, m)
    else
      let (addr, m) := bmap (off / pgsize) false m
      if addr = 0 then (out, m)
      else
        let len := min (pgsize - off % pgsize) (total - off)
        readLoop fuel (off + len) total (out ++ (m.page addr).copyOut (off % pgsize) len) m

/-- `tmpfs_vfs_read`; the result `none` stands for -1. -/
def vfsRead (off size : Nat) (m : Mem) : Option (List Byte) × Mem :=
  if 2 ^ 64 ≤ off + size then (none, m)
  else if maxfile * pgsize < off + size then (none, m)
  else if m.size ≤ off then (some [], m)
  else
    let total := min (off + size) m.size
    let (out, m) := readLoop (total - off) off total [] m
    (some out, m)

/-- The loop of `tmpfs_vfs_write`: whether it came to the end, and the offset where it stopped. -/
def writeLoop : Nat → Nat → List Byte → Mem → (Bool × Nat) × Mem
  | 0, off, _, m => ((true, off), m)
  | fuel + 1, off, data, m =>
    if data.length = 0 then ((true, off), m)
    else
      let (addr, m) := bmap (off / pgsize) true m
      if addr = 0 then ((false, off), m)
      else
        let len := min (pgsize - off % pgsize) data.length
        let m := m.setPage addr ((m.page addr).copyIn (off % pgsize) (data.take len))
        writeLoop fuel (off + len) (data.drop len) m

/-- `tmpfs_vfs_write`; the result `none` stands for -1. -/
def vfsWrite (off : Nat) (data : List Byte) (m : Mem) : Option Nat × Mem :=
  if 2 ^ 64 ≤ off + data.length then (none, m)
  else if maxfile * pgsize < off + data.length then (none, m)
  else
    let ((done, _), m) := writeLoop data.length off data m
    if done then (some data.length, { m with size := max m.size (off + data.length) })
      else (none, m)

/-- Frees the page that an entry names and clears the entry. -/
def freeEntry (q : Node) (i : Nat) (m : Mem) : Mem :=
  if m.entry q i ≠ 0 then (kfree (m.entry q i) m).setEntry q i 0 else m

/-- A loop that frees the pages of the first `n` entries. -/
def freeEntries (q : Node) : Nat → Mem → Mem
  | 0, m => m
  | n + 1, m => freeEntry q n (freeEntries q n m)

/-- The loop over the index pages that the second index page names. -/
def freeIndirects (p : Nat) : Nat → Mem → Mem
  | 0, m => m
  | n + 1, m =>
    let m := freeIndirects p n m
    let indirect := m.entry (.page p) n
    if indirect = 0 then m else freeEntry (.page p) n (freeEntries (.page indirect) nindirect m)

/-- The index page and the data pages that it names. -/
def freeSingle (m : Mem) : Mem :=
  let indirect := m.entry .inode ndirect
  if indirect = 0 then m else freeEntry .inode ndirect (freeEntries (.page indirect) nindirect m)

/-- The second index page and the pages below it. -/
def freeDouble (m : Mem) : Mem :=
  let dindirect := m.entry .inode (ndirect + 1)
  if dindirect = 0 then m else freeEntry .inode (ndirect + 1) (freeIndirects dindirect nindirect m)

/-- `tmpfs_free_blocks` -/
def freeBlocks (m : Mem) : Mem := freeDouble (freeSingle (freeEntries .inode ndirect m))

/-- `tmpfs_vfs_truncate` -/
def vfsTruncate (size : Nat) (m : Mem) : Bool × Mem :=
  if size ≠ 0 then (false, m) else (true, { freeBlocks m with size := 0 })

end FrostVista.Tmpfs
