import FrostVista.EasyFs.State

/-!
# EasyFS: the code

The functions of `kernel/fs/easyfs`. The result 0 of a function that returns a block number stands
for failure, as in the source; a function that returns -1 on failure returns `none` or `false` here.
Data is copied from and to kernel buffers, as `easyfs_vfs_read` and `easyfs_vfs_write` do.
-/
namespace FrostVista.EasyFs

open Lib Kernel

open Namei (Name sameName)

/-! ## Blocks (alloc.c) -/

def balloc : FsProg Nat := do
  let buf ← bread dablkBmip
  -- a byte 0xFF is passed over; it has no clear bit
  match buf.firstClear (totalBlocks - dataBlock) with
  | none =>
    brelse dablkBmip
    pure 0
  | some bit =>
    bwrite dablkBmip (buf.setBit bit)
    brelse dablkBmip
    let _ ← bread (bit + dataBlock)
    bwrite (bit + dataBlock) Bytes.zero
    brelse (bit + dataBlock)
    pure (bit + dataBlock)

def bfree (blockNum : Nat) : FsProg Unit := do
  if blockNum < dataBlock ∨ totalBlocks ≤ blockNum then panic .bfreeRange
  else
    let buf ← bread dablkBmip
    if buf.bit (blockNum - dataBlock) = false then panic .bfreeFree
    else
      bwrite dablkBmip (buf.clearBit (blockNum - dataBlock))
      brelse dablkBmip
      let _ ← bread blockNum
      bwrite blockNum Bytes.zero
      brelse blockNum

/-- The block number in `ei->blocks[i]`; a missing block is allocated and noted in the inode. -/
def topBlock (ip : SlotId) (i : Nat) : FsProg Nat := do
  let e ← load ip
  if e.blocks i ≠ 0 then pure (e.blocks i)
  else
    let addr ← balloc
    if addr = 0 then pure 0
    else
      edit ip fun e => { e with blocks := Function.update e.blocks i addr }
      pure addr

/-- The block number in `addrs[idx]` of the index block `n`, whose buffer is held; a missing block
is allocated and noted there. -/
def entryBlock (n : Nat) (buf : Bytes) (idx : Nat) : FsProg Nat := do
  if buf.load (4 * idx) 4 ≠ 0 then pure (buf.load (4 * idx) 4)
  else
    let addr ← balloc
    if addr = 0 then pure 0
    else
      bwrite n (buf.store (4 * idx) 4 addr)
      pure addr

/-- The same, with the index block read before and released after. -/
def indexEntry (n idx : Nat) : FsProg Nat := do
  let buf ← bread n
  let addr ← entryBlock n buf idx
  brelse n
  pure addr

/-- Two levels below the double-indirect block `n`. -/
def doubleEntry (n idx : Nat) : FsProg Nat := do
  let buf ← bread n
  let indirect ← entryBlock n buf (idx / nindirect)
  if indirect = 0 then
    brelse n
    pure 0
  else
    let addr ← indexEntry indirect (idx % nindirect)
    brelse n
    pure addr

def bmap (ip : SlotId) (blockNum : Nat) : FsProg Nat := do
  if blockNum < ndirect then topBlock ip blockNum
  else if blockNum < ndirect + nindirect then
    let indirect ← topBlock ip sindirect
    if indirect = 0 then pure 0 else indexEntry indirect (blockNum - ndirect)
  else if blockNum < maxfile then
    let double ← topBlock ip dindirect
    if double = 0 then pure 0 else doubleEntry double (blockNum - ndirect - nindirect)
  else pure 0

/-! ## Inodes (fs.c, inode.c) -/

/-- The block of the inode table that holds an inode. -/
def tableBlock (ino : Nat) : Nat := inodeBlock + ino / 64

def iupdate (ip : SlotId) : FsProg Unit := do
  let e ← load ip
  touch (tableBlock e.ino)
  let buf ← bread (tableBlock e.ino)
  let e ← load ip
  bwrite (tableBlock e.ino) (setDiskInode buf e.ino ⟨e.type, e.nlinks, e.size, e.blocks⟩)
  brelse (tableBlock e.ino)

/-- The loop of `easyfs_read_inode`; every round reads at least one byte. -/
def readLoop (ip : SlotId) : Nat → Nat → Nat → List Byte → FsProg (List Byte)
  | 0, _, _, acc => pure acc
  | n + 1, off, size, acc => do
    if size = 0 then pure acc
    else
      let addr ← bmap ip (off / bsize)
      if addr = 0 then pure acc
      else
        let buf ← bread addr
        let m := min size (bsize - off % bsize)
        brelse addr
        readLoop ip n (off + m) (size - m) (acc ++ buf.copyOut (off % bsize) m)

def readInode (ip : SlotId) (off size : Nat) : FsProg (Option (List Byte)) := do
  let e ← load ip
  if e.size < off ∨ 2 ^ 32 ≤ off + size then pure none
  else
    let size := if e.size < off + size then e.size - off else size
    let data ← readLoop ip size off size []
    pure (some data)

/-- The loop of `easyfs_write_inode`; the result is the number of bytes written. -/
def writeLoop (ip : SlotId) : Nat → Nat → List Byte → Nat → FsProg Nat
  | 0, _, _, tot => pure tot
  | n + 1, off, data, tot => do
    if data.length = 0 then pure tot
    else
      let addr ← bmap ip (off / bsize)
      if addr = 0 then pure tot
      else
        let buf ← bread addr
        let m := min data.length (bsize - off % bsize)
        bwrite addr (buf.copyIn (off % bsize) (data.take m))
        brelse addr
        writeLoop ip n (off + m) (data.drop m) (tot + m)

def writeInode (ip : SlotId) (off : Nat) (data : List Byte) : FsProg (Option Nat) := do
  if 2 ^ 32 ≤ off + data.length then pure none
  else if maxfile * bsize < off + data.length then pure none
  else
    let tot ← writeLoop ip data.length off data 0
    let e ← load ip
    Prog.when (e.size < off + tot) (edit ip fun e => { e with size := off + tot })
    iupdate ip
    pure (some tot)

/-- Frees what the entries of the index block `n` name with `free`, and then the index block. The
entries are set to 0 in the buffer only. -/
def freeIndex (free : Nat → FsProg Unit) (n : Nat) : FsProg Unit := do
  let buf ← bread n
  Prog.loop (fun j => do
    if buf.load (4 * j) 4 ≠ 0 then free (buf.load (4 * j) 4) else pure ()) 0 nindirect
  brelse n
  bfree n

/-- Frees a single-indirect block and the blocks it names. -/
def freeIndirect (n : Nat) : FsProg Unit := freeIndex bfree n

/-- Frees a double-indirect block and everything below. -/
def freeDouble (n : Nat) : FsProg Unit := freeIndex freeIndirect n

/-- Frees what `ei->blocks[i]` names with `free`, and clears it. -/
def truncSlot (free : Nat → FsProg Unit) (ip : SlotId) (i : Nat) : FsProg Unit := do
  let e ← load ip
  if e.blocks i ≠ 0 then
    free (e.blocks i)
    edit ip fun e => { e with blocks := Function.update e.blocks i 0 }
  else pure ()

def itrunc (ip : SlotId) (size : Nat) : FsProg Bool := do
  if size ≠ 0 then pure false
  else
    Prog.loop (truncSlot bfree ip) 0 ndirect
    truncSlot freeIndirect ip sindirect
    truncSlot freeDouble ip dindirect
    edit ip fun e => { e with size := size }
    iupdate ip
    pure true

def ilock (ip : SlotId) : FsProg Unit := do
  let e ← load ip
  if e.count < 1 then panic .ilock
  else
    acquiresleep ip
    let e ← load ip
    touch (tableBlock e.ino)
    let buf ← bread (tableBlock e.ino)
    edit ip fun e =>
      let d := diskInode buf e.ino
      { e with type := d.type, nlinks := d.nlinks, size := d.size, blocks := d.blocks }
    brelse (tableBlock e.ino)

/-- `easyfs_iunlock`, and `vfs_iunlock` -/
def iunlock (ip : SlotId) : FsProg Unit := do
  let holding ← holdingsleep ip
  let e ← load ip
  if holding = false ∨ e.count < 1 then panic .iunlock
  else releasesleep ip

def iunlockput (ip : SlotId) : FsProg Unit := do
  iunlock ip
  putInode ip

/-- `vfs_ilock`: only the lock -/
def vfsIlock (ip : SlotId) : FsProg Unit := do
  let e ← load ip
  if e.count < 1 then panic .ilock else acquiresleep ip

/-- The numbers that `ialloc` looks at: all bits of the block but the first. -/
def firstFreeInode (buf : Bytes) : Option Nat :=
  (List.range (bsize * 8)).find? fun ino => ino ≠ 0 ∧ buf.bit ino = false

def ialloc : FsProg (Option SlotId) := do
  let buf ← bread inoblkBmip
  -- the bit of number 0 is set and cleared again
  Prog.when (!buf.bit 0) (bwrite inoblkBmip buf)
  match firstFreeInode buf with
  | none =>
    brelse inoblkBmip
    pure none
  | some ino =>
    bwrite inoblkBmip (buf.setBit ino)
    brelse inoblkBmip
    getInode ino

def ifree (ino : Nat) : FsProg Unit := do
  if ino = 0 then pure ()
  else
    let buf ← bread inoblkBmip
    if bsize ≤ ino / 8 then panic .outOfBounds
    else
      bwrite inoblkBmip (buf.clearBit ino)
      brelse inoblkBmip
      touch (tableBlock ino)
      let buf ← bread (tableBlock ino)
      bwrite (tableBlock ino) (buf.copyIn (64 * (ino % 64)) (List.replicate 64 0))
      brelse (tableBlock ino)

/-! ## Directories (dir.c, fs.c, inode.c) -/

/-- `inode_num` of a directory entry -/
def entryIno (de : List Byte) : Nat := Bytes.load (fun i => de.getD i 0) 0 4

/-- The name of a directory entry, up to its terminating zero. -/
def entryName (de : List Byte) : Name := (de.drop 4).takeWhile (· ≠ 0)

/-- The entry that `dirlink` writes. -/
def makeEntry (name : Name) (inum : Nat) : List Byte :=
  (Bytes.store (fun _ => 0) 0 4 inum).copyOut 0 4 ++
    (name.take Namei.dirsiz ++ List.replicate (28 - (name.take Namei.dirsiz).length) 0)

/-- The loops over the entries of a directory: the first entry from `off` on that `stop` accepts,
with its offset, or the size of the directory. No directory has more than `2 ^ 27` entries. -/
def scanDir (ip : SlotId) (error : Panic) (stop : List Byte → Bool) :
    Nat → Nat → FsProg (Option (List Byte) × Nat)
  | 0, _ => panic .endless
  | n + 1, off => do
    let e ← load ip
    if off < e.size then
      match ← readInode ip off 32 with
      | none => panic error
      | some de =>
        if de.length ≠ 32 then panic error
        else if stop de then pure (some de, off)
        else scanDir ip error stop n (off + 32)
    else pure (none, off)

def maxEntries : Nat := 2 ^ 27

def readDiskInode (ino : Nat) : FsProg DiskInode := do
  let buf ← bread (tableBlock ino)
  brelse (tableBlock ino)
  pure (diskInode buf ino)

def fillVfsInode (ino : Nat) (d : DiskInode) : FsProg (Option SlotId) := do
  match ← getInode ino with
  | none => pure none
  | some i =>
    fill i ino d
    pure (some i)

/-- `easyfs_get_vfs_inode` -/
def getVfsInode (ino : Nat) : FsProg (Option SlotId) := do
  let d ← readDiskInode ino
  fillVfsInode ino d

/-- `easyfs_vfs_lookup`; the inode with the offset of its entry. -/
def lookup (ip : SlotId) (name : Name) : FsProg (Option (SlotId × Nat)) := do
  let e ← load ip
  if e.type ≠ vfsDir then pure none
  else
    match ← scanDir ip .readError (fun de => entryIno de ≠ 0 ∧ sameName name (entryName de))
        maxEntries 0 with
    | (none, _) => pure none
    | (some de, off) =>
      match ← getVfsInode (entryIno de) with
      | none => pure none
      | some i => pure (some (i, off))

def dirlink (dp : SlotId) (name : Name) (inum : Nat) : FsProg Bool := do
  match ← lookup dp name with
  | some (i, _) =>
    putInode i
    pure false
  | none =>
    let (_, off) ← scanDir dp .dirlinkRead (fun de => entryIno de = 0) maxEntries 0
    match ← writeInode dp off (makeEntry name inum) with
    | none => pure false
    | some tot => pure (tot = 32)

/-- The part of `easyfs_vfs_mkdir` that links the new directory. -/
def mkdirLinks (dir ip : SlotId) (name : Name) : FsProg Bool := do
  let e ← load ip
  if ← dirlink ip [0x2e#8] e.ino then
    let d ← load dir
    if ← dirlink ip [0x2e#8, 0x2e#8] d.ino then
      let e ← load ip
      dirlink dir name e.ino
    else pure false
  else pure false

def mkdir (dir : SlotId) (name : Name) (mode : Nat) : FsProg Bool := do
  if name = [] ∨ mode ≠ 0 then pure false
  else
    ilock dir
    match ← lookup dir name with
    | some (i, _) =>
      putInode i
      iunlock dir
      pure false
    | none =>
      match ← ialloc with
      | none =>
        iunlock dir
        pure false
      | some ip =>
        ilock ip
        edit ip fun e => { e with type := vfsDir, nlinks := 1 }
        iupdate ip
        if ← mkdirLinks dir ip name then
          edit dir fun e => { e with nlinks := e.nlinks + 1 }
          iupdate dir
          iunlockput ip
          iunlock dir
          pure true
        else
          edit ip fun e => { e with nlinks := 0 }
          iupdate ip
          iunlockput ip
          iunlock dir
          pure false

def create (dir : SlotId) (path : Name) (mode : Nat) : FsProg Bool := do
  if path = [] then pure false
  else
    ilock dir
    match ← lookup dir path with
    | some (i, _) =>
      putInode i
      iunlock dir
      pure false
    | none =>
      match ← ialloc with
      | none =>
        iunlock dir
        pure false
      | some ip =>
        ilock ip
        edit ip fun e => { e with type := mode % 2 ^ 16, nlinks := 1 }
        iupdate ip
        iunlock ip
        let e ← load ip
        if ← dirlink dir path e.ino then
          putInode ip
          iunlock dir
          pure true
        else
          ilock ip
          edit ip fun e => { e with nlinks := 0 }
          iupdate ip
          iunlockput ip
          iunlock dir
          pure false

/-- `ip->nlinks--`; the last link frees the inode. -/
def dropLink (ip : SlotId) : FsProg Unit := do
  edit ip fun e => { e with nlinks := (e.nlinks + 2 ^ 32 - 1) % 2 ^ 32 }
  let e ← load ip
  if e.nlinks = 0 then
    let _ ← itrunc ip 0
    ifree e.ino
  else pure ()

def unlink (dir : SlotId) (name : Name) : FsProg Bool := do
  if name = [] then pure false
  else
    ilock dir
    if sameName name [0x2e#8] ∨ sameName name [0x2e#8, 0x2e#8] then
      iunlock dir
      pure false
    else
      match ← lookup dir name with
      | none =>
        iunlock dir
        pure false
      | some (ip, off) =>
        ilock ip
        let e ← load ip
        if e.type = vfsDir then
          iunlockput ip
          iunlock dir
          pure false
        else
          match ← writeInode dir off (List.replicate 32 0) with
          | some 32 =>
            dropLink ip
            iupdate ip
            iunlockput ip
            iunlock dir
            pure true
          | _ => panic .unlinkWrite

/-! ## Open files -/

/-- `easyfs_vfs_read` -/
def vfsRead (node : SlotId) (off size : Nat) : FsProg (Option (List Byte)) := do
  vfsIlock node
  let n ← readInode node off size
  iunlock node
  pure n

/-- `easyfs_vfs_write` -/
def vfsWrite (node : SlotId) (off : Nat) (data : List Byte) : FsProg (Option Nat) := do
  vfsIlock node
  let n ← writeInode node off data
  iunlock node
  pure n

/-- The truncation in `openat`. -/
def vfsTruncate (node : SlotId) (size : Nat) : FsProg Bool := do
  vfsIlock node
  let r ← itrunc node size
  iunlock node
  pure r

/-- What `easyfs_vfs_readdir` returns: an entry with its type and the next offset, the end of the
directory, or an error. -/
inductive Dirent where
  | entry (ino : Nat) (name : List Byte) (type : Nat) (next : Nat)
  | done
  | error

/-- `easyfs_vfs_readdir` -/
def readdir (dp : SlotId) (off : Nat) : FsProg Dirent := do
  let e ← load dp
  if e.type ≠ vfsDir then pure .error
  else
    acquiresleep dp
    match ← scanDir dp .dirlinkRead (fun de => entryIno de ≠ 0) maxEntries off with
    | (none, _) =>
      releasesleep dp
      pure .done
    | (some de, off) =>
      match ← getVfsInode (entryIno de) with
      | none =>
        releasesleep dp
        pure .error
      | some i =>
        let e ← load i
        putInode i
        releasesleep dp
        pure (.entry (entryIno de) ((de.drop 4).take 27) e.type (off + 32))

end FrostVista.EasyFs
