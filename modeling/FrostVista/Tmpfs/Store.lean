import FrostVista.Kernel.Namei
import FrostVista.Tmpfs.Inode

/-!
# tmpfs: directories, inodes and the inode cache

The operations of `kernel/fs/tmpfs/inode.c` on the `tmpfs_inode` objects, on the inode cache of
`kernel/fs/inode_cache.c` and on the pages of the allocator. An object of `kmalloc` is used through
its address, and the use of an object that has been freed is a fault, so a computation that returns
has used live objects only. The entry of a directory is part of its list of children; the entries
themselves are not objects. What `kmalloc` answers is an argument. A call is one step: the locks are
left out.
-/
namespace FrostVista.Tmpfs

open Lib Lib.Comp Kernel Function

open Kernel.Ftable (NodeType)

open Kernel.Namei (Name sameName ninodes dirsiz)

abbrev SlotId := Fin ninodes

def tmpfsDev : Nat := 0x0b11

/-- `TMPFS_ROOT_INO` -/
def rootIno : Nat := 1

/-- The address of `root_inode` -/
def rootAddr : Nat := 1

/-- The pointer `private_data`: an object of tmpfs or a page. -/
inductive Data where
  | null
  | node (a : Nat)
  | page (p : Nat)
  deriving DecidableEq

/-- `struct tmpfs_dir_entry` -/
structure DirEntry where
  name : Name
  inode : Nat
  type : NodeType
  deriving DecidableEq

/-- `struct tmpfs_inode`; `children` is the list at `dir->child`. -/
structure Inode where
  type : NodeType
  nlinks : Nat
  ino : Nat
  size : Nat
  blocks : Nat → Nat
  children : List DirEntry

/-- `struct vfs_inode` as a slot of the cache -/
structure VfsInode where
  dev : Nat
  ino : Nat
  count : Nat
  nlinks : Nat
  type : NodeType
  size : Nat
  data : Data
  pdOwned : Bool
  deriving DecidableEq

/-- The pages and the free list of the allocator, the live `tmpfs_inode` objects by address, the
inode cache, and `tmpfs_next_ino`. `order` lists the slots from `head.prev` on. -/
structure Store where
  page : Nat → Bytes
  free : List Nat
  node : Nat → Option Inode
  slot : SlotId → VfsInode
  order : List SlotId
  nextIno : Nat

inductive Fault where
  | nullPointer
  | badPointer
  | useAfterFree
  | doubleFree
  | panic
  deriving DecidableEq

abbrev T := Comp Store Fault

def Store.setNode (s : Store) (a : Nat) (n : Inode) : Store :=
  { s with node := update s.node a (some n) }

def Store.setSlot (s : Store) (i : SlotId) (e : VfsInode) : Store :=
  { s with slot := update s.slot i e }

/-- The object behind a pointer. -/
def deref : Data → T (Nat × Inode)
  | .null => fail .nullPointer
  | .page _ => fail .badPointer
  | .node a => do
    match (← get).node a with
    | none => fail .useAfterFree
    | some n => pure (a, n)

/-- `kmfree` of a `tmpfs_inode` -/
def kmfree (a : Nat) : T Unit := do
  match (← get).node a with
  | none => fail .doubleFree
  | some _ => modify fun s => { s with node := update s.node a none }

/-! ## The inode cache -/

/-- `kfree(ip->private_data)` -/
def kfreeData : Data → T Unit
  | .null => fail .panic
  | .node _ => fail .badPointer
  | .page p => modify fun s =>
      { s with page := update s.page p Bytes.zero, free := p :: s.free }

/-- `if (ip->private_data == 0 && alloc) { ip->private_data = kalloc(); ip->pd_owned = 1; }` -/
def attachData (i : SlotId) (ip : VfsInode) (alloc : Bool) : T Unit :=
  modify fun s =>
    if ip.data = .null ∧ alloc then
      match s.free with
      | [] => s.setSlot i { ip with pdOwned := true }
      | p :: rest =>
        { s.setSlot i { ip with data := .page p, pdOwned := true } with
          page := update s.page p Bytes.zero
          free := rest }
    else s.setSlot i ip

/-- The slot that holds an inode. -/
def Store.slotOf (s : Store) (dev ino : Nat) : Option SlotId :=
  (List.finRange ninodes).find? fun i => (s.slot i).ino = ino ∧ (s.slot i).dev = dev

/-- The unused slot at the end of the list. -/
def Store.unused (s : Store) : Option SlotId := s.order.find? fun i => (s.slot i).count = 0

def getInode (dev ino : Nat) (alloc : Bool) : T (Option SlotId) := do
  let s ← get
  match s.slotOf dev ino with
  | some i =>
    let ip := s.slot i
    if 0 < ip.count then modify fun s => s.setSlot i { ip with count := (ip.count + 1) % 2 ^ 32 }
    else attachData i { ip with count := 1 } alloc
    pure (some i)
  | none =>
    match s.unused with
    | none => pure none
    | some i =>
      let ip := s.slot i
      if ip.dev ≠ dev then do
        when (ip.pdOwned && ip.data != .null) (kfreeData ip.data)
        attachData i { ip with data := .null, pdOwned := false, ino := ino, count := 1, dev :=
          dev } alloc
      else attachData i { ip with ino := ino, count := 1, dev := dev } alloc
      pure (some i)

def putInode (i : SlotId) (free : Bool) : T Unit := do
  let ip := (← get).slot i
  if ip.count = 1 ∧ ip.nlinks = 0 then do
    when free (kfreeData ip.data)
    modify fun s =>
      { s.setSlot i { ip with count := 0, data := .null, pdOwned := false } with
        order := s.order.erase i ++ [i] }
  else if ip.count = 0 then pure () -- only logged
  else modify fun s => s.setSlot i { ip with count := ip.count - 1 }

/-! ## The file operations of an open inode -/

/-- The file of an inode with the allocator. -/
def Store.file (s : Store) (n : Inode) : Mem := ⟨s.page, s.free, n.blocks, n.size⟩

/-- The memory after an operation on the file at address `a`. -/
def Store.putFile (s : Store) (a : Nat) (n : Inode) (m : Mem) : Store :=
  { s with
    page := m.page
    free := m.free
    node := update s.node a (some { n with blocks := m.blocks, size := m.size }) }

def onFile {α : Type} (a : Nat) (f : Mem → α × Mem) : T α := do
  let (a, n) ← deref (.node a)
  let s ← get
  modify fun s => s.putFile a n (f (s.file n)).2
  pure (f (s.file n)).1

/-- The static `tmp_root`, or a slot of the cache. -/
inductive Handle where
  | root
  | slot (i : SlotId)
  deriving DecidableEq

/-- `node->private_data` -/
def Store.dataOf (s : Store) : Handle → Data
  | .root => .node rootAddr
  | .slot i => (s.slot i).data

def Store.typeOf (s : Store) : Handle → NodeType
  | .root => .dir
  | .slot i => (s.slot i).type

/-- A file operation on an inode; without an object it returns -1. -/
def onHandle {α : Type} (h : Handle) (f : Mem → Option α × Mem) : T (Option α) := do
  match (← get).dataOf h with
  | .null => pure none
  | d => do
    let (a, _) ← deref d
    onFile a f

def tmpfsVfsRead (h : Handle) (off size : Nat) : T (Option (List Byte)) :=
  onHandle h (vfsRead off size)

def tmpfsVfsWrite (h : Handle) (off : Nat) (data : List Byte) : T (Option Nat) :=
  onHandle h (vfsWrite off data)

def tmpfsVfsTruncate (h : Handle) (size : Nat) : T (Option Unit) :=
  onHandle h fun m => (if (vfsTruncate size m).1 then some () else none, (vfsTruncate size m).2)

def tmpfsFreeBlocks (a : Nat) : T Unit := onFile a fun m => ((), freeBlocks m)

/-! ## Lookup -/

def vfsIlock : Handle → T Unit
  | .root => pure ()
  | .slot i => do guard (decide (0 < ((← get).slot i).count)) .panic

def tmpfsFillVfsInode (ino : Nat) (inode : Data) (type : NodeType) : T (Option SlotId) := do
  if inode = .null then pure none
  else
    match ← getInode tmpfsDev ino false with
    | none => pure none
    | some i =>
      let (_, n) ← deref inode
      modify fun s => s.setSlot i { s.slot i with
        dev := tmpfsDev
        ino := ino
        type := type
        size := n.size
        nlinks := n.nlinks
        data := inode
        pdOwned := false }
      pure (some i)

/-- The first child with this name. -/
def Inode.child (n : Inode) (name : Name) : Option DirEntry :=
  n.children.find? fun e => sameName name e.name

def tmpfsVfsLookup (dir : Handle) (name : Name) : T (Option SlotId) := do
  let s ← get
  if s.typeOf dir ≠ .dir then pure none
  else if s.dataOf dir = .null then pure none
  else
    vfsIlock dir
    let (_, d) ← deref (s.dataOf dir)
    match d.child name with
    | none => pure none
    | some e =>
      let (_, n) ← deref (.node e.inode)
      tmpfsFillVfsInode n.ino (.node e.inode) n.type

/-! ## Creating -/

/-- The answers of `kmalloc` to `tmpfs_vfs_create`: whether there is memory for the entry, and the
address of the inode. -/
structure Kmalloc where
  entry : Bool
  inode : Option Nat
  deriving DecidableEq

/-- The name that fits into an entry. -/
def storedName (name : Name) : Name := name.take (dirsiz - 1)

lemma length_storedName (name : Name) : (storedName name).length < dirsiz := by
  have := List.length_take_le (dirsiz - 1) name
  have : dirsiz - 1 < dirsiz := by decide
  exact lt_of_le_of_lt ‹_› this

lemma storedName_of_lt (h : name.length < dirsiz) : storedName name = name :=
  List.take_of_length_le (Nat.le_sub_one_of_lt h)

def freshInode (type : NodeType) (ino : Nat) : Inode where
  type := type
  nlinks := 1
  ino := ino
  size := 0
  blocks := fun _ => 0
  children := []

/-- The new inode at `a` is initialised and entered into the directory. A subdirectory is a link to
its parent. -/
def linkInode (dir : Handle) (name : Name) (type : NodeType) (a : Nat) : T Unit := do
  when (type = .dir) do
    let (p, d) ← deref ((← get).dataOf dir)
    modify fun s => s.setNode p { d with nlinks := (d.nlinks + 1) % 2 ^ 16 }
  modify fun s =>
    { s.setNode a (freshInode type s.nextIno) with nextIno := (s.nextIno + 1) % 2 ^ 32 }
  let (p, d) ← deref ((← get).dataOf dir)
  modify fun s => s.setNode p { d with children := ⟨storedName name, a, type⟩ :: d.children }

def tmpfsVfsCreate (dir : Handle) (name : Name) (type : NodeType) (k : Kmalloc) : T Bool := do
  if name = [] then pure false
  else
    let existing ← tmpfsVfsLookup dir name
    vfsIlock dir
    match existing with
    | some i => do
      putInode i false
      pure false
    | none =>
      match k.entry, k.inode with
      | true, some a =>
        if type = .dir ∧ (← get).dataOf dir = .null then pure false
        else do
          linkInode dir name type a
          pure true
      | _, _ => pure false

def tmpfsVfsMkdir (dir : Handle) (name : Name) (k : Kmalloc) : T Bool :=
  tmpfsVfsCreate dir name .dir k

/-! ## Removing -/

/-- The slot holds the inode with this number. -/
def VfsInode.isFor (ip : VfsInode) (ino : Nat) : Bool := ip.dev = tmpfsDev && ip.ino = ino

def tmpfsInodeOpen (s : Store) (ino : Nat) : Bool :=
  (List.finRange ninodes).any fun i => (s.slot i).isFor ino && decide (0 < (s.slot i).count)

/-- A change of every slot that holds the inode with this number. -/
def Store.mapSlots (s : Store) (ino : Nat) (f : VfsInode → VfsInode) : Store :=
  { s with slot := fun i => if (s.slot i).isFor ino then f (s.slot i) else s.slot i }

def tmpfsSyncNlinks (ino nlinks : Nat) : T Unit :=
  modify fun s => s.mapSlots ino fun ip => { ip with nlinks := nlinks }

def tmpfsVfsUnlink (dir : Handle) (name : Name) : T Bool := do
  if name = [] then pure false
  else
    match (← get).dataOf dir with
    | .null => pure false
    | data =>
      let (p, parent) ← deref data
      match parent.child name with
      | none => pure false
      | some e =>
        if e.type = .dir then pure false
        else
          let (a, child) ← deref (.node e.inode)
          let nlinks := (child.nlinks + 2 ^ 16 - 1) % 2 ^ 16
          modify fun s => s.setNode a { child with nlinks := nlinks }
          if nlinks = 0 then do
            modify fun s => s.setNode p { parent with
              children := parent.children.eraseP fun e => sameName name e.name }
            if tmpfsInodeOpen (← get) child.ino then tmpfsSyncNlinks child.ino nlinks
            else do
              modify fun s => s.mapSlots child.ino fun ip =>
                { ip with data := .null, pdOwned := false }
              tmpfsFreeBlocks a
              kmfree a
          pure true

def tmpfsDestroyInode : Handle → T Unit
  | .root => pure ()
  | .slot i => do
    let ip := (← get).slot i
    if ip.count = 1 ∧ ip.nlinks = 0 then
      match ip.data with
      | .null => pure ()
      | d => do
        let (a, _) ← deref d
        tmpfsFreeBlocks a
        kmfree a
    putInode i false

/-! ## Mounting -/

/-- `tmpfs_init`: the root directory is empty. -/
def rootInode : Inode := freshInode .dir rootIno

end FrostVista.Tmpfs
