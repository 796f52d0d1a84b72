import FrostVista.Kernel.Layout
import FrostVista.Kernel.Path

/-!
# The table of open files

`ftable` of `kernel/core/proc.c` with the functions of `file.c`, `pipe.c`, `sysfile.c`, `proc.c`,
`exec.c` and `mmap.c` that take, store, move and give back references to its entries. Descriptors
and memory areas name an entry by its index. The kernel is not preempted inside a system call, so a
call is one step of the system; what the file system answers during a call (inodes found or created,
the size of a file, a failed copy to the user) is given with the call.
-/
namespace FrostVista.Kernel.Ftable

open Lib Lib.Comp Function

/-- `KERNEL_MAX_FILES` -/
def maxFiles : Nat := 128

inductive FileType where
  | none
  | vfsNode
  | pipe
  deriving DecidableEq, Repr

/-- `struct file`. The field `flags` is not in the code: it remembers the flags with which the
current object was created, and no function reads it. -/
structure File where
  type : FileType
  refCount : Int
  offset : Word
  readable : Bool
  writable : Bool
  append : Bool
  node : Option Nat
  pipe : Option Nat
  flags : BitVec 32
  deriving DecidableEq

def File.zero : File := ⟨.none, 0, 0#64, false, false, false, none, none, 0#32⟩

/-- `struct pipe` without its ring. The fields `frees` and `late` are not in the code: they count
how often the pipe is freed, and how often it is used after that. -/
structure PipeCell where
  readable : Bool
  writable : Bool
  frees : Nat
  late : Nat
  deriving DecidableEq

/-- `pipe_close` -/
def PipeCell.close (p : PipeCell) (writable : Bool) : PipeCell :=
  let p := { p with late := if p.frees = 0 then p.late else p.late + 1 }
  let p := if writable then { p with writable := false } else { p with readable := false }
  if p.readable = false ∧ p.writable = false then { p with frees := p.frees + 1 } else p

/-- The table of files, the table of processes and all pipes that were ever allocated, each under a
number of its own. -/
structure Files where
  ftable : Nat → File
  proc : Fin nproc → Process
  nextPid : Int
  pipes : Nat → Option PipeCell

namespace Files

def setFile (s : Files) (f : Nat) (e : File) : Files :=
  { s with ftable := update s.ftable f e }

def setProc (s : Files) (c : Fin nproc) (p : Process) : Files :=
  { s with proc := update s.proc c p }

def setPipe (s : Files) (pi : Nat) (p : Option PipeCell) : Files :=
  { s with pipes := update s.pipes pi p }

/-- The pipe of an entry that is given up loses an end. -/
def closePipe (s : Files) (e : File) : Files :=
  match e.type, e.pipe with
  | .pipe, some pi => s.setPipe pi ((s.pipes pi).map fun p => p.close e.writable)
  | _, _ => s

end Files

/-- A function of the kernel on the two tables. -/
abbrev F := Comp Files Panic

def setFile (f : Nat) (e : File) : F Unit := modify fun s => s.setFile f e

def setProc (c : Fin nproc) (p : Process) : F Unit := modify fun s => s.setProc c p

/-- `p->ofile[fd] = f` -/
def Process.setOfile (p : Process) (fd : Nat) (f : Option Nat) : Process :=
  { p with ofile := update p.ofile fd f }

def setOfile (c : Fin nproc) (fd : Nat) (f : Option Nat) : F Unit :=
  modify fun s => s.setProc c (Process.setOfile (s.proc c) fd f)

/-! ## References -/

/-- The entry after its last reference is gone; `append` keeps its value. -/
def File.cleared (e : File) : File :=
  { e with
    type := .none
    refCount := 0
    offset := 0#64
    readable := false
    writable := false
    node := none
    pipe := none }

/-- `fileclose`; what happens to the inode afterwards does not concern the table. -/
def fileclose (f : Nat) : F Unit := do
  let e ← gets fun s => s.ftable f
  if e.refCount < 1 then fail .fileclose
  else if 0 < e.refCount - 1 then setFile f { e with refCount := e.refCount - 1 }
  else do
    setFile f (File.cleared e)
    modify fun s => s.closePipe e

def filedup (f : Nat) : F Unit := do
  let e ← gets fun s => s.ftable f
  if e.refCount < 1 then fail .filedup
  else setFile f { e with refCount := e.refCount + 1 }

/-- `fd_alloc`: the first entry without references. -/
def fdAlloc (s : Files) : Option Nat :=
  (List.range maxFiles).find? fun f => (s.ftable f).refCount == 0

def filealloc : F (Option Nat) := do
  let s ← get
  match fdAlloc s with
  | none => pure none
  | some f => do
    setFile f { s.ftable f with refCount := (s.ftable f).refCount + 1 }
    pure (some f)

/-- The first free descriptor from `minfd` on. -/
def freeFd (p : Process) (minfd : Nat) : Option Nat :=
  (List.range' minfd (nofile - minfd)).find? fun fd => (p.ofile fd).isNone

def allocFd (c : Fin nproc) (f : Nat) : F (Option Nat) := do
  let p ← gets fun s => s.proc c
  match freeFd p 0 with
  | none => pure none
  | some fd => do
    setOfile c fd (some f)
    pure (some fd)

/-! ## Opening -/

inductive NodeType where
  | dir
  | file
  | dev
  deriving DecidableEq, Repr

/-- What the file system answers during a call. A start directory `none` is the root. -/
structure Vfs where
  type : Nat → NodeType
  size : Nat → Word
  cwd : List Byte
  lookupAt : Option Nat → List Byte → Option Nat
  createAt : Option Nat → List Byte → Option Nat
  /-- The result of `ops->truncate`, if there is such an operation. -/
  truncate : Nat → Option Int

def oCreat : BitVec 32 := 0x40#32

def oTrunc : BitVec 32 := 0x200#32

def oAppend : BitVec 32 := 0x400#32

/-- `flags & O_ACCMODE` -/
def accMode (flags : BitVec 32) : BitVec 32 := flags &&& 3#32

def openFlagsValid (flags : BitVec 32) : Bool :=
  decide (accMode flags ≠ 3#32) && !(flags &&& oTrunc ≠ 0#32 && accMode flags = 0#32)

/-- The descriptor is in range and open; the entry it refers to. -/
def openFile (p : Process) (fd : Int) : Option Nat :=
  if fd < 0 ∨ (nofile : Int) ≤ fd then none else p.ofile fd.toNat

/-- `resolve_open_path`: the start directory and the path. -/
def resolveOpenPath (v : Vfs) (s : Files) (c : Fin nproc) (dirfd : Int) (path : List Byte) :
    Except Int (Option Nat × List Byte) :=
  if path.head? = some slash then .ok (none, path.take (pathMax - 1))
  else if dirfd = -100 then .ok (none, vfsMakeAbsolutePath v.cwd path)
  else
    match openFile (s.proc c) dirfd with
    | none => .error eBadf
    | some f =>
      match (s.ftable f).node with
      | none => .error eNotDir
      | some n => if v.type n ≠ .dir then .error eNotDir else .ok (some n, path.take (pathMax - 1))

/-- The inode at the path, created if it is missing and `O_CREAT` is given. -/
def findNode (v : Vfs) (start : Option Nat) (path : List Byte) (flags : BitVec 32) :
    Except Int Nat :=
  match v.lookupAt start path with
  | some n => .ok n
  | none =>
    if flags &&& oCreat = 0#32 then .error eNoEnt
    else
      match v.createAt start path with
      | some n => .ok n
      | none => .error eIo

/-- The checks of `openat` on the inode, and the truncation. -/
def prepareNode (v : Vfs) (node : Nat) (flags : BitVec 32) : Except Int Nat :=
  if v.type node = .dir ∧ accMode flags ≠ 0#32 then .error eIsDir
  else if flags &&& oTrunc ≠ 0#32 ∧ v.type node = .file then
    match v.truncate node with
    | none => .error eOpNotSupp
    | some r => if r < 0 then .error (if r = -1 then eIo else -r) else .ok node
  else .ok node

/-- The part of `openat` before the table is touched: the inode to open. -/
def openNode (v : Vfs) (s : Files) (c : Fin nproc) (dirfd : Int) (path : Option (List Byte))
    (flags : BitVec 32) : Except Int Nat :=
  match path with
  | none => .error eFault
  | some path =>
    if path = [] then .error eNoEnt
    else if openFlagsValid flags = false then .error eInval
    else
      match resolveOpenPath v s c dirfd path with
      | .error e => .error e
      | .ok (start, path) =>
        match findNode v start path flags with
        | .error e => .error e
        | .ok node => prepareNode v node flags

/-- The entry that `openat` fills in for an inode. -/
def File.opened (e : File) (node : Nat) (flags : BitVec 32) : File :=
  { e with
    append := decide (flags &&& oAppend ≠ 0#32)
    type := .vfsNode
    node := some node
    offset := 0#64
    refCount := 1
    readable := decide (accMode flags ≠ 1#32)
    writable := decide (accMode flags ≠ 0#32)
    flags := flags }

/-- `openat`: a descriptor or a negative error number. -/
def openat (v : Vfs) (c : Fin nproc) (dirfd : Int) (path : Option (List Byte))
    (flags : BitVec 32) : F Int := do
  let s ← get
  match openNode v s c dirfd path flags with
  | .error e => pure (-e)
  | .ok node =>
    match fdAlloc s with
    | none => pure (-eNFile)
    | some f => do
      setFile f (File.opened (s.ftable f) node flags)
      match ← allocFd c f with
      | some fd => pure (fd : Int)
      | none => do
        fileclose f
        pure (-eMFile)

/-- `sys_newfstatat`; `path` is the result of `argstr` and `stat` that of `filestat`. -/
def sysNewfstatat (v : Vfs) (c : Fin nproc) (dirfd : Int) (path : Except Int (List Byte))
    (st : Word) (stat : Int) : F Int := do
  if st = 0#64 then pure (-eFault)
  else
    match path with
    | .error e => pure (-e)
    | .ok path => do
      let fd ← openat v c dirfd (some path) 0#32
      if fd < 0 then pure fd
      else do
        let f ← gets fun s => (s.proc c).ofile fd.toNat
        setOfile c fd.toNat none
        match f with
        | none => pure stat
        | some f => do
          fileclose f
          pure stat

/-! ## Duplicating and closing -/

def dupFrom (c : Fin nproc) (fd minfd : Int) : F Int := do
  if minfd < 0 ∨ (nofile : Int) ≤ minfd then pure (-eInval)
  else
    let s ← get
    match openFile (s.proc c) fd with
    | none => pure (-eBadf)
    | some f =>
      match freeFd (s.proc c) minfd.toNat with
      | none => pure (-eMFile)
      | some newfd =>
        if (s.ftable f).refCount < 1 then fail .dup
        else do
          setFile f { s.ftable f with refCount := (s.ftable f).refCount + 1 }
          setOfile c newfd (some f)
          pure (newfd : Int)

/-- The commands of `sys_fcntl` that it tells apart. -/
inductive FcntlCmd where
  | dupFd
  | getFd
  | setFd
  | getFl
  | setFl
  | other
  deriving DecidableEq, Repr

def sysFcntl (c : Fin nproc) (fd : Int) (cmd : FcntlCmd) (arg : Int) : F Int := do
  let s ← get
  match openFile (s.proc c) fd with
  | none => pure (-eBadf)
  | some f =>
    match cmd with
    | .dupFd =>
      if arg < 0 ∨ (nofile : Int) ≤ arg then pure (-eInval) else dupFrom c fd arg
    | .getFd | .setFd | .setFl => pure 0
    | .getFl =>
      let e := s.ftable f
      let mode : Int := if e.readable && e.writable then 2 else if e.writable then 1 else 0
      pure (if e.append then mode + 0x400 else mode)
    | .other => pure (-eInval)

def sysDup3 (c : Fin nproc) (oldfd newfd flags : Int) : F Int := do
  let s ← get
  match openFile (s.proc c) oldfd with
  | none => pure (-eBadf)
  | some oldfile =>
    if newfd < 0 ∨ (nofile : Int) ≤ newfd then pure (-eBadf)
    else if newfd = oldfd then pure (-eInval)
    else if flags ≠ 0 then pure (-eInval)
    else
      let newfile := (s.proc c).ofile newfd.toNat
      if newfile = some oldfile then pure newfd
      else do
        let e := s.ftable oldfile
        setFile oldfile { e with refCount := e.refCount + 1 }
        setOfile c newfd.toNat (some oldfile)
        match newfile with
        | none => pure newfd
        | some f => do
          fileclose f
          pure newfd

def sysClose (c : Fin nproc) (fd : Int) : F Int := do
  let p ← gets fun s => s.proc c
  match openFile p fd with
  | none => pure (-eBadf)
  | some f => do
    setOfile c fd.toNat none
    fileclose f
    pure 0

/-! ## Pipes -/

/-- One end of a new pipe as `pipe_alloc` sets it. -/
def File.pipeEnd (e : File) (pi : Nat) (writable : Bool) : File :=
  { e with pipe := some pi, type := .pipe, readable := !writable, writable :=
    writable, flags := 0#32 }

/-- Closes an entry that was allocated. -/
def closeSome : Option Nat → F Unit
  | none => pure ()
  | some f => fileclose f

/-- `pipe_alloc`; `mem` is the answer of `kmalloc`, which is not the number of an earlier pipe. -/
def pipeAlloc (mem : Option Nat) : F (Except Int (Nat × Nat)) := do
  let read ← filealloc
  let write ← filealloc
  let mem ← gets fun s => mem.filter fun pi => (s.pipes pi).isNone
  match read, write, mem with
  | some r, some w, some pi => do
    modify fun s => s.setPipe pi (some ⟨true, true, 0, 0⟩)
    modify fun s => s.setFile r ((s.ftable r).pipeEnd pi false)
    modify fun s => s.setFile w ((s.ftable w).pipeEnd pi true)
    pure (.ok (r, w))
  | some r, some w, none => do
    fileclose r
    fileclose w
    pure (.error eNoMem)
  | _, _, _ => do
    closeSome read
    closeSome write
    pure (.error eNFile)

/-- `p->ofile[fd] = 0` if `fd` was allocated. -/
def clearFd (c : Fin nproc) : Option Nat → F Unit
  | none => pure ()
  | some fd => setOfile c fd none

/-- The exit `fail` of `sys_pipe2`. -/
def pipeFail (c : Fin nproc) (fd0 fd1 : Option Nat) (r w : Nat) (ret : Int) : F Int := do
  clearFd c fd0
  clearFd c fd1
  fileclose r
  fileclose w
  pure ret

/-- `sys_pipe2`; `copied` tells whether the descriptors reach the user. -/
def sysPipe2 (c : Fin nproc) (flags : Int) (mem : Option Nat) (copied : Bool) : F Int := do
  if flags ≠ 0 then pure (-eInval)
  else
    match ← pipeAlloc mem with
    | .error e => pure (-e)
    | .ok (r, w) => do
      let fd0 ← allocFd c r
      match fd0 with
      | none => pipeFail c none none r w (-eMFile)
      | some _ => do
        let fd1 ← allocFd c w
        match fd1 with
        | none => pipeFail c fd0 none r w (-eMFile)
        | some _ => if copied then pure 0 else pipeFail c fd0 fd1 r w (-eFault)

/-! ## Areas -/

/-- `&proc[0]` -/
def proc0 : Fin nproc := ⟨0, nproc_pos⟩

/-- `do_mmap`: the new area gets a reference of its own to the file. -/
def sysMmap (c : Fin nproc) (a : MmapArgs) : F Int := do
  let s ← get
  match doMmap (s.proc proc0).stackBottom (s.proc c) a with
  | .error e => pure (-e)
  | .ok (start, q) => do
    match mmapCheck (s.proc c) a with
    | .ok (some f) => filedup f
    | _ => pure ()
    setProc c q
    pure start.toInt

/-- `do_munmap`: the file of an area that is removed as a whole is closed. -/
def sysMunmap (c : Fin nproc) (addr len : Word) : F Int := do
  let p ← gets fun s => s.proc c
  match doMunmap p addr len, overlappingSlot p addr (pgRoundUp len) with
  | .error e, _ => pure (-e)
  | .ok q, some i => do
    if (q.vmArea i).used = false then closeSome (p.vmArea i).file
    else pure ()
    setProc c q
    pure 0
  | .ok q, none => do
    setProc c q
    pure 0

/-- The loop of `exit` and of `free_pagetable_vma` over the areas. -/
def closeArea (c : Fin nproc) (i : Nat) : F Unit := do
  if h : i < nvma then
    let v ← gets fun s => (s.proc c).vmArea ⟨i, h⟩
    if v.used = false then pure ()
    else do
      closeSome v.file
      modify fun s => s.setProc c (Process.setArea (s.proc c) ⟨i, h⟩ { v with used := false })
  else pure ()

def closeAreas (c : Fin nproc) : F Unit := loop (closeArea c) 0 nvma

/-! ## Processes -/

/-- A successful `execve_kernel` whose image puts the heap at `heap`. -/
def execve (c : Fin nproc) (heap : Word) : F Int := do
  let p ← gets fun s => s.proc c
  setProc c { p with
    heapBottom := heap
    heapTop := heap
    stackBottom := 0x3fffff0000#64
    stackTop := 0x4000000000#64 }
  if 0#64 < p.heapTop ∨ p.stackBottom < p.stackTop then closeAreas c else pure ()
  pure 0

/-- `alloc_process` with enough memory; without it the kernel stops. -/
def allocProcess : F (Option (Fin nproc)) := do
  let s ← get
  match (List.finRange nproc).find? fun n => (s.proc n).state = .unused with
  | none => pure none
  | some n => do
    modify fun s => { s with nextPid := s.nextPid + 1 }
    setProc n { s.proc n with
      state := .used
      pid := s.nextPid
      sighand := Sighand.zero
      ofile := fun _ => none }
    pure (some n)

/-- `freeproc` without the memory it releases. -/
def freeproc (n : Fin nproc) : F Unit :=
  modify fun s => s.setProc n { s.proc n with pid := 0, parent := none, state := .unused }

/-- The body of the loop of `fork` over the descriptors. -/
def forkFd (c n : Fin nproc) (fd : Nat) : F Unit := do
  let f ← gets fun s => (s.proc c).ofile fd
  match f with
  | none => pure ()
  | some f => do
    filedup f
    setOfile n fd (some f)

/-- The body of the loop of `fork` over the areas. -/
def forkArea (c n : Fin nproc) (i : Nat) : F Unit := do
  if h : i < nvma then
    let v ← gets fun s => (s.proc c).vmArea ⟨i, h⟩
    if v.used then do
      match v.file with
      | none => pure ()
      | some f => filedup f
      modify fun s => s.setProc n (Process.setArea (s.proc n) ⟨i, h⟩ v)
    else pure ()
  else pure ()

/-- `fork`; `copied` is the answer of `uvmcopy`. -/
def fork (c : Fin nproc) (copied : Bool) : F Int := do
  match ← allocProcess with
  | none => pure (-eAgain)
  | some n =>
    if copied = false then do
      freeproc n
      pure (-eNoMem)
    else do
      modify fun s => s.setProc n { s.proc n with
        heapTop := (s.proc c).heapTop
        heapBottom := (s.proc c).heapBottom
        stackTop := (s.proc c).stackTop
        stackBottom := (s.proc c).stackBottom
        sp := (s.proc c).sp
        parent := some c
        sighand := (s.proc c).sighand }
      loop (forkFd c n) 0 nofile
      loop (forkArea c n) 0 nvma
      modify fun s => s.setProc n { s.proc n with state := .runnable }
      gets fun s => (s.proc n).pid

/-- The body of the loop of `exit` over the descriptors. -/
def exitFd (c : Fin nproc) (fd : Nat) : F Unit := do
  let f ← gets fun s => (s.proc c).ofile fd
  match f with
  | none => pure ()
  | some f => do
    setOfile c fd none
    fileclose f

/-- The children of the process get `proc[0]` as parent. -/
def reparent (c : Fin nproc) : F Unit :=
  modify fun s => { s with
    proc := fun n =>
      if (s.proc n).parent = some c.val then { s.proc n with parent := some 0 } else s.proc n }

/-- `exit`, up to the call of `sched` from which it does not return. -/
def exit (c : Fin nproc) (code : Int) : F Int := do
  loop (exitFd c) 0 nofile
  reparent c
  modify fun s => s.setProc c { s.proc c with state := .zombie, exitCode := code }
  closeAreas c
  pure 0

/-- One pass of `wait4` over the children; `copied` tells whether the status reaches the user. -/
def wait4 (c : Fin nproc) (pid : Int) (wstatus : Word) (copied : Bool) : F Int := do
  let s ← get
  let zombie := (List.finRange nproc).find? fun n =>
    n ≠ c ∧ (s.proc n).parent = some c.val ∧ (pid = -1 ∨ (s.proc n).pid = pid) ∧
      (s.proc n).state = .zombie
  match zombie with
  -- without a zombie the call waits, or returns without changing anything
  | none => pure (-eChild)
  | some n =>
    if wstatus ≠ 0#64 ∧ copied = false then pure (-eFault)
    else do
      freeproc n
      pure (s.proc n).pid

/-! ## Offsets -/

def sysLseek (v : Vfs) (c : Fin nproc) (fd : Int) (off : Word) (whence : Int) : F Int := do
  let s ← get
  match openFile (s.proc c) fd with
  | none => pure (-eBadf)
  | some f =>
    let e := s.ftable f
    if e.type = .pipe ∨ (∃ n ∈ e.node, v.type n = .dev) then pure (-eSPipe)
    else
      let next : Option Word :=
        if whence = 0 then some off
        else if whence = 1 then some (e.offset + off)
        else if whence = 2 then e.node.map fun n => v.size n + off
        else none
      match next with
      | none => pure (-eInval)
      | some next =>
        if next.msb then pure (-eInval)
        else do
          setFile f { e with offset := next }
          pure next.toInt

/-- `if (file->append) file->offset = file->node->size` -/
def appendOffset (v : Vfs) (f : Nat) (e : File) : F Unit :=
  if e.append then
    match e.node with
    | none => fail .nullDeref
    | some n => setFile f { e with offset := v.size n }
  else pure ()

/-- The transfer of the data, which moves the offset by `moved`. -/
def transfer (f : Nat) (e : File) (moved : Word) : F Int :=
  if e.type = .pipe then pure (if e.pipe = none then -eBadf else moved.toInt)
  else if e.node = none then pure (-eInval)
  else do
    modify fun s => s.setFile f { s.ftable f with offset := (s.ftable f).offset + moved }
    pure moved.toInt

def sysWrite (v : Vfs) (c : Fin nproc) (fd total : Int) (moved : Word) : F Int := do
  if total < 0 then pure (-eInval)
  else
    let s ← get
    match openFile (s.proc c) fd with
    | none => pure (-eBadf)
    | some f =>
      if (s.ftable f).writable = false then pure (-eBadf)
      else do
        appendOffset v f (s.ftable f)
        transfer f (s.ftable f) moved

/-- What `sys_read` and `sys_getdents64` do to the table: they move the offset of an open file that
is not a pipe. -/
def moveOffset (c : Fin nproc) (fd : Int) (off : Word) : F Int := do
  let s ← get
  match openFile (s.proc c) fd with
  | none => pure (-eBadf)
  | some f =>
    let e := s.ftable f
    if e.readable = false ∨ e.type = .pipe ∨ e.node = none then pure (-eBadf)
    else do
      setFile f { e with offset := off }
      pure 0

/-! ## The system -/

/-- A system call with its arguments and the answers it gets. -/
inductive FileAction where
  | openat (v : Vfs) (dirfd : Int) (path : Option (List Byte)) (flags : BitVec 32)
  | newfstatat (v : Vfs) (dirfd : Int) (path : Except Int (List Byte)) (st : Word) (stat : Int)
  | dup (fd : Int)
  | fcntl (fd : Int) (cmd : FcntlCmd) (arg : Int)
  | dup3 (oldfd newfd flags : Int)
  | close (fd : Int)
  | pipe2 (flags : Int) (mem : Option Nat) (copied : Bool)
  | mmap (a : MmapArgs)
  | munmap (addr len : Word)
  | exec (heap : Word)
  | execFails (e : Int)
  | fork (copied : Bool)
  | exit (code : Int)
  | wait (pid : Int) (wstatus : Word) (copied : Bool)
  | lseek (v : Vfs) (fd : Int) (off : Word) (whence : Int)
  | write (v : Vfs) (fd total : Int) (moved : Word)
  | read (fd : Int) (off : Word)
  | getdents (fd : Int) (off : Word)

def FileAction.run (c : Fin nproc) : FileAction → F Int
  | .openat v dirfd path flags => Ftable.openat v c dirfd path flags
  | .newfstatat v dirfd path st stat => sysNewfstatat v c dirfd path st stat
  | .dup fd => dupFrom c fd 0
  | .fcntl fd cmd arg => sysFcntl c fd cmd arg
  | .dup3 oldfd newfd flags => sysDup3 c oldfd newfd flags
  | .close fd => sysClose c fd
  | .pipe2 flags mem copied => sysPipe2 c flags mem copied
  | .mmap a => sysMmap c a
  | .munmap addr len => sysMunmap c addr len
  | .exec heap => execve c heap
  | .execFails e => pure (-e)
  | .fork copied => Ftable.fork c copied
  | .exit code => Ftable.exit c code
  | .wait pid wstatus copied => wait4 c pid wstatus copied
  | .lseek v fd off whence => sysLseek v c fd off whence
  | .write v fd total moved => sysWrite v c fd total moved
  | .read fd off => moveOffset c fd off
  | .getdents fd off => moveOffset c fd off

/-- A process that can run or be scheduled. -/
def ProcState.Active (st : ProcState) : Prop := st ≠ .unused ∧ st ≠ .zombie

/-- A process performs a call, or the scheduler changes the state of a process. -/
inductive FileEvent where
  | call (c : Fin nproc) (a : FileAction)
  | sched (c : Fin nproc) (st : ProcState)

inductive FileStep : Files → FileEvent → Files → Prop where
  | call {s t : Files} {c : Fin nproc} {a : FileAction} {r : Int} :
      ProcState.Active (s.proc c).state → (a.run c).run s = .ok (r, t) → FileStep s (.call c a) t
  | sched {s : Files} {c : Fin nproc} {st : ProcState} :
      ProcState.Active (s.proc c).state → ProcState.Active st →
      FileStep s (.sched c st) (s.setProc c { s.proc c with state := st })

def Process.zero (slot : Nat) : Process where
  slot := slot
  state := .unused
  pid := 0
  ofile := fun _ => none
  exitCode := 0
  kstack := 0
  parent := none
  pagetable := 0
  context := 0
  heapBottom := 0
  heapTop := 0
  stackBottom := 0
  stackTop := 0
  vmArea := fun _ => Vma.zero
  sighand := Sighand.zero
  sp := 0

/-- The tables when `user_init` has allocated the first process; the files it opens for it are the
first calls of a run. -/
def Files.boot : Files where
  ftable := fun _ => File.zero
  proc := fun n => if n = proc0 then { Process.zero 0 with state := .used, pid := 1 }
    else Process.zero n
  nextPid := 2
  pipes := fun _ => none

end FrostVista.Kernel.Ftable
