import FrostVista.Kernel.Process
import FrostVista.Riscv.Pte

/-!
# The RISC-V memory manager

The functions of `arch/riscv/mm/vm.c` over the machine state, in the order of the source. A C
function that returns 0 or -1 becomes a `Ret`, whose error says why; dereferencing a null entry
pointer is a panic. `get_proc()` is the argument `p`.
-/
namespace FrostVista.Riscv

open Lib Lib.Comp

/-! ## Mapping and unmapping -/

/-- One round of the loop of `mappages`. -/
def mapPage (pagetable a pa perm : Word) : M Ret := do
  match ← walk riscv pagetable a true with
  | none => pure (.error .noMem)
  | some (p, i) =>
    let pte ← readPte p i
    if has pte pteV then fail .remap
    else
      storePte p i (leafPte pa perm)
      pure (.ok ())

/-- The loop ends when `a` reaches `last`, which may lie behind `va`. -/
def mappages (pagetable va pa : Word) (size : BitVec 32) (perm : Word) : M Ret :=
  if va.toNat % pgSize ≠ 0 then fail .mappagesVa
  else if size.toInt % 4096 ≠ 0 then fail .mappagesSizeAlign
  else if size = 0#32 then fail .mappagesSize
  else do
    let last := va + size.signExtend 64 - 4096#64
    let failed ← search (fun k => do
      match ← mapPage pagetable (pageAt va k) (pageAt pa k) perm with
      | .error e => pure (some e)
      | .ok _ => pure none) 0 ((last - va).toNat / 4096 + 1)
    match failed with
    | some e => pure (.error e)
    | none => pure (.ok ())

def kvmmap (pagetable va pa : Word) (size : BitVec 32) (perm : Word) : M Ret :=
  mappages pagetable va pa size (pteFromPerm perm)

/-- One round of the loops of `kvmunmap` and `uvmunmap`. -/
def unmapPage (pagetable a : Word) (doFree : Bool) : M Unit := do
  match ← walk riscv pagetable a false with
  | none => pure ()
  | some (p, i) =>
    let pte ← readPte p i
    if !has pte pteV then pure ()
    else if pteFlags pte = pteV then pure ()
    else
      when doFree (kfree riscv (riscv.page pte))
      storePte p i 0#64

def kvmunmap (pagetable va size : Word) (doFree : Bool) : M Unit :=
  if va.toNat % pgSize ≠ 0 ∨ size.toNat % pgSize ≠ 0 then fail .kvmunmap
  else loop (fun k => unmapPage pagetable (pageAt va k) doFree) 0 (pagesBelow va (va + size))

def uvmunmap (pagetable va : Word) (npage : BitVec 32) (doFree : Bool) : M Unit :=
  loop (fun k => unmapPage pagetable (pageAt va k) doFree) 0
    (pagesBelow va (va + npage.signExtend 64 * 4096#64))

def uvmdealloc (pagetable va size : Word) : M Unit :=
  if size = 0#64 then pure ()
  else
    let oldTop := va + size
    let roundedVa := pgRoundUp va
    if roundedVa < oldTop then
      let bytesToFree := pgRoundUp oldTop - roundedVa
      uvmunmap pagetable roundedVa ((bytesToFree / 4096#64).setWidth 32) true
    else pure ()

/-- One round of the loop of `uvmalloc`, for the page `i`. -/
def uvmallocPage (pagetable start i perm : Word) : M (Option Err) := do
  match ← kalloc with
  | none =>
    uvmdealloc pagetable start (i - start)
    pure (some .noMem)
  | some mem =>
    match ← mappages pagetable i (va2pa mem) 4096#32 (pteFromPerm (perm ||| permUser)) with
    | .ok _ => pure none
    | .error e =>
      kfree riscv mem
      uvmdealloc pagetable start (i - start)
      pure (some e)

def uvmalloc (pagetable va size perm : Word) : M Ret := do
  let start := pgRoundDown va
  let stop := pgRoundUp (va + size)
  match ← search (fun k => uvmallocPage pagetable start (pageAt start k) perm) 0
      (pagesBelow start stop) with
  | some e => pure (.error e)
  | none => pure (.ok ())

/-! ## Page tables as a whole -/

def uvmcreate : M Word := do
  match ← kalloc with
  | none => fail .uvmcreate
  | some userPagetable =>
    let m ← get
    loop (fun i => do
      let e ← readPte m.kernelTable i
      storePte userPagetable i e) 256 256
    pure userPagetable

/-! ## Fork -/

/-- The body of the innermost loop of `uvmcopy`, for the entry `i0` of `pt0`. -/
def uvmcopyPage (new pt0 : Word) (i2 i1 i0 : Nat) : M (Option Err) := do
  let pte ← readPte pt0 i0
  if !has pte pteV then pure none
  else
    let va := BitVec.ofNat 64 i2 <<< 30 ||| BitVec.ofNat 64 i1 <<< 21 ||| BitVec.ofNat 64 i0 <<< 12
    let pa := pte2pa pte
    let ptewrite := has pte pteW
    storePte pt0 i0 (cowPte pte)
    let flags := pteFlags (cowPte pte)
    sfenceVma
    refcntInc (pa2va pa)
    match ← mappages new va pa 4096#32 flags with
    | .ok _ => pure none
    | .error e =>
      storePte pt0 i0 (cowPte pte &&& ~~~pteCow)
      when ptewrite (storePte pt0 i0 (cowPte pte &&& ~~~pteCow ||| pteW))
      refcntDec (pa2va pa)
      pure (some e)

def uvmcopy (old new : Word) : M Ret := do
  let failed ← search (fun i2 => do
    let pte2 ← readPte old i2
    if !has pte2 pteV then pure none
    else
      let pt1 := riscv.page pte2
      search (fun i1 => do
        let pte1 ← readPte pt1 i1
        if !has pte1 pteV then pure none
        else
          let pt0 := riscv.page pte1
          search (fun i0 => uvmcopyPage new pt0 i2 i1 i0) 0 512) 0 512) 0 256
  match failed with
  | some e => pure (.error e)
  | none => pure (.ok ())

/-! ## Page faults -/

def handlePageFault (p : Process) (pagetable va : Word) : M Ret := do
  let va := pgRoundDown va
  if p.stackBottom < va then pure (.error .fault)
  else if va < p.heapBottom then pure (.error .fault)
  else
    match ← kalloc with
    | none => pure (.error .noMem)
    | some mem =>
      match ← mappages pagetable va (va2pa mem) 4096#32 (pteV ||| pteR ||| pteW ||| pteU) with
      | .ok _ => pure (.ok ())
      | .error e =>
        kfree riscv mem
        pure (.error e)

def handleAnonymousVmaFault (p : Process) (vma : Vma) (va : Word) : M Ret := do
  match ← kalloc with
  | none => pure (.error .noMem)
  | some mem =>
    match ← kvmmap p.pagetable va (va2pa mem) 4096#32 vma.vmPageProt with
    | .ok _ => pure (.ok ())
    | .error e =>
      kfree riscv mem
      pure (.error e)

def handleFileVmaFault (fs : FileSys) (p : Process) (vma : Vma) (file : Nat) (va : Word) :
    M Ret := do
  match ← kalloc with
  | none => pure (.error .noMem)
  | some buf =>
    modify fun m => m.zeroPage buf
    let off := vma.fileOffset + (va - vma.vaStart)
    match ← vfsReadAt fs p file off with
    | none =>
      kfree riscv buf
      pure (.error .fault)
    | some bytes =>
      modify fun m => m.writeBytes buf 0 bytes
      match ← kvmmap p.pagetable va (va2pa buf) 4096#32 vma.vmPageProt with
      | .ok _ => pure (.ok ())
      | .error e =>
        kfree riscv buf
        pure (.error e)

def handleVmaFault (fs : FileSys) (p : Process) (va : Word) : M Ret :=
  let va := pgRoundDown va
  match findOverlappingVma p va 4096#64 with
  | none => pure (.error .fault)
  | some vma =>
    match vma.file with
    | some file => handleFileVmaFault fs p vma file va
    | none => handleAnonymousVmaFault p vma va

/-- The result `true` stands for the return value 0. -/
def isCowFault (pagetable va : Word) : M Bool := do
  match ← walk riscv pagetable (pgRoundDown va) false with
  | none => pure false
  | some (p, i) =>
    let pte ← readPte p i
    pure (has pte pteV && has pte pteCow)

def handleCowFault (pagetable va : Word) : M Ret := do
  match ← walk riscv pagetable (pgRoundDown va) false with
  | none => fail .nullDeref
  | some (p, i) =>
    let pte ← readPte p i
    match ← kalloc with
    | none => pure (.error .noMem)
    | some mem =>
      modify fun m => m.copyPage mem (riscv.page pte)
      kfree riscv (riscv.page pte)
      storePte p i (resolvedPte (va2pa mem) pte)
      pure (.ok ())

/-! ## Copies between kernel and user memory -/

/-- Where `copyin` and `copyout` let `handle_page_fault` map a page. -/
def isLazy (p : Process) (va : Word) : Bool :=
  let isTextData := 0x10000#64 ≤ va && va < p.heapBottom - 4096#64
  let isHeap := p.heapBottom ≤ va && va < p.heapTop
  let isStack := p.stackBottom ≤ va && va < p.stackTop
  isHeap || isStack || isTextData

/-- The test `pte != 0 && (*pte & flag)` on the entry of `va`. -/
def pteHas (pagetable va flag : Word) : M Bool := do
  match ← walk riscv pagetable va false with
  | none => pure false
  | some (q, i) =>
    let pte ← readPte q i
    pure (has pte flag)

/-- The lazy allocation at the head of both loops, for a page without a valid entry. -/
def faultIn (fs : FileSys) (p : Process) (pagetable va : Word) : M Ret := do
  let valid ← pteHas pagetable va pteV
  if valid then pure (.ok ())
  else if isLazy p va then handlePageFault p pagetable va
  else if (findOverlappingVma p va 4096#64).isSome then handleVmaFault fs p va
  else pure (.error .fault)

/-- The number of bytes a copy moves in one round. -/
def chunk (a : Word) (len : Nat) : Nat := min (4096 - (a - pgRoundDown a).toNat) len

/-- One round of `copyin`. -/
def copyinPage (fs : FileSys) (p : Process) (pagetable src : Word) (len : Nat) :
    M (Except Err (List Byte)) := do
  let va := pgRoundDown src
  match ← faultIn fs p pagetable va with
  | .error e => pure (.error e)
  | .ok _ =>
    match ← walk riscv pagetable va false with
    | none => pure (.error .fault)
    | some (q, i) =>
      let pte ← readPte q i
      if !has pte pteV || !has pte pteU then pure (.error .fault)
      else
        let m ← get
        let offset := (src - va).toNat
        pure (.ok ((List.range (chunk src len)).map fun j =>
          m.readByte (riscv.page pte) (offset + j)))

def copyinLoop (fs : FileSys) (p : Process) (pagetable : Word) :
    Nat → Word → Nat → M (Except Err (List Byte))
  | 0, _, _ => pure (.ok [])
  | rounds + 1, src, len => do
    if len = 0 then pure (.ok [])
    else
      match ← copyinPage fs p pagetable src len with
      | .error e => pure (.error e)
      | .ok bytes =>
        let size := chunk src len
        match ← copyinLoop fs p pagetable rounds (src + BitVec.ofNat 64 size) (len - size) with
        | .error e => pure (.error e)
        | .ok rest => pure (.ok (bytes ++ rest))

/-- `copyin` returns the bytes it stores at `dst`; a round moves at least one byte. -/
def copyin (fs : FileSys) (p : Process) (pagetable src : Word) (len : Nat) :
    M (Except Err (List Byte)) := copyinLoop fs p pagetable len src len

/-- `copyout` resolves a copy-on-write page before it writes to it. -/
def resolveCow (pagetable va : Word) : M Ret := do
  let cow ← pteHas pagetable va pteCow
  if cow then handleCowFault pagetable va else pure (.ok ())

/-- One round of `copyout`, which writes the first bytes of `src`. -/
def copyoutPage (fs : FileSys) (p : Process) (pagetable dst : Word) (src : List Byte) :
    M Ret := do
  let va := pgRoundDown dst
  match ← faultIn fs p pagetable va with
  | .error e => pure (.error e)
  | .ok _ =>
    match ← resolveCow pagetable va with
    | .error e => pure (.error e)
    | .ok _ =>
      match ← walk riscv pagetable va false with
      | none => fail .nullDeref
      | some (q, i) =>
        let pte ← readPte q i
        if !has pte pteV || !(has pte pteW && has pte pteU) then pure (.error .fault)
        else if riscv.phystopLow < pte2pa pte then fail .copyoutPa
        else
          let offset := (dst - va).toNat
          modify fun m => m.writeBytes (riscv.page pte) offset (src.take (chunk dst src.length))
          pure (.ok ())

def copyoutLoop (fs : FileSys) (p : Process) (pagetable : Word) :
    Nat → Word → List Byte → M Ret
  | 0, _, _ => pure (.ok ())
  | rounds + 1, dst, src => do
    if src = [] then pure (.ok ())
    else
      match ← copyoutPage fs p pagetable dst src with
      | .error e => pure (.error e)
      | .ok _ =>
        let size := chunk dst src.length
        copyoutLoop fs p pagetable rounds (dst + BitVec.ofNat 64 size) (src.drop size)

/-- `copyout(pagetable, dst, src, len)` for the bytes at `src`. -/
def copyout (fs : FileSys) (p : Process) (pagetable dst : Word) (src : List Byte) : M Ret :=
  copyoutLoop fs p pagetable src.length dst src

end FrostVista.Riscv
