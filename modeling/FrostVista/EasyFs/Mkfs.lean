import FrostVista.EasyFs.State
import FrostVista.Library.Image
import Mathlib.Algebra.Order.BigOperators.Group.List

/-!
# mkfs: the tool that makes an EasyFS image

`mkfs/mkfs.c` is a program of its own, with its own copies of the structures and constants of the
disk. The host is a function from paths to the contents of files; files are read completely.
-/
namespace FrostVista.Mkfs

open Lib List Nat

open EasyFs (DiskInode)

def blockSize : Nat := 4096

def magicNum : Nat := 0x0B8EE2E0

def totalBlocks : Nat := 4096

def vfsDir : Nat := 0x0001

def vfsFile : Nat := 0x0010

def maxFiles : Nat := 64

def maxDirectBlocks : Nat := 10

/-! ## The structures on the disk -/

structure DiskSuperBlock where
  magic : Nat
  totalBlocks : Nat
  ibitmapAreaStart : Nat
  dbitmapAreaStart : Nat
  inodeAreaStart : Nat
  dataAreaStart : Nat

def DiskSuperBlock.bytes (sb : DiskSuperBlock) : List Byte :=
  (((((Bytes.zero.store 0 4 sb.magic).store 4 4 sb.totalBlocks).store 8 4 sb.ibitmapAreaStart).store
    12 4
    sb.dbitmapAreaStart).store 16 4 sb.inodeAreaStart).store 20 4 sb.dataAreaStart |>.copyOut 0 32

/-- A `struct disk_inode` in zeroed memory. -/
def inodeLayout (d : DiskInode) : Bytes :=
  (((Bytes.zero.store 0 2 d.type).store 2 2 d.nlinks).store 4 4 d.size).storeAll 8 4 12 d.blocks

def inodeBytes (d : DiskInode) : List Byte := (inodeLayout d).copyOut 0 64

/-- `struct disk_dir_entry`; the name was copied into zeroed memory. -/
structure DiskDirEntry where
  inodeNum : Nat
  name : List Byte

def DiskDirEntry.bytes (e : DiskDirEntry) : List Byte :=
  (Bytes.store Bytes.zero 0 4 e.inodeNum).copyOut 0 4 ++
    (e.name ++ replicate (28 - e.name.length) 0)

/-! ## The input files -/

inductive Error where
  | usage
  | tooManyFiles
  | invalidSpec
  | invalidHostPath
  | nameTooLong
  | openInput
  /-- The assertion that the file fits in the direct blocks. -/
  | tooLarge
  deriving DecidableEq

/-- `host_path` and `fs_name` from an argument `host_path:fs_name` -/
def parseSpec (spec : List Byte) : Except Error (List Byte × List Byte) :=
  let path := spec.takeWhile (· ≠ 0x3a#8)
  match spec.dropWhile (· ≠ 0x3a#8) with
  | [] => .error .invalidSpec
  | _ :: name =>
    if path = [] ∨ name = [] then .error .invalidSpec
    else if 256 ≤ path.length then .error .invalidHostPath
    else if 28 ≤ name.length then .error .nameTooLong
    else .ok (path, name)

structure HostFile where
  fsName : List Byte
  data : List Byte

def blocksNeeded (data : List Byte) : Nat := (data.length + blockSize - 1) / blockSize % 2 ^ 32

def openInput (host : List Byte → Option (List Byte)) (spec : List Byte × List Byte) :
    Except Error HostFile :=
  match host spec.1 with
  | none => .error .openInput
  | some data => if maxDirectBlocks < blocksNeeded data then .error .tooLarge
      else .ok ⟨spec.2, data⟩

/-- The files that the arguments name. -/
def inputs (host : List Byte → Option (List Byte)) (specs : List (List Byte)) :
    Except Error (List HostFile) :=
  if specs = [] then .error .usage
  else if maxFiles < specs.length then .error .tooManyFiles
  else do
    let named ← specs.mapM parseSpec
    named.mapM (openInput host)

/-! ## The image -/

def superBlock : DiskSuperBlock where
  magic := magicNum
  totalBlocks := totalBlocks
  ibitmapAreaStart := 2
  dbitmapAreaStart := 3
  inodeAreaStart := 4
  dataAreaStart := 11

/-- `struct input_file` once its inode is filled in. -/
structure InputFile where
  fsName : List Byte
  data : List Byte
  inode : DiskInode

def InputFile.blocks (f : InputFile) : Nat := blocksNeeded f.data

def rootInode (count : Nat) : DiskInode where
  type := vfsDir
  nlinks := 2
  size := (count + 2) * 32
  blocks i := if i = 0 then superBlock.dataAreaStart else 0

def fileInode (next : Nat) (data : List Byte) : DiskInode where
  type := vfsFile
  nlinks := 1
  size := data.length
  blocks j := if j < blocksNeeded data then next + j else 0

/-- The blocks of the files are given out in order, from `next_data_block` on. -/
def place (next : Nat) : List HostFile → List InputFile
  | [] => []
  | f :: files =>
    ⟨f.fsName, f.data, fileInode next f.data⟩ :: place (next + blocksNeeded f.data) files

def rootEntries (files : List InputFile) : List DiskDirEntry :=
  ⟨1, [0x2e#8]⟩ :: ⟨1, [0x2e#8, 0x2e#8]⟩ :: files.mapIdx fun i f => ⟨i + 2, f.fsName⟩

/-- `rw_buffer` for a block of a file -/
def rwBuffer (data : List Byte) (j : Nat) : List Byte :=
  let part := (data.drop (blockSize * j)).take blockSize
  part ++ replicate (blockSize - part.length) 0

/-- The writes of the contents of a file; nothing is written for a block of which nothing was
read. -/
def dataPieces (f : InputFile) : List Piece :=
  ((range f.blocks).filter fun j => blockSize * j < f.data.length).map fun j =>
    (f.inode.blocks j * blockSize, rwBuffer f.data j)

def ibitmap (files : List InputFile) : Bytes := Bytes.ofBits (range (files.length + 2))

def dbitmap (files : List InputFile) : Bytes :=
  Bytes.ofBits (0 :: files.flatMap fun f =>
    (range f.blocks).map fun j => f.inode.blocks j - superBlock.dataAreaStart)

/-- Where an inode is written. -/
def inodePiece (n : Nat) (d : DiskInode) : Piece :=
  (superBlock.inodeAreaStart * blockSize + n * 64, inodeBytes d)

def superPiece : Piece := (1 * blockSize, superBlock.bytes)

def inodePieces (files : List InputFile) : List Piece :=
  inodePiece 1 (rootInode files.length) :: files.mapIdx fun i f => inodePiece (i + 2) f.inode

def rootPiece (files : List InputFile) : Piece :=
  ((rootInode files.length).blocks 0 * blockSize, (rootEntries files).flatMap DiskDirEntry.bytes)

def ibitmapPiece (files : List InputFile) : Piece :=
  (superBlock.ibitmapAreaStart * blockSize, (ibitmap files).copyOut 0 blockSize)

def dbitmapPiece (files : List InputFile) : Piece :=
  (superBlock.dbitmapAreaStart * blockSize, (dbitmap files).copyOut 0 blockSize)

/-- All that is written to the image, in order. -/
def pieces (files : List InputFile) : List Piece :=
  superPiece :: (inodePieces files ++ rootPiece files :: files.flatMap dataPieces) ++
    [ibitmapPiece files, dbitmapPiece files]

/-- The image, which starts as zeros. -/
def image (files : List HostFile) : Bytes :=
  Bytes.zero.writes (pieces (place (superBlock.dataAreaStart + 1) files))

/-- `main` -/
def mkfs (host : List Byte → Option (List Byte)) (specs : List (List Byte)) :
    Except Error Bytes := do
  let files ← inputs host specs
  pure (image files)

/-! ## The files that are accepted -/

/-- Files that fit in the image. -/
structure Accepted (files : List HostFile) : Prop where
  count : files.length ≤ maxFiles
  name : ∀ f ∈ files, f.fsName.length < 28
  data : ∀ f ∈ files, f.data.length ≤ maxDirectBlocks * blockSize

lemma forall₂_of_mapM {α β : Type} {f : α → Except Error β} {l : List α} {l' : List β}
    (h : l.mapM f = .ok l') : List.Forall₂ (fun a b => f a = .ok b) l l' := by
  induction l generalizing l' with
  | nil =>
    obtain rfl : [] = l' := Except.ok.inj h
    exact .nil
  | cons a l ih =>
    rw [mapM_cons] at h
    cases ha : f a with
    | error e =>
      rw [ha] at h
      cases h
    | ok b =>
      cases hl : l.mapM f with
      | error e =>
        rw [ha, hl] at h
        cases h
      | ok bs =>
        rw [ha, hl] at h
        obtain rfl : b :: bs = l' := Except.ok.inj h
        exact .cons ha (ih hl)

lemma name_lt_of_parseSpec (h : parseSpec spec = .ok r) :
    r.2.length < 28 := by
  unfold parseSpec at h
  grind

lemma accepted_of_inputs {host : List Byte → Option (List Byte)} {specs : List (List Byte)}
    {files : List HostFile} (h : inputs host specs = .ok files)
    (hdata : ∀ f ∈ files, f.data.length ≤ maxDirectBlocks * blockSize) : Accepted files := by
  unfold inputs at h
  split_ifs at h with hnil hmany
  cases hn : specs.mapM parseSpec with
  | error e =>
    rw [hn] at h
    cases h
  | ok named =>
    rw [hn] at h
    have hparse := forall₂_of_mapM hn
    have hopen := forall₂_of_mapM (show named.mapM (openInput host) = .ok files from h)
    refine ⟨?_, fun f hf => ?_, hdata⟩
    · rw [← hopen.length_eq, ← hparse.length_eq]
      omega
    · obtain ⟨j, hj, rfl⟩ := mem_iff_getElem.mp hf
      have hj' : j < named.length := hopen.length_eq ▸ hj
      have hfile := hopen.get hj' hj
      have hspec := hparse.get (hparse.length_eq ▸ hj') hj'
      have hname := name_lt_of_parseSpec hspec
      simp only [get_eq_getElem] at hfile hname ⊢
      unfold openInput at hfile
      split at hfile
      · cases hfile
      · split_ifs at hfile
        rw [← Except.ok.inj hfile]
        exact hname

/-! ## Where the files are placed -/

section Place

variable {next i j : Nat} {files : List HostFile} {data : List Byte}

lemma blocksNeeded_eq (h : data.length ≤ maxDirectBlocks * blockSize) :
    blocksNeeded data = (data.length + 4095) / 4096 := by
  unfold blocksNeeded
  simp only [maxDirectBlocks, blockSize] at h ⊢
  omega

def firstBlock (next : Nat) (files : List HostFile) (i : Nat) : Nat :=
  next + ((files.take i).map fun f => blocksNeeded f.data).sum

@[simp] lemma firstBlock_zero : firstBlock next files 0 = next := rfl

lemma firstBlock_cons (f : HostFile) :
    firstBlock next (f :: files) (i + 1) = firstBlock (next + blocksNeeded f.data) files i := by
  simp [firstBlock, add_assoc]

variable {f : HostFile}

lemma firstBlock_succ (h : files[i]? = some f) :
    firstBlock next files (i + 1) = firstBlock next files i + blocksNeeded f.data := by
  induction files generalizing next i with
  | nil => cases h
  | cons g files ih =>
    cases i with
    | zero =>
      obtain rfl : g = f := Option.some.inj h
      rfl
    | succ i => rw [firstBlock_cons, firstBlock_cons, ih h]

lemma firstBlock_mono (h : i ≤ j) : firstBlock next files i ≤ firstBlock next files j :=
  Nat.add_le_add_left (((take_sublist_take_left h).map _).sum_le_sum fun _ _ => Nat.zero_le _) next

@[simp] lemma length_rootEntries (files : List InputFile) :
    (rootEntries files).length = files.length + 2 := by
  simp [rootEntries]

@[simp] lemma length_place : (place next files).length = files.length := by
  induction files generalizing next with
  | nil => rfl
  | cons f files ih => simp [place, ih]

lemma getElem?_place (h : files[i]? = some f) :
    (place next files)[i]? =
      some ⟨f.fsName, f.data, fileInode (firstBlock next files i) f.data⟩ := by
  induction files generalizing next i with
  | nil => cases h
  | cons g files ih =>
    cases i with
    | zero =>
      obtain rfl : g = f := Option.some.inj h
      rfl
    | succ i =>
      rw [firstBlock_cons]
      exact ih h

lemma firstBlock_inj (hf : files[k]? = some f) (hg : files[l]? = some g)
    (hi : i < blocksNeeded f.data) (hj : j < blocksNeeded g.data)
    (heq : firstBlock next files k + i = firstBlock next files l + j) : k = l ∧ i = j := by
  have hk := @firstBlock_succ next k files f hf
  have hl := @firstBlock_succ next l files g hg
  rcases lt_trichotomy k l with hlt | rfl | hgt
  · have hmono := @firstBlock_mono next (k + 1) l files hlt
    omega
  · exact ⟨rfl, by omega⟩
  · have hmono := @firstBlock_mono next (l + 1) k files hgt
    omega

end Place

/-! ## Where the pieces lie -/

section Pieces

open Piece

variable {next : Nat} {files : List HostFile} {data : List Byte}

variable {e : DiskDirEntry} {o : Nat} {f : InputFile} {p : Piece}

lemma DiskDirEntry.length_bytes (h : e.name.length ≤ 28) : e.bytes.length = 32 := by
  simp only [DiskDirEntry.bytes, length_append, Bytes.length_copyOut, length_replicate]
  omega

lemma length_rwBuffer (data : List Byte) (j : Nat) : (rwBuffer data j).length = blockSize := by
  simp only [rwBuffer, length_append, length_take, length_replicate]
  omega

lemma getElem_rwBuffer (h : o < (rwBuffer data j).length) :
    (rwBuffer data j)[o] = data.getD (blockSize * j + o) 0 := by
  rw [length_rwBuffer] at h
  rw [← getD_eq_getElem _ 0]
  unfold rwBuffer
  by_cases ho : blockSize * j + o < data.length
  · have hpart : o < ((data.drop (blockSize * j)).take blockSize).length := by
      simp only [length_take, length_drop]
      omega
    rw [getD_append _ _ _ _ hpart, getD_eq_getElem _ _ hpart, getElem_take, getElem_drop,
      getD_eq_getElem _ _ ho]
  · have hpart : ((data.drop (blockSize * j)).take blockSize).length ≤ o := by
      simp only [length_take, length_drop]
      omega
    rw [getD_append_right _ _ _ _ hpart, getD_replicate, getD_eq_default _ _ (by omega)]
    · simp only [length_take, length_drop] at hpart ⊢
      omega

lemma dataPieces_eq (h : f.data.length ≤ maxDirectBlocks * blockSize) :
    dataPieces f = (range f.blocks).map fun j =>
      (f.inode.blocks j * blockSize, rwBuffer f.data j) := by
  have hall : ((range f.blocks).filter fun j => blockSize * j < f.data.length) =
    range f.blocks := by
    refine filter_eq_self.mpr fun j hj => ?_
    rw [mem_range, InputFile.blocks, blocksNeeded_eq h] at hj
    rw [decide_eq_true_eq, blockSize]
    omega
  rw [dataPieces, hall]

lemma ascending_data (h : ∀ f ∈ files, f.data.length ≤ maxDirectBlocks * blockSize) :
    Ascending (next * blockSize) ((place next files).flatMap dataPieces)
      (firstBlock next files files.length * blockSize) := by
  induction files generalizing next with
  | nil => exact le_rfl
  | cons f files ih =>
    rw [place, flatMap_cons, dataPieces_eq (h f (.head _)), length_cons, firstBlock_cons]
    refine Ascending.append ?_ (ih fun g hg => h g (.tail _ hg))
    have hend : (next + blocksNeeded f.data) * blockSize =
      next * blockSize + blockSize * blocksNeeded f.data := by
      rw [add_mul, mul_comm blockSize]
    rw [hend]
    refine ascending_map_range (fun j hj => ?_) fun j _ => length_rwBuffer ..
    have hj : j < blocksNeeded f.data := hj
    simp only [fileInode, if_pos hj]
    rw [add_mul, mul_comm blockSize]

def inodeOffset (n : Nat) : Nat := superBlock.inodeAreaStart * blockSize + n * 64

lemma ascending_mapIdx (k : Nat) (files : List InputFile) :
    Ascending (inodeOffset k) (files.mapIdx fun i f => inodePiece (i + k) f.inode)
      (inodeOffset (k + files.length)) := by
  induction files generalizing k with
  | nil => exact le_rfl
  | cons f files ih =>
    have hshift : ∀ i, i + 1 + k = i + (k + 1) := fun i => by omega
    have hrest := ih (k + 1)
    rw [mapIdx_cons]
    refine ⟨by rw [zero_add]; exact le_rfl, ?_⟩
    simp only [hshift, length_cons]
    have hnext : (inodePiece (0 + k) f.inode).1 + (inodePiece (0 + k) f.inode).2.length =
      inodeOffset (k + 1) := by
      simp only [inodePiece, inodeBytes, Bytes.length_copyOut, inodeOffset]
      omega
    have hlen : k + (files.length + 1) = k + 1 + files.length := by omega
    rw [hnext, hlen]
    exact hrest

lemma ascending_inodes (files : List InputFile) :
    Ascending (inodeOffset 1) (inodePieces files) (inodeOffset (2 + files.length)) := by
  refine ⟨le_rfl, ?_⟩
  have hnext : (inodePiece 1 (rootInode files.length)).1 +
      (inodePiece 1 (rootInode files.length)).2.length = inodeOffset 2 := by
    simp only [inodePiece, inodeBytes, Bytes.length_copyOut, inodeOffset]
  rw [hnext]
  exact ascending_mapIdx 2 files

lemma mem_rootEntries (he : e ∈ rootEntries fs) :
    e.name.length ≤ 2 ∨ ∃ f ∈ fs, e.name = f.fsName := by
  simp only [rootEntries, mem_cons, mem_mapIdx] at he
  rcases he with rfl | rfl | ⟨i, hi, rfl⟩
  · exact .inl (by decide)
  · exact .inl (by decide)
  · exact .inr ⟨_, getElem_mem hi, rfl⟩

lemma mem_place (h : f ∈ place next files) :
    ∃ g ∈ files, f.fsName = g.fsName ∧ f.data = g.data := by
  induction files generalizing next with
  | nil => cases h
  | cons g files ih =>
    rcases mem_cons.mp h with rfl | h
    · exact ⟨g, .head _, rfl, rfl⟩
    · obtain ⟨g', hg', heq⟩ := ih h
      exact ⟨g', .tail _ hg', heq⟩

section
variable (h : Accepted files)
include h

lemma Accepted.length_entry (he : e ∈ rootEntries (place next files)) : e.bytes.length = 32 := by
  refine DiskDirEntry.length_bytes ?_
  rcases mem_rootEntries he with hshort | ⟨f, hf, hname⟩
  · omega
  · obtain ⟨g, hg, heq, -⟩ := mem_place hf
    have hlt := h.name g hg
    rw [hname, heq]
    omega

lemma Accepted.length_rootPiece :
    (rootPiece (place next files)).2.length = 32 * (files.length + 2) := by
  have hlen : (rootEntries (place next files)).length = files.length + 2 := by simp [rootEntries]
  rw [rootPiece, length_flatMap, map_congr_left fun e he => h.length_entry he, map_const',
    sum_replicate, hlen, Nat.nsmul_eq_mul, Nat.mul_comm]

lemma Accepted.ascending_contents :
    Ascending (11 * 4096) (rootPiece (place 12 files) :: (place 12 files).flatMap dataPieces)
      (firstBlock 12 files files.length * blockSize) := by
  have hcount := h.count
  simp only [maxFiles] at hcount
  refine ⟨le_rfl, Ascending.of_le (ascending_data h.data) ?_⟩
  rw [h.length_rootPiece]
  change 11 * 4096 + 32 * (files.length + 2) ≤ 12 * 4096
  omega

lemma Accepted.ascending : Ascending (inodeOffset 1)
      (inodePieces (place 12 files) ++
        rootPiece (place 12 files) :: (place 12 files).flatMap dataPieces)
      (firstBlock 12 files files.length * blockSize) := by
  have hcount := h.count
  simp only [maxFiles] at hcount
  refine (ascending_inodes _).append (h.ascending_contents.of_le ?_)
  rw [length_place]
  change 4 * 4096 + (2 + files.length) * 64 ≤ 11 * 4096
  omega

end

lemma bitmapPiece_bounds {files : List InputFile}
    (hp : p ∈ [ibitmapPiece files, dbitmapPiece files]) :
    2 * 4096 ≤ p.1 ∧ p.1 + p.2.length ≤ 4 * 4096 := by
  simp only [mem_cons, not_mem_nil, or_false] at hp
  rcases hp with rfl | rfl
  · simp [ibitmapPiece, superBlock, blockSize]
  · simp [dbitmapPiece, superBlock, blockSize]

lemma Accepted.piece_bounds (h : Accepted files) (hp : p ∈ pieces (place 12 files)) :
    p.1 + p.2.length ≤ inodeOffset 0 ∨
      inodeOffset 1 ≤ p.1 ∧ p.1 + p.2.length ≤ inodeOffset (2 + files.length) ∨
        11 * 4096 ≤ p.1 := by
  rcases mem_append.mp hp with hp | hp
  · rcases mem_cons.mp hp with rfl | hp
    · exact .inl (by decide)
    · rcases mem_append.mp hp with hp | hp
      · have hbounds := (ascending_inodes _).mem hp
        rw [length_place] at hbounds
        exact .inr (.inl hbounds)
      · exact .inr (.inr (h.ascending_contents.mem hp).1)
  · exact .inl (bitmapPiece_bounds hp).2

lemma Accepted.apart (h : Accepted files) : (pieces (place 12 files)).Pairwise Apart := by
  have hrest := h.ascending
  refine pairwise_append.mpr ⟨.cons (fun p hp => .inl ?_) hrest.pairwise, ?_, fun p hp q hq => ?_⟩
  · exact le_trans (by decide) (hrest.mem hp).1
  · refine .cons (fun p hp => .inl ?_) (.cons (fun p hp => ?_) .nil)
    · rw [mem_singleton.mp hp]
      simp [ibitmapPiece, dbitmapPiece, superBlock, blockSize]
    · cases hp
  · obtain ⟨hlo, hhi⟩ := bitmapPiece_bounds hq
    rcases mem_cons.mp hp with rfl | hp
    · exact .inl (le_trans (by decide) hlo)
    · exact .inr (le_trans hhi (le_trans (by decide) (hrest.mem hp).1))

lemma Accepted.image_of_mem (h : Accepted files) (hp : (o, data) ∈ pieces (place 12 files))
    (hi : i < data.length) : image files (o + i) = data[i] := Bytes.writes_of_mem h.apart hp hi

end Pieces

end FrostVista.Mkfs
