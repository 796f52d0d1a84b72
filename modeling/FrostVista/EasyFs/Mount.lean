import FrostVista.EasyFs.DirMap
import FrostVista.EasyFs.Mkfs

/-!
# EasyFS: mounting an image

The kernel mounts the images that `mkfs` makes: the root directory shows the files under their
names, and the volume is in order.
-/
namespace FrostVista.EasyFs

open Lib Lib.Comp Kernel List Bytes Volume Mkfs

open Namei (Name sameName sameName_iff dirsiz)

/-! ## Mounting -/

def easyfsMagic : Nat := 0x0B8EE2E0

def superBlock : Nat := 1

/-- `SUPER_INUM`, the number of the root directory -/
def superInum : Nat := 1

/-- `easyfs_mount` -/
def mount : FsProg Bool := do
  let buf ← bread superBlock
  brelse superBlock
  pure (buf.load 0 4 = easyfsMagic)

/-- `easyfs_mount_root`, when nothing is mounted; the result is `vfs_root`. -/
def mountRoot : FsProg (Option SlotId) := do
  if ← mount then getVfsInode superInum else pure none

/-- The kernel after `icache_init`, with a disk that holds the image. -/
def booted (img : Bytes) : Fs where
  blk := img.block bsize
  busy _ := false
  slot _ := ⟨0, 0, 0, 0, 0, 0, fun _ => 0, none⟩
  order := List.finRange Namei.ninodes

/-! ## The inodes of an image -/

def noInode : DiskInode := ⟨0, 0, 0, fun _ => 0⟩

/-- The inodes that are written to an image; the others are zero. -/
def inodeAt (files : List InputFile) : Nat → DiskInode
  | 0 => noInode
  | 1 => Mkfs.rootInode files.length
  | n + 2 => (files[n]?.map InputFile.inode).getD noInode

variable {files : List HostFile} {n m i j a o : Nat} {t : Tid}

lemma onDisk_of_layout {img b : Bytes} (h : ∀ i < 64, img (Mkfs.inodeOffset n + i) = b i) :
    (onDisk (img.block bsize) n).Same (diskInode b 0) := by
  have hbyte : ∀ i < 64, img.block bsize (tableBlock n) (64 * (n % 64) + i) = b i := by
    intro i hi
    have hoff : bsize * tableBlock n + (64 * (n % 64) + i) = Mkfs.inodeOffset n + i := by
      simp only [bsize, tableBlock, inodeBlock, Mkfs.inodeOffset, Mkfs.superBlock, Mkfs.blockSize]
      omega
    rw [block_of_lt (by simp only [bsize]; omega), hoff, h i hi]
  refine ⟨?_, ?_, ?_, fun k hk => ?_⟩
  · exact load_shift fun i hi => by simpa using hbyte i (by omega)
  · exact load_shift fun i hi => by simpa [Nat.add_assoc] using hbyte (2 + i) (by omega)
  · exact load_shift fun i hi => by simpa [Nat.add_assoc] using hbyte (4 + i) (by omega)
  · exact load_shift fun i hi => by simpa [Nat.add_assoc] using hbyte (8 + (4 * k + i)) (by omega)

lemma diskInode_inodeLayout (htype : d.type < 2 ^ 16) (hnlinks : d.nlinks < 2 ^ 16)
    (hsize : d.size < 2 ^ 32) (hblocks : ∀ i < 12, d.blocks i < 2 ^ 32) :
    (diskInode (inodeLayout d) 0).Same d := by
  have hlayout : inodeLayout d = setDiskInode zero 0 d := rfl
  rw [hlayout]
  refine (diskInode_setDiskInode zero d).trans ⟨?_, ?_, ?_, fun i hi => ?_⟩
  · exact Nat.mod_eq_of_lt htype
  · exact Nat.mod_eq_of_lt hnlinks
  · exact Nat.mod_eq_of_lt hsize
  · exact Nat.mod_eq_of_lt (hblocks i hi)

lemma inodeAt_cases (files : List HostFile) (n : Nat) : inodeAt (place 12 files) n = noInode ∨
    n = 1 ∧ inodeAt (place 12 files) n = rootInode files.length ∨
    ∃ i f, n = i + 2 ∧ files[i]? = some f ∧
      inodeAt (place 12 files) n = fileInode (firstBlock 12 files i) f.data := by
  match n with
  | 0 => exact .inl rfl
  | 1 => exact .inr (.inl ⟨rfl, by rw [inodeAt, length_place]⟩)
  | n + 2 =>
    cases hf : files[n]? with
    | none =>
      refine .inl ?_
      rw [inodeAt, getElem?_eq_none (by simpa using hf)]
      rfl
    | some f =>
      refine .inr (.inr ⟨n, f, rfl, hf, ?_⟩)
      rw [inodeAt, getElem?_place hf]
      rfl

lemma inodePiece_mem (hlo : 1 ≤ n) (hhi : n < files.length + 2) :
    inodePiece n (inodeAt (place 12 files) n) ∈ inodePieces (place 12 files) := by
  match n with
  | 1 => exact .head _
  | n + 2 =>
    have hlt : n < (place 12 files).length := by
      rw [length_place]
      omega
    refine .tail _ (mem_mapIdx.mpr ⟨n, hlt, ?_⟩)
    rw [inodeAt, getElem?_eq_getElem hlt]
    rfl

lemma inodeAt_unused (hn : ¬(1 ≤ n ∧ n < files.length + 2)) :
    inodeAt (place 12 files) n = noInode := by
  match n with
  | 0 => rfl
  | 1 => exact absurd ⟨le_rfl, by omega⟩ hn
  | n + 2 =>
    rw [inodeAt, getElem?_eq_none (by rw [length_place]; omega)]
    rfl

lemma layout_noInode : inodeLayout noInode i = 0 := by
  simp [inodeLayout, noInode, storeAll, store, zero]

variable {E : Tops} {blk : Nat → Bytes}

lemma nodeAt_direct (hdirect : ∀ i < 12, ndirect ≤ i → E n i = 0)
    (hp : isPlace path) (hnode : nodeAt E blk n path = some (.block a)) :
    ∃ i < 12, path = [i] ∧ E n i ≠ 0 ∧ a = E n i := by
  match path with
  | [] => cases hnode
  | [i] =>
    have hne : E n i ≠ 0 := fun hzero => by
      rw [nodeAt_cons, if_pos hzero] at hnode
      cases hnode
    rw [nodeAt_cons, if_neg hne] at hnode
    exact ⟨i, hp, rfl, hne, (Node.block.inj (Option.some.inj hnode)).symm⟩
  | [i, j] =>
    rw [nodeAt_cons, if_pos (hdirect i hp.2.1 hp.1)] at hnode
    cases hnode
  | [i, j, k] =>
    have hi : E n i = 0 := by
      rw [hp.1]
      exact hdirect _ (by decide) (by decide)
    rw [nodeAt_cons, if_pos hi] at hnode
    cases hnode
  | _ :: _ :: _ :: _ :: _ => exact False.elim hp

lemma owned_of_direct (hdirect : ∀ n ∈ R, ∀ i < 12, ndirect ≤ i → E n i = 0)
    (hinj : ∀ n ∈ R, ∀ m ∈ R, ∀ i < 12, ∀ j < 12, E n i ≠ 0 → E n i = E m j → n = m ∧ i = j)
    (hblock : ∀ n ∈ R, ∀ i < 12, E n i ≠ 0 →
      dataBlock ≤ E n i ∧ E n i < totalBlocks ∧ allocated blk (E n i) = true) : Owned R E blk := by
  refine ⟨?_, fun n hn path hp a hnode => ?_⟩
  · rintro _ ⟨n, hn, rfl⟩ _ ⟨m, hm, rfl⟩ path path' hp hp' q hq hq'
    cases q with
    | inode k =>
      obtain ⟨rfl, rfl⟩ := nodeAt_inode hq
      obtain ⟨rfl, rfl⟩ := nodeAt_inode hq'
      exact ⟨rfl, rfl⟩
    | block a =>
      obtain ⟨i, hi, rfl, hne, rfl⟩ := nodeAt_direct (hdirect n hn) hp hq
      obtain ⟨j, hj, rfl, -, heq⟩ := nodeAt_direct (hdirect m hm) hp' hq'
      obtain ⟨rfl, rfl⟩ := hinj n hn m hm i hi j hj hne heq
      exact ⟨rfl, rfl⟩
  · obtain ⟨i, hi, rfl, hne, rfl⟩ := nodeAt_direct (hdirect n hn) hp hnode
    exact hblock n hn i hi hne

/-- The inode is in use: it is the root directory or it has an entry there. -/
def Fs.InUse (s : Fs) (n : Nat) : Prop :=
  n ≠ 0 ∧ ∃ k < s.volume.slots superInum, s.volume.inoAt superInum k = n

/-- The block belongs to an inode that is in use. -/
def Fs.UsedBlock (s : Fs) (a : Nat) : Prop :=
  ∃ n, s.InUse n ∧ ∃ path, isPlace path ∧ nodeAt (diskTops s.blk) s.blk n path = some (.block a)

def rootNames (files : List HostFile) : List Name := dot :: dotdot :: files.map HostFile.fsName

@[simp] lemma length_rootNames : (rootNames files).length = files.length + 2 := by simp [rootNames]

lemma mem_rootNames :
    name ∈ rootNames files ↔ name = dot ∨ name = dotdot ∨ ∃ f ∈ files, f.fsName = name := by
  simp [rootNames]

lemma Fs.volume_eq {s s' : Fs} (hblk : s.blk = s'.blk) : s.volume = s'.volume := by
  rw [Fs.volume, Fs.volume, hblk]

namespace Mounted

/-- The blocks of the disk that holds the image of the files. -/
abbrev disk (files : List HostFile) : Nat → Bytes := (booted (image files)).blk

abbrev vol (files : List HostFile) : Volume := (booted (image files)).volume

lemma volume_eq {s : Fs} (hblk : s.blk = disk files) : s.volume = vol files := Fs.volume_eq hblk

variable (h : Accepted files)

include h

variable {f : HostFile} {e : Mkfs.DiskDirEntry} {s : Fs} {root : SlotId} {E : Tops} {off size : Nat}

lemma blocks_le (hf : files[i]? = some f) : blocksNeeded f.data ≤ 10 := by
  have hlen := h.data f (mem_of_getElem? hf)
  rw [blocksNeeded_eq hlen]
  simp only [maxDirectBlocks, blockSize] at hlen
  omega

lemma firstBlock_le (hi : i ≤ files.length) : firstBlock 12 files i ≤ 12 + 10 * i := by
  induction i with
  | zero => exact le_rfl
  | succ i ih =>
    have hf : files[i]? = some files[i] := getElem?_eq_getElem hi
    have hle := blocks_le h hf
    have hold := ih (by omega)
    rw [firstBlock_succ hf]
    omega

lemma block_lt (hf : files[i]? = some f) (hj : j < blocksNeeded f.data) :
    12 ≤ firstBlock 12 files i + j ∧ firstBlock 12 files i + j < 662 := by
  have hi : i < files.length := (List.getElem?_eq_some_iff.mp hf).1
  have hcount := h.count
  have hle := firstBlock_le h hi.le
  have hblocks := blocks_le h hf
  have hlo : firstBlock 12 files 0 ≤ firstBlock 12 files i := firstBlock_mono (Nat.zero_le i)
  simp only [firstBlock_zero, maxFiles] at hlo hcount
  omega

lemma inode_small (n : Nat) : (inodeAt (place 12 files) n).type < 2 ^ 8 ∧
    (inodeAt (place 12 files) n).nlinks < 2 ^ 16 ∧ (inodeAt (place 12 files) n).size < 2 ^ 32 ∧
    ∀ i < 12, (inodeAt (place 12 files) n).blocks i < 2 ^ 32 := by
  rcases inodeAt_cases files n with heq | ⟨-, heq⟩ | ⟨i, f, -, hf, heq⟩
  · rw [heq]
    exact ⟨by decide, by decide, by decide, fun i _ => Nat.two_pow_pos 32⟩
  · have hcount := h.count
    rw [heq]
    refine ⟨show 0x1 < 2 ^ 8 by decide, show 2 < 2 ^ 16 by decide, ?_, fun i _ => ?_⟩
    · change (files.length + 2) * 32 < 2 ^ 32
      simp only [maxFiles] at hcount
      omega
    · change (if i = 0 then 11 else 0) < 2 ^ 32
      split_ifs <;> decide
  · have hlen := h.data f (mem_of_getElem? hf)
    rw [heq]
    refine ⟨show 0x10 < 2 ^ 8 by decide, show 1 < 2 ^ 16 by decide, ?_, fun j _ => ?_⟩
    · change f.data.length < 2 ^ 32
      simp only [maxDirectBlocks, blockSize] at hlen
      omega
    · change (if j < blocksNeeded f.data then firstBlock 12 files i + j else 0) < 2 ^ 32
      split_ifs with hj
      · have hlt := (block_lt h hf hj).2
        omega
      · decide

section
variable (hn : n < tableSize)
include hn

lemma image_inode (hi : i < 64) :
    image files (Mkfs.inodeOffset n + i) = Mkfs.inodeLayout (inodeAt (place 12 files) n) i := by
  by_cases hused : 1 ≤ n ∧ n < files.length + 2
  · have hmem := inodePiece_mem hused.1 hused.2
    have hlen : i < (Mkfs.inodeBytes (inodeAt (place 12 files) n)).length := by
      rwa [Mkfs.inodeBytes, length_copyOut]
    refine (h.image_of_mem (.tail _ (mem_append_left _ (mem_append_left _ hmem))) hlen).trans ?_
    exact (getElem_copyOut hlen).trans (congrArg _ (Nat.zero_add i))
  · rw [inodeAt_unused hused, layout_noInode]
    refine writes_of_not fun p hp hcov => ?_
    have hbounds := h.piece_bounds hp
    simp only [Piece.Covers, Mkfs.inodeOffset, Mkfs.superBlock, Mkfs.blockSize, tableSize,
      dataBlock, inodeBlock] at hcov hbounds hn
    omega

lemma onDisk_image :
    (onDisk (disk files) n).Same (inodeAt (place 12 files) n) := by
  obtain ⟨htype, hnlinks, hsize, hblocks⟩ := inode_small h n
  exact (onDisk_of_layout fun i hi => image_inode h hn hi).trans
    (diskInode_inodeLayout (htype.trans (by decide)) hnlinks hsize hblocks)

lemma tops_eq (hi : i < 12) :
    diskTops (disk files) n i = (inodeAt (place 12 files) n).blocks i :=
  (onDisk_image h hn).blocks i hi

lemma tops_cases (hi : i < 12) (hne : diskTops (disk files) n i ≠ 0) :
    n = 1 ∧ i = 0 ∧ diskTops (disk files) n i = dataBlock ∨
      ∃ k f, n = k + 2 ∧ files[k]? = some f ∧ i < blocksNeeded f.data ∧
        diskTops (disk files) n i = firstBlock 12 files k + i := by
  rw [tops_eq h hn hi] at hne ⊢
  rcases inodeAt_cases files n with heq | ⟨rfl, heq⟩ | ⟨k, f, rfl, hf, heq⟩
  · rw [heq] at hne
    exact absurd rfl hne
  · rw [heq] at hne ⊢
    have hzero : i = 0 := by
      by_contra hpos
      exact hne (if_neg hpos)
    exact .inl ⟨rfl, hzero, if_pos hzero⟩
  · rw [heq] at hne ⊢
    have hlt : i < blocksNeeded f.data := by
      by_contra hge
      exact hne (if_neg hge)
    exact .inr ⟨k, f, rfl, hf, hlt, if_pos hlt⟩

end

/-! ### The bitmaps -/

lemma bit_image {b : Bytes} (c : Nat)
    (hp : (c * blockSize, b.copyOut 0 blockSize) ∈ pieces (place 12 files)) :
    (disk files c).bit n = true ↔ n < 8 * bsize ∧ b.bit n = true := by
  by_cases hn : n < 8 * bsize
  · have hbyte : n / 8 < (b.copyOut 0 blockSize).length := by
      rw [length_copyOut]
      simp only [bsize, blockSize] at hn ⊢
      omega
    have heq : disk files c (n / 8) = b (n / 8) := by
      have hsize : bsize = blockSize := rfl
      refine (block_of_lt (by simp only [bsize] at hn ⊢; omega)).trans ?_
      rw [Nat.mul_comm, hsize, h.image_of_mem hp hbyte, getElem_copyOut, Nat.zero_add]
    rw [bit_congr heq, and_iff_right hn]
  · have hzero : disk files c (n / 8) = zero (n / 8) :=
      if_neg (by simp only [bsize] at hn ⊢; omega)
    rw [Bytes.bit_congr hzero, Bytes.bit_zero]
    simp [hn]

lemma marked_image : (disk files inoblkBmip).bit n = true ↔ n < files.length + 2 := by
  have hcount := h.count
  have hpiece : ibitmapPiece (place 12 files) ∈ pieces (place 12 files) :=
    mem_append_right _ (.head _)
  rw [bit_image h inoblkBmip hpiece, ibitmap, bit_ofBits, mem_range, length_place]
  simp only [bsize, maxFiles] at hcount ⊢
  omega

lemma mem_dataBits : (a ∈ (place 12 files).flatMap fun f =>
      (range f.blocks).map fun j => f.inode.blocks j - Mkfs.superBlock.dataAreaStart) ↔
    ∃ i f j, files[i]? = some f ∧ j < blocksNeeded f.data ∧ a + dataBlock =
      firstBlock 12 files i + j := by
  rw [mem_flatMap]
  constructor
  · rintro ⟨g, hg, ha⟩
    obtain ⟨i, hi⟩ := mem_iff_getElem?.mp hg
    obtain ⟨j, hj, rfl⟩ := mem_map.mp ha
    have hlt : i < files.length := by
      have := (List.getElem?_eq_some_iff.mp hi).1
      rwa [Mkfs.length_place] at this
    have hf : files[i]? = some files[i] := getElem?_eq_getElem hlt
    rw [Mkfs.getElem?_place hf] at hi
    obtain rfl := Option.some.inj hi
    have hj : j < blocksNeeded files[i].data := mem_range.mp hj
    have hlo := (block_lt h hf hj).1
    refine ⟨i, files[i], j, hf, hj, ?_⟩
    simp only [fileInode, if_pos hj, Mkfs.superBlock, dataBlock]
    omega
  · rintro ⟨i, f, j, hf, hj, heq⟩
    refine ⟨_, mem_of_getElem? (Mkfs.getElem?_place hf), mem_map.mpr ⟨j, mem_range.mpr hj, ?_⟩⟩
    simp only [fileInode, if_pos hj, Mkfs.superBlock]
    simp only [dataBlock] at heq
    omega

lemma allocated_image : (disk files dablkBmip).bit a = true ↔
    a = 0 ∨ ∃ i f j, files[i]? = some f ∧ j < blocksNeeded f.data ∧
      a + dataBlock = firstBlock 12 files i + j := by
  have hpiece : dbitmapPiece (place 12 files) ∈ pieces (place 12 files) :=
    mem_append_right _ (.tail _ (.head _))
  rw [bit_image h dablkBmip hpiece, dbitmap, bit_ofBits, mem_cons, mem_dataBits h]
  constructor
  · rintro ⟨-, hbit⟩
    exact hbit
  · rintro hbit
    refine ⟨?_, hbit⟩
    rcases hbit with rfl | ⟨i, f, j, hf, hj, heq⟩
    · decide
    · have hlt := (block_lt h hf hj).2
      simp only [bsize, dataBlock] at heq ⊢
      omega

/-! ### The trees and the files -/

lemma owned_image : Owned table (diskTops (disk files)) (disk files) := by
  refine owned_of_direct (fun n hn i hi hge => ?_) (fun n hn m hm i hi j hj hne heq => ?_)
    fun n hn i hi hne => ?_
  · by_contra hne
    rcases tops_cases h hn hi hne with ⟨-, rfl, -⟩ | ⟨k, f, -, hf, hlt, -⟩
    · exact absurd hge (by decide)
    · have hle := blocks_le h hf
      simp only [ndirect] at hge
      omega
  · rcases tops_cases h hn hi hne with ⟨rfl, rfl, hv⟩ | ⟨k, f, rfl, hf, hlt, hv⟩ <;>
      rcases tops_cases h hm hj (heq ▸ hne) with ⟨rfl, rfl, hw⟩ | ⟨l, g, rfl, hg, hlt', hw⟩
    · exact ⟨rfl, rfl⟩
    · have hlo := (block_lt h hg hlt').1
      simp only [dataBlock] at hv
      omega
    · have hlo := (block_lt h hf hlt).1
      simp only [dataBlock] at hw
      omega
    · obtain ⟨rfl, rfl⟩ := firstBlock_inj hf hg hlt hlt' (hv.symm.trans (heq.trans hw))
      exact ⟨rfl, rfl⟩
  · rw [allocated, allocated_image h]
    rcases tops_cases h hn hi hne with ⟨-, -, hv⟩ | ⟨k, f, -, hf, hlt, hv⟩
    · rw [hv]
      exact ⟨le_rfl, by decide, .inl (by decide)⟩
    · have hbounds := block_lt h hf hlt
      rw [hv]
      simp only [dataBlock, totalBlocks]
      exact ⟨by omega, by omega, .inr ⟨k, f, i, hf, hlt, by omega⟩⟩

lemma dataNode_file (hf : files[i]? = some f) (hn : i + 2 < tableSize)
    (hj : j < blocksNeeded f.data) :
    dataNode (diskTops (disk files)) (disk files) (i + 2) j =
      some (.block (firstBlock 12 files i + j)) := by
  have hle := blocks_le h hf
  have hlo := (block_lt h hf hj).1
  have htop : diskTops (disk files) (i + 2) j = firstBlock 12 files i + j := by
    rw [tops_eq h hn (by omega), inodeAt, getElem?_place hf]
    exact if_pos hj
  have hdirect : j < ndirect := by
    simp only [ndirect]
    omega
  refine dataNode_eq_some.mpr ⟨hdirect.trans (by decide), ?_⟩
  rw [blockPath, if_pos hdirect, nodeAt_cons, htop, if_neg (by omega)]
  rfl

lemma image_data (hf : files[i]? = some f) (hj : j < blocksNeeded f.data) (ho : o < bsize) :
    disk files (firstBlock 12 files i + j) o = f.data.getD (bsize * j + o) 0 := by
  have hmem : ((firstBlock 12 files i + j) * blockSize, rwBuffer f.data j) ∈ pieces
    (place 12 files) := by
    refine mem_append_left _ (.tail _ (mem_append_right _ (.tail _ (mem_flatMap.mpr
      ⟨_, mem_of_getElem? (getElem?_place hf), ?_⟩))))
    rw [dataPieces_eq (h.data f (mem_of_getElem? hf))]
    refine mem_map.mpr ⟨j, mem_range.mpr hj, ?_⟩
    simp only [fileInode, if_pos hj]
  have hlen : o < (rwBuffer f.data j).length := by
    rw [length_rwBuffer]
    exact ho
  have hsize : bsize = blockSize := rfl
  refine (block_of_lt ho).trans ?_
  rw [Nat.mul_comm, hsize, h.image_of_mem hmem hlen, getElem_rwBuffer]

lemma byteAt_file (hf : files[i]? = some f) (hn : i + 2 < tableSize) (o : Nat) :
    byteAt (diskTops (disk files)) (disk files) (i + 2) o = f.data.getD o 0 := by
  have hlen := h.data f (mem_of_getElem? hf)
  by_cases hj : o / bsize < blocksNeeded f.data
  · rw [byteAt, dataNode_file h hf hn hj]
    dsimp only
    rw [image_data h hf hj (Nat.mod_lt o (by decide)), Nat.div_add_mod]
  · have hle := blocks_le h hf
    have hge : blocksNeeded f.data ≤ topIndex (o / bsize) := by
      unfold topIndex
      split_ifs <;> grind [sindirect, dindirect]
    have htop : diskTops (disk files) (i + 2) (topIndex (o / bsize)) = 0 := by
      rw [tops_eq h hn (topIndex_lt _), inodeAt, getElem?_place hf]
      exact if_neg (by omega)
    rw [byteAt_of_top htop, getD_eq_default]
    rw [blocksNeeded_eq hlen] at hj
    simp only [bsize] at hj
    omega

/-! ### The root directory -/

lemma dataNode_root : dataNode (diskTops (disk files)) (disk files) 1 0 =
    some (.block dataBlock) := by
  have htop : diskTops (disk files) 1 0 = dataBlock := by
    rw [tops_eq h (by decide) (by decide)]
    rfl
  refine dataNode_eq_some.mpr ⟨by decide, ?_⟩
  rw [blockPath, if_pos (by decide), nodeAt_cons, htop, if_neg (by decide)]
  rfl

lemma image_root (hk : m < files.length + 2) (hi : i < 32)
    (he : (rootEntries (place 12 files))[m]? = some e) :
    disk files dataBlock (32 * m + i) = e.bytes.getD i 0 := by
  have hcount := h.count
  have hmem : (dataBlock * blockSize, (rootEntries (place 12 files)).flatMap DiskDirEntry.bytes) ∈
      pieces (place 12 files) := mem_append_left _ (.tail _ (mem_append_right _ (.head _)))
  have hlen : 32 * m + i < ((rootEntries (place 12 files)).flatMap DiskDirEntry.bytes).length := by
    have hroot := @Accepted.length_rootPiece 12 files h
    simp only [rootPiece] at hroot
    omega
  have hsize : bsize = blockSize := rfl
  have hblock : 32 * m + i < bsize := by
    simp only [bsize, maxFiles] at hcount ⊢
    omega
  obtain ⟨hlt, rfl⟩ := List.getElem?_eq_some_iff.mp he
  refine (block_of_lt hblock).trans ?_
  rw [Nat.mul_comm bsize, hsize, h.image_of_mem hmem hlen, ← getD_eq_getElem _ 0 hlen,
    getD_flatMap (fun e he => h.length_entry he) hlt hi]

lemma entry_root (he : (rootEntries (place 12 files))[m]? = some e) :
    (vol files).entry 1 m = e.bytes := by
  have hcount := h.count
  have hm : m < files.length + 2 := by
    have hlt := (List.getElem?_eq_some_iff.mp he).1
    rwa [length_rootEntries, length_place] at hlt
  have hlen := h.length_entry (mem_of_getElem? he)
  refine ext_getElem ?_ fun i hi hi' => ?_
  · rw [hlen]
    exact length_copyOut
  · rw [hlen] at hi'
    have hdiv : (32 * m + i) / bsize = 0 := by
      simp only [bsize, maxFiles] at hcount ⊢
      omega
    have hmod : (32 * m + i) % bsize = 32 * m + i := by
      simp only [bsize, maxFiles] at hcount ⊢
      omega
    refine (getElem_copyOut hi).trans ?_
    change byteAt _ _ 1 (32 * m + i) = _
    rw [byteAt, hdiv, dataNode_root h]
    dsimp only
    rw [hmod]
    exact (image_root h hm hi' he).trans (getD_eq_getElem _ _ (by omega))

lemma info_eq (hn : n < tableSize) :
    (vol files).info n = (inodeAt (place 12 files) n).info := (onDisk_image h hn).info_eq

lemma info_root : (vol files).info 1 = ⟨vfsDir, 2, (files.length + 2) * 32⟩ := by
  rw [info_eq h (by decide), inodeAt, length_place]
  rfl

lemma info_file (hf : files[i]? = some f) (hn : i + 2 < tableSize) :
    (vol files).info (i + 2) = ⟨vfsFile, 1, f.data.length⟩ := by
  rw [info_eq h hn, inodeAt, getElem?_place hf]
  rfl

lemma eq_root (hn : n < tableSize) (hd : (vol files).IsDir n) : n = 1 := by
  have htype := hd.2
  rw [info_eq h hn] at htype
  rcases inodeAt_cases files n with heq | ⟨rfl, -⟩ | ⟨k, f, -, -, heq⟩
  · rw [heq] at htype
    exact absurd htype (by decide)
  · rfl
  · rw [heq] at htype
    exact absurd (show vfsFile = vfsDir from htype) (by decide)

lemma sound : Sound ∅ (booted (image files)) (diskTops (disk files)) (vol files) where
  quiet _ := rfl
  disk := by
    refine ⟨owned_image h, fun n _ => ⟨fun i _ => .inr rfl, fun o ho => byteAt_of_top ho⟩,
      fun _ => rfl,
      fun _ _ => rfl, fun _ _ _ => rfl, fun n hn hd => ⟨fun _ _ => rfl, ?_⟩, fun n hn hfree => ?_⟩
    · obtain rfl := eq_root h hn hd
      have hcount := h.count
      intro o _ hlt
      have hdiv : o / bsize = 0 := by
        rw [info_root h] at hlt
        simp only [bsize, maxFiles] at hcount hlt ⊢
        omega
      rw [hdiv]
      exact ⟨_, dataNode_root h⟩
    · have hge : ¬(1 ≤ n ∧ n < files.length + 2) := fun hused => by
        have hmark := (marked_image h).mpr hused.2
        rw [show (disk files inoblkBmip).bit n = false from hfree] at hmark
        cases hmark
      have hempty := inodeAt_unused hge
      rw [info_eq h hn, hempty]
      refine ⟨rfl, fun i hi => ?_⟩
      rw [tops_eq h hn hi, hempty]
      rfl
  order := mem_finRange
  unique i j _ _ _ hpos := absurd rfl hpos
  cached i _ hc := absurd (show 1 ≤ 0 from hc) (by decide)

lemma marked_volume : (vol files).marked n = true ↔ n < files.length + 2 := marked_image h

lemma isDir_root : (vol files).IsDir 1 :=
  ⟨(marked_volume h).mpr (by omega), by rw [info_root h]⟩

lemma slots_root : (vol files).slots 1 = files.length + 2 := by
  rw [slots, info_root h]
  dsimp only
  omega

lemma root_cases (hm : m < files.length + 2) : (vol files).inoAt 1 m = 1 ∧
        (m = 0 ∧ (vol files).nameAt 1 m = dot ∨
          m = 1 ∧ (vol files).nameAt 1 m = dotdot) ∨
      ∃ i f, m = i + 2 ∧ files[i]? = some f ∧ (vol files).inoAt 1 m = i + 2 ∧
        (0 ∉ f.fsName → (vol files).nameAt 1 m = f.fsName) := by
  have hentry : ∀ e, (rootEntries (place 12 files))[m]? = some e →
      (vol files).inoAt 1 m = e.inodeNum % 2 ^ 32 ∧
        (0 ∉ e.name → (vol files).nameAt 1 m = e.name) := by
    intro e he
    rw [inoAt, nameAt, entry_root h he]
    exact ⟨entryIno_append .., fun hnul => entryName_append length_copyOut hnul _⟩
  rcases m with _ | _ | m
  · obtain ⟨hino, hname⟩ := hentry _ rfl
    exact .inl ⟨hino, .inl ⟨rfl, hname (by decide)⟩⟩
  · obtain ⟨hino, hname⟩ := hentry _ rfl
    exact .inl ⟨hino, .inr ⟨rfl, hname (by decide)⟩⟩
  · have hcount := h.count
    have hlt : m < files.length := by omega
    have hf : files[m]? = some files[m] := getElem?_eq_getElem hlt
    have he : (rootEntries (place 12 files))[m + 2]? = some ⟨m + 2, files[m].fsName⟩ := by
      simp [rootEntries, getElem?_place hf]
    obtain ⟨hino, hname⟩ := hentry _ he
    refine .inr ⟨m, files[m], rfl, hf, hino.trans (Nat.mod_eq_of_lt ?_), hname⟩
    change m + 2 < 2 ^ 32
    simp only [maxFiles] at hcount
    omega

lemma find_dot : (vol files).find superInum dot = some 0 ∧
    (vol files).inoAt superInum 0 = superInum := by
  have hcases := root_cases h (show 0 < files.length + 2 by omega)
  have hentry : (vol files).inoAt 1 0 = 1 ∧ (vol files).nameAt 1 0 = dot := by
    grind
  refine ⟨?_, hentry.1⟩
  rw [superInum, find, scan_of_le (by rw [info_root h]; dsimp only; omega), if_pos]
  change decide ((vol files).inoAt 1 0 ≠ 0 ∧
    sameName dot ((vol files).nameAt 1 0) = true) = true
  rw [hentry.1, hentry.2]
  decide

lemma file_lt (hf : files[i]? = some f) : i + 2 < tableSize ∧ i + 2 < files.length + 2 := by
  have hlt := (List.getElem?_eq_some_iff.mp hf).1
  have hcount := h.count
  simp only [maxFiles, tableSize, dataBlock, inodeBlock] at hcount ⊢
  omega

lemma tidy_root : (vol files).Tidy 1 where
  isDir := isDir_root h
  whole := by
    rw [info_root h]
    dsimp only
    omega
  live k hk _ := by
    rw [slots_root h] at hk
    rcases root_cases h hk with ⟨hino, -⟩ | ⟨i, f, -, hf, hino, -⟩
    · rw [hino, info_root h]
      exact ⟨by decide, (marked_volume h).mpr (by omega), show vfsDir < 2 ^ 8 by decide⟩
    · obtain ⟨hlt, hcount⟩ := file_lt h hf
      rw [hino, info_file h hf hlt]
      exact ⟨hlt, (marked_volume h).mpr hcount, show vfsFile < 2 ^ 8 by decide⟩

lemma orderly_root : (vol files).Orderly 1 := by
  refine ⟨tidy_root h, fun j hj k hk _ heq htype => ?_, fun k hk _ hself => ?_⟩
  · rw [slots_root h] at hj hk
    rcases root_cases h hk with ⟨hino, -⟩ | ⟨i, f, rfl, hf, hino, -⟩
    · rw [hino, info_root h] at htype
      exact absurd rfl htype
    · rcases root_cases h hj with ⟨hino', -⟩ | ⟨i', f', rfl, -, hino', -⟩
      · omega
      · omega
  · rw [slots_root h] at hk
    rcases root_cases h hk with ⟨-, ⟨-, hname⟩ | ⟨-, hname⟩⟩ | ⟨i, f, -, -, hino, -⟩
    · exact .inl hname
    · exact .inr hname
    · omega

lemma nameAt_root (hnul : ∀ f ∈ files, 0 ∉ f.fsName) (hm : m < files.length + 2) :
    (rootNames files)[m]? = some ((vol files).nameAt 1 m) := by
  rcases root_cases h hm with ⟨-, ⟨rfl, hname⟩ | ⟨rfl, hname⟩⟩ | ⟨i, f, rfl, hf, -, hname⟩
  · rw [hname]
    rfl
  · rw [hname]
    rfl
  · rw [hname (hnul f (mem_of_getElem? hf))]
    simp [rootNames, hf]

lemma find_root_eq_none (hnul : ∀ f ∈ files, 0 ∉ f.fsName) (hproper : (vol files).Proper superInum)
    (name : Name) : (vol files).find superInum name = none ↔ name ∉ rootNames files := by
  rw [find_eq_none, mem_iff_getElem?]
  constructor
  · rintro hno ⟨k, hk⟩
    have hlt : k < files.length + 2 := by
      have := (List.getElem?_eq_some_iff.mp hk).1
      rwa [length_rootNames] at this
    rw [nameAt_root h hnul hlt] at hk
    have hino : (vol files).inoAt 1 k ≠ 0 := by
      rcases root_cases h hlt with ⟨hino, -⟩ | ⟨i, f, -, -, hino, -⟩
      · omega
      · omega
    have hname := hno k (by rw [superInum, slots_root h]; exact hlt) hino
    rw [← Option.some.inj hk, ← Bool.not_eq_true] at hname
    exact hname (by simp [sameName, superInum])
  · intro hno k hlt hpos
    rw [← Bool.not_eq_true, sameName_iff (hproper.short k hlt hpos)]
    rintro rfl
    rw [superInum, slots_root h] at hlt
    exact hno ⟨k, nameAt_root h hnul hlt⟩

lemma proper_root (hnames : (rootNames files).Nodup) (hvalid : ∀ f ∈ files, ValidName f.fsName) :
    (vol files).Proper 1 := by
  have hname : ∀ m < files.length + 2, (rootNames files)[m]? = some ((vol files).nameAt 1 m) :=
    fun m hm => nameAt_root h (fun f hf => (hvalid f hf).bytes) hm
  refine ⟨orderly_root h, fun k hk _ => ?_, fun j k p q hj hk heq => ?_⟩
  · rw [slots_root h] at hk
    have hmem := mem_of_getElem? (hname k hk)
    simp only [rootNames, mem_cons, mem_map] at hmem
    rcases hmem with heq | heq | ⟨f, hf, heq⟩
    · rw [heq]
      decide
    · rw [heq]
      decide
    · rw [← heq]
      exact (hvalid f hf).short
  · obtain ⟨hj', -, rfl⟩ := getElem?_listing_eq_some.mp hj
    obtain ⟨hk', -, rfl⟩ := getElem?_listing_eq_some.mp hk
    rw [slots_root h] at hj' hk'
    refine (getElem?_inj ?_ hnames).mp ?_
    · rwa [length_rootNames]
    · rw [hname j hj', hname k hk']
      exact congrArg some heq

/-! ### Mounting -/

lemma run_mount :
    (runAs t mount).run (booted (image files)) = .ok (true, booted (image files)) := by
  have hbytes : ∀ i < 4, disk files superBlock (0 + i) =
      store zero 0 4 easyfsMagic (0 + i) := by
    intro i hi
    have hlen : i < Mkfs.superBlock.bytes.length := by
      rw [Mkfs.DiskSuperBlock.bytes, length_copyOut]
      omega
    rw [Nat.zero_add]
    refine (block_of_lt (by simp only [bsize]; omega)).trans ?_
    refine (h.image_of_mem (mem_append_left _ (.head _)) hlen).trans ?_
    simp only [DiskSuperBlock.bytes, getElem_copyOut, Nat.zero_add]
    rw [store_of_not (by omega), store_of_not (by omega), store_of_not (by omega),
      store_of_not (by omega), store_of_not (by omega)]
    rfl
  have hmagic : (disk files superBlock).load 0 4 = easyfsMagic :=
    (load_shift hbytes).trans load_store_same
  rw [mount, Prog.run_bind_ok (run_bread rfl), Prog.run_bind_ok run_brelse,
    setBusy_setBusy rfl, hmagic]
  rfl

lemma run_mountRoot :
    ∃ root s, (runAs t mountRoot).run (booted (image files)) = .ok (some root, s) ∧
    Serves root superInum s ∧ s.blk = disk files := by
  have hs := sound h
  have hroom : (booted (image files)).cache.Room superInum := .inr ⟨⟨0, by decide⟩, rfl⟩
  rw [mountRoot, Prog.run_bind_ok (run_mount h)]
  rcases hs.getVfsInode (t := t) (m := superInum) (by decide) (by decide)
    (by rw [superInum, info_root h]; exact show vfsDir < 2 ^ 8 by decide) with
    ⟨hno, -⟩ | ⟨-, root, s, hrun, -, hcache, hblk, E', hs'⟩
  · exact absurd hroom hno
  · have hvolume := volume_eq hblk
    refine ⟨root, s, hrun, ⟨⟨E', hvolume ▸ hs'⟩, fun i => ?_, ?_, ?_⟩, hblk⟩
    · rw [hcache]
      by_cases hi : i = root
      · rw [hi, Cache.own_owners_self]
      · rw [Cache.own_owners_of_ne hi, Cache.take_owners]
        rfl
    · rw [hcache]
      exact Cache.has_take.own
    · -- the other slots are still free
      obtain ⟨i, hi⟩ : ∃ i : SlotId, i ≠ root := by
        by_cases hroot : root = ⟨0, by decide⟩
        · exact ⟨⟨1, by decide⟩, by rw [hroot]; decide⟩
        · exact ⟨_, Ne.symm hroot⟩
      refine ⟨i, ?_⟩
      rw [hcache]
      exact Function.update_of_ne hi ..

lemma dirHolds (hnames : (rootNames files).Nodup) (hvalid : ∀ f ∈ files, ValidName f.fsName) :
    ∃ root s, (runAs t mountRoot).run (booted (image files)) = .ok (some root, s) ∧
      DirHolds root superInum s ∧ s.blk = disk files := by
  obtain ⟨root, s, hrun, hserves, hblk⟩ := run_mountRoot h (t := t)
  refine ⟨root, s, hrun, ⟨hserves, ?_⟩, hblk⟩
  rw [volume_eq hblk]
  exact proper_root h hnames hvalid

variable (hblk : s.blk = disk files)

include hblk

lemma hasFree : s.volume.HasFree := by
  have hcount := h.count
  simp only [maxFiles] at hcount
  refine ⟨files.length + 2, by omega, ?_, ?_⟩
  · simp only [tableSize, dataBlock, inodeBlock]
    omega
  · rw [volume_eq hblk, ← Bool.not_eq_true, marked_volume h]
    omega

lemma hole_root (hs : Serves root superInum s) :
    32 * s.volume.hole superInum + 32 < 2 ^ 32 ∧ s.lacks superInum (32 * s.volume.hole superInum) =
      0 := by
  obtain ⟨E, hsound⟩ := hs.sound
  have hcount := h.count
  have hhole : s.volume.hole superInum ≤ files.length + 2 := by
    refine hole_le.trans_eq ?_
    rw [volume_eq hblk]
    exact slots_root h
  have hsize : 0 < (s.volume.info superInum).size := by
    rw [volume_eq hblk, superInum, info_root h]
    exact Nat.mul_pos (by omega) (by decide)
  have hdir : s.volume.IsDir superInum := by
    rw [volume_eq hblk]
    exact (orderly_root h).tidy.isDir
  simp only [maxFiles] at hcount
  refine ⟨by omega, hsound.lacks_eq_zero hs.lt hdir hsize ?_⟩
  simp only [bsize]
  omega

lemma linkable (hs : Serves root superInum s) : Linkable s.volume s superInum := by
  obtain ⟨hlt, hlacks⟩ := hole_root h hblk hs
  exact ⟨hlt, hlacks ▸ Nat.zero_le _⟩

/-! ### What is in use -/

lemma inUse_iff : s.InUse n ↔ 1 ≤ n ∧ n < files.length + 2 := by
  rw [Fs.InUse, volume_eq hblk, superInum, slots_root h]
  constructor
  · rintro ⟨hpos, k, hk, hino⟩
    rcases root_cases h hk with ⟨hone, -⟩ | ⟨i, f, -, hf, hfile, -⟩
    · omega
    · have hlt := (file_lt h hf).2
      omega
  · rintro ⟨hlo, hhi⟩
    refine ⟨by omega, ?_⟩
    by_cases hone : n = 1
    · refine ⟨0, by omega, ?_⟩
      rcases root_cases h (show 0 < files.length + 2 by omega) with ⟨hino, -⟩ | ⟨i, f, hi, -⟩
      · omega
      · omega
    · refine ⟨n, hhi, ?_⟩
      rcases root_cases h hhi with ⟨-, ⟨hzero, -⟩ | ⟨hzero, -⟩⟩ | ⟨i, f, hi, -, hino, -⟩
      · omega
      · omega
      · omega

lemma usedBlock_iff (hlo : dataBlock ≤ a) :
    s.UsedBlock a ↔ (s.blk dablkBmip).bit (a - dataBlock) = true := by
  have htable : ∀ n, s.InUse n → n < tableSize := by
    intro n hn
    have hcount := h.count
    rw [inUse_iff h hblk] at hn
    simp only [maxFiles, tableSize, dataBlock, inodeBlock] at hcount ⊢
    omega
  constructor
  · rintro ⟨n, hn, path, hp, hnode⟩
    rw [hblk] at hnode ⊢
    exact ((owned_image h).block n (htable n hn) path hp a hnode).2.2
  · intro hbit
    rw [hblk, allocated_image h] at hbit
    unfold Fs.UsedBlock
    rw [hblk]
    rcases hbit with hzero | ⟨i, f, j, hf, hj, heq⟩
    · obtain rfl : a = dataBlock := by omega
      obtain ⟨hlt, hnode⟩ := dataNode_eq_some.mp (dataNode_root h)
      exact ⟨1, (inUse_iff h hblk).mpr ⟨le_rfl, by omega⟩, _, isPlace_blockPath hlt, hnode⟩
    · obtain rfl : a = firstBlock 12 files i + j := by omega
      obtain ⟨htab, hcount⟩ := file_lt h hf
      obtain ⟨hlt, hnode⟩ := dataNode_eq_some.mp (dataNode_file h hf htab hj)
      exact ⟨i + 2, (inUse_iff h hblk).mpr ⟨by omega, hcount⟩, _, isPlace_blockPath hlt, hnode⟩

/-! ### Reading the files -/

lemma covered_file (hs : Sound ∅ s E v) (hf : files[i]? = some f)
    (hend : off + size ≤ f.data.length) : Covered E s.blk (i + 2) off size := by
  have hn := (file_lt h hf).1
  have hlen := h.data f (mem_of_getElem? hf)
  intro o hlo hhi
  have hj : o / bsize < blocksNeeded f.data := by
    rw [blocksNeeded_eq hlen]
    simp only [bsize]
    omega
  have hle := blocks_le h hf
  have hpos := (block_lt h hf hj).1
  have htop : (onDisk s.blk (i + 2)).blocks (o / bsize) = firstBlock 12 files i + o / bsize := by
    rw [hblk]
    refine (tops_eq h hn (by omega)).trans ?_
    rw [inodeAt, getElem?_place hf]
    exact if_pos hj
  have hE : E (i + 2) (o / bsize) = firstBlock 12 files i + o / bsize := by
    rcases (hs.disk.backed _ hn).le (o / bsize) (by omega) with hzero | heq
    · omega
    · rw [← heq, htop]
  have hdirect : o / bsize < ndirect := by
    simp only [ndirect]
    omega
  refine ⟨firstBlock 12 files i + o / bsize, dataNode_eq_some.mpr ⟨hdirect.trans (by decide), ?_⟩⟩
  rw [blockPath, if_pos hdirect, nodeAt_cons, hE, if_neg (by omega)]
  rfl

lemma run_readFile (hs : Sound ∅ s E (vol files)) (hf : files[i]? = some f)
    (hip : s.cache.Has ip (i + 2)) (hle : off ≤ f.data.length) (hend : off + size < 2 ^ 32) :
    (runAs t (readInode ip off size)).run s = .ok (some ((f.data.drop off).take size), s) := by
  have hinfo := info_file h hf (file_lt h hf).1
  have hsize : ((vol files).info (i + 2)).size = f.data.length := by rw [hinfo]
  have hbyte : (vol files).byte (i + 2) = fun o => f.data.getD o 0 :=
    funext (byteAt_file h hf (file_lt h hf).1)
  rw [hs.run_readCovered (Set.notMem_empty ip) hip (hsize ▸ hle) hend
    (covered_file h hblk hs hf (by rw [hsize]; omega)), hsize, hbyte, take_drop_eq_copyOut]

lemma lookup_root (hnul : ∀ f ∈ files, 0 ∉ f.fsName) (hs : DirHolds root superInum s)
    (name : Name) :
    Total (runAs t (lookup root name)) s fun r s' => s'.blk = disk files ∧
      (r = none ∧ name ∉ rootNames files ∨
        ∃ k i, k < files.length + 2 ∧ (vol files).nameAt 1 k = name ∧ r = some (i, 32 * k) ∧
          s'.cache.Has i ((vol files).inoAt 1 k) ∧
          ∃ E, Sound ∅ s' E (vol files)) := by
  obtain ⟨E, hsound⟩ := hs.sound
  have hproper := hs.proper
  have hmissing := hs.toServes.missing_iff name
  rw [volume_eq hblk] at hsound hproper hmissing
  refine (hsound.lookup hs.has hproper.tidy name).mono ?_
  rintro r s' ⟨hblk', ⟨hm, rfl, rfl⟩ | ⟨k, i, hk, -, rfl, -, hcache, E', h'⟩⟩
  · exact ⟨hblk, .inl ⟨rfl, (find_root_eq_none h hnul hproper name).mp (hmissing.mp hm)⟩⟩
  · obtain ⟨hlt, hpos, hsame⟩ := find_eq_some hk
    rw [sameName_iff (hproper.short k hlt hpos)] at hsame
    rw [superInum, slots_root h] at hlt
    exact ⟨hblk'.trans hblk, .inr ⟨k, i, hlt, hsame.symm, rfl, hcache ▸ Cache.has_take.own, E', h'⟩⟩

end Mounted

/-- `mkfs` and the kernel agree on the disk: on a mounted image looking up finds `.`, `..` and the
names of the files, and nothing else, each file has its bytes and its length, and the bitmaps mark
the inodes and the blocks that are in use. The number 0, which stands for no inode, is marked
too. -/
theorem mkfs_agrees {host : List Byte → Option (List Byte)} {specs : List (List Byte)}
    (hin : Mkfs.inputs host specs = .ok files)
    (hsize : ∀ f ∈ files, f.data.length ≤ Mkfs.maxDirectBlocks * Mkfs.blockSize)
    (hnames : (files.map HostFile.fsName).Nodup)
    (hvalid : ∀ f ∈ files, ValidName f.fsName ∧ f.fsName ≠ dot ∧ f.fsName ≠ dotdot) (t : Tid) :
    ∃ img, Mkfs.mkfs host specs = .ok img ∧ ∃ root s, (runAs t mountRoot).run (booted img) =
      .ok (some root, s) ∧
      (∀ name, Total (runAs t (lookup root name)) s fun r s' =>
        (r.isSome = true ↔ name = dot ∨ name = dotdot ∨ ∃ f ∈ files, f.fsName = name) ∧
        (name = dot ∨ name = dotdot → ∃ i off, r = some (i, off) ∧ (s'.slot i).ino = superInum) ∧
        ∀ f ∈ files, f.fsName = name → ∃ i off, r = some (i, off) ∧
          (s'.slot i).size = f.data.length ∧
          ∀ off size, off ≤ f.data.length → off + size < 2 ^ 32 →
            (runAs t (readInode i off size)).run s' =
              .ok (some ((f.data.drop off).take size), s')) ∧
      (∀ n, (s.blk inoblkBmip).bit n = true ↔ n = 0 ∨ s.InUse n) ∧
      ∀ a, dataBlock ≤ a → ((s.blk dablkBmip).bit (a - dataBlock) = true ↔ s.UsedBlock a) := by
  have h := Mkfs.accepted_of_inputs hin hsize
  have hroot : (rootNames files).Nodup := by
    have hdots : ∀ x ∈ files.map HostFile.fsName, x ≠ dot ∧ x ≠ dotdot := by
      intro x hx
      obtain ⟨f, hf, rfl⟩ := mem_map.mp hx
      exact (hvalid f hf).2
    refine nodup_cons.mpr
      ⟨fun hmem => ?_, nodup_cons.mpr ⟨fun hmem => (hdots _ hmem).2 rfl, hnames⟩⟩
    rcases mem_cons.mp hmem with heq | hmem
    · exact absurd heq (by decide)
    · exact (hdots _ hmem).1 rfl
  have hnul : ∀ f ∈ files, 0 ∉ f.fsName := fun f hf => (hvalid f hf).1.bytes
  obtain ⟨root, s, hrun, hholds, hblk⟩ := Mounted.dirHolds h (t := t) hroot fun f hf =>
    (hvalid f hf).1
  refine ⟨image files, ?_, root, s, hrun, fun name => ?_, fun n => ?_, fun a ha =>
    (Mounted.usedBlock_iff h hblk ha).symm⟩
  · rw [Mkfs.mkfs, hin]
    rfl
  · refine (Mounted.lookup_root h hblk hnul hholds name).mono ?_
    rintro r s' ⟨hblk', ⟨rfl, hno⟩ | ⟨k, i, hk, hname, rfl, hi, E, hs'⟩⟩
    · rw [mem_rootNames, not_or, not_or] at hno
      obtain ⟨hdot, hdotdot, hfile⟩ := hno
      exact ⟨iff_of_false Bool.false_ne_true (not_or.mpr ⟨hdot, not_or.mpr ⟨hdotdot, hfile⟩⟩),
        fun hdots => absurd hdots (not_or.mpr ⟨hdot, hdotdot⟩), fun f hf heq =>
          absurd ⟨f, hf, heq⟩ hfile⟩
    · have hmem : name ∈ rootNames files := mem_of_getElem? (hname ▸ Mounted.nameAt_root h hnul hk)
      refine ⟨iff_of_true rfl (mem_rootNames.mp hmem), fun hdots =>
        ⟨i, _, rfl, ?_⟩, fun f hf heq => ?_⟩
      · rcases Mounted.root_cases h hk with ⟨hino, -⟩ | ⟨j, f, -, hf, -, hfile⟩
        · exact hi.ino.trans hino
        · have hmem := mem_of_getElem? hf
          rw [hfile (hnul f hmem)] at hname
          rcases hdots with heq | heq
          · exact absurd (hname.trans heq) (hvalid f hmem).2.1
          · exact absurd (hname.trans heq) (hvalid f hmem).2.2
      · rcases Mounted.root_cases h hk with
          ⟨-, ⟨-, hdot⟩ | ⟨-, hdot⟩⟩ | ⟨j, g, rfl, hg, hino, hfile⟩
        · exact absurd (heq.trans (hname.symm.trans hdot)) (hvalid f hf).2.1
        · exact absurd (heq.trans (hname.symm.trans hdot)) (hvalid f hf).2.2
        · have hmem' := mem_of_getElem? hg
          rw [hfile (hnul g hmem')] at hname
          obtain rfl : g = f := inj_on_of_nodup_map hnames hmem' hf (hname.trans heq.symm)
          rw [hino] at hi
          have hsize := hs'.size (Set.notMem_empty i) hi
          rw [Mounted.info_file h hg (Mounted.file_lt h hg).1] at hsize
          exact ⟨i, _, rfl, hsize, fun off size hle hend =>
            Mounted.run_readFile h hblk' hs' hg hi hle hend⟩
  · rw [hblk, Mounted.marked_image h, Mounted.inUse_iff h hblk]
    omega

/-- A host with one file of one byte. -/
def smallHost : List Byte → Option (List Byte) :=
  fun path => if path = [0x78#8] then some [0x41#8] else none

/-- The argument `x:a` -/
def smallSpec : List Byte := [0x78#8, 0x3a#8, 0x61#8]

lemma inputs_small : inputs smallHost [smallSpec] = .ok [⟨[0x61#8], [0x41#8]⟩] := rfl

theorem mkfs_agrees_small : ∃ img root s, Mkfs.mkfs smallHost [smallSpec] = .ok img ∧
    (runAs 1 mountRoot).run (booted img) = .ok (some root, s) ∧
    Total (runAs 1 (lookup root [0x61#8])) s fun r s' => ∃ i off, r = some (i, off) ∧
      (runAs 1 (readInode i 0 10)).run s' = .ok (some [0x41#8], s') := by
  obtain ⟨img, hmkfs, root, s, hrun, hlookup, -⟩ := mkfs_agrees inputs_small (by decide) (by decide)
    (fun f hf => by
      rw [mem_singleton.mp hf]
      exact ⟨⟨by decide, by decide, by decide⟩, by decide, by decide⟩) 1
  refine ⟨img, root, s, hmkfs, hrun, (hlookup [0x61#8]).mono ?_⟩
  rintro r s' ⟨-, -, hfile⟩
  obtain ⟨i, off, rfl, -, hread⟩ := hfile _ (.head _) rfl
  exact ⟨i, off, rfl, hread 0 10 (by decide) (by decide)⟩

/-- The inode bitmap of an image marks the number 0, which no inode has. -/
theorem inode_zero_marked : ∃ img root s, Mkfs.mkfs smallHost [smallSpec] = .ok img ∧
    (runAs 1 mountRoot).run (booted img) = .ok (some root, s) ∧ (s.blk inoblkBmip).bit 0 = true ∧
      ¬s.InUse 0 := by
  have h : Accepted [⟨[0x61#8], [0x41#8]⟩] := Mkfs.accepted_of_inputs inputs_small (by decide)
  obtain ⟨root, s, hrun, -, hblk⟩ := Mounted.run_mountRoot h (t := 1)
  refine ⟨_, root, s, rfl, hrun, ?_, fun hused => hused.1 rfl⟩
  rw [hblk, Mounted.marked_image h]
  decide

end FrostVista.EasyFs
