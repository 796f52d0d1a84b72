import FrostVista.EasyFs.Alloc

/-!
# EasyFS: inodes on the disk and in the cache

The table of inodes on the disk, and the functions that move an inode between the table and the
cache: `iupdate`, `easyfs_ilock` and the unlocking functions.
-/
namespace FrostVista.EasyFs

open Lib Lib.Comp Function Bytes

/-- How many inodes the table has room for. -/
def tableSize : Nat := 64 * (dataBlock - inodeBlock)

/-- The inode on the disk. -/
def onDisk (blk : Nat → Bytes) (n : Nat) : DiskInode := diskInode (blk (tableBlock n)) n

/-- The blocks of the disk after `iupdate`. -/
def saved (blk : Nat → Bytes) (e : Slot) : Nat → Bytes :=
  Function.update blk (tableBlock e.ino)
    (setDiskInode (blk (tableBlock e.ino)) e.ino ⟨e.type, e.nlinks, e.size, e.blocks⟩)

/-- The cached inode after it was loaded from the disk. -/
def Slot.loaded (e : Slot) (d : DiskInode) : Slot :=
  { e with type := d.type, nlinks := d.nlinks, size := d.size, blocks := d.blocks }

/-- The state after the inode `ip` was changed to `e` and saved, on a disk with the blocks `blk`. -/
def Fs.stored (s : Fs) (ip : SlotId) (e : Slot) (blk : Nat → Bytes) : Fs :=
  { s with blk := saved blk e, slot := Function.update s.slot ip e }

/-- Two inodes agree, up to the twelve block numbers. -/
structure DiskInode.Same (d d' : DiskInode) : Prop where
  type : d.type = d'.type
  nlinks : d.nlinks = d'.nlinks
  size : d.size = d'.size
  blocks : ∀ i < 12, d.blocks i = d'.blocks i

variable {blk blk' : Nat → Bytes} {n m : Nat} {e : Slot} {s : Fs} {t : Tid} {ip : SlotId}

/-! ## The table -/

lemma tableBlock_lt : tableBlock n < dataBlock ↔ n < tableSize := by
  simp only [tableBlock, tableSize, inodeBlock, dataBlock]
  omega

lemma tableBlock_ne : tableBlock n ≠ dablkBmip ∧ tableBlock n ≠ inoblkBmip := by
  simp only [tableBlock, inodeBlock, dablkBmip, inoblkBmip]
  omega

lemma DiskInode.Same.refl (d : DiskInode) : d.Same d := ⟨rfl, rfl, rfl, fun _ _ => rfl⟩

lemma DiskInode.Same.trans {d d' d'' : DiskInode} (h : d.Same d') (h' : d'.Same d'') : d.Same d'' :=
  ⟨h.type.trans h'.type, h.nlinks.trans h'.nlinks, h.size.trans h'.size,
    fun i hi => (h.blocks i hi).trans (h'.blocks i hi)⟩

lemma diskInode_congr (h : ∀ i, 64 * (n % 64) ≤ i → i < 64 * (n % 64) + 64 → b i = b' i) :
    (diskInode b n).Same (diskInode b' n) where
  type := load_congr fun i hi hi' => h i (by omega) (by omega)
  nlinks := load_congr fun i hi hi' => h i (by omega) (by omega)
  size := load_congr fun i hi hi' => h i (by omega) (by omega)
  blocks _ _ := load_congr fun i hi hi' => h i (by omega) (by omega)

lemma onDisk_congr (h : blk' (tableBlock n) = blk (tableBlock n)) :
    onDisk blk' n = onDisk blk n := by
  rw [onDisk, onDisk, h]

lemma setDiskInode_of_not
    (h : ¬(64 * (n % 64) ≤ i ∧ i < 64 * (n % 64) + 64)) : setDiskInode b n d i = b i := by
  unfold setDiskInode
  rw [storeAll_of_not (by omega), store_of_not (by omega), store_of_not (by omega),
    store_of_not (by omega)]

lemma diskInode_setDiskInode (b : Bytes) (d : DiskInode) : (diskInode (setDiskInode b n d) n).Same
      ⟨d.type % 2 ^ 16, d.nlinks % 2 ^ 16, d.size % 2 ^ 32, fun i => d.blocks i % 2 ^ 32⟩ := by
  refine ⟨?_, ?_, ?_, ?_⟩
  · simp only [diskInode, setDiskInode]
    rw [load_storeAll_of_disjoint (by omega), load_store_of_disjoint (by omega),
      load_store_of_disjoint (by omega), load_store_same]
    rfl
  · simp only [diskInode, setDiskInode]
    rw [load_storeAll_of_disjoint (by omega), load_store_of_disjoint (by omega), load_store_same]
    rfl
  · simp only [diskInode, setDiskInode]
    rw [load_storeAll_of_disjoint (by omega), load_store_same]
    rfl
  · intro i hi
    simp only [diskInode, setDiskInode]
    exact load_storeAll hi

lemma saved_of_ne (h : b ≠ tableBlock e.ino) : saved blk e b = blk b :=
  update_of_ne h _ _

lemma onDisk_saved (e : Slot) : (onDisk (saved blk e) e.ino).Same
    ⟨e.type % 2 ^ 16, e.nlinks % 2 ^ 16, e.size % 2 ^ 32, fun i => e.blocks i % 2 ^ 32⟩ := by
  rw [onDisk, saved, update_self]
  exact diskInode_setDiskInode _ _

lemma onDisk_saved_of_ne (h : n ≠ e.ino) : (onDisk (saved blk e) n).Same (onDisk blk n) := by
  by_cases hb : tableBlock n = tableBlock e.ino
  · rw [onDisk, onDisk, saved, hb, update_self]
    refine diskInode_congr fun i hi hi' => setDiskInode_of_not ?_
    simp only [tableBlock] at hb
    omega
  · rw [onDisk_congr (saved_of_ne hb)]
    exact .refl _

/-! ## Moving inodes -/

lemma run_iupdate (h : s.busy (tableBlock (s.slot ip).ino) = false) :
    (runAs t (iupdate ip)).run s = .ok ((), { s with blk := saved s.blk (s.slot ip) }) := by
  unfold iupdate
  rw [Prog.run_bind_ok run_load, Prog.run_bind_ok run_touch, Prog.run_bind_ok (run_bread h),
    Prog.run_bind_ok run_load, Fs.setBusy_slot, Prog.run_bind_ok (run_bwrite _), run_brelse,
    setBusy_setBlk_setBusy h]
  rfl

lemma run_acquiresleep (h : (s.slot ip).owner = none) : (runAs t (acquiresleep ip)).run s =
    .ok ((), s.setSlot ip { s.slot ip with owner := some t }) := by
  have hexec : exec t (.acquiresleep ip) s =
      .ok ((), s.setSlot ip { s.slot ip with owner := some t }) := by simp [exec, h]
  exact Comp.run_bind_ok hexec _

@[simp] lemma run_releasesleep : (runAs t (releasesleep ip)).run s =
    .ok ((), s.setSlot ip { s.slot ip with owner := none }) := rfl

@[simp] lemma run_holdingsleep : (runAs t (holdingsleep ip)).run s =
    .ok (decide ((s.slot ip).owner = some t), s) := rfl

lemma run_ilock (hcount : 1 ≤ (s.slot ip).count) (howner : (s.slot ip).owner = none)
    (hbusy : s.busy (tableBlock (s.slot ip).ino) = false) :
    (runAs t (ilock ip)).run s = .ok ((), s.setSlot ip
      { (s.slot ip).loaded (onDisk s.blk (s.slot ip).ino) with owner := some t }) := by
  unfold ilock
  rw [Prog.run_bind_ok run_load, if_neg (by omega), Prog.run_bind_ok (run_acquiresleep howner),
    Prog.run_bind_ok run_load]
  simp only [Fs.setSlot_slot, update_self]
  rw [Prog.run_bind_ok run_touch,
    Prog.run_bind_ok (run_bread (s := s.setSlot ip { s.slot ip with owner := some t }) hbusy),
    Prog.run_bind_ok (run_edit _), run_brelse]
  simp only [Fs.setSlot, Fs.setBusy, update_idem, ← hbusy, update_eq_self, update_self]
  rfl

lemma run_iunlock (hcount : 1 ≤ (s.slot ip).count) (howner : (s.slot ip).owner = some t) :
    (runAs t (iunlock ip)).run s = .ok ((), s.setSlot ip { s.slot ip with owner := none }) := by
  unfold iunlock
  rw [Prog.run_bind_ok run_holdingsleep, Prog.run_bind_ok run_load,
    if_neg (by simp [howner]; omega), run_releasesleep]

end FrostVista.EasyFs
