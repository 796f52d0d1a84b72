import FrostVista.EasyFs.File
import FrostVista.EasyFs.Trunc

/-!
# EasyFS: the volume

A volume is what the disk means: which inode numbers are in use, the type, link count and size of
each inode, and the bytes of each file. `Disk` says that the blocks of the disk, with the block
numbers of the inodes in the cache, spell a volume, and that the trees of the inodes are in order;
`Sound` adds the inodes in the cache.
-/
namespace FrostVista.EasyFs

open Lib Lib.Comp Kernel Function List Bytes
open EasyFs (onDisk)

structure Info where
  type : Nat
  nlinks : Nat
  size : Nat

structure Volume where
  marked : Nat → Bool
  info : Nat → Info
  byte : Nat → Nat → Byte

namespace Volume

def mark (v : Volume) (n : Nat) (b : Bool) : Volume :=
  { v with marked := update v.marked n b }

/-- The inode `n` and its file are replaced. -/
def put (v : Volume) (n : Nat) (i : Info) (f : Nat → Byte) : Volume :=
  { v with info := update v.info n i, byte := update v.byte n f }

/-- A directory that is in use. -/
def IsDir (v : Volume) (n : Nat) : Prop := v.marked n = true ∧ (v.info n).type = vfsDir

variable (v : Volume) (n m : Nat) (b : Bool) (i : Info) (f : Nat → Byte)

@[simp] lemma mark_info : (v.mark n b).info = v.info := rfl
@[simp] lemma mark_byte : (v.mark n b).byte = v.byte := rfl
@[simp] lemma put_marked : (v.put n i f).marked = v.marked := rfl
@[simp] lemma put_info_self : (v.put n i f).info n = i := update_self ..
@[simp] lemma put_byte_self : (v.put n i f).byte n = f := update_self ..
@[simp] lemma mark_marked_self : (v.mark n b).marked n = b := update_self ..

variable {m n}

@[simp] lemma put_info_of_ne (h : m ≠ n) : (v.put n i f).info m = v.info m := update_of_ne h ..
@[simp] lemma put_byte_of_ne (h : m ≠ n) : (v.put n i f).byte m = v.byte m := update_of_ne h ..
@[simp] lemma mark_marked_of_ne (h : m ≠ n) : (v.mark n b).marked m = v.marked m :=
  update_of_ne h ..

@[simp] lemma put_isDir_of_ne (h : m ≠ n) : (v.put n i f).IsDir m ↔ v.IsDir m := by
  simp [IsDir, h]

lemma put_self (v : Volume) (n : Nat) : v.put n (v.info n) (v.byte n) = v := by
  simp [put]

@[simp] lemma put_put (v : Volume) (n : Nat) (i j : Info) (f g : Nat → Byte) :
    (v.put n i f).put n j g = v.put n j g := by simp [put]

end Volume

def DiskInode.info (d : DiskInode) : Info := ⟨d.type, d.nlinks, d.size⟩

def table : Set Nat := {n | n < tableSize}

/-- The block numbers of the inodes on the disk. -/
def diskTops (blk : Nat → Bytes) : Tops := fun n => (onDisk blk n).blocks

/-- The blocks `blk` and the block numbers `E` spell the volume `v`. The blocks of a directory are
on the disk, and an inode that is not in use is empty. -/
structure Disk (E : Tops) (blk : Nat → Bytes) (v : Volume) : Prop where
  owned : Owned table E blk
  backed : ∀ n < tableSize, Backed E blk n
  marked : ∀ n, (blk inoblkBmip).bit n = v.marked n
  info : ∀ n < tableSize, (onDisk blk n).info = v.info n
  byte : ∀ n < tableSize, ∀ o, byteAt E blk n o = v.byte n o
  dir : ∀ n < tableSize, v.IsDir n →
    (∀ i < 12, diskTops blk n i = E n i) ∧ Covered E blk n 0 (v.info n).size
  free : ∀ n < tableSize, v.marked n = false → (v.info n).size = 0 ∧ ∀ i < 12, E n i = 0

variable {E E' : Tops} {blk blk' : Nat → Bytes} {v v' : Volume} {n m : Nat} {e : Slot}

lemma DiskInode.Same.info_eq {d d' : DiskInode} (h : d.Same d') : d.info = d'.info := by
  rw [DiskInode.info, DiskInode.info, h.type, h.nlinks, h.size]

lemma Covered.congr (h : Covered E blk n off size)
    (hnode : ∀ path, isPlace path → nodeAt E' blk' n path = nodeAt E blk n path) :
    Covered E' blk' n off size := by
  intro o hlo hhi
  obtain ⟨a, ha⟩ := h o hlo hhi
  obtain ⟨hbn, hat⟩ := dataNode_eq_some.mp ha
  exact ⟨a, dataNode_eq_some.mpr ⟨hbn, (hnode _ (isPlace_blockPath hbn)).trans hat⟩⟩

lemma covered_zero (off : Nat) : Covered E blk n off 0 := fun o hlo hhi => absurd hhi (by omega)

/-! ## Loading an inode -/

lemma Disk.reload (h : Disk E blk v) (hn : n < tableSize) :
    Disk (update E n (diskTops blk n)) blk v := by
  obtain ⟨howned, hbyte, hbacked⟩ := h.owned.reload (h.backed n hn)
  have htops : ∀ m < tableSize, v.IsDir m → ∀ i < 12,
      update E n (diskTops blk n) m i = E m i := by
    intro m hm hdir i hi
    have hold := (h.dir m hm hdir).1 i hi
    rw [update_apply]
    split <;> grind
  refine ⟨howned, fun m hm => hbacked m hm (h.backed m hm), h.marked, h.info,
    fun m hm o => (hbyte m hm o).trans (h.byte m hm o), fun m hm hdir => ⟨fun i hi => ?_, ?_⟩,
    fun m hm hfree => ⟨(h.free m hm hfree).1, fun i hi => ?_⟩⟩
  · exact ((h.dir m hm hdir).1 i hi).trans (htops m hm hdir i hi).symm
  · exact (h.dir m hm hdir).2.congr fun path hp => nodeAt_of_tops (htops m hm hdir) hp
  · have hzero := (h.free m hm hfree).2 i hi
    by_cases hmn : m = n
    · subst hmn
      rw [update_self]
      rcases (h.backed m hm).le i hi with hz | he
      · exact hz
      · exact he.trans hzero
    · rwa [update_of_ne hmn]

/-! ## Saving an inode -/

/-- The tree and the file of the inode `n` have changed, and nothing else. -/
structure Changed (n : Nat) (E : Tops) (blk : Nat → Bytes) (E' : Tops) (blk' : Nat → Bytes) :
    Prop where
  owned : Owned table E' blk'
  tops : ∀ m, m ≠ n → E' m = E m
  others : ∀ m ∈ table, m ≠ n → ∀ path, isPlace path → nodeAt E' blk' m path = nodeAt E blk m path
  bytes : ∀ m ∈ table, m ≠ n → ∀ o, byteAt E' blk' m o = byteAt E blk m o
  low : ∀ b, b < dataBlock → b ≠ dablkBmip → blk' b = blk b

lemma Grow.changed (h : Grow table n E blk E' blk' f k) :
    Changed n E blk E' blk' := ⟨h.owned, h.tops, h.others, h.bytes, h.low⟩

lemma Cut.changed (h : Cut table n E blk E' blk' P) : Changed n E blk E' blk' :=
  ⟨h.owned, h.tops, h.others, h.bytes, h.low⟩

lemma Changed.onDisk (h : Changed n E blk E' blk') (hm : m < tableSize) :
    onDisk blk' m = onDisk blk m :=
  onDisk_congr (h.low _ (tableBlock_lt.mpr hm) tableBlock_ne.1)

lemma Disk.rewrite (h : Disk E blk v) (hn : n < tableSize) (hc : Changed n E blk E' blk')
    {blk'' : Nat → Bytes} {d : DiskInode} (hblk : ∀ b, b ≠ tableBlock n → blk'' b = blk' b)
    (hother : ∀ m, m ≠ n → (onDisk blk'' m).Same (onDisk blk' m))
    (hself : (onDisk blk'' n).Same d) (htops : ∀ i < 12, d.blocks i = E' n i)
    (hdir : v.marked n = true → d.type = vfsDir → Covered E' blk' n 0 d.size)
    (hfree : v.marked n = false → d.size = 0 ∧ ∀ i < 12, E' n i = 0) :
    Disk E' blk'' (v.put n d.info (byteAt E' blk' n)) := by
  have hlt : tableBlock n < dataBlock := tableBlock_lt.mpr hn
  have hdata : ∀ b, b = dablkBmip ∨ dataBlock ≤ b → blk'' b = blk' b := by
    intro b hb
    refine hblk b ?_
    rintro rfl
    rcases hb with hb | hb
    · exact tableBlock_ne.1 hb
    · omega
  obtain ⟨howned, hnode, hbyte⟩ := hc.owned.congr hdata
  have hsame : ∀ m < tableSize, m ≠ n → (onDisk blk'' m).Same (onDisk blk m) :=
    fun m hm hne => hc.onDisk hm ▸ hother m hne
  have hbytes : ∀ m < tableSize, m ≠ n → ∀ o, byteAt E' blk'' m o = byteAt E blk m o :=
    fun m hm hne o => (hbyte m hm o).trans (hc.bytes m hm hne o)
  have hD : ∀ i < 12, (onDisk blk'' n).blocks i = E' n i := fun i hi =>
    (hself.blocks i hi).trans (htops i hi)
  refine ⟨howned, fun m hm => ?_, fun m => ?_, fun m hm => ?_, fun m hm o => ?_, fun m hm hd => ?_,
    fun m hm hf => ?_⟩
  · by_cases hne : m = n
    · subst hne
      refine ⟨fun i hi => .inr (hD i hi), fun o ho => ?_⟩
      rw [hD _ (topIndex_lt _)] at ho
      exact byteAt_of_top ho
    · refine ⟨fun i hi => ?_, fun o ho => ?_⟩
      · rw [(hsame m hm hne).blocks i hi, hc.tops m hne]
        exact (h.backed m hm).le i hi
      · rw [(hsame m hm hne).blocks _ (topIndex_lt _)] at ho
        rw [hbytes m hm hne, (h.backed m hm).zero o ho]
  · rw [hblk _ tableBlock_ne.2.symm, hc.low inoblkBmip (by decide) (by decide)]
    exact h.marked m
  · by_cases hne : m = n
    · subst hne
      rw [Volume.put_info_self]
      exact hself.info_eq
    · rw [Volume.put_info_of_ne _ _ _ hne, (hsame m hm hne).info_eq]
      exact h.info m hm
  · by_cases hne : m = n
    · subst hne
      rw [Volume.put_byte_self]
      exact hbyte m hm o
    · rw [Volume.put_byte_of_ne _ _ _ hne, hbytes m hm hne]
      exact h.byte m hm o
  · by_cases hne : m = n
    · subst hne
      obtain ⟨hmark, htype⟩ := hd
      rw [Volume.put_info_self] at htype ⊢
      exact ⟨hD, (hdir hmark htype).congr (hnode m hm)⟩
    · rw [Volume.put_isDir_of_ne _ _ _ hne] at hd
      rw [Volume.put_info_of_ne _ _ _ hne]
      obtain ⟨hold, hcov⟩ := h.dir m hm hd
      refine ⟨fun i hi => ?_, hcov.congr fun path hp =>
        (hnode m hm path hp).trans (hc.others m hm hne path hp)⟩
      rw [hc.tops m hne, ← hold i hi]
      exact (hsame m hm hne).blocks i hi
  · rw [Volume.put_marked] at hf
    by_cases hne : m = n
    · subst hne
      rw [Volume.put_info_self]
      exact hfree hf
    · rw [Volume.put_info_of_ne _ _ _ hne, hc.tops m hne]
      exact h.free m hm hf

/-- The numbers that `iupdate` writes for the inode. -/
def Slot.diskInfo (e : Slot) : Info := ⟨e.type % 2 ^ 16, e.nlinks % 2 ^ 16, e.size % 2 ^ 32⟩

lemma Disk.save (h : Disk E blk v) (hn : n < tableSize) (hc : Changed n E blk E' blk')
    (hino : e.ino = n) (hblocks : e.blocks = E' n)
    (hdir : v.marked n = true → e.diskInfo.type = vfsDir → Covered E' blk' n 0 e.diskInfo.size)
    (hfree : v.marked n = false → e.diskInfo.size = 0 ∧ ∀ i < 12, E' n i = 0) :
    Disk E' (saved blk' e) (v.put n e.diskInfo (byteAt E' blk' n)) := by
  subst hino
  refine h.rewrite hn hc (fun b hb => saved_of_ne hb) (fun m hm => onDisk_saved_of_ne hm)
    (onDisk_saved e)
    (fun i hi => ?_) hdir hfree
  change e.blocks i % 2 ^ 32 = _
  rw [hblocks]
  exact Nat.mod_eq_of_lt ((hc.owned.top_lt hn hi).trans (by decide))

/-- The blocks of the disk after `ifree` has cleared the inode. -/
def erased (blk : Nat → Bytes) (n : Nat) : Nat → Bytes :=
  update blk (tableBlock n)
    ((blk (tableBlock n)).copyIn (64 * (n % 64)) (List.replicate 64 0))

lemma onDisk_erased_of_ne (h : m ≠ n) : (onDisk (erased blk n) m).Same (onDisk blk m) := by
  unfold onDisk erased
  by_cases hb : tableBlock m = tableBlock n
  · rw [hb, update_self]
    refine diskInode_congr fun i hlo hhi => copyIn_of_not ?_
    rw [length_replicate]
    have hmod : m % 64 ≠ n % 64 := by
      simp only [tableBlock] at hb
      omega
    omega
  · rw [update_of_ne hb]
    exact .refl _

lemma onDisk_erased : (onDisk (erased blk n) n).Same ⟨0, 0, 0, fun _ => 0⟩ := by
  have hzero : (onDisk (erased blk n) n).Same (diskInode zero n) := by
    unfold onDisk erased
    rw [update_self]
    refine diskInode_congr fun i hlo hhi => ?_
    obtain ⟨k, rfl⟩ := Nat.exists_eq_add_of_le hlo
    rw [copyIn_of_mem (by rw [length_replicate]; omega), getElem_replicate]
    rfl
  exact hzero.trans ⟨load_zero _ _, load_zero _ _, load_zero _ _,
    fun i _ => load_zero _ _⟩

lemma Disk.erase (h : Disk E blk v) (hn : n < tableSize) (hmark : v.marked n = false) :
    Disk E (erased blk n) (v.put n ⟨0, 0, 0⟩ (v.byte n)) := by
  have hbyte : byteAt E blk n = v.byte n := funext (h.byte n hn)
  have hzero := (h.free n hn hmark).2
  rw [← hbyte]
  refine h.rewrite hn h.owned.grow.changed (fun b hb => update_of_ne hb ..)
    (fun m hm => onDisk_erased_of_ne hm) onDisk_erased (fun i hi => (hzero i hi).symm)
    (fun hm => ?_)
    fun _ => ⟨rfl, hzero⟩
  rw [hmark] at hm
  cases hm

/-! ## Marking an inode -/

lemma Disk.congr_marks (h : Disk E blk v) (hmarked : ∀ n, b.bit n = v'.marked n)
    (hinfo : v'.info = v.info) (hbyte : v'.byte = v.byte)
    (hdir : ∀ n < tableSize, v'.IsDir n → v.IsDir n ∨ v.marked n = false)
    (hfree : ∀ n < tableSize, v'.marked n = false →
      v.marked n = false ∨ (v.info n).size = 0 ∧ ∀ i < 12, E n i = 0) :
    Disk E (update blk inoblkBmip b) v' := by
  obtain ⟨howned, hnode, hbytes⟩ := h.owned.congr fun c hc => update_of_ne
    (show c ≠ inoblkBmip by rcases hc with rfl | hc <;> grind [inoblkBmip, dablkBmip, dataBlock])
      b blk
  have hdisk : ∀ m, onDisk (update blk inoblkBmip b) m = onDisk blk m := fun m =>
    onDisk_congr (update_of_ne tableBlock_ne.2 ..)
  refine ⟨howned, fun m hm => ⟨fun i hi => ?_, fun o ho => ?_⟩, fun m =>
    ?_, fun m hm => ?_, fun m hm o => ?_,
    fun m hm hd => ?_, fun m hm hf => ?_⟩
  · rw [hdisk]
    exact (h.backed m hm).le i hi
  · rw [hdisk] at ho
    rw [hbytes m hm]
    exact (h.backed m hm).zero o ho
  · rw [update_self]
    exact hmarked m
  · rw [hdisk, hinfo]
    exact h.info m hm
  · rw [hbytes m hm, hbyte]
    exact h.byte m hm o
  · rw [hinfo]
    rcases hdir m hm hd with hold | hnew
    · obtain ⟨hD, hcov⟩ := h.dir m hm hold
      refine ⟨fun i hi => ?_, hcov.congr (hnode m hm)⟩
      rw [diskTops, hdisk]
      exact hD i hi
    · -- the number was not in use, so that the inode is empty
      obtain ⟨hsize, hzero⟩ := h.free m hm hnew
      rw [hsize]
      refine ⟨fun i hi => ?_, covered_zero 0⟩
      rw [diskTops, hdisk, hzero i hi]
      rcases (h.backed m hm).le i hi with hz | he
      · exact hz
      · exact he.trans (hzero i hi)
  · rw [hinfo]
    rcases hfree m hm hf with hold | hnew
    · exact h.free m hm hold
    · exact hnew

lemma Disk.remark (h : Disk E blk v) (x : Bool)
    (hbit : ∀ m, b.bit m = if m = n then x else (blk inoblkBmip).bit m)
    (hx : if x then v.marked n = false else (v.info n).size = 0 ∧ ∀ i < 12, E n i = 0) :
    Disk E (update blk inoblkBmip b) (v.mark n x) := by
  refine h.congr_marks (fun m => ?_) rfl rfl (fun m _ hd => ?_) fun m _ hf => ?_
  · rw [hbit]
    split
    · subst m
      simp
    · rw [Volume.mark_marked_of_ne _ _ ‹_›]
      exact h.marked m
  all_goals
    by_cases hmn : m = n
    · subst hmn
      cases x <;> simp_all [Volume.IsDir]
    · simp only [Volume.IsDir, Volume.mark_marked_of_ne _ _ hmn] at *
      exact .inl ‹_›

lemma Disk.mark (h : Disk E blk v) (hn : v.marked n = false) :
    Disk E (update blk inoblkBmip ((blk inoblkBmip).setBit n)) (v.mark n true) := by
  refine h.remark true (fun m => ?_) hn
  split
  · simp_all
  · exact bit_setBit_of_ne ‹_›

lemma Disk.unmark (h : Disk E blk v) (hsize : (v.info n).size = 0) (hzero : ∀ i < 12, E n i = 0) :
    Disk E (update blk inoblkBmip ((blk inoblkBmip).clearBit n)) (v.mark n false) := by
  refine h.remark false (fun m => ?_) ⟨hsize, hzero⟩
  split
  · simp_all
  · exact bit_clearBit_of_ne ‹_›

/-! ## The inodes in the cache -/

/-- The cached inode agrees with the volume and has the block numbers of `E`. -/
structure Cached (E : Tops) (v : Volume) (e : Slot) : Prop where
  pos : e.ino ≠ 0
  table : e.ino < tableSize
  tops : E e.ino = e.blocks
  type : e.type = (v.info e.ino).type
  nlinks : e.nlinks % 2 ^ 16 = (v.info e.ino).nlinks
  size : e.size = (v.info e.ino).size

/-- The disk spells the volume `v`, and every inode of EasyFS that is referenced in the cache agrees
with it, except for those in `X`. No two slots hold the same inode. -/
structure Sound (X : Set SlotId) (s : Fs) (E : Tops) (v : Volume) : Prop where
  quiet : s.Quiet
  disk : Disk E s.blk v
  order : ∀ i, i ∈ s.order
  unique : ∀ i j, (s.slot i).dev = 0 → (s.slot j).dev = 0 → (s.slot i).ino = (s.slot j).ino →
    (s.slot i).ino ≠ 0 → i = j
  cached : ∀ i, i ∉ X → 1 ≤ (s.slot i).count → (s.slot i).dev = 0 → Cached E v (s.slot i)

def Fs.owners (s : Fs) : SlotId → Option Tid := fun i => (s.slot i).owner

def Fs.counts (s : Fs) : SlotId → Nat := fun i => (s.slot i).count

/-- The device and the number of the inodes in the slots. -/
def Fs.ids (s : Fs) : SlotId → Nat × Nat := fun i => ((s.slot i).dev, (s.slot i).ino)

variable {X X' : Set SlotId} {s s' : Fs} {i : SlotId} {t : Tid}

@[simp] lemma owners_setSlot : (s.setSlot i e).owners = update s.owners i e.owner :=
  comp_update Slot.owner s.slot i e

@[simp] lemma counts_setSlot : (s.setSlot i e).counts = update s.counts i e.count :=
  comp_update Slot.count s.slot i e

@[simp] lemma ids_setSlot : (s.setSlot i e).ids = update s.ids i (e.dev, e.ino) :=
  comp_update (fun e : Slot => (e.dev, e.ino)) s.slot i e

lemma Sound.set (h : Sound X s E v) (X' : Set SlotId) (e : Slot) (hdev : (s.slot i).dev = 0)
    (he : (e.dev, e.ino) = s.ids i) (hcount : e.count = (s.slot i).count) (hdisk : Disk E' blk' v')
    (hother : ∀ m, m ≠ (s.slot i).ino → E' m = E m ∧ v'.info m = v.info m)
    (hX : ∀ j, j ∉ X' → j = i ∨ j ∉ X) (hc : i ∉ X' → 1 ≤ (s.slot i).count → Cached E' v' e) :
    Sound X' { s with blk := blk', slot := update s.slot i e } E' v' := by
  have hdev' : e.dev = (s.slot i).dev := congrArg Prod.fst he
  have hino : e.ino = (s.slot i).ino := congrArg Prod.snd he
  have hids : ∀ j, (update s.slot i e j).dev = (s.slot j).dev ∧
      (update s.slot i e j).ino = (s.slot j).ino := by grind
  refine ⟨h.quiet, hdisk, h.order, fun j k hj hk => ?_, fun j hj hcj hdj => ?_⟩
  · dsimp only at hj hk ⊢
    rw [(hids j).1] at hj
    rw [(hids k).1] at hk
    rw [(hids j).2, (hids k).2]
    exact h.unique j k hj hk
  · dsimp only at hcj hdj ⊢
    by_cases hji : j = i
    · subst hji
      rw [update_self] at hcj ⊢
      exact hc hj (hcount ▸ hcj)
    · rw [update_of_ne hji] at hcj hdj ⊢
      have hold := h.cached j ((hX j hj).resolve_left hji) hcj hdj
      have hne : (s.slot j).ino ≠ (s.slot i).ino := fun heq =>
        hji (h.unique j i hdj hdev heq hold.pos)
      obtain ⟨htops, hinfo⟩ := hother _ hne
      exact ⟨hold.pos, hold.table, htops ▸ hold.tops, hinfo ▸ hold.type,
        hinfo ▸ hold.nlinks, hinfo ▸ hold.size⟩

lemma Sound.setOwner (h : Sound X s E v) (hdev : (s.slot i).dev = 0) (o : Option Tid) :
    Sound X (s.setSlot i { s.slot i with owner := o }) E v :=
  h.set X _ hdev rfl rfl h.disk (fun _ _ => ⟨rfl, rfl⟩) (fun _ hj => .inr hj) fun hi hc =>
    have hold := h.cached i hi hc hdev
    ⟨hold.pos, hold.table, hold.tops, hold.type, hold.nlinks, hold.size⟩

lemma Sound.load (h : Sound X s E v) (hdev : (s.slot i).dev = 0) (hpos : (s.slot i).ino ≠ 0)
    (hlt : (s.slot i).ino < tableSize) (he : (e.dev, e.ino) = s.ids i)
    (hcount : e.count = (s.slot i).count) (htype : e.type = (onDisk s.blk (s.slot i).ino).type)
    (hnlinks : e.nlinks = (onDisk s.blk (s.slot i).ino).nlinks)
    (hsize : e.size = (onDisk s.blk (s.slot i).ino).size)
    (hblocks : e.blocks = diskTops s.blk (s.slot i).ino) :
    Sound (X \ {i}) (s.setSlot i e)
      (update E (s.slot i).ino (diskTops s.blk (s.slot i).ino)) v := by
  have hino : e.ino = (s.slot i).ino := congrArg Prod.snd he
  have hinfo := h.disk.info _ hlt
  refine h.set (X \ {i}) e hdev he hcount (h.disk.reload hlt)
    (fun m hm => ⟨update_of_ne hm .., rfl⟩)
    (fun j hj => ?_) fun _ _ => ⟨?_, ?_, ?_, ?_, ?_, ?_⟩
  · by_cases hji : j = i
    · exact .inl hji
    · exact .inr fun hjX => hj ⟨hjX, hji⟩
  · rwa [hino]
  · rwa [hino]
  · rw [hino, update_self, hblocks]
  · rw [hino, htype, ← hinfo]
    rfl
  · rw [hino, hnlinks, ← hinfo]
    exact Nat.mod_eq_of_lt (load_lt _ _ _)
  · rw [hino, hsize, ← hinfo]
    rfl

/-! ## References -/

lemma getInode_isSome (h : ∀ i, i ∈ s.order) : (s.getInode n).isSome = true ↔
    (∃ i, s.ids i = (0, n)) ∨ ∃ i, (s.slot i).count = 0 := by
  unfold Fs.getInode
  split
  · rename_i i hi
    have hfound := find?_some hi
    simp only [decide_eq_true_eq] at hfound
    simp only [Option.isSome_some, true_iff]
    exact .inl ⟨i, Prod.ext hfound.2 hfound.1⟩
  · rename_i hnone
    rw [find?_eq_none] at hnone
    have hids : ¬∃ i, s.ids i = (0, n) := by
      rintro ⟨i, hi⟩
      have hno := hnone i (mem_finRange i)
      rw [decide_eq_true_eq] at hno
      exact hno ⟨congrArg Prod.snd hi, congrArg Prod.fst hi⟩
    rw [or_iff_right hids]
    split
    · rename_i i hi
      have hfound := find?_some hi
      rw [decide_eq_true_eq] at hfound
      simp only [Option.isSome_some, true_iff]
      exact ⟨i, hfound⟩
    · rename_i hnone'
      rw [find?_eq_none] at hnone'
      simp only [Option.isSome_none, Bool.false_eq_true, false_iff]
      rintro ⟨i, hi⟩
      exact hnone' i (h i) (decide_eq_true hi)

/-- What `get_inode` does to the slots. -/
structure Took (i : SlotId) (n : Nat) (s s' : Fs) : Prop where
  blk : s'.blk = s.blk
  ids : s'.ids = update s.ids i (0, n)
  counts : s'.counts = update s.counts i (s.counts i + 1)
  owners : s'.owners = s.owners
  same : 1 ≤ s.counts i → s.ids i = (0, n)

lemma Sound.getInode (h : Sound X s E v) (hg : s.getInode n = some (i, s')) :
    Sound (insert i X) s' E v ∧ Took i n s s' := by
  obtain ⟨e, rfl, hid, hcount, howner, hcase⟩ := getInode_eq_some hg
  obtain ⟨hdev, hino⟩ := Prod.mk.inj hid
  refine ⟨⟨h.quiet, h.disk, h.order, fun k l hk hl hkl hpos => ?_, fun k hk hck hdk => ?_⟩,
    rfl, ?_, ?_, ?_,
    fun hc => ?_⟩
  · have hsame : ∀ l, (s.slot l).dev = 0 → (s.slot l).ino = n → n ≠ 0 → i = l := by
      intro l hl hln hpos
      obtain ⟨hi, hin⟩ | ⟨-, hmiss⟩ := hcase
      · exact h.unique i l hi hl (hin.trans hln.symm) (hin.symm ▸ hpos)
      · exact absurd hln (hmiss l hl)
    have hold := h.unique k l
    simp only [Fs.setSlot_slot, update_apply] at hk hl hkl hpos
    grind
  · have hki : k ≠ i := fun hki => hk (.inl hki)
    simp only [Fs.setSlot_slot, update_of_ne hki] at hck hdk ⊢
    exact h.cached k (fun hkX => hk (.inr hkX)) hck hdk
  · rw [ids_setSlot, hid]
  · rw [counts_setSlot, hcount]
    rfl
  · rw [owners_setSlot, howner]
    exact update_eq_self ..
  · obtain ⟨hi, hin⟩ | ⟨hzero, -⟩ := hcase
    · exact Prod.ext hi hin
    · exact absurd (hzero ▸ hc : 1 ≤ 0) (by decide)

/-- What `put_inode` does to the slots. -/
lemma Sound.putInode (h : Sound X s E v) (hc : 1 ≤ (s.slot i).count) :
    Sound X (s.putInode i) E v ∧ (s.putInode i).blk = s.blk ∧ (s.putInode i).ids = s.ids ∧
      (s.putInode i).counts = update s.counts i (s.counts i - 1) ∧
      (s.putInode i).owners = s.owners := by
  obtain ⟨e, order, heq, he, hcount, howner, hsame, horder⟩ := putInode_eq hc
  have hids : (s.setSlot i e).ids = s.ids := by
    rw [ids_setSlot, he]
    exact update_eq_self ..
  rw [heq]
  refine ⟨⟨h.quiet, h.disk, fun j => horder j (h.order j), fun j k hj hk hjk hpos => ?_,
    fun j hj hcj hdj => ?_⟩, rfl, hids, ?_, ?_⟩
  · have hj' := congrFun hids j
    have hk' := congrFun hids k
    simp only [Fs.ids, Prod.mk.injEq] at hj' hk'
    exact h.unique j k (hj'.1 ▸ hj) (hk'.1 ▸ hk) (hj'.2 ▸ hk'.2 ▸ hjk) (hj'.2 ▸ hpos)
  · by_cases hji : j = i
    · subst hji
      simp only [Fs.setSlot_slot, update_self] at hcj hdj ⊢
      have hold := h.cached j hj hc (by rw [hsame hcj] at hdj; exact hdj)
      rw [hsame hcj]
      exact ⟨hold.pos, hold.table, hold.tops, hold.type, hold.nlinks, hold.size⟩
    · simp only [Fs.setSlot_slot, update_of_ne hji] at hcj hdj ⊢
      exact h.cached j hj hcj hdj
  · refine counts_setSlot.trans ?_
    rw [hcount]
    rfl
  · refine owners_setSlot.trans ?_
    rw [howner]
    exact update_eq_self ..

end FrostVista.EasyFs
