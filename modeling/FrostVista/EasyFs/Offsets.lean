import FrostVista.EasyFs.Flat

/-!
# EasyFS: the offset of a descriptor

A descriptor has an offset of 64 bits, which `sys_lseek` sets to any value that is not negative.
`easyfs_vfs_read` and `easyfs_vfs_write` pass it to functions whose parameter has 32 bits.
-/
namespace FrostVista.EasyFs

open Lib Lib.Comp Function Bytes Prog

/-- The inode and the offset of a `struct file`. -/
structure File where
  node : SlotId
  offset : Nat
  deriving DecidableEq

/-- The conversion to `int64`. -/
def int64 (x : Int) : Int := x.bmod (2 ^ 64)

/-- `sys_lseek` on a file of the given size; `whence` is `SEEK_SET`, `SEEK_CUR` or `SEEK_END`. -/
def lseek (f : File) (size offRaw whence : Nat) : Option File :=
  let off := int64 offRaw
  let next :=
    match whence with
    | 0 => some off
    | 1 => some (int64 (int64 f.offset + off))
    | 2 => some (int64 (size + off))
    | _ => none
  next.bind fun next => if next < 0 then none else some { f with offset := next.toNat }

/-- The offset of a file as the parameter of `easyfs_read_inode` and `easyfs_write_inode`. -/
def uint32 (off : Nat) : Nat := off % 2 ^ 32

/-- `easyfs_vfs_read` on a file -/
def fileRead (f : File) (size : Nat) : FsProg (Option (List Byte)) :=
  vfsRead f.node (uint32 f.offset) size

/-- `easyfs_vfs_write` on a file -/
def fileWrite (f : File) (data : List Byte) : FsProg (Option Nat) :=
  vfsWrite f.node (uint32 f.offset) data

/-- A byte of the file of an inode in the cache. -/
def contentAt (s : Fs) (ip : SlotId) (o : Nat) : Byte :=
  byteAt (fun _ => (s.slot ip).blocks) s.blk (s.slot ip).ino o

/-- The inode is referenced and not locked, and its blocks are its own. -/
structure Opened (ip : SlotId) (s : Fs) : Prop where
  quiet : s.Quiet
  table : (s.slot ip).ino < tableSize
  count : 1 ≤ (s.slot ip).count
  owner : (s.slot ip).owner = none
  size : (s.slot ip).size < 2 ^ 32
  owned : Owned {(s.slot ip).ino} (fun _ => (s.slot ip).blocks) s.blk

/-- A write through a descriptor fails or changes no byte outside of the range that starts at its
offset. -/
def WritesAt (offset : Nat) : Prop :=
  ∀ (t : Tid) (ip : SlotId) (s : Fs) (data : List Byte), Opened ip s → data.length < 2 ^ 32 →
    Total (runAs t (fileWrite ⟨ip, offset⟩ data)) s fun r s' => r = none ∨
      ∀ o, ¬(offset ≤ o ∧ o < offset + data.length) → contentAt s' ip o = contentAt s ip o

/-- A read through a descriptor fails, returns nothing, or returns the bytes that start at its
offset. -/
def ReadsAt (offset : Nat) : Prop :=
  ∀ (t : Tid) (ip : SlotId) (s : Fs) (size : Nat), Opened ip s → size < 2 ^ 32 →
    Total (runAs t (fileRead ⟨ip, offset⟩ size)) s fun r _ => r = none ∨ r = some [] ∨
      ∃ got ≤ size, r = some (Bytes.copyOut (contentAt s ip) offset got) ∧
        offset + got ≤ (s.slot ip).size

variable {s : Fs} {t : Tid} {ip : SlotId} {off size : Nat} {data : List Byte} {E : Tops}

/-- The inode with the lock taken. -/
def Fs.locked (s : Fs) (ip : SlotId) (t : Tid) : Fs :=
  s.setSlot ip { s.slot ip with owner := some t }

@[simp] lemma locked_slot : (s.locked ip t).slot ip = { s.slot ip with owner := some t } :=
  update_self ..

lemma run_vfsIlock (hcount : 1 ≤ (s.slot ip).count) (howner : (s.slot ip).owner = none) :
    (runAs t (vfsIlock ip)).run s = .ok ((), s.locked ip t) := by
  unfold vfsIlock
  rw [Prog.run_bind_ok run_load, if_neg (by omega), run_acquiresleep howner]
  rfl

lemma contentAt_stored (s : Fs) (ip : SlotId) (hn : e.ino < tableSize)
    (howned : Owned {e.ino} E blk') (hE : E e.ino = e.blocks) (owner : Option Tid) :
    contentAt ((s.stored ip e blk').setSlot ip { e with owner := owner }) ip =
      byteAt E blk' e.ino := by
  funext o
  have hsaved : byteAt E (saved blk' e) e.ino o = byteAt E blk' e.ino o :=
    (howned.congr fun b hb => saved_of_data _ _ hn hb).2.2 e.ino rfl o
  simp only [contentAt, Fs.setSlot_slot, update_self]
  rw [← hsaved]
  exact byteAt_of_tops (fun i _ => congrFun hE.symm i) o

section
variable (h : Opened ip s)
include h

lemma Opened.vfsWrite {q : Nat → Prop}
    (hwrite : Total (runAs t (writeInode ip off data)) (s.locked ip t)
      fun r s' => ∃ E' blk' k got, r = some got ∧
        s' = (s.locked ip t).stored ip
          (((s.locked ip t).slot ip).written (E' (s.slot ip).ino) (off + got)) blk' ∧
        Grow {(s.slot ip).ino} (s.slot ip).ino (fun _ => (s.slot ip).blocks) s.blk E' blk'
          (copyIn (contentAt s ip) off (data.take got)) k ∧ q got) :
    Total (runAs t (vfsWrite ip off data)) s fun r s' => ∃ got, r = some got ∧ q got ∧
      contentAt s' ip = copyIn (contentAt s ip) off (data.take got) := by
  unfold EasyFs.vfsWrite
  refine total_bind_ok (run_vfsIlock h.count h.owner) ?_
  refine total_bind hwrite ?_
  rintro r s' ⟨E', blk', k, got, rfl, rfl, hgrow, hq⟩
  set e := ((s.locked ip t).slot ip).written (E' (s.slot ip).ino) (off + got) with he
  have hslot : ((s.locked ip t).stored ip e blk').slot ip = e := by simp [Fs.stored]
  have hino : e.ino = (s.slot ip).ino := by simp [he, Slot.written]
  have hcontent := contentAt_stored (s.locked ip t) ip (hino ▸ h.table)
    (hino.symm ▸ hgrow.owned) (by rw [hino, he]; rfl) none
  refine total_bind_ok (run_iunlock ?_ ?_) ?_
  · rw [hslot, he, locked_slot]
    exact h.count
  · rw [hslot, he, locked_slot]
    rfl
  · refine ⟨_, _, rfl, got, rfl, hq, ?_⟩
    rw [hslot, hcontent, hino]
    exact funext hgrow.byte

lemma Opened.total_vfsWrite (hoff : off + data.length < 2 ^ 32) :
    Total (runAs t (EasyFs.vfsWrite ip off data)) s fun r s' => ∃ got, r = some got ∧
      got ≤ data.length ∧
      contentAt s' ip = copyIn (contentAt s ip) off (data.take got) := by
  refine h.vfsWrite ?_
  refine (writeInode_spec (s := s.locked ip t) h.owned rfl (by simp) h.quiet hoff).mono ?_
  rintro r s' ⟨E', blk', k, got, rfl, rfl, hgrow, hle, -⟩
  exact ⟨E', blk', k, got, rfl, by simp, hgrow, hle⟩

lemma Opened.total_vfsWrite_block (hoff : off + data.length < 2 ^ 32)
    (hpos : data.length ≠ 0) (hblock : off % bsize + data.length ≤ bsize)
    (hneed : need (fun _ => (s.slot ip).blocks) s.blk (s.slot ip).ino (blockPath (off / bsize)) ≤
      freeCount s.blk) :
    Total (runAs t (EasyFs.vfsWrite ip off data)) s fun r s' => ∃ got, r = some got ∧
      got = data.length ∧
      contentAt s' ip = copyIn (contentAt s ip) off (data.take got) := by
  refine h.vfsWrite ?_
  refine (writeInode_block (s := s.locked ip t) h.owned rfl (by simp) h.quiet hoff hpos hblock).mono
    ?_
  rintro r s' ⟨E', blk', k, got, rfl, rfl, hgrow, -, hgot, -⟩
  exact ⟨E', blk', k, got, rfl, by simp, hgrow, hgot.trans (if_pos hneed)⟩

lemma Opened.total_vfsRead (off size : Nat) :
    Total (runAs t (vfsRead ip off size)) s fun r _ => r = none ∨
      ∃ got ≤ size, r = some (copyOut (contentAt s ip) off got) ∧ off + got ≤ (s.slot ip).size := by
  have hunlock : ∀ {r : Option (List Byte)} {blocks : Nat → Nat} {blk' : Nat → Bytes},
      (runAs t (readInode ip off size)).run (s.locked ip t) =
        .ok (r, (s.locked ip t).moved ip blocks blk') →
      ∃ s', (runAs t (vfsRead ip off size)).run s = .ok (r, s') := by
    intro r blocks blk' hread
    unfold vfsRead
    rw [Prog.run_bind_ok (run_vfsIlock h.count h.owner), Prog.run_bind_ok hread,
      Prog.run_bind_ok (run_iunlock ?_ ?_)]
    · exact ⟨_, rfl⟩
    · simpa [Fs.moved] using h.count
    · simp [Fs.moved]
  by_cases hbad : (s.slot ip).size < off ∨ 2 ^ 32 ≤ off + size
  · have hread : (runAs t (readInode ip off size)).run (s.locked ip t) =
        .ok (none, (s.locked ip t).moved ip (s.slot ip).blocks s.blk) := by
      unfold readInode
      rw [Prog.run_bind_ok run_load, if_pos (by simpa using hbad)]
      simp [Fs.moved, Fs.locked, Fs.setSlot]
    obtain ⟨s', hrun⟩ := hunlock hread
    exact ⟨none, s', hrun, .inl rfl⟩
  · obtain ⟨r, s', hread, E', blk', k, got, rfl, -, hgot, rfl, -⟩ :=
      @readInode_spec _ (fun _ => (s.slot ip).blocks) _ off (s.locked ip t) t ip size h.owned rfl
        (by simp) h.quiet
        (by simpa using Nat.le_of_not_lt (by tauto)) (by omega)
    obtain ⟨s', hrun⟩ := hunlock hread
    simp only [locked_slot] at hgot
    exact ⟨_, s', hrun, .inr ⟨got, by omega, rfl, by omega⟩⟩

lemma Opened.total_vfsWrite_none (hoff : 2 ^ 32 ≤ off + data.length) :
    Total (runAs t (EasyFs.vfsWrite ip off data)) s fun r _ => r = none := by
  have hwrite : (runAs t (writeInode ip off data)).run (s.locked ip t) =
    .ok (none, s.locked ip t) := by
    unfold writeInode
    rw [if_pos hoff]
    rfl
  unfold EasyFs.vfsWrite
  refine total_bind_ok (run_vfsIlock h.count h.owner) ?_
  refine total_bind_ok hwrite ?_
  refine total_bind_ok (run_iunlock ?_ ?_) ⟨_, _, rfl, rfl⟩
  · simpa using h.count
  · simp

end

/-! ## Which offsets reach the right bytes -/

/-- The offset is kept when it is passed on, or it is passed on as the last one, where no byte can
be read or written. -/
def OffsetKept (offset : Nat) : Prop := offset < 2 ^ 32 ∨ offset % 2 ^ 32 = 2 ^ 32 - 1

lemma OffsetKept.writesAt (h : OffsetKept offset) : WritesAt offset := by
  intro t ip s data hs _
  by_cases hend : uint32 offset + data.length < 2 ^ 32
  · refine Total.mono (hs.total_vfsWrite hend) ?_
    rintro r s' ⟨got, rfl, hgot, hcontent⟩
    have hlen : (data.take got).length = got := List.length_take_of_le hgot
    have hrange : ∀ o, ¬(offset ≤ o ∧ o < offset + data.length) →
        ¬(uint32 offset ≤ o ∧ o < uint32 offset + (data.take got).length) := by
      unfold uint32 OffsetKept at *
      omega
    exact .inr fun o ho => (congrFun hcontent o).trans (copyIn_of_not (hrange o ho))
  · have hend : 2 ^ 32 ≤ uint32 offset + data.length := Nat.le_of_not_lt hend
    exact (hs.total_vfsWrite_none hend).mono fun r _ hr => .inl hr

lemma OffsetKept.readsAt (h : OffsetKept offset) : ReadsAt offset := by
  intro t ip s size hs _
  refine (hs.total_vfsRead (uint32 offset) size).mono ?_
  rintro r - (rfl | ⟨got, hgot, rfl, hend⟩)
  · exact .inl rfl
  · rcases h with hlt | hlast
    · have hnarrow : uint32 offset = offset := Nat.mod_eq_of_lt hlt
      rw [hnarrow] at hend ⊢
      exact .inr (.inr ⟨got, hgot, rfl, hend⟩)
    · have hzero : got = 0 := by
        have := hs.size
        unfold uint32 at hend
        omega
      subst hzero
      exact .inr (.inl rfl)

lemma EmptyFile.opened (h : EmptyFile ip s) : Opened ip s where
  quiet := h.quiet
  table := h.table
  count := h.count
  owner := h.owner
  size := by rw [h.size]; decide
  owned := owned_empty h.blocks

lemma length_blockPath_le (bn : Nat) : (blockPath bn).length ≤ 3 := by
  unfold blockPath
  split_ifs <;> simp

lemma three_le_freeCount_emptyFs : 3 ≤ freeCount emptyFs.blk := by
  have hsub : {0, 1, 2} ⊆ (emptyFs.blk dablkBmip).clearBits (totalBlocks - dataBlock) := by
    intro bit hbit
    have hlt : bit < 3 := by
      simp only [Finset.mem_insert, Finset.mem_singleton] at hbit
      omega
    exact Bytes.mem_clearBits.mpr ⟨hlt.trans (by decide), by simp [emptyFs, Bytes.bit, Bytes.zero]⟩
  exact Finset.card_le_card hsub

lemma OffsetKept.of_writesAt (h : WritesAt offset) : OffsetKept offset := by
  by_contra hkept
  have hopened := emptyFile_emptyFs.opened
  have hneed : need (fun _ => (emptyFs.slot firstSlot).blocks) emptyFs.blk
    (emptyFs.slot firstSlot).ino
      (blockPath (uint32 offset / bsize)) ≤ freeCount emptyFs.blk :=
    need_le_length.trans ((length_blockPath_le _).trans three_le_freeCount_emptyFs)
  have hblock : uint32 offset % bsize + [(7 : Byte)].length ≤ bsize := Nat.mod_lt _ (by decide)
  have hend : uint32 offset + [(7 : Byte)].length < 2 ^ 32 := by
    unfold uint32 OffsetKept at *
    simp only [List.length_singleton]
    omega
  obtain ⟨r, s', hrun, got, rfl, rfl, hcontent⟩ :=
    hopened.total_vfsWrite_block (t := 1) hend (by decide) hblock hneed
  obtain ⟨r, s', hrun', hpost⟩ := h 1 firstSlot emptyFs [7] hopened (by decide)
  cases hrun.symm.trans hrun'
  rcases hpost with hnone | hsame
  · cases hnone
  · have hsmall : ¬(offset ≤ uint32 offset ∧ uint32 offset < offset + [(7 : Byte)].length) := by
      unfold uint32 OffsetKept at *
      omega
    have hnew : contentAt s' firstSlot (uint32 offset) = 7 :=
      (congrFun hcontent _).trans (copyIn_of_mem (i := 0) (by decide))
    have hold : contentAt emptyFs firstSlot (uint32 offset) = 0 := byteAt_of_top rfl
    have hbyte := hsame (uint32 offset) hsmall
    rw [hnew, hold] at hbyte
    exact absurd hbyte (by decide)

/-- Reads and writes through a descriptor are at its offset exactly if the offset is less than 2^32
or becomes 2^32 - 1. -/
theorem descriptor_offset_iff (offset : Nat) :
    WritesAt offset ∧ ReadsAt offset ↔ offset < 2 ^ 32 ∨ offset % 2 ^ 32 = 2 ^ 32 - 1 :=
  ⟨fun h => OffsetKept.of_writesAt h.1, fun h => ⟨OffsetKept.writesAt h, OffsetKept.readsAt h⟩⟩

/-- After `lseek(fd, 2^32, SEEK_SET)` a write changes byte 0. -/
theorem write_after_seek : lseek ⟨firstSlot, 0⟩ 0 (2 ^ 32) 0 = some ⟨firstSlot, 2 ^ 32⟩ ∧
    Total (runAs 1 (fileWrite ⟨firstSlot, 2 ^ 32⟩ [7])) emptyFs fun r s' => r = some 1 ∧
      contentAt emptyFs firstSlot 0 = 0 ∧ contentAt s' firstSlot 0 = 7 := by
  refine ⟨by decide, (Total.of_eval (p := fun r s' => decide (r = some 1 ∧
    contentAt emptyFs firstSlot 0 = 0 ∧ contentAt s' firstSlot 0 = 7)) ?_).mono
      fun _ _ h => of_decide_eq_true h⟩
  decide +kernel

end FrostVista.EasyFs
