import FrostVista.EasyFs.File
import FrostVista.EasyFs.Trunc

/-!
# EasyFS: a file is a flat array of bytes

Whatever calls of `easyfs_write_inode`, `easyfs_read_inode` and `easyfs_itrunc` are made on an
inode, with the inode loaded again from the disk in between, the file behaves as a list of bytes as
long as blocks remain free.
-/
namespace FrostVista.EasyFs

open Lib Lib.Comp

/-! ## The abstract file -/

inductive Call where
  | write (off : Nat) (data : List Byte)
  | read (off size : Nat)
  | trunc
  | reload

inductive Reply where
  | wrote (n : Option Nat)
  | got (data : Option (List Byte))
  | truncated (ok : Bool)
  | loaded

/-- What the call does to a flat file, and what it returns. -/
def Call.spec (f : List Byte) : Call → Reply × List Byte
  | .write off data => (.wrote (some data.length), overwrite f off data)
  | .read off size => (.got (if off ≤ f.length then some ((f.drop off).take size) else none), f)
  | .trunc => (.truncated true, [])
  | .reload => (.loaded, f)

def Call.InRange : Call → Prop
  | .write off data => off + data.length < 2 ^ 32
  | .read off size => off + size < 2 ^ 32
  | _ => True

/-- The call in the code. -/
def Call.perform (ip : SlotId) : Call → FsProg Reply
  | .write off data => do
    let n ← writeInode ip off data
    pure (.wrote n)
  | .read off size => do
    let data ← readInode ip off size
    pure (.got data)
  | .trunc => do
    let ok ← itrunc ip 0
    pure (.truncated ok)
  | .reload => do
    ilock ip
    iunlock ip
    pure .loaded

/-- The file after a list of calls, made by any processes. -/
def contents (calls : List (Tid × Call)) : List Byte :=
  calls.foldl (fun f c => (c.2.spec f).2) []

/-- The calls on the inode `ip` that leave some data block free. -/
def CallStep (ip : SlotId) (s : Fs) (c : Tid × Call) (s' : Fs) : Prop :=
  c.2.InRange ∧ ∃ r, (runAs c.1 (c.2.perform ip)).run s = .ok (r, s') ∧ 0 < freeCount s'.blk

/-- The inode is in the cache, referenced and not locked, and its file is empty. -/
structure EmptyFile (ip : SlotId) (s : Fs) : Prop where
  quiet : s.Quiet
  table : (s.slot ip).ino < tableSize
  count : 1 ≤ (s.slot ip).count
  owner : (s.slot ip).owner = none
  size : (s.slot ip).size = 0
  blocks : ∀ i < 12, (s.slot ip).blocks i = 0
  diskSize : (onDisk s.blk (s.slot ip).ino).size = 0
  diskBlocks : ∀ i < 12, (onDisk s.blk (s.slot ip).ino).blocks i = 0

variable {f data : List Byte} {off size n : Nat} {E : Tops} {s : Fs} {t : Tid} {ip : SlotId}

/-! ## The file in the cache and on the disk -/

/-- The inode `ip` in the cache, and its inode on the disk, hold the file `f`. -/
structure Holds (ip : SlotId) (n : Nat) (E : Tops) (s : Fs) (f : List Byte) : Prop where
  quiet : s.Quiet
  ino : (s.slot ip).ino = n
  table : n < tableSize
  count : 1 ≤ (s.slot ip).count
  owner : (s.slot ip).owner = none
  tops : E n = (s.slot ip).blocks
  owned : Owned {n} E s.blk
  backed : Backed E s.blk n
  size : (s.slot ip).size = f.length
  disk : (onDisk s.blk n).size = f.length
  bound : f.length < 2 ^ 32
  byte : ∀ o, byteAt E s.blk n o = f.getD o 0

lemma nodeAt_empty (h : ∀ i < 12, E n i = 0) (hp : isPlace path)
    (hne : path ≠ []) : nodeAt E blk n path = none := by
  obtain ⟨i, hi, hpre⟩ := (place_ne_nil path hp).mp hne
  exact nodeAt_below hpre (by simp [nodeAt_cons, h i hi])

lemma owned_empty (h : ∀ i < 12, E n i = 0) : Owned {n} E blk := by
  have hnil : ∀ path q, isPlace path → nodeAt E blk n path = some q → path = [] := by
    intro path q hp hq
    by_contra hne
    rw [nodeAt_empty h hp hne] at hq
    cases hq
  refine ⟨?_, ?_⟩
  · rintro _ ⟨m, rfl, rfl⟩ _ ⟨m', rfl, rfl⟩ path path' hp hp' q hd hd'
    exact ⟨rfl, (hnil path q hp hd).trans (hnil path' q hp' hd').symm⟩
  · rintro m rfl path hp a ha
    obtain rfl := hnil path _ hp ha
    cases ha

lemma EmptyFile.holds (h : EmptyFile ip s) :
    Holds ip (s.slot ip).ino (fun _ => (s.slot ip).blocks) s [] where
  quiet := h.quiet
  ino := rfl
  table := h.table
  count := h.count
  owner := h.owner
  tops := rfl
  owned := owned_empty h.blocks
  backed := ⟨fun i hi => .inl (h.diskBlocks i hi), fun o _ =>
    byteAt_of_top (h.blocks _ (topIndex_lt _))⟩
  size := h.size
  disk := h.diskSize
  bound := by simp
  byte o := byteAt_of_top (h.blocks _ (topIndex_lt _))

lemma Holds.stored (h : Holds ip n E s f) (howned : Owned {n} E' blk') (hsize : sz = g.length)
    (hbound : g.length < 2 ^ 32) (hbyte : ∀ o, byteAt E' blk' n o = g.getD o 0) :
    Holds ip n E' (s.stored ip { s.slot ip with blocks := E' n, size := sz } blk') g := by
  obtain ⟨hquiet, rfl, htable, hcount, howner, -, -, -, -, -, -, -⟩ := h
  subst hsize
  set e : Slot := { s.slot ip with blocks := E' (s.slot ip).ino, size := g.length } with he
  obtain ⟨howned', -, hbytes⟩ := howned.congr fun b hb => saved_of_data _ e htable hb
  refine ⟨hquiet, by simp [Fs.stored, he], htable, by simpa [Fs.stored, he] using hcount,
    by simpa [Fs.stored, he] using howner, by simp [Fs.stored, he], howned', ?_,
    by simp [Fs.stored, he], ?_, hbound, ?_⟩
  · exact howned.backed_saved (e := e) rfl rfl
  · have hsame : (onDisk (saved blk' e) e.ino).Same _ := onDisk_saved e
    exact hsame.size.trans (Nat.mod_eq_of_lt hbound)
  · intro o
    rw [← hbyte o]
    exact hbytes _ rfl o

/-! ## The calls -/

/-- After the call the reply is that of the flat file, which the inode still holds, if blocks
remain. -/
def Behaves (ip : SlotId) (n : Nat) (f : List Byte) (c : Call) (r : Reply) (s' : Fs) : Prop :=
  0 < freeCount s'.blk → r = (c.spec f).1 ∧ ∃ E', Holds ip n E' s' (c.spec f).2

section
variable (h : Holds ip n E s f)
include h

lemma Holds.write (hoff : off + data.length < 2 ^ 32) :
    Total (runAs t ((Call.write off data).perform ip)) s (Behaves ip n f (.write off data)) := by
  refine Prog.total_bind (writeInode_spec h.owned rfl h.tops h.quiet hoff) ?_
  rintro _ _ ⟨E', blk', k, got, rfl, rfl, hgrow, hgot, hfull⟩
  refine .pure fun hfree => ?_
  obtain rfl : got = data.length := by
    by_contra hne
    have hsome : 0 < freeCount blk' := by simpa [Fs.stored, freeCount_saved] using hfree
    have := hfull (by omega)
    omega
  rw [List.take_length] at hgrow
  refine ⟨rfl, E', h.stored hgrow.owned ?_ ?_ ?_⟩
  · rw [h.size]
    exact length_overwrite.symm
  · have := h.bound
    have hlen : (overwrite f off data).length = max f.length (off + data.length) := length_overwrite
    change (overwrite f off data).length < _
    omega
  · intro o
    rw [hgrow.byte]
    change _ = (overwrite f off data).getD o 0
    rw [getD_overwrite, show byteAt E s.blk n = fun o => f.getD o 0 from funext h.byte]

lemma Holds.read (hoff : off + size < 2 ^ 32) :
    Total (runAs t ((Call.read off size).perform ip)) s (Behaves ip n f (.read off size)) := by
  by_cases hle : off ≤ f.length
  · refine Prog.total_bind (readInode_spec h.owned rfl h.tops h.quiet (h.size ▸ hle) hoff) ?_
    rintro _ _ ⟨E', blk', k, got, rfl, hgrow, hgot, rfl, hfull, -⟩
    refine .pure fun hfree => ?_
    rw [h.size] at hgot hfull
    obtain rfl : got = min size (f.length - off) := by
      by_contra hne
      have := hfull (by omega)
      change 0 < freeCount blk' at hfree
      omega
    refine ⟨?_, E', ?_⟩
    · simp only [Call.spec, if_pos hle, take_drop_eq_copyOut]
      rw [show byteAt E s.blk n = fun o => f.getD o 0 from funext h.byte]
    · have hdisk : onDisk blk' n = onDisk s.blk n := hgrow.onDisk h.table
      exact { h with
        ino := by simpa [Fs.moved] using h.ino
        count := by simpa [Fs.moved] using h.count
        owner := by simpa [Fs.moved] using h.owner
        tops := (moved_slot _).symm
        owned := hgrow.owned
        backed := h.backed.grow hgrow h.table hgrow.byte
        size := by simpa [Fs.moved, Call.spec] using h.size
        disk := by
          change (onDisk blk' n).size = _
          rw [hdisk, h.disk]
          rfl
        byte := fun o => (hgrow.byte o).trans (h.byte o) }
  · have hrun : (runAs t (readInode ip off size)).run s = .ok (none, s) := by
      unfold readInode
      rw [Prog.run_bind_ok run_load, h.size, if_pos (.inl (by omega))]
      rfl
    refine Prog.total_bind_ok hrun (.pure fun _ => ⟨?_, E, h⟩)
    simp [Call.spec, hle]

lemma Holds.trunc :
    Total (runAs t (Call.trunc.perform ip)) s (Behaves ip n f .trunc) := by
  refine Prog.total_bind (itrunc_spec h.owned rfl h.tops h.quiet) ?_
  rintro _ _ ⟨rfl, E', blk', rfl, hcut, hzero⟩
  refine .pure fun _ => ⟨rfl, E', h.stored hcut.owned rfl (by simp [Call.spec]) fun o => ?_⟩
  exact byteAt_of_top (hzero _ (topIndex_lt _))

lemma Holds.reload :
    Total (runAs t (Call.reload.perform ip)) s (Behaves ip n f .reload) := by
  obtain ⟨howned, hbyte, hbacked⟩ := h.owned.reload h.backed
  refine Prog.total_bind_ok (run_ilock h.count h.owner (h.quiet _)) ?_
  refine Prog.total_bind_ok (run_iunlock (by simpa [Slot.loaded] using h.count) (by simp)) ?_
  refine .pure fun _ => ⟨rfl, Function.update E n (onDisk s.blk n).blocks, ?_⟩
  refine { h with
    ino := by simpa [Slot.loaded] using h.ino
    count := by simpa [Slot.loaded] using h.count
    owner := by simp
    tops := by simp [Slot.loaded, h.ino]
    owned := howned
    backed := hbacked n rfl h.backed
    size := ?_
    disk := h.disk
    byte := fun o => (hbyte n rfl o).trans (h.byte o) }
  simp [Slot.loaded, h.ino, h.disk, Call.spec]

lemma Holds.call (c : Call) (hc : c.InRange) :
    Total (runAs t (c.perform ip)) s (Behaves ip n f c) := by
  cases c with
  | write off data => exact h.write hc
  | read off size => exact h.read hc
  | trunc => exact h.trunc
  | reload => exact h.reload

end

/-! ## Runs -/

lemma contents_snoc (calls : List (Tid × Call)) (c : Tid × Call) :
    contents (calls ++ [c]) = (c.2.spec (contents calls)).2 := by
  simp [contents, List.foldl_append]

lemma holds_run (h0 : EmptyFile ip s0)
    (hrun : Run (CallStep ip) s0 calls s) : ∃ E, Holds ip (s0.slot ip).ino E s
    (contents calls) := by
  refine hrun.history (fun calls s => ∃ E, Holds ip (s0.slot ip).ino E s (contents calls))
    (fun _ _ => True) ?_ ⟨_, h0.holds⟩ fun _ _ _ _ => trivial
  rintro before s ⟨t, c⟩ s' ⟨E, hE⟩ - ⟨hc, r, hstep, hfree⟩
  rw [contents_snoc]
  exact (((hE.call c hc).of_run hstep) hfree).2

/-- In every run from an empty file, each call returns what it returns for a flat array of bytes, as
long as free data blocks remain. -/
theorem file_flat {s₀ : Fs} {calls : List (Tid × Call)} (h₀ : EmptyFile ip s₀)
    (hrun : Run (CallStep ip) s₀ calls s) (c : Call) (hc : c.InRange) (t : Tid) :
    Total (runAs t (c.perform ip)) s fun r s' =>
      0 < freeCount s'.blk → r = (c.spec (contents calls)).1 := by
  obtain ⟨E, hE⟩ := holds_run h₀ hrun
  exact (hE.call c hc).mono fun r s' h hfree => (h hfree).1

/-- An empty disk, with the empty file 1 in the cache. -/
def emptyFs : Fs where
  blk _ := Bytes.zero
  busy _ := false
  slot _ := ⟨0, 1, 1, 1, 0x10, 0, fun _ => 0, none⟩
  order := []

def firstSlot : SlotId := ⟨0, Kernel.Namei.ninodes_pos⟩

lemma emptyFile_emptyFs : EmptyFile firstSlot emptyFs :=
  ⟨fun _ => rfl, by decide, le_rfl, rfl, rfl, fun _ _ => rfl, Bytes.load_zero _ _,
    fun _ _ => Bytes.load_zero _ _⟩

lemma run_writeAcross : ∃ s, Run (CallStep firstSlot) emptyFs [(1, .write 4095 [7, 8])] s := by
  have hbit : (match (runAs 1 ((Call.write 4095 [7, 8]).perform firstSlot)).run emptyFs with
      | .ok (_, s') => (s'.blk dablkBmip).bit 2
      | .error _ => true) = false := by decide +kernel
  cases hwrite : (runAs 1 ((Call.write 4095 [7, 8]).perform firstSlot)).run emptyFs with
  | error e =>
    rw [hwrite] at hbit
    cases hbit
  | ok p =>
    obtain ⟨r, s⟩ := p
    rw [hwrite] at hbit
    exact ⟨s, .cons ⟨(by omega : 4095 + 2 < 2 ^ 32), r, hwrite, freeCount_pos (by decide) hbit⟩
      (.nil s)⟩

/-- Two bytes are written across the end of the first block and read back. -/
theorem file_flat_across_blocks : ∃ s, EmptyFile firstSlot emptyFs ∧
    Run (CallStep firstSlot) emptyFs [(1, .write 4095 [7, 8])] s ∧
    Total (runAs 2 ((Call.read 4095 2).perform firstSlot)) s fun r s' =>
      0 < freeCount s'.blk → r = .got (some [7, 8]) := by
  obtain ⟨s, hrun⟩ := run_writeAcross
  have hread : ∀ off, ((Call.read off 2).spec (contents [(1, .write off [7, 8])])).1 =
      .got (some [7, 8]) := fun off => by simp [Call.spec, contents, overwrite]
  have hflat := file_flat emptyFile_emptyFs hrun (.read 4095 2) (by omega : 4095 + 2 < 2 ^ 32) 2
  rw [hread] at hflat
  exact ⟨s, emptyFile_emptyFs, hrun, hflat⟩

/-! ## What truncation frees -/

/-- The block `b` is a data block or an index block of the file `n`. -/
def InFile (E : Tops) (blk : Nat → Bytes) (n b : Nat) : Prop :=
  ∃ path, isPlace path ∧ nodeAt E blk n path = some (.block b)

/-- `easyfs_itrunc` returns without a panic, so no block is freed twice. Afterwards the blocks of
the file are free and all other bits of the bitmap, all other blocks and all other inodes are as
before; the inode has size 0 and no blocks, in memory and on the disk. -/
theorem itrunc_frees_file {s : Fs} {ip : SlotId} {E : Tops} {n : Nat} (t : Tid)
    (hino : (s.slot ip).ino = n) (hn : n < tableSize) (hE : E n = (s.slot ip).blocks)
    (h : Owned {n} E s.blk) (hs : s.Quiet) :
    Total (runAs t (itrunc ip 0)) s fun ok s' => ok = true ∧
      (∀ b, dataBlock ≤ b →
        (allocated s'.blk b = true ↔ allocated s.blk b = true ∧ ¬InFile E s.blk n b)) ∧
      (∀ b, b ≠ dablkBmip → b ≠ tableBlock n → ¬InFile E s.blk n b → s'.blk b = s.blk b) ∧
      (∀ m < tableSize, m ≠ n → (onDisk s'.blk m).Same (onDisk s.blk m)) ∧
      (s'.slot ip).size = 0 ∧ (∀ i < 12, (s'.slot ip).blocks i = 0) ∧
      (onDisk s'.blk n).size = 0 ∧ ∀ i < 12, (onDisk s'.blk n).blocks i = 0 := by
  refine (itrunc_spec h rfl hE hs).mono ?_
  rintro ok _ ⟨rfl, E', blk', rfl, hcut, hzero⟩
  have hplace : ∀ b, (∀ path, isPlace path → path ≠ [] →
      nodeAt E s.blk n path ≠ some (.block b)) ↔ ¬InFile E s.blk n b := by
    intro b
    refine ⟨fun hall ⟨path, hp, hc⟩ => hall path hp ?_ hc, fun hout path hp _ hc =>
      hout ⟨path, hp, hc⟩⟩
    rintro rfl
    cases hc
  obtain ⟨e, he⟩ : ∃ e, e = { s.slot ip with blocks := E' n, size := 0 } := ⟨_, rfl⟩
  have hsize : e.size = 0 := by rw [he]
  have hblocks : ∀ i < 12, e.blocks i = 0 := by
    rw [he]
    exact hzero
  obtain rfl : e.ino = n := by rw [he, hino]
  rw [← he]
  have hsaved : (onDisk (saved blk' e) e.ino).Same _ := onDisk_saved e
  refine ⟨rfl, fun b hb => ?_, fun b hb hbt hout => ?_, fun m hm hne => ?_, ?_, ?_, ?_, ?_⟩
  · rw [← hplace, ← hcut.bits b hb]
    simp only [allocated, Fs.stored, saved_of_ne tableBlock_ne.1.symm]
  · exact (saved_of_ne hbt).trans (hcut.rest b hb fun path hp hc => hout ⟨path, hp, hc⟩)
  · refine (onDisk_saved_of_ne hne).trans ?_
    rw [onDisk_congr (hcut.low _ (tableBlock_lt.mpr hm) tableBlock_ne.1)]
    exact .refl _
  · simp [Fs.stored, hsize]
  · simpa [Fs.stored] using hblocks
  · simpa [Fs.stored, hsize] using hsaved.size
  · intro i hi
    simpa [Fs.stored, hblocks i hi] using hsaved.blocks i hi

/-- After the two bytes were written, truncation frees the two blocks of the file. -/
theorem itrunc_frees_file_across : ∃ s E, Owned {1} E s.blk ∧
    Total (runAs 2 (itrunc firstSlot 0)) s fun _ s' => ∀ b, dataBlock ≤ b →
      (allocated s'.blk b = true ↔ allocated s.blk b = true ∧ ¬InFile E s.blk 1 b) := by
  obtain ⟨s, hrun⟩ := run_writeAcross
  obtain ⟨E, hE⟩ := holds_run emptyFile_emptyFs hrun
  exact ⟨s, E, hE.owned, (itrunc_frees_file 2 hE.ino hE.table hE.tops hE.owned hE.quiet).mono
    fun _ _ hpost => hpost.2.1⟩

end FrostVista.EasyFs
