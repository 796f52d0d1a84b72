import FrostVista.EasyFs.Inode

/-!
# EasyFS: reading and writing files

What `easyfs_read_inode` and `easyfs_write_inode` do when they run alone, in terms of the bytes of
the file. Reading adds the missing blocks as well, to the inode in the cache only.
-/
namespace FrostVista.EasyFs

open Lib Lib.Comp Function List Bytes Nat Prog

variable {R : Set Nat} {E E' : Tops} {blk blk' : Nat → Bytes} {n a bn off : Nat} {s : Fs} {t : Tid}
  {ip : SlotId}

/-! ## One block -/

variable {data : List Byte} {size tot i : Nat}

lemma Owned.grow_write (h : Owned R E blk) (hn : n ∈ R)
    (hd : dataNode E blk n (off / bsize) = some (.block a))
    (hlen : off % bsize + data.length ≤ bsize) :
    Grow R n E blk E (update blk a ((blk a).copyIn (off % bsize) data))
      (copyIn (byteAt E blk n) off data) 0 := by
  obtain ⟨howned, hnode, hbyte⟩ := h.write_data hn hd ((blk a).copyIn (off % bsize) data)
  obtain ⟨hmax, hd'⟩ := dataNode_eq_some.mp hd
  have hlo := (h.block n hn _ (isPlace_blockPath hmax) a hd').1
  have hmap : update blk a ((blk a).copyIn (off % bsize) data) dablkBmip = blk dablkBmip :=
    update_of_ne (dablkBmip_ne hlo) _ _
  have hbit : ∀ b, allocated (update blk a ((blk a).copyIn (off % bsize) data)) b =
      allocated blk b := fun b => by rw [allocated, allocated, hmap]
  refine ⟨howned, fun _ _ => rfl, fun _ _ => rfl, ?_, ?_, ?_, ?_, ?_, ?_, ?_, ?_⟩
  · intro path hp q hq
    rw [hnode n hn path hp]
    exact hq
  · intro m hm _ path hp
    exact hnode m hm path hp
  · intro o
    have hblock : ∀ o, o / bsize = off / bsize → blk a (o % bsize) = byteAt E blk n o :=
      fun o ho => by
      rw [byteAt, ho, hd]
    rw [hbyte n hn o, copyIn_block hlen hblock]
    simp only [true_and]
  · intro m hm hne o
    rw [hbyte m hm o, if_neg fun hc => hne hc.1]
  · intro b hb _
    exact update_of_ne (by omega) _ _
  · intro b _ hb
    rw [hbit b]
    exact hb
  · intro b _ hb
    rw [hbit b] at hb
    exact .inl hb
  · rw [freeCount, freeCount, hmap, add_zero]

lemma copyOut_block (hd : dataNode E blk n (off / bsize) = some (.block a))
    (hm : off % bsize + m ≤ bsize) :
    (blk a).copyOut (off % bsize) m = Bytes.copyOut (byteAt E blk n) off m :=
  Bytes.copyOut_block hm fun o ho => by rw [byteAt, ho, hd]

/-- All blocks of a part of a file have been allocated. -/
def Covered (E : Tops) (blk : Nat → Bytes) (n off size : Nat) : Prop :=
  ∀ o, off ≤ o → o < off + size → ∃ a, dataNode E blk n (o / bsize) = some (.block a)

lemma div_lt_maxfile (h : off < 2 ^ 32) : off / bsize < maxfile := by
  simp only [bsize, maxfile, ndirect, nindirect]
  omega

/-! ## Reading -/

section
variable (h : Owned R E s.blk) (hn : n ∈ R) (hE : E n = (s.slot ip).blocks) (hs : s.Quiet)
include h hn hE hs

lemma readLoop_spec (fuel : Nat) (hoff : off + size ≤ 2 ^ 32) (hfuel : size ≤ fuel) :
    Total (runAs t (readLoop ip fuel off size acc)) s fun out s' => ∃ E' blk' k got,
      s' = s.moved ip (E' n) blk' ∧ Grow R n E s.blk E' blk' (byteAt E s.blk n) k ∧ got ≤ size ∧
      out = acc ++ copyOut (byteAt E s.blk n) off got ∧ (got < size → freeCount blk' = 0) ∧
      (Covered E s.blk n off size → E' = E ∧ blk' = s.blk ∧ got = size) := by
  induction fuel generalizing s E off size acc with
  | zero =>
    obtain rfl : size = 0 := by omega
    refine .pure ⟨E, s.blk, 0, 0, (moved_self hE).symm, h.grow, le_rfl, by simp [copyOut],
      fun hc => absurd hc (lt_irrefl _), fun _ => ⟨rfl, rfl, rfl⟩⟩
  | succ fuel ih =>
    unfold readLoop
    split
    · rename_i hzero
      subst hzero
      refine .pure ⟨E, s.blk, 0, 0, (moved_self hE).symm, h.grow, le_rfl, by simp [copyOut],
        fun hc => absurd hc (lt_irrefl _), fun _ => ⟨rfl, rfl, rfl⟩⟩
    · rename_i hpos
      have hbn := div_lt_maxfile (show off < 2 ^ 32 by omega)
      refine total_bind (bmap_spec h hn hE hbn hs) ?_
      rintro addr _ ⟨E1, blk1, k, rfl, hreach⟩
      have hcov : Covered E s.blk n off size →
          ∃ b, nodeAt E s.blk n (blockPath (off / bsize)) = some (.block b) := by
        intro hc
        obtain ⟨b, hb⟩ := hc off le_rfl (by omega)
        exact ⟨b, (dataNode_eq_some.mp hb).2⟩
      split
      · rename_i hzero
        subst hzero
        refine .pure ⟨E1, blk1, k, 0, rfl, hreach.grow, zero_le _, by simp [copyOut], ?_, ?_⟩
        · intro _
          rcases hreach.found with ⟨hr, -⟩ | ⟨-, hfull, -⟩
          · exact absurd rfl hr
          · exact hfull
        · intro hc
          obtain ⟨b, hb⟩ := hcov hc
          exact absurd (hreach.kept b hb).1.symm (nodeAt_block_ne_zero hb)
      · rename_i haddr
        have hnode := dataNode_eq_some.mpr ⟨hbn, hreach.node haddr⟩
        refine total_bind_ok (run_bread (hs addr)) ?_
        refine total_bind_ok run_brelse ?_
        rw [setBusy_setBusy (s := s.moved ip (E1 n) blk1) (hs addr)]
        set m := min size (bsize - off % bsize) with hm
        have hmod : off % bsize < bsize := mod_lt _ (by decide)
        refine (ih (s := s.moved ip (E1 n) blk1) hreach.grow.owned (moved_slot _).symm hs
          (by omega) (by omega)).mono ?_
        rintro out _ ⟨E2, blk2, l, got, rfl, hgrow, hgot, hout, hfull, hcover⟩
        have hbyte : byteAt E1 blk1 n = byteAt E s.blk n := funext hreach.grow.byte
        refine ⟨E2, blk2, k + l, m + got, moved_moved ..,
          ?_, by omega, ?_, fun hlt => hfull (by omega), ?_⟩
        · have := hreach.grow.trans hgrow
          rwa [show byteAt E1 (s.moved ip (E1 n) blk1).blk n = byteAt E s.blk n from hbyte] at this
        · rw [hout, append_assoc]
          congr 1
          change (blk1 addr).copyOut (off % bsize) m ++ copyOut (byteAt E1 blk1 n) (off + m) got = _
          rw [copyOut_block hnode (by omega), hbyte, copyOut_append]
        · intro hc
          obtain ⟨b, hb'⟩ := hcov hc
          obtain ⟨-, rfl, rfl⟩ := hreach.kept b hb'
          obtain ⟨rfl, rfl, rfl⟩ := hcover fun o ho ho' => hc o (by omega) (by omega)
          exact ⟨rfl, rfl, by omega⟩

lemma readInode_spec (hle : off ≤ (s.slot ip).size) (hsize : off + size < 2 ^ 32) :
    Total (runAs t (readInode ip off size)) s fun out s' => ∃ E' blk' k got,
      s' = s.moved ip (E' n) blk' ∧ Grow R n E s.blk E' blk' (byteAt E s.blk n) k ∧
      got ≤ min size ((s.slot ip).size - off) ∧ out = some (copyOut (byteAt E s.blk n) off got) ∧
      (got < min size ((s.slot ip).size - off) → freeCount blk' = 0) ∧
      (Covered E s.blk n off (min size ((s.slot ip).size - off)) →
        E' = E ∧ blk' = s.blk ∧ got = min size ((s.slot ip).size - off)) := by
  unfold readInode
  refine total_bind_ok run_load ?_
  rw [if_neg (by omega)]
  have hmin : (if (s.slot ip).size < off + size then (s.slot ip).size - off else size) =
      min size ((s.slot ip).size - off) := by
    split <;> omega
  simp only [hmin]
  refine total_bind (readLoop_spec h hn hE hs _ (by omega) le_rfl) ?_
  rintro out s' ⟨E', blk', k, got, hs', hgrow, hgot, hout, hfull, hcov⟩
  exact .pure ⟨E', blk', k, got, hs', hgrow, hgot, by simpa using hout, hfull, hcov⟩

/-! ## Writing -/

lemma writeLoop_round (fuel tot : Nat) (hoff : off < 2 ^ 32) (hpos : data.length ≠ 0) :
    ∃ E' blk' k r, Reached R n E s.blk E' blk' (blockPath (off / bsize)) k r ∧
      (runAs t (writeLoop ip (fuel + 1) off data tot)).run s =
        if r = 0 then .ok (tot, s.moved ip (E' n) blk')
        else
          let m := min data.length (bsize - off % bsize)
          (runAs t (writeLoop ip fuel (off + m) (data.drop m) (tot + m))).run (s.moved ip (E' n)
            (update blk' r ((blk' r).copyIn (off % bsize) (data.take m)))) := by
  obtain ⟨r, s1, hrun, E', blk', k, rfl, hreach⟩ :=
    bmap_spec (t := t) h hn hE (div_lt_maxfile hoff) hs
  refine ⟨E', blk', k, r, hreach, ?_⟩
  rw [writeLoop, if_neg hpos, Prog.run_bind_ok hrun]
  split
  · rfl
  · rw [Prog.run_bind_ok (run_bread (s := s.moved ip (E' n) blk') (hs r)),
      Prog.run_bind_ok (run_bwrite _), Prog.run_bind_ok run_brelse,
      setBusy_setBlk_setBusy (s := s.moved ip (E' n) blk') (hs r)]
    rfl

lemma writeLoop_spec (fuel : Nat) (hoff : off + data.length ≤ 2 ^ 32) (hfuel : data.length ≤ fuel) :
    Total (runAs t (writeLoop ip fuel off data tot)) s fun out s' => ∃ E' blk' k got,
      s' = s.moved ip (E' n) blk' ∧
      Grow R n E s.blk E' blk' (copyIn (byteAt E s.blk n) off (data.take got)) k ∧
      got ≤ data.length ∧ out = tot + got ∧ (got < data.length → freeCount blk' = 0) := by
  induction fuel generalizing s E off data tot with
  | zero =>
    obtain rfl : data = [] := length_eq_zero_iff.mp (by omega)
    exact .pure ⟨E, s.blk, 0, 0, (moved_self hE).symm, by simpa using h.grow, le_rfl, rfl,
      fun hc => absurd hc (lt_irrefl _)⟩
  | succ fuel ih =>
    by_cases hpos : data.length = 0
    · obtain rfl : data = [] := length_eq_zero_iff.mp hpos
      unfold writeLoop
      exact .pure ⟨E, s.blk, 0, 0, (moved_self hE).symm, by simpa using h.grow, le_rfl, rfl,
        fun hc => absurd hc (lt_irrefl _)⟩
    · obtain ⟨E1, blk1, k, r, hreach, hrun⟩ := writeLoop_round (t := t) h hn hE hs fuel tot
        (show off < 2 ^ 32 by omega) hpos
      have hbyte : byteAt E1 blk1 n = byteAt E s.blk n := funext hreach.grow.byte
      by_cases hr : r = 0
      · rw [if_pos hr] at hrun
        refine ⟨tot, _, hrun, E1, blk1, k, 0, rfl, by simpa using hreach.grow, zero_le _, rfl, ?_⟩
        intro _
        rcases hreach.found with ⟨hne, -⟩ | ⟨-, hfull, -⟩
        · exact absurd hr hne
        · exact hfull
      · rw [if_neg hr] at hrun
        set m := min data.length (bsize - off % bsize) with hm
        have hmod : off % bsize < bsize := mod_lt _ (by decide)
        have htake : (data.take m).length = m := by
          rw [length_take]
          omega
        have hnode :=
          dataNode_eq_some.mpr ⟨div_lt_maxfile (show off < 2 ^ 32 by omega), hreach.node hr⟩
        have hwrite := hreach.grow.trans (hreach.grow.owned.grow_write hn hnode
          (show off % bsize + (data.take m).length ≤ bsize by omega))
        rw [hbyte, add_zero] at hwrite
        set blk2 := update blk1 r ((blk1 r).copyIn (off % bsize) (data.take m)) with hblk2
        have hlen : (data.drop m).length = data.length - m := length_drop
        obtain ⟨out, s', hrest, E3, blk3, l, got, rfl, hgrow, hgot, rfl, hfull⟩ :
            Total (runAs t (writeLoop ip fuel (off + m) (data.drop m) (tot + m)))
              (s.moved ip (E1 n) blk2) _ :=
          ih hwrite.owned (moved_slot _).symm hs (by omega) (by omega)
        refine ⟨tot + m + got, _, hrun.trans hrest, E3, blk3, k + l, m + got,
          moved_moved .., ?_, by omega,
          by omega, fun hlt => hfull (by omega)⟩
        have hall := hwrite.trans hgrow
        have hbytes : byteAt E1 (s.moved ip (E1 n) blk2).blk n =
            copyIn (byteAt E s.blk n) off (data.take m) := funext hwrite.byte
        have happend : data.take m ++ (data.drop m).take got = data.take (m + got) :=
          (take_add ..).symm
        have hcopy := @Bytes.copyIn_append (byteAt E s.blk n) off (data.take m)
          ((data.drop m).take got)
        rw [htake, happend] at hcopy
        rwa [hbytes, hcopy] at hall

end

/-- The cached inode after a write. -/
def Slot.written (e : Slot) (blocks : Nat → Nat) (stop : Nat) : Slot :=
  { e with blocks := blocks, size := max e.size stop }

lemma run_writeInode (hs : s.Quiet) (hoff : off + data.length < 2 ^ 32)
    (hloop : (runAs t (writeLoop ip data.length off data 0)).run s =
      .ok (tot, s.moved ip blocks blk)) :
    (runAs t (writeInode ip off data)).run s =
      .ok (some tot, s.stored ip ((s.slot ip).written blocks (off + tot)) blk) := by
  have hmax : ¬maxfile * bsize < off + data.length := by
    simp only [maxfile, ndirect, nindirect, bsize]
    omega
  unfold writeInode
  rw [if_neg (by omega), if_neg hmax, Prog.run_bind_ok hloop, Prog.run_bind_ok run_load]
  unfold Prog.when
  by_cases hsize : (s.slot ip).size < off + tot
  · have hbig : max (s.slot ip).size (off + tot) = off + tot := by omega
    rw [if_pos (by simpa [Fs.moved] using hsize), Prog.run_bind_ok (run_edit _),
      Prog.run_bind_ok (run_iupdate (s := (s.moved ip blocks blk).setSlot ip _) (hs _))]
    simp [Fs.moved, Fs.setSlot, Fs.stored, Slot.written, hbig]
  · have hbig : max (s.slot ip).size (off + tot) = (s.slot ip).size := by omega
    rw [if_neg (by simpa [Fs.moved] using hsize)]
    simp only [Prog.pure_bind]
    rw [Prog.run_bind_ok (run_iupdate (s := s.moved ip blocks blk) (hs _))]
    simp [Fs.moved, Fs.stored, Slot.written, hbig]

section
variable (h : Owned R E s.blk) (hn : n ∈ R) (hE : E n = (s.slot ip).blocks) (hs : s.Quiet)
  (hoff : off + data.length < 2 ^ 32)
include h hn hE hs hoff

lemma writeInode_spec :
    Total (runAs t (writeInode ip off data)) s fun out s' => ∃ E' blk' k got, out = some got ∧
      s' = s.stored ip ((s.slot ip).written (E' n) (off + got)) blk' ∧
      Grow R n E s.blk E' blk' (copyIn (byteAt E s.blk n) off (data.take got)) k ∧
      got ≤ data.length ∧ (got < data.length → freeCount blk' = 0) := by
  obtain ⟨out, s', hloop, E', blk', k, got, rfl, hgrow, hgot, rfl, hfull⟩ :
      Total (runAs t (writeLoop ip data.length off data 0)) s _ :=
    writeLoop_spec h hn hE hs data.length (by omega) le_rfl
  rw [zero_add] at hloop
  exact ⟨some got, _, run_writeInode hs hoff hloop, E', blk', k, got, rfl, rfl, hgrow, hgot, hfull⟩

/-- A write that stays in one block writes everything if there are enough free blocks for the way to
it, and nothing otherwise. -/
lemma writeInode_block (hpos : data.length ≠ 0) (hblock : off % bsize + data.length ≤ bsize) :
    Total (runAs t (writeInode ip off data)) s fun out s' => ∃ E' blk' k got, out = some got ∧
      s' = s.stored ip ((s.slot ip).written (E' n) (off + got)) blk' ∧
      Grow R n E s.blk E' blk' (copyIn (byteAt E s.blk n) off (data.take got)) k ∧
      Covered E' blk' n off got ∧
      got = (if need E s.blk n (blockPath (off / bsize)) ≤ freeCount s.blk then data.length
        else 0) ∧
      (need E s.blk n (blockPath (off / bsize)) ≤ freeCount s.blk →
        k = need E s.blk n (blockPath (off / bsize))) := by
  have hlt : off < 2 ^ 32 := by omega
  obtain ⟨fuel, hfuel⟩ := exists_eq_succ_of_ne_zero hpos
  obtain ⟨E', blk', k, r, hreach, hrun⟩ := writeLoop_round (t := t) h hn hE hs fuel 0 hlt hpos
  have hcount := hreach.grow.count
  have hbyte : byteAt E' blk' n = byteAt E s.blk n := funext hreach.grow.byte
  rw [← succ_eq_add_one, ← hfuel] at hrun
  by_cases hr : r = 0
  · rw [if_pos hr] at hrun
    refine ⟨some 0, _, run_writeInode hs hoff hrun, E', blk', k, 0, rfl,
      rfl, by simpa using hreach.grow,
      fun o hlo hhi => absurd hhi (by omega), ?_⟩
    rcases hreach.found with ⟨hne, -⟩ | ⟨-, hfull, hk⟩
    · exact absurd hr hne
    · exact ⟨by rw [if_neg (by omega)], by omega⟩
  · have hm : min data.length (bsize - off % bsize) = data.length := by omega
    rw [if_neg hr, hm] at hrun
    simp only [drop_length, take_length, zero_add] at hrun
    have hnode := dataNode_eq_some.mpr ⟨div_lt_maxfile hlt, hreach.node hr⟩
    have hwrite := hreach.grow.trans (hreach.grow.owned.grow_write hn hnode hblock)
    rw [hbyte] at hwrite
    have hdone :
      ∀ fuel s', (runAs t (writeLoop ip fuel (off + data.length) [] data.length)).run s' =
        .ok (data.length, s') := by
      intro fuel s'
      cases fuel <;> rfl
    rw [hdone] at hrun
    refine ⟨some data.length, _, run_writeInode hs hoff hrun, E', _, k, data.length, rfl, rfl,
      by simpa using hwrite, fun o hlo hhi => ?_, ?_⟩
    · have hsame : o / bsize = off / bsize := by
        simp only [bsize] at hblock hhi ⊢
        omega
      rw [hsame]
      exact ⟨r, dataNode_eq_some.mpr ⟨div_lt_maxfile hlt, (hreach.grow.owned.grow_write hn hnode
        hblock).node _ (isPlace_blockPath (div_lt_maxfile hlt)) _ (hreach.node hr)⟩⟩
    rcases hreach.found with ⟨-, -, hk⟩ | ⟨hzero, -⟩
    · exact ⟨by rw [if_pos (by omega)], fun _ => hk⟩
    · exact absurd hzero hr

end

/-! ## The file on the disk -/

/-- The inode on the disk may have fewer blocks than the one in the cache, but no fewer bytes:
blocks that it does not name are zero. -/
structure Backed (E : Tops) (blk : Nat → Bytes) (n : Nat) : Prop where
  le : ∀ i < 12, (onDisk blk n).blocks i = 0 ∨ (onDisk blk n).blocks i = E n i
  zero : ∀ o, (onDisk blk n).blocks (topIndex (o / bsize)) = 0 → byteAt E blk n o = 0

variable {m : Nat} {e : Slot} {f : Nat → Byte} {k : Nat}

lemma saved_of_data (blk : Nat → Bytes) (e : Slot) (hn : e.ino < tableSize)
    (hb : b = dablkBmip ∨ dataBlock ≤ b) :
    saved blk e b = blk b := by
  refine saved_of_ne ?_
  rcases hb with rfl | hb
  · exact tableBlock_ne.1.symm
  · have := tableBlock_lt.mpr hn
    omega

lemma freeCount_saved : freeCount (saved blk e) = freeCount blk := by
  rw [freeCount, freeCount, saved_of_ne tableBlock_ne.1.symm]

lemma Grow.onDisk (h : Grow R n E blk E' blk' f k) (hm : m < tableSize) :
    onDisk blk' m = onDisk blk m :=
  onDisk_congr (h.low _ (tableBlock_lt.mpr hm) tableBlock_ne.1)

lemma Grow.top_of (h : Grow R n E blk E' blk' f k) (hc : c = 0 ∨ c = E m i) :
    c = 0 ∨ c = E' m i := by
  by_cases hmn : m = n
  · subst hmn
    by_cases hzero : c = 0
    · exact .inl hzero
    · have hc := hc.resolve_left hzero
      rw [h.top i (hc ▸ hzero)]
      exact .inr hc
  · rwa [h.tops m hmn]

lemma Backed.grow (h : Backed E blk m) (hg : Grow R n E blk E' blk' f k) (hlt : m < tableSize)
    (hbyte : ∀ o, byteAt E' blk' m o = byteAt E blk m o) : Backed E' blk' m := by
  have hdisk := hg.onDisk hlt
  refine ⟨fun i hi => ?_, fun o ho => ?_⟩
  · rw [hdisk]
    exact hg.top_of (h.le i hi)
  · rw [hdisk] at ho
    rw [hbyte, h.zero o ho]

lemma Owned.top_lt (h : Owned R E blk) (hn : n ∈ R) (hi : i < 12) : E n i < totalBlocks := by
  by_cases hzero : E n i = 0
  · rw [hzero]
    decide
  · refine (h.block n hn [i] hi (E n i) ?_).2.1
    simp [nodeAt_cons, hzero]

lemma byteAt_of_top (hzero : E n (topIndex (off / bsize)) = 0) : byteAt E blk n off = 0 := by
  obtain ⟨rest, hrest⟩ := blockPath_eq (off / bsize)
  have hnode : dataNode E blk n (off / bsize) = none := by
    unfold dataNode
    rw [hrest, nodeAt_cons, if_pos hzero, ite_self]
  rw [byteAt, hnode]

lemma Owned.backed_saved (h : Owned R E blk) (hn : e.ino ∈ R) (hE : e.blocks = E e.ino) :
    Backed E (saved blk e) e.ino := by
  have hsame : (EasyFs.onDisk (saved blk e) e.ino).Same _ := onDisk_saved e
  have hblocks : ∀ i < 12, (EasyFs.onDisk (saved blk e) e.ino).blocks i = E e.ino i := by
    intro i hi
    rw [hsame.blocks i hi]
    change e.blocks i % 2 ^ 32 = _
    rw [hE]
    exact mod_eq_of_lt ((h.top_lt hn hi).trans (by decide))
  refine ⟨fun i hi => .inr (hblocks i hi), fun o ho => ?_⟩
  rw [hblocks _ (topIndex_lt _)] at ho
  exact byteAt_of_top ho

lemma Owned.reload (h : Owned R E blk) (hb : Backed E blk n) :
    Owned R (update E n (EasyFs.onDisk blk n).blocks) blk ∧
      (∀ m ∈ R, ∀ o, byteAt (update E n (EasyFs.onDisk blk n).blocks) blk m o =
        byteAt E blk m o) ∧
      ∀ m ∈ R, Backed E blk m → Backed (update E n (EasyFs.onDisk blk n).blocks) blk m := by
  set D := (EasyFs.onDisk blk n).blocks with hD
  have hE : ∀ m ∈ R, ∀ i < 12, update E n D m i = 0 ∨ update E n D m i = E m i := by
    intro m _ i hi
    by_cases hmn : m = n
    · subst hmn
      rw [update_self]
      exact hb.le i hi
    · rw [update_of_ne hmn]
      exact .inr rfl
  have hbyte : ∀ m ∈ R, ∀ o, byteAt (update E n D) blk m o = byteAt E blk m o := by
    intro m hm o
    rw [h.byteAt_shrink hE hm]
    split
    · rename_i hzero
      by_cases hmn : m = n
      · subst hmn
        rw [update_self] at hzero
        exact (hb.zero o hzero).symm
      · rw [update_of_ne hmn] at hzero
        exact (byteAt_of_top hzero).symm
    · rfl
  refine ⟨(h.shrink hE).1, hbyte, fun m hm hback => ⟨fun i hi => ?_, fun o ho => ?_⟩⟩
  · by_cases hmn : m = n
    · subst hmn
      rw [update_self]
      exact .inr rfl
    · rw [update_of_ne hmn]
      exact hback.le i hi
  · rw [hbyte m hm, hback.zero o ho]

end FrostVista.EasyFs
