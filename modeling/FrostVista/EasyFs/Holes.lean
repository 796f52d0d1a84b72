import FrostVista.EasyFs.Flat

/-!
# EasyFS: reading files with holes

`easyfs_read_inode` looks blocks up with `bmap`, which allocates the blocks that are missing. A read
changes nothing exactly when all blocks of the part it reads are there, or when no block is free.
-/
namespace FrostVista.EasyFs

open Lib Lib.Comp Prog

variable {R : Set Nat} {E : Tops} {n i bn off size : Nat} {s : Fs} {t : Tid} {ip : SlotId}
  {path : List Nat}

/-! ## No block is free -/

section
variable (hfull : freeCount s.blk = 0)
include hfull

lemma run_balloc_full (hs : s.Calm) :
    (runAs t balloc).run s = .ok (0, s) := by
  rcases run_balloc (t := t) hs with ⟨-, hrun⟩ | ⟨a, ha, -⟩
  · exact hrun
  · rw [freeCount_allocBlk ha] at hfull
    cases hfull

lemma run_topBlock_full (hs : s.Calm) (i : Nat) :
    (runAs t (topBlock ip i)).run s = .ok ((s.slot ip).blocks i, s) := by
  unfold topBlock
  rw [Prog.run_bind_ok run_load]
  by_cases hzero : (s.slot ip).blocks i = 0
  · rw [if_neg (not_not.mpr hzero), Prog.run_bind_ok (run_balloc_full hfull hs), hzero]
    rfl
  · rw [if_pos hzero]
    rfl

lemma run_entryBlock_full (hs : s.Calm) (b : Nat) (buf : Bytes) (i : Nat) :
    (runAs t (entryBlock b buf i)).run s = .ok (buf.load (4 * i) 4, s) := by
  unfold entryBlock
  by_cases hzero : buf.load (4 * i) 4 = 0
  · rw [if_neg (not_not.mpr hzero), Prog.run_bind_ok (run_balloc_full hfull hs), hzero]
    rfl
  · rw [if_pos hzero]
    rfl

lemma run_indexEntry_full (hs : (s.setBusy b true).Calm) (hbusy : s.busy b = false) (i : Nat) :
    (runAs t (indexEntry b i)).run s = .ok ((s.blk b).load (4 * i) 4, s) := by
  unfold indexEntry
  rw [Prog.run_bind_ok (run_bread hbusy),
    Prog.run_bind_ok (run_entryBlock_full (s := s.setBusy b true) hfull hs _ _ _),
    Prog.run_bind_ok run_brelse, setBusy_setBusy hbusy]
  rfl

lemma still_doubleEntry (h : Owned R E s.blk) (hn : n ∈ R)
    (hp : isPlace (path ++ [idx / nindirect] ++ [idx % nindirect]))
    (hb : nodeAt E s.blk n path = some (.block b)) (hs : s.Quiet) :
    Total (runAs t (doubleEntry b idx)) s fun _ s' => s' = s := by
  have hmid := isPlace_init hp
  have hcalm := h.calm_setBusy hn (isPlace_init hmid) hb hs.calm
  unfold doubleEntry
  refine total_bind_ok (run_bread (hs b))
    (total_bind_ok (run_entryBlock_full (s := s.setBusy b true) hfull hcalm _ _ _) ?_)
  split
  · exact total_bind_ok run_brelse (.pure (setBusy_setBusy (hs b)))
  · rename_i hr
    set r := (s.blk b).load (4 * (idx / nindirect)) 4 with hrdef
    have hnode : nodeAt E s.blk n (path ++ [idx / nindirect]) = some (.block r) := by
      rw [nodeAt_snoc, hb]
      exact follow_eq_some.mpr ⟨hr, rfl⟩
    -- the two index blocks differ
    have hne : r ≠ b := by
      intro hrb
      have := (h.place_inj hn hn hmid (isPlace_init hmid) hnode (hrb ▸ hb)).2
      simpa using congrArg List.length this
    have hbusy : (s.setBusy b true).busy r = false := by
      rw [Fs.setBusy_busy, Function.update_of_ne hne]
      exact hs r
    refine total_bind_ok (run_indexEntry_full (s := s.setBusy b true) hfull
      (h.calm_setBusy (s := s.setBusy b true) hn hmid hnode hcalm) hbusy _) ?_
    exact total_bind_ok run_brelse (.pure (setBusy_setBusy (hs b)))

lemma still_bmap (h : Owned R E s.blk) (hn : n ∈ R) (hE : E n = (s.slot ip).blocks)
    (hbn : bn < maxfile) (hs : s.Quiet) :
    Total (runAs t (bmap ip bn)) s fun _ s' => s' = s := by
  have hplace := isPlace_blockPath hbn
  have htop : ∀ i < 12, (s.slot ip).blocks i ≠ 0 →
      nodeAt E s.blk n [i] = some (.block ((s.slot ip).blocks i)) := by
    intro i _ hi
    rw [nodeAt_cons, hE, if_neg hi]
    rfl
  unfold blockPath at hplace
  unfold bmap
  split
  · exact ⟨_, _, run_topBlock_full hfull hs.calm _, rfl⟩
  · rename_i hdirect
    rw [if_neg hdirect] at hplace
    split
    · rename_i hsingle
      rw [if_pos hsingle] at hplace
      refine total_bind_ok (run_topBlock_full hfull hs.calm _) ?_
      split
      · exact .pure rfl
      · rename_i hr
        have hcalm := h.calm_setBusy hn
            (isPlace_init (show isPlace ([sindirect] ++ [bn - ndirect]) from hplace))
              (htop _ (by decide) hr) hs.calm
        exact ⟨_, _, run_indexEntry_full hfull hcalm (hs _) _, rfl⟩
    · rename_i hsingle
      rw [if_neg hsingle] at hplace
      refine total_bind_ok (run_topBlock_full hfull hs.calm _) ?_
      split
      · exact .pure rfl
      · rename_i hr
        exact still_doubleEntry hfull h hn hplace (htop _ (by decide) hr) hs

lemma still_readLoop (fuel : Nat) (h : Owned R E s.blk) (hn : n ∈ R)
    (hE : E n = (s.slot ip).blocks) (hs : s.Quiet) (hoff : off + size ≤ 2 ^ 32) :
    Total (runAs t (readLoop ip fuel off size acc)) s fun _ s' => s' = s := by
  induction fuel generalizing off size acc with
  | zero => exact .pure rfl
  | succ fuel ih =>
    unfold readLoop
    split
    · exact .pure rfl
    · rename_i hpos
      refine total_bind (still_bmap hfull h hn hE (div_lt_maxfile (by omega)) hs) ?_
      rintro addr _ rfl
      split
      · exact .pure rfl
      · refine total_bind_ok (run_bread (hs addr)) (total_bind_ok run_brelse ?_)
        rw [setBusy_setBusy (hs addr)]
        exact ih (by omega)

end

/-! ## A block is missing -/

lemma need_pos (hne : path ≠ []) (h : nodeAt E s.blk n path = none) : 1 ≤ need E s.blk n path := by
  induction path using List.reverseRecOn with
  | nil => exact absurd rfl hne
  | append_singleton path i _ =>
    rw [need_snoc, h]
    exact Nat.le_add_left 1 _

lemma blockPath_ne_nil (bn : Nat) : blockPath bn ≠ [] := by
  obtain ⟨rest, hrest⟩ := blockPath_eq bn
  rw [hrest]
  exact List.cons_ne_nil _ _

lemma Reached.takes (h : Reached R n E s.blk E' blk' path k r) (hne : path ≠ [])
    (hnone : nodeAt E s.blk n path = none) (hfree : 0 < freeCount s.blk) :
    freeCount blk' < freeCount s.blk := by
  have hcount := h.grow.count
  rcases h.found with ⟨-, -, hk⟩ | ⟨-, hzero, -⟩
  · have := need_pos hne hnone
    omega
  · omega

lemma readLoop_takes (fuel : Nat) (h : Owned R E s.blk) (hn : n ∈ R) (hE : E n = (s.slot ip).blocks)
    (hs : s.Quiet) (hoff : off + size ≤ 2 ^ 32) (hfuel : size ≤ fuel)
    (hhole : ¬Covered E s.blk n off size) (hfree : 0 < freeCount s.blk) :
    Total (runAs t (readLoop ip fuel off size acc)) s fun _ s' =>
      freeCount s'.blk < freeCount s.blk := by
  induction fuel generalizing off size acc with
  | zero =>
    obtain rfl : size = 0 := by omega
    exact absurd (fun o hlo hhi => absurd hhi (by omega)) hhole
  | succ fuel ih =>
    unfold readLoop
    split
    · rename_i hzero
      subst hzero
      exact absurd (fun o hlo hhi => absurd hhi (by omega)) hhole
    · rename_i hpos
      have hbn := div_lt_maxfile (show off < 2 ^ 32 by omega)
      refine total_bind (bmap_spec h hn hE hbn hs) ?_
      rintro addr _ ⟨E1, blk1, k, rfl, hreach⟩
      set m := min size (bsize - off % bsize) with hm
      have hmod : off % bsize < bsize := Nat.mod_lt _ (by decide)
      cases hnode : nodeAt E s.blk n (blockPath (off / bsize)) with
      | none =>
        -- this block is missing; the rest of the read takes no block back
        have hless := hreach.takes (blockPath_ne_nil _) hnode hfree
        split
        · exact .pure hless
        · refine total_bind_ok (run_bread (hs addr)) (total_bind_ok run_brelse ?_)
          rw [setBusy_setBusy (s := s.moved ip (E1 n) blk1) (hs addr)]
          refine (readLoop_spec (s := s.moved ip (E1 n) blk1) hreach.grow.owned
            hn (moved_slot _).symm hs
            fuel (by omega) (by omega)).mono ?_
          rintro out _ ⟨E2, blk2, l, got, rfl, hgrow, -⟩
          have hcount : freeCount blk1 = freeCount blk2 + l := hgrow.count
          change freeCount blk2 < _
          omega
      | some q =>
        cases q with
        | inode m => exact absurd (nodeAt_inode hnode).1 (blockPath_ne_nil _)
        | block b =>
          obtain ⟨rfl, rfl, rfl⟩ := hreach.kept b hnode
          rw [if_neg (nodeAt_block_ne_zero hnode), moved_self hE]
          refine total_bind_ok (run_bread (hs addr)) (total_bind_ok run_brelse ?_)
          rw [setBusy_setBusy (hs addr)]
          refine ih (by omega) (by omega) fun hcov => hhole fun o hlo hhi => ?_
          by_cases ho : o < off + m
          · -- the same block
            have hdiv : o / bsize = off / bsize := by
              simp only [bsize] at *
              omega
            rw [hdiv]
            exact ⟨addr, dataNode_eq_some.mpr ⟨hbn, hnode⟩⟩
          · exact hcov o (by omega) (by omega)

/-! ## The read -/

/-- What a read of `size` bytes at `off` looks at. -/
def readPart (e : Slot) (off size : Nat) : Nat := min size (e.size - off)

/-- A read changes no block of the disk if and only if it fails, all blocks of the part it reads are
there, or no block is free. -/
theorem readInode_changes_nothing (h : Owned R E s.blk) (hn : n ∈ R) (hE : E n = (s.slot ip).blocks)
    (hs : s.Quiet) :
    Total (runAs t (readInode ip off size)) s fun _ s' => s'.blk = s.blk ↔
      (s.slot ip).size < off ∨ 2 ^ 32 ≤ off + size ∨
        Covered E s.blk n off (readPart (s.slot ip) off size) ∨ freeCount s.blk = 0 := by
  by_cases hfail : (s.slot ip).size < off ∨ 2 ^ 32 ≤ off + size
  · unfold readInode
    refine total_bind_ok run_load ?_
    rw [if_pos hfail]
    refine .pure (iff_of_true rfl ?_)
    rcases hfail with hf | hf
    · exact .inl hf
    · exact .inr (.inl hf)
  · push Not at hfail
    by_cases hcov : Covered E s.blk n off (readPart (s.slot ip) off size)
    · refine (readInode_spec h hn hE hs hfail.1 hfail.2).mono ?_
      rintro out _ ⟨E', blk', k, got, rfl, -, -, -, -, hkeep⟩
      exact iff_of_true (hkeep hcov).2.1 (.inr (.inr (.inl hcov)))
    · unfold readInode
      refine total_bind_ok run_load ?_
      rw [if_neg (by omega)]
      have hpart : (if (s.slot ip).size < off + size then (s.slot ip).size - off else size) =
          readPart (s.slot ip) off size := by
        unfold readPart
        split <;> omega
      dsimp only
      rw [hpart]
      have hle : off + readPart (s.slot ip) off size ≤ 2 ^ 32 := by
        unfold readPart
        omega
      by_cases hfull : freeCount s.blk = 0
      · refine total_bind (still_readLoop hfull _ h hn hE hs hle) ?_
        rintro out _ rfl
        exact .pure (iff_of_true rfl (.inr (.inr (.inr hfull))))
      · refine total_bind
          (readLoop_takes _ h hn hE hs hle le_rfl hcov (Nat.pos_of_ne_zero hfull)) ?_
        intro out s' hless
        refine .pure (iff_of_false (fun heq => ?_) ?_)
        · rw [heq] at hless
          exact absurd hless (lt_irrefl _)
        · rintro (hc | hc | hc | hc)
          · omega
          · omega
          · exact hcov hc
          · exact hfull hc

/-- Two bytes written across the end of the first block are read back; both blocks are there. -/
theorem readInode_changes_nothing_across : ∃ s,
    Run (CallStep firstSlot) emptyFs [(1, .write 4095 [7, 8])] s ∧
      Total (runAs 2 (readInode firstSlot 4095 2)) s fun _ s' => s'.blk = s.blk := by
  obtain ⟨s, hrun⟩ := run_writeAcross
  obtain ⟨E, h⟩ := holds_run emptyFile_emptyFs hrun
  have hdata : ∀ off k, k < 2 → (contents [(1, .write off [7, 8])]).getD (off + k) 0 ≠ 0 := by
    intro off k hk
    obtain rfl | rfl : k = 0 ∨ k = 1 := by omega
    all_goals simp [contents, Call.spec, overwrite]
  refine ⟨s, hrun, (readInode_changes_nothing h.owned rfl h.tops h.quiet).mono fun _ s' hiff =>
    hiff.mpr (.inr (.inr (.inl fun o hlo hhi => ?_)))⟩
  have hpart : readPart (s.slot firstSlot) 4095 2 ≤ 2 := Nat.min_le_left ..
  -- a byte of a block that is missing would be zero
  have hbyte := hdata 4095 (o - 4095) (by omega)
  rw [Nat.add_sub_cancel' hlo, ← h.byte o, byteAt] at hbyte
  split at hbyte
  · exact ⟨_, by assumption⟩
  · exact absurd rfl hbyte

/-- A file of 4097 bytes whose first block was never written. -/
def sparseFs : Fs where
  blk n := match n with
    | 3 => Bytes.zero.setBit 0
    | 4 => setDiskInode Bytes.zero 1 ⟨0x10, 1, 4097, nums [0, 11]⟩
    | _ => Bytes.zero
  busy _ := false
  slot _ := ⟨0, 1, 1, 1, 0x10, 4097, nums [0, 11], none⟩
  order := []

/-- Reading its first byte takes the block 12, which the inode on the disk does not name. -/
theorem read_takes_block : allocated sparseFs.blk 12 = false ∧
    Total (runAs 1 (readInode ⟨0, by decide⟩ 0 1)) sparseFs fun out s => out = some [0] ∧
      allocated s.blk 12 = true ∧ ∀ i < 12, (onDisk s.blk 1).blocks i ≠ 12 := by
  refine ⟨by decide, (Total.of_eval (p := fun out s => out = some [0] ∧ allocated s.blk 12 = true ∧
    ∀ i < 12, (onDisk s.blk 1).blocks i ≠ 12) ?_).mono fun _ _ h => of_decide_eq_true h⟩
  decide +kernel

end FrostVista.EasyFs
