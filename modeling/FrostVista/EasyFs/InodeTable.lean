import FrostVista.EasyFs.DirRuns
import FrostVista.EasyFs.Sleeplocks

/-!
# EasyFS: the inode table

`ialloc` takes the first clear bit of the whole bitmap block, and `easyfs_ilock`, `iupdate` and
`ifree` find the block of an inode by a division. The table has 7 blocks, so that the inode 448 is
in the data area.
-/
namespace FrostVista.EasyFs

open Lib Comp Kernel List

open Namei (Name)

def InTable (n : Nat) : Prop := inodeBlock ≤ n ∧ n < dataBlock

/-- The number, other than 0, is one of the table, and its bit is clear. -/
def FreeInTable (bitmap : Bytes) (ino : Nat) : Prop :=
  ino ≠ 0 ∧ InTable (tableBlock ino) ∧ bitmap.bit ino = false

/-- A number of the table is free, or none at all. -/
def TableRoom (bitmap : Bytes) : Prop :=
  (∃ ino, FreeInTable bitmap ino) ∨ ∀ ino < bsize * 8, ino ≠ 0 → bitmap.bit ino = true

/-- The accesses to the inode table stay inside it while there is room. -/
def tableRules : Rules where
  exclusive := false
  reads n b := n = inoblkBmip → TableRoom b
  touches := InTable
  panics _ := True

/-- The calls are made on inodes of the table and remove none, and when the bitmap is read there is
room. -/
def Sys.Roomy (c : Sys) : Move → Prop
  | .call _ k call => (∀ name, call ≠ .unlink name) ∧
      ∀ i, c.state.handle k = some i → InTable (tableBlock (c.state.fs.slot i).ino)
  | .op t => c.Next t (.bread inoblkBmip) → TableRoom (c.state.fs.blk inoblkBmip)
  | _ => True

variable {c c' : Sys} {m : Move} {ms : List Move} {b : Bytes} {ino : Nat}

lemma inTable_tableBlock : InTable (tableBlock ino) ↔ ino < tableSize := by
  simp only [InTable, tableBlock, tableSize, inodeBlock, dataBlock]
  omega

lemma firstFreeInode_eq_some (h : firstFreeInode b = some ino) :
    ino < bsize * 8 ∧ ino ≠ 0 ∧ b.bit ino = false := by
  unfold firstFreeInode at h
  have hbit := find?_some h
  exact ⟨mem_range.mp (mem_of_find?_eq_some h), by simpa using hbit⟩

/-- There is room in the table exactly if the first clear bit, if any, belongs to it. -/
lemma tableRoom_iff :
    TableRoom b ↔ ∀ ino, firstFreeInode b = some ino → InTable (tableBlock ino) := by
  constructor
  · rintro (⟨n, hpos, htable, hn⟩ | hall) ino hfirst
    · obtain ⟨-, i, hi, hin, hbefore⟩ := find?_eq_some_iff_getElem.mp hfirst
      rw [getElem_range] at hin
      subst hin
      rw [inTable_tableBlock] at htable ⊢
      by_contra hge
      have hno := hbefore n (by omega)
      simp [hpos, hn] at hno
    · obtain ⟨hlt, hpos, hbit⟩ := firstFreeInode_eq_some hfirst
      rw [hall ino hlt hpos] at hbit
      cases hbit
  · intro hroom
    cases hfirst : firstFreeInode b with
    | none =>
      refine .inr fun ino hlt hpos => ?_
      have hno := find?_eq_none.mp hfirst ino (mem_range.mpr hlt)
      simpa [hpos] using hno
    | some ino =>
      obtain ⟨-, hpos, hbit⟩ := firstFreeInode_eq_some hfirst
      exact .inl ⟨ino, hpos, hroom ino hfirst, hbit⟩

/-- With room and no number of the table free, no number is free. -/
lemma firstFreeInode_eq_none (hroom : TableRoom b) (hfull : ¬∃ ino, FreeInTable b ino) :
    firstFreeInode b = none := by
  by_contra hne
  obtain ⟨ino, hino⟩ := Option.ne_none_iff_exists'.mp hne
  obtain ⟨-, hpos, hbit⟩ := firstFreeInode_eq_some hino
  exact hfull ⟨ino, hpos, tableRoom_iff.mp hroom ino hino, hbit⟩

lemma Sys.orderly_of_roomy (h : c.Roomy m) : c.Orderly tableRules m := by
  cases m with
  | call t k call =>
    intro i hi g hg hnum
    have hρ : tableRules.Lenient := ⟨fun _ _ => trivial, .inr trivial⟩
    refine obeys_call hρ hg ?_ (fun _ ino hbuf => tableRoom_iff.mp (hbuf rfl) ino)
      call fun name hname => absurd hname (h.1 name)
    rw [hnum]
    exact h.2 i hi
  | op t =>
    intro o ho
    cases o with
    | bread n =>
      rintro rfl
      exact h ho
    | fill i ino d => exact fun hex => nomatch hex
    | _ => exact trivial
  | ret t k | close t k => exact trivial

lemma ialloc_ino {s s' : Fs} (h : (runAs t ialloc).run s = .ok (some i, s')) :
    firstFreeInode (s.blk inoblkBmip) = some (s'.slot i).ino := by
  cases hq : s.busy inoblkBmip with
  | true =>
    have hexec : exec t (.bread inoblkBmip) s = .error .wait := by simp [exec, hq]
    cases (Comp.run_bind_error hexec _).symm.trans h
  | false =>
    rcases run_ialloc (t := t) hq with ⟨-, hrun⟩ | ⟨n, hn, hrun⟩
    · cases hrun.symm.trans h
    · obtain ⟨r, u, hexec, hpure⟩ := Comp.run_bind_eq_ok.mp (hrun.symm.trans h)
      cases hpure
      simp only [exec, Comp.run] at hexec
      split at hexec
      · cases hexec
      · rename_i j u hg
        cases hexec
        obtain ⟨e, rfl, hid, -⟩ := getInode_eq_some hg
        simp [hn, (Prod.mk.inj hid).2]

lemma create_full {s s' : Fs} (hs : Spells s s.volume) (hidle : s.cache.Idle)
    (hdir : s.cache.Has dir d)
    (hd : s.volume.Tidy d) (hnone : firstFreeInode (s.blk inoblkBmip) = none)
    (hrun : (runAs t (create dir name mode)).run s = .ok (r, s') ∨
      (runAs t (mkdir dir name mode)).run s = .ok (r, s')) : r = false := by
  have hfree : s.volume.firstFree = none := hnone
  have htable : TakesFromTable d s name := fun _ n hn => nomatch hfree.symm.trans hn
  rcases hrun with hrun | hrun
  · by_cases hname : name = []
    · rw [create, if_pos hname] at hrun
      cases hrun
      rfl
    · cases created_of_run hs hidle hdir hd htable hname hrun with
      | done _ hn => cases hfree.symm.trans hn
      | _ => rfl
  · by_cases hname : name = [] ∨ mode ≠ 0
    · rw [mkdir, if_pos hname] at hrun
      cases hrun
      rfl
    · obtain ⟨hne, rfl⟩ : name ≠ [] ∧ mode = 0 := by simpa using hname
      cases madeDir_of_run hs hidle hdir hd htable hne hrun with
      | done _ hn => cases hfree.symm.trans hn
      | _ => rfl

/-- In every run of calls in which there is room, no block outside the table is accessed as a part
of it. `ialloc` hands out an inode of the table exactly when there is room. With room but no number
of the table free, `create` and `mkdir` fail. -/
theorem inode_table_bounds (hinit : c.Init)
    (hrun : Run (fun c m c' => c.Step m c' ∧ c.Roomy m) c ms c') :
    (∀ t n, c'.Next t (.touch n) → InTable n) ∧
    (∀ t s i s', (runAs t ialloc).run s = .ok (some i, s') →
      (InTable (tableBlock (s'.slot i).ino) ↔ TableRoom (s.blk inoblkBmip))) ∧
    ∀ (s s' : Fs) t dir d name mode r, Spells s s.volume → s.cache.Idle → s.cache.Has dir d →
      s.volume.Tidy d → TableRoom (s.blk inoblkBmip) →
        (¬∃ ino, FreeInTable (s.blk inoblkBmip) ino) →
      (runAs t (create dir name mode)).run s = .ok (r, s') ∨
        (runAs t (mkdir dir name mode)).run s = .ok (r, s') → r = false := by
  refine ⟨fun t n hnext => ?_, fun t s i s' h => ?_, ?_⟩
  · have hobeyed : c'.Obeyed tableRules :=
      hrun.invariant (·.Obeyed tableRules)
        (fun _ _ _ hc hs => hc.step (Sys.orderly_of_roomy hs.2) hs.1) hinit.obeyed
    obtain ⟨_, _, -, hrule⟩ := hobeyed.next hnext
    exact hrule.1
  · simp [tableRoom_iff, ialloc_ino h]
  · intro s s' t dir d name mode r hs hidle hdir hd hroom hfull
    exact create_full hs hidle hdir hd (firstFreeInode_eq_none hroom hfull)

/-- `create` on the root directory. -/
def creation (k : Nat) : List Move := .call 1 0 (.create [0x67#8] 0) :: replicate k (.op 1)

def Sys.touchesNext (c : Sys) (t : Tid) (n : Nat) : Bool :=
  match c.prog t with
  | some (.op (.touch m) _) => m = n
  | _ => false

lemma Sys.next_of_touchesNext (h : c.touchesNext t n = true) : c.Next t (.touch n) := by
  unfold Sys.touchesNext at h
  split at h
  · rename_i m k hk
    rw [← of_decide_eq_true h]
    exact ⟨k, hk⟩
  · cases h

/-- Number 3 is taken for a new file, and its inode is accessed next. -/
theorem inode_table_bounds_create : ∃ c, (sharedSys sharedFs).Init ∧
    Run (fun c m c' => c.Step m c' ∧ c.Roomy m) (sharedSys sharedFs) (creation 22) c ∧
    (c.state.fs.blk inoblkBmip).bit 3 = true ∧ c.Next 1 (.touch inodeBlock) ∧
      InTable inodeBlock := by
  -- number 100 stays free
  have hend : (Sys.play (fun c => !(c.state.fs.blk inoblkBmip).bit 100) (sharedSys sharedFs)
      (creation 22)).any (fun c =>
        (c.state.fs.blk inoblkBmip).bit 3 && c.touchesNext 1 inodeBlock) = true := by
    decide +kernel
  obtain ⟨c, hplay, hc⟩ := Sys.run_of_play hend (by simp [creation])
  have hrun : Run (fun c m c' => c.Step m c' ∧ c.Roomy m) (sharedSys sharedFs) (creation 22) c := by
    cases hplay with
    | cons hcall hops =>
      refine .cons ⟨hcall.1, nofun, ?_⟩
        ((hops.restrict fun m hm _ => eq_of_mem_replicate hm).mono ?_)
      · rintro i ⟨⟩
        exact ⟨by decide, by decide⟩
      · rintro c m c' ⟨rfl, hstep, hfree⟩
        exact ⟨hstep, fun _ => .inl ⟨100, by decide, ⟨by decide, by decide⟩, by simpa using hfree⟩⟩
  obtain ⟨hbit, hnext⟩ := Bool.and_eq_true_iff.mp hc
  have hnext := Sys.next_of_touchesNext hnext
  exact ⟨c, sharedFs_init, hrun, hbit, hnext, (inode_table_bounds sharedFs_init hrun).1 1 _ hnext⟩

/-- The numbers below 448 are taken. -/
def fullFs : Fs where
  __ := sharedFs
  blk := Function.update sharedFs.blk inoblkBmip fun i => if i < 56 then 255 else 0

/-- `create` takes the first block of the data area for a block of the inode table. -/
theorem create_leaves_table : (sharedSys fullFs).Init ∧ ∃ c,
    Run Sys.Step (sharedSys fullFs) (creation 21) c ∧ c.Next 1 (.touch dataBlock) := by
  have hinit := sharedFs_init
  refine ⟨⟨hinit.idle, hinit.work, hinit.refs, hinit.locked, hinit.owner, hinit.count⟩, ?_⟩
  have hend : (Sys.play (fun _ => true) (sharedSys fullFs) (creation 21)).any
      (·.touchesNext 1 dataBlock) = true := by decide +kernel
  obtain ⟨c, hrun, hc⟩ := Sys.run_of_play hend (by simp [creation])
  exact ⟨c, hrun.mono fun _ _ _ h => h.1, Sys.next_of_touchesNext hc⟩

end FrostVista.EasyFs
