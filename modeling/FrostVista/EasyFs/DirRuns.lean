import FrostVista.EasyFs.Mount

/-!
# EasyFS: runs of calls on a directory

What holds in every run of calls on a directory, what goes wrong with the names that lead back to
it, and what a call that fails leaves behind: after `ialloc` the number is not given back.
-/
namespace FrostVista.EasyFs

open Lib Lib.Comp Kernel

open Namei (Name sameName dirsiz)

variable {d mode : Nat} {r : Bool} {s s' : Fs} {dir : SlotId} {t : Tid} {name : Name}

/-- In every run of calls the directory is a finite map from names to inodes: the calls are the
operations of a table in which freed slots are reused and other slots stay, and so those of a map;
looking up a name gives what the map holds, and listing the directory from its start gives each name
of the map once. -/
theorem directory_is_map {calls : List (DirCall × Bool)} (h : DirHolds dir d s)
    (hrun : Run (DirStep t dir d) s calls s') :
    Run ListingStep (s.volume.listing d) calls (s'.volume.listing d) ∧
      Run MapStep (SlotMap.find (s.volume.listing d)) calls (SlotMap.find (s'.volume.listing d)) ∧
      SlotMap.Distinct (s'.volume.listing d) ∧
      (∀ c, Allowed d s' c → Total (runAs t (c.perform dir)) s' fun _ _ => True) ∧
      (∀ name, Total (runAs t (lookup dir name)) s' fun r s'' =>
        match SlotMap.find (s'.volume.listing d) name with
        | none => r = none
        | some (n, type) =>
          ∃ i off, r = some (i, off) ∧ (s''.slot i).ino = n ∧ (s''.slot i).type = type) ∧
      Total (runAs t (listDir dir (s'.volume.slots d + 1) 0)) s' fun r _ => ∃ l, r = some l ∧
        (l.map Prod.fst).Nodup ∧ ∀ name a, (name, a) ∈ l ↔ SlotMap.find (s'.volume.listing d) name =
          some a := by
  have hstep : ∀ s c s', DirHolds dir d s → DirStep t dir d s c s' →
      DirHolds dir d s' ∧ ListingStep (s.volume.listing d) c (s'.volume.listing d) :=
    fun s c s' h ⟨hok, hrun⟩ => (h.call hok).of_run hrun
  obtain ⟨h', hlisting⟩ := hrun.refine (DirHolds dir d) (fun s => s.volume.listing d) hstep h
  have hmap := (hrun.refine (DirHolds dir d) (fun s => SlotMap.find (s.volume.listing d))
    (fun s c s' h hs => ⟨(hstep s c s' h hs).1, (hstep s c s' h hs).2.mapStep h.proper.distinct⟩)
      h).2
  have hd := h'.proper.distinct
  refine ⟨hlisting, hmap, hd, fun c hok => (h'.call hok).mono fun _ _ _ => trivial,
    fun name => h'.lookup name, ?_⟩
  refine (h'.listDir (s'.volume.slots d + 1) 0 (by omega)).mono ?_
  rintro r - rfl
  rw [List.drop_zero]
  exact ⟨_, rfl, hd.nodup_entries, fun name a => SlotMap.mem_entries.trans hd.find_eq_some.symm⟩

/-! ## A small image -/

/-- The image of one empty file `a`. -/
def smallImage : Bytes := Mkfs.image [⟨[0x61#8], []⟩]

lemma accepted_small : Mkfs.Accepted [⟨[0x61#8], []⟩] where
  count := by decide
  name := by decide
  data := by decide

lemma dirHolds_small : ∃ root s, (runAs 1 mountRoot).run (booted smallImage) = .ok (some root, s) ∧
    DirHolds root superInum s ∧ s.volume.HasFree ∧ Linkable s.volume s superInum ∧
    s.blk = (booted smallImage).blk := by
  obtain ⟨root, s, hrun, hholds, hblk⟩ := Mounted.dirHolds accepted_small
    (t := 1) (by decide) fun f hf => by
    rw [List.mem_singleton.mp hf]
    exact ⟨by decide, by decide, by decide⟩
  exact ⟨root, s, hrun, hholds, Mounted.hasFree accepted_small hblk,
    Mounted.linkable accepted_small hblk hholds.toServes, hblk⟩

lemma created_small : ∃ root s s', DirHolds root superInum s ∧
    Run (DirStep 1 root superInum) s [(.create [0x62#8], true)] s' ∧ DirHolds root superInum s' ∧
    (s'.volume.listing superInum).Present [0x62#8] := by
  obtain ⟨root, s, -, hholds, hfree, hlink, hblk⟩ := dirHolds_small
  have hok : Allowed superInum s (.create [0x62#8]) :=
    ⟨⟨by decide, by decide, by decide⟩, hholds.proper.find_ne_self (by decide) (by decide),
      fun _ => ⟨hfree, hlink⟩⟩
  have hnew : ¬(s.volume.listing superInum).Present [0x62#8] := by
    have hproper := hholds.proper
    rw [← hholds.missing_iff, hholds.toServes.missing_iff]
    rw [Fs.volume_eq hblk] at hproper ⊢
    exact (Mounted.find_root_eq_none accepted_small (by decide) hproper _).mpr (by decide)
  obtain ⟨r, s', hcall, hholds', hadds⟩ := hholds.call (t := 1) hok
  rcases hadds with ⟨rfl, -, n, -, hput⟩ | ⟨-, hold, -⟩
  · refine ⟨root, s, s', hholds, .cons ⟨hok, hcall⟩ (.nil _), hholds', ?_⟩
    rw [hput]
    simp [Listing.Present, hholds.proper.distinct.find_put (not_not.mp hnew)]
  · exact absurd hold hnew

theorem directory_is_map_small : ∃ root s s', DirHolds root superInum s ∧
    Run (DirStep 1 root superInum) s [(.create [0x62#8], true)] s' ∧
    Run MapStep (SlotMap.find (s.volume.listing superInum)) [(.create [0x62#8], true)]
      (SlotMap.find (s'.volume.listing superInum)) := by
  obtain ⟨root, s, s', hholds, hrun, -⟩ := created_small
  exact ⟨root, s, s', hholds, hrun, (directory_is_map hholds hrun).2.1⟩

/-- Creating `.` in a directory panics, although an inode and blocks are free: the inode that the
name leads to is the directory, and filling it in has reset its lock. -/
theorem create_dot_panics :
    ∃ root s, (runAs 1 mountRoot).run (booted smallImage) = .ok (some root, s) ∧
    DirHolds root superInum s ∧ s.volume.HasFree ∧ Linkable s.volume s superInum ∧ ValidName dot ∧
    (runAs 1 ((DirCall.create dot).perform root)).run s = .error (.panic .iunlock) := by
  obtain ⟨root, s, hmount, hholds, hfree, hlink, hblk⟩ := dirHolds_small
  refine ⟨root, s, hmount, hholds, hfree, hlink, ⟨by decide, by decide, by decide⟩, ?_⟩
  obtain ⟨E, hs⟩ := hholds.sound
  obtain ⟨hfind, hself⟩ := Mounted.find_dot accepted_small
  refine hs.run_create_self hholds.has hholds.proper.tidy hholds.idle (by decide) (k := 0) ?_ ?_ _
  · rw [Fs.volume_eq hblk]
    exact hfind
  · rw [Fs.volume_eq hblk]
    exact hself

/-! ## Calls that return -/

/-- The directory and the bitmaps are as they were. -/
def Undone (d : Nat) (s s' : Fs) : Prop :=
  s'.blk inoblkBmip = s.blk inoblkBmip ∧ s'.blk dablkBmip = s.blk dablkBmip ∧
    s'.volume.info d = s.volume.info d ∧ s'.volume.byte d = s.volume.byte d

/-- The name is found, or no number is free. -/
def TakesNothing (d : Nat) (s : Fs) (name : Name) : Prop :=
  ¬s.volume.Missing s.cache d name ∨ s.volume.firstFree = none

/-- The number that `ialloc` takes for the name, if it gets so far, is one of the table. -/
def TakesFromTable (d : Nat) (s : Fs) (name : Name) : Prop :=
  s.volume.Missing s.cache d name → ∀ n, s.volume.firstFree = some n → n < tableSize

lemma TakesNothing.fromTable (h : TakesNothing d s name) : TakesFromTable d s name := by
  intro hm n hn
  rcases h with hfound | hnone
  · exact absurd hm hfound
  · cases hnone.symm.trans hn

lemma undone_of_blk (hblk : s'.blk = s.blk) : Undone d s s' := by
  rw [Undone, Fs.volume_eq hblk, hblk]
  exact ⟨rfl, rfl, rfl, rfl⟩

/-- The number that was taken stays marked. -/
lemma undone_iff_of_taken {n : Nat} {v : Volume} (hm : s.volume.Missing s.cache d name)
    (hn : s.volume.firstFree = some n) (hs : Spells s' v) (hmark : v.marked n = true) :
    Undone d s s' ↔ TakesNothing d s name := by
  refine iff_of_false ?_ (by simp [TakesNothing, hm, hn])
  rintro ⟨hbits, -⟩
  obtain ⟨E, h⟩ := hs
  have hfree : (s.blk inoblkBmip).bit n = false := (firstFree_eq_some hn).2
  rw [← hbits, h.disk.marked, hmark] at hfree
  cases hfree

section Failed

variable (hs : Spells s s.volume) (hidle : s.cache.Idle) (hdir : s.cache.Has dir d)
  (hd : s.volume.Tidy d) (htable : TakesFromTable d s name)

include hs hidle hdir hd htable

lemma created_of_run (hname : name ≠ [])
    (hrun : (runAs t (create dir name mode)).run s = .ok (r, s')) :
    Created s s.volume d name (mode % 2 ^ 16) r s' := by
  obtain ⟨E, h⟩ := hs
  have hself : ∀ k, s.volume.find d name = some k → s.volume.inoAt d k ≠ d := by
    intro k hk he
    cases (h.run_create_self hdir hd hidle hname hk he mode).symm.trans hrun
  exact ((h.create hdir hd hidle hname hself htable mode).of_run hrun).2

lemma madeDir_of_run (hname : name ≠ []) (hrun : (runAs t (mkdir dir name 0)).run s = .ok (r, s')) :
    MadeDir s s.volume d name r s' := by
  obtain ⟨E, h⟩ := hs
  have hself : ∀ k, s.volume.find d name = some k → s.volume.inoAt d k ≠ d := by
    intro k hk he
    cases (h.run_mkdir_self hdir hd hidle hname hk he).symm.trans hrun
  exact ((h.mkdir hdir hd hidle hname hself htable).of_run hrun).2

lemma create_failed (hname : name ≠ [])
    (hrun : (runAs t (create dir name mode)).run s = .ok (false, s')) :
    Undone d s s' ↔ TakesNothing d s name := by
  cases created_of_run hs hidle hdir hd htable hname hrun with
  | found hfound hblk _ => exact iff_of_true (undone_of_blk hblk) (.inl hfound)
  | noNumber _ hn hblk _ => exact iff_of_true (undone_of_blk hblk) (.inr hn)
  | noSlot hm hn _ hs | noBlocks hm hn _ _ hs =>
    exact undone_iff_of_taken hm hn hs (by simp [Volume.newInode])

lemma mkdir_failed (hname : name ≠ [])
    (hrun : (runAs t (mkdir dir name 0)).run s = .ok (false, s')) :
    Undone d s s' ↔ TakesNothing d s name := by
  cases madeDir_of_run hs hidle hdir hd htable hname hrun with
  | found hfound hblk _ => exact iff_of_true (undone_of_blk hblk) (.inl hfound)
  | noNumber _ hn hblk _ => exact iff_of_true (undone_of_blk hblk) (.inr hn)
  | noSlot hm hn _ hs | noBlock hm hn _ _ hs | noEntry hm hn _ _ hs =>
    exact undone_iff_of_taken hm hn hs (by simp [Volume.newDir, Volume.newInode])

end Failed

/-- A call of `create` or `mkdir` that fails leaves the directory and the bitmaps as they were if it
is refused at once, finds the name or finds no free number; if the number that it takes is one of
the inode table, in no other case. -/
theorem failed_call_undone (hs : Spells s s.volume) (hidle : s.cache.Idle)
    (hdir : s.cache.Has dir d) (hd : s.volume.Tidy d) (name : Name) (mode : Nat) :
    ((runAs t (create dir name mode)).run s = .ok (false, s') →
      (name = [] ∨ TakesNothing d s name → Undone d s s') ∧
      (TakesFromTable d s name → Undone d s s' → name = [] ∨ TakesNothing d s name)) ∧
    ((runAs t (mkdir dir name mode)).run s = .ok (false, s') →
      ((name = [] ∨ mode ≠ 0) ∨ TakesNothing d s name → Undone d s s') ∧
      (TakesFromTable d s name → Undone d s s' → (name = [] ∨ mode ≠ 0) ∨
        TakesNothing d s name)) := by
  refine ⟨fun hrun => ?_, fun hrun => ?_⟩
  · by_cases hname : name = []
    · rw [create, if_pos hname] at hrun
      cases hrun
      exact ⟨fun _ => undone_of_blk rfl, fun _ _ => .inl hname⟩
    · refine ⟨fun h => ?_, fun htable h => .inr ?_⟩
      · have h := h.resolve_left hname
        exact (create_failed hs hidle hdir hd h.fromTable hname hrun).mpr h
      · exact (create_failed hs hidle hdir hd htable hname hrun).mp h
  · by_cases hname : name = [] ∨ mode ≠ 0
    · rw [mkdir, if_pos hname] at hrun
      cases hrun
      exact ⟨fun _ => undone_of_blk rfl, fun _ _ => .inl hname⟩
    · obtain ⟨hne, rfl⟩ : name ≠ [] ∧ mode = 0 := by simpa using hname
      refine ⟨fun h => ?_, fun htable h => .inr ?_⟩
      · have h := h.resolve_left hname
        exact (mkdir_failed hs hidle hdir hd h.fromTable hne hrun).mpr h
      · exact (mkdir_failed hs hidle hdir hd htable hne hrun).mp h

/-- The second `create` of a name fails and leaves everything as it was. -/
theorem failed_call_undone_twice : ∃ root s s' s'',
    Run (DirStep 1 root superInum) s [(.create [0x62#8], true)] s' ∧
    (runAs 1 (create root [0x62#8] vfsFile)).run s' = .ok (false, s'') ∧
      Undone superInum s' s'' := by
  obtain ⟨root, s, s', -, hrun, hholds, hold⟩ := created_small
  have hok : Allowed superInum s' (.create [0x62#8]) :=
    ⟨⟨by decide, by decide, by decide⟩, hholds.proper.find_ne_self (by decide) (by decide),
      fun hnew => absurd hold hnew⟩
  obtain ⟨r, s'', hcall, -, hadds⟩ := hholds.create (t := 1) hok
  rcases hadds with ⟨-, hnew, -⟩ | ⟨rfl, -, -⟩
  · exact absurd hold hnew
  · refine ⟨root, s, s', s'', hrun, hcall, ((failed_call_undone hholds.sound hholds.idle hholds.has
      hholds.proper.tidy _ _).1 hcall).1 (.inr (.inl ?_))⟩
    rwa [hholds.missing_iff, not_not]

/-- An empty root directory, and every slot of the inode cache is taken. -/
def crowdedFs : Fs where
  blk n := if n = inoblkBmip then Bytes.zero.setBit 1
    else if n = inodeBlock then setDiskInode Bytes.zero 1 ⟨vfsDir, 1, 0, nums []⟩ else Bytes.zero
  busy _ := false
  slot i := if i.val = 0 then ⟨0, 1, 1, 1, vfsDir, 0, nums [], none⟩
    else ⟨1, 1, 1, 1, 0, 0, nums [], none⟩
  order := List.finRange Namei.ninodes

/-- `create` fails without a slot for the new inode, but number 2 stays marked. -/
theorem create_keeps_number :
    ∃ s', (runAs 1 (create ⟨0, Namei.ninodes_pos⟩ [0x67#8] 0)).run crowdedFs =
    .ok (false, s') ∧ ¬Undone 1 crowdedFs s' := by
  have hend : ((runAs 1 (create ⟨0, Namei.ninodes_pos⟩ [0x67#8] 0)).run crowdedFs).toOption.any
      (fun x => !x.1 && (x.2.blk inoblkBmip).bit 2) = true := by decide +kernel
  cases hrun : (runAs 1 (create ⟨0, Namei.ninodes_pos⟩ [0x67#8] 0)).run crowdedFs with
  | error e =>
    rw [hrun] at hend
    cases hend
  | ok x =>
    obtain ⟨r, s'⟩ := x
    obtain ⟨rfl, hbit⟩ : r = false ∧ (s'.blk inoblkBmip).bit 2 = true := by
      simpa [hrun, Except.toOption] using hend
    refine ⟨s', rfl, ?_⟩
    rintro ⟨hbits, -⟩
    rw [hbits] at hbit
    cases hbit

end FrostVista.EasyFs
