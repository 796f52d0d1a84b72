import FrostVista.EasyFs.Processes

/-!
# EasyFS: the sleeplocks of inodes

`easyfs_fill_vfs_inode` initialises the sleeplock of the inode it fills in, and it is called on
inodes that are in use: by every lookup that finds an open file, and by a `readdir` that meets the
directory it works on.
-/
namespace FrostVista.EasyFs

open Lib Kernel

/-- The sleeplocks are followed, and the panic of `iunlock` is not allowed. -/
def lockRules : Rules where
  exclusive := true
  reads _ _ := True
  touches _ := True
  panics p := p ≠ .iunlock

lemma lockRules_lenient : lockRules.Lenient := ⟨fun _ hp => hp, .inl rfl⟩

/-- A process that has acquired a sleeplock and not released it is its holder, so that it has no
other holder, and no process is about to panic in `iunlock`. -/
def Sys.Exclusive (c : Sys) : Prop :=
  (∀ t i, c.state.locked t i = true → (c.state.fs.slot i).owner = some t) ∧
    ∀ t, ¬c.Next t (.panic .iunlock)

/-- The move does not fill in an inode whose sleeplock is taken. -/
def Sys.Unlocked (c : Sys) : Move → Prop
  | .op t => ∀ i ino d, c.Next t (.fill i ino d) → (c.state.fs.slot i).owner = none
  | _ => True

variable {c c' : Sys} {m : Move} {ms : List Move}

lemma Sys.Obeyed.exclusive (h : c.Obeyed lockRules) : c.Exclusive := by
  obtain ⟨views, hfits, -⟩ := id h
  refine ⟨fun t i ht => (hfits.2.owner rfl t i).mpr ht, fun t hpanic => ?_⟩
  obtain ⟨_, _, -, hrule⟩ := h.next hpanic
  exact hrule rfl

lemma Sys.orderly_of_unlocked (h : c.Unlocked m) : c.Orderly lockRules m := by
  cases m with
  | call t k call =>
    intro i _ g hg _
    exact obeys_call lockRules_lenient hg trivial (fun _ _ _ _ => trivial) call fun _ _ _ => trivial
  | op t =>
    intro o ho
    cases o with
    | bread n => exact trivial
    | fill i ino d => exact fun _ => h i ino d ho
    | _ => exact trivial
  | ret t k | close t k => exact trivial

/-- Filling in an inode whose sleeplock is taken leaves its holder without it. -/
lemma Sys.not_exclusive_of_fill (h : c.Obeyed lockRules) (hfill : c.Next t (.fill i ino d))
    (howner : (c.state.fs.slot i).owner ≠ none) (hs : c.Step (.op t) c') : ¬c'.Exclusive := by
  obtain ⟨k, hk⟩ := hfill
  obtain ⟨u, hu⟩ := Option.ne_none_iff_exists'.mp howner
  obtain ⟨views, hfits, -⟩ := h
  have hlocked : c.state.locked u i = true := (hfits.2.owner rfl u i).mp hu
  obtain ⟨o, k', r, s', hprog, hrun, rfl⟩ := Config.perform_eq_some.mp hs.2
  rw [hk] at hprog
  cases hprog
  obtain ⟨fs, hexec, rfl⟩ := execTraced_run hrun
  obtain ⟨rfl, rfl⟩ := Prod.mk.inj (Except.ok.inj hexec)
  intro hc
  have hstill := hc.1 u i hlocked
  simp [track] at hstill

/-- In every interleaving in which no inode is filled in while its sleeplock is taken, the
sleeplocks are exclusive and `iunlock` does not panic; the first move that does so ends it. -/
theorem sleeplocks_exclusive (hinit : c.Init)
    (hrun : Run (fun c m c' => c.Step m c' ∧ c.Unlocked m) c ms c') :
    c'.Exclusive ∧ ∀ m c'', c'.Step m c'' → (c''.Exclusive ↔ c'.Unlocked m) := by
  have hobeyed : c'.Obeyed lockRules :=
    hrun.invariant (·.Obeyed lockRules)
      (fun _ _ _ hc hs => hc.step (Sys.orderly_of_unlocked hs.2) hs.1) hinit.obeyed
  refine ⟨hobeyed.exclusive, fun m c'' hs => ⟨fun hc => ?_, fun hm => ?_⟩⟩
  · cases m with
    | op t =>
      intro i ino d hfill
      by_contra howner
      exact Sys.not_exclusive_of_fill hobeyed hfill howner hs hc
    | _ => exact trivial
  · exact (hobeyed.step (Sys.orderly_of_unlocked hm) hs).exclusive

/-! ## A lookup during a write -/

/-- The root directory has the entry `f`, a file of one byte. -/
def sharedFs : Fs where
  blk n := match n with
    | 2 => (Bytes.zero.setBit 1).setBit 2
    | 3 => (Bytes.zero.setBit 0).setBit 1
    | 4 => setDiskInode (setDiskInode Bytes.zero 1 ⟨vfsDir, 1, 32, nums [11]⟩) 2
        ⟨0x10, 1, 1, nums [12]⟩
    | 11 => Bytes.zero.copyIn 0 (makeEntry [0x66#8] 2)
    | _ => Bytes.zero
  busy _ := false
  slot i := match i.val with
    | 0 => ⟨0, 1, 1, 1, vfsDir, 32, nums [11], none⟩
    | 1 => ⟨0, 2, 1, 1, 0x10, 1, nums [12], none⟩
    | _ => ⟨0, 0, 0, 0, 0, 0, nums [], none⟩
  order := List.finRange Namei.ninodes

/-- The directory is open as handle 0 and the file as handle 1. -/
def sharedSys (fs : Fs) : Sys where
  state := {
    fs := fs
    handle := fun
      | 0 => some ⟨0, Namei.ninodes_pos⟩
      | 1 => some ⟨1, by decide⟩
      | _ => none
    work := fun _ => none
    refs := fun _ _ => 0
    locked := fun _ _ => false }
  prog _ := none

lemma sharedSys_init (howner : ∀ i, (fs.slot i).owner = none)
    (h0 : 1 ≤ (fs.slot ⟨0, by decide⟩).count) (h1 : 1 ≤ (fs.slot ⟨1, by decide⟩).count) :
    (sharedSys fs).Init where
  idle _ := rfl
  work _ := rfl
  refs _ _ := rfl
  locked _ _ := rfl
  owner := howner
  count i := by
    have hval : ∀ k, (sharedSys fs).state.handle k = some i → k = i.val ∧
      1 ≤ (fs.slot i).count := by
      rintro (_ | _ | k) hk
      · cases hk
        exact ⟨rfl, h0⟩
      · cases hk
        exact ⟨rfl, h1⟩
      · cases hk
    rcases Set.eq_empty_or_nonempty {k | (sharedSys fs).state.handle k = some i} with he | ⟨k, hk⟩
    · simp [he]
    · calc {k | (sharedSys fs).state.handle k = some i}.encard
          ≤ 1 := Set.encard_le_one_iff.mpr fun a b ha hb => (hval a ha).1.trans (hval b hb).1.symm
        _ ≤ (fs.slot i).count := by exact_mod_cast (hval k hk).2

/-- Process 1 writes to the file and waits for its block, with the sleeplock taken; process 2 looks
the file up and fills the inode in; process 1 goes on to the end. -/
def lookupDuringWrite : List Move :=
  [.call 1 1 (.write 0 [7])] ++ List.replicate 3 (.op 1) ++
    [.call 2 0 (.lookup [0x66#8])] ++ List.replicate 10 (.op 2) ++ [.ret 2 2] ++
      List.replicate 12 (.op 1)

def Sys.panicsNext (c : Sys) (t : Tid) (p : Panic) : Bool :=
  match c.prog t with
  | some (.op (.panic q) _) => q = p
  | _ => false

lemma Sys.next_of_panicsNext (h : c.panicsNext t p = true) :
    c.Next t (.panic p) := by
  unfold Sys.panicsNext at h
  split at h
  · rename_i q k hk
    rw [← of_decide_eq_true h]
    exact ⟨k, hk⟩
  · cases h

lemma sharedFs_init : (sharedSys sharedFs).Init := by
  refine sharedSys_init (fun i => ?_) (by decide) (by decide)
  simp only [sharedFs]
  split <;> rfl

/-- The writer has taken the sleeplock. -/
theorem sleeplocks_exclusive_write : ∃ c, (sharedSys sharedFs).Init ∧
    Run (fun c m c' => c.Step m c' ∧ c.Unlocked m) (sharedSys sharedFs)
      [.call 1 1 (.write 0 [7]), .op 1, .op 1] c ∧
    c.state.locked 1 ⟨1, by decide⟩ = true ∧ c.Exclusive ∧
    ∀ m c', c.Step m c' → (c'.Exclusive ↔ c.Unlocked m) := by
  have hrun : ∃ c, Run (fun c m c' => c.Step m c' ∧ c.Unlocked m) (sharedSys sharedFs)
      [.call 1 1 (.write 0 [7]), .op 1, .op 1] c ∧ c.state.locked 1 ⟨1, by decide⟩ = true := by
    refine ⟨_, .cons ⟨⟨trivial, rfl⟩, trivial⟩ (.cons ⟨⟨trivial, rfl⟩, ?_⟩
      (.cons ⟨⟨trivial, rfl⟩, ?_⟩ (.nil _))), rfl⟩
    · rintro i ino d ⟨k, hk⟩
      cases hk
    · rintro i ino d ⟨k, hk⟩
      cases hk
  obtain ⟨c, hrun, hlocked⟩ := hrun
  exact ⟨c, sharedFs_init, hrun, hlocked, sleeplocks_exclusive sharedFs_init hrun⟩

theorem iunlock_panics : (sharedSys sharedFs).Init ∧
    ∃ c, Run Sys.Step (sharedSys sharedFs) lookupDuringWrite c ∧ c.Next 1 (.panic .iunlock) := by
  have hend : (Sys.play (fun _ => true) (sharedSys sharedFs) lookupDuringWrite).any
      (·.panicsNext 1 .iunlock) = true := by decide +kernel
  obtain ⟨c, hrun, hc⟩ := Sys.run_of_play hend (by simp [lookupDuringWrite])
  exact ⟨sharedFs_init, c, hrun.mono fun _ _ _ h => h.1, Sys.next_of_panicsNext hc⟩

end FrostVista.EasyFs
