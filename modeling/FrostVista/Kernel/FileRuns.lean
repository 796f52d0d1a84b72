import FrostVista.Kernel.FileRefs

/-!
# Runs of the file table

The contracts of the calls on memory areas, processes and offsets, and what follows for runs of any
number of processes.
-/
namespace FrostVista.Kernel.Ftable

open Lib Lib.Comp Lib.RefCount Function Nat Set Ftable.ProcState

/-! ## Areas -/

section Areas

variable {b : Mode} {s : Files} {c : Fin nproc}

variable {v : Vma} {a : MmapArgs} {p : Process} {addr len : Word}

lemma areaFile_of_unused (h : v.used = false) : areaFile v = none := by
  simp [areaFile, h]

lemma areaFile_of_used (h : v.used = true) : areaFile v = v.file := by
  simp [areaFile, h]

lemma mmapCheck_file (h : mmapCheck p a = .ok (some f)) :
    a.fd.toNat < nofile ∧ p.ofile a.fd.toNat = some f := by
  unfold mmapCheck at h
  iterate 5
    split at h
    · cases h
  split at h
  · split at h <;> cases h
  split at h
  · cases h
  rename_i hrange
  split at h
  · cases h
  split at h
  · cases h
  · rename_i hfile
    cases h
    refine ⟨?_, hfile⟩
    have hsmall : a.fd.toInt < 128 := by
      have : (nofile : Int) = 128 := rfl
      omega
    have hnat : nofile = 128 := rfl
    rw [BitVec.toInt_eq_toNat_cond] at hsmall hrange
    split at hsmall
    · omega
    · rename_i hneg
      rw [if_neg hneg] at hrange
      omega

lemma sysMmap_total (h : Inv b [] [] s) (hbare : ¬b.bare) :
    Total (sysMmap c a) s fun _ t => Inv b [] [] t ∧ Frame c s t := by
  refine .bind_ok (run_get s) ?_
  cases hmap : doMmap (s.proc proc0).stackBottom (s.proc c) a with
  | error e => exact .pure ⟨h, .refl c s⟩
  | ok r =>
    obtain ⟨start, q⟩ := r
    obtain ⟨file, i, hcheck, -, -, hslot, rfl⟩ := doMmap_eq_ok.mp hmap
    have hfresh := areaFile_of_unused (findFreeVmaSlot_fresh hslot)
    have hnew : areaFile (newArea a file start) = file := areaFile_of_used rfl
    simp only [hcheck]
    cases file with
    | none =>
      refine .bind_ok (run_modify _ _) (.pure ⟨?_, .of_setProc rfl rfl⟩)
      exact h.keepArea (hnew.trans hfresh.symm)
    | some f =>
      obtain ⟨hfd, hofile⟩ := mmapCheck_file hcheck
      refine .bind (filedup_total h (h.pos_of_open hfd hofile)) fun _ t ⟨ht, hproc⟩ => ?_
      have hput := ht.putArea hbare (by rw [hproc]; exact hfresh) hnew
      rw [hproc] at hput
      exact .bind_ok (run_modify _ _) (.pure ⟨hput, .of_setProc hproc rfl⟩)

lemma doMunmap_file (h : doMunmap p addr len = .ok q) :
    ∃ i v, overlappingSlot p addr (pgRoundUp len) = some i ∧ (p.vmArea i).used = true ∧
      q = Process.setArea p i v ∧
      (v.used = false ∨ v.used = true ∧ v.file = (p.vmArea i).file) := by
  obtain ⟨-, -, i, hslot, -, -, -, rfl⟩ := doMunmap_cases h
  have hused := (overlaps_of_overlappingSlot hslot).1
  refine ⟨i, _, hslot, hused, rfl, ?_⟩
  cases hv : (Vma.cut (p.vmArea i) addr (addr + pgRoundUp len)).used with
  | false => exact .inl rfl
  | true => exact .inr ⟨rfl, Vma.file_cut ..⟩

lemma closeArea_file_total (h : Inv b [] [] s)
    (hused : ((s.proc c).vmArea i).used = true) (hv : v.used = false) :
    Total (closeSome ((s.proc c).vmArea i).file) s fun _ t =>
      Inv b [] [] (t.setProc c (Process.setArea (s.proc c) i v)) ∧ t.proc = s.proc := by
  have hheld := areaFile_of_used hused
  cases hfile : ((s.proc c).vmArea i).file with
  | none =>
    rw [hfile] at hheld
    exact .pure ⟨h.keepArea ((areaFile_of_unused hv).trans hheld.symm), rfl⟩
  | some f =>
    rw [hfile] at hheld
    exact fileclose_total_before (h.takeArea hheld (areaFile_of_unused hv))

lemma sysMunmap_total (h : Inv b [] [] s) :
    Total (sysMunmap c addr len) s fun _ t => Inv b [] [] t ∧ Frame c s t := by
  refine .bind_ok (run_gets _ _) ?_
  cases hmap : doMunmap (s.proc c) addr len with
  | error e => exact .pure ⟨h, .refl c s⟩
  | ok q =>
    obtain ⟨i, v, hslot, hused, rfl, hv⟩ := doMunmap_file hmap
    simp only [hslot, setArea_self]
    obtain hv | ⟨hv, hfile⟩ := hv
    · simp only [hv, if_true]
      refine .bind (closeArea_file_total h hused hv) fun _ t ⟨ht, hproc⟩ => ?_
      exact .bind_ok (run_modify _ _) (.pure ⟨ht, .of_setProc hproc rfl⟩)
    · simp only [hv, Bool.true_eq_false, if_false]
      refine .bind_ok (run_modify _ _) (.pure ⟨?_, .of_setProc rfl rfl⟩)
      refine h.keepArea ?_
      rw [areaFile_of_used hv, areaFile_of_used hused, hfile]

/-- The areas below `k` are free, and the process is otherwise as in `s`. -/
structure AreasClosed (b : Mode) (c : Fin nproc) (s : Files) (k : Nat) (t : Files) : Prop where
  inv : Inv b [] [] t
  frame : Frame c s t
  ofile : (t.proc c).ofile = (s.proc c).ofile
  closed : ∀ i : Fin nvma, i.val < k → ((t.proc c).vmArea i).used = false

lemma closeArea_total (hk : k < nvma) (h : AreasClosed b c s k t) :
    Total (closeArea c k) t fun _ u => AreasClosed b c s (k + 1) u := by
  unfold closeArea
  rw [dif_pos hk]
  refine .bind_ok (run_gets _ _) ?_
  split
  · rename_i hfree
    refine .pure ⟨h.inv, h.frame, h.ofile, fun i hi => ?_⟩
    obtain hlt | heq := lt_or_eq_of_le (le_of_lt_succ hi)
    · exact h.closed i hlt
    · obtain rfl : i = ⟨k, hk⟩ := Fin.ext heq
      exact hfree
  · rename_i hused
    rw [Bool.not_eq_false] at hused
    let v := { (t.proc c).vmArea ⟨k, hk⟩ with used := false }
    refine .bind (closeArea_file_total h.inv hused (show v.used = false from rfl))
      fun _ u ⟨hu, hproc⟩ => .modify ?_
    rw [hproc]
    refine ⟨hu, h.frame.trans (.of_setProc hproc rfl), ?_, ?_⟩
    · rw [setProc_self]
      exact h.ofile
    · intro i hi
      rw [setProc_self]
      by_cases hik : i = ⟨k, hk⟩
      · subst hik
        rw [setArea_self]
      · rw [setArea_of_ne hik]
        exact h.closed i (lt_of_le_of_ne (le_of_lt_succ hi) fun he => hik (Fin.ext he))

lemma closeAreas_total (h : Inv b [] [] s) :
    Total (closeAreas c) s fun _ t => AreasClosed b c s nvma t := by
  have hstart : AreasClosed b c s 0 s := ⟨h, .refl c s, rfl, fun _ hi => absurd hi (not_lt_zero _)⟩
  refine (Total.loop (AreasClosed b c s) hstart fun k t _ hk ht => ?_).mono fun _ t ht => ?_
  · exact closeArea_total (by omega) ht
  · rwa [zero_add] at ht

end Areas

/-! ## Processes -/

section Processes

variable {b : Mode} {s : Files} {c n : Fin nproc}

variable {p : Process} {k l : Nat} {t : Files} {copied : Bool}

lemma Inv.setProc_same (h : Inv b [] [] s) (hofile : p.ofile = (s.proc c).ofile)
    (harea : p.vmArea = (s.proc c).vmArea) : Inv b [] [] (s.setProc c p) :=
  h.congr (held_setProc_same hofile fun i => by rw [harea]) rfl rfl

lemma execve_total (h : Inv b [] [] s) :
    Total (execve c heap) s fun _ t => Inv b [] [] t ∧ Frame c s t := by
  refine .bind_ok (run_gets _ _) (.bind_ok (run_modify _ _) ?_)
  have hset : Inv b [] [] (s.setProc c { s.proc c with
      heapBottom := heap, heapTop := heap, stackBottom := 0x3fffff0000#64,
      stackTop := 0x4000000000#64 }) := h.setProc_same rfl rfl
  split
  · refine .bind (closeAreas_total hset) fun _ t ht => .pure ⟨ht.inv, ?_⟩
    exact ⟨fun m hm => (ht.frame.others m hm).trans (setProc_of_ne hm),
      ht.frame.state.trans (by rw [setProc_self])⟩
  · exact .pure ⟨hset, .of_setProc rfl rfl⟩

/-- The state of `fork` when the descriptors below `k` and the areas below `l` are copied. -/
structure Forking (b : Mode) (n : Fin nproc) (s : Files) (k l : Nat) (t : Files) : Prop where
  inv : Inv b [] [] t
  others : ∀ m, m ≠ n → t.proc m = s.proc m
  state : (t.proc n).state = .used
  ofile : ∀ fd, k ≤ fd → (t.proc n).ofile fd = none
  area : ∀ i : Fin nvma, l ≤ i.val → ((t.proc n).vmArea i).used = false

lemma forkFd_total (hk : k < nofile)
    (h : Forking b n s k 0 t) : Total (forkFd c n k) t fun _ u => Forking b n s (k + 1) 0 u := by
  refine .bind_ok (run_gets _ _) ?_
  cases hfile : (t.proc c).ofile k with
  | none =>
    exact .pure ⟨h.inv, h.others, h.state, fun fd hfd => h.ofile fd (le_of_succ_le hfd), h.area⟩
  | some f =>
    refine .bind (filedup_total h.inv (h.inv.pos_of_open hk hfile)) fun _ u ⟨hu, hproc⟩ =>
      .modify ?_
    have hnone : (u.proc n).ofile k = none := by
      rw [hproc]
      exact h.ofile k (le_refl k)
    refine ⟨hu.put hk hnone, fun m hm => ?_, ?_, fun fd hfd => ?_, fun i hi => ?_⟩
    · rw [setProc_of_ne hm, hproc, h.others m hm]
    · rw [setProc_self, hproc]
      exact h.state
    · have hfdk : fd ≠ k := by omega
      rw [setProc_self, setOfile_ofile_of_ne hfdk, hproc]
      exact h.ofile fd (le_of_succ_le hfd)
    · rw [setProc_self, hproc]
      exact h.area i hi

lemma forkArea_total (hl : l < nvma) (h : Forking b n s nofile l t) :
    Total (forkArea c n l) t fun _ u => Forking b n s nofile (l + 1) u := by
  have hfree := areaFile_of_unused (h.area ⟨l, hl⟩ (le_refl l))
  unfold forkArea
  rw [dif_pos hl]
  refine .bind_ok (run_gets _ _) ?_
  -- the area of the child after the copy; its file counts if the area of the parent is in use
  have hdone : ∀ u : Files, u.proc = t.proc →
      Inv b [] [] (u.setProc n (Process.setArea (u.proc n) ⟨l, hl⟩ ((t.proc c).vmArea ⟨l, hl⟩))) →
      Forking b n s nofile (l + 1)
        (u.setProc n (Process.setArea (u.proc n) ⟨l, hl⟩ ((t.proc c).vmArea ⟨l, hl⟩))) := by
    intro u hproc hinv
    refine ⟨hinv, fun m hm => ?_, ?_, fun fd hfd => ?_, fun i hi => ?_⟩
    · rw [setProc_of_ne hm, hproc, h.others m hm]
    · rw [setProc_self, hproc]
      exact h.state
    · rw [setProc_self, hproc]
      exact h.ofile fd hfd
    · have hil : i ≠ ⟨l, hl⟩ := by
        rintro rfl
        exact absurd hi (not_succ_le_self l)
      rw [setProc_self, setArea_of_ne hil, hproc]
      exact h.area i (le_of_succ_le hi)
  split
  · rename_i hused
    have hheld := areaFile_of_used hused
    cases hfile : ((t.proc c).vmArea ⟨l, hl⟩).file with
    | none =>
      rw [hfile] at hheld
      exact .modify (hdone t rfl (h.inv.keepArea (hheld.trans hfree.symm)))
    | some f =>
      rw [hfile] at hheld
      have hpos : 1 ≤ refs t f :=
        h.inv.balanced.pos_of_held (show held t.proc (.area c ⟨l, hl⟩) = some f from hheld)
      refine .bind (filedup_total h.inv hpos) fun _ u ⟨hu, hproc⟩ => .modify (hdone u hproc ?_)
      have hbare : ¬b.bare := fun hb => by cases (h.inv.bare hb c ⟨l, hl⟩).symm.trans hheld
      exact hu.putArea hbare (by rw [hproc]; exact hfree) hheld
  · exact .pure ⟨h.inv, h.others, h.state, h.ofile, fun i hi => h.area i (le_of_succ_le hi)⟩

/-- A process slot without descriptors and areas is set up or given back. -/
lemma Inv.setProc_empty (h : Inv b [] [] s) (hofile : ∀ fd < nofile, (s.proc n).ofile fd = none)
    (harea : ∀ i, ((s.proc n).vmArea i).used = false) (hofile' : ∀ fd < nofile, p.ofile fd = none)
    (harea' : ∀ i, (p.vmArea i).used = false) : Inv b [] [] (s.setProc n p) := by
  refine h.congr ?_ rfl rfl
  funext x
  cases x with
  | slot m fd =>
    by_cases hm : m = n
    · subst hm
      simp only [held, setProc_self, hofile' fd fd.isLt, hofile fd fd.isLt]
    · simp only [held, setProc_of_ne hm]
  | area m i =>
    by_cases hm : m = n
    · subst hm
      simp only [held, setProc_self, areaFile_of_unused (harea' i), areaFile_of_unused (harea i)]
    · simp only [held, setProc_of_ne hm]

lemma Quiet.setProc (h : Quiet proc)
    (hothers : ∀ m, m ≠ n → proc' m = proc m) (hn : ¬Active (proc' n).state →
      (∀ fd < nofile, (proc' n).ofile fd = none) ∧ ∀ i, ((proc' n).vmArea i).used = false) :
    Quiet proc' := by
  intro m hm
  by_cases hmn : m = n
  · subst hmn
    exact hn hm
  · rw [hothers m hmn] at hm ⊢
    exact h m hm

lemma allocProcess_total (h : Good b s) : Total allocProcess s fun o t => match o with
      | none => t = s
      | some n => Forking b n s 0 0 t ∧ (s.proc n).state = .unused := by
  refine .bind_ok (run_get s) ?_
  cases hfind : (List.finRange nproc).find? fun n => (s.proc n).state = .unused with
  | none => exact .pure rfl
  | some n =>
    have hstate : (s.proc n).state = .unused := by simpa using List.find?_some hfind
    obtain ⟨hofile, harea⟩ := h.quiet n (by simp [hstate, Active])
    refine .bind_ok (run_modify _ _) (.bind_ok (run_modify _ _) (.pure ⟨?_, hstate⟩))
    refine ⟨?_, fun m hm =>
      setProc_of_ne hm, by rw [setProc_self], fun fd _ => by rw [setProc_self],
      fun i _ => ?_⟩
    · have hpid : Inv b [] [] { s with nextPid := s.nextPid + 1 } := h.inv.congr rfl rfl rfl
      exact hpid.setProc_empty hofile harea (fun _ _ => rfl) harea
    · rw [setProc_self]
      exact harea i

lemma Forking.setProc_same (h : Forking b n s k l t)
    (hofile : p.ofile = (t.proc n).ofile) (harea : p.vmArea = (t.proc n).vmArea)
    (hstate : p.state = (t.proc n).state) : Forking b n s k l (t.setProc n p) := by
  refine ⟨h.inv.setProc_same hofile harea, fun m hm => ?_, ?_, fun fd hfd => ?_, fun i hi => ?_⟩
  · rw [setProc_of_ne hm, h.others m hm]
  · rw [setProc_self, hstate, h.state]
  · rw [setProc_self, hofile, h.ofile fd hfd]
  · rw [setProc_self, harea, h.area i hi]

lemma fork_total (h : Good b s) : Total (fork c copied) s fun _ t => Good b t := by
  refine .bind (allocProcess_total h) fun o t ht => ?_
  cases o with
  | none =>
    subst ht
    exact .pure h
  | some n =>
    obtain ⟨ht, hunused⟩ := ht
    dsimp only
    split
    · refine .bind_ok (run_modify _ _) (.pure ⟨ht.inv.setProc_same rfl rfl, ?_⟩)
      refine h.quiet.setProc (fun m hm => (setProc_of_ne hm).trans (ht.others m hm)) fun _ => ?_
      rw [setProc_self]
      exact ⟨fun fd _ => ht.ofile fd (zero_le fd), fun i => ht.area i (zero_le _)⟩
    · refine .bind_ok (run_modify _ _) ?_
      refine .bind (Total.loop (fun k u => Forking b n s k 0 u) (ht.setProc_same rfl rfl rfl)
        fun k u _ hk hu => forkFd_total (by omega) hu) fun _ u hu => ?_
      rw [zero_add] at hu
      refine .bind (Total.loop (fun l u => Forking b n s nofile l u) hu
        fun l u _ hl hu => forkArea_total (by omega) hu) fun _ v hv => ?_
      refine .bind_ok (run_modify _ _) (.gets ⟨hv.inv.setProc_same rfl rfl, ?_⟩)
      refine h.quiet.setProc (fun m hm => (setProc_of_ne hm).trans (hv.others m hm)) fun hn => ?_
      rw [setProc_self] at hn
      exact absurd (show Active .runnable from ⟨by decide, by decide⟩) hn

/-- The descriptors below `k` are closed. -/
structure FdsClosed (b : Mode) (c : Fin nproc) (s : Files) (k : Nat) (t : Files) : Prop where
  inv : Inv b [] [] t
  frame : Frame c s t
  closed : ∀ fd < k, (t.proc c).ofile fd = none

lemma exitFd_total (hk : k < nofile) (h : FdsClosed b c s k t) :
    Total (exitFd c k) t fun _ u => FdsClosed b c s (k + 1) u := by
  refine .bind_ok (run_gets _ _) ?_
  cases hfile : (t.proc c).ofile k with
  | none =>
    exact .pure ⟨h.inv, h.frame, forall_lt_succ_right.mpr ⟨h.closed, hfile⟩⟩
  | some f =>
    refine .bind_ok (run_modify _ _) ?_
    refine (fileclose_total (h.inv.take hk hfile)).mono fun _ u ⟨hu, hproc⟩ => ?_
    refine ⟨hu, h.frame.trans (.setOfile hproc), fun fd hfd => ?_⟩
    rw [hproc, setProc_self]
    by_cases hfdk : fd = k
    · subst hfdk
      exact setOfile_ofile_self
    · rw [setOfile_ofile_of_ne hfdk]
      exact h.closed fd (lt_of_le_of_ne (le_of_lt_succ hfd) hfdk)

lemma reparent_total (h : Inv b [] [] s) : Total (reparent c) s fun _ t => Inv b [] [] t ∧
      ∀ m, (t.proc m).state = (s.proc m).state ∧ (t.proc m).ofile = (s.proc m).ofile ∧
        (t.proc m).vmArea = (s.proc m).vmArea := by
  have hsame : ∀ m, ((if (s.proc m).parent = some c.val then { s.proc m with parent := some 0 }
      else s.proc m : Process)).state = (s.proc m).state ∧
      ((if (s.proc m).parent = some c.val then { s.proc m with parent := some 0 }
      else s.proc m : Process)).ofile = (s.proc m).ofile ∧
      ((if (s.proc m).parent = some c.val then { s.proc m with parent := some 0 }
      else s.proc m : Process)).vmArea = (s.proc m).vmArea := by
    intro m
    split <;> exact ⟨rfl, rfl, rfl⟩
  refine .modify ⟨h.congr ?_ rfl rfl, hsame⟩
  funext x
  cases x with
  | slot m fd => exact congrFun (hsame m).2.1 fd
  | area m i => exact congrArg (fun area => areaFile (area i)) (hsame m).2.2

lemma exit_total (h : Good b s) (hc : Active (s.proc c).state) :
    Total (exit c code) s fun _ t => Good b t := by
  have hstart : FdsClosed b c s 0 s := ⟨h.inv, .refl c s, fun _ hfd => absurd hfd (not_lt_zero _)⟩
  refine .bind (Total.loop (FdsClosed b c s) hstart fun k t _ hk ht => exitFd_total (by omega) ht)
    fun _ t ht => ?_
  rw [zero_add] at ht
  have hquiet := h.quiet.frame hc ht.frame
  refine .bind (reparent_total ht.inv) fun _ u ⟨hu, hsame⟩ => .bind_ok (run_modify _ _) ?_
  refine .bind (closeAreas_total (hu.setProc_same rfl rfl)) fun _ v hv => .pure ⟨hv.inv, ?_⟩
  intro m hm
  by_cases hmc : m = c
  · subst hmc
    refine ⟨fun fd hfd => ?_, fun i => hv.closed i i.isLt⟩
    rw [hv.ofile, setProc_self]
    exact (congrFun (hsame m).2.1 fd).trans (ht.closed fd hfd)
  · rw [hv.frame.others m hmc, setProc_of_ne hmc] at hm ⊢
    rw [(hsame m).1] at hm
    rw [(hsame m).2.1, (hsame m).2.2]
    exact hquiet m hm

lemma wait4_total (h : Good b s) :
    Total (wait4 c pid wstatus copied) s fun _ t => Good b t := by
  refine .bind_ok (run_get s) ?_
  dsimp only
  split
  · exact .pure h
  · rename_i n hfind
    have hzombie : (s.proc n).state = .zombie := by
      have := List.find?_some hfind
      simp only [decide_eq_true_eq] at this
      exact this.2.2.2
    split
    · exact .pure h
    · refine .bind_ok (run_modify _ _) (.pure ⟨h.inv.setProc_same rfl rfl, ?_⟩)
      refine h.quiet.setProc (fun m hm => setProc_of_ne hm) fun _ => ?_
      rw [setProc_self]
      exact h.quiet n (by simp [hzombie, Active])

end Processes

/-! ## Offsets -/

section Offsets

variable {b : Mode} {s : Files} {c : Fin nproc}

variable {e : File} {off moved : Word} {f : Nat} {fd : Int} {v : Vfs}

lemma genuine_offset {b : Prop} (h : Genuine b e) (htype : e.type ≠ .pipe) :
    Genuine b { e with offset := off } := by
  cases h with
  | vfsNode type node pipe append readable writable =>
    exact .vfsNode type node pipe append readable writable
  | pipe type => exact absurd type htype

section
variable (h : Inv b [] [] s)
include h

lemma Inv.setOffset (hpos : 1 ≤ refs s f) (htype : (s.ftable f).type ≠ .pipe) :
    Inv b [] [] (s.setFile f { s.ftable f with offset := off }) := by
  have hsame : update (refs s) f (refs s f) = refs s := update_eq_self ..
  refine h.setFile ?_ (fun _ _ => Iff.rfl) (fun hz => ?_)
    (fun hf _ => genuine_offset (h.live f hf hpos) htype) (fun hf => by cases hf) fun _ _ => Iff.rfl
  · exact (congrArg (fun cnt => Balanced (held s.proc) cnt []) hsame).mpr h.balanced
  · exact absurd (show refs s f = 0 from hz) (by omega)

lemma sysLseek_total :
    Total (sysLseek v c fd off whence) s fun _ t => Inv b [] [] t ∧ Frame c s t := by
  refine .bind_ok (run_get s) ?_
  cases hopen : openFile (s.proc c) fd with
  | none => exact .pure ⟨h, .refl c s⟩
  | some f =>
    obtain ⟨hfd, hofile⟩ := openFile_eq_some hopen
    dsimp only
    split
    · exact .pure ⟨h, .refl c s⟩
    rename_i hpipe
    split
    · exact .pure ⟨h, .refl c s⟩
    split
    · exact .pure ⟨h, .refl c s⟩
    · refine .bind_ok (run_modify _ _) (.pure ⟨?_, .of_proc rfl⟩)
      exact h.setOffset (h.pos_of_open hfd hofile) fun ht => hpipe (.inl ht)

lemma moveOffset_total :
    Total (moveOffset c fd off) s fun _ t => Inv b [] [] t ∧ Frame c s t := by
  refine .bind_ok (run_get s) ?_
  cases hopen : openFile (s.proc c) fd with
  | none => exact .pure ⟨h, .refl c s⟩
  | some f =>
    obtain ⟨hfd, hofile⟩ := openFile_eq_some hopen
    dsimp only
    split
    · exact .pure ⟨h, .refl c s⟩
    · rename_i hpipe
      refine .bind_ok (run_modify _ _) (.pure ⟨?_, .of_proc rfl⟩)
      exact h.setOffset (h.pos_of_open hfd hofile) fun ht => hpipe (.inr (.inl ht))

lemma transfer_total (hpos : 1 ≤ refs s f) (htype : e.type = (s.ftable f).type) :
    Total (transfer f e moved) s fun _ t => Inv b [] [] t ∧ t.proc = s.proc := by
  unfold transfer
  split
  · exact .pure ⟨h, rfl⟩
  split
  · exact .pure ⟨h, rfl⟩
  · rename_i hpipe _
    rw [htype] at hpipe
    exact .bind_ok (run_modify _ _) (.pure ⟨h.setOffset hpos hpipe, rfl⟩)

/-- The pointer to the inode is followed only if there is one, unless a pipe end appends. -/
lemma appendOffset_meets (hpos : 1 ≤ refs s f) :
    Meets b.clean (appendOffset v f (s.ftable f)) s fun _ t => Inv b [] [] t ∧ t.proc = s.proc ∧
      1 ≤ refs t f ∧ (s.ftable f).type = (t.ftable f).type := by
  unfold appendOffset
  split
  · rename_i happend
    have hgenuine := h.live f (by simp) hpos
    split
    · rename_i hnode
      refine ⟨.fail, fun hb => ?_⟩
      cases hgenuine with
      | vfsNode _ node => cases hnode.symm.trans node
      | pipe _ _ _ append => simp [append hb] at happend
    · rename_i n hnode
      have htype : (s.ftable f).type ≠ .pipe := by
        cases hgenuine with
        | vfsNode type => simp [type]
        | pipe _ node => cases node.symm.trans hnode
      refine .of_total (.modify ⟨h.setOffset hpos htype, rfl, ?_, ?_⟩)
      · rw [refs, setFile_self]
        exact hpos
      · rw [setFile_self]
  · exact .pure ⟨h, rfl, hpos, rfl⟩

lemma sysWrite_meets :
    Meets b.clean (sysWrite v c fd total moved) s fun _ t => Inv b [] [] t ∧ Frame c s t := by
  unfold sysWrite
  split
  · exact .pure ⟨h, .refl c s⟩
  refine .bind_ok (run_get s) ?_
  cases hopen : openFile (s.proc c) fd with
  | none => exact .pure ⟨h, .refl c s⟩
  | some f =>
    obtain ⟨hfd, hofile⟩ := openFile_eq_some hopen
    dsimp only
    split
    · exact .pure ⟨h, .refl c s⟩
    · refine .bind (appendOffset_meets h (h.pos_of_open hfd hofile))
        fun _ t ⟨ht, hproc, hpos, htype⟩ => ?_
      refine .of_total ((transfer_total ht hpos htype).mono fun _ u ⟨hu, hproc'⟩ => ⟨hu, ?_⟩)
      exact .of_proc (hproc'.trans hproc)

end

end Offsets

/-! ## Runs -/

/-- A pipe gets two entries that do not append; other calls may start in any state. -/
def FileAction.CleanStart (s : Files) : FileAction → Prop
  | .pipe2 _ _ _ => CleanPair s
  | _ => True

section Runs

variable {b : Mode} {s t : Files} {c : Fin nproc}

lemma Good.of_frame (h : Good b s) (hc : Active (s.proc c).state)
    (hx : Total x s fun _ t => Inv b [] [] t ∧ Frame c s t) : Total x s fun _ t => Good b t :=
  hx.mono fun _ _ ⟨ht, hframe⟩ => ⟨ht, h.quiet.frame hc hframe⟩

lemma FileAction.run_total (a : FileAction) (h : Good b s) (hc : Active (s.proc c).state)
    (hclean : b.clean → a.CleanStart s) (hbare : b.bare → ∀ m, a ≠ .mmap m)
    (hwrite : ∀ v fd total moved, a ≠ .write v fd total moved) : Total (a.run c) s fun _ t =>
      Good b t := by
  cases a with
  | openat v dirfd path flags =>
    refine h.of_frame hc ?_
    exact (openat_total h.inv).mono fun _ _ ⟨ht, hframe, _⟩ => ⟨ht, hframe⟩
  | newfstatat v dirfd path st stat => exact h.of_frame hc (sysNewfstatat_total h.inv)
  | dup fd => exact h.of_frame hc (dupFrom_total h.inv)
  | fcntl fd cmd arg => exact h.of_frame hc (sysFcntl_total h.inv)
  | dup3 oldfd newfd flags => exact h.of_frame hc (sysDup3_total h.inv)
  | close fd => exact h.of_frame hc (sysClose_total h.inv)
  | pipe2 flags mem copied =>
    refine h.of_frame hc ?_
    exact (sysPipe2_total h.inv hclean).mono fun _ _ ⟨ht, hframe, _⟩ => ⟨ht, hframe⟩
  | mmap a => exact h.of_frame hc (sysMmap_total h.inv fun hb => hbare hb a rfl)
  | munmap addr len => exact h.of_frame hc (sysMunmap_total h.inv)
  | exec heap => exact h.of_frame hc (execve_total h.inv)
  | execFails e => exact .pure h
  | fork copied => exact fork_total h
  | exit code => exact exit_total h hc
  | wait pid wstatus copied => exact wait4_total h
  | lseek v fd off whence => exact h.of_frame hc (sysLseek_total h.inv)
  | write v fd total moved => exact absurd rfl (hwrite v fd total moved)
  | read fd off | getdents fd off => exact h.of_frame hc (moveOffset_total h.inv)

/-- The step starts in a state in which it may be taken under `b`. -/
def FileEvent.CleanStart (s : Files) : FileEvent → Prop
  | .call _ a => a.CleanStart s
  | .sched _ _ => True

lemma FileStep.good (h : Good b s) (hclean : b.clean → ev.CleanStart s)
    (hbare : b.bare → ∀ c m, ev ≠ .call c (.mmap m)) (hstep : FileStep s ev t) : Good b t := by
  cases hstep with
  | @call _ c a _ hc hrun =>
    by_cases hwrite : ∀ v fd total moved, a ≠ .write v fd total moved
    · refine (FileAction.run_total a h hc hclean (fun hb m ha => ?_) hwrite).of_run hrun
      exact hbare hb c m (ha ▸ rfl)
    · push Not at hwrite
      obtain ⟨v, fd, total, moved, rfl⟩ := hwrite
      obtain ⟨ht, hframe⟩ := (sysWrite_meets h.inv).1 _ _ hrun
      exact ⟨ht, h.quiet.frame hc hframe⟩
  | sched hc hst =>
    refine ⟨h.inv.setProc_same rfl rfl, h.quiet.setProc (fun m hm => setProc_of_ne hm) fun hn => ?_⟩
    rw [setProc_self] at hn
    exact absurd hst hn

lemma boot_good : Good b Files.boot := by
  have hproc : ∀ n, (Files.boot.proc n).ofile = (fun _ => none) ∧
      (Files.boot.proc n).vmArea = fun _ => Vma.zero := by
    intro n
    unfold Files.boot
    dsimp only
    split <;> exact ⟨rfl, rfl⟩
  have hheld : ∀ x, held Files.boot.proc x = none := by
    intro x
    cases x with
    | slot n fd => exact congrFun (hproc n).1 fd
    | area n i =>
      show areaFile ((Files.boot.proc n).vmArea i) = none
      rw [(hproc n).2]
      rfl
  refine ⟨⟨⟨⟨by simp [hheld], fun f => ?_⟩, fun f _ => ⟨rfl, rfl, rfl, rfl, rfl, rfl⟩,
    fun f _ hpos => ?_,
    fun f hf => by cases hf⟩, ⟨nofun, fun pi w => ?_, nofun⟩, fun _ c i => hheld _⟩,
    fun n _ => ⟨fun fd _ => congrFun (hproc n).1 fd, fun i => ?_⟩⟩
  · have hempty : holders (held Files.boot.proc) f = ∅ :=
      eq_empty_of_forall_notMem fun x hx => by simp [hheld] at hx
    rw [hempty]
    simp [refs, Files.boot, File.zero]
  · exact absurd hpos (by simp [refs, Files.boot, File.zero])
  · simp [Files.flag, IsEnd, Files.boot, File.zero]
  · rw [(hproc n).2]
    rfl

/-- The descriptors of processes in use that refer to the entry. -/
def slotRefs (s : Files) (f : Nat) : Set (Fin nproc × Fin nofile) :=
  {x | (s.proc x.1).state ≠ .unused ∧ (s.proc x.1).ofile x.2 = some f}

/-- The areas in use that refer to the entry. -/
def areaRefs (s : Files) (f : Nat) : Set (Fin nproc × Fin nvma) :=
  {x | ((s.proc x.1).vmArea x.2).used = true ∧ ((s.proc x.1).vmArea x.2).file = some f}

lemma areaFile_eq_some : areaFile v = some f ↔ v.used = true ∧ v.file = some f := by
  cases hused : v.used <;> simp [areaFile, hused]

lemma Good.holders_eq (h : Good b s) (f : Nat) :
    holders (held s.proc) f = (fun x => Place.slot x.1 x.2) '' slotRefs s f ∪
      (fun x => Place.area x.1 x.2) '' areaRefs s f := by
  ext x
  cases x with
  | slot n fd =>
    have hused : held s.proc (.slot n fd) = some f → (s.proc n).state ≠ .unused := by
      intro hx hstate
      have hnone := (h.quiet n (by simp [hstate, Active])).1 fd fd.isLt
      have hsome : (s.proc n).ofile fd = some f := hx
      rw [hnone] at hsome
      cases hsome
    simpa [slotRefs, areaRefs, held] using hused
  | area n i => simp [slotRefs, areaRefs, held, areaFile_eq_some]

lemma Good.refCount_eq (h : Good b s) (f : Nat) :
    (s.ftable f).refCount = (slotRefs s f).ncard + (areaRefs s f).ncard := by
  have hslot : Injective fun x : Fin nproc × Fin nofile => Place.slot x.1 x.2 := by
    intro x y hxy
    simpa [Prod.ext_iff] using hxy
  have harea : Injective fun x : Fin nproc × Fin nvma => Place.area x.1 x.2 := by
    intro x y hxy
    simpa [Prod.ext_iff] using hxy
  have hdisj : Disjoint ((fun x => Place.slot x.1 x.2) '' slotRefs s f)
      ((fun x => Place.area x.1 x.2) '' areaRefs s f) := by
    rw [disjoint_left]
    rintro _ ⟨x, -, rfl⟩ ⟨y, -, hy⟩
    cases hy
  have hcount := h.inv.balanced.count f
  rw [h.holders_eq f, ncard_union_eq hdisj (toFinite _) (toFinite _),
    ncard_image_of_injective _ hslot, ncard_image_of_injective _ harea] at hcount
  simpa [refs] using hcount

end Runs

/-- After every run of the calls by any processes, the reference count of every entry is the number
of descriptors and areas that refer to it; an entry is free exactly if there are none. -/
theorem refCount_exact (s : Files) (events : List FileEvent)
    (hrun : Run FileStep Files.boot events s) (f : Nat) :
    (s.ftable f).refCount = (slotRefs s f).ncard + (areaRefs s f).ncard ∧
      ((s.ftable f).refCount = 0 ↔ slotRefs s f = ∅ ∧ areaRefs s f = ∅) := by
  have hgood : Good ⟨False, False⟩ s :=
    hrun.invariant (Good _) (fun _ _ _ h hstep => hstep.good h False.elim False.elim) boot_good
  have hcount := hgood.refCount_eq f
  refine ⟨hcount, ?_⟩
  rw [hcount, ← ncard_eq_zero (toFinite (slotRefs s f)), ← ncard_eq_zero (toFinite (areaRefs s f))]
  omega

/-- A file system in which every path leads to one inode. -/
def oneNode (type : NodeType) : Vfs where
  type := fun _ => type
  size := fun _ => 0#64
  cwd := [slash]
  lookupAt := fun _ _ => some 7
  createAt := fun _ _ => none
  truncate := fun _ => none

def openRoot (type : NodeType) (flags : BitVec 32) : FileEvent :=
  .call proc0 (.openat (oneNode type) (-100) (some [slash]) flags)

/-- The calls of `user_init`: standard input, standard output and a duplicate of it. -/
theorem refCount_exact_init :
    ∃ s, Run FileStep Files.boot [openRoot .dev 0#32, openRoot .dev 1#32, .call proc0 (.dup 1)] s ∧
      (s.ftable 1).refCount = 2 ∧
      (s.ftable 1).refCount = (slotRefs s 1).ncard + (areaRefs s 1).ncard := by
  have hactive : ProcState.Active .used := ⟨by decide, by decide⟩
  obtain ⟨s, hrun, hcount⟩ : ∃ s, Run FileStep Files.boot
      [openRoot .dev 0#32, openRoot .dev 1#32, .call proc0 (.dup 1)] s ∧
        (s.ftable 1).refCount = 2 :=
    ⟨_, .cons (.call hactive rfl) (.cons (.call hactive rfl) (.cons (.call hactive rfl) (.nil _))),
      rfl⟩
  exact ⟨s, hrun, hcount, (refCount_exact s _ hrun 1).1⟩

/-! ## Reuse of entries -/

/-- A step in which no pipe is created over an entry that still appends. -/
def CleanStep (s : Files) (ev : FileEvent) (t : Files) : Prop := ev.CleanStart s ∧ FileStep s ev t

/-- Entries without references have no attributes, and the others have those of the call that
created the current object. -/
def Unmixed (s : Files) : Prop :=
  ∀ f, ((s.ftable f).refCount = 0 → Blank (s.ftable f)) ∧
    (1 ≤ (s.ftable f).refCount → Genuine True (s.ftable f))

variable {s : Files}

lemma Good.unmixed (h : Good ⟨True, False⟩ s) : Unmixed s :=
  fun f => ⟨h.inv.idle f, h.inv.live f (by simp)⟩

lemma cleanPair_of_unmixed (hmade : PipeMade s t) (ht : Unmixed t) : CleanPair s := by
  intro f hf
  obtain ⟨hpos, htype, happend⟩ := hmade.2 f hf
  rw [← happend]
  cases (ht f).2 hpos with
  | vfsNode type => cases htype.symm.trans type
  | pipe _ _ _ append => exact append trivial

/-- In every run whose pipes are created over entries that do not append, no file has an attribute
of an earlier file of its entry and no write follows a missing pointer to an inode. In such a state
a further pipe keeps this exactly if the two entries it gets do not append. -/
theorem unmixed_of_clean_run (s : Files) (events : List FileEvent)
    (hrun : Run CleanStep Files.boot events s) :
    Unmixed s ∧
      (∀ v c fd total moved, ∃ r t, (sysWrite v c fd total moved).run s = .ok (r, t)) ∧
      ∀ c mem copied t, (sysPipe2 c 0 mem copied).run s = .ok (0, t) →
        (Unmixed t ↔ CleanPair s) := by
  have hgood : Good ⟨True, False⟩ s :=
    hrun.invariant (Good _) (fun _ _ _ h hstep => hstep.2.good h (fun _ => hstep.1) False.elim)
      boot_good
  have hgood' : Good ⟨False, False⟩ s :=
    hrun.invariant (Good _) (fun _ _ _ h hstep => hstep.2.good h False.elim False.elim) boot_good
  refine ⟨hgood.unmixed, fun v c fd total moved => ?_, fun c mem copied t hpipe => ⟨?_, ?_⟩⟩
  · obtain ⟨r, t, hwrite, -⟩ := (sysWrite_meets hgood.inv).2 trivial
    exact ⟨r, t, hwrite⟩
  · intro ht
    obtain ⟨-, -, hmade⟩ := (sysPipe2_total hgood'.inv False.elim).of_run hpipe
    exact cleanPair_of_unmixed (hmade rfl) ht
  · intro hclean
    obtain ⟨ht, -, -⟩ := (sysPipe2_total hgood.inv fun _ => hclean).of_run hpipe
    exact fun f => ⟨ht.idle f, ht.live f (by simp)⟩

/-- The read end of a pipe gets the entry of a file that was closed. -/
theorem unmixed_of_clean_run_pipe :
    ∃ s, Run CleanStep Files.boot [openRoot .file 0#32, .call proc0 (.close 0),
      .call proc0 (.pipe2 0 (some 5) true)] s ∧ Unmixed s ∧ (s.ftable 0).type = .pipe := by
  have hactive : ProcState.Active .used := ⟨by decide, by decide⟩
  obtain ⟨s, hrun, htype⟩ : ∃ s, Run CleanStep Files.boot [openRoot .file 0#32,
      .call proc0 (.close 0), .call proc0 (.pipe2 0 (some 5) true)] s ∧
        (s.ftable 0).type = .pipe := by
    refine ⟨_, .cons ⟨trivial, .call hactive rfl⟩ (.cons ⟨trivial, .call hactive rfl⟩
      (.cons ⟨?_, .call hactive rfl⟩ (.nil _))), rfl⟩
    change CleanPair _
    unfold CleanPair
    decide +kernel
  exact ⟨s, hrun, (unmixed_of_clean_run _ _ hrun).1, htype⟩

/-- Two files are opened, the second one with `O_APPEND`, and closed; then a pipe is created. Its
write end appends, and a write to it follows a pointer that is zero. -/
theorem write_end_appends :
    ∃ s, Run FileStep Files.boot [openRoot .file 0#32, openRoot .file 0x401#32,
        .call proc0 (.close 0), .call proc0 (.close 1), .call proc0 (.pipe2 0 (some 5) true)] s ∧
      ¬Unmixed s ∧ (sysWrite (oneNode .file) proc0 1 1 1#64).run s = .error .nullDeref := by
  have hactive : ProcState.Active .used := ⟨by decide, by decide⟩
  refine ⟨_, .cons (.call hactive rfl) (.cons (.call hactive rfl) (.cons (.call hactive rfl)
    (.cons (.call hactive rfl) (.cons (.call hactive rfl) (.nil _))))), fun h => ?_, rfl⟩
  cases (h 1).2 (by decide +kernel) with
  | vfsNode type => cases type
  | pipe _ _ _ append => cases append trivial

end FrostVista.Kernel.Ftable
