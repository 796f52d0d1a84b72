import FrostVista.Kernel.FileRuns
import FrostVista.Kernel.Pipe

/-!
# The ends of a pipe

A pipe is known to the file table by its two flags, which tell `pipe_read` and `pipe_write` whether
the other side still exists.
-/
namespace FrostVista.Kernel.Ftable

open Lib Lib.Comp Lib.RefCount

/-- Some descriptor of some process refers to this end of the pipe. -/
def Refers (s : Files) (pi : Nat) (writable : Bool) : Prop :=
  ∃ (n : Fin nproc) (fd : Fin nofile) (f : Nat), (s.proc n).ofile fd = some f ∧
    IsEnd s pi writable f

section Ends

variable {b : Mode} {s : Files} {pi : Nat} {w : Bool} {p : PipeCell}

section
variable (h : Inv b [] [] s) (hbare : b.bare)
include h hbare

lemma Inv.flag_iff : s.flag pi w = true ↔ Refers s pi w := by
  refine (h.pipes.flag pi w).trans ⟨fun ⟨f, hend⟩ => ?_, fun ⟨_, _, f, _, hend⟩ => ⟨f, hend⟩⟩
  have hne : holders (held s.proc) f ≠ ∅ := by
    intro hempty
    have hcount := h.balanced.count f
    rw [hempty, Set.ncard_empty, List.count_nil] at hcount
    cases hend.1.symm.trans (h.idle f hcount).pipe
  obtain ⟨x, hx⟩ := Set.nonempty_iff_ne_empty.mpr hne
  cases x with
  | slot n fd => exact ⟨n, fd, f, hx, hend⟩
  | area n i => cases (h.bare hbare n i).symm.trans hx

lemma Inv.readable_iff (hp : s.pipes pi = some p) :
    p.readable = true ↔ Refers s pi false := by
  rw [← h.flag_iff hbare, flag_eq hp]
  rfl

lemma Inv.writable_iff (hp : s.pipes pi = some p) :
    p.writable = true ↔ Refers s pi true := by
  rw [← h.flag_iff hbare, flag_eq hp]
  rfl

end

end Ends

/-- In every run without `mmap`, failing calls included: every call but `write` returns; a
descriptor of a pipe end leads to a pipe; each flag of a pipe is set exactly while a descriptor
refers to that end; the pipe is freed once, when no descriptor is left, and not used after that.
With those flags, a read of at least one byte returns 0 exactly if the ring is empty and no write
descriptor exists, and a write that has moved `i` bytes of more returns `-EPIPE` exactly if it has
moved none and no read descriptor exists. -/
theorem pipe_ends_track (s : Files) (events : List FileEvent)
    (hrun : Run FileStep Files.boot events s) (hmmap : ∀ c m, FileEvent.call c (.mmap m) ∉ events) :
    (∀ c (a : FileAction), ProcState.Active (s.proc c).state → (∀ m, a ≠ .mmap m) →
      (∀ v fd total moved, a ≠ .write v fd total moved) → ∃ r t, (a.run c).run s = .ok (r, t)) ∧
    (∀ pi w, Refers s pi w → ∃ p, s.pipes pi = some p) ∧
    ∀ pi p, s.pipes pi = some p →
      (p.readable = true ↔ Refers s pi false) ∧ (p.writable = true ↔ Refers s pi true) ∧
      p.late = 0 ∧ p.frees ≤ 1 ∧ (p.frees = 0 ↔ ∃ w, Refers s pi w) ∧
      ∀ ring, (∀ copyout size, 0 < size →
          ((pipeReadLocked copyout size ⟨ring, p.readable, p.writable⟩).outcome = .returned 0 ↔
            ring.nread = ring.nwrite ∧ ¬Refers s pi true)) ∧
        ∀ copyin size i, i < size →
          ((pipeWrite copyin size i ⟨ring, p.readable, p.writable⟩).outcome = .returned (-ePipe) ↔
            i = 0 ∧ ¬Refers s pi false) := by
  have hrun' := hrun.restrict (P := fun _ ev => ∀ c m, ev ≠ .call c (.mmap m))
    fun _ hev _ c m he => hmmap c m (he ▸ hev)
  have hgood : Good ⟨False, True⟩ s :=
    hrun'.invariant (Good _) (fun _ _ _ h hstep => hstep.2.good h False.elim fun _ =>
      hstep.1) boot_good
  refine ⟨fun c a hc hm hw => ?_, fun pi w ⟨_, _, _, _, hend⟩ => ?_, fun pi p hp => ?_⟩
  · obtain ⟨r, t, hcall, -⟩ := FileAction.run_total a hgood hc False.elim (fun _ => hm) hw
    exact ⟨r, t, hcall⟩
  · obtain ⟨p, hp, -⟩ := hgood.inv.pipes.pipe_of_end hend
    exact ⟨p, hp⟩
  · have hread := hgood.inv.readable_iff trivial hp
    have hwrite := hgood.inv.writable_iff trivial hp
    obtain ⟨hlate, hfrees⟩ := hgood.inv.pipes.freed pi p hp
    refine ⟨hread, hwrite, hlate, ?_, ?_, fun ring =>
      ⟨fun copyout size hsize => ?_, fun copyin size i hi => ?_⟩⟩
    · rw [hfrees]
      split <;> decide
    · rw [hfrees, Bool.exists_bool, ← hread, ← hwrite]
      cases p.readable <;> cases p.writable <;> decide
    · rw [pipeReadLocked_zero copyout hsize, ← hwrite, Bool.not_eq_true]
    · rw [pipeWrite_ePipe copyin hi, ← hread, Bool.not_eq_true]

/-- After a pipe is created and its read end closed, its readers are gone and its writers are
not. -/
theorem pipe_ends_track_close : ∃ s, Run FileStep Files.boot
      [.call proc0 (.pipe2 0 (some 5) true), .call proc0 (.close 0)] s ∧
    s.pipes 5 = some ⟨false, true, 0, 0⟩ ∧ ¬Refers s 5 false ∧ Refers s 5 true := by
  have hactive : ProcState.Active .used := ⟨by decide, by decide⟩
  obtain ⟨s, hrun, hp⟩ : ∃ s, Run FileStep Files.boot
      [.call proc0 (.pipe2 0 (some 5) true), .call proc0 (.close 0)] s ∧
      s.pipes 5 = some ⟨false, true, 0, 0⟩ :=
    ⟨_, .cons (.call hactive rfl) (.cons (.call hactive rfl) (.nil _)), rfl⟩
  obtain ⟨hread, hwrite, -⟩ := (pipe_ends_track s _ hrun (by simp)).2.2 5 _ hp
  exact ⟨s, hrun, hp, fun h => absurd (hread.mpr h) Bool.false_ne_true, hwrite.mp rfl⟩

/-- A read of nothing returns 0 while there are writers, and a write that has moved a byte reports
it when the readers are gone. -/
theorem pipe_returns_count :
    (pipeRead (fun _ => true) 0 ⟨⟨fun _ => 0#8, 0#32, 0#32⟩, true, true⟩).outcome = .returned 0 ∧
      (pipeWrite (fun _ => some 0#8) 2 1 ⟨⟨fun _ => 0#8, 0#32, 0#32⟩, false, true⟩).outcome =
        .returned 1 :=
  ⟨rfl, rfl⟩

end FrostVista.Kernel.Ftable
