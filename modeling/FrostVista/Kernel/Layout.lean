import FrostVista.Kernel.Mmap
import FrostVista.Library.Run

/-!
# The layout of an address space

How `brk`, `mmap`, `munmap`, `fork` and `exec` change the heap bounds and the table of areas of a
process. The break grows from the end of the program towards higher addresses and the search for
free ranges starts at a fixed address; neither looks at the other, so the heap and the mappings stay
apart only in runs that keep them apart.
-/
namespace FrostVista.Kernel

open Lib Kernel.Vma
open BitVec (not_lt lt_of_le_ne le_trans)

/-- `brk`: the value returned and the process afterwards. -/
def brk (p : Process) (addr : Word) : Word × Process :=
  if addr = 0#64 then (p.heapTop, p)
  else if addr < p.heapBottom ∨ p.stackBottom ≤ addr then (p.heapTop, p)
  else (addr, { p with heapTop := addr })

/-- The index of the area `find_overlapping_vma` returns. -/
def overlappingSlot (p : Process) (addr len : Word) : Option (Fin nvma) :=
  if addr ≠ 0#64 then (List.finRange nvma).find? fun i => (p.vmArea i).overlaps addr len else none

/-- `do_munmap`: an error number, or the process with the area removed or cut. -/
def doMunmap (p : Process) (addr len : Word) : Except Int Process :=
  if addr &&& 4095#64 ≠ 0#64 then .error eInval
  else if addr = 0#64 ∨ len = 0#64 then .error eInval
  else
    let len := pgRoundUp len
    let stop := addr + len
    match overlappingSlot p addr len with
    | none => .error eInval
    | some i =>
      let v := p.vmArea i
      if addr < v.vaStart ∨ v.vaEnd < stop then .error eInval
      else if v.vaStart < addr ∧ stop < v.vaEnd then .error eOpNotSupp
      else if addr = v.vaStart ∧ stop = v.vaEnd then
        .ok (Process.setArea p i { v with used := false })
      else if addr = v.vaStart then
        .ok (Process.setArea p i { v with
          fileOffset := if v.file.isSome then v.fileOffset + (stop - v.vaStart) else v.fileOffset
          vaStart := stop })
      else if stop = v.vaEnd then .ok (Process.setArea p i { v with vaEnd := addr })
      else .ok p

/-- The layout fields after an `exec` whose heap starts at `heap`. -/
def execLayout (p : Process) (heap : Word) : Process :=
  let p' := { p with
    heapBottom := heap
    heapTop := heap
    stackBottom := 0x3fffff0000#64
    stackTop := 0x4000000000#64 }
  -- the areas of the old image are released together with its pages
  if 0#64 < p.heapTop ∨ p.stackBottom < p.stackTop then
    { p' with vmArea := fun i => { p.vmArea i with used := false } }
  else p'

/-- A system call that concerns the layout. `mmap` depends on the stack of `proc[0]`, and `exec` on
the image it loads. -/
inductive LayoutAction where
  | brk (addr : Word)
  | mmap (bottom : Word) (a : MmapArgs)
  | munmap (addr len : Word)
  | fork
  | exec (heap : Word)
  | failed

/-- The layout of the process after a call; after `fork` it is that of the parent and of the
child. -/
inductive LayoutStep : Process → LayoutAction → Process → Prop where
  | brk {p : Process} {addr : Word} : LayoutStep p (.brk addr) (brk p addr).2
  | mmap {p q : Process} {bottom start : Word} {a : MmapArgs} :
      doMmap bottom p a = .ok (start, q) → LayoutStep p (.mmap bottom a) q
  | munmap {p q : Process} {addr len : Word} :
      doMunmap p addr len = .ok q → LayoutStep p (.munmap addr len) q
  | fork {p : Process} : LayoutStep p .fork p
  | exec {p : Process} {heap : Word} : LayoutStep p (.exec heap) (execLayout p heap)
  | failed {p : Process} : LayoutStep p .failed p

/-- No address of the heap lies in an area in use. -/
def HeapApart (p : Process) : Prop :=
  ∀ i, (p.vmArea i).used = true → ∀ x, p.heapBottom ≤ x → x < p.heapTop →
    ¬Vma.Contains (p.vmArea i) x

/-- A new break is not above an area that starts above the heap; a new area finds its place outside
the heap. -/
def KeepsApart (p : Process) : LayoutAction → Prop
  | .brk addr => p.heapBottom ≤ addr → addr < p.stackBottom →
      ∀ i, (p.vmArea i).used = true →
        addr ≤ (p.vmArea i).vaStart ∨ (p.vmArea i).vaEnd ≤ p.heapBottom
  | .mmap _ a => ∀ start, FirstFit p (pgRoundUp a.len) start →
      p.heapTop ≤ start ∨ start + pgRoundUp a.len ≤ p.heapBottom
  | _ => True

def CarefulLayoutStep (p : Process) (a : LayoutAction) (q : Process) : Prop :=
  KeepsApart p a ∧ LayoutStep p a q

/-- Area `i` covers no address that it did not cover before. -/
def Vma.Within (v w : Vma) : Prop :=
  v.used = true → w.used = true ∧ ∀ x, Vma.Contains v x → Vma.Contains w x

lemma Vma.Within.refl (v : Vma) : Within v v := fun h => ⟨h, fun _ hx => hx⟩

variable {i : Fin nvma} {p q : Process} {addr len : Word}

lemma within_setArea (h : Within v (p.vmArea i))
    (j : Fin nvma) : Within ((Process.setArea p i v).vmArea j) (p.vmArea j) := by
  by_cases hj : j = i
  · subst hj
    rwa [setArea_self]
  · rw [setArea_of_ne hj]
    exact Within.refl _

lemma overlaps_of_overlappingSlot (h : overlappingSlot p addr len = some i) :
    (p.vmArea i).used = true ∧ addr < (p.vmArea i).vaEnd ∧ (p.vmArea i).vaStart < addr + len := by
  unfold overlappingSlot at h
  split at h
  · simpa [Vma.overlaps] using List.find?_some h
  · cases h

/-- What is left of an area. -/
def Vma.cut (v : Vma) (addr stop : Word) : Vma :=
  if addr = v.vaStart ∧ stop = v.vaEnd then { v with used := false }
  else if addr = v.vaStart then
    { v with
      fileOffset := if v.file.isSome then v.fileOffset + (stop - v.vaStart) else v.fileOffset
      vaStart := stop }
  else { v with vaEnd := addr }

lemma Vma.file_cut (v : Vma) (addr stop : Word) : (cut v addr stop).file = v.file := by
  unfold cut
  split
  · rfl
  · split <;> rfl

lemma doMunmap_cases (h : doMunmap p addr len = .ok q) :
    addr &&& 4095#64 = 0#64 ∧ len ≠ 0#64 ∧ ∃ i, overlappingSlot p addr (pgRoundUp len) = some i ∧
      (p.vmArea i).vaStart ≤ addr ∧ addr + pgRoundUp len ≤ (p.vmArea i).vaEnd ∧
      (addr = (p.vmArea i).vaStart ∨ addr + pgRoundUp len = (p.vmArea i).vaEnd) ∧
      q = Process.setArea p i (cut (p.vmArea i) addr (addr + pgRoundUp len)) := by
  simp only [doMunmap] at h
  split at h
  · cases h
  rename_i ha
  split at h
  · cases h
  rename_i hz
  split at h
  · cases h
  rename_i i hslot
  split at h
  · cases h
  rename_i hin
  split at h
  · cases h
  rename_i hmid
  rw [not_or, not_lt, not_lt] at hin
  have hedge : addr = (p.vmArea i).vaStart ∨ addr + pgRoundUp len = (p.vmArea i).vaEnd := by
    by_contra hne
    rw [not_or] at hne
    exact hmid ⟨lt_of_le_ne hin.1 (Ne.symm hne.1), lt_of_le_ne hin.2 hne.2⟩
  refine ⟨not_not.mp ha, fun hlen => hz (.inr hlen), i, hslot, hin.1, hin.2, hedge, ?_⟩
  unfold cut
  split at h
  · rename_i hboth
    cases h
    rw [if_pos hboth]
  rename_i hboth
  rw [if_neg hboth]
  split at h
  · rename_i hhead
    cases h
    rw [if_pos hhead]
  rename_i hhead
  rw [if_pos (hedge.resolve_left hhead)] at h
  cases h
  rw [if_neg hhead]

lemma doMunmap_eq_ok (h : doMunmap p addr len = .ok q) :
    ∃ i v, q = Process.setArea p i v ∧ Within v (p.vmArea i) := by
  obtain ⟨-, -, i, hslot, -, -, -, rfl⟩ := doMunmap_cases h
  obtain ⟨-, hend, hstart⟩ := overlaps_of_overlappingSlot hslot
  refine ⟨i, _, rfl, ?_⟩
  unfold cut
  split
  · intro hused
    cases hused
  split
  · refine fun hused => ⟨hused, fun x hx => ⟨?_, hx.2⟩⟩
    exact le_trans (BitVec.le_of_lt hstart) hx.1
  · refine fun hused => ⟨hused, fun x hx => ⟨hx.1, ?_⟩⟩
    exact BitVec.lt_trans hx.2 hend

/-! ## Runs -/

lemma HeapApart.within (h : HeapApart p) (hbottom : q.heapBottom = p.heapBottom)
    (htop : q.heapTop = p.heapTop) (hin : ∀ i, Within (q.vmArea i) (p.vmArea i)) : HeapApart q := by
  intro i hused x hx hlt hcontains
  obtain ⟨hused', hsub⟩ := hin i hused
  rw [hbottom] at hx
  rw [htop] at hlt
  exact h i hused' x hx hlt (hsub x hcontains)

lemma HeapApart.brk (h : HeapApart p) (hkeep : KeepsApart p (.brk addr)) :
    HeapApart (brk p addr).2 := by
  unfold FrostVista.Kernel.brk
  split
  · exact h
  split
  · exact h
  · rename_i hrange
    rw [not_or, not_lt, BitVec.not_le] at hrange
    intro i hused x hx hlt ⟨hstart, hend⟩
    obtain habove | hbelow := hkeep hrange.1 hrange.2 i hused
    · exact BitVec.not_lt.mpr (le_trans habove hstart) hlt
    · exact BitVec.not_lt.mpr (le_trans hbelow hx) hend

lemma HeapApart.mmap (h : HeapApart p)
    (hkeep : KeepsApart p (.mmap bottom a)) (hok : doMmap bottom p a = .ok (start, q)) :
    HeapApart q := by
  obtain ⟨file, i, -, -, hfirst, -, rfl⟩ := doMmap_eq_ok.mp hok
  intro j hused x hx hlt hcontains
  by_cases hj : j = i
  · subst hj
    rw [setArea_self] at hcontains
    obtain habove | hbelow := hkeep start hfirst
    · exact BitVec.not_lt.mpr (le_trans habove hcontains.1) hlt
    · exact BitVec.not_lt.mpr (le_trans hbelow hx) hcontains.2
  · rw [setArea_of_ne hj] at hused hcontains
    exact h j hused x hx hlt hcontains

lemma heapApart_of_empty (h : p.heapTop ≤ p.heapBottom) : HeapApart p :=
  fun _ _ _ hx hlt _ => BitVec.not_lt.mpr (le_trans h hx) hlt

lemma CarefulLayoutStep.heapApart (h : HeapApart p)
    (hstep : CarefulLayoutStep p a q) : HeapApart q := by
  obtain ⟨hkeep, hstep⟩ := hstep
  cases hstep with
  | brk => exact h.brk hkeep
  | mmap hok => exact h.mmap hkeep hok
  | munmap hok =>
    obtain ⟨i, v, rfl, hin⟩ := doMunmap_eq_ok hok
    exact h.within rfl rfl (within_setArea hin)
  | fork => exact h
  | exec =>
    refine heapApart_of_empty ?_
    unfold execLayout
    split <;> exact BitVec.le_refl _
  | failed => exact h

/-- From a process with an empty heap on, as `exec` leaves it, the heap and the mappings stay apart
in every run in which no break is moved above a mapping and no mapping is placed over the heap. -/
theorem heapApart_of_careful_run (p q : Process) (acts : List LayoutAction)
    (hstart : p.heapTop = p.heapBottom) (hrun : Run CarefulLayoutStep p acts q) : HeapApart q :=
  hrun.invariant HeapApart (fun _ _ _ h hstep => hstep.heapApart h)
    (heapApart_of_empty (BitVec.le_of_eq hstart))

/-- A process without mappings. -/
def heapProcess (heapTop : Word) : Process :=
  { execedProcess fun _ => Vma.zero with heapTop := heapTop }

lemma doMmap_first (heapTop : Word) :
    doMmap 0x3fffff0000#64 (heapProcess heapTop) (anonymousMmap 0x1000#64) =
      .ok (mmapStart, Process.setArea (heapProcess heapTop) ⟨0, by decide⟩
        (newArea (anonymousMmap 0x1000#64) none mmapStart)) := by
  have hbelow : mmapStart < 0x3fffff0000#64 := by decide
  refine doMmap_eq_ok.mpr ⟨none, _, rfl, ⟨by decide, by decide⟩,
    ⟨?_, hbelow, 0, by decide, by simp [candidate], by simp⟩, rfl, rfl⟩
  simp [clashes, Vma.overlaps, heapProcess, execedProcess, Vma.zero]

/-- After `exec` the break is moved by a page and a page is mapped. -/
theorem heapApart_of_careful_run_brk :
    ∃ q, Run CarefulLayoutStep (heapProcess 0x2000#64)
        [.brk 0x3000#64, .mmap 0x3fffff0000#64 (anonymousMmap 0x1000#64)] q ∧ HeapApart q := by
  have hbrk : CarefulLayoutStep (heapProcess 0x2000#64) (.brk 0x3000#64) (heapProcess 0x3000#64) :=
    ⟨fun _ _ _ hused => absurd hused Bool.false_ne_true, .brk⟩
  have hmmap : CarefulLayoutStep (heapProcess 0x3000#64)
      (.mmap 0x3fffff0000#64 (anonymousMmap 0x1000#64)) _ :=
    ⟨fun _ h => .inl (BitVec.le_trans (by decide) h.above), .mmap (doMmap_first _)⟩
  exact ⟨_, .cons hbrk (.cons hmmap (.nil _)),
    heapApart_of_careful_run _ _ _ rfl (.cons hbrk (.cons hmmap (.nil _)))⟩

/-- The break is moved above `MMAP_START`, and the next mapping is placed in the heap. -/
theorem mmap_in_heap :
    ∃ q, Run LayoutStep (heapProcess 0x2000#64)
        [.brk 0x4001000#64, .mmap 0x3fffff0000#64 (anonymousMmap 0x1000#64)] q ∧ ¬HeapApart q := by
  have hbrk : LayoutStep (heapProcess 0x2000#64) (.brk 0x4001000#64) (heapProcess 0x4001000#64) :=
    .brk
  refine ⟨_, .cons hbrk (.cons (.mmap (doMmap_first _)) (.nil _)), fun h => ?_⟩
  refine h ⟨0, by decide⟩ ?_ mmapStart (by decide) (by decide) ?_
  · rw [setArea_self]
    rfl
  · rw [setArea_self]
    exact ⟨by decide, by decide⟩

end FrostVista.Kernel
