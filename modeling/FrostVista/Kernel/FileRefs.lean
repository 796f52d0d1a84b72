import FrostVista.Kernel.FileTable
import FrostVista.Library.RefCount

/-!
# The references to open files

The reference count of an entry of `ftable` is the number of descriptors and of memory areas that
refer to it, plus the references a running call has taken and not yet stored. Each function of the
kernel has a contract that says how it moves references between the three; an entry with references
has the attributes that the call that created it gives, and an entry without references has none.
-/
namespace FrostVista.Kernel.Ftable

open Lib Lib.Comp Lib.RefCount Function List Files
open File (cleared opened)

/-- Where a reference to an open file can be stored. -/
inductive Place where
  | slot (c : Fin nproc) (fd : Fin nofile)
  | area (c : Fin nproc) (i : Fin nvma)
  deriving DecidableEq

/-- The file of an area in use. -/
def areaFile (v : Vma) : Option Nat := if v.used then v.file else none

def held (proc : Fin nproc → Process) : Place → Option Nat
  | .slot c fd => (proc c).ofile fd
  | .area c i => areaFile ((proc c).vmArea i)

def refs (s : Files) (f : Nat) : Int := (s.ftable f).refCount

/-- No attribute of a file, `append` apart. -/
structure Blank (e : File) : Prop where
  type : e.type = .none
  offset : e.offset = 0#64
  readable : e.readable = false
  writable : e.writable = false
  node : e.node = none
  pipe : e.pipe = none

/-- The attributes are those the creating call gives. That a pipe end does not append is only
required under `b`. -/
inductive Genuine (b : Prop) (e : File) : Prop where
  | vfsNode {n : Nat} (type : e.type = .vfsNode) (node : e.node = some n) (pipe : e.pipe = none)
      (append : e.append = decide (e.flags &&& oAppend ≠ 0#32))
      (readable : e.readable = decide (accMode e.flags ≠ 1#32))
      (writable : e.writable = decide (accMode e.flags ≠ 0#32))
  | pipe {pi : Nat} (type : e.type = .pipe) (node : e.node = none) (pipe : e.pipe = some pi)
      (append : b → e.append = false) (flags : e.flags = 0#32)
      (readable : e.readable = !e.writable) (offset : e.offset = 0#64)

/-- What the runs in question respect: no pipe end appends, no area refers to a file. -/
structure Mode where
  clean : Prop
  bare : Prop

/-- The flag of a pipe for its write end or its read end. -/
def PipeCell.flag (p : PipeCell) (writable : Bool) : Bool :=
  if writable then p.writable else p.readable

def Files.flag (s : Files) (pi : Nat) (writable : Bool) : Bool :=
  (s.pipes pi).any fun p => p.flag writable

/-- The entry is an end of the pipe. -/
def IsEnd (s : Files) (pi : Nat) (writable : Bool) (f : Nat) : Prop :=
  (s.ftable f).pipe = some pi ∧ (s.ftable f).writable = writable

/-- A flag of a pipe is set exactly while an entry is that end, which is then the only one. The pipe
is freed once, with its second end, and not used afterwards. -/
structure PipesOk (s : Files) : Prop where
  single : ∀ pi w f g, IsEnd s pi w f → IsEnd s pi w g → f = g
  flag : ∀ pi w, s.flag pi w = true ↔ ∃ f, IsEnd s pi w f
  freed : ∀ pi p, s.pipes pi = some p → p.late = 0 ∧ p.frees = if p.readable || p.writable then
    0 else 1

/-- The references to the entries. Those in `transit` belong to the running call, and the entries in
`fresh` are allocated but not yet filled in. -/
structure Counted (b : Prop) (transit fresh : List Nat) (s : Files) : Prop where
  balanced : Balanced (held s.proc) (refs s) transit
  idle : ∀ f, refs s f = 0 → Blank (s.ftable f)
  live : ∀ f, f ∉ fresh → 1 ≤ refs s f → Genuine b (s.ftable f)
  blank : ∀ f ∈ fresh, Blank (s.ftable f)

/-- What holds between two operations on the tables. -/
structure Inv (b : Mode) (transit fresh : List Nat) (s : Files) : Prop
    extends Counted b.clean transit fresh s where
  pipes : PipesOk s
  bare : b.bare → ∀ c i, held s.proc (.area c i) = none

/-! ## Changes of the tables -/

section Tables

variable {b : Mode} {transit transit' fresh fresh' : List Nat} {s t : Files} {f pi : Nat} {w : Bool}
  {e : File} {c : Fin nproc} {p q : Process} {fd : Nat} {i : Fin nvma}

@[simp] lemma setFile_proc : (s.setFile f e).proc = s.proc := rfl

@[simp] lemma setFile_pipes : (s.setFile f e).pipes = s.pipes := rfl

@[simp] lemma setProc_ftable : (s.setProc c p).ftable = s.ftable := rfl

@[simp] lemma setFile_self : (s.setFile f e).ftable f = e := update_self ..

variable {g pi' : Nat} {o : Option PipeCell} {v : Vma}

lemma setFile_of_ne (h : g ≠ f) : (s.setFile f e).ftable g = s.ftable g :=
  update_of_ne h ..

@[simp] lemma setProc_self : (s.setProc c p).proc c = p := update_self ..

lemma setProc_of_ne (h : n ≠ c) : (s.setProc c p).proc n = s.proc n :=
  update_of_ne h ..

lemma refs_setFile : refs (s.setFile f e) = update (refs s) f e.refCount := by
  funext g
  by_cases hg : g = f
  · subst hg
    simp [refs]
  · simp [refs, setFile_of_ne hg, hg]

@[simp] lemma flag_setFile : (s.setFile f e).flag pi w = s.flag pi w := rfl

lemma isEnd_setFile : IsEnd (s.setFile f e) pi w g ↔
    if g = f then e.pipe = some pi ∧ e.writable = w else IsEnd s pi w g := by
  by_cases hg : g = f
  · subst hg
    simp [IsEnd]
  · simp [IsEnd, setFile_of_ne hg, hg]

lemma PipesOk.congr (h : PipesOk s) (hends : ∀ pi w f, IsEnd t pi w f ↔ IsEnd s pi w f)
    (hpipes : t.pipes = s.pipes) : PipesOk t := by
  constructor <;> simp only [hends, Files.flag, hpipes]
  exacts [h.single, h.flag, h.freed]

lemma PipesOk.setFile (h : PipesOk s) (hend : ∀ pi w, e.pipe = some pi ∧
    e.writable = w ↔ IsEnd s pi w f) :
    PipesOk (s.setFile f e) := by
  refine h.congr (fun pi w g => ?_) rfl
  rw [isEnd_setFile]
  split
  · subst g
    exact hend pi w
  · rfl

lemma PipeCell.flag_close (p : PipeCell) (w w' : Bool) :
    (p.close w).flag w' = (p.flag w' && (w' != w)) := by
  cases w <;> cases w' <;> simp [PipeCell.close, PipeCell.flag] <;> split <;> simp_all

lemma pipes_setPipe :
    (s.setPipe pi o).pipes pi' = if pi' = pi then o else s.pipes pi' := update_apply ..

lemma flag_setPipe :
    (s.setPipe pi o).flag pi' w = if pi' = pi then o.any fun p => p.flag w else s.flag pi' w := by
  rw [flag, pipes_setPipe]
  split <;> rfl

lemma flag_eq {p : PipeCell} (hp : s.pipes pi = some p) : s.flag pi w = p.flag w := by
  rw [flag, hp, Option.any_some]

lemma PipesOk.pipe_of_end (h : PipesOk s) (hend : IsEnd s pi w f) :
    ∃ p, s.pipes pi = some p ∧ p.flag w = true := by
  have hflag := (h.flag pi w).mpr ⟨f, hend⟩
  cases hp : s.pipes pi with
  | none => simp [Files.flag, hp] at hflag
  | some p => exact ⟨p, rfl, (flag_eq hp).symm.trans hflag⟩

lemma PipesOk.clear (h : PipesOk s) (hend : IsEnd s pi w f) :
    PipesOk ((s.setFile f (cleared (s.ftable f))).setPipe pi ((s.pipes pi).map fun p =>
      p.close w)) := by
  obtain ⟨p, hp, hflag⟩ := h.pipe_of_end hend
  have hends : ∀ pi' w' g, IsEnd (s.setFile f (cleared (s.ftable f))) pi' w' g ↔
      IsEnd s pi' w' g ∧ ¬(pi' = pi ∧ w' = w) := by
    intro pi' w' g
    have := h.single pi w f g hend
    grind [isEnd_setFile, IsEnd, cleared]
  refine ⟨fun pi' w' g g' hg hg' => ?_, fun pi' w' => ?_, fun pi' p' hp' => ?_⟩
  · exact h.single pi' w' g g' ((hends ..).mp hg).1 ((hends ..).mp hg').1
  · refine Iff.trans ?_ (exists_congr fun g => (hends pi' w' g).symm)
    rw [exists_and_right, ← h.flag, flag_setPipe, hp, Option.map_some,
      Option.any_some, PipeCell.flag_close]
    split
    · subst pi'
      simp [flag_eq hp]
    · simp_all [flag]
  · have hfreed := h.freed pi' p'
    rw [pipes_setPipe] at hp'
    split at hp'
    · subst pi'
      obtain rfl : p.close w = p' := by simpa [hp] using hp'
      have := h.freed pi p hp
      cases w <;> grind [PipeCell.close, PipeCell.flag]
    · exact hfreed hp'

lemma PipesOk.create {r v : Nat} {e' : File} (h : PipesOk s) (hpi : s.pipes pi = none) (hne : r ≠ v)
    (hr : (s.ftable r).pipe = none) (hv : (s.ftable v).pipe = none) :
    PipesOk (((s.setPipe pi (some ⟨true, true, 0, 0⟩)).setFile r (e.pipeEnd pi false)).setFile v
      (e'.pipeEnd pi true)) := by
  have hnone : ∀ w g, ¬IsEnd s pi w g := by
    intro w g hg
    obtain ⟨p, hp, -⟩ := h.pipe_of_end hg
    rw [hpi] at hp
    cases hp
  have hends : ∀ pi' w g, IsEnd (((s.setPipe pi (some ⟨true, true, 0, 0⟩)).setFile r
      (e.pipeEnd pi false)).setFile v (e'.pipeEnd pi true)) pi' w g ↔
      IsEnd s pi' w g ∨ pi' = pi ∧ g = if w then v else r := by
    intro pi' w g
    rw [isEnd_setFile, isEnd_setFile]
    cases w <;> grind [IsEnd, File.pipeEnd, setPipe]
  refine ⟨fun pi' w g g' hg hg' => ?_, fun pi' w => ?_, fun pi' p hp => ?_⟩
  · have := h.single pi' w g g'
    grind
  · simp only [hends, exists_or, exists_and_left, exists_eq, and_true, ← h.flag]
    rw [flag_setFile, flag_setFile, flag_setPipe]
    split
    · cases w <;> simp_all [PipeCell.flag]
    · simp_all
  · rw [setFile_pipes, setFile_pipes, pipes_setPipe] at hp
    split at hp
    · cases hp
      exact ⟨rfl, rfl⟩
    · exact h.freed pi' p hp

lemma Counted.setFile {b : Prop} (h : Counted b transit fresh s)
    (hbal : Balanced (held s.proc) (update (refs s) f e.refCount) transit')
    (hfresh : ∀ g, g ≠ f → (g ∈ fresh' ↔ g ∈ fresh)) (hidle : e.refCount = 0 → Blank e)
    (hlive : f ∉ fresh' → 1 ≤ e.refCount → Genuine b e) (hblank : f ∈ fresh' → Blank e) :
    Counted b transit' fresh' (s.setFile f e) := by
  refine ⟨by rwa [refs_setFile], fun g => ?_, fun g => ?_, fun g => ?_⟩ <;>
    by_cases hg : g = f
  · subst hg
    simpa [refs] using hidle
  · simpa [refs, setFile_of_ne hg] using h.idle g
  · subst hg
    simpa [refs] using hlive
  · simpa [refs, setFile_of_ne hg, hfresh g hg] using h.live g
  · subst hg
    simpa using hblank
  · simpa [setFile_of_ne hg, hfresh g hg] using h.blank g

lemma Inv.setFile (h : Inv b transit fresh s)
    (hbal : Balanced (held s.proc) (update (refs s) f e.refCount) transit')
    (hfresh : ∀ g, g ≠ f → (g ∈ fresh' ↔ g ∈ fresh)) (hidle : e.refCount = 0 → Blank e)
    (hlive : f ∉ fresh' → 1 ≤ e.refCount → Genuine b.clean e) (hblank : f ∈ fresh' → Blank e)
    (hend : ∀ pi w, e.pipe = some pi ∧ e.writable = w ↔ IsEnd s pi w f) :
    Inv b transit' fresh' (s.setFile f e) :=
  ⟨h.toCounted.setFile hbal hfresh hidle hlive hblank, h.pipes.setFile hend, h.bare⟩

lemma Counted.congr {b : Prop} (h : Counted b transit fresh s) (hheld : held t.proc = held s.proc)
    (hfiles : t.ftable = s.ftable) : Counted b transit fresh t := by
  have hrefs : refs t = refs s := by
    funext g
    simp [refs, hfiles]
  refine ⟨by rw [hheld, hrefs]; exact h.balanced, ?_, ?_, ?_⟩
  · rw [hrefs, hfiles]
    exact h.idle
  · rw [hrefs, hfiles]
    exact h.live
  · rw [hfiles]
    exact h.blank

lemma Inv.congr (h : Inv b transit fresh s) (hheld : held t.proc = held s.proc)
    (hfiles : t.ftable = s.ftable) (hpipes : t.pipes = s.pipes) : Inv b transit fresh t := by
  refine ⟨h.toCounted.congr hheld hfiles, h.pipes.congr (fun pi w f => ?_) hpipes, ?_⟩
  · rw [IsEnd, IsEnd, hfiles]
  · rw [hheld]
    exact h.bare

lemma Inv.swap (h : Inv b (f :: g :: transit) fresh s) : Inv b (g :: f :: transit) fresh s :=
  ⟨⟨⟨h.balanced.finite, fun p => by
    rw [h.balanced.count p, (List.Perm.swap g f transit).count_eq p]⟩, h.idle, h.live, h.blank⟩,
      h.pipes, h.bare⟩

lemma held_setOfile (hfd : fd < nofile) (o : Option Nat) :
    held (s.setProc c (Process.setOfile (s.proc c) fd o)).proc =
      update (held s.proc) (.slot c ⟨fd, hfd⟩) o := by
  funext x
  cases x with
  | slot n k =>
    by_cases hn : n = c
    · subst hn
      by_cases hk : k = ⟨fd, hfd⟩
      · subst hk
        simp [held, Process.setOfile]
      · have hne : k.val ≠ fd := fun he => hk (Fin.ext he)
        simp [held, Process.setOfile, update_of_ne hne, hk]
    · simp [held, setProc_of_ne hn, hn]
  | area n i =>
    by_cases hn : n = c
    · subst hn
      simp [held, Process.setOfile]
    · simp [held, setProc_of_ne hn]

lemma held_setArea (v : Vma) : held (s.setProc c (Process.setArea (s.proc c) i v)).proc =
      update (held s.proc) (.area c i) (areaFile v) := by
  funext x
  cases x with
  | slot n k =>
    by_cases hn : n = c
    · subst hn
      simp [held, Process.setArea]
    · simp [held, setProc_of_ne hn]
  | area n j =>
    by_cases hn : n = c
    · subst hn
      by_cases hj : j = i
      · subst hj
        simp [held, setArea_self]
      · simp [held, setArea_of_ne hj, hj]
    · simp [held, setProc_of_ne hn, hn]

lemma held_setProc_same (hofile : p.ofile = (s.proc c).ofile)
    (harea : ∀ i, areaFile (p.vmArea i) = areaFile ((s.proc c).vmArea i)) :
    held (s.setProc c p).proc = held s.proc := by
  funext x
  cases x with
  | slot n k | area n j => grind [held, setProc_self, setProc_of_ne]

lemma Inv.put (h : Inv b (f :: transit) fresh s) (hfd : fd < nofile)
    (hnone : (s.proc c).ofile fd = none) :
    Inv b transit fresh (s.setProc c (Process.setOfile (s.proc c) fd (some f))) := by
  have hx : held s.proc (.slot c ⟨fd, hfd⟩) = none := hnone
  refine ⟨⟨?_, h.idle, h.live, h.blank⟩, h.pipes.congr (fun _ _ _ => Iff.rfl) rfl,
    ?_⟩ <;> rw [held_setOfile hfd]
  · exact h.balanced.put hx
  · simpa using h.bare

lemma Inv.take (h : Inv b transit fresh s) (hfd : fd < nofile)
    (hsome : (s.proc c).ofile fd = some f) :
    Inv b (f :: transit) fresh (s.setProc c (Process.setOfile (s.proc c) fd none)) := by
  have hx : held s.proc (.slot c ⟨fd, hfd⟩) = some f := hsome
  refine ⟨⟨?_, h.idle, h.live, h.blank⟩, h.pipes.congr (fun _ _ _ => Iff.rfl) rfl,
    ?_⟩ <;> rw [held_setOfile hfd]
  · exact h.balanced.take hx
  · simpa using h.bare

lemma Inv.putArea (h : Inv b (f :: transit) fresh s) (hbare : ¬b.bare)
    (hnone : areaFile ((s.proc c).vmArea i) = none) (hv : areaFile v = some f) :
    Inv b transit fresh (s.setProc c (Process.setArea (s.proc c) i v)) := by
  have hx : held s.proc (.area c i) = none := hnone
  refine ⟨⟨?_, h.idle, h.live, h.blank⟩, h.pipes.congr (fun _ _ _ => Iff.rfl) rfl, fun hb =>
    absurd hb hbare⟩
  rw [held_setArea, hv]
  exact h.balanced.put hx

lemma Inv.takeArea (h : Inv b transit fresh s)
    (hsome : areaFile ((s.proc c).vmArea i) = some f) (hv : areaFile v = none) :
    Inv b (f :: transit) fresh (s.setProc c (Process.setArea (s.proc c) i v)) := by
  have hx : held s.proc (.area c i) = some f := hsome
  refine ⟨⟨?_, h.idle, h.live, h.blank⟩, h.pipes.congr (fun _ _ _ => Iff.rfl) rfl,
    ?_⟩ <;> rw [held_setArea, hv]
  · exact h.balanced.take hx
  · intro hb n j
    rw [update_apply, h.bare hb, ite_self]

lemma Inv.keepArea (h : Inv b transit fresh s) (hv : areaFile v = areaFile ((s.proc c).vmArea i)) :
    Inv b transit fresh (s.setProc c (Process.setArea (s.proc c) i v)) := by
  refine h.congr ?_ rfl rfl
  rw [held_setArea, hv]
  exact update_eq_self (.area c i) (held s.proc)

end Tables

/-! ## References -/

/-- No process but `c` changes, and `c` keeps its state. -/
structure Frame (c : Fin nproc) (s t : Files) : Prop where
  others : ∀ n, n ≠ c → t.proc n = s.proc n
  state : (t.proc c).state = (s.proc c).state

section Frames

variable {c : Fin nproc} {s t u : Files}

lemma Frame.of_proc (h : t.proc = s.proc) : Frame c s t := ⟨fun _ _ => by rw [h], by rw [h]⟩

lemma Frame.refl (c : Fin nproc) (s : Files) : Frame c s s := .of_proc rfl

lemma Frame.trans (h : Frame c s t) (h' : Frame c t u) : Frame c s u :=
  ⟨fun n hn => (h'.others n hn).trans (h.others n hn), h'.state.trans h.state⟩

variable {p : Process}

lemma Frame.of_update (h : t.proc = update s.proc c p) (hp : p.state = (s.proc c).state) :
    Frame c s t :=
  ⟨fun n hn => by rw [h, update_of_ne hn], by rw [h, update_self, hp]⟩

lemma Frame.of_setProc (h : t.proc = s.proc) (hp : p.state = (s.proc c).state) :
    Frame c s (t.setProc c p) := by
  refine .of_update ?_ hp
  rw [← h]
  rfl

lemma Frame.setOfile (h : t.proc = update s.proc c (Process.setOfile (s.proc c) fd o)) :
    Frame c s t :=
  .of_update h rfl

end Frames

section Contracts

variable {b : Mode} {transit fresh : List Nat} {s : Files} {f : Nat} {c : Fin nproc}

variable {e : File} {n : Int}

lemma genuine_refCount {b : Prop} (h : Genuine b e) : Genuine b { e with refCount := n } := by
  cases h with
  | vfsNode type node pipe append readable writable =>
    exact .vfsNode type node pipe append readable writable
  | pipe type node pipe append flags readable offset =>
    exact .pipe type node pipe append flags readable offset

lemma blank_refCount (h : Blank e) : Blank { e with refCount := n } :=
  ⟨h.type, h.offset, h.readable, h.writable, h.node, h.pipe⟩

lemma blank_cleared (e : File) : Blank (cleared e) := ⟨rfl, rfl, rfl, rfl, rfl, rfl⟩

lemma Inv.setCount (h : Inv b transit fresh s)
    (hbal : Balanced (held s.proc) (update (refs s) f n) transit') (hn : 1 ≤ n)
    (hpos : 1 ≤ refs s f) :
    Inv b transit' fresh (s.setFile f { s.ftable f with refCount := n }) := by
  refine h.setFile hbal (fun _ _ => Iff.rfl) (fun hz => ?_) (fun hf _ => ?_)
    (fun hf => ?_) fun _ _ => Iff.rfl
  · exact absurd (show n = 0 from hz) (by omega)
  · exact genuine_refCount (h.live f hf hpos)
  · exact blank_refCount (h.blank f hf)

/-- The tables after one reference is given back. -/
def Files.released (s : Files) (f : Nat) : Files :=
  if 0 < (s.ftable f).refCount - 1 then
    s.setFile f { s.ftable f with refCount := (s.ftable f).refCount - 1 }
  else (s.setFile f (File.cleared (s.ftable f))).closePipe (s.ftable f)

lemma run_fileclose (hpos : 1 ≤ refs s f) : (fileclose f).run s = .ok ((), s.released f) := by
  have hcount : ¬(s.ftable f).refCount < 1 := Int.not_lt.mpr hpos
  rw [fileclose, run_bind_ok (run_gets _ _), if_neg hcount, released]
  split <;> rfl

@[simp] lemma closePipe_ftable (e : File) : (s.closePipe e).ftable = s.ftable := by
  unfold closePipe
  split <;> rfl

@[simp] lemma closePipe_proc (e : File) : (s.closePipe e).proc = s.proc := by
  unfold closePipe
  split <;> rfl

lemma closePipe_setProc (e : File) (q : Process) :
    (s.setProc c q).closePipe e = (s.closePipe e).setProc c q := by
  unfold closePipe
  split <;> rfl

@[simp] lemma released_proc : (s.released f).proc = s.proc := by
  unfold released
  split <;> simp

lemma Inv.closePipe (h : Inv b transit fresh s) (hpos : 1 ≤ refs s f) :
    PipesOk ((s.setFile f (cleared (s.ftable f))).closePipe (s.ftable f)) := by
  have hnone : (s.ftable f).pipe = none →
      PipesOk ((s.setFile f (cleared (s.ftable f))).closePipe (s.ftable f)) := by
    intro hpipe
    have hsame : (s.setFile f (cleared (s.ftable f))).closePipe (s.ftable f) =
        s.setFile f (cleared (s.ftable f)) := by
      rw [Files.closePipe, hpipe]
      cases (s.ftable f).type <;> rfl
    rw [hsame]
    refine h.pipes.setFile fun pi w => ?_
    simp [IsEnd, cleared, hpipe]
  by_cases hf : f ∈ fresh
  · exact hnone (h.blank f hf).pipe
  · cases h.live f hf hpos with
    | vfsNode _ _ pipe => exact hnone pipe
    | pipe type _ pipe =>
      rw [Files.closePipe, type, pipe]
      exact h.pipes.clear ⟨pipe, rfl⟩

lemma Inv.release (h : Inv b (f :: transit) fresh s) : Inv b transit fresh (s.released f) := by
  have hpos : 1 ≤ (s.ftable f).refCount := h.balanced.pos_of_transit (by simp)
  have hbal := h.balanced.release
  rw [released]
  split
  · exact h.setCount hbal (by omega) hpos
  · have hzero : refs s f - 1 = (cleared (s.ftable f)).refCount := by
      show (s.ftable f).refCount - 1 = 0
      omega
    rw [hzero] at hbal
    have hcleared : Counted b.clean transit fresh (s.setFile f (cleared (s.ftable f))) := by
      refine h.toCounted.setFile hbal (fun _ _ => Iff.rfl) (fun _ => blank_cleared _) ?_ fun _ =>
        blank_cleared _
      intro _ hlt
      exact absurd (show (1 : Int) ≤ 0 from hlt) (by omega)
    exact ⟨hcleared.congr (by simp) (by simp), h.closePipe hpos, by simpa using h.bare⟩

lemma fileclose_total (h : Inv b (f :: transit) fresh s) :
    Total (fileclose f) s fun _ t => Inv b transit fresh t ∧ t.proc = s.proc :=
  ⟨(), _, run_fileclose (h.balanced.pos_of_transit (by simp)), h.release, released_proc⟩

lemma fileclose_total_before (h : Inv b (f :: transit) fresh (s.setProc c q)) :
    Total (fileclose f) s fun _ t => Inv b transit fresh (t.setProc c q) ∧ t.proc = s.proc := by
  refine ⟨(), _, run_fileclose (h.balanced.pos_of_transit (by simp)), ?_, released_proc⟩
  have hsame : (s.setProc c q).released f = (s.released f).setProc c q := by
    rw [released, released, apply_ite fun t : Files => t.setProc c q, ← closePipe_setProc]
    rfl
  exact hsame ▸ h.release

lemma filedup_total (h : Inv b transit fresh s) (hpos : 1 ≤ refs s f) :
    Total (filedup f) s fun _ t => Inv b (f :: transit) fresh t ∧ t.proc = s.proc := by
  have hcount : ¬(s.ftable f).refCount < 1 := Int.not_lt.mpr hpos
  refine .bind_ok (run_gets _ _) ?_
  rw [if_neg hcount]
  exact .modify ⟨h.setCount (h.balanced.acquire f) (Int.le_add_one hpos) hpos, rfl⟩

/-- The entries without references, in the order in which they are allocated. -/
def freeFiles (s : Files) : List Nat :=
  (List.range maxFiles).filter fun f => (s.ftable f).refCount == 0

lemma fdAlloc_eq (s : Files) : fdAlloc s = (freeFiles s).head? := by
  rw [fdAlloc, freeFiles, head?_filter]

lemma refs_of_fdAlloc (h : fdAlloc s = some f) : refs s f = 0 := by
  simpa [refs] using find?_some h

lemma Inv.not_held (h : Inv b transit fresh s) (hzero : refs s f = 0) (x : Place) :
    held s.proc x ≠ some f := by
  intro hx
  have := h.balanced.pos_of_held hx
  omega

lemma filealloc_total (h : Inv b transit fresh s) : Total filealloc s fun o t => match o with
      | none => t = s
      | some f => Inv b (f :: transit) (f :: fresh) t ∧ t.proc = s.proc ∧ refs s f = 0 ∧
          t = s.setFile f { s.ftable f with refCount := 1 } ∧ fdAlloc s = some f := by
  refine .bind_ok (run_get s) ?_
  cases halloc : fdAlloc s with
  | none => exact .pure rfl
  | some f =>
    have hzero := refs_of_fdAlloc halloc
    have hcount : (s.ftable f).refCount + 1 = 1 := by
      have : (s.ftable f).refCount = 0 := hzero
      omega
    have hbal := h.balanced.acquire f
    rw [hzero] at hbal
    simp only [hcount]
    refine .bind_ok (run_modify _ _) (.pure ⟨?_, rfl, hzero, rfl, rfl⟩)
    refine h.setFile hbal (fun g hg => by simp [hg]) (fun hz => by cases hz) ?_
      (fun _ => ?_) fun _ _ => Iff.rfl
    · intro hf
      exact absurd mem_cons_self hf
    · exact blank_refCount (h.idle f hzero)

lemma freeFd_eq_some (h : freeFd p minfd = some fd) :
    minfd ≤ fd ∧ fd < nofile ∧ p.ofile fd = none := by
  have hmem := mem_of_find?_eq_some h
  have hnone := find?_some h
  rw [mem_range'_1] at hmem
  exact ⟨hmem.1, by omega, by simpa using hnone⟩

lemma allocFd_total (h : Inv b (f :: transit) fresh s) :
    Total (allocFd c f) s fun o t => match o with
      | none => t = s
      | some fd => Inv b transit fresh t ∧ fd < nofile ∧ (s.proc c).ofile fd = none ∧
          t = s.setProc c (Process.setOfile (s.proc c) fd (some f)) := by
  refine .bind_ok (run_gets _ _) ?_
  cases hfree : freeFd (s.proc c) 0 with
  | none => exact .pure rfl
  | some fd =>
    obtain ⟨-, hfd, hnone⟩ := freeFd_eq_some hfree
    exact .bind_ok (run_modify _ _) (.pure ⟨h.put hfd hnone, hfd, hnone, rfl⟩)

end Contracts

/-! ## System calls on descriptors -/

/-- Processes that are free or have exited hold nothing. -/
def Quiet (proc : Fin nproc → Process) : Prop :=
  ∀ n, ¬ProcState.Active (proc n).state →
    (∀ fd < nofile, (proc n).ofile fd = none) ∧ ∀ i, ((proc n).vmArea i).used = false

/-- What holds between two system calls. -/
structure Good (b : Mode) (s : Files) : Prop where
  inv : Inv b [] [] s
  quiet : Quiet s.proc

lemma Quiet.frame (h : Quiet s.proc)
    (hc : ProcState.Active (s.proc c).state) (hf : Frame c s t) : Quiet t.proc := by
  intro n hn
  by_cases hnc : n = c
  · subst hnc
    rw [hf.state] at hn
    exact absurd hc hn
  · rw [hf.others n hnc] at hn ⊢
    exact h n hn

section Calls

variable {b : Mode} {s : Files} {c : Fin nproc}

variable {f node : Nat} {fd dirfd e : Int} {fresh transit : List Nat} {path : List Byte} {v : Vfs}
  {flags : BitVec 32}

lemma openFile_eq_some (h : openFile p fd = some f) :
    fd.toNat < nofile ∧ p.ofile fd.toNat = some f := by
  unfold openFile at h
  split at h
  · cases h
  · exact ⟨by omega, h⟩

lemma Inv.pos_of_open {fd : Nat} (h : Inv b transit fresh s)
    (hfd : fd < nofile) (hopen : (s.proc c).ofile fd = some f) : 1 ≤ refs s f :=
  h.balanced.pos_of_held (show held s.proc (.slot c ⟨fd, hfd⟩) = some f from hopen)

lemma resolveOpenPath_error (h : resolveOpenPath v s c dirfd path = .error e) : 0 < e := by
  unfold resolveOpenPath at h
  repeat' split at h
  all_goals cases h
  all_goals decide

lemma findNode_error (h : findNode v start path flags = .error e) : 0 < e := by
  unfold findNode at h
  repeat' split at h
  all_goals cases h
  all_goals decide

lemma prepareNode_error (h : prepareNode v node flags = .error e) : 0 < e := by
  unfold prepareNode at h
  split at h
  · cases h
    decide
  split at h
  · split at h
    · cases h
      decide
    · split at h
      · cases h
        split
        · decide
        · omega
      · cases h
  · cases h

lemma openNode_error {path : Option (List Byte)} (h : openNode v s c dirfd path flags = .error e) :
    0 < e := by
  cases path with
  | none =>
    cases h
    decide
  | some path =>
    simp only [openNode] at h
    split at h
    · cases h
      decide
    split at h
    · cases h
      decide
    cases hres : resolveOpenPath v s c dirfd path with
    | error e' =>
      rw [hres] at h
      cases h
      exact resolveOpenPath_error hres
    | ok r =>
      rw [hres] at h
      dsimp only at h
      cases hfind : findNode v r.1 r.2 flags with
      | error e' =>
        rw [hfind] at h
        cases h
        exact findNode_error hfind
      | ok node =>
        rw [hfind] at h
        exact prepareNode_error h

lemma genuine_opened {b : Prop} {e : File} {n : Nat} (h : Blank e) : Genuine b (opened e n flags) :=
  .vfsNode rfl rfl h.pipe rfl rfl rfl

section
variable (h : Inv b [] [] s)
include h

lemma Inv.open (hzero : refs s f = 0) :
    Inv b [f] [] (s.setFile f (opened (s.ftable f) node flags)) := by
  have hbal := h.balanced.acquire f
  rw [hzero] at hbal
  refine h.setFile hbal (fun _ _ => Iff.rfl) (fun hz => by cases hz)
    (fun _ _ => genuine_opened (h.idle f hzero)) (fun hf => by cases hf) fun pi w => ?_
  simp [IsEnd, opened, (h.idle f hzero).pipe]

lemma openat_total {path : Option (List Byte)} :
    Total (openat v c dirfd path flags) s fun r t => Inv b [] [] t ∧ Frame c s t ∧
      (0 ≤ r → r.toNat < nofile ∧ ∃ f, (t.proc c).ofile r.toNat = some f) := by
  refine .bind_ok (run_get s) ?_
  cases hnode : openNode v s c dirfd path flags with
  | error e =>
    have := openNode_error hnode
    exact .pure ⟨h, .refl c s, fun hr => by omega⟩
  | ok node =>
    cases halloc : fdAlloc s with
    | none => exact .pure ⟨h, .refl c s, fun hr => absurd hr (by decide)⟩
    | some f =>
      have hopen : Inv b [f] [] (s.setFile f (opened (s.ftable f) node flags)) :=
        h.open (refs_of_fdAlloc halloc)
      refine .bind_ok (run_modify _ _) (.bind (allocFd_total hopen) fun o t ht => ?_)
      cases o with
      | none =>
        subst ht
        refine .bind (fileclose_total hopen) fun _ u ⟨hu, hproc⟩ => .pure ⟨hu, ?_, ?_⟩
        · exact .of_proc hproc
        · exact fun hr => absurd hr (by decide)
      | some fd =>
        obtain ⟨ht, hfd, -, rfl⟩ := ht
        refine .pure ⟨ht, .setOfile rfl, fun _ => ⟨hfd, f, ?_⟩⟩
        simp [Process.setOfile]

lemma sysNewfstatat_total {path : Except Int (List Byte)} {st : Word} {stat : Int} :
    Total (sysNewfstatat v c dirfd path st stat) s fun _ t => Inv b [] [] t ∧ Frame c s t := by
  unfold sysNewfstatat
  split
  · exact .pure ⟨h, .refl c s⟩
  cases path with
  | error e => exact .pure ⟨h, .refl c s⟩
  | ok path =>
    refine .bind (openat_total h) fun fd t ⟨ht, hframe, hfd⟩ => ?_
    split
    · exact .pure ⟨ht, hframe⟩
    · rename_i hpos
      obtain ⟨hlt, f, hf⟩ := hfd (Int.not_lt.mp hpos)
      refine .bind_ok (run_gets _ _) (.bind_ok (run_modify _ _) ?_)
      rw [hf]
      refine .bind (fileclose_total (ht.take hlt hf)) fun _ u ⟨hu, hproc⟩ => .pure ⟨hu, ?_⟩
      exact hframe.trans (.setOfile hproc)

lemma dupFrom_total :
    Total (dupFrom c fd minfd) s fun _ t => Inv b [] [] t ∧ Frame c s t := by
  unfold dupFrom
  split
  · exact .pure ⟨h, .refl c s⟩
  refine .bind_ok (run_get s) ?_
  cases hopen : openFile (s.proc c) fd with
  | none => exact .pure ⟨h, .refl c s⟩
  | some f =>
    cases hfree : freeFd (s.proc c) minfd.toNat with
    | none => exact .pure ⟨h, .refl c s⟩
    | some newfd =>
      obtain ⟨hfd, hofile⟩ := openFile_eq_some hopen
      obtain ⟨-, hnew, hnone⟩ := freeFd_eq_some hfree
      have hpos := h.pos_of_open hfd hofile
      have hcount : ¬(s.ftable f).refCount < 1 := Int.not_lt.mpr hpos
      have hdup := h.setCount (h.balanced.acquire f) (Int.le_add_one hpos) hpos
      simp only [if_neg hcount]
      refine .bind_ok (run_modify _ _) (.bind_ok (run_modify _ _) (.pure ⟨?_, .setOfile rfl⟩))
      exact hdup.put hnew hnone

lemma sysFcntl_total :
    Total (sysFcntl c fd cmd arg) s fun _ t => Inv b [] [] t ∧ Frame c s t := by
  refine .bind_ok (run_get s) ?_
  cases openFile (s.proc c) fd with
  | none => exact .pure ⟨h, .refl c s⟩
  | some f =>
    cases cmd with
    | dupFd =>
      by_cases harg : arg < 0 ∨ (nofile : Int) ≤ arg
      · simp only [if_pos harg]
        exact .pure ⟨h, .refl c s⟩
      · simp only [if_neg harg]
        exact dupFrom_total h
    | getFd | setFd | getFl | setFl | other => exact .pure ⟨h, .refl c s⟩

end

lemma setOfile_setOfile (p : Process) (fd : Nat) (o o' : Option Nat) :
    Process.setOfile (Process.setOfile p fd o) fd o' = Process.setOfile p fd o' := by
  simp [Process.setOfile]

lemma setProc_setProc (s : Files) (c : Fin nproc) (p q : Process) :
    (s.setProc c p).setProc c q = s.setProc c q := by
  simp [Files.setProc]

lemma Inv.replace {fd g : Nat} (h : Inv b (f :: transit) fresh s)
    (hfd : fd < nofile) (hsome : (s.proc c).ofile fd = some g) :
    Inv b (g :: transit) fresh (s.setProc c (Process.setOfile (s.proc c) fd (some f))) := by
  have hput := (h.take hfd hsome).swap.put (c := c) hfd (by simp [Process.setOfile])
  rwa [setProc_self, setOfile_setOfile, setProc_setProc] at hput

lemma sysDup3_total {oldfd newfd flags : Int} (h : Inv b [] [] s) :
    Total (sysDup3 c oldfd newfd flags) s fun _ t => Inv b [] [] t ∧ Frame c s t := by
  refine .bind_ok (run_get s) ?_
  cases hopen : openFile (s.proc c) oldfd with
  | none => exact .pure ⟨h, .refl c s⟩
  | some f =>
    obtain ⟨hold, hofile⟩ := openFile_eq_some hopen
    have hpos := h.pos_of_open hold hofile
    have hdup := h.setCount (h.balanced.acquire f) (Int.le_add_one hpos) hpos
    dsimp only
    split
    · exact .pure ⟨h, .refl c s⟩
    rename_i hrange
    have hnew : newfd.toNat < nofile := by omega
    split
    · exact .pure ⟨h, .refl c s⟩
    split
    · exact .pure ⟨h, .refl c s⟩
    split
    · exact .pure ⟨h, .refl c s⟩
    refine .bind_ok (run_modify _ _) (.bind_ok (run_modify _ _) ?_)
    cases hfile : (s.proc c).ofile newfd.toNat with
    | none => exact .pure ⟨hdup.put hnew hfile, .setOfile rfl⟩
    | some g =>
      refine .bind (fileclose_total (hdup.replace hnew hfile)) fun _ u ⟨hu, hproc⟩ => .pure ⟨hu, ?_⟩
      exact .setOfile hproc

lemma sysClose_total (h : Inv b [] [] s) :
    Total (sysClose c fd) s fun _ t => Inv b [] [] t ∧ Frame c s t := by
  refine .bind_ok (run_gets _ _) ?_
  cases hopen : openFile (s.proc c) fd with
  | none => exact .pure ⟨h, .refl c s⟩
  | some f =>
    obtain ⟨hfd, hofile⟩ := openFile_eq_some hopen
    refine .bind_ok (run_modify _ _) ?_
    refine .bind (fileclose_total (h.take hfd hofile)) fun _ u ⟨hu, hproc⟩ => .pure ⟨hu, ?_⟩
    exact .setOfile hproc

end Calls

/-! ## Pipes -/

/-- The two entries that the next pipe gets do not append. -/
def CleanPair (s : Files) : Prop := ∀ f ∈ (freeFiles s).take 2, (s.ftable f).append = false

section Pipes

variable {b : Mode} {transit fresh : List Nat} {s : Files} {c : Fin nproc}

lemma freeFiles_eq_cons (h : fdAlloc s = some f) :
    freeFiles s = f :: freeFiles (s.setFile f { s.ftable f with refCount := 1 }) := by
  have hnodup : (freeFiles s).Nodup := nodup_range.filter _
  have hrest : freeFiles (s.setFile f { s.ftable f with refCount := 1 }) =
      (freeFiles s).filter fun g => g ≠ f := by
    rw [freeFiles, freeFiles, filter_filter]
    refine filter_congr fun g _ => ?_
    by_cases hg : g = f
    · subst hg
      simp
    · simp [setFile_of_ne hg, hg]
  rw [fdAlloc_eq] at h
  obtain ⟨l, hl⟩ : ∃ l, freeFiles s = f :: l := head?_eq_some_iff.mp h
  rw [hl, nodup_cons] at hnodup
  rw [hrest, hl, filter_cons_of_neg (by simp)]
  refine congrArg (f :: ·) (filter_eq_self.mpr fun g hg => ?_).symm
  simp only [decide_eq_true_eq]
  rintro rfl
  exact hnodup.1 hg

lemma genuine_pipeEnd {b : Prop} {pi : Nat} (h : Blank e)
    (happend : b → e.append = false) : Genuine b (e.pipeEnd pi writable) :=
  .pipe rfl h.node rfl happend rfl rfl h.offset

lemma Counted.fill {b : Prop} (f pi : Nat) (writable : Bool) {fresh' : List Nat}
    (h : Counted b transit fresh s)
    (hf : f ∈ fresh) (hfresh : ∀ g, g ≠ f → (g ∈ fresh' ↔ g ∈ fresh)) (hnot : f ∉ fresh')
    (hpos : f ∈ transit) (happend : b → (s.ftable f).append = false) :
    Counted b transit fresh' (s.setFile f ((s.ftable f).pipeEnd pi writable)) := by
  have hcount : 1 ≤ (s.ftable f).refCount := h.balanced.pos_of_transit hpos
  refine h.setFile ?_ hfresh (fun hz => ?_)
    (fun _ _ => genuine_pipeEnd (h.blank f hf) happend) fun hf' => absurd hf' hnot
  · have hsame : update (refs s) f (refs s f) = refs s := update_eq_self ..
    exact (congrArg (fun cnt => Balanced (held s.proc) cnt transit) hsame).mpr h.balanced
  · exact absurd (show (s.ftable f).refCount = 0 from hz) (by omega)

lemma Inv.settle (h : Inv b [] fresh s) (hun : ∀ f ∈ fresh, ∀ x, held s.proc x ≠ some f) :
    Inv b [] [] s := by
  refine ⟨⟨h.balanced, h.idle, fun f _ hpos => ?_, fun f hf => by cases hf⟩, h.pipes, h.bare⟩
  by_cases hf : f ∈ fresh
  · have hempty : holders (held s.proc) f = ∅ :=
      Set.eq_empty_of_forall_notMem fun x hx => hun f hf x hx
    have := h.balanced.count f
    rw [hempty] at this
    simp at this
    omega
  · exact h.live f hf hpos

variable {r w fd : Nat} {mem o : Option Nat} {p : Process}

lemma closeBoth_total {α : Type} (h : Inv b [r, w] fresh s) (ret : α) :
    Total (do fileclose r; fileclose w; pure ret : F α) s fun a t =>
      a = ret ∧ Inv b [] fresh t ∧ t.proc = s.proc := by
  refine .bind (fileclose_total h) fun _ t ⟨ht, hproc⟩ => ?_
  refine .bind (fileclose_total ht) fun _ u ⟨hu, hproc'⟩ => .pure ⟨rfl, hu, hproc'.trans hproc⟩

/-- What the two allocations of `pipe_alloc` leave. -/
lemma filealloc_twice {t u : Files} (hr : fdAlloc s = some r)
    (ht : t = s.setFile r { s.ftable r with refCount := 1 }) (hw : fdAlloc t = some w)
    (hu : u = t.setFile w { t.ftable w with refCount := 1 }) :
    r ≠ w ∧ (freeFiles s).take 2 = [r, w] ∧ (u.ftable r).append = (s.ftable r).append ∧
      (u.ftable w).append = (s.ftable w).append := by
  have hne : r ≠ w := by
    rintro rfl
    have hzero := refs_of_fdAlloc hw
    rw [refs, ht, setFile_self] at hzero
    cases hzero
  have hfree := freeFiles_eq_cons hr
  rw [← ht, freeFiles_eq_cons hw] at hfree
  refine ⟨hne, by rw [hfree]; rfl, ?_, ?_⟩
  · rw [hu, setFile_of_ne hne, ht, setFile_self]
  · rw [hu, setFile_self, ht, setFile_of_ne hne.symm]

/-- In `t` the two entries that were free first in `s` are the ends of a pipe. -/
def PipeMade (s t : Files) : Prop :=
  (freeFiles s).take 2 ≠ [] ∧ ∀ f ∈ (freeFiles s).take 2,
    1 ≤ refs t f ∧ (t.ftable f).type = .pipe ∧ (t.ftable f).append = (s.ftable f).append

lemma pipeAlloc_total (h : Inv b [] [] s) (hclean : b.clean → CleanPair s) :
    Total (pipeAlloc mem) s fun o t => t.proc = s.proc ∧ match o with
      | .error e => 0 < e ∧ Inv b [] [] t
      | .ok (r, w) => Inv b [r, w] [] t ∧ PipeMade s t := by
  refine .bind (filealloc_total h) fun o t ht => ?_
  cases o with
  | none =>
    -- without a first entry there is no second one
    subst ht
    refine .bind (filealloc_total h) fun o u hu => ?_
    cases o with
    | none =>
      subst hu
      exact .bind_ok (run_gets _ _)
        (.bind_ok (run_pure _ _) (.bind_ok (run_pure _ _) (.pure ⟨rfl, by decide, h⟩)))
    | some w =>
      obtain ⟨hu, hproc, hzero, -, -⟩ := hu
      refine .bind_ok (run_gets _ _) (.bind_ok (run_pure _ _) ?_)
      refine .bind (fileclose_total hu) fun _ v ⟨hv, hproc'⟩ => .pure ?_
      have hheld := hproc'.trans hproc
      refine ⟨hheld, by decide, hv.settle fun f hf x => ?_⟩
      rw [hheld, mem_singleton.mp hf]
      exact h.not_held hzero x
  | some r =>
    obtain ⟨ht, hproc, hzero, hteq, hralloc⟩ := ht
    refine .bind (filealloc_total ht) fun o u hu => ?_
    cases o with
    | none =>
      subst hu
      refine .bind_ok (run_gets _ _) ?_
      refine .bind (fileclose_total ht) fun _ v ⟨hv, hproc'⟩ => .bind_ok (run_pure _ _) (.pure ?_)
      have hheld := hproc'.trans hproc
      refine ⟨hheld, by decide, hv.settle fun f hf x => ?_⟩
      rw [hheld, mem_singleton.mp hf]
      exact h.not_held hzero x
    | some w =>
      obtain ⟨hu, hproc', hzero', hueq, hwalloc⟩ := hu
      obtain ⟨hne, htake, happr, happw⟩ := filealloc_twice hralloc hteq hwalloc hueq
      have hheld := hproc'.trans hproc
      refine .bind_ok (run_gets _ _) ?_
      cases hmem : mem.filter fun pi => (u.pipes pi).isNone with
      | none =>
        refine (closeBoth_total hu.swap _).mono fun _ v ⟨ha, hv, hproc''⟩ =>
          ⟨hproc''.trans hheld, ?_⟩
        subst ha
        refine ⟨by decide, hv.settle fun f hf x => ?_⟩
        rw [hproc''.trans hheld]
        rcases mem_pair.mp hf with rfl | rfl
        · have := ht.not_held hzero' x
          rwa [hproc] at this
        · exact h.not_held hzero x
      | some pi =>
        have hcleanr : b.clean → (u.ftable r).append = false := fun hb =>
          happr.trans (hclean hb r (by simp [htake]))
        have hcleanw : b.clean → (u.ftable w).append = false := fun hb =>
          happw.trans (hclean hb w (by simp [htake]))
        have hpi : u.pipes pi = none := by simpa using (Option.filter_eq_some_iff.mp hmem).2
        have hpipe : Counted b.clean [r, w] [w, r] (u.setPipe pi (some ⟨true, true, 0, 0⟩)) :=
          hu.swap.toCounted.congr rfl rfl
        have hfillr : Counted b.clean [r, w] [w] _ := hpipe.fill r pi false (by simp) (by simp_all)
          (by simpa using hne) (by simp) hcleanr
        have hfillw : Counted b.clean [r, w] [] _ :=
          hfillr.fill w pi true (by simp) (by simp_all) (by simp)
          (by simp) (by rwa [setFile_of_ne hne.symm])
        have hr := (hu.blank r (by simp)).pipe
        have hw := (hu.blank w (by simp)).pipe
        refine .bind_ok (run_modify _ _)
          (.bind_ok (run_modify _ _) (.bind_ok (run_modify _ _) (.pure ?_)))
        refine ⟨hheld, ⟨hfillw, hu.pipes.create hpi hne hr hw, hu.bare⟩, ?_⟩
        have hposr := hfillw.balanced.pos_of_transit (p := r) (by simp)
        have hposw := hfillw.balanced.pos_of_transit (p := w) (by simp)
        refine ⟨by simp [htake], fun f hf => ?_⟩
        rw [htake] at hf
        rcases mem_pair.mp hf with rfl | rfl
        · refine ⟨hposr, ?_⟩
          rw [setFile_of_ne hne, setFile_self]
          exact ⟨rfl, happr⟩
        · refine ⟨hposw, ?_⟩
          rw [setFile_self, setFile_of_ne hne.symm]
          exact ⟨rfl, happw⟩

lemma setOfile_ofile_of_ne (h : fd' ≠ fd) :
    (Process.setOfile p fd o).ofile fd' = p.ofile fd' := update_of_ne h ..

lemma setOfile_ofile_self : (Process.setOfile p fd o).ofile fd = o := update_self ..

lemma sysPipe2_total (h : Inv b [] [] s) (hclean : b.clean → CleanPair s) :
    Total (sysPipe2 c flags mem copied) s fun ret t => Inv b [] [] t ∧ Frame c s t ∧
      (ret = 0 → PipeMade s t) := by
  unfold sysPipe2
  split
  · exact .pure ⟨h, .refl c s, fun hz => by cases hz⟩
  refine .bind (pipeAlloc_total h hclean) fun o t ⟨hproc, ht⟩ => ?_
  have hframe : Frame c s t := .of_proc hproc
  cases o with
  | error e =>
    obtain ⟨hpos, ht⟩ := ht
    exact .pure ⟨ht, hframe, fun hz => by omega⟩
  | ok rw =>
    obtain ⟨r, w⟩ := rw
    obtain ⟨ht, hmade⟩ := ht
    refine .bind (allocFd_total ht) fun o t1 h1 => ?_
    cases o with
    | none =>
      subst h1
      refine .bind_ok (run_pure _ _) (.bind_ok (run_pure _ _) ?_)
      refine (closeBoth_total ht _).mono fun _ u ⟨hret, hu, hproc'⟩ => ?_
      exact ⟨hu, hframe.trans (.of_proc hproc'), fun hz => by cases hret.symm.trans hz⟩
    | some fd0 =>
      obtain ⟨h1, hfd0, -, heq1⟩ := h1
      have hframe1 : Frame c s t1 := hframe.trans (.setOfile (by rw [heq1]; rfl))
      have hopen0 : (t1.proc c).ofile fd0 = some r := by
        rw [heq1, setProc_self, setOfile_ofile_self]
      refine .bind (allocFd_total h1) fun o t2 h2 => ?_
      cases o with
      | none =>
        subst h2
        refine .bind_ok (run_modify _ _) (.bind_ok (run_pure _ _) ?_)
        refine (closeBoth_total (h1.take hfd0 hopen0) _).mono fun _ u ⟨hret, hu, hproc'⟩ => ?_
        exact ⟨hu, hframe1.trans (.setOfile hproc'), fun hz => by cases hret.symm.trans hz⟩
      | some fd1 =>
        obtain ⟨h2, hfd1, hnone, heq2⟩ := h2
        have hframe2 : Frame c s t2 := hframe1.trans (.setOfile (by rw [heq2]; rfl))
        by_cases hcopied : copied = true
        · simp only [if_pos hcopied]
          refine .pure ⟨h2, hframe2, fun _ => ?_⟩
          rw [heq2, heq1]
          exact hmade
        · simp only [if_neg hcopied]
          have hne : fd0 ≠ fd1 := by
            rintro rfl
            rw [hnone] at hopen0
            cases hopen0
          have hopen0' : (t2.proc c).ofile fd0 = some r := by
            rw [heq2, setProc_self, setOfile_ofile_of_ne hne, hopen0]
          have hopen1 : (t2.proc c).ofile fd1 = some w := by
            rw [heq2, setProc_self, setOfile_ofile_self]
          have htake := h2.take hfd0 hopen0'
          have hopen1' : ((t2.setProc c (Process.setOfile (t2.proc c) fd0 none)).proc c).ofile fd1 =
              some w := by
            rw [setProc_self, setOfile_ofile_of_ne hne.symm, hopen1]
          have htake' := htake.take hfd1 hopen1'
          refine .bind_ok (run_modify _ _) (.bind_ok (run_modify _ _) ?_)
          refine (closeBoth_total htake'.swap _).mono fun _ u ⟨hret, hu, hproc'⟩ => ?_
          refine ⟨hu, hframe2.trans (Frame.trans (.setOfile rfl) (.setOfile hproc')), fun hz => ?_⟩
          cases hret.symm.trans hz

end Pipes

end FrostVista.Kernel.Ftable
