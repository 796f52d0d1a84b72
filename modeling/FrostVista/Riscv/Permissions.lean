import FrostVista.Riscv.System

/-!
# Write permission along runs

A mapping is created with or without write permission. This module follows that decision along the
runs of the system and compares it with the entries: an entry that is writable, or that
`handle_cow_fault` will make writable, should belong to a mapping created writable. `uvmcopy` marks
every page copy-on-write, so the comparison holds as long as only writable pages are forked.
-/
namespace FrostVista.Riscv

open Lib Lib.Comp Lib.Radix Lib.RefCount BitVec

/-- Which mappings were created with write permission. -/
abbrev Grants := Word → Nat → Bool

/-- The write permission an operation asks for where it creates a mapping. The child of a fork
inherits the permission of its parent. -/
def Op.grants (g : Grants) : Op → Grants
  | .uvmalloc _ _ _ perm, _, _ => has perm permWrite
  | .pageFault _ _ _, _, _ => true
  | .anonymousFault _ vma _, _, _ => has vma.vmPageProt permWrite
  | .fileFault _ _ vma _ _, _, _ => has vma.vmPageProt permWrite
  | .fork old _, _, v => g old v
  | .copyout _ p _ _, _, v =>
    let va := BitVec.ofNat 64 (4096 * v)
    isLazy p va || (findOverlappingVma p va 4096#64).any fun vma => has vma.vmPageProt permWrite
  | .storeFault _ _, _, _ => false
  | .store _ _ _, _, _ => false
  | .kvmunmap _ _ _, _, _ => false
  | .uvmunmap _ _ _, _, _ => false

/-- The permissions after a call: a mapping that exists keeps what it was created with. -/
def Op.granted (op : Op) (m : Machine) (g : Grants) : Grants := fun r v =>
  if leafAt riscv m r v = none then op.grants g r v else g r v

/-- Writable now, or as soon as copy-on-write is resolved. -/
def mayWrite (e : Word) : Bool := has e pteW || has e pteCow

/-- Only mappings created with write permission may be written. -/
def Respects (roots : Set Word) (g : Grants) (m : Machine) : Prop :=
  ∀ r ∈ roots, ∀ v < userPages, ∀ e, leafAt riscv m r v = some e → mayWrite e = true →
    g r v = true

variable {roots kept : Set Word} {m m' m₁ : Machine} {r va dst : Word} {v : Nat} {g : Grants}
  {p : Process} {src : List Byte} {ret : Ret}

lemma mayWrite_eq (e : Word) : mayWrite e = (bit e 2 || bit e 8) := by
  simp [mayWrite]

lemma mayWrite_cowPte (e : Word) : mayWrite (cowPte e) = true := by
  simp [mayWrite_eq, bit_cowPte]

variable {e new old : Word} {op : Op} {a : Action} {s t : System} {x y : System × Grants}

lemma mayWrite_restoredPte (h : mayWrite (restoredPte e) = true) : mayWrite e = true := by
  rw [mayWrite_eq] at h ⊢
  unfold restoredPte at h
  split at h <;> simp_all [bit_cowPte, bit_not]

lemma mayWrite_leafPte (pa perm : Word) :
    mayWrite (leafPte pa (pteFromPerm perm)) = has perm permWrite := by
  rw [mayWrite_eq, bit_leafPte (by decide) (by decide), bit_leafPte (by decide) (by decide),
    bit_pteFromPerm, bit_pteFromPerm]
  simp

/-! ## One change at a time -/

namespace Respects

lemma stable (h : Respects roots g m) (s : Stable riscv roots kept m m') : Respects roots g m' := by
  intro r hr v hv e hl
  rw [s.leaf r hr v hv] at hl
  exact h r hr v hv e hl

variable {e new old : Word}

section
variable (h : Respects roots g m)
include h

lemma replace (hleaf : ∀ r' ∈ roots, ∀ v' < userPages,
    leafAt riscv m' r' v' = if r' = r ∧ v' = v then some e else leafAt riscv m r' v')
    (he : mayWrite e = true → g r v = true) : Respects roots g m' := by
  intro r' hr' v' hv' e' hl hw
  rw [hleaf r' hr' v' hv'] at hl
  split at hl
  · rename_i hc
    obtain ⟨rfl, rfl⟩ := hc
    cases hl
    exact he hw
  · exact h r' hr' v' hv' e' hl hw

lemma unmaps (u : Unmaps roots kept m m' r v n) :
    Respects roots g m' := by
  intro r' hr' v' hv' e' hl hw
  rw [u.leaf r' hr' v' hv'] at hl
  split at hl
  · exact h r' hr' v' hv' e' (unmapped_eq_some hl) hw
  · exact h r' hr' v' hv' e' hl hw

lemma resolved (hr : r ∈ roots) (hv : v < userPages)
    (hl : leafAt riscv m r v = some e) (c : CowResolved roots kept m m' r v e) :
    Respects roots g m' := by
  rcases c with ⟨-, rfl⟩ | ⟨hb, q, hc⟩
  · exact h
  · exact h.replace hc.leaf fun _ => h r hr v hv e hl (by simp [mayWrite_eq, hb])

lemma congr (hw : ∀ x, IsTable riscv roots m x → m'.word x = m.word x) :
    Respects roots g m' := by
  intro r hr v hv e hl
  rw [leafAt_congr hw hr hv] at hl
  exact h r hr v hv e hl

lemma copying (c : Copying roots kept m m' old new k)
    (hold : ∀ v < userPages, leafAt riscv m old v ≠ none →
      g old v = true ∧ (leafAt riscv m new v = none → g new v = true)) : Respects roots g m' := by
  intro r hr v hv e' hl hw
  by_cases ho : r = old
  · subst ho
    rw [c.parent v hv] at hl
    split at hl
    · obtain ⟨e, he, -⟩ := Option.map_eq_some_iff.mp hl
      exact (hold v hv (by simp [he])).1
    · exact h r hr v hv e' hl hw
  by_cases hn : r = new
  · subst hn
    rw [c.child v hv] at hl
    split at hl
    · rename_i hlt
      cases hm : leafAt riscv m old v with
      | none =>
        rw [hm] at hl
        exact h r hr v hv e' (by simpa using hl) hw
      | some e =>
        have hne : leafAt riscv m old v ≠ none := by simp [hm]
        exact (hold v hv hne).2 (c.fresh v hv hlt hne)
    · exact h r hr v hv e' hl hw
  · rw [c.rest r hr ho hn v hv] at hl
    exact h r hr v hv e' hl hw

lemma copyFailed (ho : old ∈ roots) (c : CopyFailed roots kept m m' old new)
    (hold : ∀ v < userPages, leafAt riscv m old v ≠ none →
      g old v = true ∧ (leafAt riscv m new v = none → g new v = true)) : Respects roots g m' := by
  obtain ⟨t, k, e, hk, hc, hl, -, hres⟩ := c
  exact (h.copying hc hold).replace hres.leaf fun hw =>
    h old ho k hk e hl (mayWrite_restoredPte hw)

end

end Respects

lemma Respects.granted (h : Respects roots g m) (op : Op) : Respects roots (op.granted m g) m := by
  intro r hr v hv e hl hw
  simp only [Op.granted, hl, reduceCtorEq, if_false]
  exact h r hr v hv e hl hw

lemma granted_of_none (h : leafAt riscv m r v = none) : op.granted m g r v = op.grants g r v := by
  simp [Op.granted, h]

lemma granted_of_some (h : leafAt riscv m r v ≠ none) : op.granted m g r v = g r v := by
  simp [Op.granted, h]

lemma respects_fault (h : Respects roots g m) (hp : FaultEnsured roots kept m r v perm c ret m')
    (hg : ∀ q, mayWrite (leafPte (va2pa q) perm) = true → op.grants g r v = true) :
    Respects roots (op.granted m g) m' := by
  have hm := h.granted op
  cases ret with
  | ok _ =>
    obtain ⟨hl, q, hf⟩ := hp
    refine hm.replace hf.leaf fun hw => ?_
    rw [granted_of_none hl]
    exact hg q hw
  | error e => exact hm.stable hp

/-! ## Copies to user memory -/

/-- The pages of the table that may be mapped on demand during a call have the right to it. -/
def Covers (p : Process) (g : Grants) (m : Machine) : Prop :=
  ∀ v < userPages, leafAt riscv m p.pagetable v = none →
    (isLazy p (BitVec.ofNat 64 (4096 * v)) ||
      (findOverlappingVma p (BitVec.ofNat 64 (4096 * v)) 4096#64).any
        fun vma => has vma.vmPageProt permWrite) = true → g p.pagetable v = true

lemma ofNat_pageNo (ha : va.toNat % 4096 = 0) : BitVec.ofNat 64 (4096 * pageNo va) = va := by
  refine eq_of_toNat_eq ?_
  rw [toNat_ofNat, pageNo]
  omega

/-- The mappings of `p` in `m'` include those in `m`. -/
def MoreMapped (p : Process) (m m' : Machine) : Prop :=
  ∀ v < userPages, leafAt riscv m' p.pagetable v = none → leafAt riscv m p.pagetable v = none

lemma Covers.mono (h : Covers p g m) (hm : MoreMapped p m m') : Covers p g m' :=
  fun v hv hl => h v hv (hm v hv hl)

lemma moreMapped_replace (hr : p.pagetable ∈ roots) (hleaf : ∀ r' ∈ roots, ∀ v' < userPages,
      leafAt riscv m' r' v' = if r' = r ∧ v' = v then some e else leafAt riscv m r' v') :
    MoreMapped p m m' := by
  intro v' hv' hl
  rw [hleaf _ hr v' hv'] at hl
  split at hl
  · cases hl
  · exact hl

section
variable (h : Respects roots g m) (hc : Covers p g m) (hr : p.pagetable ∈ roots)
  (ha : va.toNat % 4096 = 0) (hv : pageNo va < userPages)
include h hc hr ha hv

lemma respects_faultedIn (f : FaultedIn roots kept m m' p p.pagetable va) :
    Respects roots g m' ∧ Covers p g m' := by
  rcases f with ⟨-, rfl⟩ | ⟨hl, q, perm, c, hd, hf⟩
  · exact ⟨h, hc⟩
  refine ⟨h.replace hf.leaf fun hw => hc _ hv hl ?_, hc.mono (moreMapped_replace hr hf.leaf)⟩
  rw [ofNat_pageNo ha]
  rcases hd with ⟨hz, -⟩ | ⟨-, vma, hvma, rfl, -⟩
  · simp [hz]
  · rw [mayWrite_leafPte] at hw
    simp [hvma, hw]

lemma respects_prepared (hp : Prepared roots kept m m' p p.pagetable va) :
    Respects roots g m' ∧ Covers p g m' := by
  obtain ⟨m₁, e, hf, hl, hcow⟩ := hp
  obtain ⟨h1, hc1⟩ := respects_faultedIn h hc hr ha hv hf
  refine ⟨h1.resolved hr hv hl hcow, ?_⟩
  rcases hcow with ⟨-, rfl⟩ | ⟨-, q, hres⟩
  · exact hc1
  · exact hc1.mono (moreMapped_replace hr hres.leaf)

end

lemma respects_copyoutRun (hi : Inv riscv roots kept m) (h : Respects roots g m)
    (hc : Covers p g m) (hr : p.pagetable ∈ roots) (hd : dst.toNat + src.length ≤ 2 ^ 38)
    (hrun : CopyoutRun roots kept p p.pagetable m dst src ret m') : Respects roots g m' := by
  induction hrun with
  | done => exact h
  | @stop m m' dst src e hs hpost =>
    have hlen : 0 < src.length := List.length_pos_iff.mpr hs
    have hv : pageNo (pgRoundDown dst) < userPages := by
      rw [pageNo_pgRoundDown]
      exact pageNo_lt_userPages (by omega)
    rcases hpost with ⟨-, hst⟩ | ⟨-, hf⟩ | ⟨hprep, -⟩
    · exact h.stable hst
    · exact (respects_faultedIn h hc hr (pgRoundDown_aligned dst) hv hf).1
    · exact (respects_prepared h hc hr (pgRoundDown_aligned dst) hv hprep).1
  | @round m m₁ m' dst src ret hs hpost hrest ih =>
    have hlen : 0 < src.length := List.length_pos_iff.mpr hs
    have hv : pageNo dst < userPages := pageNo_lt_userPages (by omega)
    have hi' := hpost.inv hi hr hv
    obtain ⟨m2, e, hprep, hl, -, -, rfl⟩ := hpost
    obtain ⟨h2, hc2⟩ := respects_prepared h hc hr (pgRoundDown_aligned dst)
      (by rwa [pageNo_pgRoundDown]) hprep
    have hword := word_writeBytes (hprep.inv hi) hr hv hl (dst - pgRoundDown dst).toNat
      (src.take (chunk dst src.length))
    have hpos := chunk_pos dst hlen
    have hle := chunk_le dst src.length
    refine ih hi' (h2.congr hword) (hc2.mono fun v' hv' hl' => ?_) ?_
    · rwa [leafAt_congr hword hr hv'] at hl'
    rw [toNat_add, toNat_ofNat, List.length_drop]
    omega

/-! ## Runs -/

/-- The parent has only pages that were mapped writable. -/
def ForksWritable (g : Grants) (m : Machine) (op : Op) : Prop :=
  ∀ old new, op = .fork old new → ∀ v < userPages, leafAt riscv m old v ≠ none → g old v = true

lemma fork_granted (hf : ForksWritable g m (.fork old new)) :
    ∀ v < userPages, leafAt riscv m old v ≠ none →
      (Op.fork old new).granted m g old v = true ∧
        (leafAt riscv m new v = none → (Op.fork old new).granted m g new v = true) := by
  intro v hv hl
  have hg := hf old new rfl v hv hl
  refine ⟨?_, fun hn => ?_⟩
  · rw [granted_of_some hl]
    exact hg
  · rw [granted_of_none hn]
    exact hg

lemma respects_call (hi : Inv riscv roots kept m) (h : Respects roots g m)
    (ho : op.OnUserMemory roots) (hf : ForksWritable g m op)
    (hrun : op.code.run m = .ok (ret, m')) : Respects roots (op.granted m g) m' := by
  have hg := h.granted op
  cases op with
  | uvmalloc r va size perm =>
    have hpost := (uvmalloc_meets hi ho.1 rfl ho.2).1 ret m' hrun
    cases ret with
    | error e => exact hg.stable hpost
    | ok _ =>
      intro r' hr' v' hv' e' hl hw
      by_cases hc : r' = r ∧ pageNo va ≤ v' ∧
          v' < pageNo va + pagesBelow (pgRoundDown va) (pgRoundUp (va + size))
      · obtain ⟨rfl, h1, h2⟩ := hc
        obtain ⟨hnone, e, he, ⟨q, rfl⟩, -⟩ := hpost.inside v' h1 h2
        rw [hl] at he
        cases he
        rw [mayWrite_leafPte, has_permWrite_user] at hw
        rw [granted_of_none hnone]
        exact hw
      · rw [hpost.outside r' hr' v' hv' hc] at hl
        exact hg r' hr' v' hv' e' hl hw
  | pageFault p r va =>
    exact respects_fault h (handlePageFault_ensures hi ho.1 ho.2 ret m' hrun).1 fun _ _ => rfl
  | anonymousFault p vma va =>
    refine respects_fault h (handleAnonymousVmaFault_ensures hi ho.1 ho.2 ret m' hrun) ?_
    intro q hw
    rwa [mayWrite_leafPte] at hw
  | fileFault fs p vma file va =>
    obtain ⟨c, hpost⟩ := handleFileVmaFault_ensures hi ho.1 ho.2.1 ret m' hrun
    refine respects_fault h hpost fun q hw => ?_
    rwa [mayWrite_leafPte] at hw
  | fork old new =>
    have hpost := (uvmcopy_meets hi ho.2.1 ho.1 ho.2.2).1 ret m' hrun
    cases ret with
    | ok _ => exact hg.copying hpost (fork_granted hf)
    | error e => exact hg.copyFailed ho.1 hpost.2 (fork_granted hf)
  | storeFault r va =>
    have hpost := (storeFault_total hi ho.1 ho.2).of_run hrun
    cases ret with
    | ok _ =>
      obtain ⟨e, q, hl, hb, hres⟩ := hpost
      exact hg.resolved ho.1 ho.2 hl (.inr ⟨hb, q, hres⟩)
    | error e =>
      obtain rfl : m' = m := hpost
      exact hg
  | store r va b =>
    have hpost := (userStore_total hi ho.1 ho.2).of_run hrun
    unfold StorePost at hpost
    split at hpost
    · obtain ⟨e0, m₁, e, hl0, hc, hl, -, -, rfl⟩ := hpost
      exact (hg.resolved ho.1 ho.2 hl0 hc).congr (word_writeBytes (hc.inv hi) ho.1 ho.2 hl _ [b])
    · subst hpost
      exact hg
    · rcases hpost with ⟨-, rfl⟩ | ⟨e0, e, hl0, hc, -⟩
      · exact hg
      · exact hg.resolved ho.1 ho.2 hl0 hc
  | copyout fs p dst src =>
    refine respects_copyoutRun hi hg (fun v hv hl hd => ?_) ho.1 ho.2
      (copyout_ensures ho.1 rfl hi ho.2 ret m' hrun)
    rw [granted_of_none hl]
    exact hd
  | kvmunmap r va size =>
    exact hg.unmaps (kvmunmap_unmaps hi ho hrun)
  | uvmunmap r va npage =>
    exact hg.unmaps ((uvmunmap_total hi ho.1 rfl ho.2).of_run (run_ok_of_bind_pure hrun))

def Action.granted (a : Action) (m : Machine) (g : Grants) : Grants :=
  match a with
  | .call op _ => op.granted m g
  | _ => g

/-- A step together with the record of the permissions. -/
def GrantStep (x : System × Grants) (a : Action) (y : System × Grants) : Prop :=
  Step x.1 a y.1 ∧ y.2 = a.granted x.1.machine x.2

lemma Step.grant (h : Step s a t) (g : Grants) :
    GrantStep (s, g) a (t, a.granted s.machine g) := ⟨h, rfl⟩

def Writable (x : System × Grants) : Prop := Respects x.1.roots x.2 x.1.machine

/-- A step that forks only processes all of whose pages were mapped writable. -/
def CarefulStep (x : System × Grants) (a : Action) (y : System × Grants) : Prop :=
  GrantStep x a y ∧ ∀ op ret, a = .call op ret → ForksWritable x.2 x.1.machine op

lemma Step.careful (h : Step s a t) (hc : ∀ op ret, a = .call op ret →
    ForksWritable g s.machine op) :
    CarefulStep (s, g) a (t, a.granted s.machine g) := ⟨h.grant g, hc⟩

lemma Respects.quiet (h : Respects s.roots g s.machine) (q : Quiet s t) :
    Respects t.roots g t.machine := by
  intro r hr v hv e hl hw
  by_cases hs : r ∈ s.roots
  · rw [q.leaf r hs v hv] at hl
    exact h r hs v hv e hl hw
  · rw [q.empty r hr hs v hv] at hl
    cases hl

lemma CarefulStep.writable (hok : x.1.Ok) (h : Writable x) (hs : CarefulStep x a y) :
    Writable y := by
  obtain ⟨s, g⟩ := x
  obtain ⟨t, g'⟩ := y
  obtain ⟨⟨hstep, hg⟩, hcare⟩ := hs
  cases a with
  | call op ret =>
    obtain rfl : g' = _ := hg
    cases hstep with
    | call ho hrun => exact respects_call hok h ho (hcare _ _ rfl) hrun
  | create | take | give q =>
    obtain rfl : g' = g := hg
    exact Respects.quiet h (hstep.quiet hok (by simp))

lemma fork_writable_iff (hok : x.1.Ok) (h : Writable x)
    (hs : GrantStep x (.call (.fork old new) (.ok ())) y) : Writable y ↔
      ∀ v < userPages, leafAt riscv x.1.machine old v ≠ none → x.2 old v = true := by
  constructor
  · intro hy v hv hl
    obtain ⟨t, g'⟩ := y
    obtain ⟨hstep, hg⟩ := hs
    obtain rfl : g' = _ := hg
    cases hstep with
    | call ho hrun =>
      have hc := (uvmcopy_meets hok ho.2.1 ho.1 ho.2.2).1 _ _ hrun
      obtain ⟨e, he⟩ := Option.ne_none_iff_exists'.mp hl
      have hpar := hc.parent v hv
      rw [if_pos hv, he, Option.map_some] at hpar
      have hgr := hy old ho.1 v hv (cowPte e) hpar (mayWrite_cowPte e)
      exact (granted_of_some hl).symm.trans hgr
  · intro hall
    refine CarefulStep.writable hok h ⟨hs, fun op ret ha => ?_⟩
    cases ha
    rintro old' new' he
    cases he
    exact hall

/-- In a run that forks only processes whose pages were all mapped writable, no page becomes
writable that was not mapped so; and a fork of any other process breaks this. -/
theorem writable_of_careful_run {acts : List Action} {x : System × Grants} {g : Grants}
    (h : Booted kept m) (hrun : Run CarefulStep (⟨∅, kept, m⟩, g) acts x) :
    Writable x ∧ ∀ old new y, GrantStep x (.call (.fork old new) (.ok ())) y →
      (Writable y ↔
        ∀ v < userPages, leafAt riscv x.1.machine old v ≠ none → x.2 old v = true) := by
  have hx : x.1.Ok ∧ Writable x := by
    refine hrun.invariant (fun x => x.1.Ok ∧ Writable x) (fun x a y hx hs => ?_) ⟨h.inv, ?_⟩
    · exact ⟨hs.1.1.ok hx.1, hs.writable hx.1 hx.2⟩
    · exact fun r hr => absurd hr (Set.notMem_empty r)
  exact ⟨hx.2, fun old new y hs => fork_writable_iff hx.1 hx.2 hs⟩

theorem writable_of_careful_run_fork : ∃ acts x r e,
    Run CarefulStep (⟨∅, ∅, bootMachine⟩, fun _ _ => false) acts x ∧
      leafAt riscv x.1.machine r 0 = some e ∧ mayWrite e = true ∧ Writable x := by
  obtain ⟨r, c, m₁, m₂, m₃, m₄, q, s₁, s₂, s₃, s₄, hnone, hf, hcopy⟩ := boot_fork writableArea
  have h0 : 0 < userPages := by decide
  have hr : r ∈ ({c, r} : Set Word) := by simp
  let g₃ := (Op.anonymousFault (bareProcess r) writableArea 0#64).granted m₂ fun _ _ => false
  have hg₃ : ∀ v < userPages, leafAt riscv m₃ r v ≠ none → g₃ r v = true := fun v hv _ =>
    (granted_of_none (hnone v hv)).trans (show has writableArea.vmPageProt permWrite =
      true by decide)
  have c₃ := s₃.careful (g := fun _ _ => false) (by
    rintro op ret he old new rfl
    cases he)
  have c₄ := s₄.careful (g := g₃) (by
    rintro op ret he old new rfl
    cases he
    exact hg₃)
  have hrun := Run.cons (s₁.careful (g := fun _ _ => false) (by simp))
    (.cons (s₂.careful (by simp)) (.cons c₃ (.cons c₄ (.nil _))))
  have hl₄ := hcopy.parent 0 h0
  rw [if_pos h0, hf.leaf r hr 0 h0, if_pos ⟨rfl, rfl⟩] at hl₄
  exact ⟨_, _, r, _, hrun, hl₄, mayWrite_cowPte _,
    (writable_of_careful_run booted_bootMachine hrun).1⟩

/-- A process maps a page read-only and forks: the page is copy-on-write from then on. -/
theorem fork_grants_write : ∃ acts x,
    Run GrantStep (⟨∅, ∅, bootMachine⟩, fun _ _ => false) acts x ∧ ¬Writable x := by
  obtain ⟨r, c, m₁, m₂, m₃, m₄, q, s₁, s₂, s₃, s₄, hnone, hf, hcopy⟩ := boot_fork readOnlyArea
  have h0 : 0 < userPages := by decide
  have hr : r ∈ ({c, r} : Set Word) := by simp
  have hrun := Run.cons (s₁.grant fun _ _ => false)
    (.cons (s₂.grant _) (.cons (s₃.grant _) (.cons (s₄.grant _) (.nil _))))
  refine ⟨_, _, hrun, fun hw => ?_⟩
  have hl₃ := hf.leaf r hr 0 h0
  rw [if_pos ⟨rfl, rfl⟩] at hl₃
  have hl₄ := hcopy.parent 0 h0
  rw [if_pos h0, hl₃] at hl₄
  have hgrant := hw r hr 0 h0 _ hl₄ (mayWrite_cowPte _)
  have hsome : leafAt riscv m₃ r 0 ≠ none := by simp [hl₃]
  have hfalse : has readOnlyArea.vmPageProt permWrite = false := by decide
  have hgrant₃ := (granted_of_some hsome).symm.trans hgrant
  exact absurd (((granted_of_none (hnone 0 h0)).symm.trans hgrant₃).symm.trans hfalse) (by decide)

end FrostVista.Riscv
