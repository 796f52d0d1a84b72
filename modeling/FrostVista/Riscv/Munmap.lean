import FrostVista.Kernel.Areas
import FrostVista.Kernel.FileTable
import FrostVista.Riscv.System

/-!
# Unmapping an area

`do_mmap` and `do_munmap` with everything they touch: the table of areas, the references to open
files and the page table. A search for a free range checks the length and the start of a range but
not its end, so an area may reach beyond `USER_VA_TOP`. The walk only looks at bits 12 to 38 of an
address, so there `kvmunmap` removes the entries of the kernel addresses with the same bits. An area
without valid entries up there is unmapped exactly.
-/
namespace FrostVista.Riscv

open Lib Lib.Comp Lib.Radix Lib.RefCount Kernel Kernel.Ftable Function BitVec Option Nat Machine Set

/-- The tables of files and processes, and the machine. -/
structure World where
  files : Files
  machine : Machine

abbrev W := Comp World Panic

def onFiles {α : Type} (x : F α) : W α := zoom World.files (fun s w => { w with files := s }) x

def onMachine {α : Type} (x : M α) : W α :=
  zoom World.machine (fun m w => { w with machine := m }) x

/-- `do_munmap` for process `c` -/
def munmap (c : Fin nproc) (addr len : Word) : W Int := do
  let p ← gets fun w => w.files.proc c
  if addr &&& 4095#64 ≠ 0#64 then pure (-eInval)
  else if addr = 0#64 ∨ len = 0#64 then pure (-eInval)
  else
    let len := pgRoundUp len
    let stop := addr + len
    match overlappingSlot p addr len with
    | none => pure (-eInval)
    | some i =>
      let v := p.vmArea i
      if addr < v.vaStart ∨ v.vaEnd < stop then pure (-eInval)
      else if v.vaStart < addr ∧ stop < v.vaEnd then pure (-eOpNotSupp)
      else do
        onMachine (kvmunmap p.pagetable addr len true)
        onMachine sfenceVma
        if addr = v.vaStart ∧ stop = v.vaEnd then do
          onFiles (closeSome v.file)
          onFiles (setProc c (Process.setArea p i { v with used := false }))
        else if addr = v.vaStart then
          onFiles (setProc c (Process.setArea p i { v with
            fileOffset := if v.file.isSome then v.fileOffset + (stop - v.vaStart) else v.fileOffset
            vaStart := stop }))
        else if stop = v.vaEnd then
          onFiles (setProc c (Process.setArea p i { v with vaEnd := addr }))
        else pure ()
        pure 0

/-- `do_mmap` for process `c` -/
def mmap (c : Fin nproc) (a : MmapArgs) : W Int := do
  let s ← gets fun w => w.files
  match mmapCheck (s.proc c) a with
  | .error e => pure (-e)
  | .ok file =>
    match findFreeRange (s.proc proc0).stackBottom (s.proc c) (pgRoundUp a.len) with
    | none => pure (-eNoMem)
    | some (i, q) => do
      onFiles (setProc c q)
      match file with
      | none => pure ()
      | some f => onFiles (filedup f)
      let v := { q.vmArea i with
        file := file
        fileOffset := a.offset
        flags := a.flags.signExtend 64
        vmPageProt := prot2pte a.prot }
      onFiles (setProc c (Process.setArea q i v))
      pure v.vaStart.toInt

/-! ## What the two calls do to the table of areas -/

section Table

variable {c : Fin nproc} {w w' : World} {addr len : Word} {a : MmapArgs} {ret : Int}

variable {p q : Process}

lemma doMunmap_error (h : doMunmap p addr len = .error e) : 0 < e := by
  simp only [doMunmap] at h
  repeat' split at h
  all_goals cases h <;> decide

/-- The machine after a flush. -/
def fenced (m : Machine) : Machine := { m with trace := .fence :: m.trace }

lemma run_setProc_eq_ok (h : (do onFiles (setProc c q); pure r : W Int).run w = .ok (ret, w')) :
    ret = r ∧ w'.files.proc c = q ∧ w'.machine = w.machine := by
  obtain ⟨_, t, hset, hret⟩ := run_bind_eq_ok.mp h
  obtain ⟨s, hs, rfl⟩ := run_zoom_eq_ok.mp hset
  cases hret
  cases hs
  exact ⟨rfl, update_self .., rfl⟩

/-- A call is rejected without any effect, or the pages of the range are unmapped and the table
changes. -/
lemma run_munmap_eq_ok (h : (munmap c addr len).run w = .ok (ret, w')) :
    (∃ e, doMunmap (w.files.proc c) addr len = .error e ∧ ret = -e ∧ w' = w) ∨
      ∃ q m, doMunmap (w.files.proc c) addr len = .ok q ∧ ret = 0 ∧ w'.files.proc c = q ∧
        (kvmunmap (w.files.proc c).pagetable addr (pgRoundUp len) true).run w.machine =
          .ok ((), m) ∧ w'.machine = fenced m := by
  rw [munmap, run_bind_ok (run_gets _ w)] at h
  simp only [doMunmap]
  generalize w.files.proc c = p at h ⊢
  by_cases h1 : addr &&& 4095#64 ≠ 0#64
  · rw [if_pos h1] at h ⊢
    cases h
    exact .inl ⟨_, rfl, rfl, rfl⟩
  rw [if_neg h1] at h ⊢
  by_cases h2 : addr = 0#64 ∨ len = 0#64
  · rw [if_pos h2] at h ⊢
    cases h
    exact .inl ⟨_, rfl, rfl, rfl⟩
  rw [if_neg h2] at h ⊢
  cases hslot : overlappingSlot p addr (pgRoundUp len) with
  | none =>
    simp only [hslot] at h
    cases h
    exact .inl ⟨_, rfl, rfl, rfl⟩
  | some i =>
    simp only [hslot] at h ⊢
    generalize p.vmArea i = v at h ⊢
    by_cases h3 : addr < v.vaStart ∨ v.vaEnd < addr + pgRoundUp len
    · rw [if_pos h3] at h ⊢
      cases h
      exact .inl ⟨_, rfl, rfl, rfl⟩
    rw [if_neg h3] at h ⊢
    by_cases h4 : v.vaStart < addr ∧ addr + pgRoundUp len < v.vaEnd
    · rw [if_pos h4] at h ⊢
      cases h
      exact .inl ⟨_, rfl, rfl, rfl⟩
    rw [if_neg h4] at h ⊢
    obtain ⟨_, t, hunmap, h⟩ := run_bind_eq_ok.mp h
    obtain ⟨m, hm, rfl⟩ := run_zoom_eq_ok.mp hunmap
    obtain ⟨_, t, hfence, h⟩ := run_bind_eq_ok.mp h
    obtain ⟨m', hm', rfl⟩ := run_zoom_eq_ok.mp hfence
    cases hm'
    refine .inr ?_
    by_cases h5 : addr = v.vaStart ∧ addr + pgRoundUp len = v.vaEnd
    · rw [if_pos h5] at h
      obtain ⟨_, t, hclose, h⟩ := run_bind_eq_ok.mp h
      obtain ⟨s, hs, rfl⟩ := run_zoom_eq_ok.mp hclose
      obtain ⟨rfl, hproc, hmachine⟩ := run_setProc_eq_ok h
      exact ⟨_, m, if_pos h5, rfl, hproc, hm, hmachine⟩
    rw [if_neg h5] at h ⊢
    by_cases h6 : addr = v.vaStart
    · rw [if_pos h6] at h ⊢
      obtain ⟨rfl, hproc, hmachine⟩ := run_setProc_eq_ok h
      exact ⟨_, m, rfl, rfl, hproc, hm, hmachine⟩
    rw [if_neg h6] at h ⊢
    by_cases h7 : addr + pgRoundUp len = v.vaEnd
    · rw [if_pos h7] at h ⊢
      obtain ⟨rfl, hproc, hmachine⟩ := run_setProc_eq_ok h
      exact ⟨_, m, rfl, rfl, hproc, hm, hmachine⟩
    · exact absurd h7 (by bv_omega)

lemma run_mmap_eq_ok (h : (mmap c a).run w = .ok (ret, w')) :
    (∃ e, doMmap (w.files.proc proc0).stackBottom (w.files.proc c) a = .error e ∧ ret = -e ∧
      w' = w) ∨
      ∃ start q, doMmap (w.files.proc proc0).stackBottom (w.files.proc c) a = .ok (start, q) ∧
        ret = start.toInt ∧ w'.files.proc c = q := by
  rw [mmap, run_bind_ok (run_gets _ w)] at h
  simp only [doMmap]
  cases hcheck : mmapCheck (w.files.proc c) a with
  | error e =>
    simp only [hcheck] at h
    cases h
    exact .inl ⟨_, rfl, rfl, rfl⟩
  | ok file =>
    simp only [hcheck] at h ⊢
    cases hrange : findFreeRange (w.files.proc proc0).stackBottom (w.files.proc c)
        (pgRoundUp a.len) with
    | none =>
      simp only [hrange] at h
      cases h
      exact .inl ⟨_, rfl, rfl, rfl⟩
    | some r =>
      obtain ⟨i, q⟩ := r
      simp only [hrange] at h ⊢
      obtain ⟨_, t, hset, h⟩ := run_bind_eq_ok.mp h
      refine .inr ⟨_, _, rfl, ?_⟩
      cases file with
      | none =>
        obtain ⟨rfl, hproc, -⟩ := run_setProc_eq_ok h
        exact ⟨rfl, hproc⟩
      | some f =>
        obtain ⟨_, u, hdup, h⟩ := run_bind_eq_ok.mp h
        obtain ⟨rfl, hproc, -⟩ := run_setProc_eq_ok h
        exact ⟨rfl, hproc⟩

lemma toInt_nonneg_of_doMmap (h : doMmap bottom p a = .ok (start, q)) : 0 ≤ start.toInt := by
  obtain ⟨-, -, -, -, hfirst, -⟩ := doMmap_eq_ok.mp h
  obtain ⟨k, hk, hcand, -⟩ := hfirst.least
  have hnat := candidate_toNat (le_of_lt hk)
  have hmin : mmapStart.toNat = 0x4000000 := rfl
  have hpages : Kernel.userPages = 0x4000000 := rfl
  rw [← hcand] at hnat
  rw [toInt_eq_toNat_of_lt (by omega)]
  omega

/-! ## Runs -/

/-- What a process can do to its table of areas, and everything else. -/
inductive AreaAction where
  | mmap (a : MmapArgs)
  | munmap (addr len : Word)
  | other

/-- The calls of process `c` that change its areas. The stacks of the two processes that a search
looks at end at `USER_VA_TOP` or do not exist yet. -/
inductive AreaStep (c : Fin nproc) : World → AreaAction → World → Prop where
  | mmap {w w' : World} {a : MmapArgs} {ret : Int} :
      (w.files.proc proc0).stackBottom ≤ userVaTop → (w.files.proc c).stackBottom ≤ userVaTop →
      a.len.toNat ≤ 2 ^ 64 - 4096 → (mmap c a).run w = .ok (ret, w') → AreaStep c w (.mmap a) w'
  | munmap {w w' : World} {addr len : Word} {ret : Int} :
      (munmap c addr len).run w = .ok (ret, w') → AreaStep c w (.munmap addr len) w'
  | other {w w' : World} :
      (w'.files.proc c).vmArea = (w.files.proc c).vmArea → AreaStep c w .other w'

lemma AreaStep.tidy (h : TidyAreas (w.files.proc c))
    (hstep : AreaStep c w act w') : TidyAreas (w'.files.proc c) := by
  cases hstep with
  | mmap h0 hc hlen hrun =>
    obtain ⟨e, -, -, rfl⟩ | ⟨start, q, hok, -, rfl⟩ := run_mmap_eq_ok hrun
    · exact h
    · exact h.mmap h0 hc hlen hok
  | munmap hrun =>
    obtain ⟨e, -, -, rfl⟩ | ⟨q, m, hok, -, rfl, -⟩ := run_munmap_eq_ok hrun
    · exact h
    · exact (h.munmap hok).1
  | other he => exact h.congr he

lemma tidyAreas_of_run
    (h0 : ∀ i, ((w0.files.proc c).vmArea i).used = false) (hrun : Run (AreaStep c) w0 acts w) :
    TidyAreas (w.files.proc c) :=
  hrun.invariant (fun w => TidyAreas (w.files.proc c)) (fun _ _ _ h hstep => hstep.tidy h)
    (tidyAreas_of_unused h0)

end Table

/-! ## The entries of the kernel half -/

section Machine

variable {roots kept : Set Word} {m m' t : Machine} {r va : Word} {v n : Nat}

/-- The page is no table of the user half and not mapped there. -/
def Aside (roots : Set Word) (m : Machine) (x : Word) : Prop :=
  ¬IsTable riscv roots m x ∧ ¬Held (mapping riscv roots m) x

/-- The tables that a root shares with the kernel table do not occur in the user half. -/
def KernelTables (roots : Set Word) (m : Machine) : Prop :=
  ∀ r ∈ roots, ∀ i, 256 ≤ i → i < 512 → ∀ x, riscv.next (m.word r i) = some x →
    Aside roots m x ∧ ∀ j < 512, ∀ y, riscv.next (m.word x j) = some y → Aside roots m y

/-- The page numbers of kernel addresses, up to the sign extension. -/
def KernelNo (v : Nat) : Prop := 256 ≤ v / 512 / 512 % 512

/-- Roots and the tables of the kernel keep their entries. -/
def Spares (roots : Set Word) (m m' : Machine) : Prop :=
  ∀ x, x ∈ roots ∨ Aside roots m x → m'.word x = m.word x

lemma leafAt_of_spares (hk : KernelTables roots m) (hr : r ∈ roots) (hv : KernelNo v)
    (hs : Spares roots m m') : leafAt riscv m' r v = leafAt riscv m r v := by
  simp only [leafAt, slotAt, pathOf, descend, hs r (.inl hr)]
  cases hx : riscv.next (m.word r (v / 512 / 512 % 512)) with
  | none => rfl
  | some x =>
    obtain ⟨hax, hy⟩ := hk r hr _ hv (mod_lt _ (by decide)) x hx
    simp only [bind_some, hs x (.inr hax)]
    cases hy' : riscv.next (m.word x (v / 512 % 512)) with
    | none => rfl
    | some y =>
      have hay := hy _ (mod_lt _ (by decide)) y hy'
      simp [hs y (.inr hay)]

variable {x e addr len : Word}

lemma Aside.of_unmaps (h : Aside roots m x) (u : Unmaps roots kept m m' r v n) :
    Aside roots m' x := ⟨fun ht => h.1 (u.newTable x ht), fun hu => h.2 (u.held_of hu)⟩

lemma Spares.trans (u : Unmaps roots kept m t r v n) (h : Spares roots m t)
    (h' : Spares roots t m') : Spares roots m m' := fun x hx =>
  (h' x (hx.imp_right fun ha => ha.of_unmaps u)).trans (h x hx)

lemma unmapPage_spares (h : Inv riscv roots kept m) (hr : r ∈ roots) (hv : pageNo va < userPages) :
    Total (unmapPage r va true) m fun _ m' =>
      Unmaps roots kept m m' r (pageNo va) 1 ∧ Spares roots m m' := by
  cases hl : leafAt riscv m r (pageNo va) with
  | none =>
    exact ⟨(), m, run_unmapPage_absent hl true, .none h (by rw [hl]; rfl), fun _ _ => rfl⟩
  | some e =>
    by_cases hf : pteFlags e = pteV
    · exact ⟨(), m, run_unmapPage_bare hl hf true, .none h (by simp [hl, unmapped, hf]),
        fun _ _ => rfl⟩
    have huser : Owns riscv roots kept m (riscv.page e) .user := Wf.user_of_leaf hr hv hl
    have hpage := h.isPage huser
    obtain ⟨p, i, hs, rfl, hb⟩ := leafAt_eq_some.mp hl
    rw [riscv_valid] at hb
    have htable : IsTable riscv roots m p := Wf.table_of_slot hr hv hs
    refine ⟨(), _, run_unmapPage hs hb hf h.unlocked hpage, Unmaps.one h ⟨hr, hv, hs⟩ hl hf,
      fun x hx => ?_⟩
    have hxp : x ≠ p := by
      rintro rfl
      obtain hroot | haside := hx
      · -- a root is reached by the empty path only
        obtain ⟨-, hpath⟩ := h.forest x hroot r hr [] _ userLevels.nil (userLevels_pathOf hv) x rfl
          (slotAt_idx hs).1
        cases hpath
      · exact haside.1 htable
    have hxe : x ≠ riscv.page (m.word p i) := by
      rintro rfl
      obtain hroot | haside := hx
      · exact h.owner_ne .table .user (Table.of_root hroot) huser (by simp) rfl
      · exact haside.2 huser
    rw [setPte_word, write_row_of_ne hxp, freed_word]
    split
    · rfl
    · exact update_of_ne hxe ..

/-- The range holds no entry of a kernel address that would be removed. -/
def NoKernelEntry (m : Machine) (r : Word) (v n : Nat) : Prop :=
  ∀ k < n, userPages ≤ v + k → unmapped (leafAt riscv m r (v + k)) = leafAt riscv m r (v + k)

lemma run_unmapPage_fixed (hl : unmapped (leafAt riscv m r (pageNo va)) =
    leafAt riscv m r (pageNo va)) :
    (unmapPage r va true).run m = .ok ((), m) := by
  cases hleaf : leafAt riscv m r (pageNo va) with
  | none => exact run_unmapPage_absent hleaf true
  | some e =>
    refine run_unmapPage_bare hleaf ?_ true
    by_contra hf
    simp [hleaf, unmapped, hf] at hl

/-- Without such entries a range is unmapped up to `USER_VA_TOP` and nothing happens above. -/
lemma unmapLoop_spares (h : Inv riscv roots kept m) (hk : KernelTables roots m) (hr : r ∈ roots)
    (hv : pageNo va + n ≤ 2 ^ 27) (hno : NoKernelEntry m r (pageNo va) n) :
    Total (loop (fun k => unmapPage r (pageAt va k) true) 0 n) m fun _ m' =>
      Unmaps roots kept m m' r (pageNo va) (min n (userPages - pageNo va)) ∧ Spares roots m m' := by
  refine (Total.loop (fun k t => Unmaps roots kept m t r (pageNo va)
    (min k (userPages - pageNo va)) ∧ Spares roots m t)
      ⟨by simpa using Unmaps.zero h, fun _ _ => rfl⟩
    fun k t _ hkn ⟨u, hs⟩ => ?_).mono fun _ t u => by simpa using u
  have hva : va.toNat + 4096 * k < 2 ^ 64 := by
    unfold pageNo at hv
    omega
  have hpage := pageNo_pageAt hva
  by_cases hlow : pageNo va + k < userPages
  · have hmin : min k (userPages - pageNo va) = k := by omega
    have hmin' : min (k + 1) (userPages - pageNo va) = k + 1 := by omega
    rw [hmin] at u
    rw [hmin']
    refine (unmapPage_spares u.inv hr (by omega)).mono fun _ t' ⟨u', hs'⟩ => ?_
    rw [hpage] at u'
    exact ⟨u.append u', hs.trans u hs'⟩
  · have hmin : min (k + 1) (userPages - pageNo va) = min k (userPages - pageNo va) := by omega
    rw [hmin]
    have hup : KernelNo (pageNo va + k) := by
      unfold KernelNo
      unfold userPages at hlow
      omega
    refine ⟨(), t, run_unmapPage_fixed ?_, u, hs⟩
    rw [hpage, leafAt_of_spares hk hr hup hs]
    exact hno k (by omega) (by omega)

/-! ## An entry of a kernel address -/

/-- The entries only go away. -/
def Shrinks (m m' : Machine) : Prop := ∀ p i, m'.word p i = m.word p i ∨ m'.word p i = 0#64

lemma Shrinks.refl (m : Machine) : Shrinks m m := fun _ _ => .inl rfl

lemma Shrinks.next (h : Shrinks m m')
    (hn : riscv.next (m'.word p i) = some x) : m'.word p i = m.word p i := by
  refine (h p i).resolve_right fun hz => ?_
  rw [hz, next_zero] at hn
  cases hn

lemma Shrinks.descend (h : Shrinks m m')
    (hd : descend riscv.next m'.word r path = some x) : Radix.descend riscv.next m.word r path =
      some x := by
  induction path generalizing r with
  | nil => exact hd
  | cons i path ih =>
    simp only [Radix.descend, bind_eq_some_iff] at hd ⊢
    obtain ⟨q, hq, hd⟩ := hd
    exact ⟨q, by rw [← h.next hq, hq], ih hd⟩

lemma Shrinks.leafAt (h : Shrinks m m') (hl : leafAt riscv m' r v = some e) :
    FrostVista.leafAt riscv m r v = some e := by
  obtain ⟨p, i, hs, rfl, hv⟩ := leafAt_eq_some.mp hl
  obtain ⟨x, hd, hx⟩ := map_eq_some_iff.mp hs
  have hslot : slotAt riscv m r v = some (p, i) := by
    rw [slotAt, h.descend hd]
    exact congrArg some hx
  have hword : m'.word p i = m.word p i := by
    refine (h _ _).resolve_right fun hz => ?_
    rw [hz, riscv.valid_zero] at hv
    cases hv
  exact leafAt_eq_some.mpr ⟨p, i, hslot, hword.symm, hv⟩

lemma kfree_eq_ok (h : (kfree riscv x).run m = .ok ((), m')) : m'.word = (m.freed x).word := by
  unfold kfree at h
  rw [run_bind_ok (run_get m)] at h
  split at h
  · cases h
  split at h
  · cases h
  obtain ⟨_, t, hacq, h⟩ := run_bind_eq_ok.mp h
  by_cases hl : Lock.mem ∈ m.held
  · rw [run_acquire_held hl] at hacq
    cases hacq
  rw [run_acquire hl] at hacq
  cases hacq
  rw [freed_word]
  split at h
  · rename_i hc
    rw [if_pos hc]
    simp only [run_bind_ok (run_modify _ _)] at h
    rw [run_release (by simp)] at h
    cases h
    rfl
  · rename_i hc
    rw [run_bind_ok (run_release (by simp)), run_bind_ok (run_modify _ _)] at h
    rw [run_bind_ok (run_acquire (by simpa [zeroPage, setPage] using hl)),
      run_bind_ok (run_modify _ _), run_release (by simp)] at h
    cases h
    rw [if_neg hc]
    rfl

lemma unmapPage_shrinks : Ensures (unmapPage r va true) m fun _ m' =>
    Shrinks m m' ∧ ∀ e, leafAt riscv m' r (pageNo va) = some e → pteFlags e = pteV := by
  intro _ m' hrun
  rw [unmapPage, run_bind_ok (run_walk_lookup m r va)] at hrun
  cases hs : slotAt riscv m r (pageNo va) with
  | none =>
    rw [hs] at hrun
    cases hrun
    refine ⟨.refl m, fun e he => ?_⟩
    simp [leafAt, hs] at he
  | some x =>
    obtain ⟨p, i⟩ := x
    rw [hs] at hrun
    simp only [run_bind_ok (run_readPte m p i)] at hrun
    have hleaf : ∀ e, leafAt riscv m r (pageNo va) = some e → e = m.word p i ∧ bit e 0 = true := by
      intro e he
      obtain ⟨p', i', hs', rfl, hv⟩ := leafAt_eq_some.mp he
      rw [hs] at hs'
      cases hs'
      rw [riscv_valid] at hv
      exact ⟨rfl, hv⟩
    by_cases hv : (!has (m.word p i) pteV) = true
    · rw [if_pos hv] at hrun
      cases hrun
      refine ⟨.refl m, fun e he => ?_⟩
      obtain ⟨rfl, hb⟩ := hleaf e he
      simp [hb] at hv
    rw [if_neg hv] at hrun
    by_cases hf : pteFlags (m.word p i) = pteV
    · rw [if_pos hf] at hrun
      cases hrun
      refine ⟨.refl m, fun e he => ?_⟩
      rw [(hleaf e he).1]
      exact hf
    rw [if_neg hf, when_true] at hrun
    obtain ⟨_, t, hfree, hstore⟩ := run_bind_eq_ok.mp hrun
    have hword := kfree_eq_ok hfree
    rw [run_storePte] at hstore
    cases hstore
    have hshrink : Shrinks m (t.setPte p i 0#64) := by
      intro q j
      rw [setPte_word]
      by_cases hqj : q = p ∧ j = i
      · obtain ⟨rfl, rfl⟩ := hqj
        exact .inr write_same
      · rw [write_of_ne hqj, hword, freed_word]
        split
        · exact .inl rfl
        · by_cases hq : q = riscv.page (m.word p i)
          · subst hq
            exact .inr (by rw [update_self]; rfl)
          · exact .inl (by rw [update_of_ne hq])
    refine ⟨hshrink, fun e he => ?_⟩
    obtain ⟨rfl, hb⟩ := hleaf e (hshrink.leafAt he)
    obtain ⟨p', i', hs', hw, hv'⟩ := leafAt_eq_some.mp he
    obtain ⟨q, hd, hq⟩ := map_eq_some_iff.mp hs'
    have hslot : slotAt riscv m r (pageNo va) = some (p', i') := by
      rw [slotAt, hshrink.descend hd, ← hq]
      rfl
    rw [hs] at hslot
    cases hslot
    rw [setPte_word, write_same] at hw
    rw [← hw, riscv_valid] at hv'
    simp at hv'

lemma unmapLoop_shrinks (hv : va.toNat + 4096 * n ≤ 2 ^ 64) :
    Ensures (loop (fun k => unmapPage r (pageAt va k) true) 0 n) m fun _ m' =>
      ∀ k < n, ∀ e, leafAt riscv m' r (pageNo va + k) = some e → pteFlags e = pteV := by
  refine (Ensures.loop (fun k t => ∀ j < k, ∀ e, leafAt riscv t r (pageNo va + j) = some e →
    pteFlags e = pteV) (by simp) fun k t _ hk hj => ?_).mono fun _ t h => by simpa using h
  refine unmapPage_shrinks.mono fun _ t' ⟨hs, hk'⟩ j hjk e he => ?_
  obtain rfl | hlt := eq_or_lt_of_le (le_of_lt_succ hjk)
  · rw [pageNo_pageAt (by omega)] at hk'
    exact hk' e he
  · exact hj j hlt e (hs.leafAt he)

/-! ## Exactness -/

/-- The entries of the range that are removed and lead to page `x`. -/
def cleared (m : Machine) (r : Word) (v n : Nat) (x : Word) : Set Nat :=
  {k | v ≤ k ∧ k < v + n ∧
    ∃ e, leafAt riscv m r k = some e ∧ pteFlags e ≠ pteV ∧ riscv.page e = x}

/-- Every removed entry gave back one reference to its page, and a page without further mappings was
put on the free list once. -/
structure GivesBack (roots : Set Word) (m m' : Machine) (r : Word) (v n : Nat) : Prop where
  shared : ∀ x, Held (mapping riscv roots m') x →
    m'.refcnt x = m.refcnt x - (cleared m r v n x).ncard
  last : ∀ x, x ∉ m.freelist ∧ x ∈ m'.freelist ↔
    (cleared m r v n x).Nonempty ∧ ¬Held (mapping riscv roots m') x
  once : m'.freelist.Nodup

/-- The addresses that the hardware translates: bits 38 to 63 are equal. -/
def Canonical (va : Word) : Prop := va.toNat < 2 ^ 38 ∨ 2 ^ 64 - 2 ^ 38 ≤ va.toNat

/-- Exactly the entries of the addresses in the range are removed. -/
def ClearsRange (m m' : Machine) (r addr len : Word) : Prop :=
  ∀ va, Canonical va → leafAt riscv m' r (pageNo va) =
    if InRange addr len va then unmapped (leafAt riscv m r (pageNo va))
    else leafAt riscv m r (pageNo va)

lemma unmapped_eq_some_iff : unmapped o = some e ↔ o = some e ∧ pteFlags e = pteV := by
  cases o with
  | none => simp [unmapped]
  | some e' =>
    simp only [unmapped]
    split <;> grind

section Range

variable {k : Nat} {e : Word}

lemma leaf_unmaps_iff (hr' : r' ∈ roots) (hk : k < userPages)
    (u : Unmaps roots kept m m' r v (min n (userPages - v))) :
    leafAt riscv m' r' k = some e ↔ leafAt riscv m r' k = some e ∧
      (r' = r → v ≤ k → k < v + n → pteFlags e = pteV) := by
  rw [u.leaf r' hr' k hk]
  split
  · rename_i hin
    rw [unmapped_eq_some_iff]
    grind
  · rename_i hout
    refine ⟨fun h => ⟨h, fun h1 h2 h3 => absurd ⟨h1, h2, by omega⟩ hout⟩, And.left⟩

lemma mem_cleared (h : NoKernelEntry m r v n) (hk : k ∈ cleared m r v n x) : k < userPages := by
  obtain ⟨h1, h2, e, he, hf, -⟩ := hk
  by_contra hge
  have hfix := h (k - v) (by omega) (by omega)
  rw [Nat.add_sub_cancel' h1, he, unmapped_eq_some_iff] at hfix
  exact hf hfix.2

end Range

lemma holders_unmaps (hr : r ∈ roots) (u : Unmaps roots kept m m' r v (min n (userPages - v)))
    (x : Word) : holders (mapping riscv roots m') x =
      holders (mapping riscv roots m) x \ Prod.mk r '' cleared m r v n x := by
  ext ⟨r', k⟩
  simp only [mem_holders, mem_sdiff, mem_image, Prod.mk.injEq, mapping_eq_some]
  constructor
  · rintro ⟨hr', hk, e, he, hx⟩
    obtain ⟨he, hf⟩ := (leaf_unmaps_iff hr' hk u).mp he
    refine ⟨⟨hr', hk, e, he, hx⟩, ?_⟩
    rintro ⟨k', ⟨h1, h2, e', he', hf', -⟩, rfl, rfl⟩
    rw [he, some.injEq] at he'
    subst he'
    exact hf' (hf rfl h1 h2)
  · rintro ⟨⟨hr', hk, e, he, hx⟩, hnot⟩
    refine ⟨hr', hk, e, (leaf_unmaps_iff hr' hk u).mpr ⟨he, ?_⟩, hx⟩
    rintro rfl h1 h2
    by_contra hf
    exact hnot ⟨k, ⟨h1, h2, e, he, hf, hx⟩, rfl, rfl⟩

lemma GivesBack.of_unmaps (h : Inv riscv roots kept m) (hno : NoKernelEntry m r v n)
    (hr : r ∈ roots) (u : Unmaps roots kept m m' r v (min n (userPages - v))) :
    GivesBack roots m m' r v n := by
  have hsub : ∀ x, Prod.mk r '' cleared m r v n x ⊆ holders (mapping riscv roots m) x := by
    rintro x _ ⟨k, hk, rfl⟩
    have huser := mem_cleared hno hk
    obtain ⟨-, -, e, he, -, hx⟩ := hk
    exact mapping_eq_some.mpr ⟨hr, huser, e, he, hx⟩
  refine ⟨fun x hx => ?_, fun x => ?_, u.inv.nodup⟩
  · have hfin := holders_finite (f := mapping riscv roots m) mapping_finite x
    have hcard := ncard_sdiff (hsub x) (hfin.subset (hsub x))
    have hle := ncard_le_ncard (hsub x) hfin
    rw [ncard_image_of_injective _ (Prod.mk_right_injective r)] at hcard hle
    rw [u.inv.counted.count x hx, h.counted.count x (u.held_of hx), holders_unmaps hr u, hcard]
    omega
  · rw [(tracked_of_unmaps h u).free_iff h x]
    refine and_congr_left fun hgone => ⟨?_, fun ⟨k, hk⟩ => ⟨_, hsub x ⟨k, hk, rfl⟩⟩⟩
    rintro ⟨y, hy⟩
    have hcut : y ∉ holders (mapping riscv roots m') x := fun hc => hgone ⟨y, hc⟩
    rw [holders_unmaps hr u] at hcut
    obtain ⟨k, hk, -⟩ := not_not.mp fun hc => hcut ⟨hy, hc⟩
    exact ⟨k, hk⟩

lemma leafAt_alias (h : v' % 2 ^ 27 = v % 2 ^ 27) :
    leafAt riscv m r v' = leafAt riscv m r v := by
  have hpath : pathOf v' = pathOf v := by
    simp only [pathOf, List.cons.injEq, and_true]
    omega
  have hidx : v' % 512 = v % 512 := by omega
  rw [leafAt, leafAt, slotAt, slotAt, hpath, hidx]

lemma ClearsRange.of_unmaps (ha : addr.toNat % 4096 = 0)
    (hend : addr.toNat + 4096 * pagesOf len ≤ 2 ^ 39) (hk : KernelTables roots m) (hr : r ∈ roots)
    (u : Unmaps roots kept m m' r (pageNo addr) (min (pagesOf len) (userPages - pageNo addr)))
    (hs : Spares roots m m') : ClearsRange m m' r addr len := by
  intro va hva
  have hlt := va.isLt
  obtain hlow | hhigh := hva
  · have huser := pageNo_lt_userPages hlow
    have hrange : InRange addr len va ↔ pageNo addr ≤ pageNo va ∧
        pageNo va < pageNo addr + min (pagesOf len) (userPages - pageNo addr) := by
      unfold InRange
      unfold pageNo userPages at *
      omega
    rw [u.leaf r hr _ huser]
    simp only [hrange, true_and]
  · have hup : KernelNo (pageNo va) := by
      unfold KernelNo pageNo
      omega
    have hout : ¬InRange addr len va := by
      unfold InRange
      omega
    rw [if_neg hout, leafAt_of_spares hk hr hup hs]

lemma exists_alias (hlow : userPages ≤ k) (hhigh : k < 2 ^ 27) :
    ∃ va : Word, 2 ^ 64 - 2 ^ 38 ≤ va.toNat ∧ pageNo va % 2 ^ 27 = k % 2 ^ 27 := by
  refine ⟨BitVec.ofNat 64 (2 ^ 64 - 2 ^ 39 + 4096 * k), ?_⟩
  unfold pageNo
  unfold userPages at hlow
  rw [toNat_ofNat]
  omega

lemma noKernelEntry_of_clearsRange (h : ClearsRange m m' r addr len)
    (hend : addr.toNat + 4096 * pagesOf len ≤ 2 ^ 39)
    (hgone : ∀ k < pagesOf len, ∀ e, leafAt riscv m' r (pageNo addr + k) = some e →
      pteFlags e = pteV) : NoKernelEntry m r (pageNo addr) (pagesOf len) := by
  intro k hk hup
  have hlt : pageNo addr + k < 2 ^ 27 := by
    unfold pageNo
    omega
  obtain ⟨va, hva, halias⟩ := exists_alias hup hlt
  have hout : ¬InRange addr len va := by
    unfold InRange
    omega
  -- the entry belongs to a kernel address, which is not in the range
  have hsame := h va (.inr hva)
  rw [if_neg hout, leafAt_alias halias, leafAt_alias halias] at hsame
  cases hl : leafAt riscv m r (pageNo addr + k) with
  | none => rfl
  | some e => exact unmapped_eq_some_iff.mpr ⟨rfl, hgone k hk e (hsame.trans hl)⟩

end Machine

/-! ## The calls -/

section Calls

variable {roots kept : Set Word} {c : Fin nproc} {w w' : World} {addr len : Word} {m : Machine}

lemma kvmunmap_eq_loop {r size : Word} {n : Nat} (ha : addr.toNat % 4096 = 0)
    (hs : size.toNat = 4096 * n) (hv : (addr + size).toNat = addr.toNat + 4096 * n) :
    kvmunmap r addr size true = loop (fun k => unmapPage r (pageAt addr k) true) 0 n := by
  have hok : ¬(addr.toNat % pgSize ≠ 0 ∨ size.toNat % pgSize ≠ 0) := by
    simp only [pgSize]
    omega
  rw [kvmunmap, if_neg hok, pagesBelow_of_toNat hv]

/-- What a call that returns 0 promises: the covered addresses lose exactly the range, faults on the
others read what they would have read, exactly the entries of the range are removed, and each of
them gives back its page once. -/
structure UnmapsRange (roots : Set Word) (c : Fin nproc) (w w' : World) (addr len : Word) :
    Prop where
  covered : ∀ x, Covered (w'.files.proc c) x ↔ Covered (w.files.proc c) x ∧ ¬InRange addr len x
  reads : ∀ x, Covered (w'.files.proc c) x →
    faultRead (w'.files.proc c) x = faultRead (w.files.proc c) x
  entries : ClearsRange w.machine w'.machine (w.files.proc c).pagetable addr len
  pages : GivesBack roots w.machine w'.machine (w.files.proc c).pagetable
    (pageNo addr) (pagesOf len)

lemma unmapsRange_iff {q : Process} (h : TidyAreas (w.files.proc c))
    (hinv : Inv riscv roots kept w.machine) (hk : KernelTables roots w.machine)
    (hr : (w.files.proc c).pagetable ∈ roots)
    (hok : doMunmap (w.files.proc c) addr len = .ok q) (hq : w'.files.proc c = q)
    (hrun : (kvmunmap (w.files.proc c).pagetable addr (pgRoundUp len) true).run w.machine =
      .ok ((), m)) (hm : w'.machine = fenced m) : UnmapsRange roots c w w' addr len ↔
      NoKernelEntry w.machine (w.files.proc c).pagetable (pageNo addr) (pagesOf len) := by
  obtain ⟨ha, hpos, i, he⟩ := cuts_of_doMunmap hok
  have ht := h.tidy i he.used
  obtain ⟨hround, hstop⟩ := toNat_stop ht he hpos
  have hend : addr.toNat + 4096 * pagesOf len ≤ 2 ^ 39 := he.inside.2.trans ht.high
  rw [kvmunmap_eq_loop ha hround hstop] at hrun
  constructor
  · intro hun
    have hentries : ClearsRange w.machine m (w.files.proc c).pagetable addr len := by
      have := hun.entries
      rwa [hm] at this
    exact noKernelEntry_of_clearsRange hentries hend (unmapLoop_shrinks (by omega) () m hrun)
  · intro hno
    have hpages : pageNo addr + pagesOf len ≤ 2 ^ 27 := by
      unfold pageNo
      omega
    obtain ⟨u, hs⟩ := (unmapLoop_spares hinv hk hr hpages hno).of_run hrun
    obtain ⟨-, hcov, hread⟩ := h.munmap hok
    rw [← hq] at hcov hread
    refine ⟨hcov, hread, ?_, ?_⟩
    · have hentries := ClearsRange.of_unmaps ha hend hk hr u hs
      rwa [hm]
    · have hreleased := GivesBack.of_unmaps hinv hno hr u
      rw [hm]
      exact ⟨hreleased.shared, hreleased.last, hreleased.once⟩

end Calls

/-! ## A process with areas -/

/-- The root of the only process and a page that the kernel has allocated. -/
def rootPage : Word := pa2va 0x87ffe000#64

def stackPage : Word := pa2va 0x87fff000#64

/-- The last two pages of memory are in use: a root, and a page of the kernel with its entry in the
direct map. -/
def directMachine : Machine where
  word := fun p i =>
    if p = rootPage ∧ i = 258 then riscv.dirEntry 0x80400000#64
    else if p = pa2va 0x80400000#64 ∧ i = 63 then riscv.dirEntry 0x80401000#64
    else if p = pa2va 0x80401000#64 ∧ i = 511 then leafPte 0x87fff000#64 (pteR ||| pteW)
    else 0#64
  freelist := []
  size := 0
  refcnt := fun _ => 1
  held := []
  kernelEnd := rootPage
  kernelTable := pa2va 0x80402000#64
  trace := []

lemma isPage_directMachine : IsPage riscv directMachine p ↔ p = rootPage ∨ p = stackPage := by
  have hroot : rootPage.toNat = 0xffffffc087ffe000 := by decide
  have hstack : stackPage.toNat = 0xffffffc087fff000 := by decide
  constructor
  · rintro ⟨h1, -, h3, h4⟩
    have h3' : rootPage.toNat ≤ p.toNat := h3
    have h4' : p.toNat < (pa2va 0x88000000#64).toNat := h4
    have hhi : (pa2va 0x88000000#64).toNat = 0xffffffc088000000 := by decide
    obtain h | h : p.toNat = rootPage.toNat ∨ p.toNat = stackPage.toNat := by omega
    · exact .inl (eq_of_toNat_eq h)
    · exact .inr (eq_of_toNat_eq h)
  · rintro (rfl | rfl) <;> exact ⟨by decide, by decide, by decide, by decide⟩

lemma inv_directMachine : Inv riscv {rootPage} {stackPage} directMachine := by
  have hboot : Booted {rootPage, stackPage} directMachine := {
    unlocked := rfl
    nodup := .nil
    split := fun p => by
      rw [isPage_directMachine]
      simp [directMachine]
    disjoint := fun p hp => absurd hp List.not_mem_nil
    single := fun p _ => le_refl 1 }
  have hz : ∀ i < 256, riscv.next (directMachine.word rootPage i) = none := by
    intro i hi
    have hne : i ≠ 258 := by omega
    have h1 : rootPage ≠ pa2va 0x80400000#64 := by decide
    have h2 : rootPage ≠ pa2va 0x80401000#64 := by decide
    simp [directMachine, hne, h1, h2]
  have hinv := hboot.inv.insert_root (q := rootPage) (by simp) hz
  have hkept : ({rootPage, stackPage} : Set Word) \ {rootPage} = {stackPage} := by
    have hne : stackPage ≠ rootPage := by decide
    ext p
    simp only [mem_sdiff, mem_insert_iff, mem_singleton_iff]
    grind
  rwa [hkept, insert_empty_eq] at hinv

/-- The two tables of the direct map. -/
lemma next_directMachine (h : riscv.next (directMachine.word p i) = some x) :
    p = rootPage ∧ x = pa2va 0x80400000#64 ∨ p = pa2va 0x80400000#64 ∧ x = pa2va 0x80401000#64 ∨
      p = pa2va 0x80401000#64 := by
  simp only [directMachine] at h
  split_ifs at h with h1 h2 h3
  · exact .inl ⟨h1.1, some.inj (h.symm.trans (by decide))⟩
  · exact .inr (.inl ⟨h2.1, some.inj (h.symm.trans (by decide))⟩)
  · exact .inr (.inr h3.1)
  · cases h

lemma kernelTables_directMachine : KernelTables {rootPage} directMachine := by
  have haside : ∀ x, ¬IsPage riscv directMachine x → Aside {rootPage} directMachine x :=
    fun x hx => ⟨fun ht => hx (inv_directMachine.isPage (o := .table) ht),
      fun hu => hx (inv_directMachine.isPage (o := .user) hu)⟩
  rintro r rfl i - - x hx
  obtain ⟨-, rfl⟩ | ⟨hne, -⟩ | hne := next_directMachine hx
  · refine ⟨haside _ (by rw [isPage_directMachine]; decide), fun j _ y hy => haside _ ?_⟩
    obtain ⟨hne, -⟩ | ⟨-, rfl⟩ | hne := next_directMachine hy
    · exact absurd hne (by decide)
    · rw [isPage_directMachine]
      decide
    · exact absurd hne (by decide)
  · exact absurd hne (by decide)
  · exact absurd hne (by decide)

/-- A process after `exec` that uses this root. -/
def rootProcess (vmArea : Fin nvma → Vma) : Process :=
  { execedProcess vmArea with pagetable := rootPage }

def directWorld (vmArea : Fin nvma → Vma) : World where
  files := ⟨fun _ => .zero, fun _ => rootProcess vmArea, 1, fun _ => none⟩
  machine := directMachine

variable {w : World} {a : MmapArgs} {q : Process} {start : Word}

lemma run_setProc (c : Fin nproc) (q : Process) :
    (onFiles (setProc c q)).run w = .ok ((), { w with files := w.files.setProc c q }) := rfl

lemma run_mmap_anonymous (hfile : mmapCheck (w.files.proc c) a = .ok none)
    (h : doMmap (w.files.proc proc0).stackBottom (w.files.proc c) a = .ok (start, q)) :
    (mmap c a).run w = .ok (start.toInt, { w with files := w.files.setProc c q }) := by
  rw [mmap, run_bind_ok (run_gets _ w)]
  simp only [doMmap, hfile] at h ⊢
  cases hrange : findFreeRange (w.files.proc proc0).stackBottom (w.files.proc c)
      (pgRoundUp a.len) with
  | none =>
    rw [hrange] at h
    cases h
  | some r =>
    obtain ⟨i, q'⟩ := r
    rw [hrange] at h
    cases h
    simp only
    have htwice : ∀ v, (w.files.setProc c q').setProc c (Process.setArea q' i v) =
        w.files.setProc c (Process.setArea q' i v) := by
      intro v
      simp [Files.setProc]
    rw [run_bind_ok (run_setProc c q'), run_bind_ok (run_setProc c _), htwice]
    rfl

/-- The process after mapping a range, as the first of its areas. -/
def mappedFirst (len : Word) : Process :=
  Process.setArea (rootProcess fun _ => Vma.zero) ⟨0, by decide⟩
    (newArea (anonymousMmap len) none mmapStart)

def mappedWorld (p : Process) : World :=
  { directWorld fun _ => Vma.zero with
    files := (directWorld fun _ => Vma.zero).files.setProc proc0 p }

lemma run_mmap_mapped
    (hcheck : mmapCheck p a = .ok none) (hmap : doMmap p.stackBottom p a = .ok (start, q)) :
    (mmap proc0 a).run (mappedWorld p) = .ok (start.toInt, mappedWorld q) := by
  have hproc : (mappedWorld p).files.proc proc0 = p := by simp [mappedWorld, Files.setProc]
  have htwice : (mappedWorld p).files.setProc proc0 q = (mappedWorld q).files := by
    simp [mappedWorld, Files.setProc]
  rw [run_mmap_anonymous (by rwa [hproc]) (by rwa [hproc]), htwice]
  rfl

lemma mapped_first (hcheck : mmapCheck (rootProcess fun _ => Vma.zero) (anonymousMmap len) =
    .ok none)
    (hfit : FitsBelow 0x3fffff0000#64 (pgRoundUp len)) (hlen : len.toNat ≤ 2 ^ 64 - 4096) :
    AreaStep proc0 (directWorld fun _ => Vma.zero) (.mmap (anonymousMmap len))
      (mappedWorld (mappedFirst len)) := by
  have hfirst : FirstFit (rootProcess fun _ => Vma.zero) (pgRoundUp len) mmapStart := by
    refine ⟨?_, by decide, 0, by decide, by simp [candidate], by simp⟩
    simp [clashes, Vma.overlaps, rootProcess, execedProcess, Vma.zero]
  have hmap : doMmap 0x3fffff0000#64 (rootProcess fun _ => Vma.zero) (anonymousMmap len) =
      .ok (mmapStart, mappedFirst len) :=
    doMmap_eq_ok.mpr ⟨none, ⟨0, by decide⟩, hcheck, hfit, hfirst, rfl, rfl⟩
  have hrun : (mmap proc0 (anonymousMmap len)).run (directWorld fun _ => Vma.zero) =
      .ok (mmapStart.toInt, mappedWorld (mappedFirst len)) := run_mmap_anonymous hcheck hmap
  exact .mmap (by decide) (by decide) hlen hrun

/-- All addresses up to the last page before the stack are mapped, and then a range that does not
fit into that page. -/
def mappedSecond : Process :=
  Process.setArea (mappedFirst 0x3ffbfef000#64) ⟨1, by decide⟩
    (newArea (anonymousMmap 0x88011000#64) none 0x3ffffef000#64)

lemma mapped_second :
    AreaStep proc0 (mappedWorld (mappedFirst 0x3ffbfef000#64)) (.mmap (anonymousMmap 0x88011000#64))
      (mappedWorld mappedSecond) := by
  have hcand : candidate 0x3ffbfef = 0x3ffffef000#64 := by decide
  have hfirst : FirstFit (mappedFirst 0x3ffbfef000#64) 0x88011000#64 0x3ffffef000#64 := by
    rw [← hcand]
    exact firstFit_behind (i := ⟨0, by decide⟩) (by decide) (by decide) (by decide) (by decide)
      (by decide) (by decide) (by decide) (by decide)
  have hcheck : mmapCheck (mappedFirst 0x3ffbfef000#64) (anonymousMmap 0x88011000#64) =
    .ok none := by
    decide
  have hmap : doMmap 0x3fffff0000#64 (mappedFirst 0x3ffbfef000#64) (anonymousMmap 0x88011000#64) =
      .ok (0x3ffffef000#64, mappedSecond) :=
    doMmap_eq_ok.mpr
      ⟨none, ⟨1, by decide⟩, hcheck, ⟨by decide, by decide⟩, hfirst, by decide, rfl⟩
  exact .mmap (by decide) (by decide) (by decide) (run_mmap_mapped hcheck hmap)

/-- In every state of a run, a call of `do_munmap` that returns keeps what it promises (if it
returns 0, the range is unmapped exactly; if it returns an error number, nothing has changed) if and
only if it is rejected or the range holds no valid entry at or above `USER_VA_TOP`; and a call of
`do_mmap` that returns an error number changes nothing. -/
theorem munmap_exact_iff (c : Fin nproc) (w₀ w w' : World) (acts : List AreaAction)
    (roots kept : Set Word) (addr len : Word) (ret : Int)
    (h₀ : ∀ i, ((w₀.files.proc c).vmArea i).used = false) (hrun : Run (AreaStep c) w₀ acts w)
    (hinv : Inv riscv roots kept w.machine) (hkernel : KernelTables roots w.machine)
    (hroot : (w.files.proc c).pagetable ∈ roots)
    (hcall : (munmap c addr len).run w = .ok (ret, w')) :
    (((ret = 0 → UnmapsRange roots c w w' addr len) ∧ (ret < 0 → w' = w)) ↔
      (Cuts (w.files.proc c) addr len →
        NoKernelEntry w.machine (w.files.proc c).pagetable (pageNo addr) (pagesOf len))) ∧
    ∀ a ret' w'', (mmap c a).run w = .ok (ret', w'') → ret' < 0 → w'' = w := by
  have htidy := tidyAreas_of_run h₀ hrun
  constructor
  · obtain ⟨e, hbad, rfl, rfl⟩ | ⟨q, m, hok, rfl, hq, hm, hfence⟩ := run_munmap_eq_ok hcall
    · have hpos := doMunmap_error hbad
      have hnot : ¬Cuts (w'.files.proc c) addr len := by
        rw [← htidy.doMunmap_iff, hbad]
        simp
      exact ⟨fun _ hcuts => absurd hcuts hnot, fun _ => ⟨fun h => by omega, fun _ => rfl⟩⟩
    · have hiff := unmapsRange_iff htidy hinv hkernel hroot hok hq hm hfence
      have hcuts := cuts_of_doMunmap hok
      rw [imp_iff_right hcuts, imp_iff_right rfl, hiff]
      exact and_iff_left fun h => absurd h (by decide)
  · intro a ret' w'' hmmap hneg
    obtain ⟨e, -, -, hw⟩ | ⟨start, q, hok, rfl, -⟩ := run_mmap_eq_ok hmmap
    · exact hw
    · exact absurd (toInt_nonneg_of_doMmap hok) (by omega)

/-- The first of two pages is cut off an area. -/
theorem munmap_exact_iff_first :
    ∃ w', Run (AreaStep proc0) (directWorld fun _ => Vma.zero) [.mmap (anonymousMmap 0x2000#64)]
        (mappedWorld (mappedFirst 0x2000#64)) ∧
      (munmap proc0 mmapStart 0x1000#64).run (mappedWorld (mappedFirst 0x2000#64)) = .ok (0, w') ∧
      UnmapsRange {rootPage} proc0
        (mappedWorld (mappedFirst 0x2000#64)) w' mmapStart 0x1000#64 := by
  have hrun : Run (AreaStep proc0) (directWorld fun _ => Vma.zero) [.mmap (anonymousMmap 0x2000#64)]
      (mappedWorld (mappedFirst 0x2000#64)) :=
    .cons (mapped_first (by decide) ⟨by decide, by decide⟩ (by decide)) (.nil _)
  obtain ⟨ret, w', hcall, hpost⟩ : Total (munmap proc0 mmapStart 0x1000#64)
      (mappedWorld (mappedFirst 0x2000#64)) fun ret _ => (ret == 0) = true :=
    .of_eval (by decide +kernel)
  obtain rfl : ret = 0 := by simpa using hpost
  have hlow : NoKernelEntry (mappedWorld (mappedFirst 0x2000#64)).machine rootPage
      (pageNo mmapStart) (pagesOf 0x1000#64) := by
    intro k hk hup
    have hpages : pagesOf 0x1000#64 = 1 := by decide
    have hstart : pageNo mmapStart = 0x4000 := by decide
    unfold userPages at hup
    omega
  refine ⟨w', hrun, hcall, ?_⟩
  exact ((munmap_exact_iff proc0 _ _ w' _ {rootPage} {stackPage} _ _ 0 (fun _ => rfl) hrun
    inv_directMachine kernelTables_directMachine rfl hcall).1.mpr fun _ => hlow).1 rfl

/-- The last page of the second area lies over the kernel page in the direct map. It is cut off: the
call returns 0, and the kernel address of the page has lost its entry. -/
theorem munmap_kernel_page :
    ∃ w', Run (AreaStep proc0) (directWorld fun _ => Vma.zero)
        [.mmap (anonymousMmap 0x3ffbfef000#64), .mmap (anonymousMmap 0x88011000#64)]
        (mappedWorld mappedSecond) ∧
      Inv riscv {rootPage} {stackPage} (mappedWorld mappedSecond).machine ∧
      KernelTables {rootPage} (mappedWorld mappedSecond).machine ∧
      (munmap proc0 0x4087fff000#64 0x1000#64).run (mappedWorld mappedSecond) = .ok (0, w') ∧
      ¬InRange 0x4087fff000#64 0x1000#64 stackPage ∧
      leafAt riscv (mappedWorld mappedSecond).machine rootPage (pageNo stackPage) =
        some (leafPte 0x87fff000#64 (pteR ||| pteW)) ∧
      leafAt riscv w'.machine rootPage (pageNo stackPage) = none ∧
      stackPage ∈ w'.machine.freelist := by
  have hrun : Run (AreaStep proc0) (directWorld fun _ => Vma.zero)
      [.mmap (anonymousMmap 0x3ffbfef000#64), .mmap (anonymousMmap 0x88011000#64)]
      (mappedWorld mappedSecond) :=
    .cons (mapped_first (by decide) ⟨by decide, by decide⟩ (by decide))
      (.cons mapped_second (.nil _))
  obtain ⟨ret, w', hcall, hpost⟩ : Total (munmap proc0 0x4087fff000#64 0x1000#64)
      (mappedWorld mappedSecond) fun ret w' => (ret == 0 &&
        (leafAt riscv w'.machine rootPage (pageNo stackPage)).isNone &&
        w'.machine.freelist.contains stackPage) = true :=
    .of_eval (by decide +kernel)
  simp only [Bool.and_eq_true, beq_iff_eq, isNone_iff_eq_none, List.contains_iff_mem] at hpost
  obtain ⟨⟨rfl, hnone⟩, hfree⟩ := hpost
  exact ⟨w', hrun, inv_directMachine, kernelTables_directMachine,
    hcall, by decide, by decide, hnone,
    hfree⟩

end FrostVista.Riscv
