import FrostVista.Riscv.Mapping

/-!
# Page faults

Contracts of the fault handlers. A handler that allocates either maps one fresh page (`Faulted`) or
leaves every mapping and every page in use as it was (`Stable`). Resolving a copy-on-write fault
replaces the page of one entry by a private, writable copy (`Resolved`).
-/
namespace FrostVista.Riscv

open Lib Lib.Comp Lib.Radix Lib.RefCount

variable {roots kept : Set Word} {m m' m'' : Machine} {r q va perm : Word} {v : Nat}

lemma isFlags_heap : IsFlags (pteV ||| pteR ||| pteW ||| pteU) := by
  intro k hk
  simp
  omega

/-- The outcome of a handler that maps a fresh page: it lacked memory, or the page is mapped. -/
def FaultPost (roots kept : Set Word) (m : Machine) (r : Word) (v : Nat) (perm : Word)
    (c : Nat → Word) (ret : Ret) (m' : Machine) : Prop :=
  match ret with
  | .ok _ => missing riscv m r v < m.freelist.length ∧
      ∃ q, Faulted riscv roots kept m m' r v (leafPte (va2pa q) perm) c
  | .error e => e = .noMem ∧ m.freelist.length ≤ missing riscv m r v ∧ Stable riscv roots kept m m'

/-- What a handler that returns has done: mapped a fresh page at a free place, or nothing. -/
def FaultEnsured (roots kept : Set Word) (m : Machine) (r : Word) (v : Nat) (perm : Word)
    (c : Nat → Word) (ret : Ret) (m' : Machine) : Prop :=
  match ret with
  | .ok _ => leafAt riscv m r v = none ∧
      ∃ q, Faulted riscv roots kept m m' r v (leafPte (va2pa q) perm) c
  | .error _ => Stable riscv roots kept m m'

section Fresh

variable {ps : List Word}

section
variable (h : Inv riscv roots kept m) (hf : m.freelist = q :: ps) (c : Nat → Word) (hr : r ∈ roots)
  (ha : va.toNat % 4096 = 0) (hv : pageNo va < userPages) (hn : leafAt riscv m r (pageNo va) = none)
  (hp : IsFlags perm)
include h hf c hr ha hv hn hp

lemma mapFresh_total :
    Total (mappages r va (va2pa q) 4096#32 perm) (filled m q c) fun ret m' =>
      match ret with
      | .ok _ => missing riscv m r (pageNo va) ≤ ps.length ∧
          Faulted riscv roots kept m m' r (pageNo va) (leafPte (va2pa q) perm) c
      | .error e => e = .noMem ∧ ps.length < missing riscv m r (pageNo va) ∧
          Grew riscv roots (insert q kept) (filled m q c) m' := by
  have hi := inv_filled h hf c
  have hq : q ∈ insert q kept := Set.mem_insert q kept
  have hmiss := missing_filled (c := c) h hf hr hv
  have hfl : (filled m q c).freelist = ps := by simp [hf]
  have hn' : leafAt riscv (filled m q c) r (pageNo va) = none := by
    rw [leafAt_congr (filled_table h hf c) hr hv, hn]
  obtain ⟨ret, m', hrun, hpost⟩ := mappages_fresh hi hr ha hv hn' hq (by simp) hp
  refine ⟨ret, m', hrun, ?_⟩
  cases ret with
  | error e =>
    obtain ⟨he, hlt, g⟩ := hpost
    rw [hmiss, hfl] at hlt
    exact ⟨he, hlt, g⟩
  | ok u =>
    obtain ⟨hle, hinv, hm, hpage⟩ := hpost
    rw [hmiss, hfl] at hle
    have hfree : mapping riscv roots m (r, pageNo va) = none := by simp [mapping_of_mem hr hv, hn]
    exact ⟨hle, faulted_of_mapsTo h hf hm hinv hpage hfree⟩

/-- The end of all three handlers: map the page, or give it back if that fails. -/
lemma mapOrFree_total : Total (do
      match ← mappages r va (va2pa q) 4096#32 perm with
      | .ok _ => pure (.ok ())
      | .error e =>
        kfree riscv q
        pure (.error e)) (filled m q c) (FaultPost roots kept m r (pageNo va) perm c) := by
  refine (mapFresh_total h hf c hr ha hv hn hp).bind fun ret m' hpost => ?_
  cases ret with
  | ok u =>
    obtain ⟨hle, hm⟩ := hpost
    refine Total.pure ⟨?_, q, hm⟩
    rw [hf, List.length_cons]
    omega
  | error e =>
    obtain ⟨rfl, hlt, g⟩ := hpost
    obtain ⟨hrun, hs⟩ := stable_giveBack h hf g
    refine ⟨.error .noMem, m'.freed q, ?_, rfl, ?_, hs⟩
    · rw [run_bind_ok hrun]
      rfl
    · rw [hf, List.length_cons]
      omega

end

/-- Without knowing that the place is free: a result shows that it was. -/
lemma mapOrFree_ensures (h : Inv riscv roots kept m) (hf : m.freelist = q :: ps) (c : Nat → Word)
    (hr : r ∈ roots) (hv : pageNo va < userPages) (hp : IsFlags perm) : Ensures (do
      match ← mappages r va (va2pa q) 4096#32 perm with
      | .ok _ => pure (.ok ())
      | .error e =>
        kfree riscv q
        pure (.error e)) (filled m q c) (FaultEnsured roots kept m r (pageNo va) perm c) := by
  by_cases ha : va.toNat % 4096 = 0
  · cases hl : leafAt riscv m r (pageNo va) with
    | none =>
      refine (mapOrFree_total h hf c hr ha hv hl hp).ensures.mono fun ret m' hpost => ?_
      cases ret with
      | ok _ => exact ⟨hl, hpost.2⟩
      | error e => exact hpost.2.2
    | some e =>
      refine .bind_error (run_mappages_remap (e := e) ha ?_)
      rw [leafAt_congr (filled_table h hf c) hr hv, hl]
  · exact .bind_error (run_mappages_unaligned ha _)

end Fresh

lemma pgRoundDown_aligned (va : Word) : (pgRoundDown va).toNat % 4096 = 0 := by
  rw [pgRoundDown_toNat]
  omega

section Handlers

variable {fs : FileSys} {p : Process} {vma : Vma} {file : Nat}

section
variable (h : Inv riscv roots kept m)
include h

lemma faultPost_nil (hf : m.freelist = []) (c : Nat → Word) :
    FaultPost roots kept m r v perm c (.error .noMem) m :=
  ⟨rfl, by simp [hf], .refl h⟩

lemma handlePageFault_total (hr : r ∈ roots)
    (hv : pageNo va < userPages) (hn : leafAt riscv m r (pageNo va) = none) :
    Total (handlePageFault p r va) m fun ret m' =>
      if p.stackBottom < pgRoundDown va ∨ pgRoundDown va < p.heapBottom then
        ret = .error .fault ∧ m' = m
      else FaultPost roots kept m r (pageNo va) (pteV ||| pteR ||| pteW ||| pteU) (fun _ => 0) ret
        m' := by
  unfold handlePageFault
  by_cases h1 : p.stackBottom < pgRoundDown va
  · simp only [h1, if_true, true_or]
    exact Total.pure ⟨rfl, rfl⟩
  by_cases h2 : pgRoundDown va < p.heapBottom
  · simp only [h1, h2, if_true, if_false, or_true]
    exact Total.pure ⟨rfl, rfl⟩
  simp only [h1, h2, if_false, or_self]
  cases hf : m.freelist with
  | nil => exact .bind_ok (run_kalloc_nil h.unlocked hf) (.pure (faultPost_nil h hf _))
  | cons q ps =>
    have hpage := pageNo_pgRoundDown va
    rw [← hpage] at hv hn ⊢
    have ht := mapOrFree_total h hf (fun _ => 0) hr (pgRoundDown_aligned va) hv hn isFlags_heap
    rw [filled_zero] at ht
    exact .bind_ok (run_kalloc_cons h.unlocked hf) ht

lemma handleAnonymousVmaFault_total (hr : p.pagetable ∈ roots) (ha : va.toNat % 4096 = 0)
    (hv : pageNo va < userPages) (hn : leafAt riscv m p.pagetable (pageNo va) = none) :
    Total (handleAnonymousVmaFault p vma va) m
      (FaultPost roots kept m p.pagetable (pageNo va) (pteFromPerm vma.vmPageProt)
        fun _ => 0) := by
  unfold handleAnonymousVmaFault
  cases hf : m.freelist with
  | nil => exact .bind_ok (run_kalloc_nil h.unlocked hf) (.pure (faultPost_nil h hf _))
  | cons q ps =>
    have ht := mapOrFree_total h hf (fun _ => 0) hr ha hv hn
      (isFlags_pteFromPerm vma.vmPageProt)
    rw [filled_zero] at ht
    exact .bind_ok (run_kalloc_cons h.unlocked hf) ht

/-! The same handlers without knowing whether the place is free or a lock is held. -/

lemma handlePageFault_ensures (hr : r ∈ roots) (hv : pageNo va < userPages) :
    Ensures (handlePageFault p r va) m fun ret m' => FaultEnsured roots kept m r (pageNo va)
      (pteV ||| pteR ||| pteW ||| pteU) (fun _ => 0) ret m' ∧
      (ret = .ok () → ¬p.stackBottom < pgRoundDown va ∧ ¬pgRoundDown va < p.heapBottom) := by
  have hpage := pageNo_pgRoundDown va
  rw [← hpage] at hv ⊢
  unfold handlePageFault
  refine .ite (fun _ => .pure ⟨.refl h, by simp⟩) fun h1 => ?_
  refine .ite (fun _ => .pure ⟨.refl h, by simp⟩) fun h2 => ?_
  cases hf : m.freelist with
  | nil => exact .bind_ok (run_kalloc_nil h.unlocked hf) (.pure ⟨.refl h, by simp⟩)
  | cons q ps =>
    have he := mapOrFree_ensures h hf (fun _ => 0) hr hv isFlags_heap
    rw [filled_zero] at he
    exact .bind_ok (run_kalloc_cons h.unlocked hf)
      (he.mono fun ret m' hpost => ⟨hpost, fun _ => ⟨h1, h2⟩⟩)

section
variable (hr : p.pagetable ∈ roots) (hv : pageNo va < userPages)
include hr hv

lemma handleAnonymousVmaFault_ensures :
    Ensures (handleAnonymousVmaFault p vma va) m (FaultEnsured roots kept m p.pagetable (pageNo va)
      (pteFromPerm vma.vmPageProt) fun _ => 0) := by
  unfold handleAnonymousVmaFault
  cases hf : m.freelist with
  | nil => exact .bind_ok (run_kalloc_nil h.unlocked hf) (.pure (.refl h))
  | cons q ps =>
    have he := mapOrFree_ensures h hf (fun _ => 0) hr hv (isFlags_pteFromPerm vma.vmPageProt)
    rw [filled_zero] at he
    exact .bind_ok (run_kalloc_cons h.unlocked hf) he

/-- A wait with a lock held stops the kernel, so what is returned is as without waiting. -/
lemma handleFileVmaFault_ensures :
    Ensures (handleFileVmaFault fs p vma file va) m fun ret m' => ∃ c,
      FaultEnsured roots kept m p.pagetable (pageNo va) (pteFromPerm vma.vmPageProt) c ret m' := by
  unfold handleFileVmaFault
  cases hf : m.freelist with
  | nil => exact .bind_ok (run_kalloc_nil h.unlocked hf) (.pure ⟨fun _ => 0, .refl h⟩)
  | cons q ps =>
    refine .bind_ok (run_kalloc_cons h.unlocked hf) (.bind_ok (run_modify _ _) ?_)
    rw [zeroPage_taken]
    by_cases hw : m.held = [] ∨ (fs file (vma.offset va)).waits = []
    · have hread := run_vfsReadAt (p := p) (show (m.taken q).held = [] ∨ _ from hw)
      cases hd : (fs file (vma.offset va)).data with
      | none =>
        rw [hd] at hread
        have g : Grew riscv roots (insert q kept) (filled m q fun _ => 0) (m.taken q) := by
          rw [filled_zero]
          exact .refl (h.taken hf).toWf
        obtain ⟨hrun, hs⟩ := stable_giveBack h hf g
        exact .bind_ok hread (.bind_ok hrun (.pure ⟨fun _ => 0, hs⟩))
      | some bytes =>
        rw [hd] at hread
        obtain ⟨c, hc⟩ := (m.taken q).writeBytes_eq_setPage q 0 (bytes.take pgSize)
        refine .bind_ok hread (.bind_ok (run_modify _ _) ?_)
        rw [hc]
        exact (mapOrFree_ensures h hf c hr hv (isFlags_pteFromPerm vma.vmPageProt)).mono
          fun ret m' hpost => ⟨c, hpost⟩
    · push Not at hw
      rcases run_vfsReadAt_locked (p := p) (m := m.taken q) hw.1 hw.2 with he | he
      · exact .bind_error he
      · exact .bind_error he

lemma handleVmaFault_ensures : Ensures (handleVmaFault fs p va) m fun ret m' => match ret with
      | .ok _ => ∃ vma c, findOverlappingVma p (pgRoundDown va) 4096#64 = some vma ∧
          (vma.file = none → c = fun _ => 0) ∧
          FaultEnsured roots kept m p.pagetable (pageNo va) (pteFromPerm vma.vmPageProt) c
            (.ok ()) m'
      | .error _ => Stable riscv roots kept m m' := by
  have hpage := pageNo_pgRoundDown va
  rw [← hpage] at hv ⊢
  unfold handleVmaFault
  simp only []
  cases hvma : findOverlappingVma p (pgRoundDown va) 4096#64 with
  | none => exact .pure (.refl h)
  | some vma =>
    cases hfile : vma.file with
    | none =>
      simp only [hfile]
      refine (handleAnonymousVmaFault_ensures h hr hv).mono fun ret m' hpost => ?_
      cases ret with
      | ok _ => exact ⟨vma, _, rfl, fun _ => rfl, hpost⟩
      | error e => exact hpost
    | some file =>
      simp only [hfile]
      refine (handleFileVmaFault_ensures h hr hv).mono fun ret m' hpost => ?_
      obtain ⟨c, hpost⟩ := hpost
      cases ret with
      | ok _ => exact ⟨vma, c, rfl, by simp [hfile], hpost⟩
      | error e => exact hpost

end

/-! ## Copy-on-write -/

/-- At a valid entry `handle_cow_fault` fails only for lack of memory. -/
lemma handleCowFault_total (hr : r ∈ roots)
    (hv : pageNo va < userPages) (hl : leafAt riscv m r (pageNo va) = some e0) :
    Total (handleCowFault r va) m fun ret m' =>
      match ret with
      | .ok _ => ∃ q, Resolved riscv roots kept m m' r (pageNo va) e0 (resolvedPte (va2pa q) e0)
      | .error e => e = .noMem ∧ m.freelist = [] ∧ m' = m := by
  obtain ⟨p, i, hs, hw, hb⟩ := leafAt_eq_some.mp hl
  have s : UserSlot riscv roots m r (pageNo va) p i := ⟨hr, hv, hs⟩
  have hwalk : (walk riscv r (pgRoundDown va) false).run m = .ok (some (p, i), m) := by
    rw [run_walk_lookup, pageNo_pgRoundDown, hs]
  rw [riscv_valid] at hb
  unfold handleCowFault
  refine .bind_ok hwalk (.bind_ok (run_readPte m p i) ?_)
  rw [hw]
  cases hf : m.freelist with
  | nil => exact .bind_ok (run_kalloc_nil h.unlocked hf) (.pure ⟨rfl, rfl, rfl⟩)
  | cons q ps =>
    have hfree : q ∈ m.freelist := by simp [hf]
    have huser : Held (mapping riscv roots m) (riscv.page e0) := ⟨_, s.mapping_leaf hl⟩
    have hne : riscv.page e0 ≠ q := by
      rintro rfl
      exact h.not_held_of_free hfree huser
    have hi := inv_filled h hf (m.word (riscv.page e0))
    have hpage : IsPage riscv (filled m q (m.word (riscv.page e0))) (riscv.page e0) := by
      rw [isPage_congr (m := m) filled_kernelEnd]
      exact h.isPage (o := .user) huser
    have he := next_resolvedPte (h.isPage (o := .free) hfree) hb
    refine .bind_ok (run_kalloc_cons h.unlocked hf) (.bind_ok (run_modify _ _) ?_)
    rw [copyPage_taken hne]
    refine .bind_ok (run_kfree hi.unlocked hpage) (.bind_ok (run_storePte _ p i _) (.pure ?_))
    exact ⟨q, resolved_of_replace h s hl hf he⟩

end

/-- `is_cow_fault` reads the copy-on-write bit of a valid entry. -/
lemma run_isCowFault (m : Machine) (r va : Word) : (isCowFault r va).run m =
      .ok ((leafAt riscv m r (pageNo va)).any fun e => bit e 8, m) := by
  rw [isCowFault, run_bind_ok (run_walk_lookup m r _), pageNo_pgRoundDown]
  cases hs : slotAt riscv m r (pageNo va) with
  | none => simp [leafAt, hs]
  | some t =>
    simp only []
    rw [run_bind_ok (run_readPte m t.1 t.2), leafAt_of_slot hs]
    cases hb : bit (m.word t.1 t.2) 0 <;> simp [hb]

end Handlers

end FrostVista.Riscv
