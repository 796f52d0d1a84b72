import FrostVista.Riscv.Copy
import FrostVista.Riscv.Fork
import FrostVista.Library.Run

/-!
# Runs of the user-memory functions

The functions of `vm.c` on user page tables as the steps of a transition system. A state is the
machine together with the set of user page tables and the set of pages the kernel has allocated for
itself. Steps may come in any order and on any table; the addresses are user addresses.
-/
namespace FrostVista.Riscv

open Lib Lib.Comp Lib.Radix Lib.RefCount Function BitVec Option Machine Set

structure System where
  roots : Set Word
  kept : Set Word
  machine : Machine

/-- The trap handler's answer to a store fault on a copy-on-write page. -/
def storeFault (pagetable va : Word) : M Ret := do
  let cow ← isCowFault pagetable va
  if cow then handleCowFault pagetable va else pure (.error .fault)

/-- What happens before a store goes through: the trap handler resolves copy-on-write. -/
def beforeStore (pagetable va : Word) : M Ret := do
  let cow ← isCowFault pagetable va
  if cow then handleCowFault pagetable va else pure (.ok ())

/-- A store instruction, repeated by the processor after the trap. -/
def userStore (pagetable va : Word) (b : Byte) : M Ret := do
  match ← beforeStore pagetable va with
  | .error e => pure (.error e)
  | .ok _ =>
    match ← walk riscv pagetable va false with
    | none => pure (.error .fault)
    | some (p, i) =>
      let pte ← readPte p i
      if has pte pteV && has pte pteW && has pte pteU then
        modify fun m => m.writeByte (riscv.page pte) (va.toNat % 4096) b
        pure (.ok ())
      else pure (.error .fault)

inductive Op where
  | uvmalloc (r va size perm : Word)
  | pageFault (p : Process) (r va : Word)
  | anonymousFault (p : Process) (vma : Vma) (va : Word)
  | fileFault (fs : FileSys) (p : Process) (vma : Vma) (file : Nat) (va : Word)
  | fork (old new : Word)
  | storeFault (r va : Word)
  | store (r va : Word) (b : Byte)
  | copyout (fs : FileSys) (p : Process) (dst : Word) (src : List Byte)
  | kvmunmap (r va size : Word)
  | uvmunmap (r va : Word) (npage : BitVec 32)

namespace Op

def code : Op → M Ret
  | uvmalloc r va size perm => Riscv.uvmalloc r va size perm
  | pageFault p r va => handlePageFault p r va
  | anonymousFault p vma va => handleAnonymousVmaFault p vma va
  | fileFault fs p vma file va => handleFileVmaFault fs p vma file va
  | fork old new => uvmcopy old new
  | storeFault r va => Riscv.storeFault r va
  | store r va b => userStore r va b
  | copyout fs p dst src => Riscv.copyout fs p p.pagetable dst src
  | kvmunmap r va size => do Riscv.kvmunmap r va size true; pure (.ok ())
  | uvmunmap r va npage => do Riscv.uvmunmap r va npage true; pure (.ok ())

/-- The tables are tables of the system and the addresses lie below `USER_VA_TOP`. -/
def OnUserMemory (roots : Set Word) : Op → Prop
  | uvmalloc r va size _ => r ∈ roots ∧
      pageNo va + pagesBelow (pgRoundDown va) (pgRoundUp (va + size)) ≤ userPages
  | pageFault _ r va => r ∈ roots ∧ pageNo va < userPages
  | anonymousFault p _ va => p.pagetable ∈ roots ∧ pageNo va < userPages
  | fileFault _ p vma file va => p.pagetable ∈ roots ∧ pageNo va < userPages ∧
      vma.file = some file
  | fork old new => old ∈ roots ∧ new ∈ roots ∧ old ≠ new
  | storeFault r va => r ∈ roots ∧ pageNo va < userPages
  | store r va _ => r ∈ roots ∧ pageNo va < userPages
  | copyout _ p dst src => p.pagetable ∈ roots ∧ dst.toNat + src.length ≤ 2 ^ 38
  | kvmunmap r va size => r ∈ roots ∧ va.toNat + size.toNat ≤ 2 ^ 38
  | uvmunmap r va npage => r ∈ roots ∧
      pageNo va + pagesBelow va (va + npage.signExtend 64 * 4096#64) ≤ userPages

end Op

inductive Action where
  | create
  | take
  | give (q : Word)
  | call (op : Op) (ret : Ret)

inductive Step : System → Action → System → Prop where
  | create {s : System} {q : Word} {m : Machine} :
      uvmcreate.run s.machine = .ok (q, m) → Step s .create ⟨insert q s.roots, s.kept, m⟩
  | take {s : System} {q : Word} {m : Machine} :
      kalloc.run s.machine = .ok (some q, m) → Step s .take ⟨s.roots, insert q s.kept, m⟩
  | give {s : System} {q : Word} {m : Machine} :
      q ∈ s.kept → (kfree riscv q).run s.machine = .ok ((), m) →
      Step s (.give q) ⟨s.roots, s.kept \ {q}, m⟩
  | call {s : System} {op : Op} {ret : Ret} {m : Machine} :
      op.OnUserMemory s.roots → op.code.run s.machine = .ok (ret, m) →
      Step s (.call op ret) ⟨s.roots, s.kept, m⟩

def System.Ok (s : System) : Prop := Inv riscv s.roots s.kept s.machine

variable {roots kept : Set Word} {m m' : Machine} {r va : Word}

/-- The table and leaf facts behind every mapped page: it stays in user hands or becomes free. -/
structure Tracked (roots kept : Set Word) (m m' : Machine) : Prop extends
    Frame riscv roots kept m m' where
  inv : Inv riscv roots kept m'
  notTable : ∀ p, Held (mapping riscv roots m) p → ¬IsTable riscv roots m' p

lemma tracked_of_keeps (k : Keeps riscv roots kept m m') : Tracked roots kept m m' :=
  ⟨k.toFrame, k.inv, fun p hp => k.inv.not_table_of_held (k.mapped p hp)⟩

lemma tracked_of_unmaps (h : Inv riscv roots kept m)
    (u : Unmaps roots kept m m' r v n) : Tracked roots kept m m' :=
  ⟨u.toFrame, u.inv, fun p hp ht => h.not_table_of_held hp (u.newTable p ht)⟩

lemma tracked_of_resolved (h : Inv riscv roots kept m)
    (u : Resolved riscv roots kept m m' r v e0 e) : Tracked roots kept m m' :=
  ⟨u.toFrame, u.inv, fun p hp ht => h.not_table_of_held hp (u.newTable p ht)⟩

/-- A page enters the free list exactly when its last mapping goes away. -/
lemma Tracked.free_iff (h : Inv riscv roots kept m) (t : Tracked roots kept m m') (p : Word) :
    p ∉ m.freelist ∧ p ∈ m'.freelist ↔
      Held (mapping riscv roots m) p ∧ ¬Held (mapping riscv roots m') p := by
  constructor
  · rintro ⟨hf, hf'⟩
    have hpage : IsPage riscv m p := by
      rw [← isPage_congr t.kernelEnd]
      exact t.inv.isPage (o := .free) hf'
    obtain ⟨o, ho⟩ := h.owner.owned p hpage
    refine ⟨?_, t.inv.not_held_of_free hf'⟩
    cases o with
    | free => exact absurd ho hf
    | table => exact absurd rfl (t.inv.owner_ne .table .free (t.table p ho) hf' (by simp))
    | user => exact ho
    | kernel => exact absurd ho (t.inv.not_kept_of_free hf')
  · rintro ⟨hu, hu'⟩
    have hpage : IsPage riscv m' p := by
      rw [isPage_congr t.kernelEnd]
      exact h.isPage (o := .user) hu
    obtain ⟨o, ho⟩ := t.inv.owner.owned p hpage
    refine ⟨fun hf => h.not_held_of_free hf hu, ?_⟩
    cases o with
    | free => exact ho
    | table => exact absurd ho (t.notTable p hu)
    | user => exact absurd ho hu'
    | kernel => exact absurd hu (h.not_held_of_kept ho)

/-! ## What one call does -/

section Calls

variable {s : System} {v : Nat} {fs : FileSys} {p : Process} {dst : Word}
  {src : List Byte} {b : Byte}

section
variable (h : Inv riscv roots kept m) (hr : r ∈ roots) (hv : pageNo va < userPages)
include h hr hv

lemma storeFault_total :
    Total (storeFault r va) m fun ret m' => match ret with
      | .ok _ => ∃ e q, leafAt riscv m r (pageNo va) = some e ∧ bit e 8 = true ∧
          Resolved riscv roots kept m m' r (pageNo va) e (resolvedPte (va2pa q) e)
      | .error _ => m' = m := by
  unfold storeFault
  refine .bind_ok (run_isCowFault m r va) ?_
  cases hl : leafAt riscv m r (pageNo va) with
  | none => exact .pure rfl
  | some e =>
    cases hb : bit e 8 with
    | false =>
      simp only [any_some, hb, Bool.false_eq_true, if_false]
      exact .pure rfl
    | true =>
      simp only [any_some, hb, if_true]
      refine (handleCowFault_total h hr hv hl).mono fun ret m' hpost => ?_
      cases ret with
      | ok _ =>
        obtain ⟨q, hres⟩ := hpost
        exact ⟨e, q, rfl, hb, hres⟩
      | error err => exact hpost.2.2

lemma beforeStore_total :
    Total (beforeStore r va) m fun ret m' => match ret with
      | .ok _ => (leafAt riscv m r (pageNo va) = none ∧ m' = m) ∨
          ∃ e, leafAt riscv m r (pageNo va) = some e ∧ CowResolved roots kept m m' r (pageNo va) e
      | .error e => e = .noMem ∧ m' = m := by
  unfold beforeStore
  refine .bind_ok (run_isCowFault m r va) ?_
  cases hl : leafAt riscv m r (pageNo va) with
  | none => exact .pure (.inl ⟨rfl, rfl⟩)
  | some e =>
    cases hb : bit e 8 with
    | false =>
      simp only [any_some, hb, Bool.false_eq_true, if_false]
      exact .pure (.inr ⟨e, rfl, .inl ⟨hb, rfl⟩⟩)
    | true =>
      simp only [any_some, hb, if_true]
      refine (handleCowFault_total h hr hv hl).mono fun ret m' hpost => ?_
      cases ret with
      | ok _ => exact .inr ⟨e, rfl, .inr ⟨hb, hpost⟩⟩
      | error err => exact ⟨hpost.1, hpost.2.2⟩

/-- The outcome of a store: the byte is written to a private writable page, or nothing is. -/
def StorePost (roots kept : Set Word) (m : Machine) (r va : Word) (b : Byte) (ret : Ret)
    (m' : Machine) : Prop :=
  match ret with
  | .ok _ => ∃ e₀ m₁ e, leafAt riscv m r (pageNo va) = some e₀ ∧
      CowResolved roots kept m m₁ r (pageNo va) e₀ ∧ leafAt riscv m₁ r (pageNo va) = some e ∧
      bit e 2 = true ∧ bit e 4 = true ∧
      m' = m₁.writeByte (riscv.page e) (va.toNat % 4096) b
  | .error .noMem => m' = m
  | .error _ => (leafAt riscv m r (pageNo va) = none ∧ m' = m) ∨
      ∃ e₀ e, leafAt riscv m r (pageNo va) = some e₀ ∧
        CowResolved roots kept m m' r (pageNo va) e₀ ∧ leafAt riscv m' r (pageNo va) = some e ∧
        ¬(bit e 2 = true ∧ bit e 4 = true)

lemma userStore_total : Total (userStore r va b) m (StorePost roots kept m r va b) := by
  unfold userStore
  refine (beforeStore_total h hr hv).bind fun ret m1 hpost => ?_
  cases ret with
  | error e =>
    obtain ⟨rfl, rfl⟩ := hpost
    exact .pure rfl
  | ok _ =>
    refine .bind_ok (run_walk_lookup m1 r va) ?_
    rcases hpost with ⟨hl, rfl⟩ | ⟨e0, hl, hc⟩
    · cases hs : slotAt riscv m1 r (pageNo va) with
      | none => exact .pure (.inl ⟨hl, rfl⟩)
      | some t =>
        have hb : bit (m1.word t.1 t.2) 0 = false := by
          by_contra hc
          simp [leafAt_of_slot hs, hc] at hl
        refine .bind_ok (run_readPte m1 t.1 t.2) ?_
        rw [if_neg (by simp [hb])]
        exact .pure (.inl ⟨hl, rfl⟩)
    · obtain ⟨e, hl', -⟩ := hc.leaf hr hv hl
      obtain ⟨a, i, hs, hw, hb⟩ := leafAt_eq_some.mp hl'
      rw [riscv_valid] at hb
      rw [hs]
      refine .bind_ok (run_readPte m1 a i) ?_
      rw [hw]
      by_cases hperm : bit e 2 = true ∧ bit e 4 = true
      · rw [if_pos (by simp [hb, hperm])]
        exact .bind_ok (run_modify _ _) (.pure ⟨e0, m1, e, hl, hc, hl', hperm.1, hperm.2, rfl⟩)
      · have hperm' : ¬(has e pteV && has e pteW && has e pteU) = true := by
          simpa [hb] using hperm
        rw [if_neg hperm']
        exact .pure (.inr ⟨e0, e, hl, hc, hl', hperm⟩)

end

lemma tracked_of_cowResolved (h : Inv riscv roots kept m)
    (c : CowResolved roots kept m m' r v e) : Tracked roots kept m m' := by
  rcases c with ⟨-, rfl⟩ | ⟨-, q, hc⟩
  · exact tracked_of_keeps (.refl h)
  · exact tracked_of_resolved h hc

lemma writeByte_eq_setPage (m : Machine) (q : Word) (off : Nat) (b : Byte) :
    ∃ c, m.writeByte q off b = m.setPage q c := m.writeBytes_eq_setPage q off [b]

lemma Tracked.setPage (t : Tracked roots kept m m1) (hr : r ∈ roots)
    (hv : v < userPages) (hl : leafAt riscv m1 r v = some e) (c : Nat → Word) :
    Tracked roots kept m (m1.setPage (riscv.page e) c) := by
  have hheld : Held (mapping riscv roots m1) (riscv.page e) :=
    ⟨(r, v), mapping_eq_some.mpr ⟨hr, hv, e, hl, rfl⟩⟩
  have hnt := t.inv.not_table_of_held hheld
  have hcong : ∀ x, IsTable riscv roots m1 x → (m1.setPage (riscv.page e) c).word x =
    m1.word x := by
    intro x hx
    have hne : x ≠ riscv.page e := by
      rintro rfl
      exact hnt hx
    rw [setPage_word, update_of_ne hne]
  refine ⟨⟨fun r' hr' path hp x hx => ?_, fun x hx => ?_, t.held, t.kernelEnd, t.kernelTable⟩,
    t.inv.setPage hnt c, fun x hx => ?_⟩
  · rw [descend_congr hcong hr' hp]
    exact t.path r' hr' path hp x hx
  · have hne : x ≠ riscv.page e := t.inv.ne_of_kept hheld hx
    rw [setPage_word, update_of_ne hne]
    exact t.kernel x hx
  · rw [isTable_congr hcong]
    exact t.notTable x hx

lemma tracked_of_store (h : Inv riscv roots kept m) (hr : r ∈ roots)
    (hv : pageNo va < userPages) (hp : StorePost roots kept m r va b ret m') :
    Tracked roots kept m m' := by
  unfold StorePost at hp
  split at hp
  · obtain ⟨e0, m1, e, -, hc, hl, -, -, rfl⟩ := hp
    obtain ⟨c, hw⟩ := writeByte_eq_setPage m1 (riscv.page e) (va.toNat % 4096) b
    rw [hw]
    exact (tracked_of_cowResolved h hc).setPage hr hv hl c
  · subst hp
    exact tracked_of_keeps (.refl h)
  · rcases hp with ⟨-, rfl⟩ | ⟨e0, e, -, hc, -⟩
    · exact tracked_of_keeps (.refl h)
    · exact tracked_of_cowResolved h hc

lemma tracked_of_faultEnsured
    (hp : FaultEnsured roots kept m r v perm c ret m') : Tracked roots kept m m' := by
  cases ret with
  | ok _ =>
    obtain ⟨-, q, hf⟩ := hp
    exact tracked_of_keeps hf.toKeeps
  | error e => exact tracked_of_keeps hp.toKeeps

lemma CopyFailed.keeps (c : CopyFailed roots kept m m' old new) :
    Keeps riscv roots kept m m' := by
  obtain ⟨t, k, e, -, hc, -, -, hr⟩ := c
  exact hc.toKeeps.trans hr.toKeeps

end Calls

/-! ## The invariant along runs -/

section Runs

variable {s t : System} {op : Op} {ret : Ret} {a : Action}

lemma copyoutRun_inv (hr : r ∈ roots)
    (hd : dst.toNat + src.length ≤ 2 ^ 38) (h : Inv riscv roots kept m)
    (hc : CopyoutRun roots kept p r m dst src ret m') : Inv riscv roots kept m' := by
  induction hc with
  | done => exact h
  | stop hs hpost =>
    rename_i src' _
    have hlen : 0 < src'.length := List.length_pos_iff.mpr hs
    exact hpost.inv h hr (pageNo_lt_userPages (by omega))
  | round hs hpost _ ih =>
    rename_i dst' src' ret' _
    have hlen : 0 < src'.length := List.length_pos_iff.mpr hs
    have hle := chunk_le dst' src'.length
    refine ih ?_ (hpost.inv h hr (pageNo_lt_userPages (by omega)))
    rw [List.length_drop, toNat_add, toNat_ofNat]
    omega

lemma run_ok_of_bind_pure (h : (do x; pure (.ok ()) : M Ret).run m = .ok (ret, m')) :
    x.run m = .ok ((), m') := by
  obtain ⟨u, t, hx, hp⟩ := run_bind_eq_ok.mp h
  cases hp
  exact hx

lemma kvmunmap_unmaps {size : Word} (h : Inv riscv roots kept m)
    (ho : (Op.kvmunmap r va size).OnUserMemory roots)
    (hrun : (Op.kvmunmap r va size).code.run m = .ok (ret, m')) :
    Unmaps roots kept m m' r (pageNo va) (size.toNat / 4096) := by
  have hk := run_ok_of_bind_pure hrun
  have hal : ¬(va.toNat % pgSize ≠ 0 ∨ size.toNat % pgSize ≠ 0) := by
    intro hbad
    rw [Riscv.kvmunmap, if_pos hbad] at hk
    cases hk
  have ha : va.toNat % 4096 = 0 ∧ size.toNat = 4096 * (size.toNat / 4096) := by
    simp only [pgSize] at hal
    omega
  have hsum := ho.2
  exact (kvmunmap_total h ho.1 ha.1 ha.2 (by omega)).of_run hk

lemma call_tracked (h : Inv riscv roots kept m) (ho : op.OnUserMemory roots)
    (hc : ∀ fs p dst src, op ≠ .copyout fs p dst src) (hrun : op.code.run m = .ok (ret, m')) :
    Tracked roots kept m m' := by
  cases op with
  | uvmalloc r va size perm =>
    have hpost := (uvmalloc_meets h ho.1 rfl ho.2).1 ret m' hrun
    cases ret with
    | ok _ | error e => exact tracked_of_keeps hpost.toKeeps
  | pageFault p r va =>
    exact tracked_of_faultEnsured (handlePageFault_ensures h ho.1 ho.2 ret m' hrun).1
  | anonymousFault p vma va =>
    exact tracked_of_faultEnsured (handleAnonymousVmaFault_ensures h ho.1 ho.2 ret m' hrun)
  | fileFault fs p vma file va =>
    obtain ⟨c, hpost⟩ := handleFileVmaFault_ensures h ho.1 ho.2.1 ret m' hrun
    exact tracked_of_faultEnsured hpost
  | fork old new =>
    have hpost := (uvmcopy_meets h ho.2.1 ho.1 ho.2.2).1 ret m' hrun
    cases ret with
    | ok _ => exact tracked_of_keeps hpost.toKeeps
    | error e => exact tracked_of_keeps hpost.2.keeps
  | storeFault r va =>
    have hpost := (storeFault_total h ho.1 ho.2).of_run hrun
    cases ret with
    | ok _ =>
      obtain ⟨e, q, -, -, hres⟩ := hpost
      exact tracked_of_resolved h hres
    | error e =>
      obtain rfl : m' = m := hpost
      exact tracked_of_keeps (.refl h)
  | store r va b =>
    exact tracked_of_store h ho.1 ho.2 ((userStore_total h ho.1 ho.2).of_run hrun)
  | copyout fs p dst src => exact absurd rfl (hc fs p dst src)
  | kvmunmap r va size =>
    exact tracked_of_unmaps h (kvmunmap_unmaps h ho hrun)
  | uvmunmap r va npage =>
    exact tracked_of_unmaps h ((uvmunmap_total h ho.1 rfl ho.2).of_run (run_ok_of_bind_pure hrun))

lemma call_inv (h : Inv riscv roots kept m) (ho : op.OnUserMemory roots)
    (hrun : op.code.run m = .ok (ret, m')) : Inv riscv roots kept m' := by
  by_cases hc : ∀ fs p dst src, op ≠ .copyout fs p dst src
  · exact (call_tracked h ho hc hrun).inv
  · push Not at hc
    obtain ⟨fs, p, dst, src, rfl⟩ := hc
    exact copyoutRun_inv ho.1 ho.2 h (copyout_ensures ho.1 rfl h ho.2 ret m' hrun)

lemma Step.ok (h : s.Ok) (hs : Step s a t) : t.Ok := by
  cases hs with
  | create hrun => exact (uvmcreate_ensures h _ _ hrun).inv
  | take hrun =>
    rename_i q m'
    cases hf : s.machine.freelist with
    | nil => simp [run_kalloc_nil h.unlocked hf] at hrun
    | cons p ps =>
      rw [run_kalloc_cons h.unlocked hf] at hrun
      cases hrun
      exact h.taken hf
  | give hq hrun =>
    rename_i q m'
    rw [run_kfree h.unlocked (h.isPage (o := .kernel) hq), h.freed_kept hq] at hrun
    cases hrun
    exact h.returned hq
  | call ho hrun => exact call_inv h ho hrun

/-- A step that is no call changes no mapping; a new table is empty. -/
structure Quiet (s t : System) : Prop where
  roots : s.roots ⊆ t.roots
  leaf : ∀ r ∈ s.roots, ∀ v < userPages,
    leafAt riscv t.machine r v = leafAt riscv s.machine r v
  empty : ∀ r ∈ t.roots, r ∉ s.roots → ∀ v < userPages, leafAt riscv t.machine r v = none
  user : ∀ p, Held (mapping riscv s.roots s.machine) p → t.machine.word p = s.machine.word p

lemma quiet_of_word
    (hnt : ¬IsTable riscv s.roots s.machine q) (hnh : ¬Held (mapping riscv s.roots s.machine) q)
    (hw : ∀ x ≠ q, m'.word x = s.machine.word x) : Quiet s ⟨s.roots, kept', m'⟩ where
  roots := subset_rfl
  leaf r hr v hv := by
    refine leafAt_congr (fun x hx => hw x ?_) hr hv
    rintro rfl
    exact hnt hx
  empty r hr hn := absurd hr hn
  user x hx := by
    refine hw x ?_
    rintro rfl
    exact hnh hx

lemma Step.quiet (h : s.Ok) (hs : Step s a t) (ha : ∀ op ret, a ≠ .call op ret) : Quiet s t := by
  cases hs with
  | create hrun =>
    have hc := uvmcreate_ensures h _ _ hrun
    refine ⟨subset_insert _ _, hc.leaf, fun r hr hn v hv => ?_, hc.user⟩
    rcases hr with rfl | hr
    · exact hc.empty v hv
    · exact absurd hr hn
  | take hrun =>
    rename_i q m'
    cases hf : s.machine.freelist with
    | nil => simp [run_kalloc_nil h.unlocked hf] at hrun
    | cons p ps =>
      rw [run_kalloc_cons h.unlocked hf] at hrun
      obtain ⟨rfl, rfl⟩ : p = q ∧ s.machine.taken p = m' := by simpa using hrun
      have hfree : p ∈ s.machine.freelist := by simp [hf]
      refine quiet_of_word (q := p) (fun ht => ?_) (h.not_held_of_free hfree) fun x hx => ?_
      · exact h.owner_ne .table .free ht hfree (by simp) rfl
      · rw [taken_word, update_of_ne hx]
  | give hq hrun =>
    rename_i q m'
    rw [run_kfree h.unlocked (h.isPage (o := .kernel) hq), h.freed_kept hq] at hrun
    cases hrun
    refine quiet_of_word (h.not_table_of_kept hq) (h.not_held_of_kept hq) fun x hx => ?_
    rw [returned_word, update_of_ne hx]
  | call => exact absurd rfl (ha _ _)

end Runs

/-! ## From boot on -/

/-- Before the first process: the allocatable pages are free or belong to the kernel. -/
structure Booted (kept : Set Word) (m : Machine) : Prop where
  unlocked : m.held = []
  nodup : m.freelist.Nodup
  split : ∀ p, IsPage riscv m p ↔ p ∈ m.freelist ∨ p ∈ kept
  disjoint : ∀ p ∈ m.freelist, p ∉ kept
  single : ∀ p ∈ kept, m.refcnt p ≤ 1

lemma mapping_empty (m : Machine) : mapping riscv ∅ m = fun _ => none := by
  funext x
  simp [mapping]

lemma not_isTable_empty (m : Machine) (p : Word) : ¬IsTable riscv ∅ m p := by
  rintro ⟨r, hr, -⟩
  exact hr

lemma Booted.inv (h : Booted kept m) : Inv riscv ∅ kept m where
  forest := fun r hr => absurd hr (notMem_empty r)
  unlocked := by simp [h.unlocked]
  nodup := h.nodup
  owner := by
    have hno : ∀ p, ¬Held (mapping riscv ∅ m) p := by
      rintro p ⟨x, hx⟩
      simp [mapping_empty] at hx
    refine ⟨fun p hp => ?_, fun p o o' ho ho' => ?_, fun p o ho => ?_⟩
    · rcases (h.split p).mp hp with hf | hk
      · exact ⟨.free, hf⟩
      · exact ⟨.kernel, hk⟩
    · cases o <;> cases o' <;> first
        | rfl
        | exact absurd ho (not_isTable_empty m p)
        | exact absurd ho' (not_isTable_empty m p)
        | exact absurd ho (hno p)
        | exact absurd ho' (hno p)
        | exact absurd ho' (h.disjoint p ho)
        | exact absurd ho (h.disjoint p ho')
    · cases o with
      | free => exact (h.split p).mpr (.inl ho)
      | table => exact absurd ho (not_isTable_empty m p)
      | user => exact absurd ho (hno p)
      | kernel => exact (h.split p).mpr (.inr ho)
  single := by
    rintro p (hp | hp)
    · exact absurd hp (not_isTable_empty m p)
    · exact h.single p hp
  counted := ⟨by simp [mapping_empty], by rintro p ⟨x, hx⟩; simp [mapping_empty] at hx⟩

lemma Booted.ok (h : Booted kept m) (hrun : Run Step ⟨∅, kept, m⟩ acts s) : s.Ok :=
  hrun.invariant System.Ok (fun _ _ _ hs hstep => hstep.ok hs) h.inv

/-- In every state of a run, the count of a mapped page is the number of its mappings and the page
is not free, and a call puts a page on the free list exactly when it removes its last mapping. -/
theorem refcnt_eq_ncard_mappings {acts : List Action} {s : System} (h : Booted kept m)
    (hrun : Run Step ⟨∅, kept, m⟩ acts s) :
    (∀ p, Held (mapping riscv s.roots s.machine) p →
      s.machine.refcnt p = (holders (mapping riscv s.roots s.machine) p).ncard ∧
      p ∉ s.machine.freelist) ∧
    ∀ op ret t, Step s (.call op ret) t → (∀ fs p dst src, op ≠ .copyout fs p dst src) →
      ∀ p, p ∉ s.machine.freelist ∧ p ∈ t.machine.freelist ↔
        Held (mapping riscv s.roots s.machine) p ∧ ¬Held (mapping riscv t.roots t.machine) p := by
  have hok : s.Ok := h.ok hrun
  refine ⟨fun p hp => ⟨hok.counted.count p hp, fun hf => hok.not_held_of_free hf hp⟩, ?_⟩
  intro op ret t hstep hc p
  cases hstep with
  | call ho hcall => exact (call_tracked hok ho hc hcall).free_iff hok p

/-- A machine with the last eight pages of memory free. -/
def bootMachine : Machine where
  word := fun _ _ => 0#64
  freelist := (List.range 8).map fun i => pa2va 0x87ff8000#64 + BitVec.ofNat 64 (4096 * i)
  size := 8
  refcnt := fun _ => 0
  held := []
  kernelEnd := pa2va 0x87ff8000#64
  kernelTable := pa2va 0x80400000#64
  trace := []

lemma booted_bootMachine : Booted ∅ bootMachine where
  unlocked := rfl
  nodup := by decide
  split p := by
    have hl : p ∈ bootMachine.freelist ↔
        ∃ i < 8, pa2va 0x87ff8000#64 + BitVec.ofNat 64 (4096 * i) = p := by
      simp [bootMachine]
    simp only [hl, mem_empty_iff_false, or_false]
    constructor
    · rintro ⟨h1, -, h3, h4⟩
      have h3' : (pa2va 0x87ff8000#64).toNat ≤ p.toNat := h3
      have h4' : p.toNat < (pa2va 0x88000000#64).toNat := h4
      have hlo : (pa2va 0x87ff8000#64).toNat = 0xffffffc087ff8000 := by decide
      have hhi : (pa2va 0x88000000#64).toNat = 0xffffffc088000000 := by decide
      refine ⟨(p.toNat - 0xffffffc087ff8000) / 4096, by omega, ?_⟩
      apply eq_of_toNat_eq
      rw [toNat_add, toNat_ofNat, hlo]
      omega
    · rintro ⟨i, hi, rfl⟩
      have hall : ∀ i < 8, (pa2va 0x87ff8000#64 + BitVec.ofNat 64 (4096 * i)).toNat % 4096 = 0 ∧
          pa2va 0x87ff8000#64 ≤ pa2va 0x87ff8000#64 + BitVec.ofNat 64 (4096 * i) ∧
          pa2va 0x87ff8000#64 + BitVec.ofNat 64 (4096 * i) < pa2va 0x88000000#64 := by decide
      obtain ⟨h1, h2, h3⟩ := hall i hi
      have hram : pa2va 0x80000000#64 ≤ pa2va 0x87ff8000#64 := by decide
      exact ⟨h1, BitVec.le_trans hram h2, h2, h3⟩
  disjoint := by simp
  single := by simp

/-- A process with an empty image. -/
def bareProcess (pagetable : Word) : Process where
  slot := 0
  state := .running
  pid := 1
  ofile := fun _ => none
  exitCode := 0
  kstack := 0#64
  parent := none
  pagetable := pagetable
  context := 0#64
  heapBottom := 0#64
  heapTop := 0#64
  stackBottom := 0x3fffff6000#64
  stackTop := 0x3fffff8000#64
  vmArea := fun _ => .zero
  sighand := .zero
  sp := 0x3fffff8000#64

/-- A read-only and a writable anonymous area of one page. -/
def readOnlyArea : Vma := ⟨true, 0#64, 0x1000#64, 0#64, 0#64, permRead ||| permUser, none⟩

def writableArea : Vma := { readOnlyArea with vmPageProt := permRead ||| permWrite ||| permUser }

lemma boot_fork (vma : Vma) : ∃ r c m1 m2 m3 m4 q,
    Step ⟨∅, ∅, bootMachine⟩ .create ⟨{r}, ∅, m1⟩ ∧
    Step ⟨{r}, ∅, m1⟩ .create ⟨{c, r}, ∅, m2⟩ ∧
    Step ⟨{c, r}, ∅, m2⟩ (.call (.anonymousFault (bareProcess r) vma 0#64) (.ok ()))
      ⟨{c, r}, ∅, m3⟩ ∧
    Step ⟨{c, r}, ∅, m3⟩ (.call (.fork r c) (.ok ())) ⟨{c, r}, ∅, m4⟩ ∧
    (∀ v < userPages, leafAt riscv m2 r v = none) ∧
    Faulted riscv {c, r} ∅ m2 m3 r 0 (leafPte (va2pa q) (pteFromPerm vma.vmPageProt)) (fun _ => 0) ∧
    Copying {c, r} ∅ m3 m4 r c userPages := by
  obtain ⟨r, m1, hcreate1, hc1, hfree1⟩ :=
    uvmcreate_total booted_bootMachine.inv (m := bootMachine) rfl
  have hsingle : insert r (∅ : Set Word) = {r} := insert_empty_eq r
  have hi1 := hc1.inv
  rw [hsingle] at hi1
  obtain ⟨c, m2, hcreate2, hc2, hfree2⟩ := uvmcreate_total hi1 hfree1
  have h0 : 0 < userPages := by decide
  have hr : r ∈ ({c, r} : Set Word) := by simp
  have hc : c ∈ ({c, r} : Set Word) := by simp
  have hne : r ≠ c := by
    rintro rfl
    exact hi1.owner_ne .table .free (Table.of_root (mem_singleton r)) hc2.fresh (by simp) rfl
  have hnone : ∀ v < userPages, leafAt riscv m2 r v = none := by
    intro v hv
    rw [hc2.leaf r (mem_singleton r) v hv, hc1.empty v hv]
  obtain ⟨ret, m3, hfault, hpost⟩ :
      Total (handleAnonymousVmaFault (bareProcess r) vma 0#64) m2 _ :=
    handleAnonymousVmaFault_total hc2.inv hr (by decide) (by decide) (hnone 0 h0)
  rw [show pageNo 0#64 = 0 by decide] at hpost
  have hlen : m2.freelist.length = 6 := by rw [hfree2]; rfl
  have hmiss := missing_le_two (A := riscv) m2 (bareProcess r).pagetable 0
  cases ret with
  | error e => exact absurd hpost.2.1 (by omega)
  | ok u =>
    obtain ⟨-, q, hf⟩ := hpost
    have hempty : ∀ v < userPages, leafAt riscv m3 c v = none := by
      intro v hv
      rw [hf.leaf c hc v hv, if_neg (by rintro ⟨rfl, -⟩; exact hne rfl), hc2.empty v hv]
    have huncopied : Uncopied m3 r c := fun v hv _ => hempty v hv
    obtain ⟨ret, m4, hfork, hcopy⟩ := (uvmcopy_meets hf.inv hc hr hne).2 huncopied
    cases ret with
    | error e =>
      obtain ⟨-, t, k, e, hk, hcp, hl, hshort, -⟩ := hcopy
      have hk0 : k = 0 := by
        by_contra hk0
        rw [hf.leaf r hr k hk, if_neg (fun h => hk0 h.2), hnone k hk] at hl
        cases hl
      have hsame := hcp.free fun v hv hlt => absurd hlt (by omega)
      have hspent := hf.spent
      rw [hsame] at hshort
      omega
    | ok _ =>
      exact ⟨r, c, m1, m2, m3, m4, q, hsingle ▸ Step.create hcreate1, .create hcreate2,
        .call ⟨hr, by decide⟩ hfault, .call ⟨hr, hc, hne⟩ hfork, hnone, hf, hcopy⟩

/-- After a fork the page of both address spaces counts both mappings. -/
theorem refcnt_eq_ncard_mappings_fork : ∃ acts s r c p, r ≠ c ∧
    Run Step ⟨∅, ∅, bootMachine⟩ acts s ∧ mapping riscv s.roots s.machine (r, 0) = some p ∧
      mapping riscv s.roots s.machine (c, 0) = some p ∧
      s.machine.refcnt p = (holders (mapping riscv s.roots s.machine) p).ncard := by
  obtain ⟨r, c, m1, m2, m3, m4, q, h1, h2, h3, h4, -, hf, hcopy⟩ := boot_fork writableArea
  have hrun := Run.cons h1 (.cons h2 (.cons h3 (.cons h4 (.nil _))))
  have hne : r ≠ c := by
    cases h4 with
    | call ho => exact ho.2.2
  have h0 : 0 < userPages := by decide
  have hr : r ∈ ({c, r} : Set Word) := by simp
  have hleaf := hf.leaf r hr 0 h0
  rw [if_pos ⟨rfl, rfl⟩] at hleaf
  have hold : mapping riscv {c, r} m4 (r, 0) = some _ := mapping_eq_some.mpr
    ⟨hr, h0, _, by rw [hcopy.parent 0 h0, if_pos h0, hleaf]; rfl, page_cowPte _⟩
  have hnew : mapping riscv {c, r} m4 (c, 0) = some _ := mapping_eq_some.mpr
    ⟨by simp, h0, _, by rw [hcopy.child 0 h0, if_pos h0, hleaf]; rfl, page_childPte _⟩
  exact ⟨_, _, r, c, _, hne, hrun, hold, hnew,
    ((refcnt_eq_ncard_mappings booted_bootMachine hrun).1 _ ⟨_, hold⟩).1⟩

lemma pages_of_range {va size : Word} (hv : va.toNat + size.toNat < 2 ^ 38) :
    pageNo va + pagesBelow (pgRoundDown va) (pgRoundUp (va + size)) =
      (va.toNat + size.toNat + 4095) / 4096 := by
  have hsum : (va + size).toNat = va.toNat + size.toNat := by
    rw [toNat_add]
    omega
  have hup := pgRoundUp_toNat (va + size)
  have hdown := pgRoundDown_toNat va
  have hn : (pgRoundUp (va + size)).toNat = (pgRoundDown va).toNat +
      4096 * ((va.toNat + size.toNat + 4095) / 4096 - va.toNat / 4096) := by
    omega
  rw [pagesBelow_of_toNat hn, pageNo]
  omega

/-- On pages that are not mapped, `uvmalloc` maps every page of the range to a cleared page of its
own from the free list, or it fails with all mappings as before, and of the pages that were free
only those that have become page tables are missing. -/
theorem uvmalloc_all_or_nothing {roots kept : Set Word} {m : Machine} {r va size : Word}
    (perm : Word)
    (h : Inv riscv roots kept m) (hr : r ∈ roots) (hv : va.toNat + size.toNat < 2 ^ 38)
    (hfree : ∀ v, pageNo va ≤ v → v < (va.toNat + size.toNat + 4095) / 4096 →
      leafAt riscv m r v = none) :
    Total (uvmalloc r va size perm) m fun ret m' => match ret with
      | .ok _ =>
        (∀ v, pageNo va ≤ v → v < (va.toNat + size.toNat + 4095) / 4096 →
          ∃ e, leafAt riscv m' r v = some e ∧ riscv.page e ∈ m.freelist ∧
            (∀ i, m'.word (riscv.page e) i = 0) ∧
            ∀ v' < (va.toNat + size.toNat + 4095) / 4096, pageNo va ≤ v' → v' ≠ v →
              ∀ e', leafAt riscv m' r v' = some e' → riscv.page e' ≠ riscv.page e) ∧
        ∀ r' ∈ roots, ∀ v < userPages, r' ≠ r ∨ v < pageNo va ∨
          (va.toNat + size.toNat + 4095) / 4096 ≤ v → leafAt riscv m' r' v = leafAt riscv m r' v
      | .error _ =>
        (∀ r' ∈ roots, ∀ v < userPages, leafAt riscv m' r' v = leafAt riscv m r' v) ∧
        ∀ p ∈ m.freelist, p ∈ m'.freelist ∨ IsTable riscv roots m' p := by
  have hpages := pages_of_range hv
  have htop : (va.toNat + size.toNat + 4095) / 4096 ≤ userPages := by
    unfold userPages
    omega
  rw [← hpages] at hfree htop ⊢
  refine ((uvmalloc_meets h hr rfl htop).2 fun k hk => hfree _ (by omega) (by omega)).mono ?_
  intro ret m' hpost
  cases ret with
  | ok _ =>
    refine ⟨fun v h1 h2 => ?_, fun r' hr' v hv' hout => ?_⟩
    · obtain ⟨-, e, he, -, hq, hz⟩ := hpost.inside v h1 h2
      refine ⟨e, he, hq, fun i => congrFun hz i, fun v' h2' h1' hne e' he' hc => hne ?_⟩
      exact hpost.distinct v' v e' e h1' h2' h1 h2 he' he hc
    · refine hpost.outside r' hr' v hv' ?_
      rintro ⟨rfl, h1, h2⟩
      rcases hout with hne | hlow | hhigh
      · exact hne rfl
      · omega
      · omega
  | error e =>
    refine ⟨hpost.leaf, fun p hp => ?_⟩
    have hpage : IsPage riscv m' p := by
      rw [isPage_congr hpost.kernelEnd]
      exact h.isPage (o := .free) hp
    obtain ⟨o, ho⟩ := hpost.inv.owner.owned p hpage
    cases o with
    | free => exact .inl ho
    | table => exact .inr ho
    | user =>
      rw [Owns, mapping_of_leaf hpost.leaf] at ho
      exact absurd ho (h.not_held_of_free hp)
    | kernel => exact absurd ho (h.not_kept_of_free hp)

theorem uvmalloc_all_or_nothing_pages : ∃ r m,
    Inv riscv {r} ∅ m ∧ Total (uvmalloc r 0x800#64 0x1000#64 permRead) m fun ret m' =>
      match ret with
      | .ok _ => ∀ v < 2, ∃ e, leafAt riscv m' r v = some e ∧ riscv.page e ∈ m.freelist
      | .error _ => ∀ v < 2, leafAt riscv m' r v = none := by
  obtain ⟨r, m, -, hc, -⟩ := uvmcreate_total booted_bootMachine.inv (m := bootMachine) rfl
  have hi : Inv riscv {r} ∅ m := by simpa using hc.inv
  have hr : r ∈ ({r} : Set Word) := rfl
  refine ⟨r, m, hi, (uvmalloc_all_or_nothing permRead hi hr (by decide) fun v _ hv =>
    hc.empty v (hv.trans (by decide))).mono fun ret m' hpost => ?_⟩
  cases ret with
  | ok _ =>
    intro v hv
    obtain ⟨e, he, hq, -⟩ := hpost.1 v (Nat.zero_le v) hv
    exact ⟨e, he, hq⟩
  | error e =>
    intro v hv
    have hv : v < userPages := hv.trans (by decide)
    rw [hpost.1 r hr v hv]
    exact hc.empty v hv

/-- No page is lost and none has two uses: after every run of calls on user addresses
(`OnUserMemory`) the allocatable pages are those with exactly one owner, be it the free list, a page
table, the mappings of users or the kernel; and no table is at two places. -/
theorem isPage_iff_one_owner {s : System} (h : Booted kept m)
    (hrun : Run Step ⟨∅, kept, m⟩ acts s) :
    (∀ p, IsPage riscv s.machine p ↔ ∃! o, Owns riscv s.roots s.kept s.machine p o) ∧
    Radix.Forest riscv.next userLevels s.roots s.machine.word := by
  have hok : s.Ok := h.ok hrun
  refine ⟨fun p => ⟨fun hp => ?_, fun ⟨o, ho, _⟩ => hok.owner.inside p o ho⟩, hok.forest⟩
  obtain ⟨o, ho⟩ := hok.owner.owned p hp
  exact ⟨o, ho, fun o' ho' => hok.owner.unique p o' o ho' ho⟩

theorem isPage_iff_one_owner_fork :
    ∃ acts s, acts.length = 4 ∧ Run Step ⟨∅, ∅, bootMachine⟩ acts s ∧
    ∀ p, IsPage riscv s.machine p ↔ ∃! o, Owns riscv s.roots s.kept s.machine p o := by
  obtain ⟨r, c, m1, m2, m3, m4, q, h1, h2, h3, h4, -⟩ := boot_fork writableArea
  have hrun := Run.cons h1 (.cons h2 (.cons h3 (.cons h4 (.nil _))))
  exact ⟨_, _, rfl, hrun, (isPage_iff_one_owner booted_bootMachine hrun).1⟩

end FrostVista.Riscv
