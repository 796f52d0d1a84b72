import FrostVista.Riscv.Fault
import FrostVista.Riscv.Unmapping

/-!
# Allocating ranges and creating page tables

`uvmalloc` maps a range of fresh pages, and takes back those it has already mapped when memory runs
out on the way. `uvmcreate` makes a root table that shares the kernel half.
-/
namespace FrostVista.Riscv

open Lib Lib.Comp Lib.Radix Lib.RefCount Function BitVec

variable {roots kept : Set Word} {m m' m'' : Machine} {r q va perm start size : Word} {v k n : Nat}
  {ps : List Word}

/-- The entries `uvmalloc` writes. -/
def IsUserEntry (perm e : Word) : Prop :=
  ∃ q, e = leafPte (va2pa q) (pteFromPerm (perm ||| permUser))

lemma has_user (perm : Word) : has (perm ||| permUser) permUser = true := by
  rw [show permUser = twoPow 64 3 by decide, has_twoPow _ _ (by decide)]
  simp [bit_twoPow 3 3]

lemma has_permWrite_user (perm : Word) :
    has (perm ||| permUser) permWrite = has perm permWrite := by
  rw [show permWrite = twoPow 64 1 by decide, has_twoPow _ _ (by decide),
    has_twoPow _ _ (by decide), bit_or, show permUser = twoPow 64 3 by decide,
    bit_twoPow 3 1 (by decide)]
  simp

lemma IsUserEntry.bit_user (h : IsUserEntry perm e) : bit e 4 = true := by
  obtain ⟨q, rfl⟩ := h
  rw [bit_leafPte (by decide) (by decide), bit_pteFromPerm, has_user]
  simp

lemma not_bare_of_bit (hk : 0 < k) (hk' : k < 10) (h : bit e k = true) :
    pteFlags e ≠ pteV := by
  intro hc
  have := congrArg (fun w => bit w k) hc
  simp only [bit_pteFlags, bit_pteV, h, hk', decide_true, Bool.and_true] at this
  simp at this
  omega

lemma stable_of_unmaps (hr : r ∈ roots)
    (a : Allocated riscv roots kept m m' r v n (IsUserEntry perm))
    (u : Unmaps roots kept m' m'' r v n) : Stable riscv roots kept m m'' := by
  have hleaf : ∀ r' ∈ roots, ∀ v' < userPages, leafAt riscv m'' r' v' = leafAt riscv m r' v' := by
    intro r' hr' v' hv'
    rw [u.leaf r' hr' v' hv']
    split
    · rename_i hc
      obtain ⟨rfl, h1, h2⟩ := hc
      obtain ⟨hnone, e, hl, he, -⟩ := a.inside v' h1 h2
      rw [hnone, hl]
      simp [unmapped, not_bare_of_bit (by decide) (by decide) he.bit_user]
    · rename_i hc
      exact a.outside r' hr' v' hv' hc
  have hmap := mapping_of_leaf hleaf
  refine ⟨⟨a.toFrame.trans u.toFrame, u.inv, fun p hp => by rwa [hmap], fun p hp => ?_⟩, hleaf⟩
  rw [u.user p (by rwa [hmap]), a.user p hp]

lemma pgRoundUp_of_aligned (ha : va.toNat % 4096 = 0) (hv : va.toNat < 2 ^ 63) :
    pgRoundUp va = va := by
  refine eq_of_toNat_eq ?_
  rw [pgRoundUp_toNat]
  omega

lemma uvmdealloc_eq_loop (r : Word) (ha : start.toNat % 4096 = 0)
    (hv : pageNo start + k ≤ userPages) :
    uvmdealloc r start (pageAt start k - start) =
      loop (fun j => unmapPage r (pageAt start j) true) 0 k := by
  have hlt : start.toNat + 4096 * k ≤ 2 ^ 38 := by
    unfold pageNo userPages at hv
    omega
  have hi : (pageAt start k).toNat = start.toNat + 4096 * k := pageAt_toNat (by omega)
  have hsize : (pageAt start k - start).toNat = 4096 * k := by
    rw [toNat_sub, hi]
    omega
  have htop : start + (pageAt start k - start) = pageAt start k := by bv_omega
  by_cases hk : k = 0
  · subst hk
    have hz : pageAt start 0 - start = 0#64 := by simp
    rw [uvmdealloc, if_pos hz, loop]
  · have hnz : pageAt start k - start ≠ 0#64 := by
      intro hc
      have := congrArg BitVec.toNat hc
      rw [hsize] at this
      simp at this
      omega
    have hlt' : start < pageAt start k := by
      rw [lt_def, hi]
      omega
    have hpages : ((pageAt start k - start) / 4096#64).toNat = k := by
      rw [toNat_udiv, hsize]
      simp
    have hround := pgRoundUp_of_aligned ha (by omega)
    have hround' : pgRoundUp (pageAt start k) = pageAt start k :=
      pgRoundUp_of_aligned (by omega) (by omega)
    have hrounds : pagesBelow start
        (start + (((pageAt start k - start) / 4096#64).setWidth 32).signExtend 64 * 4096#64) =
          k := by
      rw [signExtend_setWidth (by omega)]
      refine pagesBelow_of_toNat ?_
      rw [toNat_add, toNat_mul, hpages]
      simp only [toNat_ofNat]
      omega
    simp only [uvmdealloc, htop, hround, hround', hnz, hlt', if_true, if_false]
    rw [uvmunmap, hrounds]

section
variable (h : Inv riscv roots kept m) (hr : r ∈ roots)
include h hr

lemma uvmdealloc_total (ha : start.toNat % 4096 = 0) (hv : pageNo start + k ≤ userPages) :
    Total (uvmdealloc r start (pageAt start k - start)) m fun _ m' =>
      Unmaps roots kept m m' r (pageNo start) k := by
  rw [uvmdealloc_eq_loop r ha hv]
  exact unmapLoop_total h hr hv

/-- The pages that `uvmalloc` is about to map are not mapped yet. -/
def Vacant (m : Machine) (r : Word) (v n : Nat) : Prop := ∀ k < n, leafAt riscv m r (v + k) = none

lemma uvmallocPage_meets (ha : start.toNat % 4096 = 0) (hv : pageNo start + k < userPages)
    (hk : k < n) (a : Allocated riscv roots kept m m' r (pageNo start) k (IsUserEntry perm)) :
    Meets (Vacant m r (pageNo start) n) (uvmallocPage r start (pageAt start k) perm) m' fun o u =>
      match o with
      | none => Allocated riscv roots kept m u r (pageNo start) (k + 1) (IsUserEntry perm)
      | some _ => Stable riscv roots kept m u := by
  have hlt : start.toNat + 4096 * k < 2 ^ 38 := by
    unfold pageNo userPages at hv
    omega
  have hpa : (pageAt start k).toNat = start.toNat + 4096 * k := pageAt_toNat (by omega)
  have hpage : pageNo (pageAt start k) = pageNo start + k := pageNo_pageAt (by omega)
  -- Both failures end with the pages mapped so far taken back.
  have hundo : ∀ {t : Machine}, Stable riscv roots kept m' t → ∀ e : Err,
      Total (do
        uvmdealloc r start (pageAt start k - start)
        pure (some e)) t fun o u => match o with
          | none => Allocated riscv roots kept m u r (pageNo start) (k + 1) (IsUserEntry perm)
          | some _ => Stable riscv roots kept m u := by
    intro t hs e
    refine .bind (uvmdealloc_total hs.inv hr ha (by omega)) fun _ u hu => .pure ?_
    exact stable_of_unmaps hr (a.stable hr (by omega) hs) hu
  have hi := a.inv
  unfold uvmallocPage
  cases hf : m'.freelist with
  | nil => exact .of_total (.bind_ok (run_kalloc_nil hi.unlocked hf) (hundo (.refl hi) .noMem))
  | cons q ps =>
    refine .bind_ok (run_kalloc_cons hi.unlocked hf) ?_
    have hflags := isFlags_pteFromPerm (perm ||| permUser)
    cases hl : leafAt riscv m' r (pageNo (pageAt start k)) with
    | some e =>
      -- The page has a mapping, so `mappages` panics.
      have hl' : leafAt riscv (m'.taken q) r (pageNo (pageAt start k)) = some e := by
        rw [leafAt_congr (hi.toWf.taken_word hf) hr (by omega), hl]
      refine .bind_error (run_mappages_remap (by omega) hl') fun hN => ?_
      rw [hpage, a.outside r hr _ hv (by omega), hN k hk] at hl
      cases hl
    | none =>
      have ht := mapFresh_total hi hf (fun _ => 0) hr (by omega) (by omega) hl hflags
      rw [filled_zero] at ht
      refine .of_total (.bind ht fun ret t hpost => ?_)
      cases ret with
      | ok _ =>
        rw [hpage] at hl hpost
        exact .pure (a.snoc h hr hv hl hpost.2 ⟨q, rfl⟩)
      | error e =>
        obtain ⟨-, -, g⟩ := hpost
        rw [← filled_zero] at g
        obtain ⟨hrun, hs⟩ := stable_giveBack hi hf g
        exact .bind_ok hrun (hundo hs e)

lemma uvmalloc_meets (hn : pagesBelow (pgRoundDown va) (pgRoundUp (va + size)) = n)
    (hv : pageNo va + n ≤ userPages) :
    Meets (Vacant m r (pageNo va) n) (uvmalloc r va size perm) m fun ret m' => match ret with
      | .ok _ => Allocated riscv roots kept m m' r (pageNo va) n (IsUserEntry perm)
      | .error _ => Stable riscv roots kept m m' := by
  have hpage := pageNo_pgRoundDown va
  rw [← hpage] at hv ⊢
  unfold uvmalloc
  simp only [hn]
  refine .bind (.search (R := fun _ u => Stable riscv roots kept m u)
    (fun k t => Allocated riscv roots kept m t r (pageNo (pgRoundDown va)) k (IsUserEntry perm))
    (Allocated.zero h) fun k t _ hk a => ?_) fun o t ho => ?_
  · refine (uvmallocPage_meets h hr (pgRoundDown_aligned va) (by omega) (by omega) a).mono
      fun o u ho => ?_
    cases o <;> exact ho
  · cases o with
    | some e => exact .pure ho
    | none => exact .pure (by simpa using ho)

end

/-- The page `q` was taken from the free list; it holds the upper half of the kernel's table. -/
structure NewRoot (m m' : Machine) (q : Word) (ps : List Word) : Prop where
  other : ∀ x ≠ q, m'.word x = m.word x
  lower : ∀ i < 256, m'.word q i = 0#64
  upper : m.kernelTable ≠ q → ∀ i, 256 ≤ i → i < 512 → m'.word q i = m.word m.kernelTable i
  freelist : m'.freelist = ps
  refcnt : m'.refcnt = Function.update m.refcnt q 1
  held : m'.held = m.held
  kernelEnd : m'.kernelEnd = m.kernelEnd
  kernelTable : m'.kernelTable = m.kernelTable

lemma uvmcreate_newRoot (hl : Lock.mem ∉ m.held) (hf : m.freelist = q :: ps) :
    Total uvmcreate m fun r m' => r = q ∧ NewRoot m m' q ps := by
  unfold uvmcreate
  refine .bind_ok (run_kalloc_cons hl hf) (.bind_ok (run_get _) ?_)
  -- The loop fills the upper half from below; the pages of all other tables stay as they are.
  refine .bind (.loop (fun k t => (∀ x ≠ q, t.word x = m.word x) ∧ (∀ i < 256, t.word q i = 0#64) ∧
    (m.kernelTable ≠ q → ∀ i, 256 ≤ i → i < k → t.word q i = m.word m.kernelTable i) ∧
    t.freelist = ps ∧ t.refcnt = update m.refcnt q 1 ∧ t.held = m.held ∧
    t.kernelEnd = m.kernelEnd ∧ t.kernelTable = m.kernelTable)
    ⟨fun x hx => by simp [update_of_ne hx], by simp, fun _ i h1 h2 => by omega, by simp [hf],
      rfl, rfl, rfl, rfl⟩ fun k t hk _ hJ => ?_) fun _ t hJ => ?_
  · obtain ⟨ho, hlo, hup, hrest⟩ := hJ
    refine .bind_ok (run_readPte t _ k)
      (.modify ⟨fun x hx => ?_, fun i hi => ?_, fun hne i h1 h2 => ?_,
      hrest⟩)
    · rw [Machine.setPte_word, write_row_of_ne hx, ho x hx]
    · rw [Machine.setPte_word, write_of_ne (by omega), hlo i hi]
    · rw [Machine.setPte_word]
      by_cases hik : i = k
      · subst hik
        rw [write_same]
        exact congrFun (ho _ hne) i
      · rw [write_of_ne (by omega), hup hne i h1 (by omega)]
  · obtain ⟨ho, hlo, hup, h1, h2, h3, h4, h5⟩ := hJ
    exact .pure ⟨rfl, ho, hlo, hup, h1, h2, h3, h4, h5⟩

lemma NewRoot.created (h : Inv riscv roots kept m) (hf : m.freelist = q :: ps)
    (n : NewRoot m m' q ps) : Created riscv roots kept m m' q := by
  have hqf : q ∈ m.freelist := by simp [hf]
  have hword : ∀ x, x ∉ m.freelist → m'.word x = m.word x := by
    intro x hx
    refine n.other x ?_
    rintro rfl
    exact hx hqf
  have htab : ∀ x, IsTable riscv roots m x → m'.word x = m.word x := fun x hx =>
    hword x fun hc => h.owner_ne .table .free hx hc (by simp) rfl
  have hi := h.taken hf
  -- Apart from the row of `q` the machine is as after `kalloc`.
  have hsame : m'.word = ((m.taken q).setPage q (m'.word q)).word := by
    funext x
    by_cases hx : x = q
    · subst hx
      simp
    · simp [update_of_ne hx, n.other x hx]
  have hinv : Inv riscv roots (insert q kept) m' :=
    (hi.setPage (hi.not_table_of_kept (Set.mem_insert q kept)) (m'.word q)).congr hsame
      (by simp [n.freelist, hf]) n.refcnt n.held n.kernelEnd
  have hnext : ∀ i < 256, riscv.next (m'.word q i) = none := fun i hi => by
    rw [n.lower i hi, next_zero]
  have hroot := hinv.insert_root (Set.mem_insert q kept) hnext
  rw [insert_sdiff h hf] at hroot
  refine ⟨⟨fun r hr path hp x hx => ?_, fun x hx => ⟨?_, ?_⟩, n.held, n.kernelEnd, n.kernelTable⟩,
    hroot, hqf, fun r hr v hv => leafAt_congr htab hr hv, fun v hv => leafAt_of_empty_root hnext hv,
    fun x hx => hword x fun hc => h.not_held_of_free hc hx⟩
  · rw [descend_congr htab hr hp, hx]
  · exact hword x fun hc => h.not_kept_of_free hc hx
  · have hxq : x ≠ q := by
      rintro rfl
      exact h.not_kept_of_free hqf hx
    rw [n.refcnt, update_of_ne hxq]

lemma uvmcreate_total (h : Inv riscv roots kept m) (hf : m.freelist = q :: ps) :
    Total uvmcreate m fun r m' => Created riscv roots kept m m' r ∧ m'.freelist = ps := by
  refine (uvmcreate_newRoot h.unlocked hf).mono fun r m' hn => ?_
  obtain ⟨rfl, hn⟩ := hn
  exact ⟨hn.created h hf, hn.freelist⟩

/-- `uvmcreate` returns a new root, or panics because memory is exhausted. -/
lemma uvmcreate_ensures (h : Inv riscv roots kept m) :
    Ensures uvmcreate m fun r m' => Created riscv roots kept m m' r := by
  cases hf : m.freelist with
  | nil => exact .bind_ok (run_kalloc_nil h.unlocked hf) .fail
  | cons q ps => exact (uvmcreate_total h hf).ensures.mono fun r m' hc => hc.1

end FrostVista.Riscv
