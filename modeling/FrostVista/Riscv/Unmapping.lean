import FrostVista.Riscv.Mapping

/-!
# Unmapping ranges

`kvmunmap` and `uvmunmap` remove the mappings of a range of pages and drop one reference to each of
their physical pages. An entry without any permission bit is taken for a table and left alone, as
in the source.
-/
namespace FrostVista.Riscv

open Lib Lib.Comp Lib.Radix Lib.RefCount Function Machine

variable {roots kept : Set Word} {m m' m'' : Machine} {r va : Word} {v n : Nat}

/-- What is left of an entry after unmapping its page: nothing, unless it has no permission. -/
def unmapped : Option Word → Option Word
  | none => none
  | some e => if pteFlags e = pteV then some e else none

variable {e p : Word} {k i : Nat}

lemma unmapped_eq_some (h : unmapped o = some e) : o = some e := by
  cases o with
  | none => cases h
  | some e' =>
    simp only [unmapped] at h
    split at h
    · exact h
    · cases h

/-- The `n` pages from `v` on were unmapped below the root `r`. -/
structure Unmaps (roots kept : Set Word) (m m' : Machine) (r : Word) (v n : Nat) : Prop extends
    Frame riscv roots kept m m' where
  inv : Inv riscv roots kept m'
  leaf : ∀ r' ∈ roots, ∀ v' < userPages, leafAt riscv m' r' v' =
    if r' = r ∧ v ≤ v' ∧ v' < v + n then unmapped (leafAt riscv m r' v') else leafAt riscv m r' v'
  user : ∀ p, Held (mapping riscv roots m') p → m'.word p = m.word p
  slot : ∀ r' ∈ roots, ∀ v' < userPages, slotAt riscv m' r' v' = slotAt riscv m r' v'
  newTable : ∀ p, IsTable riscv roots m' p → IsTable riscv roots m p

lemma Unmaps.zero (h : Inv riscv roots kept m) : Unmaps roots kept m m r v 0 where
  toFrame := .refl
  inv := h
  leaf r' _ v' _ := by
    have : ¬(r' = r ∧ v ≤ v' ∧ v' < v + 0) := by omega
    rw [if_neg this]
  user _ _ := rfl
  slot _ _ _ _ := rfl
  newTable _ hp := hp

lemma Unmaps.held_of (u : Unmaps roots kept m m' r v n)
    (h : Held (mapping riscv roots m') p) : Held (mapping riscv roots m) p := by
  obtain ⟨x, hx⟩ := h
  obtain ⟨hr, hv, e, he, rfl⟩ := mapping_eq_some.mp hx
  rw [u.leaf x.1 hr x.2 hv] at he
  refine ⟨x, mapping_eq_some.mpr ⟨hr, hv, e, ?_, rfl⟩⟩
  split at he
  · exact unmapped_eq_some he
  · exact he

lemma Unmaps.append (u : Unmaps roots kept m m' r v n)
    (u' : Unmaps roots kept m' m'' r (v + n) k) : Unmaps roots kept m m'' r v (n + k) where
  toFrame := u.toFrame.trans u'.toFrame
  inv := u'.inv
  leaf r' hr' v' hv' := by
    rw [u'.leaf r' hr' v' hv', u.leaf r' hr' v' hv']
    grind
  user p hp := (u'.user p hp).trans (u.user p (u'.held_of hp))
  slot r' hr' v' hv' := (u'.slot r' hr' v' hv').trans (u.slot r' hr' v' hv')
  newTable p hp := u.newTable p (u'.newTable p hp)

lemma Unmaps.one (h : Inv riscv roots kept m) (s : UserSlot riscv roots m r v p i)
    (hl : leafAt riscv m r v = some e) (hb : pteFlags e ≠ pteV) :
    Unmaps roots kept m ((m.freed (riscv.page e)).setPte p i 0#64) r v 1 := by
  have hi := s.inv_unmap h hl
  have hslot : ∀ r' ∈ roots, ∀ v' < userPages,
      slotAt riscv ((m.freed (riscv.page e)).setPte p i 0#64) r' v' = slotAt riscv m r' v' :=
    fun r' hr' v' hv' => s.slotAt_freed h.toWf hl hr' hv'
  have hmap := s.mapping_freed (e := 0#64) h.toWf hl
  rw [next_zero] at hmap
  have hpath : ∀ r' ∈ roots, ∀ path, userLevels.mem path → ∀ x,
      descend riscv.next m.word r' path = some x →
      descend riscv.next ((m.freed (riscv.page e)).setPte p i 0#64).word r' path = some x := by
    intro r' hr' path hp x hx
    rw [s.descend_freed h.toWf hl hr' hp, hx]
  refine ⟨⟨hpath, fun x hx => ?_, by simp, by simp, by simp⟩, hi,
    fun r' hr' v' hv' => ?_, fun x hx => ?_, hslot, fun x => (s.isTable_freed h.toWf hl x).mp⟩
  · have hxp : x ≠ p := h.owner_ne .kernel .table hx s.isTable (by simp)
    have hxe : x ≠ riscv.page e :=
      h.owner_ne .kernel .user hx (Wf.user_of_leaf s.root s.user hl) (by simp)
    rw [setPte_word, write_row_of_ne hxp, freed_word, setPte_refcnt, freed_refcnt]
    constructor <;> split <;> simp [update_of_ne hxe]
  · rw [s.leafAt_freed h.toWf hl hr' hv']
    by_cases hc : r' = r ∧ v' = v
    · obtain ⟨rfl, rfl⟩ := hc
      have hpos : r' = r' ∧ v' ≤ v' ∧ v' < v' + 1 := ⟨rfl, by omega, by omega⟩
      rw [if_pos ⟨rfl, rfl⟩, if_pos hpos, hl]
      simp [unmapped, hb]
    · have hneg : ¬(r' = r ∧ v ≤ v' ∧ v' < v + 1) := fun hx => hc ⟨hx.1, by omega⟩
      rw [if_neg hc, if_neg hneg]
  · -- A page that is still mapped was shared, so it was not cleared.
    have hxp : x ≠ p := by
      rintro rfl
      have ht : IsTable riscv roots ((m.freed (riscv.page e)).setPte x i 0#64) x :=
        Wf.table_of_slot s.root s.user (hslot r s.root v s.user ▸ s.slot)
      exact hi.owner_ne .table .user ht hx (by simp) rfl
    rw [setPte_word, write_row_of_ne hxp, freed_word]
    split
    · rfl
    · rename_i hc
      have hxe : x ≠ riscv.page e := by
        rintro rfl
        rw [hmap] at hx
        exact h.counted.drop_last (s.mapping_leaf hl) (by omega) hx
      rw [update_of_ne hxe]

/-- Unmapping changes nothing for a page without a removable entry. -/
lemma Unmaps.none (h : Inv riscv roots kept m)
    (hl : unmapped (leafAt riscv m r v) = leafAt riscv m r v) : Unmaps roots kept m m r v 1 where
  toFrame := .refl
  inv := h
  leaf r' _ v' _ := by
    split
    · rename_i hc
      obtain ⟨rfl, h1, h2⟩ := hc
      obtain rfl : v' = v := by omega
      exact hl.symm
    · rfl
  user _ _ := rfl
  slot _ _ _ _ := rfl
  newTable _ hp := hp

lemma run_unmapPage_absent (hl : leafAt riscv m r (pageNo va) = none) (doFree : Bool) :
    (unmapPage r va doFree).run m = .ok ((), m) := by
  rw [unmapPage, run_bind_ok (run_walk_lookup m r va)]
  cases hs : slotAt riscv m r (pageNo va) with
  | none => rfl
  | some t =>
    have hb : bit (m.word t.1 t.2) 0 = false := by
      by_contra hc
      simp [leafAt, hs, hc] at hl
    simp [run_bind, hb]

lemma run_unmapPage_bare (hl : leafAt riscv m r (pageNo va) = some e)
    (hf : pteFlags e = pteV) (doFree : Bool) : (unmapPage r va doFree).run m = .ok ((), m) := by
  obtain ⟨p, i, hs, rfl, hv⟩ := leafAt_eq_some.mp hl
  rw [riscv_valid] at hv
  rw [unmapPage, run_bind_ok (run_walk_lookup m r va), hs]
  simp [run_bind, hv, hf]

lemma run_unmapPage (hs : slotAt riscv m r (pageNo va) = some (p, i))
    (hv : bit (m.word p i) 0 = true) (hf : pteFlags (m.word p i) ≠ pteV)
    (hl : Lock.mem ∉ m.held) (hp : IsPage riscv m (riscv.page (m.word p i))) :
    (unmapPage r va true).run m =
      .ok ((), (m.freed (riscv.page (m.word p i))).setPte p i 0#64) := by
  have hv' : ¬(!has (m.word p i) pteV) = true := by simp [hv]
  rw [unmapPage, run_bind_ok (run_walk_lookup m r va), hs]
  simp only []
  rw [run_bind_ok (run_readPte m p i), if_neg hv', if_neg hf, when_true,
    run_bind_ok (run_kfree hl hp), run_storePte]

lemma unmapPage_total (h : Inv riscv roots kept m) (hr : r ∈ roots) (hv : pageNo va < userPages) :
    Total (unmapPage r va true) m fun _ m' => Unmaps roots kept m m' r (pageNo va) 1 := by
  cases hl : leafAt riscv m r (pageNo va) with
  | none => exact ⟨(), m, run_unmapPage_absent hl true, .none h (by rw [hl]; rfl)⟩
  | some e =>
    by_cases hf : pteFlags e = pteV
    · exact ⟨(), m, run_unmapPage_bare hl hf true, .none h (by simp [hl, unmapped, hf])⟩
    · have hpage := h.isPage (o := .user) (Wf.user_of_leaf hr hv hl)
      obtain ⟨p, i, hs, rfl, hb⟩ := leafAt_eq_some.mp hl
      rw [riscv_valid] at hb
      exact ⟨(), _, run_unmapPage hs hb hf h.unlocked hpage, Unmaps.one h ⟨hr, hv, hs⟩ hl hf⟩

lemma pageAt_toNat (h : va.toNat + 4096 * k < 2 ^ 64) :
    (pageAt va k).toNat = va.toNat + 4096 * k := by
  rw [pageAt, BitVec.toNat_add, BitVec.toNat_ofNat]
  omega

lemma pageNo_pageAt (h : va.toNat + 4096 * k < 2 ^ 64) : pageNo (pageAt va k) = pageNo va + k := by
  rw [pageNo, pageAt_toNat h, pageNo]
  omega

section
variable (h : Inv riscv roots kept m) (hr : r ∈ roots)
include h hr

lemma unmapLoop_total (hv : pageNo va + n ≤ userPages) :
    Total (loop (fun k => unmapPage r (pageAt va k) true) 0 n) m fun _ m' =>
      Unmaps roots kept m m' r (pageNo va) n := by
  refine (Total.loop (fun k t => Unmaps roots kept m t r (pageNo va) k) (Unmaps.zero h)
    fun k t _ hk u => ?_).mono fun _ t u => by simpa using u
  have hva : va.toNat + 4096 * k < 2 ^ 64 := by
    unfold pageNo userPages at hv
    omega
  have hpage := pageNo_pageAt hva
  refine (unmapPage_total u.inv hr (by omega)).mono fun _ t' u' => ?_
  rw [hpage] at u'
  exact u.append u'

lemma uvmunmap_total
    (hn : pagesBelow va (va + npage.signExtend 64 * 4096#64) = n) (hv : pageNo va + n ≤ userPages) :
    Total (uvmunmap r va npage true) m fun _ m' => Unmaps roots kept m m' r (pageNo va) n := by
  rw [uvmunmap, hn]
  exact unmapLoop_total h hr hv

lemma kvmunmap_total {size : Word}
    (ha : va.toNat % 4096 = 0) (hs : size.toNat = 4096 * n) (hv : va.toNat + 4096 * n ≤ 2 ^ 38) :
    Total (kvmunmap r va size true) m fun _ m' => Unmaps roots kept m m' r (pageNo va) n := by
  have hok : ¬(va.toNat % pgSize ≠ 0 ∨ size.toNat % pgSize ≠ 0) := by
    simp only [pgSize]
    omega
  have hrounds : pagesBelow va (va + size) = n := by
    refine pagesBelow_of_toNat ?_
    rw [BitVec.toNat_add, hs]
    omega
  rw [kvmunmap, if_neg hok, hrounds]
  refine unmapLoop_total h hr ?_
  unfold pageNo userPages
  omega

end

end FrostVista.Riscv
