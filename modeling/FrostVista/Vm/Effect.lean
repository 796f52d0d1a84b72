import FrostVista.Vm.Grow

/-!
# Effects of the user-memory functions

The functions of both `vm.c` files do one of a few things to the mappings: nothing at all
(`Stable`), a new mapping at a free place (`MapsTo`, and `Faulted` when its page is fresh), or a
private copy in place of a shared page (`Resolved`).
-/
namespace FrostVista

open Lib Lib.Comp Lib.Radix Lib.RefCount Function List Machine

variable {A : Arch} {roots kept : Set Word} {m m' m'' : Machine} {r p q e e₀ : Word} {v i : Nat}

/-- Every mapped page stays mapped and keeps its contents. -/
structure Keeps (A : Arch) (roots kept : Set Word) (m m' : Machine) : Prop extends
    Frame A roots kept m m' where
  inv : Inv A roots kept m'
  mapped : ∀ p, Held (mapping A roots m) p → Held (mapping A roots m') p
  user : ∀ p, Held (mapping A roots m) p → m'.word p = m.word p

/-- No mapping changed and no page in use was touched. -/
structure Stable (A : Arch) (roots kept : Set Word) (m m' : Machine) : Prop extends
    Keeps A roots kept m m' where
  leaf : ∀ r ∈ roots, ∀ v < userPages, leafAt A m' r v = leafAt A m r v

/-- What the rest of the system sees of a new mapping: one leaf, and nothing else. -/
structure MapsTo (A : Arch) (roots kept : Set Word) (m m' : Machine) (r : Word) (v : Nat)
    (e : Word) : Prop where
  wf : Wf A roots kept m'
  leaf : ∀ r' ∈ roots, ∀ v' < userPages,
    leafAt A m' r' v' = if r' = r ∧ v' = v then some e else leafAt A m r' v'
  mapping : mapping A roots m' =
    Function.update (FrostVista.mapping A roots m) (r, v) (some (A.page e))
  path : ∀ r ∈ roots, ∀ path, userLevels.mem path → ∀ p,
    descend A.next m.word r path = some p → descend A.next m'.word r path = some p
  word : ∀ p, p ∉ m.freelist → ¬IsTable A roots m p → m'.word p = m.word p
  refcnt : ∀ p, p ∉ m.freelist → m'.refcnt p = m.refcnt p
  free : m'.freelist <:+ m.freelist
  spent : m.freelist.length ≤ m'.freelist.length + 2
  held : m'.held = m.held
  kernelEnd : m'.kernelEnd = m.kernelEnd
  kernelTable : m'.kernelTable = m.kernelTable

/-- A fresh page with the given contents was mapped by the entry `e`. -/
structure Faulted (A : Arch) (roots kept : Set Word) (m m' : Machine) (r : Word) (v : Nat)
    (e : Word) (c : Nat → Word) : Prop extends Keeps A roots kept m m' where
  leaf : ∀ r' ∈ roots, ∀ v' < userPages,
    leafAt A m' r' v' = if r' = r ∧ v' = v then some e else leafAt A m r' v'
  fresh : A.page e ∈ m.freelist
  content : m'.word (A.page e) = c
  spent : m.freelist.length ≤ m'.freelist.length + 3

/-- The page of the entry `e₀` was replaced by a fresh copy, mapped by the entry `e`. -/
structure Resolved (A : Arch) (roots kept : Set Word) (m m' : Machine) (r : Word) (v : Nat)
    (e₀ e : Word) : Prop extends Frame A roots kept m m' where
  inv : Inv A roots kept m'
  leaf : ∀ r' ∈ roots, ∀ v' < userPages,
    leafAt A m' r' v' = if r' = r ∧ v' = v then some e else leafAt A m r' v'
  fresh : A.page e ∈ m.freelist
  content : m'.word (A.page e) = m.word (A.page e₀)
  user : ∀ p, Held (mapping A roots m) p → Held (mapping A roots m') p → m'.word p = m.word p
  newTable : ∀ p, IsTable A roots m' p → IsTable A roots m p

/-- The `n` pages from `v` on were mapped to fresh, cleared pages by entries with the property. -/
structure Allocated (A : Arch) (roots kept : Set Word) (m m' : Machine) (r : Word) (v n : Nat)
    (entry : Word → Prop) : Prop extends Keeps A roots kept m m' where
  outside : ∀ r' ∈ roots, ∀ v' < userPages, ¬(r' = r ∧ v ≤ v' ∧ v' < v + n) →
    leafAt A m' r' v' = leafAt A m r' v'
  inside : ∀ v', v ≤ v' → v' < v + n → leafAt A m r v' = none ∧
    ∃ e, leafAt A m' r v' = some e ∧ entry e ∧ A.page e ∈ m.freelist ∧
      m'.word (A.page e) = fun _ => 0
  distinct : ∀ v₁ v₂ e₁ e₂, v ≤ v₁ → v₁ < v + n → v ≤ v₂ → v₂ < v + n →
    leafAt A m' r v₁ = some e₁ → leafAt A m' r v₂ = some e₂ → A.page e₁ = A.page e₂ → v₁ = v₂

lemma next_eq_some : A.next e = some q ↔ A.valid e = true ∧ A.page e = q := by
  unfold Arch.next
  split <;> simp_all

lemma mapping_of_leaf (h : ∀ r ∈ roots, ∀ v < userPages, leafAt A m' r v = leafAt A m r v) :
    mapping A roots m' = mapping A roots m := by
  funext x
  unfold mapping
  split
  · rename_i hx
    rw [h x.1 hx.1 x.2 hx.2]
  · rfl

lemma Keeps.refl (h : Inv A roots kept m) : Keeps A roots kept m m where
  toFrame := .refl
  inv := h
  mapped _ hp := hp
  user _ _ := rfl

lemma Keeps.trans (k : Keeps A roots kept m m') (k' : Keeps A roots kept m' m'') :
    Keeps A roots kept m m'' where
  toFrame := k.toFrame.trans k'.toFrame
  inv := k'.inv
  mapped p hp := k'.mapped p (k.mapped p hp)
  user p hp := (k'.user p (k.mapped p hp)).trans (k.user p hp)

lemma Stable.refl (h : Inv A roots kept m) : Stable A roots kept m m :=
  ⟨.refl h, fun _ _ _ _ => rfl⟩

lemma Stable.of_eq (h : Inv A roots kept m) (hw : m'.word = m.word)
    (hf : m'.freelist = m.freelist) (hr : m'.refcnt = m.refcnt) (hh : m'.held = m.held)
    (hk : m'.kernelEnd = m.kernelEnd) (ht : m'.kernelTable = m.kernelTable) :
    Stable A roots kept m m' := by
  have hleaf : ∀ r ∈ roots, ∀ v < userPages, leafAt A m' r v = leafAt A m r v := fun r hr v hv =>
    leafAt_congr (fun x _ => by rw [hw]) hr hv
  refine ⟨⟨⟨fun r _ path _ x hx => by rwa [hw], fun x _ => by rw [hw, hr]; exact ⟨rfl, rfl⟩, hh, hk,
    ht⟩, h.congr hw hf hr hh hk, fun x hx => by rwa [mapping_of_leaf hleaf], fun x _ => by rw [hw]⟩,
    hleaf⟩

lemma Keeps.free_of_free (h : Inv A roots kept m) (k : Keeps A roots kept m m')
    (hp : p ∈ m'.freelist) : p ∈ m.freelist := by
  have hpage : IsPage A m p := by
    rw [← isPage_congr k.kernelEnd]
    exact k.inv.isPage (o := .free) hp
  obtain ⟨o, ho⟩ := h.owner.owned p hpage
  cases o with
  | free => exact ho
  | table => exact absurd rfl (k.inv.owner_ne .table .free (k.table p ho) hp (by simp))
  | user => exact absurd (k.mapped p ho) (k.inv.not_held_of_free hp)
  | kernel => exact absurd ho (k.inv.not_kept_of_free hp)

section Allocated

variable {n : Nat} {entry : Word → Prop} {c : Nat → Word}

lemma Allocated.zero (h : Inv A roots kept m) : Allocated A roots kept m m r v 0 entry where
  toKeeps := .refl h
  outside _ _ _ _ _ := rfl
  inside v' h1 h2 := by omega
  distinct v1 v2 e1 e2 h1 h2 := by omega

lemma Allocated.stable (hr : r ∈ roots) (hv : v + n ≤ userPages)
    (a : Allocated A roots kept m m' r v n entry) (s : Stable A roots kept m' m'') :
    Allocated A roots kept m m'' r v n entry where
  toKeeps := a.toKeeps.trans s.toKeeps
  outside r' hr' v' hv' hx := by rw [s.leaf r' hr' v' hv', a.outside r' hr' v' hv' hx]
  inside v' h1 h2 := by
    obtain ⟨hnone, e, hl, he, hfree, hz⟩ := a.inside v' h1 h2
    have hv' : v' < userPages := by omega
    refine ⟨hnone, e, by rw [s.leaf r hr v' hv', hl], he, hfree, ?_⟩
    rw [s.user _ ⟨(r, v'), mapping_eq_some.mpr ⟨hr, hv', e, hl, rfl⟩⟩, hz]
  distinct v1 v2 e1 e2 h1 h2 h3 h4 hl1 hl2 hp := by
    rw [s.leaf r hr v1 (by omega)] at hl1
    rw [s.leaf r hr v2 (by omega)] at hl2
    exact a.distinct v1 v2 e1 e2 h1 h2 h3 h4 hl1 hl2 hp

lemma Allocated.snoc (h : Inv A roots kept m) (hr : r ∈ roots) (hv : v + n < userPages)
    (a : Allocated A roots kept m m' r v n entry) (hn : leafAt A m' r (v + n) = none)
    (f : Faulted A roots kept m' m'' r (v + n) e fun _ => 0) (he : entry e) :
    Allocated A roots kept m m'' r v (n + 1) entry where
  toKeeps := a.toKeeps.trans f.toKeeps
  outside r' hr' v' hv' hx := by
    have h1 : ¬(r' = r ∧ v' = v + n) := fun hc => hx ⟨hc.1, by omega, by omega⟩
    have h2 : ¬(r' = r ∧ v ≤ v' ∧ v' < v + n) := fun hc => hx ⟨hc.1, hc.2.1, by omega⟩
    rw [f.leaf r' hr' v' hv', if_neg h1, a.outside r' hr' v' hv' h2]
  inside v' h1 h2 := by
    have hv' : v' < userPages := by omega
    rw [f.leaf r hr v' hv']
    by_cases hvn : v' = v + n
    · subst hvn
      have hout : ¬(r = r ∧ v ≤ v + n ∧ v + n < v + n) := by omega
      refine ⟨by rw [← a.outside r hr _ hv hout, hn], e, by simp, he, ?_, f.content⟩
      exact a.toKeeps.free_of_free h f.fresh
    · obtain ⟨hnone, e', hl, he', hfree, hz⟩ := a.inside v' h1 (by omega)
      refine ⟨hnone, e', by simp [hvn, hl], he', hfree, ?_⟩
      rw [f.user _ ⟨(r, v'), mapping_eq_some.mpr ⟨hr, hv', e', hl, rfl⟩⟩, hz]
  distinct v1 v2 e1 e2 h1 h2 h3 h4 hl1 hl2 hp := by
    -- The new page was free, and the pages mapped before are not.
    have hfresh : ∀ v', v ≤ v' → v' < v + n → ∀ e', leafAt A m' r v' = some e' →
        A.page e' ≠ A.page e := by
      intro v' h1 h2 e' hl hc
      refine a.inv.not_held_of_free f.fresh ?_
      exact ⟨(r, v'), mapping_eq_some.mpr ⟨hr, by omega, e', hl, hc⟩⟩
    rw [f.leaf r hr v1 (by omega)] at hl1
    rw [f.leaf r hr v2 (by omega)] at hl2
    simp only [true_and] at hl1 hl2
    split at hl1 <;> split at hl2 <;> rename_i hc1 hc2
    · omega
    · cases hl1
      exact absurd hp.symm (hfresh v2 h3 (by omega) e2 hl2)
    · cases hl2
      exact absurd hp (hfresh v1 h1 (by omega) e1 hl1)
    · exact a.distinct v1 v2 e1 e2 h1 (by omega) h3 (by omega) hl1 hl2 hp

end Allocated

lemma mapsTo_of_grew (h : Wf A roots kept m) (g : Grew A roots kept m m1)
    (s : UserSlot A roots m1 r v p i) (hw : Wf A roots kept' (m1.setPte p i e))
    (he : A.next e = some q) (hfree : m1.freelist = m.freelist.drop (missing A m r v)) :
    MapsTo A roots kept' m (m1.setPte p i e) r v e := by
  obtain ⟨hvalid, hpage⟩ := next_eq_some.mp he
  have hs : m.freelist.length ≤ m1.freelist.length + 2 := by
    have := missing_le_two (A := A) m r v
    rw [hfree, List.length_drop]
    omega
  refine ⟨hw, fun r' hr' v' hv' => ?_, ?_, fun r' hr' path hp x hx => ?_, fun x hx hxt => ?_,
    fun x hx => g.refcnt x hx, g.free, hs, g.held, g.kernelEnd, g.kernelTable⟩
  · rw [s.leafAt_eq g.wf.forest hr' hv', g.leaf r' hr' v' hv', hvalid]
    rfl
  · rw [s.mapping_eq g.wf.forest, g.mapping, he, hpage]
  · rw [s.descend_setPte g.wf.forest hr' hp]
    exact g.path r' hr' path hp x hx
  · have hxp : x ≠ p := by
      rintro rfl
      exact g.not_table h hx hxt s.isTable
    rw [setPte_word, write_row_of_ne hxp, g.word x hx hxt]

/-! ## Pages the kernel has just allocated -/

/-- The machine after `kalloc` returned `q` and the kernel filled it. -/
def filled (m : Machine) (q : Word) (c : Nat → Word) : Machine := (m.taken q).setPage q c

section Fresh

variable {ps : List Word} {c : Nat → Word}

@[simp] lemma filled_freelist : (filled m q c).freelist = m.freelist.tail := rfl
@[simp] lemma filled_refcnt : (filled m q c).refcnt = update m.refcnt q 1 := rfl
@[simp] lemma filled_held : (filled m q c).held = m.held := rfl
@[simp] lemma filled_kernelEnd : (filled m q c).kernelEnd = m.kernelEnd := rfl
@[simp] lemma filled_kernelTable : (filled m q c).kernelTable = m.kernelTable := rfl

@[simp] lemma filled_word_self : (filled m q c).word q = c := by simp [filled]

lemma filled_word (hx : x ≠ q) : (filled m q c).word x = m.word x := by
  simp [filled, update_of_ne hx]

lemma filled_zero (m : Machine) (q : Word) : filled m q (fun _ => 0) = m.taken q :=
  zeroPage_taken m q

section
variable (h : Inv A roots kept m) (hf : m.freelist = q :: ps)
include h hf

lemma inv_filled (c : Nat → Word) :
    Inv A roots (insert q kept) (filled m q c) :=
  (h.taken hf).setPage ((h.taken hf).not_table_of_kept (Set.mem_insert q kept)) c

lemma filled_table (c : Nat → Word)
    (x : Word) (hx : IsTable A roots m x) : (filled m q c).word x = m.word x := by
  have hne : x ≠ q := by
    rintro rfl
    exact h.owner_ne .table .free hx (show x ∈ m.freelist by simp [hf]) (by simp) rfl
  exact filled_word hne

lemma insert_sdiff : insert q kept \ {q} = kept :=
  Set.insert_sdiff_self_of_notMem (h.not_kept_of_free (by simp [hf]))

/-- Giving the page back undoes the allocation, whatever tables were added meanwhile. -/
lemma stable_giveBack (g : Grew A roots (insert q kept) (filled m q c) m') :
    (kfree A q).run m' = .ok ((), m'.freed q) ∧ Stable A roots kept m (m'.freed q) := by
  have hi := g.inv (inv_filled h hf c)
  have hq : q ∈ insert q kept := Set.mem_insert q kept
  have hret := hi.returned hq
  rw [insert_sdiff h hf] at hret
  have hcong := filled_table h hf c
  have hne : ∀ x, IsTable A roots m' x → (m'.returned q).word x = m'.word x := by
    intro x hx
    have hxq : x ≠ q := by
      rintro rfl
      exact hi.not_table_of_kept hq hx
    simp [update_of_ne hxq]
  -- Pages that are neither free nor tables keep their words and counts.
  have huse : ∀ x, x ∉ m.freelist → ¬IsTable A roots m x →
      (m'.returned q).word x = m.word x ∧ m'.refcnt x = m.refcnt x := by
    intro x hx ht
    have hxq : x ≠ q := by
      rintro rfl
      exact hx (by simp [hf])
    have hx' : x ∉ (filled m q c).freelist := fun hc => hx (mem_of_mem_tail hc)
    rw [returned_word, update_of_ne hxq, g.word x hx' (by rwa [isTable_congr hcong]),
      filled_word hxq, g.refcnt x hx', filled_refcnt, update_of_ne hxq]
    exact ⟨rfl, rfl⟩
  refine ⟨run_kfree hi.unlocked (hi.isPage (o := .kernel) hq), ?_⟩
  rw [hi.freed_kept hq]
  have hleaf : ∀ r ∈ roots, ∀ v < userPages, leafAt A (m'.returned q) r v = leafAt A m r v := by
    intro r hr v hv
    rw [leafAt_congr hne hr hv, g.leaf r hr v hv, leafAt_congr hcong hr hv]
  refine ⟨⟨⟨fun r hr path hp x hx => ?_, fun x hx => ?_, g.held, g.kernelEnd, g.kernelTable⟩, hret,
    fun x hx => by rwa [mapping_of_leaf hleaf], fun x hx => ?_⟩, hleaf⟩
  · rw [descend_congr hne hr hp]
    exact g.path r hr path hp x (by rw [descend_congr hcong hr hp, hx])
  · exact huse x (fun hc => h.not_kept_of_free hc hx) (h.not_table_of_kept hx)
  · exact (huse x (fun hc => h.not_held_of_free hc hx) (h.not_table_of_held hx)).1

lemma faulted_of_mapsTo (hm : MapsTo A roots (insert q kept \ {q}) (filled m q c) m' r v e)
    (hi : Inv A roots (insert q kept \ {q}) m') (hpage : A.page e = q)
    (hn : mapping A roots m (r, v) = none) : Faulted A roots kept m m' r v e c := by
  have hcong := filled_table h hf c
  have hfi := inv_filled h hf c
  have hq : q ∈ insert q kept := Set.mem_insert q kept
  rw [insert_sdiff h hf] at hi
  have huse : ∀ x, x ∉ m.freelist → ¬IsTable A roots m x →
      m'.word x = m.word x ∧ m'.refcnt x = m.refcnt x := by
    intro x hx ht
    have hxq : x ≠ q := by
      rintro rfl
      exact hx (by simp [hf])
    have hx' : x ∉ (filled m q c).freelist := fun hc => hx (mem_of_mem_tail hc)
    rw [hm.word x hx' (by rwa [isTable_congr hcong]), filled_word hxq, hm.refcnt x hx',
      filled_refcnt, update_of_ne hxq]
    exact ⟨rfl, rfl⟩
  have hnd : q ∉ (filled m q c).freelist := by
    have := h.nodup
    rw [hf, nodup_cons] at this
    simpa [hf] using this.1
  refine ⟨⟨⟨fun r hr path hp x hx => ?_, fun x hx => ?_, hm.held, hm.kernelEnd, hm.kernelTable⟩, hi,
    fun x hx => ?_, fun x hx => ?_⟩, fun r' hr' v' hv' => ?_, ?_, ?_, ?_⟩
  · exact hm.path r hr path hp x (by rw [descend_congr hcong hr hp, hx])
  · exact huse x (fun hc => h.not_kept_of_free hc hx) (h.not_table_of_kept hx)
  · rw [hm.mapping, mapping_congr hcong, hpage]
    have hxq : x ≠ q := by
      rintro rfl
      exact h.not_held_of_free (by simp [hf]) hx
    exact (held_update_of_ne (by simp [hxq.symm]) (by simp [hn])).mpr hx
  · exact (huse x (fun hc => h.not_held_of_free hc hx) (h.not_table_of_held hx)).1
  · rw [hm.leaf r' hr' v' hv', leafAt_congr hcong hr' hv']
  · rw [hpage, hf]
    exact mem_cons_self
  · rw [hpage, hm.word q hnd (hfi.not_table_of_kept hq), filled_word_self]
  · have hs := hm.spent
    rw [filled_freelist, hf, tail_cons] at hs
    rw [hf, length_cons]
    omega

lemma missing_filled (hr : r ∈ roots)
    (hv : v < userPages) : missing A (filled m q c) r v = missing A m r v := by
  have hcong := filled_table h hf c
  have hroot : IsTable A roots m r := Table.of_root hr
  unfold missing
  rw [hcong r hroot]
  cases hn : A.next (m.word r (v / 512 / 512 % 512)) with
  | none => rfl
  | some p =>
    have hp : IsTable A roots m p := by
      refine .of_descend hr (userLevels_head hv) ?_
      simp [descend, hn]
    simp only [hcong p hp]

end

lemma copyPage_taken (hne : p ≠ q) : (m.taken q).copyPage q p = filled m q (m.word p) := by
  simp [copyPage, filled, update_of_ne hne]

lemma resolved_of_replace (h : Inv A roots kept m) (s : UserSlot A roots m r v p i)
    (hl : leafAt A m r v = some e₀) (hf : m.freelist = q :: ps) (he : A.next e = some q) :
    Resolved A roots kept m
      (((filled m q (m.word (A.page e₀))).freed (A.page e₀)).setPte p i e) r v e₀ e := by
  have hi := inv_filled h hf (m.word (A.page e₀))
  have hcong := filled_table h hf (m.word (A.page e₀))
  have s' := s.congr hcong
  have hl' : leafAt A (filled m q (m.word (A.page e₀))) r v = some e₀ := by
    rw [leafAt_congr hcong s.root s.user, hl]
  obtain ⟨hvalid, hpage⟩ := next_eq_some.mp he
  have hinv := s'.inv_replace hi hl' (Set.mem_insert q kept) (by simp) he
  rw [insert_sdiff h hf] at hinv
  have htab := s'.isTable_freed (e := e) hi.toWf hl'
  have hmap := s'.mapping_freed (e := e) hi.toWf hl'
  have hfree : q ∈ m.freelist := by simp [hf]
  have huser : Held (mapping A roots m) (A.page e₀) := ⟨(r, v), s.mapping_leaf hl⟩
  have hqe : q ≠ A.page e₀ := by
    rintro rfl
    exact h.not_held_of_free hfree huser
  have hqp : q ≠ p := by
    rintro rfl
    exact h.owner_ne .table .free s.isTable hfree (by simp) rfl
  -- A page other than the new one and the tables changes only if the release clears it.
  have hword : ∀ x, x ≠ q → x ≠ p → (x = A.page e₀ → 1 < m.refcnt x) →
      (((filled m q (m.word (A.page e₀))).freed (A.page e₀)).setPte p i e).word x =
        m.word x := by
    intro x hxq hxp hx
    rw [setPte_word, write_row_of_ne hxp, freed_word]
    split
    · exact filled_word hxq
    · rename_i hc
      have hxe : x ≠ A.page e₀ := by
        rintro rfl
        refine hc ?_
        rw [filled_refcnt, update_of_ne hqe.symm]
        exact hx rfl
      rw [update_of_ne hxe, filled_word hxq]
  refine ⟨⟨fun r' hr' path hp x hx => ?_, fun x hx => ?_, ?_, ?_, ?_⟩, hinv,
    fun r' hr' v' hv' => ?_, ?_, ?_, fun x hx hx' => ?_, fun x hx => ?_⟩
  · rw [s'.descend_freed hi.toWf hl' hr' hp, descend_congr hcong hr' hp, hx]
  · have hxq : x ≠ q := h.owner_ne .kernel .free hx hfree (by simp)
    have hxp : x ≠ p := h.owner_ne .kernel .table hx s.isTable (by simp)
    have hxe : x ≠ A.page e₀ := h.owner_ne .kernel .user hx huser (by simp)
    refine ⟨hword x hxq hxp fun hc => absurd hc hxe, ?_⟩
    rw [setPte_refcnt, freed_refcnt]
    split <;> simp [update_of_ne hxe, update_of_ne hxq]
  · rw [setPte_held, freed_held, filled_held]
  · rw [setPte_kernelEnd, freed_kernelEnd, filled_kernelEnd]
  · rw [setPte_kernelTable, freed_kernelTable, filled_kernelTable]
  · rw [s'.leafAt_freed hi.toWf hl' hr' hv', leafAt_congr hcong hr' hv', hvalid]
    rfl
  · rw [hpage]
    exact hfree
  · rw [hpage, setPte_word, write_row_of_ne hqp, freed_word]
    split <;> simp [update_of_ne hqe]
  · have hxq : x ≠ q := by
      rintro rfl
      exact h.not_held_of_free hfree hx
    have hxp : x ≠ p := by
      rintro rfl
      exact h.not_table_of_held hx s.isTable
    refine hword x hxq hxp fun hxe => ?_
    -- The old page is still mapped, so this was not its last reference.
    by_contra hc
    subst hxe
    have hlast := h.counted.drop_last (s.mapping_leaf hl) (by omega)
    rw [hmap, mapping_congr hcong, he] at hx'
    obtain ⟨y, hy⟩ := hx'
    refine hlast ⟨y, ?_⟩
    by_cases hyx : y = (r, v)
    · subst hyx
      rw [update_self] at hy
      exact absurd (Option.some.inj hy) hqe
    · rw [update_of_ne hyx] at hy ⊢
      exact hy
  · rwa [htab, isTable_congr hcong] at hx

end Fresh

/-! ## Sharing a page -/

section Share

lemma mapping_shared : mapping A roots (m.shared q) = mapping A roots m :=
  mapping_congr fun _ _ => rfl

section
variable (h : Inv A roots kept m) (hq : Held (mapping A roots m) q)
include h hq

lemma Inv.wf_shared : Wf A roots kept (m.shared q) := by
  refine h.toWf.congr (fun _ _ => rfl) rfl rfl rfl fun x hx => ?_
  have hxq : x ≠ q := by
    rintro rfl
    rcases hx with hx | hx
    · exact h.not_table_of_held hq hx
    · exact h.not_held_of_kept hx hq
  rw [shared_refcnt, update_of_ne hxq]
  exact h.single x hx

lemma Inv.of_share (hn : mapping A roots m (r, v) = none)
    (hm : MapsTo A roots kept (m.shared q) m' r v e)
    (hpage : A.page e = q) : Inv A roots kept m' := by
  refine ⟨hm.wf, ?_⟩
  rw [hm.mapping, mapping_shared, hpage]
  refine (h.counted.share hn hq).congr fun p hp => hm.refcnt p fun hf => ?_
  have hpq : p ≠ q := by
    rintro rfl
    exact h.not_held_of_free hf hq
  rw [held_update_of_ne (by simp [hpq.symm]) (by simp [hn])] at hp
  exact h.not_held_of_free hf hp

lemma Inv.of_unshare (g : Grew A roots kept (m.shared q) m') :
    Inv A roots kept (m'.unshared q) := by
  have hmap : mapping A roots (m'.unshared q) = mapping A roots m :=
    (mapping_congr (m := m') fun _ _ => rfl).trans (g.mapping.trans mapping_shared)
  have hqf : q ∉ m.freelist := fun hf => h.not_held_of_free hf hq
  have hcq : m'.refcnt q = m.refcnt q + 1 := by
    rw [g.refcnt q hqf, shared_refcnt, update_self]
  refine ⟨g.wf.congr (fun _ _ => rfl) rfl rfl rfl fun x hx => ?_, ?_⟩
  · have hxq : x ≠ q := by
      rintro rfl
      rcases hx with hx | hx
      · exact g.not_table_of_user (by rwa [mapping_shared]) hx
      · exact h.not_held_of_kept hx hq
    rw [unshared_refcnt, update_of_ne hxq]
    exact g.wf.single x hx
  · rw [hmap]
    refine h.counted.congr fun p hp => ?_
    rw [unshared_refcnt]
    by_cases hpq : p = q
    · subst hpq
      rw [update_self, hcq]
      omega
    · rw [update_of_ne hpq, g.refcnt p fun hf => h.not_held_of_free hf hp,
        shared_refcnt, update_of_ne hpq]

lemma Inv.ne_of_kept (hx : x ∈ kept) : x ≠ q := by
  rintro rfl
  exact h.not_held_of_kept hx hq

lemma keeps_share (hn : mapping A roots m (r, v) = none)
    (hm : MapsTo A roots kept (m.shared q) m' r v e)
    (hpage : A.page e = q) : Keeps A roots kept m m' := by
  refine ⟨⟨hm.path, fun x hx => ?_, hm.held, hm.kernelEnd, hm.kernelTable⟩,
    h.of_share hq hn hm hpage, fun x hx => ?_, fun x hx => ?_⟩
  · have hf : x ∉ m.freelist := fun hf => h.not_kept_of_free hf hx
    refine ⟨hm.word x hf (h.not_table_of_kept hx), ?_⟩
    rw [hm.refcnt x hf, shared_refcnt, update_of_ne (h.ne_of_kept hq hx)]
  · rw [hm.mapping, mapping_shared, hpage]
    by_cases hxq : x = q
    · subst hxq
      exact ⟨(r, v), update_self ..⟩
    · exact (held_update_of_ne (by simp [Ne.symm hxq]) (by simp [hn])).mpr hx
  · exact hm.word x (fun hf => h.not_held_of_free hf hx) (h.not_table_of_held hx)

lemma stable_unshare (g : Grew A roots kept (m.shared q) m') :
    Stable A roots kept m (m'.unshared q) := by
  have hleaf : ∀ r ∈ roots, ∀ v < userPages, leafAt A (m'.unshared q) r v = leafAt A m r v :=
    fun r hr v hv => g.leaf r hr v hv
  refine ⟨⟨⟨g.path, fun x hx => ?_, g.held, g.kernelEnd, g.kernelTable⟩, h.of_unshare hq g,
    fun x hx => by rwa [mapping_of_leaf hleaf], fun x hx => ?_⟩, hleaf⟩
  · have hf : x ∉ m.freelist := fun hf => h.not_kept_of_free hf hx
    have hxq := h.ne_of_kept hq hx
    refine ⟨g.word x hf (h.not_table_of_kept hx), ?_⟩
    rw [unshared_refcnt, update_of_ne hxq, g.refcnt x hf, shared_refcnt, update_of_ne hxq]
  · exact g.word x (fun hf => h.not_held_of_free hf hx) (h.not_table_of_held hx)

end

lemma UserSlot.keeps_rewrite (s : UserSlot A roots m r v p i) (h : Inv A roots kept m)
    (hl : leafAt A m r v = some e₀) (he : A.next e = some (A.page e₀)) :
    Keeps A roots kept m (m.setPte p i e) := by
  have hmap : mapping A roots (m.setPte p i e) = mapping A roots m := by
    rw [s.mapping_eq h.forest, s.update_same hl he]
  have hw : ∀ x, ¬IsTable A roots m x → (m.setPte p i e).word x = m.word x := by
    intro x hx
    have hxp : x ≠ p := by
      rintro rfl
      exact hx s.isTable
    rw [setPte_word, write_row_of_ne hxp]
  refine ⟨⟨fun r' hr' path hp x hx => ?_, fun x hx => ⟨hw x (h.not_table_of_kept hx), rfl⟩,
    rfl, rfl,
    rfl⟩, s.inv_rewrite h hl he, fun x hx => by rwa [hmap],
    fun x hx => hw x (h.not_table_of_held hx)⟩
  rw [s.descend_setPte h.forest hr' hp, hx]

end Share

/-! ## New page tables -/

/-- The page `q` became a root table without user entries. -/
structure Created (A : Arch) (roots kept : Set Word) (m m' : Machine) (q : Word) : Prop extends
    Frame A roots kept m m' where
  inv : Inv A (insert q roots) kept m'
  fresh : q ∈ m.freelist
  leaf : ∀ r ∈ roots, ∀ v < userPages, leafAt A m' r v = leafAt A m r v
  empty : ∀ v < userPages, leafAt A m' q v = none
  user : ∀ p, Held (mapping A roots m) p → m'.word p = m.word p

lemma leafAt_of_empty_root (hz : ∀ i < 256, A.next (m.word q i) = none) (hv : v < userPages) :
    leafAt A m q v = none := by
  have hi := userLevels_head_lt (userLevels_head hv)
  simp [leafAt, slotAt, pathOf, descend, hz _ hi]

/-- A table of the kernel without user entries may serve as a root. -/
lemma Inv.insert_root (h : Inv A roots kept m) (hq : q ∈ kept)
    (hz : ∀ i < 256, A.next (m.word q i) = none) : Inv A (insert q roots) (kept \ {q}) m := by
  have hz' : ∀ i, userLevels.mem [i] → A.next (m.word q i) = none := fun i hi =>
    hz i (userLevels_head_lt hi)
  have hnt := h.not_table_of_kept hq
  have htab : ∀ x, IsTable A (insert q roots) m x ↔ IsTable A roots m x ∨ x = q :=
    table_insert_root hz'
  have hmap : mapping A (insert q roots) m = mapping A roots m := by
    funext x
    by_cases hx : x.2 < userPages
    · by_cases hxq : x.1 = q
      · have hnr : q ∉ roots := fun hc => hnt (Table.of_root hc)
        simp [mapping, hxq, hnr, leafAt_of_empty_root hz hx]
      · by_cases hxr : x.1 ∈ roots
        · rw [mapping_of_mem (.inr hxr) hx, mapping_of_mem hxr hx]
        · simp [mapping, hxr, hxq]
    · simp [mapping, hx]
  have hown : Owns A roots kept m q .kernel := hq
  have honly := h.owner.eq_owner hown
  refine ⟨⟨h.forest.insert_root hnt hz', h.unlocked, h.nodup, ?_, fun x hx => ?_⟩, ?_⟩
  · refine h.owner.transfer .table hown (fun o => ?_) fun x hx o => ?_
    · cases o with
      | free => exact (honly .free).trans (by simp)
      | table => simp [Owns, htab]
      | user =>
        have := honly .user
        simp only [Owns] at this ⊢
        simp [hmap, this]
      | kernel => simp [Owns]
    · cases o with
      | free => rfl
      | table => simp [Owns, htab, hx]
      | user => simp [Owns, hmap]
      | kernel => simp [Owns, hx]
  · rw [htab] at hx
    rcases hx with (hx | rfl) | hx
    · exact h.single x (.inl hx)
    · exact h.single x (.inr hq)
    · exact h.single x (.inr hx.1)
  · rw [hmap]
    exact h.counted

end FrostVista
