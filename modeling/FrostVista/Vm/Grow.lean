import FrostVista.Vm.Leaf

/-!
# Walks that allocate

A walk with `alloc` set takes pages from the free list and links them as tables. `Grew` collects
what every other part of the system can rely on: no leaf appears or disappears, existing entries
stay where they are, and the contents and reference counts of all pages in use are untouched.
-/
namespace FrostVista

open Lib Lib.Comp Lib.Radix Lib.RefCount Function Machine

variable {A : Arch} {roots kept : Set Word} {m m' m'' : Machine}

/-- `m'` differs from `m` only by additional tables. -/
structure Grew (A : Arch) (roots kept : Set Word) (m m' : Machine) : Prop where
  wf : Wf A roots kept m'
  leaf : ∀ r ∈ roots, ∀ v < userPages, leafAt A m' r v = leafAt A m r v
  slot : ∀ r ∈ roots, ∀ v < userPages, ∀ s, slotAt A m r v = some s → slotAt A m' r v = some s
  path : ∀ r ∈ roots, ∀ path, userLevels.mem path → ∀ p,
    descend A.next m.word r path = some p → descend A.next m'.word r path = some p
  word : ∀ p, p ∉ m.freelist → ¬IsTable A roots m p → m'.word p = m.word p
  refcnt : ∀ p, p ∉ m.freelist → m'.refcnt p = m.refcnt p
  free : m'.freelist <:+ m.freelist
  held : m'.held = m.held
  kernelEnd : m'.kernelEnd = m.kernelEnd
  kernelTable : m'.kernelTable = m.kernelTable

namespace Grew

lemma refl (h : Wf A roots kept m) : Grew A roots kept m m where
  wf := h
  leaf _ _ _ _ := rfl
  slot _ _ _ _ _ hs := hs
  path _ _ _ _ _ hp := hp
  word _ _ _ := rfl
  refcnt _ _ := rfl
  free := List.suffix_rfl
  held := rfl
  kernelEnd := rfl
  kernelTable := rfl

section
variable (g : Grew A roots kept m m')
include g

lemma mapping : mapping A roots m' = FrostVista.mapping A roots m := by
  funext x
  unfold FrostVista.mapping
  split
  · rename_i hx
    rw [g.leaf x.1 hx.1 x.2 hx.2]
  · rfl

lemma not_free (h : p ∉ m.freelist) :
    p ∉ m'.freelist := fun hc => h (g.free.subset hc)

lemma not_table_of_user (h : Held (FrostVista.mapping A roots m) p) :
    ¬IsTable A roots m' p := fun ht =>
  g.wf.owner_ne .table .user ht (by rwa [Owns, g.mapping]) (by simp) rfl

lemma not_table_of_kept (h : p ∈ kept) :
    ¬IsTable A roots m' p := fun ht => g.wf.owner_ne .table .kernel ht h (by simp) rfl

end

lemma not_table (h : Wf A roots kept m) (g : Grew A roots kept m m')
    (hf : p ∉ m.freelist) (ht : ¬IsTable A roots m p) : ¬IsTable A roots m' p := by
  intro hc
  have hpage : IsPage A m p := by
    have := g.wf.isPage (o := .table) hc
    rwa [isPage_congr g.kernelEnd] at this
  obtain ⟨o, ho⟩ := h.owner.owned p hpage
  cases o with
  | free => exact hf ho
  | table => exact ht ho
  | user => exact g.not_table_of_user ho hc
  | kernel => exact g.not_table_of_kept ho hc

lemma trans (h : Wf A roots kept m) (g : Grew A roots kept m m') (g' : Grew A roots kept m' m'') :
    Grew A roots kept m m'' where
  wf := g'.wf
  leaf r hr v hv := (g'.leaf r hr v hv).trans (g.leaf r hr v hv)
  slot r hr v hv s hs := g'.slot r hr v hv s (g.slot r hr v hv s hs)
  path r hr path hp p hd := g'.path r hr path hp p (g.path r hr path hp p hd)
  word p hf ht := (g'.word p (g.not_free hf) (g.not_table h hf ht)).trans (g.word p hf ht)
  refcnt p hf := (g'.refcnt p (g.not_free hf)).trans (g.refcnt p hf)
  free := g'.free.trans g.free
  held := g'.held.trans g.held
  kernelEnd := g'.kernelEnd.trans g.kernelEnd
  kernelTable := g'.kernelTable.trans g.kernelTable

lemma counted (h : Wf A roots kept m) (hc : Counted (FrostVista.mapping A roots m) m.refcnt)
    (g : Grew A roots kept m m') : Counted (FrostVista.mapping A roots m') m'.refcnt := by
  rw [g.mapping]
  refine hc.congr fun p hp => g.refcnt p fun hf => ?_
  exact h.owner_ne .free .user hf hp (by simp) rfl

lemma inv (h : Inv A roots kept m) (g : Grew A roots kept m m') : Inv A roots kept m' :=
  ⟨g.wf, g.counted h.toWf h.counted⟩

end Grew

/-! ## Growing by one table -/

section Level

variable {r p q : Word} {path : List Nat} {i : Nat} {ps : List Word}

lemma zeroPage_taken (m : Machine) (q : Word) : (m.taken q).zeroPage q = m.taken q := by
  simp [zeroPage, setPage, taken]

section
variable (h : Wf A roots kept m) (hr : r ∈ roots) (hp : userLevels.mem (path ++ [i]))
  (hd : descend A.next m.word r path = some p)
include h hr hp hd

lemma Wf.linkable_taken (hn : A.next (m.word p i) = none) (hf : m.freelist = q :: ps) :
    Linkable A roots (insert q kept) (m.taken q) r p q path i := by
  have hcong := h.taken_word hf
  have hpath := userLevels.init path i hp
  refine ⟨hr, hp, ?_, ?_, Set.mem_insert q kept, fun j => by simp⟩
  · rw [descend_congr hcong hr hpath, hd]
  · rw [hcong p (.of_descend hr hpath hd), hn]

lemma Wf.grew_link (hn : A.next (m.word p i) = none) (hf : m.freelist = q :: ps) :
    Grew A roots kept m ((m.taken q).setPte p i (A.dirEntry (va2pa q))) := by
  have hl := h.linkable_taken hr hp hd hn hf
  have hw := h.taken hf
  have hcong := h.taken_word hf
  have hfree : Owns A roots kept m q .free := by simp [Owns, hf]
  have hkept : insert q kept \ {q} = kept := by
    refine Set.insert_sdiff_self_of_notMem fun hc => ?_
    exact h.owner_ne .kernel .free hc hfree (by simp) rfl
  have hpath : ∀ r' ∈ roots, ∀ path', userLevels.mem path' → ∀ x,
      descend A.next m.word r' path' = some x →
      descend A.next ((m.taken q).setPte p i (A.dirEntry (va2pa q))).word r' path' = some x := by
    intro r' hr' path' hp' x hx
    rw [setPte_word, descend_link hw.forest hl.root hl.path_mem hl.table hl.empty
      (hl.next_entry hw) (hl.not_table hw) hl.next_zero hr' hp',
      descend_congr hcong hr' hp', if_neg, hx]
    rintro ⟨rfl, rfl⟩
    simp [descend_snoc, hd, hn] at hx
  refine ⟨hkept ▸ hl.wf hw, fun r' hr' v hv => ?_, fun r' hr' v hv s hs => ?_, hpath,
    fun x hx ht => ?_, fun x hx => ?_, ?_, rfl, rfl, rfl⟩
  · rw [hl.leafAt_eq hw hr' hv, leafAt_congr hcong hr' hv]
  · obtain ⟨x, hx, rfl⟩ := Option.map_eq_some_iff.mp hs
    rw [slotAt, hpath r' hr' _ (userLevels_pathOf hv) x hx]
    rfl
  · have hxq : x ≠ q := by
      rintro rfl
      exact hx hfree
    have hxp : x ≠ p := by
      rintro rfl
      exact ht (.of_descend hr (userLevels.init path i hp) hd)
    rw [Machine.setPte_word, write_row_of_ne hxp, Machine.taken_word, update_of_ne hxq]
  · have hxq : x ≠ q := by
      rintro rfl
      exact hx hfree
    simp [update_of_ne hxq]
  · simp [hf]

lemma walkLevel_total :
    Total (walkLevel A p i true) m fun o m' => Grew A roots kept m m' ∧
      match o with
      | some q => descend A.next m'.word r (path ++ [i]) = some q ∧
          (A.next (m.word p i) = some q ∧ m' = m ∨
            A.next (m.word p i) = none ∧ (∀ j, m'.word q j = 0#64) ∧
              ∃ ps, m.freelist = q :: ps ∧ m'.freelist = ps)
      | none => A.next (m.word p i) = none ∧ m.freelist = [] := by
  cases hn : A.next (m.word p i) with
  | some q =>
    refine ⟨some q, m, run_walkLevel_of_valid true hn, .refl h, ?_, .inl ⟨rfl, rfl⟩⟩
    simp [descend_snoc, hd, hn]
  | none =>
    have hv : A.valid (m.word p i) = false := by
      by_contra hc
      simp [Arch.next, hc] at hn
    cases hf : m.freelist with
    | nil =>
      refine ⟨none, m, ?_, .refl h, rfl, rfl⟩
      simp [walkLevel, run_bind, hv, run_kalloc_nil h.unlocked hf]
    | cons q ps =>
      have hl := h.linkable_taken hr hp hd hn hf
      have hw := h.taken hf
      have hqp : q ≠ p := by
        rintro rfl
        exact hl.not_table hw (.of_descend hr hl.path_mem hl.table)
      refine ⟨some q, (m.taken q).setPte p i (A.dirEntry (va2pa q)), ?_,
        h.grew_link hr hp hd hn hf, ?_, .inr ⟨rfl, fun j => ?_, ps, rfl, by simp [hf]⟩⟩
      · simp [walkLevel, run_bind, hv, run_kalloc_cons h.unlocked hf, zeroPage_taken]
      · rw [setPte_word, descend_link hw.forest hl.root hl.path_mem hl.table hl.empty
          (hl.next_entry hw) (hl.not_table hw) hl.next_zero hr hp, if_pos ⟨rfl, rfl⟩]
      · rw [setPte_word, write_row_of_ne hqp]
        simp

end

end Level

/-- The number of tables that are missing on the way to user page `v`. -/
def missing (A : Arch) (m : Machine) (root : Word) (v : Nat) : Nat :=
  match A.next (m.word root (v / 512 / 512 % 512)) with
  | none => 2
  | some p => if A.next (m.word p (v / 512 % 512)) = none then 1 else 0

lemma missing_le_two (m : Machine) (r : Word) (v : Nat) : missing A m r v ≤ 2 := by
  unfold missing
  split
  · omega
  · split <;> omega

lemma missing_vpnGet (m : Machine) (r va : Word) :
    missing A m r (pageNo va) = match A.next (m.word r (vpnGet va 2)) with
      | none => 2
      | some p => if A.next (m.word p (vpnGet va 1)) = none then 1 else 0 := by
  rw [vpnGet_two, vpnGet_one]
  rfl

/-- An allocating walk finds the entry unless the free list is too short. -/
lemma walk_total (h : Wf A roots kept m) (hr : r ∈ roots) (hv : pageNo va < userPages) :
    Total (walk A r va true) m fun o m' => Grew A roots kept m m' ∧
      match o with
      | some s => slotAt A m' r (pageNo va) = some s ∧
          missing A m r (pageNo va) ≤ m.freelist.length ∧
          m'.freelist = m.freelist.drop (missing A m r (pageNo va))
      | none => m.freelist.length < missing A m r (pageNo va) := by
  have hpath : pathOf (pageNo va) = ([] ++ [vpnGet va 2]) ++ [vpnGet va 1] := by
    rw [pathOf, vpnGet_two, vpnGet_one]
    rfl
  have h1 : userLevels.mem (([] ++ [vpnGet va 2]) ++ [vpnGet va 1]) :=
    hpath ▸ userLevels_pathOf hv
  have h2 := userLevels.init _ _ h1
  rw [missing_vpnGet]
  refine (walkLevel_total h hr h2 rfl).bind fun o m1 ho => ?_
  obtain ⟨g1, ho⟩ := ho
  cases o with
  | none =>
    obtain ⟨hn, hf⟩ := ho
    exact Total.pure ⟨g1, by simp [hn, hf]⟩
  | some p1 =>
    obtain ⟨hd1, ho⟩ := ho
    refine (walkLevel_total g1.wf hr h1 hd1).bind fun o m2 ho' => ?_
    obtain ⟨g2, ho'⟩ := ho'
    have g := g1.trans h g2
    cases o with
    | none =>
      obtain ⟨hn', hf'⟩ := ho'
      refine Total.pure ⟨g, ?_⟩
      rcases ho with ⟨hn, rfl⟩ | ⟨hn, -, ps, hf, hps⟩
      · simp [hn, hn', hf']
      · simp [hn, hf, ← hps, hf']
    | some p0 =>
      obtain ⟨hd0, ho'⟩ := ho'
      have hs : slotAt A m2 r (pageNo va) = some (p0, vpnGet va 0) := by
        rw [slotAt, hpath, hd0, vpnGet_zero]
        rfl
      refine Total.pure ⟨g, hs, ?_⟩
      rcases ho with ⟨hn, rfl⟩ | ⟨hn, hz, ps, hf, hps⟩
      · rcases ho' with ⟨hn', rfl⟩ | ⟨hn', -, ps', hf', hps'⟩
        · simp [hn, hn']
        · simp [hn, hn', hf', hps']
      · -- A table linked in this walk has no entry yet, so the next level is linked as well.
        rcases ho' with ⟨hn', -⟩ | ⟨-, -, ps', hf', hps'⟩
        · simp [hz] at hn'
        · rw [hps] at hf'
          simp [hn, hf, hf', hps']

end FrostVista
