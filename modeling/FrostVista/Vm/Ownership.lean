import FrostVista.Library.Ownership
import FrostVista.Library.RefCount
import FrostVista.Vm.Walk

/-!
# Who owns a physical page

Every page the allocator may hand out is in exactly one of four hands: the free list, a page table,
a user mapping, or the kernel itself. `Wf` states this together with the absence of shared tables.
-/
namespace FrostVista

open Lib Lib.Radix Lib.RefCount Function

variable (A : Arch) (roots kept : Set Word) (m : Machine)

def IsTable (p : Word) : Prop := Table A.next userLevels roots m.word p

open Classical in
/-- The physical page of every user mapping, over all page tables. -/
noncomputable def mapping (x : Word × Nat) : Option Word :=
  if x.1 ∈ roots ∧ x.2 < userPages then (leafAt A m x.1 x.2).map A.page else none

inductive Owner where
  | free
  | table
  | user
  | kernel

def Owns (p : Word) : Owner → Prop
  | .free => p ∈ m.freelist
  | .table => IsTable A roots m p
  | .user => Held (mapping A roots m) p
  | .kernel => p ∈ kept

/-- The page tables below `roots` are disjoint and every page has one owner. -/
structure Wf : Prop where
  forest : Forest A.next userLevels roots m.word
  unlocked : Lock.mem ∉ m.held
  nodup : m.freelist.Nodup
  owner : Exclusive (IsPage A m) (Owns A roots kept m)
  single : ∀ p, IsTable A roots m p ∨ p ∈ kept → m.refcnt p ≤ 1

variable {A roots kept m}

lemma mapping_of_mem (hr : r ∈ roots) (hv : v < userPages) :
    mapping A roots m (r, v) = (leafAt A m r v).map A.page := by
  simp [mapping, hr, hv]

lemma mapping_eq_some : mapping A roots m x = some p ↔
      x.1 ∈ roots ∧ x.2 < userPages ∧ ∃ e, leafAt A m x.1 x.2 = some e ∧ A.page e = p := by
  unfold mapping
  split
  · rename_i h
    simp [h]
  · rename_i h
    constructor
    · intro hc
      cases hc
    · rintro ⟨hr, hv, -⟩
      exact absurd ⟨hr, hv⟩ h

instance : Finite Word :=
  Finite.of_injective BitVec.toFin fun _ _ h => BitVec.eq_of_toNat_eq (congrArg Fin.val h)

lemma mapping_finite : {x | mapping A roots m x ≠ none}.Finite := by
  refine (Set.finite_univ.prod (Set.finite_lt_nat userPages)).subset fun x hx => ?_
  obtain ⟨p, hp⟩ := Option.ne_none_iff_exists'.mp hx
  exact ⟨Set.mem_univ _, (mapping_eq_some.mp hp).2.1⟩

namespace Wf

lemma isPage (h : Wf A roots kept m) (ho : Owns A roots kept m p o) :
    IsPage A m p := h.owner.inside p o ho

lemma owner_ne (h : Wf A roots kept m) (o o' : Owner)
    (hp : Owns A roots kept m p o) (hq : Owns A roots kept m q o') (hne : o ≠ o') : p ≠ q := by
  rintro rfl
  exact hne (h.owner.unique p o o' hp hq)

lemma table_of_slot (hr : r ∈ roots) (hv : v < userPages)
    (hs : slotAt A m r v = some (p, i)) : IsTable A roots m p :=
  .of_descend hr (userLevels_pathOf hv) (slotAt_idx hs).1

lemma user_of_leaf (hr : r ∈ roots) (hv : v < userPages)
    (hl : leafAt A m r v = some e) : Owns A roots kept m (A.page e) .user :=
  ⟨(r, v), mapping_eq_some.mpr ⟨hr, hv, e, hl, rfl⟩⟩

end Wf

lemma slot_injective (h : Forest A.next userLevels roots m.word) (hr : r ∈ roots)
    (hr' : r' ∈ roots) (hv : v < userPages) (hv' : v' < userPages)
    (hs : slotAt A m r v = some (p, i)) (hs' : slotAt A m r' v' = some (p, i)) :
    r = r' ∧ v = v' := by
  obtain ⟨hd, hi⟩ := slotAt_idx hs
  obtain ⟨hd', hi'⟩ := slotAt_idx hs'
  obtain ⟨rfl, hpath⟩ := h r hr r' hr' _ _ (userLevels_pathOf hv) (userLevels_pathOf hv') p hd hd'
  exact ⟨rfl, pathOf_injective hv hv' hpath (hi.symm.trans hi')⟩

/-! ## Changes outside the tables -/

section Frame

variable {m' : Machine}

lemma isPage_congr (hk : m'.kernelEnd = m.kernelEnd) : IsPage A m' = IsPage A m := by
  funext p
  refine propext ⟨?_, ?_⟩ <;> rintro ⟨h1, h2, h3, h4⟩
  · exact ⟨h1, h2, hk ▸ h3, h4⟩
  · exact ⟨h1, h2, hk ▸ h3, h4⟩

section
variable (h : ∀ p, IsTable A roots m p → m'.word p = m.word p)
include h

lemma slotAt_congr (hr : r ∈ roots) (hv : v < userPages) : slotAt A m' r v = slotAt A m r v := by
  unfold slotAt
  rw [descend_congr h hr (userLevels_pathOf hv)]

lemma leafAt_congr (hr : r ∈ roots) (hv : v < userPages) : leafAt A m' r v = leafAt A m r v := by
  unfold leafAt
  rw [slotAt_congr h hr hv]
  cases hs : slotAt A m r v with
  | none => rfl
  | some s => simp [h s.1 (Wf.table_of_slot hr hv hs)]

lemma mapping_congr :
    mapping A roots m' = mapping A roots m := by
  funext x
  unfold mapping
  split
  · rename_i hx
    rw [leafAt_congr h hx.1 hx.2]
  · rfl

lemma isTable_congr (p : Word) :
    IsTable A roots m' p ↔ IsTable A roots m p := table_congr h p

lemma held_congr (p : Word) :
    Held (mapping A roots m') p ↔ Held (mapping A roots m) p := by rw [mapping_congr h]

end

lemma Wf.congr (hw : Wf A roots kept m) (h : ∀ p, IsTable A roots m p → m'.word p = m.word p)
    (hf : m'.freelist = m.freelist) (hh : m'.held = m.held) (hk : m'.kernelEnd = m.kernelEnd)
    (hr : ∀ p, IsTable A roots m p ∨ p ∈ kept → m'.refcnt p ≤ 1) : Wf A roots kept m' where
  forest := hw.forest.congr h
  unlocked := by rw [hh]; exact hw.unlocked
  nodup := by rw [hf]; exact hw.nodup
  owner := by
    rw [isPage_congr hk]
    refine hw.owner.congr fun p o => ?_
    cases o with
    | free => simp [Owns, hf]
    | table => exact isTable_congr h p
    | user => simp [Owns, mapping_congr h]
    | kernel => rfl
  single p hp := hr p (by rwa [isTable_congr h] at hp)

end Frame

/-! ## Pages between the free list and the kernel -/

section Allocator

variable {q : Word} {ps : List Word}

lemma Wf.taken_word (h : Wf A roots kept m) (hf : m.freelist = q :: ps) (p : Word)
    (hp : IsTable A roots m p) : (m.taken q).word p = m.word p := by
  have hfree : Owns A roots kept m q .free := by simp [Owns, hf]
  have hne : p ≠ q := h.owner_ne .table .free hp hfree (by simp)
  simp [update_of_ne hne]

lemma Wf.taken (h : Wf A roots kept m) (hf : m.freelist = q :: ps) :
    Wf A roots (insert q kept) (m.taken q) := by
  have hcong := h.taken_word hf
  have hfree : Owns A roots kept m q .free := by simp [Owns, hf]
  have hnd : q ∉ ps ∧ ps.Nodup := by
    have := h.nodup
    rwa [hf, List.nodup_cons] at this
  refine ⟨h.forest.congr hcong, h.unlocked, by simpa [hf] using hnd.2, ?_, ?_⟩
  · rw [isPage_congr (show (m.taken q).kernelEnd = m.kernelEnd from rfl)]
    refine h.owner.transfer .kernel hfree (fun o => ?_) fun p hpq o => ?_
    · have honly := h.owner.eq_owner hfree
      cases o with
      | free => simp [Owns, hf, hnd.1]
      | table => exact (isTable_congr hcong q).trans ((honly .table).trans (by simp))
      | user => exact (held_congr hcong q).trans ((honly .user).trans (by simp))
      | kernel => simp [Owns]
    · cases o with
      | free => simp [Owns, hf, hpq]
      | table => exact isTable_congr hcong p
      | user => exact held_congr hcong p
      | kernel => simp [Owns, hpq]
  · intro p hp
    by_cases hpq : p = q
    · simp [hpq]
    · rw [isTable_congr hcong, Set.mem_insert_iff, or_iff_right hpq] at hp
      simpa [update_of_ne hpq] using h.single p hp

lemma Wf.returned (h : Wf A roots kept m) (hq : q ∈ kept) :
    Wf A roots (kept \ {q}) (m.returned q) := by
  have hcong : ∀ p, IsTable A roots m p → (m.returned q).word p = m.word p := by
    intro p hp
    have hne : p ≠ q := h.owner_ne .table .kernel hp hq (by simp)
    simp [update_of_ne hne]
  have hown : Owns A roots kept m q .kernel := hq
  have honly := h.owner.eq_owner hown
  have hnf : q ∉ m.freelist := fun hc => by simpa using (honly .free).mp hc
  refine ⟨h.forest.congr hcong, h.unlocked, List.nodup_cons.mpr ⟨hnf, h.nodup⟩, ?_, ?_⟩
  · rw [isPage_congr (show (m.returned q).kernelEnd = m.kernelEnd from rfl)]
    refine h.owner.transfer .free hown (fun o => ?_) fun p hpq o => ?_
    · cases o with
      | free => simp [Owns]
      | table => exact (isTable_congr hcong q).trans ((honly .table).trans (by simp))
      | user => exact (held_congr hcong q).trans ((honly .user).trans (by simp))
      | kernel => simp [Owns]
    · cases o with
      | free => simp [Owns, hpq]
      | table => exact isTable_congr hcong p
      | user => exact held_congr hcong p
      | kernel => simp [Owns, hpq]
  · intro p hp
    rw [isTable_congr hcong] at hp
    exact h.single p (hp.imp_right fun hk => hk.1)

end Allocator

/-! ## Linking a table -/

section Link

variable {r p q : Word} {path : List Nat} {i : Nat}

/-- A zeroed page of the kernel that can be linked below the table `p` at index `i`. -/
structure Linkable (A : Arch) (roots kept : Set Word) (m : Machine) (r p q : Word)
    (path : List Nat) (i : Nat) : Prop where
  root : r ∈ roots
  level : userLevels.mem (path ++ [i])
  table : descend A.next m.word r path = some p
  empty : A.next (m.word p i) = none
  fresh : q ∈ kept
  zero : ∀ j, m.word q j = 0#64

namespace Linkable

lemma path_mem (hl : Linkable A roots kept m r p q path i) : userLevels.mem path :=
  userLevels.init path i hl.level

lemma not_table (h : Wf A roots kept m) (hl : Linkable A roots kept m r p q path i) :
    ¬IsTable A roots m q := fun hc =>
  h.owner_ne .table .kernel hc hl.fresh (by simp) rfl

lemma next_entry (h : Wf A roots kept m) (hl : Linkable A roots kept m r p q path i) :
    A.next (A.dirEntry (va2pa q)) = some q :=
  next_dirEntry (h.isPage (o := .kernel) hl.fresh)

lemma next_zero (hl : Linkable A roots kept m r p q path i) (j : Nat) :
    A.next (m.word q j) = none := by simp [hl.zero j]

section
variable (h : Wf A roots kept m) (hl : Linkable A roots kept m r p q path i)
include h hl

lemma leafAt_eq (hr' : r' ∈ roots) (hv : v < userPages) :
    leafAt A (m.setPte p i (A.dirEntry (va2pa q))) r' v = leafAt A m r' v := by
  have hqp : q ≠ p := by
    rintro rfl
    exact hl.not_table h (.of_descend hl.root hl.path_mem hl.table)
  unfold leafAt slotAt
  rw [Machine.setPte_word, descend_link h.forest hl.root hl.path_mem hl.table hl.empty
    (hl.next_entry h) (hl.not_table h) hl.next_zero hr' (userLevels_pathOf hv)]
  split
  · rename_i hc
    obtain ⟨rfl, hpath⟩ := hc
    have hold : descend A.next m.word r' (pathOf v) = none := by
      simp [hpath, descend_snoc, hl.table, hl.empty]
    have hrow : write m.word p i (A.dirEntry (va2pa q)) q (v % 512) = 0#64 := by
      rw [write_of_ne fun hc => hqp hc.1, hl.zero]
    simp [hold, hrow, A.valid_zero]
  · cases hd : descend A.next m.word r' (pathOf v) with
    | none => rfl
    | some p' =>
      -- The entry written belongs to an upper level, so it is no leaf entry.
      have hne : ¬(p' = p ∧ v % 512 = i) := by
        rintro ⟨rfl, -⟩
        obtain ⟨-, rfl⟩ := h.forest r' hr' r hl.root _ _ (userLevels_pathOf hv) hl.path_mem p' hd
          hl.table
        exact not_userLevels_snoc v i hl.level
      simp [write_of_ne hne]

lemma mapping_eq :
    mapping A roots (m.setPte p i (A.dirEntry (va2pa q))) = mapping A roots m := by
  funext x
  unfold mapping
  split
  · rename_i hx
    rw [hl.leafAt_eq h hx.1 hx.2]
  · rfl

lemma isTable_iff (x : Word) :
    IsTable A roots (m.setPte p i (A.dirEntry (va2pa q))) x ↔ IsTable A roots m x ∨ x = q :=
  table_link h.forest hl.root hl.path_mem hl.table hl.level hl.empty (hl.next_entry h)
    (hl.not_table h) hl.next_zero x

lemma wf :
    Wf A roots (kept \ {q}) (m.setPte p i (A.dirEntry (va2pa q))) := by
  have hown : Owns A roots kept m q .kernel := hl.fresh
  have honly := h.owner.eq_owner hown
  refine ⟨h.forest.link hl.root hl.path_mem hl.table hl.empty (hl.next_entry h) (hl.not_table h)
    hl.next_zero, h.unlocked, h.nodup, ?_, ?_⟩
  · rw [isPage_congr (show (m.setPte p i (A.dirEntry (va2pa q))).kernelEnd = m.kernelEnd from rfl)]
    refine h.owner.transfer .table hown (fun o => ?_) fun x hx o => ?_
    · cases o with
      | free => exact (honly .free).trans (by simp)
      | table => simp [Owns, hl.isTable_iff h]
      | user =>
        have := honly .user
        simp only [Owns] at this ⊢
        simp [hl.mapping_eq h, this]
      | kernel => simp [Owns]
    · cases o with
      | free => rfl
      | table => simp [Owns, hl.isTable_iff h, hx]
      | user => simp [Owns, hl.mapping_eq h]
      | kernel => simp [Owns, hx]
  · intro x hx
    rw [hl.isTable_iff h] at hx
    rcases hx with (hx | rfl) | hx
    · exact h.single x (.inl hx)
    · exact h.single x (.inr hl.fresh)
    · exact h.single x (.inr hx.1)

end

end Linkable

end Link

end FrostVista
