import FrostVista.Vm.Ownership

/-!
# Writing last-level entries

The moves of a page between user mappings and the other owners. `Inv` adds to the ownership
invariant that the reference count of every mapped page is the number of its mappings.
-/
namespace FrostVista

open Lib Lib.Radix Lib.RefCount Function Machine

variable {A : Arch} {roots kept : Set Word} {m : Machine} {r p q e : Word} {v i : Nat}

/-- The last-level entry of user page `v` below the root `r` is word `i` of page `p`. -/
structure UserSlot (A : Arch) (roots : Set Word) (m : Machine) (r : Word) (v : Nat) (p : Word)
    (i : Nat) : Prop where
  root : r ∈ roots
  user : v < userPages
  slot : slotAt A m r v = some (p, i)

/-- The ownership invariant with exact reference counts. -/
structure Inv (A : Arch) (roots kept : Set Word) (m : Machine) : Prop extends
    Wf A roots kept m where
  counted : Counted (mapping A roots m) m.refcnt

/-- What the user-memory functions leave alone: tables stay where they are, and the pages of the
kernel and the fixed data keep their values. -/
structure Frame (A : Arch) (roots kept : Set Word) (m m' : Machine) : Prop where
  path : ∀ r ∈ roots, ∀ path, userLevels.mem path → ∀ p,
    descend A.next m.word r path = some p → descend A.next m'.word r path = some p
  kernel : ∀ p ∈ kept, m'.word p = m.word p ∧ m'.refcnt p = m.refcnt p
  held : m'.held = m.held
  kernelEnd : m'.kernelEnd = m.kernelEnd
  kernelTable : m'.kernelTable = m.kernelTable

namespace Frame

variable {m' m'' : Machine}

lemma refl : Frame A roots kept m m :=
  ⟨fun _ _ _ _ _ hp => hp, fun _ _ => ⟨rfl, rfl⟩, rfl, rfl, rfl⟩

lemma trans (f : Frame A roots kept m m') (f' : Frame A roots kept m' m'') :
    Frame A roots kept m m'' where
  path r hr path hp p hd := f'.path r hr path hp p (f.path r hr path hp p hd)
  kernel p hp := ⟨(f'.kernel p hp).1.trans (f.kernel p hp).1,
    (f'.kernel p hp).2.trans (f.kernel p hp).2⟩
  held := f'.held.trans f.held
  kernelEnd := f'.kernelEnd.trans f.kernelEnd
  kernelTable := f'.kernelTable.trans f.kernelTable

lemma table (f : Frame A roots kept m m') (p : Word) (h : IsTable A roots m p) :
    IsTable A roots m' p := by
  obtain ⟨r, hr, path, hp, hd⟩ := h
  exact ⟨r, hr, path, hp, f.path r hr path hp p hd⟩

end Frame

namespace Inv

section
variable (h : Inv A roots kept m)
include h

lemma not_held_of_free (hq : q ∈ m.freelist) :
    ¬Held (mapping A roots m) q := fun hu => h.owner_ne .user .free hu hq (by simp) rfl

lemma not_held_of_kept (hq : q ∈ kept) :
    ¬Held (mapping A roots m) q := fun hu => h.owner_ne .user .kernel hu hq (by simp) rfl

lemma not_table_of_kept (hq : q ∈ kept) : ¬IsTable A roots m q :=
  fun ht => h.owner_ne .table .kernel ht hq (by simp) rfl

lemma not_table_of_held (hq : Held (mapping A roots m) q) :
    ¬IsTable A roots m q := fun ht => h.owner_ne .table .user ht hq (by simp) rfl

lemma not_kept_of_free (hq : q ∈ m.freelist) : q ∉ kept :=
  fun hk => h.owner_ne .kernel .free hk hq (by simp) rfl

lemma taken (hf : m.freelist = q :: ps) :
    Inv A roots (insert q kept) (m.taken q) := by
  refine ⟨h.toWf.taken hf, ?_⟩
  rw [mapping_congr (h.toWf.taken_word hf)]
  exact h.counted.set_cnt (h.not_held_of_free (by simp [hf])) 1

lemma returned (hq : q ∈ kept) : Inv A roots (kept \ {q}) (m.returned q) := by
  refine ⟨h.toWf.returned hq, ?_⟩
  rw [mapping_congr (m := m)]
  · exact h.counted
  · intro x hx
    have hne : x ≠ q := by
      rintro rfl
      exact h.not_table_of_kept hq hx
    simp [update_of_ne hne]

lemma freed_kept (hq : q ∈ kept) : m.freed q = m.returned q := by
  have := h.single q (.inr hq)
  rw [freed, if_neg (by omega)]

lemma setPage (hq : ¬IsTable A roots m q) (c : Nat → Word) :
    Inv A roots kept (m.setPage q c) := by
  have hcong : ∀ x, IsTable A roots m x → (m.setPage q c).word x = m.word x := by
    intro x hx
    have hne : x ≠ q := by
      rintro rfl
      exact hq hx
    simp [update_of_ne hne]
  refine ⟨h.toWf.congr hcong rfl rfl rfl h.single, ?_⟩
  rw [mapping_congr hcong]
  exact h.counted

end

end Inv

variable {m' : Machine}

lemma Inv.congr (h : Inv A roots kept m) (hw : m'.word = m.word)
    (hf : m'.freelist = m.freelist) (hr : m'.refcnt = m.refcnt) (hh : m'.held = m.held)
    (hk : m'.kernelEnd = m.kernelEnd) : Inv A roots kept m' := by
  have hcong : ∀ x, IsTable A roots m x → m'.word x = m.word x := fun x _ => by rw [hw]
  refine ⟨h.toWf.congr hcong hf hh hk fun x hx => ?_, ?_⟩
  · rw [hr]
    exact h.single x hx
  · rw [mapping_congr hcong, hr]
    exact h.counted

lemma Frame.userSlot (f : Frame A roots kept m m')
    (s : UserSlot A roots m r v p i) : UserSlot A roots m' r v p i := by
  refine ⟨s.root, s.user, ?_⟩
  obtain ⟨hd, rfl⟩ := slotAt_idx s.slot
  rw [slotAt, f.path r s.root _ (userLevels_pathOf s.user) p hd]
  rfl

namespace UserSlot

lemma isTable (s : UserSlot A roots m r v p i) : IsTable A roots m p :=
  Wf.table_of_slot s.root s.user s.slot

lemma descend (s : UserSlot A roots m r v p i) :
    descend A.next m.word r (pathOf v) = some p := (slotAt_idx s.slot).1

variable {path : List Nat} {r' e0 : Word} {v' : Nat}

section
variable (s : UserSlot A roots m r v p i)
include s

section
variable (h : Forest A.next userLevels roots m.word)
include h

lemma descend_setPte (hr' : r' ∈ roots) (hp : userLevels.mem path) :
    Lib.Radix.descend A.next (m.setPte p i e).word r' path =
      Lib.Radix.descend A.next m.word r' path :=
  descend_write_leaf h s.root (userLevels_pathOf s.user) s.descend (not_userLevels_snoc v i) hr' hp

lemma slotAt_eq (hr' : r' ∈ roots) (hv' : v' < userPages) :
    slotAt A (m.setPte p i e) r' v' = slotAt A m r' v' := by
  unfold slotAt
  rw [s.descend_setPte h hr' (userLevels_pathOf hv')]

lemma leafAt_eq (hr' : r' ∈ roots) (hv' : v' < userPages) : leafAt A (m.setPte p i e) r' v' =
      if r' = r ∧ v' = v then (if A.valid e then some e else none) else leafAt A m r' v' := by
  unfold leafAt
  rw [s.slotAt_eq h hr' hv']
  split
  · rename_i hc
    obtain ⟨rfl, rfl⟩ := hc
    simp [s.slot]
  · rename_i hc
    cases hs : slotAt A m r' v' with
    | none => rfl
    | some t =>
      have hne : ¬(t.1 = p ∧ t.2 = i) := by
        rintro ⟨rfl, rfl⟩
        obtain ⟨rfl, rfl⟩ := slot_injective h hr' s.root hv' s.user hs s.slot
        exact hc ⟨rfl, rfl⟩
      simp [write_of_ne hne]

lemma mapping_eq :
    mapping A roots (m.setPte p i e) =
      update (mapping A roots m) (r, v) (A.next e) := by
  funext x
  by_cases hx : x.1 ∈ roots ∧ x.2 < userPages
  · by_cases hxv : x = (r, v)
    · subst hxv
      rw [update_self, mapping_of_mem hx.1 hx.2, s.leafAt_eq h hx.1 hx.2]
      simp only [and_self, if_true, Arch.next]
      split <;> rfl
    · have hne : ¬(x.1 = r ∧ x.2 = v) := fun hc => hxv (Prod.ext hc.1 hc.2)
      rw [update_of_ne hxv]
      simp only [mapping, hx, and_self, if_true, s.leafAt_eq h hx.1 hx.2, hne, if_false]
  · have hxv : x ≠ (r, v) := by
      rintro rfl
      exact hx ⟨s.root, s.user⟩
    rw [update_of_ne hxv]
    simp [mapping, hx]

lemma isTable_iff (x : Word) : IsTable A roots (m.setPte p i e) x ↔ IsTable A roots m x :=
  table_write_leaf h s.root (userLevels_pathOf s.user) s.descend (not_userLevels_snoc v i) x

lemma forest :
    Forest A.next userLevels roots (m.setPte p i e).word :=
  h.write_leaf s.root (userLevels_pathOf s.user) s.descend (not_userLevels_snoc v i)

end

lemma congr (hw : ∀ x, IsTable A roots m x → m'.word x = m.word x) : UserSlot A roots m' r v p i :=
  ⟨s.root, s.user, by rw [slotAt_congr hw s.root s.user, s.slot]⟩

lemma wf_of_owner (h : Wf A roots kept m)
    (hu : ∀ x, Held (update (mapping A roots m) (r, v) (A.next e)) x ↔
      Held (mapping A roots m) x) : Wf A roots kept (m.setPte p i e) := by
  refine ⟨s.forest h.forest, h.unlocked, h.nodup, ?_, fun x hx => ?_⟩
  · rw [isPage_congr (show (m.setPte p i e).kernelEnd = m.kernelEnd from rfl)]
    refine h.owner.congr fun x o => ?_
    cases o with
    | free => rfl
    | table => exact s.isTable_iff h.forest x
    | user => simp [Owns, s.mapping_eq h.forest, hu]
    | kernel => rfl
  · rw [s.isTable_iff h.forest] at hx
    exact h.single x hx

lemma wf_map (h : Wf A roots kept m) (hq : q ∈ kept)
    (hn : leafAt A m r v = none) (he : A.next e = some q) :
    Wf A roots (kept \ {q}) (m.setPte p i e) := by
  have hown : Owns A roots kept m q .kernel := hq
  have honly := h.owner.eq_owner hown
  have hfree : mapping A roots m (r, v) = none := by simp [mapping_of_mem s.root s.user, hn]
  refine ⟨s.forest h.forest, h.unlocked, h.nodup, ?_, fun x hx => ?_⟩
  · rw [isPage_congr (show (m.setPte p i e).kernelEnd = m.kernelEnd from rfl)]
    refine h.owner.transfer .user hown (fun o => ?_) fun x hx o => ?_
    · cases o with
      | free => exact (honly .free).trans (by simp)
      | table => exact (s.isTable_iff h.forest q).trans ((honly .table).trans (by simp))
      | user =>
        simp only [Owns, s.mapping_eq h.forest, he, iff_true]
        exact ⟨(r, v), update_self ..⟩
      | kernel => simp [Owns]
    · cases o with
      | free => rfl
      | table => exact s.isTable_iff h.forest x
      | user =>
        simp only [Owns, s.mapping_eq h.forest, he]
        exact held_update_of_ne (by simp [Ne.symm hx]) (by simp [hfree])
      | kernel => simp [Owns, hx]
  · rw [s.isTable_iff h.forest] at hx
    exact h.single x (hx.imp_right fun hk => hk.1)

lemma wf_share (h : Wf A roots kept m)
    (hq : Held (mapping A roots m) q) (hn : leafAt A m r v = none) (he : A.next e = some q) :
    Wf A roots kept (m.setPte p i e) := by
  have hfree : mapping A roots m (r, v) = none := by simp [mapping_of_mem s.root s.user, hn]
  refine s.wf_of_owner h fun x => ?_
  rw [he]
  by_cases hx : x = q
  · subst hx
    exact iff_of_true ⟨(r, v), update_self ..⟩ hq
  · exact held_update_of_ne (by simp [Ne.symm hx]) (by simp [hfree])

lemma update_same (hl : leafAt A m r v = some e0) (he : A.next e = some (A.page e0)) :
    update (mapping A roots m) (r, v) (A.next e) = mapping A roots m := by
  rw [update_eq_self_iff, he, mapping_of_mem s.root s.user, hl]
  rfl

lemma inv_rewrite (h : Inv A roots kept m)
    (hl : leafAt A m r v = some e0) (he : A.next e = some (A.page e0)) :
    Inv A roots kept (m.setPte p i e) := by
  refine ⟨s.wf_of_owner h.toWf fun x => ?_, ?_⟩
  · rw [s.update_same hl he]
  · rw [s.mapping_eq h.forest, s.update_same hl he]
    exact h.counted

lemma inv_map (h : Inv A roots kept m) (hq : q ∈ kept)
    (hc : m.refcnt q = 1) (hn : leafAt A m r v = none) (he : A.next e = some q) :
    Inv A roots (kept \ {q}) (m.setPte p i e) := by
  refine ⟨s.wf_map h.toWf hq hn he, ?_⟩
  have hfree : mapping A roots m (r, v) = none := by simp [mapping_of_mem s.root s.user, hn]
  have hnot : ¬Held (mapping A roots m) q := fun hu =>
    h.owner_ne .user .kernel hu hq (by simp) rfl
  rw [s.mapping_eq h.forest, he]
  exact h.counted.hold hfree hnot hc

lemma mapping_leaf (hl : leafAt A m r v = some e0) :
    mapping A roots m (r, v) = some (A.page e0) := by
  simp [mapping_of_mem s.root s.user, hl]

section
variable (h : Wf A roots kept m) (hl : leafAt A m r v = some e0)
include h hl

lemma ne_page (x : Word) (hx : IsTable A roots m x) : x ≠ A.page e0 :=
  h.owner_ne .table .user hx (Wf.user_of_leaf s.root s.user hl) (by simp)

lemma freed_word (x : Word) (hx : IsTable A roots m x) :
    (m.freed (A.page e0)).word x = m.word x := by
  rw [Machine.freed_word]
  split
  · rfl
  · rw [update_of_ne (s.ne_page h hl x hx)]

/-- Writing the entry after releasing its page acts on the walks as without the release. -/
lemma forest_freed : Forest A.next userLevels roots (m.freed (A.page e0)).word :=
  h.forest.congr (s.freed_word h hl)

lemma descend_freed (hr' : r' ∈ roots) (hp : userLevels.mem path) :
    Lib.Radix.descend A.next ((m.freed (A.page e0)).setPte p i e).word r' path =
      Lib.Radix.descend A.next m.word r' path := by
  have hcong := s.freed_word h hl
  rw [(s.congr hcong).descend_setPte (s.forest_freed h hl) hr' hp, descend_congr hcong hr' hp]

lemma slotAt_freed (hr' : r' ∈ roots) (hv' : v' < userPages) :
    slotAt A ((m.freed (A.page e0)).setPte p i e) r' v' = slotAt A m r' v' := by
  have hcong := s.freed_word h hl
  rw [(s.congr hcong).slotAt_eq (s.forest_freed h hl) hr' hv', slotAt_congr hcong hr' hv']

lemma leafAt_freed (hr' : r' ∈ roots) (hv' : v' < userPages) :
    leafAt A ((m.freed (A.page e0)).setPte p i e) r' v' =
      if r' = r ∧ v' = v then (if A.valid e then some e else none) else leafAt A m r' v' := by
  have hcong := s.freed_word h hl
  rw [(s.congr hcong).leafAt_eq (s.forest_freed h hl) hr' hv', leafAt_congr hcong hr' hv']

lemma mapping_freed : mapping A roots ((m.freed (A.page e0)).setPte p i e) =
      update (mapping A roots m) (r, v) (A.next e) := by
  have hcong := s.freed_word h hl
  rw [(s.congr hcong).mapping_eq (s.forest_freed h hl), mapping_congr hcong]

lemma isTable_freed (x : Word) :
    IsTable A roots ((m.freed (A.page e0)).setPte p i e) x ↔ IsTable A roots m x := by
  have hcong := s.freed_word h hl
  exact ((s.congr hcong).isTable_iff (s.forest_freed h hl) x).trans (isTable_congr hcong x)

end

lemma inv_unmap (h : Inv A roots kept m)
    (hl : leafAt A m r v = some e0) : Inv A roots kept ((m.freed (A.page e0)).setPte p i 0#64) := by
  have hmap := s.mapping_leaf hl
  have s' : UserSlot A roots (m.freed (A.page e0)) r v p i := s.congr (s.freed_word h.toWf hl)
  have htab : ∀ x, IsTable A roots ((m.freed (A.page e0)).setPte p i 0#64) x ↔
      IsTable A roots m x := s.isTable_freed h.toWf hl
  have hfor : Forest A.next userLevels roots ((m.freed (A.page e0)).setPte p i 0#64).word :=
    s'.forest (s.forest_freed h.toWf hl)
  have hmap' := s.mapping_freed (e := 0#64) h.toWf hl
  rw [next_zero] at hmap'
  have huser : Owns A roots kept m (A.page e0) .user := Wf.user_of_leaf s.root s.user hl
  have honly := h.owner.eq_owner huser
  have hsingle : ∀ x, IsTable A roots m x ∨ x ∈ kept →
      (m.freed (A.page e0)).refcnt x ≤ 1 := by
    intro x hx
    have hne : x ≠ A.page e0 := by
      rcases hx with hx | hx
      · exact s.ne_page h.toWf hl x hx
      · exact h.owner_ne .kernel .user hx huser (by simp)
    rw [freed_refcnt]
    split
    · rw [update_of_ne hne]
      exact h.single x hx
    · exact h.single x hx
  have hpage : IsPage A ((m.freed (A.page e0)).setPte p i 0#64) = IsPage A m :=
    isPage_congr (by simp)
  by_cases hc : 1 < m.refcnt (A.page e0)
  · -- Other mappings remain, so the page stays in user hands.
    have hheld := h.counted.held_of_drop hmap hc
    refine ⟨⟨hfor, by simpa using h.unlocked, ?_, ?_, ?_⟩, ?_⟩
    · simpa [freed_freelist, hc] using h.nodup
    · rw [hpage]
      refine h.owner.congr fun x o => ?_
      cases o with
      | free => simp [Owns, freed_freelist, hc]
      | table => exact htab x
      | user =>
        simp only [Owns, hmap']
        by_cases hx : x = A.page e0
        · subst hx
          exact iff_of_true hheld huser
        · exact held_update_of_ne (by simp) (by simp [hmap, Ne.symm hx])
      | kernel => rfl
    · intro x hx
      rw [htab] at hx
      exact hsingle x hx
    · rw [hmap']
      simpa [freed_refcnt, hc] using h.counted.drop hmap
  · have hnot := h.counted.drop_last hmap (by omega)
    have hnf : A.page e0 ∉ m.freelist := fun hf => by simpa using (honly .free).mp hf
    refine ⟨⟨hfor, by simpa using h.unlocked, ?_, ?_, ?_⟩, ?_⟩
    · simpa [freed_freelist, hc] using ⟨hnf, h.nodup⟩
    · rw [hpage]
      refine h.owner.transfer .free huser (fun o => ?_) fun x hx o => ?_
      · cases o with
        | free => simp [Owns, freed_freelist, hc]
        | table => exact (htab _).trans ((honly .table).trans (by simp))
        | user => simp [Owns, hmap', hnot]
        | kernel => exact (honly .kernel).trans (by simp)
      · cases o with
        | free => simp [Owns, freed_freelist, hc, hx]
        | table => exact htab x
        | user =>
          simp only [Owns, hmap']
          exact held_update_of_ne (by simp) (by simp [hmap, Ne.symm hx])
        | kernel => rfl
    · intro x hx
      rw [htab] at hx
      exact hsingle x hx
    · rw [hmap']
      simpa [freed_refcnt, hc] using h.counted.drop_last_counted hmap (by omega)

/-- Replacing a mapped page by a page of the kernel, in the order of `handle_cow_fault`. -/
lemma inv_replace (h : Inv A roots kept m)
    (hl : leafAt A m r v = some e0) (hq : q ∈ kept) (hc : m.refcnt q = 1) (he : A.next e = some q) :
    Inv A roots (kept \ {q}) ((m.freed (A.page e0)).setPte p i e) := by
  -- It has the effect of removing the mapping and adding the new one at the free place.
  have hi := s.inv_unmap h hl
  have s' : UserSlot A roots ((m.freed (A.page e0)).setPte p i 0#64) r v p i :=
    ⟨s.root, s.user, by rw [s.slotAt_freed h.toWf hl s.root s.user, s.slot]⟩
  have hn : leafAt A ((m.freed (A.page e0)).setPte p i 0#64) r v = none := by
    rw [s.leafAt_freed h.toWf hl s.root s.user]
    simp [A.valid_zero]
  have hne : q ≠ A.page e0 := h.owner_ne .kernel .user hq (Wf.user_of_leaf s.root s.user hl)
    (by simp)
  have hc' : (m.freed (A.page e0)).refcnt q = 1 := by
    rw [freed_refcnt]
    split
    · rw [update_of_ne hne, hc]
    · exact hc
  refine (s'.inv_map hi hq hc' hn he).congr ?_ rfl rfl rfl rfl
  simp

end

end UserSlot

end FrostVista
