import FrostVista.Tmpfs.Operations

/-!
# tmpfs: releasing inodes, and the other users of the cache and of the pages

The last reference to an inode without links frees it. Other file systems take and give back slots
of the inode cache and their private pages, and the rest of the kernel uses pages of its own. None
of this disturbs an inode of tmpfs that is in use.
-/
namespace FrostVista.Tmpfs

open Lib Lib.Comp Function Store

open Kernel.Ftable (NodeType)

variable {s s' : Store} {ext : Nat → Prop} {a p : Nat} {n : Inode} {i : SlotId} {e : VfsInode}

/-! ## The last reference -/

/-- A slot without references and without private data. -/
def VfsInode.cleared (e : VfsInode) : VfsInode :=
  { e with count := 0, data := .null, pdOwned := false }

/-- The store after `put_inode` has given up a slot. -/
def Store.clear (s : Store) (i : SlotId) : Store :=
  { s.setSlot i (s.slot i).cleared with order := s.order.erase i ++ [i] }

lemma mem_erase_append {α : Type} [DecidableEq α] {l : List α} (h : ∀ x, x ∈ l) (i x : α) :
    x ∈ l.erase i ++ [i] := by
  by_cases hx : x = i
  · simp [hx]
  · exact List.mem_append_left _ ((List.mem_erase_of_ne hx).mpr (h x))

lemma header_clear : (s.clear i).header = s.header := rfl

lemma node_clear : (s.clear i).node = s.node := rfl

lemma slot_clear : (s.clear i).slot = update s.slot i (s.slot i).cleared := rfl

lemma order_clear : (s.clear i).order = s.order.erase i ++ [i] := rfl

lemma free_clear : (s.clear i).free = s.free := rfl

lemma nextIno_clear : (s.clear i).nextIno = s.nextIno := rfl

/-- What `tmpfs_destroy_inode` does: nothing to the root, and otherwise it gives a reference back;
the last one to an inode without links frees the inode. -/
inductive Destroys (s : Store) : Handle → Store → Prop where
  | root : Destroys s .root s
  | kept {i : SlotId} : ¬((s.slot i).count = 1 ∧ (s.slot i).nlinks = 0) →
      Destroys s (.slot i) (s.setSlot i { s.slot i with count := (s.slot i).count - 1 })
  | freed {i : SlotId} {a : Nat} {n : Inode} : (s.slot i).count = 1 → (s.slot i).nlinks = 0 →
      (s.slot i).data = .node a → s.node a = some n → Destroys s (.slot i) ((s.removed a n).clear i)

lemma Heap.clear (h : Heap s) (hi : ∀ q, (s.slot i).data ≠ .page q) :
    Heap (s.clear i) ∧ Keeps S s (s.clear i) := by
  refine h.rearranged (fun j q => ?_) (fun b k hk => .inr ⟨k, hk, rfl⟩)
    (fun b k hk => ⟨k, hk, rfl, rfl⟩) rfl rfl
  rw [slot_clear]
  by_cases hj : j = i
  · subst hj
    simp [VfsInode.cleared, hi]
  · rw [update_of_ne hj]

lemma Sound.dropped {ext' : Nat → Prop} (h : Sound ext s) (hi : (s.slot i).held)
    (hdata : (s.slot i).data = .node a) (hn : s.node a = some n)
    (htree : Tree ext' (update s.header a none)) :
    Sound ext' ((s.removed a n).clear i) ∧ Keeps (· = a) s ((s.removed a n).clear i) := by
  obtain ⟨hheap, hkeeps⟩ := h.heap.removed hn
  have hslot : ((s.removed a n).clear i).slot = update s.slot i (s.slot i).cleared := by
    rw [slot_clear, removed_slot]
  obtain ⟨hheap', hkeeps'⟩ := hheap.clear (i := i) (by simp [removed_slot, hdata])
  refine ⟨⟨hheap', ?_, ?_, ?_⟩, hkeeps.trans hkeeps'⟩
  · rw [header_clear, removed_header]
    exact htree
  · rw [header_clear, removed_header, hslot, nextIno_clear, removed_nextIno]
    exact h.cache.destroy hi hdata
  · rw [order_clear, removed_order]
    exact mem_erase_append h.order i

lemma Sound.freed (h : Sound ext s) (hi : (s.slot i).held) (hzero : (s.slot i).nlinks = 0)
    (hdata : (s.slot i).data = .node a) (hn : s.node a = some n) :
    Sound ext ((s.removed a n).clear i) ∧ Keeps (· = a) s ((s.removed a n).clear i) := by
  have hlinks : n.nlinks = 0 := by
    obtain ⟨b, c, hc, hsnap⟩ := h.cache.held i hi
    have hb := hsnap.data
    rw [hdata] at hb
    cases hb
    rw [header_of_node hn] at hc
    cases hc
    exact hsnap.nlinks.mp hzero
  exact h.dropped hi hdata hn (h.tree.free (header_of_node hn) hlinks)

lemma Sound.destroy (h : Sound ext s) (hx : s.holds x) :
    Total (tmpfsDestroyInode x) s fun _ s' =>
      Sound ext s' ∧ Keeps (fun b => s'.node b = none) s s' ∧ Destroys s x s' := by
  cases x with
  | root => exact .pure ⟨h, .refl h.heap, .root⟩
  | slot i =>
    have hi : (s.slot i).held := hx
    refine .bind_ok (run_get s) ?_
    by_cases hlast : (s.slot i).count = 1 ∧ (s.slot i).nlinks = 0
    · obtain ⟨a, c, hc, hsnap⟩ := h.cache.held i hi
      obtain ⟨n, hn, rfl⟩ := header_eq_some.mp hc
      obtain ⟨hsound, hkeeps⟩ := h.freed hi hlast.2 hsnap.data hn
      refine ⟨(), _, ?_, hsound, hkeeps.mono ?_, .freed hlast.1 hlast.2 hsnap.data hn⟩
      · simp only [if_pos hlast, hsnap.data]
        rw [run_bind_ok (run_deref hn)]
        refine (run_remove hn (putInode i false)).trans ?_
        rw [putInode, run_bind_ok (run_get _), removed_slot, if_pos hlast]
        simp only [when_false]
        rw [run_bind_ok (run_pure _ _), run_modify]
        simp only [clear, VfsInode.cleared, removed_slot]
      · rintro b rfl
        rw [node_clear, removed_node]
        exact update_self ..
    · obtain ⟨hrun, hsound, hkeeps⟩ := h.put hi hlast
      refine ⟨(), _, ?_, hsound, hkeeps.mono fun _ => False.elim, .kept hlast⟩
      simp only [if_neg hlast]
      exact hrun

lemma Destroys.stays (h : Destroys s x s') (i : SlotId) (hi : (s.slot i).held)
    (hlast : ¬(x = .slot i ∧ (s.slot i).count = 1)) : (s'.slot i).held ∧
    (s'.slot i).data = (s.slot i).data := by
  cases h with
  | root => exact ⟨hi, rfl⟩
  | @kept j _ =>
    change (update s.slot j _ i).held ∧ (update s.slot j _ i).data = _
    by_cases hij : i = j
    · subst hij
      rw [update_self]
      have hne : (s.slot i).count ≠ 1 := fun h1 => hlast ⟨rfl, h1⟩
      have hpos := hi.2
      exact ⟨⟨hi.1, show 0 < (s.slot i).count - 1 by omega⟩, rfl⟩
    · rw [update_of_ne hij]
      exact ⟨hi, rfl⟩
  | @freed j a n hcount _ _ _ =>
    have hij : i ≠ j := by
      rintro rfl
      exact hlast ⟨rfl, hcount⟩
    have hslot : ((s.removed a n).clear j).slot i = s.slot i := by
      rw [slot_clear, removed_slot, update_of_ne hij]
    rw [hslot]
    exact ⟨hi, rfl⟩

/-! ## Other file systems -/

/-- The inodes of tmpfs, their files and the slots in use for them are as before. -/
structure Aloof (s s' : Store) : Prop where
  node : s'.node = s.node
  nextIno : s'.nextIno = s.nextIno
  slot : ∀ i, (s.slot i).held → s'.slot i = s.slot i
  file : ∀ b, Untouched s s' b

lemma Aloof.trans (h : Aloof s s1) (h' : Aloof s1 s2) : Aloof s s2 where
  node := h'.node.trans h.node
  nextIno := h'.nextIno.trans h.nextIno
  slot i hi := by
    have heq := h.slot i hi
    rw [← heq] at hi
    rw [h'.slot i hi, heq]
  file b := (h.file b).trans (h'.file b)

lemma update_of_held (hwas : ¬(s.slot i).held) (j : SlotId) (hj : (s.slot j).held) :
    update s.slot i e j = s.slot j := by
  refine update_of_ne ?_ ..
  rintro rfl
  exact hwas hj

section
variable (h : Sound ext s) (hwas : ¬(s.slot i).held) (hdev : e.dev ≠ tmpfsDev)
  (hdata : ∀ b, e.data ≠ .node b) (howned : ∀ q, e.data = .page q → e.pdOwned = true)
include h hwas hdev hdata howned

lemma Sound.setOther (hpage : ∀ q, e.data = .page q → (s.slot i).data = .page q) :
    Sound ext (s.setSlot i e) ∧ Aloof s (s.setSlot i e) := by
  refine ⟨⟨?_, h.tree, h.cache.setOther hwas hdev hdata howned, h.order⟩, rfl, rfl, ?_, ?_⟩
  · refine h.heap.congr rfl rfl (fun b k hk => .inr ⟨k, hk, rfl⟩) fun j q hj => ?_
    by_cases hji : j = i
    · subst hji
      exact hpage q (by simpa [setSlot] using hj)
    · simpa [setSlot, update_of_ne hji] using hj
  · exact update_of_held hwas
  · intro b k hk
    exact ⟨k, hk, (h.heap.owned b k hk).undisturbed⟩

lemma Sound.attach (hpage : ∀ q, e.data = .page q ↔ (s.slot i).data = .page q) (alloc : Bool) :
    Total (attachData i e alloc) s fun _ s' => Sound ext s' ∧ Aloof s s' := by
  refine .modify ?_
  by_cases hget : e.data = .null ∧ alloc = true
  · rw [if_pos hget]
    cases hfree : s.free with
    | nil => exact h.setOther hwas hdev (by simp [hget.1]) (by simp [hget.1]) (by simp [hget.1])
    | cons q rest =>
      have hnone : ∀ q, (s.slot i).data ≠ .page q := by
        intro q hq
        have := (hpage q).mpr hq
        rw [hget.1] at this
        cases this
      obtain ⟨hheap, -, hfile⟩ := h.heap.kalloc_slot (i := i)
        (e := { e with data := .page q, pdOwned := true })
        hfree hnone rfl rfl
      exact ⟨⟨hheap, h.tree, h.cache.setOther hwas hdev (by simp) (by simp), h.order⟩, rfl, rfl,
        update_of_held hwas, hfile⟩
  · rw [if_neg hget]
    exact h.setOther hwas hdev hdata howned fun q => (hpage q).mp

end

lemma Sound.recycled (h : Sound ext s) (hwas : ¬(s.slot i).held) (hdev : e.dev ≠ tmpfsDev)
    (hdata : e.data = .null) : Sound ext (s.recycled i e) ∧ Aloof s (s.recycled i e) := by
  obtain ⟨hnode, hheader, hnext, horder⟩ := recycled_node (s := s) (i := i) e
  obtain ⟨hheap, hkeeps⟩ := h.heap.recycled (i := i) (e := e) (by simp [hdata])
  refine ⟨⟨hheap, hheader ▸ h.tree, ?_, fun j => horder ▸ h.order j⟩, hnode, hnext, ?_, fun b =>
    hkeeps.file b id⟩
  · rw [hheader, recycled_slot, hnext]
    exact h.cache.setOther hwas hdev (by simp [hdata]) (by simp [hdata])
  · rw [recycled_slot]
    exact update_of_held hwas

/-- `get_inode` for another device -/
lemma Sound.getOther (h : Sound ext s) (hdev : dev ≠ tmpfsDev) (ino : Nat) (alloc : Bool) :
    Total (Tmpfs.getInode dev ino alloc) s fun _ s' => Sound ext s' ∧ Aloof s s' := by
  refine .bind_ok (run_get s) ?_
  cases hfound : s.slotOf dev ino with
  | some i =>
    obtain ⟨-, hi⟩ := slotOf_eq_some hfound
    have hwas : ¬(s.slot i).held := fun hheld => hdev (hi.symm.trans hheld.1)
    have hdata := h.cache.others i
    rw [hi] at hdata
    simp only
    by_cases hcount : 0 < (s.slot i).count
    · rw [if_pos hcount]
      refine .bind_ok (run_modify _ _) (.pure ?_)
      exact h.setOther hwas (hi ▸ hdev) (fun b => hdata b hdev) (h.cache.page i) fun q => id
    · rw [if_neg hcount]
      exact .bind
        (h.attach (e := { s.slot i with count := 1 }) hwas (hi ▸ hdev) (fun b => hdata b hdev)
        (h.cache.page i) (fun q => Iff.rfl) alloc) fun _ s' hs' => .pure hs'
  | none =>
    simp only
    cases hunused : s.unused with
    | none =>
      exact .pure ⟨h, rfl, rfl, fun _ _ => rfl, h.heap.untouched_refl⟩
    | some i =>
      have hwas : ¬(s.slot i).held := fun hheld => hheld.2.ne' (unused_eq_some hunused)
      simp only
      by_cases hsame : (s.slot i).dev = dev
      · rw [if_neg (not_not.mpr hsame)]
        have hdata := h.cache.others i
        rw [hsame] at hdata
        exact .bind (h.attach (e := { s.slot i with ino := ino, count := 1, dev := dev }) hwas hdev
          (fun b => hdata b hdev) (h.cache.page i) (fun q => Iff.rfl) alloc) fun _ s' hs' =>
            .pure hs'
      · rw [if_pos hsame]
        obtain ⟨e, he⟩ : ∃ e : VfsInode, e = { s.slot i with
          data := .null
          pdOwned := false
          ino := ino
          count := 1
          dev := dev } := ⟨_, rfl⟩
        rw [← he]
        have hedev : e.dev ≠ tmpfsDev := by rw [he]; exact hdev
        have hedata : e.data = .null := by rw [he]
        obtain ⟨hsound, haloof⟩ := h.recycled hwas hedev hedata
        have hslot : (s.recycled i e).slot i = e := by rw [recycled_slot, update_self]
        have hattach := hsound.attach (i := i) (e := e)
          (by rw [hslot]; exact fun hheld => hedev hheld.1) hedev
          (by simp [hedata]) (by simp [hedata]) (by simp [hslot]) alloc
        -- the private page goes back first; the slot is written only once, at the end
        have hrun : (do
            when ((s.slot i).pdOwned && (s.slot i).data != .null) (kfreeData (s.slot i).data)
            attachData i e alloc : T Unit).run s = (attachData i e alloc).run (s.recycled i e) := by
          cases hd : (s.slot i).data with
          | null => simp [run_bind, attachData, Store.recycled, hd, Store.setSlot]
          | node b =>
            by_cases htmpfs : (s.slot i).dev = tmpfsDev
            · have howned := (h.cache.data i htmpfs).1
              simp [run_bind, attachData, Store.recycled, hd, howned, Store.setSlot]
            · exact absurd hd (h.cache.others i b htmpfs)
          | page q =>
            have howned := h.cache.page i q hd
            have hne : (Data.page q != .null) = true := rfl
            simp [run_bind, attachData, Store.recycled, hd, howned, hne, kfreeData, Store.setSlot]
        obtain ⟨_, s', hs', hsound', haloof'⟩ := hattach
        rw [← Comp.bind_assoc]
        exact .bind_ok (hrun.trans hs') (.pure ⟨hsound', haloof.trans haloof'⟩)

lemma Sound.reorder (h : Sound ext s) {order : List SlotId} (horder : ∀ i, i ∈ order) :
    Sound ext { s with order := order } :=
  ⟨h.heap.congr rfl rfl (fun _ k hk => .inr ⟨k, hk, rfl⟩) fun _ _ => id, h.tree, h.cache, horder⟩

/-- `put_inode` for another device -/
lemma Sound.putOther (h : Sound ext s) (hdev : (s.slot i).dev ≠ tmpfsDev) {free : Bool}
    (hfree : free = true → ∃ q, (s.slot i).data = .page q) :
    Total (putInode i free) s fun _ s' => Sound ext s' ∧ Aloof s s' := by
  have hwas : ¬(s.slot i).held := fun hheld => hdev hheld.1
  have horder := mem_erase_append h.order i
  refine .bind_ok (run_get s) ?_
  by_cases hlast : (s.slot i).count = 1 ∧ (s.slot i).nlinks = 0
  · rw [if_pos hlast]
    cases free with
    | false =>
      obtain ⟨hsound, haloof⟩ := h.setOther (e := (s.slot i).cleared) hwas hdev
        (by simp [VfsInode.cleared])
        (by simp [VfsInode.cleared]) (by simp [VfsInode.cleared])
      exact .bind_ok (run_pure _ _)
        (.modify ⟨hsound.reorder horder, haloof.node, haloof.nextIno, haloof.slot,
        haloof.file⟩)
    | true =>
      obtain ⟨q, hq⟩ := hfree rfl
      obtain ⟨hsound, haloof⟩ := h.recycled (e := (s.slot i).cleared) hwas hdev rfl
      have hstate : s.recycled i (s.slot i).cleared = { s.setSlot i (s.slot i).cleared with
          page := update s.page q Bytes.zero
          free := q :: s.free } := by simp [Store.recycled, hq]
      rw [hstate] at hsound haloof
      rw [hq]
      exact .bind_ok (run_modify _ _)
        (.modify ⟨hsound.reorder horder, haloof.node, haloof.nextIno, haloof.slot,
        haloof.file⟩)
  · rw [if_neg hlast]
    by_cases hcount : (s.slot i).count = 0
    · rw [if_pos hcount]
      exact .pure ⟨h, rfl, rfl, fun _ _ => rfl, h.heap.untouched_refl⟩
    · rw [if_neg hcount]
      exact .modify
        (h.setOther hwas hdev (fun b => h.cache.others i b hdev) (h.cache.page i) fun q => id)

/-! ## The rest of the kernel -/

/-- The rest of the kernel takes pages from the free list, gives pages back, and writes to pages
that are not in a file of tmpfs. -/
structure Unrelated (s : Store) (page : Nat → Bytes) (free : List Nat) : Prop where
  file : ∀ p a, s.owns p (.node a) → page p = s.page p ∧ p ∉ free
  slot : ∀ p i, s.owns p (.slot i) → p ∉ free
  nodup : free.Nodup
  bound : ∀ p ∈ free, 0 < p ∧ p < 2 ^ 64

lemma Sound.unrelated (h : Sound ext s) {page : Nat → Bytes} {free : List Nat}
    (he : Unrelated s page free) :
    Sound ext { s with page := page, free := free } ∧
      Aloof s { s with page := page, free := free } := by
  have hfile : ∀ b, Untouched s { s with page := page, free := free } b :=
    untouched_of_page rfl he.file he.nodup he.bound
  refine ⟨⟨?_, h.tree, h.cache, h.order⟩, rfl, rfl, fun _ _ => rfl, hfile⟩
  -- a page that is not free now had the same owner before
  have hback : ∀ p o, owns { s with page := page, free := free } p o →
      (o = .free ∧ p ∈ free) ∨ (s.owns p o ∧ p ∉ free) := by
    intro p o ho
    match o with
    | .free => exact .inl ⟨rfl, ho⟩
    | .slot j => exact .inr ⟨ho, he.slot p j ho⟩
    | .node b =>
      have hb := ((hfile b).owns id).mp ho
      exact .inr ⟨hb, (he.file p b hb).2⟩
  refine ⟨fun p o o' ho ho' => ?_, fun b k hk => h.heap.owned_of_untouched (hfile b) hk hk,
    he.nodup,
    fun p o ho => ?_⟩
  · obtain ⟨rfl, hin⟩ | ⟨hs, hout⟩ := hback p o ho <;> obtain ⟨rfl, hin'⟩ | ⟨hs', hout'⟩ :=
      hback p o' ho'
    · rfl
    · exact absurd hin hout'
    · exact absurd hin' hout
    · exact h.heap.unique p o o' hs hs'
  · obtain ⟨-, hin⟩ | ⟨hs, -⟩ := hback p o ho
    · exact he.bound p hin
    · exact h.heap.bound p o hs

end FrostVista.Tmpfs
