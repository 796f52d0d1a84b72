import FrostVista.Tmpfs.File

/-!
# tmpfs: the pages of a file and the page allocator

A file operation moves pages between the file and the free list. It leaves every other page of the
memory alone, so files that share an allocator do not see each other.
-/
namespace FrostVista.Tmpfs

open Lib Lib.Radix Lib.BlockTree Function

variable {m m' m1 m2 : Mem} {path : List Nat} {i p bn off : Nat} {q : Node} {data : List Byte}

/-- The index pages and the data pages of a file. -/
def pages (m : Mem) : Set Nat := {p | ∃ path, Place path ∧ nodeAt m path = some (.page p)}

/-- Pages have only moved between the file and the free list, and the other pages are as before. -/
structure Conserves (m m' : Mem) : Prop where
  pool : ∀ p, p ∈ m'.free ∨ p ∈ pages m' ↔ p ∈ m.free ∨ p ∈ pages m
  outside : ∀ p, p ∉ m.free → p ∉ pages m → m'.page p = m.page p

lemma Conserves.refl (m : Mem) : Conserves m m := ⟨fun _ => Iff.rfl, fun _ _ _ => rfl⟩

lemma Conserves.trans (h : Conserves m m1) (h' : Conserves m1 m2) : Conserves m m2 where
  pool p := (h'.pool p).trans (h.pool p)
  outside p hfree hpages := by
    have hnot : ¬(p ∈ m1.free ∨ p ∈ pages m1) := fun hin => ((h.pool p).mp hin).elim hfree hpages
    rw [h'.outside p (fun hin => hnot (.inl hin)) (fun hin => hnot (.inr hin)),
      h.outside p hfree hpages]

lemma pages_withSize (size : Nat) : pages { m with size := size } = pages m := by
  unfold pages
  simp only [nodeAt_withSize]

lemma Conserves.withSize (h : Conserves m m') (size : Nat) :
    Conserves m { m' with size := size } where
  pool p := by
    rw [pages_withSize]
    exact h.pool p
  outside := h.outside

lemma node_ne_of_outside (hp : Place path) (hd : nodeAt m path = some q) (ha : p ∉ pages m) :
    q ≠ .page p := by
  rintro rfl
  exact ha ⟨path, hp, hd⟩

/-! ## Growing -/

lemma Linked.pages (h : Linked m path p m') (hp : Place path) (hd : nodeAt m path = none)
    (a : Nat) :
    a ∈ pages m' ↔ a = p ∨ a ∈ Tmpfs.pages m := by
  constructor
  · rintro ⟨path', hp', ha⟩
    rw [h.node path' hp'] at ha
    split at ha
    · exact .inl (by cases ha; rfl)
    · exact .inr ⟨path', hp', ha⟩
  · rintro (rfl | ⟨path', hp', ha⟩)
    · exact ⟨path, hp, by rw [h.node path hp, if_pos rfl]⟩
    · refine ⟨path', hp', ?_⟩
      rw [h.node path' hp', if_neg, ha]
      rintro rfl
      rw [hd] at ha
      cases ha

lemma Owned.conserves_fetch (h : Owned m) (hp : Place (path ++ [i])) (hd : nodeAt m path = some q) :
    Conserves m (Tmpfs.fetch true q i m).2 := by
  unfold Tmpfs.fetch
  by_cases hzero : m.entry q i = 0
  · rw [if_neg (not_not.mpr hzero), if_pos rfl]
    cases hfree : m.free with
    | nil =>
      simp only [kalloc, hfree, if_true]
      exact .refl m
    | cons p rest =>
      have hpos := (h.bound p (by simp [hfree])).1.ne'
      have hlink := h.link hp hd hzero hfree
      have hnone : nodeAt m (path ++ [i]) = none := by
        rw [nodeAt_snoc, hd, Option.bind_some, hzero, follow_zero]
      simp only [kalloc, hfree, if_neg hpos]
      constructor
      · intro a
        rw [hlink.pages hp hnone, hlink.free, List.mem_cons]
        tauto
      · intro a hafree hapages
        have hne : a ≠ p := by
          rintro rfl
          exact hafree (by simp [hfree])
        rw [setEntry_page (node_ne_of_outside hp.init hd hapages)]
        exact update_of_ne hne ..
  · rw [if_pos hzero]
    exact .refl m

lemma Owned.conserves_walk (h : Owned m) (path : List Nat) (hp : Place (path ++ rest))
    (hd : nodeAt m path = some q) : Conserves m (Tmpfs.walk true q rest m).2 := by
  induction rest generalizing m path q with
  | nil => exact .refl m
  | cons i rest ih =>
    have hsplit : path ++ i :: rest = path ++ [i] ++ rest := by simp
    have hpi : Place (path ++ [i]) := hp.initial ⟨rest, hsplit.symm⟩
    have hfetch := h.conserves_fetch hpi hd
    by_cases hrest : rest = []
    · subst hrest
      exact hfetch
    · rw [walk_cons hrest]
      rcases h.fetch hpi hd with ⟨-, p, m', hrun, hpos, hgrown, hnode⟩ | ⟨-, hrun⟩
      · rw [hrun] at hfetch ⊢
        simp only [if_neg hpos]
        exact hfetch.trans (ih hgrown.owned (path ++ [i]) (hsplit ▸ hp) hnode)
      · rw [hrun]
        exact .refl m

lemma Owned.conserves_bmap (h : Owned m) (hbn : bn < maxfile) :
    Conserves m (Tmpfs.bmap bn true m).2 := by
  rw [bmap_eq_walk true hbn]
  exact h.conserves_walk [] (place_pagePath hbn) rfl

lemma Owned.conserves_setPage (h : Owned m) (ha : dataPage m bn = some (.page p)) (b : Bytes) :
    Conserves m (m.setPage p b) where
  pool a := by
    have hpages : a ∈ pages (m.setPage p b) ↔ a ∈ pages m := by
      refine exists_congr fun path => and_congr_right fun hp => ?_
      rw [h.nodeAt_setPage ha b hp]
    rw [hpages]
    rfl
  outside a _ hapages := by
    obtain ⟨hbn, hnode⟩ := dataPage_eq_some.mp ha
    have hne : a ≠ p := by
      rintro rfl
      exact hapages ⟨_, place_pagePath hbn, hnode⟩
    exact update_of_ne hne ..

lemma Owned.conserves_writeLoop (fuel : Nat) (h : Owned m)
    (hmax : off + data.length ≤ maxfile * pgsize) :
    Conserves m (Tmpfs.writeLoop fuel off data m).2 := by
  induction fuel generalizing off data m with
  | zero => exact .refl m
  | succ fuel ih =>
    unfold Tmpfs.writeLoop
    by_cases hnil : data.length = 0
    · rw [if_pos hnil]
      exact .refl m
    · have hbn : off / pgsize < maxfile := div_lt_maxfile (by omega)
      have hmod : off % pgsize < pgsize := Nat.mod_lt _ (by decide)
      have hbmap := h.conserves_bmap hbn
      rw [if_neg hnil]
      rcases h.bmap hbn with ⟨-, a, m1, hrun, hpos, hgrown, hpage⟩ | ⟨-, m1, Q, hrun, -⟩
      · rw [hrun] at hbmap
        simp only [hrun, if_neg hpos]
        set c := min (pgsize - off % pgsize) data.length
        have hcopy := hgrown.owned.grown_copyIn hpage
          (show off % pgsize + (data.take c).length ≤ pgsize by rw [List.length_take]; omega)
        exact (hbmap.trans (hgrown.owned.conserves_setPage hpage _)).trans
          (ih hcopy.owned (by rw [List.length_drop]; omega))
      · rw [hrun] at hbmap
        simpa only [hrun, if_true] using hbmap

lemma Owned.conserves_vfsWrite (h : Owned m) (off : Nat) (data : List Byte) :
    Conserves m (Tmpfs.vfsWrite off data m).2 := by
  unfold Tmpfs.vfsWrite
  split
  · exact .refl m
  · split
    · exact .refl m
    · rename_i hmax
      have hloop := h.conserves_writeLoop data.length (Nat.le_of_not_lt hmax)
      generalize Tmpfs.writeLoop data.length off data m = r at hloop ⊢
      obtain ⟨⟨done, stop⟩, m'⟩ := r
      cases done
      · exact hloop
      · exact hloop.withSize _

/-! ## Freeing -/

lemma Owned.conserves_freeEntry (h : Owned m) (hp : Place (path ++ [i]))
    (hd : nodeAt m path = some q)
    (hleaf : ∀ j, Place (path ++ [i] ++ [j]) → nodeAt m (path ++ [i] ++ [j]) = none) :
    Conserves m (Tmpfs.freeEntry q i m) := by
  have hcut := h.freeEntry hp hd hleaf
  have hchild : nodeAt m (path ++ [i]) = follow (m.entry q i) := by
    rw [nodeAt_snoc, hd, Option.bind_some]
  unfold Tmpfs.freeEntry at hcut ⊢
  by_cases hzero : m.entry q i = 0
  · rw [if_neg (not_not.mpr hzero)]
    exact .refl m
  · rw [if_pos hzero] at hcut ⊢
    rw [follow_of_ne hzero] at hchild
    constructor
    · intro a
      have hfree : a ∈ ((kfree (m.entry q i) m).setEntry q i 0).free ↔
        a = m.entry q i ∨ a ∈ m.free := by
        rw [setEntry_free]
        exact List.mem_cons
      have hpages : a ∈ pages ((kfree (m.entry q i) m).setEntry q i 0) ↔
        a ∈ pages m ∧ a ≠ m.entry q i := by
        constructor
        · rintro ⟨path', hp', ha⟩
          have hne : path' ≠ path ++ [i] := by
            rintro rfl
            rw [hcut.none _ hp rfl] at ha
            cases ha
          rw [hcut.same path' hp' hne] at ha
          refine ⟨⟨path', hp', ha⟩, ?_⟩
          rintro rfl
          exact hne (h.place_inj hp' hp ha hchild)
        · rintro ⟨⟨path', hp', ha⟩, hne⟩
          refine ⟨path', hp', ?_⟩
          rw [hcut.same path' hp', ha]
          rintro rfl
          rw [hchild] at ha
          cases ha
          exact hne rfl
      rw [hfree, hpages]
      have hin : m.entry q i ∈ pages m := ⟨_, hp, hchild⟩
      by_cases hae : a = m.entry q i
      · subst hae
        tauto
      · tauto
    · intro a hafree hapages
      have hne : a ≠ m.entry q i := by
        rintro rfl
        exact hapages ⟨_, hp, hchild⟩
      rw [setEntry_page (node_ne_of_outside hp.init hd hapages)]
      exact update_of_ne hne ..

lemma conserves_of_steps (h : Relation.ReflTransGen FreesPage m m') : Conserves m m' := by
  induction h with
  | refl => exact .refl m
  | tail _ hstep ih =>
    obtain ⟨path, i, q, howned, hp, hd, hleaf, rfl⟩ := hstep
    exact ih.trans (howned.conserves_freeEntry hp hd hleaf)

lemma Owned.conserves_freeBlocks (h : Owned m) : Conserves m (Tmpfs.freeBlocks m) :=
  conserves_of_steps h.frees_blocks.steps

lemma Owned.pages_freeBlocks (h : Owned m) (a : Nat) : a ∉ pages (Tmpfs.freeBlocks m) := by
  rintro ⟨path, hp, ha⟩
  by_cases hne : path = []
  · subst hne
    cases ha
  · rw [h.freeBlocks.2 path hp hne] at ha
    cases ha

/-- `tmpfs_free_blocks` puts exactly the pages of the file on the free list. -/
lemma Owned.free_freeBlocks (h : Owned m) (a : Nat) :
    a ∈ (Tmpfs.freeBlocks m).free ↔ a ∈ m.free ∨ a ∈ pages m := by
  rw [← h.conserves_freeBlocks.pool a]
  exact (or_iff_left (h.pages_freeBlocks a)).symm

lemma Owned.conserves_vfsTruncate (h : Owned m) (size : Nat) :
    Conserves m (Tmpfs.vfsTruncate size m).2 := by
  unfold Tmpfs.vfsTruncate
  split
  · exact .refl m
  · exact h.conserves_freeBlocks.withSize 0

end FrostVista.Tmpfs
