import FrostVista.Tmpfs.Inode

/-!
# tmpfs: the page tree of a file

The pages of a file are a block tree of `Lib.BlockTree`. `Owned` says that no page is at two places
and that none is on the free list.
-/
namespace FrostVista.Tmpfs

open Lib Lib.Radix Lib.BlockTree List Option Bytes Mem

def follow (e : Nat) : Option Node := if e = 0 then none else some (.page e)

/-- The places of the tree of a file. -/
def Place (path : List Nat) : Prop := isPlace ndirect nindirect path

def nodeAt (m : Mem) (path : List Nat) : Option Node := descend follow m.entry .inode path

def pagePath (bn : Nat) : List Nat := blockPath ndirect nindirect bn

/-- The data page of a block, if it has been allocated. -/
def dataPage (m : Mem) (bn : Nat) : Option Node :=
  if bn < maxfile then nodeAt m (pagePath bn) else none

/-- A byte of the file; pages that were never allocated are zero. -/
def byteAt (m : Mem) (o : Nat) : Byte :=
  match dataPage m (o / pgsize) with
  | some (.page p) => m.page p (o % pgsize)
  | _ => 0

structure Owned (m : Mem) : Prop where
  forest : Forest follow (levels ndirect nindirect) {Node.inode} m.entry
  page : ∀ path, Place path → ∀ p, nodeAt m path = some (.page p) → p ∉ m.free ∧ p < 2 ^ 64
  nodup : m.free.Nodup
  bound : ∀ p ∈ m.free, 0 < p ∧ p < 2 ^ 64

variable {m m' : Mem} {path : List Nat} {i p a bn off : Nat} {q : Node}

@[simp] lemma follow_zero : follow 0 = none := rfl

lemma follow_of_ne (h : p ≠ 0) : follow p = some (.page p) := if_neg h

lemma nodeAt_snoc (path : List Nat) (i : Nat) :
    nodeAt m (path ++ [i]) = (nodeAt m path).bind fun q => follow (m.entry q i) := descend_snoc ..

lemma nodeAt_single (i : Nat) : nodeAt m [i] = follow (m.entry .inode i) := nodeAt_snoc [] i

lemma nodeAt_page (hne : path ≠ []) (h : nodeAt m path = some q) : ∃ p, q = .page p := by
  obtain ⟨path, i, rfl⟩ := (eq_nil_or_concat' path).resolve_left hne
  rw [nodeAt_snoc] at h
  obtain ⟨q', -, hfollow⟩ := bind_eq_some_iff.mp h
  unfold follow at hfollow
  split at hfollow
  · cases hfollow
  · exact ⟨_, (some.inj hfollow).symm⟩

variable {rest path' : List Nat} {m1 m2 : Mem} {bn' : Nat} {gone gone' : List Nat → Prop}

lemma nodeAt_below (h : nodeAt m path = none) : nodeAt m (path ++ rest) = none := by
  unfold nodeAt at h ⊢
  rw [descend_append, h, bind_none]

lemma Place.init (h : Place (path ++ [i])) : Place path := (levels ndirect nindirect).init path i h

lemma Place.initial (h : Place path') (hpre : path <+: path') : Place path :=
  (levels ndirect nindirect).initial hpre h

lemma place_pagePath (h : bn < maxfile) : Place (pagePath bn) := isPlace_blockPath h

lemma dataPage_eq_some :
    dataPage m bn = some q ↔ bn < maxfile ∧ nodeAt m (pagePath bn) = some q := by
  unfold dataPage
  split <;> simp [*]

lemma Owned.place_inj (h : Owned m) (hp : Place path) (hp' : Place path')
    (hd : nodeAt m path = some q) (hd' : nodeAt m path' = some q) : path = path' :=
  (h.forest .inode rfl .inode rfl path path' hp hp' q hd hd').2

lemma Owned.ne_data (h : Owned m) (hp : Place (path ++ [i])) (hd : nodeAt m path = some q)
    (ha : dataPage m bn = some (.page a)) : q ≠ .page a := by
  rintro rfl
  obtain ⟨hlt, ha⟩ := dataPage_eq_some.mp ha
  have hpath := h.place_inj hp.init (place_pagePath hlt) hd ha
  exact not_isPlace_below bn i (hpath ▸ hp)

lemma byteAt_congr (hnode : dataPage m' (o / pgsize) = dataPage m (o / pgsize))
    (hpage : ∀ a, dataPage m (o / pgsize) = some (.page a) → m'.page a = m.page a) :
    byteAt m' o = byteAt m o := by
  unfold byteAt
  rw [hnode]
  split
  · rename_i a ha
    rw [hpage a ha]
  · rfl

lemma entry_store (b : Bytes) (j : Nat) (hp : p < 2 ^ 64) :
    (b.store (8 * i) 8 p).load (8 * j) 8 = if j = i then p else b.load (8 * j) 8 := by
  split
  · rename_i hj
    rw [hj, load_store_same, Nat.mod_eq_of_lt (by omega)]
  · exact load_store_of_disjoint (by omega)

lemma entry_setEntry (q' : Node) (j : Nat) (hp : p < 2 ^ 64) :
    (m.setEntry q i p).entry q' j = if q' = q ∧ j = i then p else m.entry q' j := by
  cases q with
  | inode =>
    cases q' with
    | inode => simp [setEntry, entry, Function.update_apply]
    | page b => simp [setEntry, entry]
  | page a =>
    cases q' with
    | inode => simp [setEntry, entry]
    | page b =>
      by_cases hb : b = a
      · subst hb
        simp [setEntry, entry, entry_store _ j hp]
      · simp [setEntry, entry, hb]

@[simp] lemma setEntry_free : (m.setEntry q i p).free = m.free := by cases q <;> rfl

@[simp] lemma setEntry_size : (m.setEntry q i p).size = m.size := by cases q <;> rfl

lemma setEntry_page (hq : q ≠ .page a) : (m.setEntry q i p).page a = m.page a := by
  cases q with
  | inode => rfl
  | page b =>
    have hab : a ≠ b := fun h => hq (by rw [h])
    simp [setEntry, hab]

lemma entry_setPage (j : Nat) (h : q ≠ .page a) : (m.setPage a b).entry q j = m.entry q j := by
  cases q with
  | inode => rfl
  | page c =>
    have hca : c ≠ a := fun hc => h (by rw [hc])
    simp [setPage, entry, hca]

lemma entry_withFree (free : List Nat) (q : Node) (j : Nat) :
    ({ m with free := free } : Mem).entry q j = m.entry q j := by
  cases q <;> rfl

lemma entry_withSize (size : Nat) : ({ m with size := size } : Mem).entry = m.entry := by
  funext q j
  cases q <;> rfl

lemma nodeAt_withSize (size : Nat) (path : List Nat) :
    nodeAt { m with size := size } path = nodeAt m path := by
  unfold nodeAt
  rw [entry_withSize]

lemma Owned.withSize (h : Owned m) (size : Nat) : Owned { m with size := size } where
  forest := by rw [entry_withSize]; exact h.forest
  page path hp p hd := h.page path hp p (by rwa [nodeAt_withSize] at hd)
  nodup := h.nodup
  bound := h.bound

lemma byteAt_withSize (size o : Nat) : byteAt { m with size := size } o = byteAt m o := by
  simp only [byteAt, dataPage, nodeAt_withSize]

/-! ## A fresh page -/

/-- The fresh page `p` is at the place `path`; nothing else has changed. -/
structure Linked (m : Mem) (path : List Nat) (p : Nat) (m' : Mem) : Prop where
  owned : Owned m'
  node : ∀ path', Place path' → nodeAt m' path' = if path' = path then some (.page p)
    else nodeAt m path'
  byte : ∀ o, byteAt m' o = byteAt m o
  free : m.free = p :: m'.free
  size : m'.size = m.size

lemma Owned.link (h : Owned m) (hp : Place (path ++ [i])) (hd : nodeAt m path = some q)
    (hzero : m.entry q i = 0) (hfree : m.free = p :: rest) :
    Linked m (path ++ [i]) p (({ m.setPage p zero with free := rest } : Mem).setEntry q i p) := by
  set m1 : Mem := { m.setPage p zero with free := rest } with hm1
  obtain ⟨hpos, hlt⟩ := h.bound p (by simp [hfree])
  have hnotree : ∀ path', Place path' → nodeAt m path' ≠ some (.page p) := fun path' hp' hn =>
    (h.page path' hp' p hn).1 (by simp [hfree])
  have hentry : ∀ path' j, Place (path' ++ [j]) → ∀ q', nodeAt m path' = some q' →
      (m1.setEntry q i p).entry q' j = if q' = q ∧ j = i then p else m.entry q' j := by
    intro path' j hj q' hq'
    have hne : q' ≠ .page p := by
      rintro rfl
      exact hnotree path' hj.init hq'
    have hold : m1.entry q' j = m.entry q' j := (entry_withFree ..).trans (entry_setPage j hne)
    rw [entry_setEntry q' j hlt, hold]
  have hnew : ∀ j, (m1.setEntry q i p).entry (.page p) j = 0 := by
    intro j
    have hne : ¬(Node.page p = q ∧ j = i) := by
      rintro ⟨rfl, -⟩
      exact hnotree path hp.init hd
    rw [entry_setEntry _ j hlt, if_neg hne]
    simp [hm1, setPage, entry]
  have hrow : ∀ r ∈ ({Node.inode} : Set Node), ∀ path' j, (levels ndirect nindirect).mem
    (path' ++ [j]) →
      ∀ q', descend follow m.entry r path' = some q' → follow ((m1.setEntry q i p).entry q' j) =
        if q' = q ∧ j = i then some (.page p) else follow (m.entry q' j) := by
    rintro _ rfl path' j hj q' hq'
    rw [hentry path' j hj q' hq']
    split
    · exact follow_of_ne hpos.ne'
    · rfl
  have hempty : ∀ j, (levels ndirect nindirect).mem (path ++ [i] ++ [j]) →
      follow ((m1.setEntry q i p).entry (.page p) j) = none :=
        fun j _ => by rw [hnew j, follow_zero]
  have hnode : ∀ path', Place path' → nodeAt (m1.setEntry q i p) path' =
      if path' = path ++ [i] then some (.page p) else nodeAt m path' := by
    intro path' hp'
    have hlinked := descend_linked h.forest rfl hp.init hd
      (by rw [hzero, follow_zero]) hrow hempty rfl hp'
    simp only [true_and] at hlinked
    exact hlinked
  have hnotable : ¬Table follow (levels ndirect nindirect) {Node.inode} m.entry (.page p) := by
    rintro ⟨r, rfl, path', hp', hn⟩
    exact hnotree path' hp' hn
  refine ⟨⟨?_, ?_, ?_, ?_⟩, hnode, ?_, ?_, ?_⟩
  · have hlinked : ∀ r ∈ ({Node.inode} : Set Node), ∀ path', (levels ndirect nindirect).mem path' →
        descend follow (m1.setEntry q i p).entry r path' =
          if r = Node.inode ∧ path' = path ++ [i] then some (.page p)
            else descend follow m.entry r path' := by
      rintro r rfl path' hp'
      simp only [true_and]
      exact hnode path' hp'
    exact h.forest.linked hnotable hlinked
  · intro path' hp' a ha
    rw [hnode path' hp'] at ha
    have hrest : rest ⊆ m.free := by
      rw [hfree]
      exact subset_cons_self p rest
    simp only [setEntry_free, hm1]
    split at ha
    · cases ha
      have hnodup := h.nodup
      rw [hfree] at hnodup
      exact ⟨(nodup_cons.mp hnodup).1, hlt⟩
    · exact ⟨fun hmem => (h.page path' hp' a ha).1 (hrest hmem), (h.page path' hp' a ha).2⟩
  · have hnodup := h.nodup
    rw [hfree] at hnodup
    simpa [hm1] using (nodup_cons.mp hnodup).2
  · intro a ha
    exact h.bound a (by rw [hfree]; exact mem_cons_of_mem p (by simpa [hm1] using ha))
  · intro o
    by_cases hplace : o / pgsize < maxfile ∧ pagePath (o / pgsize) = path ++ [i]
    · -- the new page is zero, and there was none before
      obtain ⟨hlt, hpath⟩ := hplace
      have hafter : dataPage (m1.setEntry q i p) (o / pgsize) = some (.page p) := by
        rw [dataPage, if_pos hlt, hnode _ (place_pagePath hlt), if_pos hpath]
      have hbefore : dataPage m (o / pgsize) = none := by
        rw [dataPage, if_pos hlt, hpath, nodeAt_snoc, hd, bind_some, hzero, follow_zero]
      have hq : q ≠ .page p := by
        rintro rfl
        exact hnotree path hp.init hd
      unfold byteAt
      rw [hafter, hbefore]
      simp [setEntry_page hq, hm1, setPage, zero]
    · have hsame : dataPage (m1.setEntry q i p) (o / pgsize) = dataPage m (o / pgsize) := by
        unfold dataPage
        split
        · rename_i hlt
          rw [hnode _ (place_pagePath hlt), if_neg fun hpath => hplace ⟨hlt, hpath⟩]
        · rfl
      refine byteAt_congr hsame fun a ha => ?_
      have hap : a ≠ p := by
        rintro rfl
        obtain ⟨hlt, ha⟩ := dataPage_eq_some.mp ha
        exact hnotree _ (place_pagePath hlt) ha
      rw [setEntry_page (h.ne_data hp hd ha)]
      simp [hm1, setPage, hap]
  · simp [hm1, hfree]
  · simp [hm1, setPage]

/-! ## Growing -/

/-- The places of `Q` have nodes now and took pages from the free list where they were missing; the
bytes of the file are `f`. -/
structure Grown (m : Mem) (Q : Finset (List Nat)) (m' : Mem) (f : Nat → Byte) : Prop where
  owned : Owned m'
  places : ∀ path ∈ Q, Place path
  none_iff : ∀ path, Place path → (nodeAt m' path = none ↔ nodeAt m path = none ∧ path ∉ Q)
  kept : ∀ path, Place path → ∀ q, nodeAt m path = some q → nodeAt m' path = some q
  byte : ∀ o, byteAt m' o = f o
  free : m'.free.length + lack (nodeAt m) Q = m.free.length
  size : m'.size = m.size

lemma Owned.grown (h : Owned m) : Grown m ∅ m (byteAt m) :=
  ⟨h, by simp, by simp, fun _ _ _ hd => hd, fun _ => rfl, rfl, rfl⟩

lemma Owned.grown_of_some (h : Owned m) (hp : Place path) (hd : nodeAt m path = some q) :
    Grown m {path} m (byteAt m) where
  owned := h
  places := by simpa using hp
  none_iff path' _ := by
    constructor
    · intro hnone
      refine ⟨hnone, fun hmem => ?_⟩
      rw [Finset.mem_singleton.mp hmem, hd] at hnone
      cases hnone
    · exact And.left
  kept _ _ _ hd := hd
  byte _ := rfl
  free := by simp [lack, Finset.filter_singleton, hd]
  size := rfl

lemma Linked.grown (h : Linked m path p m') (hp : Place path) (hd : nodeAt m path = none) :
    Grown m {path} m' (byteAt m) where
  owned := h.owned
  places := by simpa using hp
  none_iff path' hp' := by
    rw [h.node path' hp', Finset.mem_singleton]
    split <;> simp [*]
  kept path' hp' q hq := by
    rw [h.node path' hp', if_neg, hq]
    rintro rfl
    rw [hd] at hq
    cases hq
  byte := h.byte
  free := by simp [lack, Finset.filter_singleton, hd, h.free]
  size := h.size

lemma Grown.trans (h : Grown m Q m1 f) (h' : Grown m1 Q' m2 g) : Grown m (Q ∪ Q') m2 g where
  owned := h'.owned
  places path hpath := (Finset.mem_union.mp hpath).elim (h.places path) (h'.places path)
  none_iff path hp := by
    rw [h'.none_iff path hp, h.none_iff path hp, Finset.mem_union]
    tauto
  kept path hp q hq := h'.kept path hp q (h.kept path hp q hq)
  byte := h'.byte
  free := by
    have hunion : lack (nodeAt m) (Q ∪ Q') = lack (nodeAt m) Q + lack (nodeAt m1) Q' :=
      lack_union fun path hpath => h.none_iff path (h'.places path hpath)
    have hfree := h.free
    have hfree' := h'.free
    omega
  size := h'.size.trans h.size

/-- One step of `tmpfs_bmap` that may allocate. -/
lemma Owned.fetch (h : Owned m) (hp : Place (path ++ [i])) (hd : nodeAt m path = some q) :
    (lack (nodeAt m) {path ++ [i]} ≤ m.free.length ∧ ∃ p m', fetch true q i m = (p, m') ∧ p ≠ 0 ∧
      Grown m {path ++ [i]} m' (byteAt m) ∧ nodeAt m' (path ++ [i]) = some (.page p)) ∨
    (m.free.length < lack (nodeAt m) {path ++ [i]} ∧ fetch true q i m = (0, m)) := by
  have hnode : nodeAt m (path ++ [i]) = follow (m.entry q i) := by rw [nodeAt_snoc, hd, bind_some]
  unfold Tmpfs.fetch
  by_cases hzero : m.entry q i = 0
  · have hnone : nodeAt m (path ++ [i]) = none := by rw [hnode, hzero, follow_zero]
    have hlack : lack (nodeAt m) {path ++ [i]} = 1 := by simp [lack, Finset.filter_singleton, hnone]
    rw [if_neg (not_not.mpr hzero), if_pos rfl, hlack]
    cases hfree : m.free with
    | nil =>
      refine .inr ⟨Nat.one_pos, ?_⟩
      simp [kalloc, hfree]
    | cons p rest =>
      have hpos := (h.bound p (by simp [hfree])).1.ne'
      have hlink := h.link hp hd hzero hfree
      refine .inl ⟨by simp, p, _, ?_, hpos, hlink.grown hp hnone, ?_⟩
      · simp [kalloc, hfree, hpos]
      · rw [hlink.node _ hp, if_pos rfl]
  · have hsome : nodeAt m (path ++ [i]) = some (.page (m.entry q i)) := by
      rw [hnode, follow_of_ne hzero]
    have hlack : lack (nodeAt m) {path ++ [i]} = 0 := by simp [lack, Finset.filter_singleton, hsome]
    rw [if_pos hzero]
    exact .inl ⟨by omega, _, m, rfl, hzero, h.grown_of_some hp hsome, hsome⟩

/-! ## The way to a page -/

/-- `tmpfs_bmap` as a walk along the indices of a place. -/
def walk (alloc : Bool) : Node → List Nat → Mem → Nat × Mem
  | _, [], m => (0, m)
  | q, [i], m => fetch alloc q i m
  | q, i :: rest, m =>
    let (p, m) := fetch alloc q i m
    if p = 0 then (0, m) else walk alloc (.page p) rest m

lemma bmap_eq_walk (alloc : Bool) (h : bn < maxfile) :
    bmap bn alloc m = walk alloc .inode (pagePath bn) m := by
  unfold bmap pagePath blockPath
  by_cases hdirect : bn < ndirect
  · rw [if_pos hdirect, if_pos hdirect, walk]
  · rw [if_neg hdirect, if_neg hdirect]
    by_cases hsingle : bn - ndirect < nindirect
    · rw [if_pos hsingle, if_pos (show bn < ndirect + nindirect by omega)]
      simp only [walk]
    · have hdouble : bn - ndirect - nindirect < ndindirect := by
        unfold maxfile at h
        omega
      rw [if_neg hsingle, if_pos hdouble, if_neg (show ¬bn < ndirect + nindirect by omega)]
      simp only [walk]

lemma walk_cons (hne : rest ≠ []) : walk alloc q (i :: rest) m =
    let r := fetch alloc q i m
    if r.1 = 0 then (0, r.2) else walk alloc (.page r.1) rest r.2 := by
  obtain ⟨j, rest, rfl⟩ := exists_cons_of_ne_nil hne
  simp only [walk]

/-- A walk that allocates comes to its end if there are enough free pages for the places that are
missing, and otherwise returns 0. -/
lemma Owned.walk (h : Owned m) (path : List Nat) (hp : Place (path ++ rest))
    (hd : nodeAt m path = some q) (hne : rest ≠ []) :
    (lack (nodeAt m) (wayFrom path rest) ≤ m.free.length ∧ ∃ p m', walk true q rest m =
      (p, m') ∧ p ≠ 0 ∧
      Grown m (wayFrom path rest) m' (byteAt m) ∧ nodeAt m' (path ++ rest) = some (.page p)) ∨
    (m.free.length < lack (nodeAt m) (wayFrom path rest) ∧ ∃ m' Q, walk true q rest m = (0, m') ∧
      Grown m Q m' (byteAt m) ∧ ∀ x ∈ Q, x <+: path ++ rest ∧ x ≠ path ++ rest) := by
  induction rest generalizing m path q with
  | nil => exact absurd rfl hne
  | cons i rest ih =>
    have hsplit : path ++ i :: rest = path ++ [i] ++ rest := by simp
    have hpi : Place (path ++ [i]) := hp.initial ⟨rest, hsplit.symm⟩
    have hway : wayFrom path (i :: rest) = {path ++ [i]} ∪ wayFrom (path ++ [i]) rest := rfl
    by_cases hrest : rest = []
    · subst hrest
      rcases h.fetch hpi hd with ⟨hle, hdone⟩ | ⟨hlt, hfail⟩
      · exact .inl ⟨hle, hdone⟩
      · exact .inr ⟨hlt, m, ∅, hfail, h.grown, by simp⟩
    · rw [hsplit] at hp ⊢
      rw [walk_cons hrest, hway]
      rcases h.fetch hpi hd with ⟨-, p, m1, hfetch, hpos, hgrown, hnode⟩ | ⟨hlt, hfail⟩
      · -- the rest of the way lacks the same places after the first one was filled
        have hunion : lack (nodeAt m) ({path ++ [i]} ∪ wayFrom (path ++ [i]) rest) =
            lack (nodeAt m) {path ++ [i]} + lack (nodeAt m1) (wayFrom (path ++ [i]) rest) :=
          lack_union fun q hq => hgrown.none_iff q (isPlace_of_mem_wayFrom hp hq)
        have hfree := hgrown.free
        have hbyte : byteAt m1 = byteAt m := funext hgrown.byte
        simp only [hfetch, if_neg hpos]
        rcases ih hgrown.owned (path ++ [i]) hp hnode hrest with
          ⟨hle, p', m2, hwalk, hpos', hgrown', hnode'⟩ |
          ⟨hlt, m2, Q, hwalk, hgrown', hQ⟩
        · exact .inl ⟨by omega, p', m2, hwalk, hpos', hbyte ▸ hgrown.trans hgrown', hnode'⟩
        · refine .inr ⟨by omega, m2, _, hwalk, hbyte ▸ hgrown.trans hgrown', fun x hx => ?_⟩
          rcases Finset.mem_union.mp hx with hx | hx
          · rw [Finset.mem_singleton.mp hx]
            exact ⟨prefix_append .., by simpa using Ne.symm hrest⟩
          · exact hQ x hx
      · refine .inr ⟨hlt.trans_le (lack_mono Finset.subset_union_left), m, ∅, ?_, h.grown, by simp⟩
        simp [hfail]

lemma walk_false (path : List Nat) (hd : nodeAt m path = some q) (hne : rest ≠ []) :
    (∃ p ≠ 0, walk false q rest m = (p, m) ∧ nodeAt m (path ++ rest) = some (.page p)) ∨
    (walk false q rest m = (0, m) ∧ nodeAt m (path ++ rest) = none) := by
  induction rest generalizing path q with
  | nil => exact absurd rfl hne
  | cons i rest ih =>
    have hsplit : path ++ i :: rest = path ++ [i] ++ rest := by simp
    have hnode : nodeAt m (path ++ [i]) = follow (m.entry q i) := by
      rw [nodeAt_snoc, hd, bind_some]
    have hfetch : fetch false q i m = (m.entry q i, m) := by
      unfold Tmpfs.fetch
      split
      · rfl
      · rename_i hzero
        simp [not_not.mp hzero]
    by_cases hrest : rest = []
    · subst hrest
      simp only [Tmpfs.walk, hfetch, hnode]
      by_cases hzero : m.entry q i = 0
      · exact .inr ⟨by rw [hzero], by rw [hzero, follow_zero]⟩
      · exact .inl ⟨_, hzero, rfl, follow_of_ne hzero⟩
    · rw [walk_cons hrest, hsplit]
      simp only [hfetch]
      by_cases hzero : m.entry q i = 0
      · refine .inr ⟨if_pos hzero, ?_⟩
        exact nodeAt_below (by rw [hnode, hzero, follow_zero])
      · rw [if_neg hzero]
        exact ih (path ++ [i]) (hnode.trans (follow_of_ne hzero)) hrest

lemma pagePath_of_isPrefix (hbn : bn < maxfile) (h : pagePath bn' <+: pagePath bn) : bn' = bn := by
  obtain ⟨rest, hrest⟩ := h
  cases rest with
  | nil =>
    rw [append_nil] at hrest
    exact blockPath_injective hrest
  | cons j rest =>
    refine absurd ?_ (@not_isPlace_below ndirect nindirect bn' j)
    refine (place_pagePath hbn).initial ⟨rest, ?_⟩
    rw [← hrest]
    simp [pagePath]

lemma pagePath_mem_ways (hbn : bn < maxfile) :
    pagePath bn' ∈ ways ndirect nindirect bn bn ↔ bn' = bn := by
  rw [ways_self]
  constructor
  · intro h
    obtain ⟨r, -, hpre, hpath⟩ := mem_wayFrom.mp h
    rw [nil_append] at hpath
    exact pagePath_of_isPrefix hbn (hpath ▸ hpre)
  · rintro rfl
    exact mem_wayFrom_self (blockPath_ne_nil bn')

/-- `tmpfs_bmap` that allocates: it returns the data page of the block, or it fails and adds no data
page. -/
lemma Owned.bmap (h : Owned m) (hbn : bn < maxfile) :
    (lack (nodeAt m) (ways ndirect nindirect bn bn) ≤ m.free.length ∧
      ∃ p m', bmap bn true m = (p, m') ∧
      p ≠ 0 ∧ Grown m (ways ndirect nindirect bn bn) m' (byteAt m) ∧
        dataPage m' bn = some (.page p)) ∨
    (m.free.length < lack (nodeAt m) (ways ndirect nindirect bn bn) ∧
      ∃ m' Q, bmap bn true m = (0, m') ∧
      Grown m Q m' (byteAt m) ∧ ∀ bn', pagePath bn' ∉ Q) := by
  rw [bmap_eq_walk true hbn, ways_self]
  simp only [dataPage_eq_some, hbn, true_and]
  rcases h.walk [] (place_pagePath hbn) rfl (blockPath_ne_nil bn) with hdone |
    ⟨hlt, m', Q, hwalk, hgrown, hQ⟩
  · exact .inl hdone
  · refine .inr ⟨hlt, m', Q, hwalk, hgrown, fun bn' hbn' => ?_⟩
    obtain ⟨hpre, hne⟩ := hQ _ hbn'
    exact hne (congrArg pagePath (pagePath_of_isPrefix hbn hpre))

/-- `tmpfs_bmap` that does not allocate -/
lemma bmap_false (hbn : bn < maxfile) :
    (∃ p ≠ 0, bmap bn false m = (p, m) ∧ dataPage m bn = some (.page p)) ∨
    (bmap bn false m = (0, m) ∧ dataPage m bn = none) := by
  have hwalk := walk_false (m := m) [] rfl (@blockPath_ne_nil ndirect nindirect bn)
  rw [bmap_eq_walk false hbn, dataPage, if_pos hbn]
  exact hwalk

/-! ## Copying into a data page -/

lemma Owned.nodeAt_setPage (h : Owned m) (ha : dataPage m bn = some (.page a)) (b : Bytes)
    (hp : Place path) : nodeAt (m.setPage a b) path = nodeAt m path := by
  refine @descend_congr_on _ _ _ _ (levels ndirect nindirect) {Node.inode} _ _ _ _ ?_ rfl hp
  rintro _ rfl path' j hj q hq
  rw [entry_setPage j (h.ne_data hj hq ha)]

lemma dataPage_congr (hnode : ∀ path, Place path → nodeAt m' path = nodeAt m path) (bn : Nat) :
    dataPage m' bn = dataPage m bn := by
  unfold dataPage
  split
  · rename_i hlt
    exact hnode _ (place_pagePath hlt)
  · rfl

lemma Owned.grown_copyIn (h : Owned m)
    (ha : dataPage m (off / pgsize) = some (.page a)) (hlen : off % pgsize + data.length ≤ pgsize) :
    Grown m ∅ (m.setPage a ((m.page a).copyIn (off % pgsize) data))
      (copyIn (byteAt m) off data) := by
  set m' := m.setPage a ((m.page a).copyIn (off % pgsize) data) with hm'
  have hnode : ∀ path, Place path → nodeAt m' path = nodeAt m path := fun path hp =>
    h.nodeAt_setPage ha _ hp
  refine ⟨⟨?_, ?_, h.nodup, h.bound⟩, by simp, ?_, ?_, ?_, rfl, rfl⟩
  · refine h.forest.of_sub ?_
    rintro _ rfl path hp q hq
    exact (hnode path hp).symm.trans hq
  · intro path hp p hd
    rw [hnode path hp] at hd
    exact h.page path hp p hd
  · intro path hp
    simp [hnode path hp]
  · intro path hp q hq
    rw [hnode path hp, hq]
  · intro o
    have hblock : ∀ o, o / pgsize = off / pgsize → m.page a (o % pgsize) =
      byteAt m o := fun o ho => by
      rw [byteAt, ho, ha]
    rw [copyIn_block hlen hblock]
    split
    · rename_i ho
      rw [byteAt, dataPage_congr hnode, ho, ha]
      simp [hm', setPage]
    · rename_i ho
      refine byteAt_congr (dataPage_congr hnode _) fun c hc => ?_
      have hca : c ≠ a := by
        rintro rfl
        obtain ⟨hlt, hc⟩ := dataPage_eq_some.mp hc
        obtain ⟨hlt', ha⟩ := dataPage_eq_some.mp ha
        exact ho
          (blockPath_injective (h.place_inj (place_pagePath hlt) (place_pagePath hlt') hc ha))
      simp [hm', setPage, hca]

/-! ## Freeing pages -/

/-- The nodes at the places of `gone` have been freed. -/
structure Cut (m : Mem) (gone : List Nat → Prop) (m' : Mem) : Prop where
  owned : Owned m'
  none : ∀ path, Place path → gone path → nodeAt m' path = none
  same : ∀ path, Place path → ¬gone path → nodeAt m' path = nodeAt m path

lemma Cut.trans (h : Cut m gone m1) (h' : Cut m1 gone' m2) :
    Cut m (fun path => gone path ∨ gone' path) m2 where
  owned := h'.owned
  none path hp hgone := by
    by_cases hlast : gone' path
    · exact h'.none path hp hlast
    · rw [h'.same path hp hlast, h.none path hp (hgone.resolve_right hlast)]
  same path hp hgone := by
    rw [h'.same path hp (fun hg => hgone (.inr hg)), h.same path hp fun hg => hgone (.inl hg)]

lemma Cut.of_iff (h : Cut m gone m')
    (hiff : ∀ path, Place path → nodeAt m path ≠ .none → (gone path ↔ gone' path)) :
    Cut m gone' m' where
  owned := h.owned
  none path hp hgone := by
    by_cases hnone : nodeAt m path = .none
    · by_cases hg : gone path
      · exact h.none path hp hg
      · rw [h.same path hp hg, hnone]
    · exact h.none path hp ((hiff path hp hnone).mpr hgone)
  same path hp hgone := by
    by_cases hnone : nodeAt m path = .none
    · by_cases hg : gone path
      · rw [h.none path hp hg, hnone]
      · exact h.same path hp hg
    · exact h.same path hp fun hg => hgone ((hiff path hp hnone).mp hg)

lemma Owned.cut_refl (h : Owned m) : Cut m (fun _ => False) m :=
  ⟨h, fun _ _ hf => hf.elim, fun _ _ _ => rfl⟩

lemma Owned.freeEntry (h : Owned m) (hp : Place (path ++ [i])) (hd : nodeAt m path = some q)
    (hleaf : ∀ j, Place (path ++ [i] ++ [j]) → nodeAt m (path ++ [i] ++ [j]) = none) :
    Cut m (· = path ++ [i]) (freeEntry q i m) := by
  have hchild : nodeAt m (path ++ [i]) = follow (m.entry q i) := by rw [nodeAt_snoc, hd, bind_some]
  unfold Tmpfs.freeEntry
  by_cases hzero : m.entry q i = 0
  · rw [if_neg (not_not.mpr hzero)]
    refine h.cut_refl.of_iff fun path' _ hne => ⟨False.elim, ?_⟩
    rintro rfl
    rw [hchild, hzero, follow_zero] at hne
    exact hne rfl
  · rw [if_pos hzero]
    set p := m.entry q i with hpdef
    rw [follow_of_ne hzero] at hchild
    obtain ⟨hfree, hlt⟩ := h.page _ hp p hchild
    have hrow : ∀ r ∈ ({Node.inode} : Set Node), ∀ path' j,
      (levels ndirect nindirect).mem (path' ++ [j]) →
        ∀ q', descend follow m.entry r path' = some q' → q' ≠ .page p →
        follow (((kfree p m).setEntry q i 0).entry q' j) =
          if q' = q ∧ j = i then .none else follow (m.entry q' j) := by
      rintro _ rfl path' j hj q' hq' hne
      have hold : (kfree p m).entry q' j = m.entry q' j :=
        (entry_withFree ..).trans (entry_setPage j hne)
      rw [entry_setEntry q' j (by decide), hold]
      split <;> rfl
    have hnone : ∀ j, (levels ndirect nindirect).mem (path ++ [i] ++ [j]) →
        follow (m.entry (.page p) j) = .none := by
      intro j hj
      have := hleaf j hj
      rwa [nodeAt_snoc, hchild, bind_some] at this
    have hnode : ∀ path', Place path' → nodeAt ((kfree p m).setEntry q i 0) path' =
        if path' = path ++ [i] then .none else nodeAt m path' := by
      intro path' hp'
      have hunlinked := descend_unlinked h.forest rfl hp hd (follow_of_ne hzero) hnone hrow rfl hp'
      simp only [true_and] at hunlinked
      exact hunlinked
    refine ⟨⟨?_, ?_, ?_, ?_⟩, ?_, ?_⟩
    · refine h.forest.of_sub ?_
      rintro _ rfl path' hp' q' hq'
      have hq' : nodeAt ((kfree p m).setEntry q i 0) path' = some q' := hq'
      rw [hnode path' hp'] at hq'
      split at hq'
      · cases hq'
      · exact hq'
    · intro path' hp' a ha
      rw [hnode path' hp'] at ha
      split at ha
      · cases ha
      · rename_i hne
        obtain ⟨hafree, halt⟩ := h.page path' hp' a ha
        refine ⟨?_, halt⟩
        simp only [setEntry_free, kfree, mem_cons, not_or]
        refine ⟨?_, hafree⟩
        rintro rfl
        exact hne (h.place_inj hp' hp ha hchild)
    · simpa [kfree] using ⟨hfree, h.nodup⟩
    · intro a ha
      simp only [setEntry_free, kfree, mem_cons] at ha
      rcases ha with rfl | ha
      · exact ⟨Nat.pos_of_ne_zero hzero, hlt⟩
      · exact h.bound a ha
    · rintro path' hp' rfl
      rw [hnode _ hp', if_pos rfl]
    · intro path' hp' hne
      rw [hnode _ hp', if_neg hne]

end FrostVista.Tmpfs
