import FrostVista.Kernel.FileData
import FrostVista.Library.Run

/-!
# Slab caches

`kernel/mm/slab/slab.c`: a cache cuts pages into objects of one size, chains the free objects of a
page through their first words and keeps a header at the tail of each page. A free list is the list
of its nodes here, a list of slabs that of their headers.
-/
namespace FrostVista.Kernel.Slab

open Function Lib List

inductive SlabList
  | slabsFull | slabsPartial | slabsEmpty
  deriving DecidableEq

/-- `struct kmem_slab` -/
structure KmemSlab where
  mem : Nat
  totalObjs : BitVec 32
  freeObjs : BitVec 32
  cache : Nat
  freelist : List Nat

/-- `struct kmem_cache` -/
structure KmemCache where
  objSize : Nat
  slabs : SlabList → List Nat

structure Slabs where
  cache : Nat → KmemCache
  slab : Nat → KmemSlab

/-- `sizeof(struct kmem_slab)` -/
def slabSize : Nat := 48

/-- The header at the tail of the page of an address. -/
def slabOf (buf : Nat) : Nat := (buf ||| (pageSize - 1)) + 1 - slabSize

def Slabs.set (s : Slabs) (h : Nat) (slab : KmemSlab) : Slabs :=
  { s with slab := update s.slab h slab }

/-- `list_del` from the list the slab is on, of whichever cache, and `list_add_tail` to a list of
`cp`. -/
def Slabs.move (s : Slabs) (h cp : Nat) (l : SlabList) : Slabs :=
  let del c l := ((s.cache c).slabs l).erase h
  { s with cache := fun c =>
      { s.cache c with slabs := fun l' => if c = cp ∧ l' = l then del c l' ++ [h] else del c l' } }

/-- `kmem_cache_grow` with the page that `kalloc` returns, 0 for none. -/
def kmemCacheGrow (cp page : Nat) (s : Slabs) : Nat × Slabs :=
  let objSize := (s.cache cp).objSize
  let total := (pageSize - slabSize) / objSize
  if page = 0 ∨ total = 0 then (0, s)
  else
    let objs := (range total).map fun i => page + i * objSize
    let s := s.set (slabOf page) ⟨page, total, total, cp, objs.reverse⟩
    (pageSize, s.move (slabOf page) cp .slabsEmpty)

/-- `kmem_cache_alloc` from the slab it has found; `none` is a null dereference. -/
def takeObj (cp h : Nat) (s : Slabs) : Option (Nat × Slabs) :=
  let slab := s.slab h
  if slab.freeObjs = 0 then some (0, s)
  else
    match slab.freelist with
    | [] => none
    | node :: rest =>
      let freeObjs := slab.freeObjs - 1
      let s := s.set h { slab with freeObjs, freelist := rest }
      if freeObjs = 0 then some (node, s.move h cp .slabsFull)
      else if slab.freeObjs = slab.totalObjs then some (node, s.move h cp .slabsPartial)
      else some (node, s)

def KmemCache.first (c : KmemCache) : Option Nat :=
  (c.slabs .slabsPartial ++ c.slabs .slabsEmpty).head?

/-- `kmem_cache_alloc`; `page` is what `kalloc` returns if the cache has to grow. -/
def kmemCacheAlloc (cp : Nat) (nosleep : Bool) (page : Nat) (s : Slabs) : Option (Nat × Slabs) :=
  if cp = 0 then some (0, s)
  else
    match (s.cache cp).first with
    | some h => takeObj cp h s
    | none =>
      if nosleep then some (0, s)
      else
        match kmemCacheGrow cp page s with
        | (0, s) => some (0, s)
        | (_, s) => (s.cache cp).first.bind (takeObj cp · s)

/-- `kmem_cache_free`; `none` is a panic. -/
def kmemCacheFree (cp buf : Nat) (s : Slabs) : Option Slabs :=
  let h := slabOf buf
  let slab := s.slab h
  let freeObjs := slab.freeObjs + 1
  if cp = 0 ∨ buf = 0 then some s
  else if buf < slab.mem ∨ slab.mem + pageSize ≤ buf then none
  else if buf ∈ slab.freelist then some s
  else if slab.totalObjs < freeObjs then none
  else
    let s := s.set h { slab with freeObjs, freelist := buf :: slab.freelist }
    if freeObjs = slab.totalObjs then some (s.move h cp .slabsEmpty)
    else if slab.freeObjs = 0 then some (s.move h cp .slabsPartial)
    else some s

/-- The two tests that `kmem_cache_free` does not make: the page belongs to `cp`, and the address is
the start of one of its objects. -/
def Slabs.Proper (s : Slabs) (cp buf : Nat) : Prop :=
  let slab := s.slab (slabOf buf)
  slab.cache = cp ∧ ∃ i < slab.totalObjs.toNat, buf = slab.mem + i * (s.cache cp).objSize

/-- The address is the start of an object of `cp` that is in use. -/
def Slabs.Allocated (s : Slabs) (cp buf : Nat) : Prop :=
  s.Proper cp buf ∧ buf ∉ (s.slab (slabOf buf)).freelist

/-- The checks of `kmem_cache_free` do not let the address through. -/
def Slabs.Stopped (s : Slabs) (cp buf : Nat) : Prop :=
  let slab := s.slab (slabOf buf)
  cp = 0 ∨ buf = 0 ∨ buf < slab.mem ∨ slab.mem + pageSize ≤ buf ∨ buf ∈ slab.freelist ∨
    slab.totalObjs < slab.freeObjs + 1

/-- Caches of the given object sizes, as `kmem_cache_create` leaves them. -/
def created (objSize : Nat → Nat) : Slabs :=
  ⟨fun c => ⟨objSize c, fun _ => []⟩, fun _ => ⟨0, 0, 0, 0, []⟩⟩

/-- The slabs and the objects in the hands of callers, each with the cache that returned it. -/
structure Heap where
  slabs : Slabs
  held : List (Nat × Nat)

inductive Act
  | alloc (cp : Nat) (nosleep : Bool) (page : Nat)
  | free (cp buf : Nat)

/-- What is held after `kmem_cache_alloc` has returned `buf`, 0 for nothing. -/
def hand (cp buf : Nat) (used : List (Nat × Nat)) : List (Nat × Nat) :=
  if buf = 0 then used else (cp, buf) :: used

/-- The page of `kalloc` is no slab yet, and what is freed passes the two tests. -/
inductive Step : Heap → Act → Heap → Prop
  | alloc : (∀ c l, slabOf page ∉ (w.slabs.cache c).slabs l) →
      kmemCacheAlloc cp nosleep page w.slabs = some (buf, s) →
        Step w (.alloc cp nosleep page) ⟨s, hand cp buf w.held⟩
  | free : w.slabs.Proper cp buf → kmemCacheFree cp buf w.slabs = some s →
      Step w (.free cp buf) ⟨s, w.held.filter (· ≠ (cp, buf))⟩

variable {s s' : Slabs} {cp buf : Nat}

lemma kmemCacheFree_of_stopped (h : s.Stopped cp buf) (hrun : kmemCacheFree cp buf s = some s') :
    s' = s := by
  unfold kmemCacheFree at hrun
  unfold Slabs.Stopped at h
  grind

lemma kmemCacheFree_of_not_stopped (h : ¬s.Stopped cp buf) :
    ∃ s', kmemCacheFree cp buf s = some s' ∧
      (s'.slab (slabOf buf)).freelist = buf :: (s.slab (slabOf buf)).freelist := by
  simp only [Slabs.Stopped, not_or] at h
  obtain ⟨h1, h2, h3, h4, h5, h6⟩ := h
  simp only [kmemCacheFree, h1, h2, h3, h4, h5, h6, or_self, if_false]
  split_ifs <;> simp [Slabs.move, Slabs.set]

/-- A slab is on the lists of its own cache only, and every object in use is held. -/
structure Inv (s : Slabs) (used : List (Nat × Nat)) : Prop where
  lists : ∀ {c l h}, h ∈ (s.cache c).slabs l → (s.slab h).cache = c
  held : ∀ {c a}, s.Allocated c a → c ≠ 0 → a ≠ 0 → (c, a) ∈ used

lemma Inv.move (hi : Inv s used) (hk : (s.slab k).cache = cp) : Inv (s.move k cp l) used where
  lists {c l' h} hm := by
    simp only [Slabs.move] at hm
    split_ifs at hm with hc
    · obtain hm | hm := mem_append.mp hm
      · exact hi.lists (mem_of_mem_erase hm)
      · obtain rfl := mem_singleton.mp hm
        exact hk.trans hc.1.symm
    · exact hi.lists (mem_of_mem_erase hm)
  held := hi.held

/-- Writing a header keeps the invariant if the objects of its page do. -/
lemma Inv.set (hi : Inv s used) (hcache : ∀ c l, k ∈ (s.cache c).slabs l → b.cache = c)
    (hsub : ∀ p ∈ used, slabOf p.2 ≠ k → p ∈ used')
    (hpage : ∀ c a, (s.set k b).Allocated c a → slabOf a = k → c ≠ 0 → a ≠ 0 → (c, a) ∈ used') :
    Inv (s.set k b) used' where
  lists {c l h} hm := by
    obtain rfl | hne := eq_or_ne h k
    · simpa [Slabs.set] using hcache c l hm
    · simpa [Slabs.set, hne] using hi.lists hm
  held {c a} ha hc h0 := by
    by_cases hk : slabOf a = k
    · exact hpage c a ha hk hc h0
    · simp only [Slabs.Allocated, Slabs.Proper, Slabs.set, update_of_ne hk] at ha
      exact hsub _ (hi.held ha hc h0) hk

lemma mem_hand (h : p ∈ used) : p ∈ hand cp buf used := by
  unfold hand
  split_ifs
  exacts [h, mem_cons_of_mem _ h]

lemma Inv.takeObj (hi : Inv s used) (hk : (s.slab k).cache = cp)
    (hrun : takeObj cp k s = some (buf, s')) : Inv s' (hand cp buf used) := by
  unfold Slab.takeObj at hrun
  dsimp only at hrun
  split at hrun
  · cases hrun
    exact hi
  · split at hrun
    · cases hrun
    · next node rest hfree =>
      have hw n : Inv (s.set k { s.slab k with freeObjs := n, freelist := rest })
          (hand cp node used) := by
        refine hi.set (fun c l => hi.lists) (fun _ h _ => mem_hand h) ?_
        rintro c a ⟨⟨rfl, hobj⟩, hrest⟩ rfl hc ha
        simp only [Slabs.set, update_self] at hobj hrest hc ⊢
        obtain rfl | hne := eq_or_ne a node
        · simp [hand, ha, hk]
        · exact mem_hand (hi.held ⟨⟨rfl, hobj⟩, by simp [hfree, hne, hrest]⟩ hc ha)
      split_ifs at hrun <;> cases hrun
      exacts [(hw _).move (by simpa [Slabs.set]), (hw _).move (by simpa [Slabs.set]), hw _]

lemma Inv.grow (hi : Inv s used) (hnew : ∀ c l, slabOf page ∉ (s.cache c).slabs l) :
    Inv (kmemCacheGrow cp page s).2 used := by
  unfold kmemCacheGrow
  dsimp only
  split_ifs
  · exact hi
  · refine Inv.move ?_ (by simp [Slabs.set])
    refine hi.set (fun c l h => absurd h (hnew c l)) (fun _ h _ => h) ?_
    -- every object of the new page is on its free list
    rintro c a ⟨⟨rfl, i, hlt, he⟩, hfree⟩ hk
    simp only [Slabs.set, hk, update_self] at hlt he hfree
    refine absurd (mem_reverse.mpr (mem_map.mpr ⟨i, ?_, he.symm⟩)) hfree
    exact mem_range.mpr <| hlt.trans_le (by simpa using Nat.mod_le _ _)

lemma Inv.alloc (hi : Inv s used) (hnew : ∀ c l, slabOf page ∉ (s.cache c).slabs l)
    (hrun : kmemCacheAlloc cp nosleep page s = some (buf, s')) : Inv s' (hand cp buf used) := by
  have hfirst s k (hi : Inv s used) (hk : (s.cache cp).first = some k) : (s.slab k).cache = cp :=
    (mem_append.mp (mem_of_head? hk)).elim hi.lists hi.lists
  unfold kmemCacheAlloc at hrun
  split at hrun
  · cases hrun
    exact hi
  split at hrun
  · next hk => exact hi.takeObj (hfirst _ _ hi hk) hrun
  split at hrun
  · cases hrun
    exact hi
  have hg : Inv (kmemCacheGrow cp page s).2 used := hi.grow hnew
  split at hrun <;> rename_i hgrow <;> rw [hgrow] at hg
  · cases hrun
    exact hg
  · obtain ⟨k, hk, hrun⟩ := Option.bind_eq_some_iff.mp hrun
    exact hg.takeObj (hfirst _ _ hg hk) hrun

lemma Inv.free (hi : Inv s used) (hp : s.Proper cp buf)
    (hrun : kmemCacheFree cp buf s = some s') : Inv s' (used.filter (· ≠ (cp, buf))) := by
  have hkeep {c a} (h : (c, a) ∈ used) (hne : ¬(c = cp ∧ a = buf)) :
      (c, a) ∈ used.filter (· ≠ (cp, buf)) :=
    mem_filter.mpr ⟨h, by simpa [imp_iff_not_or] using hne⟩
  have hw n : Inv (s.set (slabOf buf) { s.slab (slabOf buf) with
      freeObjs := n, freelist := buf :: (s.slab (slabOf buf)).freelist })
      (used.filter (· ≠ (cp, buf))) := by
    refine hi.set (fun c l => hi.lists) (fun _ h hk => hkeep h fun he => hk (he.2 ▸ rfl)) ?_
    intro c a ha hk hc h0
    simp only [Slabs.Allocated, Slabs.Proper, Slabs.set, hk, update_self, mem_cons, not_or] at ha
    obtain ⟨hobj, hne, hfree⟩ := ha
    refine hkeep (hi.held ?_ hc h0) fun he => hne he.2
    simpa only [Slabs.Allocated, Slabs.Proper, hk] using ⟨hobj, hfree⟩
  unfold kmemCacheFree at hrun
  dsimp only at hrun
  split_ifs at hrun with h1 _ h2 <;> cases hrun
  · refine ⟨hi.lists, fun ha hc h0 => hkeep (hi.held ha hc h0) ?_⟩
    rintro ⟨rfl, rfl⟩
    exact h1.elim hc h0
  · refine ⟨hi.lists, fun ha hc h0 => hkeep (hi.held ha hc h0) ?_⟩
    rintro ⟨rfl, rfl⟩
    exact ha.2 h2
  · exact (hw _).move (by simpa [Slabs.set] using hp.1)
  · exact (hw _).move (by simpa [Slabs.set] using hp.1)
  · exact hw _

lemma Inv.step {w w' : Heap} (hi : Inv w.slabs w.held) (h : Step w act w') :
    Inv w'.slabs w'.held := by
  cases h with
  | alloc hnew hrun => exact hi.alloc hnew hrun
  | free hp hrun => exact hi.free hp hrun

lemma inv_created : Inv (created objSize) [] := by
  refine ⟨by simp [created], ?_⟩
  rintro c a ⟨⟨-, i, hlt, -⟩, -⟩
  exact absurd hlt (Nat.not_lt_zero i)

/-- A call changes the state only at an allocated object of its cache, exactly if the address passes
the two missing tests or is stopped by the others. While every freed address passes them, what a
call frees was returned by `kmem_cache_alloc` of the same cache and not freed since. -/
theorem kmemCacheFree_changes_iff (s : Slabs) (cp buf : Nat) :
    ((∀ s', kmemCacheFree cp buf s = some s' → s' ≠ s → s.Allocated cp buf) ↔
      s.Proper cp buf ∨ s.Stopped cp buf) ∧
    ∀ objSize acts held s', Run Step ⟨created objSize, []⟩ acts ⟨s, held⟩ → s.Proper cp buf →
      kmemCacheFree cp buf s = some s' → s' ≠ s → (cp, buf) ∈ held := by
  have hpass {s'} (hrun : kmemCacheFree cp buf s = some s') (hne : s' ≠ s) : ¬s.Stopped cp buf :=
    fun h => hne (kmemCacheFree_of_stopped h hrun)
  have hall {s'} (hp : s.Proper cp buf) (hrun : kmemCacheFree cp buf s = some s') (hne : s' ≠ s) :
      s.Allocated cp buf :=
    ⟨hp, fun h => hpass hrun hne (by simp [Slabs.Stopped, h])⟩
  refine ⟨⟨fun h => ?_, ?_⟩, ?_⟩
  · by_contra! hno
    obtain ⟨s', hrun, hlist⟩ := kmemCacheFree_of_not_stopped hno.2
    refine hno.1 (h s' hrun fun he => ?_).1
    rw [he] at hlist
    exact cons_ne_self _ _ hlist.symm
  · rintro (h | h) s' hrun hne
    · exact hall h hrun hne
    · exact absurd h (hpass hrun hne)
  · intro objSize acts held s' hacts hp hrun hne
    have hi : Inv s held :=
      hacts.invariant (fun w => Inv w.slabs w.held) (fun _ _ _ => Inv.step) inv_created
    have hstop := hpass hrun hne
    exact hi.held (hall hp hrun hne) (fun h => hstop (.inl h)) fun h => hstop (.inr (.inl h))

/-- An address inside an object in use is accepted and handed out next. -/
theorem kmemCacheFree_inside_object :
    ∃ s s' s'', kmemCacheAlloc 4096 false 8192 (created fun _ => 1024) = some (10240, s) ∧
      ¬s.Allocated 4096 10248 ∧
      kmemCacheFree 4096 10248 s = some s' ∧ s' ≠ s ∧
        kmemCacheAlloc 4096 false 0 s' = some (10248, s'') ∧ s''.Allocated 4096 10240 := by
  refine ⟨_, _, _, rfl, ?_, rfl, fun h => ?_, rfl, ⟨rfl, 2, by decide, rfl⟩, by decide⟩
  · rintro ⟨⟨-, i, -, hi⟩, -⟩
    have hi : 10248 = 8192 + i * 1024 := hi
    omega
  · have hlist : [10248, 9216, 8192] = [9216, 8192] :=
      congrArg (fun s : Slabs => (s.slab 12240).freelist) h
    cases hlist

end FrostVista.Kernel.Slab
