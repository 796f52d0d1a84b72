import FrostVista.Library.Chain
import FrostVista.Library.Run
import FrostVista.Machine.State

/-!
# The free list threaded through the free pages

`kalloc`, `kfree` and `refcnt_inc` of `kernel/mm/kalloc.c` one level below `Machine`: the list runs
through the first word of every free page and ends at the variable `head`, the counts are 32-bit
integers found by the number of the page, and a free page keeps its last count. The system takes one
section under `mem_lock` at a time, so the calls of several CPUs interleave.
-/
namespace FrostVista.FreeList

open Lib Lib.Chain Function List

/-- Where RAM, the kernel and the list head lie, as kernel virtual addresses. -/
structure Layout where
  /-- `ARCH_DRAM_BASE_LOW` in the direct map -/
  dramBase : Nat
  /-- The lower end of `arch_is_ram_kva`. -/
  ramBase : Nat
  /-- `ARCH_PHYSTOP_HIGH` -/
  phystop : Nat
  /-- `_kernel_end` -/
  kernelEnd : Nat
  /-- `ekalloc_ptr` when `kalloc_init` runs -/
  ekallocPtr : Nat
  /-- `&head` -/
  head : Nat
  ram : dramBase ≤ ramBase ∧ ramBase ≤ kernelEnd
  kernel : head < kernelEnd ∧ kernelEnd ≤ ekallocPtr
  /-- With `ram`, what `freerange` checks of its two ends. -/
  top : ekallocPtr ≤ phystop
  aligned : ekallocPtr % 4096 = 0

/-- The variables of `kalloc.c` and the words of the pages. -/
structure Pool where
  word : Nat → Nat → Nat
  /-- `head.next` -/
  next : Nat
  /-- `FMM.size` -/
  size : Int
  refcnt : Nat → Int

variable (L : Layout)

/-- The pages `kalloc_init` finds. -/
structure Layout.Page (p : Nat) : Prop where
  aligned : p % 4096 = 0
  low : L.ekallocPtr ≤ p
  high : p + 4096 ≤ L.phystop

def Layout.isRamKva (va : Nat) : Bool := L.ramBase ≤ va ∧ va ≤ L.phystop

/-- The index of a page in `refcnt`. -/
def Layout.refnum (va : Nat) : Nat := (va - L.dramBase) / 4096

def Pool.count (s : Pool) (p : Nat) : Int := s.refcnt (L.refnum p)

def Pool.setCount (s : Pool) (p : Nat) (n : Int) : Pool :=
  { s with refcnt := update s.refcnt (L.refnum p) n }

/-- `memset(p, 0, ARCH_PGSIZE)` -/
def Pool.clear (s : Pool) (p : Nat) : Pool := { s with word := update s.word p fun _ => 0 }

def Pool.store (s : Pool) (p i w : Nat) : Pool :=
  { s with word := update s.word p (update (s.word p) i w) }

/-- `n++` on an `int` -/
def increment (n : Int) : Int := if n = 2147483647 then -2147483648 else n + 1

def refcntInc (va : Nat) (s : Pool) : Except Panic Pool :=
  if s.count L va ≤ 0 then .error .refcntInc
  else .ok (s.setCount L va (increment (s.count L va)))

/-- `kfree` up to the end of its first section: was the reference one of several? -/
def kfreeCount (va : Nat) (s : Pool) : Except Panic (Bool × Pool) :=
  if !L.isRamKva va then .error .kfreeLow
  else if va % 4096 ≠ 0 ∨ L.phystop < va ∨ va < L.kernelEnd then .error .kfree
  else if 1 < s.count L va then .ok (true, s.setCount L va (s.count L va - 1))
  else .ok (false, s)

/-- The rest of `kfree`, for the last reference. -/
def Pool.push (s : Pool) (kva : Nat) : Pool :=
  let s := (s.clear kva).store kva 0 s.next
  { s with next := kva, size := s.size + 1 }

def kfree (va : Nat) (s : Pool) : Except Panic Pool := do
  let (shared, s) ← kfreeCount L va s
  pure (if shared then s else s.push va)

/-- The section of `kalloc`. Its caller then clears the page and returns it. -/
def Pool.take (s : Pool) : Option (Nat × Pool) :=
  if s.next = L.head then none
  else
    let temp := s.next
    some (temp, { s.setCount L temp 1 with next := s.word temp 0, size := s.size - 1 })

/-- The addresses `ps` of the loop of `freerange`. -/
def Layout.pages : List Nat :=
  (range ((L.phystop - L.ekallocPtr) / 4096)).map fun k => L.ekallocPtr + 4096 * k

def kallocInit (word : Nat → Nat → Nat) : Except Panic Pool :=
  L.pages.foldlM (fun s p => kfree L p s) ⟨word, L.head, 0, fun _ => 0⟩

/-! ## The system -/

/-- The calls that are between their section and their end. -/
inductive Busy where
  | no
  | kalloc
  | kfree
  deriving DecidableEq

structure Sys where
  pool : Pool
  /-- How often the callers hold a page. -/
  refs : Nat → Nat
  busy : Nat → Busy

inductive Act where
  | take (p : Nat)
  /-- The call returns a page, or 0. -/
  | kalloc (r : Option Nat)
  | refcntInc (p : Nat)
  | kfree (p : Nat)
  | push (p : Nat)
  | write (p i w : Nat)

def Sys.set (s : Sys) (pool : Pool) (p n : Nat) (b : Busy) : Sys :=
  ⟨pool, update s.refs p n, update s.busy p b⟩

/-- The callers write to, share and free only pages that they hold. -/
inductive Step : Sys → Act → Sys → Prop where
  | full : s.pool.take L = none → Step s (.kalloc none) s
  | take : s.pool.take L = some (p, q) → Step s (.take p) (s.set q p (s.refs p) .kalloc)
  | kalloc : s.busy p = .kalloc →
      Step s (.kalloc (some p)) (s.set (s.pool.clear p) p (s.refs p + 1) .no)
  | refcntInc : 0 < s.refs p → refcntInc L p s.pool = .ok q →
      Step s (.refcntInc p) (s.set q p (s.refs p + 1) (s.busy p))
  | kfree : 0 < s.refs p → kfreeCount L p s.pool = .ok (shared, q) →
      Step s (.kfree p) (s.set q p (s.refs p - 1) (if shared then s.busy p else .kfree))
  | push : s.busy p = .kfree → Step s (.push p) (s.set (s.pool.push p) p (s.refs p) .no)
  | write : 0 < s.refs p →
      Step s (.write p i w) (s.set (s.pool.store p i w) p (s.refs p) (s.busy p))

def start (pool : Pool) : Sys := ⟨pool, fun _ => 0, fun _ => .no⟩

/-- A page that callers hold, or that a call is about to hand over or to free. -/
def Sys.InUse (s : Sys) (p : Nat) : Prop := 0 < s.refs p ∨ s.busy p ≠ .no

/-- The pages that the pointers run through from `head.next` to `head`. -/
structure Pool.Lists (s : Pool) (free : List Nat) : Prop where
  threaded : Threaded (fun p => s.word p 0) L.head s.next free
  nodup : free.Nodup
  size : s.size = free.length

/-- What the list and the count of a page say about its callers. -/
structure Tracks (s : Sys) (free : List Nat) (p : Nat) : Prop where
  mem : p ∈ free ↔ L.Page p ∧ ¬s.InUse p
  page : s.InUse p → L.Page p
  held : 0 < s.refs p → s.busy p = .no ∧ s.pool.count L p = s.refs p
  taken : s.busy p = .kalloc → s.pool.count L p = 1

structure Inv (s : Sys) (free : List Nat) : Prop where
  lists : s.pool.Lists L free
  tracks : ∀ p, Tracks L s free p

variable {L}

lemma Layout.Page.refnum_inj (hp : L.Page p) (hq : L.Page q) (h : L.refnum p = L.refnum q) :
    p = q := by
  have := L.ram
  have := L.kernel
  have := hp.low
  have := hq.low
  have := hp.aligned
  have := hq.aligned
  unfold Layout.refnum at h
  omega

lemma Pool.count_setCount (hp : L.Page p) (hq : L.Page q) (s : Pool) (n : Int) :
    (s.setCount L p n).count L q = if q = p then n else s.count L q := by
  have := hp.refnum_inj hq
  simp only [count, setCount, update_apply]
  grind

@[grind =] lemma Sys.set_pool (s : Sys) : (s.set q p n b).pool = q := rfl

@[grind =] lemma Sys.set_refs (s : Sys) (x : Nat) :
    (s.set q p n b).refs x = if x = p then n else s.refs x := update_apply ..

@[grind =] lemma Sys.set_busy (s : Sys) (x : Nat) :
    (s.set q p n b).busy x = if x = p then b else s.busy x := update_apply ..

lemma Layout.Page.head_lt (h : L.Page p) : L.head < p := by
  have := L.kernel
  have := h.low
  omega

/-! ## The list -/

/-- The two pools differ at most in the words and the count of `p`. -/
structure Pool.Near (L : Layout) (s q : Pool) (p : Nat) : Prop where
  next : q.next = s.next
  size : q.size = s.size
  word : ∀ x, x ≠ p → q.word x = s.word x
  count : ∀ x, L.Page x → x ≠ p → q.count L x = s.count L x

lemma Pool.near_setCount (s : Pool) (hp : L.Page p) (n : Int) : s.Near L (s.setCount L p n) p :=
  ⟨rfl, rfl, fun _ _ => rfl, fun x hx hne => by rw [count_setCount hp hx, if_neg hne]⟩

lemma Pool.near_clear (s : Pool) (p : Nat) : s.Near L (s.clear p) p :=
  ⟨rfl, rfl, fun _ hx => update_of_ne hx .., fun _ _ _ => rfl⟩

lemma Pool.near_store (s : Pool) (p i w : Nat) : s.Near L (s.store p i w) p :=
  ⟨rfl, rfl, fun _ hx => update_of_ne hx .., fun _ _ _ => rfl⟩

lemma Pool.Lists.near {s q : Pool} (h : s.Lists L free) (hn : s.Near L q p) (hp : p ∉ free) :
    q.Lists L free := by
  refine ⟨?_, h.nodup, hn.size.trans h.size⟩
  rw [hn.next]
  refine h.threaded.congr fun x hx => congrFun (hn.word x ?_) 0
  rintro rfl
  exact hp hx

lemma Pool.threaded_push {s : Pool} (hp : p ∉ free) :
    Threaded (fun x => (s.push p).word x 0) stop ((s.push p).word p 0) free ↔
      Threaded (fun x => s.word x 0) stop s.next free := by
  have hword : (s.push p).word p 0 = s.next := by simp [Pool.push, store]
  have hrest : ∀ x ∈ free, (s.push p).word x 0 = s.word x 0 := by
    intro x hx
    have hne : x ≠ p := fun he => hp (he ▸ hx)
    simp [Pool.push, store, clear, hne]
  rw [hword]
  exact ⟨fun h => h.congr fun x hx => (hrest x hx).symm, fun h => h.congr hrest⟩

lemma Pool.Lists.push {s : Pool} (h : s.Lists L free) (hp : p ∉ free) :
    (s.push p).Lists L (p :: free) := by
  refine ⟨⟨rfl, (threaded_push hp).mpr h.threaded⟩, nodup_cons.mpr ⟨hp, h.nodup⟩, ?_⟩
  simp [Pool.push, store, clear, h.size]

lemma Pool.Lists.take {s : Pool} (h : s.Lists L free) (ht : s.take L = some (p, q)) :
    ∃ rest, free = p :: rest ∧ q.Lists L rest ∧ q.refcnt = (s.setCount L p 1).refcnt := by
  unfold Pool.take at ht
  split at ht
  · cases ht
  · rename_i hne
    cases ht
    cases free with
    | nil => exact absurd h.threaded hne
    | cons x rest =>
      obtain ⟨hx, hrest⟩ := h.threaded
      have hsize := h.size
      simp only [length_cons, Nat.cast_add, Nat.cast_one] at hsize
      refine ⟨rest, by rw [hx], ⟨?_, (nodup_cons.mp h.nodup).2, ?_⟩, rfl⟩
      · rwa [hx]
      · simp only [hsize]
        omega

/-! ## The invariant -/

lemma Inv.take (h : Inv L s free) (ht : s.pool.take L = some (p, q)) :
    ∃ rest, Inv L (s.set q p (s.refs p) .kalloc) rest := by
  obtain ⟨rest, rfl, hq, hcnt⟩ := h.lists.take ht
  have hp := (h.tracks p).mem.mp mem_cons_self
  have hnd := nodup_cons.mp h.lists.nodup
  refine ⟨rest, hq, fun x => ?_⟩
  have hcount : L.Page x → q.count L x = if x = p then 1 else s.pool.count L x := by
    intro hx
    rw [← Pool.count_setCount hp.1 hx, Pool.count, hcnt]
    rfl
  obtain ⟨hmem, hpage, hheld, htaken⟩ := h.tracks x
  constructor <;> grind [Sys.InUse]

/-- A step that changes one page and leaves it in use. -/
lemma Inv.near {n : Nat} (h : Inv L s free) (hp : s.InUse p) (hn : s.pool.Near L q p)
    (huse : 0 < n ∨ b ≠ .no) (hheld : 0 < n → b = .no ∧ q.count L p = n)
    (htaken : b = .kalloc → q.count L p = 1) : Inv L (s.set q p n b) free := by
  have hfree : p ∉ free := fun hm => ((h.tracks p).mem.mp hm).2 hp
  refine ⟨h.lists.near hn hfree, fun x => ?_⟩
  obtain ⟨hmem, hpage, hheld', htaken'⟩ := h.tracks x
  have hcount := hn.count x
  constructor <;> grind [Sys.InUse]

lemma Inv.push (h : Inv L s free) (hp : s.busy p = .kfree) :
    Inv L (s.set (s.pool.push p) p (s.refs p) .no) (p :: free) := by
  have huse : s.InUse p := .inr (by simp [hp])
  have hpage := (h.tracks p).page huse
  have hfree : p ∉ free := fun hm => ((h.tracks p).mem.mp hm).2 huse
  have hidle := (h.tracks p).held
  refine ⟨h.lists.push hfree, fun x => ?_⟩
  obtain ⟨hmem, hpage', hheld, htaken⟩ := h.tracks x
  have hcount : (s.pool.push p).count L x = s.pool.count L x := rfl
  constructor <;> grind [Sys.InUse]

lemma kfreeCount_eq (hp : L.Page p) (s : Pool) : kfreeCount L p s =
    .ok (if 1 < s.count L p then (true, s.setCount L p (s.count L p - 1)) else (false, s)) := by
  have := L.ram
  have := L.kernel
  have := hp.low
  have := hp.high
  have hram : L.isRamKva p = true := by
    simp only [Layout.isRamKva, decide_eq_true_eq]
    omega
  have hok : ¬(p % 4096 ≠ 0 ∨ L.phystop < p ∨ p < L.kernelEnd) := by
    have := hp.aligned
    omega
  simp only [kfreeCount, hram, hok, Bool.not_true, Bool.false_eq_true, if_false]
  split <;> rfl

/-- No caller takes a reference beyond the largest `int`. -/
def Sys.Bounded (s : Sys) (a : Act) : Prop := ∀ p, a = .refcntInc p → s.refs p < 2147483647

lemma Inv.step (h : Inv L s free) (hb : s.Bounded a) (hs : Step L s a t) :
    ∃ free', Inv L t free' := by
  cases hs with
  | full ht => exact ⟨free, h⟩
  | take ht => exact h.take ht
  | @kalloc _ p hp =>
    have hidle := (h.tracks p).held
    have hcount : (s.pool.clear p).count L p = 1 := (h.tracks p).taken hp
    refine ⟨free, h.near (.inr (by simp [hp])) (s.pool.near_clear p) ?_ ?_ ?_⟩ <;> grind
  | @refcntInc p q _ hp hq =>
    have hpage := (h.tracks p).page (.inl hp)
    obtain ⟨hno, hcount⟩ := (h.tracks p).held hp
    have := hb p rfl
    simp only [FreeList.refcntInc] at hq
    split at hq
    · cases hq
    · cases hq
      refine ⟨free, h.near (.inl hp) (s.pool.near_setCount hpage _) ?_ ?_ ?_⟩ <;>
        grind [Pool.count_setCount hpage hpage, increment]
  | @kfree p shared q _ hp hq =>
    have hpage := (h.tracks p).page (.inl hp)
    obtain ⟨hno, hcount⟩ := (h.tracks p).held hp
    rw [kfreeCount_eq hpage] at hq
    by_cases hone : 1 < s.pool.count L p
    · rw [if_pos hone] at hq
      cases hq
      refine ⟨free, h.near (.inl hp) (s.pool.near_setCount hpage _) ?_ ?_ ?_⟩ <;>
        grind [Pool.count_setCount hpage hpage]
    · rw [if_neg hone] at hq
      cases hq
      refine ⟨free, h.near (.inl hp) ⟨rfl, rfl, fun _ _ => rfl, fun _ _ _ => rfl⟩ ?_ ?_ ?_⟩
        <;> grind
  | push hp => exact ⟨_, h.push hp⟩
  | @write _ p i w hp =>
    obtain ⟨hno, hcount⟩ := (h.tracks p).held hp
    have hstore : (s.pool.store p i w).count L p = s.pool.count L p := rfl
    refine ⟨free, h.near (.inl hp) (s.pool.near_store p i w) ?_ ?_ ?_⟩ <;> grind

/-! ## Initialization -/

lemma Layout.mem_pages : p ∈ L.pages ↔ L.Page p := by
  have := L.aligned
  simp only [Layout.pages, mem_map, mem_range]
  constructor
  · rintro ⟨k, hk, rfl⟩
    constructor <;> omega
  · rintro ⟨h1, h2, h3⟩
    exact ⟨(p - L.ekallocPtr) / 4096, by omega, by omega⟩

lemma Layout.nodup_pages (L : Layout) : L.pages.Nodup :=
  nodup_range.map fun i j (h : L.ekallocPtr + 4096 * i = _ + 4096 * j) => by omega

/-- The pages that `freerange` has still to pass count as pages inside `kfree`. -/
def freeing (pool : Pool) (ps : List Nat) : Sys :=
  ⟨pool, fun _ => 0, fun p => if p ∈ ps then .kfree else .no⟩

lemma Inv.freerange (h : Inv L (freeing pool ps) free) (hz : pool.refcnt = fun _ => 0)
    (hnd : ps.Nodup) :
    ∃ pool', ps.foldlM (fun s p => kfree L p s) pool = .ok pool' ∧
      ∃ free', Inv L (start pool') free' := by
  induction ps generalizing pool free with
  | nil => exact ⟨pool, rfl, free, by simpa [freeing, start] using h⟩
  | cons p ps ih =>
    obtain ⟨hp, hnd⟩ := nodup_cons.mp hnd
    have hbusy : (freeing pool (p :: ps)).busy p = .kfree := by simp [freeing]
    have hpage := (h.tracks p).page (.inr (by simp [hbusy]))
    have hfree : kfree L p pool = .ok (pool.push p) := by
      simp [kfree, kfreeCount_eq hpage, Pool.count, hz]
    have hset : (freeing pool (p :: ps)).set (pool.push p) p 0 .no = freeing (pool.push p) ps := by
      simp only [Sys.set, freeing, Sys.mk.injEq, true_and]
      constructor <;> funext x <;> grind [update_apply]
    rw [foldlM_cons, hfree]
    exact ih (hset ▸ h.push hbusy) hz hnd

lemma kallocInit_inv (L : Layout) (word : Nat → Nat → Nat) :
    ∃ pool, kallocInit L word = .ok pool ∧ ∃ free, Inv L (start pool) free := by
  have h : Inv L (freeing ⟨word, L.head, 0, fun _ => 0⟩ L.pages) [] := by
    refine ⟨⟨rfl, nodup_nil, rfl⟩, fun p => ?_⟩
    constructor <;> simp only [freeing, Sys.InUse] <;> grind [Layout.mem_pages]
  exact h.freerange rfl L.nodup_pages

/-! ## What callers see -/

structure Sound (L : Layout) (s : Sys) : Prop where
  list : ∃ free, s.pool.Lists L free ∧ L.head ∉ free ∧ ∀ p, p ∈ free ↔ L.Page p ∧ ¬s.InUse p
  full : ∀ t, Step L s (.kalloc none) t → ∀ p, L.Page p → s.InUse p
  fresh : ∀ p t, Step L s (.kalloc (some p)) t → L.Page p ∧ s.refs p = 0 ∧ t.refs p = 1 ∧
    t.pool.count L p = 1 ∧ ∀ i, t.pool.word p i = 0
  shared : ∀ p, 0 < s.refs p → ∃ q, refcntInc L p s.pool = .ok q
  /-- `kfree` goes on to free the page exactly when it drops the last reference. -/
  last : ∀ p, 0 < s.refs p → ∃ q, kfreeCount L p s.pool = .ok (decide (1 < s.refs p), q)

lemma Inv.sound (h : Inv L s free) : Sound L s where
  list := by
    refine ⟨free, h.lists, fun hm => ?_, fun p => (h.tracks p).mem⟩
    have := ((h.tracks _).mem.mp hm).1.head_lt
    omega
  full t ht p hp := by
    cases ht with
    | full ht =>
      have hnext : s.pool.next = L.head := by
        by_contra hne
        simp [Pool.take, hne] at ht
      have hmem := (h.tracks p).mem
      have hthread := h.lists.threaded
      cases free with
      | nil => grind
      | cons x xs =>
        have := ((h.tracks x).mem.mp mem_cons_self).1.head_lt
        have := hthread.1
        omega
  fresh p t ht := by
    cases ht with
    | kalloc hp =>
      have hrefs : s.refs p = 0 := by
        have := (h.tracks p).held
        grind
      refine ⟨(h.tracks p).page (.inr (by simp [hp])),
        hrefs, by grind, (h.tracks p).taken hp, fun i => ?_⟩
      simp [Sys.set, Pool.clear]
  shared p hp := by
    have hcount := ((h.tracks p).held hp).2
    exact ⟨_, if_neg (by omega)⟩
  last p hp := by
    have hcount := ((h.tracks p).held hp).2
    rw [kfreeCount_eq ((h.tracks p).page (.inl hp)), hcount]
    by_cases hone : 1 < s.refs p <;> simp [hone]

/-- **The page allocator**: in every run from `kalloc_init` whose callers never share a page beyond
the largest `int`, the list is sound and every call does what its caller expects. -/
theorem allocator_sound (L : Layout) (word : Nat → Nat → Nat) :
    ∃ pool, kallocInit L word = .ok pool ∧ ∀ acts s,
      Run (fun s a t => s.Bounded a ∧ Step L s a t) (start pool) acts s → Sound L s := by
  obtain ⟨pool, hinit, hinv⟩ := kallocInit_inv L word
  refine ⟨pool, hinit, fun acts s hrun => ?_⟩
  obtain ⟨free, h⟩ := hrun.invariant (fun s => ∃ free, Inv L s free)
    (fun _ _ _ ⟨_, h⟩ ⟨hb, hs⟩ => h.step hb hs) hinv
  exact h.sound

lemma run_refcntInc (n : Nat) (hp : 0 < s.refs p) (hc : s.pool.count L p = s.refs p)
    (hn : s.refs p + n ≤ 2147483647) : ∃ t acts, Run (Step L) s acts t ∧
      t.refs p = s.refs p + n ∧ t.pool.count L p = t.refs p := by
  induction n generalizing s with
  | zero => exact ⟨s, [], .nil s, rfl, hc⟩
  | succ n ih =>
    have hinc : refcntInc L p s.pool = .ok (s.pool.setCount L p (s.refs p + 1)) := by
      simp only [refcntInc, hc, increment]
      grind
    obtain ⟨t, acts, hrun, hrefs, hcount⟩ := ih
      (s := s.set (s.pool.setCount L p (s.refs p + 1)) p (s.refs p + 1) (s.busy p))
      (by grind) (by simp [Sys.set, Pool.setCount, Pool.count]) (by grind)
    exact ⟨t, _, .cons (.refcntInc hp hinc) hrun, by grind, hcount⟩

/-- RAM with a single page for the allocator. -/
def single : Layout := ⟨0, 0, 8192, 4096, 4096, 8, by decide, by decide, by decide, rfl⟩

/-- The count of a page wraps at its 2147483648th reference. The next `kfree` takes that for the
last one, and the page is free while callers hold it. -/
theorem held_page_free : ∃ pool acts s, kallocInit single (fun _ _ => 0) = .ok pool ∧
    Run (Step single) (start pool) acts s ∧ s.refs 4096 = 2147483647 ∧ s.pool.next = 4096 := by
  have hpage : single.Page 4096 := ⟨rfl, le_rfl, le_rfl⟩
  obtain ⟨pool, acts, s, hinit, hrun, hrefs, hcount⟩ : ∃ pool acts s,
      kallocInit single (fun _ _ => 0) = .ok pool ∧ Run (Step single) (start pool) acts s ∧
        s.refs 4096 = 1 ∧ s.pool.count single 4096 = 1 :=
    ⟨_, _, _, rfl, .cons (.take rfl) (.cons (.kalloc (p := 4096) rfl) (.nil _)), rfl, rfl⟩
  obtain ⟨t, acts', hrun', hrefs', hcount'⟩ := run_refcntInc (L := single) (p := 4096) (s := s)
    2147483646 (by omega) (by rw [hcount, hrefs]; rfl) (by omega)
  rw [hrefs] at hrefs'
  have hinc : refcntInc single 4096 t.pool = .ok (t.pool.setCount single 4096 (-2147483648)) := by
    simp [refcntInc, hcount', hrefs', increment]
  have hlast := kfreeCount_eq hpage (t.pool.setCount single 4096 (-2147483648))
  rw [Pool.count_setCount hpage hpage, if_pos rfl, if_neg (by decide)] at hlast
  refine ⟨pool, _, _, hinit, (hrun.append hrun').append (.cons (.refcntInc (by omega) hinc)
    (.cons (.kfree (by grind) hlast)
      (.cons (.push (p := 4096) (by grind)) (.nil _)))), by grind, rfl⟩

/-! ## Addresses that no caller holds -/

variable (L : Layout)

/-- A page between the end of the kernel image and the end of RAM. -/
structure Layout.Owns (va : Nat) : Prop where
  aligned : va % 4096 = 0
  low : L.kernelEnd ≤ va
  high : va + 4096 ≤ L.phystop

/-- The length of `refcnt`, `ARCH_DRAM_SIZE / ARCH_PGSIZE`. -/
def Layout.entries : Nat := (L.phystop - L.dramBase) / 4096

/-- The list has no page twice and none outside RAM. -/
structure Pool.Sane (s : Pool) (free : List Nat) : Prop where
  lists : s.Lists L free
  owns : ∀ p ∈ free, L.Owns p

/-- The page ends inside RAM and is not free. -/
def Fair (free : List Nat) (va : Nat) : Prop := va + 4096 ≤ L.phystop ∧ va ∉ free

inductive Call where
  | kfree (va : Nat)
  | kalloc

def Call.run : Call → Pool → Except Panic Pool
  | .kfree va, s => FreeList.kfree L va s
  | .kalloc, s => .ok ((s.take L).elim s fun (p, s) => s.clear p)

variable {L}

lemma Layout.Owns.ne_head (h : L.Owns p) : p ≠ L.head := by
  have := L.kernel
  have := h.low
  omega

lemma kfree_cases (h : kfree L va s = .ok t) : va % 4096 = 0 ∧ L.kernelEnd ≤ va ∧
    t = if 1 < s.count L va then s.setCount L va (s.count L va - 1) else s.push va := by
  unfold kfree kfreeCount at h
  split_ifs at h with h1 h2 h3 <;> cases h
  · exact ⟨by omega, by omega, (if_pos h3).symm⟩
  · exact ⟨by omega, by omega, (if_neg h3).symm⟩

lemma Pool.Sane.kfree_iff {s : Pool} (h : s.Sane L free) (hk : kfree L va s = .ok t) :
    (∃ free', t.Sane L free') ↔ 1 < s.count L va ∨ Fair L free va := by
  obtain ⟨halign, hlow, rfl⟩ := kfree_cases hk
  by_cases hc : 1 < s.count L va
  · rw [if_pos hc]
    exact iff_of_true ⟨free, ⟨h.lists.threaded, h.lists.nodup, h.lists.size⟩, h.owns⟩ (.inl hc)
  · rw [if_neg hc, or_iff_right hc]
    constructor
    · rintro ⟨free', ⟨hthread, hnd, -⟩, howns⟩
      cases free' with
      | nil =>
        have := L.kernel
        have : va = L.head := hthread
        omega
      | cons p rest =>
        obtain ⟨hp, hrest⟩ := hthread
        obtain rfl : va = p := hp
        obtain ⟨hva, hnd⟩ := nodup_cons.mp hnd
        refine ⟨(howns va mem_cons_self).high, fun hm => hva ?_⟩
        have hold := (threaded_push hva).mp hrest
        rwa [hold.unique h.lists.threaded (fun hm => (howns _ (mem_cons_of_mem _ hm)).ne_head rfl)
          fun hm => (h.owns _ hm).ne_head rfl]
    · rintro ⟨hhigh, hfree⟩
      refine ⟨va :: free, h.lists.push hfree, fun p hp => ?_⟩
      rcases mem_cons.mp hp with rfl | hp
      · exact ⟨halign, hlow, hhigh⟩
      · exact h.owns p hp

lemma Pool.Sane.step {s t : Pool} {c : Call} (h : s.Sane L free) (hr : c.run L s = .ok t)
    (hfair : ∀ va free, c = .kfree va → s.Lists L free → Fair L free va) :
    ∃ free', t.Sane L free' := by
  cases c with
  | kfree va => exact (h.kfree_iff hr).mpr (.inr (hfair va free rfl h.lists))
  | kalloc =>
    cases hr
    cases htake : s.take L with
    | none => exact ⟨free, h⟩
    | some r =>
      obtain ⟨p, q⟩ := r
      obtain ⟨rest, rfl, hq, -⟩ := h.lists.take htake
      obtain ⟨hp, -⟩ := nodup_cons.mp h.lists.nodup
      exact ⟨rest, hq.near (q.near_clear p) hp, fun x hx => h.owns x (mem_cons_of_mem p hx)⟩

lemma sane_kallocInit (h : kallocInit L word = .ok pool) : ∃ free, pool.Sane L free := by
  obtain ⟨_, hinit, free, hinv⟩ := kallocInit_inv L word
  cases hinit.symm.trans h
  refine ⟨free, hinv.lists, fun p hp => ?_⟩
  have hpage := ((hinv.tracks p).mem.mp hp).1
  exact ⟨hpage.aligned, L.kernel.2.trans hpage.low, hpage.high⟩

/-- An address that `kfree` accepts is a page of the allocator that is not free exactly if it ends
inside RAM and is not on the list. The checks let the end of RAM and free pages pass too, and these
break the list; in runs without them it stays sound. -/
theorem kfree_admits_iff (L : Layout) :
    (∀ s free va t, Pool.Sane L s free → kfree L va s = .ok t →
      (L.refnum va < L.entries ∧ L.Owns va ∧ va ∉ free ↔ Fair L free va) ∧
        ((∃ free', t.Sane L free') ↔ 1 < s.count L va ∨ Fair L free va)) ∧
    ∀ word pool calls s, kallocInit L word = .ok pool →
      Run (fun s c t => Call.run L c s = .ok t ∧
        ∀ va free, c = .kfree va → s.Lists L free → Fair L free va) pool calls s →
      ∃ free, s.Sane L free := by
  refine ⟨fun s free va t h hk => ⟨?_, h.kfree_iff hk⟩, fun word pool calls s hinit hrun => ?_⟩
  · obtain ⟨halign, hlow, -⟩ := kfree_cases hk
    refine ⟨fun ⟨_, howns, hfree⟩ => ⟨howns.high, hfree⟩, fun ⟨hhigh, hfree⟩ =>
      ⟨?_, ⟨halign, hlow, hhigh⟩, hfree⟩⟩
    have := L.ram
    unfold Layout.refnum Layout.entries
    omega
  · exact hrun.invariant (fun s => ∃ free, s.Sane L free)
      (fun _ _ _ ⟨_, h⟩ ⟨hr, hfair⟩ => h.step hr hfair) (sane_kallocInit hinit)

/-- A page that is free already is accepted, and the list then leads from it to itself; so is the
end of RAM, with an index past the end of `refcnt`. -/
theorem kfree_free_page : ∃ pool, kallocInit single (fun _ _ => 0) = .ok pool ∧ pool.next = 4096 ∧
    (∃ t, kfree single 4096 pool = .ok t ∧ t.next = 4096 ∧ t.word 4096 0 = 4096) ∧
    (∃ t, kfree single 8192 pool = .ok t ∧ t.next = 8192) ∧ single.entries ≤ single.refnum 8192 :=
  ⟨_, rfl, rfl, ⟨_, rfl, rfl, rfl⟩, ⟨_, rfl, rfl⟩, by decide⟩

end FrostVista.FreeList
