import FrostVista.Tmpfs.Contents
import FrostVista.Tmpfs.Pool
import FrostVista.Tmpfs.Store

/-!
# tmpfs: who owns a page

A page is on the free list, in one file, or the private data of one slot of the inode cache. The
lemmas say how pages change hands. A file whose pages stay where they are keeps its contents.
-/
namespace FrostVista.Tmpfs

open Lib Lib.BlockTree Function Store

inductive Owner where
  | free
  | node (a : Nat)
  | slot (i : SlotId)

def Store.owns (s : Store) (p : Nat) : Owner → Prop
  | .free => p ∈ s.free
  | .node a => ∃ n, s.node a = some n ∧ p ∈ pages (s.file n)
  | .slot i => (s.slot i).data = .page p

/-- No page has two owners, and the page tree of every file is sound. -/
structure Heap (s : Store) : Prop where
  unique : ∀ p o o', s.owns p o → s.owns p o' → o = o'
  owned : ∀ a n, s.node a = some n → Owned (s.file n)
  nodup : s.free.Nodup
  bound : ∀ p o, s.owns p o → 0 < p ∧ p < 2 ^ 64

/-- The pages that the files, the cache and the free list have. -/
def Store.pool (s : Store) (p : Nat) : Prop := ∃ o, s.owns p o

variable {s s' : Store} {a p : Nat} {n : Inode} {m' : Mem} {i : SlotId}

/-- The file at address `b` has not changed. -/
def Untouched (s s' : Store) (b : Nat) : Prop :=
  ∀ k, s.node b = some k → ∃ k', s'.node b = some k' ∧ Undisturbed (s.file k) (s'.file k')

lemma Undisturbed.pages (h : Undisturbed m m') : pages m' = Tmpfs.pages m := by
  ext p
  exact exists_congr fun path => and_congr_right fun hp => by rw [h.nodeAt hp]

lemma Undisturbed.trans (h : Undisturbed m m1) (h' : Undisturbed m1 m2) :
    Undisturbed m m2 where
  blocks := h'.blocks.trans h.blocks
  size := h'.size.trans h.size
  page path hp p hd := by
    have hnext := h'.page path hp p ((h.nodeAt hp).trans hd)
    exact ⟨hnext.1.trans (h.page path hp p hd).1, hnext.2⟩
  nodup := h'.nodup
  bound := h'.bound

lemma Owned.undisturbed (h : Owned m) : Undisturbed m m where
  blocks := rfl
  size := rfl
  page path hp p hd := ⟨rfl, (h.page path hp p hd).1⟩
  nodup := h.nodup
  bound := h.bound

lemma Untouched.owns (h : Untouched s s' b) (hnone : s.node b = none → s'.node b = none) :
    s'.owns p (.node b) ↔ s.owns p (.node b) := by
  cases hk : s.node b with
  | none => simp [Store.owns, hk, hnone hk]
  | some k =>
    obtain ⟨k', hk', hsame⟩ := h k hk
    simp only [Store.owns, hk, hk', Option.some.injEq, exists_eq_left', hsame.pages]

lemma pages_eq_empty (h : ∀ i < ndirect + 2, m.blocks i = 0) : p ∉ pages m := by
  rintro ⟨path, hp, hd⟩
  match path with
  | [] => cases hd
  | i :: rest =>
    have hi : i < ndirect + 2 := (levels ndirect nindirect).head hp
    have hnone : nodeAt m ([i] ++ rest) = none := by
      refine nodeAt_below ?_
      rw [nodeAt_single, Mem.entry, h i hi, follow_zero]
    rw [List.singleton_append, hd] at hnone
    cases hnone

lemma undisturbed_file (hn : s.node a = some n)
    (hpage : ∀ p, s.owns p (.node a) → s'.page p = s.page p ∧ p ∉ s'.free) (hnodup : s'.free.Nodup)
    (hbound : ∀ p ∈ s'.free, 0 < p ∧ p < 2 ^ 64) : Undisturbed (s.file n) (s'.file n) where
  blocks := rfl
  size := rfl
  page path hp p hd := hpage p ⟨n, hn, path, hp, hd⟩
  nodup := hnodup
  bound := hbound

lemma untouched_of_page (hnode : s'.node = s.node)
    (hpage : ∀ p a, s.owns p (.node a) → s'.page p = s.page p ∧ p ∉ s'.free)
    (hnodup : s'.free.Nodup)
    (hbound : ∀ p ∈ s'.free, 0 < p ∧ p < 2 ^ 64) (b : Nat) : Untouched s s' b := by
  intro k hk
  exact ⟨k, hnode ▸ hk, undisturbed_file hk (fun p hp => hpage p b hp) hnodup hbound⟩

lemma pages_file (hpage : s'.page = s.page) (hblocks : n'.blocks = n.blocks) :
    pages (s'.file n') = pages (s.file n) := by
  have hnode : ∀ path, nodeAt (s'.file n') path = nodeAt (s.file n) path := by
    intro path
    have hentry : (s'.file n').entry = (s.file n).entry := by
      funext q i
      cases q <;> simp only [Mem.entry, file, hpage, hblocks]
    unfold nodeAt
    rw [hentry]
  unfold pages
  simp only [hnode]

lemma pool_mono (hpage : s'.page = s.page) (hfree : s'.free = s.free)
    (hnode : ∀ a n, s.node a = some n → (∀ p, p ∉ pages (s.file n)) ∨
      ∃ n', s'.node a = some n' ∧ n'.blocks = n.blocks)
    (hslot : ∀ i, (s.slot i).data = .page p → (s'.slot i).data = .page p) :
    s.pool p → s'.pool p := by
  rintro ⟨o, ho⟩
  match o with
  | .free => exact ⟨.free, show p ∈ s'.free from hfree ▸ ho⟩
  | .slot i => exact ⟨.slot i, hslot i ho⟩
  | .node a =>
    obtain ⟨n, hn, hp⟩ := ho
    rcases hnode a n hn with hempty | ⟨n', hn', hblocks⟩
    · exact absurd hp (hempty p)
    · exact ⟨.node a, n', hn', by rwa [pages_file hpage hblocks]⟩

/-- Nothing has happened to the pages, and only inodes without pages come or go. -/
lemma pool_congr (hpage : s'.page = s.page) (hfree : s'.free = s.free)
    (hback : ∀ a n', s'.node a = some n' → (∀ p, p ∉ pages (s'.file n')) ∨
      ∃ n, s.node a = some n ∧ n'.blocks = n.blocks)
    (hforth : ∀ a n, s.node a = some n → (∀ p, p ∉ pages (s.file n)) ∨
      ∃ n', s'.node a = some n' ∧ n'.blocks = n.blocks)
    (hslot : ∀ i p, (s'.slot i).data = .page p ↔ (s.slot i).data = .page p) (p : Nat) :
    s'.pool p ↔ s.pool p := by
  refine ⟨pool_mono hpage.symm hfree.symm (fun a n' hn' => ?_) fun i => (hslot i p).mp,
    pool_mono hpage hfree hforth fun i => (hslot i p).mpr⟩
  exact (hback a n' hn').imp_right fun ⟨n, hn, hblocks⟩ => ⟨n, hn, hblocks.symm⟩

namespace Heap

section
variable (h : Heap s)
include h

lemma not_free (ho : s.owns p o) (hne : o ≠ .free) : p ∉ s.free := by
  intro hfree
  exact hne (h.unique p o .free ho hfree)

lemma owned_of_untouched (hfile : Untouched s s' a) (hn : s.node a = some n)
    (hn' : s'.node a = some n) : Owned (s'.file n) := by
  obtain ⟨k, hk, hsame⟩ := hfile n hn
  cases hn'.symm.trans hk
  exact hsame.owned (h.owned a n hn)

/-- Some owners exchange pages among themselves. -/
lemma exchange (C : Owner → Prop) (hsame : ∀ p o, ¬C o → (s'.owns p o ↔ s.owns p o))
    (hpool : ∀ p, (∃ o, C o ∧ s'.owns p o) ↔ ∃ o, C o ∧ s.owns p o)
    (hunique : ∀ p o o', C o → C o' → s'.owns p o → s'.owns p o' → o = o')
    (howned : ∀ a n, s'.node a = some n → Owned (s'.file n)) (hnodup : s'.free.Nodup) :
    Heap s' ∧ ∀ p, s'.pool p ↔ s.pool p := by
  have hback : ∀ p o, s'.owns p o → ∃ o', (C o' ↔ C o) ∧ (¬C o → o' = o) ∧ s.owns p o' := by
    intro p o ho
    by_cases hC : C o
    · obtain ⟨o', hC', ho'⟩ := (hpool p).mp ⟨o, hC, ho⟩
      exact ⟨o', by simp [hC, hC'], absurd hC, ho'⟩
    · exact ⟨o, Iff.rfl, fun _ => rfl, (hsame p o hC).mp ho⟩
  refine ⟨⟨fun p o o' ho ho' => ?_, howned, hnodup, fun p o ho => ?_⟩, fun p => ⟨?_, ?_⟩⟩
  · obtain ⟨o1, h1, heq, hs⟩ := hback p o ho
    obtain ⟨o2, h2, heq', hs'⟩ := hback p o' ho'
    cases h.unique p o1 o2 hs hs'
    by_cases hC : C o
    · exact hunique p o o' hC (h2.mp (h1.mpr hC)) ho ho'
    · exact (heq hC).symm.trans (heq' fun hC' => hC (h1.mp (h2.mpr hC')))
  · obtain ⟨o', -, -, ho'⟩ := hback p o ho
    exact h.bound p o' ho'
  · rintro ⟨o, ho⟩
    obtain ⟨o', -, -, ho'⟩ := hback p o ho
    exact ⟨o', ho'⟩
  · rintro ⟨o, ho⟩
    by_cases hC : C o
    · obtain ⟨o', -, ho'⟩ := (hpool p).mpr ⟨o, hC, ho⟩
      exact ⟨o', ho'⟩
    · exact ⟨o, (hsame p o hC).mpr ho⟩

lemma congr (hpage : s'.page = s.page) (hfree : s'.free = s.free)
    (hnode : ∀ a n', s'.node a = some n' → (∀ i < ndirect + 2, n'.blocks i = 0) ∨
      ∃ n, s.node a = some n ∧ n'.blocks = n.blocks)
    (hslot : ∀ i p, (s'.slot i).data = .page p → (s.slot i).data = .page p) : Heap s' := by
  have hfile : ∀ a n', s'.node a = some n' → Owned (s'.file n') ∧
      ∀ p ∈ pages (s'.file n'), s.owns p (.node a) := by
    intro a n' hn'
    rcases hnode a n' hn' with hzero | ⟨n, hn, hblocks⟩
    · have hempty : EmptyFile { s'.file n' with size := 0 } := by
        refine ⟨rfl, hzero, ?_, ?_⟩
        · simpa only [file, hfree] using h.nodup
        · intro p hp
          exact h.bound p .free (show p ∈ s.free from hfree ▸ hp)
      exact ⟨hempty.owned.withSize _, fun p hp => absurd hp (pages_eq_empty hzero)⟩
    · have hsame : s'.file n' = { s.file n with size := n'.size } := by
        simp only [file, hpage, hfree, hblocks]
      rw [hsame, pages_withSize]
      exact ⟨(h.owned a n hn).withSize _, fun p hp => ⟨n, hn, hp⟩⟩
  have howns : ∀ p o, s'.owns p o → s.owns p o := by
    intro p o ho
    match o with
    | .free => exact show p ∈ s.free from hfree ▸ ho
    | .node a =>
      obtain ⟨n', hn', hp⟩ := ho
      exact (hfile a n' hn').2 p hp
    | .slot i => exact hslot i p ho
  exact ⟨fun p o o' ho ho' => h.unique p o o' (howns p o ho) (howns p o' ho'),
    fun a n' hn' => (hfile a n' hn').1, hfree ▸ h.nodup, fun p o ho => h.bound p o (howns p o ho)⟩

section
variable (hn : s.node a = some n) (howned : Owned m') (hc : Conserves (s.file n) m')
include hn howned hc

lemma untouched_putFile (hb : b ≠ a) : Untouched s (s.putFile a n m') b := by
  intro k hk
  refine ⟨k, by simpa [putFile, update_of_ne hb] using hk, ?_⟩
  refine undisturbed_file hk (fun p hp => ?_) howned.nodup howned.bound
  have hfree : p ∉ s.free := h.not_free hp (by simp)
  have hpages : p ∉ pages (s.file n) := by
    intro hin
    have := h.unique p (.node b) (.node a) hp ⟨n, hn, hin⟩
    exact hb (by cases this; rfl)
  exact ⟨hc.outside p hfree hpages, fun hin => ((hc.pool p).mp (.inl hin)).elim hfree hpages⟩

lemma owns_putFile (p : Nat) (o : Owner) : (s.putFile a n m').owns p o ↔
      match o with
      | .free => p ∈ m'.free
      | .node b => if b = a then p ∈ pages m' else s.owns p (.node b)
      | .slot i => s.owns p (.slot i) := by
  match o with
  | .free => rfl
  | .slot i => rfl
  | .node b =>
    by_cases hb : b = a
    · subst hb
      simp [owns, putFile, file]
    · simp only [if_neg hb]
      exact (h.untouched_putFile hn howned hc hb).owns (by simp [Store.putFile, hb])

lemma putFile : Heap (s.putFile a n m') ∧ ∀ p, (s.putFile a n m').pool p ↔ s.pool p := by
  have howns := h.owns_putFile hn howned hc
  refine h.exchange (fun o => o = .free ∨ o = .node a) (fun p o ho => ?_)
    (fun p => ?_) ?_ ?_ howned.nodup
  · rw [howns]
    match o with
    | .free => exact absurd (.inl rfl) ho
    | .slot i => rfl
    | .node b =>
      have hb : b ≠ a := fun hb => ho (.inr (by rw [hb]))
      simp [hb]
  · simp only [or_and_right, exists_or, exists_eq_left, howns, if_true]
    simp only [owns, hn, Option.some.injEq, exists_eq_left']
    exact hc.pool p
  · have hnot : ∀ p ∈ m'.free, p ∉ pages m' := by
      rintro p hfree ⟨path, hp, hd⟩
      exact (howned.page path hp p hd).1 hfree
    rintro p o o' (rfl | rfl) (rfl | rfl) ho ho' <;> rw [howns] at ho ho'
    · exact absurd (by simpa using ho') (hnot p ho)
    · exact absurd (by simpa using ho) (hnot p ho')
  · intro b k hk
    by_cases hb : b = a
    · subst hb
      simp only [Store.putFile, update_self, Option.some.injEq] at hk
      subst hk
      exact howned
    · exact h.owned_of_untouched (h.untouched_putFile hn howned hc hb)
        (by simpa [Store.putFile, update_of_ne hb] using hk) hk

end

lemma transfer (o1 : Owner) (hnode : s'.node = s.node) (hp : s.owns p o0)
    (ho0 : ∀ a, o0 ≠ .node a) (ho1 : ∀ a, o1 ≠ .node a) (hpage : ∀ q, q ≠ p → s'.page q = s.page q)
    (howns : ∀ q o, (∀ a, o ≠ .node a) → (s'.owns q o ↔ if q = p then o = o1 else s.owns q o))
    (hnodup : s'.free.Nodup) : Heap s' ∧ (∀ q, s'.pool q ↔ s.pool q) ∧ ∀ b, Untouched s s' b := by
  have hfree : ∀ q, q ∈ s'.free → q = p ∨ q ∈ s.free := by
    intro q hq
    have hq' := (howns q .free (by simp)).mp hq
    by_cases hqp : q = p
    · exact .inl hqp
    · exact .inr (by rwa [if_neg hqp] at hq')
  have hfile : ∀ b, Untouched s s' b := by
    refine untouched_of_page hnode (fun q a hq => ?_) hnodup fun q hq => ?_
    · have hqp : q ≠ p := by
        rintro rfl
        exact ho0 a (h.unique q _ _ hp hq)
      exact ⟨hpage q hqp, fun hin => h.not_free hq (by simp) ((hfree q hin).resolve_left hqp)⟩
    · obtain rfl | hq := hfree q hq
      · exact h.bound q o0 hp
      · exact h.bound q .free hq
  refine and_assoc.mp ⟨h.exchange (fun o => ∀ a, o ≠ .node a) (fun q o ho => ?_) (fun q => ?_) ?_
    (fun b k hk => h.owned_of_untouched (hfile b) (hnode ▸ hk) hk) hnodup, hfile⟩
  · push Not at ho
    obtain ⟨b, rfl⟩ := ho
    exact (hfile b).owns (by simp [hnode])
  · by_cases hqp : q = p
    · subst hqp
      exact ⟨fun _ => ⟨o0, ho0, hp⟩, fun _ => ⟨o1, ho1, (howns q o1 ho1).mpr (by simp)⟩⟩
    · refine exists_congr fun o => and_congr_right fun ho => ?_
      rw [howns q o ho, if_neg hqp]
  · intro q o o' hC hC' ho ho'
    rw [howns q o hC] at ho
    rw [howns q o' hC'] at ho'
    split_ifs at ho ho'
    · exact ho.trans ho'.symm
    · exact h.unique q o o' ho ho'

lemma kfree_slot (hd : (s.slot i).data = .page p) (he : ∀ q, e.data ≠ .page q)
    (hs' : s' = { s.setSlot i e with page := update s.page p Bytes.zero, free := p :: s.free }) :
    Heap s' ∧ (∀ q, s'.pool q ↔ s.pool q) ∧ ∀ b, Untouched s s' b := by
  subst hs'
  have hp : s.owns p (.slot i) := hd
  refine h.transfer .free rfl hp (by simp) (by simp) (fun q hq => update_of_ne hq ..) ?_ ?_
  · intro q o hne
    match o with
    | .node a => exact absurd rfl (hne a)
    | .free =>
      by_cases hqp : q = p
      · simp [owns, hqp]
      · simp [owns, hqp]
    | .slot j =>
      by_cases hji : j = i
      · subst hji
        by_cases hqp : q = p
        · simp [owns, setSlot, he, hqp]
        · have : ¬(s.slot j).data = .page q := by
            rw [hd]
            simpa using Ne.symm hqp
          simp [owns, setSlot, he, hqp, this]
      · have hother : (s.slot j).data ≠ .page p := fun hj =>
          hji (by cases h.unique p (.slot j) (.slot i) hj hd; rfl)
        by_cases hqp : q = p
        · subst hqp
          simp [owns, setSlot, update_of_ne hji, hother]
        · simp [owns, setSlot, update_of_ne hji, hqp]
  · exact List.nodup_cons.mpr ⟨h.not_free hp (by simp), h.nodup⟩

lemma kalloc_slot (hfree : s.free = p :: rest)
    (hd : ∀ q, (s.slot i).data ≠ .page q) (he : e.data = .page p) (hs' : s' = { s.setSlot i e with
      page := update s.page p Bytes.zero
      free := rest }) : Heap s' ∧ (∀ q, s'.pool q ↔ s.pool q) ∧ ∀ b, Untouched s s' b := by
  subst hs'
  have hp : s.owns p .free := by simp [owns, hfree]
  have hnodup := h.nodup
  rw [hfree, List.nodup_cons] at hnodup
  refine h.transfer (.slot i) rfl hp (by simp) (by simp) (fun q hq => update_of_ne hq ..) ?_
    hnodup.2
  intro q o hne
  match o with
  | .node a => exact absurd rfl (hne a)
  | .free =>
    by_cases hqp : q = p
    · subst hqp
      simp [owns, hnodup.1]
    · simp [owns, hqp, hfree]
  | .slot j =>
    by_cases hji : j = i
    · subst hji
      by_cases hqp : q = p
      · subst hqp
        simp [owns, setSlot, he]
      · simp [owns, setSlot, he, hqp, hd, Ne.symm hqp]
    · by_cases hqp : q = p
      · subst hqp
        have hother : (s.slot j).data ≠ .page q := fun hj => by
          cases h.unique q .free (.slot j) hp hj
        simp [owns, setSlot, hother, hji]
      · simp [owns, setSlot, update_of_ne hji, hqp]

end

end Heap

end FrostVista.Tmpfs
