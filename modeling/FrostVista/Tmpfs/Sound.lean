import FrostVista.Tmpfs.Heap
import FrostVista.Tmpfs.Tree

/-!
# tmpfs: the inode cache and the invariant of the store

A slot of the cache that is in use for tmpfs points to a live inode, knows whether it has links, and
is the only slot for it; an inode that has lost its links is in use. Together with the ownership of
pages and the directory tree this is the invariant of the store.
-/
namespace FrostVista.Tmpfs

open Lib Lib.Comp Function

open Kernel.Ftable (NodeType)

/-- The slot is in use for an inode of tmpfs. -/
def VfsInode.held (e : VfsInode) : Prop := e.dev = tmpfsDev ∧ 0 < e.count

instance (e : VfsInode) : Decidable e.held := inferInstanceAs (Decidable (_ ∧ _))

/-- What a slot in use knows about its inode. -/
structure Snapshot (e : VfsInode) (a : Nat) (c : Header) : Prop where
  data : e.data = .node a
  ino : c.ino = e.ino
  type : e.type = c.type
  nlinks : e.nlinks = 0 ↔ c.nlinks = 0

structure Cache (t : Nat → Option Header) (slot : SlotId → VfsInode) (next : Nat) : Prop where
  ino_inj : ∀ a b c c', t a = some c → t b = some c' → c.ino = c'.ino → a = b
  ino_lt : ∀ a c, t a = some c → c.ino < next
  slot_lt : ∀ i, (slot i).dev = tmpfsDev → (slot i).ino < next
  key_inj : ∀ i j, (slot i).dev = tmpfsDev → (slot j).dev = tmpfsDev →
    (slot i).ino = (slot j).ino → i = j
  data : ∀ i, (slot i).dev = tmpfsDev → (slot i).pdOwned = false ∧ ∀ p, (slot i).data ≠ .page p
  others : ∀ i a, (slot i).dev ≠ tmpfsDev → (slot i).data ≠ .node a
  page : ∀ i p, (slot i).data = .page p → (slot i).pdOwned = true
  held : ∀ i, (slot i).held → ∃ a c, t a = some c ∧ Snapshot (slot i) a c
  unlinked : ∀ a c, t a = some c → c.nlinks = 0 → ∃ i, (slot i).held ∧ (slot i).data = .node a

lemma isFor_iff {e : VfsInode} {ino : Nat} :
    e.isFor ino = true ↔ e.dev = tmpfsDev ∧ e.ino = ino := by
  simp [VfsInode.isFor]

namespace Cache

variable {t t' : Nat → Option Header} {slot slot' : SlotId → VfsInode} {next a : Nat} {i : SlotId}
  {c : Header} {e : VfsInode}

section
variable (h : Cache t slot next)
include h

/-- An inode changes in ways that no slot shows. -/
lemma edit (ha : t a = some c) {c' : Header} (htype : c'.type = c.type)
    (hlinks : c'.nlinks = 0 ↔ c.nlinks = 0) (hino : c'.ino = c.ino) :
    Cache (update t a (some c')) slot next := by
  have hget : ∀ b g, update t a (some c') b = some g ↔ (b = a ∧ g = c') ∨
    (b ≠ a ∧ t b = some g) := by
    grind [update_apply]
  generalize update t a (some c') = t' at hget
  refine ⟨?_, ?_, h.slot_lt, h.key_inj, h.data, h.others, h.page, ?_, ?_⟩
  · have := h.ino_inj
    grind
  · have := h.ino_lt
    grind
  · intro i hi
    obtain ⟨b, g, hb, hdata, hino', htype', hlinks'⟩ := h.held i hi
    by_cases hba : b = a
    · subst hba
      cases ha.symm.trans hb
      exact ⟨b, c', (hget b c').mpr (.inl ⟨rfl, rfl⟩), hdata, hino.trans hino',
        htype'.trans htype.symm,
        hlinks'.trans hlinks.symm⟩
    · exact ⟨b, g, (hget b g).mpr (.inr ⟨hba, hb⟩), hdata, hino', htype', hlinks'⟩
  · have := h.unlinked
    grind

/-- One slot changes, and what it says stays true. -/
lemma set (hlt : e.dev = tmpfsDev → e.ino < next)
    (hkey : e.dev = tmpfsDev → ∀ j, j ≠ i → (slot j).dev = tmpfsDev → (slot j).ino ≠ e.ino)
    (hdata : e.dev = tmpfsDev → e.pdOwned = false ∧ ∀ p, e.data ≠ .page p)
    (hothers : ∀ a, e.dev ≠ tmpfsDev → e.data ≠ .node a)
    (hpage : ∀ p, e.data = .page p → e.pdOwned = true)
    (hheld : e.held → ∃ a c, t a = some c ∧ Snapshot e a c)
    (hunlinked : ∀ a c, t a = some c → c.nlinks = 0 → (slot i).held → (slot i).data = .node a →
      e.held ∧ e.data = .node a) : Cache t (update slot i e) next := by
  have hself : (update slot i e) i = e := update_self ..
  have hne : ∀ j, j ≠ i → (update slot i e) j = slot j := fun j hj => update_of_ne hj ..
  generalize update slot i e = slot' at hself hne
  constructor
  · exact h.ino_inj
  · exact h.ino_lt
  · have := h.slot_lt
    grind
  · have := h.key_inj
    grind
  · have := h.data
    grind
  · have := h.others
    grind
  · have := h.page
    grind
  · have := h.held
    grind
  · have := h.unlinked
    grind

lemma fill (ha : t a = some c)
    (hwas : (slot i).isFor c.ino = true ∨ (slot i).count = 0 ∧ ∀ j, (slot j).isFor c.ino = false)
    (hdev : e.dev = tmpfsDev) (hcount : 0 < e.count) (howned : e.pdOwned = false)
    (hsnap : Snapshot e a c) : Cache t (update slot i e) next := by
  obtain ⟨hdata, hino, -, -⟩ := id hsnap
  simp only [← Bool.not_eq_true, isFor_iff] at hwas
  refine h.set ?_ ?_ ?_ ?_ ?_ (fun _ => ⟨a, c, ha, hsnap⟩) fun b g _ _ hi hb => ?_
  · have := h.ino_lt a c ha
    grind
  · have := h.key_inj
    grind
  · grind
  · grind
  · grind
  · obtain ⟨a', c', ha', hdata', hino', -, -⟩ := h.held i hi
    have hab : a' = a := by
      refine h.ino_inj a' a c' c ha' ha ?_
      have := hi.2
      grind
    exact ⟨⟨hdev, hcount⟩, by grind⟩

/-- A reference is given back that is not the last one to an inode without links. -/
lemma put (hi : (slot i).held) (hlast : ¬((slot i).count = 1 ∧ (slot i).nlinks = 0)) :
    Cache t (update slot i { slot i with count := (slot i).count - 1 }) next := by
  obtain ⟨a, c, ha, hsnap⟩ := h.held i hi
  refine h.set (h.slot_lt i) (fun hd j hj hd' he => hj (h.key_inj j i hd' hd he))
    (h.data i) (h.others i)
    (h.page i) (fun _ => ⟨a, c, ha, hsnap.data, hsnap.ino, hsnap.type, hsnap.nlinks⟩)
    fun b g hb hzero _ hdata => ⟨⟨hi.1, ?_⟩, hdata⟩
  have hnl := hsnap.nlinks
  have := hi.2
  have := hsnap.data
  grind

lemma create (ha : t a = none) (hino : c.ino = next) (hlinks : c.nlinks ≠ 0) :
    Cache (update t a (some c)) slot (next + 1) := by
  have hget : ∀ b g, update t a (some c) b = some g ↔ (b = a ∧ g = c) ∨ (b ≠ a ∧ t b = some g) := by
    grind [update_apply]
  generalize update t a (some c) = t' at hget
  constructor
  · have := h.ino_inj
    have := h.ino_lt
    grind
  · have := h.ino_lt
    grind
  · have := h.slot_lt
    grind
  · exact h.key_inj
  · exact h.data
  · exact h.others
  · exact h.page
  · intro i hi
    obtain ⟨b, g, hb, hsnap⟩ := h.held i hi
    exact ⟨b, g, (hget b g).mpr (by grind), hsnap⟩
  · have := h.unlinked
    grind

lemma sync (ha : t a = some c) (hopen : ∃ i, (slot i).isFor c.ino = true ∧ 0 < (slot i).count)
    (hself : ∀ i, (slot i).isFor c.ino = true → slot' i = { slot i with nlinks := k })
    (hne : ∀ i, (slot i).isFor c.ino = false → slot' i = slot i) :
    Cache (update t a (some { c with nlinks := k })) slot' next := by
  have hget : ∀ b g, update t a (some { c with nlinks := k }) b = some g ↔
      (b = a ∧ g = { c with nlinks := k }) ∨ (b ≠ a ∧ t b = some g) := by
    grind [update_apply]
  generalize update t a (some { c with nlinks := k }) = t' at hget
  have hfields : ∀ i, (slot' i).dev = (slot i).dev ∧ (slot' i).ino = (slot i).ino ∧
      (slot' i).count = (slot i).count ∧ (slot' i).data = (slot i).data ∧
      (slot' i).type = (slot i).type ∧ (slot' i).pdOwned = (slot i).pdOwned := by
    intro i
    cases hi : (slot i).isFor c.ino with
    | false => simp [hne i hi]
    | true => simp [hself i hi]
  have hheld : ∀ i, (slot' i).held ↔ (slot i).held := by
    intro i
    unfold VfsInode.held
    rw [(hfields i).1, (hfields i).2.2.1]
  constructor
  · have := h.ino_inj
    grind
  · have := h.ino_lt
    grind
  · have := h.slot_lt
    grind
  · have := h.key_inj
    grind
  · have := h.data
    grind
  · have := h.others
    grind
  · have := h.page
    grind
  · intro i hi
    obtain ⟨b, g, hb, hdata, hino, htype, hlinks⟩ := h.held i ((hheld i).mp hi)
    by_cases hba : b = a
    · subst hba
      rw [ha] at hb
      cases hb
      have hfor : (slot i).isFor c.ino = true := isFor_iff.mpr ⟨((hheld i).mp hi).1, hino.symm⟩
      refine ⟨b, _, (hget _ _).mpr (.inl ⟨rfl, rfl⟩), ?_, ?_, ?_, ?_⟩
      · rw [(hfields i).2.2.2.1, hdata]
      · rw [(hfields i).2.1]
        exact hino
      · rw [(hfields i).2.2.2.2.1]
        exact htype
      · rw [hself i hfor]
    · have hfor : (slot i).isFor c.ino = false := by
        rw [← Bool.not_eq_true, isFor_iff]
        rintro ⟨-, hino'⟩
        exact hba (h.ino_inj b a g c hb ha (hino.trans hino'))
      rw [hne i hfor]
      exact ⟨b, g, (hget _ _).mpr (.inr ⟨hba, hb⟩), hdata, hino, htype, hlinks⟩
  · intro b g hb hzero
    rcases (hget b g).mp hb with ⟨rfl, rfl⟩ | ⟨hba, hb⟩
    · obtain ⟨i, hfor, hcount⟩ := hopen
      have hi : (slot i).held := ⟨(isFor_iff.mp hfor).1, hcount⟩
      obtain ⟨b', g', hb', hdata, hino, -, -⟩ := h.held i hi
      have hbb : b' = b := h.ino_inj b' b g' c hb' ha (hino.trans (isFor_iff.mp hfor).2)
      exact ⟨i, (hheld i).mpr hi, by rw [(hfields i).2.2.2.1, hdata, hbb]⟩
    · obtain ⟨i, hi, hdata⟩ := h.unlinked b g hb hzero
      exact ⟨i, (hheld i).mpr hi, by rw [(hfields i).2.2.2.1, hdata]⟩

/-- An inode goes, and no slot in use points to it any more. -/
lemma remove (hfields : ∀ i, (slot' i).dev = (slot i).dev ∧ (slot' i).ino = (slot i).ino ∧
      ((slot' i).data = (slot i).data ∧ (slot' i).pdOwned = (slot i).pdOwned ∨
        (slot' i).data = .null ∧ (slot' i).pdOwned = false))
    (hheld : ∀ i, (slot' i).held → slot' i = slot i ∧ (slot i).data ≠ .node a)
    (hkeep : ∀ i, (slot i).held → (slot i).data ≠ .node a → slot' i = slot i) :
    Cache (update t a none) slot' next := by
  have hget : ∀ b g, update t a none b = some g ↔ b ≠ a ∧ t b = some g := by
    grind [update_apply]
  generalize update t a none = t' at hget
  constructor
  · have := h.ino_inj
    grind
  · have := h.ino_lt
    grind
  · have := h.slot_lt
    grind
  · have := h.key_inj
    grind
  · have := h.data
    grind
  · have := h.others
    grind
  · have := h.page
    grind
  · intro i hi
    obtain ⟨heq, hdata⟩ := hheld i hi
    rw [heq] at hi ⊢
    obtain ⟨b, g, hb, hsnap⟩ := h.held i hi
    refine ⟨b, g, (hget b g).mpr ⟨?_, hb⟩, hsnap⟩
    rintro rfl
    exact hdata hsnap.data
  · intro b g hb hzero
    obtain ⟨hba, hb⟩ := (hget b g).mp hb
    obtain ⟨i, hi, hdata⟩ := h.unlinked b g hb hzero
    have heq := hkeep i hi (by grind)
    exact ⟨i, by rwa [heq], by rwa [heq]⟩

lemma free (ha : t a = some c)
    (hclosed : ∀ i, (slot i).isFor c.ino = true → (slot i).count = 0)
    (hself : ∀ i, (slot i).isFor c.ino = true → slot' i =
      { slot i with data := .null, pdOwned := false })
    (hne : ∀ i, (slot i).isFor c.ino = false → slot' i = slot i) :
    Cache (update t a none) slot' next := by
  have hfor : ∀ i, 0 < (slot i).count → (slot i).isFor c.ino = false := by
    intro i hi
    rw [← Bool.not_eq_true]
    intro hfor
    exact absurd (hclosed i hfor) hi.ne'
  refine h.remove (fun i => ?_) (fun i hi => ?_) fun i hi _ => hne i (hfor i hi.2)
  · cases hi : (slot i).isFor c.ino with
    | false => simp [hne i hi]
    | true => simp [hself i hi]
  · have heq : slot' i = slot i := by
      refine hne i (hfor i ?_)
      have := hi.2
      cases hi : (slot i).isFor c.ino with
      | false => rwa [← hne i hi]
      | true => rwa [hself i hi] at this
    rw [heq] at hi
    refine ⟨heq, fun hdata => ?_⟩
    obtain ⟨b, g, hb, hsnap⟩ := h.held i hi
    cases hsnap.data.symm.trans hdata
    cases ha.symm.trans hb
    exact absurd (hfor i hi.2) (by simp [isFor_iff, hi.1, hsnap.ino])

/-- The last reference to an inode without links is given back, and the inode is freed. -/
lemma destroy (hi : (slot i).held) (hdata : (slot i).data = .node a) : Cache (update t a none)
      (update slot i { slot i with count := 0, data := .null, pdOwned := false }) next := by
  -- the slot was the only one for the inode
  have honly : ∀ j, (slot j).held → (slot j).data = .node a → j = i := by
    intro j hj hjdata
    obtain ⟨b, g, hb, hsnap⟩ := h.held j hj
    obtain ⟨b', g', hb', hsnap'⟩ := h.held i hi
    have h1 := hsnap.data
    have h2 := hsnap'.data
    have h3 := hsnap.ino
    have h4 := hsnap'.ino
    refine h.key_inj j i hj.1 hi.1 ?_
    grind
  refine h.remove (fun j => ?_) (fun j hj => ?_) fun j hj hjdata => update_of_ne ?_ ..
  · by_cases hji : j = i
    · subst hji
      simp
    · simp [hji]
  · have hji : j ≠ i := by
      rintro rfl
      exact absurd hj.2 (by simp)
    rw [update_of_ne hji] at hj ⊢
    exact ⟨rfl, fun hjdata => hji (honly j hj hjdata)⟩
  · rintro rfl
    exact hjdata hdata

lemma setOther (hwas : ¬(slot i).held) (hdev : e.dev ≠ tmpfsDev)
    (hdata : ∀ a, e.data ≠ .node a) (hpage : ∀ p, e.data = .page p → e.pdOwned = true) :
    Cache t (update slot i e) next :=
  h.set (absurd · hdev) (absurd · hdev) (absurd · hdev) (fun a _ => hdata a) hpage
    (fun hheld => absurd hheld.1 hdev) fun _ _ _ _ hi => absurd hi hwas

end

end Cache

/-! ## The invariant -/

structure Sound (ext : Nat → Prop) (s : Store) : Prop where
  heap : Heap s
  tree : Tree ext s.header
  cache : Cache s.header s.slot s.nextIno
  order : ∀ i, i ∈ s.order

/-- No page is gained or lost, and the files outside of `S` keep their contents. -/
structure Keeps (S : Nat → Prop) (s s' : Store) : Prop where
  pool : ∀ p, s'.pool p ↔ s.pool p
  file : ∀ b, ¬S b → Untouched s s' b

section

variable {S : Nat → Prop} {s s' s1 s2 : Store} {a b : Nat} {n : Inode} {ext : Nat → Prop}

lemma Untouched.trans (h : Untouched s s1 b) (h' : Untouched s1 s2 b) : Untouched s s2 b := by
  intro k hk
  obtain ⟨k1, hk1, hsame1⟩ := h k hk
  obtain ⟨k2, hk2, hsame2⟩ := h' k1 hk1
  exact ⟨k2, hk2, hsame1.trans hsame2⟩

lemma Heap.untouched_refl (h : Heap s) (b : Nat) : Untouched s s b := fun k hk =>
  ⟨k, hk, (h.owned b k hk).undisturbed⟩

lemma Keeps.refl (h : Heap s) : Keeps S s s := ⟨fun _ => Iff.rfl, fun b _ => h.untouched_refl b⟩

lemma Keeps.trans (h : Keeps S s s1) (h' : Keeps S s1 s2) : Keeps S s s2 where
  pool p := (h'.pool p).trans (h.pool p)
  file b hb := (h.file b hb).trans (h'.file b hb)

lemma Keeps.mono (h : Keeps S s s') (hS : ∀ b, S b → S' b) : Keeps S' s s' where
  pool := h.pool
  file b hb := h.file b fun hin => hb (hS b hin)

lemma header_eq_some : s.header a = some c ↔ ∃ n, s.node a = some n ∧ n.header = c :=
  Option.map_eq_some_iff

lemma header_of_node (h : s.node a = some n) :
    s.header a = some n.header := by rw [Store.header, h]; rfl

lemma header_eq_none : s.header a = none ↔ s.node a = none := Option.map_eq_none_iff

lemma header_update (s s' : Store) (hnode : s'.node = update s.node a o) :
    s'.header = update s.header a (o.map Inode.header) := by
  funext b
  unfold Store.header
  rw [hnode]
  by_cases hb : b = a
  · subst hb
    simp
  · simp [hb]

lemma header_setNode : (s.setNode a n).header = update s.header a (some n.header) :=
  header_update s (s.setNode a n) rfl

lemma header_putFile (h : s.node a = some n) (m : Mem) : (s.putFile a n m).header = s.header := by
  have hself : s.header a = some n.header := header_of_node h
  rw [header_update s (s.putFile a n m) rfl]
  exact (update_eq_self_iff).mpr hself.symm

/-- The pages stay where they are, and a new inode has none. -/
lemma Heap.rearranged (h : Heap s)
    (hslot : ∀ i p, (s'.slot i).data = .page p ↔ (s.slot i).data = .page p)
    (hback : ∀ b k', s'.node b = some k' → (∀ i < ndirect + 2, k'.blocks i = 0) ∨
      ∃ k, s.node b = some k ∧ k'.blocks = k.blocks)
    (hforth : ∀ b k, s.node b = some k →
      ∃ k', s'.node b = some k' ∧ k'.blocks = k.blocks ∧ k'.size = k.size)
    (hpage : s'.page = s.page) (hfree : s'.free = s.free) : Heap s' ∧ Keeps S s s' := by
  refine ⟨h.congr hpage hfree hback fun i p => (hslot i p).mp,
    pool_congr hpage hfree ?_ ?_ hslot, ?_⟩
  · exact fun b k' hk' => (hback b k' hk').imp_left fun hzero _ => pages_eq_empty hzero
  · intro b k hk
    obtain ⟨k', hk', hblocks, -⟩ := hforth b k hk
    exact .inr ⟨k', hk', hblocks⟩
  · intro b _ k hk
    obtain ⟨k', hk', hblocks, hsize⟩ := hforth b k hk
    refine ⟨k', hk', ?_⟩
    have hsame : s'.file k' = s.file k := by simp only [Store.file, hpage, hfree, hblocks, hsize]
    rw [hsame]
    exact (h.owned b k hk).undisturbed

lemma Sound.putFile (h : Sound ext s) (hn : s.node a = some n) (howned : Owned m)
    (hc : Conserves (s.file n) m) : Sound ext (s.putFile a n m) ∧
      Keeps (· = a) s (s.putFile a n m) := by
  obtain ⟨hheap, hpool⟩ := h.heap.putFile hn howned hc
  refine ⟨⟨hheap, ?_, ?_, h.order⟩, hpool, fun b hb => h.heap.untouched_putFile hn howned hc hb⟩
  · rw [header_putFile hn]
    exact h.tree
  · rw [header_putFile hn]
    exact h.cache

end

end FrostVista.Tmpfs
