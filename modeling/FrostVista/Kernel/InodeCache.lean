import FrostVista.Kernel.Namei
import FrostVista.Library.Chain
import Mathlib.Tactic.IntervalCases

/-!
# The inode cache

`get_inode` and `put_inode` of `kernel/fs/inode_cache.c` on the slots, the linked list and the page
allocator. A slot keeps its identity when its last reference is gone and is recycled from the end of
the list. The reference count has 32 bits, so what is proved about it asks that fewer than `2 ^ 32`
references to a slot are outstanding.
-/
namespace FrostVista.Kernel.InodeCache

open Lib Lib.Comp Lib.Chain Function List

open Namei (ninodes)
open BitVec (toNat_add ofNat_eq_ofNat toNat_ofNat toNat_sub toNat_eq ofNat ofNat_add)

abbrev SlotId := Fin ninodes

/-- `struct vfs_inode` with the fields the cache uses; `privateData` is 0 for the null pointer. -/
structure VfsInode where
  dev : BitVec 32
  ino : BitVec 32
  count : BitVec 32
  nlinks : BitVec 32
  type : Ftable.NodeType
  privateData : Word
  pdOwned : Bool

/-- What the walk over a path sees of a slot. -/
def VfsInode.toSlot (e : VfsInode) : Namei.Slot :=
  ⟨⟨e.dev, e.ino⟩, e.count.toNat, e.nlinks.toNat, e.type⟩

open VfsInode (toSlot)

/-- `struct inode_cache` and the memory of the kernel. -/
structure Icache where
  inodes : SlotId → VfsInode
  links : Links SlotId
  machine : Machine

abbrev I := Comp Icache Panic

/-- Runs a function of the allocator. -/
def onMachine {α : Type} (x : M α) : I α := fun c =>
  match x.run c.machine with
  | .ok (a, m) => .ok (a, { c with machine := m })
  | .error e => .error e

def Icache.set (c : Icache) (i : SlotId) (e : VfsInode) : Icache :=
  { c with inodes := Function.update c.inodes i e }

def setInode (i : SlotId) (e : VfsInode) : I Unit := modify fun c => c.set i e

/-- `icache_init`; the slots are in zeroed memory. -/
def icacheInit (m : Machine) : Icache where
  inodes _ := ⟨0, 0, 0, 0, .file, 0, false⟩
  links := (List.finRange ninodes).foldl Links.pushFront Links.empty
  machine := m

/-- `if (ip->private_data == 0 && alloc) { ip->private_data = kalloc(); ip->pd_owned = 1; }` -/
def attachData (i : SlotId) (e : VfsInode) (alloc : Bool) : I Unit :=
  if e.privateData = 0 ∧ alloc then do
    let page ← onMachine kalloc
    setInode i { e with privateData := page.getD 0, pdOwned := true }
  else setInode i e

/-- The slot holds the inode that is asked for. -/
def hit (i : SlotId) (ip : VfsInode) (alloc : Bool) : I Unit :=
  if 0 < ip.count then setInode i { ip with count := ip.count + 1 }
  else attachData i { ip with count := 1 } alloc

/-- The slot is taken over for another inode. The private data of another device is not handed
on. -/
def recycle (i : SlotId) (ip : VfsInode) (dev ino : BitVec 32) (alloc : Bool) : I Unit :=
  if ip.dev ≠ dev then do
    when (ip.pdOwned && ip.privateData != 0) (onMachine (kfree Riscv.riscv ip.privateData))
    attachData i { ip with privateData := 0, pdOwned := false, ino := ino, count := 1, dev :=
      dev } alloc
  else attachData i { ip with ino := ino, count := 1, dev := dev } alloc

def getInode (dev ino : BitVec 32) (alloc : Bool) : I (Option SlotId) := do
  let c ← get
  match (List.finRange ninodes).find? fun i => (c.inodes i).ino = ino ∧ (c.inodes i).dev = dev with
  | some i =>
    hit i (c.inodes i) alloc
    pure (some i)
  | none =>
    match search c.links.prev (fun i => (c.inodes i).count = 0) ninodes (c.links.prev none) with
    | none => pure none
    | some i =>
      recycle i (c.inodes i) dev ino alloc
      pure (some i)

def putInode (i : SlotId) (free : Bool) : I Unit := do
  let c ← get
  let ip := c.inodes i
  if ip.count = 1 ∧ ip.nlinks = 0 then
    when free (onMachine (kfree Riscv.riscv ip.privateData))
    modify fun c =>
      { c.set i { ip with count := 0, privateData := 0, pdOwned := false } with
        links := (c.links.remove i).pushFront i }
  else if ip.count = 0 then pure () -- only logged
  else setInode i { ip with count := ip.count - 1 }

/-- What happens to the cache; a `get` shows the slot it returns. -/
inductive Act where
  | get (dev ino : BitVec 32) (alloc : Bool) (r : Option SlotId)
  | put (i : SlotId) (free : Bool)
  /-- A file system fills in a slot. -/
  | fill (i : SlotId) (nlinks : BitVec 32) (type : Ftable.NodeType) (privateData : Word)
    (pdOwned : Bool)
  /-- Other parts of the kernel use the allocator. -/
  | other (m : Machine)

inductive Step : Icache → Act → Icache → Prop where
  | get {c c' : Icache} {dev ino : BitVec 32} {alloc : Bool} {r : Option SlotId} :
      (getInode dev ino alloc).run c = .ok (r, c') → Step c (.get dev ino alloc r) c'
  | put {c c' : Icache} {i : SlotId} {free : Bool} :
      (putInode i free).run c = .ok ((), c') → Step c (.put i free) c'
  | fill {c : Icache} {i : SlotId} {nlinks : BitVec 32} {type : Ftable.NodeType}
      {privateData : Word}
      {pdOwned : Bool} :
      Step c (.fill i nlinks type privateData pdOwned) (c.set i { c.inodes i with
        nlinks := nlinks
        type := type
        privateData := privateData
        pdOwned := pdOwned })
  | other {c : Icache} {m : Machine} : Step c (.other m) { c with machine := m }

/-- What an action adds to the references to a slot. -/
def Act.adds (i : SlotId) : Act → Int
  | .get _ _ _ r => if r = some i then 1 else 0
  | .put j _ => if j = i then -1 else 0
  | _ => 0

/-- The calls of `get_inode` that returned the slot, minus the calls of `put_inode` for it. -/
def references (acts : List Act) (i : SlotId) : Int := (acts.map (Act.adds i)).sum

/-- What the callers have to keep to: an inode number is not 0, and `put_inode` gives back a
reference that the caller owns. -/
def Lawful (acts : List Act) : Prop :=
  ∀ before a after, acts = before ++ a :: after → match a with
    | .get _ ino _ _ => ino ≠ 0
    | .put i _ => 0 < references before i
    | _ => True

/-- Never are `2 ^ 32` references to one slot outstanding. -/
def Few (acts : List Act) : Prop :=
  ∀ before after i, acts = before ++ after → references before i < 2 ^ 32

/-! ## What the functions do -/

section Effects

variable {c c' : Icache} {i j : SlotId} {dev ino : BitVec 32} {alloc free : Bool} {e : VfsInode}

@[simp] lemma set_self : (c.set i e).inodes i = e := update_self ..

lemma set_of_ne (h : j ≠ i) : (c.set i e).inodes j = c.inodes j := update_of_ne h ..

lemma onMachine_eq_ok {α : Type} {x : M α} {a : α} (h : (onMachine x).run c = .ok (a, c')) :
    ∃ m, c' = { c with machine := m } := by
  simp only [onMachine, Comp.run] at h
  split at h
  · cases h
    exact ⟨_, rfl⟩
  · cases h

lemma when_onMachine_eq_ok {b : Bool} {x : M Unit}
    (h : (when b (onMachine x)).run c = .ok ((), c')) :
    ∃ m, c' = { c with machine := m } := by
  cases b with
  | true => exact onMachine_eq_ok h
  | false =>
    cases h
    exact ⟨c.machine, rfl⟩

/-- Only slot `i` and the memory change; the slot is now as `e` but for its private data. -/
structure Changes (c c' : Icache) (i : SlotId) (e : VfsInode) : Prop where
  links : c'.links = c.links
  other : ∀ j, j ≠ i → c'.inodes j = c.inodes j
  dev : (c'.inodes i).dev = e.dev
  ino : (c'.inodes i).ino = e.ino
  count : (c'.inodes i).count = e.count
  nlinks : (c'.inodes i).nlinks = e.nlinks
  type : (c'.inodes i).type = e.type

lemma changes_set : Changes c (c.set i e) i e where
  links := rfl
  other _ h := set_of_ne h
  dev := by rw [set_self]
  ino := by rw [set_self]
  count := by rw [set_self]
  nlinks := by rw [set_self]
  type := by rw [set_self]

lemma Changes.key (h : Changes c c' i e) (hdev : e.dev = (c.inodes i).dev)
    (hino : e.ino = (c.inodes i).ino)
    (j : SlotId) : (c'.inodes j).dev = (c.inodes j).dev ∧ (c'.inodes j).ino = (c.inodes j).ino := by
  by_cases hj : j = i
  · subst hj
    exact ⟨h.dev.trans hdev, h.ino.trans hino⟩
  · rw [h.other j hj]
    exact ⟨rfl, rfl⟩

lemma attachData_changes (h : (attachData i e alloc).run c = .ok ((), c')) : Changes c c' i e := by
  unfold attachData at h
  split at h
  · obtain ⟨page, d, hk, hset⟩ := run_bind_eq_ok.mp h
    obtain ⟨m, rfl⟩ := onMachine_eq_ok hk
    cases hset
    have hset := @changes_set { c with machine := m } i
      { e with privateData := page.getD 0, pdOwned := true }
    exact ⟨hset.links, hset.other, hset.dev, hset.ino, hset.count, hset.nlinks, hset.type⟩
  · cases h
    exact changes_set

lemma hit_changes (h : (hit i (c.inodes i) alloc).run c = .ok ((), c')) :
    Changes c c' i { c.inodes i with count := (c.inodes i).count + 1 } := by
  unfold hit at h
  split at h
  · cases h
    exact changes_set
  · rename_i hpos
    have hzero : (c.inodes i).count = 0 := by simpa using hpos
    rw [hzero]
    exact attachData_changes h

lemma recycle_changes (h : (recycle i (c.inodes i) dev ino alloc).run c = .ok ((), c')) :
    Changes c c' i { c.inodes i with dev := dev, ino := ino, count := 1 } := by
  unfold recycle at h
  split at h
  · obtain ⟨u, d, hk, hat⟩ := run_bind_eq_ok.mp h
    obtain ⟨m, rfl⟩ := when_onMachine_eq_ok hk
    have hch := attachData_changes hat
    exact ⟨hch.links, hch.other, hch.dev, hch.ino, hch.count, hch.nlinks, hch.type⟩
  · exact attachData_changes h

/-- `get_inode` returns the slot of the inode, or it takes a slot without references if there is
none, or there is neither. -/
lemma getInode_cases (h : (getInode dev ino alloc).run c = .ok (r, c')) :
    (∃ i, (finRange ninodes).find?
          (fun i => (c.inodes i).ino = ino ∧ (c.inodes i).dev = dev) = some i ∧ r = some i ∧
        Changes c c' i { c.inodes i with count := (c.inodes i).count + 1 }) ∨
      ((finRange ninodes).find?
          (fun i => (c.inodes i).ino = ino ∧ (c.inodes i).dev = dev) = none ∧
        search c.links.prev (fun i => (c.inodes i).count = 0) ninodes (c.links.prev none) = r ∧
        ((r = none ∧ c' = c) ∨
          ∃ i, r = some i ∧
            Changes c c' i { c.inodes i with dev := dev, ino := ino, count := 1 })) := by
  unfold getInode at h
  rw [run_bind_ok (run_get c)] at h
  split at h
  · rename_i i hi
    obtain ⟨u, d, hhit, hret⟩ := run_bind_eq_ok.mp h
    cases hret
    exact .inl ⟨i, hi, rfl, hit_changes hhit⟩
  · rename_i hmiss
    refine .inr ⟨hmiss, ?_⟩
    split at h
    · rename_i hnone
      cases h
      exact ⟨hnone, .inl ⟨rfl, rfl⟩⟩
    · rename_i i hsome
      obtain ⟨u, d, htake, hret⟩ := run_bind_eq_ok.mp h
      cases hret
      exact ⟨hsome, .inr ⟨i, rfl, recycle_changes htake⟩⟩

/-- The links after a release: the last reference to an inode without links moves its slot to the
front of the list. -/
def Icache.releasedLinks (c : Icache) (i : SlotId) : Links SlotId :=
  if (c.inodes i).count = 1 ∧ (c.inodes i).nlinks = 0 then
    (c.links.remove i).pushFront i else c.links

/-- `put_inode` lowers a positive count. -/
lemma putInode_cases (h : (putInode i free).run c = .ok ((), c')) :
    ((c.inodes i).count = 0 ∧ c' = c) ∨
      ((c.inodes i).count ≠ 0 ∧
        Changes { c with links := c.releasedLinks i } c' i
          { c.inodes i with count := (c.inodes i).count - 1 }) := by
  unfold putInode at h
  rw [run_bind_ok (run_get c)] at h
  unfold Icache.releasedLinks
  by_cases hlast : (c.inodes i).count = 1 ∧ (c.inodes i).nlinks = 0
  · rw [if_pos hlast] at h ⊢
    obtain ⟨u, d, hk, hset⟩ := run_bind_eq_ok.mp h
    obtain ⟨m, rfl⟩ := when_onMachine_eq_ok hk
    cases hset
    refine .inr ⟨by rw [hlast.1]; decide, rfl, fun j hj => set_of_ne hj, ?_, ?_, ?_, ?_, ?_⟩
    all_goals simp [hlast.1]
  · rw [if_neg hlast] at h ⊢
    split at h
    · rename_i hzero
      cases h
      exact .inl ⟨hzero, rfl⟩
    · rename_i hpos
      cases h
      exact .inr ⟨hpos, changes_set⟩

end Effects

/-! ## The invariant -/

/-- The cache after the actions `acts`. -/
structure Inv (acts : List Act) (c : Icache) : Prop where
  order : ∃ xs, Spells c.links xs ∧ ∀ i, i ∈ xs
  unique : ∀ i j, (c.inodes i).ino ≠ 0 → (c.inodes i).dev = (c.inodes j).dev →
    (c.inodes i).ino = (c.inodes j).ino → i = j
  count : ∀ i, ((c.inodes i).count.toNat : Int) = references acts i

section Steps

variable {acts : List Act} {c c' : Icache} {i : SlotId} {a : Act}

lemma references_append (acts : List Act) (a : Act) (i : SlotId) :
    references (acts ++ [a]) i = references acts i + a.adds i := by
  simp [references]

lemma inv_icacheInit (m : Machine) : Inv [] (icacheInit m) where
  order := ⟨_, spells_finRange ninodes, by simp⟩
  unique _ _ h := absurd rfl h
  count _ := rfl

lemma Inv.same (h : Inv acts c) (ha : ∀ i, a.adds i = 0) (hl : c'.links = c.links)
    (hs : ∀ i, (c'.inodes i).dev = (c.inodes i).dev ∧ (c'.inodes i).ino = (c.inodes i).ino ∧
      (c'.inodes i).count = (c.inodes i).count) : Inv (acts ++ [a]) c' where
  order := hl ▸ h.order
  unique i j := by
    rw [(hs i).1, (hs i).2.1, (hs j).1, (hs j).2.1]
    exact h.unique i j
  count i := by
    rw [(hs i).2.2, references_append, ha i, add_zero, h.count]

variable {dev ino : BitVec 32} {alloc : Bool} {r : Option SlotId}

lemma Inv.find_unique (h : Inv acts c) (hino : ino ≠ 0)
    (hi : (c.inodes i).ino = ino ∧ (c.inodes i).dev = dev) :
    (finRange ninodes).find? (fun i => (c.inodes i).ino = ino ∧ (c.inodes i).dev = dev) =
      some i := by
  cases hf : (finRange ninodes).find?
      fun i => (c.inodes i).ino = ino ∧ (c.inodes i).dev = dev with
  | none =>
    have := find?_eq_none.mp hf i (mem_finRange i)
    simp [hi] at this
  | some j =>
    have hj := find?_some hf
    simp only [decide_eq_true_eq] at hj
    rw [h.unique i j (hi.1 ▸ hino) (hi.2.trans hj.2.symm) (hi.1.trans hj.1.symm)]

lemma Inv.addReference (h : Inv acts c) (hch : Changes c c' i e)
    (hcount : e.count = (c.inodes i).count + 1) (hfew : references acts i + 1 < 2 ^ 32)
    (hfree : ∀ j, j ≠ i → (c.inodes j).dev = e.dev → (c.inodes j).ino = e.ino → e.ino = 0) :
    Inv (acts ++ [.get dev ino alloc (some i)]) c' where
  order := hch.links ▸ h.order
  unique j k hj hdev hino := by
    by_cases hji : j = i
    · by_cases hki : k = i
      · rw [hji, hki]
      · subst hji
        rw [hch.dev, hch.other k hki] at hdev
        rw [hch.ino, hch.other k hki] at hino
        rw [hch.ino] at hj
        exact absurd (hfree k hki hdev.symm hino.symm) hj
    · by_cases hki : k = i
      · subst hki
        rw [hch.dev, hch.other j hji] at hdev
        rw [hch.ino, hch.other j hji] at hino
        rw [hch.other j hji, hino] at hj
        exact absurd (hfree j hji hdev hino) hj
      · rw [hch.other j hji] at hj hdev hino
        rw [hch.other k hki] at hdev hino
        exact h.unique j k hj hdev hino
  count j := by
    rw [references_append]
    by_cases hji : j = i
    · subst hji
      have hj := h.count j
      have hlt : (c.inodes j).count.toNat + 1 < 2 ^ 32 := by omega
      rw [hch.count, hcount, toNat_add, Act.adds, if_pos rfl, ← hj]
      simp only [ofNat_eq_ofNat, toNat_ofNat]
      omega
    · rw [hch.other j hji, h.count, Act.adds, if_neg (by simpa using Ne.symm hji), add_zero]

lemma Inv.get (h : Inv acts c) (hfew : ∀ i, references (acts ++ [.get dev ino alloc r]) i < 2 ^ 32)
    (hino : ino ≠ 0) (hrun : (getInode dev ino alloc).run c = .ok (r, c')) :
    Inv (acts ++ [.get dev ino alloc r]) c' := by
  have hlt : ∀ i, r = some i → references acts i + 1 < 2 ^ 32 := by
    rintro i rfl
    have := hfew i
    rwa [references_append, Act.adds, if_pos rfl] at this
  rcases getInode_cases hrun with ⟨i, hfind, rfl, hch⟩ | ⟨hmiss, hlru, ⟨rfl, rfl⟩ | ⟨i, rfl, hch⟩⟩
  · have hi := find?_some hfind
    simp only [decide_eq_true_eq] at hi
    apply h.addReference hch rfl (hlt i rfl)
    intro j hj hdev hino'
    exact absurd (h.unique j i (by rw [hino', hi.1]; exact hino) hdev hino') hj
  · exact h.same (fun i => by simp [Act.adds]) rfl fun _ => ⟨rfl, rfl, rfl⟩
  · obtain ⟨xs, hspells, hmem⟩ := h.order
    rw [hspells.search_prev _ hspells.length_le] at hlru
    have hzero : (c.inodes i).count = 0 := by simpa using find?_some hlru
    refine h.addReference hch (by rw [hzero]; rfl) (hlt i rfl) ?_
    intro j _ hdev hino'
    have := find?_eq_none.mp hmiss j (mem_finRange j)
    simp only [decide_eq_true_eq] at this
    exact absurd ⟨hino', hdev⟩ this

lemma Inv.put (h : Inv acts c) (hpos : 0 < references acts i)
    (hrun : (putInode i free).run c = .ok ((), c')) : Inv (acts ++ [.put i free]) c' := by
  rcases putInode_cases hrun with ⟨hzero, -⟩ | ⟨hne, hch⟩
  · have := h.count i
    rw [hzero] at this
    simp at this
    omega
  · have hkey := hch.key rfl rfl
    refine ⟨?_, fun j k => ?_, fun j => ?_⟩
    · obtain ⟨xs, hspells, hmem⟩ := h.order
      rw [hch.links, Icache.releasedLinks]
      split
      · exact ⟨_, hspells.toFront (hmem i), fun j => mem_toFront (hmem j)⟩
      · exact ⟨xs, hspells, hmem⟩
    · rw [(hkey j).1, (hkey j).2, (hkey k).1, (hkey k).2]
      exact h.unique j k
    · rw [references_append]
      by_cases hj : j = i
      · subst hj
        have hj := h.count j
        rw [hch.count, toNat_sub, Act.adds, if_pos rfl, ← hj]
        simp only [ofNat_eq_ofNat, toNat_ofNat]
        omega
      · rw [hch.other j hj, h.count, Act.adds, if_neg (Ne.symm hj), add_zero]

/-- What an action of a lawful run with few references keeps to. -/
def Allowed (before : List Act) (a : Act) : Prop :=
  (∀ i, references (before ++ [a]) i < 2 ^ 32) ∧ match a with
    | .get _ ino _ _ => ino ≠ 0
    | .put i _ => 0 < references before i
    | _ => True

lemma Inv.step (h : Inv acts c) (ha : Allowed acts a) (hs : Step c a c') :
    Inv (acts ++ [a]) c' := by
  cases hs with
  | get hrun => exact h.get ha.1 ha.2 hrun
  | put hrun => exact h.put ha.2 hrun
  | @fill i =>
    refine h.same (fun _ => rfl) rfl fun j => ?_
    by_cases hj : j = i
    · subst hj
      rw [set_self]
      exact ⟨rfl, rfl, rfl⟩
    · rw [set_of_ne hj]
      exact ⟨rfl, rfl, rfl⟩
  | other => exact h.same (fun _ => rfl) rfl fun _ => ⟨rfl, rfl, rfl⟩

lemma inv_run (hr : Run Step (icacheInit m) acts c) (hlaw : Lawful acts)
    (hfew : Few acts) : Inv acts c := by
  refine hr.history Inv Allowed (fun _ _ _ _ h ha hs => h.step ha hs) (inv_icacheInit m) ?_
  intro before a after he
  refine ⟨fun i => hfew (before ++ [a]) after i ?_, hlaw before a after he⟩
  rw [he, append_assoc, singleton_append]

lemma Inv.identity (h : Inv acts c) (hi : (c.inodes i).count ≠ 0) (hs : Step c a c') :
    (c'.inodes i).dev = (c.inodes i).dev ∧ (c'.inodes i).ino = (c.inodes i).ino := by
  cases hs with
  | get hrun =>
    rcases getInode_cases hrun with ⟨j, -, -, hch⟩ | ⟨-, hlru, ⟨-, rfl⟩ | ⟨j, rfl, hch⟩⟩
    · exact hch.key rfl rfl i
    · exact ⟨rfl, rfl⟩
    · -- the slot that is taken over has no references
      obtain ⟨xs, hspells, -⟩ := h.order
      rw [hspells.search_prev _ hspells.length_le] at hlru
      have hzero : (c.inodes j).count = 0 := by simpa using find?_some hlru
      have hij : i ≠ j := by
        rintro rfl
        exact hi hzero
      rw [hch.other i hij]
      exact ⟨rfl, rfl⟩
  | @put _ j _ hrun =>
    rcases putInode_cases hrun with ⟨-, rfl⟩ | ⟨-, hch⟩
    · exact ⟨rfl, rfl⟩
    · exact hch.key rfl rfl i
  | fill => exact changes_set.key (by rfl) (by rfl) i
  | other => exact ⟨rfl, rfl⟩

/-- `get_inode` finds the slot of an inode that is cached. -/
lemma Inv.get_cached (h : Inv acts c) (hi : (c.inodes i).ino ≠ 0)
    (hs : Step c (.get (c.inodes i).dev (c.inodes i).ino alloc r) c') : r = some i := by
  cases hs with
  | get hrun =>
    have hfind := h.find_unique hi ⟨rfl, rfl⟩
    rcases getInode_cases hrun with ⟨j, hj, rfl, -⟩ | ⟨hmiss, -⟩
    · rw [← hj, hfind]
    · rw [hmiss] at hfind
      cases hfind

end Steps

/-! ## The cache of the path walk -/

/-- The list-level cache has the same slots, and the order that the links spell from `head.prev`
on. -/
structure Represents (c : Icache) (d : Namei.Icache) : Prop where
  slot : ∀ i, d.slot i = (c.inodes i).toSlot
  order : Spells c.links d.order.reverse
  mem : ∀ i, i ∈ d.order

/-- What an action does to the cache of the path walk. -/
def Act.onList (d : Namei.Icache) : Act → Namei.Icache
  | .get dev ino _ _ => ((Namei.getInode d ⟨dev, ino⟩).map Prod.snd).getD d
  | .put i _ => Namei.putInode d i
  | .fill i nlinks type _ _ => d.set i { d.slot i with nlinks := nlinks.toNat, type }
  | .other _ => d

section Refinement

variable {c c' : Icache} {d : Namei.Icache} {dev ino : BitVec 32} {alloc : Bool} {i : SlotId}

lemma Represents.set (h : Represents c d) (hch : Changes c c' i e) :
    Represents c' (d.set i e.toSlot) where
  slot j := by
    by_cases hj : j = i
    · subst hj
      rw [Namei.set_slot_self]
      simp only [toSlot, hch.dev, hch.ino, hch.count, hch.nlinks, hch.type]
    · rw [Namei.set_slot_of_ne hj, h.slot, hch.other j hj]
  order := hch.links ▸ h.order
  mem := h.mem

/-- `get_inode` on the pointers is `get_inode` of the path walk. -/
lemma getInode_refines (h : Represents c d) (hrun : (getInode dev ino alloc).run c = .ok (r, c')) :
    r = (Namei.getInode d ⟨dev, ino⟩).map Prod.fst ∧
      Represents c' (Act.onList d (.get dev ino alloc r)) := by
  have hkey : (fun i => decide ((d.slot i).key = ⟨dev, ino⟩)) =
      fun i => decide ((c.inodes i).ino = ino ∧ (c.inodes i).dev = dev) := by
    funext i
    simp [h.slot, toSlot, and_comm]
  have hzero : (fun i => decide ((d.slot i).count = 0)) = fun i =>
    decide ((c.inodes i).count = 0) := by
    funext i
    simp [h.slot, toSlot, toNat_eq]
  rw [Act.onList, Namei.getInode, hkey, hzero]
  rcases getInode_cases hrun with ⟨i, hfind, rfl, hch⟩ | ⟨hmiss, hs, hr⟩
  · have hset := h.set hch
    have hcount : ((c.inodes i).count + 1).toNat = ((d.slot i).count + 1) % 2 ^ 32 := by
      rw [h.slot, toNat_add]
      rfl
    rw [toSlot, hcount] at hset
    simp only [hfind, h.slot] at hset ⊢
    exact ⟨rfl, hset⟩
  · rw [h.order.search_prev _ h.order.length_le, reverse_reverse] at hs
    rw [hmiss, hs]
    rcases hr with ⟨rfl, rfl⟩ | ⟨i, rfl, hch⟩
    · exact ⟨rfl, h⟩
    · simp only [h.slot]
      exact ⟨rfl, h.set hch⟩

/-- `put_inode` on the pointers is `put_inode` of the path walk. -/
lemma putInode_refines (h : Represents c d)
    (hrun : (putInode i free).run c = .ok ((), c')) : Represents c' (Namei.putInode d i) := by
  have hlast : (c.inodes i).count = 1 ∧ (c.inodes i).nlinks = 0 ↔
      (d.slot i).count = 1 ∧ (d.slot i).nlinks = 0 := by
    simp [h.slot, toSlot, toNat_eq]
  have hzero : (c.inodes i).count = 0 ↔ (d.slot i).count = 0 := by
    simp [h.slot, toSlot, toNat_eq]
  rcases putInode_cases hrun with ⟨hc, rfl⟩ | ⟨hne, hch⟩
  · rw [hzero] at hc
    simpa [Namei.putInode, hc] using h
  · rw [ne_eq, hzero] at hne
    have hslot : VfsInode.toSlot { c.inodes i with count := (c.inodes i).count - 1 } =
        { d.slot i with count := (d.slot i).count - 1 } := by
      simp only [h.slot, toSlot, toNat_sub, ofNat_eq_ofNat, toNat_ofNat, Namei.Slot.mk.injEq,
        true_and, and_true] at hne ⊢
      omega
    simp only [Icache.releasedLinks, hlast] at hch
    rw [Namei.putInode, if_neg hne]
    split at hch
    · rename_i hl
      have hmoved : Represents { c with links := (c.links.remove i).pushFront i }
          { d with order := d.order.erase i ++ [i] } := by
        have hnd := nodup_reverse.mp h.order.nodup
        have hrev : d.order.reverse.erase i = (d.order.erase i).reverse := by
          rw [hnd.erase_eq_filter, h.order.nodup.erase_eq_filter, filter_reverse]
        refine ⟨h.slot, ?_, fun j => ?_⟩
        · rw [reverse_append, reverse_singleton, singleton_append, ← hrev]
          exact h.order.toFront (mem_reverse.mpr (h.mem i))
        · have := mem_toFront (b := i) (h.mem j)
          simpa [or_comm] using this
      have hset := hmoved.set hch
      rw [hslot, hl.1] at hset
      rwa [if_pos hl]
    · rename_i hl
      rw [if_neg hl, ← hslot]
      exact h.set hch

lemma Represents.step (h : Represents c d) (hs : Step c a c') : Represents c' (a.onList d) := by
  cases hs with
  | get hrun => exact (getInode_refines h hrun).2
  | put hrun => exact putInode_refines h hrun
  | fill =>
    simp only [Act.onList, h.slot]
    exact h.set changes_set
  | other => exact ⟨h.slot, h.order, h.mem⟩

/-- A run on the slots and the links is a run on the list: every `get_inode` returns the slot of the
list-level one, and the links spell the list. -/
theorem icache_refines_list (h : Represents c d) (hr : Run Step c acts c') :
    Represents c' (acts.foldl Act.onList d) ∧
    ∀ pre post dev ino alloc r, acts = pre ++ .get dev ino alloc r :: post →
      r = (Namei.getInode (pre.foldl Act.onList d) ⟨dev, ino⟩).map Prod.fst := by
  induction hr generalizing d with
  | nil => exact ⟨h, by simp⟩
  | @cons c c₁ _ a acts hs _ ih =>
    obtain ⟨hend, hret⟩ := ih (h.step hs)
    refine ⟨hend, fun pre post dev ino alloc r he => ?_⟩
    cases pre with
    | nil =>
      obtain ⟨rfl, rfl⟩ := cons.inj he
      cases hs with
      | get hrun => exact (getInode_refines h hrun).1
    | cons b pre =>
      obtain ⟨rfl, rfl⟩ := cons.inj he
      exact hret pre post dev ino alloc r rfl

end Refinement

/-- While fewer than `2 ^ 32` references to each slot are outstanding, whatever the callers do: no
two slots carry the same inode; `get_inode` of an inode in a referenced slot returns that slot, and
the slot keeps its identity; the count is the number of references; and the list holds every slot
once. -/
theorem icache_consistent {m : Machine} {acts : List Act} {c : Icache}
    (hr : Run Step (icacheInit m) acts c) (hlaw : Lawful acts) (hfew : Few acts) :
    (∀ i j, (c.inodes i).ino ≠ 0 → (c.inodes i).dev = (c.inodes j).dev →
      (c.inodes i).ino = (c.inodes j).ino → i = j) ∧
    (∀ i, 0 < (c.inodes i).count →
      (∀ alloc r c', (c.inodes i).ino ≠ 0 →
        Step c (.get (c.inodes i).dev (c.inodes i).ino alloc r) c' → r = some i) ∧
      ∀ a c', Step c a c' →
        (c'.inodes i).dev = (c.inodes i).dev ∧ (c'.inodes i).ino = (c.inodes i).ino) ∧
    (∀ i, ((c.inodes i).count.toNat : Int) = references acts i) ∧
    ∃ xs, Spells c.links xs ∧ xs.Perm (List.finRange ninodes) := by
  have h := inv_run hr hlaw hfew
  refine ⟨h.unique, fun i hi => ⟨fun _ _ _ hino hs => h.get_cached hino hs, fun _ _ hs => ?_⟩,
    h.count, ?_⟩
  · apply h.identity _ hs
    rintro hzero
    simp [hzero] at hi
  · obtain ⟨xs, hspells, hmem⟩ := h.order
    exact ⟨xs, hspells, hspells.perm hmem⟩

def noPages : Machine := ⟨fun _ _ => 0, [], 0, fun _ => 0, [], 0, 0, []⟩

/-- The slot at the end of the list. -/
def lastSlot : SlotId := ⟨0, Namei.ninodes_pos⟩

/-- The cache after `n` lookups of the inode 7 of device 1. -/
def afterGets (n : Nat) : Icache :=
  (icacheInit noPages).set lastSlot ⟨1, 7, BitVec.ofNat 32 n, 0, .file, 0, false⟩

lemma step_first : Step (icacheInit noPages) (.get 1 7 false (some lastSlot)) (afterGets 1) :=
  .get rfl

lemma find_afterGets (n : Nat) :
    (finRange ninodes).find? (fun i => ((afterGets n).inodes i).ino = 7 ∧
      ((afterGets n).inodes i).dev = 1) = some lastSlot := by
  rw [show finRange ninodes = lastSlot :: (finRange 49).map Fin.succ from finRange_succ]
  rw [find?_cons_of_pos]
  simp [afterGets]

lemma step_again (n : Nat) :
    Step (afterGets n) (.get 1 7 false (some lastSlot)) (afterGets (n + 1)) := by
  apply Step.get
  unfold getInode
  rw [run_bind_ok (run_get _), find_afterGets]
  have hhit : (hit lastSlot ((afterGets n).inodes lastSlot) false).run (afterGets n) =
      .ok ((), afterGets (n + 1)) := by
    have hset : ∀ k : BitVec 32, k = ofNat 32 (n + 1) →
        (afterGets n).set lastSlot ⟨1, 7, k, 0, .file, 0, false⟩ = afterGets (n + 1) := by
      rintro k rfl
      simp [afterGets, Icache.set]
    unfold hit attachData
    split
    · simp only [setInode, run_modify]
      rw [← hset ((ofNat 32 n) + 1) (by rw [ofNat_add]; rfl)]
      simp [afterGets]
    · rename_i hzero
      have hn : ofNat 32 n = 0 := by
        rw [afterGets, set_self] at hzero
        apply BitVec.eq_of_toNat_eq
        simpa [BitVec.lt_def] using hzero
      simp only [Bool.false_eq_true, and_false, if_false, setInode, run_modify]
      rw [← hset 1 (by rw [ofNat_add, hn]; rfl)]
      simp [afterGets]
  rw [run_bind_ok hhit]
  rfl

lemma run_gets (n : Nat) :
    Run Step (icacheInit noPages) (replicate (n + 1) (.get 1 7 false (some lastSlot)))
      (afterGets (n + 1)) := by
  induction n with
  | zero => exact .cons step_first (.nil _)
  | succ n ih =>
    rw [replicate_succ']
    exact ih.append (.cons (step_again (n + 1)) (.nil _))

lemma one_lt_ninodes : 1 < ninodes := by decide

/-- The inode 7 is looked up twice and released once, and the inode 8 takes the next slot. -/
def lookups : List Act :=
  [.get 1 7 false (some lastSlot), .get 1 7 false (some lastSlot), .put lastSlot false,
    .get 1 8 false (some ⟨1, one_lt_ninodes⟩)]

lemma run_lookups : ∃ c, Run Step (icacheInit noPages) lookups c :=
  ⟨_, (run_gets 1).append (.cons (.put rfl) (.cons (.get rfl) (.nil _)))⟩

theorem icache_refines_list_lookups : ∃ c d, Run Step (icacheInit noPages) lookups c ∧
    Represents (icacheInit noPages) d ∧ Represents c (lookups.foldl Act.onList d) := by
  have h : Represents (icacheInit noPages) ⟨fun _ => ⟨⟨0, 0⟩, 0, 0, .file⟩, finRange ninodes⟩ :=
    ⟨fun _ => rfl, spells_finRange _, mem_finRange⟩
  obtain ⟨c, hrun⟩ := run_lookups
  exact ⟨c, _, hrun, h, (icache_refines_list h hrun).1⟩

/-- After `2 ^ 32` lookups of an inode, all references being outstanding, the count of its slot is
0, and a lookup of another inode takes the slot. -/
theorem icache_wraps :
    ∃ acts c c', Run Step (icacheInit noPages) acts c ∧ Lawful acts ∧
      references acts lastSlot = 2 ^ 32 ∧ (c.inodes lastSlot).count = 0 ∧
      (c.inodes lastSlot).ino = 7 ∧ Step c (.get 1 8 false (some lastSlot)) c' ∧
      (c'.inodes lastSlot).ino = 8 := by
  obtain ⟨n, hn⟩ : ∃ n, n + 1 = 2 ^ 32 := ⟨2 ^ 32 - 1, by decide⟩
  have hzero : afterGets (n + 1) = afterGets 0 := by
    rw [hn, afterGets, afterGets]
    rfl
  have hrun := run_gets n
  rw [hzero] at hrun
  refine ⟨_, afterGets 0, (afterGets 0).set lastSlot ⟨1, 8, 1, 0, .file, 0, false⟩, hrun,
    ?_, ?_, rfl,
    rfl, .get rfl, rfl⟩
  · intro before a after he
    have ha := eq_of_mem_replicate (he ▸ mem_append_right before mem_cons_self)
    subst ha
    exact (by decide : (7 : BitVec 32) ≠ 0)
  · simp only [references, map_replicate, Act.adds, if_pos, sum_replicate_int, hn]
    rfl

lemma split_lookups {before rest : List Act} (he : lookups = before ++ rest) :
    ∃ n ≤ 4, before = lookups.take n ∧ lookups.drop n = rest := by
  refine ⟨before.length, ?_, by rw [he, take_left], by rw [he, drop_left]⟩
  have hlen : 4 = before.length + rest.length := by rw [← length_append, ← he]; rfl
  omega

/-- After two lookups and a release, one reference is left. -/
theorem icache_consistent_lookups : ∃ c, Run Step (icacheInit noPages) lookups c ∧
    ((c.inodes lastSlot).count.toNat : Int) = 1 := by
  have hlaw : Lawful lookups := by
    intro before a after he
    obtain ⟨n, hn, rfl, hdrop⟩ := split_lookups he
    interval_cases n <;> cases hdrop <;> decide
  have hfew : Few lookups := by
    intro before after i he
    obtain ⟨n, hn, rfl, -⟩ := split_lookups he
    interval_cases n <;> decide +revert
  obtain ⟨c, hrun⟩ := run_lookups
  exact ⟨c, hrun, (icache_consistent hrun hlaw hfew).2.2.1 lastSlot⟩

end FrostVista.Kernel.InodeCache
