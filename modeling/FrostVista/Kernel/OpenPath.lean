import FrostVista.Kernel.Namei
import Mathlib.Data.Fintype.Card
import Mathlib.Data.List.Find

/-!
# Opening a path

`openat(AT_FDCWD, path, O_RDONLY)` against `vfs_namei`, which `chdir` and others use. Both walk the
path with `vfs_lookup_at`, but `resolve_open_path` hands an absolute path over as it is, so that `.`
and `..` are looked up like names, while `vfs_namei` walks the canonical path. The file systems
differ in whether their directories have entries for `.` and `..`.

A walk through the inode cache is compared with a walk on the objects: the inodes, identified by
device and number, and the static nodes.
-/
namespace FrostVista.Kernel.Namei

open Lib.Paths Ftable List Option Marks

/-- `resolve_open_path` for `AT_FDCWD` -/
def resolveOpenPath (cwd path : List Byte) : List Byte :=
  if path.head? = some slash then path.take (pathMax - 1) else vfsMakeAbsolutePath cwd path

/-- The node that `openat(AT_FDCWD, path, O_RDONLY)` opens. -/
def openat (fs : Fs) (s : Inodes) (cwd path : List Byte) : Option Node × Inodes :=
  if path = [] then (none, s) else vfsLookupAt fs s fs.root (resolveOpenPath cwd path)

inductive Obj where
  | disk (key : Key)
  | static (k : Nat)
  deriving DecidableEq

/-- The object that a node stands for. -/
def objectOf (c : Icache) : Node → Obj
  | .cached i => .disk (c.slot i).key
  | .static k => .static k

/-- The directory that a path names, if it names one. -/
def directory (fs : Fs) : Option Node × Inodes → Option Obj
  | (some node, s) =>
    if typeOf fs s.cache node = .dir then some (objectOf s.cache node) else none
  | (none, _) => none

/-! ## The tree of objects -/

def Child.object : Child → Obj
  | .disk key _ _ => .disk key
  | .static k => .static k

/-- The types of the objects; `kind` gives those of the inodes. -/
def Fs.typeObj (fs : Fs) (kind : Key → NodeType) : Obj → NodeType
  | .disk key => kind key
  | .static k => fs.staticType k

def Fs.entry (fs : Fs) : Obj → Name → Option Child
  | .disk key, name => fs.diskEntry key name
  | .static k, name => fs.staticEntry k name

/-- One component of the walk, on objects. -/
def Fs.child (fs : Fs) (kind : Key → NodeType) (c : Icache) (o : Obj) (name : Name) : Option Obj :=
  if dirBit (fs.typeObj kind o) then
    match fs.mounts.find? fun m => objectOf c m.parent = o ∧ sameName m.name name with
    | some m => some (objectOf c m.root)
    | none => (fs.entry o name).map Child.object
  else none

/-- A reference is held for the nodes of the mount table. -/
def Pinned (fs : Fs) (node : Node) : Prop :=
  node = fs.root ∨ ∃ m ∈ fs.mounts, node = m.parent ∨ node = m.root

/-- The node is referenced, or outside the cache. -/
def Live (c : Icache) : Node → Prop
  | .cached i => 0 < (c.slot i).count
  | .static _ => True

/-- What the cache keeps to. -/
structure Ready (fs : Fs) (kind : Key → NodeType) (c : Icache) : Prop where
  order : ∀ i, i ∈ c.order
  unique : ∀ i j, (c.slot i).key.ino ≠ 0 → (c.slot i).key = (c.slot j).key → i = j
  number : ∀ i, 0 < (c.slot i).count → (c.slot i).key.ino ≠ 0
  typed : ∀ i, 0 < (c.slot i).count → (c.slot i).type = kind (c.slot i).key
  pinned : ∀ node, Pinned fs node → Live c node

/-- The slots without references. -/
def unused (c : Icache) : Finset (Fin ninodes) := Finset.univ.filter fun i => (c.slot i).count = 0

/-- Room for a walk over `n` components: each may take an unused slot or raise a count. -/
structure Room (c : Icache) (n : Nat) : Prop where
  slots : n ≤ (unused c).card
  counts : Few c n

/-- Nodes in use stay in use, for the same object. -/
structure Grown (c d : Icache) : Prop where
  live : ∀ i, 0 < (c.slot i).count → 0 < (d.slot i).count
  key : ∀ i, 0 < (c.slot i).count → (d.slot i).key = (c.slot i).key

section Walk

variable {fs : Fs} {kind : Key → NodeType} {c d : Icache} {node : Node}
  {key : Key} {i : Fin ninodes}

lemma Grown.refl (c : Icache) : Grown c c := ⟨fun _ h => h, fun _ _ => rfl⟩

lemma Grown.trans {e : Icache} (h : Grown c d) (h' : Grown d e) : Grown c e :=
  ⟨fun i hi => h'.live i (h.live i hi), fun i hi => (h'.key i (h.live i hi)).trans (h.key i hi)⟩

lemma Grown.liveNode (h : Grown c d) (hn : Live c node) : Live d node := by
  cases node with
  | cached i => exact h.live i hn
  | static k => trivial

/-- What a lookup does to the cache: the slot of the inode is referenced and filled. -/
def fetched (c : Icache) (i : Fin ninodes) (key : Key) (type : NodeType) (nlinks : Nat) : Icache :=
  c.set i ⟨key, ((c.slot i).count + 1) % 2 ^ 32, nlinks, type⟩

section Fetch

variable {type : NodeType} {nlinks : Nat}
  (hi : (c.slot i).key = key ∨ (c.slot i).count = 0 ∧ ∀ j, (c.slot j).key ≠ key)
  (hfew : Few c 1)

omit hi in
include hfew in
lemma count_fetched : ((fetched c i key type nlinks).slot i).count = (c.slot i).count + 1 := by
  rw [fetched, set_slot_self]
  exact Nat.mod_eq_of_lt (hfew i)

include hi hfew

lemma grown_fetched : Grown c (fetched c i key type nlinks) := by
  constructor
  · intro j hj
    by_cases hji : j = i
    · subst hji
      rw [count_fetched hfew]
      exact Nat.succ_pos _
    · rwa [fetched, set_slot_of_ne hji]
  · intro j hj
    by_cases hji : j = i
    · subst hji
      rcases hi with hkey | ⟨hzero, -⟩
      · simp [fetched, hkey]
      · omega
    · rw [fetched, set_slot_of_ne hji]

lemma Ready.fetched (h : Ready fs kind c) (hno : key.ino ≠ 0) (htype : type = kind key) :
    Ready fs kind (fetched c i key type nlinks) where
  order := h.order
  unique j j' hj he := by
    by_cases hji : j = i
    · by_cases hji' : j' = i
      · rw [hji, hji']
      · subst hji
        rw [Namei.fetched, set_slot_self, set_slot_of_ne hji'] at he
        rcases hi with hkey | ⟨-, hnone⟩
        · exact h.unique j j' (hkey ▸ hno) (hkey.trans he)
        · exact absurd he.symm (hnone j')
    · rw [Namei.fetched, set_slot_of_ne hji] at hj he
      by_cases hji' : j' = i
      · subst hji'
        rw [set_slot_self] at he
        rcases hi with hkey | ⟨-, hnone⟩
        · exact h.unique j j' hj (he.trans hkey.symm)
        · exact absurd he (hnone j)
      · rw [set_slot_of_ne hji'] at he
        exact h.unique j j' hj he
  number j hj := by
    by_cases hji : j = i
    · subst hji
      rwa [Namei.fetched, set_slot_self]
    · rw [Namei.fetched, set_slot_of_ne hji] at hj ⊢
      exact h.number j hj
  typed j hj := by
    by_cases hji : j = i
    · subst hji
      rwa [Namei.fetched, set_slot_self]
    · rw [Namei.fetched, set_slot_of_ne hji] at hj ⊢
      exact h.typed j hj
  pinned n hn := (grown_fetched hi hfew).liveNode (h.pinned n hn)

end Fetch

lemma Room.fetched (h : Room c (n + 1)) (i : Fin ninodes) (key : Key) (type : NodeType)
    (nlinks : Nat) : Room (fetched c i key type nlinks) n where
  slots := by
    have hsub : (unused c).erase i ⊆ unused (Namei.fetched c i key type nlinks) := by
      intro j hj
      obtain ⟨hji, hj⟩ := Finset.mem_erase.mp hj
      simp only [unused, Finset.mem_filter, Finset.mem_univ, true_and] at hj ⊢
      rwa [Namei.fetched, set_slot_of_ne hji]
    have hcard := Finset.card_le_card hsub
    have herase := Finset.pred_card_le_card_erase (s := unused c) (a := i)
    have := h.slots
    omega
  counts j := by
    have hj := h.counts j
    by_cases hji : j = i
    · subst hji
      rw [count_fetched (h.counts.mono (by omega))]
      omega
    · rw [Namei.fetched, set_slot_of_ne hji]
      omega

lemma Room.mono (h : Room c n) (hm : m ≤ n) : Room c m := ⟨hm.trans h.slots, h.counts.mono hm⟩

end Walk

/-! ## The two ways to a directory -/

section Agreement

variable {fs : Fs} {kind : Key → NodeType} {s : Inodes}

end Agreement

end FrostVista.Kernel.Namei
