import FrostVista.Kernel.FileTable

/-!
# Path resolution and the inode cache

`vfs_lookup_at`, `vfs_namei` and `vfs_iput` of `kernel/fs/vfs.c` over the inode cache of
`kernel/fs/inode_cache.c`. A lookup in a file system returns an inode of the cache with one
reference more; mount roots and the inodes of devtmpfs are static objects outside the cache, and a
walk takes no reference to them. The walk gives back none of the references it takes on the way.

A directory tree is given by the entries of its directories. The locks, the private data of the
inodes and the memory they need are not modelled.
-/
namespace FrostVista.Kernel.Namei

open Ftable Function List Nat

abbrev Name := List Byte

def ninodes : Nat := 50

lemma ninodes_pos : 0 < ninodes := by decide

structure Key where
  dev : BitVec 32
  ino : BitVec 32
  deriving DecidableEq

/-- The fields of a cached `struct vfs_inode` that the walk uses; `count` is a `uint32`. -/
structure Slot where
  key : Key
  count : Nat
  nlinks : Nat
  type : NodeType
  deriving DecidableEq

/-- `struct inode_cache`; `order` lists the slots from `head.prev` on. -/
structure Icache where
  slot : Fin ninodes → Slot
  order : List (Fin ninodes)

def Icache.set (c : Icache) (i : Fin ninodes) (s : Slot) : Icache :=
  { c with slot := update c.slot i s }

def getInode (c : Icache) (key : Key) : Option (Fin ninodes × Icache) :=
  match (List.finRange ninodes).find? fun i => (c.slot i).key = key with
  | some i => some (i, c.set i { c.slot i with count := ((c.slot i).count + 1) % 2 ^ 32 })
  | none =>
    match c.order.find? fun i => (c.slot i).count = 0 with
    | some i => some (i, c.set i { c.slot i with key := key, count := 1 })
    | none => none

def putInode (c : Icache) (i : Fin ninodes) : Icache :=
  if (c.slot i).count = 1 ∧ (c.slot i).nlinks = 0 then
    -- the slot moves to the most recently used position
    { c.set i { c.slot i with count := 0 } with order := c.order.erase i ++ [i] }
  else if (c.slot i).count = 0 then c
  else c.set i { c.slot i with count := (c.slot i).count - 1 }

/-- An inode of the cache, or a static object. -/
inductive Node where
  | cached (i : Fin ninodes)
  | static (k : Nat)
  deriving DecidableEq

/-- What a lookup finds in a directory: the number of an inode with its type and its links, or a
static object. -/
inductive Child where
  | disk (key : Key) (type : NodeType) (nlinks : Nat)
  | static (k : Nat)

structure Mount where
  parent : Node
  name : Name
  root : Node

/-- The mounted file systems. -/
structure Fs where
  root : Node
  mounts : List Mount
  staticType : Nat → NodeType
  /-- `ops->lookup` of the directory with this number. -/
  diskEntry : Key → Name → Option Child
  /-- `ops->lookup` of a static directory. -/
  staticEntry : Nat → Name → Option Child
  /-- Releasing the static object lowers its count. -/
  counted : Nat → Bool

/-- The reference counts of the cached and of the static inodes. -/
structure Inodes where
  cache : Icache
  statics : Nat → Nat

def dirsiz : Nat := 24

/-- `namecmp(s, t) == 0` -/
def sameName (s t : Name) : Bool := s.take dirsiz == t.take dirsiz

lemma sameName_iff (h : x.length < dirsiz) : sameName name x = true ↔ name = x := by
  rw [sameName, beq_iff_eq, take_of_length_le h.le]
  constructor
  · intro heq
    have hlen := congrArg length heq
    rw [length_take] at hlen
    rw [← heq, take_of_length_le (by omega)]
  · rintro rfl
    exact take_of_length_le h.le

def vfsLookupMount (fs : Fs) (parent : Node) (name : Name) : Option Node :=
  (fs.mounts.find? fun m => m.parent = parent ∧ sameName m.name name).map Mount.root

def typeOf (fs : Fs) (c : Icache) : Node → NodeType
  | .cached i => (c.slot i).type
  | .static k => fs.staticType k

/-- `type & VFS_DIR`: `VFS_DEV` is `0x0011` and has the bit too. -/
def dirBit (type : NodeType) : Bool := type = .dir ∨ type = .dev

/-- The directory entry that `ops->lookup` finds. -/
def entryOf (fs : Fs) (c : Icache) : Node → Name → Option Child
  | .cached i, name => fs.diskEntry (c.slot i).key name
  | .static k, name => fs.staticEntry k name

/-- `current->ops->lookup(current, name, 0)` -/
def lookup (fs : Fs) (c : Icache) (current : Node) (name : Name) : Option (Node × Icache) :=
  match entryOf fs c current name with
  | none => none
  | some (.static k) => some (.static k, c)
  | some (.disk key type nlinks) =>
    match getInode c key with
    | none => none
    | some (i, c) => some (.cached i, c.set i { c.slot i with type := type, nlinks := nlinks })

/-- The loop of `vfs_lookup_at` over the components of the path. -/
def walk (fs : Fs) : Icache → Node → List Name → Option Node × Icache
  | c, current, [] => (some current, c)
  | c, current, name :: names =>
    if dirBit (typeOf fs c current) = false then (none, c)
    else
      match vfsLookupMount fs current name with
      | some root => walk fs c root names
      | none =>
        match lookup fs c current name with
        | none => (none, c)
        | some (next, c) => walk fs c next names

/-- `skipelem`: the next component and the rest of the path. -/
def skipelem (path : List Byte) : Option (Name × List Byte) :=
  let path := path.dropWhile (· = slash)
  if path = [] then none
  else
    some ((path.takeWhile (· ≠ slash)).take (pathMax - 1),
      (path.dropWhile (· ≠ slash)).dropWhile (· = slash))

/-- The components in the order in which repeated calls of `skipelem` return them; every call
consumes at least one byte. -/
def elements : Nat → List Byte → List Name
  | 0, _ => []
  | n + 1, path =>
    match skipelem path with
    | none => []
    | some (name, rest) => name :: elements n rest

/-- `current->count++` -/
def addReference (s : Inodes) : Node → Inodes
  | .cached i =>
    let count := ((s.cache.slot i).count + 1) % 2 ^ 32
    { s with cache := s.cache.set i { s.cache.slot i with count } }
  | .static k => { s with statics := update s.statics k ((s.statics k + 1) % 2 ^ 32) }

def vfsLookupAt (fs : Fs) (s : Inodes) (node : Node) (path : List Byte) : Option Node × Inodes :=
  let names := elements path.length path
  let (result, cache) := walk fs s.cache node names
  let s := { s with cache := cache }
  if names = [] ∧ node = fs.root then (result, addReference s node) else (result, s)

/-- `vfs_namei` of a process with the working directory `cwd`. -/
def vfsNamei (fs : Fs) (s : Inodes) (cwd path : List Byte) : Option Node × Inodes :=
  if path = [] then (none, s) else vfsLookupAt fs s fs.root (vfsMakeAbsolutePath cwd path)

def vfsIput (fs : Fs) (s : Inodes) : Node → Inodes
  | .cached i => { s with cache := putInode s.cache i }
  | .static k =>
    if fs.counted k then
      { s with statics := update s.statics k ((s.statics k + 2 ^ 32 - 1) % 2 ^ 32) }
    else s

/-- A path is resolved and the result is released. -/
def resolveAndRelease (fs : Fs) (s : Inodes) (cwd path : List Byte) : Inodes :=
  match vfsNamei fs s cwd path with
  | (some node, s) => vfsIput fs s node
  | (none, s) => s

/-- The components of the absolute path. -/
def pathElements (cwd path : List Byte) : List Name :=
  let path := vfsMakeAbsolutePath cwd path
  elements path.length path

/-! ## References taken and given back -/

/-- Every slot has as many references as before, and a slot with references holds the same inode. -/
def SameReferences (c d : Icache) : Prop :=
  ∀ i, (d.slot i).count = (c.slot i).count ∧
    (0 < (c.slot i).count → (d.slot i).key = (c.slot i).key)

/-- Slot `i` has one reference more. -/
def OneMore (c d : Icache) (i : Fin ninodes) : Prop :=
  ∀ j, (d.slot j).count = (c.slot j).count + (if j = i then 1 else 0) ∧
    (0 < (c.slot j).count → (d.slot j).key = (c.slot j).key)

/-- The counts can grow by `n` without a wrap. -/
def Few (c : Icache) (n : Nat) : Prop := ∀ i, (c.slot i).count + n < 2 ^ 32

lemma SameReferences.refl (c : Icache) : SameReferences c c := fun _ => ⟨rfl, fun _ => rfl⟩

section Cache

variable {c d : Icache} {i : Fin ninodes}

@[simp] lemma set_slot_self (s : Slot) : (c.set i s).slot i = s := update_self ..

lemma set_slot_of_ne (h : j ≠ i) (s : Slot) : (c.set i s).slot j = c.slot j :=
  update_of_ne h ..

lemma Few.mono (h : Few c n) (hm : m ≤ n) : Few c m := fun i => by
  have := h i
  omega

lemma Few.of_oneMore (h : Few c (n + 1)) (hd : OneMore c d i) : Few d n := fun j => by
  have hj := h j
  have := (hd j).1
  split at this <;> omega

lemma getInode_oneMore (hfew : Few c 1) (h : getInode c key = some (i, d)) : OneMore c d i := by
  unfold getInode at h
  split at h
  · cases h
    intro j
    by_cases hj : j = i
    · subst hj
      rw [set_slot_self, if_pos rfl]
      exact ⟨mod_eq_of_lt (hfew j), fun _ => rfl⟩
    · simp [set_slot_of_ne hj, hj]
  · split at h
    · rename_i hfree
      cases h
      have hzero : (c.slot i).count = 0 := by simpa using find?_some hfree
      intro j
      by_cases hj : j = i
      · subst hj
        simp [hzero]
      · simp [set_slot_of_ne hj, hj]
    · cases h

lemma putInode_slot (c : Icache) (i j : Fin ninodes) :
    ((putInode c i).slot j).count = (c.slot j).count - (if j = i then 1 else 0) ∧
      ((putInode c i).slot j).key = (c.slot j).key := by
  unfold putInode
  by_cases hj : j = i
  · subst hj
    split
    · rename_i h
      simp [h.1]
    · split
      · rename_i h
        simp [h]
      · simp
  · rw [if_neg hj]
    split
    · simp [set_slot_of_ne hj]
    · split
      · simp
      · simp [set_slot_of_ne hj]

lemma oneMore_addReference {s : Inodes} (hfew : Few s.cache 1) (i : Fin ninodes) :
    OneMore s.cache (addReference s (.cached i)).cache i := by
  intro j
  by_cases hj : j = i
  · subst hj
    rw [addReference, set_slot_self, if_pos rfl]
    exact ⟨mod_eq_of_lt (hfew j), fun _ => rfl⟩
  · simp [addReference, set_slot_of_ne hj, hj]

lemma OneMore.put (h : OneMore c d i) : SameReferences c (putInode d i) := by
  intro j
  obtain ⟨hcount, hkey⟩ := putInode_slot d i j
  refine ⟨?_, fun hpos => hkey.trans ((h j).2 hpos)⟩
  rw [hcount, (h j).1]
  omega

lemma lookup_cached (hfew : Few c 1) (h : lookup fs c current name = some (.cached i, d)) :
    OneMore c d i := by
  unfold lookup at h
  split at h
  · cases h
  · cases h
  · split at h
    · cases h
    · rename_i k e hget
      cases h
      intro j
      obtain ⟨hcount, hkey⟩ := getInode_oneMore hfew hget j
      by_cases hj : j = i
      · subst hj
        rw [set_slot_self]
        exact ⟨hcount, hkey⟩
      · rw [set_slot_of_ne hj]
        exact ⟨hcount, hkey⟩

lemma lookup_static (h : lookup fs c current name = some (.static k, d)) : d = c := by
  unfold lookup at h
  split at h
  · cases h
  · cases h
    rfl
  · split at h <;> cases h

lemma Few.lookup {next : Node} (hfew : Few c (n + 1))
    (h : lookup fs c current name = some (next, d)) : Few d n := by
  cases next with
  | cached i => exact hfew.of_oneMore (lookup_cached (hfew.mono (by omega)) h)
  | static k =>
    rw [lookup_static h]
    exact hfew.mono (by omega)

end Cache

/-! ## The walk -/

/-- The mount roots are static objects. -/
def StaticRoots (fs : Fs) : Prop := ∀ m ∈ fs.mounts, ∃ k, m.root = .static k

/-- Some component but the last is found by a lookup that returns an inode of the cache. -/
def Pins (fs : Fs) : Icache → Node → List Name → Prop
  | _, _, [] => False
  | c, current, name :: names =>
    dirBit (typeOf fs c current) = true ∧
      match vfsLookupMount fs current name with
      | some root => Pins fs c root names
      | none =>
        match lookup fs c current name with
        | none => False
        | some (.cached i, c) => names ≠ [] ∨ Pins fs c (.cached i) names
        | some (.static k, c) => Pins fs c (.static k) names

section Walk

variable {fs : Fs} {c d : Icache} {current : Node} {names : List Name} {r : Option Node}

lemma static_of_mount (hroots : StaticRoots fs)
    (h : vfsLookupMount fs current name = some root) : ∃ k, root = .static k := by
  obtain ⟨m, hm, rfl⟩ := Option.map_eq_some_iff.mp h
  exact hroots m (mem_of_find?_eq_some hm)

lemma not_pins_singleton : ¬Pins fs c current [name] := by
  rintro ⟨-, h⟩
  split at h
  · exact h
  · split at h <;> simp [Pins] at h

lemma walk_grows (hfew : Few c names.length) (h : walk fs c current names = (r, d))
    (i : Fin ninodes) :
    (c.slot i).count ≤ (d.slot i).count ∧
    (0 < (c.slot i).count → (d.slot i).key = (c.slot i).key) := by
  induction names generalizing c current with
  | nil =>
    cases h
    exact ⟨le_refl _, fun _ => rfl⟩
  | cons name names ih =>
    rw [walk] at h
    split at h
    · cases h
      exact ⟨le_refl _, fun _ => rfl⟩
    split at h
    · exact ih (hfew.mono (by simp)) h
    split at h
    · cases h
      exact ⟨le_refl _, fun _ => rfl⟩
    · rename_i next e hlook
      obtain ⟨hle, hkey⟩ := ih (hfew.lookup hlook) h
      cases next with
      | static k =>
        rw [lookup_static hlook] at hle hkey
        exact ⟨hle, hkey⟩
      | cached j =>
        obtain ⟨hcount, hkey'⟩ := lookup_cached (hfew.mono (by simp)) hlook i
        refine ⟨by omega, fun hpos => ?_⟩
        rw [← hkey' hpos]
        exact hkey (by omega)

lemma walk_result (hroots : StaticRoots fs) (hfew : Few c names.length) (hne : names ≠ [])
    (h : walk fs c current names = (some (.cached i), d)) :
    (c.slot i).count < (d.slot i).count := by
  induction names generalizing c current with
  | nil => exact absurd rfl hne
  | cons name names ih =>
    rw [walk] at h
    split at h
    · cases h
    split at h
    · rename_i root hmount
      obtain ⟨k, rfl⟩ := static_of_mount hroots hmount
      cases names with
      | nil => cases h
      | cons => exact ih (hfew.mono (by simp)) (by simp) h
    split at h
    · cases h
    · rename_i next e hlook
      cases names with
      | nil =>
        cases h
        have := (lookup_cached (hfew.mono (by simp)) hlook i).1
        simp at this
        omega
      | cons =>
        have hlt := ih (hfew.lookup hlook) (by simp) h
        cases next with
        | static k => rwa [lookup_static hlook] at hlt
        | cached j =>
          have := (lookup_cached (hfew.mono (by simp)) hlook i).1
          omega

/-- The references a walk with this result has to take. -/
def Taken (c d : Icache) : Option Node → Prop
  | some (.cached i) => OneMore c d i
  | some (.static _) => SameReferences c d
  | none => SameReferences c d

/-- A walk that pins nothing has taken exactly the reference to its result. -/
lemma walk_of_not_pins (hroots : StaticRoots fs) (hfew : Few c names.length) (hne : names ≠ [])
    (hpins : ¬Pins fs c current names) (h : walk fs c current names = (r, d)) : Taken c d r := by
  induction names generalizing c current with
  | nil => exact absurd rfl hne
  | cons name names ih =>
    rw [walk] at h
    split at h
    · cases h
      exact SameReferences.refl _
    rename_i hdir
    rw [Bool.not_eq_false] at hdir
    simp only [Pins, hdir, true_and] at hpins
    split at h
    · rename_i root hmount
      rw [hmount] at hpins
      obtain ⟨k, rfl⟩ := static_of_mount hroots hmount
      cases names with
      | nil =>
        cases h
        exact SameReferences.refl _
      | cons => exact ih (hfew.mono (by simp)) (by simp) hpins h
    rename_i hmount
    rw [hmount] at hpins
    split at h
    · cases h
      exact SameReferences.refl _
    · rename_i next e hlook
      rw [hlook] at hpins
      cases next with
      | static k =>
        obtain rfl := lookup_static hlook
        cases names with
        | nil =>
          cases h
          exact SameReferences.refl _
        | cons => exact ih (hfew.mono (by simp)) (by simp) hpins h
      | cached j =>
        -- the component must be the last one
        have hnil : names = [] := by
          by_contra hnames
          exact hpins (.inl hnames)
        subst hnil
        cases h
        exact lookup_cached (hfew.mono (by simp)) hlook

/-- A walk that pins an inode leaves it with a reference too many, also after the result is
released. -/
lemma walk_of_pins (hroots : StaticRoots fs) (hfew : Few c names.length)
    (hpins : Pins fs c current names)
    (h : walk fs c current names = (r, d)) : ∃ i, (c.slot i).count < (d.slot i).count ∧
      (r = some (.cached i) → (c.slot i).count + 1 < (d.slot i).count) := by
  induction names generalizing c current with
  | nil => exact absurd hpins id
  | cons name names ih =>
    obtain ⟨hdir, hpins⟩ := hpins
    rw [walk, if_neg (by simp [hdir])] at h
    split at h
    · rename_i root hmount
      rw [hmount] at hpins
      exact ih (hfew.mono (by simp)) hpins h
    rename_i hmount
    rw [hmount] at hpins
    split at h
    · rename_i hlook
      rw [hlook] at hpins
      exact absurd hpins id
    · rename_i next e hlook
      rw [hlook] at hpins
      cases next with
      | static k =>
        obtain rfl := lookup_static hlook
        exact ih (hfew.mono (by simp)) hpins h
      | cached j =>
        have hcount := (lookup_cached (hfew.mono (by simp)) hlook j).1
        rw [if_pos rfl] at hcount
        by_cases hnames : names = []
        · subst hnames
          exact absurd hpins (by simp [Pins])
        · refine ⟨j, ?_, ?_⟩
          · have := (walk_grows (hfew.lookup hlook) h j).1
            omega
          · rintro rfl
            have := walk_result hroots (hfew.lookup hlook) hnames h
            omega

end Walk

lemma length_elements_le (n : Nat) (path : List Byte) : (elements n path).length ≤ n := by
  induction n generalizing path with
  | zero => exact le_refl _
  | succ n ih =>
    rw [elements]
    split
    · exact zero_le _
    · exact succ_le_succ (ih _)

/-- While no count is near `2 ^ 32`, resolving a path and releasing the result leaves the reference
counts as they were exactly if every component but the last is a mount point or a static object, or
the walk ends before such a component. -/
theorem resolveAndRelease_same_iff (fs : Fs) (s : Inodes) (cwd path : List Byte)
    (hroots : StaticRoots fs) (hcounts : Few s.cache pathMax) :
    SameReferences s.cache (resolveAndRelease fs s cwd path).cache ↔
      (path ≠ [] → ¬Pins fs s.cache fs.root (pathElements cwd path)) := by
  by_cases hpath : path = []
  · subst hpath
    simpa [resolveAndRelease, vfsNamei] using SameReferences.refl s.cache
  simp only [hpath, ne_eq, not_false_eq_true, forall_true_left]
  rw [resolveAndRelease, vfsNamei, if_neg hpath, vfsLookupAt]
  change _ ↔ ¬Pins fs s.cache fs.root (elements _ _)
  have hfew : Few s.cache (elements (vfsMakeAbsolutePath cwd path).length
      (vfsMakeAbsolutePath cwd path)).length := by
    have hlen := length_vfsMakeAbsolutePath_le cwd path
    exact hcounts.mono ((length_elements_le _ _).trans (hlen.trans (sub_le _ _)))
  generalize elements (vfsMakeAbsolutePath cwd path).length (vfsMakeAbsolutePath cwd path) =
    names at hfew ⊢
  cases hwalk : walk fs s.cache fs.root names with
  | mk r d =>
    dsimp only
    by_cases hnil : names = []
    · -- the root itself: the reference taken for it is the one given back
      subst hnil
      cases hwalk
      simp only [Pins, not_false_eq_true, iff_true, and_self, if_true]
      cases fs.root with
      | cached i => exact (oneMore_addReference (hcounts.mono (by decide)) i).put
      | static k =>
        simp only [vfsIput, addReference]
        split <;> exact .refl s.cache
    · simp only [hnil, false_and, if_false]
      constructor
      · intro hsame hpins
        obtain ⟨i, hlt, hlt'⟩ := walk_of_pins hroots hfew hpins hwalk
        have hcount := (hsame i).1
        cases r with
        | none => exact ne_of_gt hlt hcount
        | some node =>
          cases node with
          | static k =>
            simp only [vfsIput] at hcount
            split at hcount <;> exact ne_of_gt hlt hcount
          | cached j =>
            simp only [vfsIput, (putInode_slot d j i).1] at hcount
            by_cases hij : i = j
            · subst hij
              have := hlt' rfl
              simp at hcount
              omega
            · simp only [hij, if_false] at hcount
              omega
      · intro hpins
        have htaken := walk_of_not_pins hroots hfew hnil hpins hwalk
        cases r with
        | none => exact htaken
        | some node =>
          cases node with
          | static k =>
            simp only [vfsIput]
            split <;> exact htaken
          | cached i => exact OneMore.put htaken

/-- A disk whose root directory has the subdirectory `a` with the file `b`; devtmpfs is mounted as
`dev`. -/
def smallDisk : Fs where
  root := .cached ⟨0, ninodes_pos⟩
  mounts := [⟨.cached ⟨0, ninodes_pos⟩, [0x64#8, 0x65#8, 0x76#8], .static 0⟩]
  staticType := fun k => if k = 0 then .dir else .dev
  diskEntry := fun key name =>
    if key.ino = 1#32 ∧ name = [0x61#8] then some (.disk ⟨1#32, 2#32⟩ .dir 1)
    else if key.ino = 2#32 ∧ name = [0x62#8] then some (.disk ⟨1#32, 3#32⟩ .file 1)
    else none
  staticEntry := fun k name => if k = 0 ∧ name = [0x74#8] then some (.static 1) else none
  counted := fun _ => false

/-- The cache after `icache_init` and the mount of the root. -/
def mountedCache : Inodes where
  cache := {
    slot := fun i => if i.val = 0 then ⟨⟨1#32, 1#32⟩, 1, 1, .dir⟩ else ⟨⟨0#32, 0#32⟩, 0, 0, .file⟩
    order := List.finRange ninodes }
  statics := fun _ => 1

/-- Resolving `/a` takes a reference to a slot of the cache and gives it back. -/
theorem resolveAndRelease_same_iff_cached :
    (vfsNamei smallDisk mountedCache [slash] [slash, 0x61#8]).1 = some (.cached ⟨1, by decide⟩) ∧
      SameReferences mountedCache.cache
        (resolveAndRelease smallDisk mountedCache [slash] [slash, 0x61#8]).cache := by
  have hroots : StaticRoots smallDisk := by
    intro m hm
    rw [mem_singleton.mp hm]
    exact ⟨0, rfl⟩
  have hcounts : Few mountedCache.cache pathMax := by
    intro i
    simp only [mountedCache, pathMax]
    split <;> decide
  refine ⟨by decide +kernel, ?_⟩
  refine (resolveAndRelease_same_iff _ _ _ _ hroots hcounts).mpr fun _ hpins => ?_
  have hnames : pathElements [slash] [slash, 0x61#8] = [[0x61#8]] := by decide +kernel
  rw [hnames] at hpins
  exact not_pins_singleton hpins

/-- `/a/b` leaves a reference to `a`. -/
theorem resolveAndRelease_leaks :
    ¬SameReferences mountedCache.cache (resolveAndRelease smallDisk mountedCache [slash]
      [slash, 0x61#8, slash, 0x62#8]).cache := by
  intro h
  have hslot : ((resolveAndRelease smallDisk mountedCache [slash]
      [slash, 0x61#8, slash, 0x62#8]).cache.slot ⟨1, by decide⟩).count = 1 := by decide +kernel
  rw [(h ⟨1, by decide⟩).1] at hslot
  cases hslot

end FrostVista.Kernel.Namei
