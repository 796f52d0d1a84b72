import FrostVista.Tmpfs.Deferred

/-!
# tmpfs: the names of a directory

`mkdirat`, `openat` with `O_CREAT` and `unlinkat` at the last component of a path in tmpfs, over
runs in which the kernel also walks paths, reads, writes and closes files and uses the cache for
other file systems. `vfs_create_at` refuses names of 24 bytes and more, `vfs_mkdir_at` does not: the
entry keeps 23 bytes of such a name, and a lookup of the name never finds it. A lookup also fails
when the cache has no slot for the inode of the entry, and then the name is created a second time.
-/
namespace FrostVista.Tmpfs.Names

open Lib Lib.Comp Deferred Function List Store

open Kernel.Ftable (NodeType)

open Kernel.Namei (Name sameName sameName_iff ninodes dirsiz)

/-! ## The system calls at the last component -/

/-- What `vfs_lookup_at` finds: the root of a mounted file system, or an inode. -/
inductive Found where
  | none
  | mount
  | slot (i : SlotId)
  deriving DecidableEq

/-- The mount table, as parent and name. -/
abbrev Mounts := List (Handle × Name)

/-- `vfs_lookup_mount` finds a file system. -/
def mountedAt (mounts : Mounts) (dir : Handle) (name : Name) : Bool :=
  mounts.any fun m => m.1 = dir && sameName m.2 name

/-- `vfs_lookup_at(current, name)` for one component in a directory of tmpfs -/
def lookupAt (mounts : Mounts) (dir : Handle) (name : Name) : T Found := do
  if mountedAt mounts dir name then pure .mount
  else
    match ← tmpfsVfsLookup dir name with
    | none => pure .none
    | some i => pure (.slot i)

/-- `vfs_mkdir_at` at the last component -/
def mkdirAt (mounts : Mounts) (dir : Handle) (name : Name) (k : Kmalloc) : T Bool := do
  match ← lookupAt mounts dir name with
  | .mount => pure false
  | .slot i => do
    tmpfsDestroyInode (.slot i)
    pure false
  | .none => tmpfsVfsMkdir dir name k

/-- The node that `openat` goes on with. -/
inductive Opens where
  | failed
  | existing (f : Found)
  | created (i : SlotId)
  deriving DecidableEq

/-- `vfs_leaf_name_valid` -/
def leafNameValid (name : Name) : Bool := name ≠ [] && decide (name.length < dirsiz)

/-- `vfs_create_at` at the last component -/
def createAt (mounts : Mounts) (dir : Handle) (name : Name) (k : Kmalloc) : T Opens := do
  if leafNameValid name then
    match ← lookupAt mounts dir name with
    | .none =>
      if ← tmpfsVfsCreate dir name .file k then
        match ← tmpfsVfsLookup dir name with
        | none => pure .failed
        | some i => pure (.created i)
      else pure .failed
    | found => pure (.existing found)
  else pure .failed

/-- `openat` with `O_CREAT`, up to the node -/
def openAt (mounts : Mounts) (dir : Handle) (name : Name) (k : Kmalloc) : T Opens := do
  match ← lookupAt mounts dir name with
  | .none => createAt mounts dir name k
  | found => pure (.existing found)

/-- `vfs_unlink_at` at the last component; the root of a mounted file system is a directory. -/
def unlinkAt (mounts : Mounts) (dir : Handle) (name : Name) : T Bool := do
  match ← lookupAt mounts dir name with
  | .none => pure false
  | .mount => pure false
  | .slot i =>
    let type := ((← get).slot i).type
    tmpfsDestroyInode (.slot i)
    if type = .dir then pure false
    else tmpfsVfsUnlink dir name

/-! ## Names of entries -/

variable {s s' : Store} {ext : Nat → Prop} {a p : Nat} {n d : Inode} {i : SlotId}
  {dir : Handle} {name : Name}
  {e : DirEntry} {mounts : Mounts} {k : Kmalloc} {type : NodeType}

/-- No two entries of a directory have the same name. -/
def Distinct (s : Store) : Prop := ∀ p d, s.node p = some d → (d.children.map DirEntry.name).Nodup

/-- The names of the entries end before the 24th byte. -/
def Terminated (s : Store) : Prop :=
  ∀ p d, s.node p = some d → ∀ e ∈ d.children, e.name.length < dirsiz

lemma name_of_child (h : ∀ e ∈ d.children, e.name.length < dirsiz) (he : d.child name = some e) :
    name = e.name := by
  have hsame : sameName name e.name = true := by simpa using find?_some he
  exact (sameName_iff (h e (mem_of_child he))).mp hsame

lemma child_eq_none_iff (h : ∀ e ∈ d.children, e.name.length < dirsiz) :
    d.child name = none ↔ name ∉ d.children.map DirEntry.name := by
  simp only [Inode.child, find?_eq_none, mem_map, not_exists, not_and]
  constructor
  · intro hnone e he heq
    exact hnone e he ((sameName_iff (h e he)).mpr heq.symm)
  · intro hnot e he hsame
    exact hnot e he ((sameName_iff (h e he)).mp hsame).symm

/-- A lookup of the name fails: there is no entry, or no slot for its inode. -/
def Misses (s : Store) (d : Inode) (name : Name) : Prop :=
  ∀ e, d.child name = some e → ∀ n, s.node e.inode = some n → s.full n.ino

/-- The parent after an entry has been made. -/
def entered (d : Inode) (name : Name) (type : NodeType) (a : Nat) : Inode :=
  { d with
    nlinks := if type = .dir then (d.nlinks + 1) % 2 ^ 16 else d.nlinks
    children := ⟨storedName name, a, type⟩ :: d.children }

lemma created_node_self : (s.created p d name type a).node p = some (entered d name type a) :=
  update_self ..

lemma created_node_new (hpa : p ≠ a) :
    (s.created p d name type a).node a = some (freshInode type s.nextIno) := by
  simp only [created]
  rw [update_of_ne hpa.symm, update_self]

lemma Terminated.created (h : Terminated s) (hp : s.node p = some d) :
    Terminated (s.created p d name type a) := by
  intro b n hb
  obtain ⟨rfl, rfl⟩ | ⟨rfl, rfl⟩ | hold := created_cases hb
  · intro e he
    rcases mem_cons.mp he with rfl | he
    · exact length_storedName name
    · exact h b d hp e he
  · exact nofun
  · exact h b n hold

lemma distinct_created_iff (h : Distinct s) (hp : s.node p = some d) :
    Distinct (s.created p d name type a) ↔ storedName name ∉ d.children.map DirEntry.name := by
  constructor
  · intro hd
    have := hd p _ created_node_self
    exact (nodup_cons.mp this).1
  · intro hnot b n hb
    obtain ⟨rfl, rfl⟩ | ⟨rfl, rfl⟩ | hold := created_cases hb
    · exact nodup_cons.mpr ⟨hnot, h b d hp⟩
    · exact nodup_nil
    · exact h b n hold

/-- The entries of the directories are among those there were. -/
def Shrinks (s s' : Store) : Prop :=
  ∀ b n', s'.node b = some n' → ∃ n, s.node b = some n ∧ n'.children.Sublist n.children

lemma Shrinks.of_node (h : s'.node = s.node) :
    Shrinks s s' := fun _ n' hn' => ⟨n', h ▸ hn', .refl _⟩

lemma Shrinks.trans (h : Shrinks s s') (h' : Shrinks s' s'') : Shrinks s s'' := by
  intro b n'' hn''
  obtain ⟨n', hn', hsub'⟩ := h' b n'' hn''
  obtain ⟨n, hn, hsub⟩ := h b n' hn'
  exact ⟨n, hn, hsub'.trans hsub⟩

lemma Shrinks.distinct (h : Shrinks s s') (hd : Distinct s) : Distinct s' := by
  intro b n' hn'
  obtain ⟨n, hn, hsub⟩ := h b n' hn'
  exact (hd b n hn).sublist (hsub.map _)

lemma Shrinks.terminated (h : Shrinks s s') (ht : Terminated s) : Terminated s' := by
  intro b n' hn' e he
  obtain ⟨n, hn, hsub⟩ := h b n' hn'
  exact ht b n hn e (hsub.subset he)

lemma shrinks_detached (hl : Leaf s p d name e n) : Shrinks s (s.detached p d name e n) := by
  intro b n' hb
  obtain ⟨rfl, rfl⟩ | ⟨rfl, rfl⟩ | hold := detached_cases hb
  · exact ⟨d, hl.parent, eraseP_sublist⟩
  · exact ⟨n, hl.node, .refl _⟩
  · exact ⟨n', hold, .refl _⟩

lemma shrinks_removed : Shrinks s (s.removed a n) := by
  intro b n' hb
  rw [removed_node, update_apply] at hb
  split at hb
  · cases hb
  · exact ⟨n', hb, .refl _⟩

lemma shrinks_unlink (hp : s.node p = some d) (h : Unlinks s p d name r s') : Shrinks s s' := by
  cases h with
  | refused _ => exact .of_node rfl
  | deferred _ hchild hfile hn _ => exact shrinks_detached ⟨hp, hchild, hfile, hn⟩
  | @freed e n _ hchild hfile hn _ =>
    have hl : Leaf s p d name e n := ⟨hp, hchild, hfile, hn⟩
    have hmap : Shrinks s ((s.detached p d name e n).mapSlots n.ino fun ip =>
      { ip with data := .null, pdOwned := false }) := shrinks_detached hl
    exact hmap.trans shrinks_removed

lemma Shrinks.of_transfer (h : Transfer s act s') (hact : act.relinks = false) : Shrinks s s' := by
  intro b n' hn'
  cases hn : s.node b with
  | none =>
    have := (h.comes b n' hn hn').1
    rw [hact] at this
    cases this
  | some n =>
    refine ⟨n, rfl, ?_⟩
    have hsame := h.children b n n' hn hn'
    cases act with
    | create => cases hact
    | unlink => cases hact
    | _ => exact hsame ▸ .refl _

/-! ## What the calls do -/

/-- The directory of a call. -/
structure Parent (s : Store) (dir : Handle) (p : Nat) (d : Inode) :
    Prop extends Behind s dir p d where
  dir : d.type = .dir

lemma lookupAt_spec (h : Sound ext s) (hd : Parent s dir p d) (hroom : s.room)
    (mounts : Mounts) (name : Name) :
    Total (lookupAt mounts dir name) s fun f s' => Sound ext s' ∧
      match f with
      | .none => s' = s ∧ mountedAt mounts dir name = false ∧ Misses s d name
      | .mount => s' = s ∧ mountedAt mounts dir name = true
      | .slot i => mountedAt mounts dir name = false ∧ ∃ e n, d.child name = some e ∧
          s.node e.inode = some n ∧
          Filled s i e.inode n s' := by
  unfold lookupAt
  cases hmount : mountedAt mounts dir name with
  | true => exact .pure ⟨h, rfl, rfl⟩
  | false =>
    refine .bind (h.lookup hd.toBehind hd.dir hroom name) ?_
    rintro r s' ⟨hsound, -, hlook⟩
    cases r with
    | none => exact .pure ⟨hsound, hlook.1, rfl, hlook.2⟩
    | some i => exact .pure ⟨hsound, rfl, hlook⟩

lemma iput_spec (h : Sound ext s) (hp : s.node p = some d) (hroom : s.room)
    (he : d.child name = some e)
    (hn : s.node e.inode = some n) (h' : Sound ext s') (hfill : Filled s i e.inode n s') :
    Total (tmpfsDestroyInode (.slot i)) s' fun _ t => Sound ext t ∧ t.node = s.node ∧
      t = s'.setSlot i { s'.slot i with count := (s'.slot i).count - 1 } := by
  obtain ⟨hheld, hslot⟩ := hfill.held hroom
  refine (h'.destroy (show s'.holds (.slot i) from hheld)).mono ?_
  rintro _ t ⟨hsound, -, hdestroy⟩
  cases hdestroy with
  | kept _ => exact ⟨hsound, hfill.node, rfl⟩
  | freed _ hlinks _ _ =>
    -- the entry is a link
    obtain ⟨-, -, n', hn', -, hne⟩ := h.child hp (mem_of_child he)
    rw [hn] at hn'
    cases hn'
    rw [hslot] at hlinks
    exact absurd hlinks hne

/-- What `vfs_mkdir_at` does. -/
inductive Mkdirs (mounts : Mounts) (dir : Handle) (s : Store) (p : Nat)
    (d : Inode) (name : Name) (k : Kmalloc) :
    Bool → Store → Prop where
  | made {a : Nat} : mountedAt mounts dir name = false → k = ⟨true, some a⟩ → Misses s d name →
      Mkdirs mounts dir s p d name k true (s.created p d name .dir a)
  | refused {s' : Store} : s'.node = s.node →
      (mountedAt mounts dir name = true ∨ (∀ a, k ≠ ⟨true, some a⟩) ∨ ¬Misses s d name) →
      Mkdirs mounts dir s p d name k false s'

lemma not_misses (he : d.child name = some e) (hn : s.node e.inode = some n)
    (hfull : ¬s.full n.ino) :
    ¬Misses s d name := fun h => hfull (h e he n hn)

lemma mkdirAt_spec (h : Sound ext s) (hd : Parent s dir p d) (hroom : s.room) (hname : name ≠ [])
    (hfits : ∀ a, k = ⟨true, some a⟩ → Fits s d .dir a) (mounts : Mounts) :
    Total (mkdirAt mounts dir name k) s fun r s' => Sound ext s' ∧
      Mkdirs mounts dir s p d name k r s' := by
  unfold mkdirAt
  refine .bind (lookupAt_spec h hd hroom mounts name) ?_
  rintro f s1 ⟨hsound, hf⟩
  cases f with
  | mount =>
    obtain ⟨rfl, hmount⟩ := hf
    exact .pure ⟨h, .refused rfl (.inl hmount)⟩
  | slot i =>
    obtain ⟨-, e, n, he, hn, hfill⟩ := hf
    refine .bind (iput_spec h hd.node hroom he hn hsound hfill) ?_
    rintro _ t ⟨ht, hnode, -⟩
    exact .pure ⟨ht, .refused hnode (.inr (.inr (not_misses he hn hfill.room)))⟩
  | none =>
    obtain ⟨rfl, hmount, hmiss⟩ := hf
    refine (h.create hd.toBehind hd.dir hroom hfits).mono ?_
    rintro r s' ⟨hsound', -, hcreate⟩
    refine ⟨hsound', ?_⟩
    cases hcreate with
    | made _ hk _ => exact .made hmount hk hmiss
    | found _ he hn hfill => exact absurd hmiss (not_misses he hn hfill.room)
    | refused hwhy => exact .refused rfl (.inr (.inl (hwhy.resolve_left hname)))

/-- A lookup of the name succeeds, and `mkdirat` of the name fails. -/
def Visible (mounts : Mounts) (dir : Handle) (name : Name) (s : Store) : Prop :=
  Total (lookupAt mounts dir name) s (fun f _ => f ≠ .none) ∧
  ∀ k, Total (mkdirAt mounts dir name k) s fun r _ => r = false

lemma visible_of_not_misses (h : Sound ext s) (hd : Parent s dir p d) (hroom : s.room)
    (hmiss : ¬Misses s d name) : Visible mounts dir name s := by
  have hlook := lookupAt_spec h hd hroom mounts name
  refine ⟨hlook.mono ?_, fun k => .bind hlook ?_⟩
  · rintro f s' ⟨-, hf⟩ rfl
    exact hmiss hf.2.2
  · rintro f s1 ⟨hsound, hf⟩
    cases f with
    | none => exact absurd hf.2.2 hmiss
    | mount => exact .pure rfl
    | slot i =>
      obtain ⟨-, e, n, he, hn, hfill⟩ := hf
      exact .bind (iput_spec h hd.node hroom he hn hsound hfill) fun _ _ _ => .pure rfl

lemma not_visible (h : Sound ext s) (hd : Parent s dir p d) (hroom : s.room)
    (hmount : mountedAt mounts dir name = false) (hmiss : Misses s d name) :
    ¬Visible mounts dir name s := by
  rintro ⟨⟨f, s', hrun, hne⟩, -⟩
  obtain ⟨-, hf⟩ := (lookupAt_spec h hd hroom mounts name).of_run hrun
  cases f with
  | none => exact hne rfl
  | mount => rw [hf.2] at hmount; cases hmount
  | slot i =>
    obtain ⟨-, e, n, he, hn, hfill⟩ := hf
    exact not_misses he hn hfill.room hmiss

/-! ## A new entry -/

lemma Parent.created (hd : Parent s dir p d) :
    Parent (s.created p d name type a) dir p (entered d name type a) where
  holds := by
    cases dir with
    | root => trivial
    | slot i => exact hd.holds
  data := by
    cases dir with
    | root | slot i => exact hd.data
  node := created_node_self
  type := by
    cases dir with
    | root | slot i => exact hd.type
  dir := hd.dir

lemma entered_child (h : name.length < dirsiz) :
    (entered d name type a).child name = some ⟨name, a, type⟩ := by
  simp only [entered, Inode.child, storedName_of_lt h]
  rw [find?_cons_of_pos]
  exact (sameName_iff h).mpr rfl

lemma entered_child_long (ht : ∀ e ∈ d.children, e.name.length < dirsiz)
    (h : ¬name.length < dirsiz) :
    (entered d name type a).child name = none := by
  rw [child_eq_none_iff]
  · intro hmem
    obtain ⟨e, he, hname⟩ := mem_map.mp hmem
    rw [← hname] at h
    rcases mem_cons.mp he with heq | he
    · exact h (heq ▸ length_storedName name)
    · exact h (ht e he)
  · intro e he
    rcases mem_cons.mp he with rfl | he
    · exact length_storedName _
    · exact ht e he

lemma slotOf_nextIno (h : Sound ext s) : s.slotOf tmpfsDev s.nextIno = none := by
  refine find?_eq_none.mpr fun i _ => ?_
  simp only [decide_eq_true_eq, not_and]
  intro hino hdev
  exact (h.cache.slot_lt i hdev).ne hino

lemma misses_created_iff (h : Sound ext s) (ht : Terminated s) (hp : s.node p = some d)
    (hpa : p ≠ a) :
    Misses (s.created p d name type a) (entered d name type a) name ↔
      ¬(name.length < dirsiz ∧ s.unused ≠ none) := by
  by_cases hlen : name.length < dirsiz
  · have hnew : (s.created p d name type a).node a = some (freshInode type s.nextIno) :=
      created_node_new hpa
    have hfull : (s.created p d name type a).full s.nextIno ↔ s.unused = none := by
      have hslot : (s.created p d name type a).slotOf tmpfsDev s.nextIno = none := slotOf_nextIno h
      exact and_iff_right hslot
    simp only [Misses, entered_child hlen, Option.some.injEq, hlen, true_and, ne_eq, not_not]
    constructor
    · intro hmiss
      exact hfull.mp (hmiss _ rfl _ hnew)
    · rintro hnone _ rfl n hn
      rw [hnew] at hn
      cases hn
      exact hfull.mpr hnone
  · have hnone : (entered d name type a).child name = none := entered_child_long (ht p d hp) hlen
    simp [Misses, hnone, hlen]

/-- The condition on the state before a `mkdirat` that finds memory: if the name has an entry, there
is a slot for its inode, and otherwise the name fits into an entry and there is an unused slot. -/
def FitsName (s : Store) (d : Inode) (name : Name) : Prop :=
  match d.child name with
  | some e => ∀ n, s.node e.inode = some n → ¬s.full n.ino
  | none => name.length < dirsiz ∧ s.unused ≠ none

lemma not_mem_names (ht : ∀ e ∈ d.children, e.name.length < dirsiz) (hchild : d.child name = none)
    (hlen : name.length < dirsiz) : storedName name ∉ d.children.map DirEntry.name := by
  rw [storedName_of_lt hlen]
  exact (child_eq_none_iff ht).mp hchild

lemma mem_names (ht : ∀ e ∈ d.children, e.name.length < dirsiz) (hchild : d.child name = some e) :
    storedName name ∈ d.children.map DirEntry.name := by
  have hmem := mem_of_child hchild
  have hname := name_of_child ht hchild
  rw [storedName_of_lt (hname ▸ ht e hmem), hname]
  exact mem_map.mpr ⟨e, hmem, rfl⟩

lemma Sound.node_child (h : Sound ext s) (hp : s.node p = some d) (he : d.child name = some e) :
    ∃ n, s.node e.inode = some n := by
  obtain ⟨-, -, n, hn, -⟩ := h.child hp (mem_of_child he)
  exact ⟨n, hn⟩

section
variable (h : Sound ext s) (hdist : Distinct s) (ht : Terminated s) (hd : Parent s dir p d)
  (hroom : s.room)
include h hdist ht hd hroom

/-- The names stay distinct and the new entry is visible exactly if the name fits. -/
lemma created_iff (hfits : Fits s d type a) (hmount : mountedAt mounts dir name = false)
    (hmiss : Misses s d name) :
    Distinct (s.created p d name type a) ∧ Visible mounts dir name (s.created p d name type a) ↔
      FitsName s d name := by
  have hsound : Sound ext (s.created p d name type a) := (h.created hd.node hd.dir hfits).1
  have hparent : Parent (s.created p d name type a) dir p (entered d name type a) := hd.created
  have hroom' : (s.created p d name type a).room := hroom
  have hterm := ht p d hd.node
  rw [distinct_created_iff hdist hd.node]
  unfold FitsName
  cases hchild : d.child name with
  | some e =>
    -- the entry is not found, so its name is entered again
    obtain ⟨n, hn⟩ := Sound.node_child h hd.node hchild
    constructor
    · rintro ⟨hnot, -⟩
      exact absurd (mem_names hterm hchild) hnot
    · intro hslot
      exact absurd (hmiss e hchild n hn) (hslot n hn)
  | none =>
    have hiff : Misses (s.created p d name type a) _ name ↔ _ := misses_created_iff h ht hd.node
      (hfits.ne hd.node)
    constructor
    · rintro ⟨-, hvisible⟩
      by_contra hnot
      exact not_visible hsound hparent hroom' hmount (hiff.mpr hnot) hvisible
    · intro hfit
      exact ⟨not_mem_names hterm hchild hfit.1,
        visible_of_not_misses hsound hparent hroom' fun hm => hiff.mp hm hfit⟩

lemma mkdirAt_iff (hname : name ≠ []) (hfits : ∀ a, k = ⟨true, some a⟩ → Fits s d .dir a) :
    Total (mkdirAt mounts dir name k) s (fun r s' => Distinct s' ∧
      (r = true → Visible mounts dir name s')) ↔
      (mountedAt mounts dir name = false → (∃ a, k = ⟨true, some a⟩) → FitsName s d name) := by
  obtain ⟨r, s', hrun, hsound, hmk⟩ := mkdirAt_spec h hd hroom hname hfits mounts
  rw [Total.iff_of_run hrun]
  cases hmk with
  | @made a hmount hk hmiss =>
    have hiff := created_iff h hdist ht hd hroom (hfits a hk) hmount hmiss
    constructor
    · rintro ⟨hdist', hvisible⟩ - -
      exact hiff.mp ⟨hdist', hvisible rfl⟩
    · intro hcond
      obtain ⟨hdist', hvisible⟩ := hiff.mpr (hcond hmount ⟨a, hk⟩)
      exact ⟨hdist', fun _ => hvisible⟩
  | refused hnode hwhy =>
    refine iff_of_true ⟨(Shrinks.of_node hnode).distinct hdist, nofun⟩ ?_
    rintro hmount ⟨a, hk⟩
    rcases hwhy with hmount' | hmem | hfound
    · rw [hmount] at hmount'
      cases hmount'
    · exact absurd hk (hmem a)
    · unfold FitsName
      cases hchild : d.child name with
      | none =>
        refine absurd (fun e he => ?_) hfound
        rw [hchild] at he
        cases he
      | some e =>
        intro n hn hfull
        refine hfound fun e' he' n' hn' => ?_
        rw [hchild] at he'
        cases he'
        rw [hn] at hn'
        cases hn'
        exact hfull

end

/-! ## Opening with `O_CREAT` -/

/-- What `openat` with `O_CREAT` does. -/
inductive OpensAt (mounts : Mounts) (dir : Handle) (s : Store) (p : Nat) (d : Inode) (name : Name)
    (k : Kmalloc) : Opens → Store → Prop where
  | made {a : Nat} {i : SlotId} {s' : Store} : mountedAt mounts dir name = false →
      name.length < dirsiz →
      k = ⟨true, some a⟩ → Misses s d name →
      Filled (s.created p d name .file a) i a (freshInode .file s.nextIno) s' →
      OpensAt mounts dir s p d name k (.created i) s'
  | hidden {a : Nat} : mountedAt mounts dir name = false → name.length < dirsiz →
      k = ⟨true, some a⟩ →
      Misses s d name → OpensAt mounts dir s p d name k .failed (s.created p d name .file a)
  | existing {f : Found} {s' : Store} : s'.node = s.node →
      (mountedAt mounts dir name = true ∨ ¬Misses s d name) →
      OpensAt mounts dir s p d name k (.existing f) s'
  | refused : (leafNameValid name = false ∨ ∀ a, k ≠ ⟨true, some a⟩) →
      OpensAt mounts dir s p d name k .failed s

lemma openAt_spec (h : Sound ext s) (hd : Parent s dir p d) (hroom : s.room) (hname : name ≠ [])
    (hfits : ∀ a, k = ⟨true, some a⟩ → Fits s d .file a) (mounts : Mounts) :
    Total (openAt mounts dir name k) s fun r s' => Sound ext s' ∧
      OpensAt mounts dir s p d name k r s' := by
  have hlook := lookupAt_spec h hd hroom mounts name
  refine .bind hlook ?_
  rintro f s1 ⟨hsound, hf⟩
  cases f with
  | mount =>
    obtain ⟨rfl, hmount⟩ := hf
    exact .pure ⟨h, .existing rfl (.inl hmount)⟩
  | slot i =>
    obtain ⟨-, e, n, he, hn, hfill⟩ := hf
    exact .pure ⟨hsound, .existing hfill.node (.inr (not_misses he hn hfill.room))⟩
  | none =>
    obtain ⟨rfl, hmount, hmiss⟩ := hf
    simp only [createAt]
    cases hvalid : leafNameValid name with
    | false => exact .pure ⟨h, .refused (.inl hvalid)⟩
    | true =>
      have hlen : name.length < dirsiz := by
        simp only [leafNameValid, Bool.and_eq_true, decide_eq_true_eq] at hvalid
        exact hvalid.2
      simp only [if_true]
      refine .bind hlook ?_
      rintro f s2 ⟨-, hf⟩
      cases f with
      | mount => rw [hf.2] at hmount; cases hmount
      | slot i =>
        obtain ⟨-, e, n, he, hn, hfill⟩ := hf
        exact absurd hmiss (not_misses he hn hfill.room)
      | none =>
        obtain ⟨rfl, -, -⟩ := hf
        refine .bind (h.create hd.toBehind hd.dir hroom hfits) ?_
        rintro r s3 ⟨hsound3, -, hcreate⟩
        cases hcreate with
        | found _ he hn hfill => exact absurd hmiss (not_misses he hn hfill.room)
        | refused hwhy => exact .pure ⟨h, .refused (.inr (hwhy.resolve_left hname))⟩
        | @made a _ hk _ =>
          simp only [if_true]
          have hparent : Parent (s2.created p d name .file a) dir p (entered d name .file a) :=
            hd.created
          refine .bind (hsound3.lookup hparent.toBehind hparent.dir hroom name) ?_
          rintro r s4 ⟨hsound4, -, hlooked⟩
          cases r with
          | none =>
            obtain ⟨rfl, -⟩ := hlooked
            exact .pure ⟨hsound4, .hidden hmount hlen hk hmiss⟩
          | some i =>
            obtain ⟨e, n, he, hn, hfill⟩ := hlooked
            rw [entered_child hlen] at he
            cases he
            rw [created_node_new ((hfits a hk).ne hd.node)] at hn
            cases hn
            exact .pure ⟨hsound4, .made hmount hlen hk hmiss hfill⟩

lemma Parent.filled (hd : Parent s dir p d) (hslot : s.slot = s0.slot) (h0 : Sound ext s0)
    (hino : n.ino = s0.nextIno) (hfill : Filled s i a n s') :
    Parent s' dir p d ∧ (s'.slot i).isFor n.ino = true ∧ (s'.slot i).count = 1 ∧
      ∀ j, j ≠ i → s'.slot j = s.slot j := by
  have hunused : (s.slot i).count = 0 := by
    rcases hfill.was with hfor | ⟨hcount, -⟩
    · obtain ⟨hdev, hnum⟩ := isFor_iff.mp hfor
      rw [hslot] at hdev hnum
      exact absurd (hnum.trans hino) (h0.cache.slot_lt i hdev).ne
    · exact hcount
  have hself : s'.slot i = (s.slot i).filled a n := by rw [hfill.slot, update_self]
  have hother : ∀ j, j ≠ i → s'.slot j = s.slot j := fun j hj => by rw [hfill.slot, update_of_ne hj]
  refine ⟨?_, ?_, ?_, hother⟩
  · cases dir with
    | root => exact ⟨⟨trivial, hd.data, hfill.node ▸ hd.node, hd.type⟩, hd.dir⟩
    | slot j =>
      have hj : j ≠ i := by
        rintro rfl
        exact hd.holds.2.ne' hunused
      refine ⟨⟨?_, ?_, hfill.node ▸ hd.node, ?_⟩, hd.dir⟩
      · change (s'.slot j).held
        rw [hother j hj]
        exact hd.holds
      · change (s'.slot j).data = .node p
        rw [hother j hj]
        exact hd.data
      · change (s'.slot j).type = d.type
        rw [hother j hj]
        exact hd.type
  · rw [hself]
    exact isFor_iff.mpr ⟨rfl, rfl⟩
  · rw [hself]
    change (s.slot i).taken n.ino = 1
    simp [VfsInode.taken, hunused]

lemma child_eq_none_of_misses (h : Sound ext s) (hp : s.node p = some d) :
    (∀ e n, d.child name = some e → s.node e.inode = some n → ¬s.full n.ino) → Misses s d name →
      d.child name = none := by
  intro hcond hmiss
  cases hchild : d.child name with
  | none => rfl
  | some e =>
    obtain ⟨n, hn⟩ := Sound.node_child h hp hchild
    exact absurd (hmiss e hchild n hn) (hcond e n hchild hn)

/-- The names stay distinct and a new file is visible exactly if the entry that the name has can be
found. -/
lemma openAt_iff (h : Sound ext s) (hdist : Distinct s) (ht : Terminated s) (hd : Parent s dir p d)
    (hroom : s.room) (hname : name ≠ []) (hfits : ∀ a, k = ⟨true, some a⟩ → Fits s d .file a) :
    Total (openAt mounts dir name k) s (fun r s' => Distinct s' ∧
        ∀ i, r = .created i → Visible mounts dir name s') ↔
      (mountedAt mounts dir name = false → (∃ a, k = ⟨true, some a⟩) →
        ∀ e n, d.child name = some e → s.node e.inode = some n → ¬s.full n.ino) := by
  obtain ⟨r, s', hrun, hsound, hop⟩ := openAt_spec h hd hroom hname hfits mounts
  have hterm := ht p d hd.node
  rw [Total.iff_of_run hrun]
  -- in a state in which the entry has been made, only the old entries decide
  have hmade : ∀ a, Misses s d name → name.length < dirsiz →
      (Distinct (s.created p d name .file a) ↔
        ∀ e n, d.child name = some e → s.node e.inode = some n → ¬s.full n.ino) := by
    intro a hmiss hlen
    rw [distinct_created_iff hdist hd.node]
    constructor
    · intro hnot e n he
      exact absurd (mem_names hterm he) hnot
    · intro hcond
      exact not_mem_names hterm (child_eq_none_of_misses h hd.node hcond hmiss) hlen
  cases hop with
  | @made a i _ hmount hlen hk hmiss hfill =>
    have hparent : Parent (s.created p d name .file a) dir p (entered d name .file a) := hd.created
    have hslot : (s.created p d name .file a).slot = s.slot := rfl
    obtain ⟨hparent', hfor, hone, hother⟩ := hparent.filled hslot h rfl hfill
    have hvisible : Visible mounts dir name s' := by
      refine visible_of_not_misses hsound hparent' ?_ (not_misses (entered_child hlen)
        (n := freshInode .file s.nextIno) ?_ ?_)
      · intro j
        by_cases hj : j = i
        · rw [hj, hone]
          decide
        · rw [hother j hj]
          exact hroom j
      · rw [hfill.node]
        exact created_node_new ((hfits a hk).ne hd.node)
      · rintro ⟨hnone, -⟩
        obtain ⟨hdev, hino⟩ := isFor_iff.mp hfor
        exact slotOf_eq_none hnone i ⟨hino, hdev⟩
    have hdist' : Distinct s' ↔ Distinct (s.created p d name .file a) := by
      unfold Distinct
      rw [hfill.node]
    rw [hdist', hmade a hmiss hlen]
    constructor
    · rintro ⟨hcond, -⟩ - -
      exact hcond
    · intro hcond
      exact ⟨hcond hmount ⟨a, hk⟩, fun _ _ => hvisible⟩
  | @hidden a hmount hlen hk hmiss =>
    rw [hmade a hmiss hlen]
    constructor
    · rintro ⟨hcond, -⟩ - -
      exact hcond
    · intro hcond
      exact ⟨hcond hmount ⟨a, hk⟩, nofun⟩
  | existing hnode hwhy =>
    refine iff_of_true ⟨(Shrinks.of_node hnode).distinct hdist, nofun⟩ ?_
    intro hmount _ e n he hn hfull
    rcases hwhy with hmount' | hfound
    · rw [hmount] at hmount'
      cases hmount'
    · refine hfound fun e' he' n' hn' => ?_
      rw [he] at he'
      cases he'
      rw [hn] at hn'
      cases hn'
      exact hfull
  | refused hwhy =>
    refine iff_of_true ⟨hdist, nofun⟩ ?_
    rintro - ⟨a, hk⟩ e n he
    rcases hwhy with hvalid | hmem
    · -- no entry has a name that long
      have hlen := hterm e (mem_of_child he)
      rw [← name_of_child hterm he] at hlen
      simp [leafNameValid, hname, hlen] at hvalid
    · exact absurd hk (hmem a)

/-! ## Removing -/

lemma unlinkAt_spec (h : Sound ext s) (hd : Parent s dir p d) (hroom : s.room)
    (mounts : Mounts) (name : Name) :
    Total (unlinkAt mounts dir name) s fun _ s' => Sound ext s' ∧ Shrinks s s' := by
  refine .bind (lookupAt_spec h hd hroom mounts name) ?_
  rintro f s1 ⟨hsound, hf⟩
  cases f with
  | none | mount =>
    obtain ⟨rfl, -⟩ := hf
    exact .pure ⟨h, .of_node rfl⟩
  | slot i =>
    obtain ⟨-, e, n, he, hn, hfill⟩ := hf
    refine .bind_ok (run_get s1) (.bind (iput_spec h hd.node hroom he hn hsound hfill) ?_)
    rintro _ t ⟨ht, hnode, rfl⟩
    split
    · exact .pure ⟨ht, .of_node hnode⟩
    · obtain ⟨p', d', hd'⟩ := ht.behind ((hfill.stays_put h hn hroom).holds hd.holds)
      refine (ht.unlink hd' name).mono ?_
      rintro r s' ⟨hsound', -, hunlink⟩
      exact ⟨hsound', (Shrinks.of_node hnode).trans (shrinks_unlink hd'.node hunlink)⟩

/-! ## Runs -/

/-- The system calls at a last component, and what else uses tmpfs and the cache. -/
inductive Call where
  | mkdirat (dir : Handle) (name : Name) (k : Kmalloc)
  | openat (dir : Handle) (name : Name) (k : Kmalloc)
  | unlinkat (dir : Handle) (name : Name)
  | other (act : Action)

/-- The call returns in the state `s'`. -/
def Call.Leads (mounts : Mounts) (s : Store) (s' : Store) : Call → Prop
  | .mkdirat dir name k => ∃ r, (mkdirAt mounts dir name k).run s = .ok (r, s')
  | .openat dir name k => ∃ r, (openAt mounts dir name k).run s = .ok (r, s')
  | .unlinkat dir name => ∃ r, (unlinkAt mounts dir name).run s = .ok (r, s')
  | .other act => ∃ r, act.perform.run s = .ok (r, s')

/-- The walk to the last component has ended in a directory, `kmalloc` returns memory that is not in
use, and directories change by the system calls only. -/
def Call.Legal (s : Store) : Call → Prop
  | .mkdirat dir name k => s.holds dir ∧ s.typeOf dir = .dir ∧ name ≠ [] ∧
      ∀ a, k.inode = some a → s.node a = none
  | .openat dir name k => s.holds dir ∧ s.typeOf dir = .dir ∧ name ≠ [] ∧
      ∀ a, k.inode = some a → s.node a = none
  | .unlinkat dir _ => s.holds dir ∧ s.typeOf dir = .dir
  | .other act => Deferred.Legal s act ∧ act.relinks = false

/-- No counter overflows. -/
def Call.Within (s : Store) : Call → Prop
  | .mkdirat dir _ _ => s.room ∧ s.nextIno + 1 < 2 ^ 32 ∧
      ∀ p d, s.dataOf dir = .node p → s.node p = some d → d.nlinks + 1 < 2 ^ 16
  | .openat _ _ _ => s.room ∧ s.nextIno + 1 < 2 ^ 32
  | .unlinkat _ _ => s.room
  | .other act => Deferred.Within s act

/-- The condition on the state before the call: when there is memory for a new entry, a `mkdirat`
has a name of fewer than 24 bytes and finds a slot for what it makes, and an entry that already has
the name is found. -/
def Call.Fine (mounts : Mounts) (s : Store) : Call → Prop
  | .mkdirat dir name k => mountedAt mounts dir name = false → (∃ a, k = ⟨true, some a⟩) →
      ∀ p d, s.dataOf dir = .node p → s.node p = some d → FitsName s d name
  | .openat dir name k => mountedAt mounts dir name = false → (∃ a, k = ⟨true, some a⟩) →
      ∀ p d, s.dataOf dir = .node p → s.node p = some d →
        ∀ e n, d.child name = some e → s.node e.inode = some n → ¬s.full n.ino
  | .unlinkat _ _ => True
  | .other _ => True

/-- The call returns, the names are distinct after it, and what it has made is visible. -/
def Call.Upholds (mounts : Mounts) (s : Store) : Call → Prop
  | .mkdirat dir name k => Total (mkdirAt mounts dir name k) s fun r s' =>
      Distinct s' ∧ (r = true → Visible mounts dir name s')
  | .openat dir name k => Total (openAt mounts dir name k) s fun r s' =>
      Distinct s' ∧ ∀ i, r = .created i → Visible mounts dir name s'
  | .unlinkat dir name => Total (unlinkAt mounts dir name) s fun _ s' => Distinct s'
  | .other act => Total act.perform s fun _ s' => Distinct s'

/-- A legal call in which no counter overflows and that meets the condition. -/
def FineStep (mounts : Mounts) (s : Store) (c : Call) (s' : Store) : Prop :=
  c.Legal s ∧ c.Within s ∧ c.Fine mounts s ∧ c.Leads mounts s s'

/-- The invariant of the runs. -/
structure Tidy (s : Store) : Prop where
  sound : Sound (fun _ => False) s
  distinct : Distinct s
  terminated : Terminated s

lemma Tidy.parent (h : Tidy s) (hholds : s.holds dir) (htype : s.typeOf dir = .dir) :
    ∃ p d, Parent s dir p d := by
  obtain ⟨p, d, hd⟩ := h.sound.behind hholds
  exact ⟨p, d, ⟨hd, hd.type ▸ htype⟩⟩

/-- The directory of a call is the only one that its handle stands for. -/
lemma Parent.forall_iff {P : Inode → Prop} (hd : Parent s dir p d) :
    (∀ p' d', s.dataOf dir = .node p' → s.node p' = some d' → P d') ↔ P d := by
  refine ⟨fun h => h p d hd.data hd.node, fun h p' d' hp' hd' => ?_⟩
  rw [hd.data] at hp'
  cases hp'
  rw [hd.node] at hd'
  cases hd'
  exact h

lemma Tidy.fits (h : Tidy s) (type : NodeType) (hholds : s.holds dir) (htype : s.typeOf dir = .dir)
    (hfresh : ∀ a, k.inode = some a → s.node a = none) (hino : s.nextIno + 1 < 2 ^ 32)
    (hlinks : type = .dir → ∀ p d, s.dataOf dir = .node p → s.node p = some d →
      d.nlinks + 1 < 2 ^ 16) :
    ∃ p d, Parent s dir p d ∧ ∀ a, k = ⟨true, some a⟩ → Fits s d type a := by
  obtain ⟨p, d, hd⟩ := h.parent hholds htype
  refine ⟨p, d, hd, ?_⟩
  rintro a rfl
  exact ⟨hfresh a rfl, fun ht => hlinks ht p d hd.data hd.node, hino⟩

/-- The names stay distinct and new entries are visible exactly if the condition holds. -/
lemma upholds_iff (h : Tidy s) {c : Call} (hl : c.Legal s) (hw : c.Within s) :
    c.Upholds mounts s ↔ c.Fine mounts s := by
  cases c with
  | mkdirat dir name k =>
    obtain ⟨p, d, hd, hfits⟩ := h.fits .dir hl.1 hl.2.1 hl.2.2.2 hw.2.1 fun _ => hw.2.2
    simp only [Call.Fine, hd.forall_iff]
    exact mkdirAt_iff h.sound h.distinct h.terminated hd hw.1 hl.2.2.1 hfits
  | openat dir name k =>
    obtain ⟨p, d, hd, hfits⟩ := h.fits .file hl.1 hl.2.1 hl.2.2.2 hw.2 nofun
    simp only [Call.Fine, hd.forall_iff]
    exact openAt_iff h.sound h.distinct h.terminated hd hw.1 hl.2.2.1 hfits
  | unlinkat dir name =>
    obtain ⟨p, d, hd⟩ := h.parent hl.1 hl.2
    refine iff_of_true ((unlinkAt_spec h.sound hd hw mounts name).mono ?_) trivial
    rintro _ s' ⟨-, hshrinks⟩
    exact hshrinks.distinct h.distinct
  | other act =>
    refine iff_of_true ((perform_spec h.sound hl.1 hw).mono ?_) trivial
    rintro _ s' ⟨-, htransfer, -⟩
    exact (Shrinks.of_transfer htransfer hl.2).distinct h.distinct

lemma Tidy.step (h : Tidy s) (hstep : FineStep mounts s c s') : Tidy s' := by
  obtain ⟨hl, hw, hfine, hleads⟩ := hstep
  have hup := (upholds_iff h hl hw).mpr hfine
  cases c with
  | mkdirat dir name k =>
    obtain ⟨r, hrun⟩ := hleads
    obtain ⟨p, d, hd, hfits⟩ := h.fits .dir hl.1 hl.2.1 hl.2.2.2 hw.2.1 fun _ => hw.2.2
    obtain ⟨hsound, hmk⟩ := (mkdirAt_spec h.sound hd hw.1 hl.2.2.1 hfits mounts).of_run hrun
    refine ⟨hsound, (hup.of_run hrun).1, ?_⟩
    cases hmk with
    | made _ _ _ => exact h.terminated.created hd.node
    | refused hnode _ => exact (Shrinks.of_node hnode).terminated h.terminated
  | openat dir name k =>
    obtain ⟨r, hrun⟩ := hleads
    obtain ⟨p, d, hd, hfits⟩ := h.fits .file hl.1 hl.2.1 hl.2.2.2 hw.2 nofun
    obtain ⟨hsound, hop⟩ := (openAt_spec h.sound hd hw.1 hl.2.2.1 hfits mounts).of_run hrun
    refine ⟨hsound, (hup.of_run hrun).1, ?_⟩
    cases hop with
    | made _ _ _ _ hfill =>
        exact (Shrinks.of_node hfill.node).terminated (h.terminated.created hd.node)
    | hidden _ _ _ _ => exact h.terminated.created hd.node
    | existing hnode _ => exact (Shrinks.of_node hnode).terminated h.terminated
    | refused _ => exact h.terminated
  | unlinkat dir name =>
    obtain ⟨r, hrun⟩ := hleads
    obtain ⟨p, d, hd⟩ := h.parent hl.1 hl.2
    obtain ⟨hsound, hshrinks⟩ := (unlinkAt_spec h.sound hd hw mounts name).of_run hrun
    exact ⟨hsound, hshrinks.distinct h.distinct, hshrinks.terminated h.terminated⟩
  | other act =>
    obtain ⟨r, hrun⟩ := hleads
    obtain ⟨hsound, htransfer, -⟩ := (perform_spec h.sound hl.1 hw).of_run hrun
    have hshrinks := Shrinks.of_transfer htransfer hl.2
    exact ⟨hsound, hshrinks.distinct h.distinct, hshrinks.terminated h.terminated⟩

lemma tidy_of_mounted (h : Mounted s0) : Tidy s0 := by
  have hempty : ∀ p d, s0.node p = some d → d.children = [] := by
    intro p d hd
    by_cases hp : p = rootAddr
    · rw [hp, h.root] at hd
      cases hd
      rfl
    · rw [h.only p hp] at hd
      cases hd
  refine ⟨h.sound, fun p d hd => ?_, fun p d hd e he => ?_⟩
  · rw [hempty p d hd]
    exact nodup_nil
  · rw [hempty p d hd] at he
    cases he

/-- In every run whose calls all meet the condition the names of each directory are distinct, and
the next call keeps them distinct and makes a visible entry exactly if it meets the condition. -/
theorem names_distinct_iff {s₀ : Store} {calls : List Call} (h₀ : Mounted s₀)
    (hrun : Run (FineStep mounts) s₀ calls s) :
    Distinct s ∧ ∀ c : Call, c.Legal s → c.Within s → (c.Upholds mounts s ↔ c.Fine mounts s) := by
  have htidy : Tidy s := hrun.invariant Tidy (fun _ _ _ h hstep => h.step hstep)
    (tidy_of_mounted h₀)
  exact ⟨htidy.distinct, fun c hl hw => upholds_iff htidy hl hw⟩

/-- A directory `a` has been made in an empty tmpfs. -/
def dirMade : Store := (booted []).created rootAddr rootInode [97#8] .dir 2

lemma parent_root (hr : s.node rootAddr = some r) (hdir : r.type = .dir) :
    Parent s .root rootAddr r :=
  ⟨⟨trivial, rfl, hr, hdir.symm⟩, hdir⟩

lemma run_lookupAt_absent (hd : Parent s dir p d) (habsent : d.child name = none) :
    (lookupAt [] dir name).run s = .ok (.none, s) := by
  rw [lookupAt, if_neg (by simp [mountedAt]),
    run_bind_ok (run_lookup_absent hd.toBehind hd.dir habsent)]
  rfl

lemma run_mkdirAt_absent (hd : Parent s dir p d) (hname : name ≠ []) (habsent : d.child name = none)
    (hpa : p ≠ a) : (mkdirAt [] dir name ⟨true, some a⟩).run s =
      .ok (true, s.created p d name .dir a) := by
  rw [mkdirAt, run_bind_ok (run_lookupAt_absent hd habsent)]
  exact run_create_absent hd.toBehind hd.dir hname habsent hpa

/-- After `mkdirat` of `a` a second `mkdirat` of `a` keeps the names distinct. -/
theorem names_distinct_made : Mounted (booted []) ∧
    Run (FineStep []) (booted []) [.mkdirat .root [97#8] ⟨true, some 2⟩] dirMade ∧
    Distinct dirMade ∧ ((Call.mkdirat .root [97#8] ⟨true, some 3⟩).Upholds [] dirMade ↔
      (Call.mkdirat .root [97#8] ⟨true, some 3⟩).Fine [] dirMade) := by
  have h₀ : Mounted (booted []) := mounted_booted nodup_nil nofun
  have hroom : (booted []).room := fun _ => show 0 + 1 < 2 ^ 32 by decide
  have hfine : (Call.mkdirat .root [97#8] ⟨true, some 2⟩).Fine [] (booted []) := by
    rintro - - p d hp hd
    cases hp
    cases hd
    exact show [97#8].length < dirsiz ∧ (booted []).unused ≠ none by decide +kernel
  have hstep : FineStep [] (booted []) (.mkdirat .root [97#8] ⟨true, some 2⟩) dirMade := by
    refine ⟨⟨trivial, rfl, nofun, ?_⟩, ⟨hroom, by decide, ?_⟩, hfine, true, ?_⟩
    · rintro a ha
      cases ha
      rfl
    · rintro p d hp hd
      cases hp
      cases hd
      decide
    · exact run_mkdirAt_absent (parent_root rfl rfl) nofun rfl (by decide)
  have hrun : Run (FineStep []) (booted []) _ dirMade := .cons hstep (.nil _)
  obtain ⟨hdistinct, hnext⟩ := names_distinct_iff h₀ hrun
  refine ⟨h₀, hrun, hdistinct, hnext _ ⟨trivial, rfl, nofun, ?_⟩ ⟨hroom, by decide, ?_⟩⟩
  · rintro a ha
    cases ha
    rfl
  · rintro p d hp hd
    cases hp
    cases hd
    decide

/-- `mkdirat` of a name of 24 bytes succeeds, but a lookup of the name fails, and a second `mkdirat`
of it makes another entry with the same name. -/
theorem mkdirat_long_name_twice : Mounted (booted []) ∧ ∃ s₁ s₂,
    (mkdirAt [] .root longName ⟨true, some 2⟩).run (booted []) = .ok (true, s₁) ∧
    (lookupAt [] .root longName).run s₁ = .ok (.none, s₁) ∧
    (mkdirAt [] .root longName ⟨true, some 3⟩).run s₁ = .ok (true, s₂) ∧ ¬Distinct s₂ := by
  refine ⟨mounted_booted nodup_nil nofun, ?_⟩
  have hroot : Parent (booted []) .root rootAddr rootInode := parent_root rfl rfl
  have hparent : Parent ((booted []).created rootAddr rootInode longName .dir 2) .root rootAddr
    (entered rootInode longName .dir 2) := hroot.created
  have habsent : (entered rootInode longName .dir 2).child longName = none := by decide +kernel
  refine ⟨_, _, run_mkdirAt_absent hroot (by decide) rfl (by decide),
    run_lookupAt_absent hparent habsent,
    run_mkdirAt_absent hparent (by decide) habsent (by decide), fun hdistinct => ?_⟩
  have hnodup := hdistinct rootAddr _ created_node_self
  exact absurd hnodup (by decide +kernel)

end FrostVista.Tmpfs.Names
