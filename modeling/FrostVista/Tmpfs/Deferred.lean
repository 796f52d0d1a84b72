import FrostVista.Tmpfs.Sharing

/-!
# tmpfs: deferred free

A transition system of all that uses tmpfs and the inode cache. An inode is freed with all its pages
when no directory entry names it and no slot of the cache is in use for it.

This needs that the 16 bits for the links of a directory do not overflow: each subdirectory is a
link to its parent, so the 65535th subdirectory brings the links of a directory back to 0, and
closing the directory then frees its inode while its entry still names it.
-/
namespace FrostVista.Tmpfs.Deferred

open Lib Lib.Comp Function List Nat Store

open Kernel.Ftable (NodeType)

open Kernel.Namei (Name sameName ninodes dirsiz)

/-- The calls of tmpfs, the use of the cache by other file systems, and what else the kernel
does. -/
inductive Action where
  | create (dir : Handle) (name : Name) (type : NodeType) (k : Kmalloc)
  | lookup (dir : Handle) (name : Name)
  | read (x : Handle) (off size : Nat)
  | write (x : Handle) (off : Nat) (data : List Byte)
  | truncate (x : Handle)
  | unlink (dir : Handle) (name : Name)
  | release (x : Handle)
  | getOther (dev ino : Nat) (alloc : Bool)
  | fillOther (i : SlotId) (nlinks size : Nat) (type : NodeType)
  | putOther (i : SlotId) (free : Bool)
  | others (page : Nat → Bytes) (free : List Nat)

/-- What a call returns. -/
inductive Answer where
  | done
  | flag (b : Bool)
  | slot (i : Option SlotId)
  | bytes (data : Option (List Byte))
  | written (n : Option Nat)
  deriving DecidableEq

def Action.perform : Action → T Answer
  | .create dir name type k => do
    let r ← tmpfsVfsCreate dir name type k
    pure (.flag r)
  | .lookup dir name => do
    let r ← tmpfsVfsLookup dir name
    pure (.slot r)
  | .read x off size => do
    let r ← tmpfsVfsRead x off size
    pure (.bytes r)
  | .write x off data => do
    let r ← tmpfsVfsWrite x off data
    pure (.written r)
  | .truncate x => do
    let r ← tmpfsVfsTruncate x 0
    pure (.flag r.isSome)
  | .unlink dir name => do
    let r ← tmpfsVfsUnlink dir name
    pure (.flag r)
  | .release x => do
    tmpfsDestroyInode x
    pure .done
  | .getOther dev ino alloc => do
    let r ← getInode dev ino alloc
    pure (.slot r)
  | .fillOther i nlinks size type => do
    modify fun s => s.setSlot i { s.slot i with nlinks := nlinks, size := size, type := type }
    pure .done
  | .putOther i free => do
    putInode i free
    pure .done
  | .others page free => do
    modify fun s => { s with page := page, free := free }
    pure .done

/-- What the callers keep to: they have references to the inodes they use, the directory of a call
is one, and `kmalloc` returns memory that is not in use. -/
def Legal (s : Store) : Action → Prop
  | .create dir _ _ k => s.holds dir ∧ s.typeOf dir = .dir ∧ ∀ a, k.inode = some a → s.node a = none
  | .lookup dir _ => s.holds dir ∧ s.typeOf dir = .dir
  | .read x _ _ => s.holds x
  | .write x _ _ => s.holds x
  | .truncate x => s.holds x
  | .unlink dir _ => s.holds dir
  | .release x => s.holds x
  | .getOther dev _ _ => dev ≠ tmpfsDev
  | .fillOther i _ _ _ => (s.slot i).dev ≠ tmpfsDev
  | .putOther i free => (s.slot i).dev ≠ tmpfsDev ∧ (free = true → ∃ q, (s.slot i).data = .page q)
  | .others page free => Unrelated s page free

/-- No counter overflows: the references to a slot, the numbers of inodes, and the links of a
directory. -/
def Within (s : Store) : Action → Prop
  | .create dir _ type _ => s.room ∧ s.nextIno + 1 < 2 ^ 32 ∧
      (type = .dir → ∀ p d, s.dataOf dir = .node p → s.node p = some d → d.nlinks + 1 < 2 ^ 16)
  | .lookup _ _ => s.room
  | _ => True

def Step (s : Store) (act : Action) (s' : Store) : Prop :=
  Legal s act ∧ ∃ r, act.perform.run s = .ok (r, s')

/-! ## What a step does to the inodes -/

/-- The call may change the contents of the file at `b`. -/
def Action.changes (s : Store) (b : Nat) : Action → Prop
  | .write x _ _ => s.dataOf x = .node b
  | .truncate x => s.dataOf x = .node b
  | _ => False

/-- Other users of the cache and of the pages. -/
def Action.foreign : Action → Bool
  | .getOther .. => true
  | .fillOther .. => true
  | .putOther .. => true
  | .others .. => true
  | _ => false

/-- The calls that change directories. -/
def Action.relinks : Action → Bool
  | .create .. => true
  | .unlink .. => true
  | _ => false

/-- How the entries of the directory at `b` change from `l` to `l'`. -/
def Action.Relinks (s : Store) (b : Nat) (l l' : List DirEntry) : Action → Prop
  | .create dir name type _ => l' = l ∨ s.dataOf dir = .node b ∧ ∃ a, l' =
      ⟨storedName name, a, type⟩ :: l
  | .unlink dir name => l' = l ∨ s.dataOf dir = .node b ∧ l' = l.eraseP fun e =>
      sameName name e.name
  | _ => l' = l

/-- The last reference to the slot is given back. -/
def Action.drops (s : Store) (i : SlotId) : Action → Prop
  | .release x => x = .slot i ∧ (s.slot i).count = 1
  | _ => False

/-- The inode with this number is live. -/
def Live (s : Store) (ino : Nat) : Prop := ∃ a n, s.node a = some n ∧ n.ino = ino

/-- An inode stays with its contents, or it is freed with its pages; a new inode has a new number;
only creating and removing change directories; a reference stays good until it is given back; and
tmpfs neither gains nor loses pages. -/
structure Transfer (s : Store) (act : Action) (s' : Store) : Prop where
  stays : ∀ b n n', s.node b = some n → s'.node b = some n' → n'.ino = n.ino ∧ n'.type = n.type ∧
    (¬act.changes s b → Undisturbed (s.file n) (s'.file n'))
  goes : ∀ b n, s.node b = some n → s'.node b = none → ∀ p ∈ pages (s.file n), p ∈ s'.free
  comes : ∀ b n', s.node b = none → s'.node b = some n' → act.relinks = true ∧ n'.ino = s.nextIno ∧
    s'.nextIno = s.nextIno + 1
  nextIno : s.nextIno ≤ s'.nextIno
  children : ∀ b n n', s.node b = some n → s'.node b = some n' →
    act.Relinks s b n.children n'.children
  slot : ∀ i, (s.slot i).held → ¬act.drops s i → (s'.slot i).held ∧
    (s'.slot i).data = (s.slot i).data
  pool : act.foreign = false → ∀ p, s'.pool p ↔ s.pool p

/-- A lookup returns a slot in use for the inode of the entry; a read returns the contents of the
file. -/
def Returns (s : Store) (act : Action) (r : Answer) (s' : Store) : Prop :=
  match act with
  | .lookup dir name => ∀ i, r = .slot (some i) → (s'.slot i).held ∧
      ∃ p d e n, s.dataOf dir = .node p ∧
      s.node p = some d ∧ d.child name = some e ∧ (s'.slot i).data = .node e.inode ∧
      s'.node e.inode = some n ∧ n.ino = (s'.slot i).ino
  | .read x off size => ∃ a n, s.dataOf x = .node a ∧ s.node a = some n ∧
      r = .bytes (vfsRead off size (s.file n)).1
  | _ => True

section Step

variable {s s' : Store} {ext : Nat → Prop} {act : Action} {a b p : Nat} {n d : Inode} {name : Name}

lemma Action.Relinks.refl (s : Store) (b : Nat) (l : List DirEntry) (act : Action) :
    act.Relinks s b l l := by
  cases act <;> simp [Action.Relinks]

def identity (n : Inode) : Nat × NodeType := (n.ino, n.type)

section
variable
  (hslot : ∀ i, (s.slot i).held → ¬act.drops s i → (s'.slot i).held ∧
    (s'.slot i).data = (s.slot i).data)
include hslot

/-- No inode comes. -/
lemma Transfer.of_identity
    (hid : ∀ b n', s'.node b = some n' → (s.node b).map identity = some (identity n'))
    (hgoes : ∀ b n, s.node b = some n → s'.node b = none → ∀ p ∈ pages (s.file n), p ∈ s'.free)
    (hfile : ∀ b, s'.node b ≠ none → ¬act.changes s b → Untouched s s' b)
    (hchildren : ∀ b n n', s.node b = some n → s'.node b = some n' →
      act.Relinks s b n.children n'.children)
    (hnext : s'.nextIno = s.nextIno) (hpool : act.foreign = false → ∀ p, s'.pool p ↔ s.pool p) :
    Transfer s act s' where
  stays b n n' hn hn' := by
    have hsame := hid b n' hn'
    rw [hn] at hsame
    obtain ⟨hino, htype⟩ := Prod.mk.inj (Option.some.inj hsame)
    refine ⟨hino.symm, htype.symm, fun hact => ?_⟩
    obtain ⟨k, hk, hsame⟩ := hfile b (by simp [hn']) hact n hn
    cases hn'.symm.trans hk
    exact hsame
  goes := hgoes
  comes b n' hn hn' := by
    have hsame := hid b n' hn'
    rw [hn] at hsame
    cases hsame
  nextIno := hnext.ge
  children := hchildren
  slot := hslot
  pool := hpool

lemma Transfer.of_node (hnode : s'.node = s.node) (hnext : s'.nextIno = s.nextIno)
    (hfile : ∀ b, Untouched s s' b)
    (hpool : act.foreign = false → ∀ p, s'.pool p ↔ s.pool p) : Transfer s act s' := by
  refine .of_identity hslot (fun b n' hn' => ?_) (fun b n hn hn' => ?_)
    (fun b _ _ => hfile b) (fun b n n' hn hn' => ?_)
    hnext hpool
  · rw [← hnode, hn']
    rfl
  · cases hn.symm.trans (hnode ▸ hn')
  · cases hn.symm.trans (hnode ▸ hn')
    exact .refl ..

lemma Transfer.of_freed (hgone : s'.node a = none)
    (hfree : ∀ n, s.node a = some n → ∀ p ∈ pages (s.file n), p ∈ s'.free)
    (hother : ∀ b, b ≠ a → (s'.node b).map identity = (s.node b).map identity)
    (hchildren : ∀ b n n', s.node b = some n → s'.node b = some n' →
      act.Relinks s b n.children n'.children)
    (hnext : s'.nextIno = s.nextIno) (hkeeps : Keeps (fun b => s'.node b = none) s s') :
    Transfer s act s' := by
  refine .of_identity hslot (fun b k' hk' => ?_) (fun b k hk hk' => ?_)
    (fun b hb _ => hkeeps.file b hb) hchildren
    hnext fun _ => hkeeps.pool
  · have hb : b ≠ a := by
      rintro rfl
      cases hgone.symm.trans hk'
    rw [← hother b hb, hk']
    rfl
  · by_cases hb : b = a
    · subst hb
      exact hfree k hk
    · have hid := hother b hb
      rw [hk, hk'] at hid
      cases hid

end

lemma Transfer.of_aloof (h : Aloof s s') (hf : act.foreign = true) : Transfer s act s' :=
  .of_node (fun i hi _ => by rw [h.slot i hi]; exact ⟨hi, rfl⟩) h.node h.nextIno h.file fun hn => by
    rw [hf] at hn
    cases hn

lemma Transfer.of_putFile (hn : s.node a = some n) (hkeeps : Keeps (· = a) s (s.putFile a n m))
    (hact : act.changes s a) : Transfer s act (s.putFile a n m) := by
  have hold : ∀ b k', (s.putFile a n m).node b = some k' →
      ∃ k, s.node b = some k ∧ identity k = identity k' ∧ k.children = k'.children := by
    intro b k' hk'
    simp only [putFile, update_apply] at hk'
    split at hk'
    · cases hk'
      exact ⟨n, ‹b = a› ▸ hn, rfl, rfl⟩
    · exact ⟨k', hk', rfl, rfl⟩
  refine .of_identity (fun _ hi _ => ⟨hi, rfl⟩) (fun b k' hk' => ?_) (fun b k hk hk' => ?_)
    (fun b _ hnot => hkeeps.file b ?_) (fun b k k' hk hk' => ?_) rfl fun _ => hkeeps.pool
  · obtain ⟨k, hk, hsame, -⟩ := hold b k' hk'
    rw [hk, ← hsame]
    rfl
  · simp only [putFile, update_apply] at hk'
    split at hk'
    · cases hk'
    · cases hk.symm.trans hk'
  · rintro rfl
    exact hnot hact
  · obtain ⟨k, hk0, -, hchildren⟩ := hold b k' hk'
    cases hk.symm.trans hk0
    exact hchildren ▸ .refl ..

variable {dir : Handle} {k : Kmalloc} {type : NodeType} {r : Bool} {e : DirEntry}

lemma Transfer.of_created (hd : Behind s dir p d)
    (hfits : Fits s d type a) (hkeeps : Keeps (fun _ => False) s (s.created p d name type a)) :
    Transfer s (.create dir name type k) (s.created p d name type a) where
  stays b k k' hk hk' := by
    obtain ⟨k'', hk'', hsame⟩ := hkeeps.file b id k hk
    cases hk'.symm.trans hk''
    obtain ⟨rfl, rfl⟩ | ⟨rfl, rfl⟩ | hold := created_cases hk'
    · cases hk.symm.trans hd.node
      exact ⟨rfl, rfl, fun _ => hsame⟩
    · cases hk.symm.trans hfits.fresh
    · cases hk.symm.trans hold
      exact ⟨rfl, rfl, fun _ => hsame⟩
  goes b k hk hk' := by
    obtain ⟨k', hk'', -⟩ := hkeeps.file b id k hk
    rw [hk'] at hk''
    cases hk''
  comes b k' hk hk' := by
    obtain ⟨rfl, -⟩ | ⟨rfl, rfl⟩ | hold := created_cases hk'
    · cases hk.symm.trans hd.node
    · exact ⟨rfl, rfl, mod_eq_of_lt hfits.ino⟩
    · cases hk.symm.trans hold
  nextIno := by
    have : (s.created p d name type a).nextIno = s.nextIno + 1 := mod_eq_of_lt hfits.ino
    omega
  children b k k' hk hk' := by
    obtain ⟨rfl, rfl⟩ | ⟨rfl, rfl⟩ | hold := created_cases hk'
    · cases hk.symm.trans hd.node
      exact .inr ⟨hd.data, a, rfl⟩
    · cases hk.symm.trans hfits.fresh
    · cases hk.symm.trans hold
      exact .inl rfl
  slot _ hi _ := ⟨hi, rfl⟩
  pool _ := hkeeps.pool

lemma pages_subset_removed (h : Heap s) (hn : s.node a = some n) : ∀ p ∈ pages (s.file n),
    p ∈ (s.removed a n).free := by
  intro p hp
  have hfree : ∀ m : Mem, (s.dropFile a m).free = m.free := fun _ => rfl
  rw [removed, hfree]
  exact ((h.owned a n hn).free_freeBlocks p).mpr (.inr hp)

lemma Transfer.of_keeps (hnode : s'.node = s.node) (hnext : s'.nextIno = s.nextIno)
    (hkeeps : Keeps (fun _ => False) s s') (hstays : Stays s s') : Transfer s act s' :=
  .of_node (fun i hi _ => hstays i hi) hnode hnext (fun b => hkeeps.file b id) fun _ => hkeeps.pool

lemma transfer_create (hs : Sound ext s)
    (hroom : s.room) (hd : Behind s dir p d) (hfits : ∀ a, k = ⟨true, some a⟩ → Fits s d type a)
    (hkeeps : Keeps (fun _ => False) s s') (h : Creates s p d name type k r s') :
    Transfer s (.create dir name type k) s' := by
  have hstays := h.stays hs hroom
  cases h with
  | made _ hk _ => exact .of_created hd (hfits _ hk) hkeeps
  | found _ _ _ hfill => exact .of_keeps hfill.node hfill.nextIno hkeeps hstays
  | refused _ => exact .of_keeps rfl rfl hkeeps hstays

lemma identity_detached (hl : Leaf s p d name e n) (b : Nat) :
    ((s.detached p d name e n).node b).map identity = (s.node b).map identity := by
  simp only [detached, setNode, update_apply]
  split
  · rw [‹b = p›, hl.parent]
    rfl
  · split
    · rw [‹b = e.inode›, hl.node]
      rfl
    · rfl

lemma relinks_detached (hl : Leaf s p d name e n) (hdata : s.dataOf dir = .node p)
    {k k' : Inode} (hk : s.node b = some k) (hk' : (s.detached p d name e n).node b = some k') :
    (Action.unlink dir name).Relinks s b k.children k'.children := by
  obtain ⟨rfl, rfl⟩ | ⟨rfl, rfl⟩ | hold := detached_cases hk'
  · cases hk.symm.trans hl.parent
    exact .inr ⟨hdata, rfl⟩
  · cases hk.symm.trans hl.node
    exact .inl rfl
  · cases hk.symm.trans hold
    exact .inl rfl

lemma transfer_unlink (hs : Sound ext s) (hd : Behind s dir p d)
    (hkeeps : Keeps (fun b => s'.node b = none) s s') (h : Unlinks s p d name r s') :
    Transfer s (.unlink dir name) s' := by
  have hstays := h.stays
  cases h with
  | refused _ =>
    exact .of_node (fun i hi _ => hstays i hi) rfl rfl
      (fun b k hk => hkeeps.file b (by simp [hk]) k hk) fun _ => hkeeps.pool
  | @deferred e n hname hchild hfile hn hopen =>
    have hl : Leaf s p d name e n := ⟨hd.node, hchild, hfile, hn⟩
    have hid :
      ∀ b, (((s.detached p d name e n).mapSlots n.ino fun ip => { ip with nlinks := 0 }).node b).map
        identity = (s.node b).map identity := identity_detached hl
    refine .of_identity (fun i hi _ => hstays i hi) (fun b k' hk' => ?_) (fun b k hk hk' => ?_)
      (fun b hb _ => hkeeps.file b hb) (fun b k k' hk hk' => relinks_detached hl hd.data hk hk') rfl
      fun _ => hkeeps.pool
    · rw [← hid b, hk']
      rfl
    · -- no inode goes
      have hnone := hid b
      rw [hk, hk'] at hnone
      cases hnone
  | @freed e n hname hchild hfile hn hopen =>
    have hl : Leaf s p d name e n := ⟨hd.node, hchild, hfile, hn⟩
    obtain ⟨hheap, -⟩ := hl.heap hs (f := fun ip => { ip with data := .null, pdOwned := false })
      fun _ _ _ =>
      by simp
    refine .of_freed (fun i hi _ => hstays i hi) (a := e.inode) ?_ ?_ ?_ ?_ ?_ hkeeps
    · rw [removed_node, update_self]
    · intro k hk q hq
      rw [hn] at hk
      cases hk
      exact pages_subset_removed hheap (hl.node_freed hs) q hq
    · intro b hb
      rw [removed_node, update_of_ne hb]
      exact identity_detached hl b
    · intro b k k' hk hk'
      rw [removed_node, update_apply] at hk'
      split at hk'
      · cases hk'
      · exact relinks_detached hl hd.data hk hk'
    · rw [removed_nextIno]
      rfl

lemma transfer_release (hs : Sound ext s)
    (hkeeps : Keeps (fun b => s'.node b = none) s s') (h : Destroys s x s') :
    Transfer s (.release x) s' := by
  have hstays := h.stays
  cases h with
  | root =>
    exact .of_node hstays rfl rfl (fun b k hk => hkeeps.file b (by simp [hk]) k hk) fun _ =>
      hkeeps.pool
  | kept _ =>
    exact .of_node hstays rfl rfl (fun b k hk => hkeeps.file b (by simp [setSlot, hk]) k hk)
      fun _ => hkeeps.pool
  | @freed i a n hcount hlinks hdata hn =>
    refine .of_freed hstays (a := a) ?_ ?_ ?_ ?_ ?_ hkeeps
    · rw [node_clear, removed_node, update_self]
    · intro k hk q hq
      rw [hn] at hk
      cases hk
      rw [free_clear]
      exact pages_subset_removed hs.heap hn q hq
    · intro b hb
      rw [node_clear, removed_node, update_of_ne hb]
    · intro b k k' hk hk'
      rw [node_clear, removed_node, update_apply] at hk'
      split at hk'
      · cases hk'
      · rw [hk] at hk'
        cases hk'
        exact .refl ..
    · rw [nextIno_clear, removed_nextIno]

/-- Every call that the callers may make returns, keeps the invariant and frees only what it
should. -/
lemma perform_spec (h : Sound ext s) (hl : Legal s act) (hw : Within s act) :
    Total act.perform s fun r s' => Sound ext s' ∧ Transfer s act s' ∧ Returns s act r s' := by
  cases act with
  | create dir name type k =>
    obtain ⟨hholds, htype, hfresh⟩ := hl
    obtain ⟨hroom, hino, hlinks⟩ := hw
    obtain ⟨p, d, hd⟩ := h.behind hholds
    have hfits : ∀ a, k = ⟨true, some a⟩ → Fits s d type a := by
      rintro a rfl
      exact ⟨hfresh a rfl, fun ht => hlinks ht p d hd.data hd.node, hino⟩
    refine .bind (h.create hd (hd.type ▸ htype) hroom hfits) ?_
    rintro r s' ⟨hsound, hkeeps, hr⟩
    exact .pure ⟨hsound, transfer_create h hroom hd hfits hkeeps hr, trivial⟩
  | lookup dir name =>
    obtain ⟨hholds, htype⟩ := hl
    obtain ⟨p, d, hd⟩ := h.behind hholds
    refine .bind (h.lookup hd (hd.type ▸ htype) hw name) ?_
    rintro r s' ⟨hsound, hkeeps, hr⟩
    refine .pure ⟨hsound, ?_, ?_⟩
    · cases r with
      | none =>
        obtain ⟨rfl, -⟩ := hr
        exact .of_keeps rfl rfl hkeeps (.of_slot rfl)
      | some i =>
        obtain ⟨e, n, -, hn, hfill⟩ := hr
        exact .of_keeps hfill.node hfill.nextIno hkeeps (hfill.stays h hn hw)
    · rintro i hi
      cases hi
      obtain ⟨e, n, he, hn, hfill⟩ := hr
      obtain ⟨hheld, hslot⟩ := hfill.held hw
      exact ⟨hheld, p, d, e, n, hd.data, hd.node, he, by rw [hslot]; rfl, by rw [hfill.node, hn],
        by rw [hslot]; rfl⟩
  | read x off size =>
    obtain ⟨a, n, hx⟩ := h.behind hl
    exact .bind_ok (hx.run_read off size)
      (.pure ⟨h, .of_keeps rfl rfl (.refl h.heap) (.of_slot rfl),
      a, n, hx.data, hx.node, rfl⟩)
  | write x off data =>
    obtain ⟨a, n, hx⟩ := h.behind hl
    obtain ⟨hrun, hsound, hkeeps⟩ := h.write hx off data
    exact .bind_ok hrun (.pure ⟨hsound, .of_putFile hx.node hkeeps hx.data, trivial⟩)
  | truncate x =>
    obtain ⟨a, n, hx⟩ := h.behind hl
    obtain ⟨hrun, hsound, hkeeps⟩ := h.truncate hx 0
    exact .bind_ok hrun (.pure ⟨hsound, .of_putFile hx.node hkeeps hx.data, trivial⟩)
  | unlink dir name =>
    obtain ⟨p, d, hd⟩ := h.behind hl
    refine .bind (h.unlink hd name) ?_
    rintro r s' ⟨hsound, hkeeps, hr⟩
    exact .pure ⟨hsound, transfer_unlink h hd hkeeps hr, trivial⟩
  | release x =>
    refine .bind (h.destroy hl) ?_
    rintro _ s' ⟨hsound, hkeeps, hr⟩
    exact .pure ⟨hsound, transfer_release h hkeeps hr, trivial⟩
  | getOther dev ino alloc =>
    refine .bind (h.getOther hl ino alloc) ?_
    rintro r s' ⟨hsound, haloof⟩
    exact .pure ⟨hsound, .of_aloof haloof rfl, trivial⟩
  | fillOther i nlinks size type =>
    have hdev : (s.slot i).dev ≠ tmpfsDev := hl
    obtain ⟨hsound, haloof⟩ :=
      h.setOther (e := { s.slot i with nlinks := nlinks, size := size, type := type })
      (fun hheld => hdev hheld.1) hdev (fun b => h.cache.others i b hdev) (h.cache.page i) fun q =>
        id
    exact .bind_ok (run_modify _ _) (.pure ⟨hsound, .of_aloof haloof rfl, trivial⟩)
  | putOther i free =>
    refine .bind (h.putOther hl.1 hl.2) ?_
    rintro _ s' ⟨hsound, haloof⟩
    exact .pure ⟨hsound, .of_aloof haloof rfl, trivial⟩
  | others page free =>
    obtain ⟨hsound, haloof⟩ := h.unrelated hl
    exact .bind_ok (run_modify _ _) (.pure ⟨hsound, .of_aloof haloof rfl, trivial⟩)

end Step

/-! ## Runs -/

/-- A slot in use for tmpfs points to the inode at `a`. -/
def Opened (s : Store) (a : Nat) : Prop := ∃ i, (s.slot i).held ∧ (s.slot i).data = .node a

/-- An inode is live exactly while an entry names it or it is in use; slots in use point to live
inodes; and every page has one owner. -/
structure FreedOnce (s : Store) : Prop where
  live : ∀ a, s.node a ≠ none ↔ a = rootAddr ∨ Named s.header a ∨ Opened s a
  slot : ∀ i, (s.slot i).held → ∃ a n, (s.slot i).data = .node a ∧ s.node a = some n ∧
    n.ino = (s.slot i).ino
  page : ∀ p o o', s.owns p o → s.owns p o' → o = o'
  free : s.free.Nodup

lemma freedOnce_of_sound (h : Sound (fun _ => False) s) : FreedOnce s where
  live a := by
    constructor
    · intro hne
      obtain ⟨n, hn⟩ := Option.ne_none_iff_exists'.mp hne
      by_cases hlinks : n.nlinks = 0
      · exact .inr (.inr (h.cache.unlinked a _ (header_of_node hn) hlinks))
      · rcases h.tree.linked a _ (header_of_node hn) hlinks with hroot | hext | hnamed
        · exact .inl hroot
        · exact absurd hext id
        · exact .inr (.inl hnamed)
    · rintro (rfl | ⟨p, d, hd, e, he, rfl⟩ | ⟨i, hi, hdata⟩)
      · obtain ⟨r, hr, -⟩ := h.tree.root
        obtain ⟨n, hn, -⟩ := header_eq_some.mp hr
        simp [hn]
      · obtain ⟨-, -, c, hc, -⟩ := h.tree.child p d e hd he
        obtain ⟨n, hn, -⟩ := header_eq_some.mp hc
        simp [hn]
      · obtain ⟨b, c, hc, hsnap⟩ := h.cache.held i hi
        obtain ⟨n, hn, -⟩ := header_eq_some.mp hc
        rw [hsnap.data] at hdata
        cases hdata
        simp [hn]
  slot i hi := by
    obtain ⟨a, c, hc, hsnap⟩ := h.cache.held i hi
    obtain ⟨n, hn, rfl⟩ := header_eq_some.mp hc
    exact ⟨a, n, hsnap.data, hn, hsnap.ino⟩
  page := h.heap.unique
  free := h.heap.nodup

/-- `tmpfs_init` has run, and tmpfs has no slot of the cache yet. -/
structure Mounted (s : Store) : Prop where
  root : s.node rootAddr = some rootInode
  only : ∀ a, a ≠ rootAddr → s.node a = none
  slot : ∀ i, (s.slot i).dev ≠ tmpfsDev
  data : ∀ i a, (s.slot i).data ≠ .node a
  pdOwned : ∀ i p, (s.slot i).data = .page p → (s.slot i).pdOwned = true ∧
    p ∉ s.free ∧ 0 < p ∧ p < 2 ^ 64
  page : ∀ i j p, (s.slot i).data = .page p → (s.slot j).data = .page p → i = j
  nodup : s.free.Nodup
  bound : ∀ p ∈ s.free, 0 < p ∧ p < 2 ^ 64
  order : ∀ i, i ∈ s.order
  nextIno : s.nextIno = rootIno + 1

lemma Mounted.sound (h : Mounted s) : Sound (fun _ => False) s := by
  have hnode : ∀ a n, s.node a = some n → a = rootAddr ∧ n = rootInode := by
    intro a n hn
    by_cases ha : a = rootAddr
    · rw [ha, h.root] at hn
      cases hn
      exact ⟨ha, rfl⟩
    · rw [h.only a ha] at hn
      cases hn
  have hheader : ∀ a c, s.header a = some c → a = rootAddr ∧ c = ⟨.dir, 1, rootIno, []⟩ := by
    intro a c hc
    obtain ⟨n, hn, rfl⟩ := header_eq_some.mp hc
    obtain ⟨ha, rfl⟩ := hnode a n hn
    exact ⟨ha, rfl⟩
  have hnone : ∀ p a, ¬s.owns p (.node a) := by
    rintro p a ⟨n, hn, hp⟩
    obtain ⟨-, rfl⟩ := hnode a n hn
    exact pages_eq_empty (fun _ _ => rfl) hp
  refine ⟨⟨?_, ?_, h.nodup, ?_⟩, ?_, ?_, h.order⟩
  · intro p o o' ho ho'
    match o, o' with
    | .free, .free => rfl
    | .free, .slot j => exact absurd ho (h.pdOwned j p ho').2.1
    | .slot j, .free => exact absurd ho' (h.pdOwned j p ho).2.1
    | .slot j, .slot k => exact congrArg _ (h.page j k p ho ho')
    | .node a, _ => exact absurd ho (hnone p a)
    | _, .node a => exact absurd ho' (hnone p a)
  · intro a n hn
    obtain ⟨-, rfl⟩ := hnode a n hn
    have hfile : EmptyFile (s.file rootInode) := ⟨rfl, fun _ _ => rfl, h.nodup, h.bound⟩
    exact hfile.owned
  · intro p o ho
    match o with
    | .free => exact h.bound p ho
    | .slot j => exact (h.pdOwned j p ho).2.2
    | .node a => exact absurd ho (hnone p a)
  · refine ⟨⟨_, header_of_node h.root, rfl⟩, ?_, ?_, ?_, ?_, ?_, ?_, ?_, fun _ => False.elim⟩
    all_goals grind
  · constructor
    · intro a b c c' hc hc' _
      exact (hheader a c hc).1.trans (hheader b c' hc').1.symm
    · intro a c hc
      obtain ⟨-, rfl⟩ := hheader a c hc
      rw [h.nextIno]
      exact lt_succ_self _
    · intro i hi
      exact absurd hi (h.slot i)
    · intro i _ hi
      exact absurd hi (h.slot i)
    · intro i hi
      exact absurd hi (h.slot i)
    · intro i a _
      exact h.data i a
    · intro i p hp
      exact (h.pdOwned i p hp).1
    · intro i hi
      exact absurd hi.1 (h.slot i)
    · intro a c hc hzero
      obtain ⟨-, rfl⟩ := hheader a c hc
      cases hzero

/-- A step in which no counter overflows. -/
def Bounded (s : Store) (act : Action) (s' : Store) : Prop := Step s act s' ∧ Within s act

variable {s₀ s t : Store} {acts later : List Action}

lemma sound_of_run (h : Sound ext s) (hrun : Run Bounded s acts t) : Sound ext t := by
  refine hrun.invariant (Sound ext) ?_ h
  rintro s act s' hs ⟨⟨hl, r, hr⟩, hw⟩
  exact ((perform_spec hs hl hw).of_run hr).1

lemma dead_of_run (h : Sound (fun _ => False) s) (hrun : Run Bounded s acts t)
    (hlt : ino < s.nextIno) (hdead : ¬Live s ino) : ¬Live t ino := by
  refine (hrun.invariant (fun s => Sound (fun _ => False) s ∧ ino < s.nextIno ∧ ¬Live s ino) ?_
    ⟨h, hlt, hdead⟩).2.2
  rintro s act s' ⟨hs, hlt, hdead⟩ ⟨⟨hl, r, hr⟩, hw⟩
  obtain ⟨hs', htransfer, -⟩ := (perform_spec hs hl hw).of_run hr
  refine ⟨hs', lt_of_lt_of_le hlt htransfer.nextIno, ?_⟩
  rintro ⟨b, n', hn', rfl⟩
  cases hn : s.node b with
  | none => exact hlt.ne (htransfer.comes b n' hn hn').2.1
  | some n => exact hdead ⟨b, n, hn, (htransfer.stays b n n' hn hn').1.symm⟩

/-- In every run in which no counter overflows, an inode is live exactly while an entry names it or
it is in use; the next call uses live objects only and frees an inode with all its pages; reads
return the contents, which only writes and truncations of the same file change; and an inode that
was freed stays freed. -/
theorem deferred_free (h₀ : Mounted s₀) (hrun : Run Bounded s₀ acts s) :
    FreedOnce s ∧
    (∀ act, Legal s act → Within s act →
      ∃ r s', act.perform.run s = .ok (r, s') ∧ Transfer s act s' ∧ Returns s act r s') ∧
    ∀ later t, Run Bounded s later t → ∀ ino < s.nextIno, ¬Live s ino → ¬Live t ino := by
  have hs := sound_of_run h₀.sound hrun
  refine ⟨freedOnce_of_sound hs, fun act hl hw => ?_, fun later t hlater ino hlt hdead =>
    dead_of_run hs hlater hlt hdead⟩
  obtain ⟨r, s', hr, -, htransfer, hreturns⟩ := perform_spec hs hl hw
  exact ⟨r, s', hr, htransfer, hreturns⟩

/-! ## A freshly mounted tmpfs -/

/-- The slot at the end of the list. -/
def firstSlot : SlotId := ⟨0, Kernel.Namei.ninodes_pos⟩

/-- The state after booting with these free pages. -/
def booted (free : List Nat) : Store where
  page _ := Bytes.zero
  free := free
  node a := if a = rootAddr then some rootInode else none
  slot _ := ⟨0, 0, 0, 0, .file, 0, .null, false⟩
  order := List.finRange ninodes
  nextIno := rootIno + 1

lemma mounted_booted {free : List Nat} (hnodup : free.Nodup)
    (hbound : ∀ p ∈ free, 0 < p ∧ p < 2 ^ 64) :
    Mounted (booted free) where
  root := rfl
  only _ ha := if_neg ha
  slot _ := show (0 : Nat) ≠ tmpfsDev by decide
  data _ _ := Data.noConfusion
  pdOwned _ _ h := Data.noConfusion h
  page _ _ _ h := Data.noConfusion h
  nodup := hnodup
  bound := hbound
  order := mem_finRange
  nextIno := rfl

def after (s : Store) (act : Action) : Store :=
  match act.perform.run s with
  | .ok (_, s') => s'
  | .error _ => s

lemma step_after (hl : Legal s act) (hok : (act.perform.run s).isOk = true) :
    Step s act (after s act) := by
  refine ⟨hl, ?_⟩
  unfold after
  cases hr : act.perform.run s with
  | ok r => exact ⟨r.1, rfl⟩
  | error e =>
    rw [hr] at hok
    cases hok

/-- A file `a` has been made. -/
def fileMade : Store := after (booted [5, 6]) (.create .root [97#8] .file ⟨true, some 2⟩)

def fileOpened : Store := after fileMade (.lookup .root [97#8])

/-- A byte has been written to it. -/
def fileWritten : Store := after fileOpened (.write (.slot firstSlot) 0 [7#8])

def fileUnlinked : Store := after fileWritten (.unlink .root [97#8])

/-- The file is made, opened, written and unlinked. -/
def unlinkOpen : List Action :=
  [.create .root [97#8] .file ⟨true, some 2⟩, .lookup .root [97#8],
    .write (.slot firstSlot) 0 [7#8],
    .unlink .root [97#8]]

lemma run_unlinkOpen : Run Bounded (booted [5, 6]) unlinkOpen fileUnlinked := by
  have h₁ : Bounded (booted [5, 6]) (.create .root [97#8] .file ⟨true, some 2⟩) fileMade := by
    refine ⟨step_after ⟨trivial, rfl, fun a ha => by cases ha; rfl⟩ (by decide +kernel), ?_, ?_, ?_⟩
    · exact fun _ => show 0 + 1 < 2 ^ 32 by decide
    · decide
    · exact fun h => NodeType.noConfusion h
  have h₂ : Bounded fileMade (.lookup .root [97#8]) fileOpened := by
    refine ⟨step_after ⟨trivial, rfl⟩ (by decide +kernel), ?_⟩
    exact show ∀ i, (fileMade.slot i).count + 1 < 2 ^ 32 by decide +kernel
  have h₃ : Bounded fileOpened (.write (.slot firstSlot) 0 [7#8]) fileWritten :=
    ⟨step_after (show (fileOpened.slot firstSlot).held by decide +kernel) (by decide +kernel),
      trivial⟩
  have h₄ : Bounded fileWritten (.unlink .root [97#8]) fileUnlinked :=
    ⟨step_after (show fileWritten.holds .root from trivial) (by decide +kernel), trivial⟩
  exact .cons h₁ (.cons h₂ (.cons h₃ (.cons h₄ (.nil _))))

/-- A file that is open when it is unlinked stays until it is closed. -/
theorem deferred_free_open : Mounted (booted [5, 6]) ∧
    Run Bounded (booted [5, 6]) [.create .root [97#8] .file ⟨true, some 2⟩, .lookup .root [97#8],
      .write (.slot firstSlot) 0 [7#8], .unlink .root [97#8]] fileUnlinked ∧
    (fileUnlinked.node 2).isSome = true ∧ (fileUnlinked.node rootAddr).map Inode.children =
      some [] ∧
    FreedOnce fileUnlinked ∧ ∃ r s',
      (Action.release (.slot firstSlot)).perform.run fileUnlinked = .ok (r, s') ∧
      Transfer fileUnlinked (.release (.slot firstSlot)) s' := by
  have h₀ : Mounted (booted [5, 6]) := mounted_booted (by decide) (by decide)
  obtain ⟨honce, hnext, -⟩ := deferred_free h₀ run_unlinkOpen
  obtain ⟨r, s', hr, htransfer, -⟩ := hnext (.release (.slot firstSlot))
    (show (fileUnlinked.slot firstSlot).held by decide +kernel) trivial
  exact ⟨h₀, run_unlinkOpen, by decide +kernel, by decide +kernel, honce, r, s', hr, htransfer⟩

/-- tmpfs loses no page and uses none twice: after any calls, failing ones included, the pages that
were there at the start are those with exactly one owner: a file, a slot of the cache, or the free
list. -/
theorem pool_iff_one_owner (h₀ : Mounted s₀) (hrun : Run Bounded s₀ acts s)
    (hacts : ∀ act ∈ acts, act.foreign = false) (p : Nat) : s₀.pool p ↔ ∃! o, s.owns p o := by
  have hkeep : Sound (fun _ => False) s ∧ ∀ p, s₀.pool p ↔ s.pool p := by
    refine (hrun.restrict fun act ha _ => hacts act ha).invariant
      (fun s => Sound (fun _ => False) s ∧ ∀ p, s₀.pool p ↔ s.pool p) ?_ ⟨h₀.sound, fun _ => .rfl⟩
    rintro s act s' ⟨hs, hpool⟩ ⟨hact, ⟨hl, r, hr⟩, hw⟩
    obtain ⟨hs', htransfer, -⟩ := (perform_spec hs hl hw).of_run hr
    exact ⟨hs', fun p => (hpool p).trans (htransfer.pool hact p).symm⟩
  obtain ⟨hs, hpool⟩ := hkeep
  rw [hpool]
  exact ⟨fun ⟨o, ho⟩ => ⟨o, ho, fun o' ho' => hs.heap.unique p o' o ho' ho⟩, ExistsUnique.exists⟩

/-- The page of the open file is off the free list until the file is closed. -/
theorem pool_iff_one_owner_unlinked : ∃ s,
    Run Bounded (booted [5, 6]) (unlinkOpen ++ [.release (.slot firstSlot)]) s ∧
      fileUnlinked.free = [6] ∧ s.free = [5, 6] ∧ ∀ p, (booted [5, 6]).pool p ↔
        ∃! o, s.owns p o := by
  have hstep : Bounded fileUnlinked (.release (.slot firstSlot))
      (after fileUnlinked (.release (.slot firstSlot))) :=
    ⟨step_after (show (fileUnlinked.slot firstSlot).held by decide +kernel) (by decide +kernel),
      trivial⟩
  have hrun := run_unlinkOpen.append (.cons hstep (.nil _))
  exact ⟨_, hrun, by decide +kernel, by decide +kernel,
    pool_iff_one_owner (mounted_booted (by decide) (by decide)) hrun (by decide)⟩

/-! ## A directory with 65535 subdirectories -/

/-- A name that does not fit into an entry. -/
def longName : Name := List.replicate dirsiz 97#8

variable {d n : Inode} {dir : Handle} {name : Name} {p a k : Nat}

lemma child_longName (h : ∀ e ∈ d.children, e.name.length = dirsiz - 1) :
    d.child longName = none := by
  refine find?_eq_none.mpr fun e he => ?_
  have hlen := h e he
  simp only [sameName, beq_iff_eq, longName]
  intro heq
  have := congrArg length heq
  simp only [length_take, length_replicate, hlen] at this
  exact absurd this (by decide)

/-- `tmpfs_vfs_lookup` of a name that no entry has -/
lemma run_lookup_absent (hd : Behind s dir p d) (hdir : d.type = .dir)
    (habsent : d.child name = none) :
    (tmpfsVfsLookup dir name).run s = .ok (none, s) := by
  rw [tmpfsVfsLookup, run_bind_ok (run_get s), if_neg (by simp [hd.type, hdir]),
    if_neg (by simp [hd.data]),
    hd.data, run_bind_ok (run_vfsIlock hd.holds), run_bind_ok (run_deref hd.node)]
  simp only [habsent]
  rfl

/-- `tmpfs_vfs_create` of a name that no entry has -/
lemma run_create_absent (hd : Behind s dir p d) (hdir : d.type = .dir) (hname : name ≠ [])
    (habsent : d.child name = none) (hpa : p ≠ a) :
    (tmpfsVfsCreate dir name type ⟨true, some a⟩).run s =
      .ok (true, s.created p d name type a) := by
  rw [tmpfsVfsCreate, if_neg hname, run_bind_ok (run_lookup_absent hd hdir habsent),
    run_bind_ok (run_vfsIlock hd.holds)]
  simp only
  rw [run_bind_ok (run_get s), if_neg (by simp [hd.data]),
    run_bind_ok (hd.run_linkInode hpa name type)]
  rfl

/-- The slot of the directory in the run below. -/
def openSlot : VfsInode := ⟨tmpfsDev, 2, 1, 1, .dir, 0, .node 2, false⟩

/-- The directory `d` at address 2 is open and has `k` subdirectories. -/
structure Wide (k : Nat) (s : Store) : Prop where
  slot : s.slot = Function.update (booted []).slot firstSlot openSlot
  root : ∃ r, s.node rootAddr = some r ∧ r.child [100#8] = some ⟨[100#8], 2, .dir⟩
  dir : ∃ d, s.node 2 = some d ∧ d.type = .dir ∧ d.ino = 2 ∧ d.nlinks = (1 + k) % 2 ^ 16 ∧
    ∀ e ∈ d.children, e.name.length = dirsiz - 1
  fresh : ∀ a, 3 + k ≤ a → s.node a = none

lemma Wide.slot_zero (h : Wide k s) : s.slot firstSlot = openSlot := by
  rw [h.slot, update_self]

lemma Wide.mkdir (h : Wide k s) :
    ∃ s', Step s (.create (.slot firstSlot) longName .dir ⟨true, some (3 + k)⟩) s' ∧
      Wide (k + 1) s' := by
  obtain ⟨d, hd, htype, hino, hlinks, hnames⟩ := h.dir
  obtain ⟨r, hr, hchild⟩ := h.root
  have hbehind : Behind s (.slot firstSlot) 2 d := by
    refine ⟨?_, ?_, hd, ?_⟩
    · change (s.slot firstSlot).held
      rw [h.slot_zero]
      decide
    · change (s.slot firstSlot).data = .node 2
      rw [h.slot_zero]
      rfl
    · change (s.slot firstSlot).type = d.type
      rw [h.slot_zero, htype]
      rfl
  have hpa : 2 ≠ 3 + k := by omega
  refine ⟨s.created 2 d longName .dir (3 + k),
    ⟨⟨hbehind.holds, hbehind.type.trans htype, ?_⟩, .flag true, ?_⟩,
    ?_⟩
  · rintro a ha
    cases ha
    exact h.fresh _ le_rfl
  · exact run_bind_ok (run_create_absent hbehind htype (by decide) (child_longName hnames) hpa) _
  · have hself : (s.created 2 d longName .dir (3 + k)).node 2 = some { d with
        nlinks := (d.nlinks + 1) % 2 ^ 16
        children := ⟨storedName longName, 3 + k, .dir⟩ :: d.children } := by simp [created]
    refine ⟨h.slot, ⟨r, ?_, hchild⟩, ⟨_, hself, htype, hino, ?_, ?_⟩, ?_⟩
    · have h1 : rootAddr ≠ 2 := by decide
      have h2 : rootAddr ≠ 3 + k := by simp only [rootAddr]; omega
      simp only [created]
      rw [update_of_ne h1, update_of_ne h2, hr]
    · simp only [hlinks]
      omega
    · intro e he
      rcases mem_cons.mp he with rfl | he
      · exact show (storedName longName).length = dirsiz - 1 by decide
      · exact hnames e he
    · intro a ha
      have h1 : a ≠ 2 := by omega
      have h2 : a ≠ 3 + k := by omega
      simp only [created]
      rw [update_of_ne h1, update_of_ne h2]
      exact h.fresh a (by omega)

lemma Wide.mkdirs (h : Wide k s) (n : Nat) : ∃ acts s', Run Step s acts s' ∧ Wide (k + n) s' := by
  induction n generalizing k s with
  | zero => exact ⟨[], s, .nil s, h⟩
  | succ n ih =>
    obtain ⟨s1, hstep, h1⟩ := h.mkdir
    obtain ⟨acts, s', hrun, h'⟩ := ih h1
    exact ⟨_, s', .cons hstep hrun, by rwa [show k + (n + 1) = k + 1 + n by omega]⟩

/-- `tmpfs_fill_vfs_inode` with the slot that `get_inode` returns -/
lemma run_fill (hn : s.node a = some n)
    (hget : (getInode tmpfsDev n.ino false).run s = .ok (some i, s.setSlot i e)) :
    (tmpfsFillVfsInode n.ino (.node a) n.type).run s = .ok (some i,
      s.setSlot i ⟨tmpfsDev, n.ino, e.count, n.nlinks, n.type, n.size, .node a, false⟩) := by
  rw [tmpfsFillVfsInode, if_neg (by simp), run_bind_ok hget]
  simp only
  rw [run_bind_ok (run_deref (show (s.setSlot i e).node a = some n from hn)),
    run_bind_ok (run_modify _ _)]
  simp [setSlot]

/-- `tmpfs_vfs_lookup` in the root directory, up to the slot -/
lemma run_lookup_root (hr : s.node rootAddr = some r)
    (hchild : r.child name = some e) (hn : s.node e.inode = some n) :
    (tmpfsVfsLookup .root name).run s = (tmpfsFillVfsInode n.ino (.node e.inode) n.type).run s := by
  rw [tmpfsVfsLookup, run_bind_ok (run_get s), if_neg (by simp [typeOf]), if_neg (by simp [dataOf]),
    run_bind_ok (run_vfsIlock (show s.holds .root from trivial))]
  simp only [dataOf]
  rw [run_bind_ok (run_deref hr)]
  simp only [hchild]
  rw [run_bind_ok (run_deref hn)]

lemma Wide.reopen (h : Wide (2 ^ 16 - 1) s) : ∃ s1 s2 s3, Step s (.release (.slot firstSlot)) s1 ∧
    Step s1 (.lookup .root [100#8]) s2 ∧ Step s2 (.release (.slot firstSlot)) s3 ∧
      s3.node 2 = none ∧
    Named s3.header 2 := by
  obtain ⟨d, hd, htype, hino, hlinks, -⟩ := h.dir
  obtain ⟨r, hr, hchild⟩ := h.root
  have hzero : d.nlinks = 0 := hlinks
  have hslot := h.slot_zero
  obtain ⟨s1, hs1⟩ : ∃ s1, s1 = s.setSlot firstSlot { openSlot with count := 0 } := ⟨_, rfl⟩
  have hslot1 : s1.slot firstSlot = { openSlot with count := 0 } := by
    simp [hs1, setSlot]
  have hnode1 : s1.node = s.node := by rw [hs1]; rfl
  obtain ⟨s2, hs2⟩ : ∃ s2, s2 = s1.setSlot firstSlot
    ⟨tmpfsDev, d.ino, 1, d.nlinks, d.type, d.size, .node 2, false⟩ := ⟨_, rfl⟩
  have hslot2 : s2.slot firstSlot = ⟨tmpfsDev, 2, 1, 0, .dir, d.size, .node 2, false⟩ := by
    simp [hs2, setSlot, hino, htype, hzero]
  have hnode2 : s2.node = s.node := by rw [hs2, ← hnode1]; rfl
  refine ⟨s1, s2, (s2.removed 2 d).clear firstSlot, ⟨?_, .done, ?_⟩,
    ⟨⟨trivial, rfl⟩, .slot (some firstSlot), ?_⟩,
    ⟨?_, .done, ?_⟩, ?_, ?_⟩
  · change (s.slot firstSlot).held
    rw [hslot]
    decide
  · refine run_bind_ok (a := ()) (t := s1) ?_ _
    rw [tmpfsDestroyInode, run_bind_ok (run_get s), hslot]
    simp only [openSlot]
    rw [if_neg (by decide), putInode, run_bind_ok (run_get s), hslot, hs1]
    rfl
  · refine run_bind_ok (a := some firstSlot) (t := s2) ?_ _
    have hfind : s1.slotOf tmpfsDev d.ino = some firstSlot := by
      have hall : s1.slot = update (booted []).slot firstSlot { openSlot with count := 0 } := by
        rw [hs1]
        simp [setSlot, h.slot]
      rw [slotOf, hall, hino]
      decide
    have hget : (getInode tmpfsDev d.ino false).run s1 =
        .ok (some firstSlot, s1.setSlot firstSlot { s1.slot firstSlot with count := 1 }) := by
      rw [getInode, run_bind_ok (run_get s1)]
      simp [hfind, hslot1, run_bind, attachData]
    rw [run_lookup_root (hnode1 ▸ hr) hchild (hnode1 ▸ hd), hs2]
    exact run_fill (hnode1 ▸ hd) hget
  · change (s2.slot firstSlot).held
    rw [hslot2]
    exact ⟨rfl, one_pos⟩
  · refine run_bind_ok (a := ()) (t := (s2.removed 2 d).clear firstSlot) ?_ _
    rw [tmpfsDestroyInode, run_bind_ok (run_get s2), hslot2]
    simp only [and_self, if_true]
    rw [run_bind_ok (run_deref (hnode2 ▸ hd))]
    refine (run_remove (hnode2 ▸ hd) (putInode firstSlot false)).trans ?_
    rw [putInode, run_bind_ok (run_get _), removed_slot, hslot2]
    simp only [and_self, if_true, when_false]
    rw [run_bind_ok (run_pure _ _), run_modify]
    simp only [clear, VfsInode.cleared, removed_slot, hslot2]
  · rw [node_clear, removed_node, update_self]
  · have hroot : ((s2.removed 2 d).clear firstSlot).node rootAddr = some r := by
      rw [node_clear, removed_node, update_of_ne (by decide), hnode2, hr]
    exact ⟨rootAddr, r.header, header_of_node hroot, _, mem_of_find?_eq_some hchild, rfl⟩

lemma wide_zero : ∃ acts s, Run Step (booted []) acts s ∧ Wide 0 s := by
  obtain ⟨s1, hs1⟩ : ∃ s1, s1 = (booted []).created rootAddr rootInode [100#8] .dir 2 := ⟨_, rfl⟩
  have hbehind : Behind (booted []) .root rootAddr rootInode := ⟨trivial, rfl, rfl, rfl⟩
  have h₁ : Step (booted []) (.create .root [100#8] .dir ⟨true, some 2⟩) s1 := by
    refine ⟨⟨trivial, rfl, ?_⟩, .flag true, ?_⟩
    · rintro a ha
      cases ha
      rfl
    · rw [hs1]
      exact run_bind_ok (run_create_absent hbehind rfl (by decide) rfl (by decide)) _
  have h₂ : Step s1 (.lookup .root [100#8]) (s1.setSlot firstSlot openSlot) := by
    refine ⟨⟨trivial, rfl⟩, .slot (some firstSlot), ?_⟩
    have hroot : s1.node rootAddr = some { rootInode with
        nlinks := 2
        children := [⟨[100#8], 2, .dir⟩] } := by rw [hs1]; rfl
    have hnew : s1.node 2 = some (freshInode .dir 2) := by rw [hs1]; rfl
    have hget : (getInode tmpfsDev 2 false).run s1 =
        .ok (some firstSlot, s1.setSlot firstSlot ⟨tmpfsDev, 2, 1, 0, .file, 0, .null, false⟩) := by
      rw [hs1]
      rfl
    refine run_bind_ok ?_ _
    rw [run_lookup_root hroot (e := ⟨[100#8], 2, .dir⟩) rfl hnew]
    exact run_fill hnew hget
  refine ⟨_, _, .cons h₁ (.cons h₂ (.nil _)), ?_, ?_, ?_, ?_⟩
  · rw [hs1]
    rfl
  · rw [hs1]
    exact ⟨_, rfl, rfl⟩
  · rw [hs1]
    exact ⟨freshInode .dir 2, rfl, rfl, rfl, rfl, by simp [freshInode]⟩
  · intro a ha
    have h1 : a ≠ rootAddr := by simp only [rootAddr]; omega
    have h2 : a ≠ 2 := by omega
    rw [hs1]
    simp [setSlot, created, h1, h2, booted]

/-- The inode of a directory is freed while the entry for it is still there. -/
theorem directory_freed : ∃ s₀ acts s, Mounted s₀ ∧ Run Step s₀ acts s ∧
    ∃ a, s.node a = none ∧ Named s.header a := by
  obtain ⟨acts₀, s₀, hrun₀, hwide₀⟩ := wide_zero
  obtain ⟨acts₁, s, hrun₁, hwide⟩ := hwide₀.mkdirs (2 ^ 16 - 1)
  rw [zero_add] at hwide
  obtain ⟨s₁, s₂, s₃, h₁, h₂, h₃, hnone, hnamed⟩ := hwide.reopen
  exact ⟨_, _, s₃, mounted_booted nodup_nil (by simp), (hrun₀.append hrun₁).append
    (.cons h₁ (.cons h₂ (.cons h₃ (.nil s₃)))), 2, hnone, hnamed⟩

end FrostVista.Tmpfs.Deferred
