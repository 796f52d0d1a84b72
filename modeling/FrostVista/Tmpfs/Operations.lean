import FrostVista.Tmpfs.Sound

/-!
# tmpfs: what the operations do to the store

Every operation through a handle that is in use returns without a fault, keeps the invariant, and
changes the contents of no file but the one it is for.
-/
namespace FrostVista.Tmpfs

open Lib Lib.Comp Function List Nat Store VfsInode Option

open Kernel.Ftable (NodeType)

open Kernel.Namei (Name sameName ninodes dirsiz)

variable {s s' : Store} {ext : Nat → Prop} {a p : Nat} {n d : Inode} {i : SlotId}
  {dir : Handle} {name : Name}

lemma run_deref (h : s.node a = some n) : (deref (.node a)).run s = .ok ((a, n), s) := by
  rw [deref, run_bind_ok (run_get s)]
  simp only [h]
  rfl

lemma run_kmfree (h : s.node a = some n) :
    (kmfree a).run s = .ok ((), { s with node := update s.node a none }) := by
  rw [kmfree, run_bind_ok (run_get s)]
  simp only [h]
  rfl

variable {α : Type} {dev ino : Nat} {x : Handle} {e : DirEntry} {m : Mem}
  {type : NodeType} {k : Kmalloc}
  {r : Bool}

lemma run_onFile (h : s.node a = some n) (f : Mem → α × Mem) :
    (onFile a f).run s = .ok ((f (s.file n)).1, s.putFile a n (f (s.file n)).2) := by
  rw [onFile, run_bind_ok (run_deref h)]
  rfl

/-! ## The inode cache -/

lemma slotOf_eq_some (h : s.slotOf dev ino = some i) :
    (s.slot i).ino = ino ∧ (s.slot i).dev = dev := by
  have := find?_some h
  simpa using this

lemma slotOf_eq_none (h : s.slotOf dev ino = none) (j : SlotId) :
    ¬((s.slot j).ino = ino ∧ (s.slot j).dev = dev) := by
  have := find?_eq_none.mp h j (mem_finRange j)
  simpa using this

lemma unused_eq_some (h : s.unused = some i) : (s.slot i).count = 0 := by
  have := find?_some h
  simpa using this

/-- No slot can be had for an inode: none holds it, and all are in use. -/
def Store.full (s : Store) (ino : Nat) : Prop := s.slotOf tmpfsDev ino = none ∧ s.unused = none

instance (s : Store) (ino : Nat) : Decidable (s.full ino) := inferInstanceAs (Decidable (_ ∧ _))

/-- The references to a slot after one more has been taken. -/
def VfsInode.taken (e : VfsInode) (ino : Nat) : Nat :=
  if e.isFor ino = true ∧ 0 < e.count then (e.count + 1) % 2 ^ 32 else 1

/-- What `tmpfs_fill_vfs_inode` writes into a slot. -/
def VfsInode.filled (e : VfsInode) (a : Nat) (n : Inode) : VfsInode :=
  ⟨tmpfsDev, n.ino, e.taken n.ino, n.nlinks, n.type, n.size, .node a, false⟩

/-- The slot `i` has been filled for the inode at `a`. -/
structure Filled (s : Store) (i : SlotId) (a : Nat) (n : Inode) (s' : Store) : Prop where
  node : s'.node = s.node
  nextIno : s'.nextIno = s.nextIno
  order : s'.order = s.order
  slot : s'.slot = update s.slot i ((s.slot i).filled a n)
  was : (s.slot i).isFor n.ino = true ∨ (s.slot i).count = 0 ∧ ∀ j, (s.slot j).isFor n.ino = false
  room : ¬s.full n.ino

/-- A page of another device goes back before its slot is filled. -/
def Store.recycled (s : Store) (i : SlotId) (e : VfsInode) : Store :=
  match (s.slot i).data with
  | .page p => { s.setSlot i e with page := update s.page p Bytes.zero, free :=
      p :: s.free }
  | _ => s.setSlot i e

lemma recycled_of_tmpfs (hcache : Cache s.header s.slot s.nextIno)
    (hdev : (s.slot i).dev = tmpfsDev) (e : VfsInode) : s.recycled i e = s.setSlot i e := by
  unfold recycled
  split
  · rename_i p hp
    exact absurd hp ((hcache.data i hdev).2 p)
  · rfl

lemma recycled_setSlot (e e' : VfsInode) : (s.recycled i e).setSlot i e' = s.recycled i e' := by
  unfold recycled
  split <;> simp [setSlot]

lemma recycled_slot (e : VfsInode) : (s.recycled i e).slot = update s.slot i e := by
  unfold recycled
  split <;> rfl

lemma recycled_node (e : VfsInode) :
    (s.recycled i e).node = s.node ∧ (s.recycled i e).header = s.header ∧
    (s.recycled i e).nextIno = s.nextIno ∧ (s.recycled i e).order = s.order := by
  unfold recycled
  split <;> exact ⟨rfl, rfl, rfl, rfl⟩

/-- `get_inode` for tmpfs finds a slot unless the cache is full. -/
lemma Sound.getInode (h : Sound ext s) (ino : Nat) :
    (s.full ino ∧ (getInode tmpfsDev ino false).run s = .ok (none, s)) ∨
    ∃ i e, (getInode tmpfsDev ino false).run s = .ok (some i, s.recycled i e) ∧
      e.count = (s.slot i).taken ino ∧ ¬s.full ino ∧
      ((s.slot i).isFor ino = true ∨ (s.slot i).count = 0 ∧ ∀ j, (s.slot j).isFor ino = false) := by
  rw [Tmpfs.getInode, run_bind_ok (run_get s)]
  cases hfound : s.slotOf tmpfsDev ino with
  | some i =>
    obtain ⟨hino, hdev⟩ := slotOf_eq_some hfound
    have hfor : (s.slot i).isFor ino = true := isFor_iff.mpr ⟨hdev, hino⟩
    refine .inr ⟨i, { s.slot i with count := (s.slot i).taken ino }, ?_, rfl, ?_, .inl hfor⟩
    · rw [recycled_of_tmpfs h.cache hdev]
      simp only [taken, hfor, true_and]
      by_cases hcount : 0 < (s.slot i).count
      · simp only [if_pos hcount]
        rfl
      · simp only [if_neg hcount]
        simp [run_bind, attachData]
    · rintro ⟨hnone, -⟩
      cases hfound.symm.trans hnone
  | none =>
    have hnone : ∀ j, (s.slot j).isFor ino = false := by
      intro j
      rw [← Bool.not_eq_true, isFor_iff]
      exact fun hj => slotOf_eq_none hfound j hj.symm
    cases hunused : s.unused with
    | none => exact .inl ⟨⟨hfound, hunused⟩, rfl⟩
    | some i =>
      have hcount := unused_eq_some hunused
      have htaken : (s.slot i).taken ino = 1 := by simp [taken, hcount]
      have hfull : ¬s.full ino := fun hfull => by cases hunused.symm.trans hfull.2
      by_cases hdev : (s.slot i).dev = tmpfsDev
      · refine .inr ⟨i, { s.slot i with ino := ino, count := 1, dev := tmpfsDev }, ?_, htaken.symm,
          hfull, .inr ⟨hcount, hnone⟩⟩
        rw [recycled_of_tmpfs h.cache hdev]
        simp [run_bind, attachData, hdev]
      · refine .inr ⟨i, { s.slot i with
          data := .null
          pdOwned := false
          ino := ino
          count := 1
          dev := tmpfsDev }, ?_, htaken.symm, hfull, .inr ⟨hcount, hnone⟩⟩
        simp only [ne_eq, hdev, not_false_eq_true, if_true]
        cases hdata : (s.slot i).data with
        | null => simp [run_bind, attachData, recycled, hdata]
        | node b => exact absurd hdata (h.cache.others i b hdev)
        | page q =>
          have howned := h.cache.page i q hdata
          simp [run_bind, attachData, recycled, hdata, howned, kfreeData]
          rfl

lemma Heap.setSlot (h : Heap s) {e : VfsInode}
    (he : ∀ q, e.data = .page q ↔ (s.slot i).data = .page q) :
    Heap (s.setSlot i e) ∧ Keeps (fun _ => False) s (s.setSlot i e) := by
  refine h.rearranged (fun j q => ?_) (fun b k hk => .inr ⟨k, hk, rfl⟩)
    (fun b k hk => ⟨k, hk, rfl, rfl⟩) rfl rfl
  by_cases hj : j = i
  · subst hj
    simp only [Store.setSlot, update_self, he]
  · simp only [Store.setSlot, update_of_ne hj]

lemma Heap.recycled (h : Heap s) {e : VfsInode} (he : ∀ q, e.data ≠ .page q) :
    Heap (s.recycled i e) ∧ Keeps (fun _ => False) s (s.recycled i e) := by
  unfold Store.recycled
  split
  · rename_i q hq
    obtain ⟨hheap, hpool, hfile⟩ := h.kfree_slot hq he rfl
    exact ⟨hheap, hpool, fun b _ => hfile b⟩
  · rename_i hnone
    exact h.setSlot fun q => iff_of_false (he q) (hnone q)

lemma taken_pos {e : VfsInode} (h : e.count + 1 < 2 ^ 32) : 0 < e.taken ino := by
  unfold taken
  split
  · rw [mod_eq_of_lt h]
    omega
  · exact one_pos

lemma snapshot_filled (e : VfsInode) (a : Nat) (n : Inode) : Snapshot (e.filled a n) a n.header :=
  ⟨rfl, rfl, rfl, Iff.rfl⟩

/-- There is room for one more reference to every slot. -/
def Store.room (s : Store) : Prop := ∀ i, (s.slot i).count + 1 < 2 ^ 32

/-- `tmpfs_fill_vfs_inode` for a live inode -/
lemma Sound.fill (h : Sound ext s) (hn : s.node a = some n) (hroom : s.room) :
    Total (tmpfsFillVfsInode n.ino (.node a) n.type) s fun r s' =>
      Sound ext s' ∧ Keeps (fun _ => False) s s' ∧
      match r with
      | none => s' = s ∧ s.full n.ino
      | some i => Filled s i a n s' := by
  rw [tmpfsFillVfsInode, if_neg (by simp)]
  rcases h.getInode n.ino with ⟨hfull, hrun⟩ | ⟨i, e, hrun, hcount, hfull, hwas⟩
  · exact .bind_ok hrun (.pure ⟨h, .refl h.heap, rfl, hfull⟩)
  · refine .bind_ok hrun
      (.bind_ok (run_deref ((recycled_node e).1 ▸ hn)) (.bind_ok (run_modify _ _) (.pure ?_)))
    have hs' : (s.recycled i e).setSlot i { (s.recycled i e).slot i with
        dev := tmpfsDev
        ino := n.ino
        type := n.type
        size := n.size
        nlinks := n.nlinks
        data := .node a
        pdOwned := false } = s.recycled i ((s.slot i).filled a n) := by
      rw [recycled_setSlot, recycled_slot]
      simp [filled, hcount]
    rw [hs']
    obtain ⟨hnode, hheader, hnext, horder⟩ := recycled_node (s := s) (i := i)
      ((s.slot i).filled a n)
    have hslot := recycled_slot (s := s) (i := i) ((s.slot i).filled a n)
    obtain ⟨hheap, hkeeps⟩ := h.heap.recycled (i := i) (e := (s.slot i).filled a n)
      (by simp [filled])
    refine ⟨⟨hheap, hheader ▸ h.tree, ?_, fun j => horder ▸ h.order j⟩,
      hkeeps, hnode, hnext, horder, hslot,
      hwas, hfull⟩
    rw [hheader, hslot, hnext]
    exact h.cache.fill (header_of_node hn) hwas rfl (taken_pos (hroom i)) rfl
      (snapshot_filled _ a n)

/-- A reference is given back that is not the last one to an inode without links. -/
lemma Sound.put (h : Sound ext s) (hi : (s.slot i).held)
    (hlast : ¬((s.slot i).count = 1 ∧ (s.slot i).nlinks = 0)) :
    let s' := s.setSlot i { s.slot i with count := (s.slot i).count - 1 }
    (putInode i false).run s = .ok ((), s') ∧ Sound ext s' ∧ Keeps (fun _ => False) s s' := by
  obtain ⟨hheap, hkeeps⟩ := h.heap.setSlot (i := i)
    (e := { s.slot i with count := (s.slot i).count - 1 })
    fun _ => Iff.rfl
  refine ⟨?_, ⟨hheap, h.tree, h.cache.put hi hlast, h.order⟩, hkeeps⟩
  rw [putInode, run_bind_ok (run_get s)]
  simp only [if_neg hlast, if_neg hi.2.ne']
  rfl

/-! ## Handles -/

/-- The caller has a reference. -/
def Store.holds (s : Store) : Handle → Prop
  | .root => True
  | .slot i => (s.slot i).held

instance (s : Store) (h : Handle) : Decidable (s.holds h) :=
  match h with
  | .root => .isTrue trivial
  | .slot i => inferInstanceAs (Decidable (s.slot i).held)

/-- The inode behind a handle. -/
structure Behind (s : Store) (x : Handle) (p : Nat) (d : Inode) : Prop where
  holds : s.holds x
  data : s.dataOf x = .node p
  node : s.node p = some d
  type : s.typeOf x = d.type

lemma Sound.behind (h : Sound ext s) (hx : s.holds x) : ∃ p d, Behind s x p d := by
  cases x with
  | root =>
    obtain ⟨c, hc, htype⟩ := h.tree.root
    obtain ⟨d, hd, rfl⟩ := header_eq_some.mp hc
    exact ⟨rootAddr, d, hx, rfl, hd, htype.symm⟩
  | slot i =>
    obtain ⟨p, c, hc, hsnap⟩ := h.cache.held i hx
    obtain ⟨d, hd, rfl⟩ := header_eq_some.mp hc
    exact ⟨p, d, hx, hsnap.data, hd, hsnap.type⟩

lemma run_vfsIlock (h : s.holds dir) : (vfsIlock dir).run s = .ok ((), s) := by
  cases dir with
  | root => rfl
  | slot i =>
    rw [vfsIlock, run_bind_ok (run_get s)]
    simp [h.2]

/-! ## Lookup -/

/-- What a lookup in the directory `d` does. -/
def Looked (s : Store) (d : Inode) (name : Name) (r : Option SlotId) (s' : Store) : Prop :=
  match r with
  | none => s' = s ∧ ∀ e, d.child name = some e → ∀ n, s.node e.inode = some n → s.full n.ino
  | some i => ∃ e n, d.child name = some e ∧ s.node e.inode = some n ∧ Filled s i e.inode n s'

lemma Sound.child (h : Sound ext s) (hp : s.node p = some d) (he : e ∈ d.children) :
    d.type = .dir ∧ e.inode ≠ rootAddr ∧ ∃ n, s.node e.inode = some n ∧
      n.type = e.type ∧ n.nlinks ≠ 0 := by
  have hc := header_of_node hp
  obtain ⟨hroot, -, c, hc', htype, hlinks⟩ := h.tree.child p _ e hc he
  obtain ⟨n, hn, rfl⟩ := header_eq_some.mp hc'
  exact ⟨h.tree.parent p _ e hc he, hroot, n, hn, htype, hlinks⟩

lemma mem_of_child (h : d.child name = some e) : e ∈ d.children := mem_of_find?_eq_some h

lemma Sound.lookup (h : Sound ext s) (hd : Behind s dir p d) (hdir : d.type = .dir) (hroom : s.room)
    (name : Name) : Total (tmpfsVfsLookup dir name) s fun r s' =>
      Sound ext s' ∧ Keeps (fun _ => False) s s' ∧ Looked s d name r s' := by
  refine .bind_ok (run_get s) ?_
  rw [if_neg (by simp [hd.type, hdir]), if_neg (by simp [hd.data]), hd.data]
  refine .bind_ok (run_vfsIlock hd.holds) ?_
  refine .bind_ok (run_deref hd.node) ?_
  cases hchild : d.child name with
  | none =>
    simp only [hchild]
    exact .pure ⟨h, .refl h.heap, rfl, fun e he => by cases hchild.symm.trans he⟩
  | some e =>
    simp only [hchild]
    obtain ⟨-, -, n, hn, -, -⟩ := h.child hd.node (mem_of_child hchild)
    refine .bind_ok (run_deref hn) ?_
    refine (h.fill hn hroom).mono ?_
    rintro r s' ⟨hsound, hkeeps, hr⟩
    refine ⟨hsound, hkeeps, ?_⟩
    cases r with
    | none =>
      refine ⟨hr.1, fun e' he' n' hn' => ?_⟩
      rw [hchild] at he'
      cases he'
      rw [hn] at hn'
      cases hn'
      exact hr.2
    | some i => exact ⟨e, n, hchild, hn, hr⟩

/-! ## Reading and writing -/

lemma putFile_file (h : s.node a = some n) : s.putFile a n (s.file n) = s := by
  have hself : update s.node a (some n) = s.node := update_eq_self_iff.mpr h.symm
  simp only [putFile, file, hself]

lemma Behind.run_onHandle (h : Behind s x a n) (f : Mem → Option α × Mem) :
    (onHandle x f).run s = .ok ((f (s.file n)).1, s.putFile a n (f (s.file n)).2) := by
  rw [onHandle, run_bind_ok (run_get s), h.data]
  simp only
  rw [run_bind_ok (run_deref h.node)]
  exact run_onFile h.node f

lemma Behind.run_read (h : Behind s x a n) (off size : Nat) :
    (tmpfsVfsRead x off size).run s = .ok ((vfsRead off size (s.file n)).1, s) := by
  have hrun := h.run_onHandle (vfsRead off size)
  rwa [vfsRead_state, putFile_file h.node] at hrun

lemma Sound.write (h : Sound ext s) (hx : Behind s x a n) (off : Nat) (data : List Byte) :
    let m := (vfsWrite off data (s.file n)).2
    (tmpfsVfsWrite x off data).run s = .ok ((vfsWrite off data (s.file n)).1, s.putFile a n m) ∧
      Sound ext (s.putFile a n m) ∧ Keeps (· = a) s (s.putFile a n m) := by
  have howned := h.heap.owned a n hx.node
  exact ⟨hx.run_onHandle _, h.putFile hx.node (howned.vfsWrite off data).owned
    (howned.conserves_vfsWrite off data)⟩

lemma owned_vfsTruncate (h : Owned m) (size : Nat) : Owned (vfsTruncate size m).2 := by
  unfold vfsTruncate
  split
  · exact h
  · exact h.freeBlocks.1.withSize 0

lemma Sound.truncate (h : Sound ext s) (hx : Behind s x a n) (size : Nat) :
    let m := (vfsTruncate size (s.file n)).2
    (tmpfsVfsTruncate x size).run s =
        .ok (if (vfsTruncate size (s.file n)).1 then some () else none, s.putFile a n m) ∧
      Sound ext (s.putFile a n m) ∧ Keeps (· = a) s (s.putFile a n m) := by
  have howned := h.heap.owned a n hx.node
  exact ⟨hx.run_onHandle _, h.putFile hx.node (owned_vfsTruncate howned size)
    (howned.conserves_vfsTruncate size)⟩

/-! ## Creating -/

/-- The store with a new inode at `a` and an entry for it in the directory at `p`. -/
def Store.created (s : Store) (p : Nat) (d : Inode) (name : Name) (type : NodeType) (a : Nat) :
    Store :=
  { s with
    node := update (update s.node a (some (freshInode type s.nextIno))) p
      (some { d with
        nlinks := if type = .dir then (d.nlinks + 1) % 2 ^ 16 else d.nlinks
        children := ⟨storedName name, a, type⟩ :: d.children })
    nextIno := (s.nextIno + 1) % 2 ^ 32 }

/-- A new inode has an unused address and a new number, and the links of its directory do not
overflow. -/
structure Fits (s : Store) (d : Inode) (type : NodeType) (a : Nat) : Prop where
  fresh : s.node a = none
  nlinks : type = .dir → d.nlinks + 1 < 2 ^ 16
  ino : s.nextIno + 1 < 2 ^ 32

lemma Fits.ne (h : Fits s d type a) (hp : s.node p = some d) : p ≠ a := by
  rintro rfl
  cases h.fresh.symm.trans hp

lemma header_created (type : NodeType) : (s.created p d name type a).header = update
      (update s.header a (some ⟨type, 1, s.nextIno, []⟩)) p
      (some ⟨d.type, if type = .dir then (d.nlinks + 1) % 2 ^ 16 else d.nlinks, d.ino,
        ⟨storedName name, a, type⟩ :: d.children⟩) := by
  rw [header_update { s with node := update s.node a (some (freshInode type s.nextIno)) }
    (s.created p d name type a) rfl]
  rw [header_update s { s with node := update s.node a (some (freshInode type s.nextIno)) } rfl]
  rfl

lemma created_cases (h : (s.created p d name type a).node b = some k') :
    (b = p ∧ k' = { d with
      nlinks := if type = .dir then (d.nlinks + 1) % 2 ^ 16 else d.nlinks
      children := ⟨storedName name, a, type⟩ :: d.children }) ∨
    (b = a ∧ k' = freshInode type s.nextIno) ∨ s.node b = some k' := by
  simp only [Store.created, update_apply] at h
  split at h
  · exact .inl ⟨‹b = p›, (some.inj h).symm⟩
  · split at h
    · exact .inr (.inl ⟨‹b = a›, (some.inj h).symm⟩)
    · exact .inr (.inr h)

lemma Sound.created (h : Sound ext s) (hp : s.node p = some d) (hdir : d.type = .dir)
    (hfits : Fits s d type a) :
    Sound ext (s.created p d name type a) ∧ Keeps (fun _ => False) s
      (s.created p d name type a) := by
  have hpa := hfits.ne hp
  have hnode : ∀ b n', (s.created p d name type a).node b = some n' →
      (∀ i < ndirect + 2, n'.blocks i = 0) ∨ ∃ n, s.node b = some n ∧ n'.blocks = n.blocks := by
    intro b n' hb
    obtain ⟨rfl, rfl⟩ | ⟨rfl, rfl⟩ | hold := created_cases hb
    · exact .inr ⟨d, hp, rfl⟩
    · exact .inl fun _ _ => rfl
    · exact .inr ⟨n', hold, rfl⟩
  have hforth : ∀ b k, s.node b = some k → ∃ k', (s.created p d name type a).node b = some k' ∧
      k'.blocks = k.blocks ∧ k'.size = k.size := by
    intro b k hk
    simp only [Store.created, update_apply]
    split
    · rw [‹b = p›, hp] at hk
      cases hk
      exact ⟨_, rfl, rfl, rfl⟩
    · split
      · rw [‹b = a›, hfits.fresh] at hk
        cases hk
      · exact ⟨k, hk, rfl, rfl⟩
  obtain ⟨hheap, hkeeps⟩ := h.heap.rearranged (fun _ _ => by rfl) hnode hforth rfl rfl
  refine ⟨⟨hheap, ?_, ?_, h.order⟩, hkeeps⟩
  · rw [header_created]
    by_cases htype : type = .dir
    · have hlinks : (d.nlinks + 1) % 2 ^ 16 ≠ 0 := by
        rw [mod_eq_of_lt (hfits.nlinks htype)]
        omega
      have hrelink := h.tree.relink (header_of_node hp) hdir hlinks
      have hcreate := hrelink.create (p := p) (a := a) (k := s.nextIno)
        (e := ⟨storedName name, a, type⟩)
        (update_self ..) hdir
        (by rw [update_of_ne hpa.symm]; exact header_eq_none.mpr hfits.fresh) rfl
      rw [update_comm hpa, update_idem] at hcreate
      rw [if_pos htype]
      exact hcreate
    · rw [if_neg htype]
      exact h.tree.create (e := ⟨storedName name, a, type⟩) (header_of_node hp) hdir
        (header_eq_none.mpr hfits.fresh) rfl
  · have hcache := h.cache.create (c := ⟨type, 1, s.nextIno, []⟩)
      (header_eq_none.mpr hfits.fresh) rfl
      one_ne_zero
    have hnext : (s.created p d name type a).nextIno = s.nextIno + 1 := mod_eq_of_lt hfits.ino
    rw [header_created, hnext]
    refine hcache.edit (c := d.header) (by rw [update_of_ne hpa, header_of_node hp]) rfl ?_ rfl
    have hlinks : d.nlinks ≠ 0 := h.tree.dir p _ (header_of_node hp) hdir
    change (if type = .dir then (d.nlinks + 1) % 2 ^ 16 else d.nlinks) = 0 ↔ d.nlinks = 0
    split
    · rw [mod_eq_of_lt (hfits.nlinks ‹_›)]
      simp [hlinks]
    · rfl

/-- What `tmpfs_vfs_create` does in the directory `d` at `p`. A name is not found if there is no
slot for its inode. -/
inductive Creates (s : Store) (p : Nat) (d : Inode) (name : Name) (type : NodeType) (k : Kmalloc) :
    Bool → Store → Prop where
  | made {a : Nat} : name ≠ [] → k = ⟨true, some a⟩ →
      (∀ e, d.child name = some e → ∀ n, s.node e.inode = some n → s.full n.ino) →
      Creates s p d name type k true (s.created p d name type a)
  | found {i : SlotId} {e : DirEntry} {n : Inode} {s₁ : Store} : name ≠ [] → d.child name = some e →
      s.node e.inode = some n → Filled s i e.inode n s₁ →
      Creates s p d name type k false
        (s₁.setSlot i { s₁.slot i with count := (s₁.slot i).count - 1 })
  | refused : (name = [] ∨ ∀ a, k ≠ ⟨true, some a⟩) → Creates s p d name type k false s

lemma Filled.held (h : Filled s i a n s') (hroom : s.room) :
    (s'.slot i).held ∧ s'.slot i = (s.slot i).filled a n := by
  rw [h.slot, update_self]
  exact ⟨⟨rfl, taken_pos (hroom i)⟩, rfl⟩

/-- The slots in use for tmpfs stay in use for their inodes. -/
def Stays (s s' : Store) : Prop :=
  ∀ i, (s.slot i).held → (s'.slot i).held ∧ (s'.slot i).data = (s.slot i).data

lemma Stays.holds (h : Stays s s') (hd : s.holds dir) : s'.holds dir := by
  cases dir with
  | root => trivial
  | slot i => exact (h i hd).1

lemma Stays.of_slot (h : s'.slot = s.slot) : Stays s s' := fun i hi => by
  rw [h]
  exact ⟨hi, rfl⟩

section
variable (h : Filled s i a n s') (hs : Sound ext s) (hn : s.node a = some n)
include h hs hn

lemma Filled.data (hi : (s.slot i).held) :
    (s.slot i).isFor n.ino = true ∧ (s.slot i).data = .node a := by
  have hfor : (s.slot i).isFor n.ino = true := h.was.resolve_right fun hw => hi.2.ne' hw.1
  obtain ⟨b, c, hc, hsnap⟩ := hs.cache.held i hi
  have hba : b = a :=
    hs.cache.ino_inj b a c _ hc (header_of_node hn) (hsnap.ino.trans (isFor_iff.mp hfor).2)
  exact ⟨hfor, hba ▸ hsnap.data⟩

lemma Filled.stays (hroom : s.room) :
    Stays s s' := by
  intro j hj
  by_cases hji : j = i
  · subst hji
    obtain ⟨hheld, hslot⟩ := h.held hroom
    refine ⟨hheld, ?_⟩
    rw [hslot, (h.data hs hn hj).2]
    rfl
  · rw [h.slot, update_of_ne hji]
    exact ⟨hj, rfl⟩

lemma Filled.stays_put (hroom : s.room) :
    Stays s (s'.setSlot i { s'.slot i with count := (s'.slot i).count - 1 }) := by
  intro j hj
  change (update s'.slot i _ j).held ∧ (update s'.slot i _ j).data = _
  by_cases hji : j = i
  · subst hji
    obtain ⟨hfor, hdata⟩ := h.data hs hn hj
    obtain ⟨hheld, hslot⟩ := h.held hroom
    rw [update_self, hslot, hdata]
    refine ⟨⟨rfl, ?_⟩, rfl⟩
    change 0 < (s.slot j).taken n.ino - 1
    rw [taken, if_pos ⟨hfor, hj.2⟩, mod_eq_of_lt (hroom j)]
    exact hj.2
  · rw [update_of_ne hji, h.slot, update_of_ne hji]
    exact ⟨hj, rfl⟩

end

lemma Creates.stays (h : Creates s p d name type k r s')
    (hs : Sound ext s) (hroom : s.room) : Stays s s' := by
  cases h with
  | made _ _ _ => exact .of_slot rfl
  | found _ _ hn hfill => exact hfill.stays_put hs hn hroom
  | refused _ => exact .of_slot rfl

/-- Editing the inode of a directory handle. -/
lemma run_editDir (hdata : s.dataOf dir = .node p) (hnode : s.node p = some d) (f : Inode → Inode) :
    (do
      let (p, d) ← deref ((← get).dataOf dir)
      modify fun s => s.setNode p (f d) : T Unit).run s = .ok ((), s.setNode p (f d)) := by
  rw [run_bind_ok (run_get s), hdata, run_bind_ok (run_deref hnode)]
  rfl

lemma Behind.run_linkInode (h : Behind s dir p d) (hpa : p ≠ a) (name : Name) (type : NodeType) :
    (linkInode dir name type a).run s = .ok ((), s.created p d name type a) := by
  -- the data of the handle is not affected by changes of inodes
  have hdata : ∀ s1 : Store, s1.slot = s.slot → s1.dataOf dir = .node p := by
    intro s1 hslot
    rw [← h.data]
    cases dir with
    | root => rfl
    | slot i => simp only [dataOf, hslot]
  have hlast := fun s1 d1 hslot (hnode : s1.node p = some d1) => run_editDir (hdata s1 hslot) hnode
    fun d => { d with children := ⟨storedName name, a, type⟩ :: d.children }
  unfold linkInode
  by_cases htype : type = .dir
  · have hcount := run_editDir h.data h.node fun d => { d with nlinks := (d.nlinks + 1) % 2 ^ 16 }
    rw [decide_eq_true htype, when_true, run_bind_ok hcount, run_bind_ok (run_modify _ _)]
    rw [hlast _ { d with nlinks := (d.nlinks + 1) % 2 ^ 16 }]
    · simp only [setNode, created, if_pos htype]
      rw [update_comm hpa, update_idem]
    · rfl
    · simp [setNode, update_of_ne hpa]
  · rw [decide_eq_false htype, when_false, run_bind_ok (run_pure _ _), run_bind_ok (run_modify _ _)]
    rw [hlast _ d]
    · simp only [setNode, created, if_neg htype]
    · rfl
    · simp [setNode, update_of_ne hpa, h.node]

lemma Sound.create (h : Sound ext s) (hd : Behind s dir p d) (hdir : d.type = .dir)
    (hroom : s.room) (hfits : ∀ a, k = ⟨true, some a⟩ → Fits s d type a) :
    Total (tmpfsVfsCreate dir name type k) s fun r s' =>
      Sound ext s' ∧ Keeps (fun _ => False) s s' ∧ Creates s p d name type k r s' := by
  unfold tmpfsVfsCreate
  by_cases hname : name = []
  · rw [if_pos hname]
    exact .pure ⟨h, .refl h.heap, .refused (.inl hname)⟩
  rw [if_neg hname]
  refine .bind (h.lookup hd hdir hroom name) ?_
  rintro r s1 ⟨hsound, hkeeps, hlook⟩
  cases r with
  | some i =>
    obtain ⟨e, n, he, hn, hfill⟩ := hlook
    obtain ⟨-, -, n', hn', -, hlinks⟩ := h.child hd.node (mem_of_child he)
    rw [hn] at hn'
    cases hn'
    obtain ⟨hheld, hslot⟩ := hfill.held hroom
    refine .bind_ok (run_vfsIlock ((hfill.stays h hn hroom).holds hd.holds)) ?_
    obtain ⟨hput, hsound', hkeeps'⟩ := hsound.put hheld (by
      rw [hslot]
      exact fun hand => hlinks hand.2)
    exact .bind_ok hput (.pure ⟨hsound', hkeeps.trans hkeeps', .found hname he hn hfill⟩)
  | none =>
    obtain ⟨rfl, habsent⟩ := hlook
    refine .bind_ok (run_vfsIlock hd.holds) ?_
    obtain ⟨entry, inode⟩ := k
    cases entry with
    | false => exact .pure ⟨h, .refl h.heap, .refused (.inr (by simp))⟩
    | true =>
      cases inode with
      | none => exact .pure ⟨h, .refl h.heap, .refused (.inr (by simp))⟩
      | some a =>
        have hfit := hfits a rfl
        obtain ⟨hsound', hkeeps'⟩ : Sound ext (s1.created p d name type a) ∧
          _ := h.created hd.node hdir hfit
        have hend : Creates s1 p d name type ⟨true, some a⟩ true (s1.created p d name type a) :=
          .made hname rfl habsent
        refine .bind_ok (run_get s1) ?_
        rw [if_neg (by simp [hd.data])]
        exact .bind_ok (hd.run_linkInode (hfit.ne hd.node) name type)
          (.pure ⟨hsound', hkeeps', hend⟩)

/-! ## Removing -/

/-- The object at `a` is gone, and its file has left the pages and the free list of `m`. -/
def Store.dropFile (s : Store) (a : Nat) (m : Mem) : Store :=
  { s with page := m.page, free := m.free, node := update s.node a none }

/-- The inode at `a` has been freed with its pages. -/
def Store.removed (s : Store) (a : Nat) (n : Inode) : Store := s.dropFile a (freeBlocks (s.file n))

lemma run_drop (h : s.node a = some n) (f : Mem → Mem) (x : T α) :
    (do onFile a (fun m => ((), f m)); kmfree a; x : T α).run s =
      x.run (s.dropFile a (f (s.file n))) := by
  rw [run_bind_ok (run_onFile h _),
    run_bind_ok
      (run_kmfree (n := { n with blocks := (f (s.file n)).blocks, size := (f (s.file n)).size })
      (update_self ..))]
  simp only [putFile, dropFile, update_idem]

lemma run_remove (h : s.node a = some n) (x : T α) :
    (do tmpfsFreeBlocks a; kmfree a; x : T α).run s = x.run (s.removed a n) :=
      run_drop h freeBlocks x

lemma Heap.dropFile (h : Heap s) (hn : s.node a = some n) (howned : Owned m)
    (hc : Conserves (s.file n) m) (hempty : ∀ q, q ∉ pages m) :
    Heap (s.dropFile a m) ∧ Keeps (· = a) s (s.dropFile a m) := by
  obtain ⟨hput, hpool⟩ := h.putFile hn howned hc
  have hnode : ∀ b, b ≠ a → (s.dropFile a m).node b = (s.putFile a n m).node b := by
    intro b hb
    simp [Store.dropFile, Store.putFile, update_of_ne hb]
  have hself : (s.dropFile a m).node a = none := update_self ..
  have hback : ∀ b k', (s.dropFile a m).node b = some k' → ∃ k,
      (s.putFile a n m).node b = some k ∧ k'.blocks = k.blocks := by
    intro b k' hk'
    by_cases hb : b = a
    · rw [hb, hself] at hk'
      cases hk'
    · exact ⟨k', (hnode b hb).symm.trans hk', rfl⟩
  refine ⟨hput.congr rfl rfl (fun b k' hk' => .inr (hback b k' hk')) fun _ _ => id, fun q => ?_, ?_⟩
  · rw [← hpool q]
    refine @pool_congr (s.putFile a n m) (s.dropFile a m) rfl rfl
      (fun b k' hk' => .inr (hback b k' hk'))
      (fun b k hk => ?_) (fun _ _ => Iff.rfl) q
    by_cases hb : b = a
    · subst hb
      have hk' : { n with blocks := m.blocks, size := m.size } = k := by
        have hself : (s.putFile b n m).node b =
          some { n with blocks := m.blocks, size := m.size } :=
          update_self ..
        rw [hself] at hk
        cases hk
        rfl
      subst hk'
      exact .inl hempty
    · exact .inr ⟨k, (hnode b hb).trans hk, rfl⟩
  · intro b hb k hk
    obtain ⟨k', hk', hsame⟩ := h.untouched_putFile hn howned hc hb k hk
    exact ⟨k', (hnode b hb).trans hk', hsame⟩

lemma Heap.removed (h : Heap s) (hn : s.node a = some n) :
    Heap (s.removed a n) ∧ Keeps (· = a) s (s.removed a n) := by
  have howned := h.owned a n hn
  exact h.dropFile hn howned.freeBlocks.1 howned.conserves_freeBlocks howned.pages_freeBlocks

lemma dropFile_others (m : Mem) :
    (s.dropFile a m).slot = s.slot ∧ (s.dropFile a m).nextIno = s.nextIno ∧
    (s.dropFile a m).order = s.order ∧ (s.dropFile a m).node = update s.node a none :=
  ⟨rfl, rfl, rfl, rfl⟩

lemma removed_slot : (s.removed a n).slot = s.slot := (dropFile_others _).1

lemma removed_nextIno : (s.removed a n).nextIno = s.nextIno := (dropFile_others _).2.1

lemma removed_order : (s.removed a n).order = s.order := (dropFile_others _).2.2.1

lemma removed_node : (s.removed a n).node = update s.node a none := (dropFile_others _).2.2.2

lemma removed_header : (s.removed a n).header = update s.header a none :=
  header_update s (s.removed a n) removed_node

/-- The store after the entry `e` for the inode `n` has been taken out of the directory at `p`. -/
def Store.detached (s : Store) (p : Nat) (d : Inode) (name : Name) (e : DirEntry) (n : Inode) :
    Store :=
  (s.setNode e.inode { n with nlinks := 0 }).setNode p { d with
    children := d.children.eraseP fun e => sameName name e.name }

lemma header_detached : (s.detached p d name e n).header = update
    (update s.header e.inode (some { n.header with nlinks := 0 })) p
    (some { d.header with children := d.children.eraseP fun e => sameName name e.name }) := by
  rw [detached, header_setNode, header_setNode]
  rfl

lemma detached_cases (h : (s.detached p d name e n).node b = some k') :
    (b = p ∧ k' = { d with children := d.children.eraseP fun e => sameName name e.name }) ∨
    (b = e.inode ∧ k' = { n with nlinks := 0 }) ∨ s.node b = some k' := by
  simp only [detached, setNode, update_apply] at h
  split at h
  · exact .inl ⟨‹b = p›, (some.inj h).symm⟩
  · split at h
    · exact .inr (.inl ⟨‹b = e.inode›, (some.inj h).symm⟩)
    · exact .inr (.inr h)

lemma tmpfsInodeOpen_iff :
    tmpfsInodeOpen s ino = true ↔ ∃ i, (s.slot i).isFor ino = true ∧ 0 < (s.slot i).count := by
  simp [tmpfsInodeOpen]

/-- What `tmpfs_vfs_unlink` does in the directory `d` at `p`: it refuses, it removes the entry of a
file that is in use, or it frees the file. -/
inductive Unlinks (s : Store) (p : Nat) (d : Inode) (name : Name) : Bool → Store → Prop where
  | refused : (name = [] ∨ ∀ e, d.child name = some e → e.type = .dir) → Unlinks s p d name false s
  | deferred {e : DirEntry} {n : Inode} : name ≠ [] → d.child name = some e → e.type ≠ .dir →
      s.node e.inode = some n → tmpfsInodeOpen s n.ino = true →
      Unlinks s p d name true
        ((s.detached p d name e n).mapSlots n.ino fun ip => { ip with nlinks := 0 })
  | freed {e : DirEntry} {n : Inode} : name ≠ [] → d.child name = some e → e.type ≠ .dir →
      s.node e.inode = some n → tmpfsInodeOpen s n.ino = false →
      Unlinks s p d name true
        (((s.detached p d name e n).mapSlots n.ino fun ip =>
          { ip with data := .null, pdOwned := false }).removed e.inode { n with nlinks := 0 })

/-- The entry and the inode that an unlink removes. -/
structure Leaf (s : Store) (p : Nat) (d : Inode) (name : Name) (e : DirEntry) (n : Inode) :
    Prop where
  parent : s.node p = some d
  child : d.child name = some e
  file : e.type ≠ .dir
  node : s.node e.inode = some n

section
variable (hl : Leaf s p d name e n)
include hl

lemma Leaf.ne (h : Sound ext s) : p ≠ e.inode := by
  obtain ⟨hdir, -, n', hn', htype, -⟩ := h.child hl.parent (mem_of_child hl.child)
  intro heq
  rw [← heq, hl.parent] at hn'
  cases hn'
  exact hl.file (htype.symm.trans hdir)

lemma Leaf.nlinks (h : Sound ext s) : n.nlinks = 1 := by
  obtain ⟨-, -, n', hn', htype, hlinks⟩ := h.child hl.parent (mem_of_child hl.child)
  rw [hl.node] at hn'
  cases hn'
  have hle := h.tree.file _ _ (header_of_node hl.node) (show n.type ≠ .dir from htype ▸ hl.file)
  have hle : n.nlinks ≤ 1 := hle
  omega

lemma Leaf.tree (h : Sound ext s) :
    Tree ext (s.detached p d name e n).header := by
  rw [header_detached]
  exact h.tree.unlink (header_of_node hl.parent) hl.child hl.file (header_of_node hl.node)

lemma Leaf.detached_node (b : Nat) (k : Inode) :
    s.node b = some k → ∃ k', (s.detached p d name e n).node b = some k' ∧ k'.blocks = k.blocks ∧
      k'.size = k.size := by
  intro hk
  simp only [detached, setNode, update_apply]
  split
  · rw [‹b = p›, hl.parent] at hk
    cases hk
    exact ⟨_, rfl, rfl, rfl⟩
  · split
    · rw [‹b = e.inode›, hl.node] at hk
      cases hk
      exact ⟨_, rfl, rfl, rfl⟩
    · exact ⟨k, hk, rfl, rfl⟩

lemma Leaf.node_detached (b : Nat) (k' : Inode) :
    (s.detached p d name e n).node b = some k' → ∃ k, s.node b = some k ∧ k'.blocks = k.blocks := by
  intro hk'
  obtain ⟨rfl, rfl⟩ | ⟨rfl, rfl⟩ | hold := detached_cases hk'
  · exact ⟨d, hl.parent, rfl⟩
  · exact ⟨n, hl.node, rfl⟩
  · exact ⟨k', hold, rfl⟩

lemma Leaf.node_freed (h : Sound ext s) : ((s.detached p d name e n).mapSlots n.ino fun ip =>
    { ip with data := .null, pdOwned := false }).node e.inode = some { n with nlinks := 0 } := by
  simp [mapSlots, detached, setNode, update_of_ne (hl.ne h).symm]

lemma Leaf.heap (h : Sound ext s) {f : VfsInode → VfsInode}
    (hf : ∀ i, (s.slot i).isFor n.ino = true → ∀ q, (f (s.slot i)).data ≠ .page q) :
    Heap ((s.detached p d name e n).mapSlots n.ino f) ∧
      Keeps (fun _ => False) s ((s.detached p d name e n).mapSlots n.ino f) := by
  have hslot : ∀ j q, (((s.detached p d name e n).mapSlots n.ino f).slot j).data = .page q ↔
      (s.slot j).data = .page q := by
    intro j q
    change (if (s.slot j).isFor n.ino = true then f (s.slot j) else s.slot j).data = .page q ↔ _
    split
    · rename_i hfor
      have := (h.cache.data j (isFor_iff.mp hfor).1).2 q
      simp [hf j hfor, this]
    · rfl
  exact h.heap.rearranged hslot (fun b k' hk' => .inr (hl.node_detached b k' hk'))
    hl.detached_node rfl rfl

lemma Leaf.deferred (h : Sound ext s) (hopen : tmpfsInodeOpen s n.ino = true) :
    let s' := (s.detached p d name e n).mapSlots n.ino fun ip => { ip with nlinks := 0 }
    Sound ext s' ∧ Keeps (fun _ => False) s s' := by
  obtain ⟨hheap, hkeeps⟩ := hl.heap h (f := fun ip => { ip with nlinks := 0 }) fun i hfor =>
    (h.cache.data i (isFor_iff.mp hfor).1).2
  refine ⟨⟨hheap, hl.tree h, ?_, h.order⟩, hkeeps⟩
  have hsync : Cache _ ((s.detached p d name e n).mapSlots n.ino fun ip =>
    { ip with nlinks := 0 }).slot _ :=
    h.cache.sync (k := 0) (header_of_node hl.node) (tmpfsInodeOpen_iff.mp hopen)
      (fun i hi => if_pos hi) (fun i hi => if_neg (Bool.not_eq_true _ ▸ hi))
  change Cache (s.detached p d name e n).header _ _
  rw [header_detached]
  refine hsync.edit (c := d.header) ?_ rfl Iff.rfl rfl
  rw [update_of_ne (hl.ne h), header_of_node hl.parent]

lemma Leaf.freed (h : Sound ext s) (hclosed : tmpfsInodeOpen s n.ino = false) :
    let s' := ((s.detached p d name e n).mapSlots n.ino fun ip =>
      { ip with data := .null, pdOwned := false }).removed e.inode { n with nlinks := 0 }
    Sound ext s' ∧ Keeps (· = e.inode) s s' := by
  obtain ⟨hheap, hkeeps⟩ := hl.heap h (f := fun ip => { ip with data := .null, pdOwned := false })
    fun i _ q =>
    by simp
  have hnode := hl.node_freed h
  obtain ⟨hheap', hkeeps'⟩ := hheap.removed hnode
  refine ⟨⟨hheap', ?_, ?_, ?_⟩, (hkeeps.mono fun _ => False.elim).trans hkeeps'⟩
  · rw [removed_header]
    exact (hl.tree h).free (header_of_node hnode) rfl
  · rw [removed_header, removed_slot, removed_nextIno]
    have hclosed' : ∀ i, (s.slot i).isFor n.ino = true → (s.slot i).count = 0 := by
      intro i hi
      by_contra hne
      rw [tmpfsInodeOpen_iff.mpr ⟨i, hi, pos_of_ne_zero hne⟩] at hclosed
      cases hclosed
    have hfree : Cache _ ((s.detached p d name e n).mapSlots n.ino fun ip =>
        { ip with data := .null, pdOwned := false }).slot _ :=
      h.cache.free (header_of_node hl.node) hclosed'
        (fun i hi => if_pos hi) (fun i hi => if_neg (Bool.not_eq_true _ ▸ hi))
    change Cache (update (s.detached p d name e n).header e.inode none) _ _
    rw [header_detached, update_comm (hl.ne h), update_idem]
    refine hfree.edit (c := d.header) ?_ rfl Iff.rfl rfl
    rw [update_of_ne (hl.ne h), header_of_node hl.parent]
  · rw [removed_order]
    exact h.order

end

lemma Sound.unlink (h : Sound ext s) (hd : Behind s dir p d) (name : Name) :
    Total (tmpfsVfsUnlink dir name) s fun r s' =>
      Sound ext s' ∧ Keeps (fun b => s'.node b = none) s s' ∧ Unlinks s p d name r s' := by
  unfold tmpfsVfsUnlink
  by_cases hname : name = []
  · rw [if_pos hname]
    exact .pure ⟨h, .refl h.heap, .refused (.inl hname)⟩
  rw [if_neg hname]
  refine .bind_ok (run_get s) ?_
  simp only [hd.data]
  refine .bind_ok (run_deref hd.node) ?_
  cases hchild : d.child name with
  | none =>
    simp only
    exact .pure ⟨h, .refl h.heap, .refused (.inr fun e he => by cases hchild.symm.trans he)⟩
  | some e =>
    simp only
    by_cases hfile : e.type = .dir
    · rw [if_pos hfile]
      refine .pure ⟨h, .refl h.heap, .refused (.inr fun e' he' => ?_)⟩
      rw [hchild] at he'
      cases he'
      exact hfile
    rw [if_neg hfile]
    obtain ⟨-, -, n, hn, -, -⟩ := h.child hd.node (mem_of_child hchild)
    have hl : Leaf s p d name e n := ⟨hd.node, hchild, hfile, hn⟩
    refine .bind_ok (run_deref hn) ?_
    have hzero : (n.nlinks + 2 ^ 16 - 1) % 2 ^ 16 = 0 := by simp [hl.nlinks h]
    simp only [hzero, if_true]
    refine .bind_ok (run_modify _ _) (.bind_ok (run_modify _ _) (.bind_ok (run_get _) ?_))
    change Total (if tmpfsInodeOpen s n.ino = true then _ else _) (s.detached p d name e n) _
    cases hopen : tmpfsInodeOpen s n.ino with
    | true =>
      obtain ⟨hsound, hkeeps⟩ := hl.deferred h hopen
      exact .bind_ok (run_modify _ _) (.pure ⟨hsound, hkeeps.mono fun _ => False.elim,
        .deferred hname hchild hfile hn hopen⟩)
    | false =>
      obtain ⟨hsound, hkeeps⟩ := hl.freed h hopen
      refine ⟨true, _, ?_, hsound, hkeeps.mono ?_, .freed hname hchild hfile hn hopen⟩
      · simp only [Bool.false_eq_true, if_false]
        rw [run_bind_ok (run_modify _ _)]
        exact run_remove (hl.node_freed h) (pure true)
      · rintro b rfl
        rw [removed_node]
        exact update_self ..

lemma Unlinks.stays (h : Unlinks s p d name r s') : Stays s s' := by
  cases h with
  | refused _ => exact .of_slot rfl
  | @deferred e n _ _ _ _ _ =>
    intro i hi
    change (if (s.slot i).isFor n.ino = true then { s.slot i with nlinks := 0 }
      else s.slot i).held ∧ _ = _
    change _ ∧ (if (s.slot i).isFor n.ino = true then { s.slot i with nlinks := 0 }
      else s.slot i).data = _
    split
    · exact ⟨hi, rfl⟩
    · exact ⟨hi, rfl⟩
  | @freed e n _ _ _ _ hclosed =>
    intro i hi
    -- a slot in use is not for this inode
    have hfor : ¬(s.slot i).isFor n.ino = true := by
      intro hfor
      rw [tmpfsInodeOpen_iff.mpr ⟨i, hfor, hi.2⟩] at hclosed
      cases hclosed
    have hslot : (((s.detached p d name e n).mapSlots n.ino fun ip =>
        { ip with data := .null, pdOwned := false }).removed e.inode { n with nlinks := 0 }).slot
          i = s.slot i := by
      rw [removed_slot]
      exact if_neg hfor
    rw [hslot]
    exact ⟨hi, rfl⟩

end FrostVista.Tmpfs
