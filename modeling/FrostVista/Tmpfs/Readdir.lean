import FrostVista.Kernel.Getdents
import FrostVista.Tmpfs.Deferred

/-!
# tmpfs: listing a directory that changes

`tmpfs_vfs_readdir` keeps its place in a directory as a number of entries, counted from the head of
the list. `tmpfs_vfs_create` puts an entry at the head and `tmpfs_vfs_unlink` takes one out
anywhere, so the place is right only as long as nothing changes before it: a new entry makes the
loop return an entry again, and removing an entry that was returned makes it skip one.
-/
namespace FrostVista.Tmpfs.Readdir

open Lib Lib.Comp Deferred List Option Nat

open Kernel.Ftable (NodeType)

open Kernel.Getdents (tmpfsEntrySize)

open Kernel.Namei (Name sameName)

/-- What `readdir` fills in. -/
structure Dirent where
  name : Name
  ino : Nat
  type : NodeType
  deriving DecidableEq

inductive Result where
  | failed
  | done
  | entry (de : Dirent) (offset : Nat)
  deriving DecidableEq

/-- The loop `while (de != 0 && size < off)` -/
def skip (off : Nat) : Nat → List DirEntry → List DirEntry
  | _, [] => []
  | size, e :: rest => if size < off then skip off (size + tmpfsEntrySize) rest else e :: rest

/-- `tmpfs_vfs_readdir` at the offset of an open file -/
def tmpfsVfsReaddir (dir : Handle) (off : Nat) : T Result := do
  let s ← get
  if s.typeOf dir ≠ .dir then pure .failed
  else
    match s.dataOf dir with
    | .null => pure .failed
    | data =>
      let (_, d) ← deref data
      match skip off 0 d.children with
      | [] => pure .done
      | e :: _ =>
        let (_, n) ← deref (.node e.inode)
        pure (.entry ⟨e.name, n.ino, n.type⟩ (off + tmpfsEntrySize))

variable {s s' : Store} {p : Nat} {d n : Inode} {dir : Handle} {name : Name} {e : DirEntry}

lemma skip_mul (k j : Nat) (l : List DirEntry) :
    skip (tmpfsEntrySize * k) (tmpfsEntrySize * j) l = l.drop (k - j) := by
  induction l generalizing j with
  | nil => simp [skip]
  | cons e rest ih =>
    have hpos : 0 < tmpfsEntrySize := by decide
    rw [skip]
    by_cases hjk : j < k
    · have hk : k - j = (k - (j + 1)) + 1 := by omega
      rw [if_pos (mul_lt_mul_of_pos_left hjk hpos), ← mul_succ, ih, hk, drop_succ_cons]
    · have hle : tmpfsEntrySize * k ≤ tmpfsEntrySize * j :=
        Nat.mul_le_mul_left _ (Nat.le_of_not_lt hjk)
      rw [if_neg (Nat.not_lt.mpr hle), Nat.sub_eq_zero_of_le (Nat.le_of_not_lt hjk), drop_zero]

/-- The record of an entry. -/
def direntOf (s : Store) (e : DirEntry) : Dirent :=
  ⟨e.name, ((s.node e.inode).map Inode.ino).getD 0, e.type⟩

lemma run_readdir (h : Sound (fun _ => False) s) (hd : Behind s dir p d)
    (hdir : d.type = .dir) (k : Nat) :
    (tmpfsVfsReaddir dir (tmpfsEntrySize * k)).run s = .ok
      (match d.children.drop k with
        | [] => .done
        | e :: _ => .entry (direntOf s e) (tmpfsEntrySize * (k + 1)), s) := by
  rw [tmpfsVfsReaddir, run_bind_ok (run_get s), if_neg (by simp [hd.type, hdir]), hd.data]
  simp only
  rw [run_bind_ok (run_deref hd.node)]
  have hskip : skip (tmpfsEntrySize * k) 0 d.children = d.children.drop k := skip_mul k 0 d.children
  rw [hskip]
  cases hdrop : d.children.drop k with
  | nil => rfl
  | cons e rest =>
    have he : e ∈ d.children := mem_of_mem_drop (hdrop ▸ mem_cons_self)
    obtain ⟨-, -, n, hn, htype, -⟩ := h.child hd.node he
    simp only
    rw [run_bind_ok (run_deref hn), direntOf, hn, ← htype]
    rfl

/-! ## The loop and what happens in between -/

/-- The store, the offset of the open directory, and what the loop has returned so far. -/
structure Scan where
  store : Store
  offset : Nat
  returned : List Dirent

inductive Act where
  | readdir
  | other (act : Action)

/-- The open directory has a reference of its own. -/
def KeepsOpen (dir : Handle) (s : Store) (act : Action) : Prop :=
  ∀ i, dir = .slot i → ¬act.drops s i

/-- A call of `readdir` that returns an entry, or another call. -/
def Step (dir : Handle) (x : Scan) (a : Act) (x' : Scan) : Prop :=
  match a with
  | .readdir => ∃ de, (tmpfsVfsReaddir dir x.offset).run x.store =
      .ok (.entry de x'.offset, x'.store) ∧
      x'.returned = x.returned ++ [de]
  | .other act => Bounded x.store act x'.store ∧ KeepsOpen dir x.store act ∧ x'.offset = x.offset ∧
      x'.returned = x.returned

/-- The condition on the state before a call: an entry is made in the directory only at the start of
the loop, and an entry that is removed is not before the place of the loop. -/
def Steady (dir : Handle) (x : Scan) : Act → Prop
  | .readdir => True
  | .other (.create dir' _ _ _) => x.store.dataOf dir' = x.store.dataOf dir → x.offset = 0
  | .other (.unlink dir' name) => x.store.dataOf dir' = x.store.dataOf dir → ∀ p d,
      x.store.dataOf dir = .node p → x.store.node p = some d →
        x.offset ≤ tmpfsEntrySize * d.children.findIdx fun e => sameName name e.name
  | .other _ => True

def Has (dir : Handle) (s : Store) (e : DirEntry) : Prop :=
  ∃ p d, s.dataOf dir = .node p ∧ s.node p = some d ∧ e ∈ d.children

/-- The loop has ended: `readdir` returns 0. -/
def Ended (dir : Handle) (x : Scan) : Prop :=
  (tmpfsVfsReaddir dir x.offset).run x.store = .ok (.done, x.store)

def ReturnedOnce (x : Scan) (e : DirEntry) : Prop :=
  ∃ n, x.store.node e.inode = some n ∧ x.returned.count ⟨e.name, n.ino, n.type⟩ = 1

/-- The loop has returned the first `k` entries. -/
structure Listed (dir : Handle) (x : Scan) (p : Nat) (d : Inode) (k : Nat) : Prop where
  sound : Sound (fun _ => False) x.store
  behind : Behind x.store dir p d
  dir : d.type = .dir
  offset : x.offset = tmpfsEntrySize * k
  le : k ≤ d.children.length
  returned : x.returned = (d.children.take k).map (direntOf x.store)

variable {x x' : Scan} {k : Nat}

lemma Listed.readdir (h : Listed dir x p d k) (hstep : Step dir x .readdir x') :
    Listed dir x' p d (k + 1) := by
  obtain ⟨de, hrun, hreturned⟩ := hstep
  rw [h.offset, run_readdir h.sound h.behind h.dir] at hrun
  cases hdrop : d.children.drop k with
  | nil =>
    simp only [hdrop] at hrun
    cases hrun
  | cons e rest =>
    simp only [hdrop] at hrun
    obtain ⟨store, offset, returned⟩ := x'
    cases hrun
    have hlen := congrArg length hdrop
    rw [length_drop, length_cons] at hlen
    have htake : d.children.take (k + 1) = d.children.take k ++ [e] := by
      rw [take_add, hdrop]
      rfl
    refine ⟨h.sound, h.behind, h.dir, rfl, by omega, ?_⟩
    rw [htake, map_append, ← h.returned]
    exact hreturned

lemma take_eraseP {α : Type} (q : α → Bool) (l : List α) (h : k ≤ l.findIdx q) :
    (l.eraseP q).take k = l.take k ∧ (k ≤ l.length → k ≤ (l.eraseP q).length) := by
  induction l generalizing k with
  | nil => simp
  | cons y ys ih =>
    cases k with
    | zero => simp
    | succ k =>
      cases hy : q y with
      | true => simp [findIdx_cons, hy] at h
      | false =>
        simp only [findIdx_cons, hy, cond_false, add_le_add_iff_right] at h
        obtain ⟨htake, hlen⟩ := ih h
        rw [eraseP_cons_of_neg (by simp [hy])]
        simpa [htake] using hlen

variable {act : Action} {rest l : List DirEntry} {offset : Nat} {returned : List Dirent}

lemma Listed.take_eq (h : Listed dir x p d k) (hsteady : Steady dir x (.other act))
    {d' : Inode} (hrel : act.Relinks x.store p d.children d'.children) :
    d'.children.take k = d.children.take k ∧ k ≤ d'.children.length := by
  have hsame : d'.children = d.children → d'.children.take k = d.children.take k ∧
    k ≤ d'.children.length := by
    intro heq
    rw [heq]
    exact ⟨rfl, h.le⟩
  cases act with
  | create dir' name type m =>
    rcases hrel with heq | ⟨hdata, a, heq⟩
    · exact hsame heq
    · have hzero := hsteady (hdata.trans h.behind.data.symm)
      have hk : k = 0 := by
        rw [h.offset] at hzero
        exact (Nat.mul_eq_zero.mp hzero).resolve_left (by decide)
      subst hk
      simp
  | unlink dir' name =>
    rcases hrel with heq | ⟨hdata, heq⟩
    · exact hsame heq
    · have hle := hsteady (hdata.trans h.behind.data.symm) p d h.behind.data h.behind.node
      rw [h.offset] at hle
      have hidx := le_of_mul_le_mul_left hle (by decide)
      obtain ⟨htake, hlen⟩ := take_eraseP (fun e : DirEntry => sameName name e.name) d.children hidx
      rw [heq]
      exact ⟨htake, hlen h.le⟩
  | _ => exact hsame hrel

lemma Listed.other (h : Listed dir x p d k) (hstep : Step dir x (.other act) x')
    (hsteady : Steady dir x (.other act)) : ∃ d', Listed dir x' p d' k := by
  obtain ⟨⟨⟨hl, r, hr⟩, hw⟩, hopen, hoffset, hreturned⟩ := hstep
  obtain ⟨hsound, htransfer, -⟩ := (perform_spec h.sound hl hw).of_run hr
  have hstays : x'.store.holds dir ∧ x'.store.dataOf dir = x.store.dataOf dir := by
    cases dir with
    | root => exact ⟨trivial, rfl⟩
    | slot i => exact htransfer.slot i h.behind.holds (hopen i rfl)
  obtain ⟨p', d', hd'⟩ := hsound.behind hstays.1
  have hp : p' = p := by
    have hdata := hd'.data
    rw [hstays.2, h.behind.data] at hdata
    cases hdata
    rfl
  subst hp
  obtain ⟨-, htype, -⟩ := htransfer.stays p' d d' h.behind.node hd'.node
  obtain ⟨htake, hle⟩ := h.take_eq hsteady (htransfer.children p' d d' h.behind.node hd'.node)
  refine ⟨d', hsound, hd', htype.trans h.dir, hoffset.trans h.offset, hle, ?_⟩
  rw [hreturned, h.returned, htake]
  -- the inodes of these entries are live before and after, with the same numbers
  refine map_congr_left fun e he => ?_
  obtain ⟨-, -, n, hn, -⟩ := h.sound.child h.behind.node (mem_of_mem_take he)
  obtain ⟨-, -, n', hn', -⟩ := hsound.child hd'.node (mem_of_mem_take (htake ▸ he))
  obtain ⟨hino, -⟩ := htransfer.stays e.inode n n' hn hn'
  simp only [direntOf, hn, hn', map_some, hino]

lemma Listed.ended (h : Listed dir x p d k) (hend : Ended dir x) (he : Has dir x.store e) :
    ReturnedOnce x e := by
  obtain ⟨p', d', hp', hd', he⟩ := he
  have hp : p' = p := by
    rw [h.behind.data] at hp'
    cases hp'
    rfl
  subst hp
  rw [h.behind.node] at hd'
  cases hd'
  rw [Ended, h.offset, run_readdir h.sound h.behind h.dir] at hend
  have hall : d.children.take k = d.children := by
    cases hdrop : d.children.drop k with
    | nil => exact take_of_length_le (drop_eq_nil_iff.mp hdrop)
    | cons e rest =>
      simp only [hdrop] at hend
      cases hend
  obtain ⟨-, -, n, hn, htype, -⟩ := h.sound.child h.behind.node he
  have hdirent : direntOf x.store e = ⟨e.name, n.ino, n.type⟩ := by
    simp only [direntOf, hn, htype, map_some, getD_some]
  refine ⟨n, hn, ?_⟩
  rw [h.returned, hall, ← hdirent]
  refine count_eq_one_of_mem ?_ (mem_map_of_mem he)
  -- different entries have inodes with different numbers
  refine List.Nodup.map_on ?_
    (List.Nodup.of_map _ (h.sound.tree.nodup p' _ (header_of_node h.behind.node)))
  intro e1 he1 e2 he2 heq
  obtain ⟨-, -, n1, hn1, -⟩ := h.sound.child h.behind.node he1
  obtain ⟨-, -, n2, hn2, -⟩ := h.sound.child h.behind.node he2
  simp only [direntOf, hn1, hn2, map_some, getD_some, Dirent.mk.injEq] at heq
  obtain ⟨hname, hino, htype⟩ := heq
  have hinode : e1.inode = e2.inode :=
    h.sound.cache.ino_inj _ _ _ _ (header_of_node hn1) (header_of_node hn2) hino
  cases e1
  cases e2
  simp_all

/-- A step of the loop or of the others that meets the condition. -/
def SteadyStep (dir : Handle) (x : Scan) (a : Act) (x' : Scan) : Prop :=
  Step dir x a x' ∧ Steady dir x a

/-- When entries are made only before the loop has returned one, and entries that it has returned
are not removed, every entry that is there when the loop ends has been returned exactly once. -/
theorem readdir_returns_once {s₀ : Store} {acts : List Action} {calls : List Act} (h₀ : Mounted s₀)
    (hrun₀ : Run Bounded s₀ acts s) (hholds : s.holds dir) (htype : s.typeOf dir = .dir)
    (hrun : Run (SteadyStep dir) ⟨s, 0, []⟩ calls x) (hend : Ended dir x) :
    ∀ e, Has dir x.store e → ReturnedOnce x e := by
  have hsound := sound_of_run h₀.sound hrun₀
  obtain ⟨p, d, hd⟩ := hsound.behind hholds
  have hstart : ∃ p d k, Listed dir ⟨s, 0, []⟩ p d k :=
    ⟨p, d, 0, hsound, hd, hd.type ▸ htype, rfl, zero_le _, rfl⟩
  obtain ⟨p, d, k, hlisted⟩ := hrun.invariant (fun x => ∃ p d k, Listed dir x p d k) (by
    rintro x a x' ⟨p, d, k, h⟩ ⟨hstep, hsteady⟩
    cases a with
    | readdir => exact ⟨p, d, k + 1, h.readdir hstep⟩
    | other act =>
      obtain ⟨d', h'⟩ := h.other hstep hsteady
      exact ⟨p, d', k, h'⟩) hstart
  exact fun e he => hlisted.ended hend he

/-- The root directory has the files `b` and `a`, in this order. -/
def twoFiles : Store :=
  after (after (booted []) (.create .root [97#8] .file ⟨true, some 2⟩))
    (.create .root [98#8] .file ⟨true, some 3⟩)

lemma bounded_create (hroom : ∀ i, (s.slot i).count = 0) (hino : s.nextIno + 1 < 2 ^ 32)
    (hfresh : s.node a = none)
    (hok : ((Action.create .root name .file ⟨true, some a⟩).perform.run s).isOk = true) :
    Bounded s (.create .root name .file ⟨true, some a⟩)
      (after s (.create .root name .file ⟨true, some a⟩)) := by
  refine ⟨step_after ⟨trivial, rfl, ?_⟩ hok, fun i => ?_, hino, nofun⟩
  · rintro b hb
    cases hb
    exact hfresh
  · rw [hroom i]
    decide

lemma run_twoFiles : Run Bounded (booted []) [.create .root [97#8] .file ⟨true, some 2⟩,
    .create .root [98#8] .file ⟨true, some 3⟩] twoFiles := by
  refine .cons (bounded_create ?_ ?_ ?_ ?_) (.cons (bounded_create ?_ ?_ ?_ ?_) (.nil _))
  all_goals decide +kernel

lemma step_readdir (h : Sound (fun _ => False) s) (hr : s.node rootAddr = some r)
    (hdir : r.type = .dir) (hdrop : r.children.drop k = e :: rest) (returned : List Dirent) :
    Step .root ⟨s, tmpfsEntrySize * k, returned⟩ .readdir
      ⟨s, tmpfsEntrySize * (k + 1), returned ++ [direntOf s e]⟩ := by
  have hd : Behind s .root rootAddr r := ⟨trivial, rfl, hr, hdir.symm⟩
  have hrun := run_readdir h hd hdir k
  rw [hdrop] at hrun
  exact ⟨direntOf s e, hrun, rfl⟩

/-- The root directory as its type and its entries show it. -/
def rootList (s : Store) : Option (NodeType × List DirEntry) :=
  (s.node rootAddr).map fun r => (r.type, r.children)

lemma rootList_eq_some (h : rootList s = some (.dir, l)) :
    ∃ r, s.node rootAddr = some r ∧ r.type = .dir ∧ r.children = l := by
  obtain ⟨r, hr, heq⟩ := map_eq_some_iff.mp h
  obtain ⟨htype, hchildren⟩ := Prod.mk.inj heq
  exact ⟨r, hr, htype, hchildren⟩

lemma step_root (h : Sound (fun _ => False) s) (hl : rootList s = some (.dir, l))
    (hdrop : l.drop k = e :: rest) (returned : List Dirent) :
    Step .root ⟨s, tmpfsEntrySize * k, returned⟩ .readdir
      ⟨s, tmpfsEntrySize * (k + 1), returned ++ [direntOf s e]⟩ := by
  obtain ⟨r, hr, hdir, rfl⟩ := rootList_eq_some hl
  exact step_readdir h hr hdir hdrop returned

lemma ended_root (h : Sound (fun _ => False) s) (hl : rootList s = some (.dir, l))
    (hk : l.length ≤ k) (returned : List Dirent) :
    Ended .root ⟨s, tmpfsEntrySize * k, returned⟩ := by
  obtain ⟨r, hr, hdir, rfl⟩ := rootList_eq_some hl
  have hd : Behind s .root rootAddr r := ⟨trivial, rfl, hr, hdir.symm⟩
  have hrun := run_readdir h hd hdir k
  rw [drop_eq_nil_of_le hk] at hrun
  exact hrun

lemma has_root (hl : rootList s = some (.dir, l)) (he : e ∈ l) : Has .root s e := by
  obtain ⟨r, hr, -, rfl⟩ := rootList_eq_some hl
  exact ⟨rootAddr, r, rfl, hr, he⟩

lemma step_other (h : Bounded s act s') :
    Step .root ⟨s, offset, returned⟩ (.other act) ⟨s', offset, returned⟩ := ⟨h, nofun, rfl, rfl⟩

lemma returned_ne_once (de : Dirent)
    (hid : (s.node e.inode).map identity = some (de.ino, de.type)) (hname : e.name = de.name)
    (hcount : returned.count de ≠ 1) : ¬ReturnedOnce ⟨s, offset, returned⟩ e := by
  rintro ⟨n, hn, hone⟩
  rw [hn] at hid
  obtain ⟨hino, htype⟩ := Prod.mk.inj (some.inj hid)
  rw [hino, htype, hname] at hone
  exact hcount hone

def fileA : DirEntry := ⟨[97#8], 2, .file⟩

def fileB : DirEntry := ⟨[98#8], 3, .file⟩

def fileC : DirEntry := ⟨[99#8], 4, .file⟩

lemma mounted_empty : Mounted (booted []) := mounted_booted nodup_nil nofun

lemma sound_twoFiles :
    Sound (fun _ => False) twoFiles := sound_of_run mounted_empty.sound run_twoFiles

lemma list_twoFiles : rootList twoFiles = some (.dir, [fileB, fileA]) := by decide +kernel

lemma step_twoFiles : Step .root ⟨twoFiles, 0, []⟩ .readdir
      ⟨twoFiles, tmpfsEntrySize * 1, [direntOf twoFiles fileB]⟩ :=
  step_root (k := 0) sound_twoFiles list_twoFiles rfl []

lemma bounded_unlink (hok : ((Action.unlink .root name).perform.run s).isOk = true) :
    Bounded s (.unlink .root name) (after s (.unlink .root name)) :=
  ⟨step_after (show s.holds .root from trivial) hok, trivial⟩

/-- An entry that has not been returned yet is removed during the loop. -/
theorem readdir_returns_once_unlink : Mounted (booted []) ∧ twoFiles.holds .root ∧
    Run (SteadyStep .root) ⟨twoFiles, 0, []⟩ [.readdir, .other (.unlink .root [97#8])]
      ⟨after twoFiles (.unlink .root [97#8]), tmpfsEntrySize * 1, [direntOf twoFiles fileB]⟩ ∧
    ReturnedOnce ⟨after twoFiles (.unlink .root [97#8]), tmpfsEntrySize * 1,
      [direntOf twoFiles fileB]⟩ fileB := by
  have hunlink : Bounded twoFiles (.unlink .root [97#8]) (after twoFiles (.unlink .root [97#8])) :=
    bounded_unlink (by decide +kernel)
  have hlist : rootList (after twoFiles (.unlink .root [97#8])) = some (.dir, [fileB]) := by
    decide +kernel
  have hsound := sound_of_run sound_twoFiles (.cons hunlink (.nil _))
  have hrun : Run (SteadyStep .root) ⟨twoFiles, 0, []⟩ [.readdir, .other (.unlink .root [97#8])]
      ⟨after twoFiles (.unlink .root [97#8]), tmpfsEntrySize * 1, [direntOf twoFiles fileB]⟩ := by
    refine .cons ⟨step_twoFiles, trivial⟩ (.cons ⟨step_other hunlink, ?_⟩ (.nil _))
    intro _ p d hp hd
    cases hp
    obtain ⟨r, hr, -, hchildren⟩ := rootList_eq_some list_twoFiles
    rw [hr] at hd
    cases hd
    rw [hchildren]
    decide +kernel
  refine ⟨mounted_empty, trivial, hrun, readdir_returns_once mounted_empty run_twoFiles
    (show twoFiles.holds .root from trivial) rfl hrun ?_ fileB (has_root hlist (by decide))⟩
  exact ended_root hsound hlist (by decide) _

/-- Making an entry during the loop makes it return another one twice, and removing an entry that it
has returned makes it skip one. -/
theorem listing_unstable : Mounted (booted []) ∧
    (∃ x, Run (fun x a x' => Step .root x a x' ∧ Has .root x.store fileB) ⟨twoFiles, 0, []⟩
        [.readdir, .other (.create .root [99#8] .file ⟨true, some 4⟩), .readdir, .readdir] x ∧
      Has .root x.store fileB ∧ Ended .root x ∧ ¬ReturnedOnce x fileB) ∧
    ∃ x, Run (fun x a x' => Step .root x a x' ∧ Has .root x.store fileA) ⟨twoFiles, 0, []⟩
        [.readdir, .other (.unlink .root [98#8])] x ∧
      Has .root x.store fileA ∧ Ended .root x ∧ ¬ReturnedOnce x fileA := by
  refine ⟨mounted_empty, ?_, ?_⟩
  · obtain ⟨s, hs⟩ : ∃ s, s = after twoFiles (.create .root [99#8] .file ⟨true, some 4⟩) := ⟨_, rfl⟩
    have hcreate : Bounded twoFiles (.create .root [99#8] .file ⟨true, some 4⟩) s := by
      rw [hs]
      refine bounded_create ?_ ?_ ?_ ?_
      all_goals decide +kernel
    have hlist : rootList s = some (.dir, [fileC, fileB, fileA]) := by
      rw [hs]
      decide +kernel
    have hsound := sound_of_run sound_twoFiles (.cons hcreate (.nil _))
    have htwo : Has .root twoFiles fileB := has_root list_twoFiles (by decide)
    have hthree : Has .root s fileB := has_root hlist (by decide)
    refine ⟨_, .cons ⟨step_twoFiles, htwo⟩ (.cons ⟨step_other hcreate, htwo⟩
      (.cons ⟨step_root hsound hlist rfl _, hthree⟩
        (.cons ⟨step_root hsound hlist rfl _, hthree⟩ (.nil _)))),
      hthree, ended_root hsound hlist (by decide) _, ?_⟩
    rw [hs]
    exact returned_ne_once ⟨[98#8], 3, .file⟩ (by decide +kernel) rfl (by decide +kernel)
  · obtain ⟨s, hs⟩ : ∃ s, s = after twoFiles (.unlink .root [98#8]) := ⟨_, rfl⟩
    have hunlink : Bounded twoFiles (.unlink .root [98#8]) s := by
      rw [hs]
      exact bounded_unlink (by decide +kernel)
    have hlist : rootList s = some (.dir, [fileA]) := by
      rw [hs]
      decide +kernel
    have hsound := sound_of_run sound_twoFiles (.cons hunlink (.nil _))
    have htwo : Has .root twoFiles fileA := has_root list_twoFiles (by decide)
    refine ⟨⟨s, tmpfsEntrySize * 1, [direntOf twoFiles fileB]⟩, .cons ⟨step_twoFiles, htwo⟩
      (.cons ⟨step_other hunlink, htwo⟩ (.nil _)), has_root hlist (by decide),
      ended_root hsound hlist (by decide) _, ?_⟩
    rw [hs]
    exact returned_ne_once ⟨[97#8], 2, .file⟩ (by decide +kernel) rfl (by decide +kernel)

end FrostVista.Tmpfs.Readdir
