import FrostVista.EasyFs.Names
import FrostVista.EasyFs.Offsets
import FrostVista.Kernel.Getdents

/-!
# EasyFS: listing a directory through a descriptor

`sys_lseek` sets the offset of a descriptor to any byte of a directory, and `easyfs_vfs_readdir`
reads entries of 32 bytes from there on. It panics when the end of the directory cuts off an entry.
-/
namespace FrostVista.EasyFs.Listing

open Lib Lib.Comp Kernel

open Namei (Name)

open Getdents (DiskDirEntry Delivered reclen recordBytes)

def vfsDev : Nat := 0x11

/-- The types that `sys_getdents64` tells apart. -/
def nodeType (type : Nat) : Ftable.NodeType :=
  if type = vfsDir then .dir else if type = vfsDev then .dev else .file

def dirent (ino : Nat) (name : List Byte) (type : Nat) : Getdents.Dirent :=
  let e : DiskDirEntry := ⟨BitVec.ofNat 32 ino, name⟩
  ⟨e.text, e.inodeNum, nodeType type, e.text_short⟩

/-- What a call returns: its value, the descriptor and the records it delivered. -/
structure Reply where
  ret : Int
  file : File
  delivered : List Delivered

/-- The loop of `sys_getdents64`; every round but the last fills at least one byte of the buffer. -/
def getdentsLoop (a : Getdents.Call) : Nat → Nat → Nat → File → List Delivered → FsProg Reply
  | 0, _, _, _, _ => panic .endless
  | fuel + 1, j, used, f, out => do
    match ← readdir f.node (uint32 f.offset) with
    | .done => pure ⟨used, f, out⟩
    | .error => pure ⟨failed used (-1), f, out⟩
    | .entry ino name type next =>
      let de := dirent ino name type
      if a.mem j = false then pure ⟨failed used (-eNoMem), { f with offset := next }, out⟩
      else if a.count < used + reclen de then pure ⟨if used = 0 then -eInval else used, f, out⟩
      else if copyoutOk a.writable (a.buf + BitVec.ofNat 64 used) (reclen de) = false then
        pure ⟨failed used (-eFault), { f with offset := next }, out⟩
      else
        getdentsLoop a fuel (j + 1) (used + reclen de) { f with offset := next }
          (out ++ [⟨used, de, recordBytes de (BitVec.ofNat 64 next)⟩])

def sysGetdents64 (a : Getdents.Call) (f : File) : FsProg Reply := do
  if a.count < 0 then pure ⟨-eInval, f, []⟩
  else
    let e ← load f.node
    if e.type ≠ vfsDir then pure ⟨-eNotDir, f, []⟩
    else getdentsLoop a (a.count.toNat + 1) 0 0 f []

def sysLseek (off whence : Nat) (f : File) : FsProg Reply := do
  let e ← load f.node
  match lseek f e.size off whence with
  | none => pure ⟨-eInval, f, []⟩
  | some f => pure ⟨f.offset, f, []⟩

inductive ListCall where
  | lseek (off whence : Nat)
  | getdents64 (a : Getdents.Call)

def ListCall.perform : ListCall → File → FsProg Reply
  | .lseek off whence => sysLseek off whence
  | .getdents64 a => sysGetdents64 a

/-! ## One call -/

/-- The offset that `easyfs_vfs_readdir` starts at is that of an entry, or behind the end. -/
def AtEntry (f : File) (s : Fs) : Prop :=
  32 ∣ uint32 f.offset ∨ (s.slot f.node).size ≤ uint32 f.offset

/-- The errors of `sys_getdents64`. -/
def listErrors : List Int := [-eIo, -eNoMem, -eInval, -eFault]

/-- A call returns the length of the records it delivered (0 for none), or an error. -/
def Reply.Proper (r : Reply) : Prop :=
  r.ret = (r.delivered.map fun x => reclen x.entry).sum ∨ r.delivered = [] ∧ r.ret ∈ listErrors

/-- The records so far fill `used` bytes. -/
def Filled (used : Nat) (out : List Delivered) : Prop :=
  used = (out.map fun x => reclen x.entry).sum

variable {d : Nat} {s s' : Fs} {dir : SlotId} {t : Tid} {names : List Name}
  {f : File} {a : Getdents.Call}

lemma reclen_pos (de : Getdents.Dirent) : 0 < reclen de := by
  unfold reclen Getdents.alignUp
  omega

lemma Filled.eq_nil (h : Filled 0 out) : out = [] := by
  cases out with
  | nil => rfl
  | cons x out =>
    have := reclen_pos x.entry
    simp only [Filled, List.map_cons, List.sum_cons] at h
    omega

lemma Filled.proper {used : Nat} {out : List Delivered} (h : Filled used out) (f : File) {ret : Int}
    (hret : ret = used ∨ ret ∈ listErrors ∧ used = 0) : (Reply.mk ret f out).Proper := by
  rcases hret with rfl | ⟨herror, rfl⟩
  · exact .inl (congrArg Nat.cast h)
  · exact .inr ⟨h.eq_nil, herror⟩

/-- A directory that can be read through a descriptor. -/
structure Readable (dir : SlotId) (d : Nat) (s : Fs) : Prop extends Serves dir d s where
  tidy : s.volume.Tidy d

lemma Readable.size (h : Readable dir d s) : (s.slot dir).size = (s.volume.info d).size := by
  obtain ⟨E, hs⟩ := h.sound
  exact hs.size (Set.notMem_empty dir) h.has

/-- `easyfs_vfs_readdir` from an offset at an entry or behind the end. -/
lemma Readable.readdir (h : Readable f.node d s) (hat : AtEntry f s) :
    Total (runAs t (EasyFs.readdir f.node (uint32 f.offset))) s fun r s' =>
      Readable f.node d s' ∧ s'.blk = s.blk ∧ ∀ ino name type next, r = .entry ino name type next →
        32 ∣ next := by
  obtain ⟨E, hs⟩ := h.sound
  rcases hat with ⟨q, hq⟩ | hend
  · rw [hq]
    refine (hs.readdir h.has h.tidy h.idle q).mono ?_
    rintro r s' ⟨hkept, hblk, hs', hcase⟩
    obtain ⟨h', hsame⟩ := h.toServes.next hkept hs' h.tidy
    refine ⟨⟨h', hsame.tidy⟩, hblk, ?_⟩
    rintro ino name type next rfl
    cases hscan : s.volume.scan d (fun de => entryIno de ≠ 0) (32 * q) with
    | none =>
      rw [hscan] at hcase
      cases hcase
    | some k =>
      rw [hscan] at hcase
      rcases hcase with ⟨-, hr⟩ | ⟨-, hr⟩
      · cases hr
      · injection hr with _ _ _ hnext
        exact ⟨q + k + 1, by omega⟩
  · rw [h.size] at hend
    have hrun := hs.run_readdir_none (t := t) h.has h.tidy.isDir h.idle
      (Volume.scan_of_lt (show (s.volume.info d).size < uint32 f.offset + 32 by omega))
    rw [if_pos (by rw [Nat.sub_eq_zero_of_le hend])] at hrun
    refine ⟨_, s, hrun, h, rfl, ?_⟩
    rintro ino name type next ⟨⟩

lemma AtEntry.of_dvd {next : Nat} (h : 32 ∣ next) : AtEntry ⟨dir, next⟩ s :=
  .inl ((Nat.dvd_mod_iff (by decide)).mpr h)

lemma AtEntry.next (hat : AtEntry f s) (h : Readable f.node d s) (h' : Readable f.node d s')
    (hblk : s'.blk = s.blk) : AtEntry f s' := by
  rcases hat with hdvd | hend
  · exact .inl hdvd
  · refine .inr ?_
    rwa [h'.size, Fs.volume_eq hblk, ← h.size]

/-- What a call of `sys_getdents64` guarantees. -/
def Listed (d : Nat) (f : File) (blk : Nat → Bytes) (r : Reply) (s' : Fs) : Prop :=
  Readable f.node d s' ∧ s'.blk = blk ∧ r.Proper ∧ r.file.node = f.node ∧ AtEntry r.file s'

lemma Readable.getdentsLoop (fuel j used : Nat) (f : File) (out : List Delivered)
    (h : Readable f.node d s) (hat : AtEntry f s) (hout : Filled used out) (hused : used ≤ a.count)
    (hfuel : a.count < used + fuel) :
    Total (runAs t (Listing.getdentsLoop a fuel j used f out)) s (Listed d f s.blk) := by
  induction fuel generalizing j used f out s with
  | zero => omega
  | succ fuel ih =>
    unfold Listing.getdentsLoop
    refine Prog.total_bind (h.readdir hat) ?_
    rintro r s' ⟨h', hblk, hnext⟩
    have hat' := hat.next h h' hblk
    have hfail {e} := failed_cases (e := e) (· ∈ listErrors) used
    cases r with
    | done => exact ⟨_, s', rfl, h', hblk, hout.proper f (.inl rfl), rfl, hat'⟩
    | error => exact ⟨_, s', rfl, h', hblk, hout.proper f (hfail (by decide)), rfl, hat'⟩
    | entry ino name type next =>
      have hentry : AtEntry ⟨f.node, next⟩ s' := .of_dvd (hnext _ _ _ _ rfl)
      dsimp only
      split_ifs with hmem hfit hzero hcopy
      · exact ⟨_, s', rfl, h', hblk, hout.proper _ (hfail (by decide)), rfl, hentry⟩
      · exact ⟨_, s', rfl, h', hblk, hout.proper f (.inr ⟨by decide, hzero⟩), rfl, hat'⟩
      · exact ⟨_, s', rfl, h', hblk, hout.proper f (.inl rfl), rfl, hat'⟩
      · exact ⟨_, s', rfl, h', hblk, hout.proper _ (hfail (by decide)), rfl, hentry⟩
      · have hpos := reclen_pos (dirent ino name type)
        have hrest := ih (j + 1) (used + reclen (dirent ino name type)) ⟨f.node, next⟩
          (out ++ [⟨used, dirent ino name type,
            recordBytes (dirent ino name type) (BitVec.ofNat 64 next)⟩]) h' hentry
          (by simpa [Filled] using hout) (by omega) (by omega)
        rw [hblk] at hrest
        exact hrest

lemma Readable.sysGetdents64 (h : Readable f.node d s) (hat : AtEntry f s) (a : Getdents.Call) :
    Total (runAs t (Listing.sysGetdents64 a f)) s (Listed d f s.blk) := by
  unfold Listing.sysGetdents64
  split_ifs with hcount
  · exact ⟨_, s, rfl, h, rfl, .inr ⟨rfl, show -eInval ∈ listErrors by decide⟩, rfl, hat⟩
  · obtain ⟨E, hs⟩ := h.sound
    refine Prog.total_bind_ok run_load ?_
    rw [if_neg
      (by rw [hs.type (Set.notMem_empty f.node) h.has, h.tidy.isDir.2]; exact fun hne => hne rfl)]
    exact h.getdentsLoop _ 0 0 f [] hat rfl (by omega) (by omega)

lemma Readable.sysLseek (h : Readable f.node d s) (off whence : Nat) :
    (runAs t (Listing.sysLseek off whence f)).run s =
      .ok (match lseek f (s.volume.info d).size off whence with
      | none => ⟨-eInval, f, []⟩
      | some f' => ⟨f'.offset, f', []⟩, s) := by
  rw [Listing.sysLseek, Prog.run_bind_ok run_load, h.size]
  cases lseek f (s.volume.info d).size off whence with
  | none => rfl
  | some f' => rfl

/-! ## Runs of calls -/

/-- What happens in a run: a call on the descriptor with its reply, or a call on a name in the
directory. -/
inductive Action where
  | call (c : ListCall) (r : Reply)
  | change (c : DirCall × Bool)

/-- `sys_getdents64` is called with the descriptor at an entry, or behind the end. -/
def ListCall.Ok (f : File) (s : Fs) : ListCall → Prop
  | .lseek _ _ => True
  | .getdents64 _ => AtEntry f s

inductive ListStep (t : Tid) : File × Fs → Action → File × Fs → Prop
  | call {f : File} {s s' : Fs} {c : ListCall} {r : Reply} (hok : c.Ok f s)
      (hrun : (runAs t (c.perform f)).run s = .ok (r, s')) :
        ListStep t (f, s) (.call c r) (r.file, s')
  | change {t' : Tid} {f : File} {s s' : Fs} {c : DirCall × Bool} (h : NameStep t' f.node s c s') :
      ListStep t (f, s) (.change c) (f, s')

/-- The descriptor is of the directory, which is in order. -/
def Holds (dir : SlotId) (d : Nat) (x : File × Fs) : Prop :=
  x.1.node = dir ∧ ∃ names, Tracks dir d names x.2

lemma Holds.readable (h : Holds dir d (f, s)) : Readable f.node d s := by
  obtain ⟨rfl, names, h⟩ := h
  exact ⟨h.toServes, h.orderly.tidy⟩

lemma lseek_node (h : lseek f size off whence = some f') :
    f'.node = f.node := by
  obtain ⟨next, -, h⟩ := Option.bind_eq_some_iff.mp h
  split_ifs at h
  cases h
  rfl

lemma Holds.step {x x' : File × Fs} {act : Action} (h : Holds dir d x)
    (hstep : ListStep t x act x') :
    Holds dir d x' := by
  cases hstep with
  | @call f s s' c r hok hrun =>
    have hread := h.readable
    obtain ⟨hnode, names, htracks⟩ := h
    cases c with
    | lseek off whence =>
      rw [ListCall.perform, hread.sysLseek] at hrun
      cases hrun
      refine ⟨?_, names, htracks⟩
      dsimp only
      split
      · exact hnode
      · exact (lseek_node ‹_›).trans hnode
    | getdents64 a =>
      obtain ⟨h', hblk, -, hnode', -⟩ := (hread.sysGetdents64 (t := t) hok a).of_run hrun
      have hvolume := Fs.volume_eq hblk
      refine ⟨hnode'.trans hnode, names, hnode ▸ h'.toServes, ?_, ?_⟩
      · rw [hvolume]
        exact htracks.orderly
      · rw [hvolume]
        exact htracks.named
  | change hname =>
    obtain ⟨rfl, names, htracks⟩ := h
    exact ⟨rfl, _, (htracks.step hname).1⟩

end FrostVista.EasyFs.Listing
