import FrostVista.Kernel.FileRead
import FrostVista.Kernel.FileTable

/-!
# Reading directories

`sys_getdents64` of `kernel/core/sysfile.c` and the `readdir` operations of tmpfs and easyfs. A
directory is read entry by entry: `readdir` returns the entry at the offset of the open file and
moves the offset behind it, before the record for the user is built. The call takes the move back
when the record does not fit, and only then, so an entry whose record cannot be allocated or copied
is lost.
-/
namespace FrostVista.Kernel.Getdents

open Lib Ftable List Nat
open BitVec (ofNat toNat_ofNat)

/-- `struct vfs_dirent` -/
structure Dirent where
  name : List Byte
  ino : BitVec 32
  type : NodeType
  /-- The name and its terminating zero fit in the 28 bytes of the field. -/
  short : name.length < 28
  deriving DecidableEq

/-- What `readdir` returns, with the offset it leaves when it finds an entry. -/
inductive Readdir where
  | done
  | failed (r : Int)
  | entry (de : Dirent) (offset : Word)
  deriving DecidableEq

/-! ## Directories of tmpfs -/

/-- `sizeof(struct tmpfs_dir_entry)` -/
def tmpfsEntrySize : Nat := 56

/-- The children of a directory in the order of the list; they fit in memory. -/
structure TmpfsDir where
  children : List Dirent
  few : tmpfsEntrySize * children.length < 2 ^ 31

/-- The loop `while (de != 0 && size < off)`. -/
def tmpfsSkip (off : Nat) : Nat → List Dirent → List Dirent
  | _, [] => []
  | size, de :: rest =>
    if size < off then tmpfsSkip off (size + tmpfsEntrySize) rest else de :: rest

def tmpfsVfsReaddir (d : TmpfsDir) (off : Word) : Readdir :=
  match tmpfsSkip off.toNat 0 d.children with
  | [] => .done
  | de :: _ => .entry de (off + BitVec.ofNat 64 tmpfsEntrySize)

/-! ## Directories of easyfs -/

/-- `struct disk_dir_entry` -/
structure DiskDirEntry where
  inodeNum : BitVec 32
  name : List Byte

/-- `sizeof(struct disk_dir_entry)` -/
def diskEntrySize : Nat := 32

/-- A directory file: its size and the entry its bytes give at an offset. The type of an entry is
read from its inode. -/
structure EasyfsDir where
  size : Nat
  entryAt : Nat → DiskDirEntry
  type : BitVec 32 → NodeType
  whole : diskEntrySize ∣ size
  small : size < 2 ^ 32

/-- The string in the field of 28 bytes whose last byte is set to zero. -/
def DiskDirEntry.text (e : DiskDirEntry) : List Byte := (e.name.take 27).takeWhile (· ≠ 0#8)

lemma DiskDirEntry.text_short (e : DiskDirEntry) : e.text.length < 28 := by
  have htake := (takeWhile_sublist (· ≠ 0#8) (l := e.name.take 27)).length_le
  have hlen := length_take_le 27 e.name
  unfold DiskDirEntry.text
  omega

def EasyfsDir.dirent (d : EasyfsDir) (e : DiskDirEntry) : Dirent :=
  ⟨e.text, e.inodeNum, d.type e.inodeNum, e.text_short⟩

/-- The loop of `easyfs_vfs_readdir`; `found` tells whether the inode of the entry can be read. -/
def easyfsScan (d : EasyfsDir) (found : Bool) : Nat → Nat → Readdir
  | 0, _ => .done
  | fuel + 1, off =>
    if off < d.size then
      let e := d.entryAt off
      if e.inodeNum = 0#32 then easyfsScan d found fuel (off + diskEntrySize)
      else if found then .entry (d.dirent e) (BitVec.ofNat 64 (off + diskEntrySize))
      else .failed (-1)
    else .done

/-- `easyfs_vfs_readdir`; the offset is cut to 32 bits. -/
def easyfsVfsReaddir (d : EasyfsDir) (found : Bool) (off : Word) : Readdir :=
  easyfsScan d found d.size (off.toNat % 2 ^ 32)

/-! ## The system call -/

/-- A directory as `sys_getdents64` sees it: the sequence of its entries, and the offset at which
`readdir` returns each of them. -/
structure Directory where
  entries : List Dirent
  readdir : Bool → Word → Readdir
  /-- `readdir` looks up the inode of the entry, which may fail. -/
  looksUp : Bool
  position : Nat → Word
  start : position 0 = 0#64
  increasing : ∀ i j, i < j → j ≤ entries.length → position i < position j
  readdir_lt : ∀ found k (h : k < entries.length), readdir found (position k) =
    if looksUp && !found then .failed (-1) else .entry (entries.get ⟨k, h⟩) (position (k + 1))
  readdir_end : ∀ found, readdir found (position entries.length) = .done

/-- The arguments of a call, the user memory it can write, and which allocations and inode lookups
succeed, counted by the entries the call reads. -/
structure Call where
  buf : Word
  count : Int
  writable : Word → Bool
  mem : Nat → Bool
  found : Nat → Bool

def alignUp (value alignment : Nat) : Nat := (value + alignment - 1) / alignment * alignment

/-- `ALIGN_UP(19 + strlen(dirent->d_name) + 1, 8)` -/
def reclen (de : Dirent) : Nat := alignUp (19 + de.name.length + 1) 8

def dType : NodeType → Byte
  | .dir => 4#8
  | .dev => 2#8
  | .file => 8#8

/-- The bytes of a number, lowest first. -/
def littleEndian (n : Nat) : Nat → List Byte
  | 0 => []
  | k + 1 => BitVec.ofNat 8 n :: littleEndian (n / 256) k

/-- The record of an entry as it is copied to the user: `struct linux_dirent64` with `d_off` the
offset behind the entry. -/
def recordBytes (de : Dirent) (off : Word) : List Byte :=
  littleEndian de.ino.toNat 8 ++ littleEndian off.toNat 8 ++ littleEndian (reclen de) 2 ++
    [dType de.type] ++ de.name ++ replicate (reclen de - 19 - de.name.length) 0#8

/-- A record in the buffer of the user. -/
structure Delivered where
  start : Nat
  entry : Dirent
  bytes : List Byte

/-- The value the call returns, the offset it leaves and the records it delivered. -/
structure Result where
  ret : Int
  offset : Word
  delivered : List Delivered

/-- The loop of `sys_getdents64` with `used` bytes of the buffer filled. -/
def getdentsLoop (d : Directory) (a : Call) : Nat → Nat → Nat → Word → Result
  | 0, _, used, off => ⟨used, off, []⟩
  | fuel + 1, j, used, oldOff =>
    match d.readdir (a.found j) oldOff with
    | .done => ⟨used, oldOff, []⟩
    | .failed r => ⟨failed used r, oldOff, []⟩
    | .entry de off =>
      if a.mem j = false then ⟨failed used (-eNoMem), off, []⟩
      else if a.count < used + reclen de then
        ⟨if used = 0 then -eInval else used, oldOff, []⟩
      else if copyoutOk a.writable (a.buf + BitVec.ofNat 64 used) (reclen de) = false then
        ⟨failed used (-eFault), off, []⟩
      else
        let r := getdentsLoop d a fuel (j + 1) (used + reclen de) off
        { r with delivered := ⟨used, de, recordBytes de off⟩ :: r.delivered }

/-- `sys_getdents64` on the descriptor of a directory; every round but the last fills at least one
byte of the buffer. -/
def sysGetdents64 (d : Directory) (a : Call) (offset : Word) : Result :=
  if a.count < 0 then ⟨-eInval, offset, []⟩
  else getdentsLoop d a (a.count.toNat + 1) 0 0 offset

/-! ## The two file systems -/

lemma tmpfsSkip_eq (children : List Dirent) (k m : Nat) :
    tmpfsSkip (tmpfsEntrySize * (m + k)) (tmpfsEntrySize * m) children = children.drop k := by
  induction children generalizing k m with
  | nil => simp [tmpfsSkip]
  | cons de rest ih =>
    cases k with
    | zero => simp [tmpfsSkip]
    | succ k =>
      have hlt : tmpfsEntrySize * m < tmpfsEntrySize * (m + (k + 1)) := by
        simp only [tmpfsEntrySize]
        omega
      have hnext : tmpfsEntrySize * m + tmpfsEntrySize = tmpfsEntrySize * (m + 1) := by
        simp only [tmpfsEntrySize]
        omega
      rw [tmpfsSkip, if_pos hlt, hnext, show m + (k + 1) = m + 1 + k by omega, ih]
      rfl

lemma tmpfsVfsReaddir_eq (d : TmpfsDir) (h : k ≤ d.children.length) :
    tmpfsVfsReaddir d (ofNat 64 (tmpfsEntrySize * k)) =
      match d.children.drop k with
      | [] => .done
      | de :: _ => .entry de (ofNat 64 (tmpfsEntrySize * (k + 1))) := by
  have hfew := d.few
  have hk : tmpfsEntrySize * k ≤ tmpfsEntrySize * d.children.length := mul_le_mul_left _ h
  have hoff : (ofNat 64 (tmpfsEntrySize * k)).toNat = tmpfsEntrySize * (0 + k) := by
    rw [toNat_ofNat, mod_eq_of_lt (by omega), zero_add]
  have hskip := tmpfsSkip_eq d.children k 0
  rw [mul_zero] at hskip
  rw [tmpfsVfsReaddir, hoff, hskip, mul_succ, BitVec.ofNat_add]

def TmpfsDir.directory (d : TmpfsDir) : Directory where
  entries := d.children
  readdir := fun _ => tmpfsVfsReaddir d
  looksUp := false
  position := fun k => BitVec.ofNat 64 (tmpfsEntrySize * k)
  start := rfl
  increasing := by
    intro i j hij hj
    have hfew := d.few
    simp only [tmpfsEntrySize] at *
    rw [BitVec.lt_def, BitVec.toNat_ofNat, BitVec.toNat_ofNat, Nat.mod_eq_of_lt (by omega),
      Nat.mod_eq_of_lt (by omega)]
    omega
  readdir_lt := by
    intro _ k h
    rw [tmpfsVfsReaddir_eq d (Nat.le_of_lt h), drop_eq_getElem_cons h]
    rfl
  readdir_end := by
    intro _
    rw [tmpfsVfsReaddir_eq d (Nat.le_refl _), drop_length]

namespace EasyfsDir

variable (d : EasyfsDir)

/-- The entries in use among `m` slots from slot `i` on, each with the offset behind it. -/
def used : Nat → Nat → List (Nat × Dirent)
  | 0, _ => []
  | m + 1, i =>
    let e := d.entryAt (diskEntrySize * i)
    if e.inodeNum = 0#32 then used m (i + 1)
    else (diskEntrySize * (i + 1), d.dirent e) :: used m (i + 1)

def slots : Nat := d.size / diskEntrySize

lemma size_eq : d.size = diskEntrySize * d.slots := (Nat.mul_div_cancel' d.whole).symm

/-- The offset behind the first `k` entries in use. -/
def behind : Nat → Nat
  | 0 => 0
  | k + 1 => ((d.used d.slots 0)[k]?.map Prod.fst).getD 0

variable {d}

variable {found : Bool} {i m k : Nat}

lemma easyfsScan_eq (hslots : i + m = d.slots) (hfuel : m ≤ fuel) :
    easyfsScan d found fuel (diskEntrySize * i) =
      match d.used m i with
      | [] => .done
      | (off, de) :: _ => if found then .entry de (ofNat 64 off) else .failed (-1) := by
  have hsize := d.size_eq
  induction m generalizing i fuel with
  | zero =>
    have hend : ¬diskEntrySize * i < d.size := by
      rw [hsize, ← hslots]
      simp
    cases fuel with
    | zero => rfl
    | succ fuel => simp [easyfsScan, used, hend]
  | succ m ih =>
    obtain ⟨fuel, rfl⟩ : ∃ n, fuel = n + 1 := ⟨fuel - 1, by omega⟩
    have hlt : diskEntrySize * i < d.size := by
      rw [hsize, ← hslots]
      simp only [diskEntrySize]
      omega
    simp only [easyfsScan, used, if_pos hlt]
    split
    · have hnext := ih (i := i + 1) (show i + 1 + m = d.slots by omega) (le_of_succ_le_succ hfuel)
      rwa [mul_succ] at hnext
    · rfl

lemma behind_succ (hk : k < (d.used d.slots 0).length) :
    d.behind (k + 1) = ((d.used d.slots 0)[k]).1 := by
  simp [behind, getElem?_eq_getElem hk]

lemma used_eq_cons (h : d.used m i = (off, de) :: rest) :
    ∃ i' m', i < i' ∧ i' + m' = i + m ∧ off = diskEntrySize * i' ∧ d.used m' i' = rest := by
  induction m generalizing i with
  | zero => cases h
  | succ m ih =>
    simp only [used] at h
    split at h
    · obtain ⟨i', m', hlt, hsum, hoff, hrest⟩ := ih h
      exact ⟨i', m', by omega, by omega, hoff, hrest⟩
    · cases h
      exact ⟨i + 1, m, by omega, by omega, rfl, rfl⟩

lemma used_behind (hk : k ≤ (d.used d.slots 0).length) :
    ∃ i m, i + m = d.slots ∧ d.behind k = diskEntrySize * i ∧
      d.used m i = (d.used d.slots 0).drop k := by
  induction k with
  | zero => exact ⟨0, d.slots, by omega, rfl, rfl⟩
  | succ k ih =>
    obtain ⟨i, m, hslots, -, hused⟩ := ih (by omega)
    rw [drop_eq_getElem_cons hk] at hused
    obtain ⟨i', m', -, hsum, hoff, hrest⟩ := used_eq_cons hused
    exact ⟨i', m', by omega, (behind_succ hk).trans hoff, hrest⟩

lemma behind_lt_succ (hk : k < (d.used d.slots 0).length) : d.behind k < d.behind (k + 1) := by
  obtain ⟨i, m, hslots, hbehind, hused⟩ := used_behind (le_of_lt hk)
  rw [drop_eq_getElem_cons hk] at hused
  obtain ⟨i', m', hlt, -, hoff, -⟩ := used_eq_cons hused
  rw [hbehind, behind_succ hk, show ((d.used d.slots 0)[k]).1 = diskEntrySize * i' from hoff]
  simp only [diskEntrySize]
  omega

lemma behind_lt (hij : i < j) (hj : j ≤ (d.used d.slots 0).length) :
    d.behind i < d.behind j := by
  induction j with
  | zero => omega
  | succ j ih =>
    have hstep := behind_lt_succ (show j < (d.used d.slots 0).length by omega)
    obtain heq | hlt := eq_or_lt_of_le (le_of_lt_succ hij)
    · rwa [heq]
    · exact lt_trans (ih hlt (by omega)) hstep

lemma behind_le_size (hk : k ≤ (d.used d.slots 0).length) : d.behind k < 2 ^ 32 := by
  obtain ⟨i, m, hslots, hbehind, -⟩ := used_behind hk
  have hsize := d.size_eq
  have hsmall := d.small
  rw [hbehind]
  simp only [diskEntrySize] at *
  omega

lemma easyfsVfsReaddir_behind (hk : k ≤ (d.used d.slots 0).length) :
    easyfsVfsReaddir d found (ofNat 64 (d.behind k)) =
      match (d.used d.slots 0).drop k with
      | [] => .done
      | (off, de) :: _ => if found then .entry de (ofNat 64 off) else .failed (-1) := by
  obtain ⟨i, m, hslots, hbehind, hused⟩ := used_behind hk
  have hlt := behind_le_size hk
  have hsize := d.size_eq
  have hoff : (ofNat 64 (d.behind k)).toNat % 2 ^ 32 = diskEntrySize * i := by
    rw [toNat_ofNat, mod_eq_of_lt (show d.behind k < 2 ^ 64 by omega), mod_eq_of_lt hlt, hbehind]
  have hfuel : m ≤ d.size := by
    rw [hsize]
    simp only [diskEntrySize]
    omega
  rw [easyfsVfsReaddir, hoff, easyfsScan_eq hslots hfuel, hused]

def directory (d : EasyfsDir) : Directory where
  entries := (d.used d.slots 0).map Prod.snd
  readdir := easyfsVfsReaddir d
  looksUp := true
  position := fun k => BitVec.ofNat 64 (d.behind k)
  start := rfl
  increasing := by
    intro i j hij hj
    rw [length_map] at hj
    have hlt := behind_lt hij hj
    have hsmall := behind_le_size hj
    rw [BitVec.lt_def, BitVec.toNat_ofNat, BitVec.toNat_ofNat, Nat.mod_eq_of_lt (by omega),
      Nat.mod_eq_of_lt (by omega)]
    exact hlt
  readdir_lt := by
    intro found k h
    rw [length_map] at h
    rw [easyfsVfsReaddir_behind (Nat.le_of_lt h), drop_eq_getElem_cons h, behind_succ h]
    cases found <;> simp
  readdir_end := by
    intro found
    rw [length_map, easyfsVfsReaddir_behind (Nat.le_refl _), drop_length]

end EasyfsDir

/-! ## One call -/

lemma reclen_bounds (de : Dirent) : 19 + de.name.length + 1 ≤ reclen de ∧ reclen de % 8 = 0 := by
  unfold reclen alignUp
  omega

lemma length_littleEndian (n k : Nat) : (littleEndian n k).length = k := by
  induction k generalizing n with
  | zero => rfl
  | succ k ih => rw [littleEndian, length_cons, ih]

lemma length_recordBytes (de : Dirent) (off : Word) : (recordBytes de off).length = reclen de := by
  have := reclen_bounds de
  simp only [recordBytes, length_append, length_littleEndian, length_replicate,
    length_cons, length_nil]
  omega

/-- Where the record of entry `i` starts when those before it are stored one after the other. -/
def recordStart (rest : List Dirent) (i : Nat) : Nat := ((rest.take i).map reclen).sum

@[simp] lemma recordStart_zero (rest : List Dirent) :
    recordStart rest 0 = 0 := by simp [recordStart]

@[simp] lemma recordStart_cons_succ (de : Dirent) (rest : List Dirent) (i : Nat) :
    recordStart (de :: rest) (i + 1) = reclen de + recordStart rest i := by
  simp [recordStart]

/-- Every entry of `rest` that the call gets to has memory for its record, and every record that
fits can be copied. The call gets to an entry if the records before it fit and no inode lookup fails
up to it; `j` entries and `used` bytes are done. -/
def UndisturbedFrom (looksUp : Bool) (a : Call) (j used : Nat) (rest : List Dirent) : Prop :=
  ∀ i de, rest[i]? = some de → (looksUp = true → ∀ l ≤ i, a.found (j + l) = true) →
    ((used + recordStart rest i : Nat) : Int) ≤ a.count →
    a.mem (j + i) = true ∧ (((used + recordStart rest (i + 1) : Nat) : Int) ≤ a.count →
      Writable a.writable (a.buf + BitVec.ofNat 64 (used + recordStart rest i)) (reclen de))

/-- The call is not disturbed at any of the entries from the `k`-th on. -/
def Undisturbed (d : Directory) (a : Call) (k : Nat) : Prop :=
  UndisturbedFrom d.looksUp a 0 0 (d.entries.drop k)

lemma undisturbedFrom_nil (looksUp : Bool) (a : Call) (j used : Nat) :
    UndisturbedFrom looksUp a j used [] := by
  intro i de h
  simp at h

variable {a : Call}

lemma undisturbedFrom_cons {looksUp : Bool} {j used : Nat} {de : Dirent}
    {rest : List Dirent} (hused : (used : Int) ≤ a.count) :
    UndisturbedFrom looksUp a j used (de :: rest) ↔
      ((looksUp = true → a.found j = true) → a.mem j = true ∧
        (((used + reclen de : Nat) : Int) ≤ a.count →
          Writable a.writable (a.buf + ofNat 64 used) (reclen de) ∧
            UndisturbedFrom looksUp a (j + 1) (used + reclen de) rest)) := by
  constructor
  · intro h hfound
    have hhead := h 0 de rfl (fun hl l hle => by
      obtain rfl : l = 0 := le_zero.mp hle
      exact hfound hl) (by simpa using hused)
    refine ⟨hhead.1, fun hfit => ⟨by simpa using hhead.2 (by simpa using hfit), ?_⟩⟩
    intro i de' hi hfound' hfit'
    have htail := h (i + 1) de' hi (fun hl l hle => by
      cases l with
      | zero => exact hfound hl
      | succ l =>
        rw [show j + (l + 1) = j + 1 + l by omega]
        exact hfound' hl l (by omega))
      (by simpa [add_assoc] using hfit')
    simpa [add_assoc, add_comm, add_left_comm] using htail
  · intro h i de' hi hfound hfit
    have hhead := h fun hl => hfound hl 0 (zero_le i)
    cases i with
    | zero =>
      obtain rfl : de = de' := by simpa using hi
      exact ⟨hhead.1, fun hfit' => by simpa using (hhead.2 (by simpa using hfit')).1⟩
    | succ i =>
      rw [recordStart_cons_succ] at hfit
      have htail := (hhead.2 (by omega)).2 i de' hi (fun hl l hle => by
        rw [show j + 1 + l = j + (l + 1) by omega]
        exact hfound hl (l + 1) (by omega))
        (by rwa [add_assoc])
      simpa [add_assoc, add_comm, add_left_comm] using htail

/-- The record is complete, aligned and inside the buffer. -/
structure Complete (a : Call) (x : Delivered) : Prop where
  bytes : ∃ off, x.bytes = recordBytes x.entry off
  length : x.bytes.length = reclen x.entry
  aligned : x.start % 8 = 0
  inside : ((x.start + x.bytes.length : Nat) : Int) ≤ a.count

/-- What the loop does from entry `k` on, with `j` entries and `used` bytes done: it delivers the
next entries, one record behind the other, and loses the entry after them if it is disturbed. -/
structure LoopPost (d : Directory) (a : Call) (k j used : Nat) (r : Result) : Prop where
  entries : r.delivered.map (·.entry) = (d.entries.drop k).take r.delivered.length
  complete : ∀ x ∈ r.delivered, Complete a x
  starts : ∀ i x, r.delivered[i]? = some x → x.start = used + recordStart (d.entries.drop k) i
  ret : r.ret = (used + recordStart (d.entries.drop k) r.delivered.length : Nat) ∨
    (r.ret < 0 ∧ used = 0 ∧ r.delivered = [])
  offset : ∃ lost, r.offset = d.position (k + r.delivered.length + lost) ∧
    k + r.delivered.length + lost ≤ d.entries.length ∧
    (lost = 0 ↔ UndisturbedFrom d.looksUp a j used (d.entries.drop k))

section Loop

variable {d : Directory} {a : Call} {k j used : Nat}

lemma LoopPost.stop {ret : Int} (lost : Nat) (hret : ret = (used : Nat) ∨ (ret < 0 ∧ used = 0))
    (hlen : k + lost ≤ d.entries.length)
    (hlost : lost = 0 ↔ UndisturbedFrom d.looksUp a j used (d.entries.drop k)) :
    LoopPost d a k j used ⟨ret, d.position (k + lost), []⟩ := by
  refine ⟨rfl, by simp, by simp, ?_, lost, rfl, hlen, hlost⟩
  obtain h | ⟨h, h'⟩ := hret
  · exact .inl (by simpa using h)
  · exact .inr ⟨h, h', rfl⟩

variable {r : Result}

lemma LoopPost.cons (hk : k < d.entries.length)
    (hde : d.entries.get ⟨k, hk⟩ = de) (haligned : used % 8 = 0)
    (hfit : ((used + reclen de : Nat) : Int) ≤ a.count)
    (h : LoopPost d a (k + 1) (j + 1) (used + reclen de) r)
    (hsame : UndisturbedFrom d.looksUp a j used (d.entries.drop k) ↔
      UndisturbedFrom d.looksUp a (j + 1) (used + reclen de) (d.entries.drop (k + 1))) :
    LoopPost d a k j used
      { r with delivered := ⟨used, de, recordBytes de off⟩ :: r.delivered } := by
  have hdrop : d.entries.drop k = de :: d.entries.drop (k + 1) := by
    rw [drop_eq_getElem_cons hk, ← hde]
    rfl
  obtain ⟨lost, hoff, hlen, hlost⟩ := h.offset
  refine ⟨?_, ?_, ?_, ?_, lost, ?_, ?_, ?_⟩
  · rw [hdrop, map_cons, length_cons, take_succ_cons, h.entries]
  · intro x hx
    obtain rfl | hx := mem_cons.mp hx
    · exact ⟨⟨off, rfl⟩, length_recordBytes de off, haligned, by rwa [length_recordBytes]⟩
    · exact h.complete x hx
  · intro i x hx
    rw [hdrop]
    cases i with
    | zero =>
      cases hx
      simp
    | succ i =>
      rw [recordStart_cons_succ, h.starts i x hx, add_assoc]
  · obtain hret | ⟨-, hzero, -⟩ := h.ret
    · refine .inl ?_
      rw [hdrop, length_cons, recordStart_cons_succ, ← add_assoc]
      exact hret
    · have := reclen_bounds de
      omega
  · rw [length_cons, ← add_assoc, add_right_comm k]
    exact hoff
  · rw [length_cons]
    omega
  · rw [hsame]
    exact hlost

lemma getdentsLoop_post {fuel : Nat} (hk : k ≤ d.entries.length) (haligned : used % 8 = 0)
    (hused : (used : Int) ≤ a.count) (hfuel : a.count - used < fuel) :
    LoopPost d a k j used (getdentsLoop d a fuel j used (d.position k)) := by
  induction fuel generalizing k j used with
  | zero => omega
  | succ fuel ih =>
    obtain rfl | hlt := eq_or_lt_of_le hk
    · have hnil := undisturbedFrom_nil d.looksUp a j used
      rw [← drop_length (l := d.entries)] at hnil
      rw [getdentsLoop, d.readdir_end]
      exact .stop 0 (.inl rfl) (le_refl _) (iff_of_true rfl hnil)
    · obtain ⟨de, hde⟩ : ∃ de, d.entries.get ⟨k, hlt⟩ = de := ⟨_, rfl⟩
      have hdrop : d.entries.drop k = de :: d.entries.drop (k + 1) := by
        rw [drop_eq_getElem_cons hlt, ← hde]
        rfl
      have hiff : UndisturbedFrom d.looksUp a j used (d.entries.drop k) ↔ _ :=
        hdrop ▸ undisturbedFrom_cons hused
      rw [getdentsLoop, d.readdir_lt (a.found j) k hlt, hde]
      by_cases hfail : (d.looksUp && !a.found j) = true
      · -- the inode of the entry cannot be read: the call stops before it
        rw [if_pos hfail]
        rw [Bool.and_eq_true, Bool.not_eq_true'] at hfail
        refine .stop 0 (failed_cases (· < 0) used (by decide)) hk (iff_of_true rfl (hiff.mpr ?_))
        intro hfound
        rw [hfound hfail.1] at hfail
        cases hfail.2
      · have hfound : d.looksUp = true → a.found j = true := by
          intro hl
          simpa [hl] using hfail
        rw [if_neg hfail]
        dsimp only
        by_cases hmem : a.mem j = false
        · rw [if_pos hmem]
          refine .stop 1 (failed_cases (· < 0) used (by decide)) hlt (iff_of_false (by simp) ?_)
          intro h
          rw [(hiff.mp h hfound).1] at hmem
          cases hmem
        rw [if_neg hmem]
        rw [Bool.not_eq_false] at hmem
        by_cases hfit : a.count < used + reclen de
        · rw [if_pos hfit]
          refine .stop 0 ?_ hk (iff_of_true rfl (hiff.mpr fun _ => ⟨hmem, fun hfit' => ?_⟩))
          · split
            · exact .inr ⟨by decide, ‹_›⟩
            · exact .inl rfl
          · push_cast at hfit'
            omega
        rw [if_neg hfit]
        have hfit' : ((used + reclen de : Nat) : Int) ≤ a.count := by
          push_cast
          omega
        by_cases hcopy : copyoutOk a.writable (a.buf + ofNat 64 used) (reclen de) = false
        · rw [if_pos hcopy]
          refine .stop 1 (failed_cases (· < 0) used (by decide)) hlt (iff_of_false (by simp) ?_)
          intro h
          rw [copyoutOk_iff.mpr ((hiff.mp h hfound).2 hfit').1] at hcopy
          cases hcopy
        rw [if_neg hcopy]
        rw [Bool.not_eq_false, copyoutOk_iff] at hcopy
        have hlarge := reclen_bounds de
        refine .cons hlt hde haligned hfit' (ih hlt (by omega) hfit' (by push_cast; omega)) ?_
        rw [hiff]
        exact ⟨fun h => ((h hfound).2 hfit').2, fun h _ => ⟨hmem, fun _ => ⟨hcopy, h⟩⟩⟩

/-- A call delivers the next entries in complete records, and it leaves the offset behind them
exactly if it is not disturbed. -/
lemma sysGetdents64_post (hk : k ≤ d.entries.length) :
    LoopPost d a k 0 0 (sysGetdents64 d a (d.position k)) := by
  unfold sysGetdents64
  split
  · rename_i hneg
    refine .stop 0 (.inr ⟨by decide, rfl⟩) hk (iff_of_true rfl ?_)
    intro i de _ _ hfit
    omega
  · exact getdentsLoop_post hk rfl (by omega) (by omega)

lemma LoopPost.offset_iff (h : LoopPost d a k j used r) :
    r.offset = d.position (k + r.delivered.length) ↔
      UndisturbedFrom d.looksUp a j used (d.entries.drop k) := by
  obtain ⟨lost, hoff, hlen, hlost⟩ := h.offset
  rw [hoff, ← hlost]
  constructor
  · intro heq
    refine Nat.eq_zero_of_not_pos fun hpos => ?_
    have hlt :=
      d.increasing _ _ (show k + r.delivered.length < k + r.delivered.length + lost by omega)
      hlen
    rw [heq] at hlt
    exact BitVec.lt_irrefl _ hlt
  · rintro rfl
    rfl

end Loop

/-! ## Sequences of calls -/

/-- The offset of the descriptor and what the calls have delivered. -/
structure State where
  offset : Word
  delivered : List Dirent

def State.init : State := ⟨0#64, []⟩

def next (d : Directory) (s : State) (a : Call) : State :=
  let r := sysGetdents64 d a s.offset
  ⟨r.offset, s.delivered ++ r.delivered.map (·.entry)⟩

def DirStep (d : Directory) (s : State) (a : Call) (t : State) : Prop := t = next d s a

/-- The call is not disturbed at an entry behind the current offset. -/
def CarefulDirStep (d : Directory) (s : State) (a : Call) (t : State) : Prop :=
  (∀ k ≤ d.entries.length, s.offset = d.position k → Undisturbed d a k) ∧ DirStep d s a t

/-- The first entries are delivered, and the offset is behind them. -/
def Delivering (d : Directory) (s : State) : Prop :=
  ∃ k ≤ d.entries.length, s.offset = d.position k ∧ s.delivered = d.entries.take k

lemma Delivering.step (h : Delivering d s) (hstep : CarefulDirStep d s a t) : Delivering d t := by
  obtain ⟨k, hk, hoff, hdel⟩ := h
  obtain ⟨hcareful, rfl⟩ := hstep
  have hpost : LoopPost d a k 0 0 _ := sysGetdents64_post hk
  have hnext := hpost.offset_iff.mpr (hcareful k hk hoff)
  rw [← hoff] at hpost hnext
  have hlen : k + (sysGetdents64 d a s.offset).delivered.length ≤ d.entries.length := by
    obtain ⟨lost, -, hle, -⟩ := hpost.offset
    omega
  refine ⟨_, hlen, hnext, ?_⟩
  rw [take_add, ← hpost.entries, ← hdel]
  rfl

/-- In a sequence of calls of which none is disturbed, the records delivered are the first entries
of the directory in order. Every single call delivers, from the entry at the offset on, entries in
order in records that are complete, aligned and inside the buffer, and it leaves the offset behind
the last of them exactly if it is not disturbed. -/
theorem getdents_in_order (d : Directory) :
    (∀ calls s, Run (CarefulDirStep d) State.init calls s → s.delivered <+: d.entries) ∧
      ∀ k ≤ d.entries.length, ∀ a,
        (sysGetdents64 d a (d.position k)).delivered.map (·.entry) <+: d.entries.drop k ∧
        (∀ x ∈ (sysGetdents64 d a (d.position k)).delivered, Complete a x) ∧
        ((sysGetdents64 d a (d.position k)).offset =
            d.position (k + (sysGetdents64 d a (d.position k)).delivered.length) ↔
          Undisturbed d a k) := by
  refine ⟨fun calls s hrun => ?_, fun k hk a => ?_⟩
  · have hstart : Delivering d State.init := ⟨0, zero_le _, d.start.symm, rfl⟩
    obtain ⟨k, -, -, hdel⟩ := hrun.invariant (Delivering d)
      (fun _ _ _ h hstep => h.step hstep) hstart
    rw [hdel]
    exact take_prefix k d.entries
  · have hpost : LoopPost d a k 0 0 _ := sysGetdents64_post hk
    refine ⟨?_, hpost.complete, hpost.offset_iff⟩
    rw [hpost.entries]
    exact take_prefix _ _

/-- A directory of tmpfs with the files `a` and `b`. -/
def twoFiles : TmpfsDir where
  children := [⟨[0x61#8], 2#32, .file, by decide⟩, ⟨[0x62#8], 3#32, .file, by decide⟩]
  few := by decide

/-- A call with a buffer of 4096 bytes that can be written or not. -/
def pageCall (writable : Bool) : Call where
  buf := 0x10000#64
  count := 4096
  writable := fun _ => writable
  mem := fun _ => true
  found := fun _ => true

lemma undisturbed_pageCall (d : Directory) (k : Nat) : Undisturbed d (pageCall true) k :=
  fun _ _ _ _ _ => ⟨rfl, fun _ _ _ => rfl⟩

/-- One call with a good buffer delivers both entries. -/
theorem getdents_in_order_two :
    ∃ s, Run (CarefulDirStep twoFiles.directory) State.init [pageCall true] s ∧
      s.delivered = twoFiles.children ∧ s.delivered <+: twoFiles.directory.entries := by
  have hrun : Run (CarefulDirStep twoFiles.directory) State.init [pageCall true]
      (next twoFiles.directory State.init (pageCall true)) :=
    .cons ⟨fun k _ _ => undisturbed_pageCall _ k, rfl⟩ (.nil _)
  exact ⟨_, hrun, by decide +kernel, (getdents_in_order twoFiles.directory).1 _ _ hrun⟩

/-- A call with a buffer that is not mapped fails; the next one delivers only the second entry. -/
theorem getdents_skips :
    ∃ s, Run (DirStep twoFiles.directory) State.init [pageCall false, pageCall true] s ∧
      ¬s.delivered <+: twoFiles.directory.entries := by
  refine ⟨_, .cons rfl (.cons rfl (.nil _)), ?_⟩
  decide +kernel

end FrostVista.Kernel.Getdents
