import FrostVista.EasyFs.Steps

/-!
# EasyFS: directories

A directory is a file of entries of 32 bytes; an entry with the inode number 0 is free. This module
says what looking up a name, adding an entry and listing a directory do, in terms of the entries.
-/
namespace FrostVista.EasyFs

open Lib Lib.Comp Kernel Function List Option Bytes Nat Prog Volume Cache

open Namei (Name sameName)

/-! ## Entries -/

namespace Volume

/-- The 32 bytes of a directory at an offset. -/
def window (v : Volume) (d off : Nat) : List Byte := Bytes.copyOut (v.byte d) off 32

/-- How many whole entries from `off` on come before the first one that `stop` accepts. -/
def scan (v : Volume) (d : Nat) (stop : List Byte → Bool) (off : Nat) : Option Nat :=
  (List.range (((v.info d).size - off) / 32)).find? fun k => stop (v.window d (off + 32 * k))

/-- How many entries a directory has, with the free ones. -/
def slots (v : Volume) (d : Nat) : Nat := (v.info d).size / 32

def entry (v : Volume) (d k : Nat) : List Byte := v.window d (32 * k)

def inoAt (v : Volume) (d k : Nat) : Nat := entryIno (v.entry d k)

def nameAt (v : Volume) (d k : Nat) : Name := entryName (v.entry d k)

/-- The entry that `easyfs_vfs_lookup` finds. -/
def find (v : Volume) (d : Nat) (name : Name) : Option Nat :=
  v.scan d (fun de => entryIno de ≠ 0 ∧ sameName name (entryName de)) 0

/-- The entry that `dirlink` writes: the first free one, or one more. -/
def hole (v : Volume) (d : Nat) : Nat := (v.scan d (fun de => entryIno de = 0) 0).getD (v.slots d)

/-- The volume with a new entry. -/
def link (v : Volume) (d : Nat) (name : Name) (inum : Nat) : Volume :=
  v.put d { v.info d with size := max (v.info d).size (32 * v.hole d + 32) }
    (Bytes.copyIn (v.byte d) (32 * v.hole d) (makeEntry name inum))

/-- A directory of whole entries that name inodes in use. -/
structure Tidy (v : Volume) (d : Nat) : Prop where
  isDir : v.IsDir d
  whole : (v.info d).size % 32 = 0
  live : ∀ k < v.slots d, v.inoAt d k ≠ 0 → v.inoAt d k < tableSize ∧
    v.marked (v.inoAt d k) = true ∧ (v.info (v.inoAt d k)).type < 2 ^ 8

/-- The name cannot be looked up: it has no entry, or there is no slot for its inode. -/
def Missing (v : Volume) (w : Cache) (d : Nat) (name : Name) : Prop :=
  ∀ k, v.find d name = some k → ¬w.Room (v.inoAt d k)

variable {v : Volume} {d k off : Nat} {stop : List Byte → Bool} {name : Name}

lemma scan_of_lt (h : (v.info d).size < off + 32) : v.scan d stop off = none := by
  have hzero : ((v.info d).size - off) / 32 = 0 := by omega
  rw [scan, hzero]
  rfl

lemma scan_of_le (h : off + 32 ≤ (v.info d).size) : v.scan d stop off =
    if stop (v.window d off) then some 0 else (v.scan d stop (off + 32)).map (· + 1) := by
  have hsucc : ((v.info d).size - off) / 32 = ((v.info d).size - (off + 32)) / 32 + 1 := by omega
  have hshift : ∀ k, off + 32 * (k + 1) = off + 32 + 32 * k := fun k => by omega
  rw [scan, hsucc, range_succ_eq_map, find?_cons, find?_map]
  simp only [comp_def, succ_eq_add_one, hshift, mul_zero, add_zero]
  cases stop (v.window d off) <;> rfl

lemma scan_eq_some (h : v.scan d stop off = some k) :
    off + 32 * k + 32 ≤ (v.info d).size ∧ stop (v.window d (off + 32 * k)) = true := by
  have hmem := mem_of_find?_eq_some h
  rw [mem_range] at hmem
  have hstop := find?_some h
  exact ⟨by omega, hstop⟩

lemma scan_eq_none : v.scan d stop off = none ↔
    ∀ k, off + 32 * k + 32 ≤ (v.info d).size → stop (v.window d (off + 32 * k)) = false := by
  rw [scan, find?_eq_none]
  refine ⟨fun h k hk => ?_, fun h k hk => ?_⟩
  · have hlt : k < ((v.info d).size - off) / 32 := by omega
    simpa using h k (mem_range.mpr hlt)
  · rw [mem_range] at hk
    simpa using h k (by omega)

lemma find_eq_some (h : v.find d name = some k) :
    k < v.slots d ∧ v.inoAt d k ≠ 0 ∧ sameName name (v.nameAt d k) = true := by
  obtain ⟨hk, hstop⟩ := scan_eq_some h
  rw [zero_add] at hk hstop
  rw [decide_eq_true_eq] at hstop
  exact ⟨by unfold slots; omega, hstop.1, hstop.2⟩

lemma find_eq_none : v.find d name = none ↔
    ∀ k < v.slots d, v.inoAt d k ≠ 0 → sameName name (v.nameAt d k) = false := by
  rw [find, scan_eq_none]
  simp only [zero_add, decide_eq_false_iff_not, not_and, Bool.not_eq_true]
  refine forall_congr' fun k => imp_congr ?_ Iff.rfl
  unfold slots
  omega

lemma hole_le : v.hole d ≤ v.slots d := by
  unfold hole
  cases h : v.scan d (fun de => entryIno de = 0) 0 with
  | none => exact le_rfl
  | some k =>
    have hk := (scan_eq_some h).1
    simp only [getD_some, slots]
    omega

lemma inoAt_hole (h : v.hole d < v.slots d) : v.inoAt d (v.hole d) = 0 := by
  unfold hole at h ⊢
  cases hscan : v.scan d (fun de => entryIno de = 0) 0 with
  | none =>
    rw [hscan] at h
    exact absurd h (lt_irrefl _)
  | some k =>
    have hstop := (scan_eq_some hscan).2
    rw [decide_eq_true_eq, zero_add] at hstop
    exact hstop

end Volume

lemma length_makeEntry (name : Name) (inum : Nat) : (makeEntry name inum).length = 32 := by
  have hle : (name.take Namei.dirsiz).length ≤ 24 := length_take_le ..
  simp only [makeEntry, length_append, length_copyOut, length_replicate]
  omega

lemma entryIno_append (inum : Nat) (rest : List Byte) :
    entryIno ((store (fun _ => 0) 0 4 inum).copyOut 0 4 ++ rest) = inum % 2 ^ 32 := by
  refine Eq.trans ?_ (@Bytes.load_store_same (fun _ => 0) 0 4 inum)
  refine load_congr fun i _ hi => ?_
  have hlen : i < (copyOut (store (fun _ => 0) 0 4 inum) 0 4).length := by
    rw [length_copyOut]
    omega
  rw [getD_append _ _ _ _ hlen, getD_eq_getElem _ _ hlen, getElem_copyOut, zero_add]

lemma entryName_append (hl : l.length = 4) (h : 0 ∉ name) (k : Nat) :
    entryName (l ++ (name ++ replicate k 0)) = name := by
  have hne : ∀ x ∈ name, (x ≠ 0 : Bool) = true := by
    intro x hx
    rw [decide_eq_true_eq]
    rintro rfl
    exact h hx
  unfold entryName
  rw [drop_append_of_le_length hl.ge, drop_eq_nil_of_le hl.le, nil_append,
    takeWhile_append_of_pos hne, takeWhile_replicate]
  simp

lemma entryIno_makeEntry (name : Name) (inum : Nat) :
    entryIno (makeEntry name inum) = inum % 2 ^ 32 :=
  entryIno_append ..

lemma entryName_makeEntry (h : 0 ∉ name) (inum : Nat) :
    entryName (makeEntry name inum) = name.take Namei.dirsiz :=
  entryName_append length_copyOut (fun hmem => h (mem_of_mem_take hmem)) _

namespace Volume

variable {v : Volume} {d k : Nat} {name : Name} {inum : Nat}

lemma entry_link_hole : (v.link d name inum).entry d (v.hole d) = makeEntry name inum := by
  unfold entry window link
  rw [put_byte_self]
  exact copyOut_copyIn_self (length_makeEntry name inum)

lemma entry_link_of_ne (h : k ≠ v.hole d) : (v.link d name inum).entry d k = v.entry d k := by
  unfold entry window link
  rw [put_byte_self]
  exact copyOut_copyIn_of_disjoint (by rw [length_makeEntry]; omega)

lemma slots_link (h : (v.info d).size % 32 = 0) :
    (v.link d name inum).slots d = max (v.slots d) (v.hole d + 1) := by
  unfold slots link
  rw [put_info_self]
  dsimp only
  omega

lemma whole_link (h : (v.info d).size % 32 = 0) : ((v.link d name inum).info d).size % 32 = 0 := by
  unfold link
  rw [put_info_self]
  dsimp only
  omega

@[simp] lemma marked_link : (v.link d name inum).marked = v.marked := rfl

@[simp] lemma type_link (c : Nat) : ((v.link d name inum).info c).type = (v.info c).type := by
  by_cases hc : c = d
  · rw [hc, link, put_info_self]
  · rw [link, put_info_of_ne _ _ _ hc]

end Volume

/-! ## Looking through a directory -/

variable {X : Set SlotId} {s s' : Fs} {E E' : Tops} {v : Volume} {d m k off : Nat}
  {ip : SlotId} {t : Tid}
  {name : Name} {stop : List Byte → Bool} {error : Panic}

lemma Sound.run_readCovered {size : Nat} (h : Sound X s E v) (hX : ip ∉ X) (hip : s.cache.Has ip d)
    (hle : off ≤ (v.info d).size) (hend : off + size < 2 ^ 32)
    (hcov : Covered E s.blk d off (min size ((v.info d).size - off))) :
    (runAs t (readInode ip off size)).run s =
      .ok (some (copyOut (v.byte d) off (min size ((v.info d).size - off))), s) := by
  have hn := h.lt hX hip
  have hsize := h.size hX hip
  have htops := h.tops hX hip
  obtain ⟨r, s', hrun, E', blk', l, got, rfl, -, -, rfl, -, hcovered⟩ :=
    readInode_spec (t := t) h.disk.owned hn htops h.quiet (hsize ▸ hle) hend
  obtain ⟨rfl, rfl, rfl⟩ := hcovered (hsize ▸ hcov)
  rw [hrun, moved_self htops, funext (h.disk.byte d hn), hsize]

section
variable (h : Sound X s E v) (hX : ip ∉ X) (hip : s.cache.Has ip d) (hd : v.IsDir d)
include h hX hip hd

lemma Sound.run_readInode (hle : off ≤ (v.info d).size) (hend : off + 32 < 2 ^ 32) :
    (runAs t (readInode ip off 32)).run s =
      .ok (some (copyOut (v.byte d) off (min 32 ((v.info d).size - off))), s) :=
  h.run_readCovered hX hip hle hend fun o hlo hhi =>
    (h.disk.dir d (h.lt hX hip) hd).2 o (zero_le o) (by omega)

lemma Sound.run_readWindow (hle : off + 32 ≤ (v.info d).size) :
    (runAs t (readInode ip off 32)).run s = .ok (some (v.window d off), s) := by
  have hlt := (h.disk.info_lt (h.lt hX hip)).2.2
  rw [h.run_readInode hX hip hd (by omega) (by omega), min_eq_left (by omega)]
  rfl

lemma Sound.run_scanDir_short (hlt : off < (v.info d).size) (hshort : (v.info d).size < off + 32)
    (fuel : Nat) :
    (runAs t (scanDir ip error stop (fuel + 1) off)).run s = .error (.panic error) := by
  rw [scanDir, Prog.run_bind_ok run_load, h.size hX hip, if_pos hlt]
  by_cases hend : off + 32 < 2 ^ 32
  · rw [Prog.run_bind_ok (h.run_readInode hX hip hd hlt.le hend)]
    dsimp only
    rw [if_pos (by rw [length_copyOut]; omega), run_panic]
  · have hnone : (runAs t (readInode ip off 32)).run s = .ok (none, s) := by
      rw [readInode, Prog.run_bind_ok run_load, if_pos (.inr (by omega))]
      rfl
    rw [Prog.run_bind_ok hnone]
    exact run_panic _

lemma Sound.run_scanDir (error : Panic) (stop : List Byte → Bool) (off fuel : Nat)
    (hfuel : ((v.info d).size - off) / 32 < fuel) :
    (runAs t (scanDir ip error stop fuel off)).run s = match v.scan d stop off with
      | some k => .ok ((some (v.window d (off + 32 * k)), off + 32 * k), s)
      | none => if ((v.info d).size - off) % 32 = 0 then
          .ok ((none, off + 32 * (((v.info d).size - off) / 32)), s)
        else .error (.panic error) := by
  induction fuel generalizing off with
  | zero => exact absurd hfuel (not_lt_zero _)
  | succ fuel ih =>
    by_cases hwhole : off + 32 ≤ (v.info d).size
    · rw [scanDir, Prog.run_bind_ok run_load, h.size hX hip, if_pos (by omega),
        Prog.run_bind_ok (h.run_readWindow hX hip hd hwhole), scan_of_le hwhole]
      dsimp only
      rw [if_neg (by simp [window])]
      cases stop (v.window d off) with
      | true => rfl
      | false =>
        have hdiv : ((v.info d).size - off) / 32 = ((v.info d).size - (off + 32)) / 32 + 1 := by
          omega
        have hmod : ((v.info d).size - off) % 32 = ((v.info d).size - (off + 32)) % 32 := by omega
        have hshift : ∀ k, off + 32 + 32 * k = off + 32 * (k + 1) := fun k => by omega
        have hrest := ih (off + 32) (by omega)
        rw [if_neg Bool.false_ne_true, if_neg Bool.false_ne_true, hrest, hdiv, hmod]
        cases v.scan d stop (off + 32) with
        | none => simp only [map_none, hshift]
        | some k => simp only [map_some, hshift]
    · rw [scan_of_lt (by omega)]
      dsimp only
      by_cases hlt : off < (v.info d).size
      · rw [h.run_scanDir_short hX hip hd hlt (by omega), if_neg (by omega)]
      · have hzero : (v.info d).size - off = 0 := by omega
        rw [scanDir, Prog.run_bind_ok run_load, h.size hX hip, if_neg hlt, hzero]
        rfl

end

lemma Sound.slots_lt (h : Sound X s E v) (hd : d < tableSize) :
    ((v.info d).size - off) / 32 < maxEntries := by
  have hlt := (h.disk.info_lt hd).2.2
  simp only [maxEntries]
  omega

/-! ## Looking up a name -/

lemma run_readDiskInode (h : s.Quiet) (n : Nat) :
    (runAs t (readDiskInode n)).run s = .ok (onDisk s.blk n, s) := by
  rw [readDiskInode, Prog.run_bind_ok (run_bread (h _)), Prog.run_bind_ok run_brelse,
    setBusy_setBusy (h _)]
  rfl

/-- `easyfs_get_vfs_inode` takes a reference and loads the inode; the lock is free afterwards. -/
lemma Sound.getVfsInode (h : Sound ∅ s E v) (hpos : m ≠ 0) (hm : m < tableSize)
    (htype : (v.info m).type < 2 ^ 8) :
    (¬s.cache.Room m ∧ (runAs t (EasyFs.getVfsInode m)).run s = .ok (none, s)) ∨
      s.cache.Room m ∧ ∃ i s', (runAs t (EasyFs.getVfsInode m)).run s = .ok (some i, s') ∧
        s.cache.Fits i m ∧ s'.cache = (s.cache.take i m).own i none ∧ s'.blk = s.blk ∧
        ∃ E', Sound ∅ s' E' v := by
  unfold EasyFs.getVfsInode fillVfsInode
  rw [Prog.run_bind_ok (run_readDiskInode h.quiet m)]
  rcases h.take (t := t) m with ⟨hroom, hget⟩ | ⟨hroom, i, s1, hget, h1, hfits, hcache, hblk⟩
  · exact .inl ⟨hroom, by rw [Prog.run_bind_ok hget]; rfl⟩
  · refine .inr ⟨hroom, i, ?_⟩
    have hi : s1.cache.Has i m := hcache ▸ has_take
    have hinfo := h.disk.info m hm
    let e : Slot := { s1.slot i with
      dev := 0, ino := m, nlinks := (onDisk s.blk m).nlinks, type := (onDisk s.blk m).type % 2 ^ 8
      size := (onDisk s.blk m).size, blocks := (onDisk s.blk m).blocks, owner := none }
    have htype' : (onDisk s.blk m).type % 2 ^ 8 = (onDisk s.blk m).type :=
      mod_eq_of_lt ((congrArg Info.type hinfo).trans_lt htype)
    have hload := h1.load (e := e) hi.dev (hi.ino ▸ hpos) (hi.ino ▸ hm) hi.id.symm rfl
      (by rw [hi.ino, hblk]; exact htype') (by rw [hi.ino, hblk]) (by rw [hi.ino, hblk])
      (by rw [hi.ino, hblk]; rfl)
    refine ⟨s1.setSlot i e, ?_, hfits, ?_, hblk, _, by simpa using hload⟩
    · rw [Prog.run_bind_ok hget]
      rfl
    · exact (cache_setSlot (e := e) hi.id.symm rfl).trans (by rw [hcache])

/-- `easyfs_vfs_lookup` finds the first entry with the name. -/
lemma Sound.lookup (h : Sound ∅ s E v) (hip : s.cache.Has ip d) (hd : v.Tidy d) (name : Name) :
    Total (runAs t (EasyFs.lookup ip name)) s fun r s' => s'.blk = s.blk ∧
      ((v.Missing s.cache d name ∧ r = none ∧ s' = s) ∨
        ∃ k i, v.find d name = some k ∧ s.cache.Room (v.inoAt d k) ∧ r = some (i, 32 * k) ∧
          s.cache.Fits i (v.inoAt d k) ∧ s'.cache = (s.cache.take i (v.inoAt d k)).own i none ∧
          ∃ E', Sound ∅ s' E' v) := by
  have hX : ip ∉ (∅ : Set SlotId) := Set.notMem_empty ip
  have hscan := h.run_scanDir (t := t) hX hip hd.isDir .readError
    (fun de => entryIno de ≠ 0 ∧ sameName name (entryName de)) 0 maxEntries
    (h.slots_lt (h.lt hX hip))
  unfold EasyFs.lookup
  refine total_bind_ok run_load ?_
  rw [if_neg (by rw [h.type hX hip, hd.isDir.2]; exact fun hne => hne rfl)]
  change _ = match v.find d name with | some k => _ | none => _ at hscan
  cases hfind : v.find d name with
  | none =>
    rw [hfind] at hscan
    dsimp only at hscan
    rw [Nat.sub_zero, if_pos hd.whole] at hscan
    refine total_bind_ok hscan ⟨none, s, rfl, rfl, .inl ⟨fun k hk => ?_, rfl, rfl⟩⟩
    rw [hfind] at hk
    cases hk
  | some k =>
    rw [hfind] at hscan
    dsimp only at hscan
    rw [zero_add] at hscan
    obtain ⟨hk, hpos, -⟩ := find_eq_some hfind
    obtain ⟨hlt, -, htype⟩ := hd.live k hk hpos
    refine total_bind_ok hscan ?_
    rcases h.getVfsInode (t := t) hpos hlt htype with
      ⟨hroom, hget⟩ | ⟨hroom, i, s', hget, hfits, hcache, hblk, E', h'⟩
    · refine total_bind_ok hget ⟨none, s, rfl, rfl, .inl ⟨fun k' hk' => ?_, rfl, rfl⟩⟩
      rw [hfind, some.injEq] at hk'
      exact hk' ▸ hroom
    · exact total_bind_ok hget
        ⟨_, s', rfl, hblk, .inr ⟨k, i, rfl, hroom, rfl, hfits, hcache, E', h'⟩⟩

lemma Sound.run_lookup_missing (h : Sound ∅ s E v) (hip : s.cache.Has ip d) (hd : v.Tidy d)
    (hmissing : v.Missing s.cache d name) : (runAs t (EasyFs.lookup ip name)).run s =
      .ok (none, s) := by
  obtain ⟨r, s', hrun, -, ⟨-, rfl, rfl⟩ | ⟨k, i, hfind, hroom, -⟩⟩ := h.lookup (t := t) hip hd name
  · exact hrun
  · exact absurd hroom (hmissing k hfind)

/-! ## Adding an entry -/

/-- There is room for one more entry: below the largest size, and with enough free blocks. -/
def Linkable (v : Volume) (s : Fs) (d : Nat) : Prop :=
  32 * v.hole d + 32 < 2 ^ 32 ∧ s.lacks d (32 * v.hole d) ≤ freeCount s.blk

lemma Sound.dirlink (h : Sound ∅ s E v) (hip : s.cache.Has ip d) (hd : v.Tidy d)
    (hmissing : v.Missing s.cache d name) (inum : Nat) :
    Total (runAs t (EasyFs.dirlink ip name inum)) s fun r s' => s'.cache = s.cache ∧
      SameTrees v d s s' ∧
      ((Linkable v s d ∧ r = true ∧
          freeCount s.blk = freeCount s'.blk + s.lacks d (32 * v.hole d) ∧
          ∃ E', Sound ∅ s' E' (v.link d name inum)) ∨
        (¬Linkable v s d ∧ r = false ∧ ∃ E', Sound ∅ s' E' v)) := by
  have hX : ip ∉ (∅ : Set SlotId) := Set.notMem_empty ip
  have hlt := (h.disk.info_lt (h.lt hX hip)).2.2
  have hscan := h.run_scanDir (t := t) hX hip hd.isDir .dirlinkRead
    (fun de => entryIno de = 0) 0 maxEntries
    (h.slots_lt (h.lt hX hip))
  have hoff :
    ∃ de, (runAs t (scanDir ip .dirlinkRead (fun de => entryIno de = 0) maxEntries 0)).run s =
      .ok ((de, 32 * v.hole d), s) := by
    unfold hole
    cases hcase : v.scan d (fun de => entryIno de = 0) 0 with
    | none =>
      rw [hcase] at hscan
      dsimp only at hscan
      rw [Nat.sub_zero, if_pos hd.whole, Nat.zero_add] at hscan
      exact ⟨_, hscan⟩
    | some k =>
      rw [hcase] at hscan
      dsimp only at hscan
      rw [zero_add] at hscan
      exact ⟨_, hscan⟩
  obtain ⟨de, hscan⟩ := hoff
  have hle : 32 * v.hole d ≤ (v.info d).size := by
    have hhole := hole_le (v := v) (d := d)
    unfold slots at hhole
    omega
  unfold EasyFs.dirlink
  refine total_bind_ok (h.run_lookup_missing hip hd hmissing) ?_
  refine total_bind_ok hscan ?_
  dsimp only
  by_cases hend : 32 * v.hole d + 32 < 2 ^ 32
  · refine total_bind (h.writeEntry hX hip hd.isDir (length_makeEntry name inum) hle hend) ?_
    rintro r s' ⟨hcache, htrees, -, ⟨hroom, rfl, hfree, E', h'⟩ | ⟨hfull, rfl, E', h'⟩⟩
    · exact ⟨true, s', rfl, hcache, htrees, .inl ⟨⟨hend, hroom⟩, rfl, hfree, E', h'⟩⟩
    · exact ⟨false, s', rfl, hcache, htrees, .inr ⟨fun hl => absurd hl.2 (by omega), rfl, E', h'⟩⟩
  · have hnone : (runAs t (writeInode ip (32 * v.hole d) (makeEntry name inum))).run s =
      .ok (none, s) := by
      rw [writeInode, if_pos (by rw [length_makeEntry]; omega)]
      rfl
    exact total_bind_ok hnone
      ⟨false, s, rfl, rfl, .of_blk rfl, .inr ⟨fun hl => hend hl.1, rfl, E, h⟩⟩

/-! ## Listing a directory -/

/-- No lock is held. -/
def Cache.Idle (w : Cache) : Prop := ∀ i, w.owners i = none

lemma Cache.Idle.kept_load {w : Cache} {i : SlotId} (h : w.Idle) (hfits : w.Fits i m)
    (o : Option Tid) :
    w.Kept (((((w.own ip o).take i m).own i none).drop i).own ip none) := by
  have hkept := kept_drop_take hfits
  refine ⟨hkept.counts, funext fun j => ?_, hkept.ids⟩
  simp only [own, drop, take, update_apply]
  split_ifs
  · exact (h j).symm
  · exact (h j).symm
  · rfl

lemma Fs.unlock_lock (h : (s.slot ip).owner = none) :
    (s.setSlot ip { s.slot ip with owner := some t }).setSlot ip
      { (s.setSlot ip { s.slot ip with owner := some t }).slot ip with owner := none } = s := by
  have hself : { s.slot ip with owner := none } = s.slot ip := by rw [← h]
  simp [Fs.setSlot, hself]

/-- `easyfs_vfs_readdir` finds no entry: it reads up to the end of the directory, and panics if the
end cuts off what it reads as the last entry. -/
lemma Sound.run_readdir_none (h : Sound ∅ s E v) (hip : s.cache.Has ip d) (hd : v.IsDir d)
    (hidle : s.cache.Idle) (hnone : v.scan d (fun de => entryIno de ≠ 0) off = none) :
    (runAs t (EasyFs.readdir ip off)).run s =
      if ((v.info d).size - off) % 32 = 0 then .ok (.done, s)
        else .error (.panic .dirlinkRead) := by
  have hX : ip ∉ (∅ : Set SlotId) := Set.notMem_empty ip
  have hcache : (s.setSlot ip { s.slot ip with owner := some t }).cache = s.cache.own ip (some t) :=
    cache_setSlot rfl rfl
  have hip1 : (s.setSlot ip { s.slot ip with owner := some t }).cache.Has ip d := hcache ▸ hip.own
  have hscan := (h.setOwner hip.dev (some t)).run_scanDir (t := t) hX hip1 hd .dirlinkRead
    (fun de => entryIno de ≠ 0) off maxEntries (h.slots_lt (h.lt hX hip))
  rw [hnone] at hscan
  dsimp only at hscan
  rw [EasyFs.readdir, Prog.run_bind_ok run_load,
    if_neg (by rw [h.type hX hip, hd.2]; exact fun hne => hne rfl),
    Prog.run_bind_ok (run_acquiresleep (hidle ip))]
  split_ifs at hscan ⊢ with hwhole
  · rw [Prog.run_bind_ok hscan, Prog.run_bind_ok run_releasesleep, Fs.unlock_lock (hidle ip)]
    rfl
  · exact Prog.run_bind_error hscan _

/-- `easyfs_vfs_readdir` from an offset at the start of an entry. -/
lemma Sound.readdir (h : Sound ∅ s E v) (hip : s.cache.Has ip d) (hd : v.Tidy d)
    (hidle : s.cache.Idle) (q : Nat) :
    Total (runAs t (EasyFs.readdir ip (32 * q))) s fun r s' => s.cache.Kept s'.cache ∧
      s'.blk = s.blk ∧
      (∃ E', Sound ∅ s' E' v) ∧ match v.scan d (fun de => entryIno de ≠ 0) (32 * q) with
        | none => r = .done
        | some k => (¬s.cache.Room (v.inoAt d (q + k)) ∧ r = .error) ∨
            (s.cache.Room (v.inoAt d (q + k)) ∧
              r = .entry (v.inoAt d (q + k)) (((v.entry d (q + k)).drop 4).take 27)
                (v.info (v.inoAt d (q + k))).type (32 * (q + k) + 32)) := by
  cases hcase : v.scan d (fun de => entryIno de ≠ 0) (32 * q) with
  | none =>
    have hrun := h.run_readdir_none (t := t) hip hd.isDir hidle hcase
    rw [if_pos (by have := hd.whole; omega)] at hrun
    exact ⟨.done, s, hrun, .refl _, rfl, ⟨E, h⟩, rfl⟩
  | some k =>
    have hX : ip ∉ (∅ : Set SlotId) := Set.notMem_empty ip
    unfold EasyFs.readdir
    refine total_bind_ok run_load ?_
    rw [if_neg (by rw [h.type hX hip, hd.isDir.2]; exact fun hne => hne rfl)]
    refine total_bind_ok (run_acquiresleep (hidle ip)) ?_
    have h1 := h.setOwner hip.dev (some t)
    have hcache1 : (s.setSlot ip { s.slot ip with owner := some t }).cache =
      s.cache.own ip (some t) :=
      cache_setSlot rfl rfl
    set s1 := s.setSlot ip { s.slot ip with owner := some t }
    have hip1 : s1.cache.Has ip d := hcache1 ▸ hip.own
    have hscan := h1.run_scanDir (t := t) hX hip1 hd.isDir .dirlinkRead
      (fun de => entryIno de ≠ 0) (32 * q)
      maxEntries (h.slots_lt (h.lt hX hip))
    rw [hcase] at hscan
    dsimp only at hscan
    obtain ⟨hk, hstop⟩ := scan_eq_some hcase
    have hsum : 32 * q + 32 * k = 32 * (q + k) := by omega
    rw [hsum] at hscan hk hstop
    change decide (v.inoAt d (q + k) ≠ 0) = true at hstop
    rw [decide_eq_true_eq] at hstop
    obtain ⟨hlt, -, htype⟩ := hd.live (q + k) (by unfold slots; omega) hstop
    have hroom_iff : s1.cache.Room (v.inoAt d (q + k)) ↔ s.cache.Room (v.inoAt d (q + k)) := by
      rw [hcache1]
      rfl
    refine total_bind_ok hscan ?_
    rcases h1.getVfsInode (t := t) hstop hlt htype with
      ⟨hroom, hget⟩ | ⟨hroom, i, s2, hget, hfits, hcache2, hblk2, E2, h2⟩
    · refine total_bind_ok hget ?_
      refine total_bind_ok run_releasesleep ⟨.error, _, rfl, ?_, rfl,
        ⟨E, h1.setOwner hip1.dev none⟩, .inl ⟨fun hr => hroom (hroom_iff.mpr hr), rfl⟩⟩
      rw [cache_setOwner, hcache1, own_own, own_self (hidle ip)]
      exact .refl _
    · refine total_bind_ok hget ?_
      have hi : s2.cache.Has i (v.inoAt d (q + k)) := hcache2 ▸ has_take.own
      refine total_bind_ok run_load ?_
      refine total_bind (h2.put hi) ?_
      rintro - s3 ⟨h3, hcache3, hblk3⟩
      have hip3 : s3.cache.Has ip d := by
        rw [hcache3, hcache2]
        exact ⟨(hip1.drop_take hfits).id, (hip1.drop_take hfits).ref⟩
      refine total_bind_ok run_releasesleep ⟨_, _, rfl, ?_, ?_, ⟨E2, h3.setOwner hip3.dev none⟩,
        .inr ⟨hroom_iff.mp hroom, ?_⟩⟩
      · rw [cache_setOwner, hcache3, hcache2, hcache1]
        rw [hcache1] at hfits
        exact hidle.kept_load hfits _
      · exact hblk3.trans hblk2
      · rw [h2.type (Set.notMem_empty i) hi]
        rfl

end FrostVista.EasyFs
