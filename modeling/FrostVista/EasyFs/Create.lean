import FrostVista.EasyFs.Directory

/-!
# EasyFS: creating and unlinking

What `easyfs_vfs_create`, `easyfs_vfs_mkdir` and `easyfs_vfs_unlink` do when they run alone, with
each of their exits.
-/
namespace FrostVista.EasyFs

open Lib Lib.Comp Kernel Function Nat Set Volume Cache

open Namei (Name sameName)
open Prog (total_bind total_bind_ok)

/-- The disk and the cache spell the volume. -/
def Spells (s : Fs) (v : Volume) : Prop := ∃ E, Sound ∅ s E v

namespace Volume

/-- The number `n` is taken for an empty inode. -/
def newInode (v : Volume) (n type nlinks : Nat) : Volume :=
  (v.mark n true).put n ⟨type, nlinks, 0⟩ (v.byte n)

/-- The entry is cleared. -/
def clearEntry (v : Volume) (d k : Nat) : Volume :=
  v.put d (v.info d) (Bytes.copyIn (v.byte d) (32 * k) (List.replicate 32 0))

variable {v v' : Volume} {d k : Nat} {name : Name}

lemma entry_congr (hbyte : v'.byte d = v.byte d) (k : Nat) : v'.entry d k = v.entry d k := by
  rw [entry, entry, window, window, hbyte]

section
variable (hsize : (v'.info d).size = (v.info d).size) (hbyte : v'.byte d = v.byte d)
include hsize hbyte

lemma scan_congr (stop : List Byte → Bool) (off : Nat) :
    v'.scan d stop off = v.scan d stop off := by
  unfold scan window
  rw [hsize, hbyte]

lemma find_congr :
    v'.find d name = v.find d name := scan_congr hsize hbyte _ _

lemma hole_congr :
    v'.hole d = v.hole d := by
  unfold hole slots
  rw [scan_congr hsize hbyte, hsize]

end

lemma inoAt_congr (hbyte : v'.byte d = v.byte d) (k : Nat) : v'.inoAt d k = v.inoAt d k := by
  rw [inoAt, inoAt, entry_congr hbyte]

lemma Tidy.congr (h : v.Tidy d) (hmarked : ∀ m, v.marked m = true → v'.marked m = true)
    (hinfo : v'.info d = v.info d) (hbyte : v'.byte d = v.byte d)
    (htype : ∀ m < tableSize, v.marked m = true → (v.info m).type < 2 ^ 8 →
      (v'.info m).type < 2 ^ 8) :
    v'.Tidy d where
  isDir := ⟨hmarked d h.isDir.1, by rw [hinfo]; exact h.isDir.2⟩
  whole := by rw [hinfo]; exact h.whole
  live k hk hpos := by
    rw [inoAt_congr hbyte] at hpos ⊢
    unfold slots at hk
    rw [hinfo] at hk
    obtain ⟨hlt, hmark, ht⟩ := h.live k hk hpos
    exact ⟨hlt, hmarked _ hmark, htype _ hlt hmark ht⟩

variable {n type nlinks : Nat}

lemma marked_newInode (m : Nat) (h : v.marked m = true) :
    (v.newInode n type nlinks).marked m = true := by
  by_cases hmn : m = n
  · rw [hmn]
    exact mark_marked_self ..
  · exact (mark_marked_of_ne v true hmn).trans h

lemma ne_of_marked {m : Nat} (hm : v.marked m = true) (hn : v.marked n = false) : m ≠ n := by
  rintro rfl
  cases hm.symm.trans hn

lemma Tidy.newInode (h : v.Tidy d) (hn : v.marked n = false) :
    (v.newInode n type nlinks).Tidy d := by
  have hd := ne_of_marked h.isDir.1 hn
  refine h.congr marked_newInode ?_ ?_ fun m _ hm ht => ?_
  · exact put_info_of_ne _ _ _ hd
  · exact put_byte_of_ne _ _ _ hd
  · exact (congrArg Info.type (put_info_of_ne _ _ _ (ne_of_marked hm hn))).trans_lt ht

end Volume

variable {s s' : Fs} {E : Tops} {v : Volume} {d n type : Nat} {dir : SlotId} {t : Tid} {name : Name}

/-! ## A directory that is locked -/

variable {w : Cache} {R : Bool → Fs → Prop} {rest : FsProg Bool} {k : Nat}

lemma Volume.Missing.take {i : SlotId} (h : v.Missing w d name)
    (hne : ∀ k, v.find d name = some k → v.inoAt d k ≠ n) : v.Missing (w.take i n) d name := by
  rintro k hk (⟨j, hj⟩ | ⟨j, hj⟩)
  · by_cases hji : j = i
    · subst hji
      have heq : n = v.inoAt d k := by simpa [Cache.take] using hj
      exact hne k hk heq.symm
    · simp only [Cache.take, update_of_ne hji] at hj
      exact h k hk (.inl ⟨j, hj⟩)
  · by_cases hji : j = i
    · subst hji
      simp [Cache.take] at hj
    · simp only [Cache.take, update_of_ne hji] at hj
      exact h k hk (.inr ⟨j, hj⟩)

lemma Sound.lock (h : Sound ∅ s E v) (hi : s.cache.Has i n) (hfree : s.cache.owners i = none) :
    Total (runAs t (EasyFs.ilock i)) s fun _ s' => Sound ∅ s' (update E n (diskTops s.blk n)) v ∧
      s'.cache = s.cache.own i (some t) ∧ s'.blk = s.blk ∧ (s'.slot i).nlinks =
        (v.info n).nlinks := by
  have hX : i ∉ (∅ : Set SlotId) := notMem_empty i
  have hlock := h.ilock (t := t) hi (h.pos hX hi) (h.lt hX hi) hfree
  rwa [empty_sdiff] at hlock

lemma Sound.unlockDir (h : Sound ∅ s E v) (hdir : s.cache.Has dir d)
    (howner : s.cache.owners dir = some t) (b : Bool) : Total (runAs t (do
        EasyFs.iunlock dir
        pure b)) s fun r s' => r = b ∧ s'.cache = s.cache.own dir none ∧ s'.blk = s.blk ∧
      Sound ∅ s' E v := by
  refine total_bind (h.iunlock hdir howner) ?_
  rintro - s' ⟨h', hcache, hblk⟩
  exact ⟨b, s', rfl, rfl, hcache, hblk, h'⟩

lemma Sound.leave {i : SlotId} (h : Sound ∅ s E v) (hi : s.cache.Has i n)
    (hlocked : s.cache.owners i = some t) (hdir : s.cache.Has dir d)
    (howner : s.cache.owners dir = some t) (hne : dir ≠ i) (b : Bool) : Total (runAs t (do
        EasyFs.iunlockput i
        EasyFs.iunlock dir
        pure b)) s fun r s' => r = b ∧ s'.cache = ((s.cache.own i none).drop i).own dir none ∧
      s'.blk = s.blk ∧ Sound ∅ s' E v := by
  refine total_bind (h.iunlockput hi hlocked) ?_
  rintro - s1 ⟨h1, hcache1, hblk1⟩
  have howner1 : s1.cache.owners dir = some t := by
    rw [hcache1, drop_owners, own_owners_of_ne hne]
    exact howner
  refine (h1.unlockDir (hcache1 ▸ hdir.own.drop_of_ne hne) howner1 b).mono ?_
  rintro r s2 ⟨rfl, hcache2, hblk2, h2⟩
  exact ⟨rfl, by rw [hcache2, hcache1], hblk2.trans hblk1, h2⟩

section
variable (h : Sound ∅ s E v) (hdir : s.cache.Has dir d) (hd : v.Tidy d) (hidle : s.cache.Idle)
include h hdir hd hidle

/-- `create` and `mkdir` look for the name first; `rest` is done if it is not found. -/
lemma Sound.unlessFound (hself : ∀ k, v.find d name = some k → v.inoAt d k ≠ d)
    (hfound : ¬v.Missing s.cache d name → ∀ s', s.cache.Kept s'.cache →
      s'.blk = s.blk → Spells s' v → R false s')
    (hrest : v.Missing s.cache d name → ∀ s' E', Sound ∅ s' E' v →
      s'.cache = s.cache.own dir (some t) →
      s'.blk = s.blk → Total (runAs t rest) s' R) : Total (runAs t (do
        EasyFs.ilock dir
        match ← EasyFs.lookup dir name with
        | some (i, _) =>
          EasyFs.putInode i
          EasyFs.iunlock dir
          pure false
        | none => rest)) s R := by
  refine total_bind (h.lock hdir (hidle dir)) ?_
  rintro - s1 ⟨h1, hcache1, hblk1, -⟩
  have hdir1 : s1.cache.Has dir d := hcache1 ▸ hdir.own
  have hmissing : v.Missing s1.cache d name ↔ v.Missing s.cache d name := by
    rw [hcache1]
    rfl
  refine total_bind (h1.lookup hdir1 hd name) ?_
  rintro r s2 ⟨hblk2, ⟨hm, rfl, rfl⟩ | ⟨k, i, hk, hroom, rfl, hfits, hcache2, E2, h2⟩⟩
  · exact hrest (hmissing.mp hm) s2 _ h1 hcache1 hblk1
  · have hi : s2.cache.Has i (v.inoAt d k) := hcache2 ▸ has_take.own
    have hdir2 : s2.cache.Has dir d := hcache2 ▸ (hdir1.take hfits).own
    have hne : dir ≠ i := by
      rintro rfl
      exact hself k hk (hi.ino.symm.trans hdir2.ino)
    refine total_bind (h2.put hi) ?_
    rintro - s3 ⟨h3, hcache3, hblk3⟩
    have hdir3 : s3.cache.Has dir d := by
      rw [hcache3, hcache2]
      exact ⟨(hdir1.drop_take hfits).id, (hdir1.drop_take hfits).ref⟩
    have howner : s3.cache.owners dir = some t := by
      rw [hcache3, hcache2, drop_owners, own_owners_of_ne hne, take_owners, hcache1,
        own_owners_self]
    refine (h3.unlockDir hdir3 howner false).mono ?_
    rintro r s4 ⟨rfl, hcache4, hblk4, h4⟩
    rw [hcache1] at hfits hroom
    refine hfound (fun hm => hm k hk hroom) s4 ?_ ?_ ⟨E2, h4⟩
    · rw [hcache4, hcache3, hcache2, hcache1]
      exact hidle.kept_load hfits _
    · rw [hblk4, hblk3, hblk2, hblk1]

lemma Sound.run_found_self (hk : v.find d name = some k) (hself : v.inoAt d k = d) :
    (runAs t (do
        EasyFs.ilock dir
        match ← EasyFs.lookup dir name with
        | some (i, _) =>
          EasyFs.putInode i
          EasyFs.iunlock dir
          pure false
        | none => rest)).run s = .error (.panic .iunlock) := by
  obtain ⟨_, s1, hlock, h1, hcache1, -, -⟩ := h.lock (t := t) hdir (hidle dir)
  have hdir1 : s1.cache.Has dir d := hcache1 ▸ hdir.own
  obtain ⟨r, s2, hlookup, -, ⟨hm, -⟩ | ⟨k', i, hk', -, rfl, hfits, hcache2, E2, h2⟩⟩ :=
    h1.lookup (t := t) hdir1 hd name
  · exact absurd (.inl ⟨dir, by rw [hself]; exact hdir1.id⟩) (hm k hk)
  · cases hk.symm.trans hk'
    rw [hself] at hfits hcache2
    have hi : s2.cache.Has i d := hcache2 ▸ has_take.own
    have hdir2 : s2.cache.Has dir d := hcache2 ▸ (hdir1.take hfits).own
    cases h2.slot_unique hi hdir2 (h.pos (notMem_empty dir) hdir)
    obtain ⟨_, s3, hput, h3, hcache3, -⟩ := h2.put (t := t) hi
    have howner : s3.cache.owners dir = none := by
      rw [hcache3, hcache2, drop_owners, own_owners_self]
    rw [Prog.run_bind_ok hlock, Prog.run_bind_ok hlookup, Prog.run_bind_ok hput,
      Prog.run_bind_error (run_iunlock_free howner)]

lemma Sound.run_create_self (hname : name ≠ []) (hk : v.find d name = some k)
    (hself : v.inoAt d k = d) (mode : Nat) :
    (runAs t (EasyFs.create dir name mode)).run s = .error (.panic .iunlock) := by
  rw [EasyFs.create, if_neg hname]
  exact h.run_found_self hdir hd hidle hk hself

lemma Sound.run_mkdir_self (hname : name ≠ []) (hk : v.find d name = some k)
    (hself : v.inoAt d k = d) :
    (runAs t (EasyFs.mkdir dir name 0)).run s = .error (.panic .iunlock) := by
  rw [EasyFs.mkdir, if_neg (by simp [hname])]
  exact h.run_found_self hdir hd hidle hk hself

end

/-- A new inode is locked in its slot, next to its directory. -/
structure NewSlot (s s' : Fs) (v : Volume) (dir i : SlotId) (n : Nat) (t : Tid) : Prop where
  room : s.cache.Room n
  fits : (s.cache.own dir (some t)).Fits i n
  ne : dir ≠ i
  cache : s'.cache = ((s.cache.own dir (some t)).take i n).own i (some t)
  free : freeCount s'.blk = freeCount s.blk
  trees : SameTrees v n s s'

namespace NewSlot

variable (h : NewSlot s s' v dir i n t)
include h

lemma has : s'.cache.Has i n := h.cache ▸ has_take.own

lemma locked : s'.cache.owners i = some t := h.cache ▸ own_owners_self

lemma has_dir (hdir : s.cache.Has dir d) :
    s'.cache.Has dir d := h.cache ▸ (hdir.own.take h.fits).own

lemma owner : s'.cache.owners dir = some t := by
  rw [h.cache, own_owners_of_ne h.ne]
  exact own_owners_self

lemma kept (hidle : s.cache.Idle) : s.cache.Kept (((s'.cache.own i none).drop i).own dir none) := by
  have hfree : ((s.cache.own dir (some t)).take i n).owners i = none := by
    rw [take_owners, own_owners_of_ne h.ne.symm]
    exact hidle i
  rw [h.cache, own_own, own_self hfree]
  exact (kept_drop_take h.fits).unlock (hidle dir)

end NewSlot

lemma Sound.allocate {rest : SlotId → FsProg Bool} (h : Sound ∅ s1 E v)
    (hcache : s1.cache = s.cache.own dir (some t)) (hblk : s1.blk = s.blk)
    (hdir : s.cache.Has dir d)
    (hidle : s.cache.Idle) (hd : v.marked d = true) (htype : type < 2 ^ 16)
    (htable : ∀ n, v.firstFree = some n → n < tableSize)
    (hfull : v.firstFree = none → ∀ s', s.cache.Kept s'.cache → s'.blk = s.blk →
      Spells s' v → R false s')
    (hslots : ∀ n, v.firstFree = some n → ¬s.cache.Room n → ∀ s', s.cache.Kept s'.cache →
      Spells s' (v.mark n true) → R false s')
    (hrest : ∀ n i s' E', v.firstFree = some n → NewSlot s s' v dir i n t →
      Sound ∅ s' E' (v.newInode n type 1) → (∀ i < 12, E' n i = 0) →
        Total (runAs t (rest i)) s' R) :
    Total (runAs t (do
        match ← EasyFs.ialloc with
        | none =>
          EasyFs.iunlock dir
          pure false
        | some ip =>
          EasyFs.ilock ip
          EasyFs.edit ip fun e => { e with type := type, nlinks := 1 }
          EasyFs.iupdate ip
          rest ip)) s1 R := by
  have hdir1 : s1.cache.Has dir d := hcache ▸ hdir.own
  have howner : s1.cache.owners dir = some t := hcache ▸ own_owners_self
  have hkept : ∀ s' : Fs, s'.cache = s1.cache.own dir none → s.cache.Kept s'.cache := by
    intro s' hcache'
    rw [hcache', hcache, own_own, own_self (hidle dir)]
    exact .refl _
  refine total_bind h.ialloc ?_
  rw [hcache]
  rintro r s2 ⟨htrees, hfree, ⟨hnone, rfl, rfl⟩ |
    ⟨n, hn, ⟨hroom, rfl, hcache2, h2⟩ | ⟨hroom, i, rfl, hfits, hcache2, h2⟩⟩⟩
  · refine (h.unlockDir hdir1 howner false).mono ?_
    rintro r s3 ⟨rfl, hcache3, hblk3, h3⟩
    exact hfull hnone s3 (hkept s3 hcache3) (hblk3.trans hblk) ⟨E, h3⟩
  · rw [← hcache] at hcache2
    refine (h2.unlockDir (hcache2 ▸ hdir1) (hcache2 ▸ howner) false).mono ?_
    rintro r s3 ⟨rfl, hcache3, -, h3⟩
    exact hslots n hn hroom s3 (hkept s3 (hcache3.trans (by rw [hcache2]))) ⟨E, h3⟩
  · obtain ⟨hpos, hmark⟩ := firstFree_eq_some hn
    have hlt := htable n hn
    have hi : s2.cache.Has i n := hcache2 ▸ has_take
    have hne : dir ≠ i := by
      rintro rfl
      have hdir2 : s2.cache.Has dir d := hcache2 ▸ hdir.own.take hfits
      exact ne_of_marked hd hmark (hdir2.ino.symm.trans hi.ino)
    have hfree2 : s2.cache.owners i = none := by
      rw [hcache2, take_owners, own_owners_of_ne hne.symm]
      exact hidle i
    rw [hn, Option.getD_some] at htrees
    refine total_bind (h2.ilock hi hpos hlt hfree2) ?_
    rintro - s3 ⟨h3, hcache3, hblk3, -⟩
    rw [sdiff_self] at h3
    have hzero : ∀ i < 12, update E n (diskTops s2.blk n) n i = 0 := by
      intro i hi
      rw [update_self]
      rcases (h2.disk.backed n hlt).le i hi with hz | he
      · exact hz
      · exact he.trans ((h.disk.free n hlt hmark).2 i hi)
    have hi3 : s3.cache.Has i n := hcache3 ▸ hi.own
    have hsize : (v.info n).size = 0 := (h.disk.free n hlt hmark).1
    have hinfo := h3.setInfo (t := t) hi3 (fun _ => type) (fun _ => 1) htype fun _ _ => .inr hsize
    change Total (runAs t (EasyFs.edit i _ >>= fun _ => EasyFs.iupdate i >>= fun _ => rest i)) s3 R
    rw [← Prog.bind_assoc]
    refine total_bind hinfo ?_
    rintro - s4 ⟨h4, hcache4, hfree4, htrees4⟩
    have hnew : (v.mark n true).put n ⟨type, 1 % 2 ^ 16, ((v.mark n true).info n).size⟩
        ((v.mark n true).byte n) = v.newInode n type 1 := by
      rw [mark_info, hsize]
      rfl
    rw [hnew] at h4
    refine hrest n i s4 _ hn ⟨hroom, hfits, hne, by rw [hcache4, hcache3, hcache2], ?_, ?_⟩ h4 hzero
    · rw [hfree4, hblk3, hfree, hblk]
    · intro c hc hcn hcdir off hoff
      have hcdir' : (v.mark n true).IsDir c :=
        ⟨(mark_marked_of_ne v true hcn).trans hcdir.1, hcdir.2⟩
      rw [htrees4 c hc hcn hcdir' off hoff, Fs.lacks, Fs.lacks, hblk3, ← hblk]
      exact htrees c hc hcn hcdir off hoff

lemma Sound.giveUp {i : SlotId} (h : Sound ∅ s E v) (hi : s.cache.Has i n)
    (hlocked : s.cache.owners i = some t) (hdir : s.cache.Has dir d)
    (howner : s.cache.owners dir = some t) (hne : dir ≠ i) : Total (runAs t (do
        EasyFs.edit i fun e => { e with nlinks := 0 }
        EasyFs.iupdate i
        EasyFs.iunlockput i
        EasyFs.iunlock dir
        pure false)) s fun r s' => r = false ∧ s'.cache =
          ((s.cache.own i none).drop i).own dir none ∧
      Spells s' (v.put n { v.info n with nlinks := 0 } (v.byte n)) := by
  have hX : i ∉ (∅ : Set SlotId) := notMem_empty i
  have htype := h.type hX hi
  have hinfo := h.setInfo (t := t) hi (fun e => e.type) (fun _ => 0)
    (htype ▸ (h.disk.info_lt (h.lt hX hi)).1) fun hm ht => .inl ⟨hm, htype ▸ ht⟩
  change Total (runAs t (EasyFs.edit i _ >>= fun _ => EasyFs.iupdate i >>= fun _ => _)) s _
  rw [← Prog.bind_assoc]
  refine total_bind hinfo ?_
  rintro - s1 ⟨h1, hcache1, -, -⟩
  rw [htype] at h1
  refine (h1.leave (hcache1 ▸ hi) (hcache1 ▸ hlocked) (hcache1 ▸ hdir)
    (hcache1 ▸ howner) hne false).mono ?_
  rintro r s2 ⟨rfl, hcache2, -, h2⟩
  exact ⟨rfl, by rw [hcache2, hcache1], E, h2⟩

/-! ## Creating a file -/

/-- How a call of `easyfs_vfs_create` ended. -/
inductive Created (s : Fs) (v : Volume) (d : Nat) (name : Name) (type : Nat) : Bool → Fs → Prop
  | found {s' : Fs} (h : ¬v.Missing s.cache d name) (hblk : s'.blk = s.blk) (hs : Spells s' v) :
      Created s v d name type false s'
  | noNumber {s' : Fs} (h : v.Missing s.cache d name) (hn : v.firstFree = none)
      (hblk : s'.blk = s.blk)
      (hs : Spells s' v) : Created s v d name type false s'
  | noSlot {s' : Fs} {n : Nat} (h : v.Missing s.cache d name) (hn : v.firstFree = some n)
      (hroom : ¬s.cache.Room n) (hs : Spells s' (v.mark n true)) : Created s v d name type false s'
  | noBlocks {s' : Fs} {n : Nat} (h : v.Missing s.cache d name) (hn : v.firstFree = some n)
      (hroom : s.cache.Room n) (hfull : ¬Linkable v s d) (hs : Spells s' (v.newInode n type 0)) :
      Created s v d name type false s'
  | done {s' : Fs} {n : Nat} (h : v.Missing s.cache d name) (hn : v.firstFree = some n)
      (hroom : s.cache.Room n) (hlink : Linkable v s d)
      (hs : Spells s' ((v.newInode n type 1).link d name n)) : Created s v d name type true s'

lemma Linkable.congr (hsize : (v'.info d).size = (v.info d).size)
    (hbyte : v'.byte d = v.byte d) (hlacks : ∀ off < 2 ^ 32, s'.lacks d off = s.lacks d off)
    (hfree : freeCount s'.blk = freeCount s.blk) : Linkable v' s' d ↔ Linkable v s d := by
  unfold Linkable
  rw [hole_congr hsize hbyte, hfree]
  refine and_congr_right fun hend => ?_
  rw [hlacks _ (by omega)]

lemma Volume.Tidy.find_ne (h : v.Tidy d) (hn : v.marked n = false) (k : Nat)
    (hk : v.find d name = some k) : v.inoAt d k ≠ n := by
  obtain ⟨hlt, hpos, -⟩ := find_eq_some hk
  exact ne_of_marked (h.live k hlt hpos).2.1 hn

lemma Volume.Missing.newInode {i : SlotId} {nlinks : Nat} {o : Option Tid} {j : SlotId}
    (h : v.Missing w d name) (hd : v.Tidy d) (hn : v.marked n = false) :
    (v.newInode n type nlinks).Missing ((w.own j o).take i n) d name := by
  have hdn := ne_of_marked hd.isDir.1 hn
  have hbyte : (v.newInode n type nlinks).byte d = v.byte d := put_byte_of_ne _ _ _ hdn
  have hsize : ((v.newInode n type nlinks).info d).size = (v.info d).size :=
    congrArg Info.size (put_info_of_ne _ _ _ hdn)
  intro k hk
  rw [find_congr hsize hbyte] at hk
  rw [inoAt_congr hbyte]
  exact Volume.Missing.take (w := w) h (hd.find_ne hn) k hk

lemma Sound.create (h : Sound ∅ s E v) (hdir : s.cache.Has dir d) (hd : v.Tidy d)
    (hidle : s.cache.Idle)
    (hname : name ≠ []) (hself : ∀ k, v.find d name = some k → v.inoAt d k ≠ d)
    (htable : v.Missing s.cache d name → ∀ n, v.firstFree = some n → n < tableSize) (mode : Nat) :
    Total (runAs t (EasyFs.create dir name mode)) s fun r s' => s.cache.Kept s'.cache ∧
      Created s v d name (mode % 2 ^ 16) r s' := by
  unfold EasyFs.create
  rw [if_neg hname]
  refine h.unlessFound hdir hd hidle hself
    (fun hfound s' hkept hblk hs => ⟨hkept, .found hfound hblk hs⟩) ?_
  intro hmissing s1 E1 h1 hcache1 hblk1
  refine h1.allocate hcache1 hblk1 hdir hidle hd.isDir.1 (mod_lt _ (by decide)) (htable hmissing)
    (fun hn s' hkept hblk hs => ⟨hkept, .noNumber hmissing hn hblk hs⟩)
    (fun n hn hroom s' hkept hs => ⟨hkept, .noSlot hmissing hn hroom hs⟩)
      fun n i s2 E2 hn hnew h2 _ => ?_
  obtain ⟨-, hmark⟩ := firstFree_eq_some hn
  refine total_bind (h2.iunlock hnew.has hnew.locked) ?_
  rintro - s3 ⟨h3, hcache3, hblk3⟩
  have hne := hnew.ne
  have hkept := hnew.kept hidle
  rw [← hcache3] at hkept
  have hi3 : s3.cache.Has i n := hcache3 ▸ hnew.has.own
  have hdir3 : s3.cache.Has dir d := hcache3 ▸ (hnew.has_dir hdir).own
  have howner3 : s3.cache.owners dir = some t := by
    rw [hcache3, own_owners_of_ne hne]
    exact hnew.owner
  have hfree3 : s3.cache.owners i = none := hcache3 ▸ own_owners_self
  have hlinkable : Linkable (v.newInode n (mode % 2 ^ 16) 1) s3 d ↔ Linkable v s d := by
    have hdn := ne_of_marked hd.isDir.1 hmark
    refine Linkable.congr (congrArg Info.size (put_info_of_ne _ _ _ hdn))
      (put_byte_of_ne _ _ _ hdn) (fun off hoff => ?_) (by rw [hblk3, hnew.free])
    rw [Fs.lacks, hblk3]
    exact hnew.trees d (h.lt (notMem_empty dir) hdir) hdn hd.isDir off hoff
  have hmissing3 : (v.newInode n (mode % 2 ^ 16) 1).Missing s3.cache d name := by
    rw [hcache3, hnew.cache]
    exact hmissing.newInode hd hmark
  refine total_bind_ok run_load ?_
  rw [hi3.ino]
  refine total_bind (h3.dirlink hdir3 (hd.newInode hmark) hmissing3 n) ?_
  rintro r s4 ⟨hcache4, -, ⟨hlink, rfl, -, E4, h4⟩ | ⟨hfull, rfl, E4, h4⟩⟩
  · rw [if_pos rfl]
    refine total_bind (h4.put (hcache4 ▸ hi3)) ?_
    rintro - s5 ⟨h5, hcache5, -⟩
    rw [hcache4] at hcache5
    refine (h5.unlockDir (hcache5 ▸ hdir3.drop_of_ne hne) (hcache5 ▸ howner3) true).mono ?_
    rintro r s6 ⟨rfl, hcache6, -, h6⟩
    exact ⟨by rwa [hcache6, hcache5], .done hmissing hn hnew.room (hlinkable.mp hlink) ⟨E4, h6⟩⟩
  · rw [if_neg Bool.false_ne_true]
    refine total_bind (h4.lock (hcache4 ▸ hi3) (hcache4 ▸ hfree3)) ?_
    rintro - s5 ⟨h5, hcache5, -, -⟩
    rw [hcache4] at hcache5
    refine (h5.giveUp (hcache5 ▸ hi3.own) (hcache5 ▸ own_owners_self) (hcache5 ▸ hdir3.own)
      (by rw [hcache5, own_owners_of_ne hne]; exact howner3) hne).mono ?_
    rintro r s6 ⟨rfl, hcache6, hs6⟩
    refine ⟨?_, .noBlocks hmissing hn hnew.room (fun hl => hfull (hlinkable.mpr hl)) ?_⟩
    · rwa [hcache6, hcache5, own_own, own_self hfree3]
    · simpa [newInode] using hs6

/-! ## Making a directory -/

/-- The names `.` and `..` -/
def dot : Name := [0x2e#8]

def dotdot : Name := [0x2e#8, 0x2e#8]

namespace Volume

/-- The number `n` is taken for a directory with its first two entries. -/
def newDir (v : Volume) (d n : Nat) : Volume :=
  ((v.newInode n vfsDir 1).link n dot n).link n dotdot d

lemma Missing.congr {v' : Volume} {w : Cache} (h : v.Missing w d name)
    (hsize : (v'.info d).size = (v.info d).size) (hbyte : v'.byte d = v.byte d) :
    v'.Missing w d name := by
  intro k hk
  rw [find_congr hsize hbyte] at hk
  rw [inoAt_congr hbyte]
  exact h k hk

variable {inum : Nat}

lemma Tidy.link_of_ne (h : v.Tidy d) (hne : d ≠ c) : (v.link c name inum).Tidy d :=
  h.congr (fun _ hm => hm) (put_info_of_ne _ _ _ hne) (put_byte_of_ne _ _ _ hne) fun m _ _ ht => by
    rwa [type_link]

lemma tidy_newInode : (v.newInode n vfsDir nlinks).Tidy n where
  isDir := ⟨mark_marked_self .., congrArg Info.type (put_info_self ..)⟩
  whole := by simp [newInode]
  live k hk := absurd hk (by simp [slots, newInode])

lemma slots_newInode : (v.newInode n type nlinks).slots n = 0 := by
  simp [slots, newInode]

lemma Tidy.link (h : v.Tidy d) (hlt : inum < tableSize)
    (hmark : v.marked inum = true) (htype : (v.info inum).type < 2 ^ 8) :
    (v.link d name inum).Tidy d where
  isDir := ⟨h.isDir.1, by rw [type_link]; exact h.isDir.2⟩
  whole := whole_link h.whole
  live k hk hpos := by
    rw [slots_link h.whole] at hk
    rw [type_link, marked_link]
    by_cases hkh : k = v.hole d
    · have hino : (v.link d name inum).inoAt d k = inum := by
        rw [hkh, inoAt, entry_link_hole, entryIno_makeEntry]
        exact mod_eq_of_lt (hlt.trans (by decide))
      rw [hino]
      exact ⟨hlt, hmark, htype⟩
    · have hino : (v.link d name inum).inoAt d k = v.inoAt d k := by
        rw [inoAt, inoAt, entry_link_of_ne hkh]
      rw [hino] at hpos ⊢
      have hle := hole_le (v := v) (d := d)
      exact h.live k (by omega) hpos

variable {v : Volume} {nlinks : Nat}

lemma hole_newInode : (v.newInode n type nlinks).hole n = 0 :=
  le_zero.mp (hole_le.trans_eq slots_newInode)

lemma entries_dot (v : Volume) (nlinks : Nat) (hpos : n ≠ 0) (hlt : n < tableSize) :
    let u := (v.newInode n vfsDir nlinks).link n dot n
    u.slots n = 1 ∧ u.inoAt n 0 = n ∧ u.nameAt n 0 = dot ∧ u.hole n = 1 := by
  intro u
  have hslots : u.slots n = 1 := by
    rw [slots_link tidy_newInode.whole, slots_newInode, hole_newInode]
    rfl
  have hentry : u.entry n 0 = makeEntry dot n := by
    have hlink : u.entry n ((v.newInode n vfsDir nlinks).hole n) = makeEntry dot n :=
      entry_link_hole
    rwa [hole_newInode] at hlink
  have hino : u.inoAt n 0 = n := by
    rw [inoAt, hentry, entryIno_makeEntry]
    exact mod_eq_of_lt (hlt.trans (by decide))
  refine ⟨hslots, hino, by rw [nameAt, hentry, entryName_makeEntry (by decide)]; rfl, ?_⟩
  have hle := hole_le (v := u) (d := n)
  by_contra hne
  have hzero : u.hole n = 0 := by omega
  have hfree := inoAt_hole (v := u) (d := n) (by omega)
  rw [hzero, hino] at hfree
  exact hpos hfree

end Volume

/-- There is a block for the new directory, and room for its entry. -/
def MkdirRoom (v : Volume) (s : Fs) (d : Nat) : Prop :=
  32 * v.hole d + 32 < 2 ^ 32 ∧ s.lacks d (32 * v.hole d) + 1 ≤ freeCount s.blk

lemma Sound.mkdirLinks {i : SlotId} (h : Sound ∅ s E (v.newInode n vfsDir 1)) (hi : s.cache.Has i n)
    (hdir : s.cache.Has dir d) (hd : v.Tidy d) (hn : v.marked n = false)
    (hmissing : (v.newInode n vfsDir 1).Missing s.cache d name) (hzero : ∀ i < 12, E n i = 0) :
    Total (runAs t (EasyFs.mkdirLinks dir i name)) s fun r s' => s'.cache = s.cache ∧
      ((freeCount s.blk = 0 ∧ r = false ∧ Spells s' (v.newInode n vfsDir 1)) ∨
        (freeCount s.blk ≠ 0 ∧ ¬MkdirRoom v s d ∧ r = false ∧ Spells s' (v.newDir d n)) ∨
        (MkdirRoom v s d ∧ r = true ∧ Spells s' ((v.newDir d n).link d name n))) := by
  have hX : i ∉ (∅ : Set SlotId) := notMem_empty i
  have hpos := h.pos hX hi
  have hlt := h.lt hX hi
  have hltd := h.lt (notMem_empty dir) hdir
  have hdn := ne_of_marked hd.isDir.1 hn
  obtain ⟨hslots, hino, hnamed, hhole⟩ := entries_dot v 1 hpos hlt
  have hd1 : (v.newInode n vfsDir 1).Tidy d := hd.newInode hn
  have hn1 : (v.newInode n vfsDir 1).Tidy n := tidy_newInode
  have hmark : (v.newInode n vfsDir 1).marked n = true := hn1.isDir.1
  have htype : ((v.newInode n vfsDir 1).info n).type < 2 ^ 8 := by
    rw [hn1.isDir.2]
    decide
  have hmissing1 : (v.newInode n vfsDir 1).Missing s.cache n dot := by
    intro k hk
    have hk := (find_eq_some hk).1
    rw [slots_newInode] at hk
    exact absurd hk (not_lt_zero k)
  have hlinkable : Linkable (v.newInode n vfsDir 1) s n ↔ 1 ≤ freeCount s.blk := by
    unfold Linkable
    rw [hole_newInode, h.lacks_new hlt hn1.isDir hzero]
    simp
  unfold EasyFs.mkdirLinks
  refine total_bind_ok run_load ?_
  rw [hi.ino]
  refine total_bind (h.dirlink hi hn1 hmissing1 n) ?_
  rintro r s1 ⟨hcache1, htrees1, ⟨hlink1, rfl, hfree1, E1, h1⟩ | ⟨hfull1, rfl, E1, h1⟩⟩
  · rw [if_pos rfl]
    rw [hole_newInode, h.lacks_new hlt hn1.isDir hzero] at hfree1
    change Sound ∅ s1 E1 ((v.newInode n vfsDir 1).link n dot n) at h1
    have hi1 : s1.cache.Has i n := hcache1 ▸ hi
    have hdir1 : s1.cache.Has dir d := hcache1 ▸ hdir
    have hn2 : ((v.newInode n vfsDir 1).link n dot n).Tidy n := hn1.link hlt hmark htype
    have hmissing2 : ((v.newInode n vfsDir 1).link n dot n).Missing s1.cache n dotdot := by
      intro k hk
      obtain ⟨hk, -, hsame⟩ := find_eq_some hk
      obtain rfl : k = 0 := by omega
      rw [hnamed] at hsame
      cases hsame
    have hlacks2 : s1.lacks n 32 = 0 := by
      refine h1.lacks_eq_zero hlt hn2.isDir (o := 0) ?_ rfl
      have hsize := hn2.whole
      unfold slots at hslots
      omega
    refine total_bind_ok run_load ?_
    rw [hdir1.ino]
    refine total_bind (h1.dirlink hi1 hn2 hmissing2 d) ?_
    rintro r s2 ⟨hcache2, htrees2, ⟨hlink2, rfl, hfree2, E2, h2⟩ | ⟨hfull2, -⟩⟩
    · rw [if_pos rfl]
      rw [hhole, hlacks2, add_zero] at hfree2
      change Sound ∅ s2 E2 (v.newDir d n) at h2
      rw [hcache1] at hcache2
      have hd3 : (v.newDir d n).Tidy d := (hd1.link_of_ne hdn).link_of_ne hdn
      have hinfo3 : ((v.newDir d n).info d).size = (v.info d).size := by
        unfold newDir link newInode
        rw [put_info_of_ne _ _ _ hdn, put_info_of_ne _ _ _ hdn, put_info_of_ne _ _ _ hdn, mark_info]
      have hbyte3 : (v.newDir d n).byte d = v.byte d := by
        unfold newDir link newInode
        rw [put_byte_of_ne _ _ _ hdn, put_byte_of_ne _ _ _ hdn, put_byte_of_ne _ _ _ hdn, mark_byte]
      have hlacks3 : ∀ off < 2 ^ 32, s2.lacks d off = s.lacks d off := fun off hoff =>
        (htrees2 d hltd hdn (hd1.link_of_ne hdn).isDir off hoff).trans
          (htrees1 d hltd hdn hd1.isDir off hoff)
      have hlinkable3 : Linkable (v.newDir d n) s2 d ↔ MkdirRoom v s d := by
        unfold Linkable MkdirRoom
        rw [hole_congr hinfo3 hbyte3]
        refine and_congr_right fun hend => ?_
        rw [hlacks3 _ (by omega)]
        omega
      have hmissing3 : (v.newDir d n).Missing s2.cache d name := by
        rw [hcache2]
        refine hmissing.congr ?_ ?_
        · unfold newDir link
          rw [put_info_of_ne _ _ _ hdn, put_info_of_ne _ _ _ hdn]
        · unfold newDir link
          rw [put_byte_of_ne _ _ _ hdn, put_byte_of_ne _ _ _ hdn]
      refine total_bind_ok run_load ?_
      have hi2 : s2.cache.Has i n := hcache2 ▸ hi
      rw [hi2.ino]
      refine (h2.dirlink (hcache2 ▸ hdir) hd3 hmissing3 n).mono ?_
      rintro r s3 ⟨hcache3, -, ⟨hlink3, rfl, -, E3, h3⟩ | ⟨hfull3, rfl, E3, h3⟩⟩
      · exact ⟨hcache3.trans hcache2, .inr (.inr ⟨hlinkable3.mp hlink3, rfl, E3, h3⟩)⟩
      · refine ⟨hcache3.trans hcache2,
          .inr (.inl ⟨?_, fun hroom => hfull3 (hlinkable3.mpr hroom), rfl,
          E3, h3⟩)⟩
        have hone := hlinkable.mp hlink1
        omega
    · refine absurd ⟨?_, ?_⟩ hfull2
      · rw [hhole]
        decide
      · rw [hhole]
        exact hlacks2.le.trans (zero_le _)
  · refine ⟨false, s1, rfl, hcache1, .inl ⟨?_, rfl, E1, h1⟩⟩
    rw [hlinkable] at hfull1
    omega

/-- How a call of `easyfs_vfs_mkdir` ended. -/
inductive MadeDir (s : Fs) (v : Volume) (d : Nat) (name : Name) : Bool → Fs → Prop
  | found {s' : Fs} (h : ¬v.Missing s.cache d name) (hblk : s'.blk = s.blk) (hs : Spells s' v) :
      MadeDir s v d name false s'
  | noNumber {s' : Fs} (h : v.Missing s.cache d name) (hn : v.firstFree = none)
      (hblk : s'.blk = s.blk)
      (hs : Spells s' v) : MadeDir s v d name false s'
  | noSlot {s' : Fs} {n : Nat} (h : v.Missing s.cache d name) (hn : v.firstFree = some n)
      (hroom : ¬s.cache.Room n) (hs : Spells s' (v.mark n true)) : MadeDir s v d name false s'
  | noBlock {s' : Fs} {n : Nat} (h : v.Missing s.cache d name) (hn : v.firstFree = some n)
      (hroom : s.cache.Room n) (hfull : ¬MkdirRoom v s d) (hs : Spells s' (v.newInode n vfsDir 0)) :
      MadeDir s v d name false s'
  | noEntry {s' : Fs} {n : Nat} (h : v.Missing s.cache d name) (hn : v.firstFree = some n)
      (hroom : s.cache.Room n) (hfull : ¬MkdirRoom v s d)
      (hs : Spells s' ((v.newDir d n).put n { (v.newDir d n).info n with nlinks := 0 }
        ((v.newDir d n).byte n))) : MadeDir s v d name false s'
  | done {s' : Fs} {n : Nat} (h : v.Missing s.cache d name) (hn : v.firstFree = some n)
      (hroom : s.cache.Room n) (hlink : MkdirRoom v s d)
      (hs : Spells s' (((v.newDir d n).link d name n).put d
        { ((v.newDir d n).link d name n).info d with nlinks := ((v.info d).nlinks + 1) % 2 ^ 16 }
        (((v.newDir d n).link d name n).byte d))) : MadeDir s v d name true s'

lemma nlinks_newDir_link (hdn : d ≠ n) :
    (((v.newDir d n).link d name n).info d).nlinks = (v.info d).nlinks := by
  unfold newDir link newInode
  rw [put_info_self, put_info_of_ne _ _ _ hdn, put_info_of_ne _ _ _ hdn,
    put_info_of_ne _ _ _ hdn, mark_info]

lemma Sound.mkdir (h : Sound ∅ s E v) (hdir : s.cache.Has dir d) (hd : v.Tidy d)
    (hidle : s.cache.Idle)
    (hname : name ≠ []) (hself : ∀ k, v.find d name = some k → v.inoAt d k ≠ d)
    (htable : v.Missing s.cache d name → ∀ n, v.firstFree = some n → n < tableSize) :
    Total (runAs t (EasyFs.mkdir dir name 0)) s fun r s' => s.cache.Kept s'.cache ∧
      MadeDir s v d name r s' := by
  unfold EasyFs.mkdir
  rw [if_neg (by simp [hname])]
  refine h.unlessFound hdir hd hidle hself
    (fun hfound s' hkept hblk hs => ⟨hkept, .found hfound hblk hs⟩) ?_
  intro hmissing s1 E1 h1 hcache1 hblk1
  refine h1.allocate hcache1 hblk1 hdir hidle hd.isDir.1 (by decide) (htable hmissing)
    (fun hn s' hkept hblk hs => ⟨hkept, .noNumber hmissing hn hblk hs⟩)
    (fun n hn hroom s' hkept hs => ⟨hkept, .noSlot hmissing hn hroom hs⟩)
      fun n i s2 E2 hn hnew h2 hzero => ?_
  obtain ⟨-, hmark⟩ := firstFree_eq_some hn
  have hdn := ne_of_marked hd.isDir.1 hmark
  have hne := hnew.ne
  have hi2 := hnew.has
  have hlocked2 := hnew.locked
  have hdir2 := hnew.has_dir hdir
  have howner2 := hnew.owner
  have hkept := hnew.kept hidle
  have hroom_iff : MkdirRoom v s2 d ↔ MkdirRoom v s d := by
    unfold MkdirRoom
    rw [hnew.free]
    refine and_congr_right fun hend => ?_
    rw [hnew.trees d (h.lt (notMem_empty dir) hdir) hdn hd.isDir (32 * v.hole d) (by omega)]
  have hmissing2 : (v.newInode n vfsDir 1).Missing s2.cache d name := by
    rw [hnew.cache]
    exact hmissing.newInode hd hmark
  refine total_bind (h2.mkdirLinks hi2 hdir2 hd hmark hmissing2 hzero) ?_
  rintro r s3 ⟨hcache3, ⟨hnone, rfl, E3, h3⟩ | ⟨hsome, hfull, rfl, E3, h3⟩ | ⟨hlink, rfl, E3, h3⟩⟩
  · rw [if_neg Bool.false_ne_true]
    refine (h3.giveUp (hcache3 ▸ hi2) (hcache3 ▸ hlocked2) (hcache3 ▸ hdir2)
      (hcache3 ▸ howner2) hne).mono ?_
    rintro r s4 ⟨rfl, hcache4, hs4⟩
    refine ⟨by rwa [hcache4, hcache3], .noBlock hmissing hn hnew.room (fun hroom => ?_) ?_⟩
    · have hone := (hroom_iff.mpr hroom).2
      omega
    · simpa [newInode] using hs4
  · rw [if_neg Bool.false_ne_true]
    refine (h3.giveUp (hcache3 ▸ hi2) (hcache3 ▸ hlocked2) (hcache3 ▸ hdir2)
      (hcache3 ▸ howner2) hne).mono ?_
    rintro r s4 ⟨rfl, hcache4, hs4⟩
    exact ⟨by rwa [hcache4, hcache3],
      .noEntry hmissing hn hnew.room (fun hroom => hfull (hroom_iff.mpr hroom)) hs4⟩
  · rw [if_pos rfl]
    have hdir3 : s3.cache.Has dir d := hcache3 ▸ hdir2
    have hX : dir ∉ (∅ : Set SlotId) := notMem_empty dir
    have htype := h3.type hX hdir3
    have hlinks := h3.nlinks hX hdir3
    rw [nlinks_newDir_link hdn] at hlinks
    have hinfo := h3.setInfo (t := t) hdir3 (fun e => e.type) (fun e => e.nlinks + 1)
      (htype ▸ (h3.disk.info_lt (h3.lt hX hdir3)).1) fun hm ht => .inl ⟨hm, htype ▸ ht⟩
    change Total (runAs t (EasyFs.edit dir _ >>= fun _ => EasyFs.iupdate dir >>= fun _ => _)) s3 _
    rw [← Prog.bind_assoc]
    refine total_bind hinfo ?_
    rintro - s4 ⟨h4, hcache4, -, -⟩
    have hsum : ((s3.slot dir).nlinks + 1) % 2 ^ 16 = ((v.info d).nlinks + 1) % 2 ^ 16 := by omega
    rw [htype, hsum] at h4
    rw [hcache3] at hcache4
    refine (h4.leave (hcache4 ▸ hi2) (hcache4 ▸ hlocked2) (hcache4 ▸ hdir2)
      (hcache4 ▸ howner2) hne true).mono ?_
    rintro r s5 ⟨rfl, hcache5, -, h5⟩
    exact ⟨by rwa [hcache5, hcache4], .done hmissing hn hnew.room (hroom_iff.mp hlink) ⟨E3, h5⟩⟩

/-! ## Unlinking -/

/-- The inode `m` loses a link; with the last one its file and its number are gone. -/
def Volume.dropLink (v : Volume) (m : Nat) : Volume :=
  if (v.info m).nlinks = 1 then (v.mark m false).put m ⟨(v.info m).type, 0, 0⟩ fun _ => 0
  else v.put m { v.info m with nlinks := ((v.info m).nlinks + 2 ^ 16 - 1) % 2 ^ 16 } (v.byte m)

/-- The entry `k` is removed, and the inode that it names loses a link. -/
def Volume.unlinkAt (v : Volume) (d k : Nat) : Volume := (v.clearEntry d k).dropLink (v.inoAt d k)

/-- How a call of `easyfs_vfs_unlink` ended. -/
inductive Removed (s : Fs) (v : Volume) (d : Nat) (name : Name) : Bool → Fs → Prop
  | reserved {s' : Fs} (h : sameName name dot ∨ sameName name dotdot) (hblk : s'.blk = s.blk)
      (hs : Spells s' v) : Removed s v d name false s'
  | missing {s' : Fs} (h : v.Missing s.cache d name) (hblk : s'.blk = s.blk) (hs : Spells s' v) :
      Removed s v d name false s'
  | directory {s' : Fs} {k : Nat} (hk : v.find d name = some k) (hroom : s.cache.Room (v.inoAt d k))
      (htype : (v.info (v.inoAt d k)).type = vfsDir) (hblk : s'.blk = s.blk) (hs : Spells s' v) :
      Removed s v d name false s'
  | done {s' : Fs} {k : Nat} (h : ¬(sameName name dot ∨ sameName name dotdot))
      (hk : v.find d name = some k) (hroom : s.cache.Room (v.inoAt d k))
      (htype : (v.info (v.inoAt d k)).type ≠ vfsDir)
      (hs : Spells s' (v.unlinkAt d k)) : Removed s v d name true s'

variable {i : SlotId} {m : Nat}

section
variable (h : Sound ∅ s E v)
include h

/-- The links of an inode are set to `k`; with none left its file and its number go, and the inode
is saved. -/
lemma Sound.setLinks (hi : s.cache.Has i m) (hdir : (v.info m).type ≠ vfsDir)
    (k : Nat) : Total (runAs t (do
        (if k = 0 then do
          let _ ← EasyFs.itrunc i 0
          EasyFs.ifree (s.slot i).ino
        else pure ())
        EasyFs.iupdate i)) (s.setSlot i { s.slot i with nlinks := k }) fun _ s' =>
          s'.cache = s.cache ∧
      Spells s' (if k = 0 then (v.mark m false).put m ⟨(v.info m).type, 0, 0⟩ fun _ => 0
        else v.put m { v.info m with nlinks := k % 2 ^ 16 } (v.byte m)) := by
  have hX : i ∉ (∅ : Set SlotId) := notMem_empty i
  have hpos := h.pos hX hi
  have hm := h.lt hX hi
  have hlt := h.disk.info_lt hm
  obtain ⟨h1, hcache1⟩ := h.edit hi (fun e => { e with nlinks := k }) rfl rfl rfl
  have hslot1 : (s.setSlot i { s.slot i with nlinks := k }).slot i =
    { s.slot i with nlinks := k } :=
    update_self ..
  set s1 := s.setSlot i { s.slot i with nlinks := k }
  have hi1 : s1.cache.Has i m := hcache1 ▸ hi
  have htops1 : E m = (s1.slot i).blocks := by
    rw [hslot1]
    exact h.tops hX hi
  have htype1 : (s1.slot i).type = (v.info m).type := by
    rw [hslot1]
    exact h.type hX hi
  have hlinks1 : (s1.slot i).nlinks = k := by rw [hslot1]
  by_cases hk : k = 0
  · rw [if_pos hk, if_pos hk, Prog.bind_assoc]
    refine total_bind (h1.itrunc hi1 hpos hm htops1 (htype1 ▸ hlt.1)) ?_
    rintro r s2 ⟨-, hcache2, E2, h2, hslot2, hzero⟩
    have hi2 : s2.cache.Has i m := hcache2 ▸ hi1
    rw [hi.ino]
    refine total_bind (h2.ifree hi2 hpos hm (by simp) hzero) ?_
    rintro - s3 ⟨hcache3, hslot3, h3⟩
    have hi3 : s3.cache.Has i m := hcache3 ▸ hi2
    have hslot : s3.slot i = { s1.slot i with blocks := E2 m, size := 0 } := by rw [hslot3, hslot2]
    refine (h3.iupdate hi3 hpos hm (by rw [hslot]) (by rw [hslot]; simp)
      (by rw [hslot]; exact htype1 ▸ hlt.1) (fun hmark => ?_)).mono ?_
    · simp at hmark
    · rintro - s4 ⟨h4, hcache4, -, -⟩
      refine ⟨by rw [hcache4, hcache3, hcache2, hcache1], E2, ?_⟩
      rw [hslot] at h4
      simpa [htype1, hlinks1, hk, Volume.put, Volume.mark] using h4
  · rw [if_neg hk, if_neg hk, Prog.pure_bind]
    refine (h1.iupdate hi1 hpos hm htops1 (by rw [hslot1]; exact h.size hX hi) (htype1 ▸ hlt.1)
      (fun _ ht => absurd (htype1 ▸ ht) hdir)).mono ?_
    rintro - s2 ⟨h2, hcache2, -, -⟩
    refine ⟨hcache2.trans hcache1, E, ?_⟩
    simpa [htype1, hlinks1] using h2

lemma Sound.dropLink (hi : s.cache.Has i m)
    (hlinks : (s.slot i).nlinks = (v.info m).nlinks) (hdir : (v.info m).type ≠ vfsDir) :
    Total (runAs t (do
        EasyFs.dropLink i
        EasyFs.iupdate i)) s fun _ s' => s'.cache = s.cache ∧ Spells s' (v.dropLink m) := by
  have hlt := (h.disk.info_lt (h.lt (notMem_empty i) hi)).2.1
  have hset := h.setLinks (t := t) hi hdir (((s.slot i).nlinks + 2 ^ 32 - 1) % 2 ^ 32)
  unfold EasyFs.dropLink
  rw [Prog.bind_assoc]
  refine total_bind_ok (run_edit _) ?_
  rw [Prog.bind_assoc]
  refine total_bind_ok run_load ?_
  simp only [Fs.setSlot_slot, update_self]
  refine hset.mono ?_
  rintro - s' ⟨hcache, hs⟩
  refine ⟨hcache, ?_⟩
  unfold Volume.dropLink
  rw [hlinks] at hs
  by_cases hlast : (v.info m).nlinks = 1
  · rw [if_pos hlast]
    rwa [if_pos (by omega)] at hs
  · rw [if_neg hlast]
    rw [if_neg (by omega)] at hs
    have hmod : ((v.info m).nlinks + 2 ^ 32 - 1) % 2 ^ 32 % 2 ^ 16 =
        ((v.info m).nlinks + 2 ^ 16 - 1) % 2 ^ 16 := by omega
    rwa [hmod] at hs

lemma Sound.clearEntry (hdir : s.cache.Has dir d) (hd : v.Tidy d) (hk : k < v.slots d) :
    Total (runAs t (writeInode dir (32 * k) (List.replicate 32 0))) s fun r s' => r = some 32 ∧
      s'.cache = s.cache ∧ (∀ j, j ≠ dir → s'.slot j = s.slot j) ∧
        ∃ E', Sound ∅ s' E' (v.clearEntry d k) := by
  have hX : dir ∉ (∅ : Set SlotId) := notMem_empty dir
  have hlt := (h.disk.info_lt (h.lt hX hdir)).2.2
  have hend : 32 * k + 32 ≤ (v.info d).size := by
    unfold slots at hk
    omega
  refine (h.writeEntry hX hdir hd.isDir (List.length_replicate ..) (by omega) (by omega)).mono ?_
  rintro r s' ⟨hcache, -, hslots, ⟨-, rfl, -, E', h'⟩ | ⟨hfull, -⟩⟩
  · rw [max_eq_left hend] at h'
    exact ⟨rfl, hcache, hslots, E', h'⟩
  · rw [h.lacks_eq_zero (o := 32 * k) (h.lt hX hdir) hd.isDir (by omega) rfl] at hfull
    exact absurd hfull (not_lt_zero _)

lemma Sound.unlink (hdir : s.cache.Has dir d) (hd : v.Tidy d) (hidle : s.cache.Idle)
    (hname : name ≠ []) (hself : ∀ k, v.find d name = some k → v.inoAt d k = d →
      sameName name dot ∨ sameName name dotdot) :
    Total (runAs t (EasyFs.unlink dir name)) s fun r s' => s.cache.Kept s'.cache ∧
      Removed s v d name r s' := by
  unfold EasyFs.unlink
  rw [if_neg hname]
  refine total_bind (h.lock hdir (hidle dir)) ?_
  rintro - s1 ⟨h1, hcache1, hblk1, -⟩
  have hdir1 : s1.cache.Has dir d := hcache1 ▸ hdir.own
  have howner1 : s1.cache.owners dir = some t := hcache1 ▸ own_owners_self
  have hquit : ∀ s', s1.blk = s'.blk → s1.cache = s'.cache → ∀ E', Sound ∅ s' E' v →
      Total (runAs t (do
        EasyFs.iunlock dir
        pure false)) s' fun r s' => r = false ∧ s.cache.Kept s'.cache ∧
          s'.blk = s.blk ∧ Spells s' v := by
    intro s' hblk hcache E' h'
    refine (h'.unlockDir (hcache ▸ hdir1) (hcache ▸ howner1) false).mono ?_
    rintro r s2 ⟨rfl, hcache2, hblk2, h2⟩
    refine ⟨rfl, ?_, by rw [hblk2, ← hblk, hblk1], E', h2⟩
    rw [hcache2, ← hcache, hcache1, own_own, own_self (hidle dir)]
    exact .refl _
  by_cases hreserved : sameName name [0x2e#8] ∨ sameName name [0x2e#8, 0x2e#8]
  · rw [if_pos hreserved]
    refine (hquit s1 rfl rfl _ h1).mono ?_
    rintro r s' ⟨rfl, hkept, hblk, hs⟩
    exact ⟨hkept, .reserved hreserved hblk hs⟩
  rw [if_neg hreserved]
  refine total_bind (h1.lookup hdir1 hd name) ?_
  rintro r s2 ⟨hblk2, ⟨hmissing, rfl, rfl⟩ | ⟨k, i, hk, hroom, rfl, hfits, hcache2, E2, h2⟩⟩
  · refine (hquit s2 rfl rfl _ h1).mono ?_
    rintro r s' ⟨rfl, hkept, hblk, hs⟩
    rw [hcache1] at hmissing
    exact ⟨hkept, .missing hmissing hblk hs⟩
  obtain ⟨hlt, -, -⟩ := find_eq_some hk
  have hroom0 : s.cache.Room (v.inoAt d k) := by
    rw [hcache1] at hroom
    exact hroom
  have hmd : v.inoAt d k ≠ d := fun hd' => hreserved (hself k hk hd')
  set m := v.inoAt d k with hm
  have hi2 : s2.cache.Has i m := hcache2 ▸ has_take.own
  have hdir2 : s2.cache.Has dir d := hcache2 ▸ (hdir1.take hfits).own
  have hne : dir ≠ i := by
    rintro rfl
    exact hmd (hi2.ino.symm.trans hdir2.ino)
  refine total_bind (h2.lock hi2 (hcache2 ▸ own_owners_self)) ?_
  rintro - s3 ⟨h3, hcache3, hblk3, hlinks3⟩
  have hi3 : s3.cache.Has i m := hcache3 ▸ hi2.own
  have hlocked3 : s3.cache.owners i = some t := hcache3 ▸ own_owners_self
  have hdir3 : s3.cache.Has dir d := hcache3 ▸ hdir2.own
  have howner3 : s3.cache.owners dir = some t := by
    rw [hcache3, own_owners_of_ne hne, hcache2, own_owners_of_ne hne]
    exact howner1
  have hkept : ∀ s' : Fs, s'.cache = ((s3.cache.own i none).drop i).own dir none →
      s.cache.Kept s'.cache := by
    intro s' hcache
    rw [hcache1] at hfits
    rw [hcache, hcache3, own_own, hcache2, own_own, hcache1]
    exact hidle.kept_load hfits _
  refine total_bind_ok run_load ?_
  rw [h3.type (notMem_empty i) hi3]
  by_cases htype : (v.info m).type = vfsDir
  · rw [if_pos htype]
    refine (h3.leave hi3 hlocked3 hdir3 howner3 hne false).mono ?_
    rintro r s4 ⟨rfl, hcache4, hblk4, h4⟩
    exact ⟨hkept s4 hcache4, .directory hk hroom0 htype (by rw [hblk4, hblk3, hblk2, hblk1])
      ⟨_, h4⟩⟩
  · rw [if_neg htype]
    refine total_bind (h3.clearEntry hdir3 hd hlt) ?_
    rintro r s4 ⟨rfl, hcache4, hslots4, E4, h4⟩
    have hinfo : (v.clearEntry d k).info m = v.info m := put_info_of_ne _ _ _ hmd
    have hdrop := h4.dropLink (t := t) (hcache4 ▸ hi3) (by rw [hslots4 i hne.symm, hlinks3, hinfo])
      (hinfo ▸ htype)
    change Total (runAs t (EasyFs.dropLink i >>= fun _ => EasyFs.iupdate i >>= fun _ => _)) s4 _
    rw [← Prog.bind_assoc]
    refine total_bind hdrop ?_
    rintro - s5 ⟨hcache5, E5, h5⟩
    rw [hcache4] at hcache5
    refine (h5.leave (hcache5 ▸ hi3) (hcache5 ▸ hlocked3) (hcache5 ▸ hdir3)
      (hcache5 ▸ howner3) hne true).mono ?_
    rintro r s6 ⟨rfl, hcache6, -, h6⟩
    exact ⟨hkept s6 (by rw [hcache6, hcache5]), .done hreserved hk hroom0 htype ⟨E5, h6⟩⟩

end

end FrostVista.EasyFs
