import FrostVista.EasyFs.Volume

/-!
# EasyFS: the functions on inodes as changes of the volume

What locking, loading, saving, writing, truncating, allocating and freeing an inode do to the
volume, and to the view of the inode cache: which inode is in each slot, its references and the
holder of its lock.
-/
namespace FrostVista.EasyFs

open Lib Lib.Comp Kernel Function List Bytes Nat Volume

/-! ## The view of the cache -/

structure Cache where
  ids : SlotId → Nat × Nat
  counts : SlotId → Nat
  owners : SlotId → Option Tid

def Fs.cache (s : Fs) : Cache := ⟨s.ids, s.counts, s.owners⟩

namespace Cache

def own (w : Cache) (i : SlotId) (o : Option Tid) : Cache :=
  { w with owners := update w.owners i o }

/-- The inode `n` is taken to the slot `i`. -/
def take (w : Cache) (i : SlotId) (n : Nat) : Cache :=
  { w with
    ids := update w.ids i (0, n)
    counts := update w.counts i (w.counts i + 1) }

def drop (w : Cache) (i : SlotId) : Cache :=
  { w with counts := update w.counts i (w.counts i - 1) }

/-- The slot holds the inode `n` of EasyFS and is referenced. -/
structure Has (w : Cache) (i : SlotId) (n : Nat) : Prop where
  id : w.ids i = (0, n)
  ref : 1 ≤ w.counts i

/-- The slot can be used for the inode `n`. -/
def Fits (w : Cache) (i : SlotId) (n : Nat) : Prop := 1 ≤ w.counts i → w.ids i = (0, n)

/-- The references and the locks are the same, and so are the inodes that are referenced. -/
structure Kept (w w' : Cache) : Prop where
  counts : w'.counts = w.counts
  owners : w'.owners = w.owners
  ids : ∀ i, 1 ≤ w.counts i → w'.ids i = w.ids i

variable {w w' w'' : Cache} {i j : SlotId} {n m : Nat} {o o' : Option Tid}

@[simp] lemma own_ids : (w.own i o).ids = w.ids := rfl
@[simp] lemma own_counts : (w.own i o).counts = w.counts := rfl
@[simp] lemma own_owners_self : (w.own i o).owners i = o := update_self ..
@[simp] lemma take_owners : (w.take i n).owners = w.owners := rfl
@[simp] lemma drop_owners : (w.drop i).owners = w.owners := rfl
@[simp] lemma drop_ids : (w.drop i).ids = w.ids := rfl

@[simp] lemma own_owners_of_ne (h : j ≠ i) : (w.own i o).owners j = w.owners j :=
  update_of_ne h ..

@[simp] lemma own_own : (w.own i o).own i o' = w.own i o' := by
  simp [own]

lemma own_self (h : w.owners i = o) : w.own i o = w := by
  simp [own, ← h]

lemma Has.own (h : w.Has j n) : (w.own i o).Has j n := ⟨h.id, h.ref⟩

lemma has_take : (w.take i n).Has i n := ⟨update_self .., by simp [take]⟩

lemma Has.take (h : w.Has j m) (hfits : w.Fits i n) : (w.take i n).Has j m := by
  by_cases hji : j = i
  · subst hji
    have hmn : m = n := congrArg Prod.snd (h.id.symm.trans (hfits h.ref))
    rw [hmn]
    exact has_take
  · exact ⟨(update_of_ne hji ..).trans h.id, by
      simp only [Cache.take, update_of_ne hji]
      exact h.ref⟩

lemma Has.drop_take (h : w.Has j m) (hfits : w.Fits i n) : ((w.take i n).drop i).Has j m := by
  have htaken := h.take hfits
  refine ⟨htaken.id, ?_⟩
  by_cases hji : j = i
  · subst hji
    simpa [Cache.drop, Cache.take] using h.ref
  · simpa [Cache.drop, Cache.take, hji] using h.ref

lemma Has.drop_of_ne (h : w.Has j m) (hne : j ≠ i) : (w.drop i).Has j m :=
  ⟨h.id, by simpa [Cache.drop, hne] using h.ref⟩

lemma Kept.refl (w : Cache) : w.Kept w := ⟨rfl, rfl, fun _ _ => rfl⟩

lemma Kept.has (h : w.Kept w') (hi : w.Has i n) : w'.Has i n :=
  ⟨(h.ids i hi.ref).trans hi.id, h.counts ▸ hi.ref⟩

lemma kept_drop_take (hfits : w.Fits i n) : w.Kept ((w.take i n).drop i) where
  counts := by simp [drop, take]
  owners := rfl
  ids j hj := by
    by_cases hji : j = i
    · subst hji
      simp [drop, take, hfits hj]
    · simp [drop, take, hji]

lemma Kept.own (h : w.Kept w') : (w.own i o).Kept (w'.own i o) :=
  ⟨h.counts, by simp [Cache.own, h.owners], h.ids⟩

lemma Kept.unlock (h : (w.own i o).Kept w') (hfree : w.owners i = none) :
    w.Kept (w'.own i none) := by
  have hback := h.own (i := i) (o := none)
  rwa [own_own, own_self hfree] at hback

end Cache

variable {X X' : Set SlotId} {s s' : Fs} {E E' : Tops} {v v' : Volume}
  {n m : Nat} {i ip : SlotId} {t : Tid}
  {e : Slot} {blk' : Nat → Bytes}

lemma Cache.Has.dev (h : s.cache.Has ip n) : (s.slot ip).dev = 0 := congrArg Prod.fst h.id

lemma Cache.Has.ino (h : s.cache.Has ip n) : (s.slot ip).ino = n := congrArg Prod.snd h.id

lemma Cache.Has.count (h : s.cache.Has ip n) : 1 ≤ (s.slot ip).count := h.ref

section
variable (h : Sound X s E v) (hX : ip ∉ X) (hip : s.cache.Has ip n)
include h hX hip

lemma Sound.at :
    Cached E v (s.slot ip) := h.cached ip hX hip.count hip.dev

lemma Sound.pos : n ≠ 0 :=
  hip.ino ▸ (h.at hX hip).pos

lemma Sound.lt : n < tableSize :=
  hip.ino ▸ (h.at hX hip).table

lemma Sound.tops :
    E n = (s.slot ip).blocks := hip.ino ▸ (h.at hX hip).tops

lemma Sound.size :
    (s.slot ip).size = (v.info n).size := hip.ino ▸ (h.at hX hip).size

lemma Sound.type :
    (s.slot ip).type = (v.info n).type := hip.ino ▸ (h.at hX hip).type

lemma Sound.nlinks :
    (s.slot ip).nlinks % 2 ^ 16 = (v.info n).nlinks := hip.ino ▸ (h.at hX hip).nlinks

end

lemma Sound.slot_unique (h : Sound X s E v) (hi : s.cache.Has i n) (hj : s.cache.Has j n)
    (hpos : n ≠ 0) : i = j :=
  h.unique i j hi.dev hj.dev (hi.ino.trans hj.ino.symm) (hi.ino.symm ▸ hpos)

lemma Disk.info_lt (h : Disk E blk v) (hn : n < tableSize) :
    (v.info n).type < 2 ^ 16 ∧ (v.info n).nlinks < 2 ^ 16 ∧ (v.info n).size < 2 ^ 32 := by
  rw [← h.info n hn]
  exact ⟨load_lt _ _ _, load_lt _ _ _, load_lt _ _ _⟩

/-! ## Locks and references -/

lemma cache_setSlot (he : (e.dev, e.ino) = s.ids i) (hcount : e.count = (s.slot i).count) :
    (s.setSlot i e).cache = s.cache.own i e.owner := by
  have hids : (s.setSlot i e).ids = s.ids := by
    rw [ids_setSlot, he]
    exact update_eq_self ..
  have hcounts : (s.setSlot i e).counts = s.counts := by
    rw [counts_setSlot, hcount]
    exact update_eq_self ..
  simp only [Fs.cache, Cache.own, hids, hcounts, owners_setSlot]

lemma cache_setOwner (o : Option Tid) :
    (s.setSlot i { s.slot i with owner := o }).cache = s.cache.own i o := cache_setSlot rfl rfl

lemma Sound.ilock (h : Sound X s E v) (hip : s.cache.Has ip n) (hpos : n ≠ 0) (hn : n < tableSize)
    (hfree : s.cache.owners ip = none) : Total (runAs t (EasyFs.ilock ip)) s fun _ s' =>
      Sound (X \ {ip}) s' (update E n (diskTops s.blk n)) v ∧
      s'.cache = s.cache.own ip (some t) ∧ s'.blk = s.blk ∧ (s'.slot ip).nlinks =
        (v.info n).nlinks := by
  have hrun := run_ilock (t := t) hip.count hfree (h.quiet _)
  have hload :=
    h.load (e := { (s.slot ip).loaded (onDisk s.blk (s.slot ip).ino) with owner := some t })
    hip.dev (hip.ino ▸ hpos) (hip.ino ▸ hn) rfl rfl rfl rfl rfl rfl
  refine ⟨_, _, hrun, hip.ino ▸ hload, cache_setSlot rfl rfl, rfl, ?_⟩
  rw [Fs.setSlot_slot, update_self, hip.ino, ← h.disk.info n hn]
  rfl

lemma Sound.iunlock (h : Sound X s E v) (hip : s.cache.Has ip n)
    (howner : s.cache.owners ip = some t) :
    Total (runAs t (EasyFs.iunlock ip)) s fun _ s' => Sound X s' E v ∧
      s'.cache = s.cache.own ip none ∧ s'.blk = s.blk :=
  ⟨_, _, run_iunlock hip.count howner, h.setOwner hip.dev none, cache_setSlot rfl rfl, rfl⟩

lemma run_iunlock_free (howner : s.cache.owners ip = none) :
    (runAs t (EasyFs.iunlock ip)).run s = .error (.panic .iunlock) := by
  have hne : decide ((s.slot ip).owner = some t) = false := by
    change decide (s.cache.owners ip = some t) = false
    rw [howner]
    rfl
  unfold EasyFs.iunlock
  rw [Prog.run_bind_ok run_holdingsleep, Prog.run_bind_ok run_load, if_pos (.inl hne), run_panic]

lemma Sound.put (h : Sound X s E v) (hip : s.cache.Has ip n) :
    Total (runAs t (EasyFs.putInode ip)) s fun _ s' => Sound X s' E v ∧
      s'.cache = s.cache.drop ip ∧ s'.blk = s.blk := by
  obtain ⟨hs, hblk, hids, hcounts, howners⟩ := h.putInode hip.count
  refine ⟨(), s.putInode ip, rfl, hs, ?_, hblk⟩
  rw [Fs.cache, hids, hcounts, howners]
  rfl

lemma Sound.iunlockput (h : Sound X s E v) (hip : s.cache.Has ip n)
    (howner : s.cache.owners ip = some t) :
    Total (runAs t (EasyFs.iunlockput ip)) s fun _ s' => Sound X s' E v ∧
      s'.cache = (s.cache.own ip none).drop ip ∧ s'.blk = s.blk := by
  unfold EasyFs.iunlockput
  refine Prog.total_bind (h.iunlock hip howner) ?_
  rintro - s1 ⟨h1, hcache1, hblk1⟩
  have hip1 : s1.cache.Has ip n := hcache1 ▸ hip.own
  refine (h1.put hip1).mono ?_
  rintro - s2 ⟨h2, hcache2, hblk2⟩
  exact ⟨h2, by rw [hcache2, hcache1], hblk2.trans hblk1⟩

/-- A slot for the inode `n` is in the cache, or one is free. -/
def Cache.Room (w : Cache) (n : Nat) : Prop := (∃ i, w.ids i = (0, n)) ∨ ∃ i, w.counts i = 0

/-- `get_inode` -/
lemma Sound.take (h : Sound X s E v) (n : Nat) :
    (¬s.cache.Room n ∧ (runAs t (EasyFs.getInode n)).run s = .ok (none, s)) ∨
      s.cache.Room n ∧ ∃ i s', (runAs t (EasyFs.getInode n)).run s = .ok (some i, s') ∧
        Sound (insert i X) s' E v ∧ s.cache.Fits i n ∧ s'.cache = s.cache.take i n ∧
          s'.blk = s.blk := by
  have hsome := getInode_isSome (n := n) h.order
  cases hg : s.getInode n with
  | none =>
    have hexec : exec t (.getInode n) s = .ok (none, s) := by simp only [exec, hg]
    rw [hg] at hsome
    refine .inl ⟨fun hroom => ?_, Comp.run_bind_ok hexec _⟩
    have himpossible := hsome.mpr hroom
    cases himpossible
  | some r =>
    obtain ⟨i, s'⟩ := r
    have hexec : exec t (.getInode n) s = .ok (some i, s') := by simp only [exec, hg]
    rw [hg] at hsome
    obtain ⟨hs, htook⟩ := h.getInode hg
    refine .inr ⟨hsome.mp rfl, i, s', Comp.run_bind_ok hexec _, hs, htook.same, ?_, htook.blk⟩
    rw [Fs.cache, htook.ids, htook.counts, htook.owners]
    rfl

/-! ## Missing blocks -/

/-- How many blocks are missing on the way to the block of an inode that holds the offset. -/
def Fs.lacks (s : Fs) (d off : Nat) : Nat := need (diskTops s.blk) s.blk d (blockPath (off / bsize))

/-- The trees of all directories but `n` are as they were. -/
def SameTrees (v : Volume) (n : Nat) (s s' : Fs) : Prop :=
  ∀ d < tableSize, d ≠ n → v.IsDir d → ∀ off < 2 ^ 32, s'.lacks d off = s.lacks d off

lemma isPlace_of_isPrefix (h : isPlace path) (hpre : path' <+: path) :
    isPlace path' := by
  induction path using reverseRecOn with
  | nil => rwa [prefix_nil.mp hpre]
  | append_singleton path i ih =>
    rcases prefix_concat_iff.mp hpre with rfl | hpre
    · exact h
    · exact ih (isPlace_init h) hpre

lemma Sound.lacks_eq (h : Sound X s E v) (hn : n < tableSize) (hd : v.IsDir n)
    (hoff : off < 2 ^ 32) : s.lacks n off = need E s.blk n (blockPath (off / bsize)) :=
  need_congr fun _ hpre => nodeAt_of_tops (h.disk.dir n hn hd).1
    (isPlace_of_isPrefix (isPlace_blockPath (div_lt_maxfile hoff)) hpre)

lemma Sound.sameTrees (h : Sound X s E v) (h' : Sound X' s' E' v')
    (hdir : ∀ d, d ≠ n → v.IsDir d → v'.IsDir d)
    (hnode : ∀ d < tableSize, d ≠ n → ∀ path, isPlace path →
      nodeAt E' s'.blk d path = nodeAt E s.blk d path) : SameTrees v n s s' := by
  intro d hd hne hisDir off hoff
  rw [h'.lacks_eq hd (hdir d hne hisDir) hoff, h.lacks_eq hd hisDir hoff]
  exact need_congr fun path hpre =>
    hnode d hd hne path (isPlace_of_isPrefix (isPlace_blockPath (div_lt_maxfile hoff)) hpre)

lemma SameTrees.of_blk (h : s'.blk = s.blk) : SameTrees v n s s' := by
  intro d _ _ _ off _
  rw [Fs.lacks, Fs.lacks, h]

lemma Sound.lacks_eq_zero (h : Sound X s E v) (hn : n < tableSize) (hd : v.IsDir n)
    (ho : o < (v.info n).size) (hoff : off / bsize = o / bsize) : s.lacks n off = 0 := by
  have hlt := (h.disk.info_lt hn).2.2
  obtain ⟨a, ha⟩ := (h.disk.dir n hn hd).2 o (zero_le o) (by omega)
  obtain ⟨hbn, hat⟩ := dataNode_eq_some.mp ha
  have hneed : s.lacks n off = need E s.blk n (blockPath (off / bsize)) := need_congr fun _ hpre =>
    nodeAt_of_tops (h.disk.dir n hn hd).1
      (isPlace_of_isPrefix (isPlace_blockPath (hoff ▸ hbn)) hpre)
  rw [hneed, hoff, need, countP_eq_zero]
  intro k _ hnone
  rw [Option.isNone_iff_eq_none] at hnone
  rw [nodeAt_below ( take_prefix (k + 1) _) hnone] at hat
  cases hat

lemma Sound.lacks_new (h : Sound X s E v) (hn : n < tableSize) (hd : v.IsDir n)
    (hzero : ∀ i < 12, E n i = 0) : s.lacks n 0 = 1 := by
  rw [h.lacks_eq hn hd (by decide)]
  have hnone : nodeAt E s.blk n [0] = none := by
    rw [nodeAt_cons, if_pos (hzero 0 (by decide))]
  simp [need, blockPath, ndirect, hnone, range_succ]

/-! ## Saving -/

lemma Sound.iupdate (h : Sound X s E v) (hip : s.cache.Has ip n) (hpos : n ≠ 0) (hn : n < tableSize)
    (htops : E n = (s.slot ip).blocks) (hsize : (s.slot ip).size = (v.info n).size)
    (htype : (s.slot ip).type < 2 ^ 16)
    (hdir : v.marked n = true → (s.slot ip).type = vfsDir → v.IsDir n ∨ (v.info n).size = 0) :
    Total (runAs t (EasyFs.iupdate ip)) s fun _ s' => Sound (X \ {ip}) s' E
        (v.put n ⟨(s.slot ip).type, (s.slot ip).nlinks % 2 ^ 16, (v.info n).size⟩ (v.byte n)) ∧
      s'.cache = s.cache ∧ freeCount s'.blk = freeCount s.blk ∧ SameTrees v n s s' := by
  have hlt := (h.disk.info_lt hn).2.2
  have hinfo : (s.slot ip).diskInfo =
      ⟨(s.slot ip).type, (s.slot ip).nlinks % 2 ^ 16, (v.info n).size⟩ := by
    rw [Slot.diskInfo, mod_eq_of_lt htype, hsize, mod_eq_of_lt hlt]
  have hbyte : byteAt E s.blk n = v.byte n := funext (h.disk.byte n hn)
  have hsave := h.disk.save hn h.disk.owned.grow.changed hip.ino htops.symm
    (fun hm ht => by
      rw [hinfo] at ht ⊢
      rcases hdir hm ht with hd | hz
      · exact (h.disk.dir n hn hd).2
      · rw [hz]
        exact covered_zero 0)
    (fun hm => by
      rw [hinfo]
      exact h.disk.free n hn hm)
  rw [hinfo, hbyte] at hsave
  have hset := h.set (X \ {ip}) (s.slot ip) hip.dev rfl rfl hsave
    (fun m hm => ⟨rfl, put_info_of_ne _ _ _ (hip.ino ▸ hm)⟩)
    (fun j hj => by
      by_cases hji : j = ip
      · exact .inl hji
      · exact .inr fun hjX => hj ⟨hjX, hji⟩)
    (fun _ _ => by
      refine ⟨hip.ino ▸ hpos, hip.ino ▸ hn, hip.ino ▸ htops, ?_, ?_, ?_⟩
      · rw [hip.ino, put_info_self]
      · rw [hip.ino, put_info_self]
      · rw [hip.ino, put_info_self]
        exact hsize)
  rw [update_eq_self] at hset
  have hnode := (h.disk.owned.congr fun b hb =>
    saved_of_data s.blk (s.slot ip) (hip.ino ▸ hn) hb).2.1
  exact ⟨(), _, run_iupdate (h.quiet _), hset, rfl, freeCount_saved,
    h.sameTrees hset (fun d hne => (put_isDir_of_ne _ _ _ hne).mpr) fun d hd _ => hnode d hd⟩

lemma Sound.edit (h : Sound X s E v) (hip : s.cache.Has ip n) (f : Slot → Slot)
    (he : ((f (s.slot ip)).dev, (f (s.slot ip)).ino) = s.ids ip)
    (hcount : (f (s.slot ip)).count = (s.slot ip).count)
    (howner : (f (s.slot ip)).owner = (s.slot ip).owner) :
    Sound (insert ip X) (s.setSlot ip (f (s.slot ip))) E v ∧
      (s.setSlot ip (f (s.slot ip))).cache = s.cache := by
  refine ⟨h.set _ _ hip.dev he hcount h.disk (fun _ _ => ⟨rfl, rfl⟩) (fun _ hj =>
    .inr fun hjX => hj (.inr hjX))
    fun hi _ => absurd (.inl rfl) hi, (cache_setSlot he hcount).trans ?_⟩
  exact Cache.own_self howner.symm

lemma Sound.setInfo (h : Sound ∅ s E v) (hip : s.cache.Has ip n) (type nlinks : Slot → Nat)
    (htype : type (s.slot ip) < 2 ^ 16)
    (hdir : v.marked n = true → type (s.slot ip) = vfsDir → v.IsDir n ∨ (v.info n).size = 0) :
    Total (runAs t (do
        EasyFs.edit ip fun e => { e with type := type e, nlinks := nlinks e }
        EasyFs.iupdate ip)) s fun _ s' => Sound ∅ s' E
        (v.put n ⟨type (s.slot ip), nlinks (s.slot ip) % 2 ^ 16, (v.info n).size⟩ (v.byte n)) ∧
      s'.cache = s.cache ∧ freeCount s'.blk = freeCount s.blk ∧ SameTrees v n s s' := by
  have hX : ip ∉ (∅ : Set SlotId) := Set.notMem_empty ip
  obtain ⟨hs, hcache⟩ :=
    h.edit hip (fun e => { e with type := type e, nlinks := nlinks e }) rfl rfl rfl
  refine Prog.total_bind_ok (run_edit _) ?_
  refine (hs.iupdate (hcache ▸ hip) (h.pos hX hip) (h.lt hX hip) ?_ ?_ ?_ ?_).mono ?_
  · simpa using h.tops hX hip
  · simpa using h.size hX hip
  · simpa using htype
  · simpa using hdir
  · rintro - s' ⟨h', hcache', hfree, htrees⟩
    simp only [Fs.setSlot_slot, update_self] at h'
    refine ⟨?_, hcache'.trans hcache, hfree, htrees⟩
    simpa using h'

/-! ## Writing -/

lemma Sound.stored (h : Sound X s E v) (hX : ip ∉ X) (hip : s.cache.Has ip n)
    (hmark : v.marked n = true) (stop : Nat) (hg : Grow table n E s.blk E' blk' f k)
    (hstop : max (v.info n).size stop < 2 ^ 32)
    (hcov : v.IsDir n → Covered E' blk' n 0 (max (v.info n).size stop)) :
    Sound X (s.stored ip ((s.slot ip).written (E' n) stop) blk') E'
        (v.put n { v.info n with size := max (v.info n).size stop } f) ∧
      (s.stored ip ((s.slot ip).written (E' n) stop) blk').cache = s.cache ∧
      freeCount s.blk = freeCount (s.stored ip ((s.slot ip).written (E' n) stop) blk').blk + k ∧
      SameTrees v n s (s.stored ip ((s.slot ip).written (E' n) stop) blk') := by
  have hn := h.lt hX hip
  have hlt := h.disk.info_lt hn
  set e := (s.slot ip).written (E' n) stop with he
  have hsize : e.size = max (v.info n).size stop := by rw [he, Slot.written, h.size hX hip]
  have htype : e.type = (v.info n).type := h.type hX hip
  have hinfo : e.diskInfo = { v.info n with size := max (v.info n).size stop } := by
    have hlinks : e.nlinks % 2 ^ 16 = (v.info n).nlinks := h.nlinks hX hip
    rw [Slot.diskInfo, hlinks, htype, hsize, mod_eq_of_lt hlt.1, mod_eq_of_lt hstop]
  have hsave := h.disk.save hn hg.changed (show e.ino = n from hip.ino) rfl
    (fun hm ht => by
      rw [hinfo] at ht ⊢
      exact hcov ⟨hm, ht⟩)
    (fun hm => by
      rw [hmark] at hm
      cases hm)
  rw [hinfo, funext hg.byte] at hsave
  have hset := h.set X e hip.dev rfl rfl hsave
    (fun m hm => ⟨hg.tops m (hip.ino ▸ hm), put_info_of_ne _ _ _ (hip.ino ▸ hm)⟩)
    (fun j hj => .inr hj)
    (fun _ _ => by
      have hino : e.ino = n := hip.ino
      refine ⟨hino ▸ h.pos hX hip, hino ▸ hn, hino ▸ rfl, ?_, ?_, ?_⟩
      · rw [hino, put_info_self]
        exact htype
      · rw [hino, put_info_self]
        exact h.nlinks hX hip
      · rw [hino, put_info_self]
        exact hsize)
  have hnode := (hg.owned.congr fun b hb => saved_of_data blk' e (hip.ino ▸ hn) hb).2.1
  refine ⟨hset, ?_, ?_, h.sameTrees hset (fun d hne => (put_isDir_of_ne _ _ _ hne).mpr) ?_⟩
  · exact (cache_setSlot (s := s) (i := ip) (e := e) rfl rfl).trans (Cache.own_self rfl)
  · rw [hg.count]
    exact congrArg (· + k) freeCount_saved.symm
  · exact fun d hd hne path hp => (hnode d hd path hp).trans (hg.others d hd hne path hp)

lemma Sound.writeEntry (h : Sound X s E v) (hX : ip ∉ X) (hip : s.cache.Has ip n) (hd : v.IsDir n)
    (hlen : data.length = 32) (hk : 32 * k ≤ (v.info n).size) (hend : 32 * k + 32 < 2 ^ 32) :
    Total (runAs t (writeInode ip (32 * k) data)) s fun r s' => s'.cache = s.cache ∧
      SameTrees v n s s' ∧
      (∀ j, j ≠ ip → s'.slot j = s.slot j) ∧
      ((s.lacks n (32 * k) ≤ freeCount s.blk ∧ r = some 32 ∧
          freeCount s.blk = freeCount s'.blk + s.lacks n (32 * k) ∧
          ∃ E', Sound X s' E' (v.put n { v.info n with size := max (v.info n).size (32 * k + 32) }
            (copyIn (v.byte n) (32 * k) data))) ∨
        (freeCount s.blk < s.lacks n (32 * k) ∧ r = some 0 ∧ ∃ E', Sound X s' E' v)) := by
  have hn := h.lt hX hip
  have hlt := (h.disk.info_lt hn).2.2
  have hbyte : byteAt E s.blk n = v.byte n := funext (h.disk.byte n hn)
  have hcovered := (h.disk.dir n hn hd).2
  have hspec := @writeInode_block _ _ _ _ _ t _ data h.disk.owned hn (h.tops hX hip) h.quiet
    (show 32 * k + data.length < 2 ^ 32 by omega) (by omega) (by
      simp only [bsize]
      omega)
  rw [← h.lacks_eq hn hd (show 32 * k < 2 ^ 32 by omega), hlen, hbyte] at hspec
  refine hspec.mono ?_
  rintro r s' ⟨E', blk', l, got, rfl, rfl, hgrow, hcov, hgot, hcount⟩
  have hstored := h.stored hX hip hd.1 (32 * k + got) hgrow
  have hslots : ∀ j, j ≠ ip →
      (s.stored ip ((s.slot ip).written (E' n) (32 * k + got)) blk').slot j = s.slot j :=
    fun j hj => update_of_ne hj ..
  have hcov' : Covered E' blk' n 0 (max (v.info n).size (32 * k + got)) := by
    intro o _ ho
    by_cases hin : o < (v.info n).size
    · obtain ⟨a, ha⟩ := hcovered o (zero_le o) (by omega)
      obtain ⟨hbn, hat⟩ := dataNode_eq_some.mp ha
      exact ⟨a, dataNode_eq_some.mpr ⟨hbn, hgrow.node _ (isPlace_blockPath hbn) _ hat⟩⟩
    · exact hcov o (by omega) (by omega)
  by_cases hroom : s.lacks n (32 * k) ≤ freeCount s.blk
  · rw [if_pos hroom] at hgot
    subst hgot
    obtain ⟨hs, hcache, hfree, htrees⟩ := hstored (by omega) fun _ => hcov'
    rw [take_of_length_le (by omega)] at hs
    exact ⟨hcache, htrees, hslots, .inl ⟨hroom, rfl, hcount hroom ▸ hfree, E', hs⟩⟩
  · rw [if_neg hroom] at hgot
    subst hgot
    obtain ⟨hs, hcache, hfree, htrees⟩ := hstored (by omega) fun _ => hcov'
    rw [add_zero, max_eq_left hk, take_zero, copyIn_nil, put_self] at hs
    exact ⟨hcache, htrees, hslots, .inr ⟨by omega, rfl, E', hs⟩⟩

/-! ## Freeing -/

lemma Sound.itrunc (h : Sound X s E v) (hip : s.cache.Has ip n) (hpos : n ≠ 0) (hn : n < tableSize)
    (htops : E n = (s.slot ip).blocks) (htype : (s.slot ip).type < 2 ^ 16) :
    Total (runAs t (EasyFs.itrunc ip 0)) s fun r s' => r = true ∧ s'.cache = s.cache ∧
      ∃ E', Sound (X \ {ip}) s' E'
          (v.put n ⟨(s.slot ip).type, (s.slot ip).nlinks % 2 ^ 16, 0⟩ fun _ => 0) ∧
        s'.slot ip = { s.slot ip with blocks := E' n, size := 0 } ∧ ∀ i < 12, E' n i = 0 := by
  refine (itrunc_spec (t := t) h.disk.owned hn htops h.quiet).mono ?_
  rintro r s' ⟨rfl, E', blk', rfl, hcut, hzero⟩
  set e : Slot := { s.slot ip with blocks := E' n, size := 0 } with he
  have hinfo : e.diskInfo = ⟨(s.slot ip).type, (s.slot ip).nlinks % 2 ^ 16, 0⟩ := by
    rw [Slot.diskInfo, he]
    dsimp only
    rw [mod_eq_of_lt htype, zero_mod]
  have hbyte : byteAt E' blk' n = fun _ => 0 := funext fun o =>
    byteAt_of_top (hzero _ (topIndex_lt _))
  have hsave := h.disk.save hn hcut.changed (show e.ino = n from hip.ino) rfl
    (fun _ _ => by
      rw [hinfo]
      exact covered_zero 0)
    (fun _ => by
      rw [hinfo]
      exact ⟨rfl, hzero⟩)
  rw [hinfo, hbyte] at hsave
  have hset := h.set (X \ {ip}) e hip.dev rfl rfl hsave
    (fun m hm => ⟨hcut.tops m (hip.ino ▸ hm), put_info_of_ne _ _ _ (hip.ino ▸ hm)⟩)
    (fun j hj => by
      by_cases hji : j = ip
      · exact .inl hji
      · exact .inr fun hjX => hj ⟨hjX, hji⟩)
    (fun _ _ => by
      have hino : e.ino = n := hip.ino
      refine ⟨hino ▸ hpos, hino ▸ hn, hino ▸ rfl, ?_, ?_, ?_⟩ <;> rw [hino, put_info_self])
  exact ⟨rfl, (cache_setSlot (s := s) (i := ip) (e := e) rfl rfl).trans (Cache.own_self rfl),
    E', hset,
    update_self .., hzero⟩

lemma Sound.ifree (h : Sound X s E v) (hip : s.cache.Has ip n) (hpos : n ≠ 0) (hn : n < tableSize)
    (hsize : (v.info n).size = 0) (hzero : ∀ i < 12, E n i = 0) :
    Total (runAs t (EasyFs.ifree n)) s fun _ s' => s'.cache = s.cache ∧ s'.slot = s.slot ∧
      Sound (insert ip X) s' E ((v.mark n false).put n ⟨0, 0, 0⟩ (v.byte n)) := by
  have hq := h.quiet
  have hrun : (runAs t (EasyFs.ifree n)).run s = .ok ((), { s with
      blk := erased (update s.blk inoblkBmip ((s.blk inoblkBmip).clearBit n)) n }) := by
    unfold EasyFs.ifree
    have hq' : (s.setBlk inoblkBmip ((s.blk inoblkBmip).clearBit n)).busy (tableBlock n) =
      false := hq _
    have hlt : ¬bsize ≤ n / 8 := by
      simp only [bsize, tableSize, dataBlock, inodeBlock] at *
      omega
    rw [if_neg hpos, Prog.run_bind_ok (run_bread (hq _)), if_neg hlt,
      Prog.run_bind_ok (run_bwrite _), Prog.run_bind_ok run_brelse, setBusy_setBlk_setBusy (hq _),
      Prog.run_bind_ok run_touch, Prog.run_bind_ok (run_bread hq'), Prog.run_bind_ok (run_bwrite _),
      run_brelse, setBusy_setBlk_setBusy hq']
    rfl
  have hdisk := (h.disk.unmark hsize hzero).erase hn (mark_marked_self ..)
  have hset := h.set (insert ip X) (s.slot ip) hip.dev rfl rfl hdisk
    (fun m hm => ⟨rfl, put_info_of_ne _ _ _ (hip.ino ▸ hm)⟩)
    (fun j hj => .inr fun hjX => hj (.inr hjX)) (fun hi => absurd (.inl rfl) hi)
  rw [update_eq_self] at hset
  exact ⟨(), _, hrun, rfl, rfl, hset⟩

/-! ## Allocating -/

/-- The number that `ialloc` takes. -/
def Volume.firstFree (v : Volume) : Option Nat :=
  (List.range (bsize * 8)).find? fun n => n ≠ 0 ∧ v.marked n = false

lemma firstFree_eq_some (h : v.firstFree = some n) : n ≠ 0 ∧ v.marked n = false := by
  simpa using find?_some h

lemma Sound.firstFree_eq (h : Sound X s E v) : firstFreeInode (s.blk inoblkBmip) = v.firstFree := by
  unfold firstFreeInode firstFree
  congr 1
  funext n
  rw [h.disk.marked n]

lemma Sound.mark (h : Sound X s E v) (hfree : v.marked n = false) :
    Sound X (s.setBlk inoblkBmip ((s.blk inoblkBmip).setBit n)) E (v.mark n true) ∧
      SameTrees v n s (s.setBlk inoblkBmip ((s.blk inoblkBmip).setBit n)) := by
  have hdisk := h.disk.mark hfree
  have hs : Sound X (s.setBlk inoblkBmip ((s.blk inoblkBmip).setBit n)) E (v.mark n true) :=
    ⟨h.quiet, hdisk, h.order, h.unique, fun i hi hc hdev =>
      have hold := h.cached i hi hc hdev
      ⟨hold.pos, hold.table, hold.tops, hold.type, hold.nlinks, hold.size⟩⟩
  refine ⟨hs, h.sameTrees hs (fun d hne hd => ⟨?_, hd.2⟩) fun d hd _ => ?_⟩
  · rw [mark_marked_of_ne _ _ hne]
    exact hd.1
  · refine (h.disk.owned.congr fun c hc => update_of_ne ?_ ..).2.1 d hd
    rcases hc with rfl | hc <;> grind [inoblkBmip, dablkBmip, dataBlock]

lemma run_ialloc (hq : s.busy inoblkBmip = false) :
    (firstFreeInode (s.blk inoblkBmip) = none ∧ (runAs t EasyFs.ialloc).run s = .ok (none, s)) ∨
      ∃ n, firstFreeInode (s.blk inoblkBmip) = some n ∧ (runAs t EasyFs.ialloc).run s =
        (runAs t (EasyFs.getInode n)).run (s.setBlk inoblkBmip ((s.blk inoblkBmip).setBit n)) := by
  have hwhen :
    (runAs t (Prog.when (!(s.blk inoblkBmip).bit 0) (bwrite inoblkBmip (s.blk inoblkBmip)))).run
      (s.setBusy inoblkBmip true) = .ok ((), s.setBusy inoblkBmip true) := by
    have hsame : (s.setBusy inoblkBmip true).setBlk inoblkBmip (s.blk inoblkBmip) =
        s.setBusy inoblkBmip true := by
      simp [Fs.setBlk, Fs.setBusy]
    unfold Prog.when
    split
    · rw [run_bwrite, hsame]
    · rfl
  unfold EasyFs.ialloc
  rw [Prog.run_bind_ok (run_bread hq), Prog.run_bind_ok hwhen]
  cases firstFreeInode (s.blk inoblkBmip) with
  | none => exact .inl ⟨rfl, by rw [Prog.run_bind_ok run_brelse, setBusy_setBusy hq]; rfl⟩
  | some n =>
    refine .inr ⟨n, rfl, ?_⟩
    change (runAs t (do
      bwrite inoblkBmip ((s.blk inoblkBmip).setBit n)
      brelse inoblkBmip
      EasyFs.getInode n)).run _ = _
    rw [Prog.run_bind_ok (run_bwrite _), Prog.run_bind_ok run_brelse, setBusy_setBlk_setBusy hq]

/-- `ialloc` takes the first free number, also when there is no slot for its inode. -/
lemma Sound.ialloc (h : Sound ∅ s E v) :
    Total (runAs t EasyFs.ialloc) s fun r s' => SameTrees v (v.firstFree.getD 0) s s' ∧
      freeCount s'.blk = freeCount s.blk ∧
      ((v.firstFree = none ∧ r = none ∧ s' = s) ∨ ∃ n, v.firstFree = some n ∧
        ((¬s.cache.Room n ∧ r = none ∧ s'.cache = s.cache ∧ Sound ∅ s' E (v.mark n true)) ∨
          (s.cache.Room n ∧ ∃ i, r = some i ∧ s.cache.Fits i n ∧ s'.cache = s.cache.take i n ∧
            Sound {i} s' E (v.mark n true)))) := by
  have hrun := run_ialloc (t := t) (h.quiet inoblkBmip)
  rw [h.firstFree_eq] at hrun
  rcases hrun with ⟨hnone, hrun⟩ | ⟨n, hsome, hrun⟩
  · exact ⟨_, _, hrun, .of_blk rfl, rfl, .inl ⟨hnone, rfl, rfl⟩⟩
  · obtain ⟨hs, htrees⟩ := h.mark (firstFree_eq_some hsome).2
    have hcount : freeCount (s.setBlk inoblkBmip ((s.blk inoblkBmip).setBit n)).blk =
      freeCount s.blk := by
      unfold freeCount
      rw [Fs.setBlk_blk, update_of_ne (by decide)]
    rcases hs.take (t := t) n with ⟨hroom, hget⟩ | ⟨hroom, i, s', hget, hs', hfits, hcache, hblk⟩
    · refine ⟨_, _, hrun.trans hget, ?_, hcount, .inr ⟨n, hsome, .inl ⟨hroom, rfl, rfl, hs⟩⟩⟩
      rw [hsome]
      exact htrees
    · refine ⟨_, _, hrun.trans hget, ?_, by rw [hblk, hcount],
        .inr ⟨n, hsome, .inr ⟨hroom, i, rfl, hfits, hcache, ?_⟩⟩⟩
      · rw [hsome]
        intro d hd hne hdir off hoff
        rw [Fs.lacks, hblk]
        exact htrees d hd hne hdir off hoff
      · simpa using hs'

/-! ## The volume of a state -/

/-- The volume that the disk spells. -/
def Fs.volume (s : Fs) : Volume where
  marked n := (s.blk inoblkBmip).bit n
  info n := (onDisk s.blk n).info
  byte := byteAt (diskTops s.blk) s.blk

/-- The volumes are the same up to numbers that are outside of the table. -/
structure Volume.Agree (v v' : Volume) : Prop where
  marked : v'.marked = v.marked
  info : ∀ n < tableSize, v'.info n = v.info n
  byte : ∀ n < tableSize, v'.byte n = v.byte n

lemma Volume.Agree.isDir (h : v.Agree v') (hn : n < tableSize) : v'.IsDir n ↔ v.IsDir n := by
  rw [Volume.IsDir, Volume.IsDir, h.marked, h.info n hn]

lemma Sound.agree (h : Sound X s E v) (hv : v.Agree v') : Sound X s E v' where
  quiet := h.quiet
  disk := by
    refine ⟨h.disk.owned, h.disk.backed, fun n => ?_, fun n hn => ?_, fun n hn o =>
      ?_, fun n hn hd => ?_,
      fun n hn hf => ?_⟩
    · rw [hv.marked]
      exact h.disk.marked n
    · rw [hv.info n hn]
      exact h.disk.info n hn
    · rw [hv.byte n hn]
      exact h.disk.byte n hn o
    · rw [hv.info n hn]
      exact h.disk.dir n hn ((hv.isDir hn).mp hd)
    · rw [hv.info n hn]
      exact h.disk.free n hn (hv.marked ▸ hf)
  order := h.order
  unique := h.unique
  cached i hi hc hdev := by
    have hold := h.cached i hi hc hdev
    have hinfo := hv.info _ hold.table
    exact ⟨hold.pos, hold.table, hold.tops, hinfo ▸ hold.type, hinfo ▸ hold.nlinks,
      hinfo ▸ hold.size⟩

lemma Sound.agree_volume (h : Sound X s E v) : v.Agree s.volume where
  marked := funext h.disk.marked
  info := h.disk.info
  byte n hn := by
    funext o
    rw [← h.disk.byte n hn o, ← (h.disk.owned.reload (h.disk.backed n hn)).2.1 n hn o]
    exact byteAt_of_tops (fun i _ => by rw [update_self]; rfl) o

lemma Sound.volume (h : Sound X s E v) : Sound X s E s.volume := h.agree h.agree_volume

end FrostVista.EasyFs
