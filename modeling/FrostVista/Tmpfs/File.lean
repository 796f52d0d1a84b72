import FrostVista.Tmpfs.Pages

/-!
# tmpfs: reading, writing and truncating a file

What the three operations do to the bytes of the file, to its size and to its pages. A write stops
at the first page that cannot be allocated; which page that is follows from the pages that are
missing on the way to the pages of the range and from the length of the free list.
-/
namespace FrostVista.Tmpfs

open Lib Lib.Radix Lib.BlockTree List Bytes Nat

variable {m m' : Mem} {path : List Nat} {i p a bn off size : Nat} {q : Node} {data : List Byte}

/-! ## Truncating -/

/-- One page without pages below it goes back to the free list. -/
def FreesPage (m m' : Mem) : Prop :=
  ∃ path i q, Owned m ∧ Place (path ++ [i]) ∧ nodeAt m path = some q ∧
    (∀ j, Place (path ++ [i] ++ [j]) → nodeAt m (path ++ [i] ++ [j]) = none) ∧ m' = freeEntry q i m

/-- The nodes at the places of `gone` have been freed, page by page. -/
structure Frees (m : Mem) (gone : List Nat → Prop) (m' : Mem) : Prop extends Cut m gone m' where
  steps : Relation.ReflTransGen FreesPage m m'

variable {gone gone' : List Nat → Prop} {c o : Nat} {f : Nat → Byte}

lemma Frees.trans (h : Frees m gone m1)
    (h' : Frees m1 gone' m2) : Frees m (fun path => gone path ∨ gone' path) m2 :=
  ⟨h.toCut.trans h'.toCut, h.steps.trans h'.steps⟩

lemma Frees.of_iff (h : Frees m gone m')
    (hiff : ∀ path, Place path → nodeAt m path ≠ .none → (gone path ↔ gone' path)) :
    Frees m gone' m' :=
  ⟨h.toCut.of_iff hiff, h.steps⟩

section
variable (h : Owned m)
include h

lemma Owned.frees_refl : Frees m (fun _ => False) m := ⟨h.cut_refl, .refl⟩

lemma Owned.frees_entry (hp : Place (path ++ [i])) (hd : nodeAt m path = some q)
    (hleaf : ∀ j, Place (path ++ [i] ++ [j]) → nodeAt m (path ++ [i] ++ [j]) = none) :
    Frees m (· = path ++ [i]) (Tmpfs.freeEntry q i m) :=
  ⟨h.freeEntry hp hd hleaf, .single ⟨path, i, q, h, hp, hd, hleaf, rfl⟩⟩

lemma Owned.freeEntries (hp : Place path) (hd : nodeAt m path = some q) {n : Nat}
    (hplace : ∀ j < n, Place (path ++ [j])) (hleaf : ∀ j < n, ∀ k, ¬Place (path ++ [j] ++ [k])) :
    Frees m (fun x => ∃ j < n, x = path ++ [j]) (freeEntries q n m) := by
  induction n with
  | zero => exact h.frees_refl.of_iff fun x _ _ =>
      ⟨False.elim, fun ⟨j, hj, _⟩ => absurd hj (not_lt_zero j)⟩
  | succ n ih =>
    have hcut := ih (fun j hj => hplace j (by omega)) fun j hj => hleaf j (by omega)
    have hkept : nodeAt (Tmpfs.freeEntries q n m) path = some q := by
      rw [hcut.same path hp, hd]
      rintro ⟨j, -, hj⟩
      exact absurd (congrArg length hj) (by simp)
    refine (hcut.trans (hcut.owned.frees_entry (hplace n (by omega)) hkept fun k hk =>
      absurd hk (hleaf n (by omega) k))).of_iff fun x _ _ => exists_lt_succ_right.symm

lemma Owned.freeIndex (hp : Place (path ++ [i])) (hd : nodeAt m path = some q)
    (hne : m.entry q i ≠ 0) (hplace : ∀ j < nindirect, Place (path ++ [i] ++ [j]))
    (hbound : ∀ j, Place (path ++ [i] ++ [j]) → j < nindirect)
    (hleaf : ∀ j k, ¬Place (path ++ [i] ++ [j] ++ [k])) : Frees m (path ++ [i] <+: ·)
      (Tmpfs.freeEntry q i (Tmpfs.freeEntries (.page (m.entry q i)) nindirect m)) := by
  have hchild : nodeAt m (path ++ [i]) = some (.page (m.entry q i)) := by
    rw [nodeAt_snoc, hd, Option.bind_some, follow_of_ne hne]
  have hcut := h.freeEntries hp hchild hplace fun j _ => hleaf j
  have hkept : nodeAt (Tmpfs.freeEntries (.page (m.entry q i)) nindirect m) path = some q := by
    rw [hcut.same path hp.init, hd]
    rintro ⟨j, -, hj⟩
    exact absurd (congrArg length hj) (by simp)
  have hcut' := hcut.owned.frees_entry hp hkept fun j hj => hcut.none _ hj ⟨j, hbound j hj, rfl⟩
  refine (hcut.trans hcut').of_iff fun x hx _ => ?_
  constructor
  · rintro (⟨j, -, rfl⟩ | rfl)
    · exact prefix_append ..
    · exact prefix_rfl
  · rintro ⟨rest, rfl⟩
    match rest with
    | [] => exact .inr (by simp)
    | [j] => exact .inl ⟨j, hbound j hx, rfl⟩
    | j :: k :: rest =>
      refine absurd ?_ (hleaf j k)
      exact hx.initial ⟨rest, by simp⟩

lemma Owned.freeIndirects (hd : nodeAt m [ndirect + 1] = some (.page p))
    (hn : n ≤ nindirect) : Frees m (fun x => ∃ j < n, [ndirect + 1, j] <+: x)
    (freeIndirects p n m) := by
  have hp : Place [ndirect + 1] := lt_succ_self _
  induction n with
  | zero => exact h.frees_refl.of_iff fun x _ _ =>
      ⟨False.elim, fun ⟨j, hj, _⟩ => absurd hj (not_lt_zero j)⟩
  | succ n ih =>
    have hcut := ih (by omega)
    have hkept : nodeAt (Tmpfs.freeIndirects p n m) [ndirect + 1] = some (.page p) := by
      rw [hcut.same _ hp, hd]
      rintro ⟨j, -, hj⟩
      exact absurd hj.length_le (by simp)
    have hstep : Frees (Tmpfs.freeIndirects p n m) ([ndirect + 1, n] <+: ·)
        (Tmpfs.freeIndirects p (n + 1) m) := by
      have hplace : Place ([ndirect + 1] ++ [n]) := ⟨le_succ _, lt_succ_self _, by omega⟩
      simp only [Tmpfs.freeIndirects]
      split
      · rename_i hzero
        refine hcut.owned.frees_refl.of_iff fun x _ hne => ⟨False.elim, fun hpre => hne ?_⟩
        obtain ⟨rest, rfl⟩ := hpre
        refine nodeAt_below (show nodeAt _ ([ndirect + 1] ++ [n]) = none from ?_)
        rw [nodeAt_snoc, hkept, Option.bind_some, hzero, follow_zero]
      · rename_i hne
        have hbelow : ∀ j, Place ([ndirect + 1] ++ [n] ++ [j]) ↔ j < nindirect := fun j =>
          ⟨fun hj => hj.2.2, fun hj => ⟨rfl, hn, hj⟩⟩
        exact hcut.owned.freeIndex hplace hkept hne (fun j => (hbelow j).mpr)
          (fun j => (hbelow j).mp)
          fun j k hk => hk
    exact (hcut.trans hstep).of_iff fun x _ _ => exists_lt_succ_right.symm

lemma Owned.frees_zero (hzero : m.entry .inode i = 0) : Frees m ([i] <+: ·) m := by
  refine h.frees_refl.of_iff fun x _ hne => ⟨False.elim, ?_⟩
  rintro ⟨rest, rfl⟩
  exact hne (nodeAt_below (by rw [nodeAt_single, hzero, follow_zero]))

lemma Owned.freeSingle : Frees m ([ndirect] <+: ·) (freeSingle m) := by
  unfold Tmpfs.freeSingle
  by_cases hzero : m.entry .inode ndirect = 0
  · rw [if_pos hzero]
    exact h.frees_zero hzero
  · rw [if_neg hzero]
    have hplace : Place ([] ++ [ndirect]) := (by omega : ndirect < ndirect + 2)
    have hbelow : ∀ j, Place ([] ++ [ndirect] ++ [j]) ↔ j < nindirect := fun j =>
      ⟨fun hj => hj.2.2, fun hj => ⟨le_rfl, by omega, hj⟩⟩
    refine h.freeIndex hplace rfl hzero (fun j => (hbelow j).mpr) (fun j => (hbelow j).mp) ?_
    rintro j k ⟨hd, -⟩
    omega

lemma Owned.freeDouble : Frees m ([ndirect + 1] <+: ·) (freeDouble m) := by
  unfold Tmpfs.freeDouble
  by_cases hzero : m.entry .inode (ndirect + 1) = 0
  · rw [if_pos hzero]
    exact h.frees_zero hzero
  · rw [if_neg hzero]
    have hplace : Place ([] ++ [ndirect + 1]) := lt_succ_self _
    have hnode : nodeAt m [ndirect + 1] = some (.page (m.entry .inode (ndirect + 1))) := by
      rw [nodeAt_single, follow_of_ne hzero]
    have hcut := h.freeIndirects hnode le_rfl
    have hcut' := hcut.owned.frees_entry hplace rfl fun j hj =>
      hcut.none _ hj ⟨j, hj.2.2, prefix_rfl⟩
    refine (hcut.trans hcut').of_iff fun x hx _ => ?_
    constructor
    · rintro (⟨j, -, hpre⟩ | rfl)
      · exact (prefix_append [ndirect + 1] [j]).trans hpre
      · exact prefix_rfl
    · rintro ⟨rest, rfl⟩
      cases rest with
      | nil => exact .inr rfl
      | cons j rest =>
        have hj : Place [ndirect + 1, j] := hx.initial ⟨rest, rfl⟩
        exact .inl ⟨j, hj.2.2, ⟨rest, rfl⟩⟩

/-- `tmpfs_free_blocks` frees every page of the file. -/
lemma Owned.frees_blocks : Frees m (· ≠ []) (Tmpfs.freeBlocks m) := by
  have hdirect : Frees m (fun x => ∃ j < ndirect, x = [] ++ [j])
    (Tmpfs.freeEntries .inode ndirect m) := by
    refine @Owned.freeEntries _ [] _ h trivial rfl _ (fun j hj => (by omega : j < ndirect + 2)) ?_
    rintro j hj k ⟨hle, -⟩
    omega
  have hcut := (hdirect.trans hdirect.owned.freeSingle).trans
    (hdirect.trans hdirect.owned.freeSingle).owned.freeDouble
  refine hcut.of_iff fun path hp _ => ⟨?_, fun hne => ?_⟩
  · rintro ((⟨j, -, rfl⟩ | ⟨rest, rfl⟩) | ⟨rest, rfl⟩) <;> simp
  obtain ⟨i, rest, rfl⟩ := exists_cons_of_ne_nil hne
  have hi : i < ndirect + 2 := (levels ndirect nindirect).head hp
  by_cases hlast : i = ndirect + 1
  · exact .inr ⟨rest, by rw [hlast]; rfl⟩
  by_cases hfirst : i = ndirect
  · exact .inl (.inr ⟨rest, by rw [hfirst]; rfl⟩)
  -- the direct pages have nothing below
  cases rest with
  | nil => exact .inl (.inl ⟨i, by omega, rfl⟩)
  | cons j rest =>
    have hj : Place [i, j] := hp.initial ⟨rest, rfl⟩
    have := hj.1
    omega

lemma Owned.freeBlocks :
    Owned (freeBlocks m) ∧ ∀ path, Place path → path ≠ [] → nodeAt (freeBlocks m) path = none :=
  ⟨h.frees_blocks.owned, h.frees_blocks.none⟩

/-- `tmpfs_vfs_truncate` leaves an empty file. -/
lemma Owned.truncate : ∃ m', vfsTruncate 0 m = (true, m') ∧ Owned m' ∧ m'.size = 0 ∧
    ∀ path, Place path → path ≠ [] → nodeAt m' path = none := by
  obtain ⟨howned, hnone⟩ := h.freeBlocks
  refine ⟨{ Tmpfs.freeBlocks m with size := 0 }, by simp [vfsTruncate], howned.withSize 0, rfl, ?_⟩
  intro path hp hne
  rw [nodeAt_withSize, hnone path hp hne]

end

/-! ## Reading -/

/-- The page of an offset has been allocated. -/
def Present (m : Mem) (o : Nat) : Prop := ∃ a, dataPage m (o / pgsize) = some (.page a)

lemma div_lt_maxfile (h : off < maxfile * pgsize) : off / pgsize < maxfile :=
  (div_lt_iff_lt_mul (by decide)).mpr h

lemma lt_of_div_lt_maxfile (h : off / pgsize < maxfile) : off < maxfile * pgsize :=
  (div_lt_iff_lt_mul (by decide)).mp h

lemma readLoop_spec (fuel : Nat) {total : Nat} {out : List Byte} (hfuel : total - off ≤ fuel)
    (htotal : total ≤ maxfile * pgsize) :
    ∃ got ≤ total - off, readLoop fuel off total out m = (out ++ copyOut (byteAt m) off got, m) ∧
      (∀ o, off ≤ o → o < off + got → Present m o) ∧
        (got < total - off → ¬Present m (off + got)) := by
  induction fuel generalizing off out with
  | zero => exact ⟨0, by omega, by simp [readLoop, copyOut], by omega, by omega⟩
  | succ fuel ih =>
    by_cases hdone : total ≤ off
    · exact ⟨0, by omega, by simp [readLoop, hdone, copyOut], by omega, by omega⟩
    · have hbn : off / pgsize < maxfile := div_lt_maxfile (by omega)
      rcases bmap_false (m := m) hbn with ⟨a, hpos, hbmap, hpage⟩ | ⟨hbmap, hpage⟩
      · set len := min (pgsize - off % pgsize) (total - off) with hlen
        have hmod : off % pgsize < pgsize := mod_lt _ (by decide)
        have hblock : (m.page a).copyOut (off % pgsize) len = copyOut (byteAt m) off len :=
          copyOut_block (by omega) fun o ho => by rw [byteAt, ho, hpage]
        obtain ⟨got, hgot, hloop, hpresent, hmissing⟩ :=
          @ih (off + len) (out ++ copyOut (byteAt m) off len) (by omega)
        refine ⟨len + got, by omega, ?_, ?_, ?_⟩
        · simp only [readLoop, if_neg hdone, hbmap, if_neg hpos, ← hlen, hblock]
          rw [hloop, append_assoc, copyOut_append]
        · intro o hlo hhi
          by_cases ho : o < off + len
          · refine ⟨a, ?_⟩
            have hdiv : o / pgsize = off / pgsize := by
              simp only [pgsize] at hlen hmod ⊢
              omega
            rw [hdiv, hpage]
          · exact hpresent o (by omega) (by omega)
        · intro hlt
          have := hmissing (by omega)
          rwa [add_assoc] at this
      · refine ⟨0, by omega, ?_, by omega, ?_⟩
        · simp [readLoop, hdone, hbmap, copyOut]
        · rintro - ⟨a, ha⟩
          rw [add_zero, hpage] at ha
          cases ha

/-- `tmpfs_vfs_read` below the end of the file -/
lemma vfsRead_spec (hmax : off + size ≤ maxfile * pgsize) (hoff : off < m.size) :
    ∃ got ≤ min size (m.size - off), vfsRead off size m = (some (copyOut (byteAt m) off got), m) ∧
      (∀ o, off ≤ o → o < off + got → Present m o) ∧
      (got < min size (m.size - off) → ¬Present m (off + got)) := by
  have htotal : min (off + size) m.size - off = min size (m.size - off) := by omega
  obtain ⟨got, hgot, hloop, hpresent, hmissing⟩ := @readLoop_spec m off
    (min (off + size) m.size - off) (min (off + size) m.size) [] le_rfl (by omega)
  rw [htotal] at hgot hmissing
  refine ⟨got, hgot, ?_, hpresent, hmissing⟩
  have hword : ¬2 ^ 64 ≤ off + size := by
    simp only [maxfile, ndirect, nindirect, ndindirect, pgsize] at hmax
    omega
  unfold vfsRead
  rw [if_neg hword, if_neg (by omega), if_neg (by omega)]
  simp only [hloop, nil_append]

/-! ## Writing -/

/-- The pages of the first `k` bytes from `off` on. -/
def Touched (off k bn : Nat) : Prop := ∃ j < k, (off + j) / pgsize = bn

/-- There are free pages for all that is missing on the ways to the pages from `off` to
`off + i`. -/
def Room (m : Mem) (off i : Nat) : Prop :=
  lack (nodeAt m) (ways ndirect nindirect (off / pgsize) ((off + i) / pgsize)) ≤ m.free.length

instance (m : Mem) (off i : Nat) : Decidable (Room m off i) :=
  inferInstanceAs (Decidable (_ ≤ _))

lemma Grown.room_iff (hnext : (off + c) / pgsize = off / pgsize + 1)
    (h : Grown m (ways ndirect nindirect (off / pgsize) (off / pgsize)) m' f)
    (hlast : off + c + i < maxfile * pgsize) : Room m off (c + i) ↔ Room m' (off + c) i := by
  unfold Room
  rw [hnext, ← add_assoc]
  have hbehind : off / pgsize < (off + c + i) / pgsize := by
    rw [← succ_le_iff, succ_eq_add_one, ← hnext]
    exact Nat.div_le_div_right (by omega)
  have hlack : lack (nodeAt m) (ways ndirect nindirect (off / pgsize) ((off + c + i) / pgsize)) =
      lack (nodeAt m) (ways ndirect nindirect (off / pgsize) (off / pgsize)) +
        lack (nodeAt m') (ways ndirect nindirect (off / pgsize + 1) ((off + c + i) / pgsize)) := by
    rw [ways_succ hbehind, ← ways_self]
    exact lack_union fun q hq => h.none_iff q (isPlace_of_mem_ways (div_lt_maxfile hlast) hq)
  have hfree := h.free
  omega

lemma touched_add (hc : 0 < c) (hpage : off % pgsize + c ≤ pgsize) :
    Touched off (c + k) bn ↔ bn = off / pgsize ∨ Touched (off + c) k bn := by
  constructor
  · rintro ⟨j, hj, rfl⟩
    by_cases hjc : j < c
    · refine .inl ?_
      simp only [pgsize] at hpage ⊢
      omega
    · exact .inr ⟨j - c, by omega, by rw [show off + c + (j - c) = off + j by omega]⟩
  · rintro (rfl | ⟨j, hj, rfl⟩)
    · exact ⟨0, by omega, rfl⟩
    · exact ⟨c + j, by omega, by rw [add_assoc]⟩

lemma Owned.writeLoop (fuel : Nat) (h : Owned m) (hfuel : data.length ≤ fuel)
    (hmax : off + data.length ≤ maxfile * pgsize) :
    ∃ k ≤ data.length, ∃ m' Q, writeLoop fuel off data m =
      ((decide (k = data.length), off + k), m') ∧
      Grown m Q m' (copyIn (byteAt m) off (data.take k)) ∧
      (∀ i < data.length, i < k ↔ Room m off i) ∧ ∀ bn, pagePath bn ∈ Q ↔ Touched off k bn := by
  induction fuel generalizing off data m with
  | zero =>
    have hnil : data = [] := length_eq_zero_iff.mp (by omega)
    subst hnil
    exact ⟨0, le_rfl, m, ∅, rfl, by simpa using h.grown, by simp, by simp [Touched]⟩
  | succ fuel ih =>
    by_cases hnil : data.length = 0
    · have hnil := length_eq_zero_iff.mp hnil
      subst hnil
      exact ⟨0, le_rfl, m, ∅, rfl, by simpa using h.grown, by simp, by simp [Touched]⟩
    · have hbn : off / pgsize < maxfile := div_lt_maxfile (by omega)
      have hmod : off % pgsize < pgsize := mod_lt _ (by decide)
      rcases h.bmap hbn with ⟨hle, a, m1, hbmap, hpos, hgrown, hpage⟩ | ⟨hlt,
        m1, Q, hbmap, hgrown, hQ⟩
      · set c := min (pgsize - off % pgsize) data.length with hc
        have hlen : (data.take c).length = c := length_take_of_le (by omega)
        have hcopy := hgrown.owned.grown_copyIn hpage
          (show off % pgsize + (data.take c).length ≤ pgsize by omega)
        set m2 := m1.setPage a ((m1.page a).copyIn (off % pgsize) (data.take c))
        have hstep := hgrown.trans hcopy
        rw [funext hgrown.byte, Finset.union_empty] at hstep
        obtain ⟨k, hk, m', Q, hloop, hrest, hroom, hQ⟩ :=
          @ih m2 (off + c) (data.drop c) hcopy.owned (by simp; omega) (by simp; omega)
        rw [length_drop] at hk hloop hroom
        refine ⟨c + k, by omega, m', ways ndirect nindirect (off / pgsize) (off / pgsize) ∪ Q,
          ?_, ?_, ?_, ?_⟩
        · have hdone : decide (k = data.length - c) = decide (c + k = data.length) := by
            rw [decide_eq_decide]
            omega
          simp only [Tmpfs.writeLoop, if_neg hnil, hbmap, if_neg hpos, ← hc]
          rw [hloop, hdone, add_assoc]
        · have hall := hstep.trans hrest
          have happend : data.take c ++ (data.drop c).take k = data.take (c + k) :=
            (take_add ..).symm
          have hbytes := @Bytes.copyIn_append (byteAt m) off (data.take c) ((data.drop c).take k)
          rw [hlen, happend] at hbytes
          rwa [funext hstep.byte, hbytes] at hall
        · intro i hi
          by_cases hic : i < c
          · have hdiv : (off + i) / pgsize = off / pgsize := by
              simp only [pgsize] at hc hmod ⊢
              omega
            rw [Room, hdiv]
            omega
          · -- the page is behind the first one, which has been filled
            obtain ⟨j, rfl⟩ := Nat.exists_eq_add_of_le (Nat.le_of_not_lt hic)
            have hnext : (off + c) / pgsize = off / pgsize + 1 := by
              simp only [pgsize] at hc hmod ⊢
              omega
            rw [hstep.room_iff hnext (by omega), ← hroom j (by omega)]
            omega
        · intro bn
          rw [Finset.mem_union, hQ, pagePath_mem_ways hbn, touched_add (by omega) (by omega)]
      · refine ⟨0, by omega, m1, Q, ?_, by simpa using hgrown, ?_, ?_⟩
        · simp [Tmpfs.writeLoop, hnil, hbmap, Ne.symm hnil]
        · intro i _
          have hmono : lack (nodeAt m) (ways ndirect nindirect (off / pgsize) (off / pgsize)) ≤
              lack (nodeAt m) (ways ndirect nindirect (off / pgsize) ((off + i) / pgsize)) :=
            lack_mono (ways_mono (Nat.div_le_div_right (by omega)))
          unfold Room
          omega
        · simp [Touched, hQ]

/-- How many bytes `tmpfs_vfs_write` copies before it returns. -/
def copied (off : Nat) (data : List Byte) (m : Mem) : Nat :=
  if maxfile * pgsize < off + data.length then 0 else (writeLoop data.length off data m).1.2 - off

/-- The file after a write: what was copied stays, and the size grows if all was copied. -/
structure Wrote (off : Nat) (data : List Byte) (m : Mem) (r : Option Nat) (m' : Mem) : Prop where
  owned : Owned m'
  le : copied off data m ≤ data.length
  byte : ∀ o, byteAt m' o = Bytes.copyIn (byteAt m) off (data.take (copied off data m)) o
  present : ∀ o, Present m' o ↔ Present m o ∨ Touched off (copied off data m) (o / pgsize)
  result : r = if off + data.length ≤ maxfile * pgsize ∧ copied off data m = data.length
    then some data.length else none
  size : m'.size = if off + data.length ≤ maxfile * pgsize ∧ copied off data m = data.length
    then max m.size (off + data.length) else m.size
  room : off + data.length ≤ maxfile * pgsize → ∀ i < data.length, i < copied off data m ↔
    Room m off i

lemma present_iff :
    Present m o ↔ o < maxfile * pgsize ∧ nodeAt m (pagePath (o / pgsize)) ≠ none := by
  have hdiv : o / pgsize < maxfile ↔ o < maxfile * pgsize := div_lt_iff_lt_mul (by decide)
  unfold Present
  simp only [dataPage_eq_some, hdiv, exists_and_left, and_congr_right_iff]
  intro _
  constructor
  · rintro ⟨a, ha⟩ hnone
    rw [ha] at hnone
    cases hnone
  · intro hne
    obtain ⟨q, hq⟩ := Option.ne_none_iff_exists'.mp hne
    obtain ⟨a, rfl⟩ := nodeAt_page (blockPath_ne_nil _) hq
    exact ⟨a, hq⟩

lemma Grown.present_iff (h : Grown m Q m' f) :
    Present m' o ↔ Present m o ∨ (o < maxfile * pgsize ∧ pagePath (o / pgsize) ∈ Q) := by
  rw [Tmpfs.present_iff, Tmpfs.present_iff, ← and_or_left]
  refine and_congr_right fun ho => ?_
  rw [Ne, h.none_iff _ (place_pagePath (div_lt_maxfile ho))]
  tauto

lemma Owned.vfsWrite (h : Owned m) (off : Nat) (data : List Byte) :
    Wrote off data m (vfsWrite off data m).1 (vfsWrite off data m).2 := by
  by_cases hmax : off + data.length ≤ maxfile * pgsize
  · obtain ⟨k, hk, m', Q, hloop, hgrown, hroom, hQ⟩ := h.writeLoop data.length le_rfl hmax
    have hcopied : copied off data m = k := by
      rw [copied, if_neg (by omega), hloop]
      exact Nat.add_sub_cancel_left ..
    have hword : ¬2 ^ 64 ≤ off + data.length := by
      simp only [maxfile, ndirect, nindirect, ndindirect, pgsize] at hmax
      omega
    have hrun : Tmpfs.vfsWrite off data m = if k = data.length
        then (some data.length, { m' with size := max m'.size (off + data.length) })
          else (none, m') := by
      simp only [Tmpfs.vfsWrite, if_neg hword, if_neg (not_lt.mpr hmax), hloop, decide_eq_true_eq]
    have hpresent : ∀ o, Present m' o ↔ Present m o ∨ Touched off k (o / pgsize) := by
      intro o
      rw [hgrown.present_iff, hQ]
      refine or_congr_right (and_iff_right_of_imp ?_)
      rintro ⟨j, hj, hpage⟩
      refine lt_of_div_lt_maxfile ?_
      rw [← hpage]
      exact div_lt_maxfile (by omega)
    rw [hrun]
    by_cases hfull : k = data.length
    · rw [if_pos hfull]
      constructor
      · exact hgrown.owned.withSize _
      · omega
      · intro o
        rw [byteAt_withSize, hcopied]
        exact hgrown.byte o
      · intro o
        rw [hcopied, ← hpresent o]
        simp only [Tmpfs.present_iff, nodeAt_withSize]
      · rw [if_pos ⟨hmax, by omega⟩]
      · rw [if_pos ⟨hmax, by omega⟩, ← hgrown.size]
      · intro _
        rwa [hcopied]
    · rw [if_neg hfull]
      constructor
      · exact hgrown.owned
      · omega
      · intro o
        rw [hcopied]
        exact hgrown.byte o
      · intro o
        rw [hcopied, ← hpresent o]
      · rw [if_neg fun hc => hfull (by omega)]
      · rw [if_neg fun hc => hfull (by omega), ← hgrown.size]
      · intro _
        rwa [hcopied]
  · have hcopied : copied off data m = 0 := if_pos (by omega)
    have hrun : Tmpfs.vfsWrite off data m = (none, m) := by
      unfold Tmpfs.vfsWrite
      split
      · rfl
      · rw [if_pos (by omega)]
    rw [hrun]
    constructor
    · exact h
    · omega
    · simp [hcopied]
    · simp [hcopied, Touched]
    · rw [if_neg fun hc => hmax hc.1]
    · rw [if_neg fun hc => hmax hc.1]
    · exact fun hc => absurd hc hmax

end FrostVista.Tmpfs
