import FrostVista.EasyFs.Inode
import FrostVista.Library.Interleave

/-!
# EasyFS: references, sleeplocks and the inode table

The rules that the code follows in its use of the inode cache: it works on inodes it has a reference
to, it releases the sleeplocks that it has acquired, and it gives back the references it took. A
process sees its own references and locks, and the inode numbers of the inodes it refers to; nothing
else is stable while other processes run.
-/
namespace FrostVista.EasyFs

open Lib Prog Function Kernel.Namei

/-- What a process knows: the inode it was called on, which is kept in the cache for it, how many
references it has taken itself to each inode, the inode numbers of those it may use, and which
sleeplocks it has acquired. -/
@[ext] structure View where
  pinned : SlotId → Bool
  refs : SlotId → Nat
  num : SlotId → Nat
  locked : SlotId → Bool
  normal : ∀ i, pinned i = false → refs i = 0 → num i = 0

namespace View

/-- The process may use the inode. -/
def Holds (g : View) (i : SlotId) : Prop := g.pinned i = true ∨ 1 ≤ g.refs i

/-- A reference to the inode `ino` in the slot `i` is taken. -/
def take (g : View) (i : SlotId) (ino : Nat) : View where
  pinned := g.pinned
  refs := update g.refs i (g.refs i + 1)
  num := update g.num i ino
  locked := g.locked
  normal j hp hj := by
    by_cases hji : j = i
    · subst hji
      simp at hj
    · rw [update_of_ne hji] at hj ⊢
      exact g.normal j hp hj

/-- A reference is given back. -/
def give (g : View) (i : SlotId) : View where
  pinned := g.pinned
  refs := update g.refs i (g.refs i - 1)
  num := update g.num i (if g.pinned i = false ∧ g.refs i ≤ 1 then 0 else g.num i)
  locked := g.locked
  normal j hp hj := by
    by_cases hji : j = i
    · subst hji
      rw [update_self] at hj ⊢
      rw [if_pos ⟨hp, by omega⟩]
    · rw [update_of_ne hji] at hj ⊢
      exact g.normal j hp hj

/-- A sleeplock is acquired, if they are followed. -/
def acquire (g : View) (x : Bool) (i : SlotId) : View :=
  { g with locked := if x then update g.locked i true else g.locked }

def release (g : View) (x : Bool) (i : SlotId) : View :=
  { g with locked := if x then update g.locked i false else g.locked }

variable {g : View} {i j : SlotId} {ino : Nat} {x : Bool}

@[simp] lemma acquire_holds : (g.acquire x i).Holds j ↔ g.Holds j := Iff.rfl
@[simp] lemma acquire_num : (g.acquire x i).num = g.num := rfl
@[simp] lemma acquire_refs : (g.acquire x i).refs = g.refs := rfl
@[simp] lemma take_locked : (g.take i ino).locked = g.locked := rfl
@[simp] lemma take_num_self : (g.take i ino).num i = ino := update_self ..
@[simp] lemma take_refs_self : (g.take i ino).refs i = g.refs i + 1 := update_self ..

@[simp] lemma take_holds_self : (g.take i ino).Holds i := .inr (by simp)

lemma Holds.take (h : g.Holds j) : (g.take i ino).Holds j := by
  rcases h with h | h
  · exact .inl h
  · by_cases hji : j = i
    · subst hji
      exact take_holds_self
    · exact .inr (by simpa [View.take, hji] using h)

lemma take_num (h : g.Holds i → g.num i = ino) (hj : g.Holds j) :
    (g.take i ino).num j = g.num j := by
  by_cases hji : j = i
  · subst hji
    rw [take_num_self, h hj]
  · simp [take, hji]

lemma take_give (h : g.Holds i → g.num i = ino) : (g.take i ino).give i = g := by
  ext j
  · rfl
  · by_cases hji : j = i
    · subst hji
      simp [give]
    · simp [give, take]
  · by_cases hji : j = i
    · subst hji
      by_cases hzero : g.pinned j = false ∧ g.refs j = 0
      · simp [give, take, hzero.1, hzero.2, g.normal j hzero.1 hzero.2]
      · have hholds : g.Holds j := by
          unfold Holds
          by_contra hc
          push Not at hc
          exact hzero ⟨by simpa using hc.1, by omega⟩
        simp only [give, take, update_self, update_idem, ← h hholds]
        rw [if_neg fun hc => hzero ⟨hc.1, by omega⟩]
    · simp [give, take, hji]
  · rfl

lemma acquire_locked (h : x = true) : (g.acquire x i).locked i = true := by
  simp [acquire, h]

lemma acquire_release (h : x = true → g.locked i = false) : (g.acquire x i).release x i = g := by
  cases x with
  | false => rfl
  | true =>
    ext j
    · rfl
    · rfl
    · rfl
    · simp [acquire, release, ← h rfl]

end View

open View (take_give acquire_locked acquire_release take_num)

/-- What is asked of the operations: whether the sleeplocks are followed, what may be taken for
granted about the blocks that are read, which blocks may be accessed as parts of the inode table,
and which panics are allowed. -/
structure Rules where
  exclusive : Bool
  reads : Nat → Bytes → Prop
  touches : Nat → Prop
  panics : Panic → Prop

def rule (ρ : Rules) : (o : Op) → View → (o.Res → View → Prop) → Prop
  | .bread n, g, Q => ∀ b, ρ.reads n b → Q b g
  | .bwrite _ _, g, Q => Q () g
  | .brelse _, g, Q => Q () g
  | .getInode ino, g, Q => Q none g ∧ ∀ i, (g.Holds i → g.num i = ino) → Q (some i) (g.take i ino)
  | .putInode i, g, Q => 1 ≤ g.refs i ∧ Q () (g.give i)
  | .load i, g, Q => g.Holds i ∧ ∀ e : Slot, e.ino = g.num i → 1 ≤ e.count → Q e g
  | .edit i f, g, Q => g.Holds i ∧
      (∀ e, (f e).dev = e.dev ∧ (f e).ino = e.ino ∧ (f e).count = e.count ∧ (f e).owner = e.owner) ∧
        Q () g
  | .fill i ino _, g, Q => g.Holds i ∧ ino = g.num i ∧ Q () g
  | .acquiresleep i, g, Q => g.Holds i ∧
      ((ρ.exclusive = true → g.locked i = false) → Q () (g.acquire ρ.exclusive i))
  | .releasesleep i, g, Q => (ρ.exclusive = true → g.locked i = true) ∧
      Q () (g.release ρ.exclusive i)
  | .holdingsleep i, g, Q => ∀ b, (ρ.exclusive = true → b = g.locked i) → Q b g
  | .touch n, g, Q => ρ.touches n ∧ Q () g
  | .panic p, _, _ => ρ.panics p

/-- Panics other than that of `iunlock` are no concern here. -/
structure Rules.Lenient (ρ : Rules) : Prop where
  others : ∀ p, p ≠ .iunlock → ρ.panics p
  unlock : ρ.exclusive = true ∨ ρ.panics .iunlock

variable {ρ : Rules} {g : View} {ip i : SlotId} {n : Nat} {α : Type}

/-! ## Single operations -/

lemma neutral_bread : Neutral (rule ρ) (bread n) g := ⟨fun _ hQ b _ => hQ b⟩

lemma neutral_bwrite (b : Bytes) : Neutral (rule ρ) (bwrite n b) g := ⟨fun _ hQ => hQ ()⟩

lemma neutral_brelse : Neutral (rule ρ) (brelse n) g := ⟨fun _ hQ => hQ ()⟩

lemma neutral_load (h : g.Holds i) : Neutral (rule ρ) (load i) g :=
  ⟨fun _ hQ => ⟨h, fun e _ _ => hQ e⟩⟩

variable {β : Type}

lemma obeys_load_bind (h : g.Holds i)
    (hf : ∀ e : Slot, e.ino = g.num i → 1 ≤ e.count → Obeys (rule ρ) (f e) g Q) :
    Obeys (rule ρ) (load i >>= f) g Q := obeys_bind.mpr ⟨h, hf⟩

lemma neutral_load_bind (h : g.Holds i)
    (hf : ∀ e : Slot, e.ino = g.num i → Neutral (rule ρ) (f e) g) :
    Neutral (rule ρ) (load i >>= f) g :=
  ⟨fun Q hQ => obeys_load_bind h fun e he _ => (hf e he).obeys Q hQ⟩

lemma neutral_edit {f : Slot → Slot} (h : g.Holds i)
    (hf : ∀ e, (f e).dev = e.dev ∧ (f e).ino = e.ino ∧ (f e).count = e.count ∧
      (f e).owner = e.owner) :
    Neutral (rule ρ) (edit i f) g := ⟨fun _ hQ => ⟨h, hf, hQ ()⟩⟩

lemma neutral_touch (h : ρ.touches n) : Neutral (rule ρ) (touch n) g := ⟨fun _ hQ => ⟨h, hQ ()⟩⟩

lemma neutral_panic (h : ρ.panics p) : Neutral (rule ρ) (panic p : FsProg α) g :=
  ⟨fun _ _ => h⟩

/-! ## Blocks -/

lemma neutral_balloc : Neutral (rule ρ) balloc g := by
  unfold balloc
  refine neutral_bread.bind fun buf => ?_
  split
  · exact neutral_brelse.bind fun _ => neutral_pure
  · exact (neutral_bwrite _).bind fun _ => neutral_brelse.bind fun _ => neutral_bread.bind fun _ =>
      (neutral_bwrite _).bind fun _ => neutral_brelse.bind fun _ => neutral_pure

lemma neutral_entryBlock (buf : Bytes) (idx : Nat) : Neutral (rule ρ) (entryBlock n buf idx) g := by
  unfold entryBlock
  refine neutral_ite (fun _ => neutral_pure) fun _ => neutral_balloc.bind fun addr => ?_
  exact neutral_ite (fun _ => neutral_pure) fun _ => (neutral_bwrite _).bind fun _ => neutral_pure

lemma neutral_indexEntry (idx : Nat) : Neutral (rule ρ) (indexEntry n idx) g := by
  unfold indexEntry
  exact neutral_bread.bind fun buf => (neutral_entryBlock buf idx).bind fun _ =>
    neutral_brelse.bind fun _ => neutral_pure

lemma neutral_doubleEntry (idx : Nat) : Neutral (rule ρ) (doubleEntry n idx) g := by
  unfold doubleEntry
  refine neutral_bread.bind fun buf => (neutral_entryBlock buf _).bind fun indirect => ?_
  refine neutral_ite (fun _ => neutral_brelse.bind fun _ => neutral_pure) fun _ => ?_
  exact (neutral_indexEntry _).bind fun _ => neutral_brelse.bind fun _ => neutral_pure

section
variable (h : g.Holds ip)
include h

lemma neutral_topBlock (k : Nat) : Neutral (rule ρ) (topBlock ip k) g := by
  unfold topBlock
  refine (neutral_load h).bind fun e => neutral_ite (fun _ => neutral_pure) fun _ => ?_
  refine neutral_balloc.bind fun addr => neutral_ite (fun _ => neutral_pure) fun _ => ?_
  exact (neutral_edit h (by simp)).bind fun _ => neutral_pure

lemma neutral_bmap (bn : Nat) : Neutral (rule ρ) (bmap ip bn) g := by
  unfold bmap
  refine neutral_ite (fun _ => neutral_topBlock h _) fun _ => neutral_ite (fun _ => ?_) fun _ =>
    neutral_ite (fun _ => ?_) fun _ => neutral_pure
  · exact (neutral_topBlock h _).bind fun _ => neutral_ite (fun _ => neutral_pure) fun _ =>
      neutral_indexEntry _
  · exact (neutral_topBlock h _).bind fun _ => neutral_ite (fun _ => neutral_pure) fun _ =>
      neutral_doubleEntry _

/-! ## Files -/

lemma neutral_iupdate (ht : ρ.touches (tableBlock (g.num ip))) :
    Neutral (rule ρ) (iupdate ip) g := by
  unfold iupdate
  refine neutral_load_bind h fun e he => ?_
  rw [he]
  exact (neutral_touch ht).bind fun _ => neutral_bread.bind fun _ => (neutral_load h).bind fun _ =>
    (neutral_bwrite _).bind fun _ => neutral_brelse

lemma neutral_readLoop (fuel off size : Nat) (acc : List Byte) :
    Neutral (rule ρ) (readLoop ip fuel off size acc) g := by
  induction fuel generalizing off size acc with
  | zero => exact neutral_pure
  | succ fuel ih =>
    unfold readLoop
    refine neutral_ite (fun _ => neutral_pure) fun _ => (neutral_bmap h _).bind fun _ => ?_
    exact neutral_ite (fun _ => neutral_pure) fun _ => neutral_bread.bind fun _ =>
      neutral_brelse.bind fun _ => ih ..

lemma neutral_readInode (off size : Nat) :
    Neutral (rule ρ) (readInode ip off size) g := by
  unfold readInode
  exact (neutral_load h).bind fun _ => neutral_ite (fun _ => neutral_pure) fun _ =>
    (neutral_readLoop h ..).bind fun _ => neutral_pure

lemma neutral_writeLoop (fuel off : Nat) (data : List Byte) (tot : Nat) :
    Neutral (rule ρ) (writeLoop ip fuel off data tot) g := by
  induction fuel generalizing off data tot with
  | zero => exact neutral_pure
  | succ fuel ih =>
    unfold writeLoop
    refine neutral_ite (fun _ => neutral_pure) fun _ => (neutral_bmap h _).bind fun _ => ?_
    exact neutral_ite (fun _ => neutral_pure) fun _ => neutral_bread.bind fun _ =>
      (neutral_bwrite _).bind fun _ => neutral_brelse.bind fun _ => ih ..

lemma neutral_writeInode (ht : ρ.touches (tableBlock (g.num ip))) (off : Nat)
    (data : List Byte) : Neutral (rule ρ) (writeInode ip off data) g := by
  unfold writeInode
  refine neutral_ite (fun _ => neutral_pure) fun _ => neutral_ite (fun _ => neutral_pure) fun _ =>
    ?_
  exact (neutral_writeLoop h ..).bind fun _ => (neutral_load h).bind fun _ =>
    (neutral_when (neutral_edit h (by simp))).bind fun _ =>
      (neutral_iupdate h ht).bind fun _ => neutral_pure

end

section Lenient

variable (hρ : ρ.Lenient)

include hρ

lemma neutral_bfree (n : Nat) : Neutral (rule ρ) (bfree n) g := by
  unfold bfree
  refine neutral_ite (fun _ => neutral_panic (hρ.others _ (by decide))) fun _ => ?_
  refine neutral_bread.bind fun buf => ?_
  refine neutral_ite (fun _ => neutral_panic (hρ.others _ (by decide))) fun _ => ?_
  exact (neutral_bwrite _).bind fun _ => neutral_brelse.bind fun _ => neutral_bread.bind fun _ =>
    (neutral_bwrite _).bind fun _ => neutral_brelse

variable {free : Nat → FsProg Unit} {Q : Unit → View → Prop} {dir : SlotId}

lemma neutral_freeIndex (hfree : ∀ n, Neutral (rule ρ) (free n) g) (n : Nat) :
    Neutral (rule ρ) (freeIndex free n) g := by
  unfold freeIndex
  refine neutral_bread.bind fun buf => (neutral_loop (fun k => ?_) 0 nindirect).bind fun _ => ?_
  · exact neutral_ite (fun _ => hfree _) fun _ => neutral_pure
  · exact neutral_brelse.bind fun _ => neutral_bfree hρ n

omit hρ in
lemma neutral_truncSlot (hfree : ∀ n, Neutral (rule ρ) (free n) g)
    (h : g.Holds ip) (k : Nat) : Neutral (rule ρ) (truncSlot free ip k) g := by
  unfold truncSlot
  refine (neutral_load h).bind fun _ => neutral_ite (fun _ => ?_) fun _ => neutral_pure
  exact (hfree _).bind fun _ => neutral_edit h (by simp)

lemma neutral_itrunc (h : g.Holds ip) (ht : ρ.touches (tableBlock (g.num ip))) (size : Nat) :
    Neutral (rule ρ) (itrunc ip size) g := by
  have hsingle : ∀ n, Neutral (rule ρ) (freeIndirect n) g := neutral_freeIndex hρ (neutral_bfree hρ)
  have hdouble : ∀ n, Neutral (rule ρ) (freeDouble n) g := neutral_freeIndex hρ hsingle
  unfold itrunc
  refine neutral_ite (fun _ => neutral_pure) fun _ => ?_
  refine (neutral_loop (neutral_truncSlot (neutral_bfree hρ) h) 0 ndirect).bind fun _ => ?_
  exact (neutral_truncSlot hsingle h _).bind fun _ => (neutral_truncSlot hdouble h _).bind fun _ =>
    (neutral_edit h (by simp)).bind fun _ => (neutral_iupdate h ht).bind fun _ =>
      neutral_pure

/-! ## Inodes -/

lemma obeys_ilock (h : g.Holds ip) (ht : ρ.touches (tableBlock (g.num ip)))
    (hQ : (ρ.exclusive = true → g.locked ip = false) → Q () (g.acquire ρ.exclusive ip)) :
    Obeys (rule ρ) (ilock ip) g Q := by
  unfold ilock
  refine (neutral_load h).obeys_bind fun e => ?_
  split
  · exact hρ.others _ (by decide)
  · refine obeys_bind.mpr ⟨h, fun hfree => ?_⟩
    have h' : (g.acquire ρ.exclusive ip).Holds ip := h
    have hrest : Neutral (rule ρ) (do
        let e ← load ip
        touch (tableBlock e.ino)
        let buf ← bread (tableBlock e.ino)
        edit ip fun e =>
          let d := diskInode buf e.ino
          { e with type := d.type, nlinks := d.nlinks, size := d.size, blocks := d.blocks }
        brelse (tableBlock e.ino)) (g.acquire ρ.exclusive ip) := by
      refine neutral_load_bind h' fun e he => ?_
      rw [he]
      exact (neutral_touch ht).bind fun _ => neutral_bread.bind fun _ =>
        (neutral_edit h' (by simp)).bind fun _ => neutral_brelse
    exact hrest.obeys Q fun _ => hQ hfree

lemma obeys_iunlock (h : g.Holds ip)
    (hl : ρ.exclusive = true → g.locked ip = true) (hQ : Q () (g.release ρ.exclusive ip)) :
    Obeys (rule ρ) (iunlock ip) g Q := by
  unfold iunlock
  refine obeys_bind.mpr fun holding hholding => obeys_load_bind h fun e _ hcount => ?_
  split
  · rename_i hpanic
    -- without the locks followed the panic is allowed
    rcases hρ.unlock with hx | hp
    · rw [hholding hx, hl hx] at hpanic
      simp at hpanic
      omega
    · exact hp
  · exact ⟨hl, hQ⟩

lemma obeys_iunlockput (h : 1 ≤ g.refs ip) (hl : ρ.exclusive = true → g.locked ip = true)
    (hQ : Q () ((g.release ρ.exclusive ip).give ip)) : Obeys (rule ρ) (iunlockput ip) g Q :=
  obeys_bind.mpr (obeys_iunlock hρ (.inr h) hl ⟨h, hQ⟩)

lemma obeys_vfsIlock (h : g.Holds ip)
    (hQ : (ρ.exclusive = true → g.locked ip = false) → Q () (g.acquire ρ.exclusive ip)) :
    Obeys (rule ρ) (vfsIlock ip) g Q := by
  unfold vfsIlock
  refine (neutral_load h).obeys_bind fun e => ?_
  split
  · exact hρ.others _ (by decide)
  · exact ⟨h, hQ⟩

omit hρ in
lemma obeys_ialloc {P : Nat → Prop} {Q : Option SlotId → View → Prop}
    (hP : ∀ buf ino, ρ.reads inoblkBmip buf → firstFreeInode buf = some ino → P ino)
    (hnone : Q none g)
    (hsome : ∀ i ino, P ino → (g.Holds i → g.num i = ino) → Q (some i) (g.take i ino)) :
    Obeys (rule ρ) ialloc g Q := by
  unfold ialloc
  refine obeys_bind.mpr fun buf hbuf => ?_
  refine (neutral_when (neutral_bwrite _)).obeys_bind fun _ => ?_
  split
  · exact neutral_brelse.obeys_bind fun _ => hnone
  · rename_i ino hino
    refine (neutral_bwrite _).obeys_bind fun _ => neutral_brelse.obeys_bind fun _ => ?_
    exact ⟨hnone, fun i hi => hsome i ino (hP buf ino hbuf hino) hi⟩

lemma neutral_ifree (ht : ∀ n, ρ.touches n) (ino : Nat) : Neutral (rule ρ) (ifree ino) g := by
  unfold ifree
  refine neutral_ite (fun _ => neutral_pure) fun _ => neutral_bread.bind fun _ => ?_
  refine neutral_ite (fun _ => neutral_panic (hρ.others _ (by decide))) fun _ => ?_
  exact (neutral_bwrite _).bind fun _ => neutral_brelse.bind fun _ =>
    (neutral_touch (ht _)).bind fun _ =>
    neutral_bread.bind fun _ => (neutral_bwrite _).bind fun _ => neutral_brelse

/-! ## Directories -/

lemma neutral_scanDir (h : g.Holds ip) {p : Panic} (hp : p ≠ .iunlock) (stop : List Byte → Bool)
    (fuel off : Nat) : Neutral (rule ρ) (scanDir ip p stop fuel off) g := by
  induction fuel generalizing off with
  | zero => exact neutral_panic (hρ.others _ (by decide))
  | succ fuel ih =>
    unfold scanDir
    refine (neutral_load h).bind fun _ => neutral_ite (fun _ => ?_) fun _ => neutral_pure
    refine (neutral_readInode h _ _).bind fun de => ?_
    split
    · exact neutral_panic (hρ.others _ hp)
    · refine neutral_ite (fun _ => neutral_panic (hρ.others _ hp)) fun _ => ?_
      exact neutral_ite (fun _ => neutral_pure) fun _ => ih _

omit hρ in
lemma obeys_getVfsInode {Q : Option SlotId → View → Prop} (ino : Nat) (hnone : Q none g)
    (hsome : ∀ i, (g.Holds i → g.num i = ino) → Q (some i) (g.take i ino)) :
    Obeys (rule ρ) (getVfsInode ino) g Q := by
  unfold getVfsInode readDiskInode fillVfsInode
  refine (neutral_bread.bind fun _ => neutral_brelse.bind fun _ => neutral_pure).obeys_bind fun d =>
    ?_
  refine obeys_bind.mpr ⟨hnone, fun i hi => ?_⟩
  exact ⟨by simp, by simp, hsome i hi⟩

lemma obeys_lookup {Q : Option (SlotId × Nat) → View → Prop} (name : Name)
    (h : g.Holds ip) (hnone : Q none g)
    (hsome : ∀ i off ino, (g.Holds i → g.num i = ino) → Q (some (i, off)) (g.take i ino)) :
    Obeys (rule ρ) (lookup ip name) g Q := by
  unfold lookup
  refine (neutral_load h).obeys_bind fun e => ?_
  split
  · exact hnone
  · refine (neutral_scanDir hρ h (by decide) _ _ _).obeys_bind fun found => ?_
    split
    · exact hnone
    · refine obeys_bind.mpr (obeys_getVfsInode _ hnone fun i hi => hsome i _ _ hi)

lemma neutral_dirlink (h : g.Holds ip) (ht : ρ.touches (tableBlock (g.num ip)))
    (name : Name) (inum : Nat) : Neutral (rule ρ) (dirlink ip name inum) g := by
  refine ⟨fun Q hQ => ?_⟩
  unfold dirlink
  refine obeys_bind.mpr (obeys_lookup hρ name h ?_ fun i off ino hi => ?_)
  · refine (neutral_scanDir hρ h (by decide) _ _ _).obeys_bind fun found => ?_
    refine (neutral_writeInode h ht _ _).obeys_bind fun r => ?_
    split
    · exact hQ _
    · exact hQ _
  · refine obeys_bind.mpr ⟨by simp, ?_⟩
    rw [take_give hi]
    exact hQ _

/-! ## Creating and removing -/

lemma neutral_mkdirLinks (hd : g.Holds dir) (h : g.Holds ip)
    (htd : ρ.touches (tableBlock (g.num dir))) (ht : ρ.touches (tableBlock (g.num ip)))
    (name : Name) : Neutral (rule ρ) (mkdirLinks dir ip name) g := by
  unfold mkdirLinks
  refine (neutral_load h).bind fun _ => (neutral_dirlink hρ h ht _ _).bind fun _ => ?_
  refine neutral_ite (fun _ => ?_) fun _ => neutral_pure
  refine (neutral_load hd).bind fun _ => (neutral_dirlink hρ h ht _ _).bind fun _ => ?_
  refine neutral_ite (fun _ => ?_) fun _ => neutral_pure
  exact (neutral_load h).bind fun _ => neutral_dirlink hρ hd htd _ _

lemma obeys_exit {Q : Bool → View → Prop} (h : g.Holds dir)
    (hfree : ρ.exclusive = true → g.locked dir = false) (hQ : ∀ r, Q r g) (r : Bool) :
    Obeys (rule ρ) (do iunlock dir; Pure.pure r) (g.acquire ρ.exclusive dir) Q := by
  refine obeys_bind.mpr (obeys_iunlock hρ h acquire_locked ?_)
  rw [acquire_release hfree]
  exact hQ r

lemma obeys_exit_put {Q : Bool → View → Prop} {ino : Nat}
    (h : g.Holds dir) (hfree : ρ.exclusive = true → g.locked dir = false) (hQ : ∀ r, Q r g)
    (hi : (g.acquire ρ.exclusive dir).Holds i → (g.acquire ρ.exclusive dir).num i = ino)
    (hfree' : ρ.exclusive = true → ((g.acquire ρ.exclusive dir).take i ino).locked i = false)
    (r : Bool) :
    Obeys (rule ρ) (do iunlockput i; iunlock dir; Pure.pure r)
      (((g.acquire ρ.exclusive dir).take i ino).acquire ρ.exclusive i) Q := by
  refine obeys_bind.mpr (obeys_iunlockput hρ (by simp) acquire_locked ?_)
  rw [acquire_release hfree', take_give hi]
  exact obeys_exit hρ h hfree hQ r

section
variable (h : g.Holds dir) (htd : ρ.touches (tableBlock (g.num dir)))
  (hread : ∀ buf ino, ρ.reads inoblkBmip buf → firstFreeInode buf = some ino →
    ρ.touches (tableBlock ino))
include h htd hread

lemma neutral_mkdir (name : Name) (mode : Nat) :
    Neutral (rule ρ) (mkdir dir name mode) g := by
  unfold mkdir
  refine neutral_ite (fun _ => neutral_pure) fun _ => ⟨fun Q hQ => ?_⟩
  refine obeys_bind.mpr (obeys_ilock hρ h htd fun hfree => ?_)
  have hexit := obeys_exit hρ h hfree hQ
  refine obeys_bind.mpr (obeys_lookup hρ name h ?_ fun i off ino hi => ?_)
  · refine obeys_bind.mpr (obeys_ialloc hread (hexit false) fun ip ino ht hip => ?_)
    have hlast := obeys_exit_put hρ h hfree hQ hip
    set g2 := (g.acquire ρ.exclusive dir).take ip ino with hg2
    have ht2 : ρ.touches (tableBlock (g2.num ip)) := by simpa [hg2] using ht
    have hnum : g2.num dir = g.num dir := take_num hip h
    have htd2 : ρ.touches (tableBlock (g2.num dir)) := hnum ▸ htd
    have hdir2 : g2.Holds dir := View.Holds.take (g := g.acquire ρ.exclusive dir) h
    refine obeys_bind.mpr (obeys_ilock hρ (by simp [hg2]) ht2 fun hfree2 => ?_)
    have hlast := hlast hfree2
    set g3 := g2.acquire ρ.exclusive ip with hg3
    have hip3 : g3.Holds ip := by simp [hg3, hg2]
    have hdir3 : g3.Holds dir := hdir2
    refine (neutral_edit hip3 (by simp)).obeys_bind fun _ =>
      (neutral_iupdate hip3 ht2).obeys_bind fun _ => ?_
    refine (neutral_mkdirLinks hρ hdir3 hip3 htd2 ht2 name).obeys_bind fun ok => ?_
    split
    · exact (neutral_edit hdir3 (by simp)).obeys_bind fun _ =>
        (neutral_iupdate hdir3 htd2).obeys_bind fun _ => hlast true
    · exact (neutral_edit hip3 (by simp)).obeys_bind fun _ =>
        (neutral_iupdate hip3 ht2).obeys_bind fun _ => hlast false
  · refine obeys_bind.mpr ⟨by simp, ?_⟩
    rw [take_give hi]
    exact hexit false

lemma neutral_create (path : Name) (mode : Nat) :
    Neutral (rule ρ) (create dir path mode) g := by
  unfold create
  refine neutral_ite (fun _ => neutral_pure) fun _ => ⟨fun Q hQ => ?_⟩
  refine obeys_bind.mpr (obeys_ilock hρ h htd fun hfree => ?_)
  have hexit := obeys_exit hρ h hfree hQ
  refine obeys_bind.mpr (obeys_lookup hρ path h ?_ fun i off ino hi => ?_)
  · refine obeys_bind.mpr (obeys_ialloc hread (hexit false) fun ip ino ht hip => ?_)
    have hlast := obeys_exit_put hρ h hfree hQ hip
    have hgive := take_give hip
    set g2 := (g.acquire ρ.exclusive dir).take ip ino with hg2
    have ht2 : ρ.touches (tableBlock (g2.num ip)) := by simpa [hg2] using ht
    have hnum : g2.num dir = g.num dir := take_num hip h
    have htd2 : ρ.touches (tableBlock (g2.num dir)) := hnum ▸ htd
    have hip2 : g2.Holds ip := by simp [hg2]
    have hdir2 : g2.Holds dir := View.Holds.take (g := g.acquire ρ.exclusive dir) h
    refine obeys_bind.mpr (obeys_ilock hρ hip2 ht2 fun hfree2 => ?_)
    have hip3 : (g2.acquire ρ.exclusive ip).Holds ip := hip2
    refine (neutral_edit hip3 (by simp)).obeys_bind fun _ => ?_
    refine (neutral_iupdate hip3 ht2).obeys_bind fun _ => ?_
    refine obeys_bind.mpr (obeys_iunlock hρ hip3 acquire_locked ?_)
    rw [acquire_release hfree2]
    refine (neutral_load hip2).obeys_bind fun e => ?_
    refine (neutral_dirlink hρ hdir2 htd2 _ _).obeys_bind fun ok => ?_
    split
    · refine obeys_bind.mpr ⟨by simp [hg2], ?_⟩
      rw [hgive]
      exact hexit true
    · refine obeys_bind.mpr (obeys_ilock hρ hip2 ht2 fun hfree3 => ?_)
      exact (neutral_edit hip3 (by simp)).obeys_bind fun _ =>
        (neutral_iupdate hip3 ht2).obeys_bind fun _ => hlast hfree3 false
  · refine obeys_bind.mpr ⟨by simp, ?_⟩
    rw [take_give hi]
    exact hexit false

end

lemma neutral_dropLink (h : g.Holds ip) (ht : ∀ n, ρ.touches n) :
    Neutral (rule ρ) (dropLink ip) g := by
  unfold dropLink
  refine (neutral_edit h (by simp)).bind fun _ => (neutral_load h).bind fun _ => ?_
  refine neutral_ite (fun _ => ?_) fun _ => neutral_pure
  exact (neutral_itrunc hρ h (ht _) _).bind fun _ => neutral_ifree hρ ht _

lemma neutral_unlink (h : g.Holds dir) (ht : ∀ n, ρ.touches n)
    (name : Name) : Neutral (rule ρ) (unlink dir name) g := by
  unfold unlink
  refine neutral_ite (fun _ => neutral_pure) fun _ => ⟨fun Q hQ => ?_⟩
  refine obeys_bind.mpr (obeys_ilock hρ h (ht _) fun hfree => ?_)
  have hexit := obeys_exit hρ h hfree hQ
  split
  · exact hexit false
  · refine obeys_bind.mpr (obeys_lookup hρ name h (hexit false) fun ip off ino hip => ?_)
    have hlast := obeys_exit_put hρ h hfree hQ hip
    set g2 := (g.acquire ρ.exclusive dir).take ip ino with hg2
    have hdir2 : g2.Holds dir := View.Holds.take (g := g.acquire ρ.exclusive dir) h
    refine obeys_bind.mpr (obeys_ilock hρ (by simp [hg2]) (ht _) fun hfree2 => ?_)
    have hlast := hlast hfree2
    set g3 := g2.acquire ρ.exclusive ip with hg3
    have hip3 : g3.Holds ip := by simp [hg3, hg2]
    have hdir3 : g3.Holds dir := hdir2
    refine (neutral_load hip3).obeys_bind fun e => ?_
    split
    · exact hlast false
    · refine (neutral_writeInode hdir3 (ht _) _ _).obeys_bind fun r => ?_
      split
      · exact (neutral_dropLink hρ hip3 ht).obeys_bind fun _ =>
          (neutral_iupdate hip3 (ht _)).obeys_bind fun _ => hlast true
      · exact hρ.others _ (by decide)

/-! ## Open files -/

section
variable (h : g.Holds ip)
include h

lemma neutral_locked (hx : Neutral (rule ρ) x (g.acquire ρ.exclusive ip)) :
    Neutral (rule ρ) (do vfsIlock ip; let r ← x; iunlock ip; Pure.pure r) g := by
  refine ⟨fun Q hQ => obeys_bind.mpr (obeys_vfsIlock hρ h fun hfree => hx.obeys_bind fun r => ?_)⟩
  refine obeys_bind.mpr (obeys_iunlock hρ h acquire_locked ?_)
  rw [acquire_release hfree]
  exact hQ r

lemma neutral_vfsRead (off size : Nat) : Neutral (rule ρ) (vfsRead ip off size) g :=
  neutral_locked hρ h (neutral_readInode (g := g.acquire ρ.exclusive ip) h off size)

lemma neutral_vfsWrite (ht : ρ.touches (tableBlock (g.num ip))) (off : Nat)
    (data : List Byte) : Neutral (rule ρ) (vfsWrite ip off data) g :=
  neutral_locked hρ h (neutral_writeInode (g := g.acquire ρ.exclusive ip) h ht off data)

lemma neutral_vfsTruncate (ht : ρ.touches (tableBlock (g.num ip))) (size : Nat) :
    Neutral (rule ρ) (vfsTruncate ip size) g :=
  neutral_locked hρ h (neutral_itrunc (g := g.acquire ρ.exclusive ip) hρ h ht size)

lemma neutral_readdir (off : Nat) : Neutral (rule ρ) (readdir ip off) g := by
  unfold readdir
  refine (neutral_load h).bind fun _ => neutral_ite (fun _ => neutral_pure) fun _ =>
    ⟨fun Q hQ => ?_⟩
  refine obeys_bind.mpr ⟨h, fun hfree => ?_⟩
  have hrelease : ∀ r, Obeys (rule ρ) (do releasesleep ip; Pure.pure r)
    (g.acquire ρ.exclusive ip) Q := by
    intro r
    refine obeys_bind.mpr ⟨acquire_locked, ?_⟩
    rw [acquire_release hfree]
    exact hQ r
  have h' : (g.acquire ρ.exclusive ip).Holds ip := h
  refine (neutral_scanDir hρ h' (by decide) _ _ _).obeys_bind fun found => ?_
  split
  · exact hrelease _
  · refine obeys_bind.mpr (obeys_getVfsInode _ (hrelease _) fun i hi => ?_)
    refine (neutral_load (by simp)).obeys_bind fun _ => obeys_bind.mpr ⟨by simp, ?_⟩
    rw [take_give hi]
    exact hrelease _

end

end Lenient

end FrostVista.EasyFs
