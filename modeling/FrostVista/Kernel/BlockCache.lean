import FrostVista.Kernel.Process
import FrostVista.Library.Chain
import FrostVista.Library.RefCount
import FrostVista.Library.Run

/-!
# The block cache

`bget`, `bread`, `bwrite` and `brelse` of `kernel/fs/block_cache.c`, run by any of the processes at
any time. A process sleeps inside `bread` until it has the lock of the buffer, and again during the
disk transfer; `brelse` gives the lock back before it drops the reference. Each of these parts is a
step of its own, so that all interleavings are covered. The disk is addressed by sectors, as in the
driver, and a transfer moves the whole block.

The ghost field `saved` remembers whether a buffer was written since its contents were last changed.
-/
namespace FrostVista.Kernel.BlockCache

open Lib Lib.Chain Lib.RefCount Function List Option

def nnum : Nat := 32

structure Key where
  dev : BitVec 32
  blkno : Word
  deriving DecidableEq

abbrev Tid := Fin nproc

abbrev BufId := Fin nnum

/-- `struct buf`; `owner` is the process that holds `buf_lock`. -/
structure Buf (β : Type) where
  data : β
  key : Key
  valid : Bool
  dirty : Bool
  refcnt : BitVec 32
  owner : Option Tid

/-- Where a process is in `bread` or `brelse`. -/
inductive Pc where
  | idle
  /-- in `acquiresleep` -/
  | locking (b : BufId)
  /-- has the lock and looks at `valid` -/
  | reading (b : BufId)
  /-- has given the lock back and not yet the reference -/
  | dropping (b : BufId)
  deriving DecidableEq

structure Bcache (β : Type) where
  buf : BufId → Buf β
  links : Links BufId
  /-- The block that starts at a sector. -/
  disk : Word → β
  pc : Tid → Pc
  saved : BufId → Bool

variable {β : Type}

namespace Bcache

def setBuf (c : Bcache β) (b : BufId) (e : Buf β) : Bcache β :=
  { c with buf := update c.buf b e }

def setPc (c : Bcache β) (t : Tid) (pc : Pc) : Bcache β :=
  { c with pc := update c.pc t pc }

end Bcache

open Bcache (setPc setBuf)

/-- `req->sector` of the driver for the block of a buffer. -/
def sector (k : Key) : Word := k.blkno * 8#64

/-- `binit`; the buffers are in zeroed memory. -/
def binit (zero : β) (disk : Word → β) : Bcache β where
  buf _ := ⟨zero, ⟨0, 0⟩, false, false, 0, none⟩
  links := (List.finRange nnum).foldl Links.pushFront Links.empty
  disk := disk
  pc _ := .idle
  saved _ := true

/-- `bget` up to the call of `acquiresleep`. -/
def bget (c : Bcache β) (k : Key) : Option (BufId × Bcache β) :=
  match search c.links.next (fun b => (c.buf b).key = k) nnum (c.links.next none) with
  | some b => some (b, c.setBuf b { c.buf b with refcnt := (c.buf b).refcnt + 1 })
  | none =>
    -- the least recently used buffer without references
    match search c.links.prev (fun b => (c.buf b).refcnt = 0 ∧ (c.buf b).dirty = false) nnum
        (c.links.prev none) with
    | some b => some (b, c.setBuf b { c.buf b with
        key := k
        valid := false
        refcnt := (c.buf b).refcnt + 1 })
    | none => none

/-- The end of `bread`: `if (!buffer->valid) { virtio_disk_rw(buffer, 0); buffer->valid = 1; }` -/
def fill (c : Bcache β) (b : BufId) : Bcache β :=
  if (c.buf b).valid then c
  else c.setBuf b { c.buf b with data := c.disk (sector (c.buf b).key), valid := true }

/-- `virtio_disk_rw(buffer, 1)` -/
def writeBack (c : Bcache β) (b : BufId) : Bcache β :=
  { c with
    disk := update c.disk (sector (c.buf b).key) (c.buf b).data
    saved := update c.saved b true }

/-- The second half of `brelse`. -/
def dropRef (c : Bcache β) (b : BufId) : Bcache β :=
  let c := c.setBuf b { c.buf b with refcnt := (c.buf b).refcnt - 1 }
  if (c.buf b).refcnt = 0 then { c with links := (c.links.remove b).pushFront b } else c

/-- What a process does; a returning `bread` and a `bwrite` show the block and its contents. -/
inductive Act (β : Type) where
  | get (t : Tid) (k : Key)
  | lock (t : Tid)
  | ret (t : Tid) (b : BufId) (k : Key) (d : β)
  | modify (t : Tid) (b : BufId) (d : β)
  | write (t : Tid) (b : BufId) (k : Key) (d : β)
  | unlock (t : Tid) (b : BufId)
  | drop (t : Tid)

inductive Step : Bcache β → Act β → Bcache β → Prop where
  | get {c c' : Bcache β} {t : Tid} {k : Key} {b : BufId} :
      c.pc t = .idle → bget c k = some (b, c') → Step c (.get t k) (c'.setPc t (.locking b))
  | lock {c : Bcache β} {t : Tid} {b : BufId} :
      c.pc t = .locking b → (c.buf b).owner = none →
      Step c (.lock t) ((c.setBuf b { c.buf b with owner := some t }).setPc t (.reading b))
  | ret {c : Bcache β} {t : Tid} {b : BufId} :
      c.pc t = .reading b →
      Step c (.ret t b (c.buf b).key ((fill c b).buf b).data) ((fill c b).setPc t .idle)
  | modify {c : Bcache β} {t : Tid} {b : BufId} {d : β} :
      c.pc t = .idle → (c.buf b).owner = some t →
      Step c (.modify t b d)
        { c.setBuf b { c.buf b with data := d } with saved := update c.saved b false }
  | write {c : Bcache β} {t : Tid} {b : BufId} :
      c.pc t = .idle → (c.buf b).owner = some t →
      Step c (.write t b (c.buf b).key (c.buf b).data) (writeBack c b)
  | unlock {c : Bcache β} {t : Tid} {b : BufId} :
      -- a changed buffer is written before it is released
      c.pc t = .idle → (c.buf b).owner = some t → c.saved b = true →
      Step c (.unlock t b) ((c.setBuf b { c.buf b with owner := none }).setPc t (.dropping b))
  | drop {c : Bcache β} {t : Tid} {b : BufId} :
      c.pc t = .dropping b → Step c (.drop t) ((dropRef c b).setPc t .idle)

/-- The contents of the last `bwrite` of a block, or what the disk held at the start. -/
def lastWrite (disk : Word → β) (acts : List (Act β)) (k : Key) : β :=
  acts.foldl (fun d a => match a with
    | .write _ _ k' d' => if k' = k then d' else d
    | _ => d) (disk (sector k))

/-! ## The invariant -/

/-- The references to buffers: those of processes that wait for a lock or are about to give their
reference back, and one for each lock that is held. -/
def refs (c : Bcache β) : Tid ⊕ BufId → Option BufId
  | .inl t => match c.pc t with
    | .locking b => some b
    | .dropping b => some b
    | _ => none
  | .inr b => if (c.buf b).owner = none then none else some b

/-- The buffers from the most to the least recently used one; of several buffers with the same block
only the first is in use. -/
structure Order (c : Bcache β) (xs : List BufId) : Prop where
  spells : Spells c.links xs
  mem : ∀ b, b ∈ xs
  first : xs.Pairwise fun b b' => (c.buf b).key = (c.buf b').key →
    (c.buf b').refcnt = 0 ∧ (c.buf b').valid = false

/-- What is known of a single buffer. -/
structure BufInv (K : Set Key) (disk : Word → β) (e : Buf β) (saved : Bool) : Prop where
  clean : e.dirty = false
  unsaved : saved = false → e.owner ≠ none
  cached : e.valid = true → saved = true → e.data = disk (sector e.key)
  key : e.refcnt ≠ 0 ∨ e.valid = true → e.key ∈ K

/-- The invariant of the cache; `content` is what every block is supposed to hold. -/
structure Inv (K : Set Key) (content : Key → β) (c : Bcache β) : Prop where
  order : ∃ xs, Order c xs
  count : Balanced (refs c) (fun b => ((c.buf b).refcnt.toNat : Int)) []
  buf : ∀ b, BufInv K c.disk (c.buf b) (c.saved b)
  reading : ∀ t b, c.pc t = .reading b → (c.buf b).owner = some t ∧ c.saved b = true
  disk : ∀ k ∈ K, c.disk (sector k) = content k

variable {K : Set Key} {content : Key → β} {c c' : Bcache β} {b b' : BufId} {t : Tid} {k : Key}
  {xs : List BufId}

@[simp] lemma setBuf_self (e : Buf β) : (c.setBuf b e).buf b = e := update_self ..

lemma setBuf_of_ne (h : b' ≠ b) (e : Buf β) : (c.setBuf b e).buf b' = c.buf b' :=
  update_of_ne h ..

variable {e : Buf β} {a : Act β} {acts : List (Act β)} {disk : Word → β}

lemma key_update (he : e.key = (c.buf b).key) (x : BufId) :
    (update c.buf b e x).key = (c.buf x).key := by
  by_cases hx : x = b
  · subst hx
    rwa [update_self]
  · rw [update_of_ne hx]

lemma Order.unique (ho : Order c xs) (hne : b ≠ b') (hb : (c.buf b).refcnt ≠ 0)
    (hk : (c.buf b).key = (c.buf b').key) : (c.buf b').refcnt = 0 ∧ (c.buf b').valid = false := by
  let R : BufId → BufId → Prop := fun x y => (c.buf x).key = (c.buf y).key →
    ((c.buf x).refcnt = 0 ∧ (c.buf x).valid = false) ∨
      ((c.buf y).refcnt = 0 ∧ (c.buf y).valid = false)
  have hsymm : Std.Symm R := ⟨fun x y hxy he => (hxy he.symm).symm⟩
  have hpair : xs.Pairwise R := ho.first.imp fun hfirst he => .inr (hfirst he)
  exact (hpair.forall (ho.mem b) (ho.mem b') hne hk).resolve_left fun hu => hb hu.1

section
variable (h : Inv K content c)
include h

lemma Inv.not_referenced (hb : (c.buf b).refcnt = 0) (x : Tid ⊕ BufId) : refs c x ≠ some b := by
  intro hx
  have hpos := h.count.pos_of_held hx
  simp [hb] at hpos

lemma Inv.unlocked (hb : (c.buf b).refcnt = 0) : (c.buf b).owner = none := by
  by_contra ho
  exact h.not_referenced hb (.inr b) (by simp [refs, ho])

lemma Inv.referenced (ho : (c.buf b).owner = some t) : (c.buf b).refcnt ≠ 0 := by
  intro hb
  cases ho.symm.trans (h.unlocked hb)

lemma Inv.unique (hne : b ≠ b') (hb : (c.buf b).refcnt ≠ 0) (hk : (c.buf b).key = (c.buf b').key) :
    (c.buf b').refcnt = 0 ∧ (c.buf b').valid = false := by
  obtain ⟨xs, ho⟩ := h.order
  exact ho.unique hne hb hk

lemma Inv.refcnt_le (b : BufId) : (c.buf b).refcnt.toNat ≤ 96 := by
  have hcount := h.count.count b
  have hle : (holders (refs c) b).ncard ≤ Nat.card (Tid ⊕ BufId) := Set.ncard_le_card _
  simp only [Nat.card_eq_fintype_card, Fintype.card_sum, Fintype.card_fin, nproc, nnum] at hle
  simp only [count_nil] at hcount
  omega

lemma Inv.toNat_succ (b : BufId) : ((c.buf b).refcnt + 1).toNat = (c.buf b).refcnt.toNat + 1 := by
  have := h.refcnt_le b
  rw [BitVec.toNat_add]
  simp
  omega

end

/-! ## The steps -/

lemma pairwise_of_find {α : Type} {p : α → Bool} {xs : List α} {b : α} (hnd : xs.Nodup)
    (h : xs.find? p = some b) : xs.Pairwise fun x y => y = b → p x = false := by
  induction xs with
  | nil => exact .nil
  | cons a xs ih =>
    rw [find?_cons] at h
    obtain ⟨ha, hnd⟩ := nodup_cons.mp hnd
    cases hp : p a with
    | true =>
      rw [hp] at h
      obtain rfl := some.inj h
      refine pairwise_cons.mpr ⟨?_, ?_⟩
      · rintro y hy rfl
        exact absurd hy ha
      · refine pairwise_of_forall_mem_list ?_
        rintro x - y hy rfl
        exact absurd hy ha
    | false =>
      rw [hp] at h
      exact pairwise_cons.mpr ⟨fun _ _ _ => hp, ih hnd h⟩

lemma bget_eq_some (ho : Order c xs) (h : bget c k = some (b, c')) :
    (xs.find? (fun b => (c.buf b).key = k) = some b ∧
      c' = c.setBuf b { c.buf b with refcnt := (c.buf b).refcnt + 1 }) ∨
    ((∀ b, (c.buf b).key ≠ k) ∧ (c.buf b).refcnt = 0 ∧
      c' = c.setBuf b { c.buf b with key := k, valid := false, refcnt :=
        (c.buf b).refcnt + 1 }) := by
  rw [bget, ho.spells.search_next _ ho.spells.length_le,
    ho.spells.search_prev _ ho.spells.length_le] at h
  cases hfind : xs.find? (fun b => (c.buf b).key = k) with
  | some x =>
    rw [hfind] at h
    cases h
    exact .inl ⟨rfl, rfl⟩
  | none =>
    rw [hfind] at h
    right
    have hnone := find?_eq_none.mp hfind
    cases hlru : xs.reverse.find? (fun b => (c.buf b).refcnt = 0 ∧ (c.buf b).dirty = false) with
    | none =>
      rw [hlru] at h
      cases h
    | some x =>
      rw [hlru] at h
      cases h
      have hp := find?_some hlru
      simp only [decide_eq_true_eq] at hp
      refine ⟨fun b => ?_, hp.1, rfl⟩
      simpa using hnone b (ho.mem b)

/-- The buffer to which a process that waits or is about to give back has a reference. -/
def Pc.ref : Pc → Option BufId
  | .locking b => some b
  | .dropping b => some b
  | _ => none

/-- A step of the process `t` replaces the buffer `b`; it may move the buffer in the list. -/
structure Sets (c : Bcache β) (t : Tid) (b : BufId) (pc : Pc) (e : Buf β) (c' : Bcache β) :
    Prop where
  buf : c'.buf = update c.buf b e
  pc : c'.pc = update c.pc t pc
  disk : c'.disk = c.disk
  saved : ∀ x, x ≠ b → c'.saved x = c.saved x

lemma sets_setBuf (c : Bcache β) (t : Tid) (b : BufId) (pc : Pc) (e : Buf β) :
    Sets c t b pc e ((c.setBuf b e).setPc t pc) := ⟨rfl, rfl, rfl, fun _ _ => rfl⟩

section Sets

variable {pc : Pc} {e : Buf β} (hs : Sets c t b pc e c')
include hs

lemma Sets.refs_eq : refs c' =
    update (update (refs c) (.inl t) pc.ref) (.inr b)
      (if e.owner = none then none else some b) := by
  funext x
  rcases x with t' | b'
  · rw [update_of_ne (by simp), refs, hs.pc]
    by_cases ht : t' = t
    · subst ht
      rw [update_self, update_self]
      rfl
    · rw [update_of_ne ht, update_of_ne (by simpa using ht)]
      rfl
  · rw [refs, hs.buf]
    by_cases hb : b' = b
    · subst hb
      simp only [update_self]
    · rw [update_of_ne hb, update_of_ne (by simpa using hb), update_of_ne (by simp)]
      rfl

lemma Sets.cnt_eq : (fun x => ((c'.buf x).refcnt.toNat : Int)) =
    update (fun x => ((c.buf x).refcnt.toNat : Int)) b (e.refcnt.toNat : Int) := by
  rw [hs.buf]
  exact comp_update (fun e : Buf β => (e.refcnt.toNat : Int)) c.buf b e

lemma Order.set (ho : Order c xs) (hl : c'.links = c.links) (hk : e.key = (c.buf b).key)
    (hu : (c.buf b).refcnt = 0 ∧ (c.buf b).valid = false → e.refcnt = 0 ∧ e.valid = false) :
    Order c' xs := by
  refine ⟨hl ▸ ho.spells, ho.mem, ho.first.imp ?_⟩
  intro x y hfirst he
  rw [hs.buf] at he ⊢
  rw [key_update hk, key_update hk] at he
  by_cases hy : y = b
  · subst hy
    rw [update_self]
    exact hu (hfirst he)
  · rw [update_of_ne hy]
    exact hfirst he

lemma Inv.set (h : Inv K content c) (order : ∃ xs, Order c' xs)
    (count : Balanced (refs c') (fun b => ((c'.buf b).refcnt.toNat : Int)) [])
    (buf : BufInv K c.disk e (c'.saved b))
    (owner : ∀ u, u ≠ t → (c.buf b).owner = some u → e.owner = some u ∧ c'.saved b = c.saved b)
    (reading : ∀ b', pc = .reading b' → b' = b ∧ e.owner = some t ∧ c'.saved b = true) :
    Inv K content c' := by
  refine ⟨order, count, fun x => ?_, fun u x hr => ?_, hs.disk ▸ h.disk⟩
  · rw [hs.disk, hs.buf]
    by_cases hx : x = b
    · subst hx
      rwa [update_self]
    · rw [update_of_ne hx, hs.saved x hx]
      exact h.buf x
  · rw [hs.pc] at hr
    rw [hs.buf]
    by_cases hut : u = t
    · subst hut
      rw [update_self] at hr
      obtain ⟨rfl, hown, hsaved⟩ := reading x hr
      exact ⟨by rwa [update_self], hsaved⟩
    · rw [update_of_ne hut] at hr
      obtain ⟨hown, hsaved⟩ := h.reading u x hr
      by_cases hx : x = b
      · subst hx
        obtain ⟨he, hsame⟩ := owner u hut hown
        exact ⟨by rwa [update_self], hsame.trans hsaved⟩
      · rw [update_of_ne hx, hs.saved x hx]
        exact ⟨hown, hsaved⟩

end Sets

lemma refs_inr (c : Bcache β) (b : BufId) :
    refs c (.inr b) = if (c.buf b).owner = none then none else some b := rfl

section
variable (h : Inv K content c)
include h

lemma Inv.saved_of_unlocked (hown : (c.buf b).owner = none) : c.saved b = true := by
  by_contra hs
  exact (h.buf b).unsaved (by simpa using hs) hown

lemma Inv.acquire (hpc : c.pc t = .idle)
    (hown : e.owner = (c.buf b).owner) (href : e.refcnt = (c.buf b).refcnt + 1)
    (hbuf : BufInv K c.disk e (c.saved b)) (ho : Order ((c.setBuf b e).setPc t (.locking b)) xs) :
    Inv K content ((c.setBuf b e).setPc t (.locking b)) := by
  have hs := sets_setBuf c t b (.locking b) e
  refine h.set hs ⟨xs, ho⟩ ?_ hbuf (fun u _ hu => ⟨hown.trans hu, rfl⟩) nofun
  have hidle : refs c (.inl t) = none := by simp [refs, hpc]
  have hput := (h.count.acquire b).put hidle
  rw [hs.refs_eq, hs.cnt_eq, hown, href, h.toNat_succ, ← refs_inr, update_eq_self_iff.mpr]
  · push_cast
    exact hput
  · rw [update_of_ne (by simp)]

lemma Inv.get (hpc : c.pc t = .idle) (hk : k ∈ K)
    (hget : bget c k = some (b, c')) : Inv K content (c'.setPc t (.locking b)) := by
  obtain ⟨xs, ho⟩ := h.order
  have hbuf := h.buf b
  rcases bget_eq_some ho hget with ⟨hfind, rfl⟩ | ⟨hnone, hzero, rfl⟩
  · -- the block is in the cache
    have hbk : (c.buf b).key = k := by simpa using find?_some hfind
    refine h.acquire hpc rfl rfl ⟨hbuf.clean, hbuf.unsaved, hbuf.cached, fun _ => hbk ▸ hk⟩
      ⟨ho.spells, ho.mem, (ho.first.and (pairwise_of_find ho.spells.nodup hfind)).imp ?_⟩
    rintro x y ⟨hfirst, hno⟩ he
    simp only [setPc, setBuf] at he
    rw [key_update (by rfl), key_update (by rfl)] at he
    -- a buffer before `b` in the list holds another block
    have hyb : y ≠ b := by
      rintro rfl
      simpa [he, hbk] using hno rfl
    simpa [setPc, setBuf_of_ne hyb] using hfirst he
  · -- a buffer without references is given to the block
    have hsaved := h.saved_of_unlocked (h.unlocked hzero)
    refine h.acquire hpc rfl rfl ⟨hbuf.clean, by simp [hsaved], by simp, fun _ => hk⟩
      ⟨ho.spells, ho.mem, (ho.first.and ho.spells.nodup).imp ?_⟩
    rintro x y ⟨hfirst, hxy⟩ he
    by_cases hx : x = b
    · subst hx
      simp only [setPc, setBuf_self, setBuf_of_ne (Ne.symm hxy)] at he
      exact absurd he.symm (hnone y)
    · by_cases hy : y = b
      · subst hy
        simp only [setPc, setBuf_self, setBuf_of_ne hxy] at he
        exact absurd he (hnone x)
      · simp only [setPc, setBuf_of_ne hx, setBuf_of_ne hy] at he ⊢
        exact hfirst he

lemma Inv.lock (hpc : c.pc t = .locking b) (hown : (c.buf b).owner = none) :
    Inv K content ((c.setBuf b { c.buf b with owner := some t }).setPc t (.reading b)) := by
  obtain ⟨xs, ho⟩ := h.order
  have hbuf := h.buf b
  have hsaved := h.saved_of_unlocked hown
  have hs := sets_setBuf c t b (.reading b) { c.buf b with owner := some t }
  refine h.set hs ⟨xs, ho.set hs rfl rfl id⟩ ?_ ⟨hbuf.clean, by simp, hbuf.cached, hbuf.key⟩
    (fun u _ hu => by simp [hown] at hu) fun b' hb => ⟨(Pc.reading.inj hb).symm, rfl, hsaved⟩
  -- the reference of the waiting process becomes the reference of the lock
  have hwait : refs c (.inl t) = some b := by simp [refs, hpc]
  have htake := (h.count.take hwait).put (x := .inr b) (by
    rw [update_of_ne (by simp)]
    simp [refs, hown])
  rw [hs.refs_eq, hs.cnt_eq, update_eq_self_iff.mpr rfl]
  simpa [Pc.ref] using htake

lemma Sets.count {pc : Pc} (hs : Sets c t b pc e c') (hpc : (c.pc t).ref = none)
    (hpc' : pc.ref = none) (hown : e.owner = (c.buf b).owner) (href : e.refcnt = (c.buf b).refcnt) :
    Balanced (refs c') (fun b => ((c'.buf b).refcnt.toNat : Int)) [] := by
  rw [hs.refs_eq, hs.cnt_eq, href, update_eq_self_iff.mpr rfl, hown, ← refs_inr,
    update_eq_self_iff.mpr]
  · rw [hpc', ← hpc, show (c.pc t).ref = refs c (.inl t) from rfl, update_eq_self]
    exact h.count
  · rw [update_of_ne (by simp)]

lemma Inv.ret (hpc : c.pc t = .reading b) :
    Inv K content ((fill c b).setPc t .idle) := by
  obtain ⟨xs, ho⟩ := h.order
  obtain ⟨hown, hsaved⟩ := h.reading t b hpc
  have href := h.referenced hown
  have hbuf := h.buf b
  rw [fill]
  split
  · have hs : Sets c t b .idle (c.buf b) (c.setPc t .idle) :=
      ⟨by simp [setPc], rfl, rfl, fun _ _ => rfl⟩
    exact h.set hs ⟨xs, ho.set hs rfl rfl id⟩ (hs.count h (by rw [hpc]; rfl) rfl rfl rfl) hbuf
      (fun _ _ hu => ⟨hu, rfl⟩) nofun
  · have hs := sets_setBuf c t b .idle
      { c.buf b with data := c.disk (sector (c.buf b).key), valid := true }
    exact h.set hs ⟨xs, ho.set hs rfl rfl fun hu => absurd hu.1 href⟩
      (hs.count h (by rw [hpc]; rfl) rfl rfl rfl)
      ⟨hbuf.clean, hbuf.unsaved, fun _ _ => rfl, fun _ => hbuf.key (.inl href)⟩
      (fun _ _ hu => ⟨hu, rfl⟩) nofun

lemma Inv.fill_data (hpc : c.pc t = .reading b) :
    ((fill c b).buf b).data = content (c.buf b).key := by
  obtain ⟨hown, hsaved⟩ := h.reading t b hpc
  have hk : (c.buf b).key ∈ K := (h.buf b).key (.inl (h.referenced hown))
  rw [← h.disk _ hk, fill]
  split
  · rename_i hv
    exact (h.buf b).cached hv hsaved
  · simp

lemma Inv.modify (hpc : c.pc t = .idle) (hown : (c.buf b).owner = some t) (d : β) : Inv K content
      { c.setBuf b { c.buf b with data := d } with saved := update c.saved b false } := by
  obtain ⟨xs, ho⟩ := h.order
  have hbuf := h.buf b
  have hs : Sets c t b .idle { c.buf b with data := d }
      { c.setBuf b { c.buf b with data := d } with saved := update c.saved b false } :=
    ⟨rfl, by rw [← hpc, update_eq_self]; rfl, rfl, fun x hx => update_of_ne hx ..⟩
  refine h.set hs ⟨xs, ho.set hs rfl rfl id⟩ (hs.count h (by rw [hpc]; rfl) rfl rfl rfl)
    ⟨hbuf.clean, fun _ => by simp [hown], by simp, hbuf.key⟩ (fun u hu hown' => ?_) nofun
  exact absurd (some.inj (hown.symm.trans hown')).symm hu

lemma Inv.write (hK : Set.InjOn sector K) (hown : (c.buf b).owner = some t) :
    Inv K (update content (c.buf b).key (c.buf b).data) (writeBack c b) := by
  have href := h.referenced hown
  have hkey : (c.buf b).key ∈ K := (h.buf b).key (.inl href)
  obtain ⟨xs, ho⟩ := h.order
  refine ⟨⟨xs, ho.spells, ho.mem, ho.first⟩, h.count, fun x => ?_, fun t' b' hr => ?_,
    fun k hk => ?_⟩
  · have hx := h.buf x
    by_cases hxb : x = b
    · subst hxb
      refine ⟨hx.clean, by simp [writeBack], fun _ _ => ?_, hx.key⟩
      simp [writeBack]
    · refine ⟨hx.clean, ?_, fun hv hs => ?_, hx.key⟩
      · simpa [writeBack, update_of_ne hxb] using hx.unsaved
      · -- a second valid buffer holds another block, and that block is elsewhere on the disk
        have hne : sector (c.buf x).key ≠ sector (c.buf b).key := by
          intro hsec
          have hkk := hK (hx.key (.inr hv)) hkey hsec
          have hinvalid := (h.unique (Ne.symm hxb) href hkk.symm).2
          simp only [writeBack] at hv
          simp [hinvalid] at hv
        have hs' : c.saved x = true := by simpa [writeBack, update_of_ne hxb] using hs
        simpa [writeBack, update_of_ne hne] using hx.cached hv hs'
  · obtain ⟨hown', hsaved'⟩ := h.reading t' b' hr
    refine ⟨hown', ?_⟩
    by_cases hb : b' = b
    · subst hb
      simp [writeBack]
    · simpa [writeBack, update_of_ne hb] using hsaved'
  · by_cases hkb : k = (c.buf b).key
    · subst hkb
      simp [writeBack]
    · have hne : sector k ≠ sector (c.buf b).key := fun hsec => hkb (hK hk hkey hsec)
      simpa [writeBack, update_of_ne hkb, update_of_ne hne] using h.disk k hk

lemma Inv.unlock (hpc : c.pc t = .idle) (hown : (c.buf b).owner = some t)
    (hsaved : c.saved b = true) :
    Inv K content ((c.setBuf b { c.buf b with owner := none }).setPc t (.dropping b)) := by
  obtain ⟨xs, ho⟩ := h.order
  have hbuf := h.buf b
  have hs := sets_setBuf c t b (.dropping b) { c.buf b with owner := none }
  refine h.set hs ⟨xs, ho.set hs rfl rfl id⟩ ?_ ⟨hbuf.clean, fun hn => ?_, hbuf.cached, hbuf.key⟩
    (fun u hu hown' => ?_) nofun
  · -- the reference of the lock goes to the process
    have hlock : refs c (.inr b) = some b := by simp [refs, hown]
    have hput := (h.count.take hlock).put (x := .inl t) (by
      rw [update_of_ne (by simp)]
      simp [refs, hpc])
    rw [hs.refs_eq, hs.cnt_eq, update_eq_self_iff.mpr rfl, update_comm (by simp)]
    simpa [Pc.ref] using hput
  · cases hn.symm.trans hsaved
  · exact absurd (some.inj (hown.symm.trans hown')).symm hu

end

lemma Order.toFront (ho : Order c xs) (hbuf : c'.buf = update c.buf b e)
    (hb : (c.buf b).refcnt ≠ 0) (hk : e.key = (c.buf b).key)
    (hl : c'.links = (c.links.remove b).pushFront b) : Order c' (b :: xs.erase b) := by
  have hne : ∀ y ∈ xs.erase b, y ≠ b := by
    rintro y hy rfl
    exact ho.spells.nodup.not_mem_erase hy
  refine ⟨hl ▸ ho.spells.toFront (ho.mem b), fun x => mem_toFront (ho.mem x), ?_⟩
  rw [hbuf]
  refine pairwise_cons.mpr ⟨fun y hy he => ?_, ?_⟩
  · rw [update_of_ne (hne y hy)] at he ⊢
    rw [update_self, hk] at he
    exact ho.unique (hne y hy).symm hb he
  · refine (ho.first.sublist erase_sublist).imp_of_mem ?_
    intro x y hx hy hfirst he
    rw [update_of_ne (hne x hx), update_of_ne (hne y hy)] at he
    rw [update_of_ne (hne y hy)]
    exact hfirst he

lemma Inv.drop (h : Inv K content c) (hpc : c.pc t = .dropping b) :
    Inv K content ((dropRef c b).setPc t .idle) := by
  obtain ⟨xs, ho⟩ := h.order
  have hbuf := h.buf b
  have hheld : refs c (.inl t) = some b := by simp [refs, hpc]
  have hpos := h.count.pos_of_held hheld
  have href : (c.buf b).refcnt ≠ 0 := fun hb => h.not_referenced hb _ hheld
  have hsub : (((c.buf b).refcnt - 1).toNat : Int) = (c.buf b).refcnt.toNat - 1 := by
    have hle : 1 ≤ (c.buf b).refcnt.toNat := by omega
    rw [BitVec.toNat_sub]
    simp
    omega
  have hset : ∀ c', Sets c t b .idle { c.buf b with refcnt := (c.buf b).refcnt - 1 } c' →
      (∃ xs, Order c' xs) → c'.saved b = c.saved b → Inv K content c' := by
    intro c' hs horder hsaved
    refine h.set hs horder ?_ ⟨hbuf.clean, hsaved ▸ hbuf.unsaved, hsaved ▸ hbuf.cached, fun _ =>
      hbuf.key (.inl href)⟩
      (fun _ _ hu => ⟨hu, hsaved⟩) nofun
    have hrelease := (h.count.take hheld).release
    rw [hs.refs_eq, hs.cnt_eq, hsub, ← refs_inr, update_eq_self_iff.mpr]
    · exact hrelease
    · rw [update_of_ne (by simp)]
  simp only [dropRef]
  split
  · refine hset _ ⟨rfl, rfl, rfl, fun _ _ => rfl⟩ ⟨b :: xs.erase b, ?_⟩ rfl
    exact ho.toFront (e := { c.buf b with refcnt := (c.buf b).refcnt - 1 }) rfl href rfl rfl
  · have hs := sets_setBuf c t b .idle { c.buf b with refcnt := (c.buf b).refcnt - 1 }
    exact hset _ hs ⟨xs, ho.set hs rfl rfl fun hu => absurd hu.1 href⟩ rfl

/-! ## Runs -/

lemma inv_binit (K : Set Key) (zero : β) (disk : Word → β) :
    Inv K (fun k => disk (sector k)) (binit zero disk) := by
  refine ⟨⟨(finRange nnum).reverse, ?_, by simp, ?_⟩, ⟨?_, fun p => ?_⟩, fun b => ?_, ?_,
    fun _ _ => rfl⟩
  · exact spells_finRange nnum
  · exact pairwise_of_forall fun _ _ _ => ⟨rfl, rfl⟩
  · exact Set.toFinite _
  · have hnone : holders (refs (binit zero disk)) p = ∅ := by
      ext x
      rcases x with t | b <;> simp [refs, binit]
    rw [hnone]
    simp [binit]
  · exact ⟨rfl, by simp [binit], by simp [binit], by simp [binit]⟩
  · intro t b h
    simp [binit] at h

lemma lastWrite_append (disk : Word → β) (acts : List (Act β)) (a : Act β) :
    lastWrite disk (acts ++ [a]) = match a with
      | .write _ _ k d => update (lastWrite disk acts) k d
      | _ => lastWrite disk acts := by
  funext k
  rw [lastWrite, foldl_append]
  cases a with
  | write t b k' d =>
    simp only [foldl_cons, foldl_nil]
    by_cases hk : k' = k
    · subst hk
      simp
    · rw [if_neg hk, update_of_ne (Ne.symm hk)]
      rfl
  | _ => rfl

/-- Every block asked for is one of `K`. -/
def Asks (K : Set Key) (acts : List (Act β)) : Prop := ∀ t k, .get t k ∈ acts → k ∈ K

lemma Inv.step (hK : Set.InjOn sector K)
    (h : Inv K (lastWrite disk acts) c) (ha : ∀ t k, a = .get t k → k ∈ K) (hs : Step c a c') :
    Inv K (lastWrite disk (acts ++ [a])) c' := by
  rw [lastWrite_append]
  cases hs with
  | get hpc hget => exact h.get hpc (ha _ _ rfl) hget
  | lock hpc hown => exact h.lock hpc hown
  | ret hpc => exact h.ret hpc
  | modify hpc hown => exact h.modify hpc hown _
  | write hpc hown => exact h.write hK hown
  | unlock hpc hown hsaved => exact h.unlock hpc hown hsaved
  | drop hpc => exact h.drop hpc

lemma inv_run (hK : Set.InjOn sector K)
    (ha : Asks K acts) (hr : Run Step (binit zero disk) acts c) :
    Inv K (lastWrite disk acts) c := by
  refine hr.history (fun acts => Inv K (lastWrite disk acts))
    (fun _ a => ∀ t k, a = .get t k → k ∈ K)
    (fun _ _ _ _ h ha hs => h.step hK ha hs) (inv_binit K zero disk) ?_
  rintro before a after rfl t k rfl
  exact ha t k (by simp)

lemma Inv.key_of_step (h : Inv K content c) (hs : Step c a c')
    (hb : (c.buf b).refcnt ≠ 0) : (c'.buf b).key = (c.buf b).key := by
  have hset : ∀ (x : BufId) (e : Buf β), e.key = (c.buf x).key →
      ((c.setBuf x e).buf b).key = (c.buf b).key := fun _ _ he => key_update he b
  obtain ⟨xs, ho⟩ := h.order
  cases hs with
  | @get _ _ _ x hpc hget =>
    rcases bget_eq_some ho hget with ⟨-, rfl⟩ | ⟨-, hzero, rfl⟩
    · exact hset x _ rfl
    · have hx : b ≠ x := by
        rintro rfl
        exact hb hzero
      simp [setPc, setBuf_of_ne hx]
  | lock hpc hown => exact hset _ _ rfl
  | ret hpc =>
    simp only [setPc, fill]
    split
    · rfl
    · exact hset _ _ rfl
  | modify hpc hown => exact hset _ _ rfl
  | write hpc hown => rfl
  | unlock hpc hown hsaved => exact hset _ _ rfl
  | drop hpc =>
    simp only [setPc, dropRef]
    split <;> exact hset _ _ rfl

/-! ## What a process has asked for -/

/-- The buffer that a process waits for or is about to return from `bread`. -/
def Pc.awaited : Pc → Option BufId
  | .locking b => some b
  | .reading b => some b
  | _ => none

/-- The last `bread` that the process has begun is for the block. -/
def LastAsked (acts : List (Act β)) (t : Tid) (k : Key) : Prop :=
  ∃ before after, acts = before ++ .get t k :: after ∧ ∀ k', .get t k' ∉ after

lemma LastAsked.snoc (h : LastAsked acts t k) (ha : ∀ k', a ≠ .get t k') :
    LastAsked (acts ++ [a]) t k := by
  obtain ⟨before, after, rfl, hno⟩ := h
  refine ⟨before, after ++ [a], by simp, fun k' hk' => ?_⟩
  rcases mem_append.mp hk' with hmem | hmem
  · exact hno k' hmem
  · exact ha k' (mem_singleton.mp hmem).symm

lemma awaited_setPc {pc : Pc} (h : ((c.setPc t pc).pc u).awaited = some b) :
    u = t ∧ pc.awaited = some b ∨ u ≠ t ∧ (c.pc u).awaited = some b := by
  by_cases hut : u = t
  · subst hut
    exact .inl ⟨rfl, by simpa [setPc] using h⟩
  · exact .inr ⟨hut, by simpa [setPc, update_of_ne hut] using h⟩

lemma bget_key (ho : Order c xs) (h : bget c k = some (b, c')) :
    (c'.buf b).key = k ∧ c'.pc = c.pc := by
  rcases bget_eq_some ho h with ⟨hfind, rfl⟩ | ⟨-, -, rfl⟩
  · exact ⟨by simpa using find?_some hfind, rfl⟩
  · exact ⟨by simp, rfl⟩

/-- A buffer is awaited after a step because it was before, or because the step asks for its
block. -/
lemma awaited_of_step (h : Inv K content c) (hs : Step c a c') (hb : (c'.pc u).awaited = some b) :
    a = .get u (c'.buf b).key ∨ (c.pc u).awaited = some b ∧ ∀ k, a ≠ .get u k := by
  obtain ⟨xs, ho⟩ := h.order
  cases hs with
  | get hpc hget =>
    obtain ⟨hkey, hpcs⟩ := bget_key ho hget
    rcases awaited_setPc hb with ⟨rfl, hx⟩ | ⟨hu, hu'⟩
    · cases hx
      exact .inl (by rw [← hkey]; rfl)
    · exact .inr ⟨hpcs ▸ hu', fun k hk => hu (Act.get.inj hk).1.symm⟩
  | lock hpc hown =>
    rcases awaited_setPc hb with ⟨rfl, hx⟩ | ⟨hu, hu'⟩
    · cases hx
      exact .inr ⟨by rw [hpc]; rfl, nofun⟩
    · exact .inr ⟨hu', nofun⟩
  | ret hpc =>
    rcases awaited_setPc hb with ⟨rfl, hx⟩ | ⟨hu, hu'⟩
    · cases hx
    · refine .inr ⟨?_, nofun⟩
      unfold fill at hu'
      split at hu' <;> exact hu'
  | modify hpc hown => exact .inr ⟨hb, nofun⟩
  | write hpc hown => exact .inr ⟨hb, nofun⟩
  | unlock hpc hown hsaved =>
    rcases awaited_setPc hb with ⟨rfl, hx⟩ | ⟨hu, hu'⟩
    · cases hx
    · exact .inr ⟨hu', nofun⟩
  | drop hpc =>
    rcases awaited_setPc hb with ⟨rfl, hx⟩ | ⟨hu, hu'⟩
    · cases hx
    · refine .inr ⟨?_, nofun⟩
      unfold dropRef at hu'
      dsimp only at hu'
      split at hu' <;> exact hu'

lemma Inv.referenced_of_awaited (h : Inv K content c) (hb : (c.pc t).awaited = some b) :
    (c.buf b).refcnt ≠ 0 := by
  cases hpc : c.pc t with
  | locking x =>
    obtain rfl : x = b := by simpa [hpc, Pc.awaited] using hb
    exact fun hzero => h.not_referenced hzero (.inl t) (by simp [refs, hpc])
  | reading x =>
    obtain rfl : x = b := by simpa [hpc, Pc.awaited] using hb
    exact h.referenced (h.reading t x hpc).1
  | idle | dropping => simp [hpc, Pc.awaited] at hb

/-- The buffer that a process waits for holds the block it has asked for. -/
lemma asked_run (hK : Set.InjOn sector K) (ha : Asks K acts)
    (hr : Run Step (binit zero disk) acts c)
    (hb : (c.pc t).awaited = some b) : LastAsked acts t (c.buf b).key := by
  have hall := hr.history
    (fun acts c => Inv K (lastWrite disk acts) c ∧
      ∀ t b, (c.pc t).awaited = some b → LastAsked acts t (c.buf b).key)
    (fun _ a => ∀ t k, a = .get t k → k ∈ K) ?_
      ⟨inv_binit K zero disk, fun t b h => by simp [binit, Pc.awaited] at h⟩ ?_
  · exact hall.2 t b hb
  · rintro before c a c' ⟨h, hasked⟩ hk hs
    refine ⟨h.step hK hk hs, fun u b hb => ?_⟩
    rcases awaited_of_step h hs hb with hget | ⟨hb', hno⟩
    · rw [hget]
      exact ⟨before, [], rfl, nofun⟩
    · rw [h.key_of_step hs (h.referenced_of_awaited hb')]
      exact (hasked u b hb').snoc hno
  · rintro before a after rfl t k rfl
    exact ha t k (by simp)

lemma Inv.refcnt_ne_zero (h : Inv K content c) : (c.buf b).refcnt ≠ 0 ↔ ∃ x, refs c x = some b := by
  refine ⟨fun hb => ?_, fun ⟨x, hx⟩ hb => h.not_referenced hb x hx⟩
  by_contra hno
  have hcount := h.count.count b
  rw [show holders (refs c) b = ∅ from Set.eq_empty_of_forall_notMem fun x hx =>
    hno ⟨x, hx⟩] at hcount
  exact hb (BitVec.eq_of_toNat_eq (by simpa using hcount))

/-- The blocks that processes hold or wait for. -/
def inUse (c : Bcache β) : Finset Key :=
  (Finset.univ.filter fun b => ∃ x, refs c x = some b).image fun b => (c.buf b).key

/-- `bget` has no buffer if all of them are in use for other blocks. -/
lemma Inv.bget_eq_none (h : Inv K content c) :
    bget c k = none ↔ (∀ b, (c.buf b).key ≠ k) ∧ ∀ b, (c.buf b).refcnt ≠ 0 := by
  obtain ⟨xs, ho⟩ := h.order
  have hkey : xs.find? (fun b => (c.buf b).key = k) = none ↔ ∀ b, (c.buf b).key ≠ k := by
    simp [ho.mem]
  have hfree : xs.reverse.find? (fun b => (c.buf b).refcnt = 0 ∧ (c.buf b).dirty = false) = none ↔
      ∀ b, (c.buf b).refcnt ≠ 0 := by
    simp [ho.mem, (h.buf _).clean]
  rw [bget, ho.spells.search_next _ ho.spells.length_le,
    ho.spells.search_prev _ ho.spells.length_le, ← hkey, ← hfree]
  split
  · simp_all
  · split <;> simp_all

lemma Inv.bget_some (h : Inv K content c) (hc : (insert k (inUse c)).card ≤ nnum) :
    ∃ r, bget c k = some r := by
  rw [← ne_none_iff_exists', ne_eq, h.bget_eq_none]
  rintro ⟨hkey, hall⟩
  -- all buffers are in use, for different blocks, and none of them for `k`
  have hinj : Set.InjOn (fun b => (c.buf b).key)
    (Finset.univ.filter fun b => ∃ x, refs c x = some b) := by
    intro b _ b' _ he
    by_contra hne
    exact hall b' (h.unique hne (hall b) he).1
  have hk : k ∉ inUse c := by
    intro hm
    obtain ⟨b, -, hb⟩ := Finset.mem_image.mp hm
    exact hkey b hb
  have hcard : (inUse c).card = nnum := by
    rw [inUse, Finset.card_image_of_injOn hinj,
      Finset.filter_true_of_mem fun b _ => h.refcnt_ne_zero.mp (hall b)]
    simp
  rw [Finset.card_insert_of_notMem hk, hcard] at hc
  omega

/-- The cache is transparent. `K` are the blocks in use; the driver finds each of them at a place of
its own. Every `bread` returns the block that it was called for, with what the last `bwrite` of the
block wrote, or what was on the disk; a buffer has one reference for each process that holds it or
waits for it; one block is never in two buffers that are in use; a buffer in use keeps its block;
the list holds every buffer once; and there is a buffer for a block as long as no more than `NNUM`
blocks are in use. -/
theorem cache_transparent (hK : Set.InjOn sector K) {zero : β} {disk : Word → β}
    {acts : List (Act β)} (hr : Run Step (binit zero disk) acts c) (ha : Asks K acts) :
    (∀ pre post t b k d, acts = pre ++ .ret t b k d :: post →
      LastAsked pre t k ∧ d = lastWrite disk pre k) ∧
    (∀ b, (c.buf b).refcnt.toNat = (holders (refs c) b).ncard) ∧
    (∀ b b', (c.buf b).refcnt ≠ 0 → (c.buf b').refcnt ≠ 0 → (c.buf b).key = (c.buf b').key →
      b = b') ∧
    (∀ a c' b, Step c a c' → (c.buf b).refcnt ≠ 0 → (c'.buf b).key = (c.buf b).key) ∧
    (∃ xs, Spells c.links xs ∧ xs.Perm (List.finRange nnum)) ∧
    ∀ k, (insert k (inUse c)).card ≤ nnum → ∃ r, bget c k = some r := by
  have hend := inv_run hK ha hr
  refine ⟨?_, fun b => by simpa using hend.count.count b, fun b b' hb hb' he => ?_,
    fun a c' b hs hb => hend.key_of_step hs hb, ?_, fun k hk => hend.bget_some hk⟩
  · rintro pre post t b k d rfl
    obtain ⟨m, h₁, h₂⟩ := hr.split
    have hpre : Asks K pre := fun t k h => ha t k (by simp [h])
    cases h₂ with
    | cons hs _ =>
      cases hs with
      | ret hpc =>
        exact ⟨asked_run hK hpre h₁ (by rw [hpc]; rfl), (inv_run hK hpre h₁).fill_data hpc⟩
  · by_contra hne
    exact hb' (hend.unique hne hb he).1
  · obtain ⟨xs, ho⟩ := hend.order
    exact ⟨xs, ho.spells, ho.spells.perm ho.mem⟩

/-! ## Runs with given actions -/

/-- The data block of the `n`th file. -/
def fileBlock (n : Nat) : Key := ⟨0, 11 + BitVec.ofNat 64 n⟩

/-- The first `n` processes read a file each and sleep until the disk has the block. -/
def busy (n : Nat) : Bcache Nat where
  buf b := if b < n then ⟨0, fileBlock b, false, false, 1, some (b.castLE (by decide))⟩
    else ⟨0, ⟨0, 0⟩, false, false, 0, none⟩
  links := (binit 0 fun _ => 0).links
  disk _ := 0
  pc t := if h : t < n ∧ t < nnum then .reading ⟨t, h.2⟩ else .idle
  saved _ := true

/-- The next process finds the buffer after those in use, at the end of the list. -/
lemma search_busy : ∀ n : BufId,
    search (busy n).links.next (fun b => ((busy n).buf b).key = fileBlock n) nnum
      ((busy n).links.next none) = none ∧
    search (busy n).links.prev (fun b => ((busy n).buf b).refcnt = 0 ∧
      ((busy n).buf b).dirty = false)
      nnum ((busy n).links.prev none) = some n := by
  decide +kernel

def easyfsBlocks : Set Key := {k | k.dev = 0 ∧ k.blkno < 4096}

lemma injOn_easyfsBlocks : Set.InjOn sector easyfsBlocks := by
  rintro ⟨_, x⟩ ⟨rfl, hx⟩ ⟨_, y⟩ ⟨rfl, hy⟩ h
  simp only [sector] at h hx hy
  rw [Key.mk.injEq]
  exact ⟨rfl, by bv_omega⟩

lemma step_busy (n : BufId) : ∃ c, Step (busy n) (.get (n.castLE (by decide)) (fileBlock n)) c ∧
    Step c (.lock (n.castLE (by decide))) (busy (n + 1)) := by
  obtain ⟨hkey, hfree⟩ := search_busy n
  have hget : bget (busy n) (fileBlock n) = some (n, (busy n).setBuf n
      { (busy n).buf n with key := fileBlock n, valid := false, refcnt :=
        ((busy n).buf n).refcnt + 1 }) := by
    rw [bget, hkey, hfree]
  have hidle : (busy n).pc (n.castLE (by decide)) = .idle := by simp [busy]
  obtain ⟨c, hc, hstep⟩ : ∃ c, c = _ ∧
    Step (busy n) (.get (n.castLE (by decide)) (fileBlock n)) c :=
    ⟨_, rfl, .get hidle hget⟩
  have hlock : Step c (.lock (n.castLE (by decide))) _ :=
    .lock (b := n) (by rw [hc]; exact update_self ..) (by simp [hc, setPc, busy])
  refine ⟨c, hstep, ?_⟩
  convert hlock using 1
  simp only [hc, busy, setBuf, setPc, update_self, Bcache.mk.injEq, and_true, true_and]
  constructor
  · funext b
    grind [update_apply]
  · funext t
    grind [update_apply]

lemma run_busy {n : Nat} (hn : n ≤ nnum) :
    ∃ acts, Run Step (binit 0 fun _ => 0) acts (busy n) ∧ Asks easyfsBlocks acts := by
  induction n with
  | zero => exact ⟨[], .nil _, by simp [Asks]⟩
  | succ n ih =>
    obtain ⟨acts, hrun, hasks⟩ := ih (by omega)
    obtain ⟨c, hget, hlock⟩ := step_busy ⟨n, hn⟩
    refine ⟨_, hrun.append (.cons hget (.cons hlock (.nil _))), fun t k hk => ?_⟩
    rcases mem_append.mp hk with hk | hk
    · exact hasks t k hk
    · simp only [mem_cons, Act.get.injEq, reduceCtorEq, not_mem_nil, or_false] at hk
      obtain ⟨-, rfl⟩ := hk
      exact ⟨rfl, (by decide : ∀ n : BufId, (fileBlock n).blkno < 4096) ⟨n, hn⟩⟩

/-- What an action leads to, if it can be taken. -/
def Bcache.next (c : Bcache Nat) : Act Nat → Option (Bcache Nat)
  | .get t k => if c.pc t = .idle then (bget c k).map fun r => r.2.setPc t (.locking r.1) else none
  | .lock t =>
    match c.pc t with
    | .locking b => if (c.buf b).owner = none then
        some ((c.setBuf b { c.buf b with owner := some t }).setPc t (.reading b)) else none
    | _ => none
  | .ret t b k d => if c.pc t = .reading b ∧ (c.buf b).key = k ∧ ((fill c b).buf b).data = d then
      some ((fill c b).setPc t .idle) else none
  | .modify t b d => if c.pc t = .idle ∧ (c.buf b).owner = some t then
      some { c.setBuf b { c.buf b with data := d } with saved := update c.saved b false } else none
  | .write t b k d => if c.pc t = .idle ∧ (c.buf b).owner = some t ∧ (c.buf b).key = k ∧
      (c.buf b).data = d then some (writeBack c b) else none
  | .unlock t b => if c.pc t = .idle ∧ (c.buf b).owner = some t ∧ c.saved b = true then
      some ((c.setBuf b { c.buf b with owner := none }).setPc t (.dropping b)) else none
  | .drop t =>
    match c.pc t with
    | .dropping b => some ((dropRef c b).setPc t .idle)
    | _ => none

lemma step_of_next {c c' : Bcache Nat} {a : Act Nat} (h : c.next a = some c') : Step c a c' := by
  cases a with
  | get t k =>
    simp only [Bcache.next] at h
    split at h
    · obtain ⟨⟨b, c''⟩, hget, rfl⟩ := map_eq_some_iff.mp h
      exact .get (by assumption) hget
    · cases h
  | lock t | drop t =>
    simp only [Bcache.next] at h
    split at h
    · grind [Step]
    · cases h
  | ret | modify | write | unlock =>
    simp only [Bcache.next] at h
    split at h
    · grind [Step]
    · cases h

lemma writer_lt : 31 < nproc := by decide

lemma spare_lt : 31 < nnum := by decide

/-- A process and the only buffer that the processes before it have left. -/
def writer : Tid := ⟨31, writer_lt⟩

def spare : BufId := ⟨31, spare_lt⟩

/-- The process writes a block, which then loses its buffer to another block and is read again. -/
def rewritten : List (Act Nat) :=
  let t := writer
  let b := spare
  [.get t (fileBlock 31), .lock t, .ret t b (fileBlock 31) 0, .modify t b 8,
    .write t b (fileBlock 31) 8,
    .unlock t b, .drop t, .get t (fileBlock 32), .lock t, .ret t b (fileBlock 32) 0,
      .unlock t b, .drop t,
    .get t (fileBlock 31), .lock t, .ret t b (fileBlock 31) 8]

lemma run_rewritten : ∃ before c, Run Step (binit 0 fun _ => 0) (before ++ rewritten) c ∧
    Asks easyfsBlocks (before ++ rewritten) := by
  obtain ⟨before, hrun, hasks⟩ := run_busy (n := 31) (by decide)
  have hplay : (Run.play Bcache.next (busy 31) rewritten).any (fun _ => true) = true := by
    decide +kernel
  obtain ⟨c, hrest, -⟩ := Run.of_play hplay
  refine ⟨before, c, hrun.append (hrest.mono fun _ _ _ => step_of_next), fun t k hk => ?_⟩
  rcases mem_append.mp hk with hk | hk
  · exact hasks t k hk
  · simp only [rewritten, mem_cons, Act.get.injEq, reduceCtorEq, not_mem_nil,
      or_false, false_or] at hk
    obtain ⟨-, rfl⟩ | ⟨-, rfl⟩ | ⟨-, rfl⟩ := hk <;> exact ⟨rfl, by decide⟩

/-- The last `bread` returns what was written. -/
theorem cache_transparent_rewritten : ∃ before c,
    Run Step (binit 0 fun _ => 0) (before ++ rewritten) c ∧
    lastWrite (fun _ => 0) (before ++ rewritten.take 14) (fileBlock 31) = 8 ∧
    (holders (refs c) spare).ncard = (c.buf spare).refcnt.toNat := by
  obtain ⟨before, c, hrun, hasks⟩ := run_rewritten
  obtain ⟨hret, hcount, -⟩ := cache_transparent injOn_easyfsBlocks hrun hasks
  have hlast :=
    (hret (before ++ rewritten.take 14) [] writer spare (fileBlock 31) 8 (by simp [rewritten])).2
  exact ⟨before, c, hrun, hlast.symm, (hcount spare).symm⟩

/-- In every interleaving the disk holds the last `bwrite` of each block, and so does every valid
buffer that nobody has locked: a power failure loses no write, and what `bget` recycles is on the
disk. -/
theorem disk_eq_lastWrite (hK : Set.InjOn sector K)
    (hr : Run Step (binit zero disk) acts c) (ha : Asks K acts) :
    (∀ k ∈ K, c.disk (sector k) = lastWrite disk acts k) ∧ ∀ b, (c.buf b).valid = true →
      (c.buf b).owner = none → (c.buf b).data = lastWrite disk acts (c.buf b).key := by
  have h := inv_run hK ha hr
  refine ⟨h.disk, fun b hv ho => ?_⟩
  have hb := h.buf b
  have hsaved : c.saved b = true := Bool.of_not_eq_false fun hs => hb.unsaved hs ho
  rw [hb.cached hv hsaved, h.disk _ (hb.key (.inr hv))]

/-- The block that was written and whose buffer was recycled is on the disk. -/
theorem disk_eq_lastWrite_rewritten : ∃ before c,
    Run Step (binit 0 fun _ => 0) (before ++ rewritten) c ∧ c.disk (sector (fileBlock 31)) = 8 := by
  obtain ⟨before, c, hrun, hasks⟩ := run_rewritten
  have hdisk := (disk_eq_lastWrite injOn_easyfsBlocks hrun hasks).1 (fileBlock 31) ⟨rfl, by decide⟩
  refine ⟨before, c, hrun, hdisk.trans ?_⟩
  simp [lastWrite, rewritten]

/-! ## No buffer left -/

/-- `bread` uses what `bget` returns without a test. In every state that is reached there is a
buffer exactly if the block is in the cache or some buffer is neither held nor waited for. -/
theorem bget_some_iff_unreferenced (hK : Set.InjOn sector K) {zero : β} {disk : Word → β}
    {acts : List (Act β)} (hr : Run Step (binit zero disk) acts c) (ha : Asks K acts) (k : Key) :
    (∃ r, bget c k = some r) ↔ ∃ b, (c.buf b).key = k ∨ ∀ x, refs c x ≠ some b := by
  have h := inv_run hK ha hr
  rw [← ne_none_iff_exists', ne_eq, h.bget_eq_none]
  simp only [h.refcnt_ne_zero, not_and_or, not_forall, not_exists, not_not, exists_or, ne_eq]

/-- The next process still finds a buffer while there is one nobody waits for. -/
theorem bget_some_iff_unreferenced_busy : ∃ acts c, Run Step (binit 0 fun _ => 0) acts c ∧
    Asks easyfsBlocks acts ∧ ∃ r, bget c (fileBlock 31) = some r := by
  obtain ⟨acts, hrun, hasks⟩ := run_busy (n := 31) (by decide)
  have hfree : ∀ x, refs (busy 31) x ≠ some ⟨31, by decide⟩ := by decide +kernel
  exact ⟨acts, _, hrun, hasks,
    (bget_some_iff_unreferenced injOn_easyfsBlocks hrun hasks _).mpr ⟨_, .inr hfree⟩⟩

/-- With 32 processes waiting for the disk, a `bread` of the next one uses a null pointer. -/
theorem bread_without_buffer : ∃ acts c, Run Step (binit 0 fun _ => 0) acts c ∧
    Asks easyfsBlocks acts ∧ c.pc ⟨nnum, by decide⟩ = .idle ∧
    bget c (fileBlock nnum) = none := by
  obtain ⟨acts, hrun, hasks⟩ := run_busy le_rfl
  exact ⟨acts, _, hrun, hasks, by decide, by decide +kernel⟩

end FrostVista.Kernel.BlockCache
