import FrostVista.EasyFs.Code
import FrostVista.Library.BlockTree

/-!
# EasyFS: the block trees of the inodes

The blocks of an inode form a tree of depth at most three: direct blocks, the single-indirect block
and the blocks it names, and the double-indirect block with two levels below. `Owned` says that the
trees of a set of inodes share no block and use only allocated blocks of the data area.

The block numbers at the top of each tree are a parameter: they are those of the inode in the cache,
which may have more blocks than the inode on the disk.
-/
namespace FrostVista.EasyFs

open Lib Lib.Radix Function Option Bytes

inductive Node where
  | inode (n : Nat)
  | block (n : Nat)
  deriving DecidableEq

/-- Where a block number points. -/
def follow (e : Nat) : Option Node := if e = 0 then none else some (.block e)

/-- The block numbers in the inodes. -/
abbrev Tops := Nat → Nat → Nat

def entries (E : Tops) (blk : Nat → Bytes) : Node → Nat → Nat
  | .inode n, i => E n i
  | .block n, j => (blk n).load (4 * j) 4

/-- The places of a tree: of the twelve numbers of an inode the last two name index blocks, and the
blocks named by the last one's block are index blocks again. -/
def isPlace : List Nat → Prop
  | [] => True
  | [i] => i < 12
  | [i, j] => sindirect ≤ i ∧ i < 12 ∧ j < nindirect
  | [i, j, k] => i = dindirect ∧ j < nindirect ∧ k < nindirect
  | _ => False

def levels : Levels Nat where
  mem := isPlace
  nil := trivial
  init path i h := by
    match path with
    | [] => trivial
    | [j] => exact h.2.1
    | [j, k] => exact ⟨by rw [h.1]; decide, by rw [h.1]; decide, h.2.1⟩
    | [_, _, _] => exact False.elim h
    | _ :: _ :: _ :: _ :: _ => exact False.elim h

/-- The node at a place of the tree of an inode. -/
def nodeAt (E : Tops) (blk : Nat → Bytes) (n : Nat) (path : List Nat) : Option Node :=
  descend follow (entries E blk) (.inode n) path

/-- The place of a block of a file. -/
def blockPath (bn : Nat) : List Nat :=
  if bn < ndirect then [bn]
  else if bn < ndirect + nindirect then [sindirect, bn - ndirect]
  else [dindirect, (bn - ndirect - nindirect) / nindirect, (bn - ndirect - nindirect) % nindirect]

/-- Which of the numbers of the inode leads to a block of a file. -/
def topIndex (bn : Nat) : Nat :=
  if bn < ndirect then bn else if bn < ndirect + nindirect then sindirect else dindirect

/-- The data block of a file, if it has been allocated. -/
def dataNode (E : Tops) (blk : Nat → Bytes) (n bn : Nat) : Option Node :=
  if bn < maxfile then nodeAt E blk n (blockPath bn) else none

/-- A byte of a file; blocks that were never allocated are zero. -/
def byteAt (E : Tops) (blk : Nat → Bytes) (n o : Nat) : Byte :=
  match dataNode E blk n (o / bsize) with
  | some (.block a) => blk a (o % bsize)
  | _ => 0

/-- The bit of a block in the bitmap. -/
def allocated (blk : Nat → Bytes) (a : Nat) : Bool := (blk dablkBmip).bit (a - dataBlock)

/-- The trees of the inodes in `R` share nothing, and their blocks are allocated data blocks. -/
structure Owned (R : Set Nat) (E : Tops) (blk : Nat → Bytes) : Prop where
  forest : Forest follow levels (Node.inode '' R) (entries E blk)
  block : ∀ n ∈ R, ∀ path, isPlace path → ∀ a, nodeAt E blk n path = some (.block a) →
    dataBlock ≤ a ∧ a < totalBlocks ∧ allocated blk a = true

variable {R : Set Nat} {E E' : Tops} {blk blk' : Nat → Bytes} {n m i a bn : Nat} {path : List Nat}
  {p : Node}

/-! ## Places -/

lemma follow_eq_some : follow e = some p ↔ e ≠ 0 ∧ p = .block e := by
  unfold follow
  split <;> simp_all [eq_comm]

@[simp] lemma follow_zero : follow 0 = none := rfl

lemma isPlace_init (h : isPlace (path ++ [i])) : isPlace path := levels.init path i h

lemma isPlace_blockPath (h : bn < maxfile) : isPlace (blockPath bn) := BlockTree.isPlace_blockPath h

lemma blockPath_eq (bn : Nat) : ∃ rest, blockPath bn = topIndex bn :: rest := by
  unfold blockPath topIndex
  split
  · exact ⟨_, rfl⟩
  · split <;> exact ⟨_, rfl⟩

lemma topIndex_lt (bn : Nat) : topIndex bn < 12 := by
  unfold topIndex
  split
  · rename_i h
    exact h.trans (by decide)
  · split <;> decide

lemma not_isPlace_below (bn j : Nat) :
    ¬isPlace (blockPath bn ++ [j]) := BlockTree.not_isPlace_below bn j

lemma blockPath_injective (h : blockPath bn = blockPath bn') : bn = bn' :=
  BlockTree.blockPath_injective h

lemma nodeAt_nil : nodeAt E blk n [] = some (.inode n) := rfl

lemma nodeAt_snoc (path : List Nat) (i : Nat) : nodeAt E blk n (path ++ [i]) =
      (nodeAt E blk n path).bind fun q => follow (entries E blk q i) := descend_snoc ..

variable {path' : List Nat} {b : Nat}

lemma nodeAt_below (hpre : path <+: path') (h : nodeAt E blk n path = none) :
    nodeAt E blk n path' = none := by
  obtain ⟨rest, rfl⟩ := hpre
  rw [nodeAt, descend_append, ← nodeAt, h]
  rfl

lemma nodeAt_inode (h : nodeAt E blk n path = some (.inode m)) : path = [] ∧ m = n := by
  induction path using List.reverseRecOn with
  | nil => exact ⟨rfl, by simpa [nodeAt_nil, eq_comm] using h⟩
  | append_singleton path i _ =>
    rw [nodeAt_snoc] at h
    obtain ⟨q, -, hq⟩ := bind_eq_some_iff.mp h
    obtain ⟨-, hc⟩ := follow_eq_some.mp hq
    cases hc

lemma nodeAt_block_ne_zero (h : nodeAt E blk n path = some (.block a)) : a ≠ 0 := by
  induction path using List.reverseRecOn with
  | nil => cases h
  | append_singleton path i _ =>
    rw [nodeAt_snoc] at h
    obtain ⟨q, -, hq⟩ := bind_eq_some_iff.mp h
    obtain ⟨hne, hc⟩ := follow_eq_some.mp hq
    rwa [Node.block.inj hc]

lemma Owned.place_inj (h : Owned R E blk) (hn : n ∈ R) (hm : m ∈ R)
    (hp : isPlace path) (hp' : isPlace path') (hd : nodeAt E blk n path = some p)
    (hd' : nodeAt E blk m path' = some p) : n = m ∧ path = path' := by
  obtain ⟨hroot, hpath⟩ := h.forest _ ⟨n, hn, rfl⟩ _ ⟨m, hm, rfl⟩ path path' hp hp' p hd hd'
  exact ⟨Node.inode.inj hroot, hpath⟩

lemma Owned.not_table (h : Owned R E blk) (ha : allocated blk a = false) :
    ¬Table follow levels (Node.inode '' R) (entries E blk) (.block a) := by
  rintro ⟨_, ⟨n, hn, rfl⟩, path, hp, hd⟩
  rw [(h.block n hn path hp a hd).2.2] at ha
  cases ha

lemma byteAt_congr (hnode : dataNode E' blk' m (o / bsize) = dataNode E blk m (o / bsize))
    (hblk : ∀ a, dataNode E blk m (o / bsize) = some (.block a) → blk' a = blk a) :
    byteAt E' blk' m o = byteAt E blk m o := by
  unfold byteAt
  rw [hnode]
  cases hd : dataNode E blk m (o / bsize) with
  | none => rfl
  | some q =>
    cases q with
    | inode _ => rfl
    | block a => simp only [hblk a hd]

lemma dataNode_eq_some : dataNode E blk n bn = some p ↔
    bn < maxfile ∧ nodeAt E blk n (blockPath bn) = some p := by
  unfold dataNode
  split <;> simp_all

lemma dataNode_congr (h : bn < maxfile → nodeAt E' blk' m (blockPath bn) =
    nodeAt E blk m (blockPath bn)) :
    dataNode E' blk' m bn = dataNode E blk m bn := by
  unfold dataNode
  split
  · exact h ‹_›
  · rfl

lemma Owned.of_nodes (h : Owned R E blk)
    (hat : ∀ m ∈ R, ∀ path, isPlace path → nodeAt E' blk' m path = nodeAt E blk m path)
    (hbits : blk' dablkBmip = blk dablkBmip) : Owned R E' blk' := by
  refine ⟨h.forest.of_sub ?_, ?_⟩
  · rintro _ ⟨m, hm, rfl⟩ path hp q hq
    exact (hat m hm path hp).symm.trans hq
  · intro m hm path hp a ha
    rw [hat m hm path hp] at ha
    obtain ⟨h1, h2, h3⟩ := h.block m hm path hp a ha
    refine ⟨h1, h2, ?_⟩
    rw [← h3, allocated, allocated, hbits]

/-! ## Linking a fresh block -/

/-- A fresh zeroed block `a` is at the place `path` of the tree of `n`; nothing else has changed. -/
structure Linked (R : Set Nat) (E : Tops) (blk : Nat → Bytes) (E' : Tops) (blk' : Nat → Bytes)
    (n : Nat) (path : List Nat) (a : Nat) : Prop where
  owned : Owned R E' blk'
  node : ∀ m ∈ R, ∀ path', isPlace path' → nodeAt E' blk' m path' =
    if m = n ∧ path' = path then some (.block a) else nodeAt E blk m path'
  byte : ∀ m ∈ R, ∀ o, byteAt E' blk' m o = byteAt E blk m o

lemma Owned.link (h : Owned R E blk) (hn : n ∈ R) (hp : isPlace (path ++ [i]))
    (hd : nodeAt E blk n path = some p) (hzero : entries E blk p i = 0) (hlo : dataBlock ≤ a)
    (hhi : a < totalBlocks) (hfree : allocated blk a = false)
    (hbits : blk' dablkBmip = (blk dablkBmip).setBit (a - dataBlock)) (hnew : blk' a = zero)
    (hptr : ∀ m ∈ R, ∀ path' j, isPlace (path' ++ [j]) → ∀ p', nodeAt E blk m path' = some p' →
      entries E' blk' p' j = if p' = p ∧ j = i then a else entries E blk p' j)
    (hsame : ∀ b, b ≠ dablkBmip → b ≠ a → .block b ≠ p → blk' b = blk b) :
    Linked R E blk E' blk' n (path ++ [i]) a := by
  have hpos : a ≠ 0 := by
    rintro rfl
    exact absurd hlo (by decide)
  have hfresh := h.not_table hfree
  have hnode : ∀ r ∈ Node.inode '' R, ∀ path', levels.mem path' →
      descend follow (entries E' blk') r path' =
        if r = .inode n ∧ path' = path ++ [i] then some (.block a)
        else descend follow (entries E blk) r path' := by
    intro r hr path' hp'
    refine descend_linked h.forest ⟨n, hn, rfl⟩ (isPlace_init hp) hd
      (by rw [hzero]; rfl) ?_ ?_ hr hp'
    · rintro _ ⟨m, hm, rfl⟩ path' j hj p' hp''
      rw [hptr m hm path' j hj p' hp'']
      split
      · exact follow_eq_some.mpr ⟨hpos, rfl⟩
      · rfl
    · intro j _
      simp [entries, hnew]
  have hat : ∀ m ∈ R, ∀ path', isPlace path' → nodeAt E' blk' m path' =
      if m = n ∧ path' = path ++ [i] then some (.block a) else nodeAt E blk m path' := by
    intro m hm path' hp'
    have := hnode (.inode m) ⟨m, hm, rfl⟩ path' hp'
    simpa only [nodeAt, Node.inode.injEq] using this
  have hbit : ∀ b, dataBlock ≤ b → (allocated blk' b = true ↔ b = a ∨ allocated blk b = true) := by
    intro b hb
    unfold allocated
    rw [hbits]
    by_cases hba : b = a
    · subst hba
      simp
    · rw [bit_setBit_of_ne (by omega)]
      simp [hba]
  refine ⟨⟨h.forest.linked hfresh hnode, ?_⟩, hat, ?_⟩
  · intro m hm path' hp' b hb
    rw [hat m hm path' hp'] at hb
    split at hb
    · obtain rfl := Node.block.inj (some.inj hb)
      exact ⟨hlo, hhi, (hbit a hlo).mpr (.inl rfl)⟩
    · obtain ⟨h1, h2, h3⟩ := h.block m hm path' hp' b hb
      exact ⟨h1, h2, (hbit b h1).mpr (.inr h3)⟩
  · intro m hm o
    by_cases hnewblock : m = n ∧ o / bsize < maxfile ∧ blockPath (o / bsize) = path ++ [i]
    · -- the new block: zero after, missing before
      obtain ⟨rfl, hmax, hpath⟩ := hnewblock
      have hafter : dataNode E' blk' m (o / bsize) = some (.block a) := by
        rw [dataNode, if_pos hmax, hat m hm _ (isPlace_blockPath hmax), if_pos ⟨rfl, hpath⟩]
      have hbefore : dataNode E blk m (o / bsize) = none := by
        rw [dataNode, if_pos hmax, hpath, nodeAt_snoc, hd, bind_some, hzero]
        rfl
      unfold byteAt
      rw [hafter, hbefore]
      simp [hnew, zero]
    · have hsame' : dataNode E' blk' m (o / bsize) = dataNode E blk m (o / bsize) := by
        refine dataNode_congr fun hmax => ?_
        rw [hat m hm _ (isPlace_blockPath hmax), if_neg]
        rintro ⟨rfl, hpath⟩
        exact hnewblock ⟨rfl, hmax, hpath⟩
      refine byteAt_congr hsame' fun b hb => hsame b ?_ ?_ ?_
      · obtain ⟨hmax, hb⟩ := dataNode_eq_some.mp hb
        have := (h.block m hm _ (isPlace_blockPath hmax) b hb).1
        rintro rfl
        exact absurd this (by decide)
      · obtain ⟨hmax, hb⟩ := dataNode_eq_some.mp hb
        rintro rfl
        exact hfresh (.of_descend ⟨m, hm, rfl⟩ (isPlace_blockPath hmax) hb)
      · -- a data block is no index block
        obtain ⟨hmax, hb⟩ := dataNode_eq_some.mp hb
        rintro rfl
        obtain ⟨-, hpath⟩ := h.place_inj hm hn (isPlace_blockPath hmax) (isPlace_init hp) hb hd
        exact not_isPlace_below (o / bsize) i (hpath ▸ hp)

/-- The disk after `balloc` returned `a`. -/
def allocBlk (blk : Nat → Bytes) (a : Nat) : Nat → Bytes :=
  update (update blk dablkBmip ((blk dablkBmip).setBit (a - dataBlock)))
    a Bytes.zero

/-- The disk after `bfree(a)`. -/
def freeBlk (blk : Nat → Bytes) (a : Nat) : Nat → Bytes :=
  update (update blk dablkBmip ((blk dablkBmip).clearBit (a - dataBlock)))
    a Bytes.zero

def setTop (E : Tops) (n i a : Nat) : Tops := update E n (update (E n) i a)

/-- A block of the data area that can be allocated. -/
structure Fresh (blk : Nat → Bytes) (a : Nat) : Prop where
  lo : dataBlock ≤ a
  hi : a < totalBlocks
  free : allocated blk a = false

lemma dablkBmip_ne (h : dataBlock ≤ a) : dablkBmip ≠ a := by
  rintro rfl
  exact absurd h (by decide)

lemma allocBlk_bitmap (h : dataBlock ≤ a) :
    allocBlk blk a dablkBmip = (blk dablkBmip).setBit (a - dataBlock) := by
  rw [allocBlk, update_of_ne (dablkBmip_ne h), update_self]

@[simp] lemma allocBlk_self : allocBlk blk a a = zero := update_self ..

lemma allocBlk_of_ne (h : b ≠ dablkBmip) (h' : b ≠ a) : allocBlk blk a b = blk b := by
  rw [allocBlk, update_of_ne h', update_of_ne h]

lemma freeBlk_bitmap (h : dataBlock ≤ a) :
    freeBlk blk a dablkBmip = (blk dablkBmip).clearBit (a - dataBlock) := by
  rw [freeBlk, update_of_ne (dablkBmip_ne h), update_self]

@[simp] lemma freeBlk_self : freeBlk blk a a = zero := update_self ..

lemma freeBlk_of_ne (h : b ≠ dablkBmip) (h' : b ≠ a) : freeBlk blk a b = blk b := by
  rw [freeBlk, update_of_ne h', update_of_ne h]

lemma Owned.block_ne (h : Owned R E blk) (hm : m ∈ R) (hp : isPlace path)
    (hb : nodeAt E blk m path = some (.block b)) : b ≠ dablkBmip ∧
    (allocated blk a = false → b ≠ a) := by
  obtain ⟨hlo, -, hbit⟩ := h.block m hm path hp b hb
  refine ⟨(dablkBmip_ne hlo).symm, ?_⟩
  rintro hfree rfl
  rw [hbit] at hfree
  cases hfree

lemma Owned.link_top (h : Owned R E blk) (hn : n ∈ R) (hi : i < 12) (hzero : E n i = 0)
    (ha : Fresh blk a) : Linked R E blk (setTop E n i a) (allocBlk blk a) n [i] a := by
  change Linked R E blk _ _ n ([] ++ [i]) a
  refine h.link hn hi nodeAt_nil hzero ha.lo ha.hi ha.free (allocBlk_bitmap ha.lo)
    allocBlk_self ?_ fun b h1 h2 _ => allocBlk_of_ne h1 h2
  intro m hm path' j hj p' hp'
  cases p' with
  | inode m' =>
    obtain ⟨-, rfl⟩ := nodeAt_inode hp'
    by_cases hmn : m' = n
    · subst hmn
      by_cases hji : j = i
      · simp [entries, setTop, hji]
      · simp [entries, setTop, hji]
    · simp [entries, setTop, hmn]
  | block b =>
    obtain ⟨h1, h2⟩ := h.block_ne (a := a) hm (isPlace_init hj) hp'
    simp [entries, allocBlk_of_ne h1 (h2 ha.free)]

lemma index_lt (hp : isPlace (path ++ [i])) (hne : path ≠ []) : i < nindirect := by
  match path with
  | [] => exact absurd rfl hne
  | [_] => exact hp.2.2
  | [_, _] => exact hp.2.2
  | [_, _, _] => exact False.elim hp
  | _ :: _ :: _ :: _ :: _ => exact False.elim hp

lemma load_entry {b : Bytes} {j v : Nat} (hv : v < 2 ^ 32) :
    (b.store (4 * i) 4 v).load (4 * j) 4 = if j = i then v else b.load (4 * j) 4 := by
  split
  · rename_i hji
    rw [hji, load_store_same]
    exact Nat.mod_eq_of_lt hv
  · exact load_store_of_disjoint (by omega)

lemma Owned.link_entry (h : Owned R E blk) (hn : n ∈ R) (hp : isPlace (path ++ [i]))
    (hd : nodeAt E blk n path = some (.block b)) (hzero : (blk b).load (4 * i) 4 = 0)
    (ha : Fresh blk a) :
    Linked R E blk E (update (allocBlk blk a) b ((blk b).store (4 * i) 4 a)) n
      (path ++ [i]) a := by
  obtain ⟨hb1, hb2⟩ := h.block_ne (a := a) hn (isPlace_init hp) hd
  have hba := hb2 ha.free
  refine h.link hn hp hd hzero ha.lo ha.hi ha.free ?_ ?_ ?_ ?_
  · rw [update_of_ne hb1.symm, allocBlk_bitmap ha.lo]
  · rw [update_of_ne hba.symm, allocBlk_self]
  · intro m hm path' j hj p' hp'
    cases p' with
    | inode m' => simp [entries]
    | block b' =>
      by_cases hbb : b' = b
      · subst hbb
        have hlt : a < 2 ^ 32 := lt_trans ha.hi (by decide)
        simp [entries, load_entry hlt]
      · obtain ⟨h1, h2⟩ := h.block_ne (a := a) hm (isPlace_init hj) hp'
        simp [entries, hbb, allocBlk_of_ne h1 (h2 ha.free)]
  · intro c h1 h2 h3
    have hcb : c ≠ b := fun hc => h3 (hc ▸ rfl)
    rw [update_of_ne hcb, allocBlk_of_ne h1 h2]

/-! ## Taking a block out -/

/-- The block at the place `path` of the tree of `n` is gone. -/
structure Unlinked (R : Set Nat) (E : Tops) (blk : Nat → Bytes) (E' : Tops) (blk' : Nat → Bytes)
    (n : Nat) (path : List Nat) : Prop where
  owned : Owned R E' blk'
  node : ∀ m ∈ R, ∀ path', isPlace path' → nodeAt E' blk' m path' =
    if m = n ∧ path' = path then none else nodeAt E blk m path'
  byte : ∀ m ∈ R, ∀ o, (m = n → blockPath (o / bsize) ≠ path) →
    byteAt E' blk' m o = byteAt E blk m o

lemma Owned.unlink (h : Owned R E blk) (hn : n ∈ R) (hp : isPlace (path ++ [i]))
    (hd : nodeAt E blk n path = some p) (ha : entries E blk p i = a) (hpos : a ≠ 0)
    (hleaf : ∀ j, isPlace (path ++ [i] ++ [j]) → entries E blk (.block a) j = 0)
    (hbits : blk' dablkBmip = (blk dablkBmip).clearBit (a - dataBlock))
    (hptr : ∀ m ∈ R, ∀ path' j, isPlace (path' ++ [j]) → ∀ p', nodeAt E blk m path' = some p' →
      p' ≠ .block a → entries E' blk' p' j = if p' = p ∧ j = i then 0 else entries E blk p' j)
    (hsame : ∀ b, b ≠ dablkBmip → b ≠ a → .block b ≠ p → blk' b = blk b) :
    Unlinked R E blk E' blk' n (path ++ [i]) := by
  have hfollow : follow (entries E blk p i) = some (.block a) :=
    follow_eq_some.mpr ⟨ha ▸ hpos, by rw [ha]⟩
  have hchild : nodeAt E blk n (path ++ [i]) = some (.block a) := by
    rw [nodeAt_snoc, hd, bind_some, hfollow]
  have hat : ∀ m ∈ R, ∀ path', isPlace path' → nodeAt E' blk' m path' =
      if m = n ∧ path' = path ++ [i] then none else nodeAt E blk m path' := by
    intro m hm path' hp'
    have hgone : descend follow (entries E' blk') (.inode m) path' =
        if Node.inode m = .inode n ∧ path' = path ++ [i] then none
        else descend follow (entries E blk) (.inode m) path' :=
      descend_unlinked h.forest ⟨n, hn, rfl⟩ hp hd hfollow (fun j hj => by rw [hleaf j hj]; rfl)
        (fun r hr path' j hj p' hp' hne => ?_) ⟨m, hm, rfl⟩ hp'
    · simpa only [nodeAt, Node.inode.injEq] using hgone
    · obtain ⟨m, hm, rfl⟩ := hr
      rw [hptr m hm path' j hj p' hp' hne]
      split <;> rfl
  have hkeep : ∀ m ∈ R, ∀ path', isPlace path' → ∀ b, nodeAt E' blk' m path' = some (.block b) →
      b ≠ a ∧ nodeAt E blk m path' = some (.block b) := by
    intro m hm path' hp' b hb
    rw [hat m hm path' hp'] at hb
    split at hb
    · cases hb
    · rename_i hne
      refine ⟨?_, hb⟩
      rintro rfl
      exact hne (h.place_inj hm hn hp' hp hb hchild)
  refine ⟨⟨h.forest.of_sub ?_, ?_⟩, hat, ?_⟩
  · rintro _ ⟨m, hm, rfl⟩ path' hp' q hq
    have hq' := hat m hm path' hp'
    rw [nodeAt, hq] at hq'
    split at hq'
    · cases hq'
    · exact hq'.symm
  · intro m hm path' hp' b hb
    obtain ⟨hba, hold⟩ := hkeep m hm path' hp' b hb
    obtain ⟨h1, h2, h3⟩ := h.block m hm path' hp' b hold
    obtain ⟨h1', -, -⟩ := h.block n hn _ hp a hchild
    refine ⟨h1, h2, ?_⟩
    unfold allocated at h3 ⊢
    rw [hbits, bit_clearBit_of_ne (by omega), h3]
  · intro m hm o hne
    have hnode : dataNode E' blk' m (o / bsize) = dataNode E blk m (o / bsize) := by
      refine dataNode_congr fun hmax => ?_
      rw [hat m hm _ (isPlace_blockPath hmax), if_neg fun hc => hne hc.1 hc.2]
    refine byteAt_congr hnode fun b hb => ?_
    obtain ⟨hmax, hb'⟩ := dataNode_eq_some.mp (hnode ▸ hb)
    obtain ⟨hba, hold⟩ := hkeep m hm _ (isPlace_blockPath hmax) b hb'
    have hlo := (h.block m hm _ (isPlace_blockPath hmax) b hold).1
    refine hsame b (dablkBmip_ne hlo).symm hba ?_
    rintro rfl
    obtain ⟨-, hpath⟩ := h.place_inj hm hn (isPlace_blockPath hmax) (isPlace_init hp) hold hd
    exact not_isPlace_below (o / bsize) i (hpath ▸ hp)

/-! ## Other changes -/

lemma Owned.congr (h : Owned R E blk) (hblk : ∀ b, b = dablkBmip ∨ dataBlock ≤ b → blk' b = blk b) :
    Owned R E blk' ∧ (∀ m ∈ R, ∀ path, isPlace path → nodeAt E blk' m path = nodeAt E blk m path) ∧
      ∀ m ∈ R, ∀ o, byteAt E blk' m o = byteAt E blk m o := by
  have hat : ∀ m ∈ R, ∀ path, isPlace path → nodeAt E blk' m path = nodeAt E blk m path := by
    intro m hm path hp
    refine @descend_congr_on _ _ _ _ levels (Node.inode '' R) _ _ _ _ ?_ ⟨m, hm, rfl⟩ hp
    rintro _ ⟨m', hm', rfl⟩ path' j hj q hq
    cases q with
    | inode _ => rfl
    | block b =>
      have hlo := (h.block m' hm' path' (isPlace_init hj) b hq).1
      simp only [entries, hblk b (.inr hlo)]
  refine ⟨h.of_nodes hat (hblk _ (.inl rfl)), hat, fun m hm o => ?_⟩
  refine byteAt_congr (dataNode_congr fun hmax => hat m hm _ (isPlace_blockPath hmax)) fun b hb =>
    ?_
  obtain ⟨hmax, hb⟩ := dataNode_eq_some.mp hb
  exact hblk b (.inr (h.block m hm _ (isPlace_blockPath hmax) b hb).1)

lemma Owned.write_data (h : Owned R E blk) (hn : n ∈ R)
    (hd : dataNode E blk n bn = some (.block a)) (data : Bytes) : Owned R E (update blk a data) ∧
      (∀ m ∈ R, ∀ path, isPlace path →
        nodeAt E (update blk a data) m path = nodeAt E blk m path) ∧
      ∀ m ∈ R, ∀ o, byteAt E (update blk a data) m o =
        if m = n ∧ o / bsize = bn then data (o % bsize) else byteAt E blk m o := by
  obtain ⟨hmax, hd'⟩ := dataNode_eq_some.mp hd
  have hlo := (h.block n hn _ (isPlace_blockPath hmax) a hd').1
  have hat : ∀ m ∈ R, ∀ path, isPlace path →
      nodeAt E (update blk a data) m path = nodeAt E blk m path := by
    intro m hm path hp
    refine @descend_congr_on _ _ _ _ levels (Node.inode '' R) _ _ _ _ ?_ ⟨m, hm, rfl⟩ hp
    rintro _ ⟨m', hm', rfl⟩ path' j hj q hq
    cases q with
    | inode _ => rfl
    | block b =>
      -- an index block is no data block
      have hba : b ≠ a := by
        rintro rfl
        obtain ⟨-, hpath⟩ := h.place_inj hm' hn (isPlace_init hj) (isPlace_blockPath hmax) hq hd'
        exact not_isPlace_below bn j (hpath ▸ hj)
      simp [entries, hba]
  refine ⟨h.of_nodes hat (update_of_ne (dablkBmip_ne hlo) ..), hat, fun m hm o => ?_⟩
  have hnode : dataNode E (update blk a data) m (o / bsize) = dataNode E blk m (o / bsize) :=
    dataNode_congr fun hmax' => hat m hm _ (isPlace_blockPath hmax')
  split
  · rename_i hc
    obtain ⟨rfl, rfl⟩ := hc
    unfold byteAt
    rw [hnode, hd]
    simp
  · rename_i hc
    refine byteAt_congr hnode fun b hb => update_of_ne ?_ _ _
    rintro rfl
    obtain ⟨hmax', hb⟩ := dataNode_eq_some.mp hb
    obtain ⟨rfl, hpath⟩ := h.place_inj hm hn (isPlace_blockPath hmax')
      (isPlace_blockPath hmax) hb hd'
    exact hc ⟨rfl, blockPath_injective hpath⟩

lemma descend_block (b : Nat) (path : List Nat) :
    descend follow (entries E' blk) (.block b) path =
      descend follow (entries E blk) (.block b) path := by
  induction path generalizing b with
  | nil => rfl
  | cons i path ih =>
    simp only [descend, entries]
    cases hf : follow ((blk b).load (4 * i) 4) with
    | none => rfl
    | some q =>
      obtain ⟨-, rfl⟩ := follow_eq_some.mp hf
      exact ih _

lemma nodeAt_cons (i : Nat) (path : List Nat) : nodeAt E blk n (i :: path) =
      if E n i = 0 then none else descend follow (entries E blk) (.block (E n i)) path := by
  simp only [nodeAt, descend, entries, follow]
  by_cases h : E n i = 0 <;> simp [h]

lemma nodeAt_of_tops (h : ∀ i < 12, E' n i = E n i) (hp : isPlace path) :
    nodeAt E' blk n path = nodeAt E blk n path := by
  cases path with
  | nil => rfl
  | cons i path =>
    rw [nodeAt_cons, nodeAt_cons, h i (levels.head hp), descend_block]

lemma byteAt_of_tops (h : ∀ i < 12, E' n i = E n i) (o : Nat) :
    byteAt E' blk n o = byteAt E blk n o :=
  byteAt_congr (dataNode_congr fun hmax => nodeAt_of_tops h (isPlace_blockPath hmax)) fun _ _ => rfl

section
variable (h : Owned R E blk) (hE : ∀ n ∈ R, ∀ i < 12, E' n i = 0 ∨ E' n i = E n i)
include h hE

lemma Owned.shrink :
    Owned R E' blk ∧ ∀ m ∈ R, ∀ i path, isPlace (i :: path) →
      nodeAt E' blk m (i :: path) = if E' m i = 0 then none else nodeAt E blk m (i :: path) := by
  have hat : ∀ m ∈ R, ∀ i path, isPlace (i :: path) →
      nodeAt E' blk m (i :: path) = if E' m i = 0 then none else nodeAt E blk m (i :: path) := by
    intro m hm i path hp
    have hi : i < 12 := levels.head hp
    rw [nodeAt_cons, nodeAt_cons]
    split
    · rfl
    · rename_i hne
      rcases hE m hm i hi with hz | he
      · exact absurd hz hne
      · rw [← he, if_neg hne]
        exact descend_block _ _
  have hsub : ∀ m ∈ R, ∀ path, isPlace path → ∀ q, nodeAt E' blk m path = some q →
      nodeAt E blk m path = some q := by
    intro m hm path hp q hq
    cases path with
    | nil => exact hq
    | cons i path =>
      rw [hat m hm i path hp] at hq
      split at hq
      · cases hq
      · exact hq
  refine ⟨⟨h.forest.of_sub ?_, ?_⟩, hat⟩
  · rintro _ ⟨m, hm, rfl⟩ path hp q hq
    exact hsub m hm path hp q hq
  · intro m hm path hp a ha
    exact h.block m hm path hp a (hsub m hm path hp _ ha)

lemma Owned.byteAt_shrink (hm : m ∈ R) (o : Nat) :
    byteAt E' blk m o = if E' m (topIndex (o / bsize)) = 0 then 0 else byteAt E blk m o := by
  obtain ⟨-, hat⟩ := h.shrink hE
  obtain ⟨rest, hrest⟩ := blockPath_eq (o / bsize)
  have hnode : dataNode E' blk m (o / bsize) =
      if E' m (topIndex (o / bsize)) = 0 then none else dataNode E blk m (o / bsize) := by
    unfold dataNode
    split
    · rename_i hmax
      rw [hrest, hat m hm _ _ (hrest ▸ isPlace_blockPath hmax)]
    · simp
  unfold byteAt
  rw [hnode]
  by_cases hzero : E' m (topIndex (o / bsize)) = 0
  · rw [if_pos hzero, if_pos hzero]
  · rw [if_neg hzero, if_neg hzero]

end

end FrostVista.EasyFs
