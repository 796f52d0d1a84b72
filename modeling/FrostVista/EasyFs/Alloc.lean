import FrostVista.EasyFs.Tree

/-!
# EasyFS: allocating blocks

What `balloc`, `bfree` and `bmap` do when they are run alone. `bmap` adds blocks to the tree of one
inode and changes the bytes of no file, also when it runs out of blocks half way; `Grow` says so. It
counts the blocks that were taken, so that the result tells exactly when `bmap` fails.
-/
namespace FrostVista.EasyFs

open Lib Lib.Comp Function List Option Bytes
open Prog (total_bind_ok total_bind)

/-- The free blocks of the data area. -/
def freeCount (blk : Nat → Bytes) : Nat :=
  ((blk dablkBmip).clearBits (totalBlocks - dataBlock)).card

lemma freeCount_pos {blk : Nat → Bytes} {bit : Nat} (hlt : bit < totalBlocks - dataBlock)
    (h : (blk dablkBmip).bit bit = false) : 0 < freeCount blk :=
  Finset.card_pos.mpr ⟨bit, mem_clearBits.mpr ⟨hlt, h⟩⟩

/-- Only allocated data blocks are held by a process. -/
def Fs.Calm (s : Fs) : Prop := ∀ b, s.busy b = true → dataBlock ≤ b ∧ allocated s.blk b = true

/-- No block is held. -/
def Fs.Quiet (s : Fs) : Prop := ∀ b, s.busy b = false

/-- The state with other blocks and other block numbers in the inode `ip`. -/
def Fs.moved (s : Fs) (ip : SlotId) (blocks : Nat → Nat) (blk : Nat → Bytes) : Fs :=
  { s with blk := blk, slot := Function.update s.slot ip { s.slot ip with blocks := blocks } }

variable {R : Set Nat} {E E' : Tops} {blk blk' : Nat → Bytes} {n i a bn : Nat} {path : List Nat}
  {s : Fs} {t : Tid} {ip : SlotId}

lemma Fs.Quiet.calm (h : s.Quiet) : s.Calm := fun b hb => by
  rw [h b] at hb
  cases hb

lemma Fs.Calm.bitmap (h : s.Calm) : s.busy dablkBmip = false := by
  by_contra hc
  exact absurd (h _ (by simpa using hc)).1 (by decide)

lemma Fs.Calm.fresh (h : s.Calm) (ha : Fresh s.blk a) : s.busy a = false := by
  by_contra hc
  have := (h a (by simpa using hc)).2
  rw [ha.free] at this
  cases this

@[simp] lemma moved_moved (blocks blocks' : Nat → Nat) :
    (s.moved ip blocks blk).moved ip blocks' blk' = s.moved ip blocks' blk' := by
  simp [Fs.moved]

@[simp] lemma moved_slot (blocks : Nat → Nat) :
    ((s.moved ip blocks blk).slot ip).blocks = blocks := by
  simp [Fs.moved]

lemma moved_self (hE : E n = (s.slot ip).blocks) : s.moved ip (E n) s.blk = s := by
  simp [Fs.moved, hE]

lemma setBusy_setBusy (h : s.busy a = false) : (s.setBusy a true).setBusy a false = s := by
  simp only [Fs.setBusy, update_idem, ← h, update_eq_self]

lemma setBusy_setBlk_setBusy (h : s.busy a = false) (b : Bytes) :
    ((s.setBusy a true).setBlk a b).setBusy a false = s.setBlk a b := by
  simp only [Fs.setBusy, Fs.setBlk, update_idem, ← h, update_eq_self]

/-! ## Single blocks -/

lemma fresh_iff : Fresh blk a ↔
    ∃ bit ∈ (blk dablkBmip).clearBits (totalBlocks - dataBlock), a = bit + dataBlock := by
  constructor
  · intro h
    refine ⟨a - dataBlock, mem_clearBits.mpr ⟨?_, h.free⟩, ?_⟩
    · have := h.hi
      have := h.lo
      omega
    · have := h.lo
      omega
  · rintro ⟨bit, hbit, rfl⟩
    obtain ⟨hlt, hclear⟩ := mem_clearBits.mp hbit
    refine ⟨by omega, by omega, ?_⟩
    rw [allocated, Nat.add_sub_cancel]
    exact hclear

lemma freeCount_allocBlk (h : Fresh blk a) : freeCount blk = freeCount (allocBlk blk a) + 1 := by
  have hlo := h.lo
  have hhi := h.hi
  have hmem : a - dataBlock ∈ (blk dablkBmip).clearBits (totalBlocks - dataBlock) :=
    mem_clearBits.mpr ⟨by omega, h.free⟩
  rw [freeCount, freeCount, allocBlk_bitmap hlo, clearBits_setBit]
  exact (Finset.card_erase_add_one hmem).symm

variable {b k l r : Nat} {E1 : Tops} {blk1 : Nat → Bytes} {f : Nat → Byte}

lemma allocated_allocBlk (h : dataBlock ≤ a) (hb : dataBlock ≤ b) :
    allocated (allocBlk blk a) b = true ↔ b = a ∨ allocated blk b = true := by
  unfold allocated
  rw [allocBlk_bitmap h]
  by_cases hba : b = a
  · subst hba
    simp
  · rw [bit_setBit_of_ne (by omega)]
    simp [hba]

lemma run_balloc (h : s.Calm) : (freeCount s.blk = 0 ∧ (runAs t balloc).run s = .ok (0, s)) ∨
      ∃ a, Fresh s.blk a ∧ (runAs t balloc).run s =
        .ok (a, { s with blk := allocBlk s.blk a }) := by
  unfold balloc
  rw [Prog.run_bind_ok (run_bread h.bitmap)]
  cases hfirst : (s.blk dablkBmip).firstClear (totalBlocks - dataBlock) with
  | none =>
    refine .inl ⟨?_, ?_⟩
    · rw [freeCount, firstClear_eq_none.mp hfirst, Finset.card_empty]
    · rw [Prog.run_bind_ok run_brelse, setBusy_setBusy h.bitmap]
      rfl
  | some bit =>
    have hfresh : Fresh s.blk (bit + dataBlock) :=
      fresh_iff.mpr ⟨bit, firstClear_eq_some hfirst, rfl⟩
    refine .inr ⟨bit + dataBlock, hfresh, ?_⟩
    have hfree := h.fresh hfresh
    rw [Prog.run_bind_ok (run_bwrite _), Prog.run_bind_ok run_brelse,
      setBusy_setBlk_setBusy h.bitmap, Prog.run_bind_ok (run_bread (s := s.setBlk _ _) hfree),
      Prog.run_bind_ok (run_bwrite _), Prog.run_bind_ok run_brelse,
      setBusy_setBlk_setBusy (s := s.setBlk _ _) hfree]
    simp only [Prog.run_pure, run_pure, Fs.setBlk, allocBlk, Nat.add_sub_cancel]

lemma run_bfree (hlo : dataBlock ≤ a) (hhi : a < totalBlocks) (ha : allocated s.blk a = true)
    (h3 : s.busy dablkBmip = false) (hbusy : s.busy a = false) :
    (runAs t (bfree a)).run s = .ok ((), { s with blk := freeBlk s.blk a }) := by
  unfold bfree
  have hbit : ¬((s.blk dablkBmip).bit (a - dataBlock) = false) := by
    rw [← allocated, ha]
    simp
  rw [if_neg (by omega), Prog.run_bind_ok (run_bread h3), if_neg hbit,
    Prog.run_bind_ok (run_bwrite _), Prog.run_bind_ok run_brelse, setBusy_setBlk_setBusy h3,
    Prog.run_bind_ok (run_bread (s := s.setBlk _ _) hbusy), Prog.run_bind_ok (run_bwrite _),
    run_brelse, setBusy_setBlk_setBusy (s := s.setBlk _ _) hbusy]
  rfl

/-! ## Growing trees -/

/-- The tree of the inode `n` has grown by `k` blocks and the bytes of its file are `f` now; the
other trees and files, and the blocks outside of the data area, are as they were. -/
structure Grow (R : Set Nat) (n : Nat) (E : Tops) (blk : Nat → Bytes) (E' : Tops)
    (blk' : Nat → Bytes)
    (f : Nat → Byte) (k : Nat) : Prop where
  owned : Owned R E' blk'
  tops : ∀ m, m ≠ n → E' m = E m
  top : ∀ i, E n i ≠ 0 → E' n i = E n i
  node : ∀ path, isPlace path → ∀ q, nodeAt E blk n path = some q → nodeAt E' blk' n path = some q
  others : ∀ m ∈ R, m ≠ n → ∀ path, isPlace path → nodeAt E' blk' m path = nodeAt E blk m path
  byte : ∀ o, byteAt E' blk' n o = f o
  bytes : ∀ m ∈ R, m ≠ n → ∀ o, byteAt E' blk' m o = byteAt E blk m o
  low : ∀ b, b < dataBlock → b ≠ dablkBmip → blk' b = blk b
  bits : ∀ b, dataBlock ≤ b → allocated blk b = true → allocated blk' b = true
  fresh : ∀ b, dataBlock ≤ b → allocated blk' b = true → allocated blk b = true ∨
    ∃ path, isPlace path ∧ nodeAt E' blk' n path = some (.block b)
  count : freeCount blk = freeCount blk' + k

lemma Owned.grow (h : Owned R E blk) : Grow R n E blk E blk (byteAt E blk n) 0 where
  owned := h
  tops _ _ := rfl
  top _ _ := rfl
  node _ _ _ hq := hq
  others _ _ _ _ _ := rfl
  byte _ := rfl
  bytes _ _ _ _ := rfl
  low _ _ _ := rfl
  bits _ _ hb := hb
  fresh _ _ hb := .inl hb
  count := (Nat.add_zero _).symm

lemma Grow.trans (h : Grow R n E blk E1 blk1 f k) (h' : Grow R n E1 blk1 E2 blk2 g l) :
    Grow R n E blk E2 blk2 g (k + l) where
  owned := h'.owned
  tops m hm := (h'.tops m hm).trans (h.tops m hm)
  top i hi := by
    have h1 := h.top i hi
    rw [h'.top i (h1 ▸ hi), h1]
  node path hp q hq := h'.node path hp q (h.node path hp q hq)
  others m hm hne path hp := (h'.others m hm hne path hp).trans (h.others m hm hne path hp)
  byte := h'.byte
  bytes m hm hne o := (h'.bytes m hm hne o).trans (h.bytes m hm hne o)
  low b hb hne := (h'.low b hb hne).trans (h.low b hb hne)
  bits b hb ha := h'.bits b hb (h.bits b hb ha)
  fresh b hb ha := by
    rcases h'.fresh b hb ha with ha | hnew
    · rcases h.fresh b hb ha with ha | ⟨path, hp, hq⟩
      · exact .inl ha
      · exact .inr ⟨path, hp, h'.node path hp _ hq⟩
    · exact .inr hnew
  count := by rw [h.count, h'.count, Nat.add_assoc, Nat.add_comm k]

lemma Linked.grow (h : Linked R E blk E' blk' n (path ++ [i]) a) (hn : n ∈ R)
    (hp : isPlace (path ++ [i])) (hold : nodeAt E blk n (path ++ [i]) = none)
    (htops : ∀ m, m ≠ n → E' m = E m) (htop : ∀ i, E n i ≠ 0 → E' n i = E n i)
    (ha : Fresh blk a) (hbits : blk' dablkBmip = (blk dablkBmip).setBit (a - dataBlock))
    (hlow : ∀ b, b < dataBlock → b ≠ dablkBmip → blk' b = blk b) :
    Grow R n E blk E' blk' (byteAt E blk n) 1 := by
  have hmap : blk' dablkBmip = allocBlk blk a dablkBmip := by rw [hbits, allocBlk_bitmap ha.lo]
  have hbit : ∀ b, dataBlock ≤ b → (allocated blk' b = true ↔ b = a ∨ allocated blk b = true) := by
    intro b hb
    rw [← allocated_allocBlk ha.lo hb, allocated, allocated, hmap]
  refine ⟨h.owned, htops, htop, ?_, ?_, h.byte n hn, fun m hm _ => h.byte m hm, hlow, ?_, ?_, ?_⟩
  · intro path' hp' q hq
    rw [h.node n hn path' hp', if_neg]
    · exact hq
    · rintro ⟨-, rfl⟩
      rw [hold] at hq
      cases hq
  · intro m hm hne path' hp'
    rw [h.node m hm path' hp', if_neg fun hc => hne hc.1]
  · exact fun b hb hb' => (hbit b hb).mpr (.inr hb')
  · intro b hb hb'
    rcases (hbit b hb).mp hb' with rfl | hold'
    · exact .inr ⟨path ++ [i], hp, by rw [h.node n hn _ hp, if_pos ⟨rfl, rfl⟩]⟩
    · exact .inl hold'
  · rw [freeCount_allocBlk ha, freeCount, freeCount, hmap]

/-! ## Looking up places -/

/-- How many blocks on the way to a place are missing. -/
def need (E : Tops) (blk : Nat → Bytes) (n : Nat) (path : List Nat) : Nat :=
  (List.range path.length).countP fun k => (nodeAt E blk n (path.take (k + 1))).isNone

lemma need_le_length : need E blk n path ≤ path.length := by
  unfold need
  exact countP_le_length.trans_eq length_range

lemma need_snoc : need E blk n (path ++ [i]) =
    need E blk n path + if (nodeAt E blk n (path ++ [i])).isNone then 1 else 0 := by
  unfold need
  rw [length_append, length_singleton, range_succ, countP_append, countP_singleton]
  congr 1
  · refine countP_congr fun k hk => ?_
    rw [take_append_of_le_length]
    have := mem_range.mp hk
    omega
  · rw [take_of_length_le (by simp)]

lemma need_congr (h : ∀ path', path' <+: path → nodeAt E' blk' n path' = nodeAt E blk n path') :
    need E' blk' n path = need E blk n path := by
  unfold need
  refine countP_congr fun k _ => ?_
  rw [h _ ( take_prefix ..)]

/-- A function has looked for the place `path` and returned `r`: the block there, or 0 if a block on
the way is missing and none is free. It has added `k` of the missing blocks. -/
structure Reached (R : Set Nat) (n : Nat) (E : Tops) (blk : Nat → Bytes) (E' : Tops)
    (blk' : Nat → Bytes) (path : List Nat) (k r : Nat) : Prop where
  grow : Grow R n E blk E' blk' (byteAt E blk n) k
  elsewhere : ∀ path', isPlace path' → ¬path' <+: path → nodeAt E' blk' n path' =
    nodeAt E blk n path'
  found : (r ≠ 0 ∧ nodeAt E' blk' n path = some (.block r) ∧ k = need E blk n path) ∨
    (r = 0 ∧ freeCount blk' = 0 ∧ k < need E blk n path)
  kept : ∀ b, nodeAt E blk n path = some (.block b) → r = b ∧ E' = E ∧ blk' = blk

/-- The same for the last step to the place, from the node above it. -/
structure Placed (R : Set Nat) (n : Nat) (E : Tops) (blk : Nat → Bytes) (E' : Tops)
    (blk' : Nat → Bytes) (path : List Nat) (k r : Nat) : Prop where
  grow : Grow R n E blk E' blk' (byteAt E blk n) k
  elsewhere : ∀ path', isPlace path' → path' ≠ path → nodeAt E' blk' n path' = nodeAt E blk n path'
  found : (r ≠ 0 ∧ nodeAt E' blk' n path = some (.block r) ∧
      k = if (nodeAt E blk n path).isNone then 1 else 0) ∨
    (r = 0 ∧ freeCount blk' = 0 ∧ nodeAt E blk n path = none ∧ k = 0)
  kept : ∀ b, nodeAt E blk n path = some (.block b) → r = b ∧ E' = E ∧ blk' = blk

lemma Owned.placed (h : Owned R E blk) (hr : a ≠ 0)
    (hnode : nodeAt E blk n path = some (.block a)) :
    Placed R n E blk E blk path 0 a :=
  ⟨h.grow, fun _ _ _ => rfl, .inl ⟨hr, hnode, by simp [hnode]⟩,
    fun _ hb => ⟨Node.block.inj (some.inj (hnode.symm.trans hb)), rfl, rfl⟩⟩

lemma Owned.placed_full (h : Owned R E blk) (hnode : nodeAt E blk n path = none)
    (hfull : freeCount blk = 0) : Placed R n E blk E blk path 0 0 :=
  ⟨h.grow, fun _ _ _ => rfl, .inr ⟨rfl, hfull, hnode, rfl⟩, fun _ hb => absurd hb (by simp [hnode])⟩

lemma Linked.placed (h : Linked R E blk E' blk' n path a) (hn : n ∈ R) (hp : isPlace path)
    (hold : nodeAt E blk n path = none) (ha : Fresh blk a)
    (hgrow : Grow R n E blk E' blk' (byteAt E blk n) 1) : Placed R n E blk E' blk' path 1 a := by
  refine ⟨hgrow, ?_, .inl ⟨?_, ?_, by simp [hold]⟩, fun _ hb => absurd hb (by simp [hold])⟩
  · intro path' hp' hne
    rw [h.node n hn path' hp', if_neg fun hc => hne hc.2]
  · rintro rfl
    exact absurd ha.lo (by decide)
  · rw [h.node n hn path hp, if_pos ⟨rfl, rfl⟩]

lemma Placed.reached (h : Placed R n E blk E' blk' [i] k r) :
    Reached R n E blk E' blk' [i] k r := by
  have hneed : need E blk n [i] = if (nodeAt E blk n [i]).isNone then 1 else 0 := by
    simp [need]
  refine ⟨h.grow, ?_, ?_, h.kept⟩
  · intro path' hp' hne
    refine h.elsewhere path' hp' ?_
    rintro rfl
    exact hne (prefix_refl _)
  · rcases h.found with ⟨hr, hnode, hk⟩ | ⟨hr, hfull, hnode, hk⟩
    · exact .inl ⟨hr, hnode, hk.trans hneed.symm⟩
    · refine .inr ⟨hr, hfull, ?_⟩
      rw [hneed, hk, hnode]
      decide

lemma Reached.step (h : Reached R n E blk E1 blk1 path k r) (hr : r ≠ 0)
    (hp : isPlace (path ++ [i])) (h' : Placed R n E1 blk1 E' blk' (path ++ [i]) l r') :
    Reached R n E blk E' blk' (path ++ [i]) (k + l) r' := by
  obtain ⟨-, hnode, hk⟩ : r ≠ 0 ∧ nodeAt E1 blk1 n path = some (.block r) ∧
    k = need E blk n path := by
    rcases h.found with hf | ⟨hzero, -⟩
    · exact hf
    · exact absurd hzero hr
  have hsame : nodeAt E1 blk1 n (path ++ [i]) = nodeAt E blk n (path ++ [i]) := by
    refine h.elsewhere _ hp fun hc => ?_
    have := hc.length_le
    simp at this
  have hbyte : byteAt E1 blk1 n = byteAt E blk n := funext h.grow.byte
  refine ⟨?_, ?_, ?_, ?_⟩
  · have := h.grow.trans h'.grow
    rwa [hbyte] at this
  · intro path' hp' hne
    rw [h'.elsewhere path' hp', h.elsewhere path' hp']
    · exact fun hc => hne (hc.trans (prefix_append ..))
    · rintro rfl
      exact hne (prefix_refl _)
  · rw [need_snoc, ← hk, ← hsame]
    rcases h'.found with ⟨hr', hnode', hl⟩ | ⟨hr', hfull, hnone, hl⟩
    · exact .inl ⟨hr', hnode', by rw [hl]⟩
    · refine .inr ⟨hr', hfull, ?_⟩
      rw [hl, hnone]
      simp
  · intro b hb
    obtain ⟨q, hq, hfollow⟩ := bind_eq_some_iff.mp (nodeAt_snoc path i ▸ hb)
    obtain ⟨c, rfl⟩ : ∃ c, q = .block c := by
      have := h.grow.node path (isPlace_init hp) q hq
      rw [hnode] at this
      exact ⟨r, (some.inj this).symm⟩
    obtain ⟨-, rfl, rfl⟩ := h.kept c hq
    exact h'.kept b hb

lemma Reached.stop (h : Reached R n E blk E' blk' path k 0) (i : Nat) :
    Reached R n E blk E' blk' (path ++ [i]) k 0 := by
  have hk : k < need E blk n path := by
    rcases h.found with ⟨hr, -⟩ | ⟨-, -, hk⟩
    · exact absurd rfl hr
    · exact hk
  refine ⟨h.grow, ?_, ?_, ?_⟩
  · intro path' hp' hne
    exact h.elsewhere path' hp' fun hc => hne (hc.trans (prefix_append ..))
  · rcases h.found with ⟨hr, -⟩ | ⟨-, hfull, -⟩
    · exact absurd rfl hr
    · exact .inr ⟨rfl, hfull, by rw [need_snoc]; omega⟩
  · intro b hb
    obtain ⟨q, hq, -⟩ := bind_eq_some_iff.mp (nodeAt_snoc path i ▸ hb)
    cases q with
    | inode m =>
      rw [(nodeAt_inode hq).1] at hk
      exact absurd hk (by simp [need])
    | block c => exact absurd (h.kept c hq).1.symm (nodeAt_block_ne_zero hq)

/-! ## The functions -/

lemma Fs.Calm.moved (h : s.Calm) (hg : Grow R n E s.blk E' blk' f k)
    (blocks : Nat → Nat) : (s.moved ip blocks blk').Calm := by
  intro b hb
  obtain ⟨hlo, ha⟩ := h b hb
  exact ⟨hlo, hg.bits b hlo ha⟩

section
variable (h : Owned R E s.blk) (hn : n ∈ R)
include h hn

lemma topBlock_spec (hE : E n = (s.slot ip).blocks) (hi : i < 12)
    (hs : s.Calm) : Total (runAs t (topBlock ip i)) s fun r s' => ∃ E' blk' k,
      s' = s.moved ip (E' n) blk' ∧ Placed R n E s.blk E' blk' [i] k r := by
  have hnode : nodeAt E s.blk n [i] = follow (E n i) := by
    simp [nodeAt_cons, follow]
  have hsame : s.moved ip (E n) s.blk = s := by
    simp [Fs.moved, hE]
  unfold topBlock
  refine total_bind_ok run_load ?_
  rw [← hE]
  split
  · rename_i hpos
    refine .pure ⟨E, s.blk, 0, hsame.symm, h.placed hpos ?_⟩
    rw [hnode]
    exact follow_eq_some.mpr ⟨hpos, rfl⟩
  · rename_i hzero
    have hzero : E n i = 0 := not_not.mp hzero
    have hnone : nodeAt E s.blk n [i] = none := by rw [hnode, hzero]; rfl
    rcases run_balloc (t := t) hs with ⟨hfull, hrun⟩ | ⟨a, ha, hrun⟩
    · refine total_bind_ok hrun ?_
      exact .pure ⟨E, s.blk, 0, hsame.symm, h.placed_full hnone hfull⟩
    · refine total_bind_ok hrun ?_
      have hpos : a ≠ 0 := by
        rintro rfl
        exact absurd ha.lo (by decide)
      rw [if_neg hpos]
      refine total_bind_ok (run_edit _) (.pure ⟨setTop E n i a, allocBlk s.blk a, 1, ?_, ?_⟩)
      · simp [Fs.moved, Fs.setSlot, setTop, hE]
      · have hlink : Linked R E s.blk _ _ n ([] ++ [i]) a := h.link_top hn hi hzero ha
        refine hlink.placed hn hi hnone ha
          (hlink.grow hn hi hnone ?_ ?_ ha (allocBlk_bitmap ha.lo) ?_)
        · intro m hm
          simp [setTop, hm]
        · intro j hj
          have hji : j ≠ i := by
            rintro rfl
            exact hj hzero
          simp [setTop, hji]
        · intro b hb hne
          exact allocBlk_of_ne hne (by have := ha.lo; omega)

lemma entryBlock_spec (hp : isPlace (path ++ [i]))
    (hb : nodeAt E s.blk n path = some (.block b)) (hs : s.Calm) :
    Total (runAs t (entryBlock b (s.blk b) i)) s fun r s' => ∃ blk' k,
      s' = { s with blk := blk' } ∧ Placed R n E s.blk E blk' (path ++ [i]) k r := by
  have hnode : nodeAt E s.blk n (path ++ [i]) = follow ((s.blk b).load (4 * i) 4) := by
    rw [nodeAt_snoc, hb]
    rfl
  unfold entryBlock
  split
  · rename_i hpos
    refine .pure ⟨s.blk, 0, rfl, h.placed hpos ?_⟩
    rw [hnode]
    exact follow_eq_some.mpr ⟨hpos, rfl⟩
  · rename_i hzero
    have hzero : (s.blk b).load (4 * i) 4 = 0 := not_not.mp hzero
    have hnone : nodeAt E s.blk n (path ++ [i]) = none := by rw [hnode, hzero]; rfl
    rcases run_balloc (t := t) hs with ⟨hfull, hrun⟩ | ⟨a, ha, hrun⟩
    · refine total_bind_ok hrun ?_
      exact .pure ⟨s.blk, 0, rfl, h.placed_full hnone hfull⟩
    · refine total_bind_ok hrun ?_
      have hpos : a ≠ 0 := by
        rintro rfl
        exact absurd ha.lo (by decide)
      rw [if_neg hpos]
      refine total_bind_ok (run_bwrite _) (.pure ⟨_, 1, rfl, ?_⟩)
      have hlink := h.link_entry hn hp hb hzero ha
      have hblo := (h.block n hn _ (isPlace_init hp) b hb).1
      refine hlink.placed hn hp hnone ha
        (hlink.grow hn hp hnone (fun _ _ => rfl) (fun _ _ => rfl) ha ?_ ?_)
      · rw [update_of_ne (dablkBmip_ne hblo), allocBlk_bitmap ha.lo]
      · intro c hc hne
        have := ha.lo
        rw [update_of_ne (by omega), allocBlk_of_ne hne (by omega)]

lemma Owned.calm_setBusy (hp : isPlace path)
    (hb : nodeAt E s.blk n path = some (.block b)) (hs : s.Calm) : (s.setBusy b true).Calm := by
  intro c hc
  by_cases hcb : c = b
  · subst hcb
    obtain ⟨hlo, -, ha⟩ := h.block n hn path hp c hb
    exact ⟨hlo, ha⟩
  · rw [Fs.setBusy_busy, update_of_ne hcb] at hc
    exact hs c hc

lemma indexEntry_spec (hp : isPlace (path ++ [i]))
    (hb : nodeAt E s.blk n path = some (.block b)) (hs : s.Calm) (hbusy : s.busy b = false) :
    Total (runAs t (indexEntry b i)) s fun r s' => ∃ blk' k,
      s' = { s with blk := blk' } ∧ Placed R n E s.blk E blk' (path ++ [i]) k r := by
  refine total_bind_ok (run_bread hbusy) ?_
  refine total_bind (entryBlock_spec (s := s.setBusy b true) h hn hp hb
    (h.calm_setBusy hn (isPlace_init hp) hb hs)) ?_
  rintro r _ ⟨blk', k, rfl, hplaced⟩
  refine total_bind_ok run_brelse (.pure ⟨blk', k, ?_, hplaced⟩)
  simp only [Fs.setBusy, update_idem, ← hbusy, update_eq_self]

end

lemma Reached.node (h : Reached R n E blk E' blk' path k r) (hr : r ≠ 0) :
    nodeAt E' blk' n path = some (.block r) := by
  rcases h.found with ⟨-, hnode, -⟩ | ⟨hzero, -⟩
  · exact hnode
  · exact absurd hzero hr

lemma Placed.node (h : Placed R n E blk E' blk' path k r) (hr : r ≠ 0) :
    nodeAt E' blk' n path = some (.block r) := by
  rcases h.found with ⟨-, hnode, -⟩ | ⟨hzero, -⟩
  · exact hnode
  · exact absurd hzero hr

lemma doubleEntry_spec (h : Reached R n E0 blk0 E s.blk path k b) (hb : b ≠ 0) (hn : n ∈ R)
    (hp : isPlace (path ++ [idx / nindirect] ++ [idx % nindirect])) (hs : s.Quiet) :
    Total (runAs t (doubleEntry b idx)) s fun r s' => ∃ blk' k', s' = { s with blk := blk' } ∧
      Reached R n E0 blk0 E blk' (path ++ [idx / nindirect] ++ [idx % nindirect]) k' r := by
  have hmid := isPlace_init hp
  have hnode := h.node hb
  have howned := h.grow.owned
  refine total_bind_ok (run_bread (hs b)) ?_
  refine total_bind (entryBlock_spec (s := s.setBusy b true) howned hn hmid hnode
    (howned.calm_setBusy hn (isPlace_init hmid) hnode hs.calm)) ?_
  rintro r _ ⟨blk1, l, rfl, hplaced⟩
  have hreach := h.step hb hmid hplaced
  split
  · rename_i hzero
    subst hzero
    refine total_bind_ok run_brelse (.pure ⟨blk1, k + l, ?_, hreach.stop _⟩)
    simp only [Fs.setBusy, update_idem, ← hs b, update_eq_self]
  · rename_i hr
    set s1 : Fs := { s.setBusy b true with blk := blk1 } with hs1
    have hnode' := hplaced.node hr
    -- the two index blocks differ
    have hne : r ≠ b := by
      rintro rfl
      have hb' := hplaced.grow.node _ (isPlace_init hmid) _ hnode
      have := (hreach.grow.owned.place_inj hn hn (isPlace_init hmid) hmid hb' hnode').2
      simpa using congrArg length this
    have hcalm : s1.Calm := by
      intro c hc
      obtain ⟨hlo, ha⟩ := howned.calm_setBusy hn (isPlace_init hmid) hnode hs.calm c hc
      exact ⟨hlo, hplaced.grow.bits c hlo ha⟩
    have hbusy : s1.busy r = false := by
      rw [hs1, Fs.setBusy_busy, update_of_ne hne]
      exact hs r
    refine total_bind (indexEntry_spec (s := s1) hreach.grow.owned hn hp hnode' hcalm hbusy) ?_
    rintro r' _ ⟨blk2, l', rfl, hplaced'⟩
    refine total_bind_ok run_brelse (.pure ⟨blk2, k + l + l', ?_, hreach.step hr hp hplaced'⟩)
    simp only [hs1, Fs.setBusy, update_idem, ← hs b, update_eq_self]

lemma bmap_spec (h : Owned R E s.blk) (hn : n ∈ R) (hE : E n = (s.slot ip).blocks)
    (hbn : bn < maxfile) (hs : s.Quiet) : Total (runAs t (bmap ip bn)) s fun r s' => ∃ E' blk' k,
      s' = s.moved ip (E' n) blk' ∧ Reached R n E s.blk E' blk' (blockPath bn) k r := by
  have hplace := isPlace_blockPath hbn
  unfold blockPath at hplace ⊢
  unfold bmap
  split
  · rename_i hdirect
    rw [if_pos hdirect] at hplace
    refine (topBlock_spec h hn hE hplace hs.calm).mono ?_
    rintro r s' ⟨E', blk', k, rfl, hplaced⟩
    exact ⟨E', blk', k, rfl, hplaced.reached⟩
  · rename_i hdirect
    rw [if_neg hdirect] at hplace
    split
    · rename_i hsingle
      rw [if_pos hsingle] at hplace
      refine total_bind (topBlock_spec h hn hE (by decide : sindirect < 12) hs.calm) ?_
      rintro r _ ⟨E1, blk1, k, rfl, hplaced⟩
      have hreach := hplaced.reached
      split
      · rename_i hzero
        subst hzero
        exact .pure ⟨E1, blk1, k, rfl, hreach.stop _⟩
      · rename_i hr
        refine (indexEntry_spec (s := s.moved ip (E1 n) blk1) hreach.grow.owned hn hplace
          (hreach.node hr) (hs.calm.moved hreach.grow _) (hs r)).mono ?_
        rintro r' _ ⟨blk2, l, rfl, hplaced'⟩
        exact ⟨E1, blk2, k + l, rfl, hreach.step hr hplace hplaced'⟩
    · rename_i hsingle
      rw [if_neg hsingle] at hplace
      refine total_bind (topBlock_spec h hn hE (by decide : dindirect < 12) hs.calm) ?_
      rintro r _ ⟨E1, blk1, k, rfl, hplaced⟩
      have hreach := hplaced.reached
      split
      · rename_i hzero
        subst hzero
        exact .pure ⟨E1, blk1, k, rfl, (hreach.stop _).stop _⟩
      · rename_i hr
        refine (doubleEntry_spec (s := s.moved ip (E1 n) blk1) hreach hr hn hplace hs).mono ?_
        rintro r' _ ⟨blk2, k', rfl, hreach'⟩
        exact ⟨E1, blk2, k', rfl, hreach'⟩

end FrostVista.EasyFs
