import FrostVista.EasyFs.Inode

/-!
# EasyFS: freeing the blocks of a file

`easyfs_itrunc` frees a tree from its leaves up. The entries of an index block whose blocks have
been freed stay on the disk until the index block itself is freed, so the proof looks at the disk as
if they had been cleared: `Cutting` relates the blocks of the disk to such a view, in which every
`bfree` takes one leaf out of the tree.
-/
namespace FrostVista.EasyFs

open Lib Lib.Comp Function List Nat

/-- The places in `P` have been taken out of the tree of `n` and their blocks freed; the other trees
and files, the other bits of the bitmap, and the blocks that are not in the tree, are as they
were. -/
structure Cut (R : Set Nat) (n : Nat) (E : Tops) (blk : Nat → Bytes) (E' : Tops)
    (blk' : Nat → Bytes)
    (P : List Nat → Prop) : Prop where
  owned : Owned R E' blk'
  tops : ∀ m, m ≠ n → E' m = E m
  gone : ∀ path, isPlace path → P path → nodeAt E' blk' n path = none
  node : ∀ path, isPlace path → ¬P path → nodeAt E' blk' n path = nodeAt E blk n path
  others : ∀ m ∈ R, m ≠ n → ∀ path, isPlace path → nodeAt E' blk' m path = nodeAt E blk m path
  bytes : ∀ m ∈ R, m ≠ n → ∀ o, byteAt E' blk' m o = byteAt E blk m o
  low : ∀ b, b < dataBlock → b ≠ dablkBmip → blk' b = blk b
  bits : ∀ b, dataBlock ≤ b → (allocated blk' b = true ↔ allocated blk b = true ∧
    ∀ path, isPlace path → P path → nodeAt E blk n path ≠ some (.block b))
  rest : ∀ b, b ≠ dablkBmip → (∀ path, isPlace path → nodeAt E blk n path ≠ some (.block b)) →
    blk' b = blk b

/-- The view `V` of the disk while the tree of `n` is freed; it may differ in the blocks `H`, index
blocks on the way to the place `path`. -/
structure Cutting (R : Set Nat) (n : Nat) (s : Fs) (E : Tops) (V : Nat → Bytes) (H : Set Nat)
    (path : List Nat) : Prop where
  owned : Owned R E V
  agree : ∀ c, c ∉ H → V c = s.blk c
  busy : ∀ c, s.busy c = true → c ∈ H
  held : ∀ c ∈ H, ∃ q, q <+: path ∧ isPlace q ∧ nodeAt E V n q = some (.block c)

variable {R : Set Nat} {E E' : Tops} {blk blk' V : Nat → Bytes} {n i a : Nat} {path : List Nat}
  {s : Fs} {t : Tid} {ip : SlotId} {H : Set Nat} {p : Node} {P Q : List Nat → Prop}

lemma Owned.cut (h : Owned R E blk) : Cut R n E blk E blk fun _ => False where
  owned := h
  tops _ _ := rfl
  gone _ _ hc := hc.elim
  node _ _ _ := rfl
  others _ _ _ _ _ := rfl
  bytes _ _ _ _ := rfl
  low _ _ _ := rfl
  bits _ _ := by simp
  rest _ _ _ := rfl

lemma Cut.trans {E1 : Tops} {blk1 : Nat → Bytes} (h : Cut R n E blk E1 blk1 P)
    (h' : Cut R n E1 blk1 E' blk' Q) : Cut R n E blk E' blk' fun path => P path ∨ Q path where
  owned := h'.owned
  tops m hm := (h'.tops m hm).trans (h.tops m hm)
  gone path hp hPQ := by
    by_cases hQ : Q path
    · exact h'.gone path hp hQ
    · rw [h'.node path hp hQ]
      exact h.gone path hp (hPQ.resolve_right hQ)
  node path hp hPQ := by
    rw [h'.node path hp fun hQ => hPQ (.inr hQ), h.node path hp fun hP => hPQ (.inl hP)]
  others m hm hne path hp := (h'.others m hm hne path hp).trans (h.others m hm hne path hp)
  bytes m hm hne o := (h'.bytes m hm hne o).trans (h.bytes m hm hne o)
  low b hb hne := (h'.low b hb hne).trans (h.low b hb hne)
  bits b hb := by
    rw [h'.bits b hb, h.bits b hb]
    constructor
    · rintro ⟨⟨hbit, hP⟩, hQ⟩
      refine ⟨hbit, fun path hp hPQ hc => ?_⟩
      by_cases hPp : P path
      · exact hP path hp hPp hc
      · exact hQ path hp (hPQ.resolve_left hPp) ((h.node path hp hPp).trans hc)
    · rintro ⟨hbit, hPQ⟩
      refine ⟨⟨hbit, fun path hp hPp => hPQ path hp (.inl hPp)⟩, fun path hp hQp hc => ?_⟩
      by_cases hPp : P path
      · rw [h.gone path hp hPp] at hc
        cases hc
      · exact hPQ path hp (.inr hQp) ((h.node path hp hPp).symm.trans hc)
  rest b hb hout := by
    refine (h'.rest b hb fun path hp hc => ?_).trans (h.rest b hb hout)
    by_cases hPp : P path
    · rw [h.gone path hp hPp] at hc
      cases hc
    · exact hout path hp ((h.node path hp hPp).symm.trans hc)

lemma Cut.congr (h : Cut R n E blk E' blk' P)
    (hPQ : ∀ path, isPlace path → nodeAt E blk n path ≠ none → (P path ↔ Q path)) :
    Cut R n E blk E' blk' Q := by
  have hnone : ∀ path, isPlace path → nodeAt E blk n path = none →
    nodeAt E' blk' n path = none := by
    intro path hp hnone
    by_cases hP : P path
    · exact h.gone path hp hP
    · rw [h.node path hp hP, hnone]
  refine ⟨h.owned, h.tops, ?_, ?_, h.others, h.bytes, h.low, fun b hb =>
    (h.bits b hb).trans ?_, h.rest⟩
  · intro path hp hQ
    by_cases hold : nodeAt E blk n path = none
    · exact hnone path hp hold
    · exact h.gone path hp ((hPQ path hp hold).mpr hQ)
  · intro path hp hQ
    by_cases hold : nodeAt E blk n path = none
    · rw [hold, hnone path hp hold]
    · exact h.node path hp fun hP => hQ ((hPQ path hp hold).mp hP)
  · have hsome : ∀ path, nodeAt E blk n path = some (.block b) → nodeAt E blk n path ≠ none := by
      intro path hc hnone
      rw [hc] at hnone
      cases hnone
    refine and_congr_right fun _ => ⟨fun hP path hp hQ hc => ?_, fun hQ path hp hP hc => ?_⟩
    · exact hP path hp ((hPQ path hp (hsome path hc)).mpr hQ) hc
    · exact hQ path hp ((hPQ path hp (hsome path hc)).mp hP) hc

/-- The block numbers and blocks after the entry `i` of the node `p`, which named `a`, was cleared
and `a` was freed. -/
def clearTops (E : Tops) (p : Node) (i : Nat) : Tops :=
  match p with
  | .inode m => setTop E m i 0
  | .block _ => E

def clearBlk (V : Nat → Bytes) (p : Node) (i a : Nat) : Nat → Bytes :=
  match p with
  | .inode _ => freeBlk V a
  | .block c => Function.update (freeBlk V a) c ((V c).store (4 * i) 4 0)

lemma clearBlk_bitmap (ha : dataBlock ≤ a) (hp : ∀ c, p = .block c → dataBlock ≤ c) :
    clearBlk V p i a dablkBmip = (V dablkBmip).clearBit (a - dataBlock) := by
  cases p with
  | inode m => exact freeBlk_bitmap ha
  | block c => rw [clearBlk, update_of_ne (dablkBmip_ne (hp c rfl)), freeBlk_bitmap ha]

lemma clearBlk_of_ne (hb : b ≠ dablkBmip) (hba : b ≠ a) (hbp : .block b ≠ p) :
    clearBlk V p i a b = V b := by
  cases p with
  | inode m => exact freeBlk_of_ne hb hba
  | block c =>
    have hbc : b ≠ c := fun hc => hbp (hc ▸ rfl)
    rw [clearBlk, update_of_ne hbc, freeBlk_of_ne hb hba]

lemma Owned.clear (h : Owned R E V) (hn : n ∈ R) (hp : isPlace (path ++ [i]))
    (hd : nodeAt E V n path = some p) (ha : nodeAt E V n (path ++ [i]) = some (.block a))
    (hleaf : ∀ j, isPlace (path ++ [i] ++ [j]) → nodeAt E V n (path ++ [i] ++ [j]) = none) :
    Cut R n E V (clearTops E p i) (clearBlk V p i a) fun q => q = path ++ [i] := by
  have hentry : entries E V p i = a := by
    rw [nodeAt_snoc, hd, Option.bind_some] at ha
    exact (Node.block.inj (follow_eq_some.mp ha).2).symm
  obtain ⟨halo, -, -⟩ := h.block n hn _ hp a ha
  have hparent : ∀ c, p = .block c → dataBlock ≤ c := by
    rintro c rfl
    exact (h.block n hn _ (isPlace_init hp) c hd).1
  have hmap : clearBlk V p i a dablkBmip = (V dablkBmip).clearBit (a - dataBlock) :=
    clearBlk_bitmap halo hparent
  have hcut : Unlinked R E V (clearTops E p i) (clearBlk V p i a) n (path ++ [i]) := by
    refine h.unlink hn hp hd hentry (nodeAt_block_ne_zero ha) ?_ hmap ?_ fun b => clearBlk_of_ne
    · intro j hj
      have := hleaf j hj
      rw [nodeAt_snoc, ha, Option.bind_some] at this
      by_contra hne
      rw [follow, if_neg hne] at this
      cases this
    · intro m hm path' j hj p' hp' hne
      cases p with
      | inode m' =>
        obtain ⟨-, rfl⟩ := nodeAt_inode hd
        cases p' with
        | inode m'' =>
          by_cases hmm : m'' = m'
          · subst hmm
            by_cases hji : j = i <;> simp [entries, clearTops, setTop, hji]
          · simp [entries, clearTops, setTop, hmm]
        | block b =>
          have hb := (h.block_ne (a := a) hm (isPlace_init hj) hp').1
          have hba : b ≠ a := fun hc => hne (hc ▸ rfl)
          simp [entries, clearBlk, freeBlk_of_ne hb hba]
      | block c =>
        cases p' with
        | inode m'' => simp [entries, clearTops]
        | block b =>
          have hb := (h.block_ne (a := a) hm (isPlace_init hj) hp').1
          have hba : b ≠ a := fun hc => hne (hc ▸ rfl)
          by_cases hbc : b = c
          · subst hbc
            simp [entries, clearBlk, load_entry (show 0 < 2 ^ 32 by decide)]
          · simp [entries, clearBlk, hbc, freeBlk_of_ne hb hba]
  refine ⟨hcut.owned, ?_, ?_, ?_, ?_, ?_, ?_, ?_, ?_⟩
  · intro m hm
    cases p with
    | inode m' =>
      obtain ⟨-, rfl⟩ := nodeAt_inode hd
      simp [clearTops, setTop, hm]
    | block c => rfl
  · rintro q hq rfl
    rw [hcut.node n hn _ hq, if_pos ⟨rfl, rfl⟩]
  · intro q hq hne
    rw [hcut.node n hn _ hq, if_neg fun hc => hne hc.2]
  · intro m hm hne q hq
    rw [hcut.node m hm _ hq, if_neg fun hc => hne hc.1]
  · exact fun m hm hne o => hcut.byte m hm o fun hc => absurd hc hne
  · intro b hb hne
    refine clearBlk_of_ne hne (by omega) fun hc => ?_
    have := hparent b hc.symm
    omega
  · intro b hb
    rw [allocated, hmap]
    by_cases hba : b = a
    · subst hba
      rw [Bytes.bit_clearBit_self]
      exact ⟨fun hc => (Bool.false_ne_true hc).elim, fun hc => absurd ha (hc.2 _ hp rfl)⟩
    · rw [Bytes.bit_clearBit_of_ne (by omega)]
      refine ⟨fun hbit => ⟨hbit, ?_⟩, fun hc => hc.1⟩
      rintro _ _ rfl hc
      exact hba (by simpa [ha] using hc.symm)
  · intro b hb hout
    refine clearBlk_of_ne hb ?_ ?_
    · rintro rfl
      exact hout _ hp ha
    · rintro rfl
      exact hout _ (isPlace_init hp) hd

/-! ## Freeing one block -/

section
variable (h : Cutting R n s E V H path)
include h

lemma Cutting.bitmap (hn : n ∈ R) : dablkBmip ∉ H := by
  intro hc
  obtain ⟨q, -, hq, hnode⟩ := h.held _ hc
  exact absurd (h.owned.block n hn q hq _ hnode).1 (by decide)

lemma Cutting.not_held (hn : n ∈ R) {q : List Nat} (hq : isPlace q)
    (hlen : path.length < q.length) (ha : nodeAt E V n q = some (.block a)) : a ∉ H := by
  intro hc
  obtain ⟨q', hpre, hq', hnode⟩ := h.held a hc
  have := (h.owned.place_inj hn hn hq' hq hnode ha).2
  have := hpre.length_le
  subst q'
  omega

lemma Cutting.not_busy {c : Nat} (hc : c ∉ H) : s.busy c = false := by
  by_contra hb
  exact hc (h.busy c (by simpa using hb))

end

lemma bfree_spec (h : Cutting R n s E V (insert a H) (path ++ [i])) (hn : n ∈ R)
    (hbusy : s.busy a = false) (hp : isPlace (path ++ [i])) (hd : nodeAt E V n path = some p)
    (hheld : ∀ c, p = .block c → c ∈ H) (hH : ∀ c ∈ H, ∃ q, q <+: path ∧ isPlace q ∧
      nodeAt E V n q = some (.block c)) (ha : nodeAt E V n (path ++ [i]) = some (.block a))
    (hleaf : ∀ j, isPlace (path ++ [i] ++ [j]) → nodeAt E V n (path ++ [i] ++ [j]) = none) :
    Total (runAs t (bfree a)) s fun _ s' => ∃ V' blk', s' = { s with blk := blk' } ∧
      Cutting R n s' (clearTops E p i) V' H path ∧
      Cut R n E V (clearTops E p i) V' fun q => q = path ++ [i] := by
  obtain ⟨hlo, hhi, hbit⟩ := h.owned.block n hn _ hp a ha
  have hmap := h.bitmap hn
  have hcut := h.owned.clear hn hp hd ha hleaf
  have hrun : (runAs t (bfree a)).run s = .ok ((), { s with blk := freeBlk s.blk a }) := by
    refine run_bfree hlo hhi ?_ (h.not_busy hmap) hbusy
    rwa [allocated, ← h.agree _ hmap]
  refine ⟨(), _, hrun, _, _, rfl, ⟨hcut.owned, ?_, ?_, ?_⟩, hcut⟩
  · intro c hc
    have hfree : freeBlk V a c = freeBlk s.blk a c := by
      by_cases hca : c = a
      · subst hca
        simp
      · by_cases hc3 : c = dablkBmip
        · subst hc3
          rw [freeBlk_bitmap hlo, freeBlk_bitmap hlo, h.agree _ hmap]
        · rw [freeBlk_of_ne hc3 hca, freeBlk_of_ne hc3 hca]
          exact h.agree c fun hcH => hcH.elim hca hc
    cases p with
    | inode m => exact hfree
    | block b =>
      have hcb : c ≠ b := fun hcb => hc (hcb ▸ hheld b rfl)
      rw [clearBlk, update_of_ne hcb, hfree]
  · intro c hc
    refine (h.busy c hc).resolve_left ?_
    rintro rfl
    rw [hbusy] at hc
    cases hc
  · intro c hc
    obtain ⟨q, hpre, hq, hnode⟩ := hH c hc
    refine ⟨q, hpre, hq, ?_⟩
    rw [hcut.node q hq, hnode]
    rintro rfl
    have := hpre.length_le
    simp at this

lemma Cutting.enter (h : Cutting R n s E V H path) (hp : isPlace (path ++ [i]))
    (ha : nodeAt E V n (path ++ [i]) = some (.block a)) :
    Cutting R n s E V (insert a H) (path ++ [i]) := by
  refine ⟨h.owned, fun c hc => h.agree c fun hcH => hc (.inr hcH), fun c hc =>
    .inr (h.busy c hc), ?_⟩
  rintro c (rfl | hc)
  · exact ⟨path ++ [i], prefix_refl _, hp, ha⟩
  · obtain ⟨q, hpre, hq, hnode⟩ := h.held c hc
    exact ⟨q, hpre.trans (prefix_append ..), hq, hnode⟩

/-! ## Freeing subtrees -/

/-- The function `free` frees the tree below the place `path ++ [i]`, given the block there. -/
def Frees (R : Set Nat) (n : Nat) (t : Tid) (free : Nat → FsProg Unit) (path : List Nat) (i : Nat) :
    Prop :=
  ∀ (s : Fs) (E : Tops) (V : Nat → Bytes) (H : Set Nat) (p : Node) (a : Nat),
    Cutting R n s E V H path → nodeAt E V n path = some p → (∀ c, p = .block c → c ∈ H) →
    nodeAt E V n (path ++ [i]) = some (.block a) →
    Total (runAs t (free a)) s fun _ s' => ∃ V' blk', s' = { s with blk := blk' } ∧
      Cutting R n s' (clearTops E p i) V' H path ∧
      Cut R n E V (clearTops E p i) V' fun q => path ++ [i] <+: q

lemma frees_bfree (hn : n ∈ R) (hp : isPlace (path ++ [i]))
    (hleaf : ∀ j, ¬isPlace (path ++ [i] ++ [j])) : Frees R n t bfree path i := by
  intro s E V H p a h hd hheld ha
  refine (bfree_spec (h.enter hp ha) hn (h.not_busy (h.not_held hn hp (by simp) ha))
    hp hd hheld h.held
    ha fun j hj => absurd hj (hleaf j)).mono ?_
  rintro _ _ ⟨V', blk', rfl, hcutting, hcut⟩
  refine ⟨V', blk', rfl, hcutting, hcut.congr fun q hq _ => ⟨fun heq => heq ▸ prefix_refl _, ?_⟩⟩
  -- there are no places below
  rintro ⟨rest, rfl⟩
  cases rest with
  | nil => simp
  | cons j rest =>
    have hj : isPlace (path ++ [i] ++ [j]) := levels.initial ⟨rest, by simp⟩ hq
    exact absurd hj (hleaf j)

variable {free : Nat → FsProg Unit}

lemma loop_frees {buf : Bytes}
    (h : Cutting R n s E V H path) (ha : nodeAt E V n path = some (.block a)) (haH : a ∈ H)
    (hbuf : ∀ k, isPlace (path ++ [k]) → nodeAt E V n (path ++ [k]) = follow (buf.load (4 * k) 4))
    (hplace : ∀ k < nindirect, isPlace (path ++ [k]))
    (hfree : ∀ k < nindirect, Frees R n t free path k) :
    Total (runAs t (Prog.loop (fun j => do
        if buf.load (4 * j) 4 ≠ 0 then free (buf.load (4 * j) 4) else pure ()) 0 nindirect)) s
      fun _ s' => ∃ V' blk', s' = { s with blk := blk' } ∧ Cutting R n s' E V' H path ∧
        Cut R n E V E V' fun q => ∃ k < nindirect, path ++ [k] <+: q := by
  let J (k : Nat) (s' : Fs) : Prop := ∃ V' blk', s' = { s with blk := blk' } ∧
    Cutting R n s' E V' H path ∧ Cut R n E V E V' fun q => ∃ j < k, path ++ [j] <+: q
  have hstart : J 0 s := ⟨V, s.blk, rfl, h, h.owned.cut.congr fun q _ _ => by simp⟩
  refine (Prog.total_loop J hstart ?_).mono fun _ s' hJ => by simpa [J] using hJ
  rintro k _ - hk ⟨V', blk', rfl, hcutting, hcut⟩
  rw [zero_add] at hk
  have hother : ∀ q, q <+: path ++ [k] → ¬∃ j < k, path ++ [j] <+: q := by
    rintro q hq ⟨j, hj, hpre⟩
    have heq := (hpre.trans hq).eq_of_length (by simp)
    have : j = k := by simpa using heq
    omega
  have hnode : nodeAt E V' n (path ++ [k]) = follow (buf.load (4 * k) 4) := by
    rw [hcut.node _ (hplace k hk) (hother _ (prefix_refl _)), hbuf k (hplace k hk)]
  have ha' : nodeAt E V' n path = some (.block a) := by
    rw [hcut.node _ (isPlace_init (hplace k hk)) (hother _ (prefix_append ..)), ha]
  split
  · rename_i hpos
    refine (hfree k hk _ E V' H (.block a) _ hcutting ha' ?_ (hnode.trans
      (follow_eq_some.mpr ⟨hpos, rfl⟩))).mono ?_
    · rintro c hc
      rwa [← Node.block.inj hc]
    · rintro _ _ ⟨V'', blk'', rfl, hcutting', hcut'⟩
      exact ⟨V'', blk'', rfl, hcutting', (hcut.trans hcut').congr fun q _ _ =>
        exists_lt_succ_right.symm⟩
  · rename_i hzero
    -- there was nothing at the place `path ++ [k]`
    have hnone : nodeAt E V n (path ++ [k]) = none := by
      rw [hbuf k (hplace k hk), not_not.mp hzero]
      rfl
    refine .pure ⟨V', blk', rfl, hcutting, hcut.congr fun q hq hold => ?_⟩
    rw [exists_lt_succ_right, or_iff_left fun hpre => hold (nodeAt_below hpre hnone)]

lemma frees_freeIndex (hn : n ∈ R) (hp : isPlace (path ++ [i]))
    (hplace : ∀ k < nindirect, isPlace (path ++ [i] ++ [k]))
    (hfree : ∀ k < nindirect, Frees R n t free (path ++ [i]) k) :
    Frees R n t (freeIndex free) path i := by
  intro s E V H p a h hd hheld ha
  have haH : a ∉ H := h.not_held hn hp (by simp) ha
  have hV : V a = s.blk a := h.agree a haH
  have hbusy : s.busy a = false := h.not_busy haH
  -- while the index block is held, the view may differ in it
  have henter := h.enter hp ha
  have hcutting : Cutting R n (s.setBusy a true) E V (insert a H) (path ++ [i]) := by
    refine ⟨h.owned, henter.agree, ?_, henter.held⟩
    intro c hc
    by_cases hca : c = a
    · exact .inl hca
    · rw [Fs.setBusy_busy, update_of_ne hca] at hc
      exact .inr (h.busy c hc)
  unfold freeIndex
  refine Prog.total_bind_ok (run_bread hbusy) ?_
  refine Prog.total_bind (loop_frees hcutting ha (.inl rfl) ?_ hplace hfree) ?_
  · intro k _
    rw [nodeAt_snoc, ha, Option.bind_some, entries, hV]
  rintro _ _ ⟨V', blk', rfl, hcutting', hcut⟩
  refine Prog.total_bind_ok run_brelse ?_
  have hstate : ({ s.setBusy a true with blk := blk' } : Fs).setBusy a false =
    { s with blk := blk' } := by
    simp only [Fs.setBusy, update_idem, ← hbusy, update_eq_self]
  rw [hstate]
  -- now the index block is a leaf
  have habove : ∀ q, q <+: path ++ [i] → ¬∃ k < nindirect, path ++ [i] ++ [k] <+: q := by
    rintro q hq ⟨k, -, hpre⟩
    have := (hpre.trans hq).length_le
    simp at this
  have hview : Cutting R n { s with blk := blk' } E V' (insert a H) (path ++ [i]) :=
    ⟨hcutting'.owned, hcutting'.agree, fun c hc => .inr (h.busy c hc), hcutting'.held⟩
  refine (bfree_spec hview hn hbusy hp ?_ hheld ?_ ?_ ?_).mono ?_
  · rw [hcut.node _ (isPlace_init hp) (habove _ (prefix_append ..)), hd]
  · intro c hc
    obtain ⟨q, hpre, hq, hnode⟩ := h.held c hc
    refine ⟨q, hpre, hq, ?_⟩
    rw [hcut.node q hq (habove q (hpre.trans (prefix_append ..))), hnode]
  · rw [hcut.node _ hp (habove _ (prefix_refl _)), ha]
  · intro k hk
    exact hcut.gone _ hk ⟨k, index_lt hk (by simp), prefix_refl _⟩
  · rintro _ _ ⟨V'', blk'', rfl, hcutting'', hcut'⟩
    refine ⟨V'', blk'', rfl, hcutting'', (hcut.trans hcut').congr fun q hq _ => ⟨?_, ?_⟩⟩
    · rintro (⟨k, -, hpre⟩ | rfl)
      · exact (prefix_append ..).trans hpre
      · exact prefix_refl _
    · rintro ⟨rest, rfl⟩
      cases rest with
      | nil => exact .inr (by simp)
      | cons k rest =>
        have hk : isPlace (path ++ [i] ++ [k]) := levels.initial ⟨rest, by simp⟩ hq
        exact .inl ⟨k, index_lt hk (by simp), rest, by simp⟩

/-! ## The inode -/

lemma truncSlot_spec (hfree : Frees R n t free [] i) (h : Owned R E s.blk)
    (hE : E n = (s.slot ip).blocks) (hs : s.Quiet) :
    Total (runAs t (truncSlot free ip i)) s fun _ s' => ∃ E' blk', s' = s.moved ip (E' n) blk' ∧
      Cut R n E s.blk E' blk' (fun q => [i] <+: q) ∧ E' n = update (E n) i 0 := by
  unfold truncSlot
  refine Prog.total_bind_ok run_load ?_
  rw [← hE]
  split
  · rename_i hpos
    have hcutting : Cutting R n s E s.blk ∅ [] := by
      refine ⟨h, fun _ _ => rfl, fun c hc => ?_, fun c hc => hc.elim⟩
      rw [hs c] at hc
      cases hc
    refine Prog.total_bind (hfree s E s.blk ∅ (.inode n) _ hcutting nodeAt_nil
      (fun c hc => by cases hc) ?_) ?_
    · simp [nodeAt_cons, hpos]
    · rintro _ _ ⟨V', blk', rfl, hcutting', hcut⟩
      have hV : V' = blk' := funext fun c => hcutting'.agree c (Set.notMem_empty c)
      subst hV
      refine ⟨(), _, run_edit _, clearTops E (.inode n) i, V', ?_, hcut, ?_⟩
      · simp [Fs.moved, Fs.setSlot, clearTops, setTop, hE]
      · simp [clearTops, setTop]
  · rename_i hzero
    have hzero : E n i = 0 := not_not.mp hzero
    refine .pure
      ⟨E, s.blk, by simp [Fs.moved, hE], h.cut.congr fun q _ hold => ⟨False.elim, ?_⟩, ?_⟩
    · intro hpre
      exact hold (nodeAt_below hpre (by simp [nodeAt_cons, hzero]))
    · rw [← hzero, update_eq_self]

lemma place_ne_nil (path : List Nat) (hp : isPlace path) : path ≠ [] ↔ ∃ i < 12, [i] <+: path := by
  cases path with
  | nil => simp
  | cons i path =>
    have hi : i < 12 := levels.head hp
    simp [hi]

lemma frees_top (hn : n ∈ R) (hi : i < ndirect) : Frees R n t bfree [] i := by
  refine frees_bfree hn ?_ fun j => ?_
  · simp only [ndirect] at hi
    exact (by omega : i < 12)
  · rintro ⟨hle, -⟩
    simp only [sindirect, ndirect] at hi hle
    omega

lemma frees_single (hn : n ∈ R) : Frees R n t freeIndirect [] sindirect := by
  refine frees_freeIndex hn (by decide : sindirect < 12) (fun k hk => ⟨by decide, by decide, hk⟩)
    fun k hk => frees_bfree hn ⟨by decide, by decide, hk⟩ fun j => ?_
  rintro ⟨hc, -⟩
  cases hc

lemma frees_double (hn : n ∈ R) : Frees R n t freeDouble [] dindirect := by
  refine frees_freeIndex hn (by decide : dindirect < 12) (fun k hk => ⟨by decide, by decide, hk⟩)
    fun k hk => frees_freeIndex hn ⟨by decide, by decide, hk⟩ (fun j hj => ⟨rfl, hk, hj⟩)
      fun j hj => frees_bfree hn ⟨rfl, hk, hj⟩ fun l => id

/-- The part of a tree below the first `k` numbers of the inode has been freed. -/
def CutBelow (R : Set Nat) (n : Nat) (E : Tops) (s : Fs) (ip : SlotId) (k : Nat) (s' : Fs) : Prop :=
  ∃ E' blk', s' = s.moved ip (E' n) blk' ∧ Cut R n E s.blk E' blk' (fun q => ∃ i < k, [i] <+: q) ∧
    ∀ i < k, E' n i = 0

lemma CutBelow.truncSlot_spec
    (h : CutBelow R n E s ip k s') (hfree : Frees R n t free [] k) (hs : s.Quiet) :
    Total (runAs t (truncSlot free ip k)) s' fun _ => CutBelow R n E s ip (k + 1) := by
  obtain ⟨E1, blk1, rfl, hcut, hzero⟩ := h
  refine (EasyFs.truncSlot_spec (s := s.moved ip (E1 n) blk1) hfree hcut.owned
    (moved_slot _).symm hs).mono ?_
  rintro _ _ ⟨E2, blk2, rfl, hcut', htop⟩
  refine ⟨E2, blk2, moved_moved .., (hcut.trans hcut').congr fun q _ _ =>
    exists_lt_succ_right.symm, ?_⟩
  intro i hi
  rw [htop]
  by_cases hik : i = k
  · simp [hik]
  · rw [update_of_ne hik]
    exact hzero i (by omega)

/-- `easyfs_itrunc` frees all blocks of the file. -/
lemma itrunc_spec (h : Owned R E s.blk) (hn : n ∈ R) (hE : E n = (s.slot ip).blocks)
    (hs : s.Quiet) :
    Total (runAs t (itrunc ip 0)) s fun r s' => r = true ∧ ∃ E' blk',
      s' = s.stored ip { s.slot ip with blocks := E' n, size := 0 } blk' ∧
      Cut R n E s.blk E' blk' (fun q => q ≠ []) ∧ ∀ i < 12, E' n i = 0 := by
  have hstart : CutBelow R n E s ip 0 s :=
    ⟨E, s.blk, (moved_self hE).symm,
      h.cut.congr fun q _ _ => by simp, fun i hi => absurd hi (by omega)⟩
  unfold itrunc
  rw [if_neg (by decide)]
  refine Prog.total_bind (Prog.total_loop (CutBelow R n E s ip) hstart ?_) ?_
  · intro k s' _ hk hcut
    exact hcut.truncSlot_spec (frees_top hn (by omega)) hs
  intro _ s1 h1
  refine Prog.total_bind (h1.truncSlot_spec (frees_single hn) hs) fun _ s2 h2 => ?_
  refine Prog.total_bind (h2.truncSlot_spec (frees_double hn) hs) ?_
  rintro _ _ ⟨E', blk', rfl, hcut, hzero⟩
  refine Prog.total_bind_ok (run_edit _) ?_
  refine Prog.total_bind_ok (run_iupdate (s := (s.moved ip (E' n) blk').setSlot ip _) (hs _)) ?_
  refine .pure ⟨rfl, E', blk', ?_, hcut.congr fun q hq _ => (place_ne_nil q hq).symm, hzero⟩
  simp [Fs.stored, Fs.moved, Fs.setSlot]

end FrostVista.EasyFs
