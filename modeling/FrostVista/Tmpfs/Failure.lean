import FrostVista.Tmpfs.Contents

/-!
# tmpfs: writes that fail

`tmpfs_vfs_write` returns -1 when a page cannot be allocated. The pages before it have been filled
by then: bytes below the size of the file have changed, and bytes behind it become readable when a
later write extends the file.
-/
namespace FrostVista.Tmpfs

open Lib Lib.Radix Lib.BlockTree List

/-- The event does not write the byte at `o`, and does not truncate the file. -/
def Elsewhere (o : Nat) : Event → Prop
  | .call (.write off data) => ¬(off ≤ o ∧ o < off + data.length)
  | .call (.read _ _) => True
  | .call (.truncate _) => False
  | .others => True

/-- The memory `m'` after a call holds the same file as `m`, and nothing else comes to light when
the file is extended elsewhere. -/
structure NoTrace (m m' : Mem) : Prop where
  size : m'.size = m.size
  byte : ∀ o < m.size, byteAt m' o = byteAt m o
  later : ∀ events m'' o, Run Step m' events m'' → (∀ e ∈ events, Elsewhere o e) → o < m''.size →
    byteAt m'' o = byteAt m o

variable {m m' : Mem} {off : Nat} {data : List Byte}

variable {e : Event} {events : List Event} {o : Nat} {r : Option Nat}

lemma Owned.step (h : Owned m) (hstep : Step m e m') : Owned m' := by
  cases e with
  | others => exact Undisturbed.owned hstep h
  | call c =>
    obtain rfl : m' = (c.perform m).2 := hstep
    cases c with
    | write off data => exact (h.vfsWrite off data).owned
    | read off size =>
      have hstate : ((Call.read off size).perform m).2 = m := vfsRead_state off size m
      rwa [hstate]
    | truncate size =>
      by_cases hsize : size = 0
      · subst hsize
        obtain ⟨m', hrun, howned, -⟩ := h.truncate
        have hstate : ((Call.truncate 0).perform m).2 = m' := congrArg Prod.snd hrun
        rwa [hstate]
      · have hstate : ((Call.truncate size).perform m).2 = m := by
          simp [Call.perform, vfsTruncate, hsize]
        rwa [hstate]

lemma owned_run (h0 : EmptyFile m0) (hrun : Run Step m0 events m) : Owned m :=
  hrun.invariant Owned (fun _ _ _ h hstep => h.step hstep) h0.owned

lemma Wrote.byte_of_not (h : Wrote off data m r m')
    (ho : ¬(off ≤ o ∧ o < off + copied off data m)) : byteAt m' o = byteAt m o := by
  rw [h.byte o]
  refine Bytes.copyIn_of_not ?_
  rwa [length_take_of_le h.le]

lemma Wrote.byte_of_lt (h : Wrote off data m r m') (hi : i < copied off data m) :
    byteAt m' (off + i) = data.getD i 0 := by
  have hlt : i < (data.take (copied off data m)).length := by rwa [length_take_of_le h.le]
  have hle := h.le
  rw [h.byte, Bytes.copyIn_of_mem hlt, getElem_take, getD_eq_getElem?_getD,
    getElem?_eq_getElem (by omega), Option.getD_some]

lemma Owned.byteAt_step (h : Owned m) (hstep : Step m e m') (he : Elsewhere o e) :
    byteAt m' o = byteAt m o := by
  cases e with
  | others => exact Undisturbed.byteAt hstep o
  | call c =>
    obtain rfl : m' = (c.perform m).2 := hstep
    cases c with
    | write off data =>
      have hwrote := h.vfsWrite off data
      have hle := hwrote.le
      refine hwrote.byte_of_not fun ho => he ⟨ho.1, ?_⟩
      omega
    | read off size =>
      have hstate : ((Call.read off size).perform m).2 = m := vfsRead_state off size m
      rw [hstate]
    | truncate size => exact he.elim

lemma Owned.byteAt_run (h : Owned m) (hrun : Run Step m events m')
    (he : ∀ e ∈ events, Elsewhere o e) : byteAt m' o = byteAt m o := by
  induction hrun with
  | nil => rfl
  | cons hstep _ ih =>
    rw [ih (h.step hstep) fun e hmem => he e (mem_cons_of_mem _ hmem),
      h.byteAt_step hstep (he _ mem_cons_self)]

/-! ## Extending the file -/

/-- The page at a place, 0 if there is none. -/
def pageAt (m : Mem) (path : List Nat) : Nat :=
  match nodeAt m path with
  | some (.page p) => p
  | _ => 0

lemma exists_used (m : Mem) (S : Finset (List Nat)) (hS : ∀ path, Place path → path ∈ S) :
    ∃ used : Finset Nat, used.card ≤ S.card ∧
      ∀ path, Place path → ∀ p, nodeAt m path = some (.page p) → p ∈ used := by
  refine ⟨S.image (pageAt m), Finset.card_image_le, ?_⟩
  intro path hp p hd
  refine Finset.mem_image.mpr ⟨path, hS path hp, ?_⟩
  rw [pageAt, hd]

lemma exists_fresh (m : Mem) (n : Nat) (hn : n < 2 ^ 32) : ∃ l : List Nat, l.length = n ∧ l.Nodup ∧
    (∀ p ∈ l, 0 < p ∧ p < 2 ^ 64) ∧
    ∀ path, Place path → ∀ p, nodeAt m path = some (.page p) → p ∉ l := by
  obtain ⟨used, hle, hused⟩ := exists_used m (places ndirect nindirect) fun _ =>
    @mem_places ndirect nindirect _
  have hcard : used.card ≤ 2 ^ 32 :=
    hle.trans ((card_places_le ndirect nindirect).trans (by decide))
  have hfree : n ≤ (Finset.Icc 1 (2 ^ 32 + n) \ used).card := by
    have hsdiff := Finset.le_card_sdiff used (Finset.Icc 1 (2 ^ 32 + n))
    rw [Nat.card_Icc] at hsdiff
    omega
  obtain ⟨fresh, hsub, hlen⟩ := Finset.exists_subset_card_eq hfree
  refine ⟨fresh.toList, by rw [Finset.length_toList, hlen], fresh.nodup_toList, ?_, ?_⟩
  · intro p hp
    have hmem : p ∈ Finset.Icc 1 (2 ^ 32 + n) :=
      (Finset.mem_sdiff.mp (hsub (Finset.mem_toList.mp hp))).1
    rw [Finset.mem_Icc] at hmem
    omega
  · intro path hp p hd hmem
    exact (Finset.mem_sdiff.mp (hsub (Finset.mem_toList.mp hmem))).2 (hused path hp p hd)

lemma Owned.extend (h : Owned m) : ∃ m',
    Run Step m [.others, .call (.write (maxfile * pgsize - 1) [0])] m' ∧
      maxfile * pgsize ≤ m'.size := by
  obtain ⟨l, hlen, hnodup, hbound, hfresh⟩ := exists_fresh m 3 (by decide)
  have hother : Undisturbed m { m with free := l } :=
    ⟨rfl, rfl, fun path hp p hd => ⟨rfl, hfresh path hp p hd⟩, hnodup, hbound⟩
  set m1 : Mem := { m with free := l }
  have hwrote := (hother.owned h).vfsWrite (maxfile * pgsize - 1) [0]
  have hmax : maxfile * pgsize - 1 + [(0 : Byte)].length ≤ maxfile * pgsize := by decide
  have hroom : Room m1 (maxfile * pgsize - 1) 0 := by
    have hlack : lack (nodeAt m1) (wayFrom [] (pagePath ((maxfile * pgsize - 1) / pgsize))) ≤ 3 :=
      (lack_le_card.trans card_wayFrom_le).trans (length_blockPath_le _)
    rw [Room, Nat.add_zero, ways_self]
    exact hlack.trans hlen.ge
  have hpos := (hwrote.room hmax 0 Nat.one_pos).mpr hroom
  have hle := hwrote.le
  have hfull : copied (maxfile * pgsize - 1) [0] m1 = [(0 : Byte)].length := by
    rw [length_singleton] at hle ⊢
    omega
  have hsize := hwrote.size
  rw [if_pos ⟨hmax, hfull⟩] at hsize
  exact ⟨_, .cons hother (.cons rfl (.nil _)), hsize ▸ le_max_right _ _⟩

/-! ## When a failed write leaves no trace -/

/-- The write is too long, or every byte that it can copy is there already. -/
def Harmless (off : Nat) (data : List Byte) (m : Mem) : Prop :=
  maxfile * pgsize < off + data.length ∨
    ∀ i < data.length, Room m off i → data.getD i 0 = byteAt m (off + i)

lemma Harmless.byteAt (h : Harmless off data m) (hwrote : Wrote off data m r m') (o : Nat) :
    byteAt m' o = byteAt m o := by
  by_cases ho : off ≤ o ∧ o < off + copied off data m
  · obtain ⟨i, rfl⟩ := Nat.exists_eq_add_of_le ho.1
    have hi : i < copied off data m := by omega
    have hle := hwrote.le
    have hmax : ¬maxfile * pgsize < off + data.length := fun hbig => by simp [copied, hbig] at hi
    have hroom := (hwrote.room (by omega) i (by omega)).mp hi
    rw [hwrote.byte_of_lt hi]
    exact h.resolve_left hmax i (by omega) hroom
  · exact hwrote.byte_of_not ho

/-- A write that fails leaves no trace exactly if it could copy no byte that was not there
already. -/
theorem failed_write_iff {m₀ : Mem} {events : List Event} (h₀ : EmptyFile m₀)
    (hrun : Run Step m₀ events m) (hfail : (vfsWrite off data m).1 = none) :
    NoTrace m (vfsWrite off data m).2 ↔
      maxfile * pgsize < off + data.length ∨
        ∀ i < data.length, Room m off i → data.getD i 0 = byteAt m (off + i) := by
  have howned := owned_run h₀ hrun
  have hwrote := howned.vfsWrite off data
  have hresult := hwrote.result
  have hsize := hwrote.size
  have hpart : ¬(off + data.length ≤ maxfile * pgsize ∧ copied off data m = data.length) := by
    intro hfull
    rw [if_pos hfull, hfail] at hresult
    cases hresult
  rw [if_neg hpart] at hsize
  constructor
  · intro htrace
    by_contra hharm
    simp only [not_or, not_forall] at hharm
    obtain ⟨hmax, i, hi, hroom, hne⟩ := hharm
    have hcopied := (hwrote.room (by omega) i hi).mpr hroom
    have hle := hwrote.le
    have hshort : copied off data m ≠ data.length := fun hc => hpart ⟨by omega, hc⟩
    -- the byte is below the last one that a file can have, so the file can be extended past it
    obtain ⟨m', hextend, hbig⟩ := hwrote.owned.extend
    have helse : ∀ e ∈ [Event.others, .call (.write (maxfile * pgsize - 1) [0])],
      Elsewhere (off + i) e := by
      intro e he
      simp only [mem_cons, not_mem_nil, or_false] at he
      rcases he with rfl | rfl
      · trivial
      · rintro ⟨hlo, -⟩
        omega
    have hafter := htrace.later _ m' (off + i) hextend helse (by omega)
    rw [hwrote.owned.byteAt_run hextend helse, hwrote.byte_of_lt hcopied] at hafter
    exact hne hafter
  · intro hharm
    have hbyte := Harmless.byteAt hharm hwrote
    refine ⟨hsize, fun o _ => hbyte o, fun events m' o hlater helse _ => ?_⟩
    rw [hwrote.owned.byteAt_run hlater helse, hbyte o]

/-- With one free page, a write of a zero and another byte across the end of the first page fails
after the zero. -/
theorem failed_write_iff_zero :
    EmptyFile (emptyMem [1]) ∧ Run Step (emptyMem [1]) [] (emptyMem [1]) ∧
      Room (emptyMem [1]) 4095 0 ∧ (vfsWrite 4095 [0, 9] (emptyMem [1])).1 = none ∧
      NoTrace (emptyMem [1]) (vfsWrite 4095 [0, 9] (emptyMem [1])).2 := by
  have hempty : EmptyFile (emptyMem [1]) := ⟨rfl, fun _ _ => rfl, by decide, by simp [emptyMem]⟩
  have hfail : (vfsWrite 4095 [0, 9] (emptyMem [1])).1 = none := by decide +kernel
  have hroom : Room (emptyMem [1]) 4095 0 ∧ ¬Room (emptyMem [1]) 4095 1 := by decide +kernel
  refine ⟨hempty, .nil _, hroom.1, hfail, (failed_write_iff hempty (.nil _) hfail).mpr (.inr ?_)⟩
  intro i hi hi'
  match i with
  | 0 => decide +kernel
  | 1 => exact absurd hi' hroom.2

/-- With one free page, a write across the end of the first page fails. A byte of it is read when
another write has extended the file. -/
theorem failed_write_shows : ∃ m₁ m₂, EmptyFile (emptyMem [1]) ∧
    vfsWrite 4094 [7, 8, 9] (emptyMem [1]) = (none, m₁) ∧ m₁.size = 0 ∧
    vfsWrite 4095 [5] m₁ = (some 1, m₂) ∧ (vfsRead 4094 1 m₂).1 = some [7] := by
  have hempty : EmptyFile (emptyMem [1]) := ⟨rfl, fun _ _ => rfl, by decide, by simp [emptyMem]⟩
  have hfail : (vfsWrite 4094 [7, 8, 9] (emptyMem [1])).1 = none ∧
      (vfsWrite 4094 [7, 8, 9] (emptyMem [1])).2.size = 0 ∧
      (vfsWrite 4095 [5] (vfsWrite 4094 [7, 8, 9] (emptyMem [1])).2).1 = some 1 ∧
      (vfsRead 4094 1 (vfsWrite 4095 [5] (vfsWrite 4094 [7, 8, 9] (emptyMem [1])).2).2).1 =
        some [7] := by
    decide +kernel
  obtain ⟨hnone, hsize, hsome, hread⟩ := hfail
  exact ⟨_, _, hempty, Prod.ext hnone rfl, hsize, Prod.ext hsome rfl, hread⟩

end FrostVista.Tmpfs
