import FrostVista.Library.Run
import FrostVista.Tmpfs.File

/-!
# tmpfs: what a file contains

Runs of writes, reads and truncations of one file, while the rest of the kernel allocates and frees
other pages.
-/
namespace FrostVista.Tmpfs

open Lib Lib.Radix Lib.BlockTree List

/-! ## Calls and runs -/

inductive Call where
  | write (off : Nat) (data : List Byte)
  | read (off size : Nat)
  | truncate (size : Nat)

inductive Reply where
  | wrote (n : Option Nat)
  | got (data : Option (List Byte))
  | truncated (ok : Bool)
  deriving DecidableEq

def Call.perform (m : Mem) : Call → Reply × Mem
  | .write off data => let (n, m) := vfsWrite off data m; (.wrote n, m)
  | .read off size => let (data, m) := vfsRead off size m; (.got data, m)
  | .truncate size => let (ok, m) := vfsTruncate size m; (.truncated ok, m)

/-- The rest of the kernel has run: it does not use the pages of the file, and the allocator does
not hand them out. -/
structure Undisturbed (m m' : Mem) : Prop where
  blocks : m'.blocks = m.blocks
  size : m'.size = m.size
  page : ∀ path, Place path → ∀ p, nodeAt m path = some (.page p) → m'.page p = m.page p ∧
    p ∉ m'.free
  nodup : m'.free.Nodup
  bound : ∀ p ∈ m'.free, 0 < p ∧ p < 2 ^ 64

/-- A call on the file, or something else that the kernel does. -/
inductive Event where
  | call (c : Call)
  | others

def Step (m : Mem) : Event → Mem → Prop
  | .call c, m' => m' = (c.perform m).2
  | .others, m' => Undisturbed m m'

/-- A new file: no pages, and a sound free list. -/
structure EmptyFile (m : Mem) : Prop where
  size : m.size = 0
  blocks : ∀ i < ndirect + 2, m.blocks i = 0
  nodup : m.free.Nodup
  bound : ∀ p ∈ m.free, 0 < p ∧ p < 2 ^ 64

variable {m m' : Mem} {off size : Nat} {data : List Byte}

variable {path : List Nat} {e : Event} {events : List Event} {m₀ : Mem}

section
variable (h : Undisturbed m m')
include h

lemma Undisturbed.nodeAt (hp : Place path) : nodeAt m' path = nodeAt m path := by
  refine @descend_congr_on _ _ _ _ (levels ndirect nindirect) {Node.inode} _ _ _ _ ?_ rfl hp
  rintro _ rfl path' j hj q hq
  cases q with
  | inode => simp only [Mem.entry, h.blocks]
  | page p => simp only [Mem.entry, (h.page path' (Place.init hj) p hq).1]

lemma Undisturbed.owned (hm : Owned m) : Owned m' where
  forest := by
    refine hm.forest.of_sub ?_
    rintro _ rfl path hp q hq
    exact (h.nodeAt hp).symm.trans hq
  page path hp p hd := by
    rw [h.nodeAt hp] at hd
    exact ⟨(h.page path hp p hd).2, (hm.page path hp p hd).2⟩
  nodup := h.nodup
  bound := h.bound

lemma Undisturbed.byteAt (o : Nat) : byteAt m' o = byteAt m o := by
  refine byteAt_congr (dataPage_congr (fun _ hp => h.nodeAt hp) _) fun a ha => ?_
  obtain ⟨hlt, ha⟩ := dataPage_eq_some.mp ha
  exact (h.page _ (place_pagePath hlt) a ha).1

lemma Undisturbed.present_iff {o : Nat} : Present m' o ↔ Present m o := by
  unfold Present
  rw [dataPage_congr fun _ hp => h.nodeAt hp]

end

lemma EmptyFile.nodeAt (h : EmptyFile m) (hp : Place path) (hne : path ≠ []) :
    nodeAt m path = none := by
  obtain ⟨i, rest, rfl⟩ := exists_cons_of_ne_nil hne
  have hi : i < ndirect + 2 := (levels ndirect nindirect).head hp
  refine nodeAt_below (show Tmpfs.nodeAt m [i] = none from ?_)
  rw [nodeAt_single, Mem.entry, h.blocks i hi, follow_zero]

lemma EmptyFile.owned (h : EmptyFile m) : Owned m where
  forest := by
    rintro _ rfl _ rfl path path' hp hp' q hq hq'
    have hnil : ∀ x, Place x → Tmpfs.nodeAt m x = some q → x = [] := by
      intro x hx hxq
      by_contra hne
      rw [h.nodeAt hx hne] at hxq
      cases hxq
    exact ⟨rfl, (hnil path hp hq).trans (hnil path' hp' hq').symm⟩
  page path hp p hd := by
    by_cases hne : path = []
    · rw [hne] at hd
      cases hd
    · rw [h.nodeAt hp hne] at hd
      cases hd
  nodup := h.nodup
  bound := h.bound

lemma byteAt_of_none (h : ∀ path, Place path → path ≠ [] → nodeAt m path = none) (o : Nat) :
    byteAt m o = 0 ∧ ¬Present m o := by
  have hpage : dataPage m (o / pgsize) = none := by
    unfold dataPage
    split
    · rename_i hlt
      exact h _ (place_pagePath hlt) (blockPath_ne_nil _)
    · rfl
  constructor
  · rw [byteAt, hpage]
  · rintro ⟨a, ha⟩
    rw [hpage] at ha
    cases ha

lemma vfsRead_end (hmax : off + size ≤ maxfile * pgsize) (hoff : m.size ≤ off) :
    vfsRead off size m = (some [], m) := by
  have hword : ¬2 ^ 64 ≤ off + size := by
    simp only [maxfile, ndirect, nindirect, ndindirect, pgsize] at hmax
    omega
  unfold vfsRead
  rw [if_neg hword, if_neg (by omega), if_pos hoff]

lemma vfsRead_beyond (h : ¬off + size ≤ maxfile * pgsize) : vfsRead off size m = (none, m) := by
  unfold vfsRead
  split
  · rfl
  · rw [if_pos (by omega)]

lemma vfsRead_state (off size : Nat) (m : Mem) : (vfsRead off size m).2 = m := by
  by_cases hmax : off + size ≤ maxfile * pgsize
  · by_cases hoff : m.size ≤ off
    · rw [vfsRead_end hmax hoff]
    · obtain ⟨got, -, hread, -⟩ := vfsRead_spec hmax (Nat.lt_of_not_le hoff)
      rw [hread]
  · rw [vfsRead_beyond hmax]

/-! ## Flat files -/

/-- What a call does to a flat file, and what it returns. -/
def Call.spec (f : List Byte) : Call → Reply × List Byte
  | .write off data => (.wrote (some data.length), overwrite f off data)
  | .read off size => (.got (some ((f.drop off).take size)), f)
  | .truncate _ => (.truncated true, [])

/-- A write does not start behind the end of the file, and there are free pages for all of it; a
file is truncated to 0 only. -/
def Call.Allowed (m : Mem) : Call → Prop
  | .write off data => off ≤ m.size ∧ off + data.length ≤ maxfile * pgsize ∧
      ∀ i < data.length, Room m off i
  | .read off size => off + size ≤ maxfile * pgsize
  | .truncate size => size = 0

def FlatStep (m : Mem) (e : Event) (m' : Mem) : Prop :=
  (∀ c, e = .call c → c.Allowed m) ∧ Step m e m'

def Event.spec (f : List Byte) : Event → List Byte
  | .call c => (c.spec f).2
  | .others => f

/-- The flat file after a list of events. -/
def contents (events : List Event) : List Byte := events.foldl Event.spec []

/-- The file is the list of bytes `f`, and all its pages have been allocated. -/
structure Holds (m : Mem) (f : List Byte) : Prop where
  owned : Owned m
  size : m.size = f.length
  byte : ∀ o, byteAt m o = f.getD o 0
  present : ∀ o < f.length, Present m o

variable {f : List Byte}

section
variable (h : Holds m f)
include h

lemma Holds.write (hc : (Call.write off data).Allowed m) :
    (vfsWrite off data m).1 = some data.length ∧
      Holds (vfsWrite off data m).2 (overwrite f off data) := by
  obtain ⟨hoff, hmax, hroom⟩ := hc
  have hwrote := h.owned.vfsWrite off data
  have hfull : copied off data m = data.length := by
    by_contra hne
    have hlt : copied off data m < data.length := Nat.lt_of_le_of_ne hwrote.le hne
    exact absurd ((hwrote.room hmax _ hlt).mpr (hroom _ hlt)) (Nat.lt_irrefl _)
  have hsize := hwrote.size
  have hresult := hwrote.result
  rw [if_pos ⟨hmax, hfull⟩] at hsize hresult
  refine ⟨hresult, hwrote.owned, ?_, ?_, ?_⟩
  · rw [hsize, length_overwrite, h.size]
  · intro o
    rw [getD_overwrite, ← funext h.byte, hwrote.byte o, hfull, take_length]
  · intro o ho
    rw [length_overwrite] at ho
    rw [hwrote.present o, hfull]
    by_cases hold : o < f.length
    · exact .inl (h.present o hold)
    · rw [h.size] at hoff
      refine .inr ⟨o - off, by omega, ?_⟩
      rw [show off + (o - off) = o by omega]

lemma Holds.read (hc : (Call.read off size).Allowed m) :
    vfsRead off size m = (some ((f.drop off).take size), m) := by
  have hmax : off + size ≤ maxfile * pgsize := hc
  by_cases hoff : m.size ≤ off
  · rw [vfsRead_end hmax hoff, drop_of_length_le (by rwa [← h.size]), take_nil]
  · obtain ⟨got, hgot, hread, -, hmissing⟩ := vfsRead_spec hmax (Nat.lt_of_not_le hoff)
    have hsize := h.size
    have hfull : got = min size (f.length - off) := by
      by_contra hne
      refine hmissing (by omega) (h.present (off + got) ?_)
      omega
    rw [hread, take_drop_eq_copyOut, hfull, funext h.byte]

lemma Holds.truncate : (vfsTruncate 0 m).1 = true ∧ Holds (vfsTruncate 0 m).2 [] := by
  obtain ⟨m', hrun, howned, hsize, hnone⟩ := h.owned.truncate
  rw [hrun]
  exact ⟨rfl, howned, hsize, fun o => (byteAt_of_none hnone o).1, by simp⟩

lemma Holds.call {c : Call} (hc : c.Allowed m) :
    (c.perform m).1 = (c.spec f).1 ∧ Holds (c.perform m).2 (c.spec f).2 := by
  cases c with
  | write off data =>
    obtain ⟨hresult, hholds⟩ := h.write hc
    exact ⟨congrArg Reply.wrote hresult, hholds⟩
  | read off size =>
    have hread := h.read hc
    simp only [Call.perform, Call.spec, hread]
    exact ⟨trivial, h⟩
  | truncate size =>
    obtain rfl : size = 0 := hc
    obtain ⟨hresult, hholds⟩ := h.truncate
    exact ⟨congrArg Reply.truncated hresult, hholds⟩

lemma Holds.step (hstep : FlatStep m e m') : Holds m' (e.spec f) := by
  cases e with
  | call c =>
    obtain ⟨hc, rfl⟩ := hstep
    exact (h.call (hc c rfl)).2
  | others =>
    have hother : Undisturbed m m' := hstep.2
    exact ⟨hother.owned h.owned, hother.size.trans h.size, fun o =>
      (hother.byteAt o).trans (h.byte o),
      fun o ho => hother.present_iff.mpr (h.present o ho)⟩

end

lemma EmptyFile.holds (h : EmptyFile m) : Holds m [] :=
  ⟨h.owned, h.size, fun o => (byteAt_of_none (fun _ hp hne => h.nodeAt hp hne) o).1, by simp⟩

lemma holds_run (h0 : EmptyFile m₀) (hrun : Run FlatStep m₀ events m) :
    Holds m (contents events) := by
  refine hrun.history (fun events m => Holds m (contents events)) (fun _ _ => True) ?_ h0.holds
    fun _ _ _ _ => trivial
  intro before m e m' hm _ hstep
  rw [contents, foldl_append]
  exact hm.step hstep

/-- In every run from an empty file in which no write starts behind the end of the file and pages
are free for it, each call returns what it returns for a flat array of bytes. -/
theorem tmpfs_file_flat {m₀ : Mem} {events : List Event} (h₀ : EmptyFile m₀)
    (hrun : Run FlatStep m₀ events m) (c : Call) (hc : c.Allowed m) :
    (c.perform m).1 = (c.spec (contents events)).1 :=
  ((holds_run h₀ hrun).call hc).1

/-- A memory with some free pages and an empty file. -/
def emptyMem (free : List Nat) : Mem where
  page _ := Bytes.zero
  free := free
  blocks _ := 0
  size := 0

lemma emptyFile_emptyMem : EmptyFile (emptyMem [1, 2, 3]) where
  size := rfl
  blocks _ _ := rfl
  nodup := by decide
  bound := by
    intro p hp
    have hle : p ∈ [1, 2, 3] := hp
    simp only [mem_cons, not_mem_nil, or_false] at hle
    omega

/-- Two bytes are written, the second one is overwritten, a third one added, and all are read. -/
theorem tmpfs_file_flat_two : ∃ m, EmptyFile (emptyMem [1, 2, 3]) ∧
    Run FlatStep (emptyMem [1, 2, 3]) [.call (.write 0 [7, 8]), .call (.write 1 [9, 10])] m ∧
    ((Call.read 0 5).perform m).1 = .got (some [7, 9, 10]) := by
  have hrun : Run FlatStep (emptyMem [1, 2, 3])
      [.call (.write 0 [7, 8]), .call (.write 1 [9, 10])] _ :=
    .cons ⟨fun c hc => by cases hc; exact ⟨le_rfl, by decide, by decide +kernel⟩, rfl⟩
      (.cons ⟨fun c hc => by cases hc; exact ⟨by decide +kernel, by decide, by decide +kernel⟩,
        rfl⟩ (.nil _))
  exact ⟨_, emptyFile_emptyMem, hrun, tmpfs_file_flat emptyFile_emptyMem hrun (.read 0 5)
    (by decide : 0 + 5 ≤ maxfile * pgsize)⟩

/-! ## Sparse files -/

/-- What has been written since the last truncation: the bytes, which are zero where nothing was
written, and the offsets. -/
structure History where
  content : Nat → Byte
  written : Set Nat

def History.empty : History := ⟨fun _ => 0, ∅⟩

def History.write (g : History) (off : Nat) (data : List Byte) : History where
  content := Bytes.copyIn g.content off data
  written := g.written ∪ {o | off ≤ o ∧ o < off + data.length}

/-- The history after an event in the memory `m`. A write that fails has written what it copied. -/
def History.next (g : History) (m : Mem) : Event → History
  | .call (.write off data) => g.write off (data.take (copied off data m))
  | .call (.read _ _) => g
  | .call (.truncate size) => if size = 0 then .empty else g
  | .others => g

def TraceStep (s : Mem × History) (e : Event) (s' : Mem × History) : Prop :=
  Step s.1 e s'.1 ∧ s'.2 = s.2.next s.1 e

/-- The memory holds what the history says, and the pages of the file are those that were written
to. -/
structure Tracks (m : Mem) (g : History) : Prop where
  owned : Owned m
  byte : ∀ o, byteAt m o = g.content o
  present : ∀ o, Present m o ↔ ∃ w ∈ g.written, w / pgsize = o / pgsize

variable {g g' : History}

lemma Tracks.write (h : Tracks m g) (off : Nat) (data : List Byte) :
    Tracks (vfsWrite off data m).2 (g.write off (data.take (copied off data m))) := by
  have hwrote := h.owned.vfsWrite off data
  have hlen : (data.take (copied off data m)).length = copied off data m :=
    length_take_of_le hwrote.le
  refine ⟨hwrote.owned, ?_, ?_⟩
  · intro o
    rw [hwrote.byte o, funext h.byte]
    rfl
  · intro o
    rw [hwrote.present o, h.present o]
    constructor
    · rintro (⟨w, hw, hpage⟩ | ⟨j, hj, hpage⟩)
      · exact ⟨w, .inl hw, hpage⟩
      · exact ⟨off + j, .inr ⟨by omega, by omega⟩, hpage⟩
    · rintro ⟨w, hw | ⟨hlo, hhi⟩, hpage⟩
      · exact .inl ⟨w, hw, hpage⟩
      · exact .inr ⟨w - off, by omega, by rw [← hpage, show off + (w - off) = w by omega]⟩

lemma Tracks.empty (h : Owned m) (hnone : ∀ path, Place path → path ≠ [] → nodeAt m path = none) :
    Tracks m .empty :=
  ⟨h, fun o => (byteAt_of_none hnone o).1, fun o =>
    ⟨fun hp => absurd hp (byteAt_of_none hnone o).2, fun ⟨_, hw, _⟩ => hw.elim⟩⟩

lemma Tracks.step (h : Tracks m g) (hstep : TraceStep (m, g) e (m', g')) : Tracks m' g' := by
  obtain ⟨hstep, hg⟩ := hstep
  simp only at hstep hg
  subst hg
  cases e with
  | others =>
    have hother : Undisturbed m m' := hstep
    exact ⟨hother.owned h.owned, fun o => (hother.byteAt o).trans (h.byte o),
      fun o => hother.present_iff.trans (h.present o)⟩
  | call c =>
    obtain rfl : m' = (c.perform m).2 := hstep
    cases c with
    | write off data => exact h.write off data
    | read off size =>
      have hstate : ((Call.read off size).perform m).2 = m := vfsRead_state off size m
      rw [hstate]
      exact h
    | truncate size =>
      by_cases hsize : size = 0
      · subst hsize
        obtain ⟨m', hrun, howned, -, hnone⟩ := h.owned.truncate
        have hstate : ((Call.truncate 0).perform m).2 = m' := congrArg Prod.snd hrun
        rw [hstate]
        exact .empty howned hnone
      · have hstate : ((Call.truncate size).perform m).2 = m := by
          simp [Call.perform, vfsTruncate, hsize]
        rw [hstate, History.next, if_neg hsize]
        exact h

lemma tracks_run (h0 : EmptyFile m₀) (hrun : Run TraceStep (m₀, .empty) events (m, g)) :
    Tracks m g :=
  hrun.invariant (fun s : Mem × History => Tracks s.1 s.2) (fun _ _ _ h hstep => h.step hstep)
    (.empty h0.owned fun _ hp hne => h0.nodeAt hp hne)

lemma length_copyOut (b : Bytes) (o n : Nat) : (b.copyOut o n).length = n := by simp [Bytes.copyOut]

/-- After every run, a read below the end of the file returns all bytes up to the end of its range
or of the file exactly if its range ends within the largest file and meets no page that lies in a
hole. -/
theorem read_complete_iff {m₀ : Mem} {events : List Event} (h₀ : EmptyFile m₀)
    (hrun : Run TraceStep (m₀, .empty) events (m, g)) (hoff : off < m.size) :
    (vfsRead off size m).1 = some (Bytes.copyOut g.content off (min size (m.size - off))) ↔
      off + size ≤ maxfile * pgsize ∧ ∀ o, off ≤ o → o < off + min size (m.size - off) →
        ∃ w ∈ g.written, w / pgsize = o / pgsize := by
  by_cases hmax : off + size ≤ maxfile * pgsize
  swap
  · simp [vfsRead_beyond hmax, hmax]
  have htracks := tracks_run h₀ hrun
  simp only [hmax, true_and]
  obtain ⟨got, hgot, hread, hpresent, hmissing⟩ := vfsRead_spec hmax hoff
  rw [hread, funext htracks.byte]
  simp only [← htracks.present]
  constructor
  · intro hall o hlo hhi
    have hlen := congrArg length (Option.some.inj hall)
    rw [length_copyOut, length_copyOut] at hlen
    exact hpresent o hlo (by omega)
  · intro hall
    have hfull : got = min size (m.size - off) := by
      by_contra hne
      exact hmissing (by omega) (hall (off + got) (by omega) (by omega))
    rw [hfull]

/-- A byte at offset 4095 and one at 4096: the file has no hole. -/
theorem read_complete_iff_two : ∃ m g, EmptyFile (emptyMem [1, 2, 3]) ∧
    Run TraceStep (emptyMem [1, 2, 3], .empty) [.call (.write 4095 [7, 8])] (m, g) ∧
    (vfsRead 0 4097 m).1 = some (Bytes.copyOut g.content 0 4097) := by
  have hstep : TraceStep (emptyMem [1, 2, 3], .empty) (.call (.write 4095 [7, 8]))
      ((vfsWrite 4095 [7, 8] (emptyMem [1, 2, 3])).2,
        History.empty.next (emptyMem [1, 2, 3]) (.call (.write 4095 [7, 8]))) := ⟨rfl, rfl⟩
  have hrun := Run.cons hstep (.nil _)
  have hsize : (vfsWrite 4095 [7, 8] (emptyMem [1, 2, 3])).2.size = 4097 := by decide +kernel
  have hcopied : copied 4095 [7, 8] (emptyMem [1, 2, 3]) = 2 := by decide +kernel
  have hoff : 0 < (vfsWrite 4095 [7, 8] (emptyMem [1, 2, 3])).2.size := by rw [hsize]; decide
  have hread := (read_complete_iff emptyFile_emptyMem hrun hoff).mpr
    ⟨(by decide : 0 + 4097 ≤ maxfile * pgsize), ?_⟩
  · rw [hsize] at hread
    exact ⟨_, _, emptyFile_emptyMem, hrun, hread⟩
  · intro o _ ho
    rw [hsize] at ho
    have hlen : ([7, 8].take (copied 4095 [7, 8] (emptyMem [1, 2, 3])) : List Byte).length = 2 := by
      rw [hcopied]
      rfl
    by_cases hpage : o < 4096
    · exact ⟨4095, .inr ⟨le_rfl, by omega⟩, by simp only [pgsize]; omega⟩
    · exact ⟨4096, .inr ⟨by omega, by omega⟩, by simp only [pgsize]; omega⟩

/-- A byte is written to the second page only: a read from the start of the file returns nothing. -/
theorem read_stops_at_hole : ∃ m, EmptyFile (emptyMem [1, 2, 3]) ∧
    Run Step (emptyMem [1, 2, 3]) [.call (.write 4096 [7])] m ∧ m.size = 4097 ∧
    (vfsRead 0 4097 m).1 = some [] := by
  have hread : (vfsWrite 4096 [7] (emptyMem [1, 2, 3])).2.size = 4097 ∧
      (vfsRead 0 4097 (vfsWrite 4096 [7] (emptyMem [1, 2, 3])).2).1 = some [] := by decide +kernel
  exact ⟨_, emptyFile_emptyMem, .cons rfl (.nil _), hread⟩

end FrostVista.Tmpfs
