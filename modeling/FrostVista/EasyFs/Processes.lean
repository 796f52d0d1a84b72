import FrostVista.EasyFs.Discipline
import FrostVista.Library.RefCount

/-!
# EasyFS: processes

Any number of processes call the functions of the file system on open files and directories, and
perform their operations in any interleaving. An open file is a handle: it stands for one reference
to an inode of the cache, several processes may work on it at the same time, and it is closed when
no process works on it.
-/
namespace FrostVista.EasyFs

open Lib Lib.Comp Kernel Function Option Set Config.Obeyed RefCount

/-- The calls on an inode. -/
inductive Syscall where
  | lookup (name : Namei.Name)
  | read (off size : Nat)
  | write (off : Nat) (data : List Byte)
  | truncate (size : Nat)
  | readdir (off : Nat)
  | create (name : Namei.Name) (mode : Nat)
  | mkdir (name : Namei.Name) (mode : Nat)
  | unlink (name : Namei.Name)

/-- The code of a call on the inode `i`. A lookup returns an inode, with a reference. -/
def Syscall.prog (i : SlotId) : Syscall → FsProg (Option SlotId)
  | .lookup name => do
    match ← EasyFs.lookup i name with
    | some (j, _) => pure (some j)
    | none => pure none
  | .read off size => do
    let _ ← vfsRead i off size
    pure none
  | .write off data => do
    let _ ← vfsWrite i off data
    pure none
  | .truncate size => do
    let _ ← vfsTruncate i size
    pure none
  | .readdir off => do
    let _ ← EasyFs.readdir i off
    pure none
  | .create name mode => do
    let _ ← EasyFs.create i name mode
    pure none
  | .mkdir name mode => do
    let _ ← EasyFs.mkdir i name mode
    pure none
  | .unlink name => do
    let _ ← EasyFs.unlink i name
    pure none

/-- The file system and what the processes have to do with it. -/
structure Traced where
  fs : Fs
  /-- The inodes of the open files. -/
  handle : Nat → Option SlotId
  /-- The handle that a process works on. -/
  work : Tid → Option Nat
  /-- The references that a process has taken itself and not given back. -/
  refs : Tid → SlotId → Nat
  /-- The sleeplocks that a process has acquired and not released. -/
  locked : Tid → SlotId → Bool

abbrev Sys := Config ops Traced Tid (Option SlotId)

def Traced.addRef (s : Traced) (t : Tid) (i : SlotId) : Traced :=
  { s with refs := update s.refs t (update (s.refs t) i (s.refs t i + 1)) }

def Traced.dropRef (s : Traced) (t : Tid) (i : SlotId) : Traced :=
  { s with refs := update s.refs t (update (s.refs t) i (s.refs t i - 1)) }

def Traced.setLocked (s : Traced) (t : Tid) (i : SlotId) (v : Bool) : Traced :=
  { s with locked := update s.locked t (update (s.locked t) i v) }

/-- Keeps track of references and locks. -/
def track (t : Tid) (s : Traced) : (o : Op) → o.Res → Traced
  | .getInode _, r =>
    match (r : Option SlotId) with
    | some i => s.addRef t i
    | none => s
  | .putInode i, _ => s.dropRef t i
  | .acquiresleep i, _ => s.setLocked t i true
  | .releasesleep i, _ => s.setLocked t i false
  | _, _ => s

def execTraced (t : Tid) (o : Op) : Comp Traced Stop o.Res := fun s =>
  match exec t o s.fs with
  | .ok (r, fs) => .ok (r, track t { s with fs := fs } o r)
  | .error e => .error e

inductive Move where
  /-- The process starts a call on a handle. -/
  | call (t : Tid) (h : Nat) (c : Syscall)
  /-- The process performs its next operation. -/
  | op (t : Tid)
  /-- The call returns; an inode that it returns gets the handle `h`. -/
  | ret (t : Tid) (h : Nat)
  /-- The process closes the handle `h`. -/
  | close (t : Tid) (h : Nat)

/-- What a move leads to; `none` if it cannot be made. -/
def Sys.next (c : Sys) : Move → Option Sys
  | .call t h call =>
    match c.prog t, c.state.handle h with
    | none, some i => some ⟨{ c.state with work := update c.state.work t (some h) },
        update c.prog t (some (call.prog i))⟩
    | _, _ => none
  | .op t => c.perform execTraced t
  | .ret t h =>
    match c.prog t with
    | some (.pure none) =>
      some ⟨{ c.state with work := update c.state.work t none },
        update c.prog t none⟩
    | some (.pure (some i)) =>
      match c.state.handle h with
      | none => some ⟨{ c.state.dropRef t i with
          work := update c.state.work t none
          handle := update c.state.handle h (some i) }, update c.prog t none⟩
      | some _ => none
    | _ => none
  | .close t h =>
    match c.prog t, c.state.handle h with
    | none, some i =>
        some ⟨{ c.state.addRef t i with handle := update c.state.handle h none },
        update c.prog t (some (do putInode i; pure none))⟩
    | _, _ => none

/-- A handle is closed only when no process works on it. -/
def Sys.Allowed (c : Sys) : Move → Prop
  | .close _ h => ∀ u, c.state.work u ≠ some h
  | _ => True

def Sys.Step (c : Sys) (m : Move) (c' : Sys) : Prop := c.Allowed m ∧ c.next m = some c'

/-- Before the first call: there are only handles, each with a reference to an inode of EasyFS, and
no sleeplock is taken. -/
structure Sys.Init (c : Sys) : Prop where
  idle : ∀ t, c.prog t = none
  work : ∀ t, c.state.work t = none
  refs : ∀ t i, c.state.refs t i = 0
  locked : ∀ t i, c.state.locked t i = false
  owner : ∀ i, (c.state.fs.slot i).owner = none
  count : ∀ i, {h | c.state.handle h = some i}.encard ≤ (c.state.fs.slot i).count

/-! ## What a process sees -/

/-- The handle that the process works on belongs to the inode. -/
def Traced.pins (s : Traced) (t : Tid) (i : SlotId) : Bool :=
  match s.work t with
  | some h => s.handle h = some i
  | none => false

def Traced.view (ρ : Rules) (s : Traced) (t : Tid) : View where
  pinned := s.pins t
  refs := s.refs t
  num i := if s.pins t i = true ∨ 1 ≤ s.refs t i then (s.fs.slot i).ino else 0
  locked i := ρ.exclusive && s.locked t i
  normal i hp hr := if_neg (by simp [hp, hr])

open Traced (pins view addRef dropRef setLocked)

/-- The references to an inode: those that processes have taken, numbered, and the handles. -/
def Traced.claims (s : Traced) (i : SlotId) : Set (Tid × Nat ⊕ Nat) :=
  {c | Sum.elim (fun p => p.2 < s.refs p.1 i) (fun h => s.handle h = some i) c}

/-- Every reference is counted, and a sleeplock belongs to the process that has acquired it. -/
structure Consistent (ρ : Rules) (s : Traced) : Prop where
  work : ∀ t h, s.work t = some h → s.handle h ≠ none
  count : ∀ i, (s.claims i).encard ≤ (s.fs.slot i).count
  owner : ρ.exclusive = true → ∀ t i, (s.fs.slot i).owner = some t ↔ s.locked t i = true

/-- The views are what the processes see. -/
def Fits (ρ : Rules) (s : Traced) (views : Tid → View) : Prop :=
  (∀ t, views t = s.view ρ t) ∧ Consistent ρ s

/-- What is needed besides the rules: what is taken for granted about blocks, and that an inode is
not filled in while its sleeplock is taken. -/
def Fine (ρ : Rules) (s : Traced) : Op → Prop
  | .bread n => ρ.reads n (s.fs.blk n)
  | .fill i _ _ => ρ.exclusive = true → (s.fs.slot i).owner = none
  | _ => True

variable {ρ : Rules} {s s' : Traced} {t u : Tid} {i : SlotId}

lemma view_num (h : (s.view ρ t).Holds i) : (s.view ρ t).num i = (s.fs.slot i).ino := if_pos h

lemma pins_iff : s.pins t i = true ↔ ∃ h, s.work t = some h ∧ s.handle h = some i := by
  unfold pins
  split
  · rename_i h hw
    simp [hw]
  · rename_i hw
    simp [hw]

lemma view_congr (hp : s'.pins t = s.pins t) (hr : s'.refs t = s.refs t)
    (hl : s'.locked t = s.locked t)
    (hn : ∀ i, (s.view ρ t).Holds i → (s'.fs.slot i).ino = (s.fs.slot i).ino) :
    s'.view ρ t = s.view ρ t := by
  ext i
  · exact congrFun hp i
  · exact congrFun hr i
  · simp only [view, hp, hr]
    split
    · exact hn i ‹_›
    · rfl
  · simp [view, hl]

lemma Consistent.held (hc : Consistent ρ s) (h : (s.view ρ t).Holds i) :
    1 ≤ (s.fs.slot i).count := by
  rcases h with hpin | href
  · obtain ⟨k, -, hk⟩ := pins_iff.mp hpin
    exact one_le_of_mem (x := .inr k) (hc.count i) hk
  · exact one_le_of_mem (x := .inl (t, 0)) (hc.count i) href

/-- Nothing is noticed of a change that keeps the numbers, counts and owners of all slots. -/
lemma Consistent.keep (hc : Consistent ρ s) {Q : View → Prop} (fs : Fs)
    (hslot : ∀ i, (fs.slot i).ino = (s.fs.slot i).ino ∧ (fs.slot i).count = (s.fs.slot i).count ∧
      (ρ.exclusive = true → (fs.slot i).owner = (s.fs.slot i).owner)) (hQ : Q (s.view ρ t)) :
    Consistent ρ { s with fs } ∧ (∀ u, u ≠ t → view ρ { s with fs } u = s.view ρ u) ∧
      Q (view ρ { s with fs } t) := by
  have hview : ∀ u, view ρ { s with fs } u = s.view ρ u := fun u =>
    view_congr rfl rfl rfl fun i _ => (hslot i).1
  refine ⟨⟨hc.work, fun i => ?_, fun hx t i => ?_⟩, fun u _ => hview u, (hview t).symm ▸ hQ⟩
  · rw [(hslot i).2.1]
    exact hc.count i
  · rw [(hslot i).2.2 hx]
    exact hc.owner hx t i

/-! ## Operations -/

lemma execTraced_run (h : (execTraced t o).run s = .ok (r, s')) :
    ∃ fs, exec t o s.fs = .ok (r, fs) ∧ s' = track t { s with fs := fs } o r := by
  unfold Comp.run execTraced at h
  split at h
  · rename_i r' fs hr
    cases h
    exact ⟨fs, hr, rfl⟩
  · cases h

lemma claims_addRef (fs : Fs) (j : SlotId) : (addRef { s with fs := fs } t i).claims j ⊆
    if j = i then insert (.inl (t, s.refs t i)) (s.claims j) else s.claims j := by
  rintro (⟨u, k⟩ | h) hc
  · change k < update s.refs t (update (s.refs t) i (s.refs t i + 1)) u j at hc
    by_cases hut : u = t
    · subst hut
      rw [update_self] at hc
      split
      · rename_i hji
        subst hji
        rw [update_self] at hc
        rcases Nat.lt_or_eq_of_le (Nat.le_of_lt_succ hc) with hlt | rfl
        · exact .inr hlt
        · exact .inl rfl
      · rename_i hji
        rwa [update_of_ne hji] at hc
    · rw [update_of_ne hut] at hc
      split
      · exact .inr hc
      · exact hc
  · split
    · exact .inr hc
    · exact hc

lemma Consistent.take (hc : Consistent ρ s) (h : s.fs.getInode ino = some (i, fs)) :
    Consistent ρ (addRef { s with fs := fs } t i) ∧
      (∀ u, u ≠ t → (addRef { s with fs := fs } t i).view ρ u = s.view ρ u) ∧
      ((s.view ρ t).Holds i → (s.view ρ t).num i = ino) ∧
      (addRef { s with fs := fs } t i).view ρ t = (s.view ρ t).take i ino := by
  obtain ⟨e, rfl, hid, hcount, howner, hcase⟩ := getInode_eq_some h
  have hino : e.ino = ino := congrArg Prod.snd hid
  have hsame : ∀ u, (s.view ρ u).Holds i → (s.fs.slot i).ino = ino := by
    intro u hi
    obtain ⟨-, hw⟩ | ⟨hw, -⟩ := hcase
    · exact hw
    · have := hc.held hi
      omega
  refine ⟨⟨hc.work, fun j => ?_, fun hx u j => ?_⟩, fun u hu => ?_,
    fun hi => (view_num hi).trans (hsame t hi), ?_⟩
  · have hclaims := claims_addRef (s := s) (t := t) (i := i) (s.fs.setSlot i e) j
    split at hclaims
    · rename_i hji
      subst hji
      refine (encard_le_take (hc.count j) hclaims).trans_eq ?_
      simp [addRef, hcount]
    · rename_i hji
      refine ((encard_le_encard hclaims).trans (hc.count j)).trans_eq ?_
      simp [addRef, hji]
  · refine (iff_of_eq (congrArg (· = some u) ?_)).trans (hc.owner hx u j)
    exact slot_setSlot Slot.owner howner j
  · refine view_congr rfl ?_ rfl fun j hj => ?_
    · simp [addRef, hu]
    · by_cases hji : j = i
      · subst hji
        simp [addRef, hino, hsame u hj]
      · simp [addRef, hji]
  · ext j
    · rfl
    · simp [view, addRef, View.take]
    · by_cases hji : j = i
      · subst hji
        simp [view, addRef, View.take, hino]
      · simp only [view, addRef, View.take, update_self, update_of_ne hji, Fs.setSlot_slot]
        rfl
    · rfl

lemma claims_dropRef (fs : Fs) (j : SlotId) :
    (dropRef { s with fs := fs } t i).claims j ⊆ s.claims j := by
  rintro (⟨u, k⟩ | h) hc
  · change k < update s.refs t (update (s.refs t) i (s.refs t i - 1)) u j at hc
    change k < s.refs u j
    by_cases hut : u = t
    · subst hut
      rw [update_self] at hc
      by_cases hji : j = i
      · subst hji
        rw [update_self] at hc
        omega
      · rwa [update_of_ne hji] at hc
    · rwa [update_of_ne hut] at hc
  · exact hc

lemma not_mem_claims_dropRef (fs : Fs) :
    .inl (t, s.refs t i - 1) ∉ (dropRef { s with fs := fs } t i).claims i := by
  intro hc
  have hlt : s.refs t i - 1 < update s.refs t
      (update (s.refs t) i (s.refs t i - 1)) t i := hc
  simp at hlt

lemma Consistent.give (hc : Consistent ρ s) (h : 1 ≤ s.refs t i) :
    Consistent ρ (dropRef { s with fs := s.fs.putInode i } t i) ∧
      (∀ u, u ≠ t → (dropRef { s with fs := s.fs.putInode i } t i).view ρ u = s.view ρ u) ∧
      (dropRef { s with fs := s.fs.putInode i } t i).view ρ t = (s.view ρ t).give i := by
  obtain ⟨e, order, heq, hid, hcount, howner, -, -⟩ := putInode_eq (hc.held (.inr h))
  have hino := slot_setSlot Slot.ino (congrArg Prod.snd hid)
  rw [heq]
  refine ⟨⟨hc.work, fun j => ?_, fun hx u j => ?_⟩, fun u hu => ?_, ?_⟩
  · have hclaims := claims_dropRef (s := s) (t := t) (i := i) { s.fs.setSlot i e with order } j
    by_cases hji : j = i
    · subst hji
      refine (encard_le_drop (x := .inl (t, s.refs t j - 1)) (hc.count j) ?_
        (not_mem_claims_dropRef _) hclaims).trans_eq ?_
      · exact Nat.sub_lt_of_pos_le Nat.one_pos h
      · simp [dropRef, hcount]
    · refine ((encard_le_encard hclaims).trans (hc.count j)).trans_eq ?_
      simp [dropRef, hji]
  · exact (iff_of_eq (congrArg (· = some u) (slot_setSlot Slot.owner howner j))).trans
      (hc.owner hx u j)
  · refine view_congr rfl ?_ rfl fun j _ => hino j
    simp [dropRef, hu]
  · ext j
    · rfl
    · simp [view, dropRef, View.give]
    · by_cases hji : j = i
      · subst hji
        simp only [view, dropRef, View.give, update_self, hino j]
        change (if s.pins t j = true ∨ 1 ≤ s.refs t j - 1 then _ else _) = _
        by_cases hp : s.pins t j = true
        · simp [hp]
        · by_cases hr : s.refs t j ≤ 1
          · simp [hp, hr]
          · have hmore : 1 ≤ s.refs t j - 1 := by omega
            simp [hmore, hr, h]
      · simp only [view, dropRef, View.give, update_self, update_of_ne hji, hino j]
        rfl
    · rfl

lemma Consistent.relock (hc : Consistent ρ s)
    (h : ρ.exclusive = true → ∀ u, o = some u ↔ if u = t then v = true else s.locked u i = true)
    (hs' : s' = setLocked { s with fs := s.fs.setSlot i { s.fs.slot i with owner := o } } t i v) :
    Consistent ρ s' ∧ (∀ u, u ≠ t → s'.view ρ u = s.view ρ u) ∧ s'.view ρ t = { s.view ρ t with
      locked := if ρ.exclusive then update (s.view ρ t).locked i v else (s.view ρ t).locked } := by
  subst hs'
  have hino := slot_setSlot (s := s.fs) (i := i) Slot.ino (e := { s.fs.slot i with owner := o }) rfl
  refine ⟨⟨hc.work, fun j => ?_, fun hx u j => ?_⟩, fun u hu => ?_, ?_⟩
  · exact (hc.count j).trans_eq (congrArg _ (slot_setSlot Slot.count (by rfl) j).symm)
  · by_cases hji : j = i
    · subst hji
      have hu := h hx u
      by_cases hut : u = t
      · subst hut
        simpa [setLocked] using hu
      · simpa [setLocked, hut] using hu
    · have hold := hc.owner hx u j
      by_cases hut : u = t
      · subst hut
        simpa [setLocked, hji] using hold
      · simpa [setLocked, hji, hut] using hold
  · refine view_congr rfl rfl ?_ fun j _ => hino j
    simp [setLocked, hu]
  · ext j
    · rfl
    · rfl
    · simp only [view, setLocked, hino]
      rfl
    · cases hx : ρ.exclusive with
      | false => simp [view, hx]
      | true =>
        by_cases hji : j = i
        · subst hji
          simp [view, setLocked, hx]
        · simp [view, setLocked, hx, hji]

lemma Consistent.op (hc : Consistent ρ s) {o : Op} {r : o.Res} {Q : o.Res → View → Prop}
    (hrule : rule ρ o (s.view ρ t) Q) (hrun : (execTraced t o).run s = .ok (r, s'))
    (hfine : Fine ρ s o) :
    Consistent ρ s' ∧ (∀ u, u ≠ t → s'.view ρ u = s.view ρ u) ∧ Q r (s'.view ρ t) := by
  obtain ⟨fs, hexec, rfl⟩ := execTraced_run hrun
  cases o with
  | bread n =>
    simp only [exec] at hexec
    split at hexec
    · cases hexec
    · cases hexec
      exact hc.keep (Q := Q _) _ (by simp) (hrule _ hfine)
  | bwrite n b | brelse n =>
    cases hexec
    exact hc.keep (Q := Q _) _ (by simp) hrule
  | getInode ino =>
    simp only [exec] at hexec
    split at hexec
    · cases hexec
      exact ⟨hc, fun _ _ => rfl, hrule.1⟩
    · rename_i i fs' hget
      cases hexec
      obtain ⟨hkeep, hview, hnum, htake⟩ := hc.take (t := t) hget
      exact ⟨hkeep, hview, htake.symm ▸ hrule.2 i hnum⟩
  | putInode i =>
    cases hexec
    obtain ⟨hkeep, hview, hgive⟩ := hc.give hrule.1
    exact ⟨hkeep, hview, hgive.symm ▸ hrule.2⟩
  | load i =>
    cases hexec
    exact ⟨hc, fun _ _ => rfl, hrule.2 _ (view_num hrule.1).symm (hc.held hrule.1)⟩
  | edit i f =>
    cases hexec
    obtain ⟨-, hf, hQ⟩ := hrule
    obtain ⟨-, hino, hcount, howner⟩ := hf (s.fs.slot i)
    exact hc.keep (Q := Q _) _
      (fun j => ⟨slot_setSlot Slot.ino hino j, slot_setSlot Slot.count hcount j,
      fun _ => slot_setSlot Slot.owner howner j⟩) hQ
  | fill i ino d =>
    cases hexec
    obtain ⟨hholds, hino, hQ⟩ := hrule
    rw [view_num hholds] at hino
    exact hc.keep (Q := Q _) _
      (fun j => ⟨slot_setSlot Slot.ino hino j, slot_setSlot Slot.count (by rfl) j,
      fun hx => slot_setSlot Slot.owner (hfine hx).symm j⟩) hQ
  | acquiresleep i =>
    simp only [exec] at hexec
    split at hexec
    · rename_i howner
      cases hexec
      have hfree : ρ.exclusive = true → ∀ u, s.locked u i = false := fun hx u => by
        by_contra hl
        rw [Bool.not_eq_false, ← hc.owner hx, howner] at hl
        cases hl
      obtain ⟨hkeep, hview, hself⟩ := hc.relock (t := t) (i := i) (v := true)
        (o := some t) (fun hx u => by
        by_cases hut : u = t
        · simp [hut]
        · simp [hut, Ne.symm hut, hfree hx]) rfl
      refine ⟨hkeep, hview, hself.symm ▸ hrule.2 fun hx => ?_⟩
      simp [view, hfree hx]
    · cases hexec
  | releasesleep i =>
    cases hexec
    obtain ⟨hlocked, hQ⟩ := hrule
    obtain ⟨hkeep, hview, hself⟩ := hc.relock (t := t) (i := i) (v := false)
      (o := none) (fun hx u => by
      have howner : (s.fs.slot i).owner = some t := by
        rw [hc.owner hx]
        simpa [view, hx] using hlocked hx
      by_cases hut : u = t
      · simp [hut]
      · have := hc.owner hx u i
        rw [howner] at this
        simpa [hut, Ne.symm hut] using this) rfl
    exact ⟨hkeep, hview, hself.symm ▸ hQ⟩
  | holdingsleep i =>
    cases hexec
    refine ⟨hc, fun _ _ => rfl, hrule _ fun hx => ?_⟩
    simp [view, hx, hc.owner hx]
  | touch n =>
    cases hexec
    exact ⟨hc, fun _ _ => rfl, hrule.2⟩
  | panic p => cases hexec

/-! ## Moves -/

/-- A call that returns an inode returns a reference to it. -/
def Returned (r : Option SlotId) (g : View) : Prop := ∀ i, r = some i → 1 ≤ g.refs i

/-- All processes follow the rules. -/
abbrev Sys.Obeyed (ρ : Rules) (c : Sys) : Prop := Config.Obeyed (rule ρ) Returned (Fits ρ) c

variable {c c' : Sys} {h : Nat} {m : Move}

lemma Fits.update (hf : Fits ρ s views) (hc : Consistent ρ s')
    (hv : ∀ u, u ≠ t → s'.view ρ u = s.view ρ u) : Fits ρ s' (update views t (s'.view ρ t)) := by
  refine ⟨fun u => ?_, hc⟩
  by_cases hut : u = t
  · subst hut
    exact update_self ..
  · rw [update_of_ne hut, hf.1 u, hv u hut]

lemma Sys.Obeyed.op (hc : c.Obeyed ρ) (hp : c.perform execTraced t = some c')
    (hfine : ∀ o, c.Next t o → Fine ρ c.state o) : c'.Obeyed ρ := by
  refine perform hc hp fun o r s' views Q ho hfits hrule hrun => ?_
  rw [hfits.1 t] at hrule
  obtain ⟨hkeep, hview, hQ⟩ := hfits.2.op hrule hrun (hfine o ho)
  exact ⟨_, hfits.update hkeep hview, hQ⟩

lemma Consistent.rework (hc : Consistent ρ s) (hw : ∀ h, w = some h → s.handle h ≠ none) :
    Consistent ρ { s with work := update s.work t w } ∧
      ∀ u, u ≠ t → view ρ { s with work := update s.work t w } u = s.view ρ u := by
  refine ⟨⟨fun u k hk => ?_, hc.count, hc.owner⟩, fun u hu => ?_⟩
  · change update s.work t w u = some k at hk
    by_cases hut : u = t
    · subst hut
      rw [update_self] at hk
      exact hw k hk
    · rw [update_of_ne hut] at hk
      exact hc.work u k hk
  · refine view_congr ?_ rfl rfl fun _ _ => rfl
    funext j
    simp only [pins, update_of_ne hu]

lemma Sys.Obeyed.call {call : Syscall} (hc : c.Obeyed ρ) (hi : c.state.handle h = some i)
    (hprog : ∀ g : View, g.Holds i → g.num i = (c.state.fs.slot i).ino →
      Prog.Obeys (rule ρ) (call.prog i) g Returned) :
    Sys.Obeyed ρ ⟨{ c.state with work := update c.state.work t (some h) },
      update c.prog t (some (call.prog i))⟩ := by
  refine replace hc fun views hfits _ => ?_
  obtain ⟨hkeep, hview⟩ := hfits.2.rework (t := t) (w := some h) (by simp [hi])
  refine ⟨_, hfits.update hkeep hview, ?_⟩
  have hpin : pins { c.state with work := update c.state.work t (some h) } t i = true :=
    pins_iff.mpr ⟨h, update_self .., hi⟩
  rintro y ⟨⟩
  exact hprog _ (.inl hpin) (view_num (.inl hpin))

/-- A reference to the inode goes from one place to another, and no process works on the handle that
changes. -/
lemma Consistent.move (hc : Consistent ρ s) (hne : ∀ u, s.work u ≠ some h)
    (hs' : s' = { s with refs := update s.refs t r, handle := update s.handle h o })
    (hx : x ∈ s.claims i) (hself : s'.claims i ⊆ insert y (s.claims i \ {x}))
    (hother : ∀ j ≠ i, s'.claims j ⊆ s.claims j) :
    Consistent ρ s' ∧ ∀ u, u ≠ t → s'.view ρ u = s.view ρ u := by
  subst hs'
  have hstay : ∀ u k, s.work u = some k → update s.handle h o k = s.handle k := by
    intro u k hk
    apply update_of_ne
    rintro rfl
    exact hne u hk
  refine ⟨⟨fun u k hk => ?_, fun j => ?_, hc.owner⟩, fun u hu => ?_⟩
  · exact (hstay u k hk).trans_ne (hc.work u k hk)
  · by_cases hji : j = i
    · subst hji
      exact encard_le_move (hc.count j) hx hself
    · exact (encard_le_encard (hother j hji)).trans (hc.count j)
  · refine view_congr ?_ (update_of_ne hu ..) rfl fun _ _ => rfl
    funext j
    cases hw : s.work u with
    | none => simp [pins, hw]
    | some k => simp [pins, hw, hstay u k hw]

lemma Consistent.open (hc : Consistent ρ s) (hh : s.handle h = none) (hr : 1 ≤ s.refs t i) :
    Consistent ρ { s.dropRef t i with handle := update s.handle h (some i) } ∧
      ∀ u, u ≠ t → view ρ
        { s.dropRef t i with handle := update s.handle h (some i) } u = s.view ρ u := by
  have hdrop := claims_dropRef (s := s) (t := t) (i := i) s.fs
  refine hc.move (x := .inl (t, s.refs t i - 1)) (y := .inr h) (fun u hu => hc.work u h hu hh) rfl
    (Nat.sub_lt_of_pos_le Nat.one_pos hr) ?_ fun j hji => ?_
  · rintro (p | k) hk
    · refine .inr ⟨hdrop i hk, fun hp => ?_⟩
      rw [mem_singleton_iff.mp hp] at hk
      exact not_mem_claims_dropRef s.fs hk
    · by_cases hkh : k = h
      · exact .inl (congrArg _ hkh)
      · exact .inr ⟨(update_of_ne hkh ..).symm.trans hk, by simp⟩
  · rintro (p | k) hk
    · exact hdrop j hk
    · change update s.handle h (some i) k = some j at hk
      by_cases hkh : k = h
      · rw [hkh, update_self] at hk
        exact absurd (some.inj hk).symm hji
      · rwa [update_of_ne hkh] at hk

lemma Sys.Obeyed.ret {r : Option SlotId} (hc : c.Obeyed ρ) (hp : c.prog t = some (.pure r))
    (hn : c.next (.ret t h) = some c') : c'.Obeyed ρ := by
  cases r with
  | none =>
    simp only [Sys.next, hp] at hn
    rw [← some.inj hn]
    refine replace hc fun views hfits _ => ?_
    obtain ⟨hkeep, hview⟩ := hfits.2.rework (t := t) (w := none) nofun
    exact ⟨_, hfits.update hkeep hview, by simp⟩
  | some i =>
    simp only [Sys.next, hp] at hn
    split at hn
    · rename_i hh
      rw [← some.inj hn]
      refine replace hc fun views hfits hobeys => ?_
      have hr : 1 ≤ c.state.refs t i := by
        have := hobeys _ hp i rfl
        rwa [hfits.1 t] at this
      obtain ⟨hkeep, hview⟩ := hfits.2.open hh hr
      obtain ⟨hkeep', hview'⟩ := hkeep.rework (t := t) (w := none) nofun
      exact ⟨_, hfits.update hkeep' fun u hu => (hview' u hu).trans (hview u hu), by simp⟩
    · cases hn

lemma Sys.Obeyed.close (hc : c.Obeyed ρ) (hi : c.state.handle h = some i)
    (hwork : ∀ u, c.state.work u ≠ some h) :
    Sys.Obeyed ρ ⟨{ c.state.addRef t i with handle := update c.state.handle h none },
      update c.prog t (some (do putInode i; pure none))⟩ := by
  refine replace hc fun views hfits _ => ?_
  have hadd := claims_addRef (s := c.state) (t := t) (i := i) c.state.fs
  have hhandle : ∀ {k j}, update c.state.handle h none k = some j → k ≠ h ∧
    c.state.handle k = some j := by
    intro k j hk
    by_cases hkh : k = h
    · rw [hkh, update_self] at hk
      cases hk
    · exact ⟨hkh, (update_of_ne hkh ..).symm.trans hk⟩
  have hself : Traced.claims { c.state.addRef t i with handle := update c.state.handle h none } i ⊆
      insert (.inl (t, c.state.refs t i)) (c.state.claims i \ {.inr h}) := by
    rintro (p | k) hk
    · have hold := hadd i (a := .inl p) hk
      rw [if_pos rfl] at hold
      exact hold.imp_right fun hold => ⟨hold, by simp⟩
    · exact .inr ⟨(hhandle hk).2, by simpa using (hhandle hk).1⟩
  obtain ⟨hkeep, hview⟩ := hfits.2.move hwork rfl hi hself fun j hji => by
    rintro (p | k) hk
    · have hold := hadd j (a := .inl p) hk
      rwa [if_neg hji] at hold
    · exact (hhandle hk).2
  refine ⟨_, hfits.update hkeep hview, ?_⟩
  rintro y ⟨⟩
  refine ⟨?_, fun j hj => ?_⟩
  · simp [view, addRef]
  · cases hj

/-- What is needed of a move besides that it can be made: the code of a call follows the rules, and
what the rules take for granted. -/
def Sys.Orderly (ρ : Rules) (c : Sys) : Move → Prop
  | .call _ h call => ∀ i, c.state.handle h = some i → ∀ g : View, g.Holds i →
      g.num i = (c.state.fs.slot i).ino → Prog.Obeys (rule ρ) (call.prog i) g Returned
  | .op t => ∀ o, c.Next t o → Fine ρ c.state o
  | _ => True

lemma Sys.Obeyed.step (hc : c.Obeyed ρ) (hm : c.Orderly ρ m) (hs : c.Step m c') : c'.Obeyed ρ := by
  obtain ⟨hallowed, hnext⟩ := hs
  cases m with
  | call t h call =>
    simp only [Sys.next] at hnext
    split at hnext
    · rename_i i hp hi
      rw [← some.inj hnext]
      exact hc.call hi (hm i hi)
    · cases hnext
  | op t => exact hc.op hnext hm
  | ret t h =>
    have hpure : ∃ r, c.prog t = some (.pure r) := by
      simp only [Sys.next] at hnext
      split at hnext
      · exact ⟨_, ‹_›⟩
      · exact ⟨_, ‹_›⟩
      · cases hnext
    exact hc.ret hpure.choose_spec hnext
  | close t h =>
    simp only [Sys.next] at hnext
    split at hnext
    · rename_i i hp hi
      rw [← some.inj hnext]
      exact hc.close hi hallowed
    · cases hnext

lemma Sys.Init.obeyed (h : c.Init) : c.Obeyed ρ := by
  refine ⟨fun t => c.state.view ρ t, ⟨fun _ => rfl, ?_, fun i => ?_, fun _ t i => ?_⟩,
    fun t x hx => ?_⟩
  · intro t k hk
    rw [h.work] at hk
    cases hk
  · have hsub : c.state.claims i ⊆ Sum.inr '' {k | c.state.handle k = some i} := by
      rintro (⟨t, k⟩ | k) hk
      · change k < c.state.refs t i at hk
        rw [h.refs] at hk
        omega
      · exact ⟨k, hk, rfl⟩
    exact (encard_le_encard hsub).trans ((encard_image_le _ _).trans (h.count i))
  · simp [h.owner, h.locked]
  · rw [h.idle] at hx
    cases hx

/-! ## Calls -/

lemma obeys_none {α : Type} {g : View} {x : FsProg α} (hx : Prog.Neutral (rule ρ) x g) :
    Prog.Obeys (rule ρ) (do let _ ← x; pure none) g Returned :=
  hx.obeys_bind fun _ _ hi => nomatch hi

lemma obeys_call (hρ : ρ.Lenient) {g : View} (h : g.Holds i) (ht : ρ.touches (tableBlock (g.num i)))
    (hread : ∀ buf ino, ρ.reads inoblkBmip buf → firstFreeInode buf = some ino →
      ρ.touches (tableBlock ino)) (call : Syscall)
    (hunlink : ∀ name, call = .unlink name → ∀ n, ρ.touches n) :
    Prog.Obeys (rule ρ) (call.prog i) g Returned := by
  cases call with
  | lookup name =>
    refine Prog.obeys_bind.mpr (obeys_lookup hρ name h (fun _ hi => nomatch hi) ?_)
    intro j off ino hj k hk
    rw [← some.inj hk, View.take_refs_self]
    exact Nat.le_add_left 1 _
  | read off size => exact obeys_none (neutral_vfsRead hρ h off size)
  | write off data => exact obeys_none (neutral_vfsWrite hρ h ht off data)
  | truncate size => exact obeys_none (neutral_vfsTruncate hρ h ht size)
  | readdir off => exact obeys_none (neutral_readdir hρ h off)
  | create name mode => exact obeys_none (neutral_create hρ h ht hread name mode)
  | mkdir name mode => exact obeys_none (neutral_mkdir hρ h ht hread name mode)
  | unlink name => exact obeys_none (neutral_unlink hρ h (hunlink name rfl) name)

/-- A run with its moves given; `ok` is tested before each of them. -/
def Sys.play (ok : Sys → Bool) : Sys → List Move → Option Sys :=
  Run.play fun c m => if ok c then c.next m else none

lemma Sys.run_of_play {ok p : Sys → Bool} (h : (Sys.play ok c ms).any p = true)
    (hms : ∀ m ∈ ms, ∀ t k, m ≠ .close t k) :
    ∃ c', Run (fun c m c' => c.Step m c' ∧ ok c = true) c ms c' ∧ p c' = true := by
  obtain ⟨c', hrun, hp⟩ := Run.of_play h
  refine ⟨c', (hrun.restrict fun m hm _ => hms m hm).mono fun c m c' hstep => ?_, hp⟩
  obtain ⟨hclose, hnext⟩ := hstep
  split at hnext
  · refine ⟨⟨?_, hnext⟩, by assumption⟩
    cases m with
    | close t k => exact absurd rfl (hclose t k)
    | _ => exact trivial
  · cases hnext

end FrostVista.EasyFs
