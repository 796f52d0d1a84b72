import FrostVista.EasyFs.DirRuns
import FrostVista.Kernel.Path
import Mathlib.Data.List.Find

/-!
# EasyFS: names

Names are compared by their first 24 bytes, and of a new name the first 24 bytes are stored. The
tools and calls that add names have limits of their own: `mkfs` takes names of up to 27 bytes,
`openat` of up to 23, and `mkdirat` of any length that a path can have.
-/
namespace FrostVista.EasyFs

open Lib Lib.Comp Kernel List Option Nat Volume Mounted DirCall

open Namei (Name sameName dirsiz)

/-- The part of a name that is compared. -/
def key (name : Name) : Name := name.take dirsiz

variable {x y : Name} {d : Nat} {names : List Name} {s : Fs}

lemma sameName_iff_key : sameName x y = true ↔ key x = key y := beq_iff_eq

lemma key_of_short (h : x.length < dirsiz) : key x = x := take_of_length_le h.le

@[simp] lemma key_key (x : Name) : key (key x) = key x := by simp [key]

lemma eq_of_key (h : x.length < dirsiz) (heq : key y = key x) : y = x := by
  rw [key_of_short h] at heq
  have hlen := congrArg length heq
  rw [key, length_take] at hlen
  rw [← heq, key, take_of_length_le (by omega)]

/-! ## Finding names -/

namespace Volume

variable {v v' : Volume} {d k n : Nat} {x y : Name}

/-- The entry `k` is one for the name. -/
def Matches (v : Volume) (d : Nat) (y : Name) (k : Nat) : Prop :=
  v.inoAt d k ≠ 0 ∧ key y = key (v.nameAt d k)

/-- The number of the inode that is found under a name. -/
def look (v : Volume) (d : Nat) (y : Name) : Option Nat := (v.find d y).map (v.inoAt d)

lemma find_eq_find? : v.find d y =
    (range (v.slots d)).find? fun k => v.inoAt d k ≠ 0 ∧ sameName y (v.nameAt d k) := by
  simp only [find, scan, zero_add]
  rfl

lemma decide_matches : decide (v.inoAt d k ≠ 0 ∧ sameName y (v.nameAt d k) = true) = true ↔
    v.Matches d y k := by
  rw [decide_eq_true_eq, sameName_iff_key, Matches]

lemma find_ne_none : v.find d y ≠ none ↔ ∃ k < v.slots d, v.Matches d y k := by
  rw [Ne, find_eq_none]
  push Not
  simp only [Bool.not_eq_false, sameName_iff_key, Matches, ne_eq]

lemma look_ne_none : v.look d y ≠ none ↔ ∃ k < v.slots d, v.Matches d y k := by
  rw [← find_ne_none, look, Ne, map_eq_none_iff]

lemma look_congr (hslots : v.slots d ≤ v'.slots d)
    (hold : ∀ k < v.slots d, v'.Matches d y k ↔ v.Matches d y k)
    (hino : ∀ k < v.slots d, v.Matches d y k → v'.inoAt d k = v.inoAt d k)
    (hnew : ∀ k, v.slots d ≤ k → k < v'.slots d → ¬v'.Matches d y k) :
    v'.look d y = v.look d y := by
  have hfind : v'.find d y = v.find d y := by
    obtain ⟨more, hmore⟩ := Nat.exists_eq_add_of_le hslots
    have hsame : (range (v.slots d)).find? (fun k => v'.inoAt d k ≠ 0 ∧
      sameName y (v'.nameAt d k)) =
        (range (v.slots d)).find? fun k => v.inoAt d k ≠ 0 ∧ sameName y (v.nameAt d k) := by
      refine find?_congr fun k hk => ?_
      rw [Bool.eq_iff_iff, decide_matches, decide_matches]
      exact hold k (mem_range.mp hk)
    have hrest : ((range more).map (v.slots d + ·)).find?
        (fun k => v'.inoAt d k ≠ 0 ∧ sameName y (v'.nameAt d k)) = none := by
      refine find?_eq_none.mpr fun k hk hmatch => ?_
      obtain ⟨j, hj, rfl⟩ := mem_map.mp hk
      rw [mem_range] at hj
      exact hnew _ (Nat.le_add_right ..) (by omega) (decide_matches.mp hmatch)
    rw [find_eq_find?, find_eq_find?, hmore, range_add, find?_append, hsame, hrest, or_none]
  rw [look, look, hfind]
  cases hk : v.find d y with
  | none => rfl
  | some k =>
    obtain ⟨hlt, hpos, hsame⟩ := find_eq_some hk
    exact congrArg some (hino k hlt ⟨hpos, sameName_iff_key.mp hsame⟩)

lemma SameDir.matches_iff (h : SameDir v v' d) : v'.Matches d y k ↔ v.Matches d y k := by
  rw [Matches, Matches, h.inoAt, h.nameAt]

lemma SameDir.look (h : SameDir v v' d) : v'.look d y = v.look d y :=
  look_congr h.slots.ge (fun _ _ => h.matches_iff) (fun k _ _ => h.inoAt k)
    fun _ hge hlt => absurd (h.slots ▸ hlt) (not_lt.mpr hge)

lemma Tidy.nameAt_link (hx : 0 ∉ x) : (v.link d x n).nameAt d (v.hole d) = key x := by
  rw [nameAt, entry_link_hole, entryName_makeEntry hx]
  rfl

lemma Tidy.look_link (h : v.Tidy d) (hn : n < tableSize) (hx : 0 ∉ x) (hkey : key y ≠ key x) :
    (v.link d x n).look d y = v.look d y := by
  obtain ⟨hino, hold, hlt⟩ := h.entries_link x hn
  have hhole : ¬(v.link d x n).Matches d y (v.hole d) := fun hmatch => by
    rw [Matches, nameAt_link hx, key_key] at hmatch
    exact hkey hmatch.2
  have hslots : (v.link d x n).slots d = max (v.slots d) (v.hole d + 1) := slots_link h.whole
  refine look_congr (by omega) (fun k hk => ?_) (fun k hk hmatch => ?_) fun k hge hk hmatch => ?_
  · by_cases hkh : k = v.hole d
    · rw [hkh] at hk ⊢
      exact iff_of_false hhole fun hmatch => hmatch.1 (inoAt_hole hk)
    · rw [Matches, Matches, (hold k hkh).1, (hold k hkh).2]
  · by_cases hkh : k = v.hole d
    · rw [hkh] at hk hmatch
      exact absurd (inoAt_hole hk) hmatch.1
    · exact (hold k hkh).1
  · by_cases hkh : k = v.hole d
    · exact hhole (hkh ▸ hmatch)
    · exact absurd (hlt k hk hkh) (not_lt.mpr hge)

lemma Tidy.look_link_ne_none (h : v.Tidy d) (hpos : n ≠ 0) (hn : n < tableSize) (hx : 0 ∉ x)
    (hkey : key y = key x) : (v.link d x n).look d y ≠ none := by
  have hslots : (v.link d x n).slots d = max (v.slots d) (v.hole d + 1) := slots_link h.whole
  refine look_ne_none.mpr ⟨v.hole d, by omega, ?_, ?_⟩
  · rw [(h.entries_link x hn).1]
    exact hpos
  · rw [nameAt_link hx, key_key, hkey]

lemma Tidy.look_link_self (h : v.Tidy d) (hpos : n ≠ 0) (hn : n < tableSize) (hx : 0 ∉ x)
    (hnone : v.find d x = none) : (v.link d x n).look d x = some n := by
  obtain ⟨hino, hold, hlt⟩ := h.entries_link x hn
  cases hk : (v.link d x n).find d x with
  | none => exact absurd (by rw [look, hk]; rfl) (h.look_link_ne_none hpos hn hx rfl)
  | some k =>
    obtain ⟨hlt', hne, hsame⟩ := find_eq_some hk
    rw [look, hk, map_some]
    by_cases hkh : k = v.hole d
    · rw [hkh, hino]
    · rw [(hold k hkh).1] at hne
      rw [(hold k hkh).2] at hsame
      rw [find_eq_none.mp hnone k (hlt k hlt' hkh) hne] at hsame
      cases hsame

lemma Orderly.look_unlink (h : v.Orderly d) (hk : v.find d x = some k)
    (htype : (v.info (v.inoAt d k)).type ≠ vfsDir) (hkey : key y ≠ key x) :
    (v.unlinkAt d k).look d y = v.look d y := by
  obtain ⟨hlt, hpos, hsame⟩ := find_eq_some hk
  obtain ⟨hslots, hzero, hentry, -⟩ := h.unlinked hlt hpos htype
  generalize v.unlinkAt d k = u at hslots hzero hentry ⊢
  have hold : ∀ j, j ≠ k → u.inoAt d j = v.inoAt d j ∧ u.nameAt d j = v.nameAt d j := fun j hj => by
    simp only [inoAt, nameAt, hentry j hj, and_self]
  have hother : ∀ j, v.Matches d y j → j ≠ k := by
    rintro j hmatch rfl
    exact hkey (hmatch.2.trans (sameName_iff_key.mp hsame).symm)
  refine look_congr hslots.ge (fun j hj => ?_) (fun j hj hmatch => (hold j (hother j hmatch)).1)
    fun j hge hj => ?_
  · by_cases hjk : j = k
    · refine iff_of_false (fun hmatch => hmatch.1 (hjk ▸ hzero)) fun hmatch => hother j hmatch hjk
    · rw [Matches, Matches, (hold j hjk).1, (hold j hjk).2]
  · exact absurd (hslots ▸ hj) (not_lt.mpr hge)

/-- Every entry of the directory was added under a name with its key. -/
def Named (v : Volume) (d : Nat) (names : List Name) : Prop :=
  ∀ k < v.slots d, v.inoAt d k ≠ 0 → ∃ x ∈ names, key x = key (v.nameAt d k)

end Volume

/-! ## What the calls do -/

def DirCall.name : DirCall → Name
  | .create name => name
  | .mkdir name => name
  | .unlink name => name

/-- The name that the call adds. -/
def DirCall.newName : DirCall → Option Name
  | .create name => some name
  | .mkdir name => some name
  | .unlink _ => none

/-- The names that `openat`, `mkdirat` and `unlinkat` hand on. -/
def DirCall.Accepted : DirCall → Prop
  | .create name => name ≠ [] ∧ name.length < dirsiz ∧ 0 ∉ name  -- vfs_leaf_name_valid
  | .mkdir name => name ≠ [] ∧ name.length < pathMax ∧ 0 ∉ name
  | .unlink name => name ≠ [] ∧ name.length < pathMax ∧ 0 ∉ name

/-- A new inode gets a number that is in the table. -/
def Numbered (s : Fs) (c : DirCall) : Prop :=
  c.newName ≠ none → ∀ n, s.volume.firstFree = some n → n < tableSize

/-- What a call that returned did to the directory. -/
inductive Turned (v : Volume) (d : Nat) : DirCall → Bool → Volume → Prop
  | same {c : DirCall} {v' : Volume} (h : v.SameDir v' d) : Turned v d c false v'
  | added {c : DirCall} {name : Name} {n : Nat} {u v' : Volume} (hname : c.newName = some name)
      (hu : v.SameDir u d) (hn : u.Fresh d n) (hv : (u.link d name n).SameDir v' d) :
        Turned v d c true v'
  | removed {name : Name} {k : Nat} {v' : Volume} (hk : v.find d name = some k)
      (htype : (v.info (v.inoAt d k)).type ≠ vfsDir) (hv : (v.unlinkAt d k).SameDir v' d) :
      Turned v d (.unlink name) true v'

section Calls

variable {d : Nat} {s s' : Fs} {dir : SlotId} {t : Tid} {name : Name} {r : Bool}

lemma Serves.unchanged (h : Serves dir d s) (hkept : s.cache.Kept s'.cache)
    (hs : Spells s' v') (hsame : s.volume.SameDir v' d) : Serves dir d s' ∧
      Turned s.volume d c false s'.volume := by
  obtain ⟨h', hnext⟩ := h.next hkept hs hsame.tidy
  exact ⟨h', .same (hsame.trans hnext)⟩

section
variable (h : Serves dir d s) (ho : s.volume.Orderly d) (hname : name ≠ [])
include h ho hname

lemma Serves.create_turned (hnum : ∀ n, s.volume.firstFree = some n → n < tableSize)
    (hrun : (runAs t (EasyFs.create dir name vfsFile)).run s = .ok (r, s')) :
    Serves dir d s' ∧ Turned s.volume d (.create name) r s'.volume := by
  obtain ⟨E, hs⟩ := h.sound
  have hself : ∀ k, s.volume.find d name = some k → s.volume.inoAt d k ≠ d := by
    intro k hk hd
    rw [hs.run_create_self h.has ho.tidy h.idle hname hk hd] at hrun
    cases hrun
  obtain ⟨hkept, hcase⟩ :=
    (hs.create (t := t) h.has ho.tidy h.idle hname hself (fun _ => hnum) vfsFile).of_run hrun
  cases hcase with
  | found _ _ hs' | noNumber _ _ _ hs' =>
    exact h.unchanged hkept hs' (.refl ho.tidy)
  | noSlot _ _ hroom => exact absurd (h.room _) hroom
  | noBlocks _ hn _ _ hs' =>
    obtain ⟨hpos, hmark⟩ := firstFree_eq_some hn
    exact h.unchanged hkept hs' (ho.tidy.same_newInode _ _ hpos hmark)
  | done _ hn _ _ hs' =>
    obtain ⟨hpos, hmark⟩ := firstFree_eq_some hn
    have hnew := ho.tidy.same_newInode vfsFile 1 hpos hmark
    have hfresh := ho.tidy.fresh_newInode vfsFile hpos (hnum _ hn) hmark (by decide)
    obtain ⟨h', hsame⟩ := h.next hkept hs' (hnew.tidy.link hfresh.lt hfresh.mark hfresh.type)
    exact ⟨h', .added rfl hnew hfresh hsame⟩

section
variable (hnum : ∀ n, s.volume.firstFree = some n → n < tableSize)
  (hrun : (runAs t (EasyFs.mkdir dir name 0)).run s = .ok (r, s'))
include hnum hrun

lemma Serves.mkdir_cases : s.cache.Kept s'.cache ∧ MadeDir s s.volume d name r s' := by
  obtain ⟨E, hs⟩ := h.sound
  refine (hs.mkdir (t := t) h.has ho.tidy h.idle hname (fun k hk hd => ?_) fun _ =>
    hnum).of_run hrun
  rw [hs.run_mkdir_self h.has ho.tidy h.idle hname hk hd] at hrun
  cases hrun

lemma Serves.mkdir_turned : Serves dir d s' ∧ Turned s.volume d (.mkdir name) r s'.volume := by
  obtain ⟨hkept, hcase⟩ := h.mkdir_cases ho hname hnum hrun
  cases hcase with
  | found _ _ hs' | noNumber _ _ _ hs' =>
    exact h.unchanged hkept hs' (.refl ho.tidy)
  | noSlot _ _ hroom => exact absurd (h.room _) hroom
  | noBlock _ hn _ _ hs' =>
    obtain ⟨hpos, hmark⟩ := firstFree_eq_some hn
    exact h.unchanged hkept hs' (ho.tidy.same_newInode _ _ hpos hmark)
  | noEntry _ hn _ _ hs' =>
    obtain ⟨hpos, hmark⟩ := firstFree_eq_some hn
    have hnew := ho.tidy.same_newDir hpos hmark
    exact h.unchanged hkept hs' (hnew.trans (hnew.tidy.same_setLinks _ 0))
  | @done _ n _ hn _ _ hs' =>
    obtain ⟨hpos, hmark⟩ := firstFree_eq_some hn
    have hnew := ho.tidy.same_newDir hpos hmark
    have hfresh := ho.tidy.fresh_newDir hpos (hnum _ hn) hmark
    have htidy : ((s.volume.newDir d n).link d name n).Tidy d :=
      hnew.tidy.link hfresh.lt hfresh.mark hfresh.type
    have hlinks := htidy.same_setLinks d (((s.volume.info d).nlinks + 1) % 2 ^ 16)
    obtain ⟨h', hsame⟩ := h.next hkept hs' hlinks.tidy
    exact ⟨h', .added rfl hnew hfresh (hlinks.trans hsame)⟩

end

lemma Serves.unlink_turned (hrun : (runAs t (EasyFs.unlink dir name)).run s = .ok (r, s')) :
    Serves dir d s' ∧ Turned s.volume d (.unlink name) r s'.volume := by
  obtain ⟨E, hs⟩ := h.sound
  have hself : ∀ k, s.volume.find d name = some k → s.volume.inoAt d k = d →
      sameName name dot ∨ sameName name dotdot := by
    intro k hk hd
    obtain ⟨hlt, hpos, hsame⟩ := find_eq_some hk
    rcases ho.self k hlt hpos hd with heq | heq
    · exact .inl (heq ▸ hsame)
    · exact .inr (heq ▸ hsame)
  obtain ⟨hkept, hcase⟩ := (hs.unlink (t := t) h.has ho.tidy h.idle hname hself).of_run hrun
  cases hcase with
  | reserved _ _ hs' | missing _ _ hs' | directory _ _ _ _ hs' =>
    exact h.unchanged hkept hs' (.refl ho.tidy)
  | done _ hk _ htype hs' =>
    obtain ⟨hlt, hpos, -⟩ := find_eq_some hk
    obtain ⟨h', hsame⟩ := h.next hkept hs' (ho.unlink hlt hpos htype).tidy
    exact ⟨h', .removed hk htype hsame⟩

end

end Calls

/-! ## Runs of calls -/

/-- A call that is handed on to the directory and returns. -/
structure NameStep (t : Tid) (dir : SlotId) (s : Fs) (c : DirCall × Bool) (s' : Fs) : Prop where
  accepted : c.1.Accepted
  numbered : Numbered s c.1
  run : (runAs t (c.1.perform dir)).run s = .ok (c.2, s')

/-- The name that a call has added. -/
def made : DirCall × Bool → Option Name
  | (c, true) => c.newName
  | (_, false) => none

def madeNames (calls : List (DirCall × Bool)) : List Name := calls.filterMap made

/-- The number of the inode that `easyfs_vfs_lookup` returns. -/
def look (t : Tid) (dir : SlotId) (s : Fs) (name : Name) : Option Nat :=
  match (runAs t (lookup dir name)).run s with
  | .ok (some (i, _), s') => some (s'.slot i).ino
  | _ => none

/-- Only names that were added are found. -/
def Exact (t : Tid) (dir : SlotId) (names : List Name) (s : Fs) : Prop :=
  ∀ y, 0 ∉ y → look t dir s y ≠ none → y ∈ names

/-- The directory is in order, and its entries were added under the given names. -/
structure Tracks (dir : SlotId) (d : Nat) (names : List Name) (s : Fs) :
    Prop extends Serves dir d s where
  orderly : s.volume.Orderly d
  named : s.volume.Named d names

section Runs

variable {d : Nat} {s s' : Fs} {dir : SlotId} {t : Tid} {names : List Name}
  {c : DirCall × Bool} {y : Name}
  {v v' : Volume}

lemma Serves.look_eq (h : Serves dir d s) (hd : s.volume.Tidy d) (y : Name) :
    look t dir s y = s.volume.look d y := by
  obtain ⟨E, hs⟩ := h.sound
  obtain ⟨r, s', hrun, -, ⟨hm, rfl, rfl⟩ | ⟨k, i, hk, -, rfl, -, hcache, E', h'⟩⟩ :=
    hs.lookup (t := t) h.has hd y
  · rw [look, hrun, Volume.look, (h.missing_iff y).mp hm]
    rfl
  · have hi : s'.cache.Has i (s.volume.inoAt d k) := hcache ▸ Cache.has_take.own
    rw [look, hrun, Volume.look, hk]
    exact congrArg some hi.ino

lemma DirCall.Accepted.nul (h : c.1.Accepted) : 0 ∉ c.1.name := by
  obtain ⟨c, r⟩ := c
  cases c with
  | create name | mkdir name | unlink name => exact h.2.2

variable {x name : Name} {calls : List (DirCall × Bool)} {n : Nat}

lemma DirCall.name_of_newName {c : DirCall} (h : c.newName = some x) : c.name = x := by
  cases c with
  | create name | mkdir name => exact some.inj h
  | unlink name => cases h

lemma Serves.turned (h : Serves dir d s) (ho : s.volume.Orderly d) (hs : NameStep t dir s c s') :
    Serves dir d s' ∧ Turned s.volume d c.1 c.2 s'.volume := by
  obtain ⟨c, r⟩ := c
  cases c with
  | create name => exact h.create_turned ho hs.accepted.1 (hs.numbered (some_ne_none _)) hs.run
  | mkdir name => exact h.mkdir_turned ho hs.accepted.1 (hs.numbered (some_ne_none _)) hs.run
  | unlink name => exact h.unlink_turned ho hs.accepted.1 hs.run

lemma Turned.orderly {c : DirCall} {r : Bool} (h : Turned v d c r v') (ho : v.Orderly d) :
    v'.Orderly d := by
  cases h with
  | same hv => exact ho.same hv
  | added _ hu hn hv => exact ((ho.same hu).link hn).same hv
  | removed hk htype hv =>
    obtain ⟨hlt, hpos, -⟩ := find_eq_some hk
    exact (ho.unlink hlt hpos htype).same hv

lemma Volume.Named.same (h : v.Named d names) (hs : v.SameDir v' d) : v'.Named d names := by
  intro k hk hpos
  rw [hs.slots] at hk
  rw [hs.inoAt] at hpos
  rw [hs.nameAt]
  exact h k hk hpos

lemma Volume.Named.mono (h : v.Named d names) (hsub : names ⊆ names') : v.Named d names' := by
  intro k hk hpos
  obtain ⟨x, hx, hkey⟩ := h k hk hpos
  exact ⟨x, hsub hx, hkey⟩

lemma Turned.named (h : Turned v d c.1 c.2 v') (ho : v.Orderly d) (hn : v.Named d names)
    (hnul : 0 ∉ c.1.name) :
    v'.Named d (names ++ madeNames [c]) := by
  obtain ⟨c, r⟩ := c
  cases h with
  | same hv => exact (hn.same hv).mono (subset_append_left ..)
  | @added _ x n u _ hname hu hfresh hv =>
    have hmade : madeNames [(c, true)] = [x] := by simp [madeNames, made, hname]
    have hx : c.name = x := name_of_newName hname
    rw [hmade]
    refine Named.same (fun k hk hpos => ?_) hv
    obtain ⟨-, hold, hlt⟩ := hu.tidy.entries_link x hfresh.lt
    by_cases hkh : k = u.hole d
    · refine ⟨x, mem_append_right _ (.head _), ?_⟩
      rw [hkh, Tidy.nameAt_link (hx ▸ hnul), key_key]
    · rw [(hold k hkh).1] at hpos
      rw [(hold k hkh).2]
      exact ((hn.same hu).mono (subset_append_left ..)) k (hlt k hk hkh) hpos
  | removed hk htype hv =>
    obtain ⟨hlt, hpos, -⟩ := find_eq_some hk
    refine (Named.same (fun j hj hp => ?_) hv).mono (subset_append_left ..)
    obtain ⟨-, hino, hname⟩ := ho.live_unlinked hlt hpos htype hp
    rw [(ho.unlinked hlt hpos htype).1] at hj
    rw [hino] at hp
    rw [hname]
    exact hn j hj hp

lemma Tracks.step (h : Tracks dir d names s) (hs : NameStep t dir s c s') :
    Tracks dir d (names ++ madeNames [c]) s' ∧ Turned s.volume d c.1 c.2 s'.volume := by
  obtain ⟨h', hturn⟩ := h.toServes.turned h.orderly hs
  exact ⟨⟨h', hturn.orderly h.orderly, hturn.named h.orderly h.named hs.accepted.nul⟩, hturn⟩

lemma madeNames_append (l l' : List (DirCall × Bool)) :
    madeNames (l ++ l') = madeNames l ++ madeNames l' :=
  filterMap_append ..

lemma Tracks.run (h : Tracks dir d names s)
    (hrun : Run (NameStep t dir) s calls s') : Tracks dir d (names ++ madeNames calls) s' := by
  induction hrun generalizing names with
  | nil s => simpa [madeNames] using h
  | @cons _ _ _ a acts hstep _ ih =>
    have hnext := ih (h.step hstep).1
    rwa [append_assoc, ← madeNames_append, singleton_append] at hnext

lemma Tracks.exact (h : Tracks dir d names s) (hshort : ∀ x ∈ names, x.length < dirsiz) :
    Exact t dir names s := by
  intro y _ hlook
  rw [h.toServes.look_eq h.orderly.tidy, look_ne_none] at hlook
  obtain ⟨k, hk, hpos, hkey⟩ := hlook
  obtain ⟨x, hx, hxkey⟩ := h.named k hk hpos
  rwa [eq_of_key (hshort x hx) (hkey.trans hxkey.symm)]

lemma Tracks.look_step (h : Tracks dir d names s) (hs : NameStep t dir s c s')
    (hshort : ∀ x ∈ names ++ madeNames [c], x.length < dirsiz) (hy : y ≠ c.1.name) :
    look t dir s' y = look t dir s y := by
  obtain ⟨h', hturn⟩ := h.step hs
  rw [h'.toServes.look_eq h'.orderly.tidy, h.toServes.look_eq h.orderly.tidy]
  have hnul := hs.accepted.nul
  obtain ⟨c, r⟩ := c
  cases hturn with
  | same hv => exact hv.look
  | @added _ x n u _ hname hu hfresh hv =>
    have hx : c.name = x := name_of_newName hname
    have hlen : x.length < dirsiz :=
      hshort x (mem_append_right _ (by simp [madeNames, made, hname]))
    rw [hv.look, hu.tidy.look_link hfresh.lt (hx ▸ hnul), hu.look]
    exact fun hkey => hy ((eq_of_key hlen hkey).trans hx.symm)
  | @removed x k _ hk htype hv =>
    obtain ⟨hlt, hpos, hsame⟩ := find_eq_some hk
    obtain ⟨z, hz, hzkey⟩ := h.named k hlt hpos
    have hxz : x = z := eq_of_key (hshort z (mem_append_left _ hz))
      ((sameName_iff_key.mp hsame).trans hzkey.symm)
    rw [hv.look]
    refine h.orderly.look_unlink hk htype fun hkey => hy ?_
    exact eq_of_key (hxz ▸ hshort z (mem_append_left _ hz)) hkey

lemma exists_other_key (hnul : 0 ∉ x) (hlong : dirsiz ≤ x.length) (names : List Name) :
    ∃ y, 0 ∉ y ∧ key y = key x ∧ y ∉ names := by
  have hlen : (key x).length = dirsiz := by rw [key, length_take, min_eq_left hlong]
  refine ⟨key x ++ replicate ((names.map length).sum + 1) 0x61#8, ?_, ?_, fun hmem => ?_⟩
  · rw [mem_append, not_or]
    exact ⟨fun hmem => hnul (mem_of_mem_take hmem), fun hmem =>
      absurd (eq_of_mem_replicate hmem) (by decide)⟩
  · rw [key, take_append_of_le_length hlen.ge, ← key, key_key]
  · have hle := single_le_sum (fun _ _ => zero_le _) _ (mem_map_of_mem (f := length) hmem)
    rw [length_append, length_replicate] at hle
    omega

lemma Tracks.not_exact (h : Tracks dir d names s) (hnul : 0 ∉ x) (hlong : dirsiz ≤ x.length)
    (hx : ∀ y, key y = key x → s.volume.look d y ≠ none) (hexact : Exact t dir names s) :
    False := by
  obtain ⟨y, hynul, hkey, hy⟩ := exists_other_key hnul hlong names
  refine hy (hexact y hynul ?_)
  rw [h.toServes.look_eq h.orderly.tidy]
  exact hx y hkey

lemma look_of_key (hkey : key y = key x) (hx : v.look d x ≠ none) : v.look d y ≠ none := by
  obtain ⟨k, hk, hpos, hxkey⟩ := look_ne_none.mp hx
  exact look_ne_none.mpr ⟨k, hk, hpos, hkey.trans hxkey⟩

lemma Turned.look_made (h : Turned v d c.1 c.2 v') (hmade : made c = some x) (hnul : 0 ∉ c.1.name)
    (hkey : key y = key x) : v'.look d y ≠ none := by
  obtain ⟨c, r⟩ := c
  cases h with
  | same hv => cases hmade
  | @added _ x' n u _ hname hu hfresh hv =>
    obtain rfl : x' = x := some.inj (hname.symm.trans hmade)
    rw [hv.look]
    exact hu.tidy.look_link_ne_none hfresh.pos hfresh.lt (name_of_newName hname ▸ hnul) hkey
  | removed hk htype hv => cases hmade

/-- If looking up is exact in every state of a run, all names that were added are short. -/
lemma Tracks.short (h : Tracks dir d init s)
    (hinit : ∀ x ∈ init, 0 ∉ x ∧ s.volume.look d x ≠ none) (hrun : Run (NameStep t dir) s calls s')
    (hexact : ∀ before after mid, calls = before ++ after → Run (NameStep t dir) s before mid →
      Exact t dir (init ++ madeNames before) mid) : ∀ x ∈ init ++ madeNames calls,
        x.length < dirsiz := by
  intro x hx
  by_contra hlong
  rw [not_lt] at hlong
  rcases mem_append.mp hx with hx | hx
  · -- a name from the start
    have hstart := hexact [] calls s rfl (.nil s)
    rw [madeNames, filterMap_nil, append_nil] at hstart
    exact h.not_exact (hinit x hx).1 hlong (fun y hkey => look_of_key hkey (hinit x hx).2) hstart
  · -- a name that a call has added
    obtain ⟨c, hc, hmade⟩ := mem_filterMap.mp hx
    obtain ⟨before, after, heq⟩ := append_of_mem hc
    rw [heq] at hrun
    obtain ⟨mid, hbefore, hrest⟩ := hrun.split
    cases hrest with
    | @cons _ mid' _ _ _ hstep hafter =>
      have htracks := h.run hbefore
      obtain ⟨htracks', hturn⟩ := htracks.step hstep
      have hnul := hstep.accepted.nul
      have hexact' := hexact (before ++ [c]) after mid' (by simp [heq])
        (hbefore.append (.cons hstep (.nil _)))
      rw [madeNames_append, ← append_assoc] at hexact'
      have hxnul : 0 ∉ x := by
        obtain ⟨c, r⟩ := c
        cases r with
        | false => cases hmade
        | true => exact name_of_newName hmade ▸ hnul
      exact htracks'.not_exact hxnul hlong (fun y hkey => hturn.look_made hmade hnul hkey) hexact'

/-! ## Where directories come from -/

lemma Volume.Tidy.newDir_orderly (h : v.Tidy d) (hd : d ≠ 0 ∧ d < tableSize) (hpos : n ≠ 0)
    (hlt : n < tableSize) (hn : v.marked n = false) :
    (v.newDir d n).Orderly n ∧ (v.newDir d n).Named n [dot, dotdot] ∧
      ∀ x ∈ [dot, dotdot], (v.newDir d n).look n x ≠ none := by
  have hdn := h.ne_of_free hn
  obtain ⟨hslots, hino, hname, hhole⟩ := entries_dot v 1 hpos hlt
  have htype : ((v.newInode n vfsDir 1).info n).type = vfsDir :=
    congrArg Info.type (put_info_self ..)
  have htidy : ((v.newInode n vfsDir 1).link n dot n).Tidy n :=
    tidy_newInode.link hlt (mark_marked_self ..) (by rw [htype]; decide)
  have hinfo : ((v.newInode n vfsDir 1).info d).type = vfsDir :=
    (congrArg Info.type (put_info_of_ne _ _ _ hdn)).trans h.isDir.2
  have hmark : ((v.newInode n vfsDir 1).link n dot n).marked d = true := by
    rw [marked_link]
    exact marked_newInode d h.isDir.1
  have hdtype : (((v.newInode n vfsDir 1).link n dot n).info d).type < 2 ^ 8 := by
    rw [type_link, hinfo]
    decide
  unfold newDir
  generalize (v.newInode n vfsDir 1).link n dot n =
    u at hslots hino hname hhole htidy hmark hdtype ⊢
  have hzero : ∀ k, k < u.slots n → k = 0 := fun k hk => by omega
  have horderly : u.Orderly n := by
    refine ⟨htidy, fun j hj k hk _ _ _ => (hzero j hj).trans (hzero k hk).symm, fun k hk _ _ =>
      .inl ?_⟩
    rw [hzero k hk, hname]
  have hfresh : u.Fresh n d :=
    ⟨hd.1, hd.2, hmark, hdtype, hdn, fun k hk => by rw [hzero k hk, hino]; exact hdn.symm⟩
  obtain ⟨-, hold, hbound⟩ := htidy.entries_link dotdot hd.2
  refine ⟨horderly.link hfresh, fun k hk hp => ?_, fun x hx => ?_⟩
  · by_cases hkh : k = u.hole n
    · exact ⟨dotdot, .tail _ (.head _), by rw [hkh, Tidy.nameAt_link (by decide), key_key]⟩
    · refine ⟨dot, .head _, ?_⟩
      rw [(hold k hkh).2, hzero k (hbound k hk hkh), hname]
  · rw [mem_cons, mem_singleton] at hx
    rcases hx with rfl | rfl
    · rw [htidy.look_link hd.2 (by decide) (by decide), look_ne_none]
      exact ⟨0, by omega, by rw [hino]; exact hpos, by rw [hname]⟩
    · exact htidy.look_link_ne_none hd.1 hd.2 (by decide) rfl

/-- What `easyfs_vfs_mkdir` has made. -/
lemma Serves.mkdir_new (h : Serves dir d s) (ho : s.volume.Orderly d)
    (hs : NameStep t dir s (.mkdir name, true) s') :
    ∃ n, s'.volume.look d name = some n ∧ s'.volume.Orderly n ∧ s'.volume.Named n [dot, dotdot] ∧
      ∀ x ∈ [dot, dotdot], s'.volume.look n x ≠ none := by
  obtain ⟨hname, -, hnul⟩ := hs.accepted
  have hnum := hs.numbered (some_ne_none _)
  obtain ⟨E, hsound⟩ := h.sound
  obtain ⟨hkept, hcase⟩ := h.mkdir_cases ho hname hnum hs.run
  cases hcase with
  | @done _ n hm hn _ _ hs' =>
    obtain ⟨hpos, hmark⟩ := firstFree_eq_some hn
    have hlt := hnum _ hn
    have hdn := ho.tidy.ne_of_free hmark
    have hd : d ≠ 0 := hsound.pos (Set.notMem_empty dir) h.has
    have hnew := ho.tidy.same_newDir hpos hmark
    have hfresh := ho.tidy.fresh_newDir hpos hlt hmark
    have htidy : ((s.volume.newDir d n).link d name n).Tidy d :=
      hnew.tidy.link hfresh.lt hfresh.mark hfresh.type
    have hlinks := htidy.same_setLinks d (((s.volume.info d).nlinks + 1) % 2 ^ 16)
    obtain ⟨h', hsame⟩ := h.next hkept hs' hlinks.tidy
    obtain ⟨horderly, hnamed, hlook⟩ := ho.tidy.newDir_orderly ⟨hd, h.lt⟩ hpos hlt hmark
    -- the new directory is not changed by the entry for it
    have hlink := horderly.tidy.same_link name n hdn.symm
    have hput := hlink.trans (hlink.tidy.same_setLinks d (((s.volume.info d).nlinks + 1) % 2 ^ 16))
    obtain ⟨E', hsound'⟩ := hs'
    have hall := hput.trans (hput.tidy.same_agree hsound'.agree_volume hlt)
    refine ⟨n, ?_, horderly.same hall, hnamed.same hall, fun x hx => ?_⟩
    · have hnone : (s.volume.newDir d n).find d name = none :=
        hnew.find.trans ((h.missing_iff name).mp hm)
      rw [hsame.look, hlinks.look]
      exact hnew.tidy.look_link_self hpos hlt hnul hnone
    · rw [hall.look]
      exact hlook x hx

lemma Serves.looked_up (h : Serves dir d s) (hd : s.volume.Tidy d)
    (hn : s.volume.look d name = some n)
    (hrun : (runAs t (lookup dir name)).run s = .ok (some (i, off), s'))
    (hslot : ∃ j, (s'.slot j).count = 0) : Serves i n s' ∧ s'.blk = s.blk ∧
    (s'.slot i).ino = n := by
  obtain ⟨E, hs⟩ := h.sound
  obtain ⟨hblk, ⟨-, hr, -⟩ | ⟨k, i', hk, -, hr, -, hcache, E', h'⟩⟩ :=
    (hs.lookup (t := t) h.has hd name).of_run hrun
  · cases hr
  · cases hr
    rw [Volume.look, hk] at hn
    obtain rfl : s.volume.inoAt d k = n := some.inj hn
    have hi : s'.cache.Has i (s.volume.inoAt d k) := hcache ▸ Cache.has_take.own
    refine ⟨⟨⟨E', ?_⟩, fun j => ?_, hi, hslot⟩, hblk, hi.ino⟩
    · rw [Fs.volume_eq hblk]
      exact h'
    · rw [hcache]
      by_cases hj : j = i
      · rw [hj, Cache.own_owners_self]
      · rw [Cache.own_owners_of_ne hj, Cache.take_owners]
        exact h.idle j

end Runs

/-- Directories, with the names under which their entries were added: the root of a mounted image,
and a directory that was made and looked up in another one after some calls. A slot of the inode
cache is left. -/
inductive Built (t : Tid) : SlotId → Nat → List Name → Fs → Prop
  | image {host : List Byte → Option (List Byte)} {specs : List (List Byte)}
      {files : List Mkfs.HostFile}
      {img : Bytes} {root : SlotId} {s : Fs} (hin : Mkfs.inputs host specs = .ok files)
      (himg : Mkfs.mkfs host specs = .ok img)
      (hsize : ∀ f ∈ files, f.data.length ≤ Mkfs.maxDirectBlocks * Mkfs.blockSize)
      (hnul : ∀ f ∈ files, 0 ∉ f.fsName) (hrun : (runAs t mountRoot).run (booted img) =
        .ok (some root, s)) :
      Built t root superInum (rootNames files) s
  | made {dir i : SlotId} {d off : Nat} {names : List Name} {s s₁ s₂ s₃ : Fs}
      {calls : List (DirCall × Bool)}
      {name : Name} (h : Built t dir d names s) (hrun : Run (NameStep t dir) s calls s₁)
      (hmkdir : NameStep t dir s₁ (.mkdir name, true) s₂)
      (hlookup : (runAs t (lookup dir name)).run s₂ = .ok (some (i, off), s₃))
      (hslot : ∃ j, (s₃.slot j).count = 0) : Built t i (s₃.slot i).ino [dot, dotdot] s₃

lemma Mounted.named_root {files : List Mkfs.HostFile} (h : Mkfs.Accepted files)
    (hnul : ∀ f ∈ files, 0 ∉ f.fsName) : (vol files).Named 1 (rootNames files) ∧
      ∀ x ∈ rootNames files, 0 ∉ x ∧ (vol files).look 1 x ≠ none := by
  refine ⟨fun k hk _ => ?_, fun x hx => ⟨?_, ?_⟩⟩
  · rw [slots_root h] at hk
    exact ⟨_, mem_of_getElem? (nameAt_root h hnul hk), rfl⟩
  · rcases mem_rootNames.mp hx with rfl | rfl | ⟨f, hf, rfl⟩
    · decide
    · decide
    · exact hnul f hf
  · obtain ⟨k, hk⟩ := mem_iff_getElem?.mp hx
    have hlt : k < files.length + 2 := by
      have := (List.getElem?_eq_some_iff.mp hk).1
      rwa [length_rootNames] at this
    rw [nameAt_root h hnul hlt] at hk
    refine look_ne_none.mpr ⟨k, by rw [slots_root h]; exact hlt, ?_, ?_⟩
    · rcases root_cases h hlt with ⟨hino, -⟩ | ⟨i, f, -, -, hino, -⟩
      · omega
      · omega
    · rw [some.inj hk]

lemma Built.tracks {t : Tid} {dir : SlotId} (h : Built t dir d names s) :
    Tracks dir d names s ∧ ∀ x ∈ names, 0 ∉ x ∧ s.volume.look d x ≠ none := by
  induction h with
  | @image host specs files img root s hin himg hsize hnul hrun =>
    have haccepted := Mkfs.accepted_of_inputs hin hsize
    obtain rfl : Mkfs.image files = img := by
      rw [Mkfs.mkfs, hin] at himg
      exact Except.ok.inj himg
    obtain ⟨root', s', hrun', hserves, hblk⟩ := run_mountRoot haccepted (t := t)
    cases hrun.symm.trans hrun'
    obtain ⟨hnamed, hlook⟩ := named_root haccepted hnul
    have hvolume := Fs.volume_eq hblk
    refine ⟨⟨hserves, ?_, ?_⟩, ?_⟩
    · rw [hvolume]
      exact orderly_root haccepted
    · rw [hvolume]
      exact hnamed
    · rw [hvolume]
      exact hlook
  | @made dir i d off names s s1 s2 s3 calls name _ hrun hmkdir hlookup hslot ih =>
    have h1 := ih.1.run hrun
    have h2 := (h1.step hmkdir).1
    obtain ⟨n, hn, horderly, hnamed, hlook⟩ := h1.toServes.mkdir_new h1.orderly hmkdir
    obtain ⟨hserves, hblk, hino⟩ := h2.toServes.looked_up h2.orderly.tidy hn hlookup hslot
    have hvolume := Fs.volume_eq hblk
    rw [hino]
    refine ⟨⟨hserves, ?_, ?_⟩, fun x hx => ⟨?_, ?_⟩⟩
    · rw [hvolume]
      exact horderly
    · rw [hvolume]
      exact hnamed
    · rcases mem_pair.mp hx with rfl | rfl <;> decide
    · rw [hvolume]
      exact hlook x hx

/-- In every run of calls on a directory, looking up is exact, and a call on one name leaves the
other names alone, if and only if all names that were added have at most 23 bytes. -/
theorem names_exact {t : Tid} {dir : SlotId} {d : Nat} {names : List Name} {s s' : Fs}
    {calls : List (DirCall × Bool)} (h : Built t dir d names s)
    (hrun : Run (NameStep t dir) s calls s') :
    (∀ x ∈ names ++ madeNames calls, x.length < dirsiz) ↔
      (∀ before after mid, calls = before ++ after → Run (NameStep t dir) s before mid →
        Exact t dir (names ++ madeNames before) mid) ∧
      ∀ before c after mid mid', calls = before ++ c :: after → Run (NameStep t dir) s before mid →
        NameStep t dir mid c mid' → ∀ y, y ≠ c.1.name → look t dir mid' y = look t dir mid y := by
  obtain ⟨h, hinit⟩ := h.tracks
  refine ⟨fun hshort => ⟨?_, ?_⟩, fun hexact => h.short hinit hrun hexact.1⟩
  · intro before after mid heq hbefore
    refine (h.run hbefore).exact fun x hx => hshort x ?_
    rw [heq, madeNames_append, ← append_assoc]
    exact mem_append_left _ hx
  · intro before c after mid mid' heq hbefore hstep y hy
    refine (h.run hbefore).look_step hstep (fun x hx => hshort x ?_) hy
    have hsplit : names ++ madeNames calls = names ++ madeNames before ++
      madeNames [c] ++ madeNames after := by
      rw [heq, append_assoc, ← madeNames_append, append_assoc, ← madeNames_append]
      rfl
    rw [hsplit]
    exact mem_append_left _ hx

/-! ### On a small image -/

lemma Volume.Named.find_eq_none {v : Volume} (h : v.Named d names)
    (hx : ∀ y ∈ names, key y ≠ key x) : v.find d x = none := by
  by_contra hfind
  obtain ⟨k, hk, hpos, hkey⟩ := find_ne_none.mp hfind
  obtain ⟨y, hy, hykey⟩ := h k hk hpos
  exact hx y hy (hykey.trans hkey.symm)

/-- A host that finds every file, and finds it empty. -/
def emptyHost : List Byte → Option (List Byte) := fun _ => some []

lemma built_small {root : SlotId}
    (hrun : (runAs 1 mountRoot).run (booted smallImage) = .ok (some root, s)) :
    Built 1 root superInum [dot, dotdot, [0x61#8]] s :=
  .image (show Mkfs.inputs emptyHost [smallSpec] = .ok [⟨[0x61#8], []⟩] from rfl) rfl
    (by decide) (by decide) hrun

lemma mkdir_small (name : Name) (hnew : ∀ y ∈ [dot, dotdot, [0x61#8]], key y ≠ key name)
    (hok : (DirCall.mkdir name).Accepted) : ∃ root s s',
    (runAs 1 mountRoot).run (booted smallImage) = .ok (some root, s) ∧
      NameStep 1 root s (.mkdir name, true) s' := by
  obtain ⟨root, s, hmount, hholds, hfree, -, hblk⟩ := dirHolds_small
  have hs := hholds.toServes
  have hnone : s.volume.find superInum name = none := by
    rw [Fs.volume_eq hblk]
    exact (named_root accepted_small (by decide)).1.find_eq_none hnew
  obtain ⟨n, hn, -, hlt, -⟩ := hfree.firstFree
  have hnum : ∀ m, s.volume.firstFree = some m → m < tableSize := by
    intro m hm
    rw [hn] at hm
    exact some.inj hm ▸ hlt
  have hroom : MkdirRoom s.volume s superInum := by
    obtain ⟨hend, hlacks⟩ := hole_root accepted_small hblk hs
    refine ⟨hend, ?_⟩
    rw [hlacks, hblk]
    refine freeCount_pos (show 1 < totalBlocks - dataBlock by decide)
      (Bool.eq_false_iff.mpr fun hbit => ?_)
    rcases (allocated_image accepted_small).mp hbit with hzero | ⟨i, f, j, hf, hj, -⟩
    · cases hzero
    · rw [mem_singleton.mp (mem_of_getElem? hf)] at hj
      exact absurd hj (not_lt_zero j)
  obtain ⟨E, hsound⟩ := hs.sound
  obtain ⟨r, s', hrun, -, hcase⟩ := hsound.mkdir (t := 1) hs.has hholds.proper.tidy hs.idle hok.1
    (fun k hk => by rw [hnone] at hk; cases hk) fun _ => hnum
  have hmissing := (hs.missing_iff name).mpr hnone
  cases hcase with
  | found hfound => exact absurd hmissing hfound
  | noNumber _ hno => rw [hn] at hno; cases hno
  | noSlot _ _ hslot => exact absurd (hs.room _) hslot
  | noBlock _ _ _ hfull | noEntry _ _ _ hfull => exact absurd hroom hfull
  | done => exact ⟨root, s, s', hmount, hok, fun _ => hnum, hrun⟩

theorem names_exact_small : ∃ root s s', Built 1 root superInum [dot, dotdot, [0x61#8]] s ∧
    Run (NameStep 1 root) s [(.mkdir [0x62#8], true)] s' ∧
    Exact 1 root [dot, dotdot, [0x61#8], [0x62#8]] s' ∧ look 1 root s' [0x61#8] =
      look 1 root s [0x61#8] := by
  obtain ⟨root, s, s', hmount, hstep⟩ := mkdir_small [0x62#8] (by decide)
    ⟨by decide, by decide, by decide⟩
  have hbuilt := built_small hmount
  have hrun : Run (NameStep 1 root) s [(.mkdir [0x62#8], true)] s' := .cons hstep (.nil _)
  obtain ⟨hexact, hother⟩ := (names_exact hbuilt hrun).mp (by decide)
  exact ⟨root, s, s', hbuilt, hrun, hexact _ [] s' rfl hrun,
    hother [] _ [] s s' rfl (.nil _) hstep _ (by decide)⟩

/-- A directory is made under a name of 24 bytes, and then found under one of 25. -/
theorem longer_name_found :
    ∃ root s s', (runAs 1 mountRoot).run (booted smallImage) = .ok (some root, s) ∧
    Built 1 root superInum [dot, dotdot, [0x61#8]] s ∧
    NameStep 1 root s (.mkdir (List.replicate 24 0x61#8), true) s' ∧
    look 1 root s (List.replicate 25 0x61#8) = none ∧
      look 1 root s' (List.replicate 25 0x61#8) ≠ none := by
  obtain ⟨root, s, s', hmount, hstep⟩ := mkdir_small (replicate 24 0x61#8) (by decide)
    ⟨by decide, by decide, by decide⟩
  have hbuilt := built_small hmount
  have h := hbuilt.tracks.1
  obtain ⟨h', hturn⟩ := h.step hstep
  refine ⟨root, s, s', hmount, hbuilt, hstep, ?_, ?_⟩
  · rw [h.toServes.look_eq h.orderly.tidy, Volume.look, h.named.find_eq_none (by decide)]
    rfl
  · rw [h'.toServes.look_eq h'.orderly.tidy]
    exact hturn.look_made rfl (by decide) (by decide)

end FrostVista.EasyFs
