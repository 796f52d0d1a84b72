import FrostVista.EasyFs.Create
import FrostVista.Library.SlotMap

/-!
# EasyFS: a directory is a finite map

The entries of a directory are a table of slots: each is free or holds a name with the number and
the type of an inode. Creating, making directories and unlinking are the operations of such a table.
-/
namespace FrostVista.EasyFs

open Lib Lib.Comp Kernel List Option Nat Volume SlotMap

open Namei (Name sameName sameName_iff dirsiz)

/-- The number and the type of an inode, under its name. -/
abbrev Listing := SlotMap.Table Name (Nat × Nat)

namespace Volume

def slotAt (v : Volume) (d k : Nat) : Option (Name × (Nat × Nat)) :=
  if v.inoAt d k = 0 then none else some (v.nameAt d k, v.inoAt d k, (v.info (v.inoAt d k)).type)

/-- The entries of a directory in their order. -/
def listing (v : Volume) (d : Nat) : Listing := (List.range (v.slots d)).map (v.slotAt d)

variable {v v' : Volume} {d k n : Nat} {name : Name}

@[simp] lemma length_listing : (v.listing d).length = v.slots d := by simp [listing]

lemma getElem?_listing (k : Nat) :
    (v.listing d)[k]? = if k < v.slots d then some (v.slotAt d k) else none := by
  unfold listing
  split_ifs with h
  · simp [h]
  · exact getElem?_eq_none (by simpa using h)

variable {p : Name × (Nat × Nat)}

lemma slotAt_eq_some : v.slotAt d k = some p ↔
    v.inoAt d k ≠ 0 ∧ p = (v.nameAt d k, v.inoAt d k, (v.info (v.inoAt d k)).type) := by
  unfold slotAt
  split_ifs with h
  · simp [h]
  · simp [h, eq_comm]

lemma getElem?_listing_eq_some : (v.listing d)[k]? = some (some p) ↔
    k < v.slots d ∧ v.inoAt d k ≠ 0 ∧
      p = (v.nameAt d k, v.inoAt d k, (v.info (v.inoAt d k)).type) := by
  rw [getElem?_listing, ← slotAt_eq_some]
  split_ifs with h
  · simp [h]
  · simp [h]

lemma slotAt_congr (hentry : v'.entry d k = v.entry d k)
    (htype : v.inoAt d k ≠ 0 → (v'.info (v.inoAt d k)).type = (v.info (v.inoAt d k)).type) :
    v'.slotAt d k = v.slotAt d k := by
  have hino : v'.inoAt d k = v.inoAt d k := by rw [inoAt, inoAt, hentry]
  have hnamed : v'.nameAt d k = v.nameAt d k := by rw [nameAt, nameAt, hentry]
  unfold slotAt
  rw [hino, hnamed]
  split_ifs with hzero
  · rfl
  · rw [htype hzero]

/-- The files in the directory have one name, and only `.` and `..` lead back to the directory. -/
structure Orderly (v : Volume) (d : Nat) : Prop where
  tidy : v.Tidy d
  single : ∀ j < v.slots d, ∀ k < v.slots d, v.inoAt d k ≠ 0 → v.inoAt d j = v.inoAt d k →
    (v.info (v.inoAt d k)).type ≠ vfsDir → j = k
  self : ∀ k < v.slots d, v.inoAt d k ≠ 0 → v.inoAt d k = d → v.nameAt d k = dot ∨
    v.nameAt d k = dotdot

/-- The names are all different and shorter than 24 bytes. -/
structure Proper (v : Volume) (d : Nat) : Prop extends v.Orderly d where
  short : ∀ k < v.slots d, v.inoAt d k ≠ 0 → (v.nameAt d k).length < dirsiz
  distinct : SlotMap.Distinct (v.listing d)

end Volume

/-! ## Names -/

/-- A name of 1 to 23 bytes. -/
structure ValidName (name : Name) : Prop where
  ne : name ≠ []
  short : name.length < dirsiz
  bytes : 0 ∉ name

variable {v v' : Volume} {d k n : Nat} {name : Name}

namespace Volume

lemma Proper.getElem?_find (h : v.Proper d) (hfind : v.find d name = some k) :
    (v.listing d)[k]? = some (some (name, v.inoAt d k, (v.info (v.inoAt d k)).type)) := by
  obtain ⟨hk, hpos, hsame⟩ := find_eq_some hfind
  rw [sameName_iff (h.short k hk hpos)] at hsame
  exact getElem?_listing_eq_some.mpr ⟨hk, hpos, by rw [hsame]⟩

lemma Proper.find_eq_none (h : v.Proper d) :
    v.find d name = none ↔ SlotMap.find (v.listing d) name = none := by
  rw [Volume.find_eq_none, SlotMap.find_eq_none]
  refine ⟨fun hno a ha => ?_, fun hno k hk hpos => ?_⟩
  · obtain ⟨k, hk⟩ := mem_iff_getElem?.mp ha
    obtain ⟨hk, hpos, heq⟩ := getElem?_listing_eq_some.mp hk
    have hfalse := hno k hk hpos
    rw [← Bool.not_eq_true, sameName_iff (h.short k hk hpos)] at hfalse
    exact hfalse (congrArg Prod.fst heq)
  · rw [← Bool.not_eq_true, sameName_iff (h.short k hk hpos)]
    rintro rfl
    exact hno _ (mem_iff_getElem?.mpr ⟨k, getElem?_listing_eq_some.mpr ⟨hk, hpos, rfl⟩⟩)

lemma Proper.find_listing (h : v.Proper d) (hk : v.find d name = some k) :
    SlotMap.find (v.listing d) name = some (v.inoAt d k, (v.info (v.inoAt d k)).type) :=
  h.distinct.find_eq_some.mpr (mem_iff_getElem?.mpr ⟨k, h.getElem?_find hk⟩)

/-! ## Adding an entry -/

lemma inoAt_ne_of_lt_hole (h : k < v.hole d) : v.inoAt d k ≠ 0 := by
  intro hzero
  unfold hole at h
  cases hscan : v.scan d (fun de => entryIno de = 0) 0 with
  | none =>
    rw [hscan, getD_none] at h
    have hno := scan_eq_none.mp hscan k (by unfold slots at h; omega)
    rw [zero_add] at hno
    exact absurd hzero (of_decide_eq_false hno)
  | some j =>
    rw [hscan, getD_some] at h
    have hnot := find?_eq_some_iff_getElem.mp hscan
    obtain ⟨-, i, hi, hij, hbefore⟩ := hnot
    rw [getElem_range] at hij
    subst hij
    have hno := hbefore k h
    simp only [getElem_range, zero_add, Bool.not_eq_eq_eq_not, Bool.not_true,
      decide_eq_false_iff_not] at hno
    exact hno hzero

lemma hole_listing : SlotMap.hole (v.listing d) = v.hole d := by
  have hle := hole_le (v := v) (d := d)
  unfold SlotMap.hole
  rcases lt_or_ge (v.hole d) (v.slots d) with hlt | hge
  · rw [findIdx_eq (by simpa using hlt)]
    refine ⟨?_, fun j hj => ?_⟩
    · simp [listing, slotAt, inoAt_hole hlt]
    · simp [listing, slotAt, inoAt_ne_of_lt_hole hj]
  · have heq : v.hole d = v.slots d := by omega
    rw [heq, ← length_listing (v := v), findIdx_eq_length]
    intro e he
    obtain ⟨k, hk⟩ := mem_iff_getElem?.mp he
    rw [getElem?_listing] at hk
    split_ifs at hk with hlt
    · rw [← some.inj hk]
      simp [slotAt, inoAt_ne_of_lt_hole (heq ▸ hlt)]

lemma listing_link (hwhole : (v.info d).size % 32 = 0) (hpos : n ≠ 0) (hn : n < tableSize)
    (hname : ValidName name) :
    (v.link d name n).listing d = SlotMap.put (v.listing d) (name, n, (v.info n).type) := by
  have hle := hole_le (v := v) (d := d)
  refine ext_getElem? fun k => ?_
  rw [getElem?_put, hole_listing, getElem?_listing, getElem?_listing, slots_link hwhole]
  by_cases hk : k = v.hole d
  · have hino : (v.link d name n).inoAt d k = n := by
      rw [hk, inoAt, entry_link_hole, entryIno_makeEntry]
      exact mod_eq_of_lt (hn.trans (by decide))
    have hnamed : (v.link d name n).nameAt d k = name := by
      rw [hk, nameAt, entry_link_hole, entryName_makeEntry hname.bytes]
      exact take_of_length_le hname.short.le
    rw [if_pos (by omega), if_pos hk, slotAt, hino, if_neg hpos, hnamed, type_link]
  · have hsame : (v.link d name n).slotAt d k = v.slotAt d k :=
      slotAt_congr (entry_link_of_ne hk) fun _ => type_link _
    rw [if_neg hk, hsame]
    by_cases hlt : k < v.slots d
    · rw [if_pos (by omega), if_pos hlt]
    · rw [if_neg (by omega), if_neg hlt]

/-- The directory and the types of what it names are the same. -/
structure SameDir (v v' : Volume) (d : Nat) : Prop where
  tidy : v'.Tidy d
  size : (v'.info d).size = (v.info d).size
  byte : v'.byte d = v.byte d
  type : ∀ k < v.slots d, v.inoAt d k ≠ 0 → (v'.info (v.inoAt d k)).type =
    (v.info (v.inoAt d k)).type

section
variable (h : SameDir v v' d)
include h

lemma SameDir.slots : v'.slots d = v.slots d := by
  rw [Volume.slots, Volume.slots, h.size]

lemma SameDir.nameAt (k : Nat) : v'.nameAt d k = v.nameAt d k := by
  rw [Volume.nameAt, Volume.nameAt, entry_congr h.byte]

lemma SameDir.inoAt (k : Nat) : v'.inoAt d k = v.inoAt d k := inoAt_congr h.byte k

lemma SameDir.find : v'.find d name = v.find d name := find_congr h.size h.byte

end

lemma SameDir.refl (h : v.Tidy d) : SameDir v v d := ⟨h, rfl, rfl, fun _ _ _ => rfl⟩

lemma SameDir.trans (h : SameDir v v' d) (h' : SameDir v' v'' d) : SameDir v v'' d where
  tidy := h'.tidy
  size := h'.size.trans h.size
  byte := h'.byte.trans h.byte
  type k hk hpos := by
    have hino := h.inoAt k
    rw [← hino] at hpos ⊢
    rw [h'.type k (h.slots ▸ hk) hpos, hino]
    exact h.type k hk (hino ▸ hpos)

lemma SameDir.listing (h : SameDir v v' d) : v'.listing d = v.listing d := by
  unfold Volume.listing
  rw [h.slots]
  exact map_congr_left fun k hk =>
    slotAt_congr (entry_congr h.byte k) (h.type k (mem_range.mp hk))

lemma Orderly.same (h : v.Orderly d) (hs : SameDir v v' d) : v'.Orderly d := by
  refine ⟨hs.tidy, ?_, ?_⟩
  · simp only [hs.slots, hs.inoAt]
    intro j hj k hk hpos heq ht
    exact h.single j hj k hk hpos heq (hs.type k hk hpos ▸ ht)
  · simp only [hs.slots, hs.inoAt, hs.nameAt]
    exact h.self

lemma Proper.same (h : v.Proper d) (hs : SameDir v v' d) :
    v'.Proper d ∧ v'.listing d = v.listing d := by
  refine ⟨⟨h.toOrderly.same hs, ?_, ?_⟩, hs.listing⟩
  · simp only [hs.slots, hs.inoAt, hs.nameAt]
    exact h.short
  · rw [hs.listing]
    exact h.distinct

/-- An inode in use that has no entry in the directory. -/
structure Fresh (v : Volume) (d n : Nat) : Prop where
  pos : n ≠ 0
  lt : n < tableSize
  mark : v.marked n = true
  type : (v.info n).type < 2 ^ 8
  ne : n ≠ d
  unused : ∀ k < v.slots d, v.inoAt d k ≠ n

lemma Tidy.entries_link (h : v.Tidy d) (name : Name) (hn : n < tableSize) :
    (v.link d name n).inoAt d (v.hole d) = n ∧
      (∀ k, k ≠ v.hole d → (v.link d name n).inoAt d k = v.inoAt d k ∧
        (v.link d name n).nameAt d k = v.nameAt d k) ∧
      ∀ k, k < (v.link d name n).slots d → k ≠ v.hole d → k < v.slots d := by
  have hle := hole_le (v := v) (d := d)
  have hslots : (v.link d name n).slots d = max (v.slots d) (v.hole d + 1) := slots_link h.whole
  refine ⟨?_, fun k hk => ?_, fun k hk hne => by omega⟩
  · rw [inoAt, entry_link_hole, entryIno_makeEntry]
    exact mod_eq_of_lt (hn.trans (by decide))
  · simp only [inoAt, nameAt, entry_link_of_ne hk, and_self]

lemma Orderly.link (h : v.Orderly d) (hn : v.Fresh d n) : (v.link d name n).Orderly d := by
  obtain ⟨hino, hold, hlt⟩ := h.tidy.entries_link name hn.lt
  refine ⟨h.tidy.link hn.lt hn.mark hn.type, fun j hj k hk hp heq ht => ?_, fun k hk hp hself => ?_⟩
  · by_cases hjh : j = v.hole d
    · by_cases hkh : k = v.hole d
      · rw [hjh, hkh]
      · rw [hjh, hino, (hold k hkh).1] at heq
        exact absurd heq.symm (hn.unused k (hlt k hk hkh))
    · rw [(hold j hjh).1] at heq
      by_cases hkh : k = v.hole d
      · rw [hkh, hino] at heq
        exact absurd heq (hn.unused j (hlt j hj hjh))
      · rw [(hold k hkh).1] at heq hp ht
        rw [type_link] at ht
        exact h.single j (hlt j hj hjh) k (hlt k hk hkh) hp heq ht
  · by_cases hkh : k = v.hole d
    · rw [hkh, hino] at hself
      exact absurd hself hn.ne
    · rw [(hold k hkh).1] at hself hp
      rw [(hold k hkh).2]
      exact h.self k (hlt k hk hkh) hp hself

lemma Proper.link (h : v.Proper d) (hn : v.Fresh d n) (hname : ValidName name)
    (hnew : SlotMap.find (v.listing d) name = none) : (v.link d name n).Proper d := by
  obtain ⟨-, hold, hlt⟩ := h.tidy.entries_link name hn.lt
  refine ⟨h.toOrderly.link hn, fun k hk hp => ?_, ?_⟩
  · by_cases hkh : k = v.hole d
    · rw [hkh, nameAt, entry_link_hole, entryName_makeEntry hname.bytes,
        take_of_length_le hname.short.le]
      exact hname.short
    · rw [(hold k hkh).2]
      exact h.short k (hlt k hk hkh) ((hold k hkh).1 ▸ hp)
  · rw [listing_link h.tidy.whole hn.pos hn.lt hname]
    exact h.distinct.put hnew

/-! ## Removing an entry -/

variable {j c : Nat}

lemma entry_clearEntry_of_ne (h : j ≠ k) : (v.clearEntry d k).entry d j = v.entry d j := by
  unfold entry window clearEntry
  rw [put_byte_self]
  exact Bytes.copyOut_copyIn_of_disjoint (by rw [length_replicate]; omega)

lemma inoAt_clearEntry : (v.clearEntry d k).inoAt d k = 0 := by
  unfold inoAt entry window clearEntry
  rw [put_byte_self, Bytes.copyOut_copyIn_self (length_replicate ..)]
  rfl

lemma unlinkAt_info (hmd : v.inoAt d k ≠ d) (hc : c ≠ v.inoAt d k) :
    (v.unlinkAt d k).info c = v.info c ∧ (v.unlinkAt d k).byte d = (v.clearEntry d k).byte d ∧
      (v.unlinkAt d k).marked c = v.marked c := by
  have hclear : (v.clearEntry d k).info c = v.info c := by
    by_cases hcd : c = d
    · rw [hcd]
      exact put_info_self ..
    · exact put_info_of_ne _ _ _ hcd
  unfold unlinkAt dropLink
  split_ifs
  · rw [put_info_of_ne _ _ _ hc, put_byte_of_ne _ _ _ hmd.symm, put_marked,
      mark_marked_of_ne _ _ hc]
    exact ⟨hclear, rfl, rfl⟩
  · rw [put_info_of_ne _ _ _ hc, put_byte_of_ne _ _ _ hmd.symm, put_marked]
    exact ⟨hclear, rfl, rfl⟩

section
variable (h : v.Orderly d) (hk : k < v.slots d) (hpos : v.inoAt d k ≠ 0)
  (htype : (v.info (v.inoAt d k)).type ≠ vfsDir)
include h hk hpos htype

lemma Orderly.unlinked :
    (v.unlinkAt d k).slots d = v.slots d ∧ (v.unlinkAt d k).inoAt d k = 0 ∧
      (∀ j, j ≠ k → (v.unlinkAt d k).entry d j = v.entry d j) ∧
      (∀ j < v.slots d, j ≠ k → v.inoAt d j ≠ 0 →
        (v.unlinkAt d k).info (v.inoAt d j) = v.info (v.inoAt d j) ∧
        (v.unlinkAt d k).marked (v.inoAt d j) = v.marked (v.inoAt d j)) ∧
      (v.unlinkAt d k).IsDir d ∧ (v.unlinkAt d k).info d = v.info d := by
  have hmd : v.inoAt d k ≠ d := fun hd => htype (by rw [hd]; exact h.tidy.isDir.2)
  have hall := fun c (hc : c ≠ v.inoAt d k) => unlinkAt_info hmd hc
  generalize v.unlinkAt d k = u at hall ⊢
  obtain ⟨hinfo, hbyte, hmark⟩ := hall d hmd.symm
  refine ⟨by rw [slots, slots, hinfo], ?_, fun j hj => ?_, fun j hj hjk hp => ?_, ⟨?_, ?_⟩, hinfo⟩
  · rw [inoAt_congr hbyte]
    exact inoAt_clearEntry
  · rw [entry_congr hbyte]
    exact entry_clearEntry_of_ne hj
  · have hne : v.inoAt d j ≠ v.inoAt d k := fun heq => hjk (h.single j hj k hk hpos heq htype)
    obtain ⟨hinfo', -, hmark'⟩ := hall _ hne
    exact ⟨hinfo', hmark'⟩
  · rw [hmark]
    exact h.tidy.isDir.1
  · rw [hinfo]
    exact h.tidy.isDir.2

lemma Orderly.listing_unlinked :
    (v.unlinkAt d k).listing d = free (v.listing d) k := by
  obtain ⟨hslots, hzero, hentry, hinfo, -, -⟩ := h.unlinked hk hpos htype
  refine ext_getElem? fun j => ?_
  rw [getElem?_free, getElem?_listing, getElem?_listing, hslots, length_listing]
  by_cases hj : j < v.slots d
  · rw [if_pos hj, if_pos hj]
    by_cases hjk : j = k
    · rw [if_pos ⟨hjk, hj⟩, hjk, slotAt, if_pos hzero]
    · rw [if_neg fun hc => hjk hc.1]
      exact congrArg some (slotAt_congr (hentry j hjk) fun hp =>
        congrArg Info.type (hinfo j hj hjk hp).1)
  · rw [if_neg hj, if_neg hj, if_neg fun hc => hj hc.2]

lemma Orderly.live_unlinked (hp : (v.unlinkAt d k).inoAt d j ≠ 0) :
    j ≠ k ∧ (v.unlinkAt d k).inoAt d j = v.inoAt d j ∧ (v.unlinkAt d k).nameAt d j =
      v.nameAt d j := by
  obtain ⟨-, hzero, hentry, -⟩ := h.unlinked hk hpos htype
  generalize v.unlinkAt d k = u at hp hzero hentry ⊢
  have hjk : j ≠ k := fun hjk => hp (hjk ▸ hzero)
  exact ⟨hjk, by rw [inoAt, inoAt, hentry j hjk], by rw [nameAt, nameAt, hentry j hjk]⟩

lemma Orderly.unlink : (v.unlinkAt d k).Orderly d := by
  obtain ⟨hslots, -, -, hinfo, hdir, hsame⟩ := h.unlinked hk hpos htype
  have hold := fun j => h.live_unlinked (j := j) hk hpos htype
  generalize v.unlinkAt d k = u at hslots hinfo hdir hsame hold ⊢
  refine ⟨⟨hdir, by rw [hsame]; exact h.tidy.whole, fun j hj hp => ?_⟩,
    fun i hi j hj hp heq ht => ?_,
    fun j hj hp hself => ?_⟩
  · obtain ⟨hjk, hino, -⟩ := hold j hp
    rw [hslots] at hj
    rw [hino] at hp ⊢
    obtain ⟨hi, hm⟩ := hinfo j hj hjk hp
    rw [hi, hm]
    exact h.tidy.live j hj hp
  · obtain ⟨hjk, hjno, -⟩ := hold j hp
    obtain ⟨hik, hino, -⟩ := hold i (by rw [heq]; exact hp)
    rw [hslots] at hi hj
    rw [hjno] at hp heq ht
    rw [hino] at heq
    rw [(hinfo j hj hjk hp).1] at ht
    exact h.single i hi j hj hp heq ht
  · obtain ⟨-, hino, hnamed⟩ := hold j hp
    rw [hslots] at hj
    rw [hino] at hp hself
    rw [hnamed]
    exact h.self j hj hp hself

end

lemma Proper.unlink (h : v.Proper d) (hk : k < v.slots d) (hpos : v.inoAt d k ≠ 0)
    (htype : (v.info (v.inoAt d k)).type ≠ vfsDir) : (v.unlinkAt d k).Proper d := by
  refine ⟨h.toOrderly.unlink hk hpos htype, fun j hj hp => ?_, ?_⟩
  · obtain ⟨-, hino, hnamed⟩ := h.toOrderly.live_unlinked hk hpos htype hp
    rw [hnamed]
    rw [(h.toOrderly.unlinked hk hpos htype).1] at hj
    rw [hino] at hp
    exact h.short j hj hp
  · rw [h.toOrderly.listing_unlinked hk hpos htype]
    exact h.distinct.free k

/-! ## The volumes that the calls lead to -/

section
variable (h : v.Tidy d)
include h

lemma Tidy.inoAt_ne (hpos : n ≠ 0) (hn : v.marked n = false) (hk : k < v.slots d) :
    v.inoAt d k ≠ n := by
  by_cases hzero : v.inoAt d k = 0
  · rw [hzero]
    exact hpos.symm
  · exact ne_of_marked (h.live k hk hzero).2.1 hn

lemma Tidy.ne_of_free (hn : v.marked n = false) : d ≠ n := ne_of_marked h.isDir.1 hn

lemma Tidy.same_agree (hv : v.Agree v') (hd : d < tableSize) : SameDir v v' d := by
  refine ⟨h.congr (fun m hm => hv.marked ▸ hm) (hv.info d hd) (hv.byte d hd) ?_,
    congrArg Info.size (hv.info d hd), hv.byte d hd, ?_⟩
  · exact fun m hm _ ht => by rwa [hv.info m hm]
  · exact fun k hk hpos => by rw [hv.info _ (h.live k hk hpos).1]

lemma Tidy.same_newInode (type nlinks : Nat) (hpos : n ≠ 0) (hn : v.marked n = false) :
    SameDir v (v.newInode n type nlinks) d := by
  have hdn := h.ne_of_free hn
  refine ⟨h.newInode hn, ?_, put_byte_of_ne _ _ _ hdn, fun k hk _ => ?_⟩
  · exact congrArg Info.size (put_info_of_ne _ _ _ hdn)
  · exact congrArg Info.type (put_info_of_ne _ _ _ (h.inoAt_ne hpos hn hk))

lemma Tidy.same_link (x : Name) (inum : Nat) (hne : d ≠ c) :
    SameDir v (v.link c x inum) d :=
  ⟨h.link_of_ne hne, congrArg Info.size (put_info_of_ne _ _ _ hne), put_byte_of_ne _ _ _ hne,
    fun _ _ _ => type_link _⟩

lemma Tidy.same_setLinks (c nlinks : Nat) :
    SameDir v (v.put c { v.info c with nlinks := nlinks } (v.byte c)) d := by
  set v' := v.put c { v.info c with nlinks := nlinks } (v.byte c) with hv'
  have hsame : ∀ m, (v'.info m).type = (v.info m).type ∧ (v'.info m).size = (v.info m).size ∧
      v'.byte m = v.byte m := by
    intro m
    by_cases hm : m = c
    · rw [hv', hm, put_info_self, put_byte_self]
      exact ⟨rfl, rfl, rfl⟩
    · rw [hv', put_info_of_ne _ _ _ hm, put_byte_of_ne _ _ _ hm]
      exact ⟨rfl, rfl, rfl⟩
  obtain ⟨htype, hsize, hbyte⟩ := hsame d
  refine ⟨⟨⟨h.isDir.1, htype.trans h.isDir.2⟩, hsize ▸ h.whole, fun k hk hp => ?_⟩, hsize, hbyte,
    fun _ _ _ => (hsame _).1⟩
  rw [slots, hsize] at hk
  rw [inoAt_congr hbyte] at hp ⊢
  rw [(hsame _).1]
  exact h.live k hk hp

lemma Tidy.same_newDir (hpos : n ≠ 0) (hn : v.marked n = false) :
    SameDir v (v.newDir d n) d := by
  have hdn := h.ne_of_free hn
  have h1 := h.same_newInode vfsDir 1 hpos hn
  have h2 := h1.tidy.same_link dot n hdn
  exact h1.trans (h2.trans (h2.tidy.same_link dotdot d hdn))

lemma Tidy.fresh (hs : SameDir v v' d) (hpos : n ≠ 0) (hlt : n < tableSize)
    (hn : v.marked n = false) (hmark : v'.marked n = true) (hinfo : (v'.info n).type = type)
    (htype : type < 2 ^ 8) : v'.Fresh d n where
  pos := hpos
  lt := hlt
  mark := hmark
  type := by rw [hinfo]; exact htype
  ne := (h.ne_of_free hn).symm
  unused k hk := by
    rw [hs.inoAt]
    exact h.inoAt_ne hpos hn (hs.slots ▸ hk)

lemma Tidy.fresh_newInode (type : Nat) (hpos : n ≠ 0) (hlt : n < tableSize)
    (hn : v.marked n = false) (htype : type < 2 ^ 8) : (v.newInode n type 1).Fresh d n :=
  h.fresh (h.same_newInode type 1 hpos hn) hpos hlt hn (mark_marked_self ..)
    (congrArg Info.type (put_info_self ..)) htype

end

lemma type_newDir (v : Volume) (d n : Nat) : ((v.newDir d n).info n).type = vfsDir := by
  rw [newDir, type_link, type_link]
  exact congrArg Info.type (put_info_self ..)

lemma Tidy.fresh_newDir (h : v.Tidy d) (hpos : n ≠ 0) (hlt : n < tableSize)
    (hn : v.marked n = false) :
    (v.newDir d n).Fresh d n :=
  h.fresh (h.same_newDir hpos hn) hpos hlt hn (mark_marked_self ..) (type_newDir v d n) (by decide)

lemma Proper.created (h : v.Proper d) (type : Nat) (hpos : n ≠ 0) (hlt : n < tableSize)
    (hn : v.marked n = false) (htype : type < 2 ^ 8) (hname : ValidName name)
    (hnew : SlotMap.find (v.listing d) name = none) :
    ((v.newInode n type 1).link d name n).Proper d ∧
      ((v.newInode n type 1).link d name n).listing d =
        SlotMap.put (v.listing d) (name, n, type) := by
  obtain ⟨h', hlisting⟩ := h.same (h.tidy.same_newInode type 1 hpos hn)
  have hinfo : ((v.newInode n type 1).info n).type = type := congrArg Info.type (put_info_self ..)
  rw [← hlisting] at hnew
  refine ⟨h'.link (h.tidy.fresh_newInode type hpos hlt hn htype) hname hnew, ?_⟩
  rw [listing_link h'.tidy.whole hpos hlt hname, hlisting, hinfo]

lemma Proper.madeDir (h : v.Proper d) (hpos : n ≠ 0) (hlt : n < tableSize) (hn : v.marked n = false)
    (hname : ValidName name) (hnew : SlotMap.find (v.listing d) name = none) (nlinks : Nat) :
    (((v.newDir d n).link d name n).put d { ((v.newDir d n).link d name n).info d with nlinks :=
      nlinks }
        (((v.newDir d n).link d name n).byte d)).Proper d ∧
      (((v.newDir d n).link d name n).put d { ((v.newDir d n).link d name n).info d with nlinks :=
        nlinks }
        (((v.newDir d n).link d name n).byte d)).listing d =
          SlotMap.put (v.listing d) (name, n, vfsDir) := by
  obtain ⟨h', hlisting⟩ := h.same (h.tidy.same_newDir hpos hn)
  rw [← hlisting] at hnew
  have hlink := h'.link (h.tidy.fresh_newDir hpos hlt hn) hname hnew
  have hput : ((v.newDir d n).link d name n).listing d =
    SlotMap.put (v.listing d) (name, n, vfsDir) := by
    rw [listing_link h'.tidy.whole hpos hlt hname, hlisting, type_newDir]
  rw [← hput]
  exact hlink.same (hlink.tidy.same_setLinks d nlinks)

end Volume

/-! ## Runs of calls -/

def vfsFile : Nat := 0x10

inductive DirCall where
  | create (name : Name)
  | mkdir (name : Name)
  | unlink (name : Name)

def DirCall.perform (dir : SlotId) : DirCall → FsProg Bool
  | .create name => EasyFs.create dir name vfsFile
  | .mkdir name => EasyFs.mkdir dir name 0
  | .unlink name => EasyFs.unlink dir name

def Listing.Present (l : Listing) (name : Name) : Prop := SlotMap.find l name ≠ none

/-- A call adds a name for an inode that had none, as a file or a directory. -/
def Adds (type : Nat) (name : Name) (r : Bool) (l l' : Listing) : Prop :=
  (r = true ∧ ¬l.Present name ∧ ∃ n, (∀ p ∈ SlotMap.entries l, p.2.1 ≠ n) ∧
    l' = SlotMap.put l (name, n, type)) ∨ (r = false ∧ l.Present name ∧ l' = l)

/-- What a call does to the table of a directory. -/
def ListingStep (l : Listing) : DirCall × Bool → Listing → Prop
  | (.create name, r), l' => Adds vfsFile name r l l'
  | (.mkdir name, r), l' => Adds vfsDir name r l l'
  | (.unlink name, r), l' =>
    (r = true ∧ name ≠ dot ∧ name ≠ dotdot ∧ ∃ j n type, l[j]? = some (some (name, n, type)) ∧
      type ≠ vfsDir ∧ l' = SlotMap.free l j) ∨
    (r = false ∧ l' = l ∧ (name = dot ∨ name = dotdot ∨ ¬l.Present name ∨
      ∃ n, SlotMap.find l name = some (n, vfsDir)))

/-- What a call does to the map from names to inodes. -/
def MapStep (f : Name → Option (Nat × Nat)) : DirCall × Bool → (Name → Option (Nat × Nat)) → Prop
  | (.create name, true), f' => f name = none ∧ ∃ n, f' = Function.update f name (some (n, vfsFile))
  | (.mkdir name, true), f' => f name = none ∧ ∃ n, f' = Function.update f name (some (n, vfsDir))
  | (.unlink name, true), f' => f name ≠ none ∧ f' = Function.update f name none
  | (_, false), f' => f' = f

/-- The inode cache and the disk are in order, no call is under way, and the directory is
referenced. -/
structure Serves (dir : SlotId) (d : Nat) (s : Fs) : Prop where
  sound : Spells s s.volume
  idle : s.cache.Idle
  has : s.cache.Has dir d
  slot : ∃ i, s.cache.counts i = 0

/-- The directory is a proper one. -/
structure DirHolds (dir : SlotId) (d : Nat) (s : Fs) : Prop extends Serves dir d s where
  proper : s.volume.Proper d

/-- A number in the table is free. -/
def Volume.HasFree (v : Volume) : Prop := ∃ n, n ≠ 0 ∧ n < tableSize ∧ v.marked n = false

/-- The calls that are made: with names of 1 to 23 bytes, with a free inode and enough free blocks
for a new name. A name that leads back to the directory is not created again. -/
def Allowed (d : Nat) (s : Fs) : DirCall → Prop
  | .create name => ValidName name ∧
      (∀ type, SlotMap.find (s.volume.listing d) name ≠ some (d, type)) ∧
      (¬(s.volume.listing d).Present name → s.volume.HasFree ∧ Linkable s.volume s d)
  | .mkdir name => ValidName name ∧
      (∀ type, SlotMap.find (s.volume.listing d) name ≠ some (d, type)) ∧
      (¬(s.volume.listing d).Present name → s.volume.HasFree ∧ MkdirRoom s.volume s d)
  | .unlink name => ValidName name

def DirStep (t : Tid) (dir : SlotId) (d : Nat) (s : Fs) (c : DirCall × Bool) (s' : Fs) : Prop :=
  Allowed d s c.1 ∧ (runAs t (c.1.perform dir)).run s = .ok (c.2, s')

lemma Volume.Proper.find_ne_self (h : v.Proper d) (hdot : name ≠ dot) (hdotdot : name ≠ dotdot)
    (type : Nat) :
    SlotMap.find (v.listing d) name ≠ some (d, type) := by
  intro hfind
  obtain ⟨k, hk⟩ := mem_iff_getElem?.mp (h.distinct.find_eq_some.mp hfind)
  obtain ⟨hlt, hpos, heq⟩ := getElem?_listing_eq_some.mp hk
  simp only [Prod.mk.injEq] at heq
  rcases h.self k hlt hpos heq.2.1.symm with hname | hname
  · exact hdot (heq.1.trans hname)
  · exact hdotdot (heq.1.trans hname)

variable {s s' : Fs} {dir : SlotId} {t : Tid}

lemma Volume.HasFree.firstFree (h : v.HasFree) :
    ∃ n, v.firstFree = some n ∧ n ≠ 0 ∧ n < tableSize ∧ v.marked n = false := by
  obtain ⟨m, hpos, hlt, hm⟩ := h
  cases hf : v.firstFree with
  | none =>
    have hno := find?_eq_none.mp hf m (mem_range.mpr (hlt.trans (by decide)))
    simp [hpos, hm] at hno
  | some n =>
    obtain ⟨hn, hmark⟩ := firstFree_eq_some hf
    refine ⟨n, rfl, hn, ?_, hmark⟩
    obtain ⟨-, i, hi, hin, hbefore⟩ := find?_eq_some_iff_getElem.mp hf
    rw [getElem_range] at hin
    subst hin
    by_contra hge
    have hno := hbefore m (by omega)
    simp [hpos, hm] at hno

lemma Serves.lt (h : Serves dir d s) : d < tableSize := by
  obtain ⟨E, hs⟩ := h.sound
  exact hs.lt (Set.notMem_empty dir) h.has

lemma Serves.room (h : Serves dir d s) (n : Nat) : s.cache.Room n := .inr h.slot

lemma Serves.next (h : Serves dir d s) (hkept : s.cache.Kept s'.cache) (hs : Spells s' v')
    (htidy : v'.Tidy d) : Serves dir d s' ∧ Volume.SameDir v' s'.volume d := by
  obtain ⟨E, hs⟩ := hs
  refine ⟨⟨⟨E, hs.volume⟩, fun i => ?_, hkept.has h.has, ?_⟩, htidy.same_agree hs.agree_volume h.lt⟩
  · rw [hkept.owners]
    exact h.idle i
  · rw [hkept.counts]
    exact h.slot

lemma DirHolds.next (h : DirHolds dir d s) (hkept : s.cache.Kept s'.cache)
    (hs : Spells s' v') (hproper : v'.Proper d) :
    DirHolds dir d s' ∧ s'.volume.listing d = v'.listing d := by
  obtain ⟨h', hsame⟩ := h.toServes.next hkept hs hproper.tidy
  obtain ⟨hproper', hlisting⟩ := hproper.same hsame
  exact ⟨⟨h', hproper'⟩, hlisting⟩

lemma Serves.missing_iff (h : Serves dir d s) (name : Name) :
    s.volume.Missing s.cache d name ↔ s.volume.find d name = none := by
  constructor
  · intro hm
    cases hf : s.volume.find d name with
    | none => rfl
    | some k => exact absurd (h.room _) (hm k hf)
  · intro hf k hk
    rw [hf] at hk
    cases hk

/-- With a slot for every inode, a name is missing if it has no entry. -/
lemma DirHolds.missing_iff (h : DirHolds dir d s) (name : Name) :
    s.volume.Missing s.cache d name ↔ ¬(s.volume.listing d).Present name := by
  unfold Listing.Present
  rw [not_not, ← h.proper.find_eq_none]
  exact h.toServes.missing_iff name

lemma DirHolds.not_self (h : DirHolds dir d s)
    (hself : ∀ type, find (s.volume.listing d) name ≠ some (d, type)) (k : Nat)
    (hk : s.volume.find d name = some k) : s.volume.inoAt d k ≠ d := by
  intro hd
  have hfind := h.proper.find_listing hk
  rw [hd] at hfind
  exact hself _ hfind

lemma Volume.Tidy.mem_entries_ne (h : v.Tidy d) (hpos : n ≠ 0) (hn : v.marked n = false) :
    ∀ p ∈ SlotMap.entries (v.listing d), p.2.1 ≠ n := by
  intro p hp
  obtain ⟨k, hk⟩ := mem_iff_getElem?.mp (mem_entries.mp hp)
  obtain ⟨hlt, -, rfl⟩ := getElem?_listing_eq_some.mp hk
  exact h.inoAt_ne hpos hn hlt

lemma DirHolds.firstFree_lt (h : DirHolds dir d s)
    (hfree : ¬(s.volume.listing d).Present name → s.volume.HasFree)
    (hm : s.volume.Missing s.cache d name) (hn : s.volume.firstFree = some n) : n < tableSize := by
  obtain ⟨n', hn', -, hlt, -⟩ := (hfree ((h.missing_iff _).mp hm)).firstFree
  cases hn.symm.trans hn'
  exact hlt

lemma DirHolds.create (h : DirHolds dir d s) (hok : Allowed d s (.create name)) :
    Total (runAs t (EasyFs.create dir name vfsFile)) s fun r s' => DirHolds dir d s' ∧
      Adds vfsFile name r (s.volume.listing d) (s'.volume.listing d) := by
  obtain ⟨hname, hself, henough⟩ := hok
  obtain ⟨E, hs⟩ := h.sound
  have hmissing := h.missing_iff name
  have htable := fun hm n (hn : _ = some n) => h.firstFree_lt (fun hp => (henough hp).1) hm hn
  refine (hs.create h.has h.proper.tidy h.idle hname.ne (h.not_self hself) htable vfsFile).mono ?_
  rintro r s' ⟨hkept, hcase⟩
  cases hcase with
  | found hfound hblk hs' =>
    obtain ⟨h', hlisting⟩ := h.next hkept hs' h.proper
    rw [hmissing, not_not] at hfound
    exact ⟨h', .inr ⟨rfl, hfound, hlisting⟩⟩
  | noNumber hm hnone =>
    obtain ⟨n, hn, -⟩ := (henough (hmissing.mp hm)).1.firstFree
    rw [hnone] at hn
    cases hn
  | noSlot hm hn hroom => exact absurd (h.room _) hroom
  | noBlocks hm hn hroom hfull => exact absurd (henough (hmissing.mp hm)).2 hfull
  | done hm hn hroom hlink hs' =>
    obtain ⟨hpos, hmark⟩ := firstFree_eq_some hn
    obtain ⟨hproper, hput⟩ := h.proper.created vfsFile hpos (htable hm _ hn) hmark (by decide)
      hname (not_not.mp (hmissing.mp hm))
    obtain ⟨h', hlisting⟩ := h.next hkept hs' hproper
    exact ⟨h', .inl ⟨rfl, hmissing.mp hm, _, h.proper.tidy.mem_entries_ne hpos hmark,
      hlisting.trans hput⟩⟩

lemma DirHolds.mkdir (h : DirHolds dir d s) (hok : Allowed d s (.mkdir name)) :
    Total (runAs t (EasyFs.mkdir dir name 0)) s fun r s' => DirHolds dir d s' ∧
      Adds vfsDir name r (s.volume.listing d) (s'.volume.listing d) := by
  obtain ⟨hname, hself, henough⟩ := hok
  obtain ⟨E, hs⟩ := h.sound
  have hmissing := h.missing_iff name
  have htable := fun hm n (hn : _ = some n) => h.firstFree_lt (fun hp => (henough hp).1) hm hn
  refine (hs.mkdir h.has h.proper.tidy h.idle hname.ne (h.not_self hself) htable).mono ?_
  rintro r s' ⟨hkept, hcase⟩
  cases hcase with
  | found hfound hblk hs' =>
    obtain ⟨h', hlisting⟩ := h.next hkept hs' h.proper
    rw [hmissing, not_not] at hfound
    exact ⟨h', .inr ⟨rfl, hfound, hlisting⟩⟩
  | noNumber hm hnone =>
    obtain ⟨n, hn, -⟩ := (henough (hmissing.mp hm)).1.firstFree
    rw [hnone] at hn
    cases hn
  | noSlot hm hn hroom => exact absurd (h.room _) hroom
  | noBlock hm hn hroom hfull | noEntry hm hn hroom hfull =>
      exact absurd (henough (hmissing.mp hm)).2 hfull
  | done hm hn hroom hlink hs' =>
    obtain ⟨hpos, hmark⟩ := firstFree_eq_some hn
    obtain ⟨hproper, hput⟩ := h.proper.madeDir hpos (htable hm _ hn) hmark hname
      (not_not.mp (hmissing.mp hm)) _
    obtain ⟨h', hlisting⟩ := h.next hkept hs' hproper
    exact ⟨h', .inl ⟨rfl, hmissing.mp hm, _, h.proper.tidy.mem_entries_ne hpos hmark,
      hlisting.trans hput⟩⟩

lemma sameName_dots (name : Name) :
    (sameName name dot ∨ sameName name dotdot) ↔ name = dot ∨ name = dotdot := by
  rw [sameName_iff (by decide), sameName_iff (by decide)]

lemma DirHolds.unlink (h : DirHolds dir d s) (hname : ValidName name) :
    Total (runAs t (EasyFs.unlink dir name)) s fun r s' => DirHolds dir d s' ∧
      ListingStep (s.volume.listing d) (.unlink name, r) (s'.volume.listing d) := by
  obtain ⟨E, hs⟩ := h.sound
  have hdots := sameName_dots name
  have hself : ∀ k, s.volume.find d name = some k → s.volume.inoAt d k = d →
      sameName name dot ∨ sameName name dotdot := by
    intro k hk hd
    obtain ⟨hlt, hpos, hsame⟩ := find_eq_some hk
    rw [sameName_iff (h.proper.short k hlt hpos)] at hsame
    exact (sameName_dots _).mpr (hsame ▸ h.proper.self k hlt hpos hd)
  refine (hs.unlink h.has h.proper.tidy h.idle hname.ne hself).mono ?_
  rintro r s' ⟨hkept, hcase⟩
  cases hcase with
  | reserved hres hblk hs' =>
    obtain ⟨h', hlisting⟩ := h.next hkept hs' h.proper
    refine ⟨h', .inr ⟨rfl, hlisting, ?_⟩⟩
    rcases hdots.mp hres with hdot | hdotdot
    · exact .inl hdot
    · exact .inr (.inl hdotdot)
  | missing hm hblk hs' =>
    obtain ⟨h', hlisting⟩ := h.next hkept hs' h.proper
    exact ⟨h', .inr ⟨rfl, hlisting, .inr (.inr (.inl ((h.missing_iff _).mp hm)))⟩⟩
  | directory hk hroom htype hblk hs' =>
    obtain ⟨h', hlisting⟩ := h.next hkept hs' h.proper
    have hfind := h.proper.find_listing hk
    rw [htype] at hfind
    exact ⟨h', .inr ⟨rfl, hlisting, .inr (.inr (.inr ⟨_, hfind⟩))⟩⟩
  | done hres hk hroom htype hs' =>
    obtain ⟨hlt, hpos, -⟩ := find_eq_some hk
    obtain ⟨h', hlisting⟩ := h.next hkept hs' (h.proper.unlink hlt hpos htype)
    rw [hdots, not_or] at hres
    exact ⟨h', .inl ⟨rfl, hres.1, hres.2, _, _, _, h.proper.getElem?_find hk, htype,
      hlisting.trans (h.proper.toOrderly.listing_unlinked hlt hpos htype)⟩⟩

lemma DirHolds.call (h : DirHolds dir d s) (hok : Allowed d s c) :
    Total (runAs t (c.perform dir)) s fun r s' => DirHolds dir d s' ∧
      ListingStep (s.volume.listing d) (c, r) (s'.volume.listing d) := by
  cases c with
  | create name => exact h.create hok
  | mkdir name => exact h.mkdir hok
  | unlink name => exact h.unlink hok

lemma ListingStep.mapStep (h : ListingStep l c l')
    (hd : Distinct l) : MapStep (find l) c (find l') := by
  obtain ⟨c, r⟩ := c
  cases c with
  | create name | mkdir name =>
    rcases h with ⟨rfl, hnew, n, -, rfl⟩ | ⟨rfl, -, rfl⟩
    · exact ⟨not_not.mp hnew, n, hd.find_put (not_not.mp hnew)⟩
    · rfl
  | unlink name =>
    rcases h with ⟨rfl, -, -, j, n, type, hj, -, rfl⟩ | ⟨rfl, rfl, -⟩
    · refine ⟨?_, hd.find_free hj⟩
      rw [hd.find_eq_some.mpr (mem_iff_getElem?.mpr ⟨j, hj⟩)]
      exact some_ne_none _
    · rfl

/-! ## What the directory shows -/

/-- Calls of `easyfs_vfs_readdir` from an offset on, until the end of the directory. -/
def listDir (dir : SlotId) : Nat → Nat → FsProg (Option (List (Name × (Nat × Nat))))
  | 0, _ => pure none
  | n + 1, off => do
    match ← readdir dir off with
    | .done => pure (some [])
    | .error => pure none
    | .entry ino name type next =>
      let rest ← listDir dir n next
      pure (rest.map fun l => (name.takeWhile (· ≠ 0), ino, type) :: l)

namespace Volume

lemma entries_drop (q : Nat) : SlotMap.entries ((v.listing d).drop q) =
    match v.scan d (fun de => entryIno de ≠ 0) (32 * q) with
    | none => []
    | some k => (v.nameAt d (q + k), v.inoAt d (q + k), (v.info (v.inoAt d (q + k))).type) ::
        SlotMap.entries ((v.listing d).drop (q + k + 1)) := by
  induction hleft : v.slots d - q generalizing q with
  | zero =>
    rw [drop_eq_nil_of_le (by rw [length_listing]; omega),
      scan_of_lt (by unfold slots at hleft; omega)]
    rfl
  | succ m ih =>
    have hq : q < v.slots d := by omega
    have hdrop : (v.listing d).drop q = v.slotAt d q :: (v.listing d).drop (q + 1) := by
      rw [drop_eq_getElem_cons (by rw [length_listing]; exact hq)]
      simp [listing]
    have hnext : 32 * q + 32 = 32 * (q + 1) := by omega
    have hscan : v.scan d (fun de => entryIno de ≠ 0) (32 * q) = if v.inoAt d q = 0 then
        (v.scan d (fun de => entryIno de ≠ 0) (32 * (q + 1))).map (· + 1) else some 0 := by
      rw [scan_of_le (by unfold slots at hq; omega), hnext, ← ite_not]
      exact if_congr (by simp [inoAt, entry]) rfl rfl
    rw [hdrop, hscan]
    by_cases hzero : v.inoAt d q = 0
    · rw [if_pos hzero, SlotMap.entries, slotAt, if_pos hzero, filterMap_cons_none rfl]
      rw [← SlotMap.entries, ih (q + 1) (by omega)]
      cases v.scan d (fun de => entryIno de ≠ 0) (32 * (q + 1)) with
      | none => rfl
      | some k =>
        have hshift : q + 1 + k = q + (k + 1) := by omega
        simp only [map_some, hshift]
    · rw [if_neg hzero, SlotMap.entries, slotAt, if_neg hzero]
      rfl

end Volume

lemma takeWhile_take {α : Type} (p : α → Bool) (l : List α) (n : Nat) :
    (l.take n).takeWhile p = (l.takeWhile p).take n := by
  induction l generalizing n with
  | nil => simp
  | cons a l ih =>
    cases n with
    | zero => rfl
    | succ n =>
      rw [take_succ_cons, takeWhile_cons, takeWhile_cons]
      split
      · rw [take_succ_cons, ih]
      · rfl

lemma takeWhile_take_name (h : (entryName de).length < dirsiz) :
    ((de.drop 4).take 27).takeWhile (· ≠ 0) = entryName de := by
  rw [takeWhile_take]
  exact take_of_length_le (h.le.trans (by decide))

lemma DirHolds.of_blk (h : DirHolds dir d s) (hkept : s.cache.Kept s'.cache) (hblk : s'.blk = s.blk)
    (hs : Spells s' s.volume) : DirHolds dir d s' ∧ s'.volume = s.volume := by
  refine ⟨(h.next hkept hs h.proper).1, ?_⟩
  unfold Fs.volume
  rw [hblk]

lemma DirHolds.listDir (fuel q : Nat) (h : DirHolds dir d s) (hfuel : s.volume.slots d - q < fuel) :
    Total (runAs t (EasyFs.listDir dir fuel (32 * q))) s fun r _ =>
      r = some (SlotMap.entries ((s.volume.listing d).drop q)) := by
  induction fuel generalizing q s with
  | zero => exact absurd hfuel (not_lt_zero _)
  | succ fuel ih =>
    obtain ⟨E, hs⟩ := h.sound
    rw [EasyFs.listDir]
    refine Prog.total_bind (hs.readdir h.has h.proper.tidy h.idle q) ?_
    rintro r s1 ⟨hkept, hblk, hs1, hcase⟩
    obtain ⟨h1, hvolume⟩ := h.of_blk hkept hblk hs1
    rw [entries_drop]
    cases hscan : s.volume.scan d (fun de => entryIno de ≠ 0) (32 * q) with
    | none =>
      rw [hscan] at hcase
      cases hcase
      exact ⟨_, s1, rfl, rfl⟩
    | some k =>
      rw [hscan] at hcase
      rcases hcase with ⟨hroom, -⟩ | ⟨-, rfl⟩
      · exact absurd (h.room _) hroom
      · have hk := (scan_eq_some hscan).1
        have hstop := (scan_eq_some hscan).2
        rw [show 32 * q + 32 * k = 32 * (q + k) by omega] at hk hstop
        have hlive : s.volume.inoAt d (q + k) ≠ 0 := of_decide_eq_true hstop
        have hlt : q + k < s.volume.slots d := by
          unfold slots
          omega
        have hrest := ih (q + k + 1) h1 (by rw [hvolume]; omega)
        rw [hvolume, show 32 * (q + k + 1) = 32 * (q + k) + 32 by omega] at hrest
        refine Prog.total_bind hrest ?_
        rintro r s2 rfl
        refine ⟨_, s2, rfl, ?_⟩
        rw [map_some, takeWhile_take_name (h.proper.short _ hlt hlive)]
        rfl

lemma DirHolds.lookup (h : DirHolds dir d s) (name : Name) :
    Total (runAs t (EasyFs.lookup dir name)) s fun r s' =>
      match find (s.volume.listing d) name with
      | none => r = none
      | some (n, type) => ∃ i off, r = some (i, off) ∧ (s'.slot i).ino = n ∧
          (s'.slot i).type = type := by
  obtain ⟨E, hs⟩ := h.sound
  refine (hs.lookup h.has h.proper.tidy name).mono ?_
  rintro r s' ⟨-, ⟨hm, rfl, rfl⟩ | ⟨k, i, hk, -, rfl, -, hcache, E', h'⟩⟩
  · have hnone := (h.missing_iff _).mp hm
    rw [not_not.mp hnone]
  · have hi : s'.cache.Has i (s.volume.inoAt d k) := hcache ▸ Cache.has_take.own
    rw [h.proper.find_listing hk]
    exact ⟨i, 32 * k, rfl, hi.ino, h'.type (Set.notMem_empty i) hi⟩

end FrostVista.EasyFs
