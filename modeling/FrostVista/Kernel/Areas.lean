import FrostVista.Kernel.Layout

/-!
# The table of areas

What `do_mmap` and `do_munmap` keep of the table of areas: the areas in use are page aligned, not
empty, below twice `USER_VA_TOP` and pairwise apart.
-/
namespace FrostVista.Kernel

open Lib BitVec Option Kernel.Vma

/-- The pages a length is rounded up to. -/
def pagesOf (len : Word) : Nat := (len.toNat + 4095) / 4096

/-- The address lies in `[addr, addr + PGROUNDUP(len))`, without wrap-around. -/
def InRange (addr len x : Word) : Prop :=
  addr.toNat ≤ x.toNat ∧ x.toNat < addr.toNat + 4096 * pagesOf len

instance (addr len x : Word) : Decidable (InRange addr len x) := inferInstanceAs (Decidable (_ ∧ _))

/-- The address lies in an area in use. -/
def Covered (p : Process) (x : Word) : Prop :=
  ∃ i, (p.vmArea i).used = true ∧ Vma.Contains (p.vmArea i) x

/-- The file and the offset that `handle_vma_fault` reads for an address. -/
def faultRead (p : Process) (va : Word) : Option (Nat × Word) :=
  (findOverlappingVma p (pgRoundDown va) 4096#64).bind fun v =>
    v.file.map fun f => (f, v.offset (pgRoundDown va))

/-- An area in use has whole pages, at least one, and lies between `MMAP_START` and twice
`USER_VA_TOP`. -/
structure Vma.Tidy (v : Vma) : Prop where
  start : v.vaStart.toNat % 4096 = 0
  stop : v.vaEnd.toNat % 4096 = 0
  low : mmapStart.toNat ≤ v.vaStart.toNat
  nonempty : v.vaStart.toNat < v.vaEnd.toNat
  high : v.vaEnd.toNat ≤ 2 ^ 39

structure TidyAreas (p : Process) : Prop where
  tidy : ∀ i, (p.vmArea i).used = true → Vma.Tidy (p.vmArea i)
  apart : ∀ i j, i ≠ j → (p.vmArea i).used = true → (p.vmArea j).used = true →
    Vma.Apart (p.vmArea i) (p.vmArea j)

variable {v : Vma} {p : Process} {a : MmapArgs} {bottom start : Word}

lemma Vma.contains_iff :
    Contains v x ↔ v.vaStart.toNat ≤ x.toNat ∧ x.toNat < v.vaEnd.toNat := Iff.rfl

lemma Vma.Apart.symm (h : Apart v w) : Apart w v :=
  fun x hx => h x ⟨hx.2, hx.1⟩

namespace TidyAreas

variable {p q : Process} {i : Fin nvma} {v : Vma} {addr len x : Word}

lemma unique (h : TidyAreas p) (hi : (p.vmArea i).used = true) (hj : (p.vmArea j).used = true)
    (hxi : Contains (p.vmArea i) x) (hxj : Contains (p.vmArea j) x) : i = j := by
  by_contra hne
  exact h.apart i j hne hi hj x ⟨hxi, hxj⟩

lemma setArea (h : TidyAreas p) (hv : v.used = true → Tidy v)
    (hapart : v.used = true → ∀ j, j ≠ i → (p.vmArea j).used = true → Apart v (p.vmArea j)) :
    TidyAreas (Process.setArea p i v) where
  tidy j hj := by
    by_cases hji : j = i
    · subst hji
      rw [setArea_self] at hj ⊢
      exact hv hj
    · rw [setArea_of_ne hji] at hj ⊢
      exact h.tidy j hj
  apart j k hjk hj hk := by
    by_cases hji : j = i
    · subst hji
      rw [setArea_self] at hj ⊢
      rw [setArea_of_ne hjk.symm] at hk ⊢
      exact hapart hj k hjk.symm hk
    · by_cases hki : k = i
      · subst hki
        rw [setArea_self] at hk ⊢
        rw [setArea_of_ne hji] at hj ⊢
        exact (hapart hk j hji hj).symm
      · rw [setArea_of_ne hji] at hj ⊢
        rw [setArea_of_ne hki] at hk ⊢
        exact h.apart j k hjk hj hk

lemma cut (h : TidyAreas p) (hv : v.used = true → Tidy v)
    (hin : Within v (p.vmArea i)) : TidyAreas (Process.setArea p i v) := by
  refine h.setArea hv fun hused j hj hjused x ⟨hxv, hxj⟩ => ?_
  obtain ⟨hiused, hsub⟩ := hin hused
  exact h.apart i j hj.symm hiused hjused x ⟨hsub x hxv, hxj⟩

lemma congr (h : TidyAreas p) (he : q.vmArea = p.vmArea) : TidyAreas q :=
  ⟨by rw [he]; exact h.tidy, by rw [he]; exact h.apart⟩

end TidyAreas

lemma find_area (hi : f i = true)
    (huniq : ∀ j, f j = true → j = i) : (List.finRange nvma).find? f = some i := by
  obtain ⟨j, hj⟩ := isSome_iff_exists.mp
    (List.find?_isSome.mpr ⟨i, List.mem_finRange i, hi⟩)
  rw [hj, huniq j (List.find?_some hj)]

lemma tidyAreas_of_unused (h : ∀ i, (p.vmArea i).used = false) : TidyAreas p :=
  ⟨fun i hi => by simp [h i] at hi, fun i _ _ hi => by simp [h i] at hi⟩

/-! ## Lengths -/

section Lengths

variable {addr len : Word}

lemma pgRoundUp_eq_pages (h : len.toNat ≤ 2 ^ 64 - 4096) :
    (pgRoundUp len).toNat = 4096 * pagesOf len := by
  rw [pgRoundUp_toNat, pagesOf]
  omega

lemma aligned_iff : addr &&& 4095#64 = 0#64 ↔ addr.toNat % 4096 = 0 := by
  have hmask : (4095#64).toNat = 2 ^ 12 - 1 := rfl
  rw [toNat_eq, toNat_and, hmask, Nat.and_two_pow_sub_one_eq_mod]
  rfl

end Lengths

/-! ## New areas -/

lemma Vma.Tidy.newArea (hbottom : bottom ≤ userVaTop) (hstack : p.stackBottom ≤ userVaTop)
    (hlen : a.len.toNat ≤ 2 ^ 64 - 4096) (hcheck : mmapCheck p a = .ok file)
    (hfit : FitsBelow bottom (pgRoundUp a.len)) (hfirst : FirstFit p (pgRoundUp a.len) start) :
    Tidy (newArea a file start) := by
  have htop : userVaTop.toNat = 2 ^ 38 := rfl
  have hstart : mmapStart.toNat = 0x4000000 := rfl
  have hpos := len_pos_of_mmapCheck hcheck
  have hround := pgRoundUp_eq_pages hlen
  have hfits := hfit.2
  have hbelow := hfirst.below
  obtain ⟨k, hk, hcand, -⟩ := hfirst.least
  have hnat : start.toNat = mmapStart.toNat + 4096 * k := by
    rw [hcand, candidate_toNat (Nat.le_of_lt hk)]
  have hmin := hfit.1
  rw [le_def] at hbottom hstack hfits hmin
  rw [lt_def] at hbelow
  rw [toNat_sub_of_le hfit.1, hround] at hfits
  have hsum : (start + pgRoundUp a.len).toNat = start.toNat + 4096 * pagesOf a.len := by
    rw [toNat_add, hround, Nat.mod_eq_of_lt (by omega)]
  have hpages : 0 < pagesOf a.len := by
    rw [pagesOf]
    omega
  refine ⟨?_, ?_, ?_, ?_, ?_⟩ <;> simp only [Kernel.newArea, hsum] <;> omega

lemma TidyAreas.mmap (h : TidyAreas p)
    (hbottom : bottom ≤ userVaTop) (hstack : p.stackBottom ≤ userVaTop)
    (hlen : a.len.toNat ≤ 2 ^ 64 - 4096) (hok : doMmap bottom p a = .ok (start, q)) :
    TidyAreas q := by
  obtain ⟨file, i, hcheck, hfit, hfirst, -, rfl⟩ := doMmap_eq_ok.mp hok
  refine h.setArea (fun _ => .newArea hbottom hstack hlen hcheck hfit hfirst) fun _ j _ hj => ?_
  exact apart_of_not_clashes hfirst.free hj rfl rfl

/-! ## Cutting -/

/-- The range is a whole area or one end of it. -/
structure Edge (v : Vma) (addr len : Word) : Prop where
  used : v.used = true
  inside : v.vaStart.toNat ≤ addr.toNat ∧ addr.toNat + 4096 * pagesOf len ≤ v.vaEnd.toNat
  edge : addr.toNat = v.vaStart.toNat ∨ addr.toNat + 4096 * pagesOf len = v.vaEnd.toNat

/-- The requests `do_munmap` carries out: whole pages at an end of an area. -/
structure Cuts (p : Process) (addr len : Word) : Prop where
  aligned : addr.toNat % 4096 = 0
  pos : 0 < len.toNat
  area : ∃ i, Edge (p.vmArea i) addr len

section Cut

variable {p q : Process} {addr len : Word} {i : Fin nvma}

lemma toNat_stop (h : Tidy (p.vmArea i)) (he : Edge (p.vmArea i) addr len) (hpos : 0 < len.toNat) :
    (pgRoundUp len).toNat = 4096 * pagesOf len ∧
      (addr + pgRoundUp len).toNat = addr.toNat + 4096 * pagesOf len := by
  have hin := he.inside.2
  have hhigh := h.high
  have hround : (pgRoundUp len).toNat = 4096 * pagesOf len := by
    refine pgRoundUp_eq_pages ?_
    rw [pagesOf] at hin
    omega
  refine ⟨hround, ?_⟩
  rw [toNat_add, hround]
  omega

lemma TidyAreas.overlappingSlot (h : TidyAreas p) (he : Edge (p.vmArea i) addr len)
    (hpos : 0 < len.toNat) : overlappingSlot p addr (pgRoundUp len) = some i := by
  have ht := h.tidy i he.used
  obtain ⟨hround, hstop⟩ := toNat_stop ht he hpos
  have hlow := ht.low
  have hin := he.inside
  have hpages : 0 < pagesOf len := by
    rw [pagesOf]
    omega
  have hstart : mmapStart.toNat = 0x4000000 := rfl
  have hne : addr ≠ 0#64 := by
    rintro rfl
    have : (0#64).toNat = 0 := rfl
    omega
  have hover : (p.vmArea i).overlaps addr (pgRoundUp len) = true := by
    simp only [Vma.overlaps, he.used, Bool.true_and, Bool.and_eq_true, decide_eq_true_eq,
      lt_def, hstop]
    omega
  rw [Kernel.overlappingSlot, if_pos hne]
  refine find_area hover fun j hj => ?_
  -- an overlapping area has an address in common with the area of the range
  simp only [Vma.overlaps, Bool.and_eq_true, decide_eq_true_eq, lt_def, hstop] at hj
  obtain ⟨hused, hend, hbegin⟩ := hj
  have htj := h.tidy j hused
  by_cases hle : (p.vmArea j).vaStart.toNat ≤ addr.toNat
  · refine h.unique (x := addr) hused he.used ⟨hle, hend⟩ ⟨hin.1, ?_⟩
    rw [lt_def]
    omega
  · refine h.unique (x := (p.vmArea j).vaStart) hused he.used
      ⟨BitVec.le_refl _, htj.nonempty⟩ (contains_iff.mpr ⟨by omega, by omega⟩)

lemma TidyAreas.doMunmap_of_edge (h : TidyAreas p) (ha : addr.toNat % 4096 = 0)
    (hpos : 0 < len.toNat) (he : Edge (p.vmArea i) addr len) : doMunmap p addr len =
      .ok (Process.setArea p i (Vma.cut (p.vmArea i) addr (addr + pgRoundUp len))) := by
  have hslot := h.overlappingSlot he hpos
  have ht := h.tidy i he.used
  obtain ⟨hround, hstop⟩ := toNat_stop ht he hpos
  have hin := he.inside
  have hlow := ht.low
  have hstart : mmapStart.toNat = 0x4000000 := rfl
  have hzero : (0#64).toNat = 0 := rfl
  have h1 : ¬addr &&& 4095#64 ≠ 0#64 := not_not.mpr (aligned_iff.mpr ha)
  have h2 : ¬(addr = 0#64 ∨ len = 0#64) := by
    rintro (rfl | rfl) <;> omega
  have h3 : ¬(addr < (p.vmArea i).vaStart ∨ (p.vmArea i).vaEnd < addr + pgRoundUp len) := by
    rw [lt_def, lt_def, hstop]
    omega
  have h4 : ¬((p.vmArea i).vaStart < addr ∧ addr + pgRoundUp len < (p.vmArea i).vaEnd) := by
    have hedge := he.edge
    rw [lt_def, lt_def, hstop]
    omega
  simp only [doMunmap, if_neg h1, if_neg h2, hslot, if_neg h3, if_neg h4]
  by_cases hboth : addr = (p.vmArea i).vaStart ∧ addr + pgRoundUp len = (p.vmArea i).vaEnd
  · rw [if_pos hboth, Vma.cut, if_pos hboth]
  · rw [if_neg hboth, Vma.cut, if_neg hboth]
    by_cases hhead : addr = (p.vmArea i).vaStart
    · rw [if_pos hhead, if_pos hhead]
    · have htail : addr + pgRoundUp len = (p.vmArea i).vaEnd := by
        refine eq_of_toNat_eq ?_
        rw [hstop]
        refine he.edge.resolve_left fun hc => hhead (eq_of_toNat_eq hc)
      rw [if_neg hhead, if_neg hhead, if_pos htail]

lemma cuts_of_doMunmap (hok : doMunmap p addr len = .ok q) : Cuts p addr len := by
  obtain ⟨ha, hz, i, hslot, hin, hle, hedge, -⟩ := doMunmap_cases hok
  obtain ⟨hused, hend, hstart⟩ := overlaps_of_overlappingSlot hslot
  have hpos : 0 < len.toNat := Nat.pos_of_ne_zero fun hc => hz (eq_of_toNat_eq hc)
  simp only [lt_def, le_def, toNat_eq] at hend hstart hin hle hedge
  -- the range does not wrap: one that wraps lies strictly inside the area
  have hsum : (addr + pgRoundUp len).toNat = addr.toNat + (pgRoundUp len).toNat := by
    have hadd := toNat_add addr (pgRoundUp len)
    have hlt := addr.isLt
    have hround := (pgRoundUp len).isLt
    omega
  rw [hsum] at hstart hle hedge
  have hpages : (pgRoundUp len).toNat = 4096 * pagesOf len := by
    refine pgRoundUp_eq_pages ?_
    by_contra hgt
    have hzero := toNat_pgRoundUp_of_gt (Nat.lt_of_not_le hgt)
    omega
  rw [hpages] at hle hedge
  exact ⟨aligned_iff.mp ha, hpos, i, hused, ⟨hin, hle⟩, hedge⟩

lemma TidyAreas.doMunmap_iff (h : TidyAreas p) :
    (∃ q, doMunmap p addr len = .ok q) ↔ Cuts p addr len := by
  constructor
  · intro ⟨q, hok⟩
    exact cuts_of_doMunmap hok
  · intro ⟨ha, hpos, i, he⟩
    exact ⟨_, h.doMunmap_of_edge ha hpos he⟩

variable {stop x : Word} {v : Vma}

lemma Vma.contains_cut (hin : v.vaStart ≤ addr)
    (hle : stop ≤ v.vaEnd) (hlt : addr < stop) (hedge : addr = v.vaStart ∨ stop = v.vaEnd)
    (hused : v.used = true) : (cut v addr stop).used = true ∧ Contains (cut v addr stop) x ↔
      Contains v x ∧ ¬(addr ≤ x ∧ x < stop) := by
  simp only [contains_iff, le_def, lt_def, cut] at *
  by_cases hboth : addr = v.vaStart ∧ stop = v.vaEnd
  · obtain ⟨rfl, rfl⟩ := hboth
    simp
  · rw [if_neg hboth]
    by_cases hhead : addr = v.vaStart
    · subst hhead
      simp only [if_true, hused, true_and]
      omega
    · obtain rfl : stop = v.vaEnd := hedge.resolve_left hhead
      simp only [if_neg hhead, hused, true_and]
      omega

lemma Vma.Tidy.cut (h : Tidy v) (ha : addr.toNat % 4096 = 0)
    (hs : stop.toNat % 4096 = 0) (hin : v.vaStart ≤ addr) (hle : stop ≤ v.vaEnd)
    (hlt : addr < stop) (hused : (cut v addr stop).used = true) : Tidy (cut v addr stop) := by
  obtain ⟨h1, h2, h3, h4, h5⟩ := h
  simp only [le_def, lt_def] at hin hle hlt
  unfold Vma.cut at hused ⊢
  split
  · rename_i hboth
    simp [hboth] at hused
  · rename_i hboth
    split
    · rename_i hhead
      have hne : stop.toNat ≠ v.vaEnd.toNat := fun hc => hboth ⟨hhead, eq_of_toNat_eq hc⟩
      exact ⟨hs, h2, by simp only; omega, by simp only; omega, h5⟩
    · rename_i hhead
      have hne : addr.toNat ≠ v.vaStart.toNat := fun hc => hhead (eq_of_toNat_eq hc)
      exact ⟨h1, ha, h3, by simp only; omega, by simp only; omega⟩

lemma Vma.offset_cut (hf : v.file = some f) : (cut v addr stop).offset x = v.offset x := by
  unfold Vma.cut Vma.offset
  split
  · rfl
  split
  · simp only [hf, isSome_some, if_true]
    grind
  · rfl

/-- `find_overlapping_vma` finds the area of the page of an address. -/
lemma TidyAreas.findOverlappingVma (h : TidyAreas p) (hi : (p.vmArea i).used = true)
    (hx : Contains (p.vmArea i) x) :
    findOverlappingVma p (pgRoundDown x) 4096#64 = some (p.vmArea i) := by
  have hpage := pgRoundDown_toNat x
  have hmin : mmapStart.toNat = 0x4000000 := rfl
  have hword : (4096#64).toNat = 4096 := rfl
  have hmem : ∀ j, (p.vmArea j).overlaps (pgRoundDown x) 4096#64 = true ↔
      (p.vmArea j).used = true ∧ Contains (p.vmArea j) x := by
    intro j
    simp only [Vma.overlaps, Bool.and_eq_true, decide_eq_true_eq, and_congr_right_iff]
    intro hj
    obtain ⟨h1, h2, h3, h4, h5⟩ := h.tidy j hj
    have hlt := x.isLt
    have hadd := toNat_add (pgRoundDown x) 4096#64
    rw [contains_iff, lt_def, lt_def]
    omega
  have hne : pgRoundDown x ≠ 0 := by
    intro hc
    have hz : (pgRoundDown x).toNat = 0 := by rw [hc]; rfl
    have hlow := (h.tidy i hi).low
    rw [contains_iff] at hx
    omega
  rw [FrostVista.findOverlappingVma, if_pos hne, find_area ((hmem i).mpr ⟨hi, hx⟩), map_some]
  intro j hj
  obtain ⟨hj, hxj⟩ := (hmem j).mp hj
  exact h.unique hj hi hxj hx

/-- What a successful `do_munmap` does to the table: the covered addresses lose exactly the range,
and a fault at an address that is left reads the same file at the same offset. -/
lemma TidyAreas.munmap (h : TidyAreas p) (hok : doMunmap p addr len = .ok q) :
    TidyAreas q ∧ (∀ x, Covered q x ↔ Covered p x ∧ ¬InRange addr len x) ∧
      ∀ x, Covered q x → faultRead q x = faultRead p x := by
  obtain ⟨ha, hpos, i, he⟩ := cuts_of_doMunmap hok
  have ht := h.tidy i he.used
  obtain ⟨-, hstop⟩ := toNat_stop ht he hpos
  rw [h.doMunmap_of_edge ha hpos he, Except.ok.injEq] at hok
  subst hok
  generalize hs : addr + pgRoundUp len = stop at hstop ⊢
  have hpages : 0 < pagesOf len := by
    rw [pagesOf]
    omega
  have hin : (p.vmArea i).vaStart ≤ addr := he.inside.1
  have hle : stop ≤ (p.vmArea i).vaEnd := by
    rw [le_def, hstop]
    exact he.inside.2
  have hlt : addr < stop := by
    rw [lt_def, hstop]
    omega
  have hedge : addr = (p.vmArea i).vaStart ∨ stop = (p.vmArea i).vaEnd := by
    refine he.edge.imp (fun hc => eq_of_toNat_eq hc) fun hc => eq_of_toNat_eq ?_
    rw [hstop, hc]
  have hrange : ∀ x, InRange addr len x ↔ addr ≤ x ∧ x < stop := by
    intro x
    rw [InRange, le_def, lt_def, hstop]
  have hcut := fun x => contains_cut (x := x) hin hle hlt hedge he.used
  have htidy : TidyAreas (Process.setArea p i (Vma.cut (p.vmArea i) addr stop)) := by
    refine h.cut (ht.cut ha (by omega) hin hle hlt) fun hused => ⟨he.used, fun x hx => ?_⟩
    exact ((hcut x).mp ⟨hused, hx⟩).1
  -- an address that is left lies in what is left of the same area
  have hleft : ∀ x j, ((Process.setArea p i (Vma.cut (p.vmArea i) addr stop)).vmArea j).used =
    true ∧
      Vma.Contains ((Process.setArea p i (Vma.cut (p.vmArea i) addr stop)).vmArea j) x ↔
      ((p.vmArea j).used = true ∧ Contains (p.vmArea j) x) ∧ ¬(addr ≤ x ∧ x < stop) := by
    intro x j
    by_cases hj : j = i
    · subst hj
      rw [setArea_self, hcut x, he.used]
      simp
    · rw [setArea_of_ne hj]
      refine ⟨fun hx => ⟨hx, fun hr => hj ?_⟩, And.left⟩
      exact h.unique hx.1 he.used hx.2
        ⟨BitVec.le_trans hin hr.1, Nat.lt_of_lt_of_le hr.2 hle⟩
  refine ⟨htidy, fun x => ?_, ?_⟩
  · simp only [Covered, hleft, hrange, exists_and_right]
  · rintro x ⟨j, hx⟩
    obtain ⟨⟨hused, hcont⟩, -⟩ := (hleft x j).mp hx
    rw [faultRead, faultRead, htidy.findOverlappingVma hx.1 hx.2, h.findOverlappingVma hused hcont]
    simp only [bind_some]
    by_cases hj : j = i
    · subst hj
      rw [setArea_self]
      cases hf : (p.vmArea j).file with
      | none => simp [file_cut, hf]
      | some f => simp [file_cut, hf, offset_cut hf]
    · rw [setArea_of_ne hj]

end Cut

end FrostVista.Kernel
