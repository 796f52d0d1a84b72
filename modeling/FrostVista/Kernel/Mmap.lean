import FrostVista.Kernel.Process
import FrostVista.Riscv.Pte

/-!
# Creating and removing mappings

`do_mmap` and `do_munmap` of `kernel/mm/mmap.c` as functions on the process control block: the
checks of the arguments, the search for a free range and the changes to the table of areas. A search
starts at `used_addr`, which no function changes, and ends at the stack of the process. The check of
the length before it looks at the stack of the first process of the table, because the local `proc`
is declared after it.
-/
namespace FrostVista.Kernel

open Riscv Function List BitVec Nat

/-- `MMAP_START` and the initial value of `used_addr` -/
def mmapStart : Word := 0x4000000#64

def Process.setArea (p : Process) (i : Fin nvma) (v : Vma) : Process :=
  { p with vmArea := Function.update p.vmArea i v }

open Kernel.Process (setArea)

def findFreeVmaSlot (p : Process) : Option (Fin nvma) :=
  (List.finRange nvma).find? fun i => !(p.vmArea i).used

def allocVma (p : Process) (start stop : Word) : Option (Fin nvma × Process) :=
  (findFreeVmaSlot p).map fun i =>
    (i, Process.setArea p i { Vma.zero with used := true, vaStart := start, vaEnd := stop })

/-- Some area in use overlaps the range. -/
def clashes (p : Process) (addr len : Word) : Bool :=
  (List.finRange nvma).any fun j => (p.vmArea j).overlaps addr len

/-- The search of `find_free_range` from an address on. -/
def searchRange (p : Process) (len : Word) : Nat → Word → Option (Fin nvma × Process)
  | 0, _ => none
  | fuel + 1, faddr =>
    if faddr < p.stackBottom then
      if clashes p faddr len then searchRange p len fuel (faddr + 4096#64)
      else allocVma p faddr (faddr + len)
    else none

/-- The pages below `USER_VA_TOP`. -/
def userPages : Nat := 2 ^ 26

/-- `find_free_range`; `bottom` is `proc[0].stack_bottom`. -/
def findFreeRange (bottom : Word) (p : Process) (len : Word) : Option (Fin nvma × Process) :=
  if bottom < mmapStart ∨ bottom - mmapStart < len then none
  else searchRange p len userPages mmapStart

def prot2pte (prot : BitVec 32) : Word :=
  if prot = 0#32 then 0#64
  else
    permUser ||| (if prot &&& 1#32 ≠ 0#32 then permRead else 0#64) |||
      (if prot &&& 2#32 ≠ 0#32 then permWrite else 0#64) |||
      (if prot &&& 4#32 ≠ 0#32 then permExec else 0#64)

structure MmapArgs where
  addr : Word
  len : Word
  prot : BitVec 32
  flags : BitVec 32
  fd : BitVec 32
  offset : Word

/-- The checks of `do_mmap` before the search; the file of the new area, if it has one. -/
def mmapCheck (p : Process) (a : MmapArgs) : Except Int (Option Nat) :=
  if a.addr ≠ 0#64 then .error eOpNotSupp
  else if prot2pte a.prot = 0#64 then .error eInval
  else if a.offset &&& 4095#64 ≠ 0#64 then .error eInval
  else if a.len = 0#64 then .error eInval
  else if a.flags &&& 0xf#32 ≠ 2#32 then .error eOpNotSupp
  else if a.flags &&& 0x20#32 ≠ 0#32 then
    if a.fd ≠ BitVec.ofInt 32 (-1) ∨ a.offset ≠ 0#64 then .error eInval else .ok none
  else if a.fd.toInt < 0 ∨ (nofile : Int) ≤ a.fd.toInt then .error eBadf
  else if a.prot &&& 2#32 ≠ 0#32 then .error eOpNotSupp
  else
    match p.ofile a.fd.toNat with
    | none => .error eBadf
    | some f => .ok (some f)

/-- `do_mmap`: an error number, or the address and the process with the new area. -/
def doMmap (bottom : Word) (p : Process) (a : MmapArgs) : Except Int (Word × Process) :=
  match mmapCheck p a with
  | .error e => .error e
  | .ok file =>
    match findFreeRange bottom p (pgRoundUp a.len) with
    | none => .error eNoMem
    | some (i, q) =>
      let v := { q.vmArea i with
        file := file
        fileOffset := a.offset
        flags := a.flags.signExtend 64
        vmPageProt := prot2pte a.prot }
      .ok (v.vaStart, Process.setArea q i v)

/-! ## The search -/

/-- The `k`-th address the search looks at. -/
def candidate (k : Nat) : Word := mmapStart + BitVec.ofNat 64 (4096 * k)

lemma candidate_succ (k : Nat) : candidate k + 4096#64 = candidate (k + 1) := by
  rw [candidate, candidate, Nat.mul_succ, BitVec.ofNat_add, ← BitVec.add_assoc]

variable {k : Nat} {i j : Fin nvma} {p q : Process} {bottom len start : Word} {a : MmapArgs}
  {file : Option Nat}

lemma candidate_toNat (hk : k ≤ userPages) : (candidate k).toNat = mmapStart.toNat + 4096 * k := by
  have hstart : mmapStart.toNat = 0x4000000 := rfl
  have hpages : userPages = 0x4000000 := rfl
  rw [candidate, toNat_add, toNat_ofNat]
  omega

/-- The address is the lowest one of the search at which the range is free. -/
structure FirstFit (p : Process) (len a : Word) : Prop where
  free : clashes p a len = false
  below : a < p.stackBottom
  least : ∃ k < userPages, a = candidate k ∧ ∀ j < k, clashes p (candidate j) len = true

section Search

variable {p : Process} {len a : Word}

lemma FirstFit.above (h : FirstFit p len a) : mmapStart ≤ a := by
  obtain ⟨k, hk, rfl, -⟩ := h.least
  rw [le_def, candidate_toNat (le_of_lt hk)]
  omega

lemma searchRange_of_firstFit (h : FirstFit p len a) :
    searchRange p len userPages mmapStart = allocVma p a (a + len) := by
  obtain ⟨k, hk, rfl, hclash⟩ := h.least
  have hfrom : ∀ n j fuel, j + n = k → n < fuel →
      searchRange p len fuel (candidate j) =
        allocVma p (candidate k) (candidate k + len) := by
    intro n
    induction n with
    | zero =>
      intro j fuel hj hfuel
      obtain rfl : j = k := hj
      obtain ⟨fuel, rfl⟩ : ∃ m, fuel = m + 1 := ⟨fuel - 1, by omega⟩
      simp [searchRange, h.below, h.free]
    | succ n ih =>
      intro j fuel hj hfuel
      obtain ⟨fuel, rfl⟩ : ∃ m, fuel = m + 1 := ⟨fuel - 1, by omega⟩
      have hbelow : candidate j < p.stackBottom := by
        have hlt := h.below
        rw [lt_def, candidate_toNat (by omega)] at hlt ⊢
        omega
      simp only [searchRange, if_pos hbelow, hclash j (by omega), if_true, candidate_succ]
      exact ih (j + 1) fuel (by omega) (by omega)
  have hstart : candidate 0 = mmapStart := by simp [candidate]
  have := hfrom k 0 userPages (by omega) hk
  rwa [hstart] at this

lemma firstFit_of_searchRange
    (h : searchRange p len userPages mmapStart = some r) : ∃ a, FirstFit p len a := by
  have hfrom : ∀ fuel j, fuel + j = userPages → (∀ i < j, clashes p (candidate i) len = true) →
      searchRange p len fuel (candidate j) = some r → ∃ a, FirstFit p len a := by
    intro fuel
    induction fuel with
    | zero =>
      intro j _ _ h
      cases h
    | succ fuel ih =>
      intro j hj hclash h
      simp only [searchRange] at h
      by_cases hbelow : candidate j < p.stackBottom
      · rw [if_pos hbelow] at h
        by_cases hc : clashes p (candidate j) len = true
        · rw [if_pos hc, candidate_succ] at h
          refine ih (j + 1) (by omega) (fun i hi => ?_) h
          obtain rfl | hlt := eq_or_lt_of_le (le_of_lt_succ hi)
          · exact hc
          · exact hclash i hlt
        · exact ⟨candidate j, by simpa using hc, hbelow, j, by omega, rfl, hclash⟩
      · rw [if_neg hbelow] at h
        cases h
  have hstart : candidate 0 = mmapStart := by simp [candidate]
  exact hfrom userPages 0 (by omega) (by simp) (by rwa [hstart])

end Search

/-! ## The new area -/

/-- The length passes the check against the first process of the table. -/
def FitsBelow (bottom len : Word) : Prop := mmapStart ≤ bottom ∧ len ≤ bottom - mmapStart

/-- The area that `do_mmap` creates. -/
def newArea (a : MmapArgs) (file : Option Nat) (start : Word) : Vma where
  used := true
  vaStart := start
  vaEnd := start + pgRoundUp a.len
  flags := a.flags.signExtend 64
  fileOffset := a.offset
  vmPageProt := prot2pte a.prot
  file := file

lemma setArea_setArea (p : Process) (i : Fin nvma) (v w : Vma) :
    setArea (setArea p i v) i w = setArea p i w := by
  simp [setArea]

lemma setArea_self (p : Process) (i : Fin nvma) (v : Vma) :
    (setArea p i v).vmArea i = v := update_self ..

lemma setArea_of_ne (h : j ≠ i) (v : Vma) :
    (setArea p i v).vmArea j = p.vmArea j := update_of_ne h ..

lemma findFreeRange_eq_some :
    findFreeRange bottom p len = some (i, q) ↔ FitsBelow bottom len ∧ ∃ a, FirstFit p len a ∧
      allocVma p a (a + len) = some (i, q) := by
  have hfit : ¬(bottom < mmapStart ∨ bottom - mmapStart < len) ↔ FitsBelow bottom len := by
    simp [FitsBelow]
  by_cases hf : FitsBelow bottom len
  · rw [findFreeRange, if_neg (hfit.mpr hf), and_iff_right hf]
    constructor
    · intro h
      obtain ⟨a, ha⟩ := firstFit_of_searchRange h
      exact ⟨a, ha, (searchRange_of_firstFit ha).symm.trans h⟩
    · intro ⟨a, ha, h⟩
      exact (searchRange_of_firstFit ha).trans h
  · rw [findFreeRange, if_pos (not_not.mp fun h => hf (hfit.mp h))]
    simp [hf]

lemma doMmap_eq_ok : doMmap bottom p a = .ok (start, q) ↔ ∃ file i, mmapCheck p a = .ok file ∧
      FitsBelow bottom (pgRoundUp a.len) ∧ FirstFit p (pgRoundUp a.len) start ∧
      findFreeVmaSlot p = some i ∧ q = setArea p i (newArea a file start) := by
  constructor
  · intro h
    unfold doMmap at h
    cases hcheck : mmapCheck p a with
    | error e =>
      rw [hcheck] at h
      cases h
    | ok file =>
      cases hrange : findFreeRange bottom p (pgRoundUp a.len) with
      | none =>
        rw [hcheck, hrange] at h
        cases h
      | some r =>
        obtain ⟨hfit, start', hfirst, halloc⟩ := findFreeRange_eq_some.mp hrange
        obtain ⟨i, hslot, hr⟩ := Option.map_eq_some_iff.mp halloc
        rw [hcheck, hrange, ← show (i, _) = r from hr] at h
        simp only [setArea_self, setArea_setArea, Except.ok.injEq, Prod.mk.injEq] at h
        obtain ⟨rfl, rfl⟩ := h
        exact ⟨file, i, rfl, hfit, hfirst, hslot, rfl⟩
  · intro ⟨file, i, hcheck, hfit, hfirst, hslot, hq⟩
    have halloc : allocVma p start (start + pgRoundUp a.len) = some (i, _) :=
      congrArg (Option.map _) hslot
    have hrange := findFreeRange_eq_some.mpr ⟨hfit, start, hfirst, halloc⟩
    rw [doMmap, hcheck, hrange, hq]
    simp only [setArea_self, setArea_setArea]
    rfl

def Vma.Contains (v : Vma) (x : Word) : Prop := v.vaStart ≤ x ∧ x < v.vaEnd

def Vma.Apart (v w : Vma) : Prop := ∀ x, ¬(Vma.Contains v x ∧ Vma.Contains w x)

/-- Area `i` of `q` is new, large enough, between `MMAP_START` and the stack, and apart from all
other areas. -/
structure Placed (p : Process) (len start : Word) (q : Process) (i : Fin nvma) : Prop where
  fresh : (p.vmArea i).used = false
  used : (q.vmArea i).used = true
  others : ∀ j, j ≠ i → q.vmArea j = p.vmArea j
  begins : (q.vmArea i).vaStart = start
  large : len.toNat ≤ (q.vmArea i).vaEnd.toNat - start.toNat
  pos : 0 < len.toNat
  above : mmapStart ≤ start
  below : (q.vmArea i).vaEnd ≤ p.stackBottom
  apart : ∀ j, j ≠ i → (q.vmArea j).used = true → Vma.Apart (q.vmArea i) (q.vmArea j)

lemma findFreeVmaSlot_fresh (h : findFreeVmaSlot p = some i) : (p.vmArea i).used = false := by
  simpa using find?_some h

lemma len_pos_of_mmapCheck (h : mmapCheck p a = .ok file) : 0 < a.len.toNat := by
  refine pos_of_ne_zero fun hz => ?_
  have hzero : a.len = 0#64 := eq_of_toNat_eq hz
  simp only [mmapCheck, hzero, if_true] at h
  repeat' split at h
  all_goals cases h

lemma apart_of_not_clashes (h : clashes p start len = false) (hj : (p.vmArea j).used = true)
    (hstart : v.vaStart = start) (hend : v.vaEnd = start + len) : Vma.Apart v (p.vmArea j) := by
  have hover : (p.vmArea j).overlaps start len = false := by
    have := any_eq_false.mp h j (mem_finRange j)
    simpa using this
  intro x ⟨⟨hvx, hxv⟩, hwx, hxw⟩
  rw [hstart] at hvx
  rw [hend] at hxv
  simp only [Vma.overlaps, hj, Bool.true_and, Bool.and_eq_false_iff, decide_eq_false_iff_not,
    le_def, lt_def] at *
  omega

lemma toNat_pgRoundUp_of_le (h : len.toNat ≤ 2 ^ 64 - 4096) :
    len.toNat ≤ (pgRoundUp len).toNat := by
  rw [pgRoundUp_toNat, mod_eq_of_lt (by omega)]
  omega

lemma toNat_pgRoundUp_of_gt (h : 2 ^ 64 - 4096 < len.toNat) : (pgRoundUp len).toNat = 0 := by
  have := len.isLt
  rw [pgRoundUp_toNat]
  omega

lemma placed_of_firstFit (hcheck : mmapCheck p a = .ok file)
    (hfirst : FirstFit p (pgRoundUp a.len) start) (hslot : findFreeVmaSlot p = some i)
    (hlen : a.len.toNat ≤ 2 ^ 64 - 4096)
    (hend : start.toNat + (pgRoundUp a.len).toNat ≤ p.stackBottom.toNat) :
    Placed p a.len start (setArea p i (newArea a file start)) i := by
  have hword := p.stackBottom.isLt
  have hsum : (start + pgRoundUp a.len).toNat = start.toNat + (pgRoundUp a.len).toNat := by
    rw [toNat_add, mod_eq_of_lt (by omega)]
  have hround := toNat_pgRoundUp_of_le hlen
  refine ⟨findFreeVmaSlot_fresh hslot, by rw [setArea_self]; rfl, fun j hj => setArea_of_ne hj _,
    by rw [setArea_self]; rfl, ?_, len_pos_of_mmapCheck hcheck, hfirst.above, ?_, ?_⟩
  · rw [setArea_self, newArea, hsum]
    omega
  · rw [setArea_self, newArea, le_def, hsum]
    exact hend
  · intro j hj hused
    rw [setArea_of_ne hj] at hused ⊢
    rw [setArea_self]
    exact apart_of_not_clashes hfirst.free hused rfl rfl

/-- `do_mmap` places every area well if and only if no accepted length rounds up to zero and the
first free range for an accepted length ends below the stack. -/
theorem doMmap_placed_iff (bottom : Word) (p : Process) (a : MmapArgs) :
    (∀ start q, doMmap bottom p a = .ok (start, q) → ∃ i, Placed p a.len start q i) ↔
      ((∃ file, mmapCheck p a = .ok file) → FitsBelow bottom (pgRoundUp a.len) →
        (∃ i, (p.vmArea i).used = false) → ∀ start, FirstFit p (pgRoundUp a.len) start →
        a.len.toNat ≤ 2 ^ 64 - 4096 ∧
          start.toNat + (pgRoundUp a.len).toNat ≤ p.stackBottom.toNat) := by
  constructor
  · intro h ⟨file, hcheck⟩ hfit ⟨j, hj⟩ start hfirst
    obtain ⟨i, hslot⟩ : ∃ i, findFreeVmaSlot p = some i := by
      refine Option.isSome_iff_exists.mp (find?_isSome.mpr ⟨j, mem_finRange j, ?_⟩)
      simp [hj]
    obtain ⟨i', hplaced⟩ :=
      h start _ (doMmap_eq_ok.mpr ⟨file, i, hcheck, hfit, hfirst, hslot, rfl⟩)
    -- only area `i` has changed, so it is the one that is placed
    obtain rfl : i' = i := by
      by_contra hne
      have hused := hplaced.used
      rw [setArea_of_ne hne, hplaced.fresh] at hused
      cases hused
    have hlarge := hplaced.large
    have hbelow := hplaced.below
    have hpos := hplaced.pos
    rw [setArea_self, newArea] at hlarge
    rw [setArea_self, newArea, le_def] at hbelow
    have hlen : a.len.toNat ≤ 2 ^ 64 - 4096 := by
      by_contra hgt
      have hzero := toNat_pgRoundUp_of_gt (Nat.lt_of_not_le hgt)
      rw [toNat_add, hzero, add_zero, mod_eq_of_lt start.isLt] at hlarge
      omega
    refine ⟨hlen, ?_⟩
    rw [toNat_add] at hlarge hbelow
    have h1 := start.isLt
    have h2 := (pgRoundUp a.len).isLt
    omega
  · intro h start q hok
    obtain ⟨file, i, hcheck, hfit, hfirst, hslot, rfl⟩ := doMmap_eq_ok.mp hok
    obtain ⟨hlen, hend⟩ := h ⟨file, hcheck⟩ hfit ⟨i, findFreeVmaSlot_fresh hslot⟩ start hfirst
    exact ⟨i, placed_of_firstFit hcheck hfirst hslot hlen hend⟩

lemma firstFit_behind (hk : k < userPages)
    (hused : (p.vmArea i).used = true) (hstart : (p.vmArea i).vaStart = mmapStart)
    (hend : (p.vmArea i).vaEnd = candidate k) (hpos : 0 < len.toNat) (hlen : len.toNat < 2 ^ 63)
    (hfree : clashes p (candidate k) len = false) (hbelow : candidate k < p.stackBottom) :
    FirstFit p len (candidate k) := by
  refine ⟨hfree, hbelow, k, hk, rfl, fun j hj => ?_⟩
  have hnat := candidate_toNat (k := j) (by omega)
  have hnat' := candidate_toNat (le_of_lt hk)
  have hmin : mmapStart.toNat = 0x4000000 := rfl
  have hpages : userPages = 0x4000000 := rfl
  have hadd : (candidate j + len).toNat = (candidate j).toNat + len.toNat := by
    rw [toNat_add, mod_eq_of_lt (by omega)]
  have hover : (p.vmArea i).overlaps (candidate j) len = true := by
    simp only [Vma.overlaps, hused, hstart, hend, Bool.true_and, Bool.and_eq_true,
      decide_eq_true_eq, lt_def]
    omega
  exact any_eq_true.mpr ⟨i, mem_finRange i, hover⟩

/-- A process after `exec`, with the given areas. -/
def execedProcess (vmArea : Fin nvma → Vma) : Process where
  slot := 0
  state := .running
  pid := 1
  ofile := fun _ => none
  exitCode := 0
  kstack := 0#64
  parent := none
  pagetable := 0#64
  context := 0#64
  heapBottom := 0x2000#64
  heapTop := 0x2000#64
  stackBottom := 0x3fffff0000#64
  stackTop := 0x4000000000#64
  vmArea := vmArea
  sighand := .zero
  sp := 0x4000000000#64

/-- `mmap(0, len, PROT_READ, MAP_PRIVATE | MAP_ANONYMOUS, -1, 0)` -/
def anonymousMmap (len : Word) : MmapArgs := ⟨0#64, len, 1#32, 0x22#32, BitVec.ofInt 32 (-1), 0#64⟩

/-- An anonymous mapping of everything but the last page before the stack. -/
def wideArea : Vma := ⟨true, mmapStart, 0x3ffffef000#64, 0x22#64, 0#64, 9#64, none⟩

def wideProcess : Process := execedProcess fun i => if i.val = 0 then wideArea else Vma.zero

lemma firstFit_wide : FirstFit wideProcess 0x2000#64 0x3ffffef000#64 := by
  have hcand : candidate 0x3ffbfef = 0x3ffffef000#64 := by decide
  rw [← hcand]
  exact firstFit_behind (i := ⟨0, by decide⟩) (by decide) rfl rfl (by decide) (by decide)
    (by decide) (by decide) (by decide)

/-- A length just below `2 ^ 64` gives an empty area; and a mapping of two pages is placed over the
last page before the stack and the first page of the stack. -/
theorem doMmap_misplaces :
    (∃ start q, doMmap 0x3fffff0000#64 (execedProcess fun _ => Vma.zero)
        (anonymousMmap 0xffffffffffffffff#64) = .ok (start, q) ∧
      ∀ i, ¬Placed (execedProcess fun _ => Vma.zero) 0xffffffffffffffff#64 start q i) ∧
    ∃ start q, doMmap 0x3fffff0000#64 wideProcess (anonymousMmap 0x2000#64) = .ok (start, q) ∧
      ∃ i, (q.vmArea i).vaStart = start ∧ wideProcess.stackBottom < (q.vmArea i).vaEnd := by
  constructor
  · have hfirst : FirstFit (execedProcess fun _ => Vma.zero)
        (pgRoundUp (anonymousMmap 0xffffffffffffffff#64).len) mmapStart :=
      ⟨by decide, by decide, 0, by decide, by simp [candidate], by simp⟩
    refine ⟨mmapStart, _, doMmap_eq_ok.mpr ⟨none, ⟨0, by decide⟩, by decide,
      ⟨by decide, by decide⟩, hfirst, by decide, rfl⟩, fun i hplaced => ?_⟩
    by_cases hi : i = ⟨0, by decide⟩
    · have hlarge := hplaced.large
      rw [hi, setArea_self] at hlarge
      revert hlarge
      decide
    · have hused := hplaced.used
      rw [setArea_of_ne hi] at hused
      cases hused
  · refine ⟨_, _, doMmap_eq_ok.mpr ⟨none, ⟨1, by decide⟩, by decide, ⟨by decide, by decide⟩,
      firstFit_wide, by decide, rfl⟩, ⟨1, by decide⟩, ?_, ?_⟩
    · rw [setArea_self]
      rfl
    · rw [setArea_self]
      decide

end FrostVista.Kernel
