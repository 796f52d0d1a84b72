import FrostVista.Kernel.Path
import FrostVista.Library.Bytes

/-!
# The stack of a new program

The second half of `execve_kernel`: the argument strings are pushed below `USER_VA_TOP`, then
sixteen bytes for `AT_RANDOM`, then the vector of words that the program reads first. The new
address space is a state of any type with `copyout`.
-/
namespace FrostVista.Kernel.Exec

open Lib List BitVec Option Bytes

def execMaxArgs : Nat := 16

/-- `USER_VA_TOP - EXEC_STACK_PAGES * PGSIZE` -/
def userStackBottom : Word := userVaTop - 0x10000#64

/-- The new address space, with the bytes that the program sees. Once the pages of the stack are
mapped, a `copyout` to the stack changes the bytes of its range. -/
structure Space (μ : Type) where
  copyout : Word → List Byte → μ → Option μ
  view : μ → Bytes
  Mapped : μ → Prop
  copies : ∀ {dst src m m'}, Mapped m → copyout dst src m = some m' →
    userStackBottom.toNat ≤ dst.toNat → dst.toNat + src.length ≤ userVaTop.toNat →
    Mapped m' ∧ view m' = (view m).copyIn dst.toNat src

/-- The fields of the program that go to the auxiliary vector. -/
structure Image where
  phdr : Word
  phnum : Word
  entry : Word

/-- The registers that `execve_kernel` sets. -/
structure Entry where
  sp : Word
  a0 : Word
  a1 : Word

variable {μ : Type} (S : Space μ)

/-- `sp &= ~0x0F` -/
def align (sp : Word) : Word := sp &&& ~~~0xf#64

/-- The check of the stack pointer and the copy that follows it. -/
def push (sp : Word) (data : List Byte) (m : μ) : Option μ :=
  if sp < userStackBottom then none else S.copyout sp data m

/-- The loop over the arguments, from the last one down; the result has `argv_ptr`. -/
def pushArgs : List (List Byte) → Word → μ → Option (List Word × Word × μ)
  | [], sp, m => some ([], sp, m)
  | arg :: args, sp, m => do
    let (ptrs, sp, m) ← pushArgs args sp m
    let sp := align (sp - BitVec.ofNat 64 (arg.length + 1))
    let m ← push S sp (arg ++ [0]) m
    some (sp :: ptrs, sp, m)

/-- The pairs from `AT_PHDR` to `AT_NULL`. -/
def auxv (image : Image) (random execfn : Word) : List Word :=
  [3, image.phdr, 4, 56, 5, image.phnum, 6, 4096, 9, image.entry, 11, 0, 12, 0, 13, 0, 14, 0, 23, 0,
    25, random, 31, execfn, 0, 0]

def ustack (image : Image) (ptrs : List Word) (random : Word) : List Word :=
  BitVec.ofNat 64 ptrs.length :: ptrs ++ [0, 0] ++ auxv image random (ptrs.headD 0)

/-- The bytes of an array of words. -/
def wordBytes (words : List Word) : List Byte :=
  (Bytes.zero.storeAll 0 8 words.length fun k => (words.getD k 0).toNat).copyOut 0
    (8 * words.length)

/-- The stack part of `execve_kernel`. -/
def buildStack (image : Image) (argv : List (List Byte)) (m : μ) : Option (Entry × μ) := do
  let (ptrs, sp, m) ← pushArgs S argv userVaTop m
  let random := sp - 16#64
  let m ← push S random (List.replicate 16 0) m
  let words := ustack image ptrs random
  let sp := align (align random - BitVec.ofNat 64 (8 * words.length))
  let m ← push S sp (wordBytes words) m
  some (⟨sp, BitVec.ofNat 64 argv.length, sp + 8#64⟩, m)

/-! ## Where the pushes go -/

lemma align_toNat (sp : Word) : (align sp).toNat = sp.toNat / 16 * 16 :=
  mask_toNat (k := 4) (by decide) sp

variable {sp : Word} {m m' : μ} {args : List (List Byte)} {b : Bytes} {hi lo : Nat}
  {ptrs : List Word}

lemma sub_toNat (h : n ≤ sp.toNat) : (sp - BitVec.ofNat 64 n).toNat = sp.toNat - n := by
  have hlt := sp.isLt
  have hn : n % 2 ^ 64 = n := Nat.mod_eq_of_lt (by omega)
  rw [toNat_sub, toNat_ofNat, hn]
  omega

lemma push_view (hm : S.Mapped m) (h : push S sp data m = some m')
    (hend : sp.toNat + data.length ≤ userVaTop.toNat) : userStackBottom.toNat ≤ sp.toNat ∧
      S.Mapped m' ∧ S.view m' = (S.view m).copyIn sp.toNat data := by
  rw [push] at h
  split at h
  · cases h
  · rename_i hge
    have hbottom : userStackBottom.toNat ≤ sp.toNat := by simpa [lt_def] using hge
    exact ⟨hbottom, S.copies hm h hbottom hend⟩

/-- The strings are in memory one above the other, from `lo` up to `hi`. -/
inductive Placed (b : Bytes) (hi : Nat) : Nat → List (List Byte) → List Word → Prop where
  | nil : Placed b hi hi [] []
  | cons {lo : Nat} {arg : List Byte} {args : List (List Byte)} {p : Word} {ptrs : List Word} :
      Placed b hi lo args ptrs → p.toNat + arg.length + 1 ≤ lo →
      b.copyOut p.toNat (arg.length + 1) = arg ++ [0] →
        Placed b hi p.toNat (arg :: args) (p :: ptrs)

section
variable (h : Placed b hi lo args ptrs)
include h

lemma Placed.le : lo ≤ hi := by
  induction h with
  | nil => exact le_rfl
  | cons _ hle _ ih => omega

lemma Placed.mono (hsame : ∀ i, lo ≤ i → b' i = b i) : Placed b' hi lo args ptrs := by
  induction h with
  | nil => exact .nil
  | @cons lo arg _ p _ hrest hle hstr ih =>
    refine .cons (ih fun i hi => hsame i (by omega)) hle ?_
    rw [← hstr]
    exact copyOut_congr fun i _ => hsame _ (by omega)

lemma Placed.length_eq : ptrs.length = args.length := by
  induction h with
  | nil => rfl
  | cons _ _ _ ih => simp [ih]

lemma Placed.strings :
    (∀ x ∈ ptrs.zip args, lo ≤ x.1.toNat ∧ x.1.toNat + x.2.length + 1 ≤ hi ∧
        b.copyOut x.1.toNat (x.2.length + 1) = x.2 ++ [0]) ∧
      (ptrs.zip args).Pairwise fun x y => x.1.toNat + x.2.length + 1 ≤ y.1.toNat := by
  induction h with
  | nil => simp
  | cons hrest hle hstr ih =>
    have hhi := hrest.le
    refine ⟨?_, pairwise_cons.mpr ⟨fun y hy => hle.trans (ih.1 y hy).1, ih.2⟩⟩
    rintro x (_ | ⟨_, hx⟩)
    · exact ⟨le_rfl, hle.trans hhi, hstr⟩
    · have := ih.1 x hx
      exact ⟨by omega, this.2⟩

end

/-- After the loop the strings are in place, aligned, and everything above the old stack pointer is
kept. -/
lemma pushArgs_placed (hargs : ∀ arg ∈ args, arg.length < pathMax)
    (hlen : args.length ≤ execMaxArgs) (htop : top = userVaTop) (hm : S.Mapped m)
    (h : pushArgs S args top m = some (ptrs, sp, m')) : S.Mapped m' ∧
      Placed (S.view m') top.toNat sp.toNat args ptrs ∧ sp.toNat % 16 = 0 ∧
        top.toNat ≤ sp.toNat + 144 * args.length := by
  subst htop
  have htop : userVaTop.toNat = 2 ^ 38 := rfl
  induction args generalizing ptrs sp m' with
  | nil =>
    cases h
    exact ⟨hm, .nil, by omega, by omega⟩
  | cons arg args ih =>
    simp only [pushArgs, bind_eq_bind, bind_eq_some_iff, some.injEq, Prod.exists] at h
    obtain ⟨ptrs, sp1, m1, hrest, m2, hpush, heq⟩ := h
    cases heq
    obtain ⟨hm₁, hplaced, halign, hlow⟩ := ih (fun a ha => hargs a (mem_cons_of_mem _ ha))
      (by rw [length_cons] at hlen; omega) hrest
    have harg := hargs arg mem_cons_self
    simp only [pathMax, execMaxArgs, length_cons] at harg hlen
    have hsp := align_toNat (sp1 - BitVec.ofNat 64 (arg.length + 1))
    rw [sub_toNat (by omega)] at hsp
    have hle := hplaced.le
    obtain ⟨-, hm₂, hview⟩ :=
      push_view S hm₁ hpush (by simp only [length_append, length_singleton]; omega)
    refine ⟨hm₂, .cons (hplaced.mono fun i hi => ?_) (by omega) ?_, by omega,
      by simp only [length_cons]; omega⟩
    · rw [hview]
      exact copyIn_of_not (by simp only [length_append, length_singleton]; omega)
    · rw [hview]
      exact copyOut_copyIn_self (by simp)

/-! ## What the program finds -/

lemma load_wordBytes (b : Bytes) (o : Nat) (words : List Word) (hk : k < words.length) :
    (b.copyIn o (wordBytes words)).load (o + 8 * k) 8 = words[k].toNat := by
  have hlen : (wordBytes words).length = 8 * words.length := length_copyOut
  have hload := load_storeAll (b := zero) (o := 0) (w := 8)
    (f := fun k => (words.getD k 0).toNat) hk
  rw [getD_eq_getElem _ _ hk, Nat.mod_eq_of_lt (by exact words[k].isLt)] at hload
  rw [← hload]
  refine load_shift fun i hi => ?_
  rw [Nat.add_assoc o, copyIn_of_mem (by omega)]
  simp only [wordBytes, getElem_copyOut, Nat.zero_add]

/-- The numbers in `n` words of memory. -/
def wordsAt (b : Bytes) (a n : Nat) : List Nat := (List.range n).map fun k => b.load (a + 8 * k) 8

lemma wordsAt_copyIn (b : Bytes) (o : Nat) (words : List Word) :
    wordsAt (b.copyIn o (wordBytes words)) o words.length = words.map BitVec.toNat := by
  refine ext_getElem (by simp [wordsAt]) fun k hk hk' => ?_
  rw [length_map] at hk'
  simp only [wordsAt, getElem_map, getElem_range]
  exact load_wordBytes _ _ _ hk'

/-- The stack of a program: at the stack pointer the number of arguments, the pointers to them, two
null words and the pairs of the auxiliary vector with `AT_NULL` at the end, above them the
strings. -/
structure Decodes (b : Bytes) (sp : Word) (image : Image) (argv : List (List Byte))
    (ptrs : List Word) (random : Word) : Prop where
  aligned : sp.toNat % 16 = 0
  bottom : userStackBottom.toNat ≤ sp.toNat
  vector : wordsAt b sp.toNat (argv.length + 29) =
    argv.length :: ptrs.map BitVec.toNat ++ [0, 0] ++
      [3, image.phdr.toNat, 4, 56, 5, image.phnum.toNat, 6, 4096, 9, image.entry.toNat,
        11, 0, 12, 0,
        13, 0, 14, 0, 23, 0, 25, random.toNat, 31, (ptrs.headD 0).toNat, 0, 0]
  length : ptrs.length = argv.length
  strings : ∀ x ∈ ptrs.zip argv, sp.toNat + 8 * (argv.length + 29) ≤ x.1.toNat ∧
    x.1.toNat + x.2.length + 1 ≤ userVaTop.toNat ∧ b.copyOut x.1.toNat (x.2.length + 1) = x.2 ++ [0]
  apart : (ptrs.zip argv).Pairwise fun x y => x.1.toNat + x.2.length + 1 ≤ y.1.toNat

/-- On success the program finds its arguments: the number, the pointers and two null words, and the
auxiliary vector, with each pointer at a copy of its string. -/
theorem buildStack_decodes {image : Image} {argv : List (List Byte)} {m m' : μ} {entry : Entry}
    (hargs : ∀ arg ∈ argv, arg.length < pathMax) (hlen : argv.length ≤ execMaxArgs)
    (hm : S.Mapped m) (h : buildStack S image argv m = some (entry, m')) :
    ∃ ptrs random, Decodes (S.view m') entry.sp image argv ptrs random ∧
      entry.a0.toNat = argv.length ∧ entry.a1.toNat = entry.sp.toNat + 8 := by
  simp only [buildStack, bind_eq_bind, bind_eq_some_iff, some.injEq, Prod.exists] at h
  obtain ⟨ptrs, sp, m₁, hpush, m₂, hrandom, m₃, hwords, heq⟩ := h
  cases heq
  obtain ⟨hm₁, hplaced, halign, hlow⟩ := pushArgs_placed S hargs hlen rfl hm hpush
  have htop : userVaTop.toNat = 2 ^ 38 := rfl
  have hle := hplaced.le
  have hptrs := hplaced.length_eq
  have hn : (ustack image ptrs (sp - 16#64)).length = argv.length + 29 := by
    simp [ustack, auxv, hptrs]
  simp only [execMaxArgs] at hlen
  have hr : (sp - 16#64).toNat = sp.toNat - 16 := sub_toNat (n := 16) (by omega)
  have hr' := align_toNat (sp - 16#64)
  generalize hfinal : align (align (sp - 16#64) -
    BitVec.ofNat 64 (8 * (ustack image ptrs (sp - 16#64)).length)) = final at hwords ⊢
  have hsp : final.toNat = _ := hfinal ▸ align_toNat _
  rw [sub_toNat (by omega), hr', hr, hn] at hsp
  have hbytes : (wordBytes (ustack image ptrs (sp - 16#64))).length = 8 * (argv.length + 29) := by
    rw [wordBytes, length_copyOut, hn]
  obtain ⟨-, hm₂, hview₂⟩ := push_view S hm₁ hrandom (by simp only [length_replicate]; omega)
  obtain ⟨hbottom, -, hview₃⟩ := push_view S hm₂ hwords (by omega)
  -- Both later copies lie below the strings.
  obtain ⟨hstrings, hapart⟩ := (hplaced.mono fun i hi => by
    rw [hview₃, copyIn_of_not (by omega), hview₂,
      copyIn_of_not (by simp only [length_replicate]; omega)] :
    Placed (S.view m') userVaTop.toNat sp.toNat argv ptrs).strings
  refine ⟨ptrs, sp - 16#64, ⟨?_, hbottom, ?_, hptrs, fun x hx => ?_, hapart⟩, ?_, ?_⟩
  · rw [hsp]
    omega
  · rw [hview₃, ← hn, wordsAt_copyIn, ustack, hptrs, auxv]
    simp
    omega
  · have := hstrings x hx
    rw [hsp]
    exact ⟨by omega, this.2⟩
  · rw [toNat_ofNat]
    exact Nat.mod_eq_of_lt (by omega)
  · have h8 : (8#64).toNat = 8 := rfl
    rw [toNat_add, hsp, h8]
    exact Nat.mod_eq_of_lt (by omega)

/-- An address space in which every copy succeeds. -/
def flatSpace : Space Bytes where
  copyout dst src m := some (m.copyIn dst.toNat src)
  view := id
  Mapped _ := True
  copies _ h _ _ := ⟨trivial, (Option.some.inj h).symm⟩

end FrostVista.Kernel.Exec
