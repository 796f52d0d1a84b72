import FrostVista.Machine.Kalloc
import Mathlib.Data.List.Infix

/-!
# The three-level page-table walk

`walk` is the loop of both `vm.c` files, with the entry format as a parameter. The pure functions
`slotAt` and `leafAt` say what it finds in a given memory: the place of the last-level entry of a
page number, and the entry itself when it is valid.
-/
namespace FrostVista

open Lib Lib.Comp Lib.Radix

variable (A : Arch)

/-- One round of `walk`: follow the entry, or link a zeroed page if `alloc` is set. -/
def walkLevel (pagetable : Word) (idx : Nat) (alloc : Bool) : M (Option Word) := do
  let pte ← readPte pagetable idx
  if A.valid pte then pure (some (A.page pte))
  else if !alloc then pure none
  else
    match ← kalloc with
    | none => pure none
    | some table =>
      modify fun m => m.zeroPage table
      storePte pagetable idx (A.dirEntry (va2pa table))
      pure (some table)

/-- The rounds from level `i` down to level one. -/
def walkFrom (va : Word) (alloc : Bool) : Nat → Word → M (Option (Word × Nat))
  | 0, pagetable => pure (some (pagetable, vpnGet va 0))
  | i + 1, pagetable => do
    match ← walkLevel A pagetable (vpnGet va (i + 1)) alloc with
    | none => pure none
    | some next => walkFrom va alloc i next

/-- The place of the last-level entry for `va`, as a page and an index into it. -/
def walk (pagetable va : Word) (alloc : Bool) : M (Option (Word × Nat)) :=
  walkFrom A va alloc 2 pagetable

/-! ## What a walk finds -/

/-- The table an entry points to. -/
def Arch.next (e : Word) : Option Word := if A.valid e then some (A.page e) else none

/-- The indices of the upper two levels for a page number. -/
def pathOf (v : Nat) : List Nat := [v / 512 / 512 % 512, v / 512 % 512]

def slotAt (m : Machine) (root : Word) (v : Nat) : Option (Word × Nat) :=
  (descend A.next m.word root (pathOf v)).map fun p => (p, v % 512)

/-- The valid last-level entry of a page number. -/
def leafAt (m : Machine) (root : Word) (v : Nat) : Option Word :=
  (slotAt A m root v).bind fun s => if A.valid (m.word s.1 s.2) then some (m.word s.1 s.2) else none

variable {A}

@[simp] lemma next_zero : A.next 0#64 = none := by simp [Arch.next, A.valid_zero]

variable {m : Machine} {p pt root : Word} {i v : Nat}

lemma next_dirEntry (hp : IsPage A m p) : A.next (A.dirEntry (va2pa p)) = some p := by
  have hd := A.dram_le
  have h1 := hp.ram
  have h2 := hp.top
  have h3 := hp.aligned
  have hpa : A.pte2pa (A.dirEntry (va2pa p)) = va2pa p := by
    refine A.pte2pa_dirEntry _ ?_ ?_ ?_ <;>
      simp only [pa2va, va2pa, kernelVirtOffset] at * <;> bv_omega
  simp [Arch.next, A.valid_dirEntry, Arch.page, hpa]

lemma run_walkLevel_of_valid (alloc : Bool)
    (h : A.next (m.word pt i) = some q) : (walkLevel A pt i alloc).run m = .ok (some q, m) := by
  have hv : A.valid (m.word pt i) = true := by
    by_contra hc
    simp [Arch.next, hc] at h
  simp only [Arch.next, hv, if_true, Option.some.injEq] at h
  simp [walkLevel, run_bind, hv, h]

lemma run_walkLevel_of_invalid
    (h : A.next (m.word pt i) = none) : (walkLevel A pt i false).run m = .ok (none, m) := by
  have hv : A.valid (m.word pt i) = false := by
    by_contra hc
    simp [Arch.next, hc] at h
  simp [walkLevel, run_bind, hv]

lemma run_walk_lookup (m : Machine) (root va : Word) :
    (walk A root va false).run m = .ok (slotAt A m root (pageNo va), m) := by
  have hpath : pathOf (pageNo va) = [vpnGet va 2, vpnGet va 1] := by
    rw [pathOf, vpnGet_two, vpnGet_one]
  unfold walk slotAt
  rw [hpath, walkFrom]
  cases h2 : A.next (m.word root (vpnGet va 2)) with
  | none =>
    rw [run_bind_ok (run_walkLevel_of_invalid h2)]
    simp [descend, h2]
  | some p1 =>
    rw [run_bind_ok (run_walkLevel_of_valid false h2)]
    change (walkFrom A va false 1 p1).run m = _
    rw [walkFrom]
    cases h1 : A.next (m.word p1 (vpnGet va 1)) with
    | none =>
      rw [run_bind_ok (run_walkLevel_of_invalid h1)]
      simp [descend, h2, h1]
    | some p0 =>
      rw [run_bind_ok (run_walkLevel_of_valid false h1)]
      simp [walkFrom, descend, h2, h1, vpnGet_zero]

lemma leafAt_eq_some : leafAt A m root v = some e ↔
      ∃ p i, slotAt A m root v = some (p, i) ∧ m.word p i = e ∧ A.valid e = true := by
  unfold leafAt
  constructor
  · intro h
    obtain ⟨⟨p, i⟩, hs, he⟩ := Option.bind_eq_some_iff.mp h
    split at he
    · cases he
      exact ⟨p, i, hs, rfl, ‹_›⟩
    · cases he
  · rintro ⟨p, i, hs, rfl, hv⟩
    simp [hs, hv]

lemma leafAt_of_slot (h : slotAt A m root v = some (p, i)) :
    leafAt A m root v = if A.valid (m.word p i) then some (m.word p i) else none := by
  simp [leafAt, h]

lemma slotAt_idx (h : slotAt A m root v = some (p, i)) :
    descend A.next m.word root (pathOf v) = some p ∧ i = v % 512 := by
  obtain ⟨q, hq, he⟩ := Option.map_eq_some_iff.mp h
  simp only [Prod.mk.injEq] at he
  exact ⟨he.1 ▸ hq, he.2.symm⟩

/-! ## The user half -/

/-- The number of pages below `USER_VA_TOP`. -/
def userPages : Nat := 2 ^ 26

lemma pageNo_lt_userPages {va : Word} (h : va.toNat < 2 ^ 38) : pageNo va < userPages := by
  unfold pageNo userPages
  omega

/-- The paths of the tables that serve user addresses. -/
def userLevels : Levels Nat where
  mem path := ∃ v < userPages, path <+: pathOf v
  nil := ⟨0, by simp [userPages], List.nil_prefix⟩
  init path i h := by
    obtain ⟨v, hv, hp⟩ := h
    exact ⟨v, hv, (List.prefix_append path [i]).trans hp⟩

lemma userLevels_pathOf (hv : v < userPages) : userLevels.mem (pathOf v) :=
  ⟨v, hv, List.prefix_rfl⟩

lemma userLevels_head (hv : v < userPages) : userLevels.mem [v / 512 / 512 % 512] :=
  ⟨v, hv, [v / 512 % 512], rfl⟩

lemma userLevels_head_lt (h : userLevels.mem [i]) : i < 256 := by
  obtain ⟨v, hv, hp⟩ := h
  have hi : i = v / 512 / 512 % 512 := by simpa [pathOf] using hp
  unfold userPages at hv
  omega

lemma not_userLevels_snoc (v i : Nat) : ¬userLevels.mem (pathOf v ++ [i]) := by
  rintro ⟨w, -, hp⟩
  have := hp.length_le
  simp [pathOf] at this

lemma pathOf_injective (hv : v < userPages) (hw : w < userPages)
    (hp : pathOf v = pathOf w) (hi : v % 512 = w % 512) : v = w := by
  simp only [pathOf, List.cons.injEq, and_true] at hp
  unfold userPages at hv hw
  omega

end FrostVista
