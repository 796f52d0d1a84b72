import FrostVista.Riscv.Vm
import FrostVista.Vm.Effect

/-!
# Mapping one page

The contracts of `mappages` for a single page: it maps a page of the kernel at a free place, it
maps a page that is already shared, it reports a lack of memory, or it panics because the place is
taken. All callers of the user-memory code go through these results.
-/
namespace FrostVista.Riscv

open Lib Lib.Comp Lib.Radix Lib.RefCount

variable {roots kept : Set Word} {m m' : Machine} {r q va pa perm : Word} {v : Nat}

/-- A walk finds an existing entry without changing anything, also when it may allocate. -/
lemma run_walk_of_slot (alloc : Bool) (h : slotAt riscv m r (pageNo va) = some s) :
    (walk riscv r va alloc).run m = .ok (some s, m) := by
  have hpath : pathOf (pageNo va) = [vpnGet va 2, vpnGet va 1] := by
    rw [pathOf, vpnGet_two, vpnGet_one]
  obtain ⟨p, hd, rfl⟩ := Option.map_eq_some_iff.mp h
  rw [hpath] at hd
  simp only [descend, Option.bind_eq_some_iff] at hd
  obtain ⟨p1, h2, p0, h1, he⟩ := hd
  cases he
  rw [walk, walkFrom, run_bind_ok (run_walkLevel_of_valid alloc h2)]
  change (walkFrom riscv va alloc 1 p1).run m = _
  rw [walkFrom, run_bind_ok (run_walkLevel_of_valid alloc h1), ← vpnGet_zero]
  rfl

lemma run_mapPage_remap (h : leafAt riscv m r (pageNo va) = some e) :
    (mapPage r va pa perm).run m = .error .remap := by
  obtain ⟨p, i, hs, rfl, hv⟩ := leafAt_eq_some.mp h
  rw [riscv_valid] at hv
  rw [mapPage, run_bind_ok (run_walk_of_slot true hs)]
  simp [run_bind, hv]

/-- At a free place `mapPage` writes the entry, unless a table is missing and memory is short. -/
lemma mapPage_total (pa perm : Word) (h : Wf riscv roots kept m) (hr : r ∈ roots)
    (hv : pageNo va < userPages) (hn : leafAt riscv m r (pageNo va) = none) :
    Total (mapPage r va pa perm) m fun ret m' =>
      match ret with
      | .ok _ => missing riscv m r (pageNo va) ≤ m.freelist.length ∧
          ∃ m1 p i, Grew riscv roots kept m m1 ∧ UserSlot riscv roots m1 r (pageNo va) p i ∧
            m1.freelist = m.freelist.drop (missing riscv m r (pageNo va)) ∧
            m' = m1.setPte p i (leafPte pa perm)
      | .error e => e = .noMem ∧ m.freelist.length < missing riscv m r (pageNo va) ∧
          Grew riscv roots kept m m' := by
  refine (walk_total h hr hv).bind fun o m1 ho => ?_
  obtain ⟨g, ho⟩ := ho
  cases o with
  | none => exact Total.pure ⟨rfl, ho, g⟩
  | some s =>
    obtain ⟨p, i⟩ := s
    obtain ⟨hs, hle, hf⟩ := ho
    have hn' := g.leaf r hr (pageNo va) hv
    rw [hn, leafAt_of_slot hs] at hn'
    have hbit : bit (m1.word p i) 0 = false := by
      by_contra hc
      simp [riscv_valid, hc] at hn'
    refine ⟨.ok (), m1.setPte p i (leafPte pa perm), ?_, hle, m1, p, i, g, ⟨hr, hv, hs⟩, hf, rfl⟩
    simp [run_bind, hbit]

@[simp] lemma pageAt_zero (a : Word) : pageAt a 0 = a := by simp [pageAt]

lemma run_mappages (ha : va.toNat % 4096 = 0) :
    (mappages r va pa 4096#32 perm).run m = (mapPage r va pa perm).run m := by
  have hrounds : (va + (4096#32).signExtend 64 - 4096#64 - va).toNat / 4096 + 1 = 1 := by
    have : va + (4096#32).signExtend 64 - 4096#64 - va = 0#64 := by
      rw [show (4096#32).signExtend 64 = 4096#64 by decide]
      bv_omega
    rw [this]
    rfl
  have h1 : ¬va.toNat % pgSize ≠ 0 := by simp [pgSize, ha]
  have h2 : ¬(4096#32).toInt % 4096 ≠ 0 := by decide
  have h3 : ¬4096#32 = 0#32 := by decide
  simp only [mappages, h1, h2, h3, if_false, hrounds]
  rw [run_bind]
  simp only [search, pageAt_zero]
  rw [run_bind, run_bind]
  cases hx : (mapPage r va pa perm).run m with
  | error e => rfl
  | ok x =>
    obtain ⟨ret, t⟩ := x
    cases ret with
    | error e => rfl
    | ok u => rfl

lemma mappages_fresh (h : Inv riscv roots kept m) (hr : r ∈ roots) (ha : va.toNat % 4096 = 0)
    (hv : pageNo va < userPages) (hn : leafAt riscv m r (pageNo va) = none) (hq : q ∈ kept)
    (hc : m.refcnt q = 1) (hf : IsFlags perm) :
    Total (mappages r va (va2pa q) 4096#32 perm) m fun ret m' =>
      match ret with
      | .ok _ => missing riscv m r (pageNo va) ≤ m.freelist.length ∧
          Inv riscv roots (kept \ {q}) m' ∧
          MapsTo riscv roots (kept \ {q}) m m' r (pageNo va) (leafPte (va2pa q) perm) ∧
          riscv.page (leafPte (va2pa q) perm) = q
      | .error e => e = .noMem ∧ m.freelist.length < missing riscv m r (pageNo va) ∧
          Grew riscv roots kept m m' := by
  obtain ⟨ret, m', hrun, hpost⟩ := mapPage_total (va2pa q) perm h.toWf hr hv hn
  refine ⟨ret, m', by rw [run_mappages ha, hrun], ?_⟩
  cases ret with
  | error e => exact hpost
  | ok u =>
    obtain ⟨hle, m1, p, i, g, s, hfree, rfl⟩ := hpost
    have hqf : q ∉ m.freelist := fun hc => h.owner_ne .free .kernel hc hq (by simp) rfl
    have he : riscv.next (leafPte (va2pa q) perm) = some q :=
      next_leafPte (h.isPage (o := .kernel) hq) hf
    have hn1 : leafAt riscv m1 r (pageNo va) = none := by rw [g.leaf r hr _ hv, hn]
    have hi := s.inv_map (g.inv h) hq ((g.refcnt q hqf).trans hc) hn1 he
    exact ⟨hle, hi, mapsTo_of_grew h.toWf g s hi.toWf he hfree, (next_eq_some.mp he).2⟩

lemma mappages_shared (h : Wf riscv roots kept m) (hr : r ∈ roots) (ha : va.toNat % 4096 = 0)
    (hv : pageNo va < userPages) (hn : leafAt riscv m r (pageNo va) = none)
    (hq : Held (mapping riscv roots m) q) (hf : IsFlags perm) :
    Total (mappages r va (va2pa q) 4096#32 perm) m fun ret m' =>
      match ret with
      | .ok _ => MapsTo riscv roots kept m m' r (pageNo va) (leafPte (va2pa q) perm) ∧
          riscv.page (leafPte (va2pa q) perm) = q
      | .error e => e = .noMem ∧ m.freelist.length < 2 ∧ Grew riscv roots kept m m' := by
  obtain ⟨ret, m', hrun, hpost⟩ := mapPage_total (va2pa q) perm h hr hv hn
  refine ⟨ret, m', by rw [run_mappages ha, hrun], ?_⟩
  cases ret with
  | error e =>
    have hle := missing_le_two (A := riscv) m r (pageNo va)
    exact ⟨hpost.1, by have := hpost.2.1; omega, hpost.2.2⟩
  | ok u =>
    obtain ⟨-, m1, p, i, g, s, hfree, rfl⟩ := hpost
    have he : riscv.next (leafPte (va2pa q) perm) = some q :=
      next_leafPte (h.isPage (o := .user) hq) hf
    have hn1 : leafAt riscv m1 r (pageNo va) = none := by rw [g.leaf r hr _ hv, hn]
    have hw := s.wf_share g.wf (by rwa [g.mapping]) hn1 he
    exact ⟨mapsTo_of_grew h g s hw he hfree, (next_eq_some.mp he).2⟩

lemma run_mappages_unaligned (ha : va.toNat % 4096 ≠ 0) (size : BitVec 32) :
    (mappages r va pa size perm).run m = .error .mappagesVa := by
  have hva : va.toNat % pgSize ≠ 0 := ha
  rw [mappages, if_pos hva, run_fail]

lemma run_mappages_remap (ha : va.toNat % 4096 = 0)
    (h : leafAt riscv m r (pageNo va) = some e) : (mappages r va pa 4096#32 perm).run m =
      .error .remap := by
  rw [run_mappages ha, run_mapPage_remap h]

end FrostVista.Riscv
