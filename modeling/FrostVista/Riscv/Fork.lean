import FrostVista.Riscv.Alloc

/-!
# Copying an address space

`uvmcopy` walks the tables of the parent. For each valid leaf it takes the write permission away
from the parent, marks the page copy-on-write, counts one more reference and maps the page in the
child. If a table of the child cannot be allocated, the entry at hand is put back and the function
gives up; the pages before it stay shared.
-/
namespace FrostVista.Riscv

open Lib Lib.Comp Lib.Radix Lib.RefCount List Nat Machine
open BitVec (ofNat toNat_shiftLeft toNat_ofNat toNat_or)

variable {roots kept : Set Word} {m t u : Machine} {old new pt0 : Word} {v i0 i1 i2 k : Nat}

/-- The entry of the child for a page of the parent. -/
def childPte (e : Word) : Word := leafPte (pte2pa e) (pteFlags (cowPte e))

/-- The entry `uvmcopy` puts back after a failure. -/
def restoredPte (e : Word) : Word :=
  if has e pteW then cowPte e &&& ~~~pteCow ||| pteW else cowPte e &&& ~~~pteCow

lemma page_cowPte (e : Word) : riscv.page (cowPte e) = riscv.page e := by
  rw [riscv_page, riscv_page, pte2pa_congr]
  intro k h1 h2
  rw [bit_cowPte e h2]
  have h8 : k ≠ 8 := by omega
  have h2 : k ≠ 2 := by omega
  simp [h8, h2]

lemma page_childPte (e : Word) : riscv.page (childPte e) = riscv.page e := by
  rw [riscv_page, riscv_page]
  congr 1
  refine eq_of_bit_eq fun i hi => ?_
  rw [bit_pte2pa _ hi, bit_pte2pa _ hi]
  by_cases h12 : 12 ≤ i
  · have h10 : ¬i - 2 < 10 := by omega
    have h0 : i - 2 ≠ 0 := by omega
    have hi2 : i - 2 + 2 = i := by omega
    simp [childPte, leafPte, bit_pa2pte _ (show i - 2 < 64 by omega), bit_pte2pa _ hi, hi2, h10, h0,
      h12]
    omega
  · simp [h12]

lemma next_restoredPte (e : Word) : riscv.next (restoredPte e) = riscv.next e := by
  unfold restoredPte
  split
  · rw [next_setWrite, next_clearCow, next_cowPte]
  · rw [next_clearCow, next_cowPte]

lemma forkVa_toNat (h2 : i2 < 256) (h1 : i1 < 512) (h0 : i0 < 512) :
    (ofNat 64 i2 <<< 30 ||| ofNat 64 i1 <<< 21 ||| ofNat 64 i0 <<< 12).toNat =
      ((i2 * 512 + i1) * 512 + i0) * 4096 := by
  have e2 : (ofNat 64 i2 <<< 30).toNat = 2 ^ 30 * i2 := by
    rw [toNat_shiftLeft, toNat_ofNat, shiftLeft_eq]
    omega
  have e1 : (ofNat 64 i1 <<< 21).toNat = 2 ^ 21 * i1 := by
    rw [toNat_shiftLeft, toNat_ofNat, shiftLeft_eq]
    omega
  have e0 : (ofNat 64 i0 <<< 12).toNat = 4096 * i0 := by
    rw [toNat_shiftLeft, toNat_ofNat, shiftLeft_eq]
    omega
  rw [toNat_or, toNat_or, e2, e1, e0,
    ← two_pow_add_eq_or_of_lt (show 2 ^ 21 * i1 < 2 ^ 30 by omega),
    show 2 ^ 30 * i2 + 2 ^ 21 * i1 = 2 ^ 21 * (512 * i2 + i1) by omega,
    ← two_pow_add_eq_or_of_lt (show 4096 * i0 < 2 ^ 21 by omega)]
  omega

/-- The effect of one round: the page is shared between parent and child. -/
structure PageShared (roots kept : Set Word) (t u : Machine) (old new : Word) (v : Nat) (e : Word) :
    Prop extends Keeps riscv roots kept t u where
  leaf : ∀ r ∈ roots, ∀ v' < userPages, leafAt riscv u r v' =
    if r = old ∧ v' = v then some (cowPte e)
    else if r = new ∧ v' = v then some (childPte e) else leafAt riscv t r v'

/-- The effect of the last round of a copy that fails: the entry was put back. -/
structure PageRestored (roots kept : Set Word) (t u : Machine) (old : Word) (v : Nat) (e : Word) :
    Prop extends Keeps riscv roots kept t u where
  leaf : ∀ r ∈ roots, ∀ v' < userPages, leafAt riscv u r v' =
    if r = old ∧ v' = v then some (restoredPte e) else leafAt riscv t r v'

/-- The outcome of one round of `uvmcopy` for the page `v`. -/
def CopyPost (roots kept : Set Word) (t : Machine) (old new : Word) (v : Nat) (o : Option Err)
    (u : Machine) : Prop :=
  match o, leafAt riscv t old v with
  | none, none => u = t
  | none, some e => leafAt riscv t new v = none ∧ PageShared roots kept t u old new v e
  | some _, none => False
  | some err, some e => err = .noMem ∧ t.freelist.length < 2 ∧ PageRestored roots kept t u old v e

lemma run_uvmcopyPage_absent (hs : UserSlot riscv roots t old v pt0 i0)
    (hl : leafAt riscv t old v = none) : (uvmcopyPage new pt0 i2 i1 i0).run t = .ok (none, t) := by
  have hb : bit (t.word pt0 i0) 0 = false := by
    by_contra hc
    simp [leafAt_of_slot hs.slot, hc] at hl
  simp [uvmcopyPage, run_bind, hb]

/-- The entry of the parent after it was marked copy-on-write and the TLB was flushed. -/
def marked (t : Machine) (pt0 : Word) (i0 : Nat) (e : Word) : Machine :=
  { t.setPte pt0 i0 (cowPte e) with
    trace := .fence :: (t.setPte pt0 i0 (cowPte e)).trace }

lemma run_sfenceVma_marked (t : Machine) (pt0 : Word) (i0 : Nat) (e : Word) :
    sfenceVma.run (t.setPte pt0 i0 (cowPte e)) = .ok ((), marked t pt0 i0 e) := rfl

section
variable (h : Inv riscv roots kept t) (hs : UserSlot riscv roots t old v pt0 i0)
  (hl : leafAt riscv t old v = some e)
include h hs hl

lemma keeps_marked :
    Keeps riscv roots kept t (marked t pt0 i0 e) := by
  obtain ⟨-, -, -, -, hv⟩ := leafAt_eq_some.mp hl
  have he : riscv.next (cowPte e) = some (riscv.page e) := by
    rw [next_cowPte]
    exact next_eq_some.mpr ⟨hv, rfl⟩
  have hk := hs.keeps_rewrite h hl he
  have hflush : Stable riscv roots kept (t.setPte pt0 i0 (cowPte e)) (marked t pt0 i0 e) :=
    .of_eq hk.inv rfl rfl rfl rfl rfl rfl
  exact hk.trans hflush.toKeeps

lemma leafAt_marked (hr : r ∈ roots) (hv' : v' < userPages) :
    leafAt riscv (marked t pt0 i0 e) r v' =
      if r = old ∧ v' = v then some (cowPte e) else leafAt riscv t r v' := by
  obtain ⟨-, -, -, -, hv⟩ := leafAt_eq_some.mp hl
  rw [riscv_valid] at hv
  have hm := hs.leafAt_eq (e := cowPte e) h.forest hr hv'
  have hc : riscv.valid (cowPte e) = true := by
    simp [bit_cowPte, hv]
  rw [hc] at hm
  exact hm

end

lemma run_restore (hl : Lock.mem ∉ t.held) (hc : 0 < t.refcnt q) (err : Err) :
    ∃ w : Machine, (do
      storePte pt0 i0 (cowPte e &&& ~~~pteCow)
      when (has e pteW) (storePte pt0 i0 (cowPte e &&& ~~~pteCow ||| pteW))
      refcntDec q
      pure (some err) : M (Option Err)).run t = .ok (some err, w) ∧
      w.word = write t.word pt0 i0 (restoredPte e) ∧ w.freelist = t.freelist ∧
      w.refcnt = (t.unshared q).refcnt ∧ w.held = t.held ∧ w.kernelEnd = t.kernelEnd ∧
      w.kernelTable = t.kernelTable := by
  cases hw : has e pteW with
  | true =>
    refine ⟨((t.setPte pt0 i0 (cowPte e &&& ~~~pteCow)).setPte pt0 i0
      (cowPte e &&& ~~~pteCow ||| pteW)).unshared q, ?_, ?_, rfl, rfl, rfl, rfl, rfl⟩
    · rw [run_bind_ok (run_storePte t pt0 i0 _), when_true, run_bind_ok (run_storePte _ pt0 i0 _),
        run_bind_ok (run_refcntDec (m := setPte (setPte _ _ _ _) _ _ _) hl hc), run_pure]
    · simp [restoredPte, hw]
  | false =>
    refine ⟨(t.setPte pt0 i0 (cowPte e &&& ~~~pteCow)).unshared q, ?_, ?_, rfl, rfl, rfl, rfl, rfl⟩
    · rw [run_bind_ok (run_storePte t pt0 i0 _), when_false, run_bind_ok (run_pure () _),
        run_bind_ok (run_refcntDec (m := setPte _ _ _ _) hl hc), run_pure]
    · simp [restoredPte, hw]

lemma restore_total (h : Inv riscv roots kept t)
    (hs : UserSlot riscv roots t old v pt0 i0) (hl : leafAt riscv t old v = some e)
    (g : Grew riscv roots kept ((marked t pt0 i0 e).shared (riscv.page e)) u) (err : Err) :
    Total (do
      storePte pt0 i0 (cowPte e &&& ~~~pteCow)
      when (has e pteW) (storePte pt0 i0 (cowPte e &&& ~~~pteCow ||| pteW))
      refcntDec (riscv.page e)
      pure (some err)) u fun o w => o = some err ∧ PageRestored roots kept t w old v e := by
  obtain ⟨-, -, -, -, hvalid⟩ := leafAt_eq_some.mp hl
  have hk := keeps_marked h hs hl
  have hq : Held (mapping riscv roots (marked t pt0 i0 e)) (riscv.page e) :=
    hk.mapped _ ⟨_, hs.mapping_leaf hl⟩
  have hst := stable_unshare hk.inv hq g
  have hs' := (hk.trans hst.toKeeps).userSlot hs
  have hl' : leafAt riscv (u.unshared (riscv.page e)) old v = some (cowPte e) := by
    rw [hst.leaf old hs.root v hs.user, leafAt_marked h hs hl hs.root hs.user, if_pos ⟨rfl, rfl⟩]
  have hnext : riscv.next e = some (riscv.page e) := next_eq_some.mpr ⟨hvalid, rfl⟩
  have hpage : riscv.page (cowPte e) = riscv.page e := by
    rw [← next_cowPte] at hnext
    exact (next_eq_some.mp hnext).2
  have he : riscv.next (restoredPte e) = some (riscv.page (cowPte e)) := by
    rw [next_restoredPte, hnext, hpage]
  have hrw := hs'.keeps_rewrite hst.inv hl' he
  have hpos : 0 < u.refcnt (riscv.page e) := by
    have hqf : riscv.page e ∉ (marked t pt0 i0 e).freelist := fun hc =>
      hk.inv.not_held_of_free hc hq
    have := hk.inv.counted.pos hq
    rw [g.refcnt _ hqf, shared_refcnt, Function.update_self]
    omega
  have hun : Lock.mem ∉ u.held := by
    rw [g.held]
    exact hk.inv.unlocked
  obtain ⟨w, hrun, hw, hf, hc, hh, hke, hkt⟩ := run_restore hun hpos err
  have hstw :
    Stable riscv roots kept ((u.unshared (riscv.page e)).setPte pt0 i0 (restoredPte e)) w :=
    .of_eq hrw.inv hw hf hc hh hke hkt
  refine ⟨some err, w, hrun, rfl, ((hk.trans hst.toKeeps).trans hrw).trans hstw.toKeeps,
    fun r hr v' hv' => ?_⟩
  have hval : riscv.valid (restoredPte e) = true := (next_eq_some.mp he).1
  rw [hstw.leaf r hr v' hv', hs'.leafAt_eq hst.inv.forest hr hv', hval, hst.leaf r hr v' hv',
    leafAt_marked h hs hl hr hv']
  split
  · rfl
  · rfl

lemma uvmcopyPage_meets {N : Prop} (h : Inv riscv roots kept t) (hn : new ∈ roots) (hne : old ≠ new)
    (hs : UserSlot riscv roots t old v pt0 i0) (h2 : i2 < 256) (h1 : i1 < 512) (h0 : i0 < 512)
    (hv : v = (i2 * 512 + i1) * 512 + i0)
    (hN : N → leafAt riscv t old v ≠ none → leafAt riscv t new v = none) :
    Meets N (uvmcopyPage new pt0 i2 i1 i0) t (CopyPost roots kept t old new v) := by
  cases hl : leafAt riscv t old v with
  | none => exact .of_total ⟨none, t, run_uvmcopyPage_absent hs hl, by simp [CopyPost, hl]⟩
  | some e =>
    obtain ⟨p, i, hslot, hw, hvalid⟩ := leafAt_eq_some.mp hl
    obtain ⟨rfl, rfl⟩ : p = pt0 ∧ i = i0 := by simpa [hs.slot, eq_comm] using hslot
    rw [riscv_valid] at hvalid
    have hinvalid : ¬(!has (t.word p i) pteV) = true := by simp [hw, hvalid]
    have hk := keeps_marked h hs hl
    have hq : Held (mapping riscv roots (marked t p i e)) (riscv.page e) :=
      hk.mapped _ ⟨_, hs.mapping_leaf hl⟩
    have hwf := hk.inv.wf_shared hq
    have hva := forkVa_toNat h2 h1 h0
    rw [← hv] at hva
    unfold uvmcopyPage
    refine .bind_ok (run_readPte t p i) ?_
    rw [if_neg hinvalid, hw]
    refine .bind_ok (run_storePte t p i _) (.bind_ok (run_sfenceVma_marked t p i e)
      (.bind_ok (run_refcntInc hk.inv.unlocked (hk.inv.counted.pos hq)) ?_))
    generalize hx : ofNat 64 i2 <<< 30 ||| ofNat 64 i1 <<< 21 |||
      ofNat 64 i <<< 12 = va at hva ⊢
    have hpage : pageNo va = v := by
      unfold pageNo
      omega
    have hleaf : leafAt riscv ((marked t p i e).shared (riscv.page e)) new (pageNo va) =
        leafAt riscv t new v := by
      have := leafAt_marked h hs hl hn hs.user
      rw [if_neg fun hc => hne hc.1.symm] at this
      rw [hpage]
      exact this
    cases hnew : leafAt riscv t new v with
    | some e' =>
      -- The child has the page already, so `mappages` panics.
      rw [hnew] at hleaf
      refine .bind_error (run_mappages_remap (by omega) hleaf) fun hn => ?_
      simp [hN hn (by simp [hl])] at hnew
    | none =>
      rw [hnew] at hleaf
      have ht := mappages_shared hwf hn (by omega) (hpage ▸ hs.user) hleaf (by rwa [mapping_shared])
        (isFlags_pteFlags (cowPte e))
      rw [riscv_page, va2pa_pa2va, hpage] at ht
      refine .bind (.of_total ht) fun ret u hpost => ?_
      cases ret with
      | ok _ =>
        obtain ⟨hm, hpg⟩ := hpost
        have hfree : mapping riscv roots (marked t p i e) (new, v) = none := by
          rw [mapping_of_mem hn hs.user, leafAt_marked h hs hl hn hs.user,
            if_neg fun hc => hne hc.1.symm, hnew]
          rfl
        have hshare := keeps_share hk.inv hq hfree hm hpg
        refine .pure ?_
        simp only [CopyPost, hl]
        refine ⟨hnew, hk.trans hshare, fun r hr v' hv' => ?_⟩
        have hold := leafAt_marked h hs hl hr hv'
        rw [hm.leaf r hr v' hv']
        change (if r = new ∧ v' = v then _ else leafAt riscv (marked t p i e) r v') = _
        rw [hold]
        grind [childPte]
      | error err =>
        obtain ⟨rfl, hshort, g⟩ := hpost
        refine (Meets.of_total (restore_total h hs hl g .noMem)).mono fun o w ho => ?_
        obtain ⟨rfl, hrest⟩ := ho
        simp only [CopyPost, hl]
        exact ⟨trivial, hshort, hrest⟩

/-! ## The three loops -/

/-- The pages below `k` have been shared. -/
structure Copying (roots kept : Set Word) (m t : Machine) (old new : Word) (k : Nat) : Prop extends
    Keeps riscv roots kept m t where
  parent : ∀ v < userPages, leafAt riscv t old v =
    if v < k then (leafAt riscv m old v).map cowPte else leafAt riscv m old v
  child : ∀ v < userPages, leafAt riscv t new v =
    if v < k then ((leafAt riscv m old v).map childPte).or (leafAt riscv m new v)
    else leafAt riscv m new v
  fresh : ∀ v < userPages, v < k → leafAt riscv m old v ≠ none → leafAt riscv m new v = none
  rest : ∀ r ∈ roots, r ≠ old → r ≠ new → ∀ v < userPages, leafAt riscv t r v = leafAt riscv m r v
  free : (∀ v < userPages, v < k → leafAt riscv m old v = none) → t.freelist = m.freelist

/-- The pages below some page have been shared, and the entry of that page was put back. -/
def CopyFailed (roots kept : Set Word) (m u : Machine) (old new : Word) : Prop :=
  ∃ t k e, k < userPages ∧ Copying roots kept m t old new k ∧ leafAt riscv m old k = some e ∧
    t.freelist.length < 2 ∧ PageRestored roots kept t u old k e

namespace Copying

lemma zero (h : Inv riscv roots kept m) : Copying roots kept m m old new 0 where
  toKeeps := .refl h
  parent v _ := by simp
  child v _ := by simp
  fresh v _ hk := absurd hk (not_lt_zero v)
  rest _ _ _ _ _ _ := rfl
  free _ := rfl

section
variable (c : Copying roots kept m t old new k)
include c

lemma skip (hk : k ≤ k') (hnone : ∀ v < userPages, k ≤ v → v < k' → leafAt riscv t old v = none) :
    Copying roots kept m t old new k' where
  toKeeps := c.toKeeps
  parent v hv := by
    have hn := hnone v hv
    rw [c.parent v hv] at hn ⊢
    grind
  child v hv := by
    have hn := hnone v hv
    rw [c.parent v hv] at hn
    rw [c.child v hv]
    grind
  fresh v hv hlt hl := by
    by_cases h : v < k
    · exact c.fresh v hv h hl
    · have hn := hnone v hv (by omega) hlt
      rw [c.parent v hv, if_neg h] at hn
      exact absurd hn hl
  rest := c.rest
  free hall := c.free fun v hv hlt => hall v hv (by omega)

lemma step (hk : k < userPages) (ho : old ∈ roots)
    (hn : new ∈ roots) (hne : old ≠ new) (hp : CopyPost roots kept t old new k none u) :
    Copying roots kept m u old new (k + 1) := by
  unfold CopyPost at hp
  have hold := c.parent k hk
  rw [if_neg (by omega)] at hold
  cases hl : leafAt riscv t old k with
  | none =>
    simp only [hl] at hp
    subst hp
    refine c.skip (by omega) fun v hv h1 h2 => ?_
    obtain rfl : v = k := by omega
    exact hl
  | some e =>
    simp only [hl] at hp
    obtain ⟨hnew, hs⟩ := hp
    rw [hl] at hold
    refine ⟨c.toKeeps.trans hs.toKeeps, fun v hv => ?_, fun v hv => ?_, fun v hv hlt hm => ?_,
      fun r hr h1 h2 v hv => ?_, fun hall => ?_⟩
    · rw [hs.leaf old ho v hv, c.parent v hv]
      grind
    · rw [hs.leaf new hn v hv, c.child v hv]
      grind
    · by_cases h : v < k
      · exact c.fresh v hv h hm
      · obtain rfl : v = k := by omega
        rwa [c.child v hv, if_neg h] at hnew
    · rw [hs.leaf r hr v hv, if_neg (by simp [h1]), if_neg (by simp [h2]), c.rest r hr h1 h2 v hv]
    · simp [hall k hk (by omega)] at hold

lemma fail (hk : k < userPages) (hp : CopyPost roots kept t old new k (some err) u) :
    err = .noMem ∧ CopyFailed roots kept m u old new := by
  unfold CopyPost at hp
  have hold := c.parent k hk
  rw [if_neg (by omega)] at hold
  cases hl : leafAt riscv t old k with
  | none => simp [hl] at hp
  | some e =>
    simp only [hl] at hp
    exact ⟨hp.1, t, k, e, hk, c, hold ▸ hl, hp.2⟩

end

end Copying

lemma CopyPost.keeps (h : Inv riscv roots kept t)
    (hp : CopyPost roots kept t old new v o u) : Keeps riscv roots kept t u := by
  unfold CopyPost at hp
  split at hp
  · subst hp
    exact .refl h
  · exact hp.2.toKeeps
  · exact hp.elim
  · exact hp.2.2.toKeeps

/-- What a loop over a part of the address space achieves, started in `t` with `k` pages left. -/
def LoopPost (roots kept : Set Word) (m t : Machine) (old new : Word) (k : Nat) (o : Option Err)
    (u : Machine) : Prop :=
  match o with
  | none => Copying roots kept m u old new k ∧ Keeps riscv roots kept t u
  | some err => err = .noMem ∧ CopyFailed roots kept m u old new

/-- The child has none of the pages of the parent. -/
def Uncopied (m : Machine) (old new : Word) : Prop :=
  ∀ v < userPages, leafAt riscv m old v ≠ none → leafAt riscv m new v = none

lemma Copying.uncopied (c : Copying roots kept m t old new k) (h : Uncopied m old new)
    (hk : k < userPages) (hl : leafAt riscv t old k ≠ none) : leafAt riscv t new k = none := by
  rw [c.parent k hk, if_neg (by omega)] at hl
  rw [c.child k hk, if_neg (by omega)]
  exact h k hk hl

section Loops

variable (hn : new ∈ roots) (ho : old ∈ roots) (hne : old ≠ new)

include hn ho hne

lemma copyTable0_meets (h2 : i2 < 256) (h1 : i1 < 512)
    (hd : descend riscv.next t.word old [i2, i1] = some pt0)
    (c : Copying roots kept m t old new ((i2 * 512 + i1) * 512)) :
    Meets (Uncopied m old new) (search (fun i0 => uvmcopyPage new pt0 i2 i1 i0) 0 512) t
      (LoopPost roots kept m t old new ((i2 * 512 + i1) * 512 + 512)) := by
  refine (Meets.search (R := fun err u => err = .noMem ∧ CopyFailed roots kept m u old new)
    (fun i0 t' => Copying roots kept m t' old new ((i2 * 512 + i1) * 512 + i0) ∧
      Keeps riscv roots kept t t') ⟨by simpa using c, .refl c.inv⟩ fun i0 t' _ h0 hJ => ?_).mono
    fun o u hu => ?_
  · obtain ⟨c', k'⟩ := hJ
    have hlt : (i2 * 512 + i1) * 512 + i0 < userPages := by
      unfold userPages
      omega
    have hpath : pathOf ((i2 * 512 + i1) * 512 + i0) = [i2, i1] := by
      simp only [pathOf, cons.injEq, and_true]
      omega
    have hs : UserSlot riscv roots t' old ((i2 * 512 + i1) * 512 + i0) pt0 i0 := by
      refine ⟨ho, hlt, ?_⟩
      have hmem := userLevels_pathOf hlt
      rw [hpath] at hmem
      rw [slotAt, hpath, k'.path old ho [i2, i1] hmem pt0 hd]
      simp only [Option.map_some, Option.some.injEq, Prod.mk.injEq, true_and]
      omega
    refine (uvmcopyPage_meets c'.inv hn hne hs h2 h1 (by omega) rfl
      fun hN => c'.uncopied hN hlt).mono fun o u hp => ?_
    cases o with
    | none =>
      have hstep := c'.step hlt ho hn hne hp
      rw [add_assoc] at hstep
      exact ⟨hstep, k'.trans (hp.keeps c'.inv)⟩
    | some err => exact c'.fail hlt hp
  · cases o with
    | none => exact ⟨by simpa only [zero_add] using hu.1, hu.2⟩
    | some err => exact hu

lemma copyTable1_meets (h2 : i2 < 256) (hd : descend riscv.next t.word old [i2] = some pt1)
    (c : Copying roots kept m t old new (i2 * 512 * 512)) :
    Meets (Uncopied m old new) (search (fun i1 => do
        let pte1 ← readPte pt1 i1
        if !has pte1 pteV then pure none
        else search (fun i0 => uvmcopyPage new (riscv.page pte1) i2 i1 i0) 0 512) 0 512) t
      (LoopPost roots kept m t old new (i2 * 512 * 512 + 512 * 512)) := by
  refine (Meets.search (R := fun err u => err = .noMem ∧ CopyFailed roots kept m u old new)
    (fun i1 t' => Copying roots kept m t' old new ((i2 * 512 + i1) * 512) ∧
      Keeps riscv roots kept t t') ⟨by simpa using c, .refl c.inv⟩ fun i1 t' _ h1 hJ => ?_).mono
    fun o u hu => ?_
  · obtain ⟨c', k'⟩ := hJ
    have hd' : descend riscv.next t'.word old [i2] = some pt1 := by
      refine k'.path old ho [i2] ⟨i2 * 512 * 512, ?_, ?_⟩ pt1 hd
      · unfold userPages
        omega
      · refine ⟨[0], ?_⟩
        simp only [pathOf, cons_append, nil_append, cons.injEq, and_true]
        omega
    have hsnoc : descend riscv.next t'.word old [i2, i1] = riscv.next (t'.word pt1 i1) := by
      rw [show [i2, i1] = [i2] ++ [i1] from rfl, descend_snoc, hd']
      rfl
    refine .bind_ok (run_readPte t' pt1 i1) ?_
    cases hb : bit (t'.word pt1 i1) 0 with
    | false =>
      rw [if_pos (by simp [hb])]
      refine .pure ⟨?_, k'⟩
      refine c'.skip (by omega) fun v hv hv1 hv2 => ?_
      have hpath : pathOf v = [i2, i1] := by
        simp only [pathOf, cons.injEq, and_true]
        omega
      simp [leafAt, slotAt, hpath, hsnoc, riscv_next, hb]
    | true =>
      rw [if_neg (by simp [hb])]
      have hd0 : descend riscv.next t'.word old [i2, i1] = some (riscv.page (t'.word pt1 i1)) := by
        rw [hsnoc, riscv_next, hb, if_pos rfl]
      refine (copyTable0_meets hn ho hne h2 (by omega) hd0 c').mono fun o u hp => ?_
      cases o with
      | none =>
        refine ⟨?_, k'.trans hp.2⟩
        rw [show (i2 * 512 + (i1 + 1)) * 512 = (i2 * 512 + i1) * 512 + 512 by omega]
        exact hp.1
      | some err => exact hp
  · cases o with
    | none =>
      refine ⟨?_, hu.2⟩
      rw [show i2 * 512 * 512 + 512 * 512 = (i2 * 512 + (0 + 512)) * 512 by omega]
      exact hu.1
    | some err => exact hu

end Loops

lemma uvmcopy_meets (h : Inv riscv roots kept m) (hn : new ∈ roots) (ho : old ∈ roots)
    (hne : old ≠ new) :
    Meets (Uncopied m old new) (uvmcopy old new) m fun ret u => match ret with
      | .ok _ => Copying roots kept m u old new userPages
      | .error err => err = .noMem ∧ CopyFailed roots kept m u old new := by
  unfold uvmcopy
  refine .bind (.search (R := fun err u => err = .noMem ∧ CopyFailed roots kept m u old new)
    (fun i2 t => Copying roots kept m t old new (i2 * 512 * 512)) (by simpa using Copying.zero h)
    fun i2 t _ h2 c => ?_) fun o u hu => ?_
  · refine .bind_ok (run_readPte t old i2) ?_
    have hdesc : descend riscv.next t.word old [i2] = riscv.next (t.word old i2) := by
      rw [show [i2] = [] ++ [i2] from rfl, descend_snoc]
      rfl
    cases hb : bit (t.word old i2) 0 with
    | false =>
      rw [if_pos (by simp [hb])]
      refine .pure (c.skip (by omega) fun v hv hv1 hv2 => ?_)
      have hhead : v / 512 / 512 % 512 = i2 := by omega
      simp [leafAt, slotAt, pathOf, descend, hhead, riscv_next, hb]
    | true =>
      rw [if_neg (by simp [hb])]
      have hd : descend riscv.next t.word old [i2] = some (riscv.page (t.word old i2)) := by
        rw [hdesc, riscv_next, hb, if_pos rfl]
      refine (copyTable1_meets hn ho hne (by omega) hd c).mono fun o u hp => ?_
      cases o with
      | none =>
        rw [show (i2 + 1) * 512 * 512 = i2 * 512 * 512 + 512 * 512 by omega]
        exact hp.1
      | some err => exact hp
  · cases o with
    | none =>
      have hall : (0 + 256) * 512 * 512 = userPages := by
        unfold userPages
        omega
      refine .pure ?_
      rw [← hall]
      exact hu
    | some err => exact .pure hu

end FrostVista.Riscv
