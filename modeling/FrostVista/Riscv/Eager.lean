import FrostVista.Riscv.System

/-!
# Copy-on-write refines eager copying

In the eager model every address space owns its pages: a fork copies the bytes of every page at
once, and a store changes one page of one address space. The module shows that each step of the
system is a step of the eager model on the bytes the processes see, as long as pages are mapped
writable and memory does not run out. Behind this is the invariant `Cow`: an entry with write
permission is the only one that leads to its page.
-/
namespace FrostVista.Riscv

open Lib Lib.Comp Lib.Radix Lib.RefCount Option

/-! ## The eager model -/

/-- The bytes of every page of every address space. -/
abbrev Spaces := Word → Nat → Option (Nat → Byte)

/-- The bytes from `off` on are replaced. -/
def patch (c : Nat → Byte) (off : Nat) (bs : List Byte) : Nat → Byte := fun o =>
  if off ≤ o ∧ o < off + bs.length then bs.getD (o - off) 0 else c o

/-- The bytes in a row of words. -/
def rowBytes (w : Nat → Word) : Nat → Byte := fun off => getByte (w (off / 8)) (off % 8)

namespace Spaces

variable (b : Spaces)

def put (r : Word) (v : Nat) (c : Nat → Byte) : Spaces := fun r' v' =>
  if r' = r ∧ v' = v then some c else b r' v'

def alloc (r : Word) (v n : Nat) : Spaces := fun r' v' =>
  if r' = r ∧ v ≤ v' ∧ v' < v + n then some fun _ => 0 else b r' v'

def remove (r : Word) (v n : Nat) : Spaces := fun r' v' =>
  if r' = r ∧ v ≤ v' ∧ v' < v + n then none else b r' v'

/-- Every page of `old` is copied to `new`. -/
def fork (old new : Word) : Spaces := fun r v =>
  if r = new then (b old v).or (b new v) else b r v

/-- The bytes of a page the kernel is about to write for `p`; it may map the page on demand. -/
def Demand (p : Process) (va : Word) (c : Nat → Byte) : Prop :=
  b p.pagetable (pageNo va) = some c ∨
    (b p.pagetable (pageNo va) = none ∧ ∃ perm w, OnDemand p va perm w ∧ c = rowBytes w)

/-- The rounds of a copy to user memory; it stops at a page that is not mapped. -/
inductive CopyTo (p : Process) : Spaces → Word → List Byte → Ret → Spaces → Prop where
  | done (b : Spaces) (dst : Word) : CopyTo p b dst [] (.ok ()) b
  | round {b b' : Spaces} {dst : Word} {src : List Byte} {ret : Ret} {c : Nat → Byte} :
      src ≠ [] → b.Demand p (pgRoundDown dst) c →
      CopyTo p (b.put p.pagetable (pageNo dst)
          (patch c (dst.toNat % 4096) (src.take (chunk dst src.length))))
        (dst + BitVec.ofNat 64 (chunk dst src.length)) (src.drop (chunk dst src.length)) ret b' →
      CopyTo p b dst src ret b'
  | stop {b : Spaces} {dst : Word} {src : List Byte} {e : Err} :
      src ≠ [] → b p.pagetable (pageNo dst) = none → CopyTo p b dst src (.error e) b

end Spaces

open Spaces (put remove alloc fork)

inductive EagerStep : Spaces → Action → Spaces → Prop where
  | create (b : Spaces) : EagerStep b .create b
  | take (b : Spaces) : EagerStep b .take b
  | give (b : Spaces) (q : Word) : EagerStep b (.give q) b
  | uvmalloc {b : Spaces} {r va size : Word} (perm : Word) :
      (∀ v, pageNo va ≤ v → v < pageNo va + pagesBelow (pgRoundDown va) (pgRoundUp (va + size)) →
        b r v = none) →
      EagerStep b (.call (.uvmalloc r va size perm) (.ok ()))
        (b.alloc r (pageNo va) (pagesBelow (pgRoundDown va) (pgRoundUp (va + size))))
  | uvmallocError (b : Spaces) (r va size perm : Word) (e : Err) :
      EagerStep b (.call (.uvmalloc r va size perm) (.error e)) b
  | pageFault {b : Spaces} {r va : Word} (p : Process) : b r (pageNo va) = none →
      EagerStep b (.call (.pageFault p r va) (.ok ())) (b.put r (pageNo va) fun _ => 0)
  | pageFaultError (b : Spaces) (p : Process) (r va : Word) (e : Err) :
      EagerStep b (.call (.pageFault p r va) (.error e)) b
  | anonymousFault {b : Spaces} {p : Process} {va : Word} (vma : Vma) :
      b p.pagetable (pageNo va) = none →
      EagerStep b (.call (.anonymousFault p vma va) (.ok ()))
        (b.put p.pagetable (pageNo va) fun _ => 0)
  | anonymousFaultError (b : Spaces) (p : Process) (vma : Vma) (va : Word) (e : Err) :
      EagerStep b (.call (.anonymousFault p vma va) (.error e)) b
  | fileFault {b : Spaces} {p : Process} {va : Word} (fs : FileSys) (vma : Vma) (file : Nat)
      (c : Nat → Byte) : b p.pagetable (pageNo va) = none →
      EagerStep b (.call (.fileFault fs p vma file va) (.ok ())) (b.put p.pagetable (pageNo va) c)
  | fileFaultError (b : Spaces) (fs : FileSys) (p : Process) (vma : Vma) (file : Nat) (va : Word)
      (e : Err) : EagerStep b (.call (.fileFault fs p vma file va) (.error e)) b
  | fork (b : Spaces) (old new : Word) :
      EagerStep b (.call (.fork old new) (.ok ())) (b.fork old new)
  | storeFault (b : Spaces) (r va : Word) (ret : Ret) :
      EagerStep b (.call (.storeFault r va) ret) b
  | store {b : Spaces} {r va : Word} {c : Nat → Byte} (x : Byte) : b r (pageNo va) = some c →
      EagerStep b (.call (.store r va x) (.ok ()))
        (b.put r (pageNo va) (patch c (va.toNat % 4096) [x]))
  | storeError {b : Spaces} {r va : Word} (x : Byte) (e : Err) : b r (pageNo va) = none →
      EagerStep b (.call (.store r va x) (.error e)) b
  | copyout {b b' : Spaces} {fs : FileSys} {p : Process} {dst : Word} {src : List Byte}
      {ret : Ret} : Spaces.CopyTo p b dst src ret b' →
      EagerStep b (.call (.copyout fs p dst src) ret) b'
  | kvmunmap (b : Spaces) (r va size : Word) (ret : Ret) :
      EagerStep b (.call (.kvmunmap r va size) ret) (b.remove r (pageNo va) (size.toNat / 4096))
  | uvmunmap (b : Spaces) (r va : Word) (npage : BitVec 32) (ret : Ret) :
      EagerStep b (.call (.uvmunmap r va npage) ret)
        (b.remove r (pageNo va) (pagesBelow va (va + npage.signExtend 64 * 4096#64)))

/-! ## What the processes see -/

open Classical in
/-- The bytes behind the mappings of the machine. -/
noncomputable def view (roots : Set Word) (m : Machine) : Spaces := fun r v =>
  if r ∈ roots ∧ v < userPages then
    (leafAt riscv m r v).map fun e => rowBytes (m.word (riscv.page e))
  else none

/-- Every page is open to the process, and an entry with write permission is the only one that
leads to its page. -/
structure Cow (roots : Set Word) (m : Machine) : Prop where
  allowed : ∀ r ∈ roots, ∀ v < userPages, ∀ e, leafAt riscv m r v = some e →
    bit e 4 = true ∧ (bit e 2 = true ∨ bit e 8 = true)
  sole : ∀ r ∈ roots, ∀ v < userPages, ∀ e, leafAt riscv m r v = some e → bit e 2 = true →
    ∀ r' ∈ roots, ∀ v' < userPages, ∀ e', leafAt riscv m r' v' = some e' →
      riscv.page e' = riscv.page e → r' = r ∧ v' = v

variable {roots kept : Set Word} {m m' m₁ : Machine} {r va dst : Word} {v n : Nat}
  {p : Process} {src : List Byte} {ret : Ret} {e : Word}

lemma readByte_eq (m : Machine) (q : Word) (off : Nat) :
    m.readByte q off = rowBytes (m.word q) off := rfl

@[simp] lemma rowBytes_zero : rowBytes (fun _ => 0) = fun _ => 0 := by
  funext off
  simp [rowBytes, getByte]

lemma view_of_mem (hr : r ∈ roots) (hv : v < userPages) :
    view roots m r v = (leafAt riscv m r v).map fun e => rowBytes (m.word (riscv.page e)) :=
  if_pos ⟨hr, hv⟩

lemma view_of_not_mem (h : ¬(r ∈ roots ∧ v < userPages)) : view roots m r v = none := if_neg h

lemma view_ext (hin : ∀ r ∈ roots, ∀ v < userPages,
    (leafAt riscv m r v).map (fun e => rowBytes (m.word (riscv.page e))) = b r v)
    (hout : ∀ r v, ¬(r ∈ roots ∧ v < userPages) → b r v = none) : view roots m = b := by
  funext r v
  by_cases h : r ∈ roots ∧ v < userPages
  · rw [view_of_mem h.1 h.2, hin r h.1 v h.2]
  · rw [view_of_not_mem h, hout r v h]

lemma held_of_leaf (hr : r ∈ roots) (hv : v < userPages) (hl : leafAt riscv m r v = some e) :
    Held (mapping riscv roots m) (riscv.page e) :=
  ⟨(r, v), mapping_eq_some.mpr ⟨hr, hv, e, hl, rfl⟩⟩

/-! ## Effects on the view -/

lemma map_rowBytes (hr : r ∈ roots) (hv : v < userPages)
    (huser : ∀ q, Held (mapping riscv roots m) q → m'.word q = m.word q) :
    (leafAt riscv m r v).map (fun e => rowBytes (m'.word (riscv.page e))) = view roots m r v := by
  rw [view_of_mem hr hv]
  refine map_congr fun e he => ?_
  rw [huser _ (held_of_leaf hr hv he)]

lemma view_stable (s : Stable riscv roots kept m m') : view roots m' = view roots m := by
  refine view_ext (fun r hr v hv => ?_) fun r v h => view_of_not_mem h
  rw [s.leaf r hr v hv, map_rowBytes hr hv s.user]

lemma view_faulted (hr : r ∈ roots) (hv : v < userPages)
    (f : Faulted riscv roots kept m m' r v e c) : view roots m' =
    (view roots m).put r v (rowBytes c) := by
  refine view_ext (fun r' hr' v' hv' => ?_) fun r' v' h => ?_
  · rw [f.leaf r' hr' v' hv', put]
    split
    · rw [map_some, f.content]
    · exact map_rowBytes hr' hv' f.user
  · rw [put, if_neg (by rintro ⟨rfl, rfl⟩; exact h ⟨hr, hv⟩), view_of_not_mem h]

lemma view_cowResolved (hr : r ∈ roots) (hv : v < userPages) (hl : leafAt riscv m r v = some e)
    (c : CowResolved roots kept m m' r v e) : view roots m' = view roots m := by
  rcases c with ⟨-, rfl⟩ | ⟨-, q, hc⟩
  · rfl
  refine view_ext (fun r' hr' v' hv' => ?_) fun r' v' h => view_of_not_mem h
  have hleaf := hc.leaf r' hr' v' hv'
  rw [view_of_mem hr' hv', hleaf]
  split
  · rename_i heq
    obtain ⟨rfl, rfl⟩ := heq
    rw [hl, map_some, map_some, hc.content]
  · rename_i hne
    rw [if_neg hne] at hleaf
    refine map_congr fun e' he' => ?_
    rw [hc.user _ (held_of_leaf hr' hv' he') (held_of_leaf hr' hv' (hleaf.trans he'))]

lemma view_unmaps (h : Cow roots m) (u : Unmaps roots kept m m' r v n) :
    view roots m' = (view roots m).remove r v n := by
  refine view_ext (fun r' hr' v' hv' => ?_) fun r' v' hx => ?_
  · have hleaf := u.leaf r' hr' v' hv'
    rw [hleaf, remove]
    split
    · cases hl : leafAt riscv m r' v' with
      | none => rfl
      | some e' =>
        have hu := (h.allowed r' hr' v' hv' e' hl).1
        simp [unmapped, not_bare_of_bit (by decide) (by decide) hu]
    · rename_i hne
      rw [if_neg hne] at hleaf
      rw [view_of_mem hr' hv']
      refine map_congr fun e' he' => ?_
      rw [u.user _ (held_of_leaf hr' hv' (hleaf.trans he'))]
  · rw [remove, view_of_not_mem hx, ite_self]

lemma view_allocated (hr : r ∈ roots) (hv : v + n ≤ userPages)
    (a : Allocated riscv roots kept m m' r v n entry) : view roots m' =
    (view roots m).alloc r v n := by
  refine view_ext (fun r' hr' v' hv' => ?_) fun r' v' hx => ?_
  · rw [alloc]
    split
    · rename_i hc
      obtain ⟨rfl, h1, h2⟩ := hc
      obtain ⟨-, e', hl, -, -, hz⟩ := a.inside v' h1 h2
      rw [hl, map_some, hz, rowBytes_zero]
    · rename_i hc
      rw [a.outside r' hr' v' hv' hc, map_rowBytes hr' hv' a.user]
  · rw [alloc, if_neg ?_, view_of_not_mem hx]
    rintro ⟨rfl, h1, h2⟩
    exact hx ⟨hr, by omega⟩

lemma view_copying (ho : old ∈ roots) (hn : new ∈ roots)
    (c : Copying roots kept m m' old new userPages) : view roots m' =
    (view roots m).fork old new := by
  refine view_ext (fun r hr v hv => ?_) fun r v hx => ?_
  · have huser : ∀ e, leafAt riscv m old v = some e →
        rowBytes (m'.word (riscv.page e)) = rowBytes (m.word (riscv.page e)) := fun e he => by
      rw [c.user _ (held_of_leaf ho hv he)]
    rw [fork]
    split
    · rename_i heq
      subst heq
      rw [c.child v hv, if_pos hv, view_of_mem ho hv, view_of_mem hr hv]
      cases hl : leafAt riscv m old v with
      | none =>
        refine map_congr fun e he => ?_
        rw [c.user _ (held_of_leaf hr hv (by simpa using he))]
      | some e =>
        simp [page_childPte, huser e hl]
    · rename_i hne
      rw [view_of_mem hr hv]
      by_cases hro : r = old
      · subst hro
        rw [c.parent v hv, if_pos hv]
        cases hl : leafAt riscv m r v with
        | none => rfl
        | some e => simp [page_cowPte, huser e hl]
      · rw [c.rest r hr hro hne v hv, map_rowBytes hr hv c.user, view_of_mem hr hv]
  · rw [fork]
    split
    · rename_i heq
      subst heq
      have hv : ¬v < userPages := fun hv => hx ⟨hn, hv⟩
      rw [view_of_not_mem hx, view_of_not_mem fun hc => hv hc.2]
      rfl
    · exact view_of_not_mem hx

lemma rowBytes_writeBytes (m : Machine) (q : Word) (off : Nat) (bs : List Byte) :
    rowBytes ((m.writeBytes q off bs).word q) = patch (rowBytes (m.word q)) off bs := by
  funext o
  have h := m.readByte_writeBytes q q off o bs
  simp only [readByte_eq, true_and] at h
  rw [h, patch]

lemma word_writeBytes_of_ne (hx : x ≠ q) (m : Machine) (off : Nat)
    (bs : List Byte) : (m.writeBytes q off bs).word x = m.word x := by
  obtain ⟨c, hc⟩ := m.writeBytes_eq_setPage q off bs
  rw [hc, Machine.setPage_word, Function.update_of_ne hx]

lemma view_writeBytes (hi : Inv riscv roots kept m) (h : Cow roots m) (hr : r ∈ roots)
    (hv : v < userPages) (hl : leafAt riscv m r v = some e) (hw : bit e 2 = true) (off : Nat)
    (bs : List Byte) : view roots (m.writeBytes (riscv.page e) off bs) =
      (view roots m).put r v (patch (rowBytes (m.word (riscv.page e))) off bs) := by
  have hnt := hi.not_table_of_held (held_of_leaf hr hv hl)
  have htab : ∀ x, IsTable riscv roots m x →
      (m.writeBytes (riscv.page e) off bs).word x = m.word x := by
    intro x hx
    refine word_writeBytes_of_ne ?_ m off bs
    rintro rfl
    exact hnt hx
  refine view_ext (fun r' hr' v' hv' => ?_) fun r' v' hx => ?_
  · rw [leafAt_congr htab hr' hv', put]
    split
    · rename_i heq
      obtain ⟨rfl, rfl⟩ := heq
      rw [hl, map_some, rowBytes_writeBytes]
    · rename_i hne
      rw [view_of_mem hr' hv']
      refine map_congr fun e' he' => ?_
      rw [word_writeBytes_of_ne fun hp => hne (h.sole r hr v hv e hl hw r' hr' v' hv' e' he' hp)]
  · rw [put, if_neg (by rintro ⟨rfl, rfl⟩; exact hx ⟨hr, hv⟩), view_of_not_mem hx]

/-! ## Private writable pages -/

namespace Cow

section
variable (h : Cow roots m)
include h

lemma of_back {roots' : Set Word} (hback : ∀ r ∈ roots', ∀ v < userPages, ∀ e,
    leafAt riscv m' r v = some e → r ∈ roots ∧ leafAt riscv m r v = some e) : Cow roots' m' := by
  refine ⟨fun r hr v hv e hl => ?_, fun r1 hr1 v1 hv1 e1 hl1 hw r2 hr2 v2 hv2 e2 hl2 => ?_⟩
  · obtain ⟨hs, hl⟩ := hback r hr v hv e hl
    exact h.allowed r hs v hv e hl
  · obtain ⟨hs1, hl1⟩ := hback r1 hr1 v1 hv1 e1 hl1
    obtain ⟨hs2, hl2⟩ := hback r2 hr2 v2 hv2 e2 hl2
    exact h.sole r1 hs1 v1 hv1 e1 hl1 hw r2 hs2 v2 hv2 e2 hl2

lemma congr (hleaf : ∀ r ∈ roots, ∀ v < userPages,
    leafAt riscv m' r v = leafAt riscv m r v) : Cow roots m' :=
  h.of_back fun r hr v hv _ hl => ⟨hr, hleaf r hr v hv ▸ hl⟩

lemma replace (hi : Inv riscv roots kept m) (hleaf : ∀ r' ∈ roots,
    ∀ v' < userPages,
      leafAt riscv m' r' v' = if r' = r ∧ v' = v then some e else leafAt riscv m r' v')
    (hfree : riscv.page e ∈ m.freelist)
    (he : bit e 4 = true ∧ (bit e 2 = true ∨ bit e 8 = true)) : Cow roots m' where
  allowed r' hr' v' hv' e' hl := by
    rw [hleaf r' hr' v' hv'] at hl
    split at hl
    · cases hl
      exact he
    · exact h.allowed r' hr' v' hv' e' hl
  sole r1 hr1 v1 hv1 e1 hl1 hw r2 hr2 v2 hv2 e2 hl2 hp := by
    have hold : ∀ r' ∈ roots, ∀ v' < userPages, ∀ e', leafAt riscv m r' v' = some e' →
        riscv.page e' ≠ riscv.page e := fun r' hr' v' hv' e' hl hc =>
      hi.not_held_of_free hfree (hc ▸ held_of_leaf hr' hv' hl)
    rw [hleaf r1 hr1 v1 hv1] at hl1
    rw [hleaf r2 hr2 v2 hv2] at hl2
    split at hl1 <;> split at hl2 <;> rename_i hc1 hc2
    · exact ⟨hc2.1.trans hc1.1.symm, hc2.2.trans hc1.2.symm⟩
    · cases hl1
      exact absurd hp (hold r2 hr2 v2 hv2 e2 hl2)
    · cases hl2
      exact absurd hp.symm (hold r1 hr1 v1 hv1 e1 hl1)
    · exact h.sole r1 hr1 v1 hv1 e1 hl1 hw r2 hr2 v2 hv2 e2 hl2 hp

lemma unmaps (u : Unmaps roots kept m m' r v n) : Cow roots m' := by
  refine h.of_back fun r' hr' v' hv' e' hl => ⟨hr', ?_⟩
  rw [u.leaf r' hr' v' hv'] at hl
  split at hl
  · exact unmapped_eq_some hl
  · exact hl

lemma resolved (hi : Inv riscv roots kept m) (hr : r ∈ roots) (hv : v < userPages)
    (hl : leafAt riscv m r v = some e) (c : CowResolved roots kept m m' r v e) : Cow roots m' := by
  rcases c with ⟨-, rfl⟩ | ⟨-, q, hc⟩
  · exact h
  · refine h.replace hi hc.leaf hc.fresh ⟨?_, .inl ?_⟩
    · rw [bit_resolvedPte _ _ (by decide), (h.allowed r hr v hv e hl).1]
      decide
    · simp [bit_resolvedPte]

lemma allocated (hi : Inv riscv roots kept m)
    (a : Allocated riscv roots kept m m' r v n (IsUserEntry perm))
    (hp : has perm permWrite = true) : Cow roots m' := by
  -- An entry is one of the new ones, or it was there before.
  have hcases : ∀ r' ∈ roots, ∀ v' < userPages, ∀ e', leafAt riscv m' r' v' = some e' →
      (r' = r ∧ v ≤ v' ∧ v' < v + n ∧ IsUserEntry perm e' ∧ riscv.page e' ∈ m.freelist) ∨
        leafAt riscv m r' v' = some e' := by
    intro r' hr' v' hv' e' hl
    by_cases hc : r' = r ∧ v ≤ v' ∧ v' < v + n
    · obtain ⟨rfl, h1, h2⟩ := hc
      obtain ⟨-, e, hle, he, hfree, -⟩ := a.inside v' h1 h2
      rw [hl] at hle
      cases hle
      exact .inl ⟨rfl, h1, h2, he, hfree⟩
    · rw [a.outside r' hr' v' hv' hc] at hl
      exact .inr hl
  refine ⟨fun r' hr' v' hv' e' hl => ?_,
    fun r1 hr1 v1 hv1 e1 hl1 hw r2 hr2 v2 hv2 e2 hl2 hpg => ?_⟩
  · rcases hcases r' hr' v' hv' e' hl with ⟨-, -, -, he, -⟩ | hl
    · refine ⟨he.bit_user, .inl ?_⟩
      obtain ⟨q, rfl⟩ := he
      rw [bit_leafPte (by decide) (by decide), bit_pteFromPerm, has_permWrite_user, hp]
      simp
    · exact h.allowed r' hr' v' hv' e' hl
  · rcases hcases r1 hr1 v1 hv1 e1 hl1 with ⟨rfl, h1, h2, -, hf1⟩ | hm1 <;>
      rcases hcases r2 hr2 v2 hv2 e2 hl2 with ⟨rfl, h3, h4, -, hf2⟩ | hm2
    · exact ⟨rfl, a.distinct v2 v1 e2 e1 h3 h4 h1 h2 hl2 hl1 hpg⟩
    · rw [← hpg] at hf1
      exact absurd (held_of_leaf hr2 hv2 hm2) (hi.not_held_of_free hf1)
    · rw [hpg] at hf2
      exact absurd (held_of_leaf hr1 hv1 hm1) (hi.not_held_of_free hf2)
    · exact h.sole r1 hr1 v1 hv1 e1 hm1 hw r2 hr2 v2 hv2 e2 hm2 hpg

lemma copying (ho : old ∈ roots)
    (c : Copying roots kept m m' old new userPages) : Cow roots m' := by
  have horigin : ∀ r' ∈ roots, ∀ v' < userPages, ∀ e', leafAt riscv m' r' v' = some e' →
      (∃ e0, leafAt riscv m old v' = some e0 ∧ riscv.page e0 = riscv.page e' ∧ bit e' 4 = bit e0 4 ∧
        bit e' 2 = false ∧ bit e' 8 = true ∧ (r' = old ∨ r' = new)) ∨
      (r' ≠ old ∧ leafAt riscv m r' v' = some e') := by
    intro r' hr' v' hv' e' hl
    by_cases hro : r' = old
    · subst hro
      rw [c.parent v' hv', if_pos hv'] at hl
      obtain ⟨e0, he0, rfl⟩ := map_eq_some_iff.mp hl
      refine .inl ⟨e0, he0, (page_cowPte e0).symm, ?_, ?_, ?_, .inl rfl⟩ <;> simp [bit_cowPte]
    by_cases hrn : r' = new
    · subst hrn
      rw [c.child v' hv', if_pos hv'] at hl
      cases hm : leafAt riscv m old v' with
      | none =>
        rw [hm] at hl
        exact .inr ⟨hro, by simpa using hl⟩
      | some e0 =>
        rw [hm] at hl
        obtain rfl : childPte e0 = e' := by simpa using hl
        refine .inl ⟨e0, rfl, (page_childPte e0).symm, ?_, ?_, ?_, .inr rfl⟩ <;>
          simp [childPte, bit_leafPte, bit_cowPte]
    · rw [c.rest r' hr' hro hrn v' hv'] at hl
      exact .inr ⟨hro, hl⟩
  refine ⟨fun r' hr' v' hv' e' hl => ?_,
    fun r1 hr1 v1 hv1 e1 hl1 hw r2 hr2 v2 hv2 e2 hl2 hpg => ?_⟩
  · rcases horigin r' hr' v' hv' e' hl with ⟨e0, hl0, -, h4, -, h8, -⟩ | ⟨-, hl⟩
    · exact ⟨h4 ▸ (h.allowed old ho v' hv' e0 hl0).1, .inr h8⟩
    · exact h.allowed r' hr' v' hv' e' hl
  · rcases horigin r1 hr1 v1 hv1 e1 hl1 with ⟨-, -, -, -, h2, -⟩ | ⟨hne, hm1⟩
    · simp [h2] at hw
    rcases horigin r2 hr2 v2 hv2 e2 hl2 with ⟨e0, hl0, hp0, -⟩ | ⟨-, hm2⟩
    · have hsole := h.sole r1 hr1 v1 hv1 e1 hm1 hw old ho v2 hv2 e0 hl0 (hp0.trans hpg)
      exact absurd hsole.1.symm hne
    · exact h.sole r1 hr1 v1 hv1 e1 hm1 hw r2 hr2 v2 hv2 e2 hm2 hpg

end

end Cow

/-! ## Steps -/

/-- The mappings an operation may create are writable by the process. -/
def Op.MapsWritable : Op → Prop
  | .uvmalloc _ _ _ perm => has perm permWrite = true
  | .anonymousFault _ vma _ => has vma.vmPageProt permWrite = true ∧
      has vma.vmPageProt permUser = true
  | .fileFault _ _ vma _ _ => has vma.vmPageProt permWrite = true ∧
      has vma.vmPageProt permUser = true
  | .copyout _ p _ _ => ∀ va vma, findOverlappingVma p va 4096#64 = some vma →
      has vma.vmPageProt permWrite = true ∧ has vma.vmPageProt permUser = true
  | _ => True

lemma allowed_area (pa : Word) (h : has perm permWrite = true ∧ has perm permUser = true) :
    bit (leafPte pa (pteFromPerm perm)) 4 = true ∧
      (bit (leafPte pa (pteFromPerm perm)) 2 = true ∨
        bit (leafPte pa (pteFromPerm perm)) 8 = true) := by
  rw [bit_leafPte (by decide) (by decide), bit_leafPte (by decide) (by decide), bit_pteFromPerm,
    bit_pteFromPerm, h.1, h.2]
  simp

lemma allowed_heap (pa : Word) : bit (leafPte pa (pteV ||| pteR ||| pteW ||| pteU)) 4 = true ∧
      (bit (leafPte pa (pteV ||| pteR ||| pteW ||| pteU)) 2 = true ∨
        bit (leafPte pa (pteV ||| pteR ||| pteW ||| pteU)) 8 = true) := by
  rw [bit_leafPte (by decide) (by decide), bit_leafPte (by decide) (by decide)]
  simp

lemma Spaces.put_put (b : Spaces) (r : Word) (v : Nat) (c c' : Nat → Byte) :
    (b.put r v c).put r v c' = b.put r v c' := by
  funext r' v'
  simp only [put]
  split <;> rfl

/-- A page that `copyout` is about to write: its bytes in the eager model are those of the machine,
and the entry is private and writable. -/
lemma prepared_view (hi : Inv riscv roots kept m) (h : Cow roots m) (hr : p.pagetable ∈ roots)
    (hv : pageNo va < userPages) (hp : Prepared roots kept m m' p p.pagetable va)
    (harea : ∀ va vma, findOverlappingVma p va 4096#64 = some vma →
      has vma.vmPageProt permWrite = true ∧ has vma.vmPageProt permUser = true) :
    Cow roots m' ∧ ∃ e, leafAt riscv m' p.pagetable (pageNo va) = some e ∧ bit e 2 = true ∧
      bit e 4 = true ∧ (view roots m).Demand p va (rowBytes (m'.word (riscv.page e))) ∧
      ∀ c, (view roots m').put p.pagetable (pageNo va) c =
        (view roots m).put p.pagetable (pageNo va) c := by
  obtain ⟨m₁, e1, hf, hl1, hc⟩ := hp
  have hi1 := (hf.keeps hi).inv
  have h1 : Cow roots m₁ := by
    rcases hf with ⟨-, rfl⟩ | ⟨-, q, perm, c, hd, hf⟩
    · exact h
    · refine h.replace hi hf.leaf hf.fresh ?_
      rcases hd with ⟨-, -, -, rfl, -⟩ | ⟨-, vma, hvma, rfl, -⟩
      · exact allowed_heap _
      · exact allowed_area _ (harea va vma hvma)
  have h2 := h1.resolved hi1 hr hv hl1 hc
  obtain ⟨e, hl, h8⟩ := hc.leaf hr hv hl1
  have hallow := h2.allowed _ hr _ hv e hl
  have hview := view_cowResolved hr hv hl1 hc
  have hbytes : view roots m' p.pagetable (pageNo va) =
    some (rowBytes (m'.word (riscv.page e))) := by
    rw [view_of_mem hr hv, hl, map_some]
  refine ⟨h2, e, hl, hallow.2.resolve_right (by simp [h8]), hallow.1, ?_⟩
  rw [hview] at hbytes ⊢
  rcases hf with ⟨-, rfl⟩ | ⟨hnone, q, perm, c, hd, hf⟩
  · exact ⟨.inl hbytes, fun _ => rfl⟩
  · rw [view_faulted hr hv hf] at hbytes ⊢
    refine ⟨.inr ⟨by rw [view_of_mem hr hv, hnone, map_none], perm, c, hd, ?_⟩,
      fun _ => Spaces.put_put ..⟩
    simpa [put, eq_comm] using hbytes

lemma eager_copyoutRun (hi : Inv riscv roots kept m) (h : Cow roots m)
    (hr : p.pagetable ∈ roots) (hd : dst.toNat + src.length ≤ 2 ^ 38)
    (harea : ∀ va vma, findOverlappingVma p va 4096#64 = some vma →
      has vma.vmPageProt permWrite = true ∧ has vma.vmPageProt permUser = true) (hret :
        ret ≠ .error .noMem)
    (hrun : CopyoutRun roots kept p p.pagetable m dst src ret m') :
    Cow roots m' ∧ Spaces.CopyTo p (view roots m) dst src ret (view roots m') := by
  induction hrun with
  | done => exact ⟨h, .done _ _⟩
  | @stop m m' dst src err hs hpost =>
    have hlen : 0 < src.length := List.length_pos_iff.mpr hs
    have hv : pageNo dst < userPages := pageNo_lt_userPages (by omega)
    rcases hpost with ⟨hnone, hst⟩ | ⟨rfl, -⟩ | ⟨hprep, e, hl, hperm⟩
    · refine ⟨h.congr hst.leaf, ?_⟩
      rw [view_stable hst]
      exact .stop hs (by rw [view_of_mem hr hv, hnone, map_none])
    · exact absurd rfl hret
    · obtain ⟨-, e', hl', h2, h4, -⟩ := prepared_view hi h hr
        (by rwa [pageNo_pgRoundDown]) hprep harea
      rw [pageNo_pgRoundDown, hl] at hl'
      cases hl'
      exact absurd ⟨h2, h4⟩ hperm
  | @round m m₁ m' dst src ret hs hpost hrest ih =>
    have hlen : 0 < src.length := List.length_pos_iff.mpr hs
    have hv : pageNo dst < userPages := pageNo_lt_userPages (by omega)
    have hi' := hpost.inv hi hr hv
    obtain ⟨m2, e, hprep, hl, -, -, rfl⟩ := hpost
    obtain ⟨h₂, e', hl', h2, -, hdem, hput⟩ :=
      prepared_view hi h hr (by rwa [pageNo_pgRoundDown]) hprep harea
    rw [pageNo_pgRoundDown] at hl' hput
    rw [hl] at hl'
    cases hl'
    have hi2 := hprep.inv hi
    have hleaf : ∀ r ∈ roots, ∀ v < userPages, leafAt riscv (m2.writeBytes (riscv.page e)
        (dst - pgRoundDown dst).toNat (src.take (chunk dst src.length))) r v =
          leafAt riscv m2 r v :=
      fun r' hr' v' hv' => leafAt_congr (word_writeBytes hi2 hr hv hl _ _) hr' hv'
    have hpos := chunk_pos dst hlen
    have hle := chunk_le dst src.length
    obtain ⟨h3, hcopy⟩ := ih hi' (h₂.congr hleaf) (by
      rw [BitVec.toNat_add, BitVec.toNat_ofNat, List.length_drop]
      omega) hret
    refine ⟨h3, .round hs hdem ?_⟩
    rw [view_writeBytes hi2 h₂ hr hv hl h2, hput, pageOffset_toNat] at hcopy
    exact hcopy

lemma view_eq_none (hr : r ∈ roots) (hv : v < userPages) (hl : leafAt riscv m r v = none) :
    view roots m r v = none := by
  rw [view_of_mem hr hv, hl, map_none]

lemma eager_store (hi : Inv riscv roots kept m) (h : Cow roots m) (hr : r ∈ roots)
    (hv : pageNo va < userPages) (hret : ret ≠ .error .noMem)
    (hp : StorePost roots kept m r va b ret m') :
    Cow roots m' ∧ EagerStep (view roots m) (.call (.store r va b) ret) (view roots m') := by
  unfold StorePost at hp
  split at hp
  · obtain ⟨e0, m₁, e, hl0, hc, hl, h2, -, rfl⟩ := hp
    have hi1 := hc.inv hi
    have h1 := h.resolved hi hr hv hl0 hc
    have hview := view_cowResolved hr hv hl0 hc
    have hleaf : ∀ r' ∈ roots, ∀ v' < userPages, leafAt riscv
        (m₁.writeByte (riscv.page e) (va.toNat % 4096) b) r' v' = leafAt riscv m₁ r' v' :=
      fun r' hr' v' hv' => leafAt_congr (word_writeBytes hi1 hr hv hl _ [b]) hr' hv'
    have hbytes : view roots m r (pageNo va) = some (rowBytes (m₁.word (riscv.page e))) := by
      rw [← hview, view_of_mem hr hv, hl, map_some]
    refine ⟨h1.congr hleaf, ?_⟩
    have hw := view_writeBytes hi1 h1 hr hv hl h2 (va.toNat % 4096) [b]
    rw [hview] at hw
    change EagerStep _ _ (view roots (m₁.writeBytes (riscv.page e) (va.toNat % 4096) [b]))
    rw [hw]
    exact .store b hbytes
  · exact absurd rfl hret
  · rcases hp with ⟨hnone, rfl⟩ | ⟨e0, e, hl0, hc, hl, hperm⟩
    · exact ⟨h, .storeError b _ (view_eq_none hr hv hnone)⟩
    · -- The page is open to the process, so the store cannot fail.
      have h1 := h.resolved hi hr hv hl0 hc
      obtain ⟨e', hl', h8⟩ := hc.leaf hr hv hl0
      rw [hl] at hl'
      cases hl'
      have hallow := h1.allowed r hr _ hv e hl
      exact absurd ⟨hallow.2.resolve_right (by simp [h8]), hallow.1⟩ hperm

lemma eager_call (hi : Inv riscv roots kept m) (h : Cow roots m) (ho : op.OnUserMemory roots)
    (hw : op.MapsWritable) (hret : ret ≠ .error .noMem) (hrun : op.code.run m = .ok (ret, m')) :
    Cow roots m' ∧ EagerStep (view roots m) (.call op ret) (view roots m') := by
  cases op with
  | uvmalloc r va size perm =>
    have hpost := (uvmalloc_meets hi ho.1 rfl ho.2).1 ret m' hrun
    cases ret with
    | ok _ =>
      refine ⟨h.allocated hi hpost hw, ?_⟩
      rw [view_allocated ho.1 ho.2 hpost]
      refine .uvmalloc perm fun v h1 h2 => ?_
      exact view_eq_none ho.1 (by have := ho.2; omega) (hpost.inside v h1 h2).1
    | error e =>
      rw [view_stable hpost]
      exact ⟨h.congr hpost.leaf, .uvmallocError ..⟩
  | pageFault p r va =>
    have hpost := (handlePageFault_ensures hi ho.1 ho.2 ret m' hrun).1
    cases ret with
    | ok _ =>
      obtain ⟨hnone, q, hf⟩ := hpost
      rw [view_faulted ho.1 ho.2 hf, rowBytes_zero]
      exact ⟨h.replace hi hf.leaf hf.fresh (allowed_heap _),
        .pageFault p (view_eq_none ho.1 ho.2 hnone)⟩
    | error e =>
      rw [view_stable hpost]
      exact ⟨h.congr hpost.leaf, .pageFaultError ..⟩
  | anonymousFault p vma va =>
    have hpost := handleAnonymousVmaFault_ensures hi ho.1 ho.2 ret m' hrun
    cases ret with
    | ok _ =>
      obtain ⟨hnone, q, hf⟩ := hpost
      rw [view_faulted ho.1 ho.2 hf, rowBytes_zero]
      exact ⟨h.replace hi hf.leaf hf.fresh (allowed_area _ hw),
        .anonymousFault vma (view_eq_none ho.1 ho.2 hnone)⟩
    | error e =>
      rw [view_stable hpost]
      exact ⟨h.congr hpost.leaf, .anonymousFaultError ..⟩
  | fileFault fs p vma file va =>
    obtain ⟨c, hpost⟩ := handleFileVmaFault_ensures hi ho.1 ho.2.1 ret m' hrun
    cases ret with
    | ok _ =>
      obtain ⟨hnone, q, hf⟩ := hpost
      rw [view_faulted ho.1 ho.2.1 hf]
      exact ⟨h.replace hi hf.leaf hf.fresh (allowed_area _ hw),
        .fileFault fs vma file _ (view_eq_none ho.1 ho.2.1 hnone)⟩
    | error e =>
      rw [view_stable hpost]
      exact ⟨h.congr hpost.leaf, .fileFaultError ..⟩
  | fork old new =>
    have hpost := (uvmcopy_meets hi ho.2.1 ho.1 ho.2.2).1 ret m' hrun
    cases ret with
    | ok _ =>
      rw [view_copying ho.1 ho.2.1 hpost]
      exact ⟨h.copying ho.1 hpost, .fork ..⟩
    | error e => exact absurd (congrArg Except.error hpost.1) hret
  | storeFault r va =>
    have hpost := (storeFault_total hi ho.1 ho.2).of_run hrun
    cases ret with
    | ok _ =>
      obtain ⟨e, q, hl, hb, hres⟩ := hpost
      have hc : CowResolved roots kept m m' r (pageNo va) e := .inr ⟨hb, q, hres⟩
      rw [view_cowResolved ho.1 ho.2 hl hc]
      exact ⟨h.resolved hi ho.1 ho.2 hl hc, .storeFault ..⟩
    | error e =>
      obtain rfl : m' = m := hpost
      exact ⟨h, .storeFault ..⟩
  | store r va b =>
      exact eager_store hi h ho.1 ho.2 hret ((userStore_total hi ho.1 ho.2).of_run hrun)
  | copyout fs p dst src =>
    obtain ⟨h', hcopy⟩ := eager_copyoutRun hi h ho.1 ho.2 hw hret
      (copyout_ensures ho.1 rfl hi ho.2 ret m' hrun)
    exact ⟨h', .copyout hcopy⟩
  | kvmunmap r va size =>
    have hu := kvmunmap_unmaps hi ho hrun
    rw [view_unmaps h hu]
    exact ⟨h.unmaps hu, .kvmunmap ..⟩
  | uvmunmap r va npage =>
    have hu := (uvmunmap_total hi ho.1 rfl ho.2).of_run (run_ok_of_bind_pure hrun)
    rw [view_unmaps h hu]
    exact ⟨h.unmaps hu, .uvmunmap ..⟩

/-! ## Runs -/

noncomputable def System.spaces (s : System) : Spaces := view s.roots s.machine

/-- A step that maps pages writable, and for which there is enough memory. -/
def PlentyStep (s : System) (a : Action) (t : System) : Prop :=
  Step s a t ∧ ∀ op ret, a = .call op ret → op.MapsWritable ∧ ret ≠ .error .noMem

lemma Cow.quiet (h : Cow s.roots s.machine) (q : Quiet s t) : Cow t.roots t.machine := by
  refine h.of_back fun r hr v hv e hl => ?_
  by_cases hs : r ∈ s.roots
  · exact ⟨hs, q.leaf r hs v hv ▸ hl⟩
  · rw [q.empty r hr hs v hv] at hl
    cases hl

lemma spaces_quiet (q : Quiet s t) : t.spaces = s.spaces := by
  refine view_ext (fun r hr v hv => ?_) fun r v hx => ?_
  · by_cases hs : r ∈ s.roots
    · rw [q.leaf r hs v hv, map_rowBytes hs hv q.user, System.spaces]
    · rw [q.empty r hr hs v hv, System.spaces, view_of_not_mem fun hc => hs hc.1]
      rfl
  · exact view_of_not_mem fun hc => hx ⟨q.roots hc.1, hc.2⟩

lemma PlentyStep.eager (hok : s.Ok) (h : Cow s.roots s.machine)
    (hs : PlentyStep s a t) : Cow t.roots t.machine ∧ EagerStep s.spaces a t.spaces := by
  obtain ⟨hstep, hcond⟩ := hs
  cases a with
  | call op ret =>
    obtain ⟨hw, hret⟩ := hcond op ret rfl
    cases hstep with
    | call ho hrun => exact eager_call hok h ho hw hret hrun
  | create | take | give q =>
    have hq := hstep.quiet hok (by simp)
    rw [spaces_quiet hq]
    exact ⟨h.quiet hq, by constructor⟩

lemma Spaces.CopyTo.other (h : Spaces.CopyTo p b dst src ret b')
    (hr : r ≠ p.pagetable) : b' r = b r := by
  induction h with
  | done => rfl
  | stop => rfl
  | round _ _ _ ih =>
    rw [ih]
    funext v
    simp [put, hr]

/-- The address space an operation writes to on behalf of a process. -/
def Op.writer : Op → Option Word
  | .store r _ _ => some r
  | .copyout _ p _ _ => some p.pagetable
  | _ => none

/-- Every run is a run of the eager model on the bytes that the processes see, and what a store or
a `copyout` of one process changes is not visible in another. -/
theorem cow_refines_eager {acts : List Action} {s : System} (h : Booted kept m)
    (hrun : Run PlentyStep ⟨∅, kept, m⟩ acts s) :
    Run EagerStep (fun _ _ => none) acts s.spaces ∧
    ∀ op r ret t, op.writer = some r → PlentyStep s (.call op ret) t →
      ∀ r' ≠ r, t.spaces r' = s.spaces r' := by
  have hempty : System.spaces ⟨∅, kept, m⟩ = fun _ _ => none :=
    view_ext (fun r hr => absurd hr (Set.notMem_empty r)) fun _ _ _ => rfl
  obtain ⟨⟨hok, hcow⟩, hrun'⟩ := hrun.refine (fun s => s.Ok ∧ Cow s.roots s.machine) System.spaces
    (fun s a t hs hstep => by
      obtain ⟨hcow, heager⟩ := hstep.eager hs.1 hs.2
      exact ⟨⟨hstep.1.ok hs.1, hcow⟩, heager⟩)
    ⟨h.inv, fun r hr => absurd hr (Set.notMem_empty r), fun r hr => absurd hr (Set.notMem_empty r)⟩
  rw [hempty] at hrun'
  refine ⟨hrun', fun op r ret t hop hs r' hne => ?_⟩
  have hstep := (hs.eager hok hcow).2
  cases op with
  | store r₀ va b =>
    obtain rfl : r₀ = r := by simpa [Op.writer] using hop
    generalize t.spaces = b' at hstep
    cases hstep with
    | store x hb =>
      funext v
      simp [Spaces.put, hne]
    | storeError => rfl
  | copyout fs p dst src =>
    obtain rfl : p.pagetable = r := by simpa [Op.writer] using hop
    generalize t.spaces = b' at hstep
    cases hstep with
    | copyout hc => exact hc.other hne
  | _ => simp [Op.writer] at hop

theorem cow_refines_eager_fork : ∃ acts s r c bytes,
    Run PlentyStep ⟨∅, ∅, bootMachine⟩ acts s ∧ Run EagerStep (fun _ _ => none) acts s.spaces ∧
      r ≠ c ∧ s.spaces r 0 = some bytes ∧ s.spaces c 0 = some bytes := by
  obtain ⟨r, c, m₁, m₂, m₃, m₄, q, s₁, s₂, s₃, s₄, hnone, hf, hcopy⟩ := boot_fork writableArea
  have h0 : 0 < userPages := by decide
  have hr : r ∈ ({c, r} : Set Word) := by simp
  have hc : c ∈ ({c, r} : Set Word) := by simp
  have hrun : Run PlentyStep ⟨∅, ∅, bootMachine⟩ [.create, .create,
      .call (.anonymousFault (bareProcess r) writableArea 0#64) (.ok ()),
      .call (.fork r c) (.ok ())] ⟨{c, r}, ∅, m₄⟩ := by
    refine .cons ⟨s₁, by simp⟩ (.cons ⟨s₂, by simp⟩ (.cons ⟨s₃, ?_⟩ (.cons ⟨s₄, ?_⟩ (.nil _))))
    · rintro op ret he
      cases he
      have hprot : has writableArea.vmPageProt permWrite = true ∧
          has writableArea.vmPageProt permUser = true := by decide
      exact ⟨hprot, by simp⟩
    · rintro op ret he
      cases he
      exact ⟨trivial, by simp⟩
  have hspaces : System.spaces ⟨{c, r}, ∅, m₄⟩ = (view {c, r} m₃).fork r c :=
    view_copying hr hc hcopy
  have hne : r ≠ c := by
    cases s₄ with
    | call ho => exact ho.2.2
  have hpage : view {c, r} m₃ r 0 = some fun _ => 0 := by
    rw [view_faulted hr h0 hf, rowBytes_zero, Spaces.put, if_pos ⟨rfl, rfl⟩]
  refine ⟨_, _, r, c, fun _ => 0, hrun, (cow_refines_eager booted_bootMachine hrun).1, hne, ?_, ?_⟩
  · rw [hspaces, Spaces.fork, if_neg hne, hpage]
  · rw [hspaces, Spaces.fork, if_pos rfl, hpage]
    rfl

end FrostVista.Riscv
