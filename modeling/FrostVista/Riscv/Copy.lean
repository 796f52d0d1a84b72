import FrostVista.Riscv.Fault

/-!
# Copies between kernel and user memory

`copyin` and `copyout` work page by page. Each round maps the page on demand, `copyout` resolves
copy-on-write, and then the permission bits are checked before any byte moves.
-/
namespace FrostVista.Riscv

open Lib Lib.Comp Lib.Radix Lib.RefCount

variable {roots kept : Set Word} {m m' : Machine} {r q va dst : Word} {v : Nat} {fs : FileSys}
  {p : Process} {vma : Vma}

/-- The permissions and contents of a page that is mapped on demand. -/
def OnDemand (p : Process) (va perm : Word) (c : Nat → Word) : Prop :=
  (isLazy p va = true ∧ ¬p.stackBottom < va ∧ ¬va < p.heapBottom ∧
    perm = pteV ||| pteR ||| pteW ||| pteU ∧ c = fun _ => 0) ∨
  (isLazy p va = false ∧ ∃ vma, findOverlappingVma p va 4096#64 = some vma ∧
    perm = pteFromPerm vma.vmPageProt ∧ (vma.file = none → c = fun _ => 0))

/-- The page of `va` was mapped already, or it was mapped on demand. -/
def FaultedIn (roots kept : Set Word) (m m' : Machine) (p : Process) (r va : Word) : Prop :=
  (leafAt riscv m r (pageNo va) ≠ none ∧ m' = m) ∨
  (leafAt riscv m r (pageNo va) = none ∧ ∃ q perm c, OnDemand p va perm c ∧
    Faulted riscv roots kept m m' r (pageNo va) (leafPte (va2pa q) perm) c)

lemma FaultedIn.keeps (h : Inv riscv roots kept m) (f : FaultedIn roots kept m m' p r va) :
    Keeps riscv roots kept m m' := by
  rcases f with ⟨-, rfl⟩ | ⟨-, q, perm, c, -, hf⟩
  · exact .refl h
  · exact hf.toKeeps

lemma FaultedIn.leaf (hr : r ∈ roots) (hv : pageNo va < userPages)
    (f : FaultedIn roots kept m m' p r va) : ∃ e, leafAt riscv m' r (pageNo va) = some e := by
  rcases f with ⟨hl, rfl⟩ | ⟨-, q, perm, c, -, hf⟩
  · exact Option.ne_none_iff_exists'.mp hl
  · exact ⟨_, by rw [hf.leaf r hr _ hv, if_pos ⟨rfl, rfl⟩]⟩

lemma run_pteHas (m : Machine) (r va flag : Word) :
    (pteHas r va flag).run m = .ok ((slotAt riscv m r (pageNo va)).any
      fun s => has (m.word s.1 s.2) flag, m) := by
  rw [pteHas, run_bind_ok (run_walk_lookup m r va)]
  cases hs : slotAt riscv m r (pageNo va) with
  | none => rfl
  | some s => simp [run_bind]

lemma run_pteHas_valid (m : Machine) (r va : Word) :
    (pteHas r va pteV).run m = .ok ((leafAt riscv m r (pageNo va)).isSome, m) := by
  rw [run_pteHas]
  cases hs : slotAt riscv m r (pageNo va) with
  | none => simp [leafAt, hs]
  | some s =>
    rw [leafAt_of_slot hs]
    cases hb : bit (m.word s.1 s.2) 0 <;> simp [hb]

lemma pgRoundDown_of_aligned (ha : va.toNat % 4096 = 0) : pgRoundDown va = va := by
  refine BitVec.eq_of_toNat_eq ?_
  rw [pgRoundDown_toNat]
  omega

lemma faultIn_ensures (h : Inv riscv roots kept m) (hr : r ∈ roots)
    (hp : r = p.pagetable ∨ leafAt riscv m r (pageNo va) ≠ none)
    (ha : va.toNat % 4096 = 0) (hv : pageNo va < userPages) :
    Ensures (faultIn fs p r va) m fun ret m' => match ret with
      | .ok _ => FaultedIn roots kept m m' p r va
      | .error _ => leafAt riscv m r (pageNo va) = none ∧ Stable riscv roots kept m m' := by
  have hround := pgRoundDown_of_aligned ha
  unfold faultIn
  refine .bind_ok (run_pteHas_valid m r va) ?_
  cases hl : leafAt riscv m r (pageNo va) with
  | some e => exact .pure (.inl ⟨by simp [hl], rfl⟩)
  | none =>
    obtain rfl : r = p.pagetable := hp.resolve_right (by simp [hl])
    simp only [Option.isSome_none, Bool.false_eq_true, if_false]
    cases hz : isLazy p va with
    | true =>
      simp only [if_true]
      refine (handlePageFault_ensures h hr hv).mono fun ret m' hpost => ?_
      obtain ⟨hpost, hguard⟩ := hpost
      rw [hround] at hguard
      cases ret with
      | ok _ =>
        obtain ⟨-, q, hf⟩ := hpost
        exact .inr ⟨hl, q, _, _, .inl ⟨hz, (hguard rfl).1, (hguard rfl).2, rfl, rfl⟩, hf⟩
      | error e => exact ⟨trivial, hpost⟩
    | false =>
      simp only [Bool.false_eq_true, if_false]
      cases hvma : findOverlappingVma p va 4096#64 with
      | none => exact .pure ⟨trivial, .refl h⟩
      | some vma =>
        simp only [Option.isSome_some, if_true]
        refine (handleVmaFault_ensures h hr hv).mono fun ret m' hpost => ?_
        cases ret with
        | ok _ =>
          obtain ⟨vma', c, hvma', hc, -, q, hf⟩ := hpost
          rw [hround] at hvma'
          exact .inr ⟨hl, q, _, c, .inr ⟨hz, vma', hvma', rfl, hc⟩, hf⟩
        | error e => exact ⟨trivial, hpost⟩

/-- Copy-on-write was resolved if the entry asked for it. -/
def CowResolved (roots kept : Set Word) (m m' : Machine) (r : Word) (v : Nat) (e : Word) : Prop :=
  (bit e 8 = false ∧ m' = m) ∨
    (bit e 8 = true ∧ ∃ q, Resolved riscv roots kept m m' r v e (resolvedPte (va2pa q) e))

variable {e : Word} {src : List Byte}

lemma resolveCow_total (h : Inv riscv roots kept m) (hr : r ∈ roots)
    (hv : pageNo va < userPages) (hl : leafAt riscv m r (pageNo va) = some e) :
    Total (resolveCow r va) m fun ret m' => match ret with
      | .ok _ => CowResolved roots kept m m' r (pageNo va) e
      | .error err => err = .noMem ∧ m' = m := by
  obtain ⟨a, i, hs, hw, -⟩ := leafAt_eq_some.mp hl
  have hcow : (pteHas r va pteCow).run m = .ok (bit e 8, m) := by
    simp [run_pteHas, hs, hw]
  unfold resolveCow
  refine .bind_ok hcow ?_
  cases hb : bit e 8 with
  | false => exact .pure (.inl ⟨hb, rfl⟩)
  | true =>
    simp only [if_true]
    refine (handleCowFault_total h hr hv hl).mono fun ret m' hpost => ?_
    cases ret with
    | ok _ => exact .inr ⟨hb, hpost⟩
    | error err => exact ⟨hpost.1, hpost.2.2⟩

lemma CowResolved.inv (h : Inv riscv roots kept m)
    (c : CowResolved roots kept m m' r v e) : Inv riscv roots kept m' := by
  rcases c with ⟨-, rfl⟩ | ⟨-, q, hc⟩
  · exact h
  · exact hc.inv

lemma CowResolved.leaf (hr : r ∈ roots) (hv : v < userPages)
    (hl : leafAt riscv m r v = some e) (c : CowResolved roots kept m m' r v e) :
    ∃ e', leafAt riscv m' r v = some e' ∧ bit e' 8 = false := by
  rcases c with ⟨hb, rfl⟩ | ⟨-, q, hc⟩
  · exact ⟨e, hl, hb⟩
  · refine ⟨resolvedPte (va2pa q) e, by rw [hc.leaf r hr v hv, if_pos ⟨rfl, rfl⟩], ?_⟩
    simp [bit_resolvedPte]

/-- The state before `copyout` writes: the page is mapped and private. -/
def Prepared (roots kept : Set Word) (m m' : Machine) (p : Process) (r va : Word) : Prop :=
  ∃ m₁ e, FaultedIn roots kept m m₁ p r va ∧ leafAt riscv m₁ r (pageNo va) = some e ∧
    CowResolved roots kept m₁ m' r (pageNo va) e

/-- The outcome of one round of `copyout`. -/
def CopyoutPost (roots kept : Set Word) (m : Machine) (p : Process) (r dst : Word)
    (src : List Byte) (ret : Ret) (m' : Machine) : Prop :=
  match ret with
  | .ok _ => ∃ m₁ e, Prepared roots kept m m₁ p r (pgRoundDown dst) ∧
      leafAt riscv m₁ r (pageNo dst) = some e ∧ bit e 2 = true ∧ bit e 4 = true ∧
      m' = m₁.writeBytes (riscv.page e) (dst - pgRoundDown dst).toNat
        (src.take (chunk dst src.length))
  | .error err => (leafAt riscv m r (pageNo dst) = none ∧ Stable riscv roots kept m m') ∨
      (err = .noMem ∧ FaultedIn roots kept m m' p r (pgRoundDown dst)) ∨
      (Prepared roots kept m m' p r (pgRoundDown dst) ∧
        ∃ e, leafAt riscv m' r (pageNo dst) = some e ∧ ¬(bit e 2 = true ∧ bit e 4 = true))

lemma copyoutPage_ensures (h : Inv riscv roots kept m) (hr : r ∈ roots)
    (hp : r = p.pagetable ∨ leafAt riscv m r (pageNo dst) ≠ none) (hv : pageNo dst < userPages) :
    Ensures (copyoutPage fs p r dst src) m (CopyoutPost roots kept m p r dst src) := by
  have hpage := pageNo_pgRoundDown dst
  rw [← hpage] at hp hv
  unfold copyoutPage
  refine .bind (faultIn_ensures h hr hp (pgRoundDown_aligned dst) hv) fun ret m1 hpost => ?_
  cases ret with
  | error e => exact .pure (.inl (hpage ▸ hpost))
  | ok _ =>
    obtain ⟨e, hl⟩ := FaultedIn.leaf hr hv hpost
    have hi := (hpost.keeps h).inv
    refine .bind (resolveCow_total hi hr hv hl).ensures fun ret m2 hcow => ?_
    cases ret with
    | error err =>
      obtain ⟨rfl, rfl⟩ := hcow
      exact .pure (.inr (.inl ⟨rfl, hpost⟩))
    | ok _ =>
      have hprep : Prepared roots kept m m2 p r (pgRoundDown dst) := ⟨m1, e, hpost, hl, hcow⟩
      obtain ⟨e', hl', -⟩ := hcow.leaf hr hv hl
      obtain ⟨a, i, hs, hw, hb⟩ := leafAt_eq_some.mp hl'
      refine .bind_ok (run_walk_lookup m2 r _) ?_
      rw [hs]
      refine .bind_ok (run_readPte m2 a i) ?_
      rw [hw]
      rw [riscv_valid] at hb
      refine .ite (fun hperm => .pure (.inr (.inr ⟨hprep, e', by rwa [hpage] at hl', ?_⟩)))
        fun hperm => ?_
      · rintro ⟨h1, h2⟩
        simp [hb, h1, h2] at hperm
      refine .ite (fun _ => .fail) fun _ => .bind (.modify rfl) fun _ u (hu : u = _) => ?_
      subst hu
      simp only [has_pteV, has_pteW, has_pteU, Bool.or_eq_true, Bool.not_eq_true', not_or,
        Bool.not_eq_false, Bool.and_eq_true] at hperm
      exact .pure ⟨m2, e', hprep, by rwa [hpage] at hl', hperm.2.1, hperm.2.2, rfl⟩

lemma Prepared.inv (h : Inv riscv roots kept m) (hp : Prepared roots kept m m' p r va) :
    Inv riscv roots kept m' := by
  obtain ⟨m1, e, hf, -, hc⟩ := hp
  exact hc.inv (hf.keeps h).inv

lemma word_writeBytes (hi : Inv riscv roots kept m) (hr : r ∈ roots)
    (hv : v < userPages) (hl : leafAt riscv m r v = some e) (off : Nat) (bs : List Byte) :
    ∀ x, IsTable riscv roots m x →
      (m.writeBytes (riscv.page e) off bs).word x = m.word x := by
  obtain ⟨c, hw⟩ := m.writeBytes_eq_setPage (riscv.page e) off bs
  have hnt := hi.not_table_of_held ⟨(r, v), mapping_eq_some.mpr ⟨hr, hv, e, hl, rfl⟩⟩
  intro x hx
  have hne : x ≠ riscv.page e := by
    rintro rfl
    exact hnt hx
  rw [hw, Machine.setPage_word, Function.update_of_ne hne]

lemma inv_writeBytes (h : Inv riscv roots kept m) (hr : r ∈ roots)
    (hv : v < userPages) (hl : leafAt riscv m r v = some e) (off : Nat) (bs : List Byte) :
    Inv riscv roots kept (m.writeBytes (riscv.page e) off bs) := by
  obtain ⟨c, hc⟩ := m.writeBytes_eq_setPage (riscv.page e) off bs
  rw [hc]
  exact h.setPage (h.not_table_of_held ⟨(r, v), mapping_eq_some.mpr ⟨hr, hv, e, hl, rfl⟩⟩) c

lemma CopyoutPost.inv (h : Inv riscv roots kept m) (hr : r ∈ roots)
    (hv : pageNo dst < userPages) (hp : CopyoutPost roots kept m p r dst src ret m') :
    Inv riscv roots kept m' := by
  cases ret with
  | ok _ =>
    obtain ⟨m1, e, hprep, hl, -, -, rfl⟩ := hp
    exact inv_writeBytes (hprep.inv h) hr hv hl _ _
  | error _ =>
    rcases hp with ⟨-, hs⟩ | ⟨-, hf⟩ | ⟨hprep, -⟩
    · exact hs.inv
    · exact (hf.keeps h).inv
    · exact hprep.inv h

/-! ## Whole copies -/

/-- The rounds of `copyout`. -/
inductive CopyoutRun (roots kept : Set Word) (p : Process) (r : Word) :
    Machine → Word → List Byte → Ret → Machine → Prop where
  | done (m : Machine) (dst : Word) : CopyoutRun roots kept p r m dst [] (.ok ()) m
  | round {m m₁ m' : Machine} {dst : Word} {src : List Byte} {ret : Ret} :
      src ≠ [] → CopyoutPost roots kept m p r dst src (.ok ()) m₁ →
      CopyoutRun roots kept p r m₁ (dst + BitVec.ofNat 64 (chunk dst src.length))
        (src.drop (chunk dst src.length)) ret m' →
      CopyoutRun roots kept p r m dst src ret m'
  | stop {m m' : Machine} {dst : Word} {src : List Byte} {e : Err} :
      src ≠ [] → CopyoutPost roots kept m p r dst src (.error e) m' →
      CopyoutRun roots kept p r m dst src (.error e) m'

lemma pageOffset_toNat (a : Word) : (a - pgRoundDown a).toNat = a.toNat % 4096 := by
  have := pgRoundDown_toNat a
  rw [BitVec.toNat_sub]
  omega

lemma chunk_eq (a : Word) (len : Nat) : chunk a len = min (4096 - a.toNat % 4096) len := by
  rw [chunk, pageOffset_toNat]

lemma chunk_pos (a : Word) (h : 0 < len) : 0 < chunk a len := by
  rw [chunk_eq]
  omega

lemma chunk_le (a : Word) (len : Nat) : chunk a len ≤ len := Nat.min_le_right _ _

lemma copyoutLoop_ensures (hr : r ∈ roots) (hp : r = p.pagetable)
    (h : Inv riscv roots kept m) (hn : src.length ≤ n) (hd : dst.toNat + src.length ≤ 2 ^ 38) :
    Ensures (copyoutLoop fs p r n dst src) m fun ret m' =>
      CopyoutRun roots kept p r m dst src ret m' := by
  induction n generalizing m dst src with
  | zero =>
    obtain rfl : src = [] := List.length_eq_zero_iff.mp (by omega)
    exact .pure (.done m dst)
  | succ n ih =>
    rw [copyoutLoop]
    refine .ite (fun hs => ?_) fun hs => ?_
    · subst hs
      exact .pure (.done m dst)
    · have hlen : 0 < src.length := List.length_pos_iff.mpr hs
      have hv : pageNo dst < userPages := pageNo_lt_userPages (by omega)
      refine .bind (copyoutPage_ensures h hr (.inl hp) hv) fun ret m1 hpost => ?_
      cases ret with
      | error e => exact .pure (.stop hs hpost)
      | ok _ =>
        have hpos := chunk_pos dst hlen
        have hle := chunk_le dst src.length
        have hdst : (dst + BitVec.ofNat 64 (chunk dst src.length)).toNat =
            dst.toNat + chunk dst src.length := by
          rw [BitVec.toNat_add, BitVec.toNat_ofNat]
          omega
        refine (ih (hpost.inv h hr hv) ?_ ?_).mono fun ret m' hrun => .round hs hpost hrun
        · rw [List.length_drop]
          omega
        · rw [List.length_drop, hdst]
          omega

lemma copyout_ensures (hr : r ∈ roots) (hp : r = p.pagetable)
    (h : Inv riscv roots kept m) (hd : dst.toNat + src.length ≤ 2 ^ 38) :
    Ensures (copyout fs p r dst src) m fun ret m' =>
      CopyoutRun roots kept p r m dst src ret m' :=
  copyoutLoop_ensures hr hp h (Nat.le_refl _) hd

end FrostVista.Riscv
