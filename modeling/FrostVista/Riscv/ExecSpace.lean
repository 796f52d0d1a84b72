import FrostVista.Kernel.ExecStack
import FrostVista.Riscv.Eager

/-!
# The stack of a new program in a page table

`execve_kernel` maps the pages of the stack before it copies anything to them, so the copies meet
pages that are mapped and not copy-on-write. On such pages `copyout` does what the construction of
the stack asks of an address space.
-/
namespace FrostVista.Riscv

open Lib Lib.Comp Kernel.Exec Bytes List Option

/-- The byte that a program sees at an address, 0 where nothing is mapped. -/
noncomputable def userByte (roots : Set Word) (r : Word) (m : Machine) : Bytes := fun i =>
  ((view roots m r (i / 4096)).map (· (i % 4096))).getD 0

/-- The pages of the stack are mapped and not copy-on-write. -/
structure StackMapped (roots kept : Set Word) (r : Word) (m : Machine) : Prop where
  inv : Inv riscv roots kept m
  cow : Cow roots m
  root : r ∈ roots
  page : ∀ v, userStackBottom.toNat / 4096 ≤ v → v < userPages →
    ∃ e, leafAt riscv m r v = some e ∧ bit e 8 = false

variable {roots kept : Set Word} {m m' : Machine} {r dst e : Word} {fs : FileSys} {p : Process}
  {src : List Byte} {n : Nat}

/-- Bytes written to the page of an address are seen there and nowhere else. -/
lemma StackMapped.write (h : StackMapped roots kept r m) (hd : dst.toNat < 2 ^ 38)
    (hl : leafAt riscv m r (pageNo dst) = some e) (hw : bit e 2 = true)
    (hlen : dst.toNat % 4096 + src.length ≤ 4096) :
    StackMapped roots kept r (m.writeBytes (riscv.page e) (dst.toNat % 4096) src) ∧
      userByte roots r (m.writeBytes (riscv.page e) (dst.toNat % 4096) src) =
        (userByte roots r m).copyIn dst.toNat src := by
  have hno : pageNo dst = dst.toNat / 4096 := rfl
  have hv := pageNo_lt_userPages hd
  have hleaf : ∀ r' ∈ roots, ∀ v < userPages, leafAt riscv
      (m.writeBytes (riscv.page e) (dst.toNat % 4096) src) r' v = leafAt riscv m r' v :=
    fun r' hr' v hv' => leafAt_congr (word_writeBytes h.inv h.root hv hl _ _) hr' hv'
  refine ⟨⟨inv_writeBytes h.inv h.root hv hl _ _, h.cow.congr hleaf, h.root, fun v hlo hv' => ?_⟩,
    ?_⟩
  · rw [hleaf r h.root v hv']
    exact h.page v hlo hv'
  · have hview : view roots m r (pageNo dst) = some (rowBytes (m.word (riscv.page e))) := by
      rw [view_of_mem h.root hv, hl, map_some]
    funext i
    rw [copyIn_block (b := rowBytes (m.word (riscv.page e))) hlen fun o ho => by
      rw [userByte, ho, ← hno, hview]
      rfl]
    simp only [userByte, view_writeBytes h.inv h.cow h.root hv hl hw, Spaces.put, true_and, hno]
    split <;> rfl

/-- A round that succeeds has only written, since the page is mapped and not copy-on-write. -/
lemma copyoutPage_mapped (h : StackMapped roots kept r m)
    (hlo : userStackBottom.toNat ≤ dst.toNat) (hd : dst.toNat < 2 ^ 38) :
    Ensures (copyoutPage fs p r dst src) m fun ret m' => ret = .ok () →
      StackMapped roots kept r m' ∧ userByte roots r m' =
        (userByte roots r m).copyIn dst.toNat (src.take (chunk dst src.length)) := by
  have hno : pageNo dst = dst.toNat / 4096 := rfl
  have hv := pageNo_lt_userPages hd
  obtain ⟨e, hl, h8⟩ := h.page _ (hno ▸ Nat.div_le_div_right hlo) hv
  refine (copyoutPage_ensures h.inv h.root (.inr (by simp [hl])) hv).mono ?_
  rintro ret m' hpost rfl
  obtain ⟨m₂, e₂, ⟨m₁, e₁, hf, hl₁, hc⟩, hl₂, hw, -, rfl⟩ := hpost
  rw [pageNo_pgRoundDown] at hl₁ hc
  have hm₁ : m₁ = m := by
    rcases hf with ⟨-, hm⟩ | ⟨hnone, -⟩
    · exact hm
    · rw [pageNo_pgRoundDown, hl] at hnone
      cases hnone
  subst hm₁
  obtain rfl := some.inj (hl.symm.trans hl₁)
  have hm₂ : m₂ = m₁ := by
    rcases hc with ⟨-, hm⟩ | ⟨h8', -⟩
    · exact hm
    · rw [h8] at h8'
      cases h8'
  subst hm₂
  obtain rfl := some.inj (hl.symm.trans hl₂)
  rw [pageOffset_toNat]
  refine h.write hd hl hw ?_
  rw [length_take, chunk_eq]
  omega

lemma copyoutLoop_mapped (h : StackMapped roots kept r m) (hn : src.length ≤ n)
    (hlo : userStackBottom.toNat ≤ dst.toNat) (hd : dst.toNat + src.length ≤ 2 ^ 38) :
    Ensures (copyoutLoop fs p r n dst src) m fun ret m' => ret = .ok () →
      StackMapped roots kept r m' ∧ userByte roots r m' =
        (userByte roots r m).copyIn dst.toNat src := by
  induction n generalizing m dst src with
  | zero =>
    obtain rfl : src = [] := length_eq_zero_iff.mp (by omega)
    exact .pure fun _ => ⟨h, copyIn_nil.symm⟩
  | succ n ih =>
    rw [copyoutLoop]
    refine .ite (fun hs => ?_) fun hs => ?_
    · subst hs
      exact .pure fun _ => ⟨h, copyIn_nil.symm⟩
    have hlen : 0 < src.length := length_pos_iff.mpr hs
    refine .bind (copyoutPage_mapped h hlo (by omega)) fun ret m₁ hpost => ?_
    cases ret with
    | error e => exact .pure fun he => by cases he
    | ok _ =>
      obtain ⟨h₁, hview⟩ := hpost rfl
      have hpos := chunk_pos dst hlen
      have hle := chunk_le dst src.length
      have hdst : (dst + BitVec.ofNat 64 (chunk dst src.length)).toNat =
          dst.toNat + (src.take (chunk dst src.length)).length := by
        rw [BitVec.toNat_add, BitVec.toNat_ofNat, length_take]
        omega
      rw [length_take] at hdst
      refine (ih h₁ ?_ (by omega) ?_).mono fun ret m' hrest hret => ?_
      · rw [length_drop]
        omega
      · rw [length_drop]
        omega
      · obtain ⟨h', hview'⟩ := hrest hret
        refine ⟨h', ?_⟩
        rw [hview', hview, hdst, ← length_take, copyIn_append, take_append_drop]

/-- The address space that `execve_kernel` builds; `p` is the process that runs the call. -/
noncomputable def execSpace (roots kept : Set Word) (fs : FileSys) (p : Process) (r : Word) :
    Space Machine where
  copyout dst src m :=
    match (copyout fs p r dst src).run m with
    | .ok (.ok _, m') => some m'
    | _ => none
  view := userByte roots r
  Mapped := StackMapped roots kept r
  copies {dst src m m'} h hrun hlo hd := by
    split at hrun
    · rename_i hcopy
      cases hrun
      exact copyoutLoop_mapped h le_rfl hlo hd _ _ hcopy rfl
    · cases hrun

/-- A program with two arguments: on a flat memory the stack is built, and wherever it is built in
the memory of the machine, it decodes. -/
theorem buildStack_decodes_two :
    (∃ entry m', buildStack flatSpace ⟨64, 2, 0x1000⟩ [[0x61], [0x62, 0x63]] zero =
      some (entry, m') ∧
      ∃ ptrs random, Decodes m' entry.sp ⟨64, 2, 0x1000⟩ [[0x61], [0x62, 0x63]] ptrs random) ∧
    ∀ roots kept fs p r m entry m', StackMapped roots kept r m →
      buildStack (execSpace roots kept fs p r) ⟨64, 2, 0x1000⟩ [[0x61], [0x62, 0x63]] m =
        some (entry, m') → ∃ ptrs random, Decodes (userByte roots r m') entry.sp ⟨64, 2, 0x1000⟩
          [[0x61], [0x62, 0x63]] ptrs random := by
  constructor
  · have hsome : (buildStack flatSpace ⟨64, 2, 0x1000⟩ [[0x61], [0x62, 0x63]] zero).isSome =
      true := by
      decide +kernel
    obtain ⟨⟨entry, m'⟩, h⟩ := isSome_iff_exists.mp hsome
    obtain ⟨ptrs, random, hdec, -⟩ := buildStack_decodes flatSpace (by decide) (by decide) trivial h
    exact ⟨entry, m', h, ptrs, random, hdec⟩
  · intro roots kept fs p r m entry m' hm h
    obtain ⟨ptrs, random, hdec, -⟩ :=
      buildStack_decodes (execSpace roots kept fs p r) (by decide) (by decide) hm h
    exact ⟨ptrs, random, hdec⟩

end FrostVista.Riscv
