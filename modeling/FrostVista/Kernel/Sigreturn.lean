import FrostVista.Kernel.Signal

/-!
# Returning from handlers

Each handler that `check_signal` sets up has a frame on the user stack with the context it
interrupts, which is the entry of the handler before it. `rt_sigreturn` unwinds these frames from
the lowest one.
-/
namespace FrostVista.Kernel.Signal

open Lib Function List

variable {μ : Type} (R : Layout) (U : UserCopy μ)

def sysRtSigreturn : Nat := 139

/-- The trap of a system call and `syscall`: the result goes to `a0`, but not for `rt_sigreturn`. -/
def ecall (num : Nat) (call : Target μ → Word × Target μ) (p : Target μ) : Target μ :=
  let (ret, q) :=
    call { p with trapframe := Function.update p.trapframe R.epc (p.trapframe R.epc + 4#64) }
  if num = sysRtSigreturn then q else { q with trapframe := Function.update q.trapframe R.a0 ret }

/-- What the signal code needs of the copies. `Holds a frame m` says that the pages at `a` are
mapped and have the words of the frame. A copy writes its own range only, and the last page of the
address space is not user memory. -/
structure UserCopy.Laws (Holds : Word → List Word → μ → Prop) : Prop where
  read : ∀ {a frame m}, Holds a frame m → U.copyin a m = some frame
  stored : ∀ {a tf mask m m'}, U.copyout a (sigframe tf mask) m = (true, m') →
    Holds a (sigframe tf mask) m'
  kept : ∀ {a w m b frame}, a.toNat + sigframeSize ≤ b.toNat → b.toNat ≤ a.toNat + 2 ^ 16 →
    Holds b frame m → Holds b frame (U.copyout a w m).2
  refused : ∀ {a w m}, 2 ^ 64 < a.toNat + 4096 →
    (U.copyout a w m).1 = false ∧ ∀ {b frame}, Holds b frame m → Holds b frame (U.copyout a w m).2

/-- The frame is the first multiple of 16 that leaves room for it, unless the stack pointer is too
low. -/
lemma frameSp_toNat (sp : Word) :
    (264 ≤ sp.toNat → (frameSp sp).toNat + 264 ≤ sp.toNat ∧ sp.toNat < (frameSp sp).toNat + 280) ∧
      (sp.toNat < 264 → 2 ^ 64 < (frameSp sp).toNat + 4096) := by
  have hmask : (frameSp sp).toNat = (sp - 264#64).toNat / 2 ^ 4 * 2 ^ 4 := mask_toNat (by decide) _
  have hsub : (sp - 264#64).toNat = (2 ^ 64 - 264 + sp.toNat) % 2 ^ 64 := BitVec.toNat_sub ..
  have hlt := sp.isLt
  rw [hmask, hsub]
  constructor
  · intro h
    rw [show 2 ^ 64 - 264 + sp.toNat = sp.toNat - 264 + 2 ^ 64 by omega, Nat.add_mod_right]
    omega
  · intro h
    omega

/-! ## The chain of contexts -/

/-- The contexts saved on the stack, from the lowest frame on, down to the first one. -/
inductive Chain (Holds : Word → List Word → μ → Prop) (tf₀ : Trapframe) (mask₀ : Word) (m : μ) :
    List Word → Trapframe → Word → Prop where
  | nil : Chain Holds tf₀ mask₀ m [] tf₀ mask₀
  | cons {a : Word} {frames : List Word} {tf tf' : Trapframe} {mask mask' : Word} :
      Chain Holds tf₀ mask₀ m frames tf mask → Holds a (sigframe tf mask) m →
        tf' R.sp = a → tf R.epc ≠ 0 →
      a.toNat + sigframeSize ≤ (tf R.sp).toNat → (tf R.sp).toNat < a.toNat + 280 →
      Chain Holds tf₀ mask₀ m (a :: frames) tf' mask'

/-- Any number of returns: each is made by a context with the stack pointer at its frame, in a
memory in which that frame is as in `m`; after the last one the first context is back. -/
def Unwinds (Holds : Word → List Word → μ → Prop) (tf₀ : Trapframe) (mask₀ : Word) (m : μ) :
    List Word → Target μ → Prop
  | [], q => q.trapframe = tf₀ ∧ q.sigBlocked = mask₀
  | a :: frames, q => q.trapframe R.sp = a ∧ ∀ p : Target μ, p.trapframe R.sp = a →
      (∀ frame, Holds a frame m → Holds a frame p.mem) →
      Unwinds Holds tf₀ mask₀ m frames (ecall R sysRtSigreturn (rtSigreturn R U) p)

section Chain

variable {R U} {Holds : Word → List Word → μ → Prop} {tf₀ tf : Trapframe}
  {mask₀ mask : Word} {m m' : μ}
  {frames : List Word}

section
variable (h : Chain R Holds tf₀ mask₀ m frames tf mask)
include h

lemma Chain.mono (hkept : ∀ b ∈ frames, ∀ frame, Holds b frame m → Holds b frame m') :
    Chain R Holds tf₀ mask₀ m' frames tf mask := by
  induction h with
  | nil => exact .nil
  | cons _ hholds hsp hepc hle hlt ih =>
    exact .cons (ih fun b hb => hkept b (mem_cons_of_mem _ hb)) (hkept _ mem_cons_self _ hholds)
      hsp hepc hle hlt

lemma Chain.bounds : ∀ b ∈ frames,
    (tf R.sp).toNat ≤ b.toNat ∧ b.toNat < (tf R.sp).toNat + 280 * frames.length := by
  induction h with
  | nil => simp
  | cons _ _ hsp _ hle hlt ih =>
    intro b hb
    rw [hsp, length_cons]
    rcases mem_cons.mp hb with rfl | hb
    · omega
    · have := ih b hb
      simp only [sigframeSize] at hle
      omega

lemma Chain.apart :
    frames.Pairwise (fun a b => a.toNat + sigframeSize ≤ b.toNat) ∧
      ∀ a ∈ frames, a.toNat + sigframeSize ≤ (tf₀ R.sp).toNat := by
  induction h with
  | nil => simp
  | cons h _ _ _ hle _ ih =>
    refine ⟨pairwise_cons.mpr ⟨fun b hb => hle.trans (h.bounds b hb).1, ih.1⟩, ?_⟩
    rintro b (_ | ⟨_, hb⟩)
    · cases h with
      | nil => exact hle
      | cons _ _ hsp _ hle' _ =>
        have := ih.2 _ List.mem_cons_self
        rw [hsp] at hle
        simp only [sigframeSize] at *
        omega
    · exact ih.2 b hb

end

lemma sigframe_getD (tf : Trapframe) (mask : Word) (i : Fin 32) :
    (sigframe tf mask).getD i 0 = tf i := by
  have hi : i.val < (List.ofFn tf).length := by rw [List.length_ofFn]; exact i.isLt
  rw [sigframe, List.getD_append _ _ _ _ hi, List.getD_eq_getElem _ _ hi, List.getElem_ofFn]

lemma sigframe_getD_mask (tf : Trapframe) (mask : Word) : (sigframe tf mask).getD 32 0 = mask := by
  rw [sigframe, List.getD_append_right _ _ _ _ (List.length_ofFn.le), List.length_ofFn]
  rfl

lemma rtSigreturn_eq (hread : U.copyin (p.trapframe R.sp) p.mem = some (sigframe tf mask))
    (hepc : tf R.epc ≠ 0) (hsp : tf R.sp ≠ 0) :
    rtSigreturn R U p = (0, { p with trapframe := tf, sigBlocked := mask }) := by
  simp only [rtSigreturn, hread, sigframe_getD, sigframe_getD_mask, hepc, hsp, or_self, if_false]

section
variable (laws : U.Laws Holds)
include laws

lemma Chain.unwinds (h : Chain R Holds tf₀ mask₀ m frames tf mask) (q : Target μ)
    (htf : q.trapframe = tf) (hmask : q.sigBlocked = mask) :
    Unwinds R U Holds tf₀ mask₀ m frames q := by
  induction h generalizing q with
  | nil => exact ⟨htf, hmask⟩
  | @cons a _ tf _ mask _ _ hholds hsp hepc hle _ ih =>
    refine ⟨htf ▸ hsp, fun p hp hsame => ?_⟩
    have hne : tf R.sp ≠ 0 := by
      intro h0
      simp [h0, sigframeSize] at hle
    -- The trap moves the program counter only, so the call finds the frame.
    have hread : U.copyin (update p.trapframe R.epc (p.trapframe R.epc + 4#64) R.sp) p.mem =
        some (sigframe tf mask) := by
      rw [update_of_ne R.sp_ne.2.2, hp, laws.read (hsame _ hholds)]
    rw [ecall, rtSigreturn_eq hread hepc hne]
    exact ih _ rfl rfl

lemma Chain.enter {p : Target μ}
    (h : Chain R Holds tf₀ mask₀ p.mem frames p.trapframe p.sigBlocked) (hlen : frames.length < 64)
    (hepc : p.trapframe R.epc ≠ 0) (sig : Nat)
    (hcopy : U.copyout (frameSp (p.trapframe R.sp)) (sigframe p.trapframe p.sigBlocked) p.mem =
      (true, m')) :
    Chain R Holds tf₀ mask₀ m' (frameSp (p.trapframe R.sp) :: frames) (p.enter R sig m').trapframe
      (p.enter R sig m').sigBlocked := by
  have hsp : 264 ≤ (p.trapframe R.sp).toNat := by
    by_contra hlow
    have := (laws.refused (w := sigframe p.trapframe p.sigBlocked) (m := p.mem)
      ((frameSp_toNat (p.trapframe R.sp)).2 (by omega))).1
    rw [hcopy] at this
    cases this
  obtain ⟨hle, hlt⟩ := (frameSp_toNat _).1 hsp
  refine .cons (h.mono fun b hb frame hold => ?_) (laws.stored hcopy) ?_ hepc hle hlt
  · have hbound := h.bounds b hb
    have := laws.kept (w := sigframe p.trapframe p.sigBlocked) (m := p.mem)
      (a := frameSp (p.trapframe R.sp))
      (by simp only [sigframeSize]; omega) (by omega) hold
    rwa [hcopy] at this
  · simp [Target.enter, R.sp_ne]

lemma Chain.torn (h : Chain R Holds tf₀ mask₀ m frames tf mask) (hlen : frames.length ≤ 64)
    (ws : List Word) :
    Chain R Holds tf₀ mask₀ (U.copyout (frameSp (tf R.sp)) ws m).2 frames tf mask := by
  refine h.mono fun b hb frame hold => ?_
  have hbound := h.bounds b hb
  by_cases hsp : 264 ≤ (tf R.sp).toNat
  · obtain ⟨hle, hlt⟩ := (frameSp_toNat _).1 hsp
    exact laws.kept (by simp only [sigframeSize]; omega) (by omega) hold
  · exact (laws.refused ((frameSp_toNat _).2 (by omega))).2 hold

lemma Passed.chain {p q : Target μ} {pre : List Nat} (hpass : Passed R U p pre q)
    (hlen : frames.length + pre.length ≤ 64) (hepc : p.trapframe R.epc ≠ 0)
    (h : Chain R Holds tf₀ mask₀ p.mem frames p.trapframe p.sigBlocked) :
    ∃ new, Chain R Holds tf₀ mask₀ q.mem (new ++ frames) q.trapframe q.sigBlocked ∧
      q.log.length = p.log.length + new.length ∧ (new ++ frames).length ≤ 64 := by
  induction hpass generalizing frames with
  | nil => exact ⟨[], h, rfl, by simpa using hlen⟩
  | ignored _ _ ih => exact ih (by simp only [length_cons] at hlen; omega) hepc h
  | @entered p _ t _ mem hh hcopy _ ih =>
    rw [length_cons] at hlen
    have hentry : (p.enter R (t + 1) mem).trapframe R.epc ≠ 0 := by
      simpa [Target.enter, update_apply, R.epc_ne, sigDfl] using hh.2.1
    obtain ⟨new, hnew, hlog, hle⟩ := ih
      (by simp only [length_cons]; omega) hentry (h.enter laws (by omega) hepc (t + 1) hcopy)
    refine ⟨new ++ [frameSp (p.trapframe R.sp)], by simpa using hnew, ?_, by simpa using hle⟩
    rw [hlog]
    simp [Target.enter]
    omega

end

/-- The handlers that `check_signal` sets up return to the context it was called in, one
`rt_sigreturn` each, and their frames lie apart, below the old stack pointer. -/
theorem checkSignal_unwinds (laws : U.Laws Holds) {p q : Target μ} (hepc : p.trapframe R.epc ≠ 0)
    (h : checkSignal R U p = .returned q) :
    ∃ frames : List Word, q.log.length = p.log.length + frames.length ∧
      Unwinds R U Holds p.trapframe p.sigBlocked q.mem frames q ∧
      frames.Pairwise (fun a b => a.toNat + sigframeSize ≤ b.toNat) ∧
      ∀ a ∈ frames, a.toNat + sigframeSize ≤ (p.trapframe R.sp).toNat := by
  by_cases hforced : p.sigPending &&& (sigmask sigkill ||| sigmask sigstop) = 0
  · obtain ⟨pre, rest, r, hl, hr, hend⟩ := checkSignal_split R U hforced
    have hpre : pre.length ≤ 64 := by
      have := length_setBits_le (p.sigPending &&& ~~~p.sigBlocked)
      rw [hl, length_append] at this
      omega
    obtain ⟨frames, hchain, hlog, hle⟩ := hr.chain laws (by simpa using hpre) hepc .nil
    rw [append_nil] at hchain hle
    rw [h] at hend
    have hq : Chain R Holds p.trapframe p.sigBlocked q.mem frames q.trapframe q.sigBlocked ∧
        q.log.length = r.log.length := by
      cases hend with
      | done | stuck => exact ⟨hchain, rfl⟩
      | torn hcopy =>
        have := hchain.torn laws hle (sigframe r.trapframe r.sigBlocked)
        rw [hcopy] at this
        exact ⟨this, rfl⟩
    exact ⟨frames, hq.2.trans hlog, hq.1.unwinds laws q rfl rfl, hq.1.apart⟩
  · rw [checkSignal, if_pos hforced] at h
    cases h

/-- Memory in which every address below the last page is mapped. -/
def flatCopy : UserCopy (Nat → Word) where
  copyout a ws m :=
    if 2 ^ 64 < a.toNat + 4096 then (false, m)
    else (true, fun n => if a.toNat ≤ n ∧ n < a.toNat + sigframeSize then
      ws.getD ((n - a.toNat) / 8) 0 else m n)
  copyin a m := some (List.ofFn fun i : Fin 33 => m (a.toNat + 8 * i))

lemma flatCopy_laws : flatCopy.Laws fun a frame m => flatCopy.copyin a m = some frame where
  read h := h
  stored {a tf mask m m'} h := by
    simp only [flatCopy] at h
    split at h
    · cases h
    · cases h
      refine congrArg some (ext_getElem (by simp [sigframe]) fun i hi hi' => ?_)
      rw [length_ofFn] at hi
      have hin : a.toNat ≤ a.toNat + 8 * i ∧ a.toNat + 8 * i < a.toNat + sigframeSize := by
        simp only [sigframeSize]
        omega
      simp only [List.getElem_ofFn, hin, and_self, if_true]
      rw [show (a.toNat + 8 * i - a.toNat) / 8 = i by omega, List.getD_eq_getElem _ _ hi']
  kept {a ws m b frame} hle _ h := by
    rw [← h]
    simp only [flatCopy]
    split
    · rfl
    · refine congrArg some (ofFn_inj.mpr (funext fun i => if_neg (by omega)))
  refused {a ws m} h := by
    simp only [flatCopy, if_pos h]
    exact ⟨trivial, id⟩

/-- Two handlers are set up at once and return one after the other. -/
theorem two_handlers_unwind :
    let p : Target (Nat → Word) := ⟨fun _ => 0x10000, sigmask 10 ||| sigmask 12, sigmask 3,
      fun _ => ⟨0x1000, 0, 0x3000, 0⟩, fun _ => 0, []⟩
    ∃ q, checkSignal riscvLayout flatCopy p = .returned q ∧ q.log.length = 2 ∧
      ∃ frames : List Word, q.log.length = frames.length ∧
        Unwinds riscvLayout flatCopy (fun a frame m => flatCopy.copyin a m =
          some frame) p.trapframe p.sigBlocked
          q.mem frames q := by
  intro p
  have hlog : (checkSignal riscvLayout flatCopy p).target.log.length = 2 := by decide +kernel
  have hback : (match checkSignal riscvLayout flatCopy p with
    | .returned _ => true
    | .exited .. => false) = true := by decide +kernel
  generalize ho : checkSignal riscvLayout flatCopy p = o at hlog hback
  cases o with
  | exited => cases hback
  | returned q =>
    obtain ⟨frames, hlen, hunwinds, -⟩ := checkSignal_unwinds flatCopy_laws (by decide) ho
    exact ⟨q, rfl, hlog, frames, hlen.trans (Nat.zero_add _), hunwinds⟩

end Chain

end FrostVista.Kernel.Signal
