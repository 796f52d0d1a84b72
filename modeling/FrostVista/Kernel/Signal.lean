import FrostVista.Kernel.Process
import FrostVista.Library.SetBits
import Mathlib.Data.BitVec

/-!
# Delivering signals

`check_signal` and `rt_sigreturn` of `kernel/core`. A pending signal that is not blocked is ignored,
ends the process, or gets a frame on the user stack and a handler. User memory is a state of any
type with the two copies; the register numbers are those of the trap frame of either architecture,
which has 32 words.
-/
namespace FrostVista.Kernel.Signal

open Lib List Function

def sigkill : Nat := 9

def sigstop : Nat := 19

def nsig : Nat := 64

/-- `SIGMASK(sig)` -/
def sigmask (sig : Nat) : Word := 1#64 <<< (sig - 1)

def sigDfl : Word := 0

def sigIgn : Word := 1

/-- The signal is in the mask. -/
def blocks (mask : Word) (sig : Nat) : Bool := mask.getLsbD (sig - 1)

/-! ## The lowest bit -/

/-- One comparison of `lowest_set_bit`, with the mask and the count so far. -/
def halve (w : Nat) (x : Word × Nat) : Word × Nat :=
  if x.1 &&& BitVec.ofNat 64 (2 ^ w - 1) = 0 then (x.1 >>> w, x.2 + w) else x

def lowestSetBit (mask : Word) : Nat :=
  (halve 1 (halve 2 (halve 4 (halve 8 (halve 16 (halve 32 (mask, 0))))))).2

variable {t : Nat}

lemma halve_lowest (h : Lowest x.1 t) (hw : w < 64) (ht : t < 2 * w) :
    ∃ t', Lowest (halve w x).1 t' ∧ t' < w ∧ (halve w x).2 + t' = x.2 + t := by
  have hlt : 2 ^ w - 1 < 2 ^ 64 := (Nat.sub_le ..).trans_lt (Nat.pow_lt_pow_right (by decide) hw)
  have hmod : x.1 &&& BitVec.ofNat 64 (2 ^ w - 1) = 0 ↔ w ≤ t := by
    rw [← h.mod_eq_zero_iff, ← BitVec.toNat_inj, BitVec.toNat_and, BitVec.toNat_ofNat,
      Nat.mod_eq_of_lt hlt, Nat.and_two_pow_sub_one_eq_mod]
    rfl
  simp only [halve, hmod]
  split
  · exact ⟨t - w, h.shift ‹_›, by omega, by omega⟩
  · exact ⟨t, h, by omega, rfl⟩

lemma lowestSetBit_eq (h : Lowest x t) : lowestSetBit x = t := by
  obtain ⟨t1, h1, hlt1, he1⟩ := halve_lowest (x := (x, 0)) (w := 32) h (by decide) h.lt
  obtain ⟨t2, h2, hlt2, he2⟩ := halve_lowest (w := 16) h1 (by decide) hlt1
  obtain ⟨t3, h3, hlt3, he3⟩ := halve_lowest (w := 8) h2 (by decide) hlt2
  obtain ⟨t4, h4, hlt4, he4⟩ := halve_lowest (w := 4) h3 (by decide) hlt3
  obtain ⟨t5, h5, hlt5, he5⟩ := halve_lowest (w := 2) h4 (by decide) hlt4
  obtain ⟨t6, h6, hlt6, he6⟩ := halve_lowest (w := 1) h5 (by decide) hlt5
  simp only at he1
  unfold lowestSetBit
  omega

/-! ## The code -/

abbrev Trapframe := Fin 32 → Word

/-- The places of registers in the trap frame. -/
structure Layout where
  ra : Fin 32
  sp : Fin 32
  a0 : Fin 32
  epc : Fin 32
  sp_ne : sp ≠ ra ∧ sp ≠ a0 ∧ sp ≠ epc
  epc_ne : epc ≠ ra ∧ epc ≠ a0

def riscvLayout : Layout := ⟨0, 1, 9, 31, by decide, by decide⟩

/-- `struct sigframe`: the trap frame and the mask. -/
def sigframe (tf : Trapframe) (mask : Word) : List Word := List.ofFn tf ++ [mask]

/-- `sizeof(struct sigframe)` -/
def sigframeSize : Nat := 264

/-- `copyout` and `copyin` of a signal frame in the address space of the process. -/
structure UserCopy (μ : Type) where
  copyout : Word → List Word → μ → Bool × μ
  copyin : Word → μ → Option (List Word)

/-- A handler has been set up: its signal, the blocked mask at that moment, and what was pending
afterwards. -/
structure Setup where
  sig : Nat
  blocked : Word
  pending : Word

/-- The process as the signal code sees it; `log` records the handlers that are set up. -/
structure Target (μ : Type) where
  trapframe : Trapframe
  sigPending : Word
  sigBlocked : Word
  actions : Nat → Sigaction
  mem : μ
  log : List Setup

inductive Outcome (μ : Type) where
  | returned (p : Target μ)
  | exited (sig : Nat) (p : Target μ)

def Outcome.target {μ : Type} : Outcome μ → Target μ
  | .returned p | .exited _ p => p

variable {μ : Type} (R : Layout) (U : UserCopy μ)

/-- `sig_pending &= ~SIGMASK(sig)` -/
def Target.clear (p : Target μ) (sig : Nat) : Target μ :=
  { p with sigPending := p.sigPending &&& ~~~sigmask sig }

/-- `(old_sp - sizeof(struct sigframe)) & ~0xF` -/
def frameSp (sp : Word) : Word := (sp - 264#64) &&& ~~~0xf#64

/-- The process after its frame has been copied out. -/
def Target.enter (p : Target μ) (sig : Nat) (mem : μ) : Target μ where
  trapframe := update (update (update (update p.trapframe
    R.sp (frameSp (p.trapframe R.sp))) R.epc (p.actions sig).handler) R.a0 (BitVec.ofNat 64 sig))
    R.ra (p.actions sig).restorer
  sigPending := p.sigPending &&& ~~~sigmask sig
  sigBlocked := p.sigBlocked ||| ((p.actions sig).mask ||| sigmask sig)
  actions := p.actions
  mem := mem
  log := p.log ++ [⟨sig, p.sigBlocked, p.sigPending &&& ~~~sigmask sig⟩]

/-- The body of the loop: the call ends, or it goes on with the next signal. -/
def takeSignal (sig : Nat) (p : Target μ) : Except (Outcome μ) (Target μ) :=
  if (p.actions sig).handler = sigIgn then .ok (p.clear sig)
  else if (p.actions sig).handler = sigDfl then .error (.exited sig (p.clear sig))
  else if (p.actions sig).restorer = 0 then .error (.returned p)
  else
    match U.copyout (frameSp (p.trapframe R.sp)) (sigframe p.trapframe p.sigBlocked) p.mem with
    | (true, mem) => .ok (p.enter R sig mem)
    | (false, mem) => .error (.returned { p with mem := mem })

/-- `while (ready)`; a mask has 64 bits. -/
def deliver : Nat → Word → Target μ → Outcome μ
  | 0, _, p => .returned p
  | fuel + 1, ready, p =>
    if ready = 0 then .returned p
    else
      match takeSignal R U (lowestSetBit ready + 1) p with
      | .error o => o
      | .ok p => deliver fuel (ready &&& (ready - 1#64)) p

def checkSignal (p : Target μ) : Outcome μ :=
  let forced := p.sigPending &&& (sigmask sigkill ||| sigmask sigstop)
  if forced ≠ 0 then .exited (if forced &&& sigmask sigkill ≠ 0 then sigkill else sigstop) p
  else deliver R U 64 (p.sigPending &&& ~~~p.sigBlocked) p

/-- `sys_rt_sigreturn` with its result; the frame is at the stack pointer of the call. -/
def rtSigreturn (p : Target μ) : Word × Target μ :=
  match U.copyin (p.trapframe R.sp) p.mem with
  | none => (-14, p)
  | some frame =>
    let tf : Trapframe := fun i => frame.getD i 0
    if tf R.epc = 0 ∨ tf R.sp = 0 then (-22, p)
    else (0, { p with trapframe := tf, sigBlocked := frame.getD 32 0 })

/-! ## Signals one after the other -/

/-- The loop over a list of bits instead of a mask. -/
def deliverBits : List Nat → Target μ → Outcome μ
  | [], p => .returned p
  | t :: rest, p =>
    match takeSignal R U (t + 1) p with
    | .error o => o
    | .ok p => deliverBits rest p

lemma deliver_eq (h : (setBits ready).length ≤ fuel) (p : Target μ) :
    deliver R U fuel ready p = deliverBits R U (setBits ready) p := by
  induction fuel generalizing ready p with
  | zero =>
    rw [eq_nil_of_length_eq_zero (Nat.le_zero.mp h)]
    rfl
  | succ fuel ih =>
    by_cases hzero : ready = 0
    · subst hzero
      simp [deliver, deliverBits]
    · obtain ⟨t, ht⟩ := exists_lowest hzero
      rw [ht.setBits_eq, length_cons] at h
      have ih := fun p => ih (Nat.le_of_succ_le_succ h) p
      rw [ht.setBits_eq, deliver, if_neg hzero]
      simp only [lowestSetBit_eq ht, ih, deliverBits]

lemma checkSignal_eq {p : Target μ}
    (h : p.sigPending &&& (sigmask sigkill ||| sigmask sigstop) = 0) :
    checkSignal R U p = deliverBits R U (setBits (p.sigPending &&& ~~~p.sigBlocked)) p := by
  rw [checkSignal, if_neg (by simpa using h), deliver_eq]
  exact length_setBits_le _

lemma getLsbD_sigmask (t i : Nat) (ht : t < 64) : (sigmask (t + 1)).getLsbD i = decide (i = t) := by
  rw [sigmask, Nat.add_sub_cancel, BitVec.getLsbD_shiftLeft, BitVec.getLsbD_one]
  by_cases hit : i = t
  · simp [hit, ht]
  · simp only [hit, decide_false]
    by_cases hlt : i < t
    · simp [hlt]
    · simp [show i - t ≠ 0 by omega]

/-- The signal gets a handler if its frame can be copied out. -/
def Handled (a : Sigaction) : Prop := a.handler ≠ sigIgn ∧ a.handler ≠ sigDfl ∧ a.restorer ≠ 0

/-- The loop can go on behind the signal. -/
def Passes (a : Sigaction) : Prop := a.handler = sigIgn ∨ Handled a

/-- The signals of a list have been ignored or have got handlers. -/
inductive Passed : Target μ → List Nat → Target μ → Prop where
  | nil (p : Target μ) : Passed p [] p
  | ignored {p q : Target μ} {t : Nat} {rest : List Nat} : (p.actions (t + 1)).handler = sigIgn →
      Passed (p.clear (t + 1)) rest q → Passed p (t :: rest) q
  | entered {p q : Target μ} {t : Nat} {rest : List Nat} {mem : μ} : Handled (p.actions (t + 1)) →
      U.copyout (frameSp (p.trapframe R.sp)) (sigframe p.trapframe p.sigBlocked) p.mem =
        (true, mem) →
      Passed (p.enter R (t + 1) mem) rest q → Passed p (t :: rest) q

/-- How the loop ends. -/
inductive Ends (q : Target μ) : List Nat → Outcome μ → Prop where
  | done : Ends q [] (.returned q)
  | stuck {t : Nat} {rest : List Nat} : ¬Passes (q.actions (t + 1)) →
      (q.actions (t + 1)).handler ≠ sigDfl →
      Ends q (t :: rest) (.returned q)
  | torn {t : Nat} {rest : List Nat} {mem : μ} :
      U.copyout (frameSp (q.trapframe R.sp)) (sigframe q.trapframe q.sigBlocked) q.mem =
        (false, mem) →
      Ends q (t :: rest) (.returned { q with mem := mem })
  | died {t : Nat} {rest : List Nat} : (q.actions (t + 1)).handler = sigDfl →
      Ends q (t :: rest) (.exited (t + 1) (q.clear (t + 1)))

lemma deliverBits_split (l : List Nat) (p : Target μ) :
    ∃ pre rest q, l = pre ++ rest ∧ Passed R U p pre q ∧ Ends R U q rest (deliverBits R U l p) := by
  induction l generalizing p with
  | nil => exact ⟨[], [], p, rfl, .nil p, .done⟩
  | cons t rest ih =>
    rw [deliverBits, takeSignal]
    by_cases hign : (p.actions (t + 1)).handler = sigIgn
    · obtain ⟨pre, rest', q, rfl, hq, hend⟩ := ih (p.clear (t + 1))
      rw [if_pos hign]
      exact ⟨t :: pre, rest', q, rfl, .ignored hign hq, hend⟩
    rw [if_neg hign]
    by_cases hdfl : (p.actions (t + 1)).handler = sigDfl
    · rw [if_pos hdfl]
      exact ⟨[], t :: rest, p, rfl, .nil p, .died hdfl⟩
    rw [if_neg hdfl]
    by_cases hres : (p.actions (t + 1)).restorer = 0
    · rw [if_pos hres]
      exact ⟨[], t :: rest, p, rfl, .nil p,
        .stuck (by rintro (h | h); exacts [hign h, h.2.2 hres]) hdfl⟩
    rw [if_neg hres]
    cases hcopy : U.copyout (frameSp (p.trapframe R.sp))
      (sigframe p.trapframe p.sigBlocked) p.mem with
    | mk ok mem =>
      cases ok with
      | false => exact ⟨[], t :: rest, p, rfl, .nil p, .torn hcopy⟩
      | true =>
        obtain ⟨pre, rest', q, rfl, hq, hend⟩ := ih (p.enter R (t + 1) mem)
        exact ⟨t :: pre, rest', q, rfl, .entered ⟨hign, hdfl, hres⟩ hcopy hq, hend⟩

lemma checkSignal_split {p : Target μ}
    (h : p.sigPending &&& (sigmask sigkill ||| sigmask sigstop) = 0) :
    ∃ pre rest q, setBits (p.sigPending &&& ~~~p.sigBlocked) = pre ++ rest ∧
      Passed R U p pre q ∧ Ends R U q rest (checkSignal R U p) := by
  rw [checkSignal_eq R U h]
  exact deliverBits_split R U _ p

section Passed

variable {R U} {p q : Target μ} {pre a b : List Nat}

lemma Passed.actions_eq (h : Passed R U p pre q) : q.actions = p.actions := by
  induction h with
  | nil => rfl
  | ignored _ _ ih | entered _ _ _ ih => exact ih

variable {t : Nat}

lemma getLsbD_clear (m : Word) (ht : t < 64) (i : Nat) :
    (m &&& ~~~sigmask (t + 1)).getLsbD i = (m.getLsbD i && decide (i ≠ t)) := by
  rw [BitVec.getLsbD_and, BitVec.getLsbD_not, getLsbD_sigmask t i ht]
  by_cases hi : i < 64
  · simp [hi]
  · simp [BitVec.getLsbD_of_ge m i (by omega)]

lemma Passed.pending (h : Passed R U p pre q) (hlt : ∀ t ∈ pre, t < 64) (i : Nat) :
    q.sigPending.getLsbD i = (p.sigPending.getLsbD i && decide (i ∉ pre)) := by
  have hclear := fun (m : Word) t (ht : t < 64) => getLsbD_clear m ht i
  induction h with
  | nil => simp
  | ignored _ _ ih =>
    rw [ih fun t ht => hlt t (mem_cons_of_mem _ ht), Target.clear, hclear _ _ (hlt _ mem_cons_self)]
    simp [Bool.and_assoc]
  | entered _ _ _ ih =>
    rw [ih fun t ht => hlt t (mem_cons_of_mem _ ht), Target.enter, hclear _ _ (hlt _ mem_cons_self)]
    simp [Bool.and_assoc]

lemma Passed.blocked (h : Passed R U p pre q) (hlt : ∀ t ∈ pre, t < 64) (i : Nat) :
    q.sigBlocked.getLsbD i = true ↔ p.sigBlocked.getLsbD i = true ∨
      ∃ s ∈ pre, Handled (p.actions (s + 1)) ∧
        ((p.actions (s + 1)).mask.getLsbD i = true ∨ i = s) := by
  induction h with
  | nil => simp
  | ignored hign _ ih =>
    rw [ih fun t ht => hlt t (mem_cons_of_mem _ ht)]
    simp [Target.clear, Handled, hign]
  | entered hh _ _ ih =>
    rw [ih fun t ht => hlt t (mem_cons_of_mem _ ht)]
    simp [Target.enter, getLsbD_sigmask _ i (hlt _ mem_cons_self), hh, or_assoc]

lemma Passed.append (h : Passed R U p (a ++ b) q) : ∃ r, Passed R U p a r ∧ Passed R U r b q := by
  induction a generalizing p with
  | nil => exact ⟨p, .nil p, h⟩
  | cons t a ih =>
    cases h with
    | ignored hign h =>
      obtain ⟨r, hr, hq⟩ := ih h
      exact ⟨r, .ignored hign hr, hq⟩
    | entered hh hcopy h =>
      obtain ⟨r, hr, hq⟩ := ih h
      exact ⟨r, .entered hh hcopy hr, hq⟩

lemma Passed.mem_log (h : Passed R U p pre q) (he : e ∈ q.log) : e ∈ p.log ∨
    ∃ a t b r, pre = a ++ t :: b ∧ Passed R U p a r ∧ Handled (p.actions (t + 1)) ∧
      e = ⟨t + 1, r.sigBlocked, r.sigPending &&& ~~~sigmask (t + 1)⟩ := by
  induction h with
  | nil => exact .inl he
  | ignored hign _ ih =>
    rcases ih he with hold | ⟨a, t, b, r, rfl, hr, hh, rfl⟩
    · exact .inl hold
    · exact .inr ⟨_ :: a, t, b, r, rfl, .ignored hign hr, hh, rfl⟩
  | @entered p _ t _ mem hh hcopy _ ih =>
    rcases ih he with hold | ⟨a, t, b, r, rfl, hr, hh', rfl⟩
    · rcases mem_append.mp hold with hold | hnew
      · exact .inl hold
      · exact .inr ⟨[], t, _, p, rfl, .nil p, hh, mem_singleton.mp hnew⟩
    · exact .inr ⟨_ :: a, t, b, r, rfl, .entered hh hcopy hr, hh', rfl⟩

lemma Passed.log_subset (h : Passed R U p pre q) : p.log ⊆ q.log := by
  induction h with
  | nil => exact List.Subset.refl _
  | ignored _ _ ih => exact ih
  | entered _ _ _ ih => exact List.Subset.trans (subset_append_left ..) ih

lemma Passed.logged (h : Passed R U p (a ++ t :: b) q) (hh : Handled (p.actions (t + 1))) :
    ∃ r, Passed R U p a r ∧ ⟨t + 1, r.sigBlocked, r.sigPending &&& ~~~sigmask (t + 1)⟩ ∈ q.log := by
  obtain ⟨r, hr, hq⟩ := h.append
  refine ⟨r, hr, ?_⟩
  cases hq with
  | ignored hign _ => exact absurd hign (by rw [hr.actions_eq]; exact hh.1)
  | entered _ _ hq => exact hq.log_subset (mem_append_right _ mem_cons_self)

end Passed

/-! ## Blocked signals -/

/-- Handlers are set up for signals that are not blocked, and what is pending in the mask of such a
handler stays pending. -/
structure Respected (actions : Nat → Sigaction) (o : Outcome μ) : Prop where
  unblocked : ∀ e ∈ o.target.log, blocks e.blocked e.sig = false
  waiting : ∀ e ∈ o.target.log, ∀ t, blocks (actions e.sig).mask (t + 1) = true →
    blocks e.pending (t + 1) = true → blocks o.target.sigPending (t + 1) = true

/-- The signal `t + 1` is pending and not blocked. -/
def Ready (pending blocked : Word) (t : Nat) : Prop := (pending &&& ~~~blocked).getLsbD t = true

/-- If a signal is in the mask of an earlier one that gets a handler, the loop ends before it: at
another signal, or since it has no restorer. -/
def Orderly (pending blocked : Word) (actions : Nat → Sigaction) : Prop :=
  ∀ s t, s < t → Ready pending blocked s → Ready pending blocked t → Handled (actions (s + 1)) →
    blocks (actions (s + 1)).mask (t + 1) = true →
    (∀ u < t, Ready pending blocked u → Passes (actions (u + 1))) →
    ¬Passes (actions (t + 1)) ∧ (actions (t + 1)).handler ≠ sigDfl

section Blocked

variable {R U} {p q : Target μ} {l pre rest : List Nat}

variable {t s : Nat} {actions : Nat → Sigaction} {blocked pending : Word}

lemma Passed.passes (h : Passed R U p pre q) (ht : t ∈ pre) : Passes (p.actions (t + 1)) := by
  induction h with
  | nil => cases ht
  | ignored hign _ ih =>
    rcases mem_cons.mp ht with rfl | ht
    · exact .inl hign
    · exact ih ht
  | entered hh _ _ ih =>
    rcases mem_cons.mp ht with rfl | ht
    · exact .inr hh
    · exact ih ht

/-- In an ascending list, whatever is less than an element of the first part, or than the first
element of the rest, is in the first part. -/
lemma mem_pre_of_lt (hsorted : (pre ++ rest).Pairwise (· < ·)) (hs : s ∈ pre ++ rest) (hst : s < t)
    (ht : t ∈ pre ∨ rest.head? = some t) : s ∈ pre := by
  rw [pairwise_append] at hsorted
  rcases mem_append.mp hs with hs | hs
  · exact hs
  rcases ht with ht | ht
  · exact absurd (hsorted.2.2 t ht s hs) (by omega)
  · obtain ⟨rest', rfl⟩ := head?_eq_some_iff.mp ht
    rcases mem_cons.mp hs with rfl | hs
    · omega
    · exact absurd ((pairwise_cons.mp hsorted.2.1).1 s hs) (by omega)

lemma Orderly.not_masked (h : Orderly pending blocked actions)
    (hl : setBits (pending &&& ~~~blocked) = pre ++ rest) (hpre : ∀ t ∈ pre,
      Passes (actions (t + 1))) (hs : s ∈ pre) (hst : s < t) (hh : Handled (actions (s + 1)))
    (ht : t ∈ pre ∨ rest.head? = some t ∧ (actions (t + 1)).handler = sigDfl) :
    blocks (actions (s + 1)).mask (t + 1) = false := by
  have hready : ∀ u ∈ pre ++ rest, Ready pending blocked u := fun u hu => mem_setBits.mp (hl ▸ hu)
  have hsorted : (pre ++ rest).Pairwise (· < ·) := hl ▸ pairwise_setBits (pending &&& ~~~blocked)
  rw [← Bool.not_eq_true]
  intro hmask
  have hmem : t ∈ pre ++ rest := by
    rcases ht with ht | ⟨ht, -⟩
    · exact mem_append_left _ ht
    · exact mem_append_right _ (mem_of_head? ht)
  have hbefore : ∀ u < t, Ready pending blocked u → Passes (actions (u + 1)) := by
    intro u hu hru
    apply hpre
    exact mem_pre_of_lt hsorted (hl ▸ mem_setBits.mpr hru) hu (ht.imp_right And.left)
  obtain ⟨hstop, hdfl⟩ := h s t hst (hready s (mem_append_left _ hs))
    (hready t hmem) hh hmask hbefore
  rcases ht with ht | ⟨-, ht⟩
  · exact hstop (hpre t ht)
  · exact hdfl ht

lemma lt_of_mem_split (hl : setBits x = (a ++ t :: b) ++ rest) :
    (s ∈ a → s < t) ∧ (s ∈ b → t < s) := by
  have hsorted := pairwise_setBits x
  rw [hl, pairwise_append, pairwise_append, pairwise_cons] at hsorted
  exact ⟨fun hs => hsorted.1.2.2 s hs t mem_cons_self, hsorted.1.2.1.1 s⟩

section Order

variable (h : Orderly p.sigPending p.sigBlocked p.actions)
  (hl : setBits (p.sigPending &&& ~~~p.sigBlocked) = pre ++ rest) (hq : Passed R U p pre q)
    (hlog : p.log = [])
include h hl hq hlog

lemma Orderly.log_unblocked : ∀ e ∈ q.log, blocks e.blocked e.sig = false := by
  intro e he
  rcases hq.mem_log he with hold | ⟨a, t, b, r, rfl, hr, hh, rfl⟩
  · rw [hlog] at hold
    cases hold
  have hin : ∀ u ∈ a ++ t :: b, u ∈ setBits (p.sigPending &&& ~~~p.sigBlocked) := fun u hu =>
    hl ▸ mem_append_left _ hu
  have htpre : t ∈ a ++ t :: b := mem_append_right _ mem_cons_self
  have hready := mem_setBits.mp (hin t htpre)
  simp only [BitVec.getLsbD_and, BitVec.getLsbD_not, Bool.and_eq_true, Bool.not_eq_true'] at hready
  rw [blocks, Nat.add_sub_cancel, ← Bool.not_eq_true,
    hr.blocked fun s hs => lt_of_mem_setBits (hin s (mem_append_left _ hs))]
  rintro (hb | ⟨s, hs, hh', hmask | rfl⟩)
  · rw [hready.2.2] at hb
    cases hb
  · have := h.not_masked hl (fun u => hq.passes) (mem_append_left _ hs)
      ((lt_of_mem_split hl).1 hs) hh'
      (.inl htpre)
    rw [blocks, Nat.add_sub_cancel, hmask] at this
    cases this
  · exact absurd ((lt_of_mem_split hl).1 hs) (lt_irrefl _)

lemma Orderly.log_waiting (hend : Ends R U q rest o) :
    ∀ e ∈ q.log, ∀ t, blocks (p.actions e.sig).mask (t + 1) = true →
      blocks e.pending (t + 1) = true →
      blocks o.target.sigPending (t + 1) = true := by
  intro e he t' hmask hpend
  rcases hq.mem_log he with hold | ⟨a, t, b, r, rfl, hr, hh, rfl⟩
  · rw [hlog] at hold
    cases hold
  have hlt : ∀ u ∈ (a ++ t :: b) ++ rest, u < 64 := fun u hu => lt_of_mem_setBits (hl ▸ hu)
  have hltpre : ∀ u ∈ a ++ t :: b, u < 64 := fun u hu => hlt u (mem_append_left _ hu)
  have htpre : t ∈ a ++ t :: b := mem_append_right _ mem_cons_self
  simp only [blocks, Nat.add_sub_cancel] at hpend ⊢
  rw [getLsbD_clear _ (hltpre t htpre), hr.pending fun s hs =>
    hltpre s (mem_append_left _ hs)] at hpend
  simp only [Bool.and_eq_true, decide_eq_true_eq] at hpend
  obtain ⟨⟨hp, hna⟩, hne⟩ := hpend
  -- Behind the handler only signals outside its mask are taken.
  have hfree : t < t' →
    ¬(t' ∈ a ++ t :: b ∨ rest.head? = some t' ∧ (p.actions (t' + 1)).handler = sigDfl) := by
    intro htt ht'
    rw [h.not_masked hl (fun u => hq.passes) htpre htt hh ht'] at hmask
    cases hmask
  have hmem : t' ∉ a ++ t :: b := by
    intro hmem
    rcases mem_append.mp hmem with ha | hb
    · exact hna ha
    rcases mem_cons.mp hb with rfl | hb
    · exact hne rfl
    · exact hfree ((lt_of_mem_split hl).2 hb) (.inl hmem)
  have hqp : q.sigPending.getLsbD t' = true := by
    rw [hq.pending hltpre, hp]
    simpa using hmem
  cases hend with
  | done | stuck | torn => exact hqp
  | @died u rest hdfl =>
    show (q.sigPending &&& ~~~sigmask (u + 1)).getLsbD t' = true
    rw [getLsbD_clear _ (hlt u (mem_append_right _ mem_cons_self)), hqp]
    simp only [Bool.true_and, decide_eq_true_eq]
    rintro rfl
    have hsorted := pairwise_setBits (p.sigPending &&& ~~~p.sigBlocked)
    rw [hl, pairwise_append] at hsorted
    rw [hq.actions_eq] at hdfl
    exact hfree (hsorted.2.2 t htpre t' mem_cons_self) (.inr ⟨rfl, hdfl⟩)

end Order

lemma respected_of_orderly (h : Orderly p.sigPending p.sigBlocked p.actions) (hlog : p.log = [])
    (hforced : p.sigPending &&& (sigmask sigkill ||| sigmask sigstop) = 0) :
    Respected p.actions (checkSignal R U p) := by
  obtain ⟨pre, rest, q, hl, hq, hend⟩ := checkSignal_split R U hforced
  generalize checkSignal R U p = o at hend
  have hlogq : o.target.log = q.log := by cases hend <;> rfl
  constructor
  · rw [hlogq]
    exact h.log_unblocked hl hq hlog
  · rw [hlogq]
    exact h.log_waiting hl hq hlog hend

/-- User memory that takes every frame. -/
def boundless : UserCopy Unit := ⟨fun _ _ mem => (true, mem), fun _ _ => none⟩

/-- Where every frame can be copied out, the loop takes each ready signal up to the first that stops
it. -/
lemma taken_of_boundless {R : Layout} {p : Target Unit} (hsorted : l.Pairwise (· < ·))
    (ht : t ∈ l) (hlt : ∀ u ∈ l, u < 64) (hbefore : ∀ u ∈ l, u < t → Passes (p.actions (u + 1)))
    (hpass : Passes (p.actions (t + 1)) ∨ (p.actions (t + 1)).handler = sigDfl) :
    (deliverBits R boundless l p).target.sigPending.getLsbD t = false ∧
      ∀ s ∈ l, s < t → Handled (p.actions (s + 1)) → ∃ a b r, l = a ++ s :: b ∧
        Passed R boundless p a r ∧
        ⟨s + 1, r.sigBlocked,
          r.sigPending &&& ~~~sigmask (s + 1)⟩ ∈ (deliverBits R boundless l p).target.log := by
  obtain ⟨pre, rest, q, rfl, hq, hend⟩ := deliverBits_split R boundless l p
  generalize deliverBits R boundless (pre ++ rest) p = o at hend
  have hlogq : o.target.log = q.log := by cases hend <;> rfl
  have hpend := hq.pending (fun u hu => hlt u (mem_append_left _ hu)) t
  have hrest := (pairwise_append.mp hsorted).2.1
  -- The loop has not ended before the signal.
  have hreached : t ∈ pre ∨ rest.head? = some t ∧ (p.actions (t + 1)).handler = sigDfl := by
    rcases mem_append.mp ht with ht | ht
    · exact .inl ht
    refine .inr ?_
    rw [← hq.actions_eq] at hbefore hpass ⊢
    cases hend with
    | done => cases ht
    | torn h => cases h
    | @stuck u rest hstop hdfl =>
      rcases mem_cons.mp ht with rfl | ht
      · exact absurd hpass (by tauto)
      · exact absurd (hbefore u (by simp) ((pairwise_cons.mp hrest).1 t ht)) hstop
    | @died u rest hdfl =>
      rcases mem_cons.mp ht with rfl | ht
      · exact ⟨rfl, hdfl⟩
      rcases hbefore u (by simp) ((pairwise_cons.mp hrest).1 t ht) with h | h
      · exact absurd (h.symm.trans hdfl) (by decide)
      · exact absurd hdfl h.2.1
  constructor
  · rcases hreached with h | ⟨h, hdfl⟩
    · have hnone : q.sigPending.getLsbD t = false := by simp [hpend, h]
      cases hend with
      | @died u rest _ =>
        show (q.sigPending &&& ~~~sigmask (u + 1)).getLsbD t = false
        rw [getLsbD_clear _ (hlt u (by simp)), hnone, Bool.false_and]
      | _ => exact hnone
    · rw [← hq.actions_eq] at hdfl
      cases hend with
      | done => cases h
      | torn h' => cases h'
      | stuck _ h' => cases h; exact absurd hdfl h'
      | died _ =>
        cases h
        show (q.sigPending &&& ~~~sigmask (t + 1)).getLsbD t = false
        rw [getLsbD_clear _ (hlt t (by simp))]
        simp
  · intro s hs hst hh
    have hs' : s ∈ pre := mem_pre_of_lt hsorted hs hst (hreached.imp_right And.left)
    obtain ⟨a, b, rfl⟩ := append_of_mem hs'
    obtain ⟨r, hr, hmem⟩ := hq.logged hh
    exact ⟨a, b ++ rest, r, by simp, hr, hlogq ▸ hmem⟩

lemma orderly_of_respected (R : Layout)
    (hforced : pending &&& (sigmask sigkill ||| sigmask sigstop) = 0)
    (h : Respected actions (checkSignal R boundless ⟨0, pending, blocked, actions, (), []⟩)) :
    Orderly pending blocked actions := by
  intro s t hst hs ht hh hmask hbefore
  rw [checkSignal_eq R boundless hforced] at h
  by_contra hcon
  have hlt : ∀ u ∈ setBits (pending &&& ~~~blocked), u < 64 := fun _ => lt_of_mem_setBits
  obtain ⟨hgone, hlogged⟩ := taken_of_boundless (R := R)
    (p := ⟨0, pending, blocked, actions, (), []⟩) (pairwise_setBits _) (mem_setBits.mpr ht) hlt
    (fun u hu hut => hbefore u hut (mem_setBits.mp hu)) (by tauto)
  obtain ⟨a, b, r, hl, hr, hmem⟩ := hlogged s (mem_setBits.mpr hs) hst hh
  -- The masked signal was pending when the handler was set up, and it is taken later.
  have hsorted := pairwise_setBits (pending &&& ~~~blocked)
  rw [hl] at hsorted hlt
  have hta : t ∉ a := fun hta => absurd ((pairwise_append.mp hsorted).2.2 t hta s mem_cons_self)
    (by omega)
  have hwait := h.waiting _ hmem t hmask (by
    rw [blocks, Nat.add_sub_cancel, getLsbD_clear _ (hlt s (by simp)),
      hr.pending fun u hu => hlt u (mem_append_left _ hu)]
    simp only [Ready, BitVec.getLsbD_and, Bool.and_eq_true] at ht
    simp [ht.1, hta, hst.ne'])
  rw [blocks, Nat.add_sub_cancel, hgone] at hwait
  cases hwait

/-- `check_signal` respects the masks of the handlers that it sets up, whatever the frames and the
user memory are, exactly if a forced signal ends the process first or no taken signal is in the mask
of an earlier one. -/
theorem blocked_not_delivered_iff (R : Layout) (pending blocked : Word)
    (actions : Nat → Sigaction) :
    (∀ (μ : Type) (U : UserCopy μ) (tf : Trapframe) (mem : μ),
      Respected actions (checkSignal R U ⟨tf, pending, blocked, actions, mem, []⟩)) ↔
    pending &&& (sigmask sigkill ||| sigmask sigstop) ≠ 0 ∨ Orderly pending blocked actions := by
  constructor
  · intro h
    by_cases hforced : pending &&& (sigmask sigkill ||| sigmask sigstop) = 0
    · exact .inr (orderly_of_respected R hforced (h Unit boundless 0 ()))
    · exact .inl hforced
  · rintro h μ U tf mem
    by_cases hforced : pending &&& (sigmask sigkill ||| sigmask sigstop) = 0
    · exact respected_of_orderly (p := ⟨tf, pending, blocked, actions, mem, []⟩)
        (h.resolve_left (not_not_intro hforced)) rfl hforced
    · rw [checkSignal, if_pos hforced]
      exact ⟨by simp [Outcome.target], by simp [Outcome.target]⟩

/-- The handler of signal 10 masks signal 12; both are pending. The handler of 12 is set up over it
while 12 is blocked, and runs first. -/
theorem masked_signal_delivered :
    ((checkSignal riscvLayout boundless ⟨0, sigmask 10 ||| sigmask 12, 0,
      fun sig => if sig = 10 then ⟨0x1000, 0, 0x3000, sigmask 12⟩
        else ⟨0x2000, 0, 0x3000, 0⟩, (), []⟩).target.log.map
        fun e => (e.sig, blocks e.blocked e.sig)) = [(10, false), (12, true)] := by
  decide +kernel

end Blocked

end FrostVista.Kernel.Signal
