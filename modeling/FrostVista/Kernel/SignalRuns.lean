import FrostVista.Kernel.Signal
import FrostVista.Library.Run

/-!
# Signals of several processes

The process table as far as signals, `sleep` and `wakeup` use it, and runs of it. The other calls
that sleep or wake up appear as steps of their own. Each process keeps a record of the signals that
were raised for it.
-/
namespace FrostVista.Kernel.Signal

open Lib Function List Nat Target
open BitVec (getLsbD_and lt_of_getLsbD getLsbD_not getLsbD_or)

abbrev nproc : Nat := 64

instance : NeZero nproc := ⟨by decide⟩

abbrev SlotId := Fin nproc

/-- What a process sleeps on. -/
inductive Chan where
  | none
  | proc (slot : SlotId)
  | pipeRead (pipe : Nat)
  | pipeWrite (pipe : Nat)
  | timer
  | other (addr : Nat)
  deriving DecidableEq

/-- The signal state of a process, with the signals raised for it and the one it died from. -/
structure Signals (μ : Type) where
  target : Target μ
  raised : List Nat
  killed : Option Nat

structure Slot (μ : Type) where
  state : ProcState
  pid : Int
  chan : Chan
  signals : Signals μ

structure Table (μ : Type) where
  proc : SlotId → Slot μ
  nextPid : Int

variable {μ : Type}

/-! ## The calls -/

def sigint : Nat := 2

def sigsegv : Nat := 11

/-- The mask has neither `SIGKILL` nor `SIGSTOP`. -/
def Spares (mask : Word) : Prop := mask &&& (sigmask sigkill ||| sigmask sigstop) = 0

instance (mask : Word) : Decidable (Spares mask) := inferInstanceAs (Decidable (_ = _))

def signalPending (p : Target μ) : Bool := p.sigPending &&& ~~~p.sigBlocked ≠ 0

/-- `sys_rt_sigaction` with a new action. -/
def rtSigaction (sig : Int) (act : Sigaction) (p : Target μ) : Word × Target μ :=
  if sig < 1 ∨ sig ≥ nsig then (-22, p)
  else if sig = sigkill ∨ sig = sigstop then (-22, p)
  else (0, { p with actions := update p.actions sig.toNat act })

/-- `sys_rt_sigprocmask` with a new set. -/
def rtSigprocmask (how : Int) (set : Word) (p : Target μ) : Word × Target μ :=
  let newSet := set &&& ~~~(sigmask sigkill ||| sigmask sigstop)
  if how = 0 then (0, { p with sigBlocked := p.sigBlocked ||| newSet })
  else if how = 1 then (0, { p with sigBlocked := p.sigBlocked &&& ~~~newSet })
  else if how = 2 then (0, { p with sigBlocked := newSet })
  else (-22, p)

def signalResetOnExec (p : Target μ) : Target μ :=
  { p with
    sigPending := 0
    actions := fun i =>
      if 1 ≤ i ∧ i < nsig ∧ (p.actions i).handler ≠ sigIgn then ⟨sigDfl, 0, 0, 0⟩ else p.actions i }

def Signals.raise (g : Signals μ) (sig : Nat) : Signals μ :=
  { g with
    target := { g.target with sigPending := g.target.sigPending ||| sigmask sig }
    raised := g.raised ++ [sig] }

/-- The signals of a new child: those of the parent, for a process of its own. -/
def Signals.child (R : Layout) (g : Signals μ) : Signals μ where
  target := { g.target with trapframe := update g.target.trapframe R.a0 0, log := [] }
  raised := []
  killed := none

def Slot.onTarget (p : Slot μ) (f : Target μ → Target μ) : Slot μ :=
  { p with signals := { p.signals with target := f p.signals.target } }

def Table.set (s : Table μ) (i : SlotId) (p : Slot μ) : Table μ :=
  { s with proc := update s.proc i p }

@[simp] lemma Table.set_self (s : Table μ) (i : SlotId) (p : Slot μ) : (s.set i p).proc i = p :=
  update_self ..

lemma Table.set_of_ne (s : Table μ) (h : j ≠ i) (p : Slot μ) : (s.set i p).proc j = s.proc j :=
  update_of_ne h ..

def wakeup (cur : SlotId) (chan : Chan) (s : Table μ) : Table μ :=
  { s with
    proc := fun i =>
      if i ≠ cur ∧ (s.proc i).chan = chan ∧ (s.proc i).state = .sleeping then
        { s.proc i with state := .runnable }
      else s.proc i }

def signalSend (cur i : SlotId) (sig : Nat) (s : Table μ) : Table μ :=
  let s' := s.set i { s.proc i with signals := (s.proc i).signals.raise sig }
  if (s'.proc i).state = .sleeping then wakeup cur (.proc i) s' else s'

/-- The first process with the number that is in use. -/
def Table.find (s : Table μ) (pid : Int) : Option SlotId :=
  (List.finRange nproc).find? fun i => (s.proc i).pid = pid ∧ (s.proc i).state ≠ .unused

def kill (cur : SlotId) (pid sig : Int) (s : Table μ) : Int × Table μ :=
  if sig < 0 ∨ sig ≥ nsig then (-22, s)
  else
    match s.find pid with
    | none => (-3, s)
    | some i => if sig = 0 then (0, s) else (0, signalSend cur i sig.toNat s)

/-! ## Runs -/

/-- What a process does; `user` is its own code, which changes its registers and its memory at will,
and `interrupt` is one turn of the loop of `terminal_release_input`. -/
inductive Act (μ : Type) where
  | dispatch
  | user (tf : Trapframe) (mem : μ)
  | sigaction (sig : Int) (act : Sigaction)
  | sigprocmask (how : Int) (set : Word)
  | check
  | sigreturn
  | exec (tf : Trapframe) (mem : μ)
  | fault
  | fork
  | kill (pid sig : Int)
  | interrupt (owner : SlotId)
  | sleep (chan : Chan)
  | wake (chan : Chan)
  | yield
  | exit
  | reap (child : SlotId)

variable (R : Layout) (U : UserCopy μ)

/-- The action of the running process `cur`. -/
def Table.act (s : Table μ) (cur : SlotId) : Act μ → Table μ
  | .dispatch => s
  | .user tf mem =>
      s.set cur ((s.proc cur).onTarget fun p => { p with trapframe := tf, mem := mem })
  | .sigaction sig act => s.set cur ((s.proc cur).onTarget fun p => (rtSigaction sig act p).2)
  | .sigprocmask how set => s.set cur ((s.proc cur).onTarget fun p => (rtSigprocmask how set p).2)
  | .check =>
    match checkSignal R U (s.proc cur).signals.target with
    | .returned q => s.set cur ((s.proc cur).onTarget fun _ => q)
    | .exited sig q =>
      s.set cur { s.proc cur with state := .zombie, signals :=
        ⟨q, (s.proc cur).signals.raised, some sig⟩ }
  | .sigreturn => s.set cur ((s.proc cur).onTarget fun p => (rtSigreturn R U p).2)
  | .exec tf mem =>
    s.set cur ((s.proc cur).onTarget fun p =>
      { signalResetOnExec p with trapframe := tf, mem := mem })
  | .fault => s.set cur { s.proc cur with signals := (s.proc cur).signals.raise sigsegv }
  | .fork =>
    match (List.finRange nproc).find? fun i => (s.proc i).state = .unused with
    | none => s
    | some i =>
      { s.set i ⟨.runnable, s.nextPid, (s.proc i).chan, (s.proc cur).signals.child R⟩ with
        nextPid := s.nextPid + 1 }
  | .kill pid sig => (kill cur pid sig s).2
  | .interrupt owner => signalSend cur owner sigint s
  | .sleep chan => s.set cur { s.proc cur with state := .sleeping, chan := chan }
  | .wake chan => wakeup cur chan s
  | .yield => s.set cur { s.proc cur with state := .runnable }
  | .exit => s.set cur { s.proc cur with state := .zombie }
  | .reap child =>
    if (s.proc child).state = .zombie then
      s.set child { s.proc child with state := .unused, pid := 0 } else s

/-- A runnable process is dispatched; everything else is done by running ones. An interrupt may also
meet an idle CPU: `wakeup` passes over `cur` only, which does not sleep. -/
def Table.perform (s : Table μ) (cur : SlotId) (a : Act μ) : Option (Table μ) :=
  match a with
  | .dispatch =>
    if (s.proc cur).state = .runnable then
      some (s.set cur { s.proc cur with state := .running, chan := .none })
    else none
  | .interrupt owner =>
    if (s.proc cur).state = .sleeping then none else some (s.act R U cur (.interrupt owner))
  | a => if (s.proc cur).state = .running then some (s.act R U cur a) else none

def Step (s : Table μ) (a : SlotId × Act μ) (t : Table μ) : Prop := s.perform R U a.1 a.2 = some t

/-- The first process runs, the others are not in use. -/
def Table.init (tf : Trapframe) (mem : μ) : Table μ where
  proc i := ⟨if i = 0 then .running else .unused, if i = 0 then 1 else 0, .none,
    ⟨⟨tf, 0, 0, fun _ => ⟨0, 0, 0, 0⟩, mem, []⟩, [], none⟩⟩
  nextPid := 2

/-- A run with its actions given. -/
lemma run_of_any (acts : List (SlotId × Act μ))
    (h : (Run.play (fun s a => s.perform R U a.1 a.2) s acts).any P = true) :
    ∃ t, Run (Step R U) s acts t ∧ P t = true :=
  Run.of_play h

/-! ## What a step does to a process -/

def Slot.Active (p : Slot μ) : Prop := p.state ≠ .unused ∧ p.state ≠ .zombie

/-- The change of the slot `p` by an action of `cur`. -/
inductive Effect (s : Table μ) (cur : SlotId) : Act μ → Slot μ → Slot μ → Prop where
  | idle {a : Act μ} {p q : Slot μ} : q.signals = p.signals → (q.Active → p.Active) →
      Effect s cur a p q
  | raise {a : Act μ} {p q : Slot μ} (t : Nat) : t < 64 → q.signals = p.signals.raise (t + 1) →
      (q.Active → p.Active) → Effect s cur a p q
  | user {p : Slot μ} (tf : Trapframe) (mem : μ) :
      Effect s cur (.user tf mem) p (p.onTarget fun p => { p with trapframe := tf, mem := mem })
  | sigaction {p : Slot μ} (sig : Int) (act : Sigaction) :
      Effect s cur (.sigaction sig act) p (p.onTarget fun p => (rtSigaction sig act p).2)
  | sigprocmask {p : Slot μ} (how : Int) (set : Word) :
      Effect s cur (.sigprocmask how set) p (p.onTarget fun p => (rtSigprocmask how set p).2)
  | returned {p : Slot μ} {q : Target μ} : p.Active → checkSignal R U p.signals.target =
      .returned q →
      Effect s cur .check p (p.onTarget fun _ => q)
  | exited {p : Slot μ} {q : Target μ} {sig : Nat} : p.Active →
      checkSignal R U p.signals.target = .exited sig q →
      Effect s cur .check p { p with state := .zombie, signals := ⟨q, p.signals.raised, some sig⟩ }
  | sigreturn : Effect s cur .sigreturn (s.proc cur)
      ((s.proc cur).onTarget fun p => (rtSigreturn R U p).2)
  | exec {p : Slot μ} (tf : Trapframe) (mem : μ) : Effect s cur (.exec tf mem) p
      (p.onTarget fun p => { signalResetOnExec p with trapframe := tf, mem := mem })
  | fork {p q : Slot μ} : (s.proc cur).Active → q.signals = (s.proc cur).signals.child R →
      Effect s cur .fork p q

section Effect

variable {R U} {s t : Table μ} {cur : SlotId} {a : Act μ}

lemma effect_set (h : Effect R U s cur a (s.proc i) p) (j : SlotId) :
    Effect R U s cur a (s.proc j) ((s.set i p).proc j) := by
  by_cases hji : j = i
  · subst hji
    rwa [Table.set_self]
  · rw [Table.set_of_ne s hji]
    exact .idle rfl id

lemma wakeup_signals (cur : SlotId) (chan : Chan) (s : Table μ) (j : SlotId) :
    ((wakeup cur chan s).proc j).signals = (s.proc j).signals ∧
      (((wakeup cur chan s).proc j).Active → (s.proc j).Active) := by
  simp only [wakeup]
  split
  · rename_i h
    exact ⟨rfl, fun _ => by simp [Slot.Active, h.2.2]⟩
  · exact ⟨rfl, id⟩

lemma signalSend_signals (cur i : SlotId) (sig : Nat) (s : Table μ) (j : SlotId) :
    ((signalSend cur i sig s).proc j).signals =
        ((s.set i { s.proc i with signals := (s.proc i).signals.raise sig }).proc j).signals ∧
      (((signalSend cur i sig s).proc j).Active →
        ((s.set i { s.proc i with signals := (s.proc i).signals.raise sig }).proc j).Active) := by
  rw [signalSend]
  split
  · exact wakeup_signals ..
  · exact ⟨rfl, id⟩

lemma effect_signalSend (i : SlotId) (hu : u < 64) (j : SlotId) :
    Effect R U s cur a (s.proc j) ((signalSend cur i (u + 1) s).proc j) := by
  obtain ⟨hsig, hact⟩ := signalSend_signals cur i (u + 1) s j
  by_cases hji : j = i
  · subst hji
    rw [Table.set_self] at hsig hact
    exact .raise u hu hsig hact
  · rw [Table.set_of_ne s hji] at hsig hact
    exact .idle hsig hact

lemma effect_kill (pid sig : Int) (j : SlotId) :
    Effect R U s cur a (s.proc j) ((kill cur pid sig s).2.proc j) := by
  rw [kill]
  split
  · exact .idle rfl id
  · rename_i hsig
    split
    · exact .idle rfl id
    · split
      · exact .idle rfl id
      · obtain ⟨u, hu⟩ : ∃ u, sig.toNat = u + 1 := ⟨sig.toNat - 1, by omega⟩
        rw [hu]
        exact effect_signalSend _ (by simp only [nsig] at hsig; omega) j

lemma Step.effect (h : Step R U s (cur, a) t) (j : SlotId) :
    Effect R U s cur a (s.proc j) (t.proc j) := by
  simp only [Step, Table.perform] at h
  split at h
  · split at h
    · rename_i hstate
      cases h
      refine effect_set ?_ j
      exact .idle rfl fun _ => by simp [Slot.Active, hstate]
    · cases h
  · split at h <;> cases h
    exact effect_signalSend _ (u := 1) (by decide) j
  · split at h
    · rename_i hstate
      have hactive : (s.proc cur).Active := by simp [Slot.Active, hstate]
      cases h
      cases a with
      | dispatch => exact .idle rfl id
      | user tf mem => exact effect_set (.user tf mem) j
      | sigaction sig act => exact effect_set (.sigaction sig act) j
      | sigprocmask how set => exact effect_set (.sigprocmask how set) j
      | check =>
        simp only [Table.act]
        split
        · exact effect_set (.returned hactive ‹_›) j
        · exact effect_set (.exited hactive ‹_›) j
      | sigreturn => exact effect_set .sigreturn j
      | exec tf mem => exact effect_set (.exec tf mem) j
      | fault =>
        refine effect_set ?_ j
        exact .raise 10 (by decide) rfl id
      | fork =>
        simp only [Table.act]
        split
        · exact .idle rfl id
        · exact effect_set (.fork hactive rfl) j
      | kill pid sig => exact effect_kill pid sig j
      | interrupt owner => exact effect_signalSend owner (u := 1) (by decide) j
      | wake chan => exact .idle (wakeup_signals ..).1 (wakeup_signals ..).2
      | sleep chan | yield | exit =>
        refine effect_set ?_ j
        exact .idle rfl fun _ => hactive
      | reap child =>
        simp only [Table.act]
        split
        · refine effect_set ?_ j
          exact .idle rfl fun h => absurd rfl h.1
        · exact .idle rfl id
    · cases h

end Effect

/-! ## The signals that cannot be blocked -/

/-- Neither the blocked mask nor the mask of a handler has `SIGKILL` or `SIGSTOP`. -/
structure Spared (p : Target μ) : Prop where
  blocked : Spares p.sigBlocked
  mask : ∀ sig, Handled (p.actions sig) → Spares (p.actions sig).mask

/-- The masks that the process supplies spare the two signals: the mask of a handler that it
installs, and the mask in a frame that it returns from. -/
def MasksSpare (s : Table μ) (cur : SlotId) : Act μ → Prop
  | .sigaction _ act => Handled act → Spares act.mask
  | .sigreturn => ∀ frame, U.copyin ((s.proc cur).signals.target.trapframe R.sp)
      (s.proc cur).signals.target.mem =
      some frame → frame.getD R.epc 0 ≠ 0 → frame.getD R.sp 0 ≠ 0 → Spares (frame.getD 32 0)
  | _ => True

lemma spares_iff : Spares m ↔
    ∀ i, (sigmask sigkill ||| sigmask sigstop).getLsbD i = true → m.getLsbD i = false := by
  rw [Spares]
  constructor
  · intro h i hi
    have := congrArg (·.getLsbD i) h
    simpa [hi] using this
  · intro h
    refine BitVec.eq_of_getLsbD_eq fun i _ => ?_
    rw [getLsbD_and]
    cases hi : (sigmask sigkill ||| sigmask sigstop).getLsbD i with
    | false => simp
    | true => simp [h i hi]

section Spared

variable {R U} {p q : Target μ}

lemma Passed.spared (hpass : Passed R U p pre q) (h : Spared p) (hpend : Spares p.sigPending)
    (hpre : ∀ t ∈ pre, p.sigPending.getLsbD t = true) : Spared q := by
  refine ⟨spares_iff.mpr fun i hi => ?_, ?_⟩
  · rw [← Bool.not_eq_true, hpass.blocked fun t ht => lt_of_getLsbD (hpre t ht)]
    rintro (hb | ⟨s, hs, hh, hmask | rfl⟩)
    · rw [spares_iff.mp h.blocked i hi] at hb
      cases hb
    · rw [spares_iff.mp (h.mask _ hh) i hi] at hmask
      cases hmask
    · have := spares_iff.mp hpend i hi
      rw [hpre i hs] at this
      cases this
  · rw [hpass.actions_eq]
    exact h.mask

lemma pending_of_mem (ht : t ∈ setBits (p.sigPending &&& ~~~p.sigBlocked)) :
    p.sigPending.getLsbD t = true := by
  have hbit := mem_setBits.mp ht
  rw [getLsbD_and, Bool.and_eq_true] at hbit
  exact hbit.1

lemma checkSignal_spared (h : Spared p) : Spared (checkSignal R U p).target := by
  by_cases hforced : p.sigPending &&& (sigmask sigkill ||| sigmask sigstop) = 0
  · obtain ⟨pre, rest, q, hl, hq, hend⟩ := checkSignal_split R U hforced
    have hspared := hq.spared h hforced fun t ht => pending_of_mem (hl ▸ mem_append_left _ ht)
    generalize checkSignal R U p = o at hend
    cases hend <;> exact ⟨hspared.1, hspared.2⟩
  · rw [checkSignal, if_pos hforced]
    exact h

lemma rtSigprocmask_spared (h : Spared p) (how : Int) (set : Word) :
    Spared (rtSigprocmask how set p).2 := by
  have hset : Spares (set &&& ~~~(sigmask sigkill ||| sigmask sigstop)) := by
    refine spares_iff.mpr fun i hi => ?_
    rw [getLsbD_and, getLsbD_not, hi]
    simp
  simp only [rtSigprocmask]
  split
  · refine ⟨spares_iff.mpr fun i hi => ?_, h.mask⟩
    rw [getLsbD_or, spares_iff.mp h.blocked i hi, spares_iff.mp hset i hi]
    rfl
  split
  · refine ⟨spares_iff.mpr fun i hi => ?_, h.mask⟩
    rw [getLsbD_and, spares_iff.mp h.blocked i hi]
    rfl
  split
  · exact ⟨hset, h.mask⟩
  · exact h

lemma Effect.spared {s : Table μ} {cur : SlotId} {a : Act μ} {p q : Slot μ}
    (he : Effect R U s cur a p q) (hok : MasksSpare R U s cur a)
    (hall : ∀ i, Spared (s.proc i).signals.target) (h : Spared p.signals.target) :
    Spared q.signals.target := by
  cases he with
  | idle hsig _ | raise _ _ hsig _ =>
    rw [hsig]
    exact ⟨h.1, h.2⟩
  | user => exact ⟨h.1, h.2⟩
  | sigaction sig act =>
    simp only [Slot.onTarget, rtSigaction]
    split
    · exact h
    split
    · exact h
    refine ⟨h.1, fun i hi => ?_⟩
    by_cases hsig : i = sig.toNat
    · subst hsig
      simp only [update_self] at hi ⊢
      exact hok hi
    · simp only [update_of_ne hsig] at hi ⊢
      exact h.2 i hi
  | sigprocmask how set => exact rtSigprocmask_spared h how set
  | returned _ hcheck | exited _ hcheck =>
    have := checkSignal_spared (R := R) (U := U) h
    rwa [hcheck] at this
  | sigreturn =>
    simp only [Slot.onTarget, rtSigreturn]
    split
    · exact h
    · rename_i frame hframe
      split
      · exact h
      · rename_i hne
        push Not at hne
        exact ⟨hok frame hframe hne.1 hne.2, h.2⟩
  | exec =>
    refine ⟨h.1, fun i hi => ?_⟩
    simp only [Slot.onTarget, signalResetOnExec] at hi ⊢
    split at hi
    · exact absurd rfl hi.2.1
    · rename_i hkeep
      rw [if_neg hkeep]
      exact h.2 i hi
  | fork _ hsig =>
    rw [hsig]
    exact ⟨(hall cur).1, (hall cur).2⟩

lemma signalPending_of_kill (h : Spares p.sigBlocked) (hkill : blocks p.sigPending sigkill = true) :
    signalPending p = true := by
  rw [signalPending, decide_eq_true_eq]
  intro h0
  have hbit := congrArg (·.getLsbD 8) h0
  have hpend : p.sigPending.getLsbD 8 = true := hkill
  rw [getLsbD_and, getLsbD_not, spares_iff.mp h 8 (by decide), hpend] at hbit
  cases hbit

end Spared

/-- As long as the masks that processes supply spare them, `SIGKILL` and `SIGSTOP` are blocked
nowhere, and a pending `SIGKILL` is reported. -/
theorem kill_never_blocked {tf : Trapframe} {mem : μ} {acts : List (SlotId × Act μ)} {t : Table μ}
    (hrun : Run (fun s a t => MasksSpare R U s a.1 a.2 ∧ Step R U s a t) (Table.init tf mem) acts t)
    (i : SlotId) :
    Spares (t.proc i).signals.target.sigBlocked ∧
      (blocks (t.proc i).signals.target.sigPending sigkill = true →
        signalPending (t.proc i).signals.target = true) := by
  have hall := hrun.invariant (fun s => ∀ i, Spared (s.proc i).signals.target)
    (fun s a t hall ⟨hok, hstep⟩ i => (Step.effect hstep i).spared hok hall (hall i))
    (fun i => ⟨spares_iff.mpr fun _ _ => BitVec.getLsbD_zero, fun sig h => absurd rfl h.2.1⟩)
  exact ⟨(hall i).blocked, signalPending_of_kill (hall i).blocked⟩

/-- A handler whose mask has a harmless signal is installed and set up. -/
def handlerSetUp : List (SlotId × Act Unit) :=
  [(0, .sigaction 10 ⟨0x1000, 0, 0x3000, sigmask 12⟩), (0, .kill 1 10), (0, .check)]

theorem kill_never_blocked_handler : ∃ t : Table Unit,
    Run (fun s a t => MasksSpare riscvLayout boundless s a.1 a.2 ∧ Step riscvLayout boundless s a t)
      (Table.init (fun _ => 0) ()) handlerSetUp t ∧
    (t.proc 0).signals.target.log.length = 1 ∧ Spares (t.proc 0).signals.target.sigBlocked := by
  obtain ⟨t, hrun, hlog⟩ :=
    run_of_any (s := Table.init (fun _ => 0) ()) riscvLayout boundless handlerSetUp
    (P := fun t => (t.proc 0).signals.target.log.length = 1) (by decide +kernel)
  have hspare := hrun.restrict (P := fun s a => MasksSpare riscvLayout boundless s a.1 a.2) (by
    simp only [handlerSetUp, forall_mem_cons, not_mem_nil, MasksSpare]
    exact ⟨fun _ _ => by decide, fun _ => trivial, fun _ => trivial, nofun⟩)
  exact ⟨t, hspare, of_decide_eq_true hlog, (kill_never_blocked riscvLayout boundless hspare 0).1⟩

/-- The mask of a handler has `SIGKILL`. While the handler runs, a `SIGKILL` is pending and is not
reported. -/
theorem sigkill_blocked_by_handler :
    ∃ t, Run (Step riscvLayout boundless) (Table.init (fun _ => 0) ())
        [(0, .sigaction 10 ⟨0x1000, 0, 0x3000, sigmask sigkill⟩), (0, .kill 1 10),
          (0, .check), (0, .kill 1 9)] t ∧
      (blocks (t.proc 0).signals.target.sigBlocked sigkill && blocks
        (t.proc 0).signals.target.sigPending sigkill &&
        !signalPending (t.proc 0).signals.target) = true :=
  run_of_any riscvLayout boundless _ (by decide +kernel)

/-! ## Signals that were raised -/

/-- How often the signal has got a handler or has ended the process. -/
def Signals.delivered (g : Signals μ) (sig : Nat) : Nat :=
  g.target.log.countP (fun e => e.sig = sig) + if g.killed = some sig then 1 else 0

/-- The handlers of signal `t + 1` so far, and one more if it is pending. -/
def Target.claims (p : Target μ) (t : Nat) : Nat :=
  p.log.countP (fun e => e.sig = t + 1) + (p.sigPending.getLsbD t).toNat

/-- What the outcome of `check_signal` has claimed: after the end of the process nothing is
pending. -/
def Outcome.claims (t : Nat) : Outcome μ → Nat
  | .returned p => p.claims t
  | .exited sig p => p.log.countP (fun e => e.sig = t + 1) + if sig = t + 1 then 1 else 0

/-- No signal is delivered more often than it was raised; in an active process that includes what is
pending. -/
structure Accounted (p : Slot μ) : Prop where
  delivered : ∀ t, p.signals.delivered (t + 1) ≤ p.signals.raised.count (t + 1)
  killed : p.Active → p.signals.killed = none
  pending : p.Active → ∀ t, p.signals.target.claims t ≤ p.signals.raised.count (t + 1)

/-- A process forks without pending signals. -/
def ForksClean (s : Table μ) (cur : SlotId) : Act μ → Prop
  | .fork => (s.proc cur).signals.target.sigPending = 0
  | _ => True

section Accounted

variable {R U} {p q : Target μ}

lemma claims_clear (p : Target μ) (ht : t < 64) (i : Nat) :
    (p.clear (t + 1)).claims i ≤ p.claims i ∧
      (p.sigPending.getLsbD t = true → (p.clear (t + 1)).claims i + (if t = i then 1 else 0) =
        p.claims i) := by
  simp only [claims, clear, getLsbD_clear _ ht]
  constructor
  · cases p.sigPending.getLsbD i <;> simp [Bool.toNat_le]
  · intro hp
    by_cases hi : t = i
    · subst hi
      simp [hp]
    · simp [hi, Ne.symm hi]

lemma Passed.claims_le (h : Passed R U p pre q) (hnodup : pre.Nodup)
    (hpre : ∀ t ∈ pre, p.sigPending.getLsbD t = true) (i : Nat) : q.claims i ≤ p.claims i := by
  have hkeep : ∀ (p : Target μ) t (rest : List Nat), t ∉ rest → t < 64 →
      (∀ u ∈ t :: rest, p.sigPending.getLsbD u = true) →
      ∀ u ∈ rest, (p.sigPending &&& ~~~sigmask (t + 1)).getLsbD u = true := by
    intro p t rest hmem ht hpre u hu
    rw [getLsbD_clear _ ht, hpre u (mem_cons_of_mem _ hu)]
    simpa using fun h : u = t => hmem (h ▸ hu)
  induction h with
  | nil => exact le_rfl
  | @ignored p _ t rest _ _ ih =>
    have ht := lt_of_getLsbD (hpre t mem_cons_self)
    obtain ⟨hmem, hnodup⟩ := nodup_cons.mp hnodup
    exact (ih hnodup (hkeep p t rest hmem ht hpre)).trans (claims_clear p ht i).1
  | @entered p _ t rest mem _ _ _ ih =>
    have ht := lt_of_getLsbD (hpre t mem_cons_self)
    obtain ⟨hmem, hnodup⟩ := nodup_cons.mp hnodup
    refine (ih hnodup (hkeep p t rest hmem ht hpre)).trans_eq ?_
    rw [← (claims_clear p ht i).2 (hpre t mem_cons_self)]
    simp only [claims, enter, clear, countP_append, countP_singleton,
      add_right_cancel_iff, decide_eq_true_eq]
    omega

lemma getLsbD_forced (i : Nat) :
    (sigmask sigkill ||| sigmask sigstop).getLsbD i = (decide (i = 8) || decide (i = 18)) := by
  rw [getLsbD_or, sigkill, sigstop, getLsbD_sigmask 8 i (by decide),
    getLsbD_sigmask 18 i (by decide)]

lemma forced_pending (h : m &&& (sigmask sigkill ||| sigmask sigstop) ≠ 0) :
    ∃ u, (if m &&& (sigmask sigkill ||| sigmask sigstop) &&& sigmask sigkill ≠ 0 then sigkill
      else sigstop) = u + 1 ∧
      m.getLsbD u = true := by
  cases hkill : m.getLsbD 8 with
  | true =>
    rw [if_pos]
    · exact ⟨8, rfl, hkill⟩
    · intro h0
      have := congrArg (·.getLsbD 8) h0
      rw [getLsbD_and, getLsbD_and, hkill] at this
      revert this
      decide
  | false =>
    rw [if_neg]
    · refine ⟨18, rfl, ?_⟩
      by_contra hstop
      refine h (spares_iff.mpr fun i hi => ?_)
      rw [getLsbD_forced, Bool.or_eq_true, decide_eq_true_eq, decide_eq_true_eq] at hi
      rcases hi with rfl | rfl
      · exact hkill
      · simpa using hstop
    · rw [not_not]
      refine BitVec.eq_of_getLsbD_eq fun i _ => ?_
      rw [getLsbD_and, getLsbD_and, sigkill, getLsbD_sigmask 8 i (by decide)]
      by_cases hi : i = 8
      · rw [hi, hkill]
        rfl
      · simp [hi]

/-- What `check_signal` delivers was pending. -/
lemma checkSignal_claims (p : Target μ) (i : Nat) : (checkSignal R U p).claims i ≤ p.claims i := by
  by_cases hforced : p.sigPending &&& (sigmask sigkill ||| sigmask sigstop) = 0
  · obtain ⟨pre, rest, q, hl, hq, hend⟩ := checkSignal_split R U hforced
    generalize checkSignal R U p = o at hend
    have hpend : ∀ t ∈ pre ++ rest, p.sigPending.getLsbD t = true := fun t ht =>
      pending_of_mem (hl ▸ ht)
    have hpre : ∀ t ∈ pre, p.sigPending.getLsbD t = true := fun t ht =>
      hpend t (mem_append_left _ ht)
    have hnodup := (pairwise_setBits (p.sigPending &&& ~~~p.sigBlocked)).imp fun h => h.ne
    rw [hl] at hnodup
    have hle := hq.claims_le (nodup_append.mp hnodup).1 hpre i
    cases hend with
    | done | stuck | torn => exact hle
    | @died u rest _ =>
      have hu := hpend u (mem_append_right _ mem_cons_self)
      have huq : q.sigPending.getLsbD u = true := by
        rw [hq.pending fun t ht => lt_of_getLsbD (hpre t ht), hu]
        simpa using fun hmem => (nodup_append.mp hnodup).2.2 u hmem u mem_cons_self rfl
      have hclear := (claims_clear q (lt_of_getLsbD hu) i).2 huq
      refine (le_trans ?_ hclear.le).trans hle
      simp only [Outcome.claims, claims, add_right_cancel_iff]
      omega
  · rw [checkSignal, if_pos hforced]
    obtain ⟨u, hu, hbit⟩ := forced_pending hforced
    rw [hu]
    simp only [Outcome.claims, claims, add_right_cancel_iff]
    split
    · subst u
      rw [hbit]
      rfl
    · omega

lemma Accounted.onTarget {p : Slot μ} (h : Accounted p) {f : Target μ → Target μ}
    (hlog : (f p.signals.target).log = p.signals.target.log)
    (hclaims : ∀ t, (f p.signals.target).claims t ≤ p.signals.target.claims t) :
    Accounted (p.onTarget f) := by
  refine ⟨fun t => ?_, h.killed, fun hact t => (hclaims t).trans (h.pending hact t)⟩
  have := h.delivered t
  simp only [Signals.delivered, Slot.onTarget, hlog] at this ⊢
  exact this

lemma Accounted.raise {p q : Slot μ} (h : Accounted p) {u : Nat} (hu : u < 64)
    (hsig : q.signals = p.signals.raise (u + 1)) (hact : q.Active → p.Active) : Accounted q := by
  have hcount : ∀ t, (p.signals.raise (u + 1)).raised.count (t + 1) =
      p.signals.raised.count (t + 1) + if t = u then 1 else 0 := by
    intro t
    rw [Signals.raise, count_append, count_singleton]
    simp only [beq_iff_eq, add_right_cancel_iff, eq_comm (a := u)]
  refine ⟨fun t => ?_, fun hq => ?_, fun hq t => ?_⟩
  · have := h.delivered t
    rw [hsig, hcount]
    exact this.trans (Nat.le_add_right ..)
  · rw [hsig]
    exact h.killed (hact hq)
  · have := h.pending (hact hq) t
    rw [hsig, hcount]
    simp only [claims, Signals.raise, getLsbD_or, getLsbD_sigmask u t hu] at this ⊢
    by_cases htu : t = u
    · subst htu
      simp only [decide_true, Bool.or_true, Bool.toNat_true, if_true] at this ⊢
      omega
    · simpa [htu] using this

lemma Effect.accounted {s : Table μ} {cur : SlotId} {a : Act μ} {p q : Slot μ}
    (he : Effect R U s cur a p q) (hok : ForksClean s cur a) (h : Accounted p) : Accounted q := by
  cases he with
  | idle hsig hact =>
    refine ⟨fun t => ?_, fun hq => ?_, fun hq t => ?_⟩
    all_goals rw [hsig]
    exacts [h.delivered t, h.killed (hact hq), h.pending (hact hq) t]
  | raise u hu hsig hact => exact h.raise hu hsig hact
  | user => exact h.onTarget rfl fun _ => le_rfl
  | sigaction | sigprocmask | sigreturn =>
    refine h.onTarget ?_ fun _ => ?_ <;>
    · simp only [rtSigaction, rtSigprocmask, rtSigreturn]
      repeat' split
      all_goals rfl
  | exec =>
    refine h.onTarget rfl fun t => Nat.add_le_add_left ?_ _
    simp [signalResetOnExec]
  | @returned p q hact hcheck =>
    have hclaims : ∀ t, q.claims t ≤ p.signals.raised.count (t + 1) := by
      intro t
      have := checkSignal_claims (R := R) (U := U) p.signals.target t
      rw [hcheck] at this
      exact this.trans (h.pending hact t)
    refine ⟨fun t => ?_, h.killed, fun _ => hclaims⟩
    have := hclaims t
    simp only [Signals.delivered, Slot.onTarget, h.killed hact, claims] at this ⊢
    simp only [reduceCtorEq, if_false]
    omega
  | @exited p q sig hact hcheck =>
    refine ⟨fun t => ?_, fun hz => absurd rfl hz.2, fun hz => absurd rfl hz.2⟩
    have := checkSignal_claims (R := R) (U := U) p.signals.target t
    rw [hcheck] at this
    simp only [Signals.delivered, Option.some.injEq]
    exact this.trans (h.pending hact t)
  | fork _ hsig =>
    have hzero : ((s.proc cur).signals.child R).target.sigPending = 0 := hok
    refine ⟨fun t => ?_, fun _ => ?_, fun _ t => ?_⟩
    all_goals rw [hsig]
    · simp [Signals.delivered, Signals.child]
    · rfl
    · rw [claims, hzero]
      simp [Signals.child]

end Accounted

/-- In a run in which no process forks with pending signals, no process gets a signal more often
than it was raised for that process. -/
theorem delivered_le_raised {tf : Trapframe} {mem : μ} {acts : List (SlotId × Act μ)} {t : Table μ}
    (hrun : Run (fun s a t => ForksClean s a.1 a.2 ∧ Step R U s a t) (Table.init tf mem) acts t)
    (i : SlotId) {sig : Nat} (hsig : sig ≠ 0) :
    (t.proc i).signals.delivered sig ≤ (t.proc i).signals.raised.count sig := by
  have hall := hrun.invariant (fun s => ∀ i, Accounted (s.proc i))
    (fun s a t hall ⟨hok, hstep⟩ i => (Step.effect hstep i).accounted hok (hall i))
    (fun i => ⟨fun t => by simp [Table.init, Signals.delivered], fun _ => rfl,
      fun _ t => by simp [Table.init, Target.claims]⟩)
  obtain ⟨u, rfl⟩ := exists_eq_succ_of_ne_zero hsig
  exact (hall i).delivered u

/-- A child gets the signal that is raised for it after the fork. -/
theorem delivered_to_child : ∃ t : Table Unit,
    Run (fun s a t => ForksClean s a.1 a.2 ∧ Step riscvLayout boundless s a t)
      (Table.init (fun _ => 0) ()) [(0, .fork), (0, .kill 2 10), (1, .dispatch), (1, .check)] t ∧
    (t.proc 1).signals.delivered 10 = 1 ∧
    (t.proc 1).signals.delivered 10 ≤ (t.proc 1).signals.raised.count 10 := by
  obtain ⟨t, hrun, hlog⟩ :=
    run_of_any (s := (Table.init (fun _ => 0) ()).act riscvLayout boundless 0 .fork)
    riscvLayout boundless [(0, .kill 2 10), (1, .dispatch), (1, .check)]
    (P := fun t => (t.proc 1).signals.delivered 10 = 1) (by decide +kernel)
  have hrest := hrun.restrict (P := fun s a => ForksClean s a.1 a.2) (by
    simp only [forall_mem_cons, not_mem_nil, ForksClean]
    exact ⟨fun _ => trivial, fun _ => trivial, fun _ => trivial, nofun⟩)
  have hclean : ForksClean (Table.init (fun _ => 0) ()) 0 .fork := rfl
  have hfork : Step riscvLayout boundless (Table.init (fun _ => 0) ()) (0, .fork)
    ((Table.init (fun _ => 0) ()).act riscvLayout boundless 0 .fork) := rfl
  have hall := Run.cons ⟨hclean, hfork⟩ hrest
  exact ⟨t, hall, of_decide_eq_true hlog,
    delivered_le_raised riscvLayout boundless hall 1 (by decide)⟩

/-- The parent blocks signal 10, sends it to itself and forks; it ends the child, for which it was
never raised. -/
theorem child_gets_pending_signal :
    ∃ t, Run (Step riscvLayout boundless) (Table.init (fun _ => 0) ())
        [(0, .sigprocmask 0 (sigmask 10)), (0, .kill 1 10), (0, .fork),
          (1, .dispatch), (1, .sigprocmask 1 (sigmask 10)),
          (1, .check)] t ∧
      decide ((t.proc 1).signals.delivered 10 = 1 ∧ (t.proc 1).signals.raised = []) = true :=
  run_of_any riscvLayout boundless _ (by decide +kernel)

/-! ## Waking up for a signal -/

/-- A sleeping process that `kill` finds is made runnable, with the signal pending, exactly if it
sleeps on its own entry. -/
theorem kill_wakes_iff {s : Table μ} {cur i : SlotId} {pid sig : Int}
    (hcur : (s.proc cur).state = .running) (hfind : s.find pid = some i)
    (hsleep : (s.proc i).state = .sleeping) (hpos : 1 ≤ sig) (hlt : sig < nsig) :
    ((kill cur pid sig s).1 = 0 ∧ ((kill cur pid sig s).2.proc i).state = .runnable ∧
      blocks ((kill cur pid sig s).2.proc i).signals.target.sigPending sig.toNat = true) ↔
    (s.proc i).chan = .proc i := by
  have hne : i ≠ cur := by
    rintro rfl
    rw [hcur] at hsleep
    cases hsleep
  obtain ⟨u, hu⟩ : ∃ u, sig.toNat = u + 1 := ⟨sig.toNat - 1, by omega⟩
  have hu64 : u < 64 := by simp only [nsig] at hlt; omega
  have hkill : kill cur pid sig s = (0, signalSend cur i (u + 1) s) := by
    rw [kill, if_neg (by omega), hfind, ← hu]
    exact if_neg (by omega)
  have hsend : signalSend cur i (u + 1) s =
      wakeup cur (.proc i)
        (s.set i { s.proc i with signals := (s.proc i).signals.raise (u + 1) }) := by
    rw [signalSend]
    exact if_pos (by rw [Table.set_self]; exact hsleep)
  have hpend := (signalSend_signals cur i (u + 1) s i).1
  rw [Table.set_self] at hpend
  have hstate : ((signalSend cur i (u + 1) s).proc i).state =
      if (s.proc i).chan = .proc i then .runnable else .sleeping := by
    rw [hsend]
    simp only [wakeup, Table.set_self, hne, hsleep, ne_eq, not_false_eq_true, true_and, and_true]
    split <;> rfl
  rw [hkill, hu]
  simp only [hstate, hpend, true_and]
  have hbit : blocks (((s.proc i).signals.raise (u + 1)).target.sigPending) (u + 1) = true := by
    simp [blocks, Signals.raise, getLsbD_sigmask u u hu64]
  simp [hbit]

/-- A process that waits for its children is woken. -/
theorem kill_wakes_waiting : ∃ s : Table Unit, (s.proc 1).state = .sleeping ∧
    ((kill 0 2 10 s).2.proc 1).state = .runnable := by
  obtain ⟨s, -, hs⟩ := run_of_any (s := Table.init (fun _ => 0) ()) riscvLayout boundless
    [(0, .fork), (1, .dispatch), (1, .sleep (.proc 1))]
    (P := fun s => (s.proc 0).state = .running ∧ s.find 2 = some 1 ∧ (s.proc 1).state = .sleeping ∧
      (s.proc 1).chan = .proc 1) (by decide +kernel)
  obtain ⟨hcur, hfind, hsleep, hchan⟩ := of_decide_eq_true hs
  exact ⟨s, hsleep, ((kill_wakes_iff hcur hfind hsleep (by decide) (by decide)).mpr hchan).2.1⟩

/-- A reader of an empty pipe is not woken by `kill`. -/
theorem kill_leaves_reader_asleep :
    ∃ t, Run (Step riscvLayout boundless) (Table.init (fun _ => 0) ())
        [(0, .fork), (1, .dispatch), (1, .sleep (.pipeRead 0)), (0, .kill 2 9)] t ∧
      decide ((t.proc 1).state = .sleeping ∧ blocks (t.proc 1).signals.target.sigPending 9) =
        true :=
  run_of_any riscvLayout boundless _ (by decide +kernel)

/-! ## Arguments and results in user memory -/

/-- Objects in user memory, with `copyin` and `copyout` of them. -/
structure UserObject (μ α : Type) where
  read : Word → μ → α
  copyin : Word → μ → Option α × μ
  copyout : Word → α → μ → Bool × μ
  read_copyout : ∀ a x m m', copyout a x m = (true, m') → read a m' = x

/-- `copyin` of an argument that may be null. -/
def UserObject.fetch (U : UserObject μ α) (a : Word) (m : μ) : Option (Option α) × μ :=
  if a = 0 then (some none, m) else ((U.copyin a m).1.map some, (U.copyin a m).2)

/-- `copyout` to an address that may be null. -/
def UserObject.give (U : UserObject μ α) (a : Word) (x : α) (m : μ) : Bool × μ :=
  if a = 0 then (true, m) else U.copyout a x m

/-- `sys_rt_sigaction`; `act` is the result of `kmalloc`. -/
def sysRtSigaction (U : UserObject μ Sigaction) (act : Bool) (sig : Int) (actAddr oldActAddr : Word)
    (sigsetsize : Int) (p : Target μ) : Int × Target μ :=
  if sig < 1 ∨ sig ≥ nsig then (-eInval, p)
  else if sigsetsize ≠ nsig / 8 then (-eInval, p)
  else if sig = sigkill ∨ sig = sigstop then (-eInval, p)
  else if !act then (-eNoMem, p)
  else
    match U.fetch actAddr p.mem with
    | (none, mem) => (-eFault, { p with mem })
    | (some new, mem) =>
      match U.give oldActAddr (p.actions sig.toNat) mem with
      | (false, mem) => (-eFault, { p with mem })
      | (true, mem) => (0, { new.elim p fun act => (rtSigaction sig act p).2 with mem })

def sysRtSigprocmask (U : UserObject μ Word) (how : Int) (setAddr oldSetAddr : Word)
    (sigsetsize : Int) (p : Target μ) : Int × Target μ :=
  if sigsetsize ≠ nsig / 8 then (-eInval, p)
  else if setAddr ≠ 0 ∧ (how < 0 ∨ how > 2) then (-eInval, p)
  else
    match U.fetch setAddr p.mem with
    | (none, mem) => (-eFault, { p with mem })
    | (some new, mem) =>
      -- the mask has changed when the copy of the old one fails
      let q := new.elim p fun set => (rtSigprocmask how set p).2
      match U.give oldSetAddr p.sigBlocked mem with
      | (false, mem) => (-eFault, { q with mem })
      | (true, mem) => (0, { q with mem })

/-- An error leaves the signal state as it was, and a call without one has stored the old value. -/
def AllOrNothing (U : UserObject μ α) (a : Word) (old : α) (p : Target μ) (r : Int × Target μ) :
    Prop :=
  (r.1 < 0 → r.2.sigBlocked = p.sigBlocked ∧ r.2.actions = p.actions ∧
    r.2.sigPending = p.sigPending) ∧
    (r.1 = 0 → a ≠ 0 → U.read a r.2.mem = old)

/-- The call has no effect, or the old mask can be copied out. -/
def Storable (U : UserObject μ Word) (how : Int) (setAddr oldSetAddr : Word) (sigsetsize : Int)
    (p : Target μ) : Prop :=
  sigsetsize = nsig / 8 → ¬(setAddr ≠ 0 ∧ (how < 0 ∨ how > 2)) → ∀ set mem,
    U.fetch setAddr p.mem = (some (some set), mem) →
      (rtSigprocmask how set p).2.sigBlocked = p.sigBlocked ∨
        (U.give oldSetAddr p.sigBlocked mem).1 = true

section UserObject

variable {α : Type} {U : UserObject μ α} {a : Word} {old : α} {p : Target μ}

lemma allOrNothing_error_iff {e : Int} (he : 0 < e) (q : Target μ) :
    AllOrNothing U a old p (-e, q) ↔
    q.sigBlocked = p.sigBlocked ∧ q.actions = p.actions ∧ q.sigPending = p.sigPending :=
  ⟨fun h => h.1 (Int.neg_neg_of_pos he), fun h =>
    ⟨fun _ => h, fun h0 => absurd (Int.neg_eq_zero.mp h0) he.ne'⟩⟩

lemma allOrNothing_error (e : Int) (he : 0 < e) (mem : μ) :
    AllOrNothing U a old p (-e, { p with mem }) :=
  (allOrNothing_error_iff he _).mpr ⟨rfl, rfl, rfl⟩

lemma allOrNothing_ok {m m' : μ} (h : U.give a old m = (true, m')) (q : Target μ) :
    AllOrNothing U a old p (0, { q with mem := m' }) := by
  refine ⟨fun h => absurd h (lt_irrefl 0), fun _ ha => ?_⟩
  rw [UserObject.give, if_neg ha] at h
  exact U.read_copyout _ _ _ _ h

end UserObject

/-- `rt_sigaction` is all or nothing. `rt_sigprocmask` changes the mask before it stores the old
one, and is all or nothing exactly if that copy succeeds or nothing changes. -/
theorem sigprocmask_all_or_nothing_iff (U : UserObject μ Sigaction) (V : UserObject μ Word)
    (p : Target μ) :
    (∀ act sig actAddr oldActAddr sigsetsize, AllOrNothing U oldActAddr (p.actions sig.toNat) p
      (sysRtSigaction U act sig actAddr oldActAddr sigsetsize p)) ∧
    ∀ how setAddr oldSetAddr sigsetsize, AllOrNothing V oldSetAddr p.sigBlocked p
      (sysRtSigprocmask V how setAddr oldSetAddr sigsetsize p) ↔
        Storable V how setAddr oldSetAddr sigsetsize p := by
  refine ⟨fun act sig actAddr oldActAddr sigsetsize => ?_, fun how setAddr oldSetAddr
    sigsetsize => ?_⟩
  · fun_cases sysRtSigaction
    case case7 hgive => exact allOrNothing_ok hgive _
    all_goals exact allOrNothing_error _ (by decide) _
  · fun_cases sysRtSigprocmask
    case case1 hsize =>
      exact iff_of_true (allOrNothing_error _ (by decide) _) fun h => absurd h hsize
    case case2 hhow =>
      exact iff_of_true (allOrNothing_error _ (by decide) _) fun _ h => absurd hhow h
    case case3 hfetch =>
      refine iff_of_true (allOrNothing_error _ (by decide) _) fun _ _ set m hf => ?_
      rw [hfetch] at hf
      cases hf
    case case4 hsize hhow new mem hfetch q mem' hgive =>
      cases new with
      | none =>
        refine iff_of_true (allOrNothing_error _ (by decide) _) fun _ _ set m hf => ?_
        rw [hfetch] at hf
        cases hf
      | some set =>
        have hrest : q.actions = p.actions ∧ q.sigPending = p.sigPending := by
          simp only [q, Option.elim, rtSigprocmask]
          split_ifs <;> exact ⟨rfl, rfl⟩
        rw [allOrNothing_error_iff (by decide), and_iff_left hrest]
        refine ⟨fun h _ _ set' m hf => .inl ?_, fun h => ?_⟩
        · rw [hfetch] at hf
          cases hf
          exact h
        · have hmask := h (not_not.mp hsize) hhow set mem hfetch
          rw [hgive] at hmask
          exact hmask.resolve_right nofun
    case case5 hfetch q mem' hgive =>
      refine iff_of_true (allOrNothing_ok hgive _) fun _ _ set m hf => .inr ?_
      rw [hfetch] at hf
      cases hf
      rw [hgive]

/-- User memory of one word, at the address 8. -/
def oneWord : UserObject Word Word where
  read _ m := m
  copyin a m := (if a = 8 then some m else none, m)
  copyout a x m := if a = 8 then (true, x) else (false, m)
  read_copyout := by grind

/-- The set at 8 is blocked although the old set cannot be stored at 16. -/
theorem sigprocmask_fault_blocks : ∃ q,
    sysRtSigprocmask oneWord 0 8 16 8 ⟨0, 0, 0, fun _ => ⟨0, 0, 0, 0⟩, 2, []⟩ = (-eFault, q) ∧
      q.sigBlocked = 2 :=
  ⟨_, rfl, by decide⟩

end FrostVista.Kernel.Signal
